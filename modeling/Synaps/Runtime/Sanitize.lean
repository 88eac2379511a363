import Synaps.Lib.Json
import Mathlib.Data.List.SplitBy

/-!
The pass over a request's messages that drops blocks the provider refuses, drops assistant
messages that are left without blocks, and merges neighbours of the same role.
-/

set_option autoImplicit false

namespace Synaps.Sanitize

open Json
open List hiding lookup

abbrev Message := List (String × Value)

def field (m : Message) (k : String) : Value := (lookup k m).getD .null

def role (m : Message) : Value := field m "role"

def content (m : Message) : Value := field m "content"

def nonEmptyStr (v : Value) : Bool := v.asStr?.any (· ≠ "")

def sanitationKeepsBlock (block : Value) : Bool :=
  match (block.index "type").asStr? with
  | some "thinking" =>
      nonEmptyStr (block.index "thinking") ||
        ((block.index "thinking").asStr?.isSome && nonEmptyStr (block.index "signature"))
  | some "redacted_thinking" => nonEmptyStr (block.index "data")
  | some "text" => nonEmptyStr (block.index "text")
  | _ => true

def textBlock (s : String) : Value := .object [("text",.string s),("type",.string "text")]

def coerceContentToBlocks : Value → List Value
  | .string s => if s ≠ "" then [textBlock s] else []
  | .array a => a
  | _ => []

def isAssistant (m : Message) : Bool := role m = .string "assistant"

/-- The message after its blocks were filtered; `none` if that left it no block. -/
def filterBlocks (m : Message) : Option Message :=
  if isAssistant m then
    match (content m).asArray? with
    | some blocks =>
        let survivors := blocks.countP sanitationKeepsBlock
        if survivors = 0 then none
        else if survivors < blocks.length then
          some (setEntry "content" (.array (blocks.filter sanitationKeepsBlock)) m)
        else some m
    | none => some m
  else some m

def mergeInto (last msg : Message) : Message :=
  insertEntry "content"
    (.array (coerceContentToBlocks (content last) ++ coerceContentToBlocks (content msg))) last

def push (out : List Message) (msg : Message) : List Message :=
  match out.getLast? with
  | some last =>
      if role last = role msg then out.dropLast ++ [mergeInto last msg] else out ++ [msg]
  | none => out ++ [msg]

def pass (out : List Message) (msg : Message) : List Message :=
  match filterBlocks msg with
  | some kept => push out kept
  | none => out

def sanitizeThinkingBlocks (messages : List Message) : List Message := messages.foldl pass []

def sameRole (a b : Message) : Bool := role a = role b

/-- The input with the dropped blocks, and the messages they leave empty, removed. -/
def remaining (messages : List Message) : List Message := messages.filterMap filterBlocks

def blocks (m : Message) : List Value := coerceContentToBlocks (content m)

def runBlocks (messages : List Message) : List (Option Value × List Value) :=
  (messages.splitBy sameRole).map (fun run => (run.head?.map role,run.flatMap blocks))

/-- What the provider asks of an assistant message. -/
def WellFormed (m : Message) : Prop :=
  isAssistant m = true → ∀ bs, content m = .array bs →
    bs ≠ [] ∧ ∀ b ∈ bs, sanitationKeepsBlock b = true

/-- No run of two or more assistant messages is without any block. -/
def NoEmptyRun (messages : List Message) : Prop :=
  ∀ run ∈ (remaining messages).splitBy sameRole, 2 ≤ run.length →
    (∀ m ∈ run, isAssistant m = true) → ∃ m ∈ run, blocks m ≠ []

variable (last : Message)

theorem role_mergeInto (msg : Message) : role (mergeInto last msg) = role last := by
  unfold role field mergeInto
  rw [lookup_insertEntry_ne _ _ (by decide)]

theorem content_mergeInto (msg : Message) :
    content (mergeInto last msg) = .array (blocks last ++ blocks msg) := by
  simp [content,field,mergeInto,lookup_insertEntry,blocks]

def joined : List Message → Message
  | [] => []
  | m :: ms => ms.foldl mergeInto m

theorem role_foldl (m : Message) (ms : List Message) : role (ms.foldl mergeInto m) = role m := by
  induction ms generalizing m with
  | nil => rfl
  | cons n ms ih => rw [foldl_cons,ih,role_mergeInto]

theorem blocks_mergeInto (msg : Message) :
    blocks (mergeInto last msg) = blocks last ++ blocks msg := by
  rw [blocks,content_mergeInto]
  rfl

theorem blocks_foldl (m : Message) (ms : List Message) :
    blocks (ms.foldl mergeInto m) = blocks m ++ ms.flatMap blocks := by
  induction ms generalizing m with
  | nil => simp
  | cons n ms ih => rw [foldl_cons,ih,blocks_mergeInto,append_assoc,flatMap_cons]

variable {run : List Message}

theorem joined_concat (h : run ≠ []) (m : Message) :
    joined (run ++ [m]) = mergeInto (joined run) m := by
  cases run with
  | nil => exact absurd rfl h
  | cons n ms => simp [joined]

theorem role_joined (h : run ≠ []) : some (role (joined run)) = run.head?.map role := by
  cases run with
  | nil => exact absurd rfl h
  | cons m ms => simp [joined,role_foldl]

theorem blocks_joined (run : List Message) : blocks (joined run) = run.flatMap blocks := by
  cases run with
  | nil => simp [joined,blocks,content,field,lookup,coerceContentToBlocks]
  | cons m ms => rw [joined,blocks_foldl,flatMap_cons]

theorem content_joined (h : 2 ≤ run.length) :
    content (joined run) = .array (run.flatMap blocks) := by
  obtain ⟨ms,m,rfl⟩ := (eq_nil_or_concat run).resolve_left (by rintro rfl; simp at h)
  simp only [concat_eq_append,length_append,length_singleton] at h ⊢
  have hne : ms ≠ [] := by
    rintro rfl
    simp at h
  rw [joined_concat hne,content_mergeInto,blocks_joined,flatMap_append]
  simp

variable (messages : List Message)

theorem foldl_pass (out : List Message) :
    messages.foldl pass out = (remaining messages).foldl push out := by
  induction messages generalizing out with
  | nil => rfl
  | cons m messages ih =>
    rw [foldl_cons,ih,remaining,remaining,filterMap_cons,pass]
    cases filterBlocks m with
    | none | some kept => rfl

theorem isChain_of_role {r : Value} (h : ∀ m ∈ run, role m = r) :
    run.IsChain (fun a b => sameRole a b = true) := by
  refine (pairwise_iff_forall_sublist.mpr (fun {a b} hab => ?_)).isChain
  have ha := h a (hab.subset (by simp))
  have hb := h b (hab.subset (by simp))
  simp [sameRole,ha,hb]

theorem role_of_isChain (h : run.IsChain (fun a b => sameRole a b = true)) :
    ∀ m ∈ run, some (role m) = run.head?.map role := by
  induction run with
  | nil => simp
  | cons m ms ih =>
    intro n hn
    rcases mem_cons.mp hn with rfl | hn
    · rfl
    cases ms with
    | nil => simp at hn
    | cons k ks =>
      rw [isChain_cons_cons] at h
      have hk : role m = role k := by simpa [sameRole] using h.1
      have hr := ih h.2 n hn
      simpa [hk] using hr

theorem role_joined_mem {r : Value} (hne : run ≠ []) (h : ∀ m ∈ run, role m = r) :
    role (joined run) = r := by
  cases run with
  | nil => exact absurd rfl hne
  | cons m ms => rw [joined,role_foldl,h m (by simp)]

/-- The induction is on the messages still to come; `cur` is the run that the last
message of the output stands for. -/
theorem foldl_push {cur : List Message} {r : Value} (hne : cur ≠ [])
    (hr : ∀ m ∈ cur, role m = r) (xs out : List Message) :
    xs.foldl push (out ++ [joined cur]) = out ++ ((cur ++ xs).splitBy sameRole).map joined := by
  induction xs generalizing cur r out with
  | nil =>
    rw [append_nil,splitBy_of_isChain hne (isChain_of_role hr)]
    rfl
  | cons x xs ih =>
    have hj := role_joined_mem hne hr
    by_cases hx : r = role x
    · have hp : push (out ++ [joined cur]) x = out ++ [joined (cur ++ [x])] := by
        simp [push,hj,hx,joined_concat hne]
      have hr' : ∀ m ∈ cur ++ [x], role m = r := by
        simpa [or_imp,forall_and,hx] using hr
      rw [foldl_cons,hp,ih (by simp) hr',append_assoc,singleton_append]
    · have hp : push (out ++ [joined cur]) x = (out ++ [joined cur]) ++ [joined [x]] := by
        simp [push,hj,hx,show joined [x] = x from rfl]
      rw [foldl_cons,hp,ih (by simp) (r := role x) (by simp),singleton_append,
        splitBy_append_cons,splitBy_of_isChain hne (isChain_of_role hr)]
      · simp
      · intro m hm
        simp [sameRole,hr m (mem_of_getLast? hm),hx]

theorem sanitize_eq : sanitizeThinkingBlocks messages =
      ((remaining messages).splitBy sameRole).map joined := by
  rw [sanitizeThinkingBlocks,foldl_pass]
  cases remaining messages with
  | nil => rfl
  | cons m ms =>
    have hr : ∀ n ∈ [m], role n = role m := by simp
    exact foldl_push (cons_ne_nil m []) hr ms []

theorem sanitize_alternates :
    (sanitizeThinkingBlocks messages).IsChain (fun a b => role a ≠ role b) := by
  rw [sanitize_eq,isChain_map]
  refine (isChain_getLast_head_splitBy sameRole _).imp_of_mem_imp ?_
  rintro a b ha hb ⟨hla,hhb,hne⟩
  have hra := role_of_isChain (isChain_of_mem_splitBy ha) _ (getLast_mem hla)
  have hrb : some (role (b.head hhb)) = b.head?.map role := by
    rw [head?_eq_some_head hhb]
    rfl
  rw [← role_joined hla] at hra
  rw [← role_joined hhb] at hrb
  simpa [sameRole,Option.some.inj hra,Option.some.inj hrb] using hne

theorem splitBy_alternating {messages : List Message}
    (h : messages.IsChain (fun a b => role a ≠ role b)) :
    messages.splitBy sameRole = messages.map (fun m => [m]) := by
  rw [splitBy_eq_iff]
  refine ⟨?_,by simp,by simp,?_⟩
  · rw [← flatMap_def,flatMap_singleton']
  · rw [isChain_map]
    exact h.imp (fun a b hab => ⟨by simp,by simp,decide_eq_false hab⟩)

theorem runBlocks_sanitize :
    runBlocks (sanitizeThinkingBlocks messages) = runBlocks (remaining messages) := by
  unfold runBlocks
  rw [splitBy_alternating (sanitize_alternates messages),sanitize_eq,map_map,map_map]
  refine map_congr_left (fun run hrun => ?_)
  have hr := role_joined (ne_nil_of_mem_splitBy hrun)
  simp [blocks_joined,hr]

variable {m : Message}

theorem lookup_content {bs : List Value} (h : (content m).asArray? = some bs) :
    lookup "content" m = some (.array bs) :=
  Value.get?_of_index (v := .object m) (Value.asArray?_eq_some h) (by simp)

theorem filterBlocks_wellFormed {kept : Message} (h : filterBlocks m = some kept) :
    WellFormed kept := by
  unfold filterBlocks at h
  split at h
  · split at h
    · rename_i bs hbs
      simp only [countP_eq_length_filter] at h
      split at h
      · simp at h
      · rename_i hpos
        split at h
        · cases h
          intro _ cs hcs
          have hc : content (setEntry "content" (.array (bs.filter sanitationKeepsBlock)) m) =
              .array (bs.filter sanitationKeepsBlock) := by
            simp [content,field,lookup_setEntry _ (lookup_content hbs)]
          obtain rfl : bs.filter sanitationKeepsBlock = cs := by
            rw [hc] at hcs
            exact Value.array.inj hcs
          exact ⟨fun he => hpos (by simp [he]),fun b hb => (mem_filter.mp hb).2⟩
        · rename_i hall
          cases h
          intro _ cs hcs
          obtain rfl : bs = cs := by
            simpa [hcs,Value.asArray?] using hbs.symm
          have hle := length_filter_le sanitationKeepsBlock bs
          have hlen : (bs.filter sanitationKeepsBlock).length = bs.length := by omega
          rw [length_filter_eq_length_iff] at hlen
          exact ⟨fun he => hpos (by simp [he]),hlen⟩
    · rename_i hbs
      cases h
      intro _ bs hc
      simp [hc,Value.asArray?] at hbs
  · rename_i hna
    cases h
    intro ha
    exact absurd ha hna

theorem filterBlocks_of_wellFormed (h : WellFormed m) : filterBlocks m = some m := by
  unfold filterBlocks
  split
  · rename_i ha
    split
    · rename_i bs hbs
      obtain ⟨hne,hall⟩ := h ha bs (Value.asArray?_eq_some hbs)
      have hc : bs.countP sanitationKeepsBlock = bs.length := countP_eq_length.mpr hall
      simp [hc,hne]
    · rfl
  · rfl

theorem mem_remaining {messages : List Message} (h : m ∈ remaining messages) : WellFormed m := by
  obtain ⟨_,_,hf⟩ := mem_filterMap.mp h
  exact filterBlocks_wellFormed hf

theorem blocks_kept (h : WellFormed m) (ha : isAssistant m = true) :
    ∀ b ∈ blocks m, sanitationKeepsBlock b = true := by
  intro b hb
  unfold blocks at hb
  cases hc : content m with
  | array bs =>
    rw [hc] at hb
    exact (h ha bs hc).2 b hb
  | string s =>
    rw [hc,coerceContentToBlocks] at hb
    split at hb
    · rename_i hs
      obtain rfl := mem_singleton.mp hb
      simp [sanitationKeepsBlock,textBlock,Value.index,Value.get?,lookup,Value.asStr?,
        nonEmptyStr,hs]
    · simp at hb
  | null | bool _ | number _ | object _ => simp [hc,coerceContentToBlocks] at hb

theorem joined_wellFormed_iff {messages : List Message}
    (hrun : run ∈ (remaining messages).splitBy sameRole) :
    WellFormed (joined run) ↔
      (2 ≤ run.length → (∀ m ∈ run, isAssistant m = true) → ∃ m ∈ run, blocks m ≠ []) := by
  have hne := ne_nil_of_mem_splitBy hrun
  have hmem : ∀ m ∈ run, WellFormed m := by
    intro m hm
    have hin : m ∈ remaining messages := by
      rw [← flatten_splitBy sameRole (remaining messages)]
      exact mem_flatten.mpr ⟨run,hrun,hm⟩
    exact mem_remaining hin
  have hrole := role_of_isChain (isChain_of_mem_splitBy hrun)
  by_cases h2 : 2 ≤ run.length
  · have hass : isAssistant (joined run) = true ↔ ∀ m ∈ run, isAssistant m = true := by
      have hj := role_joined hne
      constructor
      · intro ha m hm
        rw [isAssistant,← Option.some.inj (hj.trans (hrole m hm).symm)]
        exact ha
      · intro ha
        rw [isAssistant,Option.some.inj (hj.trans (hrole _ (head_mem hne)).symm)]
        exact ha _ (head_mem hne)
    simp only [WellFormed,hass,content_joined h2,Value.array.injEq,forall_eq',h2,true_implies]
    constructor
    · intro h ha
      simpa using (h ha).1
    · intro h ha
      refine ⟨by simpa using h ha,fun b hb => ?_⟩
      obtain ⟨m,hm,hb⟩ := mem_flatMap.mp hb
      exact blocks_kept (hmem m hm) (ha m hm) b hb
  · obtain ⟨m,rfl⟩ : ∃ m, run = [m] := by
      refine length_eq_one_iff.mp ?_
      have := length_pos_iff.mpr hne
      omega
    exact iff_of_true (hmem m (by simp)) (fun h => absurd h h2)

theorem wellFormed_iff :
    (∀ m ∈ sanitizeThinkingBlocks messages, WellFormed m) ↔ NoEmptyRun messages := by
  rw [sanitize_eq,forall_mem_map]
  exact forall₂_congr (fun run hrun => joined_wellFormed_iff hrun)

theorem sanitize_fixed {messages : List Message}
    (ha : messages.IsChain (fun a b => role a ≠ role b)) (hw : ∀ m ∈ messages, WellFormed m) :
    sanitizeThinkingBlocks messages = messages := by
  have hr : remaining messages = messages := by
    unfold remaining
    rw [filterMap_congr (fun m hm => filterBlocks_of_wellFormed (hw m hm)),filterMap_some]
  rw [sanitize_eq,hr,splitBy_alternating ha,map_map]
  exact map_id _

/-- The pass leaves alternating roles and the blocks of every run. Its assistant
messages are well formed and a second pass changes nothing exactly when no run of
several assistant messages was without any block. -/
theorem sanitize_wire (messages : List Message) :
    (sanitizeThinkingBlocks messages).IsChain (fun a b => role a ≠ role b) ∧
    runBlocks (sanitizeThinkingBlocks messages) = runBlocks (remaining messages) ∧
    (((∀ m ∈ sanitizeThinkingBlocks messages, WellFormed m) ∧
        sanitizeThinkingBlocks (sanitizeThinkingBlocks messages) =
          sanitizeThinkingBlocks messages) ↔ NoEmptyRun messages) := by
  refine ⟨sanitize_alternates messages,runBlocks_sanitize messages,?_⟩
  rw [← wellFormed_iff]
  exact ⟨And.left,fun h => ⟨h,sanitize_fixed (sanitize_alternates messages) h⟩⟩

def spoken (role : String) (content : Value) : Message :=
  [("content",content),("role",.string role)]

/-- Two assistant messages with empty texts become one with an empty array, which a
second pass drops. -/
theorem sanitize_empties :
    sanitizeThinkingBlocks [spoken "user" (.string "hi"),spoken "assistant" (.string ""),
      spoken "assistant" (.string "")] =
        [spoken "user" (.string "hi"),spoken "assistant" (.array [])] ∧
    sanitizeThinkingBlocks [spoken "user" (.string "hi"),spoken "assistant" (.array [])] =
      [spoken "user" (.string "hi")] ∧
    ¬WellFormed (spoken "assistant" (.array [])) := by
  refine ⟨by decide,by decide,fun h => ?_⟩
  exact (h (by decide) [] rfl).1 rfl

theorem filterBlocks_other {m : Message} (h : isAssistant m = false) : filterBlocks m = some m := by
  rw [filterBlocks,if_neg (by simp [h])]

/-- The messages that were between two assistant messages are still there. -/
theorem remaining_apart {messages : List Message}
    (h : messages.IsChain (fun a b => role a ≠ role b)) :
    (remaining messages).IsChain fun a b => isAssistant a = true → isAssistant b = false := by
  induction messages with
  | nil => exact .nil
  | cons m ms ih =>
    cases hm : filterBlocks m with
    | none => simpa [remaining,hm] using ih h.tail
    | some kept =>
      rw [remaining,filterMap_cons_some hm]
      refine isChain_cons.mpr ⟨fun b hb hkept => ?_,ih h.tail⟩
      have ham : isAssistant m = true := by
        by_contra hother
        have hm' := filterBlocks_other (Bool.eq_false_iff.mpr hother)
        rw [hm] at hm'
        exact hother (Option.some.inj hm' ▸ hkept)
      cases ms with
      | nil => simp at hb
      | cons n ms =>
        have hne := (isChain_cons_cons.mp h).1
        have hn : isAssistant n = false := by
          simp only [isAssistant,decide_eq_true_eq,decide_eq_false_iff_not] at ham ⊢
          exact fun hr => hne (ham.trans hr.symm)
        rw [filterMap_cons_some (filterBlocks_other hn)] at hb
        exact Option.some.inj hb ▸ hn

/-- Two passes always suffice: the second leaves well-formed messages, which a third keeps. -/
theorem sanitize_twice (messages : List Message) :
    let twice := sanitizeThinkingBlocks (sanitizeThinkingBlocks messages)
    (∀ m ∈ twice, WellFormed m) ∧ sanitizeThinkingBlocks twice = twice := by
  intro twice
  have hrun : NoEmptyRun (sanitizeThinkingBlocks messages) := by
    intro run hrun hlen hall
    have hapart := remaining_apart (sanitize_alternates messages)
    rw [← flatten_splitBy sameRole (remaining _),isChain_flatten (nil_notMem_splitBy _ _)] at hapart
    rcases run with _ | ⟨a,_ | ⟨b,rest⟩⟩
    · simp at hlen
    · simp at hlen
    · have hb := (isChain_cons_cons.mp (hapart.1 _ hrun)).1 (hall a mem_cons_self)
      rw [hall b (by simp)] at hb
      cases hb
  have hw := (wellFormed_iff _).mpr hrun
  exact ⟨hw,sanitize_fixed (sanitize_alternates _) hw⟩

end Synaps.Sanitize
