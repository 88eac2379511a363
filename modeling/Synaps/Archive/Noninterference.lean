import Synaps.Archive.Projection
import Synaps.Lib.Outcome

/-!
An archive tells nothing of what it withholds: two histories that differ only in material
the projection does not admit have the same projection, digest included. An argument that was
admitted is admitted again by a fresh budget, and its JSON text fits six times its cost.
-/

set_option autoImplicit false

namespace Synaps.Archive

open Json History Outcome

inductive HasRejected : Value → Prop
  | self {v : Value} (h : eligibleClass v = none) : HasRejected v
  | item {vs : List Value} {v : Value} (hv : v ∈ vs) (h : HasRejected v) : HasRejected (.array vs)
  | entry {kvs : List (String × Value)} {e : String × Value} (he : e ∈ kvs)
      (h : HasRejected e.2) : HasRejected (.object kvs)

def isNestedText (block : Value) : Bool :=
  (eligibleClass block).isSome && block.index "type" = .string "text"

structure NestedAgree (b c : Value) : Prop where
  label : eligibleClass b = eligibleClass c
  text : b.index "text" = c.index "text"

section Agree

variable (redactor : Option (String → String))

inductive TextAgree (k : DisclosureClass) : Option String → Option String → Prop
  | same (s : Option String) : TextAgree k s s
  | unredacted (hr : redactor = none) (hk : k = .modelVisibleAfterRedaction) (s t : String) :
      TextAgree k (some s) (some t)

inductive InputAgree (name : Option String) : Option Value → Option Value → Prop
  | same (v : Option Value) : InputAgree name v v
  | unredacted (hr : redactor = none) (v w : Option Value) : InputAgree name v w
  | checkpoint (hn : name = some "context_checkpoint") (v w : Option Value) : InputAgree name v w
  | rejected {v w : Value} (hv : HasRejected v) (hw : HasRejected w) :
      InputAgree name (some v) (some w)

inductive ContentAgree : Value → Value → Prop
  | same (v : Value) : ContentAgree v v
  | unredacted (hr : redactor = none) (v w : Value) : ContentAgree v w
  | nested {vs ws : List Value}
      (h : List.Forall₂ NestedAgree (vs.filter isNestedText) (ws.filter isNestedText)) :
      ContentAgree (.array vs) (.array ws)

/-- Blocks at the same place of two messages of class `message`. Keys that no constructor
names are free. -/
inductive BlockAgree (message : DisclosureClass) : Value → Value → Prop
  | same (b : Value) : BlockAgree message b b
  | rejected {b c : Value} (hb : eligibleClass b = none) (hc : eligibleClass c = none) :
      BlockAgree message b c
  | otherType {b c : Value}
      (hb : blockType b ∉ [some "text",some "tool_use",some "tool_result"])
      (hc : blockType c ∉ [some "text",some "tool_use",some "tool_result"]) :
      BlockAgree message b c
  | text {b c : Value} (k : DisclosureClass) (hb : eligibleClass b = some k)
      (hc : eligibleClass c = some k) (tb : blockType b = some "text")
      (tc : blockType c = some "text")
      (h : TextAgree redactor (blockClass message k) ((b.get? "text").bind Value.asStr?)
        ((c.get? "text").bind Value.asStr?)) : BlockAgree message b c
  | toolUse {b c : Value} (k : DisclosureClass) (hb : eligibleClass b = some k)
      (hc : eligibleClass c = some k) (tb : blockType b = some "tool_use")
      (tc : blockType c = some "tool_use") (id : b.get? "id" = c.get? "id")
      (name : b.get? "name" = c.get? "name")
      (input : InputAgree redactor (identifier b "name") (b.get? "input") (c.get? "input")) :
      BlockAgree message b c
  | toolResult {b c : Value} (k : DisclosureClass) (hb : eligibleClass b = some k)
      (hc : eligibleClass c = some k) (tb : blockType b = some "tool_result")
      (tc : blockType c = some "tool_result") (id : b.get? "tool_use_id" = c.get? "tool_use_id")
      (error : b.get? "is_error" = c.get? "is_error")
      (content : ContentAgree redactor (b.index "content") (c.index "content")) :
      BlockAgree message b c

/-- Messages at the same place of two histories: both rejected, or both admitted under one
class and role. -/
inductive MessageAgree : Value → Value → Prop
  | rejected {m n : Value} (hm : projectionContent m = none) (hn : projectionContent n = none) :
      MessageAgree m n
  | same {m n : Value} (h : projectionContent m = projectionContent n) : MessageAgree m n
  | text {m n : Value} {k : DisclosureClass} {role s t : String}
      (hm : projectionContent m = some (k,role,.string s))
      (hn : projectionContent n = some (k,role,.string t))
      (h : TextAgree redactor k (some s) (some t)) : MessageAgree m n
  | blocks {m n : Value} {k : DisclosureClass} {role : String} {vs ws : List Value}
      (hm : projectionContent m = some (k,role,.array vs))
      (hn : projectionContent n = some (k,role,.array ws))
      (h : List.Forall₂ (BlockAgree redactor k) vs ws) : MessageAgree m n

end Agree

variable {b b' : InputBudget} {cost : Option Nat}

theorem visit_ok {v : Value} {depth : Nat}
    {descend : InputBudget → Except ArchiveError (Option Nat × InputBudget)}
    (h : InputBudget.visit v depth b descend = .ok (cost,b')) :
    eligibleClass v = none ∧ cost = none ∨ ∃ b, descend b = .ok (cost,b') := by
  obtain ⟨b₁,-,h⟩ := bind_ok h
  split at h
  · rename_i hv
    cases h
    exact .inl ⟨Option.isNone_iff_eq_none.mp hv,rfl⟩
  · exact .inr ⟨b₁,h⟩

def Refused (v : Value) : Prop := ∀ depth b cost b',
  InputBudget.input depth v b = .ok (cost,b') → cost = none

/-- Items are entries whose keys are empty. -/
theorem inputItems_eq (depth : Nat) (vs : List Value) (bytes : Nat) (b : InputBudget) :
    InputBudget.inputItems depth vs bytes b =
      InputBudget.inputEntries depth (vs.map fun v => ("",v)) bytes b := by
  induction vs generalizing bytes b with
  | nil => rfl
  | cons v vs ih =>
    simp only [List.map_cons,InputBudget.inputItems,InputBudget.inputEntries,ih]
    rfl

theorem inputEntries_refused {kvs : List (String × Value)} {e : String × Value} (he : e ∈ kvs)
    (h : Refused e.2) {depth bytes : Nat}
    (hok : InputBudget.inputEntries depth kvs bytes b = .ok (cost,b')) : cost = none := by
  induction kvs generalizing bytes b with
  | nil => cases he
  | cons w kvs ih =>
    obtain ⟨key,w⟩ := w
    rw [InputBudget.inputEntries] at hok
    obtain ⟨⟨first,b₁⟩,hfirst,hok⟩ := bind_ok hok
    cases first with
    | none =>
      cases hok
      rfl
    | some c =>
      rcases List.mem_cons.mp he with rfl | he
      · cases h depth b (some c) b₁ hfirst
      · exact ih he hok

theorem HasRejected.refused {v : Value} (h : HasRejected v) : Refused v := by
  induction h with
  | @self v h =>
    intro depth b cost b' hok
    have hvisit : ∃ descend, InputBudget.visit v depth b descend = .ok (cost,b') := by
      cases v <;> exact ⟨_,by rwa [InputBudget.input] at hok⟩
    obtain ⟨descend,hvisit⟩ := hvisit
    obtain ⟨b₁,-,hok⟩ := bind_ok hvisit
    rw [h] at hok
    cases hok
    rfl
  | item hv _ ih =>
    intro depth b cost b' hok
    rw [InputBudget.input] at hok
    rcases visit_ok hok with ⟨_,hnone⟩ | ⟨b₁,hok⟩
    · exact hnone
    · rw [inputItems_eq] at hok
      exact inputEntries_refused (List.mem_map_of_mem hv) ih hok
  | entry he _ ih =>
    intro depth b cost b' hok
    rw [InputBudget.input] at hok
    rcases visit_ok hok with ⟨_,hnone⟩ | ⟨b₁,hok⟩
    · exact hnone
    · exact inputEntries_refused he ih hok

section Two

variable {D : Deps} {redactor : Option (String → String)}

theorem toolInput_refused {v : Value} (h : HasRejected v) {k : DisclosureClass} {w : Value}
    (hok : toolInput D redactor (some v) k = .ok w) : w = withheldInput := by
  obtain ⟨⟨cost,b⟩,hcost,hok⟩ := bind_ok hok
  obtain rfl := h.refused 3 ⟨0,0⟩ cost b hcost
  exact (Except.ok.inj hok).symm

theorem screen_agree {k : DisclosureClass} {s t : String}
    (h : TextAgree redactor k (some s) (some t)) : screen redactor s k = screen redactor t k := by
  cases h with
  | same => rfl
  | unredacted hr hk =>
    subst hr hk
    rfl

theorem nestedTexts_filter (vs : List Value) :
    nestedTexts redactor vs = nestedTexts redactor (vs.filter isNestedText) := by
  induction vs with
  | nil => rfl
  | cons v vs ih =>
    by_cases hv : isNestedText v = true
    · rw [List.filter_cons_of_pos hv,nestedTexts,nestedTexts,ih]
    · have hnone : nestedText redactor v = .ok none := by
        unfold nestedText
        cases hc : eligibleClass v with
        | none => rfl
        | some k =>
          have htype : ¬ v.index "type" = .string "text" := fun htype =>
            hv (by simp [isNestedText,hc,htype])
          exact if_neg htype
      rw [List.filter_cons_of_neg hv,nestedTexts,hnone,ih]
      cases nestedTexts redactor (vs.filter isNestedText) <;> rfl

theorem nestedTexts_agree {vs ws : List Value}
    (h : List.Forall₂ NestedAgree (vs.filter isNestedText) (ws.filter isNestedText)) :
    nestedTexts redactor vs = nestedTexts redactor ws := by
  rw [nestedTexts_filter vs,nestedTexts_filter ws]
  have hv : ∀ v ∈ vs.filter isNestedText, isNestedText v = true := fun v hv => (List.mem_filter.mp hv).2
  have hw : ∀ w ∈ ws.filter isNestedText, isNestedText w = true := fun w hw => (List.mem_filter.mp hw).2
  generalize vs.filter isNestedText = vs' at h hv
  generalize ws.filter isNestedText = ws' at h hw
  induction h with
  | nil => rfl
  | @cons b c vs ws hbc _ ih =>
    have htype : ∀ {x : Value}, isNestedText x = true → x.index "type" = .string "text" :=
      fun hx => of_decide_eq_true (Bool.and_eq_true_iff.mp hx).2
    have hone : nestedText redactor b = nestedText redactor c := by
      unfold nestedText
      rw [htype (hv b List.mem_cons_self),htype (hw c List.mem_cons_self),hbc.label,hbc.text]
    rw [nestedTexts,nestedTexts,hone,ih (fun v h => hv v (List.mem_cons_of_mem _ h))
      (fun w h => hw w (List.mem_cons_of_mem _ h))]

theorem toolResult_agree (hr : redactor.isSome = true) {v w : Value} (h : ContentAgree redactor v w)
    (k : DisclosureClass) : toolResult redactor v k = toolResult redactor w k := by
  cases h with
  | same => rfl
  | unredacted hnone =>
    rw [hnone] at hr
    cases hr
  | nested h => simp only [toolResult,Value.asStr?,Value.asArray?,Option.getD_some,nestedTexts_agree h]

theorem toolInput_agree (hr : redactor.isSome = true) {name : Option String}
    (hname : name ≠ some "context_checkpoint") {v w : Option Value}
    (h : InputAgree redactor name v w) (k : DisclosureClass) :
    Agree (toolInput D redactor v k) (toolInput D redactor w k) := by
  cases h with
  | same => exact .refl _
  | unredacted hnone =>
    rw [hnone] at hr
    cases hr
  | checkpoint hn => exact absurd hn hname
  | rejected hv hw =>
    intro a b ha hb
    rw [toolInput_refused hv ha,toolInput_refused hw hb]

variable {b : Value}

theorem toolUseBlock_agree {c : Value} (hid : b.get? "id" = c.get? "id")
    (hname : b.get? "name" = c.get? "name")
    (h : InputAgree redactor (identifier b "name") (b.get? "input") (c.get? "input"))
    (k : DisclosureClass) : Agree (toolUseBlock D redactor b k) (toolUseBlock D redactor c k) := by
  have hident : ∀ key, b.get? key = c.get? key → identifier b key = identifier c key :=
    fun key hkey => by rw [identifier,hkey,identifier]
  unfold toolUseBlock
  rw [← hident "id" hid,← hident "name" hname]
  cases identifier b "id" with
  | none => exact .refl _
  | some id =>
    cases hn : identifier b "name" with
    | none => exact .refl _
    | some name =>
      rw [hn] at h
      dsimp only
      by_cases hcheck : name = "context_checkpoint"
      · rw [if_pos hcheck,if_pos hcheck]
        exact .refl _
      rw [if_neg hcheck,if_neg hcheck]
      by_cases hr : redactor.isSome = true
      · rw [if_pos hr,if_pos hr]
        exact (toolInput_agree hr (fun he => hcheck (Option.some.inj he)) h k).bind fun _ => .refl _
      · rw [if_neg hr,if_neg hr]
        exact .refl _

theorem toolResultBlock_agree {c : Value} (hid : b.get? "tool_use_id" = c.get? "tool_use_id")
    (herror : b.get? "is_error" = c.get? "is_error")
    (h : ContentAgree redactor (b.index "content") (c.index "content")) (k : DisclosureClass) :
    toolResultBlock redactor b k = toolResultBlock redactor c k := by
  unfold toolResultBlock
  rw [show identifier b "tool_use_id" = identifier c "tool_use_id" by
    rw [identifier,hid,identifier],herror]
  by_cases hr : redactor.isSome = true
  · simp only [hr,if_true,toolResult_agree hr h k]
  · simp only [hr,Bool.false_eq_true,if_false]

variable {message : DisclosureClass}

theorem projectBlock_other {role : String}
    (h : blockType b ∉ [some "text",some "tool_use",some "tool_result"]) :
    projectBlock D redactor role message b = .ok none := by
  simp only [List.mem_cons,List.not_mem_nil,or_false,not_or] at h
  unfold projectBlock
  cases eligibleClass b with
  | none => rfl
  | some k =>
    dsimp only
    split
    · rename_i htype
      exact absurd htype h.1
    · rename_i htype
      exact absurd htype h.2.1
    · rename_i htype
      exact absurd htype h.2.2
    · rfl

theorem projectBlock_agree {c : Value} (h : BlockAgree redactor message b c) (role : String) :
    Agree (projectBlock D redactor role message b) (projectBlock D redactor role message c) := by
  cases h with
  | same => exact .refl _
  | rejected hb hc => exact agree_of_eq (by rw [projectBlock,hb,projectBlock,hc])
  | otherType hb hc => exact agree_of_eq ((projectBlock_other hb).trans (projectBlock_other hc).symm)
  | text k hb hc tb tc h =>
    refine agree_of_eq ?_
    simp only [projectBlock,hb,hc,tb,tc]
    generalize (b.get? "text").bind Value.asStr? = s at h
    generalize (c.get? "text").bind Value.asStr? = t at h
    cases s with
    | none =>
      cases h
      rfl
    | some s =>
      cases t with
      | none => cases h
      | some t => simp only [screen_agree h]
  | toolUse k hb hc tb tc id name input =>
    simp only [projectBlock,hb,hc,tb,tc]
    split
    · exact toolUseBlock_agree id name input _
    · exact .refl _
  | toolResult k hb hc tb tc id error content =>
    simp only [projectBlock,hb,hc,tb,tc]
    split
    · exact agree_of_eq (toolResultBlock_agree id error content _)
    · exact .refl _

theorem projectBlocks_agree {vs ws : List Value}
    (h : List.Forall₂ (BlockAgree redactor message) vs ws) (role : String) (i : Nat) :
    Agree (projectBlocks D redactor role message i vs)
      (projectBlocks D redactor role message i ws) := by
  induction h generalizing i with
  | nil => exact .refl _
  | cons hbc _ ih =>
    rw [projectBlocks,projectBlocks]
    exact (projectBlock_agree hbc role).bind fun kept => (ih (i+1)).bind fun rest => .refl _

theorem project_agree {m n : Value} (h : MessageAgree redactor m n) :
    Agree (project D redactor m) (project D redactor n) := by
  cases h with
  | rejected hm hn => exact agree_of_eq (by rw [project,hm,project,hn])
  | same h => exact agree_of_eq (by rw [project,h,project])
  | text hm hn h =>
    refine agree_of_eq ?_
    rw [project,hm,project,hn]
    simp only [Value.asStr?,screen_agree h]
  | blocks hm hn h =>
    rw [project,hm,project,hn]
    exact (projectBlocks_agree h _ 0).bind fun output => .refl _

section

variable {ms ns : List Value} (h : List.Forall₂ (MessageAgree redactor) ms ns)

include h

theorem projectMessages_agree (i : Nat) :
    Agree (projectMessages D redactor i ms) (projectMessages D redactor i ns) := by
  induction h generalizing i with
  | nil => exact .refl _
  | cons hmn _ ih =>
    rw [projectMessages,projectMessages]
    exact (project_agree hmn).bind fun kept => (ih (i+1)).bind fun rest => .refl _

theorem projectHashed_agree (logicalId note : String) :
    Agree (projectHashed D redactor logicalId ms note)
      (projectHashed D redactor logicalId ns note) := by
  have hlength := h.length_eq
  unfold projectHashed
  rw [hlength]
  split
  · exact .refl _
  intro p q hp hq
  -- The budgets differ, and only their success is used.
  obtain ⟨_,-,hp⟩ := bind_ok hp
  obtain ⟨_,-,hq⟩ := bind_ok hq
  exact ((projectMessages_agree h 0).bind fun eligible => .refl _) p q hp hq

end

end Two

/-- Two histories that differ only in withheld material have one projection. -/
theorem projectArchive_noninterference {D : Deps} {redactor : Option (String → String)}
    {ms ns : List Value} {logicalId note : String} {p q : ArchiveProjection}
    (h : List.Forall₂ (MessageAgree redactor) ms ns)
    (hp : projectArchive D redactor logicalId ms note = .ok p)
    (hq : projectArchive D redactor logicalId ns note = .ok q) : p = q := by
  obtain ⟨_,-,hp⟩ := bind_ok hp
  obtain ⟨_,-,hq⟩ := bind_ok hq
  exact projectHashed_agree h _ note p q hp hq

def plainDeps : Deps := ⟨fun _ => "",fun _ => none⟩

def thought (text : String) : Value :=
  .object [("content",.array [.object [("thinking",.string text),("type",.string "thinking")],
    .object [("text",.string "Done."),("type",.string "text")]]),("role",.string "assistant")]

theorem thought_agree (s t : String) : MessageAgree none (thought s) (thought t) := by
  refine .blocks (k := .modelVisible) rfl rfl (.cons (.otherType ?_ ?_) (.cons (.same _) .nil))
  all_goals simp [blockType,Value.get?,lookup,Value.asStr?]

theorem projectArchive_thought : ∃ p, projectArchive plainDeps none "s" [thought "a"] "" = .ok p ∧
    projectArchive plainDeps none "s" [thought "b"] "" = .ok p := by
  have hok : ∀ t ∈ ["a","b"], (projectArchive plainDeps none "s" [thought t] "").isOk = true := by
    decide +kernel
  have hp := hok "a" (by simp)
  have hq := hok "b" (by simp)
  cases ha : projectArchive plainDeps none "s" [thought "a"] "" with
  | error e =>
    rw [ha] at hp
    cases hp
  | ok p =>
    cases hb : projectArchive plainDeps none "s" [thought "b"] "" with
    | error e =>
      rw [hb] at hq
      cases hq
    | ok q =>
      obtain rfl := projectArchive_noninterference (.cons (thought_agree "a" "b") .nil) ha hb
      exact ⟨p,rfl,rfl⟩

def labelled (text : String) : Value :=
  .object [("content",.string text),("disclosure",.string "model_visible_after_redaction"),
    ("role",.string "user")]

def inFlightNote : String := "[Canceled while the tool call (an unrecognised tool) was running. It may have already started and partially applied its effects.]"

/-- A text that is withheld still tells whether it is the host's tool-in-flight note, since
such a message is left out. -/
theorem projectArchive_inFlightNote :
    eligibleClass (labelled inFlightNote) = some .modelVisibleAfterRedaction ∧
    eligibleClass (labelled "a\nb") = some .modelVisibleAfterRedaction ∧
    ∃ p q, projectArchive plainDeps none "s" [labelled inFlightNote] "" = .ok p ∧
      projectArchive plainDeps none "s" [labelled "a\nb"] "" = .ok q ∧ p ≠ q := by
  have hnote : projectArchive plainDeps none "s" [labelled inFlightNote] "" =
      .ok ⟨"",1,[],"",""⟩ := by
    decide +kernel
  have htext : projectArchive plainDeps none "s" [labelled "a\nb"] "" = .ok ⟨"",1,
      [⟨0,[],.object [("content",.string withheld),("role",.string "user")]⟩],"",""⟩ := by
    decide +kernel
  exact ⟨by decide +kernel,by decide +kernel,_,_,hnote,htext,by simp⟩

open List
open Utf8 (size size_cons)

/-- The arguments of the tool calls that a projection with a redactor writes. -/
def Called (messages : List Value) (input : Value) : Prop :=
  ∃ m ∈ messages, ∃ c blocks, projectionContent m = some (c,"assistant",.array blocks) ∧
    ∃ block ∈ blocks, eligibleClass block ≠ none ∧ blockType block = some "tool_use" ∧
      identifier block "id" ≠ none ∧ block.get? "input" = some input ∧
      ∃ name, identifier block "name" = some name ∧ name ≠ "context_checkpoint"

inductive Part (w : Value) : Value → Prop
  | self : Part w w
  | item {vs : List Value} {v : Value} (hv : v ∈ vs) (h : Part w v) : Part w (.array vs)
  | entry {kvs : List (String × Value)} {e : String × Value} (he : e ∈ kvs) (h : Part w e.2) :
      Part w (.object kvs)

/-- An admission that every budget with fewer nodes repeats. Where all numbers are short its cost
covers `n` bytes. -/
structure Repeats (short : Prop) (n : Nat)
    (f : InputBudget → Except ArchiveError (Option Nat × InputBudget)) : Prop where
  again : ∀ {a b b' cost}, f b = .ok (cost,b') → a.nodes ≤ b.nodes →
    ∃ a', f a = .ok (cost,a') ∧ a'.bytes = a.bytes ∧ a'.nodes ≤ b'.nodes
  covers : ∀ {b b' c}, short → f b = .ok (some c,b') → n ≤ 6 * c + 1

section

variable {short : Prop} {m n k : Nat}
  {f : InputBudget → Except ArchiveError (Option Nat × InputBudget)}

theorem repeats_pure (h : short → n ≤ 6 * k + 1) : Repeats short n fun b => .ok (some k,b) where
  again := by
    rintro a b b' cost ⟨⟩ hle
    exact ⟨a,rfl,rfl,hle⟩
  covers := by
    rintro b b' c hshort ⟨⟩
    exact h hshort

theorem Repeats.visit (h : Repeats short n f) (hm : m ≤ n) (v : Value) (depth : Nat) :
    Repeats short m fun b => InputBudget.visit v depth b f where
  again := by
    intro a b b' cost hok hle
    obtain ⟨b₁,hb,hok⟩ := bind_ok hok
    simp only [InputBudget.node] at hb
    split at hb
    · cases hb
    rename_i hfit
    cases hb
    have ha : a.node depth = .ok ⟨a.bytes,a.nodes + 1⟩ := if_neg (by dsimp only; omega)
    rw [InputBudget.visit,ha]
    split at hok
    · rename_i hv
      cases hok
      exact ⟨_,if_pos hv,rfl,Nat.succ_le_succ hle⟩
    · rename_i hv
      obtain ⟨a',ha',hrest⟩ := @h.again ⟨a.bytes,a.nodes + 1⟩ _ _ _ hok (Nat.succ_le_succ hle)
      exact ⟨a',(if_neg hv).trans ha',hrest⟩
  covers := by
    intro b b' c hshort hok
    rcases visit_ok hok with ⟨-,⟨⟩⟩ | ⟨b₁,hok⟩
    exact hm.trans (h.covers hshort hok)

end

theorem size_printNumber (n : Number) : size (printNumber n) = (printNumber n).length := by
  have h := printNumber_chars n
  generalize printNumber n = cs at h
  induction cs with
  | nil => rfl
  | cons c cs ih =>
    have hc := h c mem_cons_self
    rw [size_cons ?_,ih fun d hd => h d (mem_cons_of_mem _ hd),length_cons]
    rcases (by simpa [numberChar] using hc) with ((((hd | rfl) | rfl) | rfl) | rfl) | rfl
    · exact Nat.lt_of_le_of_lt (Char.isDigit_iff_toNat.mp hd).2 (by decide)
    all_goals decide

theorem size_printItems (vs : List Value) :
    size (printItems vs) ≤ size (printEntries (vs.map fun v => ("",v))) := by
  induction vs with
  | nil => decide
  | cons v vs ih =>
    simp [size_cons,printItems,printEntries]
    omega

theorem repeats_entries {short : Prop} {kvs : List (String × Value)}
    (h : ∀ e ∈ kvs, ∀ depth, Repeats short (size (print e.2) + 9) (InputBudget.input depth e.2))
    (depth bytes : Nat) :
    Repeats short (size (printEntries kvs) + 6 * bytes)
      (InputBudget.inputEntries depth kvs bytes) := by
  induction kvs generalizing bytes with
  | nil =>
    simp only [InputBudget.inputEntries]
    exact repeats_pure (fun _ => by simp [size_cons,printEntries]; omega)
  | cons e kvs ih =>
    obtain ⟨key,v⟩ := e
    have hv := h (key,v) mem_cons_self depth
    dsimp only at hv
    have ih := fun c => ih (fun e he => h e (mem_cons_of_mem _ he)) (bytes + key.utf8ByteSize + c)
    constructor
    · intro a b b' cost hok hle
      obtain ⟨⟨first,b₁⟩,hb,hok⟩ := bind_ok hok
      obtain ⟨a₁,ha,hbytes,hle⟩ := hv.again hb hle
      simp only [InputBudget.inputEntries,ha]
      cases first with
      | none =>
        cases hok
        exact ⟨a₁,rfl,hbytes,hle⟩
      | some c =>
        obtain ⟨a₂,ha₂,hbytes₂,hle₂⟩ := (ih c).again hok hle
        exact ⟨a₂,ha₂,hbytes₂.trans hbytes,hle₂⟩
    · intro b b' total hshort hok
      obtain ⟨⟨first,b₁⟩,hb,hok⟩ := bind_ok hok
      cases first with
      | none => cases hok
      | some c =>
        have hfirst := hv.covers hshort hb
        have hrest := (ih c).covers hshort hok
        have hkey := size_printString key
        simp [size_cons,printEntries]
        omega

theorem repeats_input {short : Prop} (v : Value)
    (h : short → ∀ n, Part (.number n) v → (printNumber n).length ≤ 40) (depth : Nat) :
    Repeats short (size (print v) + 9) (InputBudget.input depth v) := by
  induction v using Value.tree_induction generalizing depth with
  | null =>
    simp only [InputBudget.input]
    exact (repeats_pure (fun _ => by decide)).visit (Nat.le_refl _) _ depth
  | bool b =>
    simp only [InputBudget.input]
    exact (repeats_pure (fun _ => by cases b <;> decide)).visit (Nat.le_refl _) _ depth
  | number n =>
    simp only [InputBudget.input]
    refine (repeats_pure fun hshort => ?_).visit (Nat.le_refl _) _ depth
    have := h hshort n .self
    rw [print,size_printNumber]
    omega
  | string s =>
    have := size_printString s
    simp only [InputBudget.input]
    exact (repeats_pure (fun _ => by rw [print]; omega)).visit (Nat.le_refl _) _ depth
  | array vs ih =>
    simp only [InputBudget.input]
    rw [show InputBudget.inputItems (depth+1) vs 8 = _ from funext (inputItems_eq _ _ _)]
    refine (repeats_entries (fun e he depth => ?_) _ 8).visit ?_ _ depth
    · obtain ⟨v,hv,rfl⟩ := mem_map.mp he
      exact ih v hv (fun hs n hn => h hs n (.item hv hn)) depth
    · cases vs with
      | nil => decide
      | cons v vs =>
        have := size_printItems vs
        simp [size_cons,print,printEntries]
        omega
  | object kvs ih =>
    simp only [InputBudget.input]
    refine (repeats_entries (fun e he depth => ih e he (fun hs n hn => h hs n (.entry he hn)) depth) _
      8).visit ?_ _ depth
    cases kvs <;> simp [size_cons,print,printEntries]

theorem input_called {messages : List Value} {v : Value} {b : InputBudget}
    (h : messages.foldlM (InputBudget.message true) ⟨0,0⟩ = .ok b) (hv : Called messages v) :
    ∃ b₀ cost b₁, InputBudget.input 3 v b₀ = .ok (cost,b₁) ∧
      ∀ bytes ∈ cost, bytes ≤ maxInputBytes := by
  obtain ⟨m,hm,c,blocks,hcontent,block,hblock,hc,htype,hid,hinput,name,hname,hcheck⟩ := hv
  obtain ⟨id,hid⟩ := Option.ne_none_iff_exists'.mp hid
  obtain ⟨c',hc⟩ := Option.ne_none_iff_exists'.mp hc
  obtain ⟨b₀,b₁,h⟩ := foldlM_ok_mem h hm
  obtain ⟨b₂,-,h⟩ := bind_ok h
  rw [hcontent] at h
  obtain ⟨b₃,-,h⟩ := bind_ok h
  obtain ⟨b₄,-,h⟩ := bind_ok h
  obtain ⟨b₅,-,h⟩ := bind_ok h
  obtain ⟨b₆,-,h⟩ := bind_ok h
  obtain ⟨b₇,b₈,h⟩ := foldlM_ok_mem h hblock
  obtain ⟨b₉,-,h⟩ := bind_ok h
  rw [hc,htype] at h
  simp only [InputBudget.toolUseBlock,hid,hname,hinput,if_true] at h
  obtain ⟨d₀,-,h⟩ := bind_ok h
  obtain ⟨d₁,-,h⟩ := bind_ok h
  obtain ⟨d₂,-,h⟩ := bind_ok h
  obtain ⟨d₃,-,h⟩ := bind_ok h
  rw [if_pos ⟨hcheck,trivial⟩] at h
  obtain ⟨⟨cost,d₄⟩,hcost,h⟩ := bind_ok h
  refine ⟨d₃,cost,d₄,hcost,?_⟩
  rintro bytes ⟨⟩
  simp only [InputBudget.charge] at h
  split at h
  · cases h
  · omega

theorem preflight_covers : (∀ messages b, messages.foldlM (InputBudget.message true) ⟨0,0⟩ = .ok b →
      ∀ v, Called messages v → ∃ cost a, InputBudget.input 3 v ⟨0,0⟩ = .ok (cost,a) ∧
        ∀ bytes ∈ cost, ∃ a', a.charge bytes = .ok a') ∧
    ∀ v depth b b' c, (∀ n, Part (.number n) v → (printNumber n).length ≤ 40) →
      InputBudget.input depth v b = .ok (some c,b') →
        (Utf8.encode (print v)).length ≤ 6 * c ∧ boundedJson v (c * 6) = .ok (print v) := by
  constructor
  · intro messages b h v hv
    obtain ⟨b₀,cost,b₁,hok,hle⟩ := input_called h hv
    obtain ⟨a,ha,hbytes,-⟩ := (repeats_input v False.elim 3).again (a := ⟨0,0⟩) hok (Nat.zero_le _)
    refine ⟨cost,a,ha,fun bytes hb => ⟨_,if_neg ?_⟩⟩
    have := hle bytes hb
    simp only at hbytes ⊢
    omega
  · intro v depth b b' c hshort hok
    have hfit := (repeats_input v (fun (_ : True) => hshort) depth).covers trivial hok
    rw [size] at hfit
    have : (Utf8.encode (print v)).length ≤ 6 * c := by omega
    exact ⟨this,if_neg (by omega)⟩

def pathInput : Value := .object [("path",.string "a\n")]

def readCall : Value := .object [("content",.array [.object [("id",.string "t1"),
  ("input",pathInput),("name",.string "read"),("type",.string "tool_use")]]),
  ("role",.string "assistant")]

theorem preflight_covers_readCall : (∃ cost a, InputBudget.input 3 pathInput ⟨0,0⟩ = .ok (cost,a) ∧
      ∀ bytes ∈ cost, ∃ a', a.charge bytes = .ok a') ∧
    boundedJson pathInput (22 * 6) = .ok (print pathInput) := by
  have hshort : ∀ n, Part (.number n) pathInput → (printNumber n).length ≤ 40 := by
    rintro n (_ | _ | @⟨_,e,he,hn⟩)
    obtain rfl := mem_singleton.mp he
    cases hn
  refine ⟨preflight_covers.1 [readCall] ⟨127,9⟩ (by decide +kernel) pathInput ?_,
    (preflight_covers.2 pathInput 3 ⟨0,0⟩ ⟨0,2⟩ 22 hshort (by decide +kernel)).2⟩
  exact ⟨_,mem_singleton_self _,_,_,rfl,_,mem_singleton_self _,by decide +kernel,
    by decide +kernel,by decide +kernel,rfl,_,rfl,by decide +kernel⟩

end Synaps.Archive
