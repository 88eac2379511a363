import Synaps.Lib.JsonText
import Synaps.Lib.Text
import Synaps.Lib.UnionFind
import Synaps.Lib.Word

/-!
Messages of a history as the runtime reads them: roles, blocks and tool ids, the texts
the host itself writes into a history and recognises there, the conservative size estimate, and
the groups of messages that share a tool id, directly or through others.
-/

set_option autoImplicit false

namespace Synaps.History

open Json Word

def roleIs (message : Value) (role : String) : Bool := message.index "role" = .string role

def typeIs (block : Value) (type : String) : Bool := block.index "type" = .string type

/-- The blocks of a message's or a block's `content`, none if it is not an array. -/
def contentBlocks (v : Value) : List Value := (v.index "content").asArray?.getD []

def hasToolResult (message : Value) : Bool :=
  (contentBlocks message).any (fun b => typeIs b "tool_result")

/-- The tool id a block carries: of the call, or of the call it answers. -/
def toolId (block : Value) : Option String :=
  match (block.index "type").asStr? with
  | some "tool_use" => (block.index "id").asStr?
  | some "tool_result" => (block.index "tool_use_id").asStr?
  | _ => none

def toolIds (message : Value) : List String := (contentBlocks message).filterMap toolId

/-- A non-negative integer as a 64-bit reader sees it. -/
def asU64? : Value → Option Nat
  | .number (.int (.ofNat n)) => some n
  | _ => none

def ofU64 (n : Nat) : Value := .number (.int (.ofNat n))

/-- Model-authored text made safe to quote: no tag, no bracket, no control character. -/
def neutralNote (note : List Char) : List Char :=
  (note.filter (fun c => !Text.isControl c || c = '\n' || c = '\t')).map (fun c =>
    match c with
    | '<' => '‹'
    | '>' => '›'
    | '[' => '〔'
    | ']' => '〕'
    | c => c)

def flatten (text : List Char) : List Char :=
  [' '].intercalate (Text.splitWhitespace text)

def messageText (message : Value) : List Char :=
  match message.index "content" with
  | .string s => s.toList
  | .array blocks =>
    [' '].intercalate (blocks.filterMap (fun b => (b.index "text").asStr?.map String.toList))
  | _ => []

inductive InterruptReason where
  | user | costCap | restart | host | unknown | crash | driver
  deriving DecidableEq

def InterruptReason.marker : InterruptReason → String
  | .user => "[Request interrupted by user]"
  | .costCap => "[Request interrupted: session cost cap reached]"
  | .restart => "[Request interrupted: Synaps restarted]"
  | .host => "[Request interrupted: session stopped by the host]"
  | .unknown => "[Request interrupted]"
  | .crash => "[Request interrupted: Synaps stopped unexpectedly]"
  | .driver => "[Request interrupted: session driver revoked]"

def InterruptReason.all : List InterruptReason :=
  [.user,.costCap,.restart,.host,.unknown,.crash,.driver]

def isInterruptionMarker (text : String) : Bool :=
  InterruptReason.all.any (fun r => r.marker = text)

def cancelPhrases : List String :=
  ["Canceled by user","Canceled (session cost cap reached)","Canceled (Synaps restarted)",
    "Canceled (session stopped by the host)","Canceled (session driver revoked)","Canceled"]

def unrecognisedTool : String := "(an unrecognised tool)"

def isPlausibleToolName (name : List Char) : Bool :=
  1 ≤ name.length && name.length ≤ 128 &&
    name.all (fun c => Text.isAsciiAlphanumeric c || ['_','.',':','-'].contains c)

def quotedTool (name : List Char) : List Char :=
  if isPlausibleToolName name then "`".toList ++ name ++ "`".toList else unrecognisedTool.toList

def toolInFlightNoteText (phrase : String) (tools : List (List Char)) : String :=
  let names := String.ofList (", ".toList.intercalate (tools.map quotedTool))
  let (call,was,it,its) := if tools.length = 1 then ("tool call","was","It","its")
    else ("tool calls","were","They","their")
  s!"[{phrase} while the {call} {names} {was} running. {it} may have already started and partially applied {its} effects.]"

/-- The tool a quoted item of the note names; the fallback item names the empty one. -/
def unquotedTool (item : List Char) : Option (List Char) :=
  match ("`".toList.isPrefixOf? item).bind ("`".toList.isSuffixOf? ·) with
  | some name => if isPlausibleToolName name then some name else none
  | none => if item = unrecognisedTool.toList then some [] else none

def noteTools (text : List Char) (phrase call was : String) : Option (List (List Char)) := do
  let rest ← s!"[{phrase} while the {call} ".toList.isPrefixOf? text
  let names ← Text.splitOnce s!" {was} running. ".toList rest
  (Text.split ", ".toList names.1).mapM unquotedTool

def isToolInFlightNoteText (text : String) : Bool :=
  !text.toList.any (fun c => c = '\n' || c = '\r') &&
    cancelPhrases.any (fun phrase =>
      [("tool call","was"),("tool calls","were")].any (fun words =>
        (noteTools text.toList phrase words.1 words.2).any
          (fun tools => toolInFlightNoteText phrase tools = text)))

def isToolInFlightNote (message : Value) : Bool :=
  roleIs message "user" && (message.index "content").asStr?.any isToolInFlightNoteText

def isInterruption (message : Value) : Bool :=
  (message.index "content").asStr?.any isInterruptionMarker

def imageTokenEstimate : Nat := 1600

def perMessageFramingTokens : Nat := 4

def reasoningSignatureCharsPerToken : Nat := 4

def reasoningBlockFramingTokens : Nat := 8

/-- Two fifths of a token for an ASCII character, one token for every byte of any other. -/
def conservativeTokenEstimate (text : List Char) : Nat :=
  ((text.map (fun c => if c.toNat < 128 then 2 else 5 * c.utf8Size)).sum + 4) / 5

def estimateSerialized (v : Value) : Nat := conservativeTokenEstimate (print v)

def isHostKey (k : String) : Bool := "_synaps_".toList.isPrefixOf k.toList

def wireMessage : Value → Value
  | .object kvs => .object (kvs.filter (fun kv => !isHostKey kv.1))
  | v => v

def isBase64Image (b : Value) : Bool :=
  typeIs b "image" && typeIs (b.index "source") "base64"

def isReasoningBlock (b : Value) : Bool := typeIs b "thinking" || typeIs b "redacted_thinking"

def estimateReasoningBlock (block : Value) : Nat :=
  let text := (block.index "thinking").asStr?.elim 0
    (fun t => conservativeTokenEstimate t.toList)
  let sealed := ((block.index "signature").asStr? <|> (block.index "data").asStr?).elim 0
    (fun s => s.utf8ByteSize / reasoningSignatureCharsPerToken)
  max text sealed + reasoningBlockFramingTokens

def estimateBlock (block : Value) : Nat :=
  if isBase64Image block then imageTokenEstimate
  else if isReasoningBlock block then estimateReasoningBlock block
  else
    match typeIs block "tool_result", (block.index "content").asArray? with
    | true, some inner =>
      8 + (inner.map (fun b =>
        if isBase64Image b then imageTokenEstimate else estimateSerialized b)).sum
    | _, _ => estimateSerialized block

def estimateMessage (message : Value) : Nat :=
  match (message.index "content").asArray? with
  | none => estimateSerialized (wireMessage message)
  | some blocks =>
    if blocks.any (fun b =>
        isBase64Image b || isReasoningBlock b || (contentBlocks b).any isBase64Image) then
      (blocks.map estimateBlock).sum
    else estimateSerialized (wireMessage message)

def estimateHistory (messages : List Value) : Nat :=
  messages.foldl
    (fun sum m => saturatingAdd (saturatingAdd sum (estimateMessage m)) perMessageFramingTokens) 0

def messageTokens (message : Value) : Nat := estimateHistory [message]

open Text List

def toolInFlightNoteLabel (text : String) : Option String :=
  if isToolInFlightNoteText text then some (String.ofList text.toList.tail.dropLast) else none

def lineBreak (c : Char) : Bool := c = '\n' || c = '\r'

/-- The name that is read back from a note. -/
def readName (name : List Char) : List Char := if isPlausibleToolName name then name else []

def names (tools : List (List Char)) : List Char := ", ".toList.intercalate (tools.map quotedTool)

variable {name : List Char} {tools : List (List Char)}

theorem quotedTool_readName (name : List Char) : quotedTool (readName name) = quotedTool name := by
  unfold readName
  split
  · rfl
  · rename_i h
    rw [quotedTool,quotedTool,if_neg h]
    rfl

theorem notMem_of_plausible {c : Char} (h : isPlausibleToolName name = true)
    (hc : (isAsciiAlphanumeric c || ['_','.',':','-'].contains c) = false) : c ∉ name := by
  intro hmem
  simp only [isPlausibleToolName,Bool.and_eq_true,all_eq_true] at h
  rw [h.2 c hmem] at hc
  cases hc

theorem notMem_quotedTool {c : Char}
    (hc : (isAsciiAlphanumeric c || ['_','.',':','-'].contains c) = false) (hq : c ≠ '`')
    (hu : c ∉ unrecognisedTool.toList) : c ∉ quotedTool name := by
  unfold quotedTool
  split
  · rename_i h
    simpa [hq] using notMem_of_plausible h hc
  · exact hu

theorem unquotedTool_quotedTool (name : List Char) :
    unquotedTool (quotedTool name) = some (readName name) := by
  unfold quotedTool readName
  split
  · rename_i h
    have hp : "`".toList.isPrefixOf? ("`".toList ++ (name ++ "`".toList)) = some (name ++ "`".toList) :=
      isPrefixOf?_eq_some_iff_append_eq.mpr rfl
    have hs : "`".toList.isSuffixOf? (name ++ "`".toList) = some name :=
      isSuffixOf?_eq_some_iff_append_eq.mpr rfl
    rw [unquotedTool,append_assoc,hp,Option.bind_some,hs]
    simp [h]
  · rfl

theorem apart_quotedTool {b : List Char} (hb : Apart ' ' 'w' b) :
    Apart ' ' 'w' (quotedTool name ++ b) := by
  unfold quotedTool
  split
  · rename_i h
    exact apart_append (by simpa using notMem_of_plausible h rfl) hb
  · have hblank {cs : List Char} (hc : cs.head? ≠ some 'w') (h : Apart ' ' 'w' cs) :
        Apart ' ' 'w' (' ' :: cs) := apart_cons.mpr ⟨fun _ => hc,h⟩
    have htool := hblank (by simp) (apart_append (a := "tool)".toList) (by decide) hb)
    have hname := hblank (by simp) (apart_append (a := "unrecognised".toList) (by decide) htool)
    exact apart_append (a := "(an".toList) (by decide) hname

theorem head_quotedTool (name : List Char) :
    (quotedTool name).head? = some '`' ∨ (quotedTool name).head? = some '(' := by
  unfold quotedTool
  split
  · exact .inl rfl
  · exact .inr rfl

theorem names_cons (tool : List Char) (tools : List (List Char)) :
    names (tool :: tools) = quotedTool tool ++ if tools = [] then [] else ',' :: ' ' :: names tools := by
  cases tools <;> simp [names,intercalate]

/-- No name and no separator of the list starts the words behind it. -/
theorem apart_names (tools : List (List Char)) : Apart ' ' 'w' (names tools ++ [' ']) := by
  induction tools with
  | nil => exact .singleton _
  | cons tool tools ih =>
    rw [names_cons,append_assoc]
    apply apart_quotedTool
    split
    · exact .singleton _
    rename_i hne
    obtain ⟨t,ts,rfl⟩ := exists_cons_of_ne_nil hne
    refine apart_cons.mpr ⟨by simp,apart_cons.mpr ⟨fun _ => ?_,ih⟩⟩
    rw [names_cons]
    rcases head_quotedTool t with h | h <;> simp [head?_append,h]

theorem length_names (tool : List Char) (tools : List (List Char)) :
    tools.length ≤ (names (tool :: tools)).length := by
  induction tools generalizing tool with
  | nil => simp
  | cons t tools ih =>
    have := ih t
    rw [names_cons,if_neg (cons_ne_nil _ _)]
    simp only [length_append,length_cons]
    omega

theorem split_names (hne : tools ≠ []) :
    split ", ".toList (names tools) = tools.map quotedTool := by
  obtain ⟨tool,tools,rfl⟩ := exists_cons_of_ne_nil hne
  refine splitFuel_intercalate (by simpa using length_names tool tools) fun item hitem => ?_
  obtain ⟨t,-,rfl⟩ := mem_map.mp (show item ∈ (tool :: tools).map quotedTool from hitem)
  exact notMem_quotedTool rfl (by decide) (by decide)

theorem mapM_unquotedTool (tools : List (List Char)) :
    (tools.map quotedTool).mapM unquotedTool = some (tools.map readName) := by
  induction tools with
  | nil => rfl
  | cons tool tools ih => simp [unquotedTool_quotedTool,ih]

/-- The words before the names, and those behind them. -/
def opening (phrase call : String) : String := "[" ++ phrase ++ " while the " ++ call ++ " "

def running (was : String) : String := " " ++ was ++ " running. "

theorem noteTools_names (hne : tools ≠ []) (phrase call rest : String) {was : String} {w : List Char}
    (hw : was.toList = 'w' :: w) :
    noteTools ((opening phrase call).toList ++ (names tools ++ ((running was).toList ++ rest.toList)))
      phrase call was = some (tools.map readName) := by
  have hp : (opening phrase call).toList.isPrefixOf? ((opening phrase call).toList ++
      (names tools ++ ((running was).toList ++ rest.toList))) =
        some (names tools ++ ((running was).toList ++ rest.toList)) :=
    isPrefixOf?_eq_some_iff_append_eq.mpr rfl
  have hs : splitOnce (running was).toList (names tools ++ ((running was).toList ++ rest.toList)) =
      some (names tools,rest.toList) := by
    have := splitOnce_pair (apart_names tools) (w ++ " running. ".toList) rest.toList
    simpa [running,hw] using this
  rw [← mapM_unquotedTool,← split_names hne]
  change ((opening phrase call).toList.isPrefixOf? _).bind
    (fun text => (splitOnce (running was).toList text).bind _) = _
  rw [hp,Option.bind_some,hs,Option.bind_some]

def ending (it its : String) : String :=
  it ++ " may have already started and partially applied " ++ its ++ " effects.]"

/-- The words that depend on the number of tools. -/
def words (n : Nat) : String × String × String :=
  if n = 1 then ("tool call","was",ending "It" "its") else ("tool calls","were",ending "They" "their")

theorem note_toList (phrase : String) (tools : List (List Char)) :
    (toolInFlightNoteText phrase tools).toList =
      (opening phrase (words tools.length).1).toList ++ (names tools ++
        ((running (words tools.length).2.1).toList ++ (words tools.length).2.2.toList)) := by
  have hstr (s : String) : toString s = s := rfl
  delta toolInFlightNoteText
  by_cases h : tools.length = 1 <;>
    simp only [words,h,if_true,if_false,opening,running,ending,names,hstr,String.toList_append,
      String.toList_ofList,append_assoc]

theorem lineBreak_names (tools : List (List Char)) : (names tools).any lineBreak = false := by
  have hq (c : Char) (hc : lineBreak c = true) (t : List Char) : c ∉ quotedTool t := by
    rcases (by simpa [lineBreak] using hc : c = '\n' ∨ c = '\r') with rfl | rfl <;>
      exact notMem_quotedTool rfl (by decide) (by decide)
  induction tools with
  | nil => rfl
  | cons t tools ih =>
    have ht : (quotedTool t).any lineBreak = false :=
      any_eq_false.mpr fun c hc hb => hq c hb t hc
    rw [names_cons,any_append,ht]
    split
    · rfl
    · simpa [lineBreak] using ih

theorem lineBreak_words : ∀ phrase ∈ cancelPhrases,
    ∀ w ∈ [words 1,words 0], (opening phrase w.1).toList.any lineBreak = false ∧
      (running w.2.1).toList.any lineBreak = false ∧ w.2.2.toList.any lineBreak = false := by
  decide +kernel

theorem words_mem (n : Nat) : words n ∈ [words 1,words 0] := by
  by_cases h : n = 1
  · rw [h]
    exact mem_cons_self
  · rw [show words n = words 0 by rw [words,if_neg h]; rfl]
    exact mem_cons_of_mem _ mem_cons_self

theorem words_spec : ∀ w ∈ [words 1,words 0],
    (w.1,w.2.1) ∈ [("tool call","was"),("tool calls","were")] ∧
      w.2.1.toList = 'w' :: w.2.1.toList.tail ∧ w.2.2.toList = w.2.2.toList.dropLast ++ [']'] := by
  decide +kernel

theorem note_recognised {phrase : String} (hp : phrase ∈ cancelPhrases) (hne : tools ≠ []) :
    isToolInFlightNoteText (toolInFlightNoteText phrase tools) = true := by
  obtain ⟨h₁,h₂,h₃⟩ := lineBreak_words phrase hp _ (words_mem tools.length)
  obtain ⟨hmem,hw,-⟩ := words_spec _ (words_mem tools.length)
  have hnote : toolInFlightNoteText phrase (tools.map readName) = toolInFlightNoteText phrase tools := by
    rw [← String.toList_inj,note_toList,note_toList,length_map]
    simp [names,Function.comp_def,quotedTool_readName]
  have htools : noteTools (toolInFlightNoteText phrase tools).toList phrase (words tools.length).1
      (words tools.length).2.1 = some (tools.map readName) := by
    rw [note_toList]
    exact noteTools_names hne _ _ _ hw
  rw [isToolInFlightNoteText,Bool.and_eq_true,any_eq_true]
  refine ⟨?_,phrase,hp,any_eq_true.mpr ⟨_,hmem,?_⟩⟩
  · change (!(toolInFlightNoteText phrase tools).toList.any lineBreak) = true
    rw [note_toList]
    simp [h₁,h₂,h₃,lineBreak_names]
  · rw [htools]
    simpa using hnote

theorem of_isToolInFlightNoteText {text : String} (h : isToolInFlightNoteText text = true) :
    ∃ phrase ∈ cancelPhrases, ∃ tools, tools ≠ [] ∧ toolInFlightNoteText phrase tools = text := by
  rw [isToolInFlightNoteText,Bool.and_eq_true,any_eq_true] at h
  obtain ⟨-,phrase,hp,h⟩ := h
  obtain ⟨w,-,h⟩ := any_eq_true.mp h
  cases ht : noteTools text.toList phrase w.1 w.2 with
  | none => simp [ht] at h
  | some tools =>
    refine ⟨phrase,hp,tools,?_,by simpa [ht] using h⟩
    rintro rfl
    simp only [noteTools,Option.bind_eq_bind,Option.bind_eq_some_iff] at ht
    obtain ⟨rest,-,found,-,hm⟩ := ht
    have hsplit : split ", ".toList found.1 ≠ [] := by
      unfold split
      cases found.1.length with
      | zero => exact cons_ne_nil _ _
      | succ fuel =>
        rw [splitFuel]
        split <;> exact cons_ne_nil _ _
    obtain ⟨item,items,hitems⟩ := exists_cons_of_ne_nil hsplit
    rw [hitems] at hm
    simp [mapM_cons,Option.bind_eq_some_iff] at hm

/-- A text has a label exactly if it is generated from a phrase and tools, and the label is
the text between its brackets. -/
theorem toolInFlightNoteLabel_iff (text : String) :
    ((toolInFlightNoteLabel text).isSome ↔ ∃ phrase ∈ cancelPhrases, ∃ tools,
      tools ≠ [] ∧ toolInFlightNoteText phrase tools = text) ∧
    ∀ label, toolInFlightNoteLabel text = some label →
      text.toList = '[' :: (label.toList ++ [']']) := by
  by_cases h : isToolInFlightNoteText text = true
  · have hof := of_isToolInFlightNoteText h
    simp only [toolInFlightNoteLabel,if_pos h]
    refine ⟨iff_of_true rfl hof,fun label hlabel => ?_⟩
    obtain ⟨phrase,-,tools,-,rfl⟩ := hof
    obtain ⟨r,hr⟩ : ∃ r, (words tools.length).2.2.toList = r ++ [']'] :=
      ⟨_,(words_spec _ (words_mem tools.length)).2.2⟩
    have htext : (toolInFlightNoteText phrase tools).toList =
        '[' :: (((opening phrase (words tools.length).1).toList.tail ++ (names tools ++
          ((running (words tools.length).2.1).toList ++ r))) ++ [']']) := by
      rw [note_toList,hr]
      simp [opening]
    rw [← Option.some.inj hlabel,htext]
    simp
  · simp only [toolInFlightNoteLabel,if_neg h]
    refine ⟨iff_of_false (by simp) ?_,by simp⟩
    rintro ⟨phrase,hp,tools,hne,rfl⟩
    exact h (note_recognised hp hne)

end Synaps.History

namespace Synaps.ToolGroups

open Json History UnionFind List

structure Groups where
  parent : Parents
  owner : String → Option Nat

def visit (n : Nat) (s : Groups) (met : Nat × String) : Groups :=
  let other := (s.owner met.2).getD met.1
  ⟨join n s.parent met.1 other,Function.update s.owner met.2 (some other)⟩

def occurrences (messages : List Value) : List (Nat × String) :=
  messages.zipIdx.flatMap (fun m => (toolIds m.1).map (fun id => (m.2,id)))

def toolGroups (messages : List Value) : List Nat :=
  let n := messages.length
  let s := (occurrences messages).foldl (visit n) ⟨id,fun _ => none⟩
  findAll n s.parent (List.range n)

theorem mem_occurrences {messages : List Value} {i : Nat} {id : String} :
    (i,id) ∈ occurrences messages ↔ ∃ m, messages[i]? = some m ∧ id ∈ toolIds m := by
  constructor
  · intro h
    obtain ⟨⟨m,j⟩,hm,hid⟩ := mem_flatMap.mp h
    obtain ⟨id',hid',heq⟩ := mem_map.mp hid
    cases heq
    exact ⟨m,mem_zipIdx_iff_getElem?.mp hm,hid'⟩
  · rintro ⟨m,hm,hid⟩
    exact mem_flatMap.mpr ⟨(m,i),mem_zipIdx_iff_getElem?.mpr hm,mem_map.mpr ⟨id,hid,rfl⟩⟩

/-- Every id met so far has an owner, in one set with every message that carries it; a
message in which no id was met is alone. -/
structure Inv (n : Nat) (met : List (Nat × String)) (s : Groups) : Prop where
  forest : Forest n s.parent
  owned : ∀ i id, (i,id) ∈ met → ∃ o, s.owner id = some o ∧ Same s.parent i o
  bound : ∀ id o, s.owner id = some o → o < n
  owner : ∀ id o, s.owner id = some o → (o,id) ∈ met
  alone : ∀ z, z < n → (∀ id, (z,id) ∉ met) → ∀ x, x < n → Same s.parent x z → x = z

theorem inv_visit {n : Nat} {met : List (Nat × String)} {s : Groups} (h : Inv n met s)
    (seen : Nat × String) (hn : seen.1 < n) : Inv n (met ++ [seen]) (visit n s seen) := by
  have hother : (s.owner seen.2).getD seen.1 < n ∧
      ((s.owner seen.2).getD seen.1,seen.2) ∈ met ++ [seen] := by
    cases ho : s.owner seen.2 with
    | none => exact ⟨hn,by simp⟩
    | some o => exact ⟨h.bound _ o ho,mem_append_left _ (h.owner _ o ho)⟩
  obtain ⟨hforest,hsame,hmono⟩ := join_spec h.forest hn hother.1
  have hself : (visit n s seen).owner seen.2 = some ((s.owner seen.2).getD seen.1) :=
    Function.update_self ..
  have howner : ∀ id o, (visit n s seen).owner id = some o → o < n ∧ (o,id) ∈ met ++ [seen] := by
    intro id o ho
    by_cases hid : id = seen.2
    · subst hid
      rw [hself] at ho
      exact Option.some.inj ho ▸ hother
    · have hold : s.owner id = some o := (Function.update_of_ne hid ..).symm.trans ho
      exact ⟨h.bound id o hold,mem_append_left _ (h.owner id o hold)⟩
  refine ⟨hforest,fun i id hmem => ?_,fun id o ho => (howner id o ho).1,
    fun id o ho => (howner id o ho).2,fun z hz hfree x hx hxz => ?_⟩
  · rcases mem_append.mp hmem with hmem | hmem
    · obtain ⟨o,ho,hio⟩ := h.owned i id hmem
      refine ⟨o,?_,hmono _ _ hio⟩
      by_cases hid : id = seen.2
      · subst hid
        rw [hself,ho]
        rfl
      · exact (Function.update_of_ne hid ..).trans ho
    · obtain rfl := mem_singleton.mp hmem
      exact ⟨_,hself,hsame⟩
  · have hold := h.alone z hz (fun id hid => hfree id (mem_append_left _ hid))
    -- neither of the two messages joined can be in the set of `z`
    have hi : ¬ Same s.parent z seen.1 := fun hs =>
      hfree seen.2 (hold _ hn hs.symm ▸ mem_append_right _ (mem_singleton_self _))
    have ho : ¬ Same s.parent z ((s.owner seen.2).getD seen.1) := fun hs =>
      hfree seen.2 (hold _ hother.1 hs.symm ▸ hother.2)
    rcases same_of_join h.forest hn hother.1 hx hz hxz with hs | ⟨_,hs⟩ | ⟨_,hs⟩
    · exact hold x hx hs
    · exact absurd hs ho
    · exact absurd hs hi

theorem inv_foldl {n : Nat} (met rest : List (Nat × String)) {s : Groups} (h : Inv n met s)
    (hn : ∀ seen ∈ rest, seen.1 < n) : Inv n (met ++ rest) (rest.foldl (visit n) s) := by
  induction rest generalizing met s with
  | nil => simpa using h
  | cons seen rest ih =>
    have hstep := inv_visit h seen (hn seen mem_cons_self)
    simpa using ih _ hstep (fun x hx => hn x (mem_cons_of_mem _ hx))

theorem length_toolGroups (messages : List Value) :
    (toolGroups messages).length = messages.length := by
  simp [toolGroups,length_findAll]

/-- The loop over the ids, up to some of them. -/
def scan (n : Nat) (met : List (Nat × String)) : Groups := met.foldl (visit n) ⟨id,fun _ => none⟩

theorem inv_scan {n : Nat} {met : List (Nat × String)} (hn : ∀ seen ∈ met, seen.1 < n) :
    Inv n met (scan n met) :=
  inv_foldl [] met ⟨forest_id _,by simp,by simp,by simp,fun _ _ _ _ _ hs => same_id hs⟩ hn

theorem occurrences_lt {messages : List Value} :
    ∀ seen ∈ occurrences messages, seen.1 < messages.length := by
  intro seen hseen
  obtain ⟨m,hm,_⟩ := mem_occurrences.mp hseen
  exact (List.getElem?_eq_some_iff.mp hm).1

theorem inv_toolGroups (messages : List Value) :
    Inv messages.length (occurrences messages)
      ((occurrences messages).foldl (visit messages.length) ⟨id,fun _ => none⟩) :=
  inv_scan occurrences_lt

theorem toolGroups_same {messages : List Value} {i j : Nat} {a b : Value} {call : String}
    (hi : messages[i]? = some a) (hj : messages[j]? = some b) (ha : call ∈ toolIds a)
    (hb : call ∈ toolIds b) : (toolGroups messages)[i]? = (toolGroups messages)[j]? := by
  have hinv := inv_toolGroups messages
  obtain ⟨o,ho,hio⟩ := hinv.owned i call (mem_occurrences.mpr ⟨a,hi,ha⟩)
  obtain ⟨o',ho',hjo⟩ := hinv.owned j call (mem_occurrences.mpr ⟨b,hj,hb⟩)
  cases ho.symm.trans ho'
  exact (findAll_same_iff hinv.forest (List.getElem?_eq_some_iff.mp hi).1
    (List.getElem?_eq_some_iff.mp hj).1).mpr (hio.trans hjo.symm)

theorem toolGroups_alone {messages : List Value} {x z : Nat} {m : Value}
    (hz : messages[z]? = some m) (hm : toolIds m = []) (hx : x < messages.length)
    (h : (toolGroups messages)[x]? = (toolGroups messages)[z]?) : x = z := by
  have hinv := inv_toolGroups messages
  have hlt := (List.getElem?_eq_some_iff.mp hz).1
  refine hinv.alone z hlt (fun id hid => ?_) x hx ((findAll_same_iff hinv.forest hx hlt).mp h)
  obtain ⟨m',hm',hid⟩ := mem_occurrences.mp hid
  cases hz.symm.trans hm'
  rw [hm] at hid
  cases hid

section Connected

open Relation

def Shares (messages : List Value) (i j : Nat) : Prop :=
  ∃ a b call, messages[i]? = some a ∧ messages[j]? = some b ∧ call ∈ toolIds a ∧ call ∈ toolIds b

def Meets (met : List (Nat × String)) (i j : Nat) : Prop := ∃ id, (i,id) ∈ met ∧ (j,id) ∈ met

/-- The rounds that `find` has bring it from `i` to a root, where its loop ends. -/
def Stops (n : Nat) (p : Parents) (i : Nat) : Prop := (find n p i).1 (find n p i).2 = (find n p i).2

variable {n : Nat}

theorem stops_forest {p : Parents} (h : Forest n p) {i : Nat} (hi : i < n) : Stops n p i := by
  obtain ⟨hkept,hroot⟩ := find_spec h hi
  obtain ⟨_,_,hfix⟩ := hkept.roots _ _ hroot
  exact hfix

theorem forest_finds {p : Parents} (h : Forest n p) (is : List Nat) (his : ∀ i ∈ is, i < n) :
    Forest n (is.foldl (fun p i => (find n p i).1) p) := by
  induction is generalizing p with
  | nil => exact h
  | cons i is ih =>
    obtain ⟨hi,his⟩ := forall_mem_cons.mp his
    exact ih (find_spec h hi).1.forest his

theorem linked_scan {met : List (Nat × String)} (hn : ∀ seen ∈ met, seen.1 < n) {x y : Nat}
    (hx : x < n) (hy : y < n) (hs : Same (scan n met).parent x y) :
    ReflTransGen (Meets met) x y := by
  induction met using reverseRecOn generalizing x y with
  | nil => exact same_id hs ▸ .refl
  | append_singleton met seen ih =>
    obtain ⟨hmet,hseen⟩ := forall_mem_append.mp hn
    have hlast : seen.1 < n := hseen seen (mem_singleton_self _)
    have hinv := inv_scan hmet
    have ih {a b : Nat} (ha : a < n) (hb : b < n) (h : Same (scan n met).parent a b) :
        ReflTransGen (Meets (met ++ [seen])) a b :=
      ReflTransGen.mono (fun _ _ ⟨id,hi,hj⟩ => ⟨id,mem_append_left _ hi,mem_append_left _ hj⟩) _ _
        (ih hmet ha hb h)
    have hown : (seen.1,seen.2) ∈ met ++ [seen] := mem_append_right _ (mem_singleton_self _)
    -- the message joined to has met the same id
    obtain ⟨other,hother,ho,hmem⟩ : ∃ o, ((scan n met).owner seen.2).getD seen.1 = o ∧ o < n ∧
        (o,seen.2) ∈ met ++ [seen] := by
      cases ho : (scan n met).owner seen.2 with
      | none => exact ⟨_,rfl,hlast,hown⟩
      | some o => exact ⟨o,rfl,hinv.bound _ o ho,mem_append_left _ (hinv.owner _ o ho)⟩
    rw [scan,foldl_concat] at hs
    change Same (join n (scan n met).parent seen.1 (((scan n met).owner seen.2).getD seen.1)) x y
      at hs
    rw [hother] at hs
    rcases same_of_join hinv.forest hlast ho hx hy hs with hs | ⟨hxi,hyj⟩ | ⟨hxj,hyi⟩
    · exact ih hx hy hs
    · exact ((ih hx hlast hxi).tail ⟨_,hown,hmem⟩).trans (ih ho hy hyj.symm)
    · exact ((ih hx ho hxj).tail ⟨_,hmem,hown⟩).trans (ih hlast hy hyi.symm)

/-- Every loop of `find` ends within its rounds, in every state of the scan and after any finds;
two messages are in one group exactly if shared ids link them. -/
theorem toolGroups_connected (messages : List Value) :
    (∀ met (is : List Nat), met <+: occurrences messages → (∀ i ∈ is, i < messages.length) →
      ∀ i < messages.length, Stops messages.length (is.foldl
        (fun p i => (find messages.length p i).1) (scan messages.length met).parent) i) ∧
    (∀ i < messages.length, ∀ j < messages.length,
      (toolGroups messages)[i]? = (toolGroups messages)[j]? ↔
        ReflTransGen (Shares messages) i j) ∧
    ∀ i m, messages[i]? = some m → toolIds m = [] → ∀ j < messages.length,
      (toolGroups messages)[j]? = (toolGroups messages)[i]? → j = i := by
  refine ⟨fun met is hmet his i hi => ?_,fun i hi j hj => ⟨fun h => ?_,fun h => ?_⟩,
    fun i m hi hm j hj h => toolGroups_alone hi hm hj h⟩
  · have hinv := inv_scan fun seen hseen => occurrences_lt seen (hmet.subset hseen)
    exact stops_forest (forest_finds hinv.forest is his) hi
  · have hs := (findAll_same_iff (inv_toolGroups messages).forest hi hj).mp h
    refine ReflTransGen.mono (fun a b ⟨id,ha,hb⟩ => ?_) _ _ (linked_scan occurrences_lt hi hj hs)
    obtain ⟨m,hm,hid⟩ := mem_occurrences.mp ha
    obtain ⟨m',hm',hid'⟩ := mem_occurrences.mp hb
    exact ⟨m,m',id,hm,hm',hid,hid'⟩
  · clear hj
    induction h with
    | refl => rfl
    | tail _ hshare ih =>
      obtain ⟨a,b,call,ha,hb,hca,hcb⟩ := hshare
      exact ih.trans (toolGroups_same ha hb hca hcb)

end Connected

end Synaps.ToolGroups
