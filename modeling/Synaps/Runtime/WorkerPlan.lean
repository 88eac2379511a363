import Synaps.Lib.Occurrences
import Synaps.Runtime.ReadDedupe
import Mathlib.Data.List.Sort

/-!
Context rollover of a worker. The successor of a history keeps its first message, later
instructions within a share of the budget, a note of the host and the longest suffix that
fits and that no tool group straddles; what it leaves out is written to a transcript.
-/

set_option autoImplicit false

namespace Synaps.Worker

open Json History ReadDedupe ToolGroups Word

def markerKey : String := "_synaps_worker_context"

def schema : String := "synaps-worker-context/1"

def indexPreviewChars : Nat := 100

def noteFrameTokens : Nat := 600

def noteListedWindows : Nat := 12

def minShrinkTokens : Nat := 1024

def pinnedSharePercent : Nat := 30

def droppedIndexTokens : Nat := 2000

structure TranscriptRef where
  window : Nat
  path : String
  messages : Nat
  deriving DecidableEq

def TranscriptRef.toValue (t : TranscriptRef) : Value :=
  .object [("messages",ofU64 t.messages),("path",.string t.path),("window",ofU64 t.window)]

def TranscriptRef.ofFields (window path messages : Value) : Option TranscriptRef := do
  return ⟨← asU64? window,← path.asStr?,← asU64? messages⟩

def TranscriptRef.fromValue : Value → Option TranscriptRef
  | .object kvs => do
    ofFields (← lookup "window" kvs) (← lookup "path" kvs) (← lookup "messages" kvs)
  | .array [window,path,messages] => ofFields window path messages
  | _ => none

/-- A reference is listed once for its window and path. -/
def recordRef (transcripts : List TranscriptRef) (t : TranscriptRef) : List TranscriptRef :=
  if transcripts.any (fun u => u.window = t.window ∧ u.path = t.path) then transcripts
  else transcripts ++ [t]

def markers (messages : List Value) : List Value :=
  (messages.filterMap (·.get? markerKey)).filter (fun m => m.index "schema" = .string schema)

def markerRefs (marker : Value) : List TranscriptRef :=
  ((marker.index "transcripts").asArray?.getD []).filterMap TranscriptRef.fromValue

def windowState (messages : List Value) : Nat × List TranscriptRef :=
  ((markers messages).foldl (fun w m => max w ((asU64? (m.index "window")).getD 1)) 1,
    (((markers messages).flatMap markerRefs).foldl recordRef []).insertionSort
      (fun a b => a.window ≤ b.window))

def isNote (message : Value) : Bool := (message.get? markerKey).isSome

def isHostBookkeeping (message : Value) : Bool :=
  isNote message || (message.get? "_synaps_context").isSome || isToolInFlightNote message ||
    isInterruption message

def carriedText (block : Value) : Option Value :=
  if typeIs block "text" && (block.index "text").asStr?.any (fun t => Text.trim t.toList ≠ [])
  then some (.object [("text",block.index "text"),("type",.string "text")])
  else none

/-- An instruction as it travels: a plain user message as it is, of a carrier of tool
results only the text blocks. -/
def carriedInstruction (message : Value) : Option Value :=
  if !roleIs message "user" || isHostBookkeeping message then none
  else
    match message.index "content" with
    | .string s => if Text.trim s.toList ≠ [] then some message else none
    | .array blocks =>
      if !hasToolResult message then if blocks ≠ [] then some message else none
      else
        let text := blocks.filterMap carriedText
        if text ≠ [] then some (.object [("content",.array text),("role",.string "user")])
        else none
    | _ => none

structure NoteFacts where
  window : Nat
  beforeTokens : Nat
  evicted : Nat
  evictedTokens : Nat
  kept : Nat
  carriedInstructions : Bool
  transcripts : List TranscriptRef
  toolIndex : List (List Char)
  unpinned : List (Nat × List Char)

/-- A path, last character first, without separators and `.` components at its end. -/
def trimPathEnd : List Char → List Char
  | '/' :: c :: cs => trimPathEnd (c :: cs)
  | '.' :: '/' :: cs => trimPathEnd ('/' :: cs)
  | cs => cs

def parentDir (path : String) : Option (List Char) :=
  let name := trimPathEnd path.toList.reverse
  if name = [] ∨ name = ['/'] then none
  else some (trimPathEnd (name.dropWhile (· ≠ '/'))).reverse

def listedWindows (transcripts : List TranscriptRef) : String :=
  let hidden := transcripts.length - noteListedWindows
  let earlier :=
    match transcripts.head?, transcripts[hidden - 1]? with
    | some oldest, some newest =>
      if 0 < hidden then
        let dir := String.ofList (neutralNote ((parentDir oldest.path).getD []))
        let first := oldest.window
        let last := newest.window
        s!"\n- windows {first}–{last}: earlier transcripts (*.window-N.md) in {dir}"
      else ""
    | _, _ => ""
  earlier ++ String.join ((transcripts.drop hidden).map (fun t =>
    let window := t.window
    let path := String.ofList (neutralNote t.path.toList)
    let messages := t.messages
    s!"\n- window {window}: {path} ({messages} messages)"))

def listIndex (text : String) : List (List Char) → Nat → String × Nat
  | [], listed => (text,listed)
  | entry :: entries, listed =>
    let line := "\n- " ++ String.ofList entry
    if conservativeTokenEstimate text.toList + conservativeTokenEstimate line.toList >
        droppedIndexTokens + noteFrameTokens / 2 then (text,listed)
    else listIndex (text ++ line) entries (listed+1)

def noteText (f : NoteFacts) : String :=
  let before := f.beforeTokens
  let window := f.window
  let evicted := f.evicted
  let tokens := f.evictedTokens
  let kept := f.kept
  let carried := if f.carriedInstructions then ", later orchestrator instructions" else ""
  let text := s!"[Worker context rollover — host note, not a new instruction]\nYour context reached about {before} tokens, so the host started context window {window}. {evicted} earlier messages (about {tokens} tokens) were moved out of your context unchanged; nothing was summarized. Your task (the first message){carried} and your most recent {kept} messages are kept verbatim.\nThe moved messages are saved as plain text you can search with grep or read by line range:"
  let text := text ++ listedWindows f.transcripts
  let text := text ++ "\nLook there only when you need a specific earlier detail (an error, a file path, a decision); do not re-read them wholesale."
  let text := if f.unpinned = [] then text else
    text ++ "\nEarlier orchestrator messages not kept verbatim (they are in the saved text):" ++
      String.join (f.unpinned.map (fun u =>
        let i := u.1
        let p := String.ofList u.2
        s!"\n- #{i}: {p}"))
  let text := if f.toolIndex = [] then text else
    let listed := listIndex (text ++ "\nTool calls in the moved messages, most recent first:")
      f.toolIndex 0
    if listed.2 < f.toolIndex.length then
      let older := f.toolIndex.length - listed.2
      listed.1 ++ s!"\n- … and {older} older not listed"
    else listed.1
  text ++ "\nContinue the task from where the kept messages leave off; do not redo completed steps.\n[End worker context rollover]"

def marker (window : Nat) (transcripts : List TranscriptRef) : Value :=
  .object [("schema",.string schema),("transcripts",.array (transcripts.map TranscriptRef.toValue)),
    ("window",ofU64 window)]

def noteMessage (f : NoteFacts) : Value :=
  .object [(markerKey,marker f.window f.transcripts),
    ("content",.array [.object [("text",.string (noteText f)),("type",.string "text")]]),
    ("role",.string "user")]

def flat (text : List Char) : List Char := neutralNote (History.flatten text)

def preview (message : Value) : List Char := Text.clip (flat (messageText message)) 80

def mainArgument (input : Value) : List Char :=
  ((["command","path","file_path","pattern","query","url","handle_id"].findSome?
    (fun k => (input.index k).asStr?)).map String.toList).getD (print input)

def toolLine (block : Value) : List Char :=
  neutralNote (((block.index "name").asStr?.getD "?").toList) ++ ": ".toList ++
    Text.clip (flat (mainArgument (block.index "input"))) indexPreviewChars

def toolIndex (messages : List Value) (evicted : List Nat) : List (List Char) :=
  evicted.reverse.flatMap (fun i =>
    ((contentBlocks (messages.getD i .null)).filter (typeIs · "tool_use")).reverse.map toolLine)

def renderBlock (b : Value) : List Char :=
  match (b.index "type").asStr? with
  | some "text" => ((b.index "text").asStr?.getD "").toList ++ ['\n']
  | some "tool_use" =>
    "→ tool_use ".toList ++ ((b.index "name").asStr?.getD "?").toList ++ " (".toList ++
      ((b.index "id").asStr?.getD "?").toList ++ ")\n".toList ++
      printPretty 0 (b.index "input") ++ ['\n']
  | some "tool_result" =>
    "← tool_result".toList ++ (if b.index "is_error" = .bool true then " error".toList else []) ++
      " (".toList ++ ((b.index "tool_use_id").asStr?.getD "?").toList ++ ")\n".toList ++
      match _h : b.index "content" with
      | .string s => s.toList ++ ['\n']
      | .array inner => inner.attach.flatMap (fun x => renderBlock x.1)
      | .null => []
      | other => print other ++ ['\n']
  | some "thinking" => []
  | some "redacted_thinking" => []
  | some other => '[' :: other.toList ++ "]\n".toList
  | none => []
termination_by sizeOf b
decreasing_by
  have hx := List.sizeOf_lt_of_mem x.2
  have hb := Value.sizeOf_index (v := b) (k := "content") (by simp [_h])
  rw [_h] at hb
  simp at hb
  omega

def renderMessage (i : Nat) (message : Value) : List Char :=
  "\n## [".toList ++ Nat.toDigits 10 i ++ "] ".toList ++
    ((message.index "role").asStr?.getD "user").toList ++ ['\n'] ++
    match message.index "content" with
    | .string s => s.toList ++ ['\n']
    | .array blocks => blocks.flatMap renderBlock
    | _ => []

def renderTranscript (messages : List Value) (evicted : List Nat) (window beforeTokens : Nat) :
    List Char :=
  let count := evicted.length
  s!"# Worker context window {window}: {count} messages moved out of context at a rollover\n# (context about {beforeTokens} tokens). Thinking is omitted; images are named only.\n".toList ++
    evicted.flatMap (fun i => renderMessage i (messages.getD i .null))

structure RolloverPlan where
  successor : List Value
  transcript : List Char
  transcriptPath : String
  window : Nat
  evictedMessages : Nat
  transcripts : List TranscriptRef
  evictedIndices : List Nat

/-- The index after the last note behind message 0. -/
def afterNotes (messages : List Value) : Nat :=
  (((messages.zipIdx.drop 1).filter (fun m => isNote m.1)).map (fun m => m.2 + 1)).max?.getD 1

abbrev Extents := Nat → Option (Nat × Nat)

def widen (extent : Extents) (member : Nat × Nat) : Extents :=
  let e := (extent member.1).getD (member.2,member.2)
  Function.update extent member.1 (some (min e.1 member.2,max e.2 member.2))

def extents (groups : List Nat) : Extents := groups.zipIdx.foldl widen (fun _ => none)

/-- A cut at `k` has members of one group on both sides. -/
def straddled (groups : List Nat) (k : Nat) : Bool :=
  groups.any (fun g => (extents groups g).any (fun e => e.1 < k && k ≤ e.2))

def candidates (messages : List Value) : List Nat :=
  match Occurrences.rposition (roleIs · "assistant") messages with
  | none => []
  | some last =>
    (List.range' (max (afterNotes messages) 1) (last + 1 - max (afterNotes messages) 1)).filter
      (fun k => roleIs (messages.getD k .null) "assistant" &&
        !straddled (toolGroups messages) k)

def instructionsBefore (messages : List Value) (mustKeep : Nat) : List (Nat × Value × Nat) :=
  (List.range' 1 (mustKeep - 1)).filterMap (fun i =>
    (carriedInstruction (messages.getD i .null)).map (fun m => (i,m,messageTokens m)))

def pin (share : Nat) : Nat → List (Nat × Value × Nat) → List (Nat × Value) × List Nat
  | _, [] => ([],[])
  | used, (i,m,cost) :: rest =>
    if used + cost ≤ share then
      let p := pin share (used + cost) rest
      ((i,m) :: p.1,p.2)
    else
      let p := pin share used rest
      (p.1,i :: p.2)

def suffixCost (messages : List Value) (k : Nat) : Nat :=
  ((messages.drop k).map messageTokens).sum

def pinnedShare (total : Nat) : Nat := min total (u64Max / 100) * pinnedSharePercent / 100

def evictedBy (messages : List Value) (cut : Nat) : List Nat :=
  (List.range' (afterNotes messages) (cut - afterNotes messages)).filter
    (fun i => !isNote (messages.getD i .null))

section Plan

variable (messages : List Value) (beforeTokens : Nat) (path : String)

def buildSuccessor (instructions : List (Nat × Value × Nat)) (share : Nat) (cut : Nat) :
    Option RolloverPlan :=
  let picked := pin share 0 (instructions.filter (fun x => x.1 < cut)).reverse
  let pinned := picked.1.reverse
  let unpinned := picked.2.reverse
  let evicted := evictedBy messages cut
  let state := windowState messages
  if evicted = [] ∨ ∀ i ∈ evicted, i ∈ pinned.map Prod.fst then none
  else
    let transcripts := state.2 ++ [⟨state.1,path,evicted.length⟩]
    let note := noteMessage
      { window := state.1 + 1
        beforeTokens := beforeTokens
        evicted := evicted.length
        evictedTokens := (evicted.map (fun i => messageTokens (messages.getD i .null))).sum
        kept := messages.length - cut
        carriedInstructions := !pinned.isEmpty
        transcripts := transcripts
        toolIndex := toolIndex messages evicted
        unpinned := unpinned.map (fun i => (i,preview (messages.getD i .null))) }
    some
      { successor := rewriteDanglingStubs
          (messages.getD 0 .null :: (pinned.map Prod.snd ++ note :: messages.drop cut))
        transcript := []
        transcriptPath := path
        window := state.1 + 1
        evictedMessages := evicted.length
        transcripts := transcripts
        evictedIndices := evicted }

/-- The first cut, among those left, whose successor fits; the last one in any case. -/
def tryCuts (build : Nat → Option RolloverPlan) (total mustKeep : Nat) :
    List Nat → Option RolloverPlan → Option RolloverPlan
  | [], plan => plan
  | cut :: cuts, _ =>
    match build cut with
    | none => none
    | some built =>
      if estimateHistory built.successor ≤ total ∨ cut = mustKeep then some built
      else tryCuts build total mustKeep cuts (some built)

def firstCut (total mustKeep : Nat) : Nat :=
  let reserve := min ((instructionsBefore messages mustKeep).map (fun x => x.2.2)).sum
    (pinnedShare total)
  let noteReserve := droppedIndexTokens + noteFrameTokens +
    60 * ((windowState messages).2.length + 1)
  let available := total - (messageTokens (messages.getD 0 .null) + reserve + noteReserve)
  ((candidates messages).findIdx? (fun k => suffixCost messages k ≤ available)).getD
    ((candidates messages).length - 1)

end Plan

def planRollover (messages : List Value) (budget beforeTokens : Nat)
    (transcriptPath : Nat → String) : Option RolloverPlan :=
  if messages.length < 3 ∨ !roleIs (messages.getD 0 .null) "user" then none
  else
    match (candidates messages).getLast? with
    | none => none
    | some mustKeep =>
      let window := (windowState messages).1
      let build := buildSuccessor messages beforeTokens (transcriptPath window)
        (instructionsBefore messages mustKeep) (pinnedShare budget)
      (tryCuts build budget mustKeep
        ((candidates messages).drop (firstCut messages budget mustKeep)) none).map
        (fun plan => { plan with
          transcript := renderTranscript messages plan.evictedIndices window beforeTokens
          evictedIndices := [] })

inductive ToolEvent where
  | call (id : String)
  | result (id : String)

def toolEvent (message block : Value) : Option ToolEvent :=
  match (block.index "type").asStr?, (message.index "role").asStr? with
  | some "tool_use", some "assistant" => (block.index "id").asStr?.map .call
  | some "tool_result", some "user" => (block.index "tool_use_id").asStr?.map .result
  | _, _ => none

def toolEvents (message : Value) : List ToolEvent :=
  (contentBlocks message).filterMap (toolEvent message)

structure Pairing where
  calls : Finset String
  unpaired : Finset String

def Pairing.step (s : Pairing) : ToolEvent → Pairing
  | .call id => ⟨insert id s.calls,insert id s.unpaired⟩
  | .result id =>
    if id ∉ s.unpaired ∨ id ∉ s.calls then
      ⟨s.calls,insert ("result:" ++ id) (s.unpaired.erase id)⟩
    else ⟨s.calls,s.unpaired.erase id⟩

def unpairedToolIds (messages : List Value) : Finset String :=
  ((messages.flatMap toolEvents).foldl Pairing.step ⟨∅,∅⟩).unpaired

def planIsProductive (messages : List Value) (plan : RolloverPlan) : Bool :=
  saturatingAdd (estimateHistory plan.successor) minShrinkTokens < estimateHistory messages &&
    unpairedToolIds plan.successor ⊆ unpairedToolIds messages

structure RolloverReport where
  window : Nat
  beforeTokens : Nat
  afterTokens : Nat
  evictedMessages : Nat
  transcript : String
  transcripts : List String

structure TranscriptSink where
  dir : String
  stem : String

def sanitizedStem (stem : String) : List Char :=
  stem.toList.map (fun c =>
    if Text.isAsciiAlphanumeric c || c = '-' || c = '_' then c else '-')

def joinPath (dir name : List Char) : List Char :=
  if dir = [] ∨ dir.getLast? = some '/' then dir ++ name else dir ++ '/' :: name

def transcriptPath (sink : TranscriptSink) (window : Nat) : String :=
  String.ofList (joinPath sink.dir.toList
    (sanitizedStem sink.stem ++ ".window-".toList ++ Nat.toDigits 10 window ++ ".md".toList))

abbrev Files := String → Option (List Char)

/-- The rollover of a history: `none` if it would not shrink the context. A transcript
that cannot be written (`fault`) means no rollover. -/
def rollOver (fault : Option String) (files : Files) (messages : List Value)
    (budget beforeTokens overheadTokens pressureTokens : Nat) (sink : TranscriptSink)
    (hardCapacity : Option Nat) :
    Files × Except String (Option (List Value × RolloverReport)) :=
  match planRollover messages budget beforeTokens (transcriptPath sink) with
  | none => (files,.ok none)
  | some plan =>
    let afterTokens := saturatingAdd overheadTokens (estimateHistory plan.successor)
    if !planIsProductive messages plan then (files,.ok none)
    else if afterTokens ≥ hardCapacity.getD pressureTokens then (files,.ok none)
    else
      match fault with
      | some e => (files,.error e)
      | none =>
        (Function.update files plan.transcriptPath (some plan.transcript),
          .ok (some (plan.successor,
            { window := plan.window
              beforeTokens := beforeTokens
              afterTokens := afterTokens
              evictedMessages := plan.evictedMessages
              transcript := plan.transcriptPath
              transcripts := plan.transcripts.map TranscriptRef.path })))

open Option Nat
open List hiding lookup

section

variable (e : Extents)

theorem widen_self (p : Nat × Nat) : widen e p p.1 =
    some (min ((e p.1).getD (p.2,p.2)).1 p.2,max ((e p.1).getD (p.2,p.2)).2 p.2) :=
  Function.update_self ..

theorem widen_of_ne {p : Nat × Nat} {g : Nat} (h : g ≠ p.1) : widen e p g = e g :=
  Function.update_of_ne h ..

theorem widen_covers (p : Nat × Nat) : ∃ x, widen e p p.1 = some x ∧
    x.1 ≤ p.2 ∧ p.2 ≤ x.2 ∧ ∀ y, e p.1 = some y → x.1 ≤ y.1 ∧ y.2 ≤ x.2 := by
  refine ⟨_,widen_self e p,min_le_right _ _,le_max_right _ _,fun y hy => ?_⟩
  rw [hy]
  exact ⟨min_le_left _ _,le_max_left _ _⟩

theorem widen_members (p : Nat × Nat) {g : Nat} {y : Nat × Nat} (h : widen e p g = some y) :
    ((g,y.1) = p ∨ ∃ z, e g = some z ∧ z.1 = y.1) ∧
    ((g,y.2) = p ∨ ∃ z, e g = some z ∧ z.2 = y.2) := by
  by_cases hg : g = p.1
  · subst hg
    rw [widen_self] at h
    cases h
    cases he : e p.1 with
    | none => simp
    | some z =>
      simp only [getD_some,some.injEq,exists_eq_left']
      constructor
      · rcases le_total z.1 p.2 with hle | hle
        · exact .inr (min_eq_left hle).symm
        · exact .inl (by rw [min_eq_right hle])
      · rcases le_total z.2 p.2 with hle | hle
        · exact .inl (by rw [max_eq_right hle])
        · exact .inr (max_eq_left hle).symm
  · rw [widen_of_ne e hg] at h
    exact ⟨.inr ⟨y,h,rfl⟩,.inr ⟨y,h,rfl⟩⟩

end

theorem extents_foldl (l : List (Nat × Nat)) (e : Extents) :
    (∀ g i, (g,i) ∈ l → ∃ x, l.foldl widen e g = some x ∧ x.1 ≤ i ∧ i ≤ x.2) ∧
    ∀ g y, e g = some y → ∃ x, l.foldl widen e g = some x ∧ x.1 ≤ y.1 ∧ y.2 ≤ x.2 := by
  induction l generalizing e with
  | nil => exact ⟨by simp,fun g y hy => ⟨y,hy,le_refl _,le_refl _⟩⟩
  | cons p l ih =>
    obtain ⟨hmem,hold⟩ := ih (widen e p)
    obtain ⟨w,hw,hlo,hhi,hwide⟩ := widen_covers e p
    obtain ⟨x,hx,hxlo,hxhi⟩ := hold p.1 w hw
    refine ⟨fun g i hgi => ?_,fun g y hy => ?_⟩
    · rcases mem_cons.mp hgi with rfl | hgi
      · exact ⟨x,hx,le_trans hxlo hlo,le_trans hhi hxhi⟩
      · exact hmem g i hgi
    · by_cases hg : g = p.1
      · subst hg
        obtain ⟨hylo,hyhi⟩ := hwide y hy
        exact ⟨x,hx,le_trans hxlo hylo,le_trans hyhi hxhi⟩
      · exact hold g y ((widen_of_ne e hg).trans hy)

variable {k : Nat}

theorem straddled_of_group {groups : List Nat} {g i j : Nat} (hi : groups[i]? = some g)
    (hj : groups[j]? = some g) (hik : i < k) (hkj : k ≤ j) : straddled groups k = true := by
  obtain ⟨hmem,_⟩ := extents_foldl groups.zipIdx (fun _ => none)
  obtain ⟨x,hx,hlo,_⟩ := hmem g i (mem_zipIdx_iff_getElem?.mpr hi)
  obtain ⟨y,hy,_,hhi⟩ := hmem g j (mem_zipIdx_iff_getElem?.mpr hj)
  cases hx.symm.trans hy
  refine any_eq_true.mpr ⟨g,mem_of_getElem? hi,?_⟩
  rw [extents,hx]
  simp only [any_some,Bool.and_eq_true,decide_eq_true_eq]
  omega

theorem extents_members (l : List (Nat × Nat)) (e : Extents) {g : Nat} {x : Nat × Nat}
    (h : l.foldl widen e g = some x) :
    ((g,x.1) ∈ l ∨ ∃ y, e g = some y ∧ y.1 = x.1) ∧
    ((g,x.2) ∈ l ∨ ∃ y, e g = some y ∧ y.2 = x.2) := by
  induction l generalizing e with
  | nil => exact ⟨.inr ⟨x,h,rfl⟩,.inr ⟨x,h,rfl⟩⟩
  | cons p l ih =>
    obtain ⟨hlo,hhi⟩ := ih (widen e p) h
    constructor
    · rcases hlo with hlo | ⟨y,hy,heq⟩
      · exact .inl (mem_cons_of_mem _ hlo)
      · rcases (widen_members e p hy).1 with hp | ⟨z,hz,hzy⟩
        · exact .inl (heq ▸ hp ▸ mem_cons_self)
        · exact .inr ⟨z,hz,hzy.trans heq⟩
    · rcases hhi with hhi | ⟨y,hy,heq⟩
      · exact .inl (mem_cons_of_mem _ hhi)
      · rcases (widen_members e p hy).2 with hp | ⟨z,hz,hzy⟩
        · exact .inl (heq ▸ hp ▸ mem_cons_self)
        · exact .inr ⟨z,hz,hzy.trans heq⟩

theorem group_of_straddled {groups : List Nat} (h : straddled groups k = true) :
    ∃ g i j, groups[i]? = some g ∧ groups[j]? = some g ∧ i < k ∧ k ≤ j := by
  obtain ⟨g,_,hg⟩ := any_eq_true.mp h
  obtain ⟨x,hx,hk⟩ := (any_eq_true _ _).mp hg
  obtain ⟨hlo,hhi⟩ := extents_members groups.zipIdx (fun _ => none) hx
  simp only [Bool.and_eq_true,decide_eq_true_eq] at hk
  refine ⟨g,x.1,x.2,?_,?_,hk.1,hk.2⟩
  · simpa [mem_zipIdx_iff_getElem?] using hlo
  · simpa [mem_zipIdx_iff_getElem?] using hhi

variable {messages : List Value}

theorem mem_candidates (h : k ∈ candidates messages) :
    max (afterNotes messages) 1 ≤ k ∧ k < messages.length ∧
    roleIs (messages.getD k .null) "assistant" = true ∧
    straddled (toolGroups messages) k = false := by
  unfold candidates at h
  cases hlast : Occurrences.rposition (roleIs · "assistant") messages with
  | none => simp [hlast] at h
  | some last =>
    simp only [hlast,mem_filter,mem_range'_1,Bool.and_eq_true,Bool.not_eq_true'] at h
    obtain ⟨hrange,hrole,hs⟩ := h
    refine ⟨hrange.1,?_,hrole,hs⟩
    by_contra hlen
    rw [getD_eq_getElem?_getD,getElem?_eq_none (Nat.le_of_not_lt hlen)] at hrole
    exact absurd hrole (by decide)

theorem candidates_pairwise (messages : List Value) : (candidates messages).Pairwise (· < ·) := by
  unfold candidates
  split
  · exact Pairwise.nil
  · exact (pairwise_lt_range' ..).filter _

theorem le_getLast? {l : List Nat} (h : l.Pairwise (· < ·)) {last : Nat}
    (hl : l.getLast? = some last) : ∀ k ∈ l, k ≤ last := by
  obtain ⟨front,rfl⟩ := getLast?_eq_some_iff.mp hl
  exact forall_mem_append.mpr ⟨fun k hk => le_of_lt ((pairwise_append.mp h).2.2 k hk last (by simp)),
    fun k hk => le_of_eq (mem_singleton.mp hk)⟩

theorem toolIds_disjoint {cut : Nat} (hc : cut ∈ candidates messages) {a b : Value}
    (ha : a ∈ messages.take cut) (hb : b ∈ messages.drop cut) {id : String} (hia : id ∈ toolIds a) :
    id ∉ toolIds b := by
  intro hib
  obtain ⟨_,_,_,hfree⟩ := mem_candidates hc
  obtain ⟨i,hi⟩ := getElem?_of_mem ha
  obtain ⟨j,hj⟩ := getElem?_of_mem hb
  have hlt : i < cut := by
    have := (List.getElem?_eq_some_iff.mp hi).1
    simp at this
    omega
  rw [getElem?_take_of_lt hlt] at hi
  rw [getElem?_drop] at hj
  have hsame := toolGroups_same hi hj hia hib
  have hlen : i < (toolGroups messages).length := by
    rw [length_toolGroups]
    exact (List.getElem?_eq_some_iff.mp hi).1
  have hgi : (toolGroups messages)[i]? = some (toolGroups messages)[i] :=
    getElem?_eq_getElem hlen
  have := straddled_of_group hgi (hsame ▸ hgi) hlt (le_add_right cut j)
  rw [hfree] at this
  cases this

/-- A place to cut: an assistant message behind the first that no group straddles. -/
structure ValidCut (messages : List Value) (k : Nat) : Prop where
  pos : 1 ≤ k
  assistant : ∃ m, messages[k]? = some m ∧ roleIs m "assistant" = true
  whole : ∀ i j, i < k → k ≤ j → j < messages.length →
    (toolGroups messages)[i]? ≠ (toolGroups messages)[j]?

theorem mem_candidates_of_valid (h : ValidCut messages k) (hk : afterNotes messages ≤ k) :
    k ∈ candidates messages := by
  obtain ⟨m,hm,hrole⟩ := h.assistant
  obtain ⟨last,hlast,hle⟩ := Occurrences.le_rposition (p := (roleIs · "assistant")) hm hrole
  have hpos := h.pos
  have hget : messages.getD k .null = m := by rw [getD_eq_getElem?_getD,hm]; rfl
  unfold candidates
  simp only [hlast,mem_filter,mem_range'_1,Bool.and_eq_true,Bool.not_eq_true',hget,hrole,true_and]
  refine ⟨by omega,Bool.eq_false_iff.mpr (fun hs => ?_)⟩
  obtain ⟨g,i,j,hi,hj,hik,hkj⟩ := group_of_straddled hs
  have hlen := (List.getElem?_eq_some_iff.mp hj).1
  rw [length_toolGroups] at hlen
  exact h.whole i j hik hkj hlen (hi.trans hj.symm)

theorem pin_sublist (share used : Nat) (l : List (Nat × Value × Nat)) :
    (pin share used l).1.Sublist (l.map (fun x => (x.1,x.2.1))) := by
  induction l generalizing used with
  | nil => exact Sublist.slnil
  | cons x l ih =>
    obtain ⟨i,m,cost⟩ := x
    unfold pin
    split
    · exact (ih _).cons_cons _
    · exact (ih _).cons _

def carriedBefore (messages : List Value) (cut : Nat) : List Value :=
  (List.range' 1 (cut - 1)).filterMap (fun i => carriedInstruction (messages.getD i .null))

theorem instructions_before_cut (messages : List Value) {cut mustKeep : Nat} (h1 : 1 ≤ cut)
    (hcut : cut ≤ mustKeep) :
    ((instructionsBefore messages mustKeep).filter (fun x => x.1 < cut)).map (fun x => x.2.1) =
      carriedBefore messages cut := by
  have hsplit : range' 1 (mustKeep - 1) = range' 1 (cut - 1) ++ range' cut (mustKeep - cut) := by
    rw [show mustKeep - 1 = (cut - 1) + (mustKeep - cut) by omega,← range'_append_1,
      show 1 + (cut - 1) = cut by omega]
  rw [instructionsBefore,hsplit,filterMap_append,filter_append,carriedBefore,
    filter_eq_self.mpr,(filter_eq_nil_iff).mpr,append_nil,map_filterMap]
  · simp [Function.comp_def]
  all_goals
    intro x hx
    obtain ⟨i,hi,hx⟩ := mem_filterMap.mp hx
    obtain ⟨m,_,rfl⟩ := map_eq_some_iff.mp hx
    simp only [mem_range'_1] at hi
    simp only [decide_eq_true_eq]
    omega

variable {plan : RolloverPlan}

theorem tryCuts_spec {build : Nat → Option RolloverPlan} {total mustKeep : Nat} {cuts : List Nat}
    {acc : Option RolloverPlan} (hl : cuts.getLast? = some mustKeep)
    (h : tryCuts build total mustKeep cuts acc = some plan) :
    ∃ cut ∈ cuts, build cut = some plan ∧
      (estimateHistory plan.successor ≤ total ∨ cut = mustKeep) := by
  induction cuts generalizing acc with
  | nil => simp at hl
  | cons cut cuts ih =>
    unfold tryCuts at h
    cases hb : build cut with
    | none => simp [hb] at h
    | some built =>
      simp only [hb] at h
      split at h
      · rename_i hfit
        cases h
        exact ⟨cut,mem_cons_self,hb,hfit⟩
      · rename_i hfit
        cases cuts with
        | nil => exact absurd (.inr (by simpa using hl)) hfit
        | cons next cuts =>
          obtain ⟨k,hk,hrest⟩ := ih (by simpa using hl) h
          exact ⟨k,mem_cons_of_mem _ hk,hrest⟩

structure Planned (messages : List Value) (budget beforeTokens : Nat) (path : Nat → String)
    (plan : RolloverPlan) (cut : Nat) (pinned : List Value) (note : NoteFacts) : Prop where
  long : 3 ≤ messages.length
  user : roleIs (messages.getD 0 .null) "user" = true
  valid : cut ∈ candidates messages
  carried : pinned.Sublist (carriedBefore messages cut)
  noteWindow : note.window = (windowState messages).1 + 1
  noteTranscripts : note.transcripts = plan.transcripts
  successor : plan.successor = rewriteDanglingStubs
    (messages.getD 0 .null :: (pinned ++ noteMessage note :: messages.drop cut))
  evicts : evictedBy messages cut ≠ []
  transcript : plan.transcript =
    renderTranscript messages (evictedBy messages cut) (windowState messages).1 beforeTokens
  transcriptPath : plan.transcriptPath = path (windowState messages).1
  window : plan.window = (windowState messages).1 + 1
  evicted : plan.evictedMessages = (evictedBy messages cut).length
  transcripts : plan.transcripts = (windowState messages).2 ++
    [⟨(windowState messages).1,path (windowState messages).1,(evictedBy messages cut).length⟩]
  fits : estimateHistory plan.successor ≤ budget ∨ ∀ k ∈ candidates messages, k ≤ cut

theorem planRollover_spec {budget beforeTokens : Nat} {path : Nat → String}
    (h : planRollover messages budget beforeTokens path = some plan) :
    ∃ cut pinned note, Planned messages budget beforeTokens path plan cut pinned note := by
  unfold planRollover at h
  split at h
  · cases h
  rename_i hstart
  simp only [not_lt,not_or,Bool.not_eq_true,Bool.not_eq_false'] at hstart
  cases hk : (candidates messages).getLast? with
  | none => simp [hk] at h
  | some mustKeep =>
    simp only [hk] at h
    obtain ⟨built,hbuilt,rfl⟩ := map_eq_some_iff.mp h
    have hlast : ((candidates messages).drop (firstCut messages budget mustKeep)).getLast? =
        some mustKeep := by
      rw [getLast?_drop,if_neg,hk]
      intro hge
      rw [drop_eq_nil_of_le hge] at hbuilt
      simp [tryCuts] at hbuilt
    obtain ⟨cut,hcut,hb,hfit⟩ := tryCuts_spec hlast hbuilt
    have hvalid : cut ∈ candidates messages := mem_of_mem_drop hcut
    have hmax := le_getLast? (candidates_pairwise messages) hk
    have h1 : 1 ≤ cut := le_trans (le_max_right _ _) (mem_candidates hvalid).1
    simp only [buildSuccessor] at hb
    split at hb
    · cases hb
    rename_i hevict
    cases hb
    have hsub := ((pin_sublist (pinnedShare budget) 0
      ((instructionsBefore messages mustKeep).filter (fun x => x.1 < cut)).reverse).map
        Prod.snd).reverse
    refine ⟨cut,_,_,hstart.1,hstart.2,hvalid,?_,rfl,rfl,rfl,fun hnil => hevict (.inl hnil),
      rfl,rfl,rfl,rfl,rfl,?_⟩
    · rw [← instructions_before_cut messages h1 (hmax cut hvalid)]
      simpa [map_reverse,Function.comp_def] using hsub
    · rcases hfit with hfit | rfl
      · exact .inl hfit
      · exact .inr hmax

def ToolEvent.id : ToolEvent → String
  | .call id => id
  | .result id => id

variable {m : Value}

theorem toolEvent_id {b : Value} {e : ToolEvent} (h : toolEvent m b = some e) :
    toolId b = some e.id := by
  unfold toolEvent at h
  unfold toolId
  split at h
  · rename_i ht _
    obtain ⟨x,hx,rfl⟩ := map_eq_some_iff.mp h
    rw [ht]
    exact hx
  · rename_i ht _
    obtain ⟨x,hx,rfl⟩ := map_eq_some_iff.mp h
    rw [ht]
    exact hx
  · cases h

theorem toolEvents_id {e : ToolEvent} (h : e ∈ toolEvents m) : e.id ∈ toolIds m := by
  obtain ⟨b,hb,he⟩ := mem_filterMap.mp h
  exact mem_filterMap.mpr ⟨b,hb,toolEvent_id he⟩

theorem toolEvents_rewrite (retained : List String) (m : Value) :
    toolEvents (rewriteMessage retained m) = toolEvents m := by
  have hrole := index_rewriteMessage retained m (k := "role") (by decide)
  have hevent : ∀ b, toolEvent (rewriteMessage retained m) b = toolEvent m b := by
    intro b
    rw [toolEvent,hrole,toolEvent]
  have hblock : ∀ b, toolEvent m (rewriteBlock retained b) = toolEvent m b := by
    intro b
    simp only [toolEvent,index_rewriteBlock retained b (show "type" ≠ "content" by decide),
      index_rewriteBlock retained b (show "id" ≠ "content" by decide),
      index_rewriteBlock retained b (show "tool_use_id" ≠ "content" by decide)]
  rw [toolEvents,funext hevent,toolEvents]
  rcases contentBlocks_rewriteMessage retained m with h | h
  · rw [h]
  · rw [h,filterMap_map]
    exact filterMap_congr (fun b _ => hblock b)

theorem flatMap_toolEvents_rewrite (messages : List Value) :
    (rewriteDanglingStubs messages).flatMap toolEvents = messages.flatMap toolEvents := by
  rw [rewriteDanglingStubs,flatMap_map]
  exact flatMap_congr (fun m _ => toolEvents_rewrite _ m)

theorem toolEvents_eq_nil (hrole : roleIs m "user" = true) (hres : hasToolResult m = false) :
    toolEvents m = [] := by
  refine filterMap_eq_nil_iff.mpr (fun b hb => ?_)
  have hb' : typeIs b "tool_result" = false := by
    simpa using any_eq_false.mp hres b hb
  have hrole' : (m.index "role").asStr? = some "user" := by
    rw [of_decide_eq_true hrole]
    rfl
  unfold toolEvent
  rw [hrole']
  split
  · rename_i h
    exact absurd h (by decide)
  · rename_i h _
    exact absurd hb' (by simp [typeIs,Value.asStr?_eq_some h])
  · rfl

theorem toolEvents_carried {c : Value} (h : carriedInstruction m = some c) : toolEvents c = [] := by
  unfold carriedInstruction at h
  split at h
  · cases h
  rename_i hu
  simp only [Bool.or_eq_true,Bool.not_eq_true',not_or,Bool.not_eq_false] at hu
  split at h
  · rename_i s hc
    split at h
    · cases h
      exact toolEvents_eq_nil hu.1 (by simp [hasToolResult,contentBlocks,hc,Value.asArray?])
    · cases h
  · rename_i blocks hc
    split at h
    · rename_i hres
      split at h
      · cases h
        exact toolEvents_eq_nil hu.1 (by simpa using hres)
      · cases h
    · dsimp only at h
      split at h
      · cases h
        refine toolEvents_eq_nil rfl (any_eq_false.mpr (fun b hb => ?_))
        obtain ⟨b',_,hb'⟩ := mem_filterMap.mp (show b ∈ blocks.filterMap carriedText from hb)
        unfold carriedText at hb'
        split at hb'
        · cases hb'
          simp [typeIs,Value.index,Value.get?,lookup]
        · cases hb'
      · cases h
  · cases h

theorem toolEvents_note (f : NoteFacts) : toolEvents (noteMessage f) = [] := rfl

def Pairing.run (s : Pairing) (events : List ToolEvent) : Pairing := events.foldl Pairing.step s

theorem calls_run {s : Pairing} {events : List ToolEvent} {id : String}
    (h : id ∈ (s.run events).calls) : id ∈ s.calls ∨ ∃ e ∈ events, e.id = id := by
  induction events generalizing s with
  | nil => exact .inl h
  | cons e events ih =>
    rcases ih h with hs | ⟨e',he',hid⟩
    · cases e with
      | call x =>
        rcases Finset.mem_insert.mp hs with rfl | hs
        · exact .inr ⟨.call id,mem_cons_self,rfl⟩
        · exact .inl hs
      | result x =>
        simp only [Pairing.step] at hs
        split at hs <;> exact .inl hs
    · exact .inr ⟨e',mem_cons_of_mem _ he',hid⟩

/-- Two readings of one suffix, with `ids` for its tool ids: the right one reports what
the left one does, and what was in `old`. -/
structure Agree (ids : Set String) (old : Finset String) (s t : Pairing) : Prop where
  calls : ∀ id ∈ ids, (id ∈ s.calls ↔ id ∈ t.calls)
  called : ∀ id ∈ ids, id ∈ s.calls → (id ∈ s.unpaired ↔ id ∈ t.unpaired)
  unpaired : ∀ x ∈ t.unpaired, x ∈ s.unpaired ∨ x ∈ old

section

variable {ids : Set String} {old : Finset String} {s t : Pairing} (h : Agree ids old s t)

include h

theorem agree_step (e : ToolEvent) (he : e.id ∈ ids) : Agree ids old (s.step e) (t.step e) := by
  cases e with
  | call x =>
    refine ⟨fun id hid => ?_,fun id hid hc => ?_,fun y hy => ?_⟩
    · simp only [Pairing.step,Finset.mem_insert,h.calls id hid]
    · by_cases hx : id = x
      · simp [Pairing.step,hx]
      · simp only [Pairing.step,Finset.mem_insert,hx,false_or] at hc ⊢
        exact h.called id hid hc
    · simp only [Pairing.step,Finset.mem_insert] at hy ⊢
      rcases hy with hy | hy
      · exact .inl (.inl hy)
      · exact (h.unpaired y hy).imp .inr (fun h => h)
  | result x =>
    have hcond : (x ∉ s.unpaired ∨ x ∉ s.calls) ↔ (x ∉ t.unpaired ∨ x ∉ t.calls) := by
      have hcalls := h.calls x he
      by_cases hc : x ∈ s.calls
      · have hcalled := h.called x he hc
        tauto
      · tauto
    simp only [Pairing.step]
    by_cases hs : x ∉ s.unpaired ∨ x ∉ s.calls
    · rw [if_pos hs,if_pos (hcond.mp hs)]
      refine ⟨h.calls,fun id hid hc => ?_,fun y hy => ?_⟩
      · simp only [Finset.mem_insert,Finset.mem_erase,h.called id hid hc]
      · simp only [Finset.mem_insert,Finset.mem_erase] at hy ⊢
        rcases hy with hy | ⟨hne,hy⟩
        · exact .inl (.inl hy)
        · exact (h.unpaired y hy).imp (fun hy => .inr ⟨hne,hy⟩) (fun h => h)
    · rw [if_neg hs,if_neg (fun ht => hs (hcond.mpr ht))]
      refine ⟨h.calls,fun id hid hc => ?_,fun y hy => ?_⟩
      · simp only [Finset.mem_erase,h.called id hid hc]
      · simp only [Finset.mem_erase] at hy ⊢
        exact (h.unpaired y hy.2).imp (fun hs => ⟨hy.1,hs⟩) (fun h => h)

theorem agree_run (events : List ToolEvent) (he : ∀ e ∈ events, e.id ∈ ids) :
    Agree ids old (s.run events) (t.run events) := by
  induction events generalizing s t with
  | nil => exact h
  | cons e events ih =>
    exact ih (agree_step h e (he e mem_cons_self)) (fun e' he' => he e' (mem_cons_of_mem _ he'))

end

theorem unpaired_eq_run (messages : List Value) :
    unpairedToolIds messages = (Pairing.run ⟨∅,∅⟩ (messages.flatMap toolEvents)).unpaired := rfl

section Planned

variable {messages : List Value} {budget beforeTokens : Nat} {path : Nat → String}
  {plan : RolloverPlan} {cut : Nat} {pinned : List Value} {note : NoteFacts}

section

variable (h : Planned messages budget beforeTokens path plan cut pinned note)

include h

theorem Planned.head_mem : messages.getD 0 .null ∈ messages.take cut := by
  have hcut := (mem_candidates h.valid).1
  have hlong := h.long
  have hget : (messages.take cut)[0]? = some (messages.getD 0 .null) := by
    rw [getElem?_take_of_lt (by omega),getD_eq_getElem?_getD,getElem?_eq_getElem (by omega)]
    rfl
  exact mem_of_getElem? hget

theorem Planned.events : plan.successor.flatMap toolEvents =
      toolEvents (messages.getD 0 .null) ++ (messages.drop cut).flatMap toolEvents := by
  have hpinned : pinned.flatMap toolEvents = [] := by
    refine flatMap_eq_nil_iff.mpr (fun m hm => ?_)
    obtain ⟨i,_,hi⟩ := mem_filterMap.mp (h.carried.subset hm)
    exact toolEvents_carried hi
  rw [h.successor,flatMap_toolEvents_rewrite]
  simp [hpinned,toolEvents_note]

theorem Planned.unpaired (hm : unpairedToolIds [messages.getD 0 .null] ⊆ unpairedToolIds messages) :
    unpairedToolIds plan.successor ⊆ unpairedToolIds messages := by
  have hhist : messages.flatMap toolEvents = (messages.take cut).flatMap toolEvents ++
      (messages.drop cut).flatMap toolEvents := by
    rw [← flatMap_append,take_append_drop]
  have hfresh : ∀ (events : List ToolEvent), (∀ e ∈ events, ∃ a ∈ messages.take cut,
      e ∈ toolEvents a) → ∀ e ∈ (messages.drop cut).flatMap toolEvents,
      e.id ∉ (Pairing.run ⟨∅,∅⟩ events).calls := by
    intro events hevents e he hcall
    obtain ⟨b,hb,he⟩ := mem_flatMap.mp he
    rcases calls_run hcall with hnone | ⟨e',he',hid⟩
    · exact absurd hnone (Finset.notMem_empty _)
    · obtain ⟨a,ha,he'⟩ := hevents e' he'
      exact toolIds_disjoint h.valid ha hb (hid ▸ toolEvents_id he') (toolEvents_id he)
  have hleft := hfresh ((messages.take cut).flatMap toolEvents) (fun e he => mem_flatMap.mp he)
  have hright := hfresh (toolEvents (messages.getD 0 .null)) (fun e he => ⟨_,h.head_mem,he⟩)
  have hstart : Agree {id | ∃ e ∈ (messages.drop cut).flatMap toolEvents, e.id = id}
      (unpairedToolIds [messages.getD 0 .null])
      (Pairing.run ⟨∅,∅⟩ ((messages.take cut).flatMap toolEvents))
      (Pairing.run ⟨∅,∅⟩ (toolEvents (messages.getD 0 .null))) := by
    refine ⟨?_,?_,fun x hx => .inr ?_⟩
    · rintro id ⟨e,he,rfl⟩
      exact iff_of_false (hleft e he) (hright e he)
    · rintro id ⟨e,he,rfl⟩ hcall
      exact absurd hcall (hleft e he)
    · rw [unpaired_eq_run]
      simpa using hx
  have hend := agree_run hstart ((messages.drop cut).flatMap toolEvents) (fun e he => ⟨e,he,rfl⟩)
  intro x hx
  rw [unpaired_eq_run,h.events,Pairing.run,foldl_append] at hx
  rcases hend.unpaired x hx with hx | hx
  · rw [unpaired_eq_run,hhist,Pairing.run,foldl_append]
    exact hx
  · exact hm hx

end

end Planned

/-- The successor as a claim on its parts: message 0, instructions of the part cut off in
their order, a note, and a suffix from an assistant message on. -/
def Successor (messages successor : List Value) (budget : Nat) : Prop :=
  ∃ cut pinned note, pinned.Sublist (carriedBefore messages cut) ∧
    successor = rewriteDanglingStubs
      (messages.getD 0 .null :: (pinned ++ noteMessage note :: messages.drop cut)) ∧
    roleIs (messages.getD cut .null) "assistant" = true ∧
    (∃ last, Occurrences.rposition (roleIs · "assistant") messages = some last ∧ cut ≤ last) ∧
    (estimateHistory successor ≤ budget ∨ ∀ k, ValidCut messages k → k ≤ cut)

theorem Planned.shape {budget beforeTokens : Nat} {path : Nat → String} {cut : Nat}
    {pinned : List Value} {note : NoteFacts}
    (h : Planned messages budget beforeTokens path plan cut pinned note) :
    Successor messages plan.successor budget := by
  obtain ⟨hlo,hlt,hrole,_⟩ := mem_candidates h.valid
  refine ⟨cut,pinned,note,h.carried,h.successor,hrole,?_,?_⟩
  · have hget : messages[cut]? = some (messages.getD cut .null) := by
      rw [getD_eq_getElem?_getD,getElem?_eq_getElem hlt]
      rfl
    exact Occurrences.le_rposition (p := (roleIs · "assistant")) hget hrole
  · rcases h.fits with hfit | hmax
    · exact .inl hfit
    · refine .inr (fun k hk => ?_)
      rcases lt_or_ge k (afterNotes messages) with hbefore | hbehind
      · omega
      · exact hmax k (mem_candidates_of_valid hk hbehind)

/-- A plan never orphans a tool call or result, unless a result's id is the marker that
stands for a result of message 0 without a call. -/
theorem planRollover_pairs {messages : List Value} {budget beforeTokens : Nat}
    {path : Nat → String} {plan : RolloverPlan}
    (h : planRollover messages budget beforeTokens path = some plan) :
    (unpairedToolIds [messages.getD 0 .null] ⊆ unpairedToolIds messages →
      unpairedToolIds plan.successor ⊆ unpairedToolIds messages) ∧
    Successor messages plan.successor budget := by
  obtain ⟨cut,pinned,note,hp⟩ := planRollover_spec h
  exact ⟨hp.unpaired,hp.shape⟩

def toolUse (id : String) : Value :=
  .object [("id",.string id),("input",.object []),("name",.string "bash"),
    ("type",.string "tool_use")]

def toolResult (id : String) : Value :=
  .object [("content",.string "ok"),("tool_use_id",.string id),("type",.string "tool_result")]

def blocksMessage (role : String) (blocks : List Value) : Value :=
  .object [("content",.array blocks),("role",.string role)]

def roundHistory (orphan id : String) : List Value :=
  [blocksMessage "user" [toolResult orphan],blocksMessage "assistant" [toolUse id],
    blocksMessage "user" [toolResult id],blocksMessage "assistant" []]

theorem tryCuts_last (build : Nat → Option RolloverPlan) (total k : Nat) :
    tryCuts build total k [k] none = build k := by
  unfold tryCuts
  cases build k with
  | none => rfl
  | some built => simp

theorem planRollover_last (beforeTokens : Nat) (path : Nat → String) {built : RolloverPlan}
    (hlong : 3 ≤ messages.length) (huser : roleIs (messages.getD 0 .null) "user" = true)
    (hlast : (candidates messages).getLast? = some k)
    (hfirst : (candidates messages).drop (firstCut messages 0 k) = [k])
    (hbuild : buildSuccessor messages beforeTokens (path (windowState messages).1)
      (instructionsBefore messages k) (pinnedShare 0) k = some built) :
    planRollover messages 0 beforeTokens path = some { built with
      transcript := renderTranscript messages built.evictedIndices (windowState messages).1
        beforeTokens
      evictedIndices := [] } := by
  unfold planRollover
  rw [if_neg (by simp only [huser]; simp; omega),hlast]
  simp only [hfirst,tryCuts_last,hbuild]
  rfl

theorem planRollover_round : ∃ plan,
    planRollover (roundHistory "b" "a") 0 0 (fun _ => "w.md") = some plan ∧
    unpairedToolIds plan.successor ⊆ unpairedToolIds (roundHistory "b" "a") ∧
    Successor (roundHistory "b" "a") plan.successor 0 := by
  have hplan := @planRollover_last 3 (roundHistory "b" "a") 0 (fun _ => "w.md") _ (by decide)
    (by decide) (by decide) (by decide) rfl
  exact ⟨_,hplan,(planRollover_pairs hplan).imp_left (· (by decide))⟩

/-- The id of the call is the marker of the brief's result: the history reports nothing,
the successor reports the brief's result. -/
theorem planRollover_marker : ∃ plan,
    planRollover (roundHistory "a" "result:a") 0 0 (fun _ => "w.md") = some plan ∧
    ¬ unpairedToolIds plan.successor ⊆ unpairedToolIds (roundHistory "a" "result:a") := by
  have hcuts : candidates (roundHistory "a" "result:a") = [1,3] := by decide +kernel
  have hfirst : firstCut (roundHistory "a" "result:a") 0 3 = 1 := by decide +kernel
  have hplan := @planRollover_last 3 (roundHistory "a" "result:a") 0 (fun _ => "w.md") _
    (by decide) (by decide) (by rw [hcuts]; rfl) (by rw [hcuts,hfirst]; rfl) rfl
  obtain ⟨cut,pinned,note,hp⟩ := planRollover_spec hplan
  have hvalid := hp.valid
  rw [hcuts,mem_cons,mem_singleton] at hvalid
  rcases hvalid with rfl | rfl
  · exact absurd (by decide) hp.evicts
  · refine ⟨_,hplan,fun hsub => ?_⟩
    rw [unpaired_eq_run,hp.events] at hsub
    exact absurd hsub (by decide)

end Synaps.Worker
