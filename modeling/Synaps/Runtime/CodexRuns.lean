import Synaps.Runtime.CodexDecoder
import Synaps.Runtime.ChatDecoder
import Synaps.Lib.Runs

/-!
Runs of the decoder of Responses streams: what was sent, what was gathered and what the end
reports agree in every state, and the lines at which the marks of a shown attempt are lost.
-/

set_option autoImplicit false

namespace Synaps.Codex

open Json History
open List hiding concat
open Chat (concat)

def texts (events : List StreamEvent) : List String :=
  events.filterMap fun | .text text => some text | _ => none

def uses (events : List StreamEvent) : List String :=
  events.filterMap fun | .toolUse _ id _ => some id | _ => none

def StreamEvent.shows : StreamEvent → Bool
  | .text t => t ≠ ""
  | .toolUseStart .. => true
  | .toolUseDelta .. => true
  | .toolUse .. => true
  | .notice _ => false
  | .usage .. => false

def Sink.shown (k : Sink) : Bool := k.sent.any (·.shows)

def ids (calls : List ToolCall) : List String := calls.map (·.id)

@[simp] theorem texts_append (a b : List StreamEvent) : texts (a ++ b) = texts a ++ texts b :=
  filterMap_append

@[simp] theorem uses_append (a b : List StreamEvent) : uses (a ++ b) = uses a ++ uses b :=
  filterMap_append

@[simp] theorem shown_send (k : Sink) (event : StreamEvent) :
    (k.send event).shown = (k.shown || event.shows) := by
  simp [Sink.shown,Sink.send]

@[simp] theorem shown_pushText (k : Sink) (text : String) :
    (k.pushText text).shown = (k.shown || text ≠ "") := by
  simp [Sink.shown,Sink.pushText,StreamEvent.shows]

structure Inv (completed : List ToolCall) (emitted : Bool) (k : Sink) : Prop where
  text : k.text = concat (texts k.sent)
  named : ∀ call ∈ completed,call.id ≠ ""
  distinct : (ids completed).Nodup
  usedOnce : (uses k.sent).Nodup
  usedDone : ∀ id ∈ uses k.sent,id ∈ ids completed
  produced : emitted = true → k.text ≠ "" ∨ completed ≠ []
  marked : completed ≠ [] → emitted = true

def CodexSseDecoder.Agrees (d : CodexSseDecoder) (k : Sink) : Prop :=
  Inv d.completedTools d.emittedOutput k

variable {completed : List ToolCall} {emitted : Bool} {k : Sink}

theorem Inv.send (h : Inv completed emitted k) {event : StreamEvent} (htext : texts [event] = [])
    (huse : uses [event] = []) : Inv completed emitted (k.send event) where
  text := by simp [Sink.send,htext,← h.text]
  named := h.named
  distinct := h.distinct
  usedOnce := by simpa [Sink.send,huse] using h.usedOnce
  usedDone := by simpa [Sink.send,huse] using h.usedDone
  produced := h.produced
  marked := h.marked

theorem Inv.pushText (h : Inv completed emitted k) (text : String) :
    Inv completed (emitted || text ≠ "") (k.pushText text) where
  text := by
    have htexts : texts [.text text] = [text] := rfl
    simp [Sink.pushText,htexts,← h.text]
  named := h.named
  distinct := h.distinct
  usedOnce := by
    have huses : uses [.text text] = [] := rfl
    simpa [Sink.pushText,huses] using h.usedOnce
  usedDone := by
    have huses : uses [.text text] = [] := rfl
    simpa [Sink.pushText,huses] using h.usedDone
  produced := by
    intro hemitted
    rw [Bool.or_eq_true,decide_eq_true_eq] at hemitted
    have hempty : k.text ++ text = "" → k.text = "" ∧ text = "" := String.append_eq_empty_iff.mp
    rcases hemitted with hold | hnew
    · exact (h.produced hold).imp_left fun hne he => hne (hempty he).1
    · exact .inl fun he => hnew (hempty he).2
  marked := fun hne => by rw [h.marked hne,Bool.true_or]

section

variable (h : Inv completed emitted k) (call : ToolCall) (hid : call.id ≠ "")
  (hnew : call.id ∉ ids completed)

include h hid hnew

theorem Inv.complete : Inv (completed ++ [call]) true k where
  text := h.text
  named := forall_mem_append.mpr ⟨h.named,forall_mem_singleton.mpr hid⟩
  distinct := by
    rw [ids,map_append]
    refine h.distinct.append (nodup_singleton _) ?_
    intro id hold hlast
    rw [mem_singleton.mp hlast] at hold
    exact hnew hold
  usedOnce := h.usedOnce
  usedDone := by
    intro id hid
    rw [ids,map_append]
    exact mem_append_left _ (h.usedDone id hid)
  produced := fun _ => .inr (by simp)
  marked := fun _ => rfl

theorem Inv.use (name : String) (input : Value) :
    Inv (completed ++ [call]) true (k.send (.toolUse name call.id input)) := by
  have hdone := h.complete call hid hnew
  have htexts : texts [.toolUse name call.id input] = [] := rfl
  have huses : uses [.toolUse name call.id input] = [call.id] := rfl
  refine ⟨?_,hdone.named,hdone.distinct,?_,?_,hdone.produced,hdone.marked⟩
  · simp [Sink.send,htexts,← h.text]
  · simp only [Sink.send,uses_append,huses]
    refine h.usedOnce.append (nodup_singleton _) ?_
    intro id hold hlast
    rw [mem_singleton.mp hlast] at hold
    exact hnew (h.usedDone _ hold)
  · intro id hmem
    simp only [Sink.send,uses_append,huses] at hmem
    rcases mem_append.mp hmem with hold | hlast
    · exact hdone.usedDone id hold
    · rw [mem_singleton.mp hlast]
      simp [ids]

end

theorem any_id (calls : List ToolCall) (id : String) :
    calls.any (·.id = id) = true ↔ id ∈ ids calls := by
  simp [ids]

theorem inv_start (h : Inv completed emitted k) (tool : CodexToolAccumulator) :
    Inv completed emitted (tool.start k).2 := by
  unfold CodexToolAccumulator.start
  split
  · exact h.send rfl rfl
  · exact h

section

variable {d : CodexSseDecoder} (h : d.Agrees k)

include h

theorem agrees_addToolFromItem (idx : Nat) (item : Value) :
    (d.addToolFromItem k idx item).1.Agrees (d.addToolFromItem k idx item).2 := by
  unfold CodexSseDecoder.addToolFromItem
  split
  · exact h
  · exact inv_start h _

theorem agrees_announce (ctx : Ctx) (tool : CodexToolAccumulator) :
    (d.announce ctx k tool).1.Agrees (d.announce ctx k tool).2 := by
  unfold CodexSseDecoder.announce
  split
  · exact h
  · rename_i hcond
    simp only [Bool.or_eq_true,decide_eq_true_eq,any_id,not_or] at hcond
    exact Inv.use h ⟨tool.id,tool.name,tool.arguments⟩ hcond.1.1 hcond.2 _ _

theorem agrees_completeToolFromItem (ctx : Ctx) (idx : Nat) (item : Value) :
    (d.completeToolFromItem ctx k idx item).1.Agrees (d.completeToolFromItem ctx k idx item).2 := by
  unfold CodexSseDecoder.completeToolFromItem
  split
  · exact h
  · exact agrees_announce (d := d.setTool idx _) (inv_start h _) ctx _

theorem agrees_backfill (idx : Nat) (item : Value) :
    (d.backfillMessageSuffix k idx item).1.Agrees (d.backfillMessageSuffix k idx item).2 := by
  unfold CodexSseDecoder.backfillMessageSuffix
  split
  · exact h
  · split
    · exact h
    · dsimp only
      split
      · rename_i c cs _
        have hne : String.ofList (c :: cs) ≠ "" := by simp
        have hpush := Inv.pushText h (String.ofList (c :: cs))
        rwa [decide_eq_true hne,Bool.or_true] at hpush
      · exact h

theorem agrees_webSearch (ctx : Ctx) (label : String) (item : Value) :
    d.Agrees (announceWebSearchCall ctx label item k) := by
  unfold announceWebSearchCall
  split
  · exact h
  · exact h.send rfl rfl

theorem agrees_pushUsage (event : Value) :
    (d.pushUsage k event).1.Agrees (d.pushUsage k event).2 := by
  unfold CodexSseDecoder.pushUsage
  dsimp only
  split
  · exact h.send rfl rfl
  · exact h

theorem agrees_finishTool (tool : CodexToolAccumulator) : (d.finishTool tool).Agrees k := by
  unfold CodexSseDecoder.finishTool
  split
  · rename_i hcond
    simp only [Bool.and_eq_true,decide_eq_true_eq,Bool.not_eq_true',← Bool.not_eq_true,
      any_id] at hcond
    exact Inv.complete h ⟨tool.id,tool.name,tool.arguments⟩ hcond.1.1 hcond.2
  · exact h

end

theorem agrees_foldl (tools : List CodexToolAccumulator) {d : CodexSseDecoder} (h : d.Agrees k) :
    (tools.foldl CodexSseDecoder.finishTool d).Agrees k := by
  induction tools generalizing d with
  | nil => exact h
  | cons tool tools ih => exact ih (agrees_finishTool h tool)

theorem agrees_finish {d : CodexSseDecoder} (h : d.Agrees k) : d.finish.Agrees k :=
  agrees_foldl d.activeTools (d := { d with activeTools := [] }) h

theorem agrees_pushEvent {d : CodexSseDecoder} (h : d.Agrees k) (ctx : Ctx) (event : Value) :
    (d.pushEvent ctx k event).1.Agrees (d.pushEvent ctx k event).2 := by
  have hnote : (d.note event).Agrees k := h
  unfold CodexSseDecoder.pushEvent
  dsimp only
  split
  · unfold CodexSseDecoder.textDelta
    split
    · exact Inv.pushText hnote _
    · exact hnote
  · unfold CodexSseDecoder.itemAdded
    split
    · refine agrees_addToolFromItem ?_ _ _
      unfold CodexSseDecoder.observeMessageItem
      split <;> exact hnote
    · exact hnote
  · unfold CodexSseDecoder.argumentsDelta
    dsimp only
    split
    · exact hnote
    · exact Inv.send hnote rfl rfl
  · unfold CodexSseDecoder.itemDone
    split
    · refine agrees_completeToolFromItem (agrees_webSearch (agrees_backfill ?_ _ _) ctx _ _) ctx _ _
      unfold CodexSseDecoder.observeMessageItem
      split <;> exact hnote
    · exact hnote
  · refine agrees_finish ?_
    exact agrees_pushUsage hnote event
  · refine agrees_finish ?_
    exact agrees_pushUsage hnote event
  · refine agrees_finish ?_
    exact agrees_pushUsage hnote event
  · exact hnote

def CodexSseDecoder.hasStarted (d : CodexSseDecoder) : Bool := d.activeTools.any (·.started)

theorem slot_lt (tools : List CodexToolAccumulator) (idx : Nat) :
    slotOf idx < (ensureTool tools idx).length := by
  simp only [ensureTool,length_append,length_replicate]
  omega

variable {tools : List CodexToolAccumulator}

theorem mem_ensureTool {idx : Nat} {tool : CodexToolAccumulator} (h : tool ∈ ensureTool tools idx) :
    tool ∈ tools ∨ tool = .default := by
  rcases mem_append.mp h with hold | hnew
  · exact .inl hold
  · exact .inr (eq_of_mem_replicate hnew)

theorem ensureTool_get {idx i : Nat} {tool : CodexToolAccumulator} (h : tools[i]? = some tool) :
    (ensureTool tools idx)[i]? = some tool := by
  obtain ⟨hi,-⟩ := List.getElem?_eq_some_iff.mp h
  rw [ensureTool,getElem?_append_left hi,h]

/-- A slot that is written without losing its start: what has started is what had, and the
    written tool if it has. -/
theorem hasStarted_setTool (d : CodexSseDecoder) (idx : Nat) (tool : CodexToolAccumulator)
    (h : (toolAt d.activeTools idx).started = true → tool.started = true) :
    (d.setTool idx tool).hasStarted = true ↔ d.hasStarted = true ∨ tool.started = true := by
  simp only [CodexSseDecoder.hasStarted,CodexSseDecoder.setTool,any_eq_true]
  have hwritten : tool ∈ (ensureTool d.activeTools idx).set (slotOf idx) tool :=
    mem_set (slot_lt d.activeTools idx) tool
  constructor
  · rintro ⟨other,hmem,hstarted⟩
    rcases mem_or_eq_of_mem_set hmem with hold | rfl
    · rcases mem_ensureTool hold with hin | rfl
      · exact .inl ⟨other,hin,hstarted⟩
      · cases hstarted
    · exact .inr hstarted
  · rintro (⟨other,hmem,hstarted⟩ | hstarted)
    · obtain ⟨i,hi⟩ := mem_iff_getElem?.mp hmem
      by_cases heq : slotOf idx = i
      · refine ⟨tool,hwritten,h ?_⟩
        rwa [toolAt,heq,hi]
      · refine ⟨other,mem_iff_getElem?.mpr ⟨i,?_⟩,hstarted⟩
        rw [getElem?_set_ne heq]
        exact ensureTool_get hi
    · exact ⟨tool,hwritten,hstarted⟩

theorem hasStarted_of_toolAt {d : CodexSseDecoder} {idx : Nat}
    (h : (toolAt d.activeTools idx).started = true) : d.hasStarted = true := by
  unfold toolAt at h
  cases hget : d.activeTools[slotOf idx]? with
  | none => simp [hget,CodexToolAccumulator.default] at h
  | some tool =>
    rw [hget,Option.getD_some] at h
    exact any_eq_true.mpr ⟨tool,mem_of_getElem? hget,h⟩

theorem emittedAnyOutput_iff (d : CodexSseDecoder) : d.emittedAnyOutput = true ↔
      d.emittedOutput = true ∨ d.completedTools ≠ [] ∨ d.hasStarted = true := by
  simp [CodexSseDecoder.emittedAnyOutput,CodexSseDecoder.hasStarted,or_assoc]

/-- From one decoder and sink to the next: the end is untouched, what was shown or marked stays
    so, and a tool starts only with an event. -/
structure Grows (d : CodexSseDecoder) (k : Sink) (d' : CodexSseDecoder) (k' : Sink) : Prop where
  success : d'.terminalSuccess = d.terminalSuccess
  failure : d'.terminalFailure = d.terminalFailure
  shown : k.shown = true → k'.shown = true
  started : d'.hasStarted = true → d.hasStarted = true ∨ k'.shown = true
  keep : d.emittedAnyOutput = true → d'.emittedAnyOutput = true

structure Advances (d : CodexSseDecoder) (k : Sink) (d' : CodexSseDecoder) (k' : Sink) : Prop
    extends Grows d k d' k' where
  mark : k'.shown = true → k.shown = true ∨ d'.emittedAnyOutput = true

variable {d d' d'' : CodexSseDecoder} {k' k'' : Sink}

theorem Advances.refl (d : CodexSseDecoder) (k : Sink) : Advances d k d k :=
  ⟨⟨rfl,rfl,id,.inl,id⟩,.inl⟩

theorem Grows.trans (h : Grows d k d' k') (h' : Grows d' k' d'' k'') : Grows d k d'' k'' where
  success := h'.success.trans h.success
  failure := h'.failure.trans h.failure
  shown := fun hs => h'.shown (h.shown hs)
  started := fun hs => (h'.started hs).elim (fun ht => (h.started ht).imp_right h'.shown) .inr
  keep := fun hs => h'.keep (h.keep hs)

theorem Advances.trans (h : Advances d k d' k') (h' : Advances d' k' d'' k'') :
    Advances d k d'' k'' :=
  ⟨h.toGrows.trans h'.toGrows,fun hs => (h'.mark hs).elim
    (fun ht => (h.mark ht).imp_right h'.keep) .inr⟩

theorem start_spec (tool : CodexToolAccumulator) (k : Sink) :
    ((tool.start k).1.started = tool.started ∧ (tool.start k).2 = k) ∨
      ((tool.start k).1.started = true ∧ (tool.start k).2.shown = true) := by
  unfold CodexToolAccumulator.start
  split
  · exact .inr ⟨rfl,by simp [StreamEvent.shows]⟩
  · exact .inl ⟨rfl,rfl⟩

theorem advances_setTool_start (d : CodexSseDecoder) (k : Sink) (idx : Nat)
    (tool : CodexToolAccumulator) (h : tool.started = (toolAt d.activeTools idx).started) :
    Advances d k (d.setTool idx (tool.start k).1) (tool.start k).2 := by
  have hkept : (toolAt d.activeTools idx).started = true → (tool.start k).1.started = true := by
    intro hs
    rcases start_spec tool k with ⟨heq,-⟩ | ⟨heq,-⟩
    · rw [heq,h,hs]
    · exact heq
  have hset := hasStarted_setTool d idx (tool.start k).1 hkept
  have hany : (d.setTool idx (tool.start k).1).emittedAnyOutput = true ↔
      d.emittedAnyOutput = true ∨ (tool.start k).1.started = true := by
    rw [emittedAnyOutput_iff,emittedAnyOutput_iff,hset,or_assoc,or_assoc]
    rfl
  rcases start_spec tool k with ⟨heq,hk⟩ | ⟨heq,hshown⟩
  · refine ⟨⟨rfl,rfl,fun hs => by rwa [hk],fun hs => .inl ?_,fun hs => hany.mpr (.inl hs)⟩,
      fun hs => .inl (by rwa [hk] at hs)⟩
    exact (hset.mp hs).elim id fun ht => hasStarted_of_toolAt (by rwa [← h,← heq])
  · exact ⟨⟨rfl,rfl,fun _ => hshown,fun _ => .inr hshown,fun hs => hany.mpr (.inl hs)⟩,
      fun _ => .inr (hany.mpr (.inr heq))⟩

section

variable (hsuccess : d'.terminalSuccess = d.terminalSuccess)
  (hfailure : d'.terminalFailure = d.terminalFailure) (hactive : d'.activeTools = d.activeTools)

include hsuccess hfailure hactive

theorem advances_marked (hshown : k.shown = true → k'.shown = true)
    (hemitted : d'.emittedOutput = true) : Advances d k d' k' := by
  have hany : d'.emittedAnyOutput = true := (emittedAnyOutput_iff d').mpr (.inl hemitted)
  refine ⟨⟨hsuccess,hfailure,hshown,fun hs => .inl ?_,fun _ => hany⟩,fun _ => .inr hany⟩
  rwa [CodexSseDecoder.hasStarted,hactive] at hs

theorem advances_quiet (hcompleted : d'.completedTools = d.completedTools)
    (hemitted : d'.emittedOutput = d.emittedOutput) (hshown : k'.shown = k.shown) :
    Advances d k d' k' := by
  refine ⟨⟨hsuccess,hfailure,fun hs => by rwa [hshown],fun hs => .inl ?_,fun hs => ?_⟩,
    fun hs => .inl (by rwa [hshown] at hs)⟩
  · rwa [CodexSseDecoder.hasStarted,hactive] at hs
  · rwa [CodexSseDecoder.emittedAnyOutput,hactive,hcompleted,hemitted]

end

section

variable (d : CodexSseDecoder) (k : Sink) (idx : Nat) (item : Value)

theorem advances_observe : Advances d k (d.observeMessageItem idx item) k := by
  unfold CodexSseDecoder.observeMessageItem
  split
  · exact .refl d k
  · exact advances_quiet rfl rfl rfl rfl rfl rfl

theorem advances_addToolFromItem :
    Advances d k (d.addToolFromItem k idx item).1 (d.addToolFromItem k idx item).2 := by
  unfold CodexSseDecoder.addToolFromItem
  split
  · exact .refl d k
  · exact advances_setTool_start d k idx _ rfl

end

variable (ctx : Ctx)

section

variable (d : CodexSseDecoder) (k : Sink)

theorem advances_announce (tool : CodexToolAccumulator) :
    Advances d k (d.announce ctx k tool).1 (d.announce ctx k tool).2 := by
  unfold CodexSseDecoder.announce
  split
  · exact .refl d k
  · exact advances_marked rfl rfl rfl (fun hs => by simp [hs]) rfl

theorem advances_completeToolFromItem (idx : Nat) (item : Value) :
    Advances d k (d.completeToolFromItem ctx k idx item).1
      (d.completeToolFromItem ctx k idx item).2 := by
  unfold CodexSseDecoder.completeToolFromItem
  split
  · exact .refl d k
  · refine .trans ?_ (advances_announce ctx _ _ _)
    exact advances_setTool_start d k idx _ rfl

theorem advances_backfill (idx : Nat) (item : Value) :
    Advances d k (d.backfillMessageSuffix k idx item).1 (d.backfillMessageSuffix k idx item).2 := by
  unfold CodexSseDecoder.backfillMessageSuffix
  split
  · exact .refl d k
  split
  · exact .refl d k
  · dsimp only
    split
    · exact advances_marked rfl rfl rfl (fun hs => by simp [hs]) rfl
    · exact advances_quiet rfl rfl rfl rfl rfl rfl

theorem advances_webSearch (label : String) (item : Value) :
    Advances d k d (announceWebSearchCall ctx label item k) := by
  unfold announceWebSearchCall
  split
  · exact .refl d k
  · exact advances_quiet rfl rfl rfl rfl rfl (by simp [StreamEvent.shows])

theorem advances_textDelta (event : Value) :
    Advances d k (d.textDelta k event).1 (d.textDelta k event).2 := by
  unfold CodexSseDecoder.textDelta
  split
  · rename_i delta _
    by_cases hempty : delta = ""
    · exact advances_quiet rfl rfl rfl rfl (by simp [hempty]) (by simp [hempty])
    · exact advances_marked rfl rfl rfl (fun hs => by simp [hs]) (by simp [hempty])
  · exact .refl d k

theorem advances_itemAdded (event : Value) :
    Advances d k (d.itemAdded k event).1 (d.itemAdded k event).2 := by
  unfold CodexSseDecoder.itemAdded
  split
  · exact (advances_observe d k _ _).trans (advances_addToolFromItem _ _ _ _)
  · exact .refl d k

theorem advances_itemDone (event : Value) :
    Advances d k (d.itemDone ctx k event).1 (d.itemDone ctx k event).2 := by
  unfold CodexSseDecoder.itemDone
  split
  · exact (((advances_observe d k _ _).trans (advances_backfill _ _ _ _)).trans
      (advances_webSearch ctx _ _ _ _)).trans (advances_completeToolFromItem ctx _ _ _ _)
  · exact .refl d k

end

variable {event : Value}

theorem argumentsDelta_spec (d : CodexSseDecoder) (k : Sink) (h : argumentsOf event ≠ "") :
    Grows d k (d.argumentsDelta k event).1 (d.argumentsDelta k event).2 ∧
      (d.argumentsDelta k event).2.shown = true ∧
      (d.argumentsDelta k event).1.emittedAnyOutput = d.emittedAnyOutput := by
  have hgrows : ∀ arguments : String, (d.setTool (outputIndex event)
        { toolAt d.activeTools (outputIndex event) with arguments := arguments }).hasStarted
        = d.hasStarted := fun arguments => by
    rw [Bool.eq_iff_iff]
    exact (hasStarted_setTool d _ { toolAt d.activeTools _ with arguments := arguments } id).trans
      (or_iff_left_of_imp hasStarted_of_toolAt)
  unfold CodexSseDecoder.argumentsDelta
  dsimp only
  rw [if_neg h]
  have hany : ∀ arguments : String, (d.setTool (outputIndex event)
        { toolAt d.activeTools (outputIndex event) with arguments := arguments }).emittedAnyOutput
        = d.emittedAnyOutput := fun arguments => by
    rw [Bool.eq_iff_iff,emittedAnyOutput_iff,emittedAnyOutput_iff,hgrows]
    rfl
  have hshown : ∀ id delta,(k.send (.toolUseDelta id delta)).shown = true := by
    intro id delta
    simp [StreamEvent.shows]
  exact ⟨⟨rfl,rfl,fun _ => hshown _ _,fun _ => .inr (hshown _ _),fun hs => (hany _).trans hs⟩,
    hshown _ _,hany _⟩

def CodexToolAccumulator.callable (tool : CodexToolAccumulator) : Bool :=
  tool.id ≠ "" && tool.name ≠ ""

theorem finishTool_emitted (hmarked : d.completedTools ≠ [] → d.emittedOutput = true)
    (tool : CodexToolAccumulator) :
    (d.finishTool tool).emittedOutput = (d.emittedOutput || tool.callable) := by
  unfold CodexSseDecoder.finishTool CodexToolAccumulator.callable
  split
  · rename_i hcond
    simp only [Bool.and_eq_true] at hcond
    simp only [hcond.1.1,hcond.1.2,Bool.and_self,Bool.or_true]
  · rename_i hcond
    -- a callable tool that is not completed now was completed before, with the mark
    cases hcall : (tool.id ≠ "" && tool.name ≠ "") with
    | false => rw [Bool.or_false]
    | true =>
      rw [hcall,Bool.true_and,Bool.not_eq_true',Bool.not_eq_false,any_id] at hcond
      rw [hmarked fun hnil => by simp [hnil,ids] at hcond,Bool.true_or]

theorem foldl_emitted (tools : List CodexToolAccumulator) (h : d.Agrees k) :
    (tools.foldl CodexSseDecoder.finishTool d).emittedOutput
      = (d.emittedOutput || tools.any (·.callable)) := by
  induction tools generalizing d with
  | nil => simp
  | cons tool tools ih =>
    rw [foldl_cons,ih (agrees_finishTool h tool),finishTool_emitted h.marked,any_cons,
      Bool.or_assoc]

theorem finishTool_rest (d : CodexSseDecoder) (tool : CodexToolAccumulator) :
    (d.finishTool tool).activeTools = d.activeTools ∧
      (d.finishTool tool).terminalSuccess = d.terminalSuccess ∧
      (d.finishTool tool).terminalFailure = d.terminalFailure := by
  unfold CodexSseDecoder.finishTool
  split <;> exact ⟨rfl,rfl,rfl⟩

theorem foldl_rest (tools : List CodexToolAccumulator) (d : CodexSseDecoder) :
    (tools.foldl CodexSseDecoder.finishTool d).activeTools = d.activeTools ∧
      (tools.foldl CodexSseDecoder.finishTool d).terminalSuccess = d.terminalSuccess ∧
      (tools.foldl CodexSseDecoder.finishTool d).terminalFailure = d.terminalFailure := by
  induction tools generalizing d with
  | nil => exact ⟨rfl,rfl,rfl⟩
  | cons tool tools ih =>
    obtain ⟨hactive,hsuccess,hfailure⟩ := finishTool_rest d tool
    rw [foldl_cons,← hactive,← hsuccess,← hfailure]
    exact ih _

section

variable (d : CodexSseDecoder)

@[simp] theorem finish_activeTools : d.finish.activeTools = [] :=
  (foldl_rest d.activeTools { d with activeTools := [] }).1

@[simp] theorem finish_terminalSuccess : d.finish.terminalSuccess = d.terminalSuccess :=
  (foldl_rest d.activeTools { d with activeTools := [] }).2.1

@[simp] theorem finish_terminalFailure : d.finish.terminalFailure = d.terminalFailure :=
  (foldl_rest d.activeTools { d with activeTools := [] }).2.2

end

/-- The end drains the started tools: a mark remains if there was one apart from them, or if a
    tool could be called. -/
theorem finish_emittedAnyOutput (h : d.Agrees k) :
    d.finish.emittedAnyOutput = (d.emittedOutput || d.activeTools.any (·.callable)) := by
  have hagrees := agrees_finish h
  have hemitted : d.finish.emittedOutput = (d.emittedOutput || d.activeTools.any (·.callable)) :=
    @foldl_emitted k { d with activeTools := [] } d.activeTools h
  rw [← hemitted,Bool.eq_iff_iff,emittedAnyOutput_iff]
  constructor
  · rintro (he | hc | hs)
    · exact he
    · exact hagrees.marked hc
    · simp [CodexSseDecoder.hasStarted] at hs
  · exact .inl

def delivered (ctx : Ctx) (d : CodexSseDecoder) (line : List Char) : Option Value :=
  match readLine line with
  | .payload => if d.buffer = [] then none else (ctx.fromStr (String.ofList d.buffer)).toOption
  | _ => none

def kindOf (event : Value) : EventKind := EventKind.of (eventType event)

def endsStream (event : Value) : Bool :=
  kindOf event = .completed || kindOf event = .failed || kindOf event = .incomplete

def reportsFailure (event : Value) : Bool := kindOf event = .failed || kindOf event = .incomplete

section

variable (d : CodexSseDecoder) (k : Sink)

theorem pushLine_cases (line : List Char) :
    (∃ event,delivered ctx d line = some event ∧ readLine line ≠ .done ∧
      d.pushLine ctx k line = { d with buffer := [] }.pushEvent ctx k event) ∨
    (delivered ctx d line = none ∧ readLine line = .done ∧
      d.pushLine ctx k line = ({ d with terminalSuccess := true }.finish,k)) ∨
    (delivered ctx d line = none ∧ readLine line ≠ .done ∧
      ∃ buffer,d.pushLine ctx k line = ({ d with buffer := buffer },k)) := by
  unfold delivered CodexSseDecoder.pushLine
  cases hline : readLine line with
  | payload =>
    dsimp only
    by_cases hbuffer : d.buffer = []
    · rw [if_pos hbuffer,if_pos hbuffer]
      exact .inr (.inr ⟨rfl,nofun,d.buffer,rfl⟩)
    rw [if_neg hbuffer,if_neg hbuffer]
    unfold CodexSseDecoder.pushPayload
    cases hread : ctx.fromStr (String.ofList d.buffer) with
    | ok event => exact .inl ⟨event,rfl,nofun,rfl⟩
    | error e => exact .inr (.inr ⟨rfl,nofun,[],rfl⟩)
  | done => exact .inr (.inl ⟨rfl,rfl,rfl⟩)
  | data data => exact .inr (.inr ⟨rfl,nofun,d.buffer ++ data,rfl⟩)
  | skip => exact .inr (.inr ⟨rfl,nofun,d.buffer,rfl⟩)

theorem pushUsage_spec (event : Value) :
    (∃ usage,(d.pushUsage k event).1 = { d with observedUsage := usage }) ∧
      (d.pushUsage k event).2.shown = k.shown := by
  unfold CodexSseDecoder.pushUsage
  dsimp only
  split
  · exact ⟨⟨_,rfl⟩,by simp [StreamEvent.shows]⟩
  · exact ⟨⟨d.observedUsage,rfl⟩,rfl⟩

/-- The decoder that an ending event hands to the end: it has what it had, and the success or
    a failure. -/
structure Ending (d : CodexSseDecoder) (e : CodexSseDecoder) : Prop where
  active : e.activeTools = d.activeTools
  completed : e.completedTools = d.completedTools
  emitted : e.emittedOutput = d.emittedOutput

theorem pushEvent_ends (h : endsStream event = true) :
    ∃ e,(d.pushEvent ctx k event).1 = e.finish ∧ Ending d e ∧
      (d.pushEvent ctx k event).2.shown = k.shown ∧
      ((kindOf event = .completed ∧ e.terminalSuccess = true ∧
          e.terminalFailure = d.terminalFailure) ∨
        (reportsFailure event = true ∧ e.terminalSuccess = d.terminalSuccess ∧
          e.terminalFailure.isSome = true)) := by
  obtain ⟨⟨usage,husage⟩,hshown⟩ := pushUsage_spec (d.note event) k event
  unfold CodexSseDecoder.pushEvent
  unfold endsStream kindOf at h
  unfold reportsFailure kindOf
  dsimp only
  cases hkind : EventKind.of (eventType event) with
  | completed =>
    dsimp only
    refine ⟨_,rfl,?_,hshown,.inl ⟨rfl,rfl,?_⟩⟩ <;> rw [husage]
    · exact ⟨rfl,rfl,rfl⟩
    · rfl
  | failed | incomplete =>
    dsimp only
    refine ⟨_,rfl,?_,hshown,.inr ⟨rfl,?_,rfl⟩⟩ <;> rw [husage]
    · exact ⟨rfl,rfl,rfl⟩
    · rfl
  | textDelta | itemAdded | argumentsDelta | itemDone | other =>
    rw [hkind] at h
    exact absurd h (by decide)

theorem advances_note (event : Value) :
    Advances d k (d.note event) k := advances_quiet rfl rfl rfl rfl rfl rfl

def unmarkedArguments (d : CodexSseDecoder) (event : Value) : Bool :=
  kindOf event = .argumentsDelta && argumentsOf event ≠ "" && !d.hasStarted

theorem pushEvent_advances (h : endsStream event = false) :
    Grows d k (d.pushEvent ctx k event).1 (d.pushEvent ctx k event).2 ∧
      (d.emittedOutput = true ∨ unmarkedArguments d event = false →
        Advances d k (d.pushEvent ctx k event).1 (d.pushEvent ctx k event).2) := by
  have hnote := advances_note d k event
  unfold CodexSseDecoder.pushEvent unmarkedArguments
  unfold endsStream at h
  unfold kindOf at h ⊢
  dsimp only
  cases hkind : EventKind.of (eventType event) with
  | textDelta =>
    have hadvance := hnote.trans (advances_textDelta _ k event)
    exact ⟨hadvance.toGrows,fun _ => hadvance⟩
  | itemAdded =>
    have hadvance := hnote.trans (advances_itemAdded _ k event)
    exact ⟨hadvance.toGrows,fun _ => hadvance⟩
  | itemDone =>
    have hadvance := hnote.trans (advances_itemDone ctx _ k event)
    exact ⟨hadvance.toGrows,fun _ => hadvance⟩
  | other => exact ⟨hnote.toGrows,fun _ => hnote⟩
  | argumentsDelta =>
    by_cases hempty : argumentsOf event = ""
    · have hsame : (d.note event).argumentsDelta k event = (d.note event,k) := if_pos hempty
      dsimp only
      rw [hsame]
      exact ⟨hnote.toGrows,fun _ => hnote⟩
    · obtain ⟨hgrows,hshown,hany⟩ := argumentsDelta_spec (d.note event) k hempty
      have hall := hnote.toGrows.trans hgrows
      refine ⟨hall,fun hmarked => ⟨hall,fun _ => .inr ?_⟩⟩
      dsimp only
      rw [hany,emittedAnyOutput_iff]
      rcases hmarked with hemitted | hstarted
      · exact .inl hemitted
      · simp only [decide_true,Bool.true_and,hempty,ne_eq,not_false_eq_true,
          Bool.not_eq_false'] at hstarted
        exact .inr (.inr hstarted)
  | completed | failed | incomplete =>
    rw [hkind] at h
    exact absurd h (by decide)

theorem pushEvent_unmarked (h : unmarkedArguments d event = true) :
    (d.pushEvent ctx k event).2.shown = true ∧
      (d.pushEvent ctx k event).1.emittedAnyOutput = d.emittedAnyOutput := by
  simp only [unmarkedArguments,Bool.and_eq_true,decide_eq_true_eq] at h
  have hkind : EventKind.of (eventType event) = .argumentsDelta := h.1.1
  unfold CodexSseDecoder.pushEvent
  dsimp only
  rw [hkind]
  exact (argumentsDelta_spec (d.note event) k h.1.2).2

end

open Runs

structure Stream where
  decoder : CodexSseDecoder
  sink : Sink
  failureSeen : Bool
  completionSeen : Bool
  deriving DecidableEq

def Stream.start (label : String) (backfillMessageText : Bool) : Stream :=
  ⟨.forProvider label backfillMessageText,⟨"",[]⟩,false,false⟩

def Stream.Init (s : Stream) : Prop := ∃ label backfill,s = .start label backfill

def seesCompletion (ctx : Ctx) (d : CodexSseDecoder) (line : List Char) : Bool :=
  readLine line = .done || (delivered ctx d line).any fun event => kindOf event = .completed

def Stream.push (ctx : Ctx) (s : Stream) (line : List Char) : Stream where
  decoder := (s.decoder.pushLine ctx s.sink line).1
  sink := (s.decoder.pushLine ctx s.sink line).2
  failureSeen := s.failureSeen || (delivered ctx s.decoder line).any reportsFailure
  completionSeen := s.completionSeen || seesCompletion ctx s.decoder line

def Push (ctx : Ctx) (s : Stream) (line : List Char) (t : Stream) : Prop := t = s.push ctx line

def CodexSseDecoder.keepsEnd (d : CodexSseDecoder) : Bool :=
  !d.hasStarted || d.activeTools.any (·.callable)

def CodexSseDecoder.keepsEvent (d : CodexSseDecoder) (event : Value) : Bool :=
  if endsStream event then d.keepsEnd else !unmarkedArguments d event

def CodexSseDecoder.keepsLine (ctx : Ctx) (d : CodexSseDecoder) (line : List Char) : Bool :=
  match delivered ctx d line with
  | some event => d.keepsEvent event
  | none => readLine line ≠ .done || d.keepsEnd

/-- Output was emitted already, or the line neither carries arguments while nothing has started
    nor ends the stream with a tool that has started and none that can be called. -/
def Stream.Keeps (ctx : Ctx) (s : Stream) (line : List Char) : Prop :=
  s.decoder.emittedOutput = true ∨ s.decoder.keepsLine ctx line = true

structure Stream.Inv (s : Stream) : Prop where
  agrees : s.decoder.Agrees s.sink
  started : s.decoder.hasStarted = true → s.sink.shown = true
  failure : s.failureSeen = true → s.decoder.terminalFailure.isSome = true
  success : s.decoder.terminalSuccess = true → s.completionSeen = true

theorem inv_init (s : Stream) (h : s.Init) : s.Inv := by
  obtain ⟨label,backfill,rfl⟩ := h
  refine ⟨⟨rfl,?_,.nil,.nil,?_,?_,?_⟩,?_,?_,?_⟩
  · intro call hcall
    cases hcall
  · intro id hid
    cases hid
  · intro h
    cases h
  · intro h
    exact absurd rfl h
  all_goals
    intro h
    cases h

variable {ctx : Ctx} {s : Stream}

theorem agrees_push (h : s.Inv) (line : List Char) :
    (s.push ctx line).decoder.Agrees (s.push ctx line).sink := by
  simp only [Stream.push]
  rcases pushLine_cases ctx s.decoder s.sink line with
    ⟨event,-,-,hpush⟩ | ⟨-,-,hpush⟩ | ⟨-,-,buffer,hpush⟩ <;> rw [hpush]
  · exact @agrees_pushEvent s.sink { s.decoder with buffer := [] } h.agrees ctx event
  · exact @agrees_finish s.sink { s.decoder with terminalSuccess := true } h.agrees
  · exact h.agrees

structure EndsWith (ctx : Ctx) (s : Stream) (line : List Char) (e : CodexSseDecoder) : Prop where
  decoder : (s.push ctx line).decoder = e.finish
  ending : Ending s.decoder e
  shown : (s.push ctx line).sink.shown = s.sink.shown
  keeps : s.decoder.keepsLine ctx line = s.decoder.keepsEnd
  verdict : (seesCompletion ctx s.decoder line = true ∧
      e.terminalFailure = s.decoder.terminalFailure ∧
      (s.push ctx line).failureSeen = s.failureSeen) ∨
    (e.terminalSuccess = s.decoder.terminalSuccess ∧ e.terminalFailure.isSome = true)

structure GoesOn (ctx : Ctx) (s : Stream) (line : List Char) : Prop where
  grows : Grows s.decoder s.sink (s.push ctx line).decoder (s.push ctx line).sink
  failureSeen : (s.push ctx line).failureSeen = s.failureSeen
  advances : s.Keeps ctx line →
    Advances s.decoder s.sink (s.push ctx line).decoder (s.push ctx line).sink
  loses : ¬ s.Keeps ctx line → (s.push ctx line).sink.shown = true ∧
    s.decoder.hasStarted = false ∧
    (s.push ctx line).decoder.emittedAnyOutput = s.decoder.emittedAnyOutput

variable {line : List Char}

section

variable {event : Value} (hdelivered : delivered ctx s.decoder line = some event)
  (hpush : s.decoder.pushLine ctx s.sink line =
    { s.decoder with buffer := [] }.pushEvent ctx s.sink event)

include hdelivered hpush

theorem endsWith_event (hends : endsStream event = true) : ∃ e,EndsWith ctx s line e := by
  obtain ⟨e,hfinish,hending,hshown,hverdict⟩ :=
    pushEvent_ends ctx { s.decoder with buffer := [] } s.sink hends
  refine ⟨e,?_,⟨hending.active,hending.completed,hending.emitted⟩,?_,?_,?_⟩
  · simp only [Stream.push,hpush,hfinish]
  · simp only [Stream.push,hpush,hshown]
  · simp only [CodexSseDecoder.keepsLine,hdelivered,CodexSseDecoder.keepsEvent,hends,if_true]
  · rcases hverdict with ⟨hkind,-,hfailure⟩ | ⟨-,hsuccess,hfailure⟩
    · refine .inl ⟨?_,hfailure,?_⟩
      · simp [seesCompletion,hdelivered,hkind]
      · simp [Stream.push,hdelivered,reportsFailure,hkind]
    · exact .inr ⟨hsuccess,hfailure⟩

theorem goesOn_event (hends : endsStream event = false) : GoesOn ctx s line := by
  have hbuffer : Advances s.decoder s.sink { s.decoder with buffer := [] } s.sink :=
    advances_quiet rfl rfl rfl rfl rfl rfl
  obtain ⟨hgrows,hadvances⟩ := pushEvent_advances ctx { s.decoder with buffer := [] } s.sink hends
  have hkeeps : s.Keeps ctx line ↔
      s.decoder.emittedOutput = true ∨ unmarkedArguments s.decoder event = false := by
    simp [Stream.Keeps,CodexSseDecoder.keepsLine,hdelivered,CodexSseDecoder.keepsEvent,hends]
  refine ⟨?_,?_,?_,?_⟩
  · simp only [Stream.push,hpush]
    exact hbuffer.toGrows.trans hgrows
  · have hfails : reportsFailure event = false := by
      simp only [endsStream,Bool.or_eq_false_iff] at hends
      simp only [reportsFailure,hends.1.2,hends.2,Bool.or_self]
    simp [Stream.push,hdelivered,hfails]
  · intro hk
    simp only [Stream.push,hpush]
    exact hbuffer.trans (hadvances (hkeeps.mp hk))
  · intro hk
    rw [hkeeps,not_or,Bool.not_eq_false] at hk
    obtain ⟨hshown,hany⟩ := pushEvent_unmarked ctx { s.decoder with buffer := [] } s.sink hk.2
    simp only [Stream.push,hpush]
    refine ⟨hshown,?_,hany⟩
    have hunmarked := hk.2
    simp only [unmarkedArguments,Bool.and_eq_true,Bool.not_eq_true'] at hunmarked
    exact hunmarked.2

end

theorem push_cases (ctx : Ctx) (s : Stream) (line : List Char) :
    (∃ e,EndsWith ctx s line e) ∨ GoesOn ctx s line := by
  rcases pushLine_cases ctx s.decoder s.sink line with
    ⟨event,hdelivered,-,hpush⟩ | ⟨hdelivered,hdone,hpush⟩ | ⟨hdelivered,hdone,buffer,hpush⟩
  · cases hends : endsStream event with
    | true => exact .inl (endsWith_event hdelivered hpush hends)
    | false => exact .inr (goesOn_event hdelivered hpush hends)
  · refine .inl ⟨{ s.decoder with terminalSuccess := true },?_,⟨rfl,rfl,rfl⟩,?_,?_,
      .inl ⟨?_,rfl,?_⟩⟩
    · simp only [Stream.push,hpush]
    · simp only [Stream.push,hpush]
    · simp [CodexSseDecoder.keepsLine,hdelivered,hdone]
    · simp [seesCompletion,hdone]
    · simp [Stream.push,hdelivered]
  · have hquiet : Advances s.decoder s.sink { s.decoder with buffer := buffer } s.sink :=
      advances_quiet rfl rfl rfl rfl rfl rfl
    refine .inr ⟨?_,?_,?_,?_⟩
    · simp only [Stream.push,hpush]
      exact hquiet.toGrows
    · simp [Stream.push,hdelivered]
    · intro _
      simp only [Stream.push,hpush]
      exact hquiet
    · intro hk
      exact absurd (.inr (by simp [CodexSseDecoder.keepsLine,hdelivered,hdone])) hk

theorem inv_push (h : s.Inv) (line : List Char) : (s.push ctx line).Inv := by
  have hseen : s.completionSeen = true → (s.push ctx line).completionSeen = true := by
    intro hs
    simp [Stream.push,hs]
  rcases push_cases ctx s line with ⟨e,hend⟩ | hgo
  · refine ⟨agrees_push h line,?_,?_,?_⟩
    · rw [hend.decoder]
      intro hs
      simp [CodexSseDecoder.hasStarted] at hs
    · rw [hend.decoder,finish_terminalFailure]
      intro hs
      rcases hend.verdict with ⟨-,hfailure,hsame⟩ | ⟨-,hfailure⟩
      · rw [hfailure]
        exact h.failure (hsame.symm.trans hs)
      · exact hfailure
    · rw [hend.decoder,finish_terminalSuccess]
      intro hs
      rcases hend.verdict with ⟨hcompletion,-,-⟩ | ⟨hsuccess,-⟩
      · simp [Stream.push,hcompletion]
      · exact hseen (h.success (hsuccess.symm.trans hs))
  · refine ⟨agrees_push h line,?_,?_,?_⟩
    · intro hs
      exact (hgo.grows.started hs).elim (fun ht => hgo.grows.shown (h.started ht)) id
    · rw [hgo.failureSeen,hgo.grows.failure]
      exact h.failure
    · rw [hgo.grows.success]
      exact fun hs => hseen (h.success hs)

theorem inv_reachable (h : Reachable Stream.Init (Next (Push ctx)) s) : s.Inv :=
  h.invariant Stream.Inv inv_init fun a b ha hab => by
    obtain ⟨line,rfl⟩ := hab
    exact inv_push ha line

theorem EndsWith.emittedAnyOutput {e : CodexSseDecoder} (hend : EndsWith ctx s line e) (h : s.Inv) :
    (s.push ctx line).decoder.emittedAnyOutput
      = (s.decoder.emittedOutput || s.decoder.activeTools.any (·.callable)) := by
  have hagrees : e.Agrees s.sink := by
    unfold CodexSseDecoder.Agrees
    rw [hend.ending.completed,hend.ending.emitted]
    exact h.agrees
  rw [hend.decoder,finish_emittedAnyOutput hagrees,hend.ending.emitted,hend.ending.active]

/-- What was shown is marked, for the retry that must not repeat it. -/
def Stream.Marked (s : Stream) : Prop :=
  s.sink.shown = true → s.decoder.emittedAnyOutput = true

theorem marked_push (h : s.Inv) (hmarked : s.Marked) (hk : s.Keeps ctx line) :
    (s.push ctx line).Marked := by
  intro hshown
  rcases push_cases ctx s line with ⟨e,hend⟩ | hgo
  · rw [hend.emittedAnyOutput h,Bool.or_eq_true]
    rw [hend.shown] at hshown
    rw [Stream.Keeps,hend.keeps,CodexSseDecoder.keepsEnd,Bool.or_eq_true] at hk
    -- the mark before the end was the flag, or a tool that had started
    rcases (emittedAnyOutput_iff s.decoder).mp (hmarked hshown) with he | hc | hs
    · exact .inl he
    · exact .inl (h.agrees.marked hc)
    rcases hk with he | hnone | hcall
    · exact .inl he
    · rw [hs] at hnone
      cases hnone
    · exact .inr hcall
  · have hadvances := hgo.advances hk
    exact (hadvances.mark hshown).elim (fun hs => hadvances.keep (hmarked hs)) id

theorem lost_push (h : s.Inv) (hk : ¬ s.Keeps ctx line) : ¬ (s.push ctx line).Marked := by
  have hemitted : s.decoder.emittedOutput = false := Bool.eq_false_iff.mpr fun he => hk (.inl he)
  have hcompleted : s.decoder.completedTools = [] := by
    by_contra hc
    rw [h.agrees.marked hc] at hemitted
    cases hemitted
  intro hmarked
  rcases push_cases ctx s line with ⟨e,hend⟩ | hgo
  · rw [Stream.Keeps,hend.keeps,CodexSseDecoder.keepsEnd,not_or,Bool.or_eq_true,not_or,
      Bool.not_eq_true',Bool.not_eq_false] at hk
    have hany := hmarked (hend.shown.trans (h.started hk.2.1))
    rw [hend.emittedAnyOutput h,hemitted,Bool.false_or] at hany
    exact hk.2.2 hany
  · obtain ⟨hshown,hstarted,hsame⟩ := hgo.loses hk
    have hany := hmarked hshown
    rw [hsame,emittedAnyOutput_iff,hemitted,hcompleted,hstarted] at hany
    simp at hany

theorem terminalResult_failed (h : s.Inv) (hseen : s.failureSeen = true) :
    ∃ failure,s.decoder.terminalResult = .error failure := by
  obtain ⟨failure,hfailure⟩ := Option.isSome_iff_exists.mp (h.failure hseen)
  refine ⟨failure,?_⟩
  unfold CodexSseDecoder.terminalResult
  rw [hfailure]

theorem terminalResult_ok (h : s.Inv) (hok : s.decoder.terminalResult = .ok ()) :
    s.completionSeen = true ∧ (s.sink.text ≠ "" ∨ s.decoder.completedTools ≠ []) := by
  unfold CodexSseDecoder.terminalResult at hok
  split at hok
  · cases hok
  split at hok
  · rename_i hsuccess
    split at hok
    · rename_i houtput
      refine ⟨h.success hsuccess,?_⟩
      rw [Bool.or_eq_true] at houtput
      rcases houtput with hemitted | hcompleted
      · exact h.agrees.produced hemitted
      · exact .inr (by simpa using hcompleted)
    · cases hok
  · cases hok

/-- In every state of every run the text is what was sent, the completed calls have distinct
    ids that are not empty and each was announced at most once, a failure that was seen stays
    the result, and success needs a completion and some output. What was shown is marked in
    every run whose lines keep the marks, and a line that does not loses them. -/
theorem codex_decoder_agrees (ctx : Ctx) : (∀ s,Reachable Stream.Init (Next (Push ctx)) s →
      s.sink.text = concat (texts s.sink.sent) ∧
      ((∀ call ∈ s.decoder.completedTools,call.id ≠ "") ∧
        (ids s.decoder.completedTools).Nodup ∧ (uses s.sink.sent).Nodup) ∧
      (s.failureSeen = true → ∃ failure,s.decoder.terminalResult = .error failure) ∧
      (s.decoder.terminalResult = .ok () →
        s.completionSeen = true ∧ (s.sink.text ≠ "" ∨ s.decoder.completedTools ≠ []))) ∧
    (∀ s,Reachable Stream.Init (Under (Push ctx) (Stream.Keeps ctx)) s →
      s.Marked ∧ ∀ line,¬ s.Keeps ctx line → ¬ (s.push ctx line).Marked) := by
  refine ⟨fun s h => ?_,fun s h => ?_⟩
  · have hinv := inv_reachable h
    exact ⟨hinv.agrees.text,⟨hinv.agrees.named,hinv.agrees.distinct,hinv.agrees.usedOnce⟩,
      terminalResult_failed hinv,terminalResult_ok hinv⟩
  · have hboth : s.Inv ∧ s.Marked := by
      refine h.invariant (fun s => s.Inv ∧ s.Marked) ?_ ?_
      · intro a ha
        refine ⟨inv_init a ha,?_⟩
        obtain ⟨label,backfill,rfl⟩ := ha
        intro hshown
        cases hshown
      · rintro a b ⟨hinv,hmarked⟩ ⟨line,hk,rfl⟩
        exact ⟨inv_push hinv line,marked_push hinv hmarked hk⟩
    exact ⟨hboth.2,fun line hk => lost_push hboth.1 hk⟩

def addedText : String :=
  "\x7b\"type\":\"response.output_item.added\",\"item\":\x7b\"type\":\"function_call\",\"name\":\"bash\"\x7d\x7d"

def errorText : String := "\x7b\"type\":\"error\"\x7d"

def addedEvent : Value :=
  .object [("item",.object [("name",.string "bash"),("type",.string "function_call")]),
    ("type",.string "response.output_item.added")]

def errorEvent : Value := .object [("type",.string "error")]

def callCtx : Ctx where
  fromStr := fun text =>
    if text = addedText then .ok addedEvent
    else if text = errorText then .ok errorEvent
    else .error "expected value"
  webSearchNotice := fun label _ => label

def dataLine (text : String) : List Char := "data: ".toList ++ text.toList

def pushAll (ctx : Ctx) (s : Stream) (lines : List (List Char)) : Stream :=
  lines.foldl (·.push ctx) s

theorem reachable_pushAll {C : Stream → List Char → Prop} (lines : List (List Char))
    (h : Reachable Stream.Init (Under (Push ctx) C) s)
    (hkeeps : ∀ n,n < lines.length → C (pushAll ctx s (lines.take n)) (lines.getD n [])) :
    Reachable Stream.Init (Under (Push ctx) C) (pushAll ctx s lines) := by
  induction lines generalizing s with
  | nil => exact h
  | cons line lines ih =>
    refine ih (h.step ⟨line,hkeeps 0 (Nat.succ_pos _),rfl⟩) fun n hn => ?_
    exact hkeeps (n+1) (Nat.succ_lt_succ hn)

def unnamedCall : List (List Char) := [dataLine addedText,[],dataLine errorText,[]]

theorem unnamedCall_unmarked :
    (pushAll callCtx (.start "Codex" false) unnamedCall).sink.sent = [.toolUseStart "bash" ""] ∧
      ¬ (pushAll callCtx (.start "Codex" false) unnamedCall).Marked := by
  have hsent : (pushAll callCtx (.start "Codex" false) unnamedCall).sink.sent
      = [.toolUseStart "bash" ""] := by decide +kernel
  have hany : (pushAll callCtx (.start "Codex" false) unnamedCall).decoder.emittedAnyOutput
      = false := by decide +kernel
  refine ⟨hsent,fun hmarked => ?_⟩
  have hshown : (pushAll callCtx (.start "Codex" false) unnamedCall).sink.shown = true := by
    rw [Sink.shown,hsent]
    rfl
  rw [hmarked hshown] at hany
  cases hany

/-- Up to the error the marks are kept, and the error loses them. -/
theorem codex_decoder_agrees_unnamedCall :
    (pushAll callCtx (.start "Codex" false) (unnamedCall.take 3)).Marked ∧
      ¬ ((pushAll callCtx (.start "Codex" false) (unnamedCall.take 3)).push callCtx []).Marked := by
  have hkept := (codex_decoder_agrees callCtx).2
    (pushAll callCtx (.start "Codex" false) (unnamedCall.take 3))
    (reachable_pushAll _ (.init ⟨"Codex",false,rfl⟩) (by
      intro n hn
      refine .inr ?_
      have hcases : n = 0 ∨ n = 1 ∨ n = 2 := by
        have hlength : (unnamedCall.take 3).length = 3 := rfl
        omega
      rcases hcases with rfl | rfl | rfl <;> decide +kernel))
  refine ⟨hkept.1,hkept.2 [] fun hk => ?_⟩
  rcases hk with hemitted | hkeeps
  · exact absurd hemitted (by decide +kernel)
  · exact absurd hkeeps (by decide +kernel)

end Synaps.Codex
