import Mathlib.Data.List.Sort
import Mathlib.Data.String.Basic
import Mathlib.Data.List.Perm.Basic
import Mathlib.Data.List.Induction

/-!
The decoder of Chat Completions streams: chunks go in, events come out. The calls that are handed
over are made of the pieces the decoder takes; it does not take a call that arrives whole with the
finish reason, nor a piece that arrives after the calls were handed over, and it keeps apart the
calls of different indices only.
-/

set_option autoImplicit false

namespace Synaps.Chat

structure RawFunctionDelta where
  name : Option String
  arguments : Option String
  deriving DecidableEq

structure RawToolCallDelta where
  index : Option Nat
  id : Option String
  function : Option RawFunctionDelta
  deriving DecidableEq

structure RawDelta where
  role : Option String
  content : Option String
  toolCalls : Option (List RawToolCallDelta)
  deriving DecidableEq

structure RawChoice where
  delta : Option RawDelta
  finishReason : Option String
  deriving DecidableEq

structure RawUsage where
  promptTokens : Option Nat
  completionTokens : Option Nat
  cachedTokens : Option Nat
  deriving DecidableEq

structure RawChunk where
  choices : List RawChoice
  usage : Option RawUsage
  deriving DecidableEq

structure ToolCall where
  id : String
  name : String
  arguments : String
  deriving DecidableEq

inductive OaiEvent where
  | roleStart (role : String)
  | textDelta (text : String)
  | toolCallStart (index : Nat) (id name : String)
  | toolCallArgumentsDelta (index : Nat) (id delta : String)
  | toolCallsComplete (calls : List ToolCall) (truncated : Bool)
  | usage (promptTokens completionTokens cachedTokens : Nat)
  | warning (text : String)
  | done
  deriving DecidableEq

structure ToolCallAccumulator where
  id : String
  name : String
  arguments : String
  started : Bool
  deriving DecidableEq

def ToolCallAccumulator.default : ToolCallAccumulator := ⟨"","","",false⟩

/-- The calls are a map from indices; the order of its entries means nothing. -/
structure StreamDecoder where
  calls : List (Nat × ToolCallAccumulator)
  truncated : Bool
  completed : Bool
  finishReason : Option String
  roleEmitted : Bool
  doneEmitted : Bool
  deriving DecidableEq

def StreamDecoder.new : StreamDecoder := ⟨[],false,false,none,false,false⟩

def setCall (idx : Nat) (acc : ToolCallAccumulator) (calls : List (Nat × ToolCallAccumulator)) :
    List (Nat × ToolCallAccumulator) :=
  (idx,acc) :: calls.filter fun e => e.1 ≠ idx

def ToolCallAccumulator.start (acc : ToolCallAccumulator) (idx : Nat) :
    ToolCallAccumulator × List OaiEvent :=
  if !acc.started && acc.id ≠ "" && acc.name ≠ "" then
    ({ acc with started := true },[.toolCallStart idx acc.id acc.name])
  else (acc,[])

def ToolCallAccumulator.setId (acc : ToolCallAccumulator) : Option String → ToolCallAccumulator
  | some id => if id ≠ "" then { acc with id := id } else acc
  | none => acc

def ToolCallAccumulator.setName (acc : ToolCallAccumulator) : Option String → ToolCallAccumulator
  | some name => if name ≠ "" then { acc with name := name } else acc
  | none => acc

def ToolCallAccumulator.append (acc : ToolCallAccumulator) (idx : Nat) :
    Option String → ToolCallAccumulator × List OaiEvent
  | some args =>
    if args ≠ "" then
      ({ acc with arguments := acc.arguments ++ args },[.toolCallArgumentsDelta idx acc.id args])
    else (acc,[])
  | none => (acc,[])

def StreamDecoder.applyToolCallDelta (d : StreamDecoder) (tc : RawToolCallDelta) :
    StreamDecoder × List OaiEvent :=
  let idx := tc.index.getD 0
  let acc := ((d.calls.lookup idx).getD .default).setId tc.id
  match tc.function with
  | some f =>
    let (acc,started) := (acc.setName f.name).start idx
    let (acc,appended) := acc.append idx f.arguments
    ({ d with calls := setCall idx acc d.calls },started ++ appended)
  | none =>
    let (acc,started) := acc.start idx
    ({ d with calls := setCall idx acc d.calls },started)

def ToolCallAccumulator.toCall (acc : ToolCallAccumulator) : ToolCall :=
  ⟨acc.id,acc.name,acc.arguments⟩

def StreamDecoder.flushComplete (d : StreamDecoder) : StreamDecoder × List OaiEvent :=
  if d.completed || d.calls.isEmpty then (d,[])
  else
    let entries := d.calls.insertionSort fun a b => a.1 ≤ b.1
    ({ d with completed := true, calls := [] },
      [.toolCallsComplete (entries.map fun e => e.2.toCall) d.truncated])

/-- A call with an id in the chunk that finishes is taken for one that is sent again. -/
def isResend (isFinish : Bool) (tc : RawToolCallDelta) : Bool :=
  isFinish && (match tc.id with | some id => id ≠ "" | none => false)

def StreamDecoder.applyToolCalls (isFinish : Bool) :
    StreamDecoder → List RawToolCallDelta → StreamDecoder × List OaiEvent
  | d,[] => (d,[])
  | d,tc :: tcs =>
    if isResend isFinish tc then applyToolCalls isFinish d tcs
    else
      let (d,events) := d.applyToolCallDelta tc
      let (d,rest) := applyToolCalls isFinish d tcs
      (d,events ++ rest)

def StreamDecoder.startRole (d : StreamDecoder) : Option String → StreamDecoder × List OaiEvent
  | some role =>
    if d.roleEmitted then (d,[]) else ({ d with roleEmitted := true },[.roleStart role])
  | none => (d,[])

def textEvents : Option String → List OaiEvent
  | some text => if text ≠ "" then [.textDelta text] else []
  | none => []

def StreamDecoder.applyDelta (d : StreamDecoder) (isFinish : Bool) :
    Option RawDelta → StreamDecoder × List OaiEvent
  | some delta =>
    let (d,role) := d.startRole delta.role
    let (d,calls) := d.applyToolCalls isFinish (delta.toolCalls.getD [])
    (d,role ++ textEvents delta.content ++ calls)
  | none => (d,[])

def StreamDecoder.applyFinish (d : StreamDecoder) : Option String → StreamDecoder × List OaiEvent
  | some reason =>
    let d := { d with finishReason := d.finishReason.or (some reason) }
    if reason = "tool_calls" then d.flushComplete
    else if reason = "length" then
      if d.calls.isEmpty then (d,[])
      else { d with truncated := true }.flushComplete
    else if reason = "stop" || reason = "content_filter" then (d,[])
    else (d,[.warning "unknown finish_reason (value not logged)"])
  | none => (d,[])

def StreamDecoder.pushChoice (d : StreamDecoder) (choice : RawChoice) :
    StreamDecoder × List OaiEvent :=
  let (d,events) := d.applyDelta choice.finishReason.isSome choice.delta
  let (d,finished) := d.applyFinish choice.finishReason
  (d,events ++ finished)

def StreamDecoder.pushChoices : StreamDecoder → List RawChoice → StreamDecoder × List OaiEvent
  | d,[] => (d,[])
  | d,choice :: choices =>
    let (d,events) := d.pushChoice choice
    let (d,rest) := pushChoices d choices
    (d,events ++ rest)

def usageEvents : Option RawUsage → List OaiEvent
  | some u =>
    [.usage (u.promptTokens.getD 0) (u.completionTokens.getD 0) (u.cachedTokens.getD 0)]
  | none => []

def StreamDecoder.pushChunk (d : StreamDecoder) (chunk : RawChunk) :
    StreamDecoder × List OaiEvent :=
  let (d,events) := d.pushChoices chunk.choices
  (d,events ++ usageEvents chunk.usage)

def StreamDecoder.finish (d : StreamDecoder) : StreamDecoder × List OaiEvent :=
  let (d,events) := d.flushComplete
  if d.doneEmitted then (d,events) else ({ d with doneEmitted := true },events ++ [.done])

def StreamDecoder.pushChunks : StreamDecoder → List RawChunk → StreamDecoder × List OaiEvent
  | d,[] => (d,[])
  | d,chunk :: chunks =>
    let (d,events) := d.pushChunk chunk
    let (d,rest) := pushChunks d chunks
    (d,events ++ rest)

def decode (chunks : List RawChunk) : List OaiEvent :=
  let (d,events) := StreamDecoder.new.pushChunks chunks
  events ++ d.finish.2

open List

def concat (texts : List String) : String := texts.foldl (· ++ ·) ""

theorem foldl_append (init : String) (l : List String) :
    l.foldl (· ++ ·) init = init ++ concat l := by
  unfold concat
  induction l generalizing init with
  | nil => simp
  | cons s l ih =>
    rw [foldl_cons,foldl_cons,ih,ih ("" ++ s),String.empty_append,String.append_assoc]

@[simp] theorem concat_append (l l' : List String) : concat (l ++ l') = concat l ++ concat l' := by
  rw [concat,List.foldl_append,foldl_append]
  rfl

@[simp] theorem concat_singleton (s : String) : concat [s] = s := String.empty_append

def texts (events : List OaiEvent) : List String :=
  events.filterMap fun | .textDelta text => some text | _ => none

def completes (events : List OaiEvent) : List (List ToolCall) :=
  events.filterMap fun | .toolCallsComplete calls _ => some calls | _ => none

def dones (events : List OaiEvent) : Nat := events.count .done

section

variable (a b : List OaiEvent)

@[simp] theorem texts_append : texts (a ++ b) = texts a ++ texts b :=
  filterMap_append

@[simp] theorem completes_append :
    completes (a ++ b) = completes a ++ completes b := filterMap_append

@[simp] theorem dones_append : dones (a ++ b) = dones a + dones b :=
  count_append

end

structure Quiet (events : List OaiEvent) : Prop where
  texts : texts events = []
  completes : completes events = []
  dones : dones events = 0

theorem Quiet.nil : Quiet [] := ⟨rfl,rfl,rfl⟩

theorem Quiet.append {a b : List OaiEvent} (ha : Quiet a) (hb : Quiet b) : Quiet (a ++ b) :=
  ⟨by simp [ha.texts,hb.texts],by simp [ha.completes,hb.completes],by simp [ha.dones,hb.dones]⟩

section

variable (acc : ToolCallAccumulator)

theorem quiet_start (idx : Nat) : Quiet (acc.start idx).2 := by
  unfold ToolCallAccumulator.start
  split
  · exact ⟨rfl,rfl,rfl⟩
  · exact .nil

theorem quiet_appendArgs (idx : Nat) (args : Option String) : Quiet (acc.append idx args).2 := by
  unfold ToolCallAccumulator.append
  split
  · split
    · exact ⟨rfl,rfl,rfl⟩
    · exact .nil
  · exact .nil

structure Piece where
  finish : Bool
  index : Nat
  id : String
  args : String
  deriving DecidableEq

def Piece.of (finish : Bool) (tc : RawToolCallDelta) : Piece :=
  ⟨finish,tc.index.getD 0,tc.id.getD "",(tc.function.bind (·.arguments)).getD ""⟩

def Piece.resent (p : Piece) : Bool := p.finish && p.id ≠ ""

inductive Item where
  | piece (p : Piece)
  | finish (reason : String)
  deriving DecidableEq

def choiceItems (choice : RawChoice) : List Item :=
  (((choice.delta.bind (·.toolCalls)).getD []).map fun tc =>
      Item.piece (.of choice.finishReason.isSome tc))
    ++ choice.finishReason.toList.map .finish

def items (chunks : List RawChunk) : List Item := chunks.flatMap (·.choices.flatMap choiceItems)

/-- The pieces of a stream so far, without the repetitions of known calls, each with whether it
    was taken; and whether the calls have been handed over. -/
structure Tracker where
  pieces : List (Piece × Bool)
  flushed : Bool
  deriving DecidableEq

def Tracker.step (t : Tracker) : Item → Tracker
  | .piece p =>
    if p.resent && t.pieces.any (·.1.id == p.id) then t
    else { t with pieces := t.pieces ++ [(p,!p.resent && !t.flushed)] }
  | .finish reason =>
    { t with flushed :=
        t.flushed || (t.pieces.any (·.2) && (reason == "tool_calls" || reason == "length")) }

def track (items : List Item) : Tracker := items.foldl Tracker.step ⟨[],false⟩

def Tracker.taken (t : Tracker) : List Piece := (t.pieces.filter (·.2)).map Prod.fst

def Tracker.sent (t : Tracker) : List Piece := t.pieces.map Prod.fst

def lastId (ps : List Piece) : String := ps.foldl (fun id p => if p.id ≠ "" then p.id else id) ""

def onIndex (i : Nat) (ps : List Piece) : List Piece := ps.filter (·.index == i)

def argsOf (ps : List Piece) : String := concat (ps.map (·.args))

structure Accumulated (calls : List (Nat × ToolCallAccumulator)) (ps : List Piece) : Prop where
  nodup : (calls.map Prod.fst).Nodup
  absent : ∀ i,onIndex i ps = [] → calls.lookup i = none
  present : ∀ i,onIndex i ps ≠ [] → ∃ acc,calls.lookup i = some acc ∧
    acc.id = lastId (onIndex i ps) ∧ acc.arguments = argsOf (onIndex i ps)

theorem setId_id (id : Option String) :
    (acc.setId id).id = if id.getD "" ≠ "" then id.getD "" else acc.id := by
  cases id with
  | none => simp [ToolCallAccumulator.setId]
  | some id =>
    by_cases h : id = "" <;> simp [ToolCallAccumulator.setId,h]

theorem setId_arguments (id : Option String) : (acc.setId id).arguments = acc.arguments := by
  cases id with
  | none => rfl
  | some id =>
    simp only [ToolCallAccumulator.setId]
    split <;> rfl

theorem setName_frame (name : Option String) :
    (acc.setName name).id = acc.id ∧ (acc.setName name).arguments = acc.arguments := by
  cases name with
  | none => exact ⟨rfl,rfl⟩
  | some name =>
    simp only [ToolCallAccumulator.setName]
    split <;> exact ⟨rfl,rfl⟩

theorem start_frame (idx : Nat) :
    (acc.start idx).1.id = acc.id ∧ (acc.start idx).1.arguments = acc.arguments := by
  unfold ToolCallAccumulator.start
  split <;> exact ⟨rfl,rfl⟩

theorem append_frame (idx : Nat) (args : Option String) : (acc.append idx args).1.id = acc.id ∧
      (acc.append idx args).1.arguments = acc.arguments ++ args.getD "" := by
  cases args with
  | none => simp [ToolCallAccumulator.append]
  | some args =>
    by_cases h : args = "" <;> simp [ToolCallAccumulator.append,h]

end

theorem applyToolCallDelta_spec (d : StreamDecoder) (finish : Bool) (tc : RawToolCallDelta) :
    Quiet (d.applyToolCallDelta tc).2 ∧
      ∃ acc,(d.applyToolCallDelta tc).1 = { d with calls := setCall (tc.index.getD 0) acc d.calls } ∧
        let old := (d.calls.lookup (tc.index.getD 0)).getD .default
        let p := Piece.of finish tc
        acc.id = (if p.id ≠ "" then p.id else old.id) ∧ acc.arguments = old.arguments ++ p.args := by
  unfold StreamDecoder.applyToolCallDelta
  cases hf : tc.function with
  | none =>
    refine ⟨quiet_start _ _,_,rfl,?_,?_⟩
    · rw [(start_frame _ _).1,setId_id]
      rfl
    · rw [(start_frame _ _).2,setId_arguments]
      simp [Piece.of,hf]
  | some f =>
    refine ⟨(quiet_start _ _).append (quiet_appendArgs _ _ _),_,rfl,?_,?_⟩
    · rw [(append_frame _ _ _).1,(start_frame _ _).1,(setName_frame _ _).1,setId_id]
      rfl
    · rw [(append_frame _ _ _).2,(start_frame _ _).2,(setName_frame _ _).2,setId_arguments]
      simp [Piece.of,hf]

theorem lookup_setCall (idx i : Nat) (acc : ToolCallAccumulator)
    (calls : List (Nat × ToolCallAccumulator)) :
    (setCall idx acc calls).lookup i = if i = idx then some acc else calls.lookup i := by
  unfold setCall
  by_cases h : i = idx
  · simp [h]
  have hbeq : (i == idx) = false := beq_false_of_ne h
  rw [lookup_cons,hbeq,if_neg h]
  simp only
  induction calls with
  | nil => rfl
  | cons e rest ih =>
    by_cases he : e.1 = idx
    · have hne : (i == e.1) = false := beq_false_of_ne (he ▸ h)
      rw [filter_cons_of_neg (by simp [he]),ih,lookup_cons,hne]
    · rw [filter_cons_of_pos (by simpa using he),lookup_cons,lookup_cons,ih]

variable {calls : List (Nat × ToolCallAccumulator)}

theorem nodup_setCall (h : (calls.map Prod.fst).Nodup) (idx : Nat) (acc : ToolCallAccumulator) :
    ((setCall idx acc calls).map Prod.fst).Nodup := by
  refine nodup_cons.mpr ⟨fun hmem => ?_,h.sublist (filter_sublist.map _)⟩
  obtain ⟨e,he,heq⟩ := mem_map.mp hmem
  have hne := (mem_filter.mp he).2
  simp [heq] at hne

theorem lastId_append (ps : List Piece) (p : Piece) :
    lastId (ps ++ [p]) = if p.id ≠ "" then p.id else lastId ps := by
  simp [lastId]

theorem onIndex_append (i : Nat) (ps : List Piece) (p : Piece) :
    onIndex i (ps ++ [p]) = onIndex i ps ++ if p.index = i then [p] else [] := by
  unfold onIndex
  rw [filter_append]
  by_cases h : p.index = i <;> simp [h]

section

variable {calls : List (Nat × ToolCallAccumulator)} {ps : List Piece} (h : Accumulated calls ps)

include h

theorem Accumulated.read (i : Nat) : ((calls.lookup i).getD .default).id = lastId (onIndex i ps) ∧
      ((calls.lookup i).getD .default).arguments = argsOf (onIndex i ps) := by
  by_cases hnil : onIndex i ps = []
  · rw [h.absent i hnil,hnil]
    exact ⟨rfl,rfl⟩
  · obtain ⟨acc,hlookup,hid,hargs⟩ := h.present i hnil
    rw [hlookup]
    exact ⟨hid,hargs⟩

theorem Accumulated.take {p : Piece} {acc : ToolCallAccumulator}
    (hid : acc.id = if p.id ≠ "" then p.id else ((calls.lookup p.index).getD .default).id)
    (hargs : acc.arguments = ((calls.lookup p.index).getD .default).arguments ++ p.args) :
    Accumulated (setCall p.index acc calls) (ps ++ [p]) := by
  refine ⟨nodup_setCall h.nodup _ _,fun i hi => ?_,fun i hi => ?_⟩
  all_goals rw [onIndex_append] at hi
  · rw [lookup_setCall]
    by_cases hpi : p.index = i
    · simp [hpi] at hi
    · rw [if_neg (Ne.symm hpi)]
      exact h.absent i (by simpa [hpi] using hi)
  · rw [lookup_setCall,onIndex_append]
    by_cases hpi : p.index = i
    · subst hpi
      obtain ⟨hreadId,hreadArgs⟩ := h.read p.index
      refine ⟨acc,if_pos rfl,?_,?_⟩
      · rw [hid,hreadId,if_pos rfl,lastId_append]
      · rw [hargs,hreadArgs,if_pos rfl]
        simp [argsOf]
    · rw [if_neg (Ne.symm hpi),if_neg hpi,append_nil]
      exact h.present i (by simpa [hpi] using hi)

end

def CallsOf (calls : List ToolCall) (ps : List Piece) : Prop :=
  ∃ entries,Accumulated entries ps ∧ calls.Perm (entries.map fun e => e.2.toCall)

structure Inv (t : Tracker) (d : StreamDecoder) (events : List OaiEvent) : Prop where
  completed : d.completed = t.flushed
  notDone : d.doneEmitted = false
  unfinished : dones events = 0
  collecting : t.flushed = false → Accumulated d.calls t.taken ∧ completes events = []
  handedOver : t.flushed = true → t.taken ≠ [] ∧
    ∃ calls,completes events = [calls] ∧ CallsOf calls t.taken

theorem inv_new : Inv ⟨[],false⟩ .new [] where
  completed := rfl
  notDone := rfl
  unfinished := rfl
  collecting _ := ⟨⟨nodup_nil,fun _ _ => rfl,fun _ h => absurd rfl h⟩,rfl⟩
  handedOver h := by cases h

variable {d : StreamDecoder} {events : List OaiEvent} {t : Tracker}

theorem Inv.quiet {more : List OaiEvent} (h : Inv t d events) (hmore : dones more = 0)
    (hcompletes : completes more = []) :
    Inv t d (events ++ more) where
  completed := h.completed
  notDone := h.notDone
  unfinished := by rw [dones_append,h.unfinished,hmore]
  collecting hopen := by
    rw [completes_append,hcompletes,append_nil]
    exact h.collecting hopen
  handedOver hflushed := by
    rw [completes_append,hcompletes,append_nil]
    exact h.handedOver hflushed

theorem Inv.frame {d' : StreamDecoder} (h : Inv t d events) (hcalls : d'.calls = d.calls)
    (hcompleted : d'.completed = d.completed) (hdone : d'.doneEmitted = d.doneEmitted) :
    Inv t d' events where
  completed := hcompleted.trans h.completed
  notDone := hdone.trans h.notDone
  unfinished := h.unfinished
  collecting hopen := hcalls ▸ h.collecting hopen
  handedOver := h.handedOver

theorem resent_of (finish : Bool) (tc : RawToolCallDelta) :
    (Piece.of finish tc).resent = isResend finish tc := by
  cases htc : tc.id <;> simp [Piece.resent,Piece.of,isResend,htc]

theorem Tracker.taken_step {p : Piece}
    (hnew : (p.resent && t.pieces.any (·.1.id == p.id)) = false) :
    (t.step (.piece p)).taken = t.taken ++ if !p.resent && !t.flushed then [p] else [] := by
  simp only [Tracker.step,hnew,Tracker.taken]
  cases !p.resent && !t.flushed <;> simp

theorem Tracker.taken_resent {p : Piece} (h : p.resent = true) :
    (t.step (.piece p)).taken = t.taken ∧ (t.step (.piece p)).flushed = t.flushed := by
  cases hknown : t.pieces.any (·.1.id == p.id) with
  | true => simp [Tracker.step,h,hknown]
  | false => simp [Tracker.step,h,hknown,Tracker.taken]

section

variable {t : Tracker} {d : StreamDecoder} {events : List OaiEvent} (h : Inv t d events)

include h

theorem inv_resend {p : Piece} (hp : p.resent = true) : Inv (t.step (.piece p)) d events := by
  obtain ⟨htaken,hflushed⟩ := @Tracker.taken_resent t p hp
  exact ⟨hflushed ▸ h.completed,h.notDone,h.unfinished,by rw [hflushed,htaken]; exact h.collecting,
    by rw [hflushed,htaken]; exact h.handedOver⟩

theorem inv_applyToolCallDelta {finish : Bool} {tc : RawToolCallDelta}
    (hp : (Piece.of finish tc).resent = false) :
    Inv (t.step (.piece (.of finish tc))) (d.applyToolCallDelta tc).1
      (events ++ (d.applyToolCallDelta tc).2) := by
  obtain ⟨hquiet,acc,hd,hid,hargs⟩ := applyToolCallDelta_spec d finish tc
  have htaken := @Tracker.taken_step t (.of finish tc) (by simp [hp])
  have hflushed : (t.step (.piece (.of finish tc))).flushed = t.flushed := by
    simp [Tracker.step,hp]
  simp only [hp,Bool.not_false,Bool.true_and] at htaken
  refine Inv.quiet ?_ hquiet.dones hquiet.completes
  rw [hd]
  refine ⟨hflushed ▸ h.completed,h.notDone,h.unfinished,?_,?_⟩
  · intro hopen
    rw [hflushed] at hopen
    rw [htaken,hopen]
    exact ⟨(h.collecting hopen).1.take hid hargs,(h.collecting hopen).2⟩
  · intro hclosed
    rw [hflushed] at hclosed
    rw [htaken,hclosed]
    simpa using h.handedOver hclosed

end

theorem inv_applyToolCalls (finish : Bool) (tcs : List RawToolCallDelta) (h : Inv t d events) :
    Inv ((tcs.map fun tc => Item.piece (.of finish tc)).foldl Tracker.step t)
      (d.applyToolCalls finish tcs).1 (events ++ (d.applyToolCalls finish tcs).2) := by
  induction tcs generalizing t d events with
  | nil => simpa [StreamDecoder.applyToolCalls] using h
  | cons tc tcs ih =>
    rw [map_cons,foldl_cons,StreamDecoder.applyToolCalls]
    cases hresend : isResend finish tc with
    | true => exact ih (inv_resend h (resent_of finish tc ▸ hresend))
    | false =>
      have hnext := ih (inv_applyToolCallDelta h (resent_of finish tc ▸ hresend))
      rwa [append_assoc] at hnext

theorem Tracker.taken_eq_nil (t : Tracker) : t.taken = [] ↔ t.pieces.any (·.2) = false := by
  simp [Tracker.taken]

theorem Accumulated.isEmpty {ps : List Piece} (h : Accumulated calls ps) :
    calls.isEmpty = true ↔ ps = [] := by
  rw [List.isEmpty_iff]
  constructor
  · rintro rfl
    cases ps with
    | nil => rfl
    | cons p ps =>
      obtain ⟨acc,hlookup,-⟩ := h.present p.index (by simp [onIndex])
      cases hlookup
  · rintro rfl
    cases calls with
    | nil => rfl
    | cons e rest =>
      have habsent := h.absent e.1 rfl
      simp at habsent

theorem inv_flush (h : Inv t d events) :
    Inv ⟨t.pieces,t.flushed || t.pieces.any (·.2)⟩ d.flushComplete.1
      (events ++ d.flushComplete.2) := by
  unfold StreamDecoder.flushComplete
  cases hflushed : t.flushed with
  | true =>
    rw [h.completed,hflushed]
    simp only [Bool.true_or,if_true,append_nil]
    exact ⟨by rw [h.completed,hflushed],h.notDone,h.unfinished,nofun,
      fun _ => h.handedOver hflushed⟩
  | false =>
    obtain ⟨haccumulated,hnone⟩ := h.collecting hflushed
    rw [h.completed,hflushed]
    simp only [Bool.false_or]
    cases hempty : d.calls.isEmpty with
    | true =>
      have hany := t.taken_eq_nil.mp (haccumulated.isEmpty.mp hempty)
      simp only [if_true,append_nil,hany]
      exact ⟨by rw [h.completed,hflushed],h.notDone,h.unfinished,fun _ => ⟨haccumulated,hnone⟩,
        nofun⟩
    | false =>
      have htaken : t.taken ≠ [] := fun hnil =>
        absurd (haccumulated.isEmpty.mpr hnil) (by simp [hempty])
      have hany : t.pieces.any (·.2) = true :=
        Bool.of_not_eq_false fun hc => htaken (t.taken_eq_nil.mpr hc)
      simp only [Bool.false_eq_true,if_false,hany]
      refine ⟨rfl,h.notDone,?_,nofun,fun _ => ⟨htaken,?_⟩⟩
      · rw [dones_append,h.unfinished]
        rfl
      · rw [completes_append,hnone]
        exact ⟨_,rfl,d.calls,haccumulated,(perm_insertionSort _ d.calls).map _⟩

theorem inv_applyFinish (reason : Option String) (h : Inv t d events) :
    Inv ((reason.toList.map Item.finish).foldl Tracker.step t) (d.applyFinish reason).1
      (events ++ (d.applyFinish reason).2) := by
  cases reason with
  | none => simpa [StreamDecoder.applyFinish] using h
  | some reason =>
    have hframe := @Inv.frame d _ t { d with finishReason := d.finishReason.or (some reason) } h
      rfl rfl rfl
    simp only [Option.toList_some,map_cons,map_nil,foldl_cons,foldl_nil,
      Tracker.step,StreamDecoder.applyFinish]
    by_cases htool : reason = "tool_calls"
    · simpa [htool] using inv_flush hframe
    by_cases hlength : reason = "length"
    · simp only [hlength,BEq.rfl,Bool.or_true,Bool.and_true,if_true,
        show ("length" = "tool_calls") = False by simp,if_false]
      cases hempty : d.calls.isEmpty with
      | false =>
        simp only [Bool.false_eq_true,if_false]
        exact inv_flush (h.frame rfl rfl rfl)
      | true =>
        -- with no calls the flag stays as it is
        have hsame : (t.flushed || t.pieces.any (·.2)) = t.flushed := by
          cases hflushed : t.flushed with
          | true => rfl
          | false => exact t.taken_eq_nil.mp ((h.collecting hflushed).1.isEmpty.mp hempty)
        rw [hsame]
        simp only [if_true,append_nil]
        exact h.frame rfl rfl rfl
    · have hother : (reason == "tool_calls" || reason == "length") = false := by
        simp [htool,hlength]
      rw [hother,if_neg htool,if_neg hlength]
      simp only [Bool.and_false,Bool.or_false]
      split
      · simpa using hframe
      · exact hframe.quiet rfl rfl

section

variable (d : StreamDecoder) (role : Option String)

theorem quiet_startRole : Quiet (d.startRole role).2 := by
  unfold StreamDecoder.startRole
  split
  · split
    · exact .nil
    · exact ⟨rfl,rfl,rfl⟩
  · exact .nil

theorem startRole_frame :
    (d.startRole role).1.calls = d.calls ∧ (d.startRole role).1.completed = d.completed ∧
      (d.startRole role).1.doneEmitted = d.doneEmitted := by
  unfold StreamDecoder.startRole
  split
  · split <;> exact ⟨rfl,rfl,rfl⟩
  · exact ⟨rfl,rfl,rfl⟩

end

theorem textEvents_spec (content : Option String) :
    concat (texts (textEvents content)) = content.getD "" ∧ completes (textEvents content) = [] ∧
      dones (textEvents content) = 0 := by
  cases content with
  | none => exact ⟨rfl,rfl,rfl⟩
  | some text =>
    by_cases h : text = ""
    · simp only [textEvents,h]
      exact ⟨rfl,rfl,rfl⟩
    · simp only [textEvents,ne_eq,h,not_false_eq_true,if_true]
      exact ⟨String.empty_append,rfl,rfl⟩

theorem inv_applyDelta (finish : Bool) (delta : Option RawDelta) (h : Inv t d events) :
    Inv ((((delta.bind (·.toolCalls)).getD []).map fun tc => Item.piece (.of finish tc)).foldl
        Tracker.step t) (d.applyDelta finish delta).1 (events ++ (d.applyDelta finish delta).2) := by
  cases delta with
  | none => simpa [StreamDecoder.applyDelta] using h
  | some delta =>
    obtain ⟨hcalls,hcompleted,hdone⟩ := startRole_frame d delta.role
    have hrole := quiet_startRole d delta.role
    obtain ⟨-,htext,htextDone⟩ := textEvents_spec delta.content
    have hbefore := ((h.frame hcalls hcompleted hdone).quiet hrole.dones hrole.completes).quiet
      htextDone htext
    have hafter := inv_applyToolCalls finish (delta.toolCalls.getD []) hbefore
    simp only [append_assoc] at hafter
    simp only [StreamDecoder.applyDelta,append_assoc]
    exact hafter

theorem inv_pushChoice (choice : RawChoice) (h : Inv t d events) :
    Inv ((choiceItems choice).foldl Tracker.step t) (d.pushChoice choice).1
      (events ++ (d.pushChoice choice).2) := by
  have hdelta := inv_applyDelta choice.finishReason.isSome choice.delta h
  have hfinish := inv_applyFinish choice.finishReason hdelta
  rw [append_assoc] at hfinish
  rw [choiceItems,List.foldl_append]
  exact hfinish

theorem inv_pushChoices (choices : List RawChoice) (h : Inv t d events) :
    Inv ((choices.flatMap choiceItems).foldl Tracker.step t) (d.pushChoices choices).1
      (events ++ (d.pushChoices choices).2) := by
  induction choices generalizing t d events with
  | nil => simpa [StreamDecoder.pushChoices] using h
  | cons choice choices ih =>
    have hrest := ih (inv_pushChoice choice h)
    rw [append_assoc] at hrest
    rw [flatMap_cons,List.foldl_append]
    exact hrest

theorem inv_pushChunk (chunk : RawChunk) (h : Inv t d events) :
    Inv ((chunk.choices.flatMap choiceItems).foldl Tracker.step t) (d.pushChunk chunk).1
      (events ++ (d.pushChunk chunk).2) := by
  have husage : dones (usageEvents chunk.usage) = 0 ∧ completes (usageEvents chunk.usage) = [] := by
    cases chunk.usage <;> exact ⟨rfl,rfl⟩
  have hchoices := (inv_pushChoices chunk.choices h).quiet husage.1 husage.2
  rwa [append_assoc] at hchoices

theorem inv_pushChunks (chunks : List RawChunk) (h : Inv t d events) :
    Inv ((items chunks).foldl Tracker.step t) (d.pushChunks chunks).1
      (events ++ (d.pushChunks chunks).2) := by
  induction chunks generalizing t d events with
  | nil => simpa [StreamDecoder.pushChunks,items] using h
  | cons chunk chunks ih =>
    have hrest := ih (inv_pushChunk chunk h)
    rw [append_assoc] at hrest
    rw [items,flatMap_cons,List.foldl_append]
    exact hrest

theorem decode_spec (chunks : List RawChunk) : dones (decode chunks) = 1 ∧
      (((track (items chunks)).taken = [] ∧ completes (decode chunks) = []) ∨
        ((track (items chunks)).taken ≠ [] ∧ ∃ calls,completes (decode chunks) = [calls] ∧
            CallsOf calls (track (items chunks)).taken)) := by
  have hrun := inv_pushChunks chunks inv_new
  have hend := inv_flush hrun
  rw [nil_append] at hend
  have hdecode : decode chunks = ((StreamDecoder.new.pushChunks chunks).2
      ++ (StreamDecoder.new.pushChunks chunks).1.flushComplete.2) ++ [.done] := by
    simp only [decode,StreamDecoder.finish]
    rw [if_neg (by rw [hend.notDone]; exact Bool.false_ne_true)]
    simp
  rw [hdecode,dones_append,hend.unfinished,completes_append,
    show completes [OaiEvent.done] = [] from rfl,append_nil]
  refine ⟨rfl,?_⟩
  cases hflag : (track (items chunks)).flushed || (track (items chunks)).pieces.any (·.2) with
  | true => exact .inr (hend.handedOver hflag)
  | false =>
    exact .inl ⟨Tracker.taken_eq_nil _ |>.mpr (Bool.or_eq_false_iff.mp hflag).2,
      (hend.collecting hflag).2⟩

def contents (chunks : List RawChunk) : List String :=
  chunks.flatMap fun chunk => chunk.choices.map fun choice =>
    (choice.delta.bind (·.content)).getD ""

variable (d : StreamDecoder)

theorem texts_flushComplete : texts d.flushComplete.2 = [] := by
  unfold StreamDecoder.flushComplete
  split <;> rfl

theorem texts_applyToolCalls (finish : Bool) (d : StreamDecoder) (tcs : List RawToolCallDelta) :
    texts (d.applyToolCalls finish tcs).2 = [] := by
  induction tcs generalizing d with
  | nil => rfl
  | cons tc tcs ih =>
    rw [StreamDecoder.applyToolCalls]
    split
    · exact ih d
    · simp only [texts_append,ih,(applyToolCallDelta_spec d finish tc).1.texts,append_nil]

theorem texts_applyFinish (reason : Option String) : texts (d.applyFinish reason).2 = [] := by
  unfold StreamDecoder.applyFinish
  split
  · dsimp only
    split
    · exact texts_flushComplete _
    split
    · split
      · rfl
      · exact texts_flushComplete _
    split <;> rfl
  · rfl

theorem texts_pushChoice (choice : RawChoice) :
    concat (texts (d.pushChoice choice).2) = (choice.delta.bind (·.content)).getD "" := by
  simp only [StreamDecoder.pushChoice,texts_append,texts_applyFinish,append_nil]
  cases choice.delta with
  | none => rfl
  | some delta =>
    simp only [StreamDecoder.applyDelta,texts_append,texts_applyToolCalls,
      (quiet_startRole d delta.role).texts,nil_append,append_nil]
    exact (textEvents_spec delta.content).1

theorem texts_pushChoices (choices : List RawChoice) : concat (texts (d.pushChoices choices).2)
      = concat (choices.map fun choice => (choice.delta.bind (·.content)).getD "") := by
  induction choices generalizing d with
  | nil => rfl
  | cons choice choices ih =>
    have hcons : ∀ (s : String) (l : List String),concat (s :: l) = s ++ concat l := fun s l => by
      rw [← singleton_append,concat_append,concat_singleton]
    rw [map_cons,hcons]
    simp only [StreamDecoder.pushChoices,texts_append,concat_append,texts_pushChoice,ih]

theorem texts_pushChunks (chunks : List RawChunk) :
    concat (texts (d.pushChunks chunks).2) = concat (contents chunks) := by
  induction chunks generalizing d with
  | nil => rfl
  | cons chunk chunks ih =>
    have husage : texts (usageEvents chunk.usage) = [] := by cases chunk.usage <;> rfl
    have htail := ih (d.pushChunk chunk).1
    simp only [StreamDecoder.pushChunk] at htail
    simp only [StreamDecoder.pushChunks,StreamDecoder.pushChunk,texts_append,husage,
      append_nil,concat_append,texts_pushChoices,htail,contents,flatMap_cons]

theorem texts_decode (chunks : List RawChunk) :
    concat (texts (decode chunks)) = concat (contents chunks) := by
  have hfinish : ∀ d : StreamDecoder,texts d.finish.2 = [] := by
    intro d
    simp only [StreamDecoder.finish]
    split
    · exact texts_flushComplete d
    · rw [texts_append,texts_flushComplete]
      rfl
  simp only [decode,texts_append,hfinish,append_nil]
  exact texts_pushChunks _ _

def pieces (chunks : List RawChunk) : List Piece :=
  (items chunks).filterMap fun | .piece p => some p | .finish _ => none

/-- The pieces sent for a call: those that name it, and those that name no call, on an index
    on which it is named. -/
def Tracker.sentFor (t : Tracker) (id : String) : List Piece :=
  t.sent.filter fun p => p.id == id ||
    (p.id == "" && t.sent.any fun q => q.index == p.index && q.id == id)

/-- Each call that the stream names is handed over once, with the arguments sent for it. -/
def Delivered (chunks : List RawChunk) : Prop :=
  ∀ id,id ≠ "" → (∃ p ∈ pieces chunks,p.id = id) →
    ∃ calls ∈ completes (decode chunks),(calls.filter (·.id == id)).map (·.arguments)
      = [argsOf ((track (items chunks)).sentFor id)]

/-- What is not taken belongs to no call, and calls and indices belong to each other. -/
structure Tracker.Regular (t : Tracker) : Prop where
  taken : ∀ e ∈ t.pieces,e.2 = false → e.1.id = "" ∧ ∀ q ∈ t.sent,q.index = e.1.index → q.id = ""
  oneToOne : ∀ p ∈ t.sent,∀ q ∈ t.sent,p.id ≠ "" → q.id ≠ "" → (p.index = q.index ↔ p.id = q.id)

structure Tracker.Traceable (t : Tracker) : Prop where
  single : ∀ p ∈ t.sent,p.args.toList.length = 1
  distinct : (t.sent.map (·.args)).Nodup

variable {id : String} {ps : List Piece}

theorem lastId_of_named (hid : id ≠ "") (hall : ∀ p ∈ ps,p.id = "" ∨ p.id = id)
    (hnamed : ∃ p ∈ ps,p.id = id) : lastId ps = id := by
  induction ps using reverseRecOn with
  | nil =>
    obtain ⟨p,hp,-⟩ := hnamed
    cases hp
  | append_singleton ps p ih =>
    rw [lastId_append]
    rcases hall p (by simp) with hempty | hp
    · rw [if_neg (by simp [hempty])]
      refine ih (fun q hq => hall q (mem_append_left _ hq)) ?_
      obtain ⟨q,hq,hqid⟩ := hnamed
      rcases mem_append.mp hq with hq | hq
      · exact ⟨q,hq,hqid⟩
      · rw [mem_singleton.mp hq,hempty] at hqid
        exact absurd hqid.symm hid
    · rw [if_pos (by rw [hp]; exact hid),hp]

theorem exists_of_lastId (hid : id ≠ "") (h : lastId ps = id) : ∃ p ∈ ps,p.id = id := by
  induction ps using reverseRecOn with
  | nil => exact absurd h.symm hid
  | append_singleton ps p ih =>
    rw [lastId_append] at h
    split at h
    · exact ⟨p,by simp,h⟩
    · obtain ⟨q,hq,hqid⟩ := ih h
      exact ⟨q,mem_append_left _ hq,hqid⟩

section Tracker

variable {t : Tracker}

theorem Tracker.mem_sent {e : Piece × Bool} (h : e ∈ t.pieces) : e.1 ∈ t.sent :=
  mem_map_of_mem h

theorem Tracker.mem_taken {p : Piece} : p ∈ t.taken ↔ (p,true) ∈ t.pieces := by
  simp [Tracker.taken]

theorem Tracker.taken_sublist : t.taken.Sublist t.sent := filter_sublist.map _

theorem Tracker.mem_sentFor {p : Piece} {id : String} : p ∈ t.sentFor id ↔ p ∈ t.sent ∧
      (p.id = id ∨ (p.id = "" ∧ ∃ q ∈ t.sent,q.index = p.index ∧ q.id = id)) := by
  simp [Tracker.sentFor]

theorem Tracker.Regular.sentFor_eq (h : t.Regular) {p : Piece} (hp : p ∈ t.sent) (hid : p.id ≠ "") :
    t.sentFor p.id = onIndex p.index t.taken := by
  have hfilter : ∀ (f : Piece → Bool),t.sent.filter f = (t.pieces.filter fun e => f e.1).map Prod.fst :=
    fun f => by rw [Tracker.sent,filter_map]; rfl
  have htaken : onIndex p.index t.taken
      = (t.pieces.filter fun e => e.1.index == p.index && e.2).map Prod.fst := by
    rw [onIndex,Tracker.taken,filter_map,filter_filter]
    rfl
  rw [Tracker.sentFor,hfilter,htaken]
  refine congrArg _ (filter_congr fun e he => ?_)
  rw [Bool.eq_iff_iff]
  simp only [Bool.or_eq_true,Bool.and_eq_true,beq_iff_eq,any_eq_true]
  have hsent := Tracker.mem_sent he
  constructor
  · intro hfor
    have hindex : e.1.index = p.index := by
      rcases hfor with heq | ⟨-,q,hq,hqe,hqid⟩
      · exact (h.oneToOne _ hsent p hp (by rw [heq]; exact hid) hid).mpr heq
      · exact hqe.symm.trans ((h.oneToOne q hq p hp (by rw [hqid]; exact hid) hid).mpr hqid)
    refine ⟨hindex,Bool.of_not_eq_false fun hfalse => ?_⟩
    exact hid ((h.taken e he hfalse).2 p hp hindex.symm)
  · rintro ⟨hindex,-⟩
    by_cases hempty : e.1.id = ""
    · exact .inr ⟨hempty,p,hp,hindex.symm,rfl⟩
    · exact .inl ((h.oneToOne _ hsent p hp hempty hid).mp hindex)

end Tracker

theorem filter_eq_singleton {α : Type} {entries : List (Nat × α)}
    (hnodup : (entries.map Prod.fst).Nodup) {e : Nat × α} (he : e ∈ entries)
    {f : Nat × α → Bool} (hf : f e = true) (honly : ∀ d ∈ entries,f d = true → d.1 = e.1) :
    entries.filter f = [e] := by
  have hmem : ∀ d,d ∈ entries.filter f ↔ d = e := by
    intro d
    rw [mem_filter]
    constructor
    · rintro ⟨hd,hfd⟩
      exact inj_on_of_nodup_map hnodup hd he (honly d hd hfd)
    · rintro rfl
      exact ⟨he,hf⟩
  exact perm_singleton.mp ((perm_ext_iff_of_nodup (hnodup.of_map.filter _)
    (nodup_singleton e)).mpr fun d => by rw [hmem,mem_singleton])

theorem Accumulated.of_mem {entries : List (Nat × ToolCallAccumulator)}
    (h : Accumulated entries ps) {e : Nat × ToolCallAccumulator} (he : e ∈ entries) :
    e.2.id = lastId (onIndex e.1 ps) ∧ e.2.arguments = argsOf (onIndex e.1 ps) := by
  have hlookup : entries.lookup e.1 = some e.2 := by
    have hnodup := h.nodup
    clear h
    induction entries with
    | nil => cases he
    | cons d rest ih =>
      obtain ⟨hnot,hrest⟩ := nodup_cons.mp hnodup
      rcases mem_cons.mp he with rfl | he
      · rw [lookup_cons,BEq.rfl]
      · have hne : (e.1 == d.1) = false := beq_false_of_ne fun heq =>
          hnot (heq ▸ mem_map_of_mem he)
        rw [lookup_cons,hne]
        exact ih he hrest
  have hread := h.read e.1
  rwa [hlookup] at hread

theorem exists_sent {its : List Item} {t : Tracker}
    (h : (∃ p,Item.piece p ∈ its ∧ p.id = id) ∨ ∃ p ∈ t.sent,p.id = id) :
    ∃ p ∈ (its.foldl Tracker.step t).sent,p.id = id := by
  induction its generalizing t with
  | nil =>
    rcases h with ⟨p,hp,-⟩ | h
    · cases hp
    · exact h
  | cons item its ih =>
    rw [foldl_cons]
    have hkeep : ∀ p ∈ t.sent,p ∈ (t.step item).sent := by
      intro p hp
      cases item with
      | finish reason => exact hp
      | piece q =>
        simp only [Tracker.step]
        split
        · exact hp
        · simp only [Tracker.sent,map_append,mem_append]
          exact .inl hp
    rcases h with ⟨p,hp,hid⟩ | ⟨p,hp,hid⟩
    · rcases mem_cons.mp hp with rfl | hp
      · refine ih (.inr ?_)
        cases hrepeat : p.resent && t.pieces.any (·.1.id == p.id) with
        | true =>
          obtain ⟨e,he,heid⟩ := any_eq_true.mp (Bool.and_eq_true_iff.mp hrepeat).2
          exact ⟨e.1,hkeep _ (Tracker.mem_sent he),(beq_iff_eq.mp heid).trans hid⟩
        | false => exact ⟨p,by simp [Tracker.step,hrepeat,Tracker.sent],hid⟩
      · exact ih (.inl ⟨p,hp,hid⟩)
    · exact ih (.inr ⟨p,hkeep p hp,hid⟩)

variable {chunks : List RawChunk}

theorem named_sent (h : ∃ p ∈ pieces chunks,p.id = id) :
    ∃ p ∈ (track (items chunks)).sent,p.id = id := by
  obtain ⟨p,hp,hid⟩ := h
  obtain ⟨item,hitem,heq⟩ := mem_filterMap.mp hp
  refine exists_sent (.inl ⟨p,?_,hid⟩)
  cases item with
  | piece q =>
    cases heq
    exact hitem
  | finish reason => cases heq

theorem sent_named {its : List Item} {t : Tracker} {p : Piece}
    (h : p ∈ (its.foldl Tracker.step t).sent) : Item.piece p ∈ its ∨ p ∈ t.sent := by
  induction its generalizing t with
  | nil => exact .inr h
  | cons item its ih =>
    rcases ih h with h | h
    · exact .inl (mem_cons_of_mem _ h)
    cases item with
    | finish reason => exact .inr h
    | piece q =>
      simp only [Tracker.step] at h
      split at h
      · exact .inr h
      simp only [Tracker.sent,map_append,mem_append] at h
      rcases h with h | h
      · exact .inr h
      · obtain rfl := mem_singleton.mp h
        exact .inl mem_cons_self

theorem mem_pieces_of_sent {p : Piece} (h : p ∈ (track (items chunks)).sent) :
    p ∈ pieces chunks := by
  rcases sent_named h with hmem | hmem
  · exact mem_filterMap.mpr ⟨_,hmem,rfl⟩
  · cases hmem

theorem delivered_of_regular (h : (track (items chunks)).Regular) : Delivered chunks := by
  intro id hid hnamed
  obtain ⟨p,hp,rfl⟩ := named_sent hnamed
  have hsentFor := h.sentFor_eq hp hid
  have hmem : p ∈ onIndex p.index (track (items chunks)).taken := by
    rw [← hsentFor]
    exact Tracker.mem_sentFor.mpr ⟨hp,.inl rfl⟩
  have hne : onIndex p.index (track (items chunks)).taken ≠ [] := ne_nil_of_mem hmem
  rcases (decode_spec chunks).2 with ⟨hnil,-⟩ | ⟨-,calls,hcalls,entries,hentries,hperm⟩
  · rw [hnil] at hne
    exact absurd rfl hne
  obtain ⟨acc,hlookup,haccId,haccArgs⟩ := hentries.present p.index hne
  have hentry : (p.index,acc) ∈ entries := by
    obtain ⟨_,_,hsplit,-⟩ := lookup_eq_some_iff.mp hlookup
    rw [hsplit]
    simp
  have hlast : lastId (onIndex p.index (track (items chunks)).taken) = p.id := by
    refine lastId_of_named hid (fun q hq => ?_) ⟨p,hmem,rfl⟩
    rw [← hsentFor] at hq
    rcases (Tracker.mem_sentFor.mp hq).2 with heq | ⟨hempty,-⟩
    · exact .inr heq
    · exact .inl hempty
  have hsingle : entries.filter (fun e => e.2.toCall.id == p.id) = [(p.index,acc)] := by
    refine filter_eq_singleton hentries.nodup hentry ?_ fun e he hf => ?_
    · exact beq_iff_eq.mpr (haccId.trans hlast)
    · -- another accumulator of that id would put the call on two indices
      have heid : lastId (onIndex e.1 (track (items chunks)).taken) = p.id :=
        (hentries.of_mem he).1.symm.trans (beq_iff_eq.mp hf)
      obtain ⟨q,hq,hqid⟩ := exists_of_lastId hid heid
      obtain ⟨hqtaken,hqindex⟩ := mem_filter.mp hq
      have hqsent := Tracker.taken_sublist.subset hqtaken
      have hindex := (h.oneToOne q hqsent p hp (by rw [hqid]; exact hid) hid).mpr hqid
      exact (beq_iff_eq.mp hqindex).symm.trans hindex
  refine ⟨calls,by rw [hcalls]; exact mem_singleton_self _,?_⟩
  have hfiltered := (hperm.filter (·.id == p.id)).map (·.arguments)
  rw [filter_map,show ((fun c : ToolCall => c.id == p.id) ∘ fun e => e.2.toCall)
    = fun e : Nat × ToolCallAccumulator => e.2.toCall.id == p.id from rfl,hsingle] at hfiltered
  rw [perm_singleton.mp hfiltered,hsentFor]
  exact congrArg (fun s => [s]) haccArgs

theorem eq_of_argsOf {all l l' : List Piece} (hsingle : ∀ p ∈ all,p.args.toList.length = 1)
    (hdistinct : (all.map (·.args)).Nodup) (hl : l ⊆ all) (hl' : l' ⊆ all)
    (h : argsOf l = argsOf l') : l = l' := by
  have hcons : ∀ (p : Piece) (ps : List Piece),
      (argsOf (p :: ps)).toList = p.args.toList ++ (argsOf ps).toList := fun p ps => by
    rw [argsOf,map_cons,← singleton_append,concat_append,concat_singleton,String.toList_append]
    rfl
  induction l generalizing l' with
  | nil =>
    cases l' with
    | nil => rfl
    | cons q qs =>
      have hlen := congrArg (length ∘ String.toList) h
      simp only [Function.comp_apply,hcons,length_append,hsingle q (hl' mem_cons_self)] at hlen
      change 0 = _ at hlen
      omega
  | cons p ps ih =>
    have hp := hsingle p (hl mem_cons_self)
    cases l' with
    | nil =>
      have hlen := congrArg (length ∘ String.toList) h
      simp only [Function.comp_apply,hcons,length_append,hp] at hlen
      change _ = 0 at hlen
      omega
    | cons q qs =>
      have hq := hsingle q (hl' mem_cons_self)
      have hlists := congrArg String.toList h
      rw [hcons,hcons] at hlists
      obtain ⟨hhead,htail⟩ := append_inj hlists (hp.trans hq.symm)
      have hpq : p = q := inj_on_of_nodup_map hdistinct (hl mem_cons_self)
        (hl' mem_cons_self) (String.toList_injective hhead)
      rw [hpq,ih (fun x hx => hl (mem_cons_of_mem _ hx))
        (fun x hx => hl' (mem_cons_of_mem _ hx)) (String.toList_injective htail)]

/-- If a call is delivered and its fragments can be told apart, some index took exactly the
    pieces sent for it. -/
theorem Delivered.index (h : Delivered chunks) (htrace : (track (items chunks)).Traceable)
    {p : Piece} (hp : p ∈ (track (items chunks)).sent) (hid : p.id ≠ "") :
    ∃ i,onIndex i (track (items chunks)).taken = (track (items chunks)).sentFor p.id ∧
      lastId (onIndex i (track (items chunks)).taken) = p.id := by
  obtain ⟨calls,hmem,hone⟩ := h p.id hid ⟨p,mem_pieces_of_sent hp,rfl⟩
  rcases (decode_spec chunks).2 with ⟨-,hnone⟩ | ⟨-,calls',hcalls,entries,hentries,hperm⟩
  · rw [hnone] at hmem
    cases hmem
  rw [hcalls] at hmem
  obtain rfl := mem_singleton.mp hmem
  obtain ⟨call,hcall,hargs⟩ : ∃ call ∈ calls.filter (·.id == p.id),call.arguments
      = argsOf ((track (items chunks)).sentFor p.id) := by
    have hin : argsOf ((track (items chunks)).sentFor p.id)
        ∈ (calls.filter (·.id == p.id)).map (·.arguments) := by
      rw [hone]
      exact mem_singleton_self _
    exact mem_map.mp hin
  obtain ⟨hcallMem,hcallId⟩ := mem_filter.mp hcall
  obtain ⟨e,he,rfl⟩ := mem_map.mp (hperm.mem_iff.mp hcallMem)
  obtain ⟨heId,heArgs⟩ := hentries.of_mem he
  refine ⟨e.1,?_,heId.symm.trans (beq_iff_eq.mp hcallId)⟩
  refine eq_of_argsOf htrace.single htrace.distinct ?_ filter_sublist.subset
    (heArgs.symm.trans hargs)
  exact (filter_sublist.trans Tracker.taken_sublist).subset

theorem regular_of_delivered (h : Delivered chunks) (htrace : (track (items chunks)).Traceable) :
    (track (items chunks)).Regular := by
  -- no piece of a call is left out, since the pieces differ
  have hleft : ∀ e ∈ (track (items chunks)).pieces,e.2 = false →
      ∀ q ∈ (track (items chunks)).sent,q.id ≠ "" → e.1 ∉ (track (items chunks)).sentFor q.id := by
    intro e he hfalse q hq hid hmem
    obtain ⟨i,hsentFor,-⟩ := h.index htrace hq hid
    rw [← hsentFor] at hmem
    have htaken := Tracker.mem_taken.mp (mem_filter.mp hmem).1
    have hnodup : ((track (items chunks)).pieces.map Prod.fst).Nodup := htrace.distinct.of_map
    have heq := inj_on_of_nodup_map hnodup he htaken rfl
    rw [heq] at hfalse
    cases hfalse
  have hindex : ∀ q ∈ (track (items chunks)).sent,q.id ≠ "" →
      ∃ i,q.index = i ∧ onIndex i (track (items chunks)).taken
        = (track (items chunks)).sentFor q.id ∧
        lastId (onIndex i (track (items chunks)).taken) = q.id := by
    intro q hq hid
    obtain ⟨i,hsentFor,hlast⟩ := h.index htrace hq hid
    have hmem : q ∈ onIndex i (track (items chunks)).taken := by
      rw [hsentFor]
      exact Tracker.mem_sentFor.mpr ⟨hq,.inl rfl⟩
    exact ⟨i,beq_iff_eq.mp (mem_filter.mp hmem).2,hsentFor,hlast⟩
  constructor
  · intro e he hfalse
    have hsent := Tracker.mem_sent he
    have hempty : e.1.id = "" := by
      by_contra hid
      exact hleft e he hfalse e.1 hsent hid (Tracker.mem_sentFor.mpr ⟨hsent,.inl rfl⟩)
    refine ⟨hempty,fun q hq hqindex => ?_⟩
    by_contra hid
    exact hleft e he hfalse q hq hid
      (Tracker.mem_sentFor.mpr ⟨hsent,.inr ⟨hempty,q,hq,hqindex,rfl⟩⟩)
  · intro p hp q hq hpid hqid
    obtain ⟨i,rfl,hpsent,hplast⟩ := hindex p hp hpid
    obtain ⟨j,rfl,-,hqlast⟩ := hindex q hq hqid
    constructor
    · intro heq
      rw [← hplast,heq,hqlast]
    · intro heq
      have hmem : q ∈ onIndex p.index (track (items chunks)).taken := by
        rw [hpsent]
        exact Tracker.mem_sentFor.mpr ⟨hq,.inl heq.symm⟩
      exact (beq_iff_eq.mp (mem_filter.mp hmem).2).symm

/-- Every stream ends once, hands its calls over at most once and gives its text back. Its
    calls are delivered if it is regular; and a stream whose fragments can be told apart
    delivers its calls only if it is. -/
theorem chat_delivers (chunks : List RawChunk) :
    dones (decode chunks) = 1 ∧ (completes (decode chunks)).length ≤ 1 ∧
      concat (texts (decode chunks)) = concat (contents chunks) ∧
      ((track (items chunks)).Regular → Delivered chunks) ∧
      ((track (items chunks)).Traceable → Delivered chunks → (track (items chunks)).Regular) := by
  obtain ⟨hdone,hcalls⟩ := decode_spec chunks
  refine ⟨hdone,?_,texts_decode chunks,delivered_of_regular,
    fun htrace h => regular_of_delivered h htrace⟩
  rcases hcalls with ⟨-,hnone⟩ | ⟨-,calls,hone,-⟩
  · rw [hnone]
    exact Nat.zero_le _
  · rw [hone]
    exact Nat.le_refl _

def wholeCall : List RawChunk :=
  [⟨[⟨some ⟨some "assistant",none,some [⟨some 0,some "call_1",some ⟨some "ls",some "1"⟩⟩]⟩,
    some "tool_calls"⟩],none⟩]

/-- It is taken for a repetition, and no call is handed over. -/
theorem wholeCall_not_delivered :
    decode wholeCall = [.roleStart "assistant",.done] ∧ ¬ Delivered wholeCall := by
  have hdecode : decode wholeCall = [.roleStart "assistant",.done] := by decide +kernel
  refine ⟨hdecode,fun h => ?_⟩
  obtain ⟨calls,hmem,-⟩ := h "call_1" (by decide) ⟨⟨true,0,"call_1","1"⟩,by decide +kernel,rfl⟩
  rw [hdecode] at hmem
  cases hmem

def resentCall : List RawChunk :=
  [⟨[⟨some ⟨none,none,some [⟨some 0,some "call_1",some ⟨some "ls",some "1"⟩⟩]⟩,none⟩],none⟩,
    ⟨[⟨some ⟨none,some "ok",some [⟨some 0,none,some ⟨none,some "2"⟩⟩]⟩,none⟩],none⟩,
    ⟨[⟨some ⟨none,none,some [⟨some 0,some "call_1",some ⟨some "ls",some "12"⟩⟩]⟩,
      some "tool_calls"⟩],none⟩]

theorem chat_delivers_resentCall : (track (items resentCall)).Regular ∧ Delivered resentCall ∧
      completes (decode resentCall) = [[⟨"call_1","ls","12"⟩]] := by
  have hregular : (track (items resentCall)).Regular := ⟨by decide +kernel,by decide +kernel⟩
  exact ⟨hregular,(chat_delivers resentCall).2.2.2.1 hregular,by decide +kernel⟩

end Synaps.Chat
