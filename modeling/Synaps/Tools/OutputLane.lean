import Synaps.Lib.Text
import Synaps.Lib.Segments
import Synaps.Lib.Runs

/-!
The output of a tool. Its lane to the user interface is a bounded channel and an overflow buffer
between a producer that never waits and a task that forwards within a budget. Under every
interleaving what is emitted stays within the budget, and it keeps the order of production while
the overflow is never taken before a waiting channel; every produced byte is accounted for while
the task runs, and at its end if the last accounting runs beside no `send`.
-/

set_option autoImplicit false

namespace Synaps.Output

open Text

def deltaChannelCapacity : Nat := 64
def deltaMaxChunkBytes : Nat := 64 * 1024
def deltaCoalesceCapBytes : Nat := 64 * 1024

structure BoundedText where
  text : List Char
  originalBytes : Nat
  retainedBytes : Nat

def BoundedText.new (text : List Char) (maxBytes : Nat) : BoundedText :=
  ⟨truncateBytes maxBytes text,byteLen text,byteLen (truncateBytes maxBytes text)⟩

def BoundedText.cut (b : BoundedText) : Nat := b.originalBytes - b.retainedBytes

inductive Sender where
  | idle
  | gone
  | cap (chunk : List Char)
  | check (chunk : List Char)
  | trySend (chunk : List Char)
  | full (chunk : List Char)
  /-- The overflow is locked; a cut is still to be counted. -/
  | locked (cut : Nat)
  | notify
  | closed (chunk : List Char)
  deriving DecidableEq

inductive Forwarder where
  | top
  | draining (batch : List Char)
  | overflow (batch : List Char)
  | waiting
  | lastOverflow
  | forward (kept : List Char) (cut : Nat)
  | emit (kept : List Char) (cut : Nat)
  | dropRest (cut : Nat)
  | loadProduced
  | loadForwarded (produced : Nat)
  | loadDropped (produced forwarded : Nat)
  | noteRetained (retained : Nat)
  | close
  | ended
  deriving DecidableEq

structure State where
  channel : List (List Char)
  channelClosed : Bool
  overflow : List Char
  notified : Bool
  cancelled : Bool
  produced : Nat
  forwarded : Nat
  dropped : Nat
  forwardedTotal : Nat
  sender : Sender
  forwarder : Forwarder
  /-- The text handed to `send`, and the text emitted. -/
  text : List Char
  emitted : List Char
  deriving DecidableEq

def State.start : State := ⟨[],false,[],false,false,0,0,0,0,.idle,.top,[],[]⟩

def State.send (s : State) (chunk : List Char) : Option State :=
  match s.sender with
  | .idle =>
    some { s with
      produced := s.produced + byteLen chunk
      text := s.text ++ chunk
      sender := if chunk = [] then .idle else .cap chunk }
  | _ => none

def State.hangUp (s : State) : Option State :=
  match s.sender with
  | .idle => some { s with sender := .gone }
  | _ => none

/-- The section that holds the overflow: what fits is appended. -/
def State.coalesceInto (s : State) (chunk : List Char) : State :=
  let bounded := BoundedText.new chunk (deltaCoalesceCapBytes - byteLen s.overflow)
  { s with
    overflow := s.overflow ++ bounded.text
    sender := if bounded.cut = 0 then .notify else .locked bounded.cut }

def State.senderStep (s : State) : Option State :=
  match s.sender with
  | .idle => none
  | .gone => none
  | .cap chunk =>
    if deltaMaxChunkBytes < byteLen chunk then
      let bounded := BoundedText.new chunk deltaMaxChunkBytes
      some { s with dropped := s.dropped + bounded.cut, sender := .check bounded.text }
    else some { s with sender := .check chunk }
  | .check chunk =>
    if s.overflow ≠ [] then some (s.coalesceInto chunk)
    else some { s with sender := .trySend chunk }
  | .trySend chunk =>
    if s.channelClosed then some { s with sender := .closed chunk }
    else if s.channel.length < deltaChannelCapacity then
      some { s with channel := s.channel ++ [chunk], sender := .idle }
    else some { s with sender := .full chunk }
  | .full chunk => some (s.coalesceInto chunk)
  | .locked cut => some { s with dropped := s.dropped + cut, sender := .notify }
  | .notify => some { s with notified := true, sender := .idle }
  | .closed chunk => some { s with dropped := s.dropped + byteLen chunk, sender := .idle }

def Sender.holdsOverflow : Sender → Bool
  | .locked _ => true
  | _ => false

def State.bound (budget : Nat) (s : State) (batch : List Char) : State :=
  let bounded := BoundedText.new batch (budget - s.forwardedTotal)
  { s with forwarder := .forward bounded.text bounded.cut }

def State.forwarderStep (budget : Nat) (s : State) : Option State :=
  match s.forwarder with
  | .top => some { s with forwarder := if s.cancelled then .loadProduced else .draining [] }
  | .draining batch =>
    match s.channel with
    | chunk :: rest => some { s with channel := rest, forwarder := .draining (batch ++ chunk) }
    | [] => some { s with forwarder := .overflow batch }
  | .overflow batch =>
    if s.sender.holdsOverflow then none
    else if batch ++ s.overflow = [] then some { s with overflow := [], forwarder := .waiting }
    else some ({ s with overflow := [] }.bound budget (batch ++ s.overflow))
  | .waiting => none
  | .lastOverflow =>
    if s.sender.holdsOverflow then none
    else if s.overflow = [] then some { s with forwarder := .loadProduced }
    else some ({ s with overflow := [] }.bound budget s.overflow)
  | .forward kept cut =>
    if kept = [] then some { s with forwarder := .dropRest cut }
    else
      some { s with
        forwardedTotal := s.forwardedTotal + byteLen kept
        forwarded := s.forwarded + byteLen kept
        forwarder := .emit kept cut }
  | .emit kept cut => some { s with emitted := s.emitted ++ kept, forwarder := .dropRest cut }
  | .dropRest cut => some { s with dropped := s.dropped + cut, forwarder := .top }
  | .loadProduced => some { s with forwarder := .loadForwarded s.produced }
  | .loadForwarded produced => some { s with forwarder := .loadDropped produced s.forwarded }
  | .loadDropped produced forwarded =>
    some { s with forwarder := .noteRetained (produced - forwarded - s.dropped) }
  | .noteRetained retained =>
    some { s with dropped := s.dropped + retained, forwarder := .close }
  | .close => some { s with channel := [], channelClosed := true, forwarder := .ended }
  | .ended => none

inductive Wake where
  | received
  | notified
  | hungUp
  | cancelled
  deriving DecidableEq

def State.wake (s : State) (w : Wake) : Option State :=
  match s.forwarder,w with
  | .waiting,.received =>
    match s.channel with
    | chunk :: rest => some { s with channel := rest, forwarder := .draining chunk }
    | [] => none
  | .waiting,.notified =>
    if s.notified then some { s with notified := false, forwarder := .draining [] } else none
  | .waiting,.hungUp =>
    if s.sender = .gone && s.channel.isEmpty then some { s with forwarder := .lastOverflow }
    else none
  | .waiting,.cancelled =>
    if s.cancelled then some { s with forwarder := .loadProduced } else none
  | _,_ => none

inductive Act where
  | send (chunk : List Char)
  | hangUp
  | sender
  | forwarder
  | wake (w : Wake)
  | cancel
  deriving DecidableEq

def State.step (budget : Nat) (s : State) : Act → Option State
  | .send chunk => s.send chunk
  | .hangUp => s.hangUp
  | .sender => s.senderStep
  | .forwarder => s.forwarderStep budget
  | .wake w => s.wake w
  | .cancel => some { s with cancelled := true }

variable {budget : Nat} {s t : State}

inductive SenderMove (s : State) : State → Prop where
  | keep (chunk : List Char) (h : s.sender = .cap chunk) :
      SenderMove s { s with sender := .check chunk }
  | cut (chunk : List Char) (h : s.sender = .cap chunk) :
      SenderMove s { s with
        dropped := s.dropped + (BoundedText.new chunk deltaMaxChunkBytes).cut
        sender := .check (BoundedText.new chunk deltaMaxChunkBytes).text }
  | merge (chunk : List Char) (h : s.sender = .check chunk) (ho : s.overflow ≠ []) :
      SenderMove s (s.coalesceInto chunk)
  | pass (chunk : List Char) (h : s.sender = .check chunk) (ho : s.overflow = []) :
      SenderMove s { s with sender := .trySend chunk }
  | refused (chunk : List Char) (h : s.sender = .trySend chunk) :
      SenderMove s { s with sender := .closed chunk }
  | queued (chunk : List Char) (h : s.sender = .trySend chunk) (hc : s.channelClosed = false) :
      SenderMove s { s with channel := s.channel ++ [chunk], sender := .idle }
  | full (chunk : List Char) (h : s.sender = .trySend chunk) (hc : s.channelClosed = false) :
      SenderMove s { s with sender := .full chunk }
  | spill (chunk : List Char) (h : s.sender = .full chunk) : SenderMove s (s.coalesceInto chunk)
  | unlock (cut : Nat) (h : s.sender = .locked cut) :
      SenderMove s { s with dropped := s.dropped + cut, sender := .notify }
  | notify (h : s.sender = .notify) : SenderMove s { s with notified := true, sender := .idle }
  | drop (chunk : List Char) (h : s.sender = .closed chunk) :
      SenderMove s { s with dropped := s.dropped + byteLen chunk, sender := .idle }

theorem senderStep_move (h : s.senderStep = some t) : SenderMove s t := by
  unfold State.senderStep at h
  cases hs : s.sender with simp only [hs] at h
  | idle | gone =>
    cases h
  | cap chunk =>
    split at h <;> cases h
    · exact .cut chunk hs
    · exact .keep chunk hs
  | check chunk =>
    split at h <;> cases h
    · exact .merge chunk hs (by assumption)
    · exact .pass chunk hs (not_not.mp (by assumption))
  | trySend chunk =>
    split at h
    · cases h
      exact .refused chunk hs
    rename_i hopen
    have hclosed := Bool.eq_false_iff.mpr hopen
    split at h <;> cases h
    · exact .queued chunk hs hclosed
    · exact .full chunk hs hclosed
  | full chunk =>
    cases h
    exact .spill chunk hs
  | locked cut =>
    cases h
    exact .unlock cut hs
  | notify =>
    cases h
    exact .notify hs
  | closed chunk =>
    cases h
    exact .drop chunk hs

theorem SenderMove.not_gone (h : SenderMove s t) : s.sender ≠ .gone := by
  intro hgone
  cases h <;> simp_all

inductive ForwarderMove (budget : Nat) (s : State) : State → Prop where
  | poll (h : s.forwarder = .top) : ForwarderMove budget s { s with forwarder := .draining [] }
  | stop (h : s.forwarder = .top) : ForwarderMove budget s { s with forwarder := .loadProduced }
  | receive (batch chunk : List Char) (rest : List (List Char)) (h : s.forwarder = .draining batch)
      (hc : s.channel = chunk :: rest) :
      ForwarderMove budget s { s with channel := rest, forwarder := .draining (batch ++ chunk) }
  | empty (batch : List Char) (h : s.forwarder = .draining batch) :
      ForwarderMove budget s { s with forwarder := .overflow batch }
  | nothing (h : s.forwarder = .overflow []) (ho : s.overflow = []) :
      ForwarderMove budget s { s with overflow := [], forwarder := .waiting }
  | take (batch : List Char) (h : s.forwarder = .overflow batch) :
      ForwarderMove budget s ({ s with overflow := [] }.bound budget (batch ++ s.overflow))
  | finish (h : s.forwarder = .lastOverflow) :
      ForwarderMove budget s { s with forwarder := .loadProduced }
  | takeLast (h : s.forwarder = .lastOverflow) :
      ForwarderMove budget s ({ s with overflow := [] }.bound budget s.overflow)
  | withhold (cut : Nat) (h : s.forwarder = .forward [] cut) :
      ForwarderMove budget s { s with forwarder := .dropRest cut }
  | count (kept : List Char) (cut : Nat) (h : s.forwarder = .forward kept cut) :
      ForwarderMove budget s { s with
        forwardedTotal := s.forwardedTotal + byteLen kept
        forwarded := s.forwarded + byteLen kept
        forwarder := .emit kept cut }
  | emit (kept : List Char) (cut : Nat) (h : s.forwarder = .emit kept cut) :
      ForwarderMove budget s { s with emitted := s.emitted ++ kept, forwarder := .dropRest cut }
  | dropRest (cut : Nat) (h : s.forwarder = .dropRest cut) :
      ForwarderMove budget s { s with dropped := s.dropped + cut, forwarder := .top }
  | loadProduced (h : s.forwarder = .loadProduced) :
      ForwarderMove budget s { s with forwarder := .loadForwarded s.produced }
  | loadForwarded (p : Nat) (h : s.forwarder = .loadForwarded p) :
      ForwarderMove budget s { s with forwarder := .loadDropped p s.forwarded }
  | loadDropped (p f : Nat) (h : s.forwarder = .loadDropped p f) :
      ForwarderMove budget s { s with forwarder := .noteRetained (p - f - s.dropped) }
  | noteRetained (r : Nat) (h : s.forwarder = .noteRetained r) :
      ForwarderMove budget s { s with dropped := s.dropped + r, forwarder := .close }
  | close (h : s.forwarder = .close) :
      ForwarderMove budget s { s with channel := [], channelClosed := true, forwarder := .ended }

theorem forwarderStep_move (h : s.forwarderStep budget = some t) : ForwarderMove budget s t := by
  unfold State.forwarderStep at h
  cases hf : s.forwarder with simp only [hf] at h
  | top =>
    cases h
    split
    · exact .stop hf
    · exact .poll hf
  | draining batch =>
    split at h <;> cases h
    · exact .receive batch _ _ hf (by assumption)
    · exact .empty batch hf
  | overflow batch =>
    split at h
    · cases h
    split at h <;> cases h
    · rename_i hempty
      obtain ⟨rfl,hoverflow⟩ := List.append_eq_nil_iff.mp hempty
      exact .nothing hf hoverflow
    · exact .take batch hf
  | waiting | ended =>
    cases h
  | lastOverflow =>
    split at h
    · cases h
    · split at h <;> cases h
      · exact .finish hf
      · exact .takeLast hf
  | forward kept cut =>
    split at h <;> cases h
    · rename_i hkept
      rw [hkept] at hf
      exact .withhold cut hf
    · exact .count kept cut hf
  | emit kept cut =>
    cases h
    exact .emit kept cut hf
  | dropRest cut =>
    cases h
    exact .dropRest cut hf
  | loadProduced =>
    cases h
    exact .loadProduced hf
  | loadForwarded p =>
    cases h
    exact .loadForwarded p hf
  | loadDropped p f =>
    cases h
    exact .loadDropped p f hf
  | noteRetained r =>
    cases h
    exact .noteRetained r hf
  | close =>
    cases h
    exact .close hf

theorem send_eq {chunk : List Char} (h : s.send chunk = some t) : s.sender = .idle ∧ t = { s with
      produced := s.produced + byteLen chunk
      text := s.text ++ chunk
      sender := if chunk = [] then .idle else .cap chunk } := by
  unfold State.send at h
  split at h
  · cases h
    exact ⟨by assumption,rfl⟩
  · cases h

theorem hangUp_eq (h : s.hangUp = some t) : s.sender = .idle ∧ t = { s with sender := .gone } := by
  unfold State.hangUp at h
  split at h
  · cases h
    exact ⟨by assumption,rfl⟩
  · cases h

inductive WakeMove (s : State) : State → Prop where
  | received (chunk : List Char) (rest : List (List Char)) (hc : s.channel = chunk :: rest) :
      WakeMove s { s with channel := rest, forwarder := .draining chunk }
  | notified : WakeMove s { s with notified := false, forwarder := .draining [] }
  | hungUp (hs : s.sender = .gone) (hc : s.channel = []) :
      WakeMove s { s with forwarder := .lastOverflow }
  | cancelled : WakeMove s { s with forwarder := .loadProduced }

theorem wake_move {w : Wake} (h : s.wake w = some t) : s.forwarder = .waiting ∧ WakeMove s t := by
  unfold State.wake at h
  split at h
  · rename_i hwaiting
    split at h
    · cases h
      exact ⟨hwaiting,.received _ _ (by assumption)⟩
    · cases h
  · rename_i hwaiting
    split at h <;> cases h
    exact ⟨hwaiting,.notified⟩
  · rename_i hwaiting
    split at h
    · rename_i hcond
      cases h
      rw [Bool.and_eq_true,decide_eq_true_eq,List.isEmpty_iff] at hcond
      exact ⟨hwaiting,.hungUp hcond.1 hcond.2⟩
    · cases h
  · rename_i hwaiting
    split at h <;> cases h
    exact ⟨hwaiting,.cancelled⟩
  · cases h

open List

structure ModelHistoryState where
  text : List Char
  originalBytes : Nat
  budget : Nat
  truncated : Bool
  /-- The counters of the lane. -/
  truncatedChunks : Nat
  droppedBytes : Nat

namespace ModelHistoryState

def new (budget : Nat) : ModelHistoryState := ⟨[],0,budget,false,0,0⟩

def push (s : ModelHistoryState) (chunk : List Char) : ModelHistoryState :=
  let bounded := BoundedText.new chunk (s.budget - byteLen s.text)
  let s := { s with
    originalBytes := s.originalBytes + byteLen chunk
    text := s.text ++ bounded.text }
  if bounded.retainedBytes < bounded.originalBytes then
    { s with
      truncated := true
      truncatedChunks := s.truncatedChunks + 1
      droppedBytes := s.droppedBytes + bounded.cut }
  else s

def pushAll (budget : Nat) (chunks : List (List Char)) : ModelHistoryState :=
  chunks.foldl push (new budget)

/-- The bytes add up to those of `all`. -/
structure Counted (budget : Nat) (all : List Char) (s : ModelHistoryState) : Prop where
  budget : s.budget = budget
  original : s.originalBytes = byteLen all
  total : byteLen s.text + s.droppedBytes = s.originalBytes
  truncated : s.truncated = true ↔ 0 < s.droppedBytes

variable {budget : Nat} {chunks : List (List Char)} {all : List Char} {s : ModelHistoryState}

theorem push_text (c : List Char) :
    (s.push c).text = s.text ++ truncateBytes (s.budget - byteLen s.text) c := by
  unfold push
  dsimp only
  split <;> rfl

theorem Counted.push (h : Counted budget all s) (c : List Char) :
    Counted budget (all ++ c) (s.push c) := by
  have hle := byteLen_truncateBytes_le (s.budget - byteLen s.text) c
  obtain ⟨hb,ho,ht,hd⟩ := h
  unfold ModelHistoryState.push
  dsimp only [BoundedText.new,BoundedText.cut]
  split <;> refine ⟨hb,?_,?_,?_⟩ <;> simp only [byteLen_append,hd,true_iff] <;> omega

theorem pushAll_concat (budget : Nat) (chunks : List (List Char)) (c : List Char) :
    pushAll budget (chunks ++ [c]) = (pushAll budget chunks).push c := foldl_concat ..

theorem counted_pushAll (budget : Nat) (chunks : List (List Char)) :
    Counted budget chunks.flatten (pushAll budget chunks) := by
  induction chunks using reverseRecOn with
  | nil => exact ⟨rfl,rfl,rfl,by simp [pushAll,new]⟩
  | append_singleton chunks c ih =>
    rw [pushAll_concat,flatten_concat]
    exact ih.push c

theorem text_concat (budget : Nat) (chunks : List (List Char)) (c : List Char) :
    (pushAll budget (chunks ++ [c])).text = (pushAll budget chunks).text ++
      truncateBytes (budget - byteLen (pushAll budget chunks).text) c := by
  rw [pushAll_concat,push_text,(counted_pushAll budget chunks).budget]

theorem text_of_fits (h : byteLen chunks.flatten ≤ budget) :
    (pushAll budget chunks).text = chunks.flatten := by
  induction chunks using reverseRecOn with
  | nil => rfl
  | append_singleton chunks c ih =>
    rw [flatten_concat,byteLen_append] at h
    rw [text_concat,ih (by omega),truncateBytes_of_le (by omega),flatten_concat]

theorem truncateBytes_initial_text (budget : Nat) (chunks : List (List Char)) :
    truncateBytes budget chunks.flatten <+: (pushAll budget chunks).text := by
  induction chunks using reverseRecOn with
  | nil => exact nil_prefix
  | append_singleton chunks c ih =>
    rw [flatten_concat,truncateBytes_append,text_concat]
    split
    · rename_i h
      exact text_of_fits h ▸ prefix_refl _
    · exact ih.trans (prefix_append _ _)

theorem truncateBytes_eq_nil {max : Nat} {c : List Char} :
    truncateBytes max c = [] ↔ ∀ x ∈ c.head?, max < x.utf8Size := by
  cases c with
  | nil => simp [truncateBytes]
  | cons x c =>
    rw [truncateBytes]
    split <;> simp <;> omega

theorem text_eq_iff (budget : Nat) (chunks : List (List Char)) :
    (pushAll budget chunks).text = truncateBytes budget chunks.flatten ↔
      ∀ before chunk after, chunks = before ++ chunk :: after → budget < byteLen before.flatten →
        ∀ x ∈ chunk.head?, budget - byteLen (truncateBytes budget before.flatten) < x.utf8Size := by
  induction chunks using reverseRecOn with
  | nil => simp [pushAll,new,truncateBytes]
  | append_singleton chunks c ih =>
    rw [Segments.forall_place_concat,← ih,flatten_concat,truncateBytes_append,text_concat]
    by_cases h : byteLen chunks.flatten ≤ budget
    · rw [if_pos h,text_of_fits h,truncateBytes_of_le h]
      simp [Nat.not_lt.mpr h]
    rw [if_neg h]
    constructor
    · intro he
      have hinitial := truncateBytes_initial_text budget chunks
      have hlen := congrArg length he
      have htext := hinitial.eq_of_length_le (by rw [length_append] at hlen; omega)
      rw [← htext,append_right_eq_self] at he
      exact ⟨htext.symm,fun _ => truncateBytes_eq_nil.mp he⟩
    · rintro ⟨htext,hc⟩
      rw [htext,truncateBytes_eq_nil.mpr (hc (Nat.lt_of_not_le h)),append_nil]

/-- The counts are right for every budget and chunks. The text is the longest prefix within the
budget exactly if no chunk behind it starts with a character that still fits. -/
theorem modelHistory_prefix_iff (budget : Nat) (chunks : List (List Char)) :
    (pushAll budget chunks).originalBytes = byteLen chunks.flatten ∧
      ((pushAll budget chunks).truncated = true ↔
        byteLen (pushAll budget chunks).text < (pushAll budget chunks).originalBytes) ∧
      (pushAll budget chunks).droppedBytes =
        (pushAll budget chunks).originalBytes - byteLen (pushAll budget chunks).text ∧
      (LongestWithin budget chunks.flatten (pushAll budget chunks).text ↔
        ∀ before chunk after, chunks = before ++ chunk :: after → budget < byteLen before.flatten →
          ∀ x ∈ chunk.head?, budget - byteLen (truncateBytes budget before.flatten) < x.utf8Size) := by
  obtain ⟨-,ho,ht,hd⟩ := counted_pushAll budget chunks
  rw [longestWithin_iff,text_eq_iff]
  exact ⟨ho,hd.trans (by omega),by omega,Iff.rfl⟩

/-- A character that is too wide for the budget is skipped, and the next one is kept. -/
theorem wide_character_skipped : (pushAll 3 ["a€".toList,"b".toList]).text = "ab".toList ∧
      ¬"ab".toList <+: ["a€".toList,"b".toList].flatten := by
  decide

end ModelHistoryState

open Runs

def Init (s : State) : Prop := s = .start

def Step (budget : Nat) (s : State) (act : Act) (t : State) : Prop := s.step budget act = some t

variable {act : Act}

/-- Counted for the user interface and not emitted yet. -/
def Forwarder.counted : Forwarder → List Char
  | .emit kept _ => kept
  | _ => []

def Forwarder.granted : Forwarder → List Char
  | .forward kept _ => kept
  | _ => []

structure Budgeted (budget : Nat) (s : State) : Prop where
  total : s.forwardedTotal = byteLen s.emitted + byteLen s.forwarder.counted
  room : s.forwardedTotal + byteLen s.forwarder.granted ≤ budget

section

variable (h : Budgeted budget s)

include h

theorem Budgeted.le : byteLen s.emitted ≤ budget := by
  have htotal := h.total
  have hroom := h.room
  omega

theorem Budgeted.move (hcounted : s.forwarder.counted = [])
    (htotal : t.forwardedTotal = s.forwardedTotal) (hemitted : t.emitted = s.emitted)
    (hcounted' : t.forwarder.counted = []) (hgranted : t.forwarder.granted = []) :
    Budgeted budget t := by
  have hold := h.total
  have hroom := h.room
  rw [hcounted] at hold
  refine ⟨?_,?_⟩
  · rw [htotal,hemitted,hcounted',hold]
  · rw [htotal,hgranted,byteLen_nil]
    omega

theorem Budgeted.bound (hcounted : s.forwarder.counted = []) (overflow batch : List Char) :
    Budgeted budget ({ s with overflow := overflow }.bound budget batch) := by
  have htotal := h.total
  have hroom := h.room
  have hkept := byteLen_truncateBytes (budget - s.forwardedTotal) batch
  rw [hcounted] at htotal
  refine ⟨htotal,?_⟩
  simp only [State.bound,Forwarder.granted,BoundedText.new]
  omega

theorem budgeted_forwarder (hmove : ForwarderMove budget s t) : Budgeted budget t := by
  have htotal := h.total
  have hroom := h.room
  cases hmove with
  | take batch hf | takeLast hf => exact h.bound (by rw [hf]; rfl) _ _
  | count kept cut hf =>
    rw [hf] at htotal hroom
    simp only [Forwarder.counted,Forwarder.granted,byteLen_nil] at htotal hroom
    refine ⟨?_,?_⟩
    · simp only [Forwarder.counted]
      omega
    · simpa only [Forwarder.granted,byteLen_nil,Nat.add_zero] using hroom
  | emit kept cut hf =>
    rw [hf] at htotal hroom
    simp only [Forwarder.counted,Forwarder.granted,byteLen_nil] at htotal hroom
    refine ⟨?_,?_⟩
    · simp only [Forwarder.counted,byteLen_append,byteLen_nil]
      omega
    · simpa only [Forwarder.granted,byteLen_nil] using hroom
  | poll hf | stop hf | nothing hf | finish hf | loadProduced hf | close hf
  | withhold n hf | dropRest n hf | loadForwarded n hf | noteRetained n hf =>
    exact h.move (by rw [hf]; rfl) rfl rfl rfl rfl
  | receive batch chunk rest hf | empty batch hf | loadDropped p f hf =>
      exact h.move (by rw [hf]; rfl) rfl rfl rfl rfl

theorem budgeted_step (hstep : Step budget s act t) : Budgeted budget t := by
  cases act with
  | send chunk =>
    obtain ⟨-,rfl⟩ := send_eq hstep
    exact ⟨h.total,h.room⟩
  | hangUp =>
    obtain ⟨-,rfl⟩ := hangUp_eq hstep
    exact ⟨h.total,h.room⟩
  | sender => cases senderStep_move hstep <;> exact ⟨h.total,h.room⟩
  | forwarder => exact budgeted_forwarder h (forwarderStep_move hstep)
  | wake w =>
    obtain ⟨hf,hmove⟩ := wake_move hstep
    cases hmove <;> exact h.move (by rw [hf]; rfl) rfl rfl rfl rfl
  | cancel =>
    cases hstep
    exact ⟨h.total,h.room⟩

end

def Sender.holds : Sender → List Char
  | .cap chunk | .check chunk | .trySend chunk | .full chunk | .closed chunk => chunk
  | .idle | .gone | .locked _ | .notify => []

/-- The text the task holds, apart from what it cuts off. -/
def Forwarder.holds : Forwarder → List Char
  | .draining batch | .overflow batch => batch
  | .forward kept _ | .emit kept _ => kept
  | _ => []

def Sender.bypasses : Sender → Bool
  | .trySend _ | .full _ => true
  | _ => false

/-- Emitted, held by the task, queued, in the overflow and held by `send`: in the order of
    production. -/
structure Ordered (s : State) : Prop where
  order : List.Sublist
    (s.emitted ++ s.forwarder.holds ++ s.channel.flatten ++ s.overflow ++ s.sender.holds) s.text
  bypass : s.sender.bypasses = true → s.overflow = []
  last : s.forwarder = .lastOverflow → s.sender = .gone ∧ s.channel = []

/-- The overflow is not taken while something older is queued. -/
def KeepsOrder (s : State) (act : Act) : Prop :=
  act = .forwarder → ∀ batch,s.forwarder = .overflow batch → s.overflow = [] ∨ s.channel = []

section

variable (h : Ordered s)

include h

theorem ordered_coalesce (hlast : s.forwarder ≠ .lastOverflow) :
    Ordered (s.coalesceInto s.sender.holds) := by
  have hkept := (truncateBytes_initial (deltaCoalesceCapBytes - byteLen s.overflow)
    s.sender.holds).sublist
  refine ⟨?_,?_,fun hf => absurd hf hlast⟩
  · have hholds : (s.coalesceInto s.sender.holds).sender.holds = [] := by
      unfold State.coalesceInto
      dsimp only
      split <;> rfl
    rw [hholds,append_nil]
    refine Sublist.trans ?_ h.order
    simp only [State.coalesceInto,BoundedText.new,← append_assoc]
    exact hkept.append_left _
  · intro hbypass
    unfold State.coalesceInto at hbypass
    dsimp only at hbypass
    split at hbypass <;> cases hbypass

theorem ordered_sender (hmove : SenderMove s t) : Ordered t := by
  have horder := h.order
  have hlast : s.forwarder ≠ .lastOverflow := fun hf => hmove.not_gone (h.last hf).1
  cases hmove with
  | keep chunk hs | refused chunk hs | unlock cut hs | notify hs =>
    rw [hs] at horder
    exact ⟨horder,nofun,fun hf => absurd hf hlast⟩
  | cut chunk hs =>
    rw [hs] at horder
    have hkept := (truncateBytes_initial deltaMaxChunkBytes chunk).sublist
    exact ⟨(hkept.append_left _).trans horder,nofun,fun hf => absurd hf hlast⟩
  | merge chunk hs | spill chunk hs =>
    have hcoalesce := ordered_coalesce h hlast
    rwa [hs] at hcoalesce
  | pass chunk hs ho =>
    rw [hs] at horder
    exact ⟨horder,fun _ => ho,fun hf => absurd hf hlast⟩
  | queued chunk hs =>
    have hempty := h.bypass (by rw [hs]; rfl)
    rw [hs,hempty] at horder
    refine ⟨?_,nofun,fun hf => absurd hf hlast⟩
    simpa only [hempty,Sender.holds,flatten_append,flatten_cons,flatten_nil,
      append_nil,append_assoc] using horder
  | full chunk hs =>
    have hempty := h.bypass (by rw [hs]; rfl)
    rw [hs] at horder
    exact ⟨horder,fun _ => hempty,fun hf => absurd hf hlast⟩
  | drop chunk hs =>
    refine ⟨?_,nofun,fun hf => absurd hf hlast⟩
    rw [Sender.holds,append_nil]
    exact (sublist_append_left _ _).trans horder

theorem Ordered.shrink
    (horder : Sublist (t.emitted ++ t.forwarder.holds ++ t.channel.flatten ++ t.overflow)
      (s.emitted ++ s.forwarder.holds ++ s.channel.flatten ++ s.overflow))
    (hsender : t.sender = s.sender) (htext : t.text = s.text)
    (hoverflow : s.overflow = [] → t.overflow = [])
    (hlast : t.forwarder = .lastOverflow → t.sender = .gone ∧ t.channel = []) : Ordered t := by
  refine ⟨?_,?_,hlast⟩
  · rw [hsender,htext]
    exact (horder.append_right _).trans h.order
  · rw [hsender]
    exact fun hbypass => hoverflow (h.bypass hbypass)

theorem ordered_forwarder (hkeeps : KeepsOrder s .forwarder) (hmove : ForwarderMove budget s t) :
    Ordered t := by
  cases hmove with
  | receive batch chunk rest hf hc =>
    refine h.shrink ?_ rfl rfl id nofun
    simp only [hf,hc,Forwarder.holds,flatten_cons,append_assoc]
    exact Sublist.refl _
  | empty batch hf =>
    refine h.shrink ?_ rfl rfl id nofun
    rw [hf]
    exact Sublist.refl _
  | nothing hf ho =>
    refine h.shrink ?_ rfl rfl (fun _ => rfl) nofun
    rw [hf,ho]
    exact Sublist.refl _
  | take batch hf =>
    refine h.shrink ?_ rfl rfl (fun _ => rfl) nofun
    have hkept := (truncateBytes_initial (budget - s.forwardedTotal) (batch ++ s.overflow)).sublist
    simp only [State.bound,Forwarder.holds,BoundedText.new,hf,append_nil]
    rcases hkeeps rfl batch hf with ho | hc
    · simp only [ho,append_nil] at hkept ⊢
      exact (hkept.append_left _).append_right _
    · rw [hc,flatten_nil,append_nil,append_nil,append_assoc]
      exact hkept.append_left _
  | takeLast hf =>
    refine h.shrink ?_ rfl rfl (fun _ => rfl) nofun
    have hkept := (truncateBytes_initial (budget - s.forwardedTotal) s.overflow).sublist
    simp only [State.bound,Forwarder.holds,BoundedText.new,hf,(h.last hf).2,flatten_nil,append_nil]
    exact hkept.append_left _
  | emit kept cut hf =>
    refine h.shrink ?_ rfl rfl id nofun
    simp only [hf,Forwarder.holds,append_nil]
    exact Sublist.refl _
  | close hf =>
    refine h.shrink ?_ rfl rfl id nofun
    simp only [hf,Forwarder.holds,append_nil,flatten_nil]
    exact (sublist_append_left _ _).append_right _
  | count kept cut hf | poll hf | stop hf | finish hf | loadProduced hf
  | withhold n hf | dropRest n hf | loadForwarded n hf | noteRetained n hf | loadDropped p f hf =>
    refine h.shrink ?_ rfl rfl id nofun
    rw [hf]
    exact Sublist.refl _

theorem ordered_step (hkeeps : KeepsOrder s act) (hstep : Step budget s act t) : Ordered t := by
  have horder := h.order
  cases act with
  | send chunk =>
    obtain ⟨hs,rfl⟩ := send_eq hstep
    have hholds : (if chunk = [] then Sender.idle else .cap chunk).holds = chunk := by
      by_cases hempty : chunk = []
      · rw [if_pos hempty,hempty]
        rfl
      · rw [if_neg hempty]
        rfl
    rw [hs,Sender.holds,append_nil] at horder
    refine ⟨?_,?_,fun hf => ?_⟩
    · dsimp only
      rw [hholds]
      exact horder.append_right _
    · dsimp only
      split <;> exact nofun
    · have hgone := (h.last hf).1
      rw [hs] at hgone
      cases hgone
  | hangUp =>
    obtain ⟨hs,rfl⟩ := hangUp_eq hstep
    rw [hs] at horder
    refine ⟨horder,nofun,fun hf => ⟨rfl,(h.last hf).2⟩⟩
  | sender => exact ordered_sender h (senderStep_move hstep)
  | forwarder => exact ordered_forwarder h hkeeps (forwarderStep_move hstep)
  | wake w =>
    obtain ⟨hf,hmove⟩ := wake_move hstep
    cases hmove with
    | received chunk rest hc =>
      refine h.shrink ?_ rfl rfl id nofun
      simp only [hf,hc,Forwarder.holds,flatten_cons,append_assoc,nil_append]
      exact Sublist.refl _
    | notified | cancelled =>
      refine h.shrink ?_ rfl rfl id nofun
      rw [hf]
      exact Sublist.refl _
    | hungUp hs hc =>
      refine h.shrink ?_ rfl rfl id (fun _ => ⟨hs,hc⟩)
      rw [hf]
      exact Sublist.refl _
  | cancel =>
    cases hstep
    exact ⟨horder,h.bypass,h.last⟩

end

def Sender.owes : Sender → Nat
  | .cap chunk | .check chunk | .trySend chunk | .full chunk | .closed chunk => byteLen chunk
  | .locked cut => cut
  | .idle | .gone | .notify => 0

def Forwarder.owes : Forwarder → Nat
  | .draining batch | .overflow batch => byteLen batch
  | .forward kept cut => byteLen kept + cut
  | .emit _ cut | .dropRest cut => cut
  | _ => 0

def State.stored (s : State) : Nat := byteLen s.channel.flatten + byteLen s.overflow

def Sender.atRest : Sender → Bool
  | .idle | .gone | .notify => true
  | _ => false

/-- Where the task is in its last accounting. -/
inductive Phase where
  | running
  | loading
  | noting
  | closing
  | finished
  deriving DecidableEq

def Forwarder.phase : Forwarder → Phase
  | .loadForwarded _ | .loadDropped _ _ => .loading
  | .noteRetained _ => .noting
  | .close => .closing
  | .ended => .finished
  | _ => .running

/-- The last accounting begins beside no `send`, no text is sent during it, and afterwards only
    if nothing was left in the overflow. -/
def KeepsAccount (s : State) : Act → Prop
  | .forwarder => s.forwarder = .loadProduced → s.sender.atRest = true
  | .send chunk => chunk ≠ [] →
    s.forwarder.phase = .running ∨ (s.forwarder.phase = .finished ∧ s.overflow = [])
  | _ => True

structure Balanced (s : State) : Prop where
  running : s.forwarder.phase = .running → s.channelClosed = false ∧
    s.produced = s.forwarded + s.dropped + s.sender.owes + s.forwarder.owes + s.stored
  loading : s.forwarder.phase = .loading → s.sender.atRest = true ∧
    s.produced = s.forwarded + s.dropped + s.stored
  loaded : ∀ p,s.forwarder = .loadForwarded p → p = s.produced
  loadedBoth : ∀ p f,s.forwarder = .loadDropped p f → p = s.produced ∧ f = s.forwarded
  noting : ∀ r,s.forwarder = .noteRetained r → s.sender.atRest = true ∧
    s.produced = s.forwarded + s.dropped + r
  closing : s.forwarder.phase = .closing → s.sender.atRest = true ∧
    s.produced = s.forwarded + s.dropped
  finished : s.forwarder.phase = .finished → s.channelClosed = true ∧
    s.produced = s.forwarded + s.dropped + s.sender.owes ∧
    (s.sender.atRest = false → s.overflow = [] ∧
      ∃ chunk,s.sender = .cap chunk ∨ s.sender = .check chunk ∨ s.sender = .trySend chunk ∨
        s.sender = .closed chunk)

theorem atRest_owes {sender : Sender} (h : sender.atRest = true) : sender.owes = 0 := by
  cases sender <;> simp_all [Sender.atRest,Sender.owes]

theorem Balanced.of_running (hphase : t.forwarder.phase = .running) (hopen : t.channelClosed = false)
    (hledger : t.produced
      = t.forwarded + t.dropped + t.sender.owes + t.forwarder.owes + t.stored) : Balanced t := by
  have hno : ∀ phase,t.forwarder.phase = phase → phase = .running := fun phase h => by
    rw [← h,hphase]
  refine ⟨fun _ => ⟨hopen,hledger⟩,(fun h => by cases hno _ h),?_,?_,?_,(fun h => by cases hno _ h),
    fun h => by cases hno _ h⟩
  · intro p hf
    rw [hf] at hphase
    cases hphase
  · intro p f hf
    rw [hf] at hphase
    cases hphase
  · intro r hf
    rw [hf] at hphase
    cases hphase

theorem Balanced.of_over (hphase : t.forwarder = .ended) (hclosed : t.channelClosed = true)
    (hledger : t.produced = t.forwarded + t.dropped + t.sender.owes)
    (hrest : t.sender.atRest = false → t.overflow = [] ∧
      ∃ chunk,t.sender = .cap chunk ∨ t.sender = .check chunk ∨ t.sender = .trySend chunk ∨
        t.sender = .closed chunk) : Balanced t := by
  refine ⟨?_,?_,?_,?_,?_,?_,fun _ => ⟨hclosed,hledger,hrest⟩⟩ <;> simp [hphase,Forwarder.phase]

/-- While the last accounting runs, a step that touches neither counter nor text keeps the
    ledger. -/
theorem Balanced.of_resting (h : Balanced s) (hrest : s.sender.atRest = true →
      t.sender.atRest = true) (hforwarder : t.forwarder = s.forwarder)
    (hphase : s.forwarder.phase ≠ .running) (hover : s.forwarder.phase ≠ .finished)
    (hproduced : t.produced = s.produced) (hforwarded : t.forwarded = s.forwarded)
    (hdropped : t.dropped = s.dropped) (hstored : t.stored = s.stored) : Balanced t := by
  refine ⟨?_,?_,?_,?_,?_,?_,?_⟩ <;> rw [hforwarder]
  · exact fun hp => absurd hp hphase
  · intro hp
    rw [hproduced,hforwarded,hdropped,hstored]
    exact ⟨hrest (h.loading hp).1,(h.loading hp).2⟩
  · rw [hproduced]
    exact h.loaded
  · rw [hproduced,hforwarded]
    exact h.loadedBoth
  · intro r hf
    rw [hproduced,hforwarded,hdropped]
    exact ⟨hrest (h.noting r hf).1,(h.noting r hf).2⟩
  · intro hp
    rw [hproduced,hforwarded,hdropped]
    exact ⟨hrest (h.closing hp).1,(h.closing hp).2⟩
  · exact fun hp => absurd hp hover

theorem Balanced.resting (h : Balanced s) (hphase : s.forwarder.phase ≠ .running)
    (hover : s.forwarder.phase ≠ .finished) : s.sender.atRest = true := by
  cases hf : s.forwarder with
  | loadForwarded p | loadDropped p f => exact (h.loading (by rw [hf]; rfl)).1
  | noteRetained r => exact (h.noting r hf).1
  | close => exact (h.closing (by rw [hf]; rfl)).1
  | ended => exact absurd (by rw [hf]; rfl) hover
  | top | draining b | overflow b | waiting | lastOverflow | forward a b | emit a b | dropRest a
  | loadProduced => exact absurd (by rw [hf]; rfl) hphase

theorem owes_cut (cut : Nat) :
    (if cut = 0 then Sender.notify else .locked cut).owes = cut := by
  by_cases hcut : cut = 0
  · rw [if_pos hcut,hcut]
    rfl
  · rw [if_neg hcut]
    rfl

theorem coalesce_ledger (s : State) (chunk : List Char) :
    (s.coalesceInto chunk).stored + (s.coalesceInto chunk).sender.owes
      = s.stored + byteLen chunk := by
  have hle := byteLen_truncateBytes_le (deltaCoalesceCapBytes - byteLen s.overflow) chunk
  unfold State.coalesceInto State.stored
  simp only [owes_cut]
  simp only [BoundedText.new,BoundedText.cut,byteLen_append]
  omega

theorem balanced_sender_running (h : Balanced s) (hphase : s.forwarder.phase = .running)
    (hmove : SenderMove s t) : Balanced t := by
  obtain ⟨hopen,hledger⟩ := h.running hphase
  cases hmove with refine .of_running hphase hopen ?_
  | keep chunk hs | pass chunk hs | refused chunk hs | full chunk hs | notify hs =>
    rwa [hs] at hledger
  | cut chunk hs =>
    have hle := byteLen_truncateBytes_le deltaMaxChunkBytes chunk
    rw [hs] at hledger
    simp only [Sender.owes,State.stored,BoundedText.new,BoundedText.cut] at hledger ⊢
    omega
  | merge chunk hs | spill chunk hs =>
    have hcoalesce := coalesce_ledger s chunk
    rw [hs] at hledger
    have hforwarder : (s.coalesceInto chunk).forwarder = s.forwarder := rfl
    have hproduced : (s.coalesceInto chunk).produced = s.produced := rfl
    have hforwarded : (s.coalesceInto chunk).forwarded = s.forwarded := rfl
    have hdropped : (s.coalesceInto chunk).dropped = s.dropped := rfl
    simp only [Sender.owes] at hledger
    rw [hforwarder,hproduced,hforwarded,hdropped]
    omega
  | queued chunk hs =>
    rw [hs] at hledger
    simp only [Sender.owes,State.stored,flatten_append,flatten_cons,flatten_nil,
      append_nil,byteLen_append] at hledger ⊢
    omega
  | unlock cut hs | drop chunk hs =>
    rw [hs] at hledger
    simp only [Sender.owes,State.stored] at hledger ⊢
    omega

theorem balanced_sender_over (h : Balanced s) (hphase : s.forwarder = .ended)
    (hmove : SenderMove s t) : Balanced t := by
  obtain ⟨hclosed,hledger,hbusy⟩ := h.finished (by rw [hphase]; rfl)
  cases hmove with
  | keep chunk hs =>
    have hrest := hbusy (by rw [hs]; rfl)
    rw [hs] at hledger
    exact .of_over hphase hclosed hledger fun _ => ⟨hrest.1,chunk,.inr (.inl rfl)⟩
  | cut chunk hs =>
    have hrest := hbusy (by rw [hs]; rfl)
    have hle := byteLen_truncateBytes_le deltaMaxChunkBytes chunk
    rw [hs] at hledger
    refine .of_over hphase hclosed ?_ fun _ => ⟨hrest.1,_,.inr (.inl rfl)⟩
    simp only [Sender.owes,BoundedText.new,BoundedText.cut] at hledger ⊢
    omega
  | merge chunk hs ho => exact absurd (hbusy (by rw [hs]; rfl)).1 ho
  | pass chunk hs ho =>
    rw [hs] at hledger
    exact .of_over hphase hclosed hledger fun _ => ⟨ho,chunk,.inr (.inr (.inl rfl))⟩
  | refused chunk hs =>
    have hrest := hbusy (by rw [hs]; rfl)
    rw [hs] at hledger
    exact .of_over hphase hclosed hledger fun _ => ⟨hrest.1,chunk,.inr (.inr (.inr rfl))⟩
  | queued chunk hs hopen | full chunk hs hopen =>
    rw [hclosed] at hopen
    cases hopen
  | spill chunk hs | unlock cut hs =>
    obtain ⟨-,other,hother⟩ := hbusy (by rw [hs]; rfl)
    rw [hs] at hother
    simp at hother
  | notify hs =>
    rw [hs] at hledger
    exact .of_over hphase hclosed hledger nofun
  | drop chunk hs =>
    rw [hs] at hledger
    refine .of_over hphase hclosed ?_ nofun
    simp only [Sender.owes] at hledger ⊢
    omega

theorem phase_over {f : Forwarder} (h : f.phase = .finished) : f = .ended := by
  cases f <;> simp_all [Forwarder.phase]

theorem balanced_sender (h : Balanced s) (hmove : SenderMove s t) : Balanced t := by
  by_cases hrunning : s.forwarder.phase = .running
  · exact balanced_sender_running h hrunning hmove
  by_cases hover : s.forwarder.phase = .finished
  · exact balanced_sender_over h (phase_over hover) hmove
  have hrest := h.resting hrunning hover
  cases hmove with
  | notify hs => exact h.of_resting (fun _ => rfl) rfl hrunning hover rfl rfl rfl rfl
  | keep chunk hs | cut chunk hs | merge chunk hs | pass chunk hs | refused chunk hs
  | queued chunk hs | full chunk hs | spill chunk hs | unlock chunk hs | drop chunk hs =>
    rw [hs] at hrest
    cases hrest

theorem balanced_send (h : Balanced s) {chunk : List Char} (hkeeps : KeepsAccount s (.send chunk))
    (hs : s.sender = .idle) :
    Balanced { s with
      produced := s.produced + byteLen chunk
      text := s.text ++ chunk
      sender := if chunk = [] then .idle else .cap chunk } := by
  by_cases hempty : chunk = []
  · rw [if_pos hempty,hempty,byteLen_nil,Nat.add_zero]
    exact ⟨fun hp => by rw [← hs]; exact h.running hp,fun hp => by rw [← hs]; exact h.loading hp,
      h.loaded,h.loadedBoth,fun r hf => by rw [← hs]; exact h.noting r hf,
      fun hp => by rw [← hs]; exact h.closing hp,fun hp => by rw [← hs]; exact h.finished hp⟩
  · rw [if_neg hempty]
    rcases hkeeps hempty with hrunning | ⟨hover,hoverflow⟩
    · obtain ⟨hopen,hledger⟩ := h.running hrunning
      refine .of_running hrunning hopen ?_
      rw [hs] at hledger
      simp only [Sender.owes,State.stored] at hledger ⊢
      omega
    · obtain ⟨hclosed,hledger,-⟩ := h.finished hover
      refine .of_over (phase_over hover) hclosed ?_ fun _ => ⟨hoverflow,chunk,.inl rfl⟩
      rw [hs] at hledger
      simp only [Sender.owes] at hledger ⊢
      omega

theorem bound_ledger (budget : Nat) (s : State) (batch : List Char) :
    (s.bound budget batch).forwarder.owes = byteLen batch := by
  have hle := byteLen_truncateBytes_le (budget - s.forwardedTotal) batch
  simp only [State.bound,Forwarder.owes,BoundedText.new,BoundedText.cut]
  omega

theorem balanced_forwarder (h : Balanced s) (hkeeps : KeepsAccount s .forwarder)
    (hmove : ForwarderMove budget s t) : Balanced t := by
  cases hmove with
  | poll hf | stop hf | finish hf | empty batch hf | emit kept cut hf =>
    obtain ⟨hopen,hledger⟩ := h.running (by rw [hf]; rfl)
    rw [hf] at hledger
    exact .of_running rfl hopen hledger
  | receive batch chunk rest hf hc =>
    obtain ⟨hopen,hledger⟩ := h.running (by rw [hf]; rfl)
    refine .of_running rfl hopen ?_
    simp only [hf,State.stored,hc,Forwarder.owes,flatten_cons,byteLen_append] at hledger ⊢
    omega
  | nothing hf ho =>
    obtain ⟨hopen,hledger⟩ := h.running (by rw [hf]; rfl)
    refine .of_running rfl hopen ?_
    simp only [hf,State.stored,ho] at hledger ⊢
    exact hledger
  | take batch hf =>
    obtain ⟨hopen,hledger⟩ := h.running (by rw [hf]; rfl)
    refine .of_running rfl hopen ?_
    rw [bound_ledger]
    simp only [hf,State.bound,State.stored,Forwarder.owes,byteLen_append,byteLen_nil] at hledger ⊢
    omega
  | takeLast hf =>
    obtain ⟨hopen,hledger⟩ := h.running (by rw [hf]; rfl)
    refine .of_running rfl hopen ?_
    rw [bound_ledger]
    simp only [hf,State.bound,State.stored,Forwarder.owes,byteLen_nil] at hledger ⊢
    omega
  | withhold cut hf =>
    obtain ⟨hopen,hledger⟩ := h.running (by rw [hf]; rfl)
    refine .of_running rfl hopen ?_
    simp only [hf,State.stored,Forwarder.owes,byteLen_nil] at hledger ⊢
    omega
  | count kept cut hf | dropRest cut hf =>
    obtain ⟨hopen,hledger⟩ := h.running (by rw [hf]; rfl)
    refine .of_running rfl hopen ?_
    simp only [hf,State.stored,Forwarder.owes] at hledger ⊢
    omega
  | loadProduced hf =>
    obtain ⟨-,hledger⟩ := h.running (by rw [hf]; rfl)
    have hrest := hkeeps hf
    rw [hf,atRest_owes hrest] at hledger
    refine ⟨nofun,fun _ => ⟨hrest,hledger⟩,?_,nofun,nofun,nofun,nofun⟩
    intro p hp
    cases hp
    rfl
  | loadForwarded p hf =>
    refine ⟨nofun,fun _ => h.loading (by rw [hf]; rfl),nofun,?_,nofun,nofun,
      nofun⟩
    intro q f hp
    cases hp
    exact ⟨h.loaded p hf,rfl⟩
  | loadDropped p f hf =>
    obtain ⟨hrest,hledger⟩ := h.loading (by rw [hf]; rfl)
    obtain ⟨hp,hf'⟩ := h.loadedBoth p f hf
    refine ⟨nofun,nofun,nofun,nofun,?_,nofun,nofun⟩
    intro r hr
    cases hr
    refine ⟨hrest,?_⟩
    dsimp only
    omega
  | noteRetained r hf =>
    obtain ⟨hrest,hledger⟩ := h.noting r hf
    refine ⟨nofun,nofun,nofun,nofun,nofun,fun _ => ⟨hrest,?_⟩,
      nofun⟩
    dsimp only
    omega
  | close hf =>
    obtain ⟨hrest,hledger⟩ := h.closing (by rw [hf]; rfl)
    refine .of_over rfl rfl ?_ fun hbusy => ?_
    · dsimp only
      rw [atRest_owes hrest,hledger,Nat.add_zero]
    · dsimp only at hbusy
      rw [hrest] at hbusy
      cases hbusy

theorem balanced_step (h : Balanced s) (hkeeps : KeepsAccount s act)
    (hstep : Step budget s act t) : Balanced t := by
  cases act with
  | send chunk =>
    obtain ⟨hs,rfl⟩ := send_eq hstep
    exact balanced_send h hkeeps hs
  | hangUp =>
    obtain ⟨hs,rfl⟩ := hangUp_eq hstep
    by_cases hrunning : s.forwarder.phase = .running
    · obtain ⟨hopen,hledger⟩ := h.running hrunning
      rw [hs] at hledger
      exact .of_running hrunning hopen hledger
    · by_cases hover : s.forwarder.phase = .finished
      · obtain ⟨hclosed,hledger,-⟩ := h.finished hover
        rw [hs] at hledger
        exact .of_over (phase_over hover) hclosed hledger nofun
      · exact h.of_resting (fun _ => rfl) rfl hrunning hover rfl rfl rfl rfl
  | sender => exact balanced_sender h (senderStep_move hstep)
  | forwarder => exact balanced_forwarder h hkeeps (forwarderStep_move hstep)
  | wake w =>
    obtain ⟨hf,hmove⟩ := wake_move hstep
    obtain ⟨hopen,hledger⟩ := h.running (by rw [hf]; rfl)
    cases hmove with
    | received chunk rest hc =>
      refine .of_running rfl hopen ?_
      simp only [hf,State.stored,hc,Forwarder.owes,flatten_cons,byteLen_append] at hledger ⊢
      omega
    | notified | hungUp | cancelled =>
      rw [hf] at hledger
      exact .of_running rfl hopen hledger
  | cancel =>
    cases hstep
    exact ⟨h.running,h.loading,h.loaded,h.loadedBoth,h.noting,h.closing,h.finished⟩

def Sender.isIdle : Sender → Bool
  | .idle | .gone => true
  | _ => false

/-- Under every interleaving, with or without a cancellation: what is emitted stays within the
    budget; it is the produced text with parts left out in every run that takes the overflow
    only behind an empty channel; and in every run whose last accounting is kept apart from
    `send`, the counters balance once the task has ended and the producer is idle. -/
theorem output_lane_keeps (budget : Nat) :
    (∀ s,Reachable Init (Next (Step budget)) s → byteLen s.emitted ≤ budget) ∧
    (∀ s,Reachable Init (Under (Step budget) KeepsOrder) s → Sublist s.emitted s.text) ∧
    (∀ s,Reachable Init (Under (Step budget) KeepsAccount) s → s.forwarder = .ended →
      s.sender.isIdle = true → s.produced = s.forwarded + s.dropped) := by
  refine ⟨fun s h => ?_,fun s h => ?_,fun s h hended hidle => ?_⟩
  · have hbudgeted : Budgeted budget s := h.invariant (Budgeted budget)
      (fun a ha => by subst ha; exact ⟨rfl,Nat.zero_le _⟩)
      (fun a b ha hab => by
        obtain ⟨act,hstep⟩ := hab
        exact budgeted_step ha hstep)
    exact hbudgeted.le
  · have hordered : Ordered s := h.invariant Ordered (fun a ha => by
        subst ha
        exact ⟨Sublist.refl _,nofun,nofun⟩)
      (fun a b ha hab => by
        obtain ⟨act,hkeeps,hstep⟩ := hab
        exact ordered_step ha hkeeps hstep)
    refine Sublist.trans ?_ hordered.order
    simp only [append_assoc]
    exact sublist_append_left _ _
  · have hbalanced : Balanced s := h.invariant Balanced
      (fun a ha => by subst ha; exact .of_running rfl rfl rfl)
      (fun a b ha hab => by
        obtain ⟨act,hkeeps,hstep⟩ := hab
        exact balanced_step ha hkeeps hstep)
    obtain ⟨-,hledger,-⟩ := hbalanced.finished (by rw [hended]; rfl)
    have hrest : s.sender.atRest = true := by
      cases hs : s.sender <;> simp_all [Sender.isIdle,Sender.atRest]
    rwa [atRest_owes hrest] at hledger

def runActs (budget : Nat) (s : State) : List Act → Option State
  | [] => some s
  | act :: acts => (s.step budget act).bind fun t => runActs budget t acts

/-- A schedule, as far as its steps meet a condition. -/
def runUnder (budget : Nat) (C : State → Act → Prop) [∀ s act,Decidable (C s act)] (s : State) :
    List Act → Option State
  | [] => some s
  | act :: acts =>
    if C s act then (s.step budget act).bind fun t => runUnder budget C t acts else none

theorem reachable_runUnder {C : State → Act → Prop} [∀ s act,Decidable (C s act)]
    (acts : List Act) (h : Reachable Init (Under (Step budget) C) s)
    (hrun : runUnder budget C s acts = some t) : Reachable Init (Under (Step budget) C) t := by
  induction acts generalizing s with
  | nil =>
    cases hrun
    exact h
  | cons act acts ih =>
    rw [runUnder] at hrun
    split at hrun
    · rename_i hkeeps
      obtain ⟨next,hstep,hrest⟩ := Option.bind_eq_some_iff.mp hrun
      exact ih (h.step ⟨act,hkeeps,hstep⟩) hrest
    · cases hrun

instance (s : State) (act : Act) : Decidable (KeepsAccount s act) :=
  match act with
  | .forwarder => inferInstanceAs (Decidable (_ → _))
  | .send _ => inferInstanceAs (Decidable (_ → _))
  | .hangUp => .isTrue trivial
  | .sender => .isTrue trivial
  | .wake _ => .isTrue trivial
  | .cancel => .isTrue trivial

def Forwarder.takesOverflow : Forwarder → Bool
  | .overflow _ => true
  | _ => false

instance (s : State) (act : Act) : Decidable (KeepsOrder s act) :=
  decidable_of_iff (act = .forwarder → s.forwarder.takesOverflow = true →
    s.overflow = [] ∨ s.channel = [])
    (by unfold KeepsOrder; cases s.forwarder <;> simp [Forwarder.takesOverflow])

def sendQueued (chunk : List Char) : List Act := [.send chunk,.sender,.sender,.sender]

def sendSpilled (chunk : List Char) : List Act :=
  [.send chunk,.sender,.sender,.sender,.sender,.sender]

def fillChannel : List Act := (List.replicate deltaChannelCapacity (sendQueued ['a'])).flatten

def forwards (n : Nat) : List Act := List.replicate n .forwarder

def reordering : List Act :=
  forwards 2 ++ fillChannel ++ sendSpilled ['b'] ++ forwards 5 ++
    forwards (deltaChannelCapacity + 4)

def afterCancel : List Act :=
  fillChannel ++ sendSpilled ['b'] ++ [.cancel] ++ forwards 6 ++
    [.send ['c'],.sender,.sender,.sender]

theorem lane_reorders_and_loses :
    (∃ s,runActs 100 .start reordering = some s ∧ s.emitted = 'b' :: replicate 64 'a' ∧
      s.text = replicate 64 'a' ++ ['b'] ∧ ¬ Sublist s.emitted s.text) ∧
    ∃ s,runActs 100 .start afterCancel = some s ∧ s.forwarder = .ended ∧ s.sender = .idle ∧
      s.produced = 66 ∧ s.forwarded = 0 ∧ s.dropped = 65 := by
  have hreorders : (runActs 100 .start reordering).map (fun s => (s.emitted,s.text))
      = some ('b' :: replicate 64 'a',replicate 64 'a' ++ ['b']) := by decide +kernel
  have hloses : (runActs 100 .start afterCancel).map
      (fun s => (s.forwarder,s.sender,s.produced,s.forwarded,s.dropped))
      = some (.ended,.idle,66,0,65) := by decide +kernel
  obtain ⟨s,hs,heq⟩ := Option.map_eq_some_iff.mp hreorders
  obtain ⟨t,ht,htq⟩ := Option.map_eq_some_iff.mp hloses
  simp only [Prod.mk.injEq] at heq htq
  refine ⟨⟨s,hs,heq.1,heq.2,fun hsub => ?_⟩,t,ht,htq⟩
  rw [heq.1,heq.2] at hsub
  have hsame := hsub.eq_of_length (by decide +kernel)
  exact absurd (congrArg head? hsame) (by decide +kernel)

def delivered : List Act := sendQueued ['h','i'] ++ forwards 7 ++ [.cancel] ++ forwards 6

/-- The overflow is taken once the channel has been drained. -/
def drained : List Act := fillChannel ++ sendSpilled ['b'] ++ forwards (deltaChannelCapacity + 6)

theorem output_lane_keeps_delivered :
    (∃ s,runUnder 100 KeepsOrder .start drained = some s ∧ s.emitted.length = 65 ∧
      Sublist s.emitted s.text) ∧
    ∃ s,runUnder 100 KeepsAccount .start delivered = some s ∧ s.forwarder = .ended ∧
      s.produced = s.forwarded + s.dropped := by
  have hemits : (runUnder 100 KeepsOrder .start drained).map (fun s => s.emitted.length) =
      some 65 := by decide +kernel
  have hends : (runUnder 100 KeepsAccount .start delivered).map
      (fun s => (s.forwarder,s.sender)) = some (.ended,.idle) := by decide +kernel
  obtain ⟨s,hs,hlen⟩ := Option.map_eq_some_iff.mp hemits
  obtain ⟨t,ht,heq⟩ := Option.map_eq_some_iff.mp hends
  simp only [Prod.mk.injEq] at heq
  have hreach := reachable_runUnder delivered (.init rfl) ht
  refine ⟨⟨s,hs,hlen,?_⟩,t,ht,heq.1,?_⟩
  · exact (output_lane_keeps 100).2.1 s (reachable_runUnder drained (.init rfl) hs)
  · exact (output_lane_keeps 100).2.2 t hreach heq.1 (by rw [heq.2]; rfl)

end Synaps.Output
