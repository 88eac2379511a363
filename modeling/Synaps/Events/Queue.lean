import Synaps.Lib.Runs
import Mathlib.Data.List.Perm.Basic
import Mathlib.Data.List.Nodup

/-!
The event queue of a session: bounded, with critical events in front and high ones behind
them, and a path that forces an event to the front whatever its severity.
-/

set_option autoImplicit false

namespace Synaps.Events

open Runs List

inductive Severity where
  | low | medium | high | critical
  deriving DecidableEq

structure Event where
  id : String
  text : String
  severity : Option Severity
  deriving DecidableEq

section Queue

variable {α : Type} (severity : α → Option Severity) (capacity : Nat)

def isCritical (event : α) : Bool := severity event = some .critical

def push (event : α) (q : List α) : List α × Except String Unit :=
  if capacity ≤ q.length then (q,.error s!"event queue full (capacity {capacity})")
  else
    match severity event with
    | some .critical => (event :: q,.ok ())
    | some .high =>
      let idx := (q.takeWhile (isCritical severity)).length
      (q.insertIdx idx event,.ok ())
    | _ => (q ++ [event],.ok ())

def pushPriority (event : α) (q : List α) : List α × Option α :=
  if capacity ≤ q.length then (event :: q.dropLast,q.getLast?) else (event :: q,none)

def pop (q : List α) : Option α × List α := (q.head?,q.tail)

def drain (q : List α) : List α × List α := (q,[])

def urgency (event : α) : Nat :=
  match severity event with
  | some .critical => 0
  | some .high => 1
  | _ => 2

def criticalsLead (q : List α) : Bool :=
  (q.dropWhile (isCritical severity)).all fun event => !isCritical severity event

end Queue

structure Accepted where
  serial : Nat
  forced : Bool
  event : Event
  deriving DecidableEq

def Accepted.severity (a : Accepted) : Option Severity := a.event.severity

/-- A queue, with what it has accepted, delivered and evicted so far. -/
structure State where
  queue : List Accepted
  accepted : List Accepted
  delivered : List Accepted
  evicted : List Accepted
  deriving DecidableEq

inductive Op where
  | push (event : Event)
  | pushPriority (event : Event)
  | pop
  | drain

def State.next (s : State) (forced : Bool) (event : Event) : Accepted :=
  ⟨s.accepted.length,forced,event⟩

def State.step (capacity : Nat) (s : State) : Op → State
  | .push event =>
    let a := s.next false event
    match push Accepted.severity capacity a s.queue with
    | (q,.ok ()) => { s with queue := q, accepted := s.accepted ++ [a] }
    | (q,.error _) => { s with queue := q }
  | .pushPriority event =>
    let a := s.next true event
    let (q,evicted) := pushPriority capacity a s.queue
    { s with queue := q, accepted := s.accepted ++ [a], evicted := s.evicted ++ evicted.toList }
  | .pop =>
    let (event,q) := pop s.queue
    { s with queue := q, delivered := s.delivered ++ event.toList }
  | .drain =>
    let (events,q) := drain s.queue
    { s with queue := q, delivered := s.delivered ++ events }

def Init (s : State) : Prop := s = ⟨[],[],[],[]⟩

def Step (capacity : Nat) (s t : State) : Prop := ∃ op, t = s.step capacity op

section Push

variable {α : Type} {severity : α → Option Severity} {capacity : Nat} {a : α} {q : List α}

theorem push_refused {e : String} (h : (push severity capacity a q).2 = .error e) :
    (push severity capacity a q).1 = q := by
  unfold push at h ⊢
  split
  · rfl
  · rename_i hroom
    rw [if_neg hroom] at h
    split at h <;> cases h

theorem insertIdx_takeWhile (p : α → Bool) :
    q.insertIdx (q.takeWhile p).length a = q.takeWhile p ++ a :: q.dropWhile p := by
  induction q with
  | nil => rfl
  | cons x q ih =>
    by_cases hx : p x
    · simp [hx,ih]
    · simp [hx]

structure Placed (severity : α → Option Severity) (a : α) (before after : List α) : Prop where
  critical : severity a = some .critical → before = []
  high : severity a = some .high → before = (before ++ after).takeWhile (isCritical severity)
  rest : urgency severity a = 2 → after = []

theorem push_ok (h : (push severity capacity a q).2 = .ok ()) :
    q.length < capacity ∧ ∃ before after, q = before ++ after ∧
      (push severity capacity a q).1 = before ++ a :: after ∧ Placed severity a before after := by
  unfold push at h ⊢
  split at h
  · cases h
  rename_i hroom
  refine ⟨Nat.lt_of_not_le hroom,?_⟩
  rw [if_neg hroom]
  split
  · rename_i hs
    exact ⟨[],q,rfl,rfl,fun _ => rfl,by simp [hs],by simp [urgency,hs]⟩
  · rename_i hs
    refine ⟨q.takeWhile (isCritical severity),q.dropWhile (isCritical severity),
      takeWhile_append_dropWhile.symm,insertIdx_takeWhile _,by simp [hs],fun _ => ?_,
      by simp [urgency,hs]⟩
    rw [takeWhile_append_dropWhile]
  · rename_i hcritical hhigh
    exact ⟨q,[],by simp,rfl,fun hc => absurd hc hcritical,fun hh => absurd hh hhigh,fun _ => rfl⟩

theorem urgency_critical {x : α} : urgency severity x = 0 ↔ severity x = some .critical := by
  unfold urgency
  split <;> simp_all

theorem urgency_high {x : α} : urgency severity x = 1 ↔ severity x = some .high := by
  unfold urgency
  split <;> simp_all

theorem urgency_le_two (x : α) : urgency severity x ≤ 2 := by
  unfold urgency
  split <;> omega

/-- An event is put ahead of no more urgent one, exactly when it is not a high event that
    finds a critical one behind another event. -/
theorem Placed.ahead_iff {before after : List α} (h : Placed severity a before after) :
    (∀ x ∈ after,urgency severity a ≤ urgency severity x) ↔
      (severity a = some .high → criticalsLead severity (before ++ after) = true) := by
  by_cases hhigh : severity a = some .high
  · have hurgency : urgency severity a = 1 := urgency_high.mpr hhigh
    have hafter : (before ++ after).dropWhile (isCritical severity) = after := by
      have hsplit := @takeWhile_append_dropWhile _ (isCritical severity) (before ++ after)
      rw [← h.high hhigh] at hsplit
      exact append_cancel_left hsplit
    simp only [hhigh,true_implies,criticalsLead,hafter,all_eq_true,hurgency]
    refine forall₂_congr fun x _ => ?_
    rw [Nat.one_le_iff_ne_zero,Ne,urgency_critical]
    simp [isCritical]
  · refine iff_of_true (fun x hx => ?_) fun hc => absurd hc hhigh
    have hle := @urgency_le_two _ severity a
    have hone : urgency severity a ≠ 1 := fun hc => hhigh (urgency_high.mp hc)
    by_cases htwo : urgency severity a = 2
    · rw [h.rest htwo] at hx
      cases hx
    · omega

end Push

def Accepted.plain (a : Accepted) : Bool := !a.forced && urgency Accepted.severity a == 2

structure Inv (capacity : Nat) (s : State) : Prop where
  bounded : s.queue.length ≤ capacity
  serials : s.accepted.map (·.serial) = List.range s.accepted.length
  conserved : s.accepted.Perm (s.delivered ++ s.queue ++ s.evicted)
  ordered : ((s.delivered ++ s.queue).filter (·.plain)).Pairwise (·.serial < ·.serial)

section Steps

variable {capacity : Nat} {s : State}

theorem inv_init (s : State) (h : Init s) : Inv capacity s := by
  subst h
  exact ⟨Nat.zero_le _,rfl,Perm.refl _,Pairwise.nil⟩

theorem serials_next (h : s.accepted.map (·.serial) = range s.accepted.length)
    (forced : Bool) (event : Event) :
    (s.accepted ++ [s.next forced event]).map (·.serial)
      = range (s.accepted ++ [s.next forced event]).length := by
  rw [length_append,length_singleton,range_succ,map_append,h]
  rfl

variable {a : Accepted}

theorem Inv.serial_lt (h : Inv capacity s) (ha : a ∈ s.accepted) :
    a.serial < s.accepted.length := by
  have hmem : a.serial ∈ s.accepted.map (·.serial) := mem_map_of_mem ha
  rw [h.serials] at hmem
  exact mem_range.mp hmem

theorem Inv.held_lt (h : Inv capacity s) (ha : a ∈ s.delivered ++ s.queue) :
    a.serial < s.accepted.length :=
  h.serial_lt (h.conserved.mem_iff.mpr (mem_append_left _ ha))

theorem conserved_next {accepted before after evicted : List Accepted}
    (h : accepted.Perm (before ++ after ++ evicted)) :
    (accepted ++ [a]).Perm (before ++ a :: after ++ evicted) := by
  have hmiddle : (before ++ a :: (after ++ evicted)).Perm (a :: (before ++ (after ++ evicted))) :=
    perm_middle
  rw [← append_assoc] at hmiddle
  rw [append_assoc,cons_append]
  exact ((perm_append_singleton _ _).trans (h.cons a)).trans hmiddle.symm

theorem ordered_skip {before after : List Accepted} (ha : a.plain = false)
    (h : ((before ++ after).filter (·.plain)).Pairwise (·.serial < ·.serial)) :
    ((before ++ a :: after).filter (·.plain)).Pairwise (·.serial < ·.serial) := by
  rw [filter_append,filter_cons_of_neg (by simp [ha]),← filter_append]
  exact h

theorem ordered_last {held : List Accepted} (ha : ∀ x ∈ held,x.serial < a.serial)
    (h : (held.filter (·.plain)).Pairwise (·.serial < ·.serial)) :
    ((held ++ [a]).filter (·.plain)).Pairwise (·.serial < ·.serial) := by
  rw [filter_append,pairwise_append]
  refine ⟨h,(pairwise_singleton _ a).filter _,fun x hx y hy => ?_⟩
  rw [mem_singleton.mp (mem_of_mem_filter hy)]
  exact ha x (mem_of_mem_filter hx)

theorem inv_push (event : Event) (h : Inv capacity s) :
    Inv capacity (s.step capacity (.push event)) := by
  simp only [State.step]
  split
  case h_2 q e hpush =>
    have hrefused := push_refused (congrArg Prod.snd hpush)
    rw [hpush] at hrefused
    simp only at hrefused
    subst hrefused
    exact h
  case h_1 q hpush =>
    obtain ⟨hroom,before,after,hsplit,hq,hplaced⟩ := push_ok (congrArg Prod.snd hpush)
    rw [hpush] at hq
    simp only at hq
    subst hq
    have hconserved := h.conserved
    have hordered := h.ordered
    rw [hsplit,← append_assoc] at hconserved hordered
    refine ⟨?_,serials_next h.serials false event,?_,?_⟩
    · simp only [hsplit,length_append] at hroom
      simp only [length_append,length_cons]
      omega
    · simpa only [append_assoc] using conserved_next hconserved
    · simp only [← append_assoc]
      -- an event of the rest goes behind all it could overtake
      by_cases hrest : urgency Accepted.severity (s.next false event) = 2
      · obtain rfl := hplaced.rest hrest
        rw [append_nil] at hordered hsplit
        exact ordered_last (fun x hx => h.held_lt (by rwa [hsplit])) hordered
      · exact ordered_skip (by simp [Accepted.plain,hrest]) hordered

theorem pushPriority_spec {α : Type} (capacity : Nat) (a : α) (q : List α) :
    ∃ kept,(pushPriority capacity a q).1 = a :: kept ∧
      q = kept ++ (pushPriority capacity a q).2.toList ∧
      (q.length ≤ capacity → 0 < capacity → kept.length < capacity) := by
  unfold pushPriority
  split
  · rename_i hfull
    rcases q.eq_nil_or_concat' with rfl | ⟨kept,last,rfl⟩
    · exact ⟨[],rfl,rfl,fun _ hpos => hpos⟩
    · refine ⟨kept,by simp,by simp,fun hle _ => ?_⟩
      simp only [length_append,length_singleton] at hle
      omega
  · rename_i hroom
    exact ⟨q,rfl,by simp,fun _ _ => Nat.lt_of_not_le hroom⟩

theorem inv_pushPriority (hpos : 0 < capacity) (event : Event) (h : Inv capacity s) :
    Inv capacity (s.step capacity (.pushPriority event)) := by
  obtain ⟨kept,hq,hsplit,hlen⟩ := pushPriority_spec capacity (s.next true event) s.queue
  have hconserved := h.conserved
  have hordered := h.ordered
  rw [hsplit] at hconserved hordered
  simp only [State.step]
  refine ⟨?_,serials_next h.serials true event,?_,?_⟩
  · simp only [hq,length_cons]
    exact hlen h.bounded hpos
  · simp only [hq]
    have hmoved : s.accepted.Perm (s.delivered ++ kept
        ++ (s.evicted ++ (pushPriority capacity (s.next true event) s.queue).2.toList)) := by
      refine hconserved.trans ?_
      simp only [append_assoc]
      exact (perm_append_comm.append_left kept).append_left s.delivered
    exact conserved_next hmoved
  · rw [hq]
    refine ordered_skip rfl (hordered.sublist (Sublist.filter _ ?_))
    exact (sublist_append_left kept _).append_left s.delivered

theorem inv_pop (h : Inv capacity s) : Inv capacity (s.step capacity .pop) := by
  have hheld : s.delivered ++ s.queue.head?.toList ++ s.queue.tail = s.delivered ++ s.queue := by
    cases s.queue with
    | nil | cons a q => simp
  refine ⟨?_,h.serials,?_,?_⟩
  · have hbounded := h.bounded
    simp only [State.step,pop,length_tail]
    omega
  · simp only [State.step,pop,hheld]
    exact h.conserved
  · simp only [State.step,pop,hheld]
    exact h.ordered

theorem inv_drain (h : Inv capacity s) : Inv capacity (s.step capacity .drain) := by
  refine ⟨Nat.zero_le _,h.serials,?_,?_⟩
  · simp only [State.step,drain,append_nil]
    exact h.conserved
  · simp only [State.step,drain,append_nil]
    exact h.ordered

theorem inv_step (hpos : 0 < capacity) (s t : State) (h : Inv capacity s)
    (hstep : Step capacity s t) : Inv capacity t := by
  obtain ⟨op,rfl⟩ := hstep
  cases op with
  | push event => exact inv_push event h
  | pushPriority event => exact inv_pushPriority hpos event h
  | pop => exact inv_pop h
  | drain => exact inv_drain h

theorem inv_reachable (hpos : 0 < capacity) (h : Reachable Init (Step capacity) s) :
    Inv capacity s :=
  h.invariant (Inv capacity) inv_init (inv_step hpos)

end Steps

theorem queue_push (capacity : Nat) (s : State) (event : Event) :
    (s.step capacity (.push event)).queue
      = (push Accepted.severity capacity (s.next false event) s.queue).1 := by
  simp only [State.step]
  split <;> simp [*]

theorem evicted_step (capacity : Nat) (s : State) (op : Op) :
    (s.step capacity op).evicted = s.evicted ∨
      ∃ event,op = .pushPriority event ∧ capacity ≤ s.queue.length ∧
        (s.step capacity op).evicted = s.evicted ++ s.queue.getLast?.toList := by
  cases op with
  | push event =>
    simp only [State.step]
    split <;> exact .inl rfl
  | pushPriority event =>
    by_cases hfull : capacity ≤ s.queue.length
    · exact .inr ⟨event,rfl,hfull,by simp [State.step,pushPriority,hfull]⟩
    · exact .inl (by simp [State.step,pushPriority,hfull])
  | pop | drain => exact .inl rfl

def NotAhead (q : List Accepted) (a : Accepted) : Prop :=
  ∀ before after,q = before ++ a :: after →
    ∀ x ∈ after,urgency Accepted.severity a ≤ urgency Accepted.severity x

theorem notAhead_iff {before after : List Accepted} {a : Accepted} (hnot : a ∉ before ++ after) :
    NotAhead (before ++ a :: after) a ↔
      ∀ x ∈ after,urgency Accepted.severity a ≤ urgency Accepted.severity x := by
  rw [mem_append,not_or] at hnot
  refine ⟨fun h => h before after rfl,fun h before' after' heq => ?_⟩
  obtain ⟨-,-,rfl⟩ := (append_cons_inj_of_notMem hnot.1 hnot.2).mp heq
  exact h

theorem Inv.next_fresh {capacity : Nat} {s : State} (h : Inv capacity s) (event : Event) :
    s.next false event ∉ s.queue := fun hmem =>
  Nat.lt_irrefl _ (h.held_lt (mem_append_right _ hmem))

theorem Inv.notAhead_push {capacity : Nat} {s : State} (h : Inv capacity s) (event : Event)
    (hok : (push Accepted.severity capacity (s.next false event) s.queue).2 = .ok ()) :
    NotAhead (push Accepted.severity capacity (s.next false event) s.queue).1 (s.next false event)
      ↔ (event.severity = some .high → criticalsLead Accepted.severity s.queue = true) := by
  obtain ⟨-,before,after,hsplit,hq,hplaced⟩ := push_ok hok
  have hfresh := h.next_fresh event
  rw [hsplit] at hfresh
  rw [hq,notAhead_iff hfresh,hplaced.ahead_iff,← hsplit]
  rfl

/-- In every state a queue can reach, it is bounded and a refused push leaves it; an accepted
    push is put ahead of something more urgent only when it is a high event that finds a
    critical one behind another; events of the rest are delivered in the order of their
    acceptance; and every accepted event has been delivered once, is queued, or was evicted
    from the back by a forced push. -/
theorem queue_conserves (capacity : Nat) (hpos : 1 ≤ capacity) (s : State)
    (h : Reachable Init (Step capacity) s) :
    (s.queue.length ≤ capacity ∧
      ∀ event e,(push Accepted.severity capacity (s.next false event) s.queue).2 = .error e →
        (s.step capacity (.push event)).queue = s.queue) ∧
    (∀ event,(push Accepted.severity capacity (s.next false event) s.queue).2 = .ok () →
      (NotAhead (s.step capacity (.push event)).queue (s.next false event)
        ↔ (event.severity = some .high → criticalsLead Accepted.severity s.queue = true))) ∧
    (s.delivered.filter (·.plain)).Pairwise (·.serial < ·.serial) ∧
    ((s.accepted.map (·.serial)).Nodup ∧ s.accepted.Perm (s.delivered ++ s.queue ++ s.evicted) ∧
      ∀ op,(s.step capacity op).evicted = s.evicted ∨
        ∃ event,op = .pushPriority event ∧ capacity ≤ s.queue.length ∧
          (s.step capacity op).evicted = s.evicted ++ s.queue.getLast?.toList) := by
  have hinv := inv_reachable hpos h
  refine ⟨⟨hinv.bounded,fun event e herror => ?_⟩,fun event hok => ?_,?_,?_,hinv.conserved,
    evicted_step capacity s⟩
  · rw [queue_push]
    exact push_refused herror
  · rw [queue_push]
    exact hinv.notAhead_push event hok
  · have hordered := hinv.ordered
    rw [filter_append] at hordered
    exact (pairwise_append.mp hordered).1
  · rw [hinv.serials]
    exact nodup_range

def alarm : Event := ⟨"e1","disk full",some .critical⟩
def report : Event := ⟨"e2","build log",some .medium⟩
def notice : Event := ⟨"e3","lint log",none⟩
def worker (id : String) : Event := ⟨id,"worker finished",some .high⟩

/-- Three events fill the queue, two completions are forced in, and the first is taken. -/
def overtaking : List Op :=
  [.push alarm,.push report,.push notice,.pushPriority (worker "w1"),.pushPriority (worker "w2"),
    .pop]

def runOps (capacity : Nat) (s : State) (ops : List Op) : State := ops.foldl (·.step capacity) s

theorem reachable_runOps (capacity : Nat) {s : State} (h : Reachable Init (Step capacity) s)
    (ops : List Op) : Reachable Init (Step capacity) (runOps capacity s ops) := by
  induction ops generalizing s with
  | nil => exact h
  | cons op ops ih => exact ih (h.step ⟨op,rfl⟩)

theorem worker_overtakes_alarm : ∃ s : State,Reachable Init (Step 3) s ∧
      (push Accepted.severity 3 (s.next false (worker "w3")) s.queue).2 = .ok () ∧
      (s.step 3 (.push (worker "w3"))).queue.map (·.event) = [worker "w3",worker "w1",alarm] ∧
      ¬ NotAhead (s.step 3 (.push (worker "w3"))).queue (s.next false (worker "w3")) := by
  refine ⟨runOps 3 ⟨[],[],[],[]⟩ overtaking,reachable_runOps 3 (.init rfl) _,by decide,by decide,
    fun h => ?_⟩
  have hbehind := h [] [⟨3,true,worker "w1"⟩,⟨0,false,alarm⟩] (by decide) ⟨0,false,alarm⟩ (by decide)
  exact absurd hbehind (by decide)

theorem queue_conserves_overtaking : (runOps 3 ⟨[],[],[],[]⟩ overtaking).accepted.Perm
      [⟨4,true,worker "w2"⟩,⟨3,true,worker "w1"⟩,⟨0,false,alarm⟩,⟨2,false,notice⟩,
        ⟨1,false,report⟩] :=
  (queue_conserves 3 (by decide) (runOps 3 ⟨[],[],[],[]⟩ overtaking)
    (reachable_runOps 3 (.init rfl) _)).2.2.2.2.1

end Synaps.Events
