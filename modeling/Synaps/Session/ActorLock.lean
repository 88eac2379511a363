import Synaps.Session.Continue

/-!
The journal lock of one session actor. The handlers move the conversation, the
published journal id and the lock one after another, and a lock conflicts with every
open handle, so also with the actor's own.
-/

set_option autoImplicit false

namespace Synaps.Actor

variable {Id : Type} [DecidableEq Id]

/-- The actor is not created, live, between the saves of an applied compaction and the
move to its successor, parked, or in an unpark after its lock attempt. -/
inductive Phase (Id : Type) where
  | absent
  | live (conv : Id)
  | compacting (conv next : Id)
  | parked
  | rebuilding

/-- The `compacted_into` links of the sessions, the locks of the other processes, and
the actor. -/
structure State (Id : Type) where
  link : Id → Option Id
  others : Id → Bool
  phase : Phase Id
  sessionLock : Option Id
  journal : Id
  lockedAtCreate : Bool

inductive LockError where
  | held
  | compactedInto

def State.tryAcquire (s : State Id) (id : Id) : Except LockError Id :=
  if (s.link id).isSome then .error .compactedInto
  else if s.others id || s.sessionLock == some id then .error .held
  else .ok id

def State.reacquireSessionLock (s : State Id) (id : Id) : State Id :=
  match s.tryAcquire id with
  | .ok lock => { s with sessionLock := some lock }
  | .error _ => { s with sessionLock := none }

def State.create (s : State Id) (continued : Bool) (id : Id) : State Id :=
  match s.tryAcquire id with
  | .ok lock =>
    { s with phase := .live id, sessionLock := some lock, journal := id, lockedAtCreate := true }
  | .error .held =>
    if continued then s
    else { s with phase := .live id, sessionLock := none, journal := id, lockedAtCreate := false }
  | .error .compactedInto =>
    { s with phase := .live id, sessionLock := none, journal := id, lockedAtCreate := false }

def State.newSession (s : State Id) (id : Id) : State Id :=
  { s with phase := .live id, journal := id }.reacquireSessionLock id

/-- `/resume`: the new lock is taken first, and a session that is held or compacted is
refused. -/
def State.resume (s : State Id) (conv id : Id) : State Id :=
  if id = conv then { s with phase := .live id, journal := id }
  else
    match s.tryAcquire id with
    | .ok lock => { s with phase := .live id, sessionLock := some lock, journal := id }
    | .error _ => s

/-- `on_compaction_done` under the policy `InPlace`: the conversation keeps its id. -/
def State.compactedInPlace (s : State Id) (conv : Id) : State Id :=
  { s with phase := .live conv, journal := conv }.reacquireSessionLock conv

/-- `apply_compaction` under the policy `LinkedSuccessor`. -/
def State.applyLinked (s : State Id) (conv next : Id) : State Id :=
  { s with link := Function.update s.link conv (some next), phase := .compacting conv next }

/-- A failed `apply_compaction` restores the parent. -/
def State.rollback (s : State Id) (conv : Id) : State Id :=
  { s with link := Function.update s.link conv none, phase := .live conv }

def State.compactedLinked (s : State Id) (next : Id) : State Id :=
  { s with phase := .live next, journal := next }.reacquireSessionLock next

def State.parkNow (s : State Id) : State Id := { s with phase := .parked, sessionLock := none }

def State.unpark (s : State Id) : State Id :=
  match s.tryAcquire s.journal with
  | .ok lock => { s with phase := .rebuilding, sessionLock := some lock }
  | .error .held => s
  | .error .compactedInto => { s with phase := .rebuilding }

def followCompactionChain (link : Id → Option Id) : Nat → List Id → Id → Option Id
  | 0,_,_ => none
  | fuel + 1,visited,id =>
    match Continue.follow visited (link id) with
    | .ok none => some id
    | .ok (some (visited',next)) => followCompactionChain link fuel visited' next
    | .error _ => none

def State.resolve (s : State Id) : Option Id :=
  followCompactionChain s.link (Continue.maxCompactionHops + 1) [s.journal] s.journal

def State.rebuildFailed (s : State Id) : State Id := { s with phase := .parked }

def State.rebuild (s : State Id) : State Id :=
  match s.resolve with
  | some id => { s with phase := .live id }
  | none => s.rebuildFailed

def State.Fresh (s : State Id) (id : Id) : Prop :=
  s.link id = none ∧ s.others id = false ∧ s.sessionLock ≠ some id

inductive Action (Id : Type) where
  | create (continued : Bool) (id : Id)
  | newSession (id : Id)
  | resume (id : Id)
  | compactInline
  | compactedInPlace
  | applyLinked (next : Id)
  | rollback
  | compactedLinked
  | park
  | unpark
  | rebuildFailed
  | rebuild
  | take (id : Id)
  | compact (id next : Id)
  | release (id : Id)

/-- The operations of the actor, and the steps of the other processes on journals that
nobody holds. -/
inductive Step (s : State Id) : Action Id → State Id → Prop
  | create (continued : Bool) (id : Id) (hp : s.phase = .absent) :
      Step s (.create continued id) (s.create continued id)
  | newSession (conv id : Id) (hp : s.phase = .live conv) (hid : s.Fresh id) :
      Step s (.newSession id) (s.newSession id)
  | resume (conv id : Id) (hp : s.phase = .live conv) : Step s (.resume id) (s.resume conv id)
  | compactInline (conv : Id) (hp : s.phase = .live conv) : Step s .compactInline s
  | compactedInPlace (conv : Id) (hp : s.phase = .live conv) :
      Step s .compactedInPlace (s.compactedInPlace conv)
  | applyLinked (conv next : Id) (hp : s.phase = .live conv) (hid : s.Fresh next)
      (hne : next ≠ conv) : Step s (.applyLinked next) (s.applyLinked conv next)
  | rollback (conv next : Id) (hp : s.phase = .compacting conv next) :
      Step s .rollback (s.rollback conv)
  | compactedLinked (conv next : Id) (hp : s.phase = .compacting conv next) :
      Step s .compactedLinked (s.compactedLinked next)
  | park (conv : Id) (hp : s.phase = .live conv) : Step s .park s.parkNow
  | unpark (hp : s.phase = .parked) : Step s .unpark s.unpark
  | rebuildFailed (hp : s.phase = .rebuilding) : Step s .rebuildFailed s.rebuildFailed
  | rebuild (hp : s.phase = .rebuilding) : Step s .rebuild s.rebuild
  | take (id : Id) (ho : s.others id = false) (hl : s.sessionLock ≠ some id)
      (hc : s.link id = none) :
      Step s (.take id) { s with others := Function.update s.others id true }
  | compact (id next : Id) (ho : s.others id = true) (hid : s.Fresh next) :
      Step s (.compact id next)
        { s with
          link := Function.update s.link id (some next)
          others := Function.update (Function.update s.others id false) next true }
  | release (id : Id) (ho : s.others id = true) :
      Step s (.release id) { s with others := Function.update s.others id false }

def Init (s : State Id) : Prop := s.phase = .absent ∧ s.sessionLock = none

/-- While live after a create that got its lock, the actor has the lock of its
conversation and publishes its id; while parked it has no lock, and so an unpark of a
journal that nobody holds ends live if its rebuild finds the session. -/
def Follows (s : State Id) : Prop :=
  match s.phase with
  | .live conv => s.lockedAtCreate = true → s.sessionLock = some conv ∧ s.journal = conv
  | .parked => s.sessionLock = none ∧
      ∀ id, s.others s.journal = false → s.resolve = some id → s.unpark.rebuild.phase = .live id
  | _ => True

/-- No compaction in place by an actor with its lock; nobody takes the successor before the
actor does; no unpark of a compacted journal; no rebuild fails with the lock taken. -/
def Steady (s : State Id) : Action Id → Prop
  | .compactedInPlace => ∀ conv, s.phase = .live conv → s.sessionLock ≠ some conv
  | .compactedLinked => ∀ conv next, s.phase = .compacting conv next →
      s.others next = false ∧ s.link next = none
  | .unpark => s.link s.journal = none
  | .rebuildFailed => s.sessionLock = none
  | _ => True

variable {id : Id} {s : State Id}

theorem tryAcquire_ok {lock : Id} : s.tryAcquire id = .ok lock ↔ id = lock ∧ s.Fresh id := by
  unfold State.tryAcquire State.Fresh
  cases hl : s.link id with
  | some next => simp
  | none =>
    cases ho : s.others id with
    | true => simp
    | false => by_cases hs : s.sessionLock = some id <;> simp [hs]

theorem link_of_compactedInto (h : s.tryAcquire id = .error .compactedInto) : s.link id ≠ none := by
  intro hl
  simp only [State.tryAcquire,hl,Option.isSome_none,Bool.false_eq_true,if_false] at h
  split at h <;> cases h

theorem reacquire_of_fresh (h : s.Fresh id) :
    s.reacquireSessionLock id = { s with sessionLock := some id } := by
  rw [State.reacquireSessionLock,tryAcquire_ok.mpr ⟨rfl,h⟩]

theorem resolve_of_link_none (h : s.link s.journal = none) : s.resolve = some s.journal := by
  simp [State.resolve,followCompactionChain,Continue.follow,h]

/-- What the actor has in each phase: its lock is nobody else's. -/
structure Inv (s : State Id) : Prop where
  apart : ∀ id, s.sessionLock = some id → s.others id = false
  phase : match s.phase with
    | .absent => s.sessionLock = none
    | .live conv => s.lockedAtCreate = true → s.sessionLock = some conv ∧ s.journal = conv
    | .compacting conv next => (s.lockedAtCreate = true → s.sessionLock = some conv ∧
        s.journal = conv) ∧ s.sessionLock ≠ some next
    | .parked => s.sessionLock = none
    | .rebuilding => s.sessionLock = some s.journal ∧ s.link s.journal = none

theorem inv_create (h : Inv s) (continued : Bool) (id : Id) : Inv (s.create continued id) := by
  unfold State.create
  split
  · rename_i lock hl
    obtain ⟨rfl,hf⟩ := tryAcquire_ok.mp hl
    exact ⟨by rintro _ ⟨⟩; exact hf.2.1,fun _ => ⟨rfl,rfl⟩⟩
  · split
    · exact h
    · exact ⟨by rintro _ ⟨⟩,by rintro ⟨⟩⟩
  · exact ⟨by rintro _ ⟨⟩,by rintro ⟨⟩⟩

theorem inv_move (hid : s.Fresh id) :
    Inv ({ s with phase := .live id, journal := id }.reacquireSessionLock id) := by
  have hfresh : { s with phase := .live id, journal := id }.Fresh id := hid
  rw [reacquire_of_fresh hfresh]
  exact ⟨by rintro _ ⟨⟩; exact hid.2.1,fun _ => ⟨rfl,rfl⟩⟩

theorem inv_resume (h : Inv s) {conv : Id} (hp : s.phase = .live conv) (id : Id) :
    Inv (s.resume conv id) := by
  have hlive := h.phase
  rw [hp] at hlive
  unfold State.resume
  split
  · rename_i hid
    subst hid
    exact ⟨h.apart,fun hc => ⟨(hlive hc).1,rfl⟩⟩
  · split
    · rename_i lock hl
      obtain ⟨rfl,hf⟩ := tryAcquire_ok.mp hl
      exact ⟨by rintro _ ⟨⟩; exact hf.2.1,fun _ => ⟨rfl,rfl⟩⟩
    · exact h

theorem inv_inPlace (h : Inv s) {conv : Id} (hp : s.phase = .live conv)
    (hl : s.sessionLock ≠ some conv) : Inv (s.compactedInPlace conv) := by
  have hlive := h.phase
  rw [hp] at hlive
  have hcreate : s.lockedAtCreate ≠ true := fun hc => hl (hlive hc).1
  unfold State.compactedInPlace State.reacquireSessionLock
  split
  · rename_i lock hl
    obtain ⟨rfl,hf⟩ := tryAcquire_ok.mp hl
    exact ⟨by rintro _ ⟨⟩; exact hf.2.1,fun _ => ⟨rfl,rfl⟩⟩
  · exact ⟨by rintro _ ⟨⟩,fun hc => absurd hc hcreate⟩

theorem inv_unpark (h : Inv s) (hc : s.link s.journal = none) : Inv s.unpark := by
  unfold State.unpark
  split
  · rename_i lock hl
    obtain ⟨rfl,hf⟩ := tryAcquire_ok.mp hl
    exact ⟨by rintro _ ⟨⟩; exact hf.2.1,rfl,hc⟩
  · exact h
  · rename_i hl
    exact absurd hc (link_of_compactedInto hl)

theorem inv_rebuild (h : Inv s) (hp : s.phase = .rebuilding) : Inv s.rebuild := by
  have hre := h.phase
  rw [hp] at hre
  rw [State.rebuild,resolve_of_link_none hre.2]
  exact ⟨h.apart,fun _ => ⟨hre.1,rfl⟩⟩

omit [DecidableEq Id] in
theorem inv_other (h : Inv s) {link : Id → Option Id} {others : Id → Bool}
    (ho : ∀ id, s.sessionLock = some id → others id = false ∧ link id = s.link id) :
    Inv { s with link := link, others := others } := by
  refine ⟨fun id hid => (ho id hid).1,?_⟩
  have hp := h.phase
  cases hphase : s.phase with rw [hphase] at hp
  | rebuilding =>
    exact ⟨hp.1,(ho _ hp.1).2.trans hp.2⟩
  | _ =>
    exact hp

theorem inv_step {t : State Id} {a : Action Id} (h : Inv s) (ha : Steady s a) (hst : Step s a t) :
    Inv t := by
  cases hst with
  | create continued id hp => exact inv_create h continued id
  | newSession conv id hp hid => exact inv_move hid
  | resume conv id hp => exact inv_resume h hp id
  | compactInline conv hp => exact h
  | compactedInPlace conv hp => exact inv_inPlace h hp (ha conv hp)
  | applyLinked conv next hp hid hne =>
    have hlive := h.phase
    rw [hp] at hlive
    exact ⟨h.apart,hlive,hid.2.2⟩
  | rollback conv next hp =>
    have hc := h.phase
    rw [hp] at hc
    exact ⟨h.apart,hc.1⟩
  | compactedLinked conv next hp =>
    have hc := h.phase
    rw [hp] at hc
    obtain ⟨hothers,hlink⟩ := ha conv next hp
    exact inv_move ⟨hlink,hothers,hc.2⟩
  | park conv hp => exact ⟨by rintro _ ⟨⟩,rfl⟩
  | unpark hp => exact inv_unpark h ha
  | rebuildFailed hp => exact ⟨h.apart,ha⟩
  | rebuild hp => exact inv_rebuild h hp
  | take id ho hl hc =>
    refine inv_other h (fun id' hid => ⟨?_,rfl⟩)
    rw [Function.update_of_ne (by rintro rfl; exact hl hid)]
    exact h.apart id' hid
  | compact id next ho hid =>
    refine inv_other h (fun id' hid' => ?_)
    have hne : id' ≠ id := by
      rintro rfl
      rw [h.apart id' hid'] at ho
      cases ho
    have hnext : id' ≠ next := by
      rintro rfl
      exact hid.2.2 hid'
    simp [hne,hnext,h.apart id' hid']
  | release id ho =>
    refine inv_other h (fun id' hid => ⟨?_,rfl⟩)
    by_cases hne : id' = id
    · simp [hne]
    · simp [hne,h.apart id' hid]

theorem unpark_rebuild (hl : s.sessionLock = none) (ho : s.others s.journal = false)
    (hr : s.resolve = some id) : s.unpark.rebuild.phase = .live id := by
  cases hc : s.link s.journal with
  | none =>
    have hacq : s.tryAcquire s.journal = .ok s.journal :=
      tryAcquire_ok.mpr ⟨rfl,hc,ho,by simp [hl]⟩
    have hres : s.unpark.resolve = some id := by rw [State.unpark,hacq]; exact hr
    rw [State.rebuild,hres]
  | some next =>
    have hacq : s.tryAcquire s.journal = .error .compactedInto := by simp [State.tryAcquire,hc]
    have hres : s.unpark.resolve = some id := by rw [State.unpark,hacq]; exact hr
    rw [State.rebuild,hres]

/-- In a run whose steps are all steady, the lock follows the conversation. -/
theorem lock_follows {s : State Id} (hs : Runs.Reachable Init (Runs.Under Step Steady) s) :
    Follows s := by
  have h : Inv s := by
    refine hs.invariant Inv ?_ ?_
    · rintro s ⟨hp,hl⟩
      refine ⟨fun id hid => ?_,?_⟩
      · rw [hl] at hid
        cases hid
      · rw [hp]
        exact hl
    · rintro a b ha ⟨act,hact,hab⟩
      exact inv_step ha hact hab
  have hphase := h.phase
  unfold Follows
  cases hp : s.phase with
  | live conv =>
    rwa [hp] at hphase
  | parked =>
    rw [hp] at hphase
    exact ⟨hphase,fun id ho hr => unpark_rebuild hphase ho hr⟩
  | _ => trivial

def start : State Nat := ⟨fun _ => none,fun _ => false,.absent,none,0,false⟩

def created : State Nat := start.create false 0

theorem reach_created : Runs.Reachable Init (Runs.Under Step Steady) created := by
  have h₀ : Runs.Reachable Init (Runs.Under Step Steady) start := .init ⟨rfl,rfl⟩
  exact h₀.step ⟨.create false 0,trivial,.create false 0 rfl⟩

theorem inPlace_unlocked : ∃ s : State Nat, Runs.Reachable Init (Runs.Next Step) s ∧
    s.phase = .live 0 ∧ s.lockedAtCreate = true ∧ s.sessionLock = none := by
  have h₁ := (reach_created.mono Runs.Under.next).step ⟨_,.compactedInPlace 0 rfl⟩
  exact ⟨_,h₁,rfl,rfl,rfl⟩

theorem parked_locked : ∃ s : State Nat, Runs.Reachable Init (Runs.Next Step) s ∧
    s.phase = .parked ∧ s.sessionLock = some 0 ∧ s.others s.journal = false ∧
    s.resolve = some 0 ∧ s.unpark.phase = .parked := by
  have h₁ := (reach_created.mono Runs.Under.next).step ⟨_,.park 0 rfl⟩
  have h₂ := h₁.step ⟨_,.unpark rfl⟩
  have h₃ := h₂.step ⟨_,.rebuildFailed rfl⟩
  exact ⟨_,h₃,rfl,rfl,rfl,rfl,rfl⟩

/-- An unpark of a journal that another process compacted goes live at the successor
without a lock. -/
theorem successor_unlocked : ∃ s : State Nat, Runs.Reachable Init (Runs.Next Step) s ∧
    s.phase = .live 1 ∧ s.lockedAtCreate = true ∧ s.sessionLock = none ∧ s.journal = 0 := by
  have h₁ := (reach_created.mono Runs.Under.next).step ⟨_,.park 0 rfl⟩
  have h₂ := h₁.step ⟨_,.take 0 rfl (by decide) rfl⟩
  have h₃ := h₂.step ⟨_,.compact 0 1 rfl ⟨rfl,rfl,by decide⟩⟩
  have h₄ := h₃.step ⟨_,.unpark rfl⟩
  have h₅ := h₄.step ⟨_,.rebuild rfl⟩
  exact ⟨_,h₅,rfl,rfl,rfl,rfl⟩

/-- The lock does not follow a compaction in place, a failed rebuild and an unpark of a
compacted journal. -/
theorem lock_not_followed : (∃ s : State Nat, Runs.Reachable Init (Runs.Next Step) s ∧
      s.phase = .live 0 ∧ ¬Follows s) ∧
    (∃ s : State Nat, Runs.Reachable Init (Runs.Next Step) s ∧ s.phase = .parked ∧
      s.others s.journal = false ∧ s.unpark.phase = .parked ∧ ¬Follows s) ∧
    ∃ s : State Nat, Runs.Reachable Init (Runs.Next Step) s ∧ s.phase = .live 1 ∧
      s.journal = 0 ∧ ¬Follows s := by
  refine ⟨?_,?_,?_⟩
  · obtain ⟨s,hs,hp,hc,hl⟩ := inPlace_unlocked
    refine ⟨s,hs,hp,fun h => ?_⟩
    simp [Follows,hp,hc,hl] at h
  · obtain ⟨s,hs,hp,hl,ho,-,hu⟩ := parked_locked
    refine ⟨s,hs,hp,ho,hu,fun h => ?_⟩
    simp [Follows,hp,hl] at h
  · obtain ⟨s,hs,hp,hc,hl,hj⟩ := successor_unlocked
    refine ⟨s,hs,hp,hj,fun h => ?_⟩
    simp [Follows,hp,hc,hl] at h

def unparked : State Nat := ((created.applyLinked 0 1).compactedLinked 1).parkNow.unpark.rebuild

theorem lock_follows_unparked : unparked.phase = .live 1 ∧ unparked.lockedAtCreate = true ∧
    unparked.sessionLock = some 1 ∧ unparked.journal = 1 := by
  have h₁ := reach_created.step ⟨.applyLinked 1,trivial,
    .applyLinked 0 1 rfl ⟨rfl,rfl,by decide⟩ (by decide)⟩
  have hfree : Steady (created.applyLinked 0 1) .compactedLinked := by
    rintro conv next ⟨⟩
    exact ⟨rfl,rfl⟩
  have h₂ := h₁.step ⟨.compactedLinked,hfree,.compactedLinked 0 1 rfl⟩
  have h₃ := h₂.step ⟨.park,trivial,.park 1 rfl⟩
  have h₄ := h₃.step ⟨.unpark,rfl,.unpark rfl⟩
  have h₅ : Runs.Reachable Init (Runs.Under Step Steady) unparked :=
    h₄.step ⟨.rebuild,trivial,.rebuild rfl⟩
  have hfollows : unparked.sessionLock = some 1 ∧ unparked.journal = 1 := lock_follows h₅ rfl
  exact ⟨rfl,rfl,hfollows⟩

end Synaps.Actor
