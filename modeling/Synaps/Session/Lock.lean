import Synaps.Lib.Runs
import Mathlib.Logic.Function.Basic

/-!
The lock file of one session id. An exclusive lock belongs to the opened file, and
the path can be unlinked and created anew, so one owner at a time needs that no
other attempt has the file open when its path is unlinked.
-/

set_option autoImplicit false

namespace Synaps.Lock

structure LockHolder where
  pid : Nat
  kind : String
  deriving DecidableEq

/-- How far a lock attempt or a lock is: the file was opened, its lock was taken, the
holder was written and the `SessionLock` is held, or it was unlocked by
`release_and_remove` and the path is still to be unlinked. -/
inductive Phase where
  | opened (inode : Nat)
  | locked (inode : Nat)
  | held (inode : Nat)
  | removing
  deriving DecidableEq

def Phase.file : Phase → Option Nat
  | .opened inode => some inode
  | .locked inode => some inode
  | .held inode => some inode
  | .removing => none

def Phase.lock : Phase → Option Nat
  | .locked inode => some inode
  | .held inode => some inode
  | _ => none

structure Handle where
  holder : LockHolder
  phase : Phase
  deriving DecidableEq

/-- The file at the lock path, the lock and the body of each file, and the attempts
and locks of all processes. -/
structure State where
  path : Option Nat
  nextInode : Nat
  owner : Nat → Option Nat
  body : Nat → Option LockHolder
  handles : Nat → Option Handle

def State.init : State := ⟨none,0,fun _ => none,fun _ => none,fun _ => none⟩

def State.set (s : State) (h : Nat) (x : Option Handle) : State :=
  { s with handles := Function.update s.handles h x }

def State.openPath (s : State) (h : Nat) (holder : LockHolder) : State :=
  match s.path with
  | some inode => s.set h (some ⟨holder,.opened inode⟩)
  | none =>
    { s with path := some s.nextInode, nextInode := s.nextInode + 1 }.set h
      (some ⟨holder,.opened s.nextInode⟩)

def State.tryLock (s : State) (inode : Nat) : Bool := s.owner inode == none

def State.lock (s : State) (h : Nat) (holder : LockHolder) (inode : Nat) : State :=
  { s with owner := Function.update s.owner inode (some h) }.set h (some ⟨holder,.locked inode⟩)

def State.write (s : State) (h : Nat) (holder : LockHolder) (inode : Nat) : State :=
  { s with body := Function.update s.body inode (some holder) }.set h (some ⟨holder,.held inode⟩)

def State.unlock (s : State) (inode : Nat) : State :=
  { s with owner := Function.update s.owner inode none }

def State.unlink (s : State) : State := { s with path := none }

def State.alive (s : State) (pid h : Nat) : Bool := (s.handles h).any (·.holder.pid != pid)

/-- The death of a process closes its files and releases its locks. -/
def State.die (s : State) (pid : Nat) : State :=
  { s with
    owner := fun inode => (s.owner inode).filter (s.alive pid)
    handles := fun h => (s.handles h).filter (·.holder.pid != pid) }

inductive Action where
  | openPath (h : Nat) (holder : LockHolder)
  | lock (h : Nat)
  | refuse (h : Nat)
  | write (h : Nat)
  | drop (h : Nat)
  | release (h : Nat)
  | unlink (h : Nat)
  | unlinkFailed (h : Nat)
  | die (pid : Nat)

inductive Step (s : State) : Action → State → Prop
  | openPath (h : Nat) (holder : LockHolder) (hh : s.handles h = none) :
      Step s (.openPath h holder) (s.openPath h holder)
  | lock (h inode : Nat) (holder : LockHolder)
      (hh : s.handles h = some ⟨holder,.opened inode⟩) (hl : s.tryLock inode = true) :
      Step s (.lock h) (s.lock h holder inode)
  | refuse (h inode : Nat) (holder : LockHolder)
      (hh : s.handles h = some ⟨holder,.opened inode⟩) (hl : s.tryLock inode = false) :
      Step s (.refuse h) (s.set h none)
  | write (h inode : Nat) (holder : LockHolder)
      (hh : s.handles h = some ⟨holder,.locked inode⟩) : Step s (.write h) (s.write h holder inode)
  | drop (h inode : Nat) (holder : LockHolder)
      (hh : s.handles h = some ⟨holder,.held inode⟩) :
      Step s (.drop h) ((s.unlock inode).set h none)
  | release (h inode : Nat) (holder : LockHolder)
      (hh : s.handles h = some ⟨holder,.held inode⟩) :
      Step s (.release h) ((s.unlock inode).set h (some ⟨holder,.removing⟩))
  | unlink (h : Nat) (holder : LockHolder) (hh : s.handles h = some ⟨holder,.removing⟩) :
      Step s (.unlink h) (s.unlink.set h none)
  | unlinkFailed (h : Nat) (holder : LockHolder) (hh : s.handles h = some ⟨holder,.removing⟩) :
      Step s (.unlinkFailed h) (s.set h none)
  | die (pid : Nat) : Step s (.die pid) (s.die pid)

def Init (s : State) : Prop := s = State.init

def State.Holds (s : State) (h : Nat) : Prop :=
  ∃ holder inode, s.handles h = some ⟨holder,.held inode⟩

/-- The path is unlinked only while no attempt has the file at the path open. -/
def Unshared (s : State) : Action → Prop
  | .unlink _ => ∀ h x inode, s.path = some inode → s.handles h = some x →
      x.phase.file ≠ some inode
  | _ => True

section

variable (s : State) (h : Nat) (x : Option Handle)

@[simp] theorem set_handles : (s.set h x).handles = Function.update s.handles h x := rfl

@[simp] theorem set_path : (s.set h x).path = s.path := rfl

@[simp] theorem set_owner : (s.set h x).owner = s.owner := rfl

@[simp] theorem set_body : (s.set h x).body = s.body := rfl

end

/-- Whoever has a lock is the owner of the file it locked. -/
def Owned (s : State) : Prop :=
  ∀ h x inode, s.handles h = some x → x.phase.lock = some inode → s.owner inode = some h

def Current (s : State) : Prop :=
  ∀ h x inode, s.handles h = some x → x.phase.file = some inode → s.path = some inode

variable {s : State} {x : Option Handle}

theorem owned_set (h : Owned s) {k : Nat}
    (hx : ∀ y inode, x = some y → y.phase.lock = some inode → s.owner inode = some k) :
    Owned (s.set k x) := by
  intro j y inode hj hy
  by_cases hjk : j = k
  · subst hjk
    exact hx y inode (by simpa using hj) hy
  · exact h j y inode (by simpa [hjk] using hj) hy

theorem owned_unlock (h : Owned s) {k inode : Nat} {holder : LockHolder}
    (hk : s.handles k = some ⟨holder,.held inode⟩) (hx : ∀ y, x = some y → y.phase.lock = none) :
    Owned ((s.unlock inode).set k x) := by
  intro j y n hj hy
  by_cases hjk : j = k
  · subst hjk
    rw [hx y (by simpa using hj)] at hy
    cases hy
  · have hn := h j y n (by simpa [State.unlock,hjk] using hj) hy
    have hne : n ≠ inode := by
      rintro rfl
      exact hjk (Option.some.inj (hn.symm.trans (h k _ n hk rfl)))
    simpa [State.unlock,hne] using hn

theorem owned_step {t : State} {a : Action} (h : Owned s) (hst : Step s a t) : Owned t := by
  cases hst with
  | openPath k holder hk =>
    unfold State.openPath
    split
    all_goals exact owned_set h (by rintro y inode ⟨⟩ ⟨⟩)
  | lock k inode holder hk hl =>
    have hfree : s.owner inode = none := by simpa [State.tryLock] using hl
    refine owned_set (fun j y n hj hy => ?_) ?_
    · have hn := h j y n hj hy
      have hne : n ≠ inode := by
        rintro rfl
        rw [hfree] at hn
        cases hn
      simpa [hne] using hn
    · rintro y n ⟨⟩ ⟨⟩
      simp
  | refuse _ _ _ hk _ | unlink _ _ hk | unlinkFailed _ _ hk =>
      exact owned_set h (by rintro y inode ⟨⟩)
  | write k inode holder hk =>
    refine owned_set h ?_
    rintro y n ⟨⟩ ⟨⟩
    exact h k _ _ hk rfl
  | drop _ _ _ hk => exact owned_unlock h hk (by rintro y ⟨⟩)
  | release _ _ _ hk =>
    refine owned_unlock h hk ?_
    rintro y ⟨⟩
    rfl
  | die pid =>
    intro j y n hj hy
    obtain ⟨hj,hp⟩ := Option.filter_eq_some_iff.mp hj
    have halive : s.alive pid j = true := by simp [State.alive,hj,hp]
    exact Option.filter_eq_some_iff.mpr ⟨h j y n hj hy,halive⟩

theorem current_set (h : Current s) {k : Nat}
    (hx : ∀ y inode, x = some y → y.phase.file = some inode → s.path = some inode) :
    Current (s.set k x) := by
  intro j y inode hj hy
  by_cases hjk : j = k
  · subst hjk
    exact hx y inode (by simpa using hj) hy
  · exact h j y inode (by simpa [hjk] using hj) hy

theorem current_step {t : State} {a : Action} (h : Current s) (ha : Unshared s a)
    (hst : Step s a t) : Current t := by
  cases hst with
  | openPath k holder hk =>
    unfold State.openPath
    split
    · rename_i inode hp
      refine current_set h ?_
      rintro y n ⟨⟩ ⟨⟩
      exact hp
    · rename_i hp
      refine current_set (fun j y n hj hy => ?_) ?_
      · have hn := h j y n hj hy
        rw [hp] at hn
        cases hn
      · rintro y n ⟨⟩ ⟨⟩
        rfl
  | lock _ _ _ hk _ | write _ _ _ hk =>
    refine current_set h ?_
    rintro y n ⟨⟩ ⟨⟩
    exact h _ _ _ hk rfl
  | refuse _ _ _ hk _ | drop _ _ _ hk | unlinkFailed _ _ hk =>
      exact current_set h (by rintro y inode ⟨⟩)
  | release _ _ _ hk => exact current_set h (by rintro y inode ⟨⟩ ⟨⟩)
  | unlink _ _ hk =>
    refine current_set (fun j y n hj hy => ?_) (by rintro y inode ⟨⟩)
    exact absurd hy (ha j y n (h j y n hj hy) hj)
  | die pid =>
    intro j y n hj hy
    exact h j y n (Option.filter_eq_some_iff.mp hj).1 hy

theorem owned_reachable (h : Runs.Reachable Init (Runs.Next Step) s) : Owned s := by
  refine h.invariant Owned ?_ ?_
  · rintro _ rfl j y n ⟨⟩
  · rintro a b ha ⟨act,hab⟩
    exact owned_step ha hab

theorem current_reachable (h : Runs.Reachable Init (Runs.Under Step Unshared) s) : Current s := by
  refine h.invariant Current ?_ ?_
  · rintro _ rfl j y n ⟨⟩
  · rintro a b ha ⟨act,hact,hab⟩
    exact current_step ha hact hab

/-- While the path is unlinked only when nobody has its file open, at most one lock
is held. -/
theorem one_owner {s : State} (hs : Runs.Reachable Init (Runs.Under Step Unshared) s) {h h' : Nat}
    (hh : s.Holds h) (hh' : s.Holds h') : h = h' := by
  obtain ⟨holder,inode,hh⟩ := hh
  obtain ⟨holder',inode',hh'⟩ := hh'
  have hc := current_reachable hs
  have hi := Option.some.inj ((hc h _ inode hh rfl).symm.trans (hc h' _ inode' hh' rfl))
  subst hi
  have ho := owned_reachable (hs.mono Runs.Under.next)
  exact Option.some.inj ((ho h _ inode hh rfl).symm.trans (ho h' _ inode hh' rfl))

def owner (pid : Nat) : LockHolder := ⟨pid,"tui"⟩

def afterRelease : State :=
  ((((State.init.openPath 0 (owner 1)).lock 0 (owner 1) 0).write 0 (owner 1) 0).unlock 0).set 0
    (some ⟨owner 1,.removing⟩)

def afterUnlink : State :=
  ((((((afterRelease.openPath 1 (owner 2)).lock 1 (owner 2) 0).write 1 (owner 2) 0).unlink.set 0
    none).openPath 2 (owner 3)).lock 2 (owner 3) 1).write 2 (owner 3) 1

theorem reach_afterRelease : Runs.Reachable Init (Runs.Under Step Unshared) afterRelease := by
  have h₀ : Runs.Reachable Init (Runs.Under Step Unshared) State.init := .init rfl
  have h₁ := h₀.step ⟨.openPath 0 (owner 1),trivial,.openPath 0 (owner 1) rfl⟩
  have h₂ := h₁.step ⟨.lock 0,trivial,.lock 0 0 (owner 1) rfl rfl⟩
  have h₃ := h₂.step ⟨.write 0,trivial,.write 0 0 (owner 1) rfl⟩
  exact h₃.step ⟨.release 0,trivial,.release 0 0 (owner 1) rfl⟩

theorem two_owners : Runs.Reachable Init (Runs.Next Step) afterUnlink ∧
    afterUnlink.Holds 1 ∧ afterUnlink.Holds 2 := by
  have h₀ := reach_afterRelease.mono Runs.Under.next
  have h₁ := h₀.step ⟨_,.openPath 1 (owner 2) rfl⟩
  have h₂ := h₁.step ⟨_,.lock 1 0 (owner 2) rfl rfl⟩
  have h₃ := h₂.step ⟨_,.write 1 0 (owner 2) rfl⟩
  have h₄ := h₃.step ⟨_,.unlink 0 (owner 1) rfl⟩
  have h₅ := h₄.step ⟨_,.openPath 2 (owner 3) rfl⟩
  have h₆ := h₅.step ⟨_,.lock 2 1 (owner 3) rfl rfl⟩
  exact ⟨h₆.step ⟨_,.write 2 1 (owner 3) rfl⟩,⟨_,_,rfl⟩,⟨_,_,rfl⟩⟩

def afterHandover : State :=
  (((afterRelease.unlink.set 0 none).openPath 1 (owner 2)).lock 1 (owner 2) 1).write 1 (owner 2) 1

theorem one_owner_handover : afterHandover.Holds 1 ∧ ∀ h, afterHandover.Holds h → h = 1 := by
  have hunshared : Unshared afterRelease (.unlink 0) := by
    intro h x inode _ hx
    by_cases h0 : h = 0
    · subst h0
      cases hx
      simp [Phase.file]
    · simp [afterRelease,State.unlock,State.write,State.lock,State.openPath,State.init,h0] at hx
  have h₁ := reach_afterRelease.step ⟨.unlink 0,hunshared,.unlink 0 (owner 1) rfl⟩
  have h₂ := h₁.step ⟨.openPath 1 (owner 2),trivial,.openPath 1 (owner 2) rfl⟩
  have h₃ := h₂.step ⟨.lock 1,trivial,.lock 1 1 (owner 2) rfl rfl⟩
  have h₄ : Runs.Reachable Init (Runs.Under Step Unshared) afterHandover :=
    h₃.step ⟨.write 1,trivial,.write 1 1 (owner 2) rfl⟩
  have hheld : afterHandover.Holds 1 := ⟨_,_,rfl⟩
  exact ⟨hheld,fun h hh => one_owner h₄ hh hheld⟩

end Synaps.Lock
