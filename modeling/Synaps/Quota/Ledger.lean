import Mathlib.Data.List.Count

/-!
The ledger of activations of one account: which generation is tracked, what is in flight, and
what the book of begun, refunded and rearmed attempts may say.
-/

set_option autoImplicit false

namespace Synaps.Keeper

open Option

inductive Entry where
  | begun (generation : Nat)
  | refunded (generation : Nat)
  | rearmed (generation : Nat)
  deriving DecidableEq

def begunIn (book : List Entry) (g : Nat) : Nat := book.count (.begun g)

def refundedIn (book : List Entry) (g : Nat) : Nat := book.count (.refunded g)

def rearmedIn (book : List Entry) (g : Nat) : Nat := book.count (.rearmed g)

def countRefund (g n : Nat) (e : Entry) : Nat :=
  if e = .rearmed g then 0 else if e = .refunded g then n + 1 else n

def refundedSinceRearm (book : List Entry) (g : Nat) : Nat := book.foldl (countRefund g) 0

section

variable (book book' : List Entry) (g : Nat)

@[simp] theorem begunIn_append :
    begunIn (book ++ book') g = begunIn book g + begunIn book' g := List.count_append

@[simp] theorem refundedIn_append :
    refundedIn (book ++ book') g = refundedIn book g + refundedIn book' g := List.count_append

@[simp] theorem rearmedIn_append :
    rearmedIn (book ++ book') g = rearmedIn book g + rearmedIn book' g := List.count_append

end

@[simp] theorem refundedSinceRearm_append (book : List Entry) (e : Entry) (g : Nat) :
    refundedSinceRearm (book ++ [e]) g = countRefund g (refundedSinceRearm book g) e := by
  simp [refundedSinceRearm]

inductive Stage where
  | idle
  | awaiting (generation : Nat)
  | pending (generation : Nat)
  | unverified (generation : Nat)
  deriving DecidableEq

def Stage.generation : Stage → Option Nat
  | .idle => none
  | .awaiting g => some g
  | .pending g => some g
  | .unverified g => some g

structure Ledger where
  stage : Stage
  tracked : Option Nat
  spent : Nat
  unsent : Nat
  fresh : Bool
  deriving DecidableEq

namespace Ledger

variable (l : Ledger)

/-- A generation that was not tracked before starts with fresh counters. -/
def track (r : Nat) : Ledger :=
  if l.tracked = some r then l else { l with tracked := some r, spent := 0, unsent := 0 }

/-- A window has ended: the account awaits an activation, or has spent its attempts. -/
def conclude (limit g : Nat) : Ledger :=
  { l with stage := if limit ≤ l.spent then .unverified g else .awaiting g }

def Before (r : Nat) : Prop := ∀ p, l.tracked = some p → p ≤ r

end Ledger

/-- What a window's end does: a stage of that generation stays, or it is concluded anew. -/
inductive Ended (limit g : Nat) (l : Ledger) : Ledger → Prop where
  | still (h : l.stage.generation = some g) : Ended limit g l l
  | concluded : Ended limit g l (l.conclude limit g)

/-- What a poll can do, where `Due g` says that the reading shows the generation `g` due. -/
inductive Polled (limit : Nat) (Due : Nat → Prop) (l : Ledger) : Ledger → Prop where
  | failed : Polled limit Due l { l with fresh := false }
  | expired {g : Nat} (h : l.stage = .pending g) :
      Polled limit Due l { l.conclude limit g with fresh := false }
  | settled (fresh : Bool) : Polled limit Due l { l with stage := .idle, fresh := fresh }
  | moved {r : Nat} (hr : l.Before r) :
      Polled limit Due l { l.track r with stage := .idle, fresh := true }
  | kept {r g : Nat} (hr : l.Before r) (h : l.stage = .pending g) :
      Polled limit Due l { l.track r with fresh := true }
  | due {g : Nat} {l' : Ledger} (hg : Due g) (hr : l.Before g) (h : Ended limit g (l.track g) l') :
      Polled limit Due l { l' with fresh := true }

structure Began (limit maxUnsent g : Nat) (l l' : Ledger) : Prop where
  stage : l.stage = .awaiting g
  spent : l.spent < limit
  unsent : l.unsent < maxUnsent
  fresh : l.fresh = true
  after : l' = { l with stage := .pending g, spent := l.spent + 1 }

structure Refunded (g : Nat) (l l' : Ledger) : Prop where
  stage : l.stage = .pending g
  after : ∃ stage, (stage = .awaiting g ∨ stage = .idle) ∧
    l' = { l with stage := stage, spent := l.spent - 1, unsent := l.unsent + 1 }

structure Rearmed (g : Nat) (l l' : Ledger) : Prop where
  stage : l.stage = .unverified g
  after : l' = { l with stage := .awaiting g, spent := 0, unsent := 0 }

section

variable (l : Ledger) (r : Nat)

@[simp] theorem Ledger.track_tracked : (l.track r).tracked = some r := by
  unfold Ledger.track
  split <;> simp_all

@[simp] theorem Ledger.track_stage : (l.track r).stage = l.stage := by
  unfold Ledger.track
  split <;> rfl

theorem Ledger.track_spent_le : (l.track r).spent ≤ l.spent := by
  unfold Ledger.track
  split <;> simp

theorem Ledger.track_unsent_le : (l.track r).unsent ≤ l.unsent := by
  unfold Ledger.track
  split <;> simp

end

theorem Ledger.track_of_tracked {l : Ledger} {r : Nat} (h : l.tracked = some r) :
    l.track r = l := if_pos h

theorem Ledger.conclude_generation (l : Ledger) (limit g : Nat) :
    (l.conclude limit g).stage.generation = some g := by
  unfold Ledger.conclude
  split <;> rfl

theorem Ledger.conclude_ne_pending (l : Ledger) (limit g k : Nat) :
    (l.conclude limit g).stage ≠ .pending k := by
  unfold Ledger.conclude
  split <;> simp

@[simp] theorem Ledger.track_fresh (l : Ledger) (r : Nat) : (l.track r).fresh = l.fresh := by
  unfold Ledger.track
  split <;> rfl

theorem Ledger.Before.count_eq_zero {l : Ledger} {r : Nat} {count : Nat → Nat} (hr : l.Before r)
    (h : ∀ g, 0 < count g → ∃ p, l.tracked = some p ∧ g ≤ p) (hne : l.tracked ≠ some r) :
    count r = 0 := by
  by_contra hpos
  obtain ⟨p,hp,hle⟩ := h r (by omega)
  have := hr p hp
  exact hne (hp.trans (congrArg some (by omega)))

section

variable {limit g : Nat} {l l' : Ledger} (h : Ended limit g l l')

include h

theorem Ended.generation : l'.stage.generation = some g := by
  cases h with
  | still hs => exact hs
  | concluded => exact l.conclude_generation limit g

theorem Ended.counts : l'.tracked = l.tracked ∧ l'.spent = l.spent ∧ l'.unsent = l.unsent := by
  cases h <;> exact ⟨rfl,rfl,rfl⟩

theorem Ended.pending {k : Nat} (hk : l'.stage = .pending k) : l.stage = .pending k := by
  cases h with
  | still hs => exact hk
  | concluded => exact absurd hk (l.conclude_ne_pending limit g k)

end

theorem Ledger.with_fresh {l : Ledger} (h : l.fresh = true) : { l with fresh := true } = l := by
  rw [← h]

namespace Polled

variable {limit g r : Nat} {Due : Nat → Prop} {l l' : Ledger}

theorem of_fresh {fresh : Bool} (h : Polled limit Due { l with fresh := fresh } l') :
    Polled limit Due l l' := by
  have htrack : ∀ r, Ledger.track { l with fresh := fresh } r = { l.track r with fresh := fresh } := by
    intro r
    unfold Ledger.track
    split <;> rfl
  cases h with
  | failed => exact .failed
  | expired h => exact .expired h
  | settled fresh => exact .settled fresh
  | moved hr => exact htrack _ ▸ .moved hr
  | kept hr h => exact htrack _ ▸ .kept hr h
  | @due g l' hg hr h =>
    rw [htrack] at h
    cases h with
    | still hs => exact @due limit Due l g (l.track g) hg hr (.still hs)
    | concluded => exact @due limit Due l g ((l.track g).conclude limit g) hg hr .concluded

section

variable (hf : l.fresh = true)

include hf

theorem ended (hg : Due g) (hr : l.Before g) (h : Ended limit g (l.track g) l') :
    Polled limit Due l l' := by
  have hfresh : l'.fresh = true := by
    cases h <;> simp [Ledger.conclude,hf]
  exact Ledger.with_fresh hfresh ▸ .due hg hr h

theorem keeps (hr : l.Before r) (h : l.stage = .pending g) : Polled limit Due l (l.track r) :=
  Ledger.with_fresh ((l.track_fresh r).trans hf) ▸ .kept hr h

theorem moves (hr : l.Before r) : Polled limit Due l { l.track r with stage := .idle } := by
  have hfresh : ({ l.track r with stage := .idle } : Ledger).fresh = true := (l.track_fresh r).trans hf
  exact Ledger.with_fresh hfresh ▸ .moved hr

theorem settles : Polled limit Due l { l with stage := .idle } := by
  have hfresh : ({ l with stage := .idle } : Ledger).fresh = true := hf
  exact Ledger.with_fresh hfresh ▸ .settled true

end

end Polled

/-- Nothing was spent, and no attempt is in flight or unverified. -/
def Ledger.Untried (l : Ledger) : Prop :=
  l.spent = 0 ∧ (l.stage = .idle ∨ ∃ g, l.stage = .awaiting g)

section

variable {l : Ledger} (h : l.Untried)

include h

theorem Ledger.Untried.not_pending (g : Nat) : l.stage ≠ .pending g := by
  rcases h.2 with hs | ⟨k,hs⟩ <;> simp [hs]

theorem Ledger.Untried.not_unverified (g : Nat) : l.stage ≠ .unverified g := by
  rcases h.2 with hs | ⟨k,hs⟩ <;> simp [hs]

theorem Ledger.Untried.polled {limit : Nat} {Due : Nat → Prop} {l' : Ledger} (hlimit : 0 < limit)
    (hp : Polled limit Due l l') : l'.Untried := by
  have htrack : ∀ r, (l.track r).spent = 0 := by
    intro r
    have := l.track_spent_le r
    have := h.1
    omega
  cases hp with
  | failed => exact h
  | expired hg | kept hr hg => exact absurd hg (h.not_pending _)
  | settled fresh => exact ⟨h.1,.inl rfl⟩
  | moved hr => exact ⟨htrack _,.inl rfl⟩
  | @due g l' hg hr he =>
    cases he with
    | still hs =>
      refine ⟨htrack g,?_⟩
      simpa using h.2
    | concluded =>
      refine ⟨htrack g,.inr ⟨g,?_⟩⟩
      simp only [Ledger.conclude,htrack]
      exact if_neg (by omega)

end

structure Sound (l : Ledger) (book : List Entry) : Prop where
  spent_le : l.spent ≤ 1
  known : ∀ g, 0 < begunIn book g → ∃ p, l.tracked = some p ∧ g ≤ p
  staged : ∀ g, l.stage.generation = some g → ∃ p, l.tracked = some p ∧ g ≤ p
  counted : ∀ p, l.tracked = some p →
    begunIn book p ≤ refundedIn book p + rearmedIn book p + l.spent
  budget : ∀ g, begunIn book g ≤ refundedIn book g + rearmedIn book g + 1
  -- A superseded generation that may be activated once more has nothing outstanding.
  ready : ∀ g, l.stage = .awaiting g → l.fresh = true → l.tracked ≠ some g →
    begunIn book g ≤ refundedIn book g + rearmedIn book g
  -- While a superseded generation is in the stage, the tracked one has no attempts.
  untouched : ∀ p g, l.tracked = some p → l.stage.generation = some g → g ≠ p →
    begunIn book p = 0

namespace Sound

variable {l l' : Ledger} {book : List Entry} {limit g r : Nat}

section

variable (h : Sound l book) (hr : l.Before r)

include h hr

theorem counted_track :
    begunIn book r ≤ refundedIn book r + rearmedIn book r + (l.track r).spent := by
  by_cases ht : l.tracked = some r
  · rw [Ledger.track_of_tracked ht]
    exact h.counted r ht
  · rw [hr.count_eq_zero h.known ht]
    exact Nat.zero_le _

theorem known_track (k : Nat) (hk : 0 < begunIn book k) : k ≤ r := by
  obtain ⟨p,hp,hle⟩ := h.known k hk
  exact Nat.le_trans hle (hr p hp)

theorem of_track (ht : l'.tracked = some r) (hs : l'.spent = (l.track r).spent)
    (hstage : ∀ k, l'.stage.generation = some k → k ≤ r ∧ (k ≠ r → begunIn book r = 0))
    (hready : ∀ k, l'.stage = .awaiting k → k = r) :
    Sound l' book where
  spent_le := hs ▸ Nat.le_trans (l.track_spent_le r) h.spent_le
  known := fun k hk => ⟨r,ht,h.known_track hr k hk⟩
  staged := fun k hk => ⟨r,ht,(hstage k hk).1⟩
  counted := by
    intro p hp
    cases ht.symm.trans hp
    exact hs ▸ h.counted_track hr
  budget := h.budget
  ready := by
    intro k hk _ hne
    obtain rfl := hready k hk
    exact absurd ht hne
  untouched := by
    intro p k hp hk hne
    cases ht.symm.trans hp
    exact (hstage k hk).2 hne

end

section

variable (h : Sound l book)

include h

theorem of_stage (ht : l'.tracked = l.tracked) (hs : l'.spent = l.spent)
    (hstage : ∀ k, l'.stage.generation = some k → l.stage.generation = some k)
    (hready : ∀ k, l'.stage = .awaiting k → l'.fresh = true → l.tracked ≠ some k →
      begunIn book k ≤ refundedIn book k + rearmedIn book k) : Sound l' book where
  spent_le := hs ▸ h.spent_le
  known := ht ▸ h.known
  staged := fun k hk => ht ▸ h.staged k (hstage k hk)
  counted := fun p hp => hs ▸ h.counted p (ht ▸ hp)
  budget := h.budget
  ready := fun k hk hf hne => hready k hk hf (ht ▸ hne)
  untouched := fun p k hp hk hne => h.untouched p k (ht ▸ hp) (hstage k hk) hne

theorem polled {Due : Nat → Prop} (hp : Polled limit Due l l') : Sound l' book := by
  cases hp with
  | failed => exact h.of_stage rfl rfl (fun _ hk => hk) nofun
  | @expired g hg =>
    refine h.of_stage rfl rfl (fun k hk => ?_) nofun
    rw [hg]
    exact (l.conclude_generation limit g).symm.trans hk
  | settled fresh =>
    exact h.of_stage rfl rfl nofun nofun
  | moved hr =>
    exact h.of_track hr (by simp) rfl nofun nofun
  | @kept r g hr hg =>
    refine h.of_track hr (by simp) rfl (fun k hk => ?_) (fun k hk => ?_)
    · have hgen : l.stage.generation = some k := by simpa using hk
      obtain ⟨p,hp,hle⟩ := h.staged k hgen
      refine ⟨Nat.le_trans hle (hr p hp),fun hne => ?_⟩
      by_cases ht : l.tracked = some r
      · exact h.untouched r k ht hgen hne
      · exact hr.count_eq_zero h.known ht
    · simp [hg] at hk
  | @due g l' hg hr he =>
    obtain ⟨ht,hs,-⟩ := he.counts
    have hstage (k : Nat) (hk : l'.stage.generation = some k) : k = g :=
      some.inj (hk.symm.trans he.generation)
    refine h.of_track hr (ht.trans (l.track_tracked g)) hs (fun k hk => ?_)
      (fun k hk => hstage k (by rw [hk]; rfl))
    obtain rfl := hstage k hk
    exact ⟨Nat.le_refl _,fun hne => absurd rfl hne⟩

theorem began {maxUnsent : Nat} (hb : Began 1 maxUnsent g l l') :
    Sound l' (book ++ [.begun g]) := by
  obtain ⟨hstage,hspent,-,hfresh,rfl⟩ := hb
  have hgen : l.stage.generation = some g := by rw [hstage]; rfl
  have hzero : l.spent = 0 := by omega
  refine ⟨by simp [hzero],?_,?_,?_,?_,by simp,?_⟩
  · intro k hk
    by_cases hkg : k = g
    · exact hkg ▸ h.staged g hgen
    · refine h.known k ?_
      simpa [begunIn,List.count_cons,Ne.symm hkg] using hk
  · intro k hk
    obtain rfl : g = k := by simpa [Stage.generation] using hk
    exact h.staged g hgen
  · intro p hp
    have hc := h.counted p hp
    have : begunIn [.begun g] p ≤ 1 := List.count_le_length
    simp only [begunIn_append,refundedIn_append,rearmedIn_append]
    omega
  · intro k
    have hb := h.budget k
    by_cases hkg : g = k
    · subst hkg
      have hle : begunIn book g ≤ refundedIn book g + rearmedIn book g := by
        by_cases ht : l.tracked = some g
        · have := h.counted g ht
          omega
        · exact h.ready g hstage hfresh ht
      simp [begunIn,refundedIn,rearmedIn] at hle ⊢
      omega
    · simpa [begunIn,refundedIn,rearmedIn,List.count_cons,hkg] using hb
  · intro p k hp hk hne
    obtain rfl : g = k := by simpa [Stage.generation] using hk
    simpa [begunIn,List.count_cons,hne] using h.untouched p g hp hgen hne

theorem credited {e : Entry} (he : e = .refunded g ∨ e = .rearmed g)
    (hgen : l.stage.generation = some g) (ht : l'.tracked = l.tracked) (hspent : l'.spent ≤ 1)
    (hstage : ∀ k, l'.stage.generation = some k → k = g) : Sound l' (book ++ [e]) := by
  have hbegun : ∀ k, begunIn (book ++ [e]) k = begunIn book k := by
    rcases he with rfl | rfl <;> simp [begunIn]
  have hself : refundedIn (book ++ [e]) g + rearmedIn (book ++ [e]) g =
      refundedIn book g + rearmedIn book g + 1 := by
    rcases he with rfl | rfl <;> simp [refundedIn,rearmedIn] <;> omega
  have hbudget := h.budget g
  refine ⟨hspent,?_,?_,?_,?_,?_,?_⟩
  · intro k hk
    exact ht ▸ h.known k (hbegun k ▸ hk)
  · intro k hk
    obtain rfl := hstage k hk
    exact ht ▸ h.staged k hgen
  · intro p hp
    rw [hbegun]
    by_cases hpg : p = g
    · subst hpg
      omega
    · rw [h.untouched p g (ht ▸ hp) hgen (Ne.symm hpg)]
      exact Nat.zero_le _
  · intro k
    have := h.budget k
    rw [hbegun,refundedIn_append,rearmedIn_append]
    omega
  · intro k hk _ _
    obtain rfl := hstage k (by rw [hk]; rfl)
    rw [hbegun]
    omega
  · intro p k hp hk hne
    obtain rfl := hstage k hk
    rw [hbegun]
    exact h.untouched p k (ht ▸ hp) hgen hne

theorem refunded (hr : Refunded g l l') : Sound l' (book ++ [.refunded g]) := by
  obtain ⟨hstage,stage,hnext,rfl⟩ := hr
  refine h.credited (.inl rfl) (by rw [hstage]; rfl) rfl (Nat.le_trans (Nat.sub_le _ _) h.spent_le) ?_
  rcases hnext with rfl | rfl <;> simp [Stage.generation,eq_comm]

theorem rearmed (hr : Rearmed g l l') : Sound l' (book ++ [.rearmed g]) := by
  obtain ⟨hstage,rfl⟩ := hr
  exact h.credited (.inr rfl) (by rw [hstage]; rfl) rfl (Nat.zero_le _)
    (by simp [Stage.generation,eq_comm])

end

theorem fresh (h : l.stage = .idle) (hs : l.spent = 0) : Sound l [] where
  spent_le := by omega
  known := by simp [begunIn]
  staged := by simp [h,Stage.generation]
  counted := by simp [begunIn]
  budget := by simp [begunIn]
  ready := by simp [h]
  untouched := by simp [begunIn]

end Sound

structure Tolerated (maxUnsent : Nat) (l : Ledger) (book : List Entry) : Prop where
  unsent_le : l.unsent ≤ maxUnsent
  pending_lt : ∀ g, l.stage = .pending g → l.unsent < maxUnsent
  known : ∀ g, 0 < refundedSinceRearm book g → ∃ p, l.tracked = some p ∧ g ≤ p
  counted : ∀ p, l.tracked = some p → refundedSinceRearm book p ≤ l.unsent
  bound : ∀ g, refundedSinceRearm book g ≤ maxUnsent
  -- A superseded attempt that is still pending may be refunded once more.
  pending_bound : ∀ g, l.stage = .pending g → l.tracked ≠ some g →
    refundedSinceRearm book g < maxUnsent
  untouched : ∀ p g, l.tracked = some p → l.stage.generation = some g → g ≠ p →
    refundedSinceRearm book p = 0

namespace Tolerated

variable {l l' : Ledger} {book : List Entry} {limit maxUnsent g r : Nat}

section

variable (h : Tolerated maxUnsent l book)

include h

theorem counted_track (hr : l.Before r) : refundedSinceRearm book r ≤ (l.track r).unsent := by
  by_cases ht : l.tracked = some r
  · rw [Ledger.track_of_tracked ht]
    exact h.counted r ht
  · rw [hr.count_eq_zero h.known ht]
    exact Nat.zero_le _

theorem pending_refunded (hg : l.stage = .pending g) : refundedSinceRearm book g < maxUnsent := by
  by_cases ht : l.tracked = some g
  · exact Nat.lt_of_le_of_lt (h.counted g ht) (h.pending_lt g hg)
  · exact h.pending_bound g hg ht

theorem of_track (hr : l.Before r) (ht : l'.tracked = some r) (hu : l'.unsent = (l.track r).unsent)
    (hpending : ∀ k, l'.stage = .pending k → l.stage = .pending k)
    (hstage : ∀ k, l'.stage.generation = some k → k ≠ r → refundedSinceRearm book r = 0) :
    Tolerated maxUnsent l' book where
  unsent_le := hu ▸ Nat.le_trans (l.track_unsent_le r) h.unsent_le
  pending_lt := fun k hk =>
    hu ▸ Nat.lt_of_le_of_lt (l.track_unsent_le r) (h.pending_lt k (hpending k hk))
  known := by
    intro k hk
    obtain ⟨p,hp,hle⟩ := h.known k hk
    exact ⟨r,ht,Nat.le_trans hle (hr p hp)⟩
  counted := by
    intro p hp
    cases ht.symm.trans hp
    exact hu ▸ h.counted_track hr
  bound := h.bound
  pending_bound := fun k hk _ => h.pending_refunded (hpending k hk)
  untouched := by
    intro p k hp hk hne
    cases ht.symm.trans hp
    exact hstage k hk hne

theorem of_stage (ht : l'.tracked = l.tracked) (hu : l'.unsent = l.unsent)
    (hpending : ∀ k, l'.stage = .pending k → l.stage = .pending k)
    (hstage : ∀ k, l'.stage.generation = some k → l.stage.generation = some k) :
    Tolerated maxUnsent l' book where
  unsent_le := hu ▸ h.unsent_le
  pending_lt := fun k hk => hu ▸ h.pending_lt k (hpending k hk)
  known := ht ▸ h.known
  counted := fun p hp => hu ▸ h.counted p (ht ▸ hp)
  bound := h.bound
  pending_bound := fun k hk _ => h.pending_refunded (hpending k hk)
  untouched := fun p k hp hk hne => h.untouched p k (ht ▸ hp) (hstage k hk) hne

end

section

variable (h : Tolerated maxUnsent l book)

include h

theorem polled {Due : Nat → Prop} (hp : Polled limit Due l l') : Tolerated maxUnsent l' book := by
  cases hp with
  | failed => exact h.of_stage rfl rfl (fun _ hk => hk) (fun _ hk => hk)
  | @expired g hg =>
    refine h.of_stage rfl rfl (fun k hk => absurd hk (l.conclude_ne_pending limit g k))
      (fun k hk => ?_)
    rw [hg]
    exact (l.conclude_generation limit g).symm.trans hk
  | settled fresh => exact h.of_stage rfl rfl nofun nofun
  | moved hr => exact h.of_track hr (by simp) rfl nofun nofun
  | @kept r g hr hg =>
    refine h.of_track hr (by simp) rfl (fun k hk => by simpa using hk) (fun k hk hne => ?_)
    have hgen : l.stage.generation = some k := by simpa using hk
    by_cases ht : l.tracked = some r
    · exact h.untouched r k ht hgen hne
    · exact hr.count_eq_zero h.known ht
  | @due g l' hg hr he =>
    obtain ⟨ht,-,hu⟩ := he.counts
    refine h.of_track hr (ht.trans (l.track_tracked g)) hu
      (fun k hk => (l.track_stage g).symm.trans (he.pending hk)) (fun k hk hne => ?_)
    exact absurd (some.inj (hk.symm.trans he.generation)) hne

theorem began (hb : Began limit maxUnsent g l l') (ht : l.tracked = some g) :
    Tolerated maxUnsent l' (book ++ [.begun g]) := by
  obtain ⟨-,-,hunsent,-,rfl⟩ := hb
  have hcount : ∀ k, refundedSinceRearm (book ++ [.begun g]) k = refundedSinceRearm book k := by
    simp [countRefund]
  refine ⟨h.unsent_le,fun _ _ => hunsent,?_,?_,?_,?_,?_⟩
  · intro k hk
    exact h.known k (hcount k ▸ hk)
  · intro p hp
    exact hcount p ▸ h.counted p hp
  · intro k
    exact hcount k ▸ h.bound k
  · intro k hk hne
    obtain rfl : g = k := by simpa using hk
    exact absurd ht hne
  · intro p k hp hk hne
    obtain rfl : g = k := by simpa [Stage.generation] using hk
    exact absurd (some.inj (ht.symm.trans hp)) hne

theorem recounted {e : Entry} (hgen : l.stage.generation = some g) (ht : l'.tracked = l.tracked)
    (hstage : ∀ k, l'.stage.generation = some k → k = g) (hpending : ∀ k, l'.stage ≠ .pending k)
    (hunsent : l'.unsent ≤ maxUnsent)
    (hother : ∀ k, k ≠ g → refundedSinceRearm (book ++ [e]) k = refundedSinceRearm book k)
    (hknown : 0 < refundedSinceRearm (book ++ [e]) g → ∃ p, l.tracked = some p ∧ g ≤ p)
    (hcount : l.tracked = some g → refundedSinceRearm (book ++ [e]) g ≤ l'.unsent)
    (hbound : refundedSinceRearm (book ++ [e]) g ≤ maxUnsent) :
    Tolerated maxUnsent l' (book ++ [e]) := by
  refine ⟨hunsent,fun k hk => absurd hk (hpending k),?_,?_,?_,fun k hk => absurd hk (hpending k),?_⟩
  · intro k hk
    by_cases hkg : k = g
    · subst hkg
      exact ht ▸ hknown hk
    · exact ht ▸ h.known k (hother k hkg ▸ hk)
  · intro p hp
    by_cases hpg : p = g
    · subst hpg
      exact hcount (ht ▸ hp)
    · rw [hother p hpg,h.untouched p g (ht ▸ hp) hgen (Ne.symm hpg)]
      exact Nat.zero_le _
  · intro k
    by_cases hkg : k = g
    · exact hkg ▸ hbound
    · exact hother k hkg ▸ h.bound k
  · intro p k hp hk hne
    obtain rfl := hstage k hk
    rw [hother p (Ne.symm hne)]
    exact h.untouched p k (ht ▸ hp) hgen hne

theorem refunded (hs : Sound l book) (hr : Refunded g l l') :
    Tolerated maxUnsent l' (book ++ [.refunded g]) := by
  have hgen : l.stage.generation = some g := by rw [hr.stage]; rfl
  have hself : refundedSinceRearm (book ++ [.refunded g]) g = refundedSinceRearm book g + 1 := by
    simp [countRefund]
  have hlt := h.pending_refunded hr.stage
  have hunsent := h.pending_lt g hr.stage
  obtain ⟨-,stage,hnext,rfl⟩ := hr
  refine h.recounted hgen rfl ?_ ?_ hunsent ?_ (fun _ => hs.staged g hgen) (fun ht => ?_) ?_
  · rcases hnext with rfl | rfl <;> simp [Stage.generation,eq_comm]
  · rcases hnext with rfl | rfl <;> simp
  · intro k hk
    simp [countRefund,Ne.symm hk]
  · exact hself ▸ Nat.succ_le_succ (h.counted g ht)
  · exact hself ▸ hlt

theorem rearmed (hr : Rearmed g l l') : Tolerated maxUnsent l' (book ++ [.rearmed g]) := by
  obtain ⟨hstage,rfl⟩ := hr
  have hself : refundedSinceRearm (book ++ [.rearmed g]) g = 0 := by simp [countRefund]
  refine h.recounted (by rw [hstage]; rfl) rfl (by simp [Stage.generation,eq_comm]) (by simp)
    (Nat.zero_le _) (fun k hk => ?_) (fun hpos => ?_) (fun _ => Nat.le_of_eq hself)
    (hself ▸ Nat.zero_le _)
  · simp [countRefund,Ne.symm hk]
  · omega

end

theorem fresh (h : l.stage = .idle) (hu : l.unsent = 0) : Tolerated maxUnsent l [] where
  unsent_le := by omega
  pending_lt := by simp [h]
  known := by simp [refundedSinceRearm]
  counted := by simp [refundedSinceRearm]
  bound := by simp [refundedSinceRearm]
  pending_bound := by simp [h]
  untouched := by simp [refundedSinceRearm]

end Tolerated

end Synaps.Keeper
