import Mathlib.Logic.Relation

/-!
Transition systems: reachable states, invariants, and runs in which every step
meets a condition.
-/

set_option autoImplicit false

namespace Runs

variable {σ : Type} {Init : σ → Prop} {Step : σ → σ → Prop}

def Reachable (Init : σ → Prop) (Step : σ → σ → Prop) (s : σ) : Prop :=
  ∃ s₀, Init s₀ ∧ Relation.ReflTransGen Step s₀ s

/-- The steps of a labelled system that are taken under the condition `C` on the state
before the step and its label. -/
def Under {α : Type} (Step : σ → α → σ → Prop) (C : σ → α → Prop) (s t : σ) : Prop :=
  ∃ a, C s a ∧ Step s a t

def Next {α : Type} (Step : σ → α → σ → Prop) (s t : σ) : Prop := ∃ a, Step s a t

theorem Reachable.init {s : σ} (h : Init s) : Reachable Init Step s := ⟨s,h,.refl⟩

theorem Reachable.run {s t : σ} (h : Reachable Init Step s) (hst : Relation.ReflTransGen Step s t) :
    Reachable Init Step t := by
  obtain ⟨s₀,h₀,hs⟩ := h
  exact ⟨s₀,h₀,hs.trans hst⟩

theorem Reachable.mono {Step' : σ → σ → Prop} {s : σ} (h : Reachable Init Step s)
    (hle : ∀ a b, Step a b → Step' a b) : Reachable Init Step' s := by
  obtain ⟨s₀,h₀,hs⟩ := h
  exact ⟨s₀,h₀,Relation.ReflTransGen.mono hle _ _ hs⟩

theorem Under.next {α : Type} {Act : σ → α → σ → Prop} {C : σ → α → Prop} (s t : σ)
    (h : Under Act C s t) : Next Act s t := by
  obtain ⟨a,-,ha⟩ := h
  exact ⟨a,ha⟩

theorem Reachable.step {s t : σ} (h : Reachable Init Step s) (hst : Step s t) :
    Reachable Init Step t := h.run (.single hst)

theorem run_invariant {s t : σ} (hst : Relation.ReflTransGen Step s t) (Inv : σ → Prop)
    (hs : Inv s) (hstep : ∀ a b, Inv a → Step a b → Inv b) : Inv t := by
  induction hst with
  | refl => exact hs
  | tail _ hab ih => exact hstep _ _ ih hab

theorem Reachable.invariant {s : σ} (h : Reachable Init Step s) (Inv : σ → Prop)
    (hinit : ∀ a, Init a → Inv a) (hstep : ∀ a b, Inv a → Step a b → Inv b) : Inv s := by
  obtain ⟨s₀,h₀,hs⟩ := h
  exact run_invariant hs Inv (hinit s₀ h₀) hstep

theorem Reachable.foldlM {α : Type} {f : σ → α → Option σ}
    (hf : ∀ a x b, f a x = some b → Step a b) {labels : List α} {s t : σ}
    (hs : Reachable Init Step s) (h : labels.foldlM f s = some t) : Reachable Init Step t := by
  induction labels generalizing s with
  | nil => exact Option.some.inj h ▸ hs
  | cons x labels ih =>
    rw [List.foldlM_cons] at h
    obtain ⟨u,hu,ht⟩ := Option.bind_eq_some_iff.mp h
    exact ih (hs.step (hf s x u hu)) ht

end Runs
