import Mathlib.Data.List.Basic

/-!
Computations that may fail: what a successful one says about its parts.
-/

set_option autoImplicit false

namespace Outcome

variable {ε α β : Type}

theorem bind_ok {x : Except ε α} {f : α → Except ε β} {b : β} (h : x >>= f = .ok b) :
    ∃ a, x = .ok a ∧ f a = .ok b := by
  cases x with
  | error e => simp [bind,Except.bind] at h
  | ok a => exact ⟨a,rfl,h⟩

theorem ok_of_toOption {x : Except ε α} {a : α} (h : x.toOption = some a) : x = .ok a := by
  cases x with
  | error e => simp [Except.toOption] at h
  | ok b => simpa [Except.toOption] using h

theorem foldlM_ok_left {f : β → α → Except ε β} {xs ys : List α} {s t : β}
    (h : (xs ++ ys).foldlM f s = .ok t) : ∃ u, xs.foldlM f s = .ok u := by
  rw [List.foldlM_append] at h
  obtain ⟨u,hu,-⟩ := bind_ok h
  exact ⟨u,hu⟩

theorem foldlM_ok_mem {f : β → α → Except ε β} {xs : List α} {s t : β}
    (h : xs.foldlM f s = .ok t) {x : α} (hx : x ∈ xs) : ∃ a b, f a x = .ok b := by
  obtain ⟨front,rest,rfl⟩ := List.append_of_mem hx
  rw [List.foldlM_append] at h
  obtain ⟨a,-,h⟩ := bind_ok h
  obtain ⟨b,hb,-⟩ := bind_ok h
  exact ⟨a,b,hb⟩

/-- Two computations that give the same where both succeed. -/
def Agree (x y : Except ε α) : Prop := ∀ a b, x = .ok a → y = .ok b → a = b

theorem Agree.refl (x : Except ε α) : Agree x x := fun _ _ ha hb =>
  Except.ok.inj (ha.symm.trans hb)

theorem agree_of_eq {x y : Except ε α} (h : x = y) : Agree x y := h ▸ Agree.refl x

theorem Agree.bind {x y : Except ε α} {f g : α → Except ε β} (h : Agree x y)
    (hfg : ∀ a, Agree (f a) (g a)) : Agree (x >>= f) (y >>= g) := by
  intro b c hb hc
  obtain ⟨a,ha,hb⟩ := bind_ok hb
  obtain ⟨a',ha',hc⟩ := bind_ok hc
  obtain rfl := h a a' ha ha'
  exact hfg a b c hb hc

end Outcome
