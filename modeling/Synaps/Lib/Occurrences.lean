import Mathlib.Data.List.Basic

/-!
Lists whose entries are made of parts. `counted` rewrites the entries one by one, each
with the number of parts in the entries before it; `flatMap_zipIdx_getElem?` finds the
entry that a part comes from.
-/

set_option autoImplicit false

namespace Occurrences

open List

variable {α β γ : Type}

/-- Every entry is rewritten by `f` at the number of parts counted before it. -/
def counted (parts : α → List γ) (f : Nat → α → β) : Nat → List α → List β
  | _, [] => []
  | k, x :: xs => f k x :: counted parts f (k + (parts x).length) xs

def rposition (p : α → Bool) : List α → Option Nat
  | [] => none
  | x :: xs =>
      match rposition p xs with
      | some i => some (i+1)
      | none => if p x then some 0 else none

section Counted

variable (parts : α → List γ) (f g : Nat → α → β)

theorem counted_getElem? (xs : List α) (k i : Nat) :
    (counted parts f k xs)[i]? = xs[i]?.map (f (k + ((xs.take i).flatMap parts).length)) := by
  induction xs generalizing k i with
  | nil => simp [counted]
  | cons x xs ih =>
    cases i with
    | zero => simp [counted]
    | succ i => simp [counted,ih,Nat.add_assoc]

theorem counted_eq_iff (xs : List α) (k : Nat) : counted parts f k xs = counted parts g k xs ↔
      ∀ i x, xs[i]? = some x → f (k + ((xs.take i).flatMap parts).length) x =
          g (k + ((xs.take i).flatMap parts).length) x := by
  constructor
  · intro h i x hx
    have hi := congrArg (·[i]?) h
    simpa [counted_getElem?,hx] using hi
  · intro h
    refine ext_getElem? (fun i => ?_)
    rw [counted_getElem?,counted_getElem?]
    cases hx : xs[i]? with
    | none => rfl
    | some x => exact congrArg some (h i x hx)

theorem flatMap_counted_drop {after : β → List γ} {n : Nat}
    (h : ∀ k x, after (f k x) = (parts x).drop (n - k)) (xs : List α) (k : Nat) :
    (counted parts f k xs).flatMap after = (xs.flatMap parts).drop (n - k) := by
  induction xs generalizing k with
  | nil => simp [counted]
  | cons x xs ih =>
    simp only [counted,flatMap_cons,h,ih,drop_append]
    rw [Nat.sub_add_eq]

theorem flatMap_counted_same {δ : Type} {before : α → List δ} {after : β → List δ}
    (h : ∀ k x, after (f k x) = before x) (xs : List α) (k : Nat) :
    (counted parts f k xs).flatMap after = xs.flatMap before := by
  induction xs generalizing k with
  | nil => rfl
  | cons x xs ih => simp [counted,h,ih]

theorem counted_id {parts : α → List γ} {f : Nat → α → α} {xs : List α}
    {k : Nat} (h : ∀ j, k ≤ j → ∀ x ∈ xs, f j x = x) : counted parts f k xs = xs := by
  induction xs generalizing k with
  | nil => rfl
  | cons x xs ih =>
    have hx : f k x = x := h k (Nat.le_refl k) x (by simp)
    have hxs := ih (k := k + (parts x).length) (fun j hj y hy => h j (by omega) y (by simp [hy]))
    rw [counted,hx,hxs]

theorem counted_congr {n : Nat} {xs : List α} {k : Nat}
    (h : ∀ j x, j + (parts x).length ≤ n → f j x = g j x)
    (hn : k + (xs.flatMap parts).length ≤ n) : counted parts f k xs = counted parts g k xs := by
  induction xs generalizing k with
  | nil => rfl
  | cons x xs ih =>
    rw [flatMap_cons,length_append] at hn
    rw [counted,counted,h k x (by omega),ih (by omega)]

end Counted

variable {xs : List α}

/-- The part at index `n` of numbered entries comes from the entry before which at most
`n` parts are. -/
theorem flatMap_zipIdx_getElem? {δ : Type} (parts : α → List γ) {numbered : α × Nat → List δ}
    (hlen : ∀ e, (numbered e).length = (parts e.1).length) {k n : Nat} {y : δ}
    (h : ((xs.zipIdx k).flatMap numbered)[n]? = some y) :
    ∃ i x, xs[i]? = some x ∧ ((xs.take i).flatMap parts).length ≤ n ∧
      (numbered (x,k+i))[n - ((xs.take i).flatMap parts).length]? = some y := by
  induction xs generalizing k n with
  | nil => simp at h
  | cons x xs ih =>
    have hx : (numbered (x,k)).length = (parts x).length := hlen (x,k)
    rw [zipIdx_cons,flatMap_cons] at h
    by_cases hn : n < (numbered (x,k)).length
    · rw [getElem?_append_left hn] at h
      exact ⟨0,x,rfl,by simp,by simpa using h⟩
    rw [getElem?_append_right (by omega)] at h
    obtain ⟨i,z,hz,hle,hy⟩ := ih h
    refine ⟨i+1,z,hz,?_,?_⟩
    · simp only [take_succ_cons,flatMap_cons,length_append]
      omega
    · rw [take_succ_cons,flatMap_cons,length_append,Nat.sub_add_eq,← hx,
        show k + (i+1) = k + 1 + i by omega]
      exact hy

theorem length_flatMap_zipIdx {δ : Type} {parts : α → List γ} {numbered : α × Nat → List δ}
    (hlen : ∀ e, (numbered e).length = (parts e.1).length) (xs : List α) (k : Nat) :
    ((xs.zipIdx k).flatMap numbered).length = (xs.flatMap parts).length := by
  induction xs generalizing k with
  | nil => rfl
  | cons x xs ih => simp only [zipIdx_cons,flatMap_cons,length_append,hlen,ih]

theorem flatMap_take_le (parts : α → List γ) (xs : List α) {i j : Nat} (h : i ≤ j) :
    ((xs.take i).flatMap parts).length ≤ ((xs.take j).flatMap parts).length := by
  obtain ⟨more,hm⟩ := take_prefix_take_left (l := xs) h
  rw [← hm,flatMap_append,length_append]
  omega

theorem flatMap_take_succ (parts : α → List γ) {i : Nat} {x : α} (h : xs[i]? = some x) :
    ((xs.take (i+1)).flatMap parts).length =
      ((xs.take i).flatMap parts).length + (parts x).length := by
  simp [take_add_one,h]

variable {p : α → Bool}

theorem rposition_eq_none (h : ∀ x ∈ xs, p x = false) : rposition p xs = none := by
  induction xs with
  | nil => rfl
  | cons x xs ih => simp [rposition,ih (fun y hy => h y (by simp [hy])),h x (by simp)]

theorem le_rposition {k : Nat} {x : α} (hk : xs[k]? = some x) (hx : p x = true) :
    ∃ i, rposition p xs = some i ∧ k ≤ i := by
  induction xs generalizing k with
  | nil => simp at hk
  | cons y xs ih =>
    cases k with
    | zero =>
      obtain rfl : y = x := by simpa using hk
      cases hr : rposition p xs with
      | none => exact ⟨0,by simp [rposition,hr,hx],Nat.le_refl 0⟩
      | some i => exact ⟨i+1,by simp [rposition,hr],Nat.zero_le _⟩
    | succ k =>
      obtain ⟨i,hi,hki⟩ := ih (by simpa using hk)
      exact ⟨i+1,by simp [rposition,hi],by omega⟩

theorem rposition_getElem? {i : Nat} (h : rposition p xs = some i) :
    ∃ x, xs[i]? = some x ∧ p x = true := by
  induction xs generalizing i with
  | nil => simp [rposition] at h
  | cons y xs ih =>
    unfold rposition at h
    split at h
    · rename_i j hj
      cases h
      exact ih hj
    · split at h
      · rename_i hy
        cases h
        exact ⟨y,rfl,hy⟩
      · cases h

theorem rposition_append {x : α} {rest : List α} (hx : p x = true) (hr : ∀ y ∈ rest, p y = false)
    (before : List α) : rposition p (before ++ x :: rest) = some before.length := by
  induction before with
  | nil => simp [rposition,rposition_eq_none hr,hx]
  | cons y before ih => simp [rposition,ih]

end Occurrences
