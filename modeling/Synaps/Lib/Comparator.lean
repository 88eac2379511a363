import Mathlib.Data.List.Sort
import Mathlib.Data.List.Perm.Basic
import Mathlib.Data.List.Pairwise

/-!
Comparators that return an `Ordering`, lexicographic ones and sorting by one; and merging lists by
taking a head that no other head precedes, over and over.
-/

set_option autoImplicit false

namespace Comparator

open Std

variable {α τ : Type}

section Tagged

variable [Ord τ] [TransOrd τ] [LawfulEqOrd τ]

def tagged (tag : α → τ) (cmp : τ → α → α → Ordering) (a b : α) : Ordering :=
  (compare (tag a) (tag b)).then (cmp (tag a) a b)

variable {tag : α → τ} {cmp : τ → α → α → Ordering}

theorem tagged_eq_swap [∀ t, OrientedCmp (cmp t)] (a b : α) :
    tagged tag cmp a b = (tagged tag cmp b a).swap := by
  rw [tagged,tagged,Ordering.swap_then,← OrientedCmp.eq_swap]
  cases h : compare (tag a) (tag b) with
  | lt | gt => rfl
  | eq =>
    rw [LawfulEqOrd.eq_of_compare h,Ordering.eq_then,Ordering.eq_then]
    exact OrientedCmp.eq_swap

instance [∀ t, TransCmp (cmp t)] : TransCmp (tagged tag cmp) where
  eq_swap := tagged_eq_swap _ _
  isLE_trans {a b c} hab hbc := by
    obtain ⟨hab₁,hab₂⟩ := Ordering.isLE_then_iff_and.mp hab
    obtain ⟨hbc₁,hbc₂⟩ := Ordering.isLE_then_iff_and.mp hbc
    refine Ordering.isLE_then_iff_and.mpr ⟨TransCmp.isLE_trans hab₁ hbc₁,?_⟩
    cases hb : compare (tag a) (tag b) with
    | gt =>
      rw [hb] at hab₁
      cases hab₁
    | lt => exact .inl (TransCmp.lt_of_lt_of_isLE hb hbc₁)
    | eq =>
      have htag := LawfulEqOrd.eq_of_compare hb
      rw [hb] at hab₂
      have hcmp := hab₂.resolve_left (by decide)
      rcases hbc₂ with hlt | hbc₂
      · exact .inl (htag ▸ hlt)
      · rw [← htag] at hbc₂
        exact .inr (TransCmp.isLE_trans hcmp hbc₂)

end Tagged

section Sorting

def sortBy (cmp : α → α → Ordering) (l : List α) : List α :=
  l.mergeSort fun a b => (cmp a b).isLE

variable {cmp : α → α → Ordering}

theorem sortBy_perm (l : List α) : (sortBy cmp l).Perm l := List.mergeSort_perm l _

theorem sortBy_pairwise [TransCmp cmp] (l : List α) :
    (sortBy cmp l).Pairwise fun a b => (cmp a b).isLE = true := by
  refine List.pairwise_mergeSort (fun a b c => TransCmp.isLE_trans) (fun a b => ?_) l
  rw [show cmp b a = (cmp a b).swap from OrientedCmp.eq_swap]
  cases cmp a b <;> rfl

theorem sortBy_eq_of_perm [TransCmp cmp] {l₁ l₂ : List α} (h : l₁.Perm l₂)
    (hcmp : ∀ a ∈ l₁, ∀ b ∈ l₁, cmp a b = .eq → a = b) : sortBy cmp l₁ = sortBy cmp l₂ := by
  refine List.Perm.eq_of_pairwise (fun a b ha hb hab hba => ?_) (sortBy_pairwise l₁)
    (sortBy_pairwise l₂) (((sortBy_perm l₁).trans h).trans (sortBy_perm l₂).symm)
  have ha := (sortBy_perm l₁).mem_iff.mp ha
  have hb := h.mem_iff.mpr ((sortBy_perm l₂).mem_iff.mp hb)
  exact hcmp a ha b hb (OrientedCmp.isLE_antisymm hab hba)

end Sorting

end Comparator

namespace Merge

open List

variable {α : Type} {r : α → α → Prop}

/-- `out` is taken from the heads of the lists, each time one that stands before every other
head in the order `r`. -/
inductive Merges (r : α → α → Prop) : List (List α) → List α → Prop
  | done {xss : List (List α)} (h : ∀ xs ∈ xss, xs = []) : Merges r xss []
  | step {xss : List (List α)} {i : Nat} {x : α} {xs out : List α}
      (hi : xss[i]? = some (x :: xs))
      (hmax : ∀ ys ∈ xss, ∀ y ∈ ys.head?, r x y)
      (h : Merges r (xss.set i xs) out) : Merges r xss (x :: out)

variable {xss : List (List α)}

theorem flatten_set_perm {i : Nat} {x : α} {xs : List α} (hi : xss[i]? = some (x :: xs)) :
    (x :: (xss.set i xs).flatten).Perm xss.flatten := by
  induction xss generalizing i with
  | nil => simp at hi
  | cons ys xss ih =>
    cases i with
    | zero =>
      simp only [getElem?_cons_zero,Option.some.injEq] at hi
      simp [hi]
    | succ i =>
      simp only [getElem?_cons_succ] at hi
      simp only [set_cons_succ,flatten_cons]
      exact (perm_middle.symm.trans (Perm.append_left ys (ih hi)))

theorem Merges.perm {out : List α} (h : Merges r xss out) : out.Perm xss.flatten := by
  induction h with
  | done h => rw [flatten_eq_nil_iff.mpr h]
  | step hi hmax h ih => exact (ih.cons _).trans (flatten_set_perm hi)

theorem Merges.sorted (htrans : ∀ a b c, r a b → r b c → r a c) {out : List α}
    (h : Merges r xss out) (hsorted : ∀ xs ∈ xss, xs.Pairwise r) : out.Pairwise r := by
  induction h with
  | done h => exact Pairwise.nil
  | @step xss i x xs out hi hmax h ih =>
    have hmem := mem_of_getElem? hi
    have hx := pairwise_cons.mp (hsorted _ hmem)
    have hrest : ∀ ys ∈ xss.set i xs, ys.Pairwise r := by
      intro ys hys
      rcases mem_or_eq_of_mem_set hys with hys | rfl
      · exact hsorted ys hys
      · exact hx.2
    refine pairwise_cons.mpr ⟨fun y hy => ?_,ih hrest⟩
    -- the element stands behind a head, or behind `x` in the list of `x`
    obtain ⟨ys,hys,hyy⟩ := mem_flatten.mp (h.perm.mem_iff.mp hy)
    rcases mem_or_eq_of_mem_set hys with hys | rfl
    · cases ys with
      | nil => cases hyy
      | cons z zs =>
        have hz : r x z := hmax _ hys z rfl
        rcases mem_cons.mp hyy with rfl | hyy
        · exact hz
        · exact htrans x z y hz ((pairwise_cons.mp (hsorted _ hys)).1 y hyy)
    · exact hx.1 y hyy

end Merge
