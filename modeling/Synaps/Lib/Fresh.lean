import Mathlib.Data.List.Nodup
import Mathlib.Data.List.Perm.Subperm

/-!
The search for something that is not used yet: a first choice, then a sequence of
candidates.
-/

set_option autoImplicit false

namespace Fresh

variable {α : Type} [DecidableEq α] (used : List α) (candidate : Nat → α)

def search : Nat → Nat → α → α
  | 0,_,x => x
  | fuel+1,n,x => if x ∈ used then search fuel (n+1) (candidate n) else x

variable {used candidate}

theorem search_of_notMem {fuel n : Nat} {x : α} (h : x ∉ used) :
    search used candidate fuel n x = x := by
  cases fuel with
  | zero => rfl
  | succ fuel => simp [search,h]

theorem search_range (fuel n : Nat) (x : α) : search used candidate fuel n x = x ∨
      ∃ m, n ≤ m ∧ m < n+fuel ∧ search used candidate fuel n x = candidate m := by
  induction fuel generalizing n x with
  | zero => exact .inl rfl
  | succ fuel ih =>
    by_cases hx : x ∈ used
    · simp only [search,hx,if_true]
      rcases ih (n+1) (candidate n) with heq | ⟨m,hm,hlt,heq⟩
      · exact .inr ⟨n,Nat.le_refl n,by omega,heq⟩
      · exact .inr ⟨m,by omega,by omega,heq⟩
    · exact .inl (search_of_notMem hx)

theorem search_mem {fuel n : Nat} {x : α} (h : search used candidate fuel n x ∈ used) :
    x ∈ used ∧ ∀ i < fuel,candidate (n+i) ∈ used := by
  induction fuel generalizing n x with
  | zero => exact ⟨h,fun i hi => absurd hi (Nat.not_lt_zero i)⟩
  | succ fuel ih =>
    by_cases hx : x ∈ used
    · simp only [search,hx,if_true] at h
      obtain ⟨hfirst,hrest⟩ := ih h
      refine ⟨hx,fun i hi => ?_⟩
      cases i with
      | zero => exact hfirst
      | succ i =>
        have hmem := hrest i (by omega)
        rwa [show n+1+i = n+(i+1) by omega] at hmem
    · rw [search_of_notMem hx] at h
      exact absurd h hx

theorem search_notMem (hinj : Function.Injective candidate) {fuel : Nat}
    (hfuel : used.length < fuel) (n : Nat) (x : α) : search used candidate fuel n x ∉ used := by
  intro h
  have hnodup : ((List.range fuel).map fun i => candidate (n+i)).Nodup :=
    List.nodup_range.map fun i j hij => Nat.add_left_cancel (hinj hij)
  have hsub : ((List.range fuel).map fun i => candidate (n+i)) ⊆ used := by
    intro y hy
    obtain ⟨i,hi,rfl⟩ := List.mem_map.mp hy
    exact (search_mem h).2 i (List.mem_range.mp hi)
  have hlen := (List.subperm_of_subset hnodup hsub).length_le
  rw [List.length_map,List.length_range] at hlen
  omega

end Fresh
