import Mathlib.Data.Finset.Card

/-!
Disjoint sets in an array of parents, with path halving and without ranks.
-/

set_option autoImplicit false

namespace UnionFind

open Function

abbrev Parents := Nat → Nat

def halve (p : Parents) (i : Nat) : Parents := Function.update p i (p (p i))

def find : Nat → Parents → Nat → Parents × Nat
  | 0, p, i => (p,i)
  | fuel + 1, p, i => if p i = i then (p,i) else find fuel (halve p i) (halve p i i)

def join (n : Nat) (p : Parents) (i j : Nat) : Parents :=
  let a := find n p i
  let c := find n a.1 j
  Function.update c.1 a.2 c.2

def findAll (n : Nat) : Parents → List Nat → List Nat
  | _, [] => []
  | p, i :: is => (find n p i).2 :: findAll n (find n p i).1 is

/-- Parents stay below `n`, and no chain of them comes back to where it was. -/
structure Forest (n : Nat) (p : Parents) : Prop where
  lt : ∀ i, i < n → p i < n
  descends : ∃ rank : Nat → Nat, ∀ i, i < n → p i ≠ i → rank (p i) < rank i

def Reach (p : Parents) (k x r : Nat) : Prop := p^[k] x = r ∧ p r = r

def Root (p : Parents) (x r : Nat) : Prop := ∃ k, Reach p k x r

theorem forest_id (n : Nat) : Forest n id :=
  ⟨fun _ hi => hi,fun i => i,fun _ _ h => absurd rfl h⟩

variable {n x : Nat} {p : Parents}

theorem iterate_lt (h : Forest n p) (hx : x < n) (k : Nat) : p^[k] x < n := by
  induction k generalizing x with
  | zero => exact hx
  | succ k ih => exact ih (h.lt x hx)

theorem exists_reach (h : Forest n p) (hx : x < n) : ∃ k r, k ≤ n ∧ Reach p k x r := by
  by_contra hnone
  obtain ⟨rank,hrank⟩ := h.descends
  have hmove : ∀ k, k ≤ n → p (p^[k] x) ≠ p^[k] x :=
    fun k hk hfix => hnone ⟨k,p^[k] x,hk,rfl,hfix⟩
  have hdrop : ∀ d k, k + d + 1 ≤ n → rank (p^[k+d+1] x) < rank (p^[k] x) := by
    intro d
    induction d with
    | zero =>
      intro k hk
      rw [Nat.add_zero,iterate_succ_apply']
      exact hrank _ (iterate_lt h hx k) (hmove k (by omega))
    | succ d ih =>
      intro k hk
      have hlast := hrank _ (iterate_lt h hx (k+d+1)) (hmove (k+d+1) (by omega))
      rw [← iterate_succ_apply' p] at hlast
      exact hlast.trans (ih k (by omega))
  obtain ⟨a,ha,b,hb,hne,heq⟩ := Finset.exists_ne_map_eq_of_card_lt_of_maps_to
    (s := Finset.range (n+1)) (t := Finset.range n) (by simp)
    (f := fun k => p^[k] x) (fun k _ => by simpa using iterate_lt h hx k)
  simp only [Finset.mem_range] at ha hb
  rcases Nat.lt_or_gt_of_ne hne with hlt | hlt
  · have hdesc := hdrop (b-a-1) a (by omega)
    rw [show a + (b-a-1) + 1 = b by omega,heq] at hdesc
    exact Nat.lt_irrefl _ hdesc
  · have hdesc := hdrop (a-b-1) b (by omega)
    rw [show b + (a-b-1) + 1 = a by omega,heq] at hdesc
    exact Nat.lt_irrefl _ hdesc

variable {r : Nat}

theorem reach_of_le {k : Nat} (h : Reach p k x r) (d : Nat) : Reach p (k+d) x r := by
  refine ⟨?_,h.2⟩
  rw [Nat.add_comm,iterate_add_apply,h.1,iterate_fixed h.2]

theorem root_unique {s : Nat} (hr : Root p x r) (hs : Root p x s) : r = s := by
  obtain ⟨k,hk⟩ := hr
  obtain ⟨l,hl⟩ := hs
  have hk' := (reach_of_le hk l).1
  have hl' := (reach_of_le hl k).1
  rw [Nat.add_comm] at hl'
  exact hk'.symm.trans hl'

theorem root_self (h : p r = r) : Root p r r := ⟨0,rfl,h⟩

theorem root_parent : Root p (p x) r ↔ Root p x r := by
  constructor
  · rintro ⟨k,hk,hr⟩
    exact ⟨k+1,hk,hr⟩
  · rintro ⟨k,hk⟩
    exact ⟨k,(reach_of_le hk 1).1,hk.2⟩

theorem root_lt (h : Forest n p) (hx : x < n) (hr : Root p x r) : r < n := by
  obtain ⟨k,hk,_⟩ := hr
  exact hk ▸ iterate_lt h hx k

variable {i : Nat}

theorem halve_fixed (h : p r = r) : halve p i r = r := by
  unfold halve
  by_cases hir : r = i
  · subst hir
    rw [update_self,h,h]
  · rw [update_of_ne hir,h]

theorem reach_halve (i : Nat) {k : Nat} (h : Reach p k x r) :
    ∃ l, l ≤ k ∧ Reach (halve p i) l x r := by
  induction k using Nat.strong_induction_on generalizing x with
  | _ k ih =>
    obtain ⟨hk,hr⟩ := h
    match k with
    | 0 => exact ⟨0,Nat.le_refl 0,hk,halve_fixed hr⟩
    | k + 1 =>
      by_cases hxi : x = i
      · subst hxi
        have hstep : halve p x x = p (p x) := update_self ..
        match k with
        | 0 =>
          have hpx : p x = r := hk
          exact ⟨1,Nat.le_refl 1,hstep.trans (by rw [hpx,hr]),halve_fixed hr⟩
        | k + 1 =>
          obtain ⟨l,hl,hreach⟩ := ih k (by omega) (x := p (p x)) ⟨hk,hr⟩
          refine ⟨l+1,by omega,?_,hreach.2⟩
          rw [iterate_succ_apply,hstep]
          exact hreach.1
      · obtain ⟨l,hl,hreach⟩ := ih k (by omega) (x := p x) ⟨hk,hr⟩
        refine ⟨l+1,by omega,?_,hreach.2⟩
        rw [iterate_succ_apply,halve,update_of_ne hxi]
        exact hreach.1

theorem forest_halve (h : Forest n p) (hi : i < n) : Forest n (halve p i) := by
  obtain ⟨rank,hrank⟩ := h.descends
  constructor
  · intro x hx
    by_cases hxi : x = i
    · subst hxi
      simpa [halve] using h.lt _ (h.lt _ hx)
    · simpa [halve,update_of_ne hxi] using h.lt x hx
  · refine ⟨rank,fun x hx hne => ?_⟩
    by_cases hxi : x = i
    · subst hxi
      have hstep : halve p x x = p (p x) := update_self ..
      rw [hstep] at hne ⊢
      by_cases hfix : p x = x
      · rw [hfix,hfix] at hne
        exact absurd rfl hne
      · by_cases htop : p (p x) = p x
        · rw [htop]
          exact hrank x hx hfix
        · exact (hrank _ (h.lt x hx) htop).trans (hrank x hx hfix)
    · simp only [halve,update_of_ne hxi] at hne ⊢
      exact hrank x hx hne

structure Kept (n : Nat) (p q : Parents) : Prop where
  forest : Forest n q
  roots : ∀ x r, Root p x r → Root q x r

theorem Kept.trans {q s : Parents} (h : Kept n p q) (h' : Kept n q s) : Kept n p s :=
  ⟨h'.forest,fun x r hr => h'.roots x r (h.roots x r hr)⟩

theorem kept_halve (h : Forest n p) (hi : i < n) : Kept n p (halve p i) := by
  refine ⟨forest_halve h hi,fun x r hr => ?_⟩
  obtain ⟨k,hk⟩ := hr
  obtain ⟨l,_,hl⟩ := reach_halve i hk
  exact ⟨l,hl⟩

theorem find_reach (fuel : Nat) (h : Forest n p) {k : Nat} (hi : i < n) (hk : k ≤ fuel)
    (hr : Reach p k i r) : Kept n p (find fuel p i).1 ∧ (find fuel p i).2 = r := by
  induction fuel generalizing p i k with
  | zero =>
    obtain rfl : k = 0 := by omega
    exact ⟨⟨h,fun _ _ hr => hr⟩,hr.1⟩
  | succ fuel ih =>
    by_cases hfix : p i = i
    · simp only [find,hfix,if_true]
      exact ⟨⟨h,fun _ _ hr => hr⟩,root_unique (root_self hfix) ⟨k,hr⟩⟩
    simp only [find,hfix,if_false]
    have hstep : halve p i i = p (p i) := update_self ..
    have hlt : halve p i i < n := hstep ▸ h.lt _ (h.lt i hi)
    -- the walk from the grandparent is at least one step shorter
    have hshort : ∃ l, l ≤ fuel ∧ Reach p l (p (p i)) r := by
      match k with
      | 0 =>
        obtain ⟨rfl,hr⟩ := hr
        exact absurd hr hfix
      | 1 => exact ⟨0,Nat.zero_le _,by rw [show p i = r from hr.1]; exact hr.2,hr.2⟩
      | k + 2 => exact ⟨k,by omega,hr.1,hr.2⟩
    obtain ⟨l,hl,hreach⟩ := hshort
    obtain ⟨l',hl',hreach'⟩ := reach_halve i hreach
    rw [← hstep] at hreach'
    obtain ⟨hkept,heq⟩ := ih (forest_halve h hi) hlt (Nat.le_trans hl' hl) hreach'
    exact ⟨(kept_halve h hi).trans hkept,heq⟩

theorem find_spec (h : Forest n p) (hi : i < n) :
    Kept n p (find n p i).1 ∧ Root p i (find n p i).2 := by
  obtain ⟨k,r,hk,hr⟩ := exists_reach h hi
  obtain ⟨hkept,heq⟩ := find_reach n h hi hk hr
  exact ⟨hkept,k,heq ▸ hr⟩

theorem link_spec (h : Forest n p) {a c : Nat} (hc : c < n) (hpa : p a = a) (hpc : p c = c) :
    Forest n (update p a c) ∧
    ∀ x r, Root p x r → Root (update p a c) x (if r = a then c else r) := by
  by_cases hac : a = c
  · subst hac
    have hsame : update p a a = p := by
      rw [update_eq_self_iff,hpa]
    rw [hsame]
    refine ⟨h,fun x r hr => ?_⟩
    split
    · rename_i heq
      exact heq ▸ hr
    · exact hr
  · have hother : ∀ x, x ≠ a → update p a c x = p x :=
      fun x hx => update_of_ne hx ..
    have hself : update p a c a = c := update_self ..
    have hcfix : update p a c c = c := (hother c (Ne.symm hac)).trans hpc
    constructor
    · obtain ⟨rank,hrank⟩ := h.descends
      classical
      refine ⟨fun x hx => ?_,
        fun x => if Root p x a then rank x + rank c + 1 else rank x,fun x hx hne => ?_⟩
      · by_cases hxa : x = a
        · rw [hxa,hself]
          exact hc
        · rw [hother x hxa]
          exact h.lt x hx
      · by_cases hxa : x = a
        · subst hxa
          have hnot : ¬ Root p c x := fun hr => hac (root_unique hr (root_self hpc))
          simp only [hself,hnot,if_false,root_self hpa,if_true]
          omega
        · rw [hother x hxa] at hne ⊢
          have hdrop := hrank x hx hne
          simp only [root_parent]
          split <;> omega
    · intro x r hr
      obtain ⟨k,hk,hr⟩ := hr
      induction k generalizing x with
      | zero =>
        subst hk
        split
        · rename_i heq
          subst heq
          exact ⟨1,hself,hcfix⟩
        · rename_i hne
          exact ⟨0,rfl,(hother _ hne).trans hr⟩
      | succ k ih =>
        have hnext := ih (p x) hk
        by_cases hxa : x = a
        · rw [hxa,hpa] at hnext
          exact hxa ▸ hnext
        · rw [← hother x hxa] at hnext
          exact root_parent.mp hnext

def Same (p : Parents) (x y : Nat) : Prop := ∃ r, Root p x r ∧ Root p y r

variable {y : Nat}

theorem Same.symm : Same p x y → Same p y x :=
  fun ⟨r,hx,hy⟩ => ⟨r,hy,hx⟩

theorem Same.trans {z : Nat} (h : Same p x y) (h' : Same p y z) : Same p x z := by
  obtain ⟨r,hx,hy⟩ := h
  obtain ⟨s,hy',hz⟩ := h'
  exact ⟨r,hx,root_unique hy' hy ▸ hz⟩

theorem exists_root (h : Forest n p) (hx : x < n) : ∃ r, Root p x r := by
  obtain ⟨k,r,_,hr⟩ := exists_reach h hx
  exact ⟨r,k,hr⟩

/-- Joining two classes gives the first the root of the second. -/
theorem join_roots (h : Forest n p) {j : Nat} (hi : i < n) (hj : j < n) :
    ∃ a c, Root p i a ∧ Root p j c ∧ Forest n (join n p i j) ∧
      ∀ x r, Root p x r → Root (join n p i j) x (if r = a then c else r) := by
  obtain ⟨hkept,hroot⟩ := find_spec h hi
  obtain ⟨hkept',hroot'⟩ := find_spec hkept.forest hj
  have hall := hkept.trans hkept'
  have ha := hall.roots _ _ hroot
  have hc := hkept'.roots _ _ hroot'
  have hfix : ∀ {x r}, Root (find n (find n p i).1 j).1 x r →
      (find n (find n p i).1 j).1 r = r := fun ⟨_,_,hr⟩ => hr
  obtain ⟨hforest,hlink⟩ :=
    link_spec hall.forest (root_lt hall.forest hj hc) (hfix ha) (hfix hc)
  obtain ⟨r,hr⟩ := exists_root h hj
  refine ⟨_,_,hroot,?_,hforest,fun x r hr => hlink _ _ (hall.roots _ _ hr)⟩
  rwa [root_unique hc (hall.roots _ _ hr)]

theorem join_spec (h : Forest n p) {j : Nat} (hi : i < n) (hj : j < n) :
    Forest n (join n p i j) ∧ Same (join n p i j) i j ∧
      ∀ x y, Same p x y → Same (join n p i j) x y := by
  obtain ⟨a,c,ha,hc,hforest,hlink⟩ := join_roots h hi hj
  refine ⟨hforest,⟨c,?_,?_⟩,?_⟩
  · have hend := hlink _ _ ha
    rwa [if_pos rfl] at hend
  · have hend := hlink _ _ hc
    rwa [ite_self] at hend
  · rintro x y ⟨r,hx,hy⟩
    exact ⟨_,hlink _ _ hx,hlink _ _ hy⟩

theorem same_of_join (h : Forest n p) {j : Nat} (hi : i < n) (hj : j < n) (hx : x < n)
    (hy : y < n) (hs : Same (join n p i j) x y) :
    Same p x y ∨ Same p x i ∧ Same p y j ∨ Same p x j ∧ Same p y i := by
  obtain ⟨a,c,ha,hc,-,hlink⟩ := join_roots h hi hj
  obtain ⟨rx,hrx⟩ := exists_root h hx
  obtain ⟨ry,hry⟩ := exists_root h hy
  obtain ⟨r,hxr,hyr⟩ := hs
  have heq : (if rx = a then c else rx) = if ry = a then c else ry :=
    (root_unique (hlink _ _ hrx) hxr).trans (root_unique hyr (hlink _ _ hry))
  split at heq
  · rename_i hxa
    split at heq
    · rename_i hya
      exact .inl ⟨rx,hrx,by rw [hxa,← hya]; exact hry⟩
    · exact .inr (.inl ⟨⟨rx,hrx,hxa ▸ ha⟩,⟨ry,hry,heq ▸ hc⟩⟩)
  · split at heq
    · rename_i hya
      exact .inr (.inr ⟨⟨rx,hrx,heq ▸ hc⟩,⟨ry,hry,hya ▸ ha⟩⟩)
    · exact .inl ⟨rx,hrx,heq ▸ hry⟩

theorem same_id (h : Same id x y) : x = y := by
  obtain ⟨r,⟨k,hk,_⟩,⟨l,hl,_⟩⟩ := h
  rw [iterate_id] at hk hl
  exact hk.trans hl.symm

theorem length_findAll (n : Nat) (p : Parents) (is : List Nat) :
    (findAll n p is).length = is.length := by
  induction is generalizing p with
  | nil => rfl
  | cons i is ih => simp [findAll,ih]

theorem findAll_root (h : Forest n p) (is : List Nat) (his : ∀ i ∈ is, i < n) (k i : Nat)
    (hk : is[k]? = some i) : ∃ r, (findAll n p is)[k]? = some r ∧ Root p i r := by
  induction is generalizing p k with
  | nil => simp at hk
  | cons j is ih =>
    have hj : j < n := his j List.mem_cons_self
    obtain ⟨hkept,ha⟩ := find_spec h hj
    match k with
    | 0 =>
      obtain rfl : j = i := by simpa using hk
      exact ⟨_,rfl,ha⟩
    | k + 1 =>
      obtain ⟨r,hr,ha'⟩ := ih hkept.forest
        (fun i hi => his i (List.mem_cons_of_mem _ hi)) k (by simpa using hk)
      refine ⟨r,by simpa [findAll] using hr,?_⟩
      obtain ⟨l,s,_,hs⟩ := exists_reach h (his i (List.mem_of_getElem? hk))
      rw [root_unique ha' (hkept.roots _ _ ⟨l,hs⟩)]
      exact ⟨l,hs⟩

theorem findAll_same_iff (h : Forest n p) (hx : x < n) (hy : y < n) :
    (findAll n p (List.range n))[x]? = (findAll n p (List.range n))[y]? ↔ Same p x y := by
  have hin : ∀ i ∈ List.range n, i < n := fun i hi => List.mem_range.mp hi
  obtain ⟨r,hr,hrx⟩ := findAll_root h _ hin x x (by simp [hx])
  obtain ⟨s,hs,hry⟩ := findAll_root h _ hin y y (by simp [hy])
  constructor
  · intro heq
    cases hr.symm.trans (heq.trans hs)
    exact ⟨r,hrx,hry⟩
  · rintro ⟨t,htx,hty⟩
    rw [hr,hs,root_unique hrx htx,root_unique hry hty]

end UnionFind
