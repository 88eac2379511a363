import Mathlib.Data.List.Forall2

/-!
Lists cut at their separators. What stands between two separators can only lose elements when the
list loses elements but no separator.
-/

set_option autoImplicit false

namespace Segments

open List

variable {α β : Type}

def split (p : α → Bool) : List α → List (List α)
  | [] => [[]]
  | a :: l => if p a then [] :: split p l else (split p l).modifyHead (a :: ·)

theorem split_cons (p : α → Bool) (l : List α) : ∃ head tail, split p l = head :: tail := by
  induction l with
  | nil => exact ⟨[],[],rfl⟩
  | cons a l ih =>
    rw [split]
    split
    · exact ⟨[],_,rfl⟩
    · obtain ⟨head,tail,heq⟩ := ih
      exact ⟨a :: head,tail,by rw [heq]; rfl⟩

theorem split_sublist {p : α → Bool} {l l' : List α} (h : l.Sublist l')
    (hcount : l.countP p = l'.countP p) : Forall₂ Sublist (split p l) (split p l') := by
  induction h with
  | slnil => exact .cons (.refl _) .nil
  | @cons l l' a h ih =>
    have hle := h.countP_le (p := p)
    rw [countP_cons] at hcount
    have hno : p a = false := by
      by_contra hsep
      rw [if_pos (Bool.not_eq_false _ ▸ hsep)] at hcount
      omega
    have ih := ih (by simpa [hno] using hcount)
    rw [split,hno,if_neg Bool.false_ne_true]
    obtain ⟨head,tail,heq⟩ := split_cons p l'
    rw [heq] at ih ⊢
    obtain ⟨head',tail',hhead,htail,heq'⟩ := forall₂_cons_right_iff.mp ih
    rw [heq']
    exact .cons (hhead.cons a) htail
  | @cons_cons l l' a h ih =>
    rw [countP_cons,countP_cons,Nat.add_right_cancel_iff] at hcount
    have ih := ih hcount
    rw [split,split]
    split
    · exact .cons (.refl _) ih
    obtain ⟨head,tail,heq⟩ := split_cons p l'
    rw [heq] at ih ⊢
    obtain ⟨head',tail',hhead,htail,heq'⟩ := forall₂_cons_right_iff.mp ih
    rw [heq']
    exact .cons (hhead.cons_cons a) htail

theorem split_append_plain {p : α → Bool} {front : List α} (hfront : ∀ a ∈ front, p a = false)
    (l : List α) : split p (front ++ l) = (split p l).modifyHead (front ++ ·) := by
  induction front with
  | nil =>
    obtain ⟨head,tail,heq⟩ := split_cons p l
    rw [nil_append,heq]
    rfl
  | cons a front ih =>
    have ih := ih fun b hb => hfront b (mem_cons_of_mem _ hb)
    obtain ⟨head,tail,heq⟩ := split_cons p l
    rw [cons_append,split,hfront a mem_cons_self,if_neg Bool.false_ne_true,ih,heq]
    rfl

theorem split_flatMap {p : α → Bool} {q : β → Bool} {f : α → List β}
    (hsep : ∀ a, p a = true → ∃ b, f a = [b] ∧ q b = true)
    (hplain : ∀ a, p a = false → ∀ b ∈ f a, q b = false) (l : List α) :
    split q (l.flatMap f) = (split p l).map (flatMap f) := by
  induction l with
  | nil => rfl
  | cons a l ih =>
    rw [flatMap_cons,split]
    cases ha : p a with
    | true =>
      obtain ⟨b,hb,hq⟩ := hsep a ha
      rw [hb,singleton_append,split,hq,if_pos rfl,if_pos rfl,ih]
      rfl
    | false =>
      obtain ⟨head,tail,heq⟩ := split_cons p l
      rw [split_append_plain (hplain a ha),if_neg Bool.false_ne_true,ih,heq]
      rfl

/-- What holds at every place of a list, told of what stands before it. -/
theorem forall_place_concat {P : List α → α → Prop} {l : List α} {y : α} :
    (∀ before x after, l ++ [y] = before ++ x :: after → P before x) ↔
      (∀ before x after, l = before ++ x :: after → P before x) ∧ P l y := by
  constructor
  · intro h
    exact ⟨fun before x after hl => h before x (after ++ [y]) (by simp [hl]),h l y [] rfl⟩
  · rintro ⟨h,hy⟩ before x after hl
    rcases eq_nil_or_concat after with rfl | ⟨after,z,rfl⟩
    · obtain ⟨rfl,⟨⟩⟩ := append_inj' hl rfl
      exact hy
    · rw [concat_eq_append,← cons_append,← append_assoc] at hl
      exact h before x after (append_inj' hl rfl).1

end Segments
