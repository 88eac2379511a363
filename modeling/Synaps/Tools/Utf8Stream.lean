import Synaps.Lib.Utf8

/-!
`Utf8StreamDecoder`: text from bytes that arrive in chunks.
-/

set_option autoImplicit false

namespace Synaps.Utf8Stream

open Utf8 List

/-- `from_utf8` stops at the bytes for want of more (its `error_len` is `None`): a lead byte
and admissible bytes behind it, but too few. -/
def endsShort : List UInt8 → Bool
  | [] => false
  | a :: rest =>
    match leadCount a.toNat, rest with
    | some (_+1), [] => true
    | some (n+1), b :: bs => secondOk a.toNat b && decide (bs.length < n) && bs.all isCont
    | _, _ => false

/-- The loop over `from_utf8`, one character or ill-formed sequence at a time: the text and
the bytes held back. -/
def decodeBytes (bs : List UInt8) : List Char × List UInt8 :=
  if endsShort bs then ([],bs) else
  match _h : Utf8.next bs with
  | none => ([],[])
  | some (c,rest) =>
    let r := decodeBytes rest
    (c.getD replacement :: r.1,r.2)
termination_by bs.length
decreasing_by exact length_of_next _h

structure Utf8StreamDecoder where
  pending : List UInt8

def Utf8StreamDecoder.decode (d : Utf8StreamDecoder) (chunk : List UInt8) :
    List Char × Utf8StreamDecoder :=
  let r := decodeBytes (d.pending ++ chunk)
  (r.1,⟨r.2⟩)

def Utf8StreamDecoder.finish (d : Utf8StreamDecoder) : List Char := decodeLossy d.pending

def Utf8StreamDecoder.decodeAll (d : Utf8StreamDecoder) :
    List (List UInt8) → List Char × Utf8StreamDecoder
  | [] => ([],d)
  | chunk :: chunks =>
    let r := (d.decode chunk).2.decodeAll chunks
    ((d.decode chunk).1 ++ r.1,r.2)

def Held (bs : List UInt8) : Prop :=
  bs.length ≤ 3 ∧ ∃ c t, t ≠ [] ∧ encodeChar c = bs ++ t

variable {bs more : List UInt8} {n : Nat}

theorem takeCont_append (h : ¬(bs.length < n ∧ bs.all isCont = true)) (acc : Nat) :
    takeCont n acc (bs ++ more) = ((takeCont n acc bs).1,(takeCont n acc bs).2 ++ more) := by
  induction n generalizing bs acc with
  | zero => rfl
  | succ n ih =>
    cases bs with
    | nil => simp at h
    | cons b bs =>
      rw [cons_append,takeCont,takeCont]
      split
      · exact ih (by simp_all) _
      · rfl

/-- A step that has all the bytes it looks at is the same with more bytes behind them. -/
theorem next_append (hs : endsShort bs = false) {c : Option Char} {rest : List UInt8}
    (h : Utf8.next bs = some (c,rest)) : Utf8.next (bs ++ more) = some (c,rest ++ more) := by
  cases bs with
  | nil => cases h
  | cons a as =>
    simp only [endsShort,Utf8.next,cons_append] at hs h ⊢
    cases hl : leadCount a.toNat with
    | none => simp_all
    | some n =>
      cases n with
      | zero => simp_all
      | succ n =>
        simp only [hl] at hs h ⊢
        cases as with
        | nil => cases hs
        | cons b bs =>
          simp only [cons_append] at h ⊢
          by_cases hb : secondOk a.toNat b = true
          · rw [if_pos hb] at h ⊢
            rw [takeCont_append (by simp_all),Option.some.inj h]
          · rw [if_neg hb] at h ⊢
            cases h
            rfl

theorem decodeBytes_append (bs more : List UInt8) :
    decodeLossy (bs ++ more) = (decodeBytes bs).1 ++ decodeLossy ((decodeBytes bs).2 ++ more) := by
  fun_induction decodeBytes bs with
  | case1 => rfl
  | case2 bs _ h =>
    cases bs with
    | nil => rfl
    | cons a as => unfold Utf8.next at h; grind
  | case3 bs hs c rest h r ih =>
    rw [decodeLossy_of_next (next_append (by simpa using hs) h),ih]
    rfl

theorem takeCont_filled (h : bs.all isCont = true) (hn : bs.length ≤ n) (acc : Nat) :
    ∃ c, takeCont n acc (bs ++ replicate (n-bs.length) 0x80) = (some c,[]) := by
  induction n generalizing bs acc with
  | zero =>
    obtain rfl : bs = [] := by simpa using hn
    exact ⟨_,rfl⟩
  | succ n ih =>
    cases bs with
    | nil => exact @ih [] rfl (by simp) _
    | cons b bs =>
      simp only [all_cons,Bool.and_eq_true,length_cons] at h hn
      obtain ⟨c,hc⟩ := ih h.2 (by omega) (acc*64+(b.toNat-0x80))
      exact ⟨c,by simpa [takeCont,h.1] using hc⟩

theorem held_of_lead {a b : UInt8} (hl : leadCount a.toNat = some (n+1))
    (hb : secondOk a.toNat b = true) (h : bs.all isCont = true) (hn : bs.length ≤ n) :
    ∃ c, encodeChar c = a :: b :: (bs ++ replicate (n-bs.length) 0x80) := by
  obtain ⟨c,hc⟩ := takeCont_filled h hn (leadBits a.toNat*64+(b.toNat-0x80))
  refine ⟨c,((@next_eq_some [] _ _ ?_).trans (append_nil _)).symm⟩
  simp [Utf8.next,hl,hb,hc]

theorem secondOk_filler (lead : Nat) :
    secondOk lead (if lead = 0xE0 then 0xA0 else if lead = 0xF0 then 0x90 else 0x80) = true := by
  unfold secondOk
  split_ifs <;> simp_all [isCont]

theorem held_of_endsShort (h : endsShort bs = true) : Held bs := by
  cases bs with
  | nil => cases h
  | cons a rest =>
    simp only [endsShort] at h
    split at h
    · rename_i n hl
      obtain ⟨c,hc⟩ := @held_of_lead [] _ _ _ hl (secondOk_filler _) rfl (by simp)
      exact ⟨by simp,c,_,by simp,hc⟩
    · rename_i n b bs hl
      simp only [Bool.and_eq_true,decide_eq_true_eq] at h
      obtain ⟨c,hc⟩ := held_of_lead hl h.1.1 h.2 (by omega)
      have := leadCount_succ hl
      refine ⟨by simp; omega,c,_,?_,hc⟩
      simp
      omega
    · cases h

theorem held_nil : Held [] := ⟨by simp,'a',_,encodeChar_ne_nil 'a',rfl⟩

theorem held_decodeBytes (bs : List UInt8) : Held (decodeBytes bs).2 := by
  fun_induction decodeBytes bs with
  | case1 bs h => exact held_of_endsShort h
  | case2 => exact held_nil
  | case3 bs hs c rest h r ih => exact ih

theorem decodeAll_finish (d : Utf8StreamDecoder) (chunks : List (List UInt8)) :
    (d.decodeAll chunks).1 ++ (d.decodeAll chunks).2.finish =
      decodeLossy (d.pending ++ chunks.flatten) := by
  induction chunks generalizing d with
  | nil => simp [Utf8StreamDecoder.decodeAll,Utf8StreamDecoder.finish]
  | cons chunk chunks ih =>
    rw [flatten_cons,← append_assoc,decodeBytes_append,← ih ⟨(decodeBytes (d.pending ++ chunk)).2⟩,
      ← append_assoc]
    rfl

/-- However the bytes are cut into chunks, the text is their lossy decoding, and between the
calls the decoder holds back the front of one character at most. -/
theorem decodeAll_eq_decodeLossy (chunks : List (List UInt8)) :
    let r := Utf8StreamDecoder.decodeAll ⟨[]⟩ chunks
    r.1 ++ r.2.finish = decodeLossy chunks.flatten ∧ Held r.2.pending := by
  refine ⟨decodeAll_finish ⟨[]⟩ chunks,?_⟩
  have held (d : Utf8StreamDecoder) (hd : Held d.pending) : Held (d.decodeAll chunks).2.pending := by
    induction chunks generalizing d with
    | nil => exact hd
    | cons chunk chunks ih => exact ih _ (held_decodeBytes _)
  exact held ⟨[]⟩ held_nil

end Synaps.Utf8Stream
