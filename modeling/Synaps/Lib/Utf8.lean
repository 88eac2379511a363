import Mathlib.Data.List.Basic
import Mathlib.Data.Char

/-!
UTF-8 as a list of bytes. Decoding goes one character at a time; an ill-formed
sequence costs its longest prefix that could still have become a character
(one byte at least), and a lossy reading puts U+FFFD in its place.
-/

set_option autoImplicit false

namespace Utf8

open List Option

def encodeChar (c : Char) : List UInt8 :=
  if c.toNat < 0x80 then [.ofNat c.toNat]
  else if c.toNat < 0x800 then
    [.ofNat (0xC0 + c.toNat / 64),.ofNat (0x80 + c.toNat % 64)]
  else if c.toNat < 0x10000 then
    [.ofNat (0xE0 + c.toNat / 4096),.ofNat (0x80 + c.toNat / 64 % 64),
      .ofNat (0x80 + c.toNat % 64)]
  else
    [.ofNat (0xF0 + c.toNat / 262144),.ofNat (0x80 + c.toNat / 4096 % 64),
      .ofNat (0x80 + c.toNat / 64 % 64),.ofNat (0x80 + c.toNat % 64)]

def encode (cs : List Char) : List UInt8 := cs.flatMap encodeChar

def isCont (b : UInt8) : Bool := 0x80 ≤ b.toNat && b.toNat < 0xC0

/-- Which second bytes a lead byte admits: neither overlong forms, nor
surrogates, nor anything past U+10FFFF. -/
def secondOk (lead : Nat) (b : UInt8) : Bool :=
  isCont b &&
    (if lead = 0xE0 then 0xA0 ≤ b.toNat
     else if lead = 0xED then b.toNat < 0xA0
     else if lead = 0xF0 then 0x90 ≤ b.toNat
     else if lead = 0xF4 then b.toNat < 0x90
     else true)

/-- How many bytes follow a lead byte; `none` when it leads nothing. -/
def leadCount (a : Nat) : Option Nat :=
  if a < 0x80 then some 0
  else if a < 0xC2 then none
  else if a < 0xE0 then some 1
  else if a < 0xF0 then some 2
  else if a < 0xF5 then some 3
  else none

def leadBits (a : Nat) : Nat :=
  if a < 0x80 then a else if a < 0xE0 then a - 0xC0 else if a < 0xF0 then a - 0xE0 else a - 0xF0

def takeCont : Nat → Nat → List UInt8 → Option Char × List UInt8
  | 0, acc, bs => (some (Char.ofNat acc),bs)
  | _+1, _, [] => (none,[])
  | n+1, acc, b :: bs =>
    if isCont b then takeCont n (acc * 64 + (b.toNat - 0x80)) bs else (none,b :: bs)

/-- One decoding step: the character, or `none` for an ill-formed sequence, and
the bytes after it. -/
def next : List UInt8 → Option (Option Char × List UInt8)
  | [] => none
  | a :: rest =>
    match leadCount a.toNat with
    | none => some (none,rest)
    | some 0 => some (some (Char.ofNat a.toNat),rest)
    | some (n+1) =>
      match rest with
      | [] => some (none,[])
      | b :: bs =>
        if secondOk a.toNat b then
          some (takeCont n (leadBits a.toNat * 64 + (b.toNat - 0x80)) bs)
        else some (none,b :: bs)

def replacement : Char := Char.ofNat 0xFFFD

def decodeLossyFuel : Nat → List UInt8 → List Char
  | 0, _ => []
  | fuel+1, bs =>
    match next bs with
    | none => []
    | some (c,rest) => c.getD replacement :: decodeLossyFuel fuel rest

def decodeLossy (bs : List UInt8) : List Char := decodeLossyFuel bs.length bs

def decodeFuel : Nat → List UInt8 → Option (List Char)
  | 0, bs => if bs = [] then some [] else none
  | fuel+1, bs =>
    match next bs with
    | none => some []
    | some (none,_) => none
    | some (some c,rest) => (decodeFuel fuel rest).map (c :: ·)

/-- The strict reading: `none` unless every byte belongs to a character. -/
def decode (bs : List UInt8) : Option (List Char) := decodeFuel bs.length bs

variable (c : Char)

theorem toNat_valid : c.toNat < 0xD800 ∨ (0xDFFF < c.toNat ∧ c.toNat < 0x110000) := c.valid

variable {n : Nat}

theorem toNat_byte (h : n < 256) : (UInt8.ofNat n).toNat = n := by
  rw [UInt8.toNat_ofNat']; omega

variable {b : UInt8}

theorem isCont_of_toNat {m : Nat} (hb : b.toNat = 0x80 + m) (hm : m < 64) : isCont b = true := by
  simp only [isCont,hb,Bool.and_eq_true,decide_eq_true_eq]
  omega

theorem takeCont_cons {m : Nat} (hb : b.toNat = 0x80 + m) (hm : m < 64) (n acc : Nat)
    (bs : List UInt8) : takeCont (n+1) acc (b :: bs) = takeCont n (acc * 64 + m) bs := by
  rw [takeCont,if_pos (isCont_of_toNat hb hm),hb,Nat.add_sub_cancel_left]

theorem next_lead {a : UInt8} {q m : Nat} (hl : leadCount a.toNat = some (n+1))
    (hq : leadBits a.toNat = q) (hs : secondOk a.toNat b = true) (hb : b.toNat = 0x80 + m)
    (bs : List UInt8) : next (a :: b :: bs) = some (takeCont n (q * 64 + m) bs) := by
  simp only [next,hl,hq,hs,hb,if_true,Nat.add_sub_cancel_left]

theorem next_lead_end {a : UInt8} (hl : leadCount a.toNat = some (n+1)) :
    next [a] = some (none,[]) := by
  simp only [next,hl]

section

variable {q : Nat}

theorem leadCount_two (h₁ : 2 ≤ q) (h₂ : q < 32) :
    leadCount (0xC0 + q) = some 1 ∧ leadBits (0xC0 + q) = q := by
  unfold leadCount leadBits
  grind

theorem leadCount_three (h : q < 16) : leadCount (0xE0 + q) = some 2 ∧ leadBits (0xE0 + q) = q := by
  unfold leadCount leadBits
  grind

theorem leadCount_four (h : q < 5) : leadCount (0xF0 + q) = some 3 ∧ leadBits (0xF0 + q) = q := by
  unfold leadCount leadBits
  grind

end

theorem secondOk_of {lead m : Nat} (hb : b.toNat = 0x80 + m) (hm : m < 64)
    (h : (lead = 0xE0 → 0x20 ≤ m) ∧ (lead = 0xED → m < 0x20) ∧ (lead = 0xF0 → 0x10 ≤ m) ∧
      (lead = 0xF4 → m < 0x10)) : secondOk lead b = true := by
  simp only [secondOk,isCont_of_toNat hb hm,hb,Bool.true_and]
  repeat' split
  all_goals simp only [decide_eq_true_eq]
  all_goals omega

/-- The bytes of one character: one below U+0080, or a lead byte, an admitted
second byte and continuation bytes that together read back as the character. -/
inductive Shape (c : Char) : List UInt8 → Prop
  | ascii (a : UInt8) (ha : a.toNat = c.toNat) (h : c.toNat < 0x80) : Shape c [a]
  | two (a b : UInt8) (q m : Nat) (hl : leadCount a.toNat = some 1)
      (hq : leadBits a.toNat = q) (hs : secondOk a.toNat b = true) (hb : b.toNat = 0x80 + m)
      (he : q * 64 + m = c.toNat) : Shape c [a,b]
  | three (a b b₂ : UInt8) (q m m₂ : Nat) (hl : leadCount a.toNat = some 2)
      (hq : leadBits a.toNat = q) (hs : secondOk a.toNat b = true) (hb : b.toNat = 0x80 + m)
      (hb₂ : b₂.toNat = 0x80 + m₂) (hm₂ : m₂ < 64)
      (he : (q * 64 + m) * 64 + m₂ = c.toNat) : Shape c [a,b,b₂]
  | four (a b b₂ b₃ : UInt8) (q m m₂ m₃ : Nat) (hl : leadCount a.toNat = some 3)
      (hq : leadBits a.toNat = q) (hs : secondOk a.toNat b = true) (hb : b.toNat = 0x80 + m)
      (hb₂ : b₂.toNat = 0x80 + m₂) (hm₂ : m₂ < 64) (hb₃ : b₃.toNat = 0x80 + m₃) (hm₃ : m₃ < 64)
      (he : ((q * 64 + m) * 64 + m₂) * 64 + m₃ = c.toNat) : Shape c [a,b,b₂,b₃]

theorem encodeChar_shape : Shape c (encodeChar c) := by
  have hv := toNat_valid c
  have low (n : Nat) : (UInt8.ofNat (0x80 + n % 64)).toNat = 0x80 + n % 64 :=
    toNat_byte (by omega)
  unfold encodeChar
  split
  · exact .ascii _ (toNat_byte (by omega)) (by assumption)
  split
  · have ha := toNat_byte (n := 0xC0 + c.toNat / 64) (by omega)
    have hl := leadCount_two (q := c.toNat / 64) (by omega) (by omega)
    exact .two _ _ _ _ (by rw [ha,hl.1]) (by rw [ha,hl.2])
      (secondOk_of (low _) (by omega) (by rw [ha]; omega)) (low _) (by omega)
  split
  · have ha := toNat_byte (n := 0xE0 + c.toNat / 4096) (by omega)
    have hl := leadCount_three (q := c.toNat / 4096) (by omega)
    exact .three _ _ _ _ _ _ (by rw [ha,hl.1]) (by rw [ha,hl.2])
      (secondOk_of (low _) (by omega) (by rw [ha]; omega)) (low _) (low _) (by omega) (by omega)
  · have ha := toNat_byte (n := 0xF0 + c.toNat / 262144) (by omega)
    have hl := leadCount_four (q := c.toNat / 262144) (by omega)
    exact .four _ _ _ _ _ _ _ _ (by rw [ha,hl.1]) (by rw [ha,hl.2])
      (secondOk_of (low _) (by omega) (by rw [ha]; omega)) (low _) (low _) (by omega) (low _)
      (by omega) (by omega)

theorem next_encodeChar (rest : List UInt8) : next (encodeChar c ++ rest) = some (some c,rest) := by
  have hc := encodeChar_shape c
  generalize encodeChar c = bs at hc
  cases hc with
  | ascii a ha h =>
    have hl : leadCount c.toNat = some 0 := by rw [leadCount,if_pos h]
    simp only [singleton_append,next,ha,hl,Char.ofNat_toNat]
  | two a b q m hl hq hs hb he =>
    simp only [cons_append,nil_append,next_lead hl hq hs hb,takeCont,he,Char.ofNat_toNat]
  | three a b b₂ q m m₂ hl hq hs hb hb₂ hm₂ he =>
    simp only [cons_append,nil_append,next_lead hl hq hs hb,takeCont_cons hb₂ hm₂]
    simp only [takeCont,he,Char.ofNat_toNat]
  | four a b b₂ b₃ q m m₂ m₃ hl hq hs hb hb₂ hm₂ hb₃ hm₃ he =>
    simp only [cons_append,nil_append,next_lead hl hq hs hb,takeCont_cons hb₂ hm₂,
      takeCont_cons hb₃ hm₃]
    simp only [takeCont,he,Char.ofNat_toNat]

variable {rest : List UInt8}

theorem next_torn {c : Char} {torn : List UInt8} (h : encodeChar c = torn ++ rest)
    (h₁ : torn ≠ []) (h₂ : rest ≠ []) : next torn = some (none,[]) := by
  have hc := encodeChar_shape c
  rw [h] at hc
  obtain ⟨a,torn,rfl⟩ := exists_cons_of_ne_nil h₁
  obtain ⟨z,rest,rfl⟩ := exists_cons_of_ne_nil h₂
  generalize hx : (a :: torn) ++ z :: rest = bs at hc
  cases hc with
  | ascii a' ha h => simp at hx
  | two a' b q m hl hq hs hb he =>
    rcases torn with _ | ⟨b',torn⟩ <;> simp at hx
    rw [hx.1]
    exact next_lead_end hl
  | three a' b b₂ q m m₂ hl hq hs hb hb₂ hm₂ he =>
    rcases torn with _ | ⟨b',_ | ⟨_,torn⟩⟩ <;> simp at hx
    · rw [hx.1]
      exact next_lead_end hl
    · rw [hx.1,hx.2.1,next_lead hl hq hs hb,takeCont]
  | four a' b b₂ b₃ q m m₂ m₃ hl hq hs hb hb₂ hm₂ hb₃ hm₃ he =>
    rcases torn with _ | ⟨b',_ | ⟨b₂',_ | ⟨_,torn⟩⟩⟩ <;> simp at hx
    · rw [hx.1]
      exact next_lead_end hl
    · rw [hx.1,hx.2.1,next_lead hl hq hs hb,takeCont]
    · rw [hx.1,hx.2.1,hx.2.2.1,next_lead hl hq hs hb,takeCont_cons hb₂ hm₂,takeCont]

@[simp] theorem encode_nil : encode [] = [] := rfl

@[simp] theorem encode_cons (cs : List Char) : encode (c :: cs) = encodeChar c ++ encode cs := rfl

variable (cs : List Char)

@[simp] theorem encode_append (ds : List Char) : encode (cs ++ ds) = encode cs ++ encode ds := by
  simp [encode]

theorem length_encodeChar : (encodeChar c).length = c.utf8Size := by
  have hval : c.val.toNat = c.toNat := rfl
  simp only [encodeChar,Char.utf8Size,UInt32.le_iff_toNat_le,hval,UInt32.toNat_ofNatLT]
  repeat' split
  all_goals simp only [length_cons,length_nil] <;> omega

theorem length_encode_toList (s : String) : (encode s.toList).length = s.utf8ByteSize := by
  have h (cs : List Char) : (encode cs).length = (String.ofList cs).utf8ByteSize := by
    induction cs with
    | nil => rfl
    | cons c cs ih =>
      rw [encode_cons,length_append,ih,length_encodeChar,← singleton_append,String.ofList_append]
      simp
  rw [h,String.ofList_toList]

theorem encodeChar_ne_nil : encodeChar c ≠ [] := by
  unfold encodeChar
  repeat' split
  all_goals simp

theorem length_le_encode : cs.length ≤ (encode cs).length := by
  induction cs with
  | nil => simp
  | cons c cs ih =>
    have hc := length_pos_of_ne_nil (encodeChar_ne_nil c)
    simp only [encode_cons,length_cons,length_append]
    omega

theorem decodeFuel_encode (fuel : Nat) : decodeFuel (fuel + cs.length) (encode cs) = some cs := by
  induction cs with
  | nil => cases fuel <;> simp [decodeFuel,next]
  | cons c cs ih =>
    rw [length_cons,← Nat.add_assoc,encode_cons,decodeFuel,next_encodeChar]
    simp only [ih,map_some]

theorem decode_encode : decode (encode cs) = some cs := by
  have h := decodeFuel_encode cs ((encode cs).length - cs.length)
  rwa [Nat.sub_add_cancel (length_le_encode cs)] at h

theorem decodeLossyFuel_nil (fuel : Nat) : decodeLossyFuel fuel [] = [] := by
  cases fuel <;> rfl

theorem length_takeCont (n acc : Nat) (bs : List UInt8) : (takeCont n acc bs).2.length ≤ bs.length := by
  induction n generalizing acc bs with
  | zero => exact le_rfl
  | succ n ih =>
    cases bs with
    | nil => exact le_rfl
    | cons b bs =>
      rw [takeCont]
      split
      · exact Nat.le_trans (ih _ _) (Nat.le_succ _)
      · exact le_rfl

theorem length_of_next {bs rest : List UInt8} {c : Option Char} (h : next bs = some (c,rest)) :
    rest.length < bs.length := by
  unfold next at h
  split at h
  · cases h
  split at h
  · simp_all
  · simp_all
  split at h
  · simp_all
  · split at h
    · have hl := length_takeCont
      grind
    · simp_all

theorem decodeLossyFuel_congr {bs : List UInt8} {m n : Nat} (hm : bs.length ≤ m)
    (hn : bs.length ≤ n) : decodeLossyFuel m bs = decodeLossyFuel n bs := by
  induction m generalizing n bs with
  | zero =>
    obtain rfl : bs = [] := by simpa using hm
    rw [decodeLossyFuel_nil,decodeLossyFuel_nil]
  | succ m ih =>
    cases n with
    | zero =>
      obtain rfl : bs = [] := by simpa using hn
      rw [decodeLossyFuel_nil,decodeLossyFuel_nil]
    | succ n =>
      rw [decodeLossyFuel,decodeLossyFuel]
      cases h : next bs with
      | none => rfl
      | some r =>
        have hl := length_of_next h
        exact congrArg (_ :: ·) (ih (by omega) (by omega))

theorem decodeLossy_of_next {bs rest : List UInt8} {c : Option Char}
    (h : next bs = some (c,rest)) : decodeLossy bs = c.getD replacement :: decodeLossy rest := by
  have hl := length_of_next h
  rw [decodeLossy,decodeLossyFuel_congr (Nat.le_refl _) (Nat.le_succ _),decodeLossyFuel,h]
  exact congrArg (_ :: ·) (decodeLossyFuel_congr (Nat.le_of_lt hl) (Nat.le_refl _))

theorem decodeLossy_append (tail : List UInt8) :
    decodeLossy (encode cs ++ tail) = cs ++ decodeLossy tail := by
  induction cs with
  | nil => rfl
  | cons c cs ih =>
    rw [encode_cons,append_assoc,decodeLossy_of_next (next_encodeChar c _),ih]
    rfl

theorem decodeLossy_encode : decodeLossy (encode cs) = cs := by
  simpa [show decodeLossy [] = [] from rfl] using decodeLossy_append cs []

theorem encode_injective : Function.Injective encode := fun cs ds h => by
  rw [← decodeLossy_encode cs,h,decodeLossy_encode]

theorem decodeLossy_torn {c : Char} {torn : List UInt8} (h : encodeChar c = torn ++ rest)
    (h₁ : torn ≠ []) (h₂ : rest ≠ []) : decodeLossy (encode cs ++ torn) = cs ++ [replacement] := by
  rw [decodeLossy_append,decodeLossy_of_next (next_torn h h₁ h₂)]
  rfl

variable {bs : List UInt8}

/-- A prefix of a text's bytes: some of its characters, then possibly a part of
the next one. -/
theorem prefix_encode {cs : List Char} (h : bs <+: encode cs) : (∃ ds, ds <+: cs ∧ bs = encode ds) ∨
      ∃ ds c torn rest, ds ++ [c] <+: cs ∧ encodeChar c = torn ++ rest ∧ torn ≠ [] ∧ rest ≠ [] ∧
        bs = encode ds ++ torn := by
  induction cs generalizing bs with
  | nil => exact .inl ⟨[], nil_prefix,prefix_nil.mp h⟩
  | cons c cs ih =>
    obtain ⟨r,hr⟩ := h
    rw [encode_cons,append_eq_append_iff] at hr
    rcases hr with ⟨rest,hc,-⟩ | ⟨bs',rfl,hb⟩
    · rcases eq_nil_or_concat bs with rfl | hne
      · exact .inl ⟨[], nil_prefix,rfl⟩
      rcases eq_nil_or_concat rest with rfl | hne'
      · exact .inl ⟨[c],⟨cs,rfl⟩,by rw [append_nil] at hc; simp [hc]⟩
      · refine .inr ⟨[],c,bs,rest,⟨cs,rfl⟩,hc,?_,?_,rfl⟩
        · rintro rfl; simp at hne
        · rintro rfl; simp at hne'
    · rcases ih ⟨r,hb.symm⟩ with ⟨ds,hd,rfl⟩ | ⟨ds,d,torn,rest,hd,ht,h₁,h₂,rfl⟩
      · exact .inl ⟨c :: ds,(prefix_cons_inj c).mpr hd,rfl⟩
      · refine .inr ⟨c :: ds,d,torn,rest,(prefix_cons_inj c).mpr hd,ht,h₁,h₂,?_⟩
        rw [encode_cons,append_assoc]

theorem toNat_eq {c : Char} (hc : Char.ofNat n = c)
    (h : n < 0xD800 ∨ (0xDFFF < n ∧ n < 0x110000)) : c.toNat = n := by
  have hv : n.isValidChar := h
  rw [← hc,Char.ofNat,dif_pos hv]
  rfl

theorem ofNat_eq (h : n = b.toNat) : UInt8.ofNat n = b := by
  subst h
  simp

variable {a : Nat}

theorem leadCount_eq_zero (h : leadCount a = some 0) : a < 0x80 := by
  unfold leadCount at h
  grind

theorem leadCount_succ (h : leadCount a = some (n+1)) :
    n = 0 ∧ 0xC2 ≤ a ∧ a < 0xE0 ∧ leadBits a = a - 0xC0 ∨
      n = 1 ∧ 0xE0 ≤ a ∧ a < 0xF0 ∧ leadBits a = a - 0xE0 ∨
      n = 2 ∧ 0xF0 ≤ a ∧ a < 0xF5 ∧ leadBits a = a - 0xF0 := by
  unfold leadCount at h
  unfold leadBits
  grind

theorem secondOk_bounds {lead : Nat} (h : secondOk lead b = true) :
    0x80 ≤ b.toNat ∧ b.toNat < 0xC0 ∧ (lead = 0xE0 → 0xA0 ≤ b.toNat) ∧
      (lead = 0xED → b.toNat < 0xA0) ∧ (lead = 0xF0 → 0x90 ≤ b.toNat) ∧
      (lead = 0xF4 → b.toNat < 0x90) := by
  unfold secondOk isCont at h
  grind

theorem takeCont_succ {acc : Nat} {c : Char} (h : takeCont (n+1) acc bs = (some c,rest)) :
    ∃ b more, bs = b :: more ∧ 0x80 ≤ b.toNat ∧ b.toNat < 0xC0 ∧
      takeCont n (acc * 64 + (b.toNat - 0x80)) more = (some c,rest) := by
  cases bs with
  | nil => simp [takeCont] at h
  | cons b more =>
    simp only [takeCont] at h
    split at h
    · rename_i hb
      simp only [isCont,Bool.and_eq_true,decide_eq_true_eq] at hb
      exact ⟨b,more,rfl,hb.1,hb.2,h⟩
    · simp at h

theorem next_eq_some {c : Char} (h : next bs = some (some c,rest)) : bs = encodeChar c ++ rest := by
  cases bs with
  | nil => simp [next] at h
  | cons a tail =>
    simp only [next] at h
    split at h
    · simp at h
    · rename_i ha
      have hlt := leadCount_eq_zero ha
      obtain ⟨hc,rfl⟩ := Prod.mk.inj (some.inj h)
      have hn := toNat_eq (some.inj hc) (by omega)
      simp [encodeChar,hn,hlt]
    · rename_i n ha
      split at h
      · simp at h
      rename_i b more
      split at h
      · rename_i hb
        have hbb := secondOk_bounds hb
        have hk := some.inj h
        rcases leadCount_succ ha with ⟨rfl,hl,hu,hv⟩ | ⟨rfl,hl,hu,hv⟩ | ⟨rfl,hl,hu,hv⟩
        · obtain ⟨hc,rfl⟩ := Prod.mk.inj hk
          have hn := toNat_eq (some.inj hc) (by omega)
          rw [encodeChar,hn,if_neg (by omega),if_pos (by omega)]
          simp only [cons_append,nil_append,cons.injEq]
          exact ⟨(ofNat_eq (by omega)).symm,(ofNat_eq (by omega)).symm,trivial⟩
        · obtain ⟨b₂,m₂,rfl,h₂,h₂',hk⟩ := takeCont_succ hk
          obtain ⟨hc,rfl⟩ := Prod.mk.inj hk
          have hn := toNat_eq (some.inj hc) (by omega)
          rw [encodeChar,hn,if_neg (by omega),if_neg (by omega),if_pos (by omega)]
          simp only [cons_append,nil_append,cons.injEq]
          exact ⟨(ofNat_eq (by omega)).symm,(ofNat_eq (by omega)).symm,
            (ofNat_eq (by omega)).symm,trivial⟩
        · obtain ⟨b₂,m₂,rfl,h₂,h₂',hk⟩ := takeCont_succ hk
          obtain ⟨b₃,m₃,rfl,h₃,h₃',hk⟩ := takeCont_succ hk
          obtain ⟨hc,rfl⟩ := Prod.mk.inj hk
          have hn := toNat_eq (some.inj hc) (by omega)
          rw [encodeChar,hn,if_neg (by omega),if_neg (by omega),if_neg (by omega)]
          simp only [cons_append,nil_append,cons.injEq]
          exact ⟨(ofNat_eq (by omega)).symm,(ofNat_eq (by omega)).symm,
            (ofNat_eq (by omega)).symm,(ofNat_eq (by omega)).symm,trivial⟩
      · simp at h

theorem decodeFuel_eq_some {fuel : Nat} {cs : List Char} (h : decodeFuel fuel bs = some cs) :
    encode cs = bs := by
  induction fuel generalizing bs cs with simp only [decodeFuel] at h
  | zero =>
    split at h
    · rename_i hb
      cases h
      exact hb.symm
    · simp at h
  | succ fuel ih =>
    split at h
    · rename_i hn
      cases h
      cases bs with
      | nil => rfl
      | cons a rest =>
        simp only [next] at hn
        grind
    · simp at h
    · rename_i c rest hn
      obtain ⟨ds,hd,rfl⟩ := map_eq_some_iff.mp h
      rw [next_eq_some hn,encode,flatMap_cons]
      exact congrArg _ (ih hd)

theorem encode_eq_append {cs ds : List Char} (h : encode cs = encode ds ++ rest) :
    ∃ es, cs = ds ++ es ∧ rest = encode es := by
  induction ds generalizing cs with
  | nil => exact ⟨cs,rfl,h.symm⟩
  | cons d ds ih =>
    rw [encode_cons,append_assoc] at h
    have hnext := next_encodeChar d (encode ds ++ rest)
    rw [← h] at hnext
    cases cs with
    | nil => simp [next] at hnext
    | cons c cs =>
      rw [encode_cons,next_encodeChar] at hnext
      obtain ⟨hc,hcs⟩ := Prod.mk.inj (some.inj hnext)
      obtain ⟨es,rfl,hes⟩ := ih hcs
      exact ⟨es,by rw [some.inj hc]; rfl,hes⟩

theorem encode_of_decode {cs : List Char} (h : decode bs = some cs) :
    encode cs = bs := decodeFuel_eq_some h

/-- The length of a text in bytes. -/
def size (cs : List Char) : Nat := (encode cs).length

@[simp] theorem size_nil : size [] = 0 := rfl

@[simp] theorem size_append (cs ds : List Char) : size (cs ++ ds) = size cs + size ds := by
  simp [size]

theorem size_cons {c : Char} (h : c.toNat < 128) (cs : List Char) :
    size (c :: cs) = size cs + 1 := by
  simp [size,encodeChar,h]

end Utf8
