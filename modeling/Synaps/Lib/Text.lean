import Mathlib.Data.List.DropRight
import Mathlib.Algebra.BigOperators.Group.List.Basic
import Mathlib.Algebra.GroupWithZero.Nat

/-!
Character classes and the string operations on them: trimming, splitting, and cutting a text to a
number of bytes at a character boundary.
-/

set_option autoImplicit false

namespace Text

def isAsciiAlphanumeric (c : Char) : Bool :=
  ('0' ≤ c && c ≤ '9') || ('a' ≤ c && c ≤ 'z') || ('A' ≤ c && c ≤ 'Z')

def toAsciiLowercase (c : Char) : Char :=
  if 'A' ≤ c && c ≤ 'Z' then Char.ofNat (c.toNat + 32) else c

/-- The characters of the Unicode `White_Space` property. -/
def isWhitespace (c : Char) : Bool :=
  (0x09 ≤ c.toNat && c.toNat ≤ 0x0D) || (0x2000 ≤ c.toNat && c.toNat ≤ 0x200A) ||
    [0x20,0x85,0xA0,0x1680,0x2028,0x2029,0x202F,0x205F,0x3000].contains c.toNat

/-- The characters of the Unicode general category `Cc`. -/
def isControl (c : Char) : Bool :=
  c.toNat < 0x20 || (0x7F ≤ c.toNat && c.toNat ≤ 0x9F)

def trimStart (cs : List Char) : List Char := cs.dropWhile isWhitespace

def trim (cs : List Char) : List Char := (trimStart cs).rdropWhile isWhitespace

/-- The maximal runs of characters that are not white space. -/
def splitWhitespace (cs : List Char) : List (List Char) :=
  (cs.splitOnP isWhitespace).filter (· ≠ [])

def splitOnce (pattern : List Char) : List Char → Option (List Char × List Char)
  | [] => if pattern = [] then some ([],[]) else none
  | c :: cs =>
    match pattern.isPrefixOf? (c :: cs) with
    | some rest => some ([],rest)
    | none => (splitOnce pattern cs).map (fun found => (c :: found.1,found.2))

def splitFuel (pattern : List Char) : Nat → List Char → List (List Char)
  | 0, cs => [cs]
  | fuel + 1, cs =>
    match splitOnce pattern cs with
    | some (before,after) => before :: splitFuel pattern fuel after
    | none => [cs]

def split (pattern cs : List Char) : List (List Char) := splitFuel pattern cs.length cs

def clip (cs : List Char) (chars : Nat) : List Char :=
  cs.take chars ++ if chars < cs.length then ['…'] else []

theorem trim_eq_self {cs : List Char} {c d : Char} (hc : cs.head? = some c)
    (hd : cs.getLast? = some d) (hcw : isWhitespace c = false) (hdw : isWhitespace d = false) :
    trim cs = cs := by
  have hstart : trimStart cs = cs := by
    cases cs with
    | nil => rfl
    | cons a cs =>
      have ha : a = c := Option.some.inj hc
      simp [trimStart,ha,hcw]
  rw [trim,hstart,List.rdropWhile_eq_self_iff]
  intro hne
  rw [List.getLast?_eq_some_getLast hne] at hd
  rw [Option.some.inj hd,hdw]
  exact Bool.false_ne_true

theorem toDigits_injective {a b : Nat} (h : Nat.toDigits 10 a = Nat.toDigits 10 b) : a = b := by
  rw [← @Nat.ofDigitChars_ten_toDigits a,h,Nat.ofDigitChars_ten_toDigits]

theorem takeWhile_reverse_toDigits {mark : Char} (hmark : mark.isDigit = false) (front : List Char)
    (n : Nat) :
    ((front ++ mark :: Nat.toDigits 10 n).reverse).takeWhile (· ≠ mark)
      = (Nat.toDigits 10 n).reverse := by
  have hdigits : ∀ c ∈ (Nat.toDigits 10 n).reverse,decide (c ≠ mark) = true := by
    intro c hc
    have hdigit := Nat.isDigit_of_mem_toDigits (by omega) (by omega) (List.mem_reverse.mp hc)
    refine decide_eq_true fun heq => ?_
    rw [heq,hmark] at hdigit
    exact Bool.noConfusion hdigit
  rw [List.reverse_append,List.reverse_cons,List.append_assoc,List.takeWhile_append_of_pos hdigits]
  simp

theorem toDigits_of_marked {mark : Char} (hmark : mark.isDigit = false) {front front' : List Char}
    {a b : Nat}
    (h : front ++ mark :: Nat.toDigits 10 a = front' ++ mark :: Nat.toDigits 10 b) : a = b := by
  have hread := congrArg (fun l => (List.reverse l).takeWhile (· ≠ mark)) h
  simp only [takeWhile_reverse_toDigits hmark] at hread
  exact toDigits_injective (List.reverse_injective hread)

open List

variable {c : Char}

theorem rdropWhile_append_cons {p : Char → Bool} (hc : p c = false) (a b : List Char) :
    (a ++ c :: b).rdropWhile p = a ++ c :: b.rdropWhile p := by
  induction b using reverseRecOn with
  | nil => rw [rdropWhile_concat_neg _ _ _ (by simp [hc]),rdropWhile_nil]
  | append_singleton b d ih =>
    rw [show a ++ c :: (b ++ [d]) = a ++ c :: b ++ [d] by simp]
    cases hd : p d with
    | true => rw [rdropWhile_concat_pos _ _ _ hd,ih,rdropWhile_concat_pos _ _ _ hd]
    | false =>
      rw [rdropWhile_concat_neg _ _ _ (by simp [hd]),rdropWhile_concat_neg _ _ _ (by simp [hd])]
      simp

theorem trimStart_append_cons (hc : isWhitespace c = false) (a b : List Char) :
    trimStart (a ++ c :: b) = trimStart a ++ c :: b := by
  unfold trimStart
  induction a with
  | nil => exact dropWhile_cons_of_neg (by simp [hc])
  | cons d a ih =>
    cases hd : isWhitespace d with
    | true => rw [cons_append,dropWhile_cons_of_pos hd,dropWhile_cons_of_pos hd,ih]
    | false =>
      rw [cons_append,dropWhile_cons_of_neg (by simp [hd]),
        dropWhile_cons_of_neg (by simp [hd]),cons_append]

theorem trim_append_cons (hc : isWhitespace c = false) (a b : List Char) :
    trim (a ++ c :: b) = trimStart a ++ c :: b.rdropWhile isWhitespace := by
  rw [trim,trimStart_append_cons hc,rdropWhile_append_cons hc]

variable (cs : List Char)

theorem trimStart_cases :
    trimStart cs = [] ∨ ∃ a c b, cs = a ++ c :: b ∧ trimStart a = [] ∧ isWhitespace c = false ∧
      trimStart cs = c :: b := by
  induction cs with
  | nil => exact .inl rfl
  | cons d cs ih =>
    unfold trimStart at ih ⊢
    cases hd : isWhitespace d with
    | true =>
      rw [dropWhile_cons_of_pos hd]
      rcases ih with hnil | ⟨a,c,b,rfl,ha,hc,hcs⟩
      · exact .inl hnil
      · exact .inr ⟨d :: a,c,b,rfl,by rw [dropWhile_cons_of_pos hd]; exact ha,hc,hcs⟩
    | false =>
      rw [dropWhile_cons_of_neg (by simp [hd])]
      exact .inr ⟨[],d,cs,rfl,rfl,hd,rfl⟩

theorem trim_trimStart : trim (trimStart cs) = trim cs := by
  unfold trim trimStart
  rw [dropWhile_idempotent]

theorem trim_rdropWhile : trim (cs.rdropWhile isWhitespace) = trim cs := by
  rcases trimStart_cases cs with hnil | ⟨a,c,b,rfl,ha,hc,-⟩
  · have hall : ∀ c ∈ cs, isWhitespace c = true := dropWhile_eq_nil_iff.mp hnil
    rw [rdropWhile_eq_nil_iff.mpr hall,trim,trim,hnil]
    rfl
  · rw [rdropWhile_append_cons hc,trim_append_cons hc,trim_append_cons hc,rdropWhile_idempotent]

theorem trim_trim : trim (trim cs) = trim cs :=
  (trim_rdropWhile (trimStart cs)).trans (trim_trimStart cs)

section

variable {p cs a b : List Char}

theorem isPrefixOf?_eq_none : p.isPrefixOf? cs = none ↔ ¬p <+: cs := by
  rw [Option.eq_none_iff_forall_ne_some]
  exact ⟨fun h ⟨t,ht⟩ => h t (isPrefixOf?_eq_some_iff_append_eq.mpr ht),
    fun h t ht => h ⟨t,isPrefixOf?_eq_some_iff_append_eq.mp ht⟩⟩

theorem splitOnce_eq_none (hp : p ≠ []) : splitOnce p cs = none ↔ ¬p <:+: cs := by
  induction cs with
  | nil => simp [splitOnce,hp]
  | cons c cs ih =>
    rw [splitOnce,infix_cons_iff,not_or,← ih]
    cases hc : p.isPrefixOf? (c :: cs) with
    | some rest => simp [← isPrefixOf?_eq_some_iff_append_eq.mp hc]
    | none => simp [isPrefixOf?_eq_none.mp hc]

/-- The part before the first place where the pattern stands, and the part after it. -/
theorem splitOnce_ok (hp : p ≠ []) (h : splitOnce p cs = some (a,b)) :
    cs = a ++ (p ++ b) ∧ ∀ s t, cs = s ++ (p ++ t) → a.length ≤ s.length := by
  induction cs generalizing a with
  | nil => simp [splitOnce,hp] at h
  | cons c cs ih =>
    rw [splitOnce] at h
    cases hc : p.isPrefixOf? (c :: cs) with
    | some rest =>
      rw [hc] at h
      cases h
      exact ⟨(isPrefixOf?_eq_some_iff_append_eq.mp hc).symm,fun s _ _ => Nat.zero_le _⟩
    | none =>
      rw [hc] at h
      obtain ⟨⟨a,b⟩,hfound,heq⟩ := Option.map_eq_some_iff.mp h
      cases heq
      obtain ⟨hcs,hfirst⟩ := ih hfound
      refine ⟨congrArg (c :: ·) hcs,fun s t hs => ?_⟩
      cases s with
      | nil => exact absurd ⟨t,hs.symm⟩ (isPrefixOf?_eq_none.mp hc)
      | cons d s => exact Nat.succ_le_succ (hfirst s t (cons.inj hs).2)

theorem splitOnce_eq_some (hp : p ≠ [])
    (hfirst : ∀ s t, a ++ (p ++ b) = s ++ (p ++ t) → a.length ≤ s.length) :
    splitOnce p (a ++ (p ++ b)) = some (a,b) := by
  cases h : splitOnce p (a ++ (p ++ b)) with
  | none => exact absurd ⟨a,b,append_assoc ..⟩ ((splitOnce_eq_none hp).mp h)
  | some found =>
    obtain ⟨heq,hleast⟩ := splitOnce_ok hp h
    obtain ⟨ha,hb⟩ := append_inj heq (le_antisymm (hfirst _ _ heq) (hleast _ _ rfl))
    rw [ha,append_cancel_left hb]

theorem splitOnce_append (ha : c ∉ a) (b : List Char) : splitOnce [c] (a ++ c :: b) = some (a,b) := by
  refine splitOnce_eq_some (by simp) fun s t h => Nat.le_of_not_lt fun hlt => ha ?_
  have hs : s ++ [c] <+: a ++ ([c] ++ b) := ⟨t,by simpa using h.symm⟩
  exact (prefix_of_prefix_length_le hs ⟨_,rfl⟩ (by simpa)).subset (by simp)

theorem splitOnce_none (h : c ∉ cs) : splitOnce [c] cs = none :=
  (splitOnce_eq_none (by simp)).mpr fun hc => h (hc.subset (by simp))

end

theorem mem_of_mem_trim {cs : List Char} (h : c ∈ trim cs) : c ∈ cs := by
  have hstart : c ∈ trimStart cs := ( rdropWhile_prefix _ _).subset h
  exact (dropWhile_suffix _).subset hstart

/-- No `x` stands right before a `y`. -/
def Apart (x y : Char) (cs : List Char) : Prop := cs.IsChain fun c d => ¬(c = x ∧ d = y)

section

variable {x y : Char} {cs a : List Char}

theorem apart_cons {c : Char} :
    Apart x y (c :: cs) ↔ (c = x → cs.head? ≠ some y) ∧ Apart x y cs := by
  cases cs <;> simp [Apart]

theorem apart_iff : Apart x y cs ↔ ¬[x,y] <:+: cs := by
  induction cs with
  | nil => simp [Apart]
  | cons c cs ih =>
    rw [apart_cons,ih,infix_cons_iff,not_or]
    refine and_congr_left fun _ => ?_
    cases cs <;> simp [cons_prefix_cons,eq_comm]

theorem splitOnce_pair (h : Apart x y (a ++ [x])) (p b : List Char) :
    splitOnce (x :: y :: p) (a ++ x :: y :: (p ++ b)) = some (a,b) := by
  refine splitOnce_eq_some (by simp) fun s t heq => Nat.le_of_not_lt fun hlt => apart_iff.mp h ?_
  have hs : s ++ [x,y] <+: a ++ (x :: y :: p ++ b) := ⟨p ++ t,by simpa using heq.symm⟩
  have hin := prefix_of_prefix_length_le hs ⟨y :: (p ++ b),by simp⟩ (show _ ≤ (a ++ [x]).length by simpa)
  exact (suffix_append s _).isInfix.trans hin.isInfix

theorem splitOnce_of_apart (h : Apart x y cs) (p : List Char) : splitOnce (x :: y :: p) cs = none :=
  (splitOnce_eq_none (by simp)).mpr fun hin => apart_iff.mp h (IsInfix.trans ⟨[],p,rfl⟩ hin)

theorem of_splitOnce_pair {b : List Char} (h : splitOnce [x,y] cs = some (a,b)) :
    cs = a ++ x :: y :: b ∧ Apart x y (a ++ [x]) := by
  obtain ⟨rfl,hfirst⟩ := splitOnce_ok (by simp) h
  refine ⟨rfl,apart_iff.mpr ?_⟩
  rintro ⟨s,t,hst⟩
  have hlen := congrArg length hst
  have hle := hfirst s (t ++ y :: b) (by simpa using congrArg (· ++ y :: b) hst.symm)
  simp at hlen
  omega

theorem apart_of_splitOnce (h : splitOnce [x,y] cs = none) : Apart x y cs :=
  apart_iff.mpr ((splitOnce_eq_none (by simp)).mp h)

theorem apart_append (ha : x ∉ a) (h : Apart x y cs) : Apart x y (a ++ cs) := by
  induction a with
  | nil => exact h
  | cons c a ih =>
    rw [mem_cons,not_or] at ha
    exact apart_cons.mpr ⟨fun hc => absurd hc.symm ha.1,ih ha.2⟩

theorem splitFuel_intercalate {item : List Char} {items : List (List Char)} {fuel : Nat}
    (hfuel : items.length ≤ fuel) (h : ∀ i ∈ item :: items, x ∉ i) :
    splitFuel [x,y] fuel ([x,y].intercalate (item :: items)) = item :: items := by
  induction items generalizing item fuel with
  | nil =>
    have hs : splitOnce [x,y] item = none := by
      have := apart_append (h item mem_cons_self) (.nil : Apart x y [])
      exact splitOnce_of_apart (by simpa using this) []
    cases fuel <;> simp [splitFuel,intercalate,hs]
  | cons next items ih =>
    obtain ⟨fuel,rfl⟩ := Nat.exists_eq_add_of_le' (Nat.zero_lt_of_lt hfuel)
    have hs := @splitOnce_pair x y item (apart_append (h item mem_cons_self) (.singleton x)) []
      ([x,y].intercalate (next :: items))
    rw [show [x,y].intercalate (item :: next :: items) =
      item ++ x :: y :: ([] ++ [x,y].intercalate (next :: items)) by simp [intercalate],
      splitFuel,hs]
    simp only [ih (Nat.le_of_succ_le_succ hfuel) fun i hi => h i (mem_cons_of_mem _ hi)]

end

def byteLen (text : List Char) : Nat := (text.map Char.utf8Size).sum

def truncateBytes : Nat → List Char → List Char
  | _,[] => []
  | max,c :: cs => if c.utf8Size ≤ max then c :: truncateBytes (max - c.utf8Size) cs else []

@[simp] theorem byteLen_nil : byteLen [] = 0 := rfl

@[simp] theorem byteLen_append (a b : List Char) : byteLen (a ++ b) = byteLen a + byteLen b := by
  simp [byteLen]

@[simp] theorem byteLen_cons (c : Char) (cs : List Char) :
    byteLen (c :: cs) = c.utf8Size + byteLen cs := by
  simp [byteLen]

section

variable (max : Nat) (text : List Char)

theorem truncateBytes_initial : truncateBytes max text <+: text := by
  induction text generalizing max with
  | nil => exact prefix_refl _
  | cons c cs ih =>
    rw [truncateBytes]
    split
    · exact (prefix_cons_inj c).mpr (ih _)
    · exact nil_prefix

theorem byteLen_truncateBytes : byteLen (truncateBytes max text) ≤ max := by
  induction text generalizing max with
  | nil => exact Nat.zero_le _
  | cons c cs ih =>
    rw [truncateBytes]
    split
    · have hrest := ih (max - c.utf8Size)
      rw [byteLen_cons]
      omega
    · exact Nat.zero_le _

theorem byteLen_truncateBytes_le : byteLen (truncateBytes max text) ≤ byteLen text := by
  obtain ⟨rest,hrest⟩ := truncateBytes_initial max text
  rw [← congrArg byteLen hrest,byteLen_append]
  exact Nat.le_add_right _ _

theorem truncateBytes_append (rest : List Char) : truncateBytes max (text ++ rest) =
    if byteLen text ≤ max then text ++ truncateBytes (max - byteLen text) rest
    else truncateBytes max text := by
  induction text generalizing max with
  | nil => simp
  | cons c cs ih =>
    rw [cons_append,truncateBytes,truncateBytes,ih,byteLen_cons]
    by_cases hc : c.utf8Size ≤ max
    · rw [if_pos hc,if_pos hc,Nat.sub_sub]
      split <;> split <;> first | rfl | omega
    · rw [if_neg hc,if_neg hc,if_neg (by omega)]

end

theorem truncateBytes_of_le {max : Nat} {text : List Char} (h : byteLen text ≤ max) :
    truncateBytes max text = text := by
  have := truncateBytes_append max text []
  rwa [if_pos h,append_nil,truncateBytes,append_nil] at this

/-- The longest initial part of a text within a number of bytes. -/
structure LongestWithin (max : Nat) (text part : List Char) : Prop where
  initial : part <+: text
  within : byteLen part ≤ max
  longest : ∀ other, other <+: text → byteLen other ≤ max → other <+: part

theorem longestWithin_iff {max : Nat} {text part : List Char} :
    LongestWithin max text part ↔ part = truncateBytes max text := by
  have hlongest (other : List Char) (ho : other <+: text) (hle : byteLen other ≤ max) :
      other <+: truncateBytes max text := by
    obtain ⟨rest,rfl⟩ := ho
    rw [truncateBytes_append,if_pos hle]
    exact prefix_append _ _
  have hinitial := truncateBytes_initial max text
  have hwithin := byteLen_truncateBytes max text
  constructor
  · intro h
    have hpart := hlongest part h.initial h.within
    exact hpart.eq_of_length_le (h.longest _ hinitial hwithin).length_le
  · rintro rfl
    exact ⟨hinitial,hwithin,hlongest⟩

end Text
