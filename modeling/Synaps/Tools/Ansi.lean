import Mathlib.Data.List.Basic

/-!
`strip_ansi`: escape sequences are taken out of a text. The scanner ends a control sequence at a
letter, at `~` or at `@`, and takes any other escape to be one character long.
-/

set_option autoImplicit false

namespace Synaps.Ansi

open List

def esc : Char := '\x1b'

def bel : Char := '\x07'

/-- Where the scanner stands: in the text, behind an escape, in one of the two loops, or behind the
escape that ends the second loop. -/
inductive Mode where
  | text
  | escape
  | csi
  | osc
  | st

def isAsciiAlphabetic (c : Char) : Bool := ('A' ≤ c && c ≤ 'Z') || ('a' ≤ c && c ≤ 'z')

def endsCsi (c : Char) : Bool := isAsciiAlphabetic c || c = '~' || c = '@'

def strip : Mode → List Char → List Char
  | _, [] => []
  | .text, c :: cs => if c = esc then strip .escape cs else c :: strip .text cs
  | .escape, c :: cs =>
    if c = '[' then strip .csi cs else if c = ']' then strip .osc cs else strip .text cs
  | .csi, c :: cs => if endsCsi c then strip .text cs else strip .csi cs
  | .osc, c :: cs =>
    if c = bel then strip .text cs else if c = esc then strip .st cs else strip .osc cs
  | .st, c :: cs =>
    if c = '\\' then strip .text cs
    else if c = esc then strip .escape cs else c :: strip .text cs

def stripAnsi (cs : List Char) : List Char := strip .text cs

def Within (lo hi : Nat) (c : Char) : Prop := lo ≤ c.toNat ∧ c.toNat ≤ hi

inductive Piece where
  | text (cs : List Char) (h : esc ∉ cs)
  | csi (params inters : List Char) (final : Char) (hp : ∀ c ∈ params, Within 0x30 0x3F c)
    (hi : ∀ c ∈ inters, Within 0x20 0x2F c) (hf : Within 0x40 0x7E final)
  | osc (payload : List Char) (byBel : Bool) (hb : bel ∉ payload) (he : esc ∉ payload)
  | simple (inters : List Char) (final : Char) (hi : ∀ c ∈ inters, Within 0x20 0x2F c)
    (hf : Within 0x30 0x7E final) (hn : inters = [] → final ≠ '[' ∧ final ≠ ']')

namespace Piece

def chars : Piece → List Char
  | text cs _ => cs
  | csi params inters final .. => esc :: '[' :: (params ++ inters ++ [final])
  | osc payload byBel .. => esc :: ']' :: (payload ++ if byBel then [bel] else [esc,'\\'])
  | simple inters final .. => esc :: (inters ++ [final])

def kept : Piece → List Char
  | text cs _ => cs
  | _ => []

def Recognised : Piece → Prop
  | csi _ _ final .. => endsCsi final = true
  | simple inters .. => inters = []
  | _ => True

end Piece

variable {cs : List Char}

theorem strip_text (h : esc ∉ cs) (rest : List Char) :
    strip .text (cs ++ rest) = cs ++ strip .text rest := by
  induction cs with
  | nil => rfl
  | cons c cs ih =>
    obtain ⟨hc,hcs⟩ := not_or.mp (mt mem_cons.mpr h)
    rw [cons_append,strip,if_neg (Ne.symm hc),ih hcs,cons_append]

theorem endsCsi_eq_false {c : Char} (h : c.toNat < 0x40) : endsCsi c = false := by
  have hle (d : Char) (hd : 0x40 ≤ d.toNat) : ¬ d ≤ c := fun hdc =>
    absurd (Nat.le_trans hd (UInt32.le_iff_toNat_le.mp hdc)) (Nat.not_le.mpr h)
  have hne : c ≠ '~' ∧ c ≠ '@' := by constructor <;> rintro rfl <;> exact absurd h (by decide)
  simp [endsCsi,isAsciiAlphabetic,hle 'A' (by decide),hle 'a' (by decide),hne]

theorem strip_csi (h : ∀ c ∈ cs, endsCsi c = false) (rest : List Char) :
    strip .csi (cs ++ rest) = strip .csi rest := by
  induction cs with
  | nil => rfl
  | cons c cs ih =>
    obtain ⟨hc,hcs⟩ := forall_mem_cons.mp h
    rw [cons_append,strip,hc]
    exact ih hcs

theorem endsCsi_body {params inters : List Char} (hp : ∀ c ∈ params, Within 0x30 0x3F c)
    (hi : ∀ c ∈ inters, Within 0x20 0x2F c) : ∀ c ∈ params ++ inters, endsCsi c = false :=
  forall_mem_append.mpr ⟨fun c hc => endsCsi_eq_false (Nat.lt_succ_of_le (hp c hc).2),
    fun c hc => endsCsi_eq_false (Nat.lt_of_le_of_lt (hi c hc).2 (by decide))⟩

theorem strip_osc (hb : bel ∉ cs) (he : esc ∉ cs) (rest : List Char) :
    strip .osc (cs ++ rest) = strip .osc rest := by
  induction cs with
  | nil => rfl
  | cons c cs ih =>
    obtain ⟨hcb,hb⟩ := not_or.mp (mt mem_cons.mpr hb)
    obtain ⟨hce,he⟩ := not_or.mp (mt mem_cons.mpr he)
    rw [cons_append,strip,if_neg (Ne.symm hcb),if_neg (Ne.symm hce)]
    exact ih hb he

theorem strip_piece {p : Piece} (h : p.Recognised) (rest : List Char) :
    stripAnsi (p.chars ++ rest) = p.kept ++ stripAnsi rest := by
  cases p with
  | text cs hcs => exact strip_text hcs rest
  | csi params inters final hp hi hf =>
    show strip .csi ((params ++ inters ++ [final]) ++ rest) = _
    rw [append_assoc,strip_csi (endsCsi_body hp hi)]
    exact if_pos h
  | osc payload byBel hb he =>
    show strip .osc ((payload ++ _) ++ rest) = _
    rw [append_assoc,strip_osc hb he]
    cases byBel <;> rfl
  | simple inters final hi hf hn =>
    obtain ⟨h₁,h₂⟩ := hn h
    change inters = [] at h
    subst h
    show (if final = '[' then _ else if final = ']' then _ else _) = _
    rw [if_neg h₁,if_neg h₂]
    rfl

theorem recognised_of_strip {p : Piece}
    (h : ∀ rest, stripAnsi (p.chars ++ rest) = p.kept ++ stripAnsi rest) : p.Recognised := by
  cases p with
  | text cs hcs | osc payload byBel hb he => trivial
  | csi params inters final hp hi hf =>
    by_contra hf
    -- the letter behind the sequence is taken to be its end
    have hrest : strip .csi ((params ++ inters ++ [final]) ++ ['a']) = ['a'] := h ['a']
    rw [strip_csi (forall_mem_append.mpr ⟨endsCsi_body hp hi,
      forall_mem_singleton.mpr (Bool.eq_false_iff.mpr hf)⟩)] at hrest
    cases hrest
  | simple inters final hi hf hn =>
    cases inters with
    | nil => rfl
    | cons c inters =>
      obtain ⟨hc,hi⟩ := forall_mem_cons.mp hi
      have hplain : esc ∉ inters ++ [final] := by
        intro hm
        rcases mem_append.mp hm with hm | hm
        · exact absurd (hi esc hm).1 (by decide)
        · exact absurd (mem_singleton.mp hm ▸ hf.1) (by decide)
      have hne : c ≠ '[' ∧ c ≠ ']' := by
        constructor <;> rintro rfl <;> exact absurd hc.2 (by decide)
      have hrest : (if c = '[' then _ else if c = ']' then _ else
        strip .text (inters ++ [final] ++ [])) = [] := h []
      rw [if_neg hne.1,if_neg hne.2,strip_text hplain] at hrest
      simp at hrest

/-- What is kept of a piece is its text exactly if a control sequence ends in a letter, `~` or `@`
and an escape has no intermediate byte; of such pieces the texts are kept. -/
theorem strip_pieces (pieces : List Piece) :
    ((∀ p ∈ pieces, p.Recognised) ↔
      ∀ p ∈ pieces, ∀ rest, stripAnsi (p.chars ++ rest) = p.kept ++ stripAnsi rest) ∧
    ((∀ p ∈ pieces, p.Recognised) →
      stripAnsi (pieces.flatMap Piece.chars) = pieces.flatMap Piece.kept) := by
  refine ⟨forall₂_congr fun p _ => ⟨strip_piece,recognised_of_strip⟩,fun h => ?_⟩
  induction pieces with
  | nil => rfl
  | cons p pieces ih =>
    obtain ⟨hp,hpieces⟩ := forall_mem_cons.mp h
    rw [flatMap_cons,flatMap_cons,strip_piece hp,ih hpieces]

theorem strip_swallows : ∃ pieces : List Piece,
    stripAnsi (pieces.flatMap Piece.chars) ≠ pieces.flatMap Piece.kept :=
  ⟨[.csi [] [] '\x7b' nofun nofun (by unfold Within; decide),.text ['o','k'] (by decide)],by decide⟩

theorem strip_clean (mode : Mode) (cs : List Char) :
    (strip mode cs).Sublist cs ∧ esc ∉ strip mode cs := by
  fun_induction strip mode cs with
  | case1 => simp
  | case3 c cs hc ih | case14 c cs hb hc ih =>
    refine ⟨ih.1.cons_cons c,?_⟩
    simpa [Ne.symm hc] using ih.2
  | _ => exact ⟨Sublist.cons _ (by tauto),by tauto⟩

theorem stripAnsi_of_notMem {cs : List Char} (h : esc ∉ cs) : stripAnsi cs = cs := by
  simpa [stripAnsi,strip] using strip_text h []

/-- Whatever a tool prints, no escape is left and nothing is added; a text is left alone exactly if
it has no escape, and a second pass changes nothing. -/
theorem stripAnsi_clean (cs : List Char) :
    (stripAnsi cs).Sublist cs ∧ esc ∉ stripAnsi cs ∧ (stripAnsi cs = cs ↔ esc ∉ cs) ∧
      stripAnsi (stripAnsi cs) = stripAnsi cs := by
  obtain ⟨hsub,hesc⟩ := strip_clean .text cs
  exact ⟨hsub,hesc,⟨fun h => h ▸ hesc,stripAnsi_of_notMem⟩,stripAnsi_of_notMem hesc⟩

end Synaps.Ansi
