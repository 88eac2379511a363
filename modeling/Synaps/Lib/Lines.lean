import Synaps.Lib.Utf8

/-!
Text files read line by line. A line ends at a newline, a carriage return before the newline
is dropped, and a last line may lack its newline. Read as bytes, each line keeps its newline and
is decoded on its own.
-/

set_option autoImplicit false

namespace Lines

open List

def stripReturn (l : List Char) : List Char :=
  if l.getLast? = some '\r' then l.dropLast else l

def linesFrom : List Char → List Char → List (List Char)
  | acc, [] => if acc = [] then [] else [acc]
  | acc, c :: cs =>
    if c = '\n' then stripReturn acc :: linesFrom [] cs else linesFrom (acc ++ [c]) cs

def lines (cs : List Char) : List (List Char) := linesFrom [] cs

def terminated (ls : List (List Char)) : List Char := ls.flatMap (· ++ ['\n'])

/-- Lines that survive being written and read: no line break of either kind. -/
def Plain (l : List Char) : Prop := ∀ c ∈ l, c ≠ '\n' ∧ c ≠ '\r'

def endsWithNewline (bs : List UInt8) : Bool := bs.getLast? == some 10

@[simp] theorem terminated_nil : terminated [] = [] := rfl

@[simp] theorem terminated_cons (l : List Char) (ls : List (List Char)) :
    terminated (l :: ls) = l ++ '\n' :: terminated ls := by
  simp [terminated]

@[simp] theorem terminated_append (ls ms : List (List Char)) :
    terminated (ls ++ ms) = terminated ls ++ terminated ms := by
  simp [terminated]

variable {l : List Char}

theorem stripReturn_plain (h : Plain l) : stripReturn l = l := by
  unfold stripReturn
  split
  · rename_i hl
    exact absurd rfl (h _ (mem_of_getLast? hl)).2
  · rfl

theorem linesFrom_append (h : '\n' ∉ l) (acc rest : List Char) :
    linesFrom acc (l ++ rest) = linesFrom (acc ++ l) rest := by
  induction l generalizing acc with
  | nil => simp
  | cons c cs ih =>
    have hc : c ≠ '\n' := fun hc => h (hc ▸ mem_cons_self)
    have hcs : '\n' ∉ cs := fun hm => h (mem_cons_of_mem _ hm)
    rw [cons_append,linesFrom,if_neg hc,ih hcs,append_assoc,singleton_append]

theorem Plain.newline (h : Plain l) : '\n' ∉ l := fun hm => (h _ hm).1 rfl

theorem lines_cons (h : Plain l) (rest : List Char) :
    lines (l ++ '\n' :: rest) = l :: lines rest := by
  rw [lines,linesFrom_append h.newline,linesFrom,if_pos rfl,nil_append,stripReturn_plain h,lines]

theorem lines_last (h : '\n' ∉ l) (hne : l ≠ []) : lines l = [l] := by
  have hl := linesFrom_append h [] []
  simpa [lines,linesFrom,hne] using hl

variable {ls : List (List Char)}

theorem lines_terminated (h : ∀ l ∈ ls, Plain l) (tail : List Char) :
    lines (terminated ls ++ tail) = ls ++ lines tail := by
  induction ls with
  | nil => rfl
  | cons l ls ih =>
    rw [terminated_cons,append_assoc,cons_append,lines_cons (h l mem_cons_self),
      ih fun m hm => h m (mem_cons_of_mem _ hm),cons_append]

theorem newline_notMem_lines (cs : List Char) : ∀ l ∈ lines cs, '\n' ∉ l := by
  have hfrom (acc : List Char) (hacc : '\n' ∉ acc) : ∀ l ∈ linesFrom acc cs, '\n' ∉ l := by
    induction cs generalizing acc with
    | nil =>
      intro l hl
      rw [linesFrom] at hl
      split at hl
      · exact absurd hl not_mem_nil
      · rw [mem_singleton.mp hl]
        exact hacc
    | cons c cs ih =>
      intro l hl
      rw [linesFrom] at hl
      split at hl
      · rcases mem_cons.mp hl with rfl | hl
        · unfold stripReturn
          split
          · exact fun h => hacc (dropLast_subset _ h)
          · exact hacc
        · exact ih [] not_mem_nil l hl
      · rename_i hc
        refine ih (acc ++ [c]) (fun h => ?_) l hl
        rcases mem_append.mp h with h | h
        · exact hacc h
        · exact hc (mem_singleton.mp h).symm
  exact hfrom [] not_mem_nil

theorem lines_terminated_strip (h : ∀ l ∈ ls, '\n' ∉ l) :
    lines (terminated ls) = ls.map stripReturn := by
  induction ls with
  | nil => rfl
  | cons l ls ih =>
    have hl := h l mem_cons_self
    rw [terminated_cons,lines,linesFrom_append hl,linesFrom,if_pos rfl,nil_append,map_cons]
    exact congrArg _ (ih fun m hm => h m (mem_cons_of_mem _ hm))

theorem prefix_terminated {ds : List Char} (h : ds <+: terminated ls) :
    ∃ k tail, ds = terminated (ls.take k) ++ tail ∧
      (tail = [] ∨ ∃ l, ls[k]? = some l ∧ tail <+: l) := by
  induction ls generalizing ds with
  | nil => exact ⟨0,[],by simpa using h,.inl rfl⟩
  | cons l ls ih =>
    obtain ⟨r,hr⟩ := h
    rw [terminated_cons,append_eq_append_iff] at hr
    rcases hr with ⟨rest,hl,-⟩ | ⟨ds',rfl,hd⟩
    · exact ⟨0,ds,by simp,.inr ⟨l,rfl,⟨rest,hl.symm⟩⟩⟩
    cases ds' with
    | nil => exact ⟨0,l,by simp,.inr ⟨l,rfl,prefix_refl l⟩⟩
    | cons c cs =>
      obtain ⟨rfl,hcs⟩ := cons_eq_cons.mp hd
      obtain ⟨k,tail,rfl,ht⟩ := ih ⟨r,hcs.symm⟩
      exact ⟨k+1,tail,by simp,by simpa using ht⟩

theorem concat_ne_terminated {c : Char} (hc : c ≠ '\n') (ds : List Char) (ls : List (List Char)) :
    ds ++ [c] ≠ terminated ls := by
  intro h
  rcases eq_nil_or_concat ls with rfl | ⟨ms,m,rfl⟩
  · simp at h
  · rw [concat_eq_append,terminated_append,terminated_cons,terminated_nil,← append_assoc] at h
    exact hc (singleton_inj.mp (append_inj' h rfl).2)

theorem newline_byte {c : Char} (h : (10 : UInt8) ∈ Utf8.encodeChar c) : c = '\n' := by
  have hc := Utf8.encodeChar_shape c
  have hten : (10 : UInt8).toNat = 10 := rfl
  generalize Utf8.encodeChar c = bs at hc h
  have high {a b : UInt8} (hs : Utf8.secondOk a.toNat b = true) : b ≠ 10 := by
    rintro rfl
    simp [Utf8.secondOk,Utf8.isCont] at hs
  have lead {a : UInt8} {n : Nat} (hl : Utf8.leadCount a.toNat = some (n+1)) : a ≠ 10 := by
    rintro rfl
    simp [Utf8.leadCount] at hl
  have low {b : UInt8} {m : Nat} (hb : b.toNat = 0x80 + m) : b ≠ 10 := by
    rintro rfl
    omega
  cases hc with
  | ascii a ha h₀ =>
    have ha10 : c.toNat = 10 := by rw [← ha,← mem_singleton.mp h]; rfl
    rw [← Char.ofNat_toNat c,ha10]
  | two a b q m hl hq hs hb he =>
    simp [(lead hl).symm,(high hs).symm] at h
  | three a b b₂ q m m₂ hl hq hs hb hb₂ hm₂ he =>
    simp [(lead hl).symm,(high hs).symm,(low hb₂).symm] at h
  | four a b b₂ b₃ q m m₂ m₃ hl hq hs hb hb₂ hm₂ hb₃ hm₃ he =>
    simp [(lead hl).symm,(high hs).symm,(low hb₂).symm,(low hb₃).symm] at h

theorem encode_newline : Utf8.encode ['\n'] = [10] := by decide

/-- How a line that was not written to its end reads: a part of it (all of it, if
only the newline is missing), or a strict part and U+FFFD for a cut character. -/
inductive TornLine (l : List Char) : List Char → Prop
  | part (t : List Char) (ht : t <+: l) (hne : t ≠ []) : TornLine l t
  | cut (t : List Char) (ht : t <+: l) (hne : t ≠ l) : TornLine l (t ++ [Utf8.replacement])

theorem TornLine.newline {t : List Char} (h : TornLine l t) (hl : '\n' ∉ l) :
    '\n' ∉ t ∧ t ≠ [] := by
  cases h with
  | part _ ht hne => exact ⟨fun hm => hl (ht.subset hm),hne⟩
  | cut t ht _ =>
    refine ⟨fun hm => ?_,by simp⟩
    rcases mem_append.mp hm with hm | hm
    · exact hl (ht.subset hm)
    · simp [Utf8.replacement] at hm

theorem endsWithNewline_false {bs : List UInt8} {cs : List Char} (h : bs ≠ [])
    (hb : ∀ b ∈ bs, ∃ c ∈ cs, b ∈ Utf8.encodeChar c) (hcs : '\n' ∉ cs) (pre : List UInt8) :
    endsWithNewline (pre ++ bs) = false := by
  rw [endsWithNewline,getLast?_append_of_ne_nil _ h,beq_eq_false_iff_ne]
  intro hl
  obtain ⟨c,hc,hm⟩ := hb 10 (mem_of_getLast? hl)
  exact hcs (newline_byte hm ▸ hc)

/-- A file of plain lines with a prefix of more lines appended: it holds the
lines, some of the appended ones whole, and at most one torn line, in which case
it does not end with a newline. -/
theorem lines_torn {ms : List (List Char)} {p : List UInt8} (hl : ∀ l ∈ ls, Plain l)
    (hm : ∀ m ∈ ms, Plain m) (hp : p <+: Utf8.encode (terminated ms)) :
    ∃ k, (p = Utf8.encode (terminated (ms.take k)) ∧
        lines (Utf8.decodeLossy (Utf8.encode (terminated ls) ++ p)) = ls ++ ms.take k) ∨
      ∃ m t, ms[k]? = some m ∧ TornLine m t ∧
        lines (Utf8.decodeLossy (Utf8.encode (terminated ls) ++ p)) = ls ++ ms.take k ++ [t] ∧
        endsWithNewline (Utf8.encode (terminated ls) ++ p) = false := by
  have plain (k : Nat) : ∀ l ∈ ls ++ ms.take k, Plain l := by
    exact forall_mem_append.mpr ⟨hl,fun l h => hm l (mem_of_mem_take h)⟩
  have read (k : Nat) (tail : List Char) :
      lines (terminated ls ++ (terminated (ms.take k) ++ tail)) = ls ++ ms.take k ++ lines tail := by
    rw [← append_assoc,← terminated_append,lines_terminated (plain k)]
  rcases Utf8.prefix_encode hp with ⟨ds,hd,rfl⟩ | ⟨ds,c,torn,rest,hd,ht,h₁,h₂,rfl⟩
  · obtain ⟨k,tail,rfl,htail⟩ := prefix_terminated hd
    refine ⟨k,?_⟩
    rw [← Utf8.encode_append,Utf8.decodeLossy_encode,read]
    rcases eq_nil_or_concat tail with rfl | hne
    · exact .inl ⟨by simp,by simp [lines,linesFrom]⟩
    have hne : tail ≠ [] := by rintro rfl; simp at hne
    obtain ⟨m,hk,hpre⟩ := htail.resolve_left hne
    have hnl : '\n' ∉ tail := fun h => (hm m (mem_of_getElem? hk)).newline (hpre.subset h)
    refine .inr ⟨m,tail,hk,.part tail hpre hne,by rw [lines_last hnl hne],?_⟩
    rw [Utf8.encode_append,Utf8.encode_append,← append_assoc]
    have he : Utf8.encode tail ≠ [] := fun h => hne (Utf8.encode_injective h)
    exact endsWithNewline_false he (fun b hb => mem_flatMap.mp hb) hnl _
  · have hc : c ≠ '\n' := by
      rintro rfl
      obtain ⟨a,torn,rfl⟩ := exists_cons_of_ne_nil h₁
      obtain ⟨z,rest,rfl⟩ := exists_cons_of_ne_nil h₂
      simp [Utf8.encodeChar] at ht
    obtain ⟨k,tail,he,htail⟩ := prefix_terminated hd
    rcases eq_nil_or_concat tail with rfl | ⟨t,d,rfl⟩
    · exact absurd (he.trans (append_nil _)) (concat_ne_terminated hc ds _)
    obtain ⟨m,hk,hpre⟩ := htail.resolve_left (by simp)
    rw [concat_eq_append,← append_assoc] at he
    obtain ⟨rfl,hcd⟩ := append_inj' he rfl
    obtain rfl := singleton_inj.mp hcd
    rw [concat_eq_append] at hpre
    have hm' := (hm m (mem_of_getElem? hk)).newline
    have hcut : TornLine m (t ++ [Utf8.replacement]) := by
      refine .cut t ((prefix_append t [c]).trans hpre) ?_
      rintro rfl
      have hlen := hpre.length_le
      rw [length_append,length_singleton] at hlen
      omega
    refine ⟨k,.inr ⟨m,_,hk,hcut,?_,?_⟩⟩
    · rw [← append_assoc,← Utf8.encode_append,Utf8.decodeLossy_torn _ ht h₁ h₂,
        append_assoc,append_assoc,read,lines_last (hcut.newline hm').1 (by simp)]
    · rw [← append_assoc]
      have hb : ∀ b ∈ torn, ∃ d ∈ [c], b ∈ Utf8.encodeChar d := fun b hb =>
        ⟨c,mem_singleton_self c,ht ▸ mem_append_left _ hb⟩
      exact endsWithNewline_false h₁ hb (by simpa using hc.symm) _

theorem endsWithNewline_terminated (ls : List (List Char)) (l : List Char) :
    endsWithNewline (Utf8.encode (terminated (ls ++ [l]))) = true := by
  rw [terminated_append,terminated_cons,terminated_nil,← append_assoc,Utf8.encode_append,encode_newline,
    endsWithNewline,getLast?_append_of_ne_nil _ (by simp)]
  rfl

def rawFrom : List UInt8 → List UInt8 → List (List UInt8)
  | acc, [] => if acc = [] then [] else [acc]
  | acc, b :: bs => if b = 10 then (acc ++ [b]) :: rawFrom [] bs else rawFrom (acc ++ [b]) bs

def rawLines (bs : List UInt8) : List (List UInt8) := rawFrom [] bs

def lineText (raw : List UInt8) : Option (List Char) :=
  (Utf8.decode raw).map fun cs =>
    if cs.getLast? = some '\n' then stripReturn cs.dropLast else cs

def rawOf (l : List Char) : List UInt8 := Utf8.encode (l ++ ['\n'])

@[simp] theorem rawLines_nil : rawLines [] = [] := rfl

theorem rawFrom_append {bs : List UInt8} (h : (10 : UInt8) ∉ bs) (acc rest : List UInt8) :
    rawFrom acc (bs ++ rest) = rawFrom (acc ++ bs) rest := by
  induction bs generalizing acc with
  | nil => simp
  | cons b bs ih =>
    have hb : b ≠ 10 := fun hb => h (hb ▸ mem_cons_self)
    have hbs : (10 : UInt8) ∉ bs := fun hm => h (mem_cons_of_mem _ hm)
    rw [cons_append,rawFrom,if_neg hb,ih hbs,append_assoc,singleton_append]

variable {l : List Char}

theorem newline_notMem_encode (h : '\n' ∉ l) : (10 : UInt8) ∉ Utf8.encode l := by
  intro hm
  obtain ⟨c,hc,hb⟩ := mem_flatMap.mp hm
  exact h (newline_byte hb ▸ hc)

theorem rawOf_eq (l : List Char) : rawOf l = Utf8.encode l ++ [10] := by
  rw [rawOf,Utf8.encode_append,encode_newline]

theorem rawOf_ne_nil (l : List Char) : rawOf l ≠ [] := by
  rw [rawOf_eq]
  simp

theorem rawLines_cons (h : '\n' ∉ l) (rest : List UInt8) :
    rawLines (rawOf l ++ rest) = rawOf l :: rawLines rest := by
  rw [rawOf_eq,append_assoc,rawLines,rawFrom_append (newline_notMem_encode h)]
  simp [rawFrom,rawLines]

theorem rawLines_last {bs : List UInt8} (h : (10 : UInt8) ∉ bs) (hne : bs ≠ []) :
    rawLines bs = [bs] := by
  have hl := rawFrom_append h [] []
  simpa [rawLines,rawFrom,hne] using hl

theorem encode_terminated_cons (l : List Char) (ls : List (List Char)) :
    Utf8.encode (terminated (l :: ls)) = rawOf l ++ Utf8.encode (terminated ls) := by
  rw [terminated_cons,rawOf,← Utf8.encode_append]
  simp

theorem rawLines_terminated {ls : List (List Char)} (h : ∀ l ∈ ls, '\n' ∉ l) (tail : List UInt8) :
    rawLines (Utf8.encode (terminated ls) ++ tail) = ls.map rawOf ++ rawLines tail := by
  induction ls with
  | nil => rfl
  | cons l ls ih =>
    rw [encode_terminated_cons,append_assoc,rawLines_cons (h l mem_cons_self),
      ih fun m hm => h m (mem_cons_of_mem _ hm),map_cons,cons_append]

theorem decode_rawOf (l : List Char) : Utf8.decode (rawOf l) = some (l ++ ['\n']) :=
  Utf8.decode_encode _

theorem lineText_rawOf (h : Plain l) : lineText (rawOf l) = some l := by
  simp [lineText,decode_rawOf,stripReturn_plain h]

theorem lineText_torn (h : '\n' ∉ l) : lineText (Utf8.encode l) = some l := by
  rw [lineText,Utf8.decode_encode,Option.map_some,if_neg]
  intro hl
  exact h (mem_of_getLast? hl)

theorem encode_split_newline {cs : List Char} {p rest : List UInt8} (hp : (10 : UInt8) ∉ p)
    (h : Utf8.encode cs = p ++ 10 :: rest) : ∃ ds, p = Utf8.encode ds := by
  have hmem : '\n' ∈ cs := by
    have hm : (10 : UInt8) ∈ Utf8.encode cs := by
      rw [h]
      simp
    obtain ⟨c,hc,hb⟩ := mem_flatMap.mp hm
    exact newline_byte hb ▸ hc
  obtain ⟨u,w,rfl,hu⟩ := eq_append_cons_of_mem hmem
  rw [Utf8.encode_append,← singleton_append,Utf8.encode_append,encode_newline] at h
  have hu := newline_notMem_encode hu
  have htake := congrArg (takeWhile (· ≠ (10 : UInt8))) h
  have hall {q : List UInt8} (hq : (10 : UInt8) ∉ q) (more : List UInt8) :
      takeWhile (· ≠ (10 : UInt8)) (q ++ 10 :: more) = q := by
    have hne : ∀ b ∈ q, decide (b ≠ 10) = true := by
      intro b hb
      exact decide_eq_true fun heq => hq (by rw [← heq]; exact hb)
    rw [takeWhile_append_of_pos hne]
    simp
  rw [singleton_append,hall hu,hall hp] at htake
  exact ⟨u,htake.symm⟩

theorem decode_between {a b : List Char} {p : List UInt8} (hp : (10 : UInt8) ∉ p)
    (hdecode : Utf8.decode p = none) (hb : b = [] ∨ b.head? = some '\n') :
    Utf8.decode (Utf8.encode a ++ p ++ Utf8.encode b) = none := by
  refine Option.eq_none_iff_forall_ne_some.mpr fun cs hcs => ?_
  have hbytes := Utf8.encode_of_decode hcs
  rw [append_assoc] at hbytes
  obtain ⟨ds,rfl,hds⟩ := Utf8.encode_eq_append hbytes
  obtain ⟨es,hes⟩ : ∃ es, p = Utf8.encode es := by
    rcases hb with rfl | hb
    · exact ⟨ds,by simpa using hds⟩
    · obtain ⟨rest,rfl⟩ := head?_eq_some_iff.mp hb
      rw [← singleton_append,Utf8.encode_append,encode_newline] at hds
      exact encode_split_newline hp hds.symm
  rw [hes,Utf8.decode_encode] at hdecode
  cases hdecode

end Lines
