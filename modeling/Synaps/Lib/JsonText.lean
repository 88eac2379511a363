import Synaps.Lib.Json
import Synaps.Lib.Utf8

/-!
The compact text of a JSON value, a reader that inverts it on every value and every continuation,
and a reader that first drops the blanks and line breaks between the tokens.
-/

set_option autoImplicit false

namespace Json

open List
open Utf8 (size size_append size_cons size_nil)

def escapeChar (c : Char) : List Char :=
  if c = '"' then ['\\','"']
  else if c = '\\' then ['\\','\\']
  else if c = '\n' then ['\\','n']
  else if c = '\r' then ['\\','r']
  else if c = '\t' then ['\\','t']
  else if c = Char.ofNat 8 then ['\\','b']
  else if c = Char.ofNat 12 then ['\\','f']
  else if c.toNat < 32 then
    ['\\','u','0','0',Nat.digitChar (c.toNat / 16),Nat.digitChar (c.toNat % 16)]
  else [c]

def escape (cs : List Char) : List Char := cs.flatMap escapeChar

def printString (s : String) : List Char := '"' :: (escape s.toList ++ ['"'])

def printNumber : Number → List Char
  | .int (.ofNat n) => Nat.toDigits 10 n
  | .int (.negSucc n) => '-' :: Nat.toDigits 10 (n+1)
  | .float t => t.text

mutual

def print : Value → List Char
  | .null => ['n','u','l','l']
  | .bool true => ['t','r','u','e']
  | .bool false => ['f','a','l','s','e']
  | .number n => printNumber n
  | .string s => printString s
  | .array [] => ['[',']']
  | .array (v :: vs) => '[' :: (print v ++ printItems vs)
  | .object [] => ['{','}']
  | .object ((k,v) :: kvs) => '{' :: (printString k ++ ':' :: (print v ++ printEntries kvs))

def printItems : List Value → List Char
  | [] => [']']
  | v :: vs => ',' :: (print v ++ printItems vs)

def printEntries : List (String × Value) → List Char
  | [] => ['}']
  | (k,v) :: kvs => ',' :: (printString k ++ ':' :: (print v ++ printEntries kvs))

end

def indentation (depth : Nat) : List Char := List.replicate (2*depth) ' '

mutual

def printPretty (depth : Nat) : Value → List Char
  | .array (v :: vs) =>
    '[' :: '\n' :: (indentation (depth+1) ++ printPretty (depth+1) v ++ prettyItems depth vs)
  | .object ((k,v) :: kvs) =>
    '{' :: '\n' :: (indentation (depth+1) ++ printString k ++ ':' :: ' ' ::
      printPretty (depth+1) v ++ prettyEntries depth kvs)
  | v => print v

def prettyItems (depth : Nat) : List Value → List Char
  | [] => '\n' :: (indentation depth ++ [']'])
  | v :: vs =>
    ',' :: '\n' :: (indentation (depth+1) ++ printPretty (depth+1) v ++ prettyItems depth vs)

def prettyEntries (depth : Nat) : List (String × Value) → List Char
  | [] => '\n' :: (indentation depth ++ ['}'])
  | (k,v) :: kvs =>
    ',' :: '\n' :: (indentation (depth+1) ++ printString k ++ ':' :: ' ' ::
      printPretty (depth+1) v ++ prettyEntries depth kvs)

end

def hexValue (c : Char) : Nat :=
  if c.isDigit then c.toNat - 48 else c.toNat - 87

def unescapeChar : Char → Option Char
  | '"' => some '"'
  | '\\' => some '\\'
  | 'n' => some '\n'
  | 'r' => some '\r'
  | 't' => some '\t'
  | 'b' => some (Char.ofNat 8)
  | 'f' => some (Char.ofNat 12)
  | _ => none

def readString : List Char → Option (List Char × List Char)
  | [] => none
  | '"' :: rest => some ([],rest)
  | '\\' :: 'u' :: '0' :: '0' :: a :: b :: rest => do
      let (cs,tail) ← readString rest
      some (Char.ofNat (16 * hexValue a + hexValue b) :: cs,tail)
  | '\\' :: e :: rest => do
      let c ← unescapeChar e
      let (cs,tail) ← readString rest
      some (c :: cs,tail)
  | c :: rest => do
      let (cs,tail) ← readString rest
      some (c :: cs,tail)

def readNumber (cs : List Char) : Option Number :=
  match cs with
  | [] => none
  | '-' :: ds =>
      if ds.all Char.isDigit then some (.int (.negSucc (Nat.ofDigitChars 10 ds 0 - 1)))
      else floatOf cs
  | _ =>
      if cs.all Char.isDigit then some (.int (.ofNat (Nat.ofDigitChars 10 cs 0)))
      else floatOf cs
where
  floatOf (cs : List Char) : Option Number :=
    if h : cs.all numberChar = true ∧ ('.' ∈ cs ∨ 'e' ∈ cs) then
      some (.float ⟨cs,all_eq_true.mp h.1,h.2⟩)
    else none

mutual

def readValue : Nat → List Char → Option (Value × List Char)
  | 0, _ => none
  | fuel+1, cs =>
    if cs.head?.any numberChar then do
      let n ← readNumber (cs.takeWhile numberChar)
      some (.number n,cs.dropWhile numberChar)
    else match cs with
    | 'n' :: 'u' :: 'l' :: 'l' :: tail => some (.null,tail)
    | 't' :: 'r' :: 'u' :: 'e' :: tail => some (.bool true,tail)
    | 'f' :: 'a' :: 'l' :: 's' :: 'e' :: tail => some (.bool false,tail)
    | '"' :: rest => do
        let (s,tail) ← readString rest
        some (.string (String.ofList s),tail)
    | '[' :: ']' :: tail => some (.array [],tail)
    | '[' :: rest => do
        let (v,rest) ← readValue fuel rest
        let (vs,tail) ← readItems fuel rest
        some (.array (v :: vs),tail)
    | '{' :: '}' :: tail => some (.object [],tail)
    | '{' :: rest => do
        let (k,v,rest) ← readEntry fuel rest
        let (kvs,tail) ← readEntries fuel rest
        some (.object ((k,v) :: kvs),tail)
    | _ => none

def readItems : Nat → List Char → Option (List Value × List Char)
  | 0, _ => none
  | fuel+1, cs =>
    match cs with
    | ']' :: tail => some ([],tail)
    | ',' :: rest => do
        let (v,rest) ← readValue fuel rest
        let (vs,tail) ← readItems fuel rest
        some (v :: vs,tail)
    | _ => none

def readEntry : Nat → List Char → Option (String × Value × List Char)
  | 0, _ => none
  | fuel+1, cs =>
    match cs with
    | '"' :: rest => do
        let (k,rest) ← readString rest
        let ':' :: rest := rest | none
        let (v,tail) ← readValue fuel rest
        some (String.ofList k,v,tail)
    | _ => none

def readEntries : Nat → List Char → Option (List (String × Value) × List Char)
  | 0, _ => none
  | fuel+1, cs =>
    match cs with
    | '}' :: tail => some ([],tail)
    | ',' :: rest => do
        let (k,v,rest) ← readEntry fuel rest
        let (kvs,tail) ← readEntries fuel rest
        some ((k,v) :: kvs,tail)
    | _ => none

end

theorem hexValue_digitChar : ∀ d, d < 16 → hexValue (Nat.digitChar d) = d := by decide

theorem readString_escapeChar (c : Char) (rest : List Char) : readString (escapeChar c ++ rest) =
      (readString rest).map (fun p => (c :: p.1,p.2)) := by
  unfold escapeChar
  iterate 7
    split
    · subst c; cases h : readString rest <;> simp [readString,unescapeChar,h]
  split
  · have h₁ := hexValue_digitChar (c.toNat / 16) (by omega)
    have h₂ := hexValue_digitChar (c.toNat % 16) (by omega)
    have hc : Char.ofNat (16 * (c.toNat / 16) + c.toNat % 16) = c := by
      rw [Nat.div_add_mod]
      exact Char.ofNat_toNat c
    cases h : readString rest <;> simp [readString,h₁,h₂,hc,h]
  · rename_i _ hb _ _ _ _ _ _
    cases h : readString rest with
    | none | some p => simp [readString,hb,h]

theorem readString_escape (cs tail : List Char) :
    readString (escape cs ++ '"' :: tail) = some (cs,tail) := by
  induction cs with
  | nil => rfl
  | cons c cs ih =>
    have he : escape (c :: cs) = escapeChar c ++ escape cs := rfl
    rw [he,append_assoc,readString_escapeChar,ih]
    rfl

theorem readString_printString (s : String) (tail : List Char) :
    printString s ++ tail = '"' :: (escape s.toList ++ '"' :: tail) := by
  simp [printString]

theorem numberChar_of_isDigit {c : Char} (h : c.isDigit = true) : numberChar c = true := by
  simp [numberChar,h]

theorem toDigits_isDigit (n : Nat) : (Nat.toDigits 10 n).all Char.isDigit = true := by
  rw [all_eq_true]
  intro c hc
  exact Nat.isDigit_of_mem_toDigits (by omega) (by omega) hc

variable (n : Number)

theorem printNumber_chars : ∀ c ∈ printNumber n, numberChar c = true := by
  have digits : ∀ m, ∀ c ∈ Nat.toDigits 10 m, numberChar c = true := fun m c hc =>
    numberChar_of_isDigit (Nat.isDigit_of_mem_toDigits (by omega) (by omega) hc)
  cases n with
  | int i =>
    cases i with
    | ofNat m => exact digits m
    | negSucc m =>
      intro c hc
      rcases mem_cons.mp hc with rfl | hc
      · decide
      · exact digits (m+1) c hc
  | float t => exact t.chars

theorem printNumber_ne_nil : printNumber n ≠ [] := by
  cases n with
  | int i =>
    cases i with
    | ofNat m => exact Nat.toDigits_ne_nil
    | negSucc m => simp [printNumber]
  | float t =>
    intro h
    have hm := t.marked
    simp only [printNumber] at h
    simp [h] at hm

theorem FloatText.not_digits (t : FloatText) (ds : List Char)
    (h : t.text = ds ∨ t.text = '-' :: ds) : ds.all Char.isDigit = false := by
  rw [all_eq_false]
  rcases t.marked with hm | hm
  · refine ⟨'.',?_,by decide⟩
    rcases h with h | h <;> simpa [h] using hm
  · refine ⟨'e',?_,by decide⟩
    rcases h with h | h <;> simpa [h] using hm

theorem readNumber_printNumber : readNumber (printNumber n) = some n := by
  cases n with
  | int i =>
    cases i with
    | ofNat m =>
      have hd := toDigits_isDigit m
      simp only [printNumber]
      cases hc : Nat.toDigits 10 m with
      | nil => exact absurd hc Nat.toDigits_ne_nil
      | cons c ds =>
        have hne : c ≠ '-' := by
          rintro rfl
          rw [hc] at hd
          simp at hd
        rw [readNumber.eq_def]
        split
        · simp_all
        · simp_all
        · rename_i heq _ _
          rw [← hc,if_pos hd,Nat.ofDigitChars_ten_toDigits]
    | negSucc m =>
      simp only [printNumber,readNumber]
      rw [if_pos (toDigits_isDigit (m+1)),Nat.ofDigitChars_ten_toDigits]
      simp
  | float t =>
    have hf : readNumber.floatOf t.text = some (.float t) := by
      rw [readNumber.floatOf,dif_pos ⟨all_eq_true.mpr t.chars,t.marked⟩]
    simp only [printNumber]
    rw [readNumber.eq_def]
    split
    · rename_i heq
      exact absurd heq (printNumber_ne_nil (.float t))
    · rename_i ds heq
      rw [t.not_digits ds (.inr heq)]
      simpa using hf
    · rw [t.not_digits t.text (.inl rfl)]
      simpa using hf

def Delimited (tail : List Char) : Prop := ∀ c ∈ tail.head?, numberChar c = false

theorem delimited_nil : Delimited [] := by simp [Delimited]

theorem delimited_cons {c : Char} (tail : List Char) (h : numberChar c = false) :
    Delimited (c :: tail) := by simp [Delimited,h]

variable {tail : List Char}

theorem takeWhile_printNumber (h : Delimited tail) :
    (printNumber n ++ tail).takeWhile numberChar = printNumber n ∧
      (printNumber n ++ tail).dropWhile numberChar = tail := by
  have hn := printNumber_chars n
  rw [takeWhile_append_of_pos hn,dropWhile_append_of_pos hn]
  cases tail with
  | nil => simp
  | cons c rest =>
    have hc : numberChar c = false := h c rfl
    simp [hc]

theorem readValue_number (fuel : Nat) (n : Number) (h : Delimited tail) :
    readValue (fuel+1) (printNumber n ++ tail) = some (.number n,tail) := by
  obtain ⟨ht,hd⟩ := takeWhile_printNumber n h
  have hh : (printNumber n ++ tail).head?.any numberChar = true := by
    cases hp : printNumber n with
    | nil => exact absurd hp (printNumber_ne_nil n)
    | cons c rest =>
      have hc : numberChar c = true := printNumber_chars n c (by simp [hp])
      simp [hc]
  rw [readValue.eq_def]
  simp only [if_pos hh,ht,hd,readNumber_printNumber]
  rfl

theorem printItems_delimited (vs : List Value) (tail : List Char) :
    Delimited (printItems vs ++ tail) := by
  cases vs with
  | nil | cons v vs => exact delimited_cons _ (by decide)

theorem printEntries_delimited (kvs : List (String × Value)) (tail : List Char) :
    Delimited (printEntries kvs ++ tail) := by
  cases kvs with
  | nil | cons e kvs => exact delimited_cons _ (by decide)

variable {rest : List Char}

theorem print_head (v : Value) {c : Char} (h : print v = c :: rest) : c ≠ ']' ∧ c ≠ '}' := by
  cases v with
  | null => simp [print] at h; simp [← h.1]
  | bool b | array b | object b => cases b <;> (simp [print] at h; simp [← h.1])
  | number n =>
    have hc := printNumber_chars n c (by simp only [print] at h; simp [h])
    constructor <;> rintro rfl <;> revert hc <;> decide
  | string s => simp [print,printString] at h; simp [← h.1]

theorem print_ne_nil (v : Value) : print v ≠ [] := by
  cases v with
  | null => simp [print]
  | bool b | array b | object b => cases b <;> simp [print]
  | number n => exact printNumber_ne_nil n
  | string s => simp [print,printString]

variable {cs : List Char} {v : Value}

theorem readValue_array {fuel : Nat} {vs : List Value} (hcs : ∀ c r, cs = c :: r → c ≠ ']')
    (hv : readValue fuel cs = some (v,rest)) (hvs : readItems fuel rest = some (vs,tail)) :
    readValue (fuel+1) ('[' :: cs) = some (.array (v :: vs),tail) := by
  cases cs with
  | nil => simp [readValue,numberChar,hv,hvs]
  | cons c r =>
    have hc := hcs c r rfl
    rw [readValue.eq_def]
    simp [numberChar,hc,hv,hvs]

variable {k : String}

theorem readEntry_print {fuel : Nat} (hv : readValue fuel cs = some (v,tail)) :
    readEntry (fuel+1) (printString k ++ ':' :: cs) = some (k,v,tail) := by
  rw [readString_printString,readEntry.eq_def]
  simp [readString_escape,hv]

variable {kvs : List (String × Value)}

theorem readValue_object {fuel : Nat} (he : readEntry fuel (printString k ++ cs) = some (k,v,rest))
    (hkvs : readEntries fuel rest = some (kvs,tail)) :
    readValue (fuel+1) ('{' :: (printString k ++ cs)) = some (.object ((k,v) :: kvs),tail) := by
  rw [readString_printString] at *
  rw [readValue.eq_def]
  simp [numberChar,he,hkvs]

mutual

theorem readValue_print (v : Value) (tail : List Char) (fuel : Nat)
    (hf : (print v).length ≤ fuel) (hd : ∀ n, v = .number n → Delimited tail) :
    readValue fuel (print v ++ tail) = some (v,tail) := by
  cases fuel with
  | zero =>
    have h := print_ne_nil v
    exact absurd (length_eq_zero_iff.mp (by omega)) h
  | succ fuel =>
    match v with
    | .null | .bool true | .bool false | .array [] | .object [] => simp [print,readValue,numberChar]
    | .number n => exact readValue_number fuel n (hd n rfl)
    | .string s =>
      simp only [print]
      rw [readString_printString]
      simp [readValue,numberChar,readString_escape]
    | .array (v :: vs) =>
      simp only [print,length_cons,length_append] at hf
      have hitems := readItems_print vs tail fuel (by omega)
      have hv := readValue_print v (printItems vs ++ tail) fuel (by omega)
        (fun _ _ => printItems_delimited vs tail)
      simp only [print,cons_append,append_assoc]
      refine readValue_array (fun c r hc => ?_) hv hitems
      cases hp : print v with
      | nil => exact absurd hp (print_ne_nil v)
      | cons d ds =>
        rw [hp,cons_append] at hc
        injection hc with hdc _
        exact hdc ▸ (print_head v hp).1
    | .object ((k,v) :: kvs) =>
      simp only [print,length_cons,length_append] at hf
      have hk : 2 ≤ (printString k).length := by simp [printString]
      obtain ⟨fuel,rfl⟩ : ∃ m, fuel = m+1 := ⟨fuel-1,by omega⟩
      have hentries := readEntries_print kvs tail (fuel+1) (by omega)
      have hv := readValue_print v (printEntries kvs ++ tail) fuel (by omega)
        (fun _ _ => printEntries_delimited kvs tail)
      simp only [print,cons_append,append_assoc]
      exact readValue_object (readEntry_print hv) hentries

theorem readItems_print (vs : List Value) (tail : List Char) (fuel : Nat)
    (hf : (printItems vs).length ≤ fuel) :
    readItems fuel (printItems vs ++ tail) = some (vs,tail) := by
  cases fuel with
  | zero => cases vs <;> simp [printItems] at hf
  | succ fuel =>
    match vs with
    | [] => simp [printItems,readItems]
    | v :: vs =>
      simp only [printItems,length_cons,length_append] at hf
      have hitems := readItems_print vs tail fuel (by omega)
      have hv := readValue_print v (printItems vs ++ tail) fuel (by omega)
        (fun _ _ => printItems_delimited vs tail)
      simp [printItems,readItems,hv,hitems]

theorem readEntries_print (kvs : List (String × Value)) (tail : List Char) (fuel : Nat)
    (hf : (printEntries kvs).length ≤ fuel) :
    readEntries fuel (printEntries kvs ++ tail) = some (kvs,tail) := by
  cases fuel with
  | zero => cases kvs <;> simp [printEntries] at hf
  | succ fuel =>
    match kvs with
    | [] => simp [printEntries,readEntries]
    | (k,v) :: kvs =>
      simp only [printEntries,length_cons,length_append] at hf
      have hk : 2 ≤ (printString k).length := by simp [printString]
      obtain ⟨fuel,rfl⟩ : ∃ m, fuel = m+1 := ⟨fuel-1,by omega⟩
      have hentries := readEntries_print kvs tail (fuel+1) (by omega)
      have hv := readValue_print v (printEntries kvs ++ tail) fuel (by omega)
        (fun _ _ => printEntries_delimited kvs tail)
      simp only [printEntries,cons_append,append_assoc]
      rw [readEntries.eq_def]
      simp [readEntry_print hv,hentries]

end

theorem print_append_inj {w : Value} {a b : List Char} (h : print v ++ a = print w ++ b)
    (ha : ∀ n, v = .number n → Delimited a) (hb : ∀ n, w = .number n → Delimited b) :
    v = w ∧ a = b := by
  have hv := readValue_print v a ((print v).length + (print w).length) (by omega) ha
  have hw := readValue_print w b ((print v).length + (print w).length) (by omega) hb
  rw [h,hw] at hv
  injection hv with hv
  injection hv with h₁ h₂
  exact ⟨h₁.symm,h₂.symm⟩

theorem print_injective {w : Value} (h : print v = print w) : v = w :=
  (print_append_inj (a := []) (b := []) (by simp [h]) (fun _ _ => delimited_nil)
    (fun _ _ => delimited_nil)).1

def parse (cs : List Char) : Option Value :=
  match readValue (cs.length + 1) cs with
  | some (v,[]) => some v
  | _ => none

theorem parse_print (v : Value) : parse (print v) = some v := by
  have h := readValue_print v [] ((print v).length + 1) (by omega) fun _ _ => delimited_nil
  rw [append_nil] at h
  rw [parse,h]

theorem print_object_whole {lvs : List (String × Value)}
    (h : print (.object kvs) ++ rest = print (.object lvs)) : rest = [] := by
  have h' : print (.object kvs) ++ rest = print (.object lvs) ++ [] := by simpa using h
  exact (print_append_inj h' (by simp) (by simp)).2

theorem escapeChar_printable (c : Char) : ∀ d ∈ escapeChar c, 32 ≤ d.toNat := by
  have hex : ∀ n, n < 16 → 32 ≤ (Nat.digitChar n).toNat := by decide
  unfold escapeChar
  iterate 7
    split
    · simp
  split
  · have h₁ := hex (c.toNat / 16) (by omega)
    have h₂ := hex (c.toNat % 16) (by omega)
    intro d hd
    simp only [mem_cons,not_mem_nil,or_false] at hd
    rcases hd with rfl | rfl | rfl | rfl | rfl | rfl
    · decide
    · decide
    · decide
    · decide
    · exact h₁
    · exact h₂
  · intro d hd
    simp only [mem_singleton] at hd
    subst hd
    omega

theorem printString_printable (s : String) : ∀ d ∈ printString s, 32 ≤ d.toNat := by
  intro d hd
  simp only [printString,mem_cons,mem_append,not_mem_nil,or_false] at hd
  rcases hd with rfl | hd | rfl
  · decide
  · obtain ⟨c,_,hc⟩ := mem_flatMap.mp hd
    exact escapeChar_printable c d hc
  · decide

theorem numberChar_printable {c : Char} (h : numberChar c = true) : 32 ≤ c.toNat := by
  simp only [numberChar,Bool.or_eq_true,beq_iff_eq] at h
  rcases h with ((((h | rfl) | rfl) | rfl) | rfl) | rfl
  · simp only [Char.isDigit,Bool.and_eq_true,decide_eq_true_eq] at h
    have h₁ : (48 : UInt32).toNat ≤ c.val.toNat := h.1
    have h₂ : c.toNat = c.val.toNat := rfl
    have h₃ : (48 : UInt32).toNat = 48 := rfl
    omega
  all_goals decide

mutual

theorem print_printable (v : Value) : ∀ d ∈ print v, 32 ≤ d.toNat := by
  match v with
  | .null | .bool true | .bool false | .array [] | .object [] => simp [print]
  | .number n => exact fun d hd => numberChar_printable (printNumber_chars n d hd)
  | .string s => exact printString_printable s
  | .array (v :: vs) =>
    rw [print,forall_mem_cons,forall_mem_append]
    exact ⟨by decide,print_printable v,printItems_printable vs⟩
  | .object ((k,v) :: kvs) =>
    rw [print,forall_mem_cons,forall_mem_append,forall_mem_cons,forall_mem_append]
    exact ⟨by decide,printString_printable k,by decide,print_printable v,printEntries_printable kvs⟩

theorem printItems_printable (vs : List Value) : ∀ d ∈ printItems vs, 32 ≤ d.toNat := by
  match vs with
  | [] => simp [printItems]
  | v :: vs =>
    rw [printItems,forall_mem_cons,forall_mem_append]
    exact ⟨by decide,print_printable v,printItems_printable vs⟩

theorem printEntries_printable (kvs : List (String × Value)) :
    ∀ d ∈ printEntries kvs, 32 ≤ d.toNat := by
  match kvs with
  | [] => simp [printEntries]
  | (k,v) :: kvs =>
    rw [printEntries,forall_mem_cons,forall_mem_append,forall_mem_cons,forall_mem_append]
    exact ⟨by decide,printString_printable k,by decide,print_printable v,printEntries_printable kvs⟩

end

theorem getLast_printEntries (pre : List Char) (kvs : List (String × Value)) :
    (pre ++ printEntries kvs).getLast? = some '}' := by
  induction kvs generalizing pre with
  | nil => simp [printEntries]
  | cons e kvs ih =>
    have hlast := ih (pre ++ ',' :: (printString e.1 ++ ':' :: print e.2))
    simpa only [printEntries,append_assoc,cons_append] using hlast

theorem print_object_getLast (kvs : List (String × Value)) :
    (print (.object kvs)).getLast? = some '}' := by
  cases kvs with
  | nil => rfl
  | cons e kvs =>
    have hlast := getLast_printEntries ('{' :: (printString e.1 ++ ':' :: print e.2)) kvs
    simpa only [print,append_assoc,cons_append] using hlast

theorem length_le_escape (cs : List Char) : cs.length ≤ (escape cs).length := by
  have hc (c : Char) : 1 ≤ (escapeChar c).length := by
    unfold escapeChar
    repeat' split
    all_goals simp
  induction cs with
  | nil => simp
  | cons c cs ih =>
    have h := hc c
    simp only [escape,flatMap_cons,length_cons,length_append] at ih ⊢
    omega

theorem size_escapeChar (c : Char) : size (escapeChar c) ≤ 6 * size [c] := by
  have hdigit : ∀ n < 16, (Nat.digitChar n).toNat < 128 := by decide
  have hhigh : c.toNat < 32 → (Nat.digitChar (c.toNat / 16)).toNat < 128 := fun h =>
    hdigit _ (by omega)
  have hlow := hdigit (c.toNat % 16) (Nat.mod_lt _ (by decide))
  have hpos : 0 < size [c] := by simp [size,length_pos_iff,Utf8.encodeChar_ne_nil]
  unfold escapeChar
  split_ifs with _ _ _ _ _ _ _ hc
  case neg => omega
  all_goals
    simp (disch := first | decide | exact hhigh ‹_› | exact hlow) only [size_cons,size_nil]
    omega

theorem size_escape (cs : List Char) : size (escape cs) ≤ 6 * size cs := by
  induction cs with
  | nil => exact Nat.le_refl _
  | cons c cs ih =>
    have hchar := size_escapeChar c
    rw [← singleton_append,size_append]
    simp only [escape,singleton_append,flatMap_cons,size_append] at ih ⊢
    omega

theorem size_printString (s : String) : size (printString s) ≤ 6 * s.utf8ByteSize + 2 := by
  have hescape : size (escape s.toList) ≤ 6 * s.utf8ByteSize := by
    rw [← Utf8.length_encode_toList]
    exact size_escape s.toList
  simp (disch := decide) only [printString,size_cons,size_append,size_nil]
  omega

theorem length_le_printString (t : String) : t.toList.length ≤ (print (.string t)).length := by
  have h := length_le_escape t.toList
  simp only [print,printString,length_cons,length_append]
  omega

theorem length_le_printEntries (h : (k,v) ∈ kvs) :
    (print v).length ≤ (printEntries kvs).length := by
  induction kvs with
  | nil => cases h
  | cons e kvs ih =>
    obtain ⟨l,w⟩ := e
    simp only [printEntries,length_cons,length_append]
    rcases mem_cons.mp h with he | h
    · rw [(Prod.mk.inj he).2]
      omega
    · have := ih h
      omega

theorem length_le_print_object (h : (k,v) ∈ kvs) :
    (print v).length ≤ (print (.object kvs)).length := by
  cases kvs with
  | nil => cases h
  | cons e kvs =>
    obtain ⟨l,w⟩ := e
    have hl := length_le_printEntries h
    simp only [printEntries,print,length_cons,length_append] at hl ⊢
    omega

/-- Drop blanks and line breaks outside of string literals. -/
def stripFrom : Bool → List Char → List Char
  | _,[] => []
  | true,'\\' :: c :: rest => '\\' :: c :: stripFrom true rest
  | true,c :: rest => c :: stripFrom (c ≠ '"') rest
  | false,c :: rest =>
    if c = ' ' ∨ c = '\n' then stripFrom false rest else c :: stripFrom (c = '"') rest

def strip (cs : List Char) : List Char := stripFrom false cs

def parseSpaced (cs : List Char) : Option Value := (parse (strip cs)).filter fun v => print v = strip cs

theorem stripFrom_inside {c : Char} (hquote : c ≠ '"') (hslash : c ≠ '\\') (rest : List Char) :
    stripFrom true (c :: rest) = c :: stripFrom true rest := by
  cases rest with
  | nil => simp [stripFrom]
  | cons d rest =>
    rw [stripFrom.eq_3 c (d :: rest) fun _ _ h => absurd h hslash]
    simp [hquote]

theorem stripFrom_outside {c : Char} (hblank : c ≠ ' ' ∧ c ≠ '\n') (hquote : c ≠ '"')
    (rest : List Char) : stripFrom false (c :: rest) = c :: stripFrom false rest := by
  simp [stripFrom,hblank.1,hblank.2,hquote]

theorem stripFrom_escapeChar (c : Char) (rest : List Char) :
    stripFrom true (escapeChar c ++ rest) = escapeChar c ++ stripFrom true rest := by
  have hdigit : ∀ n, n < 16 → Nat.digitChar n ≠ '"' ∧ Nat.digitChar n ≠ '\\' := by decide
  unfold escapeChar
  split_ifs with h₁ h₂ h₃ h₄ h₅ h₆ h₇ h₈
  · rfl
  · rfl
  · rfl
  · rfl
  · rfl
  · rfl
  · rfl
  · have ha := hdigit (c.toNat / 16) (by omega)
    have hb := hdigit (c.toNat % 16) (by omega)
    simp only [cons_append,nil_append]
    rw [stripFrom,stripFrom_inside (by decide) (by decide),stripFrom_inside (by decide) (by decide),
      stripFrom_inside ha.1 ha.2,stripFrom_inside hb.1 hb.2]
  · exact stripFrom_inside h₁ h₂ rest

theorem stripFrom_escape (cs rest : List Char) :
    stripFrom true (escape cs ++ rest) = escape cs ++ stripFrom true rest := by
  induction cs with
  | nil => rfl
  | cons c cs ih =>
    simp only [escape,flatMap_cons,append_assoc] at ih ⊢
    rw [stripFrom_escapeChar,ih]

theorem stripFrom_printString (s : String) (rest : List Char) :
    stripFrom false (printString s ++ rest) = printString s ++ stripFrom false rest := by
  have hquote (cs : List Char) : stripFrom true ('"' :: cs) = '"' :: stripFrom false cs := by
    cases cs <;> rfl
  simp only [printString,cons_append,append_assoc,nil_append]
  rw [show stripFrom false ('"' :: (escape s.toList ++ '"' :: rest)) =
    '"' :: stripFrom true (escape s.toList ++ '"' :: rest) from rfl,stripFrom_escape,hquote]

theorem stripFrom_printNumber (n : Number) (rest : List Char) :
    stripFrom false (printNumber n ++ rest) = printNumber n ++ stripFrom false rest := by
  have hchars := printNumber_chars n
  generalize printNumber n = cs at hchars ⊢
  induction cs with
  | nil => rfl
  | cons c cs ih =>
    have hc := hchars c mem_cons_self
    rw [cons_append,stripFrom_outside ?_ ?_,ih fun d hd => hchars d (mem_cons_of_mem _ hd)]
    · rfl
    · exact ⟨fun h => by rw [h] at hc; exact absurd hc (by decide),
        fun h => by rw [h] at hc; exact absurd hc (by decide)⟩
    · exact fun h => by rw [h] at hc; exact absurd hc (by decide)

theorem stripFrom_line (n : Nat) (rest : List Char) :
    stripFrom false ('\n' :: (indentation n ++ rest)) = stripFrom false rest := by
  unfold indentation
  induction 2 * n with
  | zero => rfl
  | succ k ih =>
    rw [replicate_succ,cons_append,← ih]
    rfl

theorem stripFrom_blank (rest : List Char) : stripFrom false (' ' :: rest) = stripFrom false rest :=
  rfl

mutual

theorem stripFrom_printPretty (depth : Nat) (v : Value) (rest : List Char) :
    stripFrom false (printPretty depth v ++ rest) = print v ++ stripFrom false rest := by
  match v with
  | .null | .bool true | .bool false | .array [] | .object [] => rfl
  | .number n => exact stripFrom_printNumber n rest
  | .string s => exact stripFrom_printString s rest
  | .array (v :: vs) =>
    simp only [print,printPretty,cons_append,append_assoc]
    rw [stripFrom_outside (by decide) (by decide),stripFrom_line,
      stripFrom_printPretty (depth+1) v,stripFrom_prettyItems depth vs]
  | .object ((k,v) :: kvs) =>
    simp only [print,printPretty,cons_append,append_assoc]
    rw [stripFrom_outside (by decide) (by decide),stripFrom_line,
      stripFrom_printString,stripFrom_outside (by decide) (by decide),stripFrom_blank,
      stripFrom_printPretty (depth+1) v,stripFrom_prettyEntries depth kvs]

theorem stripFrom_prettyItems (depth : Nat) (vs : List Value) (rest : List Char) :
    stripFrom false (prettyItems depth vs ++ rest) = printItems vs ++ stripFrom false rest := by
  match vs with
  | [] =>
    simp only [prettyItems,cons_append,append_assoc,nil_append]
    rw [stripFrom_line]
    rfl
  | v :: vs =>
    simp only [printItems,prettyItems,cons_append,append_assoc]
    rw [stripFrom_outside (by decide) (by decide),stripFrom_line,
      stripFrom_printPretty (depth+1) v,stripFrom_prettyItems depth vs]

theorem stripFrom_prettyEntries (depth : Nat) (kvs : List (String × Value)) (rest : List Char) :
    stripFrom false (prettyEntries depth kvs ++ rest) = printEntries kvs ++ stripFrom false rest := by
  match kvs with
  | [] =>
    simp only [prettyEntries,cons_append,append_assoc,nil_append]
    rw [stripFrom_line]
    rfl
  | (k,v) :: kvs =>
    simp only [printEntries,prettyEntries,cons_append,append_assoc]
    rw [stripFrom_outside (by decide) (by decide),stripFrom_line,
      stripFrom_printString,stripFrom_outside (by decide) (by decide),stripFrom_blank,
      stripFrom_printPretty (depth+1) v,stripFrom_prettyEntries depth kvs]

end

theorem strip_printPretty (v : Value) : strip (printPretty 0 v) = print v := by
  have h := stripFrom_printPretty 0 v []
  rwa [append_nil,show stripFrom false [] = [] from rfl,append_nil] at h

theorem stripFrom_idem (b : Bool) (cs : List Char) :
    stripFrom b (stripFrom b cs) = stripFrom b cs := by
  fun_induction stripFrom b cs with
  | case1 b => rw [stripFrom]
  | case2 c rest ih => rw [stripFrom,ih]
  | case3 c rest hno ih =>
    by_cases hslash : c = '\\'
    · -- there is nothing to escape behind it
      cases rest with
      | nil => subst hslash; rfl
      | cons d rest => exact absurd rfl (hno d rest hslash)
    · rw [stripFrom.eq_3 c _ fun _ _ h => absurd h hslash,ih]
  | case4 c rest hblank ih => exact ih
  | case5 c rest hblank ih => rw [stripFrom,if_neg hblank,ih]

theorem strip_print (v : Value) : strip (print v) = print v := by
  rw [← strip_printPretty v]
  exact stripFrom_idem false _

theorem parseSpaced_of_strip {cs : List Char} {v : Value} (h : strip cs = print v) :
    parseSpaced cs = some v := by
  simp [parseSpaced,h,parse_print]

theorem length_stripFrom_le (b : Bool) (cs : List Char) : (stripFrom b cs).length ≤ cs.length := by
  fun_induction stripFrom b cs with
  | case1 b => exact Nat.le_refl _
  | case2 c rest ih | case3 c rest _ ih | case4 c rest _ ih | case5 c rest _ ih =>
    simp only [length_cons]
    omega

theorem stripFrom_take {b : Bool} {cs : List Char} (h : stripFrom b cs = cs) (n : Nat) :
    stripFrom b (cs.take n) = cs.take n := by
  fun_induction stripFrom b cs generalizing n with
  | case1 b => rw [take_nil,stripFrom]
  | case2 c rest ih =>
    rcases n with _ | _ | n
    · rfl
    · rfl
    · rw [take_succ_cons,take_succ_cons,stripFrom,ih (by simpa using h)]
  | case3 c rest hno ih =>
    cases n with
    | zero => rfl
    | succ n =>
      rw [take_succ_cons]
      by_cases hslash : c = '\\'
      · -- there is nothing to escape behind it
        cases rest with
        | nil => subst hslash; rw [take_nil]; rfl
        | cons d rest => exact absurd rfl (hno d rest hslash)
      · rw [stripFrom.eq_3 c _ fun _ _ h => absurd h hslash,ih (cons.inj h).2]
  | case4 c rest hblank =>
    have hlen := congrArg length h
    have := length_stripFrom_le false rest
    simp only [length_cons] at hlen
    omega
  | case5 c rest hblank ih =>
    cases n with
    | zero => rfl
    | succ n => rw [take_succ_cons,stripFrom,if_neg hblank,ih (cons.inj h).2]

theorem strip_torn {v : Value} {t : List Char} (h : t <+: print v) : strip t = t := by
  rw [prefix_iff_eq_take.mp h]
  exact stripFrom_take (strip_print v) _

theorem parseSpaced_torn {kvs : List (String × Value)} {t : List Char} (hne : t ≠ [])
    (hpre : t <+: print (.object kvs)) (hpart : t ≠ print (.object kvs)) : parseSpaced t = none := by
  rw [parseSpaced,strip_torn hpre]
  refine Option.eq_none_iff_forall_ne_some.mpr fun v hv => ?_
  have ht : print v = t := of_decide_eq_true (Option.filter_eq_some_iff.mp hv).2
  obtain ⟨rest,hrest⟩ := hpre
  have hhead : (print v).head? = some '{' := by
    cases t with
    | nil => exact absurd rfl hne
    | cons c t =>
      rw [ht,head?_cons,← head?_cons (l := t ++ rest),← cons_append,hrest]
      cases kvs <;> rfl
  rw [← ht] at hrest hpart
  cases v with
  | object lvs => exact hpart (by rw [← hrest,print_object_whole hrest,append_nil])
  | null | string s => cases hhead
  | bool b | array b => cases b <;> cases hhead
  | number n =>
    obtain ⟨cs,hcs⟩ := head?_eq_some_iff.mp hhead
    have hc := printNumber_chars n '{' (by
      rw [show printNumber n = '{' :: cs from hcs]
      exact mem_cons_self)
    exact absurd hc (by decide)

end Json
