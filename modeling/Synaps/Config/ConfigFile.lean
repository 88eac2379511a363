import Synaps.Lib.Lines
import Synaps.Lib.Text

/-!
The config file: lines of `key = value`, with comments. One reader takes the first line of a key,
the loader lets the last one win, and the writer replaces the first.
-/

set_option autoImplicit false

namespace Synaps.Config

open Text Lines List

/-- The key and the value of a line, unless it is blank or a comment. -/
def entry (line : List Char) : Option (List Char × List Char) :=
  let line := trim line
  if line = [] ∨ line.head? = some '#' then none
  else (splitOnce ['='] line).map fun (k,v) => (trim k,trim v)

def entries (content : List Char) : List (List Char × List Char) := (lines content).filterMap entry

def firstValue (key : List Char) (es : List (List Char × List Char)) : Option (List Char) :=
  (es.find? fun e => e.1 = trim key).map Prod.snd

def lastValue (key : List Char) (es : List (List Char × List Char)) : Option (List Char) :=
  es.foldl (fun value e => if e.1 = trim key then some e.2 else value) none

def readConfigValue (file : List UInt8) (key : List Char) : Option (List Char) :=
  (Utf8.decode file).bind fun content => firstValue key (entries content)

def loadedValue (file : List UInt8) (key : List Char) : Option (List Char) :=
  (Utf8.decode file).bind fun content => lastValue key (entries content)

def isOf (key line : List Char) : Bool :=
  let t := trimStart line
  if t.head? = some '#' ∨ t = [] then false
  else (splitOnce ['='] t).any fun (k,_) => trim k = trim key

def replaceFirst (key replacement : List Char) : List (List Char) → List (List Char) × Bool
  | [] => ([],false)
  | line :: rest =>
    if isOf key line then (replacement :: rest,true)
    else
      let (rest,found) := replaceFirst key replacement rest
      (line :: rest,found)

def replaceConfigLine (existing key value : List Char) : List Char :=
  let replacement := trim key ++ [' ','=',' '] ++ value
  let (newLines,found) := replaceFirst key replacement (lines existing)
  let newLines := if found then newLines else newLines ++ [replacement]
  let out := ['\n'].intercalate newLines
  if out.getLast? = some '\n' then out else out ++ ['\n']

/-- A file that cannot be read is taken as empty. -/
def writeConfigValue (file : List UInt8) (key value : List Char) : List UInt8 :=
  let existing := (Utf8.decode file).getD []
  Utf8.encode (replaceConfigLine existing key value)

/-- The comments, the blank lines and the lines of other keys. -/
def otherLines (key : List Char) (file : List UInt8) : List (List Char) :=
  (lines (Utf8.decodeLossy file)).filter (!isOf key ·)

/-- The setting has the value for both readers, and nothing else has changed. -/
structure TakesEffect (file after : List UInt8) (key value : List Char) : Prop where
  read : readConfigValue after key = some value
  loaded : loadedValue after key = some value
  others : ∀ k, trim k ≠ trim key →
    readConfigValue after k = readConfigValue file k ∧ loadedValue after k = loadedValue file k
  kept : otherLines key after = otherLines key file

/-- The key has one line, or its last line already gives the value; a line of the key is not
followed by a blank line at the end; no line to be kept ends with a carriage return. -/
def Rewritable (content key value : List Char) : Prop :=
  ((lines content).countP (isOf key) ≤ 1 ∨ lastValue key (entries content) = some value) ∧
  ((lines content).any (isOf key) → (lines content).getLast? ≠ some []) ∧
  ∀ l ∈ lines content, isOf key l = false → l.getLast? ≠ some '\r'

def Settable (file : List UInt8) (key value : List Char) : Prop :=
  (trim key).head? ≠ some '#' ∧
    match Utf8.decode file with
    | some content => Rewritable content key value
    | none => otherLines key file = []

theorem head_append (a b : List Char) :
    (a ++ '=' :: b).head? = some '#' ↔ a.head? = some '#' := by
  cases a <;> simp

theorem notMem_trimStart {a : List Char} (h : '=' ∉ a) : '=' ∉ trimStart a :=
  fun hm => h ((dropWhile_suffix _).subset hm)

theorem entry_append {a : List Char} (ha : '=' ∉ a) (b : List Char) : entry (a ++ '=' :: b) =
      if (trimStart a).head? = some '#' then none else some (trim a,trim b) := by
  simp only [entry,trim_append_cons (show isWhitespace '=' = false by decide),head_append,
    splitOnce_append (notMem_trimStart ha),Option.map_some,trim_trimStart,trim_rdropWhile]
  simp

theorem isOf_append {a : List Char} (ha : '=' ∉ a) (key b : List Char) : isOf key (a ++ '=' :: b) =
      if (trimStart a).head? = some '#' then false else decide (trim a = trim key) := by
  simp only [isOf,trimStart_append_cons (show isWhitespace '=' = false by decide),head_append,
    splitOnce_append (notMem_trimStart ha),Option.any_some,trim_trimStart]
  simp

variable {line : List Char}

theorem entry_none (h : '=' ∉ line) : entry line = none := by
  have htrim : '=' ∉ trim line := fun hm => h (mem_of_mem_trim hm)
  simp only [entry,splitOnce_none htrim,Option.map_none,ite_self]

theorem isOf_none (h : '=' ∉ line) (key : List Char) : isOf key line = false := by
  simp only [isOf,splitOnce_none (notMem_trimStart h),Option.any_none,ite_self]

theorem isOf_eq (key line : List Char) :
    isOf key line = (entry line).any fun e => e.1 = trim key := by
  by_cases h : '=' ∈ line
  · obtain ⟨a,b,rfl,ha⟩ := eq_append_cons_of_mem h
    rw [isOf_append ha,entry_append ha]
    split <;> rfl
  · rw [isOf_none h,entry_none h]
    rfl

theorem trim_stripReturn (line : List Char) : trim (stripReturn line) = trim line := by
  unfold stripReturn
  split
  · rename_i h
    have hline := dropLast_append_getLast? _ h
    rw [← trim_rdropWhile line,← hline,
      rdropWhile_concat_pos _ _ _ (show isWhitespace '\r' = true by decide),trim_rdropWhile]
    simp
  · rfl

theorem entry_stripReturn (line : List Char) : entry (stripReturn line) = entry line := by
  simp only [entry,trim_stripReturn]

theorem isOf_stripReturn (key line : List Char) : isOf key (stripReturn line) = isOf key line := by
  rw [isOf_eq,isOf_eq,entry_stripReturn]

theorem filterMap_entry_stripReturn (ls : List (List Char)) :
    (ls.map stripReturn).filterMap entry = ls.filterMap entry := by
  rw [filterMap_map]
  exact filterMap_congr fun l _ => entry_stripReturn l

def values (key : List Char) (es : List (List Char × List Char)) : List (List Char) :=
  (es.filter fun e => e.1 = trim key).map Prod.snd

section

variable (key : List Char) (es : List (List Char × List Char))

theorem values_append (fs : List (List Char × List Char)) :
    values key (es ++ fs) = values key es ++ values key fs := by
  rw [values,filter_append,map_append,values,values]

theorem firstValue_eq : firstValue key es = (values key es).head? := by
  rw [firstValue,values,head?_map,head?_filter]

theorem lastValue_eq : lastValue key es = (values key es).getLast? := by
  unfold lastValue
  induction es using reverseRecOn with
  | nil => rfl
  | append_singleton es e ih =>
    rw [foldl_append,ih,values_append]
    by_cases he : e.1 = trim key
    · simp [values,he]
    · simp [values,he]

end

variable {key : List Char}

theorem values_cons_of_eq {k : List Char} (h : k = trim key) (v : List Char)
    (es : List (List Char × List Char)) : values key ((k,v) :: es) = v :: values key es := by
  rw [values,filter_cons_of_pos (by simpa using h),map_cons,values]

theorem values_cons_of_ne {k : List Char} (h : k ≠ trim key) (v : List Char)
    (es : List (List Char × List Char)) : values key ((k,v) :: es) = values key es := by
  rw [values,filter_cons_of_neg (by simpa using h),values]

theorem length_values (key : List Char) (ls : List (List Char)) :
    (values key (ls.filterMap entry)).length = ls.countP (isOf key) := by
  induction ls with
  | nil => rfl
  | cons l ls ih =>
    rw [countP_cons,isOf_eq]
    cases he : entry l with
    | none => simpa [filterMap_cons,he] using ih
    | some e =>
      rw [filterMap_cons_some he]
      by_cases hk : e.1 = trim key
      · rw [values_cons_of_eq hk,length_cons,ih]
        simp [hk]
      · rw [values_cons_of_ne hk,ih]
        simp [hk]

def replacementOf (key value : List Char) : List Char := trim key ++ [' ','=',' '] ++ value

def writtenLines (existing key value : List Char) : List (List Char) :=
  let (newLines,found) := replaceFirst key (replacementOf key value) (lines existing)
  if found then newLines else newLines ++ [replacementOf key value]

theorem replaceFirst_cases (key replacement : List Char) (ls : List (List Char)) :
    (ls.any (isOf key) = false ∧ replaceFirst key replacement ls = (ls,false)) ∨
      ∃ pre old post, ls = pre ++ old :: post ∧ pre.any (isOf key) = false ∧ isOf key old = true ∧
        replaceFirst key replacement ls = (pre ++ replacement :: post,true) := by
  induction ls with
  | nil => exact .inl ⟨rfl,rfl⟩
  | cons l ls ih =>
    rw [replaceFirst,any_cons]
    cases hl : isOf key l with
    | true => exact .inr ⟨[],l,ls,rfl,rfl,hl,rfl⟩
    | false =>
      rcases ih with ⟨hany,heq⟩ | ⟨pre,old,post,rfl,hpre,hold,heq⟩
      · exact .inl ⟨hany,by rw [heq]; rfl⟩
      · exact .inr ⟨l :: pre,old,post,rfl,by rw [any_cons,hl,hpre]; rfl,hold,by rw [heq]; rfl⟩

variable (existing : List Char)

theorem writtenLines_cases (key value : List Char) :
    (∃ pre old post, lines existing = pre ++ old :: post ∧ pre.any (isOf key) = false ∧
      isOf key old = true ∧
      writtenLines existing key value = pre ++ replacementOf key value :: post) ∨
    ((lines existing).any (isOf key) = false ∧
      writtenLines existing key value = lines existing ++ [replacementOf key value]) := by
  unfold writtenLines
  rcases replaceFirst_cases key (replacementOf key value) (lines existing) with
    ⟨hany,heq⟩ | ⟨pre,old,post,hls,hpre,hold,heq⟩
  · exact .inr ⟨hany,by rw [heq]; rfl⟩
  · exact .inl ⟨pre,old,post,hls,hpre,hold,by rw [heq]; rfl⟩

theorem intercalate_concat (front : List (List Char)) (l : List Char) :
    ['\n'].intercalate (front ++ [l]) = terminated front ++ l := by
  induction front with
  | nil => simp [intercalate]
  | cons m front ih =>
    rw [terminated_cons,append_assoc,cons_append,cons_append,← ih]
    cases front with
    | nil | cons => simp [intercalate]

theorem newline_notMem_trim (h : '\n' ∉ key) : '\n' ∉ trim key :=
  fun hm => h (mem_of_mem_trim hm)

section

variable {key value : List Char} (hk : '\n' ∉ key) (hv : '\n' ∉ value)

include hk hv

theorem newline_notMem_replacementOf : '\n' ∉ replacementOf key value := by
  simp [replacementOf,newline_notMem_trim hk,hv]

theorem newline_notMem_writtenLines : ∀ l ∈ writtenLines existing key value, '\n' ∉ l := by
  have hold := newline_notMem_lines existing
  have hnew := newline_notMem_replacementOf hk hv
  intro l hl
  rcases writtenLines_cases existing key value with ⟨pre,old,post,hls,-,-,heq⟩ | ⟨-,heq⟩
  · rw [heq] at hl
    rw [hls] at hold
    rcases mem_append.mp hl with hl | hl
    · exact hold l (mem_append_left _ hl)
    · rcases mem_cons.mp hl with rfl | hl
      · exact hnew
      · exact hold l (mem_append_right _ (mem_cons_of_mem _ hl))
  · rw [heq] at hl
    rcases mem_append.mp hl with hl | hl
    · exact hold l hl
    · rw [mem_singleton.mp hl]
      exact hnew

end

theorem replaceConfigLine_eq (key value : List Char) : replaceConfigLine existing key value =
      let out := ['\n'].intercalate (writtenLines existing key value)
      if out.getLast? = some '\n' then out else out ++ ['\n'] := rfl

theorem writtenLines_ne_nil (key value : List Char) : writtenLines existing key value ≠ [] := by
  rcases writtenLines_cases existing key value with ⟨pre,old,post,-,-,-,heq⟩ | ⟨-,heq⟩
  · rw [heq]
    simp
  · rw [heq]
    simp

section

variable {key value : List Char} (hk : '\n' ∉ key) (hv : '\n' ∉ value)

include hk hv

theorem lines_replaceConfigLine : lines (replaceConfigLine existing key value) =
      if (writtenLines existing key value).getLast? = some [] then
        (writtenLines existing key value).dropLast.map stripReturn
      else (writtenLines existing key value).map stripReturn := by
  have hplain := newline_notMem_writtenLines existing hk hv
  have hone : writtenLines existing key value ≠ [[]] := by
    intro h
    have hmem : replacementOf key value ∈ writtenLines existing key value := by
      rcases writtenLines_cases existing key value with ⟨pre,old,post,-,-,-,heq⟩ | ⟨-,heq⟩
      · simp [heq]
      · simp [heq]
    rw [h] at hmem
    simp [replacementOf] at hmem
  rw [replaceConfigLine_eq]
  obtain hnil | ⟨front,l,hls⟩ := eq_nil_or_concat (writtenLines existing key value)
  · exact absurd hnil (writtenLines_ne_nil existing key value)
  rw [concat_eq_append] at hls
  rw [hls] at hplain hone ⊢
  have hfront : ∀ m ∈ front, '\n' ∉ m := fun m hm => hplain m (mem_append_left _ hm)
  simp only [intercalate_concat,getLast?_concat,dropLast_concat,Option.some.injEq]
  by_cases hl : l = []
  · subst hl
    obtain hnil | ⟨rest,m,rfl⟩ := eq_nil_or_concat front
    · exact absurd (by rw [hnil]; rfl) hone
    · have hlast : (terminated (rest.concat m) ++ []).getLast? = some '\n' := by
        simp [concat_eq_append]
      rw [if_pos hlast,if_pos rfl,append_nil,lines_terminated_strip hfront]
  · have hlast : (terminated front ++ l).getLast? ≠ some '\n' := by
      rw [getLast?_append_of_ne_nil _ hl]
      exact fun h => hplain l (by simp) (mem_of_getLast? h)
    rw [if_neg hlast,if_neg hl,append_assoc,← lines_terminated_strip hplain]
    simp

theorem entries_replaceConfigLine : entries (replaceConfigLine existing key value) =
      (writtenLines existing key value).filterMap entry := by
  rw [entries,lines_replaceConfigLine existing hk hv]
  split
  · rename_i hlast
    have hls := dropLast_append_getLast? _ hlast
    rw [filterMap_entry_stripReturn]
    nth_rewrite 2 [← hls]
    rw [filterMap_append]
    simp [entry,trim,trimStart]
  · rw [filterMap_entry_stripReturn]

end

theorem head?_trimStart_trim_space (key : List Char) :
    (trimStart (trim key ++ [' '])).head? = (trim key).head? := by
  rcases trimStart_cases key with hnil | ⟨a,c,b,rfl,ha,hc,-⟩
  · have htrim : trim key = [] := by rw [trim,hnil]; rfl
    rw [htrim]
    decide
  · rw [trim_append_cons hc,ha,nil_append,cons_append,trimStart,
      dropWhile_cons_of_neg (by simp [hc])]
    rfl

theorem trim_trim_space (key : List Char) : trim (trim key ++ [' ']) = trim key := by
  rw [← trim_rdropWhile,rdropWhile_concat_pos _ _ _ (show isWhitespace ' ' = true by decide),
    trim_rdropWhile,trim_trim]

theorem entry_replacementOf {value : List Char} (hk : '=' ∉ key) (hv : trim value = value) :
    entry (replacementOf key value) =
      if (trim key).head? = some '#' then none else some (trim key,value) := by
  have hfront : '=' ∉ trim key ++ [' '] := by
    simp only [mem_append,not_or]
    exact ⟨fun h => hk (mem_of_mem_trim h),by decide⟩
  have hspace : trim (' ' :: value) = value := by
    rw [trim,trimStart,dropWhile_cons_of_pos (by decide)]
    exact hv
  have heq : replacementOf key value = (trim key ++ [' ']) ++ '=' :: ' ' :: value := by
    simp [replacementOf]
  rw [heq,entry_append hfront,head?_trimStart_trim_space,trim_trim_space,hspace]

theorem values_of_no_line {ls : List (List Char)} (h : ls.any (isOf key) = false) :
    values key (ls.filterMap entry) = [] := by
  have hcount : ls.countP (isOf key) = 0 := by
    rw [countP_eq_zero]
    simpa using h
  rw [← length_eq_zero_iff,length_values,hcount]

theorem entry_of_isOf (h : isOf key line = true) : ∃ v, entry line = some (trim key,v) := by
  rw [isOf_eq,Option.any_eq_true] at h
  obtain ⟨⟨k,v⟩,he,hk⟩ := h
  obtain rfl : k = trim key := of_decide_eq_true hk
  exact ⟨v,he⟩

section Written

variable {key value : List Char}
variable (hkey : '=' ∉ key) (hvalue : trim value = value) (hmark : (trim key).head? ≠ some '#')

include hkey hvalue hmark

theorem entry_replacementOf_some : entry (replacementOf key value) = some (trim key,value) := by
  rw [entry_replacementOf hkey hvalue,if_neg hmark]

theorem isOf_replacementOf : isOf key (replacementOf key value) = true := by
  rw [isOf_eq,entry_replacementOf_some hkey hvalue hmark]
  simp

theorem values_written (existing : List Char) :
    values key ((writtenLines existing key value).filterMap entry) =
      value :: (values key (entries existing)).tail := by
  have hentry := entry_replacementOf_some hkey hvalue hmark
  rcases writtenLines_cases existing key value with ⟨pre,old,post,hls,hpre,hold,heq⟩ | ⟨hany,heq⟩
  · obtain ⟨v,hv⟩ := entry_of_isOf hold
    rw [heq,entries,hls,filterMap_append,filterMap_append,
      filterMap_cons_some hentry,filterMap_cons_some hv,values_append,values_append,
      values_of_no_line hpre,values_cons_of_eq rfl,values_cons_of_eq rfl]
    rfl
  · rw [heq,entries,filterMap_append,filterMap_cons_some hentry,values_append,
      values_of_no_line hany,values_cons_of_eq rfl]
    rfl

theorem values_written_of_ne {k : List Char} (hk : trim k ≠ trim key) (existing : List Char) :
    values k ((writtenLines existing key value).filterMap entry) = values k (entries existing) := by
  have hentry := entry_replacementOf_some hkey hvalue hmark
  rcases writtenLines_cases existing key value with ⟨pre,old,post,hls,-,hold,heq⟩ | ⟨-,heq⟩
  · obtain ⟨v,hv⟩ := entry_of_isOf hold
    rw [heq,entries,hls,filterMap_append,filterMap_append,
      filterMap_cons_some hentry,filterMap_cons_some hv,values_append,values_append,
      values_cons_of_ne hk.symm,values_cons_of_ne hk.symm]
  · rw [heq,entries,filterMap_append,filterMap_cons_some hentry,values_append,
      values_cons_of_ne hk.symm]
    exact append_nil _

theorem filter_written (existing : List Char) :
    (writtenLines existing key value).filter (!isOf key ·) =
      (lines existing).filter (!isOf key ·) := by
  have hnew := isOf_replacementOf hkey hvalue hmark
  rcases writtenLines_cases existing key value with ⟨pre,old,post,hls,-,hold,heq⟩ | ⟨-,heq⟩
  · rw [heq,hls,filter_append,filter_append,filter_cons_of_neg (by simp [hnew]),
      filter_cons_of_neg (by simp [hold])]
  · rw [heq,filter_append,filter_cons_of_neg (by simp [hnew])]
    exact append_nil _

end Written

theorem isOf_nil (key : List Char) : isOf key [] = false := isOf_none not_mem_nil key

theorem getLast?_written (key value : List Char) :
    (writtenLines existing key value).getLast? = some [] ↔
      (lines existing).any (isOf key) = true ∧ (lines existing).getLast? = some [] := by
  have hnew : replacementOf key value ≠ [] := by simp [replacementOf]
  rcases writtenLines_cases existing key value with ⟨pre,old,post,hls,-,hold,heq⟩ | ⟨hany,heq⟩
  · have hne : old ≠ [] := by
      rintro rfl
      rw [isOf_nil] at hold
      exact Bool.noConfusion hold
    rw [heq,hls]
    cases post with
    | nil => simp [hnew,hne]
    | cons l post => simp [hold,getLast?_cons]
  · rw [heq,getLast?_concat,hany]
    simp [hnew]

theorem stripReturn_eq_self (l : List Char) : stripReturn l = l ↔ l.getLast? ≠ some '\r' := by
  unfold stripReturn
  split
  · rename_i h
    refine iff_of_false (fun heq => ?_) (not_not_intro h)
    have hlen := congrArg length heq
    have hpos := length_pos_of_mem (mem_of_getLast? h)
    rw [length_dropLast] at hlen
    omega
  · rename_i h
    exact iff_of_true rfl h

theorem entry_key_unmarked {k v : List Char} (h : entry line = some (k,v)) :
    k.head? ≠ some '#' := by
  by_cases hline : '=' ∈ line
  · obtain ⟨a,b,rfl,ha⟩ := eq_append_cons_of_mem hline
    rw [entry_append ha] at h
    split at h
    · exact nomatch h
    rename_i hmark
    obtain ⟨rfl,-⟩ := Prod.ext_iff.mp (Option.some.inj h)
    intro hk
    obtain ⟨rest,hrest⟩ : trim a <+: trimStart a := rdropWhile_prefix _ _
    rw [← hrest,head?_append,hk] at hmark
    exact hmark rfl
  · rw [entry_none hline] at h
    exact nomatch h

theorem values_of_marked (h : (trim key).head? = some '#') (content : List Char) :
    values key (entries content) = [] := by
  rw [values,map_eq_nil_iff,filter_eq_nil_iff]
  intro e he hk
  obtain ⟨line,-,hline⟩ := mem_filterMap.mp he
  exact entry_key_unmarked hline (of_decide_eq_true hk ▸ h)

variable (file : List UInt8)

section

variable (key value : List Char)

theorem readConfigValue_write (k : List Char) :
    readConfigValue (writeConfigValue file key value) k =
      firstValue k (entries (replaceConfigLine ((Utf8.decode file).getD []) key value)) := by
  rw [readConfigValue,writeConfigValue,Utf8.decode_encode,Option.bind_some]

theorem loadedValue_write (k : List Char) : loadedValue (writeConfigValue file key value) k =
      lastValue k (entries (replaceConfigLine ((Utf8.decode file).getD []) key value)) := by
  rw [loadedValue,writeConfigValue,Utf8.decode_encode,Option.bind_some]

theorem otherLines_write : otherLines key (writeConfigValue file key value) =
      (lines (replaceConfigLine ((Utf8.decode file).getD []) key value)).filter (!isOf key ·) := by
  rw [otherLines,writeConfigValue,Utf8.decodeLossy_encode]

end

theorem getLast?_cons_tail (value : List Char) (vs : List (List Char)) :
    (value :: vs.tail).getLast? = some value ↔ vs.length ≤ 1 ∨ vs.getLast? = some value := by
  cases vs with
  | nil => simp
  | cons v vs =>
    cases vs with
    | nil => simp
    | cons w vs => simp [getLast?_cons]

section Law

variable {key value : List Char}
variable (hkey : '=' ∉ key) (hline : '\n' ∉ key) (hvalue : trim value = value)
  (hvline : '\n' ∉ value) (hmark : (trim key).head? ≠ some '#')

include hkey hline hvalue hvline hmark

variable (file : List UInt8)

theorem read_written : readConfigValue (writeConfigValue file key value) key = some value := by
  rw [readConfigValue_write,firstValue_eq,entries_replaceConfigLine _ hline hvline,
    values_written hkey hvalue hmark]
  rfl

theorem loaded_written : loadedValue (writeConfigValue file key value) key = some value ↔
      (lines ((Utf8.decode file).getD [])).countP (isOf key) ≤ 1 ∨
        lastValue key (entries ((Utf8.decode file).getD [])) = some value := by
  rw [loadedValue_write,lastValue_eq,entries_replaceConfigLine _ hline hvline,
    values_written hkey hvalue hmark,getLast?_cons_tail,lastValue_eq,entries,length_values]

theorem others_written {k : List Char} (hk : trim k ≠ trim key) :
    readConfigValue (writeConfigValue file key value) k = readConfigValue file k ∧
      loadedValue (writeConfigValue file key value) k = loadedValue file k := by
  rw [readConfigValue_write,loadedValue_write,firstValue_eq,lastValue_eq,
    entries_replaceConfigLine _ hline hvline,values_written_of_ne hkey hvalue hmark hk,
    readConfigValue,loadedValue]
  cases Utf8.decode file with
  | none => exact ⟨rfl,rfl⟩
  | some content => exact ⟨(firstValue_eq k _).symm,(lastValue_eq k _).symm⟩

theorem filter_replaceConfigLine (existing : List Char) :
    (lines (replaceConfigLine existing key value)).filter (!isOf key ·) =
        (lines existing).filter (!isOf key ·) ↔
      ((lines existing).any (isOf key) = true → (lines existing).getLast? ≠ some []) ∧
        ∀ l ∈ lines existing, isOf key l = false → l.getLast? ≠ some '\r' := by
  have hmap (ls : List (List Char)) : (ls.map stripReturn).filter (!isOf key ·) =
      (ls.filter (!isOf key ·)).map stripReturn := by
    rw [filter_map]
    simp only [Function.comp_def,isOf_stripReturn]
  have hwritten := filter_written hkey hvalue hmark existing
  rw [lines_replaceConfigLine _ hline hvline]
  by_cases hlast : (writtenLines existing key value).getLast? = some []
  · have hblank := (getLast?_written existing key value).mp hlast
    rw [if_pos hlast,hmap]
    refine iff_of_false (fun heq => ?_) (fun h => h.1 hblank.1 hblank.2)
    have hsplit := dropLast_append_getLast? _ hlast
    rw [← hwritten,← hsplit,filter_append,dropLast_concat,
      filter_cons_of_pos (by rw [isOf_nil]; rfl)] at heq
    have hlen := congrArg length heq
    simp at hlen
  · have hsame (ls : List (List Char)) : ls.map stripReturn = ls ↔ ∀ l ∈ ls, stripReturn l = l := by
      simpa using @map_inj_left _ _ ls stripReturn id
    rw [if_neg hlast,hmap,hwritten,hsame]
    have hblank := fun hany => not_and.mp (mt (getLast?_written existing key value).mpr hlast) hany
    constructor
    · refine fun h => ⟨hblank,fun l hl hof => (stripReturn_eq_self l).mp (h l ?_)⟩
      exact mem_filter.mpr ⟨hl,by rw [hof]; rfl⟩
    · intro h l hl
      obtain ⟨hmem,hof⟩ := mem_filter.mp hl
      exact (stripReturn_eq_self l).mpr (h.2 l hmem (by simpa using hof))

end Law

/-- A written setting takes effect and disturbs no other setting and no line exactly if no later
line of the key keeps another value, no blank line ends the file after it, no kept line ends with
a carriage return, and a file that is no UTF-8 has nothing to lose. -/
theorem write_takes_effect_iff (file : List UInt8) {key value : List Char} (hkey : '=' ∉ key)
    (hline : '\n' ∉ key) (hvalue : trim value = value) (hvline : '\n' ∉ value) :
    TakesEffect file (writeConfigValue file key value) key value ↔ Settable file key value := by
  by_cases hmark : (trim key).head? = some '#'
  · refine iff_of_false (fun h => ?_) (fun h => h.1 hmark)
    have hread := h.read
    rw [readConfigValue_write,firstValue_eq,values_of_marked hmark] at hread
    exact nomatch hread
  have hloaded := loaded_written hkey hline hvalue hvline hmark file
  have hothers (k : List Char) (hk : trim k ≠ trim key) :=
    others_written hkey hline hvalue hvline hmark file hk
  have hread := read_written hkey hline hvalue hvline hmark file
  have hkept := otherLines_write file key value
  have hfilter := filter_replaceConfigLine hkey hline hvalue hvline hmark
    ((Utf8.decode file).getD [])
  unfold Settable
  cases hfile : Utf8.decode file with
  | some content =>
    have hlossy : Utf8.decodeLossy file = content := by
      rw [← Utf8.encode_of_decode hfile,Utf8.decodeLossy_encode]
    rw [hfile,Option.getD_some] at hloaded hkept hfilter
    rw [← hkept,← hlossy] at hfilter
    rw [← hlossy] at hloaded
    change _ ↔ _ ∧ Rewritable content key value
    rw [← hlossy]
    constructor
    · exact fun h => ⟨hmark,hloaded.mp h.loaded,hfilter.mp h.kept⟩
    · exact fun ⟨_,hlast,hlines⟩ => ⟨hread,hloaded.mpr hlast,hothers,hfilter.mpr hlines⟩
  | none =>
    rw [hfile,Option.getD_none] at hloaded hkept hfilter
    have hempty := hfilter.mpr ⟨nofun,nofun⟩
    rw [← hkept] at hempty
    have hnone : otherLines key (writeConfigValue file key value) = [] := hempty
    constructor
    · exact fun h => ⟨hmark,h.kept.symm.trans hnone⟩
    · exact fun ⟨_,hlines⟩ =>
        ⟨hread,hloaded.mpr (.inl (Nat.zero_le _)),hothers,hnone.trans hlines.symm⟩

def oneModel : List Char := "# models\nmodel = a\n\ntheme = dark\n".toList

def twoModels : List Char := "model = a\nmodel = b\n".toList

theorem write_takes_effect_once :
    TakesEffect (Utf8.encode oneModel) (writeConfigValue (Utf8.encode oneModel) "model".toList ['c'])
      "model".toList ['c'] := by
  refine (write_takes_effect_iff _ (by decide) (by decide) (by decide) (by decide)).mpr
    ⟨by decide,?_⟩
  rw [Utf8.decode_encode]
  refine ⟨.inl ?_,?_,?_⟩
  all_goals decide +kernel

/-- The loader still takes the old value of the second line. -/
theorem later_line_shadows_write :
    readConfigValue (writeConfigValue (Utf8.encode twoModels) "model".toList ['c']) "model".toList =
        some ['c'] ∧
      loadedValue (writeConfigValue (Utf8.encode twoModels) "model".toList ['c']) "model".toList =
        some ['b'] ∧
      ¬ TakesEffect (Utf8.encode twoModels)
        (writeConfigValue (Utf8.encode twoModels) "model".toList ['c']) "model".toList ['c'] := by
  have hloaded : loadedValue (writeConfigValue (Utf8.encode twoModels) "model".toList ['c'])
      "model".toList = some ['b'] := by decide +kernel
  refine ⟨by decide +kernel,hloaded,fun h => ?_⟩
  have hc := h.loaded
  rw [hloaded] at hc
  exact absurd hc (by decide)

end Synaps.Config
