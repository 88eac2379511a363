import Synaps.Memory.Store

/-!
A store as the list of what its lines are: both readers, the one of the store and the one that
stages the index, are functions of that list. The files of an index directory read back as they
were written.
-/

set_option autoImplicit false

namespace Synaps.Memory

open Json
open List hiding lookup

variable (D : Deps) (scope : ProjectScope)

def tombsOf (ks : List LineKind) : List String :=
  ks.filterMap fun
    | .tombstone id => some id
    | _ => none

def recordsOf (ks : List LineKind) : List MemoryRecord :=
  ks.filterMap fun
    | .record r => if inScope scope r then some r else none
    | _ => none

/-- The records that count: those of the scope that no line forgets. -/
def liveRecords (ks : List LineKind) : List MemoryRecord :=
  (recordsOf scope ks).filter fun r => r.id.elim false fun id => !(tombsOf ks).contains id

def docOf? (r : MemoryRecord) : Option SegmentDoc := r.id.map fun id => docOf D id r

def docsOf (ks : List LineKind) : List SegmentDoc := (recordsOf scope ks).filterMap (docOf? D)

def liveDocs (ks : List LineKind) : List SegmentDoc :=
  (docsOf D scope ks).filter fun d => !(tombsOf ks).contains d.id

variable {D scope}

section

variable (ks ls : List LineKind)

@[simp] theorem tombsOf_append :
    tombsOf (ks ++ ls) = tombsOf ks ++ tombsOf ls := filterMap_append ..

@[simp] theorem recordsOf_append :
    recordsOf scope (ks ++ ls) = recordsOf scope ks ++ recordsOf scope ls := filterMap_append ..

@[simp] theorem docsOf_append :
    docsOf D scope (ks ++ ls) = docsOf D scope ks ++ docsOf D scope ls := by
  simp [docsOf]

end

@[simp] theorem tombsOf_tombstone (id : String) (ks : List LineKind) :
    tombsOf (.tombstone id :: ks) = id :: tombsOf ks := rfl

@[simp] theorem tombsOf_record (r : MemoryRecord) (ks : List LineKind) :
    tombsOf (.record r :: ks) = tombsOf ks := rfl

@[simp] theorem docsOf_tombstone (id : String) (ks : List LineKind) :
    docsOf D scope (.tombstone id :: ks) = docsOf D scope ks := rfl

theorem docsOf_record (r : MemoryRecord) (ks : List LineKind) : docsOf D scope (.record r :: ks) =
      (if inScope scope r then docOf? D r else none).toList ++ docsOf D scope ks := by
  by_cases h : inScope scope r = true
  · cases hd : docOf? D r <;> simp [docsOf,recordsOf,h,hd]
  · simp [docsOf,recordsOf,h]

theorem liveDocs_eq (ks : List LineKind) :
    liveDocs D scope ks = (liveRecords scope ks).filterMap (docOf? D) := by
  unfold liveDocs docsOf liveRecords
  rw [filterMap_filter,filter_filterMap]
  refine filterMap_congr fun r _ => ?_
  cases hid : r.id with
  | none => simp [docOf?,hid]
  | some id =>
    simp only [docOf?,hid,Option.map_some,Option.filter_some,Option.elim_some]
    rfl

structure LineIs (D : Deps) (l : List Char) (k : LineKind) : Prop where
  plain : Lines.Plain l
  visible : Text.trim l ≠ []
  staged_visible : Text.trim (l ++ ['\n']) ≠ []
  store : storeKind D l = k
  staged : indexKind D (Text.trim (l ++ ['\n'])) = k

theorem kinds_record {r : MemoryRecord} (hr : D.ReadsBack r) :
    ∃ info, storeKind D r.text = .record { r with info } ∧
      indexKind D r.text = .record { r with info } := by
  obtain ⟨info,hstore,hread,info',hparse⟩ := storeKind_record hr
  refine ⟨info,hstore,?_⟩
  have htomb : ({ r with info := info' } : MemoryRecord).toValue.get? "tombstone" = none := by
    simp [MemoryRecord.get?_toValue]
  simp only [indexKind,MemoryRecord.fromStr,hread]
  simp [hparse,htomb]

theorem indexKind_tombstone (hD : D.Reads) (t : TombstoneLine) :
    indexKind D t.text = .tombstone t.tombstone := by
  simp [indexKind,hD.tombstone,TombstoneLine.toValue,Value.get?,lookup,Value.asStr?]

theorem indexKind_garbage {l : List Char} (h : D.parse l = none) : indexKind D l = .garbage := by
  simp [indexKind,MemoryRecord.fromStr,h]

theorem Written.lineIs (hD : D.Reads) {l : List Char} (h : Written l) :
    LineIs D l (storeKind D l) where
  plain := h.plain
  visible := by
    rw [h.trim]
    exact h.ne_nil
  staged_visible := by
    rw [h.trim_newline]
    exact h.ne_nil
  store := rfl
  staged := by
    rw [h.trim_newline]
    cases h with
    | record r =>
      rcases hD.record r with hr | hr
      · obtain ⟨info,hstore,hstaged⟩ := kinds_record hr
        rw [hstore,hstaged]
      · rw [storeKind_garbage hr,indexKind_garbage hr]
    | tombstone t => rw [indexKind_tombstone hD,storeKind_tombstone hD]

def LiveScan.kind (scope : ProjectScope) (s : LiveScan) : LineKind → LiveScan
  | .tombstone id => { s with tombstoned := id :: s.tombstoned }
  | .record r => if inScope scope r then { s with live := s.live ++ [r] } else s
  | .garbage => s

theorem LiveScan.line_lineIs {l : List Char} {k : LineKind} (h : LineIs D l k) (s : LiveScan) :
    s.line D scope (Lines.rawOf l) = s.kind scope k := by
  simp only [LiveScan.line,Lines.lineText_rawOf h.plain,if_neg h.visible,h.store]
  cases k <;> rfl

theorem LiveScan.foldl_kind (ks : List LineKind) (s : LiveScan) : ks.foldl (LiveScan.kind scope) s =
      ⟨s.live ++ recordsOf scope ks,(tombsOf ks).reverse ++ s.tombstoned⟩ := by
  induction ks generalizing s with
  | nil => simp [recordsOf,tombsOf]
  | cons k ks ih =>
    rw [foldl_cons,ih]
    cases k with
    | tombstone id | garbage => simp [LiveScan.kind,recordsOf,tombsOf]
    | record r =>
      simp only [LiveScan.kind,recordsOf,tombsOf,filterMap_cons]
      split <;> simp [*]

theorem foldl_rawOf {ls : List (List Char)} {ks : List LineKind}
    (h : Forall₂ (LineIs D) ls ks) (s : LiveScan) :
    (ls.map Lines.rawOf).foldl (LiveScan.line D scope) s = ks.foldl (LiveScan.kind scope) s := by
  induction h generalizing s with
  | nil => rfl
  | cons hl _ ih =>
    simp only [map_cons,foldl_cons,LiveScan.line_lineIs hl]
    exact ih _

def tails (t : List Char) : List (List Char) := if t = [] then [] else [t]

theorem LiveScan.line_torn {t : List Char} {k : LineKind} (h : LineIs D t k) (s : LiveScan) :
    s.line D scope (Utf8.encode t) = s.kind scope k := by
  simp only [LiveScan.line,Lines.lineText_torn h.plain.newline,if_neg h.visible,h.store]
  cases k <;> rfl

theorem rawLines_tail {t : List Char} (h : '\n' ∉ t) :
    Lines.rawLines (Utf8.encode t) = (tails t).map Utf8.encode := by
  unfold tails
  split
  · rename_i ht
    rw [ht]
    rfl
  · rename_i ht
    exact Lines.rawLines_last (Lines.newline_notMem_encode h)
      (fun he => ht (Utf8.encode_injective he))

section

variable {ls : List (List Char)} {ks : List LineKind} (h : List.Forall₂ (LineIs D) ls ks)

include ks h

theorem LineIs.notMem : ∀ l ∈ ls, '\n' ∉ l := by
  induction h with
  | nil => exact nofun
  | cons hl _ ih =>
    exact forall_mem_cons.mpr ⟨hl.plain.newline,ih⟩

def fileBytes (ls : List (List Char)) (t : List Char) : List UInt8 :=
  Utf8.encode (Lines.terminated ls) ++ Utf8.encode t

/-- The store's reader gives the live records of the lines, whether or not the last one ends
in a newline. -/
theorem loadLive_fileBytes {kts : List LineKind} {t : List Char}
    (ht : Forall₂ (LineIs D) (tails t) kts) :
    loadLiveProjectRecords D scope (some (fileBytes ls t)) = .ok (liveRecords scope (ks ++ kts)) := by
  have hnl : '\n' ∉ t := by
    by_cases hnil : t = []
    · rw [hnil]
      exact not_mem_nil
    · exact LineIs.notMem ht t (by rw [tails,if_neg hnil]; exact mem_singleton_self t)
  have htail (s : LiveScan) : ((tails t).map Utf8.encode).foldl (LiveScan.line D scope) s =
      kts.foldl (LiveScan.kind scope) s := by
    generalize tails t = ts at ht
    induction ht generalizing s with
    | nil => rfl
    | cons hl _ ih =>
      simp only [map_cons,foldl_cons,LiveScan.line_torn hl]
      exact ih _
  rw [loadLiveProjectRecords,fileBytes,Lines.rawLines_terminated (LineIs.notMem h),
    foldl_append,foldl_rawOf h,rawLines_tail hnl,htail,← foldl_append,LiveScan.foldl_kind]
  simp [liveRecords,-tombsOf_append,-recordsOf_append]

end

def StageScan.kind (D : Deps) (scope : ProjectScope) (s : StageScan) : LineKind → StageScan
  | .tombstone id =>
    { s with
      tombstones := List.insert id s.tombstones
      pending := s.pending.filter fun doc => doc.id ≠ id }
  | .record r =>
    match if inScope scope r then docOf? D r else none with
    | none => s
    | some d =>
      if s.tombstones.contains d.id then s else { s with pending := s.pending ++ [d] }
  | .garbage => s

theorem StageScan.line_lineIs {l : List Char} {k : LineKind} (h : LineIs D l k) (s : StageScan) :
    s.line D scope (Text.trim (l ++ ['\n'])) = s.kind D scope k := by
  simp only [StageScan.line,if_neg h.staged_visible,h.staged]
  cases k with
  | tombstone id | garbage => rfl
  | record r =>
    by_cases hp : r.project = some scope.key
    · cases hid : r.id with
      | none => simp [StageScan.kind,inScope,hp,hid]
      | some id =>
        simp [StageScan.kind,inScope,hp,hid,docOf?,docOf]
    · simp [StageScan.kind,inScope,hp]

def linesLength (ls : List (List Char)) : Nat := (Utf8.encode (Lines.terminated ls)).length

theorem linesLength_cons (l : List Char) (ls : List (List Char)) :
    linesLength (l :: ls) = (Lines.rawOf l).length + linesLength ls := by
  rw [linesLength,Lines.encode_terminated_cons,length_append]
  rfl

theorem linesLength_append (ls ms : List (List Char)) :
    linesLength (ls ++ ms) = linesLength ls + linesLength ms := by
  simp only [linesLength,Lines.terminated_append,Utf8.encode_append,length_append]

theorem linesLength_eq_zero {ls : List (List Char)} (h : linesLength ls = 0) : ls = [] := by
  cases ls with
  | nil => rfl
  | cons l ls =>
    rw [linesLength_cons] at h
    have hpos := length_pos_of_ne_nil (Lines.rawOf_ne_nil l)
    omega

theorem length_fileBytes (ls : List (List Char)) (t : List Char) :
    (fileBytes ls t).length = linesLength ls + (Utf8.encode t).length := length_append

theorem drop_fileBytes (ls : List (List Char)) (t : List Char) (k : Nat) :
    (fileBytes ls t).drop (linesLength (ls.take k)) = fileBytes (ls.drop k) t := by
  have hsplit : fileBytes ls t =
      Utf8.encode (Lines.terminated (ls.take k)) ++ fileBytes (ls.drop k) t := by
    conv_lhs => rw [← take_append_drop k ls]
    simp only [fileBytes,Lines.terminated_append,Utf8.encode_append,append_assoc]
  rw [hsplit]
  exact drop_left

theorem StageScan.kind_consumed (s : StageScan) (k : LineKind) (n : Nat) :
    StageScan.kind D scope { s with consumed := n } k =
      { s.kind D scope k with consumed := n } := by
  cases k with
  | tombstone id | garbage => rfl
  | record r =>
    simp only [StageScan.kind]
    split
    · rfl
    · split <;> rfl

theorem StageScan.foldl_kind_consumed (ks : List LineKind) (s : StageScan) (n : Nat) :
    ks.foldl (StageScan.kind D scope) { s with consumed := n } =
      { ks.foldl (StageScan.kind D scope) s with consumed := n } := by
  induction ks generalizing s with
  | nil => rfl
  | cons k ks ih => rw [foldl_cons,StageScan.kind_consumed,ih,foldl_cons]

theorem stageLines_rawOf {ls : List (List Char)} {ks : List LineKind}
    (h : Forall₂ (LineIs D) ls ks) (s : StageScan) (rest : List (List UInt8)) :
    StageScan.lines D scope s (ls.map Lines.rawOf ++ rest) = StageScan.lines D scope
        { ks.foldl (StageScan.kind D scope) s with consumed := s.consumed + linesLength ls }
        rest := by
  induction h generalizing s with
  | nil => rfl
  | @cons l k ls ks hl _ ih =>
    have hconsumed (n : Nat) : (StageScan.kind D scope { s with consumed := n } k).consumed = n := by
      rw [StageScan.kind_consumed]
    rw [map_cons,cons_append,StageScan.lines,Lines.decode_rawOf]
    simp only [getLast?_concat,ne_eq,not_true_eq_false,if_false,StageScan.line_lineIs hl]
    rw [ih,hconsumed,StageScan.kind_consumed,StageScan.foldl_kind_consumed,linesLength_cons,
      foldl_cons,Nat.add_assoc]

/-- What the lines add: their tombstones, and the documents that none of the tombstones names. -/
theorem StageScan.foldl_kind (ks : List LineKind) (s : StageScan) :
    (∀ id, id ∈ (ks.foldl (StageScan.kind D scope) s).tombstones ↔
        id ∈ s.tombstones ∨ id ∈ tombsOf ks) ∧
      (ks.foldl (StageScan.kind D scope) s).pending =
        s.pending.filter (fun d => !(tombsOf ks).contains d.id) ++
          (docsOf D scope ks).filter fun d =>
            !s.tombstones.contains d.id && !(tombsOf ks).contains d.id := by
  induction ks generalizing s with
  | nil => simp [tombsOf,docsOf,recordsOf]
  | cons k ks ih =>
    obtain ⟨htombs,hpending⟩ := ih (s.kind D scope k)
    rw [foldl_cons]
    cases k with
    | garbage =>
      exact ⟨htombs,hpending⟩
    | tombstone id =>
      have hkeep : (fun d : SegmentDoc => !(tombsOf ks).contains d.id && decide (d.id ≠ id)) =
          fun d => !(tombsOf (.tombstone id :: ks)).contains d.id := by
        funext d
        by_cases hd : d.id = id <;> simp [hd]
      constructor
      · intro x
        rw [htombs,tombsOf_tombstone,mem_cons]
        simp only [StageScan.kind,mem_insert_iff]
        exact or_assoc.trans or_left_comm
      · rw [hpending]
        simp only [StageScan.kind,filter_filter,docsOf_tombstone]
        rw [hkeep]
        congr 1
        refine filter_congr fun d _ => ?_
        by_cases hd : d.id = id <;> simp [hd]
    | record r =>
      rw [docsOf_record,tombsOf_record]
      simp only [StageScan.kind] at htombs hpending ⊢
      cases hdoc : (if inScope scope r then docOf? D r else none) with
      | none =>
        simp only [hdoc] at htombs hpending ⊢
        exact ⟨htombs,hpending⟩
      | some d =>
        simp only [hdoc] at htombs hpending ⊢
        by_cases hd : d.id ∈ s.tombstones
        · simp only [contains_iff_mem.mpr hd,if_true] at htombs hpending ⊢
          refine ⟨htombs,?_⟩
          rw [hpending]
          simp [hd]
        · have hno : s.tombstones.contains d.id = false := by simpa using hd
          simp only [hno,Bool.false_eq_true,if_false] at htombs hpending ⊢
          refine ⟨htombs,?_⟩
          rw [hpending]
          by_cases hd' : d.id ∈ tombsOf ks <;> simp [hd,hd']

theorem stageLines_fileBytes {ls : List (List Char)} {ks : List LineKind}
    (h : Forall₂ (LineIs D) ls ks) {t : List Char} (ht : '\n' ∉ t) (s : StageScan) :
    StageScan.lines D scope s (Lines.rawLines (fileBytes ls t)) =
      .ok { ks.foldl (StageScan.kind D scope) s with consumed := s.consumed + linesLength ls } := by
  rw [fileBytes,Lines.rawLines_terminated (LineIs.notMem h),stageLines_rawOf h,rawLines_tail ht,
    tails]
  split
  · rfl
  · have hlast : t.getLast? ≠ some '\n' := fun hl => ht (mem_of_getLast? hl)
    simp only [map_cons,map_nil,StageScan.lines,Utf8.decode_encode,ne_eq,hlast,not_false_eq_true,if_true]

open Nat

section

variable (dir : Option Dir)

@[simp] theorem readFile_write (file g : String) (bytes : List UInt8) :
    readFile (DirOp.apply dir (.write file bytes)) g =
      if g = file then some bytes else readFile dir g := by
  unfold readFile DirOp.apply
  simp only [Option.bind_some]
  split
  · rename_i h
    rw [h,AList.lookup_insert]
  rename_i h
  rw [AList.lookup_insert_ne h]
  cases dir with
  | none => simp
  | some d => rfl

@[simp] theorem readFile_createDir (g : String) :
    readFile (DirOp.apply dir .createDir) g = readFile dir g := by
  cases dir with
  | none => simp [readFile,DirOp.apply]
  | some d => rfl

@[simp] theorem readFile_remove (file g : String) :
    readFile (DirOp.apply dir (.remove file)) g = if g = file then none else readFile dir g := by
  cases dir with
  | none => simp [readFile,DirOp.apply]
  | some d =>
    simp only [readFile,DirOp.apply,Option.map_some,Option.bind_some]
    split
    · rename_i h
      rw [h,AList.lookup_erase]
    · rename_i h
      exact AList.lookup_erase_ne h

end

section

variable (dir : Option Dir)

@[simp] theorem applyOps_nil : applyOps dir [] = dir := rfl

@[simp] theorem applyOps_cons (op : DirOp) (ops : List DirOp) :
    applyOps dir (op :: ops) = applyOps (op.apply dir) ops := rfl

@[simp] theorem applyOps_append (ops ops' : List DirOp) :
    applyOps dir (ops ++ ops') = applyOps (applyOps dir ops) ops' := foldl_append

def DirOp.Spares (file : String) : DirOp → Prop
  | .removeDirAll => False
  | .createDir => True
  | .write g _ => file ≠ g
  | .remove g => file ≠ g

theorem readFile_applyOps {file : String} {ops : List DirOp} (h : ∀ op ∈ ops, op.Spares file) :
    readFile (applyOps dir ops) file = readFile dir file := by
  induction ops generalizing dir with
  | nil => rfl
  | cons op ops ih =>
    rw [applyOps_cons,ih _ fun o ho => h o (mem_cons_of_mem _ ho)]
    have hop := h op mem_cons_self
    cases op with
    | removeDirAll => exact hop.elim
    | createDir => exact readFile_createDir dir file
    | write g bytes =>
      rw [readFile_write]
      exact if_neg hop
    | remove g =>
      rw [readFile_remove]
      exact if_neg hop

end

theorem ofDigitChars_zeros (k : Nat) (ds : List Char) :
    ofDigitChars 10 (replicate k '0' ++ ds) 0 = ofDigitChars 10 ds 0 := by
  induction k with
  | zero => rfl
  | succ k ih => simpa [replicate_succ,ofDigitChars] using ih

theorem parseNumber_digits {ds : List Char} (hne : ds ≠ [])
    (hd : ∀ c ∈ ds, c.isDigit = true) : parseNumber ds = some (ofDigitChars 10 ds 0) := by
  have hhead : ds.head? ≠ some '+' := by
    intro h
    exact absurd (hd '+' (mem_of_head? h)) (by decide)
  simp [parseNumber,hhead,hne,all_eq_true.mpr hd]

theorem segNumber_segFile (n : Nat) : segNumber (segFile n) = some n := by
  have hdigits : ∀ c ∈ replicate (6 - (toDigits 10 n).length) '0' ++ toDigits 10 n,
      c.isDigit = true := by
    intro c hc
    rcases mem_append.mp hc with hc | hc
    · rw [eq_of_mem_replicate hc]
      rfl
    · exact all_eq_true.mp (toDigits_isDigit n) c hc
  have hne : replicate (6 - (toDigits 10 n).length) '0' ++ toDigits 10 n ≠ [] := by
    simp
  have hparse := parseNumber_digits hne hdigits
  rw [ofDigitChars_zeros,ofDigitChars_ten_toDigits] at hparse
  simp only [segNumber,segFile,String.toList_ofList]
  generalize replicate (6 - (toDigits 10 n).length) '0' ++ toDigits 10 n = ds at hparse ⊢
  have hsuffix : stripSuffix ['.','j','s','o','n','l'] (ds ++ ['.','j','s','o','n','l']) =
      some ds := by
    simp [stripSuffix,isPrefixOf?]
  have hstart : ['s','e','g','-'].isPrefixOf?
      (['s','e','g','-'] ++ ds ++ ['.','j','s','o','n','l']) =
        some (ds ++ ['.','j','s','o','n','l']) := by
    simp [isPrefixOf?]
  simp only [hstart,hsuffix,hparse,Option.bind_eq_bind,Option.bind_some]

theorem segFile_injective {m n : Nat} (h : segFile m = segFile n) : m = n := by
  have hm := segNumber_segFile m
  rw [h,segNumber_segFile] at hm
  exact (Option.some.inj hm).symm

theorem segFile_ne_manifestFile (n : Nat) : segFile n ≠ manifestFile := by
  intro h
  have hn := segNumber_segFile n
  have hnone : segNumber manifestFile = none := by decide
  rw [h,hnone] at hn
  cases hn

theorem lt_nextSeg {segments : List SegmentMeta} {seg : SegmentMeta} {n : Nat}
    (hs : seg ∈ segments) (hn : seg.file = segFile n) : n < nextSeg segments := by
  have hmem : n ∈ segments.filterMap fun s => segNumber s.file :=
    mem_filterMap.mpr ⟨seg,hs,by rw [hn,segNumber_segFile]⟩
  unfold nextSeg
  cases hmax : (segments.filterMap fun s => segNumber s.file).max? with
  | none => rw [max?_eq_none_iff.mp hmax] at hmem; cases hmem
  | some a =>
    have hle := (max?_eq_some_iff.mp hmax).2 n hmem
    exact lt_succ_of_le hle

/-- The JSON reader gives back what the index writes. -/
structure Deps.ReadsIndex (D : Deps) : Prop where
  doc : ∀ d : SegmentDoc, D.parse d.text = some d.toValue
  manifest : ∀ m : Manifest, D.parse (printPretty 0 m.toValue) = some m.toValue

theorem SegmentDoc.ofValue_toValue (d : SegmentDoc) : SegmentDoc.ofValue d.toValue = some d := by
  simp [SegmentDoc.ofValue,SegmentDoc.toValue,field,fieldOr,Value.get?,lookup,Value.asStr?,
    asU64?_natValue,asStrings?_stringsValue]

@[simp] theorem asNat?_natValue (n : Nat) : asNat? (natValue n) = some n := rfl

theorem SegmentMeta.ofValue_toValue (m : SegmentMeta) : SegmentMeta.ofValue m.toValue = some m := by
  simp [SegmentMeta.ofValue,SegmentMeta.toValue,field,Value.get?,lookup,Value.asStr?,
    asU64?_natValue]

theorem asSegments?_map (ms : List SegmentMeta) :
    asSegments? (.array (ms.map SegmentMeta.toValue)) = some ms := by
  induction ms with
  | nil => rfl
  | cons m ms ih =>
    simp only [asSegments?] at ih ⊢
    simp [mapM_cons,SegmentMeta.ofValue_toValue,ih]

theorem Manifest.ofValue_toValue (m : Manifest) : Manifest.ofValue m.toValue = some m := by
  simp [Manifest.ofValue,Manifest.toValue,field,Value.get?,lookup,asSegments?_map,
    asStrings?_stringsValue]

variable {D : Deps}

theorem loadManifest_of_file (hD : D.ReadsIndex) {dir : Option Dir} {m : Manifest}
    (hfile : readFile dir manifestFile = some m.bytes) (hv : m.version = manifestVersion) :
    loadManifest D dir = some m := by
  simp [loadManifest,hfile,Manifest.bytes,Utf8.decode_encode,hD.manifest,
    Manifest.ofValue_toValue,hv]

theorem loadManifest_congr {dir dir' : Option Dir}
    (h : readFile dir' manifestFile = readFile dir manifestFile) :
    loadManifest D dir' = loadManifest D dir := by
  simp only [loadManifest,h]

def streamOf (docs : List SegmentDoc) : SegmentStream :=
  ⟨docs.tail.map fun d => Lines.rawOf d.text,docs.head?⟩

theorem SegmentDoc.text_object (d : SegmentDoc) : ∃ kvs, d.text = print (.object kvs) := ⟨_,rfl⟩

theorem nextDoc_map (hD : D.ReadsIndex) (docs : List SegmentDoc) :
    nextDoc D (docs.map fun d => Lines.rawOf d.text) =
      .ok (docs.head?,docs.tail.map fun d => Lines.rawOf d.text) := by
  cases docs with
  | nil => rfl
  | cons d docs =>
    obtain ⟨kvs,htext⟩ := d.text_object
    have htrim : Text.trim (d.text ++ ['\n']) = d.text := by
      rw [htext]
      exact trim_print_object_newline kvs
    have hne : d.text ≠ [] := print_ne_nil _
    have hread : SegmentDoc.fromStr D d.text = some d := by
      simp [SegmentDoc.fromStr,hD.doc,SegmentDoc.ofValue_toValue]
    simp only [map_cons,nextDoc,Lines.decode_rawOf,htrim,if_neg hne,hread,head?_cons,tail_cons]

theorem advance_streamOf (hD : D.ReadsIndex) (d : SegmentDoc) (docs : List SegmentDoc) :
    (streamOf (d :: docs)).advance D = .ok (streamOf docs) := by
  simp only [SegmentStream.advance,streamOf,tail_cons,nextDoc_map hD]
  rfl

theorem rawLines_segmentBytes (docs : List SegmentDoc) :
    Lines.rawLines (segmentBytes docs) = docs.map fun d => Lines.rawOf d.text := by
  have hplain : ∀ l ∈ docs.map SegmentDoc.text, '\n' ∉ l := by
    intro l hl
    obtain ⟨d,-,rfl⟩ := mem_map.mp hl
    exact (print_object_plain _).newline
  have hlines := Lines.rawLines_terminated hplain []
  rwa [append_nil,Lines.rawLines_nil,append_nil,map_map] at hlines

theorem openFile_segment (hD : D.ReadsIndex) {dir : Option Dir} {file : String}
    {docs : List SegmentDoc} (h : readFile dir file = some (segmentBytes docs)) :
    SegmentStream.openFile D dir file = .ok (streamOf docs) := by
  simp only [SegmentStream.openFile,h,SegmentStream.advance,rawLines_segmentBytes,nextDoc_map hD]
  rfl

theorem drain_streamOf (hD : D.ReadsIndex) (docs : List SegmentDoc) {fuel : Nat}
    (h : docs.length ≤ fuel) : (streamOf docs).drain D fuel = .ok docs := by
  induction docs generalizing fuel with
  | nil => cases fuel <;> rfl
  | cons d docs ih =>
    cases fuel with
    | zero => cases h
    | succ fuel =>
      have hcurrent : (streamOf (d :: docs)).current = some d := rfl
      simp only [SegmentStream.drain,hcurrent,advance_streamOf hD]
      have hrest := ih (le_of_succ_le_succ h)
      simp only [bind,Except.bind,hrest]
      rfl

section

variable {dir : Option Dir} {docs : List SegmentDoc}

theorem readSegment_of_file (hD : D.ReadsIndex) {file : String}
    (h : readFile dir file = some (segmentBytes docs)) : readSegment D dir file = .ok docs := by
  have hfuel : docs.length ≤ (streamOf docs).lines.length + 1 := by
    simp only [streamOf,length_map,length_tail]
    omega
  simp only [readSegment,openFile_segment hD h,bind,Except.bind]
  exact drain_streamOf hD docs hfuel

instance : Std.TransCmp docCmp :=
  inferInstanceAs (Std.TransCmp (compareLex
    (fun a b : SegmentDoc => compareOn (fun d => d.ts.toNat) b a)
    (fun a b : SegmentDoc => compareOn SegmentDoc.id b a)))

def Newer (a b : SegmentDoc) : Prop := (docCmp a b).isLE = true

structure SegmentFile (dir : Option Dir) (seg : SegmentMeta) (docs : List SegmentDoc) : Prop where
  file : readFile dir seg.file = some (segmentBytes docs)
  sorted : docs.Pairwise Newer
  bounds : ∀ d ∈ docs, seg.minTs ≤ d.ts ∧ d.ts ≤ seg.maxTs
  number : ∃ n, seg.file = segFile n

theorem SegmentFile.congr {dir' : Option Dir} {seg : SegmentMeta} (h : SegmentFile dir seg docs)
    (hfile : readFile dir' seg.file = readFile dir seg.file) : SegmentFile dir' seg docs :=
  ⟨hfile.trans h.file,h.sorted,h.bounds,h.number⟩

end

section

variable {docs : List SegmentDoc} {d : SegmentDoc} (h : d ∈ docs)

include h

theorem minTs_le : minTs docs ≤ d.ts := by
  have hmem : d.ts ∈ docs.map SegmentDoc.ts := mem_map_of_mem h
  unfold minTs
  cases hm : (docs.map SegmentDoc.ts).min? with
  | none => rw [min?_eq_none_iff.mp hm] at hmem; cases hmem
  | some a => exact (min?_eq_some_iff.mp hm).2 d.ts hmem

instance lawfulOrderMax : Std.LawfulOrderMax UInt64 where
  max_eq_or a b := by
    show (if a ≤ b then b else a) = a ∨ (if a ≤ b then b else a) = b
    split <;> simp
  max_le_iff a b c := by
    show (if a ≤ b then b else a) ≤ c ↔ _
    simp only [UInt64.le_iff_toNat_le]
    split <;> omega

theorem le_maxTs : d.ts ≤ maxTs docs := by
  have hmem : d.ts ∈ docs.map SegmentDoc.ts := mem_map_of_mem h
  unfold maxTs
  cases hm : (docs.map SegmentDoc.ts).max? with
  | none => rw [max?_eq_none_iff.mp hm] at hmem; cases hmem
  | some a => exact (max?_eq_some_iff.mp hm).2 d.ts hmem

end

section

variable {seq : Nat} {dss : List (List SegmentDoc)}

theorem mem_segmentWrites {op : DirOp} (h : op ∈ segmentWrites seq dss) :
    ∃ n bytes, seq ≤ n ∧ n < seq + dss.length ∧ op = .write (segFile n) bytes := by
  induction dss generalizing seq with
  | nil => cases h
  | cons docs dss ih =>
    rcases mem_cons.mp h with rfl | h
    · exact ⟨seq,_,le_refl _,by simp,rfl⟩
    · obtain ⟨n,bytes,hle,hlt,rfl⟩ := ih h
      exact ⟨n,bytes,by omega,by rw [length_cons]; omega,rfl⟩

theorem mem_segmentMetas {seg : SegmentMeta} (h : seg ∈ segmentMetas D seq dss) :
    ∃ n, seg.file = segFile n ∧ seq ≤ n ∧ n < seq + dss.length := by
  induction dss generalizing seq with
  | nil => cases h
  | cons docs dss ih =>
    rcases mem_cons.mp h with rfl | h
    · exact ⟨seq,rfl,le_refl _,by simp⟩
    · obtain ⟨n,hn,hle,hlt⟩ := ih h
      exact ⟨n,hn,by omega,by rw [length_cons]; omega⟩

theorem segmentWrites_spares {file : String}
    (hf : ∀ n, seq ≤ n → n < seq + dss.length → file ≠ segFile n) :
    ∀ op ∈ segmentWrites seq dss, op.Spares file := by
  intro op hop
  obtain ⟨n,bytes,hle,hlt,rfl⟩ := mem_segmentWrites hop
  exact hf n hle hlt

theorem segmentFiles_written (hsorted : ∀ docs ∈ dss, docs.Pairwise Newer) (dir : Option Dir) :
    Forall₂ (SegmentFile (applyOps dir (segmentWrites seq dss))) (segmentMetas D seq dss)
      dss := by
  induction dss generalizing seq dir with
  | nil => exact .nil
  | cons docs dss ih =>
    refine .cons ⟨?_,hsorted docs mem_cons_self,fun d hd => ⟨minTs_le hd,le_maxTs hd⟩,
      seq,rfl⟩ (ih (fun ds hds => hsorted ds (mem_cons_of_mem _ hds)) _)
    rw [segmentWrites,applyOps_cons,readFile_applyOps]
    · rw [readFile_write]
      exact if_pos rfl
    · refine segmentWrites_spares fun n hle hlt h => ?_
      have hn : seq = n := segFile_injective h
      omega

end

theorem flatten_chunksFrom {α : Type} (n : Nat) (acc xs : List α) :
    (chunksFrom n acc xs).flatten = acc ++ xs := by
  induction xs generalizing acc with
  | nil => cases acc <;> rfl
  | cons x xs ih =>
    rw [chunksFrom]
    split <;> simp [ih]

theorem flatten_chunks {α : Type} (n : Nat) (xs : List α) : (chunks n xs).flatten = xs :=
  flatten_chunksFrom n [] xs

theorem pairwise_chunks {α : Type} {r : α → α → Prop} {n : Nat} {xs : List α}
    (h : xs.Pairwise r) : ∀ c ∈ chunks n xs, c.Pairwise r := by
  intro c hc
  have hsub := sublist_flatten_of_mem hc
  rw [flatten_chunks] at hsub
  exact h.sublist hsub

end Synaps.Memory
