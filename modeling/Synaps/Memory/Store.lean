import Synaps.Lib.Text
import Synaps.Lib.Comparator
import Synaps.Lib.JsonText
import Synaps.Lib.Lines
import Mathlib.Data.List.Infix
import Mathlib.Data.List.AList

/-!
The memory store of one project: an append-only file of JSON lines, each a record or a
tombstone, with the readers that skip what they cannot decode; and its lexical index, segment files
of documents with a manifest that says how much of the store they cover.
-/

set_option autoImplicit false

namespace Synaps.Memory

open Json

/-- The code of other libraries the memory calls: the reader of JSON texts, the SHA-256 digest
in hex, and the Unicode tables. -/
structure Deps where
  parse : List Char → Option Value
  sha256 : List UInt8 → String
  isAlphanumeric : Char → Bool
  toLowercase : List Char → List Char

variable (D : Deps)

def asNat? : Value → Option Nat
  | .number (.int (.ofNat n)) => some n
  | _ => none

def asU64? (v : Value) : Option UInt64 :=
  (asNat? v).bind fun n => if n < 2^64 then some (UInt64.ofNat n) else none

def asU32? (v : Value) : Option UInt32 :=
  (asNat? v).bind fun n => if n < 2^32 then some (UInt32.ofNat n) else none

def natValue (n : Nat) : Value := .number (.int n)

def stringsValue (ss : List String) : Value := .array (ss.map .string)

def asStrings? : Value → Option (List String)
  | .array vs => vs.mapM Value.asStr?
  | _ => none

def field {α : Type} (v : Value) (k : String) (read : Value → Option α) : Option α :=
  (v.get? k).bind read

def optField {α : Type} (v : Value) (k : String) (read : Value → Option α) : Option (Option α) :=
  match v.get? k with
  | none | some .null => some none
  | some x => (read x).map some

def fieldOr {α : Type} (v : Value) (k : String) (read : Value → Option α) (default : α) : Option α :=
  match v.get? k with
  | none => some default
  | some x => read x

def optEntry (k : String) (v : Option Value) : List (String × Value) := (v.map (k,·)).toList

structure MemoryProvenance where
  source : String
  session : Option String
  deriving DecidableEq

inductive MemorySensitivity where
  | normal | sensitive | secret
  deriving DecidableEq

inductive MemoryRetention where
  | standard
  | maxAgeDays (days : UInt32)
  deriving DecidableEq

structure MemoryRecord where
  ns : String
  timestampMs : UInt64
  content : String
  tags : List String
  info : Option Value
  id : Option String
  project : Option String
  provenance : Option MemoryProvenance
  sensitivity : Option MemorySensitivity
  retention : Option MemoryRetention
  deriving DecidableEq

structure TombstoneLine where
  tombstone : String
  timestampMs : UInt64
  deriving DecidableEq

def MemoryProvenance.toValue (p : MemoryProvenance) : Value :=
  .object (("source",.string p.source) :: optEntry "session" (p.session.map .string))

def MemoryProvenance.ofValue (v : Value) : Option MemoryProvenance := do
  let source ← field v "source" Value.asStr?
  let session ← optField v "session" Value.asStr?
  some ⟨source,session⟩

def MemorySensitivity.toValue : MemorySensitivity → Value
  | .normal => .string "normal"
  | .sensitive => .string "sensitive"
  | .secret => .string "secret"

def MemorySensitivity.ofValue : Value → Option MemorySensitivity
  | .string "normal" => some .normal
  | .string "sensitive" => some .sensitive
  | .string "secret" => some .secret
  | _ => none

def MemoryRetention.toValue : MemoryRetention → Value
  | .standard => .string "standard"
  | .maxAgeDays days => .object [("max_age_days",natValue days.toNat)]

def MemoryRetention.ofValue : Value → Option MemoryRetention
  | .string "standard" => some .standard
  | .object [("max_age_days",v)] => (asU32? v).map .maxAgeDays
  | _ => none

def MemoryRecord.toValue (r : MemoryRecord) : Value :=
  .object ([("namespace",.string r.ns),("timestamp_ms",natValue r.timestampMs.toNat),
      ("content",.string r.content),("tags",stringsValue r.tags)] ++ optEntry "meta" r.info ++
    optEntry "id" (r.id.map .string) ++ optEntry "project" (r.project.map .string) ++
    optEntry "provenance" (r.provenance.map MemoryProvenance.toValue) ++
    optEntry "sensitivity" (r.sensitivity.map MemorySensitivity.toValue) ++
    optEntry "retention" (r.retention.map MemoryRetention.toValue))

def MemoryRecord.ofValue (v : Value) : Option MemoryRecord := do
  let ns ← field v "namespace" Value.asStr?
  let timestampMs ← field v "timestamp_ms" asU64?
  let content ← field v "content" Value.asStr?
  let tags ← fieldOr v "tags" asStrings? []
  let info ← optField v "meta" some
  let id ← optField v "id" Value.asStr?
  let project ← optField v "project" Value.asStr?
  let provenance ← optField v "provenance" MemoryProvenance.ofValue
  let sensitivity ← optField v "sensitivity" MemorySensitivity.ofValue
  let retention ← optField v "retention" MemoryRetention.ofValue
  some ⟨ns,timestampMs,content,tags,info,id,project,provenance,sensitivity,retention⟩

def TombstoneLine.toValue (t : TombstoneLine) : Value :=
  .object [("tombstone",.string t.tombstone),("timestamp_ms",natValue t.timestampMs.toNat)]

def TombstoneLine.ofValue (v : Value) : Option TombstoneLine := do
  let tombstone ← field v "tombstone" Value.asStr?
  let timestampMs ← field v "timestamp_ms" asU64?
  some ⟨tombstone,timestampMs⟩

def MemoryRecord.text (r : MemoryRecord) : List Char := print r.toValue

def TombstoneLine.text (t : TombstoneLine) : List Char := print t.toValue

def MemoryRecord.fromStr (cs : List Char) : Option MemoryRecord :=
  (D.parse cs).bind MemoryRecord.ofValue

def TombstoneLine.fromStr (cs : List Char) : Option TombstoneLine :=
  (D.parse cs).bind TombstoneLine.ofValue

inductive MemoryError where
  | invalidNamespace (ns : String)
  | contentTooLarge (len max : Nat)
  | io (text : String)
  | notFound (id : String)
  deriving DecidableEq

def maxContentBytes : Nat := 16 * 1024

def validateNamespace (ns : String) : Except MemoryError Unit :=
  if ns.isEmpty || ns.utf8ByteSize > 64 || ns.toList.contains '/' || ns.toList.contains '\\' ||
      decide (['.','.'] <:+: ns.toList) || ns.toList.any Text.isWhitespace then
    .error (.invalidNamespace ns)
  else .ok ()

/-- The bytes an append writes behind a file: a file that does not end in a newline gets one
first, so that a torn line stays alone. -/
def appendedBytes (file : Option (List UInt8)) (line : List Char) : List UInt8 :=
  let bytes := file.getD []
  let needsHeal := !bytes.isEmpty && !Lines.endsWithNewline bytes
  Utf8.encode ((if needsHeal then ['\n'] else []) ++ line ++ ['\n'])

def appendJsonlLine (file : Option (List UInt8)) (line : List Char) : List UInt8 :=
  file.getD [] ++ appendedBytes file line

def checkRecord (record : MemoryRecord) : Except MemoryError Unit := do
  validateNamespace record.ns
  if record.content.utf8ByteSize > maxContentBytes then
    throw (.contentTooLarge record.content.utf8ByteSize maxContentBytes)

def appendTo (file : Option (List UInt8)) (record : MemoryRecord) :
    Except MemoryError (List UInt8) := do
  checkRecord record
  return appendJsonlLine file record.text

structure ProjectScope where
  key : String
  deriving DecidableEq

def ProjectScope.namespaceName (scope : ProjectScope) : String := "project-" ++ scope.key

variable (scope : ProjectScope)

inductive LineKind where
  | tombstone (id : String)
  | record (r : MemoryRecord)
  | garbage
  deriving DecidableEq

def storeKind (line : List Char) : LineKind :=
  match TombstoneLine.fromStr D line with
  | some tomb => .tombstone tomb.tombstone
  | none =>
    match MemoryRecord.fromStr D line with
    | some r => .record r
    | none => .garbage

/-- Records of another scope and records without an id take no part. -/
def inScope (r : MemoryRecord) : Bool := r.project == some scope.key && r.id.isSome

structure LiveScan where
  live : List MemoryRecord
  tombstoned : List String

def LiveScan.line (s : LiveScan) (raw : List UInt8) : LiveScan :=
  match Lines.lineText raw with
  | none => s
  | some line =>
    if Text.trim line = [] then s
    else match storeKind D line with
    | .tombstone id => { s with tombstoned := id :: s.tombstoned }
    | .record r => if inScope scope r then { s with live := s.live ++ [r] } else s
    | .garbage => s

def loadLiveProjectRecords (file : Option (List UInt8)) : Except MemoryError (List MemoryRecord) :=
  match file with
  | none => .ok []
  | some bytes =>
    let s := (Lines.rawLines bytes).foldl (LiveScan.line D scope) ⟨[],[]⟩
    .ok (s.live.filter fun r => r.id.elim false fun id => !s.tombstoned.contains id)

structure ProjectMemoryQuery where
  contentContains : Option String
  tagPrefix : Option String
  sinceMs : Option UInt64
  untilMs : Option UInt64
  limit : Option Nat
  snippetBytes : Option Nat

structure MemoryDescriptor where
  id : String
  project : String
  timestampMs : UInt64
  tags : List String
  snippet : String
  truncated : Bool
  contentBytes : Nat
  sensitivity : MemorySensitivity
  retention : MemoryRetention
  deriving DecidableEq

def maxSearchLimit : Nat := 25

def defaultSearchLimit : Nat := 8

def maxSnippetBytes : Nat := 400

def defaultSnippetBytes : Nat := 160

def tagMatches (tagPrefix : Option String) (tags : List String) : Bool :=
  tagPrefix.all fun p => tags.any fun t => p.toList.isPrefixOf t.toList

def timeMatches (sinceMs untilMs : Option UInt64) (ts : UInt64) : Bool :=
  sinceMs.all (fun since => since ≤ ts) && untilMs.all (fun until' => ts ≤ until')

/-- A substring probe never confirms the content of a secret record. -/
def contentMatches (q : ProjectMemoryQuery) (r : MemoryRecord) : Bool :=
  q.contentContains.all fun needle =>
    !(r.sensitivity == some .secret) &&
      decide (D.toLowercase needle.toList <:+: D.toLowercase r.content.toList)

def MemoryRecord.describe (q : ProjectMemoryQuery) (r : MemoryRecord) : MemoryDescriptor :=
  let snippetBytes := min (q.snippetBytes.getD defaultSnippetBytes) maxSnippetBytes
  let sensitivity := r.sensitivity.getD .normal
  let snippet :=
    if sensitivity = .secret then [] else Text.truncateBytes snippetBytes r.content.toList
  { id := r.id.getD ""
    project := scope.key
    timestampMs := r.timestampMs
    tags := r.tags
    snippet := String.ofList snippet
    truncated := decide (sensitivity ≠ .secret) &&
      decide (Text.byteLen snippet < Text.byteLen r.content.toList)
    contentBytes := r.content.utf8ByteSize
    sensitivity
    retention := r.retention.getD .standard }

def newestFirst (a b : MemoryRecord) : Ordering := compare b.timestampMs.toNat a.timestampMs.toNat

def searchProject (file : Option (List UInt8)) (q : ProjectMemoryQuery) :
    Except MemoryError (List MemoryDescriptor) := do
  let records ← loadLiveProjectRecords D scope file
  let records := records.filter fun r =>
    timeMatches q.sinceMs q.untilMs r.timestampMs && contentMatches D q r &&
      tagMatches q.tagPrefix r.tags
  let limit := min (q.limit.getD defaultSearchLimit) maxSearchLimit
  return ((Comparator.sortBy newestFirst records).take limit).map (MemoryRecord.describe scope q)

def forget (file : Option (List UInt8)) (id : String) (nowMs : UInt64) :
    Except MemoryError (List UInt8) := do
  let live ← loadLiveProjectRecords D scope file
  if live.any (fun r => r.id == some id) then
    return appendJsonlLine file (TombstoneLine.text ⟨id,nowMs⟩)
  else throw (.notFound id)

@[simp] theorem lookup_optEntry (k l : String) (v : Option Value) :
    lookup k (optEntry l v) = if l = k then v else none := by
  cases v with
  | none | some v => simp [optEntry,lookup]

theorem asU64?_natValue (n : UInt64) : asU64? (natValue n.toNat) = some n := by
  have hn : n.toNat < 2^64 := n.toNat_lt
  simp only [asU64?,natValue,asNat?,Option.bind_some,if_pos hn,UInt64.ofNat_toNat]

theorem asU32?_natValue (n : UInt32) : asU32? (natValue n.toNat) = some n := by
  have hn : n.toNat < 2^32 := n.toNat_lt
  simp only [asU32?,natValue,asNat?,Option.bind_some,if_pos hn,UInt32.ofNat_toNat]

theorem asStrings?_stringsValue (ss : List String) : asStrings? (stringsValue ss) = some ss := by
  induction ss with
  | nil => rfl
  | cons s ss ih =>
    simp only [asStrings?,stringsValue,List.map_cons,List.mapM_cons] at ih ⊢
    simp [ih,Value.asStr?]

theorem optField_map {α : Type} {v : Value} {k : String} {read : Value → Option α}
    (write : α → Value) {x : Option α} (hv : v.get? k = x.map write)
    (hread : ∀ a, read (write a) = some a) (hnull : ∀ a, write a ≠ .null) :
    optField v k read = some x := by
  unfold optField
  rw [hv]
  cases x with
  | none => rfl
  | some a =>
    simp only [Option.map_some]
    split
    · rename_i h
      cases h
    · rename_i h
      exact (hnull a (Option.some.inj h)).elim
    · rename_i y _ h
      rw [← Option.some.inj h,hread]
      rfl

theorem MemoryProvenance.ofValue_toValue (p : MemoryProvenance) :
    MemoryProvenance.ofValue p.toValue = some p := by
  have hsource : field p.toValue "source" Value.asStr? = some p.source := rfl
  have hsession : optField p.toValue "session" Value.asStr? = some p.session := by
    refine optField_map .string ?_ (fun _ => rfl) nofun
    simp [toValue,Value.get?,lookup]
  simp [MemoryProvenance.ofValue,hsource,hsession]

theorem MemorySensitivity.ofValue_toValue (x : MemorySensitivity) :
    MemorySensitivity.ofValue x.toValue = some x := by
  cases x <;> rfl

theorem MemoryRetention.ofValue_toValue (x : MemoryRetention) :
    MemoryRetention.ofValue x.toValue = some x := by
  cases x with
  | standard => rfl
  | maxAgeDays days => simp [MemoryRetention.ofValue,MemoryRetention.toValue,asU32?_natValue]

variable (r : MemoryRecord)

theorem MemoryRecord.get?_toValue (k : String) : r.toValue.get? k =
      if k = "namespace" then some (.string r.ns)
      else if k = "timestamp_ms" then some (natValue r.timestampMs.toNat)
      else if k = "content" then some (.string r.content)
      else if k = "tags" then some (stringsValue r.tags)
      else if k = "meta" then r.info
      else if k = "id" then r.id.map .string
      else if k = "project" then r.project.map .string
      else if k = "provenance" then r.provenance.map MemoryProvenance.toValue
      else if k = "sensitivity" then r.sensitivity.map MemorySensitivity.toValue
      else if k = "retention" then r.retention.map MemoryRetention.toValue
      else none := by
  simp only [toValue,Value.get?,lookup_append,lookup_optEntry,lookup]
  by_cases hinfo : k = "meta"
  · subst hinfo
    simp
  · grind

theorem MemoryRecord.ofValue_toValue :
    MemoryRecord.ofValue r.toValue = some { r with info := r.info.filter (· ≠ .null) } := by
  have hget := r.get?_toValue
  have hns : field r.toValue "namespace" Value.asStr? = some r.ns := by
    simp [field,hget,Value.asStr?]
  have hts : field r.toValue "timestamp_ms" asU64? = some r.timestampMs := by
    simp [field,hget,asU64?_natValue]
  have hcontent : field r.toValue "content" Value.asStr? = some r.content := by
    simp [field,hget,Value.asStr?]
  have htags : fieldOr r.toValue "tags" asStrings? [] = some r.tags := by
    simp [fieldOr,hget,asStrings?_stringsValue]
  have hinfo : optField r.toValue "meta" some = some (r.info.filter (· ≠ .null)) := by
    simp only [optField,hget]
    cases r.info with
    | none => rfl
    | some v => cases v <;> rfl
  have hid : optField r.toValue "id" Value.asStr? = some r.id :=
    optField_map .string (by simp [hget]) (fun _ => rfl) (fun _ h => by cases h)
  have hproject : optField r.toValue "project" Value.asStr? = some r.project :=
    optField_map .string (by simp [hget]) (fun _ => rfl) (fun _ h => by cases h)
  have hprovenance : optField r.toValue "provenance" MemoryProvenance.ofValue =
      some r.provenance :=
    optField_map _ (by simp [hget]) MemoryProvenance.ofValue_toValue (fun _ h => by cases h)
  have hsensitivity : optField r.toValue "sensitivity" MemorySensitivity.ofValue =
      some r.sensitivity :=
    optField_map _ (by simp [hget]) MemorySensitivity.ofValue_toValue
      (fun x h => by cases x <;> cases h)
  have hretention : optField r.toValue "retention" MemoryRetention.ofValue = some r.retention :=
    optField_map _ (by simp [hget]) MemoryRetention.ofValue_toValue
      (fun x h => by cases x <;> cases h)
  simp [MemoryRecord.ofValue,hns,hts,hcontent,htags,hinfo,hid,hproject,hprovenance,hsensitivity,
    hretention]

theorem TombstoneLine.ofValue_toValue (t : TombstoneLine) :
    TombstoneLine.ofValue t.toValue = some t := by
  simp [TombstoneLine.ofValue,TombstoneLine.toValue,field,Value.get?,lookup,Value.asStr?,
    asU64?_natValue]

theorem TombstoneLine.ofValue_record : TombstoneLine.ofValue r.toValue = none := by
  simp [TombstoneLine.ofValue,field,r.get?_toValue]

/-- The JSON reader gives back the text of the record, except that its `meta` may come back
changed. -/
def Deps.ReadsBack (D : Deps) (r : MemoryRecord) : Prop :=
  ∃ info, D.parse r.text = some { r with info }.toValue

/-- The JSON reader gives back what the store writes, or rejects it: a record's `meta` may be
nested too deep for it. -/
structure Deps.Reads (D : Deps) : Prop where
  record : ∀ r : MemoryRecord, D.ReadsBack r ∨ D.parse r.text = none
  tombstone : ∀ t : TombstoneLine, D.parse t.text = some t.toValue

inductive Written : List Char → Prop
  | record (r : MemoryRecord) : Written r.text
  | tombstone (t : TombstoneLine) : Written t.text

variable (kvs : List (String × Value))

theorem print_object_plain : Lines.Plain (print (.object kvs)) := by
  intro c hc
  have h := print_printable (.object kvs) c hc
  constructor
  all_goals
    rintro rfl
    exact absurd h (by decide)

theorem trim_print_object : Text.trim (print (.object kvs)) = print (.object kvs) := by
  refine Text.trim_eq_self (c := '{') (d := '}') ?_ (print_object_getLast kvs) rfl rfl
  cases kvs <;> rfl

theorem trim_print_object_newline :
    Text.trim (print (.object kvs) ++ ['\n']) = print (.object kvs) := by
  have htrim := trim_print_object kvs
  have hne := print_ne_nil (.object kvs)
  have hstart : Text.trimStart (print (.object kvs) ++ ['\n']) =
      Text.trimStart (print (.object kvs)) ++ ['\n'] := by
    cases hp : print (.object kvs) with
    | nil => exact (hne hp).elim
    | cons c cs =>
      have hc : c = '{' := by cases kvs <;> simp [print] at hp <;> exact hp.1.symm
      subst hc
      rfl
  rw [Text.trim,hstart,List.rdropWhile_concat_pos _ _ _ (by rfl)]
  exact htrim

variable {l : List Char}

theorem Written.object (h : Written l) : ∃ kvs, l = print (.object kvs) := by
  cases h with
  | record r | tombstone t => exact ⟨_,rfl⟩

theorem Written.plain (h : Written l) : Lines.Plain l := by
  obtain ⟨kvs,rfl⟩ := h.object
  exact print_object_plain kvs

theorem Written.ne_nil (h : Written l) : l ≠ [] := by
  obtain ⟨kvs,rfl⟩ := h.object
  exact print_ne_nil _

theorem Written.trim (h : Written l) : Text.trim l = l := by
  obtain ⟨kvs,rfl⟩ := h.object
  exact trim_print_object kvs

theorem Written.trim_newline (h : Written l) : Text.trim (l ++ ['\n']) = l := by
  obtain ⟨kvs,rfl⟩ := h.object
  exact trim_print_object_newline kvs

variable {D : Deps}

theorem storeKind_record {r : MemoryRecord} (hr : D.ReadsBack r) :
    ∃ info, storeKind D r.text = .record { r with info } ∧
      (D.parse r.text).bind MemoryRecord.ofValue = some { r with info } ∧
      ∃ info', D.parse r.text = some { r with info := info' }.toValue := by
  obtain ⟨info,hparse⟩ := hr
  refine ⟨info.filter (· ≠ .null),?_,?_,info,hparse⟩
  · simp [storeKind,TombstoneLine.fromStr,MemoryRecord.fromStr,hparse,
      TombstoneLine.ofValue_record,MemoryRecord.ofValue_toValue]
  · rw [hparse,Option.bind_some,MemoryRecord.ofValue_toValue]

@[simp] theorem storeKind_tombstone (hD : D.Reads) (t : TombstoneLine) :
    storeKind D t.text = .tombstone t.tombstone := by
  simp [storeKind,TombstoneLine.fromStr,hD.tombstone,TombstoneLine.ofValue_toValue]

theorem storeKind_garbage (h : D.parse l = none) : storeKind D l = .garbage := by
  simp [storeKind,TombstoneLine.fromStr,MemoryRecord.fromStr,h]

def segmentMaxDocs : Nat := 1024

def maxSegments : Nat := 32

def maxTermsPerDoc : Nat := 512

def manifestVersion : Nat := 2

structure SegmentMeta where
  file : String
  docs : Nat
  minTs : UInt64
  maxTs : UInt64
  bytes : Nat
  sha256 : String
  deriving DecidableEq

structure Manifest where
  version : Nat
  indexedBytes : Nat
  segments : List SegmentMeta
  tombstones : List String
  deriving DecidableEq

def Manifest.empty : Manifest := ⟨manifestVersion,0,[],[]⟩

structure SegmentDoc where
  id : String
  ts : UInt64
  tags : List String
  terms : List String
  deriving DecidableEq

def SegmentDoc.toValue (d : SegmentDoc) : Value :=
  .object [("id",.string d.id),("ts",natValue d.ts.toNat),("tags",stringsValue d.tags),
    ("terms",stringsValue d.terms)]

def SegmentDoc.ofValue (v : Value) : Option SegmentDoc := do
  let id ← field v "id" Value.asStr?
  let ts ← field v "ts" asU64?
  let tags ← fieldOr v "tags" asStrings? []
  let terms ← fieldOr v "terms" asStrings? []
  some ⟨id,ts,tags,terms⟩

def SegmentMeta.toValue (m : SegmentMeta) : Value :=
  .object [("file",.string m.file),("docs",natValue m.docs),("min_ts",natValue m.minTs.toNat),
    ("max_ts",natValue m.maxTs.toNat),("bytes",natValue m.bytes),("sha256",.string m.sha256)]

def SegmentMeta.ofValue (v : Value) : Option SegmentMeta := do
  let file ← field v "file" Value.asStr?
  let docs ← field v "docs" asNat?
  let minTs ← field v "min_ts" asU64?
  let maxTs ← field v "max_ts" asU64?
  let bytes ← field v "bytes" asNat?
  let sha256 ← field v "sha256" Value.asStr?
  some ⟨file,docs,minTs,maxTs,bytes,sha256⟩

def Manifest.toValue (m : Manifest) : Value :=
  .object [("version",natValue m.version),("indexed_bytes",natValue m.indexedBytes),
    ("segments",.array (m.segments.map SegmentMeta.toValue)),
    ("tombstones",stringsValue m.tombstones)]

def asSegments? : Value → Option (List SegmentMeta)
  | .array vs => vs.mapM SegmentMeta.ofValue
  | _ => none

def Manifest.ofValue (v : Value) : Option Manifest := do
  let version ← field v "version" asNat?
  let indexedBytes ← field v "indexed_bytes" asNat?
  let segments ← field v "segments" asSegments?
  let tombstones ← field v "tombstones" asStrings?
  some ⟨version,indexedBytes,segments,tombstones⟩

abbrev Dir := AList (fun _ : String => List UInt8)

inductive DirOp where
  | removeDirAll
  | createDir
  | write (file : String) (bytes : List UInt8)
  | remove (file : String)

def DirOp.apply (dir : Option Dir) : DirOp → Option Dir
  | .removeDirAll => none
  | .createDir => some (dir.getD ∅)
  | .write file bytes => some ((dir.getD ∅).insert file bytes)
  | .remove file => dir.map (AList.erase file)

def applyOps (dir : Option Dir) (ops : List DirOp) : Option Dir := ops.foldl DirOp.apply dir

def readFile (dir : Option Dir) (file : String) : Option (List UInt8) := dir.bind (AList.lookup file)

def manifestFile : String := "manifest.json"

variable (D : Deps)

def SegmentDoc.fromStr (cs : List Char) : Option SegmentDoc := (D.parse cs).bind SegmentDoc.ofValue

def Manifest.bytes (m : Manifest) : List UInt8 := Utf8.encode (printPretty 0 m.toValue)

def loadManifest (dir : Option Dir) : Option Manifest := do
  let bytes ← readFile dir manifestFile
  let raw ← Utf8.decode bytes
  let manifest ← (D.parse raw).bind Manifest.ofValue
  if manifest.version ≠ manifestVersion then none else some manifest

def segmentsVerified (dir : Option Dir) (manifest : Manifest) : Bool :=
  manifest.segments.all fun seg =>
    match readFile dir seg.file with
    | none => false
    | some bytes => bytes.length == seg.bytes && D.sha256 bytes == seg.sha256

def insertTerm (t : String) : List String → List String
  | [] => [t]
  | u :: us => if t < u then t :: u :: us else if t = u then u :: us else u :: insertTerm t us

def collectTerms : List (List Char) → List String → List String
  | [],set => set
  | token :: tokens,set =>
    let set := insertTerm (String.ofList (D.toLowercase token)) set
    if set.length ≥ maxTermsPerDoc then set else collectTerms tokens set

def termsOf (content : String) : List String :=
  let tokens := content.toList.splitOnP fun c => !D.isAlphanumeric c
  collectTerms D (tokens.filter fun t => 2 ≤ Text.byteLen t) []

/-- What stops a call: an error it returns, or a panic. -/
inductive Fault where
  | error (e : MemoryError)
  | panic (message : String)
  deriving DecidableEq

def invalidUtf8 : Fault := .error (.io "stream did not contain valid UTF-8")

def noSuchFile : Fault := .error (.io "No such file or directory (os error 2)")

structure SegmentStream where
  lines : List (List UInt8)
  current : Option SegmentDoc

def nextDoc : List (List UInt8) → Except Fault (Option SegmentDoc × List (List UInt8))
  | [] => .ok (none,[])
  | raw :: rest =>
    match Utf8.decode raw with
    | none => .error invalidUtf8
    | some line =>
      if Text.trim line = [] then nextDoc rest
      else match SegmentDoc.fromStr D (Text.trim line) with
      | some doc => .ok (some doc,rest)
      | none => nextDoc rest

def SegmentStream.advance (s : SegmentStream) : Except Fault SegmentStream := do
  let (current,lines) ← nextDoc D s.lines
  return ⟨lines,current⟩

def SegmentStream.openFile (dir : Option Dir) (file : String) : Except Fault SegmentStream :=
  match readFile dir file with
  | none => .error noSuchFile
  | some bytes => SegmentStream.advance D ⟨Lines.rawLines bytes,none⟩

def SegmentStream.drain : Nat → SegmentStream → Except Fault (List SegmentDoc)
  | 0,_ => .ok []
  | fuel + 1,s =>
    match s.current with
    | none => .ok []
    | some doc => do
      let s ← s.advance D
      let docs ← drain fuel s
      return doc :: docs

def readSegment (dir : Option Dir) (file : String) : Except Fault (List SegmentDoc) := do
  let stream ← SegmentStream.openFile D dir file
  stream.drain D (stream.lines.length + 1)

def docCmp (a b : SegmentDoc) : Ordering :=
  (compare b.ts.toNat a.ts.toNat).then (compare b.id a.id)

def chunksFrom {α : Type} (n : Nat) : List α → List α → List (List α)
  | acc,[] => if acc.isEmpty then [] else [acc]
  | acc,x :: xs =>
    if acc.length + 1 ≥ n then (acc ++ [x]) :: chunksFrom n [] xs else chunksFrom n (acc ++ [x]) xs

def chunks {α : Type} (n : Nat) (xs : List α) : List (List α) := chunksFrom n [] xs

def segFile (seq : Nat) : String :=
  let digits := Nat.toDigits 10 seq
  String.ofList (['s','e','g','-'] ++ (List.replicate (6 - digits.length) '0' ++ digits) ++
    ['.','j','s','o','n','l'])

def stripSuffix (suffix cs : List Char) : Option (List Char) :=
  (suffix.reverse.isPrefixOf? cs.reverse).map List.reverse

def parseNumber (cs : List Char) : Option Nat :=
  let digits := if cs.head? = some '+' then cs.tail else cs
  if digits ≠ [] ∧ digits.all Char.isDigit then some (Nat.ofDigitChars 10 digits 0) else none

def segNumber (file : String) : Option Nat := do
  let rest ← ['s','e','g','-'].isPrefixOf? file.toList
  let n ← stripSuffix ['.','j','s','o','n','l'] rest
  parseNumber n

def nextSeg (segments : List SegmentMeta) : Nat :=
  ((segments.filterMap fun s => segNumber s.file).max?.map (· + 1)).getD 0

def SegmentDoc.text (d : SegmentDoc) : List Char := print d.toValue

def segmentBytes (docs : List SegmentDoc) : List UInt8 :=
  Utf8.encode (Lines.terminated (docs.map SegmentDoc.text))

def minTs (docs : List SegmentDoc) : UInt64 := ((docs.map SegmentDoc.ts).min?).getD 0

def maxTs (docs : List SegmentDoc) : UInt64 := ((docs.map SegmentDoc.ts).max?).getD 0

def segmentMeta (seq : Nat) (docs : List SegmentDoc) : SegmentMeta where
  file := segFile seq
  docs := docs.length
  minTs := minTs docs
  maxTs := maxTs docs
  bytes := (segmentBytes docs).length
  sha256 := D.sha256 (segmentBytes docs)

def segmentMetas (seq : Nat) : List (List SegmentDoc) → List SegmentMeta
  | [] => []
  | docs :: rest => segmentMeta D seq docs :: segmentMetas (seq + 1) rest

def segmentWrites (seq : Nat) : List (List SegmentDoc) → List DirOp
  | [] => []
  | docs :: rest => .write (segFile seq) (segmentBytes docs) :: segmentWrites (seq + 1) rest

variable (scope : ProjectScope)

def indexKind (line : List Char) : LineKind :=
  match ((D.parse line).bind (·.get? "tombstone")).bind Value.asStr? with
  | some id => .tombstone id
  | none =>
    match MemoryRecord.fromStr D line with
    | some r => .record r
    | none => .garbage

def docOf (id : String) (r : MemoryRecord) : SegmentDoc where
  id
  ts := r.timestampMs
  tags := r.tags
  terms := if r.sensitivity = some .secret then [] else termsOf D r.content

structure StageScan where
  tombstones : List String
  pending : List SegmentDoc
  consumed : Nat

def StageScan.line (s : StageScan) (trimmed : List Char) : StageScan :=
  if trimmed = [] then s
  else match indexKind D trimmed with
  | .tombstone id =>
    { s with
      tombstones := List.insert id s.tombstones
      pending := s.pending.filter fun doc => doc.id ≠ id }
  | .record r =>
    if r.project = some scope.key then
      match r.id with
      | none => s
      | some id =>
        if s.tombstones.contains id then s
        else { s with pending := s.pending ++ [docOf D id r] }
    else s
  | .garbage => s

def StageScan.lines (s : StageScan) : List (List UInt8) → Except Fault StageScan
  | [] => .ok s
  | raw :: rest =>
    match Utf8.decode raw with
    | none => .error invalidUtf8
    | some line =>
      -- a torn tail is not consumed: a later pass picks it up behind the newline that heals it
      if line.getLast? ≠ some '\n' then .ok s
      else
        let s := { s with consumed := s.consumed + raw.length }
        StageScan.lines (s.line D scope (Text.trim line)) rest

structure IndexStatus where
  segments : Nat
  indexedDocs : Nat
  tombstones : Nat
  deriving DecidableEq

def Manifest.status (m : Manifest) : IndexStatus :=
  ⟨m.segments.length,(m.segments.map SegmentMeta.docs).sum,m.tombstones.length⟩

/-- A run of the staging: the changes to the directory in program order, and how it ends. -/
structure Staging where
  ops : List DirOp
  result : Except Fault Manifest

def writeManifest (m : Manifest) : DirOp := .write manifestFile m.bytes

/-- More than `maxSegments` segments are merged into new ones; tombstones are applied and
cleared. -/
def compactSegments (dir : Option Dir) (manifest : Manifest) (seq : Nat) : Staging :=
  match manifest.segments.mapM fun seg => readSegment D dir seg.file with
  | .error e => ⟨[],.error e⟩
  | .ok docs =>
    let allDocs := Comparator.sortBy docCmp
      (docs.flatten.filter fun doc => !manifest.tombstones.contains doc.id)
    let targetDocs := max ((allDocs.length + (maxSegments / 2 - 1)) / (maxSegments / 2)) segmentMaxDocs
    let compacted := chunks targetDocs allDocs
    let merged := { manifest with segments := segmentMetas D seq compacted, tombstones := [] }
    ⟨segmentWrites seq compacted ++ [writeManifest merged] ++
      manifest.segments.map (fun seg => .remove seg.file),.ok merged⟩

def usableManifest (store : Option (List UInt8)) (dir : Option Dir) : Option Manifest :=
  (loadManifest D dir).filter fun m =>
    m.indexedBytes ≤ (store.getD []).length && segmentsVerified D dir m

def stageFrom (store : Option (List UInt8)) (dir : Option Dir) (manifest : Manifest) : Staging :=
  let bytes := store.getD []
  if bytes.length > manifest.indexedBytes then
    let scan := StageScan.lines D scope ⟨manifest.tombstones,[],manifest.indexedBytes⟩
      (Lines.rawLines (bytes.drop manifest.indexedBytes))
    match scan with
    | .error e => ⟨[.createDir],.error e⟩
    | .ok scan =>
      let staged := (chunks segmentMaxDocs scan.pending).map (Comparator.sortBy docCmp)
      let seq := nextSeg manifest.segments
      let writes := .createDir :: segmentWrites seq staged
      let manifest :=
        { manifest with
          segments := manifest.segments ++ segmentMetas D seq staged
          indexedBytes := scan.consumed
          tombstones := scan.tombstones.mergeSort fun a b => decide (a ≤ b) }
      if manifest.segments.length > maxSegments then
        let compaction := compactSegments D (applyOps dir writes) manifest (seq + staged.length)
        ⟨writes ++ compaction.ops,compaction.result⟩
      else ⟨writes ++ [writeManifest manifest],.ok manifest⟩
  else ⟨[],.ok manifest⟩

def ensureIndex (store : Option (List UInt8)) (dir : Option Dir) : Staging :=
  match usableManifest D store dir with
  | some manifest => stageFrom D scope store dir manifest
  | none =>
    let staging := stageFrom D scope store none Manifest.empty
    { staging with ops := .removeDirAll :: staging.ops }

def ensureIndexIn (store : Option (List UInt8)) (dir : Option Dir) :
    Except Fault IndexStatus × Option Dir :=
  let staging := ensureIndex D scope store dir
  (staging.result.map Manifest.status,applyOps dir staging.ops)

structure PageCursor where
  beforeTs : UInt64
  beforeId : String
  deriving DecidableEq

structure IndexQuery where
  terms : List String
  tagPrefix : Option String
  sinceMs : Option UInt64
  untilMs : Option UInt64
  limit : Option Nat
  cursor : Option PageCursor

structure IndexHit where
  id : String
  timestampMs : UInt64
  tags : List String
  deriving DecidableEq

structure IndexSearchStats where
  docsScanned : Nat
  maxResidentHits : Nat
  segmentsOpen : Nat
  deriving DecidableEq

structure IndexPage where
  hits : List IndexHit
  next : Option PageCursor
  stats : IndexSearchStats
  deriving DecidableEq

def IndexQuery.effectiveLimit (q : IndexQuery) : Nat :=
  max 1 (min (q.limit.getD defaultSearchLimit) maxSearchLimit)

def IndexQuery.wantedTerms (q : IndexQuery) : List String := q.terms.flatMap (termsOf D)

/-- The segment cannot hold a document of the page. -/
def IndexQuery.skips (q : IndexQuery) (seg : SegmentMeta) : Bool :=
  q.sinceMs.any (fun since => seg.maxTs < since) ||
    q.untilMs.any (fun until' => until' < seg.minTs) ||
    q.cursor.any (fun cursor => cursor.beforeTs < seg.minTs)

def PageCursor.admits (cursor : PageCursor) (doc : SegmentDoc) : Bool :=
  doc.ts < cursor.beforeTs || (doc.ts == cursor.beforeTs && decide (doc.id < cursor.beforeId))

/-- The checks on a document that was taken from the merge. -/
def IndexQuery.accepts (q : IndexQuery) (tombstones : List String) (doc : SegmentDoc) : Bool :=
  q.cursor.all (fun cursor => cursor.admits doc) &&
    !tombstones.contains doc.id &&
    timeMatches q.sinceMs q.untilMs doc.ts &&
    tagMatches q.tagPrefix doc.tags &&
    (q.wantedTerms D).all fun t => doc.terms.contains t

structure HeapKey where
  ts : UInt64
  id : String
  stream : Nat
  deriving DecidableEq

def keyCmp (a b : HeapKey) : Ordering := (compare a.ts.toNat b.ts.toNat).then (compare a.id b.id)

def popMax : List HeapKey → Option (HeapKey × List HeapKey)
  | [] => none
  | k :: ks =>
    match popMax ks with
    | none => some (k,[])
    | some (best,rest) =>
      if (keyCmp best k).isLE then some (k,best :: rest) else some (best,k :: rest)

def headKey (i : Nat) (s : SegmentStream) : Option HeapKey :=
  s.current.map fun doc => ⟨doc.ts,doc.id,i⟩

structure MergeState where
  streams : List SegmentStream
  heap : List HeapKey
  hits : List IndexHit
  stats : IndexSearchStats

def SegmentDoc.hit (doc : SegmentDoc) : IndexHit := ⟨doc.id,doc.ts,doc.tags⟩

def IndexHit.cursor (hit : IndexHit) : PageCursor := ⟨hit.timestampMs,hit.id⟩

def heapPanic : Fault := .panic "heap keys always reference a buffered doc"

def mergeLoop (q : IndexQuery) (tombstones : List String) : Nat → MergeState → Except Fault IndexPage
  | 0,st => .ok ⟨st.hits,none,st.stats⟩
  | fuel + 1,st =>
    match popMax st.heap with
    | none => .ok ⟨st.hits,none,st.stats⟩
    | some (key,heap) =>
      match st.streams[key.stream]? with
      | none => .error heapPanic
      | some stream =>
        match stream.current with
        | none => .error heapPanic
        | some doc => do
          let stream ← stream.advance D
          let st :=
            { st with
              streams := st.streams.set key.stream stream
              heap := (headKey key.stream stream).toList ++ heap
              stats := { st.stats with docsScanned := st.stats.docsScanned + 1 } }
          if q.accepts D tombstones doc then
            if st.hits.length = q.effectiveLimit then
              return ⟨st.hits,st.hits.getLast?.map IndexHit.cursor,st.stats⟩
            else
              let hits := st.hits ++ [doc.hit]
              let stats :=
                { st.stats with maxResidentHits := max st.stats.maxResidentHits hits.length }
              mergeLoop q tombstones fuel { st with hits, stats }
          else mergeLoop q tombstones fuel st

def queryIndex (dir : Option Dir) (q : IndexQuery) : Except Fault IndexPage := do
  let manifest := (loadManifest D dir).getD Manifest.empty
  let streams ← (manifest.segments.filter fun seg => !q.skips seg).mapM fun seg =>
    SegmentStream.openFile D dir seg.file
  let heap := ((List.range streams.length).zip streams).filterMap fun s => headKey s.1 s.2
  let fuel := (streams.map fun s => s.lines.length + 1).sum + 1
  mergeLoop D q manifest.tombstones fuel ⟨streams,heap,[],⟨0,0,streams.length⟩⟩

def searchIndex (store : Option (List UInt8)) (dir : Option Dir) (q : IndexQuery) :
    Except Fault IndexPage × Option Dir :=
  let staging := ensureIndex D scope store dir
  let dir := applyOps dir staging.ops
  match staging.result with
  | .error e => (.error e,dir)
  | .ok _ => (queryIndex D dir q,dir)

end Synaps.Memory
