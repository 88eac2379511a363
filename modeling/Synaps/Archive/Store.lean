import Synaps.Archive.Projection
import Synaps.Lib.Outcome
import Mathlib.Algebra.Order.BigOperators.Group.List

/-!
The archive directory of a scope: numbered slots that each hold one record. The log behind them
only grows, with some of its segments marked dead: slot `i` holds the `i`-th segment or its
tombstone.
-/

set_option autoImplicit false

namespace Synaps.Archive

open Json History
open List hiding lookup

def maxSegments : Nat := 128

def maxStoreBytes : Nat := 256 * 1024 * 1024

def maxFetchMessages : Nat := 128

structure ArchiveRef where
  id : String
  messageCount : Nat
  sourceMessageCount : Nat
  deriving DecidableEq

inductive Body where
  | live (sourceMessageCount : Nat) (messages : List ArchivedMessage) (note : String)
  | tombstone
  deriving DecidableEq

structure Record where
  version : Nat
  scope : String
  logical : String
  id : String
  digest : String
  body : Body
  deriving DecidableEq

def corrupt : ArchiveError := ⟨.invalidData,"invalid archive record"⟩

def notFound : ArchiveError := ⟨.notFound,"archive not available in this scope"⟩

def projectionForgotten : ArchiveError := ⟨.permissionDenied,"archive projection was forgotten"⟩

def Body.toValue : Body → Value
  | .live count messages note => .object [("state",.string "live"),
      ("source_message_count",ofU64 count),
      ("messages",.array (messages.map ArchivedMessage.toValue)),("note",.string note)]
  | .tombstone => .object [("state",.string "tombstone")]

def Record.toValue (r : Record) : Value :=
  .object [("version",ofU64 r.version),("scope",.string r.scope),("logical",.string r.logical),
    ("id",.string r.id),("digest",.string r.digest),("body",r.body.toValue)]

def recordBytes (r : Record) : List UInt8 := Utf8.encode (print r.toValue)

/-- The fields of a struct: none unknown, none twice. -/
def structFields (names : List String) : Value → Option (List (String × Value))
  | .object kvs =>
    if (kvs.map Prod.fst).Nodup ∧ kvs.all (fun e => names.contains e.1) then some kvs else none
  | _ => none

def archivedMessageOf (v : Value) : Option ArchivedMessage := do
  let kvs ← structFields ["source_index","block_indices","message"] v
  let index ← (← lookup "source_index" kvs) |> asU64?
  let blocks ← (← (← lookup "block_indices" kvs).asArray?).mapM asU64?
  let message ← lookup "message" kvs
  some ⟨index,blocks,message⟩

def bodyOf (v : Value) : Option Body := do
  let state ← (← v.get? "state").asStr?
  if state = "live" then
    let kvs ← structFields ["state","source_message_count","messages","note"] v
    let count ← (← lookup "source_message_count" kvs) |> asU64?
    let messages ← (← (← lookup "messages" kvs).asArray?).mapM archivedMessageOf
    let note ← (← lookup "note" kvs).asStr?
    some (.live count messages note)
  else if state = "tombstone" then
    let _ ← structFields ["state"] v
    some .tombstone
  else none

def recordOf (v : Value) : Option Record := do
  let kvs ← structFields ["version","scope","logical","id","digest","body"] v
  let version ← (← lookup "version" kvs) |> asU64?
  let scope ← (← lookup "scope" kvs).asStr?
  let logical ← (← lookup "logical" kvs).asStr?
  let id ← (← lookup "id" kvs).asStr?
  let digest ← (← lookup "digest" kvs).asStr?
  let body ← bodyOf (← lookup "body" kvs)
  some ⟨version,scope,logical,id,digest,body⟩

def readRecord (bytes : List UInt8) : Option Record := do
  let text ← Utf8.decode bytes
  let v ← parse text
  recordOf v

def Record.reference (r : Record) : Except ArchiveError ArchiveRef :=
  match r.body with
  | .live count messages _ => .ok ⟨r.id,messages.length,count⟩
  | .tombstone => .error notFound

abbrev Dir : Type := Nat → Option (List UInt8)

/-- What becomes of a publication: it may fail before or after its rename. -/
inductive Publish where
  | ok
  | errBefore (error : ArchiveError)
  | errAfter (error : ArchiveError)
  deriving DecidableEq

def publish (w : Publish) (slot : Nat) (bytes : List UInt8) (dir : Dir) :
    Dir × Except ArchiveError Unit :=
  match w with
  | .ok => (Function.update dir slot (some bytes),.ok ())
  | .errBefore e => (dir,.error e)
  | .errAfter e => (Function.update dir slot (some bytes),.error e)

def readWith (dir : Dir) (slot remaining : Nat) : Except ArchiveError (Option (List UInt8)) :=
  match dir slot with
  | none => .ok none
  | some bytes =>
    if min remaining maxSegmentBytes < bytes.length then .error corrupt else .ok (some bytes)

def isHexdigit (c : Char) : Bool :=
  ('0' ≤ c && c ≤ '9') || ('a' ≤ c && c ≤ 'f') || ('A' ≤ c && c ≤ 'F')

def isHexDigest (s : String) : Bool := s.utf8ByteSize = 64 && s.toList.all isHexdigit

def isId (id : String) : Bool :=
  id.utf8ByteSize = 32 && id.toList.all fun c => ('0' ≤ c && c ≤ '9') || ('a' ≤ c && c ≤ 'f')

def validateId (id : String) : Except ArchiveError Unit :=
  if isId id then .ok () else .error (invalid "invalid opaque archive id")

def disordered (messages : List ArchivedMessage) : Bool :=
  (messages.zip messages.tail).any fun e => e.2.sourceIndex ≤ e.1.sourceIndex

section Store

variable (D : Deps) (scope : String)

def validateBody (logical digest : String) : Body → Except ArchiveError Unit
  | .tombstone => .ok ()
  | .live count messages note =>
    if maxMessages < messages.length ∨ maxMessages < count ∨ maxNoteBytes < note.utf8ByteSize ∨
        messages.any (fun m => count ≤ m.sourceIndex) ∨ disordered messages then .error corrupt
    else do
      let expected ← projectionDigest D logical count messages
      if expected ≠ digest then .error corrupt else .ok ()

def validateRecord (r : Record) : Except ArchiveError Unit :=
  if r.version ≠ 1 ∨ r.scope ≠ scope ∨ !isHexDigest r.logical ∨ !isId r.id ∨
      !isHexDigest r.digest then .error corrupt
  else validateBody D r.logical r.digest r.body

abbrev Scanned : Type := List (Nat × Record) × Nat

def scanSlot (dir : Dir) (seen : Scanned) (slot : Nat) : Except ArchiveError Scanned := do
  match ← readWith dir slot (maxStoreBytes - seen.2) with
  | none => .ok seen
  | some bytes =>
    match readRecord bytes with
    | none => .error corrupt
    | some r =>
      let _ ← validateRecord D scope r
      if seen.1.any (fun e => e.2.id = r.id || e.2.digest = r.digest) then .error corrupt
      else .ok (seen.1 ++ [(slot,r)],seen.2 + bytes.length)

def scan (dir : Dir) : Except ArchiveError Scanned :=
  (List.range maxSegments).foldlM (scanSlot D scope dir) ([],0)

def newRecord (logical id : String) (p : ArchiveProjection) (seen : Scanned) :
    Except ArchiveError (Nat × Record) :=
  match (List.range maxSegments).find? (fun slot => !seen.1.any fun e => e.1 = slot) with
  | none => .error (invalid "archive segment budget exhausted (tombstones retained)")
  | some slot =>
    let r : Record :=
      ⟨1,scope,logical,id,p.digest,.live p.sourceMessageCount p.messages p.note⟩
    if maxSegmentBytes < (recordBytes r).length then
      .error (invalid "archive JSON serialization failed or exceeded budget")
    else if maxStoreBytes < seen.2 + (recordBytes r).length then
      .error (invalid "archive storage byte budget exhausted")
    else .ok (slot,r)

def sealProjection (logical id : String) (w : Publish) (p : ArchiveProjection) (dir : Dir) :
    Dir × Except ArchiveError (ArchiveRef × String) :=
  match scan D scope dir with
  | .error e => (dir,.error e)
  | .ok seen =>
    match seen.1.find? fun e => e.2.digest = p.digest with
    | some (_,r) =>
      match r.body with
      | .tombstone => (dir,.error projectionForgotten)
      | .live _ _ stored => (dir,r.reference.map (·,stored))
    | none =>
      match newRecord scope logical id p seen with
      | .error e => (dir,.error e)
      | .ok (slot,r) =>
        match publish w slot (recordBytes r) dir with
        | (dir,.error e) => (dir,.error e)
        | (dir,.ok ()) => (dir,r.reference.map (·,p.note))

def sealWithNote (redactor : Option (String → String)) (logical id : String) (w : Publish)
    (messages : List Value) (note : String) (dir : Dir) :
    Dir × Except ArchiveError (ArchiveRef × String) :=
  match projectHashed D redactor logical messages note with
  | .error e => (dir,.error e)
  | .ok p => sealProjection D scope logical id w p dir

def findRecord (records : List (Nat × Record)) (id : String) : Except ArchiveError Record :=
  match records.find? fun e => e.2.id = id with
  | none => .error notFound
  | some e => .ok e.2

def fetchWithProvenance (dir : Dir) (id : String) (start limit : Nat) :
    Except ArchiveError (List ArchivedMessage) := do
  let _ ← validateId id
  if maxFetchMessages < limit then .error (invalid "archive fetch limit exceeds 128")
  else
    let seen ← scan D scope dir
    let r ← findRecord seen.1 id
    match r.body with
    | .live _ messages _ => .ok ((messages.drop start).take limit)
    | .tombstone => .error notFound

def fetch (dir : Dir) (id : String) (start limit : Nat) : Except ArchiveError (List Value) :=
  (fetchWithProvenance D scope dir id start limit).map (·.map ArchivedMessage.message)

def forget (w : Publish) (id : String) (dir : Dir) : Dir × Except ArchiveError Unit :=
  match validateId id, scan D scope dir with
  | .error e, _ => (dir,.error e)
  | .ok (), .error e => (dir,.error e)
  | .ok (), .ok seen =>
    match seen.1.find? fun e => e.2.id = id with
    | none => (dir,.error notFound)
    | some (slot,r) =>
      if r.body = .tombstone then (dir,.ok ())
      else
        let dead : Record := { r with body := .tombstone }
        if maxSegmentBytes < (recordBytes dead).length then
          (dir,.error (invalid "archive JSON serialization failed or exceeded budget"))
        else publish w slot (recordBytes dead) dir

end Store

theorem mapM_map {α β : Type} (f : α → β) (g : β → Option α) (h : ∀ a, g (f a) = some a)
    (l : List α) : (l.map f).mapM g = some l := by
  induction l with
  | nil => rfl
  | cons a l ih => simp [h a,ih]

theorem structFields_object {kvs : List (String × Value)} (h : (kvs.map Prod.fst).Nodup) :
    structFields (kvs.map Prod.fst) (.object kvs) = some kvs := by
  refine if_pos ⟨h,all_eq_true.mpr fun e he => ?_⟩
  exact contains_iff_mem.mpr (mem_map_of_mem he)

theorem archivedMessageOf_toValue (m : ArchivedMessage) : archivedMessageOf m.toValue = some m := by
  have hblocks := mapM_map ofU64 asU64? (fun _ => rfl) m.blockIndices
  have hkeys : ["source_index","block_indices","message"].Nodup := by decide
  have hfields : structFields ["source_index","block_indices","message"] m.toValue = some _ :=
    structFields_object hkeys
  rw [archivedMessageOf,hfields]
  change ((m.blockIndices.map ofU64).mapM asU64?).bind _ = some _
  rw [hblocks]
  rfl

theorem bodyOf_toValue (b : Body) : bodyOf b.toValue = some b := by
  cases b with
  | tombstone => rfl
  | live count messages note =>
    have hmessages := mapM_map ArchivedMessage.toValue archivedMessageOf archivedMessageOf_toValue
      messages
    have hkeys : ["state","source_message_count","messages","note"].Nodup := by decide
    have hfields : structFields ["state","source_message_count","messages","note"]
        (Body.live count messages note).toValue = some _ := structFields_object hkeys
    have hstate : (Body.live count messages note).toValue.get? "state" = some (.string "live") := rfl
    rw [bodyOf,hstate,Option.bind_eq_bind,Option.bind_some,Value.asStr?,Option.bind_eq_bind,
      Option.bind_some,if_pos rfl,hfields]
    change ((messages.map ArchivedMessage.toValue).mapM archivedMessageOf).bind _ = some _
    rw [hmessages]
    rfl

theorem recordOf_toValue (r : Record) : recordOf r.toValue = some r := by
  have hkeys : ["version","scope","logical","id","digest","body"].Nodup := by decide
  have hfields : structFields ["version","scope","logical","id","digest","body"] r.toValue =
    some _ := structFields_object hkeys
  rw [recordOf,hfields]
  change (bodyOf r.body.toValue).bind _ = some _
  rw [bodyOf_toValue]
  rfl

theorem readRecord_recordBytes (r : Record) : readRecord (recordBytes r) = some r := by
  rw [readRecord,recordBytes,Utf8.decode_encode]
  simp only [Option.bind_eq_bind,Option.bind_some,parse_print,recordOf_toValue]

def recordHead (r : Record) : List Char :=
  '{' :: (printString "version" ++ ':' :: (print (ofU64 r.version) ++ ',' ::
    (printString "scope" ++ ':' :: (print (.string r.scope) ++ ',' ::
    (printString "logical" ++ ':' :: (print (.string r.logical) ++ ',' ::
    (printString "id" ++ ':' :: (print (.string r.id) ++ ',' ::
    (printString "digest" ++ ':' :: (print (.string r.digest) ++ ',' ::
    (printString "body" ++ [':'])))))))))))

theorem print_record (r : Record) :
    print r.toValue = recordHead r ++ (print r.body.toValue ++ ['}']) := by
  simp only [Record.toValue,print,printEntries,recordHead,cons_append,append_assoc,nil_append]

theorem length_tombstone_le (r : Record) :
    (recordBytes { r with body := .tombstone }).length ≤ (recordBytes r).length := by
  have hbody : (Utf8.encode (print Body.tombstone.toValue)).length ≤
      (Utf8.encode (print r.body.toValue)).length := by
    cases r.body with
    | tombstone => exact le_refl _
    | live count messages note =>
      have hshort : (Utf8.encode (print Body.tombstone.toValue)).length = 21 := by decide +kernel
      refine hshort.trans_le (le_trans ?_ (Utf8.length_le_encode _))
      simp only [Body.toValue,print,printEntries,length_cons,length_append]
      have hkey : (printString "source_message_count").length = 22 := by decide +kernel
      omega
  have hsum (b : Body) : (recordBytes { r with body := b }).length =
      (Utf8.encode (recordHead r)).length + ((Utf8.encode (print b.toValue)).length +
        (Utf8.encode ['}']).length) := by
    rw [recordBytes,print_record,Utf8.encode_append,Utf8.encode_append,length_append,length_append]
    rfl
  rw [hsum .tombstone,show (recordBytes r).length = _ from hsum r.body]
  exact Nat.add_le_add_left (Nat.add_le_add_right hbody _) _

theorem be64_injective {m n : Nat} (hm : m < 2 ^ 64) (hn : n < 2 ^ 64) (h : be64 m = be64 n) :
    m = n := by
  have hdigits : (range 8).reverse.map (fun i => n / 256 ^ i % 256) =
      (range 8).reverse.map (fun i => m / 256 ^ i % 256) := by
    have hnat := congrArg (map UInt8.toNat) h.symm
    simpa only [be64,map_map,Function.comp_def,UInt8.toNat_ofNat'] using hnat
  simp only [range,range.loop,reverse_cons,reverse_nil,nil_append,
    cons_append,map_cons,map_nil,cons.injEq,and_true,Nat.reducePow] at hdigits hm hn
  omega

theorem length_be64 (n : Nat) : (be64 n).length = 8 := rfl

theorem hashInput_cons_inj {a b : List UInt8} {as bs : List (List UInt8)}
    (ha : a.length < 2 ^ 64) (hb : b.length < 2 ^ 64)
    (h : hashInput (a :: as) = hashInput (b :: bs)) : a = b ∧ hashInput as = hashInput bs := by
  simp only [hashInput,flatMap_cons,append_assoc] at h
  obtain ⟨hlength,h⟩ := append_inj h (by rw [length_be64,length_be64])
  exact append_inj h (be64_injective ha hb hlength)

theorem messagesText_injective {ms ns : List ArchivedMessage}
    (h : messagesText ms = messagesText ns) : ms = ns := by
  have hvalues := Value.array.inj (print_injective h)
  have hread := congrArg (mapM archivedMessageOf) hvalues
  rw [mapM_map _ _ archivedMessageOf_toValue,mapM_map _ _ archivedMessageOf_toValue] at hread
  exact Option.some.inj hread

theorem projectionInput_injective {logical logical' : String} {count count' : Nat}
    {ms ns : List ArchivedMessage} (hl : (bytesOf logical).length < 2 ^ 64)
    (hl' : (bytesOf logical').length < 2 ^ 64) (hcount : count < 2 ^ 64) (hcount' : count' < 2 ^ 64)
    (hm : (Utf8.encode (messagesText ms)).length < 2 ^ 64)
    (hn : (Utf8.encode (messagesText ns)).length < 2 ^ 64)
    (h : projectionInput logical count ms = projectionInput logical' count' ns) :
    logical = logical' ∧ count = count' ∧ ms = ns := by
  obtain ⟨hlogical,h⟩ := hashInput_cons_inj hl hl' h
  obtain ⟨hc,h⟩ := hashInput_cons_inj (by rw [length_be64]; omega) (by rw [length_be64]; omega) h
  obtain ⟨htext,-⟩ := hashInput_cons_inj hm hn h
  exact ⟨String.toList_inj.mp (Utf8.encode_injective hlogical),be64_injective hcount hcount' hc,
    messagesText_injective (Utf8.encode_injective htext)⟩

open Outcome List

/-- The places of messages from `i` on, in order and before `n`. -/
structure Placed (i n : Nat) (messages : List ArchivedMessage) : Prop where
  ordered : (messages.map (·.sourceIndex)).Pairwise (· < ·)
  from_le : ∀ m ∈ messages, i ≤ m.sourceIndex
  lt : ∀ m ∈ messages, m.sourceIndex < n
  length_le : messages.length ≤ n - i

variable {redactor : Option (String → String)}

theorem projectMessages_placed {D : Deps} {messages : List Value} {i : Nat}
    {kept : List ArchivedMessage} (h : projectMessages D redactor i messages = .ok kept) :
    Placed i (i + messages.length) kept := by
  induction messages generalizing i kept with
  | nil =>
    cases h
    exact ⟨by simp,by simp,by simp,by simp⟩
  | cons m messages ih =>
    rw [projectMessages] at h
    obtain ⟨first,-,h⟩ := bind_ok h
    obtain ⟨rest,hrest,h⟩ := bind_ok h
    have hp := ih hrest
    have hlt : ∀ x ∈ rest, x.sourceIndex < i + (m :: messages).length := fun x hx => by
      have := hp.lt x hx
      rw [length_cons]
      omega
    have hlength := hp.length_le
    cases h
    cases first with
    | none =>
      refine ⟨hp.ordered,fun x hx => Nat.le_of_succ_le (hp.from_le x hx),hlt,?_⟩
      simp only [Option.map_none,Option.toList_none,nil_append,length_cons]
      omega
    | some k =>
      simp only [Option.map_some,Option.toList_some,cons_append,nil_append]
      refine ⟨?_,?_,?_,?_⟩
      · refine pairwise_cons.mpr ⟨fun j hj => ?_,hp.ordered⟩
        obtain ⟨x,hx,rfl⟩ := mem_map.mp hj
        exact hp.from_le x hx
      · intro x hx
        rcases mem_cons.mp hx with rfl | hx
        · exact le_refl i
        · exact Nat.le_of_succ_le (hp.from_le x hx)
      · intro x hx
        rcases mem_cons.mp hx with rfl | hx
        · simp only [length_cons]
          omega
        · exact hlt x hx
      · simp only [length_cons]
        omega

/-- What a validator asks of the content of a live record. -/
structure Sealable (D : Deps) (logical digest : String) (count : Nat)
    (messages : List ArchivedMessage) (note : String) : Prop where
  placed : Placed 0 count messages
  count_le : count ≤ maxMessages
  note_le : note.utf8ByteSize ≤ maxNoteBytes
  digest : projectionDigest D logical count messages = .ok digest

theorem projectHashed_sealable {D : Deps} {logical note : String} {messages : List Value}
    {p : ArchiveProjection} (h : projectHashed D redactor logical messages note = .ok p) :
    p.logicalId = logical ∧ Sealable D logical p.digest p.sourceMessageCount p.messages p.note := by
  unfold projectHashed at h
  split at h
  · cases h
  rename_i hlimit
  obtain ⟨_,-,h⟩ := bind_ok h
  obtain ⟨eligible,heligible,h⟩ := bind_ok h
  obtain ⟨digest,hdigest,h⟩ := bind_ok h
  obtain ⟨screened,-,h⟩ := bind_ok h
  split at h
  · cases h
  rename_i hnote
  cases h
  have hplaced := projectMessages_placed heligible
  rw [Nat.zero_add] at hplaced
  exact ⟨rfl,hplaced,Nat.le_of_not_lt fun h => hlimit (.inl h),Nat.le_of_not_lt hnote,hdigest⟩

structure Segment where
  logical : String
  id : String
  digest : String
  count : Nat
  messages : List ArchivedMessage
  note : String
  deriving DecidableEq

def Segment.record (scope : String) (dead : List String) (g : Segment) : Record :=
  ⟨1,scope,g.logical,g.id,g.digest,
    if g.id ∈ dead then .tombstone else .live g.count g.messages g.note⟩

def Segment.reference (g : Segment) : ArchiveRef := ⟨g.id,g.messages.length,g.count⟩

/-- The projection is the one the segment was sealed from, up to its note. -/
structure Segment.Matches (g : Segment) (p : ArchiveProjection) : Prop where
  logical : p.logicalId = g.logical
  count : p.sourceMessageCount = g.count
  messages : p.messages = g.messages

def segmentOf (id : String) (p : ArchiveProjection) : Segment :=
  ⟨p.logicalId,id,p.digest,p.sourceMessageCount,p.messages,p.note⟩

/-- A segment whose live record the validator accepts. -/
structure Segment.Valid (D : Deps) (scope : String) (g : Segment) : Prop where
  logical : isHexDigest g.logical = true
  id : isId g.id = true
  digestHex : isHexDigest g.digest = true
  sealable : Sealable D g.logical g.digest g.count g.messages g.note
  size : (recordBytes (g.record scope [])).length ≤ maxSegmentBytes

def slotBytes (scope : String) (dead : List String) (g : Segment) : List UInt8 :=
  recordBytes (g.record scope dead)

def totalBytes (scope : String) (dead : List String) (written : List Segment) : Nat :=
  (written.map fun g => (slotBytes scope dead g).length).sum

def listing (scope : String) (dead : List String) (written : List Segment) :
    List (Nat × Record) :=
  written.zipIdx.map fun e => (e.2,e.1.record scope dead)

structure Stored (D : Deps) (scope : String) (dir : Dir) (written : List Segment)
    (dead : List String) : Prop where
  dir : ∀ slot, dir slot = written[slot]?.map (slotBytes scope dead)
  length_le : written.length ≤ maxSegments
  size : totalBytes scope dead written ≤ maxStoreBytes
  valid : ∀ g ∈ written, g.Valid D scope
  ids : (written.map (·.id)).Nodup
  digests : (written.map (·.digest)).Nodup

section Scan

variable {D : Deps} {scope : String} {dir : Dir} {written : List Segment} {dead : List String}

theorem record_id (g : Segment) : (g.record scope dead).id = g.id := rfl

theorem record_digest (g : Segment) : (g.record scope dead).digest = g.digest := rfl

theorem length_slotBytes_le (g : Segment) :
    (slotBytes scope dead g).length ≤ (recordBytes (g.record scope [])).length := by
  unfold slotBytes Segment.record
  split
  · exact length_tombstone_le ⟨1,scope,g.logical,g.id,g.digest,.live g.count g.messages g.note⟩
  · exact le_refl _

theorem not_disordered {messages : List ArchivedMessage}
    (h : (messages.map (·.sourceIndex)).Pairwise (· < ·)) : disordered messages = false := by
  induction messages with
  | nil => rfl
  | cons a messages ih =>
    cases messages with
    | nil => rfl
    | cons b messages =>
      rw [map_cons,pairwise_cons] at h
      have hab : a.sourceIndex < b.sourceIndex := h.1 _ (by simp)
      have hrest := ih h.2
      simp only [disordered,tail_cons,zip_cons_cons,any_cons] at hrest ⊢
      rw [hrest,Bool.or_false]
      exact decide_eq_false (by omega)

variable {g : Segment}

theorem Segment.Valid.validate (h : g.Valid D scope) :
    validateRecord D scope (g.record scope dead) = .ok () := by
  have hs := h.sealable
  have hbad : ¬ ((1 : Nat) ≠ 1 ∨ scope ≠ scope ∨ !isHexDigest g.logical ∨ !isId g.id ∨
      !isHexDigest g.digest) := by
    simp [h.logical,h.id,h.digestHex]
  rw [validateRecord,Segment.record,if_neg hbad]
  split
  · rfl
  have hcount := hs.count_le
  have hlength := hs.placed.length_le
  have hnote := hs.note_le
  have hany : g.messages.any (fun m => g.count ≤ m.sourceIndex) = false := by
    rw [any_eq_false]
    intro m hm
    simpa using hs.placed.lt m hm
  have hok : ¬ (maxMessages < g.messages.length ∨ maxMessages < g.count ∨
      maxNoteBytes < g.note.utf8ByteSize ∨
      g.messages.any (fun m => g.count ≤ m.sourceIndex) = true ∨
      disordered g.messages = true) := by
    rw [hany,not_disordered hs.placed.ordered]
    simp only [Bool.false_eq_true,or_false]
    omega
  rw [validateBody,if_neg hok,hs.digest]
  simp [bind,Except.bind]

theorem totalBytes_take_le (k : Nat) :
    totalBytes scope dead (written.take k) ≤ totalBytes scope dead written := by
  have hsplit := congrArg (totalBytes scope dead) (take_append_drop k written)
  rw [← hsplit,totalBytes,totalBytes,map_append,sum_append]
  exact Nat.le_add_right _ _

theorem take_succ_eq {k : Nat} (h : written[k]? = some g) :
    written.take (k+1) = written.take k ++ [g] := by
  rw [take_add_one,h]
  rfl

theorem listing_take_succ {k : Nat} (h : written[k]? = some g) :
    listing scope dead (written.take (k+1)) =
      listing scope dead (written.take k) ++ [(k,g.record scope dead)] := by
  have hk : k < written.length := (List.getElem?_eq_some_iff.mp h).1
  rw [take_succ_eq h,listing,listing,zipIdx_append,map_append]
  simp [length_take,Nat.min_eq_left (Nat.le_of_lt hk)]

theorem mem_listing {e : Nat × Record} (h : e ∈ listing scope dead written) :
    ∃ g ∈ written, e.2 = g.record scope dead := by
  obtain ⟨x,hx,rfl⟩ := mem_map.mp h
  exact ⟨x.1,fst_mem_of_mem_zipIdx hx,rfl⟩

theorem ne_of_nodup_map {f : Segment → String} {k : Nat} (h : (written.map f).Nodup)
    (hk : written[k]? = some g) : ∀ g' ∈ written.take k, f g' ≠ f g := by
  intro g' hg'
  rw [← take_append_drop (k+1) written,take_succ_eq hk,map_append,map_append] at h
  have hleft := (nodup_append.mp h).1
  exact (nodup_append.mp hleft).2.2 _ (mem_map_of_mem hg') _ (by simp)

theorem scanSlot_stored (h : Stored D scope dir written dead) (k : Nat) :
    scanSlot D scope dir (listing scope dead (written.take k),
      totalBytes scope dead (written.take k)) k =
    .ok (listing scope dead (written.take (k+1)),totalBytes scope dead (written.take (k+1))) := by
  unfold scanSlot readWith
  rw [h.dir k]
  cases hk : written[k]? with
  | none =>
    have hlen := getElem?_eq_none_iff.mp hk
    rw [take_of_length_le hlen,take_of_length_le (Nat.le_succ_of_le hlen)]
    rfl
  | some g =>
    have hg := mem_of_getElem? hk
    have htotal : totalBytes scope dead (written.take (k+1)) =
        totalBytes scope dead (written.take k) + (slotBytes scope dead g).length := by
      rw [take_succ_eq hk]
      simp [totalBytes]
    have hfit : ¬ min (maxStoreBytes - totalBytes scope dead (written.take k)) maxSegmentBytes <
        (slotBytes scope dead g).length := by
      have hsum := (totalBytes_take_le (k+1)).trans h.size
      have hone : (slotBytes scope dead g).length ≤ maxSegmentBytes :=
        (length_slotBytes_le g).trans (h.valid g hg).size
      omega
    have hnew : (listing scope dead (written.take k)).any (fun e =>
        e.2.id = (g.record scope dead).id || e.2.digest = (g.record scope dead).digest) = false := by
      rw [any_eq_false]
      intro e he
      obtain ⟨g',hg',hrec⟩ := mem_listing he
      have hid := ne_of_nodup_map h.ids hk g' hg'
      have hdigest := ne_of_nodup_map h.digests hk g' hg'
      simp only [hrec,Segment.record,hid,hdigest,decide_false,Bool.or_self,Bool.false_eq_true,
        not_false_eq_true]
    have hread : readRecord (slotBytes scope dead g) = some (g.record scope dead) :=
      readRecord_recordBytes _
    simp only [Option.map_some,if_neg hfit,hread,bind,Except.bind,(h.valid g hg).validate,hnew,
      Bool.false_eq_true,if_false]
    rw [listing_take_succ hk,htotal]

theorem scan_stored (h : Stored D scope dir written dead) :
    scan D scope dir = .ok (listing scope dead written,totalBytes scope dead written) := by
  have hfold (k : Nat) : (range k).foldlM (scanSlot D scope dir) ([],0) =
      .ok (listing scope dead (written.take k),totalBytes scope dead (written.take k)) := by
    induction k with
    | zero => rfl
    | succ k ih =>
      rw [range_succ,foldlM_append,ih]
      simp only [bind,Except.bind,foldlM_cons,foldlM_nil,scanSlot_stored h k]
      rfl
  have hall := hfold maxSegments
  rwa [take_of_length_le h.length_le] at hall

variable {slot : Nat}

theorem mem_listing_iff {r : Record} : (slot,r) ∈ listing scope dead written ↔
      ∃ g, written[slot]? = some g ∧ r = g.record scope dead := by
  simp only [listing,mem_map,Prod.mk.injEq,Prod.exists,mem_zipIdx_iff_getElem?]
  constructor
  · rintro ⟨g,i,hg,rfl,rfl⟩
    exact ⟨g,hg,rfl⟩
  · rintro ⟨g,hg,rfl⟩
    exact ⟨g,slot,hg,rfl,rfl⟩

variable {F : Segment → String} {f : Record → String}

section

variable (hf : ∀ g : Segment, f (g.record scope dead) = F g)

include hf

theorem map_listing : (listing scope dead written).map (fun e => f e.2) = written.map F := by
  rw [listing,map_map]
  conv_rhs => rw [← zipIdx_map_fst 0 written,map_map]
  exact map_congr_left fun e _ => hf e.1

theorem find_listing (h : (written.map F).Nodup) (hg : written[slot]? = some g) :
    (listing scope dead written).find? (fun e => f e.2 = F g) = some (slot,g.record scope dead) := by
  cases hfind : (listing scope dead written).find? (fun e => f e.2 = F g) with
  | none =>
    have hmiss := find?_eq_none.mp hfind _ (mem_listing_iff.mpr ⟨g,hg,rfl⟩)
    simp [hf] at hmiss
  | some e =>
    obtain ⟨g',hg',hrec⟩ := mem_listing_iff.mp (mem_of_find?_eq_some hfind)
    have hkey : F g' = F g := by
      have hp := find?_some hfind
      rwa [hrec,hf,decide_eq_true_eq] at hp
    have hlt : e.1 < (written.map F).length := by
      rw [length_map]
      exact (List.getElem?_eq_some_iff.mp hg').1
    have hslot : e.1 = slot := (getElem?_inj hlt h).mp (by simp [hg',hg,hkey])
    rw [hslot,hg,Option.some.injEq] at hg'
    rw [← hslot,hg',← hrec]

end

theorem find_listing_none {x : String} (hf : ∀ g : Segment, f (g.record scope dead) = F g)
    (h : ∀ g ∈ written, F g ≠ x) :
    (listing scope dead written).find? (fun e => f e.2 = x) = none := by
  rw [find?_eq_none]
  intro e he
  obtain ⟨g,hg,hrec⟩ := mem_listing he
  rw [hrec,hf,decide_eq_true_eq]
  exact h g hg

theorem free_slot
    (h : (range maxSegments).find? (fun slot =>
      !(listing scope dead written).any fun e => e.1 = slot) = some slot) :
    slot = written.length ∧ written.length < maxSegments := by
  have hany (i : Nat) : ((listing scope dead written).any fun e => e.1 = i) =
      decide (i < written.length) := by
    rw [Bool.eq_iff_iff,any_eq_true,decide_eq_true_eq]
    constructor
    · rintro ⟨e,he,hi⟩
      obtain ⟨g,hg,-⟩ := mem_listing_iff.mp he
      rw [decide_eq_true_eq] at hi
      exact hi ▸ (List.getElem?_eq_some_iff.mp hg).1
    · intro hi
      exact ⟨_,mem_listing_iff.mpr ⟨written[i],getElem?_eq_getElem hi,rfl⟩,by simp⟩
  simp only [hany] at h
  obtain ⟨hfree,hrange,hbefore⟩ := find?_range_eq_some.mp h
  have hge : written.length ≤ slot := by simpa using hfree
  have hle : slot ≤ written.length := by
    by_contra hlt
    have := hbefore written.length (by omega)
    simp at this
  have hslot : slot = written.length := by omega
  exact ⟨hslot,hslot ▸ mem_range.mp hrange⟩

section

variable (h : Stored D scope dir written dead) (hg : written[slot]? = some g)

include h hg

theorem find_digest : (listing scope dead written).find? (fun e => e.2.digest = g.digest) =
      some (slot,g.record scope dead) :=
  find_listing record_digest h.digests hg

theorem find_id : (listing scope dead written).find? (fun e => e.2.id = g.id) =
      some (slot,g.record scope dead) :=
  find_listing record_id h.ids hg

end

theorem body_record (g : Segment) : (g.record scope dead).body =
    if g.id ∈ dead then .tombstone else .live g.count g.messages g.note := rfl

variable {p : ArchiveProjection}

section

variable (h : Stored D scope dir written dead) (hg : g ∈ written)

include h hg

theorem seal_buried (hdead : g.id ∈ dead) (hp : p.digest = g.digest) (logical id : String)
    (w : Publish) :
    sealProjection D scope logical id w p dir = (dir,.error projectionForgotten) := by
  obtain ⟨slot,hslot⟩ := mem_iff_getElem?.mp hg
  have hfind := find_digest h hslot
  simp only [sealProjection,scan_stored h,hp,hfind,body_record,if_pos hdead]

theorem seal_known (hlive : g.id ∉ dead) (hp : p.digest = g.digest) (logical id : String)
    (w : Publish) : sealProjection D scope logical id w p dir = (dir,.ok (g.reference,g.note)) := by
  obtain ⟨slot,hslot⟩ := mem_iff_getElem?.mp hg
  have hfind := find_digest h hslot
  have hbody : (g.record scope dead).body = .live g.count g.messages g.note := by
    rw [body_record,if_neg hlive]
  simp only [sealProjection,scan_stored h,hp,hfind,hbody,Record.reference]
  rfl

end

theorem newRecord_ok {logical id : String} {r : Record} (hid : id ∉ dead)
    (hlogical : p.logicalId = logical)
    (h : newRecord scope logical id p
      (listing scope dead written,totalBytes scope dead written) = .ok (slot,r)) :
    slot = written.length ∧ written.length < maxSegments ∧
      r = (segmentOf id p).record scope dead ∧ (recordBytes r).length ≤ maxSegmentBytes ∧
      totalBytes scope dead written + (recordBytes r).length ≤ maxStoreBytes := by
  unfold newRecord at h
  split at h
  · cases h
  rename_i free hfree
  obtain ⟨hfree,hlt⟩ := free_slot hfree
  dsimp only at h
  split at h
  · cases h
  rename_i hsegment
  split at h
  · cases h
  rename_i hstore
  cases h
  have hrecord : (segmentOf id p).record scope dead = ⟨1,scope,logical,id,p.digest,
      .live p.sourceMessageCount p.messages p.note⟩ := by
    simp [Segment.record,segmentOf,hid,hlogical]
  exact ⟨hfree,hlt,hrecord.symm,Nat.le_of_not_lt hsegment,Nat.le_of_not_lt hstore⟩

section

variable (h : Stored D scope dir written dead)

include h

theorem seal_new {logical id : String} (hnew : ∀ g ∈ written, g.digest ≠ p.digest)
    (hid : id ∉ dead) (hlogical : p.logicalId = logical) (w : Publish) :
    (∃ e, sealProjection D scope logical id w p dir = (dir,.error e)) ∨
    (written.length < maxSegments ∧
      (slotBytes scope dead (segmentOf id p)).length ≤ maxSegmentBytes ∧
      totalBytes scope dead written + (slotBytes scope dead (segmentOf id p)).length ≤ maxStoreBytes ∧
      ∃ result, sealProjection D scope logical id w p dir =
        (Function.update dir written.length (some (slotBytes scope dead (segmentOf id p))),result) ∧
        ∀ r, result = .ok r → r = ((segmentOf id p).reference,p.note)) := by
  have hfind : (listing scope dead written).find? (fun e => e.2.digest = p.digest) = none :=
    find_listing_none record_digest hnew
  simp only [sealProjection,scan_stored h,hfind]
  cases hrecord : newRecord scope logical id p
      (listing scope dead written,totalBytes scope dead written) with
  | error e => exact .inl ⟨e,rfl⟩
  | ok a =>
    obtain ⟨slot,r⟩ := a
    obtain ⟨rfl,hlt,rfl,hsegment,hstore⟩ := newRecord_ok hid hlogical hrecord
    cases w with
    | errBefore e => exact .inl ⟨e,rfl⟩
    | errAfter e =>
      exact .inr ⟨hlt,hsegment,hstore,.error e,rfl,by simp⟩
    | ok =>
      have href : ((segmentOf id p).record scope dead).reference = .ok (segmentOf id p).reference := by
        simp [Record.reference,segmentOf,hid,Segment.reference,Segment.record]
      refine .inr ⟨hlt,hsegment,hstore,.ok ((segmentOf id p).reference,p.note),?_,?_⟩
      · simp only [publish,href]
        rfl
      · intro r hr
        exact (Except.ok.inj hr).symm

theorem forget_live (hslot : written[slot]? = some g) (hlive : g.id ∉ dead) (w : Publish) :
    forget D scope w g.id dir = publish w slot (slotBytes scope (g.id :: dead) g) dir := by
  have hg := mem_of_getElem? hslot
  have hvalid : validateId g.id = .ok () := if_pos (h.valid g hg).id
  have hbytes : recordBytes { g.record scope dead with body := .tombstone } =
      slotBytes scope (g.id :: dead) g := by
    simp [slotBytes,Segment.record]
  have hfit : ¬ maxSegmentBytes < (slotBytes scope (g.id :: dead) g).length :=
    Nat.not_lt.mpr ((length_slotBytes_le g).trans (h.valid g hg).size)
  simp only [forget,hvalid,scan_stored h,find_id h hslot,body_record,if_neg hlive,hbytes,
    if_neg hfit,reduceCtorEq,if_false]

theorem forget_cases (w : Publish) (id : String) : (∃ e, forget D scope w id dir = (dir,.error e)) ∨
    (id ∈ dead ∧ forget D scope w id dir = (dir,.ok ())) ∨
    (∃ slot g result, written[slot]? = some g ∧ g.id = id ∧ id ∉ dead ∧ forget D scope w id dir =
        (Function.update dir slot (some (slotBytes scope (id :: dead) g)),result)) := by
  by_cases hg : ∃ g ∈ written, g.id = id
  · obtain ⟨g,hg,rfl⟩ := hg
    obtain ⟨slot,hslot⟩ := mem_iff_getElem?.mp hg
    by_cases hdead : g.id ∈ dead
    · have hvalid : validateId g.id = .ok () := if_pos (h.valid g hg).id
      refine .inr (.inl ⟨hdead,?_⟩)
      simp only [forget,hvalid,scan_stored h,find_id h hslot,body_record,if_pos hdead,if_true]
    · rw [forget_live h hslot hdead w]
      cases w with
      | errBefore e => exact .inl ⟨e,rfl⟩
      | ok => exact .inr (.inr ⟨slot,g,.ok (),hslot,rfl,hdead,rfl⟩)
      | errAfter e => exact .inr (.inr ⟨slot,g,.error e,hslot,rfl,hdead,rfl⟩)
  · have hfind : (listing scope dead written).find? (fun e => e.2.id = id) = none :=
      find_listing_none record_id fun g hgm hid => hg ⟨g,hgm,hid⟩
    refine .inl ?_
    cases hvalid : validateId id with
    | error e => exact ⟨e,by simp only [forget,hvalid]⟩
    | ok u => exact ⟨notFound,by simp only [forget,hvalid,scan_stored h,hfind]⟩

theorem findRecord_listing (hg : g ∈ written) :
    findRecord (listing scope dead written) g.id = .ok (g.record scope dead) := by
  obtain ⟨slot,hslot⟩ := mem_iff_getElem?.mp hg
  rw [findRecord,find_id h hslot]

theorem fetchWithProvenance_stored (hg : g ∈ written) (start : Nat) {limit : Nat}
    (hlimit : limit ≤ maxFetchMessages) :
    fetchWithProvenance D scope dir g.id start limit =
      if g.id ∈ dead then .error notFound else .ok ((g.messages.drop start).take limit) := by
  have hvalid : validateId g.id = .ok () := if_pos (h.valid g hg).id
  simp only [fetchWithProvenance,hvalid,scan_stored h,findRecord_listing h hg,bind,Except.bind,
    if_neg (Nat.not_lt.mpr hlimit),body_record]
  by_cases hdead : g.id ∈ dead
  · rw [if_pos hdead,if_pos hdead]
  · rw [if_neg hdead,if_neg hdead]

def fetchPages (D : Deps) (scope : String) (dir : Dir) (id : String) :
    Nat → List Nat → Except ArchiveError (List ArchivedMessage)
  | _, [] => .ok []
  | start, size :: sizes => do
    let page ← fetchWithProvenance D scope dir id start size
    let rest ← fetchPages D scope dir id (start + size) sizes
    .ok (page ++ rest)

theorem fetchPages_stored (hg : g ∈ written) (hlive : g.id ∉ dead) {sizes : List Nat}
    (hsizes : ∀ n ∈ sizes, n ≤ maxFetchMessages) (start : Nat) :
    fetchPages D scope dir g.id start sizes = .ok ((g.messages.drop start).take sizes.sum) := by
  induction sizes generalizing start with
  | nil => simp [fetchPages]
  | cons size sizes ih =>
    have hsize := hsizes size (by simp)
    have hrest := ih (fun n hn => hsizes n (by simp [hn])) (start + size)
    rw [fetchPages,fetchWithProvenance_stored h hg start hsize,if_neg hlive]
    simp only [bind,Except.bind,hrest]
    rw [sum_cons,take_add,drop_drop]

end

theorem getElem?_snoc (l : List Segment) (g : Segment) (slot : Nat) :
    (l ++ [g])[slot]? = if slot = l.length then some g else l[slot]? := by
  split
  · rename_i h
    rw [h,getElem?_concat_length]
  rename_i h
  rw [getElem?_append]
  split
  · rfl
  · rw [getElem?_eq_none (by simp; omega),getElem?_eq_none (by omega)]

theorem stored_append (h : Stored D scope dir written dead) (hg : g.Valid D scope)
    (hid : g.id ∉ written.map (·.id)) (hdigest : g.digest ∉ written.map (·.digest))
    (hlt : written.length < maxSegments)
    (hsize : totalBytes scope dead written + (slotBytes scope dead g).length ≤ maxStoreBytes) :
    Stored D scope (Function.update dir written.length (some (slotBytes scope dead g)))
      (written ++ [g]) dead where
  dir slot := by
    rw [Function.update_apply,getElem?_snoc,h.dir slot]
    split
    · rfl
    · rfl
  length_le := by
    rw [length_append]
    exact hlt
  size := by simpa [totalBytes] using hsize
  valid := by
    intro g' hg'
    rcases mem_append.mp hg' with hg' | hg'
    · exact h.valid g' hg'
    · rw [mem_singleton.mp hg']
      exact hg
  ids := by
    rw [map_append,nodup_append]
    exact ⟨h.ids,by simp,fun a ha b hb hab => hid (by simp_all)⟩
  digests := by
    rw [map_append,nodup_append]
    exact ⟨h.digests,by simp,fun a ha b hb hab => hdigest (by simp_all)⟩

theorem slotBytes_cons_ne {id : String} (h : g.id ≠ id) :
    slotBytes scope (id :: dead) g = slotBytes scope dead g := by
  simp [slotBytes,Segment.record,h]

theorem length_slotBytes_cons_le (id : String) (g : Segment) :
    (slotBytes scope (id :: dead) g).length ≤ (slotBytes scope dead g).length := by
  by_cases hid : g.id = id
  · have hle := length_tombstone_le (g.record scope dead)
    simpa [slotBytes,Segment.record,hid] using hle
  · rw [slotBytes_cons_ne hid]

theorem stored_bury (h : Stored D scope dir written dead) (hg : written[slot]? = some g) :
    Stored D scope (Function.update dir slot (some (slotBytes scope (g.id :: dead) g))) written
      (g.id :: dead) where
  dir i := by
    rw [Function.update_apply]
    split
    · rename_i hi
      rw [hi,hg]
      rfl
    · rename_i hi
      rw [h.dir i]
      cases hi' : written[i]? with
      | none => rfl
      | some g' =>
        have hlt : i < (written.map (·.id)).length := by
          rw [length_map]
          exact (List.getElem?_eq_some_iff.mp hi').1
        have hne : g'.id ≠ g.id := fun heq =>
          hi ((getElem?_inj hlt h.ids).mp (by simp [hi',hg,heq]))
        simp only [Option.map_some,slotBytes_cons_ne hne]
  length_le := h.length_le
  size := (sum_le_sum fun g' _ => length_slotBytes_cons_le g.id g').trans h.size
  valid := h.valid
  ids := h.ids
  digests := h.digests

theorem update_ne (h : Stored D scope dir written dead) (slot : Nat) (bytes : List UInt8)
    (hne : written[slot]?.map (slotBytes scope dead) ≠ some bytes) :
    Function.update dir slot (some bytes) ≠ dir := by
  intro heq
  have hslot := congrFun heq slot
  rw [Function.update_self,h.dir slot] at hslot
  exact hne hslot.symm

theorem slotBytes_bury_ne (hlive : g.id ∉ dead) :
    slotBytes scope dead g ≠ slotBytes scope (g.id :: dead) g := by
  intro heq
  have hread := congrArg readRecord heq
  rw [slotBytes,slotBytes,readRecord_recordBytes,readRecord_recordBytes,Option.some.injEq] at hread
  simp [Segment.record,hlive] at hread

end Scan

end Synaps.Archive
