import Synaps.Lib.Outcome
import Synaps.Lib.Runs
import Synaps.Store.Saved

/-!
Session names over a directory of sessions. The check of a new name and the lookup by
name read the header of a snapshot only, while a load also replays the journal, so
names stay unique and are found if every header can be read and no journal append
changes the name.
-/

set_option autoImplicit false

namespace Synaps.Store

open Json List Option

structure SessionInfo where
  id : String
  name : Option String
  deriving DecidableEq

/-- The decoders of header texts, and the names of the chains that load. -/
structure Catalog extends Deps where
  readInfo : List Char → Option SessionInfo
  readLink : List Char → Option (Option String)
  chain : String → Bool

abbrev Dir : Type := String → Files

def Dir.Enumerates (dir : Dir) (order : List String) : Prop :=
  ∀ id, id ∈ order ↔ (dir id).snapshot.isSome

def validateName (name : String) : Except String Unit :=
  if name = "" then .error "name cannot be empty"
  else if 40 < name.utf8ByteSize then
    .error ("invalid name '" ++ name ++ "': must be 40 chars or less")
  else if name.toList.all fun c => ('a' ≤ c && c ≤ 'z') || ('0' ≤ c && c ≤ '9') || c == '-' then
    .ok ()
  else
    .error ("invalid name '" ++ name ++
      "': allowed characters are lowercase letters, digits, and '-'")

inductive NameError where
  | invalid (message : String)
  | taken (name other : String)
  | chainConflict (name : String)
  deriving DecidableEq

inductive RenameError where
  | invalidId
  | invalidName (message : String)
  | notFound
  | live
  | compactedInto (successor : String)
  | nameTaken (other : String)
  | chainConflict
  | io (e : IoError)
  deriving DecidableEq

variable (C : Catalog)

def parseSessionHeader (dir : Dir) (id : String) : Option SessionInfo :=
  (dir id).snapshot.bind fun file => C.readInfo (readSessionHeader file)

def listSessions (dir : Dir) (order : List String) : List SessionInfo :=
  order.filterMap (parseSessionHeader C dir)

def Session.checkName (s : Session) (dir : Dir) (order : List String) (name : String) :
    Except NameError Unit :=
  match validateName name with
  | .error message => .error (.invalid message)
  | .ok () =>
    if s.name = some name then .ok ()
    else
      match (listSessions C dir order).find? fun info => info.name = some name ∧ info.id ≠ s.id with
      | some info => .error (.taken name info.id)
      | none => if C.chain name then .error (.chainConflict name) else .ok ()

def Session.setName (s : Session) (dir : Dir) (order : List String) (name : String) :
    Except NameError Session :=
  (s.checkName C dir order name).map fun _ => { s with name := some name }

def Session.clearName (s : Session) : Session := { s with name := none }

def findSessionByName (dir : Dir) (order : List String) (name : String) :
    Except IoError Session :=
  match (listSessions C dir order).find? fun info => info.name = some name with
  | some info => loadSessionInDir C.toDeps (dir info.id) info.id
  | none => .error (.notFound ("no session named '" ++ name ++ "'"))

def renameLocked (dir : Dir) (order : List String) (id : String) (name : Option String) :
    Except RenameError (Option Session) :=
  match loadSessionInDir C.toDeps (dir id) id with
  | .error e => .error (.io e)
  | .ok session =>
    if session.name = name then .ok none
    else
      let renamed := { session with name := name }
      match name with
      | none => .ok (some renamed)
      | some n =>
        match ((order.filter (· ≠ id)).filterMap (parseSessionHeader C dir)).find?
            fun info => info.name = some n with
        | some info => .error (.nameTaken info.id)
        | none => if C.chain n then .error .chainConflict else .ok (some renamed)

/-- `rename_past_session`; `live` if another process has the lock. -/
def renamePastSession (dir : Dir) (order : List String) (id : String) (name : Option String)
    (live : Bool) : Except RenameError (Option Session) :=
  if id = "" ∨ id.toList.any (fun c => c == '/' || c == '\\') ∨ id.toList.head? = some '.' then
    .error .invalidId
  else
    match (name.map validateName).getD (.ok ()) with
    | .error message => .error (.invalidName message)
    | .ok () =>
      match (dir id).snapshot with
      | none => .error .notFound
      | some file =>
        match C.readLink (readSessionHeader file) with
        | some (some successor) => .error (.compactedInto successor)
        | _ => if live then .error .live else renameLocked C dir order id name

inductive NameOp where
  | setName (s : Session) (name : String) (mode : SessionPersistence) (uuid : String)
  | clearName (s : Session) (mode : SessionPersistence) (uuid : String)
  | rename (id : String) (name : Option String) (live : Bool) (uuid : String)

def NameOp.call (dir : Dir) (order : List String) : NameOp → Option SaveCall
  | .setName s name mode uuid =>
    (s.setName C dir order name).toOption.map fun s => ⟨s,mode,false,uuid⟩
  | .clearName s mode uuid => some ⟨s.clearName,mode,false,uuid⟩
  | .rename id name live uuid =>
    (renamePastSession C dir order id name live).toOption.join.map fun s => ⟨s,.json,true,uuid⟩

/-- The directory after a save; a save that fails writes nothing. -/
def Dir.save (dir : Dir) (c : SaveCall) : Dir :=
  match c.save C.toDeps (dir c.session.id) with
  | .ok (ops,_) => Function.update dir c.session.id (runOps ops (dir c.session.id))
  | .error _ => dir

inductive NameStep (dir : Dir) : NameOp → Dir → Prop
  | save (op : NameOp) (order : List String) (c : SaveCall) (ho : dir.Enumerates order)
      (hc : op.call C dir order = some c) : NameStep dir op (dir.save C c)
  | refuse (op : NameOp) (order : List String) (ho : dir.Enumerates order)
      (hc : op.call C dir order = none) : NameStep dir op dir

def Dir.Empty (dir : Dir) : Prop := ∀ id, dir id = Files.empty

/-- The header of every snapshot that the call can publish decodes. -/
def Readable (c : SaveCall) : Prop :=
  ∀ g, c.Publishes g → C.readInfo (readSessionHeader (snapshotBytes C.toDeps c.session g)) ≠ none

/-- If the call appends to the journal, it keeps the name in the header. -/
def KeepsName (dir : Dir) (c : SaveCall) : Prop :=
  ∀ file st, Appends C.toDeps (dir c.session.id) c.session file st →
    snapshotDue (st.bytes + (deltaBytes C.toDeps c.session st).length) file.length = false →
    ∀ info, parseSessionHeader C dir c.session.id = some info → info.name = c.session.name

/-- The saves of the operation are among `calls`, with headers that decode and names
that no append changes; and a name is set on a session that has its stored name. -/
def HeaderNamed (calls : List SaveCall) (dir : Dir) (op : NameOp) : Prop :=
  (∀ order c, dir.Enumerates order → op.call C dir order = some c →
    c ∈ calls ∧ Readable C c ∧ KeepsName C dir c) ∧
  ∀ s name mode uuid, op = .setName s name mode uuid →
    s.name = (parseSessionHeader C dir s.id).bind SessionInfo.name

/-- A header that decodes gives the id and the name of its session. -/
def Catalog.HeaderSound (calls : List SaveCall) : Prop :=
  ∀ c ∈ calls, ∀ g, c.Publishes g → ∀ info,
    C.readInfo (readSessionHeader (snapshotBytes C.toDeps c.session g)) = some info →
      info = ⟨c.session.id,c.session.name⟩

section

variable {C} {calls : List SaveCall}

variable {name : Option String}

theorem advance_name {cur s : Session} (hc : cur.name = name) (hs : s.name = name) :
    (advance C.toDeps cur s).name = name := by
  unfold advance
  split
  · exact hs
  · exact hc

variable {later : List Session}

theorem foldl_advance_name {cur : Session} (hc : cur.name = name)
    (hl : ∀ s ∈ later, s.name = name) : (later.foldl (advance C.toDeps) cur).name = name := by
  induction later generalizing cur with
  | nil => exact hc
  | cons s later ih =>
    exact ih (advance_name hc (hl s mem_cons_self)) fun t ht => hl t (mem_cons_of_mem _ ht)

theorem foldl_advance_id (later : List Session) (cur : Session) :
    (later.foldl (advance C.toDeps) cur).id = cur.id := by
  induction later generalizing cur with
  | nil => rfl
  | cons s later ih =>
    rw [foldl_cons,ih]
    unfold advance
    split <;> rfl

/-- The files of a saved session: the header shows the name, and so does every save in
the journal. -/
structure Entry (C : Catalog) (calls : List SaveCall) (f : Files) (id : String)
    (name : Option String) (base : SaveCall) (later : List Session) : Prop where
  holds : Holds C.toDeps calls f base later
  id_eq : base.session.id = id
  name_eq : base.session.name = name
  later_eq : ∀ s ∈ later, s.name = name
  header : ∀ file, f.snapshot = some file → C.readInfo (readSessionHeader file) = some ⟨id,name⟩

variable {id : String}

theorem Entry.load (hD : C.Sound calls) {f : Files} {base : SaveCall}
    (h : Entry C calls f id name base later) {t : Session}
    (ht : loadSessionInDir C.toDeps f id = .ok t) : t.id = id ∧ t.name = name := by
  rw [load_holds hD h.holds] at ht
  split at ht
  · cases ht
  · cases ht
  · cases ht
    exact ⟨(foldl_advance_id later _).trans h.id_eq,foldl_advance_name h.name_eq h.later_eq⟩

variable {dir : Dir}

theorem Entry.info {base : SaveCall} (h : Entry C calls (dir id) id name base later) :
    parseSessionHeader C dir id = some ⟨id,name⟩ := by
  obtain ⟨g,-,hs⟩ := Holds.snapshot h.holds
  rw [parseSessionHeader,hs]
  exact h.header _ hs

variable {c : SaveCall}

theorem entry_published (hI : C.HeaderSound calls) {f : Files} (hr : Readable C c)
    (hf : Holds C.toDeps calls f c []) : Entry C calls f c.session.id c.session.name c [] := by
  refine ⟨hf,rfl,rfl,by simp,fun file hfile => ?_⟩
  obtain ⟨g,hg,hs⟩ := Holds.snapshot hf
  obtain rfl := some.inj (hs.symm.trans hfile)
  obtain ⟨info,hinfo⟩ := ne_none_iff_exists'.mp (hr g hg)
  rw [hinfo,hI c hf.base_mem g hg info hinfo]

theorem entry_save (hD : C.Sound calls) (hI : C.HeaderSound calls) (hc : c ∈ calls)
    (hr : Readable C c) (hk : KeepsName C dir c)
    (h : dir c.session.id = Files.empty ∨
      ∃ name base later, Entry C calls (dir c.session.id) c.session.id name base later)
    {ops : List FileOp} {receipt : SaveReceipt}
    (hs : c.save C.toDeps (dir c.session.id) = .ok (ops,receipt)) :
    ∃ base later, Entry C calls (runOps ops (dir c.session.id)) c.session.id c.session.name
      base later := by
  rcases h with h | ⟨name,base,later,h⟩
  · rw [h] at hs ⊢
    exact ⟨c,[],entry_published hI hr (save_empty hc hs).2⟩
  rcases save_holds hD h.holds hc h.id_eq.symm hs with ⟨-,hf⟩ | ⟨⟨n,hn⟩,hf⟩
  · exact ⟨c,[],entry_published hI hr hf⟩
  rcases save_cases C.toDeps hs with ⟨mode,durable,bind,-,-,-,hp⟩ | ⟨file,st,ha,hcase⟩
  · rw [publish_mode C.toDeps hp] at hn
    cases hn
  rcases hcase with ⟨hdue,-,rfl⟩ | ⟨hfull,-⟩
  · have hname : name = c.session.name := hk file st ha hdue ⟨c.session.id,name⟩ h.info
    subst hname
    refine ⟨base,later ++ [c.session],hf,h.id_eq,h.name_eq,?_,h.header⟩
    intro s hmem
    rcases mem_append.mp hmem with hmem | hmem
    · exact h.later_eq s hmem
    · rw [mem_singleton.mp hmem]
  · rw [hfull] at hn
    cases hn

/-- Every session is an entry, and no two headers show one name. -/
structure NamesInv (C : Catalog) (calls : List SaveCall) (dir : Dir) : Prop where
  entry : ∀ id, dir id = Files.empty ∨ ∃ name base later, Entry C calls (dir id) id name base later
  unique : ∀ id id' info info' n, parseSessionHeader C dir id = some info →
    parseSessionHeader C dir id' = some info' → info.name = some n → info'.name = some n → id = id'

variable {info : SessionInfo}

theorem parseSessionHeader_id (h : NamesInv C calls dir)
    (hi : parseSessionHeader C dir id = some info) : info.id = id := by
  rcases h.entry id with he | ⟨name,base,later,he⟩
  · rw [parseSessionHeader,he] at hi
    cases hi
  · cases he.info.symm.trans hi
    rfl

variable {order : List String}

section

variable (ho : dir.Enumerates order) (hi : parseSessionHeader C dir id = some info)

include ho hi

theorem mem_order : id ∈ order := by
  obtain ⟨file,hf,-⟩ := bind_eq_some_iff.mp hi
  exact (ho id).mpr (by rw [hf]; rfl)

theorem mem_listSessions :
    info ∈ listSessions C dir order := mem_filterMap.mpr ⟨id,mem_order ho hi,hi⟩

end

theorem setName_free (ho : dir.Enumerates order) {s s' : Session} {name : String}
    (hs : s.setName C dir order name = .ok s') :
    s' = { s with name := some name } ∧ (s.name = some name ∨
      ∀ id info, parseSessionHeader C dir id = some info → info.name = some name → info.id = s.id) := by
  unfold Session.setName Session.checkName at hs
  split at hs
  · cases hs
  split at hs
  · rename_i hname
    cases hs
    exact ⟨rfl,.inl hname⟩
  · split at hs
    · cases hs
    rename_i hnone
    split at hs
    · cases hs
    · cases hs
      refine ⟨rfl,.inr fun id info hi hn => ?_⟩
      have h := find?_eq_none.mp hnone info (mem_listSessions ho hi)
      simpa [hn] using h

theorem rename_free (ho : dir.Enumerates order) {live : Bool} {s : Session}
    (hs : renamePastSession C dir order id name live = .ok (some s)) :
    (∃ t, loadSessionInDir C.toDeps (dir id) id = .ok t ∧ s = { t with name := name }) ∧
      ∀ n id' info, name = some n → parseSessionHeader C dir id' = some info →
        info.name = some n → id' = id := by
  have hlocked : renameLocked C dir order id name = .ok (some s) := by
    unfold renamePastSession at hs
    split at hs
    · cases hs
    split at hs
    · cases hs
    split at hs
    · cases hs
    split at hs
    · cases hs
    · split at hs
      · cases hs
      · exact hs
  unfold renameLocked at hlocked
  split at hlocked
  · cases hlocked
  rename_i t ht
  split at hlocked
  · cases hlocked
  simp only at hlocked
  split at hlocked
  · cases hlocked
    exact ⟨⟨t,ht,rfl⟩,by rintro n id' info ⟨⟩⟩
  rename_i n
  split at hlocked
  · cases hlocked
  rename_i hnone
  split at hlocked
  · cases hlocked
  · cases hlocked
    refine ⟨⟨t,ht,rfl⟩,?_⟩
    rintro _ id' info ⟨⟩ hi hn
    by_contra hne
    have hmem : info ∈ (order.filter (· ≠ id)).filterMap (parseSessionHeader C dir) :=
      mem_filterMap.mpr ⟨id',mem_filter.mpr ⟨mem_order ho hi,by simpa using hne⟩,hi⟩
    exact find?_eq_none.mp hnone info hmem (by simpa using hn)

theorem call_free (hD : C.Sound calls) (h : NamesInv C calls dir) (ho : dir.Enumerates order)
    {op : NameOp} (hop : HeaderNamed C calls dir op) (hc : op.call C dir order = some c)
    (id : String) (info : SessionInfo) (n : String) (hi : parseSessionHeader C dir id = some info)
    (hn : info.name = some n) (hcn : c.session.name = some n) : id = c.session.id := by
  cases op with
  | setName s name mode uuid =>
    obtain ⟨s',hs,rfl⟩ := map_eq_some_iff.mp hc
    obtain ⟨rfl,hfree⟩ := setName_free ho (Outcome.ok_of_toOption hs)
    obtain rfl : name = n := some.inj hcn
    rcases hfree with hname | hfree
    · have hstored := hop.2 s name mode uuid rfl
      rw [hname] at hstored
      obtain ⟨own,hown,hname'⟩ := bind_eq_some_iff.mp hstored.symm
      exact h.unique id s.id info own name hi hown hn hname'
    · exact (parseSessionHeader_id h hi).symm.trans (hfree id info hi hn)
  | clearName s mode uuid =>
    cases hc
    cases hcn
  | rename rid name live uuid =>
    obtain ⟨s,hs,rfl⟩ := map_eq_some_iff.mp hc
    have hok := Outcome.ok_of_toOption (join_eq_some_iff.mp hs)
    obtain ⟨⟨t,ht,rfl⟩,hfree⟩ := rename_free ho hok
    have hid : t.id = rid := by
      rcases h.entry rid with he | ⟨name',base,later,he⟩
      · rw [he] at ht
        cases ht
      · exact (he.load hD ht).1
    exact (hfree n id info hcn hi hn).trans hid.symm

theorem parseSessionHeader_update {id' : String} {f : Files} (hne : id' ≠ id) :
    parseSessionHeader C (Function.update dir id f) id' = parseSessionHeader C dir id' := by
  unfold parseSessionHeader
  rw [Function.update_of_ne hne]

theorem names_save (hD : C.Sound calls) (hI : C.HeaderSound calls) (h : NamesInv C calls dir)
    (ho : dir.Enumerates order) {op : NameOp} (hop : HeaderNamed C calls dir op)
    (hc : op.call C dir order = some c) : NamesInv C calls (dir.save C c) := by
  obtain ⟨hmem,hr,hk⟩ := hop.1 order c ho hc
  unfold Dir.save
  split
  · rename_i ops receipt hs
    obtain ⟨base,later,he⟩ := entry_save hD hI hmem hr hk (h.entry c.session.id) hs
    have hnew : Entry C calls (Function.update dir c.session.id
        (runOps ops (dir c.session.id)) c.session.id) c.session.id c.session.name base later := by
      rwa [Function.update_self]
    have hfree := call_free hD h ho hop hc
    refine ⟨fun id => ?_,fun id id' info info' n hi hi' hn hn' => ?_⟩
    · by_cases hid : id = c.session.id
      · subst hid
        exact .inr ⟨_,_,_,hnew⟩
      · rw [Function.update_of_ne hid]
        exact h.entry id
    · by_cases hid : id = c.session.id
      · by_cases hid' : id' = c.session.id
        · exact hid.trans hid'.symm
        · subst hid
          cases (Entry.info hnew).symm.trans hi
          rw [parseSessionHeader_update hid'] at hi'
          exact (hfree id' info' n hi' hn' hn).symm
      · rw [parseSessionHeader_update hid] at hi
        by_cases hid' : id' = c.session.id
        · subst hid'
          cases (Entry.info hnew).symm.trans hi'
          exact hfree id info n hi hn hn'
        · rw [parseSessionHeader_update hid'] at hi'
          exact h.unique id id' info info' n hi hi' hn hn'
  · exact h

theorem names_reachable (hD : C.Sound calls) (hI : C.HeaderSound calls)
    (hs : Runs.Reachable Dir.Empty (Runs.Under (NameStep C) (HeaderNamed C calls)) dir) :
    NamesInv C calls dir := by
  refine hs.invariant (NamesInv C calls) ?_ ?_
  · intro dir hempty
    refine ⟨fun id => .inl (hempty id),fun id id' info info' n hi => ?_⟩
    rw [parseSessionHeader,hempty id] at hi
    cases hi
  · rintro a b ha ⟨op,hop,hab⟩
    cases hab with
    | save order c ho hc => exact names_save hD hI ha ho hop hc
    | refuse => exact ha

theorem info_of_load (hD : C.Sound calls) (h : NamesInv C calls dir) {t : Session}
    (ht : loadSessionInDir C.toDeps (dir id) id = .ok t) :
    parseSessionHeader C dir id = some ⟨id,t.name⟩ := by
  rcases h.entry id with he | ⟨name,base,later,he⟩
  · rw [he] at ht
    cases ht
  · rw [(he.load hD ht).2]
    exact he.info

theorem find_named (h : NamesInv C calls dir) (ho : dir.Enumerates order) {n : String}
    (hi : parseSessionHeader C dir id = some ⟨id,some n⟩) :
    findSessionByName C dir order n = loadSessionInDir C.toDeps (dir id) id := by
  unfold findSessionByName
  cases hf : (listSessions C dir order).find? fun info => info.name = some n with
  | none =>
    have hnone := find?_eq_none.mp hf _ (mem_listSessions ho hi)
    simp at hnone
  | some info =>
    have hname : info.name = some n := by simpa using find?_some hf
    obtain ⟨id',-,hi'⟩ := mem_filterMap.mp (mem_of_find?_eq_some hf)
    obtain rfl := h.unique id id' _ info n hi hi' rfl hname
    obtain rfl := parseSessionHeader_id h hi'
    rfl

/-- In a run in which every header decodes and no append changes a name, no two sessions
load with one name, and every name is found. -/
theorem names_unique (hD : C.Sound calls) (hI : C.HeaderSound calls) {dir : Dir}
    (hs : Runs.Reachable Dir.Empty (Runs.Under (NameStep C) (HeaderNamed C calls)) dir) :
    (∀ id id' t t' n, loadSessionInDir C.toDeps (dir id) id = .ok t →
      loadSessionInDir C.toDeps (dir id') id' = .ok t' → t.name = some n → t'.name = some n →
        id = id') ∧
    ∀ id t n order, loadSessionInDir C.toDeps (dir id) id = .ok t → t.name = some n →
      dir.Enumerates order → findSessionByName C dir order n = .ok t := by
  have h := names_reachable hD hI hs
  refine ⟨fun id id' t t' n ht ht' hn hn' => ?_,fun id t n order ht hn ho => ?_⟩
  · exact h.unique id id' _ _ n (info_of_load hD h ht) (info_of_load hD h ht') hn hn'
  · rw [find_named h ho (hn ▸ info_of_load hD h ht),ht]

end

def infoOfValue (v : Value) : Option SessionInfo := do
  let id ← (v.get? "id").bind Value.asStr?
  let _ ← (v.get? "model").bind Value.asStr?
  let _ ← (v.get? "created_at").bind Value.asStr?
  let _ ← (v.get? "updated_at").bind Value.asStr?
  some ⟨id,(v.get? "name").bind Value.asStr?⟩

def sessionA : Session := titled "demo" 0

def sessionB : Session := { sessionA with id := "20240101-000000-efgh" }

def named (s : Session) : Session := { s with name := some "x" }

def unnamedCall : SaveCall := demoCall sessionA 0

def namedCall : SaveCall := demoCall (named sessionA) 1

def otherCall : SaveCall := demoCall (named sessionB) 2

def nameCalls : List SaveCall := [unnamedCall,namedCall,otherCall]

def nameRecords : List JournalRecord :=
  (nameCalls.map fun c => openOf demoWriter c.session (some c.uuid)) ++
    nameCalls.map fun c => metaOf demoWriter c.session

def nameCatalog : Catalog :=
  { listed demoWriter nameCalls nameRecords with
    readInfo := fun t => (parse t).bind infoOfValue
    readLink := fun t => (parse t).map fun v => (v.get? "compacted_into").bind Value.asStr?
    chain := fun _ => false }

theorem nameCalls_messages {s : Session} (hs : s ∈ sessionsOf nameCalls) : s.apiMessages = [] := by
  simp only [sessionsOf,nameCalls,map_cons,map_nil,mem_cons,not_mem_nil,or_false] at hs
  rcases hs with rfl | rfl | rfl <;> rfl

theorem nameCalls_mode : ∀ c ∈ nameCalls, c.mode = .journal := by
  simp [nameCalls,unnamedCall,namedCall,otherCall,demoCall]

theorem nameCatalog_sound : nameCatalog.Sound nameCalls := by
  refine listed_sound demoWriter nameCalls nameRecords ?_ ?_ ?_ ?_ ?_ ?_ ?_
  · intro r hr
    cases hr with
    | openRecord c hc => exact mem_append_left _ (mem_map_of_mem hc)
    | msg s hs i m hm =>
      rw [nameCalls_messages hs] at hm
      cases hm
    | metaRecord s hs =>
      obtain ⟨c,hc,rfl⟩ := mem_map.mp hs
      exact mem_append_right _ (mem_map.mpr ⟨c,hc,rfl⟩)
  · decide +kernel
  · exact nameCalls_mode
  · decide +kernel
  · decide +kernel
  · have hnil : ∀ bytes ∈ Compared (sessionsOf nameCalls), bytes = historyBytes [] := by
      rintro bytes ⟨s,hs,n,hb⟩
      rw [nameCalls_messages hs,take_nil] at hb
      rcases hb with rfl | rfl | rfl <;> rfl
    intro a ha b hb _
    rw [hnil a ha,hnil b hb]
  · decide

def firstCalls : List SaveCall := [unnamedCall,otherCall]

theorem firstCalls_subset : firstCalls ⊆ nameCalls := by simp [firstCalls,nameCalls]

theorem first_info : ∀ c ∈ firstCalls, nameCatalog.readInfo (readSessionHeader
    (snapshotBytes nameCatalog.toDeps c.session (some c.uuid))) =
      some ⟨c.session.id,c.session.name⟩ := by
  decide +kernel

def emptyDir : Dir := fun _ => Files.empty

def unnamedDir : Dir := emptyDir.save nameCatalog unnamedCall

def namedDir : Dir := unnamedDir.save nameCatalog namedCall

variable {dir : Dir} {c : SaveCall} {id : String}

theorem save_other (h : id ≠ c.session.id) : dir.save C c id = dir id := by
  cases hs : c.save C.toDeps (dir c.session.id) with
  | ok r => simp [Dir.save,hs,h]
  | error e => simp [Dir.save,hs]

theorem save_congr {dir' : Dir} (h : dir c.session.id = dir' c.session.id) :
    dir.save C c c.session.id = dir'.save C c c.session.id := by
  cases hs : c.save C.toDeps (dir' c.session.id) with
  | ok r | error e => simp [Dir.save,h,hs]

theorem enumerates_save {order : List String} (h : dir.Enumerates order)
    (hs : (dir.save C c c.session.id).snapshot.isSome) :
    (dir.save C c).Enumerates (c.session.id :: order) := by
  intro id
  by_cases hid : id = c.session.id
  · simp [hid,hs]
  · simp [hid,save_other C hid,h id]

theorem snapshot_of_info {info : SessionInfo} (h : parseSessionHeader C dir id = some info) :
    (dir id).snapshot.isSome := by
  obtain ⟨file,hfile,-⟩ := bind_eq_some_iff.mp h
  exact isSome_of_mem hfile

theorem unnamed_info : parseSessionHeader nameCatalog unnamedDir sessionA.id =
    some ⟨sessionA.id,none⟩ := by
  decide +kernel

theorem named_info : parseSessionHeader nameCatalog namedDir sessionA.id =
    some ⟨sessionA.id,none⟩ := by
  decide +kernel

theorem emptyDir_enumerates : emptyDir.Enumerates [] := by
  intro id
  simp [emptyDir,Files.empty]

theorem unnamed_enumerates : unnamedDir.Enumerates [sessionA.id] :=
  enumerates_save nameCatalog emptyDir_enumerates (snapshot_of_info nameCatalog unnamed_info)

theorem named_enumerates : namedDir.Enumerates [sessionA.id] := by
  have h : namedDir.Enumerates [sessionA.id,sessionA.id] :=
    enumerates_save nameCatalog unnamed_enumerates (snapshot_of_info nameCatalog named_info)
  intro id
  simpa using h id

theorem call_unnamed (h : parseSessionHeader nameCatalog dir sessionA.id = some ⟨sessionA.id,none⟩)
    {s : Session} (hs : s.name = none) (uuid : String) :
    NameOp.call nameCatalog dir [sessionA.id] (.setName s "x" .journal uuid) =
      some ⟨named s,.journal,false,uuid⟩ := by
  have hvalid : validateName "x" = .ok () := by decide
  have hchain : nameCatalog.chain "x" = false := rfl
  simp [NameOp.call,Session.setName,Session.checkName,listSessions,hvalid,hs,h,hchain,Except.map,
    named,Except.toOption]

theorem reach_namedDir : Runs.Reachable Dir.Empty (Runs.Next (NameStep nameCatalog)) namedDir := by
  have h₀ : Runs.Reachable Dir.Empty (Runs.Next (NameStep nameCatalog)) emptyDir := .init fun _ => rfl
  have h₁ : Runs.Reachable Dir.Empty (Runs.Next (NameStep nameCatalog)) unnamedDir :=
    h₀.step ⟨.clearName sessionA .journal (demoUuid 0),.save _ [] unnamedCall emptyDir_enumerates rfl⟩
  exact h₁.step ⟨.setName sessionA "x" .journal (demoUuid 1),
    .save _ _ namedCall unnamed_enumerates (call_unnamed unnamed_info rfl _)⟩

theorem load_named {f : Files}
    (h : (loadSessionInDir nameCatalog.toDeps f id).toOption.map (·.name) = some (some "x")) :
    ∃ t, loadSessionInDir nameCatalog.toDeps f id = .ok t ∧ t.name = some "x" := by
  obtain ⟨t,ht,hn⟩ := map_eq_some_iff.mp h
  exact ⟨t,Outcome.ok_of_toOption ht,hn⟩

theorem load_other (h : dir sessionB.id = Files.empty) :
    ∃ t, loadSessionInDir nameCatalog.toDeps (dir.save nameCatalog otherCall sessionB.id)
      sessionB.id = .ok t ∧ t.name = some "x" := by
  have hsame : dir.save nameCatalog otherCall sessionB.id =
      emptyDir.save nameCatalog otherCall sessionB.id := save_congr nameCatalog h
  rw [hsame]
  exact load_named (by decide +kernel)

/-- A name given by a journal append is not found, and a second session takes it. -/
theorem names_collide : Runs.Reachable Dir.Empty (Runs.Next (NameStep nameCatalog)) namedDir ∧
    (∃ t, loadSessionInDir nameCatalog.toDeps (namedDir sessionA.id) sessionA.id = .ok t ∧
      t.name = some "x") ∧
    findSessionByName nameCatalog namedDir [sessionA.id] "x" =
      .error (.notFound ("no session named '" ++ "x" ++ "'")) ∧
    ∃ dir, NameStep nameCatalog namedDir (.setName sessionB "x" .journal (demoUuid 2)) dir ∧
      ∀ s ∈ [sessionA,sessionB], ∃ t,
        loadSessionInDir nameCatalog.toDeps (dir s.id) s.id = .ok t ∧ t.name = some "x" := by
  have hne : sessionB.id ≠ sessionA.id := by decide
  have hload : ∃ t, loadSessionInDir nameCatalog.toDeps (namedDir sessionA.id) sessionA.id = .ok t ∧
      t.name = some "x" := load_named (by decide +kernel)
  have hfree : namedDir sessionB.id = Files.empty :=
    (save_other nameCatalog hne).trans (save_other nameCatalog hne)
  refine ⟨reach_namedDir,hload,?_,_,
    .save _ _ otherCall named_enumerates (call_unnamed named_info rfl _),?_⟩
  · simp [findSessionByName,listSessions,named_info]
  · intro s hs
    rcases mem_cons.mp hs with rfl | hs
    · rwa [save_other nameCatalog hne.symm]
    · obtain rfl := mem_singleton.mp hs
      exact load_other hfree

theorem first_readable (hc : c ∈ firstCalls) : Readable nameCatalog c := by
  intro g hg
  rcases hg with rfl | ⟨-,hm,-⟩
  · rw [first_info c hc]
    simp
  · rw [nameCalls_mode c (firstCalls_subset hc)] at hm
    cases hm

theorem first_headerSound : nameCatalog.HeaderSound firstCalls := by
  intro c hc g hg info hinfo
  rcases hg with rfl | ⟨-,hm,-⟩
  · exact some.inj (hinfo.symm.trans (first_info c hc))
  · rw [nameCalls_mode c (firstCalls_subset hc)] at hm
    cases hm

theorem keepsName_empty (h : dir c.session.id = Files.empty) : KeepsName nameCatalog dir c := by
  intro file st ha
  have hs := ha.snapshot
  rw [h] at hs
  cases hs

/-- Two sessions, of which the second is named in its first snapshot. -/
theorem names_unique_first : ∃ t, t.name = some "x" ∧
    findSessionByName nameCatalog (unnamedDir.save nameCatalog otherCall)
      [sessionB.id,sessionA.id] "x" = .ok t := by
  have hempty : unnamedDir otherCall.session.id = Files.empty :=
    save_other nameCatalog (by decide)
  have hclear : HeaderNamed nameCatalog firstCalls emptyDir
      (.clearName sessionA .journal (demoUuid 0)) := by
    refine ⟨?_,by rintro s name mode uuid ⟨⟩⟩
    intro order c _ hc
    cases hc
    have hmem : unnamedCall ∈ firstCalls := by simp [firstCalls]
    exact ⟨hmem,first_readable hmem,keepsName_empty rfl⟩
  have hset : HeaderNamed nameCatalog firstCalls unnamedDir (.setName sessionB "x" .journal (demoUuid 2)) := by
    refine ⟨?_,?_⟩
    · intro order c ho hc
      obtain ⟨s,hs,rfl⟩ := map_eq_some_iff.mp hc
      obtain ⟨rfl,-⟩ := setName_free ho (Outcome.ok_of_toOption hs)
      have hmem : otherCall ∈ firstCalls := by simp [firstCalls]
      exact ⟨hmem,first_readable hmem,keepsName_empty hempty⟩
    · rintro s name mode uuid ⟨⟩
      have hb : unnamedDir sessionB.id = Files.empty := hempty
      rw [parseSessionHeader,hb]
      rfl
  have h₀ : Runs.Reachable Dir.Empty
      (Runs.Under (NameStep nameCatalog) (HeaderNamed nameCatalog firstCalls)) emptyDir :=
    .init fun _ => rfl
  have h₁ := h₀.step ⟨_,hclear,.save _ [] unnamedCall emptyDir_enumerates rfl⟩
  have h₂ := h₁.step ⟨_,hset,.save _ _ otherCall unnamed_enumerates
    (call_unnamed unnamed_info rfl _)⟩
  obtain ⟨t,ht,hn⟩ := load_other hempty
  have horder := enumerates_save nameCatalog unnamed_enumerates
    (show (unnamedDir.save nameCatalog otherCall sessionB.id).snapshot.isSome by decide +kernel)
  have hsound := nameCatalog_sound.mono firstCalls_subset
  exact ⟨t,hn,(names_unique hsound first_headerSound h₂).2 _ _ "x" _ ht hn horder⟩

end Synaps.Store
