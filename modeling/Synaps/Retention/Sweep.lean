import Synaps.Lib.Folder
import Synaps.Memory.Kinds

/-!
The retention sweep over sessions, memory files with their derived indexes, traces and logs. A
memory file keeps some of its lines in order, and unless it keeps all of them its index is gone;
each pass over the files is a filter.
-/

set_option autoImplicit false

namespace Synaps.Retention

open Json FileName

/-- The code of other libraries the sweep calls besides that of the memory: the reader of
RFC 3339 times, in milliseconds. -/
structure Deps extends Memory.Deps where
  rfc3339Millis : String → Option Int

inductive RetentionError where
  | io
  | unreadableChain (file : String)
  | budgetUnmet (budget remaining protectedChainHeads : Nat)
  deriving DecidableEq

structure Artifact where
  bytes : List UInt8
  mtimeMs : Option Nat
  deriving DecidableEq

def Artifact.len (a : Artifact) : Nat := a.bytes.length

def dirBytes (dir : Memory.Dir) : Nat := (dir.entries.map fun e => e.2.length).sum

/-- The files a sweep works on. A chain file without bytes cannot be read, and the index
directories stand in the order in which the system lists them. -/
structure Roots where
  sessions : Folder String Artifact
  chains : Folder String (Option (List UInt8))
  config : Folder String Artifact
  cache : Folder (List String) Artifact
  memory : Folder String (List UInt8)
  index : AList fun _ : String => Memory.Dir

structure RetentionPolicy where
  maxAgeDays : Option UInt32
  maxDiskBytes : Option Nat

def dayMs : Nat := 86_400_000

structure SweepOutcome where
  deletedFiles : Nat
  freedBytes : Nat
  protectedChainHeads : Nat
  memoryRecordsDropped : Nat
  deriving DecidableEq

def SweepOutcome.zero : SweepOutcome := ⟨0,0,0,0⟩

def SweepOutcome.sawHead (o : SweepOutcome) : SweepOutcome :=
  { o with protectedChainHeads := o.protectedChainHeads + 1 }

def isLog (name : String) : Bool := "synaps.log".toList.isPrefixOf name.toList

def isMemoryFile (name : String) : Bool := extension name = some "jsonl"

variable (D : Deps)

def chainHead (file : Option (List UInt8)) : Option String := do
  let raw ← file
  let text ← Utf8.decode raw
  let value ← D.parse text
  (value.index "head").asStr?

/-- The heads of all chains; one that cannot be told fails the whole call. -/
def chainHeads (r : Roots) : Except RetentionError (List String) :=
  r.chains.entries.mapM fun c =>
    match chainHead D c.2 with
    | some head => .ok head
    | none => .error (.unreadableChain c.1)

def embeddedMs (bytes : List UInt8) : Option Nat := do
  let raw ← Utf8.decode bytes
  let value ← D.parse raw
  let updated ← (value.index "updated_at").asStr?
  let ts ← D.rfc3339Millis updated
  return (max ts 0).toNat

def sessionAgeMs (a : Artifact) : Option Nat := (embeddedMs D a.bytes).or a.mtimeMs

def pairedSessionExtensions : List String := ["journal","turn"]

def snapshotOf (name : String) : String := withExtension name "json"

/-- A journal or turn draft whose snapshot still exists. -/
def isPairedJournal (d : Folder String Artifact) (name : String) : Bool :=
  (extension name).any pairedSessionExtensions.contains && d.has (snapshotOf name)

section

variable {κ : Type} [LinearOrder κ]

def deleteFile (st : Folder κ Artifact × SweepOutcome) (name : κ) :
    Folder κ Artifact × SweepOutcome :=
  (st.1.erase name,
    { st.2 with
      deletedFiles := st.2.deletedFiles + 1
      freedBytes := st.2.freedBytes + (st.1.lookup name).elim 0 Artifact.len })

def deleteOld (cutoff : Nat) (names : List κ) (st : Folder κ Artifact × SweepOutcome) :
    Folder κ Artifact × SweepOutcome :=
  names.foldl (fun st name =>
    if ((st.1.lookup name).bind Artifact.mtimeMs).any (· < cutoff) then deleteFile st name else st) st

end

def deleteSessionArtifact (st : Folder String Artifact × SweepOutcome) (name : String) :
    Folder String Artifact × SweepOutcome :=
  let st := deleteFile st name
  if extension name = some "json" then
    pairedSessionExtensions.foldl (fun st ext =>
      let paired := withExtension name ext
      if st.1.has paired then deleteFile st paired else st) st
  else st

section

variable (heads : List String)

def orphanStep (st : Folder String Artifact × SweepOutcome) (name : String) :
    Folder String Artifact × SweepOutcome :=
  if extension name ≠ some "journal" ∨ st.1.has (snapshotOf name) then st
  else if heads.contains (fileStem name) then (st.1,st.2.sawHead)
  else deleteFile st name

def orphanPass (st : Folder String Artifact × SweepOutcome) : Folder String Artifact × SweepOutcome :=
  st.1.names.foldl (orphanStep heads) st

def ageStep (cutoff : Nat) (st : Folder String Artifact × SweepOutcome) (name : String) :
    Folder String Artifact × SweepOutcome :=
  if isPairedJournal st.1 name then st
  else if heads.contains (fileStem name) then (st.1,st.2.sawHead)
  else match (st.1.lookup name).bind (sessionAgeMs D) with
  | none => st
  | some age => if age < cutoff then deleteSessionArtifact st name else st

def agePass (cutoff : Nat) (st : Folder String Artifact × SweepOutcome) :
    Folder String Artifact × SweepOutcome :=
  st.1.names.foldl (ageStep D heads cutoff) st

end

structure CompactScan where
  tombstoned : List String
  records : List (Option String × Nat × Option Nat × List Char)
  dropped : Nat

def CompactScan.line (s : CompactScan) (line : List Char) : CompactScan :=
  let trimmed := Text.trim line
  if trimmed = [] then s
  else match D.parse trimmed with
  | none => { s with dropped := s.dropped + 1 }
  | some value =>
    match (value.index "tombstone").asStr? with
    | some id => { s with tombstoned := id :: s.tombstoned }
    | none =>
      let ts := ((Memory.asU64? (value.index "timestamp_ms")).getD 0).toNat
      let span := (Memory.asU64? ((value.index "retention").index "max_age_days")).map fun days =>
        days.toNat * dayMs % 2^64
      { s with records := s.records ++ [((value.index "id").asStr?,ts,span,trimmed)] }

/-- The record is forgotten, past its own retention, or older than the cutoff. -/
def expired (tombstoned : List String) (nowMs : Nat) (cutoff : Option Nat)
    (r : Option String × Nat × Option Nat × List Char) : Bool :=
  r.1.any tombstoned.contains ||
    r.2.2.1.any (fun span => min (r.2.1 + span) (2^64 - 1) < nowMs) ||
    cutoff.any fun c => r.2.1 < c

def joinLines (ls : List (List Char)) : List UInt8 :=
  let body := ['\n'].intercalate ls
  Utf8.encode (if body = [] then [] else body ++ ['\n'])

/-- How many records are dropped, and the file after that. -/
def compactMemoryFile (bytes : List UInt8) (nowMs : Nat) (cutoff : Option Nat) :
    Except RetentionError (Nat × List UInt8) :=
  match Utf8.decode bytes with
  | none => .error .io
  | some raw =>
    let s := (Lines.lines raw).foldl (CompactScan.line D) ⟨[],[],0⟩
    let kept := s.records.filter fun r => !expired s.tombstoned nowMs cutoff r
    let dropped := s.dropped + (s.records.length - kept.length)
    .ok (dropped,if dropped > 0 then joinLines (kept.map fun r => r.2.2.2) else bytes)

def memoryPass (nowMs : Nat) (cutoff : Option Nat) :
    List String → Roots → SweepOutcome → Roots × Except RetentionError SweepOutcome
  | [],r,o => (r,.ok o)
  | name :: names,r,o =>
    if isMemoryFile name then
      match compactMemoryFile D ((r.memory.lookup name).getD []) nowMs cutoff with
      | .error e => (r,.error e)
      | .ok (dropped,body) =>
        if dropped > 0 then
          let ns := fileStem name
          memoryPass nowMs cutoff names
            { r with memory := r.memory.set name (some body), index := r.index.erase ns }
            { o with
              memoryRecordsDropped := o.memoryRecordsDropped + dropped
              freedBytes := o.freedBytes + (r.index.lookup ns).elim 0 dirBytes }
        else memoryPass nowMs cutoff names r o
    else memoryPass nowMs cutoff names r o

def totalNow (r : Roots) : Nat :=
  r.sessions.total Artifact.len +
    (r.memory.filter fun name _ => isMemoryFile name).total List.length +
    (r.index.entries.map fun e => dirBytes e.2).sum +
    r.cache.total Artifact.len +
    (r.config.filter fun name _ => isLog name).total Artifact.len

def evictIndexes (budget : Nat) : List String → Roots × SweepOutcome → Roots × SweepOutcome
  | [],st => st
  | ns :: rest,st =>
    if totalNow st.1 ≤ budget then st
    else evictIndexes budget rest
      ({ st.1 with index := st.1.index.erase ns },
        { st.2 with
          freedBytes := st.2.freedBytes + (st.1.index.lookup ns).elim 0 dirBytes
          deletedFiles := st.2.deletedFiles + 1 })

inductive WholeFile where
  | session (name : String)
  | trace (path : List String)
  | log (name : String)
  deriving DecidableEq

structure Candidate where
  age : Nat
  file : WholeFile
  isProtected : Bool
  deriving DecidableEq

def unknownAge : Nat := 2^64 - 1

def candidates (heads : List String) (r : Roots) : List Candidate :=
  let sessions := (r.sessions.entries.filter fun e => !isPairedJournal r.sessions e.1).map fun e =>
    ⟨(sessionAgeMs D e.2).getD unknownAge,.session e.1,heads.contains (fileStem e.1)⟩
  let traces := r.cache.entries.map fun e => ⟨e.2.mtimeMs.getD unknownAge,.trace e.1,false⟩
  let logs := (r.config.entries.filter fun e => isLog e.1).map fun e =>
    ⟨e.2.mtimeMs.getD unknownAge,.log e.1,false⟩
  Comparator.sortBy (fun a b => compare a.age b.age) (sessions ++ (traces ++ logs))

def deleteWhole (st : Roots × SweepOutcome) : WholeFile → Roots × SweepOutcome
  | .session name =>
    let (sessions,o) := deleteFile (st.1.sessions,st.2) name
    ({ st.1 with sessions },o)
  | .trace path =>
    let (cache,o) := deleteFile (st.1.cache,st.2) path
    ({ st.1 with cache },o)
  | .log name =>
    let (config,o) := deleteFile (st.1.config,st.2) name
    ({ st.1 with config },o)

/-- Delete whole files until the total fits, never those of a chain head. -/
def evictFiles (budget : Nat) : List Candidate → Roots × SweepOutcome → Roots × SweepOutcome
  | [],st => st
  | c :: rest,st =>
    if totalNow st.1 ≤ budget then st
    else if c.isProtected then evictFiles budget rest (st.1,st.2.sawHead)
    else evictFiles budget rest (deleteWhole st c.file)

structure LiveLine where
  ts : Nat
  file : String
  id : String
  len : Nat

structure EvictScan where
  tombstoned : List String
  records : List LiveLine

def EvictScan.line (file : String) (s : EvictScan) (line : List Char) : EvictScan :=
  match D.parse (Text.trim line) with
  | none => s
  | some value =>
    match (value.index "tombstone").asStr? with
    | some id => { s with tombstoned := id :: s.tombstoned }
    | none =>
      match (value.index "id").asStr? with
      | none => s
      | some id =>
        let ts := ((Memory.asU64? (value.index "timestamp_ms")).getD 0).toNat
        { s with records := s.records ++ [⟨ts,file,id,Text.byteLen line + 1⟩] }

def liveLines (file : String) (bytes : List UInt8) : Except RetentionError (List LiveLine) :=
  match Utf8.decode bytes with
  | none => .error .io
  | some raw =>
    let s := (Lines.lines raw).foldl (EvictScan.line D file) ⟨[],[]⟩
    .ok (s.records.filter fun l => !s.tombstoned.contains l.id)

def chooseVictims (bytesToFree : Nat) : Nat → List LiveLine → List LiveLine
  | _,[] => []
  | freed,l :: ls =>
    if bytesToFree ≤ freed then [] else l :: chooseVictims bytesToFree (freed + l.len) ls

def spares (ids : List String) (line : List Char) : Bool :=
  match D.parse (Text.trim line) with
  | none => false
  | some value =>
    match (value.index "id").asStr? with
    | some id => !ids.contains id
    | none => (value.index "tombstone").asStr?.all fun id => !ids.contains id

def withoutVictims (victims : List LiveLine) (name : String) (bytes : List UInt8) : List UInt8 :=
  let ids := (victims.filter fun l => l.file = name).map LiveLine.id
  if ids = [] then bytes
  else joinLines ((Lines.lines ((Utf8.decode bytes).getD [])).filter (spares D ids))

def evictOldestMemoryRecords (r : Roots) (bytesToFree : Nat) :
    Except RetentionError (Roots × Nat) := do
  let live ← (r.memory.entries.filter fun e => isMemoryFile e.1).mapM fun e => liveLines D e.1 e.2
  let oldest := Comparator.sortBy (fun a b : LiveLine => compare a.ts b.ts) live.flatten
  let victims := chooseVictims bytesToFree 0 oldest
  return ({ r with memory := r.memory.mapValues (withoutVictims D victims) },victims.length)

def budgetPass (heads : List String) (budget : Nat) (r : Roots) (o : SweepOutcome) :
    Roots × Except RetentionError SweepOutcome :=
  let st := (r,o)
  let st := if budget < totalNow st.1 then evictIndexes budget (st.1.index.entries.map Sigma.fst) st
    else st
  let st := if budget < totalNow st.1 then evictFiles budget (candidates D heads st.1) st else st
  let evicted :=
    if budget < totalNow st.1 then evictOldestMemoryRecords D st.1 (totalNow st.1 - budget)
    else .ok (st.1,0)
  match evicted with
  | .error e => (st.1,.error e)
  | .ok (r,dropped) =>
    if budget < totalNow r then (r,.error (.budgetUnmet budget (totalNow r) heads.length))
    else (r,.ok { st.2 with memoryRecordsDropped := st.2.memoryRecordsDropped + dropped })

def ageCutoff (policy : RetentionPolicy) (nowMs : Nat) : Option Nat :=
  policy.maxAgeDays.map fun days => nowMs - days.toNat * dayMs

def filePasses (heads : List String) (cutoff : Option Nat) (r : Roots) : Roots × SweepOutcome :=
  let (sessions,o) := orphanPass heads (r.sessions,SweepOutcome.zero)
  match cutoff with
  | none => ({ r with sessions },o)
  | some cutoff =>
    let (sessions,o) := agePass D heads cutoff (sessions,o)
    let (cache,o) := deleteOld cutoff r.cache.names (r.cache,o)
    let (config,o) := deleteOld cutoff (r.config.names.filter isLog) (r.config,o)
    ({ r with sessions, cache, config },o)

def sweepAt (r : Roots) (policy : RetentionPolicy) (nowMs : Nat) :
    Roots × Except RetentionError SweepOutcome :=
  match chainHeads D r with
  | .error e => (r,.error e)
  | .ok heads =>
    let cutoff := ageCutoff policy nowMs
    let (r,o) := filePasses D heads cutoff r
    match memoryPass D nowMs cutoff r.memory.names r o with
    | (r,.error e) => (r,.error e)
    | (r,.ok o) =>
      match policy.maxDiskBytes with
      | none => (r,.ok o)
      | some budget => budgetPass D heads budget r o

theorem sweepAt_error {r : Roots} {policy : RetentionPolicy} {nowMs : Nat} {e : RetentionError}
    (h : chainHeads D r = .error e) : sweepAt D r policy nowMs = (r,.error e) := by
  rw [sweepAt,h]

theorem sweepAt_ok {r : Roots} {policy : RetentionPolicy} {nowMs : Nat} {heads : List String}
    (h : chainHeads D r = .ok heads) :
    sweepAt D r policy nowMs =
      let st := filePasses D heads (ageCutoff policy nowMs) r
      let st' := memoryPass D nowMs (ageCutoff policy nowMs) st.1.memory.names st.1 st.2
      match st'.2 with
      | .error e => (st'.1,.error e)
      | .ok o =>
        match policy.maxDiskBytes with
        | none => (st'.1,.ok o)
        | some budget => budgetPass D heads budget st'.1 o := by
  simp only [sweepAt,h]
  generalize filePasses D heads (ageCutoff policy nowMs) r = st
  generalize memoryPass D nowMs (ageCutoff policy nowMs) st.1.memory.names st.1 st.2 = st'
  obtain ⟨r',result⟩ := st'
  cases result with
  | error e | ok o => rfl

open Memory List

/-- Lines as the store writes them: nothing to trim, and not empty. -/
def Tidy (ls : List (List Char)) : Prop :=
  ∀ l ∈ ls, Lines.Plain l ∧ Text.trim l = l ∧ l ≠ []

variable {ls : List (List Char)}

theorem Tidy.sublist {ls' : List (List Char)} (h : Tidy ls) (hsub : ls'.Sublist ls) : Tidy ls' :=
  fun l hl => h l (hsub.subset hl)

def memoryFile (ns : String) : String := ns ++ "." ++ "jsonl"

def Trims (ns : String) (r r' : Roots) : Prop :=
  ∀ ls, Tidy ls → (r.memory.lookup (memoryFile ns)).getD [] = fileBytes ls [] →
    ∃ ls', ls'.Sublist ls ∧ (r'.memory.lookup (memoryFile ns)).getD [] = fileBytes ls' [] ∧
      (r'.index.lookup ns = none ∨ r'.index.lookup ns = r.index.lookup ns ∧ ls' = ls)

variable {ns : String}

variable {r r' : Roots}

theorem Trims.of_eq (hmemory : r'.memory.lookup (memoryFile ns) = r.memory.lookup (memoryFile ns))
    (hindex : r'.index.lookup ns = none ∨ r'.index.lookup ns = r.index.lookup ns) : Trims ns r r' :=
  fun ls _ hls => ⟨ls,.refl _,by rw [hmemory,hls],hindex.imp_right fun h => ⟨h,rfl⟩⟩

theorem Trims.trans {r'' : Roots} (h : Trims ns r r') (h' : Trims ns r' r'') : Trims ns r r'' := by
  intro ls htidy hls
  obtain ⟨ls',hsub,hls',hindex⟩ := h ls htidy hls
  obtain ⟨ls'',hsub',hls'',hindex'⟩ := h' ls' (htidy.sublist hsub) hls'
  refine ⟨ls'',hsub'.trans hsub,hls'',?_⟩
  rcases hindex' with hnone | ⟨hsame,rfl⟩
  · exact .inl hnone
  · rw [hsame]
    exact hindex

section

variable (budget : Nat) (names : List String) (st : Roots × SweepOutcome)

end

theorem evictIndexes_over {budget : Nat} {names : List String} {st : Roots × SweepOutcome}
    (hover : budget < totalNow (evictIndexes budget names st).1)
    (hnames : (st.1.index.lookup ns).isSome → ns ∈ names) :
    (evictIndexes budget names st).1.index.lookup ns = none := by
  induction names generalizing st with
  | nil =>
    rw [Option.eq_none_iff_forall_ne_some]
    exact fun dir hdir => not_mem_nil (hnames (by
      rw [show st.1.index.lookup ns = some dir from hdir]
      rfl))
  | cons ns' names ih =>
    rw [evictIndexes] at hover ⊢
    split at hover
    · omega
    rename_i hfits
    rw [if_neg hfits]
    refine ih hover fun hsome => ?_
    by_cases hns : ns = ns'
    · rw [hns,AList.lookup_erase] at hsome
      cases hsome
    · rw [AList.lookup_erase_ne hns] at hsome
      exact (mem_cons.mp (hnames hsome)).resolve_left hns

section

variable {bytesToFree dropped : Nat}
  (h : evictOldestMemoryRecords D r bytesToFree = .ok (r',dropped))

include bytesToFree dropped h

theorem evictOldest_memory :
    ∃ victims, r' = { r with memory := r.memory.mapValues (withoutVictims D victims) } := by
  unfold evictOldestMemoryRecords at h
  cases hlive : (r.memory.entries.filter fun e => isMemoryFile e.1).mapM fun e =>
      liveLines D e.1 e.2 with
  | error e =>
    rw [hlive] at h
    cases h
  | ok live =>
    rw [hlive] at h
    exact ⟨_,(congrArg Prod.fst (Except.ok.inj h)).symm⟩

end

open Bool

variable (D : Deps) (heads : List String)

def orphaned (d : Folder String Artifact) (name : String) : Bool :=
  decide (extension name = some "journal") && !d.has (snapshotOf name) &&
    !heads.contains (fileStem name)

/-- A file that goes by its own age: not with a snapshot, and of no chain head. -/
def outdated (cutoff : Nat) (d : Folder String Artifact) (name : String) : Bool :=
  !isPairedJournal d name && !heads.contains (fileStem name) &&
    ((d.lookup name).bind (sessionAgeMs D)).any (· < cutoff)

def alongside (name other : String) : Bool :=
  decide (other = name) || decide (extension name = some "json") &&
    pairedSessionExtensions.any fun ext => decide (other = withExtension name ext)

variable {ext name : String}

theorem extension_snapshotOf (h : extension name = some ext) :
    extension (snapshotOf name) = some "json" :=
  extension_withExtension h (by decide) (by decide)

theorem fileStem_snapshotOf (h : extension name = some ext) :
    fileStem (snapshotOf name) = fileStem name :=
  fileStem_withExtension h (by decide) (by decide)

theorem orphanStep_fst (d : Folder String Artifact) (seen : List String)
    (st : Folder String Artifact × SweepOutcome) (name : String)
    (hst : st.1 = d.filter fun k _ => !seen.any fun n => orphaned heads d n && decide (k = n)) :
    (orphanStep heads st name).1 =
      st.1.filter fun k _ => !(orphaned heads d name && decide (k = name)) := by
  have hkeep (hno : orphaned heads d name = false) :
      st.1 = st.1.filter fun k _ => !(orphaned heads d name && decide (k = name)) :=
    (Folder.filter_true fun _ _ _ => by rw [hno]; rfl).symm
  unfold orphanStep
  by_cases hext : extension name = some "journal"
  · -- a pass over journals removes no snapshot
    have hsnap : st.1.has (snapshotOf name) = d.has (snapshotOf name) := by
      have hno : (seen.any fun n => orphaned heads d n && decide (snapshotOf name = n)) = false := by
        refine any_eq_false.mpr fun n _ hn => ?_
        obtain ⟨horph,heq⟩ := and_eq_true_iff.mp hn
        have hjson := extension_snapshotOf hext
        rw [of_decide_eq_true heq] at hjson
        simp [orphaned,hjson] at horph
      rw [hst,Folder.has_filter,hno,Bool.not_false,Bool.and_true]
    rw [hsnap]
    by_cases hhas : d.has (snapshotOf name) = true
    · rw [if_pos (.inr hhas)]
      exact hkeep (by simp [orphaned,hhas])
    rw [if_neg (by simp [hext,hhas])]
    by_cases hhead : heads.contains (fileStem name) = true
    · rw [if_pos hhead]
      exact hkeep (by simp only [orphaned,hhead,Bool.not_true,Bool.and_false])
    rw [if_neg hhead]
    have horph : orphaned heads d name = true := by
      simp only [not_eq_true] at hhas hhead
      simp only [orphaned,hext,hhas,hhead]
      rfl
    simp only [deleteFile,horph,Bool.true_and]
    exact Folder.erase_eq_filter _ _
  · rw [if_pos (.inl hext)]
    exact hkeep (by simp [orphaned,hext])

theorem orphanPass_fst (d : Folder String Artifact) (o : SweepOutcome) :
    (orphanPass heads (d,o)).1 = d.filter fun k _ => !orphaned heads d k := by
  rw [orphanPass,Folder.foldl_filter (orphanStep_fst heads d)]
  refine Folder.filter_congr fun k v hk => ?_
  have hname : k ∈ d.names := by
    rw [← Folder.has_iff,Folder.has,hk]
    rfl
  congr 1
  rw [Bool.eq_iff_iff,any_eq_true]
  constructor
  · rintro ⟨n,-,hn⟩
    obtain ⟨horph,heq⟩ := and_eq_true_iff.mp hn
    exact of_decide_eq_true heq ▸ horph
  · exact fun horph => ⟨k,hname,by simp [horph]⟩

theorem deleteSessionArtifact_fst (st : Folder String Artifact × SweepOutcome) (name : String) :
    (deleteSessionArtifact st name).1 = st.1.filter fun k _ => !alongside name k := by
  have hpair (st : Folder String Artifact × SweepOutcome) (ext : String) :
      (if st.1.has (withExtension name ext) then deleteFile st (withExtension name ext) else st).1 =
        st.1.erase (withExtension name ext) := by
    split
    · rfl
    rename_i hno
    refine (Folder.filter_true fun k v hk => ?_).symm
    refine decide_eq_true fun heq => hno ?_
    rw [← heq,Folder.has,hk]
    rfl
  unfold deleteSessionArtifact
  split
  · rename_i hext
    simp only [pairedSessionExtensions,foldl_cons,foldl_nil]
    rw [hpair,hpair]
    simp only [deleteFile,Folder.erase_eq_filter,Folder.filter_filter]
    refine Folder.filter_congr fun k _ _ => ?_
    simp [alongside,hext,pairedSessionExtensions,Bool.and_assoc,Bool.and_comm]
  · rename_i hext
    simp only [deleteFile,Folder.erase_eq_filter]
    refine Folder.filter_congr fun k _ _ => ?_
    simp [alongside,hext]

def isPairedName (name : String) : Bool := (extension name).any pairedSessionExtensions.contains

theorem isPairedJournal_eq (d : Folder String Artifact) (name : String) :
    isPairedJournal d name = (isPairedName name && d.has (snapshotOf name)) := rfl

theorem alongside_self (name : String) : alongside name name = true := by
  simp [alongside]

theorem isPairedName_iff :
    isPairedName name = true ↔ ∃ ext ∈ pairedSessionExtensions, extension name = some ext := by
  unfold isPairedName
  cases extension name with
  | none | some ext => simp

theorem withExtension_snapshotOf (h : extension name = some ext) :
    withExtension (snapshotOf name) ext = name := by
  rw [withExtension,fileStem_snapshotOf h]
  exact withExtension_extension h

theorem withExtension_paired (hjson : extension name = some "json")
    (hext : ext ∈ pairedSessionExtensions) :
    isPairedName (withExtension name ext) = true ∧ snapshotOf (withExtension name ext) = name := by
  obtain ⟨hext₁,hext₂⟩ : ext ≠ "" ∧ '.' ∉ ext.toList := by
    revert ext
    decide
  refine ⟨isPairedName_iff.mpr ⟨ext,hext,extension_withExtension hjson hext₁ hext₂⟩,?_⟩
  rw [snapshotOf,withExtension,fileStem_withExtension hjson hext₁ hext₂]
  exact withExtension_extension hjson

theorem alongside_iff {other : String} (hne : other ≠ name) :
    alongside name other = true ↔ isPairedName other = true ∧ snapshotOf other = name := by
  simp only [alongside,hne,decide_false,Bool.false_or,and_eq_true,decide_eq_true_eq,
    any_eq_true]
  constructor
  · rintro ⟨hjson,ext,hext,rfl⟩
    exact withExtension_paired hjson hext
  · rintro ⟨hpaired,rfl⟩
    obtain ⟨ext,hext,hother⟩ := isPairedName_iff.mp hpaired
    exact ⟨extension_snapshotOf hother,ext,hext,(withExtension_snapshotOf hother).symm⟩

theorem snapshotOf_not_paired (h : isPairedName name = true) :
    isPairedName (snapshotOf name) = false := by
  obtain ⟨ext,-,hname⟩ := isPairedName_iff.mp h
  rw [isPairedName,extension_snapshotOf hname]
  decide

theorem outdated_spec {cutoff : Nat} {d : Folder String Artifact}
    (h : outdated D heads cutoff d name = true) :
    d.has name = true ∧ isPairedJournal d name = false ∧ heads.contains (fileStem name) = false := by
  simp only [outdated,and_eq_true,not_eq_true'] at h
  refine ⟨?_,h.1.1,h.1.2⟩
  unfold Folder.has
  cases hlook : d.lookup name with
  | none =>
    rw [hlook] at h
    cases h.2
  | some a => rfl

section

variable {D heads} {cutoff : Nat} {d : Folder String Artifact} {seen : List String}

theorem gone_outdated {name : String} (hout : outdated D heads cutoff d name = true)
    (hgone : (seen.any fun n => outdated D heads cutoff d n && alongside n name) = true) :
    name ∈ seen := by
  obtain ⟨m,hm,hdoom⟩ := any_eq_true.mp hgone
  obtain ⟨hm',halong⟩ := and_eq_true_iff.mp hdoom
  by_cases hne : name = m
  · exact hne ▸ hm
  · obtain ⟨hpaired,hsnap⟩ := (alongside_iff hne).mp halong
    have hno := (outdated_spec D heads hout).2.1
    rw [isPairedJournal_eq,hpaired,hsnap,(outdated_spec D heads hm').1] at hno
    cases hno

theorem paired_stays {name : String} {st : Folder String Artifact}
    (hst : st = d.filter fun k _ => !seen.any fun n => outdated D heads cutoff d n && alongside n k)
    (hstays : (seen.any fun n => outdated D heads cutoff d n && alongside n name) = false) :
    isPairedJournal st name = isPairedJournal d name := by
  rw [isPairedJournal_eq,isPairedJournal_eq]
  by_cases hpaired : isPairedName name = true
  · have hsnap : (seen.any fun n => outdated D heads cutoff d n &&
        alongside n (snapshotOf name)) = false := by
      refine any_eq_false.mpr fun m hm hdoom => ?_
      obtain ⟨hm',halong⟩ := and_eq_true_iff.mp hdoom
      by_cases hne : snapshotOf name = m
      · have hboth : alongside m name = true := by
          by_cases heq : name = m
          · rw [heq]
            exact alongside_self m
          · exact (alongside_iff heq).mpr ⟨hpaired,hne⟩
        have := any_eq_false.mp hstays m hm
        rw [hm',hboth] at this
        exact this rfl
      · have hno := snapshotOf_not_paired hpaired
        rw [((alongside_iff hne).mp halong).1] at hno
        cases hno
    rw [hst,Folder.has_filter,hsnap,Bool.not_false,Bool.and_true]
  · simp only [not_eq_true] at hpaired
    rw [hpaired,Bool.false_and,Bool.false_and]

end

theorem ageStep_fst (cutoff : Nat) (d : Folder String Artifact) (seen : List String)
    (st : Folder String Artifact × SweepOutcome) (name : String)
    (hst : st.1 = d.filter fun k _ =>
      !seen.any fun n => outdated D heads cutoff d n && alongside n k) :
    (ageStep D heads cutoff st name).1 =
      st.1.filter fun k _ => !(outdated D heads cutoff d name && alongside name k) := by
  have hkeep (hno : outdated D heads cutoff d name = false) :
      st.1 = st.1.filter fun k _ => !(outdated D heads cutoff d name && alongside name k) :=
    (Folder.filter_true fun _ _ _ => by rw [hno]; rfl).symm
  cases hgone : seen.any fun n => outdated D heads cutoff d n && alongside n name with
  | true =>
    -- the file went before: nothing is left to do for it
    have hnone : st.1.lookup name = none := by
      rw [hst,Folder.lookup_filter]
      cases d.lookup name with
      | none => rfl
      | some a => simp [hgone]
    have hsame : (ageStep D heads cutoff st name).1 = st.1 := by
      unfold ageStep
      split
      · rfl
      · split
        · rfl
        · rw [hnone]
          rfl
    rw [hsame]
    refine (Folder.filter_true fun k v hk => ?_).symm
    cases hout : outdated D heads cutoff d name with
    | false => rfl
    | true =>
      have hseen := gone_outdated hout hgone
      rw [hst,Folder.lookup_filter_some] at hk
      have hno := any_eq_false.mp (not_eq_true' _ ▸ hk.2) name hseen
      simpa [hout] using hno
  | false =>
    have hlook : st.1.lookup name = d.lookup name := by
      rw [hst,Folder.lookup_filter]
      cases d.lookup name with
      | none => rfl
      | some a => simp [hgone]
    unfold ageStep
    rw [paired_stays hst hgone,hlook]
    cases hpaired : isPairedJournal d name with
    | true => exact hkeep (by simp [outdated,hpaired])
    | false =>
      rw [if_neg Bool.false_ne_true]
      cases hhead : heads.contains (fileStem name) with
      | true => exact hkeep (by simp only [outdated,hhead,Bool.not_true,Bool.and_false,Bool.false_and])
      | false =>
        rw [if_neg Bool.false_ne_true]
        cases hage : (d.lookup name).bind (sessionAgeMs D) with
        | none => exact hkeep (by simp [outdated,hage])
        | some age =>
          by_cases hlt : age < cutoff
          · have hout : outdated D heads cutoff d name = true := by
              simp only [outdated,hpaired,hhead,hage,Option.any_some,hlt]
              rfl
            simp only [if_pos hlt,hout,Bool.true_and]
            exact deleteSessionArtifact_fst st name
          · simp only [if_neg hlt]
            exact hkeep (by simp [outdated,hage,hlt])

def aged (cutoff : Nat) (d : Folder String Artifact) (name : String) : Bool :=
  outdated D heads cutoff d name ||
    isPairedName name && outdated D heads cutoff d (snapshotOf name)

theorem agePass_fst (cutoff : Nat) (d : Folder String Artifact) (o : SweepOutcome) :
    (agePass D heads cutoff (d,o)).1 = d.filter fun k _ => !aged D heads cutoff d k := by
  rw [agePass,Folder.foldl_filter (ageStep_fst D heads cutoff d)]
  refine Folder.filter_congr fun k v _ => ?_
  congr 1
  rw [Bool.eq_iff_iff,any_eq_true,aged,or_eq_true,and_eq_true]
  constructor
  · rintro ⟨n,-,hn⟩
    obtain ⟨hout,halong⟩ := and_eq_true_iff.mp hn
    by_cases hne : k = n
    · exact .inl (hne ▸ hout)
    · obtain ⟨hpaired,hsnap⟩ := (alongside_iff hne).mp halong
      exact .inr ⟨hpaired,hsnap ▸ hout⟩
  · rintro (hout | ⟨hpaired,hout⟩)
    · exact ⟨k,Folder.has_iff.mp (outdated_spec D heads hout).1,by rw [hout,alongside_self]; rfl⟩
    · refine ⟨snapshotOf k,Folder.has_iff.mp (outdated_spec D heads hout).1,?_⟩
      rw [hout,Bool.true_and]
      by_cases heq : k = snapshotOf k
      · rw [← heq]
        exact alongside_self k
      · exact (alongside_iff heq).mpr ⟨hpaired,rfl⟩

section

variable {κ : Type} [LinearOrder κ]

def Artifact.isOld (cutoff : Nat) (a : Artifact) : Bool := a.mtimeMs.any (· < cutoff)

theorem deleteOld_fst (cutoff : Nat) (names : List κ) (d : Folder κ Artifact) (o : SweepOutcome) :
    (deleteOld cutoff names (d,o)).1 =
      d.filter fun k a => !(decide (k ∈ names) && a.isOld cutoff) := by
  let doom (n k : κ) : Bool := decide (k = n) && ((d.lookup n).bind Artifact.mtimeMs).any (· < cutoff)
  rw [deleteOld,@Folder.foldl_filter κ Artifact _ d SweepOutcome _ doom]
  · refine Folder.filter_congr fun k a hk => ?_
    congr 1
    rw [Bool.eq_iff_iff,any_eq_true,and_eq_true,decide_eq_true_eq]
    constructor
    · rintro ⟨n,hn,hdoom⟩
      obtain ⟨heq,hold⟩ := and_eq_true_iff.mp hdoom
      obtain rfl := of_decide_eq_true heq
      rw [hk] at hold
      exact ⟨hn,hold⟩
    · rintro ⟨hn,hold⟩
      refine ⟨k,hn,?_⟩
      simp only [doom,decide_true,Bool.true_and,hk]
      exact hold
  · intro seen st n hst
    have hkeep (hno : ((d.lookup n).bind Artifact.mtimeMs).any (· < cutoff) = false) :
        st.1 = st.1.filter fun k _ => !doom n k :=
      (Folder.filter_true fun k _ _ => by simp only [doom,hno,Bool.and_false,Bool.not_false]).symm
    have herase (hold : ((d.lookup n).bind Artifact.mtimeMs).any (· < cutoff) = true) :
        (st.1.filter fun k _ => !doom n k) = st.1.erase n := by
      rw [Folder.erase_eq_filter]
      exact Folder.filter_congr fun k _ _ => by simp only [doom,hold,Bool.and_true]
    cases hold : ((d.lookup n).bind Artifact.mtimeMs).any (· < cutoff) with
    | false =>
      rw [if_neg,← hkeep hold]
      rw [hst,Folder.lookup_filter]
      cases hlook : d.lookup n with
      | none => simp
      | some a =>
        rw [hlook] at hold
        cases !seen.any (doom · n) with
        | true => exact fun h => false_ne_true (hold.symm.trans h)
        | false => exact false_ne_true
    | true =>
      rw [herase hold]
      split
      · rfl
      rename_i hno
      -- it went before
      refine (Folder.filter_true fun k v hk => decide_eq_true ?_).symm
      rintro rfl
      rw [hk] at hno
      rw [hst,Folder.lookup_filter_some] at hk
      rw [hk.1] at hold
      exact hno hold

end

def keptSessions (cutoff : Option Nat) (d : Folder String Artifact) : Folder String Artifact :=
  let d := d.filter fun k _ => !orphaned heads d k
  match cutoff with
  | none => d
  | some cutoff => d.filter fun k _ => !aged D heads cutoff d k

def keptFiles (cutoff : Option Nat) (r : Roots) : Roots :=
  { r with
    sessions := keptSessions D heads cutoff r.sessions
    cache := r.cache.filter fun _ a => !cutoff.any a.isOld
    config := r.config.filter fun k a => !(isLog k && cutoff.any a.isOld) }

theorem filePasses_fst (cutoff : Option Nat) (r : Roots) :
    (filePasses D heads cutoff r).1 = keptFiles D heads cutoff r := by
  cases cutoff with
  | none =>
    have hcache : (r.cache.filter fun _ a => !(none : Option Nat).any a.isOld) = r.cache :=
      Folder.filter_true fun _ _ _ => rfl
    have hconfig : (r.config.filter fun k a => !(isLog k && (none : Option Nat).any a.isOld)) =
        r.config :=
      Folder.filter_true fun _ _ _ => by simp
    simp only [filePasses,keptFiles,keptSessions,orphanPass_fst,hcache,hconfig]
  | some cutoff =>
    let p₁ := orphanPass heads (r.sessions,SweepOutcome.zero)
    let p₂ := agePass D heads cutoff (p₁.1,p₁.2)
    let p₃ := deleteOld cutoff r.cache.names (r.cache,p₂.2)
    have hfiles : (filePasses D heads (some cutoff) r).1 = { r with
          sessions := p₂.1
          cache := p₃.1
          config := (deleteOld cutoff (r.config.names.filter isLog) (r.config,p₃.2)).1 } := rfl
    have hname {κ : Type} [LinearOrder κ] {d : Folder κ Artifact} {k : κ} {a : Artifact}
        (hk : d.lookup k = some a) : k ∈ d.names := by
      rw [← Folder.has_iff,Folder.has,hk]
      rfl
    rw [hfiles,keptFiles,keptSessions,agePass_fst,orphanPass_fst,deleteOld_fst,deleteOld_fst]
    congr 1
    all_goals
      refine Folder.filter_congr fun k a hk => ?_
      simp [hname hk]

end Synaps.Retention
