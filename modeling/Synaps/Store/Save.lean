import Synaps.Lib.Text
import Mathlib.Algebra.Order.Ring.Unbundled.Rat
import Mathlib.Data.List.Infix
import Synaps.Lib.JsonText
import Synaps.Lib.Lines

/-!
The session record and the store of one session id: a snapshot file and a journal of deltas bound
to it by a generation. The host's turn id and time stand beside a message on disk. A journal-mode
save appends only to a journal it can read to its end and whose hashes match the history being
saved; a load replays the deltas over the snapshot.
-/

set_option autoImplicit false

namespace Synaps.Store

open Json

/-- A JSON value as the host holds it: the entries of an object are sorted by
key and no key is repeated. -/
structure Message where
  value : Value
  sorted : value.Sorted
  deriving DecidableEq

theorem Message.ext {m n : Message} (h : m.value = n.value) : m = n := by
  cases m; cases n; cases h; rfl

def messageTurnKey : String := "_synaps_turn"

def messageAtKey : String := "_synaps_at"

def siblingKeys : List String := [messageTurnKey,messageAtKey]

def messageTime (m : Message) : Option String := (m.value.get? messageAtKey).bind Value.asStr?

def messageTurnId (m : Message) : Option String :=
  ((m.value.get? messageTurnKey).bind (·.get? "id")).bind Value.asStr?

def hasSiblingKey (kvs : List (String × Value)) : Bool :=
  siblingKeys.any fun k => (lookup k kvs).isSome

def stored (m : Message) : Value :=
  match m.value with
  | .object kvs =>
    if hasSiblingKey kvs then .object (kvs.filter fun e => !siblingKeys.contains e.1)
    else m.value
  | v => v

theorem sorted_insert {v : Value} (h : v.Sorted) (k : String) (x : Value) :
    (v.insert k x).Sorted := by
  cases v with
  | object kvs => exact SortedKeys.insertEntry h k x
  | null | bool _ | number _ | string _ | array _ => exact h

theorem sorted_remove {v : Value} (h : v.Sorted) (k : String) : (v.remove k).Sorted := by
  cases v with
  | object kvs => exact SortedKeys.removeEntry h k
  | null | bool _ | number _ | string _ | array _ => exact h

def storedValue (m : Message) : Message where
  value := siblingKeys.foldl Value.remove m.value
  sorted := sorted_remove (sorted_remove m.sorted _) _

def setMessageTime (m : Message) (ts : String) : Message where
  value := m.value.insert messageAtKey (.string ts)
  sorted := sorted_insert m.sorted _ _

def setTurnId (m : Message) (id : String) : Message where
  value := m.value.insert messageTurnKey (.object [("id",.string id)])
  sorted := sorted_insert m.sorted _ _

/-- The host keys of an entry reduced to what the store keeps of them. -/
def reduceEntry (validTime : String → Bool) (e : String × Value) : Option (String × Value) :=
  if e.1 = messageTurnKey then
    ((e.2.get? "id").bind Value.asStr?).map fun id => (e.1,.object [("id",.string id)])
  else if e.1 = messageAtKey then
    (e.2.asStr?.filter validTime).map fun ts => (e.1,.string ts)
  else some e

def reduceValue (validTime : String → Bool) : Value → Value
  | .object kvs => .object (kvs.filterMap (reduceEntry validTime))
  | v => v

theorem reduceEntry_key {validTime : String → Bool} {e d : String × Value}
    (h : reduceEntry validTime e = some d) : d.1 = e.1 := by
  unfold reduceEntry at h
  split at h
  · obtain ⟨id,-,rfl⟩ := Option.map_eq_some_iff.mp h
    rfl
  split at h
  · obtain ⟨ts,-,rfl⟩ := Option.map_eq_some_iff.mp h
    rfl
  · exact congrArg Prod.fst (Option.some.inj h).symm

/-- A message as the store gives it back: the turn key holds the string id alone,
and a time that is no RFC 3339 text is dropped. -/
def Message.reduced (validTime : String → Bool) (m : Message) : Message where
  value := reduceValue validTime m.value
  sorted := by
    have h := m.sorted
    cases hv : m.value with
    | object kvs =>
      rw [hv] at h
      exact SortedKeys.filterMap (fun _ _ => reduceEntry_key) h
    | null | bool _ | number _ | string _ | array _ => trivial

def restore (validTime : String → Bool) (m : Message) (t ts : Option String) : Message :=
  let m := t.elim m (setTurnId m)
  (ts.filter validTime).elim m (setMessageTime m)

theorem turnKey_ne_atKey : messageTurnKey ≠ messageAtKey := by decide

theorem stored_eq (m : Message) : stored m = (storedValue m).value := by
  obtain ⟨v,hv⟩ := m
  cases v with
  | object kvs =>
    simp only [stored,storedValue,siblingKeys,List.foldl,Value.remove]
    split
    · simp only [removeEntry,List.filter_filter,Value.object.injEq]
      congr 1
      funext e
      by_cases h₁ : e.1 = messageTurnKey <;> by_cases h₂ : e.1 = messageAtKey <;> simp [h₁,h₂]
    · rename_i h
      have hn : lookup messageTurnKey kvs = none ∧ lookup messageAtKey kvs = none := by
        simpa [hasSiblingKey,siblingKeys] using h
      rw [removeEntry_of_lookup hn.1,removeEntry_of_lookup hn.2]
  | null | bool _ | number _ | string _ | array _ => rfl

variable {kvs : List (String × Value)}

theorem lookup_reduced (validTime : String → Bool) (h : SortedKeys kvs) (k : String) :
    lookup k (kvs.filterMap (reduceEntry validTime)) =
      (lookup k kvs).bind fun v => (reduceEntry validTime (k,v)).map Prod.snd :=
  lookup_filterMap (fun _ _ => reduceEntry_key) h k

theorem elim_insert_object {α : Type} {m : Message} {f : Message → α → Message}
    {key : String} {v : α → Value} (hf : ∀ a, (f m a).value = m.value.insert key (v a))
    (h : m.value = .object kvs) (a : Option α) : ∃ es, (a.elim m (f m)).value = .object es ∧
      (∀ k, k ≠ key → lookup k es = lookup k kvs) ∧
      lookup key es = (a.map v).or (lookup key kvs) := by
  cases a with
  | none => exact ⟨kvs,h,fun _ _ => rfl,rfl⟩
  | some a =>
    refine ⟨insertEntry key (v a) kvs,?_,fun k hk => ?_,?_⟩
    · simp [hf,h,Value.insert]
    · exact lookup_insertEntry_ne _ _ hk
    · exact lookup_insertEntry _ _ _

theorem restore_storedValue (validTime : String → Bool) (m : Message) :
    restore validTime (storedValue m) (messageTurnId m) (messageTime m) = m.reduced validTime := by
  cases hv : m.value with
  | null | bool _ | number _ | string _ | array _ =>
    apply Message.ext
    simp [restore,storedValue,messageTurnId,messageTime,Message.reduced,reduceValue,hv,
      Value.get?,siblingKeys,Value.remove]
  | object kvs =>
    have hs : (Value.object kvs).Sorted := hv ▸ m.sorted
    have hbase : (storedValue m).value =
        .object (removeEntry messageAtKey (removeEntry messageTurnKey kvs)) := by
      simp [storedValue,siblingKeys,hv,Value.remove]
    obtain ⟨es,he,heo,het⟩ := elim_insert_object (f := setTurnId) (fun _ => rfl) hbase
      (messageTurnId m)
    obtain ⟨fs,hf,hfo,hft⟩ := elim_insert_object (f := setMessageTime) (fun _ => rfl) he
      ((messageTime m).filter validTime)
    change (restore validTime (storedValue m) (messageTurnId m) (messageTime m)).value = _ at hf
    have hfs : (Value.object fs).Sorted := hf ▸ (restore validTime _ _ _).sorted
    apply Message.ext
    simp only [hf,Message.reduced,hv,reduceValue,Value.object.injEq]
    refine SortedKeys.ext hfs (SortedKeys.filterMap (fun _ _ => reduceEntry_key) hs) fun k => ?_
    rw [lookup_reduced validTime hs]
    by_cases hk : k = messageAtKey
    · subst hk
      rw [hft,heo _ turnKey_ne_atKey.symm,lookup_removeEntry,Option.or_none,messageTime,hv]
      cases hl : lookup messageAtKey kvs with
      | none => simp [Value.get?,hl]
      | some x => simp [Value.get?,hl,reduceEntry,turnKey_ne_atKey.symm,Function.comp_def]
    · rw [hfo _ hk]
      by_cases ht : k = messageTurnKey
      · subst ht
        rw [het,lookup_removeEntry_ne _ hk,lookup_removeEntry,Option.or_none,messageTurnId,hv]
        cases hl : lookup messageTurnKey kvs with
        | none => simp [Value.get?,hl]
        | some x => simp [Value.get?,hl,reduceEntry,Function.comp_def]
      · rw [heo _ ht,lookup_removeEntry_ne _ hk,lookup_removeEntry_ne _ ht]
        cases lookup k kvs with
        | none => rfl
        | some x => simp [reduceEntry,hk,ht]

open Text

structure KeepwarmTokens where
  input : Nat
  output : Nat
  cacheRead : Nat
  cacheCreation : Nat
  deriving DecidableEq

structure Session where
  id : String
  title : String
  name : Option String
  model : String
  thinkingLevel : String
  systemPrompt : Option String
  createdAt : Int
  updatedAt : Int
  totalInputTokens : Nat
  totalOutputTokens : Nat
  sessionCost : ℚ
  keepwarmCost : ℚ
  keepwarmTokens : KeepwarmTokens
  totalCacheReadTokens : Nat
  totalCacheCreationTokens : Nat
  messageCount : Nat
  parentSession : Option String
  compactedInto : Option String
  env : Option (List (String × String))
  envStripped : List String
  apiMessages : List Message
  abortContext : Option String
  promptProvenance : Option Value
  compaction : Option Value
  deriving DecidableEq

def titled (title : String) (updatedAt : Int) : Session where
  id := "20240101-000000-abcd"
  title := title
  name := none
  model := "m"
  thinkingLevel := "off"
  systemPrompt := none
  createdAt := 0
  updatedAt := updatedAt
  totalInputTokens := 0
  totalOutputTokens := 0
  sessionCost := 0
  keepwarmCost := 0
  keepwarmTokens := ⟨0,0,0,0⟩
  totalCacheReadTokens := 0
  totalCacheCreationTokens := 0
  messageCount := 0
  parentSession := none
  compactedInto := none
  env := none
  envStripped := []
  apiMessages := []
  abortContext := none
  promptProvenance := none
  compaction := none

def Session.withMessages (s : Session) (messages : List Message) : Session :=
  { s with apiMessages := messages }

variable (s : Session)

variable (ms : List Message)

@[simp] theorem withMessages_apiMessages : (s.withMessages ms).apiMessages = ms := rfl

@[simp] theorem withMessages_id : (s.withMessages ms).id = s.id := rfl

@[simp] theorem withMessages_updatedAt : (s.withMessages ms).updatedAt = s.updatedAt := rfl

@[simp] theorem withMessages_withMessages (ns : List Message) :
    (s.withMessages ms).withMessages ns = s.withMessages ns := rfl

@[simp] theorem withMessages_self : s.withMessages s.apiMessages = s := rfl

def clampCost (cost total : ℚ) : ℚ := min (if 0 < cost then cost else 0) (max total 0)

def clampKeepwarmToTotals (s : Session) : Session :=
  { s with
    keepwarmCost := clampCost s.keepwarmCost s.sessionCost
    keepwarmTokens := { s.keepwarmTokens with
      input := min s.keepwarmTokens.input s.totalInputTokens
      output := min s.keepwarmTokens.output s.totalOutputTokens } }

theorem clampCost_nonneg (cost total : ℚ) : 0 ≤ clampCost cost total := by
  refine le_min ?_ (le_max_right _ _)
  split
  · exact le_of_lt (by assumption)
  · exact le_refl 0

theorem clampCost_idem (cost total : ℚ) :
    clampCost (clampCost cost total) total = clampCost cost total := by
  rw [clampCost]
  split
  · exact min_eq_left (min_le_right _ _)
  · rename_i h
    rw [min_eq_left (le_max_right _ _)]
    exact le_antisymm (clampCost_nonneg cost total) (not_lt.mp h)

theorem clamp_idem : clampKeepwarmToTotals (clampKeepwarmToTotals s) = clampKeepwarmToTotals s := by
  simp [clampKeepwarmToTotals,clampCost_idem]

def endsAuthority (c : Char) : Bool :=
  ['/','?','#',',',';','"','\''].contains c || isWhitespace c

/-- Scan for an authority with user information; `prev` is the character before
the part still to be read, within the current search. -/
def isSecretEnvValueFrom : Option Char → List Char → Bool
  | _, [] => false
  | prev, ':' :: '/' :: '/' :: after =>
    (prev.any isAsciiAlphanumeric &&
      ((after.takeWhile fun c => !endsAuthority c).drop 1).contains '@') ||
      isSecretEnvValueFrom none after
  | _, c :: rest => isSecretEnvValueFrom (some c) rest

def isSecretEnvValue (value : String) : Bool := isSecretEnvValueFrom none value.toList

def toAsciiUppercase (c : Char) : Char :=
  if 'a' ≤ c && c ≤ 'z' then Char.ofNat (c.toNat - 32) else c

def isSecretKey (key : String) : Bool :=
  let upper := key.toList.map toAsciiUppercase
  let endsWith (suffix : String) : Bool := decide (suffix.toList <:+ upper)
  let contains (part : String) : Bool := decide (part.toList <:+: upper)
  endsWith "_KEY" || endsWith "_TOKEN" || endsWith "_CREDENTIALS" || endsWith "_API_KEY" ||
    contains "SECRET" || contains "PASSWORD" || contains "PASSWD" || endsWith "_PAT" ||
    endsWith "_DSN"

def isSecretEnv (key value : String) : Bool := isSecretKey key || isSecretEnvValue value

def scrubSecretEnv (env : Option (List (String × String))) : Option (List (String × String)) :=
  env.map fun pairs => pairs.filter fun e => !isSecretEnv e.1 e.2

structure SessionMeta where
  id : String
  title : String
  name : Option String
  model : String
  thinkingLevel : String
  systemPrompt : Option String
  createdAt : Int
  updatedAt : Int
  totalInputTokens : Nat
  totalOutputTokens : Nat
  sessionCost : ℚ
  messageCount : Option Nat
  abortContext : Option String
  parentSession : Option String
  compactedInto : Option String
  env : Option (List (String × String))
  envStripped : List String
  promptProvenance : Option Value
  compaction : Option Value
  deriving DecidableEq

def SessionMeta.of (s : Session) : SessionMeta where
  id := s.id
  title := s.title
  name := s.name
  model := s.model
  thinkingLevel := s.thinkingLevel
  systemPrompt := s.systemPrompt
  createdAt := s.createdAt
  updatedAt := s.updatedAt
  totalInputTokens := s.totalInputTokens
  totalOutputTokens := s.totalOutputTokens
  sessionCost := s.sessionCost
  messageCount := some s.apiMessages.length
  abortContext := s.abortContext
  parentSession := s.parentSession
  compactedInto := s.compactedInto
  env := scrubSecretEnv s.env
  envStripped := s.envStripped
  promptProvenance := s.promptProvenance
  compaction := s.compaction

def SessionMeta.apply (m : SessionMeta) (s : Session) : Session :=
  { s with
    title := m.title
    name := m.name
    model := m.model
    thinkingLevel := m.thinkingLevel
    systemPrompt := m.systemPrompt
    createdAt := m.createdAt
    updatedAt := m.updatedAt
    totalInputTokens := m.totalInputTokens
    totalOutputTokens := m.totalOutputTokens
    sessionCost := m.sessionCost
    abortContext := m.abortContext
    parentSession := m.parentSession
    compactedInto := m.compactedInto
    env := m.env
    envStripped := m.envStripped
    promptProvenance := m.promptProvenance
    compaction := m.compaction }

inductive SessionPersistence where
  | json
  | journal
  deriving DecidableEq

def journalSchemaVersion : Nat := 2

def journalSnapshotMinBytes : Nat := 256 * 1024

def journalSnapshotRatio : Nat := 4

def maxPersistedReadBytes : Nat := 1024 * 1024 * 1024

inductive JournalRecord where
  | openRecord (v base : Nat) (generation historyHash turnsHash timesHash : Option String)
  | msg (v i : Nat) (m : Message) (t time : Option Value)
  | metaRecord (v : Nat) (info : SessionMeta) (historyHash turnsHash timesHash : Option String)
  deriving DecidableEq

structure SnapshotBinding where
  generation : Option String
  turnIds : Value
  messageTimes : Value
  deriving DecidableEq

/-- The code of other libraries the store calls: the SHA-256 digest in hex, the
RFC 3339 check and rendering of times, the rendering of costs, and the decoding
of JSON texts into records. -/
structure Deps where
  sha256 : List UInt8 → String
  validTime : String → Bool
  timeText : Int → String
  costNumber : ℚ → Number
  readRecord : List Char → Option JournalRecord
  readBinding : List Char → Option SnapshotBinding
  readSession : List Char → Option Session

variable (D : Deps)

def optField (k : String) (v : Option Value) : List (String × Value) := (v.map (k,·)).toList

def natValue (n : Nat) : Value := .number (.int n)

def optString (s : Option String) : Value := s.elim .null .string

def pairsValue (env : List (String × String)) : Value :=
  .array (env.map fun e => .array [.string e.1,.string e.2])

def listField (k : String) (xs : List Value) : List (String × Value) :=
  if xs = [] then [] else [(k,.array xs)]

def SessionMeta.toValue (m : SessionMeta) : Value :=
  .object ([("id",.string m.id),("title",.string m.title)] ++
    optField "name" (m.name.map .string) ++
    [("model",.string m.model),("thinking_level",.string m.thinkingLevel),
      ("system_prompt",optString m.systemPrompt),
      ("created_at",.string (D.timeText m.createdAt)),
      ("updated_at",.string (D.timeText m.updatedAt)),
      ("total_input_tokens",natValue m.totalInputTokens),
      ("total_output_tokens",natValue m.totalOutputTokens),
      ("session_cost",.number (D.costNumber m.sessionCost))] ++
    optField "message_count" (m.messageCount.map natValue) ++
    optField "abort_context" (m.abortContext.map .string) ++
    optField "parent_session" (m.parentSession.map .string) ++
    optField "compacted_into" (m.compactedInto.map .string) ++
    optField "env" (m.env.map pairsValue) ++
    listField "env_stripped" (m.envStripped.map .string) ++
    optField "prompt_provenance" m.promptProvenance ++
    optField "compaction" m.compaction)

def hashFields (historyHash turnsHash timesHash : Option String) : List (String × Value) :=
  optField "history_hash" (historyHash.map .string) ++
    optField "turns_hash" (turnsHash.map .string) ++
    optField "times_hash" (timesHash.map .string)

def JournalRecord.fields : JournalRecord → List (String × Value)
  | .openRecord v base generation history turns times =>
    [("k",.string "open"),("v",natValue v),("base",natValue base)] ++
      optField "generation" (generation.map .string) ++ hashFields history turns times
  | .msg v i m t time =>
    [("k",.string "msg"),("v",natValue v),("i",natValue i),("m",m.value)] ++
      optField "t" t ++ optField "at" time
  | .metaRecord v info history turns times =>
    [("k",.string "meta"),("v",natValue v),("meta",info.toValue D)] ++
      hashFields history turns times

def recordText (r : JournalRecord) : List Char := print (.object (r.fields D))

def journalBytes (rs : List JournalRecord) : List UInt8 :=
  Utf8.encode (Lines.terminated (rs.map (recordText D)))

def indexed (f : Message → Option String) (messages : List Message) : List (Nat × String) :=
  messages.zipIdx.filterMap fun e => (f e.1).map (e.2,·)

def turnIds (messages : List Message) : List (Nat × String) := indexed messageTurnId messages

def messageTimes (messages : List Message) : List (Nat × String) := indexed messageTime messages

def indexedValues (xs : List (Nat × String)) : List Value :=
  xs.map fun e => .array [natValue e.1,.string e.2]

def keepwarmValue (t : KeepwarmTokens) : Value :=
  .object [("input",natValue t.input),("output",natValue t.output),
    ("cache_read",natValue t.cacheRead),("cache_creation",natValue t.cacheCreation)]

def headerFields (s : Session) (generation : Option String) : List (String × Value) :=
  optField "_journal_generation" (generation.map .string) ++
    [("id",.string s.id),("title",.string s.title)] ++
    optField "name" (s.name.map .string) ++
    [("model",.string s.model),("thinking_level",.string s.thinkingLevel),
      ("system_prompt",optString s.systemPrompt),
      ("created_at",.string (D.timeText s.createdAt)),
      ("updated_at",.string (D.timeText s.updatedAt)),
      ("total_input_tokens",natValue s.totalInputTokens),
      ("total_output_tokens",natValue s.totalOutputTokens),
      ("session_cost",.number (D.costNumber s.sessionCost))] ++
    (if s.keepwarmCost = 0 then [] else [("keepwarm_cost",.number (D.costNumber s.keepwarmCost))]) ++
    (if s.keepwarmTokens = ⟨0,0,0,0⟩ then []
      else [("keepwarm_tokens",keepwarmValue s.keepwarmTokens)]) ++
    (if s.totalCacheReadTokens = 0 then []
      else [("total_cache_read_tokens",natValue s.totalCacheReadTokens)]) ++
    (if s.totalCacheCreationTokens = 0 then []
      else [("total_cache_creation_tokens",natValue s.totalCacheCreationTokens)]) ++
    [("message_count",natValue s.apiMessages.length)] ++
    optField "parent_session" (s.parentSession.map .string) ++
    optField "compacted_into" (s.compactedInto.map .string) ++
    optField "env" ((scrubSecretEnv s.env).map pairsValue) ++
    listField "env_stripped" (s.envStripped.map .string)

def snapshotFields (s : Session) (generation : Option String) : List (String × Value) :=
  headerFields D s generation ++ [("api_messages",.array (s.apiMessages.map stored))] ++
    optField "abort_context" (s.abortContext.map .string) ++
    optField "prompt_provenance" s.promptProvenance ++
    optField "compaction" s.compaction ++
    listField "_turn_ids" (indexedValues (turnIds s.apiMessages)) ++
    listField "_message_times" (indexedValues (messageTimes s.apiMessages))

def snapshotJson (s : Session) (generation : Option String) : List Char :=
  print (.object (snapshotFields D s generation))

def historyBytes (messages : List Message) : List UInt8 :=
  Utf8.encode (print (.array (messages.map stored)))

def indexedBytes (xs : List (Nat × String)) : List UInt8 :=
  Utf8.encode (print (.array (indexedValues xs)))

def historyHash (messages : List Message) : String := D.sha256 (historyBytes messages)

def indexedHash (xs : List (Nat × String)) : Option String :=
  if xs = [] then none else some (D.sha256 (indexedBytes xs))

def turnsHash (messages : List Message) : Option String := indexedHash D (turnIds messages)

def timesHash (messages : List Message) : Option String := indexedHash D (messageTimes messages)

structure Files where
  snapshot : Option (List UInt8)
  journal : Option (List UInt8)
  deriving DecidableEq

def Files.empty : Files := ⟨none,none⟩

inductive FileOp where
  | writeSnapshot (bytes : List UInt8)
  | writeJournal (bytes : List UInt8)
  | removeJournal
  | appendJournal (bytes : List UInt8)
  | syncDir
  deriving DecidableEq

def FileOp.apply : FileOp → Files → Files
  | .writeSnapshot bytes, f => { f with snapshot := some bytes }
  | .writeJournal bytes, f => { f with journal := some bytes }
  | .removeJournal, f => { f with journal := none }
  | .appendJournal bytes, f => { f with journal := some (f.journal.getD [] ++ bytes) }
  | .syncDir, f => f

def runOps (ops : List FileOp) (f : Files) : Files := ops.foldl (fun f op => op.apply f) f

inductive IoError where
  | notFound (message : String)
  | other (message : String)
  | json
  deriving DecidableEq

def readArtifactBytes (name : String) (file : Option (List UInt8)) :
    Except IoError (Option (List UInt8)) :=
  match file with
  | none => .ok none
  | some bytes =>
    if maxPersistedReadBytes < bytes.length then
      .error (.other ("session artifact \"" ++ name ++ "\" exceeds the " ++
        toString maxPersistedReadBytes ++ "-byte read bound"))
    else .ok (some bytes)

def snapshotName (id : String) : String := id ++ ".json"

def journalName (id : String) : String := id ++ ".journal"

def position (key : List UInt8) : List UInt8 → Option Nat
  | [] => none
  | b :: bs => if key.isPrefixOf (b :: bs) then some 0 else (position key bs).map (· + 1)

def headerKey : List UInt8 := Utf8.encode "\"api_messages\"".toList

def maxHeader : Nat := 256 * 1024

def headerChunk : Nat := 16 * 1024

/-- Read the file in chunks until the key is in the buffer, the buffer has
outgrown the cap, or the file ends. -/
def scanHeader : Nat → List UInt8 → List UInt8 → List UInt8
  | 0, buf, _ => buf
  | fuel+1, buf, file =>
    if maxHeader < buf.length ∨ file = [] then buf
    else
      let buf := buf ++ file.take headerChunk
      match position headerKey buf with
      | some pos => buf.take pos
      | none => scanHeader fuel buf (file.drop headerChunk)

def readSessionHeader (file : List UInt8) : List Char :=
  let s := (Utf8.decodeLossy (scanHeader (maxHeader / headerChunk + 2) [] file)).rdropWhile
    isWhitespace
  let s := if s.getLast? = some ',' then s.dropLast else s
  if s.getLast? = some '}' then s else s ++ ['}']

def matchingOpen (record : JournalRecord) (snapshotGeneration : Option String) : Option Nat :=
  match record with
  | .openRecord v _ none _ _ _ =>
    if v = 1 ∧ snapshotGeneration = none then some 1 else none
  | .openRecord v _ (some generation) _ _ _ =>
    if v = journalSchemaVersion ∧ generation ≠ "" ∧ snapshotGeneration = some generation then some v
    else none
  | _ => none

structure JournalState where
  durableLen : Nat
  historyHash : String
  turnsHash : Option String
  timesHash : Option String
  bytes : Nat
  deriving DecidableEq

/-- What the appender's scan has seen: the messages so far, the hashes of the
last metadata record and how many messages those cover. -/
structure Scan where
  durableLen : Nat
  hashedLen : Nat
  historyHash : String
  turnsHash : Option String
  timesHash : Option String
  deriving DecidableEq

def scanRecord (id : String) (st : Scan) : Option JournalRecord → Option Scan
  | some (.msg v i _ _ _) =>
    if v = journalSchemaVersion ∧ i = st.durableLen then
      some { st with durableLen := st.durableLen + 1 }
    else none
  | some (.metaRecord v info (some history) turns times) =>
    if v = journalSchemaVersion ∧ info.id = id ∧ info.messageCount = some st.durableLen then
      some ⟨st.durableLen,st.durableLen,history,turns,times⟩
    else none
  | _ => none

def scanRecords (id : String) : Scan → List (Option JournalRecord) → Option Scan
  | st, [] => some st
  | st, r :: rs => (scanRecord id st r).bind (scanRecords id · rs)

def scanJournal (id : String) (generation : Option String) :
    List (Option JournalRecord) → Option Scan
  | some (.openRecord v base g (some history) turns times) :: rest =>
    if matchingOpen (.openRecord v base g (some history) turns times) generation =
        some journalSchemaVersion then
      (scanRecords id ⟨base,base,history,turns,times⟩ rest).filter
        fun st => st.hashedLen = st.durableLen
    else none
  | _ => none

def readLines (text : List Char) : List (Option JournalRecord) :=
  (Lines.lines text).map D.readRecord

def readJournalState (journal : Option (List UInt8)) (id : String) (generation : Option String) :
    Except IoError (Option JournalState) :=
  match readArtifactBytes (journalName id) journal with
  | .error e => .error e
  | .ok none => .ok none
  | .ok (some raw) =>
    if Lines.endsWithNewline raw then
      .ok (((Utf8.decode raw).bind fun text => scanJournal id generation (readLines D text)).map
        fun st => ⟨st.durableLen,st.historyHash,st.turnsHash,st.timesHash,raw.length⟩)
    else .ok none

inductive SaveMode where
  | fullSnapshot
  | append (messages : Nat)
  deriving DecidableEq

structure SaveReceipt where
  mode : SaveMode
  bytesWritten : Nat
  deriving DecidableEq

def openOf (s : Session) (generation : Option String) : JournalRecord :=
  .openRecord journalSchemaVersion s.apiMessages.length generation
    (some (historyHash D s.apiMessages)) (turnsHash D s.apiMessages) (timesHash D s.apiMessages)

/-- Publish a full snapshot, then reset or remove the journal; `uuid` is the
generation drawn if one is needed. -/
def publishSnapshot (s : Session) (mode : SessionPersistence) (durable bind : Bool)
    (uuid : String) : List FileOp × SaveReceipt :=
  let generation := if bind then some uuid else none
  let json := Utf8.encode (snapshotJson D s generation)
  let journal := match mode with
    | .journal => journalBytes D [openOf D s generation]
    | .json => []
  ([.writeSnapshot json] ++ (if durable || bind then [.syncDir] else []) ++
    [match mode with
      | .journal => .writeJournal journal
      | .json => .removeJournal] ++
    (if durable then [.syncDir] else []),
    ⟨.fullSnapshot,json.length + journal.length⟩)

def fullSnapshotReset (s : Session) (uuid : String) : List FileOp × SaveReceipt :=
  publishSnapshot D s .journal false true uuid

def msgOf (i : Nat) (m : Message) : JournalRecord :=
  .msg journalSchemaVersion i (storedValue m) ((messageTurnId m).map .string)
    ((messageTime m).map .string)

def metaOf (s : Session) : JournalRecord :=
  .metaRecord journalSchemaVersion (SessionMeta.of s) (some (historyHash D s.apiMessages))
    (turnsHash D s.apiMessages) (timesHash D s.apiMessages)

/-- The records a save appends after `durableLen` messages. -/
def deltaOf (s : Session) (durableLen : Nat) : List JournalRecord :=
  ((s.apiMessages.drop durableLen).zipIdx durableLen).map (fun e => msgOf e.2 e.1) ++ [metaOf D s]

def snapshotDue (journalBytes snapshotBytes : Nat) : Bool :=
  max journalSnapshotMinBytes (snapshotBytes / journalSnapshotRatio) ≤ journalBytes

def snapshotBinding (file : List UInt8) : Option SnapshotBinding :=
  D.readBinding (readSessionHeader file)

def continuesHistory (st : JournalState) (s : Session) : Bool :=
  st.durableLen ≤ s.apiMessages.length &&
    historyHash D (s.apiMessages.take st.durableLen) == st.historyHash &&
    turnsHash D (s.apiMessages.take st.durableLen) == st.turnsHash &&
    timesHash D (s.apiMessages.take st.durableLen) == st.timesHash

def saveJournalMode (f : Files) (s : Session) (uuid : String) :
    Except IoError (List FileOp × SaveReceipt) :=
  match f.snapshot with
  | none => .ok (fullSnapshotReset D s uuid)
  | some snapshot =>
    match snapshotBinding D snapshot with
    | none => .ok (fullSnapshotReset D s uuid)
    | some binding =>
      match readJournalState D f.journal s.id binding.generation with
      | .error e => .error e
      | .ok none => .ok (fullSnapshotReset D s uuid)
      | .ok (some st) =>
        if continuesHistory D st s then
          let buf := journalBytes D (deltaOf D s st.durableLen)
          if snapshotDue (st.bytes + buf.length) snapshot.length then
            let reset := fullSnapshotReset D s uuid
            .ok (.appendJournal buf :: reset.1,⟨.fullSnapshot,buf.length + reset.2.bytesWritten⟩)
          else
            .ok ([.appendJournal buf],⟨.append (s.apiMessages.length - st.durableLen),buf.length⟩)
        else .ok (fullSnapshotReset D s uuid)

def saveSessionInDir (f : Files) (s : Session) (mode : SessionPersistence) (uuid : String) :
    Except IoError (List FileOp × SaveReceipt) :=
  match mode with
  | .json =>
    let bound := f.snapshot.any fun file =>
      (snapshotBinding D file).elim true fun b => b.generation.isSome
    .ok (publishSnapshot D s .json false (f.journal.isSome || bound) uuid)
  | .journal => saveJournalMode D f s uuid

def saveSessionDurableInDir (s : Session) (mode : SessionPersistence) (uuid : String) :
    Except IoError (List FileOp × SaveReceipt) :=
  .ok (publishSnapshot D s mode true true uuid)

/-- One call of `save_session_in_dir` or `save_session_durable_in_dir`; `uuid` is
the generation it draws if it publishes a bound snapshot. -/
structure SaveCall where
  session : Session
  mode : SessionPersistence
  durable : Bool
  uuid : String
  deriving DecidableEq

def SaveCall.save (c : SaveCall) (f : Files) : Except IoError (List FileOp × SaveReceipt) :=
  if c.durable then saveSessionDurableInDir D c.session c.mode c.uuid
  else saveSessionInDir D f c.session c.mode c.uuid

def pairOf : Value → Option (Nat × String)
  | .array [.number (.int n),.string x] => if 0 ≤ n then some (n.toNat,x) else none
  | _ => none

def storedPairs : Value → List (Nat × String)
  | .array entries => entries.filterMap pairOf
  | _ => []

def storedTurnIds (v : Value) : List (Nat × String) := storedPairs v

def storedMessageTimes (v : Value) : List (Nat × String) :=
  (storedPairs v).filter fun e => D.validTime e.2

def setAll (set : Message → String → Message) (xs : List (Nat × String))
    (messages : List Message) : List Message :=
  xs.foldl (fun ms e => ms.modify e.1 (set · e.2)) messages

def restoreMessages (binding : SnapshotBinding) (messages : List Message) : List Message :=
  setAll setMessageTime (storedMessageTimes D binding.messageTimes)
    (setAll setTurnId (storedTurnIds binding.turnIds) messages)

def replayRecord (version : Nat) (s : Session) : Option JournalRecord → Option Session
  | some (.msg v i m t time) =>
    if v ≠ version then none
    else if i = s.apiMessages.length then
      let m := restore D.validTime m (t.bind Value.asStr?) (time.bind Value.asStr?)
      some (s.withMessages (s.apiMessages ++ [m]))
    else if s.apiMessages.length < i then none
    else some s
  | some (.metaRecord v info _ _ _) =>
    if v ≠ version then none
    else if info.id = s.id ∧ s.updatedAt ≤ info.updatedAt then some (info.apply s)
    else some s
  | some (.openRecord ..) => none
  | none => none

def replayRecords (version : Nat) : Session → List (Option JournalRecord) → Session
  | s, [] => s
  | s, r :: rs =>
    match replayRecord D version s r with
    | some s' => replayRecords version s' rs
    | none => s

def replayJournal (generation : Option String) (s : Session) :
    List (Option JournalRecord) → Session
  | some r :: rest =>
    match matchingOpen r generation with
    | some version => clampKeepwarmToTotals (replayRecords D version s rest)
    | none => s
  | _ => s

def fromSlice {α : Type} (read : List Char → Option α) (bytes : List UInt8) : Option α :=
  (Utf8.decode bytes).bind read

def loadSessionInDir (f : Files) (id : String) : Except IoError Session :=
  match readArtifactBytes (snapshotName id) f.snapshot with
  | .error e => .error e
  | .ok none => .error (.notFound ("no session snapshot for '" ++ id ++ "'"))
  | .ok (some snapshot) =>
    match fromSlice D.readBinding snapshot, fromSlice D.readSession snapshot with
    | some binding, some session =>
      let session := clampKeepwarmToTotals session
      let session := session.withMessages (restoreMessages D binding session.apiMessages)
      match readArtifactBytes (journalName id) f.journal with
      | .error e => .error e
      | .ok none => .ok session
      | .ok (some raw) =>
        .ok (replayJournal D binding.generation session (readLines D (Utf8.decodeLossy raw)))
    | _, _ => .error .json

open List

def Session.onDisk (s : Session) : Session :=
  { s with
    apiMessages := s.apiMessages.map storedValue
    env := scrubSecretEnv s.env
    messageCount := s.apiMessages.length }

def listValue (xs : List Value) : Value := if xs = [] then .null else .array xs

/-- The storage-only fields of a snapshot; an empty list is not written. -/
def bindingOf (s : Session) (generation : Option String) : SnapshotBinding where
  generation := generation
  turnIds := listValue (indexedValues (turnIds s.apiMessages))
  messageTimes := listValue (indexedValues (messageTimes s.apiMessages))

def Session.history (s : Session) : List Message := s.apiMessages.map (·.reduced D.validTime)

def Session.opened (s : Session) : Session :=
  (clampKeepwarmToTotals s.onDisk).withMessages (s.history D)

variable (s : Session)

@[simp] theorem opened_id : (s.opened D).id = s.id := rfl

@[simp] theorem opened_apiMessages : (s.opened D).apiMessages = s.history D := rfl

@[simp] theorem storedPairs_listValue (xs : List (Nat × String)) :
    storedPairs (listValue (indexedValues xs)) = xs := by
  have h : ∀ e : Nat × String, pairOf (.array [natValue e.1,.string e.2]) = some e := by
    intro e
    simp [pairOf,natValue]
  unfold listValue
  split
  · rename_i hx
    simp only [indexedValues,map_eq_nil_iff] at hx
    rw [hx]
    rfl
  · simp [storedPairs,indexedValues,filterMap_map,h]

theorem modify_length (f : Message → Message) (pre : List Message) (m : Message)
    (ms : List Message) : (pre ++ m :: ms).modify pre.length f = pre ++ f m :: ms := by
  induction pre with
  | nil => rfl
  | cons p pre ih => simp [ih]

theorem setAll_indexed (set : Message → String → Message) (keep : String → Bool)
    (f : Message → Option String) (g : Message → Message) (ms pre : List Message) :
    setAll set (((ms.zipIdx pre.length).filterMap fun e => (f e.1).map (e.2,·)).filter
        fun e => keep e.2) (pre ++ ms.map g) =
      pre ++ ms.map fun m => ((f m).filter keep).elim (g m) (set (g m)) := by
  induction ms generalizing pre with
  | nil => simp [setAll]
  | cons m ms ih =>
    have step (x : Message) :
        setAll set (((ms.zipIdx (pre.length+1)).filterMap fun e => (f e.1).map (e.2,·)).filter
          fun e => keep e.2) (pre ++ x :: ms.map g) =
        pre ++ x :: ms.map fun m => ((f m).filter keep).elim (g m) (set (g m)) := by
      have h := ih (pre ++ [x])
      rwa [length_append,length_singleton,append_assoc,append_assoc] at h
    cases hf : f m with
    | none => simpa [zipIdx_cons,hf] using step (g m)
    | some t =>
      by_cases hk : keep t
      · simpa [zipIdx_cons,hf,hk,setAll,modify_length,Option.filter_some] using step (set (g m) t)
      · simpa [zipIdx_cons,hf,hk,Option.filter_some] using step (g m)

theorem restoreMessages_onDisk (generation : Option String) :
    restoreMessages D (bindingOf s generation) s.onDisk.apiMessages = s.history D := by
  have hids := setAll_indexed setTurnId (fun _ => true) messageTurnId storedValue s.apiMessages []
  have hts := setAll_indexed setMessageTime D.validTime messageTime
    (fun m => (messageTurnId m).elim (storedValue m) (setTurnId (storedValue m))) s.apiMessages []
  have hall (t : Option String) : t.filter (fun _ => true) = t := by cases t <;> rfl
  simp only [length_nil,nil_append,filter_true,hall] at hids hts
  simp only [restoreMessages,storedTurnIds,storedMessageTimes,bindingOf,storedPairs_listValue,
    turnIds,messageTimes,indexed,Session.onDisk,hids,hts,Session.history]
  refine map_congr_left fun m _ => ?_
  rw [← restore_storedValue]
  rfl

structure Extends (prev s : Session) : Prop where
  id : s.id = prev.id
  length : prev.apiMessages.length ≤ s.apiMessages.length
  take : (s.history D).take prev.apiMessages.length = prev.history D

/-- The loaded session `cur` after the delta of `s`: metadata older than what it
already has is skipped, messages are not. -/
def advance (cur s : Session) : Session :=
  let c := cur.withMessages (s.history D)
  if cur.updatedAt ≤ s.updatedAt then (SessionMeta.of s).apply c else c

def deltas : Session → List Session → List JournalRecord
  | _, [] => []
  | prev, s :: later => deltaOf D s prev.apiMessages.length ++ deltas s later

def tip (base : Session) (later : List Session) : Session := later.getLast?.getD base

@[simp] theorem advance_id (cur s : Session) : (advance D cur s).id = cur.id := by
  unfold advance
  split <;> rfl

@[simp] theorem advance_apiMessages (cur s : Session) :
    (advance D cur s).apiMessages = s.history D := by
  unfold advance
  split <;> rfl

@[simp] theorem length_history : (s.history D).length = s.apiMessages.length := by
  simp [Session.history]

variable (base : Session)

@[simp] theorem tip_nil : tip base [] = base := rfl

section

variable (s : Session) (later : List Session)

@[simp] theorem tip_cons : tip base (s :: later) = tip s later := by
  cases later with
  | nil => rfl
  | cons t later => simp [tip,getLast?_cons]

@[simp] theorem tip_concat : tip base (later ++ [s]) = s := by
  simp [tip]

theorem deltas_concat : deltas D base (later ++ [s]) =
      deltas D base later ++ deltaOf D s (tip base later).apiMessages.length := by
  induction later generalizing base with
  | nil => simp [deltas]
  | cons t later ih => simp [deltas,ih]

end

theorem zipIdx_take (ms : List Message) (k n : Nat) :
    (ms.zipIdx n).take k = (ms.take k).zipIdx n := by
  induction ms generalizing k n with
  | nil => simp
  | cons m ms ih => cases k <;> simp [zipIdx_cons,ih]

def msgRecords (s : Session) (n : Nat) : List JournalRecord :=
  ((s.apiMessages.drop n).zipIdx n).map fun e => msgOf e.2 e.1

theorem deltaOf_eq (n : Nat) : deltaOf D s n = msgRecords s n ++ [metaOf D s] := rfl

theorem msgRecords_take (n k : Nat) : (msgRecords s n).take k =
      (((s.apiMessages.drop n).take k).zipIdx n).map fun e => msgOf e.2 e.1 := by
  rw [msgRecords,← map_take,zipIdx_take]

theorem take_deltaOf (n k : Nat) : (deltaOf D s n).take k = (msgRecords s n).take k ∨
      (deltaOf D s n).take k = deltaOf D s n := by
  rw [deltaOf_eq,take_append]
  cases hk : k - (msgRecords s n).length with
  | zero => exact .inl (by rw [take_zero,append_nil])
  | succ m =>
    refine .inr ?_
    rw [take_of_length_le (by omega),take_of_length_le (by simp)]

theorem replayRecord_msgOf (cur : Session) (m : Message) :
    replayRecord D journalSchemaVersion cur (some (msgOf cur.apiMessages.length m)) =
      some (cur.withMessages (cur.apiMessages ++ [m.reduced D.validTime])) := by
  have hs (o : Option String) : (o.map Value.string).bind Value.asStr? = o := by
    cases o <;> rfl
  simp [replayRecord,msgOf,hs,restore_storedValue]

theorem replay_msgs (ms : List Message) (cur : Session) (rest : List (Option JournalRecord)) :
    replayRecords D journalSchemaVersion cur
        (((ms.zipIdx cur.apiMessages.length).map fun e => msgOf e.2 e.1).map some ++ rest) =
      replayRecords D journalSchemaVersion
        (cur.withMessages (cur.apiMessages ++ ms.map (·.reduced D.validTime))) rest := by
  induction ms generalizing cur with
  | nil => simp
  | cons m ms ih =>
    have h := ih (cur.withMessages (cur.apiMessages ++ [m.reduced D.validTime]))
    simp only [withMessages_apiMessages,length_append,length_singleton,
      withMessages_withMessages,append_assoc,singleton_append] at h
    simp only [zipIdx_cons,map_cons,cons_append,replayRecords,replayRecord_msgOf,h]

variable {cur : Session}

theorem replay_meta {s : Session} (hid : s.id = cur.id) (hm : cur.apiMessages = s.history D)
    (rest : List (Option JournalRecord)) :
    replayRecords D journalSchemaVersion cur (some (metaOf D s) :: rest) =
      replayRecords D journalSchemaVersion (advance D cur s) rest := by
  have hcur : cur.withMessages (s.history D) = cur := by rw [← hm,withMessages_self]
  have hid' : (SessionMeta.of s).id = cur.id := hid
  have hup : (SessionMeta.of s).updatedAt = s.updatedAt := rfl
  rw [replayRecords]
  simp only [replayRecord,metaOf,hid',hup,ne_eq,not_true_eq_false,if_false,true_and,advance,hcur]
  by_cases h : cur.updatedAt ≤ s.updatedAt <;> simp only [h,if_true,if_false]

variable {prev : Session}

theorem replay_msgRecords {s : Session} (hx : Extends D prev s)
    (hm : cur.apiMessages = prev.history D) (k : Nat) (rest : List (Option JournalRecord)) :
    replayRecords D journalSchemaVersion cur
        (((msgRecords s prev.apiMessages.length).take k).map some ++ rest) =
      replayRecords D journalSchemaVersion
        (cur.withMessages ((s.history D).take (prev.apiMessages.length + k))) rest := by
  have hn : cur.apiMessages.length = prev.apiMessages.length := by rw [hm,length_history]
  have hr : (msgRecords s prev.apiMessages.length).take k =
      (((s.apiMessages.drop cur.apiMessages.length).take k).zipIdx cur.apiMessages.length).map
        fun e => msgOf e.2 e.1 := by
    rw [msgRecords_take,hn]
  have happ : cur.apiMessages ++ ((s.apiMessages.drop cur.apiMessages.length).take k).map
      (·.reduced D.validTime) = (s.history D).take (prev.apiMessages.length + k) := by
    rw [take_add,hx.take,hn,hm,map_take,map_drop]
    rfl
  rw [hr,replay_msgs,happ]

theorem replay_delta {s : Session} (hx : Extends D prev s) (hid : cur.id = prev.id)
    (hm : cur.apiMessages = prev.history D) (rest : List (Option JournalRecord)) :
    replayRecords D journalSchemaVersion cur
        ((deltaOf D s prev.apiMessages.length).map some ++ rest) =
      replayRecords D journalSchemaVersion (advance D cur s) rest := by
  have hl : (msgRecords s prev.apiMessages.length).length =
      s.apiMessages.length - prev.apiMessages.length := by simp [msgRecords]
  have ht := replay_msgRecords D hx hm (s.apiMessages.length - prev.apiMessages.length)
    (some (metaOf D s) :: rest)
  rw [← hl,take_length,hl,Nat.add_sub_cancel' hx.length,
    take_of_length_le (by rw [length_history])] at ht
  rw [deltaOf_eq,map_append,append_assoc]
  refine ht.trans ?_
  have hid' : s.id = (cur.withMessages (s.history D)).id := hx.id.trans hid.symm
  exact replay_meta D hid' rfl rest

theorem foldl_advance {base : Session} (hid : cur.id = base.id)
    (hm : cur.apiMessages = base.history D) (later : List Session) :
    (later.foldl (advance D) cur).id = base.id ∧
      (later.foldl (advance D) cur).apiMessages = (tip base later).history D := by
  induction later using reverseRecOn with
  | nil => exact ⟨hid,hm⟩
  | append_singleton later s ih => simp [ih.1]

theorem replay_deltas {base : Session} {later : List Session}
    (hx : (base :: later).IsChain (Extends D)) (hid : cur.id = base.id)
    (hm : cur.apiMessages = base.history D) (rest : List (Option JournalRecord)) :
    replayRecords D journalSchemaVersion cur ((deltas D base later).map some ++ rest) =
      replayRecords D journalSchemaVersion (later.foldl (advance D) cur) rest := by
  induction later generalizing base cur with
  | nil => rfl
  | cons s later ih =>
    obtain ⟨hs,hx⟩ := isChain_cons_cons.mp hx
    rw [deltas,map_append,append_assoc,replay_delta D hs hid hm,
      ih hx (by rw [advance_id,hid,hs.id]) (advance_apiMessages D cur s)]
    rfl

def scanOf (s : Session) : Scan :=
  ⟨s.apiMessages.length,s.apiMessages.length,historyHash D s.apiMessages,
    turnsHash D s.apiMessages,timesHash D s.apiMessages⟩

theorem scan_msgs (id : String) (ms : List Message) (st : Scan)
    (rest : List (Option JournalRecord)) :
    scanRecords id st (((ms.zipIdx st.durableLen).map fun e => msgOf e.2 e.1).map some ++ rest) =
      scanRecords id { st with durableLen := st.durableLen + ms.length } rest := by
  induction ms generalizing st with
  | nil => rfl
  | cons m ms ih =>
    have h := ih { st with durableLen := st.durableLen + 1 }
    simp only [zipIdx_cons,map_cons,cons_append,scanRecords,scanRecord,msgOf,
      and_self,if_true,Option.bind_some,length_cons] at h ⊢
    rw [h,Nat.add_assoc,Nat.add_comm 1]

theorem scan_delta {s : Session} (hx : Extends D prev s) (rest : List (Option JournalRecord)) :
    scanRecords s.id (scanOf D prev) ((deltaOf D s prev.apiMessages.length).map some ++ rest) =
      scanRecords s.id (scanOf D s) rest := by
  have hlen : prev.apiMessages.length + (s.apiMessages.length - prev.apiMessages.length) =
      s.apiMessages.length := Nat.add_sub_cancel' hx.length
  have h := scan_msgs s.id (s.apiMessages.drop prev.apiMessages.length) (scanOf D prev)
    (some (metaOf D s) :: rest)
  rw [deltaOf_eq,map_append,append_assoc]
  refine h.trans ?_
  simp [scanRecords,scanRecord,metaOf,scanOf,hlen,SessionMeta.of]

theorem scan_deltas {base : Session} {later : List Session}
    (hx : (base :: later).IsChain (Extends D)) (rest : List (Option JournalRecord)) :
    scanRecords base.id (scanOf D base) ((deltas D base later).map some ++ rest) =
      scanRecords base.id (scanOf D (tip base later)) rest := by
  induction later generalizing base with
  | nil => rfl
  | cons s later ih =>
    obtain ⟨hs,hx⟩ := isChain_cons_cons.mp hx
    rw [deltas,map_append,append_assoc,← hs.id,scan_delta D hs,ih hx,tip_cons]

def sessionsOf (calls : List SaveCall) : List Session := calls.map (·.session)

/-- The records that one of `calls` can write. -/
inductive Written (calls : List SaveCall) : JournalRecord → Prop
  | openRecord (c : SaveCall) (hc : c ∈ calls) : Written calls (openOf D c.session (some c.uuid))
  | msg (s : Session) (hs : s ∈ sessionsOf calls) (i : Nat) (m : Message)
      (hm : s.apiMessages[i]? = some m) : Written calls (msgOf i m)
  | metaRecord (s : Session) (hs : s ∈ sessionsOf calls) : Written calls (metaOf D s)

/-- The generation a call can publish its snapshot with: the one it draws, or none
for a plain JSON save. -/
def SaveCall.Publishes (c : SaveCall) (g : Option String) : Prop :=
  g = some c.uuid ∨ g = none ∧ c.mode = .json ∧ c.durable = false

/-- Decoding is the identity on what `calls` write: a snapshot and a record read
back as they were, and a record that was cut short reads as nothing. -/
structure Deps.Identity (calls : List SaveCall) : Prop where
  session : ∀ c ∈ calls, ∀ g, c.Publishes g →
    D.readSession (snapshotJson D c.session g) = some c.session.onDisk
  binding : ∀ c ∈ calls, ∀ g, c.Publishes g →
    D.readBinding (snapshotJson D c.session g) = some (bindingOf c.session g)
  record : ∀ r, Written D calls r → D.readRecord (recordText D r) = some r
  torn : ∀ r, Written D calls r → ∀ t, Lines.TornLine (recordText D r) t →
    t ≠ recordText D r → D.readRecord t = none

theorem recordText_plain (r : JournalRecord) : Lines.Plain (recordText D r) := by
  intro c hc
  have h := print_printable _ c hc
  constructor
  all_goals
    rintro rfl
    exact absurd h (by decide)

theorem recordTexts_plain (rs : List JournalRecord) :
    ∀ l ∈ rs.map (recordText D), Lines.Plain l := by
  intro l hl
  obtain ⟨r,-,rfl⟩ := mem_map.mp hl
  exact recordText_plain D r

section

variable {calls : List SaveCall} (hD : D.Identity calls) {rs : List JournalRecord}
  (hr : ∀ r ∈ rs, Written D calls r)

include calls hD hr

theorem readRecord_map : (rs.map (recordText D)).map D.readRecord = rs.map some := by
  rw [map_map]
  exact map_congr_left fun r h => hD.record r (hr r h)

theorem readLines_journalBytes : readLines D (Utf8.decodeLossy (journalBytes D rs)) = rs.map some ∧
      (Utf8.decode (journalBytes D rs)).map (readLines D) = some (rs.map some) := by
  have h : readLines D (Lines.terminated (rs.map (recordText D))) = rs.map some := by
    have hl := Lines.lines_terminated (recordTexts_plain D rs) []
    rw [append_nil] at hl
    rw [readLines,hl,Lines.lines,Lines.linesFrom,if_pos rfl,append_nil,readRecord_map D hD hr]
  rw [journalBytes,Utf8.decodeLossy_encode,Utf8.decode_encode]
  exact ⟨h,congrArg some h⟩

end

end Synaps.Store
