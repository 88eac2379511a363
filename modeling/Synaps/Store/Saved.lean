import Synaps.Store.Save
import Mathlib.Data.List.Chain
import Mathlib.Data.Set.Function

/-!
Runs of saves of one session id. After any run of complete saves the two files
hold the snapshot of some save and the deltas of all saves after it, so with times that do not go
back a load gives the last saved session, unless a file has outgrown the bound of every read.
-/

set_option autoImplicit false

namespace Synaps.Store

open Json List Option

variable (D : Deps)

def Compared (sessions : List Session) : Set (List UInt8) :=
  {bytes | ∃ s ∈ sessions, ∃ n, bytes = historyBytes (s.apiMessages.take n) ∨
    bytes = indexedBytes (turnIds (s.apiMessages.take n)) ∨
    bytes = indexedBytes (messageTimes (s.apiMessages.take n))}

variable {ms ns : List Message}

theorem indexed_inj (f : Message → Option String) {k : Nat} (hl : ms.length = ns.length)
    (h : ((ms.zipIdx k).filterMap fun e => (f e.1).map (e.2,·)) =
      (ns.zipIdx k).filterMap fun e => (f e.1).map (e.2,·)) : ms.map f = ns.map f := by
  have later (xs : List Message) (j : Nat) (t : String) :
      (j,t) ∉ (xs.zipIdx (j+1)).filterMap fun e => (f e.1).map (e.2,·) := by
    intro hm
    obtain ⟨e,he,ht⟩ := mem_filterMap.mp hm
    obtain ⟨x,-,hx⟩ := map_eq_some_iff.mp ht
    have hle := le_snd_of_mem_zipIdx he
    have heq := congrArg Prod.fst hx
    simp only at heq
    omega
  induction ms generalizing ns k with
  | nil =>
    cases ns with
    | nil => rfl
    | cons n ns => simp at hl
  | cons m ms ih =>
    cases ns with
    | nil => simp at hl
    | cons n ns =>
      have hl' : ms.length = ns.length := by simpa using hl
      simp only [zipIdx_cons] at h
      cases hm : f m with
      | none =>
        cases hn : f n with
        | none => simpa [hm,hn] using ih hl' (by simpa [hm,hn] using h)
        | some t =>
          have hmem := later ms k t
          simp only [filterMap_cons,hm,hn,map_none,map_some] at h
          exact absurd (h ▸ mem_cons_self) hmem
      | some t =>
        cases hn : f n with
        | none =>
          have hmem := later ns k t
          simp only [filterMap_cons,hm,hn,map_none,map_some] at h
          exact absurd (h ▸ mem_cons_self) hmem
        | some u =>
          simp only [filterMap_cons,hm,hn,map_some,cons.injEq,Prod.mk.injEq,true_and] at h
          simp [hm,hn,h.1,ih hl' h.2]

theorem map_reduced_eq (hs : ms.map storedValue = ns.map storedValue)
    (ht : ms.map messageTurnId = ns.map messageTurnId)
    (ha : ms.map messageTime = ns.map messageTime) :
    ms.map (·.reduced D.validTime) = ns.map (·.reduced D.validTime) := by
  induction ms generalizing ns with
  | nil =>
    cases ns with
    | nil => rfl
    | cons n ns => simp at hs
  | cons m ms ih =>
    cases ns with
    | nil => simp at hs
    | cons n ns =>
      simp only [map_cons,cons.injEq] at hs ht ha ⊢
      refine ⟨?_,ih hs.2 ht.2 ha.2⟩
      rw [← restore_storedValue,← restore_storedValue,hs.1,ht.1,ha.1]

theorem array_print_inj {xs ys : List Value}
    (h : Utf8.encode (print (.array xs)) = Utf8.encode (print (.array ys))) : xs = ys := by
  have hv := print_injective (Utf8.encode_injective h)
  exact Value.array.inj hv

theorem indexedValues_inj {xs ys : List (Nat × String)}
    (h : indexedValues xs = indexedValues ys) : xs = ys := by
  refine (map_injective_iff.mpr fun a b hab => ?_) h
  obtain ⟨i,t⟩ := a
  obtain ⟨j,u⟩ := b
  simpa [natValue] using hab

theorem stored_map_inj (h : ms.map stored = ns.map stored) :
    ms.map storedValue = ns.map storedValue := by
  have hv : (ms.map storedValue).map Message.value = (ns.map storedValue).map Message.value := by
    rw [funext stored_eq] at h
    simpa [Function.comp_def] using h
  exact map_injective_iff.mpr (fun _ _ => Message.ext) hv

section

variable {sessions : List Session} (hsha : Set.InjOn D.sha256 (Compared sessions))

include hsha

theorem indexedHash_inj {xs ys : List (Nat × String)} (hx : indexedBytes xs ∈ Compared sessions)
    (hy : indexedBytes ys ∈ Compared sessions) (h : indexedHash D xs = indexedHash D ys) :
    xs = ys := by
  unfold indexedHash at h
  split at h <;> split at h
  · simp_all
  · cases h
  · cases h
  · exact indexedValues_inj (array_print_inj (hsha hx hy (some.inj h)))

theorem history_eq_of_hashes {s t : Session} (hs : s ∈ sessions) (ht : t ∈ sessions) {n : Nat}
    (hn : t.apiMessages.length = n) (hl : n ≤ s.apiMessages.length)
    (hh : historyHash D (s.apiMessages.take n) = historyHash D t.apiMessages)
    (hu : turnsHash D (s.apiMessages.take n) = turnsHash D t.apiMessages)
    (ha : timesHash D (s.apiMessages.take n) = timesHash D t.apiMessages) :
    (s.history D).take n = t.history D := by
  have htake : t.apiMessages.take n = t.apiMessages := take_of_length_le (le_of_eq hn)
  rw [← htake] at hh hu ha
  have hlen : (s.apiMessages.take n).length = (t.apiMessages.take n).length := by
    rw [htake,length_take,hn]
    omega
  have h₁ := hsha ⟨s,hs,n,.inl rfl⟩ ⟨t,ht,n,.inl rfl⟩ hh
  have h₂ := indexedHash_inj D hsha ⟨s,hs,n,.inr (.inl rfl)⟩ ⟨t,ht,n,.inr (.inl rfl)⟩ hu
  have h₃ := indexedHash_inj D hsha ⟨s,hs,n,.inr (.inr rfl)⟩ ⟨t,ht,n,.inr (.inr rfl)⟩ ha
  rw [Session.history,Session.history,← map_take,← htake]
  exact map_reduced_eq D (stored_map_inj (array_print_inj h₁)) (indexed_inj _ hlen h₂)
    (indexed_inj _ hlen h₃)

end

inductive Saved : List (SaveCall × SaveReceipt) → Files → Prop
  | nil : Saved [] Files.empty
  | save {log : List (SaveCall × SaveReceipt)} {f : Files} (c : SaveCall) (ops : List FileOp)
      (receipt : SaveReceipt) (h : Saved log f) (hc : c.save D f = .ok (ops,receipt)) :
      Saved (log ++ [(c,receipt)]) (runOps ops f)

def snapshotBytes (s : Session) (g : Option String) : List UInt8 :=
  Utf8.encode (snapshotJson D s g)

def journalOf (base : SaveCall) (later : List Session) : List JournalRecord :=
  openOf D base.session (some base.uuid) :: deltas D base.session later

def publishedJournal (s : Session) (mode : SessionPersistence) (g : Option String) :
    Option (List UInt8) :=
  match mode with
  | .journal => some (journalBytes D [openOf D s g])
  | .json => none

theorem runOps_publish (s : Session) (mode : SessionPersistence) (durable bind : Bool)
    (uuid : String) (f : Files) :
    runOps (publishSnapshot D s mode durable bind uuid).1 f =
      ⟨some (snapshotBytes D s (if bind then some uuid else none)),
        publishedJournal D s mode (if bind then some uuid else none)⟩ := by
  cases mode <;> cases durable <;> cases bind <;> rfl

structure Appends (f : Files) (s : Session) (file : List UInt8) (st : JournalState) : Prop where
  snapshot : f.snapshot = some file
  state : ∃ binding, snapshotBinding D file = some binding ∧
    readJournalState D f.journal s.id binding.generation = .ok (some st)
  history : continuesHistory D st s = true

def deltaBytes (s : Session) (st : JournalState) : List UInt8 :=
  journalBytes D (deltaOf D s st.durableLen)

/-- Every save publishes a snapshot, bound if there is or will be a journal, or
appends to a journal that it read to its end and that its history continues. -/
theorem save_cases {c : SaveCall} {f : Files} {ops : List FileOp} {receipt : SaveReceipt}
    (h : c.save D f = .ok (ops,receipt)) :
    (∃ mode durable bind, (mode = .journal → bind = true) ∧ (f.journal.isSome → bind = true) ∧
      (bind = false → c.mode = .json ∧ c.durable = false) ∧
      publishSnapshot D c.session mode durable bind c.uuid = (ops,receipt)) ∨
    ∃ snapshot st, Appends D f c.session snapshot st ∧
      ((snapshotDue (st.bytes + (deltaBytes D c.session st).length) snapshot.length = false ∧
        receipt.mode = .append (c.session.apiMessages.length - st.durableLen) ∧
        ops = [.appendJournal (deltaBytes D c.session st)]) ∨
      (receipt.mode = .fullSnapshot ∧ ops = .appendJournal (deltaBytes D c.session st) ::
        (fullSnapshotReset D c.session c.uuid).1)) := by
  have full (h : (Except.ok (fullSnapshotReset D c.session c.uuid) :
      Except IoError (List FileOp × SaveReceipt)) = .ok (ops,receipt)) :
      ∃ mode durable bind, (mode = .journal → bind = true) ∧ (f.journal.isSome → bind = true) ∧
        (bind = false → c.mode = .json ∧ c.durable = false) ∧
        publishSnapshot D c.session mode durable bind c.uuid = (ops,receipt) :=
    ⟨.journal,false,true,fun _ => rfl,fun _ => rfl,nofun,Except.ok.inj h⟩
  unfold SaveCall.save at h
  split at h
  · exact .inl ⟨c.mode,true,true,fun _ => rfl,fun _ => rfl,nofun,Except.ok.inj h⟩
  rename_i hdurable
  obtain hm | hm : c.mode = .json ∨ c.mode = .journal := by cases c.mode <;> simp
  · rw [hm] at h
    refine .inl ⟨.json,false,_,nofun,fun hj => ?_,fun _ => ⟨hm,by simpa using hdurable⟩,
      Except.ok.inj h⟩
    rw [hj,Bool.true_or]
  · simp only [saveSessionInDir,hm,saveJournalMode] at h
    split at h
    · exact .inl (full h)
    rename_i snapshot hsnap
    split at h
    · exact .inl (full h)
    rename_i binding hbind
    split at h
    · cases h
    · exact .inl (full h)
    rename_i st hst
    split at h
    · rename_i hcont
      refine .inr ⟨snapshot,st,⟨hsnap,⟨binding,hbind,hst⟩,hcont⟩,?_⟩
      split at h
      · cases h
        exact .inr ⟨rfl,rfl⟩
      · rename_i hdue
        cases h
        exact .inl ⟨Bool.eq_false_of_not_eq_true hdue,rfl,rfl⟩
    · exact .inl (full h)

theorem save_append {f : Files} {s : Session} {file : List UInt8} {st : JournalState}
    (ha : Appends D f s file st) (uuid : String)
    (hdue : snapshotDue (st.bytes + (deltaBytes D s st).length) file.length = false) :
    SaveCall.save D ⟨s,.journal,false,uuid⟩ f = .ok ([.appendJournal (deltaBytes D s st)],
        ⟨.append (s.apiMessages.length - st.durableLen),(deltaBytes D s st).length⟩) := by
  obtain ⟨binding,hb,hst⟩ := ha.state
  rw [deltaBytes] at hdue
  simp [SaveCall.save,saveSessionInDir,saveJournalMode,ha.snapshot,hb,hst,ha.history,hdue,deltaBytes]

theorem publish_mode {s : Session} {mode : SessionPersistence} {durable bind : Bool}
    {uuid : String} {ops : List FileOp} {receipt : SaveReceipt}
    (h : publishSnapshot D s mode durable bind uuid = (ops,receipt)) :
    receipt.mode = .fullSnapshot := by
  cases h
  rfl

def stateOf (s : Session) (bytes : Nat) : JournalState :=
  ⟨s.apiMessages.length,historyHash D s.apiMessages,turnsHash D s.apiMessages,
    timesHash D s.apiMessages,bytes⟩

/-- The files after a run whose last full snapshot was published by `base` and
whose later saves, all appended, are `later`. -/
inductive Held (f : Files) (base : SaveCall) (later : List Session) : Prop
  | bare (g : Option String) (hg : base.Publishes g) (hl : later = [])
      (hf : f = ⟨some (snapshotBytes D base.session g),none⟩)
  | journaled (hx : (base.session :: later).IsChain (Extends D))
      (hf : f = ⟨some (snapshotBytes D base.session (some base.uuid)),
        some (journalBytes D (journalOf D base later))⟩)

structure Holds (calls : List SaveCall) (f : Files) (base : SaveCall) (later : List Session) :
    Prop where
  base_mem : base ∈ calls
  later_mem : ∀ s ∈ later, s ∈ sessionsOf calls
  files : Held D f base later

/-- What is assumed of the libraries on the saves `calls`: decoding is the identity,
SHA-256 is injective on the prefixes that are compared, and a generation is not
empty. -/
structure Deps.Sound (calls : List SaveCall) : Prop extends D.Identity calls where
  sha : Set.InjOn D.sha256 (Compared (sessionsOf calls))
  uuid : ∀ c ∈ calls, c.uuid ≠ ""

section

variable {D} {calls : List SaveCall}

variable {c : SaveCall}

theorem mem_sessionsOf (h : c ∈ calls) : c.session ∈ sessionsOf calls :=
  mem_map_of_mem h

variable {f : Files} {log : List (SaveCall × SaveReceipt)}

theorem Saved.step (h : Saved D log f) (p : List FileOp × SaveReceipt) (hc : c.save D f = .ok p) :
    Saved D (log ++ [(c,p.2)]) (runOps p.1 f) := .save c p.1 p.2 h hc

theorem Deps.Sound.mono {subset : List SaveCall} (hD : D.Sound calls) (h : subset ⊆ calls) :
    D.Sound subset := by
  have hs : sessionsOf subset ⊆ sessionsOf calls := map_subset _ h
  have hw : ∀ r, Written D subset r → Written D calls r := by
    intro r hr
    cases hr with
    | openRecord c hc => exact .openRecord c (h hc)
    | msg s hs' i m hm => exact .msg s (hs hs') i m hm
    | metaRecord s hs' => exact .metaRecord s (hs hs')
  have hc : Compared (sessionsOf subset) ⊆ Compared (sessionsOf calls) := by
    rintro bytes ⟨s,hs',hb⟩
    exact ⟨s,hs hs',hb⟩
  exact ⟨⟨fun c hc => hD.session c (h hc),fun c hc => hD.binding c (h hc),
    fun r hr => hD.record r (hw r hr),fun r hr => hD.torn r (hw r hr)⟩,
    hD.sha.mono hc,fun c hc => hD.uuid c (h hc)⟩

variable {later : List Session}

theorem tip_mem {base : Session} (hb : base ∈ sessionsOf calls)
    (hl : ∀ s ∈ later, s ∈ sessionsOf calls) : tip base later ∈ sessionsOf calls := by
  rcases eq_nil_or_concat later with rfl | ⟨ts,t,rfl⟩
  · exact hb
  · rw [concat_eq_append,tip_concat]
    exact hl t (by simp)

theorem tip_id {base : Session} (hx : (base :: later).IsChain (Extends D)) :
    (tip base later).id = base.id := by
  induction later generalizing base with
  | nil => rfl
  | cons s later ih =>
    obtain ⟨hs,hx⟩ := isChain_cons_cons.mp hx
    rw [tip_cons,ih hx,hs.id]

variable {s : Session}

theorem written_delta (hs : s ∈ sessionsOf calls) (n : Nat) :
    ∀ r ∈ deltaOf D s n, Written D calls r := by
  intro r hr
  rw [deltaOf_eq,mem_append,mem_singleton] at hr
  rcases hr with hr | rfl
  · obtain ⟨e,he,rfl⟩ := mem_map.mp hr
    obtain ⟨hn,he⟩ := mk_mem_zipIdx_iff_le_and_getElem?_sub.mp he
    rw [getElem?_drop,Nat.add_sub_cancel' hn] at he
    exact .msg s hs e.2 e.1 he
  · exact .metaRecord s hs

theorem written_deltas {base : Session} (hl : ∀ s ∈ later, s ∈ sessionsOf calls) :
    ∀ r ∈ deltas D base later, Written D calls r := by
  induction later generalizing base with
  | nil => intro r hr; cases hr
  | cons s later ih =>
    exact forall_mem_append.mpr ⟨written_delta (hl s mem_cons_self) _,
      ih (fun t ht => hl t (mem_cons_of_mem _ ht))⟩

variable {base : SaveCall}

theorem written_journalOf (hb : base ∈ calls) (hl : ∀ s ∈ later, s ∈ sessionsOf calls) :
    ∀ r ∈ journalOf D base later, Written D calls r := by
  exact forall_mem_cons.mpr ⟨.openRecord base hb,written_deltas hl⟩

theorem matchingOpen_openOf {g : String} (hg : g ≠ "") (s : Session) (b : Option String) :
    matchingOpen (openOf D s (some g)) b = if b = some g then some journalSchemaVersion else none := by
  simp [matchingOpen,openOf,hg]

theorem journalBytes_append (rs ss : List JournalRecord) :
    journalBytes D (rs ++ ss) = journalBytes D rs ++ journalBytes D ss := by
  simp [journalBytes]

theorem endsWithNewline_journalBytes (r : JournalRecord) (rs : List JournalRecord) :
    Lines.endsWithNewline (journalBytes D (r :: rs)) = true := by
  rcases eq_nil_or_concat rs with rfl | ⟨ts,t,rfl⟩
  · exact Lines.endsWithNewline_terminated [] _
  · rw [journalBytes,concat_eq_append,← cons_append,map_append]
    exact Lines.endsWithNewline_terminated _ _

theorem scanJournal_append (hx : (base.session :: later).IsChain (Extends D))
    (hne : base.uuid ≠ "") (rest : List (Option JournalRecord)) :
    scanJournal base.session.id (some base.uuid) ((journalOf D base later).map some ++ rest) =
      (scanRecords base.session.id (scanOf D (tip base.session later)) rest).filter
        fun st => st.hashedLen = st.durableLen := by
  have hm := matchingOpen_openOf (D := D) hne base.session (some base.uuid)
  rw [if_pos rfl] at hm
  rw [← scan_deltas D hx rest]
  exact if_pos hm

theorem scanJournal_journalOf (hx : (base.session :: later).IsChain (Extends D))
    (hne : base.uuid ≠ "") :
    scanJournal base.session.id (some base.uuid) ((journalOf D base later).map some) =
      some (scanOf D (tip base.session later)) := by
  rw [← append_nil (map _ _),scanJournal_append hx hne]
  simp [scanRecords,filter_some,scanOf]

variable {g : Option String}

theorem scanJournal_stale (hne : base.uuid ≠ "") (hg : g ≠ some base.uuid) (id : String)
    (rest : List (Option JournalRecord)) :
    scanJournal id g (some (openOf D base.session (some base.uuid)) :: rest) = none := by
  have hm := matchingOpen_openOf (D := D) hne base.session g
  rw [if_neg hg] at hm
  exact if_neg fun h => by cases hm.symm.trans h

theorem readArtifactBytes_ok {name : String} {file x : Option (List UInt8)}
    (h : readArtifactBytes name file = .ok x) : x = file := by
  unfold readArtifactBytes at h
  split at h
  · exact (Except.ok.inj h).symm
  · split at h
    · cases h
    · exact (Except.ok.inj h).symm

variable {st : JournalState}

theorem readJournalState_some {journal : Option (List UInt8)} {id : String}
    (h : readJournalState D journal id g = .ok (some st)) :
    ∃ raw text sc, journal = some raw ∧ Lines.endsWithNewline raw = true ∧
      Utf8.decode raw = some text ∧ scanJournal id g (readLines D text) = some sc ∧
      st = ⟨sc.durableLen,sc.historyHash,sc.turnsHash,sc.timesHash,raw.length⟩ := by
  unfold readJournalState at h
  split at h
  · cases h
  · cases h
  rename_i raw hraw
  split at h
  · rename_i hnl
    obtain ⟨sc,hsc,hst⟩ := map_eq_some_iff.mp (Except.ok.inj h)
    obtain ⟨text,ht,hsc⟩ := bind_eq_some_iff.mp hsc
    exact ⟨raw,text,sc,(readArtifactBytes_ok hraw).symm,hnl,ht,hsc,hst.symm⟩
  · cases h

section

variable (hD : D.Sound calls) (hb : base ∈ calls) (hl : ∀ s ∈ later, s ∈ sessionsOf calls)
  (hx : (base.session :: later).IsChain (Extends D))

include hD hb hl hx

theorem readJournalState_journalOf :
    readJournalState D (some (journalBytes D (journalOf D base later))) base.session.id
        (some base.uuid) =
      (readArtifactBytes (journalName base.session.id)
        (some (journalBytes D (journalOf D base later)))).map fun _ =>
          some (stateOf D (tip base.session later) (journalBytes D (journalOf D base later)).length) := by
  obtain ⟨text,ht,hr⟩ := map_eq_some_iff.mp
    (readLines_journalBytes D hD.toIdentity (written_journalOf hb hl)).2
  have hnl : Lines.endsWithNewline (journalBytes D (journalOf D base later)) = true :=
    endsWithNewline_journalBytes _ _
  unfold readJournalState
  cases hread : readArtifactBytes (journalName base.session.id)
      (some (journalBytes D (journalOf D base later))) with
  | error e => rfl
  | ok x =>
    obtain rfl := readArtifactBytes_ok hread
    simp only [hnl,if_true,ht,bind_some,hr,scanJournal_journalOf hx (hD.uuid base hb),map_some]
    rfl

theorem readJournalState_inv {id : String} (hid : id = base.session.id)
    (h : readJournalState D (some (journalBytes D (journalOf D base later))) id g =
      .ok (some st)) :
    g = some base.uuid ∧
      st = stateOf D (tip base.session later) (journalBytes D (journalOf D base later)).length := by
  have hg : g = some base.uuid := by
    obtain ⟨text,ht,hr⟩ := map_eq_some_iff.mp
      (readLines_journalBytes D hD.toIdentity (written_journalOf hb hl)).2
    obtain ⟨raw,text',sc,hraw,-,ht',hsc,-⟩ := readJournalState_some h
    cases hraw
    cases ht.symm.trans ht'
    by_contra hne
    rw [hr,journalOf,map_cons,scanJournal_stale (hD.uuid base hb) hne] at hsc
    cases hsc
  refine ⟨hg,?_⟩
  rw [hg,hid,readJournalState_journalOf hD hb hl hx] at h
  cases hread : readArtifactBytes (journalName base.session.id)
      (some (journalBytes D (journalOf D base later))) with
  | error e => rw [hread] at h; cases h
  | ok x =>
    rw [hread] at h
    exact (some.inj (Except.ok.inj h)).symm

end

theorem appends_extends (hD : D.Sound calls) (hf : Holds D calls f base later)
    (hs : s ∈ sessionsOf calls) (hid : s.id = base.session.id) {file : List UInt8}
    (ha : Appends D f s file st) :
    st.durableLen = (tip base.session later).apiMessages.length ∧
      Extends D (tip base.session later) s ∧
      (base.session :: later).IsChain (Extends D) ∧
      f = ⟨some (snapshotBytes D base.session (some base.uuid)),
        some (journalBytes D (journalOf D base later))⟩ := by
  obtain ⟨binding,hbind,hst⟩ := ha.state
  cases hf.files with
  | bare g hg hl hf =>
    obtain ⟨raw,-,-,hraw,-⟩ := readJournalState_some hst
    rw [hf] at hraw
    cases hraw
  | journaled hx hfiles =>
    rw [hfiles] at hst
    obtain ⟨-,rfl⟩ := readJournalState_inv hD hf.base_mem hf.later_mem hx hid hst
    have hc := ha.history
    simp only [continuesHistory,Bool.and_eq_true,beq_iff_eq,decide_eq_true_eq] at hc
    obtain ⟨⟨⟨hlen,hh⟩,hu⟩,ht⟩ := hc
    have htip := tip_mem (mem_sessionsOf hf.base_mem) hf.later_mem
    exact ⟨rfl,⟨hid.trans (tip_id hx).symm,hlen,
      history_eq_of_hashes D hD.sha hs htip rfl hlen hh hu ht⟩,hx,hfiles⟩

theorem chain_concat {base : Session} (hx : (base :: later).IsChain (Extends D))
    (hs : Extends D (tip base later) s) : (base :: (later ++ [s])).IsChain (Extends D) := by
  induction later generalizing base with
  | nil => exact isChain_cons_cons.mpr ⟨hs,isChain_singleton s⟩
  | cons t later ih =>
    obtain ⟨ht,hx⟩ := isChain_cons_cons.mp hx
    rw [tip_cons] at hs
    exact isChain_cons_cons.mpr ⟨ht,ih hx hs⟩

theorem journalOf_concat (base : SaveCall) (later : List Session) (s : Session) :
    journalOf D base (later ++ [s]) = journalOf D base later ++
      deltaOf D s (tip base.session later).apiMessages.length := by
  rw [journalOf,deltas_concat,← cons_append]
  rfl

theorem publish_holds {mode : SessionPersistence} {durable bind : Bool} (hc : c ∈ calls)
    (hm : mode = .journal → bind = true) (hb : bind = false → c.mode = .json ∧ c.durable = false)
    (f : Files) :
    Holds D calls (runOps (publishSnapshot D c.session mode durable bind c.uuid).1 f) c [] := by
  refine ⟨hc,by simp,?_⟩
  rw [runOps_publish]
  cases mode with
  | json =>
    refine .bare (if bind then some c.uuid else none) ?_ rfl rfl
    cases bind with
    | true => exact .inl rfl
    | false => exact .inr ⟨rfl,hb rfl⟩
  | journal =>
    rw [hm rfl]
    exact .journaled (isChain_singleton _) rfl

variable {ops : List FileOp} {receipt : SaveReceipt}

theorem published_holds {mode : SessionPersistence} {durable bind : Bool} (hc : c ∈ calls)
    (hm : mode = .journal → bind = true) (hb : bind = false → c.mode = .json ∧ c.durable = false)
    (hp : publishSnapshot D c.session mode durable bind c.uuid = (ops,receipt)) (f : Files) :
    Holds D calls (runOps ops f) c [] := by
  rw [← show (publishSnapshot D c.session mode durable bind c.uuid).1 = ops from
    congrArg Prod.fst hp]
  exact publish_holds hc hm hb f

theorem append_holds (hf : Holds D calls f base later) (hs : s ∈ sessionsOf calls)
    (hx : (base.session :: later).IsChain (Extends D)) (he : Extends D (tip base.session later) s)
    (hfiles : f = ⟨some (snapshotBytes D base.session (some base.uuid)),
      some (journalBytes D (journalOf D base later))⟩) :
    Holds D calls (runOps [.appendJournal (journalBytes D
      (deltaOf D s (tip base.session later).apiMessages.length))] f) base (later ++ [s]) := by
  refine ⟨hf.base_mem,fun t ht => ?_,.journaled (chain_concat hx he) ?_⟩
  · rcases mem_append.mp ht with ht | ht
    · exact hf.later_mem t ht
    · exact mem_singleton.mp ht ▸ hs
  · rw [hfiles,journalOf_concat,journalBytes_append]
    rfl

theorem save_holds (hD : D.Sound calls) (hf : Holds D calls f base later) (hc : c ∈ calls)
    (hid : c.session.id = base.session.id) (h : c.save D f = .ok (ops,receipt)) :
    (receipt.mode = .fullSnapshot ∧ Holds D calls (runOps ops f) c []) ∨
      ((∃ n, receipt.mode = .append n) ∧
        Holds D calls (runOps ops f) base (later ++ [c.session])) := by
  rcases save_cases D h with ⟨mode,durable,bind,hm,-,hb,hp⟩ | ⟨file,st,ha,hops⟩
  · exact .inl ⟨publish_mode D hp,published_holds hc hm hb hp f⟩
  obtain ⟨hlen,hx,hchain,hfiles⟩ := appends_extends hD hf (mem_sessionsOf hc) hid ha
  rcases hops with ⟨-,hm,rfl⟩ | ⟨hm,rfl⟩
  · refine .inr ⟨⟨_,hm⟩,?_⟩
    rw [deltaBytes,hlen]
    exact append_holds hf (mem_sessionsOf hc) hchain hx hfiles
  · refine .inl ⟨hm,?_⟩
    rw [runOps,foldl_cons]
    exact publish_holds hc (fun _ => rfl) nofun _

theorem save_empty (hc : c ∈ calls) (h : c.save D Files.empty = .ok (ops,receipt)) :
    receipt.mode = .fullSnapshot ∧ Holds D calls (runOps ops Files.empty) c [] := by
  rcases save_cases D h with ⟨mode,durable,bind,hm,-,hb,hp⟩ | ⟨file,st,ha,-⟩
  · exact ⟨publish_mode D hp,published_holds hc hm hb hp _⟩
  · cases ha.snapshot

theorem load_snapshot (hD : D.Sound calls) (hb : base ∈ calls) (hg : base.Publishes g)
    (journal : Option (List UInt8)) (id : String) :
    loadSessionInDir D ⟨some (snapshotBytes D base.session g),journal⟩ id =
      match readArtifactBytes (snapshotName id) (some (snapshotBytes D base.session g)),
        readArtifactBytes (journalName id) journal with
      | .error e, _ | .ok _, .error e => .error e
      | .ok _, .ok none => .ok (base.session.opened D)
      | .ok _, .ok (some raw) =>
        .ok (replayJournal D g (base.session.opened D) (readLines D (Utf8.decodeLossy raw))) := by
  have hbind : fromSlice D.readBinding (snapshotBytes D base.session g) =
      some (bindingOf base.session g) := by
    rw [fromSlice,snapshotBytes,Utf8.decode_encode,bind_some,hD.binding base hb g hg]
  have hsess : fromSlice D.readSession (snapshotBytes D base.session g) =
      some base.session.onDisk := by
    rw [fromSlice,snapshotBytes,Utf8.decode_encode,bind_some,hD.session base hb g hg]
  have hopen : (clampKeepwarmToTotals base.session.onDisk).withMessages
      (restoreMessages D (bindingOf base.session g)
        (clampKeepwarmToTotals base.session.onDisk).apiMessages) = base.session.opened D :=
    congrArg (clampKeepwarmToTotals base.session.onDisk).withMessages
      (restoreMessages_onDisk D base.session g)
  unfold loadSessionInDir
  cases hr : readArtifactBytes (snapshotName id) (some (snapshotBytes D base.session g)) with
  | error e => rfl
  | ok x =>
    obtain rfl := readArtifactBytes_ok hr
    simp only [hbind,hsess,hopen]
    cases readArtifactBytes (journalName id) journal with
    | error e => rfl
    | ok y => cases y <;> rfl

theorem clamp_opened (base : Session) : clampKeepwarmToTotals (base.opened D) = base.opened D := by
  have h : clampKeepwarmToTotals (base.opened D) =
      (clampKeepwarmToTotals (clampKeepwarmToTotals base.onDisk)).withMessages (base.history D) :=
    rfl
  rw [h,clamp_idem]
  rfl

theorem replay_journalOf (hne : base.uuid ≠ "") (hx : (base.session :: later).IsChain (Extends D))
    (rest : List (Option JournalRecord)) :
    replayJournal D (some base.uuid) (base.session.opened D)
        ((journalOf D base later).map some ++ rest) =
      clampKeepwarmToTotals (replayRecords D journalSchemaVersion
        (later.foldl (advance D) (base.session.opened D)) rest) := by
  have hm := matchingOpen_openOf (D := D) hne base.session (some base.uuid)
  rw [if_pos rfl] at hm
  have hd := replay_deltas D hx (opened_id D base.session) (opened_apiMessages D base.session) rest
  simp only [journalOf,map_cons,cons_append,replayJournal,hm,hd]

theorem load_holds (hD : D.Sound calls) (hf : Holds D calls f base later) (id : String) :
    loadSessionInDir D f id =
      match readArtifactBytes (snapshotName id) f.snapshot,
        readArtifactBytes (journalName id) f.journal with
      | .error e, _ | .ok _, .error e => .error e
      | .ok _, .ok _ =>
        .ok (clampKeepwarmToTotals (later.foldl (advance D) (base.session.opened D))) := by
  cases hf.files with
  | bare g hg hlater hfiles =>
    subst hlater hfiles
    rw [load_snapshot hD hf.base_mem hg,foldl_nil,clamp_opened]
    cases readArtifactBytes (snapshotName id) (some (snapshotBytes D base.session g)) <;> rfl
  | journaled hx hfiles =>
    subst hfiles
    have hr := (readLines_journalBytes D hD.toIdentity
      (written_journalOf hf.base_mem hf.later_mem)).1
    have hrep := replay_journalOf (hD.uuid base hf.base_mem) hx []
    rw [append_nil] at hrep
    rw [load_snapshot hD hf.base_mem (.inl rfl)]
    cases readArtifactBytes (snapshotName id)
        (some (snapshotBytes D base.session (some base.uuid))) with
    | error e => rfl
    | ok x =>
      cases hj : readArtifactBytes (journalName id)
          (some (journalBytes D (journalOf D base later))) with
      | error e => rfl
      | ok y =>
        obtain rfl := readArtifactBytes_ok hj
        simp only [hr,hrep,replayRecords]

theorem saved_nil (h : Saved D log f) (hl : log = []) : f = Files.empty := by
  cases h with
  | nil => rfl
  | save c ops receipt h hc => exact absurd hl (by simp)

theorem saved_holds (hD : D.Sound calls) {id : String} (hrun : Saved D log f) (hlog : log ≠ [])
    (hs : ∀ e ∈ log, e.1 ∈ calls ∧ e.1.session.id = id) :
    ∃ pre c r post, log = pre ++ (c,r) :: post ∧ r.mode = .fullSnapshot ∧
      (∀ e ∈ post, ∃ n, e.2.mode = .append n) ∧
      Holds D calls f c (post.map (·.1.session)) := by
  induction hrun with
  | nil => exact absurd rfl hlog
  | @save log f c ops r hrun hc ih =>
    obtain ⟨hcs,hcid⟩ := hs (c,r) (by simp)
    have hs' : ∀ e ∈ log, _ := fun e he => hs e (mem_append_left _ he)
    by_cases hnil : log = []
    · subst hnil
      obtain rfl := saved_nil hrun rfl
      obtain ⟨hm,hh⟩ := save_empty hcs hc
      exact ⟨[],c,r,[],rfl,hm,by simp,hh⟩
    obtain ⟨pre,b,rb,post,rfl,hm,hpost,hh⟩ := ih hnil hs'
    have hb := hs' (b,rb) (by simp)
    rcases save_holds hD hh hcs (hcid.trans hb.2.symm) hc with ⟨hfull,hh⟩ | ⟨happ,hh⟩
    · exact ⟨pre ++ (b,rb) :: post,c,r,[],rfl,hfull,by simp,hh⟩
    refine ⟨pre,b,rb,post ++ [(c,r)],by simp,hm,fun e he => ?_,by simpa using hh⟩
    rcases mem_append.mp he with he | he
    · exact hpost e he
    · rw [mem_singleton.mp he]
      exact happ

end

/-- The session a load returns for `s` over the snapshot of `base`: the history is
reduced, the environment scrubbed, and the fields that only snapshots carry are
those of `base`, clamped. -/
def Session.reloaded (base s : Session) : Session :=
  { s with
    apiMessages := s.history D
    env := scrubSecretEnv s.env
    messageCount := base.apiMessages.length
    keepwarmCost := clampCost (clampCost base.keepwarmCost base.sessionCost) s.sessionCost
    keepwarmTokens := { base.keepwarmTokens with
      input := min (min base.keepwarmTokens.input base.totalInputTokens) s.totalInputTokens
      output := min (min base.keepwarmTokens.output base.totalOutputTokens) s.totalOutputTokens }
    totalCacheReadTokens := base.totalCacheReadTokens
    totalCacheCreationTokens := base.totalCacheCreationTokens }

def Session.replayed (base s : Session) : Session :=
  (SessionMeta.of s).apply ((base.opened D).withMessages (s.history D))

theorem replayed_self (base : Session) : base.replayed D base = base.opened D := rfl

variable {base s : Session}

theorem advance_replayed {t : Session} (h : s.updatedAt ≤ t.updatedAt) :
    advance D (base.replayed D s) t = base.replayed D t := by
  have hup : (base.replayed D s).updatedAt = s.updatedAt := rfl
  rw [advance,hup,if_pos h]
  rfl

theorem foldl_advance_replayed {later : List Session}
    (h : (base :: later).IsChain (fun s t => s.updatedAt ≤ t.updatedAt)) :
    later.foldl (advance D) (base.opened D) = base.replayed D (tip base later) := by
  have key (s : Session) (later : List Session)
      (h : (s :: later).IsChain (fun s t => s.updatedAt ≤ t.updatedAt)) :
      later.foldl (advance D) (base.replayed D s) = base.replayed D (tip s later) := by
    induction later generalizing s with
    | nil => rfl
    | cons t later ih =>
      obtain ⟨hst,h⟩ := isChain_cons_cons.mp h
      rw [foldl_cons,advance_replayed D hst,ih t h,tip_cons]
  exact key base later h

theorem clamp_replayed (h : s.id = base.id) :
    clampKeepwarmToTotals (base.replayed D s) = base.reloaded D s := by
  simp only [Session.reloaded,Session.replayed,clampKeepwarmToTotals,SessionMeta.apply,
    SessionMeta.of,Session.opened,Session.onDisk,Session.withMessages,h]

def Files.withinReadBound (f : Files) : Prop :=
  (∀ bytes ∈ f.snapshot, bytes.length ≤ maxPersistedReadBytes) ∧
    ∀ bytes ∈ f.journal, bytes.length ≤ maxPersistedReadBytes

theorem within_some {snapshot journal : List UInt8}
    (hs : snapshot.length ≤ maxPersistedReadBytes) (hj : journal.length ≤ maxPersistedReadBytes) :
    Files.withinReadBound ⟨some snapshot,some journal⟩ :=
  ⟨fun _ h => mem_some_iff.mp h ▸ hs,fun _ h => mem_some_iff.mp h ▸ hj⟩

theorem readArtifactBytes_within {name : String} {file : Option (List UInt8)}
    (h : ∀ bytes ∈ file, bytes.length ≤ maxPersistedReadBytes) :
    readArtifactBytes name file = .ok file := by
  cases file with
  | none => rfl
  | some bytes => exact if_neg (not_lt.mpr (h bytes rfl))

theorem readArtifactBytes_beyond (name : String) {file : Option (List UInt8)}
    (h : ¬∀ bytes ∈ file, bytes.length ≤ maxPersistedReadBytes) :
    ∃ message, readArtifactBytes name file = .error (.other message) := by
  cases file with
  | none => exact absurd nofun h
  | some bytes =>
    refine ⟨_,if_pos ?_⟩
    by_contra hle
    exact h fun b hb => mem_some_iff.mp hb ▸ not_lt.mp hle

section

variable {D} {calls : List SaveCall} {f : Files} {base : SaveCall} {later : List Session}

theorem load_holds_within (hD : D.Sound calls) (hf : Holds D calls f base later) (id : String)
    (hw : f.withinReadBound) :
    loadSessionInDir D f id =
      .ok (clampKeepwarmToTotals (later.foldl (advance D) (base.session.opened D))) := by
  rw [load_holds hD hf,readArtifactBytes_within hw.1,readArtifactBytes_within hw.2]

theorem appends_journaled (hD : D.Sound calls) (hf : Holds D calls f base later)
    (hx : (base.session :: later).IsChain (Extends D))
    (hfiles : f = ⟨some (snapshotBytes D base.session (some base.uuid)),
      some (journalBytes D (journalOf D base later))⟩)
    (hhead : (snapshotBinding D (snapshotBytes D base.session (some base.uuid))).map (·.generation) =
      some (some base.uuid)) (hw : f.withinReadBound) {s : Session} (hid : s.id = base.session.id)
    (hc : continuesHistory D (stateOf D (tip base.session later)
      (journalBytes D (journalOf D base later)).length) s = true) :
    Appends D f s (snapshotBytes D base.session (some base.uuid))
      (stateOf D (tip base.session later) (journalBytes D (journalOf D base later)).length) where
  snapshot := by rw [hfiles]
  state := by
    obtain ⟨b,hb,hg⟩ := map_eq_some_iff.mp hhead
    refine ⟨b,hb,?_⟩
    have hread := readJournalState_journalOf hD hf.base_mem hf.later_mem hx
    have hjournal : f.journal = some (journalBytes D (journalOf D base later)) := by rw [hfiles]
    have hbytes : readArtifactBytes (journalName base.session.id)
        (some (journalBytes D (journalOf D base later))) = .ok (some _) :=
      hjournal ▸ readArtifactBytes_within hw.2
    rw [hbytes] at hread
    rw [hg,hjournal,hid]
    exact hread
  history := hc

theorem load_beyond (hD : D.Sound calls) (hb : base ∈ calls) {g : Option String}
    (hg : base.Publishes g) (hs : f.snapshot = some (snapshotBytes D base.session g)) (id : String)
    (hw : ¬f.withinReadBound) : ∃ message, loadSessionInDir D f id = .error (.other message) := by
  obtain ⟨snapshot,journal⟩ := f
  obtain rfl : snapshot = _ := hs
  rw [load_snapshot hD hb hg]
  by_cases hs : ∀ bytes ∈ some (snapshotBytes D base.session g), bytes.length ≤ maxPersistedReadBytes
  · obtain ⟨message,hj⟩ := readArtifactBytes_beyond (journalName id) fun hj => hw ⟨hs,hj⟩
    rw [readArtifactBytes_within hs,hj]
    exact ⟨message,rfl⟩
  · obtain ⟨message,hs⟩ := readArtifactBytes_beyond (snapshotName id) hs
    rw [hs]
    exact ⟨message,rfl⟩

theorem Holds.snapshot (hf : Holds D calls f base later) :
    ∃ g, base.Publishes g ∧ f.snapshot = some (snapshotBytes D base.session g) := by
  cases hf.files with
  | bare g hg _ hf => exact ⟨g,hg,by rw [hf]⟩
  | journaled _ hf => exact ⟨some base.uuid,.inl rfl,by rw [hf]⟩

end

theorem snapshotDue_small {n k : Nat} (hn : n ≤ 4096) (hk : k ≤ 4096) (snapshot : Nat) :
    snapshotDue (n + k) snapshot = false := by
  have hmin : 4096 + 4096 < journalSnapshotMinBytes := by decide
  rw [snapshotDue,decide_eq_false_iff_not,not_le]
  exact lt_of_lt_of_le (by omega) (le_max_left _ _)

theorem torn_of_exact (hr : ∀ t r, D.readRecord t = some r → recordText D r = t) (r : JournalRecord)
    (t : List Char) (ht : Lines.TornLine (recordText D r) t) (hne : t ≠ recordText D r) :
    D.readRecord t = none := by
  cases hd : D.readRecord t with
  | none => rfl
  | some r' =>
    exfalso
    have htext := hr t r' hd
    cases ht with
    | part t hp _ =>
      obtain ⟨rest,hrest⟩ := hp
      rw [← htext] at hrest
      have hnil := print_object_whole hrest
      rw [hnil,append_nil,htext] at hrest
      exact hne hrest
    | cut t _ _ =>
      have hlast : (recordText D r').getLast? = some '}' := print_object_getLast _
      rw [htext] at hlast
      simp [Utf8.replacement] at hlast

def bindingOfValue (v : Value) : SnapshotBinding :=
  ⟨(v.get? "_journal_generation").bind Value.asStr?,v.index "_turn_ids",v.index "_message_times"⟩

/-- Decoding of exactly the records and the snapshots of the calls, all in journal mode. -/
def listed (w : Deps) (calls : List SaveCall) (records : List JournalRecord) : Deps :=
  { w with
    readRecord := fun t => records.find? fun r => recordText w r = t
    readSession := fun t =>
      (calls.find? fun c => snapshotJson w c.session (some c.uuid) = t).map
        fun c => c.session.onDisk
    readBinding := fun t => (parse t).map bindingOfValue }

theorem recordText_inj_iff (r s : JournalRecord) :
    recordText D r = recordText D s ↔ r.fields D = s.fields D :=
  ⟨fun h => Value.object.inj (print_injective h),fun h => congrArg (fun f => print (.object f)) h⟩

theorem snapshotJson_inj_iff (s t : Session) (g h : Option String) :
    snapshotJson D s g = snapshotJson D t h ↔ snapshotFields D s g = snapshotFields D t h :=
  ⟨fun h => Value.object.inj (print_injective h),fun h => congrArg (fun f => print (.object f)) h⟩

section

variable (w : Deps) (calls : List SaveCall) (records : List JournalRecord)

theorem fields_listed (r : JournalRecord) : r.fields (listed w calls records) = r.fields w := by
  cases r <;> rfl

theorem snapshotFields_listed (s : Session) (g : Option String) :
    snapshotFields (listed w calls records) s g = snapshotFields w s g := by
  unfold snapshotFields headerFields
  rfl

theorem listed_readRecord {r : JournalRecord}
    (h : (records.find? fun s => s.fields w = r.fields w) = some r) :
    (listed w calls records).readRecord (recordText (listed w calls records) r) = some r := by
  have ht : (fun s => decide (recordText w s = recordText w r)) =
      fun s => decide (s.fields w = r.fields w) :=
    funext fun s => decide_eq_decide.mpr (recordText_inj_iff w s r)
  rw [recordText,fields_listed]
  exact (congrArg (records.find? ·) ht).trans h

theorem listed_exact (t : List Char) (r : JournalRecord)
    (h : (listed w calls records).readRecord t = some r) :
    recordText (listed w calls records) r = t := by
  rw [recordText,fields_listed]
  have hr := find?_some (show records.find? (fun r => recordText w r = t) = some r from h)
  exact of_decide_eq_true hr

theorem listed_session {c : SaveCall}
    (h : ((calls.find? fun d => snapshotFields w d.session (some d.uuid) =
      snapshotFields w c.session (some c.uuid)).map fun d => d.session.onDisk) =
        some c.session.onDisk) :
    (listed w calls records).readSession
      (snapshotJson (listed w calls records) c.session (some c.uuid)) = some c.session.onDisk := by
  have ht : (fun d : SaveCall => decide (snapshotJson w d.session (some d.uuid) =
        snapshotJson w c.session (some c.uuid))) =
      fun d => decide (snapshotFields w d.session (some d.uuid) =
        snapshotFields w c.session (some c.uuid)) :=
    funext fun d => decide_eq_decide.mpr (snapshotJson_inj_iff w _ _ _ _)
  have hr (t : List Char) : (listed w calls records).readSession t = (calls.find? fun d =>
    snapshotJson w d.session (some d.uuid) = t).map fun d => d.session.onDisk := rfl
  rw [snapshotJson,snapshotFields_listed,hr,← snapshotJson,ht,h]

theorem listed_binding {c : SaveCall}
    (h : bindingOfValue (.object (snapshotFields w c.session (some c.uuid))) =
      bindingOf c.session (some c.uuid)) :
    (listed w calls records).readBinding
      (snapshotJson (listed w calls records) c.session (some c.uuid)) =
        some (bindingOf c.session (some c.uuid)) := by
  have ht (t : List Char) : (listed w calls records).readBinding t = (parse t).map bindingOfValue :=
    rfl
  rw [snapshotJson,snapshotFields_listed,ht,parse_print,map_some,h]

/-- What makes decoding from a list sound: all that is written is listed, and no two
entries of the list are written alike. -/
theorem listed_sound (hwritten : ∀ r, Written (listed w calls records) calls r → r ∈ records)
    (hrecord : ∀ r ∈ records, (records.find? fun s => s.fields w = r.fields w) = some r)
    (hmode : ∀ c ∈ calls, c.mode = .journal)
    (hsession : ∀ c ∈ calls, ((calls.find? fun d => snapshotFields w d.session (some d.uuid) =
      snapshotFields w c.session (some c.uuid)).map fun d => d.session.onDisk) =
        some c.session.onDisk)
    (hbinding : ∀ c ∈ calls, bindingOfValue (.object (snapshotFields w c.session (some c.uuid))) =
      bindingOf c.session (some c.uuid))
    (hsha : Set.InjOn w.sha256 (Compared (sessionsOf calls))) (huuid : ∀ c ∈ calls, c.uuid ≠ "") :
    (listed w calls records).Sound calls := by
  have hpub : ∀ c ∈ calls, ∀ g, c.Publishes g → g = some c.uuid := by
    rintro c hc g (hg | ⟨-,hm,-⟩)
    · exact hg
    · rw [hmode c hc] at hm
      cases hm
  refine ⟨⟨?_,?_,?_,?_⟩,hsha,huuid⟩
  · intro c hc g hg
    obtain rfl := hpub c hc g hg
    exact listed_session w calls records (hsession c hc)
  · intro c hc g hg
    obtain rfl := hpub c hc g hg
    exact listed_binding w calls records (hbinding c hc)
  · intro r hr
    exact listed_readRecord w calls records (hrecord r (hwritten r hr))
  · intro r _ t ht hne
    exact torn_of_exact _ (listed_exact w calls records) r t ht hne

end

def taggedMessage : Message where
  value := .object [("_synaps_at",.string "2024-01-01T00:00:00Z"),
    ("_synaps_turn",.object [("id",.string "t1")]),("content",.string "hi"),
    ("role",.string "user")]
  sorted := by decide

def emptySession : Session := titled "demo" 1000000000

def taggedSession : Session := (titled "demo" 0).withMessages [taggedMessage]

def grownSession : Session := emptySession.withMessages [taggedMessage]

def demoWriter : Deps where
  sha256 bytes :=
    if bytes = historyBytes [] then
      "4f53cda18c2baa0c0354bb5f9a3ecbe5ed12ab4d8e11ba873c2f11161202b945"
    else if bytes = historyBytes [taggedMessage] then
      "4e79873118cd9be7a1f0308b9cd772950c5410c74ca3fe1ba2626cba009a9237"
    else if bytes = indexedBytes (turnIds [taggedMessage]) then
      "868dc0cbf1f65ad8a4fdf3128fa02970e021622df3d53465b70017803f55c51e"
    else "8a7ed00085ff490f37f201aac60eb0927bdf2a6d7f559f2657fffe0de8872866"
  validTime t := t == "2024-01-01T00:00:00Z"
  timeText t := if t = 0 then "1970-01-01T00:00:00Z" else "1970-01-01T00:00:01Z"
  costNumber _ := .float ⟨"0.0".toList,by simp [numberChar],by simp⟩
  readRecord _ := none
  readBinding _ := none
  readSession _ := none

def demoUuid : Nat → String
  | 0 => "5c1a2b3c-4d5e-4f60-8a7b-9c0d1e2f3a4b"
  | 1 => "6d2b3c4d-5e6f-4071-9b8c-0d1e2f3a4b5c"
  | _ => "7e3c4d5e-6f70-4182-8c9d-1e2f3a4b5c6d"

def demoCall (s : Session) (i : Nat) : SaveCall := ⟨s,.journal,false,demoUuid i⟩

def durableCall (s : Session) (i : Nat) : SaveCall := ⟨s,.journal,true,demoUuid i⟩

def demoCalls : List SaveCall :=
  [durableCall emptySession 0,durableCall emptySession 2,durableCall taggedSession 1,
    demoCall taggedSession 2,demoCall grownSession 2]

def demoRecords : List JournalRecord :=
  (demoCalls.map fun c => openOf demoWriter c.session (some c.uuid)) ++
    [emptySession,taggedSession,grownSession].map (metaOf demoWriter) ++ [msgOf 0 taggedMessage]

def demo : Deps :=
  { demoWriter with
    readRecord := fun t => demoRecords.find? fun r => recordText demoWriter r = t
    readSession := fun t =>
      (demoCalls.find? fun c => snapshotJson demoWriter c.session (some c.uuid) = t).map
        fun c => c.session.onDisk
    readBinding := fun t => (parse t).map bindingOfValue }

theorem demo_sessions (hs : s ∈ sessionsOf demoCalls) :
    s = emptySession ∨ s = taggedSession ∨ s = grownSession := by
  simpa [sessionsOf,demoCalls,demoCall,durableCall] using hs

theorem demo_written {r : JournalRecord} (h : Written demo demoCalls r) : r ∈ demoRecords := by
  cases h with
  | openRecord c hc =>
    exact mem_append_left _ (mem_append_left _ (mem_map_of_mem hc))
  | msg s hs i m hm =>
    obtain ⟨rfl,rfl⟩ : i = 0 ∧ m = taggedMessage := by
      rcases demo_sessions hs with rfl | rfl | rfl
      · simp [emptySession,titled] at hm
      all_goals
        rcases i with _ | i <;> simp [taggedSession,grownSession] at hm
        exact ⟨rfl,hm.symm⟩
    simp [demoRecords]
  | metaRecord s hs =>
    have hm : metaOf demoWriter s ∈
        [emptySession,taggedSession,grownSession].map (metaOf demoWriter) :=
      mem_map_of_mem (by simpa using demo_sessions hs)
    exact mem_append_left _ (mem_append_right _ hm)

def demoCompared : List (List UInt8) :=
  [historyBytes [],historyBytes [taggedMessage],indexedBytes (turnIds [taggedMessage]),
    indexedBytes (messageTimes [taggedMessage])]

theorem demo_compared {bytes : List UInt8} (h : bytes ∈ Compared (sessionsOf demoCalls)) :
    bytes ∈ demoCompared := by
  obtain ⟨s,hs,n,hb⟩ := h
  have htake : s.apiMessages.take n = [] ∨ s.apiMessages.take n = [taggedMessage] := by
    have hm : s.apiMessages = [] ∨ s.apiMessages = [taggedMessage] := by
      rcases demo_sessions hs with rfl | rfl | rfl
      · exact .inl rfl
      · exact .inr rfl
      · exact .inr rfl
    rcases hm with hm | hm <;> rw [hm] <;> cases n <;> simp
  have hnil : indexedBytes (turnIds []) = historyBytes [] ∧
      indexedBytes (messageTimes []) = historyBytes [] := ⟨rfl,rfl⟩
  rcases htake with ht | ht <;> rw [ht] at hb <;> rcases hb with rfl | rfl | rfl <;>
    simp [demoCompared,hnil]

theorem demo_sound : demo.Sound demoCalls := by
  have hsha : ∀ a ∈ demoCompared, ∀ b ∈ demoCompared, demo.sha256 a = demo.sha256 b → a = b := by
    decide +kernel
  refine listed_sound demoWriter demoCalls demoRecords (fun r hr => demo_written hr) ?_ ?_ ?_ ?_
    (fun a ha b hb => hsha a (demo_compared ha) b (demo_compared hb)) (by decide)
  · decide +kernel
  · simp [demoCalls,demoCall,durableCall]
  · decide +kernel
  · decide +kernel

/-- A load returns the last saved session, over the last full snapshot; only a
file beyond the read bound makes it fail. -/
theorem load_after_saves {id : String} {log : List (SaveCall × SaveReceipt)} {f : Files}
    (hrun : Saved D log f) (hlog : log ≠ []) (hid : ∀ e ∈ log, e.1.session.id = id)
    (hup : log.IsChain (fun d e => d.1.session.updatedAt ≤ e.1.session.updatedAt))
    (hD : D.Sound (log.map Prod.fst)) :
    ∃ pre base receipt post last, log = pre ++ (base,receipt) :: post ∧
      receipt.mode = .fullSnapshot ∧ (∀ e ∈ post, ∃ n, e.2.mode = .append n) ∧
      log.getLast? = some last ∧
      (f.withinReadBound → loadSessionInDir D f id = .ok (base.session.reloaded D last.1.session)) ∧
      (¬f.withinReadBound → ∃ message, loadSessionInDir D f id = .error (.other message)) := by
  obtain ⟨pre,base,receipt,post,rfl,hfull,happ,hf⟩ :=
    saved_holds hD hrun hlog fun e he => ⟨mem_map_of_mem he,hid e he⟩
  have hchain : (base.session :: post.map (·.1.session)).IsChain
      (fun s t => s.updatedAt ≤ t.updatedAt) := by
    have h := hup.right_of_append
    rw [show base.session :: post.map (·.1.session) =
      ((base,receipt) :: post).map fun e => e.1.session from rfl]
    exact (isChain_map _).mpr h
  have hlast : (pre ++ (base,receipt) :: post).getLast? =
      some (post.getLast?.getD (base,receipt)) := by
    rw [getLast?_append_of_ne_nil _ (by simp),getLast?_cons]
  have htip : tip base.session (post.map (·.1.session)) =
      (post.getLast?.getD (base,receipt)).1.session := by
    rw [tip,getLast?_map]
    cases post.getLast? <;> rfl
  have hids : (tip base.session (post.map (·.1.session))).id = base.session.id := by
    rw [htip,hid _ (mem_of_getLast? hlast),hid (base,receipt) (by simp)]
  obtain ⟨g,hg,hsnap⟩ := hf.snapshot
  refine ⟨pre,base,receipt,post,_,rfl,hfull,happ,hlast,fun hw => ?_,
    load_beyond hD hf.base_mem hg hsnap id⟩
  rw [load_holds_within hD hf id hw,foldl_advance_replayed D hchain,clamp_replayed D hids,htip]

theorem demo_snapshot_size :
    ∀ c ∈ demoCalls.take 3, (snapshotBytes demo c.session (some c.uuid)).length ≤ 4096 := by
  decide +kernel

theorem demo_open_size : ∀ c ∈ demoCalls.take 2,
      (journalBytes demo [openOf demo c.session (some c.uuid)]).length ≤ 4096 := by
  decide +kernel

theorem demo_within {c d : SaveCall} (hc : c ∈ demoCalls.take 3) (hd : d ∈ demoCalls.take 2) :
    Files.withinReadBound ⟨some (snapshotBytes demo c.session (some c.uuid)),
      some (journalBytes demo [openOf demo d.session (some d.uuid)])⟩ := by
  have hle : 4096 ≤ maxPersistedReadBytes := by decide
  exact within_some ((demo_snapshot_size c hc).trans hle) ((demo_open_size d hd).trans hle)

def demoFiles : Files :=
  ⟨some (snapshotBytes demo emptySession (some (demoUuid 0))),
    some (journalBytes demo (journalOf demo (durableCall emptySession 0) []))⟩

theorem Saved.durable {log : List (SaveCall × SaveReceipt)} {f : Files} (h : Saved D log f)
    (s : Session) (uuid : String) :
    Saved D (log ++ [(⟨s,.journal,true,uuid⟩,(publishSnapshot D s .journal true true uuid).2)])
      ⟨some (snapshotBytes D s (some uuid)),
        some (journalBytes D (journalOf D ⟨s,.journal,true,uuid⟩ []))⟩ := by
  have hsave : SaveCall.save D ⟨s,.journal,true,uuid⟩ f =
      .ok (publishSnapshot D s .journal true true uuid) := rfl
  have hrun := h.step _ hsave
  rwa [runOps_publish] at hrun

theorem Saved.first (s : Session) (uuid : String) :
    Saved D [(⟨s,.journal,false,uuid⟩,(fullSnapshotReset D s uuid).2)]
      (runOps (fullSnapshotReset D s uuid).1 Files.empty) :=
  Saved.nil.step (c := ⟨s,.journal,false,uuid⟩) (fullSnapshotReset D s uuid) rfl

theorem demo_header : ∀ c ∈ [durableCall emptySession 0,durableCall taggedSession 1],
    (snapshotBinding demo (snapshotBytes demo c.session (some c.uuid))).map (·.generation) =
      some (some c.uuid) := by
  decide +kernel

theorem demo_holds : Holds demo demoCalls demoFiles (durableCall emptySession 0) [] :=
  ⟨by simp [demoCalls],by simp,.journaled (isChain_singleton _) rfl⟩

theorem demoFiles_within : demoFiles.withinReadBound :=
  demo_within (c := durableCall emptySession 0) (d := durableCall emptySession 0)
    (by simp [demoCalls]) (by simp [demoCalls])

theorem demo_delta_size : ∀ s ∈ [taggedSession,grownSession],
    (journalBytes demo (deltaOf demo s 0)).length ≤ 4096 := by
  decide +kernel

theorem demo_journal_size :
    (journalBytes demo (journalOf demo (durableCall emptySession 0) [])).length ≤ 4096 := by
  rw [journalOf,deltas]
  exact demo_open_size _ (by simp [demoCalls])

def appended (s : Session) : Files :=
  runOps [.appendJournal (journalBytes demo (deltaOf demo s 0))] demoFiles

section

variable {s : Session} (hs : s ∈ [taggedSession,grownSession])

include hs

theorem demo_grown : s.id = emptySession.id ∧ s.apiMessages = [taggedMessage] := by
  rcases mem_pair.mp hs with rfl | rfl <;> exact ⟨rfl,rfl⟩

theorem demo_appends : Appends demo demoFiles s
    (snapshotBytes demo emptySession (some (demoUuid 0)))
    (stateOf demo emptySession
      (journalBytes demo (journalOf demo (durableCall emptySession 0) [])).length) := by
  obtain ⟨hid,hmessages⟩ := demo_grown hs
  have h : emptySession.apiMessages = [] := rfl
  refine appends_journaled demo_sound demo_holds (isChain_singleton _) rfl
    (demo_header (durableCall emptySession 0) (by simp)) demoFiles_within hid ?_
  simp [continuesHistory,stateOf,tip,durableCall,h,hmessages]

theorem demo_save_appends : (demoCall s 2).save demo demoFiles =
    .ok ([.appendJournal (journalBytes demo (deltaOf demo s 0))],
      ⟨.append 1,(journalBytes demo (deltaOf demo s 0)).length⟩) := by
  have hlen (n : Nat) : (stateOf demo emptySession n).durableLen = 0 := rfl
  have hdelta (n : Nat) : deltaBytes demo s (stateOf demo emptySession n) =
      journalBytes demo (deltaOf demo s 0) := by
    rw [deltaBytes,hlen]
  have hcount : s.apiMessages.length - 0 = 1 := by rw [(demo_grown hs).2]; rfl
  have hbytes (n : Nat) : (stateOf demo emptySession n).bytes = n := rfl
  have h := save_append demo (demo_appends hs) (demoUuid 2)
  rw [hdelta,hbytes,hlen,hcount] at h
  exact h (snapshotDue_small demo_journal_size (demo_delta_size s hs) _)

theorem appended_within : (appended s).withinReadBound := by
  refine within_some (demoFiles_within.1 _ rfl) ?_
  have hmax : 4096 + 4096 ≤ maxPersistedReadBytes := by decide
  change (journalBytes demo (journalOf demo (durableCall emptySession 0) []) ++ _).length ≤ _
  rw [length_append]
  exact (Nat.add_le_add demo_journal_size (demo_delta_size s hs)).trans hmax

end

def demoLog : List (SaveCall × SaveReceipt) :=
  [(demoCall taggedSession 2,(fullSnapshotReset demo taggedSession (demoUuid 2)).2),
    (durableCall emptySession 0,
      (publishSnapshot demo emptySession .journal true true (demoUuid 0)).2),
    (demoCall grownSession 2,⟨.append 1,(journalBytes demo (deltaOf demo grownSession 0)).length⟩)]

theorem demo_saved : Saved demo demoLog (appended grownSession) :=
  ((Saved.first demo taggedSession (demoUuid 2)).durable demo emptySession (demoUuid 0)).step _
    (demo_save_appends (by simp))

theorem load_after_saves_demo : loadSessionInDir demo (appended grownSession) emptySession.id =
      .ok (emptySession.reloaded demo grownSession) := by
  have hid : ∀ e ∈ demoLog, e.1.session.id = emptySession.id := by
    simp [demoLog,demoCall,durableCall,emptySession,taggedSession,grownSession,titled]
  have hup : demoLog.IsChain (fun d e => d.1.session.updatedAt ≤ e.1.session.updatedAt) := by
    simp [demoLog,demoCall,durableCall,emptySession,taggedSession,grownSession,titled]
  have hsub : demoLog.map Prod.fst ⊆ demoCalls := by simp [demoLog,demoCalls]
  obtain ⟨pre,base,receipt,post,last,hlog,hfull,happ,hlast,hload,-⟩ :=
    load_after_saves demo demo_saved (by simp [demoLog]) hid hup (demo_sound.mono hsub)
  cases hlast
  have hbase : base = durableCall emptySession 0 := by
    rcases pre with _ | ⟨p,_ | ⟨q,_ | ⟨r,pre⟩⟩⟩
    · obtain ⟨n,hn⟩ := happ (durableCall emptySession 0,
        (publishSnapshot demo emptySession .journal true true (demoUuid 0)).2) (by
        rw [← (cons.inj hlog).2]; simp)
      cases hn
    · exact (Prod.mk.inj (cons.inj (cons.inj hlog).2).1).1.symm
    · rw [← (Prod.mk.inj (cons.inj (cons.inj (cons.inj hlog).2).2).1).2] at hfull
      cases hfull
    · simp [demoLog] at hlog
  rw [hbase] at hload
  exact hload (appended_within (by simp))

theorem length_title_le (s : Session) (g : Option String) :
    s.title.toList.length ≤ (snapshotBytes D s g).length := by
  have hmem : ("title",Value.string s.title) ∈ snapshotFields D s g := by
    simp [snapshotFields,headerFields]
  calc s.title.toList.length ≤ (print (.string s.title)).length := length_le_printString _
    _ ≤ (snapshotJson D s g).length := length_le_print_object hmem
    _ ≤ (snapshotBytes D s g).length := Utf8.length_le_encode _

theorem load_refuses_title (ht : maxPersistedReadBytes < s.title.toList.length)
    (g : Option String) (journal : Option (List UInt8)) (id : String) :
    ∃ message, loadSessionInDir D ⟨some (snapshotBytes D s g),journal⟩ id =
      .error (.other message) := by
  have hlen : maxPersistedReadBytes < (snapshotBytes D s g).length :=
    lt_of_lt_of_le ht (length_title_le D _ _)
  have hread := @readArtifactBytes_beyond (snapshotName id)
    (some (snapshotBytes D s g)) fun h => absurd (h _ rfl) (not_le.mpr hlen)
  obtain ⟨message,hr⟩ := hread
  refine ⟨message,?_⟩
  simp only [loadSessionInDir,hr]

theorem exists_long_title : ∃ t, maxPersistedReadBytes < (titled t 0).title.toList.length := by
  refine ⟨String.ofList (replicate (maxPersistedReadBytes + 1) 'a'),?_⟩
  change maxPersistedReadBytes < (String.ofList _).toList.length
  rw [String.toList_ofList,length_replicate]
  exact Nat.lt_succ_self _

/-- A title past the read bound is saved, and then no load reads it. -/
theorem load_refuses_long_title :
    ∃ t f receipt, Saved demo [(⟨titled t 0,.json,false,"g"⟩,receipt)] f ∧
      ∃ message, loadSessionInDir demo f (titled t 0).id = .error (.other message) := by
  obtain ⟨t,ht⟩ := exists_long_title
  have hsave : SaveCall.save demo ⟨titled t 0,.json,false,"g"⟩ Files.empty =
      .ok (publishSnapshot demo (titled t 0) .json false false "g") := rfl
  have hrun := Saved.save _ (publishSnapshot demo (titled t 0) .json false false "g").1 _ .nil hsave
  rw [runOps_publish] at hrun
  exact ⟨t,_,_,hrun,load_refuses_title demo ht _ _ _⟩

end Synaps.Store
