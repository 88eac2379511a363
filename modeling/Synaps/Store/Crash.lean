import Synaps.Store.Saved

/-!
A save that is cut off. Whatever part of a save reached the disk, a load gives the
session before it, the session it saved, or the former with some of the messages
the latter appends; and the next complete save takes effect.
-/

set_option autoImplicit false

namespace Synaps.Store

open Json List Option

variable (D : Deps)

/-- The files left when the operations `ops` are cut off: they happened in order up
to some point, and a cut append left a part of its buffer. -/
inductive Crashed : Files → List FileOp → Files → Prop
  | stop (f : Files) (ops : List FileOp) : Crashed f ops f
  | step {f f' : Files} (op : FileOp) {ops : List FileOp} (h : Crashed (op.apply f) ops f') :
      Crashed f (op :: ops) f'
  | torn (f : Files) {bytes p : List UInt8} (ops : List FileOp) (hp : p <+: bytes) :
      Crashed f (.appendJournal bytes :: ops) ((FileOp.appendJournal p).apply f)

def SaveCall.plan (c : SaveCall) (f : Files) : List FileOp :=
  match c.save D f with
  | .ok (ops,_) => ops
  | .error _ => []

section

variable {f f' : Files}

theorem crashed_nil (h : Crashed f [] f') : f' = f := by
  cases h with
  | stop => rfl

theorem crashed_cons {op : FileOp} {ops : List FileOp} (h : Crashed f (op :: ops) f')
    (hop : ∀ bytes, op ≠ .appendJournal bytes) : f' = f ∨ Crashed (op.apply f) ops f' := by
  cases h with
  | stop => exact .inl rfl
  | step _ h => exact .inr h
  | torn _ _ => exact absurd rfl (hop _)

theorem crashed_sync {b : Bool} {ops : List FileOp}
    (h : Crashed f ((if b then [.syncDir] else []) ++ ops) f') : Crashed f ops f' := by
  cases b with
  | false => exact h
  | true =>
    rcases crashed_cons h nofun with rfl | h
    · exact .stop _ _
    · exact h

/-- A publication that is cut off has done nothing, or left the old journal beside
the new snapshot, or is complete. -/
theorem crashed_publish {s : Session} {mode : SessionPersistence} {durable bind : Bool}
    {uuid : String} (h : Crashed f (publishSnapshot D s mode durable bind uuid).1 f') :
    f' = f ∨ f' = ⟨some (snapshotBytes D s (if bind then some uuid else none)),f.journal⟩ ∨
      f' = runOps (publishSnapshot D s mode durable bind uuid).1 f := by
  rw [runOps_publish]
  have hj (h : Crashed ⟨some (snapshotBytes D s (if bind then some uuid else none)),f.journal⟩
      ((match mode with
        | .journal => .writeJournal (journalBytes D [openOf D s (if bind then some uuid else none)])
        | .json => .removeJournal) :: ((if durable then [.syncDir] else []) ++ [])) f') :
      f' = ⟨some (snapshotBytes D s (if bind then some uuid else none)),f.journal⟩ ∨
        f' = ⟨some (snapshotBytes D s (if bind then some uuid else none)),
          publishedJournal D s mode (if bind then some uuid else none)⟩ := by
    cases mode with
    | json | journal =>
      rcases crashed_cons h nofun with rfl | h
      · exact .inl rfl
      · exact .inr (crashed_nil (crashed_sync h))
  simp only [publishSnapshot,append_assoc,singleton_append] at h
  rcases crashed_cons h nofun with rfl | h
  · exact .inl rfl
  · refine .inr (hj ?_)
    rw [append_nil]
    have hs := crashed_sync h
    cases mode <;> exact hs

end

/-- A journal with a part of more records after it: the records, some of the new
ones whole, and at most one line that decodes as nothing. -/
theorem readLines_torn {calls : List SaveCall} (hD : D.Identity calls) {rs ds : List JournalRecord}
    {p : List UInt8} (hr : ∀ r ∈ rs, Written D calls r) (hd : ∀ r ∈ ds, Written D calls r)
    (hp : p <+: journalBytes D ds) :
    ∃ k tail, (tail = [] ∨ tail = [none]) ∧
      readLines D (Utf8.decodeLossy (journalBytes D rs ++ p)) = (rs ++ ds.take k).map some ++ tail ∧
      (Lines.endsWithNewline (journalBytes D rs ++ p) = true → p = journalBytes D (ds.take k)) := by
  have read (k : Nat) : ((rs ++ ds.take k).map (recordText D)).map D.readRecord =
      (rs ++ ds.take k).map some := by
    refine readRecord_map D hD fun r h => ?_
    rcases mem_append.mp h with h | h
    · exact hr r h
    · exact hd r (mem_of_mem_take h)
  obtain ⟨k,⟨rfl,hl⟩ | ⟨m,t,hm,ht,hl,hnl⟩⟩ :=
    Lines.lines_torn (recordTexts_plain D rs) (recordTexts_plain D ds) hp
  · refine ⟨k,[],.inl rfl,?_,fun _ => by rw [journalBytes,map_take]⟩
    rw [readLines,journalBytes,hl,← map_take,← map_append,read,append_nil]
  · have hnl' : ¬Lines.endsWithNewline (journalBytes D rs ++ p) = true := by
      rw [journalBytes,hnl]
      exact Bool.false_ne_true
    rw [getElem?_map] at hm
    obtain ⟨r,hk,rfl⟩ := map_eq_some_iff.mp hm
    have hrw : Written D calls r := hd r (mem_of_getElem? hk)
    have hlines : readLines D (Utf8.decodeLossy (journalBytes D rs ++ p)) =
        (rs ++ ds.take k).map some ++ [D.readRecord t] := by
      rw [readLines,journalBytes,hl,← map_take,← map_append,map_append,read]
      rfl
    by_cases hfull : t = recordText D r
    · refine ⟨k+1,[],.inl rfl,?_,fun h => absurd h hnl'⟩
      rw [hlines,hfull,hD.record r hrw,take_add_one,hk]
      simp
    · refine ⟨k,[none],.inr rfl,?_,fun h => absurd h hnl'⟩
      rw [hlines,hD.torn r hrw t ht hfull]

/-- If the header of the snapshot of `c` decodes, its generation is the one the
snapshot was published with. -/
def Deps.Headed (c : SaveCall) : Prop :=
  ∀ b, snapshotBinding D (snapshotBytes D c.session (some c.uuid)) = some b →
    b.generation = some c.uuid

/-- What a cut-off save of `c` leaves of files that held `base` and `later`: the old
files, its own, its snapshot beside the old journal, or a part of its delta. -/
inductive Left (calls : List SaveCall) (c base : SaveCall) (later : List Session) (f : Files) :
    Prop
  | held (hf : Holds D calls f base later)
  | published (hf : Holds D calls f c [])
  | stale (later' : List Session) (hl : ∀ s ∈ later', s ∈ sessionsOf calls)
      (hf : f = ⟨some (snapshotBytes D c.session (some c.uuid)),
        some (journalBytes D (journalOf D base later'))⟩)
  | torn (hx : (base.session :: later).IsChain (Extends D))
      (he : Extends D (tip base.session later) c.session) (p : List UInt8)
      (hp : p <+: journalBytes D (deltaOf D c.session (tip base.session later).apiMessages.length))
      (hf : f = ⟨some (snapshotBytes D base.session (some base.uuid)),
        some (journalBytes D (journalOf D base later) ++ p)⟩)

/-- What a load can give after a save of `s` that was cut off over `s₀`, where a full
snapshot is one of `bases`. -/
inductive Outcome (bases : List SaveCall) (s₀ s : Session) : Session → Prop
  | before : Outcome bases s₀ s s₀
  | saved (base : SaveCall) (hb : base ∈ bases) : Outcome bases s₀ s (base.session.reloaded D s)
  | part (added : List Message) (hp : s₀.apiMessages <+: s.history D)
      (ha : added <+: (s.history D).drop s₀.apiMessages.length) :
      Outcome bases s₀ s (s₀.withMessages (s₀.apiMessages ++ added))

section

variable {D} {calls : List SaveCall} {f f' : Files} {base c : SaveCall} {later : List Session}

theorem crashed_publish_left (hf : Holds D calls f base later) (hc : c ∈ calls)
    {mode : SessionPersistence} {durable bind : Bool} (hm : mode = .journal → bind = true)
    (hj : f.journal.isSome → bind = true) (hb : bind = false → c.mode = .json ∧ c.durable = false)
    (h : Crashed f (publishSnapshot D c.session mode durable bind c.uuid).1 f') :
    Left D calls c base later f' := by
  rcases crashed_publish D h with rfl | rfl | rfl
  · exact .held hf
  · cases hf.files with
    | bare g hg hl hfiles =>
      refine .published ⟨hc,by simp,.bare (if bind then some c.uuid else none) ?_ rfl ?_⟩
      · cases bind with
        | true => exact .inl rfl
        | false => exact .inr ⟨rfl,hb rfl⟩
      · rw [hfiles]
    | journaled hx hfiles =>
      rw [hj (by rw [hfiles]; rfl),hfiles]
      exact .stale later hf.later_mem rfl
  · exact .published (publish_holds hc hm hb f)

theorem crashed_left (hD : D.Sound calls) (hf : Holds D calls f base later) (hc : c ∈ calls)
    (hid : c.session.id = base.session.id) (h : Crashed f (c.plan D f) f') :
    Left D calls c base later f' := by
  unfold SaveCall.plan at h
  split at h
  · rename_i ops receipt hsave
    rcases save_cases D hsave with ⟨mode,durable,bind,hm,hj,hb,hp⟩ | ⟨file,st,ha,hops⟩
    · rw [← show (publishSnapshot D c.session mode durable bind c.uuid).1 = ops from
        congrArg Prod.fst hp] at h
      exact crashed_publish_left hf hc hm hj hb h
    · obtain ⟨hlen,hx,hchain,hfiles⟩ := appends_extends hD hf (mem_sessionsOf hc) hid ha
      have torn {p : List UInt8} (hp : p <+: deltaBytes D c.session st) :
          Left D calls c base later ((FileOp.appendJournal p).apply f) := by
        rw [deltaBytes,hlen] at hp
        exact .torn hchain hx p hp (by rw [hfiles]; rfl)
      rcases hops with ⟨-,-,rfl⟩ | ⟨-,rfl⟩
      · cases h with
        | stop => exact .held hf
        | step _ h => exact crashed_nil h ▸ torn (prefix_refl _)
        | torn _ _ hp => exact torn hp
      · cases h with
        | stop => exact .held hf
        | torn _ _ hp => exact torn hp
        | step _ h =>
          have hf' := append_holds hf (mem_sessionsOf hc) hchain hx hfiles
          rw [← hlen] at hf'
          rcases crashed_publish D h with rfl | rfl | rfl
          · exact torn (prefix_refl _)
          · refine .stale (later ++ [c.session]) hf'.later_mem ?_
            rw [hfiles,journalOf_concat,journalBytes_append,deltaBytes,hlen]
            rfl
          · exact .published (publish_holds hc (by simp) (by simp) _)
  · rw [crashed_nil h]
    exact .held hf

theorem advance_fields {cur s : Session} {t : Session} {ms : List Message} :
    (SessionMeta.of s).apply ((advance D cur t).withMessages ms) =
      (SessionMeta.of s).apply (cur.withMessages ms) := by
  unfold advance
  split <;> rfl

theorem apply_foldl (s : Session) (cur : Session) (later : List Session) (ms : List Message) :
    (SessionMeta.of s).apply ((later.foldl (advance D) cur).withMessages ms) =
      (SessionMeta.of s).apply (cur.withMessages ms) := by
  induction later generalizing cur with
  | nil => rfl
  | cons t later ih => rw [foldl_cons,ih,advance_fields]

theorem advance_foldl {base s : Session} {later : List Session}
    (h : (later.foldl (advance D) (base.opened D)).updatedAt ≤ s.updatedAt) :
    advance D (later.foldl (advance D) (base.opened D)) s = base.replayed D s := by
  rw [advance,if_pos h,apply_foldl]
  rfl

theorem clamp_withMessages (s : Session) (ms : List Message) :
    clampKeepwarmToTotals (s.withMessages ms) = (clampKeepwarmToTotals s).withMessages ms := rfl

theorem Outcome.mono {bases : List SaveCall} {s₀ s l : Session} (h : Outcome D bases s₀ s l)
    (hsub : bases ⊆ calls) : Outcome D calls s₀ s l := by
  cases h with
  | before => exact .before
  | saved base hb => exact .saved base (hsub hb)
  | part added hp ha => exact .part added hp ha

theorem Outcome.history {s₀ s l : Session} (h : Outcome D calls s₀ s l) :
    l.apiMessages <+: s₀.apiMessages ∨ l.apiMessages <+: s.history D := by
  cases h with
  | before => exact .inl (prefix_refl _)
  | saved base _ => exact .inr (prefix_refl _)
  | part added hp ha =>
    refine .inr ?_
    rw [prefix_append_drop hp]
    exact (prefix_append_right_inj _).mpr ha

theorem Left.snapshot (hb : base ∈ calls) (hc : c ∈ calls) (h : Left D calls c base later f) :
    ∃ d ∈ calls, ∃ g, d.Publishes g ∧ f.snapshot = some (snapshotBytes D d.session g) := by
  cases h with
  | held hf => exact ⟨base,hb,hf.snapshot⟩
  | published hf => exact ⟨c,hc,hf.snapshot⟩
  | stale _ _ hf => exact ⟨c,hc,some c.uuid,.inl rfl,by rw [hf]⟩
  | torn _ _ _ _ hf => exact ⟨base,hb,some base.uuid,.inl rfl,by rw [hf]⟩

theorem load_journal (hD : D.Sound calls) (hb : base ∈ calls) {journal : List UInt8}
    (hf : f = ⟨some (snapshotBytes D base.session (some base.uuid)),some journal⟩)
    (hw : f.withinReadBound) (id : String) :
    loadSessionInDir D f id = .ok (replayJournal D (some base.uuid) (base.session.opened D)
      (readLines D (Utf8.decodeLossy journal))) := by
  subst hf
  rw [load_snapshot hD hb (.inl rfl),readArtifactBytes_within hw.1,readArtifactBytes_within hw.2]

theorem opened_reloaded (s : Session) : s.opened D = s.reloaded D s := by
  rw [← clamp_replayed D rfl,replayed_self,clamp_opened]

theorem replay_part {cur prev s : Session} (hx : Extends D prev s) (hid : cur.id = prev.id)
    (hm : cur.apiMessages = prev.history D) (k : Nat) {tail : List (Option JournalRecord)}
    (ht : tail = [] ∨ tail = [none]) :
    ∃ r, replayRecords D journalSchemaVersion cur
        (((deltaOf D s prev.apiMessages.length).take k).map some ++ tail) = r ∧
      ((∃ n, r = cur.withMessages ((s.history D).take (prev.apiMessages.length + n))) ∨
        r = advance D cur s) := by
  have htail (c : Session) : replayRecords D journalSchemaVersion c tail = c := by
    rcases ht with rfl | rfl <;> rfl
  refine ⟨_,rfl,?_⟩
  rcases take_deltaOf D s prev.apiMessages.length k with h | h
  · exact .inl ⟨k,by rw [h,replay_msgRecords D hx hm,htail]⟩
  · exact .inr (by rw [h,replay_delta D hx hid hm,htail])

section

variable (hD : D.Sound calls) (hb : base ∈ calls) (hc : c ∈ calls)
  (hl : ∀ s ∈ later, s ∈ sessionsOf calls)

include hD hb hc hl

theorem load_torn (hx : (base.session :: later).IsChain (Extends D))
    (he : Extends D (tip base.session later) c.session) {p : List UInt8}
    (hp : p <+: journalBytes D (deltaOf D c.session (tip base.session later).apiMessages.length))
    (hf : f = ⟨some (snapshotBytes D base.session (some base.uuid)),
      some (journalBytes D (journalOf D base later) ++ p)⟩)
    (hw : f.withinReadBound) (id : String) :
    ∃ l, loadSessionInDir D f id = .ok l ∧ Outcome D [base,c]
      (clampKeepwarmToTotals (later.foldl (advance D) (base.session.opened D))) c.session l := by
  obtain ⟨k,tail,ht,hlines,-⟩ := readLines_torn D hD.toIdentity (written_journalOf hb hl)
    (written_delta (mem_sessionsOf hc) _) hp
  obtain ⟨hid,hm⟩ := foldl_advance D (opened_id D base.session)
    (opened_apiMessages D base.session) later
  refine ⟨_,load_journal hD hb hf hw id,?_⟩
  rw [hlines,map_append,append_assoc,replay_journalOf (hD.uuid base hb) hx]
  obtain ⟨r,hr,hcase⟩ := replay_part he (hid.trans (tip_id hx).symm) hm k ht
  rw [hr]
  generalize hcur : later.foldl (advance D) (base.session.opened D) = cur at *
  have hpre : (clampKeepwarmToTotals cur).apiMessages <+: c.session.history D := by
    change cur.apiMessages <+: _
    rw [hm,← he.take]
    exact take_prefix _ _
  have grown (n : Nat) : Outcome D [base,c] (clampKeepwarmToTotals cur) c.session
      (clampKeepwarmToTotals (cur.withMessages
        ((c.session.history D).take ((tip base.session later).apiMessages.length + n)))) := by
    have hn : (clampKeepwarmToTotals cur).apiMessages.length =
        (tip base.session later).apiMessages.length := by
      change cur.apiMessages.length = _
      rw [hm,length_history]
    have hsplit : (c.session.history D).take ((tip base.session later).apiMessages.length + n) =
        (clampKeepwarmToTotals cur).apiMessages ++ ((c.session.history D).drop
          (clampKeepwarmToTotals cur).apiMessages.length).take n := by
      rw [take_add,he.take,hn]
      exact congrArg (· ++ _) hm.symm
    rw [hsplit,clamp_withMessages]
    exact .part _ hpre ( take_prefix _ _)
  rcases hcase with ⟨n,rfl⟩ | rfl
  · exact grown n
  by_cases hup : cur.updatedAt ≤ c.session.updatedAt
  · subst hcur
    rw [advance_foldl hup,clamp_replayed D (he.id.trans (tip_id hx))]
    exact .saved base (by simp)
  · have hg := grown (c.session.apiMessages.length - (tip base.session later).apiMessages.length)
    rw [Nat.add_sub_cancel' he.length,take_of_length_le (by rw [length_history])] at hg
    rw [advance,if_neg hup]
    exact hg

theorem load_left (hne : c.uuid ≠ base.uuid) (h : Left D calls c base later f)
    (hw : f.withinReadBound) (id : String) :
    ∃ l, loadSessionInDir D f id = .ok l ∧ Outcome D [base,c]
      (clampKeepwarmToTotals (later.foldl (advance D) (base.session.opened D))) c.session l := by
  cases h with
  | held hf => exact ⟨_,load_holds_within hD hf id hw,.before⟩
  | published hf =>
    refine ⟨_,load_holds_within hD hf id hw,?_⟩
    rw [foldl_nil,clamp_opened,opened_reloaded c.session]
    exact .saved c (by simp)
  | stale later' hl' hf =>
    refine ⟨_,load_journal hD hc hf hw id,?_⟩
    have hm := matchingOpen_openOf (D := D) (hD.uuid base hb) base.session (some c.uuid)
    rw [if_neg fun h => hne (some.inj h)] at hm
    rw [(readLines_journalBytes D hD.toIdentity (written_journalOf hb hl')).1,journalOf,map_cons]
    simp only [replayJournal,hm]
    rw [opened_reloaded c.session]
    exact .saved c (by simp)
  | torn hx he p hp hf => exact load_torn hD hb hc hl hx he hp hf hw id

end

/-- A journal whose last record is a message is not appended to: its hashes do not
cover that message. -/
theorem scanJournal_part (hx : (base.session :: later).IsChain (Extends D))
    (hne : base.uuid ≠ "") (ms : List Message) (hms : ms ≠ []) :
    scanJournal base.session.id (some base.uuid) ((journalOf D base later ++
      (ms.zipIdx (tip base.session later).apiMessages.length).map fun e => msgOf e.2 e.1).map some) =
      none := by
  have hp := scan_msgs base.session.id ms (scanOf D (tip base.session later)) []
  rw [append_nil] at hp
  rw [map_append,scanJournal_append hx hne]
  refine (congrArg (Option.filter _) hp).trans ?_
  have hlen := length_pos_iff.mpr hms
  simp only [scanRecords,filter_some,scanOf]
  refine if_neg ?_
  simp only [decide_eq_true_eq]
  omega

theorem appends_torn (hD : D.Sound calls) (hb : base ∈ calls) (hc : c ∈ calls)
    (hl : ∀ s ∈ later, s ∈ sessionsOf calls) (hx : (base.session :: later).IsChain (Extends D))
    (he : Extends D (tip base.session later) c.session) {p : List UInt8}
    (hp : p <+: journalBytes D (deltaOf D c.session (tip base.session later).apiMessages.length))
    (hf : f = ⟨some (snapshotBytes D base.session (some base.uuid)),
      some (journalBytes D (journalOf D base later) ++ p)⟩) {s : Session}
    (hid : s.id = base.session.id) {file : List UInt8} {st : JournalState}
    (ha : Appends D f s file st) :
    Holds D calls f base later ∨ Holds D calls f base (later ++ [c.session]) := by
  have hdelta := written_delta (D := D) (mem_sessionsOf hc)
    (tip base.session later).apiMessages.length
  obtain ⟨binding,-,hst⟩ := ha.state
  obtain ⟨raw,text,sc,hraw,hnl,htext,hsc,-⟩ := readJournalState_some hst
  obtain ⟨k,-,-,-,hk⟩ := readLines_torn D hD.toIdentity (written_journalOf hb hl) hdelta hp
  rw [hf] at hraw
  cases hraw
  obtain rfl := hk hnl
  rw [← journalBytes_append] at htext hf
  have hwritten : ∀ r ∈ journalOf D base later ++ (deltaOf D c.session
      (tip base.session later).apiMessages.length).take k, Written D calls r := by
    exact forall_mem_append.mpr ⟨written_journalOf hb hl,fun r hr => hdelta r (mem_of_mem_take hr)⟩
  have hread := (readLines_journalBytes D hD.toIdentity hwritten).2
  rw [htext,map_some] at hread
  rw [some.inj hread] at hsc
  have hg : binding.generation = some base.uuid := by
    by_contra hne
    rw [journalOf,cons_append,map_cons,scanJournal_stale (hD.uuid base hb) hne] at hsc
    cases hsc
  rw [hg,hid] at hsc
  rcases take_deltaOf D c.session (tip base.session later).apiMessages.length k with hpart | hfull
  · rw [hpart,msgRecords_take] at hsc hf
    by_cases hnil : (c.session.apiMessages.drop (tip base.session later).apiMessages.length).take k =
        []
    · refine .inl ⟨hb,hl,.journaled hx ?_⟩
      rw [hf,hnil,zipIdx_nil,map_nil,append_nil]
    · rw [scanJournal_part hx (hD.uuid base hb) _ hnil] at hsc
      cases hsc
  · refine .inr ⟨hb,fun t ht => ?_,.journaled (chain_concat hx he) ?_⟩
    · rcases mem_append.mp ht with ht | ht
      · exact hl t ht
      · exact mem_singleton.mp ht ▸ mem_sessionsOf hc
    · rw [hf,hfull,journalOf_concat]

theorem load_save (hD : D.Sound calls) (hf : Holds D calls f base later) (hc : c ∈ calls)
    (hid : c.session.id = base.session.id)
    (hup : (later.foldl (advance D) (base.session.opened D)).updatedAt ≤ c.session.updatedAt)
    {ops : List FileOp} {receipt : SaveReceipt} (h : c.save D f = .ok (ops,receipt))
    (hw : (runOps ops f).withinReadBound) (id : String) :
    ∃ b ∈ calls, loadSessionInDir D (runOps ops f) id = .ok (b.session.reloaded D c.session) := by
  rcases save_holds hD hf hc hid h with ⟨-,hf'⟩ | ⟨-,hf'⟩
  · refine ⟨c,hc,?_⟩
    rw [load_holds_within hD hf' id hw,foldl_nil,clamp_opened,opened_reloaded]
  · refine ⟨base,hf.base_mem,?_⟩
    rw [load_holds_within hD hf' id hw,foldl_append,foldl_cons,foldl_nil,
      advance_foldl hup,clamp_replayed D hid]

theorem appends_stale (hD : D.Sound calls) (hb : base ∈ calls) (hhead : D.Headed c)
    (hne : c.uuid ≠ base.uuid) (hl : ∀ s ∈ later, s ∈ sessionsOf calls)
    (hf : f = ⟨some (snapshotBytes D c.session (some c.uuid)),
      some (journalBytes D (journalOf D base later))⟩) {s : Session} {file : List UInt8}
    {st : JournalState} : ¬Appends D f s file st := by
  intro ha
  obtain ⟨binding,hbind,hst⟩ := ha.state
  obtain ⟨raw,text,sc,hraw,-,htext,hsc,-⟩ := readJournalState_some hst
  have hfile := ha.snapshot
  subst hf
  obtain rfl := some.inj hraw
  obtain rfl := some.inj hfile
  have hread := (readLines_journalBytes D hD.toIdentity (written_journalOf hb hl)).2
  rw [htext,map_some] at hread
  have hg : binding.generation ≠ some base.uuid := by
    rw [hhead binding hbind]
    exact fun h => hne (some.inj h)
  rw [some.inj hread,journalOf,map_cons,scanJournal_stale (hD.uuid base hb) hg] at hsc
  cases hsc

theorem updatedAt_advance {cur s : Session} {t : Int} (hc : cur.updatedAt ≤ t)
    (hs : s.updatedAt ≤ t) : (advance D cur s).updatedAt ≤ t := by
  unfold advance
  split
  · exact hs
  · exact hc

/-- The next complete save starts over, or appends to files whose metadata is not
newer than its own. -/
theorem save_left (hD : D.Sound calls) (hb : base ∈ calls) (hc : c ∈ calls)
    (hl : ∀ s ∈ later, s ∈ sessionsOf calls) (hhead : D.Headed c) (hne : c.uuid ≠ base.uuid)
    (hcid : c.session.id = base.session.id) (h : Left D calls c base later f) {next : SaveCall}
    (hn : next ∈ calls) (hid : next.session.id = base.session.id)
    (hup₀ : (later.foldl (advance D) (base.session.opened D)).updatedAt ≤ next.session.updatedAt)
    (hup : c.session.updatedAt ≤ next.session.updatedAt) {ops : List FileOp}
    {receipt : SaveReceipt} (hsave : next.save D f = .ok (ops,receipt))
    (hw : (runOps ops f).withinReadBound) (id : String) :
    ∃ b ∈ calls, loadSessionInDir D (runOps ops f) id =
      .ok (b.session.reloaded D next.session) := by
  rcases save_cases D hsave with ⟨mode,durable,bind,hm,-,hbind,hp⟩ | ⟨file,st,ha,-⟩
  · refine ⟨next,hn,?_⟩
    rw [load_holds_within hD (published_holds hn hm hbind hp f) id hw,foldl_nil,clamp_opened,
      opened_reloaded]
  cases h with
  | held hf => exact load_save hD hf hn hid hup₀ hsave hw id
  | published hf => exact load_save hD hf hn (hid.trans hcid.symm) hup hsave hw id
  | stale later' hl' hf => exact absurd ha (appends_stale hD hb hhead hne hl' hf)
  | torn hx he p hp hf =>
    rcases appends_torn hD hb hc hl hx he hp hf hid ha with hf | hf
    · exact load_save hD hf hn hid hup₀ hsave hw id
    · refine load_save hD hf hn hid ?_ hsave hw id
      rw [foldl_append]
      exact updatedAt_advance hup₀ hup

end

/-- After a save of `c` that was cut off over `s₀`, a load gives an outcome of the
two, and the next complete save with a time that does not go back takes effect. -/
theorem load_after_crash {id : String} {log : List (SaveCall × SaveReceipt)} {f f' : Files}
    {s₀ : Session} {c next : SaveCall} (hrun : Saved D log f)
    (hid : ∀ e ∈ log, e.1.session.id = id) (hload : loadSessionInDir D f id = .ok s₀)
    (hc : c.session.id = id) (hfresh : ∀ e ∈ log, e.1.uuid ≠ c.uuid)
    (hcrash : Crashed f (c.plan D f) f') (hn : next.session.id = id)
    (hD : D.Sound (log.map Prod.fst ++ [c,next])) (hhead : D.Headed c) :
    (f'.withinReadBound → ∃ l, loadSessionInDir D f' id = .ok l ∧
      Outcome D (log.map Prod.fst ++ [c]) s₀ c.session l ∧
      (l.apiMessages <+: s₀.apiMessages ∨ l.apiMessages <+: c.session.history D)) ∧
    (¬f'.withinReadBound → ∃ message, loadSessionInDir D f' id = .error (.other message)) ∧
    ∀ ops receipt, c.session.updatedAt ≤ next.session.updatedAt →
      s₀.updatedAt ≤ next.session.updatedAt → next.save D f' = .ok (ops,receipt) →
      (runOps ops f').withinReadBound → ∃ b ∈ log.map Prod.fst ++ [c,next],
        loadSessionInDir D (runOps ops f') id = .ok (b.session.reloaded D next.session) := by
  have hlog : log ≠ [] := by
    rintro rfl
    rw [saved_nil hrun rfl] at hload
    cases hload
  obtain ⟨pre,base,receipt,post,hsplit,-,-,hf⟩ := saved_holds hD hrun hlog fun e he =>
    ⟨mem_append_left _ (mem_map_of_mem he),hid e he⟩
  have hmem : (base,receipt) ∈ log := by simp [hsplit]
  have hb := hf.base_mem
  have hcs : c ∈ log.map Prod.fst ++ [c,next] := by simp
  have hns : next ∈ log.map Prod.fst ++ [c,next] := by simp
  have hne := (hfresh _ hmem).symm
  have hcid := hc.trans (hid _ hmem).symm
  have hs₀ : s₀ = clampKeepwarmToTotals
      ((post.map (·.1.session)).foldl (advance D) (base.session.opened D)) := by
    by_cases hw : f.withinReadBound
    · rw [load_holds_within hD hf id hw] at hload
      exact (Except.ok.inj hload).symm
    · obtain ⟨g,hg,hsnap⟩ := hf.snapshot
      obtain ⟨message,hbeyond⟩ := load_beyond hD hb hg hsnap id hw
      rw [hbeyond] at hload
      cases hload
  have hleft := crashed_left hD hf hcs hcid hcrash
  refine ⟨fun hw => ?_,fun hw => ?_,fun ops r hup hup₀ hsave hw => ?_⟩
  · obtain ⟨l,hl,hout⟩ := load_left hD hb hcs hf.later_mem hne hleft hw id
    rw [← hs₀] at hout
    have hsub : [base,c] ⊆ log.map Prod.fst ++ [c] := by
      intro d hd
      rcases mem_pair.mp hd with rfl | rfl
      · exact mem_append_left _ (mem_map_of_mem hmem)
      · simp
    exact ⟨l,hl,hout.mono hsub,hout.history⟩
  · obtain ⟨d,hd,g,hg,hsnap⟩ := hleft.snapshot hb hcs
    exact load_beyond hD hd hg hsnap id hw
  · rw [hs₀] at hup₀
    exact save_left hD hb hcs hf.later_mem hhead hne hcid hleft hns
      (hn.trans (hid _ hmem).symm) hup₀ hup hsave hw id

def staleFiles : Files :=
  ⟨some (snapshotBytes demo taggedSession (some (demoUuid 1))),
    some (journalBytes demo (journalOf demo (durableCall emptySession 0) []))⟩

theorem demo_headed : demo.Headed (durableCall taggedSession 1) := by
  intro b hb
  have h := demo_header (durableCall taggedSession 1) (by simp)
  rw [hb] at h
  exact some.inj h

theorem demo_load : loadSessionInDir demo demoFiles emptySession.id =
    .ok (emptySession.opened demo) := by
  rw [load_holds_within demo_sound demo_holds _ demoFiles_within,foldl_nil,clamp_opened]
  rfl

theorem demo_saved_once : ∃ receipt, Saved demo [(durableCall emptySession 0,receipt)] demoFiles :=
  ⟨_,Saved.nil.durable demo emptySession (demoUuid 0)⟩

theorem load_after_crash_demo :
    Crashed demoFiles ((durableCall taggedSession 1).plan demo demoFiles) staleFiles ∧
    (∃ l, loadSessionInDir demo staleFiles emptySession.id = .ok l ∧
      Outcome demo [durableCall emptySession 0,durableCall taggedSession 1]
        (emptySession.opened demo) taggedSession l) ∧
    ∃ b : SaveCall, loadSessionInDir demo
        (runOps (publishSnapshot demo emptySession .journal true true (demoUuid 2)).1 staleFiles)
        emptySession.id = .ok (b.session.reloaded demo emptySession) := by
  have hcrash : Crashed demoFiles ((durableCall taggedSession 1).plan demo demoFiles) staleFiles :=
    .step _ (.stop _ _)
  have hn : (durableCall emptySession 2).session.id = emptySession.id := rfl
  obtain ⟨receipt,hrun⟩ := demo_saved_once
  have hmain := load_after_crash demo hrun (by simp [durableCall]) demo_load rfl
    (by simp [durableCall,demoUuid]) hcrash hn
    (demo_sound.mono (by simp [demoCalls])) demo_headed
  have hw : staleFiles.withinReadBound :=
    demo_within (c := durableCall taggedSession 1) (d := durableCall emptySession 0)
      (by simp [demoCalls]) (by simp [demoCalls])
  obtain ⟨l,hl,hout,-⟩ := hmain.1 hw
  have hw' : (runOps (publishSnapshot demo emptySession .journal true true (demoUuid 2)).1
      staleFiles).withinReadBound := by
    rw [runOps_publish]
    exact demo_within (c := durableCall emptySession 2) (d := durableCall emptySession 2)
      (by simp [demoCalls]) (by simp [demoCalls])
  obtain ⟨b,-,hb⟩ := hmain.2.2 _ _ (by decide) le_rfl rfl hw'
  exact ⟨hcrash,⟨l,hl,hout⟩,b,hb⟩

theorem demo_load_appended : ∃ l, loadSessionInDir demo (appended taggedSession) emptySession.id =
    .ok l ∧ l.updatedAt = emptySession.updatedAt := by
  have hx : Extends demo emptySession taggedSession := ⟨rfl,Nat.zero_le _,rfl⟩
  have hf := append_holds demo_holds (s := taggedSession) (by simp [sessionsOf,demoCalls,demoCall])
    (isChain_singleton _) hx rfl
  have hup : ¬(emptySession.opened demo).updatedAt ≤ taggedSession.updatedAt := by decide
  refine ⟨_,load_holds_within demo_sound hf _ (appended_within (by simp)),?_⟩
  rw [nil_append,foldl_cons,foldl_nil]
  change (clampKeepwarmToTotals (advance demo (emptySession.opened demo) taggedSession)).updatedAt = _
  rw [advance,if_neg hup]
  rfl

/-- A snapshot of a long title that is cut off before the journal is reset cannot be
loaded; and a save with a time between that of the cut-off save and that of the
session before it leaves the metadata of the latter. -/
theorem load_after_crash_fails :
    (∀ f : Files, ∃ t f', Crashed f (SaveCall.plan demo ⟨titled t 0,.json,true,"g"⟩ f) f' ∧
      ∃ message, loadSessionInDir demo f' (titled t 0).id = .error (.other message)) ∧
    (∃ receipt, Saved demo [(durableCall emptySession 0,receipt)] demoFiles) ∧
    Crashed demoFiles ((durableCall taggedSession 1).plan demo demoFiles) demoFiles ∧
    ∃ ops receipt, (demoCall taggedSession 2).save demo demoFiles = .ok (ops,receipt) ∧
      ∃ l, loadSessionInDir demo (runOps ops demoFiles) emptySession.id = .ok l ∧
        ∀ base : Session, l ≠ base.reloaded demo taggedSession := by
  refine ⟨fun f => ?_,demo_saved_once,.stop _ _,_,_,demo_save_appends (by simp),?_⟩
  · obtain ⟨t,ht⟩ := exists_long_title
    exact ⟨t,_,.step _ (.stop _ _),load_refuses_title demo ht (some "g") _ _⟩
  · obtain ⟨l,hl,hup⟩ := demo_load_appended
    refine ⟨l,hl,?_⟩
    rintro base rfl
    change (0 : Int) = 1000000000 at hup
    omega

end Synaps.Store
