import Synaps.Memory.Kinds

/-!
Staging leaves an index that covers the lines of the store up to a line boundary, also when it is
stopped between two changes. Searching merges the segments newest first, and the page it fills is
the first documents that the query wants among the live ones.
-/

set_option autoImplicit false

namespace Synaps.Memory

open Json List

variable {D : Deps} {scope : ProjectScope}

/-- The segments hold the live documents of the lines, except for those that the manifest's own
tombstones still have to hide. -/
structure Covers (D : Deps) (scope : ProjectScope) (dir : Option Dir) (m : Manifest)
    (ks : List LineKind) : Prop where
  version : m.version = manifestVersion
  segments : ∃ dss, List.Forall₂ (SegmentFile dir) m.segments dss ∧
    (dss.flatten.filter fun d => !m.tombstones.contains d.id).Perm (liveDocs D scope ks)
  tombstones : ∀ id ∈ m.tombstones, id ∈ tombsOf ks

def StaysForgotten (D : Deps) (scope : ProjectScope) (ks : List LineKind) : Prop :=
  ∀ a b, ks = a ++ b → ∀ d ∈ docsOf D scope b, d.id ∉ tombsOf a

def Staged (D : Deps) (scope : ProjectScope) (ls : List (List Char)) (ks : List LineKind)
    (dir : Option Dir) : Prop :=
  ∀ m, loadManifest D dir = some m →
    ∃ k, m.indexedBytes = linesLength (ls.take k) ∧ Covers D scope dir m (ks.take k)

theorem forall₂_mem_left {α β : Type} {r : α → β → Prop} {as : List α} {bs : List β}
    (h : Forall₂ r as bs) {a : α} (ha : a ∈ as) : ∃ b ∈ bs, r a b := by
  induction h with
  | nil => cases ha
  | @cons a' b as bs hab _ ih =>
    rcases mem_cons.mp ha with rfl | ha
    · exact ⟨b,mem_cons_self,hab⟩
    · obtain ⟨b',hb',hr⟩ := ih ha
      exact ⟨b',mem_cons_of_mem _ hb',hr⟩

theorem segmentFiles_congr {dir dir' : Option Dir} {segs : List SegmentMeta}
    {dss : List (List SegmentDoc)} (h : Forall₂ (SegmentFile dir) segs dss)
    (hfiles : ∀ seg ∈ segs, readFile dir' seg.file = readFile dir seg.file) :
    Forall₂ (SegmentFile dir') segs dss := by
  induction h with
  | nil => exact .nil
  | cons hseg _ ih =>
    exact .cons (hseg.congr (hfiles _ mem_cons_self))
      (ih fun seg hs => hfiles seg (mem_cons_of_mem _ hs))

theorem Covers.congr {dir dir' : Option Dir} {m : Manifest} {ks : List LineKind}
    (h : Covers D scope dir m ks)
    (hfiles : ∀ seg ∈ m.segments, readFile dir' seg.file = readFile dir seg.file) :
    Covers D scope dir' m ks := by
  obtain ⟨dss,hdss,hperm⟩ := h.segments
  exact ⟨h.version,⟨dss,segmentFiles_congr hdss hfiles,hperm⟩,h.tombstones⟩

section

variable {dir : Option Dir} {m : Manifest} {ks : List LineKind} (h : Covers D scope dir m ks)
  {seg : SegmentMeta} (hseg : seg ∈ m.segments)

include dir m ks h hseg

theorem Covers.numbered : ∃ n, seg.file = segFile n ∧ n < nextSeg m.segments := by
  obtain ⟨dss,hdss,-⟩ := h.segments
  obtain ⟨docs,-,hdocs⟩ := forall₂_mem_left hdss hseg
  obtain ⟨n,hn⟩ := hdocs.number
  exact ⟨n,hn,lt_nextSeg hseg hn⟩

theorem Covers.ne_manifestFile : seg.file ≠ manifestFile := by
  obtain ⟨n,hn,-⟩ := h.numbered hseg
  rw [hn]
  exact segFile_ne_manifestFile n

end

/-- The changes write what a new manifest needs beside the segments of the old one, then the
manifest, and then remove what it does not need. -/
structure Publishes (D : Deps) (scope : ProjectScope) (dir : Option Dir) (old : List SegmentMeta)
    (m : Manifest) (ks : List LineKind) (writes removes : List DirOp) : Prop where
  sparesManifest : ∀ op ∈ writes, op.Spares manifestFile
  sparesOld : ∀ seg ∈ old, ∀ op ∈ writes, op.Spares seg.file
  covers : Covers D scope (applyOps dir writes) m ks
  removesManifest : ∀ op ∈ removes, op.Spares manifestFile
  removesNew : ∀ seg ∈ m.segments, ∀ op ∈ removes, op.Spares seg.file

variable {dir : Option Dir} {old : List SegmentMeta} {m : Manifest} {ks : List LineKind}
  {writes removes : List DirOp}

theorem Publishes.before (h : Publishes D scope dir old m ks writes removes) {ops : List DirOp}
    (hops : ∀ op ∈ ops, op ∈ writes) :
    loadManifest D (applyOps dir ops) = loadManifest D dir ∧
      ∀ seg ∈ old, readFile (applyOps dir ops) seg.file = readFile dir seg.file := by
  constructor
  · exact loadManifest_congr (readFile_applyOps dir fun op hop => h.sparesManifest op (hops op hop))
  · exact fun seg hseg =>
      readFile_applyOps dir fun op hop => h.sparesOld seg hseg op (hops op hop)

section

variable (hD : D.ReadsIndex) (h : Publishes D scope dir old m ks writes removes)

include hD h

theorem Publishes.after {ops : List DirOp} (hops : ∀ op ∈ ops, op ∈ removes) :
    loadManifest D (applyOps dir (writes ++ writeManifest m :: ops)) = some m ∧
      Covers D scope (applyOps dir (writes ++ writeManifest m :: ops)) m ks := by
  rw [applyOps_append,applyOps_cons]
  constructor
  · refine loadManifest_of_file hD ?_ h.covers.version
    rw [readFile_applyOps _ fun op hop => h.removesManifest op (hops op hop),writeManifest,
      readFile_write]
    exact if_pos rfl
  · refine h.covers.congr fun seg hseg => ?_
    rw [readFile_applyOps _ fun op hop => h.removesNew seg hseg op (hops op hop),writeManifest,
      readFile_write]
    exact if_neg (h.covers.ne_manifestFile hseg)

theorem Publishes.stopped (j : Nat) :
    (loadManifest D (applyOps dir ((writes ++ writeManifest m :: removes).take j)) =
          loadManifest D dir ∧
        ∀ seg ∈ old, readFile (applyOps dir ((writes ++ writeManifest m :: removes).take j))
          seg.file = readFile dir seg.file) ∨
      (loadManifest D (applyOps dir ((writes ++ writeManifest m :: removes).take j)) = some m ∧
        Covers D scope (applyOps dir ((writes ++ writeManifest m :: removes).take j)) m ks) := by
  rw [take_append]
  cases hj : j - writes.length with
  | zero =>
    left
    rw [take_zero,append_nil]
    exact h.before fun op hop => mem_of_mem_take hop
  | succ i =>
    right
    rw [take_of_length_le (by omega),take_succ_cons]
    exact h.after hD fun op hop => mem_of_mem_take hop

end

theorem readSegments (hD : D.ReadsIndex) {segs : List SegmentMeta} {dss : List (List SegmentDoc)}
    (h : Forall₂ (SegmentFile dir) segs dss) :
    segs.mapM (fun seg => readSegment D dir seg.file) = .ok dss := by
  induction h with
  | nil => rfl
  | cons hseg _ ih =>
    rw [mapM_cons,readSegment_of_file hD hseg.file]
    simp only [bind,Except.bind,ih]
    rfl

theorem compactSegments_publishes (hD : D.ReadsIndex) (h : Covers D scope dir m ks) {seq : Nat}
    (hseq : ∀ seg ∈ m.segments, ∃ n, seg.file = segFile n ∧ n < seq) :
    ∃ merged writes removes, compactSegments D dir m seq =
        ⟨writes ++ writeManifest merged :: removes,.ok merged⟩ ∧
      merged.indexedBytes = m.indexedBytes ∧
      (∀ op ∈ writes, ∀ file, (∀ n, seq ≤ n → file ≠ segFile n) → op.Spares file) ∧
      Publishes D scope dir m.segments merged ks writes removes := by
  obtain ⟨dss,hdss,hperm⟩ := h.segments
  let allDocs := Comparator.sortBy docCmp
    (dss.flatten.filter fun doc => !m.tombstones.contains doc.id)
  let targetDocs :=
    max ((allDocs.length + (maxSegments / 2 - 1)) / (maxSegments / 2)) segmentMaxDocs
  let compacted := chunks targetDocs allDocs
  let merged := { m with segments := segmentMetas D seq compacted, tombstones := [] }
  have hspares : ∀ op ∈ segmentWrites seq compacted, ∀ file,
      (∀ n, seq ≤ n → file ≠ segFile n) → op.Spares file :=
    fun op hop file hfile => segmentWrites_spares (fun n hle _ => hfile n hle) op hop
  have hsorted : ∀ docs ∈ compacted, docs.Pairwise Newer :=
    pairwise_chunks (Comparator.sortBy_pairwise _)
  have hfiles := @segmentFiles_written D seq compacted hsorted dir
  refine ⟨merged,segmentWrites seq compacted,m.segments.map (fun seg => .remove seg.file),?_,rfl,
    hspares,?_,?_,⟨h.version,⟨compacted,hfiles,?_⟩,nofun⟩,?_,?_⟩
  · simp only [compactSegments,readSegments hD hdss]
    rw [append_assoc]
    rfl
  · exact fun op hop => hspares op hop _ fun n _ => (segFile_ne_manifestFile n).symm
  · intro seg hseg op hop
    obtain ⟨n,hn,hlt⟩ := hseq seg hseg
    refine hspares op hop _ fun i hi hfile => ?_
    rw [hn] at hfile
    exact absurd (segFile_injective hfile) (by omega)
  · have hall : ∀ ds : List SegmentDoc, (ds.filter fun d => !([] : List String).contains d.id) = ds :=
      fun ds => filter_eq_self.mpr fun _ _ => rfl
    show (compacted.flatten.filter fun d => !([] : List String).contains d.id).Perm _
    rw [hall,flatten_chunks]
    exact (Comparator.sortBy_perm _).trans hperm
  · intro op hop
    obtain ⟨seg,hseg,rfl⟩ := mem_map.mp hop
    exact (h.ne_manifestFile hseg).symm
  · intro new hnew op hop
    obtain ⟨seg,hseg,rfl⟩ := mem_map.mp hop
    obtain ⟨n,hn,hlt⟩ := hseq seg hseg
    obtain ⟨i,hi,hle,-⟩ := mem_segmentMetas hnew
    intro hfile
    have hin : segFile i = segFile n := hi.symm.trans (hfile.trans hn)
    exact absurd (segFile_injective hin) (by omega)

theorem liveDocs_append {a b : List LineKind} (h : StaysForgotten D scope (a ++ b)) :
    liveDocs D scope (a ++ b) = (liveDocs D scope a).filter (fun d => !(tombsOf b).contains d.id) ++
        (docsOf D scope b).filter fun d => !(tombsOf b).contains d.id := by
  have hfresh := h a b rfl
  simp only [liveDocs,docsOf_append,tombsOf_append,filter_append,filter_filter]
  congr 1
  · refine filter_congr fun d _ => ?_
    simp [Bool.and_comm]
  · refine filter_congr fun d hd => ?_
    simp [hfresh d hd]

theorem Covers.spared {a : List LineKind} (h : Covers D scope dir m a)
    (staged : List (List SegmentDoc)) {file : String}
    (hfile : file = manifestFile ∨ ∃ seg ∈ m.segments, file = seg.file) :
    ∀ op ∈ DirOp.createDir :: segmentWrites (nextSeg m.segments) staged, op.Spares file := by
  intro op hop
  rcases mem_cons.mp hop with rfl | hop
  · trivial
  refine segmentWrites_spares (fun n hle _ hn => ?_) op hop
  rcases hfile with rfl | ⟨seg,hseg,rfl⟩
  · exact segFile_ne_manifestFile n hn.symm
  · obtain ⟨i,hi,hlt⟩ := h.numbered hseg
    rw [hi] at hn
    exact absurd (segFile_injective hn) (by omega)

theorem flatten_map_sortBy_perm (dss : List (List SegmentDoc)) :
    (dss.map (Comparator.sortBy docCmp)).flatten.Perm dss.flatten := by
  induction dss with
  | nil => exact .refl _
  | cons docs dss ih => exact (Comparator.sortBy_perm docs).append ih

theorem covers_staged {a b : List LineKind} (hgone : StaysForgotten D scope (a ++ b))
    (h : Covers D scope dir m a) {scan : StageScan}
    (htombs : ∀ id, id ∈ scan.tombstones ↔ id ∈ m.tombstones ∨ id ∈ tombsOf b)
    (hpending : scan.pending = (docsOf D scope b).filter fun d =>
      !m.tombstones.contains d.id && !(tombsOf b).contains d.id)
    {staged : List (List SegmentDoc)} (hsorted : ∀ docs ∈ staged, docs.Pairwise Newer)
    (hstaged : staged.flatten.Perm scan.pending) (n : Nat) :
    Covers D scope (applyOps dir (.createDir :: segmentWrites (nextSeg m.segments) staged))
      ⟨m.version,n,m.segments ++ segmentMetas D (nextSeg m.segments) staged,
        scan.tombstones.mergeSort fun a b => decide (a ≤ b)⟩ (a ++ b) := by
  obtain ⟨dss,hdss,hperm⟩ := h.segments
  have hold := segmentFiles_congr hdss fun seg hseg =>
    readFile_applyOps dir (h.spared staged (.inr ⟨seg,hseg,rfl⟩))
  have hnew := @segmentFiles_written D (nextSeg m.segments) staged hsorted
    (DirOp.apply dir .createDir)
  have hmem (id : String) : (scan.tombstones.mergeSort fun a b => decide (a ≤ b)).contains id =
        (m.tombstones.contains id || (tombsOf b).contains id) := by
    rw [Bool.eq_iff_iff]
    simp only [contains_iff_mem,Bool.or_eq_true,mem_mergeSort]
    exact htombs id
  refine ⟨h.version,⟨dss ++ staged,rel_append hold hnew,?_⟩,fun id hid => ?_⟩
  · rw [liveDocs_append hgone,flatten_append,filter_append]
    refine Perm.append ?_ ?_
    · have hsplit : (dss.flatten.filter fun d =>
          !(scan.tombstones.mergeSort fun a b => decide (a ≤ b)).contains d.id) =
          (dss.flatten.filter fun d => !m.tombstones.contains d.id).filter
            fun d => !(tombsOf b).contains d.id := by
        rw [filter_filter]
        refine filter_congr fun d _ => ?_
        rw [hmem,Bool.not_or,Bool.and_comm]
      show (dss.flatten.filter _).Perm _
      rw [hsplit]
      exact hperm.filter _
    · have hkept : scan.pending = (docsOf D scope b).filter fun d =>
          !(tombsOf b).contains d.id := by
        rw [hpending]
        refine filter_congr fun d hd => ?_
        have hno : d.id ∉ m.tombstones :=
          fun hm => hgone a b rfl d hd (h.tombstones d.id hm)
        simp [hno]
      refine (hstaged.filter _).trans ?_
      rw [hkept,filter_filter]
      refine Perm.of_eq (filter_congr fun d hd => ?_)
      have hno : d.id ∉ m.tombstones :=
        fun hm => hgone a b rfl d hd (h.tombstones d.id hm)
      show (!(scan.tombstones.mergeSort fun a b => decide (a ≤ b)).contains d.id &&
        !(tombsOf b).contains d.id) = _
      rw [hmem]
      simp [hno]
  · have hid' := (htombs id).mp (mem_mergeSort.mp hid)
    rw [tombsOf_append,mem_append]
    rcases hid' with hid' | hid'
    · exact .inl (h.tombstones id hid')
    · exact .inr hid'

structure StagedAll (D : Deps) (scope : ProjectScope) (ls : List (List Char))
    (ks : List LineKind) (dir : Option Dir) (staging : Staging) (m : Manifest) : Prop where
  result : staging.result = .ok m
  stopped : ∀ j, Staged D scope ls ks (applyOps dir (staging.ops.take j))
  loads : (loadManifest D (applyOps dir staging.ops)).getD Manifest.empty = m
  covers : Covers D scope (applyOps dir staging.ops) m ks

section

variable (hD : D.ReadsIndex) {ls : List (List Char)}

include hD

theorem Publishes.stagedAll (h : Publishes D scope dir old m ks writes removes)
    (hold : ∀ m', loadManifest D dir = some m' → m'.segments = old ∧
      ∃ k, m'.indexedBytes = linesLength (ls.take k) ∧ Covers D scope dir m' (ks.take k))
    (hbytes : m.indexedBytes = linesLength ls) :
    StagedAll D scope ls ks dir ⟨writes ++ writeManifest m :: removes,.ok m⟩ m := by
  have hafter := h.after hD fun op hop => hop
  refine ⟨rfl,fun j m' hm' => ?_,by rw [hafter.1]; rfl,hafter.2⟩
  rcases h.stopped hD j with ⟨hload,hfiles⟩ | ⟨hload,hcovers⟩
  · rw [hload] at hm'
    obtain ⟨hsegs,k,hk,hcovers⟩ := hold m' hm'
    exact ⟨k,hk,hcovers.congr fun seg hseg => hfiles seg (hsegs ▸ hseg)⟩
  · rw [hload] at hm'
    cases hm'
    refine ⟨ls.length + ks.length,?_,?_⟩
    · rw [hbytes,take_of_length_le (Nat.le_add_right _ _)]
    · rw [take_of_length_le (Nat.le_add_left _ _)]
      exact hcovers

theorem staged_stagedAll {k : Nat} (hgone : StaysForgotten D scope ks)
    (hcovers : Covers D scope dir m (ks.take k))
    (hold : ∀ m', loadManifest D dir = some m' → m'.segments = m.segments ∧
      ∃ k, m'.indexedBytes = linesLength (ls.take k) ∧ Covers D scope dir m' (ks.take k))
    {scan : StageScan}
    (hscan : scan = { (ks.drop k).foldl (StageScan.kind D scope) ⟨m.tombstones,[],m.indexedBytes⟩
      with consumed := linesLength ls }) :
    let staged := (chunks segmentMaxDocs scan.pending).map (Comparator.sortBy docCmp)
    let seq := nextSeg m.segments
    let writes := .createDir :: segmentWrites seq staged
    let manifest : Manifest :=
      { m with
        segments := m.segments ++ segmentMetas D seq staged
        indexedBytes := scan.consumed
        tombstones := scan.tombstones.mergeSort fun a b => decide (a ≤ b) }
    ∃ m', StagedAll D scope ls ks dir
      (if manifest.segments.length > maxSegments then
        let compaction := compactSegments D (applyOps dir writes) manifest (seq + staged.length)
        ⟨writes ++ compaction.ops,compaction.result⟩
      else ⟨writes ++ [writeManifest manifest],.ok manifest⟩) m' := by
  intro staged seq writes manifest
  obtain ⟨htombs,hpending⟩ := @StageScan.foldl_kind D scope (ks.drop k)
    ⟨m.tombstones,[],m.indexedBytes⟩
  have hbytes : manifest.indexedBytes = linesLength ls := by
    show scan.consumed = _
    rw [hscan]
  have hsorted : ∀ docs ∈ staged, docs.Pairwise Newer := by
    intro docs hdocs
    obtain ⟨ds,-,rfl⟩ := mem_map.mp hdocs
    exact Comparator.sortBy_pairwise ds
  have hflat : staged.flatten.Perm scan.pending := by
    have h := flatten_map_sortBy_perm (chunks segmentMaxDocs scan.pending)
    rwa [flatten_chunks] at h
  have hcov : Covers D scope (applyOps dir writes) manifest ks := by
    have h := @covers_staged D scope dir m (ks.take k) (ks.drop k)
      (by rw [take_append_drop]; exact hgone) hcovers scan (by rw [hscan]; exact htombs)
      (by rw [hscan]; exact hpending) staged hsorted hflat scan.consumed
    rwa [take_append_drop] at h
  split
  · have hseq : ∀ seg ∈ manifest.segments, ∃ n, seg.file = segFile n ∧ n < seq + staged.length := by
      intro seg hseg
      rcases mem_append.mp hseg with hseg | hseg
      · obtain ⟨n,hn,hlt⟩ := hcovers.numbered hseg
        exact ⟨n,hn,Nat.lt_of_lt_of_le hlt (Nat.le_add_right _ _)⟩
      · obtain ⟨n,hn,-,hlt⟩ := mem_segmentMetas hseg
        exact ⟨n,hn,hlt⟩
    obtain ⟨merged,cwrites,cremoves,heq,hmerged,-,hpub⟩ := compactSegments_publishes hD hcov hseq
    refine ⟨merged,?_⟩
    show StagedAll D scope ls ks dir
      ⟨writes ++ (compactSegments D (applyOps dir writes) manifest (seq + staged.length)).ops,
        (compactSegments D (applyOps dir writes) manifest (seq + staged.length)).result⟩ merged
    rw [heq,← append_assoc]
    refine Publishes.stagedAll hD ⟨fun op hop => ?_,fun seg hseg op hop => ?_,?_,
      hpub.removesManifest,hpub.removesNew⟩ hold (hmerged.trans hbytes)
    · rcases mem_append.mp hop with hop | hop
      · exact hcovers.spared staged (.inl rfl) op hop
      · exact hpub.sparesManifest op hop
    · rcases mem_append.mp hop with hop | hop
      · exact hcovers.spared staged (.inr ⟨seg,hseg,rfl⟩) op hop
      · exact hpub.sparesOld seg (mem_append_left _ hseg) op hop
    · rw [applyOps_append]
      exact hpub.covers
  · refine ⟨manifest,Publishes.stagedAll hD ⟨fun op hop => ?_,fun seg hseg op hop => ?_,hcov,
      nofun,nofun⟩ hold hbytes⟩
    · exact hcovers.spared staged (.inl rfl) op hop
    · exact hcovers.spared staged (.inr ⟨seg,hseg,rfl⟩) op hop

theorem stageFrom_stagedAll (hls : Forall₂ (LineIs D) ls ks)
    (hgone : StaysForgotten D scope ks) {t : List Char} (ht : '\n' ∉ t)
    {store : Option (List UInt8)} (hstore : store.getD [] = fileBytes ls t) {k : Nat}
    (hbytes : m.indexedBytes = linesLength (ls.take k))
    (hcovers : Covers D scope dir m (ks.take k))
    (hloads : (loadManifest D dir).getD Manifest.empty = m) :
    ∃ m', StagedAll D scope ls ks dir (stageFrom D scope store dir m) m' := by
  have hold : ∀ m', loadManifest D dir = some m' → m' = m := by
    intro m' hm'
    rwa [hm'] at hloads
  have hsplit : linesLength ls = linesLength (ls.take k) + linesLength (ls.drop k) := by
    rw [← linesLength_append,take_append_drop]
  simp only [stageFrom,hstore]
  split
  · -- there is more in the store than the manifest covers
    have hscan := @stageLines_fileBytes D scope _ _ (forall₂_drop k hls) t ht
      ⟨m.tombstones,[],m.indexedBytes⟩
    rw [hbytes,drop_fileBytes,← hbytes,hscan]
    have hconsumed : m.indexedBytes + linesLength (ls.drop k) = linesLength ls := by
      rw [hbytes,hsplit]
    simp only [hconsumed]
    exact staged_stagedAll hD hgone hcovers
      (fun m' hm' => ⟨congrArg Manifest.segments (hold m' hm'),k,hold m' hm' ▸ ⟨hbytes,hcovers⟩⟩) rfl
  · -- nothing to stage
    rename_i hmore
    rw [length_fileBytes] at hmore
    have hrest : ls.drop k = [] := linesLength_eq_zero (by omega)
    have hlen : ls.length ≤ k := drop_eq_nil_iff.mp hrest
    have hks : ks.take k = ks := take_of_length_le (hls.length_eq ▸ hlen)
    rw [hks] at hcovers
    refine ⟨m,rfl,fun j m' hm' => ?_,hloads,hcovers⟩
    rw [take_nil,applyOps_nil] at hm' ⊢
    obtain rfl := hold m' hm'
    exact ⟨k,hbytes,by rw [hks]; exact hcovers⟩

end

theorem covers_empty (dir : Option Dir) : Covers D scope dir Manifest.empty [] :=
  ⟨rfl,⟨[],.nil,.refl _⟩,nofun⟩

theorem ensureIndex_stagedAll (hD : D.ReadsIndex) {ls : List (List Char)}
    (hls : Forall₂ (LineIs D) ls ks) (hgone : StaysForgotten D scope ks) {t : List Char}
    (ht : '\n' ∉ t) {store : Option (List UInt8)} (hstore : store.getD [] = fileBytes ls t)
    (hdir : Staged D scope ls ks dir) :
    ∃ m, StagedAll D scope ls ks dir (ensureIndex D scope store dir) m := by
  unfold ensureIndex
  cases hm : usableManifest D store dir with
  | some m =>
    have hload : loadManifest D dir = some m := (Option.filter_eq_some_iff.mp hm).1
    obtain ⟨k,hbytes,hcovers⟩ := hdir m hload
    exact stageFrom_stagedAll hD hls hgone ht hstore hbytes hcovers (by rw [hload]; rfl)
  | none =>
    obtain ⟨m,hstaged⟩ := @stageFrom_stagedAll D scope none Manifest.empty ks hD ls hls hgone t ht
      store hstore 0 rfl (covers_empty none) rfl
    refine ⟨m,hstaged.result,fun j => ?_,hstaged.loads,hstaged.covers⟩
    cases j with
    | zero => exact hdir
    | succ j => exact hstaged.stopped j

open Merge Nat

theorem popMax_none {ks : List HeapKey} (h : popMax ks = none) : ks = [] := by
  cases ks with
  | nil => rfl
  | cons k ks =>
    rw [popMax] at h
    split at h
    · cases h
    · split at h <;> cases h

instance : Std.TransCmp keyCmp :=
  inferInstanceAs (Std.TransCmp (compareLex (compareOn fun k : HeapKey => k.ts.toNat)
    (compareOn HeapKey.id)))

theorem popMax_some {ks rest : List HeapKey} {best : HeapKey} (h : popMax ks = some (best,rest)) :
    (best :: rest).Perm ks ∧ ∀ k ∈ ks, (keyCmp k best).isLE = true := by
  induction ks generalizing best rest with
  | nil => cases h
  | cons k ks ih =>
    have hself (k : HeapKey) : (keyCmp k k).isLE = true := Std.ReflCmp.isLE_rfl
    rw [popMax] at h
    split at h
    · rename_i hnone
      obtain ⟨rfl,rfl⟩ := Prod.mk.inj (Option.some.inj h)
      rw [popMax_none hnone]
      exact ⟨.refl _,fun k' hk' => mem_singleton.mp hk' ▸ hself _⟩
    · rename_i best' rest' hsome
      obtain ⟨hperm,hmax⟩ := ih hsome
      split at h
      · rename_i hle
        obtain ⟨rfl,rfl⟩ := Prod.mk.inj (Option.some.inj h)
        refine ⟨hperm.cons _,fun k' hk' => ?_⟩
        rcases mem_cons.mp hk' with rfl | hk'
        · exact hself _
        · exact Std.TransCmp.isLE_trans (hmax k' hk') hle
      · rename_i hgt
        obtain ⟨rfl,rfl⟩ := Prod.mk.inj (Option.some.inj h)
        refine ⟨(Perm.swap _ _ _).trans (hperm.cons k),fun k' hk' => ?_⟩
        rcases mem_cons.mp hk' with rfl | hk'
        · have hsw : keyCmp k' best' = (keyCmp best' k').swap := Std.OrientedCmp.eq_swap
          revert hgt
          rw [hsw]
          cases keyCmp best' k' <;> simp
        · exact hmax k' hk'

def keyOf (i : Nat) (d : SegmentDoc) : HeapKey := ⟨d.ts,d.id,i⟩

def headsFrom (n : Nat) : List (List SegmentDoc) → List HeapKey
  | [] => []
  | docs :: dss => (docs.head?.map (keyOf n)).toList ++ headsFrom (n + 1) dss

theorem headKey_streamOf (i : Nat) (docs : List SegmentDoc) :
    headKey i (streamOf docs) = docs.head?.map (keyOf i) := rfl

theorem heads_eq (n : Nat) (dss : List (List SegmentDoc)) :
    ((range' n dss.length).zip (dss.map streamOf)).filterMap (fun s => headKey s.1 s.2) =
      headsFrom n dss := by
  induction dss generalizing n with
  | nil => rfl
  | cons docs dss ih =>
    simp only [length_cons,range'_succ,map_cons,zip_cons_cons,
      filterMap_cons,headsFrom,headKey_streamOf]
    rw [ih]
    cases docs.head?.map (keyOf n) <;> rfl

variable {dss : List (List SegmentDoc)}

theorem mem_headsFrom {n : Nat} {k : HeapKey} :
    k ∈ headsFrom n dss ↔ ∃ i d docs, dss[i]? = some (d :: docs) ∧ k = keyOf (n + i) d := by
  induction dss generalizing n with
  | nil => simp [headsFrom]
  | cons docs dss ih =>
    simp only [headsFrom,mem_append,Option.mem_toList,ih]
    constructor
    · rintro (h | ⟨i,d,docs',hi,rfl⟩)
      · obtain ⟨d,hd,rfl⟩ := Option.map_eq_some_iff.mp h
        obtain ⟨rest,rfl⟩ := head?_eq_some_iff.mp hd
        exact ⟨0,d,rest,rfl,rfl⟩
      · exact ⟨i+1,d,docs',hi,by rw [add_right_comm,add_assoc]⟩
    · rintro ⟨i,d,docs',hi,rfl⟩
      cases i with
      | zero =>
        left
        cases hi
        rfl
      | succ i =>
        right
        exact ⟨i,d,docs',hi,by rw [add_right_comm,add_assoc]⟩

variable {docs : List SegmentDoc}

theorem headsFrom_set {n i : Nat} {d : SegmentDoc} (hi : dss[i]? = some (d :: docs)) :
    ∃ others, (headsFrom n dss).Perm (keyOf (n + i) d :: others) ∧
      (headsFrom n (dss.set i docs)).Perm ((docs.head?.map (keyOf (n + i))).toList ++ others) := by
  induction dss generalizing n i with
  | nil => simp at hi
  | cons docs' dss ih =>
    cases i with
    | zero =>
      cases hi
      exact ⟨headsFrom (n + 1) dss,.refl _,.refl _⟩
    | succ i =>
      obtain ⟨others,h₁,h₂⟩ := @ih (n + 1) i hi
      have hn : n + 1 + i = n + (i + 1) := by omega
      rw [hn] at h₁ h₂
      refine ⟨(docs'.head?.map (keyOf n)).toList ++ others,?_,?_⟩
      · rw [headsFrom]
        exact (h₁.append_left _).trans perm_middle
      · rw [set_cons_succ,headsFrom]
        refine (h₂.append_left _).trans ?_
        rw [← append_assoc,← append_assoc]
        exact perm_append_comm.append_right _

def collectPage (D : Deps) (q : IndexQuery) (tombstones : List String) :
    List IndexHit → IndexSearchStats → List SegmentDoc → IndexPage
  | hits,stats,[] => ⟨hits,none,stats⟩
  | hits,stats,doc :: docs =>
    let stats := { stats with docsScanned := stats.docsScanned + 1 }
    if q.accepts D tombstones doc then
      if hits.length = q.effectiveLimit then ⟨hits,hits.getLast?.map IndexHit.cursor,stats⟩
      else
        let hits := hits ++ [doc.hit]
        collectPage D q tombstones hits
          { stats with maxResidentHits := max stats.maxResidentHits hits.length } docs
    else collectPage D q tombstones hits stats docs

theorem newer_of_keyCmp {i j : Nat} {a b : SegmentDoc}
    (h : (keyCmp (keyOf j b) (keyOf i a)).isLE = true) : Newer a b := h

theorem mergeLoop_collects (hD : D.ReadsIndex) (q : IndexQuery) (tombstones : List String)
    {fuel : Nat} (hfuel : dss.flatten.length < fuel) {heap : List HeapKey}
    (hheap : heap.Perm (headsFrom 0 dss)) (hits : List IndexHit) (stats : IndexSearchStats) :
    ∃ out, Merges Newer dss out ∧ mergeLoop D q tombstones fuel ⟨dss.map streamOf,heap,hits,stats⟩ =
        .ok (collectPage D q tombstones hits stats out) := by
  induction fuel generalizing dss heap hits stats with
  | zero => cases hfuel
  | succ fuel ih =>
    rw [mergeLoop]
    cases hpop : popMax heap with
    | none =>
      have hempty : headsFrom 0 dss = [] := by
        rw [popMax_none hpop] at hheap
        exact hheap.symm.eq_nil
      refine ⟨[],.done fun docs hdocs => ?_,rfl⟩
      cases docs with
      | nil => rfl
      | cons d docs =>
        obtain ⟨i,hi⟩ := mem_iff_getElem?.mp hdocs
        have hmem : keyOf (0 + i) d ∈ headsFrom 0 dss := mem_headsFrom.mpr ⟨i,d,docs,hi,rfl⟩
        rw [hempty] at hmem
        cases hmem
    | some popped =>
      obtain ⟨key,rest⟩ := popped
      obtain ⟨hperm,hmax⟩ := popMax_some hpop
      obtain ⟨i,d,docs,hi,rfl⟩ := mem_headsFrom.mp
        (hheap.mem_iff.mp (hperm.mem_iff.mp mem_cons_self))
      rw [zero_add] at hperm hmax
      have hstream : (dss.map streamOf)[i]? = some (streamOf (d :: docs)) := by
        rw [getElem?_map,hi]
        rfl
      have hcurrent : (streamOf (d :: docs)).current = some d := rfl
      have hset : (dss.map streamOf).set i (streamOf docs) = (dss.set i docs).map streamOf :=
        map_set.symm
      -- the heap without the key, with that of the document behind it
      have hheap' : ((headKey i (streamOf docs)).toList ++ rest).Perm
          (headsFrom 0 (dss.set i docs)) := by
        obtain ⟨others,h₁,h₂⟩ := @headsFrom_set dss docs 0 i d hi
        rw [zero_add] at h₁ h₂
        have hrest : rest.Perm others := ((hperm.trans hheap).trans h₁).cons_inv
        rw [headKey_streamOf]
        exact (hrest.append_left _).trans h₂.symm
      have hlen : (dss.set i docs).flatten.length < fuel := by
        have h := (flatten_set_perm hi).length_eq
        rw [length_cons] at h
        omega
      have hnewest : ∀ docs' ∈ dss, ∀ y ∈ docs'.head?, Newer d y := by
        intro docs' hdocs' y hy
        obtain ⟨rest',rfl⟩ := head?_eq_some_iff.mp hy
        obtain ⟨j,hj⟩ := mem_iff_getElem?.mp hdocs'
        have hmem : keyOf (0 + j) y ∈ headsFrom 0 dss := mem_headsFrom.mpr ⟨j,y,rest',hj,rfl⟩
        exact newer_of_keyCmp (hmax _ (hheap.symm.mem_iff.mp hmem))
      simp only [zero_add,keyOf,hstream,hcurrent,advance_streamOf hD,bind,Except.bind,hset]
      by_cases hacc : q.accepts D tombstones d = true
      · by_cases hfull : hits.length = q.effectiveLimit
        · obtain ⟨out,hout,-⟩ := ih hlen hheap' hits stats
          refine ⟨d :: out,.step hi hnewest hout,?_⟩
          simp only [if_pos hacc,if_pos hfull,collectPage]
          rfl
        · obtain ⟨out,hout,heq⟩ := ih hlen hheap' (hits ++ [d.hit]) _
          refine ⟨d :: out,.step hi hnewest hout,?_⟩
          simp only [if_pos hacc,if_neg hfull,collectPage]
          exact heq
      · obtain ⟨out,hout,heq⟩ := ih hlen hheap' hits _
        refine ⟨d :: out,.step hi hnewest hout,?_⟩
        simp only [if_neg hacc,collectPage]
        exact heq

/-- A page that holds at most as many hits as its limit takes the next documents the query
accepts, and names a cursor if there are more. -/
theorem collectPage_eq (q : IndexQuery) (tombstones : List String) (hits : List IndexHit)
    (stats : IndexSearchStats) (docs : List SegmentDoc) (hle : hits.length ≤ q.effectiveLimit) :
    let found := hits ++ (docs.filter (q.accepts D tombstones)).map SegmentDoc.hit
    (collectPage D q tombstones hits stats docs).hits = found.take q.effectiveLimit ∧
      (collectPage D q tombstones hits stats docs).next =
        if q.effectiveLimit < found.length then
          (found.take q.effectiveLimit).getLast?.map IndexHit.cursor
        else none := by
  induction docs generalizing hits stats with
  | nil =>
    simp only [filter_nil,map_nil,append_nil,collectPage]
    rw [take_of_length_le hle,if_neg (by omega)]
    exact ⟨rfl,rfl⟩
  | cons d docs ih =>
    by_cases hacc : q.accepts D tombstones d = true
    · by_cases hfull : hits.length = q.effectiveLimit
      · simp only [collectPage,if_pos hacc,if_pos hfull,filter_cons_of_pos hacc,map_cons]
        rw [← hfull,take_left,if_pos (by simp)]
        exact ⟨rfl,rfl⟩
      · have h := ih (hits ++ [d.hit]) { stats with
          docsScanned := stats.docsScanned + 1
          maxResidentHits := max stats.maxResidentHits (hits ++ [d.hit]).length } (by
            rw [length_append,length_singleton]
            omega)
        simp only [collectPage,if_pos hacc,if_neg hfull,filter_cons_of_pos hacc,map_cons]
        simpa only [append_assoc,singleton_append] using h
    · simp only [collectPage,if_neg hacc,filter_cons_of_neg hacc]
      exact ih hits _ hle

def IndexQuery.wants (D : Deps) (q : IndexQuery) (doc : SegmentDoc) : Bool :=
  q.cursor.all (fun cursor => cursor.admits doc) &&
    timeMatches q.sinceMs q.untilMs doc.ts &&
    tagMatches q.tagPrefix doc.tags &&
    (q.wantedTerms D).all fun t => doc.terms.contains t

structure PageOf (q : IndexQuery) (docs : List SegmentDoc) (page : IndexPage) : Prop where
  hits : page.hits = (docs.map SegmentDoc.hit).take q.effectiveLimit
  next : page.next =
    if q.effectiveLimit < docs.length then page.hits.getLast?.map IndexHit.cursor else none

/-- The page answers the query from the documents: it holds the first of those that the query
wants, newest first. -/
def Answers (D : Deps) (q : IndexQuery) (docs : List SegmentDoc) (page : IndexPage) : Prop :=
  ∃ found, found.Perm (docs.filter (q.wants D)) ∧ found.Pairwise Newer ∧ PageOf q found page

theorem IndexQuery.accepts_eq (q : IndexQuery) (tombstones : List String) (doc : SegmentDoc) :
    q.accepts D tombstones doc = (!tombstones.contains doc.id && q.wants D doc) := by
  simp only [IndexQuery.accepts,IndexQuery.wants]
  cases q.cursor.all (fun cursor => cursor.admits doc) <;>
    cases tombstones.contains doc.id <;> simp

variable {dir : Option Dir} {q : IndexQuery}

theorem IndexQuery.skips_wants {seg : SegmentMeta} (hseg : SegmentFile dir seg docs)
    (hskip : q.skips seg = true) : ∀ d ∈ docs, q.wants D d = false := by
  intro d hd
  obtain ⟨hmin,hmax⟩ := hseg.bounds d hd
  simp only [IndexQuery.skips,Bool.or_eq_true,Option.any_eq_true] at hskip
  simp only [IndexQuery.wants,timeMatches]
  rcases hskip with (⟨since,hs,hlt⟩ | ⟨until',hu,hlt⟩) | ⟨cursor,hc,hlt⟩
  · have hno : decide (since ≤ d.ts) = false := by
      simp only [decide_eq_true_eq,decide_eq_false_iff_not,UInt64.lt_iff_toNat_lt,
        UInt64.le_iff_toNat_le] at hlt hmax ⊢
      omega
    simp [hs,hno]
  · have hno : decide (d.ts ≤ until') = false := by
      simp only [decide_eq_true_eq,decide_eq_false_iff_not,UInt64.lt_iff_toNat_lt,
        UInt64.le_iff_toNat_le] at hlt hmin ⊢
      omega
    simp [hu,hno]
  · have hlt' : cursor.beforeTs.toNat < d.ts.toNat := by
      simp only [decide_eq_true_eq,UInt64.lt_iff_toNat_lt,UInt64.le_iff_toNat_le] at hlt hmin
      omega
    have hno : cursor.admits d = false := by
      have h₁ : ¬ d.ts < cursor.beforeTs := by
        rw [UInt64.lt_iff_toNat_lt]
        omega
      have h₂ : d.ts ≠ cursor.beforeTs := fun h => by rw [h] at hlt'; omega
      simp [PageCursor.admits,h₁,h₂]
    simp [hc,hno]

theorem openStreams (hD : D.ReadsIndex) (q : IndexQuery) {segs : List SegmentMeta}
    (h : Forall₂ (SegmentFile dir) segs dss) :
    ∃ kept : List (List SegmentDoc), (segs.filter fun seg => !q.skips seg).mapM
        (fun seg => SegmentStream.openFile D dir seg.file) = .ok (kept.map streamOf) ∧
      (∀ docs ∈ kept, docs.Pairwise Newer) ∧
      kept.flatten.filter (q.wants D) = dss.flatten.filter (q.wants D) := by
  induction h with
  | nil => exact ⟨[],rfl,nofun,rfl⟩
  | @cons seg docs segs dss hseg _ ih =>
    obtain ⟨kept,hopen,hsorted,hflat⟩ := ih
    by_cases hskip : q.skips seg = true
    · refine ⟨kept,?_,hsorted,?_⟩
      · rw [filter_cons_of_neg (by simpa using hskip)]
        exact hopen
      · have hnone : docs.filter (q.wants D) = [] :=
          filter_eq_nil_iff.mpr fun d hd => by
            rw [IndexQuery.skips_wants hseg hskip d hd]
            exact Bool.false_ne_true
        rw [flatten_cons,filter_append,hnone,nil_append,hflat]
    · refine ⟨docs :: kept,?_,?_,?_⟩
      · rw [filter_cons_of_pos (by simpa using hskip),mapM_cons,openFile_segment hD hseg.file]
        simp only [bind,Except.bind,hopen]
        rfl
      · intro ds hds
        rcases mem_cons.mp hds with rfl | hds
        · exact hseg.sorted
        · exact hsorted ds hds
      · rw [flatten_cons,filter_append,hflat,flatten_cons,filter_append]

theorem newer_trans (a b c : SegmentDoc) (hab : Newer a b) (hbc : Newer b c) : Newer a c :=
  Std.TransCmp.isLE_trans hab hbc

/-- The ids of a store: no two records share one, and none comes back after it was forgotten. -/
structure Distinct (D : Deps) (scope : ProjectScope) (ks : List LineKind) : Prop where
  ids : ((docsOf D scope ks).map SegmentDoc.id).Nodup
  forgotten : StaysForgotten D scope ks

theorem length_flatten_le (dss : List (List SegmentDoc)) :
    dss.flatten.length ≤ ((dss.map streamOf).map fun s => s.lines.length + 1).sum := by
  induction dss with
  | nil => exact le_refl _
  | cons docs dss ih =>
    simp only [flatten_cons,length_append,map_cons,sum_cons,streamOf,
      length_map,length_tail] at ih ⊢
    omega

theorem queryIndex_answers (hD : D.ReadsIndex) {m : Manifest} {ks : List LineKind}
    (hload : (loadManifest D dir).getD Manifest.empty = m) (hcov : Covers D scope dir m ks)
    (q : IndexQuery) :
    ∃ page, queryIndex D dir q = .ok page ∧ Answers D q (liveDocs D scope ks) page := by
  obtain ⟨dss,hdss,hperm⟩ := hcov.segments
  obtain ⟨kept,hopen,hsorted,hflat⟩ := openStreams hD q hdss
  have hheap : (((range (kept.map streamOf).length).zip (kept.map streamOf)).filterMap
      fun s => headKey s.1 s.2).Perm (headsFrom 0 kept) := by
    rw [length_map,range_eq_range',heads_eq]
  have hfuel : kept.flatten.length <
      ((kept.map streamOf).map fun s => s.lines.length + 1).sum + 1 :=
    lt_succ_of_le (length_flatten_le kept)
  obtain ⟨out,hmerge,hloop⟩ := mergeLoop_collects hD q m.tombstones hfuel hheap []
    ⟨0,0,(kept.map streamOf).length⟩
  have hpage := @collectPage_eq D q m.tombstones [] ⟨0,0,(kept.map streamOf).length⟩ out (zero_le _)
  have hfound : (out.filter (q.accepts D m.tombstones)).Perm
      ((liveDocs D scope ks).filter (q.wants D)) := by
    have haccepts : q.accepts D m.tombstones =
        fun d => !m.tombstones.contains d.id && q.wants D d :=
      funext (q.accepts_eq m.tombstones)
    rw [haccepts,← filter_filter]
    have hout : (out.filter (q.wants D)).Perm (dss.flatten.filter (q.wants D)) := by
      rw [← hflat]
      exact hmerge.perm.filter _
    refine (hout.filter _).trans ?_
    rw [filter_comm]
    exact hperm.filter _
  simp only [nil_append] at hpage
  refine ⟨collectPage D q m.tombstones [] ⟨0,0,(kept.map streamOf).length⟩ out,?_,
    out.filter (q.accepts D m.tombstones),hfound,
    (hmerge.sorted newer_trans hsorted).sublist filter_sublist,hpage.1,?_⟩
  · simp only [queryIndex,hload,hopen,bind,Except.bind]
    exact hloop
  · rw [hpage.2,length_map,hpage.1]

section

variable {ls : List (List Char)} {ks : List LineKind} {t : List Char} {store : Option (List UInt8)}

theorem searchIndex_answers (hD : D.ReadsIndex) (hls : Forall₂ (LineIs D) ls ks)
    (hgone : StaysForgotten D scope ks) (ht : '\n' ∉ t) (hstore : store.getD [] = fileBytes ls t)
    {dir : Option Dir} (hdir : Staged D scope ls ks dir) (q : IndexQuery) :
    Staged D scope ls ks (searchIndex D scope store dir q).2 ∧
      ∃ page, (searchIndex D scope store dir q).1 = .ok page ∧
        Answers D q (liveDocs D scope ks) page := by
  obtain ⟨m,hstaged⟩ := ensureIndex_stagedAll hD hls hgone ht hstore hdir
  have hall := hstaged.stopped (ensureIndex D scope store dir).ops.length
  rw [take_length] at hall
  simp only [searchIndex,hstaged.result]
  exact ⟨hall,queryIndex_answers hD hstaged.loads hstaged.covers q⟩

variable {x : SegmentDoc}

variable {q : IndexQuery}

end

end Synaps.Memory
