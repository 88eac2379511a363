import Synaps.Lib.Outcome
import Synaps.Retention.Sweep

/-!
The session files after a sweep: those of a chain head stay, and a journal or turn draft outlives
its snapshot exactly when the disk budget reaches the snapshot, which is told from the bytes of
what the passes leave and the order of the candidates.
-/

set_option autoImplicit false

namespace Synaps.Retention

open FileName List

variable (D : Deps)

def compacted (nowMs : Nat) (cutoff : Option Nat) (name : String) (bytes : List UInt8) : List UInt8 :=
  if isMemoryFile name then
    match compactMemoryFile D bytes nowMs cutoff with
    | .ok (_,body) => body
    | .error _ => bytes
  else bytes

theorem memoryPass_rest (nowMs : Nat) (cutoff : Option Nat) (names : List String) (r : Roots)
    (o : SweepOutcome) :
    ∃ memory index, (memoryPass D nowMs cutoff names r o).1 = { r with memory, index } := by
  induction names generalizing r o with
  | nil => exact ⟨r.memory,r.index,rfl⟩
  | cons name names ih =>
    rw [memoryPass]
    split
    · split
      · exact ⟨r.memory,r.index,rfl⟩
      · split
        · obtain ⟨memory,index,heq⟩ := ih _ _
          exact ⟨memory,index,heq⟩
        · exact ih _ _
    · exact ih _ _

theorem compactMemoryFile_zero {bytes body : List UInt8} {nowMs dropped : Nat} {cutoff : Option Nat}
    (h : compactMemoryFile D bytes nowMs cutoff = .ok (dropped,body)) (hzero : ¬ dropped > 0) :
    body = bytes := by
  unfold compactMemoryFile at h
  split at h
  · cases h
  · cases h
    rw [if_neg hzero]

theorem memoryPass_memory {nowMs : Nat} {cutoff : Option Nat} {names : List String} {r : Roots}
    {o o' : SweepOutcome} (hnodup : names.Nodup) (hnames : ∀ k ∈ names, k ∈ r.memory.names)
    (hok : (memoryPass D nowMs cutoff names r o).2 = .ok o') (k : String) :
    (memoryPass D nowMs cutoff names r o).1.memory.lookup k =
      (r.memory.lookup k).map fun v => if k ∈ names then compacted D nowMs cutoff k v else v := by
  induction names generalizing r o with
  | nil => simp [memoryPass]
  | cons name names ih =>
    obtain ⟨hnotin,hnodup⟩ := nodup_cons.mp hnodup
    have hrest : ∀ k ∈ names, k ∈ r.memory.names := fun k hk => hnames k (mem_cons_of_mem _ hk)
    obtain ⟨bytes,hbytes⟩ : ∃ bytes, r.memory.lookup name = some bytes :=
      Option.isSome_iff_exists.mp (Folder.has_iff.mpr (hnames name mem_cons_self))
    -- where the file itself does not change
    have hsame (hid : compacted D nowMs cutoff name bytes = bytes) :
        ((r.memory.lookup k).map fun v => if k ∈ names then compacted D nowMs cutoff k v else v) =
          (r.memory.lookup k).map fun v =>
            if k ∈ name :: names then compacted D nowMs cutoff k v else v := by
      by_cases hk : k = name
      · rw [hk,hbytes,Option.map_some,Option.map_some,if_neg hnotin,if_pos mem_cons_self,hid]
      · simp only [mem_cons,hk,false_or]
    rw [memoryPass] at hok ⊢
    split at hok
    · rename_i hfile
      rw [hbytes,Option.getD_some] at hok
      rw [if_pos hfile,hbytes,Option.getD_some]
      split at hok
      · cases hok
      rename_i dropped body hcompact
      have hbody : compacted D nowMs cutoff name bytes = body := by
        simp only [compacted,if_pos hfile,hcompact]
      split at hok
      · rename_i hdropped
        rw [if_pos hdropped,ih hnodup ?_ hok]
        · by_cases hk : k = name
          · rw [hk,Folder.lookup_set,if_pos rfl,hbytes,Option.map_some,Option.map_some,
              if_neg hnotin,if_pos mem_cons_self,hbody]
          · rw [Folder.lookup_set,if_neg hk]
            simp only [mem_cons,hk,false_or]
        · intro k' hk'
          have hne : k' ≠ name := fun heq => hnotin (heq ▸ hk')
          rw [← Folder.has_iff,Folder.has,Folder.lookup_set,if_neg hne]
          exact Folder.has_iff.mpr (hrest k' hk')
      · rename_i hdropped
        rw [if_neg hdropped,ih hnodup hrest hok]
        exact hsame (hbody.trans (compactMemoryFile_zero D hcompact hdropped))
    · rename_i hfile
      rw [if_neg hfile,ih hnodup hrest hok]
      exact hsame (by rw [compacted,if_neg hfile])

def fileLen (r : Roots) : WholeFile → Nat
  | .session name => (r.sessions.lookup name).elim 0 Artifact.len
  | .trace path => (r.cache.lookup path).elim 0 Artifact.len
  | .log name => ((r.config.filter fun name _ => isLog name).lookup name).elim 0 Artifact.len

variable (st : Roots × SweepOutcome)

theorem totalNow_deleteWhole (f : WholeFile) :
    totalNow (deleteWhole st f).1 + fileLen st.1 f = totalNow st.1 := by
  cases f with
  | session name =>
    have h := Folder.total_erase Artifact.len st.1.sessions name
    simp only [totalNow,deleteWhole,deleteFile,fileLen]
    omega
  | trace path =>
    have h := Folder.total_erase Artifact.len st.1.cache path
    simp only [totalNow,deleteWhole,deleteFile,fileLen]
    omega
  | log name =>
    have h := Folder.total_erase Artifact.len (st.1.config.filter fun name _ => isLog name) name
    simp only [totalNow,deleteWhole,deleteFile,fileLen,Folder.filter_erase]
    omega

theorem fileLen_deleteWhole {f g : WholeFile} (h : g ≠ f) :
    fileLen (deleteWhole st f).1 g = fileLen st.1 g := by
  cases f <;> cases g <;>
    simp_all [fileLen,deleteWhole,deleteFile,Folder.lookup_erase,Folder.filter_erase]

theorem lookup_deleteWhole (f : WholeFile) (name : String) :
    (deleteWhole st f).1.sessions.lookup name =
      if f = .session name then none else st.1.sessions.lookup name := by
  cases f with
  | session name' =>
    simp only [deleteWhole,deleteFile,Folder.lookup_erase,WholeFile.session.injEq,eq_comm]
  | trace path | log name' => simp [deleteWhole]

def bytesBefore (r : Roots) (before : List Candidate) : Nat :=
  ((before.filter fun c => !c.isProtected).map fun c => fileLen r c.file).sum

def ReachedIn (budget : Nat) (r : Roots) (cs : List Candidate) (name : String) : Prop :=
  ∃ before c after, cs = before ++ c :: after ∧ c.file = .session name ∧ c.isProtected = false ∧
    budget + bytesBefore r before < totalNow r

theorem bytesBefore_cons (r : Roots) (c : Candidate) (cs : List Candidate) :
    bytesBefore r (c :: cs) = (if c.isProtected then 0 else fileLen r c.file) + bytesBefore r cs := by
  unfold bytesBefore
  cases hc : c.isProtected with
  | true => rw [filter_cons_of_neg (by simp [hc])]; simp
  | false => rw [filter_cons_of_pos (by simp [hc])]; simp

theorem reachedIn_cons {budget : Nat} {r : Roots} {c : Candidate} {cs : List Candidate}
    {name : String} :
    ReachedIn budget r (c :: cs) name ↔
      (c.file = .session name ∧ c.isProtected = false ∧ budget < totalNow r) ∨
        ∃ before c' after, cs = before ++ c' :: after ∧ c'.file = .session name ∧
          c'.isProtected = false ∧ budget + bytesBefore r (c :: before) < totalNow r := by
  constructor
  · rintro ⟨before,c',after,hcs,hfile,hprot,hlt⟩
    cases before with
    | nil =>
      cases hcs
      exact .inl ⟨hfile,hprot,by simpa [bytesBefore] using hlt⟩
    | cons b before =>
      cases hcs
      exact .inr ⟨before,c',after,rfl,hfile,hprot,hlt⟩
  · rintro (⟨hfile,hprot,hlt⟩ | ⟨before,c',after,rfl,hfile,hprot,hlt⟩)
    · exact ⟨[],c,cs,rfl,hfile,hprot,by simpa [bytesBefore] using hlt⟩
    · exact ⟨c :: before,c',after,rfl,hfile,hprot,hlt⟩

theorem evictFiles_sessions (budget : Nat) {cs : List Candidate} (hnodup : (cs.map Candidate.file).Nodup)
    (st : Roots × SweepOutcome) (name : String) :
    (ReachedIn budget st.1 cs name → (evictFiles budget cs st).1.sessions.lookup name = none) ∧
      (¬ ReachedIn budget st.1 cs name →
        (evictFiles budget cs st).1.sessions.lookup name = st.1.sessions.lookup name) := by
  induction cs generalizing st with
  | nil =>
    refine ⟨?_,fun _ => rfl⟩
    rintro ⟨before,c,after,hcs,-⟩
    simp at hcs
  | cons c cs ih =>
    rw [map_cons,nodup_cons] at hnodup
    obtain ⟨hnotin,hnodup⟩ := hnodup
    rw [evictFiles]
    by_cases hfits : totalNow st.1 ≤ budget
    · rw [if_pos hfits]
      refine ⟨?_,fun _ => rfl⟩
      rintro ⟨before,c',after,-,-,-,hlt⟩
      omega
    rw [if_neg hfits]
    cases hprot : c.isProtected with
    | true =>
      rw [if_pos rfl]
      have hiff : ReachedIn budget st.1 (c :: cs) name ↔ ReachedIn budget st.1 cs name := by
        rw [reachedIn_cons]
        simp [ReachedIn,bytesBefore_cons,hprot]
      rw [hiff]
      exact ih hnodup (st.1,st.2.sawHead)
    | false =>
      rw [if_neg Bool.false_ne_true]
      have htotal := totalNow_deleteWhole st c.file
      have hbefore : ∀ before c' after, cs = before ++ c' :: after →
          bytesBefore (deleteWhole st c.file).1 before = bytesBefore st.1 before := by
        rintro before c' after rfl
        unfold bytesBefore
        congr 1
        refine map_congr_left fun b hb => fileLen_deleteWhole st fun heq => hnotin ?_
        rw [map_append,← heq]
        exact mem_append_left _ (mem_map_of_mem (mem_of_mem_filter hb))
      obtain ⟨hgone,hstays⟩ := ih hnodup (deleteWhole st c.file)
      rw [lookup_deleteWhole] at hstays
      by_cases hfile : c.file = .session name
      · rw [if_pos hfile] at hstays
        refine ⟨fun _ => ?_,fun hno => hno.elim ?_⟩
        · by_cases hreached : ReachedIn budget (deleteWhole st c.file).1 cs name
          · exact hgone hreached
          · exact hstays hreached
        · exact reachedIn_cons.mpr (.inl ⟨hfile,hprot,Nat.lt_of_not_le hfits⟩)
      · rw [if_neg hfile] at hstays
        have hiff : ReachedIn budget st.1 (c :: cs) name ↔
            ReachedIn budget (deleteWhole st c.file).1 cs name := by
          rw [reachedIn_cons]
          simp only [hfile,false_and,false_or,ReachedIn,bytesBefore_cons,hprot]
          refine exists_congr fun before => exists_congr fun c' => exists_congr fun after =>
            and_congr_right fun hcs => and_congr_right fun _ => and_congr_right fun _ => ?_
          rw [hbefore before c' after hcs,if_neg Bool.false_ne_true]
          omega
        rw [hiff]
        exact ⟨hgone,hstays⟩

theorem files_nodup {κ : Type} [LinearOrder κ] {d : Folder κ Artifact} {l : List (κ × Artifact)}
    (hl : l.Sublist d.entries) {f : κ → WholeFile} (hf : Function.Injective f) :
    (l.map fun e => f e.1).Nodup := by
  have hnames : (l.map Prod.fst).Nodup := d.names_nodup.sublist (hl.map Prod.fst)
  have hfiles := hnames.map hf
  rwa [map_map] at hfiles

theorem candidates_files_nodup (heads : List String) (r : Roots) :
    ((candidates D heads r).map Candidate.file).Nodup := by
  refine ((Comparator.sortBy_perm _).map Candidate.file).nodup_iff.mpr ?_
  simp only [map_append,map_map]
  refine nodup_append.mpr ⟨files_nodup filter_sublist fun _ _ => WholeFile.session.inj,
    nodup_append.mpr ⟨files_nodup (.refl r.cache.entries) fun _ _ => WholeFile.trace.inj,
      files_nodup filter_sublist fun _ _ => WholeFile.log.inj,?_⟩,?_⟩
  · simp only [mem_map]
    rintro _ ⟨_,-,rfl⟩ _ ⟨_,-,rfl⟩
    exact WholeFile.noConfusion
  · simp only [mem_append,mem_map]
    rintro _ ⟨_,-,rfl⟩ _ (⟨_,-,rfl⟩ | ⟨_,-,rfl⟩)
    · exact WholeFile.noConfusion
    · exact WholeFile.noConfusion

theorem mem_candidates {heads : List String} {r : Roots} {c : Candidate} {name : String}
    (hc : c ∈ candidates D heads r) (hfile : c.file = .session name) :
    r.sessions.has name = true ∧ isPairedJournal r.sessions name = false ∧
      c.isProtected = heads.contains (fileStem name) := by
  replace hc := (Comparator.sortBy_perm _).mem_iff.mp hc
  simp only [mem_append,mem_map,mem_filter] at hc
  obtain ⟨e,⟨he,hpaired⟩,rfl⟩ | ⟨e,-,rfl⟩ | ⟨e,-,rfl⟩ := hc
  · obtain rfl := WholeFile.session.inj hfile
    refine ⟨Folder.has_iff.mpr (mem_map_of_mem he),?_,rfl⟩
    simpa using hpaired
  · cases hfile
  · cases hfile

variable (D : Deps)

theorem evictIndexes_rest (budget : Nat) (names : List String) (st : Roots × SweepOutcome) :
    ∃ index, (evictIndexes budget names st).1 = { st.1 with index } := by
  induction names generalizing st with
  | nil => exact ⟨st.1.index,rfl⟩
  | cons ns names ih =>
    rw [evictIndexes]
    split
    · exact ⟨st.1.index,rfl⟩
    · obtain ⟨index,heq⟩ := ih _
      exact ⟨index,heq⟩

theorem evictFiles_fits {budget : Nat} {st : Roots × SweepOutcome} (h : totalNow st.1 ≤ budget)
    (cs : List Candidate) : evictFiles budget cs st = st := by
  cases cs with
  | nil => rfl
  | cons c cs => rw [evictFiles,if_pos h]

theorem totalNow_noIndex_le (r : Roots) : totalNow { r with index := ∅ } ≤ totalNow r := by
  simp only [totalNow]
  have hnone : ((∅ : AList fun _ : String => Memory.Dir).entries.map fun e => dirBytes e.2).sum = 0 :=
    rfl
  omega

theorem budgetPass_sessions (heads : List String) (budget : Nat) (r : Roots) (o : SweepOutcome) :
    ∃ o', (budgetPass D heads budget r o).1.sessions =
      (evictFiles budget (candidates D heads { r with index := ∅ })
        ({ r with index := ∅ },o')).1.sessions := by
  simp only [budgetPass]
  obtain ⟨st,hst,⟨index,hrest⟩,hover⟩ : ∃ st, (if budget < totalNow r then
      evictIndexes budget (r.index.entries.map Sigma.fst) (r,o) else (r,o)) = st ∧
      (∃ index, st.1 = { r with index }) ∧ (budget < totalNow st.1 → st.1.index = ∅) := by
    refine ⟨_,rfl,?_⟩
    split
    · refine ⟨evictIndexes_rest _ _ _,fun hover => ?_⟩
      have hnone : ∀ ns, (evictIndexes budget (r.index.entries.map Sigma.fst) (r,o)).1.index.lookup ns =
          none := fun ns =>
        evictIndexes_over hover fun hsome => AList.mem_keys.mp (AList.lookup_isSome.mp hsome)
      refine AList.ext (eq_nil_iff_forall_not_mem.mpr fun e he => ?_)
      exact AList.lookup_eq_none.mp (hnone e.1) (mem_map_of_mem he)
    · rename_i hfits
      exact ⟨⟨r.index,rfl⟩,fun hover => absurd hover hfits⟩
  rw [hst]
  refine ⟨st.2,?_⟩
  by_cases hfits : budget < totalNow st.1
  · simp only [if_pos hfits]
    have hnoIndex : ({ r with index := ∅ },st.2) = st := by
      rw [hrest] at hover
      obtain rfl : index = ∅ := hover (hrest ▸ hfits)
      exact Prod.ext hrest.symm rfl
    rw [show candidates D heads { r with index := ∅ } = candidates D heads st.1 by rw [← hnoIndex],
      hnoIndex]
    generalize evictFiles budget (candidates D heads st.1) st = st'
    split
    · rfl
    rename_i r' dropped hevicted
    have hr' : r'.sessions = st'.1.sessions := by
      split at hevicted
      · obtain ⟨victims,rfl⟩ := evictOldest_memory D hevicted
        rfl
      · cases hevicted
        rfl
    split
    · exact hr'
    · exact hr'
  · simp only [if_neg hfits]
    have hless : totalNow { r with index := ∅ } ≤ budget := by
      have hle := totalNow_noIndex_le st.1
      rw [hrest] at hle hfits
      exact hle.trans (Nat.le_of_not_lt hfits)
    rw [@evictFiles_fits budget ({ r with index := ∅ },st.2) hless,hrest]

def settled (heads : List String) (cutoff : Option Nat) (nowMs : Nat) (r : Roots) : Roots :=
  { keptFiles D heads cutoff r with
    memory := r.memory.mapValues (compacted D nowMs cutoff)
    index := ∅ }

/-- The disk budget reaches the session file: it is an unprotected candidate, and the files that
are older do not free enough. -/
def Reached (heads : List String) (budget : Nat) (r : Roots) (name : String) : Prop :=
  ReachedIn budget r (candidates D heads r) name

theorem memoryPass_settled {heads : List String} {cutoff : Option Nat} {nowMs : Nat} {r : Roots}
    {o o' : SweepOutcome}
    (hok : (memoryPass D nowMs cutoff r.memory.names (keptFiles D heads cutoff r) o).2 = .ok o') :
    { (memoryPass D nowMs cutoff r.memory.names (keptFiles D heads cutoff r) o).1 with index := ∅ } =
      settled D heads cutoff nowMs r := by
  have hmemory := @memoryPass_memory D nowMs cutoff _ (keptFiles D heads cutoff r) o o'
    r.memory.names_nodup (fun k hk => hk) hok
  obtain ⟨memory,index,hrest⟩ :=
    memoryPass_rest D nowMs cutoff r.memory.names (keptFiles D heads cutoff r) o
  rw [hrest] at hmemory ⊢
  have heq : memory = r.memory.mapValues (compacted D nowMs cutoff) := by
    refine Folder.ext_lookup fun k => ?_
    rw [Folder.lookup_mapValues]
    refine (hmemory k).trans ?_
    refine Option.map_congr fun bytes hbytes => if_pos ?_
    refine Folder.has_iff.mp ?_
    rw [Folder.has,show r.memory.lookup k = some bytes from hbytes]
    rfl
  rw [settled,heq]

section

variable {D} {heads : List String} {cutoff : Option Nat} {d : Folder String Artifact}

section

variable {name : String} (hhead : heads.contains (fileStem name) = true)

include hhead

theorem outdated_head (cutoff : Nat) (d : Folder String Artifact) :
    outdated D heads cutoff d name = false := by
  simp only [outdated,hhead,Bool.not_true,Bool.and_false,Bool.false_and]

theorem lookup_keptSessions_head : (keptSessions D heads cutoff d).lookup name = d.lookup name := by
  have hfilter {d : Folder String Artifact} {p : String → Bool} (hp : p name = false) :
      (d.filter fun k _ => !p k).lookup name = d.lookup name := by
    rw [Folder.lookup_filter]
    cases d.lookup name with
    | none => rfl
    | some a => simp [hp]
  have horphan : orphaned heads d name = false := by
    simp only [orphaned,hhead,Bool.not_true,Bool.and_false]
  have haged (cutoff : Nat) (d : Folder String Artifact) : aged D heads cutoff d name = false := by
    rw [aged,outdated_head hhead,Bool.false_or]
    cases hpaired : isPairedName name with
    | false => rfl
    | true =>
      obtain ⟨ext,-,hext⟩ := isPairedName_iff.mp hpaired
      rw [outdated_head (by rw [fileStem_snapshotOf hext]; exact hhead)]
      rfl
  cases cutoff with
  | none => exact hfilter horphan
  | some cutoff => exact (hfilter (haged cutoff _)).trans (hfilter horphan)

end

theorem has_of_kept {name : String} (h : (keptSessions D heads cutoff d).has name = true) :
    d.has name = true := by
  cases cutoff with
  | none =>
    rw [keptSessions,Folder.has_filter] at h
    exact (Bool.and_eq_true_iff.mp h).1
  | some cutoff =>
    rw [keptSessions,Folder.has_filter,Folder.has_filter] at h
    exact (Bool.and_eq_true_iff.mp (Bool.and_eq_true_iff.mp h).1).1

theorem snapshot_kept {name : String} (hpaired : isPairedName name = true)
    (hkept : (keptSessions D heads cutoff d).has name = true)
    (hsnap : d.has (snapshotOf name) = true) :
    (keptSessions D heads cutoff d).has (snapshotOf name) = true := by
  obtain ⟨ext,-,hext⟩ := isPairedName_iff.mp hpaired
  have hjson := extension_snapshotOf hext
  have horphan : orphaned heads d (snapshotOf name) = false := by simp [orphaned,hjson]
  cases cutoff with
  | none =>
    rw [keptSessions,Folder.has_filter,horphan,hsnap]
    rfl
  | some cutoff =>
    rw [keptSessions,Folder.has_filter] at hkept ⊢
    have haged := (Bool.and_eq_true_iff.mp hkept).2
    simp only [aged,hpaired,Bool.true_and,Bool.not_eq_true',Bool.or_eq_false_iff] at haged
    rw [Folder.has_filter,horphan,hsnap,aged,haged.2,snapshotOf_not_paired hpaired]
    rfl

end

section

variable {heads : List String}

theorem sweepAt_sessions {r : Roots} (hheads : chainHeads D r = .ok heads)
    (policy : RetentionPolicy) (nowMs : Nat) :
    ((sweepAt D r policy nowMs).1.sessions = keptSessions D heads (ageCutoff policy nowMs) r.sessions ∧
        ∀ o, (sweepAt D r policy nowMs).2 = .ok o → policy.maxDiskBytes = none) ∨
      ∃ budget o, policy.maxDiskBytes = some budget ∧ (sweepAt D r policy nowMs).1.sessions =
          (evictFiles budget (candidates D heads (settled D heads (ageCutoff policy nowMs) nowMs r))
            (settled D heads (ageCutoff policy nowMs) nowMs r,o)).1.sessions := by
  simp only [sweepAt_ok D hheads]
  have hfst := filePasses_fst D heads (ageCutoff policy nowMs) r
  generalize filePasses D heads (ageCutoff policy nowMs) r = st at hfst ⊢
  obtain ⟨r₁,o₁⟩ := st
  obtain rfl : r₁ = keptFiles D heads (ageCutoff policy nowMs) r := hfst
  obtain ⟨memory,index,hrest⟩ := memoryPass_rest D nowMs (ageCutoff policy nowMs) r.memory.names
    (keptFiles D heads (ageCutoff policy nowMs) r) o₁
  have hsettled := @memoryPass_settled D heads (ageCutoff policy nowMs) nowMs r o₁
  dsimp only
  rw [show (keptFiles D heads (ageCutoff policy nowMs) r).memory.names = r.memory.names from rfl]
  generalize memoryPass D nowMs (ageCutoff policy nowMs) r.memory.names
    (keptFiles D heads (ageCutoff policy nowMs) r) o₁ = st' at hrest hsettled ⊢
  obtain ⟨r₂,result⟩ := st'
  have hsessions : r₂.sessions = keptSessions D heads (ageCutoff policy nowMs) r.sessions := by
    rw [show r₂ = _ from hrest]
    rfl
  cases result with
  | error e => exact .inl ⟨hsessions,nofun⟩
  | ok o₂ =>
    cases hmax : policy.maxDiskBytes with
    | none => exact .inl ⟨hsessions,fun _ _ => rfl⟩
    | some budget =>
      obtain ⟨o₃,hbudget⟩ := budgetPass_sessions D heads budget r₂ o₂
      have hr₂ : { r₂ with index := ∅ } = settled D heads (ageCutoff policy nowMs) nowMs r :=
        hsettled rfl
      rw [hr₂] at hbudget
      refine .inr ⟨budget,o₃,rfl,?_⟩
      rw [← hbudget]

theorem evicted_iff (budget : Nat) (r : Roots) (o : SweepOutcome) (name : String) :
    (evictFiles budget (candidates D heads r) (r,o)).1.sessions.has name = true ↔
      r.sessions.has name = true ∧ ¬ Reached D heads budget r name := by
  obtain ⟨hgone,hstays⟩ :=
    evictFiles_sessions budget (candidates_files_nodup D heads r) (r,o) name
  by_cases hreached : Reached D heads budget r name
  · simp [Folder.has,hgone hreached,hreached]
  · simp [Folder.has,hstays hreached,hreached]

theorem reached_spec {budget : Nat} {r : Roots} {name : String}
    (h : Reached D heads budget r name) :
    r.sessions.has name = true ∧ isPairedJournal r.sessions name = false ∧
      heads.contains (fileStem name) = false := by
  obtain ⟨before,c,after,hcs,hfile,hprot,-⟩ := h
  have hmem : c ∈ candidates D heads r := by simp [hcs]
  obtain ⟨hhas,hpaired,hhead⟩ := mem_candidates D hmem hfile
  exact ⟨hhas,hpaired,hhead ▸ hprot⟩

end

theorem mapM_ok_mem {ε α β : Type} {f : α → Except ε β} {l : List α} {bs : List β}
    (h : l.mapM f = .ok bs) : ∀ a ∈ l, ∃ b ∈ bs, f a = .ok b := by
  induction l generalizing bs with
  | nil => exact fun a ha => absurd ha not_mem_nil
  | cons a l ih =>
    rw [mapM_cons] at h
    cases ha : f a with
    | error e =>
      rw [ha] at h
      cases h
    | ok b =>
      cases hl : l.mapM f with rw [ha,hl] at h
      | error e =>
        cases h
      | ok bs' =>
        cases h
        rintro a' (_ | ⟨_,ha'⟩)
        · exact ⟨b,mem_cons_self,ha⟩
        · obtain ⟨b',hb',heq⟩ := ih hl a' ha'
          exact ⟨b',mem_cons_of_mem _ hb',heq⟩

section

variable {r : Roots} {heads : List String}

theorem chainHeads_spec (hheads : chainHeads D r = .ok heads) (c : String × Option (List UInt8))
    (hc : c ∈ r.chains.entries) : ∃ head ∈ heads, chainHead D c.2 = some head := by
  obtain ⟨head,hmem,hread⟩ := mapM_ok_mem hheads c hc
  cases hhead : chainHead D c.2 with rw [hhead] at hread
  | none =>
    cases hread
  | some head' =>
    exact ⟨head,hmem,congrArg some (Except.ok.inj hread)⟩

theorem sweepAt_head {policy : RetentionPolicy} {nowMs : Nat}
    (hheads : chainHeads D r = .ok heads) {name : String}
    (hhead : heads.contains (fileStem name) = true) :
    (sweepAt D r policy nowMs).1.sessions.lookup name = r.sessions.lookup name := by
  obtain ⟨hkept,-⟩ | ⟨budget,o,-,hevicted⟩ := sweepAt_sessions D hheads policy nowMs
  · rw [hkept]
    exact lookup_keptSessions_head hhead
  · have hreached : ¬ ReachedIn budget (settled D heads (ageCutoff policy nowMs) nowMs r)
        (candidates D heads (settled D heads (ageCutoff policy nowMs) nowMs r)) name := fun h => by
      have hno := (reached_spec D h).2.2
      rw [hhead] at hno
      cases hno
    have hstays := (evictFiles_sessions budget (candidates_files_nodup D heads
      (settled D heads (ageCutoff policy nowMs) nowMs r)) (settled D heads (ageCutoff policy nowMs)
      nowMs r,o) name).2 hreached
    rw [hevicted,hstays]
    exact lookup_keptSessions_head hhead

def NoneOrphaned (r r' : Roots) : Prop :=
  ∀ name, isPairedName name = true → r'.sessions.has name = true →
    r.sessions.has (snapshotOf name) = true → r'.sessions.has (snapshotOf name) = true

/-- Every snapshot that the disk budget reaches is alone. -/
def ReachedAlone (heads : List String) (budget : Nat) (r : Roots) : Prop :=
  ∀ name, extension name = some "json" → Reached D heads budget r name →
    ∀ ext ∈ pairedSessionExtensions, r.sessions.has (withExtension name ext) = false

theorem evicted_noneOrphaned_iff {cutoff : Option Nat} {budget nowMs : Nat} {r' : Roots}
    {o : SweepOutcome}
    (hr' : r'.sessions = (evictFiles budget (candidates D heads (settled D heads cutoff nowMs r))
      (settled D heads cutoff nowMs r,o)).1.sessions) :
    NoneOrphaned r r' ↔ ReachedAlone D heads budget (settled D heads cutoff nowMs r) := by
  have hleft (name : String) : r'.sessions.has name = true ↔
      (keptSessions D heads cutoff r.sessions).has name = true ∧
        ¬ Reached D heads budget (settled D heads cutoff nowMs r) name := by
    rw [hr']
    exact evicted_iff D budget (settled D heads cutoff nowMs r) o name
  constructor
  · intro hnone name hjson hreached ext hext
    obtain ⟨hpaired,hsnap⟩ := withExtension_paired hjson hext
    obtain ⟨hhas,-,-⟩ := reached_spec D hreached
    by_contra hthere
    rw [Bool.not_eq_false] at hthere
    -- the paired file is no candidate, so it stays, and its snapshot is gone
    have hstays : ¬ Reached D heads budget (settled D heads cutoff nowMs r) (withExtension name ext) :=
      fun h => by
        have hno := (reached_spec D h).2.1
        rw [isPairedJournal_eq,hpaired,hsnap,hhas] at hno
        cases hno
    have hgone := hnone _ hpaired ((hleft _).mpr ⟨hthere,hstays⟩) (hsnap.symm ▸ has_of_kept hhas)
    rw [hsnap] at hgone
    exact ((hleft name).mp hgone).2 hreached
  · intro halone name hpaired hhas hsnap
    obtain ⟨hkept,-⟩ := (hleft name).mp hhas
    refine (hleft _).mpr ⟨snapshot_kept hpaired hkept hsnap,fun hreached => ?_⟩
    obtain ⟨ext,hext,hname⟩ := isPairedName_iff.mp hpaired
    have hgone := halone _ (extension_snapshotOf hname) hreached ext hext
    rw [withExtension_snapshotOf hname] at hgone
    exact Bool.false_ne_true (hgone.symm.trans hkept)

end

/-- No sweep touches a file of a chain's head, and none deletes anything while a chain cannot be
read. One that succeeds leaves no journal or turn draft of a snapshot it deleted exactly when the
disk budget, if there is one, reaches no snapshot that has a journal or turn draft. -/
theorem session_files_kept_together (r : Roots) (policy : RetentionPolicy) (nowMs : Nat) :
    (∀ c ∈ r.chains.entries, ∀ head, chainHead D c.2 = some head → ∀ name, fileStem name = head →
        (sweepAt D r policy nowMs).1.sessions.lookup name = r.sessions.lookup name) ∧
      ((∃ c ∈ r.chains.entries, chainHead D c.2 = none) → (sweepAt D r policy nowMs).1 = r) ∧
      ∀ heads o, chainHeads D r = .ok heads → (sweepAt D r policy nowMs).2 = .ok o →
        (NoneOrphaned r (sweepAt D r policy nowMs).1 ↔ ∀ budget, policy.maxDiskBytes = some budget →
            ReachedAlone D heads budget (settled D heads (ageCutoff policy nowMs) nowMs r)) := by
  refine ⟨?_,?_,?_⟩
  · rintro c hc head hhead name rfl
    cases hheads : chainHeads D r with
    | error e => rw [sweepAt_error D hheads]
    | ok heads =>
      obtain ⟨head,hmem,hhead'⟩ := chainHeads_spec D hheads c hc
      cases hhead.symm.trans hhead'
      exact sweepAt_head D hheads (contains_iff_mem.mpr hmem)
  · rintro ⟨c,hc,hnone⟩
    cases hheads : chainHeads D r with
    | error e => rw [sweepAt_error D hheads]
    | ok heads =>
      obtain ⟨head,-,hhead⟩ := chainHeads_spec D hheads c hc
      rw [hnone] at hhead
      cases hhead
  · intro heads o hheads hok
    obtain ⟨hkept,hmax⟩ | ⟨budget,o',hmax,hevicted⟩ := sweepAt_sessions D hheads policy nowMs
    · rw [hmax o hok]
      refine iff_of_true (fun name hpaired hhas hsnap => ?_) nofun
      rw [hkept] at hhas ⊢
      exact snapshot_kept hpaired hhas hsnap
    · rw [evicted_noneOrphaned_iff D hevicted]
      simp only [hmax,Option.some.injEq,forall_eq']

def isoDeps : Deps where
  parse := Json.parseSpaced
  sha256 := fun bytes => toString bytes.length
  isAlphanumeric := Char.isAlphanum
  toLowercase := List.map Char.toLower
  rfc3339Millis := fun s => if s = "2026-01-01T00:00:00Z" then some 1767225600000 else none

def savedText : String := "\x7b\"updated_at\":\"2026-01-01T00:00:00Z\"\x7d"

def journaled : Roots where
  sessions := ⟨[("s.journal",⟨[10],some 1767225600000⟩),
    ("s.json",⟨Utf8.encode savedText.toList,some 1767225600000⟩)],by decide +kernel⟩
  chains := Folder.empty
  config := Folder.empty
  cache := Folder.empty
  memory := Folder.empty
  index := ∅

theorem evicted_snapshot_leaves_journal :
    (sweepAt isoDeps journaled ⟨none,some 8⟩ 1767225600001).2.isOk = true ∧
      ¬ NoneOrphaned journaled (sweepAt isoDeps journaled ⟨none,some 8⟩ 1767225600001).1 := by
  refine ⟨by decide +kernel,fun h => ?_⟩
  have hsnapshot := h "s.journal" (by decide +kernel) (by decide +kernel) (by decide +kernel)
  revert hsnapshot
  decide +kernel

def chained : Roots :=
  { journaled with
    sessions := ⟨[("h.journal",⟨[10],some 1767225600000⟩),
      ("h.json",⟨Utf8.encode savedText.toList,some 1767225600000⟩),
      ("s.journal",⟨[10],some 1767225600000⟩),
      ("s.json",⟨Utf8.encode savedText.toList,some 1767225600000⟩),
      ("t.json",⟨[123,125],some 1769904000000⟩)],by decide +kernel⟩
    chains := ⟨[("main.json",some (Utf8.encode "\x7b\"head\":\"h\"\x7d".toList))],
      by decide +kernel⟩ }

theorem chained_swept :
    (sweepAt isoDeps chained ⟨some 30,some 40⟩ 1769904000001).1.sessions.names =
        ["h.journal","h.json","t.json"] ∧
      (chainHeads isoDeps chained).toOption = some ["h"] ∧
      (sweepAt isoDeps chained ⟨some 30,some 40⟩ 1769904000001).2.toOption.isSome := by
  decide +kernel

/-- Both pairs are outdated: that of the chain's head stays as it is, the other goes, and then
the budget is met. -/
theorem session_files_kept_chained :
    let swept := (sweepAt isoDeps chained ⟨some 30,some 40⟩ 1769904000001).1.sessions
    swept.lookup "h.json" = chained.sessions.lookup "h.json" ∧ swept.has "s.journal" = false ∧
      ReachedAlone isoDeps ["h"] 40
        (settled isoDeps ["h"] (some 1767312000001) 1769904000001 chained) := by
  have hage : ageCutoff ⟨some 30,some 40⟩ 1769904000001 = some 1767312000001 := by decide +kernel
  obtain ⟨hhead,-,hiff⟩ :=
    session_files_kept_together isoDeps chained ⟨some 30,some 40⟩ 1769904000001
  replace hhead := hhead _ mem_cons_self "h" (by decide +kernel) "h.json" (by decide +kernel)
  obtain ⟨hnames,hheads,hok⟩ := chained_swept
  rw [hage] at hiff
  generalize sweepAt isoDeps chained ⟨some 30,some 40⟩ 1769904000001 = swept at *
  obtain ⟨o,ho⟩ := Option.isSome_iff_exists.mp hok
  have hmem (name : String) : swept.1.sessions.has name = true ↔
      name ∈ ["h.journal","h.json","t.json"] := by rw [← hnames,Folder.has_iff]
  have hnone : NoneOrphaned chained swept.1 := by
    intro name hpaired hhas _
    have hall : ∀ name ∈ ["h.journal","h.json","t.json"], isPairedName name = true →
        snapshotOf name ∈ ["h.journal","h.json","t.json"] := by decide +kernel
    exact (hmem _).mpr (hall name ((hmem _).mp hhas) hpaired)
  refine ⟨hhead,Bool.eq_false_iff.mpr fun h => absurd ((hmem _).mp h) (by decide +kernel),?_⟩
  exact (hiff ["h"] o (Outcome.ok_of_toOption hheads) (Outcome.ok_of_toOption ho)).mp hnone 40 rfl

end Synaps.Retention
