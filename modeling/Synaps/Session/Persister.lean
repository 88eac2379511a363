import Synaps.Lib.Latest
import Synaps.Lib.Runs
import Synaps.Store.Save
import Mathlib.Data.Finset.Basic

/-!
The persister: saves and turn-draft operations are queued, latest wins for each session id,
and one task applies them in batches.
-/

set_option autoImplicit false

namespace Synaps.Persist

open Store Latest List

def turnDraftMaxTextBytes : Nat := 1024 * 1024

structure TurnDraft where
  baseLen : Nat
  partialText : String
  deriving DecidableEq

inductive DraftOp where
  | write (draft : TurnDraft)
  | remove
  deriving DecidableEq

/-- What `write_turn_draft` and `remove_turn_draft` leave: a text is cut to its bound. -/
def DraftOp.effect : DraftOp → Option TurnDraft
  | .write draft =>
    some { draft with
      partialText := .ofList (Text.truncateBytes turnDraftMaxTextBytes draft.partialText.toList) }
  | .remove => none

structure Pending where
  saves : List Session
  drafts : List (String × DraftOp)
  requested : Nat
  closed : Bool

structure Progress where
  done : Nat
  ok : Bool

/-- Where the loop of `run` stands: before it takes a batch, saving its snapshots,
or applying its draft operations. -/
inductive Task where
  | idle
  | saving (saves : List Session) (drafts : List (String × DraftOp)) (covered : Nat)
      (saved : List String)
  | applying (ops : List (String × DraftOp)) (covered : Nat)
  | exited

inductive Request where
  | save (session : Session)
  | draft (id : String) (op : DraftOp)

def savesOf (log : List Request) : List Session :=
  log.filterMap fun
    | .save session => some session
    | .draft .. => none

def draftsOf (log : List Request) : List (String × DraftOp) :=
  log.filterMap fun
    | .save _ => none
    | .draft id op => some (id,op)

structure Loop where
  failed : Finset String
  deferredRemoves : Finset String
  task : Task

/-- `draftFailed` says of which ids the latest draft operation that was tried failed. -/
structure Disk where
  sessions : String → Option Session
  drafts : String → Option TurnDraft
  draftFailed : String → Bool

/-- The persister and the disk. `log` has every request so far and `attempts` the
outcome of the latest save attempt of each session; no step reads them or `draftFailed`. -/
structure State where
  pending : Pending
  loop : Loop
  progress : Progress
  disk : Disk
  log : List Request
  attempts : String → Option Bool

def State.new (disk : Disk) : State where
  pending := ⟨[],[],0,false⟩
  loop := ⟨∅,∅,.idle⟩
  progress := ⟨0,true⟩
  disk := { disk with draftFailed := fun _ => false }
  log := []
  attempts := fun _ => none

def State.save (s : State) (session : Session) : State :=
  { s with
    pending := { s.pending with
      saves := upsert Session.id session s.pending.saves
      requested := s.pending.requested + 1 }
    log := s.log ++ [.save session] }

def State.draft (s : State) (id : String) (op : DraftOp) : State :=
  { s with
    pending := { s.pending with
      drafts := upsert Prod.fst (id,op) s.pending.drafts
      requested := s.pending.requested + 1 }
    log := s.log ++ [.draft id op] }

def State.close (s : State) : State := { s with pending := { s.pending with closed := true } }

def State.take (s : State) : State :=
  { s with
    pending := { s.pending with saves := [], drafts := [] }
    loop := { s.loop with
      task := .saving s.pending.saves s.pending.drafts s.pending.requested [] } }

def Disk.replace (d : Disk) (session : Session) : Disk :=
  { d with sessions := Function.update d.sessions session.id (some session) }

def State.saveOk (s : State) (session : Session) (saves : List Session)
    (drafts : List (String × DraftOp)) (covered : Nat) (saved : List String) : State :=
  { s with
    loop := { s.loop with
      failed := s.loop.failed.erase session.id
      task := .saving saves drafts covered (saved ++ [session.id]) }
    disk := s.disk.replace session
    attempts := Function.update s.attempts session.id (some true) }

def State.saveErr (s : State) (session : Session) (saves : List Session)
    (drafts : List (String × DraftOp)) (covered : Nat) (saved : List String) (replaced : Bool) :
    State :=
  { s with
    loop := { s.loop with
      failed := insert session.id s.loop.failed
      task := .saving saves drafts covered saved }
    disk := if replaced then s.disk.replace session else s.disk
    attempts := Function.update s.attempts session.id (some false) }

/-- The removals that the good saves of a batch release, with what stays deferred. -/
def release : List String → Finset String → List (String × DraftOp) × Finset String
  | [], deferred => ([],deferred)
  | id :: saved, deferred =>
    if id ∈ deferred then
      let rest := release saved (deferred.erase id)
      ((id,.remove) :: rest.1,rest.2)
    else release saved deferred

/-- The draft requests of a batch after the released removals: a removal whose
session's latest save failed is deferred. -/
def admitOps (failed : Finset String) :
    List (String × DraftOp) → List (String × DraftOp) × Finset String →
      List (String × DraftOp) × Finset String
  | [], acc => acc
  | (id,op) :: drafts, (ops,deferred) =>
    let deferred := deferred.erase id
    let ops := ops.filter (·.1 ≠ id)
    if op = .remove ∧ id ∈ failed then admitOps failed drafts (ops,insert id deferred)
    else admitOps failed drafts (ops ++ [(id,op)],deferred)

def State.plan (s : State) (drafts : List (String × DraftOp)) (covered : Nat)
    (saved : List String) : State :=
  let acc := admitOps s.loop.failed drafts (release saved s.loop.deferredRemoves)
  { s with loop := { s.loop with deferredRemoves := acc.2, task := .applying acc.1 covered } }

/-- A failed operation is only logged; it may have taken effect. -/
def State.applyDraft (s : State) (e : String × DraftOp) (ops : List (String × DraftOp))
    (covered : Nat) (failed changed : Bool) : State :=
  { s with
    loop := { s.loop with task := .applying ops covered }
    disk := { s.disk with
      drafts := if changed then Function.update s.disk.drafts e.1 e.2.effect else s.disk.drafts
      draftFailed := Function.update s.disk.draftFailed e.1 failed } }

def State.publish (s : State) (covered : Nat) : State :=
  { s with
    loop := { s.loop with task := .idle }
    progress := ⟨covered,decide (s.loop.failed = ∅)⟩ }

def State.exit (s : State) : State := { s with loop := { s.loop with task := .exited } }

/-- One request, or one step of `run`. The set of saved ids is iterated in any order. -/
inductive Step : State → State → Prop
  | save (s : State) (session : Session) (ho : s.pending.closed = false) : Step s (s.save session)
  | draft (s : State) (id : String) (op : DraftOp) (ho : s.pending.closed = false) :
      Step s (s.draft id op)
  | close (s : State) : Step s s.close
  | take (s : State) (ht : s.loop.task = .idle)
      (hp : s.pending.saves ≠ [] ∨ s.pending.drafts ≠ []) : Step s s.take
  | exit (s : State) (ht : s.loop.task = .idle) (hs : s.pending.saves = [])
      (hd : s.pending.drafts = []) (hc : s.pending.closed = true) : Step s s.exit
  | saveOk (s : State) {session : Session} {saves : List Session}
      {drafts : List (String × DraftOp)} {covered : Nat} {saved : List String}
      (ht : s.loop.task = .saving (session :: saves) drafts covered saved) :
      Step s (s.saveOk session saves drafts covered saved)
  | saveErr (s : State) {session : Session} {saves : List Session}
      {drafts : List (String × DraftOp)} {covered : Nat} {saved : List String} (replaced : Bool)
      (ht : s.loop.task = .saving (session :: saves) drafts covered saved) :
      Step s (s.saveErr session saves drafts covered saved replaced)
  | plan (s : State) {drafts : List (String × DraftOp)} {covered : Nat} {saved : List String}
      (order : List String) (ho : order.Perm saved)
      (ht : s.loop.task = .saving [] drafts covered saved) : Step s (s.plan drafts covered order)
  | applyDraft (s : State) {e : String × DraftOp} {ops : List (String × DraftOp)} {covered : Nat}
      (failed changed : Bool) (hf : failed || changed)
      (ht : s.loop.task = .applying (e :: ops) covered) :
      Step s (s.applyDraft e ops covered failed changed)
  | publish (s : State) {covered : Nat} (ht : s.loop.task = .applying [] covered) :
      Step s (s.publish covered)

/-- One pass of the loop of `flush`; `gone` when the task has ended. -/
def flushPoll (target : Nat) (p : Progress) (gone : Bool) : Option Bool :=
  if target ≤ p.done then some p.ok
  else if gone then some (decide (target ≤ p.done) && p.ok)
  else none

def Task.rest : Task → List Session
  | .saving saves _ _ _ => saves
  | _ => []

def Task.ops : Task → List (String × DraftOp)
  | .saving _ drafts _ _ => drafts
  | .applying ops _ => ops
  | _ => []

def Task.saved : Task → List String
  | .saving _ _ _ saved => saved
  | _ => []

/-- How many requests the current or, between batches, the last batch covers. -/
def Task.covered (done : Nat) : Task → Nat
  | .saving _ _ covered _ => covered
  | .applying _ covered => covered
  | _ => done

/-- The operation has been applied, or its application failed. -/
def Disk.Tried (d : Disk) (id : String) (op : DraftOp) : Prop :=
  d.drafts id = op.effect ∨ d.draftFailed id = true

/-- What holds within a batch that covers the requests `cov`: an attempted save whose
session is not in `failed` is on disk, and every draft operation that is neither to be
applied nor deferred has been tried. -/
structure Batch (cov : List Request) (l : Loop) (d : Disk) (attempts : String → Option Bool) :
    Prop where
  nodup : (l.task.rest.map Session.id).Nodup
  rest : ∀ x ∈ l.task.rest, latest Session.id (savesOf cov) x.id = some x ∧ x.id ∉ l.task.saved
  ops : ∀ e ∈ l.task.ops, latest Prod.fst (draftsOf cov) e.1 = some e
  attempts : ∀ id, attempts id = some false → id ∈ l.failed
  saved : ∀ id ∈ l.task.saved, id ∉ l.failed
  deferred : ∀ id ∈ l.deferredRemoves, id ∈ l.failed ∨ id ∈ l.task.saved
  removal : ∀ id ∈ l.deferredRemoves, id ∉ l.task.ops.map Prod.fst →
    latest Prod.fst (draftsOf cov) id = some (id,.remove)
  safe : ∀ ops n, l.task = .applying ops n → ∀ e ∈ ops,
    e.1 ∉ l.deferredRemoves ∧ (e.2 = .remove → e.1 ∉ l.failed)
  sessions : ∀ id, id ∉ l.failed → id ∉ l.task.rest.map Session.id →
    ∀ x, latest Session.id (savesOf cov) id = some x → d.sessions id = some x
  drafts : ∀ id, id ∉ l.task.ops.map Prod.fst → id ∉ l.deferredRemoves →
    ∀ e, latest Prod.fst (draftsOf cov) id = some e → d.Tried id e.2

structure Published (log : List Request) (done covered : Nat) (d : Disk) : Prop where
  sessions : ∀ id, (latest Session.id (savesOf (log.take done)) id).isSome →
    ∃ n, done ≤ n ∧ n ≤ covered ∧ d.sessions id = latest Session.id (savesOf (log.take n)) id
  drafts : ∀ id, (∀ e ∈ draftsOf (log.drop done), e.1 ≠ id) →
    ∀ e, latest Prod.fst (draftsOf (log.take done)) id = some e → d.Tried id e.2

structure Inv (s : State) : Prop where
  requested : s.pending.requested = s.log.length
  done_le : s.progress.done ≤ s.loop.task.covered s.progress.done
  covered_le : s.loop.task.covered s.progress.done ≤ s.log.length
  saves : Queued Session.id (savesOf (s.log.take (s.loop.task.covered s.progress.done)))
    (savesOf s.log) s.pending.saves
  drafts : Queued Prod.fst (draftsOf (s.log.take (s.loop.task.covered s.progress.done)))
    (draftsOf s.log) s.pending.drafts
  batch : Batch (s.log.take (s.loop.task.covered s.progress.done)) s.loop s.disk s.attempts
  published : s.progress.ok = true →
    Published s.log s.progress.done (s.loop.task.covered s.progress.done) s.disk

@[simp] theorem savesOf_append (log more : List Request) :
    savesOf (log ++ more) = savesOf log ++ savesOf more := filterMap_append

@[simp] theorem draftsOf_append (log more : List Request) :
    draftsOf (log ++ more) = draftsOf log ++ draftsOf more := filterMap_append

theorem latest_draft_take {log : List Request} {m n : Nat} (hmn : m ≤ n) {id : String}
    (h : ∀ e ∈ draftsOf (log.drop m), e.1 ≠ id) :
    latest Prod.fst (draftsOf (log.take n)) id = latest Prod.fst (draftsOf (log.take m)) id := by
  obtain ⟨k,rfl⟩ := Nat.exists_eq_add_of_le hmn
  rw [take_add,draftsOf_append]
  refine latest_append_of_notMem Prod.fst fun e he => h e ?_
  exact ((( take_prefix k (log.drop m)).filterMap _).subset he)

variable {deferred : Finset String}

section

variable {saved : List String}

theorem mem_release {e : String × DraftOp} (h : e ∈ (release saved deferred).1) :
    e.2 = .remove ∧ e.1 ∈ saved ∧ e.1 ∈ deferred := by
  induction saved generalizing deferred with
  | nil => simp [release] at h
  | cons id saved ih =>
    rw [release] at h
    split at h
    · rename_i hid
      rcases mem_cons.mp h with rfl | h
      · exact ⟨rfl,mem_cons_self,hid⟩
      · obtain ⟨h₁,h₂,h₃⟩ := ih h
        exact ⟨h₁,mem_cons_of_mem _ h₂,Finset.mem_of_mem_erase h₃⟩
    · obtain ⟨h₁,h₂,h₃⟩ := ih h
      exact ⟨h₁,mem_cons_of_mem _ h₂,h₃⟩

theorem release_deferred (id : String) :
    id ∈ (release saved deferred).2 ↔ id ∈ deferred ∧ id ∉ saved := by
  induction saved generalizing deferred with
  | nil => simp [release]
  | cons k saved ih =>
    rw [release]
    split
    · simp only [ih,Finset.mem_erase,mem_cons]
      tauto
    · rename_i hk
      simp only [ih,mem_cons,not_or,and_congr_right_iff,iff_and_self]
      rintro hd - rfl
      exact hk hd

theorem released {id : String} (hs : id ∈ saved) (hd : id ∈ deferred) :
    (id,.remove) ∈ (release saved deferred).1 := by
  induction saved generalizing deferred with
  | nil => cases hs
  | cons k saved ih =>
    rw [release]
    by_cases hk : id = k
    · subst hk
      rw [if_pos hd]
      exact mem_cons_self
    · have hs := (mem_cons.mp hs).resolve_left hk
      split
      · exact mem_cons_of_mem _ (ih hs (Finset.mem_erase.mpr ⟨hk,hd⟩))
      · exact ih hs hd

end

section

variable {failed : Finset String} {drafts : List (String × DraftOp)}
  {acc : List (String × DraftOp) × Finset String}

theorem mem_admitOps {e : String × DraftOp} (h : e ∈ (admitOps failed drafts acc).1) :
    (e ∈ drafts ∧ (e.2 = .remove → e.1 ∉ failed)) ∨ (e ∈ acc.1 ∧ e.1 ∉ drafts.map Prod.fst) := by
  induction drafts generalizing acc with
  | nil => exact .inr ⟨h,by simp⟩
  | cons d drafts ih =>
    obtain ⟨id,op⟩ := d
    obtain ⟨ops,deferred⟩ := acc
    rw [admitOps] at h
    have old (h : e ∈ ops.filter (·.1 ≠ id)) (hd : e.1 ∉ drafts.map Prod.fst) :
        e ∈ ops ∧ e.1 ∉ ((id,op) :: drafts).map Prod.fst := by
      obtain ⟨he,hne⟩ := mem_filter.mp h
      exact ⟨he,by simpa [hd] using hne⟩
    split at h
    · rcases ih h with ⟨hd,hf⟩ | ⟨ho,hd⟩
      · exact .inl ⟨mem_cons_of_mem _ hd,hf⟩
      · exact .inr (old ho hd)
    · rename_i hop
      rcases ih h with ⟨hd,hf⟩ | ⟨ho,hd⟩
      · exact .inl ⟨mem_cons_of_mem _ hd,hf⟩
      · rcases mem_append.mp ho with ho | ho
        · exact .inr (old ho hd)
        · obtain rfl := mem_singleton.mp ho
          exact .inl ⟨mem_cons_self,fun hr hf => hop ⟨hr,hf⟩⟩

theorem admitOps_deferred {id : String} (h : id ∈ (admitOps failed drafts acc).2) :
    ((id,.remove) ∈ drafts ∧ id ∈ failed) ∨ (id ∈ acc.2 ∧ id ∉ drafts.map Prod.fst) := by
  induction drafts generalizing acc with
  | nil => exact .inr ⟨h,by simp⟩
  | cons d drafts ih =>
    obtain ⟨k,op⟩ := d
    obtain ⟨ops,deferred⟩ := acc
    rw [admitOps] at h
    split at h
    · rename_i hop
      rcases ih h with ⟨hd,hf⟩ | ⟨hi,hd⟩
      · exact .inl ⟨mem_cons_of_mem _ hd,hf⟩
      · rcases Finset.mem_insert.mp hi with rfl | hi
        · exact .inl ⟨by rw [hop.1]; exact mem_cons_self,hop.2⟩
        · obtain ⟨hne,hi⟩ := Finset.mem_erase.mp hi
          exact .inr ⟨hi,by simpa [hne] using hd⟩
    · rcases ih h with ⟨hd,hf⟩ | ⟨hi,hd⟩
      · exact .inl ⟨mem_cons_of_mem _ hd,hf⟩
      · obtain ⟨hne,hi⟩ := Finset.mem_erase.mp hi
        exact .inr ⟨hi,by simpa [hne] using hd⟩

theorem admitOps_apart (h : ∀ e ∈ acc.1, e.1 ∉ acc.2) :
    ∀ e ∈ (admitOps failed drafts acc).1, e.1 ∉ (admitOps failed drafts acc).2 := by
  induction drafts generalizing acc with
  | nil => exact h
  | cons d drafts ih =>
    obtain ⟨id,op⟩ := d
    obtain ⟨ops,deferred⟩ := acc
    have old {e : String × DraftOp} (he : e ∈ ops.filter (·.1 ≠ id)) :
        e.1 ≠ id ∧ e.1 ∉ deferred := by
      obtain ⟨he,hne⟩ := mem_filter.mp he
      exact ⟨by simpa using hne,h e he⟩
    rw [admitOps]
    split
    · refine ih fun e he hd => ?_
      rcases Finset.mem_insert.mp hd with hi | hd
      · exact (old he).1 hi
      · exact (old he).2 (Finset.mem_of_mem_erase hd)
    · refine ih fun e he hd => ?_
      obtain ⟨hne,hd⟩ := Finset.mem_erase.mp hd
      rcases mem_append.mp he with he | he
      · exact (old he).2 hd
      · rw [mem_singleton.mp he] at hne
        exact hne rfl

/-- No operation is dropped: it is to be applied, deferred, or replaced by one of its
id that is. -/
theorem admitOps_keeps {id : String} (ho : id ∉ (admitOps failed drafts acc).1.map Prod.fst)
    (hd : id ∉ (admitOps failed drafts acc).2) :
    id ∉ drafts.map Prod.fst ∧ id ∉ acc.1.map Prod.fst ∧ id ∉ acc.2 := by
  induction drafts generalizing acc with
  | nil => exact ⟨by simp,ho,hd⟩
  | cons d drafts ih =>
    obtain ⟨k,op⟩ := d
    obtain ⟨ops,deferred⟩ := acc
    rw [admitOps] at ho hd
    have keys (h : id ∉ (ops.filter (·.1 ≠ k)).map Prod.fst) (hk : id ≠ k) :
        id ∉ ops.map Prod.fst := by
      intro hm
      obtain ⟨e,he,rfl⟩ := mem_map.mp hm
      exact h (mem_map_of_mem (mem_filter.mpr ⟨he,by simpa using hk⟩))
    split at ho
    · rename_i hop
      rw [if_pos hop] at hd
      obtain ⟨h₁,h₂,h₃⟩ := ih ho hd
      simp only [Finset.mem_insert,Finset.mem_erase,not_or,not_and] at h₃
      exact ⟨by simpa [h₃.1] using h₁,keys h₂ h₃.1,h₃.2 h₃.1⟩
    · rename_i hop
      rw [if_neg hop] at hd
      obtain ⟨h₁,h₂,h₃⟩ := ih ho hd
      simp only [map_append,map_cons,map_nil,mem_append,mem_singleton,not_or] at h₂
      rw [Finset.mem_erase,not_and] at h₃
      exact ⟨by simpa [h₂.2] using h₁,keys h₂.1 h₂.2,h₃ h₂.2⟩

end

theorem Published.request {log : List Request} {done covered : Nat} {d : Disk}
    (h : Published log done covered d) (hd : done ≤ covered) (hc : covered ≤ log.length)
    (r : Request) : Published (log ++ [r]) done covered d where
  sessions id hid := by
    rw [take_append_of_le_length (hd.trans hc)] at hid
    obtain ⟨n,h₁,h₂,hn⟩ := h.sessions id hid
    exact ⟨n,h₁,h₂,by rw [take_append_of_le_length (h₂.trans hc),hn]⟩
  drafts id hid e he := by
    rw [take_append_of_le_length (hd.trans hc)] at he
    refine h.drafts id (fun x hx => hid x ?_) e he
    rw [drop_append_of_le_length (hd.trans hc),draftsOf_append]
    exact mem_append_left _ hx

variable {t : State}

section

variable {s : State} (h : Inv s)

include h

theorem inv_request (r : Request) (hlog : t.log = s.log ++ [r])
    (hreq : t.pending.requested = s.pending.requested + 1) (hloop : t.loop = s.loop)
    (hprog : t.progress = s.progress) (hdisk : t.disk = s.disk) (hatt : t.attempts = s.attempts)
    (hsaves : Queued Session.id (savesOf (s.log.take (s.loop.task.covered s.progress.done)))
      (savesOf (s.log ++ [r])) t.pending.saves)
    (hdrafts : Queued Prod.fst (draftsOf (s.log.take (s.loop.task.covered s.progress.done)))
      (draftsOf (s.log ++ [r])) t.pending.drafts) : Inv t := by
  have htake : t.log.take (s.loop.task.covered s.progress.done) =
      s.log.take (s.loop.task.covered s.progress.done) := by
    rw [hlog,take_append_of_le_length h.covered_le]
  constructor
  · rw [hreq,hlog,h.requested,length_append,length_singleton]
  · rw [hloop,hprog]
    exact h.done_le
  · rw [hloop,hprog,hlog,length_append]
    exact h.covered_le.trans (Nat.le_add_right _ _)
  · rw [hloop,hprog,htake,hlog]
    exact hsaves
  · rw [hloop,hprog,htake,hlog]
    exact hdrafts
  · rw [hloop,hprog,htake,hdisk,hatt]
    exact h.batch
  · rw [hloop,hprog,hdisk,hlog]
    exact fun hok => (h.published hok).request h.done_le h.covered_le r

theorem inv_save (session : Session) : Inv (s.save session) := by
  refine inv_request h (.save session) rfl rfl rfl rfl rfl rfl ?_ ?_
  · rw [savesOf_append]
    exact h.saves.upsert Session.id session
  · rw [draftsOf_append]
    exact (append_nil _).symm ▸ h.drafts

theorem inv_draft (id : String) (op : DraftOp) : Inv (s.draft id op) := by
  refine inv_request h (.draft id op) rfl rfl rfl rfl rfl rfl ?_ ?_
  · rw [savesOf_append]
    exact (append_nil _).symm ▸ h.saves
  · rw [draftsOf_append]
    exact h.drafts.upsert Prod.fst (id,op)

theorem Batch.take (ht : s.loop.task = .idle) : Batch s.log s.take.loop s.disk s.attempts := by
  have hb := h.batch
  have hs := h.saves
  have hd := h.drafts
  rw [ht] at hs hd
  constructor
  · exact hs.nodup
  · exact fun x hx => ⟨hs.entry x hx,by simp [State.take,Task.saved]⟩
  · exact hd.entry
  · exact hb.attempts
  · intro id hid
    cases hid
  · intro id hid
    refine .inl ((hb.deferred id hid).resolve_right ?_)
    rw [ht]
    simp [Task.saved]
  · intro id hid hops
    rw [hd.other id hops]
    have h := hb.removal id hid (by rw [ht]; simp [Task.ops])
    rwa [ht] at h
  · intro ops n hn
    cases hn
  · intro id hf hr x hx
    rw [hs.other id hr] at hx
    refine hb.sessions id hf (by rw [ht]; simp [Task.rest]) x ?_
    rwa [ht]
  · intro id ho hdef e he
    rw [hd.other id ho] at he
    refine hb.drafts id (by rw [ht]; simp [Task.ops]) hdef e ?_
    rwa [ht]

theorem inv_take (ht : s.loop.task = .idle) : Inv s.take := by
  have hlen : s.take.loop.task.covered s.take.progress.done = s.log.length := h.requested
  have hdone : s.progress.done ≤ s.log.length := h.done_le.trans h.covered_le
  constructor
  · exact h.requested
  · rw [hlen]
    exact hdone
  · rw [hlen]
    exact le_rfl
  · rw [hlen]
    change Queued _ (savesOf (s.log.take s.log.length)) (savesOf s.log) []
    rw [take_length]
    exact .empty Session.id _
  · rw [hlen]
    change Queued _ (draftsOf (s.log.take s.log.length)) (draftsOf s.log) []
    rw [take_length]
    exact .empty Prod.fst _
  · rw [hlen]
    change Batch (s.log.take s.log.length) s.take.loop s.disk s.attempts
    rw [take_length]
    exact .take h ht
  · intro hok
    rw [hlen]
    have hp := h.published hok
    rw [ht] at hp
    refine ⟨fun id hid => ?_,hp.drafts⟩
    obtain ⟨n,h₁,h₂,hn⟩ := hp.sessions id hid
    exact ⟨n,h₁,h₂.trans hdone,hn⟩

theorem inv_within (hpending : t.pending = s.pending) (hlog : t.log = s.log)
    (hprog : t.progress = s.progress)
    (hcov : t.loop.task.covered s.progress.done = s.loop.task.covered s.progress.done)
    (hbatch : Batch (s.log.take (s.loop.task.covered s.progress.done)) t.loop t.disk t.attempts)
    (hpub : Published s.log s.progress.done (s.loop.task.covered s.progress.done) s.disk →
      Published s.log s.progress.done (s.loop.task.covered s.progress.done) t.disk) : Inv t := by
  constructor
  · rw [hpending,hlog]
    exact h.requested
  · rw [hprog,hcov]
    exact h.done_le
  · rw [hprog,hcov,hlog]
    exact h.covered_le
  · rw [hprog,hcov,hlog,hpending]
    exact h.saves
  · rw [hprog,hcov,hlog,hpending]
    exact h.drafts
  · rw [hprog,hcov,hlog]
    exact hbatch
  · rw [hprog,hcov,hlog]
    exact fun hok => hpub (h.published hok)

end

section

variable {s : State} {session : Session} {saves : List Session}
  {drafts : List (String × DraftOp)} {covered : Nat} {saved : List String}

theorem Published.replace {log : List Request} {done : Nat} {d : Disk}
    (h : Published log done covered d) (hd : done ≤ covered)
    (hs : latest Session.id (savesOf (log.take covered)) session.id = some session) :
    Published log done covered (d.replace session) where
  sessions id hid := by
    by_cases hi : id = session.id
    · subst hi
      exact ⟨covered,hd,le_rfl,by simp [Disk.replace,hs]⟩
    · simpa [Disk.replace,hi] using h.sessions id hid
  drafts := h.drafts

theorem inv_saveOk (h : Inv s)
    (ht : s.loop.task = .saving (session :: saves) drafts covered saved) :
    Inv (s.saveOk session saves drafts covered saved) := by
  have hb := h.batch
  have hd := h.done_le
  rw [ht] at hb hd
  change Batch (s.log.take covered) _ _ _ at hb
  obtain ⟨hn,hr,ho,ha,hsv,hdef,hrem,-,hsess,hdr⟩ := hb
  rw [ht] at hn hr ho hsv hdef hrem hsess hdr
  simp only [Task.rest,Task.saved,Task.ops,map_cons,nodup_cons,mem_cons,
    forall_eq_or_imp,not_or] at hn hr ho hsv hdef hrem hsess hdr
  refine inv_within h rfl rfl rfl (by rw [ht]; rfl) ?_ ?_
  · rw [ht]
    constructor
    · exact hn.2
    · intro x hx
      refine ⟨(hr.2 x hx).1,?_⟩
      have hne : x.id ≠ session.id := fun he => hn.1 (he ▸ mem_map_of_mem hx)
      simp [State.saveOk,Task.saved,(hr.2 x hx).2,hne]
    · exact ho
    · intro id hid
      by_cases hi : id = session.id
      · subst hi
        simp [State.saveOk] at hid
      · exact Finset.mem_erase.mpr ⟨hi,ha id (by simpa [State.saveOk,hi] using hid)⟩
    · exact forall_mem_append.mpr ⟨fun id hid => fun hf => hsv id hid (Finset.mem_of_mem_erase hf),
        forall_mem_singleton.mpr (Finset.notMem_erase _ _)⟩
    · intro id hid
      by_cases hi : id = session.id
      · exact .inr (by simp [State.saveOk,Task.saved,hi])
      · rcases hdef id hid with hf | hs
        · exact .inl (Finset.mem_erase.mpr ⟨hi,hf⟩)
        · exact .inr (mem_append_left _ hs)
    · exact hrem
    · intro ops n hn
      cases hn
    · intro id hf hrest x hx
      by_cases hi : id = session.id
      · subst hi
        cases hr.1.1.symm.trans hx
        simp [State.saveOk,Disk.replace]
      · have hf' : id ∉ s.loop.failed := fun hm => hf (Finset.mem_erase.mpr ⟨hi,hm⟩)
        simpa [State.saveOk,Disk.replace,hi] using hsess id hf' ⟨hi,hrest⟩ x hx
    · exact hdr
  · rw [ht]
    exact fun hp => hp.replace hd hr.1.1

theorem inv_saveErr (h : Inv s) (replaced : Bool)
    (ht : s.loop.task = .saving (session :: saves) drafts covered saved) :
    Inv (s.saveErr session saves drafts covered saved replaced) := by
  have hb := h.batch
  have hd := h.done_le
  rw [ht] at hb hd
  change Batch (s.log.take covered) _ _ _ at hb
  obtain ⟨hn,hr,ho,ha,hsv,hdef,hrem,-,hsess,hdr⟩ := hb
  rw [ht] at hn hr ho hsv hdef hrem hsess hdr
  simp only [Task.rest,Task.saved,Task.ops,map_cons,nodup_cons,mem_cons,
    forall_eq_or_imp,not_or] at hn hr ho hsv hdef hrem hsess hdr
  refine inv_within h rfl rfl rfl (by rw [ht]; rfl) ?_ ?_
  · rw [ht]
    constructor
    · exact hn.2
    · exact hr.2
    · exact ho
    · intro id hid
      by_cases hi : id = session.id
      · exact Finset.mem_insert.mpr (.inl hi)
      · exact Finset.mem_insert_of_mem (ha id (by simpa [State.saveErr,hi] using hid))
    · intro id hid hf
      rcases Finset.mem_insert.mp hf with rfl | hf
      · exact hr.1.2 hid
      · exact hsv id hid hf
    · intro id hid
      exact (hdef id hid).imp_left Finset.mem_insert_of_mem
    · exact hrem
    · intro ops n hn
      cases hn
    · intro id hf hrest x hx
      simp only [State.saveErr,Finset.mem_insert,not_or] at hf
      have hx' := hsess id hf.2 ⟨hf.1,hrest⟩ x hx
      cases replaced with
      | false => exact hx'
      | true => simpa [State.saveErr,Disk.replace,hf.1] using hx'
    · intro id h₁ h₂ e he
      have hd' := hdr id h₁ h₂ e he
      cases replaced <;> exact hd'
  · rw [ht]
    cases replaced with
    | false => exact fun hp => hp
    | true => exact fun hp => hp.replace hd hr.1.1

theorem inv_plan (h : Inv s) {order : List String} (ho : order.Perm saved)
    (ht : s.loop.task = .saving [] drafts covered saved) : Inv (s.plan drafts covered order) := by
  have hb := h.batch
  rw [ht] at hb
  change Batch (s.log.take covered) _ _ _ at hb
  obtain ⟨-,-,hops,ha,hsv,hdef,hrem,-,hsess,hdr⟩ := hb
  rw [ht] at hops hsv hdef hrem hsess hdr
  simp only [Task.rest,Task.saved,Task.ops] at hops hsv hdef hrem hsess hdr
  have hkept {id : String} (hid : id ∈ (release order s.loop.deferredRemoves).2) :
      id ∈ s.loop.deferredRemoves ∧ id ∉ saved := by
    rwa [release_deferred,ho.mem_iff] at hid
  refine inv_within h rfl rfl rfl (by rw [ht]; rfl) ?_ fun hp => hp
  rw [ht]
  constructor
  · exact nodup_nil
  · intro x hx
    cases hx
  · intro e he
    rcases mem_admitOps he with ⟨hd,-⟩ | ⟨hr,hd⟩
    · exact hops e hd
    · obtain ⟨h₁,-,h₃⟩ := mem_release hr
      refine (hrem e.1 h₃ hd).trans ?_
      rw [← h₁]
  · exact ha
  · intro id hid
    cases hid
  · intro id hid
    rcases admitOps_deferred hid with ⟨-,hf⟩ | ⟨hr,-⟩
    · exact .inl hf
    · exact .inl ((hdef id (hkept hr).1).resolve_right (hkept hr).2)
  · intro id hid _
    rcases admitOps_deferred hid with ⟨hd,-⟩ | ⟨hr,hd⟩
    · exact hops _ hd
    · exact hrem id (hkept hr).1 hd
  · intro ops n heq e he
    obtain ⟨rfl,-⟩ := Task.applying.inj heq
    refine ⟨admitOps_apart (fun x hx hd => ?_) e he,fun hr => ?_⟩
    · exact ((release_deferred x.1).mp hd).2 (mem_release hx).2.1
    · rcases mem_admitOps he with ⟨-,hf⟩ | ⟨hr,-⟩
      · exact hf hr
      · exact hsv e.1 (ho.mem_iff.mp (mem_release hr).2.1)
  · exact fun id hf _ x hx => hsess id hf (by simp) x hx
  · intro id h₁ h₂ e he
    obtain ⟨hd,hr,hk⟩ := admitOps_keeps h₁ h₂
    refine hdr id hd (fun hdm => ?_) e he
    by_cases hs : id ∈ order
    · exact hr (mem_map_of_mem (released hs hdm))
    · exact hk ((release_deferred id).mpr ⟨hdm,hs⟩)

section

variable {e : String × DraftOp} {ops : List (String × DraftOp)} {failed changed : Bool}

theorem applyDraft_tried (hf : failed || changed) :
    (s.applyDraft e ops covered failed changed).disk.Tried e.1 e.2 := by
  cases changed with
  | true => exact .inl (Function.update_self ..)
  | false =>
    obtain rfl : failed = true := by simpa using hf
    exact .inr (Function.update_self ..)

theorem applyDraft_other {id : String} (hi : id ≠ e.1) (op : DraftOp) :
    (s.applyDraft e ops covered failed changed).disk.Tried id op ↔ s.disk.Tried id op := by
  cases changed <;> simp [State.applyDraft,Disk.Tried,hi]

theorem inv_applyDraft (h : Inv s) (hf : failed || changed)
    (ht : s.loop.task = .applying (e :: ops) covered) :
    Inv (s.applyDraft e ops covered failed changed) := by
  have hb := h.batch
  have hd := h.done_le
  rw [ht] at hb hd
  change Batch (s.log.take covered) _ _ _ at hb
  obtain ⟨-,-,hops,ha,-,hdef,hrem,hsafe,hsess,hdr⟩ := hb
  have hsafe := hsafe _ _ ht
  rw [ht] at hops hdef hrem hsess hdr
  simp only [Task.rest,Task.saved,Task.ops,mem_cons,map_cons,forall_eq_or_imp,not_or]
    at hops hdef hrem hsess hdr hsafe
  refine inv_within h rfl rfl rfl (by rw [ht]; rfl) ?_ ?_
  · rw [ht]
    constructor
    · exact nodup_nil
    · intro x hx
      cases hx
    · exact hops.2
    · exact ha
    · intro id hid
      cases hid
    · exact hdef
    · intro id hid hid'
      have hi : id ≠ e.1 := fun hi => hsafe.1.1 (hi ▸ hid)
      exact hrem id hid ⟨hi,hid'⟩
    · intro ops' n heq
      obtain ⟨rfl,-⟩ := Task.applying.inj heq
      exact hsafe.2
    · exact hsess
    · intro id h₁ h₂ x hx
      by_cases hi : id = e.1
      · subst hi
        cases hops.1.symm.trans hx
        exact applyDraft_tried hf
      · exact (applyDraft_other hi x.2).mpr (hdr id ⟨hi,h₁⟩ h₂ x hx)
  · rw [ht]
    intro hp
    refine ⟨hp.sessions,fun id hid x hx => ?_⟩
    by_cases hi : id = e.1
    · subst hi
      rw [← latest_draft_take hd hid] at hx
      cases hops.1.symm.trans hx
      exact applyDraft_tried hf
    · exact (applyDraft_other hi x.2).mpr (hp.drafts id hid x hx)

end

theorem Batch.leave {cov : List Request} {l : Loop} {d : Disk} {attempts : String → Option Bool}
    (hb : Batch cov l d attempts) (hr : l.task.rest = []) (ho : l.task.ops = [])
    (hs : l.task.saved = []) {t : Task} (ht : t = .idle ∨ t = .exited) :
    Batch cov { l with task := t } d attempts := by
  obtain ⟨-,-,-,ha,-,hdef,hrem,-,hsess,hdr⟩ := hb
  rw [hr] at hsess
  rw [ho] at hrem hdr
  rw [hs] at hdef
  rcases ht with rfl | rfl
  all_goals
    exact ⟨nodup_nil,by simp [Task.rest],by simp [Task.ops],ha,by simp [Task.saved],hdef,hrem,
      by simp,hsess,hdr⟩

theorem inv_publish (h : Inv s) (ht : s.loop.task = .applying [] covered) :
    Inv (s.publish covered) := by
  have hb := h.batch
  have hs := h.saves
  have hd := h.drafts
  have hc := h.covered_le
  rw [ht] at hb hs hd hc
  change Batch (s.log.take covered) _ _ _ at hb
  have hleft : Batch (s.log.take covered) { s.loop with task := .idle } s.disk s.attempts :=
    hb.leave (by rw [ht]; rfl) (by rw [ht]; rfl) (by rw [ht]; rfl) (.inl rfl)
  refine ⟨h.requested,le_rfl,hc,hs,hd,hleft,fun hok => ?_⟩
  have hempty : s.loop.failed = ∅ := of_decide_eq_true hok
  constructor
  · intro id hid
    obtain ⟨x,hx⟩ := Option.isSome_iff_exists.mp hid
    exact ⟨covered,le_rfl,le_rfl,
      (hleft.sessions id (by simp [hempty]) (by simp [Task.rest]) x hx).trans hx.symm⟩
  · intro id _ e he
    refine hleft.drafts id (by simp [Task.ops]) (fun hdm => ?_) e he
    rcases hleft.deferred id hdm with hf | hf
    · rw [hempty] at hf
      cases hf
    · cases hf

end

theorem inv_new (disk : Disk) : Inv (State.new disk) where
  requested := rfl
  done_le := le_rfl
  covered_le := le_rfl
  saves := .empty Session.id _
  drafts := .empty Prod.fst _
  batch := by
    constructor <;> simp [State.new,Task.rest,Task.saved,Task.ops,savesOf,draftsOf]
  published _ := by
    constructor <;> simp [State.new,savesOf,draftsOf]

theorem inv_step {s : State} (h : Inv s) (hst : Step s t) : Inv t := by
  cases hst with
  | save session _ => exact inv_save h session
  | draft id op _ => exact inv_draft h id op
  | close => exact ⟨h.requested,h.done_le,h.covered_le,h.saves,h.drafts,h.batch,h.published⟩
  | take ht _ => exact inv_take h ht
  | exit ht _ _ _ =>
    refine inv_within h rfl rfl rfl (by rw [ht]; rfl) ?_ fun hp => hp
    exact h.batch.leave (by rw [ht]; rfl) (by rw [ht]; rfl) (by rw [ht]; rfl) (.inr rfl)
  | saveOk ht => exact inv_saveOk h ht
  | saveErr replaced ht => exact inv_saveErr h replaced ht
  | plan order ho ht => exact inv_plan h ho ht
  | applyDraft _ _ hf ht => exact inv_applyDraft h hf ht
  | publish ht => exact inv_publish h ht

def Init (s : State) : Prop := ∃ disk, s = State.new disk

theorem reachable_inv {s : State} (h : Runs.Reachable Init Step s) : Inv s := by
  refine h.invariant Inv ?_ fun a b ha hab => inv_step ha hab
  rintro _ ⟨disk,rfl⟩
  exact inv_new disk

theorem log_grows {s : State} (h : Relation.ReflTransGen Step s t) : s.log <+: t.log := by
  induction h with
  | refl => exact prefix_refl _
  | tail _ hab ih =>
    cases hab with
    | save session _ | draft id op _ => exact ih.trans (prefix_append _ _)
    | _ => exact ih

/-- A draft disappears from disk only by a removal, and that only while the latest
save attempt of its session has not failed. -/
theorem removed_after_good_save {s : State} (h : Inv s) (hst : Step s t) {id : String}
    (hs : s.disk.drafts id ≠ none) (ht : t.disk.drafts id = none) : s.attempts id ≠ some false := by
  cases hst with
  | saveErr replaced _ => cases replaced <;> exact absurd ht hs
  | @applyDraft e ops covered failed changed _ htask =>
    cases changed with
    | false => exact absurd ht hs
    | true =>
      by_cases hi : id = e.1
      · subst hi
        have hr : e.2 = .remove := by
          simp only [State.applyDraft,if_true,Function.update_self] at ht
          cases he : e.2 with
          | remove => rfl
          | write draft => simp [he,DraftOp.effect] at ht
        have hsafe := (h.batch.safe _ _ htask e mem_cons_self).2 hr
        exact fun ha => hsafe (h.batch.attempts _ ha)
      · exact absurd (by simpa [State.applyDraft,hi] using ht) hs
  | _ => exact absurd ht hs

theorem flushPoll_true {target : Nat} {p : Progress} {gone : Bool}
    (h : flushPoll target p gone = some true) : target ≤ p.done ∧ p.ok = true := by
  unfold flushPoll at h
  split at h
  · rename_i hle
    exact ⟨hle,Option.some.inj h⟩
  · rename_i hle
    split at h
    · simp [hle] at h
    · cases h

/-- A draft is removed only while the latest save attempt of its session has not
failed; and when a flush called in `s` reports success in `t`, the disk holds for
every id the newest snapshot requested before the call or a newer one, and the last
draft operation requested before it has been applied, unless it failed when it was tried or
a later one was requested. -/
theorem persister_run {s t : State} (hs : Runs.Reachable Init Step s)
    (hst : Relation.ReflTransGen Step s t) :
    (∀ u id, Step t u → t.disk.drafts id ≠ none → u.disk.drafts id = none →
      t.attempts id ≠ some false) ∧
    ∀ gone, flushPoll s.pending.requested t.progress gone = some true → ∀ id,
      ((latest Session.id (savesOf s.log) id).isSome → ∃ upTo, s.log <+: upTo ∧ upTo <+: t.log ∧
        t.disk.sessions id = latest Session.id (savesOf upTo) id) ∧
      ∀ op, latest Prod.fst (draftsOf s.log) id = some (id,op) →
        (∃ later, (id,later) ∈ draftsOf (t.log.drop s.log.length)) ∨
          t.disk.drafts id = op.effect ∨ t.disk.draftFailed id = true := by
  have ht := reachable_inv (hs.run hst)
  refine ⟨fun u id hu h₁ h₂ => removed_after_good_save ht hu h₁ h₂,fun gone hf id => ?_⟩
  obtain ⟨hdone,hok⟩ := flushPoll_true hf
  rw [(reachable_inv hs).requested] at hdone
  have hp := ht.published hok
  obtain ⟨more,hmore⟩ := log_grows hst
  have htake (n : Nat) (hn : s.log.length ≤ n) : s.log <+: t.log.take n := by
    rw [← hmore,take_append,take_of_length_le hn]
    exact prefix_append _ _
  have hself : t.log.take s.log.length = s.log := by rw [← hmore,take_left]
  constructor
  · intro hsome
    have hsome' : (latest Session.id (savesOf (t.log.take t.progress.done)) id).isSome := by
      obtain ⟨tail,htail⟩ := htake _ hdone
      rw [← htail,savesOf_append]
      exact latest_append_isSome Session.id hsome
    obtain ⟨n,h₁,-,hn⟩ := hp.sessions id hsome'
    exact ⟨t.log.take n,htake n (hdone.trans h₁), take_prefix _ _,hn⟩
  · intro op hop
    by_cases hlater : ∃ later, (id,later) ∈ draftsOf (t.log.drop s.log.length)
    · exact .inl hlater
    have hnone : ∀ e ∈ draftsOf (t.log.drop s.log.length), e.1 ≠ id := by
      rintro ⟨k,later⟩ he rfl
      exact hlater ⟨later,he⟩
    refine .inr (hp.drafts id (fun e he => hnone e ?_) (id,op) ?_)
    · exact ((drop_sublist_drop_left _ hdone).filterMap _).subset he
    · rw [latest_draft_take hdone hnone,hself,hop]

section

variable (x : Session) (d : TurnDraft)

def drafted : State := State.new ⟨fun _ => none,fun _ => some d,fun _ => false⟩

def afterFailedSave : State :=
  (((((drafted d).save x).take).saveErr x [] [] 1 [] false).plan [] 1 []).publish 1

def afterDeferral : State :=
  ((((afterFailedSave x d).draft x.id .remove).take).plan [(x.id,.remove)] 2 []).publish 2

def afterGoodSave : State :=
  ((((afterDeferral x d).save x).take).saveOk x [] [] 3 []).plan [] 3 [x.id]

theorem run_failedSave : Relation.ReflTransGen Step (drafted d) (afterFailedSave x d) := by
  have hq : ((drafted d).save x).pending.saves ≠ [] := by
    simp [drafted,State.save,State.new,upsert]
  exact .tail (.tail (.tail (.tail (.single (.save _ x rfl)) (.take _ rfl (.inl hq)))
    (.saveErr _ false rfl)) (.plan _ [] .rfl rfl)) (.publish _ rfl)

theorem deferred_eq : admitOps (insert x.id ∅) [(x.id,.remove)] (release [] ∅) = ([],{x.id}) := by
  simp [admitOps,release]

theorem run_deferral : Relation.ReflTransGen Step ((afterFailedSave x d).draft x.id .remove)
    (afterDeferral x d) := by
  have hq : ((afterFailedSave x d).draft x.id .remove).pending.drafts ≠ [] := by
    simp [State.draft,afterFailedSave,State.publish,State.plan,State.saveErr,State.take,State.save,
      upsert]
  refine .tail (.tail (.single (.take _ rfl (.inr hq))) (.plan _ [] .rfl rfl)) (.publish _ ?_)
  exact congrArg (fun acc => Task.applying acc.1 2) (deferred_eq x)

theorem afterDeferral_loop : (afterDeferral x d).loop = ⟨insert x.id ∅,{x.id},.idle⟩ := by
  have h := congrArg Prod.snd (deferred_eq x)
  exact congrArg (fun deferred => (⟨insert x.id ∅,deferred,.idle⟩ : Loop)) h

theorem run_goodSave : Relation.ReflTransGen Step (afterDeferral x d) (afterGoodSave x d) := by
  have hq : ((afterDeferral x d).save x).pending.saves ≠ [] := by
    simp [State.save,afterDeferral,State.publish,State.plan,State.take,upsert]
  have hs : ((afterDeferral x d).save x).take.loop.task = .saving [x] [] 3 [] := rfl
  exact .tail (.tail (.tail (.single (.save _ x rfl)) (.take _ rfl (.inl hq))) (.saveOk _ hs))
    (.plan _ [x.id] .rfl rfl)

theorem afterGoodSave_task : (afterGoodSave x d).loop.task = .applying [(x.id,.remove)] 3 := by
  have h : (afterGoodSave x d).loop.task = .applying (admitOps ((afterDeferral x d).loop.failed.erase
      x.id) [] (release [x.id] (afterDeferral x d).loop.deferredRemoves)).1 3 := rfl
  rw [h,afterDeferral_loop]
  simp [admitOps,release]

end

def demoDraft : TurnDraft := ⟨0,"partial"⟩

theorem removal_after_failed_save :
    ∃ r t u : State, Runs.Reachable Init Step r ∧ r.attempts (titled "demo" 0).id = some false ∧
      Relation.ReflTransGen Step (r.draft (titled "demo" 0).id .remove) t ∧
      draftsOf (t.log.drop (r.draft (titled "demo" 0).id .remove).log.length) = [] ∧ Step t u ∧
      t.disk.drafts (titled "demo" 0).id = some demoDraft ∧
      u.disk.drafts (titled "demo" 0).id = none := by
  generalize titled "demo" 0 = x,demoDraft = d
  refine ⟨afterFailedSave x d,afterGoodSave x d,_,⟨_,⟨_,rfl⟩,run_failedSave x d⟩,?_,
    (run_deferral x d).trans (run_goodSave x d),rfl,
    .applyDraft _ false true rfl (afterGoodSave_task x d),rfl,?_⟩
  · simp [afterFailedSave,State.publish,State.plan,State.saveErr]
  · simp [State.applyDraft,DraftOp.effect]

def afterRemoval (x : Session) (d : TurnDraft) : State :=
  ((afterGoodSave x d).applyDraft (x.id,.remove) [] 3 false true).publish 3

theorem persister_run_demo : (∀ u, Step (afterGoodSave (titled "demo" 0) demoDraft) u →
      u.disk.drafts (titled "demo" 0).id = none →
      (afterGoodSave (titled "demo" 0) demoDraft).attempts (titled "demo" 0).id ≠ some false) ∧
    flushPoll (afterDeferral (titled "demo" 0) demoDraft).pending.requested
      (afterRemoval (titled "demo" 0) demoDraft).progress false = some true ∧
    (afterRemoval (titled "demo" 0) demoDraft).disk.drafts (titled "demo" 0).id = none := by
  have hreach : Runs.Reachable Init Step (afterDeferral (titled "demo" 0) demoDraft) :=
    ((Runs.Reachable.init ⟨_,rfl⟩).run (run_failedSave (titled "demo" 0) demoDraft)).step
      (.draft _ _ _ rfl) |>.run (run_deferral (titled "demo" 0) demoDraft)
  have hgood := run_goodSave (titled "demo" 0) demoDraft
  have hremoved : Relation.ReflTransGen Step (afterDeferral (titled "demo" 0) demoDraft)
      (afterRemoval (titled "demo" 0) demoDraft) :=
    (hgood.tail (.applyDraft _ false true rfl (afterGoodSave_task _ _))).tail (.publish _ rfl)
  have hflush : flushPoll (afterDeferral (titled "demo" 0) demoDraft).pending.requested
      (afterRemoval (titled "demo" 0) demoDraft).progress false = some true := by
    have hf : (afterRemoval (titled "demo" 0) demoDraft).progress = ⟨3,decide
        ((afterDeferral (titled "demo" 0) demoDraft).loop.failed.erase (titled "demo" 0).id = ∅)⟩ := rfl
    rw [hf,afterDeferral_loop]
    simp [flushPoll,afterDeferral,State.publish,State.plan,State.take,State.draft,afterFailedSave,
      State.saveErr,State.save,drafted,State.new]
  refine ⟨fun u hu hn => ?_,hflush,?_⟩
  · exact (persister_run hreach hgood).1 u _ hu (Option.some_ne_none demoDraft) hn
  · rcases ((persister_run hreach hremoved).2 false hflush (titled "demo" 0).id).2 .remove rfl with
      ⟨later,hl⟩ | h | h
    · cases hl
    · exact h
    · simp [afterRemoval,State.publish,State.applyDraft] at h

/-- The failed sessions are those whose latest save attempt failed, and once the loop has ended
nothing is queued and nothing can be. -/
structure Ended (s : State) : Prop where
  failed : ∀ id ∈ s.loop.failed, s.attempts id = some false
  drained : s.loop.task = .exited →
    s.pending.closed = true ∧ s.pending.saves = [] ∧ s.pending.drafts = []

theorem ended_step {s t : State} (h : Ended s) (hst : Step s t) : Ended t := by
  cases hst with
  | save session ho | draft id op ho =>
    exact ⟨h.failed,fun he => absurd (h.drained he).1 (by simp [ho])⟩
  | close => exact ⟨h.failed,fun he => ⟨rfl,(h.drained he).2⟩⟩
  | exit ht hs hd hc => exact ⟨h.failed,fun _ => ⟨hc,hs,hd⟩⟩
  | @saveOk session saves drafts covered saved ht =>
    refine ⟨fun id hid => ?_,by rintro ⟨⟩⟩
    obtain ⟨hne,hid⟩ := Finset.mem_erase.mp hid
    exact (Function.update_of_ne hne ..).trans (h.failed id hid)
  | @saveErr session saves drafts covered saved replaced ht =>
    refine ⟨fun id hid => ?_,by rintro ⟨⟩⟩
    by_cases hne : id = session.id
    · exact hne ▸ Function.update_self ..
    · exact (Function.update_of_ne hne ..).trans
        (h.failed id (Finset.mem_of_mem_insert_of_ne hid hne))
  | take ht hp | plan order ho ht | applyDraft _ _ hf ht | publish ht => exact ⟨h.failed,by rintro ⟨⟩⟩

/-- When the loop has ended, the disk holds the newest snapshot ever requested of every session
whose latest save attempt did not fail, and the effect of the last draft operation of every id,
except for one that failed when it was tried and a removal that waits for a failed session. -/
theorem ended_complete {s : State} (hs : Runs.Reachable Init Step s) (he : s.loop.task = .exited)
    (id : String) :
    (∀ x, latest Session.id (savesOf s.log) id = some x → s.attempts id ≠ some false →
      s.disk.sessions id = some x) ∧
    ∀ op, latest Prod.fst (draftsOf s.log) id = some (id,op) →
      s.disk.drafts id = op.effect ∨ s.disk.draftFailed id = true ∨
        op = .remove ∧ s.attempts id = some false := by
  have h := reachable_inv hs
  have hend : Ended s := by
    refine hs.invariant Ended ?_ fun a b => ended_step
    rintro _ ⟨disk,rfl⟩
    exact ⟨by simp [State.new],by rintro ⟨⟩⟩
  obtain ⟨-,hsaves,hdrafts⟩ := hend.drained he
  have hb := h.batch
  have hlast := h.saves.other id (by simp [hsaves])
  have hdraft := h.drafts.other id (by simp [hdrafts])
  refine ⟨fun x hx hok => ?_,fun op hop => ?_⟩
  · exact hb.sessions id (fun hf => hok (hend.failed id hf)) (by simp [he,Task.rest]) x
      (hlast.symm.trans hx)
  · rw [hdraft] at hop
    have hops : id ∉ s.loop.task.ops.map Prod.fst := by simp [he,Task.ops]
    by_cases hdm : id ∈ s.loop.deferredRemoves
    · have hremove := hb.removal id hdm hops
      rw [hop] at hremove
      cases hremove
      refine .inr (.inr ⟨rfl,hend.failed id ((hb.deferred id hdm).resolve_right ?_)⟩)
      simp [he,Task.saved]
    · exact (hb.drafts id hops hdm _ hop).imp_right .inl

/-- A removal held back for a failed save is still held back when the loop ends. -/
theorem ended_complete_deferred :
    let s := (afterDeferral (titled "demo" 0) demoDraft).close.exit
    s.disk.drafts (titled "demo" 0).id = some demoDraft ∧
      s.attempts (titled "demo" 0).id = some false := by
  have h₁ : Runs.Reachable Init Step _ :=
    (Runs.Reachable.init ⟨_,rfl⟩).run (run_failedSave (titled "demo" 0) demoDraft)
  have h₂ := (h₁.step (.draft _ _ .remove rfl)).run (run_deferral (titled "demo" 0) demoDraft)
  have h₃ := (h₂.step (.close _)).step (.exit _ rfl rfl rfl rfl)
  have h := (ended_complete h₃ rfl (titled "demo" 0).id).2 .remove rfl
  exact ⟨rfl,((h.resolve_left (Option.some_ne_none demoDraft)).resolve_left Bool.false_ne_true).2⟩

end Synaps.Persist
