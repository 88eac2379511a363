import Synaps.Lib.Runs
import Synaps.Store.Save

/-!
Owners that continue sessions. Loading a session, following its compaction links,
the check for such a link and taking the lock are separate steps, so an owner keeps
another's turns only if it goes live with the lock of a session that is still as it
was loaded. `follow_compaction_chain` goes to the end of the links.
-/

set_option autoImplicit false

namespace Synaps.Continue

open Function

variable {Id Msg : Type}

/-- A stored session: its history, its `compacted_into` link, and the link in the
snapshot's header, which a save in journal mode leaves as it was. -/
structure File (Id Msg : Type) where
  history : List Msg
  link : Option Id
  header : Option Id

/-- The hosts that load a session before they lock it. -/
inductive Host where
  | create
  | boot
  deriving DecidableEq

inductive Phase (Id Msg : Type) where
  | idle
  | parked (lock : Option Id) (journal : Id)
  | loading (host : Host) (visited : List Id) (id : Id)
  | loaded (host : Host) (id : Id) (history : List Msg)
  | checked (host : Host) (id : Id) (history : List Msg)
  | unparking (lock : Option Id) (journal : Id)
  | restoring (lock : Option Id) (visited : List Id) (id : Id)
  | live (lock : Option Id) (id : Id) (history : List Msg)
  | succeeding (lock : Option Id) (id : Id) (history : List Msg) (next : Id) (summary : List Msg)
  | linked (lock : Option Id) (id : Id) (history : List Msg) (next : Id) (summary : List Msg)
  | moving (lock : Option Id) (next : Id) (summary : List Msg)

def Phase.lock : Phase Id Msg → Option Id
  | .parked lock _ => lock
  | .unparking lock _ => lock
  | .restoring lock _ _ => lock
  | .live lock _ _ => lock
  | .succeeding lock _ _ _ _ => lock
  | .linked lock _ _ _ _ => lock
  | .moving lock _ _ => lock
  | _ => none

def Phase.conv : Phase Id Msg → Option Id
  | .loaded _ id _ => some id
  | .checked _ id _ => some id
  | .live _ id _ => some id
  | .succeeding _ id _ _ _ => some id
  | .linked _ id _ _ _ => some id
  | .moving _ next _ => some next
  | _ => none

/-- The history last saved under an id, and whether a save ever linked it. -/
structure Saved (Msg : Type) where
  history : List Msg
  linked : Bool

/-- The session files, what was saved under each id by whoever, also if the file was
removed, and the owners. -/
structure State (Id Msg : Type) where
  store : Id → Option (File Id Msg)
  saved : Id → Option (Saved Msg)
  owners : Nat → Phase Id Msg

/-- The lock excludes: it is free if no owner holds it. -/
def State.Free (s : State Id Msg) (id : Id) : Prop := ∀ o, (s.owners o).lock ≠ some id

def State.set (s : State Id Msg) (o : Nat) (p : Phase Id Msg) : State Id Msg :=
  { s with owners := Function.update s.owners o p }

/-- What was last saved is continued by `history`, and no save linked the session. -/
def State.Open (s : State Id Msg) (id : Id) (history : List Msg) : Prop :=
  ∀ x, s.saved id = some x → x.history <+: history ∧ x.linked = false

variable {history : List Msg} {id : Id} {s : State Id Msg}

theorem not_linked (h : s.Open id history) : (s.saved id).any Saved.linked = false := by
  cases hx : s.saved id with
  | none => rfl
  | some x => exact (h x hx).2

theorem Open.append (h : s.Open id history) (more : List Msg) : s.Open id (history ++ more) := by
  intro f hf
  exact ⟨(h f hf).1.trans (List.prefix_append history more),(h f hf).2⟩

def Exclusive (s : State Id Msg) : Prop :=
  ∀ o o' id, (s.owners o).lock = some id → (s.owners o').lock = some id → o = o'

def Phase.Owns (p : Phase Id Msg) (s : State Id Msg) : Prop :=
  match p with
  | .live lock id history => lock = some id ∧ s.Open id history
  | .succeeding lock id history _ _ => lock = some id ∧ s.Open id history
  | _ => True

def Owned (s : State Id Msg) : Prop := ∀ o, (s.owners o).Owns s

variable {o : Nat} {p : Phase Id Msg} {t : State Id Msg}

theorem exclusive_set (h : Exclusive s) (ht : t.owners = update s.owners o p)
    (hp : ∀ id, p.lock = some id → (s.owners o).lock = some id ∨ s.Free id) : Exclusive t := by
  have hother : ∀ k id, k ≠ o → p.lock = some id → (s.owners k).lock ≠ some id := by
    intro k id hk hl hlk
    rcases hp id hl with ho | hf
    · exact hk (h k o id hlk ho)
    · exact hf k hlk
  intro j k id hj hk
  rw [ht] at hj hk
  by_cases hjo : j = o
  · by_cases hko : k = o
    · exact hjo.trans hko.symm
    · subst hjo
      rw [update_self] at hj
      rw [update_of_ne hko] at hk
      exact absurd hk (hother k id hko hj)
  · rw [update_of_ne hjo] at hj
    by_cases hko : k = o
    · subst hko
      rw [update_self] at hk
      exact absurd hj (hother j id hjo hk)
    · rw [update_of_ne hko] at hk
      exact h j k id hj hk

theorem exclusive_keep (h : Exclusive s) {q : Phase Id Msg} (ho : s.owners o = q)
    (ht : t.owners = update s.owners o p) (hp : p.lock = none ∨ p.lock = q.lock) :
    Exclusive t := by
  refine exclusive_set h ht (fun id hid => .inl ?_)
  rcases hp with hp | hp
  · rw [hp] at hid
    cases hid
  · rw [ho,← hp,hid]

theorem Owns.of_saved (h : p.Owns s)
    (hst : ∀ id, p.lock = some id → p.conv = some id → t.saved id = s.saved id) : p.Owns t := by
  have hopen : ∀ id history, p.lock = some id → p.conv = some id → s.Open id history →
      t.Open id history := by
    intro id history hl hc ho x hx
    exact ho x (hst id hl hc ▸ hx)
  cases p with
  | live lock id history | succeeding lock id history next summary =>
      exact ⟨h.1,hopen id history h.1 rfl h.2⟩
  | _ => trivial

theorem owned_change (h : Owned s) (ht : t.owners = update s.owners o p)
    (hst : ∀ k id, k ≠ o → (s.owners k).lock = some id → (s.owners k).conv = some id →
      t.saved id = s.saved id)
    (hp : p.Owns t) : Owned t := by
  intro k
  rw [ht]
  by_cases hk : k = o
  · subst hk
    rwa [update_self]
  · rw [update_of_ne hk]
    exact Owns.of_saved (h k) (fun id => hst k id hk)

theorem owned_set (h : Owned s) (hp : p.Owns s) : Owned (s.set o p) :=
  owned_change h rfl (fun _ _ _ _ _ => rfl) (Owns.of_saved hp (fun _ _ _ => rfl))

variable [DecidableEq Id]

/-- Save a history with a link; `full` if the save writes a snapshot. -/
def State.write (s : State Id Msg) (id : Id) (history : List Msg) (link : Option Id)
    (full : Bool) : State Id Msg :=
  let header := if full then link else (s.store id).bind File.header
  let linked := link.isSome || (s.saved id).any Saved.linked
  { s with
    store := Function.update s.store id (some ⟨history,link,header⟩)
    saved := Function.update s.saved id (some ⟨history,linked⟩) }

def State.delete (s : State Id Msg) (id : Id) : State Id Msg :=
  { s with store := Function.update s.store id none }

def maxCompactionHops : Nat := 32

/-- Where to go from a loaded file: nowhere, to its successor, or to an error. -/
def follow (visited : List Id) (link : Option Id) : Except Unit (Option (List Id × Id)) :=
  match link with
  | none => .ok none
  | some next =>
    if next ∈ visited then .error ()
    else if maxCompactionHops < (next :: visited).length then .error ()
    else .ok (some (next :: visited,next))

/-- What a host does when `try_acquire` finds a `compacted_into` link: `create` goes on
without a lock, the boot hosts refuse. -/
def Host.onCompacted (host : Host) (id : Id) (history : List Msg) : Phase Id Msg :=
  match host with
  | .create => .live none id history
  | .boot => .idle

inductive Action (Id Msg : Type) where
  | start (o : Nat) (host : Host) (id : Id)
  | load (o : Nat)
  | check (o : Nat)
  | lock (o : Nat)
  | lockFailed (o : Nat)
  | save (o : Nat) (id : Id) (history : List Msg)
  | saveSuccessor (o : Nat) (next : Id) (summary : List Msg)
  | saveParent (o : Nat) (id : Id) (history : List Msg) (next : Id)
  | rollback (o : Nat)
  | restore (o : Nat) (id : Id) (history : List Msg)
  | park (o : Nat)
  | stop (o : Nat)

def Action.saved : Action Id Msg → Option (Id × List Msg × Option Id)
  | .save _ id history => some (id,history,none)
  | .saveSuccessor _ next summary => some (next,summary,none)
  | .saveParent _ id history next => some (id,history,some next)
  | .restore _ id history => some (id,history,none)
  | _ => none

def State.Fresh (s : State Id Msg) (id : Id) : Prop :=
  s.saved id = none ∧ ∀ o, (s.owners o).conv ≠ some id

def State.header (s : State Id Msg) (id : Id) : Option Id := (s.store id).bind File.header

inductive Step (s : State Id Msg) : Action Id Msg → State Id Msg → Prop
  | start (o : Nat) (host : Host) (id : Id) (ho : s.owners o = .idle) :
      Step s (.start o host id) (s.set o (.loading host [id] id))
  | load (o : Nat) (host : Host) (visited : List Id) (id : Id) (f : File Id Msg)
      (ho : s.owners o = .loading host visited id) (hf : s.store id = some f)
      (hl : follow visited f.link = .ok none) :
      Step s (.load o) (s.set o (.loaded host id f.history))
  | loadNext (o : Nat) (host : Host) (visited : List Id) (id : Id) (f : File Id Msg)
      (visited' : List Id) (next : Id) (ho : s.owners o = .loading host visited id)
      (hf : s.store id = some f) (hl : follow visited f.link = .ok (some (visited',next))) :
      Step s (.load o) (s.set o (.loading host visited' next))
  | loadError (o : Nat) (host : Host) (visited : List Id) (id : Id)
      (ho : s.owners o = .loading host visited id) : Step s (.load o) (s.set o .idle)
  | check (o : Nat) (host : Host) (id : Id) (history : List Msg)
      (ho : s.owners o = .loaded host id history) (hl : s.header id = none) :
      Step s (.check o) (s.set o (.checked host id history))
  | checkCompacted (o : Nat) (host : Host) (id : Id) (history : List Msg)
      (ho : s.owners o = .loaded host id history) (hl : s.header id ≠ none) :
      Step s (.check o) (s.set o (host.onCompacted id history))
  | lock (o : Nat) (host : Host) (id : Id) (history : List Msg)
      (ho : s.owners o = .checked host id history) (hf : s.Free id) :
      Step s (.lock o) (s.set o (.live (some id) id history))
  | lockHeld (o : Nat) (host : Host) (id : Id) (history : List Msg)
      (ho : s.owners o = .checked host id history) (hf : ¬s.Free id) :
      Step s (.lock o) (s.set o .idle)
  | lockFailed (o : Nat) (host : Host) (id : Id) (history : List Msg)
      (ho : s.owners o = .checked host id history) :
      Step s (.lockFailed o) (s.set o (.live none id history))
  | unparkCheck (o : Nat) (lock : Option Id) (journal : Id)
      (ho : s.owners o = .parked lock journal) (hl : s.header journal = none) :
      Step s (.check o) (s.set o (.unparking lock journal))
  | unparkCompacted (o : Nat) (lock : Option Id) (journal : Id)
      (ho : s.owners o = .parked lock journal) (hl : s.header journal ≠ none) :
      Step s (.check o) (s.set o (.restoring lock [journal] journal))
  | unparkLock (o : Nat) (lock : Option Id) (journal : Id)
      (ho : s.owners o = .unparking lock journal) (hf : s.Free journal) :
      Step s (.lock o) (s.set o (.restoring (some journal) [journal] journal))
  | unparkHeld (o : Nat) (lock : Option Id) (journal : Id)
      (ho : s.owners o = .unparking lock journal) (hf : ¬s.Free journal) :
      Step s (.lock o) (s.set o (.parked lock journal))
  | unparkLockFailed (o : Nat) (lock : Option Id) (journal : Id)
      (ho : s.owners o = .unparking lock journal) :
      Step s (.lockFailed o) (s.set o (.restoring lock [journal] journal))
  | unparkLoad (o : Nat) (lock : Option Id) (visited : List Id) (id : Id) (f : File Id Msg)
      (ho : s.owners o = .restoring lock visited id) (hf : s.store id = some f)
      (hl : follow visited f.link = .ok none) :
      Step s (.load o) (s.set o (.live lock id f.history))
  | unparkNext (o : Nat) (lock : Option Id) (visited : List Id) (id : Id) (f : File Id Msg)
      (visited' : List Id) (next : Id) (ho : s.owners o = .restoring lock visited id)
      (hf : s.store id = some f) (hl : follow visited f.link = .ok (some (visited',next))) :
      Step s (.load o) (s.set o (.restoring lock visited' next))
  | unparkMissing (o : Nat) (lock : Option Id) (id : Id)
      (ho : s.owners o = .restoring lock [id] id) (hf : s.store id = none) :
      Step s (.load o) (s.set o (.live lock id []))
  | unparkError (o : Nat) (lock : Option Id) (journal : Id) (visited : List Id) (id : Id)
      (ho : s.owners o = .restoring lock visited id) (hj : visited.getLast? = some journal) :
      Step s (.load o) (s.set o (.parked lock journal))
  | save (o : Nat) (lock : Option Id) (id : Id) (history more : List Msg) (full : Bool)
      (ho : s.owners o = .live lock id history) :
      Step s (.save o id (history ++ more))
        ((s.write id (history ++ more) none full).set o (.live lock id (history ++ more)))
  | saveSuccessor (o : Nat) (lock : Option Id) (id : Id) (history : List Msg) (next : Id)
      (summary : List Msg) (ho : s.owners o = .live lock id history) (hn : s.Fresh next) :
      Step s (.saveSuccessor o next summary)
        ((s.write next summary none true).set o (.succeeding lock id history next summary))
  | saveParent (o : Nat) (lock : Option Id) (id : Id) (history : List Msg) (next : Id)
      (summary : List Msg) (full : Bool) (ho : s.owners o = .succeeding lock id history next summary) :
      Step s (.saveParent o id history next)
        ((s.write id history (some next) full).set o (.linked lock id history next summary))
  | rollback (o : Nat) (lock : Option Id) (id : Id) (history : List Msg) (next : Id)
      (summary : List Msg) (ho : s.owners o = .succeeding lock id history next summary) :
      Step s (.rollback o) ((s.delete next).set o (.live lock id history))
  | restore (o : Nat) (lock : Option Id) (id : Id) (history : List Msg) (next : Id)
      (summary : List Msg) (full : Bool) (ho : s.owners o = .linked lock id history next summary) :
      Step s (.restore o id history)
        (((s.write id history none full).delete next).set o (.live lock id history))
  | follow (o : Nat) (lock : Option Id) (id : Id) (history : List Msg) (next : Id)
      (summary : List Msg) (ho : s.owners o = .linked lock id history next summary)
      (hl : s.header next = none) : Step s (.check o) (s.set o (.moving lock next summary))
  | followCompacted (o : Nat) (lock : Option Id) (id : Id) (history : List Msg) (next : Id)
      (summary : List Msg) (ho : s.owners o = .linked lock id history next summary)
      (hl : s.header next ≠ none) : Step s (.check o) (s.set o (.live none next summary))
  | move (o : Nat) (lock : Option Id) (next : Id) (summary : List Msg)
      (ho : s.owners o = .moving lock next summary) (hf : s.Free next) :
      Step s (.lock o) (s.set o (.live (some next) next summary))
  | moveHeld (o : Nat) (lock : Option Id) (next : Id) (summary : List Msg)
      (ho : s.owners o = .moving lock next summary) (hf : ¬s.Free next) :
      Step s (.lock o) (s.set o (.live none next summary))
  | moveFailed (o : Nat) (lock : Option Id) (next : Id) (summary : List Msg)
      (ho : s.owners o = .moving lock next summary) :
      Step s (.lockFailed o) (s.set o (.live none next summary))
  | park (o : Nat) (lock : Option Id) (id : Id) (history : List Msg)
      (ho : s.owners o = .live lock id history) : Step s (.park o) (s.set o (.parked none id))
  | stop (o : Nat) : Step s (.stop o) (s.set o .idle)

def Stored (s : State Id Msg) : Prop :=
  ∀ id f, s.store id = some f → s.saved id = some ⟨f.history,f.link.isSome⟩

def Init (s : State Id Msg) : Prop :=
  Stored s ∧ ∀ o, s.owners o = .idle ∨ ∃ journal, s.owners o = .parked none journal

/-- What is saved continues what was last saved under the id, which no save linked. -/
def Continues (s : State Id Msg) (a : Action Id Msg) : Prop :=
  ∀ id history link, a.saved = some (id,history,link) → s.Open id history

/-- An owner goes on with a session only if it has the lock of that session and continues
what was last saved; and no advance of a chain is undone. -/
def Owning (s : State Id Msg) : Action Id Msg → Prop
  | .check o => (∀ id history, s.owners o = .loaded .create id history → s.header id = none) ∧
      ∀ lock id history next summary, s.owners o = .linked lock id history next summary →
        s.header next = none
  | .lock o => (∀ host id history, s.owners o = .checked host id history → s.Open id history) ∧
      ∀ lock next summary, s.owners o = .moving lock next summary →
        s.Free next ∧ s.Open next summary
  | .lockFailed o => ∃ lock journal, s.owners o = .unparking lock journal
  | .load o => ∀ lock visited id, s.owners o = .restoring lock visited id →
      lock = some id ∧ s.store id ≠ none
  | .restore .. => False
  | _ => True

theorem link_none_of_follow {visited : List Id} {link : Option Id}
    (h : follow visited link = .ok none) : link = none := by
  cases link with
  | none => rfl
  | some next =>
    simp only [follow] at h
    split at h
    · cases h
    · split at h <;> cases h

variable {a : Action Id Msg}

theorem exclusive_step (h : Exclusive s) (hst : Step s a t) : Exclusive t := by
  cases hst with
  | checkCompacted o host id history ho =>
    exact exclusive_keep h ho rfl (.inl (by cases host <;> rfl))
  | lock o host id history ho hf | unparkLock o lock journal ho hf
  | move o lock next summary ho hf =>
    exact exclusive_set h rfl (fun n hn => .inr (Option.some.inj hn ▸ hf))
  | stop o => exact exclusive_keep h rfl rfl (.inl rfl)
  -- every other step drops the lock or keeps it
  | _ => exact exclusive_keep h (by assumption) rfl (by simp [Phase.lock])

theorem saved_write (s : State Id Msg) (h : s.Open id history) (history' : List Msg)
    (link : Option Id) (full : Bool) :
    (s.write id history' link full).saved id = some ⟨history',link.isSome⟩ := by
  simp [State.write,not_linked h]

theorem saved_write_of_ne (s : State Id Msg) {id' : Id} (hne : id' ≠ id) (history : List Msg)
    (link : Option Id) (full : Bool) : (s.write id history link full).saved id' = s.saved id' := by
  simp [State.write,hne]

theorem open_write (h : s.Open id history) (history' : List Msg) (full : Bool) :
    (s.write id history' none full).Open id history' := by
  intro x hx
  cases (saved_write s h history' none full).symm.trans hx
  exact ⟨List.prefix_rfl,rfl⟩

theorem owned_write (he : Exclusive s) (h : Owned s) (hl : (s.owners o).lock = some id)
    {link : Option Id} {full : Bool} (hp : p.Owns (s.write id history link full)) :
    Owned ((s.write id history link full).set o p) := by
  refine owned_change h rfl ?_ (Owns.of_saved hp (fun _ _ _ => rfl))
  intro k id' hk hlk _
  refine saved_write_of_ne s ?_ history link full
  rintro rfl
  exact hk (he k o id' hlk hl)

theorem stored_write (h : Stored s) (ho : s.Open id history) (history' : List Msg)
    (link : Option Id) (full : Bool) : Stored (s.write id history' link full) := by
  intro id' f hf
  by_cases hid : id' = id
  · subst hid
    rw [saved_write s ho]
    simp only [State.write,update_self,Option.some.injEq] at hf
    rw [← hf]
  · rw [saved_write_of_ne s hid]
    exact h id' f (by simpa [State.write,hid] using hf)

theorem stored_delete (h : Stored s) (id : Id) : Stored (s.delete id) := by
  intro id' f hf
  by_cases hid : id' = id
  · simp [State.delete,hid] at hf
  · exact h id' f (by simpa [State.delete,hid] using hf)

theorem owned_step (he : Exclusive s) (hs : Stored s) (h : Owned s) (ha : Owning s a)
    (hst : Step s a t) : Owned t := by
  cases hst with
  | checkCompacted o host id history ho hl =>
    cases host with
    | create => exact absurd (ha.1 id history ho) hl
    | boot => exact owned_set h trivial
  | lock o host id history ho hf => exact owned_set h ⟨rfl,ha.1 host id history ho⟩
  | lockFailed o host id history ho | moveFailed o lock next summary ho =>
    obtain ⟨lock,journal,hu⟩ := ha
    cases ho.symm.trans hu
  | unparkLoad o lock visited id f ho hf hl =>
    refine owned_set h ⟨(ha lock visited id ho).1,fun x hx => ?_⟩
    cases (hs id f hf).symm.trans hx
    exact ⟨List.prefix_rfl,by rw [link_none_of_follow hl]; rfl⟩
  | unparkMissing o lock id ho hf =>
    exact absurd hf (ha lock [id] id ho).2
  | save o lock id history more full ho =>
    have howns : (Phase.live lock id history).Owns s := ho ▸ h o
    exact owned_write he h (ho ▸ howns.1) ⟨howns.1,open_write howns.2 (history ++ more) full⟩
  | saveSuccessor o lock id history next summary ho hn =>
    have howns : (Phase.live lock id history).Owns s := ho ▸ h o
    have hst : ∀ k id', (s.owners k).conv = some id' →
        (s.write next summary none true).saved id' = s.saved id' := by
      intro k id' hc
      refine saved_write_of_ne s ?_ summary none true
      rintro rfl
      exact hn.2 k hc
    refine owned_change h rfl (fun k id' _ _ hc => hst k id' hc) ⟨howns.1,?_⟩
    intro x hx
    exact howns.2 x ((hst o id (by rw [ho]; rfl)).symm.trans hx)
  | saveParent o lock id history next summary full ho =>
    have hl : lock = some id := (ho ▸ h o : (Phase.succeeding lock id history next summary).Owns s).1
    exact owned_write he h (ho ▸ hl) trivial
  | rollback o lock id history next summary ho =>
    have howns : (Phase.succeeding lock id history next summary).Owns s := ho ▸ h o
    exact owned_change h rfl (fun _ _ _ _ _ => rfl) howns
  | restore => exact ha.elim
  | followCompacted o lock id history next summary ho hl =>
    exact absurd (ha.2 lock id history next summary ho) hl
  | move o lock next summary ho hf => exact owned_set h ⟨rfl,(ha.2 lock next summary ho).2⟩
  | moveHeld o lock next summary ho hf => exact absurd (ha.2 lock next summary ho).1 hf
  | _ => exact owned_set h trivial

theorem stored_step (hs : Stored s) (h : Owned s) (ha : Owning s a) (hst : Step s a t) :
    Stored t := by
  cases hst with
  | save o lock id history more full ho =>
    have howns : (Phase.live lock id history).Owns s := ho ▸ h o
    exact stored_write hs howns.2 (history ++ more) none full
  | saveSuccessor o lock id history next summary ho hn =>
    have hopen : s.Open next summary := by
      intro x hx
      rw [hn.1] at hx
      cases hx
    exact stored_write hs hopen summary none true
  | saveParent o lock id history next summary full ho =>
    have howns : (Phase.succeeding lock id history next summary).Owns s := ho ▸ h o
    exact stored_write hs howns.2 history (some next) full
  | rollback o lock id history next summary ho => exact stored_delete hs next
  | restore => exact ha.elim
  | _ => exact hs

theorem owning_invariant (hs : Runs.Reachable Init (Runs.Under Step Owning) s) :
    Exclusive s ∧ Stored s ∧ Owned s := by
  refine hs.invariant (fun s => Exclusive s ∧ Stored s ∧ Owned s) ?_ ?_
  · rintro s ⟨hstored,h⟩
    have hl : ∀ o, (s.owners o).lock = none := by
      intro o
      rcases h o with ho | ⟨journal,ho⟩ <;> rw [ho] <;> rfl
    refine ⟨fun o _ id ho => ?_,hstored,fun o => ?_⟩
    · rw [hl] at ho
      cases ho
    · rcases h o with ho | ⟨journal,ho⟩ <;> rw [ho] <;> trivial
  · rintro a b ⟨he,hs,h⟩ ⟨act,hact,hab⟩
    exact ⟨exclusive_step he hab,stored_step hs h hact hab,owned_step he hs h hact hab⟩

/-- In a run in which every owner goes on only with the lock of a session of which it
continues the last save, every save continues the last one. -/
theorem save_continues {s t : State Id Msg} {a : Action Id Msg}
    (hs : Runs.Reachable Init (Runs.Under Step Owning) s) (ha : Owning s a) (hst : Step s a t) :
    Continues s a := by
  have h := (owning_invariant hs).2.2
  cases hst with
  | save o lock id history more full ho =>
    have howns : (Phase.live lock id history).Owns s := ho ▸ h o
    rintro _ _ _ ⟨⟩
    exact Open.append howns.2 more
  | saveSuccessor o lock id history next summary ho hn =>
    rintro _ _ _ ⟨⟩ f hf
    rw [hn.1] at hf
    cases hf
  | saveParent o lock id history next summary full ho =>
    have howns : (Phase.succeeding lock id history next summary).Owns s := ho ▸ h o
    rintro _ _ _ ⟨⟩
    exact howns.2
  | restore => exact ha.elim
  | _ => rintro _ _ _ ⟨⟩

def oneSession : State Nat Nat where
  store id := if id = 0 then some ⟨[0],none,none⟩ else none
  saved id := if id = 0 then some ⟨[0],false⟩ else none
  owners _ := .idle

theorem init_oneSession : Init oneSession := by
  refine ⟨fun id f hf => ?_,fun _ => .inl rfl⟩
  by_cases hid : id = 0
  · subst hid
    cases hf
    rfl
  · simp [oneSession,hid] at hf

def taken (s : State Nat Nat) (o : Nat) : State Nat Nat :=
  (((s.set o (.loading .create [0] 0)).set o (.loaded .create 0 [0])).set o
    (.checked .create 0 [0])).set o (.live (some 0) 0 [0])

def loadedFirst : State Nat Nat :=
  (oneSession.set 0 (.loading .create [0] 0)).set 0 (.loaded .create 0 [0])

theorem reach_loadedFirst : Runs.Reachable Init (Runs.Next Step) loadedFirst := by
  have h₀ : Runs.Reachable Init (Runs.Next Step) oneSession := .init init_oneSession
  have h₁ := h₀.step ⟨_,.start 0 .create 0 rfl⟩
  exact h₁.step ⟨_,.load 0 .create [0] 0 ⟨[0],none,none⟩ rfl rfl rfl⟩

theorem reach_takenSecond : Runs.Reachable Init (Runs.Next Step) (taken loadedFirst 1) := by
  have h₁ := reach_loadedFirst.step ⟨_,.start 1 .create 0 rfl⟩
  have h₂ := h₁.step ⟨_,.load 1 .create [0] 0 ⟨[0],none,none⟩ rfl rfl rfl⟩
  have h₃ := h₂.step ⟨_,.check 1 .create 0 [0] rfl rfl⟩
  refine h₃.step ⟨_,.lock 1 .create 0 [0] rfl (fun o => ?_)⟩
  by_cases h0 : o = 0 <;> by_cases h1 : o = 1 <;>
    simp [loadedFirst,oneSession,State.set,update,Phase.lock,h0,h1]

theorem reach_linkedSecond : ∃ s, Runs.Reachable Init (Runs.Next Step) s ∧
    s.owners 0 = .loaded .create 0 [0] ∧ s.header 0 = some 1 ∧ s.saved 0 = some ⟨[0],true⟩ := by
  have hfresh : (taken loadedFirst 1).Fresh 1 := by
    refine ⟨rfl,fun o => ?_⟩
    by_cases h0 : o = 0 <;> by_cases h1 : o = 1 <;>
      simp [taken,loadedFirst,oneSession,State.set,update,Phase.conv,h0,h1]
  have h₁ := reach_takenSecond.step ⟨_,.saveSuccessor 1 (some 0) 0 [0] 1 [9] rfl hfresh⟩
  have h₂ := h₁.step ⟨_,.saveParent 1 (some 0) 0 [0] 1 [9] true rfl⟩
  exact ⟨_,h₂.step ⟨_,.stop 1⟩,rfl,rfl,rfl⟩

/-- A session that was loaded before another owner saved and released it is locked, and
its save drops the other's turns; and one that the other linked to a successor is saved
without a lock. -/
theorem save_forgets : (∃ s t, Runs.Reachable Init (Runs.Next Step) s ∧
      Step s (.save 0 0 [0,2]) t ∧ s.saved 0 = some ⟨[0,1],false⟩) ∧
    ∃ s t, Runs.Reachable Init (Runs.Next Step) s ∧
      Step s (.save 0 0 [0,2]) t ∧ s.saved 0 = some ⟨[0],true⟩ := by
  refine ⟨?_,?_⟩
  · have h₁ := reach_takenSecond.step ⟨_,.save 1 (some 0) 0 [0] [1] false rfl⟩
    have h₂ := h₁.step ⟨_,.stop 1⟩
    have h₃ := h₂.step ⟨_,.check 0 .create 0 [0] rfl rfl⟩
    refine ⟨_,_,h₃.step ⟨_,.lock 0 .create 0 [0] rfl (fun o => ?_)⟩,
      .save 0 (some 0) 0 [0] [2] false rfl,rfl⟩
    by_cases h0 : o = 0 <;> by_cases h1 : o = 1 <;>
      simp [taken,loadedFirst,oneSession,State.set,State.write,update,Phase.lock,h0,h1]
  · obtain ⟨s,h₁,ho,hl,hx⟩ := reach_linkedSecond
    have h₂ := h₁.step ⟨_,.checkCompacted 0 .create 0 [0] ho (by simp [hl])⟩
    exact ⟨_,_,h₂,.save 0 none 0 [0] [2] false (by simp [State.set,Host.onCompacted]),hx⟩

theorem reach_taken {s : State Nat Nat} {history : List Nat} (o : Nat)
    (h : Runs.Reachable Init (Runs.Under Step Owning) s) (ho : s.owners o = .idle)
    (hstore : s.store 0 = some ⟨history,none,none⟩) (hsaved : s.saved 0 = some ⟨history,false⟩)
    (hfree : s.Free 0) :
    Runs.Reachable Init (Runs.Under Step Owning) (s.set o (.live (some 0) 0 history)) := by
  have h₁ := h.step ⟨.start o .create 0,trivial,.start o .create 0 ho⟩
  have h₂ := h₁.step ⟨.load o,by simp [Owning,State.set],
    .load o .create [0] 0 ⟨history,none,none⟩ (by simp [State.set]) hstore rfl⟩
  have h₃ := h₂.step ⟨.check o,by simp [Owning,State.set,State.header,hstore],
    .check o .create 0 history (by simp [State.set]) (by simp [State.set,State.header,hstore])⟩
  have h₄ := h₃.step ⟨.lock o,by simp [Owning,State.set,State.Open,hsaved],
    .lock o .create 0 history (by simp [State.set]) (fun k => ?_)⟩
  · simpa [State.set] using h₄
  · by_cases hk : k = o
    · simp [State.set,Phase.lock,hk]
    · simpa [State.set,hk] using hfree k

/-- One owner takes the session, saves it and parks; another one takes it then and goes on. -/
theorem save_continues_taken : ∃ s t, s.owners 0 = .parked none 0 ∧ s.saved 0 = some ⟨[0,1],false⟩ ∧
    Step s (.save 1 0 [0,1,2]) t ∧ Continues s (.save 1 0 [0,1,2]) := by
  have h₁ := reach_taken 0 (.init init_oneSession) rfl rfl rfl
    (fun o => by simp [oneSession,Phase.lock])
  have h₂ := h₁.step ⟨.save 0 0 [0,1],trivial,.save 0 (some 0) 0 [0] [1] false rfl⟩
  have h₃ := h₂.step ⟨.park 0,trivial,.park 0 (some 0) 0 [0,1] rfl⟩
  have h₄ := reach_taken 1 h₃ rfl rfl rfl (fun o => by
    by_cases h0 : o = 0 <;> simp [oneSession,State.set,State.write,Phase.lock,h0])
  have hst {s : State Nat Nat} (hs : s.owners 1 = .live (some 0) 0 [0,1]) :=
    Step.save 1 (some 0) 0 [0,1] [2] false hs
  exact ⟨_,_,rfl,rfl,hst rfl,save_continues h₄ trivial (hst rfl)⟩

end Synaps.Continue

namespace Synaps.Chain

open List

open Store (Session titled)
open Synaps.Continue (maxCompactionHops)

structure IoError (κ : Type) where
  kind : κ
  message : String

structure ResolvedSession where
  session : Session
  compactionNotice : Option String

variable {κ : Type} (invalidData : κ) (load : String → Except (IoError κ) Session)

def followLinks (original : String) (visited : List String) (current : Session) :
    Except (IoError κ) Session :=
  match current.compactedInto with
  | none => .ok current
  | some succ =>
    if succ ∈ visited then
      .error ⟨invalidData,"compaction cycle detected: session " ++ current.id ++
        " loops back to " ++ succ⟩
    else if maxCompactionHops < (succ :: visited).length then
      .error ⟨invalidData,"compaction chain too long (>" ++ toString maxCompactionHops ++
        " hops) starting from " ++ original⟩
    else
      match load succ with
      | .error e => .error ⟨e.kind,"session " ++ current.id ++ " was compacted into " ++ succ ++
          ", but the successor failed to load: " ++ e.message⟩
      | .ok next => followLinks original (succ :: visited) next
termination_by maxCompactionHops - visited.length
decreasing_by simp_all only [List.length_cons]; omega

def notice (original final : String) : String :=
  original ++ " was compacted into " ++ final ++ " — continuing there"

def followCompactionChain (session : Session) : Except (IoError κ) ResolvedSession :=
  if session.compactedInto = none then .ok ⟨session,none⟩
  else
    (followLinks invalidData load session.id [session.id] session).map fun current =>
      ⟨current,some (notice session.id current.id)⟩

/-- The links from `s` go through the sessions `ids`, all of which load, to the link-free `u`. -/
def Leads (s : Session) : List String → Session → Prop
  | [],u => s.compactedInto = none ∧ u = s
  | id :: ids,u => s.compactedInto = some id ∧ ∃ t, load id = .ok t ∧ Leads t ids u

def Acyclic (s : Session) (ids : List String) (u : Session) : Prop :=
  Leads load s ids u ∧ (s.id :: ids).Nodup

def resolved (s : Session) (ids : List String) (u : Session) : ResolvedSession :=
  ⟨u,if ids = [] then none else some (notice s.id u.id)⟩

variable {load} {s u : Session} {ids : List String}

theorem Leads.unique {ids' : List String} {u' : Session} (h : Leads load s ids u)
    (h' : Leads load s ids' u') : ids = ids' ∧ u = u' := by
  induction ids generalizing s ids' with
  | nil =>
    cases ids' with
    | nil => exact ⟨rfl,h.2.trans h'.2.symm⟩
    | cons => cases h.1.symm.trans h'.1
  | cons id ids ih =>
    cases ids' with
    | nil => cases h.1.symm.trans h'.1
    | cons =>
      cases h.1.symm.trans h'.1
      obtain ⟨t,ht,hl⟩ := h.2
      obtain ⟨t',ht',hl'⟩ := h'.2
      cases ht.symm.trans ht'
      obtain ⟨rfl,hu⟩ := ih hl hl'
      exact ⟨rfl,hu⟩

theorem leads_linked {id : String} (h : s.compactedInto = some id) :
    Leads load s ids u ↔ ∃ rest t, ids = id :: rest ∧ load id = .ok t ∧ Leads load t rest u := by
  cases ids with
  | nil => simp [Leads,h]
  | cons id' ids =>
    simp only [Leads,h,Option.some.injEq,cons.injEq]
    constructor
    · rintro ⟨rfl,t,ht,hl⟩
      exact ⟨ids,t,⟨rfl,rfl⟩,ht,hl⟩
    · rintro ⟨_,t,⟨rfl,rfl⟩,ht,hl⟩
      exact ⟨rfl,t,ht,hl⟩

variable {original : String} {visited : List String}

theorem followLinks_ok (hv : visited.length ≤ maxCompactionHops) :
    followLinks invalidData load original visited s = .ok u ↔
      ∃ ids, Leads load s ids u ∧ ids.Nodup ∧ ids.Disjoint visited ∧
        visited.length + ids.length ≤ maxCompactionHops := by
  fun_induction followLinks invalidData load original visited s with
  | case1 visited s hn =>
    constructor
    · rintro ⟨⟩
      exact ⟨[],⟨hn,rfl⟩,.nil,disjoint_nil_left _,hv⟩
    · rintro ⟨_ | ⟨id,ids⟩,hl,-⟩
      · rw [hl.2]
      · cases hn.symm.trans hl.1
  | case2 visited s succ hs hmem =>
    simp only [leads_linked hs,reduceCtorEq,false_iff]
    rintro ⟨_,⟨rest,t,rfl,-⟩,-,hd,-⟩
    exact hd mem_cons_self hmem
  | case3 visited s succ hs _ hlong =>
    simp only [leads_linked hs,reduceCtorEq,false_iff]
    rintro ⟨_,⟨rest,t,rfl,-⟩,-,-,hle⟩
    simp only [length_cons] at hle hlong
    omega
  | case4 visited s succ hs _ _ e he =>
    simp only [leads_linked hs,reduceCtorEq,false_iff]
    rintro ⟨_,⟨rest,t,-,ht,-⟩,-⟩
    cases he.symm.trans ht
  | case5 visited s succ hs hmem hshort t ht ih =>
    rw [ih (Nat.le_of_not_lt hshort)]
    simp only [leads_linked hs,length_cons,disjoint_cons_right]
    constructor
    · rintro ⟨rest,hl,hn,⟨hnew,hd⟩,hle⟩
      exact ⟨_,⟨rest,t,rfl,ht,hl⟩,nodup_cons.mpr ⟨hnew,hn⟩,disjoint_cons_left.mpr ⟨hmem,hd⟩,by
        rw [length_cons]; omega⟩
    · rintro ⟨_,⟨rest,t',rfl,ht',hl⟩,hn,hd,hle⟩
      cases ht.symm.trans ht'
      rw [length_cons] at hle
      exact ⟨rest,hl,hn.of_cons,⟨(nodup_cons.mp hn).1,(disjoint_cons_left.mp hd).2⟩,by omega⟩

theorem followCompactionChain_ok {r : ResolvedSession} :
    followCompactionChain invalidData load s = .ok r ↔
      ∃ ids u, Acyclic load s ids u ∧ ids.length < maxCompactionHops ∧ r = resolved s ids u := by
  unfold followCompactionChain
  split
  · rename_i hn
    constructor
    · rintro ⟨⟩
      exact ⟨[],s,⟨⟨hn,rfl⟩,nodup_singleton _⟩,by decide,rfl⟩
    · rintro ⟨_ | ⟨id,ids⟩,u,hc,-,rfl⟩
      · rw [hc.1.2]
        rfl
      · cases hn.symm.trans hc.1.1
  · rename_i hlinked
    have hne : ∀ {ids u}, Leads load s ids u → ids ≠ [] := by
      rintro _ u hl rfl
      exact hlinked hl.1
    have hloop (u : Session) := @followLinks_ok κ invalidData load s u s.id [s.id] (by
      simp [maxCompactionHops])
    cases hf : followLinks invalidData load s.id [s.id] s with
    | error e =>
      simp only [hf,reduceCtorEq,false_iff,not_exists] at hloop
      simp only [Except.map,reduceCtorEq,false_iff]
      rintro ⟨ids,u,⟨hl,hn⟩,hlt,-⟩
      obtain ⟨hnew,hn⟩ := nodup_cons.mp hn
      exact hloop u ids ⟨hl,hn,disjoint_singleton.mpr hnew,by
        rw [length_singleton]; omega⟩
    | ok u =>
      obtain ⟨ids,hl,hn,hd,hle⟩ := (hloop u).mp hf
      rw [length_singleton] at hle
      have hc : Acyclic load s ids u :=
        ⟨hl,nodup_cons.mpr ⟨disjoint_singleton.mp hd,hn⟩⟩
      have hr : ⟨u,some (notice s.id u.id)⟩ = resolved s ids u := by rw [resolved,if_neg (hne hl)]
      simp only [Except.map,hr,Except.ok.injEq]
      constructor
      · rintro rfl
        exact ⟨ids,u,hc,by omega,rfl⟩
      · rintro ⟨ids',u',hc',-,rfl⟩
        obtain ⟨rfl,rfl⟩ := hc.1.unique hc'.1
        rfl

/-- Every start has at most one link-free end, and the chain is followed exactly if it is
acyclic, loads and has at most `maxCompactionHops` hops. -/
def FollowsChain (load : String → Except (IoError κ) Session) (s : Session) : Prop :=
  (∀ ids u ids' u', Leads load s ids u → Leads load s ids' u' → ids = ids' ∧ u = u') ∧
    ∀ r, followCompactionChain invalidData load s = .ok r ↔
      ∃ ids u, Acyclic load s ids u ∧ ids.length ≤ maxCompactionHops ∧ r = resolved s ids u

/-- The visited set counts the start, so a chain of just `maxCompactionHops` hops is refused. -/
theorem followsChain_iff (load : String → Except (IoError κ) Session) (s : Session) :
    FollowsChain invalidData load s ↔
      ¬ ∃ ids u, Acyclic load s ids u ∧ ids.length = maxCompactionHops := by
  constructor
  · rintro ⟨-,h⟩ ⟨ids,u,hc,hlen⟩
    obtain ⟨ids',u',hc',hlt,-⟩ := (followCompactionChain_ok invalidData).mp
      ((h (resolved s ids u)).mpr ⟨ids,u,hc,hlen.le,rfl⟩)
    obtain ⟨rfl,-⟩ := hc.1.unique hc'.1
    exact hlt.ne hlen
  · refine fun h => ⟨fun ids u ids' u' => Leads.unique,fun r => ?_⟩
    rw [followCompactionChain_ok]
    constructor
    · rintro ⟨ids,u,hc,hlt,hr⟩
      exact ⟨ids,u,hc,hlt.le,hr⟩
    · rintro ⟨ids,u,hc,hle,hr⟩
      exact ⟨ids,u,hc,lt_of_le_of_ne hle fun he => h ⟨ids,u,hc,he⟩,hr⟩

def name (n : Nat) : String := String.ofList (List.replicate n 'a')

def linked (n : Nat) : Session :=
  { titled "demo" 0 with
    id := name n
    compactedInto := if n < maxCompactionHops then some (name (n + 1)) else none }

def loadLinked (id : String) : Except (IoError Unit) Session := .ok (linked id.length)

theorem length_name (n : Nat) : (name n).length = n := by
  simp [name]

theorem leads_last (k : Nat) : ∀ n, n + k = maxCompactionHops →
    Leads loadLinked (linked n) ((range' (n + 1) k).map name) (linked maxCompactionHops) := by
  induction k with
  | zero =>
    rintro n rfl
    exact ⟨rfl,rfl⟩
  | succ k ih =>
    intro n hn
    refine ⟨if_pos (by omega),linked (n + 1),?_,ih (n + 1) (by omega)⟩
    rw [loadLinked,length_name]

theorem long_chain_refused :
    ∃ ids u, Acyclic loadLinked (linked 0) ids u ∧ ids.length = maxCompactionHops ∧
      ∀ r, followCompactionChain () loadLinked (linked 0) ≠ .ok r := by
  have hl := leads_last maxCompactionHops 0 (Nat.zero_add _)
  have hn : ((range' 0 (maxCompactionHops + 1)).map name).Nodup :=
    (nodup_range' 1).map fun m n h => by rw [← length_name m,h,length_name]
  refine ⟨_,_,⟨hl,hn⟩,by simp,fun r hr => ?_⟩
  obtain ⟨ids,u,hc,hlt,-⟩ := (followCompactionChain_ok ()).mp hr
  obtain ⟨rfl,-⟩ := hl.unique hc.1
  simp at hlt

end Synaps.Chain
