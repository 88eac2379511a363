import Synaps.Quota.Keeper
import Synaps.Quota.Ledger

/-!
Each operation of the keeper on an account is a move of the account's ledger, with the entries
that its events make in the book.
-/

set_option autoImplicit false

namespace Synaps.Keeper

open Synaps.Quota

def Phase.stage : Phase → Stage
  | .awaitingActivation g _ => .awaiting g
  | .activationPending g _ _ _ => .pending g
  | .unverified g _ => .unverified g
  | _ => .idle

def AccountState.ledger (st : AccountState) : Ledger :=
  ⟨st.phase.stage,st.generation,st.attemptsInGeneration,st.notSentInGeneration,st.lastPollOk⟩

structure Evidence where
  pollMs : Option Nat
  pollOk : Bool
  windows : List WindowLimit
  limitReached : Option Bool
  tried : Bool

def AccountState.evidence (st : AccountState) : Evidence :=
  ⟨st.lastPollMs,st.lastPollOk,st.lastWindows,st.lastLimitReached,!st.history.isEmpty⟩

def KeeperEvent.entry (key : String) : KeeperEvent → Option Entry
  | .attemptStarted k g _ => if k = key then some (.begun g) else none
  | .attemptFinished k g _ _ refunded =>
    if k = key ∧ refunded = true then some (.refunded g) else none
  | .rearmed k g _ => if k = key then some (.rearmed g) else none
  | _ => none

/-- The book of an account, read off the events. -/
def bookOf (key : String) (events : List KeeperEvent) : List Entry :=
  events.filterMap (KeeperEvent.entry key)

section

variable (key : String)

@[simp] theorem bookOf_nil : bookOf key [] = [] := rfl

@[simp] theorem bookOf_append (events events' : List KeeperEvent) :
    bookOf key (events ++ events') = bookOf key events ++ bookOf key events' :=
  List.filterMap_append

@[simp] theorem bookOf_singleton (e : KeeperEvent) : bookOf key [e] = (e.entry key).toList := by
  cases h : e.entry key <;> simp [bookOf,h]

@[simp] theorem bookOf_emit (t : Turn) (e : KeeperEvent) :
    bookOf key (t.emit e).events = bookOf key t.events ++ bookOf key [e] := bookOf_append key _ _

end

section

variable (p : AttemptRecord → Bool) (f : AttemptRecord → AttemptRecord)
  (history : List AttemptRecord)

theorem updateFirst_length : (updateFirst p f history).length = history.length := by
  induction history with
  | nil => rfl
  | cons r rest ih =>
    unfold updateFirst
    split
    · rfl
    · simp [ih]

@[simp] theorem updateLast_isEmpty : (updateLast p f history).isEmpty = history.isEmpty := by
  have hlen : (updateLast p f history).length = history.length := by
    simp [updateLast,updateFirst_length]
  rw [Bool.eq_iff_iff,List.isEmpty_iff_length_eq_zero,List.isEmpty_iff_length_eq_zero,hlen]

end

section Turns

variable (cfg : KeeperConfig) (nowMs g : Nat) (key k : String) (t : Turn) (phase : Phase)

@[simp] theorem emit_st (e : KeeperEvent) : (t.emit e).st = t.st := rfl

@[simp] theorem act_ledger : (t.act nowMs).st.ledger = t.st.ledger := rfl

theorem setPhase_st : (setPhase t phase).st = { t.st with phase := phase } := by
  unfold setPhase
  split
  · next h => rw [← h]
  · dsimp only
    split <;> rfl

/-- `u` has the evidence and the book of `t`, and tracks the generation `tracked`. -/
structure Leaves (t u : Turn) (tracked : Option Nat) : Prop where
  evidence : u.st.evidence = t.st.evidence
  book (k : String) : bookOf k u.events = bookOf k t.events
  generation : u.st.generation = tracked

variable {t} in
theorem Leaves.trans {u v : Turn} {tracked : Option Nat} (h : Leaves t u tracked)
    (h' : Leaves u v u.st.generation) : Leaves t v tracked :=
  ⟨h'.evidence.trans h.evidence,fun k => (h'.book k).trans (h.book k),
    h'.generation.trans h.generation⟩

theorem Leaves.refl : Leaves t t t.st.generation := ⟨rfl,fun _ => rfl,rfl⟩

theorem emit_leaves {e : KeeperEvent} (h : ∀ k, e.entry k = none) :
    Leaves t (t.emit e) t.st.generation :=
  ⟨rfl,fun k => by simp [h k],rfl⟩

theorem act_leaves : Leaves t (t.act nowMs) t.st.generation := ⟨rfl,fun _ => rfl,rfl⟩

theorem setPhase_leaves : Leaves t (setPhase t phase) t.st.generation := by
  refine ⟨by rw [setPhase_st]; rfl,fun k => ?_,by rw [setPhase_st]⟩
  unfold setPhase
  split
  · rfl
  · dsimp only
    split
    · rfl
    · exact (bookOf_emit k _ _).trans (List.append_nil _)

@[simp] theorem setPhase_book : bookOf k (setPhase t phase).events = bookOf k t.events :=
  (setPhase_leaves t phase).book k

@[simp] theorem scheduleRegular_ledger : (scheduleRegular cfg nowMs t).st.ledger = t.st.ledger := rfl

theorem scheduleRegular_leaves : Leaves t (scheduleRegular cfg nowMs t) t.st.generation :=
  act_leaves _ t

def concluded (attempts : Nat) : Phase :=
  if cfg.maxAttemptsPerGeneration ≤ attempts then .unverified g attempts
  else .awaitingActivation g g

theorem concluded_ledger (st : AccountState) :
    ({ st with phase := concluded cfg g st.attemptsInGeneration } : AccountState).ledger =
      st.ledger.conclude cfg.maxAttemptsPerGeneration g := by
  unfold concluded Ledger.conclude AccountState.ledger
  dsimp only
  split <;> rfl

theorem expirePending_cases : (expirePending cfg nowMs t).st = t.st ∨
    ∃ g, t.st.phase.stage = .pending g ∧ (expirePending cfg nowMs t).st =
      { t.st with phase := concluded cfg g t.st.attemptsInGeneration } := by
  unfold expirePending
  split
  · next g attempt startedMs outcome h =>
    split
    · refine .inr ⟨g,by rw [h]; rfl,?_⟩
      unfold concluded
      dsimp only
      split <;> simp [setPhase_st]
    · exact .inl rfl
  · exact .inl rfl

theorem expirePending_leaves : Leaves t (expirePending cfg nowMs t) t.st.generation := by
  unfold expirePending
  split
  · split
    · dsimp only
      split
      · exact (setPhase_leaves t _).trans (emit_leaves _ fun _ => rfl)
      · exact setPhase_leaves t _
    · exact .refl t
  · exact .refl t

theorem concluded_not_pending (attempts : Nat) : (concluded cfg g attempts).isPending = false := by
  unfold concluded
  split <;> rfl

theorem stage_of_isPending {phase : Phase} (h : phase.isPending = true) :
    ∃ g, phase.stage = .pending g := by
  cases phase <;> simp [Phase.isPending] at h
  exact ⟨_,rfl⟩

/-- A phase that is set when a pending attempt has expired. -/
def expireOr (phase : Phase) : Turn :=
  if (expirePending cfg nowMs t).st.phase.isPending then expirePending cfg nowMs t
  else setPhase (expirePending cfg nowMs t) phase

theorem expireOr_cases : (∃ g, t.st.phase.stage = .pending g ∧ (expireOr cfg nowMs t phase).st = t.st) ∨
    (expireOr cfg nowMs t phase).st = { t.st with phase := phase } := by
  unfold expireOr
  rcases expirePending_cases cfg nowMs t with h | ⟨g,hg,h⟩
  · split
    · next hp =>
      rw [h] at hp
      obtain ⟨g,hg⟩ := stage_of_isPending hp
      exact .inl ⟨g,hg,h⟩
    · exact .inr (by rw [setPhase_st,h])
  · rw [if_neg (by simp [h,concluded_not_pending])]
    exact .inr (by rw [setPhase_st,h])

theorem expireOr_leaves : Leaves t (expireOr cfg nowMs t phase) t.st.generation := by
  unfold expireOr
  split
  · exact expirePending_leaves cfg nowMs t
  · exact (expirePending_leaves cfg nowMs t).trans (setPhase_leaves _ phase)

theorem becomeDue_ledger : (becomeDue cfg nowMs g t).st.ledger =
    t.st.ledger.conclude cfg.maxAttemptsPerGeneration g := by
  rw [← concluded_ledger]
  unfold becomeDue concluded
  dsimp only
  split <;> simp [setPhase_st]

theorem becomeDue_leaves : Leaves t (becomeDue cfg nowMs g t) t.st.generation := by
  unfold becomeDue
  dsimp only
  split
  · exact (setPhase_leaves t _).trans (act_leaves _ _)
  · exact ((setPhase_leaves t _).trans (emit_leaves _ fun _ => rfl)).trans (act_leaves _ _)

theorem windowEnded_ended : Ended cfg.maxAttemptsPerGeneration g t.st.ledger
    (windowEnded cfg nowMs g t).st.ledger := by
  have hstill : t.st.phase.stage.generation = some g →
      Ended cfg.maxAttemptsPerGeneration g t.st.ledger t.st.ledger := fun h => .still h
  have hdue : Ended cfg.maxAttemptsPerGeneration g t.st.ledger (becomeDue cfg nowMs g t).st.ledger :=
    becomeDue_ledger cfg nowMs g t ▸ .concluded
  unfold windowEnded
  split
  · next generation attempt startedMs outcome h =>
    split
    · next hg =>
      rcases expirePending_cases cfg nowMs t with he | ⟨k,hk,he⟩
      · simp only [act_ledger,he]
        exact hstill (by rw [h,← hg]; rfl)
      obtain rfl : generation = k := by
        rw [h] at hk
        exact Stage.pending.inj hk
      simp only [act_ledger,he,concluded_ledger]
      exact hg ▸ .concluded
    · exact hdue
  · next generation attempts h =>
    split
    · next hg => exact hstill (by rw [h,← hg]; rfl)
    · exact hdue
  · next generation dueSinceMs h =>
    split
    · next hg => exact hstill (by rw [h,← hg]; rfl)
    · exact hdue
  · exact hdue

theorem windowEnded_leaves : Leaves t (windowEnded cfg nowMs g t) t.st.generation := by
  have hdue := becomeDue_leaves cfg nowMs g t
  unfold windowEnded
  split
  · split
    · exact (expirePending_leaves cfg nowMs t).trans (act_leaves _ _)
    · exact hdue
  · split
    · exact act_leaves _ t
    · exact hdue
  · split
    · exact (emit_leaves t fun _ => rfl).trans (act_leaves _ _)
    · exact hdue
  · exact hdue

end Turns

section Polls

variable {cfg : KeeperConfig} {nowMs : Nat} {key : String} {headroomNow : Bool} {t : Turn}
  {Due : Nat → Prop}

theorem ledger_idle {phase : Phase} (h : phase.stage = .idle) (st : AccountState) :
    ({ st with phase := phase } : AccountState).ledger = { st.ledger with stage := .idle } := by
  simp [AccountState.ledger,h]

theorem ledger_before {r : Nat} (h : ¬ (t.st.generation.any fun p => r < p) = true) :
    t.st.ledger.Before r := by
  intro p hp
  have hgen : t.st.generation = some p := hp
  simpa [hgen] using h

theorem wentBackwards_ledger :
    (wentBackwards cfg nowMs t).st.ledger = { t.st.ledger with stage := .idle } := by
  unfold wentBackwards
  rw [scheduleRegular_ledger,setPhase_st]
  exact ledger_idle rfl _

theorem expireOr_polled {phase : Phase} {r : Nat} (hidle : phase.stage = .idle)
    (hok : t.st.lastPollOk = true) (hr : t.st.generation = some r) :
    Polled cfg.maxAttemptsPerGeneration Due t.st.ledger (expireOr cfg nowMs t phase).st.ledger := by
  rcases expireOr_cases cfg nowMs t phase with ⟨g,hg,h⟩ | h
  · rw [h]
    have hkeep : Polled cfg.maxAttemptsPerGeneration Due t.st.ledger (t.st.ledger.track r) :=
      .keeps hok (fun p hp => by simp_all [AccountState.ledger]) hg
    rwa [Ledger.track_of_tracked hr] at hkeep
  · rw [h,ledger_idle hidle]
    exact .settles hok

theorem generation_same {u : Turn} {g : Nat} (h : u.st.generation = some g) :
    ({ u.st with generation := some g } : AccountState) = u.st := by
  rw [← h]

theorem noWeeklyReset_polled (hok : t.st.lastPollOk = true)
    (hdue : headroomNow = true → ∀ g ≤ nowMs, Due g) :
    Polled cfg.maxAttemptsPerGeneration Due t.st.ledger
      (noWeeklyReset cfg nowMs headroomNow t).st.ledger := by
  have hidle : ∀ reason, Polled cfg.maxAttemptsPerGeneration Due t.st.ledger
      (scheduleRegular cfg nowMs (setPhase t (.unknown reason))).st.ledger := by
    intro reason
    rw [scheduleRegular_ledger,setPhase_st,@ledger_idle (.unknown reason) rfl]
    exact .settles hok
  unfold noWeeklyReset
  dsimp only
  split
  · next g hg =>
    have hbefore : t.st.ledger.Before g := fun p hp => by simp_all [AccountState.ledger]
    split
    · next hle =>
      split
      · next hh =>
        refine .ended hok (hdue hh g hle) hbefore ?_
        rw [Ledger.track_of_tracked hg]
        exact windowEnded_ended cfg nowMs g t
      · have hgen : ∀ phase, (expireOr cfg nowMs t phase).st.generation = some g :=
          fun phase => (expireOr_leaves cfg nowMs t phase).generation.trans hg
        rw [scheduleRegular_ledger]
        have hpolled := fun phase hidle => @expireOr_polled cfg nowMs t Due phase g hidle hok hg
        unfold expireOr at hgen hpolled
        rw [generation_same (hgen _)]
        exact hpolled _ rfl
    · exact hidle _
  · exact hidle _

@[simp] theorem trackGeneration_ledger (r : Nat) :
    (trackGeneration r t).st.ledger = t.st.ledger.track r := by
  unfold trackGeneration Ledger.track AccountState.ledger
  split <;> rfl

variable (observed : Nat)

variable (w : WindowLimit)

theorem livePhase_stage (r : Nat) (limitReached : Option Bool) (attribution : Attribution) :
    (livePhase cfg observed w r limitReached attribution).stage = .idle := by
  unfold livePhase
  split
  · rfl
  · split <;> rfl

theorem newWindow_ledger {r : Nat} (h : t.st.generation ≠ some r) :
    (newWindow key observed w r t).st.ledger = t.st.ledger.track r := by
  unfold Ledger.track
  rw [if_neg (show t.st.ledger.tracked ≠ some r from h)]
  rfl

theorem liveWindow_polled (hok : t.st.lastPollOk = true) (observed : Nat) (w : WindowLimit) (r : Nat)
    (limitReached : Option Bool) :
    Polled cfg.maxAttemptsPerGeneration Due t.st.ledger
      (liveWindow cfg nowMs key observed w r limitReached t).st.ledger := by
  unfold liveWindow
  split
  · rw [wentBackwards_ledger]
    exact .settles hok
  next hr =>
  rw [scheduleRegular_ledger,setPhase_st,ledger_idle (livePhase_stage _ _ _ _ _)]
  have htrack : (if t.st.generation = some r then t else newWindow key observed w r t).st.ledger =
      t.st.ledger.track r := by
    split
    · next h => exact (Ledger.track_of_tracked h).symm
    · next h => exact newWindow_ledger observed w h
  rw [htrack]
  exact .moves hok (ledger_before hr)

theorem passedReset_polled (hok : t.st.lastPollOk = true) (w : WindowLimit) {r : Nat}
    (hdue : headroomNow = true → Due r) :
    Polled cfg.maxAttemptsPerGeneration Due t.st.ledger
      (passedReset cfg nowMs key w r headroomNow t).st.ledger := by
  unfold passedReset
  split
  · rw [wentBackwards_ledger]
    exact .settles hok
  next hr =>
  have hbefore := ledger_before hr
  dsimp only
  split
  · next hh =>
    refine .ended hok (hdue (Bool.and_eq_true_iff.mp hh).1) hbefore ?_
    rw [← trackGeneration_ledger r]
    exact windowEnded_ended cfg nowMs r _
  · rw [act_ledger,emit_st]
    rcases expireOr_cases cfg nowMs (trackGeneration r t) (.exhausted r true) with ⟨g,hg,h⟩ | h
    · unfold expireOr at h
      rw [h,trackGeneration_ledger]
      have hstage : (trackGeneration r t).st.ledger.stage = .pending g := hg
      exact .keeps hok hbefore (by simpa using hstage)
    · unfold expireOr at h
      rw [h,@ledger_idle (.exhausted r true) rfl,trackGeneration_ledger]
      exact .moves hok hbefore

theorem pollFailure_polled (hf : t.st.lastPollOk = false) (detail : String) {phase : Option Phase}
    (hphase : ∀ p ∈ phase, p.stage = .idle) :
    Polled cfg.maxAttemptsPerGeneration Due t.st.ledger
      (pollFailure cfg nowMs key detail phase t).st.ledger := by
  have hfail : { t.st.ledger with fresh := false } = t.st.ledger := by
    simp [AccountState.ledger,hf]
  unfold pollFailure
  dsimp only
  cases phase with
  | none =>
    rcases expirePending_cases cfg nowMs _ with h | ⟨g,hg,h⟩
    · rw [h]
      exact hfail ▸ .failed
    · rw [h,concluded_ledger]
      have hexpired := @Polled.expired cfg.maxAttemptsPerGeneration Due t.st.ledger g hg
      simpa [Ledger.conclude,AccountState.ledger,hf] using hexpired
  | some p =>
    have hidle := hphase p rfl
    rcases expirePending_cases cfg nowMs _ with h | ⟨g,hg,h⟩
    · rw [h]
      have hsettled := @Polled.settled cfg.maxAttemptsPerGeneration Due t.st.ledger false
      simpa [AccountState.ledger,setPhase_st,hf,hidle] using hsettled
    · simp [setPhase_st,hidle] at hg

theorem authFailure_polled (hf : t.st.lastPollOk = false) (detail : String) :
    Polled cfg.maxAttemptsPerGeneration Due t.st.ledger
      (authFailure cfg nowMs key detail t).st.ledger := by
  have hsettled := @Polled.settled cfg.maxAttemptsPerGeneration Due t.st.ledger false
  simpa [authFailure,AccountState.ledger,setPhase_st,Phase.stage,hf] using hsettled

def UsageObservation.reading (nowMs : Nat) (obs : UsageObservation) :
    Option (List WindowLimit × Option Bool) :=
  match obs.outcome with
  | .ok windows _ limitReached _ =>
    if futureStamped nowMs obs then none else some (windows,limitReached)
  | _ => none

theorem reading_of_ok {obs : UsageObservation} {windows : List WindowLimit}
    {models : Option (List ModelAvailability)} {limitReached : Option Bool}
    {banked : Option BankedResets} (h : obs.outcome = .ok windows models limitReached banked)
    (hf : ¬ futureStamped nowMs obs = true) : obs.reading nowMs = some (windows,limitReached) := by
  simp [UsageObservation.reading,h,hf]

def DueBy (cfg : KeeperConfig) (nowMs : Nat) (obs : UsageObservation) (g : Nat) : Prop :=
  g ≤ nowMs ∧ ∃ windows limitReached, obs.reading nowMs = some (windows,limitReached) ∧
    accountWideHeadroom windows limitReached cfg.exhaustedAtPercent = true

variable (obs : UsageObservation)

variable (st : AccountState)

theorem observeAccount_polled : Polled cfg.maxAttemptsPerGeneration (DueBy cfg nowMs obs) st.ledger
      (observeAccount cfg nowMs key obs st).st.ledger := by
  have hmark : ∀ {u : AccountState} {l : Ledger} (b : Bool),
      u.ledger = { st.ledger with fresh := b } →
      Polled cfg.maxAttemptsPerGeneration (DueBy cfg nowMs obs) u.ledger l →
      Polled cfg.maxAttemptsPerGeneration (DueBy cfg nowMs obs) st.ledger l := by
    intro u l b hu hp
    rw [hu] at hp
    exact hp.of_fresh
  have hfail : ∀ detail phase, (∀ p ∈ phase, p.stage = .idle) →
      Polled cfg.maxAttemptsPerGeneration (DueBy cfg nowMs obs) st.ledger
        (pollFailure cfg nowMs key detail phase
          ⟨{ st with lastPollMs := some nowMs, lastPollOk := false },[]⟩).st.ledger :=
    fun detail _ hphase => hmark false rfl (pollFailure_polled rfl detail hphase)
  unfold observeAccount
  split
  · exact hfail _ _ (by simp)
  · exact hmark false rfl (authFailure_polled rfl _)
  · exact hfail _ _ (by simp [Phase.stage])
  · exact hfail _ _ (by simp [Phase.stage])
  next windows models limitReached banked h =>
  split
  · exact hfail _ _ (by simp [Phase.stage])
  next hf =>
  have hdue : accountWideHeadroom windows limitReached cfg.exhaustedAtPercent = true →
      ∀ g ≤ nowMs, DueBy cfg nowMs obs g :=
    fun hh g hg => ⟨hg,windows,limitReached,reading_of_ok h hf,hh⟩
  unfold goodReading
  dsimp only
  split
  · exact hmark true rfl (noWeeklyReset_polled rfl hdue)
  · next w r _ =>
    split
    · exact hmark true rfl (liveWindow_polled rfl _ w r _)
    · next hr => exact hmark true rfl (passedReset_polled rfl w fun hh => hdue hh r (by omega))

theorem pollFailure_leaves (detail : String) (phase : Option Phase) :
    Leaves t (pollFailure cfg nowMs key detail phase t) t.st.generation := by
  refine ((?_ : Leaves t _ _).trans (emit_leaves _ fun _ => rfl)).trans
    (expirePending_leaves cfg nowMs _)
  cases phase with
  | none => exact ⟨rfl,fun _ => rfl,rfl⟩
  | some p =>
    refine (?_ : Leaves t _ _).trans (setPhase_leaves _ p)
    exact ⟨rfl,fun _ => rfl,rfl⟩

theorem authFailure_leaves (detail : String) :
    Leaves t (authFailure cfg nowMs key detail t) t.st.generation := by
  refine ((?_ : Leaves t _ _).trans (setPhase_leaves _ _)).trans (emit_leaves _ fun _ => rfl)
  exact ⟨rfl,fun _ => rfl,rfl⟩

theorem wentBackwards_leaves : Leaves t (wentBackwards cfg nowMs t) t.st.generation :=
  (setPhase_leaves t _).trans (scheduleRegular_leaves cfg nowMs _)

theorem noWeeklyReset_leaves :
    Leaves t (noWeeklyReset cfg nowMs headroomNow t) t.st.generation := by
  have hidle : ∀ phase, Leaves t (scheduleRegular cfg nowMs (setPhase t phase)) t.st.generation :=
    fun phase => (setPhase_leaves t phase).trans (scheduleRegular_leaves cfg nowMs _)
  unfold noWeeklyReset
  dsimp only
  split
  · next g hg =>
    split
    · split
      · exact windowEnded_leaves cfg nowMs g t
      · have hleaves := expireOr_leaves cfg nowMs t
        unfold expireOr at hleaves
        rw [generation_same ((hleaves _).generation.trans hg)]
        exact (hleaves _).trans (scheduleRegular_leaves cfg nowMs _)
    · exact hidle _
  · exact hidle _

theorem newWindow_leaves (r : Nat) : Leaves t (newWindow key observed w r t) (some r) :=
  ⟨by simp [newWindow,AccountState.evidence],fun k => by simp [newWindow,KeeperEvent.entry],rfl⟩

/-- A reset that is reported is accepted unless it is earlier than the tracked one. -/
def acceptReset (tracked reported : Option Nat) : Option Nat :=
  match reported with
  | none => tracked
  | some r => if tracked.any fun p => r < p then tracked else some r

theorem liveWindow_leaves (r : Nat) (limitReached : Option Bool) :
    Leaves t (liveWindow cfg nowMs key observed w r limitReached t)
      (acceptReset t.st.generation (some r)) := by
  unfold liveWindow acceptReset
  dsimp only
  split
  · exact wentBackwards_leaves
  split
  · next h =>
    exact h ▸ (setPhase_leaves t _).trans (scheduleRegular_leaves cfg nowMs _)
  · exact ((newWindow_leaves observed w r).trans (setPhase_leaves _ _)).trans
      (scheduleRegular_leaves cfg nowMs _)

theorem trackGeneration_leaves (r : Nat) : Leaves t (trackGeneration r t) (some r) := by
  unfold trackGeneration
  split
  · next h => exact h ▸ .refl t
  · exact ⟨rfl,fun _ => rfl,rfl⟩

theorem passedReset_leaves (r : Nat) : Leaves t (passedReset cfg nowMs key w r headroomNow t)
      (acceptReset t.st.generation (some r)) := by
  unfold passedReset acceptReset
  dsimp only
  split
  · exact wentBackwards_leaves
  split
  · exact (trackGeneration_leaves r).trans (windowEnded_leaves cfg nowMs r _)
  · have hexpired := expireOr_leaves cfg nowMs (trackGeneration r t) (.exhausted r true)
    unfold expireOr at hexpired
    exact (((trackGeneration_leaves r).trans hexpired).trans (emit_leaves _ fun _ => rfl)).trans
      (act_leaves _ _)

def recorded (nowMs : Nat) (obs : UsageObservation) (st : AccountState) : AccountState :=
  let st := { st with lastPollMs := some nowMs, lastPollOk := false }
  match obs.outcome with
  | .ok windows models limitReached banked =>
    if futureStamped nowMs obs then st
    else recordReading obs.observedAtMs windows models limitReached banked st
  | _ => st

theorem observeAccount_leaves : ∃ events, (∀ k, bookOf k events = []) ∧
      Leaves ⟨recorded nowMs obs st,events⟩ (observeAccount cfg nowMs key obs st)
        (acceptReset st.generation
          ((obs.reading nowMs).bind fun reading => (weeklyReset reading.1).map (·.2))) := by
  unfold observeAccount recorded UsageObservation.reading
  cases obs.outcome with
  | transport | malformed | unsupported => exact ⟨[],fun _ => rfl,pollFailure_leaves _ _⟩
  | authError => exact ⟨[],fun _ => rfl,authFailure_leaves _⟩
  | ok windows models limitReached banked =>
    dsimp only
    split
    · exact ⟨[],fun _ => rfl,pollFailure_leaves _ _⟩
    refine ⟨bankedEvents cfg nowMs key banked,fun k => ?_,?_⟩
    · unfold bankedEvents
      split
      · rfl
      · split <;> simp [KeeperEvent.entry]
    · unfold goodReading
      rw [Option.bind_some]
      dsimp only
      split
      · next hw => exact hw ▸ noWeeklyReset_leaves
      next w r hw =>
      rw [hw]
      split
      · exact liveWindow_leaves _ w r _
      · exact passedReset_leaves w r

theorem observeAccount_evidence : (observeAccount cfg nowMs key obs st).st.evidence =
      match obs.reading nowMs with
      | none => { st.evidence with pollMs := some nowMs, pollOk := false }
      | some (windows,limitReached) => ⟨some nowMs,true,windows,limitReached,st.evidence.tried⟩ := by
  obtain ⟨_,-,h⟩ := @observeAccount_leaves cfg nowMs key obs st
  rw [h.evidence]
  unfold recorded UsageObservation.reading
  cases obs.outcome with
  | ok windows models limitReached banked => cases futureStamped nowMs obs <;> rfl
  | _ => rfl

theorem observeAccount_generation : (observeAccount cfg nowMs key obs st).st.generation =
      acceptReset st.generation
        ((obs.reading nowMs).bind fun reading => (weeklyReset reading.1).map (·.2)) := by
  obtain ⟨_,-,h⟩ := @observeAccount_leaves cfg nowMs key obs st
  exact h.generation

theorem observeAccount_book (k : String) (obs : UsageObservation) (st : AccountState) :
    bookOf k (observeAccount cfg nowMs key obs st).events = [] := by
  obtain ⟨_,hevents,h⟩ := @observeAccount_leaves cfg nowMs key obs st
  rw [h.book k,hevents]

end Polls

theorem weighWindow_headroom {p : Percent} {seen seen' : Nat × Option ℚ} {w : WindowLimit}
    (h : weighWindow p seen w = .ok seen') : WindowVerdict.isHeadroom (w.verdict p) = true := by
  unfold weighWindow at h
  split at h
  · next hv => simp [hv,WindowVerdict.isHeadroom]
  · next hv => simp [hv,WindowVerdict.isHeadroom]
  · cases h
  · cases h

variable {windows : List WindowLimit}

theorem weighWindows_headroom {p : Percent} {seen seen' : Nat × Option ℚ}
    (h : windows.foldlM (weighWindow p) seen = .ok seen') :
    ∀ w ∈ windows, WindowVerdict.isHeadroom (w.verdict p) = true := by
  induction windows generalizing seen with
  | nil => simp
  | cons v rest ih =>
    rw [List.foldlM_cons] at h
    cases hv : weighWindow p seen v with rw [hv] at h
    | error reason =>
      cases h
    | ok next =>
      exact List.forall_mem_cons.mpr ⟨weighWindow_headroom hv,ih h⟩

variable {e : Eligible} {req : SelectionRequest}

theorem evaluateWindows_headroom {observed : Nat}
    (h : evaluateWindows req observed windows = .ok e) :
    ∀ w ∈ windows, w.appliesTo req.model = true →
      WindowVerdict.isHeadroom (w.verdict req.exhaustedAtPercent) = true := by
  unfold evaluateWindows at h
  cases hs : (windows.filter (·.appliesTo req.model)).foldlM (weighWindow req.exhaustedAtPercent)
      (0,none) with
  | error reason =>
    rw [hs] at h
    cases h
  | ok seen =>
    intro w hw happ
    exact weighWindows_headroom hs w (List.mem_filter.mpr ⟨hw,happ⟩)

variable {cap : AccountCapacity} {models : Option (List ModelAvailability)}

theorem evaluateReading_headroom (h : evaluateReading req cap windows models = .ok e) :
    ∀ w ∈ windows, w.appliesTo req.model = true →
      WindowVerdict.isHeadroom (w.verdict req.exhaustedAtPercent) = true := by
  unfold evaluateReading at h
  split at h
  · cases h
  split at h
  · cases h
  split at h
  · cases h
  split at h
  · cases h
  exact evaluateWindows_headroom h

theorem evaluate_headroom (hobs : cap.observation = .ok windows models)
    (h : evaluate req cap = .ok e) :
    ∀ w ∈ windows, w.appliesTo req.model = true →
      WindowVerdict.isHeadroom (w.verdict req.exhaustedAtPercent) = true := by
  unfold evaluate evaluateWith at h
  rw [hobs] at h
  split at h
  · cases h
  split at h
  · cases h
  exact evaluateReading_headroom h

structure Authorized (cfg : KeeperConfig) (g : Nat) (st : AccountState) : Prop where
  stage : st.ledger.stage = .awaiting g
  spent : st.ledger.spent < cfg.maxAttemptsPerGeneration
  unsent : st.ledger.unsent < maxNotSentPerGeneration
  pollOk : st.lastPollOk = true
  noLimit : st.lastLimitReached ≠ some true
  headroom : ∀ w ∈ st.lastWindows, w.models = none →
    WindowVerdict.isHeadroom (w.verdict cfg.exhaustedAtPercent) = true

variable {model : String}

section

variable {cfg : KeeperConfig} {nowMs : Nat}

theorem capacityView_headroom {st : AccountState} (hcap : capacityView st = some cap)
    (hlimit : st.lastLimitReached ≠ some true)
    (h : evaluate (activationRequest cfg nowMs model cap.credential.provider) cap = .ok e) :
    ∀ w ∈ st.lastWindows, w.models = none →
      WindowVerdict.isHeadroom (w.verdict cfg.exhaustedAtPercent) = true := by
  obtain ⟨credential,-,rfl⟩ := Option.map_eq_some_iff.mp hcap
  have hwindows : windowsWithOverallFlag st.lastWindows st.lastLimitReached = st.lastWindows :=
    if_neg hlimit
  intro w hw hmodels
  refine evaluate_headroom rfl h w (by rwa [hwindows]) ?_
  simp [WindowLimit.appliesTo,hmodels]

theorem decideAwaiting_activate {g g' attempt : Nat} {st : AccountState}
    (hstage : st.ledger.stage = .awaiting g)
    (h : decideAwaiting cfg nowMs model g st = .activate g' attempt) :
    g' = g ∧ Authorized cfg g st := by
  unfold decideAwaiting at h
  split at h
  · cases h
  next hspent =>
  split at h
  · cases h
  next hunsent =>
  split at h
  · cases h
  split at h
  · cases h
  next hok =>
  split at h
  · cases h
  next hlimit =>
  split at h
  · cases h
  next cap hcap =>
  split at h
  · cases h
  next e he =>
  cases h
  exact ⟨rfl,hstage,Nat.lt_of_not_le hspent,Nat.lt_of_not_le hunsent,by simpa using hok,hlimit,
    capacityView_headroom hcap hlimit he⟩

theorem decideAccount_activate {g attempt : Nat} {optedIn : Bool} {st : AccountState}
    (h : decideAccount cfg nowMs optedIn model st = .activate g attempt) : Authorized cfg g st := by
  unfold decideAccount at h
  split at h
  · cases h
  split at h
  · cases h
  split at h
  · next generation dueSinceMs hphase =>
    obtain ⟨rfl,hauth⟩ := decideAwaiting_activate (by simp [AccountState.ledger,hphase,Phase.stage]) h
    exact hauth
  · cases h
  · cases h
  · cases h

end

section Attempts

variable {cfg : KeeperConfig} {nowMs : Nat} {key : String} {st : AccountState}

theorem pushHistory_isEmpty (history : List AttemptRecord) (r : AttemptRecord) :
    (pushHistory history r).isEmpty = false := by
  have hlength : 0 < (pushHistory history r).length := by
    simp only [pushHistory,maxHistory,List.length_drop,List.length_append,List.length_singleton]
    omega
  exact List.isEmpty_eq_false_iff.mpr (List.ne_nil_of_length_pos hlength)

variable {ticket : AttemptTicket}

theorem beginAccount_ok {t : Turn} (h : beginAccount nowMs key st = .ok (ticket,t)) :
    ∃ g, st.ledger.stage = .awaiting g ∧
      t.st.ledger = { st.ledger with stage := .pending g, spent := st.ledger.spent + 1 } ∧
      t.st.evidence = { st.evidence with tried := true } ∧
      ∀ k, bookOf k t.events = if key = k then [.begun g] else [] := by
  unfold beginAccount at h
  split at h
  · cases h
  split at h
  · next g dueSinceMs hphase =>
    cases h
    refine ⟨g,?_,?_,?_,fun k => ?_⟩
    · simp [AccountState.ledger,hphase,Phase.stage]
    · simp [AccountState.ledger,setPhase_st,Phase.stage]
    · simp [AccountState.evidence,setPhase_st,pushHistory_isEmpty]
    · rw [bookOf_emit]
      simp only [setPhase_book,bookOf_nil,bookOf_singleton,KeeperEvent.entry]
      split <;> rfl
  · cases h

@[simp] theorem recordOutcome_isEmpty (generation attempt : Nat) (outcome : AttemptOutcome)
    (history : List AttemptRecord) :
    (recordOutcome nowMs generation attempt outcome history).isEmpty = history.isEmpty :=
  updateLast_isEmpty _ _ _

def AttemptOutcome.refusesCredential : AttemptOutcome → Bool
  | .rejected httpStatus => httpStatus = 401 || httpStatus = 403
  | _ => false

section

variable (ticket : AttemptTicket) (outcome : AttemptOutcome)

theorem refundAttempt_evidence :
    (refundAttempt cfg nowMs ticket outcome st).st.evidence = st.evidence := by
  unfold refundAttempt
  dsimp only
  split
  · split <;> simp [AccountState.evidence,setPhase_st]
  · simp [AccountState.evidence,setPhase_st]

theorem refundAttempt_ledger : (refundAttempt cfg nowMs ticket outcome st).st.ledger =
      { st.ledger with
        stage := if outcome.refusesCredential then .idle else .awaiting ticket.generation
        spent := st.ledger.spent - 1
        unsent := st.ledger.unsent + 1 } := by
  unfold refundAttempt AttemptOutcome.refusesCredential
  dsimp only
  split
  · split
    · next h => simp [AccountState.ledger,setPhase_st,Phase.stage,h]
    next h =>
    have hno : ∀ s : Nat, ¬ (s = 401 ∨ s = 403) → ¬ ((s = 401 || s = 403) : Bool) = true := by
      intro s hs
      simpa using hs
    simp [AccountState.ledger,setPhase_st,Phase.stage,hno _ h]
  · simp [AccountState.ledger,setPhase_st,Phase.stage]

end

theorem refundAttempt_book (k : String) (ticket : AttemptTicket) (outcome : AttemptOutcome) :
    bookOf k (refundAttempt cfg nowMs ticket outcome st).events = [] := by
  unfold refundAttempt
  dsimp only
  split
  · split <;> simp [KeeperEvent.entry]
  · simp

def refunds (ticket : AttemptTicket) (outcome : AttemptOutcome) (st : AccountState) : Bool :=
  match st.phase with
  | .activationPending generation attempt _ _ =>
    generation = ticket.generation && attempt = ticket.attempt && outcome.isRefundable
  | _ => false

theorem finishAccount_refunds {outcome : AttemptOutcome} (h : refunds ticket outcome st = true) :
    st.ledger.stage = .pending ticket.generation ∧
    (finishAccount cfg nowMs ticket outcome st).st.ledger = { st.ledger with
        stage := if outcome.refusesCredential then .idle else .awaiting ticket.generation
        spent := st.ledger.spent - 1
        unsent := st.ledger.unsent + 1 } ∧
    (finishAccount cfg nowMs ticket outcome st).st.evidence = st.evidence ∧
    ∀ k, bookOf k (finishAccount cfg nowMs ticket outcome st).events =
      if ticket.key = k then [.refunded ticket.generation] else [] := by
  unfold refunds at h
  split at h
  · next generation attempt startedMs previous hphase =>
    simp only [Bool.and_eq_true,decide_eq_true_eq] at h
    obtain ⟨⟨rfl,rfl⟩,hrefund⟩ := h
    refine ⟨by simp [AccountState.ledger,hphase,Phase.stage],?_⟩
    unfold finishAccount
    simp only [hphase,and_self,if_true,hrefund,emit_st]
    refine ⟨refundAttempt_ledger ticket outcome,?_,fun k => ?_⟩
    · rw [refundAttempt_evidence]
      simp [AccountState.evidence]
    · rw [bookOf_emit,refundAttempt_book,bookOf_singleton]
      simp only [KeeperEvent.entry,and_true]
      split <;> rfl
  · cases h

theorem finishAccount_keeps {outcome : AttemptOutcome} (h : refunds ticket outcome st = false) :
    (finishAccount cfg nowMs ticket outcome st).st.ledger = st.ledger ∧
    (finishAccount cfg nowMs ticket outcome st).st.evidence = st.evidence ∧
    ∀ k, bookOf k (finishAccount cfg nowMs ticket outcome st).events = [] := by
  unfold refunds at h
  unfold finishAccount
  dsimp only
  split
  · next generation attempt startedMs previous hphase =>
    rw [hphase] at h
    split
    · next hsame =>
      have hno : outcome.isRefundable = false := by
        simpa [hsame.1,hsame.2] using h
      rw [if_neg (by simp [hno])]
      refine ⟨?_,?_,fun k => ?_⟩
      · simp [AccountState.ledger,keepAttempt,hphase,Phase.stage,hsame.1]
      · simp [AccountState.evidence,keepAttempt]
      · simp [KeeperEvent.entry]
    · refine ⟨rfl,?_,fun k => ?_⟩
      · simp [AccountState.evidence]
      · simp [KeeperEvent.entry]
  · refine ⟨rfl,?_,fun k => ?_⟩
    · simp [AccountState.evidence]
    · simp [KeeperEvent.entry]

theorem recoverAccount_keeps (nowMs : Nat) (key : String) (st : AccountState) :
    (recoverAccount nowMs key st).st.ledger = st.ledger ∧
    (recoverAccount nowMs key st).st.evidence = st.evidence ∧
    ∀ k, bookOf k (recoverAccount nowMs key st).events = [] := by
  unfold recoverAccount
  split
  · next generation attempt startedMs hphase =>
    refine ⟨?_,?_,fun k => ?_⟩
    · simp [AccountState.ledger,hphase,Phase.stage]
    · simp [AccountState.evidence]
    · simp [KeeperEvent.entry]
  · exact ⟨rfl,rfl,fun _ => rfl⟩

theorem rearmAccount_some {st' : AccountState} {e : KeeperEvent}
    (h : rearmAccount nowMs key st = some (st',e)) :
    ∃ g, Rearmed g st.ledger st'.ledger ∧ st'.evidence = st.evidence ∧
      ∀ k, bookOf k [e] = if key = k then [.rearmed g] else [] := by
  unfold rearmAccount at h
  split at h
  · next g attempts hphase =>
    cases h
    refine ⟨g,⟨?_,rfl⟩,rfl,fun k => ?_⟩
    · simp [AccountState.ledger,hphase,Phase.stage]
    · rw [bookOf_singleton]
      simp only [KeeperEvent.entry]
      split <;> rfl
  · cases h

end Attempts

end Synaps.Keeper
