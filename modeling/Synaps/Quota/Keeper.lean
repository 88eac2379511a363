import Synaps.Quota.Policy
import Mathlib.Data.List.AList

/-!
The quota keeper: the state machine that follows the weekly window of each kept account and
spends at most one activation request on each reset generation.
-/

set_option autoImplicit false

namespace Synaps.Keeper

open Synaps.Quota Word

def secMs : Nat := 1000
def minMs : Nat := 60 * secMs
def hourMs : Nat := 60 * minMs
def dayMs : Nat := 24 * hourMs

def maxNotSentPerGeneration : Nat := 5

def maxMaxAttempts : Nat := 1

def maxHistory : Nat := 24

def defaultExhaustedAtPercent : Percent := .finite 100

structure KeeperConfig where
  pollIntervalMs : Nat
  maxBackoffMs : Nat
  staleAfterMs : Nat
  resetGraceMs : Nat
  verifyPollMs : Nat
  verifyWindowMs : Nat
  maxAttemptsPerGeneration : Nat
  attemptTimeoutMs : Nat
  usageTimeoutMs : Nat
  bankedExpiryAlertMs : Nat
  exhaustedAtPercent : Percent

def KeeperConfig.default : KeeperConfig where
  pollIntervalMs := 5 * minMs
  maxBackoffMs := 4 * hourMs
  staleAfterMs := 30 * minMs
  resetGraceMs := 30 * secMs
  verifyPollMs := 20 * secMs
  verifyWindowMs := 10 * minMs
  maxAttemptsPerGeneration := 1
  attemptTimeoutMs := 60 * secMs
  usageTimeoutMs := 20 * secMs
  bankedExpiryAlertMs := 3 * dayMs
  exhaustedAtPercent := defaultExhaustedAtPercent

def clamp (lo hi x : Nat) : Nat := if x < lo then lo else if hi < x then hi else x

/-- An exhaustion threshold is kept if it is a number from 1 to 100. -/
def boundedThreshold : Percent → Percent
  | .finite p => if 1 ≤ p ∧ p ≤ 100 then .finite p else defaultExhaustedAtPercent
  | .notFinite => defaultExhaustedAtPercent

def KeeperConfig.bounded (c : KeeperConfig) : KeeperConfig :=
  let pollIntervalMs := clamp minMs hourMs c.pollIntervalMs
  let verifyPollMs := clamp (5 * secMs) pollIntervalMs c.verifyPollMs
  { pollIntervalMs
    maxBackoffMs := clamp pollIntervalMs (12 * hourMs) c.maxBackoffMs
    staleAfterMs := clamp minMs dayMs c.staleAfterMs
    resetGraceMs := min c.resetGraceMs (10 * minMs)
    verifyPollMs
    verifyWindowMs := clamp verifyPollMs (2 * hourMs) c.verifyWindowMs
    maxAttemptsPerGeneration := clamp 1 maxMaxAttempts c.maxAttemptsPerGeneration
    attemptTimeoutMs := clamp (10 * secMs) (5 * minMs) c.attemptTimeoutMs
    usageTimeoutMs := clamp (5 * secMs) (2 * minMs) c.usageTimeoutMs
    bankedExpiryAlertMs := c.bankedExpiryAlertMs
    exhaustedAtPercent := boundedThreshold c.exhaustedAtPercent }

/-- Machine additions of times and counters that are not guarded wrap around. -/
def wrappingSucc (n : Nat) : Nat := (n + 1) % 2 ^ 32

def seatFpPrefix : String := "seat:"

structure AccountIdentity where
  source : String
  credential : String
  identityFp : String
  deriving DecidableEq

def AccountIdentity.isStrong (i : AccountIdentity) : Bool :=
  seatFpPrefix.toList.isPrefixOf i.identityFp.toList

def AccountIdentity.ledgerScope (i : AccountIdentity) : String :=
  if i.isStrong then
    match Text.splitOnce ['@'] i.credential.toList with
    | some (provider,_) => String.ofList provider
    | none => i.credential
  else i.credential

/-- With a strong fingerprint the label is not a part of the key. -/
def AccountIdentity.key (i : AccountIdentity) : String :=
  i.source ++ "|" ++ i.ledgerScope ++ "|" ++ i.identityFp

def parseProvider (value : String) : Option OAuthProviderId :=
  [OAuthProviderId.anthropic,.openAiCodex,.xai,.gitHubCopilot,.googleGemini,.kimiCode,.muse].find?
    fun p => p.asStr = value

def parseStorageKey (key : String) : Option CredentialRef :=
  match Text.splitOnce ['@'] key.toList with
  | none => (parseProvider key).map fun provider => ⟨provider,.default⟩
  | some (provider,label) => do
    let provider ← parseProvider (String.ofList provider)
    let label ← AccountLabel.parse (String.ofList label)
    return ⟨provider,.named label⟩

structure BankedResets where
  availableCount : Option Nat
  earliestExpiryMs : Option Nat
  inventoryError : Option String
  deriving DecidableEq

inductive ObservationOutcome where
  | ok (windows : List WindowLimit) (models : Option (List ModelAvailability))
      (limitReached : Option Bool) (banked : Option BankedResets)
  | authError (detail : String)
  | transport (detail : String)
  | malformed (detail : String)
  | unsupported (detail : String)
  deriving DecidableEq

structure UsageObservation where
  observedAtMs : Nat
  outcome : ObservationOutcome
  deriving DecidableEq

/-- A limit asserted for the whole account is folded into its account-wide windows. -/
def windowsWithOverallFlag (windows : List WindowLimit) (limitReached : Option Bool) :
    List WindowLimit :=
  if limitReached = some true then
    let flagged := windows.map fun w =>
      if w.models = none then { w with limitReached := some true } else w
    if windows.any fun w => w.models = none then flagged
    else flagged ++ [⟨"overall",none,none,some true,none,none⟩]
  else windows

inductive Attribution where
  | observed
  | attemptCorrelated (attempt : Nat)
  deriving DecidableEq

inductive NotSentStage where
  | unsupported | tokenVend | accountId | identityMismatch | requestBuild | connect
  deriving DecidableEq

def NotSentStage.debug : NotSentStage → String
  | .unsupported => "Unsupported"
  | .tokenVend => "TokenVend"
  | .accountId => "AccountId"
  | .identityMismatch => "IdentityMismatch"
  | .requestBuild => "RequestBuild"
  | .connect => "Connect"

def refundableRejectStatuses : List Nat := [400,401,403,404,413,415,422]

inductive AttemptOutcome where
  | sent (httpStatus : Nat)
  | rejected (httpStatus : Nat)
  | notSent (stage : NotSentStage) (reason : String)
  | ambiguous (reason : String)
  deriving DecidableEq

def AttemptOutcome.isRefundable : AttemptOutcome → Bool
  | .notSent _ _ => true
  | .rejected httpStatus => refundableRejectStatuses.contains httpStatus
  | .sent _ => false
  | .ambiguous _ => false

inductive Phase where
  | unknown (reason : String)
  | authError (detail : String)
  | exhausted (generation : Nat) (resetPassed : Bool)
  | active (generation : Nat) (usedPercent : Option ℚ) (verifiedAtMs : Nat)
      (attribution : Attribution)
  | awaitingActivation (generation dueSinceMs : Nat)
  | activationPending (generation attempt startedMs : Nat) (outcome : Option AttemptOutcome)
  | unverified (generation attempts : Nat)
  deriving DecidableEq

def Phase.label : Phase → String
  | .unknown _ => "unknown"
  | .authError _ => "auth_error"
  | .exhausted _ _ => "exhausted"
  | .active _ _ _ _ => "active"
  | .awaitingActivation _ _ => "awaiting_activation"
  | .activationPending _ _ _ _ => "activation_pending"
  | .unverified _ _ => "unverified"

def Phase.isPending : Phase → Bool
  | .activationPending _ _ _ _ => true
  | _ => false

structure AttemptRecord where
  attempt : Nat
  generation : Nat
  startedMs : Nat
  finishedMs : Option Nat
  outcome : Option AttemptOutcome
  verifiedAtMs : Option Nat
  newGeneration : Option Nat
  deriving DecidableEq

structure AccountState where
  identity : AccountIdentity
  phase : Phase
  generation : Option Nat
  attemptsInGeneration : Nat
  notSentInGeneration : Nat
  lastPollMs : Option Nat
  lastOkObservationMs : Option Nat
  lastPollOk : Bool
  lastWindows : List WindowLimit
  lastModels : Option (List ModelAvailability)
  lastLimitReached : Option Bool
  lastError : Option String
  consecutiveErrors : Nat
  backoffMs : Nat
  nextActionAtMs : Nat
  nextAttemptAllowedMs : Nat
  lastIdleDelayMs : Option Nat
  lastIdleDelayIsUpperBound : Bool
  weekly : Option WindowLimit
  banked : Option BankedResets
  history : List AttemptRecord

def AccountState.new (identity : AccountIdentity) : AccountState where
  identity := identity
  phase := .unknown "never polled"
  generation := none
  attemptsInGeneration := 0
  notSentInGeneration := 0
  lastPollMs := none
  lastOkObservationMs := none
  lastPollOk := false
  lastWindows := []
  lastModels := none
  lastLimitReached := none
  lastError := none
  consecutiveErrors := 0
  backoffMs := 0
  nextActionAtMs := 0
  nextAttemptAllowedMs := 0
  lastIdleDelayMs := none
  lastIdleDelayIsUpperBound := false
  weekly := none
  banked := none
  history := []

def pushHistory (history : List AttemptRecord) (r : AttemptRecord) : List AttemptRecord :=
  let pushed := history ++ [r]
  pushed.drop (pushed.length - maxHistory)

def updateFirst (p : AttemptRecord → Bool) (f : AttemptRecord → AttemptRecord) :
    List AttemptRecord → List AttemptRecord
  | [] => []
  | r :: rest => if p r then f r :: rest else r :: updateFirst p f rest

def updateLast (p : AttemptRecord → Bool) (f : AttemptRecord → AttemptRecord)
    (history : List AttemptRecord) : List AttemptRecord :=
  (updateFirst p f history.reverse).reverse

inductive KeeperEvent where
  | phaseChanged (key before after : String)
  | pollFailed (key detail : String) (backoffMs : Nat)
  | newWindow (key : String) (fromGeneration : Option Nat) (toGeneration : Nat)
      (idleDelayMs : Option Nat) (idleDelayIsUpperBound : Bool) (attribution : Attribution)
  | limitAssertedAfterReset (key : String) (generation : Nat)
  | activationDue (key : String) (generation dueSinceMs : Nat)
  | attemptStarted (key : String) (generation attempt : Nat)
  | attemptFinished (key : String) (generation attempt : Nat) (outcome : AttemptOutcome)
      (refunded : Bool)
  | unverified (key : String) (generation attempts : Nat)
  | rearmed (key : String) (generation previousAttempts : Nat)
  | authError (key detail : String)
  | bankedResets (key : String) (availableCount : Nat) (earliestExpiryMs : Option Nat)
      (expiringSoon : Bool)
  deriving DecidableEq

structure Turn where
  st : AccountState
  events : List KeeperEvent

def Turn.emit (t : Turn) (e : KeeperEvent) : Turn := { t with events := t.events ++ [e] }

def Turn.act (t : Turn) (atMs : Nat) : Turn := { t with st := { t.st with nextActionAtMs := atMs } }

def setPhase (t : Turn) (next : Phase) : Turn :=
  if t.st.phase = next then t
  else
    let moved : Turn := { t with st := { t.st with phase := next } }
    if t.st.phase.label = next.label then moved
    else moved.emit (.phaseChanged t.st.identity.key t.st.phase.label next.label)

def growBackoff (cfg : KeeperConfig) (backoffMs : Nat) : Nat :=
  if backoffMs = 0 then cfg.pollIntervalMs
  else min (min (backoffMs * 2) u64Max) cfg.maxBackoffMs

def scheduleRegular (cfg : KeeperConfig) (nowMs : Nat) (t : Turn) : Turn :=
  let next := wrappingAdd nowMs cfg.pollIntervalMs
  t.act <|
    match t.st.generation with
    | some g => if nowMs < g then min next (wrappingAdd g cfg.resetGraceMs) else next
    | none => next

def WindowVerdict.isHeadroom : WindowVerdict → Bool
  | .headroom _ => true
  | _ => false

def accountWideHeadroom (windows : List WindowLimit) (limitReached : Option Bool)
    (exhaustedAt : Percent) : Bool :=
  if limitReached = some true then false
  else
    let wide := windows.filter fun w => w.models = none
    wide ≠ [] && wide.all fun w => WindowVerdict.isHeadroom (w.verdict exhaustedAt)

def expirePending (cfg : KeeperConfig) (nowMs : Nat) (t : Turn) : Turn :=
  match t.st.phase with
  | .activationPending generation _ startedMs _ =>
    if cfg.verifyWindowMs ≤ nowMs - startedMs then
      let attempts := t.st.attemptsInGeneration
      if cfg.maxAttemptsPerGeneration ≤ attempts then
        (setPhase t (.unverified generation attempts)).emit
          (.unverified t.st.identity.key generation attempts)
      else setPhase t (.awaitingActivation generation generation)
    else t
  | _ => t

/-- The end of a window that no phase has recorded yet. -/
def becomeDue (cfg : KeeperConfig) (nowMs g : Nat) (t : Turn) : Turn :=
  let attempts := t.st.attemptsInGeneration
  let t :=
    if cfg.maxAttemptsPerGeneration ≤ attempts then setPhase t (.unverified g attempts)
    else
      (setPhase t (.awaitingActivation g g)).emit (.activationDue t.st.identity.key g g)
  t.act (wrappingAdd nowMs cfg.pollIntervalMs)

def windowEnded (cfg : KeeperConfig) (nowMs g : Nat) (t : Turn) : Turn :=
  match t.st.phase with
  | .activationPending generation _ _ _ =>
    if generation = g then
      let t := expirePending cfg nowMs t
      t.act (wrappingAdd nowMs
        (if t.st.phase.isPending then cfg.verifyPollMs else cfg.pollIntervalMs))
    else becomeDue cfg nowMs g t
  | .unverified generation _ =>
    if generation = g then t.act (wrappingAdd nowMs cfg.pollIntervalMs)
    else becomeDue cfg nowMs g t
  | .awaitingActivation generation dueSinceMs =>
    if generation = g then
      (t.emit (.activationDue t.st.identity.key g dueSinceMs)).act
        (wrappingAdd nowMs cfg.pollIntervalMs)
    else becomeDue cfg nowMs g t
  | _ => becomeDue cfg nowMs g t

/-- A poll without a usable reading: the error, the backoff and the pending attempt's clock. -/
def pollFailure (cfg : KeeperConfig) (nowMs : Nat) (key detail : String) (phase : Option Phase)
    (t : Turn) : Turn :=
  let b := growBackoff cfg t.st.backoffMs
  let t : Turn := { t with st := { t.st with
    lastError := some detail
    consecutiveErrors := wrappingSucc t.st.consecutiveErrors
    backoffMs := b
    nextActionAtMs := wrappingAdd nowMs b } }
  let t := phase.elim t (setPhase t)
  expirePending cfg nowMs (t.emit (.pollFailed key detail b))

def authFailure (cfg : KeeperConfig) (nowMs : Nat) (key detail : String) (t : Turn) : Turn :=
  let t : Turn := { t with st := { t.st with
    lastError := some detail
    consecutiveErrors := wrappingSucc t.st.consecutiveErrors
    backoffMs := cfg.maxBackoffMs
    nextActionAtMs := wrappingAdd nowMs cfg.maxBackoffMs } }
  (setPhase t (.authError detail)).emit (.authError key detail)

def noWeeklyReset (cfg : KeeperConfig) (nowMs : Nat) (headroomNow : Bool) (t : Turn) : Turn :=
  let reason :=
    if t.st.weekly.isSome then "weekly window reported without a reset time"
    else "no weekly window evidence"
  match t.st.generation with
  | some g =>
    if g ≤ nowMs then
      if headroomNow then windowEnded cfg nowMs g t
      else
        let t := expirePending cfg nowMs t
        let t :=
          if t.st.phase.isPending then t
          else setPhase t (.unknown (reason ++ "; no headroom evidence after reset"))
        scheduleRegular cfg nowMs { t with st := { t.st with generation := some g } }
    else scheduleRegular cfg nowMs (setPhase t (.unknown reason))
  | none => scheduleRegular cfg nowMs (setPhase t (.unknown reason))

def wentBackwards (cfg : KeeperConfig) (nowMs : Nat) (t : Turn) : Turn :=
  scheduleRegular cfg nowMs
    (setPhase t (.unknown "reported reset earlier than the tracked generation"))

/-- The delay between the tracked reset and the start of the new window, and whether it is only
an upper bound. -/
def idleDelay (prev : Option Nat) (durationMs : Option Nat) (r observed : Nat) :
    Option Nat × Bool :=
  match prev, durationMs with
  | some p, some d => if d ≤ r then (some (r - d - p),false) else (some (observed - p),true)
  | some p, none => (some (observed - p),true)
  | none, _ => (none,false)

def Phase.correlatedAttempt : Phase → Option Nat
  | .activationPending _ attempt _ _ => some attempt
  | .unverified _ attempts => if 0 < attempts then some attempts else none
  | _ => none

def newWindow (key : String) (observed : Nat) (w : WindowLimit) (r : Nat) (t : Turn) : Turn :=
  let attribution := t.st.phase.correlatedAttempt.elim .observed .attemptCorrelated
  let (idle,upper) := idleDelay t.st.generation w.durationMs r observed
  let st := { t.st with
    lastIdleDelayMs := idle
    lastIdleDelayIsUpperBound := upper
    history := updateLast (fun rec => rec.newGeneration = none && rec.generation ≠ r)
      (fun rec => { rec with verifiedAtMs := some observed, newGeneration := some r })
      t.st.history
    attemptsInGeneration := 0
    notSentInGeneration := 0
    nextAttemptAllowedMs := 0
    generation := some r }
  Turn.emit ⟨st,t.events⟩ (.newWindow key t.st.generation r idle upper attribution)

def liveAttribution (st : AccountState) (r : Nat) : Attribution :=
  if st.generation = some r then
    match st.phase with
    | .active _ _ _ attribution => attribution
    | _ => .observed
  else st.phase.correlatedAttempt.elim .observed .attemptCorrelated

def livePhase (cfg : KeeperConfig) (observed : Nat) (w : WindowLimit) (r : Nat)
    (limitReached : Option Bool) (attribution : Attribution) : Phase :=
  if limitReached = some true then .exhausted r false
  else
    match w.verdict cfg.exhaustedAtPercent with
    | .headroom usedPercent => .active r usedPercent observed attribution
    | .exhausted _ => .exhausted r false
    | .unknown => .unknown "weekly window has no usage evidence"

def liveWindow (cfg : KeeperConfig) (nowMs : Nat) (key : String) (observed : Nat)
    (w : WindowLimit) (r : Nat) (limitReached : Option Bool) (t : Turn) : Turn :=
  if t.st.generation.any fun p => r < p then wentBackwards cfg nowMs t
  else
    let phase := livePhase cfg observed w r limitReached (liveAttribution t.st r)
    let t := if t.st.generation = some r then t else newWindow key observed w r t
    scheduleRegular cfg nowMs (setPhase t phase)

/-- A new tracked generation starts with fresh counters. -/
def trackGeneration (r : Nat) (t : Turn) : Turn :=
  if t.st.generation = some r then t
  else
    { t with st := { t.st with
      generation := some r
      attemptsInGeneration := 0
      notSentInGeneration := 0
      nextAttemptAllowedMs := 0 } }

def passedReset (cfg : KeeperConfig) (nowMs : Nat) (key : String) (w : WindowLimit) (r : Nat)
    (headroomNow : Bool) (t : Turn) : Turn :=
  if t.st.generation.any fun p => r < p then wentBackwards cfg nowMs t
  else
    let t := trackGeneration r t
    if headroomNow && WindowVerdict.isHeadroom (w.verdict cfg.exhaustedAtPercent) then
      windowEnded cfg nowMs r t
    else
      let t := expirePending cfg nowMs t
      let t := if t.st.phase.isPending then t else setPhase t (.exhausted r true)
      (t.emit (.limitAssertedAfterReset key r)).act (wrappingAdd nowMs cfg.pollIntervalMs)

def bankedEvents (cfg : KeeperConfig) (nowMs : Nat) (key : String) (banked : Option BankedResets) :
    List KeeperEvent :=
  match banked with
  | none => []
  | some b =>
    match b.availableCount.filter (0 < ·) with
    | none => []
    | some count => [.bankedResets key count b.earliestExpiryMs
        (b.earliestExpiryMs.any (· ≤ saturatingAdd nowMs cfg.bankedExpiryAlertMs))]

def recordReading (observed : Nat) (windows : List WindowLimit)
    (models : Option (List ModelAvailability)) (limitReached : Option Bool)
    (banked : Option BankedResets) (st : AccountState) : AccountState :=
  { st with
    lastError := none
    consecutiveErrors := 0
    backoffMs := 0
    lastPollOk := true
    lastOkObservationMs := some observed
    lastWindows := windows
    lastModels := models
    lastLimitReached := limitReached
    banked := banked
    weekly := weeklyWindow windows }

def weeklyReset (windows : List WindowLimit) : Option (WindowLimit × Nat) :=
  (weeklyWindow windows).bind fun w => w.resetsAtMs.map fun r => (w,r)

def goodReading (cfg : KeeperConfig) (nowMs : Nat) (key : String) (observed : Nat)
    (windows : List WindowLimit) (models : Option (List ModelAvailability))
    (limitReached : Option Bool) (banked : Option BankedResets) (st : AccountState) : Turn :=
  let t : Turn := ⟨recordReading observed windows models limitReached banked st,
    bankedEvents cfg nowMs key banked⟩
  let headroomNow := accountWideHeadroom windows limitReached cfg.exhaustedAtPercent
  match weeklyReset windows with
  | none => noWeeklyReset cfg nowMs headroomNow t
  | some (w,r) =>
    if nowMs < r then liveWindow cfg nowMs key observed w r limitReached t
    else passedReset cfg nowMs key w r headroomNow t

/-- A reading stamped in the future is never evidence. -/
def futureStamped (nowMs : Nat) (obs : UsageObservation) : Bool :=
  saturatingAdd nowMs maxFutureObservationSkewMs < obs.observedAtMs

def observeAccount (cfg : KeeperConfig) (nowMs : Nat) (key : String) (obs : UsageObservation)
    (st : AccountState) : Turn :=
  let st := { st with lastPollMs := some nowMs, lastPollOk := false }
  match obs.outcome with
  | .transport detail => pollFailure cfg nowMs key detail none ⟨st,[]⟩
  | .authError detail => authFailure cfg nowMs key detail ⟨st,[]⟩
  | .malformed detail => pollFailure cfg nowMs key detail (some (.unknown detail)) ⟨st,[]⟩
  | .unsupported detail => pollFailure cfg nowMs key detail (some (.unknown detail)) ⟨st,[]⟩
  | .ok windows models limitReached banked =>
    if futureStamped nowMs obs then
      let detail := "observation timestamp is in the future"
      pollFailure cfg nowMs key detail (some (.unknown detail)) ⟨st,[]⟩
    else goodReading cfg nowMs key obs.observedAtMs windows models limitReached banked st

def capacityView (st : AccountState) : Option AccountCapacity :=
  (parseStorageKey st.identity.credential).map fun credential =>
    { credential
      observedAtMs := st.lastOkObservationMs
      observation := .ok (windowsWithOverallFlag st.lastWindows st.lastLimitReached) st.lastModels
      cooldownUntilMs := none
      failure := none }

def activationRequest (cfg : KeeperConfig) (nowMs : Nat) (model : String)
    (provider : OAuthProviderId) : SelectionRequest where
  provider := provider
  model := some model
  nowMs := nowMs
  maxSnapshotAgeMs := cfg.staleAfterMs
  preference := []
  explicitAccount := none
  exclude := []
  strategy := .preferenceOrder
  exhaustedAtPercent := cfg.exhaustedAtPercent
  current := none
  urgentHorizonMs := 24 * 60 * 60 * 1000
  sticky := false
  grace := []
  graceMaxAgeMs := 30 * 60 * 1000

inductive SkipReason where
  | text (reason : String)
  | noProvenCapacity (reason : RejectReason)
  deriving DecidableEq

inductive ActivationDecision where
  | activate (generation attempt : Nat)
  | skip (reason : SkipReason)
  deriving DecidableEq

def skipText (reason : String) : ActivationDecision := .skip (.text reason)

/-- The checks after the phase, for an account that awaits the activation of `generation`. -/
def decideAwaiting (cfg : KeeperConfig) (nowMs : Nat) (model : String) (generation : Nat)
    (st : AccountState) : ActivationDecision :=
  if cfg.maxAttemptsPerGeneration ≤ st.attemptsInGeneration then
    skipText "attempt budget spent for this generation"
  else if maxNotSentPerGeneration ≤ st.notSentInGeneration then
    skipText "too many unsent attempts for this generation"
  else if nowMs < st.nextAttemptAllowedMs then skipText "backoff after an unsent attempt"
  else if !st.lastPollOk then skipText "latest poll failed; no fresh evidence"
  else if st.lastLimitReached = some true then skipText "provider asserts limit_reached"
  else
    match capacityView st with
    | none => skipText "unparseable credential key"
    | some cap =>
      match evaluate (activationRequest cfg nowMs model cap.credential.provider) cap with
      | .error reason => .skip (.noProvenCapacity reason)
      | .ok _ => .activate generation (st.attemptsInGeneration + 1)

def decideAccount (cfg : KeeperConfig) (nowMs : Nat) (optedIn : Bool) (model : String)
    (st : AccountState) : ActivationDecision :=
  if !optedIn then skipText "not opted in (read-only)"
  else if !st.identity.isStrong then
    skipText "seat identity not established (a metadata prefix is not an identity)"
  else
    match st.phase with
    | .awaitingActivation generation _ => decideAwaiting cfg nowMs model generation st
    | .activationPending _ _ _ _ => skipText "attempt pending verification"
    | .unverified _ _ => skipText "attempt budget spent for this generation"
    | other => skipText ("not due (phase " ++ other.label ++ ")")

structure AttemptTicket where
  key : String
  generation : Nat
  attempt : Nat
  deriving DecidableEq

inductive KeeperError where
  | unknownAccount (key : String)
  | notDue (key phase : String)
  | identityRequired (key : String)
  deriving DecidableEq

def beginAccount (nowMs : Nat) (key : String) (st : AccountState) :
    Except KeeperError (AttemptTicket × Turn) :=
  if !st.identity.isStrong then .error (.identityRequired key)
  else
    match st.phase with
    | .awaitingActivation generation _ =>
      let attempt := st.attemptsInGeneration + 1
      let t := setPhase ⟨{ st with attemptsInGeneration := attempt },[]⟩
        (.activationPending generation attempt nowMs none)
      let st := { t.st with
        history := pushHistory t.st.history ⟨attempt,generation,nowMs,none,none,none,none⟩
        nextActionAtMs := nowMs }
      .ok (⟨key,generation,attempt⟩,
        Turn.emit ⟨st,t.events⟩ (.attemptStarted key generation attempt))
    | other => .error (.notDue key other.label)

def AttemptOutcome.refundError : AttemptOutcome → String
  | .notSent stage reason => "activation not sent (" ++ stage.debug ++ "): " ++ reason
  | .rejected httpStatus => "activation rejected: HTTP " ++ toString httpStatus
  | _ => "activation refunded"

/-- A refundable outcome of the pending attempt: the budget unit returns, with backoff. -/
def refundAttempt (cfg : KeeperConfig) (nowMs : Nat) (ticket : AttemptTicket)
    (outcome : AttemptOutcome) (st : AccountState) : Turn :=
  let b := growBackoff cfg st.backoffMs
  let t : Turn := ⟨{ st with
    attemptsInGeneration := st.attemptsInGeneration - 1
    notSentInGeneration := st.notSentInGeneration + 1
    backoffMs := b
    nextAttemptAllowedMs := wrappingAdd nowMs b
    nextActionAtMs := wrappingAdd nowMs b },[]⟩
  let t :=
    match outcome with
    | .rejected httpStatus =>
      if httpStatus = 401 ∨ httpStatus = 403 then
        let detail := "activation rejected with HTTP " ++ toString httpStatus
        (setPhase t (.authError detail)).emit (.authError ticket.key detail)
      else setPhase t (.awaitingActivation ticket.generation ticket.generation)
    | _ => setPhase t (.awaitingActivation ticket.generation ticket.generation)
  { t with st := { t.st with lastError := some outcome.refundError } }

/-- Any other outcome of the pending attempt stays pending until it is verified or expires. -/
def keepAttempt (nowMs : Nat) (ticket : AttemptTicket) (startedMs : Nat)
    (outcome : AttemptOutcome) (st : AccountState) : AccountState :=
  { st with
    phase := .activationPending ticket.generation ticket.attempt startedMs (some outcome)
    nextActionAtMs := nowMs
    lastError :=
      match outcome with
      | .ambiguous reason => some ("activation ambiguous: " ++ reason)
      | _ => st.lastError }

def recordOutcome (nowMs generation attempt : Nat) (outcome : AttemptOutcome)
    (history : List AttemptRecord) : List AttemptRecord :=
  updateLast (fun rec => rec.generation = generation && rec.attempt = attempt)
    (fun rec => { rec with finishedMs := some nowMs, outcome := some outcome }) history

def finishAccount (cfg : KeeperConfig) (nowMs : Nat) (ticket : AttemptTicket)
    (outcome : AttemptOutcome) (st : AccountState) : Turn :=
  let st := { st with
    history := recordOutcome nowMs ticket.generation ticket.attempt outcome st.history }
  let finished (refunded : Bool) : KeeperEvent :=
    .attemptFinished ticket.key ticket.generation ticket.attempt outcome refunded
  match st.phase with
  | .activationPending generation attempt startedMs _ =>
    if generation = ticket.generation ∧ attempt = ticket.attempt then
      if outcome.isRefundable then
        (refundAttempt cfg nowMs ticket outcome st).emit (finished true)
      else ⟨keepAttempt nowMs ticket startedMs outcome st,[finished false]⟩
    else ⟨st,[finished false]⟩
  -- The phase moved on: only the record is kept.
  | _ => ⟨st,[finished false]⟩

def recoverAccount (nowMs : Nat) (key : String) (st : AccountState) : Turn :=
  match st.phase with
  | .activationPending generation attempt startedMs none =>
    let outcome : AttemptOutcome :=
      .ambiguous "process restarted before the attempt outcome was recorded"
    ⟨{ st with
      phase := .activationPending generation attempt startedMs (some outcome)
      history := recordOutcome nowMs generation attempt outcome st.history
      nextActionAtMs := nowMs },
      [.attemptFinished key generation attempt outcome false]⟩
  | _ => ⟨st,[]⟩

/-- One more attempt for the generation that is unverified. -/
def rearmAccount (nowMs : Nat) (key : String) (st : AccountState) :
    Option (AccountState × KeeperEvent) :=
  match st.phase with
  | .unverified generation attempts =>
    some ({ st with
      attemptsInGeneration := 0
      notSentInGeneration := 0
      nextAttemptAllowedMs := 0
      phase := .awaitingActivation generation generation
      nextActionAtMs := nowMs },.rearmed key generation attempts)
  | _ => none

structure KeeperState where
  updatedAtMs : Nat
  accounts : Std.TreeMap String AccountState

def KeeperState.default : KeeperState := ⟨0,∅⟩

/-- An entry is created when it is missing, and adopts the caller's identity. -/
def KeeperState.entry (s : KeeperState) (identity : AccountIdentity) : KeeperState :=
  let st := (s.accounts[identity.key]?).getD (.new identity)
  { s with accounts := s.accounts.insert identity.key { st with identity := identity } }

def prunable (keep : List String) (nowMs maxIdleMs : Nat) (key : String) (a : AccountState) : Bool :=
  !keep.contains key && a.history = [] &&
    (match a.phase with
      | .activationPending _ _ _ _ => false
      | .unverified _ _ => false
      | _ => true) &&
    maxIdleMs < nowMs - a.lastPollMs.getD 0

def KeeperState.pruneIdle (s : KeeperState) (keep : List AccountIdentity) (nowMs maxIdleMs : Nat) :
    KeeperState × List String :=
  let gone := prunable (keep.map (·.key)) nowMs maxIdleMs
  ({ s with accounts := s.accounts.filter fun k a => !gone k a },
    (s.accounts.toList.filter fun e => gone e.1 e.2).map (·.1))

def observe (s : KeeperState) (cfg : KeeperConfig) (nowMs : Nat) (key : String)
    (obs : UsageObservation) : Except KeeperError (KeeperState × List KeeperEvent) :=
  match s.accounts[key]? with
  | none => .error (.unknownAccount key)
  | some st =>
    let t := observeAccount cfg nowMs key obs st
    .ok (⟨nowMs,s.accounts.insert key t.st⟩,t.events)

def activationDecision (s : KeeperState) (cfg : KeeperConfig) (nowMs : Nat) (key : String)
    (optedIn : Bool) (model : String) : ActivationDecision :=
  match s.accounts[key]? with
  | none => skipText "unknown account"
  | some st => decideAccount cfg nowMs optedIn model st

def beginAttempt (s : KeeperState) (nowMs : Nat) (key : String) :
    Except KeeperError (KeeperState × AttemptTicket × List KeeperEvent) :=
  match s.accounts[key]? with
  | none => .error (.unknownAccount key)
  | some st => do
    let (ticket,t) ← beginAccount nowMs key st
    return (⟨nowMs,s.accounts.insert key t.st⟩,ticket,t.events)

def finishAttempt (s : KeeperState) (cfg : KeeperConfig) (nowMs : Nat) (ticket : AttemptTicket)
    (outcome : AttemptOutcome) : Except KeeperError (KeeperState × List KeeperEvent) :=
  match s.accounts[ticket.key]? with
  | none => .error (.unknownAccount ticket.key)
  | some st =>
    let t := finishAccount cfg nowMs ticket outcome st
    .ok (⟨nowMs,s.accounts.insert ticket.key t.st⟩,t.events)

def recoverAfterRestart (s : KeeperState) (nowMs : Nat) : KeeperState × List KeeperEvent :=
  ({ s with accounts := s.accounts.map fun key st => (recoverAccount nowMs key st).st },
    s.accounts.toList.flatMap fun e => (recoverAccount nowMs e.1 e.2).events)

def rearm (s : KeeperState) (nowMs : Nat) (key : String) :
    Except KeeperError (KeeperState × Option KeeperEvent) :=
  match s.accounts[key]? with
  | none => .error (.unknownAccount key)
  | some st =>
    match rearmAccount nowMs key st with
    | none => .ok (s,none)
    | some (st',event) => .ok (⟨nowMs,s.accounts.insert key st'⟩,some event)

end Synaps.Keeper
