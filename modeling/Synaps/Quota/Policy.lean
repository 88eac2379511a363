import Synaps.Lib.Comparator
import Synaps.Lib.Text
import Synaps.Lib.Word
import Mathlib.Algebra.Order.Ring.Rat
import Synaps.Lib.Outcome

/-!
The capacity policy of accounts that share a provider: which accounts have proven headroom,
in which order they are preferred, and when the pinned one is kept. The order of the candidates
does not matter.
-/

set_option autoImplicit false

namespace Synaps.Quota

open Comparator Word

inductive OAuthProviderId where
  | anthropic | openAiCodex | xai | gitHubCopilot | googleGemini | kimiCode | muse
  deriving DecidableEq, Repr

def OAuthProviderId.asStr : OAuthProviderId → String
  | .anthropic => "anthropic"
  | .openAiCodex => "openai-codex"
  | .xai => "xai-auth"
  | .gitHubCopilot => "github-copilot"
  | .googleGemini => "google-gemini"
  | .kimiCode => "kimi-code"
  | .muse => "muse"

def maxLabelLen : Nat := 32

def labelStart (c : Char) : Bool := ('a' ≤ c && c ≤ 'z') || ('0' ≤ c && c ≤ '9')

def labelChar (c : Char) : Bool := labelStart c || c = '.' || c = '_' || c = '-'

def isLabel (value : String) : Bool :=
  value ≠ "" && value ≠ "default" && value ≠ "auto" && value.utf8ByteSize ≤ maxLabelLen &&
    (value.toList.head?.all labelStart) && value.toList.tail.all labelChar

structure AccountLabel where
  text : String
  valid : isLabel text = true
  deriving DecidableEq

inductive Account where
  | default
  | named (label : AccountLabel)
  deriving DecidableEq

def trimmed (raw : String) : String := String.ofList (Text.trim raw.toList)

def AccountLabel.parse (raw : String) : Option AccountLabel :=
  let value := trimmed raw
  if h : isLabel value = true then some ⟨value,h⟩ else none

def Account.parse (raw : String) : Option Account :=
  let value := trimmed raw
  if value = "default" then some .default else (AccountLabel.parse value).map .named

def Account.labelStr : Account → String
  | .default => "default"
  | .named label => label.text

structure CredentialRef where
  provider : OAuthProviderId
  account : Account
  deriving DecidableEq

def CredentialRef.storageKey (c : CredentialRef) : String :=
  match c.account with
  | .default => c.provider.asStr
  | .named label => c.provider.asStr ++ "@" ++ label.text

def weeklyWindowMinMs : Nat := 6 * 24 * 60 * 60 * 1000

def weeklyWindowMaxMs : Nat := 8 * 24 * 60 * 60 * 1000

def maxFutureObservationSkewMs : Nat := 5 * 60 * 1000

def unanchoredToleranceMs : Nat := 5 * 60 * 1000

def unanchoredMaxUsedPercent : ℚ := 1 / 2

def overrunPercentMax : ℚ := 1000

/-- A reported percentage: a finite number, or an infinity or NaN. -/
inductive Percent where
  | finite (value : ℚ)
  | notFinite
  deriving DecidableEq

structure WindowLimit where
  id : String
  durationMs : Option Nat
  usedPercent : Option Percent
  limitReached : Option Bool
  resetsAtMs : Option Nat
  models : Option (List String)
  deriving DecidableEq

inductive WindowVerdict where
  | headroom (usedPercent : Option ℚ)
  | exhausted (resetsAtMs : Option Nat)
  | unknown
  deriving DecidableEq

def isSeparator (c : Char) : Bool := c = '-' || c = '_' || c = '/' || c = ':' || c = '.'

def modelMatches (entry requested : String) : Bool :=
  let entry := (Text.trim entry.toList).map Text.toAsciiLowercase
  let req := (Text.trim requested.toList).map Text.toAsciiLowercase
  if entry = [] ∨ req = [] then false
  else entry = req || (req.splitOnP isSeparator).contains entry

def WindowLimit.appliesTo (w : WindowLimit) (model : Option String) : Bool :=
  match w.models, model with
  | none, _ => true
  | some _, none => true
  | some list, some m => list.any fun x => modelMatches x m

def WindowLimit.isWeekly (w : WindowLimit) : Bool :=
  w.durationMs.any fun d => weeklyWindowMinMs ≤ d && d ≤ weeklyWindowMaxMs

def validThreshold : Percent → Option ℚ
  | .finite p => if 0 ≤ p ∧ p ≤ 100 then some p else none
  | .notFinite => none

def usedShare : Option Percent → Option (Option ℚ)
  | some (.finite p) =>
    if 100 < p ∧ p ≤ overrunPercentMax then some (some 100)
    else if 0 ≤ p ∧ p ≤ 100 then some (some p)
    else none
  | some .notFinite => none
  | none => some none

def WindowLimit.verdict (w : WindowLimit) (exhaustedAtPercent : Percent) : WindowVerdict :=
  match validThreshold exhaustedAtPercent with
  | none => .unknown
  | some threshold =>
    if w.limitReached = some true then .exhausted w.resetsAtMs
    else
      match usedShare w.usedPercent with
      | none => .unknown
      | some (some p) => if threshold ≤ p then .exhausted w.resetsAtMs else .headroom (some p)
      | some none => if w.limitReached = some false then .headroom none else .unknown

inductive ModelState where
  | available | exhausted | unknown
  deriving DecidableEq

structure ModelAvailability where
  model : String
  state : ModelState
  deriving DecidableEq

inductive QuotaObservation where
  | ok (windows : List WindowLimit) (models : Option (List ModelAvailability))
  | authError
  | unsupported
  | malformed
  | unknown
  deriving DecidableEq

inductive AccountFailureKind where
  | coolingDown | exhausted | modelUnavailable | usageRateLimited | usageTimeout | usageUpstream
  | usageTransport | usageMalformed | usageUnauthorized | refreshTransient | refreshLockBusy
  | refreshOther | refreshRejected | refreshActionRequired | credentialMissing | credentialStore
  | authError | unsupported | quotaUnknown | staleSnapshot | windowUnknown | modelUnknown
  | noLimitEvidence | excluded | notPresent | invalidLabel | unknown
  deriving DecidableEq

structure ObservationFailure where
  kind : AccountFailureKind
  httpStatus : Option Nat
  retryAfterS : Option Nat
  deriving DecidableEq

structure AccountCapacity where
  credential : CredentialRef
  observedAtMs : Option Nat
  observation : QuotaObservation
  cooldownUntilMs : Option Nat
  failure : Option ObservationFailure
  deriving DecidableEq

inductive Strategy where
  | preferenceOrder | lowestUtilization | soonestReset
  deriving DecidableEq

structure SelectionRequest where
  provider : OAuthProviderId
  model : Option String
  nowMs : Nat
  maxSnapshotAgeMs : Nat
  preference : List String
  explicitAccount : Option String
  exclude : List CredentialRef
  strategy : Strategy
  exhaustedAtPercent : Percent
  current : Option CredentialRef
  urgentHorizonMs : Nat
  sticky : Bool
  grace : List AccountCapacity
  graceMaxAgeMs : Nat

inductive RejectReason where
  | stale (ageMs : Option Nat)
  | malformed
  | unknown
  | unsupported
  | authError
  | coolingDown (untilMs : Nat)
  | exhausted (window : String) (resetsAtMs : Option Nat)
  | windowUnknown (window : String)
  | noLimitEvidence
  | modelUnavailable (model : String)
  | modelUnknown (model : String)
  | excluded
  | notPresent
  | invalidLabel (label : String)
  | outranked (rank : Nat)
  deriving DecidableEq

structure Rejection where
  credential : CredentialRef
  reason : RejectReason
  cause : Option ObservationFailure
  usableAfterMs : Option Nat
  deriving DecidableEq

inductive Selection where
  | selected (credential : CredentialRef) (utilization : Option ℚ) (tier : Nat)
      (budgetResetMs : Option Nat) (rejections : List Rejection)
  | noCapacity (rejections : List Rejection) (earliestResetMs : Option Nat)
  deriving DecidableEq

def Selection.winner : Selection → Option CredentialRef
  | .selected credential _ _ _ _ => some credential
  | .noCapacity _ _ => none

def weeklyCmp (a b : WindowLimit) : Ordering :=
  (compare a.models.isSome b.models.isSome).then (compare a.id b.id)

def pickWeekly (windows : List WindowLimit) : Option WindowLimit :=
  (sortBy weeklyCmp (windows.filter (·.isWeekly))).head?

def weeklyWindow (windows : List WindowLimit) : Option WindowLimit := pickWeekly windows

def minBy {α : Type} (cmp : α → α → Ordering) : List α → Option α
  | [] => none
  | a :: l => some (l.foldl (fun x y => if cmp x y = .gt then y else x) a)

def longestCmp (a b : WindowLimit) : Ordering :=
  (compare b.durationMs a.durationMs).then (weeklyCmp a b)

def budgetWindow (windows : List WindowLimit) (model : Option String) : Option WindowLimit :=
  let applicable := windows.filter (·.appliesTo model)
  match pickWeekly applicable with
  | some weekly => some weekly
  | none => minBy longestCmp (applicable.filter (·.durationMs.isSome))

def absDiff (a b : Nat) : Nat := (a - b) + (b - a)

def isUnanchored (w : WindowLimit) (observedAtMs : Nat) : Option Bool :=
  match w.durationMs, w.resetsAtMs with
  | some duration, some reset =>
    let nearZero :=
      match w.usedPercent with
      | some (.finite p) => decide (0 ≤ p ∧ p ≤ unanchoredMaxUsedPercent)
      | _ => false
    if nearZero then
      some (absDiff (saturatingAdd observedAtMs duration) reset ≤ unanchoredToleranceMs)
    else some false
  | _, _ => none

structure Eligible where
  utilization : Option ℚ
  budgetResetMs : Option Nat
  anchored : Option Bool
  tier : Nat
  graced : Bool
  deriving DecidableEq

def tierFor (anchored : Option Bool) (budgetResetMs : Option Nat) (nowMs urgentHorizonMs : Nat) :
    Nat :=
  match anchored, budgetResetMs with
  | _, none => 4
  | some false, some _ => 2
  | _, some reset => if reset - nowMs ≤ urgentHorizonMs then 1 else 3

def modelRejection (model : String) : List ModelAvailability → Option RejectReason
  | [] => none
  | m :: list =>
    if modelMatches m.model model then
      match m.state with
      | .available => modelRejection model list
      | .exhausted => some (.modelUnavailable model)
      | .unknown => some (.modelUnknown model)
    else modelRejection model list

/-- One applicable window: how many were seen, and the largest utilization. -/
def weighWindow (exhaustedAtPercent : Percent) (seen : Nat × Option ℚ) (w : WindowLimit) :
    Except RejectReason (Nat × Option ℚ) :=
  match w.verdict exhaustedAtPercent with
  | .headroom none => .ok (seen.1+1,seen.2)
  | .headroom (some p) => .ok (seen.1+1,some (seen.2.elim p (max · p)))
  | .exhausted resetsAtMs => .error (.exhausted w.id resetsAtMs)
  | .unknown => .error (.windowUnknown w.id)

section Evaluate

variable (req : SelectionRequest)

def evaluateWindows (observed : Nat) (windows : List WindowLimit) : Except RejectReason Eligible := do
  let seen ← (windows.filter (·.appliesTo req.model)).foldlM (weighWindow req.exhaustedAtPercent)
    (0,none)
  if seen.1 = 0 then .error .noLimitEvidence
  else
    let budget := budgetWindow windows req.model
    let budgetResetMs := (budget.bind (·.resetsAtMs)).filter (req.nowMs < ·)
    let anchored :=
      match budget, budgetResetMs with
      | some w, some _ => (isUnanchored w observed).map (!·)
      | _, _ => none
    .ok ⟨seen.2,budgetResetMs,anchored,
      tierFor anchored budgetResetMs req.nowMs req.urgentHorizonMs,false⟩

def evaluateReading (cap : AccountCapacity) (windows : List WindowLimit)
    (models : Option (List ModelAvailability)) : Except RejectReason Eligible :=
  match cap.observedAtMs with
  | none => .error (.stale none)
  | some observed =>
    if saturatingAdd req.nowMs maxFutureObservationSkewMs < observed then .error .malformed
    else if req.maxSnapshotAgeMs < req.nowMs - observed then
      .error (.stale (some (req.nowMs - observed)))
    else
      match req.model.bind fun model => models.bind (modelRejection model) with
      | some reason => .error reason
      | none => evaluateWindows req observed windows

def evaluateWith (graced : AccountCapacity → Except RejectReason Eligible) (cap : AccountCapacity) :
    Except RejectReason Eligible :=
  match cap.cooldownUntilMs.filter (req.nowMs < ·) with
  | some untilMs => .error (.coolingDown untilMs)
  | none =>
    if req.exclude.any fun c => c.storageKey = cap.credential.storageKey then .error .excluded
    else
      match cap.observation with
      | .ok windows models => evaluateReading req cap windows models
      | .authError => .error .authError
      | .unsupported => .error .unsupported
      | .malformed => .error .malformed
      | .unknown => graced cap

def QuotaObservation.isOk : QuotaObservation → Bool
  | .ok _ _ => true
  | _ => false

def evaluateGraced (cap : AccountCapacity) : Except RejectReason Eligible :=
  match (req.grace.find? fun g => g.credential.storageKey = cap.credential.storageKey).filter
      (·.observation.isOk) with
  | none => .error .unknown
  | some good =>
    if good.observedAtMs.any fun t => req.nowMs - t < req.graceMaxAgeMs then
      let gracedReq := { req with maxSnapshotAgeMs := req.graceMaxAgeMs, grace := [] }
      let reading := { good with cooldownUntilMs := cap.cooldownUntilMs }
      -- The reading is a good one, so its own evaluation never asks for grace.
      match evaluateWith gracedReq (fun _ => .error .unknown) reading with
      | .ok e => .ok { e with graced := true }
      | .error _ => .error .unknown
    else .error .unknown

def evaluate (cap : AccountCapacity) : Except RejectReason Eligible :=
  evaluateWith req (evaluateGraced req) cap

end Evaluate

def utilizationCmp (a b : Option ℚ) : Ordering :=
  (compare a.isNone b.isNone).then (compare (a.getD 0) (b.getD 0))

def usizeMax : Nat := 2 ^ 64 - 1

section Select

variable (req : SelectionRequest)

def preferenceRank (cred : CredentialRef) : Nat :=
  (req.preference.findIdx? (· = cred.account.labelStr)).getD usizeMax

def observationCause (reason : RejectReason) (cap : AccountCapacity) : Option ObservationFailure :=
  match reason with
  | .unknown | .authError | .malformed | .unsupported | .coolingDown _ => cap.failure
  | _ => none

/-- The latest of the times to wait for; `none` once a window has no future reset. -/
def laterReset (latest : Option Nat) (w : WindowLimit) : Option (Option Nat) :=
  match w.verdict req.exhaustedAtPercent with
  | .exhausted resetsAtMs =>
    (resetsAtMs.filter (req.nowMs < ·)).map fun reset => some (latest.elim reset (max · reset))
  | _ => some latest

def usableAfterMs (cap : AccountCapacity) : Option Nat :=
  let latest := cap.cooldownUntilMs.filter (req.nowMs < ·)
  match cap.observation with
  | .ok windows _ => ((windows.filter (·.appliesTo req.model)).foldlM (laterReset req) latest).join
  | _ => latest

abbrev Seat : Type := AccountCapacity × Eligible

def Seat.key (s : Seat) : String := s.1.credential.storageKey

def considered (candidates : List AccountCapacity) : List AccountCapacity :=
  candidates.filter fun cap => cap.credential.provider = req.provider &&
    req.explicitAccount.all fun label => cap.credential.account.labelStr = label

def seatOf (cap : AccountCapacity) : Option Seat :=
  match evaluate req cap with
  | .ok e => some (cap,e)
  | .error _ => none

def rejectionOf (cap : AccountCapacity) : Option Rejection :=
  match evaluate req cap with
  | .ok _ => none
  | .error reason =>
    some ⟨cap.credential,reason,observationCause reason cap,usableAfterMs req cap⟩

def eligible (candidates : List AccountCapacity) : List Seat :=
  (considered req candidates).filterMap (seatOf req)

def preferenceCmp (a b : Seat) : Ordering :=
  (compare (preferenceRank req a.1.credential) (preferenceRank req b.1.credential)).then
    (compare a.key b.key)

def leastUsedCmp (a b : Seat) : Ordering :=
  (utilizationCmp a.2.utilization b.2.utilization).then (preferenceCmp req a b)

def tierCmp (tier : Nat) (a b : Seat) : Ordering :=
  (match tier with
    | 1 | 3 => compare a.2.budgetResetMs b.2.budgetResetMs
    | 2 => preferenceCmp req a b
    | _ => utilizationCmp a.2.utilization b.2.utilization).then
    (leastUsedCmp req a b)

def strategyCmp (a b : Seat) : Ordering :=
  match req.strategy with
  | .preferenceOrder => preferenceCmp req a b
  | .lowestUtilization => leastUsedCmp req a b
  | .soonestReset => tagged (·.2.tier) (tierCmp req) a b

def seatCmp (a b : Seat) : Ordering :=
  (compare a.2.graced b.2.graced).then (strategyCmp req a b)

def switch (best cur : Eligible) : Bool :=
  best.tier < cur.tier || (best.tier = 1 && cur.tier = 1 &&
    compare best.budgetResetMs cur.budgetResetMs = .lt)

def rotate {α : Type} (l : List α) (i : Nat) : List α :=
  l[i]?.toList ++ l.eraseIdx i

def stick (ranked : List Seat) : List Seat :=
  if req.sticky && req.strategy = .soonestReset then
    match req.current with
    | none => ranked
    | some current =>
      match ranked.head?, ranked.findIdx? (fun s => s.key = current.storageKey) with
      | some best, some i =>
        if 0 < i && !ranked[i]?.any (fun cur => switch best.2 cur.2) then rotate ranked i else ranked
      | _, _ => ranked
  else ranked

def ranking (candidates : List AccountCapacity) : List Seat :=
  stick req (sortBy (seatCmp req) (eligible req candidates))

def outranked (losers : List Seat) : List Rejection :=
  losers.zipIdx.map fun s => ⟨s.1.1.credential,.outranked ((s.2 + 2) % 2 ^ 32),none,none⟩

def futureReset (r : Rejection) : Option Nat :=
  match r.reason with
  | .exhausted _ (some t) => if req.nowMs < t then some t else none
  | _ => none

def absentRejection (label : String) : Rejection :=
  match Account.parse label with
  | some account => ⟨⟨req.provider,account⟩,.notPresent,none,none⟩
  | none => ⟨⟨req.provider,.default⟩,.invalidLabel label,none,none⟩

def select (candidates : List AccountCapacity) : Selection :=
  let rejections := (considered req candidates).filterMap (rejectionOf req)
  match req.explicitAccount, (considered req candidates).isEmpty with
  | some label, true => .noCapacity [absentRejection req label] none
  | _, _ =>
    match ranking req candidates with
    | (cap,e) :: losers =>
      .selected cap.credential e.utilization e.tier e.budgetResetMs (rejections ++ outranked losers)
    | [] => .noCapacity rejections (rejections.filterMap (futureReset req)).min?

end Select

open Std List

section Order

variable (req : SelectionRequest)

instance : TransCmp utilizationCmp :=
  inferInstanceAs (TransCmp (compareLex (compareOn Option.isNone) (compareOn (Option.getD · 0))))

instance : TransCmp (fun a b : Seat => utilizationCmp a.2.utilization b.2.utilization) where
  eq_swap {a b} := @OrientedCmp.eq_swap _ utilizationCmp _ a.2.utilization b.2.utilization
  isLE_trans {a b c} := @TransCmp.isLE_trans _ utilizationCmp _ a.2.utilization b.2.utilization
    c.2.utilization

instance : TransCmp (preferenceCmp req) :=
  inferInstanceAs (TransCmp (compareLex (compareOn fun s : Seat => preferenceRank req s.1.credential)
    (compareOn Seat.key)))

instance : TransCmp (leastUsedCmp req) :=
  inferInstanceAs (TransCmp (compareLex
    (fun a b : Seat => utilizationCmp a.2.utilization b.2.utilization) (preferenceCmp req)))

instance (tier : Nat) : TransCmp (tierCmp req tier) := by
  unfold tierCmp
  split
  · exact inferInstanceAs (TransCmp (compareLex (compareOn fun s : Seat => s.2.budgetResetMs)
      (leastUsedCmp req)))
  · exact inferInstanceAs (TransCmp (compareLex (compareOn fun s : Seat => s.2.budgetResetMs)
      (leastUsedCmp req)))
  · exact inferInstanceAs (TransCmp (compareLex (preferenceCmp req) (leastUsedCmp req)))
  · exact inferInstanceAs (TransCmp (compareLex
      (fun a b : Seat => utilizationCmp a.2.utilization b.2.utilization) (leastUsedCmp req)))

instance : TransCmp (strategyCmp req) := by
  unfold strategyCmp
  split
  · infer_instance
  · infer_instance
  · exact inferInstanceAs (TransCmp (tagged (fun s : Seat => s.2.tier) (tierCmp req)))

instance : TransCmp (seatCmp req) :=
  inferInstanceAs (TransCmp (compareLex (compareOn fun s : Seat => s.2.graced) (strategyCmp req)))

variable {req}

theorem key_of_preferenceCmp {a b : Seat} (h : preferenceCmp req a b = .eq) : a.key = b.key :=
  LawfulEqOrd.eq_of_compare (Ordering.then_eq_eq.mp h).2

theorem key_of_leastUsedCmp {a b : Seat} (h : leastUsedCmp req a b = .eq) : a.key = b.key :=
  key_of_preferenceCmp (Ordering.then_eq_eq.mp h).2

theorem key_of_seatCmp {a b : Seat} (h : seatCmp req a b = .eq) : a.key = b.key := by
  have h := (Ordering.then_eq_eq.mp h).2
  unfold strategyCmp at h
  split at h
  · exact key_of_preferenceCmp h
  · exact key_of_leastUsedCmp h
  · exact key_of_leastUsedCmp (Ordering.then_eq_eq.mp (Ordering.then_eq_eq.mp h).2).2

end Order

section Eligible

variable {req : SelectionRequest} {candidates : List AccountCapacity}

/-- The accounts of the requested provider have distinct storage keys. -/
def DistinctKeys (req : SelectionRequest) (candidates : List AccountCapacity) : Prop :=
  ((candidates.filter fun cap => cap.credential.provider = req.provider).map
    fun cap => cap.credential.storageKey).Nodup

theorem considered_eq : considered req candidates =
    (candidates.filter fun cap => cap.credential.provider = req.provider).filter
      fun cap => req.explicitAccount.all fun label => cap.credential.account.labelStr = label := by
  rw [considered,filter_filter]
  congr 1
  funext cap
  exact Bool.and_comm _ _

theorem seatOf_eq_some {cap : AccountCapacity} {s : Seat} (h : seatOf req cap = some s) :
    s.1 = cap ∧ evaluate req cap = .ok s.2 := by
  unfold seatOf at h
  split at h
  · rename_i e he
    cases h
    exact ⟨rfl,he⟩
  · cases h

theorem mem_eligible {s : Seat} (h : s ∈ eligible req candidates) :
    s.1 ∈ considered req candidates ∧ evaluate req s.1 = .ok s.2 := by
  obtain ⟨cap,hcap,hs⟩ := mem_filterMap.mp h
  obtain ⟨rfl,he⟩ := seatOf_eq_some hs
  exact ⟨hcap,he⟩

theorem considered_keys (h : DistinctKeys req candidates) :
    ((considered req candidates).map fun cap => cap.credential.storageKey).Nodup := by
  rw [considered_eq]
  exact h.sublist (filter_sublist.map _)

theorem seat_of_key (hkeys : DistinctKeys req candidates) {a b : Seat}
    (ha : a ∈ eligible req candidates) (hb : b ∈ eligible req candidates) (h : a.key = b.key) :
    a = b := by
  obtain ⟨ha,hea⟩ := mem_eligible ha
  obtain ⟨hb,heb⟩ := mem_eligible hb
  have hcap : a.1 = b.1 := inj_on_of_nodup_map (considered_keys hkeys) ha hb h
  rw [hcap,heb] at hea
  exact Prod.ext hcap (Except.ok.inj hea).symm

theorem sorted_eq_of_perm (hkeys : DistinctKeys req candidates) {candidates' : List AccountCapacity}
    (h : candidates.Perm candidates') :
    sortBy (seatCmp req) (eligible req candidates) = sortBy (seatCmp req) (eligible req candidates') :=
  sortBy_eq_of_perm ((h.filter _).filterMap _) fun _ ha _ hb hab =>
    seat_of_key hkeys ha hb (key_of_seatCmp hab)

end Eligible

/-- Outcomes that differ in the order of their rejections at most. -/
def Selection.Same : Selection → Selection → Prop
  | .selected c u t b rs, .selected c' u' t' b' rs' =>
    c = c' ∧ u = u' ∧ t = t' ∧ b = b' ∧ rs.Perm rs'
  | .noCapacity rs earliest, .noCapacity rs' earliest' => rs.Perm rs' ∧ earliest = earliest'
  | _, _ => False

theorem min?_eq_of_perm {l l' : List Nat} (h : l.Perm l') : l.min? = l'.min? := by
  cases hl : l.min? with
  | none =>
    rw [min?_eq_none_iff] at hl
    subst hl
    rw [← h.nil_eq]
    rfl
  | some m =>
    obtain ⟨hm,hle⟩ := min?_eq_some_iff.mp hl
    symm
    exact min?_eq_some_iff.mpr ⟨h.mem_iff.mp hm,fun b hb => hle b (h.mem_iff.mpr hb)⟩

theorem select_same (req : SelectionRequest) {candidates candidates' : List AccountCapacity}
    (h : candidates.Perm candidates') (hkeys : DistinctKeys req candidates) :
    (select req candidates).Same (select req candidates') := by
  have hconsidered : (considered req candidates).Perm (considered req candidates') := h.filter _
  have hrejections := hconsidered.filterMap (rejectionOf req)
  have hranking : ranking req candidates = ranking req candidates' := by
    rw [ranking,ranking,sorted_eq_of_perm hkeys h]
  have hempty : (considered req candidates).isEmpty = (considered req candidates').isEmpty := by
    rw [Bool.eq_iff_iff,List.isEmpty_iff,List.isEmpty_iff]
    exact ⟨fun he => (he ▸ hconsidered).nil_eq.symm,fun he => (he ▸ hconsidered).eq_nil⟩
  simp only [select,← hranking,← hempty]
  split
  · exact ⟨.refl _,rfl⟩
  · split
    · exact ⟨rfl,rfl,rfl,rfl,hrejections.append_right _⟩
    · exact ⟨hrejections,min?_eq_of_perm (hrejections.filterMap _)⟩

def weeklyReading (used : ℚ) (resetsAtMs : Nat) : QuotaObservation :=
  .ok [⟨"weekly",some weeklyWindowMinMs,some (.finite used),some false,some resetsAtMs,none⟩] none

def soonSeat : AccountCapacity :=
  ⟨⟨.openAiCodex,.default⟩,some 1000,weeklyReading 20 7200000,none,none⟩

def lateSeat : AccountCapacity :=
  ⟨⟨.openAiCodex,.named ⟨"work",by decide +kernel⟩⟩,some 1000,weeklyReading 10 864000000,none,none⟩

def pinnedRequest : SelectionRequest where
  provider := .openAiCodex
  model := none
  nowMs := 2000
  maxSnapshotAgeMs := 1800000
  preference := []
  explicitAccount := none
  exclude := []
  strategy := .soonestReset
  exhaustedAtPercent := .finite 100
  current := some lateSeat.credential
  urgentHorizonMs := 86400000
  sticky := true
  grace := []
  graceMaxAgeMs := 1800000

theorem pinned_distinctKeys : DistinctKeys pinnedRequest [soonSeat,lateSeat] := by
  unfold DistinctKeys
  decide +kernel

theorem select_same_swapped : [soonSeat,lateSeat] ≠ [lateSeat,soonSeat] ∧
    (select pinnedRequest [soonSeat,lateSeat]).Same (select pinnedRequest [lateSeat,soonSeat]) :=
  ⟨by decide +kernel,select_same pinnedRequest (.swap lateSeat soonSeat []) pinned_distinctKeys⟩

/-- A better tier or, if both are urgent, an earlier reset. -/
def Advantage (a b : Eligible) : Prop :=
  a.tier < b.tier ∨ (a.tier = 1 ∧ b.tier = 1 ∧
    ∃ x y, a.budgetResetMs = some x ∧ b.budgetResetMs = some y ∧ x < y)

theorem tierFor_one {anchored : Option Bool} {reset : Option Nat} {nowMs urgentHorizonMs : Nat}
    (h : tierFor anchored reset nowMs urgentHorizonMs = 1) : reset.isSome = true := by
  cases reset with
  | none => simp [tierFor] at h
  | some _ => rfl

theorem tierFor_pos (anchored : Option Bool) (reset : Option Nat) (nowMs urgentHorizonMs : Nat) :
    1 ≤ tierFor anchored reset nowMs urgentHorizonMs := by
  unfold tierFor
  split
  · omega
  · omega
  · split <;> omega

def Tiered (req : SelectionRequest) (e : Eligible) : Prop :=
  e.tier = tierFor e.anchored e.budgetResetMs req.nowMs req.urgentHorizonMs

section

variable {req : SelectionRequest}

theorem evaluateWindows_tiered {observed : Nat} {windows : List WindowLimit} {e : Eligible}
    (h : evaluateWindows req observed windows = .ok e) : Tiered req e := by
  obtain ⟨seen,-,h⟩ := Outcome.bind_ok h
  dsimp only at h
  split at h
  · cases h
  · cases h
    rfl

theorem evaluateWith_tiered {graced : AccountCapacity → Except RejectReason Eligible}
    {cap : AccountCapacity} {e : Eligible} (hgraced : ∀ e, graced cap = .ok e → Tiered req e)
    (h : evaluateWith req graced cap = .ok e) : Tiered req e := by
  unfold evaluateWith at h
  split at h
  · cases h
  split at h
  · cases h
  split at h
  · unfold evaluateReading at h
    split at h
    · cases h
    split at h
    · cases h
    split at h
    · cases h
    · split at h
      · cases h
      · exact evaluateWindows_tiered h
  · cases h
  · cases h
  · cases h
  · exact hgraced e h

theorem evaluate_tiered {cap : AccountCapacity} {e : Eligible} (h : evaluate req cap = .ok e) :
    Tiered req e := by
  refine evaluateWith_tiered (fun e he => ?_) h
  unfold evaluateGraced at he
  split at he
  · cases he
  split at he
  · dsimp only at he
    split at he
    · rename_i inner hinner
      have htiered := evaluateWith_tiered (fun _ hnone => by cases hnone) hinner
      cases he
      exact htiered
    · cases he
  · cases he

theorem switch_iff {a b : Eligible} (ha : Tiered req a) (hb : Tiered req b) :
    switch a b = true ↔ Advantage a b := by
  simp only [switch,Advantage,Bool.or_eq_true,Bool.and_eq_true,decide_eq_true_eq,and_assoc]
  refine or_congr_right (and_congr_right fun ha₁ => and_congr_right fun hb₁ => ?_)
  obtain ⟨x,hx⟩ := Option.isSome_iff_exists.mp (tierFor_one (ha.symm.trans ha₁))
  obtain ⟨y,hy⟩ := Option.isSome_iff_exists.mp (tierFor_one (hb.symm.trans hb₁))
  have hcompare : compare (some x) (some y) = .lt ↔ x < y := @compare_lt_iff_lt Nat _ x y
  simpa [hx,hy] using hcompare

end

theorem switch_irrefl (a : Eligible) : switch a a = false := by
  simp [switch]

section Sticky

variable {req : SelectionRequest} {candidates : List AccountCapacity}

theorem seatCmp_isLE (hstrategy : req.strategy = .soonestReset) {a b : Seat}
    (h : (seatCmp req a b).isLE = true) :
    (a.2.graced = false ∧ b.2.graced = true) ∨ (a.2.graced = b.2.graced ∧ (a.2.tier < b.2.tier ∨
      (a.2.tier = b.2.tier ∧
        (a.2.tier = 1 → (compare a.2.budgetResetMs b.2.budgetResetMs).isLE = true)))) := by
  obtain ⟨hgraced,h⟩ := Ordering.isLE_then_iff_and.mp h
  rcases h with hlt | h
  · left
    revert hlt
    cases a.2.graced <;> cases b.2.graced <;> decide
  · cases hg : compare a.2.graced b.2.graced with
    | gt =>
      rw [hg] at hgraced
      cases hgraced
    | lt =>
      left
      revert hg
      cases a.2.graced <;> cases b.2.graced <;> decide
    | eq =>
      refine .inr ⟨LawfulEqOrd.eq_of_compare hg,?_⟩
      rw [strategyCmp,hstrategy] at h
      obtain ⟨htier,h⟩ := Ordering.isLE_then_iff_and.mp h
      rcases h with hlt | h
      · exact .inl (compare_lt_iff_lt.mp hlt)
      rcases Nat.lt_or_eq_of_le (compare_le_iff_le.mp (Ordering.ne_gt_iff_isLE.mpr htier)) with hlt | heq
      · exact .inl hlt
      · refine .inr ⟨heq,fun hone => ?_⟩
        have h : (tierCmp req 1 a b).isLE = true := hone ▸ h
        exact (Ordering.isLE_then_iff_and.mp h).1

section

variable {best : Seat}
  (hbest : (sortBy (seatCmp req) (eligible req candidates)).head? = some best)

include hbest

theorem head_isLE {s : Seat} (hs : s ∈ eligible req candidates) :
    (seatCmp req best s).isLE = true := by
  have hsorted := @sortBy_pairwise _ (seatCmp req) _ (eligible req candidates)
  have hmem := (@sortBy_perm _ (seatCmp req) (eligible req candidates)).mem_iff.mpr hs
  cases hl : sortBy (seatCmp req) (eligible req candidates) with
  | nil =>
    rw [hl] at hmem
    cases hmem
  | cons a l =>
    rw [hl] at hsorted hmem hbest
    cases hbest
    rcases mem_cons.mp hmem with rfl | hmem
    · exact ReflCmp.isLE_rfl
    · exact (pairwise_cons.mp hsorted).1 s hmem

theorem mem_eligible_of_head : best ∈ eligible req candidates :=
  (sortBy_perm _).mem_iff.mp (mem_of_head? hbest)

end

theorem switch_of_advantage (hstrategy : req.strategy = .soonestReset) {best f cur : Seat}
    (hbest : (sortBy (seatCmp req) (eligible req candidates)).head? = some best)
    (hf : f ∈ eligible req candidates) (hfresh : f.2.graced = false)
    (hcur : cur ∈ eligible req candidates) (h : Advantage f.2 cur.2) :
    switch best.2 cur.2 = true := by
  have hb := evaluate_tiered (mem_eligible (mem_eligible_of_head hbest)).2
  have hc := evaluate_tiered (mem_eligible hcur).2
  rw [switch_iff hb hc]
  have hpos : 1 ≤ best.2.tier := hb ▸ tierFor_pos _ _ _ _
  rcases seatCmp_isLE hstrategy (head_isLE hbest hf) with ⟨-,hgraced⟩ | ⟨-,hlt | ⟨heq,hreset⟩⟩
  · rw [hfresh] at hgraced
    cases hgraced
  · rcases h with h | ⟨h,-,-⟩
    · exact .inl (hlt.trans h)
    · omega
  · rcases h with h | ⟨hone,hcone,x,y,hx,hy,hxy⟩
    · exact .inl (heq ▸ h)
    rw [hone] at heq
    obtain ⟨z,hz⟩ := Option.isSome_iff_exists.mp (tierFor_one (hb.symm.trans heq))
    have hzx := hreset heq
    rw [hz,hx] at hzx
    have hzx : z ≤ x := compare_le_iff_le.mp (Ordering.ne_gt_iff_isLE.mpr hzx)
    exact .inr ⟨heq,hcone,z,y,hz,hy,hzx.trans_lt hxy⟩

theorem sorted_mem {s : Seat} {i : Nat}
    (h : (sortBy (seatCmp req) (eligible req candidates))[i]? = some s) :
    s ∈ eligible req candidates :=
  (sortBy_perm _).mem_iff.mp (mem_of_getElem? h)

theorem findIdx?_key {l : List Seat} {key : String} {i : Nat}
    (h : l.findIdx? (fun s => s.key = key) = some i) : ∃ s, l[i]? = some s ∧ s.key = key := by
  obtain ⟨hi,hkey,-⟩ := findIdx?_eq_some_iff_getElem.mp h
  exact ⟨l[i],getElem?_eq_getElem hi,by simpa using hkey⟩

theorem ranking_head (hsticky : req.sticky = true) (hstrategy : req.strategy = .soonestReset)
    (hkeys : DistinctKeys req candidates) {w : Seat} (h : (ranking req candidates).head? = some w) :
    ∃ best, (sortBy (seatCmp req) (eligible req candidates)).head? = some best ∧
      ((w = best ∧ ∀ current, req.current = some current → ∀ cur ∈ eligible req candidates,
          cur.key = current.storageKey → cur = best ∨ switch best.2 cur.2 = true) ∨
        (w ∈ eligible req candidates ∧ switch best.2 w.2 = false ∧
          ∃ current, req.current = some current ∧ w.key = current.storageKey)) := by
  have hmem (s : Seat) (hs : s ∈ eligible req candidates) :=
    (@sortBy_perm _ (seatCmp req) (eligible req candidates)).mem_iff.mpr hs
  simp only [ranking,stick,hsticky,hstrategy,decide_true,Bool.and_self,if_true] at h
  cases hcurrent : req.current with
  | none =>
    rw [hcurrent] at h
    exact ⟨w,h,.inl ⟨rfl,nofun⟩⟩
  | some current =>
    simp only [hcurrent] at h
    cases hhead : (sortBy (seatCmp req) (eligible req candidates)).head? with
    | none =>
      simp only [hhead] at h
      cases h
    | some best =>
      refine ⟨best,rfl,?_⟩
      simp only [hhead] at h
      split at h
      · rename_i best' i heq hidx
        cases heq
        obtain ⟨cur,hcur,hkey⟩ := findIdx?_key hidx
        have hcurmem := sorted_mem hcur
        simp only [hcur,Option.any_some] at h
        split at h
        · -- The pinned seat stays: it is moved to the front.
          rename_i hkeep
          simp only [Bool.and_eq_true,Bool.not_eq_true'] at hkeep
          rw [rotate,hcur] at h
          cases h
          exact .inr ⟨hcurmem,hkeep.2,current,rfl,hkey⟩
        · rename_i hleave
          rw [hhead] at h
          cases h
          refine .inl ⟨rfl,fun c hc s hs hskey => ?_⟩
          cases hc
          obtain rfl : s = cur := seat_of_key hkeys hs hcurmem (hskey.trans hkey.symm)
          cases i with
          | zero =>
            rw [head?_eq_getElem?,hcur] at hhead
            exact .inl (Option.some.inj hhead)
          | succ i =>
            right
            simpa using hleave
      · rename_i hnone
        rw [hhead] at h
        cases h
        refine .inl ⟨rfl,fun c hc s hs hskey => ?_⟩
        cases hc
        cases hidx : (sortBy (seatCmp req) (eligible req candidates)).findIdx?
            (fun s => s.key = current.storageKey) with
        | some i => exact absurd hidx (hnone w i rfl)
        | none =>
          have hmiss := findIdx?_eq_none_iff.mp hidx s (hmem s hs)
          simp [hskey] at hmiss

theorem rotate_perm {α : Type} (l : List α) (i : Nat) : (rotate l i).Perm l := by
  unfold rotate
  by_cases hi : i < l.length
  · rw [getElem?_eq_getElem hi]
    exact getElem_cons_eraseIdx_perm hi
  · rw [getElem?_eq_none (Nat.le_of_not_lt hi),eraseIdx_of_length_le (Nat.le_of_not_lt hi)]
    exact .refl _

theorem stick_perm (ranked : List Seat) : (stick req ranked).Perm ranked := by
  unfold stick
  split
  · split
    · exact .refl _
    split
    · split
      · exact rotate_perm ranked _
      · exact .refl _
    · exact .refl _
  · exact .refl _

theorem ranking_perm : (ranking req candidates).Perm (eligible req candidates) :=
  (stick_perm _).trans (sortBy_perm _)

theorem winner_eq : (select req candidates).winner =
    (ranking req candidates).head?.map fun s => s.1.credential := by
  unfold select
  split
  · rename_i hempty
    have hnil : eligible req candidates = [] := by
      rw [eligible,isEmpty_iff.mp hempty,filterMap_nil]
    have hranking := hnil ▸ @ranking_perm req candidates
    rw [hranking.eq_nil]
    rfl
  · split
    all_goals
      rename_i hranking
      rw [hranking]
      rfl

theorem ranking_nonempty {w : Seat} (hw : w ∈ eligible req candidates) :
    ∃ w', (ranking req candidates).head? = some w' := by
  cases hr : ranking req candidates with
  | nil =>
    have hperm := hr ▸ @ranking_perm req candidates
    rw [← hperm.nil_eq] at hw
    cases hw
  | cons a l => exact ⟨a,rfl⟩

theorem winner_seat {c : CredentialRef} (h : (select req candidates).winner = some c) :
    ∃ w, (ranking req candidates).head? = some w ∧ w ∈ eligible req candidates ∧
      w.1.credential = c := by
  rw [winner_eq,Option.map_eq_some_iff] at h
  obtain ⟨w,hw,rfl⟩ := h
  exact ⟨w,hw,ranking_perm.mem_iff.mp (mem_of_head? hw),rfl⟩

theorem winner_seat_of_mem (hkeys : DistinctKeys req candidates) {w : Seat}
    (hw : w ∈ eligible req candidates) (h : (select req candidates).winner = some w.1.credential) :
    (ranking req candidates).head? = some w := by
  obtain ⟨w',hhead,hw',hc⟩ := winner_seat h
  rwa [← seat_of_key hkeys hw' hw (congrArg CredentialRef.storageKey hc)]

end Sticky

structure StickyChoice (req : SelectionRequest) (candidates : List AccountCapacity) : Prop where
  eligible_wins : ∀ c, (select req candidates).winner = some c →
    ∃ w ∈ eligible req candidates, w.1.credential = c
  some_wins : eligible req candidates ≠ [] → (select req candidates).winner ≠ none
  moves_for_cause : ∀ current, req.current = some current → ∀ cur ∈ eligible req candidates,
    cur.key = current.storageKey → ∀ w ∈ eligible req candidates, w ≠ cur →
    (select req candidates).winner = some w.1.credential → Advantage w.2 cur.2
  leaves_on_cause : ∀ current, req.current = some current → ∀ cur ∈ eligible req candidates,
    cur.key = current.storageKey → ∀ f ∈ eligible req candidates, f.2.graced = false →
    Advantage f.2 cur.2 → (select req candidates).winner ≠ some cur.1.credential
  fresh_first : ∀ w ∈ eligible req candidates, w.2.graced = true →
    (∀ current, req.current = some current → w.key ≠ current.storageKey) →
    (select req candidates).winner = some w.1.credential →
    ∀ f ∈ eligible req candidates, f.2.graced = true
  stable : ∀ c, (select req candidates).winner = some c →
    (select { req with current := some c } candidates).winner = some c

theorem select_stickyChoice (req : SelectionRequest) (candidates : List AccountCapacity)
    (hsticky : req.sticky = true) (hstrategy : req.strategy = .soonestReset)
    (hkeys : DistinctKeys req candidates) : StickyChoice req candidates := by
  refine ⟨fun c hwin => ?_,fun hsome => ?_,?_,?_,?_,?_⟩
  · obtain ⟨w,-,hw,hc⟩ := winner_seat hwin
    exact ⟨w,hw,hc⟩
  · obtain ⟨seat,hseat⟩ := exists_mem_of_ne_nil _ hsome
    obtain ⟨w,hw⟩ := ranking_nonempty hseat
    simp [winner_eq,hw]
  · intro current hcurrent cur hcur hkey w hw hne hwin
    have hhead := winner_seat_of_mem hkeys hw hwin
    obtain ⟨best,-,⟨rfl,hleft⟩ | ⟨-,-,c,hc,hwkey⟩⟩ := ranking_head hsticky hstrategy hkeys hhead
    · have hswitch := (hleft current hcurrent cur hcur hkey).resolve_left (Ne.symm hne)
      exact (switch_iff (evaluate_tiered (mem_eligible hw).2)
        (evaluate_tiered (mem_eligible hcur).2)).mp hswitch
    · cases hcurrent.symm.trans hc
      exact absurd (seat_of_key hkeys hw hcur (hwkey.trans hkey.symm)) hne
  · intro current hcurrent cur hcur hkey f hf hfresh hadvantage hwin
    have hhead := winner_seat_of_mem hkeys hcur hwin
    obtain ⟨best,hbest,hcases⟩ := ranking_head hsticky hstrategy hkeys hhead
    have hswitch := switch_of_advantage hstrategy hbest hf hfresh hcur hadvantage
    rcases hcases with ⟨rfl,-⟩ | ⟨-,hkept,-⟩
    · rw [switch_irrefl] at hswitch
      cases hswitch
    · rw [hkept] at hswitch
      cases hswitch
  · intro w hw hgraced hother hwin f hf
    have hhead := winner_seat_of_mem hkeys hw hwin
    obtain ⟨best,hbest,⟨rfl,-⟩ | ⟨-,-,c,hc,hwkey⟩⟩ := ranking_head hsticky hstrategy hkeys hhead
    · rcases seatCmp_isLE hstrategy (head_isLE hbest hf) with ⟨hfresh,-⟩ | ⟨heq,-⟩
      · rw [hgraced] at hfresh
        cases hfresh
      · rw [← heq,hgraced]
    · exact absurd hwkey (hother c hc)
  · intro c hwin
    obtain ⟨w,hhead,hw,rfl⟩ := winner_seat hwin
    obtain ⟨best,hbest,hcases⟩ := ranking_head hsticky hstrategy hkeys hhead
    have hkept : switch best.2 w.2 = false := by
      rcases hcases with ⟨rfl,-⟩ | ⟨-,hkept,-⟩
      · exact switch_irrefl _
      · exact hkept
    -- The same seats are ranked; only the pinned one is another.
    obtain ⟨w',hhead'⟩ :=
      @ranking_nonempty { req with current := some w.1.credential } candidates w hw
    rw [winner_eq,hhead',Option.map_some]
    obtain ⟨best',hbest',hcases'⟩ := @ranking_head { req with current := some w.1.credential }
      candidates hsticky hstrategy hkeys _ hhead'
    cases hbest'.symm.trans hbest
    rcases hcases' with ⟨rfl,hleft⟩ | ⟨hw',-,c,hc,hkey⟩
    · rcases hleft _ rfl w hw rfl with rfl | hswitch
      · rfl
      · rw [hkept] at hswitch
        cases hswitch
    · cases hc
      rw [seat_of_key hkeys hw' hw hkey]

theorem select_stickyChoice_pinned : pinnedRequest.current = some lateSeat.credential ∧
    StickyChoice pinnedRequest [soonSeat,lateSeat] :=
  ⟨rfl,select_stickyChoice pinnedRequest [soonSeat,lateSeat] rfl rfl pinned_distinctKeys⟩

end Synaps.Quota
