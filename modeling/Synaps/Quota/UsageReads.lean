import Synaps.Quota.Policy
import Synaps.Lib.Runs

/-!
The table of usage reads, one entry for each account slot, and concurrent reads of one slot: a
single flight at a time, no request inside a hold, and a call that starts to wait while a fetch is
in flight takes its result.
-/

set_option autoImplicit false

namespace Synaps.UsageReads

open Synaps.Quota Word

/-- The broker errors; a usage error becomes one of the first four. -/
inductive BrokerError where
  | unsupportedCapability (provider capability : String)
  | credential (text : String)
  | denied (text : String)
  | transport (text : String)
  | other (text : String)
  deriving DecidableEq

inductive UsageError where
  | unsupportedProvider (provider : String)
  | accountIdUnavailable
  | identityMismatch
  | invalidEndpointOverride
  | unauthorized (status : Nat)
  | rateLimited (retryAfterS : Option Nat)
  | upstreamStatus (status : Nat) (retryAfterS : Option Nat)
  | redirected (status : Nat)
  | timeout
  | transport (detail : String)
  | bodyTooLarge (cap : Nat)
  | malformed (detail : String)
  deriving DecidableEq

def UsageError.kind : UsageError → String
  | .unsupportedProvider _ => "unsupported_provider"
  | .accountIdUnavailable => "account_id_unavailable"
  | .identityMismatch => "identity_mismatch"
  | .invalidEndpointOverride => "invalid_endpoint_override"
  | .unauthorized _ => "unauthorized"
  | .rateLimited _ => "rate_limited"
  | .upstreamStatus _ _ => "upstream_status"
  | .redirected _ => "redirected"
  | .timeout => "timeout"
  | .transport _ => "transport"
  | .bodyTooLarge _ => "body_too_large"
  | .malformed _ => "malformed"

def UsageError.isAuthFailure : UsageError → Bool
  | .unauthorized _ | .accountIdUnavailable | .identityMismatch => true
  | _ => false

def UsageError.display : UsageError → String
  | .unsupportedProvider provider => "no usage adapter for provider '" ++ provider ++ "'"
  | .accountIdUnavailable => "access token carries no account id; cannot pair account header"
  | .identityMismatch => "usage response names a different account than the token"
  | .invalidEndpointOverride => "endpoint override must be a loopback test server"
  | .unauthorized status =>
    "provider rejected the access token (HTTP " ++ toString status ++ ")"
  | .rateLimited (some secs) =>
    "usage endpoint rate limited (HTTP 429, retry after " ++ toString secs ++ "s)"
  | .rateLimited none => "usage endpoint rate limited (HTTP 429)"
  | .upstreamStatus status (some secs) =>
    "usage request failed: HTTP " ++ toString status ++ ", retry after " ++ toString secs ++ "s"
  | .upstreamStatus status none => "usage request failed: HTTP " ++ toString status
  | .redirected status =>
    "usage endpoint redirected (HTTP " ++ toString status ++ "); not followed"
  | .timeout => "usage request timed out"
  | .transport detail => "usage transport error: " ++ detail
  | .bodyTooLarge cap => "usage response exceeded " ++ toString cap ++ " bytes"
  | .malformed detail => "usage response malformed: " ++ detail

def UsageError.failure : UsageError → ObservationFailure
  | .unsupportedProvider _ | .invalidEndpointOverride => ⟨.unsupported,none,none⟩
  | .accountIdUnavailable | .identityMismatch => ⟨.usageUnauthorized,none,none⟩
  | .unauthorized status => ⟨.usageUnauthorized,some status,none⟩
  | .rateLimited retryAfterS => ⟨.usageRateLimited,some 429,retryAfterS⟩
  | .upstreamStatus status retryAfterS => ⟨.usageUpstream,some status,retryAfterS⟩
  | .redirected status => ⟨.usageUpstream,some status,none⟩
  | .timeout => ⟨.usageTimeout,none,none⟩
  | .transport _ => ⟨.usageTransport,none,none⟩
  | .bodyTooLarge _ | .malformed _ => ⟨.usageMalformed,none,none⟩

def UsageError.intoBrokerError : UsageError → BrokerError
  | .unsupportedProvider provider => .unsupportedCapability provider "usage"
  | .unauthorized status => .credential ("usage: " ++ display (.unauthorized status))
  | .accountIdUnavailable => .credential ("usage: " ++ display .accountIdUnavailable)
  | .identityMismatch => .credential ("usage: " ++ display .identityMismatch)
  | .invalidEndpointOverride => .denied ("usage: " ++ display .invalidEndpointOverride)
  | other => .transport ("usage: " ++ display other)

def needsLogin : AccountFailureKind → Bool
  | .usageUnauthorized | .refreshRejected | .credentialMissing | .authError => true
  | _ => false

/-- A failure that says nothing about the account. -/
structure TransientReadFailure where
  kind : String
  status : Option Nat
  retryAfterS : Option Nat
  error : UsageError
  deriving DecidableEq

def TransientReadFailure.fromUsageError (e : UsageError) : Option TransientReadFailure :=
  match e with
  | .rateLimited retryAfterS => some ⟨e.kind,some 429,retryAfterS,e⟩
  | .upstreamStatus status retryAfterS =>
    if status ≥ 500 then some ⟨e.kind,some status,retryAfterS,e⟩ else none
  | .timeout => some ⟨e.kind,none,none,e⟩
  | .transport _ => some ⟨e.kind,none,none,e⟩
  | _ => none

/-- What one network read produced, before the table classifies it. -/
inductive Fetched (Snap Seat : Type) where
  | ok (snapshot : Snap) (seat : Seat)
  | usage (e : UsageError)
  | failed (error : BrokerError) (cause : ObservationFailure)

inductive ReadError where
  | transient (failure : TransientReadFailure) (retryAtMs : Nat)
  | other (error : BrokerError) (cause : ObservationFailure)
  deriving DecidableEq

abbrev ReadResult (Snap Seat : Type) := Except ReadError (Snap × Seat)

inductive ReadPath where
  | network | joined | negativeCacheHit
  deriving DecidableEq

structure Hold where
  failure : TransientReadFailure
  untilMs : Nat
  backoffMs : Nat
  deriving DecidableEq

structure Entry (Snap Seat : Type) where
  generation : Nat
  last : Option (ReadResult Snap Seat)
  hold : Option Hold
  lastGood : Option (Snap × Seat)

variable {Snap Seat : Type}

def Entry.default : Entry Snap Seat := ⟨0,none,none,none⟩

def negativeBackoffStartMs : Nat := 2 * 60 * 1000

def negativeBackoffCapMs : Nat := 10 * 60 * 1000

def heldAt (slot : Option (Entry Snap Seat)) (nowMs : Nat) : Option (TransientReadFailure × Nat) :=
  match slot.bind Entry.hold with
  | some h => if h.untilMs > nowMs then some (h.failure,h.untilMs) else none
  | none => none

def nextHold (hold : Option Hold) (failure : TransientReadFailure) (nowMs : Nat) : Hold :=
  let cap := negativeBackoffCapMs
  let backoffMs :=
    match hold with
    | some h => min (min (h.backoffMs * 2) u64Max) cap
    | none => negativeBackoffStartMs
  let asked := failure.retryAfterS.elim 0 (fun s => min (s * 1000) u64Max)
  ⟨failure,min (nowMs + min (max backoffMs asked) cap) u64Max,backoffMs⟩

def classify (entry : Entry Snap Seat) (fetched : Fetched Snap Seat) (nowMs : Nat) :
    Entry Snap Seat × ReadResult Snap Seat :=
  match fetched with
  | .ok snapshot seat =>
    ({ entry with hold := none, lastGood := some (snapshot,seat) },.ok (snapshot,seat))
  | .usage e =>
    match TransientReadFailure.fromUsageError e with
    | some failure =>
      let hold := nextHold entry.hold failure nowMs
      ({ entry with hold := some hold },.error (.transient failure hold.untilMs))
    | none =>
      ({ entry with
          hold := none
          lastGood := if e.isAuthFailure then none else entry.lastGood },
        .error (.other e.intoBrokerError e.failure))
  | .failed error cause =>
    ({ entry with
        hold := none
        lastGood := if needsLogin cause.kind then none else entry.lastGood },
      .error (.other error cause))

def recordAt (slot : Option (Entry Snap Seat)) (fetched : Fetched Snap Seat) (nowMs : Nat) :
    Entry Snap Seat × ReadResult Snap Seat :=
  let (entry,result) := classify (slot.getD Entry.default) fetched nowMs
  ({ entry with generation := (entry.generation + 1) % 2^64, last := some result },result)

def generation (slot : Option (Entry Snap Seat)) : Nat := slot.elim 0 Entry.generation

def joined (slot : Option (Entry Snap Seat)) (seen : Nat) : Option (ReadResult Snap Seat) :=
  match slot with
  | some e => if e.generation ≠ seen then e.last else none
  | none => none

variable (slot : Option (Entry Snap Seat))

theorem heldAt_eq_none_iff (nowMs : Nat) :
    heldAt slot nowMs = none ↔ ∀ h, slot.bind Entry.hold = some h → h.untilMs ≤ nowMs := by
  unfold heldAt
  cases slot.bind Entry.hold with
  | none | some h => simp

theorem le_nextHold_untilMs (hold : Option Hold) (failure : TransientReadFailure) {nowMs : Nat}
    (hnow : nowMs < 2^64) : nowMs ≤ (nextHold hold failure nowMs).untilMs := by
  have hmax : nowMs ≤ u64Max := by unfold u64Max; omega
  exact Nat.le_min.mpr ⟨Nat.le_add_right _ _,hmax⟩

theorem classify_generation (entry : Entry Snap Seat) (fetched : Fetched Snap Seat) (nowMs : Nat) :
    (classify entry fetched nowMs).1.generation = entry.generation := by
  cases fetched with
  | ok snapshot seat => rfl
  | usage e => cases h : TransientReadFailure.fromUsageError e <;> simp only [classify,h]
  | failed error cause => rfl

variable (fetched : Fetched Snap Seat)

@[simp] theorem recordAt_generation (nowMs : Nat) :
    (recordAt slot fetched nowMs).1.generation = (generation slot + 1) % 2^64 := by
  have hslot : (slot.getD Entry.default).generation = generation slot := by
    cases slot <;> rfl
  simp only [recordAt,classify_generation,hslot]

@[simp] theorem recordAt_last (nowMs : Nat) :
    (recordAt slot fetched nowMs).1.last = some (recordAt slot fetched nowMs).2 := rfl

/-- A read either fails transiently and holds the slot until the time it reports, which is not
over yet, or it ends every hold. -/
theorem recordAt_hold {nowMs : Nat} (hnow : nowMs < 2^64) :
    (∃ failure h, (recordAt slot fetched nowMs).2 = .error (.transient failure h.untilMs) ∧
        (recordAt slot fetched nowMs).1.hold = some h ∧ nowMs ≤ h.untilMs) ∨
      ((∀ failure untilMs, (recordAt slot fetched nowMs).2 ≠ .error (.transient failure untilMs)) ∧
        (recordAt slot fetched nowMs).1.hold = none) := by
  cases fetched with
  | ok snapshot seat | failed error cause =>
    refine .inr ⟨fun failure untilMs hc => ?_,rfl⟩
    cases hc
  | usage e =>
    cases he : TransientReadFailure.fromUsageError e with
    | some failure =>
      refine .inl ⟨failure,nextHold (slot.getD Entry.default).hold failure nowMs,?_,?_,
        le_nextHold_untilMs _ _ hnow⟩
      all_goals simp only [recordAt,classify,he]
    | none =>
      refine .inr ⟨fun failure untilMs hc => ?_,?_⟩
      · simp only [recordAt,classify,he] at hc
        cases hc
      · simp only [recordAt,classify,he]

open Runs List Option Function

/-- Where a call of `read` is: each constructor is the point after one of its lock sections. -/
inductive Reader (Snap Seat : Type) where
  | idle
  | checked
  | ready (seen : Nat)
  | waiting (seen : Nat)
  | locked (seen : Nat)
  | admitted
  | fetching
  | leaving (result : ReadResult Snap Seat) (path : ReadPath)
  | returned (result : ReadResult Snap Seat) (path : ReadPath)

def Reader.inside : Reader Snap Seat → Bool
  | .locked _ | .admitted | .fetching | .leaving _ _ => true
  | _ => false

def Reader.seen? : Reader Snap Seat → Option Nat
  | .ready seen | .waiting seen | .locked seen => some seen
  | _ => none

/-- The slot's entry and gate, the clock and the calls. The last two fields are history: who
fetched which result, and how many results there were when a call read the generation. -/
structure Table (Snap Seat : Type) where
  slot : Option (Entry Snap Seat)
  nowMs : Nat
  holder : Option Nat
  queue : List Nat
  reader : Nat → Reader Snap Seat
  results : List (Nat × ReadResult Snap Seat)
  seenAt : Nat → Nat

def Table.start (nowMs : Nat) : Table Snap Seat :=
  ⟨none,nowMs,none,[],fun _ => .idle,[],fun _ => 0⟩

def Table.Started (s : Table Snap Seat) : Prop := ∃ nowMs, nowMs < 2^64 ∧ s = Table.start nowMs

inductive ReadOp (Snap Seat : Type) where
  | tick (nowMs : Nat)
  | checkHold (r : Nat)
  | readGeneration (r : Nat)
  | awaitGate (r : Nat)
  | grantGate
  | checkJoin (r : Nat)
  | startFetch (r : Nat)
  | record (r : Nat) (fetched : Fetched Snap Seat)
  | release (r : Nat)

def Table.move (s : Table Snap Seat) (r : Nat) (to' : Reader Snap Seat) : Table Snap Seat :=
  { s with reader := Function.update s.reader r to' }

/-- One atomic step of `read`, or of the clock. `pick` is the gate's choice among the calls that
wait for it, in the order of their arrival. -/
def Table.perform (pick : List Nat → Option Nat) (s : Table Snap Seat) :
    ReadOp Snap Seat → Option (Table Snap Seat)
  | .tick nowMs => if s.nowMs ≤ nowMs ∧ nowMs < 2^64 then some { s with nowMs } else none
  | .checkHold r =>
    match s.reader r with
    | .idle =>
      match heldAt s.slot s.nowMs with
      | some (failure,retryAtMs) =>
        some (s.move r (.returned (.error (.transient failure retryAtMs)) .negativeCacheHit))
      | none => some (s.move r .checked)
    | _ => none
  | .readGeneration r =>
    match s.reader r with
    | .checked =>
      some { s.move r (.ready (generation s.slot)) with
        seenAt := Function.update s.seenAt r s.results.length }
    | _ => none
  | .awaitGate r =>
    match s.reader r with
    | .ready seen => some { s.move r (.waiting seen) with queue := s.queue ++ [r] }
    | _ => none
  | .grantGate =>
    match s.holder,pick s.queue with
    | none,some r =>
      match s.reader r with
      | .waiting seen =>
        some { s.move r (.locked seen) with holder := some r, queue := s.queue.erase r }
      | _ => none
    | _,_ => none
  | .checkJoin r =>
    match s.reader r with
    | .locked seen =>
      match joined s.slot seen with
      | some result => some (s.move r (.leaving result .joined))
      | none => some (s.move r .admitted)
    | _ => none
  | .startFetch r =>
    match s.reader r with
    | .admitted => some (s.move r .fetching)
    | _ => none
  | .record r fetched =>
    match s.reader r with
    | .fetching =>
      let (entry,result) := recordAt s.slot fetched s.nowMs
      some { s.move r (.leaving result .network) with
        slot := some entry
        results := s.results ++ [(r,result)] }
    | _ => none
  | .release r =>
    match s.reader r with
    | .leaving result path => some { s.move r (.returned result path) with holder := none }
    | _ => none

def ReadStep (pick : List Nat → Option Nat) (s : Table Snap Seat) (op : ReadOp Snap Seat)
    (t : Table Snap Seat) : Prop := s.perform pick op = some t

def heldUntils (results : List (Nat × ReadResult Snap Seat)) : List Nat :=
  results.foldl (fun untils result =>
    match result.2 with
    | .error (.transient _ untilMs) => untilMs :: untils
    | _ => []) []

/-- Nothing is missed between the lock sections of a call: no hold has begun when it reads the
generation, and the wrapping generation it compares with at the gate has not come round. -/
def Unmissed (s : Table Snap Seat) : ReadOp Snap Seat → Prop
  | .readGeneration _ => heldAt s.slot s.nowMs = none
  | .checkJoin r =>
    s.results.length % 2^64 = s.seenAt r % 2^64 → s.results.length = s.seenAt r
  | _ => True

inductive ReadMove (pick : List Nat → Option Nat) (s : Table Snap Seat) :
    ReadOp Snap Seat → Table Snap Seat → Prop
  | tick {nowMs : Nat} (hle : s.nowMs ≤ nowMs) (hmax : nowMs < 2^64) :
    ReadMove pick s (.tick nowMs) { s with nowMs }
  | held {r : Nat} {failure : TransientReadFailure} {retryAtMs : Nat} (hr : s.reader r = .idle) :
    ReadMove pick s (.checkHold r)
      (s.move r (.returned (.error (.transient failure retryAtMs)) .negativeCacheHit))
  | notHeld {r : Nat} (hr : s.reader r = .idle) :
    ReadMove pick s (.checkHold r) (s.move r .checked)
  | readGeneration {r : Nat} (hr : s.reader r = .checked) :
    ReadMove pick s (.readGeneration r)
      { s.move r (.ready (generation s.slot)) with
        seenAt := Function.update s.seenAt r s.results.length }
  | awaitGate {r seen : Nat} (hr : s.reader r = .ready seen) :
    ReadMove pick s (.awaitGate r) { s.move r (.waiting seen) with queue := s.queue ++ [r] }
  | grantGate {r seen : Nat} (hfree : s.holder = none) (hpick : pick s.queue = some r)
      (hr : s.reader r = .waiting seen) :
    ReadMove pick s .grantGate
      { s.move r (.locked seen) with holder := some r, queue := s.queue.erase r }
  | join {r seen : Nat} {result : ReadResult Snap Seat} (hr : s.reader r = .locked seen)
      (hj : joined s.slot seen = some result) :
    ReadMove pick s (.checkJoin r) (s.move r (.leaving result .joined))
  | enter {r seen : Nat} (hr : s.reader r = .locked seen) (hj : joined s.slot seen = none) :
    ReadMove pick s (.checkJoin r) (s.move r .admitted)
  | startFetch {r : Nat} (hr : s.reader r = .admitted) :
    ReadMove pick s (.startFetch r) (s.move r .fetching)
  | record {r : Nat} {fetched : Fetched Snap Seat} (hr : s.reader r = .fetching) :
    ReadMove pick s (.record r fetched)
      { s.move r (.leaving (recordAt s.slot fetched s.nowMs).2 .network) with
        slot := some (recordAt s.slot fetched s.nowMs).1
        results := s.results ++ [(r,(recordAt s.slot fetched s.nowMs).2)] }
  | release {r : Nat} {result : ReadResult Snap Seat} {path : ReadPath}
      (hr : s.reader r = .leaving result path) :
    ReadMove pick s (.release r) { s.move r (.returned result path) with holder := none }

variable {op : ReadOp Snap Seat} {pick : List Nat → Option Nat} {s t : Table Snap Seat}

theorem ReadStep.move (h : ReadStep pick s op t) : ReadMove pick s op t := by
  unfold ReadStep at h
  cases op with simp only [Table.perform] at h
  | tick nowMs =>
    split at h
    · rename_i hc
      exact some.inj h ▸ .tick hc.1 hc.2
    · cases h
  | checkHold r =>
    split at h
    · rename_i hr
      split at h
      · exact some.inj h ▸ .held hr
      · exact some.inj h ▸ .notHeld hr
    · cases h
  | readGeneration r =>
    split at h
    · rename_i hr
      exact some.inj h ▸ .readGeneration hr
    · cases h
  | awaitGate r =>
    split at h
    · rename_i hr
      exact some.inj h ▸ .awaitGate hr
    · cases h
  | grantGate =>
    split at h
    · rename_i hfree hpick
      split at h
      · rename_i hr
        exact some.inj h ▸ .grantGate hfree hpick hr
      · cases h
    · cases h
  | checkJoin r =>
    split at h
    · rename_i hr
      split at h
      · rename_i hj
        exact some.inj h ▸ .join hr hj
      · rename_i hj
        exact some.inj h ▸ .enter hr hj
    · cases h
  | startFetch r =>
    split at h
    · rename_i hr
      exact some.inj h ▸ .startFetch hr
    · cases h
  | record r fetched =>
    split at h
    · rename_i hr
      exact some.inj h ▸ .record hr
    · cases h
  | release r =>
    split at h
    · rename_i hr
      exact some.inj h ▸ .release hr
    · cases h

@[simp] theorem Table.move_reader (s : Table Snap Seat) (r x : Nat) (to' : Reader Snap Seat) :
    (s.move r to').reader x = if x = r then to' else s.reader x := by
  simp only [Table.move,update_apply]

theorem heldUntils_append (results : List (Nat × ReadResult Snap Seat)) (r : Nat)
    (result : ReadResult Snap Seat) :
    heldUntils (results ++ [(r,result)]) =
      match result with
      | .error (.transient _ untilMs) => untilMs :: heldUntils results
      | _ => [] := by
  simp only [heldUntils,foldl_append,foldl_cons,foldl_nil]

/-- The gate has one holder, and its queue names the calls that wait for it, once each. -/
structure Gated (s : Table Snap Seat) : Prop where
  inside : ∀ r, (s.reader r).inside = true ↔ s.holder = some r
  queued : ∀ r, r ∈ s.queue ↔ ∃ seen, s.reader r = .waiting seen
  nodup : s.queue.Nodup

theorem gated_start (nowMs : Nat) : Gated (Table.start nowMs : Table Snap Seat) where
  inside r := by simp [Table.start,Reader.inside]
  queued r := by simp [Table.start]
  nodup := nodup_nil

variable {r : Nat}

theorem Gated.moved (hg : Gated s) {to' : Reader Snap Seat} {holder : Option Nat} {queue : List Nat}
    (hin : to'.inside = true ↔ holder = some r)
    (hother : ∀ x ≠ r, (holder = some x ↔ s.holder = some x) ∧ (x ∈ queue ↔ x ∈ s.queue))
    (hself : r ∈ queue ↔ ∃ seen, to' = .waiting seen) (hnodup : queue.Nodup) :
    Gated { s.move r to' with holder, queue } where
  inside x := by
    show ((s.move r to').reader x).inside = true ↔ holder = some x
    rw [Table.move_reader]
    split
    · rename_i hx
      exact hx ▸ hin
    · rename_i hx
      exact (hg.inside x).trans (hother x hx).1.symm
  queued x := by
    show x ∈ queue ↔ ∃ seen, (s.move r to').reader x = .waiting seen
    rw [Table.move_reader]
    split
    · rename_i hx
      exact hx ▸ hself
    · rename_i hx
      exact (hother x hx).2.trans (hg.queued x)
  nodup := hnodup

theorem Gated.notMem (hg : Gated s) (hr : ∀ seen, s.reader r ≠ .waiting seen) : r ∉ s.queue := by
  intro hq
  obtain ⟨seen,h⟩ := (hg.queued r).mp hq
  exact hr seen h

theorem Gated.move (hg : Gated s) {to' : Reader Snap Seat}
    (hin : to'.inside = (s.reader r).inside) (hfrom : ∀ seen, s.reader r ≠ .waiting seen)
    (hto : ∀ seen, to' ≠ .waiting seen) : Gated (s.move r to') :=
  hg.moved (hin ▸ hg.inside r) (fun _ _ => ⟨.rfl,.rfl⟩)
    (iff_of_false (hg.notMem hfrom) fun ⟨seen,h⟩ => hto seen h) hg.nodup

theorem Gated.awaitGate (hg : Gated s) {seen : Nat} (hr : s.reader r = .ready seen) :
    Gated { s.move r (.waiting seen) with queue := s.queue ++ [r] } := by
  have hnot : r ∉ s.queue := hg.notMem (by simp [hr])
  refine hg.moved ?_ (fun x hx => ⟨.rfl,by simp [hx]⟩) (by simp) ?_
  · have hin := hg.inside r
    rw [hr] at hin
    exact hin
  · exact nodup_append.mpr ⟨hg.nodup,nodup_singleton r,
      fun a ha b hb hab => hnot (mem_singleton.mp hb ▸ hab ▸ ha)⟩

theorem Gated.grantGate (hg : Gated s) {seen : Nat} (hfree : s.holder = none) :
    Gated { s.move r (.locked seen) with holder := some r, queue := s.queue.erase r } := by
  refine hg.moved (by simp [Reader.inside]) (fun x hx => ⟨?_,?_⟩) ?_ (hg.nodup.erase r)
  · simp [hfree,hx.symm]
  · simp [hg.nodup.mem_erase_iff,hx]
  · simp [hg.nodup.mem_erase_iff]

theorem Gated.release (hg : Gated s) {result : ReadResult Snap Seat} {path : ReadPath}
    (hr : s.reader r = .leaving result path) :
    Gated { s.move r (.returned result path) with holder := none } := by
  have hholder : s.holder = some r := (hg.inside r).mp (by rw [hr]; rfl)
  have hnot : r ∉ s.queue := hg.notMem (by simp [hr])
  refine hg.moved (by simp [Reader.inside]) (fun x hx => ⟨?_,.rfl⟩) (by simpa) hg.nodup
  simp [hholder,hx.symm]

theorem Gated.step (hg : Gated s) (h : ReadMove pick s op t) : Gated t := by
  cases h with
  | tick hle hmax => exact ⟨hg.inside,hg.queued,hg.nodup⟩
  | held hr | notHeld hr => exact hg.move (by rw [hr]; rfl) (by simp [hr]) (by simp)
  | @readGeneration r hr =>
    have hm : Gated (s.move r (.ready (generation s.slot))) :=
      hg.move (by rw [hr]; rfl) (by simp [hr]) (by simp)
    exact ⟨hm.inside,hm.queued,hm.nodup⟩
  | awaitGate hr => exact hg.awaitGate hr
  | grantGate hfree hpick hr => exact hg.grantGate hfree
  | join hr hj | enter hr hj | startFetch hr =>
      exact hg.move (by rw [hr]; rfl) (by simp [hr]) (by simp)
  | @record r fetched hr =>
    have hm : Gated (s.move r (.leaving (recordAt s.slot fetched s.nowMs).2 .network)) :=
      hg.move (by rw [hr]; rfl) (by simp [hr]) (by simp)
    exact ⟨hm.inside,hm.queued,hm.nodup⟩
  | release hr => exact hg.release hr

/-- What a call that read the generation knows: which result was the latest, and that no hold
has begun since if it still is. -/
structure Snapshot (s : Table Snap Seat) (r seen : Nat) : Prop where
  seen_eq : seen = s.seenAt r % 2^64
  seenAt_le : s.seenAt r ≤ s.results.length
  quiet : s.seenAt r = s.results.length → heldAt s.slot s.nowMs = none

structure Booked (s : Table Snap Seat) : Prop where
  clock : s.nowMs < 2^64
  counted : generation s.slot = s.results.length % 2^64
  last : s.slot.bind Entry.last = s.results.getLast?.map Prod.snd
  held : ∀ untilMs ∈ heldUntils s.results,
    ∃ h, s.slot.bind Entry.hold = some h ∧ untilMs ≤ h.untilMs
  seen : ∀ r seen, (s.reader r).seen? = some seen → Snapshot s r seen
  quiet : ∀ r, s.reader r = .admitted ∨ s.reader r = .fetching → heldAt s.slot s.nowMs = none

theorem booked_start {nowMs : Nat} (h : nowMs < 2^64) :
    Booked (Table.start nowMs : Table Snap Seat) where
  clock := h
  counted := rfl
  last := rfl
  held _ hu := nomatch hu
  seen _ _ hs := nomatch hs
  quiet _ hq := by simp [Table.start] at hq

theorem Booked.joined_eq (hb : Booked s) {seen : Nat} (hr : s.reader r = .locked seen)
    (hc : Unmissed s (.checkJoin r)) :
    joined s.slot seen =
      if s.seenAt r = s.results.length then none else s.results.getLast?.map Prod.snd := by
  have hseen := hb.seen r seen (by rw [hr]; rfl)
  have hcount := hb.counted
  have hlast := hb.last
  cases hslot : s.slot with
  | none =>
    rw [hslot] at hlast
    rw [← hlast]
    split <;> rfl
  | some e =>
    rw [hslot] at hcount hlast
    have hgen : e.generation = s.results.length % 2^64 := hcount
    simp only [bind_some] at hlast
    simp only [joined,← hlast]
    by_cases heq : s.seenAt r = s.results.length
    · rw [if_pos heq,if_neg]
      rw [hgen,hseen.seen_eq,heq]
      exact fun h => h rfl
    · rw [if_neg heq,if_pos]
      intro h
      rw [hgen,hseen.seen_eq] at h
      exact heq (hc h).symm

theorem heldAt_mono {slot : Option (Entry Snap Seat)} {now later : Nat}
    (h : heldAt slot now = none) (hle : now ≤ later) : heldAt slot later = none := by
  rw [heldAt_eq_none_iff] at h ⊢
  exact fun hold hh => Nat.le_trans (h hold hh) hle

theorem Booked.tick (hb : Booked s) {nowMs : Nat} (hle : s.nowMs ≤ nowMs) (hmax : nowMs < 2^64) :
    Booked { s with nowMs } where
  clock := hmax
  counted := hb.counted
  last := hb.last
  held := hb.held
  seen r seen hs := by
    obtain ⟨h₁,h₂,h₃⟩ := hb.seen r seen hs
    exact ⟨h₁,h₂,fun he => heldAt_mono (h₃ he) hle⟩
  quiet r hq := heldAt_mono (hb.quiet r hq) hle

theorem Booked.move (hb : Booked s) {to' : Reader Snap Seat}
    (hseen : ∀ seen, to'.seen? = some seen → (s.reader r).seen? = some seen)
    (hquiet : to' = .admitted ∨ to' = .fetching → heldAt s.slot s.nowMs = none) :
    Booked (s.move r to') where
  clock := hb.clock
  counted := hb.counted
  last := hb.last
  held := hb.held
  seen x seen hs := by
    have hx : Snapshot s x seen := by
      rw [Table.move_reader] at hs
      split at hs
      · rename_i hxr
        exact hb.seen x seen (hxr ▸ hseen seen hs)
      · exact hb.seen x seen hs
    exact ⟨hx.seen_eq,hx.seenAt_le,hx.quiet⟩
  quiet x hq := by
    rw [Table.move_reader] at hq
    split at hq
    · exact hquiet hq
    · exact hb.quiet x hq

theorem Booked.gate (hb : Booked s) (holder : Option Nat) (queue : List Nat) :
    Booked { s with holder, queue } where
  clock := hb.clock
  counted := hb.counted
  last := hb.last
  held := hb.held
  seen r seen hs := by
    obtain ⟨h₁,h₂,h₃⟩ := hb.seen r seen hs
    exact ⟨h₁,h₂,h₃⟩
  quiet := hb.quiet

theorem Booked.readGeneration (hb : Booked s) (hc : Unmissed s (.readGeneration r)) :
    Booked { s.move r (.ready (generation s.slot)) with
      seenAt := update s.seenAt r s.results.length } where
  clock := hb.clock
  counted := hb.counted
  last := hb.last
  held := hb.held
  seen x seen hs := by
    change ((s.move r (.ready (generation s.slot))).reader x).seen? = some seen at hs
    rw [Table.move_reader] at hs
    by_cases hx : x = r
    · subst hx
      rw [if_pos rfl] at hs
      have hgen : generation s.slot = seen := some.inj hs
      refine ⟨?_,?_,fun _ => hc⟩
      · simp only [update_self,← hgen,hb.counted]
      · simp only [update_self,Table.move,le_refl]
    · rw [if_neg hx] at hs
      obtain ⟨h₁,h₂,h₃⟩ := hb.seen x seen hs
      refine ⟨?_,?_,?_⟩
      · simp only [update_of_ne hx,h₁]
      · simp only [update_of_ne hx]
        exact h₂
      · simp only [update_of_ne hx]
        exact h₃
  quiet x hq := by
    change (s.move r (.ready (generation s.slot))).reader x = .admitted ∨
      (s.move r (.ready (generation s.slot))).reader x = .fetching at hq
    rw [Table.move_reader] at hq
    split at hq
    · rcases hq with hq | hq <;> cases hq
    · exact hb.quiet x hq

theorem Gated.holder_unique (hg : Gated s) {a b : Nat} (ha : (s.reader a).inside = true)
    (hb : (s.reader b).inside = true) : a = b := by
  rw [hg.inside] at ha hb
  exact some.inj (ha.symm.trans hb)

theorem Booked.record (hb : Booked s) (hg : Gated s) {fetched : Fetched Snap Seat}
    (hr : s.reader r = .fetching) :
    Booked { s.move r (.leaving (recordAt s.slot fetched s.nowMs).2 .network) with
      slot := some (recordAt s.slot fetched s.nowMs).1
      results := s.results ++ [(r,(recordAt s.slot fetched s.nowMs).2)] } where
  clock := hb.clock
  counted := by
    show (recordAt s.slot fetched s.nowMs).1.generation = _
    rw [recordAt_generation,hb.counted,length_append,Nat.mod_add_mod]
    rfl
  last := by
    simp only [bind_some,recordAt_last,getLast?_concat,map_some]
  held untilMs hu := by
    change untilMs ∈ heldUntils (s.results ++ [(r,(recordAt s.slot fetched s.nowMs).2)]) at hu
    rw [heldUntils_append] at hu
    rcases recordAt_hold s.slot fetched hb.clock with ⟨failure,h,hres,hhold,hnow⟩ | ⟨hother,-⟩
    · refine ⟨h,hhold,?_⟩
      rw [hres] at hu
      rcases mem_cons.mp hu with hu | hu
      · exact Nat.le_of_eq hu
      · -- the fetch began after every hold before it had ended
        obtain ⟨h',hh',hle⟩ := hb.held untilMs hu
        have hold := (heldAt_eq_none_iff s.slot s.nowMs).mp (hb.quiet r (.inr hr)) h' hh'
        exact Nat.le_trans hle (Nat.le_trans hold hnow)
    · split at hu
      · rename_i failure untilMs' hres
        exact (hother failure untilMs' hres).elim
      · cases hu
  seen x seen hs := by
    change ((s.move r (.leaving (recordAt s.slot fetched s.nowMs).2 .network)).reader x).seen? =
      some seen at hs
    rw [Table.move_reader] at hs
    split at hs
    · cases hs
    obtain ⟨h₁,h₂,-⟩ := hb.seen x seen hs
    refine ⟨h₁,?_,fun he => ?_⟩
    · rw [length_append]
      exact Nat.le_add_right_of_le h₂
    · rw [length_append] at he
      change s.seenAt x = s.results.length + 1 at he
      omega
  quiet x hq := by
    change (s.move r (.leaving (recordAt s.slot fetched s.nowMs).2 .network)).reader x = .admitted ∨
      (s.move r (.leaving (recordAt s.slot fetched s.nowMs).2 .network)).reader x = .fetching at hq
    rw [Table.move_reader] at hq
    split at hq
    · rcases hq with hq | hq <;> cases hq
    · rename_i hx
      have hin : (s.reader x).inside = true := by rcases hq with hq | hq <;> rw [hq] <;> rfl
      exact (hx (hg.holder_unique hin (by rw [hr]; rfl))).elim

theorem Booked.step (hb : Booked s) (hg : Gated s) (hc : Unmissed s op) (h : ReadMove pick s op t) :
    Booked t := by
  cases h with
  | tick hle hmax => exact hb.tick hle hmax
  | held hr | notHeld hr | join hr hj => exact hb.move (by simp [Reader.seen?]) (by simp)
  | readGeneration hr => exact hb.readGeneration hc
  | @awaitGate r seen hr =>
    have hm : Booked (s.move r (.waiting seen)) :=
      hb.move (by simp [hr,Reader.seen?]) (by simp)
    exact hm.gate s.holder (s.queue ++ [r])
  | @grantGate r seen hfree hpick hr =>
    have hm : Booked (s.move r (.locked seen)) :=
      hb.move (by simp [hr,Reader.seen?]) (by simp)
    exact hm.gate (some r) (s.queue.erase r)
  | @enter r seen hr hj =>
    refine hb.move (by simp [Reader.seen?]) (fun _ => ?_)
    have hjoin := hb.joined_eq hr hc
    have hseen := hb.seen r seen (by rw [hr]; rfl)
    rw [hj] at hjoin
    split at hjoin
    · rename_i heq
      exact hseen.quiet heq
    rename_i hne
    -- a call that knows fewer results than there are takes the last one
    have hempty : s.results = [] := by
      rwa [eq_comm,map_eq_none_iff,getLast?_eq_none_iff] at hjoin
    have hle := hseen.seenAt_le
    rw [hempty] at hle hne
    exact (hne (Nat.le_zero.mp hle)).elim
  | startFetch hr => exact hb.move (by simp [Reader.seen?]) (fun _ => hb.quiet _ (.inl hr))
  | record hr => exact hb.record hg hr
  | @release r result path hr =>
    have hm : Booked (s.move r (.returned result path)) :=
      hb.move (by simp [Reader.seen?]) (by simp)
    exact hm.gate none s.queue

def Passing (s : Table Snap Seat) (k h : Nat) : Prop :=
  (∃ seen, s.reader h = .locked seen ∧ s.seenAt h ≤ k) ∨
    ∃ result path, s.reader h = .leaving result path

/-- The flight of `f` for result number `k` is in the air, or it has landed and nobody has
fetched since. -/
def Landing (s : Table Snap Seat) (f k : Nat) : Prop :=
  (s.results.length = k ∧ s.reader f = .fetching) ∨
    (s.results.length = k + 1 ∧ (∃ result, s.results[k]? = some (f,result)) ∧
      ∀ h, s.holder = some h → Passing s k h)

/-- How the call `r`, which started to wait during the flight of `f`, is served. -/
inductive Serving (s : Table Snap Seat) (f k r : Nat) : Prop
  | queued {before after : List Nat} (hqueue : s.queue = before ++ r :: after)
      (hseen : ∀ x ∈ before ++ [r], s.seenAt x ≤ k) (hland : Landing s f k)
  | locked {seen : Nat} (hr : s.reader r = .locked seen) (hseen : s.seenAt r ≤ k)
      (hlen : s.results.length = k + 1) (hres : ∃ result, s.results[k]? = some (f,result))
  | done {result : ReadResult Snap Seat}
      (hr : s.reader r = .leaving result .joined ∨ s.reader r = .returned result .joined)
      (hres : s.results[k]? = some (f,result))

/-- The call still waits, or is at the gate where its check takes the result of `f`, or has
taken it. -/
def Answered (s : Table Snap Seat) (f k r : Nat) : Prop :=
  (∃ seen, s.reader r = .waiting seen) ∨
    (∃ seen result, s.reader r = .locked seen ∧ s.results[k]? = some (f,result) ∧
      (Unmissed s (.checkJoin r) → joined s.slot seen = some result)) ∨
    ∃ result, (s.reader r = .leaving result .joined ∨ s.reader r = .returned result .joined) ∧
      s.results[k]? = some (f,result)

def Reader.outside : Reader Snap Seat → Bool
  | .idle | .checked | .ready _ => true
  | _ => false

structure OutsideStep (s t : Table Snap Seat) (x : Nat) : Prop where
  outside : (s.reader x).outside = true
  reader : ∀ y, y ≠ x → t.reader y = s.reader y
  seenAt : ∀ y, y ≠ x → t.seenAt y = s.seenAt y
  results : t.results = s.results
  holder : t.holder = s.holder
  queue : ∃ l, t.queue = s.queue ++ l

section

variable {x : Nat}

theorem OutsideStep.ne_of_inside {y : Nat} (h : OutsideStep s t x)
    (hy : (s.reader y).inside = true) : y ≠ x := by
  rintro rfl
  have hout := h.outside
  revert hy hout
  cases s.reader y <;> simp [Reader.inside,Reader.outside]

theorem OutsideStep.ne_of_queued {y : Nat} (h : OutsideStep s t x) (hg : Gated s)
    (hy : y ∈ s.queue) : y ≠ x := by
  rintro rfl
  obtain ⟨seen,hseen⟩ := (hg.queued y).mp hy
  have hout := h.outside
  rw [hseen] at hout
  cases hout

theorem Landing.outside {f k : Nat} (hland : Landing s f k) (h : OutsideStep s t x) (hg : Gated s) :
    Landing t f k := by
  rcases hland with ⟨hlen,hf⟩ | ⟨hlen,hres,hpass⟩
  · left
    rw [h.results,h.reader f (h.ne_of_inside (by rw [hf]; rfl))]
    exact ⟨hlen,hf⟩
  · right
    rw [h.results,h.holder]
    refine ⟨hlen,hres,fun y hy => ?_⟩
    have hne : y ≠ x := h.ne_of_inside ((hg.inside y).mpr hy)
    unfold Passing
    rw [h.reader y hne,h.seenAt y hne]
    exact hpass y hy

theorem Serving.outside {f k r : Nat} (hs : Serving s f k r) (h : OutsideStep s t x)
    (hg : Gated s) : Serving t f k r := by
  cases hs with
  | @queued before after hqueue hseen hland =>
    obtain ⟨l,hl⟩ := h.queue
    refine @Serving.queued _ _ _ _ _ _ before (after ++ l) ?_ (fun y hy => ?_) (hland.outside h hg)
    · rw [hl,hqueue,append_assoc,cons_append]
    · have hmem : y ∈ s.queue := by
        rw [hqueue]
        rcases mem_append.mp hy with hy | hy
        · exact mem_append_left _ hy
        · exact mem_append_right _ (mem_singleton.mp hy ▸ mem_cons_self)
      rw [h.seenAt y (h.ne_of_queued hg hmem)]
      exact hseen y hy
  | locked hr hseen hlen hres =>
    have hne : r ≠ x := h.ne_of_inside (by rw [hr]; rfl)
    refine .locked ((h.reader r hne).trans hr) ?_ ?_ ?_
    · rw [h.seenAt r hne]
      exact hseen
    · rw [h.results]
      exact hlen
    · rw [h.results]
      exact hres
  | done hr hres =>
    have hne : r ≠ x := by
      rintro rfl
      have hout := h.outside
      rcases hr with hr | hr <;> rw [hr] at hout <;> cases hout
    refine .done ?_ (h.results ▸ hres)
    rw [h.reader r hne]
    exact hr

end

section Gate

variable {f k : Nat}

theorem Landing.landed (hland : Landing s f k) (hf : s.reader f ≠ .fetching) :
    s.results.length = k + 1 ∧ (∃ result, s.results[k]? = some (f,result)) ∧
      ∀ h, s.holder = some h → Passing s k h :=
  hland.resolve_left (fun h => hf h.2)

variable {x : Nat}

theorem Gated.ne_fetching (hg : Gated s) (hin : (s.reader x).inside = true)
    (hx : s.reader x ≠ .fetching) (y : Nat) : s.reader y ≠ .fetching := by
  intro hy
  have hxy : y = x := hg.holder_unique (by rw [hy]; rfl) hin
  exact hx (hxy ▸ hy)

variable {result : ReadResult Snap Seat}

theorem Table.move_joined {to' : Reader Snap Seat}
    (hr : s.reader r = .leaving result .joined ∨ s.reader r = .returned result .joined)
    (hx : s.reader x ≠ .leaving result .joined ∧ s.reader x ≠ .returned result .joined) :
    (s.move x to').reader r = .leaving result .joined ∨
      (s.move x to').reader r = .returned result .joined := by
  rw [Table.move_reader,if_neg]
  · exact hr
  · rintro rfl
    exact hr.elim hx.1 hx.2

theorem Serving.grantGate (hs : Serving s f k r) (hg : Gated s) {seen : Nat}
    (hfree : s.holder = none) (hhead : s.queue.head? = some x) (hx : s.reader x = .waiting seen) :
    Serving { s.move x (.locked seen) with holder := some x, queue := s.queue.erase x } f k r := by
  have hnone (y : Nat) : (s.reader y).inside ≠ true := by
    rw [Ne,hg.inside y,hfree]
    exact nofun
  cases hs with
  | @queued before after hqueue hseen hland =>
    obtain ⟨hlen,hres,-⟩ := hland.landed (fun hf => hnone f (by rw [hf]; rfl))
    rw [hqueue] at hhead
    cases before with
    | nil =>
      have hxr : r = x := some.inj hhead
      subst hxr
      refine @Serving.locked _ _ _ _ _ _ seen ?_ (hseen r (mem_singleton_self r)) hlen hres
      show (s.move r (.locked seen)).reader r = _
      rw [Table.move_reader,if_pos rfl]
    | cons y before =>
      have hyx : y = x := some.inj hhead
      subst hyx
      refine @Serving.queued _ _ _ _ _ _ before after ?_ (fun z hz => ?_) (.inr ⟨hlen,hres,?_⟩)
      · show s.queue.erase y = _
        rw [hqueue,cons_append,erase_cons_head]
      · exact hseen z (mem_cons_of_mem y hz)
      · rintro h hh
        have hhy : y = h := some.inj hh
        subst hhy
        refine .inl ⟨seen,?_,hseen y mem_cons_self⟩
        show (s.move y (.locked seen)).reader y = _
        rw [Table.move_reader,if_pos rfl]
  | locked hr hseen hlen hres => exact (hnone r (by rw [hr]; rfl)).elim
  | done hr hres => exact .done (Table.move_joined hr (by simp [hx])) hres

theorem Booked.joins_landed (hb : Booked s) {seen : Nat} (hx : s.reader x = .locked seen)
    (hc : Unmissed s (.checkJoin x)) (hseen : s.seenAt x ≤ k) (hlen : s.results.length = k + 1)
    (hres : s.results[k]? = some (f,result)) : joined s.slot seen = some result := by
  rw [hb.joined_eq hx hc,if_neg (by omega),getLast?_eq_getElem?,hlen]
  simp only [Nat.add_sub_cancel,hres,map_some]

section

variable (hs : Serving s f k r) (hg : Gated s)

include hs hg

theorem Serving.checkJoin (hb : Booked s) {seen : Nat} (hx : s.reader x = .locked seen)
    (hc : Unmissed s (.checkJoin x)) {to' : Reader Snap Seat}
    (hto : ∀ result, joined s.slot seen = some result → to' = .leaving result .joined) :
    Serving (s.move x to') f k r := by
  have hin : (s.reader x).inside = true := by rw [hx]; rfl
  have hfree (y : Nat) : s.reader y ≠ .fetching :=
    hg.ne_fetching hin (by rw [hx]; exact nofun) y
  cases hs with
  | @queued before after hqueue hseen hland =>
    obtain ⟨hlen,⟨result,hres⟩,hpass⟩ := hland.landed (hfree f)
    have hxk : s.seenAt x ≤ k := by
      rcases hpass x ((hg.inside x).mp hin) with ⟨-,-,h⟩ | ⟨result',path,h⟩
      · exact h
      · rw [hx] at h
        cases h
    have hjoin := hto result (hb.joins_landed hx hc hxk hlen hres)
    refine .queued hqueue hseen (.inr ⟨hlen,⟨result,hres⟩,fun h hh => .inr ⟨result,.joined,?_⟩⟩)
    have hhx : x = h := some.inj (((hg.inside x).mp hin).symm.trans hh)
    rw [Table.move_reader,if_pos hhx.symm,hjoin]
  | locked hr hseen hlen hres =>
    obtain ⟨result,hres⟩ := hres
    have hrx : r = x := hg.holder_unique (by rw [hr]; rfl) hin
    subst hrx
    have hjoin := hto result (hb.joins_landed hx hc hseen hlen hres)
    exact .done (.inl (by rw [Table.move_reader,if_pos rfl,hjoin])) hres
  | done hr hres => exact .done (Table.move_joined hr (by simp [hx])) hres

theorem Serving.startFetch (hx : s.reader x = .admitted) : Serving (s.move x .fetching) f k r := by
  have hin : (s.reader x).inside = true := by rw [hx]; rfl
  have hfree (y : Nat) : s.reader y ≠ .fetching :=
    hg.ne_fetching hin (by rw [hx]; exact nofun) y
  cases hs with
  | queued hqueue hseen hland =>
    obtain ⟨-,-,hpass⟩ := hland.landed (hfree f)
    rcases hpass x ((hg.inside x).mp hin) with ⟨seen,h,-⟩ | ⟨result',path,h⟩
    · rw [hx] at h
      cases h
    · rw [hx] at h
      cases h
  | locked hr hseen hlen hres =>
    have hrx : r = x := hg.holder_unique (by rw [hr]; rfl) hin
    rw [hrx,hx] at hr
    cases hr
  | done hr hres => exact .done (Table.move_joined hr (by simp [hx])) hres

theorem Serving.record (hx : s.reader x = .fetching) {entry : Entry Snap Seat} :
    Serving { s.move x (.leaving result .network) with
      slot := some entry, results := s.results ++ [(x,result)] } f k r := by
  have hin : (s.reader x).inside = true := by rw [hx]; rfl
  cases hs with
  | queued hqueue hseen hland =>
    rcases hland with ⟨hlen,hf⟩ | ⟨-,-,hpass⟩
    · have hxf : f = x := hg.holder_unique (by rw [hf]; rfl) hin
      subst hxf
      refine .queued hqueue hseen (.inr ⟨?_,⟨result,?_⟩,fun h hh => .inr ⟨result,.network,?_⟩⟩)
      · rw [length_append,hlen]
        rfl
      · rw [← hlen,getElem?_concat_length]
      · have hhf : f = h := some.inj (((hg.inside f).mp hin).symm.trans hh)
        show (s.move f (.leaving result .network)).reader h = _
        rw [Table.move_reader,if_pos hhf.symm]
    · rcases hpass x ((hg.inside x).mp hin) with ⟨seen,h,-⟩ | ⟨result',path,h⟩
      · rw [hx] at h
        cases h
      · rw [hx] at h
        cases h
  | locked hr hseen hlen hres =>
    have hrx : r = x := hg.holder_unique (by rw [hr]; rfl) hin
    rw [hrx,hx] at hr
    cases hr
  | done hr hres =>
    have hk : k < s.results.length := (List.getElem?_eq_some_iff.mp hres).1
    exact .done (Table.move_joined hr (by simp [hx])) ((getElem?_append_left hk).trans hres)

theorem Serving.release {path : ReadPath} (hx : s.reader x = .leaving result path) :
    Serving { s.move x (.returned result path) with holder := none } f k r := by
  have hin : (s.reader x).inside = true := by rw [hx]; rfl
  cases hs with
  | queued hqueue hseen hland =>
    have hfree := hg.ne_fetching hin (by rw [hx]; exact nofun) f
    obtain ⟨hlen,hres,-⟩ := hland.landed hfree
    exact .queued hqueue hseen (.inr ⟨hlen,hres,nofun⟩)
  | locked hr hseen hlen hres =>
    have hrx : r = x := hg.holder_unique (by rw [hr]; rfl) hin
    rw [hrx,hx] at hr
    cases hr
  | @done taken hr hres =>
    refine .done ?_ hres
    show (s.move x (.returned result path)).reader r = _ ∨
      (s.move x (.returned result path)).reader r = _
    rw [Table.move_reader]
    by_cases hne : r = x
    · subst hne
      rw [if_pos rfl]
      rcases hr with hr | hr
      · rw [hr] at hx
        cases hx
        exact .inr rfl
      · rw [hr] at hx
        cases hx
    · rw [if_neg hne]
      exact hr

end

end Gate

theorem Serving.step (fifo : ∀ queue, pick queue = queue.head?) {s : Table Snap Seat}
    {op : ReadOp Snap Seat} {f k r : Nat} (hs : Serving s f k r) (hg : Gated s) (hb : Booked s)
    (hc : Unmissed s op) (h : ReadMove pick s op t) : Serving t f k r := by
  cases h with
  | tick hle hmax =>
    cases hs with
    | queued hqueue hseen hland => exact .queued hqueue hseen hland
    | locked hr hseen hlen hres => exact .locked hr hseen hlen hres
    | done hr hres => exact .done hr hres
  | @held x failure retryAtMs hx | @notHeld x hx =>
    refine hs.outside (x := x) ⟨by rw [hx]; rfl,fun y hy => ?_,fun _ _ => rfl,rfl,rfl,[],?_⟩ hg
    · rw [Table.move_reader,if_neg hy]
    · rw [append_nil]
      rfl
  | @readGeneration x hx =>
    refine hs.outside (x := x) ⟨by rw [hx]; rfl,fun y hy => ?_,fun y hy => ?_,rfl,rfl,[],?_⟩ hg
    · show (s.move x _).reader y = _
      rw [Table.move_reader,if_neg hy]
    · exact update_of_ne hy _ _
    · rw [append_nil]
      rfl
  | @awaitGate x seen hx =>
    refine hs.outside (x := x) ⟨by rw [hx]; rfl,fun y hy => ?_,fun _ _ => rfl,rfl,rfl,[x],rfl⟩ hg
    show (s.move x _).reader y = _
    rw [Table.move_reader,if_neg hy]
  | grantGate hfree hpick hx => exact hs.grantGate hg hfree (fifo s.queue ▸ hpick) hx
  | @join x seen result hx hj =>
    refine hs.checkJoin hg hb hx hc (fun result' hj' => ?_)
    rw [hj] at hj'
    cases hj'
    rfl
  | enter hx hj =>
    refine hs.checkJoin hg hb hx hc (fun result' hj' => ?_)
    rw [hj] at hj'
    cases hj'
  | startFetch hx => exact hs.startFetch hg hx
  | record hx => exact hs.record hg hx
  | release hx => exact hs.release hg hx

structure Inv (s : Table Snap Seat) : Prop where
  gated : Gated s
  booked : Booked s

section

variable {s : Table Snap Seat}

theorem inv_started (h : s.Started) : Inv s := by
  obtain ⟨nowMs,hnow,rfl⟩ := h
  exact ⟨gated_start nowMs,booked_start hnow⟩

theorem Inv.step (hi : Inv s) (h : Under (ReadStep pick) Unmissed s t) : Inv t := by
  obtain ⟨op,hc,hst⟩ := h
  exact ⟨hi.gated.step hst.move,hi.booked.step hi.gated hc hst.move⟩

theorem Serving.begin {f r : Nat} (hi : Inv s) (hf : s.reader f = .fetching)
    (h : ReadMove pick s (.awaitGate r) t) : Serving t f s.results.length r := by
  cases h with
  | @awaitGate _ seen hr =>
    have hne : f ≠ r := by
      rintro rfl
      rw [hr] at hf
      cases hf
    refine @Serving.queued _ _ _ _ _ _ s.queue [] rfl (fun x hx => ?_) (.inl ⟨rfl,?_⟩)
    · have hsome : ∃ seen', (s.reader x).seen? = some seen' := by
        rcases mem_append.mp hx with hx | hx
        · obtain ⟨seen',hw⟩ := (hi.gated.queued x).mp hx
          exact ⟨seen',by rw [hw]; rfl⟩
        · exact ⟨seen,by rw [mem_singleton.mp hx,hr]; rfl⟩
      obtain ⟨seen',hseen⟩ := hsome
      exact (hi.booked.seen x seen' hseen).seenAt_le
    · show (s.move r _).reader f = _
      rw [Table.move_reader,if_neg hne]
      exact hf

theorem Serving.answered {f k r : Nat} (hi : Inv s) (hs : Serving s f k r) : Answered s f k r := by
  cases hs with
  | queued hqueue hseen hland =>
    refine .inl ((hi.gated.queued r).mp ?_)
    rw [hqueue]
    exact mem_append_right _ mem_cons_self
  | @locked seen hr hseen hlen hres =>
    obtain ⟨result,hres⟩ := hres
    exact .inr (.inl ⟨seen,result,hr,hres,fun hc => hi.booked.joins_landed hr hc hseen hlen hres⟩)
  | @done result hr hres => exact .inr (.inr ⟨result,hr,hres⟩)

end

/-- The steps of calls that have begun. -/
def ReadOp.advances : ReadOp Snap Seat → Bool
  | .tick _ | .checkHold _ => false
  | _ => true

theorem inside_advances {r : Nat} (hr : (s.reader r).inside = true) :
    ∃ op, op.advances = true ∧ (s.perform pick op).isSome := by
  cases hs : s.reader r with
  | locked seen =>
    refine ⟨.checkJoin r,rfl,?_⟩
    cases hj : joined s.slot seen <;> simp [Table.perform,hs,hj]
  | admitted => exact ⟨.startFetch r,rfl,by simp [Table.perform,hs]⟩
  | fetching => exact ⟨.record r (.usage .timeout),rfl,by simp [Table.perform,hs]⟩
  | leaving result path => exact ⟨.release r,rfl,by simp [Table.perform,hs]⟩
  | _ => simp [hs,Reader.inside] at hr

theorem waiting_advances (fifo : ∀ queue, pick queue = queue.head?) (hg : Gated s) {r seen : Nat}
    (hr : s.reader r = .waiting seen) : ∃ op, op.advances = true ∧ (s.perform pick op).isSome := by
  cases hholder : s.holder with
  | some holder => exact inside_advances ((hg.inside holder).mpr hholder)
  | none =>
    -- The gate is free and `r` is in the queue: the first of the queue gets it.
    obtain ⟨next,rest,hqueue⟩ := exists_cons_of_ne_nil (ne_nil_of_mem ((hg.queued r).mpr ⟨seen,hr⟩))
    obtain ⟨seen',hw⟩ := (hg.queued next).mp (by rw [hqueue]; exact mem_cons_self)
    refine ⟨.grantGate,rfl,?_⟩
    simp [Table.perform,hholder,fifo,hqueue,hw]

/-- In every run in which nothing is missed between the lock sections of a call, one fetch is
in flight at a time, no fetch starts inside a hold, a call that starts to wait during a
flight takes the result of that flight, and while a call waits one that has begun can go on. -/
theorem single_flight_outside_holds (pick : List Nat → Option Nat)
    (fifo : ∀ queue, pick queue = queue.head?) (s : Table Snap Seat)
    (h : Reachable Table.Started (Under (ReadStep pick) Unmissed) s) :
    (∀ a b, s.reader a = .fetching → s.reader b = .fetching → a = b) ∧
      (∀ r t, ReadStep pick s (.startFetch r) t →
        ∀ untilMs ∈ heldUntils s.results, untilMs ≤ s.nowMs) ∧
      (∀ f r t u, s.reader f = .fetching → ReadStep pick s (.awaitGate r) t →
        Relation.ReflTransGen (Under (ReadStep pick) Unmissed) t u →
        Answered u f s.results.length r) ∧
      (∀ r seen, s.reader r = .waiting seen →
        ∃ op, op.advances = true ∧ (s.perform pick op).isSome) := by
  have hi : Inv s := h.invariant Inv (fun _ => inv_started) (fun _ _ => Inv.step)
  refine ⟨fun a b ha hb => ?_,fun r t hst untilMs hu => ?_,fun f r t u hf hst hrun => ?_,
    fun r seen hr => waiting_advances fifo hi.gated hr⟩
  · exact hi.gated.holder_unique (by rw [ha]; rfl) (by rw [hb]; rfl)
  · have hadmitted : s.reader r = .admitted := by
      cases hst.move with
      | startFetch hr => exact hr
    obtain ⟨hold,hhold,hle⟩ := hi.booked.held untilMs hu
    have hquiet := hi.booked.quiet r (.inl hadmitted)
    exact Nat.le_trans hle ((heldAt_eq_none_iff s.slot s.nowMs).mp hquiet hold hhold)
  · have ht : Inv t ∧ Serving t f s.results.length r :=
      ⟨hi.step ⟨.awaitGate r,trivial,hst⟩,Serving.begin hi hf hst.move⟩
    have hu := run_invariant hrun (fun u => Inv u ∧ Serving u f s.results.length r) ht
      (fun a b hab hstep => by
        obtain ⟨op,hc,hmove⟩ := hstep
        exact ⟨hab.1.step ⟨op,hc,hmove⟩,hab.2.step fifo hab.1.gated hab.1.booked hc hmove.move⟩)
    exact hu.2.answered hu.1

instance (s : Table Nat Nat) (op : ReadOp Nat Nat) : Decidable (Unmissed s op) :=
  match op with
  | .readGeneration _ => inferInstanceAs (Decidable (heldAt s.slot s.nowMs = none))
  | .checkJoin r =>
    inferInstanceAs (Decidable (s.results.length % 2^64 = s.seenAt r % 2^64 →
      s.results.length = s.seenAt r))
  | .tick _ | .checkHold _ | .awaitGate _ | .grantGate | .startFetch _ | .record _ _
  | .release _ => .isTrue trivial

def Table.after (s : Table Nat Nat) (ops : List (ReadOp Nat Nat)) : Table Nat Nat :=
  (ops.foldlM (fun a op => if Unmissed a op then a.perform List.head? op else none) s).getD s

theorem Table.run_after (s : Table Nat Nat) (ops : List (ReadOp Nat Nat)) :
    Relation.ReflTransGen (Under (ReadStep head?) Unmissed) s (s.after ops) := by
  unfold Table.after
  cases hops : ops.foldlM
      (fun a op => if Unmissed a op then a.perform head? op else none) s with
  | none => exact .refl
  | some t =>
    have hrun : Reachable (Eq s) (Under (ReadStep head?) Unmissed) t := by
      refine (Reachable.init rfl).foldlM (fun a op b hab => ?_) hops
      split at hab
      · rename_i hc
        exact ⟨op,hc,hab⟩
      · cases hab
    obtain ⟨a,rfl,hrun⟩ := hrun
    exact hrun

def demoBoarding : List (ReadOp Nat Nat) :=
  [.checkHold 0,.readGeneration 0,.awaitGate 0,.grantGate,.checkJoin 0,.checkHold 1,.startFetch 0,
    .readGeneration 1]

def demoLanding : List (ReadOp Nat Nat) :=
  [.record 0 (.usage (.rateLimited none)),.release 0,.grantGate,.checkJoin 1,.release 1]

theorem single_flight_outside_holds_joined :
    let s := (Table.start 0).after demoBoarding
    let t := s.after [.awaitGate 1]
    let u := t.after demoLanding
    s.reader 0 = .fetching ∧ ReadStep head? s (.awaitGate 1) t ∧
      (∃ result, u.reader 1 = .returned result .joined) ∧ Answered u 0 s.results.length 1 := by
  have hreach : Reachable Table.Started (Under (ReadStep head?) Unmissed)
      ((Table.start 0).after demoBoarding) :=
    (Reachable.init ⟨0,by decide,rfl⟩).run (Table.run_after _ demoBoarding)
  have hclaim := single_flight_outside_holds head? (fun _ => rfl) _ hreach
  exact ⟨rfl,rfl,⟨_,rfl⟩,hclaim.2.2.1 0 1 _ _ rfl rfl (Table.run_after _ demoLanding)⟩

/-- Call 1 passes the hold check before call 0 records a failure and reads the generation after
it: it fetches two minutes before the end of the hold. -/
def demoMissed : List (ReadOp Nat Nat) :=
  [.checkHold 0,.readGeneration 0,.awaitGate 0,.grantGate,.checkJoin 0,.startFetch 0,.checkHold 1,
    .record 0 (.usage (.rateLimited none)),.release 0,.readGeneration 1,.awaitGate 1,.grantGate,
    .checkJoin 1]

theorem fetch_inside_hold :
    ∃ s t : Table Nat Nat, Reachable Table.Started (Next (ReadStep head?)) s ∧
      ReadStep head? s (.startFetch 1) t ∧
      ∃ untilMs ∈ heldUntils s.results, s.nowMs < untilMs := by
  have hrun : ∃ s : Table Nat Nat,
      demoMissed.foldlM (Table.perform head?) (Table.start 0) = some s ∧
        s.reader 1 = .admitted ∧ s.nowMs = 0 ∧ heldUntils s.results = [120000] :=
    ⟨_,rfl,rfl,rfl,rfl⟩
  obtain ⟨s,hs,hr,hnow,hheld⟩ := hrun
  refine ⟨s,s.move 1 .fetching,?_,?_,120000,by simp [hheld],by omega⟩
  · exact (Reachable.init ⟨0,by decide,rfl⟩).foldlM (fun a op b hab => ⟨op,hab⟩) hs
  · simp only [ReadStep,Table.perform,hr]

end Synaps.UsageReads
