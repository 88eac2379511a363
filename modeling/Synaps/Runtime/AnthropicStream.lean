import Synaps.Lib.Json
import Synaps.Lib.Text

/-!
The parser of an Anthropic event stream: content blocks are put together, a stop reason or
an error is noted, and the usage of the request is captured, to be booked once with the counts
of the last report.
-/

set_option autoImplicit false

namespace Synaps.Anthropic

open Json

structure CacheCreationDetail where
  ephemeral5m : Option Nat
  ephemeral1h : Option Nat
  deriving DecidableEq

structure UsagePayload where
  inputTokens : Nat
  outputTokens : Nat
  cacheReadInputTokens : Nat
  cacheCreationInputTokens : Nat
  cacheCreation : Option CacheCreationDetail
  deriving DecidableEq

inductive ContentBlock where
  | text
  | thinking
  | toolUse (id name : String)
  | unknown
  deriving DecidableEq

inductive Delta where
  | textDelta (text : String)
  | thinkingDelta (thinking : String)
  | signatureDelta (signature : String)
  | inputJsonDelta (partialJson : String)
  | unknown
  deriving DecidableEq

inductive AnthropicEvent where
  | contentBlockStart (contentBlock : ContentBlock)
  | contentBlockDelta (delta : Delta)
  | contentBlockStop
  | messageStart (usage : Option UsagePayload)
  | messageDelta (stopReason : Option String) (usage : Option UsagePayload)
  | messageStop
  | error (errorType : Option String)
  | unknown
  deriving DecidableEq

structure Usage where
  input : Nat
  output : Nat
  cacheRead : Nat
  cacheCreate : Nat
  cacheCreate5m : Option Nat
  cacheCreate1h : Option Nat
  deriving DecidableEq

inductive Output where
  | toolUseStart (toolName toolId : String)
  | text (text : String)
  | thinking (text : String)
  | toolUseDelta (toolId delta : String)
  | toolUse (toolName toolId : String) (input : Value)
  | notice (text : String)
  | recordPriced (usage : Usage)
  | usage (usage : Usage)
  deriving DecidableEq

structure StreamError where
  errorType : Option String
  message : String
  retryable : Bool
  deriving DecidableEq

structure MsgStart where
  input : Option Nat
  output : Option Nat
  cacheRead : Option Nat
  cacheCreate : Option Nat
  cache5m : Option Nat
  cache1h : Option Nat
  deriving DecidableEq

/-- The last two fields are the latches that the requests of a session share. -/
structure ParseState where
  accumulatedContent : List Value
  currentText : String
  currentToolName : String
  currentToolId : String
  currentToolInputJson : String
  inToolUse : Bool
  currentThinking : String
  currentThinkingSignature : String
  inThinking : Bool
  flushedPartialTool : Bool
  msgStart : MsgStart
  usageEmitted : Bool
  streamError : Option StreamError
  stopReasonSeen : Bool
  stopReasonIsRefusal : Bool
  saw1hHonored : Bool
  ttlDowngradeNotified : Bool

inductive CacheTtl where
  | fiveMinutes
  | oneHour
  | hybrid
  deriving DecidableEq

/-- The reader of JSON texts is a parameter. -/
structure EventCtx where
  suppressStreamDeltas : Bool
  cacheTtl : CacheTtl
  requestHas1hMarker : Bool
  usageCounters : Bool
  fromStr : String → Except String Value

def ParseState.new (saw1hHonored ttlDowngradeNotified : Bool) : ParseState :=
  ⟨[],"","","","",false,"","",false,false,⟨none,none,none,none,none,none⟩,false,none,false,false,
    saw1hHonored,ttlDowngradeNotified⟩

def parseToolInput (ctx : EventCtx) (raw : String) : Value :=
  if (Text.trim raw.toList).isEmpty then .object []
  else
    match ctx.fromStr raw with
    | .ok v => v
    | .error e => .object [("__parse_error",.string ("invalid tool input JSON: " ++ e))]

def keepsThinkingBlock (thinking signature : String) : Bool := thinking ≠ "" || signature ≠ ""

def textBlock (text : String) : Value := .object [("text",.string text),("type",.string "text")]

def thinkingBlock (thinking signature : String) : Value :=
  .object [("signature",.string signature),("thinking",.string thinking),
    ("type",.string "thinking")]

def toolUseBlock (id name : String) (input : Value) : Value :=
  .object [("id",.string id),("input",input),("name",.string name),("type",.string "tool_use")]

def ParseState.push (s : ParseState) (block : Value) : ParseState :=
  { s with accumulatedContent := s.accumulatedContent ++ [block] }

def ParseState.pushThinking (s : ParseState) : ParseState :=
  if keepsThinkingBlock s.currentThinking s.currentThinkingSignature then
    s.push (thinkingBlock s.currentThinking s.currentThinkingSignature)
  else s

def processBlockStart (s : ParseState) : ContentBlock → ParseState × List Output
  | .thinking =>
    ({ s with currentThinking := "", currentThinkingSignature := "", inThinking := true },[])
  | .toolUse id name =>
    ({ s with currentToolName := name, currentToolId := id, currentToolInputJson := "",
              inToolUse := true },[.toolUseStart name id])
  | .text =>
    if s.currentText ≠ "" then ({ s.push (textBlock s.currentText) with currentText := "" },[])
    else (s,[])
  | .unknown => (s,[])

def processBlockDelta (ctx : EventCtx) (s : ParseState) : Delta → ParseState × List Output
  | .textDelta text =>
    ({ s with currentText := s.currentText ++ text },
      if ctx.suppressStreamDeltas then [] else [.text text])
  | .thinkingDelta thinking =>
    ({ s with currentThinking := s.currentThinking ++ thinking },
      if ctx.suppressStreamDeltas then [] else [.thinking thinking])
  | .signatureDelta signature => ({ s with currentThinkingSignature := signature },[])
  | .inputJsonDelta partialJson =>
    ({ s with currentToolInputJson := s.currentToolInputJson ++ partialJson },
      if ctx.suppressStreamDeltas then [] else [.toolUseDelta s.currentToolId partialJson])
  | .unknown => (s,[])

def processBlockStop (ctx : EventCtx) (s : ParseState) : ParseState × List Output :=
  if s.inThinking then ({ s.pushThinking with inThinking := false },[])
  else if s.inToolUse then
    let input := parseToolInput ctx s.currentToolInputJson
    ({ s.push (toolUseBlock s.currentToolId s.currentToolName input) with inToolUse := false },
      [.toolUse s.currentToolName s.currentToolId input])
  else if s.currentText ≠ "" then ({ s.push (textBlock s.currentText) with currentText := "" },[])
  else (s,[])

def orStart (count : Nat) (start : Option Nat) : Nat := if count > 0 then count else start.getD 0

/-- The counts of a delta, with what the start reported for those it does not carry. -/
def effective (start : MsgStart) (usage : UsagePayload) : Usage where
  input := orStart usage.inputTokens start.input
  output := orStart usage.outputTokens start.output
  cacheRead := orStart usage.cacheReadInputTokens start.cacheRead
  cacheCreate := orStart usage.cacheCreationInputTokens start.cacheCreate
  cacheCreate5m := (usage.cacheCreation.bind (·.ephemeral5m)).or start.cache5m
  cacheCreate1h := (usage.cacheCreation.bind (·.ephemeral1h)).or start.cache1h

def Usage.isZero (u : Usage) : Bool :=
  u.input = 0 && u.output = 0 && u.cacheRead = 0 && u.cacheCreate = 0

def bookUsage (ctx : EventCtx) (u : Usage) : List Output :=
  (if ctx.usageCounters then [.recordPriced u] else []) ++ [.usage u]

def downgradeNotice : String :=
  "⚠ 1h cache TTL not honored — check account/beta support (cache_ttl config)"

/-- The detector of a cache lifetime that is silently cut. -/
def detectDowngrade (ctx : EventCtx) (s : ParseState) (u : Usage) : ParseState × List Output :=
  let s := { s with saw1hHonored := s.saw1hHonored || 0 < u.cacheCreate1h.getD 0 }
  if ctx.cacheTtl ≠ .fiveMinutes && ctx.requestHas1hMarker && u.cacheCreate1h.getD 0 = 0
      && 0 < u.cacheCreate5m.getD 0 && u.cacheRead = 0 && !s.saw1hHonored
      && !s.ttlDowngradeNotified then
    ({ s with ttlDowngradeNotified := true },[.notice downgradeNotice])
  else (s,[])

def noteStopReason (s : ParseState) : Option String → ParseState
  | some reason =>
    { s with stopReasonSeen := true,
             stopReasonIsRefusal := s.stopReasonIsRefusal || reason = "refusal" }
  | none => s

def processMessageDelta (ctx : EventCtx) (s : ParseState) (stopReason : Option String) :
    Option UsagePayload → ParseState × List Output
  | none => (noteStopReason s stopReason,[])
  | some usage =>
    let s := noteStopReason s stopReason
    let u := effective s.msgStart usage
    let (s,noticed) := detectDowngrade ctx s u
    if u.isZero then (s,noticed)
    else ({ s with usageEmitted := true },noticed ++ bookUsage ctx u)

def processMessageStart (s : ParseState) : Option UsagePayload → ParseState
  | none => s
  | some usage =>
    let cache1h := usage.cacheCreation.bind (·.ephemeral1h)
    { s with
      msgStart := ⟨some usage.inputTokens,some usage.outputTokens,
        some usage.cacheReadInputTokens,some usage.cacheCreationInputTokens,
        usage.cacheCreation.bind (·.ephemeral5m),cache1h⟩
      saw1hHonored := s.saw1hHonored || 0 < cache1h.getD 0 }

def vettedErrorTypes : List String :=
  ["invalid_request_error","authentication_error","permission_error","not_found_error",
    "request_too_large","rate_limit_error","api_error","overloaded_error","billing_error",
    "timeout_error"]

def isRetryableType (errorType : String) : Bool :=
  ["overloaded_error","api_error","rate_limit_error"].contains errorType

def processError (s : ParseState) (errorType : Option String) : ParseState :=
  match s.streamError with
  | some _ => s
  | none =>
    let kind := errorType.getD "error"
    let vetted := if vettedErrorTypes.contains kind then kind else "unrecognized_error"
    { s with streamError := some ⟨some kind,"API stream error (" ++ vetted ++
        "). Provider error details withheld — they can echo request content.",
        isRetryableType kind⟩ }

def processEvent (ctx : EventCtx) (s : ParseState) : AnthropicEvent → ParseState × List Output
  | .contentBlockStart contentBlock => processBlockStart s contentBlock
  | .contentBlockDelta delta => processBlockDelta ctx s delta
  | .contentBlockStop => processBlockStop ctx s
  | .messageDelta stopReason usage => processMessageDelta ctx s stopReason usage
  | .messageStart usage => (processMessageStart s usage,[])
  | .messageStop => (s,[])
  | .error errorType => (processError s errorType,[])
  | .unknown => (s,[])

def finalize (ctx : EventCtx) (s : ParseState) : ParseState :=
  if s.inThinking then { s.pushThinking with inThinking := false, currentText := "" }
  else if s.inToolUse then
    { s.push (toolUseBlock s.currentToolId s.currentToolName
        (parseToolInput ctx s.currentToolInputJson)) with
      inToolUse := false, flushedPartialTool := true, currentText := "" }
  else if s.currentText ≠ "" then { s.push (textBlock s.currentText) with currentText := "" }
  else { s with currentText := "" }

def MsgStart.usage (start : MsgStart) : Usage :=
  ⟨start.input.getD 0,start.output.getD 0,start.cacheRead.getD 0,start.cacheCreate.getD 0,
    start.cache5m,start.cache1h⟩

def emitResidualUsage (ctx : EventCtx) (s : ParseState) : ParseState × List Output :=
  if s.usageEmitted then (s,[])
  else
    let u := s.msgStart.usage
    if u.isZero then (s,[]) else ({ s with usageEmitted := true },bookUsage ctx u)

def processEvents (ctx : EventCtx) :
    ParseState → List AnthropicEvent → ParseState × List Output
  | s,[] => (s,[])
  | s,event :: events =>
    let (s,out) := processEvent ctx s event
    let (s,rest) := processEvents ctx s events
    (s,out ++ rest)

def emitResidual (ctx : EventCtx) : Nat → ParseState → ParseState × List Output
  | 0,s => (s,[])
  | n+1,s =>
    let (s,out) := emitResidualUsage ctx s
    let (s,rest) := emitResidual ctx n s
    (s,out ++ rest)

def request (ctx : EventCtx) (s : ParseState) (events : List AnthropicEvent) (residuals : Nat) :
    List Output :=
  let (s,out) := processEvents ctx s events
  let (_,residual) := emitResidual ctx residuals (finalize ctx s)
  out ++ residual

def usages (out : List Output) : List Usage :=
  out.filterMap fun | .usage u => some u | _ => none

def bookings (out : List Output) : List Usage :=
  out.filterMap fun | .recordPriced u => some u | _ => none

@[simp] theorem usages_append (a b : List Output) : usages (a ++ b) = usages a ++ usages b :=
  List.filterMap_append

@[simp] theorem bookings_append (a b : List Output) :
    bookings (a ++ b) = bookings a ++ bookings b := List.filterMap_append

inductive Report where
  | start (usage : UsagePayload)
  | delta (usage : UsagePayload)
  deriving DecidableEq

def AnthropicEvent.report : AnthropicEvent → Option Report
  | .messageStart (some usage) => some (.start usage)
  | .messageDelta _ (some usage) => some (.delta usage)
  | _ => none

def captured (usage : UsagePayload) : MsgStart :=
  ⟨some usage.inputTokens,some usage.outputTokens,some usage.cacheReadInputTokens,
    some usage.cacheCreationInputTokens,usage.cacheCreation.bind (·.ephemeral5m),
    usage.cacheCreation.bind (·.ephemeral1h)⟩

def startAfter (start : MsgStart) : List Report → MsgStart
  | [] => start
  | .start usage :: rest => startAfter (captured usage) rest
  | .delta _ :: rest => startAfter start rest

def booked (start : MsgStart) : List Report → List Usage
  | [] => []
  | .start usage :: rest => booked (captured usage) rest
  | .delta usage :: rest =>
    if (effective start usage).isZero then booked start rest
    else effective start usage :: booked start rest

/-- The outputs of a step that only book these usages. -/
structure Books (ctx : EventCtx) (out : List Output) (us : List Usage) : Prop where
  usages : usages out = us
  bookings : bookings out = if ctx.usageCounters then us else []

theorem Books.append {ctx : EventCtx} {a b : List Output} {us vs : List Usage}
    (ha : Books ctx a us) (hb : Books ctx b vs) : Books ctx (a ++ b) (us ++ vs) := by
  constructor
  · rw [usages_append,ha.usages,hb.usages]
  · rw [bookings_append,ha.bookings,hb.bookings]
    cases ctx.usageCounters <;> rfl

variable {ctx : EventCtx} {s : ParseState}

def reports (events : List AnthropicEvent) : List Report := events.filterMap (·.report)

def MsgStart.none : MsgStart :=
  ⟨Option.none,Option.none,Option.none,Option.none,Option.none,Option.none⟩

def UsagePayload.isZero (u : UsagePayload) : Bool :=
  u.inputTokens = 0 && u.outputTokens = 0 && u.cacheReadInputTokens = 0 &&
    u.cacheCreationInputTokens = 0

def Report.usage : Report → UsagePayload
  | .start usage => usage
  | .delta usage => usage

def reported (l : List Report) : Bool := l.any fun r => !r.usage.isZero

def lastDelta (l : List Report) : Option UsagePayload :=
  (l.filterMap fun | .delta usage => some usage | .start _ => none).getLast?

def expected (l : List Report) : Usage :=
  match lastDelta l with
  | some usage => effective (startAfter .none l) usage
  | none => (startAfter .none l).usage

def Usage.counts (u : Usage) : Nat × Nat × Nat × Nat := (u.input,u.output,u.cacheRead,u.cacheCreate)

/-- At most one start reports usage, and after it at most one delta. -/
def Orderly (l : List Report) : Prop :=
  ∃ start delta : Option UsagePayload,l = start.toList.map .start ++ delta.toList.map .delta

theorem orStart_eq_zero {count : Nat} {start : Option Nat} (h : orStart count start = 0) :
    count = 0 ∧ start.getD 0 = 0 := by
  unfold orStart at h
  split at h
  · omega
  · exact ⟨by omega,h⟩

theorem effective_isZero {start : MsgStart} {usage : UsagePayload}
    (h : (effective start usage).isZero = true) :
    usage.isZero = true ∧ start.usage.isZero = true := by
  simp only [Usage.isZero,Bool.and_eq_true,decide_eq_true_eq] at h
  obtain ⟨⟨⟨hinput,houtput⟩,hread⟩,hcreate⟩ := h
  obtain ⟨hinput,hinput'⟩ := orStart_eq_zero hinput
  obtain ⟨houtput,houtput'⟩ := orStart_eq_zero houtput
  obtain ⟨hread,hread'⟩ := orStart_eq_zero hread
  obtain ⟨hcreate,hcreate'⟩ := orStart_eq_zero hcreate
  simp [UsagePayload.isZero,Usage.isZero,MsgStart.usage,hinput,hinput',houtput,houtput',hread,
    hread',hcreate,hcreate']

variable {l : List Report}

theorem captured_isZero (usage : UsagePayload) : (captured usage).usage.isZero = usage.isZero := rfl

theorem Orderly.reported (h : Orderly l) (hzero : (expected l).isZero = true) :
    Anthropic.reported l = false := by
  obtain ⟨start,delta,rfl⟩ := h
  have hboth : (start.elim .none captured).usage.isZero = true ∧
      ∀ usage ∈ delta,usage.isZero = true := by
    cases delta with
    | none => cases start <;> exact ⟨hzero,by simp⟩
    | some usage =>
      have hdelta : (effective (start.elim .none captured) usage).isZero = true := by
        cases start <;> exact hzero
      obtain ⟨husage,hstart⟩ := effective_isZero hdelta
      exact ⟨hstart,by simpa using husage⟩
  obtain ⟨hstart,hdelta⟩ := hboth
  cases start <;> cases delta <;>
    simp_all [Anthropic.reported,Report.usage,captured_isZero]

end Synaps.Anthropic
