import Synaps.Runtime.History

/-!
The decoder of Responses streams: lines are gathered to payloads, a payload is an event of
text, of a tool call or of the end, and the end says whether the attempt succeeded.
-/

set_option autoImplicit false

namespace Synaps.Codex

open Json History

structure ToolCall where
  id : String
  name : String
  arguments : String
  deriving DecidableEq

structure CodexToolAccumulator where
  id : String
  name : String
  arguments : String
  started : Bool
  deriving DecidableEq

def CodexToolAccumulator.default : CodexToolAccumulator := ⟨"","","",false⟩

structure ResponsesStreamFailure where
  code : String
  message : String
  deriving DecidableEq

structure CodexSseDecoder where
  providerLabel : String
  buffer : List Char
  activeTools : List CodexToolAccumulator
  completedTools : List ToolCall
  sawModelEvent : Bool
  terminalSuccess : Bool
  terminalFailure : Option ResponsesStreamFailure
  emittedOutput : Bool
  sawContentOutput : Bool
  observedUsage : Option (Nat × Nat × Nat)
  lastMessagePhase : Option String
  lastMessageIndex : Option Nat
  messageText : List (Nat × String)
  backfillMessageText : Bool
  deriving DecidableEq

def CodexSseDecoder.forProvider (label : String) (backfillMessageText : Bool) : CodexSseDecoder :=
  ⟨label,[],[],[],false,false,none,false,false,none,none,none,[],backfillMessageText⟩

inductive StreamEvent where
  | text (text : String)
  | toolUseStart (toolName toolId : String)
  | toolUseDelta (toolId delta : String)
  | toolUse (toolName toolId : String) (input : Value)
  | notice (text : String)
  | usage (inputTokens outputTokens cacheReadInputTokens : Nat)
  deriving DecidableEq

structure Sink where
  text : String
  sent : List StreamEvent
  deriving DecidableEq

def Sink.send (k : Sink) (event : StreamEvent) : Sink := { k with sent := k.sent ++ [event] }

def Sink.pushText (k : Sink) (text : String) : Sink :=
  { text := k.text ++ text, sent := k.sent ++ [.text text] }

/-- The reader of JSON texts and the text of a notice are parameters. -/
structure Ctx where
  fromStr : String → Except String Value
  webSearchNotice : String → Value → String

def sanitizeErrorIdentifier : Option String → String
  | none => "absent"
  | some s =>
    let cs := s.toList
    let identifierShaped := cs ≠ [] && cs.length ≤ 64 &&
      cs.all fun c => Text.isAsciiAlphanumeric c || c = '_' || c = '-' || c = '.'
    if identifierShaped &&
        cs.all (fun c => ('a' ≤ c && c ≤ 'z') || ('0' ≤ c && c ≤ '9') || c = '_') then s
    else if identifierShaped then "unlisted_identifier"
    else "unsafe_or_freeform"

def capacityErrorCodes : List String :=
  ["rate_limit_exceeded","server_overloaded","overloaded","capacity","server_error"]

def capacityMessagePatterns : List String :=
  ["at capacity","high demand","try again in a few minutes","overloaded"]

def isCapacityFailure (errorCode : String) (message : Option String) : Bool :=
  capacityErrorCodes.contains errorCode ||
    match message with
    | some m =>
      let lower := m.toList.map Text.toAsciiLowercase
      capacityMessagePatterns.any fun p => (Text.splitOnce p.toList lower).isSome
    | none => false

def authSuffix : String :=
  " authentication rejected in stream. Sign in again or switch to an available account."
def quotaSuffix : String :=
  " usage quota exhausted in stream. Add credit, wait for reset, or switch models."
def failedSuffix : String :=
  " response failed in stream. Provider error details withheld because they can echo request content."
def contextSuffix : String :=
  " rejected the request: the conversation exceeds this model's context window. Run /compact or start a fresh session to continue."
def capacitySuffix : String :=
  " reports the model is at capacity (retries exhausted). Try again in a few minutes or switch models with /model."
def incompleteSuffix : String :=
  " response was incomplete. Retry the request or reduce the requested output/context size."
def emptySuffix : String := " completed without text or tool output. Retry the request."
def missingTerminalSuffix : String :=
  " response stream ended without a terminal event. Retry the request."

inductive FailureClass where
  | auth
  | quota
  | capacity
  | blocked
  deriving DecidableEq

def classify (value : String) : Option FailureClass :=
  if ["absent","error"].contains value then none
  else if ["invalid_api_key","authentication_error","invalid_authentication_error"].contains value
  then some .auth
  else if ["insufficient_quota","quota_exceeded","billing_error","usage_limit_reached"].contains
      value then some .quota
  else if ["rate_limit_exceeded","rate_limit_error","server_overloaded","overloaded","capacity",
      "server_error","api_error","overloaded_error"].contains value then some .capacity
  else some .blocked

def failureSuffix (errorKind errorCode : String) (capacity : Bool) : String :=
  if errorCode = "context_length_exceeded" || errorKind = "context_length_exceeded" then
    contextSuffix
  else
    let kind := classify errorKind
    let code := classify errorCode
    if kind = some .blocked || code = some .blocked ||
        (kind.isSome && code.isSome && kind ≠ code) then failedSuffix
    else
      match code.or kind with
      | some .auth => authSuffix
      | some .quota => quotaSuffix
      | some .capacity => capacitySuffix
      | some .blocked => failedSuffix
      | none => if capacity then capacitySuffix else failedSuffix

def userMessageForTerminalFailure (label errorKind errorCode : String) (capacity : Bool) : String :=
  label ++ failureSuffix errorKind errorCode capacity

def streamFailureIsQuota (errorKind errorCode : String) : Bool :=
  let quota := ["insufficient_quota","quota_exceeded","usage_limit_reached"].contains
  let neutral := ["absent","error"].contains
  (quota errorKind && (quota errorCode || neutral errorCode)) ||
    (quota errorCode && (quota errorKind || neutral errorKind))

def strAt (v : Option Value) (k : String) : Option String :=
  v.bind fun v => (v.get? k).bind (·.asStr?)

def isObject : Value → Bool
  | .object _ => true
  | _ => false

def terminalFailureOf (label : String) (event : Value) : ResponsesStreamFailure :=
  let errorObj := (((event.get? "response").bind (·.get? "error")).or (event.get? "error")).filter
    isObject
  let errorKind := sanitizeErrorIdentifier (strAt errorObj "type")
  let errorCode := sanitizeErrorIdentifier
    (((errorObj.bind (·.get? "code")).or (event.get? "code")).bind (·.asStr?))
  let capacity := isCapacityFailure errorCode
    (((errorObj.bind (·.get? "message")).or (event.get? "message")).bind (·.asStr?))
  let message := userMessageForTerminalFailure label errorKind errorCode capacity
  { code :=
      if message = label ++ capacitySuffix then "responses_capacity"
      else if streamFailureIsQuota errorKind errorCode then "responses_quota"
      else "responses_failed"
    message := message }

def maxTools : Nat := 4096

/-- The slot of a tool: absurd indices share the last one. -/
def slotOf (idx : Nat) : Nat := min idx (maxTools-1)

def ensureTool (tools : List CodexToolAccumulator) (idx : Nat) : List CodexToolAccumulator :=
  tools ++ List.replicate (slotOf idx + 1 - tools.length) .default

def toolAt (tools : List CodexToolAccumulator) (idx : Nat) : CodexToolAccumulator :=
  (tools[slotOf idx]?).getD .default

def CodexSseDecoder.setTool (d : CodexSseDecoder) (idx : Nat) (tool : CodexToolAccumulator) :
    CodexSseDecoder :=
  { d with activeTools := (ensureTool d.activeTools idx).set (slotOf idx) tool }

def CodexToolAccumulator.readItem (tool : CodexToolAccumulator) (item : Value) :
    CodexToolAccumulator :=
  { tool with
    id := (((item.get? "call_id").or (item.get? "id")).bind (·.asStr?)).getD tool.id
    name := (strAt (some item) "name").getD tool.name }

def CodexToolAccumulator.start (tool : CodexToolAccumulator) (k : Sink) :
    CodexToolAccumulator × Sink :=
  if !tool.started && tool.name ≠ "" then
    ({ tool with started := true },k.send (.toolUseStart tool.name tool.id))
  else (tool,k)

def CodexSseDecoder.addToolFromItem (d : CodexSseDecoder) (k : Sink) (idx : Nat) (item : Value) :
    CodexSseDecoder × Sink :=
  if strAt (some item) "type" ≠ some "function_call" then (d,k)
  else
    let (tool,k) := ((toolAt d.activeTools idx).readItem item).start k
    (d.setTool idx tool,k)

def parseToolArguments (ctx : Ctx) (raw : String) : Value :=
  if (Text.trim raw.toList).isEmpty then .object []
  else
    match ctx.fromStr raw with
    | .ok v => v
    | .error e => .object [("__parse_error",.string ("invalid tool input JSON: " ++ e))]

/-- A finished call is announced once for each id. -/
def CodexSseDecoder.announce (ctx : Ctx) (d : CodexSseDecoder) (k : Sink)
    (tool : CodexToolAccumulator) : CodexSseDecoder × Sink :=
  if tool.id = "" || tool.name = "" || d.completedTools.any (·.id = tool.id) then (d,k)
  else
    ({ d with emittedOutput := true,
              completedTools := d.completedTools ++ [⟨tool.id,tool.name,tool.arguments⟩] },
      k.send (.toolUse tool.name tool.id (parseToolArguments ctx tool.arguments)))

def CodexSseDecoder.completeToolFromItem (ctx : Ctx) (d : CodexSseDecoder) (k : Sink) (idx : Nat)
    (item : Value) : CodexSseDecoder × Sink :=
  if strAt (some item) "type" ≠ some "function_call" then (d,k)
  else
    let tool := (toolAt d.activeTools idx).readItem item
    let tool := { tool with arguments := (strAt (some item) "arguments").getD tool.arguments }
    let (tool,k) := tool.start k
    (d.setTool idx tool).announce ctx k tool

/-- The end: what is still open is completed if it has an id and a name, and all of it is
    drained. -/
def CodexSseDecoder.finishTool (d : CodexSseDecoder) (tool : CodexToolAccumulator) :
    CodexSseDecoder :=
  if tool.id ≠ "" && tool.name ≠ "" && !d.completedTools.any (·.id = tool.id) then
    { d with emittedOutput := true,
             completedTools := d.completedTools ++ [⟨tool.id,tool.name,tool.arguments⟩] }
  else d

def CodexSseDecoder.finish (d : CodexSseDecoder) : CodexSseDecoder :=
  d.activeTools.foldl finishTool { d with activeTools := [] }

def setText (idx : Nat) (text : String) (texts : List (Nat × String)) : List (Nat × String) :=
  (idx,text) :: texts.filter fun e => e.1 ≠ idx

def textAt (texts : List (Nat × String)) (idx : Nat) : String := (texts.lookup idx).getD ""

def CodexSseDecoder.observeMessageItem (d : CodexSseDecoder) (idx : Nat) (item : Value) :
    CodexSseDecoder :=
  if strAt (some item) "type" ≠ some "message" then d
  else { d with lastMessageIndex := some idx, lastMessagePhase := strAt (some item) "phase" }

def outputTexts (parts : List Value) : List Char :=
  parts.flatMap fun part =>
    if strAt (some part) "type" = some "output_text" then
      ((strAt (some part) "text").getD "").toList
    else []

def CodexSseDecoder.backfillMessageSuffix (d : CodexSseDecoder) (k : Sink) (idx : Nat)
    (item : Value) : CodexSseDecoder × Sink :=
  if !d.backfillMessageText || strAt (some item) "type" ≠ some "message" then (d,k)
  else
    match (item.get? "content").bind (·.asArray?) with
    | none => (d,k)
    | some parts =>
      let streamed := textAt d.messageText idx
      match streamed.toList.isPrefixOf? (outputTexts parts) with
      | some (c :: cs) =>
        let suffix := String.ofList (c :: cs)
        ({ d with messageText := setText idx (streamed ++ suffix) d.messageText,
                  emittedOutput := true },k.pushText suffix)
      | _ => ({ d with messageText := setText idx streamed d.messageText },k)

def announceWebSearchCall (ctx : Ctx) (label : String) (item : Value) (k : Sink) : Sink :=
  if strAt (some item) "type" ≠ some "web_search_call" then k
  else k.send (.notice (ctx.webSearchNotice label item))

def CodexSseDecoder.pushUsage (d : CodexSseDecoder) (k : Sink) (event : Value) :
    CodexSseDecoder × Sink :=
  let usage := ((event.get? "response").bind (·.get? "usage")).or (event.get? "usage")
  let count := fun (v : Option Value) (key : String) =>
    (v.bind fun v => (v.get? key).bind asU64?).getD 0
  let input := count usage "input_tokens"
  let output := count usage "output_tokens"
  let cached := min (count (usage.bind (·.get? "input_tokens_details")) "cached_tokens") input
  if 0 < input || 0 < output then
    ({ d with observedUsage := d.observedUsage.or (some (input,output,cached)) },
      k.send (.usage (input-cached) output cached))
  else (d,k)

inductive EventKind where
  | textDelta
  | itemAdded
  | argumentsDelta
  | itemDone
  | completed
  | failed
  | incomplete
  | other
  deriving DecidableEq

def EventKind.of (eventType : String) : EventKind :=
  if eventType = "response.output_text.delta" then .textDelta
  else if eventType = "response.output_item.added" then .itemAdded
  else if eventType = "response.function_call_arguments.delta" then .argumentsDelta
  else if eventType = "response.output_item.done" then .itemDone
  else if eventType = "response.completed" || eventType = "response.done" then .completed
  else if eventType = "response.failed" || eventType = "error" then .failed
  else if eventType = "response.incomplete" then .incomplete
  else .other

def eventType (event : Value) : String := (strAt (some event) "type").getD ""

def bearsContent (type : String) : Bool :=
  ["response.output_text.delta","response.output_text.done","response.output_item.added",
    "response.output_item.done","response.function_call_arguments.delta",
    "response.function_call_arguments.done"].contains type ||
  ["response.reasoning","response.content_part","response.refusal"].any fun p =>
    p.toList.isPrefixOf type.toList

def outputIndex (event : Value) : Nat := ((event.get? "output_index").bind asU64?).getD 0

def CodexSseDecoder.note (d : CodexSseDecoder) (event : Value) : CodexSseDecoder :=
  { d with
    sawModelEvent := d.sawModelEvent || EventKind.of (eventType event) ≠ .other
    sawContentOutput := d.sawContentOutput || bearsContent (eventType event) }

def CodexSseDecoder.textDelta (d : CodexSseDecoder) (k : Sink) (event : Value) :
    CodexSseDecoder × Sink :=
  match strAt (some event) "delta" with
  | some delta =>
    let idx := outputIndex event
    ({ d with emittedOutput := d.emittedOutput || delta ≠ "",
              messageText := setText idx (textAt d.messageText idx ++ delta) d.messageText },
      k.pushText delta)
  | none => (d,k)

def argumentsOf (event : Value) : String := (strAt (some event) "delta").getD ""

def CodexSseDecoder.argumentsDelta (d : CodexSseDecoder) (k : Sink) (event : Value) :
    CodexSseDecoder × Sink :=
  let delta := argumentsOf event
  if delta = "" then (d,k)
  else
    let idx := outputIndex event
    let tool := toolAt d.activeTools idx
    (d.setTool idx { tool with arguments := tool.arguments ++ delta },
      k.send (.toolUseDelta tool.id delta))

def CodexSseDecoder.itemAdded (d : CodexSseDecoder) (k : Sink) (event : Value) :
    CodexSseDecoder × Sink :=
  match event.get? "item" with
  | some item =>
    let idx := outputIndex event
    (d.observeMessageItem idx item).addToolFromItem k idx item
  | none => (d,k)

def CodexSseDecoder.itemDone (ctx : Ctx) (d : CodexSseDecoder) (k : Sink) (event : Value) :
    CodexSseDecoder × Sink :=
  match event.get? "item" with
  | some item =>
    let idx := outputIndex event
    let (d,k) := (d.observeMessageItem idx item).backfillMessageSuffix k idx item
    let k := announceWebSearchCall ctx d.providerLabel item k
    d.completeToolFromItem ctx k idx item
  | none => (d,k)

def CodexSseDecoder.pushEvent (ctx : Ctx) (d : CodexSseDecoder) (k : Sink) (event : Value) :
    CodexSseDecoder × Sink :=
  let d := d.note event
  match EventKind.of (eventType event) with
  | .textDelta => d.textDelta k event
  | .itemAdded => d.itemAdded k event
  | .argumentsDelta => d.argumentsDelta k event
  | .itemDone => d.itemDone ctx k event
  | .completed =>
    let (d,k) := d.pushUsage k event
    ({ d with terminalSuccess := true }.finish,k)
  | .failed =>
    let (d,k) := d.pushUsage k event
    ({ d with terminalFailure := some (terminalFailureOf d.providerLabel event) }.finish,k)
  | .incomplete =>
    let (d,k) := d.pushUsage k event
    let failure := ⟨"responses_incomplete",d.providerLabel ++ incompleteSuffix⟩
    ({ d with terminalFailure := some failure }.finish,k)
  | .other => (d,k)

def CodexSseDecoder.pushPayload (ctx : Ctx) (d : CodexSseDecoder) (k : Sink)
    (payload : List Char) : CodexSseDecoder × Sink :=
  match ctx.fromStr (String.ofList payload) with
  | .ok event => d.pushEvent ctx k event
  | .error _ => (d,k)

def trimEndCr (line : List Char) : List Char := line.rdropWhile (· = '\r')

inductive Line where
  | payload
  | done
  | data (data : List Char)
  | skip
  deriving DecidableEq

def readLine (line : List Char) : Line :=
  let line := trimEndCr line
  if line = [] then .payload
  else
    match "data:".toList.isPrefixOf? line with
    | none => .skip
    | some rest =>
      let data := Text.trimStart rest
      if data = "[DONE]".toList then .done else .data data

def CodexSseDecoder.pushLine (ctx : Ctx) (d : CodexSseDecoder) (k : Sink) (line : List Char) :
    CodexSseDecoder × Sink :=
  match readLine line with
  | .payload =>
    if d.buffer = [] then (d,k)
    else { d with buffer := [] }.pushPayload ctx k d.buffer
  | .done => ({ d with terminalSuccess := true }.finish,k)
  | .data data => ({ d with buffer := d.buffer ++ data },k)
  | .skip => (d,k)

def CodexSseDecoder.emittedAnyOutput (d : CodexSseDecoder) : Bool :=
  d.emittedOutput || !d.completedTools.isEmpty || d.activeTools.any (·.started)

def CodexSseDecoder.terminalResult (d : CodexSseDecoder) : Except ResponsesStreamFailure Unit :=
  match d.terminalFailure with
  | some failure => .error failure
  | none =>
    if d.terminalSuccess then
      if d.emittedOutput || !d.completedTools.isEmpty then .ok ()
      else .error ⟨"responses_empty",d.providerLabel ++ emptySuffix⟩
    else .error ⟨"responses_missing_terminal",d.providerLabel ++ missingTerminalSuffix⟩

end Synaps.Codex
