import Synaps.Lib.Utf8
import Synaps.Runtime.History

/-!
What of a history goes into an archive. Messages and blocks are admitted by their labels,
texts pass a redactor and a credential screen, and tool arguments and results are withheld
without a redactor.
-/

set_option autoImplicit false

namespace Synaps.Archive

open Json History

/-- The code of other libraries: the SHA-256 digest in hex and the JSON reader. -/
structure Deps where
  sha256 : List UInt8 → String
  readJson : String → Option Value

def maxSegmentBytes : Nat := 16 * 1024 * 1024

def maxInputBytes : Nat := 16 * 1024 * 1024

def maxMessages : Nat := 4096

def maxNoteBytes : Nat := 8192

def withheld : String := "[archive: withheld]"

inductive ErrorKind where
  | invalidInput
  | invalidData
  | notFound
  | permissionDenied
  | other
  deriving DecidableEq

structure ArchiveError where
  kind : ErrorKind
  message : String
  deriving DecidableEq

def invalid (message : String) : ArchiveError := ⟨.invalidInput,message⟩

inductive DisclosureClass where
  | modelVisible
  | localOnly
  | modelVisibleAfterRedaction
  | modelVisibleAfterConsent
  | persistNeverTransmit
  | neverPersist
  deriving DecidableEq

def DisclosureClass.asStr : DisclosureClass → String
  | .modelVisible => "model_visible"
  | .localOnly => "local_only"
  | .modelVisibleAfterRedaction => "model_visible_after_redaction"
  | .modelVisibleAfterConsent => "model_visible_after_consent"
  | .persistNeverTransmit => "persist_never_transmit"
  | .neverPersist => "never_persist"

def DisclosureClass.parse (s : String) : Option DisclosureClass :=
  [.modelVisible,.localOnly,.modelVisibleAfterRedaction,.modelVisibleAfterConsent,
    .persistNeverTransmit,.neverPersist].find? fun c => c.asStr = s

inductive ModelVisibility where
  | visible (text : String)
  | withheld (reason : String)
  deriving DecidableEq

def gateForModel (c : DisclosureClass) (text : String) (consentGranted : Bool)
    (redactor : Option (String → String)) : ModelVisibility :=
  match c with
  | .modelVisible | .neverPersist => .visible text
  | .localOnly => .withheld "local_only"
  | .modelVisibleAfterRedaction =>
    match redactor with
    | some redact => .visible (redact text)
    | none => .withheld "redaction required but no redactor configured"
  | .modelVisibleAfterConsent =>
    if consentGranted then .visible text else .withheld "explicit consent required"
  | .persistNeverTransmit => .withheld "persist_never_transmit"

def mayPersist (c : DisclosureClass) : Bool := c ≠ .neverPersist

def hasLabelOutside (v : Value) (key : String) (allowed : List String) : Bool :=
  (v.get? key).any fun x => !(x.asStr?.any fun s => allowed.contains s)

/-- The class the disclosure labels give, each overriding the one before. -/
def disclosureLabel (v : Value) (c : DisclosureClass) (key : String) : Option DisclosureClass :=
  match v.get? key with
  | none => some c
  | some x => do
    let s ← x.asStr?
    let parsed ← DisclosureClass.parse s
    if !mayPersist parsed || !(parsed = .modelVisible || parsed = .modelVisibleAfterRedaction) then
      none
    else some parsed

def eligibleClass (v : Value) : Option DisclosureClass :=
  if hasLabelOutside v "channel" ["final"] ||
      hasLabelOutside v "content_class" ["user_text","assistant_text","tool_calls","tool_results"] ||
      (v.get? "private").any (fun x => x ≠ .bool false) then none
  else if ["sensitivity","retention","retention_class"].any
      (fun key => hasLabelOutside v key ["normal","standard","model_visible"]) then none
  else ["disclosure","disclosure_class"].foldlM (disclosureLabel v) .modelVisible

def projectionContent (message : Value) : Option (DisclosureClass × String × Value) :=
  if (message.get? "_synaps_context").isSome || isToolInFlightNote message then none
  else do
    let c ← eligibleClass message
    let role ← (← message.get? "role").asStr?
    if role ≠ "user" ∧ role ≠ "assistant" then none
    else
      let content ← message.get? "content"
      some (c,role,content)

def credentialNeedles : List String :=
  ["password","passwd","api_key","apikey","api-key","access_token","refresh_token","secret",
    "authorization","bearer ","private key","sk-","ghp_","github_pat_","xoxb-","akia","eyjh"]

def credentialLike (text : String) : Bool :=
  let lower := text.toList.map Text.toAsciiLowercase
  credentialNeedles.any fun needle => decide (needle.toList <:+: lower)

def identifier (v : Value) (key : String) : Option String := do
  let text ← (← v.get? key).asStr?
  if text ≠ "" ∧ text.utf8ByteSize ≤ 128 ∧ !credentialLike text ∧
      text.toList.all (fun c => Text.isAsciiAlphanumeric c || ['_','-','.',':'].contains c) then
    some text
  else none

/-- The class of a block inside a message: the message's where that asks for redaction. -/
def blockClass (message block : DisclosureClass) : DisclosureClass :=
  if message = .modelVisibleAfterRedaction then message else block

def blockType (block : Value) : Option String := (block.get? "type").bind Value.asStr?

structure InputBudget where
  bytes : Nat
  nodes : Nat
  deriving DecidableEq

namespace InputBudget

def node (b : InputBudget) (depth : Nat) : Except ArchiveError InputBudget :=
  let b := { b with nodes := b.nodes + 1 }
  if 32 < depth ∨ 65536 < b.nodes then .error (invalid "archive input structural budget exceeded")
  else .ok b

def charge (b : InputBudget) (bytes : Nat) : Except ArchiveError InputBudget :=
  let b := { b with bytes := b.bytes + bytes }
  if maxInputBytes < b.bytes then .error (invalid "archive input byte budget exceeded")
  else .ok b

def field (b : InputBudget) (key text : String) (depth : Nat) : Except ArchiveError InputBudget := do
  let b ← b.node depth
  b.charge (key.utf8ByteSize + 8 + text.utf8ByteSize)

def textField (b : InputBudget) (key text : String) (c : DisclosureClass) (redactor : Bool)
    (depth : Nat) : Except ArchiveError InputBudget :=
  if c = .modelVisibleAfterRedaction ∧ !redactor then b.node depth else b.field key text depth

def visit (v : Value) (depth : Nat) (b : InputBudget)
    (descend : InputBudget → Except ArchiveError (Option Nat × InputBudget)) :
    Except ArchiveError (Option Nat × InputBudget) := do
  let b ← b.node depth
  if (eligibleClass v).isNone then .ok (none,b) else descend b

mutual

/-- The bytes of an argument, none if a part of it is not admitted. -/
def input (depth : Nat) : Value → InputBudget → Except ArchiveError (Option Nat × InputBudget)
  | .string t, b => visit (.string t) depth b fun b => .ok (some (8 + t.utf8ByteSize),b)
  | .array vs, b => visit (.array vs) depth b (inputItems (depth+1) vs 8)
  | .object kvs, b => visit (.object kvs) depth b (inputEntries (depth+1) kvs 8)
  | .null, b => visit .null depth b fun b => .ok (some 8,b)
  | .bool x, b => visit (.bool x) depth b fun b => .ok (some 8,b)
  | .number n, b => visit (.number n) depth b fun b => .ok (some 8,b)

def inputItems (depth : Nat) :
    List Value → Nat → InputBudget → Except ArchiveError (Option Nat × InputBudget)
  | [], bytes, b => .ok (some bytes,b)
  | v :: vs, bytes, b => do
    let (cost,b) ← input depth v b
    match cost with
    | none => .ok (none,b)
    | some cost => inputItems depth vs (bytes + cost) b

def inputEntries (depth : Nat) :
    List (String × Value) → Nat → InputBudget → Except ArchiveError (Option Nat × InputBudget)
  | [], bytes, b => .ok (some bytes,b)
  | (key,v) :: kvs, bytes, b => do
    let (cost,b) ← input depth v b
    match cost with
    | none => .ok (none,b)
    | some cost => inputEntries depth kvs (bytes + key.utf8ByteSize + cost) b

end

def nestedBlock (b : InputBudget) (block : Value) : Except ArchiveError InputBudget := do
  let b ← b.node 4
  match eligibleClass block with
  | none => .ok b
  | some c =>
    if block.index "type" = .string "text" then
      match (block.index "text").asStr? with
      | none => .ok b
      | some text =>
        let b ← b.charge 8
        let b ← b.field "type" "text" 5
        b.textField "text" text c true 5
    else .ok b

def toolResult (b : InputBudget) (content : Value) (c : DisclosureClass) :
    Except ArchiveError InputBudget :=
  match content.asStr? with
  | some text => b.textField "content" text c true 3
  | none => do
    let b ← b.node 3
    match content.asArray? with
    | none => .ok b
    | some blocks =>
      let b ← b.charge ("content".utf8ByteSize + 8)
      blocks.foldlM nestedBlock b

def toolUseBlock (b : InputBudget) (block : Value) (redactor : Bool) :
    Except ArchiveError InputBudget :=
  match identifier block "id", identifier block "name" with
  | some id, some name => do
    let b ← b.charge 8
    let b ← b.field "type" "tool_use" 3
    let b ← b.field "id" id 3
    let b ← b.field "name" name 3
    match block.get? "input" with
    | some input =>
      if name ≠ "context_checkpoint" ∧ redactor then
        let (cost,b) ← b.input 3 input
        match cost with
        | some bytes => b.charge ("input".utf8ByteSize + bytes)
        | none => .ok b
      else .ok b
    | none => .ok b
  | _, _ => .ok b

def toolResultBlock (b : InputBudget) (block : Value) (c : DisclosureClass) (redactor : Bool) :
    Except ArchiveError InputBudget :=
  match identifier block "tool_use_id" with
  | none => .ok b
  | some id => do
    let b ← b.charge 8
    let b ← b.field "type" "tool_result" 3
    let b ← b.field "tool_use_id" id 3
    let b ← match block.get? "is_error" with
      | some (.bool _) => b.field "is_error" "" 3
      | _ => .ok b
    match block.get? "content" with
    | some content => if redactor then b.toolResult content c else .ok b
    | none => .ok b

def block (role : String) (message : DisclosureClass) (redactor : Bool) (b : InputBudget)
    (block : Value) : Except ArchiveError InputBudget := do
  let b ← b.node 2
  match eligibleClass block with
  | none => .ok b
  | some c =>
    let c := blockClass message c
    match blockType block with
    | some "text" =>
      match (block.get? "text").bind Value.asStr? with
      | none => .ok b
      | some text =>
        let b ← b.charge 8
        let b ← b.field "type" "text" 3
        b.textField "text" text c redactor 3
    | some "tool_use" => if role = "assistant" then b.toolUseBlock block redactor else .ok b
    | some "tool_result" => if role = "user" then b.toolResultBlock block c redactor else .ok b
    | _ => .ok b

def message (redactor : Bool) (b : InputBudget) (message : Value) :
    Except ArchiveError InputBudget := do
  let b ← b.node 0
  match projectionContent message with
  | none => .ok b
  | some (c,role,content) =>
    let b ← b.charge 8
    let b ← b.field "role" role 1
    match content.asStr? with
    | some text => b.textField "content" text c redactor 1
    | none =>
      let b ← b.node 1
      match content.asArray? with
      | none => .ok b
      | some blocks =>
        let b ← b.charge ("content".utf8ByteSize + 8)
        blocks.foldlM (block role c redactor) b

end InputBudget

def boundedJson (v : Value) (limit : Nat) : Except ArchiveError (List Char) :=
  let text := print v
  if limit < (Utf8.encode text).length then
    .error (invalid "archive JSON serialization failed or exceeded budget")
  else .ok text

section Projector

variable (D : Deps) (redactor : Option (String → String))

def screen (text : String) (c : DisclosureClass) : Except ArchiveError String :=
  if c = .modelVisibleAfterRedaction ∧ redactor.isNone then .ok withheld
  else
    let text := redactor.elim text (· text)
    let text := if credentialLike text then withheld else text
    if maxSegmentBytes < text.utf8ByteSize then
      .error (invalid "redactor output exceeds archive budget")
    else
      match gateForModel c text false (some id) with
      | .visible text => .ok text
      | .withheld _ => .ok withheld

def withheldInput : Value := .object [("_archive_withheld",.bool true)]

def toolInput (input : Option Value) (c : DisclosureClass) : Except ArchiveError Value :=
  match input with
  | none => .ok withheldInput
  | some input => do
    let (cost,b) ← InputBudget.input 3 input ⟨0,0⟩
    match cost with
    | none => .ok withheldInput
    | some bytes =>
      let _ ← b.charge bytes
      let encoded ← boundedJson input (bytes * 6)
      let text ← screen redactor (String.ofList encoded) c
      .ok ((D.readJson text).getD withheldInput)

def textBlock (text : String) : Value := .object [("text",.string text),("type",.string "text")]

def nestedText (block : Value) : Except ArchiveError (Option Value) :=
  match eligibleClass block with
  | none => .ok none
  | some c =>
    if block.index "type" = .string "text" then
      match (block.index "text").asStr? with
      | none => .ok none
      | some text => do
        let text ← screen redactor text c
        .ok (some (textBlock text))
    else .ok none

def nestedTexts : List Value → Except ArchiveError (List Value)
  | [] => .ok []
  | block :: blocks => do
    let kept ← nestedText redactor block
    let rest ← nestedTexts blocks
    .ok (kept.toList ++ rest)

def toolResult (content : Value) (c : DisclosureClass) : Except ArchiveError Value :=
  match content.asStr? with
  | some text => do
    let text ← screen redactor text c
    .ok (.string text)
  | none => do
    let output ← nestedTexts redactor (content.asArray?.getD [])
    .ok (if output = [] then .string withheld else .array output)

def toolUseBlock (block : Value) (c : DisclosureClass) : Except ArchiveError (Option Value) :=
  match identifier block "id", identifier block "name" with
  | some id, some name => do
    let input ← if name = "context_checkpoint" then .ok withheldInput
      else if redactor.isSome then toolInput D redactor (block.get? "input") c
      else .ok withheldInput
    .ok (some (.object [("id",.string id),("input",input),("name",.string name),
      ("type",.string "tool_use")]))
  | _, _ => .ok none

def toolResultBlock (block : Value) (c : DisclosureClass) : Except ArchiveError (Option Value) :=
  match identifier block "tool_use_id" with
  | none => .ok none
  | some id => do
    let content ← if redactor.isSome then toolResult redactor (block.index "content") c
      else .ok (.string withheld)
    let error := match block.get? "is_error" with
      | some (.bool e) => [("is_error",Value.bool e)]
      | _ => []
    .ok (some (.object ([("content",content)] ++ error ++
      [("tool_use_id",.string id),("type",.string "tool_result")])))

def projectBlock (role : String) (message : DisclosureClass) (block : Value) :
    Except ArchiveError (Option Value) :=
  match eligibleClass block with
  | none => .ok none
  | some c =>
    let c := blockClass message c
    match blockType block with
    | some "text" =>
      match (block.get? "text").bind Value.asStr? with
      | none => .ok none
      | some text => do
        let text ← screen redactor text c
        .ok (some (textBlock text))
    | some "tool_use" => if role = "assistant" then toolUseBlock D redactor block c else .ok none
    | some "tool_result" => if role = "user" then toolResultBlock redactor block c else .ok none
    | _ => .ok none

def projectBlocks (role : String) (message : DisclosureClass) :
    Nat → List Value → Except ArchiveError (List (Value × Nat))
  | _, [] => .ok []
  | i, block :: blocks => do
    let kept ← projectBlock D redactor role message block
    let rest ← projectBlocks role message (i+1) blocks
    .ok ((kept.map (·,i)).toList ++ rest)

def project (message : Value) : Except ArchiveError (Option (Value × List Nat)) :=
  match projectionContent message with
  | none => .ok none
  | some (c,role,content) =>
    match content.asStr? with
    | some text => do
      let text ← screen redactor text c
      .ok (some (.object [("content",.string text),("role",.string role)],[]))
    | none =>
      match content.asArray? with
      | none => .ok none
      | some blocks => do
        let output ← projectBlocks D redactor role c 0 blocks
        if output = [] then .ok none
        else .ok (some (.object [("content",.array (output.map Prod.fst)),("role",.string role)],
          output.map Prod.snd))

end Projector

structure ArchivedMessage where
  sourceIndex : Nat
  blockIndices : List Nat
  message : Value
  deriving DecidableEq

def ArchivedMessage.toValue (m : ArchivedMessage) : Value :=
  .object [("source_index",ofU64 m.sourceIndex),("block_indices",.array (m.blockIndices.map ofU64)),
    ("message",m.message)]

structure ArchiveProjection where
  logicalId : String
  sourceMessageCount : Nat
  messages : List ArchivedMessage
  note : String
  digest : String
  deriving DecidableEq

def be64 (n : Nat) : List UInt8 := (List.range 8).reverse.map fun i => .ofNat (n / 256 ^ i)

def hashInput (parts : List (List UInt8)) : List UInt8 :=
  parts.flatMap fun part => be64 part.length ++ part

section

variable (D : Deps)

def digestParts (parts : List (List UInt8)) : String := D.sha256 (hashInput parts)

def bytesOf (s : String) : List UInt8 := Utf8.encode s.toList

def messagesText (messages : List ArchivedMessage) : List Char :=
  print (.array (messages.map ArchivedMessage.toValue))

def projectionInput (scope : String) (count : Nat) (messages : List ArchivedMessage) : List UInt8 :=
  hashInput [bytesOf scope,be64 count,Utf8.encode (messagesText messages)]

def projectionDigest (scope : String) (count : Nat) (messages : List ArchivedMessage) :
    Except ArchiveError String := do
  let _ ← boundedJson (.array (messages.map ArchivedMessage.toValue)) maxSegmentBytes
  .ok (D.sha256 (projectionInput scope count messages))

variable (redactor : Option (String → String))

def projectMessages : Nat → List Value → Except ArchiveError (List ArchivedMessage)
  | _, [] => .ok []
  | i, message :: messages => do
    let kept ← project D redactor message
    let rest ← projectMessages (i+1) messages
    .ok ((kept.map fun k => ⟨i,k.2,k.1⟩).toList ++ rest)

def projectHashed (logicalId : String) (messages : List Value) (note : String) :
    Except ArchiveError ArchiveProjection := do
  if maxMessages < messages.length ∨ maxNoteBytes < note.utf8ByteSize then
    .error (invalid "archive message/note budget exceeded")
  else
    let _ ← messages.foldlM (InputBudget.message redactor.isSome) ⟨0,0⟩
    let eligible ← projectMessages D redactor 0 messages
    let digest ← projectionDigest D logicalId messages.length eligible
    let note ← screen redactor note .modelVisible
    if maxNoteBytes < note.utf8ByteSize then
      .error (invalid "redacted note exceeds archive budget")
    else .ok ⟨logicalId,messages.length,eligible,note,digest⟩

def validateKey (key : String) : Except ArchiveError Unit :=
  if key = "" ∨ 4096 < key.utf8ByteSize then
    .error (invalid "archive scope/logical id must be 1..4096 bytes")
  else .ok ()

def projectArchive (logicalId : String) (messages : List Value) (note : String) :
    Except ArchiveError ArchiveProjection := do
  let _ ← validateKey logicalId
  projectHashed D redactor (digestParts D [bytesOf logicalId]) messages note

end

end Synaps.Archive
