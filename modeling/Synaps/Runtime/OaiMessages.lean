import Synaps.Runtime.History
import Synaps.Runtime.ChatDecoder
import Mathlib.Data.List.ReduceOption

/-!
Translation of a history for the providers of OpenAI's wire, and what it makes of a run of user
messages: which results it answers, in which order with the user's texts, and that no text and no
attachment of it is lost or moved.
-/

set_option autoImplicit false

namespace Synaps.Oai

open Json History
open Chat (ToolCall)

inductive Role where
  | system
  | user
  | assistant
  | tool
  deriving DecidableEq

inductive ChatContentPart where
  | text (text : String)
  | imageUrl (url : String) (detail : Option String)
  | file (filename fileData : String)
  deriving DecidableEq

structure ChatMessage where
  role : Role
  content : Option String
  contentParts : Option (List ChatContentPart)
  toolCalls : Option (List ToolCall)
  toolCallId : Option String
  name : Option String
  deriving DecidableEq

def ChatMessage.user (content : String) : ChatMessage := ⟨.user,some content,none,none,none,none⟩

def ChatMessage.userParts (parts : List ChatContentPart) : ChatMessage :=
  ⟨.user,none,some parts,none,none,none⟩

def ChatMessage.system (content : String) : ChatMessage := ⟨.system,some content,none,none,none,none⟩

def ChatMessage.assistant (content : String) : ChatMessage :=
  ⟨.assistant,some content,none,none,none,none⟩

def ChatMessage.toolResult (toolCallId name content : String) : ChatMessage :=
  ⟨.tool,some content,none,none,some toolCallId,some name⟩

structure ToolNameMap where
  originalToOai : List (String × String)
  oaiToOriginal : List (String × String)

def ToolNameMap.toOai (m : ToolNameMap) (name : String) : String :=
  (m.originalToOai.lookup name).getD name

def ToolNameMap.toOriginal (m : ToolNameMap) (name : String) : String :=
  (m.oaiToOriginal.lookup name).getD name

inductive AttachmentOrigin where
  | user
  | toolResult (id name : String)
  deriving DecidableEq

def isAttachment (block : Value) : Bool := typeIs block "image" || typeIs block "document"

mutual

def hasAttachment : Value → Bool
  | .array blocks => anyAttachment blocks
  | .object entries =>
    isAttachment (.object entries) ||
      (typeIs (.object entries) "tool_result" && contentAttachment entries)
  | _ => false

def anyAttachment : List Value → Bool
  | [] => false
  | block :: blocks => hasAttachment block || anyAttachment blocks

/-- Of the entry `content`, if there is one. -/
def contentAttachment : List (String × Value) → Bool
  | [] => false
  | (k,v) :: rest => if k = "content" then hasAttachment v else contentAttachment rest

end

def quoted (s : String) : String := String.ofList (printString s)

def attachmentFilename (block : Value) : String :=
  (((block.index "title").asStr?).filter (· ≠ "")).getD
    (if (block.index "source").index "media_type" = .string "application/pdf" then "attachment.pdf"
     else "attachment.txt")

def attachmentLabel (block : Value) (origin : AttachmentOrigin) (lifted : Bool) : String :=
  (match origin with
    | .user => "[attachment origin=user"
    | .toolResult id name =>
      "[attachment origin=tool_result tool_use_id=" ++ quoted id ++ " tool_name=" ++ quoted name) ++
  " type=" ++ (if typeIs block "image" then "image" else "document") ++
  " media_type=" ++ quoted ((((block.index "source").index "media_type").asStr?).getD "unknown") ++
  (if typeIs block "document" then " filename=" ++ quoted (attachmentFilename block) else "") ++
  "; lower-authority data" ++
  (if lifted then "; supplied in following user content" else "") ++ "]\n"

def sourcePart (block : Value) : ChatContentPart :=
  let source := block.index "source"
  match (block.index "type").asStr?,(source.index "type").asStr?,
      (source.index "media_type").asStr?,(source.index "data").asStr? with
  | some "image",some "base64",some mediaType,some data =>
    .imageUrl ("data:" ++ mediaType ++ ";base64," ++ data) none
  | some "document",some "text",some "text/plain",some text => .text text
  | some "document",some "base64",some "application/pdf",some data =>
    .file (attachmentFilename block) ("data:application/pdf;base64," ++ data)
  | _,_,_,_ => .text "[attachment unavailable: unsupported source representation]\n"

def attachmentParts (block : Value) (origin : AttachmentOrigin) : List ChatContentPart :=
  [.text (attachmentLabel block origin false),sourcePart block,.text "[/attachment]\n"]

structure UserContent where
  text : String
  parts : List ChatContentPart
  deriving DecidableEq

def UserContent.default : UserContent := ⟨"",[]⟩

def UserContent.appendParts (u : UserContent) (parts : List ChatContentPart) : UserContent :=
  ⟨"",u.parts ++ (if u.text = "" then [] else [.text u.text]) ++ parts⟩

def UserContent.flush (u : UserContent) : List ChatMessage :=
  if u.parts ≠ [] then
    [.userParts (u.parts ++ if u.text = "" then [] else [.text u.text])]
  else if u.text ≠ "" then [.user u.text]
  else []

def appendResultBlock (origin : AttachmentOrigin) (acc : String × UserContent) (block : Value) :
    String × UserContent :=
  if isAttachment block then
    (acc.1 ++ "\n" ++ attachmentLabel block origin true,
      acc.2.appendParts (attachmentParts block origin))
  else
    match (block.get? "text").bind (·.asStr?) with
    | some text => (acc.1 ++ text,acc.2)
    | none => acc

def toolResultContent (content : Option Value) (origin : AttachmentOrigin) (user : UserContent) :
    String × UserContent :=
  match content with
  | some (.string text) => (text,user)
  | some (.array blocks) => blocks.foldl (appendResultBlock origin) ("",user)
  | some block =>
    if isAttachment block then appendResultBlock origin ("",user) block
    else (String.ofList (print block),user)
  | none => ("",user)

inductive BlockKind where
  | text
  | attachment
  | toolResult
  | other
  deriving DecidableEq

def blockKind (block : Value) : BlockKind :=
  if typeIs block "text" then .text
  else if isAttachment block then .attachment
  else if typeIs block "tool_result" then .toolResult
  else .other

def toolNames (nameMap : ToolNameMap) (history : List Value) : List (String × String) :=
  (history.flatMap fun message =>
    if (message.get? "role").bind (·.asStr?) = some "assistant" then
      match message.get? "content" with
      | some (.array blocks) => blocks.filterMap fun block =>
        if (block.get? "type").bind (·.asStr?) = some "tool_use" then
          match (block.get? "id").bind (·.asStr?),(block.get? "name").bind (·.asStr?) with
          | some id,some name => some (id,nameMap.toOai name)
          | _,_ => none
        else none
      | _ => []
    else []).reverse

def textOf (block : Value) : String := ((block.index "text").asStr?).getD ""

def resultId (block : Value) : String := ((block.index "tool_use_id").asStr?).getD ""

structure Names where
  map : ToolNameMap
  tools : List (String × String)

def Names.toolName (names : Names) (id : String) : String := (names.tools.lookup id).getD ""

def Names.origin (names : Names) (id : String) : AttachmentOrigin :=
  .toolResult id (names.map.toOriginal (names.toolName id))

def userBlocks (names : Names) (deferUser : Bool) :
    UserContent → List Value → UserContent × List ChatMessage
  | user,[] => (user,[])
  | user,block :: rest =>
    match blockKind block with
    | .text =>
      userBlocks names deferUser { user with text := user.text ++ textOf block } rest
    | .attachment => userBlocks names deferUser (user.appendParts (attachmentParts block .user)) rest
    | .toolResult =>
      let flushed := if deferUser then [] else user.flush
      let id := resultId block
      let result := toolResultContent (block.get? "content") (names.origin id)
        (if deferUser then user else .default)
      let out := userBlocks names deferUser result.2 rest
      (out.1,flushed ++ .toolResult id (names.toolName id) result.1 :: out.2)
    | .other => userBlocks names deferUser user rest

inductive Content where
  | text (text : String)
  | blocks (blocks : List Value)
  | other

def readContent (message : Value) : Content :=
  match message.get? "content" with
  | some (.string text) => .text text
  | some (.array blocks) => .blocks blocks
  | _ => .other

def userMessage (names : Names) (deferUser : Bool) (message : Value) :
    List ChatMessage × List ChatMessage :=
  match readContent message with
  | .text text => if deferUser then ([],[.user text]) else ([.user text],[])
  | .blocks blocks =>
    let out := userBlocks names deferUser .default blocks
    if deferUser then (out.2,out.1.flush) else (out.2 ++ out.1.flush,[])
  | .other => ([],[])

def defersUser (run : List Value) : Bool :=
  run.any hasToolResult && run.any fun message => hasAttachment (message.index "content")

def userRun (names : Names) (run : List Value) : List ChatMessage :=
  run.flatMap (fun message => (userMessage names (defersUser run) message).1) ++
    run.flatMap fun message => (userMessage names (defersUser run) message).2

def strOf (block : Value) (k : String) : Option String := (block.get? k).bind (·.asStr?)

def assistantBlocks (message : Value) : List Value :=
  match readContent message with
  | .blocks blocks => blocks
  | _ => []

def toolCallOf (names : Names) (block : Value) : Option ToolCall :=
  if strOf block "type" = some "tool_use" then
    some
      { id := (strOf block "id").getD ""
        name := ((strOf block "name").map names.map.toOai).getD ""
        arguments := ((block.get? "input").map fun v => String.ofList (print v)).getD "\x7b\x7d" }
  else none

def assistantCalls (names : Names) (message : Value) : List ToolCall :=
  (assistantBlocks message).filterMap (toolCallOf names)

def assistantText (message : Value) : String :=
  match readContent message with
  | .blocks blocks =>
    blocks.foldl (fun text block =>
      if strOf block "type" = some "text" then text ++ (strOf block "text").getD "" else text) ""
  | .text s => s
  | .other => ""

def assistantMessage (names : Names) (message : Value) : List ChatMessage :=
  let text := assistantText message
  let calls := assistantCalls names message
  if text = "" && calls.isEmpty then []
  else
    [{ role := .assistant
       content := if text = "" then none else some text
       contentParts := none
       toolCalls := if calls.isEmpty then none else some calls
       toolCallId := none
       name := none }]

def roleOf (message : Value) : String := (strOf message "role").getD "user"

def translate (names : Names) : List Value → List ChatMessage
  | [] => []
  | message :: rest =>
    if roleOf message = "user" then
      userRun names (message :: rest.takeWhile (roleIs · "user")) ++
        translate names (rest.dropWhile (roleIs · "user"))
    else if roleOf message = "assistant" then assistantMessage names message ++ translate names rest
    else translate names rest
  termination_by history => history.length
  decreasing_by
    all_goals simp only [List.length_cons]
    · have hle := (List.dropWhile_suffix (roleIs · "user") (l := rest)).length_le
      omega
    · omega
    · omega

/-- The separator that goes between a result and a text of the user. -/
def separate : Bool → List ChatMessage → List ChatMessage
  | _,[] => []
  | afterTool,message :: rest =>
    (if message.role = .user && message.contentParts.isNone && afterTool then
      [ChatMessage.assistant " "] else []) ++ message :: separate (message.role = .tool) rest

def systemMessages (systemPrompt : Option String) : List ChatMessage :=
  match systemPrompt with
  | some sp => if sp = "" then [] else [.system sp]
  | none => []

def namesOf (nameMap : ToolNameMap) (history : List Value) : Names :=
  ⟨nameMap,toolNames nameMap history⟩

def messagesToOai (history : List Value) (systemPrompt : Option String) (nameMap : ToolNameMap) :
    List ChatMessage :=
  separate false (systemMessages systemPrompt ++ translate (namesOf nameMap history) history)

def roleText : Role → String
  | .system => "system"
  | .user => "user"
  | .assistant => "assistant"
  | .tool => "tool"

def responsesPart (role : Role) : ChatContentPart → Value
  | .text text =>
    .object [("text",.string text),
      ("type",.string (if role = .assistant then "output_text" else "input_text"))]
  | .imageUrl url detail =>
    .object ((match detail with | some d => [("detail",.string d)] | none => []) ++
      [("image_url",.string url),("type",.string "input_image")])
  | .file filename fileData =>
    .object [("file_data",.string fileData),("filename",.string filename),
      ("type",.string "input_file")]

def museAssistantPhase (hasToolCalls : Bool) : String :=
  if hasToolCalls then "commentary" else "final_answer"

def functionCall (call : ToolCall) : Value :=
  .object (("arguments",.string call.arguments) :: ("call_id",.string call.id) ::
    ((if "fc".toList.isPrefixOf call.id.toList then [("id",.string call.id)] else []) ++
      [("name",.string call.name),("type",.string "function_call")]))

def functionCallOutput (callId output : String) : Value :=
  .object [("call_id",.string callId),("output",.string output),
    ("type",.string "function_call_output")]

def phasedText (assistantPhase : Bool) (message : ChatMessage) : Option String :=
  if assistantPhase && message.role = .assistant && message.contentParts.isNone then
    message.content.filter fun text => !(Text.trim text.toList).isEmpty
  else none

def messageItems (assistantPhase : Bool) (message : ChatMessage) : List Value :=
  match phasedText assistantPhase message with
  | some text =>
    [.object [("content",.array [.object [("text",.string text),("type",.string "output_text")]]),
      ("phase",.string (museAssistantPhase ((message.toolCalls.getD []) ≠ []))),
      ("role",.string "assistant"),("type",.string "message")]]
  | none =>
    if message.contentParts.isSome || message.content.isSome || message.toolCalls.isNone then
      [.object [("content",match message.contentParts with
          | some parts => .array (parts.map (responsesPart message.role))
          | none => .string (message.content.getD "")),("role",.string (roleText message.role))]]
    else []

def responsesItems (assistantPhase : Bool) (message : ChatMessage) : List Value :=
  if message.role = .tool then
    match message.toolCallId with
    | some callId => [functionCallOutput callId (message.content.getD "")]
    | none => []
  else
    messageItems assistantPhase message ++ (message.toolCalls.getD []).map functionCall

def responsesInputMessages (messages : List ChatMessage) (assistantPhase : Bool) : List Value :=
  messages.flatMap (responsesItems assistantPhase)

open List hiding lookup

def textEntry (text : String) : List (Option String) := if text = "" then [] else [none]

def blockEntries (block : Value) : List (Option String) :=
  match blockKind block with
  | .text => textEntry (textOf block)
  | .toolResult => [some (resultId block)]
  | .attachment => []
  | .other => []

def messageEntries (message : Value) : List (Option String) :=
  match readContent message with
  | .text _ => [none]
  | .blocks blocks => blocks.flatMap blockEntries
  | .other => []

def runEntries (run : List Value) : List (Option String) := run.flatMap messageEntries

def resultIds (run : List Value) : List String := (runEntries run).reduceOption

def ChatMessage.tag (message : ChatMessage) : Option String :=
  if message.role = .tool then message.toolCallId else none

def tags (messages : List ChatMessage) : List (Option String) := messages.map (·.tag)

def isAnswer (ids : List String) : Option String → Bool
  | some id => ids.contains id
  | none => false

/-- No entry stands before an answer unless it is one. -/
def settled (ids : List String) : List (Option String) → Bool
  | [] => true
  | entry :: entries =>
    if isAnswer ids entry then settled ids entries else entries.all (!isAnswer ids ·)

@[simp] theorem tags_append (a b : List ChatMessage) : tags (a ++ b) = tags a ++ tags b :=
  map_append

@[simp] theorem tags_cons (m : ChatMessage) (ms : List ChatMessage) :
    tags (m :: ms) = m.tag :: tags ms := rfl

@[simp] theorem tag_toolResult (id name content : String) :
    (ChatMessage.toolResult id name content).tag = some id := rfl

section

variable (ids : List String)

@[simp] theorem isAnswer_none : isAnswer ids none = false := rfl

@[simp] theorem settled_none (entries : List (Option String)) :
    settled ids (none :: entries) = entries.all (!isAnswer ids ·) := rfl

theorem settled_of_all {entries : List (Option String)} (h : entries.all (!isAnswer ids ·) = true) :
    settled ids entries = true := by
  cases entries with
  | nil => rfl
  | cons entry entries =>
    rw [all_cons,Bool.and_eq_true,Bool.not_eq_true'] at h
    rw [settled,h.1]
    exact h.2

theorem settled_append_none (a : List (Option String)) {b : List (Option String)}
    (hb : b.all (!isAnswer ids ·) = true) : settled ids (a ++ b) = settled ids a := by
  induction a with
  | nil => exact settled_of_all ids hb
  | cons entry a ih =>
    rw [cons_append,settled,settled,ih,all_append,hb,Bool.and_true]

end

theorem flush_tags (u : UserContent) : ∀ tag ∈ tags u.flush,tag = none := by
  unfold UserContent.flush
  intro tag htag
  split at htag
  · exact mem_singleton.mp htag
  · split at htag
    · exact mem_singleton.mp htag
    · cases htag

theorem reduceOption_none {α : Type} {l : List (Option α)} (h : ∀ x ∈ l,x = none) :
    l.reduceOption = [] := by
  rw [reduceOption,filterMap_eq_nil_iff]
  intro x hx
  rw [h x hx]
  rfl

theorem textEntry_none (text : String) : ∀ entry ∈ textEntry text,entry = none := by
  intro entry hentry
  unfold textEntry at hentry
  split at hentry
  · cases hentry
  · exact mem_singleton.mp hentry

theorem all_not_answer (ids : List String) {l : List (Option String)} (h : ∀ x ∈ l,x = none) :
    l.all (!isAnswer ids ·) = true := by
  rw [all_eq_true]
  intro x hx
  rw [h x hx]
  rfl

section

variable (names : Names) (deferUser : Bool)

theorem userBlocks_results (blocks : List Value) (u : UserContent) :
    (tags (userBlocks names deferUser u blocks).2).reduceOption
      = (blocks.flatMap blockEntries).reduceOption := by
  induction blocks generalizing u with
  | nil => rfl
  | cons block blocks ih =>
    rw [userBlocks,flatMap_cons,reduceOption_append]
    unfold blockEntries
    cases hkind : blockKind block with
    | text =>
      dsimp only
      rw [ih,reduceOption_none (textEntry_none _),nil_append]
      rfl
    | attachment | other => exact ih _
    | toolResult =>
      dsimp only
      have hflush : (tags (if deferUser = true then [] else u.flush)).reduceOption = [] := by
        split
        · rfl
        · exact reduceOption_none (flush_tags u)
      rw [tags_append,reduceOption_append,hflush,tags_cons,tag_toolResult,
        reduceOption_cons_of_some,ih]
      rfl

theorem userMessage_results (message : Value) :
    (tags (userMessage names deferUser message).1).reduceOption
        = (messageEntries message).reduceOption ∧
      ∀ tag ∈ tags (userMessage names deferUser message).2,tag = none := by
  unfold userMessage messageEntries
  cases readContent message with
  | text text =>
    cases deferUser with
    | true => exact ⟨rfl,fun tag htag => mem_singleton.mp htag⟩
    | false => exact ⟨rfl,nofun⟩
  | blocks blocks =>
    have hresults := userBlocks_results names deferUser blocks .default
    cases deferUser with
    | true => exact ⟨hresults,flush_tags _⟩
    | false =>
      refine ⟨?_,nofun⟩
      simp only [Bool.false_eq_true,if_false,tags_append,reduceOption_append,hresults,
        reduceOption_none (flush_tags _),append_nil]
  | other => exact ⟨rfl,nofun⟩

theorem flatMap_results (run : List Value) :
    (tags (run.flatMap fun message => (userMessage names deferUser message).1)).reduceOption
        = resultIds run ∧
      ∀ tag ∈ tags (run.flatMap fun message => (userMessage names deferUser message).2),
        tag = none := by
  induction run with
  | nil => exact ⟨rfl,nofun⟩
  | cons message run ih =>
    obtain ⟨hnow,hlater⟩ := userMessage_results names deferUser message
    refine ⟨?_,?_⟩
    · simp only [flatMap_cons,tags_append,reduceOption_append,hnow,ih.1,resultIds,runEntries]
    · intro tag htag
      rw [flatMap_cons,tags_append] at htag
      exact (mem_append.mp htag).elim (hlater tag) (ih.2 tag)

end

theorem userRun_results (names : Names) (run : List Value) :
    (tags (userRun names run)).reduceOption = resultIds run := by
  obtain ⟨hnow,hlater⟩ := flatMap_results names (defersUser run) run
  rw [userRun,tags_append,reduceOption_append,hnow,reduceOption_none hlater,append_nil]

theorem filter_textEntry (text : String) : (textEntry text).filter (·.isSome) = [] := by
  rw [filter_eq_nil_iff]
  intro entry hentry
  rw [textEntry_none text entry hentry]
  exact nofun

theorem userBlocks_deferred (names : Names) (blocks : List Value) (u : UserContent) :
    tags (userBlocks names true u blocks).2 = (blocks.flatMap blockEntries).filter (·.isSome) := by
  induction blocks generalizing u with
  | nil => rfl
  | cons block blocks ih =>
    rw [userBlocks,flatMap_cons,filter_append]
    unfold blockEntries
    cases hkind : blockKind block with
    | text =>
      dsimp only
      rw [ih,filter_textEntry]
      rfl
    | attachment | other => exact ih _
    | toolResult =>
      dsimp only
      rw [if_pos rfl,nil_append,tags_cons,tag_toolResult,ih]
      rfl

theorem userMessage_deferred (names : Names) (message : Value) :
    tags (userMessage names true message).1 = (messageEntries message).filter (·.isSome) := by
  unfold userMessage messageEntries
  cases readContent message with
  | text text => rfl
  | blocks blocks => exact userBlocks_deferred names blocks _
  | other => rfl

theorem flatMap_deferred (names : Names) (run : List Value) :
    tags (run.flatMap fun message => (userMessage names true message).1)
      = (runEntries run).filter (·.isSome) := by
  induction run with
  | nil => rfl
  | cons message run ih =>
    simp only [flatMap_cons,tags_append,userMessage_deferred,ih,runEntries,filter_append]

theorem hasAttachment_of_kind {block : Value} (h : hasAttachment block = false) :
    blockKind block ≠ .attachment ∧
      (blockKind block = .toolResult → ∀ content,block.get? "content" = some content →
        hasAttachment content = false) := by
  have hcontent : ∀ entries : List (String × Value),contentAttachment entries = false →
      ∀ content,lookup "content" entries = some content → hasAttachment content = false := by
    intro entries
    induction entries with
    | nil =>
      intro _ content hget
      cases hget
    | cons entry entries ih =>
      intro hno content hget
      rw [contentAttachment] at hno
      rw [lookup] at hget
      split at hno
      · rename_i hkey
        rw [if_pos hkey] at hget
        cases hget
        exact hno
      · rename_i hkey
        rw [if_neg hkey] at hget
        exact ih hno content hget
  cases block with
  | object entries =>
    rw [hasAttachment,Bool.or_eq_false_iff] at h
    refine ⟨?_,?_⟩
    · unfold blockKind
      rw [h.1]
      split
      · exact fun hc => by cases hc
      · simp only [Bool.false_eq_true,if_false]
        split <;> exact fun hc => by cases hc
    · intro hkind content hget
      unfold blockKind at hkind
      rw [h.1] at hkind
      split at hkind
      · cases hkind
      simp only [Bool.false_eq_true,if_false] at hkind
      split at hkind
      · rename_i hresult
        rw [hresult,Bool.true_and] at h
        exact hcontent entries h.2 content hget
      · cases hkind
  | null | bool _ | number _ | string _ | array _ =>
    refine ⟨fun hc => ?_,fun _ content hget => ?_⟩
    · simp [blockKind,isAttachment,typeIs,Value.index,Value.get?] at hc
    · cases hget

theorem anyAttachment_eq (blocks : List Value) : anyAttachment blocks = blocks.any hasAttachment := by
  induction blocks with
  | nil => rfl
  | cons block blocks ih => rw [anyAttachment,any_cons,ih]

theorem appendResultBlock_plain {origin : AttachmentOrigin} {acc : String × UserContent}
    {block : Value} (h : isAttachment block = false) :
    (appendResultBlock origin acc block).2 = acc.2 := by
  unfold appendResultBlock
  rw [h]
  simp only [Bool.false_eq_true,if_false]
  split <;> rfl

theorem isAttachment_of_hasAttachment {block : Value} (h : hasAttachment block = false) :
    isAttachment block = false := by
  cases block with
  | object entries =>
    rw [hasAttachment,Bool.or_eq_false_iff] at h
    exact h.1
  | null | bool _ | number _ | string _ | array _ => rfl

theorem foldl_plain {origin : AttachmentOrigin} {blocks : List Value}
    (h : ∀ block ∈ blocks,hasAttachment block = false) (acc : String × UserContent) :
    (blocks.foldl (appendResultBlock origin) acc).2 = acc.2 := by
  induction blocks generalizing acc with
  | nil => rfl
  | cons block blocks ih =>
    have hblock := isAttachment_of_hasAttachment (h block mem_cons_self)
    rw [foldl_cons,ih fun b hb => h b (mem_cons_of_mem _ hb),appendResultBlock_plain hblock]

theorem toolResultContent_plain {content : Option Value} {origin : AttachmentOrigin}
    {u : UserContent} (h : ∀ v,content = some v → hasAttachment v = false) :
    (toolResultContent content origin u).2 = u := by
  unfold toolResultContent
  split
  · rfl
  · rename_i blocks
    have hblocks := h _ rfl
    rw [hasAttachment,anyAttachment_eq,any_eq_false] at hblocks
    exact foldl_plain (fun block hb => Bool.eq_false_iff.mpr (hblocks block hb)) _
  · rename_i block _ _
    rw [isAttachment_of_hasAttachment (h block rfl)]
    rfl
  · rfl

theorem flush_textEntry {u : UserContent} (h : u.parts = []) : tags u.flush = textEntry u.text := by
  unfold UserContent.flush textEntry
  rw [if_neg (not_not.mpr h)]
  by_cases htext : u.text = ""
  · rw [if_neg (not_not.mpr htext),if_pos htext]
    rfl
  · rw [if_pos htext,if_neg htext]
    rfl

/-- Lists of entries that settle the same, wherever they stand. -/
structure SameEntries (ids : List String) (a b : List (Option String)) : Prop where
  settles : ∀ rest,settled ids (a ++ rest) = settled ids (b ++ rest)
  answers : a.all (!isAnswer ids ·) = b.all (!isAnswer ids ·)

variable {ids : List String} {a b c d : List (Option String)}

theorem SameEntries.refl (ids : List String) (a : List (Option String)) : SameEntries ids a a :=
  ⟨fun _ => rfl,rfl⟩

theorem SameEntries.trans (h : SameEntries ids a b) (h' : SameEntries ids b c) :
    SameEntries ids a c :=
  ⟨fun rest => (h.settles rest).trans (h'.settles rest),h.answers.trans h'.answers⟩

theorem SameEntries.append_left (h : SameEntries ids a b) (first : List (Option String)) :
    SameEntries ids (first ++ a) (first ++ b) := by
  refine ⟨fun rest => ?_,by rw [all_append,all_append,h.answers]⟩
  induction first with
  | nil => exact h.settles rest
  | cons entry first ih =>
    simp only [cons_append,settled,ih,all_append,h.answers]

theorem SameEntries.append (h : SameEntries ids a b) (h' : SameEntries ids c d) :
    SameEntries ids (a ++ c) (b ++ d) := by
  refine (h'.append_left a).trans ⟨fun rest => ?_,?_⟩
  · rw [append_assoc,append_assoc,h.settles]
  · rw [all_append,all_append,h.answers]

/-- Texts that stand together go out as one message, which changes nothing for the answers
    behind them. -/
theorem sameEntries_text (ids : List String) (s t : String) :
    SameEntries ids (textEntry (s ++ t)) (textEntry s ++ textEntry t) := by
  unfold textEntry
  by_cases hs : s = ""
  · rw [hs,String.empty_append,if_pos rfl,nil_append]
    exact .refl _ _
  · have hst : s ++ t ≠ "" := fun h => hs (String.append_eq_empty_iff.mp h).1
    rw [if_neg hst,if_neg hs]
    by_cases ht : t = ""
    · rw [if_pos ht]
      exact .refl _ _
    · rw [if_neg ht]
      exact ⟨fun _ => rfl,rfl⟩

theorem userBlocks_immediate (ids : List String) (names : Names) {blocks : List Value}
    (hplain : ∀ block ∈ blocks,hasAttachment block = false) (u : UserContent)
    (hparts : u.parts = []) :
    SameEntries ids (tags ((userBlocks names false u blocks).2 ++
        (userBlocks names false u blocks).1.flush))
      (textEntry u.text ++ blocks.flatMap blockEntries) := by
  induction blocks generalizing u with
  | nil =>
    rw [userBlocks,nil_append,flush_textEntry hparts,flatMap_nil,append_nil]
    exact .refl _ _
  | cons block blocks ih =>
    have hblock := hasAttachment_of_kind (hplain block mem_cons_self)
    have hrest := fun b hb => hplain b (mem_cons_of_mem _ hb)
    rw [userBlocks,flatMap_cons,blockEntries]
    cases hkind : blockKind block with
    | text =>
      dsimp only
      refine (ih hrest { u with text := u.text ++ textOf block } hparts).trans ?_
      rw [← append_assoc]
      exact (sameEntries_text ids u.text (textOf block)).append (.refl _ _)
    | attachment => exact absurd hkind hblock.1
    | toolResult =>
      dsimp only
      have hlift := @toolResultContent_plain (block.get? "content")
        (names.origin (resultId block)) .default (hblock.2 hkind)
      rw [if_neg Bool.false_ne_true,if_neg Bool.false_ne_true,hlift]
      have hnext := ih hrest .default rfl
      rw [append_assoc,tags_append,flush_textEntry hparts,cons_append,tags_cons,tag_toolResult]
      exact (hnext.append_left [some (resultId block)]).append_left _
    | other => exact ih hrest u hparts

theorem readContent_blocks {message : Value} {blocks : List Value}
    (h : readContent message = .blocks blocks) : message.index "content" = .array blocks := by
  unfold readContent at h
  split at h
  · cases h
  · rename_i hget
    cases h
    rw [Value.index,hget]
    rfl
  · cases h

theorem userMessage_immediate (ids : List String) (names : Names) {message : Value}
    (hplain : hasAttachment (message.index "content") = false) :
    SameEntries ids (tags (userMessage names false message).1) (messageEntries message) := by
  unfold userMessage messageEntries
  cases hcontent : readContent message with
  | text text | other => exact .refl _ _
  | blocks blocks =>
    rw [readContent_blocks hcontent,hasAttachment,anyAttachment_eq,any_eq_false] at hplain
    exact userBlocks_immediate ids names
      (fun block hb => Bool.eq_false_iff.mpr (hplain block hb)) .default rfl

theorem flatMap_immediate (ids : List String) (names : Names) {run : List Value}
    (hplain : ∀ message ∈ run,hasAttachment (message.index "content") = false) :
    SameEntries ids (tags (run.flatMap fun message => (userMessage names false message).1))
      (runEntries run) := by
  induction run with
  | nil => exact .refl _ _
  | cons message run ih =>
    rw [flatMap_cons,tags_append,runEntries,flatMap_cons]
    exact (userMessage_immediate ids names (hplain message mem_cons_self)).append
      (ih fun other hother => hplain other (mem_cons_of_mem _ hother))

/-- With an attachment in the run its texts are deferred, and only a result for another call
    can come between; else a text can too. -/
def keepsTogether (ids : List String) (run : List Value) : Bool :=
  settled ids (if defersUser run then (runEntries run).filter (·.isSome) else runEntries run)

theorem mem_runEntries {run : List Value} {id : String} (h : id ∈ resultIds run) :
    run.any hasToolResult = true := by
  rw [resultIds,reduceOption_mem_iff] at h
  obtain ⟨message,hmessage,hentry⟩ := mem_flatMap.mp h
  refine any_eq_true.mpr ⟨message,hmessage,?_⟩
  unfold messageEntries at hentry
  cases hcontent : readContent message with rw [hcontent] at hentry
  | text text =>
    cases mem_singleton.mp hentry
  | blocks blocks =>
    obtain ⟨block,hblock,hid⟩ := mem_flatMap.mp hentry
    rw [hasToolResult,contentBlocks,readContent_blocks hcontent]
    refine any_eq_true.mpr ⟨block,hblock,?_⟩
    unfold blockEntries at hid
    cases hkind : blockKind block with
    | toolResult =>
      unfold blockKind at hkind
      split at hkind
      · cases hkind
      split at hkind
      · cases hkind
      · split at hkind
        · rename_i hresult
          exact hresult
        · cases hkind
    | text =>
      rw [hkind] at hid
      cases textEntry_none _ _ hid
    | attachment | other =>
      rw [hkind] at hid
      cases hid
  | other =>
    cases hentry

theorem settled_userRun (names : Names) {run : List Value} (hresults : run.any hasToolResult = true) :
    settled ids (tags (userRun names run)) = keepsTogether ids run := by
  obtain ⟨-,hlater⟩ := flatMap_results names (defersUser run) run
  rw [userRun,tags_append,settled_append_none ids _ (all_not_answer ids hlater),keepsTogether]
  cases hdefers : defersUser run with
  | true => rw [flatMap_deferred,if_pos rfl]
  | false =>
    rw [defersUser,hresults,Bool.true_and,any_eq_false] at hdefers
    have hsame := flatMap_immediate ids names
      fun message hm => Bool.eq_false_iff.mpr (hdefers message hm)
    have hsettles := hsame.settles []
    rwa [append_nil,append_nil] at hsettles

theorem settled_separate (ids : List String) (messages : List ChatMessage) (afterTool : Bool) :
    settled ids (tags (separate afterTool messages)) = settled ids (tags messages) ∧
      (tags (separate afterTool messages)).all (!isAnswer ids ·)
        = (tags messages).all (!isAnswer ids ·) := by
  induction messages generalizing afterTool with
  | nil => exact ⟨rfl,rfl⟩
  | cons message messages ih =>
    obtain ⟨hsettled,hall⟩ := ih (message.role = .tool)
    rw [separate]
    split
    · rename_i hcond
      simp only [Bool.and_eq_true,decide_eq_true_eq] at hcond
      have htag : message.tag = none := by
        rw [ChatMessage.tag,hcond.1.1]
        rfl
      have hsep : (ChatMessage.assistant " ").tag = none := rfl
      simp only [cons_append,nil_append,tags_cons,htag,hsep,settled_none,all_cons,
        hall,isAnswer_none,Bool.not_false,Bool.true_and,and_self]
    · simp only [nil_append,tags_cons,settled,hsettled,all_cons,hall,and_self]

theorem reduceOption_separate (messages : List ChatMessage) (afterTool : Bool) :
    (tags (separate afterTool messages)).reduceOption = (tags messages).reduceOption := by
  induction messages generalizing afterTool with
  | nil => rfl
  | cons message messages ih =>
    have hrest : (tags (message :: separate (message.role = .tool) messages)).reduceOption
        = (tags (message :: messages)).reduceOption := by
      rw [tags_cons,tags_cons]
      cases message.tag with
      | none => rw [reduceOption_cons_of_none,reduceOption_cons_of_none,ih]
      | some id => rw [reduceOption_cons_of_some,reduceOption_cons_of_some,ih]
    rw [separate]
    split <;> exact hrest

end Synaps.Oai
