import Synaps.Runtime.OaiMessages

/-!
Turns of a translated history: an assistant message with tool calls, the run of user messages
that answers it, and where the answers and the user's content stand in what is sent.
-/

set_option autoImplicit false

namespace Synaps.Oai

open Json History List
open Chat (ToolCall)

inductive Atom where
  | char (c : Char)
  | image (url : String) (detail : Option String)
  | file (filename fileData : String)
  deriving DecidableEq

def textAtoms (text : String) : List Atom := text.toList.map .char

def ChatContentPart.atoms : ChatContentPart → List Atom
  | .text t => textAtoms t
  | .imageUrl url detail => [.image url detail]
  | .file filename fileData => [.file filename fileData]

def partsAtoms (parts : List ChatContentPart) : List Atom := parts.flatMap (·.atoms)

def ChatMessage.atoms (message : ChatMessage) : List Atom :=
  if message.role = .user then
    match message.contentParts with
    | some parts => partsAtoms parts
    | none => textAtoms (message.content.getD "")
  else []

def userAtoms (messages : List ChatMessage) : List Atom := messages.flatMap (·.atoms)

def liftedAtoms (origin : AttachmentOrigin) (block : Value) : List Atom :=
  if isAttachment block then partsAtoms (attachmentParts block origin) else []

def resultAtoms (content : Option Value) (origin : AttachmentOrigin) : List Atom :=
  match content with
  | some (.array blocks) => blocks.flatMap (liftedAtoms origin)
  | some block => liftedAtoms origin block
  | none => []

def blockAtoms (names : Names) (block : Value) : List Atom :=
  match blockKind block with
  | .text => textAtoms (textOf block)
  | .attachment => partsAtoms (attachmentParts block .user)
  | .toolResult => resultAtoms (block.get? "content") (names.origin (resultId block))
  | .other => []

def messageAtoms (names : Names) (message : Value) : List Atom :=
  match readContent message with
  | .text text => textAtoms text
  | .blocks blocks => blocks.flatMap (blockAtoms names)
  | .other => []

def runAtoms (names : Names) (run : List Value) : List Atom := run.flatMap (messageAtoms names)

def UserContent.atoms (u : UserContent) : List Atom := partsAtoms u.parts ++ textAtoms u.text

@[simp] theorem textAtoms_empty : textAtoms "" = [] := rfl

@[simp] theorem textAtoms_append (s t : String) :
    textAtoms (s ++ t) = textAtoms s ++ textAtoms t := by
  simp [textAtoms]

@[simp] theorem partsAtoms_append (a b : List ChatContentPart) :
    partsAtoms (a ++ b) = partsAtoms a ++ partsAtoms b := flatMap_append

@[simp] theorem userAtoms_append (a b : List ChatMessage) :
    userAtoms (a ++ b) = userAtoms a ++ userAtoms b := flatMap_append

@[simp] theorem userAtoms_toolResult (id name content : String) (messages : List ChatMessage) :
    userAtoms (.toolResult id name content :: messages) = userAtoms messages := rfl

theorem partsAtoms_text (text : String) :
    partsAtoms (if text = "" then [] else [.text text]) = textAtoms text := by
  by_cases h : text = ""
  · rw [if_pos h,h]
    rfl
  · rw [if_neg h]
    exact append_nil _

theorem appendParts_atoms (u : UserContent) (parts : List ChatContentPart) :
    (u.appendParts parts).atoms = u.atoms ++ partsAtoms parts := by
  simp only [UserContent.appendParts,UserContent.atoms,partsAtoms_append,partsAtoms_text,
    textAtoms_empty,append_nil]

theorem flush_atoms (u : UserContent) : userAtoms u.flush = u.atoms := by
  unfold UserContent.flush UserContent.atoms
  by_cases hparts : u.parts = []
  · rw [if_neg (not_not.mpr hparts),hparts]
    by_cases htext : u.text = ""
    · rw [if_neg (not_not.mpr htext),htext]
      rfl
    · rw [if_pos htext]
      exact append_nil _
  · rw [if_pos hparts,← partsAtoms_text,← partsAtoms_append]
    exact append_nil _

theorem appendResultBlock_atoms (origin : AttachmentOrigin) (acc : String × UserContent)
    (block : Value) :
    (appendResultBlock origin acc block).2.atoms = acc.2.atoms ++ liftedAtoms origin block := by
  unfold appendResultBlock liftedAtoms
  split
  · exact appendParts_atoms acc.2 _
  · split <;> rw [append_nil]

theorem foldl_atoms (origin : AttachmentOrigin) (blocks : List Value) (acc : String × UserContent) :
    (blocks.foldl (appendResultBlock origin) acc).2.atoms
      = acc.2.atoms ++ blocks.flatMap (liftedAtoms origin) := by
  induction blocks generalizing acc with
  | nil => rw [foldl_nil,flatMap_nil,append_nil]
  | cons block blocks ih =>
    rw [foldl_cons,ih,appendResultBlock_atoms,flatMap_cons,append_assoc]

theorem toolResultContent_atoms (content : Option Value) (origin : AttachmentOrigin)
    (u : UserContent) :
    (toolResultContent content origin u).2.atoms = u.atoms ++ resultAtoms content origin := by
  cases content with
  | none => exact (append_nil _).symm
  | some v =>
    cases v with
    | array blocks => exact foldl_atoms origin blocks ("",u)
    | string text | null | bool _ | number _ => exact (append_nil _).symm
    | object entries =>
      unfold toolResultContent resultAtoms
      dsimp only
      by_cases h : isAttachment (.object entries) = true
      · rw [if_pos h]
        exact appendResultBlock_atoms origin ("",u) _
      · rw [if_neg h,liftedAtoms,if_neg h,append_nil]

variable (names : Names)

theorem userBlocks_atoms (deferUser : Bool) (blocks : List Value) (u : UserContent) :
    userAtoms (userBlocks names deferUser u blocks).2 ++
        (userBlocks names deferUser u blocks).1.atoms
      = u.atoms ++ blocks.flatMap (blockAtoms names) := by
  induction blocks generalizing u with
  | nil => exact (append_nil _).symm
  | cons block blocks ih =>
    rw [userBlocks,flatMap_cons,blockAtoms,← append_assoc]
    cases hkind : blockKind block with dsimp only
    | text =>
      rw [ih]
      simp only [UserContent.atoms,textAtoms_append,append_assoc]
    | attachment =>
      rw [ih,appendParts_atoms]
    | toolResult =>
      rw [userAtoms_append,userAtoms_toolResult,append_assoc,ih,toolResultContent_atoms]
      cases deferUser with
      | true => rfl
      | false =>
        rw [if_neg Bool.false_ne_true,if_neg Bool.false_ne_true,flush_atoms]
        simp only [UserContent.atoms,UserContent.default,partsAtoms,flatMap_nil,
          textAtoms_empty,nil_append,append_assoc]
    | other =>
      rw [ih,append_nil]

theorem userBlocks_deferred_atoms (blocks : List Value) (u : UserContent) :
    userAtoms (userBlocks names true u blocks).2 = [] := by
  induction blocks generalizing u with
  | nil => rfl
  | cons block blocks ih =>
    rw [userBlocks]
    cases blockKind block with
    | toolResult | text | attachment | other => exact ih _

theorem userMessage_atoms (deferUser : Bool) (message : Value) :
    userAtoms (userMessage names deferUser message).1 ++
        userAtoms (userMessage names deferUser message).2 = messageAtoms names message ∧
      (deferUser = true → userAtoms (userMessage names deferUser message).1 = []) ∧
      (deferUser = false → (userMessage names deferUser message).2 = []) := by
  unfold userMessage messageAtoms
  cases readContent message with
  | text text =>
    cases deferUser with
    | true => exact ⟨append_nil _,fun _ => rfl,nofun⟩
    | false => exact ⟨by simp [userAtoms,ChatMessage.user,ChatMessage.atoms],nofun,fun _ => rfl⟩
  | blocks blocks =>
    have hatoms := userBlocks_atoms names deferUser blocks .default
    have hdefault : UserContent.default.atoms = [] := rfl
    rw [hdefault,nil_append] at hatoms
    cases deferUser with
    | true =>
      refine ⟨?_,fun _ => userBlocks_deferred_atoms names blocks _,nofun⟩
      dsimp only
      rw [if_pos rfl,flush_atoms,hatoms]
    | false =>
      refine ⟨?_,nofun,fun _ => rfl⟩
      dsimp only
      rw [if_neg Bool.false_ne_true,userAtoms_append,flush_atoms,hatoms]
      exact append_nil _
  | other => exact ⟨rfl,fun _ => rfl,fun _ => rfl⟩

theorem userRun_atoms (run : List Value) : userAtoms (userRun names run) = runAtoms names run := by
  have hboth : ∀ (deferUser : Bool) (messages : List Value),
      userAtoms (messages.flatMap fun m => (userMessage names deferUser m).1) ++
          userAtoms (messages.flatMap fun m => (userMessage names deferUser m).2)
        = runAtoms names messages := by
    intro deferUser messages
    -- one of the two sides carries no content, so that the messages can be taken in turn
    induction messages with
    | nil => rfl
    | cons message messages ih =>
      obtain ⟨hatoms,hdeferred,himmediate⟩ := userMessage_atoms names deferUser message
      rw [flatMap_cons,flatMap_cons,userAtoms_append,userAtoms_append,runAtoms,
        flatMap_cons,← hatoms]
      rw [runAtoms] at ih
      rw [← ih]
      cases deferUser with
      | true =>
        have hnow : ∀ ms : List Value,
            userAtoms (ms.flatMap fun m => (userMessage names true m).1) = [] := by
          intro ms
          induction ms with
          | nil => rfl
          | cons m ms ihms =>
            rw [flatMap_cons,userAtoms_append,(userMessage_atoms names true m).2.1 rfl,ihms]
            rfl
        rw [hnow,hdeferred rfl,append_nil,nil_append,nil_append,nil_append]
      | false =>
        rw [himmediate rfl]
        simp only [userAtoms,flatMap_nil,nil_append,append_nil,append_assoc]
  rw [userRun,userAtoms_append]
  exact hboth _ run

theorem separate_atoms (messages : List ChatMessage) (afterTool : Bool) :
    userAtoms (separate afterTool messages) = userAtoms messages := by
  induction messages generalizing afterTool with
  | nil => rfl
  | cons message messages ih =>
    have hrest : userAtoms (message :: separate (message.role = .tool) messages)
        = userAtoms (message :: messages) := by
      rw [userAtoms,flatMap_cons,← userAtoms,ih]
      rfl
    rw [separate]
    split <;> exact hrest

theorem takeWhile_append_stop {α : Type} (p : α → Bool) (l rest : List α) {x : α}
    (h : p x = false) :
    (l ++ x :: rest).takeWhile p = l.takeWhile p ∧
      (l ++ x :: rest).dropWhile p = l.dropWhile p ++ x :: rest := by
  induction l with
  | nil => simp [h]
  | cons y l ih =>
    cases hy : p y with
    | true => simpa [hy] using ih
    | false => simp [hy]

theorem roleIs_of_assistant {message : Value} (h : roleOf message = "assistant") :
    roleIs message "user" = false := by
  rw [roleIs,decide_eq_false_iff_not]
  intro huser
  unfold roleOf strOf at h
  rw [Value.index] at huser
  cases hget : message.get? "role" with
  | none =>
    rw [hget] at huser
    cases huser
  | some v =>
    rw [hget,Option.getD_some] at huser
    rw [hget,huser] at h
    exact absurd h (by decide)

theorem roleOf_of_roleIs {message : Value} (h : roleIs message "user" = true) :
    roleOf message = "user" := by
  rw [roleIs,decide_eq_true_eq,Value.index] at h
  unfold roleOf strOf
  cases hget : message.get? "role" with
  | none => rfl
  | some v =>
    rw [hget,Option.getD_some] at h
    rw [h]
    rfl

theorem translate_nil : translate names [] = [] := by rw [translate]

theorem translate_assistant (history : List Value) {message : Value}
    (h : roleOf message = "assistant") (rest : List Value) :
    translate names (history ++ message :: rest)
      = translate names history ++ (assistantMessage names message ++ translate names rest) := by
  have hrole : roleOf message ≠ "user" := by
    rw [h]
    decide
  fun_induction translate names history with
  | case1 => rw [nil_append,translate,if_neg hrole,if_pos h,nil_append]
  | case2 first history huser ih =>
    obtain ⟨htake,hdrop⟩ :=
      takeWhile_append_stop (roleIs · "user") history rest (roleIs_of_assistant h)
    rw [cons_append,translate,if_pos huser,htake,hdrop,ih,append_assoc]
  | case3 first history huser hassistant ih =>
    rw [cons_append,translate,if_neg huser,if_pos hassistant,ih,append_assoc]
  | case4 first history huser hassistant ih =>
    rw [cons_append,translate,if_neg huser,if_neg hassistant,ih]

theorem translate_run {run post : List Value} (hrun : ∀ message ∈ run,roleIs message "user" = true)
    (hpost : ∀ message ∈ post.head?,roleIs message "user" = false) :
    translate names (run ++ post) = userRun names run ++ translate names post := by
  cases run with
  | nil => rfl
  | cons message run =>
    have htail : ∀ m ∈ run,roleIs m "user" = true := fun m hm => hrun m (mem_cons_of_mem _ hm)
    have hstop : post.takeWhile (roleIs · "user") = [] ∧ post.dropWhile (roleIs · "user") = post := by
      cases post with
      | nil => exact ⟨rfl,rfl⟩
      | cons next post =>
        have hnext := hpost next rfl
        simp [hnext]
    rw [cons_append,translate,if_pos (roleOf_of_roleIs (hrun message mem_cons_self)),
      takeWhile_append_of_pos htail,dropWhile_append_of_pos htail,hstop.1,hstop.2,
      append_nil]

theorem separate_append (messages rest : List ChatMessage) (afterTool : Bool) :
    ∃ last,separate afterTool (messages ++ rest)
      = separate afterTool messages ++ separate last rest := by
  induction messages generalizing afterTool with
  | nil => exact ⟨afterTool,rfl⟩
  | cons message messages ih =>
    obtain ⟨last,hlast⟩ := ih (message.role = .tool)
    refine ⟨last,?_⟩
    rw [cons_append,separate,separate,hlast,append_assoc,cons_append]

def callIds (message : Value) : List String :=
  (assistantBlocks message).filterMap fun block =>
    if strOf block "type" = some "tool_use" then some ((strOf block "id").getD "") else none

theorem ids_assistantCalls (message : Value) :
    (assistantCalls names message).map (·.id) = callIds message := by
  unfold assistantCalls callIds
  rw [map_filterMap]
  refine filterMap_congr fun block _ => ?_
  unfold toolCallOf
  split <;> rfl

/-- An assistant message with tool calls and the run of user messages that answers each of
    them once. -/
structure Turn (history pre run post : List Value) (message : Value) : Prop where
  split : history = pre ++ message :: (run ++ post)
  assistant : roleOf message = "assistant"
  calls : callIds message ≠ []
  users : ∀ m ∈ run,roleIs m "user" = true
  ends : ∀ m ∈ post.head?,roleIs m "user" = false
  answered : ∀ id ∈ callIds message,(resultIds run).count id = 1

def turnMessages (names : Names) (run : List Value) : List ChatMessage :=
  separate false (userRun names run)

def callingMessage (names : Names) (message : Value) : ChatMessage where
  role := .assistant
  content := if assistantText message = "" then none else some (assistantText message)
  contentParts := none
  toolCalls := some (assistantCalls names message)
  toolCallId := none
  name := none

theorem assistantMessage_calling {message : Value} (h : callIds message ≠ []) :
    assistantMessage names message = [callingMessage names message] := by
  have hcalls : (assistantCalls names message).isEmpty = false := by
    rw [← Bool.not_eq_true,List.isEmpty_iff]
    intro hnil
    have hids := ids_assistantCalls names message
    rw [hnil] at hids
    exact h hids.symm
  simp only [assistantMessage,callingMessage,hcalls,Bool.and_false,Bool.false_eq_true,if_false]

theorem separate_calling (message : Value) (afterTool : Bool) (rest : List ChatMessage) :
    separate afterTool (callingMessage names message :: rest)
      = callingMessage names message :: separate false rest := rfl

variable {history pre run post : List Value} {message : Value}

theorem messagesToOai_turn (h : Turn history pre run post message) (systemPrompt : Option String)
    (nameMap : ToolNameMap) :
    ∃ after,messagesToOai history systemPrompt nameMap
      = separate false (systemMessages systemPrompt ++ translate (namesOf nameMap history) pre) ++
        callingMessage (namesOf nameMap history) message ::
          (turnMessages (namesOf nameMap history) run ++ after) := by
  unfold messagesToOai
  generalize namesOf nameMap history = names
  have htranslate : translate names history = translate names pre ++ callingMessage names message ::
        (userRun names run ++ translate names post) := by
    rw [h.split,translate_assistant names pre h.assistant,assistantMessage_calling names h.calls,
      translate_run names h.users h.ends]
    rfl
  obtain ⟨last,hlast⟩ := separate_append (systemMessages systemPrompt ++ translate names pre)
    (callingMessage names message :: (userRun names run ++ translate names post)) false
  obtain ⟨next,hnext⟩ := separate_append (userRun names run) (translate names post) false
  refine ⟨separate next (translate names post),?_⟩
  rw [htranslate,← append_assoc,hlast,separate_calling,hnext]
  rfl

/-- The results for the calls come first, one for each call id, and the user's content comes
    after them. -/
def AnswersFirst (names : Names) (ids : List String) (run : List Value) : Prop :=
  ∃ answers rest,turnMessages names run = answers ++ rest ∧
    (∀ m ∈ answers,m.role = .tool) ∧
    (tags answers).Perm (ids.dedup.map some) ∧
    (∀ id ∈ ids,some id ∉ tags rest) ∧
    userAtoms rest = runAtoms names run

theorem userAtoms_tools {messages : List ChatMessage} (h : ∀ m ∈ messages,m.role = .tool) :
    userAtoms messages = [] := by
  rw [userAtoms,flatMap_eq_nil_iff]
  intro m hm
  rw [ChatMessage.atoms,h m hm]
  rfl

theorem turnMessages_atoms (run : List Value) :
    userAtoms (turnMessages names run) = runAtoms names run := by
  rw [turnMessages,separate_atoms,userRun_atoms]

theorem turnMessages_count (run : List Value) (id : String) :
    (tags (turnMessages names run)).count (some id) = (resultIds run).count id := by
  have hcount : ∀ l : List (Option String),l.count (some id) = l.reduceOption.count id := by
    intro l
    induction l with
    | nil => rfl
    | cons x l ih =>
      cases x with
      | none => rw [reduceOption_cons_of_none,← ih,count_cons_of_ne (by simp)]
      | some y =>
        rw [reduceOption_cons_of_some,count_cons,count_cons,ih]
        simp
  rw [hcount,turnMessages,reduceOption_separate,userRun_results]

theorem role_of_tag {m : ChatMessage} {id : String} (h : m.tag = some id) : m.role = .tool := by
  unfold ChatMessage.tag at h
  split at h
  · assumption
  · cases h

variable (ids : List String)

theorem split_of_settled (messages : List ChatMessage) (h : settled ids (tags messages) = true) :
    ∃ answers rest,messages = answers ++ rest ∧ (∀ m ∈ answers,isAnswer ids m.tag = true) ∧
      ∀ m ∈ rest,isAnswer ids m.tag = false := by
  induction messages with
  | nil => exact ⟨[],[],rfl,nofun,nofun⟩
  | cons message messages ih =>
    rw [tags_cons,settled] at h
    split at h
    · rename_i hanswer
      obtain ⟨answers,rest,hsplit,hanswers,hrest⟩ := ih h
      refine ⟨message :: answers,rest,by rw [hsplit,cons_append],?_,hrest⟩
      exact forall_mem_cons.mpr ⟨hanswer,hanswers⟩
    · rename_i hanswer
      refine ⟨[],message :: messages,rfl,nofun,?_⟩
      intro m hm
      rcases mem_cons.mp hm with rfl | htail
      · exact Bool.eq_false_iff.mpr hanswer
      · have hall := all_eq_true.mp h m.tag (mem_map_of_mem htail)
        rwa [Bool.not_eq_true'] at hall

theorem settled_of_split {answers rest : List (Option String)}
    (hanswers : ∀ tag ∈ answers,isAnswer ids tag = true)
    (hrest : rest.all (!isAnswer ids ·) = true) : settled ids (answers ++ rest) = true := by
  induction answers with
  | nil => exact settled_of_all ids hrest
  | cons tag answers ih =>
    rw [cons_append,settled,if_pos (hanswers tag mem_cons_self)]
    exact ih fun t ht => hanswers t (mem_cons_of_mem _ ht)

theorem isAnswer_iff (tag : Option String) :
    isAnswer ids tag = true ↔ ∃ id ∈ ids,tag = some id := by
  cases tag with
  | none => simp
  | some id => simp [isAnswer]

section

variable {ids : List String} (hcalls : ids ≠ [])
  (hanswered : ∀ id ∈ ids,(resultIds run).count id = 1)

include hcalls hanswered

theorem settled_turnMessages :
    settled ids (tags (turnMessages names run)) = keepsTogether ids run := by
  obtain ⟨id,hid⟩ := exists_mem_of_ne_nil ids hcalls
  have hmem : id ∈ resultIds run := count_pos_iff.mp (by rw [hanswered id hid]; decide)
  rw [turnMessages,(settled_separate ids _ false).1,settled_userRun names (mem_runEntries hmem)]

theorem answersFirst_iff : AnswersFirst names ids run ↔ keepsTogether ids run = true := by
  rw [← settled_turnMessages names hcalls hanswered]
  constructor
  · rintro ⟨answers,rest,hsplit,-,hperm,hrest,-⟩
    rw [hsplit,tags_append]
    refine settled_of_split ids (fun tag htag => ?_) (all_eq_true.mpr fun tag htag => ?_)
    · obtain ⟨id,hid,rfl⟩ := mem_map.mp (hperm.mem_iff.mp htag)
      exact (isAnswer_iff ids _).mpr ⟨id,mem_dedup.mp hid,rfl⟩
    · rw [Bool.not_eq_true',← Bool.not_eq_true,isAnswer_iff]
      rintro ⟨id,hid,rfl⟩
      exact hrest id hid htag
  · intro hsettled
    obtain ⟨answers,rest,hsplit,hanswers,hrest⟩ := split_of_settled ids _ hsettled
    have htools : ∀ m ∈ answers,m.role = .tool := by
      intro m hm
      obtain ⟨id,-,htag⟩ := (isAnswer_iff ids _).mp (hanswers m hm)
      exact role_of_tag htag
    have hnone : ∀ id ∈ ids,some id ∉ tags rest := by
      intro id hid hmem
      obtain ⟨m,hm,htag⟩ := mem_map.mp hmem
      have hanswer := (isAnswer_iff ids m.tag).mpr ⟨id,hid,htag⟩
      rw [hrest m hm] at hanswer
      cases hanswer
    have hone : ∀ id ∈ ids,(tags answers).count (some id) = 1 := by
      intro id hid
      have hcount := turnMessages_count names run id
      rw [hsplit,tags_append,count_append,count_eq_zero.mpr (hnone id hid),
        hanswered id hid] at hcount
      exact hcount
    refine ⟨answers,rest,hsplit,htools,?_,hnone,?_⟩
    · refine perm_iff_count.mpr fun tag => ?_
      cases htag : isAnswer ids tag with
      | true =>
        obtain ⟨id,hid,rfl⟩ := (isAnswer_iff ids tag).mp htag
        rw [hone id hid,count_map_of_injective _ _ (Option.some_injective _),
          count_eq_one_of_mem (nodup_dedup ids) (mem_dedup.mpr hid)]
      | false =>
        have hfirst : tag ∉ tags answers := by
          intro hmem
          obtain ⟨m,hm,rfl⟩ := mem_map.mp hmem
          rw [hanswers m hm] at htag
          cases htag
        have hsecond : tag ∉ ids.dedup.map some := by
          intro hmem
          obtain ⟨id,hid,rfl⟩ := mem_map.mp hmem
          rw [(isAnswer_iff ids _).mpr ⟨id,mem_dedup.mp hid,rfl⟩] at htag
          cases htag
        rw [count_eq_zero.mpr hfirst,count_eq_zero.mpr hsecond]
    · have hatoms := turnMessages_atoms names run
      rwa [hsplit,userAtoms_append,userAtoms_tools htools,nil_append] at hatoms

end

def isOutputFor (id : String) (item : Value) : Bool :=
  typeIs item "function_call_output" && item.index "call_id" = .string id

variable (assistantPhase : Bool)

theorem isOutputFor_messageItems (m : ChatMessage) (id : String) :
    (messageItems assistantPhase m).countP (isOutputFor id) = 0 := by
  rw [countP_eq_zero]
  intro item hitem
  have htype : typeIs item "function_call_output" = false := by
    unfold messageItems at hitem
    split at hitem
    · rw [mem_singleton.mp hitem]
      rfl
    · split at hitem
      · rw [mem_singleton.mp hitem]
        rfl
      · cases hitem
  rw [isOutputFor,htype]
  exact Bool.false_ne_true

theorem index_type_functionCall (call : ToolCall) :
    typeIs (functionCall call) "function_call_output" = false := by
  unfold functionCall
  split <;> rfl

theorem responsesItems_count (m : ChatMessage) (id : String) :
    (responsesItems assistantPhase m).countP (isOutputFor id)
      = if m.tag = some id then 1 else 0 := by
  unfold responsesItems ChatMessage.tag
  by_cases hrole : m.role = .tool
  · rw [if_pos hrole,if_pos hrole]
    cases hcall : m.toolCallId with
    | none => rfl
    | some callId =>
      have hitem : isOutputFor id (functionCallOutput callId (m.content.getD ""))
          = decide (callId = id) := by
        have hindex : (functionCallOutput callId (m.content.getD "")).index "call_id"
            = .string callId := rfl
        have htype : typeIs (functionCallOutput callId (m.content.getD ""))
            "function_call_output" = true := rfl
        rw [isOutputFor,htype,hindex,Bool.true_and]
        simp
      rw [countP_singleton,hitem]
      simp
  · rw [if_neg hrole,if_neg hrole,countP_append,isOutputFor_messageItems,Nat.zero_add,
      if_neg (by simp),countP_eq_zero]
    intro item hitem
    obtain ⟨call,-,rfl⟩ := mem_map.mp hitem
    rw [isOutputFor,index_type_functionCall]
    exact Bool.false_ne_true

theorem responses_count (messages : List ChatMessage) (id : String) :
    (responsesInputMessages messages assistantPhase).countP (isOutputFor id)
      = (tags messages).count (some id) := by
  induction messages with
  | nil => rfl
  | cons m messages ih =>
    rw [responsesInputMessages,flatMap_cons,countP_append,responsesItems_count,
      ← responsesInputMessages,ih,tags_cons,count_cons,Nat.add_comm]
    simp only [beq_iff_eq]

/-- The function calls of a turn, each with one output among the items of the run behind it. -/
def OutputsOnce (names : Names) (message : Value) (run : List Value) (items : List Value)
    (assistantPhase : Bool) : Prop :=
  ∃ before after,items = before ++ ((assistantCalls names message).map functionCall ++
      (responsesInputMessages (turnMessages names run) assistantPhase ++ after)) ∧
    ∀ call ∈ assistantCalls names message,
      (responsesInputMessages (turnMessages names run) assistantPhase).countP
        (isOutputFor call.id) = 1

theorem outputsOnce_turn (h : Turn history pre run post message) (systemPrompt : Option String)
    (nameMap : ToolNameMap) (assistantPhase : Bool) :
    OutputsOnce (namesOf nameMap history) message run
      (responsesInputMessages (messagesToOai history systemPrompt nameMap) assistantPhase)
      assistantPhase := by
  obtain ⟨after,hsplit⟩ := messagesToOai_turn h systemPrompt nameMap
  have hcalling : responsesItems assistantPhase (callingMessage (namesOf nameMap history) message)
      = messageItems assistantPhase (callingMessage (namesOf nameMap history) message) ++
        (assistantCalls (namesOf nameMap history) message).map functionCall := rfl
  refine ⟨responsesInputMessages (separate false (systemMessages systemPrompt ++
        translate (namesOf nameMap history) pre)) assistantPhase ++
      messageItems assistantPhase (callingMessage (namesOf nameMap history) message),
    responsesInputMessages after assistantPhase,?_,fun call hcall => ?_⟩
  · rw [hsplit]
    simp only [responsesInputMessages,flatMap_append,flatMap_cons,hcalling,append_assoc]
  · have hid : call.id ∈ callIds message := by
      rw [← ids_assistantCalls (namesOf nameMap history) message]
      exact mem_map_of_mem hcall
    rw [responses_count,turnMessages_count,h.answered call.id hid]

/-- In every history and for every turn of it that is answered: the calling message is
    directly followed by what the run is sent as; the answers come first there, and the user's
    content after them, exactly if the run keeps them together; and each function call has one
    output among the items of the run. -/
theorem turn_answers_follow_calls (h : Turn history pre run post message)
    (systemPrompt : Option String) (nameMap : ToolNameMap) :
    (∃ after,messagesToOai history systemPrompt nameMap
      = separate false (systemMessages systemPrompt ++ translate (namesOf nameMap history) pre) ++
        callingMessage (namesOf nameMap history) message ::
          (turnMessages (namesOf nameMap history) run ++ after)) ∧
    (AnswersFirst (namesOf nameMap history) (callIds message) run ↔
      keepsTogether (callIds message) run = true) ∧
    ∀ assistantPhase,OutputsOnce (namesOf nameMap history) message run
      (responsesInputMessages (messagesToOai history systemPrompt nameMap) assistantPhase)
      assistantPhase :=
  ⟨messagesToOai_turn h systemPrompt nameMap,answersFirst_iff _ h.calls h.answered,
    outputsOnce_turn h systemPrompt nameMap⟩

def noRenames : ToolNameMap := ⟨[],[]⟩

def useBlock (id : String) : Value :=
  .object [("id",.string id),("input",.object []),("name",.string "read"),
    ("type",.string "tool_use")]

def resultBlock (id content : String) : Value :=
  .object [("content",.string content),("tool_use_id",.string id),("type",.string "tool_result")]

def textBlock (text : String) : Value :=
  .object [("text",.string text),("type",.string "text")]

def messageOf (role : String) (blocks : List Value) : Value :=
  .object [("content",.array blocks),("role",.string role)]

def oneCall : Value := messageOf "assistant" [useBlock "t1"]

def lateResult : Value := messageOf "user" [textBlock "wait",resultBlock "t1" "done"]

theorem lateResult_turn : Turn [oneCall,lateResult] [] [lateResult] [] oneCall where
  split := rfl
  assistant := by decide +kernel
  calls := by decide +kernel
  users := by decide +kernel
  ends := nofun
  answered := by decide +kernel

theorem lateResult_separated : Turn [oneCall,lateResult] [] [lateResult] [] oneCall ∧
      messagesToOai [oneCall,lateResult] none noRenames
        = [callingMessage (namesOf noRenames [oneCall,lateResult]) oneCall,.user "wait",
          .toolResult "t1" "read" "done"] ∧
      ¬ AnswersFirst (namesOf noRenames [oneCall,lateResult]) (callIds oneCall) [lateResult] := by
  have hturn := lateResult_turn
  refine ⟨hturn,?_,?_⟩
  · have htranslate : translate (namesOf noRenames [oneCall,lateResult]) [oneCall,lateResult]
        = assistantMessage (namesOf noRenames [oneCall,lateResult]) oneCall ++
          userRun (namesOf noRenames [oneCall,lateResult]) [lateResult] := by
      generalize namesOf noRenames [oneCall,lateResult] = names
      have hrun := @translate_run names [lateResult] [] hturn.users hturn.ends
      have hcall := translate_assistant names [] hturn.assistant [lateResult]
      rw [translate_nil,append_nil,append_nil] at hrun
      rwa [translate_nil,nil_append,nil_append,hrun] at hcall
    rw [messagesToOai,htranslate]
    decide +kernel
  · rw [answersFirst_iff _ hturn.calls hturn.answered]
    decide +kernel

def twoCalls : Value := messageOf "assistant" [useBlock "t1",useBlock "t2"]

def answers : List Value :=
  [messageOf "user" [resultBlock "t2" "two"],
    messageOf "user" [resultBlock "t1" "one",textBlock "next"]]

theorem turn_answers_follow_calls_twoCalls :
    AnswersFirst (namesOf noRenames (twoCalls :: answers)) (callIds twoCalls) answers := by
  have hturn : Turn (twoCalls :: answers) [] answers [] twoCalls :=
    ⟨by rw [append_nil,nil_append],by decide +kernel,by decide +kernel,by decide +kernel,
      nofun,by decide +kernel⟩
  exact (turn_answers_follow_calls hturn none noRenames).2.1.mpr (by decide +kernel)

end Synaps.Oai
