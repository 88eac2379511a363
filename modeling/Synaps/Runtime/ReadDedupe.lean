import Synaps.Runtime.History
import Synaps.Lib.Runs
import Mathlib.Data.List.Flatten

/-!
Stubs that stand for a repeated read whose earlier result is still there. A rollover rewrites a
stub whose read it dropped; the log of all results ever recorded says what each was made from. Over
whole runs a stub names an earlier result that is still there and holds what the read returned.
-/

set_option autoImplicit false

namespace Synaps.ReadDedupe

open Json History

def stubOpening : String := "[File unchanged since your earlier read ("

def unchangedStub (earlierId : String) : String :=
  s!"{stubOpening}{earlierId}). That result is current; use it instead of re-reading. If it's no longer in your context, read the file again.]"

def stubTarget (text : String) : Option String := do
  let rest ← stubOpening.toList.isPrefixOf? text.toList
  let id := String.ofList (rest.takeWhile (· ≠ ')'))
  if id ≠ "" ∧ unchangedStub id = text then some id else none

def droppedStub : String :=
  "[Earlier file content was dropped at a context rollover; read the file again if you need it.]"

def retainedResults (successor : List Value) : List String :=
  ((successor.filter (roleIs · "user")).flatMap contentBlocks).filterMap (fun b =>
    if typeIs b "tool_result" then (b.index "tool_use_id").asStr? else none)

def dangling (retained : List String) (block : Value) : Bool :=
  typeIs block "tool_result" &&
    ((block.index "content").asStr?.bind stubTarget).any (fun id => !retained.contains id)

def rewriteBlock (retained : List String) (block : Value) : Value :=
  if dangling retained block then block.set "content" (.string droppedStub) else block

def rewriteMessage (retained : List String) (message : Value) : Value :=
  if roleIs message "user" && (contentBlocks message).any (dangling retained) then
    message.set "content" (.array ((contentBlocks message).map (rewriteBlock retained)))
  else message

def rewriteDanglingStubs (successor : List Value) : List Value :=
  successor.map (rewriteMessage (retainedResults successor))

variable (retained : List String)

theorem index_rewriteBlock (b : Value) {k : String} (hk : k ≠ "content") :
    (rewriteBlock retained b).index k = b.index k := by
  unfold rewriteBlock
  split
  · exact Value.index_set_ne _ _ hk
  · rfl

variable (m : Value)

theorem get?_rewriteMessage {k : String} (hk : k ≠ "content") :
    (rewriteMessage retained m).get? k = m.get? k := by
  unfold rewriteMessage
  split
  · exact Value.get?_set_ne _ _ hk
  · rfl

theorem index_rewriteMessage {k : String} (hk : k ≠ "content") :
    (rewriteMessage retained m).index k = m.index k := by
  rw [Value.index,get?_rewriteMessage retained m hk,Value.index]

theorem roleIs_rewriteMessage (role : String) :
    roleIs (rewriteMessage retained m) role = roleIs m role := by
  rw [roleIs,index_rewriteMessage retained m (by decide),roleIs]

/-- The content of a rewritten message is an array of as many blocks, each as it was up
to a stub's text; any other content stays as it is. -/
theorem content_rewriteMessage : (rewriteMessage retained m).index "content" = m.index "content" ∨
    ∃ blocks, m.index "content" = .array blocks ∧
      (rewriteMessage retained m).index "content" = .array (blocks.map (rewriteBlock retained)) := by
  unfold rewriteMessage
  split
  · rename_i h
    right
    cases hc : (m.index "content").asArray? with
    | none => simp [contentBlocks,hc] at h
    | some blocks =>
      have harr := Value.asArray?_eq_some hc
      have hget := Value.get?_of_index harr (by simp)
      refine ⟨blocks,harr,?_⟩
      simp [Value.index,Value.get?_set _ hget,contentBlocks,hget,Value.asArray?]
  · exact .inl rfl

theorem rewriteMessage_text {m : Value} {t : String} (h : m.index "content" = .string t) :
    rewriteMessage retained m = m := by
  simp [rewriteMessage,contentBlocks,h,Value.asArray?]

theorem contentBlocks_rewriteMessage : contentBlocks (rewriteMessage retained m) = contentBlocks m ∨
    contentBlocks (rewriteMessage retained m) = (contentBlocks m).map (rewriteBlock retained) := by
  rcases content_rewriteMessage retained m with h | ⟨blocks,h,h'⟩
  · exact .inl (by rw [contentBlocks,h,contentBlocks])
  · exact .inr (by simp [contentBlocks,h,h',Value.asArray?])

/-- A message as it was, up to stubs that rollovers have rewritten since. -/
inductive Rewritten (m : Value) : Value → Prop
  | same : Rewritten m m
  | stubs {v : Value} (retained : List String) (h : Rewritten m v) :
      Rewritten m (rewriteMessage retained v)

theorem map_contentBlocks_rewrite {α : Type} (f : Value → α)
    (hf : ∀ b, f (rewriteBlock retained b) = f b) :
    (contentBlocks (rewriteMessage retained m)).map f = (contentBlocks m).map f := by
  rcases contentBlocks_rewriteMessage retained m with h | h
  · rw [h]
  · rw [h,List.map_map]
    exact List.map_congr_left (fun b _ => hf b)

theorem asStr?_content_rewrite :
    ((rewriteMessage retained m).index "content").asStr? = (m.index "content").asStr? := by
  rcases content_rewriteMessage retained m with h | ⟨blocks,h,h'⟩
  · rw [h]
  · rw [h,h']
    rfl

structure ReadKey (Path : Type) where
  path : Path
  offset : Nat
  limit : Option Nat
  deriving DecidableEq

inductive Shaping (Path : Type) where
  | read (key : ReadKey Path)
  | mutation (name : String)

def isHostText (text : String) : Bool := text = droppedStub || (stubTarget text).isSome

def writeNote : String :=
  "The file now holds exactly the content you wrote; no need to re-read it to verify."

def editNote : String :=
  "The edit was applied exactly as given; no need to re-read the file to verify."

def multiEditNote : String :=
  "Every edit above was applied as reported; no need to re-read the files to verify."

def mutationNote (runtimeName : String) : Option String :=
  if runtimeName = "write" then some writeNote
  else if runtimeName = "edit" then some editNote
  else if runtimeName = "multi_edit" then some multiEditNote
  else none

def withMutationNote (runtimeName content : String) : String :=
  match mutationNote runtimeName with
  | none => content
  | some note => if content = "" then note else content ++ "\n\n" ++ note

section Shape

-- How a call's path is resolved: with the home directory and the session's directory.
variable {Path : Type} [DecidableEq Path] (resolve : String → Path)

def ReadKey.fromInput (input : Value) : Option (ReadKey Path) := do
  let path ← (← input.get? "path").asStr?
  some ⟨resolve path,((input.get? "offset").bind asU64?).getD 0,(input.get? "limit").bind asU64?⟩

def findToolUseInput (messages : List Value) (id wireName : String) : Option Value :=
  ((((messages.reverse.filter (roleIs · "assistant")).flatMap contentBlocks).find?
    (fun b => typeIs b "tool_use" && b.index "id" = .string id)).filter
    (fun b => b.index "name" = .string wireName)).map (·.index "input")

def redundantWith (messages : List Value) (wireName : String) (key : ReadKey Path)
    (newText : String) (result : Value) : Option String :=
  if !typeIs result "tool_result" || result.index "is_error" = .bool true then none
  else if (result.index "content").asStr? ≠ some newText || isHostText newText then none
  else do
    let id ← (result.index "tool_use_id").asStr?
    let input ← findToolUseInput messages id wireName
    if ReadKey.fromInput resolve input = some key then some id else none

def findUnchangedRead (messages pending : List Value) (wireName : String) (key : ReadKey Path)
    (newContent : Value) : Option String := do
  let newText ← newContent.asStr?
  if newText = "" then none
  else
    let historyResults := messages.reverse.flatMap fun m =>
      if roleIs m "user" then (contentBlocks m).reverse else []
    (pending.reverse ++ historyResults).findSome? (redundantWith resolve messages wireName key newText)

def shape (shaping : Shaping Path) (messages pending : List Value) (wireName : String)
    (content : Value) : Value × Option Nat :=
  match shaping with
  | .read key =>
    match findUnchangedRead resolve messages pending wireName key content with
    | none => (content,none)
    | some id =>
      let stub := unchangedStub id
      let replaced := content.asStr?.elim 0 String.utf8ByteSize
      if replaced ≤ stub.utf8ByteSize then (content,none)
      else (.string stub,some (replaced - stub.utf8ByteSize))
  | .mutation name =>
    match content with
    | .string text => (.string (withMutationNote name text),none)
    | other => (other,none)

end Shape

def results (history : List Value) : List Value :=
  ((history.filter (roleIs · "user")).flatMap contentBlocks).filter (typeIs · "tool_result")

def resultId (b : Value) : Option String := (b.index "tool_use_id").asStr?

def toolUses (message : Value) : List Value := (contentBlocks message).filter (typeIs · "tool_use")

def callIds (calls : List Value) : List String := calls.filterMap fun b => (b.index "id").asStr?

def Names (content : Value) (id : String) : Prop :=
  ∃ text, content = .string text ∧ stubTarget text = some id

structure Read (Path : Type) where
  resolve : String → Path
  wireName : String
  key : ReadKey Path
  returned : Value

structure Entry (Path : Type) where
  serial : Nat
  id : String
  content : Value
  isError : Bool
  read : Option (Read Path)

section Runs

variable {Path : Type} [DecidableEq Path]

def Entry.block (e : Entry Path) : Value :=
  .object ([("type",.string "tool_result"),("tool_use_id",.string e.id),("content",e.content)] ++
    if e.isError then [("is_error",.bool true)] else [])

def Shaping.readOf (shaping : Shaping Path) (resolve : String → Path) (wireName : String)
    (returned : Value) : Option (Read Path) :=
  match shaping with
  | .read key => some ⟨resolve,wireName,key,returned⟩
  | .mutation _ => none

/-- The results of one round, oldest first: a result as the tool returned it, or shaped
against the history and some of the results before it. No tool returns a stub. -/
inductive Batch (messages : List Value) (ids : List String) (next : Nat) :
    List (Entry Path) → Prop where
  | nil : Batch messages ids next []
  | plain {batch : List (Entry Path)} (h : Batch messages ids next batch) (id : String)
      (content : Value) (isError : Bool) (hid : id ∈ ids) (hfresh : id ∉ batch.map (·.id))
      (hraw : ∀ named, ¬ Names content named) :
      Batch messages ids next (batch ++ [⟨next + batch.length,id,content,isError,none⟩])
  | shaped {batch seen : List (Entry Path)} (h : Batch messages ids next batch) (id : String)
      (content : Value) (resolve : String → Path) (shaping : Shaping Path) (wireName : String)
      (hid : id ∈ ids) (hfresh : id ∉ batch.map (·.id)) (hraw : ∀ named, ¬ Names content named)
      (hseen : seen.Sublist batch) :
      Batch messages ids next (batch ++ [⟨next + batch.length,id,
        (shape resolve shaping messages (seen.map Entry.block) wireName content).1,false,
        shaping.readOf resolve wireName content⟩])

structure Session (Path : Type) where
  history : List Value
  calls : List Value
  log : List (Entry Path)

def userMessage (batch : List (Entry Path)) : Value :=
  .object [("role",.string "user"),("content",.array (batch.map Entry.block))]

inductive Init : Session Path → Prop where
  | empty : Init ⟨[],[],[]⟩

/-- A round of calls with fresh ids and their results, or a rollover that keeps some of the
messages, in their order, behind messages of its own without blocks. -/
inductive Step : Session Path → Session Path → Prop where
  | round (s : Session Path) (assistant : Value) (batch : List (Entry Path))
      (hrole : roleIs assistant "assistant" = true)
      (hfresh : ∀ id ∈ callIds (toolUses assistant), id ∉ callIds s.calls)
      (hbatch : Batch (s.history ++ [assistant]) (callIds (toolUses assistant)) s.log.length batch) :
      Step s ⟨s.history ++ [assistant,userMessage batch],s.calls ++ toolUses assistant,s.log ++ batch⟩
  | rollover (s : Session Path) (front kept : List Value)
      (hfront : ∀ m ∈ front, contentBlocks m = []) (hkept : kept.Sublist s.history) :
      Step s { s with history := rewriteDanglingStubs (front ++ kept) }

end Runs

open Runs
open List hiding lookup

theorem stubTarget_eq {text id : String} (h : stubTarget text = some id) :
    text = unchangedStub id := by
  unfold stubTarget at h
  obtain ⟨rest,-,h⟩ := Option.bind_eq_some_iff.mp h
  dsimp only at h
  split at h
  · rename_i hid
    cases h
    exact hid.2.symm
  · cases h

theorem stubTarget_of_head? {text : String} (h : text.toList.head? ≠ some '[') :
    stubTarget text = none := by
  cases htarget : stubTarget text with
  | none => rfl
  | some id =>
    obtain ⟨rest,hopening⟩ := head?_eq_some_iff.mp
      (show stubOpening.toList.head? = some '[' by simp [stubOpening])
    rw [stubTarget_eq htarget] at h
    simp [unchangedStub,toString,hopening] at h

theorem unchangedStub_injective {id id' : String} (h : unchangedStub id = unchangedStub id') :
    id = id' := by
  have hlist := congrArg String.toList h
  simp only [unchangedStub,toString,String.toList_append] at hlist
  exact String.toList_inj.mp (append_cancel_left (append_cancel_right hlist))

theorem stubTarget_droppedStub : stubTarget droppedStub = none := by
  decide +kernel

theorem not_names_dropped (id : String) : ¬ Names (.string droppedStub) id := by
  rintro ⟨text,htext,htarget⟩
  cases htext
  rw [stubTarget_droppedStub] at htarget
  cases htarget

theorem getLast?_of_stubTarget {text id : String} (h : stubTarget text = some id) :
    text.toList.getLast? = some ']' := by
  rw [stubTarget_eq h]
  simp only [unchangedStub,toString,String.toList_append,getLast?_append]
  simp

theorem getLast?_mutationNote {runtimeName note : String} (h : mutationNote runtimeName = some note) :
    note.toList.getLast? = some '.' := by
  unfold mutationNote at h
  split at h
  · cases h
    simp [writeNote]
  split at h
  · cases h
    simp [editNote]
  · split at h
    · cases h
      simp [multiEditNote]
    · cases h

theorem stubTarget_withMutationNote {runtimeName content : String}
    (h : stubTarget content = none) : stubTarget (withMutationNote runtimeName content) = none := by
  unfold withMutationNote
  split
  · exact h
  · rename_i note hnote
    have hlast := getLast?_mutationNote hnote
    cases htarget : stubTarget (if content = "" then note else content ++ "\n\n" ++ note) with
    | none => rfl
    | some id =>
      have hbracket := getLast?_of_stubTarget htarget
      split at hbracket
      · rw [hlast] at hbracket
        cases hbracket
      · rw [String.toList_append,getLast?_append,hlast] at hbracket
        cases hbracket

section Shape

variable {Path : Type} [DecidableEq Path] {resolve : String → Path}

def CallOf (calls : List Value) (id : String) (r : Read Path) : Prop :=
  ∃ c ∈ calls, typeIs c "tool_use" = true ∧ c.index "id" = .string id ∧
    c.index "name" = .string r.wireName ∧
    ReadKey.fromInput r.resolve (c.index "input") = some r.key

variable {id wireName : String} {messages : List Value}

theorem findToolUseInput_some {input : Value}
    (h : findToolUseInput messages id wireName = some input) :
    ∃ m ∈ messages, roleIs m "assistant" = true ∧ ∃ c ∈ toolUses m,
      typeIs c "tool_use" = true ∧ c.index "id" = .string id ∧ c.index "name" = .string wireName ∧
      c.index "input" = input := by
  obtain ⟨c,hc,rfl⟩ := Option.map_eq_some_iff.mp h
  obtain ⟨hfind,hname⟩ := Option.filter_eq_some_iff.mp hc
  have hp := find?_some hfind
  obtain ⟨m,hm,hblock⟩ := mem_flatMap.mp (mem_of_find?_eq_some hfind)
  obtain ⟨hm,hrole⟩ := mem_filter.mp hm
  simp only [Bool.and_eq_true,decide_eq_true_eq] at hp hname
  exact ⟨m,mem_reverse.mp hm,hrole,c,mem_filter.mpr ⟨hblock,hp.1⟩,hp.1,hp.2,hname,rfl⟩

theorem redundantWith_some {newText : String} {key : ReadKey Path} {result : Value}
    (h : redundantWith resolve messages wireName key newText result = some id) :
    typeIs result "tool_result" = true ∧ result.index "is_error" ≠ .bool true ∧
      result.index "content" = .string newText ∧ isHostText newText = false ∧
      result.index "tool_use_id" = .string id ∧
      ∃ input, findToolUseInput messages id wireName = some input ∧
        ReadKey.fromInput resolve input = some key := by
  unfold redundantWith at h
  split at h
  · cases h
  rename_i htype
  split at h
  · cases h
  rename_i htext
  simp only [Bool.or_eq_true,Bool.not_eq_true',decide_eq_true_eq,not_or,Bool.not_eq_false] at htype
  simp only [ne_eq,Bool.or_eq_true,decide_eq_true_eq,not_or,Decidable.not_not,
    Bool.not_eq_true] at htext
  obtain ⟨id',hid,h⟩ := Option.bind_eq_some_iff.mp h
  obtain ⟨input,hinput,h⟩ := Option.bind_eq_some_iff.mp h
  split at h
  · rename_i hkey
    cases h
    exact ⟨htype.1,htype.2,Value.asStr?_eq_some htext.1,htext.2,Value.asStr?_eq_some hid,
      input,hinput,hkey⟩
  · cases h

theorem findUnchangedRead_some {pending : List Value} {key : ReadKey Path} {content : Value}
    (h : findUnchangedRead resolve messages pending wireName key content = some id) :
    ∃ newText, content = .string newText ∧ ∃ result, (result ∈ pending ∨ result ∈ results messages) ∧
      redundantWith resolve messages wireName key newText result = some id := by
  obtain ⟨newText,htext,h⟩ := Option.bind_eq_some_iff.mp h
  dsimp only at h
  split at h
  · cases h
  obtain ⟨result,hmem,hresult⟩ := exists_of_findSome?_eq_some h
  refine ⟨newText,Value.asStr?_eq_some htext,result,?_,hresult⟩
  rcases mem_append.mp hmem with hmem | hmem
  · exact .inl (mem_reverse.mp hmem)
  right
  obtain ⟨m,hm,hblock⟩ := mem_flatMap.mp hmem
  split at hblock
  · rename_i hrole
    exact mem_filter.mpr ⟨mem_flatMap.mpr ⟨m,mem_filter.mpr
      ⟨mem_reverse.mp hm,hrole⟩,mem_reverse.mp hblock⟩,(redundantWith_some hresult).1⟩
  · cases hblock

theorem shape_names {pending : List Value} {shaping : Shaping Path} {content : Value}
    (hraw : ∀ named, ¬ Names content named)
    (h : Names (shape resolve shaping messages pending wireName content).1 id) :
    ∃ key, shaping = .read key ∧
      findUnchangedRead resolve messages pending wireName key content = some id := by
  unfold shape at h
  split at h
  · rename_i key
    split at h
    · exact absurd h (hraw id)
    rename_i found hfound
    dsimp only at h
    split at h
    · exact absurd h (hraw id)
    · obtain ⟨text,htext,htarget⟩ := h
      cases htext
      obtain rfl := unchangedStub_injective (stubTarget_eq htarget)
      exact ⟨key,rfl,hfound⟩
  · rename_i name
    split at h
    · rename_i text
      obtain ⟨noted,htext,htarget⟩ := h
      cases htext
      have hnone : stubTarget text = none := by
        cases hs : stubTarget text with
        | none => rfl
        | some named => exact absurd ⟨text,rfl,hs⟩ (hraw named)
      rw [stubTarget_withMutationNote hnone] at htarget
      cases htarget
    · exact absurd h (hraw id)

end Shape

theorem rewriteBlock_of_not_dangling {retained : List String} {b : Value}
    (h : dangling retained b = false) : rewriteBlock retained b = b := by
  rw [rewriteBlock,h]
  rfl

theorem contentBlocks_set {m : Value} {blocks : List Value}
    (h : m.index "content" = .array blocks) (new : List Value) :
    contentBlocks (m.set "content" (.array new)) = new := by
  have hget := Value.get?_of_index h (by simp)
  simp [contentBlocks,Value.index,Value.get?_set _ hget,Value.asArray?]

theorem contentBlocks_rewriteMessage_user {retained : List String} {m : Value}
    (h : roleIs m "user" = true) :
    contentBlocks (rewriteMessage retained m) = (contentBlocks m).map (rewriteBlock retained) := by
  rw [rewriteMessage,h,Bool.true_and]
  split
  · rename_i hany
    cases hcontent : (m.index "content").asArray? with
    | none => simp [contentBlocks,hcontent] at hany
    | some blocks => exact contentBlocks_set (Value.asArray?_eq_some hcontent) _
  · rename_i hany
    rw [Bool.not_eq_true,any_eq_false] at hany
    have hsame := map_congr_left fun b hb =>
      rewriteBlock_of_not_dangling (Bool.not_eq_true _ ▸ hany b hb)
    rw [hsame,map_id'']
    exact fun _ => rfl

theorem typeIs_rewriteBlock (b : Value) (type : String) :
    typeIs (rewriteBlock retained b) type = typeIs b type := by
  rw [typeIs,index_rewriteBlock retained b (by decide),typeIs]

variable (l : List Value)

theorem results_append (l' : List Value) : results (l ++ l') = results l ++ results l' := by
  simp [results]

theorem results_cons (m : Value) (l : List Value) : results (m :: l) =
    (if roleIs m "user" then (contentBlocks m).filter (typeIs · "tool_result") else []) ++
      results l := by
  cases h : roleIs m "user" <;> simp [results,h]

theorem results_rewrite (l : List Value) :
    results (l.map (rewriteMessage retained)) = (results l).map (rewriteBlock retained) := by
  induction l with
  | nil => rfl
  | cons m l ih =>
    rw [map_cons,results_cons,results_cons,ih,map_append,roleIs_rewriteMessage]
    congr 1
    split
    · rename_i hrole
      rw [contentBlocks_rewriteMessage_user hrole,filter_map]
      simp only [Function.comp_def,typeIs_rewriteBlock]
    · rfl

theorem results_sublist {l l' : List Value} (h : l.Sublist l') : (results l).Sublist (results l') :=
  ((h.filter _).flatMap _).filter _

theorem results_eq_nil {l : List Value} (h : ∀ m ∈ l, contentBlocks m = []) : results l = [] := by
  induction l with
  | nil => rfl
  | cons m l ih =>
    rw [results_cons,h m (by simp),ih fun m' hm' => h m' (by simp [hm'])]
    simp

theorem retainedResults_eq : retainedResults l = (results l).filterMap resultId := by
  rw [retainedResults,results,filterMap_filter]
  rfl

theorem names_of_dangling {retained : List String} {b : Value} (h : dangling retained b = true) :
    ∃ id, Names (b.index "content") id := by
  rw [dangling,Bool.and_eq_true,Option.any_eq_true] at h
  obtain ⟨-,id,hid,-⟩ := h
  obtain ⟨text,htext,htarget⟩ := Option.bind_eq_some_iff.mp hid
  exact ⟨id,text,Value.asStr?_eq_some htext,htarget⟩

theorem content_rewriteBlock {retained : List String} {b : Value} (h : dangling retained b = true) :
    (rewriteBlock retained b).index "content" = .string droppedStub := by
  obtain ⟨id,text,hcontent,-⟩ := names_of_dangling h
  have hget := Value.get?_of_index hcontent (by simp)
  rw [rewriteBlock,h,if_pos rfl]
  simp [Value.index,Value.get?_set _ hget]

theorem dangling_rewriteBlock (b : Value) :
    dangling retained (rewriteBlock retained b) = false := by
  cases h : dangling retained b with
  | false => rwa [rewriteBlock_of_not_dangling h]
  | true => simp [dangling,content_rewriteBlock h,Value.asStr?,stubTarget_droppedStub]

theorem resultId_rewriteBlock (b : Value) : resultId (rewriteBlock retained b) = resultId b := by
  rw [resultId,index_rewriteBlock _ _ (by decide),resultId]

theorem resultIds_rewrite (l : List Value) :
    (l.map (rewriteBlock retained)).filterMap resultId = l.filterMap resultId := by
  rw [filterMap_map]
  exact filterMap_congr fun b _ => resultId_rewriteBlock retained b

theorem retainedResults_rewrite : retainedResults (rewriteDanglingStubs l) = retainedResults l := by
  rw [rewriteDanglingStubs,retainedResults_eq,results_rewrite,resultIds_rewrite,
    ← retainedResults_eq]

theorem rewriteDanglingStubs_text {m : Value} {t : String} (h : m.index "content" = .string t)
    (l : List Value) : rewriteDanglingStubs (m :: l) =
      m :: l.map (rewriteMessage (retainedResults (rewriteDanglingStubs (m :: l)))) := by
  rw [retainedResults_rewrite,rewriteDanglingStubs,map_cons,rewriteMessage_text _ h]

theorem rewrite_rewrite :
    rewriteDanglingStubs (rewriteDanglingStubs l) = rewriteDanglingStubs l := by
  conv_lhs => rw [rewriteDanglingStubs,retainedResults_rewrite]
  rw [rewriteDanglingStubs,map_map]
  refine map_congr_left fun m _ => ?_
  rw [Function.comp,rewriteMessage,roleIs_rewriteMessage]
  cases hrole : roleIs m "user" with
  | false => rfl
  | true =>
    rw [contentBlocks_rewriteMessage_user hrole,any_map]
    have hany : (contentBlocks m).any (dangling (retainedResults l) ∘
        rewriteBlock (retainedResults l)) = false := by
      rw [any_eq_false]
      intro b _
      rw [Function.comp,dangling_rewriteBlock]
      exact Bool.false_ne_true
    rw [hany]
    rfl

def SameBlock (b b' : Value) : Prop :=
  b' = b ∨ (typeIs b "tool_result" = true ∧ ∃ v, b' = b.set "content" v)

def SameMessage (m m' : Value) : Prop :=
  m' = m ∨ (roleIs m "user" = true ∧ ∃ blocks blocks', m.index "content" = .array blocks ∧
    m' = m.set "content" (.array blocks') ∧ List.Forall₂ SameBlock blocks blocks')

theorem sameBlock_rewriteBlock (b : Value) : SameBlock b (rewriteBlock retained b) := by
  unfold rewriteBlock
  split
  · rename_i h
    rw [dangling,Bool.and_eq_true] at h
    exact .inr ⟨h.1,_,rfl⟩
  · exact .inl rfl

theorem sameMessage_rewriteMessage (m : Value) : SameMessage m (rewriteMessage retained m) := by
  unfold rewriteMessage
  split
  · rename_i h
    rw [Bool.and_eq_true] at h
    cases hcontent : (m.index "content").asArray? with
    | none => simp [contentBlocks,hcontent] at h
    | some blocks =>
      refine .inr ⟨h.1,blocks,_,Value.asArray?_eq_some hcontent,rfl,?_⟩
      rw [contentBlocks,hcontent,Option.getD_some,forall₂_map_right_iff,forall₂_same]
      exact fun b _ => sameBlock_rewriteBlock retained b
  · exact .inl rfl

theorem sameMessage_rewrite : Forall₂ SameMessage l (rewriteDanglingStubs l) := by
  rw [rewriteDanglingStubs,forall₂_map_right_iff,forall₂_same]
  exact fun m _ => sameMessage_rewriteMessage _ m

section Paired

variable {α β : Type} {R : α → β → Prop}

section

variable {l : List α} {l' : List β} (h : List.Forall₂ R l l')

include h

theorem exists_left_of_mem {b : β} (hb : b ∈ l') : ∃ a ∈ l, R a b := by
  induction h with
  | nil => cases hb
  | cons hab _ ih =>
    rcases mem_cons.mp hb with rfl | hb
    · exact ⟨_,mem_cons_self,hab⟩
    · obtain ⟨a,ha,hR⟩ := ih hb
      exact ⟨a,mem_cons_of_mem _ ha,hR⟩

theorem exists_right_of_mem {a : α} (ha : a ∈ l) : ∃ b ∈ l', R a b := exists_left_of_mem h.flip ha

end

theorem exists_sublist_left {l : List α} {l' m : List β} (h : Forall₂ R l l')
    (hm : m.Sublist l') : ∃ k, k.Sublist l ∧ Forall₂ R k m := by
  induction hm generalizing l with
  | slnil =>
    cases h
    exact ⟨[],.slnil,.nil⟩
  | cons b _ ih =>
    cases h with
    | cons hab hrest =>
      obtain ⟨k,hk,hkm⟩ := ih hrest
      exact ⟨k,hk.cons _,hkm⟩
  | cons_cons b _ ih =>
    cases h with
    | cons hab hrest =>
      obtain ⟨k,hk,hkm⟩ := ih hrest
      exact ⟨_,hk.cons_cons _,.cons hab hkm⟩

end Paired

section Invariant

variable {Path : Type}

structure Shows (e : Entry Path) (b : Value) : Prop where
  id : b.index "tool_use_id" = .string e.id
  isError : b.index "is_error" = .bool true ↔ e.isError = true
  content : b.index "content" = e.content ∨
    ((∃ id, Names e.content id) ∧ b.index "content" = .string droppedStub)

/-- What a stub says is true of the log: it names an earlier result that is no error and no
stub, and that holds what the stubbed read returned for the same key. -/
def Backed (log : List (Entry Path)) (calls : List Value) (e : Entry Path) : Prop :=
  ∀ id, Names e.content id → ∃ e' ∈ log, e'.serial < e.serial ∧ e'.id = id ∧ e'.isError = false ∧
    (∀ named, ¬ Names e'.content named) ∧
    ∃ r, e.read = some r ∧ e'.content = r.returned ∧ CallOf calls id r

structure LogInv (log : List (Entry Path)) (calls : List Value) : Prop where
  serials : log.Pairwise fun a b => a.serial < b.serial
  bound : ∀ e ∈ log, e.serial < log.length
  ids : (log.map (·.id)).Nodup
  called : ∀ e ∈ log, e.id ∈ callIds calls
  backed : ∀ e ∈ log, Backed log calls e

structure Inv (s : Session Path) : Prop extends LogInv s.log s.calls where
  shown : ∃ kept : List (Entry Path), kept.Sublist s.log ∧ List.Forall₂ Shows kept (results s.history)
  live : ∀ b ∈ results s.history, ∀ id, Names (b.index "content") id →
    id ∈ (results s.history).filterMap resultId
  calls : ∀ m ∈ s.history, roleIs m "assistant" = true → ∀ c ∈ toolUses m, c ∈ s.calls

variable {e : Entry Path}

theorem Backed.mono {log log' : List (Entry Path)} {calls calls' : List Value}
    (h : Backed log calls e) (hlog : ∀ x ∈ log, x ∈ log') (hcalls : ∀ c ∈ calls, c ∈ calls') :
    Backed log' calls' e := by
  intro id hid
  obtain ⟨e',he',hserial,hid',herror,hplain,r,hr,hcontent,c,hc,hcall⟩ := h id hid
  exact ⟨e',hlog e' he',hserial,hid',herror,hplain,r,hr,hcontent,c,hcalls c hc,hcall⟩

section

variable {log : List (Entry Path)} {calls : List Value} (h : LogInv log calls)

include h

theorem LogInv.more (more : List Value) : LogInv log (calls ++ more) where
  serials := h.serials
  bound := h.bound
  ids := h.ids
  called e he := by
    rw [callIds,filterMap_append]
    exact mem_append_left _ (h.called e he)
  backed e he := (h.backed e he).mono (fun _ hx => hx) fun _ hc => mem_append_left _ hc

theorem LogInv.snoc (hserial : e.serial = log.length) (hid : e.id ∈ callIds calls)
    (hfresh : e.id ∉ log.map (·.id)) (hbacked : Backed log calls e) : LogInv (log ++ [e]) calls where
  serials := by
    rw [pairwise_append]
    refine ⟨h.serials,pairwise_singleton _ _,fun a ha b hb => ?_⟩
    rw [mem_singleton.mp hb,hserial]
    exact h.bound a ha
  bound a ha := by
    rw [length_append,length_singleton]
    rcases mem_append.mp ha with ha | ha
    · have := h.bound a ha
      omega
    · rw [mem_singleton.mp ha,hserial]
      omega
  ids := by
    rw [map_append,nodup_append]
    exact ⟨h.ids,by simp,fun a ha b hb hab => hfresh (by simp_all)⟩
  called a ha := by
    rcases mem_append.mp ha with ha | ha
    · exact h.called a ha
    · rwa [mem_singleton.mp ha]
  backed a ha := by
    have hmem : ∀ x ∈ log, x ∈ log ++ [e] := fun x hx => mem_append_left _ hx
    rcases mem_append.mp ha with ha | ha
    · exact (h.backed a ha).mono hmem fun _ hc => hc
    · rw [mem_singleton.mp ha]
      exact hbacked.mono hmem fun _ hc => hc

end

variable {s : Session Path}

theorem inv_init (h : Init s) : Inv s := by
  cases h
  exact ⟨⟨.nil,by simp,by simp,by simp,by simp⟩,⟨[],.slnil,.nil⟩,by simp [results],by simp⟩

theorem typeIs_block (e : Entry Path) : typeIs e.block "tool_result" = true := by
  simp [Entry.block,typeIs,Value.index,Value.get?,lookup]

theorem shows_block (e : Entry Path) : Shows e e.block := by
  refine ⟨?_,?_,.inl ?_⟩
  · simp [Entry.block,Value.index,Value.get?,lookup]
  · cases h : e.isError <;> simp [Entry.block,Value.index,Value.get?,lookup,h]
  · simp [Entry.block,Value.index,Value.get?,lookup]

theorem resultId_of_shows {b : Value} (h : Shows e b) : resultId b = some e.id := by
  rw [resultId,h.id]
  rfl

theorem results_userMessage (batch : List (Entry Path)) :
    results [userMessage batch] = batch.map Entry.block := by
  have hblocks : contentBlocks (userMessage batch) = batch.map Entry.block := by
    simp [contentBlocks,userMessage,Value.index,Value.get?,lookup,Value.asArray?]
  have hrole : roleIs (userMessage batch) "user" = true := by
    simp [roleIs,userMessage,Value.index,Value.get?,lookup]
  rw [results_cons,hrole,if_pos rfl,hblocks,filter_eq_self.mpr]
  · simp [results]
  · intro b hb
    obtain ⟨e,-,rfl⟩ := mem_map.mp hb
    exact typeIs_block e

theorem not_user_of_assistant {m : Value} (h : roleIs m "assistant" = true) :
    roleIs m "user" = false := by
  rw [roleIs,decide_eq_true_eq] at h
  simp [roleIs,h]

theorem results_assistant {m : Value} (h : roleIs m "assistant" = true) (l : List Value) :
    results (l ++ [m]) = results l := by
  rw [results_append,results_cons,not_user_of_assistant h]
  simp [results]

structure BatchInv (s : Session Path) (assistant : Value) (batch : List (Entry Path)) : Prop where
  log : LogInv (s.log ++ batch) (s.calls ++ toolUses assistant)
  live : ∀ e ∈ batch, ∀ id, Names e.content id →
    id ∈ (results s.history).filterMap resultId ∨ id ∈ batch.map (·.id)

variable {assistant : Value} {batch : List (Entry Path)}

theorem batchInv_snoc (hinv : Inv s)
    (hnew : ∀ id ∈ callIds (toolUses assistant), id ∉ callIds s.calls)
    (h : BatchInv s assistant batch) (hserial : e.serial = s.log.length + batch.length)
    (hid : e.id ∈ callIds (toolUses assistant)) (hfresh : e.id ∉ batch.map (·.id))
    (hbacked : Backed (s.log ++ batch) (s.calls ++ toolUses assistant) e)
    (hlive : ∀ id, Names e.content id →
      id ∈ (results s.history).filterMap resultId ∨ id ∈ batch.map (·.id)) :
    BatchInv s assistant (batch ++ [e]) where
  log := by
    rw [← append_assoc]
    refine h.log.snoc (by rw [hserial,length_append]) ?_ ?_ hbacked
    · rw [callIds,filterMap_append]
      exact mem_append_right _ hid
    · rw [map_append,mem_append,not_or]
      refine ⟨fun hold => ?_,hfresh⟩
      obtain ⟨e',he',heq⟩ := mem_map.mp hold
      exact hnew _ hid (heq ▸ hinv.called e' he')
  live a ha id hn := by
    rw [map_append,mem_append]
    rcases mem_append.mp ha with ha | ha
    · exact (h.live a ha id hn).imp_right .inl
    · rw [mem_singleton.mp ha] at hn
      exact (hlive id hn).imp_right .inl

theorem inv_round (h : Inv s) (hrole : roleIs assistant "assistant" = true)
    (hbatch : BatchInv s assistant batch) :
    Inv ⟨s.history ++ [assistant,userMessage batch],s.calls ++ toolUses assistant,s.log ++ batch⟩ := by
  have hresults : results (s.history ++ [assistant,userMessage batch]) =
      results s.history ++ batch.map Entry.block := by
    rw [show s.history ++ [assistant,userMessage batch] =
      (s.history ++ [assistant]) ++ [userMessage batch] by simp,results_append,
      results_assistant hrole,results_userMessage]
  have hresultIds : (batch.map Entry.block).filterMap resultId = batch.map (·.id) := by
    rw [filterMap_map,← filterMap_eq_map]
    exact filterMap_congr fun e _ => resultId_of_shows (shows_block e)
  refine ⟨hbatch.log,?_,?_,?_⟩
  · obtain ⟨kept,hkept,hshows⟩ := h.shown
    refine ⟨kept ++ batch,hkept.append (.refl _),?_⟩
    rw [hresults]
    refine rel_append hshows ?_
    rw [forall₂_map_right_iff,forall₂_same]
    exact fun e _ => shows_block e
  · intro b hb id hn
    rw [hresults] at hb ⊢
    rw [filterMap_append,mem_append,hresultIds]
    rcases mem_append.mp hb with hb | hb
    · exact .inl (h.live b hb id hn)
    · obtain ⟨e,he,rfl⟩ := mem_map.mp hb
      have hcontent : e.block.index "content" = e.content := by
        simp [Entry.block,Value.index,Value.get?,lookup]
      exact hbatch.live e he id (hcontent ▸ hn)
  · intro m hm hmrole c hc
    rw [mem_append]
    rcases mem_append.mp hm with hm | hm
    · exact .inl (h.calls m hm hmrole c hc)
    · rcases mem_cons.mp hm with rfl | hm
      · exact .inr hc
      · rw [mem_singleton.mp hm] at hmrole
        simp [roleIs,userMessage,Value.index,Value.get?,lookup] at hmrole

theorem shows_rewriteBlock {b : Value} (h : Shows e b) (retained : List String) :
    Shows e (rewriteBlock retained b) := by
  cases hd : dangling retained b with
  | false => rwa [rewriteBlock_of_not_dangling hd]
  | true =>
    refine ⟨?_,?_,.inr ⟨?_,content_rewriteBlock hd⟩⟩
    · rw [index_rewriteBlock _ _ (by decide),h.id]
    · rw [index_rewriteBlock _ _ (by decide),h.isError]
    · rcases h.content with hc | ⟨hn,-⟩
      · exact hc ▸ names_of_dangling hd
      · exact hn

theorem inv_rollover (h : Inv s) {front kept : List Value}
    (hfront : ∀ m ∈ front, contentBlocks m = []) (hkept : kept.Sublist s.history) :
    Inv { s with history := rewriteDanglingStubs (front ++ kept) } := by
  have hresults : results (rewriteDanglingStubs (front ++ kept)) =
      (results kept).map (rewriteBlock (retainedResults (front ++ kept))) := by
    rw [rewriteDanglingStubs,results_rewrite,results_append,results_eq_nil hfront,nil_append]
  have hretained : retainedResults (front ++ kept) = (results kept).filterMap resultId := by
    rw [retainedResults_eq,results_append,results_eq_nil hfront,nil_append]
  refine ⟨h.toLogInv,?_,?_,?_⟩
  · obtain ⟨shown,hshown,hshows⟩ := h.shown
    obtain ⟨k,hk,hpaired⟩ := exists_sublist_left hshows (results_sublist hkept)
    refine ⟨k,hk.trans hshown,?_⟩
    rw [hresults,forall₂_map_right_iff]
    exact hpaired.imp fun _ _ hb => shows_rewriteBlock hb _
  · intro b hb id hn
    rw [hresults] at hb ⊢
    obtain ⟨b₀,hb₀,rfl⟩ := mem_map.mp hb
    rw [resultIds_rewrite,← hretained]
    cases hd : dangling (retainedResults (front ++ kept)) b₀ with
    | true =>
      rw [content_rewriteBlock hd] at hn
      exact absurd hn (not_names_dropped id)
    | false =>
      rw [rewriteBlock_of_not_dangling hd] at hn
      obtain ⟨text,htext,htarget⟩ := hn
      have htype := (mem_filter.mp hb₀).2
      simpa [dangling,htype,htext,Value.asStr?,htarget] using hd
  · intro m hm hmrole c hc
    obtain ⟨m₀,hm₀,rfl⟩ := mem_map.mp hm
    rw [roleIs_rewriteMessage] at hmrole
    have hsame : rewriteMessage (retainedResults (front ++ kept)) m₀ = m₀ := by
      rw [rewriteMessage,not_user_of_assistant hmrole]
      rfl
    rw [hsame] at hc
    rcases mem_append.mp hm₀ with hm₀ | hm₀
    · rw [toolUses,hfront m₀ hm₀] at hc
      cases hc
    · exact h.calls m₀ (hkept.subset hm₀) hmrole c hc

/-- Every stub of the history names a result before it that is no error and holds what the
stubbed read returned, and that answers a call of the same key. -/
def Truthful (s : Session Path) : Prop :=
  ∀ before b after id, results s.history = before ++ b :: after → Names (b.index "content") id →
    ∃ b' ∈ before, b'.index "tool_use_id" = .string id ∧ b'.index "is_error" ≠ .bool true ∧
      ∃ e ∈ s.log, b.index "tool_use_id" = .string e.id ∧
        ∃ r, e.read = some r ∧ b'.index "content" = r.returned ∧ CallOf s.calls id r

theorem truthful_of_inv (h : Inv s) : Truthful s := by
  intro before b after id hsplit hn
  obtain ⟨kept,hkept,hshows⟩ := h.shown
  rw [hsplit] at hshows
  have hbefore := forall₂_take_append kept before (b :: after) hshows
  have hrest := forall₂_drop_append kept before (b :: after) hshows
  obtain ⟨e,later,he,hafter,hdrop⟩ := forall₂_cons_right_iff.mp hrest
  have hsplit' : kept = kept.take before.length ++ e :: later := by
    rw [← hdrop,take_append_drop]
  have hserials := h.serials.sublist hkept
  rw [hsplit',pairwise_append,pairwise_cons] at hserials
  have hemem : e ∈ kept := by
    rw [hsplit']
    simp
  have hcontent : e.content = b.index "content" := by
    rcases he.content with hc | ⟨-,hc⟩
    · exact hc.symm
    · rw [hc] at hn
      exact absurd hn (not_names_dropped id)
  obtain ⟨e',he',hserial,hid,herror,hplain,r,hr,hreturned,hcall⟩ :=
    h.backed e (hkept.subset hemem) id (hcontent ▸ hn)
  -- The result named is still shown, and the order of the log puts it before the stub.
  have hlive := h.live b (by rw [hsplit]; simp) id hn
  obtain ⟨x,hx,hxid⟩ := mem_filterMap.mp hlive
  rw [hsplit] at hx
  obtain ⟨e'',he'',hshow''⟩ := exists_left_of_mem hshows hx
  have hsame : e'' = e' := by
    refine inj_on_of_nodup_map h.ids (hkept.subset he'') he' ?_
    rw [hid]
    exact Option.some.inj ((resultId_of_shows hshow'').symm.trans hxid)
  rw [hsame,hsplit',mem_append,mem_cons] at he''
  have hfirst : e' ∈ kept.take before.length := by
    rcases he'' with hfirst | rfl | hlater
    · exact hfirst
    · omega
    · have := hserials.2.1.1 e' hlater
      omega
  obtain ⟨b',hb',hshow⟩ := exists_right_of_mem hbefore hfirst
  refine ⟨b',hb',hid ▸ hshow.id,?_,e,hkept.subset hemem,he.id,r,hr,?_,hcall⟩
  · rw [ne_eq,hshow.isError,herror]
    exact Bool.false_ne_true
  · rcases hshow.content with hc | ⟨⟨named,hnamed⟩,-⟩
    · exact hc.trans hreturned
    · exact absurd hnamed (hplain named)

variable [DecidableEq Path]

theorem backed_shaped (hinv : Inv s) (hrole : roleIs assistant "assistant" = true)
    {seen : List (Entry Path)} (hbatch : BatchInv s assistant batch) (hseen : seen.Sublist batch)
    {content : Value} {resolve : String → Path} {shaping : Shaping Path} {wireName named : String}
    (hraw : ∀ named, ¬ Names content named)
    (h : Names (shape resolve shaping (s.history ++ [assistant]) (seen.map Entry.block) wireName
      content).1 named) :
    (∃ e' ∈ s.log ++ batch, e'.serial < s.log.length + batch.length ∧ e'.id = named ∧
      e'.isError = false ∧ (∀ n, ¬ Names e'.content n) ∧
      ∃ r, shaping.readOf resolve wireName content = some r ∧ e'.content = r.returned ∧
        CallOf (s.calls ++ toolUses assistant) named r) ∧
    (named ∈ (results s.history).filterMap resultId ∨ named ∈ batch.map (·.id)) := by
  obtain ⟨key,rfl,hfind⟩ := shape_names hraw h
  obtain ⟨newText,rfl,result,hmem,hresult⟩ := findUnchangedRead_some hfind
  obtain ⟨-,herror,hcontent,hhost,hid,input,hinput,hkey⟩ := redundantWith_some hresult
  rw [isHostText,Bool.or_eq_false_iff,decide_eq_false_iff_not,Option.isSome_eq_false_iff,
    Option.isNone_iff_eq_none] at hhost
  have hplain : ∀ n, ¬ Names (.string newText) n := by
    rintro n ⟨text,htext,htarget⟩
    cases htext
    rw [hhost.2] at htarget
    cases htarget
  have hcall : CallOf (s.calls ++ toolUses assistant) named
      (⟨resolve,wireName,key,.string newText⟩ : Read Path) := by
    obtain ⟨m,hm,hmrole,c,hc,htype,hcid,hname,rfl⟩ := findToolUseInput_some hinput
    refine ⟨c,?_,htype,hcid,hname,hkey⟩
    rcases mem_append.mp hm with hm | hm
    · exact mem_append_left _ (hinv.calls m hm hmrole c hc)
    · rw [mem_singleton.mp hm] at hc
      exact mem_append_right _ hc
  -- The result found is in this round, or in the history and so in the log.
  have hentry : ∃ e' ∈ s.log ++ batch, Shows e' result := by
    rcases hmem with hmem | hmem
    · obtain ⟨e',he',rfl⟩ := mem_map.mp hmem
      have he' := hseen.subset he'
      exact ⟨e',mem_append_right _ he',shows_block e'⟩
    · rw [results_assistant hrole] at hmem
      obtain ⟨kept,hkept,hshows⟩ := hinv.shown
      obtain ⟨e',he',hshow⟩ := exists_left_of_mem hshows hmem
      exact ⟨e',mem_append_left _ (hkept.subset he'),hshow⟩
  obtain ⟨e',he',hshow⟩ := hentry
  have hlt := hbatch.log.bound e' he'
  rw [length_append] at hlt
  have hsame : e'.content = .string newText := by
    rcases hshow.content with hc | ⟨-,hc⟩
    · exact hc.symm.trans hcontent
    · rw [hcontent] at hc
      exact absurd (Value.string.inj hc) hhost.1
  have hids : e'.id = named := Value.string.inj (hshow.id.symm.trans hid)
  refine ⟨⟨e',he',hlt,hids,?_,hsame ▸ hplain,_,rfl,hsame,hcall⟩,?_⟩
  · rw [← Bool.not_eq_true]
    exact fun he => herror (hshow.isError.mpr he)
  · rcases hmem with hmem | hmem
    · right
      obtain ⟨x,hx,rfl⟩ := mem_map.mp hmem
      have hxid : x.id = named := Value.string.inj ((shows_block x).id.symm.trans hid)
      exact hxid ▸ mem_map_of_mem (hseen.subset hx)
    · left
      rw [results_assistant hrole] at hmem
      exact mem_filterMap.mpr ⟨result,hmem,by rw [resultId,hid]; rfl⟩

theorem batchInv_of_batch (hinv : Inv s) (hrole : roleIs assistant "assistant" = true)
    (hnew : ∀ id ∈ callIds (toolUses assistant), id ∉ callIds s.calls)
    (h : Batch (s.history ++ [assistant]) (callIds (toolUses assistant)) s.log.length batch) :
    BatchInv s assistant batch := by
  induction h with
  | nil => exact ⟨(append_nil s.log).symm ▸ hinv.more _,by simp⟩
  | plain _ id content isError hid hfresh hraw ih =>
    exact batchInv_snoc hinv hnew ih rfl hid hfresh (fun named hn => absurd hn (hraw named))
      fun named hn => absurd hn (hraw named)
  | shaped _ id content resolve shaping wireName hid hfresh hraw hseen ih =>
    exact batchInv_snoc hinv hnew ih rfl hid hfresh
      (fun named hn => (backed_shaped hinv hrole ih hseen hraw hn).1)
      fun named hn => (backed_shaped hinv hrole ih hseen hraw hn).2

end Invariant

section Main

variable {Path : Type} [DecidableEq Path]

theorem inv_step (s t : Session Path) (h : Inv s) (hst : Step s t) : Inv t := by
  cases hst with
  | round assistant batch hrole hfresh hbatch =>
    exact inv_round h hrole (batchInv_of_batch h hrole hfresh hbatch)
  | rollover front kept hfront hkept => exact inv_rollover h hfront hkept

/-- In every history that rounds of calls and rollovers make, stubs are truthful; and
rewriting is idempotent and changes nothing but the content of a user's results. -/
theorem stubs_truthful {s : Session Path} (h : Reachable Init Step s) : Truthful s ∧
    (∀ l, rewriteDanglingStubs (rewriteDanglingStubs l) = rewriteDanglingStubs l) ∧
    ∀ l, Forall₂ SameMessage l (rewriteDanglingStubs l) :=
  ⟨truthful_of_inv (h.invariant Inv (fun _ => inv_init) inv_step),rewrite_rewrite,
    sameMessage_rewrite⟩

end Main

def line (n : Nat) : String := String.ofList ('x' :: List.replicate n 'x')

theorem stubTarget_line (n : Nat) : stubTarget (line n) = none :=
  stubTarget_of_head? (by simp [line])

def longText : Value := .string (line 200)

def readCall (id : String) : Value :=
  .object [("role",.string "assistant"),("content",.array [.object [("type",.string "tool_use"),
    ("id",.string id),("name",.string "read"),("input",.object [("path",.string "f")])]])]

def fileKey : ReadKey String := ⟨"f",0,none⟩

def firstRead : Entry String := ⟨0,"a",longText,false,none⟩

def readSession : Session String :=
  ⟨[readCall "a",userMessage [firstRead]],toolUses (readCall "a"),[firstRead]⟩

def secondRead : Entry String :=
  ⟨1,"b",(shape id (.read fileKey) (readSession.history ++ [readCall "b"]) [] "read" longText).1,
    false,some ⟨id,"read",fileKey,longText⟩⟩

def rereadSession : Session String :=
  ⟨readSession.history ++ [readCall "b",userMessage [secondRead]],
    readSession.calls ++ toolUses (readCall "b"),readSession.log ++ [secondRead]⟩

theorem secondRead_content : secondRead.content = .string (unchangedStub "a") := by
  decide +kernel

theorem longText_plain (named : String) : ¬ Names longText named := by
  rintro ⟨text,htext,htarget⟩
  rw [← Value.string.inj htext,stubTarget_line] at htarget
  cases htarget

theorem readSession_reachable : Reachable Init Step readSession :=
  (Reachable.init Init.empty).step (Step.round ⟨[],[],[]⟩ (readCall "a") [firstRead]
    (by decide +kernel) (by decide +kernel)
    (.plain .nil "a" longText false (by decide +kernel) (by simp) longText_plain))

theorem rereadSession_reachable : Reachable Init Step rereadSession :=
  readSession_reachable.step (Step.round readSession (readCall "b") [secondRead]
    (by decide +kernel) (by decide +kernel)
    (@Batch.shaped _ _ _ _ _ [] [] .nil "b" longText id (.read fileKey) "read" (by decide +kernel)
      (by simp) longText_plain .slnil))

/-- The rollover keeps the second read only, whose stub named the first. -/
def rolledSession : Session String :=
  { rereadSession with
    history := rewriteDanglingStubs ([] ++ [readCall "b",userMessage [secondRead]]) }

theorem rolledSession_results :
    (results rolledSession.history).map (·.index "content") = [.string droppedStub] := by
  decide +kernel

theorem stubs_truthful_rolled : secondRead.content = .string (unchangedStub "a") ∧
    (results rolledSession.history).map (·.index "content") = [.string droppedStub] ∧
    Truthful rolledSession := by
  have hreach := rereadSession_reachable.step
    (Step.rollover rereadSession [] [readCall "b",userMessage [secondRead]] (by simp)
      (sublist_append_right _ _))
  exact ⟨secondRead_content,rolledSession_results,(stubs_truthful hreach).1⟩

end Synaps.ReadDedupe
