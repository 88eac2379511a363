import Synaps.Lib.Occurrences
import Synaps.Lib.Outcome
import Synaps.Lib.Utf8
import Synaps.Runtime.History

/-!
Image retention of one request. The history is replayed batch by batch against a
budget; the replay says how many image occurrences, oldest first, the request leaves
out, and `retire` writes a label in their place.
-/

set_option autoImplicit false

namespace Synaps.Images

open Json Occurrences History

def maxOriginalBytes : Nat := 256 * 1024 * 1024

def maxOriginalImages : Nat := 4096

def omittedText : String :=
  "[Image omitted from this request by history retention. Re-read the file if needed.]"

def protectedText : String :=
  "Attachment history cannot fit documents and the current image batch within the request budget"

inductive Budget where
  | native
  | worker
  | routed
  deriving DecidableEq, Repr

structure Limits where
  maxImages : Nat
  maxBytes : Nat
  lowImages : Nat
  lowBytes : Nat
  minChunk : Nat
  native : Bool
  deriving DecidableEq, Repr

def nativeLimits : Limits where
  maxImages := 100
  maxBytes := 20 * 1024 * 1024
  lowImages := 100
  lowBytes := 12 * 1024 * 1024
  minChunk := 40
  native := true

def workerLimits : Limits where
  maxImages := 6
  maxBytes := 4 * 1024 * 1024
  lowImages := 6 / 2
  lowBytes := 4 * 1024 * 1024 / 2
  minChunk := 0
  native := false

def routedLimits : Limits where
  maxImages := 2 ^ 64 - 1
  maxBytes := 20 * 1024 * 1024
  lowImages := 2 ^ 64 - 1
  lowBytes := 12 * 1024 * 1024
  minChunk := 0
  native := false

def Budget.limits : Budget → Limits
  | .native => nativeLimits
  | .worker => workerLimits
  | .routed => routedLimits

structure Retention where
  retired : Nat
  frontier : Option (Nat × Nat)
  deriving DecidableEq, Repr

def isMedia (item : Value) : Bool := typeIs item "image" || typeIs item "document"

def blockMedia (block : Value) : List Value :=
  if isMedia block then [block]
  else if typeIs block "tool_result" then (contentBlocks block).filter isMedia
  else []

def media (blocks : List Value) : List Value := blocks.flatMap blockMedia

/-- The length of the JSON text, unless it is over the limit. -/
def serializedSize (v : Value) (limit : Nat) : Option Nat :=
  let size := (Utf8.encode (print v)).length
  if size ≤ limit then some size else none

def base64Len (block : Value) : Nat :=
  if typeIs (block.index "source") "base64" then
    ((block.index "source").index "data").asStr?.elim 0 (fun s => (Utf8.encode s.toList).length)
  else 0

def prepassVisit (seen : Nat × Nat) (block : Value) : Except String (Nat × Nat) :=
  match serializedSize block (maxOriginalBytes - seen.1) with
  | none => .error "Original attachment history exceeds the 256 MiB resource limit"
  | some size =>
      if typeIs block "image" then
        if seen.2 + 1 > maxOriginalImages then
          .error "Original attachment history exceeds 4096 image occurrences"
        else .ok (seen.1 + size,seen.2 + 1)
      else .ok (seen.1 + size,seen.2)

def resourcePrepass (messages : List Value) : Except String (Nat × Nat) :=
  (messages.flatMap (fun m => media (contentBlocks m))).foldlM prepassVisit (0,0)

/-- Only the native budget looks at the resources first. -/
def prepass (limits : Limits) (messages : List Value) : Except String (Nat × Nat) :=
  if limits.native then resourcePrepass messages else .ok (0,0)

structure Replay where
  sizes : List Nat
  positions : List (Nat × Nat)
  retired : Nat
  retainedBytes : Nat
  documents : Nat
  deriving DecidableEq, Repr

def Replay.empty : Replay := ⟨[],[],0,0,0⟩

def itemSize (limits : Limits) (item : Value) : Except String Nat :=
  if limits.native then
    match serializedSize item maxOriginalBytes with
    | some size => .ok size
    | none => .error "Original attachment exceeds resource limit"
  else .ok (base64Len item)

def Replay.add (limits : Limits) (position : Nat × Nat) (item : Value) (bytes : Nat)
    (s : Replay) : Replay :=
  if typeIs item "image" then
    { s with
      sizes := s.sizes ++ [bytes]
      positions := s.positions ++ [position]
      retainedBytes := s.retainedBytes + bytes }
  else if limits.native then { s with documents := s.documents + bytes }
  else s

def visit (limits : Limits) (position : Nat × Nat) (s : Replay) (item : Value) :
    Except String Replay := do
  let bytes ← itemSize limits item
  return s.add limits position item bytes

def visitBlocks (limits : Limits) (index : Nat) : Nat → List Value → Replay → Except String Replay
  | _, [], s => .ok s
  | blockIndex, block :: rest, s => do
      let s ← (blockMedia block).foldlM (visit limits (index,blockIndex)) s
      visitBlocks limits index (blockIndex+1) rest s

def Replay.over (s : Replay) (images bytes retired retainedBytes : Nat) : Bool :=
  images < s.sizes.length - retired || bytes < s.documents + retainedBytes

def retireWhile (go : Nat → Nat → Bool) : List Nat → Nat → Nat → Nat × Nat
  | [], retired, retainedBytes => (retired,retainedBytes)
  | size :: rest, retired, retainedBytes =>
      if go retired retainedBytes then retireWhile go rest (retired+1) (retainedBytes - size)
      else (retired,retainedBytes)

def Replay.settle (limits : Limits) (batchStart : Nat) (s : Replay) : Except String Replay :=
  let high := s.over limits.maxImages limits.maxBytes
  if !high s.retired s.retainedBytes then .ok s
  else
    let chunkTarget := min (s.retired + limits.minChunk) batchStart
    let older := retireWhile
      (fun retired bytes => retired < chunkTarget ||
        s.over limits.lowImages limits.lowBytes retired bytes)
      ((s.sizes.take batchStart).drop s.retired) s.retired s.retainedBytes
    if !high older.1 older.2 then .ok { s with retired := older.1, retainedBytes := older.2 }
    else if limits.native then .error protectedText
    else
      let all := retireWhile high (s.sizes.drop older.1) older.1 older.2
      .ok { s with retired := all.1, retainedBytes := all.2 }

def batch (limits : Limits) (index : Nat) (message : Value) (s : Replay) : Except String Replay :=
  if roleIs message "user" then do
    let added ← visitBlocks limits index 0 (contentBlocks message) s
    added.settle limits s.sizes.length
  else .ok s

def replayFrom (limits : Limits) (previousEnd : Option Nat) :
    Nat → List Value → Replay × Nat → Except String (Replay × Nat)
  | _, [], state => .ok state
  | index, message :: rest, (s,previousRetired) => do
      let previous := if some index = previousEnd then s.retired else previousRetired
      let s ← batch limits index message s
      replayFrom limits previousEnd (index+1) rest (s,previous)

def planRequest (messages : List Value) (budget : Budget) : Except String Retention := do
  let limits := budget.limits
  let _ ← prepass limits messages
  let previousEnd := rposition (fun m => roleIs m "assistant") messages
  let (s,previousRetired) ← replayFrom limits previousEnd 0 messages (Replay.empty,0)
  return ⟨s.retired,s.positions[previousRetired]?⟩

def omitted : Value := .object [("text",.string omittedText),("type",.string "text")]

def retireOne (retired : Nat) (block : Value) (occurrence : Nat) : Value × Nat :=
  (if occurrence < retired then omitted else block,occurrence + 1)

def retireItems (retired : Nat) : List Value → Nat → List Value × Nat
  | [], occurrence => ([],occurrence)
  | item :: rest, occurrence =>
      let one := if typeIs item "image" then retireOne retired item occurrence else (item,occurrence)
      let more := retireItems retired rest one.2
      (one.1 :: more.1,more.2)

/-- The nested content is reached through the mutable index, which leaves a `null`
behind in a tool result that has no content. -/
def retireBlock (retired : Nat) (block : Value) (occurrence : Nat) : Value × Nat :=
  if typeIs block "image" then retireOne retired block occurrence
  else if typeIs block "tool_result" then
    let block := block.indexMut "content"
    match (block.index "content").asArray? with
    | some nested =>
        let items := retireItems retired nested occurrence
        (block.set "content" (.array items.1),items.2)
    | none => (block,occurrence)
  else (block,occurrence)

def retireBlocks (retired : Nat) : List Value → Nat → List Value × Nat
  | [], occurrence => ([],occurrence)
  | block :: rest, occurrence =>
      let one := retireBlock retired block occurrence
      let more := retireBlocks retired rest one.2
      (one.1 :: more.1,more.2)

def hasImage (message : Value) : Bool :=
  (media (contentBlocks message)).any (fun b => typeIs b "image")

def retireMessage (retired : Nat) (message : Value) (occurrence : Nat) : Value × Nat :=
  if !roleIs message "user" || !hasImage message then (message,occurrence)
  else
    let blocks := retireBlocks retired (contentBlocks message) occurrence
    (message.set "content" (.array blocks.1),blocks.2)

def retireFrom (retired : Nat) : List Value → Nat → List Value
  | [], _ => []
  | message :: rest, occurrence =>
      if retired ≤ occurrence then message :: rest
      else
        let one := retireMessage retired message occurrence
        one.1 :: retireFrom retired rest one.2

def retire (messages : List Value) (retired : Nat) : List Value := retireFrom retired messages 0

def blockImages (block : Value) : List Value := (blockMedia block).filter (fun b => typeIs b "image")

def messageImages (message : Value) : List Value :=
  if roleIs message "user" then (contentBlocks message).flatMap blockImages else []

def images (messages : List Value) : List Value := messages.flatMap messageImages

def messageDocuments (message : Value) : List Value :=
  if roleIs message "user" then
    (media (contentBlocks message)).filter (fun b => !typeIs b "image")
  else []

def documents (messages : List Value) : List Value := messages.flatMap messageDocuments

def itemImages (item : Value) : List Value := if typeIs item "image" then [item] else []

/-- A block with its image occurrences below `n` replaced, `k` occurrences being before
it, and nothing else touched. -/
def replaceItem (n k : Nat) (item : Value) : Value :=
  if typeIs item "image" ∧ k < n then omitted else item

def replaceBlock (n k : Nat) (block : Value) : Value :=
  if typeIs block "tool_result" then
    match (block.index "content").asArray? with
    | some nested => block.set "content" (.array (counted itemImages (replaceItem n) k nested))
    | none => block
  else replaceItem n k block

def replaceMessage (n k : Nat) (message : Value) : Value :=
  if roleIs message "user" then
    match (message.index "content").asArray? with
    | some blocks => message.set "content" (.array (counted blockImages (replaceBlock n) k blocks))
    | none => message
  else message

def replaceImages (n : Nat) (messages : List Value) : List Value :=
  counted messageImages (replaceMessage n) 0 messages

def bare (block : Value) : Bool := typeIs block "tool_result" && (block.get? "content").isNone

/-- No message that carries an image, and has fewer than `n` images before it, holds a
tool result without a `content` key. -/
def Intact (n : Nat) (messages : List Value) : Prop :=
  ∀ j m, messages[j]? = some m → (images (messages.take j)).length < n →
    roleIs m "user" = true → hasImage m = true → (contentBlocks m).any bare = false

variable {b : Value} {t : String}

theorem typeIs_unique {s : String} (hs : typeIs b s = true) (ht : typeIs b t = true) : s = t := by
  simp only [typeIs,decide_eq_true_eq] at hs ht
  simpa [hs] using ht

theorem typeIs_ne {s : String} (hs : typeIs b s = true) (h : s ≠ t) : typeIs b t = false := by
  by_contra ht
  exact h (typeIs_unique hs (by simpa using ht))

@[simp] theorem typeIs_set {x : Value} : typeIs (b.set "content" x) t = typeIs b t := by
  simp [typeIs]

variable {m : Value}

@[simp] theorem roleIs_set {x : Value} {r : String} :
    roleIs (m.set "content" x) r = roleIs m r := by
  simp [roleIs]

variable {v : Value} {xs : List Value}

theorem contentBlocks_of_get? (h : v.get? "content" = some (.array xs)) : contentBlocks v = xs := by
  simp [contentBlocks,Value.index,h,Value.asArray?]

theorem get?_of_asArray? (h : (v.index "content").asArray? = some xs) :
    v.get? "content" = some (.array xs) :=
  Value.get?_of_index (Value.asArray?_eq_some h) (by simp)

variable {ys : List Value}

theorem contentBlocks_set (h : v.get? "content" = some (.array xs)) :
    contentBlocks (v.set "content" (.array ys)) = ys :=
  contentBlocks_of_get? (Value.get?_set _ h)

theorem get?_content (h : contentBlocks v ≠ []) :
    v.get? "content" = some (.array (contentBlocks v)) := by
  unfold contentBlocks at h ⊢
  cases ha : (v.index "content").asArray? with
  | none => simp [ha] at h
  | some xs => exact get?_of_asArray? ha

theorem blockImages_image (h : typeIs b "image" = true) : blockImages b = [b] := by
  simp [blockImages,blockMedia,isMedia,h]

theorem filter_media (xs : List Value) :
    (xs.filter isMedia).filter (fun b => typeIs b "image") = xs.flatMap itemImages := by
  induction xs with
  | nil => rfl
  | cons x xs ih =>
    by_cases hx : typeIs x "image" = true
    · simp [isMedia,hx,itemImages,ih]
    · by_cases hd : typeIs x "document" = true <;> simp [isMedia,hx,hd,itemImages,ih]

theorem blockMedia_toolResult (h : typeIs b "tool_result" = true) :
    blockMedia b = (contentBlocks b).filter isMedia := by
  have hi : typeIs b "image" = false := typeIs_ne h (by decide)
  have hd : typeIs b "document" = false := typeIs_ne h (by decide)
  simp only [blockMedia,isMedia,hi,hd,Bool.or_self,h,Bool.false_eq_true,if_false,if_true]

theorem blockImages_toolResult (h : typeIs b "tool_result" = true) :
    blockImages b = (contentBlocks b).flatMap itemImages := by
  rw [blockImages,blockMedia_toolResult h,filter_media]

theorem blockImages_other (hi : typeIs b "image" = false) (ht : typeIs b "tool_result" = false) :
    blockImages b = [] := by
  by_cases hd : typeIs b "document" = true <;>
    simp [blockImages,blockMedia,isMedia,hi,hd,ht]

variable (n : Nat)

theorem retireItems_eq (xs : List Value) (k : Nat) : retireItems n xs k =
      (counted itemImages (replaceItem n) k xs,k + (xs.flatMap itemImages).length) := by
  induction xs generalizing k with
  | nil => rfl
  | cons x xs ih =>
    by_cases hx : typeIs x "image" = true
    · simp only [retireItems,hx,if_true,retireOne,ih,counted,itemImages,replaceItem,
        List.flatMap_cons,List.length_append,List.length_singleton,true_and]
      simp only [Nat.add_assoc]
    · simp [retireItems,hx,ih,counted,itemImages,replaceItem]

/-- What `retire` makes of a block with `k` occurrences before it. -/
def retiredBlock (n k : Nat) (block : Value) : Value :=
  if bare block then block.indexMut "content" else replaceBlock n k block

theorem retireBlock_eq (b : Value) (k : Nat) :
    retireBlock n b k = (retiredBlock n k b,k + (blockImages b).length) := by
  by_cases hi : typeIs b "image" = true
  · have ht : typeIs b "tool_result" = false := typeIs_ne hi (by decide)
    simp [retireBlock,retiredBlock,bare,replaceBlock,replaceItem,retireOne,hi,ht,
      blockImages_image hi]
  · by_cases ht : typeIs b "tool_result" = true
    · cases hc : b.get? "content" with
      | none =>
        have hn : b.index "content" = .null := by simp [Value.index,hc]
        simp [retireBlock,retiredBlock,bare,hi,ht,hc,hn,Value.asArray?,
          blockImages_toolResult ht,contentBlocks]
      | some c =>
        have hx : b.index "content" = c := by simp [Value.index,hc]
        simp only [retireBlock,retiredBlock,bare,replaceBlock,hi,ht,hc,hx,
          Value.indexMut_of_get? hc,blockImages_toolResult ht,contentBlocks,if_true,
          Option.isNone_some,Bool.and_false,Bool.false_eq_true,if_false]
        cases ha : c.asArray? with
        | none => simp
        | some nested => simp [retireItems_eq]
    · simp only [Bool.not_eq_true] at hi ht
      simp [retireBlock,retiredBlock,bare,replaceBlock,replaceItem,hi,ht,blockImages_other hi ht]

theorem retireBlocks_eq (xs : List Value) (k : Nat) : retireBlocks n xs k =
      (counted blockImages (retiredBlock n) k xs,k + (xs.flatMap blockImages).length) := by
  induction xs generalizing k with
  | nil => rfl
  | cons x xs ih =>
    simp [retireBlocks,retireBlock_eq,ih,counted,Nat.add_assoc]

/-- What `retire` makes of a message with `k` occurrences before it. -/
def retiredMessage (n k : Nat) (message : Value) : Value :=
  if roleIs message "user" ∧ hasImage message ∧ k < n then
    message.set "content" (.array (counted blockImages (retiredBlock n) k (contentBlocks message)))
  else message

theorem hasImage_iff (m : Value) :
    hasImage m = true ↔ (contentBlocks m).flatMap blockImages ≠ [] := by
  simp [hasImage,media,blockImages]

theorem contentBlocks_ne_nil (h : hasImage m = true) : contentBlocks m ≠ [] := by
  intro hc
  exact (hasImage_iff m).mp h (by simp [hc])

theorem messageImages_eq_nil (h : ¬(roleIs m "user" = true ∧ hasImage m = true)) :
    messageImages m = [] := by
  by_cases hu : roleIs m "user" = true
  · have hi : ¬hasImage m = true := fun hi => h ⟨hu,hi⟩
    rw [hasImage_iff,not_not] at hi
    simp [messageImages,hu,hi]
  · simp [messageImages,hu]

variable {k : Nat}

theorem retireMessage_eq {n : Nat} (h : k < n) (m : Value) :
    retireMessage n m k = (retiredMessage n k m,k + (messageImages m).length) := by
  by_cases hm : roleIs m "user" = true ∧ hasImage m = true
  · simp [retireMessage,retiredMessage,messageImages,hm.1,hm.2,h,retireBlocks_eq]
  · rw [messageImages_eq_nil hm]
    have hn : ¬(roleIs m "user" = true ∧ hasImage m = true ∧ k < n) := fun h => hm ⟨h.1,h.2.1⟩
    have hor : (!roleIs m "user" || !hasImage m) = true := by
      simpa [or_iff_not_imp_left] using hm
    simp [retireMessage,retiredMessage,hor,hn]

theorem retireFrom_eq (xs : List Value) (k : Nat) :
    retireFrom n xs k = counted messageImages (retiredMessage n) k xs := by
  induction xs generalizing k with
  | nil => rfl
  | cons m xs ih =>
    by_cases hk : n ≤ k
    · rw [counted_id (fun j hj m _ => by simp [retiredMessage,show ¬j < n by omega])]
      simp [retireFrom,hk]
    · simp [retireFrom,hk,retireMessage_eq (show k < n by omega),ih,counted]

variable (messages : List Value)

theorem retire_eq (n : Nat) :
    retire messages n = counted messageImages (retiredMessage n) 0 messages :=
  retireFrom_eq n messages 0

theorem retire_getElem? (n j : Nat) : (retire messages n)[j]? =
      messages[j]?.map (retiredMessage n (images (messages.take j)).length) := by
  rw [retire_eq,counted_getElem?,Nat.zero_add]
  rfl

@[simp] theorem typeIs_omitted (t : String) : typeIs omitted t = decide (t = "text") := by
  by_cases ht : t = "text"
  · subst ht; decide
  · simp [typeIs,omitted,Value.index,Value.get?,lookup,ht,Ne.symm ht]

theorem itemImages_replaceItem (k : Nat) (x : Value) :
    itemImages (replaceItem n k x) = (itemImages x).drop (n - k) := by
  by_cases hx : typeIs x "image" = true
  · by_cases hk : k < n
    · obtain ⟨d,hd⟩ : ∃ d, n - k = d + 1 := ⟨n - k - 1,by omega⟩
      simp [replaceItem,itemImages,hx,hk,hd]
    · simp [replaceItem,itemImages,hx,hk,show n - k = 0 by omega]
  · simp [replaceItem,itemImages,hx]

theorem typeIs_indexMut : typeIs (b.indexMut "content") t = typeIs b t := by
  simp [typeIs]

theorem contentBlocks_indexMut (b : Value) :
    contentBlocks (b.indexMut "content") = contentBlocks b := by
  simp [contentBlocks]

theorem contentBlocks_bare (h : bare b = true) : contentBlocks b = [] := by
  have hn : b.get? "content" = none := by
    simp only [bare,Bool.and_eq_true,Option.isNone_iff_eq_none] at h
    exact h.2
  simp [contentBlocks,Value.index,hn,Value.asArray?]

theorem retiredBlock_cases (k : Nat) (b : Value) :
    (typeIs b "image" = true ∧ retiredBlock n k b = replaceItem n k b) ∨
    (typeIs b "tool_result" = true ∧ typeIs (retiredBlock n k b) "tool_result" = true ∧
      contentBlocks (retiredBlock n k b) = counted itemImages (replaceItem n) k (contentBlocks b)) ∨
    (blockImages b = [] ∧ retiredBlock n k b = b) := by
  by_cases ht : typeIs b "tool_result" = true
  · cases hc : b.get? "content" with
    | none =>
      have hb : bare b = true := by simp [bare,ht,hc]
      refine .inr (.inl ⟨ht,?_⟩)
      rw [retiredBlock,if_pos hb,typeIs_indexMut,contentBlocks_indexMut,contentBlocks_bare hb]
      exact ⟨ht,rfl⟩
    | some c =>
      have hx : b.index "content" = c := by simp [Value.index,hc]
      cases ha : c.asArray? with
      | none =>
        refine .inr (.inr ⟨?_,?_⟩)
        · simp [blockImages_toolResult ht,contentBlocks,hx,ha]
        · simp [retiredBlock,bare,replaceBlock,ht,hc,hx,ha]
      | some xs =>
        have hr : retiredBlock n k b =
            b.set "content" (.array (counted itemImages (replaceItem n) k xs)) := by
          simp [retiredBlock,bare,replaceBlock,ht,hc,hx,ha]
        rw [Value.asArray?_eq_some ha] at hc
        rw [hr,typeIs_set,contentBlocks_set hc,contentBlocks_of_get? hc]
        exact .inr (.inl ⟨ht,ht,rfl⟩)
  · simp only [Bool.not_eq_true] at ht
    by_cases hi : typeIs b "image" = true
    · exact .inl ⟨hi,by simp [retiredBlock,bare,replaceBlock,ht]⟩
    · simp only [Bool.not_eq_true] at hi
      refine .inr (.inr ⟨blockImages_other hi ht,?_⟩)
      simp [retiredBlock,bare,replaceBlock,replaceItem,hi,ht]

theorem blockImages_retiredBlock (k : Nat) (b : Value) :
    blockImages (retiredBlock n k b) = (blockImages b).drop (n - k) := by
  rcases retiredBlock_cases n k b with ⟨hi,hr⟩ | ⟨ht,ht',hc⟩ | ⟨hn,hr⟩
  · have hd := itemImages_replaceItem n k b
    rw [hr,blockImages_image hi]
    simp only [itemImages,hi,if_true] at hd
    rw [← hd]
    by_cases hk : typeIs (replaceItem n k b) "image" = true
    · simp [blockImages_image hk,hk]
    have ho : replaceItem n k b = omitted := by
      by_contra ho
      simp only [replaceItem,hi,true_and] at hk ho
      split at hk <;> simp_all
    rw [ho]
    decide
  · rw [blockImages_toolResult ht',blockImages_toolResult ht,hc]
    exact flatMap_counted_drop itemImages _ (itemImages_replaceItem n) _ k
  · rw [hr,hn]
    simp

theorem messageImages_retiredMessage (k : Nat) (m : Value) :
    messageImages (retiredMessage n k m) = (messageImages m).drop (n - k) := by
  by_cases h : roleIs m "user" = true ∧ hasImage m = true ∧ k < n
  · have hc := contentBlocks_ne_nil h.2.1
    rw [retiredMessage,if_pos h]
    simp only [messageImages,roleIs_set,h.1,if_true,contentBlocks_set (get?_content hc)]
    exact flatMap_counted_drop blockImages _ (blockImages_retiredBlock n) _ k
  · rw [retiredMessage,if_neg h]
    by_cases hk : k < n
    · rw [messageImages_eq_nil (fun hm => h ⟨hm.1,hm.2,hk⟩)]
      simp
    · simp [show n - k = 0 by omega]

theorem images_retire (n : Nat) : images (retire messages n) = (images messages).drop n := by
  rw [retire_eq]
  exact flatMap_counted_drop messageImages _ (messageImages_retiredMessage n) messages 0

def itemDocuments (item : Value) : List Value :=
  if isMedia item && !typeIs item "image" then [item] else []

def blockDocuments (block : Value) : List Value :=
  (blockMedia block).filter (fun b => !typeIs b "image")

theorem filter_documents (xs : List Value) :
    (xs.filter isMedia).filter (fun b => !typeIs b "image") = xs.flatMap itemDocuments := by
  induction xs with
  | nil => rfl
  | cons x xs ih =>
    by_cases hx : typeIs x "image" = true
    · simp [isMedia,hx,itemDocuments,ih]
    · by_cases hd : typeIs x "document" = true <;> simp [isMedia,hx,hd,itemDocuments,ih]

theorem blockDocuments_toolResult (h : typeIs b "tool_result" = true) :
    blockDocuments b = (contentBlocks b).flatMap itemDocuments := by
  rw [blockDocuments,blockMedia_toolResult h,filter_documents]

theorem itemDocuments_replaceItem (k : Nat) (x : Value) :
    itemDocuments (replaceItem n k x) = itemDocuments x := by
  by_cases hx : typeIs x "image" = true ∧ k < n
  · simp [replaceItem,hx,itemDocuments,isMedia]
  · simp [replaceItem,hx]

theorem blockDocuments_retiredBlock (k : Nat) (b : Value) :
    blockDocuments (retiredBlock n k b) = blockDocuments b := by
  rcases retiredBlock_cases n k b with ⟨hi,hr⟩ | ⟨ht,ht',hc⟩ | ⟨hn,hr⟩
  · rw [hr]
    by_cases hk : k < n
    · simp [replaceItem,hi,hk,blockDocuments,blockMedia,isMedia]
    · simp [replaceItem,hk]
  · rw [blockDocuments_toolResult ht',blockDocuments_toolResult ht,hc]
    exact flatMap_counted_same itemImages _ (itemDocuments_replaceItem n) _ k
  · rw [hr]

theorem messageDocuments_eq (h : roleIs m "user" = true) :
    messageDocuments m = (contentBlocks m).flatMap blockDocuments := by
  rw [messageDocuments,if_pos h,media,List.filter_flatMap]
  rfl

theorem messageDocuments_retiredMessage (k : Nat) (m : Value) :
    messageDocuments (retiredMessage n k m) = messageDocuments m := by
  by_cases h : roleIs m "user" = true ∧ hasImage m = true ∧ k < n
  · have hc := contentBlocks_ne_nil h.2.1
    rw [retiredMessage,if_pos h,messageDocuments_eq h.1,messageDocuments_eq (by simpa using h.1),
      contentBlocks_set (get?_content hc)]
    exact flatMap_counted_same blockImages _ (blockDocuments_retiredBlock n) _ k
  · rw [retiredMessage,if_neg h]

theorem documents_retire (n : Nat) : documents (retire messages n) = documents messages := by
  rw [retire_eq]
  exact flatMap_counted_same messageImages _ (messageDocuments_retiredMessage n) messages 0

theorem replaceItem_of_le {n : Nat} (h : n ≤ k) (x : Value) : replaceItem n k x = x := by
  simp [replaceItem,show ¬k < n by omega]

theorem replaceItem_of_none {n : Nat} {x : Value} (h : itemImages x = []) :
    replaceItem n k x = x := by
  have hx : ¬typeIs x "image" = true := by
    intro hx
    simp [itemImages,hx] at h
  simp [replaceItem,hx]

theorem set_same (h : v.get? "content" = some (.array xs)) (he : ys = xs) :
    v.set "content" (.array ys) = v := by
  rw [he]
  exact Value.set_get? h

theorem replaceBlock_kept {n : Nat} (h : n ≤ k ∨ blockImages b = []) : replaceBlock n k b = b := by
  unfold replaceBlock
  split
  · rename_i ht
    split
    · rename_i xs ha
      refine set_same (get?_of_asArray? ha) (counted_id (fun j hj x hx => ?_))
      rcases h with h | h
      · exact replaceItem_of_le (by omega) x
      · rw [blockImages_toolResult ht,List.flatMap_eq_nil_iff,
          contentBlocks_of_get? (get?_of_asArray? ha)] at h
        exact replaceItem_of_none (h x hx)
    · rfl
  · rcases h with h | h
    · exact replaceItem_of_le h b
    · have hi : ¬typeIs b "image" = true := by
        intro hi
        simp [blockImages_image hi] at h
      simp [replaceItem,hi]

theorem replaceMessage_kept {n : Nat} (h : n ≤ k ∨ messageImages m = []) :
    replaceMessage n k m = m := by
  unfold replaceMessage
  split
  · rename_i hu
    split
    · rename_i xs ha
      refine set_same (get?_of_asArray? ha) (counted_id (fun j hj b hb => replaceBlock_kept ?_))
      rcases h with h | h
      · exact .inl (by omega)
      · rw [messageImages,if_pos hu,List.flatMap_eq_nil_iff,
          contentBlocks_of_get? (get?_of_asArray? ha)] at h
        exact .inr (h b hb)
    · rfl
  · rfl

theorem retiredBlock_eq_iff (k : Nat) (b : Value) :
    retiredBlock n k b = replaceBlock n k b ↔ bare b = false := by
  constructor
  · intro h
    by_contra hb
    simp only [Bool.not_eq_false] at hb
    have hn : b.get? "content" = none ∧ typeIs b "tool_result" = true := by
      simpa [bare,and_comm] using hb
    have hr : replaceBlock n k b = b :=
      replaceBlock_kept (.inr (by rw [blockImages_toolResult hn.2,contentBlocks_bare hb]; rfl))
    rw [hr,retiredBlock,if_pos hb] at h
    have hg : (b.indexMut "content").get? "content" = none := by rw [h]; exact hn.1
    cases b with
    | object kvs =>
      unfold Value.indexMut at hg
      rw [hn.1] at hg
      simp [Value.insert,Value.get?,lookup_insertEntry] at hg
    | null | bool _ | number _ | string _ | array _ =>
      simp [typeIs,Value.index,Value.get?] at hn
  · intro hb
    simp [retiredBlock,hb]

theorem set_inj {w : Value} (h : v.get? "content" = some w) :
    v.set "content" (.array xs) = v.set "content" (.array ys) ↔ xs = ys := by
  constructor
  · intro he
    have hg := congrArg (fun u => u.get? "content") he
    simpa [Value.get?_set _ h] using hg
  · rintro rfl
    rfl

theorem retiredMessage_eq_iff {n : Nat} (m : Value) : retiredMessage n k m = replaceMessage n k m ↔
      (k < n → roleIs m "user" = true → hasImage m = true →
        (contentBlocks m).any bare = false) := by
  by_cases h : roleIs m "user" = true ∧ hasImage m = true ∧ k < n
  · have hc := contentBlocks_ne_nil h.2.1
    have ha : (m.index "content").asArray? = some (contentBlocks m) := by
      simp [Value.index,get?_content hc,Value.asArray?]
    have hr : replaceMessage n k m = m.set "content"
        (.array (counted blockImages (replaceBlock n) k (contentBlocks m))) := by
      simp [replaceMessage,h.1,ha]
    rw [retiredMessage,if_pos h,hr,set_inj (get?_content hc),counted_eq_iff]
    simp only [retiredBlock_eq_iff,h.1,h.2.1,h.2.2,true_implies,List.any_eq_false]
    constructor
    · intro hb b hm
      obtain ⟨i,hi⟩ := List.mem_iff_getElem?.mp hm
      simp [hb i b hi]
    · intro hb i b hi
      simpa using hb b (List.mem_of_getElem? hi)
  · have hn : n ≤ k ∨ messageImages m = [] := by
      by_cases hk : k < n
      · exact .inr (messageImages_eq_nil (fun hm => h ⟨hm.1,hm.2,hk⟩))
      · exact .inl (by omega)
    rw [retiredMessage,if_neg h,replaceMessage_kept hn]
    exact iff_of_true rfl (fun hk hu hi => absurd ⟨hu,hi,hk⟩ h)

theorem retire_eq_replace_iff (n : Nat) :
    retire messages n = replaceImages n messages ↔ Intact n messages := by
  rw [retire_eq,replaceImages,counted_eq_iff]
  simp only [retiredMessage_eq_iff,Nat.zero_add]
  rfl

end Synaps.Images
