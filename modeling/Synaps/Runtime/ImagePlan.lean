import Synaps.Runtime.ImageRetention

/-!
The replay of a history against a budget: after every batch the images that are left fit it. Of
two requests in a row the later one retires at least as much, and up to the oldest image that the
earlier one still sent their views are compared block by block.
-/

set_option autoImplicit false

namespace Synaps.Images

open Json Occurrences Outcome History List

def bytes (limits : Limits) (item : Value) : Nat :=
  if limits.native then (Utf8.encode (print item)).length else base64Len item

def imageBytes (limits : Limits) (items : List Value) : Nat := (items.map (bytes limits)).sum

def documentBytes (limits : Limits) (items : List Value) : Nat :=
  if limits.native then (items.map (bytes limits)).sum else 0

def blockPositions (index start : Nat) (blocks : List Value) : List (Nat × Nat) :=
  (blocks.zipIdx start).flatMap (fun b => (blockImages b.1).map (fun _ => (index,b.2)))

def messagePositions (index : Nat) (message : Value) : List (Nat × Nat) :=
  if roleIs message "user" then blockPositions index 0 (contentBlocks message) else []

def imagePositions (messages : List Value) : List (Nat × Nat) :=
  messages.zipIdx.flatMap (fun m => messagePositions m.2 m.1)

variable {limits : Limits}

theorem itemSize_ok {item : Value} {n : Nat} (h : itemSize limits item = .ok n) :
    n = bytes limits item := by
  by_cases hn : limits.native = true
  · simp only [itemSize,hn,if_true,serializedSize] at h
    split at h
    · rename_i size hs
      cases h
      split at hs
      · simpa [bytes,hn] using hs.symm
      · simp at hs
    · simp at h
  · simp only [itemSize,hn,Bool.false_eq_true,if_false] at h
    cases h
    simp [bytes,hn]

theorem itemSize_embedded (h : limits.native = false) (item : Value) :
    itemSize limits item = .ok (bytes limits item) := by
  simp [itemSize,bytes,h]

structure Added (limits : Limits) (imgs docs : List Value) (at_ : List (Nat × Nat))
    (s t : Replay) : Prop where
  sizes : t.sizes = s.sizes ++ imgs.map (bytes limits)
  positions : t.positions = s.positions ++ at_
  retired : t.retired = s.retired
  retained : t.retainedBytes = s.retainedBytes + imageBytes limits imgs
  documents : t.documents = s.documents + documentBytes limits docs

theorem Added.none (limits : Limits) (s : Replay) : Added limits [] [] [] s s := by
  constructor <;> simp [imageBytes,documentBytes]

variable {s t : Replay}

theorem Added.trans {is js ds es : List Value} {ps qs : List (Nat × Nat)} {u : Replay}
    (h : Added limits is ds ps s t) (h' : Added limits js es qs t u) :
    Added limits (is ++ js) (ds ++ es) (ps ++ qs) s u := by
  constructor
  · simp [h'.sizes,h.sizes]
  · simp [h'.positions,h.positions]
  · rw [h'.retired,h.retired]
  · simp [h'.retained,h.retained,imageBytes,Nat.add_assoc]
  · rw [h'.documents,h.documents,documentBytes,documentBytes,documentBytes]
    split <;> simp [Nat.add_assoc]

theorem add_added (limits : Limits) (position : Nat × Nat) (item : Value) (s : Replay) :
    Added limits ([item].filter (fun b => typeIs b "image"))
      ([item].filter (fun b => !typeIs b "image"))
      (([item].filter (fun b => typeIs b "image")).map (fun _ => position)) s
      (s.add limits position item (bytes limits item)) := by
  by_cases hi : typeIs item "image" = true
  · constructor <;> simp [Replay.add,hi,imageBytes,documentBytes]
  · by_cases hn : limits.native = true <;>
      constructor <;> simp [Replay.add,hi,hn,imageBytes,documentBytes]

theorem visit_added {position : Nat × Nat} {items : List Value}
    (h : items.foldlM (visit limits position) s = .ok t) :
    Added limits (items.filter (fun b => typeIs b "image"))
      (items.filter (fun b => !typeIs b "image"))
      ((items.filter (fun b => typeIs b "image")).map (fun _ => position)) s t := by
  induction items generalizing s with
  | nil =>
    obtain rfl := Except.ok.inj h
    exact Added.none limits s
  | cons item items ih =>
    rw [foldlM_cons] at h
    obtain ⟨u,hu,ht⟩ := bind_ok h
    obtain ⟨size,hs,hr⟩ := bind_ok hu
    obtain rfl := itemSize_ok hs
    obtain rfl := Except.ok.inj hr
    have ha := (add_added limits position item s).trans (ih ht)
    simpa only [← filter_append,← map_append,singleton_append] using ha

theorem visitBlocks_added {index start : Nat} {blocks : List Value}
    (h : visitBlocks limits index start blocks s = .ok t) :
    Added limits (blocks.flatMap blockImages) (blocks.flatMap blockDocuments)
      (blockPositions index start blocks) s t := by
  induction blocks generalizing start s with
  | nil =>
    obtain rfl := Except.ok.inj h
    exact Added.none limits s
  | cons block blocks ih =>
    obtain ⟨u,hu,ht⟩ := bind_ok h
    exact (visit_added hu).trans (ih ht)

theorem visitBlocks_embedded (hn : limits.native = false) (index start : Nat)
    (blocks : List Value) (s : Replay) : ∃ t, visitBlocks limits index start blocks s = .ok t := by
  induction blocks generalizing start s with
  | nil => exact ⟨s,rfl⟩
  | cons block blocks ih =>
    have hm (items : List Value) (s : Replay) :
        ∃ t, items.foldlM (visit limits (index,start)) s = .ok t := by
      induction items generalizing s with
      | nil => exact ⟨s,rfl⟩
      | cons item items ih =>
        simp only [foldlM_cons,visit,itemSize_embedded hn]
        exact ih _
    obtain ⟨u,hu⟩ := hm (blockMedia block) s
    obtain ⟨t,ht⟩ := ih (start+1) u
    exact ⟨t,by rw [visitBlocks,hu]; exact ht⟩

theorem retireWhile_spec (go : Nat → Nat → Bool) {sizes xs rest : List Nat} {r : Nat}
    (h : sizes.drop r = xs ++ rest) :
    ∃ r', retireWhile go xs r (sizes.drop r).sum = (r',(sizes.drop r').sum) ∧ r ≤ r' ∧
      r' ≤ r + xs.length ∧ (r' = r + xs.length ∨ go r' (sizes.drop r').sum = false) := by
  induction xs generalizing r with
  | nil => exact ⟨r,by simp [retireWhile]⟩
  | cons x xs ih =>
    by_cases hg : go r (sizes.drop r).sum = true
    · have hd : sizes.drop (r+1) = xs ++ rest := by
        rw [← drop_drop,h]
        rfl
      obtain ⟨r',hr,hle,hle',hstop⟩ := ih hd
      have hs : (sizes.drop r).sum - x = (sizes.drop (r+1)).sum := by
        rw [h,hd]
        simp
      refine ⟨r',?_,by omega,by simp; omega,?_⟩
      · rw [retireWhile,if_pos hg,hs,hr]
      · rcases hstop with hstop | hstop
        · exact .inl (by simp; omega)
        · exact .inr hstop
    · exact ⟨r,by simp [retireWhile,hg],by simp,by simp,.inr (by simpa using hg)⟩

/-- The bytes are those of the images that are not retired. -/
structure Counts (s : Replay) : Prop where
  bytes : s.retainedBytes = (s.sizes.drop s.retired).sum
  bound : s.retired ≤ s.sizes.length

def Replay.retireTo (s : Replay) (r : Nat) : Replay :=
  { s with retired := r, retainedBytes := (s.sizes.drop r).sum }

def Replay.fits (s : Replay) (limits : Limits) : Prop :=
  s.over limits.maxImages limits.maxBytes s.retired s.retainedBytes = false

/-- A batch is settled by retiring up to some count, within the older images for the
native budget, or refused by the native budget. -/
theorem settle_cases (limits : Limits) {start : Nat} (hc : Counts s) (hs : s.retired ≤ start)
    (hl : start ≤ s.sizes.length) (hd : limits.native = false → s.documents = 0) :
    (∃ r, s.settle limits start = .ok (s.retireTo r) ∧ s.retired ≤ r ∧ r ≤ s.sizes.length ∧
      (limits.native = true → r ≤ start) ∧ (s.retireTo r).fits limits) ∨
    (limits.native = true ∧ s.settle limits start = .error protectedText) := by
  unfold Replay.settle
  simp only [hc.bytes]
  split
  · rename_i hf
    refine .inl ⟨s.retired,?_,le_rfl,hc.bound,fun _ => hs,?_⟩
    · rw [Replay.retireTo,← hc.bytes]
    · exact (Bool.not_eq_true' _).mp hf
  · have hsplit : s.sizes.drop s.retired =
        (s.sizes.take start).drop s.retired ++ s.sizes.drop start := by
      conv_lhs => rw [← take_append_drop start s.sizes]
      rw [drop_append_of_le_length (by simp; omega)]
    obtain ⟨r,hr,hle,hle',-⟩ := retireWhile_spec (fun retired bytes =>
      retired < min (s.retired + limits.minChunk) start ||
        s.over limits.lowImages limits.lowBytes retired bytes) hsplit
    have hstart : r ≤ start := by
      simp only [length_drop,length_take] at hle'
      omega
    rw [hr]
    split
    · rename_i hf
      refine .inl ⟨r,rfl,hle,by omega,fun _ => hstart,?_⟩
      exact (Bool.not_eq_true' _).mp hf
    · split
      · rename_i hn
        exact .inr ⟨hn,rfl⟩
      rename_i hn
      have hn' : limits.native = false := by simpa using hn
      obtain ⟨q,hq,hrq,hq',hstop⟩ := retireWhile_spec
        (s.over limits.maxImages limits.maxBytes) (append_nil (s.sizes.drop r)).symm
      rw [length_drop] at hq' hstop
      refine .inl ⟨q,by rw [hq]; rfl,by omega,by omega,fun h => absurd h hn,?_⟩
      rcases hstop with hstop | hstop
      · have hq : q = s.sizes.length := by omega
        simp [Replay.fits,Replay.retireTo,Replay.over,hd hn',hq]
      · exact hstop

structure Held (limits : Limits) (seen : List Value) (s : Replay) : Prop where
  sizes : s.sizes = (images seen).map (bytes limits)
  positions : s.positions = imagePositions seen
  documents : s.documents = documentBytes limits (documents seen)
  counts : Counts s
  fits : s.fits limits

theorem held_empty (limits : Limits) : Held limits [] Replay.empty where
  sizes := rfl
  positions := rfl
  documents := by simp [Replay.empty,documentBytes,Images.documents]
  counts := ⟨rfl,le_rfl⟩
  fits := by simp [Replay.fits,Replay.over,Replay.empty]

variable {seen : List Value}

theorem Held.length (h : Held limits seen s) : s.sizes.length = (images seen).length := by
  rw [h.sizes,length_map]

theorem imagePositions_concat (seen : List Value) (m : Value) :
    imagePositions (seen ++ [m]) = imagePositions seen ++ messagePositions seen.length m := by
  simp [imagePositions,zipIdx_append]

theorem documentBytes_append (limits : Limits) (xs ys : List Value) :
    documentBytes limits (xs ++ ys) = documentBytes limits xs + documentBytes limits ys := by
  unfold documentBytes
  split <;> simp

variable {m : Value}

theorem Added.held (h : Held limits seen s) (hu : roleIs m "user" = true)
    (ha : Added limits ((contentBlocks m).flatMap blockImages)
      ((contentBlocks m).flatMap blockDocuments)
      (blockPositions seen.length 0 (contentBlocks m)) s t) :
    t.sizes = (images (seen ++ [m])).map (bytes limits) ∧
      t.positions = imagePositions (seen ++ [m]) ∧
      t.documents = documentBytes limits (Images.documents (seen ++ [m])) ∧ Counts t := by
  refine ⟨?_,?_,?_,?_,?_⟩
  · simp [ha.sizes,h.sizes,images,messageImages,hu]
  · rw [ha.positions,h.positions,imagePositions_concat,messagePositions,if_pos hu]
  · rw [ha.documents,h.documents,← documentBytes_append]
    simp [Images.documents,messageDocuments_eq hu]
  · rw [ha.retained,h.counts.bytes,ha.sizes,ha.retired,
      drop_append_of_le_length h.counts.bound,sum_append]
    rfl
  · have hb := h.counts.bound
    rw [ha.retired,ha.sizes,length_append]
    omega

theorem Held.retireTo {r : Nat} (hs : s.sizes = (images seen).map (bytes limits))
    (hp : s.positions = imagePositions seen)
    (hd : s.documents = documentBytes limits (Images.documents seen)) (hr : r ≤ s.sizes.length)
    (hf : (s.retireTo r).fits limits) : Held limits seen (s.retireTo r) :=
  ⟨hs,hp,hd,⟨rfl,hr⟩,hf⟩

theorem batch_other {index : Nat} (hu : ¬roleIs m "user" = true) :
    batch limits index m s = .ok s := by
  simp [batch,hu]

theorem Held.skip (h : Held limits seen s) (hu : ¬roleIs m "user" = true) :
    Held limits (seen ++ [m]) s := by
  refine ⟨?_,?_,?_,h.counts,h.fits⟩
  · simpa [images,messageImages,hu] using h.sizes
  · rw [imagePositions_concat,messagePositions,if_neg hu,append_nil,h.positions]
  · simpa [Images.documents,messageDocuments,hu] using h.documents

theorem batch_held (h : Held limits seen s) (ht : batch limits seen.length m s = .ok t) :
    Held limits (seen ++ [m]) t ∧ s.retired ≤ t.retired ∧
      (limits.native = true → roleIs m "user" = true → t.retired ≤ (images seen).length) := by
  by_cases hu : roleIs m "user" = true
  · rw [batch,if_pos hu] at ht
    obtain ⟨u,hv,hset⟩ := bind_ok ht
    have ha := visitBlocks_added hv
    obtain ⟨hs,hp,hd,hc⟩ := ha.held h hu
    have hr : u.retired ≤ s.sizes.length := ha.retired ▸ h.counts.bound
    have hl : s.sizes.length ≤ u.sizes.length := by simp [ha.sizes]
    have hz : limits.native = false → u.documents = 0 := fun hn => by
      simp [hd,documentBytes,hn]
    rcases settle_cases limits hc hr hl hz with ⟨r,hok,hle,hle',hn,hf⟩ | ⟨-,he⟩
    · rw [hok] at hset
      cases hset
      refine ⟨Held.retireTo hs hp hd hle' hf,by rw [← ha.retired]; exact hle,fun hn' _ => ?_⟩
      rw [← h.length]
      exact hn hn'
    · rw [he] at hset
      simp at hset
  · rw [batch_other hu] at ht
    cases ht
    exact ⟨h.skip hu,le_rfl,fun _ hu' => absurd hu' hu⟩

theorem batch_embedded (hn : limits.native = false) (h : Held limits seen s) (m : Value) :
    ∃ t, batch limits seen.length m s = .ok t := by
  by_cases hu : roleIs m "user" = true
  · obtain ⟨u,hv⟩ := visitBlocks_embedded hn seen.length 0 (contentBlocks m) s
    have ha := visitBlocks_added hv
    obtain ⟨hs,hp,hd,hc⟩ := ha.held h hu
    have hr : u.retired ≤ s.sizes.length := ha.retired ▸ h.counts.bound
    have hl : s.sizes.length ≤ u.sizes.length := by simp [ha.sizes]
    rcases settle_cases limits hc hr hl (fun hn => by simp [hd,documentBytes,hn])
      with ⟨r,hok,-⟩ | ⟨hn',-⟩
    · exact ⟨u.retireTo r,by rw [batch,if_pos hu,hv]; exact hok⟩
    · simp [hn] at hn'
  · exact ⟨s,batch_other hu⟩

def batches (limits : Limits) : Nat → List Value → Replay → Except String Replay
  | _, [], s => .ok s
  | index, m :: rest, s => do
      let s ← batch limits index m s
      batches limits (index+1) rest s

theorem batches_append (limits : Limits) (index : Nat) (xs ys : List Value) (s : Replay) :
    batches limits index (xs ++ ys) s =
      batches limits index xs s >>= batches limits (index + xs.length) ys := by
  induction xs generalizing index s with
  | nil => rfl
  | cons x xs ih =>
    simp only [cons_append,batches,ih,bind_assoc,length_cons]
    simp only [Nat.add_assoc,Nat.add_comm 1]

theorem batches_held {rest : List Value} (h : Held limits seen s)
    (ht : batches limits seen.length rest s = .ok t) :
    Held limits (seen ++ rest) t ∧ s.retired ≤ t.retired := by
  induction rest generalizing seen s with
  | nil =>
    cases ht
    simpa using h
  | cons m rest ih =>
    obtain ⟨u,hu,ht⟩ := bind_ok ht
    obtain ⟨hm,hle,-⟩ := batch_held h hu
    obtain ⟨hr,hle'⟩ := ih hm (by simpa using ht)
    exact ⟨by simpa using hr,by omega⟩

theorem batches_embedded (hn : limits.native = false) (h : Held limits seen s) (rest : List Value) :
    ∃ t, batches limits seen.length rest s = .ok t := by
  induction rest generalizing seen s with
  | nil => exact ⟨s,rfl⟩
  | cons m rest ih =>
    obtain ⟨u,hu⟩ := batch_embedded hn h m
    obtain ⟨t,ht⟩ := ih (batch_held h hu).1
    rw [length_append,length_singleton] at ht
    exact ⟨t,by rw [batches,hu]; exact ht⟩

theorem replayFrom_eq (limits : Limits) (previousEnd : Option Nat) (index : Nat)
    (xs : List Value) (s : Replay) (previous : Nat) :
    (replayFrom limits previousEnd index xs (s,previous)).map Prod.fst =
      batches limits index xs s := by
  induction xs generalizing index s previous with
  | nil => rfl
  | cons m xs ih =>
    simp only [replayFrom,batches]
    cases batch limits index m s with
    | error e => rfl
    | ok u => exact ih (index+1) u _

def lastAssistant (messages : List Value) : Option Nat :=
  rposition (fun m => roleIs m "assistant") messages

variable {budget : Budget} {messages : List Value} {r : Retention}

theorem planRequest_replay (h : planRequest messages budget = .ok r) :
    ∃ v s q, prepass budget.limits messages = .ok v ∧
      replayFrom budget.limits (lastAssistant messages) 0 messages (Replay.empty,0) = .ok (s,q) ∧
      r = ⟨s.retired,s.positions[q]?⟩ := by
  unfold planRequest at h
  obtain ⟨v,hv,h⟩ := bind_ok h
  obtain ⟨⟨s,q⟩,hs,hr⟩ := bind_ok h
  exact ⟨v,s,q,hv,hs,(Except.ok.inj hr).symm⟩

theorem replayFrom_batches {previousEnd : Option Nat} {index : Nat} {xs : List Value}
    {previous q : Nat} (h : replayFrom limits previousEnd index xs (s,previous) = .ok (t,q)) :
    batches limits index xs s = .ok t := by
  rw [← replayFrom_eq limits previousEnd index xs s previous,h]
  rfl

theorem planRequest_of_batches {v : Nat × Nat} (hv : prepass budget.limits messages = .ok v)
    (hs : batches budget.limits 0 messages Replay.empty = .ok s) :
    ∃ r, planRequest messages budget = .ok r := by
  rw [← replayFrom_eq budget.limits (lastAssistant messages) 0 messages Replay.empty 0] at hs
  unfold planRequest
  simp only [hv]
  cases hp : replayFrom budget.limits (lastAssistant messages) 0 messages (Replay.empty,0) with
  | error e => simp [hp,Except.map] at hs
  | ok t =>
    refine ⟨⟨t.1.retired,t.1.positions[t.2]?⟩,?_⟩
    unfold lastAssistant at hp
    simp only [bind,Except.bind,hp]
    rfl

theorem planRequest_ok (h : planRequest messages budget = .ok r) :
    ∃ s, batches budget.limits 0 messages Replay.empty = .ok s ∧ r.retired = s.retired ∧
      Held budget.limits messages s := by
  obtain ⟨_,s,q,-,hs,rfl⟩ := planRequest_replay h
  have hb := replayFrom_batches hs
  have hh := batches_held (held_empty budget.limits) hb
  exact ⟨s,hb,rfl,by simpa using hh.1⟩

theorem planRequest_fits (h : planRequest messages budget = .ok r) :
    (images (retire messages r.retired)).length ≤ budget.limits.maxImages ∧
      documentBytes budget.limits (documents (retire messages r.retired)) +
        imageBytes budget.limits (images (retire messages r.retired)) ≤ budget.limits.maxBytes := by
  obtain ⟨s,-,hr,hh⟩ := planRequest_ok h
  have hf := hh.fits
  simp only [Replay.fits,Replay.over,Bool.or_eq_false_iff,decide_eq_false_iff_not,not_lt] at hf
  rw [images_retire,documents_retire,length_drop,← hh.length,← hh.documents,hr,imageBytes,
    map_drop,← hh.sizes,← hh.counts.bytes]
  exact hf

theorem planRequest_embedded (hb : budget ≠ .native) (messages : List Value) :
    ∃ r, planRequest messages budget = .ok r := by
  have hn : budget.limits.native = false := by
    cases budget with
    | native => exact absurd rfl hb
    | worker | routed => rfl
  obtain ⟨s,hs⟩ := batches_embedded hn (held_empty budget.limits) messages
  have hp : prepass budget.limits messages = .ok (0,0) := by simp [prepass,hn]
  exact planRequest_of_batches hp hs

theorem planRequest_protects {earlier : List Value} (hu : roleIs m "user" = true)
    (h : planRequest (earlier ++ [m]) .native = .ok r) : r.retired ≤ (images earlier).length := by
  obtain ⟨s,hs,hr,-⟩ := planRequest_ok h
  rw [batches_append] at hs
  obtain ⟨u,hu',hm⟩ := bind_ok hs
  obtain ⟨v,hv,hend⟩ := bind_ok hm
  cases hend
  have hh := (batches_held (held_empty nativeLimits) hu').1
  rw [Nat.zero_add] at hv
  rw [hr]
  exact (batch_held hh hv).2.2 rfl hu

/-- Every plan keeps its budget, and only the native budget refuses one. `retire` writes
the label over the first `n` images and nothing else exactly when no message it rewrites
holds a tool result without content. -/
theorem retention_holds (messages : List Value) (budget : Budget) :
    (∀ r, planRequest messages budget = .ok r →
      (images (retire messages r.retired)).length ≤ budget.limits.maxImages ∧
      documentBytes budget.limits (documents (retire messages r.retired)) +
        imageBytes budget.limits (images (retire messages r.retired)) ≤ budget.limits.maxBytes) ∧
    (budget ≠ .native → ∃ r, planRequest messages budget = .ok r) ∧
    (∀ earlier m r, messages = earlier ++ [m] → roleIs m "user" = true →
      planRequest messages .native = .ok r → r.retired ≤ (images earlier).length) ∧
    (∀ n, retire messages n = replaceImages n messages ↔ Intact n messages) := by
  refine ⟨fun r h => planRequest_fits h,fun hb => planRequest_embedded hb messages,?_,
    retire_eq_replace_iff messages⟩
  rintro earlier m r rfl hu h
  exact planRequest_protects hu h

def urlImage : Value :=
  .object [("source",.object [("type",.string "url"),("url",.string "u")]),("type",.string "image")]

def emptyResult : Value :=
  .object [("tool_use_id",.string "t"),("type",.string "tool_result")]

def emptyResultHistory : List Value :=
  [.object [("content",.array (emptyResult :: List.replicate 7 urlImage)),
    ("role",.string "user")]]

/-- A worker request leaves out one of seven images and sends a tool result that has
got a `null` as its content. -/
theorem retire_touches_result : planRequest emptyResultHistory .worker = .ok ⟨1,some (0,1)⟩ ∧
    (retire emptyResultHistory 1).map contentBlocks =
      [.object [("content",.null),("tool_use_id",.string "t"),("type",.string "tool_result")] ::
        omitted :: replicate 6 urlImage] ∧
    (replaceImages 1 emptyResultHistory).map contentBlocks =
      [emptyResult :: omitted :: replicate 6 urlImage] ∧
    ¬Intact 1 emptyResultHistory := by
  refine ⟨by decide,by decide,by decide,fun h => ?_⟩
  have hb := h 0 _ rfl (by decide) (by decide) (by decide)
  exact absurd hb (by decide)

def blockAt (messages : List Value) (m b : Nat) : Option Value :=
  messages[m]?.bind (fun x => (contentBlocks x)[b]?)

/-- The later view keeps every message of the earlier one that is ahead of the frontier,
and of the message at the frontier every block ahead of it. -/
def AgreeBefore (frontier : Option (Nat × Nat)) (old new : List Value) : Prop :=
  match frontier with
  | none => ∀ j < old.length, old[j]? = new[j]?
  | some (m,b) =>
      (∀ j < old.length, j < m → old[j]? = new[j]?) ∧
        (m < old.length → ∀ i < b, blockAt old m i = blockAt new m i)

/-- No tool result without content is ahead of block `b` of message `m`. -/
def ClearBefore (messages : List Value) (m b : Nat) : Prop :=
  ∀ i < b, ∀ x, blockAt messages m i = some x → bare x = false

theorem length_blockPositions (index : Nat) (blocks : List Value) :
    (blockPositions index 0 blocks).length = (blocks.flatMap blockImages).length :=
  length_flatMap_zipIdx (fun _ => by simp) blocks 0

theorem length_messagePositions (index : Nat) (m : Value) :
    (messagePositions index m).length = (messageImages m).length := by
  unfold messagePositions messageImages
  split
  · exact length_blockPositions index _
  · rfl

theorem length_imagePositions (messages : List Value) :
    (imagePositions messages).length = (images messages).length :=
  length_flatMap_zipIdx (fun e => length_messagePositions e.2 e.1) messages 0

/-- Where the occurrence with number `n` is: in message `m`, with `k` occurrences before
the message and `d` more before its block. -/
theorem imagePositions_getElem? {messages : List Value} {n m b : Nat}
    (h : (imagePositions messages)[n]? = some (m,b)) :
    ∃ x, messages[m]? = some x ∧ roleIs x "user" = true ∧
      (images (messages.take m)).length +
        (((contentBlocks x).take b).flatMap blockImages).length ≤ n ∧
      n < (images (messages.take m)).length + (messageImages x).length := by
  obtain ⟨i,x,hx,hle,hy⟩ :=
    flatMap_zipIdx_getElem? messageImages (fun e => length_messagePositions e.2 e.1) h
  rw [Nat.zero_add] at hy
  have hlt := (List.getElem?_eq_some_iff.mp hy).1
  rw [length_messagePositions] at hlt
  by_cases hu : roleIs x "user" = true
  · rw [messagePositions,if_pos hu] at hy
    obtain ⟨j,block,hb,hle',hy'⟩ := flatMap_zipIdx_getElem? blockImages (fun _ => by simp) hy
    simp only [getElem?_map,Nat.zero_add,Option.map_eq_some_iff,Prod.mk.injEq] at hy'
    obtain ⟨_,_,rfl,rfl⟩ := hy'
    change (images (messages.take i)).length ≤ n at hle
    change n - (images (messages.take i)).length < (messageImages x).length at hlt
    change (((contentBlocks x).take j).flatMap blockImages).length ≤
      n - (images (messages.take i)).length at hle'
    exact ⟨x,hx,hu,by omega,by omega⟩
  · simp [messagePositions,hu] at hy

section Views

variable {n n' : Nat} (hn : n ≤ n')

include hn

theorem replaceItem_stable (k : Nat) (x : Value) (h : k + (itemImages x).length ≤ n) :
    replaceItem n k x = replaceItem n' k x := by
  by_cases hi : typeIs x "image" = true
  · simp only [itemImages,hi,if_true,length_singleton] at h
    simp [replaceItem,hi,show k < n by omega,show k < n' by omega]
  · simp [replaceItem,hi]

theorem retiredBlock_stable (k : Nat) (b : Value) (h : k + (blockImages b).length ≤ n) :
    retiredBlock n k b = retiredBlock n' k b := by
  by_cases hb : bare b = true
  · simp [retiredBlock,hb]
  · simp only [retiredBlock,hb,Bool.false_eq_true,if_false,replaceBlock]
    split
    · rename_i ht
      split
      · rename_i xs ha
        rw [blockImages_toolResult ht,contentBlocks_of_get? (get?_of_asArray? ha)] at h
        rw [counted_congr itemImages _ _ (replaceItem_stable hn) h]
      · rfl
    · refine replaceItem_stable hn k b (le_trans ?_ h)
      by_cases hi : typeIs b "image" = true
      · simp [itemImages,hi,blockImages_image hi]
      · simp [itemImages,hi]

theorem retiredMessage_stable (k : Nat) (m : Value) (h : k + (messageImages m).length ≤ n) :
    retiredMessage n k m = retiredMessage n' k m := by
  by_cases hm : roleIs m "user" = true ∧ hasImage m = true
  · have hi := (hasImage_iff m).mp hm.2
    rw [messageImages,if_pos hm.1] at h
    have hpos := length_pos_iff.mpr hi
    rw [retiredMessage,if_pos ⟨hm.1,hm.2,by omega⟩,retiredMessage,if_pos ⟨hm.1,hm.2,by omega⟩,
      counted_congr blockImages _ _ (retiredBlock_stable hn) h]
  · rw [retiredMessage,if_neg (fun h => hm ⟨h.1,h.2.1⟩),retiredMessage,
      if_neg (fun h => hm ⟨h.1,h.2.1⟩)]

end Views

theorem blockAt_retire {messages : List Value} {m : Nat} {x : Value} (n i : Nat)
    (hx : messages[m]? = some x) (hu : roleIs x "user" = true) (hi : hasImage x = true) :
    blockAt (retire messages n) m i =
      if (images (messages.take m)).length < n then
        (contentBlocks x)[i]?.map (retiredBlock n
          ((images (messages.take m)).length + (((contentBlocks x).take i).flatMap blockImages).length))
      else (contentBlocks x)[i]? := by
  have hc := contentBlocks_ne_nil hi
  simp only [blockAt,retire_getElem?,hx,Option.map_some,Option.bind_some,retiredMessage,hu,hi,
    true_and]
  split
  · rw [contentBlocks_set (get?_content hc),counted_getElem?]
  · rfl

theorem length_retire (messages : List Value) (n : Nat) :
    (retire messages n).length = messages.length := by
  refine Nat.le_antisymm (getElem?_eq_none_iff.mp ?_) (getElem?_eq_none_iff.mp ?_)
  · simp [retire_getElem?]
  · have h := retire_getElem? messages n (retire messages n).length
    rw [getElem?_eq_none (le_refl (retire messages n).length)] at h
    simpa using h.symm

theorem images_le {prev : List Value} (tail : List Value) {j m : Nat} {x : Value}
    (hx : prev[j]? = some x) (hm : j < m) :
    (images (prev.take j)).length + (messageImages x).length ≤
      (images ((prev ++ tail).take m)).length := by
  have hj := (List.getElem?_eq_some_iff.mp hx).1
  have hs := flatMap_take_succ messageImages hx
  have hle := flatMap_take_le messageImages (prev ++ tail) (show j + 1 ≤ m by omega)
  rw [take_append_of_le_length (by omega)] at hle
  change _ ≤ (images _).length at hle
  change (images _).length = (images _).length + _ at hs
  change (images (prev.take (j+1))).length ≤ _ at hle
  omega

section Agreement

variable {prev tail : List Value} {n n' : Nat} (hn : n ≤ n')

include hn

theorem message_agrees {j : Nat} (hj : j < prev.length) (h : ∀ x, prev[j]? = some x →
      (images (prev.take j)).length + (messageImages x).length ≤ n) :
    (retire prev n)[j]? = (retire (prev ++ tail) n')[j]? := by
  rw [retire_getElem?,retire_getElem?,getElem?_append_left hj,
    take_append_of_le_length (by omega)]
  cases hx : prev[j]? with
  | none => rfl
  | some x => exact congrArg some (retiredMessage_stable hn _ x (h x hx))

/-- The blocks ahead of the frontier agree unless the earlier view leaves the message
as it is and the later one goes over a tool result without content. -/
theorem block_agrees_iff {m b i : Nat}
    (hf : (imagePositions (prev ++ tail))[n]? = some (m,b)) (hm : m < prev.length)
    (hi : i < b) :
    blockAt (retire prev n) m i = blockAt (retire (prev ++ tail) n') m i ↔
      (n = n' ∨ (images ((prev ++ tail).take m)).length ≠ n ∨
        ∀ x, blockAt (prev ++ tail) m i = some x → bare x = false) := by
  obtain ⟨x,hx,hu,hd,hlt⟩ := imagePositions_getElem? hf
  have hp : prev[m]? = some x := by rwa [getElem?_append_left hm] at hx
  have himg : hasImage x = true := by
    rw [hasImage_iff]
    intro he
    simp [messageImages,hu,he] at hlt
    omega
  have ht : prev.take m = (prev ++ tail).take m := by
    rw [take_append_of_le_length (by omega)]
  have hb : blockAt (prev ++ tail) m i = (contentBlocks x)[i]? := by simp [blockAt,hx]
  rw [blockAt_retire n i hp hu himg,blockAt_retire n' i hx hu himg,hb,ht]
  cases hc : (contentBlocks x)[i]? with
  | none => simp
  | some block =>
    have hs := flatMap_take_succ blockImages hc
    have hle := flatMap_take_le blockImages (contentBlocks x) (show i + 1 ≤ b by omega)
    by_cases hk : (images ((prev ++ tail).take m)).length < n
    · rw [if_pos hk,if_pos (by omega),Option.map_some,Option.map_some,
        retiredBlock_stable hn _ block (by omega)]
      exact iff_of_true rfl (.inr (.inl (by omega)))
    · rw [if_neg hk]
      by_cases hnn : n = n'
      · rw [if_neg (by omega)]
        exact iff_of_true rfl (.inl hnn)
      have he : blockImages block = [] := length_eq_zero_iff.mp (by omega)
      have hkept := replaceBlock_kept (n := n') (k := (images ((prev ++ tail).take m)).length +
          (((contentBlocks x).take i).flatMap blockImages).length) (.inr he)
      have hiff := retiredBlock_eq_iff n' ((images ((prev ++ tail).take m)).length +
        (((contentBlocks x).take i).flatMap blockImages).length) block
      rw [hkept] at hiff
      rw [if_pos (by omega),Option.map_some,Option.some.injEq,eq_comm,hiff]
      have hkn : ¬(images ((prev ++ tail).take m)).length ≠ n := by omega
      simp [hnn,hkn]

theorem agree_iff :
    AgreeBefore (imagePositions (prev ++ tail))[n]? (retire prev n) (retire (prev ++ tail) n') ↔
      (n = n' ∨ ∀ m b, (imagePositions (prev ++ tail))[n]? = some (m,b) → m < prev.length →
        (images (prev.take m)).length = n → ClearBefore prev m b) := by
  cases hf : (imagePositions (prev ++ tail))[n]? with
  | none =>
    have hlen : (images (prev ++ tail)).length ≤ n := by
      rw [← length_imagePositions]
      exact getElem?_eq_none_iff.mp hf
    refine iff_of_true (fun j hj => ?_) (.inr (by simp))
    rw [length_retire] at hj
    refine message_agrees hn hj (fun x hx => ?_)
    have hle := images_le tail hx (show j < (prev ++ tail).length by simp; omega)
    rw [take_length] at hle
    omega
  | some pos =>
    obtain ⟨m,b⟩ := pos
    have hfirst : ∀ j < (retire prev n).length, j < m →
        (retire prev n)[j]? = (retire (prev ++ tail) n')[j]? := by
      intro j hj hjm
      rw [length_retire] at hj
      refine message_agrees hn hj (fun x hx => ?_)
      have hle := images_le tail hx hjm
      obtain ⟨_,_,_,hd,_⟩ := imagePositions_getElem? hf
      omega
    have hat {i : Nat} (hm : m < prev.length) : blockAt (prev ++ tail) m i = blockAt prev m i := by
      rw [blockAt,blockAt,getElem?_append_left hm]
    have htake (hm : m < prev.length) : (prev ++ tail).take m = prev.take m :=
      take_append_of_le_length (by omega)
    simp only [AgreeBefore,length_retire,Option.some.injEq,Prod.mk.injEq]
    constructor
    · rintro ⟨-,h⟩
      by_cases hnn : n = n'
      · exact .inl hnn
      refine .inr ?_
      rintro _ _ ⟨rfl,rfl⟩ hm hk i hi x hx
      have hor := (block_agrees_iff hn hf hm hi).mp (h hm i hi)
      rcases hor with hor | hor | hor
      · exact absurd hor hnn
      · rw [htake hm] at hor
        exact absurd hk hor
      · exact hor x (by rwa [hat hm])
    · intro h
      refine ⟨by simpa only [length_retire] using hfirst,fun hm i hi => ?_⟩
      refine (block_agrees_iff hn hf hm hi).mpr ?_
      rcases h with h | h
      · exact .inl h
      by_cases hk : (images (prev.take m)).length = n
      · refine .inr (.inr (fun x hx => ?_))
        rw [hat hm] at hx
        exact h m b ⟨rfl,rfl⟩ hm hk i hi x hx
      · rw [htake hm]
        exact .inr (.inl hk)

end Agreement

theorem replayFrom_append (limits : Limits) (previousEnd : Option Nat) (index : Nat)
    (xs ys : List Value) (state : Replay × Nat) :
    replayFrom limits previousEnd index (xs ++ ys) state =
      replayFrom limits previousEnd index xs state >>=
        replayFrom limits previousEnd (index + xs.length) ys := by
  induction xs generalizing index state with
  | nil => rfl
  | cons x xs ih =>
    obtain ⟨s,previous⟩ := state
    simp only [cons_append,replayFrom,ih,bind_assoc,length_cons]
    simp only [Nat.add_assoc,Nat.add_comm 1]

theorem replayFrom_previous {limits : Limits} {previousEnd index : Nat} {xs : List Value}
    {s t : Replay} {previous q : Nat}
    (hp : previousEnd < index ∨ index + xs.length ≤ previousEnd)
    (h : replayFrom limits (some previousEnd) index xs (s,previous) = .ok (t,q)) :
    q = previous := by
  induction xs generalizing index s with
  | nil => exact (congrArg Prod.snd (Except.ok.inj h)).symm
  | cons m xs ih =>
    rw [length_cons] at hp
    have hne : ¬some index = some previousEnd := by
      simp only [Option.some.injEq]
      omega
    simp only [replayFrom,if_neg hne] at h
    obtain ⟨u,-,hu⟩ := bind_ok h
    exact ih (by omega) hu

section Plans

variable {prev rest : List Value} {a : Value} {budget : Budget} {r r' : Retention}

theorem plan_frontier (ha : roleIs a "assistant" = true)
    (hrest : ∀ m ∈ rest, roleIs m "assistant" = false)
    (h : planRequest (prev ++ a :: rest) budget = .ok r)
    (h' : planRequest prev budget = .ok r') :
    r'.retired ≤ r.retired ∧ r.frontier = (imagePositions (prev ++ a :: rest))[r'.retired]? := by
  obtain ⟨s',hb',hr',hh'⟩ := planRequest_ok h'
  obtain ⟨_,s,q,-,hs,rfl⟩ := planRequest_replay h
  rw [lastAssistant,rposition_append (p := fun m => roleIs m "assistant") ha hrest,
    replayFrom_append] at hs
  obtain ⟨⟨u,p⟩,hu,hs⟩ := bind_ok hs
  cases (replayFrom_batches hu).symm.trans hb'
  rw [Nat.zero_add] at hs
  have hall := batches_held hh' (replayFrom_batches hs)
  refine ⟨hr' ▸ hall.2,?_⟩
  simp only [replayFrom,if_true] at hs
  obtain ⟨v,-,hv⟩ := bind_ok hs
  have hq := replayFrom_previous (.inl (Nat.lt_succ_self _)) hv
  rw [hall.1.positions,hq,hr']

end Plans

theorem planRequest_ok_left {xs ys : List Value} {budget : Budget} {r : Retention}
    (h : planRequest (xs ++ ys) budget = .ok r) : ∃ r', planRequest xs budget = .ok r' := by
  obtain ⟨u,s,q,hp,hs,-⟩ := planRequest_replay h
  have hb := replayFrom_batches hs
  rw [batches_append] at hb
  obtain ⟨t,ht,-⟩ := bind_ok hb
  have hpre : ∃ v, prepass budget.limits xs = .ok v := by
    unfold prepass at hp ⊢
    split
    · rename_i hn
      rw [if_pos hn,resourcePrepass,flatMap_append] at hp
      exact foldlM_ok_left hp
    · exact ⟨_,rfl⟩
  obtain ⟨v,hv⟩ := hpre
  exact planRequest_of_batches hv ht

/-- What the plans of two requests in a row share. The second retires no less and
reports the oldest image the first still sent; the two views agree ahead of it exactly
when the message it is in was not left whole by the first request with a tool result
without content ahead of it. The last part says it of the history alone. -/
theorem frontier_stable (prev rest : List Value) (a : Value)
    (ha : roleIs a "assistant" = true) (hrest : ∀ m ∈ rest, roleIs m "assistant" = false) :
    (∀ budget r r', planRequest (prev ++ a :: rest) budget = .ok r →
      planRequest prev budget = .ok r' →
      r'.retired ≤ r.retired ∧
      r.frontier = (imagePositions (prev ++ a :: rest))[r'.retired]? ∧
      (AgreeBefore r.frontier (retire prev r'.retired) (retire (prev ++ a :: rest) r.retired) ↔
        (r'.retired = r.retired ∨ ∀ m b, r.frontier = some (m,b) → m < prev.length →
          (images (prev.take m)).length = r'.retired → ClearBefore prev m b))) ∧
    ((∀ n n', n ≤ n' → AgreeBefore (imagePositions (prev ++ a :: rest))[n]? (retire prev n)
        (retire (prev ++ a :: rest) n')) ↔
      ∀ m b, m < prev.length →
        (imagePositions (prev ++ a :: rest))[(images (prev.take m)).length]? = some (m,b) →
          ClearBefore prev m b) ∧
    (∀ (xs ys : List Value) (e : String), planRequest xs .native = .error e →
      ∃ e', planRequest (xs ++ ys) .native = .error e') := by
  refine ⟨?_,⟨?_,?_⟩,?_⟩
  · intro budget r r' h h'
    obtain ⟨hle,hf⟩ := plan_frontier ha hrest h h'
    refine ⟨hle,hf,?_⟩
    rw [hf]
    exact agree_iff hle
  · intro h m b hm hb
    rcases (agree_iff (Nat.le_succ _)).mp (h _ _ (Nat.le_succ (images (prev.take m)).length))
      with he | hc
    · omega
    · exact hc m b hb hm rfl
  · intro h n n' hn
    refine (agree_iff hn).mpr (.inr (fun m b hb hm hk => h m b hm ?_))
    rwa [hk]
  · intro xs ys e he
    cases h : planRequest (xs ++ ys) .native with
    | error e' => exact ⟨e',rfl⟩
    | ok r =>
      obtain ⟨r',hr'⟩ := planRequest_ok_left h
      rw [he] at hr'
      simp at hr'

def plainMessage (role : String) (blocks : List Value) : Value :=
  .object [("content",.array blocks),("role",.string role)]

def sentImages : List Value :=
  [plainMessage "user" (replicate 6 urlImage),plainMessage "assistant" [],
    plainMessage "user" [urlImage]]

def sentMore : List Value :=
  sentImages ++ plainMessage "assistant" [] :: [plainMessage "user" (replicate 6 urlImage)]

/-- Both requests send the first four images as text. -/
theorem frontier_stable_images :
    planRequest sentImages .worker = .ok ⟨4,some (0,0)⟩ ∧
    planRequest sentMore .worker = .ok ⟨7,some (0,4)⟩ ∧
    AgreeBefore (some (0,4)) (retire sentImages 4) (retire sentMore 7) := by
  have h₁ : planRequest sentImages .worker = .ok ⟨4,some (0,0)⟩ := by decide +kernel
  have h₂ : planRequest sentMore .worker = .ok ⟨7,some (0,4)⟩ := by decide +kernel
  have hs := (frontier_stable sentImages [plainMessage "user" (replicate 6 urlImage)]
    (plainMessage "assistant" []) (by decide) (by decide)).1 .worker _ _ h₂ h₁
  refine ⟨h₁,h₂,hs.2.2.mpr (.inr ?_)⟩
  rintro m b hmb - himages
  cases hmb
  cases himages

/-- The first request sent a message as it was; the second puts a `null` into the tool
result that is ahead of the frontier. -/
theorem frontier_not_stable :
    planRequest [plainMessage "user" (emptyResult :: replicate 6 urlImage)] .worker =
      .ok ⟨0,some (0,1)⟩ ∧
    planRequest ([plainMessage "user" (emptyResult :: replicate 6 urlImage)] ++
      plainMessage "assistant" [] :: [plainMessage "user" [urlImage]]) .worker =
        .ok ⟨4,some (0,1)⟩ ∧
    blockAt (retire [plainMessage "user" (emptyResult :: replicate 6 urlImage)] 0) 0 0 =
      some emptyResult ∧
    blockAt (retire ([plainMessage "user" (emptyResult :: replicate 6 urlImage)] ++
      plainMessage "assistant" [] :: [plainMessage "user" [urlImage]]) 4) 0 0 =
        some (.object [("content",.null),("tool_use_id",.string "t"),
          ("type",.string "tool_result")]) := by
  refine ⟨by decide,by decide,by decide,by decide⟩

end Synaps.Images
