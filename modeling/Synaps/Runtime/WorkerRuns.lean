import Synaps.Runtime.WorkerPlan

/-!
Runs of a worker: messages are appended and the history rolls over. The transcripts
written so far hold consecutive blocks of what was appended, behind the brief, and the
messages after the last block are still in the history.
-/

set_option autoImplicit false

namespace Synaps.Worker

open Json History ReadDedupe Runs List Option Nat Word

/-- The history and the transcript files, with all messages ever appended and the
reports of all rollovers so far. -/
structure State where
  history : List Value
  files : Files
  appended : List Value
  reports : List RolloverReport

structure Init (s : State) : Prop where
  user : ∃ brief rest, s.history = brief :: rest ∧ roleIs brief "user" = true
  unmarked : ∀ m ∈ s.history, isNote m = false
  appended : s.appended = s.history
  reports : s.reports = []

inductive Step (s : State) : State → Prop
  | append (messages : List Value) (h : ∀ m ∈ messages, isNote m = false) :
      Step s ⟨s.history ++ messages,s.files,s.appended ++ messages,s.reports⟩
  | rollOver (budget beforeTokens overheadTokens pressureTokens : Nat) (sink : TranscriptSink)
      (hardCapacity : Option Nat) (successor : List Value) (report : RolloverReport)
      (files : Files)
      (h : rollOver none s.files s.history budget beforeTokens overheadTokens pressureTokens
        sink hardCapacity = (files,.ok (some (successor,report)))) :
      Step s ⟨successor,files,s.appended,s.reports ++ [report]⟩

/-- How many messages, from the first on, the given rollovers have taken out of the
history; the brief counts as the one before them. -/
def gone (reports : List RolloverReport) : Nat := 1 + (reports.map (·.evictedMessages)).sum

def refs (reports : List RolloverReport) : List TranscriptRef :=
  reports.map (fun r => ⟨r.window - 1,r.transcript,r.evictedMessages⟩)

def blockText (b : Value) : List Char := ((b.index "text").asStr?.getD "").toList

/-- What a reader can look for of a block: a text, the input of a call, the texts of a result. -/
def blockTexts (b : Value) : List (List Char) :=
  if typeIs b "text" then [blockText b]
  else if typeIs b "tool_use" then [printPretty 0 (b.index "input")]
  else if typeIs b "tool_result" then
    match b.index "content" with
    | .string s => [s.toList]
    | .array inner => (inner.filter (typeIs · "text")).map blockText
    | _ => []
  else []

def texts (m : Value) : List (List Char) :=
  match m.index "content" with
  | .string s => [s.toList]
  | .array blocks => blocks.flatMap blockTexts
  | _ => []

/-- The transcript of the rollover `j` is the rendering of exactly the block of messages that
it took out, each up to rewritten stubs, and has all their texts. -/
def Saved (s : State) (j : Nat) (report : RolloverReport) : Prop :=
  ∃ messages evicted beforeTokens file, s.files report.transcript = some file ∧
    file = renderTranscript messages evicted (j+1) beforeTokens ∧
    evicted.length = report.evictedMessages ∧
    ∀ p i, evicted[p]? = some i → ∃ m v, s.appended[gone (s.reports.take j) + p]? = some m ∧
      messages[i]? = some v ∧ Rewritten m v ∧ ∀ t ∈ texts v, t <:+: file

/-- The transcript of the rollover `j` has the message that was appended as the `k`-th. -/
def Renders (s : State) (j k : Nat) : Prop :=
  ∃ report, s.reports[j]? = some report ∧ Saved s j report ∧
    gone (s.reports.take j) ≤ k ∧ k < gone (s.reports.take j) + report.evictedMessages

/-- Nothing is lost, and the note knows where everything went. -/
structure Lossless (s : State) : Prop where
  kept : ∀ k m, s.appended[k]? = some m → (∃ v ∈ s.history, Rewritten m v) ∨ ∃! j, Renders s j k
  distinct : (s.reports.map (·.transcript)).Nodup
  increasing : (windowState s.history).2.Pairwise (fun a b => a.window < b.window)
  listed : (windowState s.history).2.map (·.path) = s.reports.map (·.transcript)
  current : (windowState s.history).1 = 1 + s.reports.length

section

variable {t : List Char}

theorem asStr?_type {b : Value} {type : String} (h : typeIs b type = true) :
    (b.index "type").asStr? = some type := by
  rw [of_decide_eq_true h]
  rfl

theorem infix_flatMap {α : Type} {f : α → List Char} {x : α} {l : List α} (hx : x ∈ l)
    (ht : t <:+: f x) : t <:+: l.flatMap f := by
  obtain ⟨a,b,rfl⟩ := append_of_mem hx
  rw [flatMap_append,flatMap_cons]
  exact ht.trans ⟨_,_,append_assoc ..⟩

theorem infix_blockText {b : Value} (h : typeIs b "text" = true) :
    blockText b <:+: renderBlock b := by
  rw [renderBlock,asStr?_type h]
  exact ⟨[],['\n'],rfl⟩

section

variable {b : Value} (h : typeIs b "tool_result" = true)

include h

theorem infix_result_string {s : String} (hs : b.index "content" = .string s) :
    s.toList <:+: renderBlock b := by
  rw [renderBlock,asStr?_type h]
  refine IsInfix.trans ?_ (suffix_append ..).isInfix
  split
  · rename_i hs'
    cases hs.symm.trans hs'
    exact ⟨[],['\n'],rfl⟩
  all_goals simp_all

theorem infix_result_array {inner : List Value} {x : Value} (hs : b.index "content" = .array inner)
    (hx : x ∈ inner) (ht : t <:+: renderBlock x) : t <:+: renderBlock b := by
  rw [renderBlock,asStr?_type h]
  refine IsInfix.trans ?_ (suffix_append ..).isInfix
  split
  case h_2 hs' =>
    cases hs.symm.trans hs'
    exact infix_flatMap (mem_attach _ ⟨x,hx⟩) ht
  all_goals simp_all

end

theorem infix_renderBlock {b : Value} (ht : t ∈ blockTexts b) : t <:+: renderBlock b := by
  unfold blockTexts at ht
  split at ht
  · rename_i h
    exact mem_singleton.mp ht ▸ infix_blockText h
  split at ht
  · rename_i h
    rw [mem_singleton.mp ht,renderBlock,asStr?_type h]
    exact ⟨_,['\n'],rfl⟩
  split at ht
  · rename_i h
    split at ht
    · rename_i s hs
      exact mem_singleton.mp ht ▸ infix_result_string h hs
    · rename_i inner hs
      obtain ⟨x,hx,rfl⟩ := mem_map.mp ht
      obtain ⟨hx,htype⟩ := mem_filter.mp hx
      exact infix_result_array h hs hx (infix_blockText htype)
    · cases ht
  · cases ht

theorem infix_renderMessage {v : Value} (ht : t ∈ texts v) (i : Nat) :
    t <:+: renderMessage i v := by
  refine IsInfix.trans ?_ (suffix_append ..).isInfix
  unfold texts at ht
  generalize v.index "content" = content at ht ⊢
  cases content with
  | string s =>
    rw [mem_singleton.mp ht]
    exact ⟨[],['\n'],rfl⟩
  | array blocks =>
    obtain ⟨b,hb,ht⟩ := mem_flatMap.mp ht
    exact infix_flatMap hb (infix_renderBlock ht)
  | _ => cases ht

theorem texts_renderTranscript {messages : List Value} {evicted : List Nat} {i : Nat} {v : Value}
    (hi : i ∈ evicted) (hv : messages[i]? = some v) (ht : t ∈ texts v) (window before : Nat) :
    t <:+: renderTranscript messages evicted window before := by
  refine IsInfix.trans (infix_flatMap hi ?_) (suffix_append ..).isInfix
  rw [getD_eq_getElem?_getD,hv]
  exact infix_renderMessage ht i

end

variable {l : List Value}

theorem filter_isNote_zipIdx (h : ∀ m ∈ l, isNote m = false) (n : Nat) :
    (l.zipIdx n).filter (fun m => isNote m.1) = [] := by
  refine filter_eq_nil_iff.mpr (fun m hm => ?_)
  rw [h m.1 (fst_mem_of_mem_zipIdx hm)]
  decide

/-- What stands between the brief and the messages of the current window. -/
inductive Front : List Value → Prop
  | fresh : Front []
  | rolled (carried : List Value) (note : Value) (h : ∀ m ∈ carried, isNote m = false)
      (hn : isNote note = true) : Front (carried ++ [note])

section

variable {front live : List Value} (brief : Value) (hf : Front front)
  (hl : ∀ m ∈ live, isNote m = false)

include hf hl

theorem afterNotes_front : afterNotes (brief :: (front ++ live)) = 1 + front.length := by
  unfold afterNotes
  cases hf with
  | fresh => simp [filter_isNote_zipIdx hl]
  | rolled carried note h hn =>
    simp [zipIdx_append,filter_isNote_zipIdx h,filter_isNote_zipIdx hl,hn]
    omega

theorem evictedBy_front {cut : Nat} (hcut : cut ≤ 1 + front.length + live.length) :
    evictedBy (brief :: (front ++ live)) cut =
      range' (1 + front.length) (cut - (1 + front.length)) := by
  rw [evictedBy,afterNotes_front brief hf hl,filter_eq_self]
  intro i hi
  rw [mem_range'_1] at hi
  have hget : (brief :: (front ++ live))[i]? = live[i - (1 + front.length)]? := by
    rw [show i = (i - 1) + 1 by omega,getElem?_cons_succ,getElem?_append_right (by omega)]
    congr 1
    omega
  rw [getD_eq_getElem?_getD,hget,getElem?_eq_getElem (by omega)]
  simp [hl _ (getElem_mem _)]

end

theorem drop_front {front live : List Value} (brief : Value) {cut : Nat}
    (hcut : 1 + front.length ≤ cut) :
    (brief :: (front ++ live)).drop cut = live.drop (cut - (1 + front.length)) := by
  rw [show cut = (cut - 1) + 1 by omega,drop_succ_cons,drop_append,
    drop_eq_nil_of_le (by omega),nil_append]
  congr 1
  omega

theorem markers_append (a b : List Value) : markers (a ++ b) = markers a ++ markers b := by
  simp [markers]

theorem markers_plain (h : ∀ m ∈ l, isNote m = false) : markers l = [] := by
  have hnone : l.filterMap (·.get? markerKey) = [] := by
    refine filterMap_eq_nil_iff.mpr (fun m hm => ?_)
    simpa [isNote] using h m hm
  rw [markers,hnone]
  rfl

theorem markers_note {m : Value} {window : Nat} {ts : List TranscriptRef}
    (h : m.get? markerKey = some (marker window ts)) : markers [m] = [marker window ts] := by
  have hschema : (marker window ts).index "schema" = .string schema := rfl
  simp [markers,h,hschema]

theorem fromValue_toValue (t : TranscriptRef) : TranscriptRef.fromValue t.toValue = some t := rfl

theorem markerRefs_marker (window : Nat) (ts : List TranscriptRef) :
    markerRefs (marker window ts) = ts := by
  have hentries : ((marker window ts).index "transcripts").asArray? =
      some (ts.map TranscriptRef.toValue) := rfl
  rw [markerRefs,hentries,getD_some,filterMap_map]
  exact (filterMap_congr (fun t _ => fromValue_toValue t)).trans filterMap_some

theorem foldl_recordRef (ts acc : List TranscriptRef)
    (h : (acc ++ ts).Pairwise (fun a b => a.window < b.window)) :
    ts.foldl recordRef acc = acc ++ ts := by
  induction ts generalizing acc with
  | nil => simp
  | cons t ts ih =>
    have hnew : recordRef acc t = acc ++ [t] := by
      refine if_neg (fun hany => ?_)
      obtain ⟨u,hu,heq⟩ := any_eq_true.mp hany
      have hlt := (pairwise_append.mp h).2.2 u hu t mem_cons_self
      simp only [decide_eq_true_eq] at heq
      omega
    rw [foldl_cons,hnew,ih (acc ++ [t]) (by simpa using h)]
    simp

theorem windowState_plain (h : ∀ m ∈ l, isNote m = false) : windowState l = (1,[]) := by
  simp [windowState,markers_plain h]

theorem windowState_marker {messages : List Value} {window : Nat} {ts : List TranscriptRef}
    (hm : markers messages = [marker window ts]) (hw : 1 ≤ window)
    (hts : ts.Pairwise (fun a b => a.window < b.window)) :
    windowState messages = (window,ts) := by
  have hwindow : asU64? ((marker window ts).index "window") = some window := rfl
  have hsort : ts.insertionSort (fun a b => a.window ≤ b.window) = ts :=
    (hts.imp le_of_lt).insertionSort_eq
  simp only [windowState,hm,foldl_cons,foldl_nil,hwindow,getD_some,
    flatMap_cons,flatMap_nil,append_nil,markerRefs_marker,
    foldl_recordRef ts [] hts,nil_append,hsort]
  rw [max_eq_right hw]

variable (retained : List String)

theorem isNote_rewrite (m : Value) : isNote (rewriteMessage retained m) = isNote m := by
  rw [isNote,get?_rewriteMessage retained m (by decide),isNote]

theorem isNote_carried {m c : Value} (h : carriedInstruction m = some c) : isNote c = false := by
  unfold carriedInstruction at h
  split at h
  · cases h
  rename_i hu
  simp only [Bool.or_eq_true,Bool.not_eq_true',not_or,Bool.not_eq_false,Bool.not_eq_true] at hu
  have hplain : isNote m = false := by
    have hhost := hu.2
    simp only [isHostBookkeeping,Bool.or_eq_false_iff] at hhost
    exact hhost.1.1.1
  split at h
  · split at h
    · exact some.inj h ▸ hplain
    · cases h
  · split at h
    · split at h
      · exact some.inj h ▸ hplain
      · cases h
    · dsimp only at h
      split at h
      · exact some.inj h ▸ rfl
      · cases h
  · cases h

theorem joinPath_suffix (dir name : List Char) : ∃ front, joinPath dir name = front ++ name := by
  unfold joinPath
  split
  · exact ⟨dir,rfl⟩
  · exact ⟨dir ++ ['/'],by simp⟩

variable {sink : TranscriptSink}

theorem transcriptPath_window {sink' : TranscriptSink} {a b : Nat}
    (h : transcriptPath sink a = transcriptPath sink' b) : a = b := by
  have htext := congrArg String.toList h
  simp only [transcriptPath,String.toList_ofList] at htext
  obtain ⟨front,hfront⟩ := joinPath_suffix sink.dir.toList
    (sanitizedStem sink.stem ++ ".window-".toList ++ toDigits 10 a ++ ".md".toList)
  obtain ⟨front',hfront'⟩ := joinPath_suffix sink'.dir.toList
    (sanitizedStem sink'.stem ++ ".window-".toList ++ toDigits 10 b ++ ".md".toList)
  rw [hfront,hfront'] at htext
  have hmark : ∀ (x : List Char) (n : Nat), x ++ ".window-".toList ++ toDigits 10 n =
      (x ++ ".window".toList) ++ '-' :: toDigits 10 n := fun x n => by simp
  simp only [← append_assoc] at htext
  have hbody := append_cancel_right htext
  rw [hmark,hmark] at hbody
  exact Text.toDigits_of_marked (by decide) hbody

theorem getElem?_append_some {α : Type} {l : List α} {i : Nat} {x : α} (h : l[i]? = some x)
    (l' : List α) : (l ++ l')[i]? = some x :=
  (getElem?_append_left (List.getElem?_eq_some_iff.mp h).1).trans h

theorem rollOver_spec {files files' : Files} {messages successor : List Value}
    {budget beforeTokens overheadTokens pressureTokens : Nat} {hardCapacity : Option Nat}
    {report : RolloverReport}
    (h : rollOver none files messages budget beforeTokens overheadTokens pressureTokens sink
      hardCapacity = (files',.ok (some (successor,report)))) :
    ∃ plan, planRollover messages budget beforeTokens (transcriptPath sink) = some plan ∧
      files' = Function.update files plan.transcriptPath (some plan.transcript) ∧
      successor = plan.successor ∧ report.window = plan.window ∧
      report.evictedMessages = plan.evictedMessages ∧
      report.transcript = plan.transcriptPath := by
  unfold rollOver at h
  cases hp : planRollover messages budget beforeTokens (transcriptPath sink) with
  | none => simp [hp] at h
  | some plan =>
    simp only [hp] at h
    split at h
    · simp at h
    split at h
    · simp at h
    · simp only [Prod.mk.injEq,Except.ok.injEq,some.injEq] at h
      obtain ⟨rfl,rfl,rfl⟩ := h
      exact ⟨plan,rfl,rfl,rfl,rfl,rfl,rfl⟩

theorem getElem?_concat_of_ge {α : Type} {l : List α} {i : Nat} {x y : α} (hi : l.length ≤ i)
    (h : (l ++ [y])[i]? = some x) : i = l.length ∧ y = x := by
  have hlt := (List.getElem?_eq_some_iff.mp h).1
  simp only [length_append,length_singleton] at hlt
  obtain rfl : i = l.length := by omega
  exact ⟨rfl,by simpa using h⟩

theorem forall₂_getElem? {α β : Type} {R : α → β → Prop} {l : List α} {l' : List β}
    (h : Forall₂ R l l') {p : Nat} {y : β} (hy : l'[p]? = some y) :
    ∃ x, l[p]? = some x ∧ R x y := by
  induction h generalizing p with
  | nil => simp at hy
  | cons hr _ ih =>
    cases p with
    | zero =>
      cases hy
      exact ⟨_,rfl,hr⟩
    | succ p => exact ih hy

/-- The history: the brief, what earlier rollovers carried, and all messages appended
that no transcript holds. -/
structure Layout (s : State) (brief : Value) (front live : List Value) : Prop where
  history : s.history = brief :: (front ++ live)
  plain : isNote brief = false
  front : Front front
  fresh : ∀ m ∈ live, isNote m = false
  first : ∃ m, s.appended[0]? = some m ∧ Rewritten m brief
  rest : List.Forall₂ Rewritten (s.appended.drop (gone s.reports)) live
  bound : gone s.reports ≤ s.appended.length

structure Inv (s : State) : Prop where
  layout : ∃ brief front live, Layout s brief front live
  windows : s.reports.map (·.window) = List.range' 2 s.reports.length
  paths : ∀ j r, s.reports[j]? = some r → ∃ sink, r.transcript = transcriptPath sink (j+1)
  state : windowState s.history = (1 + s.reports.length,refs s.reports)
  saved : ∀ j r, s.reports[j]? = some r → Saved s j r

theorem inv_init (s : State) (h : Init s) : Inv s := by
  obtain ⟨brief,rest,hs,_⟩ := h.user
  have hplain := h.unmarked
  refine ⟨⟨brief,[],rest,?_⟩,by simp [h.reports],by simp [h.reports],?_,by simp [h.reports]⟩
  · rw [hs] at hplain
    refine ⟨hs,hplain _ mem_cons_self,.fresh,
      fun m hm => hplain m (mem_cons_of_mem _ hm),⟨brief,by simp [h.appended,hs],.same⟩,?_,
      by simp [gone,h.appended,h.reports,hs]⟩
    simp only [gone,h.appended,h.reports,hs]
    exact forall₂_same.mpr (fun _ _ => .same)
  · rw [windowState_plain hplain,h.reports]
    rfl

variable {j : Nat} {r : RolloverReport}

variable {s : State}

theorem saved_append (h : Saved s j r) (messages : List Value) :
    Saved ⟨s.history ++ messages,s.files,s.appended ++ messages,s.reports⟩ j r := by
  obtain ⟨source,evicted,beforeTokens,file,hfile,heq,hlen,hget⟩ := h
  refine ⟨source,evicted,beforeTokens,file,hfile,heq,hlen,fun p i hi => ?_⟩
  obtain ⟨m,v,hm,hv⟩ := hget p i hi
  exact ⟨m,v,getElem?_append_some hm messages,hv⟩

theorem inv_append (h : Inv s) (messages : List Value) (hm : ∀ m ∈ messages, isNote m = false) :
    Inv ⟨s.history ++ messages,s.files,s.appended ++ messages,s.reports⟩ := by
  obtain ⟨brief,front,live,hl⟩ := h.layout
  refine ⟨⟨brief,front,live ++ messages,?_⟩,h.windows,h.paths,?_,
    fun j r hr => saved_append (h.saved j r hr) messages⟩
  · obtain ⟨m,hfirst,hrw⟩ := hl.first
    refine ⟨by simp [hl.history],hl.plain,hl.front,fun m hmem => ?_,
      ⟨m,getElem?_append_some hfirst messages,hrw⟩,?_,?_⟩
    · rcases mem_append.mp hmem with hmem | hmem
      · exact hl.fresh m hmem
      · exact hm m hmem
    · simp only
      rw [drop_append_of_le_length hl.bound]
      exact rel_append hl.rest (forall₂_same.mpr (fun _ _ => .same))
    · simp only [length_append]
      exact le_trans hl.bound (le_add_right _ _)
  · rw [← h.state]
    simp [windowState,markers_append,markers_plain hm]

variable (reports : List RolloverReport)

theorem gone_concat (r : RolloverReport) :
    gone (reports ++ [r]) = gone reports + r.evictedMessages := by
  simp [gone]
  omega

theorem isNote_map_rewrite (h : ∀ m ∈ l, isNote m = false) :
    ∀ m ∈ l.map (rewriteMessage retained), isNote m = false := by
  intro m hm
  obtain ⟨v,hv,rfl⟩ := mem_map.mp hm
  rw [isNote_rewrite,h v hv]

theorem forall₂_rewrite {l' : List Value} (h : Forall₂ Rewritten l l') :
    Forall₂ Rewritten l (l'.map (rewriteMessage retained)) := by
  rw [forall₂_map_right_iff]
  exact h.imp (fun _ _ hr => hr.stubs retained)

theorem refs_concat (r : RolloverReport) :
    refs (reports ++ [r]) = refs reports ++ [⟨r.window - 1,r.transcript,r.evictedMessages⟩] := by
  simp [refs]

theorem refs_window {reports : List RolloverReport} {n : Nat}
    (h : reports.map (·.window) = range' 2 n) :
    (refs reports).Pairwise (fun a b => a.window < b.window) := by
  have hw : ∀ r ∈ reports, 2 ≤ r.window := by
    intro r hr
    have hmem : r.window ∈ range' 2 n := h ▸ mem_map_of_mem hr
    rw [mem_range'_1] at hmem
    exact hmem.1
  have hlt : reports.Pairwise (fun a b => a.window < b.window) := by
    have hrange : (range' 2 n).Pairwise (· < ·) := pairwise_lt_range' ..
    rwa [← h,pairwise_map] at hrange
  rw [refs,pairwise_map]
  exact hlt.imp_of_mem (fun ha hb hab => by
    have := hw _ ha
    have := hw _ hb
    simp only
    omega)

section RollOver

variable {s : State} {brief : Value} {front live : List Value} {budget beforeTokens : Nat}
  {path : Nat → String} {plan : RolloverPlan} {cut : Nat} {pinned : List Value}
  {note : NoteFacts}

section

variable (hl : Layout s brief front live)
  (hp : Planned s.history budget beforeTokens path plan cut pinned note)

include hl hp

theorem cut_bounds : 1 + front.length ≤ cut ∧ cut ≤ 1 + front.length + live.length := by
  obtain ⟨hlo,hlt,_,_⟩ := mem_candidates hp.valid
  rw [hl.history,afterNotes_front brief hl.front hl.fresh] at hlo
  simp only [hl.history,length_cons,length_append] at hlt
  omega

theorem evicted_range :
    evictedBy s.history cut = range' (1 + front.length) (cut - (1 + front.length)) := by
  rw [hl.history]
  exact evictedBy_front brief hl.front hl.fresh (cut_bounds hl hp).2

end

theorem isNote_pinned (hp : Planned s.history budget beforeTokens path plan cut pinned note) :
    ∀ m ∈ pinned, isNote m = false := by
  intro m hm
  obtain ⟨i,_,hi⟩ := mem_filterMap.mp (hp.carried.subset hm)
  exact isNote_carried hi

section

variable (hl : Layout s brief front live)
  (hp : Planned s.history budget beforeTokens path plan cut pinned note)

include hl hp

theorem successor_parts : ∃ retained, plan.successor = rewriteMessage retained brief ::
      ((pinned.map (rewriteMessage retained) ++ [rewriteMessage retained (noteMessage note)]) ++
        (live.drop (cut - (1 + front.length))).map (rewriteMessage retained)) := by
  have hhead : s.history.getD 0 .null = brief := by rw [hl.history]; rfl
  have hdrop : s.history.drop cut = live.drop (cut - (1 + front.length)) := by
    rw [hl.history]
    exact drop_front brief (cut_bounds hl hp).1
  rw [hp.successor,hhead,hdrop]
  exact ⟨retainedResults (brief :: (pinned ++ noteMessage note ::
    live.drop (cut - (1 + front.length)))),by simp [rewriteDanglingStubs]⟩

theorem layout_rollOver (files : Files) (report : RolloverReport)
    (hr : report.evictedMessages = plan.evictedMessages) :
    ∃ brief' front' live', Layout ⟨plan.successor,files,s.appended,s.reports ++ [report]⟩
      brief' front' live' := by
  obtain ⟨retained,hsucc⟩ := successor_parts hl hp
  obtain ⟨hlo,hhi⟩ := cut_bounds hl hp
  have hcount : report.evictedMessages = cut - (1 + front.length) := by
    rw [hr,hp.evicted,evicted_range hl hp,length_range']
  have hrest := forall₂_drop (cut - (1 + front.length)) hl.rest
  rw [drop_drop] at hrest
  have hlen : live.length = s.appended.length - gone s.reports := by
    rw [← hl.rest.length_eq,length_drop]
  obtain ⟨m,hm,hrw⟩ := hl.first
  refine ⟨_,_,_,hsucc,?_,?_,?_,⟨m,hm,hrw.stubs retained⟩,?_,?_⟩
  · rw [isNote_rewrite]
    exact hl.plain
  · exact .rolled _ _ (isNote_map_rewrite retained (isNote_pinned hp))
      ((isNote_rewrite retained _).trans rfl)
  · exact isNote_map_rewrite retained (fun m hm => hl.fresh m (mem_of_mem_drop hm))
  · simp only [gone_concat,hcount]
    exact forall₂_rewrite retained hrest
  · have hbound := hl.bound
    simp only [gone_concat,hcount]
    omega

theorem state_rollOver (hs : windowState s.history = (1 + s.reports.length,refs s.reports))
    (hw : s.reports.map (·.window) = range' 2 s.reports.length) (report : RolloverReport)
    (hwindow : report.window = plan.window) (hpath : report.transcript = plan.transcriptPath)
    (hr : report.evictedMessages = plan.evictedMessages) :
    report.window = 2 + s.reports.length ∧
    windowState plan.successor = (2 + s.reports.length,refs (s.reports ++ [report])) := by
  have hreport : report.window = 2 + s.reports.length := by
    rw [hwindow,hp.window,hs]
    omega
  have hts : plan.transcripts = refs (s.reports ++ [report]) := by
    rw [hp.transcripts,refs_concat,hpath,hp.transcriptPath,hs,hr,hp.evicted,hreport,
      show 2 + s.reports.length - 1 = 1 + s.reports.length by omega]
  refine ⟨hreport,?_⟩
  obtain ⟨retained,hsucc⟩ := successor_parts hl hp
  have hmarker : markers plan.successor =
      [marker (2 + s.reports.length) (refs (s.reports ++ [report]))] := by
    have hnote : (rewriteMessage retained (noteMessage note)).get? markerKey =
        some (marker note.window note.transcripts) :=
      get?_rewriteMessage retained _ (by decide)
    have hlive := isNote_map_rewrite retained
      (fun m hm => hl.fresh m (mem_of_mem_drop (i := cut - (1 + front.length)) hm))
    have hbrief : ∀ m ∈ [rewriteMessage retained brief], isNote m = false := by
      intro m hm
      rw [mem_singleton.mp hm,isNote_rewrite]
      exact hl.plain
    rw [hsucc,← singleton_append,markers_append,markers_append,markers_append,
      markers_plain hbrief,markers_plain (isNote_map_rewrite retained (isNote_pinned hp)),
      markers_plain hlive]
    rw [markers_note hnote,← hts,← hp.noteTranscripts,
      show 2 + s.reports.length = note.window by rw [hp.noteWindow,hs]; omega]
    rfl
  refine windowState_marker hmarker (by omega) (refs_window (n := s.reports.length + 1) ?_)
  rw [map_append,hw,range'_1_concat]
  simp [hreport]

theorem saved_new (hs : (windowState s.history).1 = 1 + s.reports.length)
    (report : RolloverReport) (hpath : report.transcript = plan.transcriptPath)
    (hr : report.evictedMessages = plan.evictedMessages) :
    Saved ⟨plan.successor,Function.update s.files plan.transcriptPath (some plan.transcript),
      s.appended,s.reports ++ [report]⟩ s.reports.length report := by
  refine ⟨s.history,evictedBy s.history cut,beforeTokens,plan.transcript,?_,?_,
    by rw [hr,hp.evicted],?_⟩
  · simp only [hpath,Function.update_self]
  · rw [hp.transcript,hs,add_comm]
  · intro p i hi
    have hmem := mem_of_getElem? hi
    rw [evicted_range hl hp] at hi
    obtain ⟨hlt,rfl⟩ := List.getElem?_eq_some_iff.mp hi
    obtain ⟨_,hhi⟩ := cut_bounds hl hp
    rw [length_range'] at hlt
    obtain ⟨v,hlive⟩ : ∃ v, live[p]? = some v := ⟨_,getElem?_eq_getElem (by omega)⟩
    obtain ⟨m,hm,hrw⟩ := forall₂_getElem? hl.rest hlive
    rw [getElem?_drop] at hm
    have hv : s.history[(range' (1 + front.length) (cut - (1 + front.length)))[p]]? = some v := by
      rw [hl.history,getElem_range',
        show 1 + front.length + 1 * p = (front.length + p) + 1 by omega,
        getElem?_cons_succ,getElem?_append_right (le_add_right _ _),
        Nat.add_sub_cancel_left]
      exact hlive
    refine ⟨m,v,by simpa using hm,hv,hrw,fun t ht => ?_⟩
    rw [hp.transcript]
    exact texts_renderTranscript hmem hv ht _ _

end

end RollOver

theorem saved_rollOver (h : Saved s j r) (hj : s.reports[j]? = some r) (successor : List Value)
    {path : String} (text : Option (List Char)) (hpath : r.transcript ≠ path)
    (report : RolloverReport) :
    Saved ⟨successor,Function.update s.files path text,s.appended,s.reports ++ [report]⟩ j r := by
  obtain ⟨source,evicted,beforeTokens,file,hfile,heq,hlen,hget⟩ := h
  have hlt := (List.getElem?_eq_some_iff.mp hj).1
  refine ⟨source,evicted,beforeTokens,file,?_,heq,hlen,fun p i hi => ?_⟩
  · simp only [Function.update_of_ne hpath]
    exact hfile
  · simp only [take_append_of_le_length (le_of_lt hlt)]
    exact hget p i hi

theorem inv_rollOver (h : Inv s) {budget beforeTokens overheadTokens pressureTokens : Nat}
    {hardCapacity : Option Nat} {successor : List Value} {report : RolloverReport} {files : Files}
    (hroll : rollOver none s.files s.history budget beforeTokens overheadTokens pressureTokens sink
      hardCapacity = (files,.ok (some (successor,report)))) :
    Inv ⟨successor,files,s.appended,s.reports ++ [report]⟩ := by
  obtain ⟨plan,hplan,rfl,rfl,hwindow,hevicted,hpath⟩ := rollOver_spec hroll
  obtain ⟨cut,pinned,note,hp⟩ := planRollover_spec hplan
  obtain ⟨brief,front,live,hl⟩ := h.layout
  obtain ⟨hreport,hstate⟩ := state_rollOver hl hp h.state h.windows report hwindow hpath hevicted
  have hfirst : (windowState s.history).1 = 1 + s.reports.length := by rw [h.state]
  have hnew : report.transcript = transcriptPath sink (s.reports.length + 1) := by
    rw [hpath,hp.transcriptPath,hfirst,add_comm]
  refine ⟨layout_rollOver hl hp _ report hevicted,?_,?_,?_,?_⟩
  · simp only [map_append,h.windows,length_append,length_singleton]
    rw [range'_1_concat]
    simp [hreport]
  · intro j r hj
    rcases lt_or_ge j s.reports.length with hlt | hge
    · exact h.paths j r ((getElem?_append_left hlt).symm.trans hj)
    · obtain ⟨rfl,rfl⟩ := getElem?_concat_of_ge hge hj
      exact ⟨sink,hnew⟩
  · rw [hstate]
    simp only [length_append,length_singleton]
    congr 1
    omega
  · intro j r hj
    rcases lt_or_ge j s.reports.length with hlt | hge
    · have hold : s.reports[j]? = some r := (getElem?_append_left hlt).symm.trans hj
      refine saved_rollOver (h.saved j r hold) hold _ _ (fun heq => ?_) report
      obtain ⟨sink',hsink'⟩ := h.paths j r hold
      rw [← hpath,hnew,hsink'] at heq
      have := transcriptPath_window heq
      omega
    · obtain ⟨rfl,rfl⟩ := getElem?_concat_of_ge hge hj
      exact saved_new hl hp hfirst report hpath hevicted

theorem inv_step (s t : State) (h : Inv s) (hst : Step s t) : Inv t := by
  cases hst with
  | append messages hm => exact inv_append h messages hm
  | rollOver budget beforeTokens overheadTokens pressureTokens sink hardCapacity successor
      report files hroll => exact inv_rollOver h hroll

theorem gone_take_succ {reports : List RolloverReport} (h : reports[j]? = some r) :
    gone (reports.take (j+1)) = gone (reports.take j) + r.evictedMessages := by
  rw [take_add_one,h,toList_some,gone_concat]

theorem gone_take_mono {i : Nat} (hij : i ≤ j) : gone (reports.take i) ≤ gone (reports.take j) := by
  obtain ⟨rest,hrest⟩ := take_prefix_take_left (l := reports) hij
  simp only [gone,← hrest,map_append,sum_append_nat]
  omega

theorem exists_block {k : Nat} (h1 : 1 ≤ k) (hk : k < gone reports) : ∃ j r, reports[j]? = some r ∧
      gone (reports.take j) ≤ k ∧ k < gone (reports.take j) + r.evictedMessages := by
  induction reports using reverseRecOn with
  | nil => simp [gone] at hk; omega
  | append_singleton reports r ih =>
    rcases lt_or_ge k (gone reports) with hlt | hge
    · obtain ⟨j,r',hj,hlo,hhi⟩ := ih hlt
      have hlen := (List.getElem?_eq_some_iff.mp hj).1
      refine ⟨j,r',getElem?_append_some hj [r],?_⟩
      rw [take_append_of_le_length (le_of_lt hlen)]
      exact ⟨hlo,hhi⟩
    · refine ⟨reports.length,r,by simp,?_⟩
      rw [gone_concat] at hk
      rw [take_left']
      · exact ⟨hge,hk⟩
      · rfl

theorem renders_unique {i k : Nat} (hi : Renders s i k) (hj : Renders s j k) : i = j := by
  obtain ⟨r,hr,-,hle,hlt⟩ := hi
  obtain ⟨r',hr',-,hle',hlt'⟩ := hj
  rcases lt_trichotomy i j with hij | hij | hij
  · have hmono := gone_take_mono s.reports (succ_le_of_lt hij)
    rw [succ_eq_add_one,gone_take_succ hr] at hmono
    omega
  · exact hij
  · have hmono := gone_take_mono s.reports (succ_le_of_lt hij)
    rw [succ_eq_add_one,gone_take_succ hr'] at hmono
    omega

theorem kept_of_inv (h : Inv s) (k : Nat) (m : Value) (hm : s.appended[k]? = some m) :
    (∃ v ∈ s.history, Rewritten m v) ∨ ∃! j, Renders s j k := by
  obtain ⟨brief,front,live,hl⟩ := h.layout
  rcases Nat.eq_zero_or_pos k with rfl | hpos
  · obtain ⟨m',hm',hrw⟩ := hl.first
    cases hm.symm.trans hm'
    exact .inl ⟨brief,by simp [hl.history],hrw⟩
  · rcases lt_or_ge k (gone s.reports) with hlt | hge
    · right
      obtain ⟨j,r,hj,hlo,hhi⟩ := exists_block s.reports hpos hlt
      have hrenders : Renders s j k := ⟨r,hj,h.saved j r hj,hlo,hhi⟩
      exact ⟨j,hrenders,fun j' hj' => renders_unique hj' hrenders⟩
    · left
      have hdrop : (s.appended.drop (gone s.reports))[k - gone s.reports]? = some m := by
        rw [getElem?_drop,show gone s.reports + (k - gone s.reports) = k by omega,hm]
      obtain ⟨v,hv,hrw⟩ := forall₂_getElem? hl.rest.flip hdrop
      refine ⟨v,?_,hrw⟩
      rw [hl.history]
      exact mem_cons_of_mem _ (mem_append_right _ (mem_of_getElem? hv))

theorem transcripts_nodup (h : Inv s) : (s.reports.map (·.transcript)).Nodup := by
  rw [nodup_iff_getElem?_ne_getElem?]
  intro i j hij hj heq
  rw [length_map] at hj
  obtain ⟨r,hr⟩ : ∃ r, s.reports[i]? = some r := ⟨_,getElem?_eq_getElem (by omega)⟩
  obtain ⟨r',hr'⟩ : ∃ r, s.reports[j]? = some r := ⟨_,getElem?_eq_getElem hj⟩
  obtain ⟨sink,hsink⟩ := h.paths i r hr
  obtain ⟨sink',hsink'⟩ := h.paths j r' hr'
  simp only [getElem?_map,hr,hr',map_some,some.injEq] at heq
  rw [hsink,hsink'] at heq
  have := transcriptPath_window heq
  omega

/-- In every run of a worker nothing that was appended is lost, and its history says
where the transcripts are. -/
theorem worker_lossless {s : State} (h : Reachable Init Step s) : Lossless s := by
  have hinv := h.invariant Inv inv_init inv_step
  refine ⟨kept_of_inv hinv,transcripts_nodup hinv,?_,?_,?_⟩
  · rw [hinv.state]
    exact refs_window hinv.windows
  · rw [hinv.state]
    simp [refs]
  · rw [hinv.state]

theorem estimate_le_size (text : List Char) : conservativeTokenEstimate text ≤ Utf8.size text := by
  have hsum : (text.map (fun c => if c.toNat < 128 then 2 else 5 * c.utf8Size)).sum ≤
      5 * Utf8.size text := by
    induction text with
    | nil => exact Nat.le_refl _
    | cons c text ih =>
      have hpos := c.utf8Size_pos
      rw [← singleton_append,Utf8.size_append,map_append,sum_append_nat]
      simp only [Utf8.size,Utf8.encode,flatMap_singleton,map_singleton,sum_singleton,
        Utf8.length_encodeChar] at ih ⊢
      split <;> omega
  unfold conservativeTokenEstimate
  omega

theorem wireMessage_note (f : NoteFacts) : wireMessage (noteMessage f) =
    .object [("content",.array [.object [("text",.string (noteText f)),("type",.string "text")]]),
      ("role",.string "user")] := by
  have hkey : isHostKey markerKey = true := by decide
  have hcontent : isHostKey "content" = false := by decide
  have hrole : isHostKey "role" = false := by decide
  simp [noteMessage,wireMessage,hkey,hcontent,hrole]

theorem estimateMessage_note (f : NoteFacts) :
    estimateMessage (noteMessage f) ≤ 6 * (noteText f).utf8ByteSize + 60 := by
  have hwire : estimateMessage (noteMessage f) = estimateSerialized (wireMessage (noteMessage f)) :=
    rfl
  have hwords : ["content","text","type","text","role","user"].map (Utf8.size ∘ printString) =
      [9,6,6,6,6,6] := by decide
  have htext := size_printString (noteText f)
  simp only [map_cons,Function.comp_apply,cons.injEq] at hwords
  rw [hwire,wireMessage_note]
  refine (estimate_le_size _).trans ?_
  simp (disch := decide) only [print,printEntries,printItems,Utf8.size_cons,Utf8.size_append,
    Utf8.size_nil,hwords]
  omega

def screenshot : Value :=
  .object [("source",.object [("data",.string "iVBO"),("type",.string "base64")]),
    ("type",.string "image")]

def shotHistory : List Value :=
  [blocksMessage "user" [],blocksMessage "assistant" (replicate 6 screenshot),
    blocksMessage "assistant" []]

theorem shot_plan : ∃ note plan, (noteText note).utf8ByteSize ≤ 1000 ∧
    planRollover shotHistory 0 0 (transcriptPath ⟨"/w","s"⟩) = some plan ∧
    plan.evictedMessages = 1 ∧
    plan.successor = [blocksMessage "user" [],noteMessage note,blocksMessage "assistant" []] := by
  have hplan := @planRollover_last 2 shotHistory 0 (transcriptPath ⟨"/w","s"⟩) _ (by decide)
    (by decide) (by decide) (by decide) rfl
  refine ⟨_,_,?_,hplan,rfl,rfl⟩
  decide +kernel

theorem shot_rollOver : ∃ files successor report, rollOver none (fun _ => none) shotHistory 0 0 0
    10000 ⟨"/w","s"⟩ none = (files,.ok (some (successor,report))) ∧ report.evictedMessages = 1 := by
  obtain ⟨note,plan,hnote,hplan,hone,hsucc⟩ := shot_plan
  have hbefore : 9000 < estimateHistory shotHistory := by decide +kernel
  have hafter : estimateHistory plan.successor < 7000 := by
    have hmessage := estimateMessage_note note
    have hends : estimateMessage (blocksMessage "user" []) < 100 ∧
        estimateMessage (blocksMessage "assistant" []) < 100 := by decide +kernel
    rw [hsucc]
    simp only [estimateHistory,foldl_cons,foldl_nil,saturatingAdd,perMessageFramingTokens]
    omega
  have hless : saturatingAdd (estimateHistory plan.successor) minShrinkTokens <
      estimateHistory shotHistory := (min_le_left _ _).trans_lt (by rw [minShrinkTokens]; omega)
  have hprod : planIsProductive shotHistory plan = true := by
    simp [planIsProductive,hless,(planRollover_pairs hplan).1 (by decide)]
  have hroom : ¬ 10000 ≤ saturatingAdd 0 (estimateHistory plan.successor) := by
    unfold saturatingAdd
    omega
  have hroll := @rollOver.eq_def none (fun _ => none) shotHistory 0 0 0 10000 ⟨"/w","s"⟩ none
  simp only [hplan,hprod,Bool.not_true,Bool.false_eq_true,if_false,getD_none,ge_iff_le,
    if_neg hroom] at hroll
  exact ⟨_,_,_,hroll,hone⟩

/-- A message that has been rolled out of the history. -/
theorem worker_lossless_shot : ∃ s, Reachable Init Step s ∧ s.appended = shotHistory ∧
    gone s.reports = 2 ∧ Lossless s := by
  obtain ⟨files,successor,report,hroll,hone⟩ := shot_rollOver
  have hinit : Init ⟨shotHistory,fun _ => none,shotHistory,[]⟩ :=
    ⟨⟨_,_,rfl,by decide⟩,by decide,rfl,rfl⟩
  have hreach := (Reachable.init hinit).step
    (Step.rollOver 0 0 0 10000 ⟨"/w","s"⟩ none _ _ _ hroll)
  exact ⟨_,hreach,rfl,by simp [gone,hone],worker_lossless hreach⟩

end Synaps.Worker
