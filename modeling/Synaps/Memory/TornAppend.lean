import Synaps.Memory.IndexRuns

/-!
An append to the store that is cut by a crash. The next append isolates what was written on a
line of its own, which the readers skip; but two of them decode more than one line at a time or
give up on bytes that are no UTF-8, so a cut inside of a character stops them.
-/

set_option autoImplicit false

namespace Synaps.Memory

open Retention Runs List

/-- A store with its index, the records that were appended whole, and the record whose append
was cut with the number of bytes that were written. -/
structure TornStore where
  store : Option (List UInt8)
  dir : Option Dir
  whole : List MemoryRecord
  torn : Option (MemoryRecord × Nat)

section

variable (D : Retention.Deps) (scope : ProjectScope)

/-- One step; the records are such that the JSON reader gives them back. -/
inductive TornMove : TornStore → TornStore → Prop
  | append (s : TornStore) (r : MemoryRecord) (bytes : List UInt8) (hread : D.ReadsBack r)
      (h : appendTo s.store r = .ok bytes) :
      TornMove s { s with store := some bytes, whole := s.whole ++ [r] }
  | tear (s : TornStore) (r : MemoryRecord) (cut : Nat) (hread : D.ReadsBack r)
      (hfirst : s.torn = none) (hcheck : checkRecord r = .ok ())
      (hcut : cut < (appendedBytes s.store r.text).length) :
      TornMove s { s with
        store := some (s.store.getD [] ++ (appendedBytes s.store r.text).take cut)
        torn := some (r,cut) }
  | ensure (s : TornStore) (stop : Nat) :
      TornMove s { s with
        dir := applyOps s.dir ((ensureIndex D.toDeps scope s.store s.dir).ops.take stop) }
  | search (s : TornStore) (q : IndexQuery) :
      TornMove s { s with dir := (searchIndex D.toDeps scope s.store s.dir q).2 }

def TornStore.Fresh (s : TornStore) : Prop :=
  s.store = none ∧ s.dir = none ∧ s.whole = [] ∧ s.torn = none

def SameRecord (a b : MemoryRecord) : Prop := ∃ info, a = { b with info }

structure Unharmed (s : TornStore) : Prop where
  live : ∃ live, loadLiveProjectRecords D.toDeps scope s.store = .ok live ∧
    List.Forall₂ SameRecord live (s.whole.filter (inScope scope))
  search : ∀ q, searchProject D.toDeps scope s.store q =
    searchProject D.toDeps scope (some (fileBytes (s.whole.map MemoryRecord.text) [])) q
  staging : ∃ status, (ensureIndexIn D.toDeps scope s.store s.dir).1 = .ok status
  index : ∀ q, ∃ page, (searchIndex D.toDeps scope s.store s.dir q).1 = .ok page ∧
    Answers D.toDeps q ((s.whole.filter (inScope scope)).filterMap (docOf? D.toDeps)) page
  compaction : ∀ nowMs cutoff, ∃ result,
    compactMemoryFile D (s.store.getD []) nowMs cutoff = .ok result

/-- The append was not cut inside of a character, nor right before the newline of a record of
the project. -/
def Harmless (s : TornStore) : Prop :=
  ∀ r cut, s.torn = some (r,cut) →
    (Utf8.decode ((Utf8.encode r.text).take cut)).isSome ∧
      ¬ (cut = (Utf8.encode r.text).length ∧ inScope scope r = true)

/-- The JSON reader takes no part of a record's text. -/
def RejectsTorn (M : Memory.Deps) : Prop :=
  ∀ (r : MemoryRecord) (t : List Char), t ≠ [] → t <+: r.text → t ≠ r.text → M.parse t = none

end

variable {M : Memory.Deps} {scope : ProjectScope}

theorem text_head (r : MemoryRecord) : r.text.head? = some '{' := rfl

variable {t : List Char}

theorem trim_ne_nil (h : t.head? = some '{') : Text.trim t ≠ [] := by
  obtain ⟨rest,rfl⟩ := head?_eq_some_iff.mp h
  intro hnil
  have hstart : Text.trimStart ('{' :: rest) = '{' :: rest := rfl
  rw [Text.trim,hstart,rdropWhile_eq_nil_iff] at hnil
  exact absurd (hnil '{' mem_cons_self) (by decide)

theorem trim_newline_initial (h : t.head? = some '{') : Text.trim (t ++ ['\n']) <+: t := by
  obtain ⟨rest,rfl⟩ := head?_eq_some_iff.mp h
  have hstart : Text.trimStart ('{' :: rest ++ ['\n']) = '{' :: rest ++ ['\n'] := rfl
  rw [Text.trim,hstart,rdropWhile_concat_pos _ _ _ (by decide)]
  exact rdropWhile_prefix _ _

variable {r : MemoryRecord}

theorem torn_lineIs (hT : RejectsTorn M) (hne : t ≠ []) (hpre : t <+: r.text) (hpart : t ≠ r.text) :
    LineIs M t .garbage := by
  have hhead : t.head? = some '{' := by
    cases t with
    | nil => exact absurd rfl hne
    | cons c t =>
      obtain ⟨rest,hrest⟩ := hpre
      have htext := text_head r
      rwa [← hrest] at htext
  have htrim := trim_newline_initial hhead
  have hstaged : Text.trim (t ++ ['\n']) ≠ [] := trim_ne_nil (by
    rw [head?_append,hhead]
    rfl)
  refine ⟨?_,trim_ne_nil hhead,hstaged,storeKind_garbage (hT r t hne hpre hpart),
    indexKind_garbage (hT r _ hstaged (htrim.trans hpre) fun heq => ?_)⟩
  · exact fun c hc => (Written.record r).plain c (hpre.subset hc)
  · have hlen := htrim.length_le
    rw [heq] at hlen
    exact hpart (hpre.eq_of_length_le hlen)

theorem prefix_lineIs (hM : M.Reads) (hT : RejectsTorn M) (hpre : t <+: r.text) :
    ∀ l ∈ tails t, LineIs M l (storeKind M l) := by
  intro l hl
  unfold tails at hl
  split at hl
  · cases hl
  rename_i hne
  obtain rfl := mem_singleton.mp hl
  by_cases hpart : l = r.text
  · rw [hpart]
    exact (Written.record r).lineIs hM
  · have h := torn_lineIs hT hne hpre hpart
    rw [h.store]
    exact h

section

variable (hM : M.Reads) (rs : List MemoryRecord)

include hM

theorem texts_lineIs : ∀ l ∈ rs.map MemoryRecord.text, LineIs M l (storeKind M l) := by
  intro l hl
  obtain ⟨r,-,rfl⟩ := mem_map.mp hl
  exact (Written.record r).lineIs hM

theorem tombsOf_text (r : MemoryRecord) : tombsOf [storeKind M r.text] = [] := by
  rcases hM.record r with hr | hr
  · obtain ⟨info,hkind,-⟩ := kinds_record hr
    rw [hkind]
    rfl
  · rw [storeKind_garbage hr]
    rfl

theorem tombsOf_texts : tombsOf (kindsOf M (rs.map MemoryRecord.text)) = [] := by
  induction rs with
  | nil => rfl
  | cons r rs ih =>
    rw [kindsOf,map_cons,map_cons,← singleton_append,tombsOf_append,tombsOf_text hM]
    exact ih

end

section

variable {rs : List MemoryRecord} (hread : ∀ r ∈ rs, M.ReadsBack r)

include hread

theorem recordsOf_texts :
    Forall₂ SameRecord (recordsOf scope (kindsOf M (rs.map MemoryRecord.text)))
      (rs.filter (inScope scope)) := by
  induction rs with
  | nil => exact .nil
  | cons r rs ih =>
    obtain ⟨info,hkind,-⟩ := kinds_record (hread r mem_cons_self)
    replace ih := ih fun r hr => hread r (mem_cons_of_mem _ hr)
    have hscope : inScope scope { r with info } = inScope scope r := rfl
    simp only [kindsOf,map_cons,hkind,recordsOf,filterMap_cons,hscope] at ih ⊢
    by_cases hin : inScope scope r = true
    · rw [if_pos hin,filter_cons_of_pos hin]
      exact .cons ⟨info,rfl⟩ ih
    · rw [if_neg hin,filter_cons_of_neg hin]
      exact ih

end

section

variable {ks : List LineKind}

theorem mem_recordsOf {r : MemoryRecord} (h : r ∈ recordsOf scope ks) : inScope scope r = true := by
  obtain ⟨k,-,hk⟩ := mem_filterMap.mp h
  cases k with
  | tombstone id | garbage => cases hk
  | record r' =>
    simp only at hk
    split at hk
    · rename_i hin
      exact Option.some.inj hk ▸ hin
    · cases hk

theorem liveRecords_eq (h : tombsOf ks = []) : liveRecords scope ks = recordsOf scope ks := by
  rw [liveRecords,h]
  refine filter_eq_self.mpr fun r hr => ?_
  have hid : r.id.isSome = true := (Bool.and_eq_true_iff.mp (mem_recordsOf hr)).2
  obtain ⟨id,hid⟩ := Option.isSome_iff_exists.mp hid
  rw [hid]
  rfl

theorem staysForgotten_of_nil (h : tombsOf ks = []) : StaysForgotten M scope ks := by
  rintro a b rfl d - hm
  rw [tombsOf_append,append_eq_nil_iff] at h
  rw [h.1] at hm
  cases hm

end

theorem filterMap_docOf {live rs : List MemoryRecord} (h : Forall₂ SameRecord live rs) :
    live.filterMap (docOf? M) = rs.filterMap (docOf? M) := by
  induction h with
  | nil => rfl
  | @cons a b _ _ hab _ ih =>
    obtain ⟨info,rfl⟩ := hab
    rw [filterMap_cons,filterMap_cons,ih]
    rfl

theorem tombsOf_tails (hM : M.Reads) (hT : RejectsTorn M) (hpre : t <+: r.text) :
    tombsOf (kindsOf M (tails t)) = [] := by
  unfold tails
  split
  · rfl
  · rename_i hne
    by_cases hpart : t = r.text
    · rw [hpart]
      exact tombsOf_text hM r
    · simp only [kindsOf,map_cons,map_nil,(torn_lineIs hT hne hpre hpart).store]
      rfl

/-- The line that a cut append leaves behind adds a record only if it is the whole text of one in
scope. -/
theorem recordsOf_tails (hr : M.ReadsBack r) (hT : RejectsTorn M) (hpre : t <+: r.text) :
    (recordsOf scope (kindsOf M (tails t))).length =
      if t = r.text ∧ inScope scope r = true then 1 else 0 := by
  unfold tails
  split
  · rename_i hnil
    have hne : t ≠ r.text := fun heq => (Written.record r).ne_nil (heq ▸ hnil)
    rw [if_neg fun h => hne h.1]
    rfl
  · rename_i hne
    by_cases hpart : t = r.text
    · obtain ⟨info,hkind,-⟩ := kinds_record hr
      have hscope : inScope scope { r with info } = inScope scope r := rfl
      simp only [kindsOf,map_cons,map_nil,hpart,hkind,true_and]
      by_cases hin : inScope scope r = true
      · rw [if_pos hin]
        simp [recordsOf,hscope,hin]
      · rw [if_neg hin]
        simp [recordsOf,hscope,hin]
    · rw [if_neg fun h => hpart h.1]
      simp only [kindsOf,map_cons,map_nil,(torn_lineIs hT hne hpre hpart).store]
      rfl

theorem loadLive_getD (file : Option (List UInt8)) :
    loadLiveProjectRecords M scope file = loadLiveProjectRecords M scope (some (file.getD [])) := by
  cases file with
  | none | some bytes => rfl

theorem appendJsonlLine_torn {file : Option (List UInt8)} {ls : List (List Char)} (ht : '\n' ∉ t)
    (h : file.getD [] = fileBytes ls t) (l : List Char) :
    appendJsonlLine file l = fileBytes (ls ++ tails t ++ [l]) [] := by
  unfold tails
  split
  · rename_i hnil
    rw [append_nil]
    exact appendJsonlLine_fileBytes (hnil ▸ h) l
  · rename_i hne
    have hencode : Utf8.encode t ≠ [] := fun he => hne (Utf8.encode_injective he)
    have hheal : (!(fileBytes ls t).isEmpty && !Lines.endsWithNewline (fileBytes ls t)) = true := by
      rw [fileBytes,Lines.endsWithNewline_false hencode (fun b hb => mem_flatMap.mp hb) ht]
      simp [hencode]
    simp only [appendJsonlLine,appendedBytes,h,hheal]
    simp [fileBytes,Lines.terminated]

/-- The lines that end in a newline: those of the records before the cut, and once a record was
appended after it also the torn line and those behind it. -/
def closedLines (before after : List MemoryRecord) (t : List Char) : List (List Char) :=
  before.map MemoryRecord.text ++
    if after = [] then [] else tails t ++ after.map MemoryRecord.text

def openTail (after : List MemoryRecord) (t : List Char) : List Char :=
  if after = [] then t else []

def Shape (M : Memory.Deps) (scope : ProjectScope) (s : TornStore) (t : List Char) : Prop :=
  ∃ before after, s.whole = before ++ after ∧
    s.store.getD [] = fileBytes (closedLines before after t) (openTail after t) ∧
    Staged M scope (closedLines before after t) (kindsOf M (closedLines before after t)) s.dir

/-- Bytes that are no UTF-8 stand between whole lines. -/
def Broken (s : TornStore) (p : List UInt8) : Prop :=
  ∃ a b : List Char, s.store.getD [] = Utf8.encode a ++ p ++ Utf8.encode b ∧
    (b = [] ∨ b.head? = some '\n')

theorem closedLines_lineIs (hM : M.Reads) (ht : ∀ l ∈ tails t, LineIs M l (storeKind M l))
    (before after : List MemoryRecord) :
    Forall₂ (LineIs M) (closedLines before after t)
      (kindsOf M (closedLines before after t)) := by
  refine lineIs_kindsOf fun l hl => ?_
  rcases mem_append.mp hl with hl | hl
  · exact texts_lineIs hM before l hl
  split at hl
  · cases hl
  · rcases mem_append.mp hl with hl | hl
    · exact ht l hl
    · exact texts_lineIs hM after l hl

theorem openTail_newline (ht : '\n' ∉ t) (after : List MemoryRecord) : '\n' ∉ openTail after t := by
  unfold openTail
  split
  · exact ht
  · exact not_mem_nil

section

variable {s : TornStore}

variable {r : MemoryRecord}

theorem Shape.append {t : List Char} (h : Shape M scope s t) (ht : '\n' ∉ t) {bytes : List UInt8}
    (happend : appendTo s.store r = .ok bytes) :
    Shape M scope { s with store := some bytes, whole := s.whole ++ [r] } t := by
  obtain ⟨before,after,hwhole,hstore,hstaged⟩ := h
  have hlines : closedLines before (after ++ [r]) t =
      closedLines before after t ++ (tails (openTail after t) ++ [r.text]) := by
    cases after with
    | nil => simp [closedLines,openTail]
    | cons a after => simp [closedLines,openTail,tails]
  refine ⟨before,after ++ [r],by rw [hwhole,append_assoc],?_,?_⟩
  · have htail : openTail (after ++ [r]) t = [] := by simp [openTail]
    rw [hlines,htail,appendTo_ok happend,← append_assoc]
    exact appendJsonlLine_torn (openTail_newline ht after) hstore r.text
  · rw [hlines,kindsOf,map_append]
    exact hstaged.append (length_map _).symm

theorem Broken.append {p : List UInt8} (h : Broken s p) (hne : p ≠ []) (hp : (10 : UInt8) ∉ p)
    {bytes : List UInt8} (happend : appendTo s.store r = .ok bytes) :
    Broken { s with store := some bytes, whole := s.whole ++ [r] } p := by
  obtain ⟨a,b,hstore,hb⟩ := h
  generalize hheal : (if !(s.store.getD []).isEmpty && !Lines.endsWithNewline (s.store.getD []) then
    ['\n'] else []) = heal
  refine ⟨a,b ++ (heal ++ r.text ++ ['\n']),?_,.inr ?_⟩
  · rw [appendTo_ok happend,Utf8.encode_append,← append_assoc,← hstore,← hheal]
    rfl
  · rcases hb with rfl | hb
    · have hopen : Lines.endsWithNewline (s.store.getD []) = false := by
        rw [hstore,Utf8.encode_nil,append_nil,Lines.endsWithNewline,
          getLast?_append_of_ne_nil _ hne,beq_eq_false_iff_ne]
        exact fun hlast => hp (mem_of_getLast? hlast)
      have hsome : (s.store.getD []).isEmpty = false := by
        rw [hstore]
        simp [hne]
      rw [hopen,hsome] at hheal
      rw [← hheal]
      rfl
    · obtain ⟨rest,rfl⟩ := head?_eq_some_iff.mp hb
      rfl

/-- What is known of a store: the lines of the records, with what was written of a cut append,
as text or else as bytes that are no UTF-8. -/
def TornInv (M : Memory.Deps) (scope : ProjectScope) (s : TornStore) : Prop :=
  match s.torn with
  | none => Shape M scope s []
  | some (r,cut) => cut ≤ (Utf8.encode r.text).length ∧
    match Utf8.decode ((Utf8.encode r.text).take cut) with
    | some t => Shape M scope s t
    | none => Broken s ((Utf8.encode r.text).take cut)

theorem TornInv.none (h : TornInv M scope s) (htorn : s.torn = none) : Shape M scope s [] := by
  rwa [TornInv,htorn] at h

theorem tornInv_some {cut : Nat} (htorn : s.torn = some (r,cut)) :
    TornInv M scope s ↔ cut ≤ (Utf8.encode r.text).length ∧
      ((∃ t, Utf8.decode ((Utf8.encode r.text).take cut) = some t ∧ Shape M scope s t) ∨
        Utf8.decode ((Utf8.encode r.text).take cut) = Option.none ∧
          Broken s ((Utf8.encode r.text).take cut)) := by
  rw [TornInv,htorn]
  refine and_congr_right fun _ => ?_
  cases hdecode : Utf8.decode ((Utf8.encode r.text).take cut) with
  | none | some t => simp

end

theorem prefix_of_decode {cs : List Char} {cut : Nat}
    (h : Utf8.decode ((Utf8.encode cs).take cut) = some t) : t <+: cs := by
  have hbytes := Utf8.encode_of_decode h
  have hsplit : Utf8.encode cs = Utf8.encode t ++ (Utf8.encode cs).drop cut := by
    rw [hbytes,take_append_drop]
  obtain ⟨rest,rfl,-⟩ := Utf8.encode_eq_append hsplit
  exact ⟨rest,rfl⟩

theorem prefix_newline (h : t <+: r.text) : '\n' ∉ t :=
  fun hm => (Written.record r).plain.newline (h.subset hm)

theorem tornBytes_newline (r : MemoryRecord) (cut : Nat) :
    (10 : UInt8) ∉ (Utf8.encode r.text).take cut :=
  fun hm => Lines.newline_notMem_encode (Written.record r).plain.newline (mem_of_mem_take hm)

structure Leftover (M : Memory.Deps) (t : List Char) : Prop where
  lineIs : ∀ l ∈ tails t, LineIs M l (storeKind M l)
  tombs : tombsOf (kindsOf M (tails t)) = []
  newline : '\n' ∉ t

theorem leftover_nil : Leftover M [] :=
  ⟨nofun,rfl,not_mem_nil⟩

theorem leftover_torn (hM : M.Reads) (hT : RejectsTorn M) (hpre : t <+: r.text) : Leftover M t :=
  ⟨prefix_lineIs hM hT hpre,tombsOf_tails hM hT hpre,prefix_newline hpre⟩

section

variable {s : TornStore} {t : List Char} (hM : M.Reads) (ht : Leftover M t)

include hM ht

theorem tombsOf_closedLines (before after : List MemoryRecord) :
    tombsOf (kindsOf M (closedLines before after t)) = [] := by
  simp only [closedLines,kindsOf,map_append,tombsOf_append]
  rw [← kindsOf,tombsOf_texts hM,nil_append]
  split
  · rfl
  · rw [map_append,tombsOf_append,← kindsOf,← kindsOf,ht.tombs,tombsOf_texts hM]
    rfl

theorem Shape.ensure (hI : M.ReadsIndex) (h : Shape M scope s t) (stop : Nat) :
    Shape M scope { s with
      dir := applyOps s.dir ((ensureIndex M scope s.store s.dir).ops.take stop) } t := by
  obtain ⟨before,after,hwhole,hstore,hstaged⟩ := h
  obtain ⟨m,hall⟩ := ensureIndex_stagedAll hI (closedLines_lineIs hM ht.lineIs before after)
    (staysForgotten_of_nil (tombsOf_closedLines hM ht before after))
    (openTail_newline ht.newline after) hstore hstaged
  exact ⟨before,after,hwhole,hstore,hall.stopped stop⟩

theorem Shape.search (hI : M.ReadsIndex) (h : Shape M scope s t) (q : IndexQuery) :
    Shape M scope { s with dir := (searchIndex M scope s.store s.dir q).2 } t := by
  obtain ⟨before,after,hwhole,hstore,hstaged⟩ := h
  exact ⟨before,after,hwhole,hstore,(searchIndex_answers hI
    (closedLines_lineIs hM ht.lineIs before after)
    (staysForgotten_of_nil (tombsOf_closedLines hM ht before after))
    (openTail_newline ht.newline after) hstore hstaged q).1⟩

theorem Shape.loadLive (h : Shape M scope s t) :
    ∃ before after, s.whole = before ++ after ∧ loadLiveProjectRecords M scope s.store =
      .ok (recordsOf scope (kindsOf M (before.map MemoryRecord.text ++ tails t ++
        after.map MemoryRecord.text))) := by
  obtain ⟨before,after,hwhole,hstore,-⟩ := h
  refine ⟨before,after,hwhole,?_⟩
  have hopen : ∀ l ∈ tails (openTail after t), LineIs M l (storeKind M l) := by
    unfold openTail
    split
    · exact ht.lineIs
    · exact nofun
  have hlines : closedLines before after t ++ tails (openTail after t) =
      before.map MemoryRecord.text ++ tails t ++ after.map MemoryRecord.text := by
    cases after with
    | nil => simp [closedLines,openTail]
    | cons a after => simp [closedLines,openTail,tails]
  have htombs : tombsOf (kindsOf M (before.map MemoryRecord.text ++ tails t ++
      after.map MemoryRecord.text)) = [] := by
    simp only [kindsOf,map_append,tombsOf_append]
    rw [← kindsOf,← kindsOf,← kindsOf,tombsOf_texts hM,tombsOf_texts hM,ht.tombs]
    rfl
  have hlive := @loadLive_fileBytes M scope _ _ (closedLines_lineIs hM ht.lineIs before after)
    _ _ (lineIs_kindsOf hopen)
  rw [loadLive_getD,hstore,hlive,← liveRecords_eq htombs,← hlines,kindsOf,kindsOf,kindsOf,
    map_append]

end

section

variable {t : List Char} (hquiet : recordsOf scope (kindsOf M (tails t)) = [])
  (before after : List MemoryRecord)

include hquiet

theorem recordsOf_quiet : recordsOf scope (kindsOf M (before.map MemoryRecord.text ++ tails t ++
        after.map MemoryRecord.text)) =
      recordsOf scope (kindsOf M ((before ++ after).map MemoryRecord.text)) := by
  simp only [kindsOf,map_append,recordsOf_append] at hquiet ⊢
  rw [hquiet,append_nil]

theorem recordsOf_closedLines : recordsOf scope (kindsOf M (closedLines before after t)) =
      recordsOf scope (kindsOf M ((before ++ after).map MemoryRecord.text)) := by
  cases after with
  | nil => simp [closedLines]
  | cons a after =>
    rw [← recordsOf_quiet hquiet]
    simp [closedLines]

end

section

variable {D : Retention.Deps} {s : TornStore} {t : List Char} (hD : D.Reads) (hI : D.ReadsIndex)

include hD hI

theorem Shape.unharmed (h : Shape D.toDeps scope s t) (hread : ∀ r ∈ s.whole, D.ReadsBack r)
    (ht : Leftover D.toDeps t)
    (hquiet : recordsOf scope (kindsOf D.toDeps (tails t)) = []) : Unharmed D scope s := by
  have hwholes : loadLiveProjectRecords D.toDeps scope s.store =
      .ok (recordsOf scope (kindsOf D.toDeps (s.whole.map MemoryRecord.text))) := by
    obtain ⟨before,after,hwhole,hlive⟩ := h.loadLive hD ht
    rw [hlive,recordsOf_quiet hquiet,← hwhole]
  have hclean : loadLiveProjectRecords D.toDeps scope
      (some (fileBytes (s.whole.map MemoryRecord.text) [])) =
        .ok (recordsOf scope (kindsOf D.toDeps (s.whole.map MemoryRecord.text))) := by
    have hlive := @loadLive_fileBytes D.toDeps scope _ _
      (lineIs_kindsOf (texts_lineIs hD s.whole)) [] [] .nil
    rw [append_nil] at hlive
    rw [hlive,liveRecords_eq (tombsOf_texts hD s.whole)]
  obtain ⟨before,after,hwhole,hstore,hstaged⟩ := h
  have hlines := closedLines_lineIs hD ht.lineIs before after
  have htombs := tombsOf_closedLines hD ht before after
  have hgone := @staysForgotten_of_nil D.toDeps scope _ htombs
  have hopen := openTail_newline ht.newline after
  refine ⟨⟨_,hwholes,recordsOf_texts hread⟩,fun q => ?_,?_,fun q => ?_,fun nowMs cutoff => ?_⟩
  · rw [searchProject,searchProject,hwholes,hclean]
  · obtain ⟨m,hall⟩ := ensureIndex_stagedAll hI hlines hgone hopen hstore hstaged
    exact ⟨m.status,by rw [ensureIndexIn,hall.result]; rfl⟩
  · obtain ⟨-,page,hpage,hanswers⟩ := searchIndex_answers hI hlines hgone hopen hstore hstaged q
    refine ⟨page,hpage,?_⟩
    rw [liveDocs_eq,liveRecords_eq htombs,recordsOf_closedLines hquiet,← hwhole,
      filterMap_docOf (recordsOf_texts hread)] at hanswers
    exact hanswers
  · rw [hstore,fileBytes,← Utf8.encode_append]
    simp only [compactMemoryFile,Utf8.decode_encode]
    exact ⟨_,rfl⟩

end

theorem Broken.harmed {D : Retention.Deps} {s : TornStore} {p : List UInt8} (h : Broken s p)
    (hp : (10 : UInt8) ∉ p) (hdecode : Utf8.decode p = none) : ¬ Unharmed D scope s := by
  intro hun
  obtain ⟨a,b,hstore,hb⟩ := h
  obtain ⟨result,hresult⟩ := hun.compaction 0 none
  rw [hstore,compactMemoryFile,Lines.decode_between hp hdecode hb] at hresult
  cases hresult

theorem Shape.harmed {D : Retention.Deps} {s : TornStore} (hD : D.Reads)
    (h : Shape D.toDeps scope s t) (hread : ∀ r ∈ s.whole, D.ReadsBack r)
    (ht : Leftover D.toDeps t)
    (hone : (recordsOf scope (kindsOf D.toDeps (tails t))).length = 1) : ¬ Unharmed D scope s := by
  intro hun
  obtain ⟨before,after,hwhole,hlive⟩ := h.loadLive hD ht
  obtain ⟨live,hlive',hsame⟩ := hun.live
  rw [hlive] at hlive'
  have hlen := hsame.length_eq
  obtain ⟨hr,hr'⟩ := forall_mem_append.mp (hwhole ▸ hread)
  have hbefore := (@recordsOf_texts D.toDeps scope before hr).length_eq
  have hafter := (@recordsOf_texts D.toDeps scope after hr').length_eq
  rw [← Except.ok.inj hlive',hwhole,filter_append,length_append] at hlen
  simp only [kindsOf,map_append,recordsOf_append,length_append] at hlen hone hbefore hafter
  omega

section

variable {D : Retention.Deps} (hD : D.Reads) (hI : D.ReadsIndex) (hT : RejectsTorn D.toDeps)
  {s : TornStore}

theorem closedLines_nil (before after : List MemoryRecord) :
    closedLines before after [] = (before ++ after).map MemoryRecord.text := by
  cases after <;> simp [closedLines,tails]

theorem Shape.nil (h : Shape M scope s []) :
    s.store.getD [] = fileBytes (s.whole.map MemoryRecord.text) [] ∧
      Staged M scope (s.whole.map MemoryRecord.text)
        (kindsOf M (s.whole.map MemoryRecord.text)) s.dir := by
  obtain ⟨before,after,hwhole,hstore,hstaged⟩ := h
  have htail : openTail after [] = [] := by
    unfold openTail
    split <;> rfl
  rw [closedLines_nil,htail] at hstore
  rw [closedLines_nil] at hstaged
  rw [hwhole]
  exact ⟨hstore,hstaged⟩

theorem Shape.tear (h : Shape M scope s []) {r : MemoryRecord} {cut : Nat}
    (hcut : cut < (appendedBytes s.store r.text).length) :
    TornInv M scope { s with
      store := some (s.store.getD [] ++ (appendedBytes s.store r.text).take cut)
      torn := some (r,cut) } := by
  obtain ⟨hstore,hstaged⟩ := h.nil
  have hnl : Utf8.encode ['\n'] = [10] := by decide
  rw [appendedBytes_fileBytes hstore,Utf8.encode_append,hnl] at hcut ⊢
  have hle : cut ≤ (Utf8.encode r.text).length := by
    rw [length_append,length_singleton] at hcut
    omega
  rw [take_append_of_le_length hle,hstore]
  rw [tornInv_some rfl]
  refine ⟨hle,?_⟩
  cases hdecode : Utf8.decode ((Utf8.encode r.text).take cut) with
  | none =>
    refine .inr ⟨rfl,Lines.terminated (s.whole.map MemoryRecord.text),[],?_,.inl rfl⟩
    simp [fileBytes]
  | some t =>
    refine .inl ⟨t,rfl,s.whole,[],(append_nil _).symm,?_,?_⟩
    · rw [← Utf8.encode_of_decode hdecode]
      simp [fileBytes,closedLines,openTail]
    · simpa [closedLines] using hstaged

theorem reachable_readsBack (h : Reachable TornStore.Fresh (TornMove D scope) s) :
    (∀ r ∈ s.whole, D.ReadsBack r) ∧ ∀ r cut, s.torn = some (r,cut) → D.ReadsBack r := by
  refine h.invariant (fun s => (∀ r ∈ s.whole, D.ReadsBack r) ∧
    ∀ r cut, s.torn = some (r,cut) → D.ReadsBack r) ?_ ?_
  · rintro a ⟨-,-,hwhole,htorn⟩
    rw [hwhole,htorn]
    exact ⟨by simp,by simp⟩
  · rintro a b ⟨hwhole,htorn⟩ hmove
    cases hmove with
    | append r bytes hread happend =>
      exact ⟨forall_mem_append.mpr ⟨hwhole,forall_mem_singleton.mpr hread⟩,htorn⟩
    | tear r cut hread hfirst hcheck hcut =>
      refine ⟨hwhole,fun r' cut' heq => ?_⟩
      cases heq
      exact hread
    | ensure stop => exact ⟨hwhole,htorn⟩
    | search q => exact ⟨hwhole,htorn⟩

include hD hI hT

theorem tornMove_inv {s' : TornStore} (h : TornInv D.toDeps scope s)
    (hmove : TornMove D scope s s') : TornInv D.toDeps scope s' := by
  cases htorn : s.torn with
  | none =>
    have hshape := h.none htorn
    cases hmove with
    | append r bytes hread happend =>
      rw [TornInv]
      simp only [htorn]
      exact hshape.append not_mem_nil happend
    | tear r cut hread hfirst hcheck hcut => exact hshape.tear hcut
    | ensure stop =>
      rw [TornInv]
      simp only [htorn]
      exact hshape.ensure hD leftover_nil hI stop
    | search q =>
      rw [TornInv]
      simp only [htorn]
      exact hshape.search hD leftover_nil hI q
  | some torn =>
    obtain ⟨r₀,cut₀⟩ := torn
    obtain ⟨hle,hcases⟩ := (tornInv_some htorn).mp h
    have hkeep (s' : TornStore) (htorn' : s'.torn = some (r₀,cut₀))
        (hshape : ∀ t, Leftover D.toDeps t → Shape D.toDeps scope s t → Shape D.toDeps scope s' t)
        (hbroken : ∀ p, p ≠ [] → (10 : UInt8) ∉ p → Broken s p → Broken s' p) :
        TornInv D.toDeps scope s' := by
      refine (tornInv_some htorn').mpr ⟨hle,?_⟩
      rcases hcases with ⟨t,hdecode,ht⟩ | ⟨hdecode,hb⟩
      · exact .inl ⟨t,hdecode,hshape t (leftover_torn hD hT (prefix_of_decode hdecode)) ht⟩
      · refine .inr ⟨hdecode,hbroken _ (fun hnil => ?_) (tornBytes_newline r₀ cut₀) hb⟩
        rw [hnil] at hdecode
        cases hdecode
    cases hmove with
    | append r bytes hread happend =>
      exact hkeep _ htorn (fun t ht hs => hs.append ht.newline happend)
        fun p hne hp hb => hb.append hne hp happend
    | tear r cut hread hfirst hcheck hcut =>
      rw [htorn] at hfirst
      cases hfirst
    | ensure stop => exact hkeep _ htorn (fun t ht hs => hs.ensure hD ht hI stop) fun p _ _ hb => hb
    | search q => exact hkeep _ htorn (fun t ht hs => hs.search hD ht hI q) fun p _ _ hb => hb

theorem reachable_tornInv (h : Reachable TornStore.Fresh (TornMove D scope) s) :
    TornInv D.toDeps scope s := by
  refine h.invariant _ (fun a ha => ?_) fun a b ha hab => tornMove_inv hD hI hT ha hab
  obtain ⟨hstore,hdir,hwhole,htorn⟩ := ha
  rw [TornInv,htorn]
  refine ⟨[],[],hwhole,?_,?_⟩
  · rw [hstore]
    rfl
  · rw [hdir]
    exact nofun

/-- Over every history with at most one cut append, the readers are unharmed exactly if it was
not cut inside of a character, nor right before the newline of a record of the project. -/
theorem torn_append_unharmed_iff (h : Reachable TornStore.Fresh (TornMove D scope) s) :
    Unharmed D scope s ↔ Harmless scope s := by
  have hinv := reachable_tornInv hD hI hT h
  obtain ⟨hread,hcut⟩ := reachable_readsBack h
  cases htorn : s.torn with
  | none =>
    refine ⟨fun _ r cut hsome => ?_,
      fun _ => (hinv.none htorn).unharmed hD hI hread leftover_nil rfl⟩
    rw [htorn] at hsome
    cases hsome
  | some torn =>
    obtain ⟨r,cut⟩ := torn
    obtain ⟨hle,hcases⟩ := (tornInv_some htorn).mp hinv
    have hharmless : Harmless scope s ↔ (Utf8.decode ((Utf8.encode r.text).take cut)).isSome ∧
          ¬ (cut = (Utf8.encode r.text).length ∧ inScope scope r = true) := by
      refine ⟨fun hh => hh r cut htorn,fun hh r' cut' hsome => ?_⟩
      rw [htorn] at hsome
      cases hsome
      exact hh
    rw [hharmless]
    rcases hcases with ⟨t,hdecode,hshape⟩ | ⟨hdecode,hbroken⟩
    · have hpre := prefix_of_decode hdecode
      have hleft := leftover_torn hD hT hpre
      have hcount := @recordsOf_tails D.toDeps scope t r (hcut r cut htorn) hT hpre
      have hwhole : t = r.text ↔ cut = (Utf8.encode r.text).length := by
        have hbytes := Utf8.encode_of_decode hdecode
        constructor
        · intro heq
          have hlen := congrArg length hbytes
          rw [heq,length_take] at hlen
          omega
        · intro heq
          rw [heq,take_length] at hbytes
          exact Utf8.encode_injective hbytes
      simp only [hdecode,Option.isSome_some,true_and,← hwhole]
      by_cases hfound : t = r.text ∧ inScope scope r = true
      · rw [if_pos hfound] at hcount
        exact ⟨fun hun => absurd hun (hshape.harmed hD hread hleft hcount),
          fun hno => absurd hfound hno⟩
      · rw [if_neg hfound] at hcount
        exact ⟨fun _ => hfound,
          fun _ => hshape.unharmed hD hI hread hleft (length_eq_zero_iff.mp hcount)⟩
    · refine ⟨fun hun => absurd hun (hbroken.harmed (tornBytes_newline r cut) hdecode),fun hh => ?_⟩
      rw [hdecode] at hh
      cases hh.1

end

theorem plainDeps_rejectsTorn : RejectsTorn plainDeps.toDeps :=
  fun _ _ hne hpre hpart => Json.parseSpaced_torn hne hpre hpart

/-- The first append of a record is cut after some of its bytes, and another record is appended. -/
def cutThenNoted (r : MemoryRecord) (cut : Nat) : TornStore where
  store := some (appendJsonlLine (some ((appendedBytes none r.text).take cut)) note.text)
  dir := none
  whole := [note]
  torn := some (r,cut)

theorem cutThenNoted_reachable {cut : Nat} (hcheck : checkRecord r = .ok ())
    (hcut : cut < (appendedBytes none r.text).length) :
    Reachable TornStore.Fresh (TornMove plainDeps ⟨"p1"⟩) (cutThenNoted r cut) := by
  have hfresh : TornStore.Fresh ⟨none,none,[],none⟩ := ⟨rfl,rfl,rfl,rfl⟩
  have hnote : checkRecord note = .ok () := by decide +kernel
  refine ((Reachable.init hfresh).step (.tear _ r cut (plainDeps_readsBack r) rfl hcheck hcut)).step
    (.append _ note _ (plainDeps_readsBack note) ?_)
  rw [appendTo,hnote]
  rfl

/-- A cut inside of the field names harms nothing. -/
theorem torn_append_unharmed_noted : Unharmed plainDeps ⟨"p1"⟩ (cutThenNoted note 5) := by
  refine (torn_append_unharmed_iff plainDeps_reads plainDeps_readsIndex plainDeps_rejectsTorn
    (cutThenNoted_reachable (by decide +kernel) (by decide +kernel))).mpr fun r cut htorn => ?_
  cases htorn
  decide +kernel

def accented : MemoryRecord := { note with content := "é" }

/-- A cut between the two bytes of a character: the reader of the store takes the file, but
staging the index, searching it and compacting the file all fail. -/
theorem torn_character_harms :
    Reachable TornStore.Fresh (TornMove plainDeps ⟨"p1"⟩) (cutThenNoted accented 55) ∧
      (∃ live, loadLiveProjectRecords plainDeps.toDeps ⟨"p1"⟩ (cutThenNoted accented 55).store =
        .ok live) ∧
      (ensureIndexIn plainDeps.toDeps ⟨"p1"⟩ (cutThenNoted accented 55).store none).1 =
        .error invalidUtf8 ∧
      (searchIndex plainDeps.toDeps ⟨"p1"⟩ (cutThenNoted accented 55).store none anything).1 =
        .error invalidUtf8 ∧
      compactMemoryFile plainDeps ((cutThenNoted accented 55).store.getD []) 0 none = .error .io ∧
      ¬ Unharmed plainDeps ⟨"p1"⟩ (cutThenNoted accented 55) := by
  have hcompact : compactMemoryFile plainDeps ((cutThenNoted accented 55).store.getD []) 0 none =
      .error .io := by decide +kernel
  refine ⟨cutThenNoted_reachable (by decide +kernel) (by decide +kernel),⟨_,rfl⟩,?_,?_,hcompact,
    fun hun => ?_⟩
  · decide +kernel
  · decide +kernel
  · obtain ⟨result,hresult⟩ := hun.compaction 0 none
    rw [hcompact] at hresult
    cases hresult

end Synaps.Memory
