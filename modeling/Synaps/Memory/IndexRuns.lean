import Synaps.Lib.Runs
import Synaps.Memory.Search
import Synaps.Retention.Sweep

/-!
Histories of one project's memory: records are appended and forgotten, the index is staged
and searched, a staging may be stopped between two of its writes, and sweeps rewrite the
store.
-/

set_option autoImplicit false

namespace Synaps.Memory

open Retention Runs List

variable (D : Retention.Deps) (scope : ProjectScope)

def storeOf (r : Roots) : Option (List UInt8) := r.memory.lookup (memoryFile scope.namespaceName)

def dirOf (r : Roots) : Option Dir := r.index.lookup scope.namespaceName

structure History where
  roots : Roots
  used : List String

def Fresh (s : History) : Prop :=
  storeOf scope s.roots = none ∧ dirOf scope s.roots = none ∧ s.used = []

variable {D scope}

def kindsOf (D : Memory.Deps) (ls : List (List Char)) : List LineKind := ls.map (storeKind D)

/-- The store and the index of a history: the index covers a part of the lines, and every id in
the lines was used. -/
structure Kept (D : Memory.Deps) (scope : ProjectScope) (used : List String)
    (store : Option (List UInt8)) (dir : Option Dir) (ls : List (List Char)) : Prop where
  written : ∀ l ∈ ls, Written l
  bytes : store.getD [] = fileBytes ls []
  distinct : Distinct D scope (kindsOf D ls)
  staged : Staged D scope ls (kindsOf D ls) dir
  docs : ∀ d ∈ docsOf D scope (kindsOf D ls), d.id ∈ used
  tombs : ∀ id ∈ tombsOf (kindsOf D ls), id ∈ used

section

variable {M : Memory.Deps}

theorem lineIs_kindsOf {ls : List (List Char)} (h : ∀ l ∈ ls, LineIs M l (storeKind M l)) :
    Forall₂ (LineIs M) ls (kindsOf M ls) := by
  induction ls with
  | nil => exact .nil
  | cons l ls ih => exact .cons (h l mem_cons_self) (ih fun m hm => h m (mem_cons_of_mem _ hm))

theorem lineIs_written (hM : M.Reads) {ls : List (List Char)} (h : ∀ l ∈ ls, Written l) :
    Forall₂ (LineIs M) ls (kindsOf M ls) :=
  lineIs_kindsOf fun l hl => (h l hl).lineIs hM

section

variable {file : Option (List UInt8)} {ls : List (List Char)} (h : file.getD [] = fileBytes ls [])
  (l : List Char)

include ls h

theorem appendedBytes_fileBytes : appendedBytes file l = Utf8.encode (l ++ ['\n']) := by
  have hheal : (!(fileBytes ls []).isEmpty && !Lines.endsWithNewline (fileBytes ls [])) = false := by
    rcases eq_nil_or_concat ls with rfl | ⟨ls,m,rfl⟩
    · rfl
    · have hnl := Lines.endsWithNewline_terminated ls m
      simp only [fileBytes,Utf8.encode_nil,append_nil,concat_eq_append]
      rw [hnl,Bool.not_true,Bool.and_false]
  simp only [appendedBytes,h,hheal]
  rfl

theorem appendJsonlLine_fileBytes : appendJsonlLine file l = fileBytes (ls ++ [l]) [] := by
  rw [appendJsonlLine,appendedBytes_fileBytes h,h]
  simp [fileBytes,Lines.terminated]

end

theorem Staged.append {ls more : List (List Char)} {ks kmore : List LineKind} {dir : Option Dir}
    (h : Staged M scope ls ks dir) (hlen : ls.length = ks.length) :
    Staged M scope (ls ++ more) (ks ++ kmore) dir := by
  intro m hm
  obtain ⟨k,hbytes,hcovers⟩ := h m hm
  refine ⟨min k ls.length,?_,?_⟩
  · rw [take_append_of_le_length (Nat.min_le_right _ _),hbytes,← take_take,take_length]
  · rw [take_append_of_le_length (hlen ▸ Nat.min_le_right _ _),hlen,← take_take,take_length]
    exact hcovers

theorem StaysForgotten.sublist {ks ks' : List LineKind} (h : StaysForgotten M scope ks)
    (hsub : ks'.Sublist ks) : StaysForgotten M scope ks' := by
  rintro a b rfl d hd hm
  obtain ⟨r₁,r₂,rfl,ha,hb⟩ := append_sublist_iff.mp hsub
  refine h r₁ r₂ rfl d ?_ ((ha.filterMap _).subset hm)
  exact ((hb.filterMap _).filterMap _).subset hd

theorem Distinct.sublist {ks ks' : List LineKind} (h : Distinct M scope ks)
    (hsub : ks'.Sublist ks) : Distinct M scope ks' :=
  ⟨h.ids.sublist (((hsub.filterMap _).filterMap _).map _),h.forgotten.sublist hsub⟩

variable {used used' : List String} {store : Option (List UInt8)} {dir : Option Dir}
  {ls : List (List Char)}

theorem Kept.append (h : Kept M scope used store dir ls) {l : List Char} (hl : Written l)
    (hused : used ⊆ used')
    (hdocs : ∀ d ∈ docsOf M scope [storeKind M l], d.id ∉ used ∧ d.id ∈ used')
    (htombs : ∀ id ∈ tombsOf [storeKind M l], id ∈ used') :
    Kept M scope used' (some (appendJsonlLine store l)) dir (ls ++ [l]) := by
  have hkinds : kindsOf M (ls ++ [l]) = kindsOf M ls ++ [storeKind M l] := map_append
  have hone : ((docsOf M scope [storeKind M l]).map SegmentDoc.id).Nodup := by
    cases storeKind M l with
    | record r =>
      rw [docsOf_record]
      split
      · cases docOf? M r <;> simp [docsOf,recordsOf]
      · simp [docsOf,recordsOf]
    | tombstone id | garbage => exact .nil
  refine ⟨?_,?_,⟨?_,?_⟩,?_,?_,?_⟩
  · exact forall_mem_append.mpr ⟨h.written,forall_mem_singleton.mpr hl⟩
  · exact appendJsonlLine_fileBytes h.bytes l
  · rw [hkinds,docsOf_append,map_append]
    refine Nodup.append h.distinct.ids hone fun id hid hid' => ?_
    obtain ⟨d,hd,rfl⟩ := mem_map.mp hid
    obtain ⟨d',hd',heq⟩ := mem_map.mp hid'
    exact (hdocs d' hd').1 (heq ▸ h.docs d hd)
  · -- a tombstone is only followed by documents with ids that were not used before
    rw [hkinds]
    intro a b hab d hd hm
    rcases append_eq_append_iff.mp hab with ⟨c,rfl,hc⟩ | ⟨c,hc,rfl⟩
    · cases b with
      | nil => cases hd
      | cons k b =>
        have hlen := congrArg length hc
        simp only [length_append,length_cons,length_nil] at hlen
        obtain rfl := length_eq_zero_iff.mp (show c.length = 0 by omega)
        rw [nil_append] at hc
        rw [← hc] at hd
        rw [append_nil] at hm
        exact (hdocs d hd).1 (h.tombs d.id hm)
    · rw [docsOf_append,mem_append] at hd
      rcases hd with hd | hd
      · exact h.distinct.forgotten a c hc d hd hm
      · refine (hdocs d hd).1 (h.tombs d.id ?_)
        rw [hc,tombsOf_append]
        exact mem_append_left _ hm
  · rw [hkinds]
    exact h.staged.append (length_map _).symm
  · rw [hkinds,docsOf_append]
    exact forall_mem_append.mpr ⟨fun d hd => hused (h.docs d hd),fun d hd => (hdocs d hd).2⟩
  · rw [hkinds,tombsOf_append]
    exact forall_mem_append.mpr ⟨fun id hid => hused (h.tombs id hid),htombs⟩

end

section

variable {M : Memory.Deps} {used : List String} {store : Option (List UInt8)} {dir : Option Dir}
  {ls : List (List Char)}

section

variable (hM : M.Reads) (h : Kept M scope used store dir ls)

include hM h

theorem Kept.loadLive :
    loadLiveProjectRecords M scope store = .ok (liveRecords scope (kindsOf M ls)) := by
  have hlive := @loadLive_fileBytes M scope _ _ (lineIs_written hM h.written) [] [] .nil
  rw [append_nil] at hlive
  cases store with
  | some bytes =>
    rw [← hlive]
    exact congrArg _ (congrArg some h.bytes)
  | none =>
    have hlen := congrArg length h.bytes
    rw [length_fileBytes] at hlen
    have hnil : ls = [] := linesLength_eq_zero (by simp at hlen; omega)
    rw [hnil]
    rfl

end

theorem Kept.trimmed (h : Kept M scope used store dir ls) {store' : Option (List UInt8)}
    {dir' : Option Dir} {ls' : List (List Char)} (hsub : ls'.Sublist ls)
    (hbytes : store'.getD [] = fileBytes ls' []) (hdir : dir' = none ∨ dir' = dir ∧ ls' = ls) :
    Kept M scope used store' dir' ls' := by
  have hkinds : (kindsOf M ls').Sublist (kindsOf M ls) := hsub.map _
  refine ⟨fun l hl => h.written l (hsub.subset hl),hbytes,h.distinct.sublist hkinds,?_,
    fun d hd => h.docs d (((hkinds.filterMap _).filterMap _).subset hd),
    fun id hid => h.tombs id ((hkinds.filterMap _).subset hid)⟩
  rcases hdir with rfl | ⟨rfl,rfl⟩
  · exact nofun
  · exact h.staged

end

theorem appendTo_ok {file : Option (List UInt8)} {r : MemoryRecord} {bytes : List UInt8}
    (h : appendTo file r = .ok bytes) : bytes = appendJsonlLine file r.text := by
  unfold appendTo at h
  cases hcheck : checkRecord r with rw [hcheck] at h
  | error e =>
    cases h
  | ok u =>
    exact (Except.ok.inj h).symm

def plainDeps : Retention.Deps where
  parse := Json.parseSpaced
  sha256 := fun bytes => toString bytes.length
  isAlphanumeric := Char.isAlphanum
  toLowercase := List.map Char.toLower
  rfc3339Millis := fun _ => none

theorem plainDeps_readsBack (r : MemoryRecord) : plainDeps.ReadsBack r :=
  ⟨r.info,Json.parseSpaced_of_strip (Json.strip_print _)⟩

theorem plainDeps_reads : plainDeps.Reads where
  record r := .inl (plainDeps_readsBack r)
  tombstone _ := Json.parseSpaced_of_strip (Json.strip_print _)

theorem plainDeps_readsIndex : plainDeps.ReadsIndex where
  doc _ := Json.parseSpaced_of_strip (Json.strip_print _)
  manifest _ := Json.parseSpaced_of_strip (Json.strip_printPretty _)

def note : MemoryRecord where
  ns := "project-p1"
  timestampMs := 7
  content := "the cat sat"
  tags := ["@cat"]
  info := none
  id := some "mem-1"
  project := some "p1"
  provenance := none
  sensitivity := none
  retention := none

def anything : IndexQuery := ⟨[],none,none,none,none,none⟩

def laterNote (n : Nat) : MemoryRecord :=
  { note with id := some s!"mem-{n}", timestampMs := .ofNat (7 + n) }

def notes : List UInt8 :=
  appendJsonlLine (some (appendJsonlLine (some (appendJsonlLine none note.text))
    (laterNote 2).text)) (laterNote 3).text

end Synaps.Memory
