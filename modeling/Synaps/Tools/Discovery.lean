import Mathlib.Algebra.GroupWithZero.Nat
import Mathlib.Data.List.Infix
import Synaps.Lib.JsonText
import Synaps.Lib.Utf8
import Synaps.Lib.Word

/-!
Search over the descriptors of a tool catalog, bounded in the number of hits and in the bytes of
their JSON array.
-/

set_option autoImplicit false

namespace Synaps.Discovery

open Json List Word

inductive SourceClass where
  | builtin
  | extension
  | mcp
  | plugin
  | unknown

def SourceClass.label : SourceClass → String
  | .builtin => "builtin"
  | .extension => "extension"
  | .mcp => "mcp"
  | .plugin => "plugin"
  | .unknown => "unknown"

structure DiscoveryEntry where
  id : String
  sourceClass : SourceClass
  summary : String
  tags : List String
  schemaDigest : String

def DiscoveryEntry.toValue (e : DiscoveryEntry) : Value :=
  .object [("id",.string e.id),("source_class",.string e.sourceClass.label),
    ("summary",.string e.summary),("tags",.array (e.tags.map .string)),
    ("schema_digest",.string e.schemaDigest)]

/-- The records of a catalog in the order of their ids. -/
structure ToolCatalog where
  records : List DiscoveryEntry
  sorted : records.Pairwise (·.id < ·.id)

/-- The budgets that `SearchLimits::new` lets through. -/
structure SearchLimits where
  maxResults : Nat
  maxResultBytes : Nat
  results : 0 < maxResults ∧ maxResults ≤ 64
  bytes : 2 ≤ maxResultBytes ∧ maxResultBytes ≤ 64 * 1024

/-- A folded needle that `DiscoveryQuery::parse` lets through; it has no control character. -/
structure DiscoveryQuery where
  needle : List Char
  plain : '\n' ∉ needle

structure IndexRow where
  entry : DiscoveryEntry
  serializedBytes : Nat
  haystack : List Char

def jsonBytes (v : Value) : Nat := (Utf8.encode (print v)).length

def build (lower : String → List Char) (catalog : ToolCatalog) : List IndexRow :=
  catalog.records.map fun e => ⟨e,jsonBytes e.toValue,
    lower e.id ++ '\n' :: lower e.summary ++ e.tags.flatMap ('\n' :: lower ·)⟩

structure SearchResults where
  hits : List DiscoveryEntry
  serializedBytes : Nat
  truncated : Bool

def searchFrom (needle : List Char) (limits : SearchLimits) :
    List IndexRow → List DiscoveryEntry → Nat → SearchResults
  | [], hits, used => ⟨hits,used,false⟩
  | row :: rows, hits, used =>
    if needle <:+: row.haystack then
      let separator := if hits = [] then 0 else 1
      match (checkedAdd used separator).bind (checkedAdd · row.serializedBytes) with
      | none => ⟨hits,used,true⟩
      | some bytes =>
        if hits.length = limits.maxResults ∨ ¬bytes ≤ limits.maxResultBytes then ⟨hits,used,true⟩
        else searchFrom needle limits rows (hits ++ [row.entry]) bytes
    else searchFrom needle limits rows hits used

def search (rows : List IndexRow) (query : DiscoveryQuery) (limits : SearchLimits) :
    SearchResults :=
  searchFrom query.needle limits rows [] 2

/-- The needle stands in the folded id, summary or one of the tags. -/
def DiscoveryEntry.Matches (lower : String → List Char) (query : DiscoveryQuery)
    (e : DiscoveryEntry) : Prop :=
  ∃ field ∈ e.id :: e.summary :: e.tags, query.needle <:+: lower field

instance (lower : String → List Char) (query : DiscoveryQuery) (e : DiscoveryEntry) :
    Decidable (e.Matches lower query) := inferInstanceAs (Decidable (∃ _ ∈ _, _))

def arrayBytes (es : List DiscoveryEntry) : Nat := jsonBytes (.array (es.map DiscoveryEntry.toValue))

theorem printItems_bytes (vs : List Value) :
    (Utf8.encode (printItems vs)).length = (vs.map fun v => jsonBytes v + 1).sum + 1 := by
  induction vs with
  | nil => rfl
  | cons v vs ih =>
    have hcomma : Utf8.encodeChar ',' = [44] := rfl
    simp only [printItems,Utf8.encode_cons,Utf8.encode_append,length_append,ih,map_cons,sum_cons,
      jsonBytes,hcomma,length_singleton]
    omega

theorem arrayBytes_nil : arrayBytes [] = 2 := rfl

theorem arrayBytes_concat (es : List DiscoveryEntry) (e : DiscoveryEntry) :
    arrayBytes (es ++ [e]) = arrayBytes es + (if es = [] then 0 else 1) + jsonBytes e.toValue := by
  have hopen : Utf8.encodeChar '[' = [91] := rfl
  have harray (v : Value) (vs : List Value) : jsonBytes (.array (v :: vs)) =
      jsonBytes v + (vs.map fun v => jsonBytes v + 1).sum + 2 := by
    rw [jsonBytes,print,Utf8.encode_cons,Utf8.encode_append,length_append,length_append,
      printItems_bytes,hopen,jsonBytes,length_singleton]
    omega
  cases es with
  | nil => exact (harray _ _).trans (by simp [arrayBytes_nil,Nat.add_comm])
  | cons d es =>
    simp only [arrayBytes,cons_append,map_cons,map_append,harray,sum_append,map_nil,sum_cons,sum_nil,
      reduceCtorEq,if_false]
    omega

def Fits (limits : SearchLimits) (es : List DiscoveryEntry) : Prop :=
  es.length ≤ limits.maxResults ∧ arrayBytes es ≤ limits.maxResultBytes

variable {limits : SearchLimits} {needle : List Char}

theorem Fits.of_append {es more : List DiscoveryEntry} (h : Fits limits (es ++ more)) :
    Fits limits es := by
  induction more using reverseRecOn with
  | nil => rwa [append_nil] at h
  | append_singleton more e ih =>
    refine ih ?_
    rw [← append_assoc,Fits,length_append,arrayBytes_concat] at h
    exact ⟨Nat.le_trans (Nat.le_add_right _ _) h.1,by omega⟩

def hitsOf (needle : List Char) (rows : List IndexRow) : List DiscoveryEntry :=
  (rows.filter (needle <:+: ·.haystack)).map IndexRow.entry

/-- The hits are all, or the next one does not fit. -/
structure Found (limits : SearchLimits) (all : List DiscoveryEntry) (r : SearchResults) : Prop where
  fits : Fits limits r.hits
  bytes : r.serializedBytes = arrayBytes r.hits
  rest : (r.truncated = false ∧ r.hits = all) ∨
    (r.truncated = true ∧ ∃ e more, all = r.hits ++ e :: more ∧ ¬Fits limits (r.hits ++ [e]))

theorem searchFrom_found {rows : List IndexRow} {hits : List DiscoveryEntry}
    (hrows : ∀ row ∈ rows, row.serializedBytes = jsonBytes row.entry.toValue) (h : Fits limits hits) :
    Found limits (hits ++ hitsOf needle rows)
      (searchFrom needle limits rows hits (arrayBytes hits)) := by
  induction rows generalizing hits with
  | nil => exact ⟨h,rfl,.inl ⟨rfl,(append_nil _).symm⟩⟩
  | cons row rows ih =>
    rw [forall_mem_cons] at hrows
    rw [searchFrom]
    by_cases hm : needle <:+: row.haystack
    · have hall : hitsOf needle (row :: rows) = row.entry :: hitsOf needle rows := by
        rw [hitsOf,filter_cons_of_pos (by simpa using hm)]
        rfl
      have hfull (hno : ¬Fits limits (hits ++ [row.entry])) :
          Found limits (hits ++ hitsOf needle (row :: rows)) ⟨hits,arrayBytes hits,true⟩ :=
        ⟨h,rfl,.inr ⟨rfl,row.entry,hitsOf needle rows,by rw [hall],hno⟩⟩
      have hcap := limits.bytes.2
      simp only [if_pos hm,checkedAdd_bind,hrows.1,← arrayBytes_concat]
      split
      · rename_i hover
        refine hfull fun hf => ?_
        have := hf.2
        split at hover
        · cases hover
        · omega
      · rename_i bytes hbytes
        obtain rfl : arrayBytes (hits ++ [row.entry]) = bytes := by
          split at hbytes
          · exact Option.some.inj hbytes
          · cases hbytes
        split
        · rename_i hno
          refine hfull fun hf => ?_
          have hlen := hf.1
          rw [length_append,length_singleton] at hlen
          exact hno.elim (by omega) (fun hb => hb hf.2)
        · rename_i hfits
          obtain ⟨hlen,hbytes⟩ := not_or.mp hfits
          have hle := h.1
          have := @ih (hits ++ [row.entry]) hrows.2
            ⟨by rw [length_append,length_singleton]; omega,Decidable.not_not.mp hbytes⟩
          rwa [append_assoc,singleton_append,← hall] at this
    · rw [if_neg hm,hitsOf,filter_cons_of_neg (by simpa using hm)]
      exact ih hrows.2 h

theorem infix_sep {x y l : List Char} {c : Char} (h : c ∉ l) :
    l <:+: x ++ c :: y ↔ l <:+: x ∨ l <:+: y := by
  constructor
  · rintro ⟨a,b,hab⟩
    rcases append_eq_append_iff.mp hab with ⟨t,hx,-⟩ | ⟨t,hal,ht⟩
    · exact .inl ⟨a,t,hx.symm⟩
    rcases append_eq_append_iff.mp hal with ⟨u,hx,hl⟩ | ⟨u,-,hu⟩
    · cases t with
      | nil => exact .inl ⟨a,[],by simp [hx,hl]⟩
      | cons d t =>
        obtain ⟨rfl,-⟩ := cons.inj ht
        exact absurd (hl ▸ mem_append_right u mem_cons_self) h
    · rw [hu,append_assoc] at ht
      cases u with
      | nil =>
        cases l with
        | nil => exact .inl ⟨[],x,rfl⟩
        | cons d l => exact absurd ((cons.inj ht).1 ▸ mem_cons_self) h
      | cons d u => exact .inr ⟨u,b,by rw [append_assoc]; exact (cons.inj ht).2.symm⟩
  · rintro (hx | hy)
    · exact hx.trans (prefix_append ..).isInfix
    · exact hy.trans ⟨x ++ [c],[],by simp⟩

/-- A needle on one line stands in the joined fields exactly if it stands in one of them. -/
theorem infix_joined {fields : List (List Char)} {x l : List Char} (h : '\n' ∉ l) :
    l <:+: x ++ fields.flatMap ('\n' :: ·) ↔ ∃ field ∈ x :: fields, l <:+: field := by
  induction fields generalizing x with
  | nil => simp
  | cons y fields ih =>
    rw [flatMap_cons,cons_append,infix_sep h,ih]
    simp

theorem hitsOf_build (lower : String → List Char) (catalog : ToolCatalog) (query : DiscoveryQuery) :
    hitsOf query.needle (build lower catalog) = catalog.records.filter (·.Matches lower query) := by
  unfold hitsOf build
  rw [filter_map,map_map]
  refine (map_id _).trans (filter_congr fun e _ => decide_eq_decide.mpr ?_)
  have hjoined := @infix_joined ((e.summary :: e.tags).map lower) (lower e.id) _ query.plain
  simpa [flatMap_map,DiscoveryEntry.Matches] using hjoined

/-- The hits are the longest initial part of the matching records that fits, in the order of the
ids; their size is that of their array, and it is told if some were left out. -/
theorem search_longest (lower : String → List Char) (catalog : ToolCatalog)
    (query : DiscoveryQuery) (limits : SearchLimits) :
    let all := catalog.records.filter (·.Matches lower query)
    let r := search (build lower catalog) query limits
    all.Pairwise (·.id < ·.id) ∧ r.hits <+: all ∧ Fits limits r.hits ∧
      (∀ es, es <+: all → Fits limits es → es <+: r.hits) ∧
      r.serializedBytes = arrayBytes r.hits ∧ (r.truncated = true ↔ r.hits ≠ all) := by
  intro all r
  obtain ⟨hfits,hbytes,hrest⟩ : Found limits all r := by
    have hfound := @searchFrom_found limits query.needle (build lower catalog) [] (by simp [build])
      ⟨Nat.zero_le _,limits.bytes.1⟩
    rwa [nil_append,hitsOf_build] at hfound
  refine ⟨catalog.sorted.sublist filter_sublist,?_,hfits,?_,hbytes,?_⟩
  all_goals rcases hrest with ⟨ht,hall⟩ | ⟨ht,e,more,hall,hno⟩
  · exact hall ▸ prefix_refl _
  · exact hall ▸ prefix_append _ _
  · exact fun es hes _ => hall ▸ hes
  · intro es hes hf
    rcases prefix_or_prefix_of_prefix hes (hall ▸ prefix_append r.hits (e :: more)) with h | h
    · exact h
    obtain ⟨tail,rfl⟩ := h
    cases tail with
    | nil => rw [append_nil]
    | cons d tail =>
      rw [hall] at hes
      obtain ⟨rfl,-⟩ := cons_prefix_cons.mp ((prefix_append_right_inj _).mp hes)
      rw [append_cons] at hf
      exact absurd hf.of_append hno
  · simp [ht,hall]
  · rw [ht,hall]
    simp

def demoEntry (id : String) : DiscoveryEntry := ⟨id,.builtin,"Read a file",["fs"],"d0"⟩

def demoCatalog : ToolCatalog := ⟨[demoEntry "grep",demoEntry "read",demoEntry "write"],by decide⟩

example :
    let r := search (build (·.toList.map Char.toLower) demoCatalog) ⟨"file".toList,by decide⟩
      ⟨64,200,by decide,by decide⟩
    r.hits.map (·.id) = ["grep","read"] ∧ r.serializedBytes = 197 ∧ r.truncated := by
  decide +kernel

end Synaps.Discovery
