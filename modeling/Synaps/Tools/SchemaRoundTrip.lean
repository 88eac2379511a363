import Synaps.Tools.SchemaMap

/-!
Arguments written with the names of a sanitized schema, and what the way back makes of them.
-/

set_option autoImplicit false

namespace Synaps.Schema

open Json List

mutual

def renameKeys : Value → Value → Value
  | .object obj,schema => .object (renameEntries obj schema [])
  | .array arr,schema =>
    match schema.get? "items" with
    | some items => .array (renameElements arr items)
    | none => .array arr
  | .null,_ => .null
  | .bool b,_ => .bool b
  | .number n,_ => .number n
  | .string s,_ => .string s
termination_by structural v => v

def renameEntries : List (String × Value) → Value → List (String × Value) → List (String × Value)
  | [],_,out => out
  | (k,x) :: rest,schema,out =>
    let value :=
      match property schema k with
      | some child => renameKeys x child
      | none => x
    renameEntries rest schema (insertEntry (apiName schema k) value out)
termination_by structural entries => entries

def renameElements : List Value → Value → List Value
  | [],_ => []
  | x :: rest,items => renameKeys x items :: renameElements rest items
termination_by structural elements => elements

end

mutual

/-- Every listed key of the value is its own API name. -/
def keysKept : Value → Value → Bool
  | .object obj,schema => keysKeptEntries obj schema
  | .array arr,schema =>
    match schema.get? "items" with
    | some items => keysKeptElements arr items
    | none => true
  | .null,_ | .bool _,_ | .number _,_ | .string _,_ => true
termination_by structural v => v

def keysKeptEntries : List (String × Value) → Value → Bool
  | [],_ => true
  | (k,x) :: rest,schema =>
    (match property schema k with
      | some child => apiName schema k == k && keysKept x child
      | none => true) && keysKeptEntries rest schema
termination_by structural entries => entries

def keysKeptElements : List Value → Value → Bool
  | [],_ => true
  | x :: rest,items => keysKept x items && keysKeptElements rest items
termination_by structural elements => elements

end

mutual

/-- Under a property whose schema lists no properties of its own, no key was changed; and a
    key that is not listed is no API name of its object. -/
def restorable : Value → Value → Bool
  | .object obj,schema => restorableEntries obj schema
  | .array arr,schema =>
    match schema.get? "items" with
    | some items => restorableElements arr items
    | none => true
  | .null,_ | .bool _,_ | .number _,_ | .string _,_ => true
termination_by structural v => v

def restorableEntries : List (String × Value) → Value → Bool
  | [],_ => true
  | (k,x) :: rest,schema =>
    (match property schema k with
      | some child => if listsProperties child then restorable x child else keysKept x child
      | none => (names schema).all fun p => p.api != k) && restorableEntries rest schema
termination_by structural entries => entries

def restorableElements : List Value → Value → Bool
  | [],_ => true
  | x :: rest,items => restorable x items && restorableElements rest items
termination_by structural elements => elements

end

def renamed (schema : Value) (e : String × Value) : Value :=
  match property schema e.1 with
  | some child => renameKeys e.2 child
  | none => e.2

theorem renameKeys_object (obj : List (String × Value)) (schema : Value) :
    renameKeys (.object obj) schema
      = .object (collect (obj.map fun e => (apiName schema e.1,renamed schema e))) := by
  have hentries : ∀ (l : List (String × Value)) out,renameEntries l schema out
      = collectInto out (l.map fun e => (apiName schema e.1,renamed schema e)) := by
    intro l
    induction l with
    | nil => exact fun _ => rfl
    | cons e rest ih => exact fun out => ih _
  exact congrArg Value.object (hentries obj [])

variable (arr : List Value)

theorem renameKeys_array (schema : Value) : renameKeys (.array arr) schema =
      match schema.get? "items" with
      | some items => .array (arr.map (renameKeys · items))
      | none => .array arr := by
  have helements : ∀ (l : List Value) items,renameElements l items = l.map (renameKeys · items) := by
    intro l items
    induction l with
    | nil => rfl
    | cons x rest ih => simp [renameElements,ih]
  simp only [renameKeys,helements]

def translatedName (map : SchemaNameMap) (k : String) : String := (map.apiToRuntime.lookup k).getD k

def translatedValue (map : SchemaNameMap) (e : String × Value) : Value :=
  match map.children.lookup e.1 with
  | some child => translateInputNames e.2 child
  | none => e.2

theorem translate_object (obj : List (String × Value)) (map : SchemaNameMap) :
    translateInputNames (.object obj) map
      = .object (collect (obj.map fun e => (translatedName map e.1,translatedValue map e))) := by
  have hentries : ∀ (l : List (String × Value)) out,translateEntries l map out
      = collectInto out (l.map fun e => (translatedName map e.1,translatedValue map e)) := by
    intro l
    induction l with
    | nil => exact fun _ => rfl
    | cons e rest ih => exact fun out => ih _
  exact congrArg Value.object (hentries obj [])

theorem translate_array (map : SchemaNameMap) : translateInputNames (.array arr) map =
      match map.items with
      | some itemsMap => .array (arr.map (translateInputNames · itemsMap))
      | none => .array arr := by
  have helements : ∀ (l : List Value) m,translateElements l m
      = l.map (translateInputNames · m) := by
    intro l m
    induction l with
    | nil => rfl
    | cons x rest ih => simp [translateElements,ih]
  rw [translateInputNames]
  cases map.items with
  | none => rfl
  | some itemsMap => exact congrArg Value.array (helements arr itemsMap)

def keptEntry (schema : Value) (e : String × Value) : Bool :=
  match property schema e.1 with
  | some child => apiName schema e.1 == e.1 && keysKept e.2 child
  | none => true

theorem keysKept_object (obj : List (String × Value)) (schema : Value) :
    keysKept (.object obj) schema = true ↔ ∀ e ∈ obj,keptEntry schema e = true := by
  rw [keysKept]
  induction obj with
  | nil => simp [keysKeptEntries]
  | cons e rest ih =>
    rw [keysKeptEntries,Bool.and_eq_true,ih,forall_mem_cons]
    rfl

theorem keysKept_array (schema : Value) : keysKept (.array arr) schema = true ↔
      ∀ items,schema.get? "items" = some items → ∀ x ∈ arr,keysKept x items = true := by
  have helements : ∀ (l : List Value) items,
      keysKeptElements l items = true ↔ ∀ x ∈ l,keysKept x items = true := by
    intro l items
    induction l with
    | nil => simp [keysKeptElements]
    | cons x rest ih => simp [keysKeptElements,ih]
  rw [keysKept]
  split <;> simp [*]

def restorableEntry (schema : Value) (e : String × Value) : Bool :=
  match property schema e.1 with
  | some child => if listsProperties child then restorable e.2 child else keysKept e.2 child
  | none => (names schema).all fun p => p.api != e.1

theorem restorable_object (obj : List (String × Value)) (schema : Value) :
    restorable (.object obj) schema = true ↔ ∀ e ∈ obj,restorableEntry schema e = true := by
  rw [restorable]
  induction obj with
  | nil => simp [restorableEntries]
  | cons e rest ih =>
    rw [restorableEntries,Bool.and_eq_true,ih,forall_mem_cons]
    rfl

theorem restorable_array (schema : Value) : restorable (.array arr) schema = true ↔
      ∀ items,schema.get? "items" = some items → ∀ x ∈ arr,restorable x items = true := by
  have helements : ∀ (l : List Value) items,
      restorableElements l items = true ↔ ∀ x ∈ l,restorable x items = true := by
    intro l items
    induction l with
    | nil => simp [restorableElements]
    | cons x rest ih => simp [restorableElements,ih]
  rw [restorable]
  split <;> simp [*]

section

variable {schema : Value}

theorem translatedName_of_mem {p : Named Value} (hp : p ∈ names schema) :
    translatedName (sanitizeSchema schema).2 p.api = p.name := by
  have hlookup := @lookup_filterMap_of_mem _ _ Named.api (fun _ => true) Named.name
    (names schema) (named_nodup _ _) p hp
  simp only [if_true,filterMap_eq_map'] at hlookup
  rw [translatedName,sanitizeSchema_map]
  simp only [hlookup,Option.getD_some]

theorem translatedName_of_unused {k : String} (h : ∀ p ∈ names schema,p.api ≠ k) :
    translatedName (sanitizeSchema schema).2 k = k := by
  have hlookup := @lookup_filterMap_none _ _ Named.api (fun _ => true) Named.name _ _ h
  simp only [if_true,filterMap_eq_map'] at hlookup
  rw [translatedName,sanitizeSchema_map]
  simp only [hlookup,Option.getD_none]

theorem translatedValue_of_mem {p : Named Value} (hp : p ∈ names schema) (x : Value) :
    translatedValue (sanitizeSchema schema).2 (p.api,x)
      = if listsProperties p.value then translateInputNames x (sanitizeSchema p.value).2 else x := by
  have hlookup := @lookup_filterMap_of_mem _ _ Named.api
    (fun p => keepsChild (sanitizeSchema p.value).2) (fun p => (sanitizeSchema p.value).2)
    (names schema) (named_nodup _ _) p hp
  rw [translatedValue,sanitizeSchema_map]
  simp only [hlookup]
  rw [keepsChild_eq]
  cases listsProperties p.value <;> rfl

theorem translatedValue_of_unused {k : String} (h : ∀ p ∈ names schema,p.api ≠ k) (x : Value) :
    translatedValue (sanitizeSchema schema).2 (k,x) = x := by
  have hlookup := @lookup_filterMap_none _ _ Named.api
    (fun p => keepsChild (sanitizeSchema p.value).2) (fun p => (sanitizeSchema p.value).2) _ _ h
  rw [translatedValue,sanitizeSchema_map]
  simp only [hlookup]

end

theorem map_eq_self {α : Type} {f : α → α} {l : List α} : l.map f = l ↔ ∀ x ∈ l,f x = x := by
  conv_lhs => rhs; rw [← map_id l]
  exact map_inj_left

theorem sortedKeys_map_value {kvs : List (String × Value)} (h : SortedKeys kvs)
    (f : String × Value → Value) : SortedKeys (kvs.map fun e => (e.1,f e)) :=
  pairwise_map.mpr h

/-- If the renamed object has the same keys, no listed key was changed: the first one that is
    changed lost its name to an earlier one, which would have to be changed as well. -/
theorem apiName_of_sameKeys {schema : Value} (h : WellFormed schema) {obj : List (String × Value)}
    (hkeys : ∀ k ∈ keys obj,∃ j ∈ keys obj,apiName schema j = k) :
    ∀ k ∈ keys obj,apiName schema k = k := by
  have hlisted : ∀ n pre p post,pre.length = n → names schema = pre ++ p :: post →
      p.name ∈ keys obj → p.api = p.name := by
    intro n
    induction n using Nat.strong_induction_on with
    | _ n ih =>
      intro pre p post hn hsplit hp
      have hmem : p ∈ names schema := by simp [hsplit]
      obtain ⟨j,hj,heq⟩ := hkeys p.name hp
      cases hproperty : property schema j with
      | none =>
        rw [apiName_of_unlisted hproperty] at heq
        exact absurd heq.symm (property_eq_none.mp hproperty p hmem)
      | some child =>
        obtain ⟨q,hq,rfl,-⟩ := property_eq_some hproperty
        rw [apiName_of_mem h hq] at heq
        by_contra hne
        have hpq : q ≠ p := fun hqp => hne (hqp ▸ heq)
        rw [hsplit,mem_append,mem_cons] at hq
        rcases hq with hpre | rfl | hpost
        · -- an earlier property keeps its name, so it has the same name
          obtain ⟨before,after,rfl⟩ := append_of_mem hpre
          have hkept := ih before.length (by rw [← hn]; simp) before q (after ++ p :: post) rfl
            (by rw [hsplit]; simp) hj
          exact hpq (h.eq_of_name (by simp [hsplit]) hmem (hkept.symm.trans heq))
        · exact hpq rfl
        · have hqmem : q ∈ names schema := by simp [hsplit,hpost]
          have hsafe : safeName p.name = true := heq ▸ h.names_safe hqmem
          rcases named_kept hsplit hsafe hne with hused | ⟨r,hr,hrapi⟩
          · cases hused
          -- a name given away before cannot be given again
          have hrq : r = q := eq_of_api (by simp [hsplit,hr]) hqmem (hrapi.trans heq.symm)
          subst hrq
          have hnodup := @named_nodup Value [] ((properties schema).getD [])
          rw [show named [] _ = pre ++ p :: post from hsplit,map_append,map_cons,
            nodup_append] at hnodup
          exact hnodup.2.2 _ (mem_map_of_mem hr) _ (mem_cons_of_mem _ (mem_map_of_mem hpost)) rfl
  intro k hk
  cases hproperty : property schema k with
  | none => exact apiName_of_unlisted hproperty
  | some child =>
    obtain ⟨p,hp,rfl,-⟩ := property_eq_some hproperty
    obtain ⟨pre,post,hsplit⟩ := append_of_mem hp
    rw [apiName_of_mem h hp]
    exact hlisted _ pre p post rfl hsplit hk

section

variable {v : Value} (hv : v.canonical = true) {schema : Value}

include hv

theorem renameKeys_eq_self (h : WellFormed schema) :
    renameKeys v schema = v ↔ keysKept v schema = true := by
  induction v using Value.tree_induction generalizing schema with
  | null | bool _ | number _ | string _ => simp [renameKeys,keysKept]
  | array arr ih =>
    rw [renameKeys_array,keysKept_array]
    cases hitems : schema.get? "items" with
    | none => simp
    | some items =>
      have hone : ∀ x ∈ arr,renameKeys x items = x ↔ keysKept x items = true := fun x hx =>
        ih x hx (canonical_array.mp hv x hx) (h.get hitems)
      simp only [Value.array.injEq,Option.some.injEq,forall_eq']
      constructor
      · intro heq x hx
        exact (hone x hx).mp (map_eq_self.mp heq x hx)
      · intro hall
        exact map_eq_self.mpr fun x hx => (hone x hx).mpr (hall x hx)
  | object obj ih =>
    obtain ⟨hsorted,hvalues⟩ := canonical_object.mp hv
    rw [renameKeys_object,keysKept_object,Value.object.injEq]
    have hone : ∀ e ∈ obj,apiName schema e.1 = e.1 →
        (renamed schema e = e.2 ↔ keptEntry schema e = true) := by
      intro e he hname
      unfold renamed keptEntry
      cases hproperty : property schema e.1 with
      | none => simp
      | some child => simpa [hname] using ih e he (hvalues e he) (h.property hproperty)
    constructor
    · intro heq
      have hnames : ∀ e ∈ obj,apiName schema e.1 = e.1 := by
        intro e he
        refine apiName_of_sameKeys h (fun k hk => ?_) e.1 (mem_map_of_mem he)
        rw [← heq,mem_keys_collect,Json.keys,map_map] at hk
        obtain ⟨d,hd,hapi⟩ := mem_map.mp hk
        exact ⟨d.1,mem_map_of_mem hd,hapi⟩
      have hmap : (obj.map fun e => (apiName schema e.1,renamed schema e))
          = obj.map fun e => (e.1,renamed schema e) :=
        map_congr_left fun e he => by rw [hnames e he]
      rw [hmap,(sortedKeys_map_value hsorted _).collect_eq] at heq
      intro e he
      exact (hone e he (hnames e he)).mp (congrArg Prod.snd (map_eq_self.mp heq e he))
    · intro hall
      have hnames : ∀ e ∈ obj,apiName schema e.1 = e.1 := by
        intro e he
        have hkept := hall e he
        unfold keptEntry at hkept
        split at hkept
        · simp only [Bool.and_eq_true,beq_iff_eq] at hkept
          exact hkept.1
        · exact apiName_of_unlisted ‹_›
      have hmap : (obj.map fun e => (apiName schema e.1,renamed schema e)) = obj :=
        map_eq_self.mpr fun e he => by
          rw [hnames e he,(hone e he (hnames e he)).mpr (hall e he)]
      rw [hmap,hsorted.collect_eq]

theorem renameKeys_of_empty (hmap : itemsMap schema = none) :
    renameKeys v schema = v ∧ restorable v schema = true := by
  induction v using Value.tree_induction generalizing schema with
  | null | bool _ | number _ | string _ => simp [renameKeys,restorable]
  | array arr ih =>
    rw [renameKeys_array,restorable_array]
    cases hitems : schema.get? "items" with
    | none => simp
    | some items =>
      have hitemsMap : itemsMap items = none := by
        simp only [itemsMap,ite_eq_right_iff,reduceCtorEq,imp_false,Bool.or_eq_true,not_or] at hmap
        have hnone := hmap.2
        rw [sanitizeSchema_map] at hnone
        simpa [hitems] using hnone
      have hone := fun x hx => ih x hx (canonical_array.mp hv x hx) hitemsMap
      simp only [Value.array.injEq,Option.some.injEq,forall_eq']
      exact ⟨map_eq_self.mpr fun x hx => (hone x hx).1,fun x hx => (hone x hx).2⟩
  | object obj _ =>
    have hnames : names schema = [] := by
      simp only [itemsMap,ite_eq_right_iff,reduceCtorEq,imp_false,Bool.or_eq_true,not_or] at hmap
      have hkeeps := hmap.1
      rw [sanitizeSchema_map] at hkeeps
      by_contra hne
      exact hkeeps (by simp [keepsChild,hne])
    have hunlisted : ∀ k,property schema k = none := fun k =>
      property_eq_none.mpr (by simp [hnames])
    have hmapped : (obj.map fun e => (apiName schema e.1,renamed schema e)) = obj :=
      map_eq_self.mpr fun e _ => by
        simp [apiName_of_unlisted (hunlisted e.1),renamed,hunlisted]
    rw [renameKeys_object,restorable_object,hmapped,(canonical_object.mp hv).1.collect_eq]
    exact ⟨rfl,fun e _ => by simp [restorableEntry,hunlisted,hnames]⟩

end

def restored (schema : Value) (e : String × Value) : Value :=
  match property schema e.1 with
  | some child =>
    if listsProperties child then
      translateInputNames (renameKeys e.2 child) (sanitizeSchema child).2
    else renameKeys e.2 child
  | none => e.2

section Object

variable {schema : Value} {obj : List (String × Value)}

/-- No key that is not listed is an API name. -/
def Apart (schema : Value) (obj : List (String × Value)) : Prop :=
  ∀ e ∈ obj,property schema e.1 = none → ∀ p ∈ names schema,p.api ≠ e.1

variable {e : String × Value}

theorem Apart.apiName_inj (h : WellFormed schema) (hapart : Apart schema obj) {d : String × Value}
    (hd : d ∈ obj) (he : e ∈ obj) (heq : apiName schema d.1 = apiName schema e.1) : d.1 = e.1 := by
  cases hpd : property schema d.1 with
  | none =>
    rw [apiName_of_unlisted hpd] at heq
    cases hpe : property schema e.1 with
    | none => rwa [apiName_of_unlisted hpe] at heq
    | some child =>
      obtain ⟨p,hp,hname,-⟩ := property_eq_some hpe
      rw [← hname,apiName_of_mem h hp] at heq
      exact absurd heq.symm (hapart d hd hpd p hp)
  | some child =>
    obtain ⟨p,hp,hname,-⟩ := property_eq_some hpd
    rw [← hname,apiName_of_mem h hp] at heq
    cases hpe : property schema e.1 with
    | none =>
      rw [apiName_of_unlisted hpe] at heq
      exact absurd heq (hapart e he hpe p hp)
    | some child' =>
      obtain ⟨q,hq,hname',-⟩ := property_eq_some hpe
      rw [← hname',apiName_of_mem h hq] at heq
      rw [← hname,← hname',eq_of_api hp hq heq]

theorem Apart.translated (h : WellFormed schema) (hapart : Apart schema obj) (he : e ∈ obj) :
    (translatedName (sanitizeSchema schema).2 (apiName schema e.1),
      translatedValue (sanitizeSchema schema).2 (apiName schema e.1,renamed schema e))
      = (e.1,restored schema e) := by
  unfold renamed restored
  cases hproperty : property schema e.1 with
  | none =>
    have hunused := hapart e he hproperty
    rw [apiName_of_unlisted hproperty]
    simp only [translatedName_of_unused hunused,translatedValue_of_unused hunused]
  | some child =>
    obtain ⟨p,hp,hname,rfl⟩ := property_eq_some hproperty
    rw [← hname,apiName_of_mem h hp]
    simp only [translatedName_of_mem hp,translatedValue_of_mem hp]

theorem Apart.translate_rename (h : WellFormed schema) (hsorted : SortedKeys obj)
    (hapart : Apart schema obj) :
    translateInputNames (renameKeys (.object obj) schema) (sanitizeSchema schema).2
      = .object (obj.map fun e => (e.1,restored schema e)) := by
  rw [renameKeys_object,translate_object]
  have hnodup : (keys (obj.map fun e => (apiName schema e.1,renamed schema e))).Nodup := by
    rw [Json.keys,map_map]
    refine Nodup.map_on (fun d hd e he heq => ?_) hsorted.nodup.of_map
    exact inj_on_of_nodup_map hsorted.nodup hd he (hapart.apiName_inj h hd he heq)
  have hperm := (collect_perm hnodup).map fun e =>
    (translatedName (sanitizeSchema schema).2 e.1,translatedValue (sanitizeSchema schema).2 e)
  rw [map_map] at hperm
  have hback : map ((fun e => (translatedName (sanitizeSchema schema).2 e.1,
      translatedValue (sanitizeSchema schema).2 e)) ∘ fun e => (apiName schema e.1,renamed schema e))
      obj = obj.map fun e => (e.1,restored schema e) :=
    map_congr_left fun e he => hapart.translated h he
  rw [hback] at hperm
  have htarget := sortedKeys_map_value hsorted (restored schema)
  have hkeys := (hperm.map Prod.fst).nodup_iff.mpr htarget.nodup
  exact congrArg Value.object
    ((sortedKeys_collect _).eq_of_perm htarget ((collect_perm hkeys).trans hperm))

theorem translate_rename_loses (he : e ∈ obj) (hunlisted : property schema e.1 = none)
    {p : Named Value} (hp : p ∈ names schema) (hapi : p.api = e.1) :
    translateInputNames (renameKeys (.object obj) schema) (sanitizeSchema schema).2
      ≠ .object obj := by
  rw [renameKeys_object,translate_object]
  intro heq
  have hmem : e.1 ∈ keys obj := mem_map_of_mem he
  rw [← Value.object.inj heq,mem_keys_collect,Json.keys,map_map] at hmem
  obtain ⟨d,-,hd⟩ := mem_map.mp hmem
  simp only [Function.comp_apply] at hd
  by_cases hused : ∃ q ∈ names schema,q.api = d.1
  · obtain ⟨q,hq,hqd⟩ := hused
    rw [← hqd,translatedName_of_mem hq] at hd
    exact property_eq_none.mp hunlisted q hq hd
  · push Not at hused
    rw [translatedName_of_unused hused] at hd
    exact hused p hp (hapi.trans hd.symm)

end Object

theorem translate_rename {v : Value} (hv : v.canonical = true) {schema : Value}
    (h : WellFormed schema) :
    translateInputNames (renameKeys v schema) (sanitizeSchema schema).2 = v ↔
      restorable v schema = true := by
  induction v using Value.tree_induction generalizing schema with
  | null | bool _ | number _ | string _ => simp [renameKeys,translateInputNames,restorable]
  | array arr ih =>
    cases hitems : schema.get? "items" with
    | none =>
      have hmapItems : (sanitizeSchema schema).2.items = none := by
        rw [sanitizeSchema_map]
        simp [hitems]
      rw [renameKeys_array,restorable_array,hitems]
      simp [translate_array,hmapItems]
    | some items =>
      have hmapItems : (sanitizeSchema schema).2.items = itemsMap items := by
        rw [sanitizeSchema_map]
        simp [hitems]
      rw [renameKeys_array,restorable_array,hitems]
      simp only [translate_array,hmapItems,Option.some.injEq,forall_eq']
      cases hkept : itemsMap items with
      | none =>
        have hone := fun x hx => renameKeys_of_empty (canonical_array.mp hv x hx) hkept
        refine iff_of_true ?_ fun x hx => (hone x hx).2
        exact congrArg Value.array (map_eq_self.mpr fun x hx => (hone x hx).1)
      | some m =>
        have hm : (sanitizeSchema items).2 = m := by
          simp only [itemsMap,Option.ite_none_right_eq_some,Option.some.injEq] at hkept
          exact hkept.2
        have hone := fun x hx => ih x hx (canonical_array.mp hv x hx) (h.get hitems)
        simp only [Value.array.injEq,map_map,← hm]
        rw [map_eq_self]
        exact forall₂_congr fun x hx => hone x hx
  | object obj ih =>
    obtain ⟨hsorted,hvalues⟩ := canonical_object.mp hv
    rw [restorable_object]
    by_cases hapart : Apart schema obj
    · rw [hapart.translate_rename h hsorted,Value.object.injEq,map_eq_self]
      refine forall₂_congr fun e he => ?_
      rw [Prod.ext_iff]
      simp only [true_and]
      unfold restored restorableEntry
      cases hproperty : property schema e.1 with
      | none =>
        refine iff_of_true rfl (all_eq_true.mpr fun p hp => ?_)
        simpa using hapart e he hproperty p hp
      | some child =>
        have hchild := h.property hproperty
        by_cases hlists : listsProperties child = true
        · simpa only [hlists,if_true] using ih e he (hvalues e he) hchild
        · simp only [if_neg hlists]
          exact renameKeys_eq_self (hvalues e he) hchild
    · unfold Apart at hapart
      push Not at hapart
      obtain ⟨e,he,hunlisted,p,hp,hapi⟩ := hapart
      refine iff_of_false (translate_rename_loses he hunlisted hp hapi) fun hall => ?_
      have hentry := hall e he
      simp only [restorableEntry,hunlisted,all_eq_true] at hentry
      simpa [hapi] using hentry p hp

/-- A schema is sanitized at every depth, and a value written with the names of the sanitized
    schema comes back as it was, exactly if no changed name stands in the elements of an array
    under a property and no key outside the schema is an API name. -/
theorem schema_names_restored (schema : Value) (h : WellFormed schema) (v : Value)
    (hv : v.canonical = true) :
    (translateInputNames (renameKeys v schema) (sanitizeSchema schema).2 = v ↔
      restorable v schema = true) ∧ Renames schema (sanitizeSchema schema).1 :=
  ⟨translate_rename hv h,renames_sanitizeSchema h⟩

def editsSchema : Value :=
  .object [("properties",.object [("edits",.object [("items",.object [("properties",.object
    [("old:text",.object [("type",.string "string")])])])])])]

def editsInput : Value :=
  .object [("edits",.array [.object [("old:text",.string "a")]])]

/-- The name inside the array is changed, and the way back leaves it changed. -/
theorem edits_not_restored : renameKeys editsInput editsSchema
        = .object [("edits",.array [.object [("old_text",.string "a")]])] ∧
      translateInputNames (renameKeys editsInput editsSchema) (sanitizeSchema editsSchema).2
        = .object [("edits",.array [.object [("old_text",.string "a")]])] ∧
      translateInputNames (renameKeys editsInput editsSchema) (sanitizeSchema editsSchema).2
        ≠ editsInput := by
  decide +kernel

def nestedSchema : Value :=
  .object [("properties",.object [("nested:obj",.object [("properties",.object
    [("inner/key",.object [("type",.string "string")])])])])]

def nestedInput : Value :=
  .object [("nested:obj",.object [("inner/key",.string "nested")])]

theorem schema_names_restored_nested : WellFormed nestedSchema ∧ nestedInput.canonical = true ∧
      translateInputNames (renameKeys nestedInput nestedSchema) (sanitizeSchema nestedSchema).2
        = nestedInput := by
  have hschema : WellFormed nestedSchema := ⟨by decide +kernel,by decide +kernel⟩
  have hinput : nestedInput.canonical = true := by decide +kernel
  exact ⟨hschema,hinput,(schema_names_restored nestedSchema hschema nestedInput hinput).1.mpr
    (by decide +kernel)⟩

end Synaps.Schema
