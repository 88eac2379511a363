import Mathlib.Data.String.Basic
import Synaps.Lib.Folder
import Mathlib.Data.List.Pairwise
import Mathlib.Data.List.Nodup
import Mathlib.Data.List.Perm.Basic

/-!
JSON trees as a Rust `serde_json::Value` holds them. An object is the list of
its entries in the order it is written; a value kept in memory has its entries
sorted by key without repetition, which is what `Value.Sorted` says of its own
entries.
-/

set_option autoImplicit false

namespace Json

open List

def numberChar (c : Char) : Bool :=
  c.isDigit || c == '-' || c == '+' || c == '.' || c == 'e' || c == 'E'

/-- The decimal text a float is written with: it has a point or an exponent, so
no integer is written the same way. -/
structure FloatText where
  text : List Char
  chars : ∀ c ∈ text, numberChar c = true
  marked : '.' ∈ text ∨ 'e' ∈ text
  deriving DecidableEq, Repr

inductive Number where
  | int : Int → Number
  | float : FloatText → Number
  deriving DecidableEq, Repr

inductive Value where
  | null : Value
  | bool : Bool → Value
  | number : Number → Value
  | string : String → Value
  | array : List Value → Value
  | object : List (String × Value) → Value
  deriving Repr

mutual

def Value.decEq : (a b : Value) → Decidable (a = b)
  | .null, .null => .isTrue rfl
  | .bool a, .bool b => decidable_of_iff (a = b) (by simp)
  | .number a, .number b => decidable_of_iff (a = b) (by simp)
  | .string a, .string b => decidable_of_iff (a = b) (by simp)
  | .array a, .array b =>
      have := Value.decEqList a b
      decidable_of_iff (a = b) (by simp)
  | .object a, .object b =>
      have := Value.decEqEntries a b
      decidable_of_iff (a = b) (by simp)
  | .null, .bool _ | .null, .number _ | .null, .string _ | .null, .array _ | .null, .object _
  | .bool _, .null | .bool _, .number _ | .bool _, .string _ | .bool _, .array _
  | .bool _, .object _
  | .number _, .null | .number _, .bool _ | .number _, .string _ | .number _, .array _
  | .number _, .object _
  | .string _, .null | .string _, .bool _ | .string _, .number _ | .string _, .array _
  | .string _, .object _
  | .array _, .null | .array _, .bool _ | .array _, .number _ | .array _, .string _
  | .array _, .object _
  | .object _, .null | .object _, .bool _ | .object _, .number _ | .object _, .string _
  | .object _, .array _ => .isFalse (by simp)

def Value.decEqList : (a b : List Value) → Decidable (a = b)
  | [], [] => .isTrue rfl
  | [], _ :: _ => .isFalse (by simp)
  | _ :: _, [] => .isFalse (by simp)
  | a :: as, b :: bs =>
      have := Value.decEq a b
      have := Value.decEqList as bs
      decidable_of_iff (a = b ∧ as = bs) (by simp)

def Value.decEqEntries : (a b : List (String × Value)) → Decidable (a = b)
  | [], [] => .isTrue rfl
  | [], _ :: _ => .isFalse (by simp)
  | _ :: _, [] => .isFalse (by simp)
  | (k,a) :: as, (l,b) :: bs =>
      have := Value.decEq a b
      have := Value.decEqEntries as bs
      decidable_of_iff ((k = l ∧ a = b) ∧ as = bs) (by simp)

end

instance : DecidableEq Value := Value.decEq

instance : Inhabited Value := ⟨.null⟩

def lookup (k : String) : List (String × Value) → Option Value
  | [] => none
  | (l,v) :: rest => if l = k then some v else lookup k rest

def Value.get? : Value → String → Option Value
  | .object kvs, k => lookup k kvs
  | _, _ => none

/-- The total index `v["k"]`: a missing key, or a value that is no object,
reads as `null`. -/
def Value.index (v : Value) (k : String) : Value := (v.get? k).getD .null

def Value.asStr? : Value → Option String
  | .string s => some s
  | _ => none

def Value.asArray? : Value → Option (List Value)
  | .array xs => some xs
  | _ => none

/-- Insertion into entries sorted by key: an entry of the same key is replaced. -/
def insertEntry (k : String) (v : Value) : List (String × Value) → List (String × Value)
  | [] => [(k,v)]
  | (l,w) :: rest =>
      if k < l then (k,v) :: (l,w) :: rest
      else if k = l then (k,v) :: rest
      else (l,w) :: insertEntry k v rest

def removeEntry (k : String) (kvs : List (String × Value)) : List (String × Value) :=
  kvs.filter (fun e => e.1 ≠ k)

def setEntry (k : String) (v : Value) : List (String × Value) → List (String × Value)
  | [] => []
  | (l,w) :: rest => if l = k then (l,v) :: rest else (l,w) :: setEntry k v rest

def Value.insert : Value → String → Value → Value
  | .object kvs, k, x => .object (insertEntry k x kvs)
  | v, _, _ => v

def Value.remove : Value → String → Value
  | .object kvs, k => .object (removeEntry k kvs)
  | v, _ => v

def Value.set : Value → String → Value → Value
  | .object kvs, k, x => .object (setEntry k x kvs)
  | v, _, _ => v

/-- What the mutable index `v["k"]` does to an object before it is written
through: a missing key is inserted with the value `null`. -/
def Value.indexMut (v : Value) (k : String) : Value :=
  match v.get? k with
  | some _ => v
  | none => v.insert k .null

theorem lookup_append (k : String) (as bs : List (String × Value)) :
    lookup k (as ++ bs) = (lookup k as).or (lookup k bs) := by
  induction as with
  | nil => simp [lookup]
  | cons e as ih =>
    simp only [cons_append,lookup]
    split
    · rfl
    · exact ih

theorem lookup_eq_find (k : String) (kvs : List (String × Value)) :
    lookup k kvs = Folder.find k kvs := by
  induction kvs with
  | nil => rfl
  | cons e rest ih => simp only [lookup,Folder.find,ih]

theorem insertEntry_eq (k : String) (v : Value) (kvs : List (String × Value)) :
    insertEntry k v kvs = Folder.insertEntry k v kvs := by
  induction kvs with
  | nil => rfl
  | cons e rest ih => simp only [insertEntry,Folder.insertEntry,ih,@eq_comm _ k]

theorem lookup_insertEntry (k : String) (v : Value) (kvs : List (String × Value)) :
    lookup k (insertEntry k v kvs) = some v := by
  rw [lookup_eq_find,insertEntry_eq,Folder.find_insertEntry,if_pos rfl]

variable {k l : String}

section

variable (v : Value) (kvs : List (String × Value)) (h : l ≠ k)

include h

theorem lookup_insertEntry_ne : lookup l (insertEntry k v kvs) = lookup l kvs := by
  rw [lookup_eq_find,insertEntry_eq,Folder.find_insertEntry,if_neg h.symm,lookup_eq_find]

theorem lookup_setEntry_ne : lookup l (setEntry k v kvs) = lookup l kvs := by
  induction kvs with
  | nil => rfl
  | cons e rest ih =>
    obtain ⟨j,w⟩ := e
    by_cases hj : j = k
    · subst hj
      simp [setEntry,lookup,Ne.symm h]
    · simp [setEntry,lookup,hj,ih]

end

variable {kvs : List (String × Value)} {w : Value}

theorem lookup_setEntry (v : Value) (h : lookup k kvs = some w) :
    lookup k (setEntry k v kvs) = some v := by
  induction kvs with
  | nil => simp [lookup] at h
  | cons e rest ih =>
    obtain ⟨j,u⟩ := e
    by_cases hj : j = k
    · simp [setEntry,lookup,hj]
    · simp only [lookup,hj,if_false] at h
      simp [setEntry,lookup,hj,ih h]

theorem setEntry_lookup (h : lookup k kvs = some w) : setEntry k w kvs = kvs := by
  induction kvs with
  | nil => rfl
  | cons e rest ih =>
    obtain ⟨j,u⟩ := e
    by_cases hj : j = k
    · simp only [lookup,hj,if_true,Option.some.injEq] at h
      simp [setEntry,hj,h]
    · simp only [lookup,hj,if_false] at h
      simp [setEntry,hj,ih h]

variable {v : Value}

theorem Value.get?_eq_some {x : Value} (h : v.get? k = some x) :
    ∃ kvs, v = .object kvs ∧ lookup k kvs = some x := by
  cases v with
  | object kvs => exact ⟨kvs,rfl,h⟩
  | null | bool _ | number _ | string _ | array _ => simp [get?] at h

theorem Value.get?_of_index {x : Value} (h : v.index k = x) (hx : x ≠ .null) :
    v.get? k = some x := by
  unfold index at h
  cases hg : v.get? k with
  | none => simp [hg] at h; exact absurd h.symm hx
  | some y => simpa [hg] using h

theorem sizeOf_lookup (h : lookup k kvs = some v) : sizeOf v < sizeOf kvs := by
  induction kvs with
  | nil => simp [lookup] at h
  | cons kv kvs ih =>
    obtain ⟨l,w⟩ := kv
    unfold lookup at h
    split at h
    · cases h
      simp +arith
    · have hrest := ih h
      simp
      omega

theorem Value.sizeOf_index (h : v.index k ≠ .null) : sizeOf (v.index k) < sizeOf v := by
  obtain ⟨kvs,rfl,hl⟩ := get?_eq_some (get?_of_index rfl h)
  have hlt := sizeOf_lookup hl
  simp
  omega

theorem Value.asArray?_eq_some {xs : List Value} (h : v.asArray? = some xs) : v = .array xs := by
  cases v with
  | array ys => simpa [asArray?] using h
  | null | bool _ | number _ | string _ | object _ => simp [asArray?] at h

theorem Value.asStr?_eq_some {s : String} (h : v.asStr? = some s) : v = .string s := by
  cases v with
  | string t => simpa [asStr?] using h
  | null | bool _ | number _ | array _ | object _ => simp [asStr?] at h

variable (x : Value)

theorem Value.get?_set_ne (v : Value) (h : l ≠ k) : (v.set k x).get? l = v.get? l := by
  cases v with
  | object kvs => exact lookup_setEntry_ne x kvs h
  | null | bool _ | number _ | string _ | array _ => rfl

theorem Value.get?_set (h : v.get? k = some w) : (v.set k x).get? k = some x := by
  obtain ⟨kvs,rfl,hl⟩ := get?_eq_some h
  exact lookup_setEntry x hl

theorem Value.set_get? (h : v.get? k = some w) : v.set k w = v := by
  obtain ⟨kvs,rfl,hl⟩ := get?_eq_some h
  exact congrArg Value.object (setEntry_lookup hl)

theorem Value.get?_insert_ne (v : Value) (h : l ≠ k) : (v.insert k x).get? l = v.get? l := by
  cases v with
  | object kvs => exact lookup_insertEntry_ne x kvs h
  | null | bool _ | number _ | string _ | array _ => rfl

@[simp] theorem Value.index_set_ne (v : Value) (h : l ≠ k) : (v.set k x).index l = v.index l := by
  simp [index,get?_set_ne x v h]

@[simp] theorem Value.index_indexMut_ne (v : Value) (h : l ≠ k) :
    (v.indexMut k).index l = v.index l := by
  unfold indexMut
  split
  · rfl
  · simp [index,get?_insert_ne _ _ h]

@[simp] theorem Value.index_indexMut (v : Value) (k : String) :
    (v.indexMut k).index k = v.index k := by
  unfold indexMut
  cases hg : v.get? k with
  | some x => rfl
  | none =>
    cases v with
    | object kvs =>
      simp only [get?] at hg
      simp [index,hg,insert,get?,lookup_insertEntry]
    | null | bool _ | number _ | string _ | array _ => rfl

theorem Value.indexMut_of_get? {x : Value} (h : v.get? k = some x) : v.indexMut k = v := by
  simp [indexMut,h]

def SortedKeys (kvs : List (String × Value)) : Prop := kvs.Pairwise (fun a b => a.1 < b.1)

instance (kvs : List (String × Value)) : Decidable (SortedKeys kvs) :=
  inferInstanceAs (Decidable (kvs.Pairwise _))

def Value.Sorted : Value → Prop
  | .object kvs => SortedKeys kvs
  | _ => True

instance (v : Value) : Decidable v.Sorted := by
  cases v <;> unfold Value.Sorted <;> infer_instance

theorem lookup_removeEntry (k : String) (kvs : List (String × Value)) :
    lookup k (removeEntry k kvs) = none := by
  induction kvs with
  | nil => rfl
  | cons e rest ih =>
    obtain ⟨l,w⟩ := e
    by_cases hl : l = k
    · simpa [removeEntry,hl] using ih
    · simpa [removeEntry,hl,lookup] using ih

theorem lookup_removeEntry_ne (kvs : List (String × Value)) (h : l ≠ k) :
    lookup l (removeEntry k kvs) = lookup l kvs := by
  induction kvs with
  | nil => rfl
  | cons e rest ih =>
    obtain ⟨j,w⟩ := e
    by_cases hj : j = k
    · subst hj
      simpa [removeEntry,lookup,Ne.symm h] using ih
    · have hr : removeEntry k ((j,w) :: rest) = (j,w) :: removeEntry k rest := by
        simp [removeEntry,hj]
      rw [hr]
      simp [lookup,ih]

theorem removeEntry_of_lookup (h : lookup k kvs = none) : removeEntry k kvs = kvs := by
  induction kvs with
  | nil => rfl
  | cons e rest ih =>
    obtain ⟨l,w⟩ := e
    by_cases hl : l = k
    · simp [lookup,hl] at h
    · have hr : removeEntry k ((l,w) :: rest) = (l,w) :: removeEntry k rest := by
        simp [removeEntry,hl]
      rw [hr,ih (by simpa [lookup,hl] using h)]

theorem SortedKeys.insertEntry (h : SortedKeys kvs) (k : String) (v : Value) :
    SortedKeys (insertEntry k v kvs) :=
  insertEntry_eq k v kvs ▸ Folder.sorted_insertEntry h

theorem SortedKeys.removeEntry (h : SortedKeys kvs) (k : String) :
    SortedKeys (removeEntry k kvs) := h.filter _

theorem lookup_eq_none_of_lt (h : ∀ e ∈ kvs, k < e.1) : lookup k kvs = none := by
  induction kvs with
  | nil => rfl
  | cons e rest ih =>
    obtain ⟨l,w⟩ := e
    have hl : k < l := h (l,w) mem_cons_self
    simp [lookup,Ne.symm (ne_of_lt hl),ih fun e he => h e (mem_cons_of_mem _ he)]

theorem SortedKeys.ext {as bs : List (String × Value)} (ha : SortedKeys as) (hb : SortedKeys bs)
    (h : ∀ k, lookup k as = lookup k bs) : as = bs := by
  have hd : (⟨as,ha⟩ : Folder String Value) = ⟨bs,hb⟩ := by
    refine Folder.ext_lookup fun k => ?_
    rw [Folder.lookup,Folder.lookup,← lookup_eq_find,← lookup_eq_find]
    exact h k
  exact congrArg Folder.entries hd

variable {f : String × Value → Option (String × Value)}

section

variable (hf : ∀ e d, f e = some d → d.1 = e.1) (h : SortedKeys kvs)

include hf h

theorem SortedKeys.filterMap : SortedKeys (kvs.filterMap f) := by
  refine Pairwise.filterMap _ (fun a a' haa b hb b' hb' => ?_) h
  rw [hf _ _ hb,hf _ _ hb']
  exact haa

theorem lookup_filterMap (k : String) :
    lookup k (kvs.filterMap f) = (lookup k kvs).bind fun v => (f (k,v)).map Prod.snd := by
  induction kvs with
  | nil => rfl
  | cons e rest ih =>
    obtain ⟨l,v⟩ := e
    obtain ⟨hl,hr⟩ := pairwise_cons.mp h
    by_cases hk : l = k
    · subst hk
      cases he : f (l,v) with
      | none =>
        have hn : lookup l rest = none := lookup_eq_none_of_lt hl
        simp [he,lookup,ih hr,hn]
      | some d =>
        have hd : d.1 = l := hf _ _ he
        simp [he,lookup,hd]
    · cases he : f (l,v) with
      | none => simp [he,lookup,hk,ih hr]
      | some d =>
        have hd : d.1 ≠ k := hf _ _ he ▸ hk
        simp [he,lookup,hk,hd,ih hr]

end

theorem Value.tree_induction {P : Value → Prop} (null : P .null) (bool : ∀ b,P (.bool b))
    (number : ∀ n,P (.number n)) (string : ∀ s,P (.string s))
    (array : ∀ xs,(∀ x ∈ xs,P x) → P (.array xs))
    (object : ∀ kvs,(∀ e ∈ kvs,P e.2) → P (.object kvs)) (v : Value) : P v := by
  induction hsize : sizeOf v using Nat.strong_induction_on generalizing v with
  | _ n ih =>
    cases v with
    | null => exact null
    | bool b => exact bool b
    | number n => exact number n
    | string s => exact string s
    | array xs =>
      refine array xs fun x hx => ih _ ?_ x rfl
      have hlt := sizeOf_lt_of_mem hx
      simp only [Value.array.sizeOf_spec] at hsize
      omega
    | object kvs =>
      refine object kvs fun e he => ih _ ?_ e.2 rfl
      have hlt := sizeOf_lt_of_mem he
      obtain ⟨k,x⟩ := e
      simp only [Value.object.sizeOf_spec,Prod.mk.sizeOf_spec] at hsize hlt ⊢
      omega

section Objects

variable (p : List (String × Value) → Bool)

mutual

def Value.allObjects : Value → Bool
  | .object kvs => p kvs && allObjectsEntries kvs
  | .array xs => allObjectsElements xs
  | .null | .bool _ | .number _ | .string _ => true

def allObjectsEntries : List (String × Value) → Bool
  | [] => true
  | (_,x) :: rest => x.allObjects && allObjectsEntries rest

def allObjectsElements : List Value → Bool
  | [] => true
  | x :: rest => x.allObjects && allObjectsElements rest

end

variable {p}

theorem allObjects_object {kvs : List (String × Value)} : (Value.object kvs).allObjects p = true ↔
      p kvs = true ∧ ∀ e ∈ kvs,e.2.allObjects p = true := by
  have hentries : ∀ kvs : List (String × Value),
      allObjectsEntries p kvs = true ↔ ∀ e ∈ kvs,e.2.allObjects p = true := by
    intro kvs
    induction kvs with
    | nil => simp [allObjectsEntries]
    | cons e rest ih => simp [allObjectsEntries,ih]
  simp [Value.allObjects,hentries]

theorem allObjects_array {xs : List Value} :
    (Value.array xs).allObjects p = true ↔ ∀ x ∈ xs,x.allObjects p = true := by
  have helements : ∀ xs : List Value,
      allObjectsElements p xs = true ↔ ∀ x ∈ xs,x.allObjects p = true := by
    intro xs
    induction xs with
    | nil => simp [allObjectsElements]
    | cons x rest ih => simp [allObjectsElements,ih]
  simp [Value.allObjects,helements]

end Objects

def Value.canonical (v : Value) : Bool := v.allObjects fun kvs => decide (SortedKeys kvs)

variable {kvs : List (String × Value)}

theorem canonical_object :
    (Value.object kvs).canonical = true ↔ SortedKeys kvs ∧ ∀ e ∈ kvs,e.2.canonical = true :=
  allObjects_object.trans (and_congr_left' decide_eq_true_iff)

theorem canonical_array {xs : List Value} :
    (Value.array xs).canonical = true ↔ ∀ x ∈ xs,x.canonical = true := allObjects_array

def collectInto (out : List (String × Value)) (entries : List (String × Value)) :
    List (String × Value) :=
  entries.foldl (fun out e => insertEntry e.1 e.2 out) out

def collect (entries : List (String × Value)) : List (String × Value) := collectInto [] entries

def keys (kvs : List (String × Value)) : List String := kvs.map Prod.fst

theorem SortedKeys.nodup (h : SortedKeys kvs) : (keys kvs).Nodup :=
  pairwise_map.mpr (h.imp fun hlt => ne_of_lt hlt)

section

variable {k : String} {v : Value} {kvs : List (String × Value)}

theorem mem_of_lookup (h : lookup k kvs = some v) : (k,v) ∈ kvs := by
  induction kvs with
  | nil => simp [lookup] at h
  | cons e rest ih =>
    obtain ⟨l,w⟩ := e
    simp only [lookup] at h
    split at h
    · rename_i heq
      obtain rfl := heq
      cases h
      exact mem_cons_self
    · exact mem_cons_of_mem _ (ih h)

end

variable {k : String}

theorem lookup_eq_none : lookup k kvs = none ↔ k ∉ keys kvs := by
  induction kvs with
  | nil => simp [lookup,keys]
  | cons e rest ih =>
    obtain ⟨l,w⟩ := e
    by_cases hl : l = k
    · simp [lookup,keys,hl]
    · simp only [lookup,hl,if_false,ih]
      simp [keys,Ne.symm hl]

theorem mem_keys_insertEntry {j : String} {v : Value} :
    j ∈ keys (insertEntry k v kvs) ↔ j = k ∨ j ∈ keys kvs := by
  induction kvs with
  | nil => simp [insertEntry,keys]
  | cons e rest ih =>
    obtain ⟨l,w⟩ := e
    simp only [insertEntry]
    split
    · simp [keys]
    split
    · rename_i heq
      simp [keys,heq]
    · simp only [keys,map_cons,mem_cons] at ih ⊢
      rw [ih]
      tauto

theorem insertEntry_perm {v : Value} (h : k ∉ keys kvs) :
    (insertEntry k v kvs).Perm ((k,v) :: kvs) := by
  induction kvs with
  | nil => exact Perm.refl _
  | cons e rest ih =>
    obtain ⟨l,w⟩ := e
    simp only [keys,map_cons,mem_cons,not_or] at h
    simp only [insertEntry]
    split
    · exact Perm.refl _
    · rw [if_neg h.1]
      exact ((ih h.2).cons _).trans (Perm.swap _ _ _)

variable {out : List (String × Value)}

theorem sortedKeys_collectInto (h : SortedKeys out) (entries : List (String × Value)) :
    SortedKeys (collectInto out entries) := by
  induction entries generalizing out with
  | nil => exact h
  | cons e rest ih => exact ih (h.insertEntry e.1 e.2)

theorem sortedKeys_collect (entries : List (String × Value)) : SortedKeys (collect entries) :=
  sortedKeys_collectInto Pairwise.nil entries

variable {entries : List (String × Value)}

theorem mem_keys_collectInto :
    k ∈ keys (collectInto out entries) ↔ k ∈ keys out ∨ k ∈ keys entries := by
  induction entries generalizing out with
  | nil => simp [collectInto,keys]
  | cons e rest ih =>
    have hstep : collectInto out (e :: rest) = collectInto (insertEntry e.1 e.2 out) rest := rfl
    rw [hstep,ih,mem_keys_insertEntry]
    simp only [keys,map_cons,mem_cons]
    tauto

theorem mem_keys_collect : k ∈ keys (collect entries) ↔ k ∈ keys entries := by
  rw [collect,mem_keys_collectInto]
  simp [keys]

theorem collectInto_perm (h : (keys out ++ keys entries).Nodup) :
    (collectInto out entries).Perm (out ++ entries) := by
  induction entries generalizing out with
  | nil =>
    rw [append_nil]
    exact Perm.refl _
  | cons e rest ih =>
    have hfresh : e.1 ∉ keys out := fun hmem =>
      (nodup_append.mp h).2.2 _ hmem _ mem_cons_self rfl
    have hperm := @insertEntry_perm out e.1 e.2 hfresh
    have hnodup : (keys (insertEntry e.1 e.2 out) ++ keys rest).Nodup := by
      have hkeys := (hperm.map Prod.fst).append_right (keys rest)
      exact hkeys.nodup_iff.mpr (perm_middle.nodup_iff.mp h)
    calc (collectInto (insertEntry e.1 e.2 out) rest).Perm _ := ih hnodup
      Perm _ ((e :: out) ++ rest) := hperm.append_right rest
      Perm _ (out ++ e :: rest) := perm_middle.symm

theorem collect_perm (h : (keys entries).Nodup) :
    (collect entries).Perm entries := collectInto_perm h

theorem SortedKeys.eq_of_perm {as bs : List (String × Value)} (ha : SortedKeys as)
    (hb : SortedKeys bs) (h : as.Perm bs) : as = bs :=
  h.eq_of_pairwise (fun _ _ _ _ hab hba => absurd hba (lt_asymm hab)) ha hb

theorem SortedKeys.collect_eq (h : SortedKeys kvs) : collect kvs = kvs :=
  (sortedKeys_collect kvs).eq_of_perm h (collect_perm h.nodup)

end Json
