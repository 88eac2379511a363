import Mathlib.Data.List.Basic
import Mathlib.Algebra.GroupWithZero.Nat
import Mathlib.Order.Lattice
import Mathlib.Data.List.TakeWhile

/-!
Directories listed by name: association lists whose keys strictly increase, so that what a
directory holds determines its listing; and the stem and the extension of a file name.
-/

set_option autoImplicit false

structure Folder (κ α : Type) [LinearOrder κ] where
  entries : List (κ × α)
  sorted : entries.Pairwise fun a b => a.1 < b.1

namespace Folder

open List

variable {κ α : Type} [LinearOrder κ]

def empty : Folder κ α := ⟨[],.nil⟩

def find (k : κ) : List (κ × α) → Option α
  | [] => none
  | e :: es => if e.1 = k then some e.2 else find k es

def lookup (k : κ) (d : Folder κ α) : Option α := find k d.entries

def has (k : κ) (d : Folder κ α) : Bool := (d.lookup k).isSome

def names (d : Folder κ α) : List κ := d.entries.map Prod.fst

def filter (p : κ → α → Bool) (d : Folder κ α) : Folder κ α :=
  ⟨d.entries.filter fun e => p e.1 e.2,d.sorted.filter _⟩

def erase (k : κ) (d : Folder κ α) : Folder κ α := d.filter fun k' _ => k' ≠ k

def mapValues (f : κ → α → α) (d : Folder κ α) : Folder κ α :=
  ⟨d.entries.map fun e => (e.1,f e.1 e.2),d.sorted.map _ fun _ _ h => h⟩

def total (size : α → Nat) (d : Folder κ α) : Nat := (d.entries.map fun e => size e.2).sum

def insertEntry (k : κ) (v : α) : List (κ × α) → List (κ × α)
  | [] => [(k,v)]
  | e :: es =>
    if k < e.1 then (k,v) :: e :: es
    else if e.1 = k then (k,v) :: es
    else e :: insertEntry k v es

variable {es : List (κ × α)} {k : κ} {v : α}

theorem fst_insertEntry {e : κ × α} (h : e ∈ insertEntry k v es) : e = (k,v) ∨ e ∈ es := by
  induction es with
  | nil => exact .inl (mem_singleton.mp h)
  | cons e' es ih =>
    rw [insertEntry] at h
    split at h
    · rcases mem_cons.mp h with h | h
      · exact .inl h
      · exact .inr h
    · split at h
      · rcases mem_cons.mp h with h | h
        · exact .inl h
        · exact .inr (mem_cons_of_mem _ h)
      · rcases mem_cons.mp h with h | h
        · exact .inr (h ▸ mem_cons_self)
        · rcases ih h with h | h
          · exact .inl h
          · exact .inr (mem_cons_of_mem _ h)

theorem sorted_insertEntry (h : es.Pairwise fun a b => a.1 < b.1) :
    (insertEntry k v es).Pairwise fun a b => a.1 < b.1 := by
  induction es with
  | nil => exact pairwise_singleton _ _
  | cons e es ih =>
    obtain ⟨he,hes⟩ := pairwise_cons.mp h
    rw [insertEntry]
    split
    · rename_i hlt
      refine pairwise_cons.mpr ⟨fun e' he' => ?_,h⟩
      rcases mem_cons.mp he' with rfl | he'
      · exact hlt
      · exact lt_trans hlt (he e' he')
    · split
      · rename_i heq
        exact pairwise_cons.mpr ⟨fun e' he' => heq ▸ he e' he',hes⟩
      rename_i hlt hne
      refine pairwise_cons.mpr ⟨fun e' he' => ?_,ih hes⟩
      rcases fst_insertEntry he' with rfl | he'
      · exact lt_of_le_of_ne (not_lt.mp hlt) hne
      · exact he e' he'

def set (k : κ) (v : Option α) (d : Folder κ α) : Folder κ α :=
  match v with
  | none => d.erase k
  | some v => ⟨insertEntry k v d.entries,sorted_insertEntry d.sorted⟩

variable {d : Folder κ α}

@[ext] theorem ext {d' : Folder κ α} (h : d.entries = d'.entries) : d = d' := by
  cases d
  cases d'
  cases h
  rfl

theorem find_eq_some (h : es.Pairwise fun a b => a.1 < b.1) : find k es = some v ↔ (k,v) ∈ es := by
  induction es with
  | nil => simp [find]
  | cons e es ih =>
    obtain ⟨he,hes⟩ := pairwise_cons.mp h
    rw [find,mem_cons]
    split
    · rename_i heq
      subst heq
      refine ⟨fun hv => .inl (Prod.ext rfl (Option.some.inj hv).symm),fun hv => ?_⟩
      rcases hv with hv | hv
      · exact congrArg some (congrArg Prod.snd hv).symm
      · exact absurd (he _ hv) (lt_irrefl _)
    · rename_i hne
      rw [ih hes]
      exact ⟨.inr,fun hv => hv.resolve_left fun heq => hne (congrArg Prod.fst heq).symm⟩

theorem lookup_eq_some : d.lookup k = some v ↔ (k,v) ∈ d.entries := find_eq_some d.sorted

theorem lookup_eq_none : d.lookup k = none ↔ k ∉ d.names := by
  rw [Option.eq_none_iff_forall_ne_some,names,mem_map]
  constructor
  · rintro h ⟨e,he,rfl⟩
    exact h e.2 (lookup_eq_some.mpr he)
  · exact fun h v hv => h ⟨(k,v),lookup_eq_some.mp hv,rfl⟩

theorem has_iff : d.has k = true ↔ k ∈ d.names := by
  rw [has,Option.isSome_iff_ne_none,ne_eq,lookup_eq_none,not_not]

theorem names_nodup (d : Folder κ α) : d.names.Nodup :=
  (d.sorted.map Prod.fst fun _ _ h => h).imp fun h => ne_of_lt h

variable (p : κ → α → Bool)

theorem lookup_filter (d : Folder κ α) (k : κ) :
    (d.filter p).lookup k = (d.lookup k).filter (p k) := by
  refine Option.ext fun v => ?_
  rw [lookup_eq_some,Option.filter_eq_some_iff,lookup_eq_some]
  exact mem_filter

theorem lookup_erase (d : Folder κ α) (k k' : κ) :
    (d.erase k').lookup k = if k = k' then none else d.lookup k := by
  rw [erase,lookup_filter]
  split
  · rename_i h
    simp [h]
  · rename_i h
    cases d.lookup k <;> simp [h]

theorem lookup_mapValues (f : κ → α → α) (d : Folder κ α) (k : κ) :
    (d.mapValues f).lookup k = (d.lookup k).map (f k) := by
  refine Option.ext fun v => ?_
  rw [lookup_eq_some,Option.map_eq_some_iff]
  constructor
  · intro h
    obtain ⟨e,he,heq⟩ := mem_map.mp h
    cases heq
    exact ⟨e.2,lookup_eq_some.mpr he,rfl⟩
  · rintro ⟨v',hv',rfl⟩
    exact mem_map.mpr ⟨(k,v'),lookup_eq_some.mp hv',rfl⟩

theorem find_insertEntry {k' : κ} (es : List (κ × α)) :
    find k' (insertEntry k v es) = if k = k' then some v else find k' es := by
  induction es with
  | nil => rfl
  | cons e es ih =>
    rw [insertEntry]
    split
    · rw [find]
    split
    · rename_i heq
      rw [find,find,heq]
      split <;> rfl
    · rename_i hne
      rw [find,find,ih]
      split
      · rename_i heq
        rw [if_neg fun h => hne (heq.trans h.symm)]
      · rfl

theorem lookup_set (d : Folder κ α) (k k' : κ) (v : Option α) :
    (d.set k v).lookup k' = if k' = k then v else d.lookup k' := by
  cases v with
  | none => exact lookup_erase d k' k
  | some v =>
    show find k' (insertEntry k v d.entries) = _
    rw [find_insertEntry]
    simp only [eq_comm]
    rfl

theorem filter_congr {p q : κ → α → Bool} (h : ∀ k v, d.lookup k = some v → p k v = q k v) :
    d.filter p = d.filter q :=
  ext (List.filter_congr fun e he => h e.1 e.2 (lookup_eq_some.mpr he))

theorem filter_filter (q : κ → α → Bool) (d : Folder κ α) :
    (d.filter q).filter p = d.filter fun k v => p k v && q k v :=
  ext List.filter_filter

theorem filter_true {p : κ → α → Bool} (h : ∀ k v, d.lookup k = some v → p k v = true) :
    d.filter p = d :=
  ext (filter_eq_self.mpr fun e he => h e.1 e.2 (lookup_eq_some.mpr he))

theorem lookup_filter_some {p : κ → α → Bool} :
    (d.filter p).lookup k = some v ↔ d.lookup k = some v ∧ p k v = true := by
  rw [lookup_filter,Option.filter_eq_some_iff]

theorem has_filter {p : κ → Bool} : (d.filter fun k _ => p k).has k = (d.has k && p k) := by
  rw [has,has,lookup_filter]
  cases d.lookup k with
  | none => rfl
  | some v => cases p k <;> rfl

theorem erase_eq_filter (d : Folder κ α) (k : κ) : d.erase k = d.filter fun k' _ => !decide (k' = k) :=
  filter_congr fun k' _ _ => by simp

theorem filter_erase (d : Folder κ α) (k : κ) : (d.erase k).filter p = (d.filter p).erase k := by
  rw [erase,erase,filter_filter,filter_filter]
  exact filter_congr fun _ _ _ => Bool.and_comm _ _

theorem ext_lookup {d' : Folder κ α} (h : ∀ k, d.lookup k = d'.lookup k) : d = d' := by
  have hmem : ∀ e, e ∈ d.entries ↔ e ∈ d'.entries := fun e => by
    rw [← lookup_eq_some,← lookup_eq_some,h]
  have hnodup (d : Folder κ α) : d.entries.Nodup := d.sorted.imp fun hlt heq => by
    rw [heq] at hlt
    exact lt_irrefl _ hlt
  refine ext (((perm_ext_iff_of_nodup (hnodup d) (hnodup d')).mpr hmem).eq_of_pairwise
    (fun a b _ _ hab hba => ?_) d.sorted d'.sorted)
  exact absurd (lt_trans hab hba) (lt_irrefl _)

theorem total_erase (size : α → Nat) (d : Folder κ α) (k : κ) :
    (d.erase k).total size + (d.lookup k).elim 0 size = d.total size := by
  obtain ⟨entries,hsorted⟩ := d
  simp only [erase,filter,total,lookup]
  induction entries with
  | nil => rfl
  | cons e es ih =>
    obtain ⟨he,hes⟩ := pairwise_cons.mp hsorted
    have ih := ih hes
    by_cases heq : e.1 = k
    · have hrest : es.filter (fun e => decide (e.1 ≠ k)) = es := by
        refine filter_eq_self.mpr fun e' he' => decide_eq_true fun h => ?_
        have hlt := he e' he'
        rw [heq,h] at hlt
        exact lt_irrefl k hlt
      rw [filter_cons_of_neg (by simp [heq]),hrest,find,if_pos heq,map_cons,sum_cons]
      exact Nat.add_comm _ _
    · rw [filter_cons_of_pos (by simp [heq]),find,if_neg heq,map_cons,sum_cons,map_cons,sum_cons]
      omega

/-- A pass over names in which each name removes some files, whatever else was removed before. -/
theorem foldl_filter {σ : Type} {step : Folder κ α × σ → κ → Folder κ α × σ} {doom : κ → κ → Bool}
    (hstep : ∀ (seen : List κ) (st : Folder κ α × σ) (n : κ),
      st.1 = d.filter (fun k _ => !seen.any (doom · k)) → (step st n).1 = st.1.filter fun k _ => !doom n k)
    (names : List κ) (o : σ) :
    (names.foldl step (d,o)).1 = d.filter fun k _ => !names.any (doom · k) := by
  suffices h : ∀ (names seen : List κ) (st : Folder κ α × σ),
      st.1 = d.filter (fun k _ => !seen.any (doom · k)) →
        (names.foldl step st).1 = d.filter fun k _ => !(seen ++ names).any (doom · k) from
    h names [] (d,o) (filter_true fun _ _ _ => rfl).symm
  intro names
  induction names with
  | nil => exact fun seen st hst => by rw [append_nil]; exact hst
  | cons n names ih =>
    intro seen st hst
    have hnext : (step st n).1 = d.filter fun k _ => !(seen ++ [n]).any (doom · k) := by
      rw [hstep seen st n hst,hst,filter_filter]
      refine filter_congr fun k _ _ => ?_
      simp [Bool.and_comm]
    rw [foldl_cons,ih (seen ++ [n]) _ hnext,append_assoc]
    rfl

end Folder

namespace FileName

open List

def splitLastDot (cs : List Char) : Option (List Char × List Char) :=
  match cs.reverse.dropWhile (· ≠ '.') with
  | [] => none
  | _ :: front => some (front.reverse,(cs.reverse.takeWhile (· ≠ '.')).reverse)

def split (name : String) : String × Option String :=
  if name = ".." then (name,none)
  else match splitLastDot name.toList with
  | none | some ([],_) => (name,none)
  | some (before,after) => (String.ofList before,some (String.ofList after))

def fileStem (name : String) : String := (split name).1

def extension (name : String) : Option String := (split name).2

def withExtension (name ext : String) : String := fileStem name ++ "." ++ ext

theorem splitLastDot_append (before : List Char) {after : List Char} (h : '.' ∉ after) :
    splitLastDot (before ++ '.' :: after) = some (before,after) := by
  have hafter : ∀ c ∈ after.reverse, decide (c ≠ '.') = true := by
    intro c hc
    exact decide_eq_true fun heq => h (heq ▸ mem_reverse.mp hc)
  have hrev : (before ++ '.' :: after).reverse = after.reverse ++ '.' :: before.reverse := by simp
  rw [splitLastDot,hrev,dropWhile_append_of_pos hafter,takeWhile_append_of_pos hafter]
  simp

theorem splitLastDot_eq {cs before after : List Char} (h : splitLastDot cs = some (before,after)) :
    cs = before ++ '.' :: after ∧ '.' ∉ after := by
  rw [splitLastDot] at h
  split at h
  · cases h
  rename_i c front hdrop
  cases h
  have hc : c = '.' := by
    have hhead := head?_dropWhile_not (fun c => decide (c ≠ '.')) cs.reverse
    rw [hdrop] at hhead
    simpa using hhead
  have hcs := takeWhile_append_dropWhile (p := fun c => decide (c ≠ '.')) (l := cs.reverse)
  rw [hdrop,hc] at hcs
  constructor
  · have h := congrArg reverse hcs
    rw [reverse_reverse,reverse_append,reverse_cons,append_assoc] at h
    exact h.symm
  · intro hm
    have := mem_takeWhile_imp (mem_reverse.mp hm)
    simp at this

theorem split_join {stem ext : String} (hstem : stem ≠ "") (hext : ext ≠ "")
    (hdot : '.' ∉ ext.toList) : split (stem ++ "." ++ ext) = (stem,some ext) := by
  have hlist : (stem ++ "." ++ ext).toList = stem.toList ++ '.' :: ext.toList := by
    simp [String.toList_append]
  have hne : stem ++ "." ++ ext ≠ ".." := by
    intro heq
    have hlast := congrArg (fun s : String => splitLastDot s.toList) heq
    simp only [hlist,splitLastDot_append _ hdot] at hlast
    have : ext.toList = [] := congrArg Prod.snd (Option.some.inj hlast)
    exact hext (String.toList_eq_nil_iff.mp this)
  rw [split,if_neg hne,hlist,splitLastDot_append _ hdot]
  cases hs : stem.toList with
  | nil => exact absurd (String.toList_eq_nil_iff.mp hs) hstem
  | cons c cs =>
    show (String.ofList (c :: cs),some (String.ofList ext.toList)) = _
    rw [← hs,String.ofList_toList,String.ofList_toList]

theorem join_split {name ext : String} (h : extension name = some ext) :
    name = fileStem name ++ "." ++ ext ∧ fileStem name ≠ "" := by
  rw [extension,split] at h
  rw [fileStem,split]
  split at h
  · cases h
  rename_i hne
  rw [if_neg hne]
  split at h
  · cases h
  · cases h
  rename_i before after hbefore hsplit
  cases h
  obtain ⟨hname,-⟩ := splitLastDot_eq hsplit
  simp only
  constructor
  · apply String.toList_injective
    rw [hname]
    simp [String.toList_append]
  · intro hempty
    have hnil : before = [] := by simpa using congrArg String.toList hempty
    exact hbefore hnil

theorem withExtension_extension {name ext : String} (h : extension name = some ext) :
    withExtension name ext = name := (join_split h).1.symm

section

variable {name ext ext' : String} (h : extension name = some ext) (hext : ext' ≠ "")
  (hdot : '.' ∉ ext'.toList)

include h hext hdot

theorem split_withExtension : split (withExtension name ext') = (fileStem name,some ext') :=
  split_join (join_split h).2 hext hdot

theorem fileStem_withExtension : fileStem (withExtension name ext') = fileStem name := by
  rw [fileStem,split_withExtension h hext hdot]

theorem extension_withExtension : extension (withExtension name ext') = some ext' := by
  rw [extension,split_withExtension h hext hdot]

end

end FileName
