import Synaps.Lib.Fresh
import Synaps.Lib.Json
import Synaps.Lib.Text

/-!
The names under which the properties of a tool's parameters are shown to a provider, the map that
is kept of them, and the schema in the new names, at every depth.
-/

set_option autoImplicit false

namespace Synaps.Schema

open Json
open List hiding lookup

def safeChar (allowDot : Bool) (c : Char) : Bool :=
  Text.isAsciiAlphanumeric c || c == '_' || c == '-' || (allowDot && c == '.')

def sanitized (name : List Char) (maxLen : Nat) (allowDot : Bool) : List Char :=
  let sanitized := name.map fun c => if safeChar allowDot c then c else '_'
  let sanitized := if sanitized.isEmpty then "field".toList else sanitized
  sanitized.take maxLen

def suffixed (base : List Char) (maxLen suffix : Nat) : List Char :=
  let suffixStr := '_' :: Nat.toDigits 10 suffix
  base.take (maxLen - suffixStr.length) ++ suffixStr

/-- The loop turns at most once more than there are used names. -/
def apiSafeIdentifier (name : String) (used : List String) (maxLen : Nat) (allowDot : Bool) :
    String :=
  let base := sanitized name.toList maxLen allowDot
  Fresh.search used (fun suffix => String.ofList (suffixed base maxLen suffix)) (used.length+1) 2
    (String.ofList base)

def apiSafePropertyName (name : String) (used : List String) : String :=
  apiSafeIdentifier name used 64 true

structure SchemaNameMap where
  apiToRuntime : List (String × String)
  children : List (String × SchemaNameMap)
  items : Option SchemaNameMap

def SchemaNameMap.empty : SchemaNameMap := ⟨[],[],none⟩

structure PropertyLoop where
  used : List String
  requiredNameMap : List (String × String)
  apiToRuntime : List (String × String)
  children : List (String × SchemaNameMap)
  props : List (String × Value)

def PropertyLoop.start : PropertyLoop := ⟨[],[],[],[],[]⟩

def PropertyLoop.step (l : PropertyLoop) : String × Value × SchemaNameMap → PropertyLoop
  | (runtimeName,sanitizedChild,childMap) =>
    let apiName := apiSafePropertyName runtimeName l.used
    { used := apiName :: l.used
      requiredNameMap := l.requiredNameMap ++ [(runtimeName,apiName)]
      apiToRuntime := l.apiToRuntime ++ [(apiName,runtimeName)]
      children :=
        if !childMap.apiToRuntime.isEmpty || !childMap.children.isEmpty
        then l.children ++ [(apiName,childMap)] else l.children
      props := insertEntry apiName sanitizedChild l.props }

def renameRequired (requiredNameMap : List (String × String)) : Value → Value
  | .string name =>
    match requiredNameMap.lookup name with
    | some apiName => .string apiName
    | none => .string name
  | item => item

def setRequired (requiredNameMap : List (String × String)) (obj : List (String × Value)) :
    List (String × Value) :=
  match lookup "required" obj with
  | some (.array required) =>
    setEntry "required" (.array (required.map (renameRequired requiredNameMap))) obj
  | _ => obj

/-- A schema object, given its properties and its items sanitized. -/
def sanitizeObject (obj : List (String × Value))
    (properties : Option (List (String × Value × SchemaNameMap)))
    (items : Option (Value × SchemaNameMap)) : Value × SchemaNameMap :=
  let loop := (properties.getD []).foldl PropertyLoop.step .start
  let obj := if properties.isSome then setEntry "properties" (.object loop.props) obj else obj
  let obj := setRequired loop.requiredNameMap obj
  match items with
  | none => (.object obj,⟨loop.apiToRuntime,loop.children,none⟩)
  | some (sanitizedItems,itemsMap) =>
    (.object (setEntry "items" sanitizedItems obj),
      ⟨loop.apiToRuntime,loop.children,
        if !itemsMap.apiToRuntime.isEmpty || !itemsMap.children.isEmpty || itemsMap.items.isSome
        then some itemsMap else none⟩)

mutual

def sanitizeSchema : Value → Value × SchemaNameMap
  | .object obj => sanitizeObject obj (sanitizeProperties obj) (sanitizeItems obj)
  | .null => (.null,.empty)
  | .bool b => (.bool b,.empty)
  | .number n => (.number n,.empty)
  | .string s => (.string s,.empty)
  | .array xs => (.array xs,.empty)

def sanitizeProperties : List (String × Value) → Option (List (String × Value × SchemaNameMap))
  | [] => none
  | (k,.object props) :: rest =>
    if k = "properties" then some (sanitizeChildren props) else sanitizeProperties rest
  | (k,.null) :: rest | (k,.bool _) :: rest | (k,.number _) :: rest | (k,.string _) :: rest
  | (k,.array _) :: rest => if k = "properties" then none else sanitizeProperties rest

def sanitizeItems : List (String × Value) → Option (Value × SchemaNameMap)
  | [] => none
  | (k,items) :: rest => if k = "items" then some (sanitizeSchema items) else sanitizeItems rest

def sanitizeChildren : List (String × Value) → List (String × Value × SchemaNameMap)
  | [] => []
  | (runtimeName,child) :: rest => (runtimeName,sanitizeSchema child) :: sanitizeChildren rest

end

mutual

def translateInputNames : Value → SchemaNameMap → Value
  | .object obj,map => .object (translateEntries obj map [])
  | .array arr,map =>
    match map.items with
    | some itemsMap => .array (translateElements arr itemsMap)
    | none => .array arr
  | .null,_ => .null
  | .bool b,_ => .bool b
  | .number n,_ => .number n
  | .string s,_ => .string s

def translateEntries : List (String × Value) → SchemaNameMap → List (String × Value) →
    List (String × Value)
  | [],_,out => out
  | (apiName,value) :: rest,map,out =>
    let runtimeName := (map.apiToRuntime.lookup apiName).getD apiName
    let value :=
      match map.children.lookup apiName with
      | some child => translateInputNames value child
      | none => value
    translateEntries rest map (insertEntry runtimeName value out)

def translateElements : List Value → SchemaNameMap → List Value
  | [],_ => []
  | v :: rest,map => translateInputNames v map :: translateElements rest map

end

def safeName (name : String) : Bool :=
  name.toList ≠ [] && name.toList.length ≤ 64 && name.toList.all (safeChar true)

theorem safeName_ofList {cs : List Char} : safeName (String.ofList cs) = true ↔
      cs ≠ [] ∧ cs.length ≤ 64 ∧ ∀ c ∈ cs,safeChar true c = true := by
  simp [safeName,and_assoc]

theorem sanitized_ne_nil (name : List Char) (allowDot : Bool) : sanitized name 64 allowDot ≠ [] := by
  unfold sanitized
  dsimp only
  split
  · decide
  · rename_i hne
    rw [Ne,take_eq_nil_iff]
    simpa using hne

theorem sanitized_chars (name : List Char) (maxLen : Nat) :
    ∀ c ∈ sanitized name maxLen true,safeChar true c = true := by
  intro c hc
  have hmem := mem_of_mem_take hc
  split at hmem
  · have hfield : ("field".toList.all (safeChar true)) = true := by decide
    exact all_eq_true.mp hfield c hmem
  · obtain ⟨d,-,rfl⟩ := mem_map.mp hmem
    split
    · assumption
    · decide

theorem sanitized_of_safe {name : String} (h : safeName name = true) :
    String.ofList (sanitized name.toList 64 true) = name := by
  simp only [safeName,Bool.and_eq_true,decide_eq_true_eq,all_eq_true] at h
  obtain ⟨⟨hne,hlen⟩,hchars⟩ := h
  have hmap : (name.toList.map fun c => if safeChar true c then c else '_') = name.toList := by
    conv_rhs => rw [← map_id name.toList]
    exact map_congr_left fun c hc => by simp [hchars c hc]
  unfold sanitized
  dsimp only
  rw [hmap,if_neg (by simpa using hne),take_of_length_le hlen,String.ofList_toList]

theorem safeChar_digit {c : Char} (h : c.isDigit = true) : safeChar true c = true := by
  simp only [Char.isDigit,Bool.and_eq_true,decide_eq_true_eq] at h
  have hdigit : ('0' ≤ c) ∧ (c ≤ '9') := h
  simp [safeChar,Text.isAsciiAlphanumeric,hdigit]

theorem suffixed_injective (base : List Char) (maxLen : Nat) :
    Function.Injective fun suffix => String.ofList (suffixed base maxLen suffix) := by
  intro a b h
  exact Text.toDigits_of_marked (by decide) (String.ofList_injective h)

theorem suffixed_safe {base : List Char} (hbase : ∀ c ∈ base,safeChar true c = true) {suffix : Nat}
    (hsuffix : suffix < 10^10) : safeName (String.ofList (suffixed base 64 suffix)) = true := by
  have hdigits : (Nat.toDigits 10 suffix).length ≤ 10 :=
    (Nat.length_toDigits_le_iff (by omega) (by omega)).mpr hsuffix
  rw [safeName_ofList]
  refine ⟨by simp [suffixed],?_,fun c hc => ?_⟩
  · simp only [suffixed,length_append,length_take,length_cons]
    omega
  · rcases mem_append.mp hc with hc | hc
    · exact hbase c (mem_of_mem_take hc)
    rcases mem_cons.mp hc with rfl | hc
    · decide
    · exact safeChar_digit (Nat.isDigit_of_mem_toDigits (by omega) (by omega) hc)

theorem apiSafePropertyName_notMem (name : String) (used : List String) :
    apiSafePropertyName name used ∉ used :=
  Fresh.search_notMem (suffixed_injective _ _) (Nat.lt_succ_self _) _ _

/-- The counter of the loop is a 32-bit integer, so fewer names can be in use than it counts. -/
theorem apiSafePropertyName_safe (name : String) {used : List String} (h : used.length < 2^31) :
    safeName (apiSafePropertyName name used) = true := by
  have hchars := sanitized_chars name.toList 64
  rcases @Fresh.search_range _ _ used _ (used.length+1) 2 _ with heq | ⟨m,-,hm,heq⟩
  · rw [apiSafePropertyName,apiSafeIdentifier,heq,safeName_ofList]
    exact ⟨sanitized_ne_nil _ _,length_take_le _ _,hchars⟩
  · rw [apiSafePropertyName,apiSafeIdentifier,heq]
    exact suffixed_safe hchars (by omega)

theorem apiSafePropertyName_of_safe {name : String} {used : List String}
    (hsafe : safeName name = true) (hnot : name ∉ used) : apiSafePropertyName name used = name := by
  have hbase := sanitized_of_safe hsafe
  rw [apiSafePropertyName,apiSafeIdentifier,Fresh.search_of_notMem (by rwa [hbase]),hbase]

structure Named (β : Type) where
  api : String
  name : String
  value : β

def named {β : Type} : List String → List (String × β) → List (Named β)
  | _,[] => []
  | used,(name,x) :: rest =>
    let api := apiSafePropertyName name used
    ⟨api,name,x⟩ :: named (api :: used) rest

section Named

variable {β : Type} {used : List String} {l : List (String × β)}

theorem named_source (used : List String) (l : List (String × β)) :
    (named used l).map (fun p => (p.name,p.value)) = l := by
  induction l generalizing used with
  | nil => rfl
  | cons e rest ih => simp [named,ih]

theorem named_map {γ : Type} (f : β → γ) (used : List String) (l : List (String × β)) :
    named used (l.map fun e => (e.1,f e.2))
      = (named used l).map fun p => ⟨p.api,p.name,f p.value⟩ := by
  induction l generalizing used with
  | nil => rfl
  | cons e rest ih => simp [named,ih]

theorem named_notMem {p : Named β} (hp : p ∈ named used l) : p.api ∉ used := by
  induction l generalizing used with
  | nil => cases hp
  | cons e rest ih =>
    rcases mem_cons.mp hp with rfl | hp
    · exact apiSafePropertyName_notMem _ _
    · exact fun hmem => ih hp (mem_cons_of_mem _ hmem)

theorem named_nodup (used : List String) (l : List (String × β)) :
    ((named used l).map Named.api).Nodup := by
  induction l generalizing used with
  | nil => exact nodup_nil
  | cons e rest ih =>
    refine nodup_cons.mpr ⟨fun hmem => ?_,ih _⟩
    obtain ⟨p,hp,heq⟩ := mem_map.mp hmem
    exact named_notMem hp (heq ▸ mem_cons_self)

theorem named_safe (h : l.length+used.length ≤ 2^31) {p : Named β} (hp : p ∈ named used l) :
    safeName p.api = true := by
  induction l generalizing used with
  | nil => cases hp
  | cons e rest ih =>
    rw [length_cons] at h
    rcases mem_cons.mp hp with rfl | hp
    · exact apiSafePropertyName_safe _ (by omega)
    · exact ih (by rw [length_cons]; omega) hp

theorem named_kept {pre post : List (Named β)} {p : Named β} (h : named used l = pre ++ p :: post)
    (hsafe : safeName p.name = true) (hne : p.api ≠ p.name) :
    p.name ∈ used ∨ ∃ q ∈ pre,q.api = p.name := by
  induction l generalizing used pre with
  | nil => simp [named] at h
  | cons e rest ih =>
    cases pre with
    | nil =>
      cases h
      by_contra hnot
      push Not at hnot
      exact hne (apiSafePropertyName_of_safe hsafe hnot.1)
    | cons q pre =>
      obtain ⟨rfl,htail⟩ := cons.inj h
      rcases ih htail with hmem | ⟨r,hr,heq⟩
      · rcases mem_cons.mp hmem with heq | hmem
        · exact .inr ⟨_,mem_cons_self,heq.symm⟩
        · exact .inl hmem
      · exact .inr ⟨r,mem_cons_of_mem _ hr,heq⟩

end Named

def keepsChild (m : SchemaNameMap) : Bool := !m.apiToRuntime.isEmpty || !m.children.isEmpty

theorem foldl_step (l : List (String × Value × SchemaNameMap)) (s : PropertyLoop) :
    let r := l.foldl PropertyLoop.step s
    r.requiredNameMap = s.requiredNameMap ++ (named s.used l).map (fun p => (p.name,p.api)) ∧
    r.apiToRuntime = s.apiToRuntime ++ (named s.used l).map (fun p => (p.api,p.name)) ∧
    r.children = s.children ++ (named s.used l).filterMap (fun p =>
      if keepsChild p.value.2 then some (p.api,p.value.2) else none) ∧
    r.props = collectInto s.props ((named s.used l).map fun p => (p.api,p.value.1)) := by
  induction l generalizing s with
  | nil => simp [named,collectInto]
  | cons e rest ih =>
    obtain ⟨name,child,childMap⟩ := e
    obtain ⟨hrequired,hnames,hchildren,hprops⟩ := ih (s.step (name,child,childMap))
    simp only [foldl_cons]
    refine ⟨?_,?_,?_,?_⟩
    · rw [hrequired]
      simp [PropertyLoop.step,named]
    · rw [hnames]
      simp [PropertyLoop.step,named]
    · rw [hchildren]
      by_cases hkeep : keepsChild childMap = true
      · have hcond := hkeep
        unfold keepsChild at hcond
        simp [PropertyLoop.step,named,hkeep,hcond]
      · have hcond := hkeep
        unfold keepsChild at hcond
        simp only [PropertyLoop.step,named,if_neg hcond]
        rw [filterMap_cons_none (by simp [hkeep])]
    · rw [hprops]
      rfl

def properties (schema : Value) : Option (List (String × Value)) :=
  match schema.get? "properties" with
  | some (.object props) => some props
  | _ => none

def names (schema : Value) : List (Named Value) := named [] ((properties schema).getD [])

def property (schema : Value) (k : String) : Option Value :=
  (properties schema).bind (lookup k)

def apiName (schema : Value) (k : String) : String :=
  match (names schema).find? (·.name == k) with
  | some p => p.api
  | none => k

theorem sanitizeProperties_eq (obj : List (String × Value)) : sanitizeProperties obj
      = (properties (.object obj)).map (map fun e => (e.1,sanitizeSchema e.2)) := by
  have hchildren : ∀ props,sanitizeChildren props
      = props.map fun e => (e.1,sanitizeSchema e.2) := by
    intro props
    induction props with
    | nil => rfl
    | cons e rest ih => simp [sanitizeChildren,ih]
  induction obj with
  | nil => rfl
  | cons e rest ih =>
    obtain ⟨k,v⟩ := e
    by_cases hk : k = "properties"
    · cases v <;> simp [sanitizeProperties,properties,Value.get?,lookup,hk,hchildren]
    · have hskip : properties (.object ((k,v) :: rest)) = properties (.object rest) := by
        simp [properties,Value.get?,lookup,hk]
      rw [hskip,← ih]
      cases v <;> simp [sanitizeProperties,hk]

theorem sanitizeItems_eq (obj : List (String × Value)) :
    sanitizeItems obj = (lookup "items" obj).map sanitizeSchema := by
  induction obj with
  | nil => rfl
  | cons e rest ih =>
    obtain ⟨k,v⟩ := e
    by_cases hk : k = "items" <;> simp [sanitizeItems,lookup,hk,ih]

def itemsMap (items : Value) : Option SchemaNameMap :=
  let m := (sanitizeSchema items).2
  if keepsChild m || m.items.isSome then some m else none

theorem sanitizeProperties_getD (obj : List (String × Value)) : (sanitizeProperties obj).getD [] =
    ((properties (.object obj)).getD []).map fun e => (e.1,sanitizeSchema e.2) := by
  rw [sanitizeProperties_eq]
  cases properties (.object obj) <;> rfl

theorem sanitizeSchema_map (schema : Value) : (sanitizeSchema schema).2 =
      ⟨(names schema).map fun p => (p.api,p.name),(names schema).filterMap fun p =>
          if keepsChild (sanitizeSchema p.value).2 then some (p.api,(sanitizeSchema p.value).2)
          else none,
        (schema.get? "items").bind itemsMap⟩ := by
  cases schema with
  | null | bool _ | number _ | string _ | array _ =>
    simp [sanitizeSchema,SchemaNameMap.empty,names,properties,Value.get?,named]
  | object obj =>
    have hloop := foldl_step ((sanitizeProperties obj).getD []) .start
    obtain ⟨-,hnames,hchildren,-⟩ := hloop
    rw [sanitizeProperties_getD] at hnames hchildren
    simp only [PropertyLoop.start,named_map,map_map,filterMap_map,nil_append,
      Function.comp_def] at hnames hchildren
    simp only [sanitizeSchema,sanitizeObject,sanitizeItems_eq,sanitizeProperties_getD,
      Value.get?,names]
    cases lookup "items" obj with
    | none => exact congrArg₂ (SchemaNameMap.mk · · none) hnames hchildren
    | some items => exact congrArg₂ (SchemaNameMap.mk · · (itemsMap items)) hnames hchildren

/-- The search for a free name counts with a 32-bit integer. -/
def fits (schema : Value) : Bool := schema.allObjects fun kvs => kvs.length < 2^31-2

structure WellFormed (schema : Value) : Prop where
  canonical : schema.canonical = true
  fits : fits schema = true

section Parts

variable {schema : Value} {k : String}

theorem WellFormed.get {child : Value} (h : WellFormed schema) (hget : schema.get? k = some child) :
    WellFormed child := by
  obtain ⟨kvs,rfl,hlookup⟩ := Value.get?_eq_some hget
  have hmem := mem_of_lookup hlookup
  exact ⟨(canonical_object.mp h.canonical).2 _ hmem,(allObjects_object.mp h.fits).2 _ hmem⟩

variable {props : List (String × Value)}

theorem properties_eq_some (h : properties schema = some props) :
    schema.get? "properties" = some (.object props) := by
  unfold properties at h
  split at h
  · rename_i heq
    rw [heq,Option.some.inj h]
  · cases h

theorem WellFormed.properties (h : WellFormed schema) (hprops : properties schema = some props) :
    WellFormed (.object props) :=
  h.get (properties_eq_some hprops)

theorem WellFormed.property {child : Value} (h : WellFormed schema)
    (hchild : property schema k = some child) : WellFormed child := by
  obtain ⟨props,hprops,hlookup⟩ := Option.bind_eq_some_iff.mp hchild
  exact (h.properties hprops).get hlookup

theorem names_source (schema : Value) :
    (names schema).map (fun p => (p.name,p.value)) = (properties schema).getD [] :=
  named_source _ _

theorem WellFormed.names_nodup (h : WellFormed schema) : ((names schema).map Named.name).Nodup := by
  have hkeys : (names schema).map Named.name = keys ((Schema.properties schema).getD []) := by
    rw [← names_source,Json.keys,map_map]
    rfl
  rw [hkeys]
  cases hprops : Schema.properties schema with
  | none => exact nodup_nil
  | some props => exact (canonical_object.mp (h.properties hprops).canonical).1.nodup

variable {p : Named Value}

theorem WellFormed.names_safe (h : WellFormed schema) (hp : p ∈ names schema) :
    safeName p.api = true := by
  refine named_safe ?_ hp
  cases hprops : Schema.properties schema with
  | none => simp
  | some props =>
    have hfits := (allObjects_object.mp (h.properties hprops).fits).1
    simp only [decide_eq_true_eq] at hfits
    simp only [Option.getD_some,length_nil]
    omega

theorem WellFormed.eq_of_name (h : WellFormed schema) {q : Named Value} (hp : p ∈ names schema)
    (hq : q ∈ names schema) (heq : p.name = q.name) : p = q :=
  inj_on_of_nodup_map h.names_nodup hp hq heq

theorem eq_of_api {q : Named Value} (hp : p ∈ names schema) (hq : q ∈ names schema)
    (heq : p.api = q.api) : p = q :=
  inj_on_of_nodup_map (named_nodup _ _) hp hq heq

theorem property_eq_none : property schema k = none ↔ ∀ p ∈ names schema,p.name ≠ k := by
  have hkeys : k ∈ keys ((properties schema).getD []) ↔ ∃ p ∈ names schema,p.name = k := by
    rw [← names_source,Json.keys,map_map,mem_map]
    rfl
  have hlookup : property schema k = lookup k ((properties schema).getD []) := by
    unfold property
    cases properties schema <;> rfl
  rw [hlookup,lookup_eq_none,hkeys]
  simp

theorem apiName_of_mem (h : WellFormed schema) (hp : p ∈ names schema) :
    apiName schema p.name = p.api := by
  unfold apiName
  cases hfind : (names schema).find? (·.name == p.name) with
  | none =>
    have hnone := find?_eq_none.mp hfind p hp
    simp at hnone
  | some q =>
    have hname : q.name = p.name := by simpa using find?_some hfind
    rw [h.eq_of_name (mem_of_find?_eq_some hfind) hp hname]

theorem apiName_of_unlisted (h : property schema k = none) : apiName schema k = k := by
  have hfind : (names schema).find? (·.name == k) = none :=
    find?_eq_none.mpr fun p hp => by simpa using property_eq_none.mp h p hp
  rw [apiName,hfind]

theorem property_eq_some {child : Value} (h : property schema k = some child) :
    ∃ p ∈ names schema,p.name = k ∧ p.value = child := by
  obtain ⟨props,hprops,hlookup⟩ := Option.bind_eq_some_iff.mp h
  have hmem := mem_of_lookup hlookup
  have hsource := names_source schema
  rw [hprops] at hsource
  rw [← show _ = props from hsource] at hmem
  obtain ⟨p,hp,heq⟩ := mem_map.mp hmem
  exact ⟨p,hp,congrArg Prod.fst heq,congrArg Prod.snd heq⟩

end Parts

def listsProperties (schema : Value) : Bool := !((properties schema).getD []).isEmpty

section

variable {α β : Type} {f : α → String} {keep : α → Bool} {g : α → β} {l : List α}

theorem lookup_filterMap_of_mem (hnodup : (l.map f).Nodup) {a : α} (ha : a ∈ l) :
    (l.filterMap fun b => if keep b then some (f b,g b) else none).lookup (f a)
      = if keep a then some (g a) else none := by
  induction l with
  | nil => cases ha
  | cons b rest ih =>
    obtain ⟨hnot,hrest⟩ := nodup_cons.mp hnodup
    rcases mem_cons.mp ha with rfl | ha
    · by_cases hkeep : keep a = true
      · simp [hkeep]
      rw [filterMap_cons_none (by simp [hkeep]),if_neg hkeep,lookup_eq_none_iff]
      intro e he
      obtain ⟨c,hc,heq⟩ := mem_filterMap.mp he
      split at heq
      · cases heq
        exact bne_iff_ne.mpr fun h => hnot (h ▸ mem_map_of_mem hc)
      · cases heq
    · have hne : f a ≠ f b := fun h => hnot (h ▸ mem_map_of_mem ha)
      have hbeq : (f a == f b) = false := beq_false_of_ne hne
      by_cases hkeep : keep b = true
      · simp [hkeep,lookup_cons,hbeq,ih hrest ha]
      · rw [filterMap_cons_none (by simp [hkeep]),ih hrest ha]

theorem lookup_filterMap_none {k : String} (h : ∀ a ∈ l,f a ≠ k) :
    (l.filterMap fun b => if keep b then some (f b,g b) else none).lookup k = none := by
  rw [lookup_eq_none_iff]
  intro e he
  obtain ⟨c,hc,heq⟩ := mem_filterMap.mp he
  split at heq
  · cases heq
    exact bne_iff_ne.mpr fun hk => h c hc hk.symm
  · cases heq

end

theorem keepsChild_eq (schema : Value) :
    keepsChild (sanitizeSchema schema).2 = listsProperties schema := by
  rw [sanitizeSchema_map,keepsChild,listsProperties,← names_source]
  cases names schema <;> simp

def requiredName (schema : Value) : Value → Value
  | .string name => .string (apiName schema name)
  | item => item

structure LevelRenamed (s s' : Value) : Prop where
  properties : ∀ props,properties s = some props → ∃ props',properties s' = some props' ∧
    (keys props').Nodup ∧ (∀ k ∈ keys props',safeName k = true) ∧
    (keys props').Perm ((keys props).map (apiName s))
  required : ∀ xs,s.get? "required" = some (.array xs) →
    s'.get? "required" = some (.array (xs.map (requiredName s)))
  items : (s'.get? "items").isSome = (s.get? "items").isSome

/-- A schema after the renaming, at every depth of properties and items. -/
inductive Renames : Value → Value → Prop
  | node {s s' : Value} (level : LevelRenamed s s')
      (property : ∀ k d d',property s k = some d → property s' (apiName s k) = some d' →
        Renames d d')
      (items : ∀ d d',s.get? "items" = some d → s'.get? "items" = some d' → Renames d d') :
      Renames s s'

theorem sizeOf_get? {v x : Value} {k : String} (h : v.get? k = some x) : sizeOf x < sizeOf v := by
  obtain ⟨kvs,rfl,hlookup⟩ := Value.get?_eq_some h
  have hlt := sizeOf_lookup hlookup
  simp only [Value.object.sizeOf_spec]
  omega

theorem sizeOf_property {v x : Value} {k : String} (h : property v k = some x) :
    sizeOf x < sizeOf v := by
  obtain ⟨props,hprops,hlookup⟩ := Option.bind_eq_some_iff.mp h
  have hinner : sizeOf x < sizeOf (Value.object props) := sizeOf_get? hlookup
  exact hinner.trans (sizeOf_get? (properties_eq_some hprops))

def sanitizedProps (schema : Value) : List (String × Value) :=
  collect ((names schema).map fun p => (p.api,(sanitizeSchema p.value).1))

section Sanitized

variable {schema : Value}

theorem renameRequired_eq (h : WellFormed schema) (item : Value) :
    renameRequired ((names schema).map fun p => (p.name,p.api)) item = requiredName schema item := by
  cases item with
  | null | bool _ | number _ | array _ | object _ => rfl
  | string name =>
    cases hproperty : property schema name with
    | none =>
      have hlookup := @lookup_filterMap_none _ _ Named.name (fun _ => true) Named.api _ _
        (property_eq_none.mp hproperty)
      simp only [if_true,filterMap_eq_map'] at hlookup
      simp only [renameRequired,hlookup,requiredName,apiName_of_unlisted hproperty]
    | some child =>
      obtain ⟨p,hp,rfl,-⟩ := property_eq_some hproperty
      have hlookup := @lookup_filterMap_of_mem _ _ Named.name (fun _ => true) Named.api
        (names schema) h.names_nodup p hp
      simp only [if_true,filterMap_eq_map'] at hlookup
      simp only [renameRequired,hlookup,requiredName,apiName_of_mem h hp]

theorem lookup_setRequired_ne {k : String} (hk : k ≠ "required") (m : List (String × String))
    (obj : List (String × Value)) : lookup k (setRequired m obj) = lookup k obj := by
  unfold setRequired
  split
  · exact lookup_setEntry_ne _ _ hk
  · rfl

variable {obj : List (String × Value)}

theorem lookup_setRequired {xs : List Value} (h : lookup "required" obj = some (.array xs))
    (m : List (String × String)) :
    lookup "required" (setRequired m obj) = some (.array (xs.map (renameRequired m))) := by
  simp only [setRequired,h]
  exact lookup_setEntry _ h

def propertyLoop (obj : List (String × Value)) : PropertyLoop :=
  ((sanitizeProperties obj).getD []).foldl PropertyLoop.step .start

section

variable (obj : List (String × Value))

theorem propertyLoop_spec :
    (propertyLoop obj).requiredNameMap = ((names (.object obj)).map fun p => (p.name,p.api)) ∧
      (propertyLoop obj).props = sanitizedProps (.object obj) := by
  obtain ⟨hrequired,-,-,hprops⟩ := foldl_step ((sanitizeProperties obj).getD []) .start
  rw [sanitizeProperties_getD] at hrequired hprops
  simp only [PropertyLoop.start,named_map,map_map,nil_append,Function.comp_def] at hrequired hprops
  rw [propertyLoop,sanitizeProperties_getD]
  exact ⟨hrequired,hprops⟩

def sanitizedEntries (obj : List (String × Value)) : List (String × Value) :=
  setRequired (propertyLoop obj).requiredNameMap
    (if (sanitizeProperties obj).isSome
      then setEntry "properties" (.object (propertyLoop obj).props) obj else obj)

theorem sanitizeSchema_get_ne {k : String} (hk : k ≠ "items") :
    (sanitizeSchema (.object obj)).1.get? k = lookup k (sanitizedEntries obj) := by
  simp only [sanitizeSchema,sanitizeObject]
  cases sanitizeItems obj with
  | none => rfl
  | some items => exact lookup_setEntry_ne _ _ hk

theorem lookup_sanitizedEntries_ne {k : String} (hproperties : k ≠ "properties")
    (hrequired : k ≠ "required") : lookup k (sanitizedEntries obj) = lookup k obj := by
  rw [sanitizedEntries,lookup_setRequired_ne hrequired]
  split
  · exact lookup_setEntry_ne _ _ hproperties
  · rfl

theorem sanitizeSchema_items : (sanitizeSchema (.object obj)).1.get? "items"
      = (lookup "items" obj).map fun items => (sanitizeSchema items).1 := by
  have hkept := @lookup_sanitizedEntries_ne obj "items" (by decide) (by decide)
  simp only [sanitizeSchema,sanitizeObject,sanitizeItems_eq]
  cases hitems : lookup "items" obj with
  | none => exact hkept.trans hitems
  | some items => exact lookup_setEntry _ (hkept.trans hitems)

end

theorem sanitizeSchema_properties {props : List (String × Value)}
    (h : properties (.object obj) = some props) :
    properties (sanitizeSchema (.object obj)).1 = some (sanitizedProps (.object obj)) := by
  have hsome : (sanitizeProperties obj).isSome = true := by
    rw [sanitizeProperties_eq,h]
    rfl
  have hget : (sanitizeSchema (.object obj)).1.get? "properties"
      = some (.object (sanitizedProps (.object obj))) := by
    rw [sanitizeSchema_get_ne obj (by decide),sanitizedEntries,
      lookup_setRequired_ne (by decide),if_pos hsome,(propertyLoop_spec obj).2]
    exact lookup_setEntry _ (properties_eq_some h)
  rw [properties,hget]

theorem sanitizeSchema_required {xs : List Value} (h : WellFormed (.object obj))
    (hxs : lookup "required" obj = some (.array xs)) :
    (sanitizeSchema (.object obj)).1.get? "required"
      = some (.array (xs.map (requiredName (.object obj)))) := by
  have hbefore : lookup "required" (if (sanitizeProperties obj).isSome
      then setEntry "properties" (.object (propertyLoop obj).props) obj else obj)
      = some (.array xs) := by
    split
    · rw [lookup_setEntry_ne _ _ (by decide),hxs]
    · exact hxs
  rw [sanitizeSchema_get_ne obj (by decide),sanitizedEntries,lookup_setRequired hbefore,
    (propertyLoop_spec obj).1]
  exact congrArg (fun ys => some (Value.array ys))
    (map_congr_left fun item _ => renameRequired_eq h item)

theorem keys_sanitizedProps (schema : Value) :
    (keys (sanitizedProps schema)).Perm ((names schema).map Named.api) := by
  have hkeys : keys ((names schema).map fun p => (p.api,(sanitizeSchema p.value).1))
      = (names schema).map Named.api := by
    rw [Json.keys,map_map]
    rfl
  have hnodup := hkeys ▸ named_nodup [] ((properties schema).getD [])
  exact hkeys ▸ (collect_perm hnodup).map Prod.fst

theorem levelRenamed_sanitizeSchema (h : WellFormed (.object obj)) :
    LevelRenamed (.object obj) (sanitizeSchema (.object obj)).1 where
  properties := by
    intro props hprops
    have hperm := keys_sanitizedProps (.object obj)
    refine ⟨_,sanitizeSchema_properties hprops,(sortedKeys_collect _).nodup,fun k hk => ?_,?_⟩
    · obtain ⟨p,hp,rfl⟩ := mem_map.mp (hperm.mem_iff.mp hk)
      exact h.names_safe hp
    · have hsource := names_source (.object obj)
      rw [hprops,Option.getD_some] at hsource
      have hapi : (names (.object obj)).map Named.api = (keys props).map (apiName (.object obj)) := by
        rw [← hsource,Json.keys,map_map,map_map]
        exact map_congr_left fun p hp => (apiName_of_mem h hp).symm
      rwa [hapi] at hperm
  required := fun xs hxs => sanitizeSchema_required h hxs
  items := by
    rw [sanitizeSchema_items,Option.isSome_map]
    rfl

theorem property_sanitizeSchema (h : WellFormed (.object obj)) {k : String} {d d' : Value}
    (hd : property (.object obj) k = some d)
    (hd' : property (sanitizeSchema (.object obj)).1 (apiName (.object obj) k) = some d') :
    d' = (sanitizeSchema d).1 := by
  obtain ⟨props,hprops,-⟩ := Option.bind_eq_some_iff.mp hd
  rw [property,sanitizeSchema_properties hprops,Option.bind_some] at hd'
  obtain ⟨p,hp,rfl,rfl⟩ := property_eq_some hd
  rw [apiName_of_mem h hp] at hd'
  have hnodup : (keys ((names (.object obj)).map fun p => (p.api,(sanitizeSchema p.value).1))).Nodup := by
    rw [Json.keys,map_map]
    exact named_nodup _ _
  obtain ⟨q,hq,heq⟩ := mem_map.mp ((collect_perm hnodup).mem_iff.mp (mem_of_lookup hd'))
  obtain rfl := eq_of_api hq hp (congrArg Prod.fst heq)
  exact (congrArg Prod.snd heq).symm

theorem renames_sanitizeSchema (h : WellFormed schema) : Renames schema (sanitizeSchema schema).1 := by
  induction hsize : sizeOf schema using Nat.strong_induction_on generalizing schema with
  | _ n ih =>
    cases schema with
    | null | bool _ | number _ | string _ | array _ =>
      refine .node ⟨fun _ h => ?_,fun _ h => ?_,rfl⟩ (fun _ _ _ h => ?_) fun _ _ h => ?_
      all_goals cases h
    | object obj =>
      refine .node (levelRenamed_sanitizeSchema h) (fun k d d' hd hd' => ?_) fun d d' hd hd' => ?_
      · rw [property_sanitizeSchema h hd hd']
        exact ih _ (hsize ▸ sizeOf_property hd) (h.property hd) rfl
      · have hitems := sanitizeSchema_items obj
        rw [hd',show lookup "items" obj = some d from hd,Option.map_some] at hitems
        rw [Option.some.inj hitems]
        exact ih _ (hsize ▸ sizeOf_get? hd) (h.get hd) rfl

end Sanitized

end Synaps.Schema
