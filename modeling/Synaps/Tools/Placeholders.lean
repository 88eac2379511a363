import Synaps.Lib.Text

/-!
`Expander`: the clock and file-time placeholders of `multi_edit`.
-/

set_option autoImplicit false

namespace Synaps.Placeholders

open Text List

/-- The clock format, the parsed format strings, the file times and the quoting of texts in
messages are those of the host. -/
structure Host (τ ι : Type) where
  iso : τ → List Char
  items : List Char → Option ι
  write : τ → ι → Option (List Char)
  modified : List Char → Except (List Char) τ
  debug : List Char → List Char

structure Expander (τ : Type) where
  now : τ
  mtimes : List (List Char × τ)

variable {τ ι : Type} (h : Host τ ι)

def formatChecked (t : τ) (fmt : List Char) : Except (List Char) (List Char) :=
  if fmt = [] then .error "empty strftime format".toList else
  match h.items fmt with
  | none => .error ("invalid strftime format ".toList ++ h.debug fmt)
  | some items =>
    match h.write t items with
    | some out => .ok out
    | none =>
        .error ("strftime format ".toList ++ h.debug fmt ++ " cannot format this time".toList)

def Expander.mtime (e : Expander τ) (path : List Char) : Except (List Char) (τ × Expander τ) :=
  if path.head? ≠ some '/' then
    .error ("mtime path ".toList ++ h.debug path ++ " must be absolute".toList)
  else
    match e.mtimes.lookup path with
    | some t => .ok (t,e)
    | none =>
      match h.modified path with
      | .error err =>
          .error ("cannot read the mtime of ".toList ++ path ++ ": ".toList ++ err)
      | .ok t => .ok (t,{ e with mtimes := (path,t) :: e.mtimes })

def opener : List Char := ['{','{']

def closer : List Char := ['}','}']

/-- An error about a placeholder starts with it. -/
def named {α : Type} (token : List Char) : Except (List Char) α → Except (List Char) α :=
  Except.mapError fun err => opener ++ token ++ closer ++ ": ".toList ++ err

def Expander.resolve (e : Expander τ) (token : List Char) :
    Except (List Char) (List Char × Expander τ) :=
  if token = "now_iso".toList then .ok (h.iso e.now,e) else
  match "now:".toList.isPrefixOf? token with
  | some fmt => (named token (formatChecked h e.now fmt)).map (·,e)
  | none =>
    match "mtime_iso:".toList.isPrefixOf? token with
    | some path => (named token (e.mtime h path)).map fun r => (h.iso r.1,r.2)
    | none =>
      match "mtime:".toList.isPrefixOf? token with
      | some rest =>
        match splitOnce ":/".toList rest with
        | none =>
            named token (.error "expected mtime:FMT:/absolute/path".toList)
        | some (fmt,path) => do
          let r ← named token (e.mtime h ('/' :: path))
          (named token (formatChecked h r.1 fmt)).map (·,r.2)
      | none =>
          .error ("unknown placeholder ".toList ++ opener ++ token ++ closer ++
            " (known: now:FMT, now_iso, mtime:FMT:/path, mtime_iso:/path; write ".toList ++
            opener ++ opener ++ " for a literal ".toList ++ opener ++ [')'])

def unterminated : List Char :=
  "unterminated placeholder: '".toList ++ opener ++ "' without a closing '".toList ++ closer ++
    "' (write '".toList ++ opener ++ opener ++ "' for a literal '".toList ++ opener ++ "')".toList

/-- The loop of `expand`, which turns at most once more than there are characters. -/
def Expander.expandFuel : Nat → Expander τ → List Char → Except (List Char) (List Char × Expander τ)
  | 0, _, _ => .error unterminated
  | fuel+1, e, s =>
    match splitOnce opener s with
    | none => .ok (s,e)
    | some (before,after) =>
      match opener.isPrefixOf? after with
      | some tail => (expandFuel fuel e tail).map fun r => (before ++ opener ++ r.1,r.2)
      | none =>
        match splitOnce closer after with
        | none => .error unterminated
        | some (token,rest) =>
          match e.resolve h token with
          | .error err => .error err
          | .ok (value,e) => (expandFuel fuel e rest).map fun r => (before ++ value ++ r.1,r.2)

def Expander.expand (e : Expander τ) (s : List Char) : Except (List Char) (List Char × Expander τ) :=
  expandFuel h (s.length+1) e s

/-- The text with every leftmost `{{` doubled. -/
def doubled : List Char → List Char
  | '{' :: '{' :: cs => opener ++ opener ++ doubled cs
  | c :: cs => c :: doubled cs
  | [] => []

/-- A text cut into literal text, escapes and placeholders. -/
inductive Split where
  | last (literal : List Char)
  | escape (literal : List Char) (rest : Split)
  | placeholder (literal token : List Char) (rest : Split)
  deriving DecidableEq

def Split.text : Split → List Char
  | last l => l
  | escape l rest => l ++ (opener ++ (opener ++ rest.text))
  | placeholder l token rest => l ++ (opener ++ (token ++ (closer ++ rest.text)))

/-- The values in order, where every placeholder is known. -/
def Split.value (e : Expander τ) : Split → Except (List Char) (List Char × Expander τ)
  | last l => .ok (l,e)
  | escape l rest => (rest.value e).map fun r => (l ++ opener ++ r.1,r.2)
  | placeholder l token rest =>
    match e.resolve h token with
    | .error err => .error err
    | .ok (v,e) => (rest.value e).map fun r => (l ++ v ++ r.1,r.2)

/-- No literal text holds a `{{`. -/
def Split.Plain : Split → Prop
  | last l => Apart '{' '{' l
  | escape l rest => Apart '{' '{' l ∧ rest.Plain
  | placeholder l _ rest => Apart '{' '{' l ∧ rest.Plain

/-- Every `{{` that opens something is the leftmost one, and every placeholder ends with
the first `}}` behind it. -/
def Split.Leftmost : Split → Prop
  | last l => Apart '{' '{' l
  | escape l rest => Apart '{' '{' (l ++ ['{']) ∧ rest.Leftmost
  | placeholder l token rest =>
      Apart '{' '{' (l ++ ['{']) ∧ ¬opener <+: token ∧ Apart '}' '}' (token ++ ['}']) ∧
        rest.Leftmost

theorem doubled_apart {s : List Char} (hs : Apart '{' '{' s) : doubled s = s := by
  fun_induction doubled s with
  | case1 => simp [Apart] at hs
  | case2 c cs _ ih => rw [ih (apart_cons.mp hs).2]
  | case3 => rfl

theorem doubled_append {l : List Char} (hl : Apart '{' '{' (l ++ ['{'])) (s : List Char) :
    doubled (l ++ opener ++ s) = l ++ (opener ++ (opener ++ doubled s)) := by
  induction l with
  | nil => rfl
  | cons c l ih =>
    have hne : ∀ cs, c = '{' → l ++ opener ++ s = '{' :: cs → False := by
      intro cs hc heq
      cases l <;> simp_all [opener,Apart]
    rw [cons_append,cons_append,doubled,ih (apart_cons.mp hl).2,cons_append]
    exact hne

section

variable {l token rest : List Char}

theorem splitOnce_opener (hl : Apart '{' '{' (l ++ ['{'])) (s : List Char) :
    splitOnce opener (l ++ (opener ++ s)) = some (l,s) := splitOnce_pair hl [] s

theorem splitOnce_closer (hc : Apart '}' '}' (token ++ ['}'])) :
    splitOnce closer (token ++ (closer ++ rest)) = some (token,rest) := splitOnce_pair hc [] rest

theorem not_opener (ho : ¬opener <+: token) : ¬opener <+: token ++ (closer ++ rest) := by
  rintro ⟨t,heq⟩
  match token with
  | [] | [c] => simp [opener,closer] at heq
  | c :: d :: token =>
    simp only [opener,cons_append,cons.injEq] at heq
    obtain ⟨rfl,rfl,-⟩ := heq
    exact ho ⟨token,rfl⟩

end

theorem expandFuel_text {sp : Split} (hsp : sp.Leftmost) {fuel : Nat} (hfuel : sp.text.length < fuel)
    (e : Expander τ) : Expander.expandFuel h fuel e sp.text = sp.value h e := by
  induction sp generalizing e fuel with
  | last l =>
    obtain ⟨fuel,rfl⟩ := Nat.exists_eq_succ_of_ne_zero (Nat.ne_zero_of_lt hfuel)
    have hs : splitOnce opener l = none := splitOnce_of_apart hsp []
    simp [Expander.expandFuel,Split.text,Split.value,hs]
  | escape l rest ih =>
    obtain ⟨fuel,rfl⟩ := Nat.exists_eq_succ_of_ne_zero (Nat.ne_zero_of_lt hfuel)
    have ht : opener.isPrefixOf? (opener ++ rest.text) = some rest.text :=
      isPrefixOf?_eq_some_iff_append_eq.mpr rfl
    have hlt : rest.text.length < fuel := by
      simp [Split.text,opener] at hfuel
      omega
    simp only [Expander.expandFuel,Split.text,Split.value,splitOnce_opener hsp.1,ht,ih hsp.2 hlt]
  | placeholder l token rest ih =>
    obtain ⟨fuel,rfl⟩ := Nat.exists_eq_succ_of_ne_zero (Nat.ne_zero_of_lt hfuel)
    have ht : opener.isPrefixOf? (token ++ (closer ++ rest.text)) = none := by
      rw [Option.eq_none_iff_forall_ne_some]
      exact fun t ht => not_opener hsp.2.1 ⟨t,isPrefixOf?_eq_some_iff_append_eq.mp ht⟩
    have hlt : rest.text.length < fuel := by
      simp [Split.text,opener] at hfuel
      omega
    simp only [Expander.expandFuel,Split.text,Split.value,splitOnce_opener hsp.1,ht,
      splitOnce_closer hsp.2.2.1,ih hsp.2.2.2 hlt]

theorem map_eq_ok {α β : Type} {f : α → β} {x : Except (List Char) α} {b : β}
    (hx : x.map f = .ok b) : ∃ a, x = .ok a := by
  cases x with
  | error err => cases hx
  | ok a => exact ⟨a,rfl⟩

theorem split_of_expandFuel {fuel : Nat} {e : Expander τ} {s : List Char}
    {r : List Char × Expander τ} (hx : Expander.expandFuel h fuel e s = .ok r) :
    ∃ sp : Split, sp.Leftmost ∧ sp.text = s := by
  induction fuel generalizing e s r with
  | zero => cases hx
  | succ fuel ih =>
    rw [Expander.expandFuel] at hx
    split at hx
    · rename_i hs
      exact ⟨.last s,apart_of_splitOnce hs,rfl⟩
    rename_i l after hs
    obtain ⟨rfl,hl⟩ := of_splitOnce_pair hs
    split at hx
    · rename_i tail ht
      obtain rfl := isPrefixOf?_eq_some_iff_append_eq.mp ht
      obtain ⟨r,hx⟩ := map_eq_ok hx
      obtain ⟨sp,hsp,rfl⟩ := ih hx
      exact ⟨.escape l sp,⟨hl,hsp⟩,rfl⟩
    · rename_i ht
      split at hx
      · cases hx
      rename_i token rest hc
      obtain ⟨rfl,hap⟩ := of_splitOnce_pair hc
      split at hx
      · cases hx
      obtain ⟨r,hx⟩ := map_eq_ok hx
      obtain ⟨sp,hsp,rfl⟩ := ih hx
      refine ⟨.placeholder l token sp,⟨hl,fun ho => ?_,hap,hsp⟩,rfl⟩
      obtain ⟨t,rfl⟩ := ho
      rw [append_assoc,isPrefixOf?_eq_some_iff_append_eq.mpr rfl] at ht
      cases ht

/-- What is doubled splits into literal text and escapes. -/
theorem split_doubled (s : List Char) : ∃ sp : Split, sp.Leftmost ∧ sp.text = doubled s ∧
    ∀ e, sp.value h e = .ok (s,e) := by
  induction hn : s.length using Nat.strong_induction_on generalizing s with
  | _ n ih =>
    cases hs : splitOnce opener s with
    | none =>
      have hap := apart_of_splitOnce hs
      exact ⟨.last s,hap,(doubled_apart hap).symm,fun _ => rfl⟩
    | some r =>
      obtain ⟨rfl,hap⟩ := of_splitOnce_pair hs
      obtain ⟨sp,hsp,htext,hvalue⟩ := ih r.2.length (by rw [← hn]; simp; omega) r.2 rfl
      refine ⟨.escape r.1 sp,⟨hap,hsp⟩,?_,fun e => ?_⟩
      · rw [Split.text,htext,← doubled_append hap]
        simp [opener]
      · rw [Split.value,hvalue e]
        simp [Except.map,opener]

theorem splitOnce_text {sp : Split} (hsp : sp.Leftmost) : splitOnce opener sp.text =
    match sp with
    | .last _ => none
    | .escape l rest => some (l,opener ++ rest.text)
    | .placeholder l token rest => some (l,token ++ (closer ++ rest.text)) := by
  cases sp with
  | last l => exact splitOnce_of_apart hsp []
  | escape l rest | placeholder l token rest => exact splitOnce_opener hsp.1 _

theorem leftmost_unique {sp sp' : Split} (hsp : sp.Leftmost) (hsp' : sp'.Leftmost)
    (ht : sp.text = sp'.text) : sp = sp' := by
  induction sp generalizing sp' with have hs := splitOnce_text hsp
  | last l =>
    rw [ht,splitOnce_text hsp'] at hs
    cases sp' <;> simp_all [Split.text]
  | escape l rest ih =>
    rw [ht,splitOnce_text hsp'] at hs
    cases sp' with
    | last l' => cases hs
    | escape l' rest' =>
      obtain ⟨rfl,hr⟩ := Prod.mk.inj (Option.some.inj hs)
      rw [ih hsp.2 hsp'.2 (append_cancel_left hr).symm]
    | placeholder l' token rest' =>
      exact absurd ⟨_,(Prod.mk.inj (Option.some.inj hs)).2.symm⟩ (not_opener hsp'.2.1)
  | placeholder l token rest ih =>
    rw [ht,splitOnce_text hsp'] at hs
    cases sp' with
    | last l' => cases hs
    | escape l' rest' =>
      exact absurd ⟨_,(Prod.mk.inj (Option.some.inj hs)).2⟩ (not_opener hsp.2.1)
    | placeholder l' token' rest' =>
      obtain ⟨rfl,hr⟩ := Prod.mk.inj (Option.some.inj hs)
      have hc := congrArg (splitOnce closer) hr
      rw [splitOnce_closer hsp.2.2.1,splitOnce_closer hsp'.2.2.1] at hc
      obtain ⟨rfl,hrest⟩ := Prod.mk.inj (Option.some.inj hc)
      rw [ih hsp.2.2.2 hsp'.2.2.2 hrest.symm]

/-- Doubling every `{{` is undone by expanding. A text that expands has exactly one split
with leftmost openers, and its values in order are the result. -/
theorem expand_lossless (e : Expander τ) : (∀ s, e.expand h (doubled s) = .ok (s,e)) ∧
      ∀ t r, e.expand h t = .ok r →
        ∃ sp : Split, (sp.Leftmost ∧ sp.text = t ∧ sp.value h e = .ok r) ∧
          ∀ sp' : Split, sp'.Leftmost → sp'.text = t → sp' = sp := by
  refine ⟨fun s => ?_,fun t r hx => ?_⟩
  · obtain ⟨sp,hsp,htext,hvalue⟩ := split_doubled h s
    rw [← htext,Expander.expand,expandFuel_text h hsp (Nat.lt_succ_self _),hvalue]
  · obtain ⟨sp,hsp,rfl⟩ := split_of_expandFuel h hx
    exact ⟨sp,⟨hsp,rfl,(expandFuel_text h hsp (Nat.lt_succ_self _) e).symm.trans hx⟩,
      fun sp' hsp' ht => leftmost_unique hsp' hsp ht⟩

def demoHost : Host Unit Unit where
  iso _ := []
  items _ := none
  write _ _ := none
  modified _ := .error []
  debug s := s

/-- Five braces: an escape and a brace, or a brace and an escape. -/
theorem five_braces_split_twice :
    let t := opener ++ opener ++ ['{']
    let sp : Split := .escape [] (.last ['{'])
    let sp' : Split := .escape ['{'] (.last [])
    Expander.expand demoHost ⟨(),[]⟩ t = .ok (opener ++ ['{'],⟨(),[]⟩) ∧ sp ≠ sp' ∧
      (sp.Plain ∧ sp.text = t ∧ sp.value demoHost ⟨(),[]⟩ = .ok (opener ++ ['{'],⟨(),[]⟩)) ∧
      (sp'.Plain ∧ sp'.text = t ∧ sp'.value demoHost ⟨(),[]⟩ = .ok (opener ++ ['{'],⟨(),[]⟩)) := by
  refine ⟨rfl,by decide,?_,?_⟩
  · exact ⟨⟨.nil,.singleton _⟩,rfl,rfl⟩
  · exact ⟨⟨.singleton _,.nil⟩,rfl,rfl⟩

end Synaps.Placeholders
