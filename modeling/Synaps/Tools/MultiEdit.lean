import Synaps.Lib.Outcome
import Synaps.Lib.Utf8
import Synaps.Tools.Commit
import Mathlib.Data.List.Nodup
import Mathlib.Algebra.GroupWithZero.Nat

/-!
A multi-file edit: every edit is applied to in-memory copies first, then the changed files
are committed.
-/

set_option autoImplicit false

namespace Synaps.MultiEdit

open Disk Outcome List

def maxFiles : Nat := 16

def maxFileBytes : Nat := 16 * 1024 * 1024

def maxTextBytes : Nat := 1024 * 1024

def maxTotalBytes : Nat := 64 * 1024 * 1024

inductive Op where
  | replace
  | insertBefore
  | insertAfter
  | append
  | appendJsonl
  deriving DecidableEq, Repr

def Op.asStr : Op → String
  | .replace => "replace"
  | .insertBefore => "insert_before"
  | .insertAfter => "insert_after"
  | .append => "append"
  | .appendJsonl => "append_jsonl"

variable {D N E : Type} [DecidableEq D] [DecidableEq N]

/-- One edit: its path and operation, whether it may create the file, and in `more` what
only the expansion and the text change read. -/
structure EditSpec (E : Type) where
  path : String
  op : Op
  create : Bool
  more : E

structure Env (D N E : Type) where
  resolveTarget : String → Except String (String × (D × N))
  scopeRefuses : String → Bool
  openParent : D × N → Except String Unit
  openFault : D × N → Option String
  nlink : Files (D × N) → D × N → Nat
  isCrlf : String → Bool
  expand : Nat → EditSpec E → Except String (Option String × String)
  apply : String → EditSpec E → String → Option String → Bool → Except String String

structure FileEntry (D N : Type) where
  display : String
  path : D × N
  original : Option String
  identity : Option Nat
  mode : Option Nat
  content : String
  crlf : Bool

def textBytes (s : String) : List UInt8 := Utf8.encode s.toList

def loadExisting (env : Env D N E) (d : Files (D × N)) (path : D × N) (budget : Nat) :
    Except String (String × Node) :=
  match env.openFault path with
  | some why => .error ("cannot open: " ++ why)
  | none =>
      match d path with
      | none => .error "cannot open: No such file or directory"
      | some n =>
          if n.kind = .symlink then .error "was replaced by a symlink since it was resolved"
          else if n.kind ≠ .file then .error "not a regular file"
          else if 1 < env.nlink d path then
            .error ("has " ++ toString (env.nlink d path) ++
              " hard links; replacing it would split them")
          else if maxFileBytes < n.bytes.length then
            .error ("larger than " ++ toString maxFileBytes ++ " bytes")
          else if budget < n.bytes.length then
            .error ("the files this call reads would exceed " ++ toString maxTotalBytes ++ " bytes")
          else
            match Utf8.decode n.bytes with
            | some cs => .ok (String.ofList cs,n)
            | none => .error "not UTF-8 text"

def mayCreate (spec : EditSpec E) : Bool :=
  (spec.op = .append || spec.op = .appendJsonl) && spec.create

def openEntry (env : Env D N E) (d : Files (D × N)) (spec : EditSpec E) (target : D × N)
    (files : List (FileEntry D N)) (readBytes : Nat) :
    Except String (List (FileEntry D N) × Nat) :=
  if files.any (fun f => f.path = target) then .ok (files,readBytes)
  else if files.length = maxFiles then
    .error ("more than " ++ toString maxFiles ++ " files in one call")
  else
    match env.openParent target with
    | .error e => .error e
    | .ok _ =>
        if (d target).isSome then
          match loadExisting env d target (maxTotalBytes - readBytes) with
          | .error e => .error e
          | .ok (content,n) =>
              .ok (files ++ [⟨spec.path,target,some content,some n.ino,some n.mode,content,
                env.isCrlf content⟩],readBytes + (textBytes content).length)
        else if mayCreate spec then
          .ok (files ++ [⟨spec.path,target,none,none,none,"",false⟩],readBytes)
        else
          .error ("file does not exist (only append/append_jsonl with create: true " ++
            "may create one)")

def editText (env : Env D N E) (i : Nat) (spec : EditSpec E) (crlf : Bool) (content : String) :
    Except String String := do
  let (guard,text) ← env.expand i spec
  if maxTextBytes < (textBytes text).length then
    .error ("expanded text exceeds " ++ toString maxTextBytes ++ " bytes")
  else do
    let content ← env.apply content spec text guard crlf
    if maxFileBytes < (textBytes content).length then
      .error ("the file would exceed " ++ toString maxFileBytes ++ " bytes")
    else .ok content

def applyEntry (env : Env D N E) (i : Nat) (spec : EditSpec E) (target : D × N) :
    List (FileEntry D N) → Except String (List (FileEntry D N))
  | [] => .ok []
  | f :: rest =>
      if f.path = target then do
        let content ← editText env i spec f.crlf f.content
        return { f with content := content } :: rest
      else do
        let rest ← applyEntry env i spec target rest
        return f :: rest

def planEdit (os : System D N) (env : Env D N E) (d : Files (D × N))
    (state : List (FileEntry D N) × Nat) (edit : EditSpec E × Nat) :
    Except String (List (FileEntry D N) × Nat) :=
  let spec := edit.1
  let planned : Except String (List (FileEntry D N) × Nat) := do
    let (resolved,target) ← env.resolveTarget spec.path
    match [spec.path,resolved,os.pathText target].find? env.scopeRefuses with
    | some candidate => .error (candidate ++ " overlaps an active worker's write scope")
    | none => do
        let opened ← openEntry env d spec target state.1 state.2
        let files ← applyEntry env edit.2 spec target opened.1
        return (files,opened.2)
  planned.mapError (fun e => "edits[" ++ toString edit.2 ++ "] (" ++ spec.path ++ ", " ++
    spec.op.asStr ++ "): " ++ e ++ "; no file was changed")

def FileEntry.pending (f : FileEntry D N) : Pending D N where
  display := f.display
  dir := f.path.1
  name := f.path.2
  original := f.original.map textBytes
  identity := f.identity
  mode := f.mode
  new := textBytes f.content

def plan (os : System D N) (env : Env D N E) (d : Files (D × N)) (edits : List (EditSpec E)) :
    Except String (List (FileEntry D N)) := do
  let (files,_) ← edits.zipIdx.foldlM (planEdit os env d) ([],0)
  let total := (files.map (fun f => (textBytes f.content).length)).sum
  if maxTotalBytes < total then
    .error ("the call would write " ++ toString total ++ " bytes; at most " ++
      toString maxTotalBytes ++ "; no file was changed")
  else .ok files

def pendings (files : List (FileEntry D N)) : List (Pending D N) :=
  (files.filter (fun f => f.original ≠ some f.content)).map FileEntry.pending

inductive RunError where
  | plan (e : String)
  | commit (e : CommitError)
  deriving DecidableEq

/-- The call on the files `d`; it returns the notes of the commit. -/
def run (os : System D N) (env : Env D N E) (edits : List (EditSpec E)) (d : Files (D × N)) :
    Except RunError (List String) × World (D × N) :=
  let start : World (D × N) := ⟨d,0,[]⟩
  match plan os env d edits with
  | .error e => (.error (.plan e),start)
  | .ok files =>
      if pendings files = [] then (.ok [],start)
      else
        match commit os (pendings files) start with
        | (.ok notes,w) => (.ok notes,w)
        | (.error e,w) => (.error (.commit e),w)

def startText (d : Files (D × N)) (target : D × N) : String :=
  match d target with
  | some n => (Utf8.decode n.bytes).elim "" String.ofList
  | none => ""

def startCrlf (env : Env D N E) (d : Files (D × N)) (target : D × N) : Bool :=
  (d target).isSome && env.isCrlf (startText d target)

def isFor (env : Env D N E) (target : D × N) (edit : EditSpec E × Nat) : Bool :=
  match env.resolveTarget edit.1.path with
  | .ok (_,t) => t = target
  | .error _ => false

def applied (env : Env D N E) (target : D × N) (crlf : Bool) (edits : List (EditSpec E × Nat))
    (text : String) : Except String String :=
  (edits.filter (isFor env target)).foldlM (fun c e => editText env e.2 e.1 crlf c) text

structure EntryOk (env : Env D N E) (d : Files (D × N)) (seen : List (EditSpec E × Nat))
    (f : FileEntry D N) : Prop where
  planned : Planned d f.pending
  crlf : f.crlf = startCrlf env d f.path
  content : applied env f.path f.crlf seen (startText d f.path) = .ok f.content

structure PlanOk (env : Env D N E) (d : Files (D × N)) (seen : List (EditSpec E × Nat))
    (files : List (FileEntry D N)) : Prop where
  nodup : (files.map FileEntry.path).Nodup
  entry : ∀ f ∈ files, EntryOk env d seen f
  all : ∀ e ∈ seen, ∀ r t, env.resolveTarget e.1.path = .ok (r,t) → ∃ f ∈ files, f.path = t

section Planning

variable {os : System D N} {env : Env D N E} {d : Files (D × N)}
  {seen : List (EditSpec E × Nat)} {files files' : List (FileEntry D N)} {target : D × N}

omit [DecidableEq D] [DecidableEq N] in
theorem loadExisting_ok {budget : Nat} {text : String} {n : Node}
    (h : loadExisting env d target budget = .ok (text,n)) :
    d target = some n ∧ n.kind = .file ∧ Utf8.decode n.bytes = some text.toList := by
  unfold loadExisting at h
  split at h
  · simp at h
  split at h
  · simp at h
  rename_i k hk
  split at h
  · simp at h
  split at h
  · simp at h
  rename_i hkind
  split at h
  · simp at h
  · split at h
    · simp at h
    · split at h
      · simp at h
      · split at h
        · rename_i cs hcs
          cases h
          exact ⟨hk,by simpa using hkind,by simpa using hcs⟩
        · simp at h

theorem applied_nil_of_unseen (h : PlanOk env d seen files)
    (hnot : ¬files.any (fun f => f.path = target) = true) (crlf : Bool) (text : String) :
    applied env target crlf seen text = .ok text := by
  have hnil : seen.filter (isFor env target) = [] := by
    refine filter_eq_nil_iff.mpr (fun e he hfor => hnot ?_)
    unfold isFor at hfor
    split at hfor
    · rename_i r t hr
      obtain ⟨f,hf,hp⟩ := h.all e he r t hr
      exact any_eq_true.mpr ⟨f,hf,by simpa [hp] using hfor⟩
    · simp at hfor
  simp only [applied,hnil]
  rfl

theorem openEntry_ok {spec : EditSpec E} {rb rb' : Nat} (h : PlanOk env d seen files)
    (ho : openEntry env d spec target files rb = .ok (files',rb')) :
    PlanOk env d seen files' ∧ ∃ f ∈ files', f.path = target := by
  unfold openEntry at ho
  split at ho
  · rename_i hany
    cases ho
    obtain ⟨f,hf,hp⟩ := any_eq_true.mp hany
    exact ⟨h,f,hf,by simpa using hp⟩
  · rename_i hany
    have hadd {f : FileEntry D N} (hp : f.path = target) (hf : EntryOk env d seen f) :
        PlanOk env d seen (files ++ [f]) ∧ ∃ g ∈ files ++ [f], g.path = target := by
      refine ⟨⟨?_,?_,?_⟩,f,by simp,hp⟩
      · rw [map_append,nodup_append]
        refine ⟨h.nodup,by simp,fun a ha b hb he => hany ?_⟩
        obtain ⟨g,hg,rfl⟩ := mem_map.mp ha
        simp only [map_cons,map_nil,mem_singleton] at hb
        exact any_eq_true.mpr ⟨g,hg,by simp [he,hb,hp]⟩
      · exact forall_mem_append.mpr ⟨h.entry,forall_mem_singleton.mpr hf⟩
      · intro e he r t hr
        obtain ⟨g,hg,hgp⟩ := h.all e he r t hr
        exact ⟨g,by simp [hg],hgp⟩
    split at ho
    · simp at ho
    · split at ho
      · simp at ho
      · split at ho
        · split at ho
          · simp at ho
          rename_i text n hl
          cases ho
          obtain ⟨hd,hk,hdec⟩ := loadExisting_ok hl
          have htext : startText d target = text := by simp [startText,hd,hdec]
          refine hadd rfl ⟨?_,?_,?_⟩
          · exact ⟨n,hd,hk,(Utf8.encode_of_decode hdec).symm,rfl⟩
          · simp [startCrlf,hd,htext]
          · rw [htext]
            exact applied_nil_of_unseen h hany _ _
        · rename_i hnone
          have hd : d target = none := by simpa using hnone
          split at ho
          · cases ho
            have htext : startText d target = "" := by simp [startText,hd]
            refine hadd rfl ⟨hd,by simp [startCrlf,hd],?_⟩
            rw [htext]
            exact applied_nil_of_unseen h hany _ _
          · simp at ho

theorem applied_concat (e : EditSpec E × Nat) (crlf : Bool) (text : String) :
    applied env target crlf (seen ++ [e]) text =
      if isFor env target e then applied env target crlf seen text >>= editText env e.2 e.1 crlf
      else applied env target crlf seen text := by
  unfold applied
  by_cases he : isFor env target e = true
  · rw [if_pos he,filter_append,foldlM_append,filter_singleton,he]
    simp
  · simp [filter_append,he]

variable {e : EditSpec E × Nat}

theorem EntryOk.update {f : FileEntry D N} {c : String} (h : EntryOk env d seen f)
    (hf : isFor env f.path e = true) (hc : editText env e.2 e.1 f.crlf f.content = .ok c) :
    EntryOk env d (seen ++ [e]) { f with content := c } where
  planned := h.planned
  crlf := h.crlf
  content := by
    rw [applied_concat,if_pos hf,h.content]
    exact hc

theorem EntryOk.skip {f : FileEntry D N} (h : EntryOk env d seen f)
    (hf : ¬isFor env f.path e = true) :
    EntryOk env d (seen ++ [e]) f where
  planned := h.planned
  crlf := h.crlf
  content := by
    rw [applied_concat,if_neg hf]
    exact h.content

theorem applyEntry_ok (hfor : ∀ p, isFor env p e = true ↔ p = target)
    (hnd : (files.map FileEntry.path).Nodup) (h : ∀ f ∈ files, EntryOk env d seen f)
    (ha : applyEntry env e.2 e.1 target files = .ok files') :
    files'.map FileEntry.path = files.map FileEntry.path ∧
      ∀ f ∈ files', EntryOk env d (seen ++ [e]) f := by
  induction files generalizing files' with
  | nil =>
    cases ha
    simp
  | cons f files ih =>
    rw [map_cons,nodup_cons] at hnd
    unfold applyEntry at ha
    split at ha
    · rename_i hp
      obtain ⟨c,hc,hr⟩ := bind_ok ha
      cases hr
      refine ⟨rfl,fun g hg => ?_⟩
      rcases mem_cons.mp hg with rfl | hg
      · exact (h f (by simp)).update ((hfor f.path).mpr hp) hc
      · refine (h g (by simp [hg])).skip (fun hg' => hnd.1 ?_)
        rw [hp,← (hfor g.path).mp hg']
        exact mem_map_of_mem hg
    · rename_i hp
      obtain ⟨rest,hrest,hr⟩ := bind_ok ha
      cases hr
      obtain ⟨hpaths,hall⟩ := ih hnd.2 (fun g hg => h g (by simp [hg])) hrest
      refine ⟨by rw [map_cons,map_cons,hpaths],fun g hg => ?_⟩
      rcases mem_cons.mp hg with rfl | hg
      · exact (h g (by simp)).skip (fun hg' => hp ((hfor g.path).mp hg'))
      · exact hall g hg

theorem planEdit_ok {rb rb' : Nat} (h : PlanOk env d seen files)
    (hp : planEdit os env d (files,rb) e = .ok (files',rb')) :
    PlanOk env d (seen ++ [e]) files' := by
  unfold planEdit at hp
  cases hx : (do
      let (resolved,target) ← env.resolveTarget e.1.path
      match [e.1.path,resolved,os.pathText target].find? env.scopeRefuses with
      | some candidate => .error (candidate ++ " overlaps an active worker's write scope")
      | none => do
          let opened ← openEntry env d e.1 target files rb
          let files ← applyEntry env e.2 e.1 target opened.1
          return (files,opened.2) : Except String (List (FileEntry D N) × Nat)) with
  | error msg =>
    simp only [hx,Except.mapError] at hp
    simp at hp
  | ok out =>
    simp only [hx,Except.mapError] at hp
    obtain rfl := Except.ok.inj hp
    obtain ⟨⟨r,target⟩,hres,hx⟩ := bind_ok hx
    simp only at hx
    split at hx
    · simp at hx
    obtain ⟨⟨opened,rb₁⟩,ho,hx⟩ := bind_ok hx
    obtain ⟨fs,ha,hr⟩ := bind_ok hx
    obtain ⟨rfl,rfl⟩ := Prod.mk.inj (Except.ok.inj hr)
    obtain ⟨hopen,f,hf,hpath⟩ := openEntry_ok h ho
    have hfor : ∀ p, isFor env p e = true ↔ p = target := by
      intro p
      simp [isFor,hres,eq_comm]
    obtain ⟨hpaths,hall⟩ := applyEntry_ok hfor hopen.nodup hopen.entry ha
    have hmem {q : D × N} (hq : ∃ g ∈ opened, g.path = q) : ∃ g ∈ fs, g.path = q := by
      obtain ⟨g,hg,rfl⟩ := hq
      have hin : g.path ∈ fs.map FileEntry.path := hpaths ▸ mem_map_of_mem hg
      obtain ⟨k,hk,hkp⟩ := mem_map.mp hin
      exact ⟨k,hk,hkp⟩
    refine ⟨hpaths ▸ hopen.nodup,hall,fun e' he' r' t' hr' => hmem ?_⟩
    rcases mem_append.mp he' with he' | he'
    · exact hopen.all e' he' r' t' hr'
    · rw [mem_singleton.mp he',hres] at hr'
      obtain ⟨-,rfl⟩ := Prod.mk.inj (Except.ok.inj hr')
      exact ⟨f,hf,hpath⟩

theorem planEdits_ok {edits : List (EditSpec E × Nat)} {rb : Nat}
    {out : List (FileEntry D N) × Nat} (h : PlanOk env d seen files)
    (hp : edits.foldlM (planEdit os env d) (files,rb) = .ok out) :
    PlanOk env d (seen ++ edits) out.1 := by
  induction edits generalizing seen files rb with
  | nil =>
    cases hp
    simpa using h
  | cons e edits ih =>
    rw [foldlM_cons] at hp
    obtain ⟨⟨fs,rb₁⟩,he,hp⟩ := bind_ok hp
    have hrest := ih (planEdit_ok h he) hp
    simpa using hrest

theorem plan_ok {edits : List (EditSpec E)} (hp : plan os env d edits = .ok files) :
    PlanOk env d edits.zipIdx files := by
  unfold plan at hp
  obtain ⟨⟨fs,rb⟩,hf,hp⟩ := bind_ok hp
  simp only at hp
  split at hp
  · simp at hp
  · cases hp
    have hstart : PlanOk env d [] ([] : List (FileEntry D N)) := ⟨by simp,by simp,by simp⟩
    simpa using planEdits_ok hstart hf

omit [DecidableEq D] [DecidableEq N] in
theorem mem_pendings {p : Pending D N} (h : p ∈ pendings files) :
    ∃ f ∈ files, f.original ≠ some f.content ∧ p = f.pending := by
  obtain ⟨f,hf,rfl⟩ := mem_map.mp h
  rw [mem_filter] at hf
  exact ⟨f,hf.1,by simpa using hf.2,rfl⟩

theorem pendings_spec {edits : List (EditSpec E × Nat)} (h : PlanOk env d edits files) :
    (∀ p ∈ pendings files, Planned d p) ∧ ((pendings files).map Pending.target).Nodup := by
  constructor
  · intro p hp
    obtain ⟨f,hf,-,rfl⟩ := mem_pendings hp
    exact (h.entry f hf).planned
  · unfold pendings
    rw [map_map]
    exact (filter_sublist.map FileEntry.path).nodup h.nodup

end Planning

section Calls

variable (os : System D N) (env : Env D N E) (edits : List (EditSpec E)) (d : Files (D × N))

variable {w : World (D × N)}

/-- The target of an edit holds the text its edits make, whether it was written or was
left because nothing changed in it. -/
theorem target_written {files : List (FileEntry D N)} (h : PlanOk env d edits.zipIdx files)
    (hlog : Logged os (pendings files) d w)
    (hnew : ∀ p ∈ pendings files, ∃ i m, w.files p.target = some ⟨i,.file,p.new,m⟩)
    (hrest : ∀ q, (∀ p ∈ pendings files, q ≠ p.target) → q ∈ w.unremoved ∨ w.files q = d q)
    {f : FileEntry D N} (hf : f ∈ files) :
    (w.files f.path).map Node.bytes = some (textBytes f.content) := by
  by_cases hc : f.original = some f.content
  · have hplan := (h.entry f hf).planned
    simp only [Planned,FileEntry.pending,hc,Option.map_some] at hplan
    obtain ⟨n,hn,-,hb,-⟩ := hplan
    change d f.path = some n at hn
    have hq : ∀ p ∈ pendings files, f.path ≠ p.target := by
      intro p hp he
      obtain ⟨g,hg,hgc,rfl⟩ := mem_pendings hp
      obtain rfl := inj_on_of_nodup_map h.nodup hf hg he
      exact hgc hc
    rcases hrest f.path hq with hu | he
    · rw [(hlog _ hu).1] at hn
      simp at hn
    · rw [he,hn,Option.map_some,hb]
  · have hp : f.pending ∈ pendings files :=
      mem_map_of_mem (mem_filter.mpr ⟨hf,by simpa using hc⟩)
    obtain ⟨i,m,hw⟩ := hnew _ hp
    change w.files f.path = _ at hw
    rw [hw]
    rfl

theorem run_ok {notes : List String} (h : run os env edits d = (.ok notes,w)) {e : EditSpec E}
    (he : e ∈ edits) {r : String} {t : D × N} (hr : env.resolveTarget e.path = .ok (r,t)) :
    ∃ text, applied env t (startCrlf env d t) edits.zipIdx (startText d t) = .ok text ∧
      (w.files t).map Node.bytes = some (textBytes text) := by
  simp only [run] at h
  split at h
  · simp at h
  rename_i files hp
  have hplan := plan_ok hp
  obtain ⟨hplanned,hnd⟩ := pendings_spec hplan
  obtain ⟨i,hi⟩ := mem_iff_getElem?.mp he
  have hmem : (e,i) ∈ edits.zipIdx := mk_mem_zipIdx_iff_getElem?.mpr hi
  obtain ⟨f,hf,rfl⟩ := hplan.all _ hmem r t hr
  have hentry := hplan.entry f hf
  refine ⟨f.content,hentry.crlf ▸ hentry.content,?_⟩
  split at h
  · rename_i hnil
    cases h
    refine target_written os env edits d hplan ?_ ?_ (fun q _ => .inr rfl) hf
    · simp [Logged]
    · simp [hnil]
  · split at h
    · rename_i hc
      cases h
      obtain ⟨hlog,hnew,hrest⟩ := (commit_spec rfl hplanned hnd hc).1 _ rfl
      exact target_written os env edits d hplan hlog hnew hrest hf
    · simp at h

theorem run_error {e : CommitError} (h : run os env edits d = (.error (.commit e),w))
    (hf : e.restoreFailed = []) :
    (∀ q, q ∉ w.unremoved → look w.files q = look d q) ∧
      ∀ q ∈ w.unremoved, d q = none ∧ ∃ t name, q.2 = os.tempName t name := by
  simp only [run] at h
  split at h
  · simp at h
  rename_i files hp
  obtain ⟨hplanned,hnd⟩ := pendings_spec (plan_ok hp)
  split at h
  · simp at h
  split at h
  · simp at h
  rename_i e' w' hc
  obtain ⟨he,rfl⟩ := Prod.mk.inj h
  obtain rfl := RunError.commit.inj (Except.error.inj he)
  obtain ⟨hlog,hlook⟩ := (commit_spec rfl hplanned hnd hc).2 _ rfl hf
  refine ⟨fun q hq => (hlook q).resolve_left hq,fun q hq => ?_⟩
  obtain ⟨hd,t,p,-,rfl⟩ := hlog q hq
  exact ⟨hd,t,p.name,rfl⟩

theorem run_plan {e : String} (h : run os env edits d = (.error (.plan e),w)) : w.files = d := by
  simp only [run] at h
  split at h
  · cases h
    rfl
  · split at h
    · simp at h
    · split at h <;> simp at h

/-- All or nothing. A planning error touches no file. After a commit error with every
restore done, every target looks as before (one that was absent may be the name of a temp)
and nothing is left but temps that could not be removed. After success every target holds its
text with its edits applied in order. -/
theorem run_atomic :
    (∀ e, (run os env edits d).1 = .error (.plan e) → (run os env edits d).2.files = d) ∧
    (∀ e, (run os env edits d).1 = .error (.commit e) → e.restoreFailed = [] →
      (∀ spec ∈ edits, ∀ r t, env.resolveTarget spec.path = .ok (r,t) →
        (d t ≠ none → look (run os env edits d).2.files t = look d t) ∧
        (d t = none → (run os env edits d).2.files t = none ∨
          t ∈ (run os env edits d).2.unremoved ∧ ∃ k name, t.2 = os.tempName k name)) ∧
      (∀ q, q ∉ (run os env edits d).2.unremoved →
        look (run os env edits d).2.files q = look d q)) ∧
    (∀ notes, (run os env edits d).1 = .ok notes → ∀ spec ∈ edits, ∀ r t,
      env.resolveTarget spec.path = .ok (r,t) →
      ∃ text, applied env t (startCrlf env d t) edits.zipIdx (startText d t) = .ok text ∧
        ((run os env edits d).2.files t).map Node.bytes = some (textBytes text)) := by
  cases hrun : run os env edits d with
  | mk result w =>
    refine ⟨?_,?_,?_⟩
    · rintro e rfl
      exact run_plan os env edits d hrun
    · rintro e rfl hf
      obtain ⟨hlook,hlog⟩ := run_error os env edits d hrun hf
      refine ⟨fun spec _ r t _ => ⟨fun hd => hlook t (fun hu => hd (hlog t hu).1),
        fun hd => ?_⟩,hlook⟩
      by_cases ht : t ∈ w.unremoved
      · exact .inr ⟨ht,(hlog t ht).2⟩
      · have hl := hlook t ht
        exact .inl (by simpa [look,hd] using hl)
    · rintro notes rfl spec hs r t hr
      exact run_ok os env edits d hrun hs hr

end Calls

/-- A system that fails the call of this number. -/
def demoSystem (failing : Nat) : System Unit String where
  fails n := if n = failing then some (.other,"Input/output error") else none
  written _ := 0
  alloc := Files.next
  alloc_fresh d p n h := Nat.ne_of_lt (d.below p n h)
  umask := 0o022
  tempName n name := name ++ ".1." ++ toString n ++ ".0.agent-tmp"
  stillThere _ _ := true
  errorText
    | .fault _ text => text
    | .notFound => "No such file or directory"
    | .alreadyExists => "File exists"
    | .isDirectory => "Is a directory"
  pathText p := "/work/" ++ p.2

def demoEnv : Env Unit String String where
  resolveTarget path := .ok ("/work/" ++ path,((),path))
  scopeRefuses _ := false
  openParent _ := .ok ()
  openFault _ := none
  nlink _ _ := 1
  isCrlf _ := false
  expand _ spec := .ok (none,spec.more)
  apply content _ text _ _ := .ok (content ++ text)

def demoFiles : Files (Unit × String) where
  node p := if p.2 = "a" then some ⟨7,.file,textBytes "old",0o640⟩ else none
  next := 8
  below p n h := by
    split at h
    · cases h
      decide
    · cases h

def demoEdits : List (EditSpec String) := [⟨"a",.append,false," new"⟩,⟨"b",.append,true,"text"⟩]

/-- The second file cannot be published, and the first is put back. -/
theorem run_atomic_rollback :
    let r := run (demoSystem 14) demoEnv demoEdits demoFiles
    (∃ e, r.1 = .error (.commit e) ∧ e.text (demoSystem 14) =
      "writing b failed: Input/output error. Committed then restored: a. " ++
        "Restore FAILED: none. Never written: b.") ∧
      look r.2.files ((),"a") = look demoFiles ((),"a") ∧ r.2.files ((),"b") = none := by
  intro r
  have hr : r.1 = .error (.commit
      (.writing "b" (.fault .other "Input/output error") ["a"] [] ["b"] "")) := by decide +kernel
  obtain ⟨htargets,-⟩ := (run_atomic (demoSystem 14) demoEnv demoEdits demoFiles).2.1 _ hr rfl
  refine ⟨⟨_,hr,by decide⟩,?_,?_⟩
  · exact (htargets ⟨"a",.append,false," new"⟩ (by simp [demoEdits]) _ _ rfl).1
      (by simp [demoFiles])
  · have hb := (htargets ⟨"b",.append,true,"text"⟩ (by simp [demoEdits]) _ _ rfl).2 rfl
    exact hb.resolve_right fun hu => absurd hu.1 (by decide +kernel)

end Synaps.MultiEdit
