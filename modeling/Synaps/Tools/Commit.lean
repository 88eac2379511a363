import Synaps.Lib.Disk

/-!
The staged commit of a multi-file edit. Every new content is written to a temp file next
to its target, everything is checked again, then the temps are published one by one; if
one of them fails, the files published before it are put back.
-/

set_option autoImplicit false

namespace Synaps.MultiEdit

open Disk

variable {D N : Type} [DecidableEq D] [DecidableEq N]

/-- The system with what a commit asks of it beyond the disk: temp names, whether a
parent path still leads to its directory, and the texts of its messages. -/
structure System (D N : Type) extends Os (D × N) where
  tempName : Nat → N → N
  stillThere : Nat → D → Bool
  errorText : IoError → String
  pathText : D × N → String

structure Pending (D N : Type) where
  display : String
  dir : D
  name : N
  original : Option (List UInt8)
  identity : Option Nat
  mode : Option Nat
  new : List UInt8

structure Staged (N : Type) where
  name : N
  identity : Nat

def Pending.target (p : Pending D N) : D × N := (p.dir,p.name)

def Pending.temp (p : Pending D N) (s : Staged N) : D × N := (p.dir,s.name)

def keep (p : D × N) (w : World (D × N)) : World (D × N) :=
  { w with unremoved := p :: w.unremoved }

def forget (p : D × N) (w : World (D × N)) : World (D × N) :=
  { w with unremoved := w.unremoved.filter (· ≠ p) }

def removeIfOurs (os : System D N) (path : D × N) (identity : Nat) (w : World (D × N)) :
    Except String Unit × World (D × N) :=
  match call os.toOs (lstat path) w with
  | (.ok (kind,ino),w) =>
      if kind = .file ∧ ino = identity then
        match call os.toOs (unlink path) w with
        | (.ok _,w) => (.ok (),forget path w)
        | (.error e,w) => (.error (os.errorText e),keep path w)
      else (.error "another file has taken its name; left as is",keep path w)
  | (.error .notFound,w) => (.ok (),forget path w)
  | (.error e,w) => (.error (os.errorText e),keep path w)

def fill (os : System D N) (ino : Nat) (bytes : List UInt8) (mode : Option Nat)
    (w : World (D × N)) : Except IoError Nat × World (D × N) :=
  match writeAll os.toOs ino bytes w with
  | (.error e,w) => (.error e,w)
  | (.ok _,w) =>
      match mode with
      | none => call os.toOs (fstat ino) w
      | some mode =>
          match call os.toOs (setMode ino mode) w with
          | (.error e,w) => (.error e,w)
          | (.ok _,w) => call os.toOs (fstat ino) w

/-- A file that could not be written is removed again, unless its identity is not known. -/
def writeNew (os : System D N) (path : D × N) (bytes : List UInt8) (mode : Option Nat)
    (w : World (D × N)) : Except IoError (Staged N) × World (D × N) :=
  match call os.toOs (createNew os.toOs path (if mode.isSome then 0o600 else 0o666)) w with
  | (.error e,w) => (.error e,w)
  | (.ok ino,w) =>
      let created := call os.toOs (fstat ino) w
      match fill os ino bytes mode created.2 with
      | (.ok identity,w) => (.ok ⟨path.2,identity⟩,w)
      | (.error e,w) =>
          match created.1 with
          | .ok identity => (.error e,(removeIfOurs os path identity w).2)
          | .error _ => (.error e,keep path w)

def stage (os : System D N) (p : Pending D N) (bytes : List UInt8) (w : World (D × N)) :
    Except IoError (Staged N) × World (D × N) :=
  writeNew os (p.dir,os.tempName w.calls p.name) bytes p.mode w

inductive OpenError where
  | notRegular
  | symlink
  | io (e : IoError)

def OpenError.text (os : System D N) : OpenError → String
  | .notRegular => "not a regular file"
  | .symlink => "it is a symlink now"
  | .io e => os.errorText e

def readTarget (os : System D N) (p : Pending D N) (cap : Nat) (w : World (D × N)) :
    Except OpenError (List UInt8 × Nat) × World (D × N) :=
  match call os.toOs (openAt p.target) w with
  | (.error e,w) => (.error (.io e),w)
  | (.ok n,w) =>
      match n.kind with
      | .file => (.ok (n.bytes.take cap,n.ino),w)
      | .symlink => (.error .symlink,w)
      | .dir | .other => (.error .notRegular,w)

def targetUnchanged (os : System D N) (p : Pending D N) (w : World (D × N)) :
    Except String Unit × World (D × N) :=
  match p.original with
  | none =>
      match call os.toOs (lstat p.target) w with
      | (.error .notFound,w) => (.ok (),w)
      | (_,w) => (.error (p.display ++ " was created by something else during the call"),w)
  | some original =>
      match readTarget os p (original.length + 1) w with
      | (.error .notRegular,w) | (.error .symlink,w) =>
          (.error (p.display ++ " was replaced since it was read"),w)
      | (.error (.io e),w) =>
          (.error (p.display ++ " can no longer be read: " ++ os.errorText e),w)
      | (.ok (now,identity),w) =>
          if some identity ≠ p.identity then
            (.error (p.display ++ " was replaced since it was read"),w)
          else if now ≠ original then (.error (p.display ++ " changed since it was read"),w)
          else (.ok (),w)

def unchanged (os : System D N) (p : Pending D N) (s : Staged N) (w : World (D × N)) :
    Except String Unit × World (D × N) :=
  if !os.stillThere w.calls p.dir then
    (.error ("the parent directory of " ++ p.display ++ " was replaced"),w)
  else
    match call os.toOs (lstat (p.temp s)) w with
    | (.error _,w) => (.error ("the staged temp of " ++ p.display ++ " was replaced"),w)
    | (.ok (kind,ino),w) =>
        if ¬(kind = .file ∧ ino = s.identity) then
          (.error ("the staged temp of " ++ p.display ++ " was replaced"),w)
        else targetUnchanged os p w

def renameUnsupported : IoError → Bool
  | .fault .unsupported _ | .fault .invalid _ | .fault .noSyscall _ | .fault .notSupported _ => true
  | _ => false

def linkUnsupported : IoError → Bool
  | .fault .unsupported _ | .fault .notPermitted _ | .fault .noSyscall _
  | .fault .notSupported _ => true
  | _ => false

/-- A new file is published by an exclusive rename or else by a hard link; a temp name
that stays behind the link is told in a note. -/
def create (os : System D N) (s : Staged N) (p : Pending D N) (w : World (D × N)) :
    Except IoError (Option String) × World (D × N) :=
  match call os.toOs (renameNoReplace (p.temp s) p.target) w with
  | (.ok _,w) => (.ok none,w)
  | (.error e,w) =>
      if !renameUnsupported e then (.error e,w)
      else
        match call os.toOs (link (p.temp s) p.target) w with
        | (.ok _,w) =>
            match removeIfOurs os (p.temp s) s.identity w with
            | (.ok _,w) => (.ok none,w)
            | (.error why,w) =>
                (.ok (some (p.display ++ " published; could not remove temp " ++
                  os.pathText (p.temp s) ++ ": " ++ why)),w)
        | (.error e,w) =>
            if linkUnsupported e then
              (.error (.fault .other ("cannot create " ++ p.display ++
                " without risking an overwrite on this filesystem")),w)
            else (.error e,w)

def finalize (os : System D N) (s : Staged N) (p : Pending D N) (w : World (D × N)) :
    Except IoError (Option String) × World (D × N) :=
  if p.original.isSome then
    match call os.toOs (rename (p.temp s) p.target) w with
    | (.ok _,w) => (.ok none,w)
    | (.error e,w) => (.error e,w)
  else create os s p w

def restore (os : System D N) (p : Pending D N) (w : World (D × N)) :
    Except String Unit × World (D × N) :=
  match readTarget os p (p.new.length + 1) w with
  | (.error e,w) => (.error ("cannot read it back: " ++ e.text os),w)
  | (.ok (current,_),w) =>
      if current ≠ p.new then
        (.error "it changed again after this call wrote it; left as is",w)
      else
        match p.original with
        | none =>
            match call os.toOs (unlink p.target) w with
            | (.ok _,w) => (.ok (),w)
            | (.error e,w) => (.error ("cannot remove it: " ++ os.errorText e),w)
        | some original =>
            match stage os p original w with
            | (.error e,w) => (.error ("staging: " ++ os.errorText e),w)
            | (.ok tmp,w) =>
                match call os.toOs (rename (p.temp tmp) p.target) w with
                | (.ok _,w) => (.ok (),w)
                | (.error e,w) =>
                    (.error ("rename: " ++ os.errorText e),
                      (removeIfOurs os (p.temp tmp) tmp.identity w).2)

def removeAll (os : System D N) : List (Pending D N × Staged N) → World (D × N) → World (D × N)
  | [], w => w
  | (p,s) :: rest, w => removeAll os rest (removeIfOurs os (p.temp s) s.identity w).2

inductive CommitError where
  | staging (display : String) (e : IoError)
  | changed (why : String)
  | writing (display : String) (e : IoError) (restored failed never : List String)
      (leftovers : String)
  deriving DecidableEq

def listed : List String → String
  | [] => "none"
  | v => ", ".intercalate v

def CommitError.text (os : System D N) : CommitError → String
  | .staging display e => "staging " ++ display ++ ": " ++ os.errorText e ++ "; no file was changed"
  | .changed why => why ++ "; no file was changed"
  | .writing display e restored failed never leftovers =>
      "writing " ++ display ++ " failed: " ++ os.errorText e ++ ". Committed then restored: " ++
        listed restored ++ ". Restore FAILED: " ++ listed failed ++ ". Never written: " ++
        listed never ++ "." ++ leftovers

def CommitError.restoreFailed : CommitError → List String
  | .writing _ _ _ failed _ _ => failed
  | _ => []

def stageAll (os : System D N) : List (Pending D N) → List (Pending D N × Staged N) →
    World (D × N) → Except CommitError (List (Pending D N × Staged N)) × World (D × N)
  | [], temps, w => (.ok temps,w)
  | p :: rest, temps, w =>
      match stage os p p.new w with
      | (.ok s,w) => stageAll os rest (temps ++ [(p,s)]) w
      | (.error e,w) => (.error (.staging p.display e),removeAll os temps w)

def recheckAll (os : System D N) (temps : List (Pending D N × Staged N)) :
    List (Pending D N × Staged N) → World (D × N) → Except CommitError Unit × World (D × N)
  | [], w => (.ok (),w)
  | (p,s) :: rest, w =>
      match unchanged os p s w with
      | (.ok _,w) => recheckAll os temps rest w
      | (.error why,w) => (.error (.changed why),removeAll os temps w)

def restoreAll (os : System D N) : List (Pending D N × Staged N) → World (D × N) →
    (List String × List String) × World (D × N)
  | [], w => (([],[]),w)
  | (p,_) :: rest, w =>
      match restore os p w with
      | (.ok _,w) =>
          let more := restoreAll os rest w
          ((p.display :: more.1.1,more.1.2),more.2)
      | (.error why,w) =>
          let more := restoreAll os rest w
          ((more.1.1,(p.display ++ " (" ++ why ++ ")") :: more.1.2),more.2)

/-- A temp an earlier file left over is tried again. -/
def retryAll (os : System D N) : List ((Pending D N × Staged N) × String) → World (D × N) →
    String × World (D × N)
  | [], w => ("",w)
  | ((p,s),note) :: rest, w =>
      let one := removeIfOurs os (p.temp s) s.identity w
      let outcome := match one.1 with
        | .ok _ => "removed on retry"
        | .error why => "still there: " ++ why
      let more := retryAll os rest one.2
      (" Left over earlier: " ++ note ++ "; " ++ outcome ++ "." ++ more.1,more.2)

def publishAll (os : System D N) : List (Pending D N × Staged N) →
    List ((Pending D N × Staged N) × String) → List (Pending D N × Staged N) →
    World (D × N) → Except CommitError (List String) × World (D × N)
  | _, notes, [], w => (.ok (notes.map Prod.snd),w)
  | done, notes, (p,s) :: rest, w =>
      match finalize os s p w with
      | (.ok note,w) =>
          publishAll os (done ++ [(p,s)]) (notes ++ note.toList.map (fun n => ((p,s),n))) rest w
      | (.error e,w) =>
          let w := removeAll os ((p,s) :: rest) w
          let back := restoreAll os done w
          let left := retryAll os notes back.2
          (.error (.writing p.display e back.1.1 back.1.2
            (((p,s) :: rest).map (fun f => f.1.display)) left.1),left.2)

def commit (os : System D N) (files : List (Pending D N)) (w : World (D × N)) :
    Except CommitError (List String) × World (D × N) :=
  match stageAll os files [] w with
  | (.error e,w) => (.error e,w)
  | (.ok temps,w) =>
      match recheckAll os temps temps w with
      | (.error e,w) => (.error e,w)
      | (.ok _,w) => publishAll os [] [] temps w

structure Removed (path : D × N) (w w' : World (D × N)) : Prop where
  files : ∀ q, q ≠ path → w'.files q = w.files q
  log : ∀ q, q ≠ path → (q ∈ w'.unremoved ↔ q ∈ w.unremoved)
  here : w'.files path = none ∨ (w'.files path = w.files path ∧ path ∈ w'.unremoved)

variable {path : D × N} {w w' : World (D × N)}

omit [DecidableEq D] [DecidableEq N] in
theorem Removed.keep (hf : w'.files = w.files) (hu : w'.unremoved = w.unremoved) :
    Removed path w (keep path w') where
  files := fun q _ => congrFun (congrArg Files.node hf) q
  log := fun q hq => by simp [MultiEdit.keep,hu,hq]
  here := .inr ⟨congrFun (congrArg Files.node hf) path,by simp [MultiEdit.keep]⟩

theorem removeIfOurs_removed (os : System D N) (path : D × N) (identity : Nat)
    (w : World (D × N)) : Removed path w (removeIfOurs os path identity w).2 := by
  unfold removeIfOurs
  split
  · rename_i kind ino w₁ hl
    obtain ⟨hs,hu⟩ := call_ok hl
    have hf : w₁.files = w.files := lstat_reads path _ _ _ hs
    split
    · split
      · rename_i w₂ hul
        obtain ⟨hs₂,hu₂⟩ := call_ok hul
        have hw : w₂.files.node = Function.update w₁.files path none := by
          unfold unlink at hs₂
          split at hs₂
          · simp at hs₂
          · split at hs₂
            · simp at hs₂
            · exact congrArg Files.node (Prod.mk.inj (Except.ok.inj hs₂)).2.symm
        refine ⟨fun q hq => ?_,fun q hq => ?_,.inl ?_⟩
        · simp [forget,hw,hq,hf]
        · simp [forget,hu₂,hu,hq]
        · simp [forget,hw]
      · rename_i w₂ hul
        obtain ⟨hf₂,hu₂,-⟩ := call_error hul
        exact Removed.keep (hf₂.trans hf) (hu₂.trans hu)
    · exact Removed.keep hf hu
  · rename_i w₁ hl
    obtain ⟨hf,hu,he⟩ := call_error hl
    have hnone : w.files path = none := by
      rcases he with he | ⟨k,t,he⟩
      · unfold lstat at he
        split at he
        · simp at he
        · assumption
      · simp at he
    refine ⟨fun q _ => congrFun (congrArg Files.node hf) q,fun q hq => ?_,.inl ?_⟩
    · simp [forget,hu,hq]
    · rw [show (forget path w₁).files = w.files from hf,hnone]
  · rename_i w₁ _ hl
    obtain ⟨hf,hu,-⟩ := call_error hl
    exact Removed.keep hf hu

structure Fresh (d : Files (D × N)) (path : D × N) (n : Node) (w : World (D × N)) : Prop where
  files : w.files.node = Function.update d path (some n)
  own : ∀ q m, d q = some m → m.ino ≠ n.ino

variable {d : Files (D × N)} {n : Node}

theorem Fresh.change (h : Fresh d path n w) (f : Node → Node) (hf : (f n).ino = n.ino)
    (hw : w'.files = onInode n.ino f w.files) :
    Fresh d path (f n) w' where
  files := by rw [hw,onInode_update h.files hf h.own]
  own := by rw [hf]; exact h.own

theorem Fresh.same (h : Fresh d path n w) (hw : w'.files = w.files) : Fresh d path n w' :=
  ⟨hw ▸ h.files,h.own⟩

variable {bytes : List UInt8} {os : System D N}

theorem writeAll_fresh {r : Except IoError Unit} (h : Fresh d path n w)
    (hr : writeAll os.toOs n.ino bytes w = (r,w')) :
    w'.unremoved = w.unremoved ∧ ∃ b, Fresh d path (extend b n) w' ∧ (r = .ok () → b = bytes) := by
  unfold writeAll at hr
  split at hr
  · rename_i u w₁ hc
    obtain ⟨hs,hu⟩ := call_ok hc
    cases hr
    exact ⟨hu,bytes,h.change (extend bytes) rfl (Prod.mk.inj (Except.ok.inj hs)).2.symm,
      fun _ => rfl⟩
  · rename_i e w₁ hc
    obtain ⟨hf,hu,-⟩ := call_error hc
    cases hr
    refine ⟨hu,bytes.take (os.written w.calls),h.change (extend _) rfl ?_,by simp⟩
    rw [hf]

theorem setMode_fresh {mode : Nat} {r : Except IoError Unit} (h : Fresh d path n w)
    (hr : call os.toOs (setMode n.ino mode) w = (r,w')) :
    w'.unremoved = w.unremoved ∧
      ∃ m, Fresh d path { n with mode := m } w' ∧ (r = .ok () → m = mode) := by
  cases r with
  | error e =>
    obtain ⟨hf,hu,-⟩ := call_error hr
    exact ⟨hu,n.mode,h.same hf,by simp⟩
  | ok u =>
    obtain ⟨hs,hu⟩ := call_ok hr
    exact ⟨hu,mode,h.change (fun n => { n with mode := mode }) rfl
      (Prod.mk.inj (Except.ok.inj hs)).2.symm,fun _ => rfl⟩

omit [DecidableEq D] [DecidableEq N] in
theorem fstat_same (os : System D N) (ino : Nat) (w : World (D × N)) :
    (call os.toOs (fstat ino) w).2.files = w.files ∧
      (call os.toOs (fstat ino) w).2.unremoved = w.unremoved ∧
      ∀ i, (call os.toOs (fstat ino) w).1 = .ok i → i = ino := by
  cases h : call os.toOs (fstat ino) w with
  | mk r w' =>
    cases r with
    | error e =>
      obtain ⟨hf,hu,-⟩ := call_error h
      exact ⟨hf,hu,by simp⟩
    | ok i =>
      obtain ⟨hs,hu⟩ := call_ok h
      obtain ⟨hi,hf⟩ := Prod.mk.inj (Except.ok.inj hs)
      exact ⟨hf.symm,hu,fun j hj => (Except.ok.inj hj).symm.trans hi.symm⟩

variable {mode : Option Nat}

theorem fill_fresh {r : Except IoError Nat} (h : Fresh d path n w)
    (hr : fill os n.ino bytes mode w = (r,w')) :
    w'.unremoved = w.unremoved ∧ ∃ b m, Fresh d path ⟨n.ino,n.kind,n.bytes ++ b,m⟩ w' ∧
      ∀ i, r = .ok i → i = n.ino ∧ b = bytes ∧ m = mode.getD n.mode := by
  unfold fill at hr
  cases hw : writeAll os.toOs n.ino bytes w with
  | mk r₁ w₁ =>
    obtain ⟨hu,b,h₁,hb⟩ := writeAll_fresh h hw
    rw [hw] at hr
    cases r₁ with
    | error e =>
      cases hr
      exact ⟨hu,b,n.mode,h₁,by simp⟩
    | ok u =>
      cases mode with
      | none =>
        have hfs := fstat_same os n.ino w₁
        rw [show call os.toOs (fstat n.ino) w₁ = (r,w') from hr] at hfs
        obtain ⟨hf,hu₂,hi⟩ := hfs
        exact ⟨hu₂.trans hu,b,n.mode,h₁.same hf,fun i h => ⟨hi i h,hb rfl,rfl⟩⟩
      | some mode =>
        simp only at hr
        cases hm : call os.toOs (setMode n.ino mode) w₁ with
        | mk r₂ w₂ =>
          obtain ⟨hu₂,m,h₂,hmode⟩ := setMode_fresh h₁ hm
          rw [hm] at hr
          cases r₂ with
          | error e =>
            cases hr
            exact ⟨hu₂.trans hu,b,m,h₂,by simp⟩
          | ok u =>
            have hfs := fstat_same os n.ino w₂
            rw [show call os.toOs (fstat n.ino) w₂ = (r,w') from hr] at hfs
            obtain ⟨hf,hu₃,hi⟩ := hfs
            exact ⟨hu₃.trans (hu₂.trans hu),b,m,h₂.same hf,fun i h => ⟨hi i h,hb rfl,hmode rfl⟩⟩

structure Wrote (path : D × N) (bytes : List UInt8) (mode : Option Nat) (s : Staged N)
    (w w' : World (D × N)) : Prop where
  absent : w.files path = none
  name : s.name = path.2
  log : w'.unremoved = w.unremoved
  node : ∃ m, w'.files.node = Function.update w.files path (some ⟨s.identity,.file,bytes,m⟩) ∧
    ∀ k, mode = some k → m = k
  own : ∀ q n, w.files q = some n → n.ino ≠ s.identity

theorem createNew_fresh {mode ino : Nat}
    (h : call os.toOs (createNew os.toOs path mode) w = (.ok ino,w')) :
    w.files path = none ∧ w'.unremoved = w.unremoved ∧
      ∃ m, Fresh w.files path ⟨ino,.file,[],m⟩ w' := by
  obtain ⟨hs,hu⟩ := call_ok h
  unfold createNew at hs
  split at hs
  · simp at hs
  · rename_i hn
    obtain ⟨rfl,hf⟩ := Prod.mk.inj (Except.ok.inj hs)
    exact ⟨hn,hu,_,congrArg Files.node hf.symm,fun q m hq => os.alloc_fresh w.files q m hq⟩

theorem writeNew_ok {s : Staged N} (h : writeNew os path bytes mode w = (.ok s,w')) :
    Wrote path bytes mode s w w' := by
  unfold writeNew at h
  split at h
  · simp at h
  rename_i ino w₁ hc
  obtain ⟨hn,hu,m₀,hfr⟩ := createNew_fresh hc
  obtain ⟨hf₂,hu₂,-⟩ := fstat_same os ino w₁
  simp only at h
  split at h
  · rename_i identity w₃ hfill
    obtain ⟨hu₃,b,m,h₃,hok⟩ := fill_fresh (hfr.same hf₂) hfill
    obtain ⟨rfl,rfl,rfl⟩ := hok identity rfl
    obtain ⟨hs,rfl⟩ := Prod.mk.inj h
    cases hs
    refine ⟨hn,rfl,hu₃.trans (hu₂.trans hu),⟨_,h₃.files,?_⟩,h₃.own⟩
    rintro k rfl
    rfl
  · split at h <;> simp at h

theorem writeNew_error {e : IoError} (h : writeNew os path bytes mode w = (.error e,w')) :
    (∀ q, q ≠ path → w'.files q = w.files q) ∧
      (∀ q, q ≠ path → (q ∈ w'.unremoved ↔ q ∈ w.unremoved)) ∧
      ((w'.files = w.files ∧ w'.unremoved = w.unremoved) ∨
        (w.files path = none ∧ (w'.files path = none ∨ path ∈ w'.unremoved))) := by
  unfold writeNew at h
  split at h
  · rename_i e w₁ hc
    obtain ⟨hf,hu,-⟩ := call_error hc
    cases h
    exact ⟨fun q _ => congrFun (congrArg Files.node hf) q,fun q _ => by rw [hu],.inl ⟨hf,hu⟩⟩
  · rename_i ino w₁ hc
    obtain ⟨hn,hu,m₀,hfr⟩ := createNew_fresh hc
    obtain ⟨hf₂,hu₂,-⟩ := fstat_same os ino w₁
    simp only at h
    split at h
    · simp at h
    rename_i e w₃ hfill
    obtain ⟨hu₃,b,m,h₃,-⟩ := fill_fresh (hfr.same hf₂) hfill
    have hq : ∀ q, q ≠ path → w₃.files q = w.files q := fun q hq => by
      rw [h₃.files,Function.update_of_ne hq]
    have hlog : w₃.unremoved = w.unremoved := hu₃.trans (hu₂.trans hu)
    split at h
    · rename_i identity _
      cases h
      have hr := removeIfOurs_removed os path identity w₃
      refine ⟨fun q hne => (hr.files q hne).trans (hq q hne),
        fun q hne => by rw [hr.log q hne,hlog],.inr ⟨hn,?_⟩⟩
      exact hr.here.imp id And.right
    · cases h
      exact ⟨hq,fun q hne => by simp [keep,hlog,hne],.inr ⟨hn,.inr (by simp [keep])⟩⟩

open List Function

abbrev Pair (D N : Type) := Pending D N × Staged N

def Pair.temp (f : Pair D N) : D × N := f.1.temp f.2

def Pair.target (f : Pair D N) : D × N := f.1.target

def Planned (d : Files (D × N)) (p : Pending D N) : Prop :=
  match p.original with
  | none => d p.target = none
  | some b => ∃ n, d p.target = some n ∧ n.kind = .file ∧ n.bytes = b ∧ p.mode = some n.mode

def TempPath (os : System D N) (files : List (Pending D N)) (q : D × N) : Prop :=
  ∃ t, ∃ p ∈ files, q = (p.dir,os.tempName t p.name)

def Holds (w : World (D × N)) (q : D × N) (f : Pair D N) : Prop :=
  ∃ m, w.files q = some ⟨f.2.identity,.file,f.1.new,m⟩

def Logged (os : System D N) (files : List (Pending D N)) (d : Files (D × N))
    (w : World (D × N)) : Prop :=
  ∀ q ∈ w.unremoved, d q = none ∧ TempPath os files q

structure Touched (os : System D N) (files : List (Pending D N)) (d : Files (D × N))
    (done rest : List (Pair D N)) (w : World (D × N)) : Prop where
  absent : ∀ f ∈ rest, d f.temp = none
  named : ∀ f ∈ rest, TempPath os files f.temp
  target : ∀ f ∈ done, Holds w f.target f
  apart : ∀ f ∈ done, ∀ g ∈ rest, f.target ≠ g.temp
  others : ∀ q, (∀ f ∈ rest, q ≠ f.temp) → (∀ f ∈ done, q ≠ f.target) →
    q ∈ w.unremoved ∨ w.files q = d q
  logged : Logged os files d w

/-- The temps of `rest` hold what is to be published. -/
structure Midway (os : System D N) (files : List (Pending D N)) (d : Files (D × N))
    (done rest : List (Pair D N)) (w : World (D × N)) : Prop
    extends Touched os files d done rest w where
  temp : ∀ f ∈ rest, Holds w f.temp f
  own : ∀ f ∈ rest, ∀ q n, w.files q = some n → n.ino = f.2.identity → q = f.temp
  nodup : (rest.map Pair.temp).Nodup

section Invariant

variable {os : System D N} {files : List (Pending D N)} {d : Files (D × N)}
  {done rest : List (Pair D N)} {f : Pair D N} {w w' : World (D × N)}

omit [DecidableEq D] [DecidableEq N] in
theorem midway_start (os : System D N) (files : List (Pending D N)) (w : World (D × N))
    (h : w.unremoved = []) : Midway os files w.files [] [] w := by
  refine ⟨⟨?_,?_,?_,?_,fun q _ _ => .inr rfl,by simp [Logged,h]⟩,?_,?_,?_⟩ <;> simp

omit [DecidableEq D] [DecidableEq N] in
theorem Midway.reads (h : Midway os files d done rest w) (hf : w'.files = w.files)
    (hu : w'.unremoved = w.unremoved) : Midway os files d done rest w' := by
  obtain ⟨fs,c,u⟩ := w
  obtain ⟨fs',c',u'⟩ := w'
  obtain rfl : fs' = fs := hf
  obtain rfl : u' = u := hu
  exact ⟨⟨h.absent,h.named,h.target,h.apart,h.others,h.logged⟩,h.temp,h.own,h.nodup⟩

theorem Touched.remove (h : Touched os files d done (f :: rest) w) :
    Touched os files d done rest (removeIfOurs os f.temp f.2.identity w).2 := by
  have hr := removeIfOurs_removed os f.temp f.2.identity w
  refine ⟨fun g hg => h.absent g (by simp [hg]),fun g hg => h.named g (by simp [hg]),?_,
    fun g hg k hk => h.apart g hg k (by simp [hk]),?_,?_⟩
  · intro g hg
    obtain ⟨m,hm⟩ := h.target g hg
    exact ⟨m,by rw [hr.files _ (h.apart g hg f (by simp)),hm]⟩
  · intro q hrest hdone
    by_cases hq : q = f.temp
    · subst hq
      rcases hr.here with hn | ⟨-,hu⟩
      · exact .inr (by rw [hn,h.absent f (by simp)])
      · exact .inl hu
    · rw [hr.files q hq,hr.log q hq]
      exact h.others q (by simpa [hq] using hrest) hdone
  · intro q hu
    by_cases hq : q = f.temp
    · exact hq ▸ ⟨h.absent f (by simp),h.named f (by simp)⟩
    · exact h.logged q ((hr.log q hq).mp hu)

theorem Touched.removeAll (h : Touched os files d done rest w) :
    Touched os files d done [] (MultiEdit.removeAll os rest w) := by
  induction rest generalizing w with
  | nil => exact h
  | cons f rest ih => exact ih h.remove

variable {p : Pending D N}

theorem Midway.stage {s : Staged N} {w₁ : World (D × N)} (h : Midway os files d [] rest w)
    (hp : p ∈ files) (hs : MultiEdit.stage os p p.new w = (.ok s,w₁)) :
    Midway os files d [] (rest ++ [(p,s)]) w₁ := by
  have hw := writeNew_ok hs
  obtain ⟨m,hfiles,-⟩ := hw.node
  have hpath : Pair.temp (p,s) = (p.dir,os.tempName w.calls p.name) := by
    simp [Pair.temp,Pending.temp,hw.name]
  rw [← hpath] at hfiles
  have habs : w.files (Pair.temp (p,s)) = none := by rw [hpath]; exact hw.absent
  have hne : ∀ g ∈ rest, g.temp ≠ Pair.temp (p,s) := by
    intro g hg he
    obtain ⟨_,hg⟩ := h.temp g hg
    rw [he,habs] at hg
    simp at hg
  have hnew : TempPath os files (Pair.temp (p,s)) := ⟨w.calls,p,hp,hpath⟩
  have hd : d (Pair.temp (p,s)) = none := by
    rcases h.others _ (fun g hg he => hne g hg he.symm) (by simp) with hu | he
    · exact (h.logged _ hu).1
    · rw [← he,habs]
  refine ⟨⟨?_,?_,by simp,by simp,?_,?_⟩,?_,?_,?_⟩
  · exact forall_mem_append.mpr ⟨h.absent,forall_mem_singleton.mpr hd⟩
  · exact forall_mem_append.mpr ⟨h.named,forall_mem_singleton.mpr hnew⟩
  · intro q hq _
    have hqt : q ≠ Pair.temp (p,s) := hq _ (by simp)
    rw [hfiles,update_of_ne hqt,hw.log]
    exact h.others q (fun g hg => hq g (by simp [hg])) (by simp)
  · intro q hq
    rw [hw.log] at hq
    exact h.logged q hq
  · intro g hg
    rcases mem_append.mp hg with hg | hg
    · obtain ⟨k,hk⟩ := h.temp g hg
      exact ⟨k,by rw [hfiles,update_of_ne (hne g hg),hk]⟩
    · obtain rfl := mem_singleton.mp hg
      exact ⟨m,by rw [hfiles,update_self]⟩
  · intro g hg q n hq hi
    rw [hfiles] at hq
    by_cases hqt : q = Pair.temp (p,s)
    · subst hqt
      rw [update_self] at hq
      cases hq
      rcases mem_append.mp hg with hg | hg
      · obtain ⟨k,hk⟩ := h.temp g hg
        exact absurd hi.symm (hw.own _ _ hk)
      · rw [mem_singleton.mp hg]
    · rw [update_of_ne hqt] at hq
      rcases mem_append.mp hg with hg | hg
      · exact h.own g hg q n hq hi
      · obtain rfl := mem_singleton.mp hg
        exact absurd hi (hw.own q n hq)
  · rw [map_append,nodup_append]
    refine ⟨h.nodup,by simp,?_⟩
    intro a ha b hb
    obtain ⟨g,hg,rfl⟩ := mem_map.mp ha
    simp only [map_cons,map_nil,mem_singleton] at hb
    rw [hb]
    exact hne g hg

theorem Midway.stageError {e : IoError} (h : Midway os files d [] rest w) (hp : p ∈ files)
    (hs : MultiEdit.stage os p p.new w = (.error e,w')) : Touched os files d [] rest w' := by
  obtain ⟨hf,hlog,hcase⟩ := writeNew_error hs
  rcases hcase with ⟨hsame,hu⟩ | ⟨habs,hpath⟩
  · exact (h.reads hsame hu).toTouched
  have hne : ∀ g ∈ rest, (p.dir,os.tempName w.calls p.name) ≠ g.temp := by
    intro g hg he
    obtain ⟨_,hg⟩ := h.temp g hg
    rw [← he,habs] at hg
    simp at hg
  have hd : d (p.dir,os.tempName w.calls p.name) = none := by
    rcases h.others _ hne (by simp) with hu | he
    · exact (h.logged _ hu).1
    · rw [← he,habs]
  refine ⟨h.absent,h.named,by simp,by simp,?_,?_⟩
  · intro q hq _
    by_cases hqt : q = (p.dir,os.tempName w.calls p.name)
    · subst hqt
      exact hpath.symm.imp id (fun hn => by rw [hn,hd])
    · rw [hf q hqt,hlog q hqt]
      exact h.others q hq (by simp)
  · intro q hq
    by_cases hqt : q = (p.dir,os.tempName w.calls p.name)
    · exact ⟨hqt ▸ hd,w.calls,p,hp,hqt⟩
    · exact h.logged q ((hlog q hqt).mp hq)

variable {temps : List (Pair D N)}

theorem stageAll_spec {todo : List (Pending D N)} {r : Except CommitError (List (Pair D N))}
    (h : Midway os files d [] rest w) (ht : ∀ p ∈ todo, p ∈ files)
    (hs : stageAll os todo rest w = (r,w')) :
    (∀ temps, r = .ok temps →
      Midway os files d [] temps w' ∧ temps.map Prod.fst = rest.map Prod.fst ++ todo) ∧
    ∀ e, r = .error e → Touched os files d [] [] w' := by
  induction todo generalizing rest w with
  | nil =>
    cases hs
    exact ⟨fun temps hr => Except.ok.inj hr ▸ ⟨h,by simp⟩,by simp⟩
  | cons p todo ih =>
    unfold stageAll at hs
    split at hs
    · rename_i s w₁ hst
      have := ih (h.stage (ht p (by simp)) hst) (fun q hq => ht q (by simp [hq])) hs
      simpa using this
    · rename_i e₁ w₁ hst
      cases hs
      exact ⟨by simp,fun _ _ => (h.stageError (ht p (by simp)) hst).removeAll⟩

omit [DecidableEq D] [DecidableEq N] in
theorem readTarget_reads (os : System D N) (p : Pending D N) (cap : Nat) (w : World (D × N)) :
    Reads w (readTarget os p cap w) := by
  have hc := call_reads os.toOs w (openAt_reads p.target)
  unfold readTarget
  split
  · rename_i h
    exact (h ▸ hc).same _
  · rename_i h
    split <;> exact (h ▸ hc).same _

omit [DecidableEq D] [DecidableEq N] in
theorem targetUnchanged_reads (os : System D N) (p : Pending D N) (w : World (D × N)) :
    Reads w (targetUnchanged os p w) := by
  unfold targetUnchanged
  split
  · have hc := call_reads os.toOs w (lstat_reads p.target)
    split
    all_goals
      rename_i h
      exact (h ▸ hc).same _
  · rename_i original _
    have hc := readTarget_reads os p (original.length + 1) w
    split
    · rename_i h
      exact (h ▸ hc).same _
    · rename_i h
      exact (h ▸ hc).same _
    · rename_i h
      exact (h ▸ hc).same _
    · rename_i h
      split
      · exact (h ▸ hc).same _
      · split <;> exact (h ▸ hc).same _

omit [DecidableEq D] [DecidableEq N] in
theorem unchanged_reads (os : System D N) (p : Pending D N) (s : Staged N) (w : World (D × N)) :
    Reads w (unchanged os p s w) := by
  unfold unchanged
  split
  · exact ⟨rfl,rfl⟩
  have hc := call_reads os.toOs w (lstat_reads (p.temp s))
  split
  · rename_i h
    exact (h ▸ hc).same _
  · rename_i h
    split
    · exact (h ▸ hc).same _
    · exact (h ▸ hc).trans (targetUnchanged_reads os p _)

theorem recheckAll_spec {todo : List (Pair D N)} {r : Except CommitError Unit}
    (h : Midway os files d done temps w) (hs : recheckAll os temps todo w = (r,w')) :
    (r = .ok () → Midway os files d done temps w') ∧
      ∀ e, r = .error e → Touched os files d done [] w' := by
  induction todo generalizing w with
  | nil =>
    cases hs
    exact ⟨fun _ => h,by simp⟩
  | cons f todo ih =>
    have hc := unchanged_reads os f.1 f.2 w
    unfold recheckAll at hs
    split at hs
    all_goals
      rename_i w₁ hu
      rw [hu] at hc
      have hm := h.reads hc.files hc.log
    · exact ih hm hs
    · cases hs
      exact ⟨by simp,fun _ _ => hm.toTouched.removeAll⟩

/-- The temp's file is at its target; the temp is gone or written down as not removed. -/
structure Publishes (f : Pair D N) (w w' : World (D × N)) : Prop where
  target : Holds w' f.target f
  files : ∀ q, q ≠ f.temp → q ≠ f.target → w'.files q = w.files q
  temp : w'.files f.temp = none ∨ (w'.files f.temp = w.files f.temp ∧ f.temp ∈ w'.unremoved)
  log : ∀ q, q ≠ f.temp → (q ∈ w'.unremoved ↔ q ∈ w.unremoved)

theorem publishes_moved {n : Node} (ht : Holds w f.temp f) (hn : w.files f.temp = some n)
    (hne : f.target ≠ f.temp)
    (hw : w'.files = (w.files.drop f.temp).put f.target n)
    (hu : w'.unremoved = w.unremoved) : Publishes f w w' := by
  have hmoved : w'.files.node = update (update w.files f.temp none) f.target (some n) :=
    congrArg Files.node hw
  refine ⟨?_,fun q hq hq' => ?_,.inl ?_,fun q _ => by rw [hu]⟩
  · obtain ⟨m,hm⟩ := ht
    exact ⟨m,by rw [hmoved,update_self,← hn,hm]⟩
  · rw [hmoved,update_of_ne hq',update_of_ne hq]
  · rw [hmoved,update_of_ne hne.symm,update_self]

variable {note : Option String}

theorem finalize_existing (ho : f.1.original.isSome = true) (ht : Holds w f.temp f)
    (hown : ∀ q n, w.files q = some n → n.ino = f.2.identity → q = f.temp)
    (hne : f.target ≠ f.temp) (h : finalize os f.2 f.1 w = (.ok note,w')) : Publishes f w w' := by
  rw [finalize,if_pos ho] at h
  split at h
  · rename_i w₁ hc
    cases h
    obtain ⟨hs,hu⟩ := call_ok hc
    obtain ⟨m,hm⟩ := ht
    change rename f.temp f.target w.files = _ at hs
    simp only [rename,hm] at hs
    split at hs
    · exact publishes_moved ⟨m,hm⟩ hm hne (Prod.mk.inj (Except.ok.inj hs)).2.symm hu
    rename_i k hk
    split at hs
    · rename_i hi
      exact absurd (hown _ _ hk hi) hne
    · split at hs
      · simp at hs
      · exact publishes_moved ⟨m,hm⟩ hm hne (Prod.mk.inj (Except.ok.inj hs)).2.symm hu
  · simp at h

theorem finalize_new (ho : f.1.original.isSome = false) (ht : Holds w f.temp f)
    (h : finalize os f.2 f.1 w = (.ok note,w')) : w.files f.target = none ∧ Publishes f w w' := by
  obtain ⟨m,hm⟩ := ht
  have hfree (hn : w.files f.target = none) : f.target ≠ f.temp := by
    intro he
    rw [he,hm] at hn
    simp at hn
  rw [finalize,ho,if_neg (by simp),create] at h
  split at h
  · rename_i w₁ hc
    cases h
    obtain ⟨hs,hu⟩ := call_ok hc
    change renameNoReplace f.temp f.target w.files = _ at hs
    unfold renameNoReplace at hs
    split at hs
    · simp at hs
    · simp at hs
    · rename_i n hn hnone
      exact ⟨hnone,publishes_moved ⟨m,hm⟩ hn (hfree hnone)
        (Prod.mk.inj (Except.ok.inj hs)).2.symm hu⟩
  · rename_i e w₁ hc
    obtain ⟨hf₁,hu₁,-⟩ := call_error hc
    split at h
    · simp at h
    split at h
    · rename_i w₂ hl
      obtain ⟨hs,hu₂⟩ := call_ok hl
      change link f.temp f.target w₁.files = _ at hs
      rw [hf₁] at hs
      unfold link at hs
      split at hs
      · simp at hs
      · simp at hs
      rename_i n hn hnone
      have hw₂ : w₂.files.node = update w.files f.target (some n) :=
        congrArg Files.node (Prod.mk.inj (Except.ok.inj hs)).2.symm
      have hr := removeIfOurs_removed os f.temp f.2.identity w₂
      have hw' : w' = (removeIfOurs os f.temp f.2.identity w₂).2 := by
        change w' = (removeIfOurs os (f.1.temp f.2) f.2.identity w₂).2
        split at h
        all_goals
          rename_i hrm
          rw [hrm]
          exact (Prod.mk.inj h).2.symm
      subst hw'
      have hne := hfree hnone
      refine ⟨hnone,⟨m,?_⟩,fun q hq hq' => ?_,?_,fun q hq => ?_⟩
      · rw [hr.files _ hne,hw₂,update_self,← hn,hm]
      · rw [hr.files q hq,hw₂,update_of_ne hq']
      · exact hr.here.imp id (fun ⟨hh,hu⟩ => ⟨by rw [hh,hw₂,update_of_ne hne.symm],hu⟩)
      · rw [hr.log q hq,hu₂,hu₁]
    · split at h <;> simp at h

theorem finalize_error {e : IoError} (h : finalize os f.2 f.1 w = (.error e,w')) :
    w'.files = w.files ∧ w'.unremoved = w.unremoved := by
  unfold finalize at h
  split at h
  · split at h
    · simp at h
    · rename_i hc
      obtain ⟨hf,hu,-⟩ := call_error hc
      cases h
      exact ⟨hf,hu⟩
  · unfold create at h
    split at h
    · simp at h
    rename_i hc
    obtain ⟨hf,hu,-⟩ := call_error hc
    split at h
    · cases h
      exact ⟨hf,hu⟩
    split at h
    · split at h <;> simp at h
    rename_i hl
    obtain ⟨hf₂,hu₂,-⟩ := call_error hl
    split at h
    all_goals
      cases h
      exact ⟨hf₂.trans hf,hu₂.trans hu⟩

theorem Midway.publish (h : Midway os files d done (f :: rest) w) (hp : Planned d f.1)
    (hd : ∀ g ∈ done, g.target ≠ f.target) (hf : finalize os f.2 f.1 w = (.ok note,w')) :
    Midway os files d (done ++ [f]) rest w' := by
  have ht := h.temp f (by simp)
  have hpub : (∀ g ∈ f :: rest, f.target ≠ g.temp) ∧ Publishes f w w' := by
    by_cases ho : f.1.original.isSome = true
    · have hapart : ∀ g ∈ f :: rest, f.target ≠ g.temp := by
        intro g hg he
        obtain ⟨b,hb⟩ := Option.isSome_iff_exists.mp ho
        simp only [Planned,hb] at hp
        obtain ⟨n,hn,-⟩ := hp
        change d f.target = some n at hn
        rw [he,h.absent g hg] at hn
        simp at hn
      exact ⟨hapart,finalize_existing ho ht (h.own f (by simp)) (hapart f (by simp)) hf⟩
    · obtain ⟨hnone,hpub⟩ := finalize_new (by simpa using ho) ht hf
      refine ⟨fun g hg he => ?_,hpub⟩
      obtain ⟨m,hm⟩ := h.temp g hg
      rw [← he,hnone] at hm
      simp at hm
  obtain ⟨hapart,hpub⟩ := hpub
  have hnd := h.nodup
  rw [map_cons,nodup_cons] at hnd
  have htemps : ∀ g ∈ rest, g.temp ≠ f.temp := fun g hg he =>
    hnd.1 (he ▸ mem_map_of_mem hg)
  refine ⟨⟨fun g hg => h.absent g (by simp [hg]),fun g hg => h.named g (by simp [hg]),?_,?_,
    ?_,?_⟩,?_,?_,hnd.2⟩
  · intro g hg
    rcases mem_append.mp hg with hg | hg
    · obtain ⟨m,hm⟩ := h.target g hg
      exact ⟨m,by rw [hpub.files _ (h.apart g hg f (by simp)) (hd g hg),hm]⟩
    · rw [mem_singleton.mp hg]
      exact hpub.target
  · intro g hg k hk
    rcases mem_append.mp hg with hg | hg
    · exact h.apart g hg k (by simp [hk])
    · rw [mem_singleton.mp hg]
      exact hapart k (by simp [hk])
  · intro q hrest hdone
    have hqt : q ≠ f.target := hdone f (by simp)
    by_cases hq : q = f.temp
    · subst hq
      rcases hpub.temp with hn | ⟨-,hu⟩
      · exact .inr (by rw [hn,h.absent f (by simp)])
      · exact .inl hu
    · rw [hpub.files q hq hqt,hpub.log q hq]
      exact h.others q (by simpa [hq] using hrest) (fun g hg => hdone g (by simp [hg]))
  · intro q hu
    by_cases hq : q = f.temp
    · exact hq ▸ ⟨h.absent f (by simp),h.named f (by simp)⟩
    · exact h.logged q ((hpub.log q hq).mp hu)
  · intro g hg
    obtain ⟨m,hm⟩ := h.temp g (by simp [hg])
    exact ⟨m,by rw [hpub.files _ (htemps g hg) (hapart g (by simp [hg])).symm,hm]⟩
  · intro g hg q n hq hi
    have hown := h.own g (by simp [hg])
    obtain ⟨m,hm⟩ := ht
    have hids : f.2.identity ≠ g.2.identity := fun he =>
      htemps g hg (hown _ _ hm he).symm
    by_cases hqt : q = f.target
    · obtain ⟨k,hk⟩ := hpub.target
      rw [hqt,hk] at hq
      cases hq
      exact absurd hi hids
    · by_cases hqf : q = f.temp
      · rcases hpub.temp with hn | ⟨hn,-⟩
        · rw [hqf,hn] at hq
          simp at hq
        · rw [hqf,hn,hm] at hq
          cases hq
          exact absurd hi hids
      · rw [hpub.files q hqf hqt] at hq
        exact hown q n hq hi

def look (d : Files (D × N)) (q : D × N) : Option Content := (d q).map Node.content

structure Back (os : System D N) (files : List (Pending D N)) (d : Files (D × N))
    (done : List (Pair D N)) (w : World (D × N)) : Prop where
  target : ∀ f ∈ done, Holds w f.target f
  others : ∀ q, (∀ f ∈ done, q ≠ f.target) → q ∈ w.unremoved ∨ look w.files q = look d q
  logged : Logged os files d w

def PutBack (p : Pending D N) (w : World (D × N)) : Prop :=
  match p.original with
  | none => w.files p.target = none
  | some b => ∃ i m, w.files p.target = some ⟨i,.file,b,m⟩ ∧ ∀ k, p.mode = some k → m = k

theorem restoreNew_ok (ho : p.original = none)
    (hc : call os.toOs (unlink p.target) w = (.ok (),w')) :
    w'.unremoved = w.unremoved ∧ (∀ q, q ≠ p.target → w'.files q = w.files q) ∧ PutBack p w' := by
  obtain ⟨hs,hu⟩ := call_ok hc
  unfold unlink at hs
  split at hs
  · simp at hs
  split at hs
  · simp at hs
  · have hw : w'.files.node = update w.files p.target none :=
      congrArg Files.node (Prod.mk.inj (Except.ok.inj hs)).2.symm
    refine ⟨hu,fun q hq => by rw [hw,update_of_ne hq],?_⟩
    simp [PutBack,ho,hw]

theorem restoreOld_ok {s : Staged N} {b : List UInt8} {n : Node} {w₁ : World (D × N)}
    (ho : p.original = some b) (hn : w.files p.target = some n)
    (hst : MultiEdit.stage os p b w = (.ok s,w₁))
    (hc : call os.toOs (rename (p.temp s) p.target) w₁ = (.ok (),w')) :
    w'.unremoved = w.unremoved ∧ (∀ q, q ≠ p.target → w'.files q = w.files q) ∧ PutBack p w' := by
  have hw := writeNew_ok hst
  obtain ⟨m,hf₁,hm⟩ := hw.node
  have hpath : p.temp s = (p.dir,os.tempName w.calls p.name) := by
    simp [Pending.temp,hw.name]
  rw [← hpath] at hf₁
  have habs : w.files (p.temp s) = none := by rw [hpath]; exact hw.absent
  have hne : p.target ≠ p.temp s := by
    intro he
    rw [he,habs] at hn
    simp at hn
  obtain ⟨hs,hu⟩ := call_ok hc
  have htemp : w₁.files (p.temp s) = some ⟨s.identity,.file,b,m⟩ := by
    rw [hf₁,update_self]
  have htarget : w₁.files p.target = some n := by
    rw [hf₁,update_of_ne hne,hn]
  simp only [rename,htemp,htarget,if_neg (hw.own _ _ hn)] at hs
  split at hs
  · simp at hs
  have hw' : w'.files.node = update (update w₁.files (p.temp s) none) p.target
      (some ⟨s.identity,.file,b,m⟩) := congrArg Files.node (Prod.mk.inj (Except.ok.inj hs)).2.symm
  refine ⟨hu.trans hw.log,fun q hq => ?_,?_⟩
  · rw [hw',update_of_ne hq]
    by_cases hqt : q = p.temp s
    · rw [hqt,update_self,habs]
    · rw [update_of_ne hqt,hf₁,update_of_ne hqt]
  · simp only [PutBack,ho]
    exact ⟨s.identity,m,by rw [hw',update_self],hm⟩

theorem restore_ok {n : Node} (hn : w.files p.target = some n) (h : restore os p w = (.ok (),w')) :
    w'.unremoved = w.unremoved ∧ (∀ q, q ≠ p.target → w'.files q = w.files q) ∧ PutBack p w' := by
  have hread := readTarget_reads os p (p.new.length + 1) w
  unfold restore at h
  split at h
  · simp at h
  rename_i w₁ hr
  rw [hr] at hread
  have hf : w₁.files = w.files := hread.files
  have hl : w₁.unremoved = w.unremoved := hread.log
  split at h
  · simp at h
  split at h
  · rename_i ho
    split at h
    · rename_i hc
      cases h
      have hres := restoreNew_ok ho hc
      rwa [hf,hl] at hres
    · simp at h
  · rename_i b ho
    split at h
    · simp at h
    rename_i s w₂ hst
    split at h
    · rename_i hc
      cases h
      have hres := restoreOld_ok ho (hf ▸ hn) hst hc
      rwa [hf,hl] at hres
    · simp at h

omit [DecidableEq D] [DecidableEq N] in
theorem PutBack.look (h : PutBack p w) (hp : Planned d p) :
    look w.files p.target = MultiEdit.look d p.target := by
  unfold PutBack at h
  unfold Planned at hp
  cases ho : p.original with simp only [ho] at h hp
  | none =>
    simp [MultiEdit.look,h,hp]
  | some b =>
    obtain ⟨i,m,hw,hm⟩ := h
    obtain ⟨n,hd,hk,hb,hmode⟩ := hp
    simp [MultiEdit.look,hw,hd,Node.content,hk,hb,hm n.mode hmode]

theorem Back.restoreAll (h : Back os files d done w) (hp : ∀ f ∈ done, Planned d f.1)
    (hd : (done.map Pair.target).Nodup) (hfail : (MultiEdit.restoreAll os done w).1.2 = []) :
    Back os files d [] (MultiEdit.restoreAll os done w).2 := by
  induction done generalizing w with
  | nil => exact h
  | cons f done ih =>
    obtain ⟨p,s⟩ := f
    rw [map_cons,nodup_cons] at hd
    unfold MultiEdit.restoreAll at hfail ⊢
    split at hfail
    · rename_i w₁ hr
      obtain ⟨m,hm⟩ := h.target (p,s) (by simp)
      obtain ⟨hu,hf,hback⟩ := restore_ok hm hr
      refine ih ⟨fun g hg => ?_,fun q hq => ?_,?_⟩ (fun g hg => hp g (by simp [hg])) hd.2 hfail
      · have hne : g.target ≠ p.target := fun he =>
          hd.1 (by rw [show Pair.target (p,s) = g.target from he.symm]; exact mem_map_of_mem hg)
        obtain ⟨k,hk⟩ := h.target g (by simp [hg])
        exact ⟨k,by rw [hf _ hne,hk]⟩
      · by_cases hqt : q = p.target
        · exact .inr (by rw [hqt]; exact hback.look (hp (p,s) (by simp)))
        · rw [hu,show look w₁.files q = look w.files q by simp [MultiEdit.look,hf q hqt]]
          exact h.others q (by simpa [Pair.target,hqt] using hq)
      · intro q hq
        exact h.logged q (hu ▸ hq)
    · simp at hfail

variable {notes : List (Pair D N × String)}

theorem Back.retryAll (h : Back os files d [] w)
    (hn : ∀ n ∈ notes, d n.1.temp = none ∧ TempPath os files n.1.temp) :
    Back os files d [] (MultiEdit.retryAll os notes w).2 := by
  induction notes generalizing w with
  | nil => exact h
  | cons n notes ih =>
    have hr := removeIfOurs_removed os n.1.temp n.1.2.identity w
    obtain ⟨hd,hname⟩ := hn n (by simp)
    refine ih ⟨by simp,fun q _ => ?_,fun q hq => ?_⟩ (fun k hk => hn k (by simp [hk]))
    · by_cases hqt : q = n.1.temp
      · subst hqt
        rcases hr.here with hnone | ⟨-,hu⟩
        · exact .inr (by
            rw [MultiEdit.look,MultiEdit.look,hd]
            exact congrArg (Option.map Node.content) hnone)
        · exact .inl hu
      · have hlook : look (removeIfOurs os n.1.temp n.1.2.identity w).2.files q = look w.files q := by
          simp [MultiEdit.look,hr.files q hqt]
        exact (h.others q (by simp)).imp (hr.log q hqt).mpr (fun he => hlook.trans he)
    · by_cases hqt : q = n.1.temp
      · exact hqt ▸ ⟨hd,hname⟩
      · exact h.logged q ((hr.log q hqt).mp hq)

omit [DecidableEq D] [DecidableEq N] in
theorem Touched.back (h : Touched os files d done [] w) : Back os files d done w where
  target := h.target
  others := fun q hq => (h.others q (by simp) hq).imp id (fun he => by rw [look,look,he])
  logged := h.logged

theorem publishAll_spec {r : Except CommitError (List String)} (h : Midway os files d done rest w)
    (hp : ∀ f ∈ done ++ rest, Planned d f.1) (hd : ((done ++ rest).map Pair.target).Nodup)
    (hn : ∀ n ∈ notes, d n.1.temp = none ∧ TempPath os files n.1.temp)
    (hs : publishAll os done notes rest w = (r,w')) :
    (∀ out, r = .ok out → Midway os files d (done ++ rest) [] w') ∧
      ∀ e, r = .error e → e.restoreFailed = [] → Back os files d [] w' := by
  induction rest generalizing done notes w with
  | nil =>
    cases hs
    exact ⟨fun _ _ => by simpa using h,by simp⟩
  | cons f rest ih =>
    have hnd := hd
    rw [map_append,nodup_append] at hnd
    have hne : ∀ g ∈ done, g.target ≠ f.target := fun g hg =>
      hnd.2.2 _ (mem_map_of_mem hg) f.target (by simp)
    unfold publishAll at hs
    split at hs
    · rename_i note w₁ hf
      have := ih (h.publish (hp f (by simp)) hne hf) (by simpa using hp) (by simpa using hd)
        (fun n hmem => ?_) hs
      · simpa using this
      · rcases mem_append.mp hmem with hmem | hmem
        · exact hn n hmem
        · obtain ⟨_,_,rfl⟩ := mem_map.mp hmem
          exact ⟨h.absent f (by simp),h.named f (by simp)⟩
    · rename_i e₁ w₁ hf
      obtain ⟨hf₁,hu₁⟩ := finalize_error hf
      cases hs
      refine ⟨by simp,fun e he hr => ?_⟩
      obtain rfl := Except.error.inj he
      have hb := (h.reads hf₁ hu₁).toTouched.removeAll.back
      exact Back.retryAll (hb.restoreAll (fun g hg => hp g (by simp [hg])) hnd.1 hr) hn

/-- After a commit that went well every target holds its new bytes; after one that
failed, with every restore done, every path looks as before. What is left over are temps
that could not be removed. -/
theorem commit_spec {r : Except CommitError (List String)} (hu : w.unremoved = [])
    (hp : ∀ p ∈ files, Planned w.files p) (hd : (files.map Pending.target).Nodup)
    (hc : commit os files w = (r,w')) :
    (∀ out, r = .ok out → Logged os files w.files w' ∧
      (∀ p ∈ files, ∃ i m, w'.files p.target = some ⟨i,.file,p.new,m⟩) ∧
      (∀ q, (∀ p ∈ files, q ≠ p.target) → q ∈ w'.unremoved ∨ w'.files q = w.files q)) ∧
    (∀ e, r = .error e → e.restoreFailed = [] → Logged os files w.files w' ∧
      ∀ q, q ∈ w'.unremoved ∨ look w'.files q = look w.files q) := by
  have hback {w' : World (D × N)} (hb : Back os files w.files [] w') : Logged os files w.files w' ∧
      ∀ q, q ∈ w'.unremoved ∨ look w'.files q = look w.files q :=
    ⟨hb.logged,fun q => hb.others q (by simp)⟩
  have hstart := midway_start os files w hu
  unfold commit at hc
  split at hc
  · rename_i e₁ w₁ hs
    cases hc
    have ht := (stageAll_spec hstart (fun p hp => hp) hs).2 e₁ rfl
    exact ⟨by simp,fun e _ _ => hback ht.back⟩
  · rename_i temps w₁ hs
    obtain ⟨hm,hfst⟩ := (stageAll_spec hstart (fun p hp => hp) hs).1 temps rfl
    rw [map_nil,nil_append] at hfst
    have hmem : ∀ f ∈ temps, f.1 ∈ files := fun f hf => hfst ▸ mem_map_of_mem hf
    have htargets : temps.map Pair.target = files.map Pending.target := by
      rw [← hfst,map_map]
      rfl
    split at hc
    · rename_i e₂ w₂ hre
      cases hc
      have ht := (recheckAll_spec hm hre).2 e₂ rfl
      exact ⟨by simp,fun e _ _ => hback ht.back⟩
    · rename_i w₂ hre
      obtain ⟨hok,herr⟩ := publishAll_spec ((recheckAll_spec hm hre).1 rfl)
        (fun f hf => hp f.1 (hmem f hf)) (htargets ▸ hd) (by simp) hc
      refine ⟨fun out hr => ?_,fun e hr hfail => hback (herr e hr hfail)⟩
      have hdone := hok out hr
      rw [nil_append] at hdone
      refine ⟨hdone.logged,fun p hpm => ?_,fun q hq => ?_⟩
      · rw [← hfst] at hpm
        obtain ⟨f,hf,rfl⟩ := mem_map.mp hpm
        obtain ⟨m,hm⟩ := hdone.target f hf
        exact ⟨f.2.identity,m,hm⟩
      · exact hdone.others q (by simp) (fun f hf => hq f.1 (hmem f hf))

end Invariant

end Synaps.MultiEdit
