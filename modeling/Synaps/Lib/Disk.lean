import Mathlib.Data.List.Basic

/-!
A disk whose calls may fail. A path leads to a node or to nothing; two paths may lead to the
same inode.
-/

set_option autoImplicit false

namespace Disk

inductive Kind where
  | file
  | dir
  | symlink
  | other
  deriving DecidableEq, Repr

structure Node where
  ino : Nat
  kind : Kind
  bytes : List UInt8
  mode : Nat
  deriving DecidableEq, Repr

structure Content where
  kind : Kind
  bytes : List UInt8
  mode : Nat
  deriving DecidableEq, Repr

def Node.content (n : Node) : Content := ⟨n.kind,n.bytes,n.mode⟩

/-- The nodes that the paths lead to, with a bound on their inodes. -/
structure Files (P : Type) where
  node : P → Option Node
  next : Nat
  below : ∀ p n, node p = some n → n.ino < next

instance {P : Type} : CoeFun (Files P) fun _ => P → Option Node := ⟨Files.node⟩

inductive FaultKind where
  | unsupported
  | invalid
  | notPermitted
  | noSyscall
  | notSupported
  | other
  deriving DecidableEq, Repr

inductive IoError where
  | fault (kind : FaultKind) (text : String)
  | notFound
  | alreadyExists
  | isDirectory
  deriving DecidableEq, Repr

variable {P : Type}

/-- What the system decides: which calls fail, how much of a failed write is written,
and the inode of a new file, which no path leads to. -/
structure Os (P : Type) where
  fails : Nat → Option (FaultKind × String)
  written : Nat → Nat
  alloc : Files P → Nat
  alloc_fresh : ∀ d p n, d p = some n → n.ino ≠ alloc d
  umask : Nat

/-- The files, the number of calls made, and the paths of files that were to be removed
and were not. -/
structure World (P : Type) where
  files : Files P
  calls : Nat
  unremoved : List P

def call {α : Type} (os : Os P) (act : Files P → Except IoError (α × Files P)) (w : World P) :
    Except IoError α × World P :=
  match os.fails w.calls with
  | some f => (.error (.fault f.1 f.2),{ w with calls := w.calls + 1 })
  | none =>
      match act w.files with
      | .ok (a,d) => (.ok a,{ w with files := d, calls := w.calls + 1 })
      | .error e => (.error e,{ w with calls := w.calls + 1 })

section Calls

variable {α : Type} {os : Os P} {act : Files P → Except IoError (α × Files P)} {w w' : World P}

theorem call_ok {a : α} (h : call os act w = (.ok a,w')) :
    act w.files = .ok (a,w'.files) ∧ w'.unremoved = w.unremoved := by
  unfold call at h
  split at h
  · simp at h
  split at h
  · rename_i b d hd
    obtain ⟨rfl,rfl⟩ := Prod.mk.inj h |>.imp Except.ok.inj id
    exact ⟨hd,rfl⟩
  · simp at h

theorem call_error {e : IoError} (h : call os act w = (.error e,w')) :
    w'.files = w.files ∧ w'.unremoved = w.unremoved ∧
      (act w.files = .error e ∨ ∃ k t, e = .fault k t) := by
  unfold call at h
  split at h
  · obtain ⟨he,rfl⟩ := Prod.mk.inj h
    exact ⟨rfl,rfl,.inr ⟨_,_,(Except.error.inj he).symm⟩⟩
  split at h
  · simp at h
  · rename_i hd
    obtain ⟨he,rfl⟩ := Prod.mk.inj h
    obtain rfl := Except.error.inj he
    exact ⟨rfl,rfl,.inl hd⟩

structure Reads {β : Type} (w : World P) (r : β × World P) : Prop where
  files : r.2.files = w.files
  log : r.2.unremoved = w.unremoved

theorem Reads.trans {β γ : Type} {b : β} {r : γ × World P} (h : Reads w (b,w'))
    (h' : Reads w' r) : Reads w r :=
  ⟨h'.files.trans h.files,h'.log.trans h.log⟩

theorem Reads.same {β γ : Type} {b : β} (c : γ) (h : Reads w (b,w')) : Reads w (c,w') :=
  ⟨h.files,h.log⟩

theorem call_reads (os : Os P) (w : World P)
    (h : ∀ d a d', act d = .ok (a,d') → d' = d) : Reads w (call os act w) := by
  cases hc : call os act w with
  | mk r w' =>
    cases r with
    | error e => exact ⟨(call_error hc).1,(call_error hc).2.1⟩
    | ok a => exact ⟨h _ _ _ (call_ok hc).1,(call_ok hc).2⟩

end Calls

def lstat (p : P) (d : Files P) : Except IoError ((Kind × Nat) × Files P) :=
  match d p with
  | some n => .ok ((n.kind,n.ino),d)
  | none => .error .notFound

def openAt (p : P) (d : Files P) : Except IoError (Node × Files P) :=
  match d p with
  | some n => .ok (n,d)
  | none => .error .notFound

theorem lstat_reads (p : P) (d : Files P) (a : Kind × Nat) (d' : Files P)
    (h : lstat p d = .ok (a,d')) : d' = d := by
  unfold lstat at h
  split at h
  · exact (Prod.mk.inj (Except.ok.inj h)).2.symm
  · simp at h

theorem openAt_reads (p : P) (d : Files P) (a : Node) (d' : Files P)
    (h : openAt p d = .ok (a,d')) : d' = d := by
  unfold openAt at h
  split at h
  · exact (Prod.mk.inj (Except.ok.inj h)).2.symm
  · simp at h

/-- A change to the inode is seen at every path that leads to it. -/
def onInode (ino : Nat) (f : Node → Node) (d : Files P) : Files P where
  node p := (d p).map fun n => if n.ino = ino then { f n with ino := n.ino } else n
  next := d.next
  below p m h := by
    obtain ⟨n,hn,rfl⟩ := Option.map_eq_some_iff.mp h
    have hlt := d.below p n hn
    split <;> exact hlt

variable [DecidableEq P]

def Files.put (d : Files P) (p : P) (n : Node) : Files P where
  node := Function.update d p (some n)
  next := max d.next (n.ino + 1)
  below q m h := by
    by_cases hq : q = p
    · rw [hq,Function.update_self] at h
      cases h
      omega
    · rw [Function.update_of_ne hq] at h
      have hlt := d.below q m h
      omega

def Files.drop (d : Files P) (p : P) : Files P where
  node := Function.update d p none
  next := d.next
  below q m h := by
    by_cases hq : q = p
    · rw [hq,Function.update_self] at h
      cases h
    · rw [Function.update_of_ne hq] at h
      exact d.below q m h

def createNew (os : Os P) (p : P) (mode : Nat) (d : Files P) :
    Except IoError (Nat × Files P) :=
  match d p with
  | some _ => .error .alreadyExists
  | none =>
      .ok (os.alloc d,d.put p ⟨os.alloc d,.file,[],mode &&& (0o7777 ^^^ os.umask)⟩)

def fstat (ino : Nat) (d : Files P) : Except IoError (Nat × Files P) := .ok (ino,d)

def setMode (ino mode : Nat) (d : Files P) : Except IoError (Unit × Files P) :=
  .ok ((),onInode ino (fun n => { n with mode := mode }) d)

def extend (bytes : List UInt8) (n : Node) : Node := { n with bytes := n.bytes ++ bytes }

def writeAll (os : Os P) (ino : Nat) (bytes : List UInt8) (w : World P) :
    Except IoError Unit × World P :=
  match call os (fun d => .ok ((),onInode ino (extend bytes) d)) w with
  | (.ok u,w') => (.ok u,w')
  | (.error e,w') =>
      (.error e,
        { w' with files := onInode ino (extend (bytes.take (os.written w.calls))) w'.files })

/-- Two names of one inode are left as they are. -/
def rename (a b : P) (d : Files P) : Except IoError (Unit × Files P) :=
  match d a with
  | none => .error .notFound
  | some n =>
      match d b with
      | none => .ok ((),(d.drop a).put b n)
      | some m =>
          if m.ino = n.ino then .ok ((),d)
          else if m.kind = .dir then .error .isDirectory
          else .ok ((),(d.drop a).put b n)

def renameNoReplace (a b : P) (d : Files P) : Except IoError (Unit × Files P) :=
  match d a, d b with
  | none, _ => .error .notFound
  | some _, some _ => .error .alreadyExists
  | some n, none => .ok ((),(d.drop a).put b n)

def link (a b : P) (d : Files P) : Except IoError (Unit × Files P) :=
  match d a, d b with
  | none, _ => .error .notFound
  | some _, some _ => .error .alreadyExists
  | some n, none => .ok ((),d.put b n)

def unlink (p : P) (d : Files P) : Except IoError (Unit × Files P) :=
  match d p with
  | none => .error .notFound
  | some n => if n.kind = .dir then .error .isDirectory else .ok ((),d.drop p)

theorem onInode_update {d d' : Files P} {p : P} {n : Node} {f : Node → Node}
    (hd : d'.node = Function.update d p (some n)) (hf : (f n).ino = n.ino)
    (h : ∀ q m, d q = some m → m.ino ≠ n.ino) :
    (onInode n.ino f d').node = Function.update d p (some (f n)) := by
  funext q
  simp only [onInode,hd]
  by_cases hq : q = p
  · simp [hq,← hf]
  · rw [Function.update_of_ne hq,Function.update_of_ne hq]
    cases hn : d q with
    | none => rfl
    | some m => simp [h q m hn]

end Disk
