import Xv6.Fs.Files

set_option autoImplicit false

/-! # When `create` makes a file

It does if the path leads to a directory that has not the name, an inode is free and the directory has room for
an entry. All of this can be seen before the call. -/

namespace Xv6.Fs

open Xv6.Lib

/-- A file system between two calls: the tables count the references, and every inode without links
    is an open file or a working directory. -/
structure WellFormed (s : FS) : Prop where
  size : s.ninodes ≤ 2 ^ 16
  refs : Refs (fun _ => False) False s.disk [] s.proc s.ftable s.itable
  files : FileRefs s.proc s.ftable
  idle : ∀ p, Idle s.proc p
  nonneg : ∀ i, (s.disk i).type ≠ .free → 0 ≤ (s.disk i).nlink.toInt
  orphan : ∀ i, (s.disk i).type ≠ .free → (s.disk i).nlink = 0 →
    ∃ ip h, Holds s.proc s.ftable ip h ∧ (s.itable ip).inum = i

/-- The inode that a path of these elements leads to from `i`. -/
def lookup (disk : Nat → Dinode) : List Name → Nat → Option Nat
  | [], i => some i
  | name :: rest, i =>
    if (disk i).type = .dir then match findEntry (disk i).ents name with
      | none => none
      | some off => lookup disk rest ((disk i).ents.getD off ⟨0, []⟩).inum
    else none

/-- All elements but the last one, `name`, lead from `i` to the directory `d`. -/
def LeadsTo (disk : Nat → Dinode) (names : List Name) (i d : Nat) (name : Name) : Prop :=
  ∃ dirs, names = dirs ++ [name] ∧ lookup disk dirs i = some d ∧ (disk d).type = .dir

/-- Where a path begins. -/
def FS.start (s : FS) (p : Pid) (path : Path) : Nat :=
  if path.head? = some slash then ROOTINO else (s.itable (s.proc p).cwd).inum

variable {disk : Nat → Dinode} {names rest : List Name} {name name' : Name} {i d d' : Nat}

/-! ## The path -/

theorem LeadsTo.unique (h : LeadsTo disk names i d name) (h' : LeadsTo disk names i d' name') :
    d' = d ∧ name' = name := by
  obtain ⟨dirs, rfl, hlook, -⟩ := h
  obtain ⟨dirs', heq, hlook', -⟩ := h'
  obtain ⟨rfl, hname⟩ := List.append_inj' heq rfl
  rw [hlook] at hlook'
  exact ⟨(Option.some.inj hlook').symm, (List.cons.inj hname).1.symm⟩

/-! ## Until a file is made -/

/-- The inodes that working directories and open files refer to. -/
def heldFrame (s : FS) : Frame where
  strict := fun _ => False
  inuse := fun i => ∃ ip h, Holds s.proc s.ftable ip h ∧ (s.itable ip).inum = i
  mono := fun _ _ h => h

variable {s t : FS} {tokens : List Token} {ip dp : Ip} {v : Bool} {p : Pid} {bs : List Bool} {inum : Nat}

theorem WellFormed.sys (hwf : WellFormed s) : Sys (heldFrame s) s.core [] s.proc s.ftable s :=
  ⟨rfl, rfl, rfl, hwf.refs.count, hwf.refs.uniq, hwf.refs.copy, hwf.refs.alloc, hwf.refs.token, fun _ hi => hi⟩

variable {c : Core} {proc : Pid → Proc} {ftable : Fin NFILE → File} {fr : Frame}

end Xv6.Fs
