import Xv6.Lib.Run
import Xv6.Lib.Refcount
import Xv6.Param

set_option autoImplicit false

/-! # The file table and pipes

`kernel/file.c`, and the system calls of `kernel/sysfile.c`, `kernel/pipe.c` and `kernel/proc.c`
that make, copy and close descriptors. Each step is what a process does under one lock, and the
steps of the processes interleave. What the files are besides pipes is left out, and so is what
happens to inodes. -/

namespace Xv6.Ftable

open Xv6.Lib

/-- Open files per system. -/
def NFILE : Nat := 100

abbrev Pid := Fin NPROC

inductive FdType where
  | none | pipe | inode | device
  deriving DecidableEq

/-- The page of a pipe. -/
abbrev Page := Nat

structure File where
  type : FdType
  ref : Nat
  readable : Bool
  writable : Bool
  pipe : Page

structure Pipe where
  readopen : Bool
  writeopen : Bool

/-- Whether the end is open. -/
def Pipe.opened (P : Pipe) (writable : Bool) : Bool := if writable then P.writeopen else P.readopen

def Pipe.shut (P : Pipe) (writable : Bool) : Pipe :=
  if writable then { P with writeopen := false } else { P with readopen := false }

abbrev Descs := Fin NOFILE → Option (Fin NFILE)

/-- How `sys_open` opens a file. -/
structure Mode where
  device : Bool
  readable : Bool
  writable : Bool

/-- Where a process is. -/
inductive Pc where
  | unused
  /-- A child that `parent` makes. -/
  | embryo (parent : Pid)
  | zombie
  /-- Not in a system call. -/
  | user
  /-- `sys_open`: at `filealloc`, at `fdalloc`, and when the file has its descriptor. -/
  | openAlloc (m : Mode)
  | openFd (f : Fin NFILE) (m : Mode)
  | openSet (f : Fin NFILE) (fd : Fin NOFILE) (m : Mode)
  /-- `sys_dup`, at `filedup`. -/
  | dup (f : Fin NFILE) (fd : Fin NOFILE)
  /-- Before `fileclose` of each of the files; then the call returns `ret`. -/
  | close (l : List (Fin NFILE)) (ret : Int)
  /-- In `fileclose`, at `pipeclose`. -/
  | pipeclose (pi : Page) (writable : Bool) (l : List (Fin NFILE)) (ret : Int)
  /-- `pipealloc` -/
  | pipeAlloc0
  | pipeAlloc1 (f0 : Fin NFILE)
  | pipeKalloc (f0 f1 : Fin NFILE)
  /-- `sys_pipe`, at the first and the second `fdalloc` and at `copyout`. -/
  | pipeFd0 (rf wf : Fin NFILE)
  | pipeFd1 (fd0 : Fin NOFILE) (rf wf : Fin NFILE)
  | pipeOut (fd0 fd1 : Fin NOFILE) (rf wf : Fin NFILE)
  /-- `kexit`, with the descriptors that are left. -/
  | exit (l : List (Fin NOFILE))
  /-- `kexit` in the `fileclose` of `fd`, at `pipeclose`. -/
  | exitPipe (pi : Page) (writable : Bool) (fd : Fin NOFILE) (l : List (Fin NOFILE))
  /-- `kfork`, with the descriptors that are left. -/
  | fork (child : Pid) (l : List (Fin NOFILE))

structure Proc where
  pid : BitVec 32
  ofile : Descs
  pc : Pc
  /-- `ofile` when the last system call began. -/
  old : Descs
  /-- What the last system call returned. -/
  ret : Int

inductive Fault where
  | filedup | fileclose
  /-- `pipeclose` of an end that is closed, or of a page that has been freed. -/
  | pipeclose

structure State where
  ftable : Fin NFILE → File
  /-- The pages that are pipes. -/
  pipes : Page → Option Pipe
  procs : Pid → Proc
  nextpid : BitVec 32
  fault : Option Fault

def State.setProc (s : State) (p : Pid) (P : Proc) : State := { s with procs := Function.update s.procs p P }

def State.setFile (s : State) (f : Fin NFILE) (e : File) : State := { s with ftable := Function.update s.ftable f e }

/-- The process goes on at `pc`. -/
def State.at (s : State) (p : Pid) (pc : Pc) : State := s.setProc p { s.procs p with pc := pc }

/-- The system call returns. -/
def State.done (s : State) (p : Pid) (ret : Int) : State :=
  s.setProc p { s.procs p with
    pc := .user
    ret := ret }

/-- `p->ofile[fd] = f`, and the process goes on at `pc`. -/
def State.setFd (s : State) (p : Pid) (fd : Fin NOFILE) (f : Option (Fin NFILE)) (pc : Pc) : State :=
  s.setProc p { s.procs p with
    ofile := Function.update (s.procs p).ofile fd f
    pc := pc }

/-- A system call begins. -/
def State.enter (s : State) (p : Pid) (pc : Pc) : State :=
  s.setProc p { s.procs p with
    pc := pc
    old := (s.procs p).ofile }

/-- `allocproc` has found this slot, and `kfork` copied the memory. -/
def State.allocproc (s : State) (p child : Pid) : State :=
  { s with nextpid := s.nextpid + 1 }.setProc child { s.procs child with
    pid := s.nextpid
    pc := .embryo p }

/-- No memory is left, for `allocproc` or for the copy. -/
def State.nomem (s : State) (child : Pid) : State :=
  { s with nextpid := s.nextpid + 1 }.setProc child { s.procs child with pid := 0 }

def State.freeproc (s : State) (p : Pid) : State :=
  s.setProc p { s.procs p with
    pid := 0
    pc := .unused }

def State.panic (s : State) (e : Fault) : State := { s with fault := some e }

/-! ## The code -/

@[irreducible] def files : List (Fin NFILE) := List.finRange NFILE

@[irreducible] def fds : List (Fin NOFILE) := List.finRange NOFILE

def State.filealloc (s : State) : Option (Fin NFILE) := files.find? fun f => decide ((s.ftable f).ref = 0)

def Proc.fdalloc (P : Proc) : Option (Fin NOFILE) := fds.find? fun fd => decide (P.ofile fd = none)

/-- `fileclose` under the lock of the table: the end of a pipe that is to be closed, if it is the last reference. -/
def State.drop (s : State) (f : Fin NFILE) : State × Option (Page × Bool) :=
  let e := s.ftable f
  if 1 < e.ref then (s.setFile f { e with ref := e.ref - 1 }, none)
  else (s.setFile f { e with
    ref := 0
    type := .none }, if e.type = .pipe then some (e.pipe, e.writable) else none)

/-- `pipeclose`; the page is freed once both ends are closed. -/
def State.pipeclose (s : State) (pi : Page) (writable : Bool) : State :=
  match s.pipes pi with
  | none => s.panic .pipeclose
  | some P =>
    if P.opened writable = false then s.panic .pipeclose
    else
      let P' := P.shut writable
      { s with pipes := Function.update s.pipes pi (if P'.readopen = false ∧ P'.writeopen = false then none else some P') }

/-- What a process that is in a system call does next. `answer` is the page that `kalloc` has returned, and `none` if
    it, or `copyout`, has failed. -/
def resume (s : State) (p : Pid) (answer : Option Page) : Option State :=
  let P := s.procs p
  match P.pc with
  | .unused | .embryo _ | .zombie | .user => none
  | .openAlloc m => match s.filealloc with
    | none => some (s.done p (-1))
    | some f => some ((s.setFile f { s.ftable f with ref := 1 }).at p (.openFd f m))
  | .openFd f m => match P.fdalloc with
    | none => some (s.at p (.close [f] (-1)))
    | some fd => some (s.setFd p fd (some f) (.openSet f fd m))
  | .openSet f fd m => some ((s.setFile f { s.ftable f with
      type := if m.device then .device else .inode
      readable := m.readable
      writable := m.writable }).done p fd.val)
  | .dup f fd =>
    if (s.ftable f).ref < 1 then some (s.panic .filedup)
    else some ((s.setFile f { s.ftable f with ref := (s.ftable f).ref + 1 }).done p fd.val)
  | .close [] ret => some (s.done p ret)
  | .close (f :: l) ret =>
    if (s.ftable f).ref < 1 then some (s.panic .fileclose)
    else match s.drop f with
      | (t, none) => some (t.at p (.close l ret))
      | (t, some (pi, w)) => some (t.at p (.pipeclose pi w l ret))
  | .pipeclose pi w l ret => some ((s.pipeclose pi w).at p (.close l ret))
  | .pipeAlloc0 => match s.filealloc with
    | none => some (s.done p (-1))
    | some f0 => some ((s.setFile f0 { s.ftable f0 with ref := 1 }).at p (.pipeAlloc1 f0))
  | .pipeAlloc1 f0 => match s.filealloc with
    | none => some (s.at p (.close [f0] (-1)))
    | some f1 => some ((s.setFile f1 { s.ftable f1 with ref := 1 }).at p (.pipeKalloc f0 f1))
  | .pipeKalloc f0 f1 => match answer with
    | none => some (s.at p (.close [f0, f1] (-1)))
    | some pi => match s.pipes pi with
      -- a page that is in use is not returned
      | some _ => none
      | none =>
        let t := s.setFile f0 { s.ftable f0 with
          type := .pipe
          readable := true
          writable := false
          pipe := pi }
        let t := t.setFile f1 { t.ftable f1 with
          type := .pipe
          readable := false
          writable := true
          pipe := pi }
        some ({ t with pipes := Function.update t.pipes pi (some ⟨true, true⟩) }.at p (.pipeFd0 f0 f1))
  | .pipeFd0 rf wf => match P.fdalloc with
    | none => some (s.at p (.close [rf, wf] (-1)))
    | some fd0 => some (s.setFd p fd0 (some rf) (.pipeFd1 fd0 rf wf))
  | .pipeFd1 fd0 rf wf => match P.fdalloc with
    | none => some (s.setFd p fd0 none (.close [rf, wf] (-1)))
    | some fd1 => some (s.setFd p fd1 (some wf) (.pipeOut fd0 fd1 rf wf))
  | .pipeOut fd0 fd1 rf wf => match answer with
    | none => some ((s.setFd p fd0 none P.pc).setFd p fd1 none (.close [rf, wf] (-1)))
    | some _ => some (s.done p 0)
  | .exit [] => some (s.at p .zombie)
  | .exit (fd :: l) => match P.ofile fd with
    | none => some (s.at p (.exit l))
    | some f =>
      if (s.ftable f).ref < 1 then some (s.panic .fileclose)
      else match s.drop f with
        | (t, none) => some (t.setFd p fd none (.exit l))
        | (t, some (pi, w)) => some (t.at p (.exitPipe pi w fd l))
  | .exitPipe pi w fd l => some ((s.pipeclose pi w).setFd p fd none (.exit l))
  -- the child is `RUNNABLE`, and returns 0
  | .fork child [] => some ((s.done p (s.procs child).pid.toInt).done child 0)
  | .fork child (fd :: l) => match P.ofile fd with
    | none => some (s.at p (.fork child l))
    | some f =>
      if (s.ftable f).ref < 1 then some (s.panic .filedup)
      else
        let t := (s.setFile f { s.ftable f with ref := (s.ftable f).ref + 1 }).at p (.fork child l)
        some (t.setFd child fd (some f) (t.procs child).pc)

theorem toNat_lt_nofile {fd : Int} (h : 0 ≤ fd ∧ fd.toNat < NOFILE) : fd.toNat < NOFILE := h.2

/-- `argfd` -/
def Proc.argfd (P : Proc) (fd : Int) : Option (Fin NOFILE × Fin NFILE) :=
  if h : 0 ≤ fd ∧ fd.toNat < NOFILE then
    (P.ofile ⟨fd.toNat, toNat_lt_nofile h⟩).map fun f => (⟨fd.toNat, toNat_lt_nofile h⟩, f)
  else none

inductive Label where
  /-- `found`: the path leads to an inode that may be opened so. -/
  | sysOpen (found : Bool) (m : Mode)
  | sysDup (fd : Int)
  | sysClose (fd : Int)
  | sysPipe
  /-- The slot that `allocproc` finds, and whether there is memory for the child. -/
  | kfork (child : Option Pid) (memory : Bool)
  | kexit
  /-- `kwait` frees the slot of a process. -/
  | freeproc
  | resume (answer : Option Page)

/-- One process does one step. -/
def step (s : State) (l : Pid × Label) : Option State :=
  let p := l.1
  let P := s.procs p
  match s.fault, P.pc, l.2 with
  | some _, _, _ => none
  | none, .user, .sysOpen found m => some (if found then s.enter p (.openAlloc m) else (s.enter p .user).done p (-1))
  | none, .user, .sysDup fd => match P.argfd fd with
    | none => some ((s.enter p .user).done p (-1))
    | some (_, f) => match P.fdalloc with
      | none => some ((s.enter p .user).done p (-1))
      | some fd => some ((s.enter p .user).setFd p fd (some f) (.dup f fd))
  | none, .user, .sysClose fd => match P.argfd fd with
    | none => some ((s.enter p .user).done p (-1))
    | some (fd, f) => some ((s.enter p .user).setFd p fd none (.close [f] 0))
  | none, .user, .sysPipe => some (s.enter p .pipeAlloc0)
  | none, .user, .kfork none _ => some ((s.enter p .user).done p (-1))
  | none, .user, .kfork (some child) memory => match (s.procs child).pc with
    | .unused => some (if memory then (s.allocproc p child).enter p (.fork child fds) else
        ((s.nomem child).enter p .user).done p (-1))
    | _ => none
  | none, .user, .kexit => some (s.enter p (.exit fds))
  | none, .zombie, .freeproc => some (s.freeproc p)
  | none, _, .resume answer => resume s p answer
  | none, _, _ => none

/-- No file is open, and no process is in a system call. -/
def Boot (s : State) : Prop :=
  (∀ f, (s.ftable f).ref = 0 ∧ (s.ftable f).type = .none) ∧ (∀ pi, s.pipes pi = none) ∧
    (∀ p, ((s.procs p).pc = .user ∨ (s.procs p).pc = .unused) ∧ (∀ fd, (s.procs p).ofile fd = none) ∧
      (s.procs p).old = (s.procs p).ofile) ∧ s.fault = none

end Xv6.Ftable
