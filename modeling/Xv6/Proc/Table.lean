import Mathlib.Logic.Function.Basic
import Mathlib.Data.List.FinRange
import Xv6.Lib.Run
import Xv6.Param

set_option autoImplicit false

/-! # The process table

`kernel/proc.c`: `allocproc`, `freeproc`, `kfork`, `kexit`, `kwait`, `kkill` and `setkilled`, with
`sleep`, `wakeup` and the scheduler as far as they change `p->state`. A step is one critical section
under `p->lock` or `wait_lock`: the scans of `allocproc` and `kkill` look at one slot in each step,
and other processes may run in between. `kwait` and `kexit` hold `wait_lock` all along and are one
step each. Only the fields that these functions compare or pass on are kept; memory, files and the
working directory are not. -/

namespace Xv6.ProcTable

open Xv6.Lib

instance : NeZero NPROC := ⟨by decide⟩

inductive ProcState where
  | UNUSED | USED | SLEEPING | RUNNABLE | RUNNING | ZOMBIE
  deriving DecidableEq

/-- What a process sleeps on: a `struct proc` in `kwait`, anything else elsewhere. -/
inductive Chan where
  | proc (p : Fin NPROC)
  | other (addr : Uint64)
  deriving DecidableEq

/-- `struct proc`. -/
structure Proc where
  state : ProcState
  chan : Option Chan
  killed : Bool
  xstate : BitVec 32
  pid : BitVec 32
  parent : Option (Fin NPROC)
  deriving DecidableEq

/-- `proc[NPROC]`. -/
abbrev Table := Fin NPROC → Proc

/-- What a process is executing; the lists are the slots a scan has still to look at. -/
inductive Pc where
  /-- User code, or a system call that touches no other slot. -/
  | user
  /-- `kfork`: in the loop of `allocproc`. -/
  | allocproc (rest : List (Fin NPROC))
  /-- `kfork`: before `np->parent = p`. -/
  | forkParent (np : Fin NPROC) (pid : BitVec 32)
  /-- `kfork`: before `np->state = RUNNABLE`. -/
  | forkRun (np : Fin NPROC) (pid : BitVec 32)
  | kwait
  /-- In the loop of `kkill`. -/
  | kkill (pid : BitVec 32) (rest : List (Fin NPROC))
  deriving DecidableEq

structure State where
  proc : Table
  nextpid : BitVec 32
  pc : Fin NPROC → Pc
  /-- The value the last system call of a process has returned. -/
  ret : Fin NPROC → BitVec 32

inductive Label where
  | scheduler (p : Fin NPROC)
  | yield (p : Fin NPROC)
  | sleep (p : Fin NPROC) (chan : Chan)
  | wakeup (chan : Chan)
  | setkilled (p : Fin NPROC)
  | callFork (p : Fin NPROC)
  | callWait (p : Fin NPROC)
  | callKill (p : Fin NPROC) (pid : BitVec 32)
  | kexit (p : Fin NPROC) (status : BitVec 32)
  /-- `p` goes on with its system call; `ok` says whether memory is found, or `copyout` succeeds. -/
  | run (p : Fin NPROC) (ok : Bool)

def initproc : Fin NPROC := 0

def freeproc (p : Proc) : Proc :=
  { p with pid := 0, parent := none, chan := none, killed := false, xstate := 0, state := .UNUSED }

/-- What `kkill` does to the slot it has found. -/
def Proc.kill (p : Proc) : Proc :=
  { p with killed := true, state := if p.state = .SLEEPING then .RUNNABLE else p.state }

/-- The loop of `kkill` on a table that nobody else changes. -/
def kkillLoop (t : Table) (pid : BitVec 32) : List (Fin NPROC) → Table × Int
  | [] => (t, -1)
  | p :: rest =>
    if (t p).pid = pid then (Function.update t p (t p).kill, 0) else kkillLoop t pid rest

def kkill (t : Table) (pid : BitVec 32) : Table × Int := kkillLoop t pid (List.finRange NPROC)

def wakeup (t : Table) (chan : Chan) : Table := fun p =>
  if (t p).state = .SLEEPING ∧ (t p).chan = some chan then { t p with state := .RUNNABLE } else t p

/-- `reparent`, with the wakeup of `initproc` that comes with each child passed on. -/
def reparent (t : Table) (p : Fin NPROC) : Table :=
  let t' : Table := fun pp => if (t pp).parent = some p then { t pp with parent := some initproc } else t pp
  if ∃ pp, (t pp).parent = some p then wakeup t' (.proc initproc) else t'

/-- `kexit` from the moment it holds `wait_lock`. -/
def kexit (t : Table) (p : Fin NPROC) (status : BitVec 32) : Table :=
  let t := reparent t p
  let t := match (t p).parent with
    | some parent => wakeup t (.proc parent)
    | none => t
  Function.update t p { t p with xstate := status, state := .ZOMBIE }

namespace State

def setProc (s : State) (p : Fin NPROC) (f : Proc → Proc) : State :=
  { s with proc := Function.update s.proc p (f (s.proc p)) }

def setPc (s : State) (p : Fin NPROC) (c : Pc) : State :=
  { s with pc := Function.update s.pc p c }

/-- The system call of `p` returns `v`. -/
def returns (s : State) (p : Fin NPROC) (v : BitVec 32) : State :=
  { s.setPc p .user with ret := Function.update s.ret p v }

end State

/-- `allocproc` has found slot `np`; the slot stays locked until `kfork` has filled it, or has freed
    it for want of memory. -/
def allocFound (s : State) (p np : Fin NPROC) (mem : Bool) : State :=
  let pid := s.nextpid
  let s := { s with nextpid := s.nextpid + 1 }
  let s := s.setProc np fun q => { q with pid := pid, state := .USED }
  -- the child starts in user space, where its `kfork` returns 0
  if mem then (s.returns np 0).setPc p (.forkParent np pid)
  else (s.setProc np freeproc).returns p (-1)

/-- One round of the loop of `kwait`. -/
def kwait (s : State) (p : Fin NPROC) (copyout : Bool) : State :=
  match (List.finRange NPROC).find? fun pp => (s.proc pp).parent = some p ∧ (s.proc pp).state = .ZOMBIE with
  | some pp =>
    if copyout then (s.setProc pp freeproc).returns p (s.proc pp).pid else s.returns p (-1)
  | none =>
    if (¬ ∃ pp, (s.proc pp).parent = some p) ∨ (s.proc p).killed then s.returns p (-1)
    else s.setProc p fun q => { q with state := .SLEEPING, chan := some (.proc p) }

/-- `p` goes on with its system call. -/
def run (s : State) (p : Fin NPROC) (ok : Bool) : Option State :=
  match s.pc p with
  | .user => none
  | .allocproc [] => some (s.returns p (-1))
  | .allocproc (np :: rest) =>
    if (s.proc np).state = .UNUSED then some (allocFound s p np ok)
    else some (s.setPc p (.allocproc rest))
  | .forkParent np pid =>
    some ((s.setProc np fun q => { q with parent := some p }).setPc p (.forkRun np pid))
  | .forkRun np pid => some ((s.setProc np fun q => { q with state := .RUNNABLE }).returns p pid)
  | .kwait => some (kwait s p ok)
  | .kkill _ [] => some (s.returns p (-1))
  | .kkill pid (q :: rest) =>
    if (s.proc q).pid = pid then some ((s.setProc q Proc.kill).returns p 0)
    else some (s.setPc p (.kkill pid rest))

/-- `p` runs, and is not inside one of the system calls modelled here. -/
def State.atUser (s : State) (p : Fin NPROC) : Prop :=
  (s.proc p).state = .RUNNING ∧ s.pc p = .user

instance (s : State) (p : Fin NPROC) : Decidable (s.atUser p) :=
  inferInstanceAs (Decidable (_ ∧ _))

def step (s : State) : Label → Option State
  | .scheduler p =>
    if (s.proc p).state = .RUNNABLE then
      some (s.setProc p fun q => { q with state := .RUNNING, chan := none })
    else none
  | .yield p =>
    if (s.proc p).state = .RUNNING then some (s.setProc p fun q => { q with state := .RUNNABLE })
    else none
  | .sleep p chan =>
    if s.atUser p then some (s.setProc p fun q => { q with state := .SLEEPING, chan := some chan })
    else none
  | .wakeup chan => some { s with proc := wakeup s.proc chan }
  | .setkilled p =>
    if s.atUser p then some (s.setProc p fun q => { q with killed := true }) else none
  | .callFork p => if s.atUser p then some (s.setPc p (.allocproc (List.finRange NPROC))) else none
  | .callWait p => if s.atUser p then some (s.setPc p .kwait) else none
  | .callKill p pid =>
    if s.atUser p then some (s.setPc p (.kkill pid (List.finRange NPROC))) else none
  | .kexit p status =>
    -- the exit of `initproc` is a panic
    if s.atUser p ∧ p ≠ initproc then some { s with proc := kexit s.proc p status } else none
  | .run p ok => if (s.proc p).state = .RUNNING then run s p ok else none

/-- A slot that has never been used. -/
def Proc.zero : Proc :=
  { state := .UNUSED, chan := none, killed := false, xstate := 0, pid := 0, parent := none }

/-- After `procinit` and `userinit`. -/
def boot : State :=
  { proc := Function.update (fun _ => Proc.zero) initproc { Proc.zero with pid := 1, state := .RUNNABLE }
    nextpid := 2, pc := fun _ => .user, ret := fun _ => 0 }

end Xv6.ProcTable
