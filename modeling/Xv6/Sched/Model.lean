import Mathlib.Logic.Function.Basic
import Mathlib.Data.List.FinRange
import Xv6.Lib.Run
import Xv6.Proc.Table

set_option autoImplicit false

/-! # Kernel threads

`scheduler`, `sched`, `yield`, `forkret`, `sleep`, `wakeup`, `kkill`, `kfork` with `allocproc`, `kexit`
with `reparent`, and `kwait` of `kernel/proc.c`, with `acquire` and `release` of `kernel/spinlock.c`, on
any number of CPUs. A step is what a CPU does up to its next operation on a lock or its next `swtch`. A
lock is held by a CPU, as in `struct spinlock`: a process takes its `p->lock` on a CPU and the
scheduler of that CPU gives it back.

Every process has a kernel thread, and every CPU one for its scheduler. What other kernel code and user
code do with locks and channels is arbitrary. Memory, files and the saved registers are left out. -/

namespace Xv6.Sched

open Xv6.Lib
open Xv6.ProcTable (ProcState Chan Proc Table initproc freeproc)

abbrev Slot := Fin NPROC

/-- The locks other than `p->lock`: `wait_lock`, and those of the rest of the kernel. -/
inductive CondLock (L : Type) where
  | waitLock
  | other (l : L)
  deriving DecidableEq

inductive Lock (L : Type) where
  | proc (p : Slot)
  | cond (lk : CondLock L)
  deriving DecidableEq

/-! ## Threads -/

/-- Where `sleep` returns to, with the locks that its caller has besides `lk`. -/
inductive SleepRet (L : Type) where
  | code (locks : List (CondLock L))
  | kwait (addr : Uint64)
  deriving DecidableEq

/-- Where `wakeup` returns to. -/
inductive WakeRet (L : Type) where
  | code (locks : List (CondLock L))
  | reparent (status : BitVec 32) (rest : List Slot)
  | kexit (status : BitVec 32)
  deriving DecidableEq

inductive YieldPc where
  | lock | switch | sched | unlock
  deriving DecidableEq

inductive SleepPc where
  | lock | release | switch | sched | woken | relock
  deriving DecidableEq

inductive ForkPc where
  | fill | unlock | waitLock | parent | lock | run
  deriving DecidableEq

inductive ExitPc where
  | waitLock | parent | lock | zombie | unlock | sched | done
  deriving DecidableEq

/-- What a thread does next; a list of slots is what a scan has still to look at. -/
inductive Frame (L : Type) where
  /-- User code and other kernel code, with the locks that it has. -/
  | code (locks : List (CondLock L))
  | forkret
  | yield (pc : YieldPc)
  | sleep (pc : SleepPc) (chan : Chan) (lk : CondLock L) (ret : SleepRet L)
  | wakeup (chan : Option Chan) (rest : List Slot) (ret : WakeRet L)
  | wakeupAt (chan : Option Chan) (q : Slot) (rest : List Slot) (ret : WakeRet L)
  | kkill (pid : BitVec 32) (rest : List Slot)
  | kkillAt (pid : BitVec 32) (q : Slot) (rest : List Slot)
  | allocproc (rest : List Slot)
  | allocprocAt (q : Slot) (rest : List Slot)
  | kfork (pc : ForkPc) (np : Slot) (pid : BitVec 32)
  | kexit (pc : ExitPc) (status : BitVec 32)
  | reparent (status : BitVec 32) (rest : List Slot)
  | kwait (addr : Uint64)
  | waitScan (addr : Uint64) (rest : List Slot) (havekids : Bool)
  | waitChild (addr : Uint64) (q : Slot) (rest : List Slot)
  | waitKilled (addr : Uint64)
  | waitKilledAt (addr : Uint64)
  /-- `release(&wait_lock)`, and return. -/
  | waitDone (v : BitVec 32)
  | scheduler (rest : List Slot)
  | schedAt (p : Slot) (rest : List Slot)
  | schedSwtch (p : Slot) (rest : List Slot)
  | schedBack (p : Slot) (rest : List Slot)
  | schedDone (p : Slot) (rest : List Slot)
  deriving DecidableEq

/-- A thread, and the handler of an interrupt on top of it. -/
structure Thread (L : Type) where
  base : Frame L
  intr : Option (Frame L)
  deriving DecidableEq

def Thread.top {L : Type} (t : Thread L) : Frame L := t.intr.getD t.base

/-! ## States -/

/-- What happens to processes. -/
inductive Event where
  | forked (parent child : Slot) (pid : BitVec 32)
  /-- There was no memory for it. -/
  | freed (child : Slot)
  | exiting (p : Slot) (status : BitVec 32)
  | reparented (child : Slot)
  /-- By `kwait`; `status` is what it delivers. -/
  | reaped (parent child : Slot) (pid : BitVec 32) (status : Option (BitVec 32))
  deriving DecidableEq

structure State (C L : Type) where
  proc : Table
  nextpid : BitVec 32
  /-- `lk->cpu`, while the lock is held. -/
  holder : Lock L → Option C
  noff : C → Nat
  /-- `c->proc` -/
  cpuProc : C → Option Slot
  /-- The process whose thread the CPU executes; otherwise it executes its scheduler. -/
  on : C → Option Slot
  thread : Slot → Thread L
  scheduler : C → Thread L
  /-- What the last system call of a process has returned. -/
  ret : Slot → BitVec 32
  panicked : C → Bool
  /-- A history variable. -/
  log : List Event

inductive Op (L : Type) where
  | skip
  | acquire (lk : Lock L)
  | release (lk : Lock L)
  /-- `swtch(&c->context, &p->context)` -/
  | swtch (p : Slot)
  /-- `sched()`, up to its `swtch`. -/
  | sched

inductive Next (L : Type) where
  | top (f : Frame L)
  | push (f : Frame L)
  | pop

/-- What a step does: one operation, and changes of what the locks protect. -/
structure Effect (L : Type) where
  op : Op L
  next : Next L
  upd : Option (Slot × Proc)
  /-- `c->proc = ...` -/
  cpuProc : Option (Option Slot)
  /-- The slot whose thread is to start in `forkret`. -/
  fresh : Option Slot
  ret : Option (Slot × BitVec 32)
  event : Option Event

namespace Effect

variable {L : Type}

def of (op : Op L) (next : Next L) : Effect L := ⟨op, next, none, none, none, none, none⟩

def goto (f : Frame L) : Effect L := of .skip (.top f)
def acquire (lk : Lock L) (f : Frame L) : Effect L := of (.acquire lk) (.top f)
def release (lk : Lock L) (f : Frame L) : Effect L := of (.release lk) (.top f)
def sched (f : Frame L) : Effect L := of .sched (.top f)

def set (e : Effect L) (q : Slot) (v : Proc) : Effect L := { e with upd := some (q, v) }
def setCpu (e : Effect L) (p : Option Slot) : Effect L := { e with cpuProc := some p }
def returns (e : Effect L) (p : Slot) (v : BitVec 32) : Effect L := { e with ret := some (p, v) }
def note (e : Effect L) (ev : Event) : Effect L := { e with event := some ev }

end Effect

def allSlots : List Slot := List.finRange NPROC

/-! ## The functions of `proc.c` -/

section Functions

variable {C L : Type} [DecidableEq C] [DecidableEq L] (s : State C L)

open Effect

def forkret (p : Slot) : Effect L := release (.proc p) (.code [])

def yield (p : Slot) : YieldPc → Effect L
  | .lock => acquire (.proc p) (.yield .switch)
  | .switch => (goto (.yield .sched)).set p { s.proc p with state := .RUNNABLE }
  | .sched => sched (.yield .unlock)
  | .unlock => of (.release (.proc p)) .pop

def SleepRet.frame (lk : CondLock L) : SleepRet L → Frame L
  | .code locks => .code (lk :: locks)
  | .kwait addr => .waitScan addr allSlots false

def sleep (p : Slot) (chan : Chan) (lk : CondLock L) (ret : SleepRet L) : SleepPc → Effect L
  | .lock => acquire (.proc p) (.sleep .release chan lk ret)
  | .release => release (.cond lk) (.sleep .switch chan lk ret)
  | .switch => (goto (.sleep .sched chan lk ret)).set p
      { s.proc p with chan := some chan, state := .SLEEPING }
  | .sched => sched (.sleep .woken chan lk ret)
  | .woken => (release (.proc p) (.sleep .relock chan lk ret)).set p { s.proc p with chan := none }
  | .relock => acquire (.cond lk) (ret.frame lk)

def WakeRet.frame : WakeRet L → Frame L
  | .code locks => .code locks
  | .reparent status rest => .reparent status rest
  | .kexit status => .kexit .lock status

def wakeup (myproc : Option Slot) (chan : Option Chan) (ret : WakeRet L) : List Slot → Effect L
  | [] => goto ret.frame
  | q :: rest =>
    if myproc = some q then goto (.wakeup chan rest ret)
    else acquire (.proc q) (.wakeupAt chan q rest ret)

def wakeupAt (chan : Option Chan) (q : Slot) (rest : List Slot) (ret : WakeRet L) : Effect L :=
  if (s.proc q).state = .SLEEPING ∧ (s.proc q).chan = chan then
    (release (.proc q) (.wakeup chan rest ret)).set q { s.proc q with state := .RUNNABLE }
  else release (.proc q) (.wakeup chan rest ret)

def kkill (p : Slot) (pid : BitVec 32) : List Slot → Effect L
  | [] => (goto (.code [])).returns p (-1)
  | q :: rest => acquire (.proc q) (.kkillAt pid q rest)

def kkillAt (p : Slot) (pid : BitVec 32) (q : Slot) (rest : List Slot) : Effect L :=
  if (s.proc q).pid = pid then
    ((release (.proc q) (.code [])).set q (s.proc q).kill).returns p 0
  else release (.proc q) (.kkill pid rest)

def allocproc (p : Slot) : List Slot → Effect L
  | [] => (goto (.code [])).returns p (-1)
  | q :: rest => acquire (.proc q) (.allocprocAt q rest)

/-- With `allocpid`. -/
def allocprocAt (p q : Slot) (rest : List Slot) : Effect L :=
  if (s.proc q).state = .UNUSED then
    { ((goto (.kfork .fill q s.nextpid)).set q
        { s.proc q with pid := s.nextpid, state := .USED }).note (.forked p q s.nextpid) with
      fresh := some q }
  else release (.proc q) (.allocproc rest)

/-- `ok` says whether there is memory for the child. -/
def kfork (p np : Slot) (pid : BitVec 32) (ok : Bool) : ForkPc → Effect L
  | .fill =>
    if ok then goto (.kfork .unlock np pid)
    else (((release (.proc np) (.code [])).set np (freeproc (s.proc np))).returns p (-1)).note (.freed np)
  | .unlock => release (.proc np) (.kfork .waitLock np pid)
  | .waitLock => acquire (.cond .waitLock) (.kfork .parent np pid)
  | .parent => (release (.cond .waitLock) (.kfork .lock np pid)).set np
      { s.proc np with parent := some p }
  | .lock => acquire (.proc np) (.kfork .run np pid)
  | .run => ((release (.proc np) (.code [])).set np
      { s.proc np with state := .RUNNABLE }).returns p pid

def reparent (p : Slot) (status : BitVec 32) : List Slot → Effect L
  | [] => goto (.kexit .parent status)
  | pp :: rest =>
    if (s.proc pp).parent = some p then
      ((goto (.wakeup (some (.proc initproc)) allSlots (.reparent status rest))).set pp
        { s.proc pp with parent := some initproc }).note (.reparented pp)
    else goto (.reparent status rest)

/-- From `acquire(&wait_lock)` on. -/
def kexit (p : Slot) (status : BitVec 32) : ExitPc → Option (Effect L)
  | .waitLock => some (acquire (.cond .waitLock) (.reparent status allSlots))
  | .parent => some (goto (.wakeup ((s.proc p).parent.map .proc) allSlots (.kexit status)))
  | .lock => some (acquire (.proc p) (.kexit .zombie status))
  | .zombie => some ((goto (.kexit .unlock status)).set p
      { s.proc p with xstate := status, state := .ZOMBIE })
  | .unlock => some (release (.cond .waitLock) (.kexit .sched status))
  | .sched => some (sched (.kexit .done status))
  -- the panic `zombie exit`
  | .done => none

def waitScan (p : Slot) (addr : Uint64) (havekids : Bool) : List Slot → Effect L
  | [] => if havekids then goto (.waitKilled addr) else goto (.waitDone (-1))
  | q :: rest =>
    if (s.proc q).parent = some p then acquire (.proc q) (.waitChild addr q rest)
    else goto (.waitScan addr rest havekids)

/-- `ok` says whether `copyout` succeeds. -/
def waitChild (p : Slot) (addr : Uint64) (q : Slot) (rest : List Slot) (ok : Bool) : Effect L :=
  if (s.proc q).state = .ZOMBIE then
    if addr ≠ 0 ∧ ok = false then release (.proc q) (.waitDone (-1))
    else ((release (.proc q) (.waitDone (s.proc q).pid)).set q (freeproc (s.proc q))).note
      (.reaped p q (s.proc q).pid (if addr = 0 then none else some (s.proc q).xstate))
  else release (.proc q) (.waitScan addr rest true)

def waitKilledAt (p : Slot) (addr : Uint64) : Effect L :=
  release (.proc p) (if (s.proc p).killed then .waitDone (-1)
    else .sleep .lock (.proc p) .waitLock (.kwait addr))

def waitDone (p : Slot) (v : BitVec 32) : Effect L :=
  (release (.cond .waitLock) (.code [])).returns p v

def scheduler : List Slot → Effect L
  | [] => goto (.scheduler allSlots)
  | p :: rest => acquire (.proc p) (.schedAt p rest)

def schedAt (p : Slot) (rest : List Slot) : Effect L :=
  if (s.proc p).state = .RUNNABLE then
    ((goto (.schedSwtch p rest)).set p { s.proc p with state := .RUNNING }).setCpu (some p)
  else release (.proc p) (.scheduler rest)

def schedSwtch (p : Slot) (rest : List Slot) : Effect L := of (.swtch p) (.top (.schedBack p rest))

def schedBack (p : Slot) (rest : List Slot) : Effect L := (goto (.schedDone p rest)).setCpu none

def schedDone (p : Slot) (rest : List Slot) : Effect L := release (.proc p) (.scheduler rest)

/-- The next step of a thread in one of these functions; `ok` is the answer of the environment. -/
def row (c : C) (ok : Bool) : Frame L → Option (Effect L)
  | .code _ => none
  | .forkret => (s.cpuProc c).map forkret
  | .yield pc => (s.cpuProc c).map fun p => yield s p pc
  | .sleep pc chan lk ret => (s.cpuProc c).map fun p => sleep s p chan lk ret pc
  | .wakeup chan rest ret => some (wakeup (s.cpuProc c) chan ret rest)
  | .wakeupAt chan q rest ret => some (wakeupAt s chan q rest ret)
  | .kkill pid rest => (s.cpuProc c).map fun p => kkill p pid rest
  | .kkillAt pid q rest => (s.cpuProc c).map fun p => kkillAt s p pid q rest
  | .allocproc rest => (s.cpuProc c).map fun p => allocproc p rest
  | .allocprocAt q rest => (s.cpuProc c).map fun p => allocprocAt s p q rest
  | .kfork pc np pid => (s.cpuProc c).map fun p => kfork s p np pid ok pc
  | .kexit pc status => (s.cpuProc c).bind fun p => kexit s p status pc
  | .reparent status rest => (s.cpuProc c).map fun p => reparent s p status rest
  | .kwait addr => some (acquire (.cond .waitLock) (.waitScan addr allSlots false))
  | .waitScan addr rest havekids => (s.cpuProc c).map fun p => waitScan s p addr havekids rest
  | .waitChild addr q rest => (s.cpuProc c).map fun p => waitChild s p addr q rest ok
  | .waitKilled addr => (s.cpuProc c).map fun p => acquire (.proc p) (.waitKilledAt addr)
  | .waitKilledAt addr => (s.cpuProc c).map fun p => waitKilledAt s p addr
  | .waitDone v => (s.cpuProc c).map fun p => waitDone p v
  | .scheduler rest => some (scheduler rest)
  | .schedAt p rest => some (schedAt s p rest)
  | .schedSwtch p rest => some (schedSwtch p rest)
  | .schedBack p rest => some (schedBack p rest)
  | .schedDone p rest => some (schedDone p rest)

end Functions

/-! ## Steps -/

inductive Act (L : Type) where
  | run (ok : Bool)
  -- what other code does
  | acquire (l : L)
  | release (l : L)
  | sleep (chan : Chan) (lk : CondLock L)
  | wakeup (chan : Chan)
  -- system calls
  | kfork
  | kexit (status : BitVec 32)
  | kwait (addr : Uint64)
  | kkill (pid : BitVec 32)
  -- interrupts
  | intr
  | iret
  | timer
  deriving DecidableEq

structure Label (C L : Type) where
  cpu : C
  act : Act L

section Step

variable {C L : Type} [DecidableEq C] [DecidableEq L]

def State.current (s : State C L) (c : C) : Thread L :=
  match s.on c with
  | some p => s.thread p
  | none => s.scheduler c

def State.top (s : State C L) (c : C) : Frame L := (s.current c).top

open Effect

/-- What user code and other kernel code may do; a system call is made with no lock held. -/
def codeRow (s : State C L) (c : C) (locks : List (CondLock L)) : Act L → Option (Effect L)
  | .acquire l => some (acquire (.cond (.other l)) (.code (.other l :: locks)))
  | .release l => some (release (.cond (.other l)) (.code (locks.erase (.other l))))
  | .sleep chan lk =>
    if lk ∈ locks ∧ (s.on c).isSome then some (goto (.sleep .lock chan lk (.code (locks.erase lk))))
    else none
  | .wakeup chan => some (goto (.wakeup (some chan) allSlots (.code locks)))
  | .kfork => if locks = [] ∧ (s.current c).intr = none then some (goto (.allocproc allSlots)) else none
  | .kexit status =>
    if locks = [] ∧ (s.current c).intr = none then
      -- the exit of `initproc` is a panic
      (s.cpuProc c).bind fun p => if p = initproc then none
        else some ((goto (.kexit .waitLock status)).note (.exiting p status))
    else none
  | .kwait addr => if locks = [] ∧ (s.current c).intr = none then some (goto (.kwait addr)) else none
  | .kkill pid =>
    if locks = [] ∧ (s.current c).intr = none then some (goto (.kkill pid allSlots)) else none
  | _ => none

/-- Interrupts are off while the CPU holds a lock. -/
def intrRow (s : State C L) (c : C) : Act L → Option (Effect L)
  | .intr => if (s.current c).intr = none ∧ s.noff c = 0 then some (of .skip (.push (.code []))) else none
  | .iret => if (s.current c).intr = some (.code []) then some (of .skip .pop) else none
  | .timer =>
    if (s.current c).intr = none ∧ s.noff c = 0 ∧ (s.cpuProc c).isSome then
      some (of .skip (.push (.yield .lock)))
    else none
  | _ => none

def effect (s : State C L) (l : Label C L) : Option (Effect L) :=
  match l.act with
  | .run ok => row s l.cpu ok (s.top l.cpu)
  | .intr | .iret | .timer => intrRow s l.cpu l.act
  | _ => match s.top l.cpu with
    | .code locks => codeRow s l.cpu locks l.act
    | _ => none

def Next.apply (t : Thread L) : Next L → Thread L
  | .top f => if t.intr.isSome then { t with intr := some f } else { t with base := f }
  | .push f => { t with intr := some f }
  | .pop => { t with intr := none }

/-- The table with the slot that the effect changes. -/
def Effect.table (e : Effect L) (t : Table) : Table :=
  match e.upd with
  | some (q, v) => Function.update t q v
  | none => t

/-- The changes of an effect but for its operation. -/
def State.commit (s : State C L) (c : C) (e : Effect L) : State C L :=
  { s with
    proc := e.table s.proc
    nextpid := if e.fresh = none then s.nextpid else s.nextpid + 1
    cpuProc := Function.update s.cpuProc c (e.cpuProc.getD (s.cpuProc c))
    thread := fun p =>
      if s.on c = some p then e.next.apply (s.thread p)
      else if e.fresh = some p then ⟨.forkret, none⟩
      else s.thread p
    scheduler := fun c' =>
      if c' = c ∧ s.on c = none then e.next.apply (s.scheduler c') else s.scheduler c'
    ret := match e.ret with
      | some (p, v) => Function.update s.ret p v
      | none => s.ret
    log := s.log ++ e.event.toList }

def State.panic (s : State C L) (c : C) : State C L :=
  { s with panicked := Function.update s.panicked c true }

def State.exec (s : State C L) (c : C) (e : Effect L) : Option (State C L) :=
  match e.op with
  | .skip => some (s.commit c e)
  | .acquire lk =>
    match s.holder lk with
    | none => some { s.commit c e with
        holder := Function.update s.holder lk (some c)
        noff := Function.update s.noff c (s.noff c + 1) }
    | some c' => if c' = c then some (s.panic c) else none
  | .release lk =>
    if s.holder lk = some c then some { s.commit c e with
        holder := Function.update s.holder lk none
        noff := Function.update s.noff c (s.noff c - 1) }
    else some (s.panic c)
  | .swtch p => some { s.commit c e with on := Function.update s.on c (some p) }
  | .sched =>
    match s.on c with
    | some p =>
      if s.holder (.proc p) ≠ some c ∨ s.noff c ≠ 1 ∨ (s.proc p).state = .RUNNING then some (s.panic c)
      else some { s.commit c e with on := Function.update s.on c none }
    | none => none

def step (s : State C L) (l : Label C L) : Option (State C L) :=
  if s.panicked l.cpu then none else (effect s l).bind (s.exec l.cpu)

/-- After `procinit` and `userinit`, as the CPUs enter `scheduler`. -/
def boot (C L : Type) : State C L :=
  { proc := ProcTable.boot.proc, nextpid := 2, holder := fun _ => none, noff := fun _ => 0
    cpuProc := fun _ => none, on := fun _ => none, thread := fun _ => ⟨.forkret, none⟩
    scheduler := fun _ => ⟨.scheduler allSlots, none⟩, ret := fun _ => 0, panicked := fun _ => false
    log := [] }

end Step

end Xv6.Sched
