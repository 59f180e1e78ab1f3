import Mathlib.Logic.Function.Basic
import Xv6.Lib.Run

set_option autoImplicit false

/-! # Spinlocks and the interrupt state

`acquire`, `release`, `holding`, `push_off` and `pop_off` of `kernel/spinlock.c`, with `sched`,
`scheduler` and `swtch` of `kernel/proc.c`, on any number of CPUs. A step is one access to a lock, to
`sstatus` or to the `struct cpu`; an interrupt may come before every step that finds interrupts on.

A thread may be the kernel thread of a process or the scheduler of a CPU. What the kernel threads and
the interrupt handlers do between two calls is arbitrary, so `yield`, `sleep`, `wakeup`, `forkret` and
`kerneltrap` are some of their runs. Of the process table only the saved contexts are here: whether
`p->state` is what a test looks for is an input of the step. -/

namespace Xv6.Interrupts

open Xv6.Lib

inductive Lock (P L : Type) where
  /-- `p->lock` -/
  | proc (p : P)
  | other (l : L)
  deriving DecidableEq

/-- `struct spinlock` without its name. -/
structure Spinlock (C : Type) where
  locked : Bool
  cpu : Option C
  deriving DecidableEq

/-! ## Threads -/

inductive Panic where
  | acquire | release | popOffInterruptible | popOff
  | schedLock | schedLocks | schedRunning | schedInterruptible
  deriving DecidableEq

/-- Who calls `push_off`. -/
inductive Pusher (P L : Type) where
  | acquire (lk : Lock P L)
  /-- Code outside these functions, such as `myproc`. -/
  | code
  deriving DecidableEq

/-- Who calls `pop_off`. -/
inductive Popper where
  | release
  | code
  deriving DecidableEq

inductive PushPc where
  | intrGet
  | intrOff (old : Bool)
  | count (old : Bool)
  deriving DecidableEq

/-- Who calls `holding`. -/
inductive Asker (P : Type) where
  | acquire
  | release
  | sched (p : P)
  deriving DecidableEq

inductive HoldingPc where
  | locked | cpu
  deriving DecidableEq

inductive AcquirePc where
  | swap | record
  deriving DecidableEq

inductive ReleasePc where
  | clear | unlock
  deriving DecidableEq

inductive SchedPc (P : Type) where
  | checks (p : P)
  | swtch (p : P) (intena : Bool)
  | back (intena : Bool)
  deriving DecidableEq

/-- What a thread does next. -/
inductive Act (P L : Type) where
  /-- Code outside these functions. -/
  | code
  | pushOff (pc : PushPc) (caller : Pusher P L)
  | holding (lk : Lock P L) (pc : HoldingPc) (caller : Asker P)
  | acquire (lk : Lock P L) (pc : AcquirePc)
  | release (lk : Lock P L) (pc : ReleasePc)
  | popOff (caller : Popper)
  | sched (pc : SchedPc P)
  | panic (msg : Panic)
  deriving DecidableEq

/-- The loop of `scheduler`, with the processes it has still to look at. -/
inductive SchedulerPc (P : Type) where
  | intrOn
  | intrOff
  | scan (rest : List P)
  | got (p : P) (rest : List P)
  | back (p : P) (rest : List P)
  deriving DecidableEq

/-- A kernel thread that is not on a CPU. -/
structure Context (P L : Type) where
  top : Act P L
  below : List (Act P L)
  /-- A history variable: the `began` and the `base` of the CPU where it gave that up. None for a thread that begins in
      `forkret`, with the lock that the scheduler has taken. -/
  began : Option (Bool × Bool)
  deriving DecidableEq

/-! ## States -/

structure Cpu (P L : Type) where
  noff : Nat
  intena : Bool
  proc : Option P
  /-- `SSTATUS_SIE` -/
  sie : Bool
  /-- The process whose kernel thread is on the CPU; otherwise the scheduler is. -/
  running : Option P
  scheduler : SchedulerPc P
  top : Act P L
  /-- What the interrupts that have not returned have interrupted. -/
  below : List (Act P L)
  /-- A history variable: the locks that the thread on the CPU has. -/
  held : List (Lock P L)
  /-- A history variable: the calls of `push_off` of its own that have not been undone, with the locks that it had. -/
  pairs : List (List (Lock P L))
  /-- A history variable: whether interrupts were on where it acquired the first of its locks. -/
  began : Bool
  /-- A history variable: whether interrupts were on where `noff` was 0 last. -/
  base : Bool
  deriving DecidableEq

structure State (C P L : Type) where
  cpus : C → Cpu P L
  locks : Lock P L → Spinlock C
  parked : P → Option (Context P L)

/-- The calls of kernel code. -/
inductive Call (P L : Type) where
  | acquire (lk : Lock P L)
  | release (lk : Lock P L)
  | pushOff
  | popOff
  | sched
  | intrOn
  | intrOff
  deriving DecidableEq

inductive Label (C P L : Type) where
  | call (c : C) (f : Call P L)
  /-- `state` answers the test of `p->state`, where there is one. -/
  | exec (c : C) (state : Bool)
  | interrupt (c : C)
  | sret (c : C)
  /-- `allocproc` prepares the context of `p`. -/
  | fork (p : P)
  deriving DecidableEq

variable {C P L : Type}

/-- A kernel thread that begins in `forkret`. -/
def Context.forkret : Context P L := ⟨.code, [], none⟩

/-- A CPU where it calls `scheduler`. -/
def Cpu.boot : Cpu P L :=
  { noff := 0, intena := false, proc := none, sie := false, running := none, scheduler := .intrOn,
    top := .code, below := [], held := [], pairs := [], began := false, base := false }

def boot : State C P L :=
  { cpus := fun _ => .boot, locks := fun _ => ⟨false, none⟩, parked := fun _ => some .forkret }

/-! ## What one CPU does for itself -/

namespace Cpu

def goto (u : Cpu P L) (a : Act P L) : Cpu P L := { u with top := a }

def panic (u : Cpu P L) (msg : Panic) : Cpu P L := u.goto (.panic msg)

end Cpu

def Pusher.next : Pusher P L → Act P L
  | .acquire lk => .holding lk .locked .acquire
  | .code => .code

/-- The calls of `push_off` that the thread has to undo. -/
def Pusher.pairs (held : List (Lock P L)) (pairs : List (List (Lock P L))) : Pusher P L → List (List (Lock P L))
  | .acquire _ => pairs
  | .code => held :: pairs

/-- What the caller of `holding` does with the result. -/
def Asker.next (lk : Lock P L) (r : Bool) : Asker P → Act P L
  | .acquire => if r then .panic .acquire else .acquire lk .swap
  | .release => if r then .release lk .clear else .panic .release
  | .sched p => if r then .sched (.checks p) else .panic .schedLock

namespace Cpu

variable [DecidableEq P] [DecidableEq L]

def pushOff (u : Cpu P L) (caller : Pusher P L) : PushPc → Cpu P L
  | .intrGet => u.goto (.pushOff (.intrOff u.sie) caller)
  | .intrOff old =>
      { u with
        sie := false, top := .pushOff (.count old) caller,
        began := if u.held = [] ∧ caller ≠ .code then u.sie else u.began,
        base := if u.held = [] ∧ u.pairs = [] then u.sie else u.base }
  | .count old =>
      { u with
        intena := if u.noff = 0 then old else u.intena, noff := u.noff + 1, top := caller.next,
        pairs := caller.pairs u.held u.pairs }

def popOff (u : Cpu P L) : Cpu P L :=
  if u.sie = true then u.panic .popOffInterruptible
  else if u.noff < 1 then u.panic .popOff
  else { u with noff := u.noff - 1, sie := decide (u.noff - 1 = 0) && u.intena, top := .code }

def schedChecks (u : Cpu P L) (p : P) (running : Bool) : Cpu P L :=
  if u.noff ≠ 1 then u.panic .schedLocks
  else if running = true then u.panic .schedRunning
  else if u.sie = true then u.panic .schedInterruptible
  else u.goto (.sched (.swtch p u.intena))

end Cpu

/-! ## Steps -/

variable [DecidableEq C] [DecidableEq P] [DecidableEq L]

namespace State

def setCpu (s : State C P L) (c : C) (u : Cpu P L) : State C P L :=
  { s with cpus := Function.update s.cpus c u }

def setLock (s : State C P L) (lk : Lock P L) (v : Spinlock C) : State C P L :=
  { s with locks := Function.update s.locks lk v }

def park (s : State C P L) (p : P) (t : Option (Context P L)) : State C P L :=
  { s with parked := Function.update s.parked p t }

end State

def execHolding (s : State C P L) (c : C) (lk : Lock P L) (caller : Asker P) : HoldingPc → State C P L
  | .locked =>
      s.setCpu c ((s.cpus c).goto
        (if (s.locks lk).locked = true then .holding lk .cpu caller else caller.next lk false))
  | .cpu => s.setCpu c ((s.cpus c).goto (caller.next lk (decide ((s.locks lk).cpu = some c))))

def execAcquire (s : State C P L) (c : C) (lk : Lock P L) : AcquirePc → State C P L
  | .swap =>
      -- the loop goes on until the swap finds the lock free
      if (s.locks lk).locked = true then s
      else (s.setLock lk { s.locks lk with locked := true }).setCpu c
        { s.cpus c with top := .acquire lk .record, held := lk :: (s.cpus c).held }
  | .record =>
      (s.setLock lk { s.locks lk with cpu := some c }).setCpu c ((s.cpus c).goto .code)

def execRelease (s : State C P L) (c : C) (lk : Lock P L) : ReleasePc → State C P L
  | .clear =>
      (s.setLock lk { s.locks lk with cpu := none }).setCpu c
        ((s.cpus c).goto (.release lk .unlock))
  | .unlock =>
      (s.setLock lk { s.locks lk with locked := false }).setCpu c
        { s.cpus c with top := .popOff .release, held := (s.cpus c).held.erase lk }

def execSched (s : State C P L) (c : C) (state : Bool) : SchedPc P → State C P L
  | .checks p => s.setCpu c ((s.cpus c).schedChecks p state)
  | .swtch p intena =>
      -- the scheduler goes on where it has called `swtch`
      (s.park p (some ⟨.sched (.back intena), (s.cpus c).below,
        some ((s.cpus c).began, (s.cpus c).base)⟩)).setCpu c
        { s.cpus c with running := none, top := .code, below := [] }
  | .back intena => s.setCpu c { s.cpus c with intena := intena, top := .code }

/-- `scheduler` puts the thread with context `t` on the CPU. -/
def resume (s : State C P L) (c : C) (p : P) (rest : List P) (t : Context P L) : State C P L :=
  (s.park p none).setCpu c
    { s.cpus c with
      proc := some p, running := some p, scheduler := .back p rest, top := t.top, below := t.below,
      began := (t.began.map Prod.fst).getD (s.cpus c).began,
      base := (t.began.map Prod.snd).getD (s.cpus c).base }

def execScheduler (procs : List P) (s : State C P L) (c : C) (runnable : Bool) :
    SchedulerPc P → Option (State C P L)
  | .intrOn => some (s.setCpu c { s.cpus c with sie := true, scheduler := .intrOff })
  | .intrOff => some (s.setCpu c { s.cpus c with sie := false, scheduler := .scan procs })
  | .scan [] => some (s.setCpu c { s.cpus c with scheduler := .intrOn })
  | .scan (p :: rest) =>
      some (s.setCpu c
        { s.cpus c with scheduler := .got p rest, top := .pushOff .intrGet (.acquire (.proc p)) })
  | .got p rest =>
      if runnable = true then (s.parked p).map (resume s c p rest)
      else some (s.setCpu c
        { s.cpus c with scheduler := .scan rest, top := .holding (.proc p) .locked .release })
  | .back p rest =>
      some (s.setCpu c
        { s.cpus c with
          proc := none, scheduler := .scan rest, top := .holding (.proc p) .locked .release })

def exec (procs : List P) (s : State C P L) (c : C) (state : Bool) : Act P L → Option (State C P L)
  | .code =>
      if (s.cpus c).running = none ∧ (s.cpus c).below = [] then
        execScheduler procs s c state (s.cpus c).scheduler
      else none
  | .pushOff pc caller => some (s.setCpu c ((s.cpus c).pushOff caller pc))
  | .holding lk pc caller => some (execHolding s c lk caller pc)
  | .acquire lk pc => some (execAcquire s c lk pc)
  | .release lk pc => some (execRelease s c lk pc)
  | .popOff _ => some (s.setCpu c (s.cpus c).popOff)
  | .sched pc => some (execSched s c state pc)
  | .panic _ => none

def call (s : State C P L) (c : C) : Call P L → Option (State C P L)
  | .acquire lk => some (s.setCpu c ((s.cpus c).goto (.pushOff .intrGet (.acquire lk))))
  | .release lk => some (s.setCpu c ((s.cpus c).goto (.holding lk .locked .release)))
  | .pushOff => some (s.setCpu c ((s.cpus c).goto (.pushOff .intrGet .code)))
  | .popOff => some (s.setCpu c { s.cpus c with pairs := (s.cpus c).pairs.tail, top := .popOff .code })
  | .sched =>
      -- `p = myproc()`, where interrupts are off already
      (s.cpus c).proc.map fun p => s.setCpu c ((s.cpus c).goto (.holding (.proc p) .locked (.sched p)))
  | .intrOn => some (s.setCpu c { s.cpus c with sie := true })
  | .intrOff => some (s.setCpu c { s.cpus c with sie := false })

def step (procs : List P) (s : State C P L) : Label C P L → Option (State C P L)
  | .call c f =>
      if (s.cpus c).top = .code ∧ ((s.cpus c).running ≠ none ∨ (s.cpus c).below ≠ []) then call s c f
      else none
  | .exec c state => exec procs s c state (s.cpus c).top
  | .interrupt c =>
      if (s.cpus c).sie = true then
        some (s.setCpu c
          { s.cpus c with sie := false, top := .code, below := (s.cpus c).top :: (s.cpus c).below })
      else none
  | .sret c =>
      match (s.cpus c).top, (s.cpus c).below with
      | .code, a :: rest => some (s.setCpu c { s.cpus c with sie := true, top := a, below := rest })
      | _, _ => none
  | .fork p => if s.parked p ≠ none then some (s.park p (some .forkret)) else none

/-! ## What the callers do -/

/-- A thread releases only what it has and has acquired since its last `push_off` of its own, undoes that with the locks
    that it had there, calls `sched` with its own `p->lock` and nothing else, and switches interrupts by hand, or
    returns from an interrupt, only where it has nothing. -/
def Disciplined (s : State C P L) : Label C P L → Prop
  | .call c (.release lk) => lk ∈ (s.cpus c).held ∧ ∀ h ∈ (s.cpus c).pairs, lk ∉ h
  | .call c .popOff => (s.cpus c).pairs ≠ [] ∧ ∀ h ∈ (s.cpus c).pairs.head?, ∀ lk ∈ (s.cpus c).held, lk ∈ h
  | .call c .sched =>
      (s.cpus c).running.map (fun p => [Lock.proc p]) = some (s.cpus c).held ∧ (s.cpus c).pairs = []
  | .call c .intrOn | .call c .intrOff =>
      (s.cpus c).held = [] ∧ (s.cpus c).pairs = [] ∧ (s.cpus c).below = []
  | .sret c => (s.cpus c).held = [] ∧ (s.cpus c).pairs = []
  | _ => True

/-- It acquires only locks that it does not have. -/
def AcquiresOthers (s : State C P L) : Label C P L → Prop
  | .call c (.acquire lk) => lk ∉ (s.cpus c).held
  | _ => True

instance (s : State C P L) (l : Label C P L) : Decidable (Disciplined s l) :=
  match l with
  | .call c (.release lk) =>
      inferInstanceAs (Decidable (lk ∈ (s.cpus c).held ∧ ∀ h ∈ (s.cpus c).pairs, lk ∉ h))
  | .call c .popOff =>
      inferInstanceAs (Decidable ((s.cpus c).pairs ≠ [] ∧
        ∀ h ∈ (s.cpus c).pairs.head?, ∀ lk ∈ (s.cpus c).held, lk ∈ h))
  | .call c .sched =>
      inferInstanceAs (Decidable ((s.cpus c).running.map (fun p => [Lock.proc p]) = some (s.cpus c).held ∧
        (s.cpus c).pairs = []))
  | .call c .intrOn | .call c .intrOff =>
      inferInstanceAs (Decidable ((s.cpus c).held = [] ∧ (s.cpus c).pairs = [] ∧ (s.cpus c).below = []))
  | .sret c => inferInstanceAs (Decidable ((s.cpus c).held = [] ∧ (s.cpus c).pairs = []))
  | .call _ (.acquire _) | .call _ .pushOff | .exec _ _ | .interrupt _ | .fork _ =>
      inferInstanceAs (Decidable True)

instance (s : State C P L) (l : Label C P L) : Decidable (AcquiresOthers s l) :=
  match l with
  | .call c (.acquire lk) => inferInstanceAs (Decidable (lk ∉ (s.cpus c).held))
  | .call _ (.release _) | .call _ .pushOff | .call _ .popOff | .call _ .sched | .call _ .intrOn
  | .call _ .intrOff | .exec _ _ | .interrupt _ | .sret _ | .fork _ => inferInstanceAs (Decidable True)

end Xv6.Interrupts
