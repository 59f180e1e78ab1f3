import Xv6.Lib.Run
import Xv6.Lib.Ring
import Xv6.Param

set_option autoImplicit false

/-! # Pipes

`kernel/pipe.c` as a state machine of any number of processes. `pi->lock` is explicit: a process
takes it in `acquire`, and each later step of that process is one test or one round of a loop of
`pipewrite` or `piperead`, until it releases the lock or gives it up in `sleep`. Kills arrive at any
moment, also between two bytes. What the environment answers is part of the label: the byte `copyin`
fetches (or its failure) and whether `copyout` succeeds.

History variables record the bytes stored, the bytes taken out of the buffer, the bytes delivered,
counted by the return values of `piperead`, and how many bytes were taken but not delivered. -/

namespace Xv6.Pipe

open Xv6.Lib

def PIPESIZE : Nat := 512

instance : NeZero PIPESIZE := ⟨by decide⟩

/-- `struct pipe`, without its lock. -/
structure PipeBuf where
  data : Fin PIPESIZE → UInt8
  nread : Uint
  nwrite : Uint
  readopen : Bool
  writeopen : Bool

/-- Where a process is; `n` and `i` are the variables of that name. -/
inductive Pc where
  | user
  /-- `pipewrite`: in `acquire`, at the start or at the end of `sleep`. -/
  | writeAcq (n i : Int)
  /-- `pipewrite`: at the head of the loop. -/
  | writeLoop (n i : Int)
  /-- `pipewrite`: `SLEEPING` on `&pi->nwrite`. -/
  | writeSleep (n i : Int)
  /-- `pipewrite`: after the loop. -/
  | writeEnd (i : Int)
  /-- `piperead`: in `acquire`, at the start or at the end of `sleep`. -/
  | readAcq (n : Int)
  /-- `piperead`: at the head of the waiting loop. -/
  | readWait (n : Int)
  /-- `piperead`: `SLEEPING` on `&pi->nread`. -/
  | readSleep (n : Int)
  /-- `piperead`: at the head of the copying loop, with the bytes copied out so far. -/
  | readCopy (n i : Int) (got : List UInt8)
  /-- `piperead`: after the copying loop. -/
  | readEnd (i : Int) (got : List UInt8)
  deriving DecidableEq

structure State (Pid : Type) where
  pi : PipeBuf
  lock : Option Pid
  pc : Pid → Pc
  killed : Pid → Bool
  stored : List UInt8
  taken : List UInt8
  delivered : List UInt8
  lost : Nat

inductive Label (Pid : Type) where
  | callWrite (p : Pid) (n : Int)
  | callRead (p : Pid) (n : Int)
  | acquire (p : Pid)
  | writeLoop (p : Pid) (copyin : Option UInt8)
  | writeEnd (p : Pid)
  | readWait (p : Pid)
  | readCopy (p : Pid) (copyout : Bool)
  | readEnd (p : Pid)
  | pipeclose (p : Pid) (writable : Bool)
  | kkill (p : Pid)

/-- `pi->nwrite == pi->nread + PIPESIZE`. -/
def PipeBuf.full (pi : PipeBuf) : Prop := pi.nwrite = pi.nread + BitVec.ofNat 32 PIPESIZE

instance (pi : PipeBuf) : Decidable pi.full := inferInstanceAs (Decidable (_ = _))

/-- `pi->data[pi->nwrite++ % PIPESIZE] = ch`. -/
def PipeBuf.push (pi : PipeBuf) (ch : UInt8) : PipeBuf :=
  { pi with data := Function.update pi.data (Ring.slot PIPESIZE pi.nwrite) ch
            nwrite := pi.nwrite + 1 }

/-- `pi->data[pi->nread % PIPESIZE]`. -/
def PipeBuf.front (pi : PipeBuf) : UInt8 := pi.data (Ring.slot PIPESIZE pi.nread)

/-- The bytes still in the buffer. -/
def PipeBuf.contents (pi : PipeBuf) : List UInt8 := Ring.contents pi.data pi.nread pi.nwrite

section Step

variable {Pid : Type} [DecidableEq Pid]

def State.setPc (s : State Pid) (p : Pid) (c : Pc) : State Pid :=
  { s with pc := Function.update s.pc p c }

/-- `release(&pi->lock)` by `p`, which goes on at `c`. -/
def State.release (s : State Pid) (p : Pid) (c : Pc) : State Pid :=
  { s with lock := none }.setPc p c

/-- `wakeup(&pi->nread)`. -/
def wakeupReaders (s : State Pid) : State Pid :=
  { s with pc := fun q => match s.pc q with | .readSleep n => .readAcq n | c => c }

/-- `wakeup(&pi->nwrite)`. -/
def wakeupWriters (s : State Pid) : State Pid :=
  { s with pc := fun q => match s.pc q with | .writeSleep n i => .writeAcq n i | c => c }

/-- `acquire(&pi->lock)`; a pipe with both ends closed has been freed. -/
def acquire (s : State Pid) (p : Pid) : Option (State Pid) :=
  if s.lock = none ∧ (s.pi.readopen ∨ s.pi.writeopen) then
    match s.pc p with
    | .writeAcq n i => some ({ s with lock := some p }.setPc p (.writeLoop n i))
    | .readAcq n => some ({ s with lock := some p }.setPc p (.readWait n))
    | _ => none
  else none

/-- One round of the loop of `pipewrite`. -/
def writeLoop (s : State Pid) (p : Pid) (n i : Int) (copyin : Option UInt8) : State Pid :=
  if i < n then
    if s.pi.readopen = false ∨ s.killed p then
      s.release p .user                                   -- return -1
    else if s.pi.full then
      (wakeupReaders s).release p (.writeSleep n i)
    else match copyin with
      | none => s.setPc p (.writeEnd i)
      | some ch =>
        { s with pi := s.pi.push ch, stored := s.stored ++ [ch] }.setPc p (.writeLoop n (i + 1))
  else s.setPc p (.writeEnd i)

/-- The end of `pipewrite`. -/
def writeEnd (s : State Pid) (p : Pid) : State Pid :=
  (wakeupReaders s).release p .user                       -- return i

/-- One test of the waiting loop of `piperead`. -/
def readWait (s : State Pid) (p : Pid) (n : Int) : State Pid :=
  if s.pi.nread = s.pi.nwrite ∧ s.pi.writeopen then
    if s.killed p then
      s.release p .user                                   -- return -1
    else
      s.release p (.readSleep n)
  else s.setPc p (.readCopy n 0 [])

/-- One round of the copying loop of `piperead`. -/
def readCopy (s : State Pid) (p : Pid) (n i : Int) (got : List UInt8) (copyout : Bool) :
    State Pid :=
  if i < n then
    if s.pi.nread = s.pi.nwrite then
      s.setPc p (.readEnd i got)
    else
      let ch := s.pi.front
      -- `pi->nread++` comes before `copyout`, whose failure leaves the loop
      let s := { s with pi := { s.pi with nread := s.pi.nread + 1 }, taken := s.taken ++ [ch] }
      if copyout then s.setPc p (.readCopy n (i + 1) (got ++ [ch]))
      else { s with lost := s.lost + 1 }.setPc p (.readEnd i got)
  else s.setPc p (.readEnd i got)

/-- The end of `piperead`: the first `i` bytes copied out, `i` the return value, are delivered. -/
def readEnd (s : State Pid) (p : Pid) (i : Int) (got : List UInt8) : State Pid :=
  let s := { s with delivered := s.delivered ++ got.take i.toNat }
  (wakeupWriters s).release p .user                       -- return i

def pipeclose (s : State Pid) (writable : Bool) : State Pid :=
  if writable then wakeupReaders { s with pi := { s.pi with writeopen := false } }
  else wakeupWriters { s with pi := { s.pi with readopen := false } }

/-- `kkill`: a `SLEEPING` victim becomes `RUNNABLE`, and goes on to reacquire the lock. -/
def kkill (s : State Pid) (p : Pid) : State Pid :=
  let s := { s with killed := Function.update s.killed p true }
  match s.pc p with
  | .writeSleep n i => s.setPc p (.writeAcq n i)
  | .readSleep n => s.setPc p (.readAcq n)
  | _ => s

def step (s : State Pid) : Label Pid → Option (State Pid)
  | .callWrite p n => match s.pc p with
    | .user => some (s.setPc p (.writeAcq n 0))
    | _ => none
  | .callRead p n => match s.pc p with
    | .user => some (s.setPc p (.readAcq n))
    | _ => none
  | .acquire p => acquire s p
  | .writeLoop p copyin => match s.pc p with
    | .writeLoop n i => some (writeLoop s p n i copyin)
    | _ => none
  | .writeEnd p => match s.pc p with
    | .writeEnd _ => some (writeEnd s p)
    | _ => none
  | .readWait p => match s.pc p with
    | .readWait n => some (readWait s p n)
    | _ => none
  | .readCopy p copyout => match s.pc p with
    | .readCopy n i got => some (readCopy s p n i got copyout)
    | _ => none
  | .readEnd p => match s.pc p with
    | .readEnd i got => some (readEnd s p i got)
    | _ => none
  | .pipeclose p writable =>
    if s.pc p = .user ∧ s.lock = none ∧ (s.pi.readopen ∨ s.pi.writeopen) then
      some (pipeclose s writable)
    else none
  | .kkill p => some (kkill s p)

end Step

/-- After `pipealloc`: both ends open, both counters 0, nobody in the pipe. -/
def Init {Pid : Type} (s : State Pid) : Prop :=
  s.pi.nread = 0 ∧ s.pi.nwrite = 0 ∧ s.pi.readopen = true ∧ s.pi.writeopen = true ∧
  s.lock = none ∧ (∀ p, s.pc p = .user) ∧
  s.stored = [] ∧ s.taken = [] ∧ s.delivered = [] ∧ s.lost = 0

end Xv6.Pipe
