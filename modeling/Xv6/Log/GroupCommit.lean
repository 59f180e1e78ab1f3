import Xv6.Lib.Run
import Xv6.Lib.Count
import Xv6.Param
import Mathlib.Logic.Function.Basic

set_option autoImplicit false

/-! # Group commit: `begin_op`, `log_write`, `end_op`

The bookkeeping of `kernel/log.c` as a state machine of any number of processes. A step is one
critical section of `log.lock` (from `acquire` to `release`, or to the `sleep` that gives the lock
up), or, for the process that runs `commit` without the lock, one round of one of its loops. So
`log.lock` is free in every state of a run. `sleep` and `wakeup` on `&log` are the move of a process
between `sleeping` and `begin`; a process can also be woken by a kill.

Three history variables record what has been logged and committed: every operation gets a number when
it is admitted, every `log_write` records its operation and how many commits had been made, and every
commit records the blocks copied to the log, the header written and the blocks installed. -/

namespace Xv6.GroupCommit

variable {Pid : Type} [DecidableEq Pid]

/-- How far `commit` has come. -/
inductive CommitPc where
  | test
  | writeLog (tail : Nat) (copied : List Uint)
  | writeHead (copied : List Uint)
  | install (tail : Nat) (home : List Uint)
  | erase
  | finish

/-- Where a process is. -/
inductive Pc where
  | user
  /-- In `begin_op`, about to make a pass through its loop. -/
  | begin
  /-- In `begin_op`, `SLEEPING` on `&log`. -/
  | sleeping
  /-- Between `begin_op` and `end_op`, as operation number `op`. -/
  | inOp (op : Nat)
  /-- In `end_op` with `do_commit` set, after the first `release`. -/
  | committing (c : CommitPc)

/-- The operation a process is in. -/
def Pc.op? : Pc → Option Nat
  | .inOp op => some op
  | _ => none

/-- The commit a process is running. -/
def Pc.commitPc? : Pc → Option CommitPc
  | .committing c => some c
  | _ => none

inductive Panic where
  | logCommitting
  | tooBig
  | outsideTrans
  deriving DecidableEq

/-- A `log_write` of `block` by operation `op`, after `txn` commits. -/
structure LogWrite where
  op : Nat
  block : Uint
  txn : Nat

/-- A commit: the blocks `write_log` copied and the header `write_head` wrote. -/
structure Commit where
  copied : List Uint
  head : List Uint

structure State (Pid : Type) where
  outstanding : Int
  committing : Bool
  lh : List Uint
  pc : Pid → Pc
  panic : Option Panic
  nextOp : Nat
  logged : List LogWrite
  commits : List Commit
  installs : List (List Uint)

inductive Label (Pid : Type) where
  | call (p : Pid)
  | beginOp (p : Pid)
  | kill (p : Pid)
  | logWrite (p : Pid) (b : Uint)
  | endOp (p : Pid)
  | commit (p : Pid)

def State.setPc (s : State Pid) (p : Pid) (c : Pc) : State Pid :=
  { s with pc := Function.update s.pc p c }

/-- `wakeup(&log)`. -/
def wakeup (s : State Pid) : State Pid :=
  { s with pc := fun q => match s.pc q with | .sleeping => .begin | c => c }

/-- One pass through the loop of `begin_op`. -/
def beginOp (s : State Pid) (p : Pid) : State Pid :=
  if s.committing then
    s.setPc p .sleeping
  else if (s.lh.length : Int) + (s.outstanding + 1) * MAXOPBLOCKS > LOGBLOCKS then
    s.setPc p .sleeping
  else
    { s with outstanding := s.outstanding + 1, nextOp := s.nextOp + 1 }.setPc p (.inOp s.nextOp)

/-- The loop of `log_write` and what follows it: a block already in the header is absorbed, a new
    one is appended. -/
def absorb (b : Uint) : List Uint → List Uint
  | [] => [b]
  | b' :: bs => if b' = b then b' :: bs else b' :: absorb b bs

def logWrite (s : State Pid) (op : Nat) (b : Uint) : State Pid :=
  if s.lh.length ≥ LOGBLOCKS then
    { s with panic := some .tooBig }
  else if s.outstanding < 1 then
    { s with panic := some .outsideTrans }
  else
    { s with lh := absorb b s.lh
             logged := s.logged ++ [LogWrite.mk op b s.commits.length] }

/-- `end_op`, the first critical section. -/
def endOp (s : State Pid) (p : Pid) : State Pid :=
  let s := { s with outstanding := s.outstanding - 1 }
  if s.committing then
    { s with panic := some .logCommitting }
  else if s.outstanding = 0 then
    { s with committing := true }.setPc p (.committing .test)
  else
    (wakeup s).setPc p .user

/-- One step of `commit`, and the second critical section of `end_op`. -/
def commitStep (s : State Pid) (p : Pid) : CommitPc → State Pid
  | .test =>
    if s.lh.length > 0 then s.setPc p (.committing (.writeLog 0 []))
    else s.setPc p (.committing .finish)
  | .writeLog tail copied =>
    if h : tail < s.lh.length then
      s.setPc p (.committing (.writeLog (tail + 1) (copied ++ [s.lh[tail]])))
    else s.setPc p (.committing (.writeHead copied))
  | .writeHead copied =>
    { s with commits := s.commits ++ [Commit.mk copied s.lh] }.setPc p (.committing (.install 0 []))
  | .install tail home =>
    if h : tail < s.lh.length then
      s.setPc p (.committing (.install (tail + 1) (home ++ [s.lh[tail]])))
    else { s with installs := s.installs ++ [home] }.setPc p (.committing .erase)
  | .erase => { s with lh := [] }.setPc p (.committing .finish)
  | .finish => (wakeup { s with committing := false }).setPc p .user

/-- One step; `none` after a panic, and where the process is not at the code in question. -/
def step (s : State Pid) (l : Label Pid) : Option (State Pid) :=
  if s.panic.isSome then none
  else match l with
  | .call p => match s.pc p with
    | .user => some (s.setPc p .begin)
    | _ => none
  | .beginOp p => match s.pc p with
    | .begin => some (beginOp s p)
    | _ => none
  | .kill p => match s.pc p with
    | .sleeping => some (s.setPc p .begin)
    | _ => none
  | .logWrite p b => match s.pc p with
    | .inOp op => some (logWrite s op b)
    | _ => none
  | .endOp p => match s.pc p with
    | .inOp _ => some (endOp s p)
    | _ => none
  | .commit p => match s.pc p with
    | .committing c => some (commitStep s p c)
    | _ => none

/-- After `initlog`: an empty header and no process in the file system. -/
def Init (s : State Pid) : Prop :=
  s = { outstanding := 0, committing := false, lh := [], pc := fun _ => .user, panic := none,
        nextOp := 0, logged := [], commits := [], installs := [] }

end Xv6.GroupCommit
