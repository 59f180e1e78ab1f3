import Mathlib.Data.List.FinRange
import Xv6.Lib.DoublyLinked
import Xv6.Lib.Run
import Xv6.Param

set_option autoImplicit false

/-! # The list of the buffer cache

`kernel/bio.c` with the pointers of the list through `head`. A step is a critical section of
`bcache.lock`, or the taking or giving up of the sleep lock of a buffer. Of a buffer there is what decides
which block it caches and whether it may be recycled. -/

namespace Xv6.Bio.Lru

open Xv6.Lib

/-- The elements of the list: `bcache.head` and the buffers. -/
inductive Node where
  | head
  | buf (i : Fin NBUF)
  deriving DecidableEq

structure Buf where
  dev : Uint
  blockno : Uint
  valid : Bool
  refcnt : Uint

/-- The call of `bget` or `brelse` that a process is in. -/
inductive Call where
  | idle
  /-- In `acquiresleep`, at the end of `bget`. -/
  | locking (i : Fin NBUF)
  /-- In `brelse`, after `releasesleep`. -/
  | dropping (i : Fin NBUF)
  deriving DecidableEq

structure State (Pid : Type) where
  links : Links Node
  buf : Fin NBUF → Buf
  lock : Fin NBUF → Option Pid
  call : Pid → Call
  panicked : Bool
  /-- History variables: how often `brelse` has brought a count to 0, and at which of these times it has
      last done so to this buffer; 0 if it has not yet. -/
  now : Nat
  dropped : Fin NBUF → Nat

variable {Pid : Type}

def State.set (s : State Pid) (i : Fin NBUF) (b : Buf) : State Pid :=
  { s with buf := Function.update s.buf i b }

/-- `L` is what the pointers are before. -/
def binit (L : Links Node) : State Pid where
  links := (List.finRange NBUF).foldl (fun L i => L.pushFront .head (.buf i))
    ⟨Function.update L.next .head .head, Function.update L.prev .head .head⟩
  buf := fun _ => ⟨0, 0, false, 0⟩
  lock := fun _ => none
  call := fun _ => .idle
  panicked := false
  now := 0
  dropped := fun _ => 0

/-- `b->dev == dev && b->blockno == blockno` -/
def State.cached (s : State Pid) (dev blockno : Uint) : Node → Bool
  | .head => false
  | .buf i => (s.buf i).dev = dev ∧ (s.buf i).blockno = blockno

/-- `b->refcnt == 0` -/
def State.unused (s : State Pid) : Node → Bool
  | .head => false
  | .buf i => (s.buf i).refcnt = 0

/-- The critical section of `bget`, with the buffer that it has found unless it panics; there is no result
    if a loop is not at its end after `NBUF` buffers. -/
def bget (s : State Pid) (dev blockno : Uint) : Option (State Pid × Option (Fin NBUF)) :=
  match search s.links.next .head (s.cached dev blockno) (NBUF + 1) (s.links.next .head) with
  | some (some (.buf i)) => some (s.set i { s.buf i with refcnt := (s.buf i).refcnt + 1 }, some i)
  | some none =>
    match search s.links.prev .head s.unused (NBUF + 1) (s.links.prev .head) with
    | some (some (.buf i)) => some (s.set i ⟨dev, blockno, false, 1⟩, some i)
    | some none => some ({ s with panicked := true }, none)
    | _ => none
  | _ => none

def bpin (s : State Pid) (i : Fin NBUF) : State Pid :=
  s.set i { s.buf i with refcnt := (s.buf i).refcnt + 1 }

def bunpin (s : State Pid) (i : Fin NBUF) : State Pid :=
  s.set i { s.buf i with refcnt := (s.buf i).refcnt - 1 }

/-- The critical section of `brelse`. -/
def bdrop (s : State Pid) (i : Fin NBUF) : State Pid :=
  let s := s.set i { s.buf i with refcnt := (s.buf i).refcnt - 1 }
  if (s.buf i).refcnt = 0 then
    { s with
      links := (s.links.unlink (.buf i)).pushFront .head (.buf i)
      now := s.now + 1
      dropped := Function.update s.dropped i (s.now + 1) }
  else s

inductive Label (Pid : Type) where
  | bget (p : Pid) (dev blockno : Uint)
  | acquiresleep (p : Pid)
  /-- `brelse`, up to `releasesleep` -/
  | brelse (p : Pid) (i : Fin NBUF)
  | bdrop (p : Pid)
  | bpin (i : Fin NBUF)
  | bunpin (i : Fin NBUF)

variable [DecidableEq Pid]

/-- A step; no device is 0, and a buffer is released by its holder. -/
def step (s : State Pid) (l : Label Pid) : Option (State Pid) :=
  if s.panicked then none
  else match l with
    | .bget p dev blockno =>
      if s.call p = .idle ∧ dev ≠ 0 then
        (bget s dev blockno).map fun r =>
          match r.2 with
          | some i => { r.1 with call := Function.update r.1.call p (.locking i) }
          | none => r.1
      else none
    | .acquiresleep p =>
      match s.call p with
      | .locking i =>
        if s.lock i = none then
          some { s with
            lock := Function.update s.lock i (some p)
            call := Function.update s.call p .idle }
        else none
      | _ => none
    | .brelse p i =>
      if s.call p = .idle ∧ s.lock i = some p then
        some { s with
          lock := Function.update s.lock i none
          call := Function.update s.call p (.dropping i) }
      else none
    | .bdrop p =>
      match s.call p with
      | .dropping i => some { bdrop s i with call := Function.update s.call p .idle }
      | _ => none
    | .bpin i => some (bpin s i)
    | .bunpin i => some (bunpin s i)

def Init (s : State Pid) : Prop := ∃ L, s = binit L

end Xv6.Bio.Lru
