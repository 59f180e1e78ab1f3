import Xv6.Lib.Ring
import Xv6.Lib.Run

set_option autoImplicit false

/-! # The console

`consoleintr` and `consoleread` of `kernel/console.c`. `cons.lock` is held from the start of
`consoleread` until it sleeps or returns, and all through `consoleintr`: a step is one such section.
A reader may be woken up at any time. Echoing is left out. -/

namespace Xv6.Console

open Xv6.Lib

abbrev Byte := UInt8

def INPUT_BUF_SIZE : Nat := 128

instance : NeZero INPUT_BUF_SIZE := ⟨by decide⟩

/-- `#define C(x)  ((x)-'@')` -/
def C (x : Char) : Byte := x.toUInt8 - '@'.toUInt8

structure Cons where
  buf : Fin INPUT_BUF_SIZE → Byte
  r : BitVec 32
  w : BitVec 32
  e : BitVec 32

/-- `cons.buf[i % INPUT_BUF_SIZE]` -/
def Cons.byteAt (k : Cons) (i : BitVec 32) : Byte := k.buf (Ring.slot INPUT_BUF_SIZE i)

/-! ## `consoleintr` -/

/-- The loop of `^U`, with at most so many rounds. -/
def killLine : Nat → Cons → Cons
  | 0, k => k
  | n + 1, k =>
    if k.e ≠ k.w ∧ k.byteAt (k.e - 1) ≠ '\n'.toUInt8 then killLine n { k with e := k.e - 1 } else k

def store (k : Cons) (c : Byte) : Cons :=
  { k with buf := Function.update k.buf (Ring.slot INPUT_BUF_SIZE k.e) c, e := k.e + 1 }

def consoleintr (k : Cons) (c : Byte) : Cons :=
  if c = C 'P' then k
  else if c = C 'U' then killLine (k.e - k.w).toNat k
  else if c = C 'H' ∨ c = 0x7f then if k.e ≠ k.w then { k with e := k.e - 1 } else k
  else if c ≠ 0 ∧ (k.e - k.r).toNat < INPUT_BUF_SIZE then
    let c := if c = '\r'.toUInt8 then '\n'.toUInt8 else c
    let k := store k c
    if c = '\n'.toUInt8 ∨ c = C 'D' ∨ (k.e - k.r).toNat = INPUT_BUF_SIZE then { k with w := k.e } else k
  else k

/-! ## `consoleread` -/

/-- What a reader meets: whether it has been killed, and whether it can store the byte that it has read
    after so many others. -/
structure Env where
  killed : Bool
  copyout : Nat → Bool

/-- How a section of `consoleread` ends, with the bytes delivered so far. -/
inductive Outcome where
  | sleep (n : Nat) (got : List Byte)
  | ret (v : Int) (got : List Byte)

/-- The loop with `n` bytes to go. -/
def readLoop (env : Env) (target : Nat) : Nat → List Byte → Cons → Cons × Outcome
  | 0, got, k => (k, .ret target got)
  | n + 1, got, k =>
    if k.r = k.w then
      if env.killed then (k, .ret (-1) got) else (k, .sleep (n + 1) got)
    else
      let c := k.byteAt k.r
      let k := { k with r := k.r + 1 }
      if c = C 'D' then
        (if n + 1 < target then { k with r := k.r - 1 } else k, .ret (target - (n + 1)) got)
      else if env.copyout got.length = false then (k, .ret (target - (n + 1)) got)
      else if c = '\n'.toUInt8 then (k, .ret (target - n) (got ++ [c]))
      else readLoop env target n (got ++ [c]) k

/-! ## Readers -/

/-- A call of `consoleread` that sleeps. -/
structure Reader where
  target : Nat
  n : Nat
  got : List Byte

/-- A console with its readers; `K` is what it keeps of the input. -/
structure State (Pid K : Type) where
  cons : K
  reader : Pid → Option Reader
  /-- What the last call has returned, and the bytes that it has delivered. -/
  ret : Pid → Option (Int × List Byte)

inductive Label (Pid : Type) where
  | intr (c : Byte)
  | read (p : Pid) (n : Nat) (env : Env)
  /-- A reader wakes up. -/
  | wake (p : Pid) (env : Env)

section Step

variable {Pid K : Type} [DecidableEq Pid]

def State.finish (s : State Pid K) (p : Pid) (target : Nat) : K × Outcome → State Pid K
  | (k, .sleep n got) => { s with cons := k, reader := Function.update s.reader p (some ⟨target, n, got⟩) }
  | (k, .ret v got) =>
    { s with
      cons := k
      reader := Function.update s.reader p none
      ret := Function.update s.ret p (some (v, got)) }

/-- Steps of a console that takes a character by `intr` and reads by `loop`. -/
def stepWith (intr : K → Byte → K) (loop : Env → Nat → Nat → List Byte → K → K × Outcome)
    (s : State Pid K) : Label Pid → Option (State Pid K)
  | .intr c => some { s with cons := intr s.cons c }
  | .read p n env =>
    match s.reader p with
    | none => some (s.finish p n (loop env n n [] s.cons))
    | some _ => none
  | .wake p env => (s.reader p).map fun r => s.finish p r.target (loop env r.target r.n r.got s.cons)

def step (s : State Pid Cons) (l : Label Pid) : Option (State Pid Cons) :=
  stepWith consoleintr readLoop s l

def boot (Pid : Type) : State Pid Cons :=
  { cons := ⟨fun _ => 0, 0, 0, 0⟩, reader := fun _ => none, ret := fun _ => none }

end Step

end Xv6.Console
