import Xv6.Lib.Bytes
import Xv6.Param
import Xv6.Uthread.Switch

set_option autoImplicit false

/-! # The table of threads

The functions of `user/uthread.c` on the bytes of its variables, for any number of slots. Pointers are
addresses. `thread_create` writes to the slot behind the table when it finds no slot that is `FREE`. -/

namespace Xv6.Uthread.Table

open Xv6.Lib

abbrev Mem := Nat → Byte

def FREE : Uint := 0x0
def RUNNING : Uint := 0x1
def RUNNABLE : Uint := 0x2

/-- Where the variables are. -/
structure Image where
  MAX_THREAD : Nat
  allThread : Nat
  /-- `&current_thread` -/
  currentThread : Nat
  MAX_THREAD_pos : 0 < MAX_THREAD
  /-- A pointer to a slot is not 0. -/
  allThread_pos : 0 < allThread
  allThread_lt : allThread + (MAX_THREAD + 1) * sizeofThread < 2 ^ 64
  disjoint : currentThread + 8 ≤ allThread ∨ allThread + MAX_THREAD * sizeofThread ≤ currentThread
  /-- The program has no other variables of the size of a stack. -/
  near : currentThread + 8 ≤ allThread + MAX_THREAD * sizeofThread + STACK_SIZE

/-- `all_thread + i` -/
def Image.thread (I : Image) (i : Nat) : Nat := I.allThread + i * sizeofThread

/-- `t->state` -/
def stateAt (mem : Mem) (t : Nat) : Uint := word mem (t + stateOffset)

def Image.state (I : Image) (mem : Mem) (i : Nat) : Uint := stateAt mem (I.thread i)

/-- `current_thread` -/
def Image.current (I : Image) (mem : Mem) : Nat := (dword mem I.currentThread).toNat

/-! ## Stores -/

/-- What is stored, and where. -/
abbrev Store := Nat × List Byte

def setState (t : Nat) (st : Uint) : Store := (t + stateOffset, toBytes st 4)

/-- The field of `t->context` at `off` -/
def setContext (t off : Nat) (w : Word) : Store := (t + contextOffset + off, toBytes w 8)

def Image.setCurrent (I : Image) (t : Nat) : Store := (I.currentThread, toBytes (BitVec.ofNat 64 t) 8)

def store (mem : Mem) (w : Store) : Mem := put mem w.1 w.2

def storeList (mem : Mem) (ws : List Store) : Mem := ws.foldl store mem

/-- The loop of `thread_create` from `t` with `n` rounds to go. -/
def findFree (mem : Mem) : Nat → Nat → Nat
  | 0, t => t
  | n + 1, t => if stateAt mem t = FREE then t else findFree mem n (t + sizeofThread)

/-- The stores of `thread_create`. -/
def Image.createStores (I : Image) (mem : Mem) (func : Word) : List Store :=
  let t := findFree mem I.MAX_THREAD I.allThread
  [setState t RUNNABLE, setContext t 0 func, setContext t 8 (BitVec.ofNat 64 (t + STACK_SIZE))]

/-! ## The functions -/

structure State where
  mem : Mem
  /-- `exit(-1)` -/
  exited : Bool

def threadCreate (I : Image) (s : State) (func : Word) : State :=
  { s with mem := storeList s.mem (I.createStores s.mem func) }

/-- The loop of `thread_schedule` from `t` with `n` rounds to go; `none` is 0. -/
def findRunnable (I : Image) (mem : Mem) : Nat → Nat → Option Nat
  | 0, _ => none
  | n + 1, t =>
    let t := if I.thread I.MAX_THREAD ≤ t then I.allThread else t
    if stateAt mem t = RUNNABLE then some t else findRunnable I mem n (t + sizeofThread)

/-- The stores of `thread_switch`. -/
def switchStores (t : Nat) (regs : Reg → Word) : List Store :=
  contextLayout.map fun f => setContext t f.2 (regs f.1)

/-- `thread_schedule`; `thread_switch` is called with `regs` in the registers. -/
def threadSchedule (I : Image) (s : State) (regs : Reg → Word) : State :=
  match findRunnable I s.mem I.MAX_THREAD (I.current s.mem + sizeofThread) with
  | none => { s with exited := true }
  | some next =>
    if I.current s.mem ≠ next then
      let mem := storeList s.mem [setState next RUNNING, I.setCurrent next]
      { s with mem := storeList mem (switchStores (I.current s.mem) regs) }
    else s

def threadInit (I : Image) (mem : Mem) : Mem :=
  let mem := store mem (I.setCurrent I.allThread)
  store mem (setState (I.current mem) RUNNING)

inductive Label where
  /-- The thread does something else, and writes to memory. -/
  | run (writes : List (Nat × Byte))
  | threadCreate (func : Word)
  | threadYield (regs : Reg → Word)
  /-- `current_thread->state = FREE; thread_schedule();` -/
  | exit (regs : Reg → Word)

/-- The variables of the thread functions: `state` and `context` of each slot, and `current_thread`. -/
def Image.Reserved (I : Image) (a : Nat) : Prop :=
  (∃ i < I.MAX_THREAD, I.thread i + stateOffset ≤ a ∧ a < I.thread i + sizeofThread) ∨
    I.currentThread ≤ a ∧ a < I.currentThread + 8

instance (I : Image) (a : Nat) : Decidable (I.Reserved a) := inferInstanceAs (Decidable (_ ∨ _))

/-- The current thread makes `st` its state. -/
def leave (I : Image) (s : State) (st : Uint) : State :=
  { s with mem := store s.mem (setState (I.current s.mem) st) }

/-- A step; no thread writes to the variables of the thread functions but through these. -/
def step (I : Image) (s : State) (l : Label) : Option State :=
  if s.exited then none
  else match l with
    | .run writes =>
      if ∀ w ∈ writes, ¬ I.Reserved w.1 then
        some { s with mem := writes.foldl (fun mem w => Function.update mem w.1 w.2) s.mem }
      else none
    | .threadCreate func => some (threadCreate I s func)
    | .threadYield regs => some (threadSchedule I (leave I s RUNNABLE) regs)
    | .exit regs => some (threadSchedule I (leave I s FREE) regs)

/-- After `thread_init`; the table is zero as the program starts. -/
def Init (I : Image) (s : State) : Prop :=
  ∃ mem : Mem, (∀ a, I.allThread ≤ a → a < I.thread I.MAX_THREAD → mem a = 0) ∧
    s = ⟨threadInit I mem, false⟩

end Xv6.Uthread.Table
