import Mathlib.Algebra.Group.Nat.Defs
import Mathlib.Data.List.FinRange
import Xv6.Lib.Run
import Xv6.Lib.SaveArea

set_option autoImplicit false

/-! # User-level threads

`user/uthread.c` and `user/uthread_switch.S` on a machine with the callee-saved registers and a memory
of 64-bit words, each at the address of its first byte. What a thread does between its calls of the
thread functions is arbitrary, as long as it only writes to its own stack. The compiler keeps registers
of the caller of `thread_schedule` in a frame on the stack; which ones, and where, is a parameter. -/

namespace Xv6.Uthread

open Xv6.Lib

abbrev Word := BitVec 64

def STACK_SIZE : Nat := 8192
def MAX_THREAD : Nat := 4

abbrev Slot := Fin MAX_THREAD

/-- The registers of `struct thread_context`, and the first two argument registers. -/
inductive Reg where
  | ra | sp | s0 | s1 | s2 | s3 | s4 | s5 | s6 | s7 | s8 | s9 | s10 | s11 | a0 | a1
  deriving DecidableEq

/-! ## The layout of `struct thread` -/

/-- `struct thread_context`, in the order of its fields. -/
def threadContext : List Reg :=
  [.ra, .sp, .s0, .s1, .s2, .s3, .s4, .s5, .s6, .s7, .s8, .s9, .s10, .s11]

/-- The fields with their offsets; each is a `uint64`. -/
def contextLayout : List (Reg × Nat) := threadContext.zipIdx.map fun p => (p.1, 8 * p.2)

def sizeofContext : Nat := 8 * threadContext.length

/-- The next offset with this alignment. -/
def alignUp (off align : Nat) : Nat := (off + align - 1) / align * align

/-- `state` follows `stack`, and `context` follows `state`. -/
def stateOffset : Nat := alignUp STACK_SIZE 4
def contextOffset : Nat := alignUp (stateOffset + 4) 8
def sizeofThread : Nat := alignUp (contextOffset + sizeofContext) 8

/-- Addresses from `lo` up to `hi`. -/
structure Region where
  lo : Nat
  hi : Nat

/-- The program in memory, and the code that the compiler makes of `thread_schedule`. -/
structure Image where
  allThread : Nat
  /-- The stack of `main`. -/
  ustack : Region
  /-- The size of the frame of `thread_schedule`. -/
  frame : Nat
  /-- The registers that it keeps there, with their offsets. -/
  layout : List (Reg × Nat)
  /-- Where `thread_switch` returns to, in `thread_schedule`. -/
  after : Word
  allThread_align : allThread % 8 = 0
  allThread_le : allThread + MAX_THREAD * sizeofThread ≤ 2 ^ 64
  ustack_le : ustack.hi ≤ 2 ^ 64
  ustack_disjoint : ustack.hi ≤ allThread ∨ allThread + MAX_THREAD * sizeofThread ≤ ustack.lo
  frame_align : frame % 8 = 0
  layout_range : ∀ r off, (r, off) ∈ layout → off % 8 = 0 ∧ off + 8 ≤ frame
  layout_regs : (layout.map Prod.fst).Nodup
  layout_offsets : (layout.map Prod.snd).Nodup
  layout_ra : ∃ off, (Reg.ra, off) ∈ layout
  /-- It makes the frame by changing `sp`, and takes it down again so. -/
  layout_sp : ∀ off, (Reg.sp, off) ∉ layout

def Image.thread (I : Image) (i : Slot) : Nat := I.allThread + i.val * sizeofThread

/-- `all_thread[i].stack` -/
def Image.stack (I : Image) (i : Slot) : Region := ⟨I.thread i, I.thread i + STACK_SIZE⟩

/-- `&all_thread[i].context` -/
def Image.context (I : Image) (i : Slot) : Nat := I.thread i + contextOffset

/-! ## `thread_switch` -/

structure Machine where
  regs : Reg → Word
  pc : Word
  mem : Nat → Word

inductive Instr where
  /-- `sd r, off(base)` -/
  | sd (r : Reg) (off : Nat) (base : Reg)
  /-- `ld r, off(base)` -/
  | ld (r : Reg) (off : Nat) (base : Reg)
  | ret
  deriving DecidableEq

def Instr.exec (m : Machine) : Instr → Machine
  | .sd r off base => { m with mem := Function.update m.mem ((m.regs base).toNat + off) (m.regs r) }
  | .ld r off base => { m with regs := Function.update m.regs r (m.mem ((m.regs base).toNat + off)) }
  | .ret => { m with pc := m.regs .ra }

def threadSwitch : List Instr :=
  [.sd .ra 0 .a0, .sd .sp 8 .a0, .sd .s0 16 .a0, .sd .s1 24 .a0, .sd .s2 32 .a0, .sd .s3 40 .a0,
    .sd .s4 48 .a0, .sd .s5 56 .a0, .sd .s6 64 .a0, .sd .s7 72 .a0, .sd .s8 80 .a0, .sd .s9 88 .a0,
    .sd .s10 96 .a0, .sd .s11 104 .a0,
    .ld .ra 0 .a1, .ld .sp 8 .a1, .ld .s0 16 .a1, .ld .s1 24 .a1, .ld .s2 32 .a1, .ld .s3 40 .a1,
    .ld .s4 48 .a1, .ld .s5 56 .a1, .ld .s6 64 .a1, .ld .s7 72 .a1, .ld .s8 80 .a1, .ld .s9 88 .a1,
    .ld .s10 96 .a1, .ld .s11 104 .a1, .ret]

def runInstrs (m : Machine) (code : List Instr) : Machine := code.foldl Instr.exec m

/-! ## The threads -/

inductive ThreadState where
  | FREE | RUNNING | RUNNABLE
  deriving DecidableEq

/-- Where a thread is: it runs, or it has been created and has not run yet, or it has called
    `thread_schedule` with these registers. -/
inductive Where where
  | running
  | fresh (func : Word)
  | called (regs : Reg → Word)

structure State where
  regs : Reg → Word
  pc : Word
  mem : Nat → Word
  state : Slot → ThreadState
  currentThread : Slot
  /-- `exit(-1)` -/
  exited : Bool
  /-- The stack of the thread in each slot; that of `main` is not in the slot. -/
  stack : Slot → Region
  /-- A history variable. -/
  place : Slot → Where

inductive Label where
  /-- The thread does something else: its registers, its program counter, and writes to memory. -/
  | run (regs : Reg → Word) (pc : Word) (writes : List (Nat × Word))
  | threadCreate (func : Word)
  /-- `thread_yield`; `scratch` is in the registers that `thread_schedule` uses. -/
  | threadYield (scratch : Reg → Word)
  /-- `current_thread->state = FREE; thread_schedule();` -/
  | exit (scratch : Reg → Word)
  /-- `thread_schedule` returns. -/
  | ret

/-- A word at this address lies in the region. -/
def Region.holds (r : Region) (a : Nat) : Prop := a % 8 = 0 ∧ r.lo ≤ a ∧ a + 8 ≤ r.hi

instance (r : Region) (a : Nat) : Decidable (r.holds a) := inferInstanceAs (Decidable (_ ∧ _))

def writeAll (mem : Nat → Word) : List (Nat × Word) → Nat → Word
  | [] => mem
  | (a, v) :: rest => writeAll (Function.update mem a v) rest

/-- `if (t >= all_thread + MAX_THREAD) t = all_thread;` -/
def wrap (t : Nat) : Slot := if h : t < MAX_THREAD then ⟨t, h⟩ else ⟨0, by decide⟩

/-- The loop of `thread_schedule` from `t` with `n` rounds to go. -/
def findRunnable (state : Slot → ThreadState) : Nat → Nat → Option Slot
  | 0, _ => none
  | n + 1, t =>
    if state (wrap t) = .RUNNABLE then some (wrap t) else findRunnable state n ((wrap t).val + 1)

/-- The registers while the body of `thread_schedule` runs. -/
def bodyRegs (I : Image) (regs scratch : Reg → Word) (r : Reg) : Word :=
  if r = .sp then regs .sp - BitVec.ofNat 64 I.frame
  else if r ∈ I.layout.map Prod.fst then scratch r else regs r

/-- The registers at the call of `thread_switch`: its arguments, and where it returns to. -/
def switchRegs (I : Image) (t next : Slot) (regs : Reg → Word) : Reg → Word :=
  Function.update (Function.update (Function.update regs .a0 (BitVec.ofNat 64 (I.context t)))
    .a1 (BitVec.ofNat 64 (I.context next))) .ra I.after

/-- `thread_switch((uint64)&t->context, (uint64)&next_thread->context)` -/
def callSwitch (I : Image) (t next : Slot) (regs : Reg → Word) (mem : Nat → Word) : Machine :=
  runInstrs ⟨switchRegs I t next regs, I.after, mem⟩ threadSwitch

/-- A thread that has been created runs as soon as it is switched to. -/
def Where.resume : Where → Where
  | .fresh _ => .running
  | w => w

/-- `thread_schedule`, from its call to where it returns, or to the thread that it switches to. -/
def threadSchedule (I : Image) (s : State) (scratch : Reg → Word) : State :=
  let sp := s.regs .sp - BitVec.ofNat 64 I.frame
  let mem := storeAll s.regs sp.toNat I.layout s.mem
  let regs := bodyRegs I s.regs scratch
  let place := Function.update s.place s.currentThread (.called s.regs)
  match findRunnable s.state MAX_THREAD (s.currentThread.val + 1) with
  | none => { s with exited := true }
  | some next =>
    if s.currentThread ≠ next then
      let m := callSwitch I s.currentThread next regs mem
      { s with
        regs := m.regs
        pc := m.pc
        mem := m.mem
        state := Function.update s.state next .RUNNING
        currentThread := next
        place := Function.update place next (place next).resume }
    else { s with regs := regs, pc := I.after, mem := mem, place := place }

/-- The first slot that is `FREE`. -/
def findFree (state : Slot → ThreadState) : Option Slot :=
  (List.finRange MAX_THREAD).find? fun t => decide (state t = .FREE)

def threadCreate (I : Image) (s : State) (func : Word) (t : Slot) : State :=
  let mem := Function.update s.mem (I.context t + 0) func
  { s with
    state := Function.update s.state t .RUNNABLE
    mem := Function.update mem (I.context t + 8) (BitVec.ofNat 64 (I.stack t).hi)
    stack := Function.update s.stack t (I.stack t)
    place := Function.update s.place t (.fresh func) }

/-- `thread_schedule` returns to its caller. -/
def scheduleReturn (I : Image) (s : State) : State :=
  let regs := loadAll s.mem (s.regs .sp).toNat I.layout s.regs
  { s with
    regs := Function.update regs .sp (s.regs .sp + BitVec.ofNat 64 I.frame)
    pc := regs .ra
    place := Function.update s.place s.currentThread .running }

/-- The current thread runs, and is not in `thread_schedule`. -/
def State.user (I : Image) (s : State) : Prop := s.exited = false ∧ s.pc ≠ I.after

/-- There is room for the frame on the stack of the current thread, and the call is made from
    outside `thread_schedule`. -/
def State.mayCall (I : Image) (s : State) : Prop :=
  (s.stack s.currentThread).lo + I.frame ≤ (s.regs .sp).toNat ∧
    (s.regs .sp).toNat ≤ (s.stack s.currentThread).hi ∧ (s.regs .sp).toNat % 8 = 0 ∧
    s.regs .ra ≠ I.after

instance (I : Image) (s : State) : Decidable (s.user I) := inferInstanceAs (Decidable (_ ∧ _))

instance (I : Image) (s : State) : Decidable (s.mayCall I) := inferInstanceAs (Decidable (_ ∧ _))

/-- A step; `thread_create` needs a slot that is `FREE`, and `func` the address of a function. -/
def step (I : Image) (s : State) : Label → Option State
  | .run regs pc writes =>
    if s.user I ∧ pc ≠ I.after ∧ ∀ w ∈ writes, (s.stack s.currentThread).holds w.1 then
      some { s with regs := regs, pc := pc, mem := writeAll s.mem writes }
    else none
  | .threadCreate func =>
    if s.user I ∧ func ≠ I.after then (findFree s.state).map fun t => threadCreate I s func t
    else none
  | .threadYield scratch =>
    if s.user I ∧ s.mayCall I then
      some (threadSchedule I
        { s with state := Function.update s.state s.currentThread .RUNNABLE } scratch)
    else none
  | .exit scratch =>
    if s.user I ∧ s.mayCall I then
      some (threadSchedule I
        { s with state := Function.update s.state s.currentThread .FREE } scratch)
    else none
  | .ret => if s.exited = false ∧ s.pc = I.after then some (scheduleReturn I s) else none

/-- After `thread_init`: `main` is the thread in slot 0. -/
def boot (I : Image) (regs : Reg → Word) (pc : Word) (mem : Nat → Word) : State where
  regs := regs
  pc := pc
  mem := mem
  state := fun i => if i.val = 0 then .RUNNING else .FREE
  currentThread := ⟨0, by decide⟩
  exited := false
  stack := fun i => if i.val = 0 then I.ustack else I.stack i
  place := fun _ => .running

end Xv6.Uthread
