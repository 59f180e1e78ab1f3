import Mathlib.Logic.Function.Basic
import Xv6.Lib.Hoare
import Xv6.Lib.Run
import Xv6.Param

set_option autoImplicit false

/-! # The user heap

`user/umalloc.c`, with `sbrk` of `user/ulib.c` and what `sys_sbrk`, `growproc`, `uvmalloc` and
`uvmdealloc` do to the size of the process. Memory is read and written as headers: `mem a` is the
header-sized unit at the address `a`, in new memory whatever it happens to hold. A process can
access what is below its break and the rest of the page that the break is in; any other access
kills it. Pointers are naturals; `uint` is a natural that is reduced where an addition could wrap
around, and the arguments of `sbrk` are truncated to `int`. -/

namespace Xv6.Umalloc

open Xv6.Lib

/-- `sizeof(Header)` -/
def HEADER : Nat := 16
def PGSIZE : Nat := 4096
def PGROUNDUP (sz : Nat) : Nat := (sz + PGSIZE - 1) / PGSIZE * PGSIZE
/-- `PHYSTOP - KERNBASE`. No process is larger, since each of its pages is a page of memory. -/
def PHYSMEM : Nat := 128 * 1024 * 1024

structure Header where
  ptr : Nat
  size : Nat
  deriving DecidableEq

structure Proc where
  mem : Nat → Header
  /-- `freep`, 0 before the first call of `malloc`. -/
  freep : Nat
  /-- The break, `p->sz`. -/
  sz : Nat

inductive Fault where
  /-- An access to a page that the process does not have. -/
  | page
  /-- A loop over the list has made `ROUNDS` rounds. -/
  | rounds
  deriving DecidableEq

/-- More rounds than a list in `PHYSMEM` bytes has headers, twice. -/
def ROUNDS : Nat := 2 ^ 25

abbrev K := Code Fault Proc

def load (a : Nat) : K Header := do
  let s ← get
  if a + HEADER ≤ PGROUNDUP s.sz then pure (s.mem a) else throw .page

def save (a : Nat) (h : Header) : K PUnit := do
  let s ← get
  if a + HEADER ≤ PGROUNDUP s.sz then set { s with mem := Function.update s.mem a h }
  else throw .page

/-- `a->s.ptr = ptr` -/
def setPtr (a ptr : Nat) : K PUnit := do
  save a { ← load a with ptr := ptr }

/-- `a->s.size = size` -/
def setSize (a size : Nat) : K PUnit := do
  save a { ← load a with size := size }

def setFreep (p : Nat) : K PUnit := modify fun s => { s with freep := p }

/-! ## `sbrk` -/

def uvmdealloc (oldsz newsz : Nat) : Nat := if newsz ≥ oldsz then oldsz else newsz

/-- The old break, or nothing for `SBRK_ERROR`. The kernel has memory for a process of `room` bytes. -/
def sbrk (room : Nat) (n : Int) : K (Option Nat) := do
  let s ← get
  if n > 0 then
    if room < s.sz + n.toNat then pure none
    else do
      set { s with sz := s.sz + n.toNat }
      pure (some s.sz)
  else if n < 0 then do
    set { s with sz := uvmdealloc s.sz ((s.sz + n) % 2 ^ 64).toNat }
    pure (some s.sz)
  else pure (some s.sz)

/-! ## `free` -/

/-- Where the loop of `free` stops: between `p` and its successor, or at the end of the list. -/
def Between (bp p ptr : Nat) : Prop := bp > p ∧ bp < ptr ∨ p ≥ ptr ∧ (bp > p ∨ bp < ptr)

instance (bp p ptr : Nat) : Decidable (Between bp p ptr) := inferInstanceAs (Decidable (_ ∨ _))

def freeLoop (bp : Nat) : Nat → Nat → K Nat
  | 0, _ => throw .rounds
  | rounds + 1, p => do
    let h ← load p
    if Between bp p h.ptr then pure p else freeLoop bp rounds h.ptr

/-- Join to upper neighbor. -/
def joinUpper (bp p : Nat) : K PUnit := do
  let next := (← load p).ptr
  let b ← load bp
  if bp + HEADER * b.size = next then do
    let n ← load next
    setSize bp ((b.size + n.size) % 2 ^ 32)
    setPtr bp n.ptr
  else setPtr bp next

/-- Join to lower neighbor. -/
def joinLower (bp p : Nat) : K PUnit := do
  let h ← load p
  if p + HEADER * h.size = bp then do
    let b ← load bp
    setSize p ((h.size + b.size) % 2 ^ 32)
    setPtr p b.ptr
  else setPtr p bp

def free (ap : Nat) : K PUnit := do
  let bp := ap - HEADER
  let p ← freeLoop bp ROUNDS (← get).freep
  joinUpper bp p
  joinLower bp p
  setFreep p

/-! ## `malloc` -/

/-- What `morecore` does with the result of `sbrk`. -/
def addCore (nu : Nat) : Option Nat → K Nat
  | none => pure 0
  | some hp => do
    setSize hp nu
    free (hp + HEADER)
    return (← get).freep

def morecore (room nu : Nat) : K Nat := do
  let nu := if nu < 4096 then 4096 else nu
  addCore nu (← sbrk room (BitVec.ofNat 32 (nu * HEADER)).toInt)

/-- Units for `nbytes` and a header. The sum is one of `size_t`, and does not wrap around. -/
def nunits (nbytes : Uint) : Nat := (nbytes.toNat + HEADER - 1) / HEADER + 1

/-- Takes a block of `nunits` off the block at `p`, from the tail. -/
def take (nunits prevp p : Nat) (h : Header) : K Nat := do
  if h.size = nunits then do
    setPtr prevp h.ptr
    setFreep prevp
    pure (p + HEADER)
  else do
    setSize p (h.size - nunits)
    let q := p + HEADER * (h.size - nunits)
    setSize q nunits
    setFreep prevp
    pure (q + HEADER)

def mallocLoop (room nunits : Nat) : Nat → Nat → Nat → K Nat
  | 0, _, _ => throw .rounds
  | rounds + 1, prevp, p => do
    let h ← load p
    if h.size ≥ nunits then take nunits prevp p h
    else if p = (← get).freep then do
      let q ← morecore room nunits
      if q = 0 then pure 0
      else mallocLoop room nunits rounds q (← load q).ptr
    else mallocLoop room nunits rounds p h.ptr

/-- The first call makes the list of `base`. -/
def initList (base : Nat) : K PUnit := do
  setFreep base
  setPtr base base
  setSize base 0

def malloc (base room : Nat) (nbytes : Uint) : K Nat := do
  if (← get).freep = 0 then initList base else pure ⟨⟩
  let prevp := (← get).freep
  let p := (← load prevp).ptr
  mallocLoop room (nunits nbytes) ROUNDS prevp p

/-! ## The process -/

/-- A block that `malloc(n)` has returned, and that has not been freed. -/
structure Live where
  p : Nat
  n : Uint
  deriving DecidableEq

structure State where
  proc : Proc
  live : List Live

inductive Label where
  /-- `malloc(n)`, while the kernel has memory for a process of `room` bytes. -/
  | malloc (room : Nat) (n : Uint)
  | free (p : Live)
  /-- The process writes to its blocks. -/
  | write (mem : Nat → Header)

/-- The unit at an address is in a block. -/
def Live.Has (l : Live) (a : Nat) : Prop := l.p ≤ a ∧ a < l.p + l.n.toNat

instance (l : Live) (a : Nat) : Decidable (l.Has a) := inferInstanceAs (Decidable (_ ∧ _))

/-- What follows a call that has returned. -/
def returned {α : Type} (f : α → Proc → State) : Except Fault (α × Proc) → Option State
  | .ok (a, t) => some (f a t)
  | .error _ => none

/-- A step of the process; there is none where it would be killed. -/
def step (base : Nat) (s : State) : Label → Option State
  | .malloc room n =>
    if room ≤ PHYSMEM then
      returned (fun p t => ⟨t, if p = 0 then s.live else ⟨p, n⟩ :: s.live⟩) (malloc base room n s.proc)
    else none
  | .free l =>
    if l ∈ s.live then returned (fun _ t => ⟨t, s.live.erase l⟩) (free l.p s.proc) else none
  | .write mem => some { s with proc := { s.proc with
      mem := fun a => if ∃ l ∈ s.live, l.Has a then mem a else s.proc.mem a } }

/-- A process that has not called `malloc`, with its break at `brk`. -/
def start (mem : Nat → Header) (brk : Nat) : State := ⟨⟨mem, 0, brk⟩, []⟩

end Xv6.Umalloc
