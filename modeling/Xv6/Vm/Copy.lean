import Xv6.Vm.Model

set_option autoImplicit false

/-! # Copying between the kernel and a process

`copyout`, `copyin`, `copyinstr` and `vmfault` of `kernel/vm.c` with the bytes that they move. What the
pages of page tables contain is in the trees; the other pages contain bytes. The buffer of the kernel
is memory of its own: `copyout` is given the bytes in it, and the other two return those that they
have put there. -/

namespace Xv6.Vm.Copy

open Xv6.Lib

abbrev Byte := BitVec 8

structure Ram where
  mem : Mem
  byte : Nat → Byte
  /-- A history variable: `kalloc` has returned 0. -/
  short : Bool

abbrev KR := Code Panic Ram

/-- Code that deals with page tables and free pages. -/
def onMem {α : Type} (x : K α) : KR α := fun r =>
  match x r.mem with
  | .ok (a, m) => .ok (a, { r with mem := m })
  | .error e => .error e

def memset (dst : Nat) (c : Byte) (n : Nat) : KR PUnit :=
  modify fun r => { r with byte := fun a => if dst ≤ a ∧ a < dst + n then c else r.byte a }

/-- `memmove` from the kernel's buffer. -/
def memmove (dst : Nat) (src : List Byte) : KR PUnit :=
  modify fun r => { r with byte := fun a => if dst ≤ a then src.getD (a - dst) (r.byte a) else r.byte a }

/-- `memmove` to the kernel's buffer. -/
def load (src n : Nat) : KR (List Byte) := do
  let r ← get
  pure ((List.range n).map fun k => r.byte (src + k))

def noteShort : KR PUnit := modify fun r => { r with short := true }

def kalloc : KR (Option Nat) := do
  match ← onMem Vm.kalloc with
  | none => do
    noteShort
    pure none
  | some pa => do
    memset pa 5 PGSIZE
    pure (some pa)

def kfree (pa : Nat) : KR PUnit := do
  memset pa 1 PGSIZE
  onMem (Vm.kfree pa)

/-- It fails where `kalloc` has returned 0 to `walk`. -/
def mappages (pt : PageTable) (va size pa : Nat) (perm : Perm) : KR (PageTable × Int) := do
  let r ← onMem (Vm.mappages pt va size pa perm)
  (if r.2 ≠ 0 then noteShort else pure ⟨⟩)
  pure r

/-- `PTE_W|PTE_U|PTE_R` -/
def userRW : Perm := ⟨true, true, false, true⟩

def vmfault (p : Proc) (va : Nat) : KR (Proc × Nat) :=
  if p.sz ≤ va then pure (p, 0)
  else do
    let va := PGROUNDDOWN va
    if ← onMem (ismapped p.pagetable va) then pure (p, 0)
    else match ← kalloc with
      | none => pure (p, 0)
      | some mem => do
        memset mem 0 PGSIZE
        let r ← mappages p.pagetable va PGSIZE mem userRW
        let p := { p with pagetable := r.1 }
        if r.2 ≠ 0 then do
          kfree mem
          pure (p, 0)
        else pure (p, mem)

def resolve (p : Proc) (va : Nat) : KR (Proc × Nat) := do
  let pa ← onMem (walkaddr p.pagetable va)
  if pa = 0 then vmfault p va else pure (p, pa)

def copyout (p : Proc) (dstva : Nat) (src : List Byte) : KR (Proc × Int) :=
  if h : src.length = 0 then pure (p, 0)
  else if MAXVA ≤ PGROUNDDOWN dstva then pure (p, -1)
  else do
    let r ← resolve p (PGROUNDDOWN dstva)
    if r.2 = 0 then pure (r.1, -1)
    else match (← onMem (walk r.1.pagetable (PGROUNDDOWN dstva) false)).2 with
      | none => pure (r.1, -1)
      | some pte =>
        if pte.perm.W = false then pure (r.1, -1)
        else do
          have := chunk_pos dstva h
          memmove (r.2 + (dstva - PGROUNDDOWN dstva)) (src.take (chunk dstva src.length))
          copyout r.1 ((PGROUNDDOWN dstva + PGSIZE) % 2 ^ 64) (src.drop (chunk dstva src.length))
  termination_by src.length
  decreasing_by simp only [List.length_drop]; omega

def copyin (p : Proc) (srcva len : Nat) : KR (Proc × Int × List Byte) :=
  if h : len = 0 then pure (p, 0, [])
  else do
    let r ← resolve p (PGROUNDDOWN srcva)
    if r.2 = 0 then pure (r.1, -1, [])
    else do
      have := chunk_pos srcva h
      let bytes ← load (r.2 + (srcva - PGROUNDDOWN srcva)) (chunk srcva len)
      let rest ← copyin r.1 ((PGROUNDDOWN srcva + PGSIZE) % 2 ^ 64) (len - chunk srcva len)
      pure (rest.1, rest.2.1, bytes ++ rest.2.2)
  termination_by len

/-- The inner loop of `copyinstr`: the bytes that it copies, and `got_null`. -/
def copyUntilNull (byte : Nat → Byte) (p : Nat) : Nat → List Byte × Bool
  | 0 => ([], false)
  | n + 1 =>
    if byte p = 0 then ([0], true)
    else (byte p :: (copyUntilNull byte (p + 1) n).1, (copyUntilNull byte (p + 1) n).2)

def copyinstr (pt : PageTable) (srcva max : Nat) : KR (Int × List Byte) :=
  if h : max = 0 then pure (-1, [])
  else do
    let pa0 ← onMem (walkaddr pt (PGROUNDDOWN srcva))
    if pa0 = 0 then pure (-1, [])
    else do
      have := chunk_pos srcva h
      let r ← get
      let copied := copyUntilNull r.byte (pa0 + (srcva - PGROUNDDOWN srcva)) (chunk srcva max)
      if copied.2 then pure (0, copied.1)
      else do
        let rest ← copyinstr pt ((PGROUNDDOWN srcva + PGSIZE) % 2 ^ 64) (max - chunk srcva max)
        pure (rest.1, copied.1 ++ rest.2)
  termination_by max

end Xv6.Vm.Copy
