import Xv6.Sv39.Mappings

set_option autoImplicit false

/-! # Copying between the kernel and a process

`copyout`, `copyin` and `copyinstr` of the `kernel/vm.c` with mandatory mappings, and `fetchstr` of
`kernel/syscall.c`. There is one memory, of bytes: an entry of a page table is the eight bytes at its
address, so that a store to a page of the process is one to its page table if the page is both. A buffer
of the kernel is memory of its own: `copyout` is given the bytes in it, and the other two return those
that they have put there. -/

namespace Xv6.Sv39

open Xv6.Lib

structure Ram where
  byte : Uint64 → Byte
  freelist : List Page

/-- The eight bytes at `a`, the lowest first. -/
def Ram.word (r : Ram) (a : Uint64) : Uint64 :=
  r.byte (a + 7) ++ r.byte (a + 6) ++ r.byte (a + 5) ++ r.byte (a + 4) ++
    r.byte (a + 3) ++ r.byte (a + 2) ++ r.byte (a + 1) ++ r.byte a

/-- The page tables that are in memory. -/
def Ram.mem (r : Ram) : Mem where
  page := fun p i => r.word (p + BitVec.ofNat 64 (8 * i))
  freelist := r.freelist

abbrev KR := Code Panic Ram

/-- Code that reads page tables and leaves them as they are: `walkaddr`, and `walk` without `alloc`. -/
def onMem {α : Type} (x : K α) : KR α := fun r =>
  match x r.mem with
  | .ok (a, _) => .ok (a, r)
  | .error e => .error e

/-- `memmove` from the kernel's buffer. -/
def memmove (dst : Uint64) (src : List Byte) : KR PUnit :=
  modify fun r => { r with byte := fun a => src.getD (a - dst).toNat (r.byte a) }

/-- `memmove` to the kernel's buffer. -/
def load (src : Uint64) (n : Nat) : KR (List Byte) := do
  let r ← get
  pure ((List.range n).map fun k => r.byte (src + BitVec.ofNat 64 k))

/-- `n = PGSIZE - (va - va0); if(n > len) n = len;` -/
def chunk (va : Uint64) (len : Nat) : Nat := min (PGSIZE.toNat - (va - PGROUNDDOWN va).toNat) len

theorem toNat_offset (va : Uint64) : (va - PGROUNDDOWN va).toNat = va.toNat % 2 ^ 12 := by
  have h := toNat_PGROUNDDOWN va
  have := va.isLt
  rw [BitVec.toNat_sub]
  omega

theorem chunk_pos (va : Uint64) {len : Nat} (h : len ≠ 0) : 0 < chunk va len := by
  have hoff := toNat_offset va
  have hsize := toNat_PGSIZE
  rw [chunk]
  omega

def copyout (pagetable : Pagetable) (dstva : Uint64) (src : List Byte) : KR Int :=
  if h : src.length = 0 then pure 0
  else
    let va0 := PGROUNDDOWN dstva
    if MAXVA ≤ va0 then pure (-1)
    else do
      match ← onMem (walk pagetable va0 false) with
      | none => pure (-1)
      | some pte => do
        let e := (← get).mem.page pte.1 pte.2
        if e &&& PTE_V = 0 ∨ e &&& PTE_U = 0 ∨ e &&& PTE_W = 0 then pure (-1)
        else do
          have := chunk_pos dstva h
          memmove (PTE2PA e + (dstva - va0)) (src.take (chunk dstva src.length))
          copyout pagetable (va0 + PGSIZE) (src.drop (chunk dstva src.length))
  termination_by src.length
  decreasing_by
    rw [List.length_drop]
    omega

def copyin (pagetable : Pagetable) (srcva : Uint64) (len : Nat) : KR (Int × List Byte) :=
  if h : len = 0 then pure (0, [])
  else do
    let va0 := PGROUNDDOWN srcva
    let pa0 ← onMem (walkaddr pagetable va0)
    if pa0 = 0 then pure (-1, [])
    else do
      have := chunk_pos srcva h
      let bytes ← load (pa0 + (srcva - va0)) (chunk srcva len)
      let rest ← copyin pagetable (va0 + PGSIZE) (len - chunk srcva len)
      pure (rest.1, bytes ++ rest.2)
  termination_by len

/-- The inner loop of `copyinstr`: the bytes that it copies, and `got_null`. -/
def copyUntilNull (byte : Uint64 → Byte) (p : Uint64) : Nat → List Byte × Bool
  | 0 => ([], false)
  | n + 1 =>
    if byte p = 0 then ([0], true)
    else (byte p :: (copyUntilNull byte (p + 1) n).1, (copyUntilNull byte (p + 1) n).2)

def copyinstr (pagetable : Pagetable) (srcva : Uint64) (max : Nat) : KR (Int × List Byte) :=
  if h : max = 0 then pure (-1, [])
  else do
    let va0 := PGROUNDDOWN srcva
    let pa0 ← onMem (walkaddr pagetable va0)
    if pa0 = 0 then pure (-1, [])
    else do
      have := chunk_pos srcva h
      let r ← get
      let copied := copyUntilNull r.byte (pa0 + (srcva - va0)) (chunk srcva max)
      if copied.2 then pure (0, copied.1)
      else do
        let rest ← copyinstr pagetable (va0 + PGSIZE) (max - chunk srcva max)
        pure (rest.1, copied.1 ++ rest.2)
  termination_by max

/-- The bytes in front of the first NUL, if there is one. -/
def strlen : List Byte → Option Nat
  | [] => none
  | b :: s => if b = 0 then some 0 else (strlen s).map Nat.succ

/-- What `fetchstr` returns, and what it leaves in `buf`; there is no result if `strlen` runs out of the
    bytes that have been copied. -/
def fetchstr (pagetable : Pagetable) (addr : Uint64) (max : Uint) : KR (Option Int × List Byte) := do
  let r ← copyinstr pagetable addr (max.signExtend 64).toNat
  if r.1 < 0 then pure (some (-1), r.2)
  else pure ((strlen r.2).map Int.ofNat, r.2)

end Xv6.Sv39
