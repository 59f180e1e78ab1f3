import Xv6.Lib.Hoare
import Xv6.Lib.Radix
import Xv6.Param

set_option autoImplicit false

/-! # Page tables in memory

`walk`, `walkaddr`, `mappages` and `uvmunmap` of the `kernel/vm.c` with mandatory mappings, with
`kalloc` and `kfree`. Here a page table is what it is for the hardware: physical pages of 512
entries, in which an entry of the upper two levels holds the address of another page. Addresses,
entries and the index arithmetic are on machine integers. The pointers to entries that `walk` deals
in are pairs of a page and an index. Memory is used as page-table pages only, and the free list,
which the allocator threads through the free pages, is a list. -/

namespace Xv6.Sv39

open Xv6.Lib Xv6.Lib.Radix

/-- `pte_t` -/
abbrev Pte := Uint64

/-- `pagetable_t`, the address of a page. -/
abbrev Pagetable := Uint64

/-- Bytes per page. -/
def PGSIZE : Uint64 := 4096
/-- One beyond the highest possible virtual address. -/
def MAXVA : Uint64 := 1 <<< 38
def KERNBASE : Uint64 := 0x80000000
def PHYSTOP : Uint64 := KERNBASE + 128 * 1024 * 1024

def PGROUNDDOWN (a : Uint64) : Uint64 := a &&& ~~~(PGSIZE - 1)

/-- Valid. -/
def PTE_V : Pte := 1 <<< 0
def PTE_R : Pte := 1 <<< 1
def PTE_W : Pte := 1 <<< 2
def PTE_X : Pte := 1 <<< 3
/-- User can access. -/
def PTE_U : Pte := 1 <<< 4

/-- Shift a physical address to the right place for a PTE. -/
def PA2PTE (pa : Uint64) : Pte := (pa >>> 12) <<< 10
def PTE2PA (pte : Pte) : Uint64 := (pte >>> 10) <<< 12
def PTE_FLAGS (pte : Pte) : Pte := pte &&& 0x3FF

def PXSHIFT (level : Nat) : Nat := 12 + 9 * level

/-- The page-table index of an address at a level, 9 bits. -/
def PX (level : Nat) (va : Uint64) : Fin 512 :=
  ⟨((va >>> PXSHIFT level) &&& 0x1FF).toNat, by
    rw [BitVec.toNat_and]
    exact Nat.lt_of_le_of_lt Nat.and_le_right (by decide)⟩

/-- `end`, the first address after the kernel, which is loaded at `KERNBASE`. -/
abbrev End := { a : Uint64 // KERNBASE ≤ a }

/-- A page that `kfree` has accepted. -/
abbrev Page := { pa : Uint64 // pa % PGSIZE = 0 ∧ KERNBASE ≤ pa ∧ pa < PHYSTOP }

inductive Panic where
  | walk
  /-- `mappages: va not aligned`, `mappages: size not aligned`, `mappages: size` and
      `mappages: remap` -/
  | mappagesVa | mappagesSizeAlign | mappagesSize | remap
  /-- `uvmunmap: not aligned`, `uvmunmap: walk`, `uvmunmap: not mapped` and
      `uvmunmap: not a leaf` -/
  | unmapVa | unmapWalk | unmapNotMapped | unmapLeaf
  | kfree
  deriving DecidableEq

structure Mem where
  page : Uint64 → Fin 512 → Pte
  freelist : List Page

abbrev K := Code Panic Mem

/-- `memset` of a whole page, one word of eight such bytes at a time. -/
def memset (pa : Uint64) (word : Pte) : K PUnit :=
  modify fun m => { m with page := Function.update m.page pa fun _ => word }

/-- `*pte = e` -/
def setPte (pte : Pagetable × Fin 512) (e : Pte) : K PUnit :=
  modify fun m => { m with page := store m.page pte.1 pte.2 e }

/-- Returns 0 if the memory cannot be allocated. -/
def kalloc : K Uint64 := do
  let m ← get
  match m.freelist with
  | [] => pure 0
  | r :: rest => do
    set { m with freelist := rest }
    memset r.1 0x0505050505050505
    pure r.1

def kfree (kend : End) (pa : Uint64) : K PUnit :=
  if h : pa % PGSIZE = 0 ∧ kend.1 ≤ pa ∧ pa < PHYSTOP then do
    memset pa 0x0101010101010101
    modify fun m =>
      { m with freelist := ⟨pa, h.1, BitVec.le_trans kend.2 h.2.1, h.2.2⟩ :: m.freelist }
  else throw .kfree

/-- The levels of `walk` that are left, from the table it has come to. -/
def walkLoop (va : Uint64) (alloc : Bool) : Nat → Pagetable → K (Option (Pagetable × Fin 512))
  | 0, pagetable => pure (some (pagetable, PX 0 va))
  | level + 1, pagetable => do
    let pte := (pagetable, PX (level + 1) va)
    let e := (← get).page pte.1 pte.2
    if e &&& PTE_V ≠ 0 then walkLoop va alloc level (PTE2PA e)
    else if alloc = false then pure none
    else do
      let page ← kalloc
      if page = 0 then pure none
      else do
        memset page 0
        setPte pte (PA2PTE page ||| PTE_V)
        walkLoop va alloc level page

/-- The entry for `va`, or 0. -/
def walk (pagetable : Pagetable) (va : Uint64) (alloc : Bool) :
    K (Option (Pagetable × Fin 512)) :=
  if MAXVA ≤ va then throw .walk else walkLoop va alloc 2 pagetable

def walkaddr (pagetable : Pagetable) (va : Uint64) : K Uint64 :=
  if MAXVA ≤ va then pure 0
  else do
    match ← walk pagetable va false with
    | none => pure 0
    | some pte => do
      let e := (← get).page pte.1 pte.2
      if e &&& PTE_V = 0 then pure 0
      else if e &&& PTE_U = 0 then pure 0
      else pure (PTE2PA e)

/-- The loop of `mappages`, with the number of pages that are left; it ends at `last`, before this
    number is 0. -/
def mappagesLoop (pagetable : Pagetable) (last : Uint64) (perm : Uint) :
    Nat → Uint64 → Uint64 → K Int
  | 0, _, _ => pure 0
  | left + 1, a, pa => do
    match ← walk pagetable a true with
    | none => pure (-1)
    | some pte =>
      if (← get).page pte.1 pte.2 &&& PTE_V ≠ 0 then throw .remap
      else do
        setPte pte (PA2PTE pa ||| perm.signExtend 64 ||| PTE_V)
        if a = last then pure 0
        else mappagesLoop pagetable last perm left (a + PGSIZE) (pa + PGSIZE)

def mappages (pagetable : Pagetable) (va size pa : Uint64) (perm : Uint) : K Int :=
  if va % PGSIZE ≠ 0 then throw .mappagesVa
  else if size % PGSIZE ≠ 0 then throw .mappagesSizeAlign
  else if size = 0 then throw .mappagesSize
  else mappagesLoop pagetable (va + size - PGSIZE) perm (size / PGSIZE).toNat va pa

/-- The loop of `uvmunmap`. It makes at most `npages` rounds, which is what `left` counts. -/
def uvmunmapLoop (kend : End) (pagetable : Pagetable) (last : Uint64) (do_free : Bool) :
    Nat → Uint64 → K PUnit
  | 0, _ => pure ⟨⟩
  | left + 1, a =>
    if a < last then do
      match ← walk pagetable a false with
      | none => throw .unmapWalk
      | some pte => do
        let e := (← get).page pte.1 pte.2
        if e &&& PTE_V = 0 then throw .unmapNotMapped
        else if PTE_FLAGS e = PTE_V then throw .unmapLeaf
        else do
          if do_free then kfree kend (PTE2PA e) else pure ⟨⟩
          setPte pte 0
          uvmunmapLoop kend pagetable last do_free left (a + PGSIZE)
    else pure ⟨⟩

def uvmunmap (kend : End) (pagetable : Pagetable) (va npages : Uint64) (do_free : Bool) : K PUnit :=
  if va % PGSIZE ≠ 0 then throw .unmapVa
  else uvmunmapLoop kend pagetable (va + npages * PGSIZE) do_free npages.toNat va

end Xv6.Sv39
