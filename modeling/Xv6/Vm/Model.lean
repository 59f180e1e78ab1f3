import Mathlib.Logic.Function.Basic
import Mathlib.Data.List.FinRange
import Xv6.Lib.Run
import Xv6.Lib.Hoare
import Xv6.Param

set_option autoImplicit false

/-! # User memory

`kernel/vm.c`, with `growproc`, `proc_pagetable`, `proc_freepagetable`, the parts of `kfork`,
`kexec` and `freeproc` that deal with memory, and `sys_sbrk`. A page table is the tree of its three
levels; an invalid entry of an upper level is `none`, a valid one holds the page it points to and
the table in it. The functions that change a page table return the new one. What user pages
contain is left out. Machine arithmetic is on naturals modulo `2 ^ 64`.

The loops over pages are recursions on the number of pages that are left; `walk` panics long before
an address of such a loop could wrap around. -/

namespace Xv6.Vm

open Xv6.Lib

def PGSIZE : Nat := 4096
def MAXVA : Nat := 2 ^ 38
def TRAMPOLINE : Nat := MAXVA - PGSIZE
def TRAPFRAME : Nat := TRAMPOLINE - PGSIZE
/-- User stack pages. -/
def USERSTACK : Nat := 1

inductive Panic where
  /-- `walk` -/
  | walk
  /-- `mappages: va not aligned`, `mappages: size not aligned`, `mappages: size` -/
  | mappagesVa | mappagesSize | mappagesZero
  /-- `mappages: remap` -/
  | remap
  /-- `uvmunmap: not aligned`, `uvmunmap: not a leaf` -/
  | unmapVa | unmapLeaf
  /-- `freewalk: leaf` -/
  | freewalk
  /-- `uvmclear` -/
  | uvmclear
  deriving DecidableEq

/-- `PTE_R`, `PTE_W`, `PTE_X` and `PTE_U`. -/
structure Perm where
  R : Bool
  W : Bool
  X : Bool
  U : Bool
  deriving DecidableEq

def Perm.none : Perm := ⟨false, false, false, false⟩

/-- A page-table entry of the lowest level: `PTE_V`, the other flags, and the page. -/
structure Pte where
  V : Bool
  perm : Perm
  pa : Nat
  deriving DecidableEq

def Pte.zero : Pte := ⟨false, Perm.none, 0⟩

abbrev Leaf := Fin 512 → Pte
abbrev Mid := Fin 512 → Option (Nat × Leaf)
/-- What the root page contains. -/
abbrev PageTable := Fin 512 → Option (Nat × Mid)

/-- The pages of the allocator, and a history variable: the addresses that `uvmunmap` with `do_free`
    has come to. -/
structure Mem where
  freelist : List Nat
  unmapped : List Nat

abbrev K := Code Panic Mem

def PX (level va : Nat) : Fin 512 := Fin.ofNat 512 (va / 2 ^ (12 + 9 * level))
def PGROUNDUP (sz : Nat) : Nat := (sz + PGSIZE - 1) % 2 ^ 64 / PGSIZE * PGSIZE
def PGROUNDDOWN (a : Nat) : Nat := a / PGSIZE * PGSIZE

def kalloc : K (Option Nat) := do
  let m ← get
  match m.freelist with
  | [] => pure none
  | pa :: rest => do
    set { m with freelist := rest }
    pure (some pa)

def kfree (pa : Nat) : K PUnit := modify fun m => { m with freelist := pa :: m.freelist }

/-! ## Page tables -/

/-- One level of `walk`: the table an entry points to, which `alloc` creates if need be. -/
def descend {α : Type} (entry : Option (Nat × α)) (empty : α) (alloc : Bool) :
    K (Option (Nat × α)) :=
  match entry with
  | some table => pure (some table)
  | none => if alloc then do
      let pa ← kalloc
      pure (pa.map fun pa => (pa, empty))
    else pure none

/-- The page table, with the tables that have been created, and the entry for `va`. -/
def walk (pt : PageTable) (va : Nat) (alloc : Bool) : K (PageTable × Option Pte) :=
  if MAXVA ≤ va then throw .walk
  else do
    match ← descend (pt (PX 2 va)) (fun _ => none) alloc with
    | none => pure (pt, none)
    | some (pa1, mid) =>
      match ← descend (mid (PX 1 va)) (fun _ => Pte.zero) alloc with
      | none => pure (Function.update pt (PX 2 va) (some (pa1, mid)), none)
      | some (pa0, leaf) =>
        pure (Function.update pt (PX 2 va)
          (some (pa1, Function.update mid (PX 1 va) (some (pa0, leaf)))), some (leaf (PX 0 va)))

/-- `*pte = e`, for the entry of `va` that `walk` has found. -/
def setPte (pt : PageTable) (va : Nat) (e : Pte) : PageTable :=
  match pt (PX 2 va) with
  | none => pt
  | some (pa1, mid) =>
    match mid (PX 1 va) with
    | none => pt
    | some (pa0, leaf) =>
      Function.update pt (PX 2 va) (some (pa1,
        Function.update mid (PX 1 va) (some (pa0, Function.update leaf (PX 0 va) e))))

def walkaddr (pt : PageTable) (va : Nat) : K Nat :=
  if MAXVA ≤ va then pure 0
  else do
    match (← walk pt va false).2 with
    | none => pure 0
    | some pte => if pte.V = false ∨ pte.perm.U = false then pure 0 else pure pte.pa

def mappagesLoop (perm : Perm) : Nat → PageTable → Nat → Nat → K (PageTable × Int)
  | 0, pt, _, _ => pure (pt, 0)
  | n + 1, pt, a, pa => do
    let r ← walk pt a true
    match r.2 with
    | none => pure (r.1, -1)
    | some pte =>
      if pte.V then throw .remap
      else mappagesLoop perm n (setPte r.1 a ⟨true, perm, pa⟩) (a + PGSIZE) (pa + PGSIZE)

def mappages (pt : PageTable) (va size pa : Nat) (perm : Perm) : K (PageTable × Int) :=
  if va % PGSIZE ≠ 0 then throw .mappagesVa
  else if size % PGSIZE ≠ 0 then throw .mappagesSize
  else if size = 0 then throw .mappagesZero
  else mappagesLoop perm (size / PGSIZE) pt va pa

/-- Unmaps the page at `a`. -/
def unmapPage (pt : PageTable) (a : Nat) (do_free : Bool) : K PageTable := do
  (if do_free then modify fun m => { m with unmapped := a :: m.unmapped } else pure ⟨⟩)
  match (← walk pt a false).2 with
  | none => pure pt
  | some pte =>
    if pte.V = false then pure pt
    else if pte.perm = Perm.none then throw .unmapLeaf
    else do
      (if do_free then kfree pte.pa else pure ⟨⟩)
      pure (setPte pt a Pte.zero)

def uvmunmapLoop (do_free : Bool) : Nat → PageTable → Nat → K PageTable
  | 0, pt, _ => pure pt
  | n + 1, pt, a => do
    let pt ← unmapPage pt a do_free
    uvmunmapLoop do_free n pt (a + PGSIZE)

def uvmunmap (pt : PageTable) (va npages : Nat) (do_free : Bool) : K PageTable :=
  if va % PGSIZE ≠ 0 then throw .unmapVa else uvmunmapLoop do_free npages pt va

def uvmdealloc (pt : PageTable) (oldsz newsz : Nat) : K (PageTable × Nat) :=
  if oldsz ≤ newsz then pure (pt, oldsz)
  else if PGROUNDUP newsz < PGROUNDUP oldsz then do
    let pt ← uvmunmap pt (PGROUNDUP newsz) ((PGROUNDUP oldsz - PGROUNDUP newsz) / PGSIZE) true
    pure (pt, newsz)
  else pure (pt, newsz)

/-- `false` when memory has run out, and what was allocated from `oldsz` on has been freed. -/
def uvmallocLoop (xperm : Perm) (oldsz : Nat) : Nat → PageTable → Nat → K (PageTable × Bool)
  | 0, pt, _ => pure (pt, true)
  | n + 1, pt, a => do
    match ← kalloc with
    | none => do
      let r ← uvmdealloc pt a oldsz
      pure (r.1, false)
    | some mem => do
      let r ← mappages pt a PGSIZE mem { xperm with R := true, U := true }
      if r.2 ≠ 0 then do
        kfree mem
        let r ← uvmdealloc r.1 a oldsz
        pure (r.1, false)
      else uvmallocLoop xperm oldsz n r.1 (a + PGSIZE)

def uvmalloc (pt : PageTable) (oldsz newsz : Nat) (xperm : Perm) : K (PageTable × Nat) :=
  if newsz < oldsz then pure (pt, oldsz)
  else do
    let a := PGROUNDUP oldsz
    let r ← uvmallocLoop xperm a ((newsz - a + PGSIZE - 1) / PGSIZE) pt a
    pure (r.1, if r.2 then newsz else 0)

/-- The indices of the entries of a table. -/
@[irreducible] def entries : List (Fin 512) := List.finRange 512

/-- An entry of the lowest level that is valid; such an entry has `PTE_R` set. -/
@[irreducible] def hasLeaf (leaf : Leaf) : Bool := entries.any fun i => (leaf i).V

def freewalkLeaf (table : Nat × Leaf) : K PUnit :=
  if hasLeaf table.2 then throw .freewalk else kfree table.1

def freewalkMid (table : Nat × Mid) : K PUnit := do
  entries.forM fun i => match table.2 i with
    | none => pure ⟨⟩
    | some child => freewalkLeaf child
  kfree table.1

def freewalk (root : Nat) (pt : PageTable) : K PUnit := do
  entries.forM fun i => match pt i with
    | none => pure ⟨⟩
    | some child => freewalkMid child
  kfree root

def uvmfree (root : Nat) (pt : PageTable) (sz : Nat) : K PUnit := do
  let pt ← (if 0 < sz then uvmunmap pt 0 (PGROUNDUP sz / PGSIZE) true else pure pt)
  freewalk root pt

def uvmcopyLoop (old : PageTable) : Nat → PageTable → Nat → K (PageTable × Int)
  | 0, new, _ => pure (new, 0)
  | n + 1, new, i => do
    match (← walk old i false).2 with
    | none => uvmcopyLoop old n new (i + PGSIZE)
    | some pte =>
      if pte.V = false then uvmcopyLoop old n new (i + PGSIZE)
      else do
        match ← kalloc with
        | none => do
          let new ← uvmunmap new 0 (i / PGSIZE) true
          pure (new, -1)
        | some mem => do
          let r ← mappages new i PGSIZE mem pte.perm
          if r.2 ≠ 0 then do
            kfree mem
            let new ← uvmunmap r.1 0 (i / PGSIZE) true
            pure (new, -1)
          else uvmcopyLoop old n r.1 (i + PGSIZE)

def uvmcopy (old new : PageTable) (sz : Nat) : K (PageTable × Int) :=
  uvmcopyLoop old ((sz + PGSIZE - 1) / PGSIZE) new 0

def uvmclear (pt : PageTable) (va : Nat) : K PageTable := do
  match (← walk pt va false).2 with
  | none => throw .uvmclear
  | some pte => pure (setPte pt va { pte with perm := { pte.perm with U := false } })

def ismapped (pt : PageTable) (va : Nat) : K Bool := do
  match (← walk pt va false).2 with
  | none => pure false
  | some pte => pure pte.V

/-! ## Processes -/

/-- The fields of `struct proc` about memory; `root` is the page of `pagetable`. -/
structure Proc where
  root : Nat
  pagetable : PageTable
  trapframe : Nat
  sz : Nat

/-- The process and the physical address, or 0. -/
def vmfault (p : Proc) (va : Nat) : K (Proc × Nat) :=
  if p.sz ≤ va then pure (p, 0)
  else do
    let va := PGROUNDDOWN va
    if ← ismapped p.pagetable va then pure (p, 0)
    else match ← kalloc with
      | none => pure (p, 0)
      | some mem => do
        let r ← mappages p.pagetable va PGSIZE mem ⟨true, true, false, true⟩
        let p := { p with pagetable := r.1 }
        if r.2 ≠ 0 then do
          kfree mem
          pure (p, 0)
        else pure (p, mem)

/-- Where the page of `va` is, after a fault if it was not mapped. -/
def resolve (p : Proc) (va : Nat) : K (Proc × Nat) := do
  let pa ← walkaddr p.pagetable va
  if pa = 0 then vmfault p va else pure (p, pa)

/-- The number of bytes copied in one round. -/
def chunk (va len : Nat) : Nat := min (PGSIZE - (va - PGROUNDDOWN va)) len

theorem chunk_pos (va : Nat) {len : Nat} (h : len ≠ 0) : 0 < chunk va len := by
  unfold chunk PGROUNDDOWN PGSIZE
  omega

def copyout (p : Proc) (dstva len : Nat) : K (Proc × Int) :=
  if h : len = 0 then pure (p, 0)
  else if MAXVA ≤ PGROUNDDOWN dstva then pure (p, -1)
  else do
    let r ← resolve p (PGROUNDDOWN dstva)
    if r.2 = 0 then pure (r.1, -1)
    else match (← walk r.1.pagetable (PGROUNDDOWN dstva) false).2 with
      | none => pure (r.1, -1)
      | some pte =>
        if pte.perm.W = false then pure (r.1, -1)
        else
          have := chunk_pos dstva h
          copyout r.1 ((PGROUNDDOWN dstva + PGSIZE) % 2 ^ 64) (len - chunk dstva len)
  termination_by len

def copyin (p : Proc) (srcva len : Nat) : K (Proc × Int) :=
  if h : len = 0 then pure (p, 0)
  else do
    let r ← resolve p (PGROUNDDOWN srcva)
    if r.2 = 0 then pure (r.1, -1)
    else
      have := chunk_pos srcva h
      copyin r.1 ((PGROUNDDOWN srcva + PGSIZE) % 2 ^ 64) (len - chunk srcva len)
  termination_by len

/-- The root page and the new page table. -/
def procPagetable (trapframe trampoline : Nat) : K (Option (Nat × PageTable)) := do
  match ← kalloc with
  | none => pure none
  | some root => do
    let r ← mappages (fun _ => none) TRAMPOLINE PGSIZE trampoline ⟨true, false, true, false⟩
    if r.2 < 0 then do
      uvmfree root r.1 0
      pure none
    else do
      let r ← mappages r.1 TRAPFRAME PGSIZE trapframe ⟨true, true, false, false⟩
      if r.2 < 0 then do
        let pt ← uvmunmap r.1 TRAMPOLINE 1 false
        uvmfree root pt 0
        pure none
      else pure (some (root, r.1))

def procFreepagetable (root : Nat) (pt : PageTable) (sz : Nat) : K PUnit := do
  let pt ← uvmunmap pt TRAMPOLINE 1 false
  let pt ← uvmunmap pt TRAPFRAME 1 false
  uvmfree root pt sz

/-- What `freeproc` does about memory. -/
def freeproc (p : Proc) : K PUnit := do
  kfree p.trapframe
  procFreepagetable p.root p.pagetable p.sz

/-- What `allocproc` and `kfork` do about memory; `none` when there is not enough of it. -/
def kfork (p : Proc) (trampoline : Nat) : K (Option Proc) := do
  match ← kalloc with
  | none => pure none
  | some trapframe => do
    match ← procPagetable trapframe trampoline with
    | none => do
      kfree trapframe
      pure none
    | some (root, pt) => do
      let r ← uvmcopy p.pagetable pt p.sz
      if r.2 < 0 then do
        freeproc ⟨root, r.1, trapframe, 0⟩
        pure none
      else pure (some ⟨root, r.1, trapframe, p.sz⟩)

/-- `sz + n` in `uint64`. -/
def addSz (sz : Nat) (n : Int) : Nat := ((sz + n) % 2 ^ 64).toNat

/-- The process, and 0 or -1. -/
def growproc (p : Proc) (n : Int) : K (Proc × Int) :=
  if 0 < n then do
    let r ← uvmalloc p.pagetable p.sz (addSz p.sz n) ⟨false, true, false, false⟩
    if r.2 = 0 then pure ({ p with pagetable := r.1 }, -1)
    else pure ({ p with pagetable := r.1, sz := r.2 }, 0)
  else if n < 0 then do
    let r ← uvmdealloc p.pagetable p.sz (addSz p.sz n)
    pure ({ p with pagetable := r.1, sz := r.2 }, 0)
  else pure (p, 0)

/-- `eager` says whether `t == SBRK_EAGER`. -/
def sysSbrk (p : Proc) (n : BitVec 32) (eager : Bool) : K (Proc × Int) :=
  if eager = true ∨ n.toInt < 0 then do
    let r ← growproc p n.toInt
    if r.2 < 0 then pure (r.1, -1) else pure (r.1, p.sz)
  else if addSz p.sz n.toInt < p.sz then pure (p, -1)
  else pure ({ p with sz := addSz p.sz n.toInt }, p.sz)

/-- The loadable segments of the program, as `kexec` loads them; `none` stands for `goto bad`. -/
def loadSegments : List (Nat × Nat × Perm) → PageTable → Nat → K (PageTable × Option Nat)
  | [], pt, sz => pure (pt, some sz)
  | (vaddr, memsz, perm) :: rest, pt, sz =>
    if (vaddr + memsz) % 2 ^ 64 < vaddr ∨ vaddr % PGSIZE ≠ 0 then pure (pt, none)
    else do
      let r ← uvmalloc pt sz ((vaddr + memsz) % 2 ^ 64) perm
      if r.2 = 0 then pure (r.1, none) else loadSegments rest r.1 r.2

/-- What `kexec` does about memory up to the copying of the arguments, which changes no page table.
    What is freed on failure is left out. -/
def kexec (trapframe trampoline : Nat) (segments : List (Nat × Nat × Perm)) : K (Option Proc) := do
  match ← procPagetable trapframe trampoline with
  | none => pure none
  | some (root, pt) => do
    let r ← loadSegments segments pt 0
    match r.2 with
    | none => pure none
    | some sz => do
      let sz := PGROUNDUP sz
      let r ← uvmalloc r.1 sz ((sz + (USERSTACK + 1) * PGSIZE) % 2 ^ 64) ⟨false, true, false, false⟩
      if r.2 = 0 then pure none
      else do
        let pt ← uvmclear r.1 (r.2 - (USERSTACK + 1) * PGSIZE)
        pure (some ⟨root, pt, trapframe, r.2⟩)

/-! ## The system -/

structure State (Pid : Type) where
  mem : Mem
  proc : Pid → Option Proc
  /-- The kernel has stopped. -/
  panic : Option Panic

inductive Label (Pid : Type) where
  | sbrk (p : Pid) (n : BitVec 32) (eager : Bool)
  | fault (p : Pid) (stval : Uint64)
  | copyin (p : Pid) (srcva len : Uint64)
  | copyout (p : Pid) (dstva len : Uint64)
  | fork (p np : Pid)
  | exit (p : Pid)
  /-- The rest of the kernel allocates and frees pages. -/
  | kernel (freelist : List Nat)

section Step

variable {Pid : Type} [DecidableEq Pid]

/-- `p` runs kernel code, which gives it a new memory. -/
def State.runs (s : State Pid) (p : Pid) (f : Proc → K Proc) : Option (State Pid) :=
  match s.panic, s.proc p with
  | none, some proc => match f proc s.mem with
    | .ok (proc, mem) => some { s with mem := mem, proc := Function.update s.proc p (some proc) }
    | .error e => some { s with panic := some e }
  | _, _ => none

def step (trampoline : Nat) (s : State Pid) : Label Pid → Option (State Pid)
  | .sbrk p n eager => s.runs p fun q => Prod.fst <$> sysSbrk q n eager
  | .fault p stval => s.runs p fun q => Prod.fst <$> vmfault q stval.toNat
  | .copyin p srcva len => s.runs p fun q => Prod.fst <$> copyin q srcva.toNat len.toNat
  | .copyout p dstva len => s.runs p fun q => Prod.fst <$> copyout q dstva.toNat len.toNat
  | .fork p np => match s.panic, s.proc p, s.proc np with
    | none, some q, none => match kfork q trampoline s.mem with
      | .ok (child, mem) => some { s with mem := mem, proc := Function.update s.proc np child }
      | .error e => some { s with panic := some e }
    | _, _, _ => none
  | .exit p => match s.panic, s.proc p with
    | none, some q => match freeproc q s.mem with
      | .ok (_, mem) => some { s with mem := mem, proc := Function.update s.proc p none }
      | .error e => some { s with panic := some e }
    | _, _ => none
  | .kernel freelist =>
    if s.panic = none then some { s with mem := { s.mem with freelist := freelist } } else none

end Step

/-- Every process is one that a successful `kexec` has left. -/
def Init {Pid : Type} (trampoline : Nat) (s : State Pid) : Prop :=
  s.panic = none ∧ s.mem.unmapped = [] ∧ ∀ p q, s.proc p = some q →
    ∃ trapframe segments freelist m, kexec trapframe trampoline segments ⟨freelist, []⟩ =
      .ok (some q, m)

end Xv6.Vm
