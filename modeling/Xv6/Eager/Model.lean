import Xv6.Vm.Model

set_option autoImplicit false

/-! # User memory without holes

`kernel/vm.c` of the kernel whose `sbrk` maps every page at once, with what `proc.c` and `exec.c` do
about memory. `walk`, `mappages`, `freewalk` and `uvmclear` are the functions of the other kernel; here
`uvmunmap` and `uvmcopy` panic at a page that is not mapped. What user pages contain is left out. -/

namespace Xv6.Eager

open Xv6.Lib Xv6.Vm

inductive Panic where
  /-- A panic of a function that both kernels have. -/
  | vm (e : Vm.Panic)
  /-- `uvmunmap: walk`, `uvmunmap: not mapped` -/
  | unmapWalk | unmapMissing
  /-- `uvmcopy: pte should exist`, `uvmcopy: page not present` -/
  | copyWalk | copyMissing
  /-- `loadseg: address should exist` -/
  | loadseg
  deriving DecidableEq

abbrev K := Code Panic Mem

/-- Runs a function that both kernels have. -/
def onVm {α : Type} (x : Vm.K α) : K α := fun m => match x m with
  | .ok r => .ok r
  | .error e => .error (.vm e)

/-- A `uint64` as an `int`, and that as a `uint64` again. -/
def int (x : Nat) : Nat := ((BitVec.ofNat 32 x).signExtend 64).toNat

/-! ## Page tables -/

/-- Unmaps the page at `a`, which must be mapped. -/
def unmapPage (pt : PageTable) (a : Nat) (do_free : Bool) : K PageTable := do
  match (← onVm (walk pt a false)).2 with
  | none => throw .unmapWalk
  | some pte =>
    if pte.V = false then throw .unmapMissing
    else if pte.perm = Perm.none then throw (.vm .unmapLeaf)
    else do
      (if do_free then onVm (kfree pte.pa) else pure ⟨⟩)
      pure (setPte pt a Pte.zero)

def uvmunmapLoop (do_free : Bool) : Nat → PageTable → Nat → K PageTable
  | 0, pt, _ => pure pt
  | n + 1, pt, a => do
    let pt ← unmapPage pt a do_free
    uvmunmapLoop do_free n pt (a + PGSIZE)

def uvmunmap (pt : PageTable) (va npages : Nat) (do_free : Bool) : K PageTable :=
  if va % PGSIZE ≠ 0 then throw (.vm .unmapVa) else uvmunmapLoop do_free npages pt va

/-- The number of pages is an `int`. -/
def uvmdealloc (pt : PageTable) (oldsz newsz : Nat) : K (PageTable × Nat) :=
  if oldsz ≤ newsz then pure (pt, oldsz)
  else if PGROUNDUP newsz < PGROUNDUP oldsz then do
    let pt ← uvmunmap pt (PGROUNDUP newsz) (int ((PGROUNDUP oldsz - PGROUNDUP newsz) / PGSIZE)) true
    pure (pt, newsz)
  else pure (pt, newsz)

/-- `false` when memory has run out, and what was allocated from `oldsz` on has been freed. -/
def uvmallocLoop (xperm : Perm) (oldsz : Nat) : Nat → PageTable → Nat → K (PageTable × Bool)
  | 0, pt, _ => pure (pt, true)
  | n + 1, pt, a => do
    match ← onVm kalloc with
    | none => do
      let r ← uvmdealloc pt a oldsz
      pure (r.1, false)
    | some mem => do
      let r ← onVm (mappages pt a PGSIZE mem { xperm with R := true, U := true })
      if r.2 ≠ 0 then do
        onVm (kfree mem)
        let r ← uvmdealloc r.1 a oldsz
        pure (r.1, false)
      else uvmallocLoop xperm oldsz n r.1 (a + PGSIZE)

def uvmalloc (pt : PageTable) (oldsz newsz : Nat) (xperm : Perm) : K (PageTable × Nat) :=
  if newsz < oldsz then pure (pt, oldsz)
  else do
    let a := PGROUNDUP oldsz
    let r ← uvmallocLoop xperm a ((newsz - a + PGSIZE - 1) / PGSIZE) pt a
    pure (r.1, if r.2 then newsz else 0)

def uvmfree (root : Nat) (pt : PageTable) (sz : Nat) : K PUnit := do
  let pt ← (if 0 < sz then uvmunmap pt 0 (PGROUNDUP sz / PGSIZE) true else pure pt)
  onVm (freewalk root pt)

def uvmcopyLoop (old : PageTable) : Nat → PageTable → Nat → K (PageTable × Int)
  | 0, new, _ => pure (new, 0)
  | n + 1, new, i => do
    match (← onVm (walk old i false)).2 with
    | none => throw .copyWalk
    | some pte =>
      if pte.V = false then throw .copyMissing
      else do
        match ← onVm kalloc with
        | none => do
          let new ← uvmunmap new 0 (i / PGSIZE) true
          pure (new, -1)
        | some mem => do
          let r ← onVm (mappages new i PGSIZE mem pte.perm)
          if r.2 ≠ 0 then do
            onVm (kfree mem)
            let new ← uvmunmap r.1 0 (i / PGSIZE) true
            pure (new, -1)
          else uvmcopyLoop old n r.1 (i + PGSIZE)

def uvmcopy (old new : PageTable) (sz : Nat) : K (PageTable × Int) :=
  uvmcopyLoop old ((sz + PGSIZE - 1) / PGSIZE) new 0

/-! ## Processes

`trampoline` is the page of the trampoline code; a process is the one of the other kernel. -/

/-- The root page and the new page table. -/
def procPagetable (trapframe trampoline : Nat) : K (Option (Nat × PageTable)) := do
  match ← onVm kalloc with
  | none => pure none
  | some root => do
    let r ← onVm (mappages (fun _ => none) TRAMPOLINE PGSIZE trampoline ⟨true, false, true, false⟩)
    if r.2 < 0 then do
      uvmfree root r.1 0
      pure none
    else do
      let r ← onVm (mappages r.1 TRAPFRAME PGSIZE trapframe ⟨true, true, false, false⟩)
      if r.2 < 0 then do
        let pt ← uvmunmap r.1 TRAMPOLINE 1 false
        uvmfree root pt 0
        pure none
      else pure (some (root, r.1))

def procFreepagetable (root : Nat) (pt : PageTable) (sz : Nat) : K PUnit := do
  let pt ← uvmunmap pt TRAMPOLINE 1 false
  let pt ← uvmunmap pt TRAPFRAME 1 false
  uvmfree root pt sz

def freeproc (p : Proc) : K PUnit := do
  onVm (kfree p.trapframe)
  procFreepagetable p.root p.pagetable p.sz

/-- A slot of the process table that is not used has size 0. -/
def allocproc (trampoline : Nat) : K (Option Proc) := do
  match ← onVm kalloc with
  | none => pure none
  | some trapframe => do
    match ← procPagetable trapframe trampoline with
    | none => do
      onVm (kfree trapframe)
      pure none
    | some (root, pt) => pure (some ⟨root, pt, trapframe, 0⟩)

/-- The first process, with its one page. -/
def userinit (trampoline : Nat) : K (Option Proc) := do
  match ← allocproc trampoline with
  | none => pure none
  | some p => do
    match ← onVm kalloc with
    | none => pure none
    | some mem => do
      let r ← onVm (mappages p.pagetable 0 PGSIZE mem ⟨true, true, true, true⟩)
      if r.2 ≠ 0 then pure none else pure (some { p with pagetable := r.1, sz := PGSIZE })

/-- The process, and 0 or -1. -/
def growproc (p : Proc) (n : BitVec 32) : K (Proc × Int) :=
  if 0 < n.toInt then do
    let r ← uvmalloc p.pagetable p.sz (addSz p.sz n.toInt) ⟨false, true, false, false⟩
    if r.2 = 0 then pure ({ p with pagetable := r.1 }, -1)
    else pure ({ p with pagetable := r.1, sz := r.2 }, 0)
  else if n.toInt < 0 then do
    let r ← uvmdealloc p.pagetable p.sz (addSz p.sz n.toInt)
    pure ({ p with pagetable := r.1, sz := r.2 }, 0)
  else pure (p, 0)

def sysSbrk (p : Proc) (n : BitVec 32) : K (Proc × Int) := do
  let r ← growproc p n
  if r.2 < 0 then pure (r.1, -1) else pure (r.1, p.sz)

/-- The child, or `none` where `fork` returns -1. -/
def fork (p : Proc) (trampoline : Nat) : K (Option Proc) := do
  match ← allocproc trampoline with
  | none => pure none
  | some np => do
    let r ← uvmcopy p.pagetable np.pagetable p.sz
    let np := { np with pagetable := r.1 }
    if r.2 < 0 then do
      freeproc np
      pure none
    else pure (some { np with sz := p.sz })

/-- A program header as `readi` delivers it, and how many pages of the segment `readi` fills. -/
structure Phdr where
  /-- The header could be read. -/
  there : Bool
  /-- `ELF_PROG_LOAD` -/
  load : Bool
  vaddr : Uint64
  memsz : Uint64
  filesz : Uint64
  perm : Perm
  pages : Nat

/-- What `exec` finds in the file. -/
structure Elf where
  /-- There is a file, and it begins like a program. -/
  good : Bool
  phdrs : List Phdr
  /-- The arguments fit on the stack. -/
  args : Bool

/-- `n` pages are left from `va` on; `pages` of them can be read from the file. -/
def loadseg (pt : PageTable) : Nat → Nat → Nat → K Bool
  | 0, _, _ => pure true
  | n + 1, va, pages => do
    if (← onVm (walkaddr pt va)) = 0 then throw .loadseg
    else match pages with
      | 0 => pure false
      | pages + 1 => loadseg pt n (va + PGSIZE) pages

/-- The page table and the size, and `false` for `goto bad`. `loadseg` gets the size of the segment
    as a `uint`. -/
def loadSegments : List Phdr → PageTable → Nat → K (PageTable × Nat × Bool)
  | [], pt, sz => pure (pt, sz, true)
  | ph :: rest, pt, sz =>
    if ph.there = false then pure (pt, sz, false)
    else if ph.load = false then loadSegments rest pt sz
    else if ph.memsz < ph.filesz ∨ ph.vaddr + ph.memsz < ph.vaddr ∨ ph.vaddr.toNat % PGSIZE ≠ 0 then
      pure (pt, sz, false)
    else do
      let r ← uvmalloc pt sz (ph.vaddr + ph.memsz).toNat ph.perm
      if r.2 = 0 then pure (r.1, sz, false)
      else do
        let filesz := ph.filesz.toNat % 2 ^ 32
        if ← loadseg r.1 ((filesz + PGSIZE - 1) / PGSIZE) ph.vaddr.toNat ph.pages then loadSegments rest r.1 r.2
        else pure (r.1, r.2, false)

/-- The part of `exec` after the file has been read: the stack, and the change to the new image. -/
def execStack (p : Proc) (elf : Elf) (root : Nat) (pt : PageTable) (sz : Nat) : K (Proc × Int) := do
  let sz := PGROUNDUP sz
  let r ← uvmalloc pt sz ((sz + 2 * PGSIZE) % 2 ^ 64) ⟨false, true, false, false⟩
  if r.2 = 0 then do
    procFreepagetable root r.1 sz
    pure (p, -1)
  else do
    let pt ← onVm (uvmclear r.1 (r.2 - 2 * PGSIZE))
    if elf.args then do
      procFreepagetable p.root p.pagetable p.sz
      pure (⟨root, pt, p.trapframe, r.2⟩, 0)
    else do
      procFreepagetable root pt r.2
      pure (p, -1)

/-- The process afterwards, and -1 or 0 (for `argc`). -/
def exec (p : Proc) (trampoline : Nat) (elf : Elf) : K (Proc × Int) := do
  if elf.good then do
    match ← procPagetable p.trapframe trampoline with
    | none => pure (p, -1)
    | some (root, pt) => do
      let r ← loadSegments elf.phdrs pt 0
      if r.2.2 then execStack p elf root r.1 r.2.1
      else do
        procFreepagetable root r.1 r.2.1
        pure (p, -1)
  else pure (p, -1)

/-! ## The system -/

abbrev Pid := Fin NPROC

theorem initproc_lt : 0 < NPROC := by decide

def initproc : Pid := ⟨0, initproc_lt⟩

structure State where
  mem : Mem
  /-- The pages that the rest of the kernel has allocated. -/
  others : List Nat
  /-- The slots of the process table that are used. -/
  proc : Pid → Option Proc
  /-- The process has exited, and nobody has waited for it. -/
  zombie : Pid → Bool
  /-- The kernel has stopped. -/
  panic : Option Panic

inductive Label where
  | exec (p : Pid) (elf : Elf)
  /-- `np` is the slot that `allocproc` has found. -/
  | fork (p np : Pid)
  | sbrk (p : Pid) (n : BitVec 32)
  | exit (p : Pid)
  /-- Somebody waits, and finds this process. -/
  | wait (pp : Pid)
  /-- The rest of the kernel allocates a page, or frees the `i`-th of its pages. -/
  | take
  | give (i : Nat)

/-- The state after kernel code that gives slot `p` a new content. -/
def State.after {α : Type} (s : State) (p : Pid) (x : Except Panic (α × Mem)) (f : α → Option Proc) : State :=
  match x with
  | .ok (a, mem) => { s with mem := mem, proc := Function.update s.proc p (f a) }
  | .error e => { s with panic := some e }

/-- The process in slot `p` that runs. -/
def State.running (s : State) (p : Pid) : Option Proc :=
  if s.panic = none ∧ s.zombie p = false then s.proc p else none

def step (trampoline : Nat) (s : State) : Label → Option State
  | .exec p elf => (s.running p).map fun q => s.after p (exec q trampoline elf s.mem) fun r => some r.1
  | .sbrk p n => (s.running p).map fun q => s.after p (sysSbrk q n s.mem) fun r => some r.1
  | .fork p np => match s.running p, s.proc np with
    | some q, none => some (s.after np (fork q trampoline s.mem) id)
    | _, _ => none
  | .exit p => (s.running p).map fun _ => { s with zombie := Function.update s.zombie p true }
  | .wait pp => match s.panic, s.zombie pp, s.proc pp with
    | none, true, some q =>
      some { s.after pp (freeproc q s.mem) fun _ => none with zombie := Function.update s.zombie pp false }
    | _, _, _ => none
  | .take => match s.panic, s.mem.freelist with
    | none, pa :: rest => some { s with mem := { s.mem with freelist := rest }, others := pa :: s.others }
    | _, _ => none
  | .give i => match s.panic, s.others[i]? with
    | none, some pa =>
      some { s with mem := { s.mem with freelist := pa :: s.mem.freelist }, others := s.others.eraseIdx i }
    | _, _ => none

/-- After `userinit`, on a machine with these free pages. -/
def Boot (trampoline : Nat) (pages : List Nat) (s : State) : Prop :=
  ∃ q m, userinit trampoline ⟨pages, []⟩ = .ok (some q, m) ∧
    s = ⟨m, [], Function.update (fun _ => none) initproc (some q), fun _ => false, none⟩

end Xv6.Eager
