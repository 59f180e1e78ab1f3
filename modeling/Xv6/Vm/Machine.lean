import Xv6.Vm.SysExec

set_option autoImplicit false

/-! # The memory of all processes

The machine has the memory of every process, the free pages, and the pages that the rest of the
kernel has taken. A step is a load or a store of user code, a piece of kernel code that works on the
memory of a process, or one that takes, fills or frees a page of its own. `Does` says what a step is
for: it changes what one process sees, and no more. -/

namespace Xv6.Vm.Copy

open Xv6.Lib

/-- What `allocproc` does about memory, for a process that has none. -/
def allocproc (trampoline : Nat) : KR (Option Proc) := do
  match ← kalloc with
  | none => pure none
  | some trapframe => do
    match ← procPagetable trapframe trampoline with
    | none => do
      kfree trapframe
      pure none
    | some (root, pt) => pure (some ⟨root, pt, trapframe, 0⟩)

structure Machine (Pid : Type) where
  ram : Ram
  proc : Pid → Option Proc
  /-- The pages of the rest of the kernel. -/
  kernel : List Nat

inductive Act (Pid : Type) where
  /-- User code. -/
  | load (i : Pid) (va : Nat)
  | store (i : Pid) (va : Nat) (b : Byte)
  /-- System calls, and what they read and write. -/
  | sbrk (i : Pid) (n : BitVec 32) (eager : Bool)
  | copyin (i : Pid) (srcva len : Nat)
  | copyout (i : Pid) (dstva : Nat) (src : List Byte)
  | copyinstr (i : Pid) (srcva max : Nat)
  | fork (i c : Pid)
  | exec (i : Pid) (files : List Byte → Option (List Byte)) (upath uargv : Nat)
  /-- `allocproc` without `kfork`, of which `userinit` does not see whether it fails, and `kexec` of the first program
      by `forkret`. -/
  | allocproc (c : Pid)
  | init (i : Pid) (f : List Byte) (argv : List (List Byte))
  /-- `freeproc` of a process that has exited. -/
  | reap (i : Pid)
  /-- The rest of the kernel takes a page, writes to one, and frees one. -/
  | take
  | write (pa off : Nat) (bs : List Byte)
  | give (pa : Nat)

inductive Reply where
  | none
  | byte (b : Option Byte)
  | result (n : Int)
  | bytes (n : Int) (bs : List Byte)
  | made (ok : Bool)
  | program (start : Option Start)
  deriving DecidableEq

section Step

variable {Pid : Type} [DecidableEq Pid]

/-- Memory at the start of a step, of which it is to be seen whether `kalloc` returns 0. -/
def Machine.begin (s : Machine Pid) : Ram := { s.ram with short := false }

/-- Runs code, and then takes note of what has become of the processes and of the pages. -/
def perform {α : Type} (x : KE α) (reply : α → Reply) (after : α → Machine Pid → Machine Pid) :
    Code Stop (Machine Pid) Reply :=
  fun s => match x s.begin with
  | .ok (a, ram) => .ok (reply a, after a { s with ram := ram })
  | .error e => .error e

def Machine.set (s : Machine Pid) (i : Pid) (o : Option Proc) :
    Machine Pid := { s with proc := Function.update s.proc i o }

/-- There is nothing to be done. -/
def idle : Code Stop (Machine Pid) Reply := fun s => .ok (.none, s)

/-- Process `i` runs code that works on its memory. -/
def call (i : Pid) (f : Proc → KE (Proc × Reply)) : Code Stop (Machine Pid) Reply := fun s =>
  match s.proc i with
  | none => idle s
  | some p => perform (f p) Prod.snd (fun q s => s.set i (some q.1)) s

def step (trampoline : Nat) : Act Pid → Code Stop (Machine Pid) Reply
  | .load i va => call i fun p => do
    let r ← vm (userLoad p va)
    pure (r.1, .byte r.2)
  | .store i va b => call i fun p => do
    let r ← vm (userStore p va b)
    pure (r.1, .made r.2)
  | .sbrk i n eager => call i fun p => do
    let r ← vm (sysSbrk p n eager)
    pure (r.1, .result r.2)
  | .copyin i srcva len => call i fun p => do
    let r ← vm (copyin p srcva len)
    pure (r.1, .bytes r.2.1 r.2.2)
  | .copyout i dstva src => call i fun p => do
    let r ← vm (copyout p dstva src)
    pure (r.1, .result r.2)
  | .copyinstr i srcva max => call i fun p => do
    let r ← vm (copyinstr p.pagetable srcva max)
    pure (p, .bytes r.1 r.2)
  | .exec i files upath uargv => call i fun p => do
    let r ← sysExec p trampoline files upath uargv
    pure (r.1, .program r.2)
  | .init i f argv => call i fun p => do
    let r ← kexec p trampoline f argv
    pure (r.1, .program r.2)
  | .fork i c => fun s => match s.proc i, s.proc c with
    | some p, none => perform (vm (kfork p trampoline)) (fun q => .made q.isSome) (fun q s => s.set c q) s
    | _, _ => idle s
  | .allocproc c => fun s => match s.proc c with
    | some _ => idle s
    | none => perform (vm (allocproc trampoline)) (fun q => .made q.isSome) (fun q s => s.set c q) s
  | .reap i => fun s => match s.proc i with
    | none => idle s
    | some p => perform (vm (freeproc p)) (fun _ => .none) (fun _ s => s.set i none) s
  | .take => perform (vm kalloc) (fun o => .made o.isSome) fun o s => { s with kernel := o.toList ++ s.kernel }
  | .write pa off bs => fun s =>
    if pa ∈ s.kernel ∧ off + bs.length ≤ PGSIZE then perform (vm (memmove (pa + off) bs)) (fun _ => .none)
      (fun _ s => s) s
    else idle s
  | .give pa => fun s =>
    if pa ∈ s.kernel then perform (vm (kfree pa)) (fun _ => .none) (fun _ s => { s with kernel := s.kernel.erase pa }) s
    else idle s

end Step

/-! ## What the steps are for -/

/-- What a process sees, and its size. -/
structure User where
  mem : UserMem
  sz : Nat

abbrev Users (Pid : Type) := Pid → Option User

def Machine.users {Pid : Type} (s : Machine Pid) : Users Pid := fun i =>
  (s.proc i).map fun p => ⟨view p.pagetable (PGROUNDUP p.sz) s.ram.byte, p.sz⟩

/-- What a process sees. -/
abbrev Machine.see {Pid : Type} (s : Machine Pid) (p : Proc) : UserMem := view p.pagetable (PGROUNDUP p.sz) s.ram.byte

theorem users_some {Pid : Type} {s : Machine Pid} {i : Pid} {p : Proc} (h : s.proc i = some p) :
    s.users i = some ⟨s.see p, p.sz⟩ := by
  unfold Machine.users
  rw [h]
  rfl

theorem users_none {Pid : Type} {s : Machine Pid} {i : Pid} (h : s.proc i = none) : s.users i = none := by
  unfold Machine.users
  rw [h]
  rfl

/-- The step finds no process to work on, or works on pages of the kernel. -/
def Act.Idle {Pid : Type} (s : Users Pid) : Act Pid → Prop
  | .load i _ | .store i _ _ | .sbrk i _ _ | .copyin i _ _ | .copyout i _ _ | .copyinstr i _ _ | .exec i _ _ _ |
      .init i _ _
  | .reap i => s i = none
  | .fork i c => s i = none ∨ s c ≠ none
  | .allocproc c => s c ≠ none
  | .take => False
  | .write _ _ _ | .give _ => True

/-- The step `a` takes the processes from `s` to `s'`; `short` says that `kalloc` has returned 0 in it. A string may not
    be found in a page that has not been allocated yet, where the process sees zeros. -/
inductive Does {Pid : Type} [DecidableEq Pid] (s : Users Pid) (short : Bool) : Act Pid → Reply → Users Pid → Prop
  | idle {a : Act Pid} : a.Idle s → Does s short a .none s
  | load {i : Pid} {u : User} {va : Nat} : s i = some u → Does s short (.load i va) (.byte (u.mem.readable va)) s
  | loadFault {i : Pid} {u : User} {va : Nat} : s i = some u → short = true ∨ u.sz ≤ va →
      Does s short (.load i va) (.byte none) s
  | store {i : Pid} {u : User} {va : Nat} {b : Byte} {s' : Users Pid} : s i = some u → u.mem.writable va = true →
      s' = Function.update s i (some ⟨u.mem.store va [b], u.sz⟩) → Does s short (.store i va b) (.made true) s'
  | storeFault {i : Pid} {u : User} {va : Nat} {b : Byte} : s i = some u →
      short = true ∨ u.mem.writable va = false ∨ u.sz ≤ va → Does s short (.store i va b) (.made false) s
  | sbrk {i : Pid} {u : User} {n : BitVec 32} {eager : Bool} {s' : Users Pid} : s i = some u →
      s' = Function.update s i (some ⟨u.mem.resize u.sz (newSize u.sz n.toInt), newSize u.sz n.toInt⟩) →
      Does s short (.sbrk i n eager) (.result u.sz) s'
  | sbrkFails {i : Pid} {u : User} {n : BitVec 32} {eager : Bool} : s i = some u → short = true →
      Does s short (.sbrk i n eager) (.result (-1)) s
  | copyin {i : Pid} {u : User} {srcva len : Nat} : s i = some u → Does s short (.copyin i srcva len)
      (.bytes (if (u.mem.read srcva len).length = len then 0 else -1) (u.mem.read srcva len)) s
  | copyinFails {i : Pid} {u : User} {srcva len : Nat} {bs : List Byte} : s i = some u → short = true →
      Does s short (.copyin i srcva len) (.bytes (-1) bs) s
  | copyout {i : Pid} {u : User} {dstva : Nat} {src : List Byte} {s' : Users Pid} : s i = some u →
      s' = Function.update s i (some ⟨(u.mem.write dstva src).1, u.sz⟩) →
      Does s short (.copyout i dstva src) (.result (u.mem.write dstva src).2) s'
  | copyoutFails {i : Pid} {u : User} {dstva k : Nat} {src : List Byte} {s' : Users Pid} : s i = some u → short = true →
      k ≤ src.length → s' = Function.update s i (some ⟨(u.mem.write dstva (src.take k)).1, u.sz⟩) →
      Does s short (.copyout i dstva src) (.result (-1)) s'
  | copyinstr {i : Pid} {u : User} {srcva max : Nat} : s i = some u → (u.mem.readString srcva max).1 = 0 →
      Does s short (.copyinstr i srcva max) (.bytes 0 (u.mem.readString srcva max).2) s
  | copyinstrFails {i : Pid} {u : User} {srcva max : Nat} {bs : List Byte} : s i = some u →
      u.mem.Misses srcva max → Does s short (.copyinstr i srcva max) (.bytes (-1) bs) s
  | exec {i : Pid} {u u' : User} {files : List Byte → Option (List Byte)} {upath uargv : Nat} {f : List Byte}
      {args : List (List Byte)} {start : Start} {s' : Users Pid} : s i = some u →
      (u.mem.readString upath MAXPATH).1 = 0 →
      files (u.mem.readString upath MAXPATH).2.dropLast = some f → u.mem.args u.sz uargv MAXARG 0 = some args →
      Started f args start u'.sz u'.mem → s' = Function.update s i (some u') →
      Does s short (.exec i files upath uargv) (.program (some start)) s'
  | execFails {i : Pid} {u : User} {files : List Byte → Option (List Byte)} {upath uargv : Nat} : s i = some u →
      short = true ∨ u.mem.Rejects u.sz files upath uargv →
      Does s short (.exec i files upath uargv) (.program none) s
  | init {i : Pid} {u u' : User} {f : List Byte} {argv : List (List Byte)} {start : Start} {s' : Users Pid} :
      s i = some u →
      Started f argv start u'.sz u'.mem → s' = Function.update s i (some u') →
      Does s short (.init i f argv) (.program (some start)) s'
  | initFails {i : Pid} {u : User} {f : List Byte} {argv : List (List Byte)} :
      s i = some u → short = true ∨ Refused f argv →
      Does s short (.init i f argv) (.program none) s
  | fork {i c : Pid} {u : User} {s' : Users Pid} : s i = some u → s c = none → s' = Function.update s c (some u) →
      Does s short (.fork i c) (.made true) s'
  | forkFails {i c : Pid} {u : User} : s i = some u → short = true → Does s short (.fork i c) (.made false) s
  | allocproc {c : Pid} {s' : Users Pid} : s c = none → s' = Function.update s c (some ⟨noMem, 0⟩) →
      Does s short (.allocproc c) (.made true) s'
  | allocprocFails {c : Pid} : short = true → Does s short (.allocproc c) (.made false) s
  | reap {i : Pid} {u : User} {s' : Users Pid} : s i = some u → s' = Function.update s i none →
      Does s short (.reap i) .none s'
  | take {ok : Bool} : (ok = false → short = true) → Does s short .take (.made ok) s

end Xv6.Vm.Copy
