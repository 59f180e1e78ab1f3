import Xv6.Proc.Kill

set_option autoImplicit false

/-! # System call tracing

`syscall` in `kernel/syscall.c` prints a line for each system call that returns and whose bit is set in
`p->monitor_mask`; `sys_monitor` sets the mask and `kfork` copies it. Neither `allocproc` nor
`freeproc` touches it, so that a free slot keeps the mask of the process that was in it. The model
adds the mask, the name, the trapframe and the console to the process table; the other system calls
may do whatever the table allows and return any value. -/

namespace Xv6.Syscall

open Xv6.Lib Xv6.ProcTable

/-- `SYS_fork` to `SYS_monitor`. -/
inductive Sys where
  | fork | exit | wait | pipe | read | kill | exec | fstat | chdir | dup | getpid | sbrk | pause
  | uptime | open | write | mknod | unlink | link | mkdir | close | monitor
  deriving DecidableEq

/-- `syscalls[]`: a number is the place in the list, and there is none at 0. -/
def syscalls : List (Option Sys) :=
  [none, some .fork, some .exit, some .wait, some .pipe, some .read, some .kill, some .exec,
    some .fstat, some .chdir, some .dup, some .getpid, some .sbrk, some .pause, some .uptime,
    some .open, some .write, some .mknod, some .unlink, some .link, some .mkdir, some .close,
    some .monitor]

/-- `syscall_names[]` -/
def syscallNames : List String :=
  ["", "fork", "exit", "wait", "pipe", "read", "kill", "exec", "fstat", "chdir", "dup", "getpid",
    "sbrk", "pause", "uptime", "open", "write", "mknod", "unlink", "link", "mkdir", "close", "monitor"]

/-- The system call of a number; `num` is an `int`. -/
def lookup (num : BitVec 32) : Option Sys :=
  if 0 < num.toInt then (syscalls.getD num.toNat none) else none

/-- What `syscall` prints. -/
inductive Line where
  /-- `"%d: syscall %s -> %d\n"` -/
  | trace (pid : BitVec 32) (name : String) (a0 : BitVec 32)
  /-- `"%d %s: unknown sys call %d\n"` -/
  | unknown (pid : BitVec 32) (name : List UInt8) (num : BitVec 32)
  deriving DecidableEq

/-- A system call that a process executes: its number, and what it is. -/
structure Doing where
  num : BitVec 32
  sys : Sys
  deriving DecidableEq

/-- What the history of a run says besides the state. A process is called by the number of processes
    made before it. -/
inductive Event where
  | fork (parent child : Nat)
  /-- `monitor` with this argument -/
  | monitor (p : Nat) (mask : BitVec 64)
  /-- A system call has returned this value through `syscall`. -/
  | returned (p : Nat) (pid : BitVec 32) (num : BitVec 32) (a0 : BitVec 64)
  deriving DecidableEq

structure State where
  table : ProcTable.State
  monitorMask : Fin NPROC → BitVec 32
  name : Fin NPROC → List UInt8
  /-- `p->trapframe->a0` -/
  a0 : Fin NPROC → BitVec 64
  doing : Fin NPROC → Option Doing
  console : List Line
  /-- The process that is, or was last, in the slot. -/
  id : Fin NPROC → Nat
  /-- The number of processes made. -/
  born : Nat
  /-- A history variable, the latest event first. -/
  events : List Event

inductive Label where
  /-- A step of the process table. -/
  | table (l : ProcTable.Label)
  /-- `p` calls `syscall` with `a7 = num` and the argument `arg` in `a0`. -/
  | ecall (p : Fin NPROC) (num : BitVec 32) (arg : BitVec 64)
  /-- `usertrap` finds `p` killed. -/
  | killed (p : Fin NPROC)
  /-- `kexec` replaces the image of `p`, and its name. -/
  | kexec (p : Fin NPROC) (name : List UInt8)
  /-- The handler returns; `v` is the value of a system call that is not modelled. -/
  | finish (p : Fin NPROC) (v : BitVec 64)

/-- The steps that are no beginning of a system call. -/
def internal : ProcTable.Label → Bool
  | .callFork _ | .callWait _ | .callKill .. | .kexit .. => false
  | _ => true

/-- Parent and child, if the step is the one in which `kfork` has found a slot and memory. -/
def forked (s : ProcTable.State) : ProcTable.Label → Option (Fin NPROC × Fin NPROC)
  | .run p true => match s.pc p with
    | .allocproc (np :: _) => if (s.proc np).state = .UNUSED then some (p, np) else none
    | _ => none
  | _ => none

/-- What `kfork` copies besides what is in the process table; the child begins in user space. -/
def State.copy (s : State) (p np : Fin NPROC) : State :=
  { s with
    monitorMask := Function.update s.monitorMask np (s.monitorMask p)
    name := Function.update s.name np (s.name p)
    a0 := Function.update s.a0 np 0
    doing := Function.update s.doing np none
    id := Function.update s.id np s.born
    born := s.born + 1
    events := .fork (s.id p) s.born :: s.events }

/-- The process table goes on to `t`; `freeproc` clears the name. -/
def State.follow (s : State) (l : ProcTable.Label) (t : ProcTable.State) : State :=
  let s' := { s with
    table := t
    name := fun i => if (t.proc i).state = .UNUSED then [] else s.name i }
  match forked s.table l with
  | some (p, np) => s'.copy p np
  | none => s'

def sysMonitor (s : State) (p : Fin NPROC) (arg : BitVec 64) : State :=
  { s with
    monitorMask := Function.update s.monitorMask p (arg.setWidth 32)
    events := .monitor (s.id p) arg :: s.events }

/-- `syscalls[num]()` begins: what it is in the process table, if anything. -/
def handler (p : Fin NPROC) (arg : BitVec 64) : Sys → Option ProcTable.Label
  | .fork => some (.callFork p)
  | .wait => some (.callWait p)
  | .kill => some (.callKill p (arg.setWidth 32))
  | .exit => some (.kexit p (arg.setWidth 32))
  | _ => none

/-- `syscall` up to the handler. -/
def syscall (s : State) (p : Fin NPROC) (num : BitVec 32) (arg : BitVec 64) : Option State :=
  match lookup num with
  | some sys =>
    let s' := { s with doing := Function.update s.doing p (some ⟨num, sys⟩) }
    if sys = .monitor then some (sysMonitor s' p arg)
    else match handler p arg sys with
      | some l => (ProcTable.step s.table l).map fun t => s'.follow l t
      | none => some s'
  | none => some { s with
      console := s.console ++ [.unknown (s.table.proc p).pid (s.name p) num]
      a0 := Function.update s.a0 p (-1) }

/-- What the handler returns. -/
def retval (s : State) (p : Fin NPROC) (v : BitVec 64) : Sys → BitVec 64
  | .fork | .wait | .kill => (s.table.ret p).signExtend 64
  | .monitor => 0
  | .getpid => (s.table.proc p).pid.signExtend 64
  | _ => v

/-- `p->monitor_mask & (1 << num)` -/
def masked (mask num : BitVec 32) : Bool := decide (mask &&& ((1 : BitVec 32) <<< num.toNat) ≠ 0)

/-- The trace line; `a0` is printed as an `int`. -/
def traceLine (pid num : BitVec 32) (a0 : BitVec 64) : Line :=
  .trace pid (syscallNames.getD num.toNat "") (a0.setWidth 32)

/-- `syscall` after the handler. -/
def finish (s : State) (p : Fin NPROC) (d : Doing) (v : BitVec 64) : State :=
  let a0 := retval s p v d.sys
  { s with
    a0 := Function.update s.a0 p a0
    console := if masked (s.monitorMask p) d.num then
        s.console ++ [traceLine (s.table.proc p).pid d.num a0] else s.console
    doing := Function.update s.doing p none
    events := .returned (s.id p) (s.table.proc p).pid d.num a0 :: s.events }

def step (s : State) : Label → Option State
  | .table l => if internal l then (ProcTable.step s.table l).map fun t => s.follow l t else none
  | .ecall p num arg =>
    if s.table.atUser p ∧ s.doing p = none then syscall s p num arg else none
  | .killed p =>
    if s.doing p = none ∧ (s.table.proc p).killed = true then
      (ProcTable.step s.table (.kexit p (-1))).map fun t => s.follow (.kexit p (-1)) t
    else none
  | .kexec p name =>
    if s.table.atUser p ∧ (s.doing p).map Doing.sys = some .exec then
      some { s with name := Function.update s.name p name }
    else none
  | .finish p v =>
    if s.table.atUser p then (s.doing p).map fun d => finish s p d v else none

/-- After `userinit`; `proc[]` is zeroed. -/
def boot : State where
  table := ProcTable.boot
  monitorMask := fun _ => 0
  name := fun _ => []
  a0 := fun _ => 0
  doing := fun _ => none
  console := []
  id := fun _ => 0
  born := 1
  events := []

/-! ## What the masks should be -/

/-- The mask of a process by its history: 0 for the first process, that of the parent at the time of
    the fork for any other, and from then on what its own `monitor` says. -/
def maskOf : List Event → Nat → BitVec 32
  | [], _ => 0
  | .fork parent child :: h, p => if p = child then maskOf h parent else maskOf h p
  | .monitor q mask :: h, p => if p = q then BitVec.ofNat 32 (mask.toNat % 2 ^ 32) else maskOf h p
  | .returned .. :: h, p => maskOf h p

/-- The lines of the system calls that have returned: one if bit `num` of the mask is set, else none. -/
def traceOf : List Event → List Line
  | [] => []
  | .returned p pid num a0 :: h =>
    traceOf h ++ (if (maskOf h p).getLsbD num.toNat then [traceLine pid num a0] else [])
  | _ :: h => traceOf h

def Line.isTrace : Line → Bool
  | .trace .. => true
  | .unknown .. => false

/-! ## Which slots come into use -/

variable {s t : State} {i j p np : Fin NPROC}

theorem used_of_setProc {s : ProcTable.State} {f : Proc → Proc}
    (hf : (f (s.proc p)).state ≠ .USED) (h : ((s.setProc p f).proc i).state = .USED) :
    (s.proc i).state = .USED := by
  by_cases hi : i = p
  · subst hi
    rw [setProc_self] at h
    exact absurd h hf
  · rw [setProc_of_ne _ _ hi] at h
    exact h

theorem used_of_wakeup {t : Table} {chan : Chan} (h : (wakeup t chan i).state = .USED) :
    (t i).state = .USED := by
  unfold wakeup at h
  split at h
  · cases h
  · exact h

theorem used_of_reparent {t : Table} (h : (reparent t p i).state = .USED) : (t i).state = .USED := by
  have hparent : ∀ q : Proc,
      (if q.parent = some p then { q with parent := some initproc } else q).state = q.state := by
    intro q
    split <;> rfl
  unfold reparent at h
  simp only at h
  split at h
  · have hw := used_of_wakeup h
    rw [hparent] at hw
    exact hw
  · rw [hparent] at h
    exact h

theorem used_of_kexit {t : Table} {status : BitVec 32} (h : (kexit t p status i).state = .USED) :
    (t i).state = .USED := by
  have hreparent : ∀ (r : Table) (q : Proc), (∀ j, (r j).state = .USED → (t j).state = .USED) →
      q.state = .ZOMBIE → (Function.update r p q i).state = .USED → (t i).state = .USED := by
    intro r q hr hq hused
    by_cases hi : i = p
    · subst hi
      rw [Function.update_self, hq] at hused
      cases hused
    · rw [Function.update_of_ne hi] at hused
      exact hr i hused
  unfold kexit at h
  cases hp : (reparent t p p).parent with
  | none =>
      simp only [hp] at h
      exact hreparent _ _ (fun _ => used_of_reparent) rfl h
  | some parent =>
      simp only [hp] at h
      exact hreparent _ _ (fun _ hw => used_of_reparent (used_of_wakeup hw)) rfl h

theorem forked_of_run {s t : ProcTable.State} {ok : Bool} (hr : ProcTable.run s p ok = some t)
    (hs : (s.proc i).state ≠ .USED) (ht : (t.proc i).state = .USED) :
    forked s (.run p ok) = some (p, i) := by
  unfold ProcTable.run at hr
  split at hr
  · cases hr
  · obtain rfl := Option.some.inj hr
    exact absurd ht hs
  · next np rest hpc =>
    split at hr
    · next hu =>
      obtain rfl := Option.some.inj hr
      unfold allocFound at ht
      cases ok with
      | true =>
          by_cases hi : i = np
          · simp [forked, hpc, hu, hi]
          · have hsame : ((s.setProc np fun q => { q with pid := s.nextpid, state := .USED }).proc i).state =
                .USED := ht
            rw [setProc_of_ne _ _ hi] at hsame
            exact absurd hsame hs
      | false =>
          simp only [Bool.false_eq_true, if_false, returns_proc] at ht
          by_cases hi : i = np
          · subst hi
            rw [setProc_self] at ht
            cases ht
          · rw [setProc_of_ne _ _ hi, setProc_of_ne _ _ hi] at ht
            exact absurd ht hs
    · obtain rfl := Option.some.inj hr
      exact absurd ht hs
  · next np pid hpc =>
    obtain rfl := Option.some.inj hr
    rw [setPc_proc] at ht
    by_cases hi : i = np
    · subst hi
      rw [setProc_self] at ht
      exact absurd ht hs
    · rw [setProc_of_ne _ _ hi] at ht
      exact absurd ht hs
  · obtain rfl := Option.some.inj hr
    rw [returns_proc] at ht
    exact absurd (used_of_setProc (by simp) ht) hs
  · obtain rfl := Option.some.inj hr
    unfold kwait at ht
    split at ht
    · split at ht
      · exact absurd (used_of_setProc (by simp [freeproc]) ht) hs
      · exact absurd ht hs
    · split at ht
      · exact absurd ht hs
      · exact absurd (used_of_setProc (by simp) ht) hs
  · obtain rfl := Option.some.inj hr
    exact absurd ht hs
  · next pid q rest hpc =>
    split at hr
    · obtain rfl := Option.some.inj hr
      rw [returns_proc] at ht
      by_cases hi : i = q
      · subst hi
        rw [setProc_self] at ht
        unfold Proc.kill at ht
        dsimp only at ht
        split at ht
        · cases ht
        · exact absurd ht hs
      · rw [setProc_of_ne _ _ hi] at ht
        exact absurd ht hs
    · obtain rfl := Option.some.inj hr
      exact absurd ht hs

/-- Only `kfork` makes a slot `USED`. -/
theorem forked_of_used {s t : ProcTable.State} {l : ProcTable.Label} (h : ProcTable.step s l = some t)
    (hs : (s.proc i).state ≠ .USED) (ht : (t.proc i).state = .USED) :
    ∃ p, forked s l = some (p, i) := by
  unfold ProcTable.step at h
  cases l with
  | run p ok =>
      simp only at h
      split at h
      · exact ⟨p, forked_of_run h hs ht⟩
      · cases h
  | wakeup chan =>
      obtain rfl := Option.some.inj h
      exact absurd (used_of_wakeup ht) hs
  | scheduler p | yield p | sleep p chan =>
      simp only at h
      split at h
      · obtain rfl := Option.some.inj h
        exact absurd (used_of_setProc (by simp) ht) hs
      · cases h
  | setkilled p =>
      simp only at h
      split at h
      · next hp =>
        obtain rfl := Option.some.inj h
        exact absurd (used_of_setProc (by simp [hp.1]) ht) hs
      · cases h
  | callFork p | callWait p | callKill p pid =>
      simp only at h
      split at h
      · obtain rfl := Option.some.inj h
        exact absurd ht hs
      · cases h
  | kexit p status =>
      simp only at h
      split at h
      · obtain rfl := Option.some.inj h
        exact absurd (used_of_kexit ht) hs
      · cases h

theorem forked_spec {s t : ProcTable.State} {l : ProcTable.Label} (h : ProcTable.step s l = some t)
    (hf : forked s l = some (p, np)) :
    (s.proc p).state = .RUNNING ∧ (s.proc np).state = .UNUSED := by
  unfold forked at hf
  split at hf
  · next q =>
    split at hf
    · next hpc =>
      split at hf
      · next hu =>
        obtain ⟨rfl, rfl⟩ := Prod.mk.inj (Option.some.inj hf)
        simp only [ProcTable.step] at h
        split at h
        · next hrun => exact ⟨hrun, hu⟩
        · cases h
      · cases hf
    · cases hf
  · cases hf

/-- A slot that comes into use is the child of a `kfork`. -/
theorem forked_of_live {s t : ProcTable.State} {l : ProcTable.Label} (hfk : Forking s)
    (h : ProcTable.step s l = some t) (hs : (s.proc i).state = .UNUSED)
    (ht : (t.proc i).state ≠ .UNUSED) : ∃ p, forked s l = some (p, i) := by
  have hslot := step_slot hfk h i
  generalize hq : t.proc i = q at hslot ht
  cases hslot with
  | keep _ hkeep => exact absurd (hkeep.unused.2 hs) ht
  | alloc pid _ => exact forked_of_used h (by rw [hs]; simp) (by rw [hq])
  | free pid st _ => exact absurd rfl ht
  | run _ hused =>
      rw [hs] at hused
      cases hused
  | kill _ =>
      refine absurd ?_ ht
      simp [Proc.kill, hs]
  | setkilled _ hrun =>
      rw [hs] at hrun
      cases hrun

/-! ## The invariant -/

/-- A process is in the slot. -/
def Live (s : State) (i : Fin NPROC) : Prop := (s.table.proc i).state ≠ .UNUSED

structure Inv (s : State) : Prop where
  forking : Forking s.table
  mask : ∀ i, Live s i → s.monitorMask i = maskOf s.events (s.id i)
  born : ∀ i, Live s i → s.id i < s.born
  unique : ∀ i j, Live s i → Live s j → s.id i = s.id j → i = j
  doing : ∀ i d, s.doing i = some d → lookup d.num = some d.sys
  trace : s.console.filter Line.isTrace = traceOf s.events

/-- What a step of the process table does. -/
theorem Inv.follow (h : Inv s) {l : ProcTable.Label} {t : ProcTable.State}
    (ht : ProcTable.step s.table l = some t) : Inv (s.follow l t) := by
  have hforking := h.forking.step ht
  unfold State.follow
  cases hf : forked s.table l with
  | none =>
      have hlive : ∀ i, (t.proc i).state ≠ .UNUSED → Live s i := by
        intro i hi hs
        obtain ⟨p, hp⟩ := forked_of_live h.forking ht hs hi
        rw [hf] at hp
        cases hp
      exact ⟨hforking, fun i hi => h.mask i (hlive i hi), fun i hi => h.born i (hlive i hi),
        fun i j hi hj => h.unique i j (hlive i hi) (hlive j hj), h.doing, h.trace⟩
  | some pair =>
      obtain ⟨p, np⟩ := pair
      obtain ⟨hrun, hu⟩ := forked_spec ht hf
      have hp : Live s p := by
        intro hp
        rw [hp] at hrun
        cases hrun
      have hpnp : p ≠ np := by
        rintro rfl
        exact hp hu
      have hlive : ∀ i, i ≠ np → (t.proc i).state ≠ .UNUSED → Live s i := by
        intro i hne hi hs
        obtain ⟨q, hq⟩ := forked_of_live h.forking ht hs hi
        rw [hf] at hq
        exact hne (Prod.mk.inj (Option.some.inj hq)).2.symm
      refine ⟨hforking, fun i hi => ?_, fun i hi => ?_, fun i j hi hj hij => ?_, fun i d hd => ?_,
        h.trace⟩
      · by_cases hne : i = np
        · subst hne
          simp only [State.copy, Function.update_self, maskOf, if_true]
          exact h.mask p hp
        · have hi' := hlive i hne hi
          simp only [State.copy, Function.update_of_ne hne, maskOf]
          rw [if_neg (Nat.ne_of_lt (h.born i hi'))]
          exact h.mask i hi'
      · by_cases hne : i = np
        · subst hne
          simp [State.copy]
        · simp only [State.copy, Function.update_of_ne hne]
          exact Nat.lt_succ_of_lt (h.born i (hlive i hne hi))
      · by_cases hi' : i = np
        · by_cases hj' : j = np
          · rw [hi', hj']
          · simp only [State.copy, hi', Function.update_self, Function.update_of_ne hj'] at hij
            exact absurd hij.symm (Nat.ne_of_lt (h.born j (hlive j hj' hj)))
        · by_cases hj' : j = np
          · simp only [State.copy, hj', Function.update_self, Function.update_of_ne hi'] at hij
            exact absurd hij (Nat.ne_of_lt (h.born i (hlive i hi' hi)))
          · simp only [State.copy, Function.update_of_ne hi', Function.update_of_ne hj'] at hij
            exact h.unique i j (hlive i hi' hi) (hlive j hj' hj) hij
      · by_cases hne : i = np
        · simp [State.copy, hne] at hd
        · simp only [State.copy, Function.update_of_ne hne] at hd
          exact h.doing i d hd

/-- `monitor` of a process only changes the mask of that process. -/
theorem Inv.sysMonitor (h : Inv s) (hp : Live s p) (arg : BitVec 64) :
    Inv (Syscall.sysMonitor s p arg) := by
  refine ⟨h.forking, fun i hi => ?_, h.born, h.unique, h.doing, h.trace⟩
  by_cases hip : i = p
  · subst hip
    simp only [Syscall.sysMonitor, Function.update_self, maskOf, if_true]
    refine BitVec.eq_of_toNat_eq ?_
    simp
  · have hid : s.id i ≠ s.id p := fun heq => hip (h.unique i p hi hp heq)
    simp only [Syscall.sysMonitor, Function.update_of_ne hip, maskOf, if_neg hid]
    exact h.mask i hi

theorem Inv.setDoing (h : Inv s) {num : BitVec 32} {sys : Sys} (hnum : lookup num = some sys)
    (p : Fin NPROC) : Inv { s with doing := Function.update s.doing p (some ⟨num, sys⟩) } := by
  refine ⟨h.forking, h.mask, h.born, h.unique, fun i d hd => ?_, h.trace⟩
  by_cases hip : i = p
  · subst hip
    simp only [Function.update_self, Option.some.injEq] at hd
    subst hd
    exact hnum
  · simp only [Function.update_of_ne hip] at hd
    exact h.doing i d hd

/-- The numbers of the system calls are small enough to shift by. -/
theorem masked_eq {num : BitVec 32} {sys : Sys} (h : lookup num = some sys) (mask : BitVec 32) :
    masked mask num = mask.getLsbD num.toNat := by
  have hlt : num.toNat < 32 := by
    by_contra hge
    have hnone : syscalls.getD num.toNat none = none := by
      rw [List.getD_eq_getElem?_getD, List.getElem?_eq_none]
      · rfl
      · show 23 ≤ num.toNat
        omega
    unfold lookup at h
    rw [hnone] at h
    split at h <;> cases h
  have hpow : (1 : BitVec 32) <<< num.toNat = BitVec.twoPow 32 num.toNat := rfl
  unfold masked
  rw [hpow, BitVec.and_twoPow]
  cases hbit : mask.getLsbD num.toNat with
  | false => simp
  | true =>
      have hne : BitVec.twoPow 32 num.toNat ≠ 0 := by
        intro h0
        have hget := congrArg (fun v : BitVec 32 => v.getLsbD num.toNat) h0
        simp [hlt] at hget
      simp only [if_true, decide_eq_true_eq]
      exact hne

theorem Inv.finish (h : Inv s) {d : Doing} (hd : s.doing p = some d) (hp : Live s p)
    (v : BitVec 64) : Inv (Syscall.finish s p d v) := by
  refine ⟨h.forking, h.mask, h.born, h.unique, fun i d' hd' => ?_, ?_⟩
  · by_cases hip : i = p
    · simp [Syscall.finish, hip] at hd'
    · simp only [Syscall.finish, Function.update_of_ne hip] at hd'
      exact h.doing i d' hd'
  · simp only [Syscall.finish, traceOf, ← h.mask p hp, ← masked_eq (h.doing p d hd), ← h.trace]
    split
    · simp [traceLine, Line.isTrace]
    · simp

theorem Inv.syscall (h : Inv s) (hp : Live s p) {num : BitVec 32} {arg : BitVec 64}
    (hstep : Syscall.syscall s p num arg = some t) : Inv t := by
  unfold Syscall.syscall at hstep
  cases hnum : lookup num with
  | none =>
      rw [hnum] at hstep
      obtain rfl := Option.some.inj hstep
      refine ⟨h.forking, h.mask, h.born, h.unique, h.doing, ?_⟩
      simp [List.filter_append, Line.isTrace, h.trace]
  | some sys =>
      rw [hnum] at hstep
      have hdoing := h.setDoing hnum p
      dsimp only at hstep
      split at hstep
      · obtain rfl := Option.some.inj hstep
        exact hdoing.sysMonitor hp arg
      · split at hstep
        · obtain ⟨u, hu, rfl⟩ := Option.map_eq_some_iff.1 hstep
          exact hdoing.follow hu
        · obtain rfl := Option.some.inj hstep
          exact hdoing

theorem live_of_atUser (h : s.table.atUser p) : Live s p := by
  intro hu
  rw [h.1] at hu
  cases hu

theorem Inv.step (h : Inv s) {l : Label} (hstep : Syscall.step s l = some t) : Inv t := by
  unfold Syscall.step at hstep
  cases l with
  | table l =>
      simp only at hstep
      split at hstep
      · obtain ⟨u, hu, rfl⟩ := Option.map_eq_some_iff.1 hstep
        exact h.follow hu
      · cases hstep
  | ecall p num arg =>
      simp only at hstep
      split at hstep
      · next hp => exact h.syscall (live_of_atUser hp.1) hstep
      · cases hstep
  | killed p =>
      simp only at hstep
      split at hstep
      · obtain ⟨u, hu, rfl⟩ := Option.map_eq_some_iff.1 hstep
        exact h.follow hu
      · cases hstep
  | kexec p name =>
      simp only at hstep
      split at hstep
      · obtain rfl := Option.some.inj hstep
        exact ⟨h.forking, h.mask, h.born, h.unique, h.doing, h.trace⟩
      · cases hstep
  | finish p v =>
      simp only at hstep
      split at hstep
      · next hp =>
        obtain ⟨d, hd, rfl⟩ := Option.map_eq_some_iff.1 hstep
        exact h.finish hd (live_of_atUser hp) v
      · cases hstep

theorem inv_boot : Inv boot := by
  have hlive : ∀ i, Live boot i → i = initproc := by
    intro i hi
    by_contra hne
    refine hi ?_
    simp [boot, ProcTable.boot, Function.update_of_ne hne, Proc.zero]
  refine ⟨forking_boot, fun i _ => rfl, fun i _ => by simp [boot], fun i j hi hj _ => ?_, by simp [boot], rfl⟩
  rw [hlive i hi, hlive j hj]

/-! ## The law -/

/-- What a step prints, and which masks it changes. -/
structure StepLaw (s : State) (l : Label) (t : State) : Prop where
  /-- One line if the bit is set, else none. -/
  returns : ∀ p v, l = .finish p v → ∃ num sys, s.doing p = some ⟨num, sys⟩ ∧
    t.console = s.console ++ (if (maskOf s.events (s.id p)).getLsbD num.toNat then
      [traceLine (s.table.proc p).pid num (t.a0 p)] else [])
  silent : (∀ p v, l ≠ .finish p v) →
    t.console.filter Line.isTrace = s.console.filter Line.isTrace
  /-- Only its own `monitor` changes the mask of a process. -/
  keeps : ∀ i, Live s i → t.id i = s.id i →
    (∀ num arg, l = .ecall i num arg → lookup num ≠ some .monitor) →
    t.monitorMask i = s.monitorMask i

theorem follow_law {l : ProcTable.Label} {u : ProcTable.State}
    (hu : ProcTable.step s.table l = some u) :
    (s.follow l u).console = s.console ∧
      ∀ i, Live s i → (s.follow l u).monitorMask i = s.monitorMask i := by
  unfold State.follow
  cases hf : forked s.table l with
  | none => exact ⟨rfl, fun _ _ => rfl⟩
  | some pair =>
      obtain ⟨p, np⟩ := pair
      refine ⟨rfl, fun i hi => ?_⟩
      have hne : i ≠ np := by
        rintro rfl
        exact hi (forked_spec hu hf).2
      simp [State.copy, Function.update_of_ne hne]

theorem Inv.stepLaw (h : Inv s) {l : Label} (hstep : Syscall.step s l = some t) :
    StepLaw s l t := by
  unfold Syscall.step at hstep
  cases l with
  | table l =>
      simp only at hstep
      split at hstep
      · obtain ⟨u, hu, rfl⟩ := Option.map_eq_some_iff.1 hstep
        obtain ⟨hconsole, hmask⟩ := follow_law hu
        exact ⟨by simp, fun _ => by rw [hconsole], fun i hi _ _ => hmask i hi⟩
      · cases hstep
  | killed p =>
      simp only at hstep
      split at hstep
      · obtain ⟨u, hu, rfl⟩ := Option.map_eq_some_iff.1 hstep
        obtain ⟨hconsole, hmask⟩ := follow_law hu
        exact ⟨by simp, fun _ => by rw [hconsole], fun i hi _ _ => hmask i hi⟩
      · cases hstep
  | kexec p name =>
      simp only at hstep
      split at hstep
      · obtain rfl := Option.some.inj hstep
        exact ⟨by simp, fun _ => rfl, fun _ _ _ _ => rfl⟩
      · cases hstep
  | finish p v =>
      simp only at hstep
      split at hstep
      · next hp =>
        obtain ⟨d, hd, rfl⟩ := Option.map_eq_some_iff.1 hstep
        refine ⟨fun q w hl => ?_, fun hno => absurd rfl (hno p v), fun _ _ _ _ => rfl⟩
        obtain ⟨rfl, -⟩ := Label.finish.inj hl
        refine ⟨d.num, d.sys, hd, ?_⟩
        rw [← h.mask p (live_of_atUser hp), ← masked_eq (h.doing p d hd)]
        simp only [Syscall.finish, Function.update_self]
        split <;> simp
      · cases hstep
  | ecall p num arg =>
      simp only at hstep
      split at hstep
      · next hp =>
        unfold Syscall.syscall at hstep
        cases hnum : lookup num with
        | none =>
            rw [hnum] at hstep
            obtain rfl := Option.some.inj hstep
            exact ⟨by simp, fun _ => by simp [List.filter_append, Line.isTrace], fun _ _ _ _ => rfl⟩
        | some sys =>
            rw [hnum] at hstep
            dsimp only at hstep
            split at hstep
            · next hmonitor =>
              obtain rfl := Option.some.inj hstep
              refine ⟨by simp, fun _ => rfl, fun i _ _ hno => ?_⟩
              have hip : i ≠ p := by
                rintro rfl
                exact hno num arg rfl (by rw [hnum, hmonitor])
              simp [Syscall.sysMonitor, Function.update_of_ne hip]
            · split at hstep
              · obtain ⟨u, hu, rfl⟩ := Option.map_eq_some_iff.1 hstep
                obtain ⟨hconsole, hmask⟩ := follow_law
                  (s := { s with doing := Function.update s.doing p (some ⟨num, sys⟩) }) hu
                exact ⟨by simp, fun _ => by rw [hconsole], fun i hi _ _ => hmask i hi⟩
              · obtain rfl := Option.some.inj hstep
                exact ⟨by simp, fun _ => rfl, fun _ _ _ _ => rfl⟩
      · cases hstep

/-- **Tracing follows the inherited mask.** In every run the trace lines are those of the history, the
    mask of every process is the one that its history gives it, and slots in use at one time are
    different processes; and a step prints a trace line only where a system call returns, and changes
    no mask but by the `monitor` of its process. -/
theorem trace_law (s : State) (ls : List Label) (hrun : runSteps step boot ls = some s) :
    s.console.filter Line.isTrace = traceOf s.events ∧
      (∀ i, Live s i → s.monitorMask i = maskOf s.events (s.id i)) ∧
      (∀ i j, Live s i → Live s j → s.id i = s.id j → i = j) ∧
      ∀ l t, step s l = some t → StepLaw s l t := by
  have hinv : Inv s := runSteps_invariant (fun _ _ _ h hstep => h.step hstep) inv_boot hrun
  exact ⟨hinv.trace, hinv.mask, hinv.unique, fun _ _ hstep => hinv.stepLaw hstep⟩

/-- `init` traces `fork` and `monitor`, and forks; the child, in slot 1, calls `getpid`. -/
def traceFork : List Label :=
  [.table (.scheduler 0), .ecall 0 22 0x400002, .finish 0 0, .ecall 0 1 0, .table (.run 0 true),
    .table (.run 0 true), .table (.run 0 true), .table (.run 0 true), .finish 0 0,
    .table (.scheduler 1), .ecall 1 11 0, .finish 1 0]

def tracedFork : Bool :=
  match runSteps step boot traceFork with
  | none => false
  | some s => decide (s.console = [.trace 1 "monitor" 0, .trace 1 "fork" 2]) &&
      decide ((s.table.proc 1).state = .RUNNING) && decide (s.monitorMask 1 = 0x400002)

theorem trace_law_fork :
    ∃ s, runSteps step boot traceFork = some s ∧
      traceOf s.events = [.trace 1 "monitor" 0, .trace 1 "fork" 2] ∧
      maskOf s.events (s.id 1) = 0x400002 := by
  have hcheck : tracedFork = true := by decide +kernel
  unfold tracedFork at hcheck
  cases hrun : runSteps step boot traceFork with
  | none =>
      rw [hrun] at hcheck
      cases hcheck
  | some s =>
      rw [hrun] at hcheck
      simp only [Bool.and_eq_true, decide_eq_true_eq] at hcheck
      obtain ⟨⟨hconsole, hlive⟩, hmask⟩ := hcheck
      obtain ⟨htrace, hmasks, -, -⟩ := trace_law s traceFork hrun
      refine ⟨s, rfl, ?_, ?_⟩
      · rw [← htrace, hconsole]
        rfl
      · rw [← hmasks 1 (by rw [Live, hlive]; simp), hmask]

end Xv6.Syscall
