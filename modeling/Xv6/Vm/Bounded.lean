import Xv6.Vm.Size

set_option autoImplicit false

/-! # Runs in which sizes stay bounded

In a run in which every `sys_sbrk` fits, no size exceeds `TRAPFRAME` and nothing panics. Lazy growth
that does not fit goes on until the size has passed `MAXVA`, and a fault above it stops the kernel. -/

namespace Xv6.Vm

open Xv6.Lib

section

variable {Pid : Type} [DecidableEq Pid]

structure Inv (s : State Pid) : Prop where
  alive : s.panic = none
  sound : Sound s.mem
  procs : ∀ p q, s.proc p = some q → Ok q

/-- The growth that the step asks for fits. -/
def GrowsWithin (s : State Pid) : Label Pid → Prop
  | .sbrk p n eager => ∀ q, s.proc p = some q → Fits q n.toInt eager s.mem.freelist.length
  | _ => True

omit [DecidableEq Pid] in
theorem Init.inv {trampoline : Nat} {s : State Pid} (h : Init trampoline s) : Inv s := by
  obtain ⟨halive, hunmapped, hprocs⟩ := h
  refine ⟨halive, fun va hva => ?_, fun p q hq => ?_⟩
  · rw [hunmapped] at hva
    cases hva
  · obtain ⟨trapframe, segments, freelist, m, hexec⟩ := hprocs p q hq
    have hx := triple_kexec trapframe trampoline segments ⟨freelist, []⟩ fun va hva => by cases hva
    rw [hexec] at hx
    exact hx.2 q rfl

/-! ## One step -/

theorem update_ok {proc : Pid → Option Proc} (h : ∀ p q, proc p = some q → Ok q) (p : Pid)
    {new : Option Proc} (hnew : ∀ q, new = some q → Ok q) :
    ∀ p' q, Function.update proc p new p' = some q → Ok q := by
  intro p' q hq
  by_cases hp : p' = p
  · subst hp
    rw [Function.update_self] at hq
    exact hnew q hq
  · rw [Function.update_of_ne hp] at hq
    exact h p' q hq

/-- A part of the kernel that keeps the process and the memory in order. -/
theorem Inv.runs {s t : State Pid} {p : Pid} {f : Proc → K Proc} (h : Inv s)
    (hf : ∀ q, s.proc p = some q → Ok q →
      Triple (fun _ => False) (fun m => m = s.mem) (f q) (fun r m => Sound m ∧ Ok r))
    (ht : s.runs p f = some t) : Inv t := by
  unfold State.runs at ht
  cases hq : s.proc p with
  | none => simp [h.alive, hq] at ht
  | some q =>
      obtain ⟨q', m, hr, hm⟩ := (hf q hq (h.procs p q hq)).exists_ok rfl
      simp only [h.alive, hq, hr, Option.some.injEq] at ht
      subst ht
      refine ⟨rfl, hm.1, update_ok h.procs p fun q'' he => ?_⟩
      rw [← Option.some.inj he]
      exact hm.2

theorem triple_fst {α β : Type} {may : Panic → Prop} {P : Mem → Prop} {q : α → Prop}
    {x : K (α × β)} (h : Triple may P x fun r m => Sound m ∧ q r.1) :
    Triple may P (Prod.fst <$> x) fun r m => Sound m ∧ q r := by
  rw [map_eq_pure_bind]
  exact Triple.bind h fun r => Triple.pure _ fun m hm => hm

theorem Inv.step {trampoline : Nat} {s t : State Pid} {l : Label Pid} (h : Inv s)
    (hl : GrowsWithin s l) (ht : Vm.step trampoline s l = some t) : Inv t := by
  have hsound : ∀ m, m = s.mem → Sound m := by
    rintro m rfl
    exact h.sound
  cases l with
  | sbrk p n eager =>
      refine h.runs (fun q hq hok => triple_fst ?_) ht
      refine Triple.conseq (triple_sysSbrk hok n eager s.mem.freelist.length (hl q hq)) ?_
        fun _ _ hr => hr
      rintro m rfl
      exact ⟨le_rfl, h.sound⟩
  | fault p stval =>
      refine h.runs (fun q hq hok => triple_fst ?_) ht
      exact Triple.conseq (triple_vmfault hok _) hsound fun r m hm => ⟨hm.1, hm.2.1⟩
  | copyin p srcva len =>
      refine h.runs (fun q hq hok => triple_fst ?_) ht
      exact Triple.conseq (triple_copyin hok _ _) hsound fun r m hm => hm
  | copyout p dstva len =>
      refine h.runs (fun q hq hok => triple_fst ?_) ht
      exact Triple.conseq (triple_copyout hok _ _) hsound fun r m hm => hm
  | fork p np =>
      unfold Vm.step at ht
      cases hq : s.proc p with
      | none => simp [h.alive, hq] at ht
      | some q =>
          cases hnp : s.proc np with
          | some child => simp [h.alive, hq, hnp] at ht
          | none =>
              obtain ⟨child, m, hr, hm⟩ := (triple_kfork (h.procs p q hq) trampoline).exists_ok h.sound
              simp only [h.alive, hq, hnp, hr, Option.some.injEq] at ht
              subst ht
              exact ⟨rfl, hm.1, update_ok h.procs np hm.2⟩
  | exit p =>
      unfold Vm.step at ht
      cases hq : s.proc p with
      | none => simp [h.alive, hq] at ht
      | some q =>
          obtain ⟨_, m, hr, hm⟩ := (triple_freeproc (h.procs p q hq)).exists_ok h.sound
          simp only [h.alive, hq, hr, Option.some.injEq] at ht
          subst ht
          exact ⟨rfl, hm, update_ok h.procs p fun _ he => by cases he⟩
  | kernel freelist =>
      simp only [Vm.step, h.alive, if_true, Option.some.injEq] at ht
      subst ht
      exact ⟨rfl, h.sound, h.procs⟩

/-! ## Runs -/

/-- As long as every growth fits, no size exceeds `TRAPFRAME`, the kernel does not panic, and what
    is unmapped and freed lies below the trapframe. -/
theorem size_bounded {trampoline : Nat} {s₀ s : State Pid} {ls : List (Label Pid)}
    (hinit : Init trampoline s₀) (hfits : AllSteps (step trampoline) GrowsWithin s₀ ls)
    (hrun : runSteps (step trampoline) s₀ ls = some s) :
    s.panic = none ∧ (∀ p q, s.proc p = some q → q.sz ≤ TRAPFRAME) ∧
      ∀ va ∈ s.mem.unmapped, va < TRAPFRAME := by
  have hinv : Inv s := runSteps_invariant_of_allSteps
    (fun _ _ _ h hl ht => h.step hl ht) hinit.inv hfits hrun
  exact ⟨hinv.alive, fun p q hq => (hinv.procs p q hq).size, hinv.sound⟩

/-! ## Lazy growth that does not fit -/

/-- The lazy path of `sys_sbrk` looks at nothing but the 64 bits of the sum. -/
theorem sysSbrk_lazy {q : Proc} {n : BitVec 32} (hn : 0 ≤ n.toInt)
    (hlt : q.sz + n.toInt.toNat < 2 ^ 64) (m : Mem) : sysSbrk q n false m =
      .ok (({ q with sz := q.sz + n.toInt.toNat }, (q.sz : Int)), m) := by
  have hadd : addSz q.sz n.toInt = q.sz + n.toInt.toNat := by
    unfold addSz
    omega
  unfold sysSbrk
  rw [if_neg (by simp; omega), if_neg (by omega), hadd]
  rfl

theorem State.runs_of_ok {s : State Pid} {p : Pid} {q q' : Proc} {f : Proc → K Proc} {m : Mem}
    (halive : s.panic = none) (hq : s.proc p = some q) (hx : f q s.mem = .ok (q', m)) :
    s.runs p f = some { s with mem := m, proc := Function.update s.proc p (some q') } := by
  simp [State.runs, halive, hq, hx]

theorem State.runs_of_error {s : State Pid} {p : Pid} {q : Proc} {f : Proc → K Proc} {e : Panic}
    (halive : s.panic = none) (hq : s.proc p = some q) (hx : f q s.mem = .error e) :
    s.runs p f = some { s with panic := some e } := by
  simp [State.runs, halive, hq, hx]

theorem map_fst_ok {α β : Type} {x : K (α × β)} {a : α} {b : β} {m m' : Mem}
    (h : x m = .ok ((a, b), m')) : (Prod.fst <$> x) m = .ok (a, m') := by
  show (Functor.map (fun r : (α × β) × Mem => (r.1.1, r.2)) (x m)) = _
  rw [h]
  rfl

/-- Lazy growth by `n` bytes, `k` times, succeeds as long as 64 bits are enough. -/
theorem run_lazy {trampoline : Nat} {s : State Pid} {p : Pid} {q : Proc} {n : BitVec 32}
    (hn : 0 ≤ n.toInt) (halive : s.panic = none) (hq : s.proc p = some q) (k : Nat)
    (hk : q.sz + k * n.toInt.toNat < 2 ^ 64) :
    runSteps (step trampoline) s (List.replicate k (.sbrk p n false)) = some { s with
      proc := Function.update s.proc p (some { q with sz := q.sz + k * n.toInt.toNat }) } := by
  induction k generalizing s q with
  | zero => simp [← hq]
  | succ k ih =>
      rw [Nat.succ_mul] at hk ⊢
      let q' : Proc := { q with sz := q.sz + n.toInt.toNat }
      let s' : State Pid := { s with proc := Function.update s.proc p (some q') }
      have hstep : step trampoline s (.sbrk p n false) = some s' :=
        State.runs_of_ok halive hq (map_fst_ok (sysSbrk_lazy hn (by omega) s.mem))
      have hq' : s'.proc p = some q' := by simp [s']
      have hk' : q'.sz + k * n.toInt.toNat < 2 ^ 64 := by
        simp only [q']
        omega
      have halive' : s'.panic = none := halive
      rw [List.replicate_succ, runSteps_cons, hstep, Option.bind_some, ih halive' hq' hk']
      simp [s', q', Nat.add_assoc, Nat.add_comm]

end

/-! ## A process that passes the limit -/

def freePages : List Nat :=
  [0x87ff8000, 0x87ff7000, 0x87ff6000, 0x87ff5000, 0x87ff4000, 0x87ff3000, 0x87ff2000, 0x87ff1000]

/-- A program without segments gets two pages of stack. -/
theorem kexec_empty : ∃ q m, kexec 0x87fff000 0x80007000 [] ⟨freePages, []⟩ = .ok (some q, m) ∧
    q.sz = 8192 ∧ m.freelist = [0x87ff1000] := ⟨_, _, rfl, rfl, rfl⟩

/-- One process that runs the program. -/
def afterExec (q : Proc) (m : Mem) : State Unit := ⟨⟨m.freelist, []⟩, fun _ => some q, none⟩

theorem init_afterExec {q : Proc} {m : Mem}
    (h : kexec 0x87fff000 0x80007000 [] ⟨freePages, []⟩ = .ok (some q, m)) :
    Init 0x80007000 (afterExec q m) := by
  refine ⟨rfl, rfl, fun p q' hq' => ?_⟩
  rw [← Option.some.inj hq']
  exact ⟨_, _, _, _, h⟩

theorem size_bounded_one_page : ∃ s₀ s : State Unit, Init 0x80007000 s₀ ∧
    runSteps (step 0x80007000) s₀ [.sbrk () 4096 false] = some s ∧
    s.panic = none ∧ (∀ p q, s.proc p = some q → q.sz ≤ TRAPFRAME) ∧
    ∀ va ∈ s.mem.unmapped, va < TRAPFRAME := by
  obtain ⟨q, m, hexec, hsz, -⟩ := kexec_empty
  have hinit := init_afterExec hexec
  have hrun : runSteps (step 0x80007000) (afterExec q m) (List.replicate 1 (.sbrk () 4096 false)) =
      some _ := run_lazy (by decide) rfl rfl 1 (by
    rw [hsz]
    decide)
  have hfits : AllSteps (step 0x80007000) GrowsWithin (afterExec q m) [.sbrk () 4096 false] := by
    refine ⟨fun q' hq' _ => Or.inl ?_, fun _ _ => trivial⟩
    rw [← Option.some.inj hq', hsz]
    decide
  exact ⟨_, _, hinit, hrun, size_bounded hinit hfits hrun⟩

/-- 128 calls of `sys_sbrk(2^31 - 1, SBRK_LAZY)` take the size past `MAXVA`, and a page fault there
    panics in `walk`. -/
theorem lazy_sbrk_oversize : ∃ s₀ s t : State Unit, Init 0x80007000 s₀ ∧
    runSteps (step 0x80007000) s₀ (List.replicate 128 (.sbrk () 0x7fffffff false)) = some s ∧
    (∃ q, s.proc () = some q ∧ TRAPFRAME < q.sz) ∧
    step 0x80007000 s (.fault () 0x4000000000) = some t ∧ t.panic = some .walk := by
  obtain ⟨q, m, hexec, hsz, -⟩ := kexec_empty
  have hrun : runSteps (step 0x80007000) (afterExec q m)
      (List.replicate 128 (.sbrk () 0x7fffffff false)) = some _ :=
    run_lazy (by decide) rfl rfl 128 (by
      rw [hsz]
      decide)
  have hsize : q.sz + 128 * (0x7fffffff : BitVec 32).toInt.toNat = 0x4000001f80 := by
    rw [hsz]
    decide
  rw [hsize] at hrun
  let q' : Proc := { q with sz := 0x4000001f80 }
  let s : State Unit :=
    { afterExec q m with proc := Function.update (afterExec q m).proc () (some q') }
  have hproc : s.proc () = some q' := Function.update_self () (some q') (afterExec q m).proc
  have hbig : TRAPFRAME < q'.sz := by
    show TRAPFRAME < 0x4000001f80
    decide
  let fault (q : Proc) : K Proc := Prod.fst <$> vmfault q (0x4000000000 : Uint64).toNat
  have hfault : fault q' s.mem = .error .walk := rfl
  have hstep : s.runs () fault = some { s with panic := some .walk } :=
    State.runs_of_error rfl hproc hfault
  exact ⟨_, s, _, init_afterExec hexec, hrun, ⟨q', hproc, hbig⟩, hstep, rfl⟩

end Xv6.Vm
