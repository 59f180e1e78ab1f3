import Xv6.Sched.Steps

set_option autoImplicit false

/-! # No process runs twice

What holds in every reachable state, for any number of CPUs. -/

namespace Xv6.Sched

open Xv6.Lib
open Xv6.ProcTable (ProcState Chan Proc Table initproc freeproc)

variable {C L : Type}

theorem Inv.boot : Inv (Sched.boot C L) := by
  constructor
  case locks =>
    refine ⟨fun c k => ?_, fun c => List.nodup_nil, fun c => rfl⟩
    exact iff_of_false (by simp [Sched.boot]) List.not_mem_nil
  case below =>
    exact fun p f h => by cases h
  case below_sched =>
    exact fun c f h => by cases h
  case kind =>
    exact fun p => ⟨rfl, fun f h => by cases h⟩
  case kind_sched =>
    exact fun c => ⟨rfl, fun f h => by cases h⟩
  case switched =>
    exact fun c p h => by cases h
  case cpu =>
    exact fun c => rfl
  case unique =>
    exact fun c c' p h => by cases h
  case state =>
    exact fun c p h => by cases h
  case swtch =>
    exact fun c p rest _ h => by cases h
  case back =>
    exact fun c p rest _ h => by cases h
  case runs =>
    intro p h
    have hp : (ProcTable.boot.proc p).state = .RUNNING := h
    unfold ProcTable.boot at hp
    by_cases hi : p = initproc
    · subst hi
      simp at hp
    · simp [Function.update_of_ne hi, Proc.zero] at hp
  case parked =>
    exact fun p _ _ _ => ⟨rfl, rfl⟩

theorem Calls.boot : Calls (Sched.boot C L) := by
  constructor
  case intr =>
    exact fun p f h => by cases h
  case sleep =>
    exact fun p pc chan lk addr h => by cases h
  case unused =>
    intro q _
    show (ProcTable.boot.proc q).parent = none
    unfold ProcTable.boot
    by_cases hi : q = initproc
    · subst hi
      simp [Proc.zero]
    · simp [Function.update_of_ne hi, Proc.zero]
  case child =>
    exact fun p pc np pid h => by cases h
  case unique =>
    exact fun p p' pc pc' np pid pid' h => by cases h

variable {s t : State C L} {l : Label C L}

/-- The lock of a process is held while its CPU is about to let it go. -/
theorem Inv.running_of_free (h : Inv s) {c : C} {p : Slot} (hfree : s.holder (.proc p) = none)
    (hc : s.cpuProc c = some p) : (s.proc p).state = .RUNNING := by
  rcases h.running_or_held hc with hrun | ⟨hlock, -⟩
  · exact hrun
  · rw [← h.locks.mem, hfree] at hlock
    cases hlock

theorem Inv.running_iff (h : Inv s) {p : Slot} (hfree : s.holder (.proc p) = none) :
    (s.proc p).state = .RUNNING ↔ ∃ c, s.cpuProc c = some p := by
  constructor
  · exact h.runs p
  · rintro ⟨c, hc⟩
    exact h.running_of_free hfree hc

variable [DecidableEq C] [DecidableEq L]

theorem reachable_inv (h : Reachable step (· = boot C L) s) : Inv s ∧ Calls s := by
  refine h.invariant (I := fun s => Inv s ∧ Calls s) ?_ ?_
  · rintro s rfl
    exact ⟨Inv.boot, Calls.boot⟩
  · rintro s l t ⟨hi, hc⟩ hs
    exact ⟨hi.step hc hs, hc.step hi hs⟩

/-- A CPU starts to execute a process that its scheduler has made `RUNNING`. -/
theorem Inv.started (h : Inv s) (hs : Sched.step s l = some t) {c : C} {p : Slot} (ht : t.on c = some p)
    (hc : s.on c ≠ some p) : (s.proc p).state = .RUNNING := by
  rcases step_executed hs with rfl | ⟨e, he, hex⟩
  · exact absurd ht hc
  rcases hex.on with hon | ⟨q, hop, hon⟩ | ⟨-, -, hon⟩
  · rw [hon] at ht
    exact absurd ht hc
  · obtain ⟨rest, htop⟩ := effect_swtch he hop
    obtain ⟨hnone, -, hbase⟩ := h.on_of_sched (by rw [htop]; rfl)
    rw [hon] at ht
    by_cases hcc : c = l.cpu
    · subst hcc
      rw [Function.update_self] at ht
      obtain rfl := Option.some.inj ht
      exact h.swtch l.cpu q rest hnone (hbase.trans htop)
    · rw [Function.update_of_ne hcc] at ht
      exact absurd ht hc
  · rw [hon] at ht
    by_cases hcc : c = l.cpu
    · subst hcc
      rw [Function.update_self] at ht
      cases ht
    · rw [Function.update_of_ne hcc] at ht
      exact absurd ht hc

/-- The scheduler takes `RUNNABLE` processes. -/
theorem taken_runnable (hs : step s l = some t) {c : C} {p : Slot} (ht : t.cpuProc c = some p)
    (hc : s.cpuProc c ≠ some p) : (s.proc p).state = .RUNNABLE := by
  rcases step_executed hs with rfl | ⟨e, he, hex⟩
  · exact absurd ht hc
  · have ht' : Function.update s.cpuProc l.cpu (e.cpuProc.getD (s.cpuProc l.cpu)) c = some p := by
      rw [hex.cpuProc] at ht
      exact ht
    by_cases hcc : c = l.cpu
    · subst hcc
      rw [Function.update_self] at ht'
      cases hcpu : e.cpuProc with
      | none =>
          rw [hcpu] at ht'
          exact absurd ht' hc
      | some o =>
          rw [hcpu] at ht'
          have ho : o = some p := ht'
          subst ho
          obtain ⟨rest, -, hstate⟩ := effect_taken he hcpu
          exact hstate
    · rw [Function.update_of_ne hcc] at ht'
      exact absurd ht' hc

/-- No CPU has a process that is freed. -/
theorem Inv.freed (h : Inv s) (hcalls : Calls s) (hs : Sched.step s l = some t) {p : Slot}
    (ht : (t.proc p).state = .UNUSED) (hp : (s.proc p).state ≠ .UNUSED) (c : C) : s.cpuProc c ≠ some p := by
  rcases step_executed hs with rfl | ⟨e, he, hex⟩
  · exact absurd ht hp
  · have ht' : (e.table s.proc p).state = .UNUSED := by
      rw [hex.proc] at ht
      exact ht
    rcases table_eq_or e s.proc p with hold | ⟨v, hu, hnew⟩
    · rw [hold] at ht'
      exact absurd ht' hp
    · rw [hnew] at ht'
      have hchange := effect_upd he hu
      generalize htop : s.top l.cpu = f at hchange
      have hheld : s.held l.cpu = f.holds (s.on l.cpu) := by rw [State.held, htop]
      cases hchange with
      | noMem hme =>
          have hon := h.on_of_frame (by rw [htop]; simp [Frame.kind]) hme
          have hused := (hcalls.child _ _ _ _ (hcalls.base_of_on hon htop rfl)).1
          refine h.off_cpu (c := l.cpu) ?_ (by rw [hused]; decide) (by rw [htop]; rfl) (by rw [htop]; rfl) c
          rw [hheld]
          exact List.mem_cons_self ..
      | reap hme hzombie =>
          refine h.off_cpu (c := l.cpu) ?_ (by rw [hzombie]; decide) (by rw [htop]; rfl)
            (by rw [htop]; rfl) c
          rw [hheld]
          exact List.mem_cons_self ..
      | kkill =>
          exfalso
          by_cases hsleep : (s.proc p).state = .SLEEPING
          · simp [ProcTable.Proc.kill, hsleep] at ht'
          · simp only [ProcTable.Proc.kill, hsleep, if_false] at ht'
            exact hp ht'
      | woken => exact absurd ht' hp
      | parent => exact absurd ht' hp
      | reparent => exact absurd ht' hp
      | _ => cases ht'

/-- A process whose lock is free is `RUNNING` exactly if one CPU has it. No process is executed by two
    CPUs; the scheduler takes `RUNNABLE` processes and switches to processes that it has made `RUNNING`;
    no CPU has or executes a process that `freeproc` is applied to. -/
theorem scheduler_state (hs : Reachable step (· = boot C L) s) :
    (∀ p, s.holder (.proc p) = none →
      ((s.proc p).state = .RUNNING ↔ ∃! c, s.cpuProc c = some p) ∧
      ((s.proc p).state ≠ .RUNNING ↔ ∀ c, s.cpuProc c ≠ some p)) ∧
    (∀ c c' p, s.on c = some p → s.on c' = some p → c = c') ∧
    ∀ l t, step s l = some t → ∀ c p,
      (t.cpuProc c = some p → s.cpuProc c ≠ some p → (s.proc p).state = .RUNNABLE) ∧
      (t.on c = some p → s.on c ≠ some p → (s.proc p).state = .RUNNING) ∧
      ((t.proc p).state = .UNUSED → (s.proc p).state ≠ .UNUSED →
        s.cpuProc c ≠ some p ∧ s.on c ≠ some p) := by
  obtain ⟨hi, hcalls⟩ := reachable_inv hs
  refine ⟨fun p hfree => ⟨?_, ?_⟩, fun c c' p => hi.on_unique, fun l t hstep c p =>
    ⟨taken_runnable hstep, hi.started hstep, fun ht hp => ?_⟩⟩
  · rw [hi.running_iff hfree]
    constructor
    · rintro ⟨c, hc⟩
      exact ⟨c, hc, fun c' hc' => hi.unique c' c p hc' hc⟩
    · rintro ⟨c, hc, -⟩
      exact ⟨c, hc⟩
  · rw [ne_eq, hi.running_iff hfree, not_exists]
  · have hoff := hi.freed hcalls hstep ht hp c
    exact ⟨hoff, fun hon => hoff (hi.cpu_of_on hon)⟩

theorem scheduler_state_initproc : ∃ s, runSteps step (boot (Fin 2) Empty)
      [⟨0, .run true⟩, ⟨0, .run true⟩, ⟨0, .run true⟩, ⟨0, .run true⟩] = some s ∧
    s.holder (.proc initproc) = none ∧ ∃! c, s.cpuProc c = some initproc := by
  obtain ⟨s, hs⟩ : ∃ s, runSteps step (boot (Fin 2) Empty)
      [⟨0, .run true⟩, ⟨0, .run true⟩, ⟨0, .run true⟩, ⟨0, .run true⟩] = some s := ⟨_, rfl⟩
  have hfree : s.holder (.proc initproc) = none := by
    obtain rfl := Option.some.inj hs
    rfl
  have hrun : (s.proc initproc).state = .RUNNING := by
    obtain rfl := Option.some.inj hs
    rfl
  exact ⟨s, hs, hfree, ((scheduler_state ⟨_, _, rfl, hs⟩).1 initproc hfree).1.1 hrun⟩

end Xv6.Sched
