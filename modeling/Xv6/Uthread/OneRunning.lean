import Xv6.Uthread.Contexts

set_option autoImplicit false

/-! # One running thread

`thread_yield` makes its caller `RUNNABLE`, and `thread_schedule` makes the thread that it switches to
`RUNNING`. When it finds no thread but its caller it does not switch, and the caller goes on as
`RUNNABLE`: that is the only way to lose the running thread. -/

namespace Xv6.Uthread

open Xv6.Lib

variable {I : Image} {s t : State}

/-- The current thread is `RUNNING`, and every other one is `FREE` or `RUNNABLE`. -/
def OneRunning (s : State) : Prop :=
  s.state s.currentThread = .RUNNING ∧
    ∀ i, i ≠ s.currentThread → s.state i = .FREE ∨ s.state i = .RUNNABLE

instance (s : State) : Decidable (OneRunning s) := inferInstanceAs (Decidable (_ ∧ _))

/-- A thread that yields leaves the CPU to another one. -/
def Switches (s : State) : Label → Prop
  | .threadYield _ => ∃ i, i ≠ s.currentThread ∧ s.state i = .RUNNABLE
  | _ => True

/-! ## The search -/

/-- The slots in the order of the search. -/
def searched : Nat → Nat → List Slot
  | 0, _ => []
  | n + 1, k => wrap k :: searched n ((wrap k).val + 1)

theorem findRunnable_eq (state : Slot → ThreadState) (n k : Nat) :
    findRunnable state n k = (searched n k).find? fun i => decide (state i = .RUNNABLE) := by
  induction n generalizing k with
  | zero => rfl
  | succ n ih =>
      simp only [findRunnable, searched, List.find?_cons]
      by_cases hk : state (wrap k) = .RUNNABLE
      · simp [hk]
      · simp [hk, ih]

/-- The search comes to the current thread last. -/
theorem searched_round (c : Slot) : ∃ rest, searched MAX_THREAD (c.val + 1) = rest ++ [c] ∧
    ∀ i, i ∈ rest ↔ i ≠ c := by
  refine ⟨(searched MAX_THREAD (c.val + 1)).dropLast, ?_, ?_⟩
  · revert c
    decide
  · revert c
    decide

/-- Another thread is found if there is one that is `RUNNABLE`. -/
theorem findRunnable_other {state : Slot → ThreadState} {c i : Slot} (hi : i ≠ c)
    (hrun : state i = .RUNNABLE) :
    ∃ next, findRunnable state MAX_THREAD (c.val + 1) = some next ∧ next ≠ c := by
  obtain ⟨rest, hsearch, hrest⟩ := searched_round c
  have hsome : (rest.find? fun i => decide (state i = .RUNNABLE)).isSome := by
    rw [List.find?_isSome]
    exact ⟨i, (hrest i).2 hi, decide_eq_true hrun⟩
  obtain ⟨next, hnext⟩ := Option.isSome_iff_exists.1 hsome
  refine ⟨next, ?_, (hrest next).1 (List.mem_of_find?_eq_some hnext)⟩
  rw [findRunnable_eq, hsearch, List.find?_append, hnext]
  rfl

/-- The thread that yields is found if there is no other. -/
theorem findRunnable_self {state : Slot → ThreadState} {c : Slot} (hc : state c = .RUNNABLE)
    (hno : ∀ i, i ≠ c → state i ≠ .RUNNABLE) :
    findRunnable state MAX_THREAD (c.val + 1) = some c := by
  obtain ⟨rest, hsearch, hrest⟩ := searched_round c
  have hnone : (rest.find? fun i => decide (state i = .RUNNABLE)) = none := by
    rw [List.find?_eq_none]
    intro i hi
    simpa using hno i ((hrest i).1 hi)
  rw [findRunnable_eq, hsearch, List.find?_append, hnone]
  simp [hc]

/-! ## Steps -/

/-- `thread_schedule` makes the thread that it finds the one that runs. -/
theorem OneRunning.schedule {scratch : Reg → Word} {next : Slot}
    (hother : ∀ i, s.state i = .FREE ∨ s.state i = .RUNNABLE)
    (hfind : findRunnable s.state MAX_THREAD (s.currentThread.val + 1) = some next)
    (hne : next ≠ s.currentThread) : OneRunning (threadSchedule I s scratch) := by
  unfold threadSchedule
  rw [hfind]
  simp only [if_pos (Ne.symm hne)]
  refine ⟨Function.update_self .., fun i hi => ?_⟩
  simp only [Function.update_of_ne hi]
  exact hother i

/-- When it finds the thread that has called it, nothing happens to the states. -/
theorem schedule_self (scratch : Reg → Word)
    (hfind : findRunnable s.state MAX_THREAD (s.currentThread.val + 1) = some s.currentThread) :
    (threadSchedule I s scratch).state = s.state ∧
      (threadSchedule I s scratch).currentThread = s.currentThread ∧
      (threadSchedule I s scratch).exited = s.exited := by
  unfold threadSchedule
  rw [hfind]
  simp

theorem schedule_none {scratch : Reg → Word}
    (hfind : findRunnable s.state MAX_THREAD (s.currentThread.val + 1) = none) :
    (threadSchedule I s scratch).exited = true := by
  unfold threadSchedule
  rw [hfind]

/-- The states as `thread_schedule` finds them. -/
theorem OneRunning.leave (h : OneRunning s) {st : ThreadState} (hst : st = .FREE ∨ st = .RUNNABLE)
    (i : Slot) : Function.update s.state s.currentThread st i = .FREE ∨
      Function.update s.state s.currentThread st i = .RUNNABLE := by
  by_cases hi : i = s.currentThread
  · subst hi
    rw [Function.update_self]
    exact hst
  · rw [Function.update_of_ne hi]
    exact h.2 i hi

/-- One thread runs, unless the process has exited. -/
def Law (s : State) : Prop := s.exited = true ∨ OneRunning s

theorem Law.step {l : Label} (h : Law s) (hok : Switches s l) (hstep : Uthread.step I s l = some t) :
    Law t := by
  unfold Uthread.step at hstep
  cases l with
  | run regs pc writes =>
      obtain ⟨⟨huser, -⟩, ⟨⟩⟩ := Option.ite_none_right_eq_some.1 hstep
      exact h
  | threadCreate func =>
      obtain ⟨⟨huser, -⟩, hmap⟩ := Option.ite_none_right_eq_some.1 hstep
      obtain ⟨i, hfree, rfl⟩ := Option.map_eq_some_iff.1 hmap
      obtain ⟨hrun, hothers⟩ := h.resolve_left (by rw [huser.1]; simp)
      have hi : s.state i = .FREE := by simpa using List.find?_some hfree
      have hne : s.currentThread ≠ i := by
        rintro rfl
        rw [hrun] at hi
        cases hi
      refine Or.inr ⟨?_, fun j hj => ?_⟩
      · simp only [threadCreate, Function.update_of_ne hne]
        exact hrun
      · by_cases hji : j = i
        · subst hji
          exact Or.inr (Function.update_self ..)
        · simp only [threadCreate, Function.update_of_ne hji]
          exact hothers j hj
  | threadYield scratch =>
      obtain ⟨⟨huser, -⟩, ⟨⟩⟩ := Option.ite_none_right_eq_some.1 hstep
      have hone := h.resolve_left (by rw [huser.1]; simp)
      obtain ⟨i, hi, hrun⟩ := hok
      have hrun' : Function.update s.state s.currentThread .RUNNABLE i = .RUNNABLE := by
        rw [Function.update_of_ne hi]
        exact hrun
      obtain ⟨next, hfind, hne⟩ := findRunnable_other hi hrun'
      exact Or.inr (OneRunning.schedule (hone.leave (Or.inr rfl)) hfind hne)
  | exit scratch =>
      obtain ⟨⟨huser, -⟩, ⟨⟩⟩ := Option.ite_none_right_eq_some.1 hstep
      have hone := h.resolve_left (by rw [huser.1]; simp)
      cases hfind : findRunnable (Function.update s.state s.currentThread .FREE) MAX_THREAD
          (s.currentThread.val + 1) with
      | none => exact Or.inl (schedule_none hfind)
      | some next =>
          -- a thread that is `FREE` is not found
          have hne : next ≠ s.currentThread := by
            rintro rfl
            have hstate := findRunnable_state hfind
            rw [Function.update_self] at hstate
            cases hstate
          exact Or.inr (OneRunning.schedule (hone.leave (Or.inl rfl)) hfind hne)
  | ret =>
      obtain ⟨-, ⟨⟩⟩ := Option.ite_none_right_eq_some.1 hstep
      exact h

/-- A thread that yields to nobody goes on as `RUNNABLE`. -/
theorem not_law {l : Label} (hbad : ¬ Switches s l) (hstep : Uthread.step I s l = some t) :
    ¬ Law t := by
  cases l with
  | threadYield scratch =>
      unfold Uthread.step at hstep
      obtain ⟨⟨huser, -⟩, ⟨⟩⟩ := Option.ite_none_right_eq_some.1 hstep
      unfold Switches at hbad
      push Not at hbad
      have hfind : findRunnable (Function.update s.state s.currentThread .RUNNABLE) MAX_THREAD
          (s.currentThread.val + 1) = some s.currentThread := by
        refine findRunnable_self (Function.update_self ..) fun i hi => ?_
        rw [Function.update_of_ne hi]
        exact hbad i hi
      obtain ⟨hstate, hcurrent, hexited⟩ := schedule_self (I := I)
        (s := { s with state := Function.update s.state s.currentThread .RUNNABLE }) scratch hfind
      rintro (hex | hone)
      · rw [hexited, huser.1] at hex
        cases hex
      · have hone := hone.1
        rw [hstate, hcurrent] at hone
        have hrun : Function.update s.state s.currentThread .RUNNABLE s.currentThread = .RUNNING := hone
        rw [Function.update_self] at hrun
        cases hrun
  | _ => exact absurd trivial hbad

instance decidableSwitches (s : State) : (l : Label) → Decidable (Switches s l)
  | .threadYield _ => inferInstanceAs (Decidable (∃ i, i ≠ s.currentThread ∧ s.state i = .RUNNABLE))
  | .run _ _ _ => isTrue trivial
  | .threadCreate _ => isTrue trivial
  | .exit _ => isTrue trivial
  | .ret => isTrue trivial

theorem oneRunning_boot (I : Image) (regs : Reg → Word) (pc : Word) (mem : Nat → Word) :
    OneRunning (boot I regs pc mem) := by
  refine ⟨rfl, fun i hi => Or.inl ?_⟩
  have hne : i.val ≠ 0 := fun h => hi (Fin.ext h)
  simp [boot, hne]

/-- **One running thread.** As `thread_schedule` comes back to its caller or starts a new thread, and at
    all times in between, one thread is `RUNNING` and it is the current one, in exactly the runs in which
    every thread that yields leaves the CPU to another one. -/
theorem one_running_iff (I : Image) (regs : Reg → Word) (pc : Word) (mem : Nat → Word) (ls : List Label)
    (u : State) (hrun : runSteps (step I) (boot I regs pc mem) ls = some u) :
    (∀ pre suf v, ls = pre ++ suf → runSteps (step I) (boot I regs pc mem) pre = some v →
      v.exited = true ∨ OneRunning v) ↔
    AllSteps (step I) Switches (boot I regs pc mem) ls :=
  forall_prefix_iff_allSteps (I := Law) (P := Law) (fun _ h => h)
    (fun _ _ _ h hok hstep => h.step hok hstep) (fun _ _ _ _ hbad hstep => not_law hbad hstep)
    (Or.inr (oneRunning_boot I regs pc mem)) hrun

/-- `main` creates a thread and yields to it. -/
theorem one_running_main : ∃ u, runSteps (step image) mainBoot [.threadCreate 0x50, yieldMain] = some u ∧
    (u.exited = true ∨ OneRunning u) := by
  obtain ⟨u, hu⟩ : ∃ u, runSteps (step image) mainBoot [.threadCreate 0x50, yieldMain] = some u :=
    Option.isSome_iff_exists.1 (by decide +kernel)
  have hok : AllSteps (step image) Switches mainBoot [.threadCreate 0x50, yieldMain] := by decide +kernel
  exact ⟨u, hu, (one_running_iff image mainRegs 0x10 (fun _ => 0) _ u hu).2 hok _ [] u
    (List.append_nil _).symm hu⟩

/-- `main` yields before it has created a thread: `thread_schedule` returns, and `main` is `RUNNABLE`. -/
theorem lone_yield_runnable : ∃ u, runSteps (step image) mainBoot [yieldMain, .ret] = some u ∧
    u.exited = false ∧ u.state u.currentThread = .RUNNABLE := by
  obtain ⟨u, hu⟩ : ∃ u, runSteps (step image) mainBoot [yieldMain, .ret] = some u :=
    Option.isSome_iff_exists.1 (by decide +kernel)
  have hend : (runSteps (step image) mainBoot [yieldMain, .ret]).map
      (fun u => (u.exited, u.state u.currentThread)) = some (false, .RUNNABLE) := by decide +kernel
  rw [hu] at hend
  obtain ⟨hexited, hstate⟩ := Prod.mk.inj (Option.some.inj hend)
  exact ⟨u, hu, hexited, hstate⟩

end Xv6.Uthread
