import Xv6.Lib.RoundRobin
import Xv6.Uthread.Slots

set_option autoImplicit false

/-! # Threads take turns

`thread_schedule` passes the CPU to the first thread after the current one that is `RUNNABLE`. Whatever
the other threads do, a thread that is `RUNNABLE` comes nearer with each call. -/

namespace Xv6.Uthread.Table

open Xv6.Lib

variable {I : Image} {mem : Mem} {c i k t : Nat} {st : Uint} {regs : Reg → Word} {s u v : State}

/-- `current_thread` points to slot `c`. -/
def Current (I : Image) (mem : Mem) (c : Nat) : Prop := c < I.MAX_THREAD ∧ I.current mem = I.thread c

def Ready (I : Image) (mem : Mem) (i : Nat) : Prop := I.state mem i = RUNNABLE

/-! ## `thread_schedule` -/

/-- `if (t >= all_thread + MAX_THREAD) t = all_thread;` -/
theorem wrap_eq (h : i < I.MAX_THREAD) :
    (if I.thread I.MAX_THREAD ≤ I.thread (i + 1) then I.allThread else I.thread (i + 1)) =
      I.thread ((i + 1) % I.MAX_THREAD) := by
  rcases Nat.lt_or_eq_of_le (Nat.succ_le_of_lt h) with hlt | heq
  · have hnot : ¬ I.thread I.MAX_THREAD ≤ I.thread (i + 1) :=
      Nat.not_le_of_lt (thread_lt_iff.mpr hlt)
    rw [if_neg hnot, Nat.mod_eq_of_lt hlt]
  · have hend : i + 1 = I.MAX_THREAD := heq
    rw [hend, if_pos (Nat.le_refl _), Nat.mod_self, thread_zero]

/-- `n` rounds of the search look at the `n` slots after `c`. -/
theorem findRunnable_spec (mem : Mem) (n : Nat) (hc : c < I.MAX_THREAD) :
    (findRunnable I mem n (I.thread c + sizeofThread) = none ∧
      ∀ j, 0 < j → j ≤ n → ¬ Ready I mem ((c + j) % I.MAX_THREAD)) ∨
    ∃ k, 0 < k ∧ k ≤ n ∧ Ready I mem ((c + k) % I.MAX_THREAD) ∧
      (∀ j, 0 < j → j < k → ¬ Ready I mem ((c + j) % I.MAX_THREAD)) ∧
      findRunnable I mem n (I.thread c + sizeofThread) = some (I.thread ((c + k) % I.MAX_THREAD)) := by
  induction n generalizing c with
  | zero => exact .inl ⟨rfl, fun j h0 hj => by omega⟩
  | succ n ih =>
      have hnext : (c + 1) % I.MAX_THREAD < I.MAX_THREAD := Nat.mod_lt _ I.MAX_THREAD_pos
      have hshift : ∀ j, ((c + 1) % I.MAX_THREAD + j) % I.MAX_THREAD = (c + (j + 1)) % I.MAX_THREAD := by
        intro j
        rw [Nat.mod_add_mod, Nat.add_assoc, Nat.add_comm 1 j]
      rw [findRunnable, thread_succ, wrap_eq hc]
      by_cases hready : Ready I mem ((c + 1) % I.MAX_THREAD)
      · exact .inr ⟨1, Nat.one_pos, Nat.succ_le_succ (Nat.zero_le n), hready,
          fun j h0 hj => by omega, if_pos hready⟩
      · have hskip : ∀ {j}, (∀ m, 0 < m → m < j → ¬ Ready I mem ((c + (m + 1)) % I.MAX_THREAD)) →
            ∀ m, 0 < m → m < j + 1 → ¬ Ready I mem ((c + m) % I.MAX_THREAD) := by
          intro j hall m h0 hm
          obtain ⟨m, rfl⟩ := Nat.exists_eq_succ_of_ne_zero (Nat.pos_iff_ne_zero.mp h0)
          rcases Nat.eq_zero_or_pos m with rfl | hpos
          · exact hready
          · exact hall m hpos (by omega)
        have hstep : (if stateAt mem (I.thread ((c + 1) % I.MAX_THREAD)) = RUNNABLE then
            some (I.thread ((c + 1) % I.MAX_THREAD))
          else findRunnable I mem n (I.thread ((c + 1) % I.MAX_THREAD) + sizeofThread)) =
            findRunnable I mem n (I.thread ((c + 1) % I.MAX_THREAD) + sizeofThread) := if_neg hready
        rcases ih hnext with ⟨hnone, hall⟩ | ⟨k, hpos, hk, hfound, hbefore, hsome⟩
        · refine .inl ⟨hstep.trans hnone, fun j h0 hj => hskip (j := n + 1) ?_ j h0 (by omega)⟩
          intro m h0 hm
          rw [← hshift]
          exact hall m h0 (by omega)
        · rw [hshift] at hfound hsome
          refine .inr ⟨k + 1, Nat.succ_pos k, Nat.succ_le_succ hk, hfound, hskip ?_, hstep.trans hsome⟩
          intro m h0 hm
          rw [← hshift]
          exact hbefore m h0 hm

/-- The whole search finds the first thread after the current one that is `RUNNABLE`, or there is none. -/
theorem findRunnable_round (hc : Current I mem c) :
    (findRunnable I mem I.MAX_THREAD (I.current mem + sizeofThread) = none ∧
      ∀ i < I.MAX_THREAD, ¬ Ready I mem i) ∨
    ∃ k, FirstAfter (Ready I mem) I.MAX_THREAD c k ∧
      findRunnable I mem I.MAX_THREAD (I.current mem + sizeofThread) =
        some (I.thread ((c + k) % I.MAX_THREAD)) := by
  rw [hc.2]
  rcases findRunnable_spec mem I.MAX_THREAD hc.1 with
    ⟨hnone, hall⟩ | ⟨k, hpos, hk, hfound, hbefore, hsome⟩
  · refine .inl ⟨hnone, fun i hi => ?_⟩
    by_cases heq : i = c
    · have := hall I.MAX_THREAD I.MAX_THREAD_pos (Nat.le_refl _)
      rwa [Nat.add_mod_right, Nat.mod_eq_of_lt hc.1, ← heq] at this
    · have := hall (ahead I.MAX_THREAD c i) (ahead_pos hc.1 hi heq) (Nat.le_of_lt (ahead_lt hc.1))
      rwa [add_ahead hc.1 hi] at this
  · exact .inr ⟨k, ⟨hpos, hk, hfound, hbefore⟩, hsome⟩

theorem length_contextLayout {f : Reg × Nat} (hf : f ∈ contextLayout) : f.2 + 8 ≤ sizeofContext := by
  have hall : ∀ f ∈ contextLayout, f.2 + 8 ≤ sizeofContext := by decide
  exact hall f hf

/-- Saving registers in a slot does not change a variable of the scheduler. -/
theorem switchStores_keeps (regs : Reg → Word) (l : List (Reg × Nat)) (hl : ∀ f ∈ l, f.2 + 8 ≤ sizeofContext)
    (hc : c ≤ I.MAX_THREAD) (mem : Mem) :
    (∀ i, I.state (storeList mem (l.map fun f => setContext (I.thread c) f.2 (regs f.1))) i =
      I.state mem i) ∧
    I.current (storeList mem (l.map fun f => setContext (I.thread c) f.2 (regs f.1))) =
      I.current mem := by
  induction l generalizing mem with
  | nil => exact ⟨fun _ => rfl, rfl⟩
  | cons f l ih =>
      have hf := hl f List.mem_cons_self
      obtain ⟨hstate, hcurrent⟩ := ih (fun g hg => hl g (List.mem_cons_of_mem _ hg))
        (store mem (setContext (I.thread c) f.2 (regs f.1)))
      exact ⟨fun i => (hstate i).trans (state_setContext hf), hcurrent.trans (current_setContext hf hc)⟩

theorem schedule_self {next : Nat}
    (h : findRunnable I s.mem I.MAX_THREAD (I.current s.mem + sizeofThread) = some next)
    (hself : I.current s.mem = next) : threadSchedule I s regs = s := by
  rw [threadSchedule, h]
  exact if_neg (not_not_intro hself)

theorem schedule_switch {next : Nat}
    (h : findRunnable I s.mem I.MAX_THREAD (I.current s.mem + sizeofThread) = some next)
    (hne : I.current s.mem ≠ next) :
    threadSchedule I s regs =
      { s with mem := storeList (storeList s.mem [setState next RUNNING, I.setCurrent next])
                (switchStores (I.current s.mem) regs) } := by
  rw [threadSchedule, h]
  exact if_pos hne

/-- `thread_schedule` in a state where `current_thread` points to slot `c`: no thread is `RUNNABLE`, or
    the CPU goes to the first one after `c`. -/
theorem schedule_cases (hc : Current I s.mem c) (regs : Reg → Word) :
    ((threadSchedule I s regs).exited = true ∧ ∀ i < I.MAX_THREAD, ¬ Ready I s.mem i) ∨
    ∃ k, FirstAfter (Ready I s.mem) I.MAX_THREAD c k ∧
      (threadSchedule I s regs).exited = s.exited ∧
      Current I (threadSchedule I s regs).mem ((c + k) % I.MAX_THREAD) ∧
      ∀ i < I.MAX_THREAD, i ≠ (c + k) % I.MAX_THREAD →
        I.state (threadSchedule I s regs).mem i = I.state s.mem i := by
  rcases findRunnable_round hc with ⟨hnone, hall⟩ | ⟨k, hfirst, hsome⟩
  · refine .inl ⟨?_, hall⟩
    rw [threadSchedule, hnone]
  · have hnext : (c + k) % I.MAX_THREAD < I.MAX_THREAD := Nat.mod_lt _ I.MAX_THREAD_pos
    refine .inr ⟨k, hfirst, ?_⟩
    by_cases hself : I.current s.mem = I.thread ((c + k) % I.MAX_THREAD)
    · rw [schedule_self hsome hself]
      exact ⟨rfl, ⟨hnext, hself⟩, fun i _ _ => rfl⟩
    · rw [schedule_switch hsome hself, hc.2]
      obtain ⟨hstate, hcurrent⟩ := switchStores_keeps regs contextLayout
        (fun f hf => length_contextLayout hf) (Nat.le_of_lt hc.1)
        (storeList s.mem [setState (I.thread ((c + k) % I.MAX_THREAD)) RUNNING,
          I.setCurrent (I.thread ((c + k) % I.MAX_THREAD))])
      have hlt := thread_lt (I := I) (Nat.le_of_lt hnext)
      refine ⟨rfl, ⟨hnext, hcurrent.trans (current_setCurrent (by omega))⟩, fun i hi hne => ?_⟩
      calc _ = _ := hstate i
        _ = _ := state_setCurrent (Nat.le_of_lt hi)
        _ = _ := state_setState hne

/-! ## Runs -/

theorem Current.leave (hc : Current I s.mem c) (st : Uint) : Current I (leave I s st).mem c := by
  refine ⟨hc.1, ?_⟩
  rw [Table.leave, hc.2]
  exact (current_setState (Nat.le_of_lt hc.1)).trans hc.2

theorem state_leave (hc : Current I s.mem c) (hi : i ≠ c) :
    I.state (leave I s st).mem i = I.state s.mem i := by
  rw [Table.leave, hc.2]
  exact state_setState hi

/-- The calls of `thread_schedule`, with what the current thread makes its state before. -/
def Label.leaves : Label → Option Uint
  | .threadYield _ => some RUNNABLE
  | .exit _ => some FREE
  | _ => none

/-- How often a run calls `thread_schedule`. -/
def calls (ls : List Label) : Nat := ls.countP fun l => l.leaves.isSome

theorem run_keeps {writes : List (Nat × Byte)} (hw : ∀ w ∈ writes, ¬ I.Reserved w.1) {a : Nat}
    (ha : I.Reserved a) :
    writes.foldl (fun mem w => Function.update mem w.1 w.2) mem a = mem a := by
  induction writes generalizing mem with
  | nil => rfl
  | cons w ws ih =>
      have hne : a ≠ w.1 := fun h => hw w List.mem_cons_self (h ▸ ha)
      have htail : ws.foldl (fun mem w => Function.update mem w.1 w.2) (Function.update mem w.1 w.2) a =
          Function.update mem w.1 w.2 a := ih fun w' hw' => hw w' (List.mem_cons_of_mem _ hw')
      exact htail.trans (Function.update_of_ne hne _ _)

theorem create_keeps (func : Word) {j : Nat} (hj : j ≤ I.MAX_THREAD)
    (hfind : findFree s.mem I.MAX_THREAD I.allThread = I.thread j) :
    I.current (threadCreate I s func).mem = I.current s.mem ∧
      ∀ i, i ≠ j → I.state (threadCreate I s func).mem i = I.state s.mem i := by
  have h8 : 8 + 8 ≤ sizeofContext := by decide
  have h0 : 0 + 8 ≤ sizeofContext := by decide
  unfold threadCreate Image.createStores
  rw [hfind]
  refine ⟨?_, fun i hne => ?_⟩
  · calc _ = _ := current_setContext h8 hj
      _ = _ := current_setContext h0 hj
      _ = _ := current_setState hj
  · calc _ = _ := state_setContext h8
      _ = _ := state_setContext h0
      _ = _ := state_setState hne

theorem step_live {l : Label} (hstep : step I s l = some v) : s.exited = false := by
  unfold step at hstep
  split at hstep
  · cases hstep
  case isFalse hlive => exact Bool.eq_false_iff.mpr hlive

theorem FREE_ne_RUNNABLE : FREE ≠ RUNNABLE := by decide

/-- A step that does not call `thread_schedule` keeps the current thread and all that are `RUNNABLE`. -/
theorem step_other {l : Label} (hl : l.leaves = none) (hc : Current I s.mem c)
    (hstep : step I s l = some v) :
    v.exited = false ∧ Current I v.mem c ∧ ∀ i < I.MAX_THREAD, Ready I s.mem i → Ready I v.mem i := by
  unfold step at hstep
  split at hstep
  · cases hstep
  case isFalse hlive =>
    have hexited : s.exited = false := Bool.eq_false_iff.mpr hlive
    cases l with
    | run writes =>
        obtain ⟨hw, ⟨⟩⟩ := Option.ite_none_right_eq_some.1 hstep
        have hstate : ∀ i < I.MAX_THREAD, ∀ k < 4, I.Reserved (I.thread i + stateOffset + k) := by
          intro i hi k hk
          refine .inl ⟨i, hi, by omega, ?_⟩
          rw [stateOffset_eq, sizeofThread_eq]
          omega
        have hcur : ∀ k < 8, I.Reserved (I.currentThread + k) := fun k hk => .inr (by omega)
        refine ⟨hexited, ⟨hc.1, ?_⟩, fun i hi hready => ?_⟩
        · rw [← hc.2]
          exact congrArg BitVec.toNat (dword_congr fun k hk => run_keeps hw (hcur k hk))
        · exact (word_congr fun k hk => run_keeps hw (hstate i hi k hk)).trans hready
    | threadCreate func =>
        obtain ⟨j, hj, hfind, -, hstop⟩ := exists_findFree (I := I) s.mem
        obtain ⟨hcurrent, hstate⟩ := create_keeps func hj hfind
        cases hstep
        refine ⟨hexited, ⟨hc.1, hcurrent.trans hc.2⟩, fun i hi hready => ?_⟩
        -- a thread is created in a slot that is not `RUNNABLE`, or behind the table
        have hne : i ≠ j := by
          rintro rfl
          exact FREE_ne_RUNNABLE ((hstop hi).symm.trans hready)
        exact (hstate i hne).trans hready
    | threadYield regs => cases hl
    | exit regs => cases hl

theorem step_schedule {l : Label} (hl : l.leaves = some st) (hstep : step I s l = some v) :
    s.exited = false ∧ ∃ regs, v = threadSchedule I (leave I s st) regs := by
  unfold step at hstep
  split at hstep
  · cases hstep
  case isFalse hlive =>
    refine ⟨Bool.eq_false_iff.mpr hlive, ?_⟩
    cases l with
    | run writes => cases hl
    | threadCreate func => cases hl
    | threadYield regs =>
        cases hl
        cases hstep
        exact ⟨regs, rfl⟩
    | exit regs =>
        cases hl
        cases hstep
        exact ⟨regs, rfl⟩

/-- The invariant: `current_thread` points to a slot of the table. -/
def Law (I : Image) (s : State) : Prop := s.exited = true ∨ ∃ c, Current I s.mem c

theorem Law.step {l : Label} (h : Law I s) (hstep : Table.step I s l = some v) : Law I v := by
  obtain ⟨c, hc⟩ := h.resolve_left (by rw [step_live hstep]; exact Bool.false_ne_true)
  cases hl : l.leaves with
  | none => exact .inr ⟨c, (step_other hl hc hstep).2.1⟩
  | some st =>
      obtain ⟨-, regs, rfl⟩ := step_schedule hl hstep
      rcases schedule_cases (hc.leave st) regs with ⟨hexited, -⟩ | ⟨k, -, -, hnext, -⟩
      · exact .inl hexited
      · exact .inr ⟨_, hnext⟩

theorem law_init (h : Init I s) : Law I s := by
  obtain ⟨mem, -, rfl⟩ := h
  have hcur : I.current (store mem (I.setCurrent I.allThread)) = I.thread 0 := by
    have := I.allThread_lt
    rw [thread_zero]
    exact current_setCurrent (by omega)
  refine .inr ⟨0, I.MAX_THREAD_pos, ?_⟩
  change I.current (store _ (setState (I.current _) RUNNING)) = _
  rw [hcur]
  exact (current_setState (Nat.zero_le _)).trans hcur

/-! ## Waiting -/

/-- A thread that is `RUNNABLE` is switched to after at most as many calls of `thread_schedule` as it is
    slots ahead. By induction on the run: each call brings it nearer. -/
theorem switched_to (hc : Current I s.mem c) (hx : s.exited = false) (hi : i < I.MAX_THREAD) (hne : i ≠ c)
    (hready : Ready I s.mem i) {ls : List Label} (hrun : runSteps (step I) s ls = some u)
    (hcalls : ahead I.MAX_THREAD c i ≤ calls ls) :
    ∃ pre suf v, ls = pre ++ suf ∧ calls pre ≤ ahead I.MAX_THREAD c i ∧
      runSteps (step I) s pre = some v ∧ v.exited = false ∧ Current I v.mem i := by
  induction ls generalizing s c with
  | nil =>
      have := ahead_pos hc.1 hi hne
      have hzero : calls [] = 0 := rfl
      omega
  | cons l ls ih =>
      obtain ⟨t, ht, hrest⟩ := runSteps_cons_eq_some.1 hrun
      cases hl : l.leaves with
      | none =>
          obtain ⟨hxt, hct, hkeep⟩ := step_other hl hc ht
          have hsame : ∀ ms, calls (l :: ms) = calls ms := fun ms => by
            rw [calls, List.countP_cons, hl]
            rfl
          rw [hsame] at hcalls
          obtain ⟨pre, suf, v, rfl, hpre, hv, hxv, hcv⟩ := ih hct hxt hne (hkeep i hi hready) hrest hcalls
          exact ⟨l :: pre, suf, v, rfl, by rwa [hsame], runSteps_cons_eq_some.2 ⟨t, ht, hv⟩, hxv, hcv⟩
      | some st =>
          obtain ⟨-, regs, rfl⟩ := step_schedule hl ht
          have hcount : ∀ ms, calls (l :: ms) = calls ms + 1 := fun ms => by
            rw [calls, List.countP_cons, hl]
            rfl
          have hready' : Ready I (leave I s st).mem i := (state_leave hc hne).trans hready
          rcases schedule_cases (hc.leave st) regs with ⟨-, hnone⟩ | ⟨k, hfirst, hxt, hct, hkeep⟩
          · exact absurd hready' (hnone i hi)
          · have hk := hfirst.le_ahead hc.1 hi hne hready'
            have hpos := hfirst.pos
            have hdist := hfirst.ahead_next hc.1 hi hne hready'
            rw [hcount] at hcalls
            by_cases heq : i = (c + k) % I.MAX_THREAD
            · refine ⟨[l], ls, _, rfl, ?_, runSteps_cons_eq_some.2 ⟨_, ht, rfl⟩, hxt.trans hx, heq ▸ hct⟩
              rw [hcount]
              exact Nat.le_trans hpos hk
            · have hnext := (hkeep i hi heq).trans hready'
              obtain ⟨pre, suf, v, rfl, hpre, hv, hxv, hcv⟩ :=
                ih hct (hxt.trans hx) heq hnext hrest (by omega)
              refine ⟨l :: pre, suf, v, rfl, ?_, runSteps_cons_eq_some.2 ⟨_, ht, hv⟩, hxv, hcv⟩
              rw [hcount]
              omega

/-- `thread_schedule`, called with slot `c` as the current one, selects the first thread in cyclic order
    that is `RUNNABLE`, `c` coming last, and gives up if there is none. -/
structure Selects (I : Image) (s : State) (c : Nat) (regs : Reg → Word) : Prop where
  gives_up : (threadSchedule I s regs).exited = true ↔ ∀ i < I.MAX_THREAD, ¬ Ready I s.mem i
  selects : ∀ k, FirstAfter (Ready I s.mem) I.MAX_THREAD c k →
    I.current (threadSchedule I s regs).mem = I.thread ((c + k) % I.MAX_THREAD)

theorem Current.selects (hc : Current I s.mem c) (hx : s.exited = false) (regs : Reg → Word) :
    Selects I s c regs := by
  rcases schedule_cases hc regs with ⟨hexited, hnone⟩ | ⟨k, hfirst, hlive, hnext, -⟩
  · refine ⟨iff_of_true hexited hnone, fun k hfirst => ?_⟩
    exact absurd hfirst.found (hnone _ (Nat.mod_lt _ I.MAX_THREAD_pos))
  · refine ⟨iff_of_false ?_ fun hnone => ?_, fun k' hfirst' => ?_⟩
    · rw [hlive, hx]
      exact Bool.false_ne_true
    · exact hnone _ (Nat.mod_lt _ I.MAX_THREAD_pos) hfirst.found
    · rw [hfirst'.unique hfirst]
      exact hnext.2

/-- **Round robin.** Whatever state the current thread leaves itself in, `thread_schedule` selects the
    next thread in cyclic order that is `RUNNABLE`, and a thread that is `RUNNABLE` and not the current
    one is switched to within `MAX_THREAD - 1` calls. -/
theorem round_robin (I : Image) (s : State) (hs : Reachable (step I) (Init I) s) (hx : s.exited = false) :
    ∃ c < I.MAX_THREAD, I.current s.mem = I.thread c ∧
      (∀ st regs, Selects I (leave I s st) c regs) ∧
      ∀ i < I.MAX_THREAD, i ≠ c → I.state s.mem i = RUNNABLE → ∀ ls u,
        runSteps (step I) s ls = some u → I.MAX_THREAD - 1 ≤ calls ls →
        ∃ pre suf v, ls = pre ++ suf ∧ calls pre ≤ I.MAX_THREAD - 1 ∧
          runSteps (step I) s pre = some v ∧ v.exited = false ∧ I.current v.mem = I.thread i := by
  have hlaw : Law I s := hs.invariant (fun _ h => law_init h) fun _ _ _ h hstep => h.step hstep
  obtain ⟨c, hc⟩ := hlaw.resolve_left (by rw [hx]; exact Bool.false_ne_true)
  refine ⟨c, hc.1, hc.2, fun st regs => (hc.leave st).selects hx regs, ?_⟩
  intro i hi hne hready ls u hrun hcalls
  have hdist := ahead_lt (i := i) hc.1
  obtain ⟨pre, suf, v, hls, hpre, hv, hxv, hcv⟩ := switched_to hc hx hi hne hready hrun (by omega)
  exact ⟨pre, suf, v, hls, by omega, hv, hxv, hcv.2⟩

/-- `main` has created three threads. -/
theorem round_robin_three : ∃ s, runSteps (step image) atStart threeThreads = some s ∧
    ∃ c < image.MAX_THREAD, image.current s.mem = image.thread c ∧
      (∀ st regs, Selects image (leave image s st) c regs) ∧
      ∀ i < image.MAX_THREAD, i ≠ c → image.state s.mem i = RUNNABLE → ∀ ls u,
        runSteps (step image) s ls = some u → image.MAX_THREAD - 1 ≤ calls ls →
        ∃ pre suf v, ls = pre ++ suf ∧ calls pre ≤ image.MAX_THREAD - 1 ∧
          runSteps (step image) s pre = some v ∧ v.exited = false ∧
          image.current v.mem = image.thread i := by
  obtain ⟨s, hs⟩ : ∃ s, runSteps (step image) atStart threeThreads = some s :=
    Option.isSome_iff_exists.1 (by decide +kernel)
  have hlive : (runSteps (step image) atStart threeThreads).map State.exited = some false := by
    decide +kernel
  rw [hs, Option.map_some, Option.some.injEq] at hlive
  exact ⟨s, hs, round_robin image s ⟨atStart, threeThreads, init_atStart, hs⟩ hlive⟩

end Xv6.Uthread.Table
