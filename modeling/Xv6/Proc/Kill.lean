import Xv6.Proc.Table

set_option autoImplicit false

/-! # Whom a kill reaches

`kkill` compares `p->pid` without looking at `p->state`. `freeproc` leaves 0 in `p->pid`, so that a
kill of pid 0 matches the first `UNUSED` slot: it returns 0 and marks that slot, and `allocproc`,
which does not reset `p->killed`, hands the mark on to the next process. As long as no round of
`kkill` matches an `UNUSED` slot, a kill reaches the process it names and no other. -/

namespace Xv6.ProcTable

open Xv6.Lib

/-! ## What a step does to a slot -/

/-- The slot keeps what a kill looks at, and what it leaves. -/
structure Keeps (q q' : Proc) : Prop where
  killed : q'.killed = q.killed
  pid : q'.pid = q.pid
  unused : q'.state = .UNUSED ↔ q.state = .UNUSED
  used : q.state = .USED → q'.state = .USED

theorem Keeps.refl (q : Proc) : Keeps q q := ⟨rfl, rfl, Iff.rfl, id⟩

theorem Keeps.trans {q q' q'' : Proc} (h : Keeps q q') (h' : Keeps q' q'') : Keeps q q'' :=
  ⟨h'.killed.trans h.killed, h'.pid.trans h.pid, h'.unused.trans h.unused, h'.used ∘ h.used⟩

/-- A process in use moves to another state in use. -/
theorem Keeps.of_state {q q' : Proc} (hk : q'.killed = q.killed) (hp : q'.pid = q.pid)
    (h : q.state ≠ .UNUSED) (hu : q.state ≠ .USED) (h' : q'.state ≠ .UNUSED) : Keeps q q' :=
  ⟨hk, hp, by simp [h, h'], fun he => absurd he hu⟩

/-- The step is a round of `kkill` that names the process in slot `i`. -/
def Kills (s : State) (l : Label) (i : Fin NPROC) : Prop :=
  ∃ p ok rest, l = .run p ok ∧ s.pc p = .kkill (s.proc i).pid (i :: rest)

/-- The step is the last one of the `kfork` that has made slot `i`. -/
def Runs (s : State) (l : Label) (i : Fin NPROC) : Prop :=
  ∃ p ok pid, l = .run p ok ∧ s.pc p = .forkRun i pid

/-- In the step from `s` slot `i` goes from `q` to `q'`. -/
inductive SlotStep (s : State) (l : Label) (i : Fin NPROC) (q : Proc) : Proc → Prop where
  | keep (q' : Proc) : Keeps q q' → SlotStep s l i q q'
  | alloc (pid : BitVec 32) : q.state = .UNUSED → SlotStep s l i q { q with pid := pid, state := .USED }
  | free (pid : BitVec 32) (st : ProcState) : q.state = .UNUSED ∨ q.state = .ZOMBIE →
      SlotStep s l i q (freeproc { q with pid := pid, state := st })
  | run : Runs s l i → q.state = .USED → SlotStep s l i q { q with state := .RUNNABLE }
  | kill : Kills s l i → SlotStep s l i q q.kill
  | setkilled : l = .setkilled i → q.state = .RUNNING → SlotStep s l i q { q with killed := true }

theorem setProc_self (s : State) (p : Fin NPROC) (f : Proc → Proc) :
    (s.setProc p f).proc p = f (s.proc p) := by
  simp [State.setProc]

theorem setProc_of_ne (s : State) {p i : Fin NPROC} (f : Proc → Proc) (h : i ≠ p) :
    (s.setProc p f).proc i = s.proc i := by
  simp [State.setProc, h]

@[simp] theorem setPc_proc (s : State) (p : Fin NPROC) (c : Pc) : (s.setPc p c).proc = s.proc := rfl

@[simp] theorem returns_proc (s : State) (p : Fin NPROC) (v : BitVec 32) :
    (s.returns p v).proc = s.proc := rfl

/-- Only slot `p` changes. -/
theorem slotStep_setProc {s : State} {l : Label} {p : Fin NPROC} {f : Proc → Proc}
    (h : SlotStep s l p (s.proc p) (f (s.proc p))) (i : Fin NPROC) :
    SlotStep s l i (s.proc i) ((s.setProc p f).proc i) := by
  by_cases hi : i = p
  · subst hi
    rw [setProc_self]
    exact h
  · rw [setProc_of_ne _ _ hi]
    exact .keep _ (.refl _)

theorem keeps_wakeup (t : Table) (chan : Chan) (i : Fin NPROC) : Keeps (t i) (wakeup t chan i) := by
  unfold wakeup
  split
  · next h => exact .of_state rfl rfl (by simp [h.1]) (by simp [h.1]) (by simp)
  · exact .refl _

theorem keeps_reparent (t : Table) (p i : Fin NPROC) : Keeps (t i) (reparent t p i) := by
  have hparent : ∀ q : Proc, Keeps q (if q.parent = some p then { q with parent := some initproc } else q) := by
    intro q
    split
    · exact ⟨rfl, rfl, Iff.rfl, id⟩
    · exact .refl q
  unfold reparent
  simp only
  split
  · refine (hparent (t i)).trans ?_
    exact keeps_wakeup (fun pp => if (t pp).parent = some p then
      { t pp with parent := some initproc } else t pp) _ i
  · exact hparent (t i)

theorem wakeup_of_running (t : Table) (chan : Chan) {p : Fin NPROC} (h : (t p).state = .RUNNING) :
    wakeup t chan p = t p := by
  simp [wakeup, h]

theorem reparent_state_of_running (t : Table) (p : Fin NPROC) {i : Fin NPROC}
    (h : (t i).state = .RUNNING) : (reparent t p i).state = .RUNNING := by
  have hparent : (if (t i).parent = some p then { t i with parent := some initproc } else t i).state
      = .RUNNING := by
    split <;> exact h
  unfold reparent
  simp only
  split
  · rw [wakeup_of_running]
    · exact hparent
    · exact hparent
  · exact hparent

theorem keeps_kexit (t : Table) {p : Fin NPROC} (status : BitVec 32) (h : (t p).state = .RUNNING)
    (i : Fin NPROC) : Keeps (t i) (kexit t p status i) := by
  unfold kexit
  simp only
  have hstate := reparent_state_of_running t p h
  generalize hr : reparent t p = r at hstate
  have hkeep : ∀ j, Keeps (t j) (r j) := fun j => by
    rw [← hr]
    exact keeps_reparent t p j
  have hmain : ∀ r' : Table, (r' p).state = .RUNNING → (∀ j, Keeps (t j) (r' j)) →
      Keeps (t i) (Function.update r' p { r' p with xstate := status, state := .ZOMBIE } i) := by
    intro r' hr' hk
    by_cases hi : i = p
    · subst hi
      rw [Function.update_self]
      exact .of_state (hk i).killed (hk i).pid (by simp [h]) (by simp [h]) (by simp)
    · rw [Function.update_of_ne hi]
      exact hk i
  split
  · next parent _ =>
    refine hmain _ ?_ fun j => (hkeep j).trans (keeps_wakeup _ _ j)
    rw [wakeup_of_running _ _ hstate]
    exact hstate
  · exact hmain r hstate hkeep

/-! ## The children that `kfork` has not finished -/

/-- The slot that a `kfork` under way has allocated. -/
def Pc.child : Pc → Option (Fin NPROC)
  | .forkParent np _ | .forkRun np _ => some np
  | _ => none

structure Forking (s : State) : Prop where
  used : ∀ p j, (s.pc p).child = some j → (s.proc j).state = .USED
  unique : ∀ p q j, (s.pc p).child = some j → (s.pc q).child = some j → p = q

theorem slotStep_allocFound {s : State} {l : Label} {p np : Fin NPROC} {mem : Bool}
    (h : (s.proc np).state = .UNUSED) (i : Fin NPROC) :
    SlotStep s l i (s.proc i) ((allocFound s p np mem).proc i) := by
  unfold allocFound
  cases mem with
  | true =>
      exact slotStep_setProc (s := s) (f := fun q => { q with pid := s.nextpid, state := .USED })
        (.alloc _ h) i
  | false =>
      simp only [Bool.false_eq_true, if_false, returns_proc]
      by_cases hi : i = np
      · subst hi
        rw [setProc_self, setProc_self]
        exact .free s.nextpid .USED (Or.inl h)
      · rw [setProc_of_ne _ _ hi, setProc_of_ne _ _ hi]
        exact .keep _ (.refl _)

theorem slotStep_kwait {s : State} {l : Label} {p : Fin NPROC} {copyout : Bool}
    (h : (s.proc p).state = .RUNNING) (i : Fin NPROC) :
    SlotStep s l i (s.proc i) ((kwait s p copyout).proc i) := by
  unfold kwait
  split
  · next pp hfind =>
    have hz : (s.proc pp).state = .ZOMBIE := by
      have := List.find?_some hfind
      simp only [decide_eq_true_eq] at this
      exact this.2
    split
    · refine slotStep_setProc ?_ i
      exact .free (s.proc pp).pid (s.proc pp).state (Or.inr hz)
    · exact .keep _ (.refl _)
  · split
    · exact .keep _ (.refl _)
    · refine slotStep_setProc ?_ i
      exact .keep _ (.of_state rfl rfl (by simp [h]) (by simp [h]) (by simp))

theorem slotStep_run {s t : State} {p : Fin NPROC} {ok : Bool} (hf : Forking s)
    (hp : (s.proc p).state = .RUNNING) (h : run s p ok = some t) (i : Fin NPROC) :
    SlotStep s (.run p ok) i (s.proc i) (t.proc i) := by
  unfold run at h
  split at h
  · cases h
  · rw [Option.some.injEq] at h
    subst h
    exact .keep _ (.refl _)
  · next np rest hpc =>
    split at h
    · next hu =>
      rw [Option.some.injEq] at h
      subst h
      exact slotStep_allocFound hu i
    · rw [Option.some.injEq] at h
      subst h
      exact .keep _ (.refl _)
  · next np pid hpc =>
    rw [Option.some.injEq] at h
    subst h
    rw [setPc_proc]
    refine slotStep_setProc ?_ i
    exact .keep _ ⟨rfl, rfl, Iff.rfl, id⟩
  · next np pid hpc =>
    rw [Option.some.injEq] at h
    subst h
    rw [returns_proc]
    refine slotStep_setProc ?_ i
    exact .run ⟨p, ok, pid, rfl, hpc⟩ (hf.used p np (by simp [hpc, Pc.child]))
  · rw [Option.some.injEq] at h
    subst h
    exact slotStep_kwait hp i
  · rw [Option.some.injEq] at h
    subst h
    exact .keep _ (.refl _)
  · next pid q rest hpc =>
    split at h
    · next hq =>
      rw [Option.some.injEq] at h
      subst h
      rw [returns_proc]
      refine slotStep_setProc ?_ i
      exact .kill ⟨p, ok, rest, rfl, by rw [hq]; exact hpc⟩
    · rw [Option.some.injEq] at h
      subst h
      exact .keep _ (.refl _)

/-- What any step does to any slot. -/
theorem step_slot {s t : State} {l : Label} (hf : Forking s) (h : step s l = some t)
    (i : Fin NPROC) : SlotStep s l i (s.proc i) (t.proc i) := by
  unfold step at h
  cases l with
  | scheduler p =>
      simp only at h
      split at h
      · next hp =>
        rw [Option.some.injEq] at h
        subst h
        refine slotStep_setProc ?_ i
        exact .keep _ (.of_state rfl rfl (by simp [hp]) (by simp [hp]) (by simp))
      · cases h
  | yield p =>
      simp only at h
      split at h
      · next hp =>
        rw [Option.some.injEq] at h
        subst h
        refine slotStep_setProc ?_ i
        exact .keep _ (.of_state rfl rfl (by simp [hp]) (by simp [hp]) (by simp))
      · cases h
  | sleep p chan =>
      simp only at h
      split at h
      · next hp =>
        rw [Option.some.injEq] at h
        subst h
        refine slotStep_setProc ?_ i
        exact .keep _ (.of_state rfl rfl (by simp [hp.1]) (by simp [hp.1]) (by simp))
      · cases h
  | wakeup chan =>
      rw [Option.some.injEq] at h
      subst h
      exact .keep _ (keeps_wakeup s.proc chan i)
  | setkilled p =>
      simp only at h
      split at h
      · next hp =>
        rw [Option.some.injEq] at h
        subst h
        refine slotStep_setProc ?_ i
        exact .setkilled rfl hp.1
      · cases h
  | callFork p =>
      simp only at h
      split at h
      · rw [Option.some.injEq] at h
        subst h
        exact .keep _ (.refl _)
      · cases h
  | callWait p =>
      simp only at h
      split at h
      · rw [Option.some.injEq] at h
        subst h
        exact .keep _ (.refl _)
      · cases h
  | callKill p pid =>
      simp only at h
      split at h
      · rw [Option.some.injEq] at h
        subst h
        exact .keep _ (.refl _)
      · cases h
  | kexit p status =>
      simp only at h
      split at h
      · next hp =>
        rw [Option.some.injEq] at h
        subst h
        exact .keep _ (keeps_kexit s.proc status hp.1.1 i)
      · cases h
  | run p ok =>
      simp only at h
      split at h
      · next hp => exact slotStep_run hf hp h i
      · cases h

theorem setPc_pc_self (s : State) (p : Fin NPROC) (c : Pc) : (s.setPc p c).pc p = c := by
  simp [State.setPc]

theorem setPc_pc_of_ne (s : State) {p q : Fin NPROC} (c : Pc) (h : q ≠ p) :
    (s.setPc p c).pc q = s.pc q := by
  simp [State.setPc, h]

theorem setProc_pc (s : State) (p : Fin NPROC) (f : Proc → Proc) : (s.setProc p f).pc = s.pc := rfl

/-- A process that moves to a point without a child leaves the children of the others. -/
theorem child_of_setPc {s : State} {p q j : Fin NPROC} {c : Pc} (hc : c.child = none)
    (h : ((s.setPc q c).pc p).child = some j) : p ≠ q ∧ (s.pc p).child = some j := by
  by_cases hpq : p = q
  · subst hpq
    rw [setPc_pc_self, hc] at h
    cases h
  · rw [setPc_pc_of_ne _ _ hpq] at h
    exact ⟨hpq, h⟩

theorem child_of_returns {s : State} {p q j : Fin NPROC} {v : BitVec 32}
    (h : ((s.returns q v).pc p).child = some j) : p ≠ q ∧ (s.pc p).child = some j :=
  child_of_setPc (c := .user) rfl h

/-- `p` has slot `j` under construction, and is not about to finish it. -/
def Constructs (s : State) (l : Label) (p j : Fin NPROC) : Prop :=
  (s.pc p).child = some j ∧ ∀ ok pid, l = .run p ok → s.pc p ≠ .forkRun j pid

theorem constructs_of_ne {s : State} {p q j : Fin NPROC} {ok : Bool} (h : p ≠ q)
    (hj : (s.pc p).child = some j) : Constructs s (.run q ok) p j := by
  refine ⟨hj, fun ok' pid he => ?_⟩
  cases he
  exact absurd rfl h

theorem child_allocFound {s : State} {p np q j : Fin NPROC} {mem : Bool} {ok : Bool}
    (h : ((allocFound s p np mem).pc q).child = some j) :
    Constructs s (.run p ok) q j ∨
      q = p ∧ j = np ∧ ((allocFound s p np mem).proc np).state = .USED := by
  unfold allocFound at h ⊢
  cases mem with
  | true =>
      simp only [if_true] at h ⊢
      by_cases hq : q = p
      · subst hq
        rw [setPc_pc_self, Pc.child, Option.some.injEq] at h
        refine Or.inr ⟨rfl, h.symm, ?_⟩
        rw [setPc_proc, returns_proc, setProc_self]
      · rw [setPc_pc_of_ne _ _ hq] at h
        exact Or.inl (constructs_of_ne hq (child_of_returns h).2)
  | false =>
      simp only [Bool.false_eq_true, if_false] at h
      obtain ⟨hq, hc⟩ := child_of_returns h
      exact Or.inl (constructs_of_ne hq hc)

theorem child_kwait {s : State} {p q j : Fin NPROC} {copyout : Bool} {ok : Bool}
    (hp : s.pc p = .kwait) (h : ((kwait s p copyout).pc q).child = some j) :
    Constructs s (.run p ok) q j := by
  have hreturn : ∀ (u : State) (v : BitVec 32), u.pc = s.pc →
      ((u.returns p v).pc q).child = some j → Constructs s (.run p ok) q j := by
    intro u v hu hj
    obtain ⟨hq, hc⟩ := child_of_returns hj
    rw [hu] at hc
    exact constructs_of_ne hq hc
  unfold kwait at h
  split at h
  · split at h
    · exact hreturn (s.setProc _ freeproc) _ rfl h
    · exact hreturn s (-1) rfl h
  · split at h
    · exact hreturn s (-1) rfl h
    · rw [setProc_pc] at h
      refine constructs_of_ne (fun hq => ?_) h
      subst hq
      simp [hp, Pc.child] at h

theorem child_run {s t : State} {p : Fin NPROC} {ok : Bool} (h : run s p ok = some t)
    {q j : Fin NPROC} (hj : (t.pc q).child = some j) : Constructs s (.run p ok) q j ∨
      q = p ∧ (s.proc j).state = .UNUSED ∧ (t.proc j).state = .USED := by
  have hother : ∀ {u : State} {c : Pc}, u.pc = s.pc → c.child = none →
      ((u.setPc p c).pc q).child = some j → Constructs s (.run p ok) q j := by
    intro u c hu hc hj
    obtain ⟨hq, hk⟩ := child_of_setPc hc hj
    rw [hu] at hk
    exact constructs_of_ne hq hk
  unfold run at h
  split at h
  · cases h
  · rw [Option.some.injEq] at h
    subst h
    exact Or.inl (hother (c := .user) rfl rfl hj)
  · next np rest hpc =>
    split at h
    · next hu =>
      rw [Option.some.injEq] at h
      subst h
      rcases child_allocFound hj with hc | ⟨hq, rfl, hused⟩
      · exact Or.inl hc
      · exact Or.inr ⟨hq, hu, hused⟩
    · rw [Option.some.injEq] at h
      subst h
      exact Or.inl (hother rfl rfl hj)
  · next np pid hpc =>
    rw [Option.some.injEq] at h
    subst h
    by_cases hq : q = p
    · subst hq
      rw [setPc_pc_self] at hj
      refine Or.inl ⟨by rw [hpc]; exact hj, fun ok' pid' _ => by simp [hpc]⟩
    · rw [setPc_pc_of_ne _ _ hq] at hj
      exact Or.inl (constructs_of_ne hq hj)
  · rw [Option.some.injEq] at h
    subst h
    exact Or.inl (hother (c := .user) rfl rfl hj)
  · next hpc =>
    rw [Option.some.injEq] at h
    subst h
    exact Or.inl (child_kwait hpc hj)
  · rw [Option.some.injEq] at h
    subst h
    exact Or.inl (hother (c := .user) rfl rfl hj)
  · split at h
    · rw [Option.some.injEq] at h
      subst h
      exact Or.inl (hother (c := .user) rfl rfl hj)
    · rw [Option.some.injEq] at h
      subst h
      exact Or.inl (hother rfl rfl hj)

/-- A slot under construction after a step was so before it, or is allocated by it. -/
theorem step_child {s t : State} {l : Label} (h : step s l = some t) {q j : Fin NPROC}
    (hj : (t.pc q).child = some j) :
    Constructs s l q j ∨ (∃ ok, l = .run q ok) ∧ (s.proc j).state = .UNUSED ∧
      (t.proc j).state = .USED := by
  have hcall : ∀ {p : Fin NPROC} {c : Pc}, c.child = none →
      (∀ p' ok, l ≠ .run p' ok) → ((s.setPc p c).pc q).child = some j → Constructs s l q j :=
    fun hc hl hj => ⟨(child_of_setPc hc hj).2, fun ok _ he => absurd he (hl q ok)⟩
  have hsame : (∀ p' ok, l ≠ .run p' ok) → (s.pc q).child = some j → Constructs s l q j :=
    fun hl hj => ⟨hj, fun ok _ he => absurd he (hl q ok)⟩
  unfold step at h
  cases l with
  | scheduler p =>
      simp only at h
      split at h
      · rw [Option.some.injEq] at h
        subst h
        exact Or.inl (hsame (by simp) hj)
      · cases h
  | yield p =>
      simp only at h
      split at h
      · rw [Option.some.injEq] at h
        subst h
        exact Or.inl (hsame (by simp) hj)
      · cases h
  | sleep p chan =>
      simp only at h
      split at h
      · rw [Option.some.injEq] at h
        subst h
        exact Or.inl (hsame (by simp) hj)
      · cases h
  | wakeup chan =>
      rw [Option.some.injEq] at h
      subst h
      exact Or.inl (hsame (by simp) hj)
  | setkilled p =>
      simp only at h
      split at h
      · rw [Option.some.injEq] at h
        subst h
        exact Or.inl (hsame (by simp) hj)
      · cases h
  | callFork p =>
      simp only at h
      split at h
      · rw [Option.some.injEq] at h
        subst h
        exact Or.inl (hcall rfl (by simp) hj)
      · cases h
  | callWait p =>
      simp only at h
      split at h
      · rw [Option.some.injEq] at h
        subst h
        exact Or.inl (hcall rfl (by simp) hj)
      · cases h
  | callKill p pid =>
      simp only at h
      split at h
      · rw [Option.some.injEq] at h
        subst h
        exact Or.inl (hcall rfl (by simp) hj)
      · cases h
  | kexit p status =>
      simp only at h
      split at h
      · rw [Option.some.injEq] at h
        subst h
        exact Or.inl (hsame (by simp) hj)
      · cases h
  | run p ok =>
      simp only at h
      split at h
      · rcases child_run h hj with hc | ⟨rfl, hu⟩
        · exact Or.inl hc
        · exact Or.inr ⟨⟨ok, rfl⟩, hu⟩
      · cases h

theorem Forking.step {s t : State} {l : Label} (hf : Forking s) (h : step s l = some t) :
    Forking t := by
  refine ⟨fun p j hj => ?_, fun p q j hp hq => ?_⟩
  · rcases step_child h hj with hc | ⟨-, -, hu⟩
    · have hused : (s.proc j).state = .USED := hf.used p j hc.1
      have hslot := step_slot hf h j
      generalize t.proc j = q' at hslot
      cases hslot with
      | keep _ hk => exact hk.used hused
      | alloc pid hu => simp [hused] at hu
      | free pid st hz => simp [hused] at hz
      | run hr _ =>
          obtain ⟨p', ok, pid, hl, hpc⟩ := hr
          have hpp : p' = p := hf.unique p' p j (by simp [hpc, Pc.child]) hc.1
          subst hpp
          exact absurd hpc (hc.2 ok pid hl)
      | kill _ => simp [Proc.kill, hused]
      | setkilled _ hr => simp [hused] at hr
    · exact hu
  · rcases step_child h hp with hcp | ⟨⟨ok, hlp⟩, hup, -⟩
    · rcases step_child h hq with hcq | ⟨-, huq, -⟩
      · exact hf.unique p q j hcp.1 hcq.1
      · have hused := hf.used p j hcp.1
        simp [huq] at hused
    · rcases step_child h hq with hcq | ⟨⟨ok', hlq⟩, -, -⟩
      · have hused := hf.used q j hcq.1
        simp [hup] at hused
      · rw [hlp, Label.run.injEq] at hlq
        exact hlq.1

/-! ## The leftovers of a free slot -/

/-- A free slot has pid 0. -/
def PidZero (t : Table) : Prop := ∀ i, (t i).state = .UNUSED → (t i).pid = 0

/-- A free slot is not marked as killed. -/
def Unmarked (t : Table) : Prop := ∀ i, (t i).state = .UNUSED → (t i).killed = false

/-- A round of `kkill` matches a free slot. -/
def HitsUnused (s : State) (l : Label) : Prop := ∃ i, Kills s l i ∧ (s.proc i).state = .UNUSED

theorem PidZero.step {s t : State} {l : Label} (hf : Forking s) (h : PidZero s.proc)
    (hstep : step s l = some t) : PidZero t.proc := by
  intro i hi
  have hslot := step_slot hf hstep i
  have hfree := h i
  generalize t.proc i = q' at hslot hi
  cases hslot with
  | keep _ hk => exact hk.pid.trans (hfree (hk.unused.1 hi))
  | alloc pid _ => simp at hi
  | free pid st _ => rfl
  | run _ _ => simp at hi
  | kill _ =>
      have hstate : (s.proc i).state = .UNUSED := by
        simp only [Proc.kill] at hi
        split at hi
        · simp at hi
        · exact hi
      exact hfree hstate
  | setkilled _ hr => simp [hr] at hi

theorem Unmarked.step {s t : State} {l : Label} (hf : Forking s) (h : Unmarked s.proc)
    (hok : ¬ HitsUnused s l) (hstep : step s l = some t) : Unmarked t.proc := by
  intro i hi
  have hslot := step_slot hf hstep i
  have hfree := h i
  generalize t.proc i = q' at hslot hi
  cases hslot with
  | keep _ hk => exact hk.killed.trans (hfree (hk.unused.1 hi))
  | alloc pid _ => simp at hi
  | free pid st _ => rfl
  | run _ _ => simp at hi
  | kill hkill =>
      have hstate : (s.proc i).state = .UNUSED := by
        simp only [Proc.kill] at hi
        split at hi
        · simp at hi
        · exact hi
      exact absurd ⟨i, hkill, hstate⟩ hok
  | setkilled _ hr => simp [hr] at hi

theorem forking_boot : Forking boot := by
  refine ⟨fun p j h => ?_, fun p q j h => ?_⟩
  · cases h
  · cases h

theorem pidZero_boot : PidZero boot.proc := by
  intro i hi
  by_cases h0 : i = initproc
  · subst h0
    simp [boot] at hi
  · simp [boot, h0, Proc.zero]

theorem unmarked_boot : Unmarked boot.proc := by
  intro i _
  by_cases h0 : i = initproc
  · subst h0
    simp [boot, Proc.zero]
  · simp [boot, h0, Proc.zero]

/-! ## One call of `kkill` -/

/-- The slot that `kkill` finds. -/
def victim (t : Table) (pid : BitVec 32) : Option (Fin NPROC) :=
  (List.finRange NPROC).find? fun i => (t i).pid = pid

theorem kkill_eq (t : Table) (pid : BitVec 32) :
    kkill t pid = match victim t pid with
      | some p => (Function.update t p (t p).kill, 0)
      | none => (t, -1) := by
  unfold kkill victim
  generalize List.finRange NPROC = l
  induction l with
  | nil => rfl
  | cons p l ih =>
      unfold kkillLoop
      by_cases hp : (t p).pid = pid
      · simp [hp]
      · rw [if_neg hp, ih]
        simp [hp]

/-- What a kill is to do: it finds a process with that pid if there is one, and then it changes the
    `killed` flag of one such process, and its state if it sleeps; otherwise it changes nothing. -/
def KillLaw (t : Table) (pid : BitVec 32) : Prop :=
  ((kkill t pid).2 = 0 ↔ ∃ i, (t i).state ≠ .UNUSED ∧ (t i).pid = pid) ∧
  ((kkill t pid).2 = 0 → ∃ i, (t i).state ≠ .UNUSED ∧ (t i).pid = pid ∧
    (kkill t pid).1 i = (t i).kill ∧ ∀ j, j ≠ i → (kkill t pid).1 j = t j) ∧
  ((kkill t pid).2 ≠ 0 → (kkill t pid).2 = -1 ∧ (kkill t pid).1 = t)

/-- The pid is not 0, or the first slot with pid 0, if there is one, is in use. -/
def NamesProcess (t : Table) (pid : BitVec 32) : Prop :=
  pid ≠ 0 ∨ ∀ i, (t i).pid = 0 → (∀ j, j < i → (t j).pid ≠ 0) → (t i).state ≠ .UNUSED

theorem victim_eq_none {t : Table} {pid : BitVec 32} (h : victim t pid = none) (i : Fin NPROC) :
    (t i).pid ≠ pid := by
  have hno := List.find?_eq_none.1 h i (List.mem_finRange i)
  simpa using hno

theorem victim_eq_some {t : Table} {pid : BitVec 32} {i : Fin NPROC} (h : victim t pid = some i) :
    (t i).pid = pid ∧ ∀ j, j < i → (t j).pid ≠ pid := by
  obtain ⟨hi, before, after, hsplit, hbefore⟩ := List.find?_eq_some_iff_append.1 h
  refine ⟨by simpa using hi, fun j hj => ?_⟩
  have hmem : j ∈ before ++ i :: after := by
    rw [← hsplit]
    exact List.mem_finRange j
  have hsorted : (before ++ i :: after).Pairwise (· < ·) := by
    rw [← hsplit]
    exact List.pairwise_lt_finRange NPROC
  rcases List.mem_append.1 hmem with hb | ha
  · simpa using hbefore j hb
  · rcases List.mem_cons.1 ha with rfl | ha
    · exact absurd hj (lt_irrefl _)
    · have hlt := (List.pairwise_cons.1 (List.pairwise_append.1 hsorted).2.1).1 j ha
      exact absurd (lt_trans hj hlt) (lt_irrefl _)

theorem killLaw_of_namesProcess {t : Table} (hz : PidZero t) {pid : BitVec 32}
    (h : NamesProcess t pid) : KillLaw t pid := by
  unfold KillLaw
  rw [kkill_eq]
  cases hv : victim t pid with
  | none =>
      have hno := victim_eq_none hv
      refine ⟨⟨fun h0 => ?_, ?_⟩, fun h0 => ?_, fun _ => ⟨rfl, rfl⟩⟩
      · simp at h0
      · rintro ⟨i, -, hi⟩
        exact absurd hi (hno i)
      · simp at h0
  | some p =>
      obtain ⟨hp, hfirst⟩ := victim_eq_some hv
      have hused : (t p).state ≠ .UNUSED := by
        rcases h with hne | hfirst0
        · intro hu
          exact hne (hp.symm.trans (hz p hu))
        · by_cases h0 : pid = 0
          · rw [h0] at hp hfirst
            exact hfirst0 p hp hfirst
          · intro hu
            exact h0 (hp.symm.trans (hz p hu))
      refine ⟨⟨fun _ => ⟨p, hused, hp⟩, fun _ => rfl⟩, fun _ => ⟨p, hused, hp, ?_, fun j hj => ?_⟩, ?_⟩
      · simp
      · simp [hj]
      · simp

theorem killLaw_iff {t : Table} (hz : PidZero t) (hm : Unmarked t) (pid : BitVec 32) :
    KillLaw t pid ↔ NamesProcess t pid := by
  refine ⟨fun h => ?_, killLaw_of_namesProcess hz⟩
  by_contra hno
  unfold NamesProcess at hno
  push Not at hno
  obtain ⟨rfl, i, hi, hfirst, hu⟩ := hno
  have hv : victim t 0 = some i := by
    cases hv : victim t 0 with
    | none => exact absurd hi (victim_eq_none hv i)
    | some k =>
        obtain ⟨hk, hkfirst⟩ := victim_eq_some hv
        rcases lt_trichotomy k i with hlt | heq | hgt
        · exact absurd hk (hfirst k hlt)
        · rw [heq]
        · exact absurd hi (hkfirst i hgt)
  have hkill : kkill t 0 = (Function.update t i (t i).kill, 0) := by
    rw [kkill_eq, hv]
  obtain ⟨-, hfound, -⟩ := h
  rw [hkill] at hfound
  obtain ⟨j, hj, -, -, hothers⟩ := hfound rfl
  have hij : i ≠ j := fun he => hj (by rw [← he]; exact hu)
  -- the marked slot is the free one
  have hsame := hothers i hij
  simp only [Function.update_self] at hsame
  have hmark := hm i hu
  rw [← hsame] at hmark
  simp [Proc.kill] at hmark

/-! ## Runs -/

/-- A step that finds a slot free, and leaves it in use, leaves it unmarked. -/
theorem born_unmarked {s t : State} {l : Label} (hf : Forking s) (hm : Unmarked s.proc)
    (h : step s l = some t) {i : Fin NPROC} (hs : (s.proc i).state = .UNUSED)
    (ht : (t.proc i).state ≠ .UNUSED) : (t.proc i).killed = false := by
  have hslot := step_slot hf h i
  have hfree := hm i hs
  generalize t.proc i = q' at hslot ht
  cases hslot with
  | keep _ hk => exact absurd (hk.unused.2 hs) ht
  | alloc pid _ => exact hfree
  | free pid st _ => rfl
  | run _ hu => simp [hs] at hu
  | kill _ => simp [Proc.kill, hs] at ht
  | setkilled _ hr => simp [hs] at hr

/-- A slot is marked by a kill that names it, or by itself. -/
theorem marked_by {s t : State} {l : Label} (hf : Forking s) (hok : ¬ HitsUnused s l)
    (h : step s l = some t) {i : Fin NPROC} (hs : (s.proc i).killed = false)
    (ht : (t.proc i).killed = true) :
    (s.proc i).state ≠ .UNUSED ∧ (Kills s l i ∨ l = .setkilled i) := by
  have hslot := step_slot hf h i
  generalize t.proc i = q' at hslot ht
  cases hslot with
  | keep _ hk =>
      rw [hk.killed, hs] at ht
      cases ht
  | alloc pid _ => simp [hs] at ht
  | free pid st _ => simp [freeproc] at ht
  | run _ _ => simp [hs] at ht
  | kill hkill => exact ⟨fun hu => hok ⟨i, hkill, hu⟩, Or.inl hkill⟩
  | setkilled hl hr => exact ⟨by simp [hr], Or.inr hl⟩

/-- **A kill reaches only the process it names.** In every reachable table a `kkill` whose pid
    `NamesProcess` does what a kill is to do. In a run in which no round of `kkill` has matched a
    free slot, that condition is exact; a process starts with `killed` clear; and `killed` is set
    only in a slot in use, by a round of `kkill` with its pid or by its own `setkilled`. -/
theorem kill_reaches_named (s : State) (ls : List Label) (hrun : runSteps step boot ls = some s) :
    (∀ pid, NamesProcess s.proc pid → KillLaw s.proc pid) ∧
    (AllSteps step (fun u l => ¬ HitsUnused u l) boot ls →
      (∀ pid, KillLaw s.proc pid ↔ NamesProcess s.proc pid) ∧
      ∀ l t, step s l = some t → ¬ HitsUnused s l → ∀ i,
        ((s.proc i).state = .UNUSED → (t.proc i).state ≠ .UNUSED → (t.proc i).killed = false) ∧
        ((s.proc i).killed = false → (t.proc i).killed = true →
          (s.proc i).state ≠ .UNUSED ∧ (Kills s l i ∨ l = .setkilled i))) := by
  have hinv : Forking s ∧ PidZero s.proc :=
    runSteps_invariant (I := fun u => Forking u ∧ PidZero u.proc)
      (fun _ _ _ hu ht => ⟨hu.1.step ht, hu.2.step hu.1 ht⟩) ⟨forking_boot, pidZero_boot⟩ hrun
  refine ⟨fun pid hpid => killLaw_of_namesProcess hinv.2 hpid, fun hok => ?_⟩
  have hmarks : Forking s ∧ Unmarked s.proc :=
    runSteps_invariant_of_allSteps (I := fun u => Forking u ∧ Unmarked u.proc)
      (fun _ _ _ hu hl ht => ⟨hu.1.step ht, hu.2.step hu.1 hl ht⟩) ⟨forking_boot, unmarked_boot⟩ hok hrun
  refine ⟨fun pid => killLaw_iff hinv.2 hmarks.2 pid, fun l t ht hl i => ⟨fun hs hu => ?_, fun hs hk => ?_⟩⟩
  · exact born_unmarked hmarks.1 hmarks.2 ht hs hu
  · exact marked_by hmarks.1 hl ht hs hk

/-! ## The failing run -/

/-- `init` kills pid 0, and then forks. -/
def killZero : List Label :=
  [.scheduler 0, .callKill 0 0, .run 0 true, .run 0 true, .callFork 0, .run 0 true, .run 0 true]

/-- No process has pid 0, but its kill returns 0, and the next child starts with `killed` set. -/
theorem kill_zero_marks_child :
    (∃ s, runSteps step boot [.scheduler 0] = some s ∧ (kkill s.proc 0).2 = 0 ∧
      ∀ i, (s.proc i).state = .UNUSED ∨ (s.proc i).pid ≠ 0) ∧
    ∃ s, runSteps step boot killZero = some s ∧ s.pc 0 = .forkParent 1 2 ∧
      (s.proc 1).state = .USED ∧ (s.proc 1).pid = 2 ∧ (s.proc 1).killed = true := by
  refine ⟨⟨(runSteps step boot [.scheduler 0]).get (by decide), (Option.some_get _).symm, ?_⟩,
    (runSteps step boot killZero).get (by decide), (Option.some_get _).symm, ?_⟩
  · decide
  · decide

/-- A kill that names `init`; after it a kill of pid 0 would not do what it is to do. -/
theorem kill_reaches_named_init :
    ∃ s, runSteps step boot [.scheduler 0, .callKill 0 1, .run 0 true] = some s ∧
      (s.proc 0).killed = true ∧ KillLaw s.proc 1 ∧ (KillLaw s.proc 0 ↔ NamesProcess s.proc 0) := by
  let ls : List Label := [.scheduler 0, .callKill 0 1, .run 0 true]
  let s : State := (runSteps step boot ls).get (by decide)
  have hrun : runSteps step boot ls = some s := (Option.some_get _).symm
  have hok : AllSteps step (fun u l => ¬ HitsUnused u l) boot ls := by
    refine ⟨?_, fun u hu => ⟨?_, fun v hv => ⟨?_, fun _ _ => trivial⟩⟩⟩
    · rintro ⟨i, ⟨p, ok, rest, hl, -⟩, -⟩
      cases hl
    · rintro ⟨i, ⟨p, ok, rest, hl, -⟩, -⟩
      cases hl
    · rintro ⟨i, ⟨p, ok, rest, hl, hpc⟩, hi⟩
      cases hl
      cases hu
      cases hv
      have h0 : i = 0 := by
        have hc : Pc.kkill 1 (List.finRange NPROC) = Pc.kkill _ (i :: rest) := hpc
        rw [Pc.kkill.injEq] at hc
        have hhead := congrArg List.head? hc.2
        rw [List.head?_cons, show (List.finRange NPROC).head? = some 0 by decide,
          Option.some.injEq] at hhead
        exact hhead.symm
      subst h0
      revert hi
      decide
  obtain ⟨hlaw, hgood⟩ := kill_reaches_named s ls hrun
  exact ⟨s, hrun, by decide, hlaw 1 (Or.inl (by decide)), (hgood hok).1 0⟩

end Xv6.ProcTable
