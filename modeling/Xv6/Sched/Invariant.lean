import Xv6.Lib.Locks
import Xv6.Sched.Model

set_option autoImplicit false

/-! # Who runs what

What a thread does next tells which locks its CPU has, and in which state its process is while it runs.
Only a CPU that has `p->lock` changes the state of `p`, and a process leaves its CPU, or enters it,
under its lock. So a process whose lock is free and which is not `RUNNING` is on no CPU. -/

namespace Xv6.Sched

open Xv6.Lib
open Xv6.ProcTable (ProcState Chan Proc Table initproc freeproc)

variable {C L : Type}

/-! ## What a frame says -/

def SleepRet.held : SleepRet L → List (Lock L)
  | .code locks => locks.map .cond
  | .kwait _ => []

def WakeRet.held : WakeRet L → List (Lock L)
  | .code locks => locks.map .cond
  | .reparent _ _ => [.cond .waitLock]
  | .kexit _ => [.cond .waitLock]

/-- The lock of the process itself. -/
def own (me : Option Slot) : List (Lock L) := me.toList.map .proc

/-- The locks that the CPU has, with `me` for the process that the thread belongs to. -/
def Frame.holds (me : Option Slot) : Frame L → List (Lock L)
  | .code locks => locks.map .cond
  | .forkret => own me
  | .yield .lock => []
  | .yield _ => own me
  | .sleep .lock _ lk ret => .cond lk :: ret.held
  | .sleep .release _ lk ret => own me ++ .cond lk :: ret.held
  | .sleep .relock _ _ ret => ret.held
  | .sleep _ _ _ ret => own me ++ ret.held
  | .wakeup _ _ ret => ret.held
  | .wakeupAt _ q _ ret => .proc q :: ret.held
  | .kkill _ _ => []
  | .kkillAt _ q _ => [.proc q]
  | .allocproc _ => []
  | .allocprocAt q _ => [.proc q]
  | .kfork .waitLock _ _ => []
  | .kfork .lock _ _ => []
  | .kfork .parent _ _ => [.cond .waitLock]
  | .kfork _ np _ => [.proc np]
  | .kexit .waitLock _ => []
  | .kexit .parent _ => [.cond .waitLock]
  | .kexit .lock _ => [.cond .waitLock]
  | .kexit .zombie _ => own me ++ [.cond .waitLock]
  | .kexit .unlock _ => own me ++ [.cond .waitLock]
  | .kexit _ _ => own me
  | .reparent _ _ => [.cond .waitLock]
  | .kwait _ => []
  | .waitScan _ _ _ => [.cond .waitLock]
  | .waitChild _ q _ => [.proc q, .cond .waitLock]
  | .waitKilled _ => [.cond .waitLock]
  | .waitKilledAt _ => own me ++ [.cond .waitLock]
  | .waitDone _ => [.cond .waitLock]
  | .scheduler _ => []
  | .schedAt p _ => [.proc p]
  | .schedSwtch p _ => [.proc p]
  | .schedBack p _ => [.proc p]
  | .schedDone p _ => [.proc p]

/-- The state of a process that is about to do this. -/
def Frame.state : Frame L → ProcState
  | .yield .sched => .RUNNABLE
  | .sleep .sched _ _ _ => .SLEEPING
  | .kexit .unlock _ => .ZOMBIE
  | .kexit .sched _ => .ZOMBIE
  | _ => .RUNNING

/-- The process that the scheduler has put into `c->proc`. -/
def Frame.target : Frame L → Option Slot
  | .schedSwtch p _ => some p
  | .schedBack p _ => some p
  | _ => none

/-- `yield` is called in interrupts, and the frames of `scheduler` are on its own threads. -/
inductive FrameKind where
  | proc | yield | sched
  deriving DecidableEq

def Frame.kind : Frame L → FrameKind
  | .yield _ => .yield
  | .scheduler _ => .sched
  | .schedAt _ _ => .sched
  | .schedSwtch _ _ => .sched
  | .schedBack _ _ => .sched
  | .schedDone _ _ => .sched
  | _ => .proc

/-- A scheduler with no lock has no process. -/
theorem Frame.target_of_holds {me : Option Slot} {f : Frame L} (hs : f.kind = .sched)
    (h : f.holds me = []) : f.target = none := by
  cases f <;> simp_all [kind, holds, target]

/-- A process on its way out has its lock. -/
theorem Frame.own_of_state {p : Slot} {f : Frame L} (h : f.state ≠ .RUNNING) :
    Lock.proc p ∈ f.holds (some p) := by
  cases f with
  | yield pc => cases pc <;> simp_all [state, holds, own]
  | sleep pc chan lk ret => cases pc <;> simp_all [state, holds, own]
  | kexit pc status => cases pc <;> simp_all [state, holds, own]
  | _ => simp [state] at h

/-! ## The invariant -/

def State.held (s : State C L) (c : C) : List (Lock L) := (s.top c).holds (s.on c)

/-- The process may be resumed. -/
def Parked (p : Slot) (t : Thread L) : Prop :=
  t.top.holds (some p) = [.proc p] ∧ t.top.state = .RUNNING

structure Inv (s : State C L) : Prop where
  locks : Held s.holder s.held s.noff
  /-- Interrupts come when no lock is held. -/
  below : ∀ p f, (s.thread p).intr = some f → (s.thread p).base.holds (some p) = []
  below_sched : ∀ c f, (s.scheduler c).intr = some f → (s.scheduler c).base.holds none = []
  kind : ∀ p, (s.thread p).base.kind = .proc ∧ ∀ f, (s.thread p).intr = some f → f.kind ≠ .sched
  kind_sched : ∀ c, (s.scheduler c).base.kind = .sched ∧
    ∀ f, (s.scheduler c).intr = some f → f.kind ≠ .sched
  switched : ∀ c p, s.on c = some p → ∃ rest, s.scheduler c = ⟨.schedBack p rest, none⟩
  cpu : ∀ c, s.cpuProc c = (s.scheduler c).base.target
  unique : ∀ c c' p, s.cpuProc c = some p → s.cpuProc c' = some p → c = c'
  state : ∀ c p, s.on c = some p → (s.proc p).state = (s.thread p).top.state
  swtch : ∀ c p rest, s.on c = none → (s.scheduler c).base = .schedSwtch p rest →
    (s.proc p).state = .RUNNING
  back : ∀ c p rest, s.on c = none → (s.scheduler c).base = .schedBack p rest →
    (s.proc p).state ≠ .RUNNING
  runs : ∀ p, (s.proc p).state = .RUNNING → ∃ c, s.cpuProc c = some p
  parked : ∀ p, (∀ c, s.on c ≠ some p) → (s.proc p).state ≠ .UNUSED → (s.proc p).state ≠ .ZOMBIE →
    Parked p (s.thread p)

variable {s : State C L} {c : C}

theorem State.current_of_on {p : Slot} (h : s.on c = some p) : s.current c = s.thread p := by
  simp [State.current, h]

theorem State.current_of_none (h : s.on c = none) : s.current c = s.scheduler c := by
  simp [State.current, h]

theorem Inv.cpu_of_on (h : Inv s) {p : Slot} (hp : s.on c = some p) : s.cpuProc c = some p := by
  obtain ⟨rest, hr⟩ := h.switched c p hp
  rw [h.cpu, hr]
  rfl

theorem Inv.on_unique (h : Inv s) {c' : C} {p : Slot} (hp : s.on c = some p) (hp' : s.on c' = some p) :
    c = c' := h.unique c c' p (h.cpu_of_on hp) (h.cpu_of_on hp')

/-- A thread with a frame that is not the scheduler's, and with a process, is that of the process. -/
theorem Inv.on_of_frame (h : Inv s) {p : Slot} (hf : (s.top c).kind ≠ .sched)
    (hp : s.cpuProc c = some p) : s.on c = some p := by
  cases hon : s.on c with
  | some p' =>
      rw [h.cpu_of_on hon] at hp
      exact hp
  | none =>
      exfalso
      rw [State.top, State.current_of_none hon, Thread.top] at hf
      obtain ⟨hbase, -⟩ := h.kind_sched c
      cases hi : (s.scheduler c).intr with
      | none =>
          rw [hi, Option.getD_none] at hf
          exact hf hbase
      | some f =>
          have hnone := Frame.target_of_holds hbase (h.below_sched c f hi)
          rw [h.cpu, hnone] at hp
          cases hp

/-- The frames of the scheduler are on its own thread. -/
theorem Inv.on_of_sched (h : Inv s) (hf : (s.top c).kind = .sched) :
    s.on c = none ∧ (s.scheduler c).intr = none ∧ (s.scheduler c).base = s.top c := by
  cases hon : s.on c with
  | some p =>
      exfalso
      obtain ⟨hbase, hintr⟩ := h.kind p
      rw [State.top, State.current_of_on hon, Thread.top] at hf
      cases hi : (s.thread p).intr with
      | none =>
          rw [hi, Option.getD_none, hbase] at hf
          cases hf
      | some f =>
          rw [hi, Option.getD_some] at hf
          exact hintr f hi hf
  | none =>
      rw [State.top, State.current_of_none hon, Thread.top] at hf ⊢
      cases hi : (s.scheduler c).intr with
      | none => exact ⟨rfl, rfl, rfl⟩
      | some f =>
          rw [hi, Option.getD_some] at hf
          exact absurd hf ((h.kind_sched c).2 f hi)

/-- A process that a CPU has is `RUNNING`, or the CPU has its lock and is about to let it go. -/
theorem Inv.running_or_held (h : Inv s) {q : Slot} (hc : s.cpuProc c = some q) :
    (s.proc q).state = .RUNNING ∨
      .proc q ∈ s.held c ∧ ((s.top c).state ≠ .RUNNING ∨ (s.top c).target ≠ none) := by
  cases hon : s.on c with
  | some p =>
      have hpq : p = q := Option.some.inj ((h.cpu_of_on hon).symm.trans hc)
      subst hpq
      by_cases hrun : (s.proc p).state = .RUNNING
      · exact Or.inl hrun
      · have hne : (s.thread p).top.state ≠ .RUNNING := by
          rw [← h.state c p hon]
          exact hrun
        rw [State.held, hon, State.top, State.current_of_on hon]
        exact Or.inr ⟨Frame.own_of_state hne, Or.inl hne⟩
  | none =>
      obtain ⟨hbase, hintr⟩ := h.kind_sched c
      rw [h.cpu] at hc
      have hi : (s.scheduler c).intr = none := by
        cases hi : (s.scheduler c).intr with
        | none => rfl
        | some f =>
            rw [Frame.target_of_holds hbase (h.below_sched c f hi)] at hc
            cases hc
      have htop : s.top c = (s.scheduler c).base := by
        rw [State.top, State.current_of_none hon, Thread.top, hi, Option.getD_none]
      cases hb : (s.scheduler c).base with
      | schedSwtch p rest =>
          rw [hb] at hc
          rw [← Option.some.inj hc]
          exact Or.inl (h.swtch c p rest hon hb)
      | schedBack p rest =>
          rw [hb] at hc
          rw [State.held, htop, hb, ← Option.some.inj hc]
          exact Or.inr ⟨List.mem_singleton.2 rfl, Or.inr (by simp [Frame.target])⟩
      | _ => simp [hb, Frame.target] at hc

/-- A CPU that has `q->lock`, and is not about to switch away from `q`, knows that no CPU has `q`,
    unless `q` is `RUNNING`. -/
theorem Inv.off_cpu (h : Inv s) {q : Slot} (hlock : .proc q ∈ s.held c)
    (hstate : (s.proc q).state ≠ .RUNNING) (htop : (s.top c).state = .RUNNING)
    (htarget : (s.top c).target = none) (c' : C) : s.cpuProc c' ≠ some q := by
  intro hc'
  rcases h.running_or_held hc' with hrun | ⟨hlock', hgo⟩
  · exact hstate hrun
  · have hcc : c = c' := h.locks.unique hlock hlock'
    subst hcc
    rcases hgo with hne | hne
    · exact hne htop
    · exact hne htarget

/-! ## Effects without a `swtch` -/

@[simp] theorem Next.apply_top (t : Thread L) (f : Frame L) : ((Next.top f).apply t).top = f := by
  unfold Next.apply Thread.top
  cases t.intr <;> rfl

@[simp] theorem Next.apply_push (t : Thread L) (f : Frame L) : ((Next.push f).apply t).top = f := rfl

@[simp] theorem Next.apply_pop (t : Thread L) : ((Next.pop).apply t).top = t.base := rfl

variable {e : Effect L}

/-- What an effect has to do with the state of the processes, for the invariant to be kept. -/
structure Fits (s : State C L) (c : C) (e : Effect L) : Prop where
  push : ∀ f, e.next = .push f → s.held c = [] ∧ (s.current c).intr = none ∧ f.kind ≠ .sched
  pop : e.next = .pop → (s.top c).kind ≠ .sched
  kind : ∀ f, e.next = .top f → f.kind = (s.top c).kind
  back : ∀ p rest, e.next ≠ .top (.schedBack p rest)
  swtch : ∀ p rest, e.next = .top (.schedSwtch p rest) → (e.table s.proc p).state = .RUNNING
  cpu : ∀ p, s.on c = some p → e.cpuProc = none
  cpu_sched : s.on c = none →
    e.cpuProc.getD (s.cpuProc c) = (e.next.apply (s.scheduler c)).base.target
  taken : ∀ p, e.cpuProc = some (some p) → s.cpuProc c = none ∧ ∀ c', s.cpuProc c' ≠ some p
  dropped : e.cpuProc = some none → e.upd = none ∧
    ∀ p, s.cpuProc c = some p → (s.proc p).state ≠ .RUNNING
  mine : ∀ p, s.on c = some p → (e.table s.proc p).state = (e.next.apply (s.thread p)).top.state
  upd : ∀ q v, e.upd = some (q, v) →
    v.state = (s.proc q).state ∨ s.on c = some q ∨ ∀ c', s.cpuProc c' ≠ some q
  runs : ∀ q v, e.upd = some (q, v) → v.state = .RUNNING →
    (s.proc q).state = .RUNNING ∨ e.cpuProc = some (some q)
  wakes : ∀ q v, e.upd = some (q, v) → v.state ≠ .UNUSED → v.state ≠ .ZOMBIE →
    (s.proc q).state ≠ .UNUSED ∧ (s.proc q).state ≠ .ZOMBIE ∨ e.fresh = some q
  fresh : ∀ q, e.fresh = some q → ∀ c', s.cpuProc c' ≠ some q

theorem table_eq_or (e : Effect L) (t : Table) (p : Slot) :
    e.table t p = t p ∨ ∃ v, e.upd = some (p, v) ∧ e.table t p = v := by
  unfold Effect.table
  cases hu : e.upd with
  | none => exact Or.inl rfl
  | some qv =>
      obtain ⟨q, v⟩ := qv
      by_cases hp : p = q
      · subst hp
        exact Or.inr ⟨v, rfl, Function.update_self ..⟩
      · exact Or.inl (Function.update_of_ne hp ..)

/-- A process on another CPU stays in its state. -/
theorem Fits.state_of_ne (hf : Fits s c e) (h : Inv s) {c' : C} (hc : c' ≠ c) {p : Slot}
    (hp : s.cpuProc c' = some p) : (e.table s.proc p).state = (s.proc p).state := by
  rcases table_eq_or e s.proc p with he | ⟨v, hu, he⟩
  · rw [he]
  · rw [he]
    rcases hf.upd p v hu with hs | hon | hoff
    · exact hs
    · exact absurd (h.unique c' c p hp (h.cpu_of_on hon)) hc
    · exact absurd hp (hoff c')

/-- A scheduler comes to a frame with a process by a step to that frame. -/
theorem Fits.next_of_target (hf : Fits s c e) (h : Inv s) (hon : s.on c = none) {f : Frame L}
    (hb : (e.next.apply (s.scheduler c)).base = f) (ht : f.target ≠ none) : e.next = .top f := by
  obtain ⟨hbase, hintr⟩ := h.kind_sched c
  have hfree : (s.scheduler c).base.holds none = [] → (s.scheduler c).base ≠ f := by
    intro hnone he
    rw [← he, Frame.target_of_holds hbase hnone] at ht
    exact ht rfl
  cases hn : e.next with
  | top g =>
      rw [hn] at hb
      cases hi : (s.scheduler c).intr with
      | none =>
          simp only [Next.apply, hi, Option.isSome_none, Bool.false_eq_true, if_false] at hb
          rw [hb]
      | some g' =>
          simp only [Next.apply, hi, Option.isSome_some, if_true] at hb
          exact absurd hb (hfree (h.below_sched c g' hi))
  | push g =>
      rw [hn] at hb
      obtain ⟨hheld, hi, -⟩ := hf.push g hn
      rw [State.held, hon, State.top, State.current_of_none hon, Thread.top] at hheld
      rw [State.current_of_none hon] at hi
      rw [hi, Option.getD_none] at hheld
      exact absurd hb (hfree hheld)
  | pop =>
      rw [hn] at hb
      have hs := hf.pop hn
      rw [State.top, State.current_of_none hon, Thread.top] at hs
      cases hi : (s.scheduler c).intr with
      | none =>
          rw [hi, Option.getD_none] at hs
          exact absurd hbase hs
      | some g => exact absurd hb (hfree (h.below_sched c g hi))

/-- The interrupted frame has no lock. -/
theorem below_apply {t : Thread L} {me : Option Slot} {n : Next L}
    (hbelow : ∀ f, t.intr = some f → t.base.holds me = [])
    (hpush : ∀ f, n = .push f → t.top.holds me = [] ∧ t.intr = none) :
    ∀ f, (n.apply t).intr = some f → (n.apply t).base.holds me = [] := by
  intro f hi
  cases n with
  | top g =>
      cases hti : t.intr with
      | none => simp [Next.apply, hti] at hi
      | some g' =>
          simp only [Next.apply, hti, Option.isSome_some, if_true]
          exact hbelow g' hti
  | push g =>
      obtain ⟨hheld, hnone⟩ := hpush g rfl
      rw [Thread.top, hnone, Option.getD_none] at hheld
      exact hheld
  | pop => cases hi

theorem kind_apply {t : Thread L} {k : FrameKind} {n : Next L}
    (hkind : t.base.kind = k ∧ ∀ f, t.intr = some f → f.kind ≠ .sched)
    (htop : ∀ f, n = .top f → f.kind = t.top.kind) (hpush : ∀ f, n = .push f → f.kind ≠ .sched) :
    (n.apply t).base.kind = k ∧ ∀ f, (n.apply t).intr = some f → f.kind ≠ .sched := by
  cases n with
  | top g =>
      have hg := htop g rfl
      cases hti : t.intr with
      | none =>
          rw [Thread.top, hti, Option.getD_none, hkind.1] at hg
          simp only [Next.apply, hti, Option.isSome_none, Bool.false_eq_true, if_false]
          exact ⟨hg, fun f hi => absurd hi (by simp)⟩
      | some g' =>
          rw [Thread.top, hti, Option.getD_some] at hg
          simp only [Next.apply, hti, Option.isSome_some, if_true]
          refine ⟨hkind.1, fun f hi => ?_⟩
          rw [← Option.some.inj hi, hg]
          exact hkind.2 g' hti
  | push g =>
      refine ⟨hkind.1, fun f hi => ?_⟩
      rw [← Option.some.inj hi]
      exact hpush g rfl
  | pop => exact ⟨hkind.1, fun f hi => by cases hi⟩

variable [DecidableEq C]

theorem commit_current (s : State C L) (c : C) (e : Effect L) :
    (s.commit c e).current c = e.next.apply (s.current c) := by
  unfold State.current
  cases hon : s.on c with
  | some p => simp [State.commit, hon]
  | none => simp [State.commit, hon]

/-- The other CPUs do not notice, unless a thread that they execute is made anew. -/
theorem commit_current_of_ne (h : Inv s) (hfresh : ∀ q, e.fresh = some q → ∀ c', s.cpuProc c' ≠ some q)
    {c' : C} (hc : c' ≠ c) : (s.commit c e).current c' = s.current c' := by
  unfold State.current
  cases hon : s.on c' with
  | some p =>
      have hne : s.on c ≠ some p := fun hp => hc (h.on_unique hon hp)
      have hold : e.fresh ≠ some p := fun hf => hfresh p hf c' (h.cpu_of_on hon)
      simp [State.commit, hon, hne, hold]
  | none => simp [State.commit, hon, hc]

theorem commit_scheduler_of_ne {c' : C} (hc : c' ≠ c) :
    (s.commit c e).scheduler c' = s.scheduler c' := by
  simp [State.commit, hc]

theorem commit_scheduler_self : (s.commit c e).scheduler c =
    if s.on c = none then e.next.apply (s.scheduler c) else s.scheduler c := by
  simp [State.commit]

theorem commit_thread (p : Slot) : (s.commit c e).thread p =
    if s.on c = some p then e.next.apply (s.thread p)
    else if e.fresh = some p then ⟨.forkret, none⟩ else s.thread p := rfl

/-! ## After an effect that does not switch -/

section Commit

variable (h : Inv s) (hf : Fits s c e)

include h hf

theorem Inv.commit_below : ∀ p f, ((s.commit c e).thread p).intr = some f →
    ((s.commit c e).thread p).base.holds (some p) = [] := by
  intro p f hi
  simp only [commit_thread] at hi ⊢
  by_cases hon : s.on c = some p
  · rw [if_pos hon] at hi ⊢
    refine below_apply (h.below p) (fun g hg => ?_) f hi
    obtain ⟨hheld, hnone, -⟩ := hf.push g hg
    rw [State.held, hon, State.top, State.current_of_on hon] at hheld
    rw [State.current_of_on hon] at hnone
    exact ⟨hheld, hnone⟩
  · rw [if_neg hon] at hi ⊢
    by_cases hfresh : e.fresh = some p
    · rw [if_pos hfresh] at hi
      cases hi
    · rw [if_neg hfresh] at hi ⊢
      exact h.below p f hi

theorem Inv.commit_below_sched : ∀ c' f, ((s.commit c e).scheduler c').intr = some f →
    ((s.commit c e).scheduler c').base.holds none = [] := by
  intro c' f hi
  by_cases hc : c' = c
  · subst hc
    simp only [commit_scheduler_self] at hi ⊢
    by_cases hon : s.on c' = none
    · rw [if_pos hon] at hi ⊢
      refine below_apply (h.below_sched c') (fun g hg => ?_) f hi
      obtain ⟨hheld, hnone, -⟩ := hf.push g hg
      rw [State.held, hon, State.top, State.current_of_none hon] at hheld
      rw [State.current_of_none hon] at hnone
      exact ⟨hheld, hnone⟩
    · rw [if_neg hon] at hi ⊢
      exact h.below_sched c' f hi
  · simp only [commit_scheduler_of_ne hc] at hi ⊢
    exact h.below_sched c' f hi

theorem Inv.commit_kind : ∀ p, ((s.commit c e).thread p).base.kind = .proc ∧
    ∀ f, ((s.commit c e).thread p).intr = some f → f.kind ≠ .sched := by
  intro p
  simp only [commit_thread]
  by_cases hon : s.on c = some p
  · rw [if_pos hon]
    refine kind_apply (h.kind p) (fun f hn => ?_) fun f hn => (hf.push f hn).2.2
    rw [hf.kind f hn, State.top, State.current_of_on hon]
  · rw [if_neg hon]
    by_cases hfresh : e.fresh = some p
    · rw [if_pos hfresh]
      exact ⟨rfl, fun f hi => by cases hi⟩
    · rw [if_neg hfresh]
      exact h.kind p

theorem Inv.commit_kind_sched : ∀ c', ((s.commit c e).scheduler c').base.kind = .sched ∧
    ∀ f, ((s.commit c e).scheduler c').intr = some f → f.kind ≠ .sched := by
  intro c'
  by_cases hc : c' = c
  · subst hc
    simp only [commit_scheduler_self]
    by_cases hon : s.on c' = none
    · rw [if_pos hon]
      refine kind_apply (h.kind_sched c') (fun f hn => ?_) fun f hn => (hf.push f hn).2.2
      rw [hf.kind f hn, State.top, State.current_of_none hon]
    · rw [if_neg hon]
      exact h.kind_sched c'
  · simp only [commit_scheduler_of_ne hc]
    exact h.kind_sched c'

omit hf in
theorem Inv.commit_switched : ∀ c' p, (s.commit c e).on c' = some p →
    ∃ rest, (s.commit c e).scheduler c' = ⟨.schedBack p rest, none⟩ := by
  intro c' p hon
  have hon' : s.on c' = some p := hon
  by_cases hc : c' = c
  · subst hc
    simp only [commit_scheduler_self]
    rw [if_neg (by simp [hon'])]
    exact h.switched c' p hon'
  · simp only [commit_scheduler_of_ne hc]
    exact h.switched c' p hon'

theorem Inv.commit_cpu : ∀ c', (s.commit c e).cpuProc c' = ((s.commit c e).scheduler c').base.target := by
  intro c'
  show Function.update s.cpuProc c (e.cpuProc.getD (s.cpuProc c)) c' = _
  by_cases hc : c' = c
  · subst hc
    rw [Function.update_self]
    simp only [commit_scheduler_self]
    cases hon : s.on c' with
    | none =>
        rw [if_pos rfl]
        exact hf.cpu_sched hon
    | some p =>
        rw [if_neg (by simp), hf.cpu p hon, Option.getD_none]
        exact h.cpu c'
  · rw [Function.update_of_ne hc]
    simp only [commit_scheduler_of_ne hc]
    exact h.cpu c'

theorem Inv.commit_unique : ∀ c₁ c₂ p, (s.commit c e).cpuProc c₁ = some p →
    (s.commit c e).cpuProc c₂ = some p → c₁ = c₂ := by
  intro c₁ c₂ p h₁ h₂
  have hold : ∀ c', Function.update s.cpuProc c (e.cpuProc.getD (s.cpuProc c)) c' = some p →
      s.cpuProc c' = some p ∨ c' = c ∧ e.cpuProc = some (some p) := by
    intro c' hc'
    by_cases hc : c' = c
    · subst hc
      rw [Function.update_self] at hc'
      cases he : e.cpuProc with
      | none =>
          rw [he, Option.getD_none] at hc'
          exact Or.inl hc'
      | some o =>
          rw [he, Option.getD_some] at hc'
          exact Or.inr ⟨rfl, by rw [hc']⟩
    · rw [Function.update_of_ne hc] at hc'
      exact Or.inl hc'
  rcases hold c₁ h₁ with ho₁ | ⟨hc₁, ht⟩
  · rcases hold c₂ h₂ with ho₂ | ⟨-, ht⟩
    · exact h.unique c₁ c₂ p ho₁ ho₂
    · exact absurd ho₁ ((hf.taken p ht).2 c₁)
  · rcases hold c₂ h₂ with ho₂ | ⟨hc₂, -⟩
    · exact absurd ho₂ ((hf.taken p ht).2 c₂)
    · rw [hc₁, hc₂]

theorem Inv.commit_state : ∀ c' p, (s.commit c e).on c' = some p →
    ((s.commit c e).proc p).state = ((s.commit c e).thread p).top.state := by
  intro c' p hon
  have hon' : s.on c' = some p := hon
  show (e.table s.proc p).state = _
  by_cases hc : c' = c
  · subst hc
    simp only [commit_thread, if_pos hon']
    exact hf.mine p hon'
  · have hne : s.on c ≠ some p := fun hp => hc (h.on_unique hon' hp)
    have hold : e.fresh ≠ some p := fun hfr => hf.fresh p hfr c' (h.cpu_of_on hon')
    simp only [commit_thread, if_neg hne, if_neg hold]
    rw [hf.state_of_ne h hc (h.cpu_of_on hon')]
    exact h.state c' p hon'

theorem Inv.commit_swtch : ∀ c' p rest, (s.commit c e).on c' = none →
    ((s.commit c e).scheduler c').base = .schedSwtch p rest →
    ((s.commit c e).proc p).state = .RUNNING := by
  intro c' p rest hon hbase
  have hon' : s.on c' = none := hon
  show (e.table s.proc p).state = _
  by_cases hc : c' = c
  · subst hc
    simp only [commit_scheduler_self, if_pos hon'] at hbase
    exact hf.swtch p rest (hf.next_of_target h hon' hbase (by simp [Frame.target]))
  · simp only [commit_scheduler_of_ne hc] at hbase
    rw [hf.state_of_ne h hc (by rw [h.cpu, hbase]; rfl)]
    exact h.swtch c' p rest hon' hbase

theorem Inv.commit_back : ∀ c' p rest, (s.commit c e).on c' = none →
    ((s.commit c e).scheduler c').base = .schedBack p rest →
    ((s.commit c e).proc p).state ≠ .RUNNING := by
  intro c' p rest hon hbase
  have hon' : s.on c' = none := hon
  show (e.table s.proc p).state ≠ _
  by_cases hc : c' = c
  · subst hc
    simp only [commit_scheduler_self, if_pos hon'] at hbase
    exact absurd (hf.next_of_target h hon' hbase (by simp [Frame.target])) (hf.back p rest)
  · simp only [commit_scheduler_of_ne hc] at hbase
    rw [hf.state_of_ne h hc (by rw [h.cpu, hbase]; rfl)]
    exact h.back c' p rest hon' hbase

theorem Inv.commit_runs : ∀ p, ((s.commit c e).proc p).state = .RUNNING →
    ∃ c', (s.commit c e).cpuProc c' = some p := by
  intro p hrun
  have hrun' : (e.table s.proc p).state = .RUNNING := hrun
  show ∃ c', Function.update s.cpuProc c (e.cpuProc.getD (s.cpuProc c)) c' = some p
  have hkept : (s.proc p).state = .RUNNING →
      ∃ c', Function.update s.cpuProc c (e.cpuProc.getD (s.cpuProc c)) c' = some p := by
    intro hp
    obtain ⟨c', hc'⟩ := h.runs p hp
    refine ⟨c', ?_⟩
    by_cases hc : c' = c
    · subst hc
      rw [Function.update_self]
      cases he : e.cpuProc with
      | none => exact hc'
      | some o =>
          cases o with
          | none => exact absurd hp ((hf.dropped he).2 p hc')
          | some p' =>
              rw [(hf.taken p' he).1] at hc'
              cases hc'
    · rw [Function.update_of_ne hc]
      exact hc'
  rcases table_eq_or e s.proc p with he | ⟨v, hu, he⟩
  · rw [he] at hrun'
    exact hkept hrun'
  · rw [he] at hrun'
    rcases hf.runs p v hu hrun' with hp | hcpu
    · exact hkept hp
    · refine ⟨c, ?_⟩
      rw [Function.update_self, hcpu]
      rfl

theorem Inv.commit_parked : ∀ p, (∀ c', (s.commit c e).on c' ≠ some p) →
    ((s.commit c e).proc p).state ≠ .UNUSED → ((s.commit c e).proc p).state ≠ .ZOMBIE →
    Parked p ((s.commit c e).thread p) := by
  intro p hoff hunused hzombie
  have hon : s.on c ≠ some p := hoff c
  have hunused' : (e.table s.proc p).state ≠ .UNUSED := hunused
  have hzombie' : (e.table s.proc p).state ≠ .ZOMBIE := hzombie
  show Parked p ((s.commit c e).thread p)
  rw [commit_thread, if_neg hon]
  by_cases hfresh : e.fresh = some p
  · rw [if_pos hfresh]
    exact ⟨rfl, rfl⟩
  · rw [if_neg hfresh]
    rcases table_eq_or e s.proc p with he | ⟨v, hu, he⟩
    · rw [he] at hunused' hzombie'
      exact h.parked p hoff hunused' hzombie'
    · rw [he] at hunused' hzombie'
      rcases hf.wakes p v hu hunused' hzombie' with ⟨hu', hz'⟩ | hfr
      · exact h.parked p hoff hu' hz'
      · exact absurd hfr hfresh

end Commit

/-- The invariant after such an effect, whatever happens to the locks. -/
theorem Inv.commit (h : Inv s) (hf : Fits s c e) {holder : Lock L → Option C} {noff : C → Nat}
    (hlocks : Held holder (s.commit c e).held noff) :
    Inv { s.commit c e with holder := holder, noff := noff } where
  locks := hlocks
  below := h.commit_below hf
  below_sched := h.commit_below_sched hf
  kind := h.commit_kind hf
  kind_sched := h.commit_kind_sched hf
  switched := h.commit_switched
  cpu := h.commit_cpu hf
  unique := h.commit_unique hf
  state := h.commit_state hf
  swtch := h.commit_swtch hf
  back := h.commit_back hf
  runs := h.commit_runs hf
  parked := h.commit_parked hf

theorem commit_held_self : (s.commit c e).held c =
    (e.next.apply (s.current c)).top.holds (s.on c) := by
  unfold State.held State.top
  rw [commit_current]
  rfl

theorem commit_held_of_ne (h : Inv s) (hf : Fits s c e) {c' : C} (hc : c' ≠ c) :
    (s.commit c e).held c' = s.held c' := by
  unfold State.held State.top
  rw [commit_current_of_ne h hf.fresh hc]
  rfl

theorem Inv.skip (h : Inv s) (hf : Fits s c e)
    (hperm : (s.held c).Perm ((e.next.apply (s.current c)).top.holds (s.on c))) :
    Inv (s.commit c e) := by
  refine h.commit hf (h.locks.perm ?_ fun c' hc => commit_held_of_ne h hf hc)
  rw [commit_held_self]
  exact hperm

/-! ## `swtch` -/

/-- The locks of a CPU that switches stay as they are. -/
theorem held_switch {t : State C L} (h : Inv s) (hholder : t.holder = s.holder)
    (hnoff : t.noff = s.noff) (hself : t.held c = s.held c)
    (hothers : ∀ c', c' ≠ c → t.held c' = s.held c') : Held t.holder t.held t.noff := by
  rw [hholder, hnoff]
  refine h.locks.congr fun c' => ?_
  by_cases hc : c' = c
  · rw [hc, hself]
  · rw [hothers c' hc]

/-- `sched`, once it has passed its checks. -/
theorem Inv.toSched (h : Inv s) {p : Slot} {f : Frame L} (hon : s.on c = some p)
    (hholder : s.holder (.proc p) = some c) (hnoff : s.noff c = 1) (hstate : (s.proc p).state ≠ .RUNNING)
    (hkind : f.kind = (s.top c).kind) (hholds : f.holds (some p) = (s.top c).holds (some p))
    (hrunning : f.state = .RUNNING) :
    Inv { s.commit c (.sched f) with on := Function.update s.on c none } := by
  obtain ⟨rest, hsched⟩ := h.switched c p hon
  -- noff is 1, so that p->lock is the one lock that travels with the switch
  have hheld : s.held c = [.proc p] := by
    have hin := (h.locks.mem c _).1 hholder
    have hlen := h.locks.count c
    rw [hnoff] at hlen
    obtain ⟨lk, hlk⟩ := List.length_eq_one_iff.1 hlen.symm
    rw [hlk] at hin ⊢
    rw [List.mem_singleton.1 hin]
  have htop : (s.top c).holds (some p) = [.proc p] := by
    rw [State.held, hon] at hheld
    exact hheld
  have honly : ∀ p', p' ≠ p → s.on c ≠ some p' := by
    intro p' hne he
    rw [hon] at he
    exact hne (Option.some.inj he).symm
  have hthread : ∀ p', p' ≠ p → (s.commit c (.sched f)).thread p' = s.thread p' := by
    intro p' hne
    rw [commit_thread, if_neg (honly p' hne)]
    rfl
  have hthreadp : (s.commit c (.sched f)).thread p = (Next.top f).apply (s.thread p) := by
    rw [commit_thread, if_pos hon]
    rfl
  have hscheduler : (s.commit c (.sched f)).scheduler = s.scheduler := by
    funext c'
    simp [State.commit, hon]
  have hcpu : (s.commit c (.sched f)).cpuProc = s.cpuProc := Function.update_eq_self ..
  have hproc : (s.commit c (.sched f)).proc = s.proc := rfl
  -- no core but c loses its process
  have honc : ∀ {c' p'}, Function.update s.on c none c' = some p' → c' ≠ c ∧ s.on c' = some p' := by
    intro c' p' hc'
    by_cases hc : c' = c
    · subst hc
      rw [Function.update_self] at hc'
      cases hc'
    · rw [Function.update_of_ne hc] at hc'
      exact ⟨hc, hc'⟩
  constructor
  case locks =>
    refine held_switch (c := c) h rfl rfl ?_ fun c' hc => ?_
    · rw [hheld]
      unfold State.held State.top State.current
      simp only [Function.update_self, hscheduler, hsched]
      rfl
    · unfold State.held State.top State.current
      simp only [Function.update_of_ne hc, hscheduler]
      cases hc' : s.on c' with
      | none => rfl
      | some p' =>
          have hne : p' ≠ p := fun he => hc (h.on_unique (he ▸ hc') hon)
          simp only [hthread p' hne]
  case below =>
    intro p' g hi
    by_cases hp : p' = p
    · subst hp
      simp only [hthreadp] at hi ⊢
      exact below_apply (h.below p') (fun _ hn => by cases hn) g hi
    · simp only [hthread p' hp] at hi ⊢
      exact h.below p' g hi
  case below_sched =>
    intro c' g hi
    simp only [hscheduler] at hi ⊢
    exact h.below_sched c' g hi
  case kind =>
    intro p'
    by_cases hp : p' = p
    · subst hp
      simp only [hthreadp]
      refine kind_apply (h.kind p') (fun g hg => ?_) fun _ hn => by cases hn
      rw [State.top, State.current_of_on hon] at hkind
      cases hg
      exact hkind
    · simp only [hthread p' hp]
      exact h.kind p'
  case kind_sched =>
    intro c'
    simp only [hscheduler]
    exact h.kind_sched c'
  case switched =>
    intro c' p' hc'
    simp only [hscheduler]
    exact h.switched c' p' (honc hc').2
  case cpu =>
    intro c'
    simp only [hcpu, hscheduler]
    exact h.cpu c'
  case unique =>
    intro c₁ c₂ p' h₁ h₂
    simp only [hcpu] at h₁ h₂
    exact h.unique c₁ c₂ p' h₁ h₂
  case state =>
    intro c' p' hc'
    obtain ⟨hc, hon'⟩ := honc hc'
    have hp : p' ≠ p := fun he => hc (h.on_unique (he ▸ hon') hon)
    simp only [hthread p' hp]
    exact h.state c' p' hon'
  case swtch =>
    intro c' p' rest' hc' hbase
    simp only [hscheduler] at hbase
    by_cases hc : c' = c
    · subst hc
      rw [hsched] at hbase
      cases hbase
    · exact h.swtch c' p' rest' ((Function.update_of_ne hc ..).symm.trans hc') hbase
  -- the context switched to is the one that c left in swtch(), which has p RUNNING no more
  case back =>
    intro c' p' rest' hc' hbase
    simp only [hscheduler] at hbase
    by_cases hc : c' = c
    · subst hc
      rw [hsched] at hbase
      cases hbase
      exact hstate
    · exact h.back c' p' rest' ((Function.update_of_ne hc ..).symm.trans hc') hbase
  case runs =>
    intro p' hrun
    simp only [hcpu]
    exact h.runs p' hrun
  case parked =>
    intro p' hoff hunused hzombie
    by_cases hp : p' = p
    · subst hp
      simp only [hthreadp]
      refine ⟨?_, ?_⟩
      · rw [Next.apply_top, hholds, htop]
      · rw [Next.apply_top, hrunning]
    · simp only [hthread p' hp]
      refine h.parked p' (fun c' hc' => ?_) hunused hzombie
      have hne : c' ≠ c := fun hcc => honly p' hp (hcc ▸ hc')
      exact hoff c' ((Function.update_of_ne hne ..).trans hc')

/-- The `swtch` of the scheduler. -/
theorem Inv.toProc (h : Inv s) {p : Slot} {rest : List Slot} (htop : s.top c = .schedSwtch p rest) :
    Inv { s.commit c (schedSwtch p rest) with on := Function.update s.on c (some p) } := by
  obtain ⟨hon, hintr, hbase⟩ := h.on_of_sched (by rw [htop]; rfl)
  rw [htop] at hbase
  have hcpuc : s.cpuProc c = some p := by
    rw [h.cpu, hbase]
    rfl
  have hrun := h.swtch c p rest hon hbase
  have hoff : ∀ c', s.on c' ≠ some p := by
    intro c' hc'
    have hcc := h.unique c' c p (h.cpu_of_on hc') hcpuc
    rw [hcc, hon] at hc'
    cases hc'
  obtain ⟨hholds, hstate⟩ := h.parked p hoff (by rw [hrun]; decide) (by rw [hrun]; decide)
  have hthread : (s.commit c (schedSwtch p rest)).thread = s.thread := by
    funext p'
    rw [commit_thread, if_neg (by rw [hon]; simp)]
    rfl
  have hsched : (s.commit c (schedSwtch p rest)).scheduler c = ⟨.schedBack p rest, none⟩ := by
    rw [commit_scheduler_self, if_pos hon]
    show Next.apply _ (.top _) = _
    unfold Next.apply
    rw [hintr]
    simp only [Option.isSome_none, Bool.false_eq_true, if_false]
  have hscheds : ∀ c', c' ≠ c → (s.commit c (schedSwtch p rest)).scheduler c' = s.scheduler c' :=
    fun c' hc => commit_scheduler_of_ne hc
  have hcpu : (s.commit c (schedSwtch p rest)).cpuProc = s.cpuProc := Function.update_eq_self ..
  have honc : ∀ {c' p'}, Function.update s.on c (some p) c' = some p' →
      c' = c ∧ p' = p ∨ c' ≠ c ∧ s.on c' = some p' := by
    intro c' p' hc'
    by_cases hc : c' = c
    · subst hc
      rw [Function.update_self] at hc'
      exact Or.inl ⟨rfl, (Option.some.inj hc').symm⟩
    · rw [Function.update_of_ne hc] at hc'
      exact Or.inr ⟨hc, hc'⟩
  constructor
  case locks =>
    refine held_switch (c := c) h rfl rfl ?_ fun c' hc => ?_
    · have hheld : s.held c = [.proc p] := by
        rw [State.held, htop]
        rfl
      rw [hheld, ← hholds]
      unfold State.held State.top State.current
      simp only [Function.update_self, hthread]
    · unfold State.held State.top State.current
      simp only [Function.update_of_ne hc, hthread, hscheds c' hc]
  case below =>
    intro p' g hi
    simp only [hthread] at hi ⊢
    exact h.below p' g hi
  case below_sched =>
    intro c' g hi
    by_cases hc : c' = c
    · subst hc
      simp only [hsched] at hi
      cases hi
    · simp only [hscheds c' hc] at hi ⊢
      exact h.below_sched c' g hi
  case kind =>
    intro p'
    simp only [hthread]
    exact h.kind p'
  case kind_sched =>
    intro c'
    by_cases hc : c' = c
    · subst hc
      simp only [hsched]
      exact ⟨rfl, fun g hg => absurd hg (by simp)⟩
    · simp only [hscheds c' hc]
      exact h.kind_sched c'
  case switched =>
    intro c' p' hc'
    rcases honc hc' with ⟨rfl, rfl⟩ | ⟨hc, hon'⟩
    · exact ⟨rest, hsched⟩
    · simp only [hscheds c' hc]
      exact h.switched c' p' hon'
  case cpu =>
    intro c'
    simp only [hcpu]
    by_cases hc : c' = c
    · subst hc
      simp only [hsched]
      exact hcpuc
    · simp only [hscheds c' hc]
      exact h.cpu c'
  case unique =>
    intro c₁ c₂ p' h₁ h₂
    simp only [hcpu] at h₁ h₂
    exact h.unique c₁ c₂ p' h₁ h₂
  case state =>
    intro c' p' hc'
    simp only [hthread]
    rcases honc hc' with ⟨rfl, rfl⟩ | ⟨-, hon'⟩
    · rw [hstate]
      exact hrun
    · exact h.state c' p' hon'
  case swtch =>
    intro c' p' rest' hc' hb
    by_cases hc : c' = c
    · subst hc
      exact absurd ((Function.update_self ..).symm.trans hc') (by simp)
    · simp only [hscheds c' hc] at hb
      exact h.swtch c' p' rest' ((Function.update_of_ne hc ..).symm.trans hc') hb
  case back =>
    intro c' p' rest' hc' hb
    by_cases hc : c' = c
    · subst hc
      exact absurd ((Function.update_self ..).symm.trans hc') (by simp)
    · simp only [hscheds c' hc] at hb
      exact h.back c' p' rest' ((Function.update_of_ne hc ..).symm.trans hc') hb
  case runs =>
    intro p' hrun'
    simp only [hcpu]
    exact h.runs p' hrun'
  case parked =>
    intro p' hoff' hunused hzombie
    simp only [hthread]
    refine h.parked p' (fun c' hc' => ?_) hunused hzombie
    have hne : c' ≠ c := by
      rintro rfl
      rw [hon] at hc'
      cases hc'
    exact hoff' c' ((Function.update_of_ne hne ..).trans hc')

end Xv6.Sched
