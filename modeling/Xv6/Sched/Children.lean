import Xv6.Sched.Deeds

set_option autoImplicit false

/-! # Children of the dead

Whoever has `wait_lock` knows about children what its frame says. `exit` gives all children away before
its process is a zombie, and wakes the parent up after it took `wait_lock`, so no parent waits for a
child that is a zombie once `wait_lock` is free. -/

namespace Xv6.Sched

open Xv6.Lib
open Xv6.ProcTable (ProcState Chan Proc Table initproc freeproc)
open Effect

variable {C L : Type}

/-- Free, not ready yet, or dead. -/
def Lifeless (u : Proc) : Prop := u.state = .UNUSED ∨ u.state = .USED ∨ u.state = .ZOMBIE

theorem Mild.lifeless {u v : Proc} (h : Mild u v) : Lifeless v ↔ Lifeless u :=
  or_congr h.unused (or_congr h.used h.zombie)

/-- `p` waits for a child in `kwait`, and has let `wait_lock` go. -/
def Waiting (s : State C L) (p : Slot) : Prop :=
  (∃ addr, (s.thread p).top = .sleep .switch (.proc p) .waitLock (.kwait addr)) ∨
    (s.proc p).state = .SLEEPING ∧
      ∃ pc addr, (s.thread p).top = .sleep pc (.proc p) .waitLock (.kwait addr)

/-- The children of `p` are among these. -/
def Within (s : State C L) (p : Slot) (rest : List Slot) : Prop :=
  ∀ q, (s.proc q).parent = some p → q ∈ rest

/-- Those that are zombies are. -/
def Zombies (s : State C L) (p : Slot) (rest : List Slot) : Prop :=
  ∀ q, (s.proc q).parent = some p → (s.proc q).state = .ZOMBIE → q ∈ rest

def WakeRet.Knows (s : State C L) (p : Slot) (chan : Option Chan) : WakeRet L → Prop
  | .code _ => True
  | .reparent _ rest => Within s p rest ∧ chan = some (.proc initproc)
  | .kexit _ => Within s p [] ∧ chan = (s.proc p).parent.map .proc

/-- What `p` knows at a frame with `wait_lock`. -/
def Knows (s : State C L) (p : Slot) : Frame L → Prop
  | .wakeup chan _ ret => ret.Knows s p chan
  | .wakeupAt chan _ _ ret => ret.Knows s p chan
  | .reparent _ rest => Within s p rest
  | .kexit .parent _ => Within s p []
  | .kexit .lock _ => Within s p [] ∧ ∀ r, (s.proc p).parent = some r → ¬ Waiting s r
  | .kexit .zombie _ => Within s p [] ∧ ∀ r, (s.proc p).parent = some r → ¬ Waiting s r
  | .waitScan _ rest _ => Zombies s p rest
  | .waitChild _ q rest => (s.proc q).parent = some p ∧ Zombies s p (q :: rest)
  | .waitKilled _ => Zombies s p []
  | .waitKilledAt _ => Zombies s p []
  | .sleep .lock _ .waitLock (.kwait _) => Zombies s p []
  | .sleep .release _ .waitLock (.kwait _) => Zombies s p []
  | _ => True

structure Kids (s : State C L) : Prop where
  forker : ∀ p pc np pid, (s.thread p).base = .kfork pc np pid → ¬ Lifeless (s.proc p)
  used : ∀ q, (s.proc q).state = .USED →
    (s.thread q).base = .forkret ∧ ∃ p pc pid, (s.thread p).base = .kfork pc q pid
  zombie : ∀ q, (s.proc q).state = .ZOMBIE → (s.thread q).base.exit = some (s.proc q).xstate
  childless : ∀ p, Lifeless (s.proc p) → Within s p []
  init : ¬ Lifeless (s.proc initproc) ∧ (s.thread initproc).base.exit = none
  knows : ∀ c p, s.on c = some p → Knows s p (s.top c)
  /-- A parent of a zombie that waits is about to be woken up. -/
  waiting : ∀ p q, Waiting s p → (s.proc q).parent = some p → (s.proc q).state = .ZOMBIE →
    ∃ c rest, (s.top c).scan = some (some (.proc p), rest) ∧ s.holder (.cond .waitLock) = some c

variable {s t : State C L} {c : C} {e : Effect L} {l : Label C L} {p q : Slot} {f g : Frame L}

theorem Waiting.pending (h : Waiting s p) : Pending s p (.proc p) .waitLock := by
  rcases h with ⟨addr, htop⟩ | ⟨hstate, pc, addr, htop⟩
  · exact Or.inl ⟨_, htop⟩
  · exact Or.inr ⟨hstate, pc, _, htop⟩

/-! ## What a frame says -/

/-- Without `wait_lock` nothing is known. -/
theorem knows_of_free (h : .cond .waitLock ∉ f.holds (some p)) : Knows s p f := by
  cases f with
  | sleep pc chan lk ret =>
      cases lk with
      | other l => cases pc <;> trivial
      | waitLock =>
          cases ret with
          | code locks => cases pc <;> trivial
          | kwait addr => cases pc <;> first | trivial | exact absurd (by simp [Frame.holds, SleepRet.held]) h
  | wakeup chan rest ret =>
      cases ret with
      | code locks => trivial
      | reparent status rest => exact absurd (by simp [Frame.holds, WakeRet.held]) h
      | kexit status => exact absurd (by simp [Frame.holds, WakeRet.held]) h
  | wakeupAt chan q rest ret =>
      cases ret with
      | code locks => trivial
      | reparent status rest => exact absurd (by simp [Frame.holds, WakeRet.held]) h
      | kexit status => exact absurd (by simp [Frame.holds, WakeRet.held]) h
  | kexit pc status => cases pc <;> first | trivial | exact absurd (by simp [Frame.holds]) h
  | reparent status rest => exact absurd (by simp [Frame.holds]) h
  | waitScan addr rest havekids => exact absurd (by simp [Frame.holds]) h
  | waitChild addr q rest => exact absurd (by simp [Frame.holds]) h
  | waitKilled addr => exact absurd (by simp [Frame.holds]) h
  | waitKilledAt addr => exact absurd (by simp [Frame.holds]) h
  | _ => trivial

section Mono

variable (hparent : ∀ q, (t.proc q).parent = (s.proc q).parent)

include hparent

theorem Within.congr {rest : List Slot} (h : Within s p rest) : Within t p rest :=
  fun q hq => h q ((hparent q).symm.trans hq)

theorem WakeRet.Knows.congr {chan : Option Chan} {ret : WakeRet L} (h : ret.Knows s p chan) :
    ret.Knows t p chan := by
  cases ret with
  | code locks => trivial
  | reparent status rest => exact ⟨h.1.congr hparent, h.2⟩
  | kexit status =>
      refine ⟨h.1.congr hparent, h.2.trans ?_⟩
      rw [hparent]

variable (hzombie : ∀ q, (t.proc q).state = .ZOMBIE → (s.proc q).state = .ZOMBIE)

include hzombie

theorem Zombies.mono {rest : List Slot} (h : Zombies s p rest) : Zombies t p rest :=
  fun q hq hz => h q ((hparent q).symm.trans hq) (hzombie q hz)

/-- What is known stays true while others do not touch families. -/
theorem Knows.mono (hwaiting : ∀ r, Waiting t r → Waiting s r) (h : Knows s p f) : Knows t p f := by
  have hparted : (Within s p [] ∧ ∀ r, (s.proc p).parent = some r → ¬ Waiting s r) →
      Within t p [] ∧ ∀ r, (t.proc p).parent = some r → ¬ Waiting t r := by
    rintro ⟨hnone, hawake⟩
    exact ⟨hnone.congr hparent, fun r hr hw => hawake r ((hparent p).symm.trans hr) (hwaiting r hw)⟩
  cases f with
  | wakeup chan rest ret => exact WakeRet.Knows.congr hparent h
  | wakeupAt chan q rest ret => exact WakeRet.Knows.congr hparent h
  | reparent status rest => exact Within.congr hparent h
  | kexit pc status =>
      cases pc with
      | parent => exact Within.congr hparent h
      | lock => exact hparted h
      | zombie => exact hparted h
      | _ => trivial
  | waitScan addr rest havekids => exact Zombies.mono hparent hzombie h
  | waitChild addr q rest => exact ⟨(hparent q).trans h.1, Zombies.mono hparent hzombie h.2⟩
  | waitKilled addr => exact Zombies.mono hparent hzombie h
  | waitKilledAt addr => exact Zombies.mono hparent hzombie h
  | sleep pc chan lk ret =>
      cases lk with
      | other l => cases pc <;> trivial
      | waitLock =>
          cases ret with
          | code locks => cases pc <;> trivial
          | kwait addr => cases pc <;> first | trivial | exact Zombies.mono hparent hzombie h
  | _ => trivial

end Mono

/-! ## Threads -/

section Threads

variable [DecidableEq C]

/-- A thread goes on at its base, or keeps it, or is made anew. -/
theorem Executed.base_cases (hex : Executed s c e t) (p : Slot) :
    (t.thread p).base = (s.thread p).base ∨
    (∃ g, s.on c = some p ∧ e.next = .top g ∧ s.thread p = ⟨s.top c, none⟩ ∧ (t.thread p).base = g) ∨
    e.fresh = some p ∧ t.thread p = ⟨.forkret, none⟩ := by
  rw [hex.thread, commit_thread]
  by_cases hon : s.on c = some p
  · rw [if_pos hon]
    rcases apply_base (s.thread p) e.next with hsame | ⟨g, hn, hintr, hg⟩
    · exact Or.inl hsame
    · refine Or.inr (Or.inl ⟨g, hon, hn, ?_, hg⟩)
      rw [State.top, State.current_of_on hon, Thread.top, hintr]
      exact congrArg (Thread.mk (s.thread p).base) hintr
  · rw [if_neg hon]
    by_cases hfresh : e.fresh = some p
    · rw [if_pos hfresh]
      exact Or.inr (Or.inr ⟨hfresh, rfl⟩)
    · rw [if_neg hfresh]
      exact Or.inl rfl

theorem exit_of_fn (h : f.fn ∉ [Fn.wakeup, .wakeupAt, .kexit, .reparent]) : f.exit = none := by
  cases f with
  | wakeup chan rest ret => exact absurd (by simp [Frame.fn]) h
  | wakeupAt chan q rest ret => exact absurd (by simp [Frame.fn]) h
  | kexit pc status => exact absurd (by simp [Frame.fn]) h
  | reparent status rest => exact absurd (by simp [Frame.fn]) h
  | _ => rfl

omit [DecidableEq C] in
/-- Nobody leaves `exit`. -/
theorem row_exit {ok : Bool} (hr : row s c ok f = some e) (hn : e.next = .top g) : g.exit = f.exit := by
  have hfn := row_fn hr hn
  cases f with
  | wakeup chan rest ret =>
      obtain rfl := Option.some.inj hr
      cases rest with
      | nil =>
          cases hn
          cases ret <;> rfl
      | cons q rest =>
          rw [wakeup] at hn
          split at hn <;> cases hn <;> rfl
  | wakeupAt chan q rest ret =>
      obtain rfl := Option.some.inj hr
      unfold wakeupAt at hn
      split at hn <;> cases hn <;> rfl
  | kexit pc status =>
      obtain ⟨p, -, hr⟩ := Option.bind_eq_some_iff.1 hr
      cases pc with
      | done => cases hr
      | _ =>
          obtain rfl := Option.some.inj hr
          cases hn
          rfl
  | reparent status rest =>
      obtain ⟨p, -, rfl⟩ := Option.map_eq_some_iff.1 hr
      cases rest with
      | nil =>
          cases hn
          rfl
      | cons pp rest =>
          rw [reparent] at hn
          split at hn <;> cases hn <;> rfl
  | code locks => cases hr
  | _ =>
      refine (exit_of_fn fun hin => ?_).trans (exit_of_fn (by simp [Frame.fn])).symm
      generalize g.fn = k at hfn hin
      cases k <;> simp_all [Frame.fn, Fn.next]

end Threads

/-! ## Who waits, and for whom -/

/-- The frame of a CPU without `wait_lock`. -/
theorem Inv.lock_free (h : Inv s) (hfree : s.holder (.cond .waitLock) ≠ some c) (hon : s.on c = some p)
    (htop : s.top c = f) : .cond .waitLock ∉ f.holds (some p) := by
  intro hin
  refine hfree ((h.locks.mem _ _).2 ?_)
  rw [State.held, htop, hon]
  exact hin

section Others

variable [DecidableEq C] [DecidableEq L] (h : Inv s) (he : effect s l = some e)
  (hex : Executed s l.cpu e t)

include h he hex

/-- Who waits has waited before, or has just let `wait_lock` go. -/
theorem Sleepers.waiting_step (hs : Sleepers s) (hw : Waiting t p) : Waiting s p ∨
    ∃ addr, s.on l.cpu = some p ∧ s.top l.cpu = .sleep .release (.proc p) .waitLock (.kwait addr) ∧
      e.op = .release (.cond .waitLock) := by
  rcases hw with ⟨addr, htop⟩ | ⟨hstate, pc, addr, htop⟩
  · rcases h.switch_step he hex htop with ⟨hold, -⟩ | ⟨hon, hprev, hop⟩
    · exact Or.inl (Or.inl ⟨addr, hold⟩)
    · exact Or.inr ⟨addr, hon, hprev, hop⟩
  · rcases h.sleeping_step he hex hstate with ⟨hold, -⟩ | ⟨chan, lk, ret, -, hprev, hnow, -⟩
    · obtain ⟨pc₀, chan₀, lk₀, ret₀, hprev, -⟩ := hs.asleep p hold
      obtain ⟨pc₁, hnow⟩ := h.asleep_thread he hex hold hprev
      rw [htop] at hnow
      cases hnow
      exact Or.inl (Or.inr ⟨hold, pc₀, _, hprev⟩)
    · rw [htop] at hnow
      cases hnow
      exact Or.inl (Or.inl ⟨_, hprev⟩)

/-- Without `wait_lock` a CPU gives nobody another parent, and makes no zombies. -/
theorem Calls.free_step (hcalls : Calls s) (hfree : s.holder (.cond .waitLock) ≠ some l.cpu) (q : Slot) :
    (t.proc q).parent = (s.proc q).parent ∧
      ((t.proc q).state = .ZOMBIE → (s.proc q).state = .ZOMBIE) := by
  rw [hex.proc]
  rcases effect_deed h hcalls he with hq | ⟨p, f, hon, htop, hthread, hd⟩
  · exact ⟨(hq.table q).parent, (hq.table q).zombie.1⟩
  have hfree' := h.lock_free hfree hon htop
  have hsame : ∀ {e' : Effect L} {q' v}, e'.upd = some (q', v) → v.parent = (s.proc q').parent →
      v.state ≠ .ZOMBIE → (e'.table s.proc q).parent = (s.proc q).parent ∧
        ((e'.table s.proc q).state = .ZOMBIE → (s.proc q).state = .ZOMBIE) := by
    intro e' q' v hu hpar hz
    rcases table_eq_or e' s.proc q with hold | ⟨v', hu', hnew⟩
    · rw [hold]
      exact ⟨rfl, id⟩
    · rw [hu] at hu'
      cases hu'
      rw [hnew]
      exact ⟨hpar, fun hv => absurd hv hz⟩
  cases hd with
  | fork hunused =>
      unfold allocprocAt
      rw [if_pos hunused]
      exact hsame rfl rfl (by simp)
  | noMem =>
      have hchild := (hcalls.child p .fill _ _ (congrArg Thread.base hthread)).2.2
      exact hsame rfl hchild.symm (by simp [freeproc])
  | parent => exact absurd (by simp [Frame.holds]) hfree'
  | run => exact hsame rfl rfl (by simp)
  | reparent hpp => exact absurd (by simp [Frame.holds]) hfree'
  | zombie => exact absurd (by simp [Frame.holds]) hfree'
  | reap hz hok => exact absurd (by simp [Frame.holds]) hfree'
  | exiting hp =>
      rw [table_of_none rfl]
      exact ⟨rfl, id⟩

end Others

/-! ## Its own frame -/

section Own

theorem within_all : Within s p allSlots := fun q _ => List.mem_finRange q

theorem zombies_all : Zombies s p allSlots := fun q _ _ => List.mem_finRange q

theorem Within.tail {rest : List Slot} (h : Within s p (q :: rest)) (hq : (s.proc q).parent ≠ some p) :
    Within s p rest := by
  intro r hr
  refine (List.mem_cons.1 (h r hr)).resolve_left ?_
  rintro rfl
  exact hq hr

theorem Zombies.tail {rest : List Slot} (h : Zombies s p (q :: rest))
    (hq : (s.proc q).parent = some p → (s.proc q).state ≠ .ZOMBIE) : Zombies s p rest := by
  intro r hr hz
  refine (List.mem_cons.1 (h r hr hz)).resolve_left ?_
  rintro rfl
  exact hq hr hz

theorem Within.of_proc {rest : List Slot} (hproc : t.proc = s.proc) (h : Within s p rest) : Within t p rest :=
  h.congr fun q => by rw [hproc]

theorem Zombies.of_proc {rest : List Slot} (hproc : t.proc = s.proc) (h : Zombies s p rest) :
    Zombies t p rest :=
  h.mono (fun q => by rw [hproc]) fun q => by rw [hproc]; exact id

theorem WakeRet.Knows.of_proc {chan : Option Chan} {ret : WakeRet L} (hproc : t.proc = s.proc)
    (h : ret.Knows s p chan) : ret.Knows t p chan :=
  h.congr fun q => by rw [hproc]

/-- The functions with something to know. -/
def Fn.knowing : List Fn :=
  [.sleep, .wakeup, .wakeupAt, .kexit, .reparent, .waitScan, .waitChild, .waitKilled, .waitKilledAt]

/-- But for `kwait` only these go on in one of these. -/
theorem Fn.next_not_knowing : ∀ k : Fn, k ∉ Fn.kwait :: Fn.knowing → ∀ k' ∈ k.next, k' ∉ Fn.knowing := by
  intro k
  cases k <;> decide

theorem knows_of_fn (h : f.fn ∉ Fn.knowing) : Knows s p f := by
  cases f with
  | sleep pc chan lk ret => exact absurd (by simp [Frame.fn, Fn.knowing]) h
  | wakeup chan rest ret => exact absurd (by simp [Frame.fn, Fn.knowing]) h
  | wakeupAt chan q rest ret => exact absurd (by simp [Frame.fn, Fn.knowing]) h
  | kexit pc status => exact absurd (by simp [Frame.fn, Fn.knowing]) h
  | reparent status rest => exact absurd (by simp [Frame.fn, Fn.knowing]) h
  | waitScan addr rest havekids => exact absurd (by simp [Frame.fn, Fn.knowing]) h
  | waitChild addr q rest => exact absurd (by simp [Frame.fn, Fn.knowing]) h
  | waitKilled addr => exact absurd (by simp [Frame.fn, Fn.knowing]) h
  | waitKilledAt addr => exact absurd (by simp [Frame.fn, Fn.knowing]) h
  | _ => trivial

variable [DecidableEq C]

/-- A step that changes no slot. -/
theorem proc_of_none (hex : Executed s c e t) (hu : e.upd = none) : t.proc = s.proc := by
  rw [hex.proc, table_of_none hu]

theorem knows_sleep {p' : Slot} {pc : SleepPc} {chan : Chan} {lk : CondLock L} {ret : SleepRet L}
    (hex : Executed s c (sleep s p' chan lk ret pc) t) (hn : (sleep s p' chan lk ret pc).next = .top g)
    (hk : Knows s p (.sleep pc chan lk ret)) : Knows t p g := by
  cases pc with
  | lock =>
      cases hn
      cases lk with
      | other l => trivial
      | waitLock =>
          cases ret with
          | code locks => trivial
          | kwait addr => exact Zombies.of_proc (proc_of_none hex rfl) hk
  | relock =>
      cases hn
      cases ret with
      | code locks => trivial
      | kwait addr => exact zombies_all
  | _ =>
      cases hn
      cases lk <;> trivial

/-- The scan goes on. -/
theorem knows_wakeup_cons {my : Option Slot} {chan : Option Chan} {rest : List Slot} {ret : WakeRet L}
    (hex : Executed s c (wakeup my chan ret (q :: rest)) t)
    (hn : (wakeup my chan ret (q :: rest)).next = .top g) (hk : ret.Knows s p chan) : Knows t p g := by
  rw [wakeup] at hex hn
  by_cases hq : my = some q
  · rw [if_pos hq] at hex hn
    cases hn
    exact WakeRet.Knows.of_proc (proc_of_none hex rfl) hk
  · rw [if_neg hq] at hex hn
    cases hn
    exact WakeRet.Knows.of_proc (proc_of_none hex rfl) hk

/-- At its end those it has passed are awake. -/
theorem knows_wakeup_nil {my : Option Slot} {chan : Option Chan} {ret : WakeRet L}
    (hex : Executed s c (wakeup my chan ret []) t) (hn : (wakeup my chan ret []).next = .top g)
    (hk : ret.Knows s p chan)
    (hawake : ∀ status r, ret = .kexit status → chan = some (.proc r) → ¬ Waiting t r) : Knows t p g := by
  have hproc := proc_of_none hex rfl
  cases hn
  cases ret with
  | code locks => trivial
  | reparent status rest => exact hk.1.of_proc hproc
  | kexit status =>
      refine ⟨hk.1.of_proc hproc, fun r hparent => hawake status r rfl ?_⟩
      rw [hproc] at hparent
      rw [hk.2, hparent]
      rfl

omit [DecidableEq C] in
theorem knows_wakeupAt {chan : Option Chan} {rest : List Slot} {ret : WakeRet L}
    (hparent : ∀ q, (t.proc q).parent = (s.proc q).parent)
    (hn : (wakeupAt s chan q rest ret).next = .top g) (hk : ret.Knows s p chan) : Knows t p g := by
  unfold wakeupAt at hn
  split at hn
  · cases hn
    exact hk.congr hparent
  · cases hn
    exact hk.congr hparent

theorem knows_kexit {pc : ExitPc} {status : BitVec 32} (hex : Executed s c e t)
    (hr : kexit s p status pc = some e) (hn : e.next = .top g)
    (hwaiting : e.op ≠ .release (.cond .waitLock) → ∀ r, Waiting t r → Waiting s r)
    (hk : Knows s p (.kexit pc status)) : Knows t p g := by
  cases pc with
  | waitLock =>
      obtain rfl := Option.some.inj hr
      cases hn
      exact within_all
  | parent =>
      obtain rfl := Option.some.inj hr
      have hproc := proc_of_none hex rfl
      cases hn
      exact ⟨Within.of_proc hproc hk, by rw [hproc]⟩
  | lock =>
      obtain rfl := Option.some.inj hr
      have hproc := proc_of_none hex rfl
      cases hn
      refine ⟨hk.1.of_proc hproc, fun r hparent hw => hk.2 r ?_ (hwaiting (by simp [acquire, of]) r hw)⟩
      rw [hproc] at hparent
      exact hparent
  | done => cases hr
  | _ =>
      obtain rfl := Option.some.inj hr
      cases hn
      trivial

omit [DecidableEq C] in
/-- A child given away is a child no more. -/
theorem Within.given (hp : p ≠ initproc) {rest : List Slot}
    (hproc : t.proc = Function.update s.proc q { s.proc q with parent := some initproc })
    (h : Within s p (q :: rest)) : Within t p rest := by
  intro r hr
  rw [hproc] at hr
  by_cases hrq : r = q
  · subst hrq
    rw [Function.update_self] at hr
    exact absurd (Option.some.inj hr).symm hp
  · rw [Function.update_of_ne hrq] at hr
    exact (List.mem_cons.1 (h r hr)).resolve_left hrq

theorem knows_reparent (hp : p ≠ initproc) {status : BitVec 32} {rest : List Slot}
    (hex : Executed s c (reparent s p status rest) t) (hn : (reparent s p status rest).next = .top g)
    (hk : Within s p rest) : Knows t p g := by
  cases rest with
  | nil =>
      cases hn
      exact hk.of_proc (proc_of_none hex rfl)
  | cons pp rest =>
      rw [reparent] at hex hn
      by_cases hpp : (s.proc pp).parent = some p
      · rw [if_pos hpp] at hex hn
        cases hn
        exact ⟨hk.given hp hex.proc, rfl⟩
      · rw [if_neg hpp] at hex hn
        cases hn
        exact (hk.tail hpp).of_proc (proc_of_none hex rfl)

theorem knows_waitScan {addr : Uint64} {havekids : Bool} {rest : List Slot}
    (hex : Executed s c (waitScan s p addr havekids rest) t)
    (hn : (waitScan s p addr havekids rest).next = .top g) (hk : Zombies s p rest) : Knows t p g := by
  cases rest with
  | nil =>
      rw [waitScan] at hex hn
      cases havekids with
      | false =>
          cases hn
          trivial
      | true =>
          cases hn
          exact hk.of_proc (proc_of_none hex rfl)
  | cons q rest =>
      rw [waitScan] at hex hn
      by_cases hq : (s.proc q).parent = some p
      · rw [if_pos hq] at hex hn
        have hproc := proc_of_none hex rfl
        cases hn
        exact ⟨by rw [hproc, hq], hk.of_proc hproc⟩
      · rw [if_neg hq] at hex hn
        cases hn
        exact (hk.tail fun hparent => absurd hparent hq).of_proc (proc_of_none hex rfl)

theorem knows_waitChild {p' : Slot} {addr : Uint64} {rest : List Slot} {ok : Bool}
    (hex : Executed s c (waitChild s p' addr q rest ok) t)
    (hn : (waitChild s p' addr q rest ok).next = .top g) (hk : Zombies s p (q :: rest)) : Knows t p g := by
  by_cases hz : (s.proc q).state = .ZOMBIE
  · rw [waitChild, if_pos hz] at hn
    split at hn <;> cases hn <;> trivial
  · rw [waitChild, if_neg hz] at hex hn
    cases hn
    exact (hk.tail fun _ => hz).of_proc (proc_of_none hex rfl)

theorem knows_waitKilledAt {addr : Uint64} (hex : Executed s c (waitKilledAt s p addr) t)
    (hn : (waitKilledAt s p addr).next = .top g) (hk : Zombies s p []) : Knows t p g := by
  cases hn
  split
  · trivial
  · exact hk.of_proc (proc_of_none hex rfl)

variable [DecidableEq L]

omit [DecidableEq C] in
theorem codeRow_knows {locks : List (CondLock L)} {a : Act L} (hr : codeRow s c locks a = some e)
    (hn : e.next = .top g) : Knows t p g := by
  cases a with
  | acquire l =>
      obtain rfl := Option.some.inj hr
      cases hn
      trivial
  | release l =>
      obtain rfl := Option.some.inj hr
      cases hn
      trivial
  | sleep chan lk =>
      obtain ⟨-, ⟨⟩⟩ := Option.ite_none_right_eq_some.1 hr
      cases hn
      cases lk <;> trivial
  | wakeup chan =>
      obtain rfl := Option.some.inj hr
      cases hn
      trivial
  | kexit status =>
      obtain ⟨-, hr⟩ := Option.ite_none_right_eq_some.1 hr
      obtain ⟨p, -, hr⟩ := Option.bind_eq_some_iff.1 hr
      obtain ⟨-, ⟨⟩⟩ := Option.ite_none_left_eq_some.1 hr
      cases hn
      trivial
  | kfork =>
      obtain ⟨-, ⟨⟩⟩ := Option.ite_none_right_eq_some.1 hr
      cases hn
      trivial
  | kwait addr =>
      obtain ⟨-, ⟨⟩⟩ := Option.ite_none_right_eq_some.1 hr
      cases hn
      trivial
  | kkill pid =>
      obtain ⟨-, ⟨⟩⟩ := Option.ite_none_right_eq_some.1 hr
      cases hn
      trivial
  | _ => cases hr

omit [DecidableEq C] [DecidableEq L] in
/-- The scan has passed all slots. -/
theorem Sleepers.scanned (hs : Sleepers s) {ret : WakeRet L} (htop : s.top c = .wakeup (some (.proc q)) [] ret)
    (hlk : s.holder (.cond .waitLock) = some c) : ¬ Waiting s q := by
  intro hw
  have hin : q ∈ [] := hs.scan c (.proc q) [] .waitLock (by rw [htop]; rfl) hlk q hw.pending
  cases hin

/-- What a process knows after its own step. -/
theorem Kids.knows_row (h : Inv s) (he : effect s l = some e) (hex : Executed s l.cpu e t) (hk : Kids s)
    (hs : Sleepers s) {ok : Bool} (hon : s.on l.cpu = some p) (htop : s.top l.cpu = f)
    (hr : row s l.cpu ok f = some e) (hn : e.next = .top g) (hbase : f.sys = true → (s.thread p).base = f)
    (hlk : .cond .waitLock ∈ f.holds (some p) → s.holder (.cond .waitLock) = some l.cpu) :
    Knows t p g := by
  have hknows : Knows s p f := htop ▸ hk.knows l.cpu p hon
  have hmine : ∀ {p'}, s.cpuProc l.cpu = some p' → p' = p := fun hp' =>
    Option.some.inj (hp'.symm.trans (h.cpu_of_on hon))
  have hwaiting : e.op ≠ .release (.cond .waitLock) → ∀ r, Waiting t r → Waiting s r := by
    intro hop r hw
    rcases hs.waiting_step h he hex hw with hold | ⟨-, -, -, hrel⟩
    · exact hold
    · exact absurd hrel hop
  cases f with
  | sleep pc chan lk ret =>
      obtain ⟨p', -, rfl⟩ := Option.map_eq_some_iff.1 hr
      exact knows_sleep hex hn hknows
  | wakeup chan rest ret =>
      obtain rfl := Option.some.inj hr
      cases rest with
      | nil =>
          refine knows_wakeup_nil hex hn hknows ?_
          rintro status r rfl rfl hw
          have hholder := hlk (by simp [Frame.holds, WakeRet.held])
          exact hs.scanned htop hholder (hwaiting (by simp [wakeup, goto, of]) r hw)
      | cons q rest => exact knows_wakeup_cons hex hn hknows
  | wakeupAt chan q rest ret =>
      have hquiet : Quiet s e := by
        rcases row_deed h htop hr with hq | ⟨_, -, -, hd⟩
        · exact hq
        · cases hd
      obtain rfl := Option.some.inj hr
      refine knows_wakeupAt (fun q' => ?_) hn hknows
      rw [hex.proc]
      exact (hquiet.table q').parent
  | kexit pc status =>
      obtain ⟨p', hp', hr⟩ := Option.bind_eq_some_iff.1 hr
      obtain rfl := hmine hp'
      exact knows_kexit hex hr hn hwaiting hknows
  | reparent status rest =>
      obtain ⟨p', hp', rfl⟩ := Option.map_eq_some_iff.1 hr
      obtain rfl := hmine hp'
      have hp : p' ≠ initproc := by
        rintro rfl
        have hexit := hk.init.2
        rw [hbase rfl] at hexit
        cases hexit
      exact knows_reparent hp hex hn hknows
  | kwait addr =>
      obtain rfl := Option.some.inj hr
      cases hn
      exact zombies_all
  | waitScan addr rest havekids =>
      obtain ⟨p', hp', rfl⟩ := Option.map_eq_some_iff.1 hr
      obtain rfl := hmine hp'
      exact knows_waitScan hex hn hknows
  | waitChild addr q rest =>
      obtain ⟨p', -, rfl⟩ := Option.map_eq_some_iff.1 hr
      exact knows_waitChild hex hn hknows.2
  | waitKilled addr =>
      obtain ⟨p', -, rfl⟩ := Option.map_eq_some_iff.1 hr
      cases hn
      exact Zombies.of_proc (proc_of_none hex rfl) hknows
  | waitKilledAt addr =>
      obtain ⟨p', hp', rfl⟩ := Option.map_eq_some_iff.1 hr
      obtain rfl := hmine hp'
      exact knows_waitKilledAt hex hn hknows
  | _ => exact knows_of_fn (Fn.next_not_knowing _ (by simp [Fn.knowing, Frame.fn]) _ (row_fn hr hn))

end Own

end Xv6.Sched
