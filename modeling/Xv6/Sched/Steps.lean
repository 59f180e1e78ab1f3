import Xv6.Sched.Calls

set_option autoImplicit false

/-! # Every step keeps the invariant

Most steps change neither the state of a process nor `c->proc`. The others change the state of a process
that is on no CPU, or take a process off its CPU, or put one on. -/

namespace Xv6.Sched

open Xv6.Lib
open Xv6.ProcTable (ProcState Chan Proc Table initproc freeproc)

variable {C L : Type} [DecidableEq C] [DecidableEq L] {s t : State C L} {c : C} {e : Effect L}

/-- How an operation changes the locks that a CPU has. -/
def Op.Moves (l l' : List (Lock L)) : Op L → Prop
  | .skip => l.Perm l'
  | .acquire lk => (lk :: l).Perm l'
  | .release lk => lk ∈ l → l.Perm (lk :: l')
  | _ => False

omit [DecidableEq L] in
theorem Inv.panic (h : Inv s) (c : C) : Inv (s.panic c) :=
  ⟨h.locks, h.below, h.below_sched, h.kind, h.kind_sched, h.switched, h.cpu, h.unique, h.state, h.swtch,
    h.back, h.runs, h.parked⟩

theorem Inv.exec (h : Inv s) (hf : Fits s c e)
    (hl : e.op.Moves (s.held c) ((e.next.apply (s.current c)).top.holds (s.on c)))
    (hx : s.exec c e = some t) : Inv t := by
  unfold State.exec at hx
  cases hop : e.op with
  | skip =>
      rw [hop] at hl hx
      rw [← Option.some.inj hx]
      exact h.skip hf hl
  | acquire lk =>
      rw [hop] at hl hx
      cases hh : s.holder lk with
      | none =>
          simp only [hh, Option.some.injEq] at hx
          subst hx
          refine h.commit hf (h.locks.acquire hh ?_ fun c' hc => commit_held_of_ne h hf hc)
          rw [commit_held_self]
          exact hl
      | some c' =>
          simp only [hh] at hx
          by_cases hc : c' = c
          · rw [if_pos hc] at hx
            rw [← Option.some.inj hx]
            exact h.panic c
          · rw [if_neg hc] at hx
            cases hx
  | release lk =>
      rw [hop] at hl hx
      by_cases hh : s.holder lk = some c
      · simp only [if_pos hh, Option.some.injEq] at hx
        subst hx
        have hperm := hl ((h.locks.mem c lk).1 hh)
        refine h.commit hf (h.locks.release ?_ fun c' hc => commit_held_of_ne h hf hc)
        rw [commit_held_self]
        exact hperm
      · simp only [if_neg hh, Option.some.injEq] at hx
        rw [← hx]
        exact h.panic c
  | swtch p =>
      rw [hop] at hl
      exact absurd hl id
  | sched =>
      rw [hop] at hl
      exact absurd hl id

theorem Inv.exec_top (h : Inv s) (hf : Fits s c e) (hx : s.exec c e = some t) {f g : Frame L}
    (htop : s.top c = g) (hn : e.next = .top f) (hl : e.op.Moves (g.holds (s.on c)) (f.holds (s.on c))) :
    Inv t := by
  subst htop
  refine h.exec hf ?_ hx
  rw [hn, Next.apply_top]
  exact hl

/-! ## Kinds of steps -/

omit [DecidableEq C] [DecidableEq L] in
/-- The scheduler's thread keeps its process, if no frame with a process comes in. -/
theorem target_apply (h : Inv s) {f : Frame L} (hon : s.on c = none) (hf : f.target = none)
    (hg : (s.top c).target = none) :
    s.cpuProc c = ((Next.top f).apply (s.scheduler c)).base.target := by
  rw [h.cpu]
  rw [State.top, State.current_of_none hon, Thread.top] at hg
  cases hi : (s.scheduler c).intr with
  | none =>
      rw [hi, Option.getD_none] at hg
      simp only [Next.apply, hi, Option.isSome_none, Bool.false_eq_true, if_false]
      rw [hg, hf]
  | some g => simp only [Next.apply, hi, Option.isSome_some, if_true]

omit [DecidableEq C] [DecidableEq L] in
/-- A step to a frame that is not about a process of the scheduler. -/
theorem Fits.of_top (h : Inv s) {f : Frame L} (hn : e.next = .top f) (hc : e.cpuProc = none)
    (hkind : f.kind = (s.top c).kind) (hf : f.target = none) (hg : (s.top c).target = none)
    (mine : ∀ p, s.on c = some p → (e.table s.proc p).state = f.state)
    (upd : ∀ q v, e.upd = some (q, v) →
      v.state = (s.proc q).state ∨ s.on c = some q ∨ ∀ c', s.cpuProc c' ≠ some q)
    (runs : ∀ q v, e.upd = some (q, v) → v.state = .RUNNING → (s.proc q).state = .RUNNING)
    (wakes : ∀ q v, e.upd = some (q, v) → v.state ≠ .UNUSED → v.state ≠ .ZOMBIE →
      (s.proc q).state ≠ .UNUSED ∧ (s.proc q).state ≠ .ZOMBIE ∨ e.fresh = some q)
    (fresh : ∀ q, e.fresh = some q → ∀ c', s.cpuProc c' ≠ some q) : Fits s c e := by
  constructor
  case push =>
    intro g hg'
    rw [hn] at hg'
    cases hg'
  case pop =>
    intro hpop
    rw [hn] at hpop
    cases hpop
  case kind =>
    intro g hg'
    rw [hn] at hg'
    cases hg'
    exact hkind
  case back =>
    intro p rest hb
    rw [hn] at hb
    cases hb
    cases hf
  case swtch =>
    intro p rest hb
    rw [hn] at hb
    cases hb
    cases hf
  case cpu =>
    exact fun _ _ => hc
  case cpu_sched =>
    intro hon
    rw [hc, Option.getD_none, hn]
    exact target_apply h hon hf hg
  case taken =>
    intro p hp
    rw [hc] at hp
    cases hp
  case dropped =>
    intro hp
    rw [hc] at hp
    cases hp
  case mine =>
    intro p hon
    rw [hn, Next.apply_top]
    exact mine p hon
  case upd =>
    exact upd
  case runs =>
    exact fun q v hu hv => Or.inl (runs q v hu hv)
  case wakes =>
    exact wakes
  case fresh =>
    exact fresh

omit [DecidableEq C] [DecidableEq L] in
/-- No process changes its state. -/
theorem Fits.plain (h : Inv s) {f : Frame L} (hn : e.next = .top f) (hc : e.cpuProc = none)
    (hfresh : e.fresh = none) (hkind : f.kind = (s.top c).kind) (hf : f.target = none)
    (hg : (s.top c).target = none) (hstate : f.state = (s.top c).state)
    (hu : ∀ q v, e.upd = some (q, v) → v.state = (s.proc q).state) : Fits s c e := by
  refine Fits.of_top h hn hc hkind hf hg (fun p hon => ?_) (fun q v hv => Or.inl (hu q v hv))
    (fun q v hv hrun => ?_) (fun q v hv hunused hzombie => ?_) fun q hq => ?_
  · have hold : (e.table s.proc p).state = (s.proc p).state := by
      rcases table_eq_or e s.proc p with he | ⟨v, hv, he⟩
      · rw [he]
      · rw [he, hu p v hv]
    rw [hold, hstate, State.top, State.current_of_on hon]
    exact h.state c p hon
  · rw [hu q v hv] at hrun
    exact hrun
  · rw [hu q v hv] at hunused hzombie
    exact Or.inl ⟨hunused, hzombie⟩
  · rw [hfresh] at hq
    cases hq

omit [DecidableEq C] [DecidableEq L] in
/-- The state of a process that is on no CPU changes. -/
theorem Fits.other (h : Inv s) {f : Frame L} {q : Slot} {v : Proc} (hn : e.next = .top f)
    (hc : e.cpuProc = none) (hu : e.upd = some (q, v)) (hfresh : ∀ q', e.fresh = some q' → q' = q)
    (hkind : f.kind = (s.top c).kind) (hf : f.target = none) (hg : (s.top c).target = none)
    (hstate : f.state = (s.top c).state) (hoff : ∀ c', s.cpuProc c' ≠ some q)
    (hv : v.state ≠ .RUNNING) (hwakes : v.state ≠ .UNUSED → v.state ≠ .ZOMBIE →
      (s.proc q).state ≠ .UNUSED ∧ (s.proc q).state ≠ .ZOMBIE ∨ e.fresh = some q) : Fits s c e := by
  have hq : ∀ q' v', e.upd = some (q', v') → q' = q ∧ v' = v := by
    intro q' v' hu'
    rw [hu] at hu'
    cases hu'
    exact ⟨rfl, rfl⟩
  refine Fits.of_top h hn hc hkind hf hg (fun p hon => ?_) (fun q' v' hu' => ?_)
    (fun q' v' hu' hrun => ?_) (fun q' v' hu' => ?_) fun q' hq' => ?_
  · have hne : p ≠ q := fun he => hoff c (he ▸ h.cpu_of_on hon)
    rcases table_eq_or e s.proc p with he | ⟨v', hv', -⟩
    · rw [he, hstate, State.top, State.current_of_on hon]
      exact h.state c p hon
    · exact absurd (hq p v' hv').1 hne
  · rw [(hq q' v' hu').1]
    exact Or.inr (Or.inr hoff)
  · rw [(hq q' v' hu').2] at hrun
    exact absurd hrun hv
  · obtain ⟨rfl, rfl⟩ := hq q' v' hu'
    exact hwakes
  · rw [hfresh q' hq']
    exact hoff

omit [DecidableEq C] [DecidableEq L] in
/-- The process of the CPU is about to leave it. -/
theorem Fits.leave (h : Inv s) {f : Frame L} {p : Slot} {v : Proc} (hon : s.on c = some p)
    (hn : e.next = .top f) (hc : e.cpuProc = none) (hu : e.upd = some (p, v)) (hfresh : e.fresh = none)
    (hkind : f.kind = (s.top c).kind) (hf : f.target = none) (hg : (s.top c).target = none)
    (hstate : v.state = f.state) (hrunning : (s.top c).state = .RUNNING) (hne : f.state ≠ .RUNNING) :
    Fits s c e := by
  have hq : ∀ q' v', e.upd = some (q', v') → q' = p ∧ v' = v := by
    intro q' v' hu'
    rw [hu] at hu'
    cases hu'
    exact ⟨rfl, rfl⟩
  have hp : (s.proc p).state = .RUNNING := by
    rw [h.state c p hon, ← State.current_of_on hon]
    exact hrunning
  refine Fits.of_top h hn hc hkind hf hg (fun p' hon' => ?_) (fun q' v' hu' => ?_)
    (fun q' v' hu' hrun => ?_) (fun q' v' hu' _ _ => ?_) fun q' hq' => ?_
  · have hpp : p' = p := Option.some.inj (hon'.symm.trans hon)
    rw [hpp, ← hstate]
    unfold Effect.table
    rw [hu]
    simp
  · rw [(hq q' v' hu').1]
    exact Or.inr (Or.inl hon)
  · rw [(hq q' v' hu').2, hstate] at hrun
    exact absurd hrun hne
  · rw [(hq q' v' hu').1, hp]
    exact Or.inl ⟨by decide, by decide⟩
  · rw [hfresh] at hq'
    cases hq'

/-- A step of one of these kinds. -/
theorem Inv.plain (h : Inv s) {f g : Frame L} (hx : s.exec c e = some t) (htop : s.top c = g) (hn : e.next = .top f)
    (hc : e.cpuProc = none) (hfresh : e.fresh = none) (hkind : f.kind = g.kind)
    (hf : f.target = none) (hg : g.target = none) (hstate : f.state = g.state)
    (hu : ∀ q v, e.upd = some (q, v) → v.state = (s.proc q).state)
    (hl : e.op.Moves (g.holds (s.on c)) (f.holds (s.on c))) : Inv t := by
  subst htop
  exact h.exec_top (Fits.plain h hn hc hfresh hkind hf hg hstate hu) hx rfl hn hl

omit [DecidableEq L] in
theorem running_of_holds {p : Slot} {f : Frame L} (h : f.holds (some p) = []) : f.state = .RUNNING := by
  by_contra hne
  have hown := Frame.own_of_state (p := p) hne
  rw [h] at hown
  cases hown

omit [DecidableEq C] [DecidableEq L] in
/-- An interrupt comes. -/
theorem Fits.of_push (h : Inv s) {f : Frame L} (hn : e.next = .push f) (hc : e.cpuProc = none)
    (hu : e.upd = none) (hfresh : e.fresh = none) (hkind : f.kind ≠ .sched) (hstate : f.state = .RUNNING)
    (hheld : s.held c = []) (hintr : (s.current c).intr = none) : Fits s c e := by
  have htable : e.table s.proc = s.proc := by
    unfold Effect.table
    rw [hu]
  constructor
  case push =>
    intro g hg
    rw [hn] at hg
    cases hg
    exact ⟨hheld, hintr, hkind⟩
  case pop =>
    intro hpop
    rw [hn] at hpop
    cases hpop
  case kind =>
    intro g hg
    rw [hn] at hg
    cases hg
  case back =>
    intro p rest hb
    rw [hn] at hb
    cases hb
  case swtch =>
    intro p rest hb
    rw [hn] at hb
    cases hb
  case cpu =>
    exact fun _ _ => hc
  case cpu_sched =>
    intro _
    rw [hc, Option.getD_none, hn]
    exact h.cpu c
  case taken =>
    intro p hp
    rw [hc] at hp
    cases hp
  case dropped =>
    intro hp
    rw [hc] at hp
    cases hp
  case mine =>
    intro p hon
    rw [htable, hn, Next.apply_push, hstate, h.state c p hon]
    rw [State.held, hon, State.top, State.current_of_on hon] at hheld
    exact running_of_holds hheld
  case upd =>
    intro q v hv
    rw [hu] at hv
    cases hv
  case runs =>
    intro q v hv
    rw [hu] at hv
    cases hv
  case wakes =>
    intro q v hv
    rw [hu] at hv
    cases hv
  case fresh =>
    intro q hq
    rw [hfresh] at hq
    cases hq

omit [DecidableEq C] [DecidableEq L] in
/-- An interrupt is over. -/
theorem Fits.of_pop (h : Inv s) (hn : e.next = .pop) (hc : e.cpuProc = none) (hu : e.upd = none)
    (hfresh : e.fresh = none) (hkind : (s.top c).kind ≠ .sched) (hstate : (s.top c).state = .RUNNING) :
    Fits s c e := by
  have htable : e.table s.proc = s.proc := by
    unfold Effect.table
    rw [hu]
  constructor
  case push =>
    intro g hg
    rw [hn] at hg
    cases hg
  case pop =>
    exact fun _ => hkind
  case kind =>
    intro g hg
    rw [hn] at hg
    cases hg
  case back =>
    intro p rest hb
    rw [hn] at hb
    cases hb
  case swtch =>
    intro p rest hb
    rw [hn] at hb
    cases hb
  case cpu =>
    exact fun _ _ => hc
  case cpu_sched =>
    intro _
    rw [hc, Option.getD_none, hn]
    exact h.cpu c
  case taken =>
    intro p hp
    rw [hc] at hp
    cases hp
  case dropped =>
    intro hp
    rw [hc] at hp
    cases hp
  case mine =>
    intro p hon
    rw [State.top, State.current_of_on hon] at hstate
    rw [htable, hn, Next.apply_pop, h.state c p hon, hstate]
    cases hi : (s.thread p).intr with
    | none =>
        rw [Thread.top, hi, Option.getD_none] at hstate
        exact hstate.symm
    | some f => exact (running_of_holds (h.below p f hi)).symm
  case upd =>
    intro q v hv
    rw [hu] at hv
    cases hv
  case runs =>
    intro q v hv
    rw [hu] at hv
    cases hv
  case wakes =>
    intro q v hv
    rw [hu] at hv
    cases hv
  case fresh =>
    intro q hq
    rw [hfresh] at hq
    cases hq

omit [DecidableEq C] [DecidableEq L] in
/-- What an interrupt has left below it has no lock. -/
theorem Inv.pop_holds (h : Inv s) {f : Frame L} (hintr : (s.current c).intr = some f) :
    ((Next.pop).apply (s.current c)).top.holds (s.on c) = [] := by
  rw [Next.apply_pop]
  cases hon : s.on c with
  | some p =>
      rw [State.current_of_on hon] at hintr ⊢
      exact h.below p f hintr
  | none =>
      rw [State.current_of_none hon] at hintr ⊢
      exact h.below_sched c f hintr

theorem Inv.exec_sched (h : Inv s) {p : Slot} {f g : Frame L} (hx : s.exec c (.sched f) = some t) (hon : s.on c = some p)
    (htop : s.top c = g) (hkind : f.kind = g.kind) (hholds : f.holds (some p) = g.holds (some p))
    (hrunning : f.state = .RUNNING) : Inv t := by
  unfold State.exec at hx
  simp only [Effect.sched, Effect.of, hon] at hx
  by_cases hbad : s.holder (.proc p) ≠ some c ∨ s.noff c ≠ 1 ∨ (s.proc p).state = .RUNNING
  · rw [if_pos hbad] at hx
    rw [← Option.some.inj hx]
    exact h.panic c
  · rw [if_neg hbad] at hx
    rw [← Option.some.inj hx]
    push Not at hbad
    obtain ⟨hholder, hnoff, hstate⟩ := hbad
    exact h.toSched hon hholder hnoff hstate (by rw [htop, hkind]) (by rw [htop, hholds]) hrunning

theorem Inv.leave (h : Inv s) {f g : Frame L} {p : Slot} {v : Proc} (hx : s.exec c e = some t) (htop : s.top c = g)
    (hon : s.on c = some p) (hn : e.next = .top f) (hc : e.cpuProc = none) (hu : e.upd = some (p, v))
    (hfresh : e.fresh = none) (hkind : f.kind = g.kind) (hf : f.target = none) (hg : g.target = none)
    (hstate : v.state = f.state) (hrunning : g.state = .RUNNING) (hne : f.state ≠ .RUNNING)
    (hl : e.op.Moves (g.holds (s.on c)) (f.holds (s.on c))) : Inv t := by
  subst htop
  exact h.exec_top (Fits.leave h hon hn hc hu hfresh hkind hf hg hstate hrunning hne) hx rfl hn hl

/-- `c` has `q->lock`, and `q` is not `RUNNING`. -/
theorem Inv.other (h : Inv s) {f g : Frame L} {q : Slot} {v : Proc} (hx : s.exec c e = some t) (htop : s.top c = g)
    (hn : e.next = .top f) (hc : e.cpuProc = none) (hu : e.upd = some (q, v))
    (hfresh : ∀ q', e.fresh = some q' → q' = q) (hkind : f.kind = g.kind) (hf : f.target = none)
    (hg : g.target = none) (hstate : f.state = .RUNNING) (hrunning : g.state = .RUNNING)
    (hlock : .proc q ∈ g.holds (s.on c)) (hq : (s.proc q).state ≠ .RUNNING) (hv : v.state ≠ .RUNNING)
    (hwakes : v.state ≠ .UNUSED → v.state ≠ .ZOMBIE →
      (s.proc q).state ≠ .UNUSED ∧ (s.proc q).state ≠ .ZOMBIE ∨ e.fresh = some q)
    (hl : e.op.Moves (g.holds (s.on c)) (f.holds (s.on c))) : Inv t := by
  subst htop
  have hoff := h.off_cpu hlock hq hrunning hg
  exact h.exec_top (Fits.other h hn hc hu hfresh hkind hf hg (by rw [hstate, hrunning]) hoff hv hwakes) hx
    rfl hn hl

/-! ## The functions -/

omit [DecidableEq C] [DecidableEq L] in
/-- `yield` is called in interrupts. -/
theorem Inv.yield_intr (h : Inv s) {p : Slot} {pc : YieldPc} (htop : s.top c = .yield pc)
    (hon : s.on c = some p) : (s.current c).intr = some (.yield pc) := by
  rw [State.top, State.current_of_on hon, Thread.top] at htop
  rw [State.current_of_on hon]
  cases hi : (s.thread p).intr with
  | none =>
      rw [hi, Option.getD_none] at htop
      have hbase := (h.kind p).1
      rw [htop] at hbase
      cases hbase
  | some f =>
      rw [hi, Option.getD_some] at htop
      rw [htop]

theorem Inv.yield (h : Inv s) {p : Slot} {pc : YieldPc} (htop : s.top c = .yield pc)
    (hon : s.on c = some p) (hx : s.exec c (yield s p pc) = some t) : Inv t := by
  cases pc with
  | lock =>
      refine h.plain hx (f := .yield .switch) htop rfl rfl rfl rfl rfl rfl rfl (fun _ _ hu => by cases hu) ?_
      rw [hon]
      exact List.Perm.refl _
  | switch =>
      refine h.leave hx (f := .yield .sched) htop hon rfl rfl rfl rfl rfl rfl rfl rfl rfl (by simp [Frame.state])
        ?_
      exact List.Perm.refl _
  | sched => exact h.exec_sched hx (f := .yield .unlock) hon htop rfl rfl rfl
  | unlock =>
      have hintr := h.yield_intr htop hon
      have hfits : Fits s c (Sched.yield s p .unlock) :=
        Fits.of_pop h rfl rfl rfl rfl (by rw [htop]; simp [Frame.kind]) (by rw [htop]; rfl)
      refine h.exec hfits ?_ hx
      show Op.Moves _ (((Next.pop).apply (s.current c)).top.holds (s.on c)) _
      rw [h.pop_holds hintr, State.held, htop, hon]
      exact fun _ => List.Perm.refl _

omit [DecidableEq L] in
/-- A caller of `sleep` gets its lock back. -/
theorem SleepRet.frame_holds (ret : SleepRet L) {me : Option Slot} {lk : CondLock L}
    (hlk : ∀ addr, ret = .kwait addr → lk = .waitLock) :
    (ret.frame lk).holds me = .cond lk :: ret.held := by
  cases ret with
  | code locks => rfl
  | kwait addr =>
      rw [hlk addr rfl]
      rfl

omit [DecidableEq L] in
theorem SleepRet.frame_plain (ret : SleepRet L) (lk : CondLock L) : (ret.frame lk).kind = .proc ∧
    (ret.frame lk).target = none ∧ (ret.frame lk).state = .RUNNING := by
  cases ret <;> exact ⟨rfl, rfl, rfl⟩

omit [DecidableEq L] in
theorem WakeRet.frame_plain (ret : WakeRet L) : ret.frame.kind = .proc ∧ ret.frame.target = none ∧
    ret.frame.state = .RUNNING := by
  cases ret <;> exact ⟨rfl, rfl, rfl⟩

omit [DecidableEq L] in
theorem WakeRet.frame_holds (ret : WakeRet L) (me : Option Slot) : ret.frame.holds me = ret.held := by
  cases ret <;> rfl

/-- A step without an effect on slots. -/
theorem Inv.move (h : Inv s) {f g : Frame L} {op : Op L} (hx : s.exec c (.of op (.top f)) = some t) (htop : s.top c = g) (hkind : f.kind = g.kind)
    (hf : f.target = none) (hg : g.target = none) (hstate : f.state = g.state)
    (hl : op.Moves (g.holds (s.on c)) (f.holds (s.on c))) : Inv t :=
  h.plain hx htop rfl rfl rfl hkind hf hg hstate (fun _ _ hu => by cases hu) hl

theorem Inv.forkret (h : Inv s) {p : Slot} (htop : s.top c = .forkret) (hon : s.on c = some p)
    (hx : s.exec c (forkret p) = some t) : Inv t := by
  refine h.move hx htop rfl rfl rfl rfl ?_
  rw [hon]
  exact fun _ => List.Perm.refl _

theorem Inv.sleep (h : Inv s) {p : Slot} {pc : SleepPc} {chan : Chan} {lk : CondLock L} {ret : SleepRet L}
    (htop : s.top c = .sleep pc chan lk ret) (hon : s.on c = some p)
    (hlk : ∀ addr, ret = .kwait addr → lk = .waitLock)
    (hx : s.exec c (sleep s p chan lk ret pc) = some t) : Inv t := by
  cases pc with
  | lock =>
      refine h.move hx (f := .sleep .release chan lk ret) htop rfl rfl rfl rfl ?_
      rw [hon]
      exact List.Perm.refl _
  | release =>
      refine h.move hx (f := .sleep .switch chan lk ret) htop rfl rfl rfl rfl ?_
      rw [hon]
      exact fun _ => List.Perm.swap ..
  | switch =>
      exact h.leave hx (f := .sleep .sched chan lk ret) htop hon rfl rfl rfl rfl rfl rfl rfl rfl rfl
        (by simp [Frame.state]) (List.Perm.refl _)
  | sched => exact h.exec_sched hx (f := .sleep .woken chan lk ret) hon htop rfl rfl rfl
  | woken =>
      refine h.plain hx (f := .sleep .relock chan lk ret) htop rfl rfl rfl rfl rfl rfl rfl ?_ ?_
      · intro q v hu
        cases hu
        rfl
      · rw [hon]
        exact fun _ => List.Perm.refl _
  | relock =>
      obtain ⟨hkind, htarget, hstate⟩ := ret.frame_plain lk
      refine h.move hx (f := ret.frame lk) htop hkind htarget rfl hstate ?_
      rw [ret.frame_holds hlk]
      exact List.Perm.refl _

theorem Inv.wakeup (h : Inv s) {me : Option Slot} {chan : Option Chan} {rest : List Slot} {ret : WakeRet L}
    (htop : s.top c = .wakeup chan rest ret) (hx : s.exec c (wakeup me chan ret rest) = some t) : Inv t := by
  cases rest with
  | nil =>
      obtain ⟨hkind, htarget, hstate⟩ := ret.frame_plain
      refine h.move hx (f := ret.frame) htop hkind htarget rfl hstate ?_
      rw [ret.frame_holds]
      exact List.Perm.refl _
  | cons q rest =>
      simp only [Sched.wakeup] at hx
      split at hx
      · exact h.move hx (f := .wakeup chan rest ret) htop rfl rfl rfl rfl (List.Perm.refl _)
      · exact h.move hx (f := .wakeupAt chan q rest ret) htop rfl rfl rfl rfl (List.Perm.refl _)

theorem Inv.wakeupAt (h : Inv s) {chan : Option Chan} {q : Slot} {rest : List Slot} {ret : WakeRet L}
    (htop : s.top c = .wakeupAt chan q rest ret) (hx : s.exec c (wakeupAt s chan q rest ret) = some t) :
    Inv t := by
  unfold Sched.wakeupAt at hx
  split at hx
  · rename_i hq
    refine h.other hx (f := .wakeup chan rest ret) htop rfl rfl rfl (fun _ hf => by cases hf) rfl rfl rfl rfl rfl
      (List.mem_cons_self ..) ?_ ?_ ?_ (fun _ => List.Perm.refl _)
    · rw [hq.1]
      decide
    · simp
    · rw [hq.1]
      exact fun _ _ => Or.inl ⟨by decide, by decide⟩
  · exact h.move hx (f := .wakeup chan rest ret) htop rfl rfl rfl rfl (fun _ => List.Perm.refl _)

theorem Inv.kkill (h : Inv s) {p : Slot} {pid : BitVec 32} {rest : List Slot}
    (htop : s.top c = .kkill pid rest) (hx : s.exec c (kkill p pid rest) = some t) : Inv t := by
  cases rest with
  | nil =>
      exact h.plain hx (f := .code []) htop rfl rfl rfl rfl rfl rfl rfl (fun _ _ hu => by cases hu)
        (List.Perm.refl _)
  | cons q rest =>
      exact h.move hx (f := .kkillAt pid q rest) htop rfl rfl rfl rfl (List.Perm.refl _)

theorem Inv.kkillAt (h : Inv s) {p : Slot} {pid : BitVec 32} {q : Slot} {rest : List Slot}
    (htop : s.top c = .kkillAt pid q rest) (hx : s.exec c (kkillAt s p pid q rest) = some t) : Inv t := by
  unfold Sched.kkillAt at hx
  split at hx
  · by_cases hq : (s.proc q).state = .SLEEPING
    · refine h.other hx (f := .code []) htop rfl rfl rfl (fun _ hf => by cases hf) rfl rfl rfl rfl rfl
        (List.mem_cons_self ..) ?_ ?_ ?_ (fun _ => List.Perm.refl _)
      · rw [hq]
        decide
      · simp [ProcTable.Proc.kill, hq]
      · rw [hq]
        exact fun _ _ => Or.inl ⟨by decide, by decide⟩
    · refine h.plain hx (f := .code []) htop rfl rfl rfl rfl rfl rfl rfl ?_ (fun _ => List.Perm.refl _)
      intro q' v hu
      cases hu
      simp [ProcTable.Proc.kill, hq]
  · exact h.move hx (f := .kkill pid rest) htop rfl rfl rfl rfl (fun _ => List.Perm.refl _)

theorem Inv.allocproc (h : Inv s) {p : Slot} {rest : List Slot} (htop : s.top c = .allocproc rest)
    (hx : s.exec c (allocproc p rest) = some t) : Inv t := by
  cases rest with
  | nil =>
      exact h.plain hx (f := .code []) htop rfl rfl rfl rfl rfl rfl rfl (fun _ _ hu => by cases hu)
        (List.Perm.refl _)
  | cons q rest =>
      exact h.move hx (f := .allocprocAt q rest) htop rfl rfl rfl rfl (List.Perm.refl _)

theorem Inv.allocprocAt (h : Inv s) {p q : Slot} {rest : List Slot} (htop : s.top c = .allocprocAt q rest)
    (hx : s.exec c (allocprocAt s p q rest) = some t) : Inv t := by
  unfold Sched.allocprocAt at hx
  split at hx
  · rename_i hq
    refine h.other hx (f := .kfork .fill q s.nextpid) htop rfl rfl rfl (fun _ hf => (Option.some.inj hf).symm)
      rfl rfl rfl rfl rfl (List.mem_cons_self ..) ?_ ?_ (fun _ _ => Or.inr rfl) (List.Perm.refl _)
    · rw [hq]
      decide
    · simp
  · exact h.move hx (f := .allocproc rest) htop rfl rfl rfl rfl (fun _ => List.Perm.refl _)

theorem Inv.kfork (h : Inv s) {p np : Slot} {pid : BitVec 32} {ok : Bool} {pc : ForkPc}
    (htop : s.top c = .kfork pc np pid) (hused : (s.proc np).state = .USED)
    (hx : s.exec c (kfork s p np pid ok pc) = some t) : Inv t := by
  have hne : (s.proc np).state ≠ .RUNNING := by
    rw [hused]
    decide
  cases pc with
  | fill =>
      simp only [Sched.kfork] at hx
      split at hx
      · exact h.move hx (f := .kfork .unlock np pid) htop rfl rfl rfl rfl (List.Perm.refl _)
      · exact h.other hx (f := .code []) htop rfl rfl rfl (fun _ hf => by cases hf) rfl rfl rfl rfl rfl
          (List.mem_cons_self ..) hne (by simp [freeproc]) (fun hv => absurd rfl hv)
          (fun _ => List.Perm.refl _)
  | unlock =>
      exact h.move hx (f := .kfork .waitLock np pid) htop rfl rfl rfl rfl (fun _ => List.Perm.refl _)
  | waitLock => exact h.move hx (f := .kfork .parent np pid) htop rfl rfl rfl rfl (List.Perm.refl _)
  | parent =>
      refine h.plain hx (f := .kfork .lock np pid) htop rfl rfl rfl rfl rfl rfl rfl ?_
        (fun _ => List.Perm.refl _)
      intro q v hu
      cases hu
      rfl
  | lock => exact h.move hx (f := .kfork .run np pid) htop rfl rfl rfl rfl (List.Perm.refl _)
  | run =>
      refine h.other hx (f := .code []) htop rfl rfl rfl (fun _ hf => by cases hf) rfl rfl rfl rfl rfl
        (List.mem_cons_self ..) hne (by simp) ?_ (fun _ => List.Perm.refl _)
      rw [hused]
      exact fun _ _ => Or.inl ⟨by decide, by decide⟩

theorem Inv.kexit (h : Inv s) {p : Slot} {status : BitVec 32} {pc : ExitPc} (hon : s.on c = some p)
    (htop : s.top c = .kexit pc status) (he : kexit s p status pc = some e)
    (hx : s.exec c e = some t) : Inv t := by
  cases pc with
  | waitLock =>
      cases he
      exact h.move hx (f := .reparent status allSlots) htop rfl rfl rfl rfl (List.Perm.refl _)
  | parent =>
      cases he
      exact h.move hx htop rfl rfl rfl rfl (List.Perm.refl _)
  | lock =>
      cases he
      refine h.move hx (f := .kexit .zombie status) htop rfl rfl rfl rfl ?_
      rw [hon]
      exact List.Perm.refl _
  | zombie =>
      cases he
      exact h.leave hx (f := .kexit .unlock status) htop hon rfl rfl rfl rfl rfl rfl rfl rfl rfl
        (by simp [Frame.state]) (List.Perm.refl _)
  | unlock =>
      cases he
      refine h.move hx (f := .kexit .sched status) htop rfl rfl rfl rfl ?_
      rw [hon]
      exact fun _ => List.Perm.swap ..
  | sched =>
      cases he
      exact h.exec_sched hx (f := .kexit .done status) hon htop rfl rfl rfl
  | done => cases he

theorem Inv.reparent (h : Inv s) {p : Slot} {status : BitVec 32} {rest : List Slot}
    (htop : s.top c = .reparent status rest) (hx : s.exec c (reparent s p status rest) = some t) :
    Inv t := by
  cases rest with
  | nil => exact h.move hx (f := .kexit .parent status) htop rfl rfl rfl rfl (List.Perm.refl _)
  | cons pp rest =>
      simp only [Sched.reparent] at hx
      split at hx
      · refine h.plain hx htop rfl rfl rfl rfl rfl rfl rfl ?_ (List.Perm.refl _)
        intro q v hu
        cases hu
        rfl
      · exact h.move hx (f := .reparent status rest) htop rfl rfl rfl rfl (List.Perm.refl _)

theorem Inv.waitScan (h : Inv s) {p : Slot} {addr : Uint64} {rest : List Slot} {havekids : Bool}
    (htop : s.top c = .waitScan addr rest havekids)
    (hx : s.exec c (waitScan s p addr havekids rest) = some t) : Inv t := by
  cases rest with
  | nil =>
      simp only [Sched.waitScan] at hx
      split at hx
      · exact h.move hx (f := .waitKilled addr) htop rfl rfl rfl rfl (List.Perm.refl _)
      · exact h.move hx (f := .waitDone (-1)) htop rfl rfl rfl rfl (List.Perm.refl _)
  | cons q rest =>
      simp only [Sched.waitScan] at hx
      split at hx
      · exact h.move hx (f := .waitChild addr q rest) htop rfl rfl rfl rfl (List.Perm.refl _)
      · exact h.move hx (f := .waitScan addr rest havekids) htop rfl rfl rfl rfl (List.Perm.refl _)

theorem Inv.waitChild (h : Inv s) {p : Slot} {addr : Uint64} {q : Slot} {rest : List Slot} {ok : Bool}
    (htop : s.top c = .waitChild addr q rest) (hx : s.exec c (waitChild s p addr q rest ok) = some t) :
    Inv t := by
  unfold Sched.waitChild at hx
  split at hx
  · rename_i hq
    split at hx
    · exact h.move hx (f := .waitDone (-1)) htop rfl rfl rfl rfl (fun _ => List.Perm.refl _)
    · refine h.other hx (f := .waitDone (s.proc q).pid) htop rfl rfl rfl (fun _ hf => by cases hf) rfl rfl rfl
        rfl rfl (List.mem_cons_self ..) ?_ (by simp [freeproc]) (fun hv => absurd rfl hv)
        (fun _ => List.Perm.refl _)
      rw [hq]
      decide
  · exact h.move hx (f := .waitScan addr rest true) htop rfl rfl rfl rfl (fun _ => List.Perm.refl _)

theorem Inv.waitKilledAt (h : Inv s) {p : Slot} {addr : Uint64} (htop : s.top c = .waitKilledAt addr)
    (hon : s.on c = some p) (hx : s.exec c (waitKilledAt s p addr) = some t) : Inv t := by
  unfold Sched.waitKilledAt at hx
  split at hx
  · refine h.move hx (f := .waitDone (-1)) htop rfl rfl rfl rfl ?_
    rw [hon]
    exact fun _ => List.Perm.refl _
  · refine h.move hx (f := .sleep .lock (.proc p) .waitLock (.kwait addr)) htop rfl rfl rfl rfl ?_
    rw [hon]
    exact fun _ => List.Perm.refl _

/-! ## The scheduler -/

omit [DecidableEq C] [DecidableEq L] in
/-- The thread of a scheduler that is at a frame of `scheduler`. -/
theorem Inv.apply_sched (h : Inv s) {g f : Frame L} (htop : s.top c = g) (hg : g.kind = .sched) :
    s.on c = none ∧ (s.scheduler c).base = g ∧
      ((Next.top f).apply (s.scheduler c)).base = f := by
  obtain ⟨hon, hintr, hbase⟩ := h.on_of_sched (by rw [htop, hg])
  refine ⟨hon, hbase.trans htop, ?_⟩
  unfold Next.apply
  rw [hintr]
  rfl

theorem Inv.schedAt (h : Inv s) {p : Slot} {rest : List Slot} (htop : s.top c = .schedAt p rest)
    (hx : s.exec c (schedAt s p rest) = some t) : Inv t := by
  unfold Sched.schedAt at hx
  split at hx
  · rename_i hp
    obtain ⟨hon, hbase, hnext⟩ := h.apply_sched (f := .schedSwtch p rest) htop rfl
    -- p->lock is held here and p is RUNNABLE: no core runs it
    have hoff : ∀ c', s.cpuProc c' ≠ some p := by
      refine h.off_cpu (c := c) ?_ (by rw [hp]; decide) (by rw [htop]; rfl) (by rw [htop]; rfl)
      rw [State.held, htop]
      exact List.mem_singleton_self _
    refine h.exec_top ?_ hx htop rfl (List.Perm.refl _)
    constructor
    case push =>
      intro g hg
      cases hg
    case pop =>
      intro hpop
      cases hpop
    case kind =>
      intro g hg
      cases hg
      rw [htop]
      rfl
    case back =>
      intro p' rest' hb
      cases hb
    case swtch =>
      intro p' rest' hs
      cases hs
      rw [table_of_upd rfl]
    case cpu =>
      intro p' hon'
      rw [hon] at hon'
      cases hon'
    case cpu_sched =>
      intro _
      exact (congrArg Frame.target hnext).symm
    case taken =>
      intro p' hp'
      cases hp'
      refine ⟨?_, hoff⟩
      rw [h.cpu, hbase]
      rfl
    case dropped =>
      intro hnone
      cases hnone
    case mine =>
      intro p' hon'
      rw [hon] at hon'
      cases hon'
    case upd =>
      intro q v hu
      cases hu
      exact Or.inr (Or.inr hoff)
    case runs =>
      intro q v hu _
      cases hu
      exact Or.inr rfl
    case wakes =>
      intro q v hu _ _
      cases hu
      rw [hp]
      exact Or.inl ⟨by decide, by decide⟩
    case fresh =>
      intro q hq
      cases hq
  · exact h.move hx (f := .scheduler rest) htop rfl rfl rfl rfl (fun _ => List.Perm.refl _)

theorem Inv.schedBack (h : Inv s) {p : Slot} {rest : List Slot} (htop : s.top c = .schedBack p rest)
    (hx : s.exec c (schedBack p rest) = some t) : Inv t := by
  obtain ⟨hon, hbase, hnext⟩ := h.apply_sched (f := .schedDone p rest) htop rfl
  refine h.exec_top ?_ hx htop rfl (List.Perm.refl _)
  constructor
  case push =>
    intro g hg
    cases hg
  case pop =>
    intro hpop
    cases hpop
  case kind =>
    intro g hg
    cases hg
    rw [htop]
    rfl
  case back =>
    intro p' rest' hb
    cases hb
  case swtch =>
    intro p' rest' hs
    cases hs
  case cpu =>
    intro p' hon'
    rw [hon] at hon'
    cases hon'
  case cpu_sched =>
    intro _
    exact (congrArg Frame.target hnext).symm
  case taken =>
    intro p' hp'
    cases hp'
  case dropped =>
    intro _
    refine ⟨rfl, fun p' hp' => ?_⟩
    rw [h.cpu, hbase] at hp'
    cases hp'
    exact h.back c p rest hon hbase
  case mine =>
    intro p' hon'
    rw [hon] at hon'
    cases hon'
  case upd =>
    intro q v hu
    cases hu
  case runs =>
    intro q v hu
    cases hu
  case wakes =>
    intro q v hu
    cases hu
  case fresh =>
    intro q hq
    cases hq

theorem Inv.scheduler (h : Inv s) {rest : List Slot} (htop : s.top c = .scheduler rest)
    (hx : s.exec c (scheduler rest) = some t) : Inv t := by
  cases rest with
  | nil => exact h.move hx (f := .scheduler allSlots) htop rfl rfl rfl rfl (List.Perm.refl _)
  | cons p rest => exact h.move hx (f := .schedAt p rest) htop rfl rfl rfl rfl (List.Perm.refl _)

/-! ## All steps -/

theorem Inv.row (h : Inv s) (hcalls : Calls s) {ok : Bool} (hr : row s c ok (s.top c) = some e)
    (hx : s.exec c e = some t) : Inv t := by
  cases htop : s.top c with
  | code locks =>
      rw [htop] at hr
      cases hr
  | forkret =>
      rw [htop] at hr
      obtain ⟨p, hp, rfl⟩ := Option.map_eq_some_iff.1 hr
      exact h.forkret htop (h.on_of_frame (by rw [htop]; simp [Frame.kind]) hp) hx
  | yield pc =>
      rw [htop] at hr
      obtain ⟨p, hp, rfl⟩ := Option.map_eq_some_iff.1 hr
      exact h.yield htop (h.on_of_frame (by rw [htop]; simp [Frame.kind]) hp) hx
  | sleep pc chan lk ret =>
      rw [htop] at hr
      obtain ⟨p, hp, rfl⟩ := Option.map_eq_some_iff.1 hr
      -- a frame that asks for myproc() runs on the kernel stack of that process
      have hon := h.on_of_frame (by rw [htop]; simp [Frame.kind]) hp
      refine h.sleep htop hon (fun addr hret => ?_) hx
      subst hret
      -- the lock that sleep() took from wait() is wait_lock
      exact (hcalls.sleep p pc chan lk addr (hcalls.base_of_on hon htop rfl)).2
  | wakeup chan rest ret =>
      rw [htop] at hr
      obtain rfl := Option.some.inj hr
      exact h.wakeup htop hx
  | wakeupAt chan q rest ret =>
      rw [htop] at hr
      obtain rfl := Option.some.inj hr
      exact h.wakeupAt htop hx
  | kkill pid rest =>
      rw [htop] at hr
      obtain ⟨p, -, rfl⟩ := Option.map_eq_some_iff.1 hr
      exact h.kkill htop hx
  | kkillAt pid q rest =>
      rw [htop] at hr
      obtain ⟨p, -, rfl⟩ := Option.map_eq_some_iff.1 hr
      exact h.kkillAt htop hx
  | allocproc rest =>
      rw [htop] at hr
      obtain ⟨p, -, rfl⟩ := Option.map_eq_some_iff.1 hr
      exact h.allocproc htop hx
  | allocprocAt q rest =>
      rw [htop] at hr
      obtain ⟨p, -, rfl⟩ := Option.map_eq_some_iff.1 hr
      exact h.allocprocAt htop hx
  | kfork pc np pid =>
      rw [htop] at hr
      obtain ⟨p, hp, rfl⟩ := Option.map_eq_some_iff.1 hr
      have hon := h.on_of_frame (by rw [htop]; simp [Frame.kind]) hp
      exact h.kfork htop (hcalls.child p pc np pid (hcalls.base_of_on hon htop rfl)).1 hx
  | kexit pc status =>
      rw [htop] at hr
      obtain ⟨p, hp, he⟩ := Option.bind_eq_some_iff.1 hr
      exact h.kexit (h.on_of_frame (by rw [htop]; simp [Frame.kind]) hp) htop he hx
  | reparent status rest =>
      rw [htop] at hr
      obtain ⟨p, -, rfl⟩ := Option.map_eq_some_iff.1 hr
      exact h.reparent htop hx
  | kwait addr =>
      rw [htop] at hr
      obtain rfl := Option.some.inj hr
      exact h.move hx (f := .waitScan addr allSlots false) htop rfl rfl rfl rfl (List.Perm.refl _)
  | waitScan addr rest havekids =>
      rw [htop] at hr
      obtain ⟨p, -, rfl⟩ := Option.map_eq_some_iff.1 hr
      exact h.waitScan htop hx
  | waitChild addr q rest =>
      rw [htop] at hr
      obtain ⟨p, -, rfl⟩ := Option.map_eq_some_iff.1 hr
      exact h.waitChild htop hx
  | waitKilled addr =>
      rw [htop] at hr
      obtain ⟨p, hp, rfl⟩ := Option.map_eq_some_iff.1 hr
      have hon := h.on_of_frame (by rw [htop]; simp [Frame.kind]) hp
      refine h.move hx (f := .waitKilledAt addr) htop rfl rfl rfl rfl ?_
      rw [hon]
      exact List.Perm.refl _
  | waitKilledAt addr =>
      rw [htop] at hr
      obtain ⟨p, hp, rfl⟩ := Option.map_eq_some_iff.1 hr
      exact h.waitKilledAt htop (h.on_of_frame (by rw [htop]; simp [Frame.kind]) hp) hx
  | waitDone v =>
      rw [htop] at hr
      obtain ⟨p, -, rfl⟩ := Option.map_eq_some_iff.1 hr
      exact h.plain hx (f := .code []) htop rfl rfl rfl rfl rfl rfl rfl (fun _ _ hu => by cases hu)
        fun _ => List.Perm.refl _
  | scheduler rest =>
      rw [htop] at hr
      obtain rfl := Option.some.inj hr
      exact h.scheduler htop hx
  | schedAt p rest =>
      rw [htop] at hr
      obtain rfl := Option.some.inj hr
      exact h.schedAt htop hx
  | schedSwtch p rest =>
      rw [htop] at hr
      obtain rfl := Option.some.inj hr
      rw [← Option.some.inj hx]
      exact h.toProc htop
  | schedBack p rest =>
      rw [htop] at hr
      obtain rfl := Option.some.inj hr
      exact h.schedBack htop hx
  | schedDone p rest =>
      rw [htop] at hr
      obtain rfl := Option.some.inj hr
      exact h.move hx (f := .scheduler rest) htop rfl rfl rfl rfl fun _ => List.Perm.refl _

theorem Inv.codeRow (h : Inv s) {locks : List (CondLock L)} {a : Act L} (htop : s.top c = .code locks)
    (hr : codeRow s c locks a = some e) (hx : s.exec c e = some t) : Inv t := by
  cases a with
  | acquire l =>
      obtain rfl := Option.some.inj hr
      exact h.move hx (f := .code (.other l :: locks)) htop rfl rfl rfl rfl (List.Perm.refl _)
  | release l =>
      obtain rfl := Option.some.inj hr
      refine h.move hx (f := .code (locks.erase (.other l))) htop rfl rfl rfl rfl fun hin => ?_
      have hmem : .other l ∈ locks := by simpa [Frame.holds] using hin
      exact (List.perm_cons_erase hmem).map Lock.cond
  | sleep chan lk =>
      obtain ⟨⟨hlk, -⟩, ⟨⟩⟩ := Option.ite_none_right_eq_some.1 hr
      refine h.move hx (f := .sleep .lock chan lk (.code (locks.erase lk))) htop rfl rfl rfl rfl ?_
      exact (List.perm_cons_erase hlk).map Lock.cond
  | wakeup chan =>
      obtain rfl := Option.some.inj hr
      exact h.move hx (f := .wakeup (some chan) allSlots (.code locks)) htop rfl rfl rfl rfl (List.Perm.refl _)
  | kfork =>
      obtain ⟨⟨rfl, -⟩, ⟨⟩⟩ := Option.ite_none_right_eq_some.1 hr
      exact h.move hx (f := .allocproc allSlots) htop rfl rfl rfl rfl (List.Perm.refl _)
  | kexit status =>
      obtain ⟨⟨rfl, -⟩, he⟩ := Option.ite_none_right_eq_some.1 hr
      obtain ⟨p, -, he⟩ := Option.bind_eq_some_iff.1 he
      obtain ⟨-, ⟨⟩⟩ := Option.ite_none_left_eq_some.1 he
      exact h.plain hx (f := .kexit .waitLock status) htop rfl rfl rfl rfl rfl rfl rfl
        (fun _ _ hu => by cases hu) (List.Perm.refl _)
  | kwait addr =>
      obtain ⟨⟨rfl, -⟩, ⟨⟩⟩ := Option.ite_none_right_eq_some.1 hr
      exact h.move hx (f := .kwait addr) htop rfl rfl rfl rfl (List.Perm.refl _)
  | kkill pid =>
      obtain ⟨⟨rfl, -⟩, ⟨⟩⟩ := Option.ite_none_right_eq_some.1 hr
      exact h.move hx (f := .kkill pid allSlots) htop rfl rfl rfl rfl (List.Perm.refl _)
  | _ => cases hr

theorem Inv.intrRow (h : Inv s) {a : Act L} (hr : intrRow s c a = some e) (hx : s.exec c e = some t) :
    Inv t := by
  obtain ⟨hupd, hcpu, hfresh, -, -⟩ := intrRow_idle hr
  obtain ⟨hop, ⟨hn, hi⟩ | ⟨hi, hnoff, hn⟩⟩ := intrRow_next hr
  · have htop : s.top c = .code [] := by
      rw [State.top, Thread.top, hi]
      rfl
    refine h.exec (Fits.of_pop h hn hcpu hupd hfresh (by rw [htop]; simp [Frame.kind]) (by rw [htop]; rfl))
      ?_ hx
    rw [hop, hn, h.pop_holds hi, State.held, htop]
    exact List.Perm.refl _
  · -- no lock is held: `noff` is zero
    have hheld : s.held c = [] := by
      have hcount := h.locks.count c
      rw [hnoff] at hcount
      exact List.length_eq_zero_iff.1 hcount.symm
    have hpush : ∀ g : Frame L, g.kind ≠ .sched → g.state = .RUNNING → g.holds (s.on c) = [] →
        e.next = .push g → Inv t := by
      intro g hkind hstate hnone hng
      refine h.exec (Fits.of_push h hng hcpu hupd hfresh hkind hstate hheld hi) ?_ hx
      rw [hop, hng, Next.apply_push, hheld, hnone]
      exact List.Perm.refl _
    rcases hn with hn | hn
    · exact hpush _ (by simp [Frame.kind]) rfl rfl hn
    · exact hpush _ (by simp [Frame.kind]) rfl rfl hn

variable {l : Label C L}

theorem Inv.step (h : Inv s) (hcalls : Calls s) (hs : step s l = some t) : Inv t := by
  obtain ⟨-, e, he, hx⟩ := step_cases hs
  rcases effect_cases he with ⟨ok, hr⟩ | ⟨locks, htop, hr⟩ | hr
  · exact h.row hcalls hr hx
  · exact h.codeRow htop hr hx
  · exact h.intrRow hr hx

end Xv6.Sched
