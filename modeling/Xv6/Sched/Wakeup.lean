import Xv6.Sched.Exclusive

set_option autoImplicit false

/-! # No lost wakeup

A process that calls `sleep` has its own lock from before it lets `lk` go until it is switched away. So
whoever holds `lk` afterwards and scans the table finds it asleep, and a `wakeup` that has passed a slot
has nobody asleep there as long as its caller has `lk`. -/

namespace Xv6.Sched

open Xv6.Lib
open Xv6.ProcTable (ProcState Chan Proc Table initproc freeproc)

variable {C L : Type} {s t : State C L} {l : Label C L} {c : C} {e : Effect L} {p : Slot}
  {chan : Chan} {lk : CondLock L}

/-- `p` sleeps in a call of `sleep(chan, lk)`. -/
def Asleep (s : State C L) (p : Slot) (chan : Chan) (lk : CondLock L) : Prop :=
  (s.proc p).state = .SLEEPING ∧ ∃ pc ret, (s.thread p).top = .sleep pc chan lk ret

/-- `p` has let `lk` go in a call of `sleep(chan, lk)`, and has not been woken up. -/
def Pending (s : State C L) (p : Slot) (chan : Chan) (lk : CondLock L) : Prop :=
  (∃ ret, (s.thread p).top = .sleep .switch chan lk ret) ∨ Asleep s p chan lk

/-- The channel of a `wakeup`, and the slots that it has still to look at. -/
def Frame.scan : Frame L → Option (Option Chan × List Slot)
  | .wakeup chan rest _ => some (chan, rest)
  | .wakeupAt chan q rest _ => some (chan, q :: rest)
  | _ => none

structure Sleepers (s : State C L) : Prop where
  asleep : ∀ p, (s.proc p).state = .SLEEPING →
    ∃ pc chan lk ret, (s.thread p).top = .sleep pc chan lk ret ∧ (s.proc p).chan = some chan
  switch : ∀ p chan lk ret, (s.thread p).top = .sleep .switch chan lk ret → ∃ c, s.on c = some p
  scan : ∀ c chan rest lk, (s.top c).scan = some (some chan, rest) → s.holder (.cond lk) = some c →
    ∀ p, Pending s p chan lk → p ∈ rest

/-! ## Threads after a step -/

theorem sleeping_frame {f : Frame L} (h : f.state = .SLEEPING) :
    ∃ chan lk ret, f = .sleep .sched chan lk ret := by
  cases f with
  | sleep pc chan lk ret =>
      cases pc with
      | sched => exact ⟨chan, lk, ret, rfl⟩
      | _ => cases h
  | yield pc => cases pc <;> cases h
  | kexit pc status => cases pc <;> cases h
  | _ => cases h

variable [DecidableEq C] [DecidableEq L]

omit [DecidableEq L] in
theorem Executed.thread_self (hex : Executed s c e t) (hon : s.on c = some p) :
    t.thread p = e.next.apply (s.thread p) := by
  rw [hex.thread, commit_thread, if_pos hon]

omit [DecidableEq L] in
theorem Executed.thread_other (hex : Executed s c e t) (hon : s.on c ≠ some p) :
    t.thread p = s.thread p ∨ e.fresh = some p ∧ t.thread p = ⟨.forkret, none⟩ := by
  rw [hex.thread, commit_thread, if_neg hon]
  by_cases hfresh : e.fresh = some p
  · rw [if_pos hfresh]
    exact Or.inr ⟨hfresh, rfl⟩
  · rw [if_neg hfresh]
    exact Or.inl rfl

omit [DecidableEq L] in
theorem Executed.on_of_ne (hex : Executed s c e t) {c' : C} (hc : c' ≠ c) : t.on c' = s.on c' := by
  rcases hex.on with hon | ⟨q, -, hon⟩ | ⟨-, -, hon⟩ <;> rw [hon]
  · exact Function.update_of_ne hc ..
  · exact Function.update_of_ne hc ..

omit [DecidableEq C] in
/-- The thread of a process that is executed is not made anew. -/
theorem Inv.not_fresh (h : Inv s) (he : effect s l = some e) {c' : C} (hon : s.on c' = some p) :
    e.fresh ≠ some p := by
  intro hfresh
  obtain ⟨-, -, hunused, -⟩ := effect_fresh he hfresh
  rw [h.state c' p hon] at hunused
  exact (Frame.state_alive _).1 hunused

theorem Executed.top_of_ne (h : Inv s) (he : effect s l = some e) (hex : Executed s l.cpu e t) {c' : C}
    (hc : c' ≠ l.cpu) : t.top c' = s.top c' := by
  unfold State.top State.current
  rw [hex.on_of_ne hc]
  cases hon : s.on c' with
  | some p =>
      have hne : s.on l.cpu ≠ some p := fun hon' => hc (h.on_unique hon hon')
      rcases hex.thread_other hne with hsame | ⟨hfresh, -⟩
      · simp only [hsame]
      · exact absurd hfresh (h.not_fresh he hon)
  | none =>
      simp only [hex.scheduler, commit_scheduler_of_ne hc]

omit [DecidableEq L] in
/-- A CPU that does not switch goes on with its thread. -/
theorem Executed.top_self (hex : Executed s c e t) (hon : t.on c = s.on c) :
    t.top c = (e.next.apply (s.current c)).top := by
  unfold State.top State.current
  rw [hon]
  cases hon' : s.on c with
  | some p => simp only [hex.thread_self hon']
  | none => simp only [hex.scheduler, commit_scheduler_self, hon', if_true]

omit [DecidableEq C] in
/-- A frame that is not other code goes on, or is interrupted. -/
theorem effect_frame {f : Frame L} (he : effect s l = some e) (htop : s.top l.cpu = f)
    (hf : f.fn ≠ .code) : (∃ ok, row s l.cpu ok f = some e) ∨ ((s.current l.cpu).intr = none ∧
      s.noff l.cpu = 0 ∧ Idle e ∧ ∃ g, e.next = .push g) := by
  rcases effect_cases he with ⟨ok, hr⟩ | ⟨locks, hcode, -⟩ | hr
  · rw [htop] at hr
    exact Or.inl ⟨ok, hr⟩
  · rw [htop] at hcode
    rw [hcode] at hf
    exact absurd rfl hf
  · rcases (intrRow_next hr).2 with ⟨-, hi⟩ | ⟨hi, hnoff, hn | hn⟩
    · rw [State.top, Thread.top, hi] at htop
      rw [← htop] at hf
      exact absurd rfl hf
    · exact Or.inr ⟨hi, hnoff, intrRow_idle hr, _, hn⟩
    · exact Or.inr ⟨hi, hnoff, intrRow_idle hr, _, hn⟩

omit [DecidableEq C] in
/-- A CPU with a lock is not interrupted. -/
theorem Inv.row_of_held {f : Frame L} (h : Inv s) (he : effect s l = some e) (htop : s.top l.cpu = f)
    (hf : f.fn ≠ .code) (hheld : f.holds (s.on l.cpu) ≠ []) : ∃ ok, Sched.row s l.cpu ok f = some e := by
  rcases effect_frame he htop hf with hr | ⟨-, hnoff, -, -⟩
  · exact hr
  · exfalso
    have hcount := h.locks.count l.cpu
    rw [hnoff, State.held, htop] at hcount
    exact hheld (List.length_eq_zero_iff.1 hcount.symm)

omit [DecidableEq C] in
/-- A process that is asleep and still executed is at `sched`. -/
theorem Inv.sleeping_on (h : Inv s) (he : effect s l = some e) (hon : s.on l.cpu = some p)
    (hp : (s.proc p).state = .SLEEPING) : ∃ chan lk ret, (s.thread p).top = .sleep .sched chan lk ret ∧
      e = .sched (.sleep .woken chan lk ret) := by
  have hstate := h.state l.cpu p hon
  rw [hp] at hstate
  obtain ⟨chan, lk, ret, htop⟩ := sleeping_frame hstate.symm
  have htop' : s.top l.cpu = .sleep .sched chan lk ret := by
    rw [State.top, State.current_of_on hon, htop]
  obtain ⟨ok, hr⟩ := h.row_of_held he htop' (by simp [Frame.fn]) (by rw [hon]; simp [Frame.holds, own])
  obtain ⟨p', -, rfl⟩ := Option.map_eq_some_iff.1 hr
  exact ⟨chan, lk, ret, htop, rfl⟩

/-! ## Who sleeps -/

/-- A process that was asleep stays in its `sleep`. -/
theorem Inv.asleep_thread (h : Inv s) (he : effect s l = some e) (hex : Executed s l.cpu e t)
    (hp : (s.proc p).state = .SLEEPING) {pc : SleepPc} {ret : SleepRet L}
    (htop : (s.thread p).top = .sleep pc chan lk ret) :
    ∃ pc', (t.thread p).top = .sleep pc' chan lk ret := by
  by_cases hon : s.on l.cpu = some p
  · obtain ⟨chan', lk', ret', htop', rfl⟩ := h.sleeping_on he hon hp
    rw [htop'] at htop
    cases htop
    refine ⟨.woken, ?_⟩
    rw [hex.thread_self hon]
    exact Next.apply_top ..
  · rcases hex.thread_other hon with hsame | ⟨hfresh, -⟩
    · rw [hsame]
      exact ⟨pc, htop⟩
    · obtain ⟨-, -, hunused, -⟩ := effect_fresh he hfresh
      rw [hp] at hunused
      cases hunused

omit [DecidableEq C] [DecidableEq L] in
/-- A process falls asleep by its own step. -/
theorem Change.sleeping {me : Option Slot} {f : Frame L} {v : Proc} (hc : Change s me f p v)
    (hv : v.state = .SLEEPING) : (∃ chan lk ret, me = some p ∧ f = .sleep .switch chan lk ret ∧
      v.chan = some chan) ∨ (s.proc p).state = .SLEEPING ∧
      (v.chan = (s.proc p).chan ∨ me = some p ∧ ∃ chan lk ret, f = .sleep .woken chan lk ret) := by
  cases hc with
  | sleep hme => exact Or.inl ⟨_, _, _, hme, rfl, rfl⟩
  | woken hme => exact Or.inr ⟨hv, Or.inr ⟨hme, _, _, _, rfl⟩⟩
  | kkill =>
      by_cases hs : (s.proc p).state = .SLEEPING
      · simp [ProcTable.Proc.kill, hs] at hv
      · simp [ProcTable.Proc.kill, hs] at hv
  | parent => exact Or.inr ⟨hv, Or.inl rfl⟩
  | reparent => exact Or.inr ⟨hv, Or.inl rfl⟩
  | _ => cases hv

/-- Who sleeps after a step slept before, or has just gone to sleep. -/
theorem Inv.sleeping_step (h : Inv s) (he : effect s l = some e) (hex : Executed s l.cpu e t)
    (hp : (t.proc p).state = .SLEEPING) :
    ((s.proc p).state = .SLEEPING ∧ (t.proc p).chan = (s.proc p).chan) ∨
    ∃ chan lk ret, s.on l.cpu = some p ∧ (s.thread p).top = .sleep .switch chan lk ret ∧
      (t.thread p).top = .sleep .sched chan lk ret ∧ (t.proc p).chan = some chan := by
  rw [hex.proc] at hp ⊢
  rcases table_eq_or e s.proc p with hold | ⟨v, hu, hnew⟩
  · rw [hold] at hp ⊢
    exact Or.inl ⟨hp, rfl⟩
  · rw [hnew] at hp ⊢
    rcases (effect_upd he hu).sleeping hp with ⟨chan, lk, ret, hme, htop, hchan⟩ |
      ⟨hold, hsame | ⟨hme, chan, lk, ret, htop⟩⟩
    · have hon := h.on_of_frame (by rw [htop]; simp [Frame.kind]) hme
      obtain ⟨ok, hr⟩ := h.row_of_held he htop (by simp [Frame.fn]) (by rw [hon]; simp [Frame.holds, own])
      obtain ⟨p', -, rfl⟩ := Option.map_eq_some_iff.1 hr
      rw [State.top, State.current_of_on hon] at htop
      refine Or.inr ⟨chan, lk, ret, hon, htop, ?_, hchan⟩
      rw [hex.thread_self hon]
      exact Next.apply_top ..
    · exact Or.inl ⟨hold, hsame⟩
    · exfalso
      have hon := h.on_of_frame (by rw [htop]; simp [Frame.kind]) hme
      rw [h.state l.cpu p hon, ← State.current_of_on hon] at hold
      rw [show (s.current l.cpu).top = _ from htop] at hold
      cases hold

omit [DecidableEq C] in
/-- After a step without a `swtch`, a thread is at its next frame, at an interrupt, or back at a frame
    without a lock. -/
theorem Inv.next_cases (h : Inv s) (he : effect s l = some e) :
    (∃ g, e.next = .top g) ∨
    (s.noff l.cpu = 0 ∧ (e.next = .push (.code []) ∨ e.next = .push (.yield .lock))) ∨
    e.next = .pop ∧ (s.current l.cpu).base.holds (s.on l.cpu) = [] := by
  rcases effect_cases he with ⟨ok, hr⟩ | ⟨locks, hcode, hr⟩ | hr
  · rcases (row_rest hr).next with hn | ⟨htop, hn⟩
    · exact Or.inl hn
    · rw [htop] at hr
      obtain ⟨p, hp, -⟩ := Option.map_eq_some_iff.1 hr
      have hon := h.on_of_frame (by rw [htop]; simp [Frame.kind]) hp
      exact Or.inr (Or.inr ⟨hn, h.pop_holds (h.yield_intr htop hon)⟩)
  · exact Or.inl (codeRow_idle hr).2
  · rcases (intrRow_next hr).2 with ⟨hn, hi⟩ | ⟨-, hnoff, hn⟩
    · exact Or.inr (Or.inr ⟨hn, h.pop_holds hi⟩)
    · exact Or.inr (Or.inl ⟨hnoff, hn⟩)

omit [DecidableEq C] in
/-- Where a frame of `sleep` comes from. -/
theorem effect_sleep (he : effect s l = some e) {pc : SleepPc} {ret : SleepRet L}
    (hn : e.next = .top (.sleep pc chan lk ret)) :
    (∃ pc', s.top l.cpu = .sleep pc' chan lk ret ∧ pc'.next = some pc) ∨ pc = .lock := by
  rcases effect_cases he with ⟨ok, hr⟩ | ⟨locks, -, hr⟩ | hr
  · rcases row_sleep hr hn with hprev | ⟨hpc, -⟩
    · exact Or.inl hprev
    · exact Or.inr hpc
  · exact Or.inr ((codeRow_call hr hn).2.1 _ _ _ _ rfl).1
  · exact absurd hn (intrRow_not_top hr _)

/-- A process comes to the point where it has let `lk` go by doing so. -/
theorem Inv.switch_step (h : Inv s) (he : effect s l = some e) (hex : Executed s l.cpu e t)
    {ret : SleepRet L} (htop : (t.thread p).top = .sleep .switch chan lk ret) :
    (s.thread p).top = .sleep .switch chan lk ret ∧ s.on l.cpu ≠ some p ∨
    s.on l.cpu = some p ∧ s.top l.cpu = .sleep .release chan lk ret ∧ e.op = .release (.cond lk) := by
  by_cases hon : s.on l.cpu = some p
  · rw [hex.thread_self hon] at htop
    rcases h.next_cases he with ⟨g, hn⟩ | ⟨-, hn | hn⟩ | ⟨hn, hbase⟩
    · rw [hn, Next.apply_top] at htop
      subst htop
      rcases effect_sleep he hn with ⟨pc', hprev, hnext⟩ | hlock
      · have hpc : pc' = .release := by cases pc' <;> cases hnext; rfl
        subst hpc
        obtain ⟨ok, hr⟩ := h.row_of_held he hprev (by simp [Frame.fn]) (by rw [hon]; simp [Frame.holds, own])
        obtain ⟨p', -, rfl⟩ := Option.map_eq_some_iff.1 hr
        exact Or.inr ⟨hon, hprev, rfl⟩
      · cases hlock
    · rw [hn, Next.apply_push] at htop
      cases htop
    · rw [hn, Next.apply_push] at htop
      cases htop
    · rw [hn, Next.apply_pop] at htop
      rw [State.current_of_on hon, htop, hon] at hbase
      cases hbase
  · rcases hex.thread_other hon with hsame | ⟨-, hnew⟩
    · rw [hsame] at htop
      exact Or.inl ⟨htop, hon⟩
    · rw [hnew] at htop
      cases htop

/-- Who is pending after a step was so before, or has just let `lk` go. -/
theorem Sleepers.pending_step (hs : Sleepers s) (h : Inv s) (he : effect s l = some e)
    (hex : Executed s l.cpu e t) (hp : Pending t p chan lk) : Pending s p chan lk ∨
      (∃ ret, s.top l.cpu = .sleep .release chan lk ret) ∧ e.op = .release (.cond lk) := by
  rcases hp with ⟨ret, htop⟩ | ⟨hstate, pc, ret, htop⟩
  · rcases h.switch_step he hex htop with ⟨hold, -⟩ | ⟨-, hprev, hop⟩
    · exact Or.inl (Or.inl ⟨ret, hold⟩)
    · exact Or.inr ⟨⟨ret, hprev⟩, hop⟩
  · rcases h.sleeping_step he hex hstate with ⟨hold, -⟩ | ⟨chan', lk', ret', -, hprev, hnow, -⟩
    · -- the thread is in the call of `sleep` that it was in
      obtain ⟨pc₀, chan₀, lk₀, ret₀, hprev, -⟩ := hs.asleep p hold
      obtain ⟨pc₁, hnow⟩ := h.asleep_thread he hex hold hprev
      rw [htop] at hnow
      cases hnow
      exact Or.inl (Or.inr ⟨hold, pc₀, _, hprev⟩)
    · rw [htop] at hnow
      cases hnow
      exact Or.inl (Or.inl ⟨_, hprev⟩)

/-! ## What a `wakeup` has passed -/

omit [DecidableEq C] in
/-- A `wakeup` goes on to the next slot when it has looked at one, or when the slot is its own. -/
theorem effect_scan (he : effect s l = some e) {g : Frame L} (hn : e.next = .top g)
    {chan : Option Chan} {rest : List Slot} (hscan : g.scan = some (chan, rest)) : rest = allSlots ∨
      ∃ rest', (s.top l.cpu).scan = some (chan, rest') ∧ (∀ lk, e.op ≠ .acquire (.cond lk)) ∧
        ∀ p ∈ rest', p ∈ rest ∨ s.cpuProc l.cpu = some p ∨
          ∃ rest ret, s.top l.cpu = .wakeupAt chan p rest ret ∧ e = wakeupAt s chan p rest ret := by
  cases g with
  | wakeup chan' rest' ret =>
      cases hscan
      rcases effect_cases he with ⟨ok, hr⟩ | ⟨locks, -, hr⟩ | hr
      · rcases row_wakeup hr hn with hall | ⟨q, hf, hq, hop⟩ | ⟨q, hf, rfl⟩
        · exact Or.inl hall
        · rw [hf, hop]
          refine Or.inr ⟨_, rfl, by simp, fun p hp => ?_⟩
          rcases List.mem_cons.1 hp with rfl | hp
          · exact Or.inr (Or.inl hq)
          · exact Or.inl hp
        · have hop : (wakeupAt s chan q rest ret).op = .release (.proc q) := by
            unfold wakeupAt
            split <;> rfl
          rw [hf, hop]
          refine Or.inr ⟨_, rfl, by simp, fun p hp => ?_⟩
          rcases List.mem_cons.1 hp with rfl | hp
          · exact Or.inr (Or.inr ⟨rest, ret, rfl, rfl⟩)
          · exact Or.inl hp
      · exact Or.inl ((codeRow_call hr hn).2.2 _ _ _ rfl).1
      · exact absurd hn (intrRow_not_top hr _)
  | wakeupAt chan' q rest' ret =>
      cases hscan
      rcases effect_cases he with ⟨ok, hr⟩ | ⟨locks, -, hr⟩ | hr
      · obtain ⟨hf, hop⟩ := row_wakeupAt hr hn
        rw [hf, hop]
        exact Or.inr ⟨_, rfl, by simp, fun p hp => Or.inl hp⟩
      · exact absurd rfl (codeRow_call hr hn).1
      · exact absurd hn (intrRow_not_top hr _)
  | _ => cases hscan

omit [DecidableEq L] in
/-- The slot that `wakeup` has looked at is not asleep on its channel. -/
theorem Sleepers.passed (hs : Sleepers s) (h : Inv s) (hex : Executed s l.cpu e t)
    {rest : List Slot} {ret : WakeRet L} (htop : s.top l.cpu = .wakeupAt (some chan) p rest ret)
    (he : e = wakeupAt s (some chan) p rest ret) (hold : Pending s p chan lk) : ¬ Asleep t p chan lk ∧
      ∀ ret, (s.thread p).top ≠ .sleep .switch chan lk ret := by
  constructor
  · rintro ⟨hstate, -⟩
    rw [hex.proc, he] at hstate
    by_cases hp : (s.proc p).state = .SLEEPING
    · obtain ⟨pc, chan', lk', ret', hframe, hchan⟩ := hs.asleep p hp
      have hsame : chan' = chan := by
        rcases hold with ⟨_, hframe'⟩ | ⟨-, _, _, hframe'⟩ <;> rw [hframe] at hframe' <;> cases hframe' <;> rfl
      rw [hsame] at hchan
      have hwake : (wakeupAt s (some chan) p rest ret).upd =
          some (p, { s.proc p with state := .RUNNABLE }) := by
        unfold wakeupAt
        rw [if_pos ⟨hp, hchan⟩]
        rfl
      rw [table_of_upd hwake] at hstate
      cases hstate
    · have hkeep : (wakeupAt s (some chan) p rest ret).upd = none := by
        unfold wakeupAt
        rw [if_neg fun hand => hp hand.1]
        rfl
      rw [table_of_none hkeep] at hstate
      exact hp hstate
  · -- a process that is not yet switched away has its own lock
    intro ret' hframe
    obtain ⟨c', hon⟩ := hs.switch p chan lk ret' hframe
    have htop' : s.top c' = .sleep .switch chan lk ret' := by
      rw [State.top, State.current_of_on hon, hframe]
    have hmine : .proc p ∈ s.held c' := by
      rw [State.held, htop', hon]
      exact List.mem_cons_self ..
    have hlock : .proc p ∈ s.held l.cpu := by
      rw [State.held, htop]
      exact List.mem_cons_self ..
    rw [h.locks.unique hmine hlock, htop] at htop'
    cases htop'

/-- A CPU that has `lk` after its step has gone on with its thread. -/
theorem Inv.holder_next (h : Inv s) (ht : Inv t) (he : effect s l = some e)
    (hex : Executed s l.cpu e t) (hlk : t.holder (.cond lk) = some l.cpu) :
    t.on l.cpu = s.on l.cpu ∧ ∃ g, e.next = .top g ∧ t.top l.cpu = g := by
  have hmem : .cond lk ∈ t.held l.cpu := (ht.locks.mem _ _).1 hlk
  rcases hex.on with hon | ⟨p, hop, hon⟩ | ⟨hsome, -, hon⟩
  · have hself : t.on l.cpu = s.on l.cpu := by rw [hon]
    have htop := hex.top_self hself
    refine ⟨hself, ?_⟩
    rcases h.next_cases he with ⟨g, hn⟩ | ⟨-, hn | hn⟩ | ⟨hn, hbase⟩
    · rw [hn, Next.apply_top] at htop
      exact ⟨g, hn, htop⟩
    · rw [State.held, htop, hn, Next.apply_push] at hmem
      cases hmem
    · rw [State.held, htop, hn, Next.apply_push] at hmem
      cases hmem
    · rw [State.held, htop, hn, Next.apply_pop, hself, hbase] at hmem
      cases hmem
  · -- a process that is switched to has no lock but its own
    exfalso
    have hself : t.on l.cpu = some p := by rw [hon, Function.update_self]
    obtain ⟨rest', hprev⟩ := effect_swtch he hop
    obtain ⟨hnone, -, hbase⟩ := h.on_of_sched (by rw [hprev]; rfl)
    have hrun := h.swtch l.cpu p rest' hnone (hbase.trans hprev)
    have hoff : ∀ c', s.on c' ≠ some p := by
      intro c' hc'
      have hcpu : s.cpuProc l.cpu = some p := by rw [h.cpu, hbase, hprev]; rfl
      have hcc := h.unique c' l.cpu p (h.cpu_of_on hc') hcpu
      rw [hcc, hnone] at hc'
      cases hc'
    have hthread : t.thread p = s.thread p := by
      rcases hex.thread_other (hoff l.cpu) with hsame | ⟨hfresh, -⟩
      · exact hsame
      · obtain ⟨-, -, hunused, -⟩ := effect_fresh he hfresh
        rw [hrun] at hunused
        cases hunused
    have hparked := (h.parked p hoff (by rw [hrun]; decide) (by rw [hrun]; decide)).1
    rw [State.held, State.top, State.current_of_on hself, hself, hthread, hparked] at hmem
    cases List.mem_singleton.1 hmem
  · exfalso
    have hself : t.on l.cpu = none := by rw [hon, Function.update_self]
    obtain ⟨p, hp⟩ := Option.isSome_iff_exists.1 hsome
    obtain ⟨rest', hsched⟩ := h.switched l.cpu p hp
    have hsame : t.scheduler l.cpu = s.scheduler l.cpu := by
      rw [hex.scheduler, commit_scheduler_self, if_neg (by rw [hp]; simp)]
    rw [State.held, State.top, State.current_of_none hself, hsame, hsched] at hmem
    cases List.mem_singleton.1 hmem

theorem Sleepers.executed (hs : Sleepers s) (h : Inv s) (ht : Inv t) (he : effect s l = some e)
    (hex : Executed s l.cpu e t) : Sleepers t := by
  constructor
  · intro p hp
    rcases h.sleeping_step he hex hp with ⟨hold, hchan⟩ | ⟨chan, lk, ret, -, -, hnow, hchan⟩
    · obtain ⟨pc, chan, lk, ret, hprev, hsome⟩ := hs.asleep p hold
      obtain ⟨pc', hnow⟩ := h.asleep_thread he hex hold hprev
      exact ⟨pc', chan, lk, ret, hnow, hchan.trans hsome⟩
    · exact ⟨.sched, chan, lk, ret, hnow, hchan⟩
  · intro p chan lk ret hp
    rcases h.switch_step he hex hp with ⟨hold, hoff⟩ | ⟨hon, -, hop⟩
    · obtain ⟨c, hc⟩ := hs.switch p chan lk ret hold
      have hne : c ≠ l.cpu := by
        rintro rfl
        exact hoff hc
      exact ⟨c, (hex.on_of_ne hne).trans hc⟩
    · rcases hex.on with hsame | ⟨q, hop', -⟩ | ⟨-, hop', -⟩
      · exact ⟨l.cpu, by rw [hsame, hon]⟩
      · rw [hop] at hop'
        cases hop'
      · rw [hop] at hop'
        cases hop'
  · intro c chan rest lk hscan hlk p hp
    rcases hs.pending_step h he hex hp with hold | ⟨-, hop⟩
    · by_cases hc : c = l.cpu
      · subst hc
        obtain ⟨hself, g, hn, hg⟩ := h.holder_next ht he hex hlk
        rw [hg] at hscan
        rcases effect_scan he hn hscan with rfl | ⟨rest', hprev, hop, hpass⟩
        · exact List.mem_finRange p
        · have hlk' : s.holder (.cond lk) = some l.cpu := by
            rcases hex.holder _ _ hlk with hh | ⟨hacq, -⟩
            · exact hh
            · exact absurd hacq (hop lk)
          rcases hpass p (hs.scan l.cpu chan rest' lk hprev hlk' p hold) with hin | hme | ⟨rest₀, ret, htop, heq⟩
          · exact hin
          · -- the slot of the process that makes the call
            exfalso
            have hon := h.on_of_frame (p := p) (by
              cases hf : s.top l.cpu <;> simp_all [Frame.scan, Frame.kind]) hme
            have htop : (t.thread p).top = g := by
              rw [← hg, State.top, State.current_of_on (hself.trans hon)]
            rcases hp with ⟨_, hsleep⟩ | ⟨-, _, _, hsleep⟩ <;> rw [htop] at hsleep <;> rw [hsleep] at hscan <;>
              cases hscan
          · exfalso
            obtain ⟨hawake, hswitch⟩ := hs.passed h hex htop heq hold
            rcases hp with ⟨ret', hsleep⟩ | hasleep
            · rcases h.switch_step he hex hsleep with ⟨hbefore, -⟩ | ⟨-, hrelease, -⟩
              · exact hswitch ret' hbefore
              · rw [htop] at hrelease
                cases hrelease
            · exact hawake hasleep
      · -- another process has moved
        rw [hex.top_of_ne h he hc] at hscan
        rcases hex.holder _ _ hlk with hh | ⟨-, hcc⟩
        · exact hs.scan c chan rest lk hscan hh p hold
        · exact absurd hcc hc
    · rw [hex.released _ hop] at hlk
      cases hlk

theorem Sleepers.step (hs : Sleepers s) (h : Inv s) (hcalls : Calls s) (hstep : Sched.step s l = some t) :
    Sleepers t := by
  rcases step_executed hstep with rfl | ⟨e, he, hex⟩
  · exact ⟨hs.asleep, hs.switch, hs.scan⟩
  · exact hs.executed h (h.step hcalls hstep) he hex

omit [DecidableEq C] [DecidableEq L] in
theorem Sleepers.boot : Sleepers (Sched.boot C L) := by
  constructor
  · intro p hp
    exfalso
    have hp' : (ProcTable.boot.proc p).state = .SLEEPING := hp
    unfold ProcTable.boot at hp'
    by_cases hi : p = initproc
    · subst hi
      simp at hp'
    · simp [Function.update_of_ne hi, Proc.zero] at hp'
  · intro p chan lk ret hp
    cases hp
  · intro c chan rest lk hscan
    cases hscan

/-- A process is in its `sleep` until it has `lk` again. -/
theorem sleep_returns (hstep : Sched.step s l = some t) {pc : SleepPc}
    {ret : SleepRet L} (hon : s.on l.cpu = some p) (htop : (s.thread p).top = .sleep pc chan lk ret) :
    (∃ pc', (t.thread p).top = .sleep pc' chan lk ret ∨ (t.thread p).base = .sleep pc' chan lk ret) ∨
    (t.thread p).top = ret.frame lk ∧ t.on l.cpu = some p ∧ t.holder (.cond lk) = some l.cpu := by
  have htop' : s.top l.cpu = .sleep pc chan lk ret := by
    rw [State.top, State.current_of_on hon, htop]
  rcases step_executed hstep with rfl | ⟨e, he, hex⟩
  · exact Or.inl ⟨pc, Or.inl htop⟩
  · rw [hex.thread_self hon]
    rcases effect_frame he htop' (by simp [Frame.fn]) with ⟨ok, hr⟩ | ⟨hintr, -, -, g, hn⟩
    · obtain ⟨p', -, rfl⟩ := Option.map_eq_some_iff.1 hr
      cases pc with
      | relock =>
          refine Or.inr ⟨Next.apply_top .., ?_, hex.acquired _ rfl⟩
          rcases hex.on with hsame | ⟨_, hop, -⟩ | ⟨-, hop, -⟩
          · rw [hsame, hon]
          · cases hop
          · cases hop
      | _ => exact Or.inl ⟨_, Or.inl (Next.apply_top ..)⟩
    · refine Or.inl ⟨pc, Or.inr ?_⟩
      rw [State.current_of_on hon] at hintr
      rw [Thread.top, hintr] at htop
      rw [hn]
      exact htop

theorem reachable_sleepers (h : Reachable step (· = boot C L) s) : Inv s ∧ Calls s ∧ Sleepers s := by
  refine h.invariant (I := fun s => Inv s ∧ Calls s ∧ Sleepers s) ?_ ?_
  · rintro s rfl
    exact ⟨Inv.boot, Calls.boot, Sleepers.boot⟩
  · rintro s l t ⟨hi, hc, hs⟩ hstep
    exact ⟨hi.step hc hstep, hc.step hi hstep, hs.step hi hc hstep⟩

/-- When a `wakeup(chan)` whose caller has `lk` has been through the table, nobody sleeps in a call of
    `sleep(chan, lk)`; and a call of `sleep` goes on until its process has `lk` again. -/
theorem no_lost_wakeup (hs : Reachable step (· = boot C L) s) :
    (∀ c chan lk ret, s.top c = .wakeup (some chan) [] ret → s.holder (.cond lk) = some c →
      ∀ p, ¬ Asleep s p chan lk) ∧
    ∀ l t p pc chan lk ret, step s l = some t → s.on l.cpu = some p →
      (s.thread p).top = .sleep pc chan lk ret →
      (∃ pc', (t.thread p).top = .sleep pc' chan lk ret ∨ (t.thread p).base = .sleep pc' chan lk ret) ∨
      (t.thread p).top = ret.frame lk ∧ t.on l.cpu = some p ∧ t.holder (.cond lk) = some l.cpu := by
  obtain ⟨hi, hcalls, hsleepers⟩ := reachable_sleepers hs
  refine ⟨fun c chan lk ret htop hlk p hasleep => ?_, fun l t p pc chan lk ret hstep hon htop => ?_⟩
  · have hin : p ∈ [] := hsleepers.scan c chan [] lk (by rw [htop]; rfl) hlk p (Or.inr hasleep)
    cases hin
  · exact sleep_returns hstep hon htop

/-- `initproc` goes to sleep on one CPU, and an interrupt on the other wakes it up. -/
def wakeRun : List (Label (Fin 2) Unit) :=
  let c₀ := ⟨0, Nat.two_pos⟩
  let c₁ := ⟨1, Nat.one_lt_two⟩
  List.replicate 4 ⟨c₀, .run true⟩ ++ [⟨c₀, .acquire ()⟩, ⟨c₀, .sleep (.other 7) (.other ())⟩] ++
    List.replicate 6 ⟨c₀, .run true⟩ ++ [⟨c₁, .intr⟩, ⟨c₁, .acquire ()⟩, ⟨c₁, .wakeup (.other 7)⟩] ++
    List.replicate 128 ⟨c₁, .run true⟩

theorem no_lost_wakeup_initproc : ∃ s, runSteps step (boot (Fin 2) Unit) wakeRun = some s ∧
    s.holder (.cond (.other ())) = some 1 ∧ ¬ Asleep s initproc (.other 7) (.other ()) := by
  obtain ⟨s, hs⟩ : ∃ s, runSteps step (boot (Fin 2) Unit) wakeRun = some s :=
    Option.isSome_iff_exists.1 (by decide +kernel)
  have hend : (runSteps step (boot (Fin 2) Unit) wakeRun).map (fun s => (s.top 1, s.holder (.cond (.other ())))) =
      some (.wakeup (some (.other 7)) [] (.code [.other ()]), some 1) := by decide +kernel
  rw [hs] at hend
  obtain ⟨htop, hlk⟩ := Prod.mk.inj (Option.some.inj hend)
  exact ⟨s, hs, hlk, (no_lost_wakeup ⟨_, _, rfl, hs⟩).1 1 _ _ _ htop hlk initproc⟩

end Xv6.Sched
