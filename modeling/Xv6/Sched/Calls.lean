import Xv6.Sched.Invariant
import Xv6.Sched.Rows

set_option autoImplicit false

/-! # System calls in progress

A system call is made from user code, so an interrupt never has one on top of another. The child of a
`kfork` belongs to that call until it is made `RUNNABLE`: it is `USED`, and nobody else has it. -/

namespace Xv6.Sched

open Xv6.Lib
open Xv6.ProcTable (ProcState Chan Proc Table initproc freeproc)

variable {C L : Type} {s t : State C L} {c : C} {e : Effect L} {l : Label C L}

/-- The parent that the child has got. -/
def ForkPc.childParent (p : Slot) : ForkPc → Option Slot
  | .lock => some p
  | .run => some p
  | _ => none

structure Calls (s : State C L) : Prop where
  intr : ∀ p f, (s.thread p).intr = some f → f.sys = false
  sleep : ∀ p pc chan lk addr, (s.thread p).base = .sleep pc chan lk (.kwait addr) →
    chan = .proc p ∧ lk = .waitLock
  unused : ∀ q, (s.proc q).state = .UNUSED → (s.proc q).parent = none
  child : ∀ p pc np pid, (s.thread p).base = .kfork pc np pid →
    (s.proc np).state = .USED ∧ (s.proc np).pid = pid ∧ (s.proc np).parent = pc.childParent p
  unique : ∀ p p' pc pc' np pid pid', (s.thread p).base = .kfork pc np pid →
    (s.thread p').base = .kfork pc' np pid' → p = p'

/-- A system call is at the base of its thread. -/
theorem Calls.base_of_top (h : Calls s) {p : Slot} {f : Frame L} (htop : (s.thread p).top = f)
    (hf : f.sys = true) : (s.thread p).intr = none ∧ (s.thread p).base = f := by
  unfold Thread.top at htop
  cases hi : (s.thread p).intr with
  | none =>
      rw [hi] at htop
      exact ⟨rfl, htop⟩
  | some g =>
      rw [hi] at htop
      have hg := h.intr p g hi
      rw [show g = f from htop, hf] at hg
      cases hg

theorem Calls.base_of_on (h : Calls s) {p : Slot} {f : Frame L} (hon : s.on c = some p)
    (htop : s.top c = f) (hf : f.sys = true) : (s.thread p).base = f := by
  rw [State.top, State.current_of_on hon] at htop
  exact (h.base_of_top htop hf).2

/-- The base of a thread changes by a step to its new frame. -/
theorem apply_base (t : Thread L) (n : Next L) : (n.apply t).base = t.base ∨
    ∃ g, n = .top g ∧ t.intr = none ∧ (n.apply t).base = g := by
  cases n with
  | top g =>
      unfold Next.apply
      cases hi : t.intr with
      | none => exact Or.inr ⟨g, rfl, rfl, rfl⟩
      | some f => exact Or.inl rfl
  | push g => exact Or.inl rfl
  | pop => exact Or.inl rfl

theorem apply_intr {t : Thread L} {n : Next L} {g : Frame L} (h : (n.apply t).intr = some g) :
    n = .top g ∧ t.intr.isSome ∨ n = .push g := by
  cases n with
  | top g' =>
      unfold Next.apply at h
      cases hi : t.intr with
      | none =>
          simp only [hi, Option.isSome_none, Bool.false_eq_true, if_false] at h
          cases h
      | some f =>
          simp only [hi, Option.isSome_some, if_true, Option.some.injEq] at h
          exact Or.inl ⟨by rw [h], rfl⟩
  | push g' => exact Or.inr (by rw [Option.some.inj h])
  | pop => cases h

/-- The child of a `kfork` is changed by that call only. -/
theorem Change.of_used {me : Option Slot} {f : Frame L} {q : Slot} {v : Proc} (hc : Change s me f q v)
    (hq : (s.proc q).state = .USED)
    (hme : ∀ p, me = some p → f.kind ≠ .sched → (s.proc p).state ≠ .USED) :
    (∃ p pc pid, me = some p ∧ f = .kfork pc q pid) ∨ v.state = .USED ∧ v.pid = (s.proc q).pid ∧
      (v.parent = (s.proc q).parent ∨ ∃ p status rest, me = some p ∧ (s.proc q).parent = some p ∧
        f = .reparent status rest) := by
  cases hc with
  | yield hp => exact absurd hq (hme q hp (by simp [Frame.kind]))
  | sleep hp => exact absurd hq (hme q hp (by simp [Frame.kind]))
  | woken hp => exact absurd hq (hme q hp (by simp [Frame.kind]))
  | wakeup hsleep => exact absurd hq (by rw [hsleep]; decide)
  | kkill => exact Or.inr ⟨by simp [ProcTable.Proc.kill, hq], rfl, Or.inl rfl⟩
  | allocproc hunused => exact absurd hq (by rw [hunused]; decide)
  | noMem hp => exact Or.inl ⟨_, _, _, hp, rfl⟩
  | parent hp => exact Or.inl ⟨_, _, _, hp, rfl⟩
  | run hp => exact Or.inl ⟨_, _, _, hp, rfl⟩
  | reparent hp hpp => exact Or.inr ⟨hq, rfl, Or.inr ⟨_, _, _, hp, hpp, rfl⟩⟩
  | kexit hp => exact absurd hq (hme q hp (by simp [Frame.kind]))
  | reap hp hzombie => exact absurd hq (by rw [hzombie]; decide)
  | scheduler hrun => exact absurd hq (by rw [hrun]; decide)

/-- A slot becomes `UNUSED` by `freeproc`. -/
theorem Change.of_unused {me : Option Slot} {f : Frame L} {q : Slot} {v : Proc} (hc : Change s me f q v)
    (hv : v.state = .UNUSED) (hme : ∀ p, me = some p → f.kind ≠ .sched → (s.proc p).state ≠ .UNUSED)
    (hfork : ∀ p pc np pid, me = some p → f = .kfork pc np pid → (s.proc np).state = .USED) :
    v.parent = none ∨ (s.proc q).state = .UNUSED ∧ (v.parent = (s.proc q).parent ∨
      (s.proc q).parent ≠ none) := by
  cases hc with
  | noMem => exact Or.inl rfl
  | reap => exact Or.inl rfl
  | woken hp => exact absurd hv (hme q hp (by simp [Frame.kind]))
  | kkill =>
      refine Or.inr ⟨?_, Or.inl rfl⟩
      by_cases hs : (s.proc q).state = .SLEEPING
      · simp [ProcTable.Proc.kill, hs] at hv
      · simpa [ProcTable.Proc.kill, hs] using hv
  | parent hp =>
      have hused : (s.proc q).state = .USED := hfork _ _ _ _ hp rfl
      have hv' : (s.proc q).state = .UNUSED := hv
      rw [hused] at hv'
      cases hv'
  | reparent hp hpp =>
      have hv' : (s.proc q).state = .UNUSED := hv
      exact Or.inr ⟨hv', Or.inr (by rw [hpp]; simp)⟩
  | _ => cases hv

theorem Frame.state_alive (f : Frame L) : f.state ≠ .UNUSED ∧ f.state ≠ .USED := by
  cases f with
  | yield pc => cases pc <;> simp [state]
  | sleep pc chan lk ret => cases pc <;> simp [state]
  | kexit pc status => cases pc <;> simp [state]
  | _ => simp [state]

/-- A process that is executed is in use. -/
theorem Inv.alive (h : Inv s) {p : Slot} (hp : s.cpuProc c = some p) (hf : (s.top c).kind ≠ .sched) :
    (s.proc p).state ≠ .UNUSED ∧ (s.proc p).state ≠ .USED := by
  rw [h.state c p (h.on_of_frame hf hp)]
  exact Frame.state_alive _

theorem table_of_upd {q : Slot} {v : Proc} {tab : Table} (hu : e.upd = some (q, v)) :
    e.table tab q = v := by
  unfold Effect.table
  rw [hu]
  exact Function.update_self ..

theorem table_of_none {tab : Table} (hu : e.upd = none) : e.table tab = tab := by
  unfold Effect.table
  rw [hu]

theorem Calls.congr (h : Calls s) (hproc : t.proc = s.proc) (hthread : t.thread = s.thread) : Calls t := by
  constructor
  case intr =>
    rw [hthread]
    exact h.intr
  case sleep =>
    rw [hthread]
    exact h.sleep
  case unused =>
    rw [hproc]
    exact h.unused
  case child =>
    rw [hthread, hproc]
    exact h.child
  case unique =>
    rw [hthread]
    exact h.unique

section Commit

variable [DecidableEq C] [DecidableEq L] (h : Calls s) (hi : Inv s) (he : effect s l = some e)

include h hi he

/-- How a thread comes to a frame of `kfork`. -/
theorem Calls.commit_kfork {p np : Slot} {pc : ForkPc} {pid : BitVec 32}
    (hb : ((s.commit l.cpu e).thread p).base = .kfork pc np pid) :
    (s.on l.cpu = some p ∧ pc = .fill ∧ pid = s.nextpid ∧ (s.proc np).state = .UNUSED ∧
      e.upd = some (np, { s.proc np with pid := s.nextpid, state := .USED })) ∨
    (∃ pc', s.on l.cpu = some p ∧ (s.thread p).base = .kfork pc' np pid ∧ pc' ≠ .run ∧ pc = pc'.next ∧
      ((pc' ≠ .parent ∧ e.upd = none) ∨
        (pc' = .parent ∧ e.upd = some (np, { s.proc np with parent := some p })))) ∨
    (s.thread p).base = .kfork pc np pid ∧
      (s.on l.cpu ≠ some p ∨ e.upd = none ∨ (s.top l.cpu).sys = false) := by
  rw [commit_thread] at hb
  by_cases hon : s.on l.cpu = some p
  · rw [if_pos hon] at hb
    have htop : s.top l.cpu = (s.thread p).top := by rw [State.top, State.current_of_on hon]
    cases hintr : (s.thread p).intr with
    | some f =>
        -- the call is below an interrupt
        have hbase : (e.next.apply (s.thread p)).base = (s.thread p).base := by
          unfold Next.apply
          cases e.next <;> simp [hintr]
        rw [hbase] at hb
        refine Or.inr (Or.inr ⟨hb, Or.inr (Or.inr ?_)⟩)
        rw [htop, Thread.top, hintr]
        exact h.intr p f hintr
    | none =>
        have htop' : s.top l.cpu = (s.thread p).base := by
          rw [htop, Thread.top, hintr]
          rfl
        rcases effect_cases he with ⟨ok, hr⟩ | ⟨locks, hcode, hr⟩ | hr
        · rcases (row_rest hr).next with ⟨g, hn⟩ | ⟨hyield, -⟩
          · rw [hn] at hb
            simp only [Next.apply, hintr, Option.isSome_none, Bool.false_eq_true, if_false] at hb
            subst hb
            rcases row_kfork hr hn with ⟨rest, -, hpc, hpid, hq, hu⟩ | ⟨pc', hf, hrun, hpc, hu⟩
            · exact Or.inl ⟨hon, hpc, hpid, hq, hu⟩
            · rw [htop'] at hf
              refine Or.inr (Or.inl ⟨pc', hon, hf, hrun, hpc, ?_⟩)
              rcases hu with hu | ⟨hpar, p', hp', hu⟩
              · exact Or.inl hu
              · rw [hi.cpu_of_on hon] at hp'
                cases hp'
                exact Or.inr ⟨hpar, hu⟩
          · have hkind := (hi.kind p).1
            rw [← htop', hyield] at hkind
            cases hkind
        · obtain ⟨-, g, hn⟩ := codeRow_idle hr
          rw [hn] at hb
          simp only [Next.apply, hintr, Option.isSome_none, Bool.false_eq_true, if_false] at hb
          subst hb
          rcases (codeRow_sys hr hn rfl).2 with ⟨_, hg⟩ | ⟨_, hg⟩ | ⟨_, hg⟩ <;> cases hg
        · have hbase : (e.next.apply (s.thread p)).base = (s.thread p).base := by
            rcases (intrRow_next hr).2 with ⟨hn, -⟩ | ⟨-, -, hn | hn⟩ <;> rw [hn] <;> rfl
          rw [hbase] at hb
          exact Or.inr (Or.inr ⟨hb, Or.inr (Or.inl (intrRow_idle hr).upd)⟩)
  · rw [if_neg hon] at hb
    by_cases hfresh : e.fresh = some p
    · rw [if_pos hfresh] at hb
      cases hb
    · rw [if_neg hfresh] at hb
      exact Or.inr (Or.inr ⟨hb, Or.inl hon⟩)

omit [DecidableEq C] in
/-- A call that is not on this CPU keeps its child. -/
theorem Calls.child_kept {p np : Slot} {pc : ForkPc} {pid : BitVec 32}
    (hb : (s.thread p).base = .kfork pc np pid)
    (hoff : s.on l.cpu ≠ some p ∨ e.upd = none ∨ (s.top l.cpu).sys = false) :
    (e.table s.proc np).state = .USED ∧ (e.table s.proc np).pid = pid ∧
      (e.table s.proc np).parent = pc.childParent p := by
  obtain ⟨hused, hpid, hparent⟩ := h.child p pc np pid hb
  rcases table_eq_or e s.proc np with hold | ⟨v, hu, hnew⟩
  · rw [hold]
    exact ⟨hused, hpid, hparent⟩
  · rw [hnew]
    have hchange := effect_upd he hu
    rcases hchange.of_used hused (fun p' hp' hf => (hi.alive hp' hf).2) with
      ⟨p', pc', pid', hcpu, hf⟩ | ⟨hv, hvpid, hvparent⟩
    · exfalso
      rcases hoff with hon | hnone | hsys
      · have hon' := hi.on_of_frame (by rw [hf]; simp [Frame.kind]) hcpu
        have hbase := h.base_of_on hon' hf rfl
        exact hon (h.unique p' p _ _ _ _ _ hbase hb ▸ hon')
      · rw [hu] at hnone
        cases hnone
      · rw [hf] at hsys
        cases hsys
    · refine ⟨hv, hvpid.trans hpid, ?_⟩
      rcases hvparent with hsame | ⟨p', status, rest, hp', hpar, hf⟩
      · rw [hsame, hparent]
      · exfalso
        have hpp : p' = p := by
          rw [hparent] at hpar
          cases pc <;> simp_all [ForkPc.childParent]
        subst hpp
        have hon' := hi.on_of_frame (by rw [hf]; simp [Frame.kind]) hp'
        have hbase := h.base_of_on hon' hf rfl
        rw [hb] at hbase
        cases hbase

theorem Calls.commit : Calls (s.commit l.cpu e) := by
  constructor
  case intr =>
    intro p f hf
    rw [commit_thread] at hf
    by_cases hon : s.on l.cpu = some p
    · rw [if_pos hon] at hf
      rcases apply_intr hf with ⟨hn, hsome⟩ | hn
      · -- what comes on top of an interrupt is no system call
        by_contra hsys
        have hsys : f.sys = true := by simpa using hsys
        obtain ⟨g, hg⟩ := Option.isSome_iff_exists.1 hsome
        rcases effect_sys he hn hsys with htop | hnone
        · rw [State.top, State.current_of_on hon, Thread.top, hg] at htop
          have hold := h.intr p g hg
          rw [show g.sys = true from htop] at hold
          cases hold
        · rw [State.current_of_on hon, hg] at hnone
          cases hnone
      · rcases (intrRow_next (effect_push he hn)).2 with ⟨hn', -⟩ | ⟨-, -, hn' | hn'⟩ <;>
          rw [hn] at hn' <;> cases hn' <;> rfl
    · rw [if_neg hon] at hf
      by_cases hfresh : e.fresh = some p
      · rw [if_pos hfresh] at hf
        cases hf
      · rw [if_neg hfresh] at hf
        exact h.intr p f hf
  case sleep =>
    intro p pc chan lk addr hb
    rw [commit_thread] at hb
    by_cases hon : s.on l.cpu = some p
    · rw [if_pos hon] at hb
      rcases apply_base (s.thread p) e.next with hsame | ⟨g, hn, hintr, hg⟩
      · rw [hsame] at hb
        exact h.sleep p pc chan lk addr hb
      · rw [hg] at hb
        subst hb
        rcases effect_cases he with ⟨ok, hr⟩ | ⟨locks, -, hr⟩ | hr
        · rcases row_sleep hr hn with ⟨pc', hf, -⟩ | ⟨-, addr', p', -, hp', hchan, hlk, -⟩
          · exact h.sleep p pc' chan lk addr (h.base_of_on hon hf rfl)
          · rw [hi.cpu_of_on hon] at hp'
            cases hp'
            exact ⟨hchan, hlk⟩
        · rcases (codeRow_sys hr hn rfl).2 with ⟨_, hg⟩ | ⟨_, hg⟩ | ⟨_, hg⟩ <;> cases hg
        · exact absurd hn (intrRow_not_top hr _)
    · rw [if_neg hon] at hb
      by_cases hfresh : e.fresh = some p
      · rw [if_pos hfresh] at hb
        cases hb
      · rw [if_neg hfresh] at hb
        exact h.sleep p pc chan lk addr hb
  case unused =>
    intro q hq
    show (e.table s.proc q).parent = none
    have hq' : (e.table s.proc q).state = .UNUSED := hq
    rcases table_eq_or e s.proc q with hold | ⟨v, hu, hnew⟩
    · rw [hold] at hq' ⊢
      exact h.unused q hq'
    · rw [hnew] at hq' ⊢
      have hfork : ∀ p' pc np pid, s.cpuProc l.cpu = some p' → s.top l.cpu = .kfork pc np pid →
          (s.proc np).state = .USED := by
        intro p' pc np pid hcpu hf
        have hon' := hi.on_of_frame (by rw [hf]; simp [Frame.kind]) hcpu
        exact (h.child p' pc np pid (h.base_of_on hon' hf rfl)).1
      rcases (effect_upd he hu).of_unused hq' (fun p' hp' hf => (hi.alive hp' hf).1) hfork with
        hnone | ⟨hunused, hsame | hne⟩
      · exact hnone
      · rw [hsame]
        exact h.unused q hunused
      · exact absurd (h.unused q hunused) hne
  case child =>
    intro p pc np pid hb
    show (e.table s.proc np).state = .USED ∧ (e.table s.proc np).pid = pid ∧
      (e.table s.proc np).parent = pc.childParent p
    rcases h.commit_kfork hi he hb with ⟨hon, rfl, rfl, hunused, hu⟩ |
      ⟨pc', hon, hold, hrun, rfl, ⟨hpc, hu⟩ | ⟨rfl, hu⟩⟩ | ⟨hold, hoff⟩
    · rw [table_of_upd hu]
      exact ⟨rfl, rfl, h.unused np hunused⟩
    · obtain ⟨hused, hpid, hparent⟩ := h.child p pc' np pid hold
      rw [table_of_none hu, hparent]
      refine ⟨hused, hpid, ?_⟩
      cases pc' <;> simp_all [ForkPc.childParent, ForkPc.next]
    · obtain ⟨hused, hpid, -⟩ := h.child p .parent np pid hold
      rw [table_of_upd hu]
      exact ⟨hused, hpid, rfl⟩
    · exact h.child_kept hi he hold hoff
  case unique =>
    intro p p' pc pc' np pid pid' hb hb'
    have hold : ∀ {p pc pid}, ((s.commit l.cpu e).thread p).base = .kfork pc np pid →
        (s.on l.cpu = some p ∧ (s.proc np).state = .UNUSED) ∨
          ∃ pc', (s.thread p).base = .kfork pc' np pid := by
      intro p pc pid hb
      rcases h.commit_kfork hi he hb with ⟨hon, -, -, hunused, -⟩ | ⟨pc', -, hold, -⟩ | ⟨hold, -⟩
      · exact Or.inl ⟨hon, hunused⟩
      · exact Or.inr ⟨pc', hold⟩
      · exact Or.inr ⟨pc, hold⟩
    rcases hold hb with ⟨hon, hunused⟩ | ⟨_, h₁⟩
    · rcases hold hb' with ⟨hon', -⟩ | ⟨_, h₂⟩
      · exact Option.some.inj (hon.symm.trans hon')
      · rw [(h.child _ _ _ _ h₂).1] at hunused
        cases hunused
    · rcases hold hb' with ⟨-, hunused⟩ | ⟨_, h₂⟩
      · rw [(h.child _ _ _ _ h₁).1] at hunused
        cases hunused
      · exact h.unique p p' _ _ np _ _ h₁ h₂

end Commit

variable [DecidableEq C] [DecidableEq L]

theorem Calls.step (h : Calls s) (hi : Inv s) (hs : step s l = some t) : Calls t := by
  rcases step_executed hs with rfl | ⟨e, he, ht⟩
  · exact h.congr rfl rfl
  · exact (h.commit hi he).congr ht.proc ht.thread

end Xv6.Sched
