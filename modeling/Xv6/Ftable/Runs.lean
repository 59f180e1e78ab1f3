import Xv6.Ftable.Steps

set_option autoImplicit false

/-! # Files and pipes over whole runs

From boot on, whatever the processes do and however their steps interleave, a file counts the references to it, and a
pipe lives as long as one of its ends is open. -/

namespace Xv6.Ftable

open Xv6.Lib

variable {s t : State} {p q c : Pid} {f g : Fin NFILE} {fd : Fin NOFILE} {lfd : List (Fin NOFILE)}
    {answer : Option Page}

/-! ## `fork` -/

theorem mem_fds (fd : Fin NOFILE) : fd ∈ fds := by
  unfold fds
  exact List.mem_finRange fd

theorem nodup_fds : fds.Nodup := by
  unfold fds
  exact List.nodup_finRange NOFILE

/-- The child gets a descriptor with its reference. -/
theorem Inv.give (h : Inv s) (hpc : (s.procs p).pc = .fork c lfd) (hfd : (s.procs p).ofile fd = some f)
    (hnone : (s.procs c).ofile fd = none) (hnot : fd ∉ lfd) :
    Inv ((s.setFile f { s.ftable f with ref := (s.ftable f).ref + 1 }).setFd c fd (some f) (s.procs c).pc) := by
  obtain ⟨hcpc, hnodup, hchild⟩ := h.fork p c lfd hpc
  have hmine : 0 < (s.procs p).holds f := holds_of_slot (by rw [hpc]; rfl) hfd
  let P' : Proc := { s.procs c with
    ofile := Function.update (s.procs c).ofile fd (some f)
    pc := (s.procs c).pc }
  refine h.dup c P' (fun q hq hmem => ?_) (fun g => ?_) (by show (s.procs c).pc.fresh = []; rw [hcpc]; rfl) ?_
    (fun q l hq hfork => ?_)
    (fun c' l hc => ?_) rfl
  · by_cases hqp : q = p
    · rw [hqp, hpc] at hmem
      exact absurd hmem List.not_mem_nil
    · exact h.not_fresh (.inr hmine) hqp hmem
  · have hskip : (s.procs c).pc.skip = none := by rw [hcpc]; rfl
    have hsame := holds_fd (s.procs c) P' rfl hskip hskip g
    rw [hnone, if_neg (Option.some_ne_none g).symm, ← count_one] at hsame
    have hheld : P'.pc.held.count g = (s.procs c).pc.held.count g := rfl
    omega
  · show Proc.Ok P'
    unfold Proc.Ok
    rw [show P'.pc = .embryo p from hcpc]
    trivial
  · have hparent := (h.fork q c l hfork).1
    rw [hcpc] at hparent
    obtain rfl := Pc.embryo.inj hparent
    rw [hpc] at hfork
    obtain ⟨-, rfl⟩ := Pc.fork.inj hfork
    refine ⟨hcpc, fun fd' hfd' => ?_⟩
    show Function.update (s.procs c).ofile fd (some f) fd' = none
    rw [Function.update_of_ne fun he : fd' = fd => hnot (he ▸ hfd')]
    exact hchild fd' hfd'
  · have hc : (s.procs c).pc = .fork c' l := hc
    rw [hcpc] at hc
    cases hc

/-- The parent is done with a descriptor. -/
theorem Inv.forkNext (h : Inv s) (hpc : (s.procs p).pc = .fork c (fd :: lfd)) : Inv (s.at p (.fork c lfd)) := by
  have hact : (s.procs p).pc.Active := fun q hq => by rw [hpc] at hq; cases hq
  obtain ⟨hcpc, hnodup, hchild⟩ := h.fork p c (fd :: lfd) hpc
  have hne : c ≠ p := by
    rintro rfl
    rw [hpc] at hcpc
    cases hcpc
  have hok := h.ok p
  unfold Proc.Ok at hok
  simp only [hpc] at hok
  refine h.move p { s.procs p with pc := .fork c lfd } (fun g => ?_) (fun _ hg => absurd hg List.not_mem_nil) hok
    (fun _ _ _ hq => absurd hq (h.not_child hact)) (fun c' l hc => ?_) (by rw [hpc]; rfl)
  · have hsame := holds_same (s.procs p) { s.procs p with pc := .fork c lfd } rfl (by rw [hpc]; rfl) rfl g
    have hold : (s.procs p).pc.held.count g = 0 := by rw [hpc]; rfl
    have hnew : ({ s.procs p with pc := .fork c lfd } : Proc).pc.held.count g = 0 := rfl
    omega
  · have hc : Pc.fork c lfd = .fork c' l := hc
    obtain ⟨rfl, rfl⟩ := Pc.fork.inj hc
    exact ⟨hne, hcpc, (List.nodup_cons.1 hnodup).2, fun fd' hfd' => hchild fd' (List.mem_cons_of_mem _ hfd')⟩

theorem resume_fork (h : Inv s) (hpc : (s.procs p).pc = .fork c lfd) (hr : resume s p answer = some t) : Inv t := by
  have hact : (s.procs p).pc.Active := fun q hq => by rw [hpc] at hq; cases hq
  obtain ⟨hcpc, hnodup, hchild⟩ := h.fork p c lfd hpc
  have hne : c ≠ p := by
    rintro rfl
    rw [hpc] at hcpc
    cases hcpc
  unfold resume at hr
  cases lfd with
  | nil =>
      simp only [hpc] at hr
      cases hr
      have hok := h.ok p
      unfold Proc.Ok at hok
      simp only [hpc] at hok
      let pid := (s.procs c).pid.toInt
      have hdone : Inv (s.done p pid) :=
        h.done hact (by rw [hpc]; rfl) (by rw [hpc]; rfl) (by rw [hpc]; rfl) fun _ => hok
      have hself : (s.done p pid).procs p = { s.procs p with
          pc := .user
          ret := pid } := Function.update_self ..
      have hc : (s.done p pid).procs c = s.procs c := Function.update_of_ne hne ..
      refine hdone.move c { (s.done p pid).procs c with
        pc := .user
        ret := 0 } (fun g => ?_) (fun _ hg => absurd hg List.not_mem_nil)
        (fun hret : (0 : Int) = -1 => absurd hret (by decide)) (fun q l hq hfork => ?_)
        (fun _ _ hc' => by cases hc') (by rw [hc, hcpc]; rfl)
      · have hsame := holds_same ((s.done p pid).procs c) { (s.done p pid).procs c with
          pc := .user
          ret := 0 } rfl (by rw [hc, hcpc]; rfl) rfl g
        have hold : ((s.done p pid).procs c).pc.held.count g = 0 := by rw [hc, hcpc]; rfl
        have hnew : ({ (s.done p pid).procs c with
          pc := .user
          ret := 0 } : Proc).pc.held.count g = 0 := rfl
        omega
      · -- the parent has returned
        have hparent := (hdone.fork q c l hfork).1
        rw [hc, hcpc] at hparent
        obtain rfl := Pc.embryo.inj hparent
        rw [hself] at hfork
        cases hfork
  | cons fd lfd =>
      simp only [hpc] at hr
      have hnext := h.forkNext hpc
      have hnone := hchild fd List.mem_cons_self
      cases hfd : (s.procs p).ofile fd with
      | none =>
          simp only [hfd] at hr
          cases hr
          exact hnext
      | some f =>
          simp only [hfd] at hr
          have hpos := h.in_use (holds_of_slot (P := s.procs p) (by rw [hpc]; rfl) hfd)
          rw [if_neg hpos] at hr
          cases hr
          have hself : (s.at p (.fork c lfd)).procs p = { s.procs p with pc := .fork c lfd } := Function.update_self ..
          have hc : (s.at p (.fork c lfd)).procs c = s.procs c := Function.update_of_ne hne ..
          exact hnext.give (p := p) (by rw [hself]) (by rw [hself]; exact hfd) (by rw [hc]; exact hnone)
            (List.nodup_cons.1 hnodup).1

/-! ## All steps -/

theorem Inv.resume (h : Inv s) (hr : resume s p answer = some t) : Inv t := by
  cases hpc : (s.procs p).pc with
  | openAlloc m => exact resume_openAlloc h hpc hr
  | openFd f m => exact resume_openFd h hpc hr
  | openSet f fd m => exact resume_openSet h hpc hr
  | dup f fd => exact resume_dup h hpc hr
  | close l ret => exact resume_close h hpc hr
  | pipeclose pi w l ret => exact resume_pipeclose h hpc hr
  | pipeAlloc0 => exact resume_pipeAlloc0 h hpc hr
  | pipeAlloc1 f0 => exact resume_pipeAlloc1 h hpc hr
  | pipeKalloc f0 f1 => exact resume_pipeKalloc h hpc hr
  | pipeFd0 rf wf => exact resume_pipeFd0 h hpc hr
  | pipeFd1 fd0 rf wf => exact resume_pipeFd1 h hpc hr
  | pipeOut fd0 fd1 rf wf => exact resume_pipeOut h hpc hr
  | exit l => exact resume_exit h hpc hr
  | exitPipe pi w fd l => exact resume_exitPipe h hpc hr
  | fork c l => exact resume_fork h hpc hr
  | unused | embryo _ | zombie | user =>
      unfold Ftable.resume at hr
      simp only [hpc] at hr
      cases hr

theorem Inv.call (h : Inv s) (hpc : (s.procs p).pc = .user) (pc : Pc) (hskip : pc.skip = none) (hheld : pc.held = [])
    (hfresh : pc.fresh = []) (hok : ({ s.procs p with
      pc := pc
      old := (s.procs p).ofile } : Proc).Ok)
    (hparent : ∀ c l, pc ≠ .fork c l) (hcloses : pc.closes = none) (ht : some (s.enter p pc) = some t) : Inv t := by
  cases ht
  exact h.enter hpc pc hskip hheld hfresh hok hparent hcloses

/-- A system call that fails before it has done anything. -/
theorem Inv.fail (h : Inv s) (hpc : (s.procs p).pc = .user) : Inv ((s.enter p .user).done p (-1)) := by
  have henter := h.enter hpc .user rfl rfl rfl (fun _ => rfl) (fun _ _ hc => by cases hc) rfl
  have hself := enter_procs s p .user
  exact henter.done (active_user (by rw [hself])) (by rw [hself]; rfl) (by rw [hself]; rfl)
    (by rw [hself]; rfl) fun _ => by rw [hself]

theorem argfd_ofile {P : Proc} {a : Int} (h : P.argfd a = some (fd, f)) : P.ofile fd = some f := by
  unfold Proc.argfd at h
  split at h
  · obtain ⟨f', hf', heq⟩ := Option.map_eq_some_iff.1 h
    obtain ⟨rfl, rfl⟩ := Prod.mk.inj heq
    exact hf'
  · cases h

theorem Inv.sysDup (h : Inv s) (hpc : (s.procs p).pc = .user) {fd' : Fin NOFILE} (hfd : (s.procs p).ofile fd = some f)
    (halloc : (s.procs p).fdalloc = some fd') : Inv ((s.enter p .user).setFd p fd' (some f) (.dup f fd')) := by
  have hfree := fdalloc_free halloc
  have hne : fd ≠ fd' := by
    rintro rfl
    rw [hfd] at hfree
    cases hfree
  have henter := h.enter hpc .user rfl rfl rfl (fun _ => rfl) (fun _ _ hc => by cases hc) rfl
  have hself := enter_procs s p .user
  let P' : Proc := { (s.enter p .user).procs p with
    ofile := Function.update ((s.enter p .user).procs p).ofile fd' (some f)
    pc := .dup f fd' }
  have hofile : P'.ofile = Function.update (s.procs p).ofile fd' (some f) := by
    show Function.update ((s.enter p .user).procs p).ofile fd' (some f) = _
    rw [hself]
  refine henter.go (active_user (by rw [hself])) P' (fun g => ?_) (fun _ hg => absurd hg List.not_mem_nil)
    ⟨?_, fd, hne, ?_⟩
    (fun _ _ hc => by cases hc) (by rw [hself]; rfl)
  · -- the new descriptor has no reference yet
    have hcounted : P'.counted = (s.procs p).ofile := by
      show Function.update P'.ofile fd' none = _
      rw [hofile, Function.update_idem, ← hfree]
      exact Function.update_eq_self ..
    rw [holds_counted (P := P') rfl, hcounted, hself, holds_counted rfl]
    rfl
  · rw [hofile, Function.update_self]
  · rw [hofile, Function.update_of_ne hne]
    exact hfd

theorem Inv.sysClose (h : Inv s) (hpc : (s.procs p).pc = .user) (hfd : (s.procs p).ofile fd = some f) :
    Inv ((s.enter p .user).setFd p fd none (.close [f] 0)) := by
  have henter := h.enter hpc .user rfl rfl rfl (fun _ => rfl) (fun _ _ hc => by cases hc) rfl
  have hself := enter_procs s p .user
  refine henter.setFd (active_user (by rw [hself])) fd none (.close [f] 0) (by rw [hself]; rfl) rfl (fun g => ?_)
    (fun _ hg => absurd hg List.not_mem_nil) (fun hret : (0 : Int) = -1 => absurd hret (by decide))
    (fun _ _ hc => by cases hc)
    (by rw [hself]; rfl)
  rw [hself, if_neg (Option.some_ne_none g).symm]
  show [f].count g + 0 = 0 + if (s.procs p).ofile fd = some g then 1 else 0
  rw [hfd, ← count_one]
  omega

theorem Inv.setNextpid (h : Inv s) (v : BitVec 32) : Inv { s with nextpid := v } :=
  ⟨h.refs, h.closed, h.fresh, h.ok, h.fork, h.ends, h.alive, h.fault⟩

theorem Inv.kfork (h : Inv s) (hpc : (s.procs p).pc = .user) (hc : (s.procs c).pc = .unused) :
    Inv ((s.allocproc p c).enter p (.fork c fds)) := by
  have hne : c ≠ p := by
    rintro rfl
    rw [hpc] at hc
    cases hc
  have hnone := h.ok c
  unfold Proc.Ok at hnone
  simp only [hc] at hnone
  have hact : (s.procs c).pc.Active := fun q hq => by rw [hc] at hq; cases hq
  let E : Proc := { s.procs c with
    pid := s.nextpid
    pc := .embryo p }
  have hembryo : Inv (s.allocproc p c) := by
    refine (h.setNextpid (s.nextpid + 1)).go hact E (fun g => ?_) (fun _ hg => absurd hg List.not_mem_nil) trivial
      (fun _ _ hc' => by cases hc') (by rw [hc]; rfl)
    rw [holds_counted (P := E) rfl, holds_counted (by rw [hc]; rfl)]
    congr 1
    unfold Proc.counted
    rw [hc]
    rfl
  have hcself : (s.allocproc p c).procs c = E := Function.update_self ..
  have hp : (s.allocproc p c).procs p = s.procs p := Function.update_of_ne hne.symm ..
  let P' : Proc := { (s.allocproc p c).procs p with
    pc := .fork c fds
    old := ((s.allocproc p c).procs p).ofile }
  refine hembryo.move p P' (fun g => ?_) (fun _ hg => absurd hg List.not_mem_nil) rfl
    (fun _ _ _ hq => absurd hq (hembryo.not_child (active_user (by rw [hp, hpc])))) (fun c' l hfork => ?_)
    (by rw [hp, hpc]; rfl)
  · have hcounted : P'.counted = (s.procs p).counted := by
      show ((s.allocproc p c).procs p).ofile = _
      unfold Proc.counted
      rw [hp, hpc]
      rfl
    rw [holds_counted (P := P') rfl, hcounted, hp, holds_counted (by rw [hpc]; rfl)]
  · have hfork : Pc.fork c fds = .fork c' l := hfork
    obtain ⟨rfl, rfl⟩ := Pc.fork.inj hfork
    rw [hcself]
    exact ⟨hne, rfl, nodup_fds, fun fd _ => hnone fd⟩

/-- A slot that is free from now on. -/
theorem Inv.setUnused (h : Inv s) (hpc : (s.procs p).pc = .zombie ∨ (s.procs p).pc = .unused) :
    Inv (s.freeproc p) := by
  have hact : (s.procs p).pc.Active := by
    intro q hq
    rcases hpc with hpc | hpc <;> rw [hpc] at hq <;> cases hq
  have hok : ∀ fd, (s.procs p).ofile fd = none := by
    have hok := h.ok p
    unfold Proc.Ok at hok
    rcases hpc with hpc | hpc <;> simpa only [hpc] using hok
  refine h.goOn hact { s.procs p with
    pid := 0
    pc := .unused } rfl ?_ rfl ?_ (fun _ hg => absurd hg List.not_mem_nil) hok (fun _ _ hc => by cases hc) ?_
  all_goals rcases hpc with hpc | hpc <;> rw [hpc] <;> rfl

theorem Inv.nomem (h : Inv s) (hpc : (s.procs p).pc = .user) (hc : (s.procs c).pc = .unused) :
    Inv (((s.nomem c).enter p .user).done p (-1)) := by
  have hne : p ≠ c := by
    rintro rfl
    rw [hpc] at hc
    cases hc
  have hfree := (h.setNextpid (s.nextpid + 1)).setUnused (p := c) (.inr hc)
  have hsame : { s with nextpid := s.nextpid + 1 }.freeproc c = s.nomem c := by
    unfold State.freeproc State.nomem
    rw [← hc]
  rw [hsame] at hfree
  have hp : (s.nomem c).procs p = s.procs p := Function.update_of_ne hne ..
  exact hfree.fail (by rw [hp, hpc])

theorem Inv.user (h : Inv s) (hpc : (s.procs p).pc = .user) (l : Label) (ht : step s (p, l) = some t) : Inv t := by
  unfold step at ht
  simp only [h.fault, hpc] at ht
  cases l with
  | sysOpen found m =>
      cases found with
      | false =>
          cases ht
          exact h.fail hpc
      | true => exact h.call hpc (.openAlloc m) rfl rfl rfl rfl (fun _ _ hc => by cases hc) rfl ht
  | sysDup a =>
      cases harg : (s.procs p).argfd a with
      | none =>
          simp only [harg] at ht
          cases ht
          exact h.fail hpc
      | some r =>
          obtain ⟨fd, f⟩ := r
          simp only [harg] at ht
          cases halloc : (s.procs p).fdalloc with
          | none =>
              rw [halloc] at ht
              cases ht
              exact h.fail hpc
          | some fd' =>
              rw [halloc] at ht
              cases ht
              exact h.sysDup hpc (argfd_ofile harg) halloc
  | sysClose a =>
      cases harg : (s.procs p).argfd a with
      | none =>
          simp only [harg] at ht
          cases ht
          exact h.fail hpc
      | some r =>
          obtain ⟨fd, f⟩ := r
          simp only [harg] at ht
          cases ht
          exact h.sysClose hpc (argfd_ofile harg)
  | sysPipe => exact h.call hpc .pipeAlloc0 rfl rfl rfl rfl (fun _ _ hc => by cases hc) rfl ht
  | kfork child memory =>
      cases child with
      | none =>
          cases ht
          exact h.fail hpc
      | some c =>
          cases hc : (s.procs c).pc with
          | unused =>
              simp only [hc] at ht
              cases memory with
              | false =>
                  cases ht
                  exact h.nomem hpc hc
              | true =>
                  cases ht
                  exact h.kfork hpc hc
          | _ =>
              simp only [hc] at ht
              cases ht
  | kexit => exact h.call hpc (.exit fds) rfl rfl rfl (fun fd hfd => absurd (mem_fds fd) hfd) (fun _ _ hc => by cases hc) rfl ht
  | freeproc => cases ht
  | resume answer => exact h.resume ht

/-- A process that is not in user code can only go on, or be freed. -/
theorem Inv.step (h : Inv s) (l : Pid × Label) (ht : step s l = some t) : Inv t := by
  obtain ⟨p, l⟩ := l
  cases hpc : (s.procs p).pc with
  | user => exact h.user hpc l ht
  | zombie =>
      unfold Ftable.step at ht
      simp only [h.fault, hpc] at ht
      cases l with
      | freeproc =>
          cases ht
          exact h.setUnused (.inl hpc)
      | resume answer => exact h.resume ht
      | _ => cases ht
  | _ =>
      unfold Ftable.step at ht
      simp only [h.fault, hpc] at ht
      cases l with
      | resume answer => exact h.resume ht
      | _ => cases ht

theorem Boot.inv (h : Boot s) : Inv s := by
  obtain ⟨hfiles, hpipes, hprocs, hfault⟩ := h
  have hpc : ∀ p, (s.procs p).pc.skip = none ∧ (s.procs p).pc.held = [] ∧ (s.procs p).pc.fresh = [] ∧
      (s.procs p).pc.closes = none := by
    intro p
    rcases (hprocs p).1 with hp | hp <;> rw [hp] <;> exact ⟨rfl, rfl, rfl, rfl⟩
  refine
    { refs := fun f => ?_
      closed := fun f _ => (hfiles f).2
      fresh := fun p f hf => ?_
      ok := fun p => ?_
      fork := fun p c l hfork => ?_
      ends := fun x => ?_
      alive := fun pi P hP => ?_
      fault := hfault }
  · show (s.ftable f).ref = _
    rw [(hfiles f).1]
    refine (Finset.sum_eq_zero fun p _ => ?_).symm
    show (s.procs p).holds f = 0
    rw [holds_eq (hpc p).1, (hpc p).2.1, slots_none (hprocs p).2.1]
    rfl
  · rw [(hpc p).2.2.1] at hf
    exact absurd hf List.not_mem_nil
  · unfold Proc.Ok
    rcases (hprocs p).1 with hp | hp <;> rw [hp]
    · exact fun _ => (hprocs p).2.2.symm
    · exact (hprocs p).2.1
  · rcases (hprocs p).1 with hp | hp <;> rw [hp] at hfork <;> cases hfork
  · show openEnd (s.pipes x.1) x.2 = _
    rw [hpipes]
    refine (Finset.sum_eq_zero fun i _ => ?_).symm
    rcases i with f | p
    · exact hasEnd_of_none (hfiles f).2 x
    · exact hasEnd_of_closes (hpc p).2.2.2 x
  · rw [hpipes] at hP
    cases hP

theorem Inv.of_reachable (h : Reachable Ftable.step Boot s) : Inv s :=
  h.invariant (fun _ hs => hs.inv) fun _ l _ hs ht => hs.step l ht

/-! ## Between system calls -/

/-- No process is in a system call. -/
def Quiet (s : State) : Prop := ∀ p, (s.procs p).pc = .user ∨ (s.procs p).pc = .unused ∨ (s.procs p).pc = .zombie

/-- A file counts its descriptors, and the end of a pipe is open exactly if a descriptor is that end. -/
structure Consistent (s : State) : Prop where
  refs : ∀ f, (s.ftable f).ref = ∑ p, slotsOf (s.procs p).ofile f
  closed : ∀ f, (s.ftable f).ref = 0 → ∀ p fd, (s.procs p).ofile fd ≠ some f
  ends : ∀ pi w, (∃ P, s.pipes pi = some P ∧ P.opened w = true) ↔ ∃ p fd f, (s.procs p).ofile fd = some f ∧
    (s.ftable f).type = .pipe ∧ (s.ftable f).pipe = pi ∧ (s.ftable f).writable = w
  pages : ∀ pi P, s.pipes pi = some P → P.readopen = true ∨ P.writeopen = true

theorem Inv.consistent (h : Inv s) (hquiet : Quiet s) : Consistent s := by
  have hpc : ∀ p, (s.procs p).pc.skip = none ∧ (s.procs p).pc.held = [] ∧ (s.procs p).pc.closes = none := by
    intro p
    rcases hquiet p with hp | hp | hp <;> rw [hp] <;> exact ⟨rfl, rfl, rfl⟩
  have hholds : ∀ p f, (s.procs p).holds f = slotsOf (s.procs p).ofile f := by
    intro p f
    rw [holds_eq (hpc p).1, (hpc p).2.1, List.count_nil, Nat.add_zero]
  have hslot : ∀ {p f}, 0 < (s.procs p).holds f → ∃ fd, (s.procs p).ofile fd = some f := by
    intro p f hpos
    rw [hholds] at hpos
    by_contra hno
    refine absurd hpos (Nat.not_lt.2 (Nat.le_of_eq (Finset.sum_eq_zero fun fd _ => ?_)))
    exact if_neg fun hfd => hno ⟨fd, hfd⟩
  refine ⟨fun f => ?_, fun f h0 p fd hfd => ?_, fun pi w => ?_, h.alive⟩
  · exact (h.refs f).trans (Finset.sum_congr rfl fun p _ => hholds p f)
  · have hle := h.refs.le p f
    have hle : (s.procs p).holds f ≤ (s.ftable f).ref := hle
    have hpos := holds_of_slot (hpc p).1 hfd
    omega
  · constructor
    · rintro ⟨P, hP, hopen⟩
      have hpos : 0 < openEnd (s.pipes pi) w := by
        rw [hP]
        show 0 < (P.opened w).toNat
        rw [hopen]
        exact Nat.one_pos
      obtain ⟨i, hi⟩ := h.ends.exists_of_pos (k := (pi, w)) hpos
      rcases i with f | p
      · have hend : (s.ftable f).type = .pipe ∧ (s.ftable f).pipe = pi ∧ (s.ftable f).writable = w := by
          by_contra hno
          exact absurd hi (Nat.not_lt.2 (Nat.le_of_eq (if_neg hno)))
        have href : 0 < (s.ftable f).ref := by
          refine Nat.pos_of_ne_zero fun h0 => ?_
          have htype := h.closed f h0
          rw [hend.1] at htype
          cases htype
        obtain ⟨p, hp⟩ := h.refs.exists_of_pos (k := f) href
        obtain ⟨fd, hfd⟩ := hslot hp
        exact ⟨p, fd, f, hfd, hend⟩
      · exact absurd hi (Nat.not_lt.2 (Nat.le_of_eq (hasEnd_of_closes (hpc p).2.2 (pi, w))))
    · rintro ⟨p, fd, f, hfd, hend⟩
      have hle := h.ends.le (.inl f) (pi, w)
      have hone : s.hasEnd (.inl f) (pi, w) = 1 := if_pos hend
      rw [hone] at hle
      have hle : 1 ≤ openEnd (s.pipes pi) w := hle
      cases hP : s.pipes pi with
      | none =>
          rw [hP] at hle
          exact absurd hle (Nat.not_succ_le_zero 0)
      | some P =>
          rw [hP] at hle
          refine ⟨P, rfl, ?_⟩
          by_contra hopen
          have hle : 1 ≤ (P.opened w).toNat := hle
          rw [Bool.eq_false_iff.2 hopen] at hle
          exact absurd hle (Nat.not_succ_le_zero 0)

/-- In every state that is reached from boot, whatever the processes do and however their steps interleave, nothing has
    panicked and no end of a pipe has been closed twice or after its page was freed, a call that has failed has left the
    descriptors of its process as they were, and whenever no process is in a system call the counts are right. -/
theorem descriptors_counted (h : Reachable step Boot s) : s.fault = none ∧
    (∀ p, (s.procs p).pc = .user → (s.procs p).ret = -1 → (s.procs p).ofile = (s.procs p).old) ∧
    (Quiet s → Consistent s) := by
  have hinv := Inv.of_reachable h
  refine ⟨hinv.fault, fun p hpc hret => ?_, hinv.consistent⟩
  have hok := hinv.ok p
  unfold Proc.Ok at hok
  simp only [hpc] at hok
  exact hok hret

/-! ## A process that makes a pipe -/

def bootState : State where
  ftable := fun _ => ⟨.none, 0, false, false, 0⟩
  pipes := fun _ => none
  procs := fun p => ⟨if p.val = 0 then 1 else 0, fun _ => none, if p.val = 0 then .user else .unused, fun _ => none, 0⟩
  nextpid := 2
  fault := none

theorem bootState_boot : Boot bootState := by
  refine ⟨fun _ => ⟨rfl, rfl⟩, fun _ => rfl, fun p => ⟨?_, fun _ => rfl, rfl⟩, rfl⟩
  show (if p.val = 0 then Pc.user else .unused) = .user ∨ (if p.val = 0 then Pc.user else .unused) = .unused
  by_cases h : p.val = 0
  · rw [if_pos h]
    exact .inl rfl
  · rw [if_neg h]
    exact .inr rfl

theorem firstPid_lt : 0 < NPROC := by decide

def firstPid : Pid := ⟨0, firstPid_lt⟩

/-- A call of `sys_pipe` for which `kalloc` returns page 7. -/
def pipeRun : List (Pid × Label) :=
  [.sysPipe, .resume none, .resume none, .resume (some 7), .resume none, .resume none, .resume (some 0)].map
    fun l => (firstPid, l)

theorem descriptors_counted_pipe : ∃ s, runSteps step bootState pipeRun = some s ∧ s.fault = none ∧
    (∀ p, (s.procs p).pc = .user → (s.procs p).ret = -1 → (s.procs p).ofile = (s.procs p).old) ∧
    (Quiet s → Consistent s) := by
  have hrun : (runSteps step bootState pipeRun).isSome = true := by decide +kernel
  obtain ⟨s, hs⟩ := Option.isSome_iff_exists.1 hrun
  exact ⟨s, hs, descriptors_counted ⟨bootState, pipeRun, bootState_boot, hs⟩⟩

end Xv6.Ftable
