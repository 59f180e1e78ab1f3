import Xv6.Spinlock.Invariant

set_option autoImplicit false

/-! # Interrupt state and context switches

Every step keeps the invariant, so in every run of threads that use the locks as they should, each
`noff` counts locks and the last `release` brings back the interrupts that the first `acquire` has
switched off, whatever CPU the thread was on then. -/

namespace Xv6.Interrupts

open Xv6.Lib

variable {C P L : Type}

/-! ## Who holds a lock -/

section

variable {locks : Lock P L → Spinlock C} {c : C} {u v : Cpu P L}

/-- `lk->cpu` is that of the holder, but for two steps of its own. -/
theorem Owns.cpu_iff (h : Owns locks c u) (htop : u.top.Settled) (lk : Lock P L) :
    (locks lk).cpu = some c ↔ lk ∈ u.held :=
  ⟨h.held lk, fun hlk => h.cpu lk hlk (htop.ne lk).1 (htop.ne lk).2⟩

/-- A step that is not about a lock. -/
theorem Owns.keep (h : Owns locks c u) (hheld : v.held = u.held) (hu : u.top.Settled)
    (hv : v.top.Settled) : Owns locks c v := by
  constructor
  case locked =>
    rw [hheld]
    exact h.locked
  case held =>
    rw [hheld]
    exact h.held
  case cpu =>
    intro lk hlk _ _
    rw [hheld] at hlk
    exact (h.cpu_iff hu lk).2 hlk
  case cleared =>
    exact fun lk hlk => absurd hlk (hv.ne lk).2

variable [DecidableEq P] [DecidableEq L]

/-- A lock of another CPU changes. -/
theorem Owns.others (h : Owns locks c u) {lk : Lock P L} (hlk : lk ∉ u.held) {x : Spinlock C}
    (hx : x.cpu ≠ some c) : Owns (Function.update locks lk x) c u := by
  have hne : ∀ k ∈ u.held, k ≠ lk := fun k hk heq => hlk (heq ▸ hk)
  constructor
  case locked =>
    intro k hk
    rw [Function.update_of_ne (hne k hk)]
    exact h.locked k hk
  case held =>
    intro k hk
    by_cases heq : k = lk
    · subst heq
      rw [Function.update_self] at hk
      exact absurd hk hx
    · rw [Function.update_of_ne heq] at hk
      exact h.held k hk
  case cpu =>
    intro k hk hacq hrel
    rw [Function.update_of_ne (hne k hk)]
    exact h.cpu k hk hacq hrel
  case cleared =>
    intro k hk
    by_cases heq : k = lk
    · rw [heq, Function.update_self]
      exact hx
    · rw [Function.update_of_ne heq]
      exact h.cleared k hk

end

/-! ## Steps -/

variable [DecidableEq P] [DecidableEq L]

namespace Inv

variable {s : State C P L} {c : C}

theorem not_held (h : Inv s) {lk : Lock P L} (hlk : lk ∈ (s.cpus c).held) {d : C} (hd : d ≠ c) :
    lk ∉ (s.cpus d).held := fun hlk' => hd (h.exclusive d c lk hlk' hlk)

theorem park (h : Inv s) {p : P} {t : Option (Context P L)} (ht : ∀ x, t = some x → x.Ok) :
    Inv (s.park p t) := by
  refine ⟨h.cpu, h.owns, h.exclusive, fun q x hx => ?_⟩
  by_cases hq : q = p
  · subst hq
    simp only [State.park, Function.update_self] at hx
    exact ht x hx
  · simp only [State.park, Function.update_of_ne hq] at hx
    exact h.parked q x hx

variable [DecidableEq C]

/-- Where one CPU, and the locks that it has or takes, change. -/
theorem update (h : Inv s) {locks : Lock P L → Spinlock C} {u : Cpu P L} (hu : CpuOk u)
    (howns : Owns locks c u) (hothers : ∀ d, d ≠ c → Owns locks d (s.cpus d))
    (hexcl : ∀ d lk, d ≠ c → lk ∈ u.held → lk ∉ (s.cpus d).held) :
    Inv { s with cpus := Function.update s.cpus c u, locks := locks } := by
  constructor
  case cpu =>
    intro d
    by_cases hd : d = c
    · subst hd
      simpa only [Function.update_self] using hu
    · simpa only [Function.update_of_ne hd] using h.cpu d
  case owns =>
    intro d
    by_cases hd : d = c
    · subst hd
      simpa only [Function.update_self] using howns
    · simpa only [Function.update_of_ne hd] using hothers d hd
  case exclusive =>
    intro d e lk hlk hlk'
    by_cases hd : d = c <;> by_cases he : e = c
    · rw [hd, he]
    · subst hd
      simp only [Function.update_self, Function.update_of_ne he] at hlk hlk'
      exact absurd hlk' (hexcl e lk he hlk)
    · subst he
      simp only [Function.update_self, Function.update_of_ne hd] at hlk hlk'
      exact absurd hlk (hexcl d lk hd hlk')
    · simp only [Function.update_of_ne hd, Function.update_of_ne he] at hlk hlk'
      exact h.exclusive d e lk hlk hlk'
  case parked =>
    exact h.parked

theorem setCpu (h : Inv s) {u : Cpu P L} (hu : CpuOk u) (hheld : u.held = (s.cpus c).held)
    (htop : (s.cpus c).top.Settled) (htop' : u.top.Settled) : Inv (s.setCpu c u) := by
  refine h.update hu ((h.owns c).keep hheld htop htop') (fun d _ => h.owns d) fun d lk hd hlk => ?_
  rw [hheld] at hlk
  exact h.not_held hlk hd

theorem setLock (h : Inv s) {lk : Lock P L} {x : Spinlock C} {u : Cpu P L} (hu : CpuOk u)
    (howns : Owns (Function.update s.locks lk x) c u)
    (hheld : ∀ k ∈ u.held, k = lk ∨ k ∈ (s.cpus c).held)
    (hothers : ∀ d, d ≠ c → lk ∉ (s.cpus d).held ∧ x.cpu ≠ some d) :
    Inv ((s.setLock lk x).setCpu c u) := by
  refine h.update hu howns (fun d hd => (h.owns d).others (hothers d hd).1 (hothers d hd).2) ?_
  intro d k hd hk
  obtain rfl | hk := hheld k hk
  · exact (hothers d hd).1
  · exact h.not_held hk hd

theorem execHolding (h : Inv s) {lk : Lock P L} {pc : HoldingPc} {caller : Asker P}
    (htop : (s.cpus c).top = .holding lk pc caller) : Inv (execHolding s c lk caller pc) := by
  have hu := h.cpu c
  have hsettled : (s.cpus c).top.Settled := by
    rw [htop]
    trivial
  have hnext : ∀ r, (caller.next lk r : Act P L).Settled := by
    intro r
    cases caller <;> cases r <;> trivial
  have hans := hu.answer htop
  cases pc with
  | locked =>
      rw [Interrupts.execHolding]
      split
      · have ht := hu.top
        rw [htop] at ht
        refine h.setCpu (hu.goto ?_ (by rw [htop]; rfl) ?_ ?_ fun _ _ => ?_) rfl hsettled trivial
        · rw [htop]
          cases caller <;> rfl
        · rw [htop]
          cases caller <;> exact id
        · cases caller <;> exact ht
        · rw [htop]
          cases caller <;> rfl
      · next hfree =>
        -- a lock that is free is not one of the thread
        have hnot : lk ∉ (s.cpus c).held := fun hlk => hfree ((h.owns c).locked lk hlk)
        rw [decide_eq_false hnot] at hans
        exact h.setCpu hans rfl hsettled (hnext false)
  | cpu =>
      refine h.setCpu ?_ rfl hsettled (hnext _)
      rwa [decide_eq_decide.2 ((h.owns c).cpu_iff hsettled lk)]

theorem execAcquire (h : Inv s) {lk : Lock P L} {pc : AcquirePc}
    (htop : (s.cpus c).top = .acquire lk pc) : Inv (execAcquire s c lk pc) := by
  have hu := h.cpu c
  have ht := hu.top
  rw [htop] at ht
  cases pc with
  | swap =>
      rw [Interrupts.execAcquire]
      split
      · exact h
      · next hfree =>
        refine h.setLock (hu.swap htop) ?_ (fun k hk => List.mem_cons.1 hk) fun d hd => ⟨?_, ?_⟩
        · constructor
          case locked =>
            intro k hk
            by_cases hne : k = lk
            · rw [hne, Function.update_self]
            · rw [Function.update_of_ne hne]
              exact (h.owns c).locked k ((List.mem_cons.1 hk).resolve_left hne)
          case held =>
            intro k hk
            by_cases hne : k = lk
            · rw [hne]
              exact List.mem_cons_self
            · rw [Function.update_of_ne hne] at hk
              exact List.mem_cons_of_mem lk ((h.owns c).held k hk)
          case cpu =>
            intro k hk hacq _
            have hne : k ≠ lk := fun heq => hacq (by rw [heq])
            rw [Function.update_of_ne hne]
            exact (h.owns c).cpu k ((List.mem_cons.1 hk).resolve_left hne) (by simp [htop]) (by simp [htop])
          case cleared =>
            exact fun k hk => by cases hk
        · exact fun hlk => hfree ((h.owns d).locked lk hlk)
        · exact fun hcpu => hfree ((h.owns d).locked lk ((h.owns d).held lk hcpu))
  | record =>
      have hmem : lk ∈ (s.cpus c).held := ht
      refine h.setLock ?_ ?_ (fun k hk => .inr hk) fun d hd => ⟨h.not_held hmem hd, ?_⟩
      · exact hu.goto (by rw [htop]; rfl) (by rw [htop]; rfl) (fun hon => hon.elim) trivial
          fun _ _ => by rw [htop]; rfl
      · constructor
        case locked =>
          intro k hk
          by_cases hne : k = lk
          · rw [hne, Function.update_self]
            exact (h.owns c).locked lk hmem
          · rw [Function.update_of_ne hne]
            exact (h.owns c).locked k hk
        case held =>
          intro k hk
          by_cases hne : k = lk
          · rw [hne]
            exact hmem
          · rw [Function.update_of_ne hne] at hk
            exact (h.owns c).held k hk
        case cpu =>
          intro k hk _ _
          by_cases hne : k = lk
          · rw [hne, Function.update_self]
          · rw [Function.update_of_ne hne]
            refine (h.owns c).cpu k hk ?_ (by simp [htop])
            rw [htop]
            intro heq
            cases heq
            exact hne rfl
        case cleared =>
          exact fun k hk => by cases hk
      · exact fun heq => hd (Option.some.inj heq).symm

theorem execRelease (h : Inv s) {lk : Lock P L} {pc : ReleasePc}
    (htop : (s.cpus c).top = .release lk pc) : Inv (execRelease s c lk pc) := by
  have hu := h.cpu c
  have ht := hu.top
  rw [htop] at ht
  have hmem : lk ∈ (s.cpus c).held := ht.1
  cases pc with
  | clear =>
      refine h.setLock ?_ ?_ (fun k hk => .inr hk) fun d hd => ⟨h.not_held hmem hd, ?_⟩
      · exact hu.goto (by rw [htop]; rfl) (by rw [htop]; rfl) (fun hon => hon.elim) ht
          fun _ _ => by rw [htop]; rfl
      · constructor
        case locked =>
          intro k hk
          by_cases hne : k = lk
          · rw [hne, Function.update_self]
            exact (h.owns c).locked lk hmem
          · rw [Function.update_of_ne hne]
            exact (h.owns c).locked k hk
        case held =>
          intro k hk
          by_cases hne : k = lk
          · rw [hne]
            exact hmem
          · rw [Function.update_of_ne hne] at hk
            exact (h.owns c).held k hk
        case cpu =>
          intro k hk _ hrel
          have hne : k ≠ lk := fun heq => hrel (by rw [heq]; rfl)
          rw [Function.update_of_ne hne]
          exact (h.owns c).cpu k hk (by simp [htop]) (by simp [htop])
        case cleared =>
          intro k hk
          cases hk
          rw [Function.update_self]
          exact fun heq => by cases heq
      · exact fun heq => by cases heq
  | unlock =>
      refine h.setLock (hu.unlock htop) ?_ (fun k hk => .inr (List.mem_of_mem_erase hk)) fun d hd => ⟨?_, ?_⟩
      · have hne : ∀ k ∈ (s.cpus c).held.erase lk, k ≠ lk ∧ k ∈ (s.cpus c).held := fun k hk =>
          hu.nodup.mem_erase_iff.1 hk
        constructor
        case locked =>
          intro k hk
          rw [Function.update_of_ne (hne k hk).1]
          exact (h.owns c).locked k (hne k hk).2
        case held =>
          intro k hk
          by_cases heq : k = lk
          · rw [heq, Function.update_self] at hk
            exact absurd hk ((h.owns c).cleared lk htop)
          · rw [Function.update_of_ne heq] at hk
            exact hu.nodup.mem_erase_iff.2 ⟨heq, (h.owns c).held k hk⟩
        case cpu =>
          intro k hk _ _
          rw [Function.update_of_ne (hne k hk).1]
          refine (h.owns c).cpu k (hne k hk).2 (by simp [htop]) ?_
          rw [htop]
          exact fun heq => (hne k hk).1 (by cases heq; rfl)
        case cleared =>
          exact fun k hk => by cases hk
      · exact h.not_held hmem hd
      · exact fun hcpu => h.not_held hmem hd ((h.owns d).held lk hcpu)

theorem execSched (h : Inv s) {pc : SchedPc P} (htop : (s.cpus c).top = .sched pc) (state : Bool) :
    Inv (execSched s c state pc) := by
  have hu := h.cpu c
  have hsettled : (s.cpus c).top.Settled := by
    rw [htop]
    trivial
  cases pc with
  | checks p =>
      refine h.setCpu (hu.schedChecks htop state) ?_ hsettled ?_
      · unfold Cpu.schedChecks
        split_ifs <;> rfl
      · unfold Cpu.schedChecks
        split_ifs <;> trivial
  | swtch p i =>
      have hpark := h.park (p := p)
        (t := some ⟨.sched (.back i), (s.cpus c).below, some ((s.cpus c).began, (s.cpus c).base)⟩)
        fun x hx => (Option.some.inj hx) ▸ hu.swtch_context htop
      exact hpark.setCpu (hu.swtch htop) rfl hsettled trivial
  | back i => exact h.setCpu (hu.back htop) rfl hsettled trivial

theorem execScheduler (h : Inv s) (procs : List P) (htop : (s.cpus c).top = .code)
    (hrun : (s.cpus c).running = none) (hbelow : (s.cpus c).below = []) {runnable : Bool}
    {t : State C P L}
    (hstep : execScheduler procs s c runnable (s.cpus c).scheduler = some t) : Inv t := by
  have hu := h.cpu c
  have hheld := hu.held_eq htop hrun hbelow
  have hpairs := hu.alone hrun hbelow
  have hsettled : (s.cpus c).top.Settled := by
    rw [htop]
    trivial
  cases hpc : (s.cpus c).scheduler with
  | intrOn =>
      rw [hpc] at hstep hheld
      obtain rfl := Option.some.inj hstep
      have hon := (hu.intr htop hheld hpairs hbelow true).loop htop hrun hbelow hheld .intrOff rfl
      exact h.setCpu hon rfl hsettled hsettled
  | intrOff =>
      rw [hpc] at hstep hheld
      obtain rfl := Option.some.inj hstep
      have hoff := (hu.intr htop hheld hpairs hbelow false).loop htop hrun hbelow hheld (.scan procs) rfl
      exact h.setCpu hoff rfl hsettled hsettled
  | scan rest =>
      rw [hpc] at hstep hheld
      cases rest with
      | nil =>
          obtain rfl := Option.some.inj hstep
          exact h.setCpu (hu.loop htop hrun hbelow hheld .intrOn rfl) rfl hsettled hsettled
      | cons p rest =>
          obtain rfl := Option.some.inj hstep
          exact h.setCpu (hu.look htop hrun hbelow hheld p rest) rfl hsettled trivial
  | got p rest =>
      rw [hpc] at hstep hheld
      simp only [Interrupts.execScheduler] at hstep
      split at hstep
      · obtain ⟨x, hx, rfl⟩ := Option.map_eq_some_iff.1 hstep
        have hok := h.parked p x hx
        have hpark := h.park (p := p) (t := none) fun y hy => by cases hy
        refine hpark.setCpu (hu.resume htop hrun hbelow hpc hok) rfl hsettled ?_
        obtain rfl | ⟨i, htop', -⟩ := hok
        · trivial
        · rw [htop']
          trivial
      · obtain rfl := Option.some.inj hstep
        exact h.setCpu (hu.leave htop hrun hbelow hheld rest _) rfl hsettled trivial
  | back p rest =>
      rw [hpc] at hstep hheld
      obtain rfl := Option.some.inj hstep
      exact h.setCpu (hu.leave htop hrun hbelow hheld rest none) rfl hsettled trivial

theorem exec (h : Inv s) (procs : List P) {state : Bool} {t : State C P L}
    (hstep : exec procs s c state (s.cpus c).top = some t) : Inv t := by
  have hu := h.cpu c
  cases htop : (s.cpus c).top with
  | code =>
      rw [htop] at hstep
      simp only [Interrupts.exec] at hstep
      split at hstep
      · next hcond => exact h.execScheduler procs htop hcond.1 hcond.2 hstep
      · cases hstep
  | pushOff pc caller =>
      rw [htop] at hstep
      obtain rfl := Option.some.inj hstep
      refine h.setCpu (hu.pushOff htop) ?_ (by rw [htop]; trivial) ?_
      · cases pc <;> rfl
      · cases pc <;> cases caller <;> trivial
  | holding lk pc caller =>
      rw [htop] at hstep
      obtain rfl := Option.some.inj hstep
      exact h.execHolding htop
  | acquire lk pc =>
      rw [htop] at hstep
      obtain rfl := Option.some.inj hstep
      exact h.execAcquire htop
  | release lk pc =>
      rw [htop] at hstep
      obtain rfl := Option.some.inj hstep
      exact h.execRelease htop
  | popOff caller =>
      rw [htop] at hstep
      obtain rfl := Option.some.inj hstep
      refine h.setCpu (hu.popOff htop) ?_ (by rw [htop]; trivial) ?_ <;> rw [hu.popOff_eq htop]
      trivial
  | sched pc =>
      rw [htop] at hstep
      obtain rfl := Option.some.inj hstep
      exact h.execSched htop state
  | panic msg =>
      rw [htop] at hstep
      cases hstep

theorem call (h : Inv s) {f : Call P L} (htop : (s.cpus c).top = .code)
    (hthread : (s.cpus c).running ≠ none ∨ (s.cpus c).below ≠ [])
    (hdisc : Disciplined s (.call c f)) (hothers : AcquiresOthers s (.call c f)) {t : State C P L}
    (hstep : call s c f = some t) : Inv t := by
  have hu := h.cpu c
  have hsettled : (s.cpus c).top.Settled := by
    rw [htop]
    trivial
  have hgoto : ∀ a : Act P L, a.inside = 0 → a.saved (s.cpus c).intena = (s.cpus c).intena → ¬ a.OnLock →
      (s.cpus c).TopOk a → CpuOk ((s.cpus c).goto a) := by
    intro a hinside hsaved honlock hok
    refine hu.goto (hinside.trans (by rw [htop]; rfl)) (hsaved.trans (by rw [htop]; rfl))
      (fun hon => absurd hon honlock) hok ?_
    intro hrun hbelow
    exact absurd hthread (by simp [hrun, hbelow])
  cases f with
  | acquire lk =>
      obtain rfl := Option.some.inj hstep
      refine h.setCpu (hgoto _ rfl rfl id ⟨fun k hk => ?_, fun hcode => ?_, trivial⟩) rfl hsettled trivial
      · cases hk
        exact hothers
      · cases hcode
  | release lk =>
      obtain rfl := Option.some.inj hstep
      exact h.setCpu (hgoto _ rfl rfl id hdisc) rfl hsettled trivial
  | pushOff =>
      obtain rfl := Option.some.inj hstep
      refine h.setCpu (hgoto _ rfl rfl id ⟨fun k hk => ?_, fun _ => hthread, trivial⟩) rfl hsettled trivial
      cases hk
  | popOff =>
      obtain rfl := Option.some.inj hstep
      exact h.setCpu (hu.unpair htop hdisc.1 hdisc.2) rfl hsettled trivial
  | sched =>
      obtain ⟨p, hp, rfl⟩ := Option.map_eq_some_iff.1 hstep
      obtain ⟨q, hq, hheld⟩ := Option.map_eq_some_iff.1 hdisc.1
      obtain rfl : p = q := Option.some.inj (hp.symm.trans (hu.running q hq).1)
      exact h.setCpu (hgoto _ rfl rfl id ⟨rfl, hq, hheld.symm, hdisc.2⟩) rfl hsettled trivial
  | intrOn =>
      obtain rfl := Option.some.inj hstep
      exact h.setCpu (hu.intr htop hdisc.1 hdisc.2.1 hdisc.2.2 true) rfl hsettled hsettled
  | intrOff =>
      obtain rfl := Option.some.inj hstep
      exact h.setCpu (hu.intr htop hdisc.1 hdisc.2.1 hdisc.2.2 false) rfl hsettled hsettled

theorem step (h : Inv s) {procs : List P} {l : Label C P L} (hdisc : Disciplined s l)
    (hothers : AcquiresOthers s l) {t : State C P L} (hstep : step procs s l = some t) : Inv t := by
  cases l with
  | call c f =>
      simp only [Interrupts.step] at hstep
      split at hstep
      · next hcond => exact h.call hcond.1 hcond.2 hdisc hothers hstep
      · cases hstep
  | exec c state => exact h.exec procs hstep
  | interrupt c =>
      simp only [Interrupts.step] at hstep
      split at hstep
      · next hsie =>
        obtain rfl := Option.some.inj hstep
        exact h.setCpu ((h.cpu c).interrupt hsie) rfl ((h.cpu c).interruptible hsie).settled trivial
      · cases hstep
  | sret c =>
      simp only [Interrupts.step] at hstep
      split at hstep
      · next a rest htop hbelow =>
        obtain rfl := Option.some.inj hstep
        refine h.setCpu ((h.cpu c).sret htop hbelow hdisc.1 hdisc.2) rfl (by rw [htop]; trivial) ?_
        obtain hb | ⟨b, hb, hint, -⟩ := (h.cpu c).below
        · rw [hb] at hbelow
          cases hbelow
        · rw [hb] at hbelow
          cases hbelow
          exact hint.settled
      · cases hstep
  | fork p =>
      simp only [Interrupts.step] at hstep
      split at hstep
      · obtain rfl := Option.some.inj hstep
        exact h.park fun x hx => .inl (Option.some.inj hx).symm
      · cases hstep

end Inv

/-! ## Every run -/

variable [DecidableEq C]

/-- How interrupts, `noff` and the locks of the threads belong together. -/
structure InterruptsMatch (procs : List P) (s : State C P L) : Prop where
  /-- Interrupts are off where a lock is held, or in a pair of `push_off` and `pop_off`. -/
  off : ∀ c, (s.cpus c).held ≠ [] ∨ (s.cpus c).pairs ≠ [] → (s.cpus c).sie = false
  /-- Outside the `push_off` or `pop_off` that is part of an `acquire` or a `release`. -/
  noff : ∀ c, (s.cpus c).top.inside = 0 → (s.cpus c).noff = (s.cpus c).held.length + (s.cpus c).pairs.length
  panic : ∀ c msg, (s.cpus c).top = .panic msg →
    msg ∉ [Panic.acquire, .release, .popOffInterruptible, .popOff]
  /-- The `pop_off` in the `release` of the last lock. -/
  restored : ∀ c state t, (s.cpus c).top = .popOff .release → (s.cpus c).held = [] →
    step procs s (.exec c state) = some t → (t.cpus c).sie = (s.cpus c).began
  /-- The `pop_off` that ends the outermost pair of a thread without locks. -/
  paired : ∀ c state t, (s.cpus c).top = .popOff .code → (s.cpus c).held = [] → (s.cpus c).pairs = [] →
    step procs s (.exec c state) = some t → (t.cpus c).sie = (s.cpus c).base

/-- The last `pop_off` switches interrupts on if they were on where `noff` was 0. -/
theorem Inv.popOff_sie {s t : State C P L} (h : Inv s) {procs : List P} {c : C} {state : Bool} {caller : Popper}
    (htop : (s.cpus c).top = .popOff caller) (hheld : (s.cpus c).held = [])
    (hstep : Interrupts.step procs s (.exec c state) = some t) :
    (t.cpus c).sie = (decide ((s.cpus c).pairs = []) && (s.cpus c).base) := by
  have hu := h.cpu c
  have hpos : 0 < (s.cpus c).noff := by rw [hu.depth, htop]; exact Nat.succ_pos _
  have hintena := hu.base_eq_intena hpos fun i heq => by rw [htop] at heq; cases heq
  simp only [Interrupts.step, htop, Interrupts.exec] at hstep
  obtain rfl := Option.some.inj hstep
  simp only [State.setCpu, Function.update_self, hu.popOff_eq htop, hheld, List.length_nil, Nat.zero_add,
    List.length_eq_zero_iff, hintena]

theorem Inv.interruptsMatch {s : State C P L} (h : Inv s) (procs : List P) : InterruptsMatch procs s := by
  constructor
  case off =>
    intro c hlock
    rcases hlock with hheld | hpairs
    · obtain ⟨lk, hlk⟩ := List.exists_mem_of_ne_nil _ hheld
      exact (h.cpu c).off ((h.cpu c).noff_pos hlk)
    · exact (h.cpu c).off ((h.cpu c).noff_pos_of_pairs hpairs)
  case noff =>
    intro c hinside
    rw [(h.cpu c).depth, hinside, Nat.add_zero]
  case panic =>
    intro c msg htop
    have ht := (h.cpu c).top
    rw [htop] at ht
    rw [ht.1]
    decide
  case restored =>
    intro c state t htop hheld hstep
    rw [h.popOff_sie htop hheld hstep, (h.cpu c).began (.inr (by rw [htop]; trivial))]
    by_cases hpairs : (s.cpus c).pairs = []
    · rw [decide_eq_true hpairs, hpairs]
      exact (Bool.and_true _).symm
    · rw [decide_eq_false hpairs, (h.cpu c).getLast_pairs hheld hpairs]
      exact (Bool.and_false _).symm
  case paired =>
    intro c state t htop hheld hpairs hstep
    rw [h.popOff_sie htop hheld hstep, decide_eq_true hpairs, Bool.true_and]

/-- On any number of CPUs, for threads that release what they have, call `push_off` and `pop_off` in pairs, call
    `sched` with their own `p->lock` alone and acquire only what they do not have. -/
theorem interrupts_survive (procs : List P) {run : List (Label C P L)} {s : State C P L}
    (hok : AllSteps (step procs) (fun s l => Disciplined s l ∧ AcquiresOthers s l) boot run)
    (hrun : runSteps (step procs) boot run = some s) : InterruptsMatch procs s := by
  have hinv : Inv s :=
    runSteps_invariant_of_allSteps (fun s l t hs hl hstep => hs.step hl.1 hl.2 hstep) boot_inv hok hrun
  exact hinv.interruptsMatch procs

/-- The scheduler of a CPU takes the lock of the one process and gives it the CPU. -/
def dispatch (c : Bool) : List (Label Bool Unit Unit) :=
  List.replicate 9 (.exec c false) ++ [.exec c true]

/-- In a pair of `push_off` and `pop_off` the process takes another lock. -/
def paired : List (Label Bool Unit Unit) :=
  .call false .pushOff :: List.replicate 3 (.exec false false) ++
  .call false (.acquire (.other ())) :: List.replicate 6 (.exec false false) ++
  .call false (.release (.other ())) :: List.replicate 5 (.exec false false) ++
  [.call false .popOff, .exec false false]

/-- The process turns interrupts on, takes a lock in a pair of its own and calls `yield`, which goes on on the other
    CPU, up to the last step of `release`. -/
def migration : List (Label Bool Unit Unit) :=
  dispatch false ++ .call false (.release (.proc ())) :: List.replicate 5 (.exec false false) ++
  .call false .intrOn :: paired ++ .call false (.acquire (.proc ())) :: List.replicate 6 (.exec false false) ++
  .call false .sched :: List.replicate 4 (.exec false false) ++ List.replicate 6 (.exec false false) ++
  dispatch true ++ .exec true false :: .call true (.release (.proc ())) ::
  List.replicate 4 (.exec true false)

theorem interrupts_survive_migration :
    ∃ s t, runSteps (step [()]) boot migration = some s ∧ InterruptsMatch [()] s ∧
      (s.cpus true).top = .popOff .release ∧ (s.cpus true).held = [] ∧
      step [()] s (.exec true false) = some t ∧ (t.cpus true).sie = true := by
  have hend : (runSteps (step [()]) (boot : State Bool Unit Unit) migration).map
      (fun s => ((s.cpus true).top, (s.cpus true).held, (s.cpus true).began)) =
      some (.popOff .release, [], true) := by decide +kernel
  obtain ⟨s, hs, heq⟩ := Option.map_eq_some_iff.1 hend
  simp only [Prod.mk.injEq] at heq
  obtain ⟨htop, hheld, hbegan⟩ := heq
  have hmatch := interrupts_survive [()] (by decide +kernel) hs
  have hstep : step [()] s (.exec true false) = some (s.setCpu true (s.cpus true).popOff) := by
    simp only [step, htop, exec]
  exact ⟨s, _, hs, hmatch, htop, hheld, hstep, by rw [hmatch.restored true false _ htop hheld hstep, hbegan]⟩

/-- A process acquires a lock twice. -/
def twice : List (Label Bool Unit Unit) :=
  dispatch false ++ .call false (.acquire (.other ())) :: List.replicate 6 (.exec false false) ++
  .call false (.acquire (.other ())) :: List.replicate 5 (.exec false false)

/-- `panic("acquire")` is there for a thread that acquires what it has. -/
theorem acquire_twice_panics :
    AllSteps (step [()]) Disciplined boot twice ∧
      (runSteps (step [()]) boot twice).map (fun s => (s.cpus false).top) =
        some (.panic .acquire) := by
  decide

end Xv6.Interrupts
