import Xv6.Spinlock.Model

set_option autoImplicit false

/-! # What holds in every state

`CpuOk` is about one CPU: its `noff` counts the locks of the thread on it, its own calls of `push_off`
and the call it is in, and its `intena`, or the copy of it that `sched` has, says how interrupts were at
the first of them. `Owns` says what the locks tell of their holder. -/

namespace Xv6.Interrupts

open Xv6.Lib

variable {C P L : Type}

/-! ## What an action stands for -/

namespace Act

/-- What `noff` counts besides the locks that the thread has and its own calls of `push_off`. -/
def inside : Act P L → Nat
  | holding _ _ .acquire | acquire _ .swap | popOff _ => 1
  | _ => 0

/-- The `push_off` of an `acquire` has been called, or the `pop_off` of a `release` is. -/
def OnLock : Act P L → Prop
  | pushOff (.count _) (.acquire _) | holding _ _ .acquire | acquire _ .swap | popOff .release => True
  | _ => False

/-- What `intena` is as soon as the thread uses it. -/
def saved (intena : Bool) : Act P L → Bool
  | sched (.back i) => i
  | _ => intena

/-- Whether an interrupt may come before it. -/
def Interruptible : Act P L → Prop
  | code | pushOff .intrGet _ | pushOff (.intrOff true) _ => True
  | _ => False

/-- `lk->cpu` is as it should be there, for every lock of the thread. -/
def Settled : Act P L → Prop
  | acquire _ .record | release _ .unlock => False
  | _ => True

theorem Settled.ne {a : Act P L} (h : a.Settled) (lk : Lock P L) :
    a ≠ .acquire lk .record ∧ a ≠ .release lk .unlock := by
  constructor
  · rintro rfl
    exact h
  · rintro rfl
    exact h

theorem Interruptible.settled {a : Act P L} (h : a.Interruptible) : a.Settled := by
  cases a with
  | code | pushOff pc caller => trivial
  | _ => cases h

/-- The locks that the thread has after the call it is in. -/
def after [DecidableEq P] [DecidableEq L] (held : List (Lock P L)) : Act P L → List (Lock P L)
  | pushOff _ (.acquire lk) | holding lk _ .acquire | acquire lk .swap => lk :: held
  | holding lk _ .release | release lk _ => held.erase lk
  | _ => held

end Act

/-- The lock that the scheduler has there. -/
def SchedulerPc.locks : SchedulerPc P → List (Lock P L)
  | .got p _ | .back p _ => [.proc p]
  | _ => []

/-! ## The invariant -/

namespace Cpu

/-- The thread on the CPU may come to where it is. -/
def TopOk (u : Cpu P L) : Act P L → Prop
  | .code | .popOff _ => True
  | .pushOff pc caller =>
      (∀ lk, caller = .acquire lk → lk ∉ u.held) ∧ (caller = .code → u.running ≠ none ∨ u.below ≠ []) ∧
        match pc with
        | .intrGet => True
        | .intrOff old => u.sie = old
        | .count old =>
            u.sie = false ∧ (u.held = [] → u.pairs = [] → u.base = old ∧ (u.below ≠ [] → old = false))
  | .holding lk _ .acquire | .acquire lk .swap => lk ∉ u.held
  | .acquire lk .record => lk ∈ u.held
  | .holding lk _ .release | .release lk _ => lk ∈ u.held ∧ ∀ h ∈ u.pairs, lk ∉ h
  | .holding lk _ (.sched p) => lk = .proc p ∧ u.running = some p ∧ u.held = [.proc p] ∧ u.pairs = []
  | .sched (.checks p) => u.running = some p ∧ u.held = [.proc p] ∧ u.pairs = []
  | .sched (.swtch p i) => u.running = some p ∧ u.held = [.proc p] ∧ u.pairs = [] ∧ i = u.intena
  | .sched (.back _) => ∃ p, u.running = some p ∧ u.held = [.proc p] ∧ u.pairs = []
  | .panic msg => msg = .schedRunning ∧ u.held ≠ [] ∧ u.running ≠ none

/-- The locks that the scheduler is about to have. -/
def owed [DecidableEq P] [DecidableEq L] (u : Cpu P L) : List (Lock P L) :=
  match u.below with
  | [] => u.top.after u.held
  | a :: _ => a.after []

end Cpu

structure CpuOk [DecidableEq P] [DecidableEq L] (u : Cpu P L) : Prop where
  depth : u.noff = u.held.length + u.pairs.length + u.top.inside
  off : 0 < u.noff → u.sie = false
  nodup : u.held.Nodup
  saved : 0 < u.noff → u.top.saved u.intena = u.base
  /-- In a pair of its own the thread keeps the locks that it had before. -/
  nested : ∀ h ∈ u.pairs, h ⊆ u.held
  /-- Interrupts were off where it acquired the first lock if it was in a pair of its own there. -/
  began : u.held ≠ [] ∨ u.top.OnLock → u.began = (u.base && u.pairs.getLast? != some [])
  top : u.TopOk u.top
  below : u.below = [] ∨
    ∃ a, u.below = [a] ∧ a.Interruptible ∧ u.sie = false ∧ (0 < u.noff → u.base = false)
  scheduler : u.running = none → u.owed = u.scheduler.locks
  alone : u.running = none → u.below = [] → u.pairs = []
  running : ∀ p, u.running = some p → u.proc = some p ∧ ∃ rest, u.scheduler = .back p rest
  thread : ∀ pc, .pushOff pc .code ∈ u.below → u.running ≠ none

/-- The locks of the CPU `c`, on which `held` are taken. -/
structure Owns (locks : Lock P L → Spinlock C) (c : C) (u : Cpu P L) : Prop where
  locked : ∀ lk ∈ u.held, (locks lk).locked = true
  held : ∀ lk, (locks lk).cpu = some c → lk ∈ u.held
  cpu : ∀ lk ∈ u.held, u.top ≠ .acquire lk .record → u.top ≠ .release lk .unlock →
    (locks lk).cpu = some c
  cleared : ∀ lk, u.top = .release lk .unlock → (locks lk).cpu ≠ some c

/-- A thread that is not on a CPU is in `sched`, or is to begin in `forkret`. -/
def Context.Ok (t : Context P L) : Prop :=
  t = .forkret ∨ ∃ i, t.top = .sched (.back i) ∧ t.began = some (i, i) ∧
    (t.below = [] ∨ ∃ a, t.below = [a] ∧ a.Interruptible ∧ i = false)

structure Inv [DecidableEq P] [DecidableEq L] (s : State C P L) : Prop where
  cpu : ∀ c, CpuOk (s.cpus c)
  owns : ∀ c, Owns s.locks c (s.cpus c)
  exclusive : ∀ c d lk, lk ∈ (s.cpus c).held → lk ∈ (s.cpus d).held → c = d
  parked : ∀ p t, s.parked p = some t → t.Ok

variable [DecidableEq P] [DecidableEq L]

theorem boot_inv : Inv (boot : State C P L) := by
  constructor
  case cpu =>
    intro c
    constructor <;> simp [boot, Cpu.boot, Act.inside, Cpu.TopOk, Cpu.owed, Act.after, SchedulerPc.locks]
  case owns =>
    intro c
    constructor <;> simp [boot, Cpu.boot]
  case exclusive =>
    simp [boot, Cpu.boot]
  case parked =>
    intro p t ht
    exact .inl (Option.some.inj ht).symm

/-! ## What one CPU does for itself -/

namespace CpuOk

variable {u : Cpu P L}

theorem noff_pos (h : CpuOk u) {lk : Lock P L} (hlk : lk ∈ u.held) : 0 < u.noff := by
  have := List.length_pos_of_mem hlk
  rw [h.depth]
  omega

theorem noff_pos_of_pairs (h : CpuOk u) (hpairs : u.pairs ≠ []) : 0 < u.noff := by
  have := List.length_pos_iff.2 hpairs
  rw [h.depth]
  omega

/-- Where `noff` is 0 the thread has nothing. -/
theorem nothing (h : CpuOk u) (hnoff : u.noff = 0) : u.held = [] ∧ u.pairs = [] ∧ u.top.inside = 0 := by
  have hdepth := h.depth
  rw [hnoff] at hdepth
  exact ⟨List.length_eq_zero_iff.1 (by omega), List.length_eq_zero_iff.1 (by omega), by omega⟩

/-- A step in which the scheduler stays where it is. -/
theorem scheduler_of (h : CpuOk u) {v : Cpu P L} (hrunning : v.running = u.running)
    (hscheduler : v.scheduler = u.scheduler) (hbelow : v.below = u.below)
    (hafter : u.running = none → u.below = [] → v.top.after v.held = u.top.after u.held) :
    v.running = none → v.owed = v.scheduler.locks := by
  intro hnone
  rw [hrunning] at hnone
  rw [hscheduler, ← h.scheduler hnone]
  unfold Cpu.owed
  rw [hbelow]
  cases hb : u.below with
  | nil => exact hafter hnone hb
  | cons a rest => rfl

theorem noff_eq_zero (h : CpuOk u) (hsie : u.sie = true) : u.noff = 0 := by
  by_contra hne
  rw [h.off (Nat.pos_of_ne_zero hne)] at hsie
  cases hsie

/-- Without locks, what has been in a pair stays in it. -/
theorem getLast_pairs (h : CpuOk u) (hheld : u.held = []) (hpairs : u.pairs ≠ []) : u.pairs.getLast? = some [] := by
  obtain ⟨l, hl⟩ := Option.ne_none_iff_exists'.1 (mt List.getLast?_eq_none_iff.1 hpairs)
  have hsub := h.nested l (List.mem_of_getLast? hl)
  rw [hheld] at hsub
  rw [hl, List.subset_nil.1 hsub]

/-- A step of the thread to another action that stands for the same. -/
theorem goto (h : CpuOk u) {a : Act P L} (hinside : a.inside = u.top.inside)
    (hsaved : a.saved u.intena = u.top.saved u.intena) (honlock : a.OnLock → u.top.OnLock) (htop : u.TopOk a)
    (hafter : u.running = none → u.below = [] → a.after u.held = u.top.after u.held) :
    CpuOk (u.goto a) := by
  constructor
  case depth =>
    exact h.depth.trans (by rw [← hinside]; rfl)
  case off =>
    exact h.off
  case nodup =>
    exact h.nodup
  case saved =>
    intro hpos
    exact hsaved.trans (h.saved hpos)
  case nested =>
    exact h.nested
  case began =>
    exact fun hlock => h.began (hlock.imp_right honlock)
  case top =>
    cases a <;> exact htop
  case below =>
    exact h.below
  case scheduler =>
    exact h.scheduler_of rfl rfl rfl hafter
  case alone =>
    exact h.alone
  case running =>
    exact h.running
  case thread =>
    exact h.thread

/-- The caller of `holding` goes on with the right answer. -/
theorem answer (h : CpuOk u) {lk : Lock P L} {pc : HoldingPc} {caller : Asker P}
    (htop : u.top = .holding lk pc caller) : CpuOk (u.goto (caller.next lk (decide (lk ∈ u.held)))) := by
  have ht := h.top
  rw [htop] at ht
  cases caller with
  | acquire =>
      have hnot : lk ∉ u.held := ht
      rw [decide_eq_false hnot]
      exact h.goto (by rw [htop]; rfl) (by rw [htop]; rfl) (fun _ => by rw [htop]; trivial) hnot
        fun _ _ => by rw [htop]; rfl
  | release =>
      have hmem : lk ∈ u.held ∧ ∀ h ∈ u.pairs, lk ∉ h := ht
      rw [decide_eq_true hmem.1]
      exact h.goto (by rw [htop]; rfl) (by rw [htop]; rfl) (fun h => h.elim) hmem fun _ _ => by rw [htop]; rfl
  | sched p =>
      obtain ⟨hlk, hrun, hheld, hpairs⟩ := ht
      have hmem : lk ∈ u.held := by
        rw [hlk, hheld]
        exact List.mem_singleton_self _
      rw [decide_eq_true hmem]
      exact h.goto (by rw [htop]; rfl) (by rw [htop]; rfl) (fun h => h.elim) ⟨hrun, hheld, hpairs⟩
        fun _ _ => by rw [htop]; rfl

/-- `push_off` switches interrupts off. -/
theorem pushOff_intrOff (h : CpuOk u) {old : Bool} {caller : Pusher P L}
    (htop : u.top = .pushOff (.intrOff old) caller) : CpuOk (u.pushOff caller (.intrOff old)) := by
  have ht := h.top
  have hdepth := h.depth
  rw [htop] at ht hdepth
  obtain ⟨hfresh, hcode, hold⟩ := ht
  have hbase : 0 < u.noff → ¬ (u.held = [] ∧ u.pairs = []) := by
    rintro hpos ⟨hheld, hpairs⟩
    rw [hdepth, hheld, hpairs] at hpos
    exact absurd hpos (Nat.lt_irrefl 0)
  constructor
  case depth =>
    exact hdepth
  case off =>
    intro _
    rfl
  case nodup =>
    exact h.nodup
  case saved =>
    intro hpos
    have hsaved := h.saved hpos
    rw [htop] at hsaved
    simpa only [Cpu.pushOff, Act.saved, if_neg (hbase hpos)] using hsaved
  case nested =>
    exact h.nested
  case began =>
    intro hlock
    simp only [Cpu.pushOff]
    by_cases hheld : u.held = []
    · have hacquire : caller ≠ .code := by
        rintro rfl
        exact hlock.elim (fun hne => hne hheld) fun hon => hon.elim
      rw [if_pos ⟨hheld, hacquire⟩]
      by_cases hpairs : u.pairs = []
      · rw [if_pos ⟨hheld, hpairs⟩, hpairs]
        exact (Bool.and_true _).symm
      · -- in a pair of its own interrupts are off already
        rw [h.getLast_pairs hheld hpairs, h.off (h.noff_pos_of_pairs hpairs)]
        exact (Bool.and_false _).symm
    · rw [if_neg fun hc => hheld hc.1, if_neg fun hc => hheld hc.1]
      exact h.began (.inl hheld)
  case top =>
    refine ⟨hfresh, hcode, rfl, fun hheld hpairs => ?_⟩
    have hnone : u.held = [] ∧ u.pairs = [] := ⟨hheld, hpairs⟩
    simp only [Cpu.pushOff, if_pos hnone]
    refine ⟨hold, fun hb => ?_⟩
    obtain hnone | ⟨a, -, -, hsie, -⟩ := h.below
    · exact absurd hnone hb
    · exact hold.symm.trans hsie
  case below =>
    obtain hb | ⟨a, hb, ha, hsie, hbase'⟩ := h.below
    · exact .inl hb
    · refine .inr ⟨a, hb, ha, rfl, fun hpos => ?_⟩
      simp only [Cpu.pushOff, if_neg (hbase hpos)]
      exact hbase' hpos
  case scheduler =>
    refine h.scheduler_of rfl rfl rfl fun _ _ => ?_
    rw [htop]
    cases caller <;> rfl
  case alone =>
    exact h.alone
  case running =>
    exact h.running
  case thread =>
    exact h.thread

/-- `push_off` counts. -/
theorem pushOff_count (h : CpuOk u) {old : Bool} {caller : Pusher P L}
    (htop : u.top = .pushOff (.count old) caller) : CpuOk (u.pushOff caller (.count old)) := by
  have ht := h.top
  have hdepth := h.depth
  rw [htop] at ht hdepth
  obtain ⟨hfresh, hcode, hsie, hbase⟩ := ht
  have hnext : ∀ i, (caller.next : Act P L).saved i = i := by cases caller <;> intro i <;> rfl
  constructor
  case depth =>
    show u.noff + 1 = _
    rw [hdepth]
    cases caller with
    | acquire lk => rfl
    | code =>
        simp only [Cpu.pushOff, Pusher.next, Pusher.pairs, Act.inside, List.length_cons]
        omega
  case off =>
    intro _
    exact hsie
  case nodup =>
    exact h.nodup
  case saved =>
    intro _
    -- the first `push_off` saves what it has found
    show caller.next.saved (if u.noff = 0 then old else u.intena) = u.base
    rw [hnext]
    split
    · next h0 =>
      obtain ⟨hheld, hpairs, -⟩ := h.nothing h0
      exact (hbase hheld hpairs).1.symm
    · next h0 =>
      have hsaved := h.saved (Nat.pos_of_ne_zero h0)
      rw [htop] at hsaved
      exact hsaved
  case nested =>
    cases caller with
    | acquire lk => exact h.nested
    | code =>
        intro l hl
        rcases List.mem_cons.1 hl with rfl | hl
        · exact List.Subset.refl _
        · exact h.nested l hl
  case began =>
    intro hlock
    cases caller with
    | acquire lk => exact h.began (.inr (by rw [htop]; trivial))
    | code =>
        have hheld : u.held ≠ [] := hlock.elim id fun hon => hon.elim
        have hbegan := h.began (.inl hheld)
        simp only [Cpu.pushOff, Pusher.pairs]
        by_cases hpairs : u.pairs = []
        · rw [hpairs] at hbegan ⊢
          have hne : (some u.held != some []) = true := by simpa using hheld
          rw [List.getLast?_singleton, hne]
          exact hbegan
        · rwa [List.getLast?_cons_of_ne_nil hpairs]
  case top =>
    cases caller with
    | acquire lk => exact hfresh lk rfl
    | code => trivial
  case below =>
    obtain hb | ⟨a, hb, ha, hoff, hbelow⟩ := h.below
    · exact .inl hb
    · refine .inr ⟨a, hb, ha, hoff, fun _ => ?_⟩
      by_cases h0 : u.noff = 0
      · obtain ⟨hheld, hpairs, -⟩ := h.nothing h0
        obtain ⟨hold, hfalse⟩ := hbase hheld hpairs
        exact hold.trans (hfalse (by rw [hb]; exact List.cons_ne_nil a []))
      · exact hbelow (Nat.pos_of_ne_zero h0)
  case scheduler =>
    refine h.scheduler_of rfl rfl rfl fun _ _ => ?_
    rw [htop]
    cases caller <;> rfl
  case alone =>
    intro hrun hb
    cases caller with
    | acquire lk => exact h.alone hrun hb
    | code => exact ((hcode rfl).elim (fun hne => hne hrun) fun hne => hne hb).elim
  case running =>
    exact h.running
  case thread =>
    exact h.thread

theorem pushOff (h : CpuOk u) {pc : PushPc} {caller : Pusher P L} (htop : u.top = .pushOff pc caller) :
    CpuOk (u.pushOff caller pc) := by
  cases pc with
  | intrGet =>
      have ht := h.top
      rw [htop] at ht
      refine h.goto (by rw [htop]; rfl) (by rw [htop]; rfl) (fun hon => hon.elim) ⟨ht.1, ht.2.1, rfl⟩ fun _ _ => ?_
      rw [htop]
      cases caller <;> rfl
  | intrOff old => exact h.pushOff_intrOff htop
  | count old => exact h.pushOff_count htop

/-- The thread undoes a `push_off` of its own. -/
theorem unpair (h : CpuOk u) (htop : u.top = .code) (hpairs : u.pairs ≠ [])
    (hheld : ∀ l ∈ u.pairs.head?, ∀ lk ∈ u.held, lk ∈ l) :
    CpuOk { u with pairs := u.pairs.tail, top := .popOff .code } := by
  have hdepth := h.depth
  have hsaved := h.saved
  rw [htop] at hdepth hsaved
  obtain ⟨l, rest, hcons⟩ := List.exists_cons_of_ne_nil hpairs
  constructor
  case depth =>
    rw [hcons, List.length_cons] at hdepth
    simp only [hcons, List.tail_cons, Act.inside] at hdepth ⊢
    omega
  case off =>
    exact h.off
  case nodup =>
    exact h.nodup
  case saved =>
    exact hsaved
  case nested =>
    exact fun l hl => h.nested l (List.mem_of_mem_tail hl)
  case began =>
    intro hlock
    have hne : u.held ≠ [] := hlock.elim id fun hon => hon.elim
    have hbegan := h.began (.inl hne)
    rw [hcons] at hbegan hheld ⊢
    by_cases hrest : rest = []
    · -- the pair has been around the first lock only if there are no locks now
      have hl : l ≠ [] := by
        rintro rfl
        obtain ⟨lk, hlk⟩ := List.exists_mem_of_ne_nil _ hne
        exact List.not_mem_nil (hheld [] rfl lk hlk)
      have hlast : (some l != some []) = true := by simpa using hl
      rw [hrest, List.getLast?_singleton, hlast] at hbegan
      rw [hrest]
      exact hbegan
    · rwa [List.getLast?_cons_of_ne_nil hrest] at hbegan
  case top =>
    trivial
  case below =>
    exact h.below
  case scheduler =>
    refine h.scheduler_of rfl rfl rfl fun _ _ => ?_
    rw [htop]
    rfl
  case alone =>
    intro hrun hb
    rw [h.alone hrun hb]
    rfl
  case running =>
    exact h.running
  case thread =>
    exact h.thread

/-- Where `pop_off` is called, neither of its tests fails. -/
theorem popOff_eq (h : CpuOk u) {caller : Popper} (htop : u.top = .popOff caller) :
    u.popOff = { u with
      noff := u.held.length + u.pairs.length, sie := decide (u.held.length + u.pairs.length = 0) && u.intena,
      top := .code } := by
  have hdepth : u.noff = u.held.length + u.pairs.length + 1 := by rw [h.depth, htop]; rfl
  have hsie : u.sie = false := h.off (by omega)
  have hnoff : ¬ u.held.length + u.pairs.length + 1 < 1 := by omega
  simp only [Cpu.popOff, hsie, hdepth, hnoff, Bool.false_eq_true, if_false, Nat.add_sub_cancel]

theorem base_eq_intena (h : CpuOk u) (hpos : 0 < u.noff) (htop : ∀ i, u.top ≠ .sched (.back i)) :
    u.intena = u.base := by
  rw [← h.saved hpos]
  unfold Act.saved
  split
  · next i htop' => exact absurd htop' (htop i)
  · rfl

theorem popOff (h : CpuOk u) {caller : Popper} (htop : u.top = .popOff caller) : CpuOk u.popOff := by
  have hpos : 0 < u.noff := by rw [h.depth, htop]; exact Nat.succ_pos _
  have hintena := h.base_eq_intena hpos fun i heq => by rw [htop] at heq; cases heq
  rw [h.popOff_eq htop]
  constructor
  case depth =>
    rfl
  case off =>
    intro hpos'
    simp only [decide_eq_false (Nat.pos_iff_ne_zero.1 hpos'), Bool.false_and]
  case nodup =>
    exact h.nodup
  case saved =>
    intro _
    exact hintena
  case nested =>
    exact h.nested
  case began =>
    exact fun hlock => h.began (.inl (hlock.elim id fun hon => hon.elim))
  case top =>
    trivial
  case below =>
    obtain hb | ⟨a, hb, ha, -, hbase⟩ := h.below
    · exact .inl hb
    · refine .inr ⟨a, hb, ha, ?_, fun _ => hbase hpos⟩
      simp only [hintena, hbase hpos, Bool.and_false]
  case scheduler =>
    refine h.scheduler_of rfl rfl rfl fun _ _ => ?_
    rw [htop]
    rfl
  case alone =>
    exact h.alone
  case running =>
    exact h.running
  case thread =>
    exact h.thread

theorem schedChecks (h : CpuOk u) {p : P} (htop : u.top = .sched (.checks p)) (running : Bool) :
    CpuOk (u.schedChecks p running) := by
  have ht := h.top
  rw [htop] at ht
  obtain ⟨hrun, hheld, hpairs⟩ := ht
  have hnoff : u.noff = 1 := by rw [h.depth, htop, hheld, hpairs]; rfl
  have hsie : u.sie = false := h.off (by omega)
  have hnot : ∀ {P : Prop}, u.running = none → P := fun hnone => by rw [hrun] at hnone; cases hnone
  simp only [Cpu.schedChecks, hnoff, hsie, ne_eq, not_true_eq_false, if_false, Bool.false_eq_true]
  split
  · refine h.goto (by rw [htop]; rfl) (by rw [htop]; rfl) (fun hon => hon.elim) ⟨rfl, ?_, ?_⟩
      fun hnone _ => hnot hnone
    · rw [hheld]
      exact List.cons_ne_nil _ _
    · rw [hrun]
      exact Option.some_ne_none p
  · exact h.goto (by rw [htop]; rfl) (by rw [htop]; rfl) (fun hon => hon.elim) ⟨hrun, hheld, hpairs, rfl⟩
      fun hnone _ => hnot hnone

theorem back (h : CpuOk u) {i : Bool} (htop : u.top = .sched (.back i)) :
    CpuOk { u with intena := i, top := .code } := by
  have ht := h.top
  have hdepth := h.depth
  have hsaved := h.saved
  rw [htop] at ht hdepth hsaved
  obtain ⟨p, hrun, -⟩ := ht
  constructor
  case depth =>
    exact hdepth
  case off =>
    exact h.off
  case nodup =>
    exact h.nodup
  case saved =>
    exact hsaved
  case nested =>
    exact h.nested
  case began =>
    exact fun hlock => h.began (.inl (hlock.elim id fun hon => hon.elim))
  case top =>
    trivial
  case below =>
    exact h.below
  case scheduler =>
    intro hnone
    rw [hrun] at hnone
    cases hnone
  case alone =>
    exact h.alone
  case running =>
    exact h.running
  case thread =>
    exact h.thread

/-! ## What changes the locks of a thread -/

theorem swap (h : CpuOk u) {lk : Lock P L} (htop : u.top = .acquire lk .swap) :
    CpuOk { u with top := .acquire lk .record, held := lk :: u.held } := by
  have hdepth := h.depth
  have hfresh := h.top
  have hsaved := h.saved
  rw [htop] at hdepth hfresh hsaved
  constructor
  case depth =>
    simp only [Act.inside, List.length_cons] at hdepth ⊢
    omega
  case off =>
    exact h.off
  case nodup =>
    exact List.nodup_cons.2 ⟨hfresh, h.nodup⟩
  case saved =>
    exact hsaved
  case nested =>
    exact fun l hl => List.subset_cons_of_subset lk (h.nested l hl)
  case began =>
    exact fun _ => h.began (.inr (by rw [htop]; trivial))
  case top =>
    exact List.mem_cons_self
  case below =>
    exact h.below
  case scheduler =>
    refine h.scheduler_of rfl rfl rfl fun _ _ => ?_
    rw [htop]
    rfl
  case alone =>
    exact h.alone
  case running =>
    exact h.running
  case thread =>
    exact h.thread

theorem unlock (h : CpuOk u) {lk : Lock P L} (htop : u.top = .release lk .unlock) :
    CpuOk { u with top := .popOff .release, held := u.held.erase lk } := by
  have hdepth := h.depth
  have ht := h.top
  have hsaved := h.saved
  rw [htop] at hdepth ht hsaved
  obtain ⟨hmem, hpairs⟩ : lk ∈ u.held ∧ ∀ l ∈ u.pairs, lk ∉ l := ht
  constructor
  case depth =>
    have hlen := List.length_erase_of_mem hmem
    have hpos := List.length_pos_of_mem hmem
    simp only [Act.inside] at hdepth ⊢
    omega
  case off =>
    exact h.off
  case nodup =>
    exact h.nodup.erase lk
  case saved =>
    exact hsaved
  case nested =>
    intro l hl x hx
    have hne : x ≠ lk := fun heq => hpairs l hl (heq ▸ hx)
    exact (List.mem_erase_of_ne hne).2 (h.nested l hl hx)
  case began =>
    exact fun _ => h.began (.inl (List.ne_nil_of_mem hmem))
  case top =>
    trivial
  case below =>
    exact h.below
  case scheduler =>
    refine h.scheduler_of rfl rfl rfl fun _ _ => ?_
    rw [htop]
    rfl
  case alone =>
    exact h.alone
  case running =>
    exact h.running
  case thread =>
    exact h.thread

/-! ## Interrupts -/

theorem interruptible (h : CpuOk u) (hsie : u.sie = true) : u.top.Interruptible := by
  obtain ⟨hheld, hpairs, hinside⟩ := h.nothing (h.noff_eq_zero hsie)
  have ht := h.top
  cases htop : u.top with
  | code => trivial
  | pushOff pc caller =>
      rw [htop] at ht
      cases pc with
      | intrGet => trivial
      | intrOff old =>
          obtain rfl : u.sie = old := ht.2.2
          rw [hsie]
          trivial
      | count old => rw [ht.2.2.1] at hsie; cases hsie
  | holding lk pc caller => cases caller <;> simp_all [Cpu.TopOk, Act.inside]
  | acquire lk pc => cases pc <;> simp_all [Cpu.TopOk, Act.inside]
  | release lk pc => simp_all [Cpu.TopOk]
  | popOff caller => simp_all [Act.inside]
  | sched pc => cases pc <;> simp_all [Cpu.TopOk]
  | panic msg => simp_all [Cpu.TopOk]

theorem interrupt (h : CpuOk u) (hsie : u.sie = true) :
    CpuOk { u with sie := false, top := .code, below := u.top :: u.below } := by
  have hnoff := h.noff_eq_zero hsie
  obtain ⟨hheld, hpairs, -⟩ := h.nothing hnoff
  have hbelow : u.below = [] := by
    obtain hb | ⟨a, -, -, hoff, -⟩ := h.below
    · exact hb
    · rw [hoff] at hsie
      cases hsie
  constructor
  case depth =>
    simp only [hnoff, hheld, hpairs, Act.inside, List.length_nil]
  case off =>
    intro _
    rfl
  case nodup =>
    exact h.nodup
  case saved =>
    intro hpos
    exact absurd hnoff (Nat.pos_iff_ne_zero.1 hpos)
  case nested =>
    exact h.nested
  case began =>
    exact fun hlock => (hlock.elim (fun hne => hne hheld) fun hon => hon.elim).elim
  case top =>
    trivial
  case below =>
    refine .inr ⟨u.top, by rw [hbelow], h.interruptible hsie, rfl, fun hpos => ?_⟩
    exact absurd hnoff (Nat.pos_iff_ne_zero.1 hpos)
  case scheduler =>
    intro hrun
    have howed := h.scheduler hrun
    simp only [Cpu.owed, hbelow, hheld] at howed ⊢
    exact howed
  case alone =>
    exact fun _ _ => hpairs
  case running =>
    exact h.running
  case thread =>
    intro pc hpc
    rw [hbelow, List.mem_singleton] at hpc
    have ht := h.top
    rw [← hpc] at ht
    exact (ht.2.1 rfl).resolve_right fun hne => hne hbelow

theorem sret (h : CpuOk u) {a : Act P L} {rest : List (Act P L)} (htop : u.top = .code)
    (hbelow : u.below = a :: rest) (hheld : u.held = []) (hpairs : u.pairs = []) :
    CpuOk { u with sie := true, top := a, below := rest } := by
  have hnoff : u.noff = 0 := by rw [h.depth, htop, hheld, hpairs]; rfl
  obtain hb | ⟨b, hb, ha, -, -⟩ := h.below
  · rw [hb] at hbelow
    cases hbelow
  rw [hb] at hbelow
  obtain ⟨rfl, rfl⟩ := List.cons.inj hbelow
  have hplain : b.inside = 0 ∧ ¬ b.OnLock := by
    cases b with
    | code => exact ⟨rfl, id⟩
    | pushOff pc caller =>
        cases pc with
        | count old => cases ha
        | _ => exact ⟨rfl, id⟩
    | _ => cases ha
  constructor
  case depth =>
    simp only [hnoff, hheld, hpairs, hplain.1, List.length_nil]
  case off =>
    intro hpos
    exact absurd hnoff (Nat.pos_iff_ne_zero.1 hpos)
  case nodup =>
    exact h.nodup
  case saved =>
    intro hpos
    exact absurd hnoff (Nat.pos_iff_ne_zero.1 hpos)
  case nested =>
    exact h.nested
  case began =>
    exact fun hlock => (hlock.elim (fun hne => hne hheld) hplain.2).elim
  case top =>
    cases b with
    | code => trivial
    | pushOff pc caller =>
        refine ⟨fun lk _ => by rw [hheld]; exact List.not_mem_nil, fun hcode => .inl ?_, ?_⟩
        · exact h.thread pc (by rw [hb, hcode]; exact List.mem_singleton_self _)
        · cases pc with
          | intrGet => trivial
          | intrOff old => cases old with
            | true => rfl
            | false => cases ha
          | count old => cases ha
    | _ => cases ha
  case below =>
    exact .inl rfl
  case scheduler =>
    intro hrun
    have howed := h.scheduler hrun
    simp only [Cpu.owed, hb, hheld] at howed ⊢
    exact howed
  case alone =>
    exact fun _ _ => hpairs
  case running =>
    exact h.running
  case thread =>
    exact fun pc hpc => absurd hpc List.not_mem_nil

/-- Where a thread has nothing interrupts may be switched by hand. -/
theorem intr (h : CpuOk u) (htop : u.top = .code) (hheld : u.held = []) (hpairs : u.pairs = [])
    (hbelow : u.below = []) (sie : Bool) : CpuOk { u with sie := sie } := by
  have hnoff : u.noff = 0 := by rw [h.depth, htop, hheld, hpairs]; rfl
  constructor
  case depth =>
    exact h.depth
  case off =>
    intro hpos
    exact absurd hnoff (Nat.pos_iff_ne_zero.1 hpos)
  case nodup =>
    exact h.nodup
  case saved =>
    exact h.saved
  case nested =>
    exact h.nested
  case began =>
    exact h.began
  case top =>
    show Cpu.TopOk _ u.top
    rw [htop]
    trivial
  case below =>
    exact .inl hbelow
  case scheduler =>
    exact h.scheduler_of rfl rfl rfl fun _ _ => rfl
  case alone =>
    exact h.alone
  case running =>
    exact h.running
  case thread =>
    exact h.thread

/-! ## The scheduler -/

theorem held_eq (h : CpuOk u) (htop : u.top = .code) (hrun : u.running = none) (hbelow : u.below = []) :
    u.held = u.scheduler.locks := by
  have howed := h.scheduler hrun
  simp only [Cpu.owed, hbelow, htop, Act.after] at howed
  exact howed

/-- Between two processes the scheduler has no lock. -/
theorem loop (h : CpuOk u) (htop : u.top = .code) (hrun : u.running = none) (hbelow : u.below = [])
    (hheld : u.held = []) (pc : SchedulerPc P) (hpc : (pc.locks : List (Lock P L)) = []) :
    CpuOk { u with scheduler := pc } := by
  constructor
  case depth =>
    exact h.depth
  case off =>
    exact h.off
  case nodup =>
    exact h.nodup
  case saved =>
    exact h.saved
  case nested =>
    exact h.nested
  case began =>
    exact h.began
  case top =>
    show Cpu.TopOk _ u.top
    rw [htop]
    trivial
  case below =>
    exact .inl hbelow
  case scheduler =>
    intro _
    simp only [Cpu.owed, hbelow, htop, Act.after, hheld, hpc]
  case alone =>
    exact h.alone
  case running =>
    intro p hp
    have hsome : u.running = some p := hp
    rw [hrun] at hsome
    cases hsome
  case thread =>
    exact h.thread

/-- The scheduler takes `p->lock`. -/
theorem look (h : CpuOk u) (htop : u.top = .code) (hrun : u.running = none) (hbelow : u.below = [])
    (hheld : u.held = []) (p : P) (rest : List P) :
    CpuOk { u with scheduler := .got p rest, top := .pushOff .intrGet (.acquire (.proc p)) } := by
  have hdepth := h.depth
  have hsaved := h.saved
  rw [htop] at hdepth hsaved
  constructor
  case depth =>
    exact hdepth
  case off =>
    exact h.off
  case nodup =>
    exact h.nodup
  case saved =>
    exact hsaved
  case nested =>
    exact h.nested
  case began =>
    exact fun hlock => h.began (.inl (hlock.elim id fun hon => hon.elim))
  case top =>
    refine ⟨fun lk _ => ?_, fun hcode => ?_, trivial⟩
    · show lk ∉ u.held
      rw [hheld]
      exact List.not_mem_nil
    · cases hcode
  case below =>
    exact .inl hbelow
  case scheduler =>
    intro _
    simp only [Cpu.owed, hbelow, Act.after, hheld, SchedulerPc.locks]
  case alone =>
    exact h.alone
  case running =>
    intro q hq
    have hsome : u.running = some q := hq
    rw [hrun] at hsome
    cases hsome
  case thread =>
    exact h.thread

/-- The scheduler gives `p->lock` back. -/
theorem leave (h : CpuOk u) (htop : u.top = .code) (hrun : u.running = none) (hbelow : u.below = [])
    {p : P} (hheld : u.held = [.proc p]) (rest : List P) (proc : Option P) :
    CpuOk { u with
      proc := proc, scheduler := .scan rest, top := .holding (.proc p) .locked .release } := by
  have hdepth := h.depth
  have hsaved := h.saved
  rw [htop] at hdepth hsaved
  constructor
  case depth =>
    exact hdepth
  case off =>
    exact h.off
  case nodup =>
    exact h.nodup
  case saved =>
    exact hsaved
  case nested =>
    exact h.nested
  case began =>
    exact fun hlock => h.began (.inl (hlock.elim id fun hon => hon.elim))
  case top =>
    refine ⟨?_, fun l hl => ?_⟩
    · show Lock.proc p ∈ u.held
      rw [hheld]
      exact List.mem_singleton_self _
    · have hpairs := h.alone hrun hbelow
      have hl : l ∈ u.pairs := hl
      rw [hpairs] at hl
      cases hl
  case below =>
    exact .inl hbelow
  case scheduler =>
    intro _
    simp only [Cpu.owed, hbelow, Act.after, hheld, SchedulerPc.locks, List.erase_cons_head]
  case alone =>
    exact h.alone
  case running =>
    intro q hq
    have hsome : u.running = some q := hq
    rw [hrun] at hsome
    cases hsome
  case thread =>
    exact h.thread

/-- The thread of `p` gives the CPU, with `p->lock`, to the scheduler. -/
theorem swtch (h : CpuOk u) {p : P} {i : Bool} (htop : u.top = .sched (.swtch p i)) :
    CpuOk { u with running := none, top := .code, below := [] } := by
  have hdepth := h.depth
  have hsaved := h.saved
  have ht := h.top
  rw [htop] at hdepth hsaved ht
  obtain ⟨hrun, hheld, hpairs, -⟩ := ht
  obtain ⟨-, rest, hpc⟩ := h.running p hrun
  constructor
  case depth =>
    exact hdepth
  case off =>
    exact h.off
  case nodup =>
    exact h.nodup
  case saved =>
    exact hsaved
  case nested =>
    exact h.nested
  case began =>
    exact fun hlock => h.began (.inl (hlock.elim id fun hon => hon.elim))
  case top =>
    trivial
  case below =>
    exact .inl rfl
  case scheduler =>
    intro _
    simp only [Cpu.owed, Act.after, hheld, hpc, SchedulerPc.locks]
  case alone =>
    exact fun _ _ => hpairs
  case running =>
    intro q hq
    cases hq
  case thread =>
    exact fun pc hpc => absurd hpc List.not_mem_nil

/-- The context that it leaves. -/
theorem swtch_context (h : CpuOk u) {p : P} {i : Bool} (htop : u.top = .sched (.swtch p i)) :
    Context.Ok (⟨.sched (.back i), u.below, some (u.began, u.base)⟩ : Context P L) := by
  have hsaved := h.saved
  have hdepth := h.depth
  have ht := h.top
  rw [htop] at hsaved hdepth ht
  obtain ⟨-, hheld, hpairs, hi⟩ := ht
  have hpos : 0 < u.noff := by rw [hdepth, hheld, hpairs]; exact Nat.succ_pos _
  have hbase : u.base = i := (hsaved hpos).symm.trans hi.symm
  have hbegan : u.began = i := by
    rw [h.began (.inl (by rw [hheld]; exact List.cons_ne_nil _ _)), hpairs, hbase]
    exact Bool.and_true i
  refine .inr ⟨i, rfl, by rw [hbegan, hbase], ?_⟩
  obtain hb | ⟨a, hb, ha, -, hfalse⟩ := h.below
  · exact .inl hb
  · exact .inr ⟨a, hb, ha, hbase.symm.trans (hfalse hpos)⟩

/-- The scheduler gives the CPU, with `p->lock`, to the thread of `p`, wherever that was before. -/
theorem resume (h : CpuOk u) (htop : u.top = .code) (hrun : u.running = none) (hbelow : u.below = [])
    {p : P} {rest : List P} (hpc : u.scheduler = .got p rest) {t : Context P L} (ht : t.Ok) :
    CpuOk { u with
      proc := some p, running := some p, scheduler := .back p rest, top := t.top, below := t.below,
      began := (t.began.map Prod.fst).getD u.began, base := (t.began.map Prod.snd).getD u.base } := by
  have hheld : u.held = [.proc p] := by
    rw [h.held_eq htop hrun hbelow, hpc]
    rfl
  have hpairs := h.alone hrun hbelow
  have hdepth := h.depth
  have hsaved := h.saved
  rw [htop] at hdepth hsaved
  have hpos : 0 < u.noff := by rw [hdepth, hheld, hpairs]; exact Nat.succ_pos _
  have hruns : ∀ q, some p = some q →
      some p = some q ∧ ∃ rest', (.back p rest : SchedulerPc P) = .back q rest' := by
    rintro q hq
    cases hq
    exact ⟨rfl, rest, rfl⟩
  have hnot : (some p = none) → ∀ {Q : Prop}, Q := fun hnone => by cases hnone
  obtain rfl | ⟨i, htop', hbegan, hbelow'⟩ := ht
  · constructor
    case depth =>
      exact hdepth
    case off =>
      exact h.off
    case nodup =>
      exact h.nodup
    case saved =>
      exact hsaved
    case nested =>
      exact h.nested
    case began =>
      exact fun hlock => h.began (.inl (hlock.elim id fun hon => hon.elim))
    case top =>
      trivial
    case below =>
      exact .inl rfl
    case scheduler =>
      exact fun hnone => hnot hnone
    case alone =>
      exact fun hnone => hnot hnone
    case running =>
      exact hruns
    case thread =>
      exact fun _ _ hnone => hnot hnone
  · rw [htop', hbegan]
    constructor
    case depth =>
      exact hdepth
    case off =>
      exact h.off
    case nodup =>
      exact h.nodup
    case saved =>
      intro _
      rfl
    case nested =>
      exact h.nested
    case began =>
      intro _
      simp only [hpairs]
      exact (Bool.and_true i).symm
    case top =>
      exact ⟨p, rfl, hheld, hpairs⟩
    case below =>
      obtain hb | ⟨a, hb, ha, hi⟩ := hbelow'
      · exact .inl hb
      · exact .inr ⟨a, hb, ha, h.off hpos, fun _ => hi⟩
    case scheduler =>
      exact fun hnone => hnot hnone
    case alone =>
      exact fun hnone => hnot hnone
    case running =>
      exact hruns
    case thread =>
      exact fun _ _ hnone => hnot hnone

end CpuOk

end Xv6.Interrupts
