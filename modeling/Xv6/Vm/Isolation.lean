import Xv6.Vm.Machine

set_option autoImplicit false

/-! # Every process has its memory for itself

The pages of the machine are free, or the kernel has them, or exactly one process. So a step that works on the memory of
one process is not seen by another, and each step does what `Does` says, in every run. -/

namespace Xv6.Vm.Copy

open Xv6.Lib
open Xv6.Eager (owned)

/-! ## The invariant -/

def usage (o : Option Proc) : Multiset Nat := o.elim 0 held

/-- The pages `T` of the machine: there are not as many as a process has addresses for, and the trampoline is none
of them. -/
structure Setup (T : Multiset Nat) (trampoline : Nat) : Prop where
  frames : Frames T
  trampoline : Trampoline T trampoline
  few : T.card < TRAPFRAME / PGSIZE

theorem Setup.le {T T' : Multiset Nat} {trampoline : Nat} (h : Setup T trampoline) (hle : T' ≤ T) :
    Setup T' trampoline :=
  ⟨h.frames.le hle, ⟨h.trampoline.nonzero, h.trampoline.page, fun hin =>
    h.trampoline.apart (Multiset.mem_of_le hle hin)⟩,
    lt_of_le_of_lt (Multiset.card_le_card hle) h.few⟩

variable {Pid : Type} [DecidableEq Pid] [Fintype Pid] {T : Multiset Nat} {trampoline : Nat} {s : Machine Pid}
    {i j c : Pid}
  {p q : Proc}

/-- The pages of the kernel and of the processes. -/
def Machine.used (s : Machine Pid) : Multiset Nat := (s.kernel : Multiset Nat) + ∑ i, usage (s.proc i)

/-- A process has a page table of its size. -/
def Formed (trampoline : Nat) (p : Proc) : Prop :=
  p.sz ≤ TRAPFRAME ∧ Space (procTop p.trapframe trampoline) p.pagetable (PGROUNDUP p.sz)

structure Inv (T : Multiset Nat) (trampoline : Nat) (s : Machine Pid) : Prop where
  pages : s.ram.mem.free + s.used = T
  formed : ∀ i p, s.proc i = some p → Formed trampoline p

/-- The pages of the others. -/
def Machine.rest (s : Machine Pid) (i : Pid) : Multiset Nat :=
    (s.kernel : Multiset Nat) + ∑ j ∈ Finset.univ.erase i, usage (s.proc j)

theorem used_eq (s : Machine Pid) (i : Pid) : s.used = s.rest i + usage (s.proc i) := by
  unfold Machine.used Machine.rest
  rw [← Finset.sum_erase_add _ _ (Finset.mem_univ i), add_assoc]

theorem used_set (s : Machine Pid) (ram : Ram) (i : Pid) (o : Option Proc) :
    (({ s with ram := ram } : Machine Pid).set i o).used = s.rest i + usage o := by
  have hsame : ∑ j ∈ Finset.univ.erase i, usage (Function.update s.proc i o j) = ∑ j ∈ Finset.univ.erase i,
    usage (s.proc j) :=
    Finset.sum_congr rfl fun j hj => by rw [Function.update_of_ne (Finset.ne_of_mem_erase hj)]
  unfold Machine.used Machine.rest Machine.set
  rw [← Finset.sum_erase_add _ _ (Finset.mem_univ i)]
  simp only
  rw [hsame, Function.update_self, add_assoc]

theorem held_le_rest (hj : s.proc j = some q) (hne : j ≠ i) : held q ≤ s.rest i := by
  have hle : usage (s.proc j) ≤ ∑ k ∈ Finset.univ.erase i, usage (s.proc k) :=
    Finset.single_le_sum (f := fun k => usage (s.proc k)) (fun _ _ => Multiset.zero_le _)
      (Finset.mem_erase.2 ⟨hne, Finset.mem_univ j⟩)
  rw [hj] at hle
  exact hle.trans (Multiset.le_add_left ..)

omit [DecidableEq Pid] in
theorem held_le_sum (hj : s.proc j = some q) : held q ≤ ∑ i, usage (s.proc i) := by
  have hle : usage (s.proc j) ≤ ∑ k, usage (s.proc k) :=
    Finset.single_le_sum (f := fun k => usage (s.proc k)) (fun _ _ => Multiset.zero_le _) (Finset.mem_univ j)
  rwa [hj] at hle

omit [DecidableEq Pid] in
theorem held_le_used (hj : s.proc j = some q) : held q ≤ s.used := (held_le_sum hj).trans (Multiset.le_add_left ..)

omit [DecidableEq Pid] in
/-- A process, by its own pages and the free ones. -/
theorem Inv.holds (h : Inv T trampoline s) (hp : s.proc i = some p) :
    Holds (s.ram.mem.free + held p) s.ram.byte trampoline 0 p (s.see p) false s.begin := by
  obtain ⟨hsz, hspace⟩ := h.formed i p hp
  refine ⟨hsz, hspace, ?_, Within.refl _ _, rfl, Bool.noConfusion⟩
  unfold held Machine.begin
  abel

omit [DecidableEq Pid] in
theorem Inv.pool_le (h : Inv T trampoline s) (hp : s.proc i = some p) : s.ram.mem.free + held p ≤ T := by
  rw [← h.pages]
  exact add_le_add_right (held_le_used hp) _

/-! ## A step -/

omit [DecidableEq Pid] in
/-- Code that was given the pages in `Y` has left those in `X`, and has not touched the others. -/
theorem Inv.after {X Y rest : Multiset Nat} {sh : Bool} (s' : Machine Pid) (hT : Frames T) (h : Inv T trampoline s)
    (hused : s.used = rest + Y)
    (hpool : Pool (s.ram.mem.free + Y) s.ram.byte X sh s'.ram) (hused' : s'.used = rest + X)
    (hformed : ∀ j q, s'.proc j = some q → s.proc j = some q ∨ Formed trampoline q) :
    Inv T trampoline s' ∧ ∀ j q, s.proc j = some q → held q ≤ rest → s'.see q = s.see q := by
  refine ⟨⟨?_, fun j q hj => (hformed j q hj).elim (h.formed j q) id⟩, fun j q hj hle => ?_⟩
  · rw [← h.pages, hused, hused']
    calc s'.ram.mem.free + (rest + X) = s'.ram.mem.free + X + rest := by abel
      _ = s.ram.mem.free + Y + rest := by rw [hpool.pages]
      _ = s.ram.mem.free + (rest + Y) := by abel
  -- the pages of `q` are among those that the code was not given
  · obtain ⟨Z, hZ⟩ := Multiset.le_iff_exists_add.1 hle
    obtain ⟨hsz, hspace⟩ := h.formed j q hj
    have hholds : Holds T s.ram.byte trampoline (Z + Y) q (s.see q) false s.ram := by
      refine ⟨hsz, hspace, ?_, Within.refl _ _, rfl, Bool.noConfusion⟩
      rw [← h.pages, hused, hZ, held]
      abel
    exact (hholds.frame hT hpool).space.view

omit [Fintype Pid] in
theorem users_set {ram : Ram} {o : Option Proc} (hsee : ∀ j q, j ≠ i → s.proc j = some q →
    (({ s with ram := ram } : Machine Pid).set i o).see q = s.see q) :
    (({ s with ram := ram } : Machine Pid).set i o).users = Function.update s.users i
      (o.map fun p => ⟨view p.pagetable (PGROUNDUP p.sz) ram.byte, p.sz⟩) := by
  funext j
  by_cases hj : j = i
  · subst hj
    rw [Function.update_self]
    unfold Machine.users Machine.set
    simp only
    rw [Function.update_self]
  · have hproc : (({ s with ram := ram } : Machine Pid).set i o).proc j = s.proc j := Function.update_of_ne hj _ _
    rw [Function.update_of_ne hj]
    cases hq : s.proc j with
    | none => rw [users_none hq, users_none (hproc.trans hq)]
    | some q => rw [users_some hq, users_some (hproc.trans hq), hsee j q hj hq]

omit [Fintype Pid] in
theorem formed_set (s : Machine Pid) (ram : Ram) (i : Pid) {o : Option Proc}
    (ho : ∀ q, o = some q → Formed trampoline q) (j : Pid)
    (q : Proc) (hj : (({ s with ram := ram } : Machine Pid).set i o).proc j = some q) :
    s.proc j = some q ∨ Formed trampoline q := by
  have hproc : Function.update s.proc i o j = some q := hj
  by_cases hji : j = i
  · subst hji
    rw [Function.update_self] at hproc
    exact .inr (ho q hproc)
  · rw [Function.update_of_ne hji] at hproc
    exact .inl hproc

omit [DecidableEq Pid] [Fintype Pid] in
/-- A step, once its code has returned. -/
theorem perform_spec {α : Type} {x : KE α} {reply : α → Reply} {after : α → Machine Pid → Machine Pid} {P : Ram → Prop}
    {Q : α → Ram → Prop} {R : Reply → Machine Pid → Prop} (hx : RunsE P x Q) (hP : P s.begin)
    (h : ∀ a ram, Q a ram → R (reply a) (after a { s with ram := ram })) :
    ∃ r s', perform x reply after s = .ok (r, s') ∧ R r s' := by
  have hrun := hx s.begin hP
  unfold perform
  cases hx' : x s.begin with
  | ok a =>
    rw [hx'] at hrun
    exact ⟨_, _, rfl, h a.1 a.2 hrun⟩
  | error e =>
    rw [hx'] at hrun
    exact hrun.elim

/-- A process runs code that works on its memory. -/
theorem call_spec {f : Proc → KE (Proc × Reply)} {D : Bool → Reply → Users Pid → Prop} (hS : Setup T trampoline)
    (h : Inv T trampoline s) (hidle : s.users i = none → ∀ short, D short .none s.users)
    (hf : ∀ p S b u, Setup S trampoline → s.proc i = some p → s.users i = some ⟨u, p.sz⟩ →
      RunsE (Holds S b trampoline 0 p u false) (f p) fun q r => ∃ u', Holds S b trampoline 0 q.1 u' false r ∧
        D r.short q.2 (Function.update s.users i (some ⟨u', q.1.sz⟩))) :
    ∃ r s', call i f s = .ok (r, s') ∧ Inv T trampoline s' ∧ D s'.ram.short r s'.users := by
  unfold call
  cases hp : s.proc i with
  | none => exact ⟨_, s, rfl, h, hidle (users_none hp) _⟩
  | some p =>
    refine perform_spec (hf p _ _ _ (hS.le (h.pool_le hp)) hp (users_some hp)) (h.holds hp) fun q ram hq => ?_
    obtain ⟨u', hholds, hD⟩ := hq
    have hpool := hholds.pool
    rw [zero_add] at hpool
    have hused := used_eq s i
    rw [hp] at hused
    obtain ⟨hinv, hsee⟩ := Inv.after (({ s with ram := ram } : Machine Pid).set i (some q.1)) hS.frames h hused
      hpool (used_set s ram i _)
      (formed_set s ram i fun q' hq' => Option.some.inj hq' ▸ ⟨hholds.size, hholds.space.space⟩)
    refine ⟨hinv, ?_⟩
    rw [users_set fun j q hj hq => hsee j q hq (held_le_rest hq hj), Option.map_some, hholds.space.view]
    exact hD

/-! ## The steps of a process -/

/-- The step returns, keeps the invariant, and does what it is for. -/
def Steps (T : Multiset Nat) (trampoline : Nat) (s : Machine Pid) (a : Act Pid) : Prop :=
  ∃ r s', step trampoline a s = .ok (r, s') ∧ Inv T trampoline s' ∧ Does s.users s'.ram.short a r s'.users

omit [Fintype Pid] in
theorem users_same {u : UserMem} (hu : s.users i = some ⟨u, p.sz⟩) (hsz : q.sz = p.sz) :
    Function.update s.users i (some ⟨u, q.sz⟩) = s.users := by
  rw [hsz, ← hu, Function.update_eq_self]

theorem step_load (hS : Setup T trampoline) (h : Inv T trampoline s) (i : Pid) (va : Nat) :
    Steps T trampoline s (.load i va) := by
  refine call_spec (D := fun short r s' => Does s.users short (.load i va) r s') hS h
    (fun hi _ => .idle hi) fun p S b u hS' hp hu => ?_
  refine Triple.bind (Triple.vm (userLoad_at hS'.frames va)) fun q => Triple.pure _ fun r hq => ?_
  obtain ⟨hsz, hq⟩ := hq
  rcases hq with ⟨hq2, hat⟩ | ⟨hq2, hat⟩
  · refine ⟨u, hat.anyhow, ?_⟩
    rw [users_same hu hsz, hq2]
    exact .loadFault hu (.inl (hat.space.short rfl))
  · refine ⟨u, hat, ?_⟩
    rw [users_same hu hsz]
    rcases hq2 with hq2 | ⟨hq2, hge⟩
    · rw [hq2]
      exact .load hu
    · rw [hq2]
      exact .loadFault hu (.inr hge)

theorem step_store (hS : Setup T trampoline) (h : Inv T trampoline s) (i : Pid) (va : Nat) (b : Byte) :
    Steps T trampoline s (.store i va b) := by
  refine call_spec (D := fun short r s' => Does s.users short (.store i va b) r s') hS h (fun hi _ => .idle hi)
    fun p S b₀ u hS' hp hu => ?_
  refine Triple.bind (Triple.vm (userStore_at hS'.frames va b)) fun q => Triple.pure _ fun r hq => ?_
  obtain ⟨hsz, hq⟩ := hq
  rcases hq with ⟨hq2, hw, hat⟩ | ⟨hq2, hat⟩ | ⟨hq2, hwhy, hat⟩
  · refine ⟨_, hat, ?_⟩
    rw [hq2]
    exact .store hu hw (by rw [hsz])
  · refine ⟨u, hat.anyhow, ?_⟩
    rw [users_same hu hsz, hq2]
    exact .storeFault hu (.inl (hat.space.short rfl))
  · refine ⟨u, hat, ?_⟩
    rw [users_same hu hsz, hq2]
    exact .storeFault hu (.inr hwhy)

/-- `sbrk` is not asked for more than there is below the trapframe, and files and arguments are of
the size they can have. -/
def Fits (s : Machine Pid) : Act Pid → Prop
  | .sbrk i n _ => ∀ p, s.proc i = some p → 0 ≤ n.toInt → p.sz + n.toInt.toNat ≤ TRAPFRAME
  | .exec _ files _ _ => ∀ path f, files path = some f → f.length < 2 ^ 32
  | .init _ f argv => f.length < 2 ^ 32 ∧ argv.length ≤ MAXARG - 1 ∧ ∀ s ∈ argv, s.length ≤ PGSIZE - 1
  | _ => True

theorem step_sbrk (hS : Setup T trampoline) (h : Inv T trampoline s) {i : Pid} {n : BitVec 32} {eager : Bool}
    (hfit : Fits s (.sbrk i n eager)) : Steps T trampoline s (.sbrk i n eager) := by
  refine call_spec (D := fun short r s' => Does s.users short (.sbrk i n eager) r s') hS h (fun hi _ => .idle hi)
    fun p S b₀ u hS' hp hu => ?_
  refine Triple.bind (Triple.vm (sysSbrk_at hS'.frames n eager (hfit p hp))) fun q => Triple.pure _ fun r hq => ?_
  rcases hq with ⟨hq2, hsz, hat⟩ | ⟨hq2, hsz, hat⟩
  · refine ⟨_, hat, ?_⟩
    rw [hq2, hsz]
    exact .sbrk hu rfl
  · refine ⟨u, hat.anyhow, ?_⟩
    rw [users_same hu hsz, hq2]
    exact .sbrkFails hu (hat.space.short rfl)

theorem step_copyin (hS : Setup T trampoline) (h : Inv T trampoline s) (i : Pid) (srcva len : Nat) :
    Steps T trampoline s (.copyin i srcva len) := by
  refine call_spec (D := fun short r s' => Does s.users short (.copyin i srcva len) r s') hS h (fun hi _ => .idle hi)
    fun p S b₀ u hS' hp hu => ?_
  refine Triple.bind (Triple.vm (copyin_at hS'.frames srcva len)) fun q => Triple.pure _ fun r hq => ?_
  obtain ⟨hsz, hq⟩ := hq
  rcases hq with ⟨hat, hres⟩ | ⟨hat, hread, hres⟩
  · refine ⟨u, hat.anyhow, ?_⟩
    rw [users_same hu hsz, hres]
    exact .copyinFails hu (hat.space.short rfl)
  · refine ⟨u, hat, ?_⟩
    rw [users_same hu hsz, hres, hread]
    exact .copyin hu

theorem step_copyout (hS : Setup T trampoline) (h : Inv T trampoline s) (i : Pid) (dstva : Nat) (src : List Byte) :
    Steps T trampoline s (.copyout i dstva src) := by
  refine call_spec (D := fun short r s' => Does s.users short (.copyout i dstva src) r s') hS h (fun hi _ => .idle hi)
    fun p S b₀ u hS' hp hu => ?_
  refine Triple.bind (Triple.vm (copyout_at hS'.frames dstva src)) fun q => Triple.pure _ fun r hq => ?_
  obtain ⟨hsz, hq⟩ := hq
  rcases hq with ⟨hres, k, hk, hat⟩ | ⟨hres, hat⟩
  · refine ⟨_, hat.anyhow, ?_⟩
    rw [hres]
    exact .copyoutFails hu (hat.space.short rfl) hk (by rw [hsz])
  · refine ⟨_, hat, ?_⟩
    rw [hres]
    exact .copyout hu (by rw [hsz])

theorem step_copyinstr (hS : Setup T trampoline) (h : Inv T trampoline s) (i : Pid) (srcva max : Nat) :
    Steps T trampoline s (.copyinstr i srcva max) := by
  refine call_spec (D := fun short r s' => Does s.users short (.copyinstr i srcva max) r s') hS h (fun hi _ => .idle hi)
    fun p S b₀ u hS' hp hu => ?_
  refine Triple.bind (Triple.vm (copyinstr_at hS'.frames hS'.trampoline.nonzero srcva max)) fun q =>
    Triple.pure _ fun r hq => ?_
  obtain ⟨hat, hread, hres, -⟩ := hq
  refine ⟨u, hat, ?_⟩
  rw [users_same hu rfl]
  rcases hres with h0 | h0
  · have hq := hread h0
    rw [h0, hq]
    exact .copyinstr hu (by rw [← hq, h0])
  · rw [h0.1]
    exact .copyinstrFails hu h0.2

theorem step_exec (hS : Setup T trampoline) (h : Inv T trampoline s) {i : Pid} {files : List Byte → Option (List Byte)}
    {upath uargv : Nat} (hfit : Fits s (.exec i files upath uargv)) :
    Steps T trampoline s (.exec i files upath uargv) := by
  refine call_spec (D := fun short r s' => Does s.users short (.exec i files upath uargv) r s') hS h
    (fun hi _ => .idle hi)
    fun p S b₀ u hS' hp hu => ?_
  refine Triple.bind (sysExec_at hS'.frames hS'.trampoline hS'.few hfit upath uargv) fun q =>
    Triple.pure _ fun r hq => ?_
  rcases hq with ⟨start, u', f, args, hq2, hpath, hfile, hargs, hstarted, hat⟩ | ⟨hq2, ⟨hsz, hat⟩, hwhy⟩
  · refine ⟨u', hat, ?_⟩
    rw [hq2]
    exact .exec hu hpath hfile hargs hstarted rfl
  · refine ⟨u, hat, ?_⟩
    rw [users_same hu hsz, hq2]
    exact .execFails hu (hwhy.imp_left fun h => h.2.space.short rfl)

theorem step_init (hS : Setup T trampoline) (h : Inv T trampoline s) {i : Pid} {f : List Byte} {argv : List (List Byte)}
    (hfit : Fits s (.init i f argv)) : Steps T trampoline s (.init i f argv) := by
  obtain ⟨hf, hmax, hlen⟩ := hfit
  refine call_spec (D := fun short r s' => Does s.users short (.init i f argv) r s') hS h (fun hi _ => .idle hi)
    fun p S b₀ u hS' hp hu => ?_
  refine Triple.bind (kexec_at hS'.frames hS'.few hf hmax hlen) fun q => Triple.pure _ fun r hq => ?_
  rcases hq with ⟨start, u', hq2, hstarted, hat⟩ | ⟨hq2, hqp, hat⟩
  · refine ⟨u', hat, ?_⟩
    rw [hq2]
    exact .init hu hstarted rfl
  · rw [hq2, hqp]
    refine ⟨u, hat.elim (fun h => h.anyhow) fun h => h.2, ?_⟩
    rw [users_same hu rfl]
    exact .initFails hu (hat.imp (fun h => h.space.short rfl) fun h => h.1)

/-! ## Making and unmaking processes -/

/-- A process has been made, or there was no memory for it. The code was given the pages in `Y` and has left them. -/
theorem Inv.create {rest Y : Multiset Nat} {o : Option Proc} {sh : Bool} {ram : Ram} (hT : Frames T)
    (h : Inv T trampoline s) (hc : s.proc c = none) (hused : s.used = rest + Y)
    (hpool : Pool (s.ram.mem.free + Y) s.ram.byte (usage o + Y) sh ram) (hform : ∀ q, o = some q → Formed trampoline q)
    (hsee : ∀ j q, s.proc j = some q → held q ≤ rest ∨ view q.pagetable (PGROUNDUP q.sz) ram.byte = s.see q) :
    Inv T trampoline (({ s with ram := ram } : Machine Pid).set c o) ∧
      (({ s with ram := ram } : Machine Pid).set c o).users = Function.update s.users c
        (o.map fun p => ⟨view p.pagetable (PGROUNDUP p.sz) ram.byte, p.sz⟩) := by
  have hrest : s.used = s.rest c := by
    rw [used_eq s c, hc]
    exact add_zero _
  have hused' : (({ s with ram := ram } : Machine Pid).set c o).used = rest + (usage o + Y) := by
    rw [used_set, ← hrest, hused]
    abel
  obtain ⟨hinv, hothers⟩ := Inv.after _ hT h hused hpool hused' (formed_set s ram c hform)
  exact ⟨hinv, users_set fun j q _ hq => (hsee j q hq).elim (hothers j q hq) id⟩

theorem step_fork (hS : Setup T trampoline) (h : Inv T trampoline s) (i c : Pid) :
    Steps T trampoline s (.fork i c) := by
  unfold Steps
  cases hp : s.proc i with
  | none =>
    simp only [step, hp]
    exact ⟨_, s, rfl, h, .idle (.inl (users_none hp))⟩
  | some p =>
    cases hc : s.proc c with
    | some q =>
      simp only [step, hp, hc]
      exact ⟨_, s, rfl, h, .idle (.inr (by rw [users_some hc]; exact Option.some_ne_none _))⟩
    | none =>
      have hS' := hS.le (h.pool_le hp)
      have hused : s.used = s.rest i + held p := by
        rw [used_eq s i, hp]
        rfl
      -- the parent sees what it saw
      have hafter : ∀ {q : Option Proc} {sh : Bool} {ram : Ram},
          Holds (s.ram.mem.free + held p) s.ram.byte trampoline (usage q) p (s.see p) sh ram → ∀ j q',
          s.proc j = some q' → held q' ≤ s.rest i ∨ view q'.pagetable (PGROUNDUP q'.sz) ram.byte = s.see q' := by
        intro q sh ram hparent j q' hq'
        by_cases hji : j = i
        · subst hji
          obtain rfl := Option.some.inj (hp.symm.trans hq')
          exact .inr hparent.space.view
        · exact .inl (held_le_rest hq' hji)
      simp only [step, hp, hc]
      refine perform_spec (Triple.vm (kfork_at hS'.frames hS'.trampoline)) (h.holds hp) fun q ram hq => ?_
      cases q with
      | none =>
        have hparent : Holds _ _ trampoline (usage none) p (s.see p) true ram := hq
        obtain ⟨hinv, husers⟩ := h.create hS.frames hc hused hparent.pool
          (fun q hq => absurd hq.symm (Option.some_ne_none q)) (hafter hparent)
        refine ⟨hinv, ?_⟩
        rw [husers, Option.map_none, ← users_none hc, Function.update_eq_self]
        exact .forkFails (users_some hp) (hq.space.short rfl)
      | some q =>
        obtain ⟨hsz, hparent, hchild⟩ := hq
        rw [zero_add] at hparent hchild
        have hparent : Holds _ _ trampoline (usage (some q)) p (s.see p) false ram := hparent
        obtain ⟨hinv, husers⟩ := h.create hS.frames hc hused hparent.pool
          (fun q' hq' => Option.some.inj hq' ▸ ⟨hchild.size, hchild.space.space⟩) (hafter hparent)
        refine ⟨hinv, .fork (users_some hp) (users_none hc) ?_⟩
        rw [husers, Option.map_some, hchild.space.view, hsz]

theorem allocproc_made (hT : Frames T) {X : Multiset Nat} {b₀ : Nat → Byte} {sh : Bool} :
    Runs (Pool T b₀ X sh) (allocproc trampoline)
    (Cases (Pool T b₀ X true) fun p r => p.sz = 0 ∧ Holds T b₀ trampoline X p noMem sh r) := by
  have hzero : PGROUNDUP 0 = 0 := by decide
  unfold allocproc
  refine Triple.bind (kalloc_pool hT) fun o => ?_
  cases o with
  | none => exact Triple.pure _ fun _ h => h
  | some trapframe =>
    refine Triple.bind (procPagetable_made hT trapframe trampoline) fun o => ?_
    cases o with
    | none => exact Triple.bind (kfree_pool trapframe) fun _ => Triple.pure _ fun _ h => h
    | some t =>
      obtain ⟨root, pt⟩ := t
      refine Triple.pure _ fun r hr => ⟨rfl, Nat.zero_le _, ?_⟩
      rw [hzero]
      exact hr

theorem step_allocproc (hS : Setup T trampoline) (h : Inv T trampoline s) (c : Pid) :
    Steps T trampoline s (.allocproc c) := by
  unfold Steps
  cases hc : s.proc c with
  | some q =>
    simp only [step, hc]
    exact ⟨_, s, rfl, h, .idle (by rw [Act.Idle, users_some hc]; exact Option.some_ne_none _)⟩
  | none =>
    have hle : s.ram.mem.free + 0 ≤ T := by
      rw [← h.pages, add_zero]
      exact Multiset.le_add_right ..
    have hothers : ∀ {ram : Ram} j q, s.proc j = some q →
        held q ≤ s.used ∨ view q.pagetable (PGROUNDUP q.sz) ram.byte = s.see q := fun _ _ hq => .inl (held_le_used hq)
    simp only [step, hc]
    refine perform_spec (Triple.vm (allocproc_made (hS.le hle).frames))
      (⟨rfl, Within.refl _ _, Bool.noConfusion⟩ : Pool (s.ram.mem.free + 0) s.ram.byte 0 false s.begin)
      fun q ram hq => ?_
    cases q with
    | none =>
      obtain ⟨hinv, husers⟩ := h.create (o := none) hS.frames hc (add_zero _).symm hq
        (fun q hq => absurd hq.symm (Option.some_ne_none q)) hothers
      refine ⟨hinv, ?_⟩
      rw [husers, Option.map_none, ← users_none hc, Function.update_eq_self]
      exact .allocprocFails (hq.short rfl)
    | some q =>
      obtain ⟨hsz, hholds⟩ := hq
      have hpool := hholds.pool
      rw [add_comm 0 (held q)] at hpool
      obtain ⟨hinv, husers⟩ := h.create (o := some q) hS.frames hc (add_zero _).symm hpool
        (fun q' hq' => Option.some.inj hq' ▸ ⟨hholds.size, hholds.space.space⟩) hothers
      refine ⟨hinv, .allocproc (users_none hc) ?_⟩
      rw [husers, Option.map_some, hholds.space.view, hsz]

theorem step_reap (hS : Setup T trampoline) (h : Inv T trampoline s) (i : Pid) : Steps T trampoline s (.reap i) := by
  unfold Steps
  cases hp : s.proc i with
  | none =>
    simp only [step, hp]
    exact ⟨_, s, rfl, h, .idle (users_none hp)⟩
  | some p =>
    have hused := used_eq s i
    rw [hp] at hused
    simp only [step, hp]
    refine perform_spec (Triple.vm (freeproc_pool (hS.le (h.pool_le hp)).frames)) (h.holds hp) fun _ ram hpool => ?_
    obtain ⟨hinv, hsee⟩ := Inv.after (({ s with ram := ram } : Machine Pid).set i none) hS.frames h hused hpool
      (used_set s ram i none)
      (formed_set s ram i fun q hq => absurd hq.symm (Option.some_ne_none q))
    refine ⟨hinv, .reap (users_some hp) ?_⟩
    rw [users_set fun j q hj hq => hsee j q hq (held_le_rest hq hj)]
    rfl

/-! ## The rest of the kernel -/

omit [DecidableEq Pid] [Fintype Pid] in
theorem users_kept {s' : Machine Pid} (hproc : s'.proc = s.proc)
    (hsee : ∀ j q, s.proc j = some q → s'.see q = s.see q) :
    s'.users = s.users := by
  funext j
  cases hq : s.proc j with
  | none => rw [users_none hq, users_none ((congrFun hproc j).trans hq)]
  | some q => rw [users_some hq, users_some ((congrFun hproc j).trans hq), hsee j q hq]

/-- A step of the rest of the kernel, which has given the pages in `Y` for it. -/
theorem kernel_spec {α : Type} {x : KR α} {reply : α → Reply} {after : α → Machine Pid → Machine Pid} {k : α → List Nat}
    {Y K : Multiset Nat} {X : α → Multiset Nat} {e : α → Bool} {a : Act Pid} (hS : Setup T trampoline)
    (h : Inv T trampoline s) (hkernel : (s.kernel : Multiset Nat) = K + Y)
    (hx : Runs (Pool (s.ram.mem.free + Y) s.ram.byte Y false) x fun o =>
    Pool (s.ram.mem.free + Y) s.ram.byte (X o) (e o))
    (hafter : ∀ o ram, after o { s with ram := ram } = ⟨ram, s.proc, k o⟩) (hleft : ∀ o, (k o : Multiset Nat) = K + X o)
    (hD : ∀ o short, (e o = true → short = true) → Does s.users short a (reply o) s.users) :
    ∃ r s', perform (vm x) reply after s = .ok (r, s') ∧ Inv T trampoline s' ∧
      Does s.users s'.ram.short a r s'.users := by
  have hused : s.used = (K + ∑ i, usage (s.proc i)) + Y := by
    rw [Machine.used, hkernel]
    abel
  refine perform_spec (Triple.vm hx) ⟨rfl, Within.refl _ _, Bool.noConfusion⟩ fun o ram hpool => ?_
  have hused' : (⟨ram, s.proc, k o⟩ : Machine Pid).used = (K + ∑ i, usage (s.proc i)) + X o := by
    rw [Machine.used, hleft o]
    abel
  obtain ⟨hinv, hsee⟩ := Inv.after ⟨ram, s.proc, k o⟩ hS.frames h hused hpool hused' fun j q hj => .inl hj
  have hkept : (⟨ram, s.proc, k o⟩ : Machine Pid).users = s.users :=
    users_kept rfl fun j q hq => hsee j q hq ((held_le_sum hq).trans (Multiset.le_add_left ..))
  rw [hafter]
  refine ⟨hinv, ?_⟩
  rw [hkept]
  exact hD o _ hpool.short

theorem step_take (hS : Setup T trampoline) (h : Inv T trampoline s) : Steps T trampoline s .take := by
  have hle : s.ram.mem.free + 0 ≤ T := by
    rw [← h.pages, add_zero]
    exact Multiset.le_add_right ..
  unfold Steps
  simp only [step]
  refine kernel_spec (k := fun o => o.toList ++ s.kernel) (X := fun o => (o.toList : Multiset Nat))
    (e := fun o => o.isNone) hS h (add_zero _).symm
    ((kalloc_pool (hS.le hle).frames).conseq (fun _ h => h) fun o r hr => ?_) (fun _ _ => rfl)
    (fun o => ?_) fun o short hshort => .take fun ho => ?_
  · cases o with
    | none => exact hr
    | some pa =>
      have hpool : Pool _ _ (0 + {pa}) false r := hr
      rwa [zero_add] at hpool
  · rw [← Multiset.coe_add, add_comm]
  · exact hshort (by simpa using ho)

theorem step_write (hS : Setup T trampoline) (h : Inv T trampoline s) (pa off : Nat) (bs : List Byte) :
    Steps T trampoline s (.write pa off bs) := by
  unfold Steps
  by_cases hin : pa ∈ s.kernel ∧ off + bs.length ≤ PGSIZE
  · simp only [step, if_pos hin]
    have hkernel : (s.kernel : Multiset Nat) = (s.kernel.erase pa : Multiset Nat) + {pa} := by
      rw [← Multiset.coe_erase, add_comm, Multiset.singleton_add, Multiset.cons_erase (Multiset.mem_coe.2 hin.1)]
    refine kernel_spec (X := fun _ => {pa}) (e := fun _ => false) hS h hkernel
      (Triple.of_ok fun r hr => ⟨_, _, memmove_eq .., hr.pages,
      hr.within.trans (within_moved ?_ hin.2 _), hr.short⟩) (fun _ _ => rfl) (fun _ => hkernel) fun _ _ _ =>
      .idle trivial
    exact Multiset.mem_add.2 (.inr (Multiset.mem_singleton_self pa))
  · simp only [step, if_neg hin]
    exact ⟨_, s, rfl, h, .idle trivial⟩

theorem step_give (hS : Setup T trampoline) (h : Inv T trampoline s) (pa : Nat) : Steps T trampoline s (.give pa) := by
  unfold Steps
  by_cases hin : pa ∈ s.kernel
  · simp only [step, if_pos hin]
    have hkernel : (s.kernel : Multiset Nat) = (s.kernel.erase pa : Multiset Nat) + {pa} := by
      rw [← Multiset.coe_erase, add_comm, Multiset.singleton_add, Multiset.cons_erase (Multiset.mem_coe.2 hin)]
    refine kernel_spec (X := fun _ => 0) (e := fun _ => false) hS h hkernel
      ((kfree_pool pa).conseq (fun _ hr => ?_) fun _ _ h => h)
      (fun _ _ => rfl) (fun _ => (add_zero _).symm) fun _ _ _ => .idle trivial
    rwa [zero_add]
  · simp only [step, if_neg hin]
    exact ⟨_, s, rfl, h, .idle trivial⟩

/-! ## Runs -/

theorem step_spec (hS : Setup T trampoline) (h : Inv T trampoline s) {a : Act Pid} (hfit : Fits s a) :
    Steps T trampoline s a := by
  cases a with
  | load i va => exact step_load hS h i va
  | store i va b => exact step_store hS h i va b
  | sbrk i n eager => exact step_sbrk hS h hfit
  | copyin i srcva len => exact step_copyin hS h i srcva len
  | copyout i dstva src => exact step_copyout hS h i dstva src
  | copyinstr i srcva max => exact step_copyinstr hS h i srcva max
  | fork i c => exact step_fork hS h i c
  | exec i files upath uargv => exact step_exec hS h hfit
  | allocproc c => exact step_allocproc hS h c
  | init i f argv => exact step_init hS h hfit
  | reap i => exact step_reap hS h i
  | take => exact step_take hS h
  | write pa off bs => exact step_write hS h pa off bs
  | give pa => exact step_give hS h pa

/-- There are no processes, and all pages are free. -/
structure Booted (T : Multiset Nat) (s : Machine Pid) : Prop where
  free : s.ram.mem.free = T
  kernel : s.kernel = []
  proc : ∀ i, s.proc i = none

omit [DecidableEq Pid] in
theorem Booted.inv (h : Booted T s) : Inv T trampoline s := by
  refine ⟨?_, fun i p hp => ?_⟩
  · have hnone : ∀ i ∈ Finset.univ, usage (s.proc i) = 0 := fun i _ => by
      rw [h.proc i]
      rfl
    rw [h.free, Machine.used, h.kernel, Finset.sum_eq_zero hnone]
    simp
  · rw [h.proc i] at hp
    cases hp

end Xv6.Vm.Copy
