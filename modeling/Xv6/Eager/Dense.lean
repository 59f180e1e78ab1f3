import Xv6.Lib.Run
import Xv6.Lib.Tally
import Xv6.Eager.Exec

set_option autoImplicit false

/-! # Address spaces without holes

Between two calls of the kernel every page of the machine is free, or the rest of the kernel has it, or
one process has it. There are fewer pages than a process would need to grow up to its trapframe, so memory
runs out first, and each call leaves page tables that map what their sizes say. -/

namespace Xv6.Eager

open Xv6.Lib Xv6.Vm

variable {trampoline : Nat} {pages : List Nat} {s t : State} {p : Pid} {q : Proc}

/-! ## The first process -/

theorem userinit_made (trampoline : Nat) (T : Multiset Nat) :
    Safe (fun m => m.free = T) (userinit trampoline) fun o m => ∀ p, o = some p → Good p ∧ m.free + held p = T := by
  unfold userinit
  refine Triple.bind (allocproc_made trampoline T) fun o => ?_
  cases o with
  | none => exact Triple.pure _ fun _ _ _ he => by cases he
  | some p =>
      refine Triple.each fun m₀ hm₀ => ?_
      obtain ⟨⟨-, hmade⟩, hsz⟩ := hm₀
      obtain ⟨hgood, hpages⟩ := hmade p rfl
      have hsz := hsz p rfl
      have hspace := hgood.space
      rw [hsz, pgroundup_zero] at hspace
      have hheld : m₀.free + owned p.pagetable 0 + ({p.trapframe} + {p.root}) = T := by
        rw [← hpages, held, hsz, pgroundup_zero]
        abel
      refine Triple.bind (kalloc_free m₀) fun o => ?_
      cases o with
      | none => exact Triple.pure _ fun _ _ _ he => by cases he
      | some mem =>
          refine Triple.each fun m₁ hm₁ => ?_
          have hout : 0 ∉ space 0 := by
            rintro (hlt | ⟨hge, -⟩)
            · exact Nat.lt_irrefl 0 hlt
            · exact absurd hge (by decide)
          refine Triple.bind (mappages_mapped mem _ (by decide) (Nat.zero_mod _) hspace.maps hout m₁) fun r =>
            Triple.ite (fun _ => Triple.pure _ fun _ _ _ he => by cases he) fun hok => Triple.pure _ fun m hr p' he => ?_
          obtain rfl := Option.some.inj he
          have hnew : m₁.free + {mem} + owned p.pagetable 0 = m₀.free + owned p.pagetable 0 := by rw [hm₁.2 mem rfl]
          obtain ⟨hres, -⟩ := hspace.grow (by decide) rfl hr (not_not.1 hok) hnew
          have hsmall : PGSIZE ≤ TRAPFRAME := by decide
          have hpage : PGROUNDUP PGSIZE = 0 + PGSIZE := by decide
          refine ⟨⟨hsmall, by rw [hpage]; exact hres.space⟩, ?_⟩
          unfold held
          simp only
          rw [hpage, ← hheld, ← hres.pages]
          abel

/-! ## The invariant -/

/-- The pages of a slot of the process table. -/
def usage (o : Option Proc) : Multiset Nat := o.elim 0 held

structure Inv (pages : List Nat) (s : State) : Prop where
  calm : s.panic = none
  good : ∀ p q, s.proc p = some q → Good q
  pages : s.mem.free + s.others + ∑ p, usage (s.proc p) = pages

@[simp] theorem usage_none : usage none = 0 := rfl

@[simp] theorem usage_some (q : Proc) : usage (some q) = held q := rfl

/-- What a call can use: the free pages, and those of the process. -/
theorem Inv.le (h : Inv pages s) (hq : s.proc p = some q) : s.mem.free + held q ≤ pages := by
  have hone : usage (s.proc p) ≤ ∑ p, usage (s.proc p) :=
    Finset.single_le_sum (f := fun p => usage (s.proc p)) (fun _ _ => Multiset.zero_le _) (Finset.mem_univ p)
  rw [hq, usage_some] at hone
  rw [← h.pages]
  exact add_le_add (Multiset.le_add_right _ _) hone

/-- A call that gives the slot another content, and loses no page. -/
theorem Inv.call {α : Type} {x : K α} {f : α → Option Proc} {o : Option Proc} (h : Inv pages s) (ho : s.proc p = o)
    (hx : Safe (fun m => m.free + usage o = s.mem.free + usage o) x fun a m =>
      (∀ q, f a = some q → Good q) ∧ m.free + usage (f a) = s.mem.free + usage o) :
    Inv pages (s.after p (x s.mem) f) := by
  subst ho
  obtain ⟨a, m, hok, hgood, hpages⟩ := hx.exists_ok rfl
  have hsum := sum_update_add (Finset.mem_univ p) s.proc usage (f a)
  unfold State.after
  rw [hok]
  refine ⟨h.calm, fun i q hq => ?_, ?_⟩
  · by_cases hi : i = p
    · subst hi
      exact hgood q (by simpa using hq)
    · exact h.good i q (by simpa [hi] using hq)
  · simp only
    refine add_right_cancel (b := usage (s.proc p)) ?_
    calc m.free + s.others + ∑ i, usage (Function.update s.proc p (f a) i) + usage (s.proc p)
        = m.free + s.others + (∑ i, usage (s.proc i) + usage (f a)) := by rw [add_assoc, hsum]
      _ = m.free + usage (f a) + s.others + ∑ i, usage (s.proc i) := by abel
      _ = s.mem.free + s.others + ∑ i, usage (s.proc i) + usage (s.proc p) := by
        rw [hpages]
        abel
      _ = pages + usage (s.proc p) := by rw [h.pages]

theorem running_proc (h : s.running p = some q) : s.proc p = some q := by
  unfold State.running at h
  split at h
  · exact h
  · cases h

/-- Which processes have exited does not matter. -/
theorem Inv.zombies (h : Inv pages s) (z : Pid → Bool) : Inv pages { s with zombie := z } := ⟨h.calm, h.good, h.pages⟩

theorem Inv.take {pa : Nat} {rest : List Nat} (h : Inv pages s) (hfree : s.mem.freelist = pa :: rest) :
    Inv pages { s with mem := { s.mem with freelist := rest }, others := pa :: s.others } := by
  refine ⟨h.calm, h.good, ?_⟩
  have hsame : (rest : Multiset Nat) + ((pa :: s.others : List Nat) : Multiset Nat) = s.mem.free + s.others := by
    rw [Mem.free, hfree, ← Multiset.cons_coe, ← Multiset.cons_coe, Multiset.add_cons, Multiset.cons_add]
  rw [← h.pages, ← hsame]
  rfl

theorem Inv.give {i pa : Nat} (h : Inv pages s) (hi : s.others[i]? = some pa) :
    Inv pages { s with mem := { s.mem with freelist := pa :: s.mem.freelist }, others := s.others.eraseIdx i } := by
  refine ⟨h.calm, h.good, ?_⟩
  obtain ⟨hlt, hget⟩ := List.getElem?_eq_some_iff.1 hi
  have hperm : ((pa :: s.others.eraseIdx i : List Nat) : Multiset Nat) = s.others := by
    rw [← hget]
    exact Multiset.coe_eq_coe.2 (List.getElem_cons_eraseIdx_perm hlt)
  have hsame : ((pa :: s.mem.freelist : List Nat) : Multiset Nat) + (s.others.eraseIdx i : List Nat) =
      s.mem.free + s.others := by
    rw [← hperm, Mem.free, ← Multiset.cons_coe, ← Multiset.cons_coe, Multiset.add_cons, Multiset.cons_add]
  rw [← h.pages, ← hsame]
  rfl

/-! ## Steps -/

theorem step_inv {l : Label} (hfew : pages.length < TRAPFRAME / PGSIZE) (hnull : 0 ∉ pages) (h : Inv pages s)
    (hstep : step trampoline s l = some t) : Inv pages t := by
  have hcard : ∀ p q, s.proc p = some q → (s.mem.free + held q).card < TRAPFRAME / PGSIZE := fun p q hq =>
    Nat.lt_of_le_of_lt (Multiset.card_le_card (h.le hq)) hfew
  cases l with
  | exec p elf =>
      obtain ⟨q, hq, rfl⟩ := Option.map_eq_some_iff.1 hstep
      have hproc := running_proc hq
      have hpa : ∀ pa ∈ s.mem.free + held q, pa ≠ 0 := fun pa hmem h0 =>
        hnull (h0 ▸ Multiset.mem_of_le (h.le hproc) hmem)
      refine h.call hproc ((exec_execed (h.good p q hproc) trampoline elf (hcard p q hproc) hpa).conseq (fun _ hm => hm)
        fun r m hm => ⟨fun q' he => ?_, hm.2⟩)
      obtain rfl := Option.some.inj he
      exact hm.1
  | sbrk p n =>
      obtain ⟨q, hq, rfl⟩ := Option.map_eq_some_iff.1 hstep
      have hproc := running_proc hq
      refine h.call hproc ((sysSbrk_good (h.good p q hproc) n (hcard p q hproc)).conseq (fun _ hm => hm)
        fun r m hm => ⟨fun q' he => ?_, hm.2⟩)
      obtain rfl := Option.some.inj he
      exact hm.1
  | fork p np =>
      simp only [step] at hstep
      split at hstep
      · rename_i q hq hnp
        obtain rfl := Option.some.inj hstep
        refine h.call hnp ((fork_made (h.good p q (running_proc hq)) trampoline s.mem.free).conseq (fun m hm => ?_)
          fun o m hm => ?_)
        · simpa using hm
        · cases o with
          | none => exact ⟨by simp, by simpa using hm.1 rfl⟩
          | some c =>
              obtain ⟨hgood, hpages⟩ := hm.2 c rfl
              exact ⟨fun q' he => Option.some.inj he ▸ hgood, by simpa using hpages⟩
      · cases hstep
  | exit p =>
      obtain ⟨q, -, rfl⟩ := Option.map_eq_some_iff.1 hstep
      exact h.zombies _
  | wait pp =>
      simp only [step] at hstep
      split at hstep
      · rename_i q hcalm hzombie hproc
        obtain rfl := Option.some.inj hstep
        have hcall := h.call (f := fun _ => none) hproc ((safe_freeproc (h.good pp q hproc) (s.mem.free + held q)).conseq
          (fun _ hm => hm) fun _ m hm => ⟨by simp, by simpa using hm⟩)
        exact hcall.zombies _
      · cases hstep
  | take =>
      simp only [step] at hstep
      split at hstep
      · rename_i hfree
        obtain rfl := Option.some.inj hstep
        exact h.take hfree
      · cases hstep
  | give i =>
      simp only [step] at hstep
      split at hstep
      · rename_i hi
        obtain rfl := Option.some.inj hstep
        exact h.give hi
      · cases hstep

theorem boot_inv (h : Boot trampoline pages s) : Inv pages s := by
  obtain ⟨q, m, hinit, rfl⟩ := h
  obtain ⟨hgood, hpages⟩ := (userinit_made trampoline pages).returned rfl hinit q rfl
  have hsum := sum_update_add (Finset.mem_univ initproc) (fun _ => none) usage (some q)
  refine ⟨rfl, fun i p hp => ?_, ?_⟩
  · by_cases hi : i = initproc
    · subst hi
      have he : some q = some p := by simpa using hp
      exact Option.some.inj he ▸ hgood
    · simp [hi] at hp
  · simp only [usage_none, usage_some, Finset.sum_const_zero, add_zero, zero_add] at hsum ⊢
    rw [hsum]
    simpa using hpages

/-! ## Runs -/

/-- Whatever the processes do, and wherever memory runs out, the kernel does not stop, and every page table
    maps the pages below the size and the two at the top; `growproc` moves the size by `n` or not at all. -/
theorem dense_address_spaces {s₀ : State} {ls : List Label} (hfew : pages.length < TRAPFRAME / PGSIZE)
    (hnull : 0 ∉ pages) (hboot : Boot trampoline pages s₀) (hrun : runSteps (step trampoline) s₀ ls = some s) :
    s.panic = none ∧
    (∀ p q, s.proc p = some q → ∀ va, va < 2 ^ 39 →
      ((pteAt q.pagetable va).V = true ↔ va < PGROUNDUP q.sz ∨ TRAPFRAME ≤ va ∧ va < MAXVA)) ∧
    ∀ p q n, s.proc p = some q → ∃ r m, growproc q n s.mem = .ok (r, m) ∧ Grew q n r := by
  have hinv : Inv pages s := runSteps_invariant (fun _ _ _ h hstep => step_inv hfew hnull h hstep) (boot_inv hboot) hrun
  refine ⟨hinv.calm, fun p q hq va hva => (hinv.good p q hq).space.maps.mapped va hva, fun p q n hq => ?_⟩
  have hcard := Nat.lt_of_le_of_lt (Multiset.card_le_card (hinv.le hq)) hfew
  obtain ⟨r, m, hr, -, -, hgrew⟩ := (growproc_grew (hinv.good p q hq) n hcard).exists_ok rfl
  exact ⟨r, m, hr, hgrew⟩

theorem dense_address_spaces_run : ∃ s₀ s, Boot 100 (List.range' 1 20) s₀ ∧
    runSteps (step 100) s₀ [.sbrk initproc 5000, .fork initproc (Fin.last 63), .sbrk initproc (-5000)] = some s ∧
    s.panic = none ∧
    (∀ p q, s.proc p = some q → ∀ va, va < 2 ^ 39 →
      ((pteAt q.pagetable va).V = true ↔ va < PGROUNDUP q.sz ∨ TRAPFRAME ≤ va ∧ va < MAXVA)) ∧
    ∀ p q n, s.proc p = some q → ∃ r m, growproc q n s.mem = .ok (r, m) ∧ Grew q n r := by
  obtain ⟨s₀, s, hboot, hrun⟩ : ∃ s₀ s, Boot 100 (List.range' 1 20) s₀ ∧
      runSteps (step 100) s₀ [.sbrk initproc 5000, .fork initproc (Fin.last 63), .sbrk initproc (-5000)] = some s :=
    ⟨_, _, ⟨_, _, rfl, rfl⟩, rfl⟩
  exact ⟨s₀, s, hboot, hrun, dense_address_spaces (by decide) (by decide) hboot hrun⟩

end Xv6.Eager
