import Xv6.Eager.Dense
import Xv6.Vm.Pool

set_option autoImplicit false

/-! # No page is lost or shared

The invariant of `Dense` counts the pages of the machine. Where these are different pages, each of them is in one place: the
free list, the rest of the kernel, or one process, which has it once. -/

namespace Xv6.Eager

open Xv6.Lib Xv6.Vm

variable {trampoline : Nat} {pages : List Nat} {s₀ s : State} {ls : List Label} {p p' : Pid} {q q' : Proc} {va x pa : Nat}

theorem mem_held (hva : va < PGROUNDUP q.sz) (hv : (pteAt q.pagetable va).V = true) :
    (pteAt q.pagetable va).pa ∈ held q :=
  Multiset.mem_add.2 (.inr (Multiset.mem_add.2 (.inr (Copy.leaf_owned (pgroundup_mod _) hva hv))))

/-- The pages of one process, apart from those of the others. -/
theorem Inv.split (h : Inv pages s) (hq : s.proc p = some q) :
    s.mem.free + s.others + ∑ i ∈ Finset.univ.erase p, usage (s.proc i) + held q = pages := by
  rw [← h.pages, ← Finset.sum_erase_add _ _ (Finset.mem_univ p), hq, usage_some]
  exact add_assoc ..

theorem Inv.alone (h : Inv pages s) (hnodup : pages.Nodup) (hq : s.proc p = some q) (hpa : pa ∈ held q) :
    pa ∉ s.mem.freelist ∧ pa ∉ s.others ∧ ∀ p' q', p' ≠ p → s.proc p' = some q' → pa ∉ held q' := by
  have hall : (s.mem.free + s.others + ∑ i ∈ Finset.univ.erase p, usage (s.proc i) + held q).Nodup := by
    rw [h.split hq]
    exact Multiset.coe_nodup.2 hnodup
  rw [Multiset.nodup_add, Multiset.disjoint_left] at hall
  have happart : pa ∉ s.mem.free + s.others + ∑ i ∈ Finset.univ.erase p, usage (s.proc i) := fun hin => hall.2.2 hin hpa
  rw [Multiset.mem_add, Multiset.mem_add, not_or, not_or] at happart
  obtain ⟨⟨hfree, hothers⟩, hrest⟩ := happart
  refine ⟨fun hin => hfree (Multiset.mem_coe.2 hin), fun hin => hothers (Multiset.mem_coe.2 hin), fun p' q' hne hq' hin => ?_⟩
  refine hrest (Multiset.mem_sum.2 ⟨p', Finset.mem_erase.2 ⟨hne, Finset.mem_univ p'⟩, ?_⟩)
  rwa [hq', usage_some]

theorem Inv.leaves_nodup (h : Inv pages s) (hnodup : pages.Nodup) (hq : s.proc p = some q) :
    (leaves q.pagetable 0 (PGROUNDUP q.sz / PGSIZE)).Nodup := by
  have hle : leaves q.pagetable 0 (PGROUNDUP q.sz / PGSIZE) ≤ (pages : Multiset Nat) := by
    rw [← h.split hq, held, owned]
    exact (Multiset.le_add_left ..).trans ((Multiset.le_add_left ..).trans
      ((Multiset.le_add_left ..).trans (Multiset.le_add_left ..)))
  exact Multiset.nodup_of_le hle (Multiset.coe_nodup.2 hnodup)

/-- After any calls, also those that fail for want of memory: each page of the machine is free, or the rest of the kernel has
    it, or one process, and no user page is in two places or mapped twice. Nothing is lost when all processes are gone. -/
theorem physical_pages_kept (hfew : pages.length < TRAPFRAME / PGSIZE) (hnull : 0 ∉ pages) (hnodup : pages.Nodup)
    (hboot : Boot trampoline pages s₀) (hrun : runSteps (step trampoline) s₀ ls = some s) :
    s.mem.free + s.others + ∑ p, usage (s.proc p) = pages ∧
    (∀ p q va, s.proc p = some q → va < PGROUNDUP q.sz →
      (pteAt q.pagetable va).pa ∉ s.mem.freelist ∧ (pteAt q.pagetable va).pa ∉ s.others ∧
      ∀ p' q' x, s.proc p' = some q' → x < PGROUNDUP q'.sz → (pteAt q.pagetable va).pa = (pteAt q'.pagetable x).pa →
        p' = p ∧ x / PGSIZE = va / PGSIZE) ∧
    ((∀ p, s.proc p = none) → s.others = [] → s.mem.free = pages) := by
  have hinv : Inv pages s := runSteps_invariant (fun _ _ _ h hstep => step_inv hfew hnull h hstep) (boot_inv hboot) hrun
  have hvalid : ∀ p q va, s.proc p = some q → va < PGROUNDUP q.sz → (pteAt q.pagetable va).V = true := by
    intro p q va hq hva
    have hgood := hinv.good p q hq
    have hmax : va < 2 ^ 39 := maxva_lt (below_maxva (Nat.le_of_lt (lt_of_lt_of_le hva (pgroundup_le_top hgood.size))))
    exact (hgood.space.maps.mapped va hmax).2 (.inl hva)
  refine ⟨hinv.pages, fun p q va hq hva => ?_, fun hnone hothers => ?_⟩
  · have hv := hvalid p q va hq hva
    obtain ⟨hfree, hothers, halone⟩ := hinv.alone hnodup hq (mem_held hva hv)
    refine ⟨hfree, hothers, fun p' q' x hq' hx hsame => ?_⟩
    have hxv := hvalid p' q' x hq' hx
    by_cases hp : p' = p
    · subst hp
      obtain rfl := Option.some.inj (hq.symm.trans hq')
      exact ⟨rfl, (Copy.leaf_inj (hinv.leaves_nodup hnodup hq) (pgroundup_mod _) hva hx hv hxv hsame).symm⟩
    · have hother := mem_held hx hxv
      rw [← hsame] at hother
      exact absurd hother (halone p' q' hp hq')
  · have hempty : ∀ p ∈ Finset.univ, usage (s.proc p) = 0 := fun p _ => by rw [hnone p, usage_none]
    rw [← hinv.pages, Finset.sum_eq_zero hempty, hothers]
    simp

/-- After `userinit` on a machine with 20 free pages. -/
def twentyPages : State :=
  match userinit 100 ⟨List.range' 1 20, []⟩ with
  | .ok (q, m) => ⟨m, [], Function.update (fun _ => none) initproc q, fun _ => false, none⟩
  | .error _ => ⟨⟨[], []⟩, [], fun _ => none, fun _ => false, none⟩

/-- A child is made, the rest of the kernel takes a page and the first process grows. -/
def growing : List Label := [.fork initproc (Fin.last 63), .take, .sbrk initproc 5000]

/-- Everything goes back. -/
def leaving : List Label :=
  [.exit (Fin.last 63), .wait (Fin.last 63), .exit initproc, .wait initproc, .give 0]

theorem physical_pages_kept_run : ∃ s t q c, Boot 100 (List.range' 1 20) twentyPages ∧
    runSteps (step 100) twentyPages growing = some s ∧ s.proc initproc = some q ∧
    s.proc (Fin.last 63) = some c ∧ q.sz = PGSIZE + 5000 ∧ c.sz = PGSIZE ∧
    s.mem.free + s.others + ∑ p, usage (s.proc p) = (List.range' 1 20 : Multiset Nat) ∧
    (pteAt q.pagetable PGSIZE).pa ∉ s.mem.freelist ∧ (pteAt q.pagetable PGSIZE).pa ∉ s.others ∧
    (pteAt q.pagetable PGSIZE).pa ≠ (pteAt q.pagetable 0).pa ∧
    (pteAt q.pagetable PGSIZE).pa ≠ (pteAt c.pagetable 0).pa ∧
    runSteps (step 100) twentyPages (growing ++ leaving) = some t ∧
    t.mem.free = (List.range' 1 20 : Multiset Nat) := by
  have hboot : Boot 100 (List.range' 1 20) twentyPages := ⟨_, _, rfl, rfl⟩
  obtain ⟨s, q, c, hs, hq, hc, hqsz, hcsz⟩ : ∃ s q c, runSteps (step 100) twentyPages growing = some s ∧
      s.proc initproc = some q ∧ s.proc (Fin.last 63) = some c ∧ q.sz = PGSIZE + 5000 ∧ c.sz = PGSIZE :=
    ⟨_, _, _, rfl, rfl, rfl, rfl, rfl⟩
  have hend : (runSteps (step 100) twentyPages (growing ++ leaving)).map
      (fun t => (decide (∀ p, t.proc p = none), t.others)) = some (true, []) := by decide +kernel
  obtain ⟨t, ht, hgone⟩ := Option.map_eq_some_iff.1 hend
  simp only [Prod.mk.injEq, decide_eq_true_eq] at hgone
  have hlt : PGSIZE < PGROUNDUP q.sz := by
    rw [hqsz]
    decide
  have hpos : 0 < PGROUNDUP q.sz := Nat.lt_of_le_of_lt (Nat.zero_le _) hlt
  have hchild : 0 < PGROUNDUP c.sz := by
    rw [hcsz]
    decide
  obtain ⟨hpages, halone, -⟩ := physical_pages_kept (by decide) (by decide) (by decide) hboot hs
  obtain ⟨hfree, hkernel, hother⟩ := halone initproc q PGSIZE hq hlt
  obtain ⟨-, -, hback⟩ := physical_pages_kept (by decide) (by decide) (by decide) hboot ht
  refine ⟨s, t, q, c, hboot, hs, hq, hc, hqsz, hcsz, hpages, hfree, hkernel, fun hsame => ?_,
    fun hsame => ?_, ht, hback hgone.1 hgone.2⟩
  · exact absurd (hother initproc q 0 hq hpos hsame).2 (by decide)
  · exact absurd (congrArg Fin.val (hother _ c 0 hc hchild hsame).1) (by decide)

end Xv6.Eager
