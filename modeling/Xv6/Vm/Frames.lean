import Mathlib.Algebra.Order.Group.Multiset
import Xv6.Lib.Tally
import Xv6.Vm.PageTable

set_option autoImplicit false

/-! # Where the pages are

A page is on the free list, holds a table, or is mapped by a leaf. `walk`, `mappages` and `uvmunmap`
move pages between the three and lose none: what is free and what a page table has, counted with
multiplicity, stay the same together. -/

namespace Xv6.Vm

open Xv6.Lib

/-! ## The pages of a page table -/

def midTables (entry : Option (Nat × Leaf)) : Multiset Nat := entry.elim 0 fun t => {t.1}

def rootTables (entry : Option (Nat × Mid)) : Multiset Nat :=
  entry.elim 0 fun t => {t.1} + ∑ j, midTables (t.2 j)

/-- The pages of the tables below the root. -/
@[irreducible] def tables (pt : PageTable) : Multiset Nat := ∑ i, rootTables (pt i)

/-- The page that is mapped at `va`, if any. -/
def leafAt (pt : PageTable) (va : Nat) : Multiset Nat :=
  if (pteAt pt va).V then {(pteAt pt va).pa} else 0

/-- The pages that are mapped from `a` on, `n` pages. -/
def leaves (pt : PageTable) (a n : Nat) : Multiset Nat :=
  ∑ k ∈ Finset.range n, leafAt pt (a + k * PGSIZE)

def Mem.free (m : Mem) : Multiset Nat := m.freelist

variable {pt : PageTable} {va : Nat} {may : Panic → Prop}

theorem tables_update (pt : PageTable) (i : Fin 512) (entry : Option (Nat × Mid)) :
    tables (Function.update pt i entry) + rootTables (pt i) = tables pt + rootTables entry := by
  unfold tables
  exact sum_update_add (Finset.mem_univ i) pt rootTables entry

theorem midTables_update (mid : Mid) (j : Fin 512) (entry : Option (Nat × Leaf)) :
    ∑ k, midTables (Function.update mid j entry k) + midTables (mid j) =
      ∑ k, midTables (mid k) + midTables entry :=
  sum_update_add (Finset.mem_univ j) mid midTables entry

theorem rootTables_empty (pa : Nat) : rootTables (some (pa, fun _ => none)) = {pa} := by
  have hzero : ∑ k, midTables ((fun _ => none : Mid) k) = 0 := Finset.sum_eq_zero fun _ _ => rfl
  rw [rootTables, Option.elim_some, hzero, add_zero]

theorem tables_setPte (pt : PageTable) (va : Nat) (e : Pte) : tables (setPte pt va e) = tables pt := by
  unfold setPte
  cases h2 : pt (PX 2 va) with
  | none => rfl
  | some t2 =>
    obtain ⟨pa1, mid⟩ := t2
    simp only
    cases h1 : mid (PX 1 va) with
    | none => rfl
    | some t1 =>
      obtain ⟨pa0, leaf⟩ := t1
      simp only
      have hmid := midTables_update mid (PX 1 va)
        (some (pa0, Function.update leaf (PX 0 va) e))
      have hroot := tables_update pt (PX 2 va) (some (pa1, Function.update mid (PX 1 va)
        (some (pa0, Function.update leaf (PX 0 va) e))))
      have hsame : ∑ k, midTables (Function.update mid (PX 1 va)
          (some (pa0, Function.update leaf (PX 0 va) e)) k) = ∑ k, midTables (mid k) := by
        rw [h1] at hmid
        exact add_right_cancel hmid
      rw [h2] at hroot
      have hentry : rootTables (some (pa1, Function.update mid (PX 1 va)
          (some (pa0, Function.update leaf (PX 0 va) e)))) = rootTables (some (pa1, mid)) := by
        unfold rootTables
        simp only [Option.elim_some, hsame]
      rw [hentry] at hroot
      exact add_right_cancel hroot

/-! ## Allocation -/

/-- What is left of the memory after an allocation, in which `l` has been taken. -/
structure Took (m : Mem) (l : Multiset Nat) (m' : Mem) : Prop where
  free : m.free = m'.free + l
  suffix : m'.freelist <:+ m.freelist
  unmapped : m'.unmapped = m.unmapped

theorem Took.refl (m : Mem) : Took m 0 m := ⟨(add_zero _).symm, List.suffix_rfl, rfl⟩

theorem Took.trans {m m' m'' : Mem} {l l' : Multiset Nat} (h : Took m l m') (h' : Took m' l' m'') :
    Took m (l + l') m'' :=
  ⟨by rw [h.free, h'.free, add_assoc, add_comm l'], h'.suffix.trans h.suffix,
    h'.unmapped.trans h.unmapped⟩

theorem kalloc_took (m : Mem) : Triple may (fun m' => m' = m) kalloc fun r m' =>
    (r = none ∧ m' = m) ∨ ∃ pa, r = some pa ∧ Took m {pa} m' ∧ pa ∈ m.freelist := by
  unfold kalloc
  refine Triple.bind_get fun m₁ hm₁ => ?_
  subst hm₁
  cases hf : m₁.freelist with
  | nil => exact Triple.pure _ fun m' hm => .inl ⟨rfl, hm⟩
  | cons pa rest =>
    refine Triple.bind (R := fun _ m' => m' = { m₁ with freelist := rest })
      (Triple.set _ fun _ _ => rfl) fun _ => Triple.pure _ ?_
    rintro _ rfl
    refine .inr ⟨pa, rfl, ⟨?_, ?_, rfl⟩, List.mem_cons_self ..⟩
    · rw [Mem.free, Mem.free, hf, ← Multiset.cons_coe, ← Multiset.singleton_add, add_comm]
    · rw [hf]
      exact List.suffix_cons ..

/-- One level of `walk` finds the table, takes a page for it, or takes nothing. -/
theorem descend_took {α : Type} (entry : Option (Nat × α)) (empty : α) (alloc : Bool) (m : Mem) :
    Triple may (fun m' => m' = m) (descend entry empty alloc) fun r m' =>
      (r = entry ∧ m' = m) ∨ (entry = none ∧ ∃ pa, r = some (pa, empty) ∧ Took m {pa} m') := by
  unfold descend
  cases entry with
  | some table => exact Triple.pure _ fun m' hm => .inl ⟨rfl, hm⟩
  | none =>
    refine Triple.ite (fun _ => ?_) fun _ => Triple.pure _ fun m' hm => .inl ⟨rfl, hm⟩
    refine Triple.bind (kalloc_took m) fun pa => Triple.pure _ ?_
    rintro m' (⟨rfl, rfl⟩ | ⟨pa, rfl, htook, -⟩)
    · exact .inl ⟨rfl, rfl⟩
    · exact .inr ⟨rfl, pa, rfl, htook⟩

/-- `walk` takes the pages of the tables that it adds. -/
theorem walk_took (pt : PageTable) (hva : va < MAXVA) (alloc : Bool) (m : Mem) :
    Triple may (fun m' => m' = m) (walk pt va alloc) fun r m' =>
      ∃ l, Took m l m' ∧ tables r.1 = tables pt + l := by
  unfold walk
  refine Triple.ite (fun h => absurd hva (by omega)) fun _ => ?_
  refine Triple.bind (descend_took _ _ alloc m) fun r2 => ?_
  -- the page of the upper table, if it is new
  have hupper : ∀ m₁ : Mem, ((r2 = pt (PX 2 va) ∧ m₁ = m) ∨ (pt (PX 2 va) = none ∧
      ∃ pa, r2 = some (pa, fun _ => none) ∧ Took m {pa} m₁)) →
      ∃ l, Took m l m₁ ∧ tables (Function.update pt (PX 2 va) r2) = tables pt + l := by
    rintro m₁ (⟨rfl, rfl⟩ | ⟨hnone, pa, rfl, htook⟩)
    · exact ⟨0, Took.refl m₁, by rw [Function.update_eq_self, add_zero]⟩
    · refine ⟨{pa}, htook, ?_⟩
      have hroot := tables_update pt (PX 2 va) (some (pa, fun _ => none))
      rw [hnone, rootTables_empty] at hroot
      exact (add_zero _).symm.trans hroot
  cases r2 with
  | none =>
    refine Triple.pure _ ?_
    rintro m₁ (⟨-, rfl⟩ | ⟨-, pa, hpa, -⟩)
    · exact ⟨0, Took.refl m₁, (add_zero _).symm⟩
    · cases hpa
  | some t2 =>
    obtain ⟨pa1, mid⟩ := t2
    refine Triple.each fun m₁ hm₁ => ?_
    obtain ⟨l, htook, htables⟩ := hupper m₁ hm₁
    refine Triple.bind (descend_took _ _ alloc m₁) fun r1 => ?_
    cases r1 with
    | none =>
      refine Triple.pure _ ?_
      rintro m₂ (⟨-, rfl⟩ | ⟨-, pa, hpa, -⟩)
      · exact ⟨l, htook, htables⟩
      · cases hpa
    | some t1 =>
      obtain ⟨pa0, leaf⟩ := t1
      refine Triple.pure _ ?_
      have hroot (entry : Mid) (l' : Multiset Nat)
          (he : ∑ k, midTables (entry k) = ∑ k, midTables (mid k) + l') :
          tables (Function.update pt (PX 2 va) (some (pa1, entry))) = tables pt + (l + l') := by
        have hold := tables_update pt (PX 2 va) (some (pa1, mid))
        have hnew := tables_update pt (PX 2 va) (some (pa1, entry))
        have hentry : rootTables (some (pa1, entry)) = rootTables (some (pa1, mid)) + l' := by
          unfold rootTables
          simp only [Option.elim_some, he, add_assoc]
        rw [hentry, ← add_assoc, ← hold, htables] at hnew
        refine add_right_cancel (b := rootTables (pt (PX 2 va))) (hnew.trans ?_)
        abel
      rintro m₂ (⟨hr, rfl⟩ | ⟨hnone, pa, hpa, htook'⟩)
      · have hsame : Function.update mid (PX 1 va) (some (pa0, leaf)) = mid := by
          rw [hr, Function.update_eq_self]
        refine ⟨l, htook, ?_⟩
        simp only [hsame]
        exact htables
      · have hmid := midTables_update mid (PX 1 va) (some (pa0, leaf))
        rw [hnone] at hmid
        obtain ⟨rfl, -⟩ := Prod.mk.inj (Option.some.inj hpa)
        have hnew := hroot _ {pa0} ((add_zero _).symm.trans hmid)
        exact ⟨l + {pa0}, htook.trans htook', hnew⟩

/-- So does `mappages`. -/
theorem mappages_took (pt : PageTable) {pa : Nat} {perm : Perm} (hva : va < MAXVA)
    (halign : va % PGSIZE = 0) (hmay : (pteAt pt va).V = true → ∀ e, may e) (m : Mem) :
    Triple may (fun m' => m' = m) (mappages pt va PGSIZE pa perm) fun r m' =>
      ∃ l, Took m l m' ∧ tables r.1 = tables pt + l := by
  unfold mappages
  refine Triple.ite (fun h => absurd halign h) fun _ => Triple.ite (fun h => by simp at h) fun _ =>
    Triple.ite (fun h => by simp [PGSIZE] at h) fun _ => ?_
  rw [Nat.div_self (by decide)]
  unfold mappagesLoop
  have hI : Triple may (fun _ => True) kalloc fun _ _ => True :=
    Triple.each fun m' _ => (kalloc_took m').conseq (fun _ h => h) fun _ _ _ => trivial
  refine Triple.bind ((walk_took pt hva true m).and ((walk_keeps hI pt hva true).conseq
    (fun _ _ => trivial) fun _ _ h => h)) fun r => ?_
  cases hr : r.2 with
  | none => exact Triple.pure _ fun m' hm => hm.1
  | some pte =>
    refine Triple.ite (fun hv => Triple.throw _ fun m' hm => hmay ?_ _) fun _ => Triple.pure _ ?_
    · obtain ⟨-, -, hpte, hslot, -⟩ := hm
      rw [← hpte va]
      simpa [pteAt, hslot pte rfl] using hv
    · rintro m' ⟨⟨l, htook, htables⟩, -⟩
      exact ⟨l, htook, by rw [tables_setPte, htables]⟩

end Xv6.Vm
