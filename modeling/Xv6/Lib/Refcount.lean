import Xv6.Lib.Tally

set_option autoImplicit false

/-! # Reference counts

Owners hold references to things, and each thing has a count. Owners may be processes, tables or other things; what
an owner holds is given by a number for each thing. -/

namespace Xv6.Lib

variable {ι κ : Type} [Fintype ι] [DecidableEq ι] {count count' : κ → Nat} {holds : ι → κ → Nat} {new : κ → Nat} {i j : ι} {k : κ}

/-- Each thing counts the references that there are to it. -/
def Counted (count : κ → Nat) (holds : ι → κ → Nat) : Prop := ∀ k, count k = ∑ i, holds i k

omit [DecidableEq ι] in
theorem Counted.le (h : Counted count holds) (i : ι) (k : κ) : holds i k ≤ count k := by
  rw [h k]
  exact Finset.single_le_sum (f := fun i => holds i k) (fun _ _ => Nat.zero_le _) (Finset.mem_univ i)

omit [DecidableEq ι] in
theorem Counted.exists_of_pos (h : Counted count holds) (hk : 0 < count k) : ∃ i, 0 < holds i k := by
  rw [h k] at hk
  obtain ⟨i, -, hi⟩ := Finset.exists_ne_zero_of_sum_ne_zero (Nat.ne_of_gt hk)
  exact ⟨i, Nat.pos_of_ne_zero hi⟩

/-- Two owners. -/
theorem Counted.add_le (h : Counted count holds) (hij : i ≠ j) (k : κ) : holds i k + holds j k ≤ count k := by
  rw [h k, ← Finset.sum_pair (f := fun i => holds i k) hij]
  exact Finset.sum_le_sum_of_subset (Finset.subset_univ _)

/-- The last reference is held by one owner. -/
theorem Counted.sole (h : Counted count holds) (hone : count k ≤ 1) (hi : 0 < holds i k) (hij : j ≠ i) : holds j k = 0 := by
  have hle := h.add_le hij k
  omega

/-- One owner gets or gives back references. -/
theorem Counted.update (h : Counted count holds) (i : ι) (hnew : ∀ k, count' k + holds i k = count k + new k) :
    Counted count' (Function.update holds i new) := by
  intro k
  have hsum := sum_update_add (Finset.mem_univ i) holds (fun f => f k) new
  have hk := hnew k
  rw [h k] at hk
  omega

end Xv6.Lib
