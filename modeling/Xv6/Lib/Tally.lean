import Mathlib.Algebra.BigOperators.Group.Finset.Basic
import Mathlib.Algebra.Order.BigOperators.Group.Finset
import Mathlib.Tactic.Abel

set_option autoImplicit false

/-! # Counting in a family of lists

`tally n f p` counts the entries with `p` in the lists `f 0`, ..., `f (n - 1)`: the references that a
number of tables hold to one thing. When one list changes, the tally changes by the difference. -/

namespace Xv6.Lib

variable {α : Type}

/-- A sum over a family changes with one entry by the difference. -/
theorem sum_update_add {ι β M : Type} [DecidableEq ι] [AddCommMonoid M] {s : Finset ι} {i : ι}
    (hi : i ∈ s) (f : ι → β) (g : β → M) (v : β) :
    ∑ j ∈ s, g (Function.update f i v j) + g (f i) = ∑ j ∈ s, g (f j) + g v := by
  have hnew := Finset.add_sum_erase s (fun j => g (Function.update f i v j)) hi
  have hold := Finset.add_sum_erase s (fun j => g (f j)) hi
  have hrest : ∑ j ∈ s.erase i, g (Function.update f i v j) = ∑ j ∈ s.erase i, g (f j) :=
    Finset.sum_congr rfl fun j hj => by rw [Function.update_of_ne (Finset.ne_of_mem_erase hj)]
  rw [← hnew, ← hold, hrest, Function.update_self]
  abel

/-- The entries with `p` in the first `n` lists. -/
def tally (n : Nat) (f : Nat → List α) (p : α → Bool) : Nat := ∑ i ∈ Finset.range n, (f i).countP p

theorem tally_congr {n : Nat} {f g : Nat → List α} {p : α → Bool}
    (h : ∀ i, i < n → (f i).countP p = (g i).countP p) : tally n f p = tally n g p :=
  Finset.sum_congr rfl fun i hi => h i (Finset.mem_range.1 hi)

theorem tally_update {n i : Nat} (f : Nat → List α) (l : List α) (p : α → Bool) (hi : i < n) :
    tally n (Function.update f i l) p + (f i).countP p = tally n f p + l.countP p :=
  sum_update_add (Finset.mem_range.2 hi) f (fun l => l.countP p) l

theorem tally_le {n : Nat} {f g : Nat → List α} {p : α → Bool}
    (h : ∀ i, i < n → (f i).countP p ≤ (g i).countP p) : tally n f p ≤ tally n g p :=
  Finset.sum_le_sum fun i hi => h i (Finset.mem_range.1 hi)

theorem countP_le_tally {n i : Nat} {f : Nat → List α} {p : α → Bool} (hi : i < n) :
    (f i).countP p ≤ tally n f p :=
  Finset.single_le_sum (f := fun i => (f i).countP p) (fun _ _ => Nat.zero_le _)
    (Finset.mem_range.2 hi)

theorem tally_pos {n i : Nat} {f : Nat → List α} {p : α → Bool} {a : α} (hi : i < n) (ha : a ∈ f i)
    (hp : p a = true) : 0 < tally n f p :=
  Nat.lt_of_lt_of_le (List.countP_pos_iff.2 ⟨a, ha, hp⟩) (countP_le_tally hi)

theorem exists_of_tally_pos {n : Nat} {f : Nat → List α} {p : α → Bool} (h : 0 < tally n f p) :
    ∃ i, i < n ∧ ∃ a ∈ f i, p a = true := by
  by_contra hno
  refine absurd h (Nat.not_lt.2 (Nat.le_of_eq (Finset.sum_eq_zero fun i hi => ?_)))
  refine List.countP_eq_zero.2 fun a ha hp => hno ⟨i, Finset.mem_range.1 hi, a, ha, hp⟩

/-- Writing one entry of a list. -/
theorem countP_set_add {p : α → Bool} {l : List α} {i : Nat} {a b : α} (h : l[i]? = some b) :
    (l.set i a).countP p + (if p b then 1 else 0) = l.countP p + (if p a then 1 else 0) := by
  induction l generalizing i with
  | nil => simp at h
  | cons c l ih =>
      cases i with
      | zero =>
          obtain rfl : c = b := by simpa using h
          simp only [List.set_cons_zero, List.countP_cons]
          omega
      | succ i =>
          have := ih (i := i) (by simpa using h)
          simp only [List.set_cons_succ, List.countP_cons]
          omega

/-- One element of a list is mapped to something else. -/
theorem filterMap_update_perm {ι β γ : Type} [DecidableEq ι] {l : List ι} {i : ι} (hl : l.Nodup) (hi : i ∈ l) (F : ι → β)
    (g : β → Option γ) (v : β) :
    ((g (F i)).toList ++ l.filterMap fun j => g (Function.update F i v j)).Perm
      ((g v).toList ++ l.filterMap fun j => g (F j)) := by
  have hsplit : ∀ G : ι → β, (l.filterMap fun j => g (G j)).Perm
      ((g (G i)).toList ++ (l.erase i).filterMap fun j => g (G j)) := by
    intro G
    refine ((List.perm_cons_erase hi).filterMap _).trans (List.Perm.of_eq ?_)
    rw [List.filterMap_cons]
    cases g (G i) <;> rfl
  have hrest : (l.erase i).filterMap (fun j => g (Function.update F i v j)) = (l.erase i).filterMap fun j => g (F j) := by
    refine List.filterMap_congr fun j hj => ?_
    rw [Function.update_of_ne (hl.mem_erase_iff.1 hj).1]
  refine ((hsplit _).append_left _).trans ?_
  rw [Function.update_self, hrest]
  refine (List.perm_append_comm_assoc _ _ _).trans ?_
  exact ((hsplit F).symm).append_left _

end Xv6.Lib
