import Mathlib.Data.Finset.Card

set_option autoImplicit false

/-! # Counting the members of a predicate

`Counts P n` says that exactly `n` indices satisfy `P`; the index type may be infinite. A counter
kept by a program is tied to the processes it counts by a `Counts`, and each step moves at most one
index in or out. -/

namespace Xv6.Lib

variable {ι : Type}

/-- Exactly `n` indices satisfy `P`. -/
def Counts (P : ι → Prop) (n : Nat) : Prop := ∃ A : Finset ι, (∀ i, i ∈ A ↔ P i) ∧ A.card = n

theorem Counts.zero {P : ι → Prop} (h : ∀ i, ¬ P i) : Counts P 0 :=
  ⟨∅, fun i => by simp [h i], rfl⟩

theorem Counts.congr {P Q : ι → Prop} {n : Nat} (h : Counts P n) (hPQ : ∀ i, P i ↔ Q i) :
    Counts Q n := by
  obtain ⟨A, hA, hn⟩ := h
  exact ⟨A, fun i => (hA i).trans (hPQ i), hn⟩

theorem Counts.eq_zero_iff {P : ι → Prop} {n : Nat} (h : Counts P n) :
    n = 0 ↔ ∀ i, ¬ P i := by
  obtain ⟨A, hA, rfl⟩ := h
  rw [Finset.card_eq_zero, Finset.eq_empty_iff_forall_notMem]
  exact forall_congr' fun i => not_congr (hA i)

theorem Counts.pos {P : ι → Prop} {n : Nat} (h : Counts P n) {i : ι} (hi : P i) : 0 < n := by
  refine Nat.pos_of_ne_zero fun h0 => ?_
  exact h.eq_zero_iff.1 h0 i hi

theorem Counts.insert {P Q : ι → Prop} {n : Nat} (h : Counts P n) {i : ι} (hi : ¬ P i)
    (hPQ : ∀ j, Q j ↔ P j ∨ j = i) : Counts Q (n + 1) := by
  classical
  obtain ⟨A, hA, rfl⟩ := h
  refine ⟨Insert.insert i A, fun j => ?_, Finset.card_insert_of_notMem (fun hm => hi ((hA i).1 hm))⟩
  rw [Finset.mem_insert, hA, hPQ, or_comm]

theorem Counts.erase {P Q : ι → Prop} {n : Nat} (h : Counts P n) {i : ι} (hi : P i)
    (hPQ : ∀ j, Q j ↔ P j ∧ j ≠ i) : Counts Q (n - 1) := by
  classical
  obtain ⟨A, hA, rfl⟩ := h
  refine ⟨A.erase i, fun j => ?_, Finset.card_erase_of_mem ((hA i).2 hi)⟩
  rw [Finset.mem_erase, hA, hPQ, and_comm]

/-- One index comes in, the others stay as they are. -/
theorem Counts.gain {P Q : ι → Prop} {n : Nat} (h : Counts P n) {i : ι} (hP : ¬ P i) (hQ : Q i)
    (hne : ∀ j, j ≠ i → (Q j ↔ P j)) : Counts Q (n + 1) := by
  refine h.insert hP fun j => ?_
  by_cases hj : j = i
  · subst hj
    exact iff_of_true hQ (Or.inr rfl)
  · rw [hne j hj, or_iff_left hj]

/-- One index goes out, the others stay as they are. -/
theorem Counts.lose {P Q : ι → Prop} {n : Nat} (h : Counts P n) {i : ι} (hP : P i) (hQ : ¬ Q i)
    (hne : ∀ j, j ≠ i → (Q j ↔ P j)) : Counts Q (n - 1) := by
  refine h.erase hP fun j => ?_
  by_cases hj : j = i
  · subst hj
    exact iff_of_false hQ fun hand => hand.2 rfl
  · rw [hne j hj, and_iff_left hj]

/-- Index `i` goes out and index `j` comes in. -/
theorem Counts.swap {P Q : ι → Prop} {n : Nat} (h : Counts P n) {i j : ι} (hPi : P i) (hQi : ¬ Q i)
    (hPj : ¬ P j) (hQj : Q j) (hne : ∀ k, k ≠ i → k ≠ j → (Q k ↔ P k)) : Counts Q n := by
  have hpos := h.pos hPi
  have hout : Counts (fun k => P k ∧ k ≠ i) (n - 1) := h.erase hPi fun k => Iff.rfl
  have hin : Counts Q (n - 1 + 1) := by
    refine hout.gain (fun hand => hPj hand.1) hQj fun k hk => ?_
    by_cases hki : k = i
    · subst hki
      exact iff_of_false hQi fun hand => hand.2 rfl
    · rw [hne k hki hk, and_iff_left hki]
  rwa [Nat.sub_add_cancel hpos] at hin

theorem Counts.unique {P : ι → Prop} {n m : Nat} (h : Counts P n) (h' : Counts P m) : n = m := by
  obtain ⟨A, hA, rfl⟩ := h
  obtain ⟨B, hB, rfl⟩ := h'
  have hAB : A = B := Finset.ext fun i => (hA i).trans (hB i).symm
  rw [hAB]

end Xv6.Lib
