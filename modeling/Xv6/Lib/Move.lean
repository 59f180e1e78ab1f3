import Mathlib.Logic.Function.Basic

set_option autoImplicit false

/-! # Moving cells one after the other

The cells `s 0, s 1, ...` of a memory are copied to `d 0, d 1, ...`, which may be some of the same cells. A
cell that has been written must not be read later, and not be written again. -/

namespace Xv6.Lib

variable {A B : Type} {d s : Nat → A} {n : Nat} {f g g' : A → B}

/-- `g` is `f` with the first `n` cells moved. -/
structure Moved (d s : Nat → A) (n : Nat) (f g : A → B) : Prop where
  copied : ∀ i, i < n → g (d i) = f (s i)
  kept : ∀ a, (∀ i, i < n → a ≠ d i) → g a = f a

theorem Moved.zero (d s : Nat → A) (f : A → B) : Moved d s 0 f f :=
  ⟨fun i hi => absurd hi (Nat.not_lt_zero i), fun _ _ => rfl⟩

theorem Moved.unique (h : Moved d s n f g) (h' : Moved d s n f g') : g = g' := by
  funext a
  by_cases ha : ∃ i, i < n ∧ a = d i
  · obtain ⟨i, hi, rfl⟩ := ha
    rw [h.copied i hi, h'.copied i hi]
  · have hout : ∀ i, i < n → a ≠ d i := fun i hi he => ha ⟨i, hi, he⟩
    rw [h.kept a hout, h'.kept a hout]

variable [DecidableEq A]

/-- The first cell, and then the others. -/
theorem Moved.first (hd : ∀ i, i < n → d 0 ≠ d (i + 1)) (hs : ∀ i, i < n → s (i + 1) ≠ d 0)
    (h : Moved (fun i => d (i + 1)) (fun i => s (i + 1)) n (Function.update f (d 0) (f (s 0))) g) :
    Moved d s (n + 1) f g := by
  refine ⟨fun i hi => ?_, fun a ha => ?_⟩
  · cases i with
    | zero => rw [h.kept (d 0) hd, Function.update_self]
    | succ i =>
        have hi' := Nat.lt_of_succ_lt_succ hi
        rw [h.copied i hi', Function.update_of_ne (hs i hi')]
  · rw [h.kept a fun i hi => ha (i + 1) (Nat.succ_lt_succ hi), Function.update_of_ne (ha 0 (Nat.succ_pos n))]

/-- The last cell, and then the others. -/
theorem Moved.last (hd : ∀ i, i < n → d n ≠ d i) (hs : ∀ i, i < n → s i ≠ d n)
    (h : Moved d s n (Function.update f (d n) (f (s n))) g) : Moved d s (n + 1) f g := by
  refine ⟨fun i hi => ?_, fun a ha => ?_⟩
  · by_cases hin : i < n
    · rw [h.copied i hin, Function.update_of_ne (hs i hin)]
    · obtain rfl : i = n := by omega
      rw [h.kept (d i) hd, Function.update_self]
  · rw [h.kept a fun i hi => ha i (Nat.lt_succ_of_lt hi), Function.update_of_ne (ha n (Nat.lt_succ_self n))]

end Xv6.Lib
