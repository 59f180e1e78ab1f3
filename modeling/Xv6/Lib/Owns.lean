import Mathlib.Algebra.Notation.Defs
import Mathlib.Data.Fintype.EquivFin

set_option autoImplicit false

/-! # Blocks and the slots that own them

A number of slots each hold a block or nothing, which is written 0. No block is in two slots, and a
block is used if it is in a slot: nothing is shared and nothing is lost. -/

namespace Xv6.Lib

variable {ι β : Type} [Zero β] {slot slot' : ι → β} {used used' : β → Prop}

structure Owns (slot : ι → β) (used : β → Prop) : Prop where
  inj : ∀ i j, slot i ≠ 0 → slot i = slot j → i = j
  used_iff : ∀ b, b ≠ 0 → (used b ↔ ∃ i, slot i = b)

theorem Owns.used_slot (h : Owns slot used) {i : ι} (hi : slot i ≠ 0) : used (slot i) :=
  (h.used_iff _ hi).2 ⟨i, rfl⟩

theorem Owns.congr (h : Owns slot used) (hslot : ∀ i, slot' i = slot i)
    (hused : ∀ b, b ≠ 0 → (used' b ↔ used b)) : Owns slot' used' := by
  obtain rfl : slot' = slot := funext hslot
  exact ⟨h.inj, fun b hb => (hused b hb).trans (h.used_iff b hb)⟩

/-- A block that is not used is put in an empty slot. -/
theorem Owns.take (h : Owns slot used) {i : ι} {b : β} (hi : slot i = 0) (hb : ¬ used b)
    (hslot : slot' i = b) (hrest : ∀ j, j ≠ i → slot' j = slot j)
    (hused : ∀ c, c ≠ 0 → (used' c ↔ used c ∨ c = b)) : Owns slot' used' := by
  have hfresh : ∀ j, slot j ≠ 0 → slot j ≠ b := by
    rintro j hj rfl
    exact hb (h.used_slot hj)
  refine ⟨fun j k hj hjk => ?_, fun c hc => ?_⟩
  · by_cases hji : j = i
    · by_cases hki : k = i
      · rw [hji, hki]
      · rw [hji, hslot] at hj hjk
        rw [hrest k hki] at hjk
        exact absurd hjk.symm (hfresh k (hjk ▸ hj))
    · by_cases hki : k = i
      · rw [hrest j hji] at hj hjk
        rw [hki, hslot] at hjk
        exact absurd hjk (hfresh j hj)
      · rw [hrest j hji] at hj hjk
        rw [hrest k hki] at hjk
        exact h.inj j k hj hjk
  · rw [hused c hc]
    constructor
    · rintro (hu | rfl)
      · obtain ⟨j, rfl⟩ := (h.used_iff c hc).1 hu
        have hji : j ≠ i := by
          rintro rfl
          exact hc hi
        exact ⟨j, hrest j hji⟩
      · exact ⟨i, hslot⟩
    · rintro ⟨j, rfl⟩
      by_cases hji : j = i
      · rw [hji]
        exact Or.inr hslot
      · rw [hrest j hji] at hc ⊢
        exact Or.inl (h.used_slot hc)

/-- Some slots are emptied and their blocks given back. -/
theorem Owns.give (h : Owns slot used) (P : ι → Prop) (hslot : ∀ i, P i → slot' i = 0)
    (hrest : ∀ i, ¬ P i → slot' i = slot i)
    (hused : ∀ c, c ≠ 0 → (used' c ↔ used c ∧ ∀ i, P i → slot i ≠ c)) : Owns slot' used' := by
  have hkept : ∀ i, slot' i ≠ 0 → ¬ P i := fun i hi hp => hi (hslot i hp)
  refine ⟨fun i j hi hij => ?_, fun c hc => ?_⟩
  · have hj : slot' j ≠ 0 := hij ▸ hi
    rw [hrest i (hkept i hi), hrest j (hkept j hj)] at hij
    rw [hrest i (hkept i hi)] at hi
    exact h.inj i j hi hij
  · rw [hused c hc]
    constructor
    · rintro ⟨hu, hnot⟩
      obtain ⟨i, rfl⟩ := (h.used_iff c hc).1 hu
      exact ⟨i, hrest i fun hp => hnot i hp rfl⟩
    · rintro ⟨i, rfl⟩
      have hp := hkept i hc
      rw [hrest i hp] at hc ⊢
      refine ⟨h.used_slot hc, fun j hj hji => hp ?_⟩
      rw [← h.inj j i (hji ▸ hc) hji]
      exact hj

open Classical in
/-- Where every block that could be used is, no more slots can be filled: the owners of all blocks in one
    state would each have a block of their own in the other, and one is left over. -/
theorem Owns.no_more [Finite β] (h : Owns slot used) (h' : Owns slot' used') (hused : ∀ b, used' b → used b)
    (hslot : ∀ i, slot i ≠ 0 → slot' i ≠ 0) {i : ι} (hi : slot' i ≠ 0) : slot i ≠ 0 := by
  have howner : ∀ b, b ≠ 0 ∧ used b → ∃ j, slot j = b := fun b hb => (h.used_iff b hb.1).1 hb.2
  let f : β → β := fun b => if hb : b ≠ 0 ∧ used b then slot' (howner b hb).choose else b
  have hin : ∀ b (hb : b ≠ 0 ∧ used b), ∃ j, slot j = b ∧ f b = slot' j := fun b hb =>
    ⟨_, (howner b hb).choose_spec, dif_pos hb⟩
  have hout : ∀ b, ¬ (b ≠ 0 ∧ used b) → f b = b := fun b hb => dif_neg hb
  have hfin : ∀ b, b ≠ 0 ∧ used b → f b ≠ 0 ∧ used (f b) := by
    intro b hb
    obtain ⟨j, hj, hf⟩ := hin b hb
    have hne : slot' j ≠ 0 := hslot j (hj ▸ hb.1)
    rw [hf]
    exact ⟨hne, hused _ (h'.used_slot hne)⟩
  have hinj : Function.Injective f := by
    intro b c hbc
    by_cases hb : b ≠ 0 ∧ used b <;> by_cases hc : c ≠ 0 ∧ used c
    · obtain ⟨j, hj, hfj⟩ := hin b hb
      obtain ⟨k, hk, hfk⟩ := hin c hc
      rw [hfj, hfk] at hbc
      obtain rfl := h'.inj j k (hslot j (hj ▸ hb.1)) hbc
      exact hj.symm.trans hk
    · rw [hout c hc] at hbc
      exact absurd (hbc ▸ hfin b hb) hc
    · rw [hout b hb] at hbc
      exact absurd (hbc.symm ▸ hfin c hc) hb
    · rwa [hout b hb, hout c hc] at hbc
  obtain ⟨b, hb⟩ := Finite.surjective_of_injective hinj (slot' i)
  by_cases hbu : b ≠ 0 ∧ used b
  · obtain ⟨j, hj, hf⟩ := hin b hbu
    rw [hf] at hb
    obtain rfl := h'.inj j i (hb ▸ hi) hb
    rw [hj]
    exact hbu.1
  · rw [hout b hbu] at hb
    rw [hb] at hbu
    exact absurd ⟨hi, hused _ (h'.used_slot hi)⟩ hbu

end Xv6.Lib
