import Mathlib.Data.List.Basic

set_option autoImplicit false

/-! # Slots as a finite map

The first `n` slots each hold a key with its value, or nothing. With distinct keys they are a finite map:
what is put in an empty slot is added to the map, and what is taken out of a slot is removed from it. -/

namespace Xv6.Lib

variable {K V : Type} [DecidableEq K] {slot slot' : Nat → Option (K × V)} {n n' i j : Nat} {k : K} {v : V}

/-- No key is in two slots. -/
def Distinct (slot : Nat → Option (K × V)) (n : Nat) : Prop :=
  ∀ i j e e', i < n → j < n → slot i = some e → slot j = some e' → e.1 = e'.1 → i = j

/-- The key `k` in slot `i`. -/
def hit (slot : Nat → Option (K × V)) (k : K) (i : Nat) : Option (Nat × V) :=
  (slot i).bind fun e => if e.1 = k then some (i, e.2) else none

/-- The first slot with the key `k`, and the value there. -/
def lookup (slot : Nat → Option (K × V)) (n : Nat) (k : K) : Option (Nat × V) :=
  (List.range n).findSome? (hit slot k)

/-- The map. -/
def mapOf (slot : Nat → Option (K × V)) (n : Nat) (k : K) : Option V := (lookup slot n k).map Prod.snd

theorem hit_eq_some : hit slot k i = some (j, v) ↔ i = j ∧ slot j = some (k, v) := by
  unfold hit
  constructor
  · intro h
    obtain ⟨e, he, h⟩ := Option.bind_eq_some_iff.1 h
    split at h
    · next hk =>
      cases h
      exact ⟨rfl, by rw [he, ← hk]⟩
    · cases h
  · rintro ⟨rfl, h⟩
    rw [h, Option.bind_some, if_pos rfl]

theorem hit_eq_none : hit slot k i = none ↔ ∀ v, slot i ≠ some (k, v) := by
  constructor
  · intro h v hv
    rw [hit_eq_some.2 ⟨rfl, hv⟩] at h
    cases h
  · intro h
    cases hh : hit slot k i with
    | none => rfl
    | some p =>
        obtain ⟨rfl, hp⟩ := hit_eq_some.1 (show hit slot k i = some (p.1, p.2) from hh)
        exact absurd hp (h p.2)

theorem slot_of_lookup (h : lookup slot n k = some (j, v)) : j < n ∧ slot j = some (k, v) := by
  obtain ⟨i, hi, hh⟩ := List.exists_of_findSome?_eq_some h
  obtain ⟨rfl, hs⟩ := hit_eq_some.1 hh
  exact ⟨List.mem_range.1 hi, hs⟩

theorem lookup_eq_none : lookup slot n k = none ↔ ∀ i, i < n → ∀ v, slot i ≠ some (k, v) := by
  unfold lookup
  rw [List.findSome?_eq_none_iff]
  constructor
  · exact fun h i hi => hit_eq_none.1 (h i (List.mem_range.2 hi))
  · exact fun h i hi => hit_eq_none.2 (h i (List.mem_range.1 hi))

theorem mapOf_eq_none : mapOf slot n k = none ↔ ∀ i, i < n → ∀ v, slot i ≠ some (k, v) := by
  unfold mapOf
  rw [Option.map_eq_none_iff, lookup_eq_none]

/-- What is in a slot is what the map says of its key. -/
theorem mapOf_eq_some (h : Distinct slot n) : mapOf slot n k = some v ↔ ∃ i, i < n ∧ slot i = some (k, v) := by
  unfold mapOf
  rw [Option.map_eq_some_iff]
  constructor
  · rintro ⟨p, hp, rfl⟩
    exact ⟨p.1, slot_of_lookup hp⟩
  · rintro ⟨i, hi, hs⟩
    cases hl : lookup slot n k with
    | none => exact absurd hs (lookup_eq_none.1 hl i hi v)
    | some p =>
        obtain ⟨hj, hp⟩ := slot_of_lookup (show lookup slot n k = some (p.1, p.2) from hl)
        obtain rfl := h i p.1 _ _ hi hj hs hp rfl
        rw [hs] at hp
        cases hp
        exact ⟨p, rfl, rfl⟩

/-- A new key is put in an empty slot, or in one behind the others. -/
theorem Distinct.insert (h : Distinct slot n) (hnew : mapOf slot n k = none) (hj : j < n → slot j = none)
    (hn : n' = max n (j + 1)) (hjn : j ≤ n) (hself : slot' j = some (k, v))
    (hrest : ∀ i, i ≠ j → slot' i = slot i) :
    Distinct slot' n' ∧ mapOf slot' n' = Function.update (mapOf slot n) k (some v) := by
  have hnot := mapOf_eq_none.1 hnew
  have hlt : ∀ i, i < n' → i ≠ j → i < n := by omega
  have hdist : Distinct slot' n' := by
    intro a b e e' ha hb hea heb hkey
    by_cases haj : a = j <;> by_cases hbj : b = j
    · rw [haj, hbj]
    · rw [haj, hself] at hea
      cases hea
      rw [hrest b hbj] at heb
      exact absurd (heb.trans (by rw [show e' = (k, e'.2) from Prod.ext hkey.symm rfl])) (hnot b (hlt b hb hbj) e'.2)
    · rw [hbj, hself] at heb
      cases heb
      rw [hrest a haj] at hea
      exact absurd (hea.trans (by rw [show e = (k, e.2) from Prod.ext hkey rfl])) (hnot a (hlt a ha haj) e.2)
    · rw [hrest a haj] at hea
      rw [hrest b hbj] at heb
      exact h a b e e' (hlt a ha haj) (hlt b hb hbj) hea heb hkey
  refine ⟨hdist, funext fun q => ?_⟩
  by_cases hq : q = k
  · rw [hq, Function.update_self, mapOf_eq_some hdist]
    exact ⟨j, by omega, hself⟩
  · rw [Function.update_of_ne hq]
    refine Option.ext fun w => ?_
    rw [mapOf_eq_some hdist, mapOf_eq_some h]
    constructor
    · rintro ⟨i, hi, hs⟩
      have hij : i ≠ j := by
        rintro rfl
        rw [hself] at hs
        cases hs
        exact hq rfl
      exact ⟨i, hlt i hi hij, (hrest i hij).symm.trans hs⟩
    · rintro ⟨i, hi, hs⟩
      have hij : i ≠ j := by
        rintro rfl
        rw [hj hi] at hs
        cases hs
      exact ⟨i, by omega, (hrest i hij).trans hs⟩

/-- A slot is emptied. -/
theorem Distinct.erase (h : Distinct slot n) (hj : j < n) (hold : slot j = some (k, v)) (hself : slot' j = none)
    (hrest : ∀ i, i ≠ j → slot' i = slot i) :
    Distinct slot' n ∧ mapOf slot' n = Function.update (mapOf slot n) k none := by
  have hne : ∀ i e, slot' i = some e → i ≠ j := by
    rintro i e hi rfl
    rw [hself] at hi
    cases hi
  have hdist : Distinct slot' n := by
    intro a b e e' ha hb hea heb hkey
    rw [hrest a (hne a e hea)] at hea
    rw [hrest b (hne b e' heb)] at heb
    exact h a b e e' ha hb hea heb hkey
  refine ⟨hdist, funext fun q => ?_⟩
  by_cases hq : q = k
  · rw [hq, Function.update_self, mapOf_eq_none]
    intro i hi w hs
    have hij := hne i _ hs
    rw [hrest i hij] at hs
    exact hij (h i j _ _ hi hj hs hold rfl)
  · rw [Function.update_of_ne hq]
    refine Option.ext fun w => ?_
    rw [mapOf_eq_some hdist, mapOf_eq_some h]
    constructor
    · rintro ⟨i, hi, hs⟩
      exact ⟨i, hi, (hrest i (hne i _ hs)).symm.trans hs⟩
    · rintro ⟨i, hi, hs⟩
      have hij : i ≠ j := by
        rintro rfl
        rw [hold] at hs
        cases hs
        exact hq rfl
      exact ⟨i, hi, (hrest i hij).trans hs⟩

end Xv6.Lib
