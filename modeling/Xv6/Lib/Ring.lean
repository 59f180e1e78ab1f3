import Mathlib.Data.BitVec
import Mathlib.Data.List.Basic
import Mathlib.Data.List.Range
import Mathlib.Logic.Function.Basic
import Mathlib.Tactic.Ring

set_option autoImplicit false

/-! # Ring buffers with running counters

A buffer of `N` slots with two counters of `w` bits that only ever increase, and wrap: element
number `c` lives in slot `c % N`. When `N` divides `2 ^ w` the slots follow each other across the
wrap, and the elements between the two counters form a queue: storing at the write counter appends
to it, stepping the read counter drops its first element. -/

namespace Xv6.Lib.Ring

variable {α : Type} {N w : Nat} [NeZero N]

/-- The slot of element number `c`. -/
def slot (N : Nat) [NeZero N] (c : BitVec w) : Fin N := Fin.ofNat N c.toNat

/-- The elements from counter `r` on up to counter `e`, oldest first. -/
def contents (data : Fin N → α) (r e : BitVec w) : List α :=
  (List.range (e - r).toNat).map fun j => data (slot N (r + BitVec.ofNat w j))

@[simp] theorem length_contents (data : Fin N → α) (r e : BitVec w) :
    (contents data r e).length = (e - r).toNat := by
  simp [contents]

theorem contents_self (data : Fin N → α) (r : BitVec w) : contents data r r = [] := by
  simp [contents]

theorem contents_eq_nil_iff {data : Fin N → α} {r e : BitVec w} :
    contents data r e = [] ↔ r = e := by
  rw [← List.length_eq_zero_iff, length_contents]
  constructor
  · intro h
    have h0 : e - r = 0#w := BitVec.eq_of_toNat_eq (by simpa using h)
    exact (BitVec.sub_eq_iff_eq_add.1 h0 |>.trans (by simp)).symm
  · rintro rfl
    simp

theorem slot_val (hdvd : N ∣ 2 ^ w) (r : BitVec w) (j : Nat) :
    (slot N (r + BitVec.ofNat w j)).val = (r.toNat + j) % N := by
  simp only [slot, Fin.val_ofNat, BitVec.toNat_add, BitVec.toNat_ofNat, Nat.add_mod_mod]
  exact Nat.mod_mod_of_dvd _ hdvd

/-- Fewer than `N` elements after `r`, the write slot is none of theirs. -/
theorem slot_ne (hdvd : N ∣ 2 ^ w) (r : BitVec w) {i n : Nat} (hi : i < n) (hn : n < N) :
    slot N (r + BitVec.ofNat w i) ≠ slot N (r + BitVec.ofNat w n) := by
  intro h
  have hv := congrArg Fin.val h
  rw [slot_val hdvd, slot_val hdvd] at hv
  have hd : N ∣ (r.toNat + n) - (r.toNat + i) :=
    Nat.dvd_of_mod_eq_zero (Nat.sub_mod_eq_zero_of_mod_eq hv.symm)
  have hz := Nat.eq_zero_of_dvd_of_lt hd (by omega)
  omega

theorem add_ofNat_sub (r e : BitVec w) : r + BitVec.ofNat w (e - r).toNat = e := by
  rw [BitVec.ofNat_toNat, BitVec.setWidth_eq, BitVec.add_comm, BitVec.sub_add_cancel]

theorem toNat_one (h : 1 < 2 ^ w) : (1 : BitVec w).toNat = 1 := by
  change (BitVec.ofNat w 1).toNat = 1
  rw [BitVec.toNat_ofNat, Nat.mod_eq_of_lt h]

theorem toNat_succ_sub {r e : BitVec w} (h : (e - r).toNat + 1 < 2 ^ w) :
    (e + 1 - r).toNat = (e - r).toNat + 1 := by
  have he : e + 1 - r = (e - r) + 1 := by ring
  rw [he, BitVec.toNat_add, toNat_one (by omega), Nat.mod_eq_of_lt h]

theorem toNat_sub_ne_zero {r e : BitVec w} (h : r ≠ e) : (e - r).toNat ≠ 0 := by
  intro h0
  have hlen := length_contents (fun _ : Fin 1 => ()) r e
  exact h (contents_eq_nil_iff.1 (List.length_eq_zero_iff.1 (hlen.trans h0)))

theorem toNat_sub_succ {r e : BitVec w} (h : r ≠ e) :
    (e - (r + 1)).toNat = (e - r).toNat - 1 := by
  have hpos : (e - r).toNat ≠ 0 := toNat_sub_ne_zero h
  have hlt : (e - r).toNat < 2 ^ w := (e - r).isLt
  have h1 : (1 : BitVec w).toNat = 1 := toNat_one (by omega)
  have he : e - (r + 1) = (e - r) - 1 := by ring
  have hle : (1 : BitVec w) ≤ e - r := by
    rw [BitVec.le_def, h1]
    omega
  rw [he, BitVec.toNat_sub_of_le hle, h1]

/-- Storing at the write counter appends. -/
theorem contents_push (hdvd : N ∣ 2 ^ w) (data : Fin N → α) {r e : BitVec w} (b : α)
    (hroom : (e - r).toNat < N) (hw : N < 2 ^ w) :
    contents (Function.update data (slot N e) b) r (e + 1) = contents data r e ++ [b] := by
  unfold contents
  rw [toNat_succ_sub (by omega), List.range_succ, List.map_append, List.map_singleton,
    add_ofNat_sub, Function.update_self]
  congr 1
  apply List.map_congr_left
  intro j hj
  have hne := slot_ne hdvd r (List.mem_range.1 hj) hroom
  rw [add_ofNat_sub] at hne
  exact Function.update_of_ne hne _ _

/-- Stepping the read counter drops the first element. -/
theorem contents_pop (data : Fin N → α) {r e : BitVec w} (h : r ≠ e) :
    contents data r e = data (slot N r) :: contents data (r + 1) e := by
  obtain ⟨n, hn⟩ := Nat.exists_eq_succ_of_ne_zero (toNat_sub_ne_zero h)
  unfold contents
  rw [toNat_sub_succ h, hn, Nat.succ_sub_one, List.range_succ_eq_map, List.map_cons, List.map_map]
  congr 1
  · simp
  · apply List.map_congr_left
    intro j _
    simp only [Function.comp_apply]
    congr 2
    rw [BitVec.add_assoc]
    congr 1
    rw [Nat.succ_eq_add_one, BitVec.ofNat_add, BitVec.add_comm]
    rfl

/-! ## A counter in between -/

theorem toNat_pred_sub {r e : BitVec w} (h : r ≠ e) : (e - 1 - r).toNat = (e - r).toNat - 1 := by
  have he : e - 1 - r = e - (r + 1) := by ring
  rw [he, toNat_sub_succ h]

/-- The last element is the one before the write counter. -/
theorem contents_snoc (data : Fin N → α) {r e : BitVec w} (h : r ≠ e) :
    contents data r e = contents data r (e - 1) ++ [data (slot N (e - 1))] := by
  obtain ⟨n, hn⟩ := Nat.exists_eq_succ_of_ne_zero (toNat_sub_ne_zero h)
  have hlast : r + BitVec.ofNat w n = e - 1 := by
    have hpred := toNat_pred_sub h
    rw [hn, Nat.succ_sub_one] at hpred
    rw [← hpred, add_ofNat_sub]
  unfold contents
  rw [toNat_pred_sub h, hn, Nat.succ_sub_one, List.range_succ, List.map_append, List.map_singleton, hlast]

/-- Stepping the write counter back drops the last element. -/
theorem contents_pred (data : Fin N → α) {r e : BitVec w} (h : r ≠ e) :
    contents data r (e - 1) = (contents data r e).dropLast := by
  rw [contents_snoc data h, List.dropLast_concat]

theorem toNat_sub_of_between {r c e : BitVec w} (h : (c - r).toNat ≤ (e - r).toNat) :
    (e - c).toNat = (e - r).toNat - (c - r).toNat := by
  have he : e - c = (e - r) - (c - r) := by ring
  rw [he, BitVec.toNat_sub_of_le h]

/-- The elements up to a counter in between come first. -/
theorem contents_take (data : Fin N → α) {r c e : BitVec w} (h : (c - r).toNat ≤ (e - r).toNat) :
    contents data r c = (contents data r e).take (c - r).toNat := by
  unfold contents
  rw [← List.map_take, List.take_range, Nat.min_eq_left h]

theorem contents_drop (data : Fin N → α) {r c e : BitVec w} (h : (c - r).toNat ≤ (e - r).toNat) :
    contents data c e = (contents data r e).drop (c - r).toNat := by
  apply List.ext_getElem
  · rw [length_contents, List.length_drop, length_contents, toNat_sub_of_between h]
  · intro j h₁ h₂
    simp only [contents, List.getElem_map, List.getElem_range, List.getElem_drop, BitVec.ofNat_add,
      ← BitVec.add_assoc, add_ofNat_sub]

theorem contents_append (data : Fin N → α) {r c e : BitVec w} (h : (c - r).toNat ≤ (e - r).toNat) :
    contents data r e = contents data r c ++ contents data c e := by
  rw [contents_take data h, contents_drop data h, List.take_append_drop]

end Xv6.Lib.Ring
