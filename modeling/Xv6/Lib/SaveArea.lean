import Mathlib.Logic.Function.Basic
import Mathlib.Data.List.Nodup

set_option autoImplicit false

/-! # Registers kept in memory

A layout lists registers with the offsets at which an area of memory keeps them. `storeAll` writes the
registers of a layout to the area at `base`, `loadAll` reads them back. What is stored is found again
as long as nobody writes to the area. -/

namespace Xv6.Lib

variable {R W : Type} [DecidableEq R]

/-- Store the registers of a layout in the area at `base`. -/
def storeAll (regs : R → W) (base : Nat) : List (R × Nat) → (Nat → W) → Nat → W
  | [], mem => mem
  | (r, off) :: l, mem => storeAll regs base l (Function.update mem (base + off) (regs r))

/-- Load the registers of a layout from the area at `base`. -/
def loadAll (mem : Nat → W) (base : Nat) : List (R × Nat) → (R → W) → R → W
  | [], regs => regs
  | (r, off) :: l, regs => loadAll mem base l (Function.update regs r (mem (base + off)))

variable {regs : R → W} {base : Nat} {l : List (R × Nat)} {mem : Nat → W}

omit [DecidableEq R] in
/-- Nothing outside the area changes. -/
theorem storeAll_of_ne {a : Nat} (h : ∀ r off, (r, off) ∈ l → base + off ≠ a) :
    storeAll regs base l mem a = mem a := by
  induction l generalizing mem with
  | nil => rfl
  | cons p l ih =>
      obtain ⟨r, off⟩ := p
      rw [storeAll, ih fun r' off' hmem => h r' off' (List.mem_cons_of_mem _ hmem),
        Function.update_of_ne (Ne.symm (h r off (List.mem_cons_self ..)))]

omit [DecidableEq R] in
theorem storeAll_of_mem (hnodup : (l.map Prod.snd).Nodup) {r : R} {off : Nat} (h : (r, off) ∈ l) :
    storeAll regs base l mem (base + off) = regs r := by
  induction l generalizing mem with
  | nil => simp at h
  | cons p l ih =>
      rw [List.map_cons, List.nodup_cons] at hnodup
      rcases List.mem_cons.1 h with rfl | hmem
      · rw [storeAll, storeAll_of_ne, Function.update_self]
        intro r' off' hmem heq
        obtain rfl : off' = off := by omega
        exact hnodup.1 (List.mem_map.2 ⟨(r', off'), hmem, rfl⟩)
      · exact ih hnodup.2 hmem

/-- Registers outside the layout keep their values. -/
theorem loadAll_of_ne {r : R} (h : ∀ off, (r, off) ∉ l) : loadAll mem base l regs r = regs r := by
  induction l generalizing regs with
  | nil => rfl
  | cons p l ih =>
      obtain ⟨r', off⟩ := p
      have hne : r ≠ r' := by
        rintro rfl
        exact h off (List.mem_cons_self ..)
      rw [loadAll, ih fun off' hmem => h off' (List.mem_cons_of_mem _ hmem),
        Function.update_of_ne hne]

theorem loadAll_of_mem (hnodup : (l.map Prod.fst).Nodup) {r : R} {off : Nat} (h : (r, off) ∈ l) :
    loadAll mem base l regs r = mem (base + off) := by
  induction l generalizing regs with
  | nil => simp at h
  | cons p l ih =>
      rw [List.map_cons, List.nodup_cons] at hnodup
      rcases List.mem_cons.1 h with rfl | hmem
      · rw [loadAll, loadAll_of_ne, Function.update_self]
        intro off' hmem
        exact hnodup.1 (List.mem_map.2 ⟨(r, off'), hmem, rfl⟩)
      · exact ih hnodup.2 hmem

end Xv6.Lib
