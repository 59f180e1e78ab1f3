import Mathlib.Tactic.IntervalCases
import Xv6.Sv39.Model

set_option autoImplicit false

/-! # Entries and indices

A page-table page's address survives in the entry that points to it, and the three indices of a
page-aligned address below `MAXVA` determine it. -/

namespace Xv6.Sv39

open Xv6.Lib Xv6.Lib.Radix

/-- The page that an entry of an upper level points to. -/
def child (e : Pte) : Option Pagetable :=
  if e &&& PTE_V ≠ 0 then some (PTE2PA e) else none

theorem or_valid (e : Pte) : (e ||| PTE_V) &&& PTE_V ≠ 0 := by
  have h : (e ||| PTE_V) &&& PTE_V = PTE_V := by
    ext i
    simp only [BitVec.getElem_and, BitVec.getElem_or]
    cases e[i] <;> cases PTE_V[i] <;> rfl
  rw [h]
  decide

theorem child_zero : child 0 = none := by rfl

theorem toNat_PTE2PA (e : Pte) : (PTE2PA e).toNat = e.toNat / 2 ^ 10 * 2 ^ 12 % 2 ^ 64 := by
  simp only [PTE2PA, BitVec.toNat_shiftLeft, BitVec.toNat_ushiftRight, Nat.shiftLeft_eq,
    Nat.shiftRight_eq_div_pow]

theorem toNat_PA2PTE (pa : Uint64) : (PA2PTE pa).toNat = pa.toNat / 2 ^ 12 * 2 ^ 10 % 2 ^ 64 := by
  simp only [PA2PTE, BitVec.toNat_shiftLeft, BitVec.toNat_ushiftRight, Nat.shiftLeft_eq,
    Nat.shiftRight_eq_div_pow]

/-- Flags below bit 10 stand beside the page number. -/
theorem toNat_PA2PTE_or {pa : Uint64} {flags : Pte} (hpa : pa.toNat < 2 ^ 56)
    (hf : flags.toNat < 2 ^ 10) :
    (PA2PTE pa ||| flags).toNat = pa.toNat / 2 ^ 12 * 2 ^ 10 + flags.toNat := by
  have hsmall : pa.toNat / 2 ^ 12 * 2 ^ 10 < 2 ^ 64 := by omega
  rw [BitVec.toNat_or, toNat_PA2PTE, Nat.mod_eq_of_lt hsmall, ← Nat.shiftLeft_eq,
    Nat.shiftLeft_add_eq_or_of_lt hf]

theorem aligned_iff (a : Uint64) : a % PGSIZE = 0 ↔ a.toNat % 2 ^ 12 = 0 := by
  constructor
  · intro h
    have h' := congrArg BitVec.toNat h
    rw [BitVec.toNat_umod] at h'
    exact h'
  · intro h
    apply BitVec.eq_of_toNat_eq
    rw [BitVec.toNat_umod]
    exact h

/-- What an entry says: the page and the flags. -/
theorem decode_pte {pa : Uint64} {flags : Pte} (ha : pa % PGSIZE = 0) (hpa : pa.toNat < 2 ^ 56)
    (hf : flags.toNat < 2 ^ 10) :
    PTE2PA (PA2PTE pa ||| flags) = pa ∧ PTE_FLAGS (PA2PTE pa ||| flags) = flags := by
  have hsum := toNat_PA2PTE_or hpa hf
  have ha' := (aligned_iff pa).1 ha
  constructor
  · apply BitVec.eq_of_toNat_eq
    rw [toNat_PTE2PA, hsum]
    omega
  · apply BitVec.eq_of_toNat_eq
    rw [PTE_FLAGS, BitVec.toNat_and, hsum]
    show _ &&& (2 ^ 10 - 1) = _
    rw [Nat.and_two_pow_sub_one_eq_mod]
    omega

theorem Page.lt (p : Page) : p.1.toNat < 2 ^ 56 :=
  Nat.lt_trans (BitVec.lt_def.1 p.2.2.2) (by decide)

theorem Page.ne_zero (p : Page) : p.1 ≠ 0 := by
  intro h
  have := BitVec.le_def.1 p.2.2.1
  rw [h] at this
  exact absurd this (by decide)

theorem child_page (p : Page) : child (PA2PTE p.1 ||| PTE_V) = some p.1 := by
  rw [child, if_pos (or_valid _), (decode_pte p.2.1 p.lt (by decide)).1]

/-! ## Indices -/

theorem PX_val (level : Nat) (va : Uint64) :
    (PX level va).1 = va.toNat / 2 ^ (12 + 9 * level) % 2 ^ 9 := by
  show ((va >>> PXSHIFT level) &&& 0x1FF).toNat = _
  rw [BitVec.toNat_and, BitVec.toNat_ushiftRight, Nat.shiftRight_eq_div_pow]
  show _ &&& (2 ^ 9 - 1) = _
  rw [Nat.and_two_pow_sub_one_eq_mod]
  rfl

/-- The indices of the levels down to 1, from a level on. -/
def path (va : Uint64) : Nat → List (Fin 512)
  | 0 => []
  | level + 1 => PX (level + 1) va :: path va level

theorem length_path (va : Uint64) (level : Nat) : (path va level).length = level := by
  induction level with
  | zero => rfl
  | succ level ih => rw [path, List.length_cons, ih]

/-- The offset in the page is in no index. -/
theorem PX_PGROUNDDOWN (va : Uint64) {level : Nat} (hl : level < 3) :
    PX level (PGROUNDDOWN va) = PX level va := by
  apply Fin.ext
  show (((va &&& ~~~(PGSIZE - 1)) >>> PXSHIFT level) &&& 0x1FF).toNat = _
  rw [BitVec.ushiftRight_and_distrib, BitVec.and_assoc]
  have hmask : (~~~(PGSIZE - 1)) >>> PXSHIFT level &&& 0x1FF = 0x1FF := by
    interval_cases level <;> rfl
  rw [hmask]
  rfl

theorem aligned_PGROUNDDOWN (va : Uint64) : PGROUNDDOWN va % PGSIZE = 0 := by
  rw [aligned_iff, ← Nat.and_two_pow_sub_one_eq_mod, PGROUNDDOWN, BitVec.toNat_and, Nat.and_assoc]
  exact Nat.and_zero _

theorem toNat_PGROUNDDOWN (va : Uint64) :
    (PGROUNDDOWN va).toNat + va.toNat % 2 ^ 12 = va.toNat := by
  have hdisj : PGROUNDDOWN va &&& (va &&& (PGSIZE - 1)) = 0 := by
    ext i
    simp only [PGROUNDDOWN, BitVec.getElem_and, BitVec.getElem_not, BitVec.ofNat_eq_ofNat,
      BitVec.getElem_zero]
    cases va[i] <;> cases (PGSIZE - 1)[i] <;> rfl
  have hor : PGROUNDDOWN va ||| (va &&& (PGSIZE - 1)) = va := by
    ext i
    simp only [PGROUNDDOWN, BitVec.getElem_and, BitVec.getElem_or, BitVec.getElem_not]
    cases va[i] <;> cases (PGSIZE - 1)[i] <;> rfl
  have hoff : (va &&& (PGSIZE - 1)).toNat = va.toNat % 2 ^ 12 := by
    rw [BitVec.toNat_and, ← Nat.and_two_pow_sub_one_eq_mod]
    rfl
  have hadd := congrArg BitVec.toNat ((BitVec.add_eq_or_of_and_eq_zero _ _ hdisj).trans hor)
  rw [BitVec.toNat_add, hoff] at hadd
  have hle : (PGROUNDDOWN va).toNat ≤ va.toNat := by
    rw [PGROUNDDOWN, BitVec.toNat_and]
    exact Nat.and_le_left
  have := va.isLt
  omega

theorem PGROUNDDOWN_lt_iff {va : Uint64} : PGROUNDDOWN va < MAXVA ↔ va < MAXVA := by
  have hva := toNat_PGROUNDDOWN va
  have halign := (aligned_iff _).1 (aligned_PGROUNDDOWN va)
  rw [BitVec.lt_def, BitVec.lt_def]
  show _ < 2 ^ 38 ↔ _ < 2 ^ 38
  omega

theorem path_PGROUNDDOWN (va : Uint64) : path (PGROUNDDOWN va) 2 = path va 2 := by
  simp only [path, PX_PGROUNDDOWN va (show 1 < 3 by decide), PX_PGROUNDDOWN va (show 2 < 3 by decide)]

/-- Distinct pages have distinct indices. -/
theorem eq_of_path {va va' : Uint64} (ha : va % PGSIZE = 0) (ha' : va' % PGSIZE = 0)
    (hlt : va < MAXVA) (hlt' : va' < MAXVA) (hpath : path va 2 = path va' 2)
    (h0 : PX 0 va = PX 0 va') : va = va' := by
  simp only [path, List.cons.injEq] at hpath
  have e2 := congrArg Fin.val hpath.1
  have e1 := congrArg Fin.val hpath.2.1
  have e0 := congrArg Fin.val h0
  simp only [PX_val] at e0 e1 e2
  have m := (aligned_iff va).1 ha
  have m' := (aligned_iff va').1 ha'
  have b : va.toNat < 2 ^ 38 := BitVec.lt_def.1 hlt
  have b' : va'.toNat < 2 ^ 38 := BitVec.lt_def.1 hlt'
  apply BitVec.eq_of_toNat_eq
  omega

end Xv6.Sv39
