import Xv6.Param
import Xv6.Lib.Move

set_option autoImplicit false

/-! # `memmove`

The two functions of this name, of `kernel/string.c` and of `user/ulib.c`. They choose the direction in
which they copy by different tests, and both are right where the source and the destination overlap. -/

namespace Xv6.Strings

open Xv6.Lib

/-- Memory, by address. -/
abbrev Mem := Uint64 → Byte

/-- `while(n-- > 0) *d++ = *s++` -/
def copyUp : Nat → Uint64 → Uint64 → Mem → Mem
  | 0, _, _, mem => mem
  | n + 1, d, s, mem => copyUp n (d + 1) (s + 1) (Function.update mem d (mem s))

/-- `while(n-- > 0) *--d = *--s` -/
def copyDown : Nat → Uint64 → Uint64 → Mem → Mem
  | 0, _, _, mem => mem
  | n + 1, d, s, mem => copyDown n (d - 1) (s - 1) (Function.update mem (d - 1) (mem (s - 1)))

namespace Kernel

/-- What it returns, and the memory then. -/
def memmove (dst src : Uint64) (n : Uint) (mem : Mem) : Uint64 × Mem :=
  if n = 0 then (dst, mem)
  else
    let s := src
    let d := dst
    if s < d ∧ s + n.setWidth 64 > d then
      (dst, copyDown n.toNat (d + n.setWidth 64) (s + n.setWidth 64) mem)
    else (dst, copyUp n.toNat d s mem)

end Kernel

namespace User

/-- Here `n` is an `int`. -/
def memmove (vdst vsrc : Uint64) (n : BitVec 32) (mem : Mem) : Uint64 × Mem :=
  let dst := vdst
  let src := vsrc
  if src > dst then (vdst, copyUp n.toInt.toNat dst src mem)
  else (vdst, copyDown n.toInt.toNat (dst + n.signExtend 64) (src + n.signExtend 64) mem)

end User

/-- Byte `i` from an address on. -/
def byteAddr (a : Uint64) (i : Nat) : Uint64 := a + BitVec.ofNat 64 i

variable {dst src : Uint64} {n : Nat} {mem : Mem}

theorem byteAddr_zero (a : Uint64) : byteAddr a 0 = a := BitVec.add_zero a

theorem byteAddr_succ (a : Uint64) (i : Nat) : byteAddr (a + 1) i = byteAddr a (i + 1) := by
  unfold byteAddr
  rw [BitVec.ofNat_add, BitVec.add_assoc, BitVec.add_comm 1]
  rfl

theorem byteAddr_pred (a : Uint64) (n : Nat) : byteAddr a (n + 1) - 1 = byteAddr a n := by
  unfold byteAddr
  rw [BitVec.ofNat_add, ← BitVec.add_assoc]
  exact BitVec.add_sub_cancel _ _

/-- No address wraps. -/
theorem toNat_byteAddr {a : Uint64} {i : Nat} (h : a.toNat + i < 2 ^ 64) : (byteAddr a i).toNat = a.toNat + i := by
  unfold byteAddr
  rw [BitVec.toNat_add, BitVec.toNat_ofNat]
  omega

theorem byteAddr_ne {a b : Uint64} {i j : Nat} (hi : a.toNat + i < 2 ^ 64) (hj : b.toNat + j < 2 ^ 64)
    (hne : a.toNat + i ≠ b.toNat + j) : byteAddr a i ≠ byteAddr b j := fun he => by
  have h := congrArg BitVec.toNat he
  rw [toNat_byteAddr hi, toNat_byteAddr hj] at h
  exact hne h

/-- Going up, no byte of the source is overwritten before it is read. -/
theorem copyUp_moved (n : Nat) (d s : Uint64) (mem : Mem) (hd : ∀ i j, i < j → j < n → byteAddr d i ≠ byteAddr d j)
    (hs : ∀ i j, i < j → j < n → byteAddr s j ≠ byteAddr d i) : Moved (byteAddr d) (byteAddr s) n mem (copyUp n d s mem) := by
  induction n generalizing d s mem with
  | zero => exact Moved.zero _ _ _
  | succ n ih =>
      refine Moved.first (fun i hi => hd 0 (i + 1) (Nat.succ_pos i) (Nat.succ_lt_succ hi))
        (fun i hi => hs 0 (i + 1) (Nat.succ_pos i) (Nat.succ_lt_succ hi)) ?_
      have hrest := ih (d + 1) (s + 1) (Function.update mem d (mem s))
        (fun i j hij hj => by
          rw [byteAddr_succ, byteAddr_succ]
          exact hd (i + 1) (j + 1) (Nat.succ_lt_succ hij) (Nat.succ_lt_succ hj))
        (fun i j hij hj => by
          rw [byteAddr_succ, byteAddr_succ]
          exact hs (i + 1) (j + 1) (Nat.succ_lt_succ hij) (Nat.succ_lt_succ hj))
      rw [byteAddr_zero, byteAddr_zero]
      rw [show byteAddr (d + 1) = fun i => byteAddr d (i + 1) from funext (byteAddr_succ d),
        show byteAddr (s + 1) = fun i => byteAddr s (i + 1) from funext (byteAddr_succ s)] at hrest
      exact hrest

/-- Going down, from the ends of the ranges. -/
theorem copyDown_moved (n : Nat) (d s : Uint64) (mem : Mem) (hd : ∀ i j, i < j → j < n → byteAddr d j ≠ byteAddr d i)
    (hs : ∀ i j, i < j → j < n → byteAddr s i ≠ byteAddr d j) :
    Moved (byteAddr d) (byteAddr s) n mem (copyDown n (byteAddr d n) (byteAddr s n) mem) := by
  induction n generalizing mem with
  | zero => exact Moved.zero _ _ _
  | succ n ih =>
      refine Moved.last (fun i hi => hd i n hi (Nat.lt_succ_self n)) (fun i hi => hs i n hi (Nat.lt_succ_self n)) ?_
      rw [copyDown, byteAddr_pred, byteAddr_pred]
      exact ih _ (fun i j hij hj => hd i j hij (Nat.lt_succ_of_lt hj)) fun i j hij hj =>
        hs i j hij (Nat.lt_succ_of_lt hj)

/-- The direction is right where the destination begins before the source or after its end. -/
theorem copyUp_spec (hdst : dst.toNat + n ≤ 2 ^ 64) (hsrc : src.toNat + n ≤ 2 ^ 64)
    (hdir : dst.toNat ≤ src.toNat ∨ src.toNat + n ≤ dst.toNat) (mem : Mem) :
    Moved (byteAddr dst) (byteAddr src) n mem (copyUp n dst src mem) :=
  copyUp_moved n dst src mem (fun _ _ _ _ => byteAddr_ne (by omega) (by omega) (by omega))
    fun _ _ _ _ => byteAddr_ne (by omega) (by omega) (by omega)

theorem copyDown_spec (hdst : dst.toNat + n ≤ 2 ^ 64) (hsrc : src.toNat + n ≤ 2 ^ 64)
    (hdir : src.toNat ≤ dst.toNat) (mem : Mem) :
    Moved (byteAddr dst) (byteAddr src) n mem (copyDown n (byteAddr dst n) (byteAddr src n) mem) :=
  copyDown_moved n dst src mem (fun _ _ _ _ => byteAddr_ne (by omega) (by omega) (by omega))
    fun _ _ _ _ => byteAddr_ne (by omega) (by omega) (by omega)

namespace Kernel

theorem memmove_spec (dst src : Uint64) (n : Uint) (mem : Mem) (hdst : dst.toNat + n.toNat ≤ 2 ^ 64)
    (hsrc : src.toNat + n.toNat ≤ 2 ^ 64) :
    (memmove dst src n mem).1 = dst ∧ Moved (byteAddr dst) (byteAddr src) n.toNat mem (memmove dst src n mem).2 := by
  have hend : ∀ a : Uint64, a + n.setWidth 64 = byteAddr a n.toNat := by
    intro a
    unfold byteAddr
    rw [← BitVec.ofNat_toNat]
  unfold memmove
  simp only [hend]
  by_cases h0 : n = 0
  · rw [if_pos h0, h0]
    exact ⟨rfl, Moved.zero _ _ _⟩
  · rw [if_neg h0]
    by_cases hdir : src < dst ∧ byteAddr src n.toNat > dst
    · rw [if_pos hdir]
      exact ⟨rfl, copyDown_spec hdst hsrc (Nat.le_of_lt (BitVec.lt_def.1 hdir.1)) mem⟩
    · rw [if_neg hdir]
      refine ⟨rfl, copyUp_spec hdst hsrc ?_ mem⟩
      -- a source that begins first ends before the last address
      rw [gt_iff_lt, BitVec.lt_def, BitVec.lt_def] at hdir
      by_cases hlt : src.toNat < dst.toNat
      · rw [toNat_byteAddr (by omega)] at hdir
        omega
      · omega

end Kernel

namespace User

theorem memmove_spec (dst src : Uint64) (n : BitVec 32) (mem : Mem) (hn : 0 ≤ n.toInt)
    (hdst : dst.toNat + n.toInt.toNat ≤ 2 ^ 64) (hsrc : src.toNat + n.toInt.toNat ≤ 2 ^ 64) :
    (memmove dst src n mem).1 = dst ∧
      Moved (byteAddr dst) (byteAddr src) n.toInt.toNat mem (memmove dst src n mem).2 := by
  have hend : ∀ a : Uint64, a + n.signExtend 64 = byteAddr a n.toInt.toNat := by
    intro a
    unfold byteAddr BitVec.signExtend
    rw [← BitVec.ofInt_natCast, Int.toNat_of_nonneg hn]
  unfold memmove
  simp only [hend]
  by_cases hdir : src > dst
  · rw [if_pos hdir]
    exact ⟨rfl, copyUp_spec hdst hsrc (Or.inl (Nat.le_of_lt (BitVec.lt_def.1 hdir))) mem⟩
  · rw [if_neg hdir]
    rw [gt_iff_lt, BitVec.lt_def] at hdir
    exact ⟨rfl, copyDown_spec hdst hsrc (Nat.le_of_not_lt hdir) mem⟩

end User

/-- Wherever the two ranges are, the bytes of the source are in the destination afterwards, and no other byte
    has changed; so it does not matter which of the two functions is called. -/
theorem memmove_moves (dst src : Uint64) (n : BitVec 32) (mem : Mem) (hdst : dst.toNat + n.toNat ≤ 2 ^ 64)
    (hsrc : src.toNat + n.toNat ≤ 2 ^ 64) :
    (Kernel.memmove dst src n mem).1 = dst ∧
    Moved (byteAddr dst) (byteAddr src) n.toNat mem (Kernel.memmove dst src n mem).2 ∧
    (0 ≤ n.toInt → (User.memmove dst src n mem).1 = dst ∧
      Moved (byteAddr dst) (byteAddr src) n.toNat mem (User.memmove dst src n mem).2 ∧
      User.memmove dst src n mem = Kernel.memmove dst src n mem) := by
  obtain ⟨hret, hkernel⟩ := Kernel.memmove_spec dst src n mem hdst hsrc
  refine ⟨hret, hkernel, fun hn => ?_⟩
  have hint : n.toInt.toNat = n.toNat := by
    rw [BitVec.toInt_eq_toNat_cond] at hn ⊢
    split at hn <;> omega
  obtain ⟨hret', huser⟩ := User.memmove_spec dst src n mem hn (by rw [hint]; exact hdst) (by rw [hint]; exact hsrc)
  rw [hint] at huser
  exact ⟨hret', huser, Prod.ext (hret'.trans hret.symm) (huser.unique hkernel)⟩

/-- Five bytes are moved up by one. -/
theorem memmove_moves_up : (Kernel.memmove 1 0 5 fun a => a.setWidth 8).2 3 = 2 ∧
    (User.memmove 1 0 5 fun a => a.setWidth 8) = Kernel.memmove 1 0 5 fun a => a.setWidth 8 := by
  obtain ⟨-, hmoved, huser⟩ := memmove_moves 1 0 5 (fun a => a.setWidth 8) (by decide) (by decide)
  exact ⟨hmoved.copied 2 (by decide), (huser (by decide)).2.2⟩

end Xv6.Strings
