import Mathlib.Tactic.Ring
import Xv6.Lib.Owns
import Xv6.Blocks.Frame

set_option autoImplicit false

/-! # Which inode has which block

The slots of an inode are its direct blocks, its indirect block and the entries of that. Every block
whose bit is set in the free map is metadata or in one slot of one inode. -/

namespace Xv6.Blocks

open Xv6.Lib
open Xv6.Fs (NINODE NFILE NDEV ROOTINO DIRSIZ MAXFILE Ip)

/-- The slot of the indirect block. -/
def INDIRECT : Nat := NDIRECT

def SLOTS : Nat := NDIRECT + 1 + NINDIRECT

/-- The block number in slot `k` of an inode that has the block numbers `a`. -/
def slotAddr (blocks : Nat → Nat → Byte) (a : Addrs) (k : Nat) : Uint :=
  if h : k < NDIRECT + 1 then a ⟨k, h⟩
  else if k < SLOTS ∧ a (Fin.last NDIRECT) ≠ 0 then
    word (blocks (a (Fin.last NDIRECT)).toNat) (4 * (k - (NDIRECT + 1)))
  else 0

/-- The slot of the `bn`th block of a file. -/
def fileSlot (bn : Nat) : Nat := if bn < NDIRECT then bn else bn + 1

/-- The block number in slot `k` of an inode in the table. -/
def State.slot (s : State) (ip : Ip) (k : Nat) : Uint := slotAddr s.blocks (s.itable ip).addrs k

/-- Block `b` is for data, and its bit is set. -/
def Used (sb : Superblock) (s : State) (b : Nat) : Prop :=
  sb.dataStart ≤ b ∧ b < sb.size.toNat ∧ s.bit sb b = true

/-- The blocks of the inodes, which have the block numbers `A`, are those that the free map says are used. -/
structure Owned (sb : Superblock) (A : Nat → Addrs) (s : State) : Prop where
  owns : Owns (fun p : Nat × Nat => slotAddr s.blocks (A p.1) p.2) fun b : Uint => Used sb s b.toNat

/-- Besides, the free map does not give metadata away. -/
structure Own (sb : Superblock) (A : Nat → Addrs) (s : State) : Prop extends Owned sb A s where
  boot : ∀ b, b < sb.dataStart → b < sb.size.toNat → s.bit sb b = true

/-- The disk has no free block. -/
def Full (sb : Superblock) (s : State) : Prop := ∀ b, b < sb.size.toNat → s.bit sb b = true

variable {sb : Superblock} {s t : State} {A : Nat → Addrs} {ip : Ip}

theorem fileSlot_ne_indirect (bn : Nat) : fileSlot bn ≠ INDIRECT := by
  unfold fileSlot INDIRECT
  split <;> omega

theorem fileSlot_inj {bn bn' : Nat} (h : fileSlot bn = fileSlot bn') : bn = bn' := by
  unfold fileSlot at h
  split at h <;> split at h <;> omega

theorem slotAddr_direct (blocks : Nat → Nat → Byte) (a : Addrs) {k : Nat} (h : k < NDIRECT + 1) :
    slotAddr blocks a k = a ⟨k, h⟩ := dif_pos h

theorem slotAddr_indirect (blocks : Nat → Nat → Byte) (a : Addrs) :
    slotAddr blocks a INDIRECT = a (Fin.last NDIRECT) := slotAddr_direct blocks a (Nat.lt_succ_self _)

/-- The slot of entry `j`. -/
theorem slotAddr_entry {blocks : Nat → Nat → Byte} {a : Addrs} {j : Nat} (hj : j < NINDIRECT)
    (ha : a (Fin.last NDIRECT) ≠ 0) :
    slotAddr blocks a (NDIRECT + 1 + j) = word (blocks (a (Fin.last NDIRECT)).toNat) (4 * j) := by
  rw [slotAddr, dif_neg (by omega), if_pos ⟨Nat.add_lt_add_left hj _, ha⟩, Nat.add_sub_cancel_left]

/-- An inode without an indirect block has no entries. -/
theorem slotAddr_of_no_indirect {blocks : Nat → Nat → Byte} {a : Addrs} {k : Nat}
    (hk : NDIRECT + 1 ≤ k) (ha : a (Fin.last NDIRECT) = 0) : slotAddr blocks a k = 0 := by
  rw [slotAddr, dif_neg (by omega), if_neg fun h => h.2 ha]

theorem slotAddr_zero (blocks : Nat → Nat → Byte) (k : Nat) : slotAddr blocks (fun _ => 0) k = 0 := by
  by_cases h : k < NDIRECT + 1
  · exact slotAddr_direct blocks _ h
  · exact slotAddr_of_no_indirect (by omega) rfl

/-- Only the indirect block matters. -/
theorem slotAddr_congr {blocks blocks' : Nat → Nat → Byte} {a : Addrs}
    (h : a (Fin.last NDIRECT) ≠ 0 →
      blocks' (a (Fin.last NDIRECT)).toNat = blocks (a (Fin.last NDIRECT)).toNat) (k : Nat) :
    slotAddr blocks' a k = slotAddr blocks a k := by
  unfold slotAddr
  by_cases hk : k < NDIRECT + 1
  · rw [dif_pos hk, dif_pos hk]
  · rw [dif_neg hk, dif_neg hk]
    by_cases ha : k < SLOTS ∧ a (Fin.last NDIRECT) ≠ 0
    · rw [if_pos ha, if_pos ha, h ha.2]
    · rw [if_neg ha, if_neg ha]

/-! ## What the owner of a block knows -/

theorem Owned.used (h : Owned sb A s) {j k : Nat} (hk : slotAddr s.blocks (A j) k ≠ 0) :
    Used sb s (slotAddr s.blocks (A j) k).toNat := h.owns.used_slot (i := (j, k)) hk

theorem Owned.inj (h : Owned sb A s) {j k j' k' : Nat} (hk : slotAddr s.blocks (A j) k ≠ 0)
    (he : slotAddr s.blocks (A j) k = slotAddr s.blocks (A j') k') : j = j' ∧ k = k' := by
  have hp := h.owns.inj (j, k) (j', k') hk he
  exact ⟨congrArg Prod.fst hp, congrArg Prod.snd hp⟩

theorem Used.ne_zero {b : Nat} (h : Used sb s b) : b ≠ 0 := by
  have hdata := Superblock.bmapstart_lt_dataStart sb
  have hb := h.1
  omega

theorem Used.ne_free {b c : Nat} (h : Used sb s c) (hb : s.bit sb b = false) : c ≠ b := by
  rintro rfl
  have hc := h.2.2
  rw [hb] at hc
  cases hc

/-- Block numbers are `uint`s. -/
theorem toNat_blockno {b : Nat} (hb : b < sb.size.toNat) : (BitVec.ofNat 32 b).toNat = b :=
  Nat.mod_eq_of_lt (Nat.lt_trans hb sb.size.isLt)

theorem blockno_ne_zero {b : Nat} (hb : b < sb.size.toNat) (hdata : sb.dataStart ≤ b) :
    BitVec.ofNat 32 b ≠ 0 := by
  intro h0
  have hz := toNat_blockno hb
  rw [h0] at hz
  have hpos := Superblock.bmapstart_lt_dataStart sb
  have h0' : (0 : Uint).toNat = 0 := rfl
  omega

/-- A write to a data block of an inode changes no indirect block. -/
theorem Owned.indirect_ne (h : Owned sb A s) {j k i : Nat} (hk : slotAddr s.blocks (A j) k ≠ 0)
    (hne : k ≠ INDIRECT) : (A i (Fin.last NDIRECT)).toNat ≠ (slotAddr s.blocks (A j) k).toNat := by
  intro he
  have hs := BitVec.eq_of_toNat_eq he
  rw [← slotAddr_indirect s.blocks (A i)] at hs
  exact hne (h.inj hk hs.symm).2

/-- What ownership depends on. -/
theorem Owned.congr (h : Owned sb A s) (hind : ∀ i, A i (Fin.last NDIRECT) ≠ 0 →
      t.blocks (A i (Fin.last NDIRECT)).toNat = s.blocks (A i (Fin.last NDIRECT)).toNat)
    (hbit : ∀ b, b < sb.size.toNat → t.bit sb b = s.bit sb b) : Owned sb A t := by
  refine ⟨h.owns.congr (fun p => slotAddr_congr (hind p.1) p.2) fun b _ => ?_⟩
  unfold Used
  constructor
  · rintro ⟨h1, h2, h3⟩
    exact ⟨h1, h2, hbit _ h2 ▸ h3⟩
  · rintro ⟨h1, h2, h3⟩
    exact ⟨h1, h2, (hbit _ h2).symm ▸ h3⟩

theorem Own.congr (h : Own sb A s) (hind : ∀ i, A i (Fin.last NDIRECT) ≠ 0 →
      t.blocks (A i (Fin.last NDIRECT)).toNat = s.blocks (A i (Fin.last NDIRECT)).toNat)
    (hbit : ∀ b, b < sb.size.toNat → t.bit sb b = s.bit sb b) : Own sb A t := by
  refine ⟨h.toOwned.congr hind hbit, fun b hb hlt => ?_⟩
  rw [hbit b hlt]
  exact h.boot b hb hlt

/-! ## Allocating a block -/

/-- `balloc` has taken block `b`. -/
def State.taken (sb : Superblock) (s : State) (b : Nat) : State :=
  { (s.setBit sb b true).setBlock b fun _ => 0 with logged := b :: sb.BBLOCK b :: s.logged }

theorem balloc_eq (sb : Superblock) (s : State) : (Full sb s ∧ balloc sb s = .ok (0, s)) ∨
    ∃ b, b < sb.size.toNat ∧ s.bit sb b = false ∧
      balloc sb s = .ok (BitVec.ofNat 32 b, s.taken sb b) := by
  unfold balloc
  rw [bind_of_ok (rfl : (get : K State) s = .ok (s, s))]
  cases hfind : (List.range sb.size.toNat).find? fun b => !s.bit sb b with
  | none =>
      left
      refine ⟨fun b hb => ?_, rfl⟩
      have hb' := List.find?_eq_none.1 hfind b (List.mem_range.2 hb)
      simpa using hb'
  | some b =>
      right
      have hmem := List.mem_range.1 (List.mem_of_find?_eq_some hfind)
      have hfree := List.find?_some hfind
      exact ⟨b, hmem, by simpa using hfree, rfl⟩

theorem taken_bit {b c : Nat} (hb : sb.dataStart ≤ b) (hc : c < sb.size.toNat) :
    (s.taken sb b).bit sb c = if c = b then true else s.bit sb c := by
  rw [← bit_setBit b c true]
  exact bit_congr sb (setBlock_of_ne _ (Superblock.BBLOCK_ne_data hc hb))

theorem taken_of_ne {b c : Nat} (hb : b < sb.size.toNat) (hc : sb.dataStart ≤ c) (hne : c ≠ b) :
    (s.taken sb b).blocks c = s.blocks c :=
  (setBlock_of_ne _ hne).trans (setBit_of_ne _ (Superblock.BBLOCK_ne_data hb hc).symm)

theorem taken_self (b : Nat) : (s.taken sb b).blocks b = fun _ => 0 := setBlock_self b _

theorem taken_dinode (hsb : sb.Ordered) {b i : Nat} (hb : sb.dataStart ≤ b)
    (hi : i < sb.ninodes.toNat) : (s.taken sb b).dinode sb i = s.dinode sb i :=
  dinode_congr sb ((setBlock_of_ne _ (Superblock.IBLOCK_ne_data hsb hi hb)).trans
    (setBit_of_ne _ (Superblock.IBLOCK_ne_BBLOCK hsb hi b)))

theorem taken_clean {b c : Nat} (hc : c ∉ (s.taken sb b).logged) :
    (s.taken sb b).blocks c = s.blocks c := by
  have hne : c ≠ b := fun h => hc (h ▸ List.mem_cons_self ..)
  have hne' : c ≠ sb.BBLOCK b := fun h => hc (h ▸ List.mem_cons_of_mem _ (List.mem_cons_self ..))
  exact (setBlock_of_ne _ hne).trans (setBit_of_ne _ hne')

/-- A free block is not metadata. -/
theorem Own.data_of_free (h : Own sb A s) {b : Nat} (hb : b < sb.size.toNat)
    (hfree : s.bit sb b = false) : sb.dataStart ≤ b := by
  by_contra hlt
  have hset := h.boot b (Nat.lt_of_not_le hlt) hb
  rw [hfree] at hset
  cases hset

end Xv6.Blocks
