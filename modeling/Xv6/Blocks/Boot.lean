import Xv6.Blocks.Sessions

set_option autoImplicit false

/-! # A new file system

`mkfs` is not in the repository. Here is what it leaves by the disk layout of `kernel/fs.h`, up to the
program files: metadata, and a root directory with the entries `.` and `..`. The first process has the
root as its directory, and has not locked it yet. -/

namespace Xv6.Blocks

open Xv6.Lib
open Xv6.Fs (NINODE NFILE NDEV ROOTINO DIRSIZ MAXFILE Ip)

def rootEntries : List Byte := dirent 1 dot ++ dirent 1 dotdot

variable (sb : Superblock)

def rootInode : Dinode := { dirInode (BitVec.ofNat 32 sb.dataStart) with size := 32 }

/-- No file is open, and the root directory is all that is in the inode table. -/
def bootTables (blocks : Nat → Nat → Byte) : State where
  blocks := blocks
  logged := []
  itable := fun ip => { emptyFile with
    inum := if ip = dirEntry then ROOTINO else 0
    ref := if ip = dirEntry then 1 else 0
    locked := false
    valid := false }
  ftable := fun _ =>
    { type := .none, ref := 0, readable := false, writable := false, ip := dirEntry, off := 0, major := 0 }
  ofile := fun _ => none
  cwd := dirEntry

/-- The bits of the blocks `l` are set. -/
def State.setBits (s : State) (l : List Nat) : State := l.foldl (fun s b => s.setBit sb b true) s

/-- The metadata and the block of the root directory are not free. -/
def bootState : State :=
  let s := bootTables fun b k => if b = sb.dataStart then rootEntries.getD k 0 else 0
  (s.setBits sb (List.range (sb.dataStart + 1))).setDinode sb ROOTINO (rootInode sb)

/-- The root directory, which is the current directory, and room for a file. -/
structure Superblock.Roomy : Prop where
  ordered : sb.Ordered
  root : sb.Inum ROOTINO
  data : sb.dataStart < sb.size.toNat

variable {sb} {s : State} {i : Nat}

/-! ## The free map -/

theorem bit_setBits (l : List Nat) (s : State) (c : Nat) :
    (s.setBits sb l).bit sb c = if c ∈ l then true else s.bit sb c := by
  unfold State.setBits
  induction l generalizing s with
  | nil => simp
  | cons b l ih =>
      rw [List.foldl_cons, ih, bit_setBit]
      by_cases hb : c = b
      · simp [hb]
      · simp [hb]

theorem setBits_of_ne {l : List Nat} {c : Nat} (h : ∀ b ∈ l, c ≠ sb.BBLOCK b) (s : State) :
    (s.setBits sb l).blocks c = s.blocks c := by
  unfold State.setBits
  induction l generalizing s with
  | nil => rfl
  | cons b l ih =>
      rw [List.foldl_cons, ih fun b' hb' => h b' (List.mem_cons_of_mem _ hb'),
        setBit_of_ne _ (h b List.mem_cons_self)]

theorem setBits_tables (sb : Superblock) (l : List Nat) (s : State) :
    ∃ blocks, s.setBits sb l = { s with blocks := blocks } := by
  unfold State.setBits
  induction l generalizing s with
  | nil => exact ⟨s.blocks, rfl⟩
  | cons b l ih =>
      obtain ⟨blocks, h⟩ := ih (s.setBit sb b true)
      exact ⟨blocks, h⟩

theorem bootState_tables (sb : Superblock) : ∃ blocks, bootState sb = bootTables blocks := by
  obtain ⟨blocks, h⟩ := setBits_tables sb (List.range (sb.dataStart + 1))
    (bootTables fun b k => if b = sb.dataStart then rootEntries.getD k 0 else 0)
  unfold bootState
  simp only
  rw [h]
  exact ⟨_, rfl⟩

/-! ## The blocks -/

theorem bootState_bit (h : sb.Roomy) {b : Nat} (hb : b < sb.size.toNat) :
    (bootState sb).bit sb b = decide (b ≤ sb.dataStart) := by
  have hinode : sb.BBLOCK b ≠ sb.IBLOCK ROOTINO := (Superblock.IBLOCK_ne_BBLOCK h.ordered h.root.2 b).symm
  unfold bootState
  simp only
  rw [bit_congr sb (setDinode_of_ne _ hinode), bit_setBits]
  unfold State.bit bootTables
  simp only
  rw [if_neg (Superblock.BBLOCK_ne_data hb (Nat.le_refl _))]
  by_cases hle : b ≤ sb.dataStart
  · rw [if_pos (List.mem_range.2 (Nat.lt_succ_of_le hle)), decide_eq_true hle]
  · rw [if_neg fun hb => hle (Nat.le_of_lt_succ (List.mem_range.1 hb)), decide_eq_false hle]
    exact BitVec.getLsbD_zero

theorem bootState_dinode (h : sb.Roomy) (hi : sb.Inum i) (hne : i ≠ 1) :
    ((bootState sb).dinode sb i).type = 0 := by
  have hmap : ∀ b ∈ List.range (sb.dataStart + 1), sb.IBLOCK i ≠ sb.BBLOCK b :=
    fun b _ => Superblock.IBLOCK_ne_BBLOCK h.ordered hi.2 b
  unfold bootState
  simp only
  rw [dinode_setDinode, if_neg (show i ≠ ROOTINO from hne)]
  unfold State.dinode
  rw [setBits_of_ne hmap]
  have hzero : (bootTables fun b k => if b = sb.dataStart then rootEntries.getD k 0 else 0).blocks (sb.IBLOCK i) =
      fun _ => 0 := funext fun _ => if_neg (Superblock.IBLOCK_ne_data h.ordered hi.2 (Nat.le_refl _))
  rw [hzero]
  exact (by decide : (0#8 ++ 0#8 : BitVec 16) = 0)

theorem bootState_root : (bootState sb).dinode sb 1 = rootInode sb := by
  unfold bootState
  simp only
  exact (dinode_setDinode ROOTINO 1 _).trans (if_pos rfl)

theorem bootState_slots (h : sb.Roomy) (i k : Nat) : slotAddr (bootState sb).blocks ((bootState sb).addrs sb i) k =
    if i = 1 ∧ k = 0 then BitVec.ofNat 32 sb.dataStart else 0 := by
  refine slotAddr_one h.root ?_ (fun j hj hne ht => absurd (bootState_dinode h hj hne) ht) i k
  rw [bootState_root]
  exact ⟨(by decide : T_DIR ≠ 0), rfl⟩

theorem Superblock.Roomy.toNat_data (h : sb.Roomy) : (BitVec.ofNat 32 sb.dataStart).toNat = sb.dataStart := by
  rw [BitVec.toNat_ofNat, Nat.mod_eq_of_lt (h.data.trans sb.size.isLt)]

theorem bootState_content (h : sb.Roomy) : (bootState sb).content sb 1 = rootEntries := by
  have hlen : rootEntries.length = 32 := by
    rw [rootEntries, List.length_append, length_dirent, length_dirent]
    rfl
  have hblock : (bootState sb).blocks sb.dataStart = fun k => rootEntries.getD k 0 := by
    have hmap : ∀ b ∈ List.range (sb.dataStart + 1), sb.dataStart ≠ sb.BBLOCK b := by
      intro b hb
      have hlt := List.mem_range.1 hb
      have hdata := h.data
      exact (Superblock.BBLOCK_ne_data (by omega) (Nat.le_refl _)).symm
    unfold bootState
    simp only
    rw [setDinode_of_ne _ (Superblock.IBLOCK_ne_data h.ordered h.root.2 (Nat.le_refl _)).symm, setBits_of_ne hmap]
    unfold bootTables
    simp
  unfold State.content
  rw [bootState_root, ← map_getD_range rootEntries, hlen]
  refine List.map_congr_left fun p hp => ?_
  have hp : p < 32 := List.mem_range.1 hp
  have hlt : p < BSIZE := lt_trans hp (by decide)
  have hslot : slotAddr (bootState sb).blocks (rootInode sb).addrs (fileSlot 0) = BitVec.ofNat 32 sb.dataStart :=
    dirDisk_slot _ 0
  rw [Nat.div_eq_of_lt hlt, Nat.mod_eq_of_lt hlt, hslot, h.toNat_data, hblock]

/-! ## The state is well formed -/

theorem bootState_wf (h : sb.Roomy) : (bootState sb).Wf sb := by
  obtain ⟨blocks, htables⟩ := bootState_tables sb
  have hvalid : ∀ ip, ((bootState sb).itable ip).valid = false := fun ip => by rw [htables]; rfl
  constructor
  case own =>
    exact Own.of_one (bootState_slots h) h.toNat_data h.data fun b hb => bootState_bit h hb
  case inum =>
    intro ip _ hv
    rw [hvalid] at hv
    cases hv
  case uniq =>
    have hroot : ∀ ip, 0 < ((bootState sb).itable ip).ref → ip = dirEntry := by
      intro ip href
      rw [htables] at href
      by_contra hne
      exact absurd (if_neg hne) (Nat.pos_iff_ne_zero.1 href)
    intro ip jp hip hjp _
    rw [hroot ip hip, hroot jp hjp]
  case synced =>
    intro ip _ hv
    rw [hvalid] at hv
    cases hv
  case whole =>
    intro i hi ht
    by_cases hone : i = 1
    · subst hone
      rw [bootState_root]
      refine ⟨(by decide : 32 ≤ MAXFILE * BSIZE), fun p hp => ?_⟩
      have hp : p < 32 := hp
      have hslot : slotAddr (bootState sb).blocks (rootInode sb).addrs (fileSlot 0) = BitVec.ofNat 32 sb.dataStart :=
        dirDisk_slot _ 0
      rw [Nat.div_eq_of_lt (lt_trans hp (by decide)), hslot]
      intro h0
      have hdata := h.toNat_data
      rw [h0] at hdata
      have hpos := sb.bmapstart_lt_dataStart
      have hzero : 0 = sb.dataStart := hdata
      omega
    · exact absurd (bootState_dinode h hi hone) ht

theorem bootState_settled (h : sb.Roomy) : Settled sb [(bootState sb).cwd] (bootState sb) where
  wf := bootState_wf h
  dirs := by
    intro i hi ht
    have hone : i = 1 := by
      by_contra hne
      rw [bootState_dinode h hi hne] at ht
      exact absurd ht (by decide)
    subst hone
    rw [bootState_content h]
    refine ⟨by decide, fun j hj _ => ?_⟩
    have hname : ∀ j, j < 2 → deInum (entryAt rootEntries j) = 1 := by decide
    rw [hname j hj]
    exact h.root
  table := by
    obtain ⟨blocks, htables⟩ := bootState_tables sb
    rw [htables]
    exact .of_one (fun _ => rfl) (fun _ => rfl) fun _ => rfl
  disk := by
    obtain ⟨blocks, htables⟩ := bootState_tables sb
    rw [htables]
    intro g hg
    have hg : g ∈ (bootTables blocks).lasting [dirEntry] := hg
    rw [lasting_of_one fun _ => rfl, List.mem_singleton] at hg
    subst hg
    exact ⟨h.root, fun hf => absurd hf Bool.false_ne_true⟩
  closed := by
    obtain ⟨blocks, htables⟩ := bootState_tables sb
    rw [htables]
    exact fun _ _ => rfl

end Xv6.Blocks
