import Xv6.Blocks.Model

set_option autoImplicit false

/-! # What is where on the disk

The inodes come before the free map, and the free map before the data. So a change of one is no change
of the others. -/

namespace Xv6.Blocks

open Xv6.Lib
open Xv6.Fs (NINODE NFILE NDEV ROOTINO DIRSIZ MAXFILE Ip)

variable (sb : Superblock)

/-- The first block after the free map; the blocks before it are metadata. -/
def Superblock.dataStart : Nat := sb.bmapstart.toNat + sb.size.toNat / BPB + 1

/-- The inode blocks end before the free map begins. -/
def Superblock.Ordered : Prop := sb.ninodes.toNat / IPB + sb.inodestart.toNat < sb.bmapstart.toNat

/-- The numbers of inodes. -/
def Superblock.Inum (i : Nat) : Prop := 0 < i ∧ i < sb.ninodes.toNat

variable {sb} {s : State}

theorem Superblock.IBLOCK_lt (h : sb.Ordered) {i : Nat} (hi : i < sb.ninodes.toNat) :
    sb.IBLOCK i < sb.bmapstart.toNat := by
  have hdiv := Nat.div_le_div_right (c := IPB) (Nat.le_of_lt hi)
  unfold Superblock.Ordered at h
  unfold Superblock.IBLOCK
  omega

theorem Superblock.bmapstart_le_BBLOCK (b : Nat) : sb.bmapstart.toNat ≤ sb.BBLOCK b :=
  Nat.le_add_left _ _

theorem Superblock.BBLOCK_lt {b : Nat} (hb : b < sb.size.toNat) : sb.BBLOCK b < sb.dataStart := by
  have hdiv := Nat.div_le_div_right (c := BPB) (Nat.le_of_lt hb)
  unfold Superblock.BBLOCK Superblock.dataStart
  omega

theorem Superblock.IBLOCK_ne_BBLOCK (h : sb.Ordered) {i : Nat} (hi : i < sb.ninodes.toNat) (b : Nat) :
    sb.IBLOCK i ≠ sb.BBLOCK b :=
  Nat.ne_of_lt (Nat.lt_of_lt_of_le (Superblock.IBLOCK_lt h hi) (Superblock.bmapstart_le_BBLOCK b))

theorem Superblock.bmapstart_lt_dataStart (sb : Superblock) : sb.bmapstart.toNat < sb.dataStart :=
  Nat.lt_succ_of_le (Nat.le_add_right _ _)

theorem Superblock.IBLOCK_ne_data (h : sb.Ordered) {i b : Nat} (hi : i < sb.ninodes.toNat)
    (hb : sb.dataStart ≤ b) : sb.IBLOCK i ≠ b := by
  have hlt := Superblock.IBLOCK_lt h hi
  have hdata := Superblock.bmapstart_lt_dataStart sb
  omega

theorem Superblock.BBLOCK_ne_data {b c : Nat} (hb : b < sb.size.toNat) (hc : sb.dataStart ≤ c) :
    sb.BBLOCK b ≠ c :=
  Nat.ne_of_lt (Nat.lt_of_lt_of_le (Superblock.BBLOCK_lt hb) hc)

/-! ## Blocks -/

@[simp] theorem setBlock_self (b : Nat) (f : Nat → Byte) : (s.setBlock b f).blocks b = f :=
  Function.update_self ..

theorem setBlock_of_ne {b c : Nat} (f : Nat → Byte) (h : c ≠ b) :
    (s.setBlock b f).blocks c = s.blocks c := Function.update_of_ne h ..

@[simp] theorem setBlock_logged (b : Nat) (f : Nat → Byte) : (s.setBlock b f).logged = s.logged := rfl
@[simp] theorem setBlock_itable (b : Nat) (f : Nat → Byte) : (s.setBlock b f).itable = s.itable := rfl
@[simp] theorem setInode_blocks (ip : Ip) (e : Inode) : (s.setInode ip e).blocks = s.blocks := rfl
@[simp] theorem setInode_logged (ip : Ip) (e : Inode) : (s.setInode ip e).logged = s.logged := rfl

@[simp] theorem setInode_self (ip : Ip) (e : Inode) : (s.setInode ip e).itable ip = e :=
  Function.update_self ..

theorem setInode_of_ne {ip jp : Ip} (e : Inode) (h : jp ≠ ip) :
    (s.setInode ip e).itable jp = s.itable jp := Function.update_of_ne h ..

theorem setInode_setInode (ip : Ip) (e e' : Inode) : (s.setInode ip e).setInode ip e' = s.setInode ip e' := by
  unfold State.setInode
  rw [Function.update_idem]

theorem setInode_dinode (ip : Ip) (e : Inode) (i : Nat) : (s.setInode ip e).dinode sb i = s.dinode sb i := rfl

theorem acquiresleep_eq (s : State) (ip : Ip) (h : (s.itable ip).locked = false) :
    acquiresleep ip s = .ok (⟨⟩, s.setInode ip { s.itable ip with locked := true }) := by
  unfold acquiresleep
  refine (bind_of_ok (a := s) (t := s) rfl).trans ?_
  rw [h, if_neg Bool.false_ne_true]
  rfl

theorem ilock_locked {ip : Ip} (href : 0 < (s.itable ip).ref) (hlocked : (s.itable ip).locked = true) :
    ilock sb ip s = .error (.acquiresleep, s) := by
  unfold ilock
  refine (bind_of_ok (a := s) (t := s) rfl).trans ?_
  rw [if_neg (Nat.not_lt.2 href)]
  refine bind_of_error _ ?_
  unfold acquiresleep
  refine (bind_of_ok (a := s) (t := s) rfl).trans ?_
  rw [hlocked, if_pos rfl]
  rfl

theorem iunlock_eq {ip : Ip} (hlocked : (s.itable ip).locked = true) (href : 0 < (s.itable ip).ref) :
    iunlock ip s = .ok (⟨⟩, s.setInode ip { s.itable ip with locked := false }) := by
  unfold iunlock
  refine (bind_of_ok (a := s) (t := s) rfl).trans ?_
  rw [if_neg]
  · rfl
  · rintro (h | h)
    · rw [hlocked] at h
      cases h
    · exact Nat.not_lt.2 href h

/-- `iput` frees no inode that somebody else holds or that has a link. -/
theorem iput_kept {ip : Ip} (h : ¬ ((s.itable ip).ref = 1 ∧ (s.itable ip).valid = true ∧ (s.itable ip).nlink = 0)) :
    iput sb ip s = .ok (⟨⟩, s.setInode ip { s.itable ip with ref := (s.itable ip).ref - 1 }) := by
  unfold iput
  refine (bind_of_ok (a := s) (t := s) rfl).trans ?_
  simp only
  rw [if_neg h]
  rfl

/-! ## The free map -/

variable (sb) in
theorem bit_congr {t : State} {b : Nat} (h : t.blocks (sb.BBLOCK b) = s.blocks (sb.BBLOCK b)) :
    t.bit sb b = s.bit sb b := by
  unfold State.bit
  rw [h]

/-- A bit is where no other bit is. -/
theorem eq_of_same_bit {b c : Nat} (hblock : sb.BBLOCK c = sb.BBLOCK b)
    (hbyte : c % BPB / 8 = b % BPB / 8) (hbit : c % 8 = b % 8) : c = b := by
  have hdiv : c / BPB = b / BPB := Nat.add_right_cancel hblock
  have hc := Nat.div_add_mod c BPB
  have hb := Nat.div_add_mod b BPB
  have hc8 : c % BPB % 8 = c % 8 := Nat.mod_mod_of_dvd c (by decide)
  have hb8 : b % BPB % 8 = b % 8 := Nat.mod_mod_of_dvd b (by decide)
  have hmod : c % BPB = b % BPB := by omega
  rw [← hc, ← hb, hdiv, hmod]

/-- One bit of a byte is set or cleared. -/
theorem getLsbD_setBit (x : Byte) (v : Bool) {i j : Nat} (hi : i < 8) (hj : j < 8) :
    (if v then x ||| 1#8 <<< i else x &&& ~~~ (1#8 <<< i)).getLsbD j =
      if j = i then v else x.getLsbD j := by
  have hone : (1#8 <<< i).getLsbD j = decide (j = i) := by
    rw [← BitVec.twoPow_eq, BitVec.getLsbD_twoPow]
    simp [hi, eq_comm]
  cases v with
  | true =>
      rw [if_pos rfl, BitVec.getLsbD_or, hone]
      by_cases h : j = i <;> simp [h]
  | false =>
      rw [if_neg Bool.false_ne_true, BitVec.getLsbD_and, BitVec.getLsbD_not, hone]
      by_cases h : j = i <;> simp [h, hj]

theorem bit_setBit (b c : Nat) (v : Bool) :
    (s.setBit sb b v).bit sb c = if c = b then v else s.bit sb c := by
  unfold State.bit State.setBit
  simp only
  by_cases hblock : sb.BBLOCK c = sb.BBLOCK b
  · rw [hblock, setBlock_self]
    by_cases hbyte : c % BPB / 8 = b % BPB / 8
    · rw [hbyte, Function.update_self, getLsbD_setBit _ _ (Nat.mod_lt _ (by decide)) (Nat.mod_lt _ (by decide))]
      by_cases hbit : c % 8 = b % 8
      · rw [if_pos hbit, if_pos (eq_of_same_bit hblock hbyte hbit)]
      · rw [if_neg hbit, if_neg fun h => hbit (by rw [h])]
    · rw [Function.update_of_ne hbyte, if_neg fun h => hbyte (by rw [h])]
  · rw [setBlock_of_ne _ hblock, if_neg fun h => hblock (by rw [h])]

theorem setBit_of_ne {b c : Nat} (v : Bool) (h : c ≠ sb.BBLOCK b) :
    (s.setBit sb b v).blocks c = s.blocks c := setBlock_of_ne _ h

/-- The free map is in the bytes of the blocks. -/
theorem setBit_rest {b c k : Nat} {v : Bool} (h : BSIZE ≤ k) : (s.setBit sb b v).blocks c k = s.blocks c k := by
  by_cases hc : c = sb.BBLOCK b
  · subst hc
    unfold State.setBit
    simp only
    rw [setBlock_self, Function.update_of_ne]
    have hlt : b % BPB < BPB := Nat.mod_lt _ (by decide)
    unfold BPB at hlt ⊢
    omega
  · rw [setBit_of_ne v hc]

@[simp] theorem setBit_logged (b : Nat) (v : Bool) : (s.setBit sb b v).logged = s.logged := rfl
@[simp] theorem setBit_itable (b : Nat) (v : Bool) : (s.setBit sb b v).itable = s.itable := rfl

/-! ## Inodes -/

theorem loadDinode_congr {f g : Nat → Byte} {o o' : Nat}
    (h : ∀ k, k < DINODE → f (o + k) = g (o' + k)) : loadDinode f o = loadDinode g o' := by
  have hhalf : ∀ k, k + 2 ≤ DINODE → half f (o + k) = half g (o' + k) := by
    intro k hk
    refine half_congr fun j hj => ?_
    rw [Nat.add_assoc, Nat.add_assoc]
    exact h _ (by omega)
  have hword : ∀ k, k + 4 ≤ DINODE → word f (o + k) = word g (o' + k) := by
    intro k hk
    refine word_congr fun j hj => ?_
    rw [Nat.add_assoc, Nat.add_assoc]
    exact h _ (by omega)
  unfold loadDinode
  rw [show half f o = half g o' from hhalf 0 (by decide), hhalf 2 (by decide), hhalf 4 (by decide),
    hhalf 6 (by decide), hword 8 (by decide)]
  congr 1
  funext k
  have hk : k.val < 13 := k.isLt
  rw [Nat.add_assoc, Nat.add_assoc]
  exact hword _ (by show 12 + 4 * k.val + 4 ≤ 64; omega)

/-- What is stored is loaded. -/
theorem loadDinode_storeDinode (f : Nat → Byte) (o : Nat) (d : Dinode) :
    loadDinode (storeDinode f o d) o = d := by
  have hbyte : ∀ k, k < DINODE → storeDinode f o d (o + k) = d.byte k := by
    intro k hk
    rw [storeDinode, if_pos ⟨Nat.le_add_right _ _, Nat.add_lt_add_left hk o⟩, Nat.add_sub_cancel_left]
  have hhalf : ∀ k (x : BitVec 16), k + 2 ≤ DINODE → (∀ j, j < 2 → d.byte (k + j) = byteOf x j) →
      half (storeDinode f o d) (o + k) = x := by
    intro k x hk h
    refine half_of_byteOf fun j hj => ?_
    rw [Nat.add_assoc, hbyte _ (by omega), h j hj]
  have hword : ∀ k (x : BitVec 32), k + 4 ≤ DINODE → (∀ j, j < 4 → d.byte (k + j) = byteOf x j) →
      word (storeDinode f o d) (o + k) = x := by
    intro k x hk h
    refine word_of_byteOf fun j hj => ?_
    rw [Nat.add_assoc, hbyte _ (by omega), h j hj]
  have haddr : ∀ k : Fin (NDIRECT + 1), word (storeDinode f o d) (o + 12 + 4 * k.val) = d.addrs k := by
    intro k
    have hk : k.val < 13 := k.isLt
    rw [Nat.add_assoc]
    refine hword _ _ (by show 12 + 4 * k.val + 4 ≤ 64; omega) fun j hj => ?_
    have hdiv : (12 + 4 * k.val + j - 12) / 4 = k.val := by omega
    have hmod : (12 + 4 * k.val + j - 12) % 4 = j := by omega
    unfold Dinode.byte
    rw [if_neg (by omega), if_neg (by omega), if_neg (by omega), if_neg (by omega), if_neg (by omega),
      dif_pos (by rw [hdiv]; exact k.isLt), hmod]
    congr 2
    exact Fin.ext hdiv
  unfold loadDinode
  rw [show half (storeDinode f o d) o = d.type from hhalf 0 d.type (by decide) fun j hj => by
      unfold Dinode.byte
      rw [Nat.zero_add, if_pos hj],
    hhalf 2 d.major (by decide) fun j hj => by
      unfold Dinode.byte
      rw [if_neg (by omega), if_pos (by omega), Nat.add_sub_cancel_left],
    hhalf 4 d.minor (by decide) fun j hj => by
      unfold Dinode.byte
      rw [if_neg (by omega), if_neg (by omega), if_pos (by omega), Nat.add_sub_cancel_left],
    hhalf 6 d.nlink (by decide) fun j hj => by
      unfold Dinode.byte
      rw [if_neg (by omega), if_neg (by omega), if_neg (by omega), if_pos (by omega),
        Nat.add_sub_cancel_left],
    hword 8 d.size (by decide) fun j hj => by
      unfold Dinode.byte
      rw [if_neg (by omega), if_neg (by omega), if_neg (by omega), if_neg (by omega),
        if_pos (by omega), Nat.add_sub_cancel_left],
    funext haddr]

theorem storeDinode_outside {f : Nat → Byte} {o k : Nat} {d : Dinode} (h : k < o ∨ o + DINODE ≤ k) :
    storeDinode f o d k = f k := by
  rw [storeDinode, if_neg (by omega)]

theorem storeDinode_storeDinode (f : Nat → Byte) (o : Nat) (d e : Dinode) :
    storeDinode (storeDinode f o d) o e = storeDinode f o e := by
  funext k
  unfold storeDinode
  by_cases hk : o ≤ k ∧ k < o + DINODE
  · rw [if_pos hk, if_pos hk]
  · rw [if_neg hk, if_neg hk, if_neg hk]

variable (sb) in
theorem dinode_congr {t : State} {i : Nat} (h : t.blocks (sb.IBLOCK i) = s.blocks (sb.IBLOCK i)) :
    t.dinode sb i = s.dinode sb i := by
  unfold State.dinode
  rw [h]

/-- Inodes in one block do not overlap. -/
theorem dinode_setDinode (i j : Nat) (d : Dinode) :
    (s.setDinode sb i d).dinode sb j = if j = i then d else s.dinode sb j := by
  by_cases hji : j = i
  · subst hji
    unfold State.dinode State.setDinode
    rw [if_pos rfl, setBlock_self, loadDinode_storeDinode]
  · rw [if_neg hji]
    by_cases hblock : sb.IBLOCK j = sb.IBLOCK i
    · have hdiv : j / IPB = i / IPB := Nat.add_right_cancel hblock
      have hj := Nat.div_add_mod j IPB
      have hi := Nat.div_add_mod i IPB
      have hmod : j % IPB ≠ i % IPB := by
        intro hm
        rw [hdiv, hm, hi] at hj
        exact hji hj.symm
      unfold State.dinode State.setDinode
      rw [hblock, setBlock_self]
      refine loadDinode_congr fun k hk => storeDinode_outside ?_
      simp only [DINODE] at hk ⊢
      omega
    · exact dinode_congr sb (setBlock_of_ne _ hblock)

theorem setDinode_setDinode (i : Nat) (d e : Dinode) :
    ((s.setDinode sb i d).setDinode sb i e).blocks = (s.setDinode sb i e).blocks := by
  unfold State.setDinode State.setBlock
  simp only
  rw [Function.update_idem, Function.update_self, storeDinode_storeDinode]

theorem setDinode_of_ne {i b : Nat} (d : Dinode) (h : b ≠ sb.IBLOCK i) :
    (s.setDinode sb i d).blocks b = s.blocks b := setBlock_of_ne _ h

@[simp] theorem setDinode_logged (i : Nat) (d : Dinode) : (s.setDinode sb i d).logged = s.logged := rfl
@[simp] theorem setDinode_itable (i : Nat) (d : Dinode) : (s.setDinode sb i d).itable = s.itable := rfl

/-! ## Indirect blocks -/

theorem word_setEntry (f : Nat → Byte) (j j' : Nat) (addr : Uint) :
    word (put f (4 * j) ((List.range 4).map (byteOf addr))) (4 * j') =
      if j' = j then addr else word f (4 * j') := by
  have hlen : ((List.range 4).map (byteOf addr)).length = 4 := rfl
  by_cases h : j' = j
  · subst h
    rw [if_pos rfl]
    refine word_of_byteOf fun k hk => ?_
    rw [put_inside (hlen ▸ hk), List.getElem_map, List.getElem_range]
  · rw [if_neg h]
    refine word_congr fun k hk => put_outside ?_
    rw [hlen]
    omega

/-! ## Transactions -/

section

variable {α : Type} {x : K α} {a : α} {t : State}

theorem transaction_of_ok (h : x s.beginOp = .ok (a, t)) :
    transaction x s = if Fits t.logged then .ok (a, t) else .error (.tooBig, t) := by
  unfold transaction
  simp only [h]
  rfl

/-- A transaction that returns has done what its code does. -/
theorem transaction_returned (h : transaction x s = .ok (a, t)) : x s.beginOp = .ok (a, t) ∧ Fits t.logged := by
  unfold transaction at h
  simp only at h
  by_cases hfits : Fits (lastState (x s.beginOp)).logged
  · rw [if_pos hfits] at h
    rw [h] at hfits
    exact ⟨h, hfits⟩
  · rw [if_neg hfits] at h
    cases h

/-- What holds of the code holds of the transaction, if it does not depend on the log. -/
theorem Triple.transaction {may : Panic × State → Prop} {P : State → Prop} {Q : α → State → Prop}
    (h : Triple may P x Q) (hP : ∀ s, P s → P s.beginOp) (hmay : ∀ s, may (.tooBig, s)) :
    Triple may P (Blocks.transaction x) Q := by
  intro s hs
  have hx := h s.beginOp (hP s hs)
  unfold Blocks.transaction
  simp only
  by_cases hfits : Fits (lastState (x s.beginOp)).logged
  · rw [if_pos hfits]
    exact hx
  · rw [if_neg hfits]
    exact hmay _

end

/-- The blocks of the free map that a transaction logs. -/
theorem card_bitmap_le {new : Finset Nat} (h : ∀ b ∈ new, ∃ c, c < sb.size.toNat ∧ b = sb.BBLOCK c) :
    new.card ≤ sb.size.toNat / BPB + 1 := by
  have hsub : new ⊆ (Finset.range (sb.size.toNat / BPB + 1)).image fun j => j + sb.bmapstart.toNat := by
    intro b hb
    obtain ⟨c, hc, rfl⟩ := h b hb
    have hdiv := Nat.div_le_div_right (c := BPB) (Nat.le_of_lt hc)
    exact Finset.mem_image.2 ⟨c / BPB, Finset.mem_range.2 (Nat.lt_succ_of_le hdiv), rfl⟩
  refine (Finset.card_le_card hsub).trans (Finset.card_image_le.trans ?_)
  rw [Finset.card_range]

/-- Blocks of the free map and `n` others are logged. -/
theorem fits_of_bitmap (sb : Superblock) {l : List Nat} {E : Finset Nat}
    (h : ∀ b ∈ l, (∃ c, c < sb.size.toNat ∧ b = sb.BBLOCK c) ∨ b ∈ E)
    (hcard : sb.size.toNat / BPB + 1 + E.card < LOGBLOCKS) : Fits l := by
  have hsub : l.tail.toFinset ⊆ (l.toFinset \ E) ∪ E := by
    intro b hb
    have hl := List.mem_toFinset.2 (List.mem_of_mem_tail (List.mem_toFinset.1 hb))
    by_cases hE : b ∈ E
    · exact Finset.mem_union_right _ hE
    · exact Finset.mem_union_left _ (Finset.mem_sdiff.2 ⟨hl, hE⟩)
  have hmap : (l.toFinset \ E).card ≤ sb.size.toNat / BPB + 1 := by
    refine card_bitmap_le fun b hb => ?_
    obtain ⟨hl, hE⟩ := Finset.mem_sdiff.1 hb
    exact (h b (List.mem_toFinset.1 hl)).resolve_right hE
  have hle := (Finset.card_le_card hsub).trans (Finset.card_union_le _ _)
  unfold Fits
  omega

end Xv6.Blocks
