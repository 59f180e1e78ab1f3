import Mathlib.Logic.Relation
import Xv6.Blocks.Trunc

set_option autoImplicit false

/-! # Orphans at boot

`ireclaim` frees the inodes that have a type but no link. Each of them is a transaction of its own, which
fits in the log unless the blocks of the inode are all over the disk. What it does to the disk is a function
of the disk: after a crash the next boot goes on where the last one stopped. -/

namespace Xv6.Blocks

open Xv6.Lib
open Xv6.Fs (NINODE NFILE NDEV ROOTINO DIRSIZ MAXFILE Ip)

/-- Inode `i` is allocated and has no links. -/
def Orphan (sb : Superblock) (s : State) (i : Nat) : Prop :=
  sb.Inum i ∧ (s.dinode sb i).type ≠ 0 ∧ (s.dinode sb i).nlink = 0

/-- The inode table at boot: an entry is free, nobody holds a lock, and the inodes that are held are
    not orphans. -/
structure Booting (sb : Superblock) (s : State) : Prop where
  free : ∃ ip, (s.itable ip).ref = 0
  unlocked : ∀ ip, (s.itable ip).ref = 0 → (s.itable ip).locked = false
  held : ∀ ip, 0 < (s.itable ip).ref → ¬ Orphan sb s (s.itable ip).inum

/-- The blocks of the free map that the blocks of inode `i` are in. -/
def State.maps (sb : Superblock) (s : State) (i : Nat) : Finset Nat :=
  ((Finset.range SLOTS).filter fun k => slotAddr s.blocks (s.dinode sb i).addrs k ≠ 0).image fun k =>
    sb.BBLOCK (slotAddr s.blocks (s.dinode sb i).addrs k).toNat

/-- The log has room for what is written when an orphan is freed: these blocks and that of the inode. -/
def Fitting (sb : Superblock) (s : State) : Prop := ∀ i, Orphan sb s i → (s.maps sb i).card + 1 < LOGBLOCKS

/-- What is left of an inode that is freed. -/
def Dinode.freed (d : Dinode) : Dinode := { d with type := 0, size := 0, addrs := fun _ => 0 }

/-- From `s` to `t` inode `i` has been freed. -/
structure Reclaimed (sb : Superblock) (i : Nat) (s t : State) : Prop where
  refs : ∀ ip, (t.itable ip).ref = (s.itable ip).ref
  table : ∀ ip, 0 < (s.itable ip).ref → t.itable ip = s.itable ip
  unlocked : ∀ ip, (s.itable ip).locked = false → (t.itable ip).locked = false
  inode : t.blocks (sb.IBLOCK i) =
    storeDinode (s.blocks (sb.IBLOCK i)) (i % IPB * DINODE) (s.dinode sb i).freed
  data : ∀ b, b ≠ sb.IBLOCK i → sb.dataStart ≤ b ∨ b < sb.bmapstart.toNat → t.blocks b = s.blocks b
  bits : ∀ b, t.bit sb b = true ↔ s.bit sb b = true ∧
    ∀ k, slotAddr s.blocks (s.dinode sb i).addrs k ≠ 0 → (slotAddr s.blocks (s.dinode sb i).addrs k).toNat ≠ b
  rest : ∀ b k, sb.bmapstart.toNat ≤ b → BSIZE ≤ k → t.blocks b k = s.blocks b k

variable {sb : Superblock} {s s' t t' u : State} {A : Nat → Addrs} {ip : Ip} {i : Nat}

instance (sb : Superblock) (s : State) (i : Nat) : Decidable (Orphan sb s i) :=
  inferInstanceAs (Decidable (_ ∧ _ ∧ _))

/-! ## One orphan -/

/-- The entry of the inode table after `iget`, `ilock` and `iunlock`. -/
def opened (d : Dinode) (inum : Nat) : Inode where
  toDinode := d
  inum := inum
  ref := 1
  locked := false
  valid := true

theorem find_free (h : ∃ ip, (s.itable ip).ref = 0) :
    ∃ ip, slots.find? (fun ip => decide ((s.itable ip).ref = 0)) = some ip ∧ (s.itable ip).ref = 0 := by
  obtain ⟨ip, hip⟩ := h
  cases hfind : slots.find? fun ip => decide ((s.itable ip).ref = 0) with
  | none =>
      have hall := List.find?_eq_none.1 hfind ip (by unfold slots; exact List.mem_finRange ip)
      exact absurd (decide_eq_true hip) hall
  | some jp =>
      have hjp := List.find?_some hfind
      exact ⟨jp, rfl, of_decide_eq_true hjp⟩

/-- The inode is not in the table, and gets a free entry. -/
theorem iget_free (hnone : ∀ ip, 0 < (s.itable ip).ref → (s.itable ip).inum ≠ i)
    (h : ∃ ip, (s.itable ip).ref = 0) : ∃ ip, (s.itable ip).ref = 0 ∧
      iget i s = .ok (ip, s.setInode ip { s.itable ip with
        inum := i
        ref := 1
        valid := false }) := by
  obtain ⟨ip, hfind, hip⟩ := find_free h
  refine ⟨ip, hip, ?_⟩
  have hfirst : slots.find? (fun ip => decide (0 < (s.itable ip).ref ∧ (s.itable ip).inum = i)) = none := by
    refine List.find?_eq_none.2 fun jp _ hj => ?_
    obtain ⟨hr, hn⟩ := of_decide_eq_true hj
    exact hnone jp hr hn
  unfold iget
  refine (bind_of_ok (a := s) (t := s) rfl).trans ?_
  rw [hfirst]
  simp only
  rw [hfind]
  rfl

theorem setDinode_blocks (i : Nat) (d : Dinode) (h : s.blocks = t.blocks) :
    (s.setDinode sb i d).blocks = (t.setDinode sb i d).blocks := by
  unfold State.setDinode State.setBlock
  simp only
  rw [h]

/-- `ilock` and `iunlock` read an inode that has just been looked up. -/
theorem open_read (s : State) (ip : Ip) (e : Inode) (href : 0 < e.ref) (hlocked : e.locked = false) (hvalid : e.valid = false)
    (htype : (s.dinode sb e.inum).type ≠ 0) :
    (do
      ilock sb ip
      iunlock ip : K PUnit) (s.setInode ip e) = .ok (⟨⟩, s.setInode ip { e with
        toDinode := s.dinode sb e.inum
        locked := false
        valid := true }) := by
  have hlock : ilock sb ip (s.setInode ip e) = .ok (⟨⟩, s.setInode ip { e with
      toDinode := s.dinode sb e.inum
      locked := true
      valid := true }) := by
    unfold ilock
    refine (bind_of_ok (a := s.setInode ip e) (t := s.setInode ip e) rfl).trans ?_
    rw [setInode_self, if_neg (Nat.not_lt.2 href)]
    have hacq := acquiresleep_eq (s.setInode ip e) ip (by rw [setInode_self]; exact hlocked)
    rw [setInode_self, setInode_setInode] at hacq
    rw [bind_of_ok hacq]
    refine (bind_of_ok (a := s.setInode ip _) (t := s.setInode ip _) rfl).trans ?_
    rw [setInode_self, hvalid, if_neg Bool.false_ne_true]
    simp only
    rw [setInode_setInode, setInode_dinode, if_neg htype]
    rfl
  rw [bind_of_ok hlock]
  unfold iunlock
  refine (bind_of_ok (a := s.setInode ip _) (t := s.setInode ip _) rfl).trans ?_
  rw [setInode_self, if_neg]
  · unfold releasesleep
    show Except.ok (PUnit.unit, (s.setInode ip _).setInode ip _) = _
    rw [setInode_self, setInode_setInode]
  · rintro (h | h)
    · exact Bool.false_ne_true h.symm
    · exact Nat.not_lt.2 href h

/-- The transaction of a round is what its `iput` does. -/
theorem open_put {e : Inode} (href : 0 < e.ref) (hlocked : e.locked = false) (hvalid : e.valid = false)
    (htype : (s.dinode sb e.inum).type ≠ 0) (hput : iput sb ip (s.beginOp.setInode ip { e with
      toDinode := s.dinode sb e.inum
      locked := false
      valid := true }) = .ok (⟨⟩, t)) :
    transaction (do
      ilock sb ip
      iunlock ip
      iput sb ip) (s.setInode ip e) = if Fits t.logged then .ok (⟨⟩, t) else .error (.tooBig, t) := by
  have hread : (do
      ilock sb ip
      iunlock ip : K PUnit) (s.beginOp.setInode ip e) = _ := open_read s.beginOp ip e href hlocked hvalid htype
  obtain ⟨_, v, hlock, hunlock⟩ := bind_returned hread
  have hrun : (do
      ilock sb ip
      iunlock ip
      iput sb ip : K PUnit) (s.beginOp.setInode ip e) = .ok (⟨⟩, t) :=
    (bind_of_ok hlock).trans ((bind_of_ok hunlock).trans hput)
  exact transaction_of_ok (s := s.setInode ip e) hrun

/-- The entry of the inode table after the last `iput`. -/
def closed (d : Dinode) (inum : Nat) : Inode where
  toDinode := d.freed
  inum := inum
  ref := 0
  locked := false
  valid := false

/-- `itrunc`, and then the type of the inode is set to 0, in memory and on disk. -/
theorem iput_opened (ip : Ip) (hs : Owned sb (s.addrs sb) s) (ho : Orphan sb s i) :
    ∃ t u, iput sb ip (s.setInode ip (opened (s.dinode sb i) i)) = .ok (⟨⟩, t) ∧
      Emptied sb (s.addrs sb) ip (s.setInode ip { opened (s.dinode sb i) i with locked := true }) u ∧
      t.itable = Function.update s.itable ip (closed (s.dinode sb i) i) ∧
      t.logged = sb.IBLOCK i :: sb.IBLOCK i :: u.logged ∧
      t.blocks = ((u.setDinode sb i { s.dinode sb i with
        size := 0
        addrs := fun _ => 0 }).setDinode sb i (s.dinode sb i).freed).blocks := by
  obtain ⟨s₀, hs₀⟩ : ∃ s₀, s.setInode ip (opened (s.dinode sb i) i) = s₀ := ⟨_, rfl⟩
  have hself : s₀.itable ip = opened (s.dinode sb i) i := by rw [← hs₀, setInode_self]
  have hown : Owned sb (s₀.withIp ip (s.addrs sb)) s₀ := by
    have haddrs : s₀.withIp ip (s.addrs sb) = s.addrs sb := by
      unfold State.withIp
      rw [hself]
      show Function.update (s.addrs sb) i (s.dinode sb i).addrs = _
      rw [← addrs_of_alloc ho.1 ho.2.1, Function.update_eq_self]
    rw [haddrs, ← hs₀]
    exact hs.congr (fun _ _ => rfl) fun _ _ => rfl
  obtain ⟨u, v, he, hv, hrun⟩ := iput_frees (by rw [hself]; rfl) (by rw [hself]; rfl) (by rw [hself]; exact ho.2.2)
    (by rw [hself]; rfl) hown
  rw [hself, ← hs₀, setInode_setInode] at he
  have hui : u.itable ip = { opened (s.dinode sb i) i with
      locked := true
      size := 0
      addrs := fun _ => 0 } := by
    rw [he.table, Function.update_self, setInode_self]
  have hut : u.itable = Function.update s.itable ip (u.itable ip) := by
    rw [hui, he.table, setInode_self]
    exact Function.update_idem ..
  have hvi : v.itable ip = { u.itable ip with type := 0 } := by rw [hv, setInode_self]
  refine ⟨_, u, hs₀ ▸ hrun, he, ?_, ?_, ?_⟩
  · show Function.update v.itable ip _ = _
    rw [hvi, hui, hv]
    show Function.update (Function.update u.itable ip _) ip _ = _
    rw [Function.update_idem, hut, Function.update_idem]
    rfl
  · show sb.IBLOCK (v.itable ip).inum :: v.logged = _
    rw [hvi, hv]
    show sb.IBLOCK (u.itable ip).inum :: sb.IBLOCK (u.itable ip).inum :: u.logged = _
    rw [hui]
    rfl
  · show (v.setDinode sb (v.itable ip).inum (v.itable ip).toDinode).blocks = _
    rw [hvi, hui]
    refine setDinode_blocks _ _ ?_
    rw [hv]
    show (u.setDinode sb (u.itable ip).inum (u.itable ip).toDinode).blocks = _
    rw [hui]
    rfl

theorem Orphan.lt (h : Orphan sb s i) : i < sb.ninodes.toNat := h.1.2

theorem lt_slots {k : Nat} {a : Addrs} (hk : slotAddr s.blocks a k ≠ 0) : k < SLOTS := by
  by_contra hlt
  refine hk ?_
  rw [slotAddr, dif_neg (by unfold SLOTS at hlt; omega), if_neg fun hc => hlt hc.1]

theorem mem_maps {b : Nat} : b ∈ s.maps sb i ↔ ∃ k, slotAddr s.blocks (s.dinode sb i).addrs k ≠ 0 ∧
    b = sb.BBLOCK (slotAddr s.blocks (s.dinode sb i).addrs k).toNat := by
  unfold State.maps
  rw [Finset.mem_image]
  constructor
  · rintro ⟨k, hk, rfl⟩
    exact ⟨k, (Finset.mem_filter.1 hk).2, rfl⟩
  · rintro ⟨k, hk, rfl⟩
    exact ⟨k, Finset.mem_filter.2 ⟨Finset.mem_range.2 (lt_slots hk), hk⟩, rfl⟩

/-- The last `iput` of an orphan logs its blocks of the free map, and that of the inode twice. -/
theorem Emptied.fits_iff {s₀ : State} (hsb : sb.Ordered) (hi : sb.Inum i) (he : Emptied sb A ip s₀ u)
    (hslot : ∀ k, s₀.slot ip k = slotAddr s.blocks (s.dinode sb i).addrs k) (hlog : s₀.logged = []) :
    Fits (sb.IBLOCK i :: sb.IBLOCK i :: u.logged) ↔ (s.maps sb i).card + 1 < LOGBLOCKS := by
  obtain ⟨new, hnew, hb⟩ := he.logged
  have hmaps : new.toFinset = s.maps sb i := by
    ext b
    rw [List.mem_toFinset, hb, mem_maps]
    simp only [hslot]
  have hout : sb.IBLOCK i ∉ s.maps sb i := by
    intro hmem
    obtain ⟨k, -, he⟩ := mem_maps.1 hmem
    exact Superblock.IBLOCK_ne_BBLOCK hsb hi.2 _ he
  unfold Fits
  rw [hnew, hlog, List.append_nil, List.tail_cons, List.toFinset_cons, hmaps, Finset.card_insert_of_notMem hout]

theorem owned_congr (h : s'.blocks = s.blocks) (hs : Owned sb (s.addrs sb) s) : Owned sb (s'.addrs sb) s' := by
  have haddrs : s'.addrs sb = s.addrs sb := by
    funext j
    unfold State.addrs
    rw [dinode_congr sb (congrFun h (sb.IBLOCK j))]
  rw [haddrs]
  exact hs.congr (fun _ _ => by rw [h]) fun b _ => bit_congr sb (by rw [h])

/-- A round for an orphan. -/
theorem reclaimInode_orphan (hsb : sb.Ordered) (hs : Owned sb (s.addrs sb) s) (hb : Booting sb s)
    (ho : Orphan sb s i) : ∃ t, Reclaimed sb i s t ∧ reclaimInode sb i s =
      if (s.maps sb i).card + 1 < LOGBLOCKS then .ok (⟨⟩, t) else .error (.tooBig, t) := by
  obtain ⟨ip, hip, hget⟩ := iget_free (s := s) (i := i) (fun ip hr hn => hb.held ip hr (hn ▸ ho)) hb.free
  obtain ⟨t, u, hput, he, htable, hlog, hblocks⟩ :=
    iput_opened (s := s.beginOp) ip (owned_congr (s := s) rfl hs) ho
  have he : Emptied sb (s.addrs sb) ip (s.beginOp.setInode ip { opened (s.dinode sb i) i with locked := true }) u := he
  have htable : t.itable = Function.update s.itable ip (closed (s.dinode sb i) i) := htable
  have hslot : ∀ k, (s.beginOp.setInode ip { opened (s.dinode sb i) i with locked := true }).slot ip k =
      slotAddr s.blocks (s.dinode sb i).addrs k := by
    intro k
    unfold State.slot
    rw [setInode_self]
    rfl
  have hblock : ∀ b, b ≠ sb.IBLOCK i → t.blocks b = u.blocks b := by
    intro b hne
    rw [hblocks, setDinode_of_ne _ hne, setDinode_of_ne _ hne]
  have hlow : ∀ b, sb.bmapstart.toNat ≤ b → b ≠ sb.IBLOCK i := by
    rintro b hle rfl
    exact Nat.lt_irrefl _ (Nat.lt_of_lt_of_le (Superblock.IBLOCK_lt hsb ho.lt) hle)
  refine ⟨t, ?_, ?_⟩
  · refine ⟨fun jp => ?_, fun jp hr => ?_, fun jp hl => ?_, ?_, fun b hne hb => ?_, fun b => ?_,
      fun b k hle hk => ?_⟩
    · by_cases hj : jp = ip
      · rw [hj, htable, Function.update_self, hip]
        rfl
      · rw [htable, Function.update_of_ne hj]
    · rw [htable, Function.update_of_ne]
      rintro rfl
      rw [hip] at hr
      exact Nat.lt_irrefl 0 hr
    · by_cases hj : jp = ip
      · rw [hj, htable, Function.update_self]
        rfl
      · rwa [htable, Function.update_of_ne hj]
    · rw [hblocks]
      unfold State.setDinode
      rw [setBlock_self, setBlock_self, storeDinode_storeDinode,
        he.data _ (.inr (Superblock.IBLOCK_lt hsb ho.lt))]
      rfl
    · rw [hblock b hne, he.data b hb]
      rfl
    · have hbits := he.bits b
      simp only [hslot] at hbits
      rw [bit_congr sb (hblock _ (hlow _ (Superblock.bmapstart_le_BBLOCK b))), hbits]
      rfl
    · rw [hblock b (hlow b hle), he.rest b k hk]
      rfl
  · have hrun := open_put (e := { s.itable ip with
      inum := i
      ref := 1
      valid := false }) Nat.one_pos (hb.unlocked ip hip) rfl ho.2.1 hput
    simp only [hlog, he.fits_iff hsb ho.1 hslot rfl] at hrun
    unfold reclaimInode
    refine (bind_of_ok (a := s) (t := s) rfl).trans ?_
    rw [if_pos ho.2]
    exact (bind_of_ok hget).trans hrun

/-- A round that has returned. -/
theorem reclaimInode_returned (hsb : sb.Ordered) (hs : Owned sb (s.addrs sb) s) (hb : Booting sb s)
    (ho : Orphan sb s i) (hok : reclaimInode sb i s = .ok (⟨⟩, t)) :
    Reclaimed sb i s t ∧ (s.maps sb i).card + 1 < LOGBLOCKS := by
  obtain ⟨u, hu, hrun⟩ := reclaimInode_orphan hsb hs hb ho
  rw [hrun] at hok
  by_cases hfit : (s.maps sb i).card + 1 < LOGBLOCKS
  · rw [if_pos hfit] at hok
    cases hok
    exact ⟨hu, hfit⟩
  · rw [if_neg hfit] at hok
    cases hok

theorem Reclaimed.dinode (h : Reclaimed sb i s t) (hsb : sb.Ordered) {j : Nat} (hj : j < sb.ninodes.toNat) :
    t.dinode sb j = if j = i then (s.dinode sb i).freed else s.dinode sb j := by
  rw [← dinode_setDinode]
  refine dinode_congr sb ?_
  by_cases hne : sb.IBLOCK j = sb.IBLOCK i
  · unfold State.setDinode
    rw [hne, h.inode, setBlock_self]
  · rw [h.data _ hne (.inr (Superblock.IBLOCK_lt hsb hj)), setDinode_of_ne _ hne]

/-- The byte of a free map is made of its bits. -/
theorem byte_ext {b k : Nat} (hb : sb.bmapstart.toNat ≤ b) (hk : k < BSIZE)
    (h : ∀ c, s.bit sb c = t.bit sb c) : s.blocks b k = t.blocks b k := by
  refine BitVec.eq_of_getLsbD_eq fun j hj => ?_
  have hlt : k * 8 + j < BPB := by
    unfold BPB
    omega
  have hpos : 0 < BPB := by decide
  have hmod : ((b - sb.bmapstart.toNat) * BPB + (k * 8 + j)) % BPB = k * 8 + j := by
    rw [Nat.mul_comm, Nat.mul_add_mod, Nat.mod_eq_of_lt hlt]
  have hblock : sb.BBLOCK ((b - sb.bmapstart.toNat) * BPB + (k * 8 + j)) = b := by
    unfold Superblock.BBLOCK
    rw [Nat.mul_comm, Nat.mul_add_div hpos, Nat.div_eq_of_lt hlt]
    omega
  have hbit : ((b - sb.bmapstart.toNat) * BPB + (k * 8 + j)) % 8 = j := by
    have h8 : ((b - sb.bmapstart.toNat) * BPB + (k * 8 + j)) % BPB % 8 =
        ((b - sb.bmapstart.toNat) * BPB + (k * 8 + j)) % 8 := Nat.mod_mod_of_dvd _ (by decide)
    rw [← h8, hmod]
    omega
  have hc := h ((b - sb.bmapstart.toNat) * BPB + (k * 8 + j))
  unfold State.bit at hc
  rw [hblock, hmod, hbit, show (k * 8 + j) / 8 = k by omega] at hc
  exact hc

/-- What is on the disk after the round depends on the disk before only. -/
theorem Reclaimed.blocks_eq (h : Reclaimed sb i s t) (h' : Reclaimed sb i s' t')
    (hs : s.blocks = s'.blocks) : t.blocks = t'.blocks := by
  have hdin : s.dinode sb i = s'.dinode sb i := dinode_congr sb (by rw [hs])
  funext b
  by_cases hb : b = sb.IBLOCK i
  · rw [hb, h.inode, h'.inode, hs, hdin]
  · by_cases hlow : b < sb.bmapstart.toNat
    · rw [h.data b hb (.inr hlow), h'.data b hb (.inr hlow), hs]
    · funext k
      by_cases hk : k < BSIZE
      · refine byte_ext (Nat.le_of_not_lt hlow) hk fun c => Bool.eq_iff_iff.2 ?_
        have hbit : s.bit sb c = s'.bit sb c := bit_congr sb (by rw [hs])
        rw [h.bits, h'.bits, hbit, hs, hdin]
      · rw [h.rest b k (Nat.le_of_not_lt hlow) (Nat.le_of_not_lt hk),
          h'.rest b k (Nat.le_of_not_lt hlow) (Nat.le_of_not_lt hk), hs]

/-! ## All of them -/

/-- From `s` to `t` the orphans in `P` have been freed. -/
structure Swept (sb : Superblock) (P : Nat → Prop) (s t : State) : Prop where
  refs : ∀ ip, (t.itable ip).ref = (s.itable ip).ref
  table : ∀ ip, 0 < (s.itable ip).ref → t.itable ip = s.itable ip
  unlocked : ∀ ip, (s.itable ip).locked = false → (t.itable ip).locked = false
  freed : ∀ i, P i → Orphan sb s i → t.dinode sb i = (s.dinode sb i).freed
  kept : ∀ i, sb.Inum i → ¬ (P i ∧ Orphan sb s i) → t.dinode sb i = s.dinode sb i
  data : ∀ b, sb.dataStart ≤ b → t.blocks b = s.blocks b
  bits : ∀ b, t.bit sb b = true ↔ s.bit sb b = true ∧ ¬ ∃ i k, P i ∧ Orphan sb s i ∧
    slotAddr s.blocks (s.dinode sb i).addrs k ≠ 0 ∧ (slotAddr s.blocks (s.dinode sb i).addrs k).toNat = b
  own : Owned sb (t.addrs sb) t

variable {P Q : Nat → Prop}

theorem Swept.refl (hs : Owned sb (s.addrs sb) s) (hP : ∀ i, P i → ¬ Orphan sb s i) : Swept sb P s s where
  refs := fun _ => rfl
  table := fun _ _ => rfl
  unlocked := fun _ h => h
  freed := fun i hi ho => absurd ho (hP i hi)
  kept := fun _ _ _ => rfl
  data := fun _ _ => rfl
  bits := by
    intro b
    refine ⟨fun h => ⟨h, ?_⟩, fun h => h.1⟩
    rintro ⟨i, k, hi, ho, -⟩
    exact hP i hi ho
  own := hs

theorem Swept.orphan_iff (h : Swept sb P s t) : Orphan sb t i ↔ Orphan sb s i ∧ ¬ P i := by
  by_cases hi : sb.Inum i
  · by_cases hP : P i ∧ Orphan sb s i
    · refine iff_of_false (fun ho => ho.2.1 ?_) fun ho => ho.2 hP.1
      rw [h.freed i hP.1 hP.2]
      rfl
    · unfold Orphan
      rw [h.kept i hi hP]
      exact ⟨fun ho => ⟨ho, fun hp => hP ⟨hp, ho⟩⟩, fun ho => ho.1⟩
  · exact iff_of_false (fun ho => hi ho.1) fun ho => hi ho.1.1

theorem Swept.booting (h : Swept sb P s t) (hb : Booting sb s) : Booting sb t := by
  refine ⟨?_, fun ip hr => ?_, fun ip hr ho => ?_⟩
  · obtain ⟨ip, hip⟩ := hb.free
    exact ⟨ip, (h.refs ip).trans hip⟩
  · exact h.unlocked ip (hb.unlocked ip ((h.refs ip).symm.trans hr))
  · rw [h.refs] at hr
    rw [h.table ip hr] at ho
    exact hb.held ip hr (h.orphan_iff.1 ho).1

/-- The slots of the inodes that are left, and what is in these blocks. -/
theorem Swept.slots (h : Swept sb P s t) (hs : Owned sb (s.addrs sb) s) (hi : sb.Inum i)
    (htype : (s.dinode sb i).type ≠ 0) (hP : ¬ (P i ∧ Orphan sb s i)) (k : Nat) :
    slotAddr t.blocks (t.dinode sb i).addrs k = slotAddr s.blocks (s.dinode sb i).addrs k ∧
      (slotAddr s.blocks (s.dinode sb i).addrs k ≠ 0 →
        t.blocks (slotAddr s.blocks (s.dinode sb i).addrs k).toNat =
          s.blocks (slotAddr s.blocks (s.dinode sb i).addrs k).toNat) := by
  have hdata : ∀ k, slotAddr s.blocks (s.dinode sb i).addrs k ≠ 0 →
      sb.dataStart ≤ (slotAddr s.blocks (s.dinode sb i).addrs k).toNat := by
    intro k hk
    rw [← addrs_of_alloc hi htype] at hk ⊢
    exact (hs.used hk).1
  refine ⟨?_, fun hk => h.data _ (hdata k hk)⟩
  rw [h.kept i hi hP]
  refine slotAddr_congr (fun hne => h.data _ ?_) k
  rw [← slotAddr_indirect s.blocks (s.dinode sb i).addrs] at hne ⊢
  exact hdata _ hne

theorem Swept.maps (h : Swept sb P s t) (hs : Owned sb (s.addrs sb) s) (ho : Orphan sb t i) :
    t.maps sb i = s.maps sb i := by
  obtain ⟨hi, hP⟩ := h.orphan_iff.1 ho
  have hslot := fun k => (h.slots hs hi.1 hi.2.1 (fun hc => hP hc.1) k).1
  unfold State.maps
  simp only [hslot]

theorem Swept.fitting (h : Swept sb P s t) (hs : Owned sb (s.addrs sb) s) (hfit : Fitting sb s) : Fitting sb t := by
  intro i ho
  rw [h.maps hs ho]
  exact hfit i (h.orphan_iff.1 ho).1

theorem Swept.trans (hs : Owned sb (s.addrs sb) s) (h : Swept sb P s t) (h' : Swept sb Q t u) :
    Swept sb (fun i => P i ∨ Q i) s u where
  refs := fun ip => (h'.refs ip).trans (h.refs ip)
  table := by
    intro ip hr
    rw [h'.table ip ((h.refs ip).symm ▸ hr), h.table ip hr]
  unlocked := fun ip hl => h'.unlocked ip (h.unlocked ip hl)
  freed := by
    intro i hi ho
    by_cases hP : P i
    · have hfreed := h.freed i hP ho
      rw [h'.kept i ho.1 fun hc => (h.orphan_iff.1 hc.2).2 hP, hfreed]
    · rw [h'.freed i (hi.resolve_left hP) (h.orphan_iff.2 ⟨ho, hP⟩), h.kept i ho.1 fun hc => hP hc.1]
  kept := by
    intro i hi hno
    rw [h'.kept i hi fun hc => hno ⟨.inr hc.1, (h.orphan_iff.1 hc.2).1⟩,
      h.kept i hi fun hc => hno ⟨.inl hc.1, hc.2⟩]
  data := fun b hb => (h'.data b hb).trans (h.data b hb)
  bits := by
    intro b
    rw [h'.bits, h.bits, and_assoc]
    refine and_congr_right fun _ => ?_
    constructor
    · rintro ⟨h1, h2⟩ ⟨i, k, hi, ho, hk, he⟩
      by_cases hP : P i
      · exact h1 ⟨i, k, hP, ho, hk, he⟩
      · have hslot := (h.slots hs ho.1 ho.2.1 (fun hc => hP hc.1) k).1
        exact h2 ⟨i, k, hi.resolve_left hP, h.orphan_iff.2 ⟨ho, hP⟩, hslot ▸ hk, hslot ▸ he⟩
    · intro hno
      refine ⟨fun hc => ?_, fun hc => ?_⟩
      · obtain ⟨i, k, hi, hrest⟩ := hc
        exact hno ⟨i, k, .inl hi, hrest⟩
      · obtain ⟨i, k, hi, ho, hk, he⟩ := hc
        obtain ⟨ho', hP⟩ := h.orphan_iff.1 ho
        have hslot := (h.slots hs ho'.1 ho'.2.1 (fun hc => hP hc.1) k).1
        exact hno ⟨i, k, .inr hi, ho', hslot ▸ hk, hslot ▸ he⟩
  own := h'.own

theorem Reclaimed.addrs (h : Reclaimed sb i s t) (hsb : sb.Ordered) (hi : sb.Inum i) (j : Nat) :
    t.addrs sb j = if j = i then fun _ => 0 else s.addrs sb j := by
  unfold State.addrs
  by_cases hj : sb.Inum j
  · rw [h.dinode hsb hj.2]
    by_cases he : j = i
    · rw [if_pos he, if_pos he, if_neg fun hc => hc.2 rfl]
    · rw [if_neg he, if_neg he]
  · have hne : j ≠ i := fun he => hj (he ▸ hi)
    rw [if_neg hne, if_neg fun hc => hj hc.1, if_neg fun hc => hj hc.1]

theorem Reclaimed.swept (hsb : sb.Ordered) (hs : Owned sb (s.addrs sb) s) (ho : Orphan sb s i)
    (h : Reclaimed sb i s t) : Swept sb (fun j => j = i) s t := by
  have haddrs := h.addrs hsb ho.1
  have hdata : ∀ b, sb.dataStart ≤ b → t.blocks b = s.blocks b := by
    intro b hb
    exact h.data b (Superblock.IBLOCK_ne_data hsb ho.lt hb).symm (.inl hb)
  have hslot : ∀ k, slotAddr s.blocks (s.addrs sb i) k = slotAddr s.blocks (s.dinode sb i).addrs k := by
    intro k
    rw [addrs_of_alloc ho.1 ho.2.1]
  refine ⟨h.refs, h.table, h.unlocked, fun j hj _ => ?_, fun j hj hno => ?_, hdata, fun b => ?_, ⟨?_⟩⟩
  · rw [hj, h.dinode hsb ho.lt, if_pos rfl]
  · rw [h.dinode hsb hj.2, if_neg]
    rintro rfl
    exact hno ⟨rfl, ho⟩
  · rw [h.bits]
    refine and_congr_right fun _ => ⟨fun hall => ?_, fun hno k hk he => hno ⟨i, k, rfl, ho, hk, he⟩⟩
    rintro ⟨j, k, rfl, -, hk, he⟩
    exact hall k hk he
  · refine hs.owns.give (fun p => p.1 = i) (fun p hp => ?_) (fun p hp => ?_) fun c hc => ?_
    · rw [haddrs, if_pos hp]
      exact slotAddr_zero _ _
    · rw [haddrs, if_neg hp]
      refine slotAddr_congr (fun hne => hdata _ ?_) _
      rw [← slotAddr_indirect s.blocks (s.addrs sb p.1)] at hne ⊢
      exact (hs.used hne).1
    · constructor
      · rintro ⟨h1, h2, h3⟩
        obtain ⟨hbit, hall⟩ := (h.bits _).1 h3
        refine ⟨⟨h1, h2, hbit⟩, fun p hp he => ?_⟩
        rw [hp, hslot] at he
        exact hall p.2 (he ▸ hc) (by rw [he])
      · rintro ⟨⟨h1, h2, h3⟩, hall⟩
        refine ⟨h1, h2, (h.bits _).2 ⟨h3, fun k _ he => hall (i, k) rfl ?_⟩⟩
        rw [hslot]
        exact BitVec.eq_of_toNat_eq he

theorem reclaimInode_kept (hi : sb.Inum i) (ho : ¬ Orphan sb s i) : reclaimInode sb i s = .ok (⟨⟩, s) := by
  unfold reclaimInode
  refine (bind_of_ok (a := s) (t := s) rfl).trans ?_
  rw [if_neg fun hc => ho ⟨hi, hc⟩]
  rfl

theorem reclaimInode_swept (hsb : sb.Ordered) (hs : Owned sb (s.addrs sb) s) (hb : Booting sb s) (hi : sb.Inum i)
    (hok : reclaimInode sb i s = .ok (⟨⟩, t)) : Swept sb (fun j => j = i) s t := by
  by_cases ho : Orphan sb s i
  · exact (reclaimInode_returned hsb hs hb ho hok).1.swept hsb hs ho
  · rw [reclaimInode_kept hi ho] at hok
    cases hok
    refine Swept.refl hs ?_
    rintro j rfl
    exact ho

/-- The rounds of the loop, one after the other. -/
theorem sweep_swept (hsb : sb.Ordered) (l : List Nat) (hl : ∀ i ∈ l, sb.Inum i) (hs : Owned sb (s.addrs sb) s)
    (hb : Booting sb s) (hok : l.forM (reclaimInode sb) s = .ok (⟨⟩, t)) : Swept sb (fun i => i ∈ l) s t := by
  induction l generalizing s with
  | nil =>
      cases hok
      exact Swept.refl hs fun i hi => absurd hi List.not_mem_nil
  | cons j l ih =>
      obtain ⟨_, u, hu, hrun⟩ := bind_returned hok
      have ht := reclaimInode_swept hsb hs hb (hl j (List.mem_cons_self ..)) hu
      have hrest := ih (fun i hi => hl i (List.mem_cons_of_mem _ hi)) ht.own (ht.booting hb) hrun
      have hcons : (fun i => i ∈ j :: l) = fun i => i = j ∨ i ∈ l := funext fun i => propext List.mem_cons
      rw [hcons]
      exact ht.trans hs hrest

/-- The loop returns if all its orphans fit in the log. -/
theorem sweep_returns (hsb : sb.Ordered) (l : List Nat) (hl : ∀ i ∈ l, sb.Inum i) (hs : Owned sb (s.addrs sb) s)
    (hb : Booting sb s) : (∃ t, l.forM (reclaimInode sb) s = .ok (⟨⟩, t)) ↔
      ∀ i ∈ l, Orphan sb s i → (s.maps sb i).card + 1 < LOGBLOCKS := by
  induction l generalizing s with
  | nil => exact iff_of_true ⟨s, rfl⟩ fun i hi => absurd hi List.not_mem_nil
  | cons j l ih =>
      have hj := hl j (List.mem_cons_self ..)
      have hrest : ∀ i ∈ l, sb.Inum i := fun i hi => hl i (List.mem_cons_of_mem _ hi)
      constructor
      · rintro ⟨t, hok⟩ i hi ho
        obtain ⟨_, u, hu, hrun⟩ := bind_returned hok
        have ht := reclaimInode_swept hsb hs hb hj hu
        by_cases he : i = j
        · subst he
          exact (reclaimInode_returned hsb hs hb ho hu).2
        · have ho' := ht.orphan_iff.2 ⟨ho, he⟩
          have hfit := (ih hrest ht.own (ht.booting hb)).1 ⟨t, hrun⟩ i ((List.mem_cons.1 hi).resolve_left he) ho'
          rwa [ht.maps hs ho'] at hfit
      · intro hfit
        have hfirst : ∃ u, reclaimInode sb j s = .ok (⟨⟩, u) := by
          by_cases ho : Orphan sb s j
          · obtain ⟨u, -, hrun⟩ := reclaimInode_orphan hsb hs hb ho
            rw [if_pos (hfit j (List.mem_cons_self ..) ho)] at hrun
            exact ⟨u, hrun⟩
          · exact ⟨s, reclaimInode_kept hj ho⟩
        obtain ⟨u, hu⟩ := hfirst
        have ht := reclaimInode_swept hsb hs hb hj hu
        obtain ⟨t, hrun⟩ := (ih hrest ht.own (ht.booting hb)).2 fun i hi ho => by
          rw [ht.maps hs ho]
          exact hfit i (List.mem_cons_of_mem _ hi) (ht.orphan_iff.1 ho).1
        exact ⟨t, (bind_of_ok hu).trans hrun⟩

/-- Nothing is done if there are no orphans. -/
theorem sweep_kept (l : List Nat) (hl : ∀ i ∈ l, sb.Inum i) (hno : ∀ i ∈ l, ¬ Orphan sb s i) :
    l.forM (reclaimInode sb) s = .ok (⟨⟩, s) := by
  induction l with
  | nil => rfl
  | cons j l ih =>
      have hj := reclaimInode_kept (hl j (List.mem_cons_self ..)) (hno j (List.mem_cons_self ..))
      refine (bind_of_ok hj).trans (ih ?_ ?_)
      · exact fun i hi => hl i (List.mem_cons_of_mem _ hi)
      · exact fun i hi => hno i (List.mem_cons_of_mem _ hi)

theorem orphan_congr (h : s.blocks = s'.blocks) : Orphan sb s i ↔ Orphan sb s' i := by
  unfold Orphan
  rw [dinode_congr sb (congrFun h (sb.IBLOCK i))]

theorem fitting_congr (h : s'.blocks = s.blocks) (hfit : Fitting sb s) : Fitting sb s' := by
  intro i ho
  have hmaps : s'.maps sb i = s.maps sb i := by
    unfold State.maps
    rw [h, dinode_congr sb (congrFun h (sb.IBLOCK i))]
  rw [hmaps]
  exact hfit i ((orphan_congr h).1 ho)

/-- Two boots from the same disk leave the same disk. -/
theorem sweep_blocks (hsb : sb.Ordered) (l : List Nat) (hl : ∀ i ∈ l, sb.Inum i) (hs : Owned sb (s.addrs sb) s)
    (hb : Booting sb s) (hb' : Booting sb s') (h : s'.blocks = s.blocks)
    (hok : l.forM (reclaimInode sb) s = .ok (⟨⟩, t)) (hok' : l.forM (reclaimInode sb) s' = .ok (⟨⟩, t')) :
    t'.blocks = t.blocks := by
  induction l generalizing s s' with
  | nil =>
      cases hok
      cases hok'
      exact h
  | cons j l ih =>
      have hj := hl j (List.mem_cons_self ..)
      have hs' := owned_congr h hs
      have hrest : ∀ i ∈ l, sb.Inum i := fun i hi => hl i (List.mem_cons_of_mem _ hi)
      obtain ⟨_, u, hu, hrun⟩ := bind_returned hok
      obtain ⟨_, u', hu', hrun'⟩ := bind_returned hok'
      by_cases ho : Orphan sb s j
      · have ho' := (orphan_congr h.symm).1 ho
        have hvr := (reclaimInode_returned hsb hs hb ho hu).1
        have hvr' := (reclaimInode_returned hsb hs' hb' ho' hu').1
        have hsw := hvr.swept hsb hs ho
        have hsw' := hvr'.swept hsb hs' ho'
        exact ih hrest hsw.own (hsw.booting hb) (hsw'.booting hb') (hvr'.blocks_eq hvr h) hrun hrun'
      · have ho' := mt (orphan_congr h).1 ho
        rw [reclaimInode_kept hj ho] at hu
        rw [reclaimInode_kept hj ho'] at hu'
        cases hu
        cases hu'
        exact ih hrest hs hb hb' h hrun hrun'

/-! ## Crashes -/

/-- The machine has crashed after some rounds of the loop, and boots again from what is on the disk. -/
def Crashed (sb : Superblock) (s s' : State) : Prop :=
  ∃ l l' u, List.range' 1 (sb.ninodes.toNat - 1) = l ++ l' ∧ l.forM (reclaimInode sb) s = .ok (⟨⟩, u) ∧
    s'.blocks = u.blocks ∧ Booting sb s'

theorem inum_of_mem {i : Nat} (hi : i ∈ List.range' 1 (sb.ninodes.toNat - 1)) : sb.Inum i := by
  obtain ⟨h1, h2⟩ := List.mem_range'_1.1 hi
  exact ⟨h1, by omega⟩

theorem mem_of_inum (h : sb.Inum i) : i ∈ List.range' 1 (sb.ninodes.toNat - 1) := by
  obtain ⟨h1, h2⟩ := h
  exact List.mem_range'_1.2 ⟨h1, by omega⟩

theorem forM_append {l l' : List Nat} {f : Nat → K PUnit} (h : l.forM f s = .ok (⟨⟩, t)) :
    (l ++ l').forM f s = l'.forM f t := by
  induction l generalizing s with
  | nil =>
      cases h
      rfl
  | cons j l ih =>
      obtain ⟨_, u, hu, hrun⟩ := bind_returned h
      exact (bind_of_ok hu).trans (ih hrun)

theorem ireclaim_swept (hsb : sb.Ordered) (hs : Owned sb (s.addrs sb) s) (hb : Booting sb s)
    (hok : ireclaim sb s = .ok (⟨⟩, t)) : Swept sb sb.Inum s t := by
  have ht := sweep_swept hsb _ (fun i => inum_of_mem) hs hb hok
  have hall : (fun i => i ∈ List.range' 1 (sb.ninodes.toNat - 1)) = sb.Inum :=
    funext fun i => propext ⟨inum_of_mem, mem_of_inum⟩
  rwa [hall] at ht

theorem ireclaim_returns (hsb : sb.Ordered) (hs : Owned sb (s.addrs sb) s) (hb : Booting sb s) :
    (∃ t, ireclaim sb s = .ok (⟨⟩, t)) ↔ Fitting sb s := by
  unfold ireclaim
  rw [sweep_returns hsb _ (fun i => inum_of_mem) hs hb]
  exact ⟨fun h i ho => h i (mem_of_inum ho.1) ho, fun h i _ ho => h i ho⟩

/-- The next boot ends where this one would have. -/
theorem Crashed.blocks (hsb : sb.Ordered) (hs : Owned sb (s.addrs sb) s) (hb : Booting sb s) (h : Crashed sb s s')
    (hok : ireclaim sb s = .ok (⟨⟩, t)) :
    Owned sb (s'.addrs sb) s' ∧ Booting sb s' ∧ ∃ t', ireclaim sb s' = .ok (⟨⟩, t') ∧ t'.blocks = t.blocks := by
  obtain ⟨l, l', u, hl, hu, hblocks, hb'⟩ := h
  have hin : ∀ i ∈ l, sb.Inum i := fun i hi => inum_of_mem (hl ▸ List.mem_append_left _ hi)
  have hin' : ∀ i ∈ l', sb.Inum i := fun i hi => inum_of_mem (hl ▸ List.mem_append_right _ hi)
  have hsw := sweep_swept hsb l hin hs hb hu
  have hs' := owned_congr hblocks hsw.own
  have hfit := (ireclaim_returns hsb hs hb).1 ⟨t, hok⟩
  obtain ⟨t', hok'⟩ := (ireclaim_returns hsb hs' hb').2 (fitting_congr hblocks (hsw.fitting hs hfit))
  have hnone : ∀ i ∈ l, ¬ Orphan sb s' i := by
    intro i hi ho
    exact (hsw.orphan_iff.1 ((orphan_congr hblocks).1 ho)).2 hi
  refine ⟨hs', hb', t', hok', ?_⟩
  unfold ireclaim at hok hok'
  rw [hl, forM_append hu] at hok
  rw [hl, forM_append (sweep_kept l hin hnone)] at hok'
  exact sweep_blocks hsb l' hin' hsw.own (hsw.booting hb) hb' hblocks hok hok'

/-- `ireclaim` frees the orphans and their blocks and nothing else, however often the machine crashes in
    between. It returns if the log has room for each of the orphans. -/
theorem ireclaim_orphans (hsb : sb.Ordered) (hs : Owned sb (s.addrs sb) s) (hb : Booting sb s) :
    ((∃ t, ireclaim sb s = .ok (⟨⟩, t)) ↔ Fitting sb s) ∧ ∀ t, ireclaim sb s = .ok (⟨⟩, t) →
      (∀ i, ¬ Orphan sb t i) ∧
      (∀ i, sb.Inum i → ¬ Orphan sb s i → t.dinode sb i = s.dinode sb i ∧
        ((s.dinode sb i).type ≠ 0 → ∀ k,
          slotAddr t.blocks (t.dinode sb i).addrs k = slotAddr s.blocks (s.dinode sb i).addrs k ∧
          (slotAddr s.blocks (s.dinode sb i).addrs k ≠ 0 →
            t.blocks (slotAddr s.blocks (s.dinode sb i).addrs k).toNat =
              s.blocks (slotAddr s.blocks (s.dinode sb i).addrs k).toNat))) ∧
      (∀ b, t.bit sb b = true ↔ s.bit sb b = true ∧ ¬ ∃ i k, Orphan sb s i ∧
        slotAddr s.blocks (s.dinode sb i).addrs k ≠ 0 ∧
        (slotAddr s.blocks (s.dinode sb i).addrs k).toNat = b) ∧
      Owned sb (t.addrs sb) t ∧ (∀ ip, (t.itable ip).ref = (s.itable ip).ref) ∧
      ∀ s', Relation.ReflTransGen (Crashed sb) s s' →
        ∃ t', ireclaim sb s' = .ok (⟨⟩, t') ∧ t'.blocks = t.blocks ∧
          ∀ ip, (t'.itable ip).ref = (s'.itable ip).ref := by
  refine ⟨ireclaim_returns hsb hs hb, fun t hok => ?_⟩
  have ht := ireclaim_swept hsb hs hb hok
  refine ⟨fun i ho => ?_, fun i hi ho => ⟨ht.kept i hi fun hc => ho hc.2, fun htype k => ?_⟩,
    fun b => ?_, ht.own, ht.refs, fun s' hcrash => ?_⟩
  · obtain ⟨ho', hno⟩ := ht.orphan_iff.1 ho
    exact hno ho'.1
  · exact ht.slots hs hi htype (fun hc => ho hc.2) k
  · rw [ht.bits]
    refine and_congr_right fun _ => not_congr ⟨?_, ?_⟩
    · rintro ⟨i, k, -, hrest⟩
      exact ⟨i, k, hrest⟩
    · rintro ⟨i, k, ho, hrest⟩
      exact ⟨i, k, ho.1, ho, hrest⟩
  · have hboot : Owned sb (s'.addrs sb) s' ∧ Booting sb s' ∧
        ∃ t', ireclaim sb s' = .ok (⟨⟩, t') ∧ t'.blocks = t.blocks := by
      induction hcrash with
      | refl => exact ⟨hs, hb, t, hok, rfl⟩
      | tail _ hlast ih =>
          obtain ⟨hs₁, hb₁, t₁, hok₁, hblocks⟩ := ih
          obtain ⟨hs₂, hb₂, t₂, hok₂, hblocks₂⟩ := hlast.blocks hsb hs₁ hb₁ hok₁
          exact ⟨hs₂, hb₂, t₂, hok₂, hblocks₂.trans hblocks⟩
    obtain ⟨hs', hb', t', hok', hblocks⟩ := hboot
    exact ⟨t', hok', hblocks, (ireclaim_swept hsb hs' hb' hok').refs⟩

/-! ## A small disk -/

/-- Three inodes, and no block of data that is in use. -/
def smallDisk : Superblock where
  size := 8
  ninodes := 3
  inodestart := 2
  bmapstart := 3

theorem rootEntry_lt : 0 < NINODE := by decide

def rootEntry : Ip := ⟨0, rootEntry_lt⟩

/-- The root directory, which has `nlink` links and is held, and an inode of type `type` without links. -/
def smallState (nlink type : BitVec 16) : State :=
  let s : State :=
    { blocks := fun _ _ => 0
      logged := []
      itable := fun ip =>
        { type := 0, major := 0, minor := 0, nlink := 0, size := 0, addrs := fun _ => 0
          inum := if ip = rootEntry then ROOTINO else 0
          ref := if ip = rootEntry then 1 else 0
          locked := false
          valid := false }
      ftable := fun _ => { type := .none, ref := 0, readable := false, writable := false, ip := rootEntry, off := 0, major := 0 }
      ofile := fun _ => none
      cwd := rootEntry }
  (s.setDinode smallDisk 1 ⟨T_DIR, 0, 0, nlink, 0, fun _ => 0⟩).setDinode smallDisk 2 ⟨type, 0, 0, 0, 0, fun _ => 0⟩

variable {nlink type : BitVec 16}

theorem loadDinode_zero (o : Nat) : loadDinode (fun _ => 0) o = ⟨0, 0, 0, 0, 0, fun _ => 0⟩ := by
  have hhalf : ∀ o, half (fun _ => 0) o = 0 := by
    intro o
    show (0#8 ++ 0#8 : BitVec 16) = 0
    decide
  unfold loadDinode
  simp only [hhalf, word_zero]

theorem small_dinode (j : Nat) : (smallState nlink type).dinode smallDisk j =
    if j = 2 then ⟨type, 0, 0, 0, 0, fun _ => 0⟩
    else if j = 1 then ⟨T_DIR, 0, 0, nlink, 0, fun _ => 0⟩ else ⟨0, 0, 0, 0, 0, fun _ => 0⟩ := by
  unfold smallState
  rw [dinode_setDinode, dinode_setDinode]
  congr 2
  exact loadDinode_zero _

theorem small_addrs (j : Nat) : ((smallState nlink type).dinode smallDisk j).addrs = fun _ => 0 := by
  rw [small_dinode]
  split
  · rfl
  · split <;> rfl

theorem small_owned : Owned smallDisk ((smallState nlink type).addrs smallDisk) (smallState nlink type) := by
  have haddrs : ∀ j, (smallState nlink type).addrs smallDisk j = fun _ => 0 := by
    intro j
    unfold State.addrs
    split
    · exact small_addrs j
    · rfl
  have hslot : ∀ j k, slotAddr (smallState nlink type).blocks ((smallState nlink type).addrs smallDisk j) k = 0 := by
    intro j k
    rw [haddrs]
    exact slotAddr_zero _ k
  have hbit : ∀ b, (smallState nlink type).bit smallDisk b = false := by
    intro b
    have hle : 3 ≤ smallDisk.BBLOCK b := @Superblock.bmapstart_le_BBLOCK smallDisk b
    unfold smallState State.bit
    rw [setDinode_of_ne, setDinode_of_ne]
    · exact BitVec.getLsbD_zero
    · exact Nat.ne_of_gt hle
    · exact Nat.ne_of_gt hle
  refine ⟨⟨fun p q hp => absurd (hslot p.1 p.2) hp, fun b hb => iff_of_false ?_ ?_⟩⟩
  · rintro ⟨-, -, h⟩
    rw [hbit] at h
    cases h
  · rintro ⟨p, rfl⟩
    exact hb (hslot p.1 p.2)

theorem small_ordered : smallDisk.Ordered := by
  unfold Superblock.Ordered
  decide

theorem small_ref {ip : Ip} (h : 0 < ((smallState nlink type).itable ip).ref) : ip = rootEntry := by
  by_contra hne
  have h0 : ((smallState nlink type).itable ip).ref = 0 := if_neg hne
  rw [h0] at h
  exact Nat.lt_irrefl 0 h

theorem small_booting (nlink type : BitVec 16) (h : nlink ≠ 0) : Booting smallDisk (smallState nlink type) := by
  refine ⟨⟨⟨1, by decide⟩, rfl⟩, fun _ _ => rfl, fun ip hr ho => ?_⟩
  obtain rfl := small_ref hr
  have hn := ho.2.2
  rw [small_dinode] at hn
  exact h hn

theorem small_fitting : Fitting smallDisk (smallState nlink type) := by
  intro i _
  have hmaps : (smallState nlink type).maps smallDisk i = ∅ := by
    refine Finset.eq_empty_of_forall_notMem fun b hb => ?_
    obtain ⟨k, hk, -⟩ := mem_maps.1 hb
    rw [small_addrs] at hk
    exact hk (slotAddr_zero _ k)
  rw [hmaps]
  decide

/-- A file without links is freed at boot, and the root directory stays. -/
theorem ireclaim_orphans_small : Orphan smallDisk (smallState 1 T_FILE) 2 ∧
    ∃ t, ireclaim smallDisk (smallState 1 T_FILE) = .ok (⟨⟩, t) ∧ (∀ i, ¬ Orphan smallDisk t i) ∧
      (t.dinode smallDisk 1).type = T_DIR := by
  obtain ⟨hreturns, hdone⟩ := ireclaim_orphans small_ordered small_owned
    (small_booting 1 T_FILE (by decide))
  obtain ⟨t, hok⟩ := hreturns.2 small_fitting
  obtain ⟨hnone, hkept, -⟩ := hdone t hok
  have hroot : ¬ Orphan smallDisk (smallState 1 T_FILE) 1 := by
    intro ho
    have hn := ho.2.2
    rw [small_dinode] at hn
    exact absurd hn (by decide)
  refine ⟨⟨by decide, ?_⟩, t, hok, hnone, ?_⟩
  · rw [small_dinode]
    decide
  · rw [(hkept 1 (by decide) hroot).1, small_dinode]
    rfl

/-- An orphan that is held stays as it is on the disk. -/
theorem reclaimInode_held
    (hfind : slots.find? (fun ip => decide (0 < (s.itable ip).ref ∧ (s.itable ip).inum = i)) = some ip)
    (hlocked : (s.itable ip).locked = false) (hvalid : (s.itable ip).valid = false) (ho : Orphan sb s i) :
    ∃ t, reclaimInode sb i s = .ok (⟨⟩, t) ∧ t.blocks = s.blocks := by
  have hin := List.find?_some hfind
  obtain ⟨hr, hnum⟩ := of_decide_eq_true hin
  have hget : iget i s = .ok (ip, s.setInode ip { s.itable ip with ref := (s.itable ip).ref + 1 }) := by
    unfold iget
    refine (bind_of_ok (a := s) (t := s) rfl).trans ?_
    rw [hfind]
    rfl
  have hput : ∀ e : Inode, e.ref = (s.itable ip).ref + 1 →
      ∃ t, iput sb ip (s.beginOp.setInode ip e) = .ok (⟨⟩, t) ∧ t.blocks = s.blocks ∧ t.logged = [] := by
    intro e he
    refine ⟨_, iput_kept fun hc => ?_, rfl, rfl⟩
    rw [setInode_self, he] at hc
    omega
  obtain ⟨t, hok, ht, hlog⟩ := hput { s.itable ip with
    toDinode := s.dinode sb (s.itable ip).inum
    ref := (s.itable ip).ref + 1
    locked := false
    valid := true } rfl
  have hrun := open_put (e := { s.itable ip with ref := (s.itable ip).ref + 1 }) (Nat.succ_pos _) hlocked hvalid
    (hnum ▸ ho.2.1) hok
  rw [hlog, if_pos (by decide)] at hrun
  refine ⟨t, ?_, ht⟩
  unfold reclaimInode
  refine (bind_of_ok (a := s) (t := s) rfl).trans ?_
  rw [if_pos ho.2]
  exact (bind_of_ok hget).trans hrun

/-- A root directory without links stays an orphan: the first process has it open. -/
theorem ireclaim_root : ¬ ∀ sb s, Superblock.Ordered sb → Owned sb (s.addrs sb) s →
    (∃ ip, (s.itable ip).inum = ROOTINO ∧ (s.itable ip).ref = 1 ∧ (s.itable ip).valid = false ∧
      (∀ jp, jp ≠ ip → (s.itable jp).ref = 0) ∧ ∀ jp, (s.itable jp).locked = false) →
    ∃ t, ireclaim sb s = .ok (⟨⟩, t) ∧ ∀ i, ¬ Orphan sb t i := by
  intro h
  have hroot : Orphan smallDisk (smallState 0 0) 1 := by
    refine ⟨by decide, ?_⟩
    rw [small_dinode]
    decide
  have hfind : slots.find? (fun ip => decide (0 < ((smallState 0 0).itable ip).ref ∧
      ((smallState 0 0).itable ip).inum = 1)) = some rootEntry := by
    unfold slots
    decide
  have hother : ∀ jp, jp ≠ rootEntry → ((smallState 0 0).itable jp).ref = 0 := fun jp hj => if_neg hj
  obtain ⟨t, hok, hnone⟩ := h smallDisk (smallState 0 0) small_ordered small_owned
    ⟨rootEntry, rfl, rfl, rfl, hother, fun _ => rfl⟩
  obtain ⟨u, hfirst, hu⟩ := reclaimInode_held hfind rfl rfl hroot
  have hlast : ¬ Orphan smallDisk u 2 := by
    intro ho
    have htype := ((orphan_congr hu).1 ho).2.1
    rw [small_dinode] at htype
    exact htype rfl
  have hrun : ireclaim smallDisk (smallState 0 0) = .ok (⟨⟩, u) :=
    (bind_of_ok hfirst).trans (bind_of_ok (reclaimInode_kept (by decide) hlast))
  rw [hrun] at hok
  cases hok
  exact hnone 1 ((orphan_congr hu).2 hroot)

end Xv6.Blocks
