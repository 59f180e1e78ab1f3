import Xv6.Blocks.Growth

set_option autoImplicit false

/-! # Well-formed file systems

Between two operations the inodes in the table agree with those on disk, every block has the owner
that the free map says it has, and every file has all the blocks of its size. -/

namespace Xv6.Blocks

open Xv6.Lib
open Xv6.Fs (NINODE NFILE NDEV ROOTINO DIRSIZ MAXFILE Ip)

instance (sb : Superblock) (i : Nat) : Decidable (sb.Inum i) :=
  inferInstanceAs (Decidable (0 < i ∧ i < sb.ninodes.toNat))

/-- The block numbers of inode `i`; an inode that is not allocated has none. -/
def State.addrs (sb : Superblock) (s : State) (i : Nat) : Addrs :=
  if sb.Inum i ∧ (s.dinode sb i).type ≠ 0 then (s.dinode sb i).addrs else fun _ => 0

/-- The inode has the blocks of its size. -/
def Whole (blocks : Nat → Nat → Byte) (d : Dinode) : Prop :=
  d.size.toNat ≤ MAXFILE * BSIZE ∧
    ∀ p, p < d.size.toNat → slotAddr blocks d.addrs (fileSlot (p / BSIZE)) ≠ 0

structure State.Wf (sb : Superblock) (s : State) : Prop where
  own : Own sb (s.addrs sb) s
  inum : ∀ ip, 0 < (s.itable ip).ref → (s.itable ip).valid = true → sb.Inum (s.itable ip).inum
  uniq : ∀ ip jp, 0 < (s.itable ip).ref → 0 < (s.itable jp).ref →
    (s.itable ip).inum = (s.itable jp).inum → ip = jp
  synced : ∀ ip, 0 < (s.itable ip).ref → (s.itable ip).valid = true →
    (s.itable ip).toDinode = s.dinode sb (s.itable ip).inum ∧ (s.itable ip).type ≠ 0
  whole : ∀ i, sb.Inum i → (s.dinode sb i).type ≠ 0 → Whole s.blocks (s.dinode sb i)

/-- The inode is in the table and has been read from disk. -/
def State.InCore (s : State) (ip : Ip) : Prop := 0 < (s.itable ip).ref ∧ (s.itable ip).valid = true

/-- The bytes of a file. -/
def bytesOf (blocks : Nat → Nat → Byte) (d : Dinode) : List Byte :=
  (List.range d.size.toNat).map fun p =>
    blocks (slotAddr blocks d.addrs (fileSlot (p / BSIZE))).toNat (p % BSIZE)

/-- The content of inode `i`. -/
def State.content (sb : Superblock) (s : State) (i : Nat) : List Byte :=
  bytesOf s.blocks (s.dinode sb i)

/-- `iupdate` has written `ip` to disk. -/
def State.updated (sb : Superblock) (s : State) (ip : Ip) : State :=
  { s.setDinode sb (s.itable ip).inum (s.itable ip).toDinode with
    logged := sb.IBLOCK (s.itable ip).inum :: s.logged }

/-- From `s` to `t` only `ip` in the table and its blocks have changed. -/
structure Local (sb : Superblock) (A : Nat → Addrs) (ip : Ip) (s t : State) : Prop where
  table : t.itable = Function.update s.itable ip { s.itable ip with
    toDinode := (t.itable ip).toDinode }
  dinode : ∀ i, i < sb.ninodes.toNat → t.dinode sb i = s.dinode sb i
  own : Own sb (t.withIp ip A) t
  slots : ∀ i, i ≠ (s.itable ip).inum → ∀ k, slotAddr t.blocks (A i) k = slotAddr s.blocks (A i) k
  data : ∀ i, i ≠ (s.itable ip).inum → ∀ k, slotAddr s.blocks (A i) k ≠ 0 →
    t.blocks (slotAddr s.blocks (A i) k).toNat = s.blocks (slotAddr s.blocks (A i) k).toNat

variable {sb : Superblock} {s t u : State} {A : Nat → Addrs} {ip : Ip} {R : Nat → Prop}

@[simp] theorem iupdate_eq (s : State) : iupdate sb ip s = .ok (⟨⟩, s.updated sb ip) := rfl

theorem updated_itable : (s.updated sb ip).itable = s.itable := rfl

theorem updated_dinode (i : Nat) : (s.updated sb ip).dinode sb i =
    if i = (s.itable ip).inum then (s.itable ip).toDinode else s.dinode sb i :=
  dinode_setDinode _ _ _

theorem updated_of_ne {b : Nat} (h : b ≠ sb.IBLOCK (s.itable ip).inum) :
    (s.updated sb ip).blocks b = s.blocks b := setDinode_of_ne _ h

/-- Writing an inode to disk changes no data. -/
theorem updated_data (hsb : sb.Ordered) (hi : sb.Inum (s.itable ip).inum) {b : Nat}
    (hb : sb.dataStart ≤ b) : (s.updated sb ip).blocks b = s.blocks b :=
  updated_of_ne (Superblock.IBLOCK_ne_data hsb hi.2 hb).symm

theorem State.Wf.beginOp (h : s.Wf sb) : s.beginOp.Wf sb :=
  ⟨h.own.congr (fun _ _ => rfl) fun _ _ => rfl, h.inum, h.uniq, h.synced, h.whole⟩

theorem addrs_of_alloc {i : Nat} (hi : sb.Inum i) (h : (s.dinode sb i).type ≠ 0) :
    s.addrs sb i = (s.dinode sb i).addrs := if_pos ⟨hi, h⟩

theorem State.Wf.addrs_ip (h : s.Wf sb) (hip : s.InCore ip) :
    s.addrs sb (s.itable ip).inum = (s.itable ip).addrs := by
  obtain ⟨hd, ht⟩ := h.synced ip hip.1 hip.2
  rw [addrs_of_alloc (h.inum ip hip.1 hip.2) (hd ▸ ht), ← hd]

theorem State.Wf.withIp (h : s.Wf sb) (hip : s.InCore ip) : s.withIp ip (s.addrs sb) = s.addrs sb := by
  unfold State.withIp
  rw [← h.addrs_ip hip, Function.update_eq_self]

theorem State.Wf.own_ip (h : s.Wf sb) (hip : s.InCore ip) : Own sb (s.withIp ip (s.addrs sb)) s := by
  rw [h.withIp hip]
  exact h.own

theorem Local.inum (h : Local sb A ip s t) : (t.itable ip).inum = (s.itable ip).inum := by
  rw [h.table, Function.update_self]

/-- A step that writes no block, after which the valid entries of the table are what is on the disk. -/
theorem State.Wf.of_table (h : s.Wf sb) (hblocks : t.blocks = s.blocks)
    (hvalid : ∀ jp, 0 < (t.itable jp).ref → (t.itable jp).valid = true → sb.Inum (t.itable jp).inum ∧
      (t.itable jp).toDinode = s.dinode sb (t.itable jp).inum ∧ (t.itable jp).type ≠ 0)
    (huniq : ∀ ip jp, 0 < (t.itable ip).ref → 0 < (t.itable jp).ref →
      (t.itable ip).inum = (t.itable jp).inum → ip = jp) : t.Wf sb := by
  have hdin : ∀ i, t.dinode sb i = s.dinode sb i := fun i => dinode_congr sb (by rw [hblocks])
  constructor
  case own =>
    have haddrs : t.addrs sb = s.addrs sb := by
      funext i
      unfold State.addrs
      rw [hdin]
    rw [haddrs]
    exact h.own.congr (fun i _ => by rw [hblocks]) fun b _ => bit_congr sb (by rw [hblocks])
  case inum =>
    exact fun jp hr hv => (hvalid jp hr hv).1
  case uniq =>
    exact huniq
  case synced =>
    intro jp hr hv
    rw [hdin]
    exact (hvalid jp hr hv).2
  case whole =>
    intro i hi ht
    rw [hdin] at ht ⊢
    rw [hblocks]
    exact h.whole i hi ht

/-- So it may be among those of before. -/
theorem State.Wf.retable (h : s.Wf sb) (hblocks : t.blocks = s.blocks)
    (hvalid : ∀ jp, 0 < (t.itable jp).ref → (t.itable jp).valid = true →
      0 < (s.itable jp).ref ∧ (s.itable jp).valid = true ∧ (t.itable jp).inum = (s.itable jp).inum ∧
        (t.itable jp).toDinode = (s.itable jp).toDinode)
    (huniq : ∀ ip jp, 0 < (t.itable ip).ref → 0 < (t.itable jp).ref →
      (t.itable ip).inum = (t.itable jp).inum → ip = jp) : t.Wf sb := by
  refine h.of_table hblocks (fun jp hr hv => ?_) huniq
  obtain ⟨hr', hv', hn, hd⟩ := hvalid jp hr hv
  rw [hn, hd]
  exact ⟨h.inum jp hr' hv', h.synced jp hr' hv'⟩

theorem Grown.local (h : Grown sb A ip R s t) (hs : Own sb (s.withIp ip A) s) : Local sb A ip s t where
  table := by
    rw [h.table]
    simp only [Function.update_self]
  dinode := h.dinode
  own := h.own
  slots := fun i hi k => h.slotAddr_of_ne hs hi k
  data := by
    intro i hi k hne
    have hsi : s.withIp ip A i = A i := withIp_of_ne hi
    have hti : t.withIp ip A i = A i := withIp_of_ne (h.inum ▸ hi)
    rw [← hsi] at hne ⊢
    refine h.data _ (hs.used hne) fun j hj => hi ?_
    have he := (BitVec.eq_of_toNat_eq hj).symm
    rw [hsi, ← h.slotAddr_of_ne hs hi, ← hti] at he hne
    rw [← slotAddr_withIp (A := A)] at he
    exact (h.own.inj hne he).1.trans h.inum

/-- Whether an inode is whole depends on its blocks only. -/
theorem Whole.congr {blocks blocks' : Nat → Nat → Byte} {d : Dinode} (h : Whole blocks d)
    (hslot : ∀ k, slotAddr blocks' d.addrs k = slotAddr blocks d.addrs k) : Whole blocks' d :=
  ⟨h.1, fun p hp => by rw [hslot]; exact h.2 p hp⟩

theorem bytesOf_congr {blocks blocks' : Nat → Nat → Byte} {d : Dinode}
    (hslot : ∀ k, slotAddr blocks' d.addrs k = slotAddr blocks d.addrs k)
    (hdata : ∀ p, p < d.size.toNat →
      blocks' (slotAddr blocks d.addrs (fileSlot (p / BSIZE))).toNat =
        blocks (slotAddr blocks d.addrs (fileSlot (p / BSIZE))).toNat) :
    bytesOf blocks' d = bytesOf blocks d := by
  refine List.map_congr_left fun p hp => ?_
  rw [hslot, hdata p (List.mem_range.1 hp)]

/-- After the work on `ip` it is written to disk; `e` is what then is in its entry of the table. -/
theorem Local.wf (hsb : sb.Ordered) (h : s.Wf sb) (hip : s.InCore ip)
    (hl : Local sb (s.addrs sb) ip s u) {e : Inode} (hblocks : t.blocks = (u.updated sb ip).blocks)
    (htable : t.itable = Function.update u.itable ip e) (hinum : e.inum = (s.itable ip).inum)
    (hvalid : e.valid = true → e.toDinode = (u.itable ip).toDinode ∧ (u.itable ip).type ≠ 0)
    (hwhole : (u.itable ip).type ≠ 0 → Whole u.blocks (u.itable ip).toDinode)
    (hfree : (u.itable ip).type = 0 → (u.itable ip).addrs = fun _ => 0) : t.Wf sb := by
  have hi := h.inum ip hip.1 hip.2
  have hui : sb.Inum (u.itable ip).inum := hl.inum ▸ hi
  have hdin : ∀ i, sb.Inum i → t.dinode sb i =
      if i = (s.itable ip).inum then (u.itable ip).toDinode else s.dinode sb i := by
    intro i hi
    rw [dinode_congr (s := u.updated sb ip) sb (by rw [hblocks]), updated_dinode, hl.inum,
      hl.dinode i hi.2]
  have hdata : ∀ b, sb.dataStart ≤ b → t.blocks b = u.blocks b := by
    intro b hb
    rw [hblocks]
    exact updated_data hsb hui hb
  -- on disk, inode `ip` has the addresses of the table, and the others have theirs
  have haddrs : ∀ i, t.addrs sb i = u.withIp ip (s.addrs sb) i := by
    intro i
    by_cases he : i = (s.itable ip).inum
    · rw [he, ← hl.inum, withIp_self]
      unfold State.addrs
      rw [hdin _ hui, if_pos hl.inum]
      by_cases htype : (u.itable ip).type ≠ 0
      · rw [if_pos ⟨hui, htype⟩]
      · rw [if_neg fun hc => htype hc.2, hfree (not_not.1 htype)]
    · rw [withIp_of_ne (hl.inum ▸ he)]
      unfold State.addrs
      by_cases hin : sb.Inum i
      · rw [hdin i hin, if_neg he]
      · rw [if_neg fun hc => hin hc.1, if_neg fun hc => hin hc.1]
  have hother : ∀ jp, jp ≠ ip → t.itable jp = s.itable jp := by
    intro jp hne
    rw [htable, Function.update_of_ne hne, hl.table, Function.update_of_ne hne]
  have hself : t.itable ip = e := by rw [htable, Function.update_self]
  have hnum : ∀ jp, (t.itable jp).inum = (s.itable jp).inum := by
    intro jp
    by_cases hne : jp = ip
    · rw [hne, hself, hinum]
    · rw [hother jp hne]
  have href : ∀ jp, 0 < (t.itable jp).ref → 0 < (s.itable jp).ref := by
    intro jp hr
    by_cases hne : jp = ip
    · rw [hne]
      exact hip.1
    · rwa [hother jp hne] at hr
  have hval : ∀ jp, (t.itable jp).valid = true → (s.itable jp).valid = true := by
    intro jp hv
    by_cases hne : jp = ip
    · rw [hne]
      exact hip.2
    · rwa [hother jp hne] at hv
  -- writing the inode changes no indirect block
  have hslots : ∀ i k, slotAddr t.blocks (u.withIp ip (s.addrs sb) i) k =
      slotAddr u.blocks (u.withIp ip (s.addrs sb) i) k := by
    intro i
    refine slotAddr_congr fun hne => hdata _ ?_
    rw [← slotAddr_indirect u.blocks (u.withIp ip (s.addrs sb) i)] at hne ⊢
    exact (hl.own.used hne).1
  refine ⟨?_, fun jp hr hv => ?_, fun jp kp hj hk hn => ?_, fun jp hr hv => ?_, fun i hin ht => ?_⟩
  · rw [show t.addrs sb = u.withIp ip (s.addrs sb) from funext haddrs]
    refine hl.own.congr (fun i hne => hdata _ ?_) fun b hb => ?_
    · rw [← slotAddr_indirect u.blocks (u.withIp ip (s.addrs sb) i)] at hne ⊢
      exact (hl.own.used hne).1
    · refine bit_congr sb ?_
      rw [hblocks]
      exact updated_of_ne (Superblock.IBLOCK_ne_BBLOCK hsb hui.2 b).symm
  · rw [hnum]
    exact h.inum jp (href jp hr) (hval jp hv)
  · rw [hnum, hnum] at hn
    exact h.uniq jp kp (href jp hj) (href kp hk) hn
  · have hin := h.inum jp (href jp hr) (hval jp hv)
    rw [hnum, hdin _ hin]
    by_cases hne : jp = ip
    · rw [hne, hself] at hv ⊢
      obtain ⟨h1, h2⟩ := hvalid hv
      rw [if_pos rfl, h1]
      exact ⟨rfl, h2⟩
    · rw [hother jp hne] at hr hv ⊢
      rw [if_neg fun he => hne (h.uniq jp ip hr hip.1 he)]
      exact h.synced jp hr hv
  · have hta := haddrs i
    rw [addrs_of_alloc hin ht] at hta
    rw [hdin i hin] at ht hta ⊢
    by_cases he : i = (s.itable ip).inum
    · rw [if_pos he] at ht hta ⊢
      exact (hwhole ht).congr fun k => by rw [hta]; exact hslots i k
    · rw [if_neg he] at ht hta ⊢
      have hs := addrs_of_alloc hin ht
      refine (h.whole i hin ht).congr fun k => ?_
      rw [hta, hslots, ← hta, ← hs]
      exact hl.slots i he k

/-- The slots of the other inodes are what they were. -/
theorem Local.slots_updated (hsb : sb.Ordered) (h : s.Wf sb) (hip : s.InCore ip)
    (hl : Local sb (s.addrs sb) ip s u) (hblocks : t.blocks = (u.updated sb ip).blocks) {i : Nat}
    (hne : i ≠ (s.itable ip).inum) (k : Nat) :
    slotAddr t.blocks (t.addrs sb i) k = slotAddr s.blocks (s.addrs sb i) k := by
  have hui : sb.Inum (u.itable ip).inum := hl.inum ▸ h.inum ip hip.1 hip.2
  have haddrs : t.addrs sb i = s.addrs sb i := by
    unfold State.addrs
    by_cases hin : sb.Inum i
    · rw [dinode_congr (s := u.updated sb ip) sb (by rw [hblocks]), updated_dinode, hl.inum, if_neg hne,
        hl.dinode i hin.2]
    · rw [if_neg fun hc => hin hc.1, if_neg fun hc => hin hc.1]
  rw [haddrs, ← hl.slots i hne k]
  refine slotAddr_congr (fun hk => ?_) k
  rw [← slotAddr_indirect s.blocks (s.addrs sb i)] at hk ⊢
  rw [hblocks]
  exact updated_data hsb hui (h.own.used hk).1

/-- The other inodes are what they were. -/
theorem Local.dinode_of_ne (hl : Local sb (s.addrs sb) ip s u) (hblocks : t.blocks = (u.updated sb ip).blocks) {i : Nat}
    (hin : sb.Inum i) (hne : i ≠ (s.itable ip).inum) : t.dinode sb i = s.dinode sb i := by
  rw [dinode_congr (s := u.updated sb ip) sb (by rw [hblocks]), updated_dinode, hl.inum, if_neg hne, hl.dinode i hin.2]

/-- The content of the other inodes is what it was. -/
theorem Local.content (hsb : sb.Ordered) (h : s.Wf sb) (hip : s.InCore ip)
    (hl : Local sb (s.addrs sb) ip s u) (hblocks : t.blocks = (u.updated sb ip).blocks) {i : Nat}
    (hin : sb.Inum i) (halloc : (s.dinode sb i).type ≠ 0) (hne : i ≠ (s.itable ip).inum) :
    t.dinode sb i = s.dinode sb i ∧ t.content sb i = s.content sb i := by
  have hui : sb.Inum (u.itable ip).inum := hl.inum ▸ h.inum ip hip.1 hip.2
  have hdin := hl.dinode_of_ne hblocks hin hne
  have hdata : ∀ b, sb.dataStart ≤ b → t.blocks b = u.blocks b := by
    intro b hb
    rw [hblocks]
    exact updated_data hsb hui hb
  have ha := addrs_of_alloc hin halloc
  have hus : ∀ k, slotAddr s.blocks (s.dinode sb i).addrs k ≠ 0 →
      t.blocks (slotAddr s.blocks (s.dinode sb i).addrs k).toNat =
        s.blocks (slotAddr s.blocks (s.dinode sb i).addrs k).toNat := by
    intro k hk
    rw [← ha] at hk ⊢
    rw [hdata _ (h.own.used hk).1]
    exact hl.data i hne k hk
  refine ⟨hdin, ?_⟩
  unfold State.content
  rw [hdin]
  refine bytesOf_congr (fun k => slotAddr_congr (fun hk => ?_) k) fun p hp => ?_
  · rw [← slotAddr_indirect s.blocks (s.dinode sb i).addrs] at hk ⊢
    exact hus _ hk
  · exact hus _ ((h.whole i hin halloc).2 p hp)

end Xv6.Blocks
