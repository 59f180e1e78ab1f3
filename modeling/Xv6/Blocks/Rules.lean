import Xv6.Blocks.Paths
import Xv6.Blocks.Work

set_option autoImplicit false

/-! # What each function logs

A rule for each function that a system call is made of: what it keeps, and how many blocks it adds to those
that are logged. -/

namespace Xv6.Blocks

open Xv6.Lib
open Xv6.Fs (NINODE NFILE NDEV ROOTINO DIRSIZ MAXFILE Ip)

/-- From `t` to `u` the inode of `ip` has been written, which keeps its number, its references and its type. -/
structure Rewritten (sb : Superblock) (ip : Ip) (t u : State) : Prop where
  wf : u.Wf sb
  table : u.itable = Function.update t.itable ip (u.itable ip)
  ref : (u.itable ip).ref = (t.itable ip).ref
  inum : (u.itable ip).inum = (t.itable ip).inum
  locked : (u.itable ip).locked = (t.itable ip).locked
  valid : (u.itable ip).valid = (t.itable ip).valid
  type : (u.itable ip).type = (t.itable ip).type
  dinode : ∀ i, sb.Inum i → i ≠ (t.itable ip).inum → u.dinode sb i = t.dinode sb i
  content : ∀ i, sb.Inum i → (t.dinode sb i).type ≠ 0 → i ≠ (t.itable ip).inum → u.content sb i = t.content sb i
  ftable : u.ftable = t.ftable
  ofile : u.ofile = t.ofile
  cwd : u.cwd = t.cwd

variable {sb : Superblock} {s t u : State} {ip jp dp : Ip} {counted : Prop} {i j cost cost' top : Nat} {paid : List Nat}
variable {base held : List Hold} {f : Bool}

theorem Rewritten.core (hu : Rewritten sb ip t u) (hip : t.InCore ip) : u.InCore ip :=
  ⟨hu.ref ▸ hip.1, hu.valid.trans hip.2⟩

/-- What is written of an inode that is held. -/
theorem Work.write (h : Work sb s counted base paid cost held t) (hmem : (⟨ip, i, true, f⟩ : Hold) ∈ held)
    (hi : i ∈ paid)
    (hu : Rewritten sb ip t u) (hdir : (t.itable ip).type = T_DIR → IsDir sb (u.content sb i))
    (hlogs : Logs sb counted s.logged paid cost' u) : Work sb s counted base paid cost' held u := by
  have hip := h.inCore hmem rfl
  have hn : (t.itable ip).inum = i := (h.names hmem).2
  have hdisk : ∀ v : State, v.Wf sb → v.InCore ip → (v.itable ip).inum = i →
    (v.dinode sb i).type = (v.itable ip).type := by
    intro v hv hcore hvn
    have hd := (hv.synced ip hcore.1 hcore.2).1
    rw [hvn] at hd
    rw [← hd]
  have hold := hdisk t h.wf hip hn
  have hnew := hdisk u hu.wf (hu.core hip) (hu.inum.trans hn)
  refine h.step hi hu.wf (fun j hj hji => hu.dinode j hj (hn ▸ hji)) (fun j hj ht hji => hu.content j hj ht (hn ▸ hji))
    (fun _ ht => hdir ?_) (h.table.congr fun jp => ?_) (fun _ hg => hg) (fun _ _ _ _ => ?_) hlogs hu.ftable hu.ofile
    hu.cwd
  · rw [← hu.type, ← hnew, ht]
  · by_cases hj : jp = ip
    · rw [hj]
      exact ⟨hu.ref, hu.inum, hu.locked, hu.valid⟩
    · rw [hu.table, Function.update_of_ne hj]
      exact ⟨rfl, rfl, rfl, rfl⟩
  · rw [hnew, hold, hu.type]

/-! ## The fields of an inode -/

/-- Only the links and the device numbers change. -/
def Relinks (f : Inode → Inode) : Prop := ∀ e, ∃ major minor nlink, f e = { e with
  major := major
  minor := minor
  nlink := nlink }

theorem change_eq (f : Inode → Inode) (t : State) :
    change sb ip f t = .ok (⟨⟩, (t.setInode ip (f (t.itable ip))).updated sb ip) := rfl

theorem change_rewritten (hsb : sb.Ordered) (h : t.Wf sb) (hip : t.InCore ip) {f : Inode → Inode} (hf : Relinks f) :
    Rewritten sb ip t ((t.setInode ip (f (t.itable ip))).updated sb ip) ∧
      ((t.setInode ip (f (t.itable ip))).updated sb ip).content sb (t.itable ip).inum = t.content sb
      (t.itable ip).inum := by
  obtain ⟨major, minor, nlink, hfe⟩ := hf (t.itable ip)
  obtain ⟨v, hv⟩ : ∃ v, t.setInode ip (f (t.itable ip)) = v := ⟨_, rfl⟩
  have hself : v.itable ip = { t.itable ip with
      major := major
      minor := minor
      nlink := nlink } := by rw [← hv, setInode_self, hfe]
  have hblocks : v.blocks = t.blocks := by rw [← hv]; rfl
  rw [hv]
  have hlocal : Local sb (t.addrs sb) ip t v := by
    refine ⟨?_, fun i _ => dinode_congr sb (by rw [hblocks]), ?_, fun i _ k => by rw [hblocks],
      fun i _ k _ => by rw [hblocks]⟩
    · rw [hself, ← hv, hfe]
      rfl
    · have haddrs : v.withIp ip (t.addrs sb) = t.withIp ip (t.addrs sb) := by
        unfold State.withIp
        rw [hself]
      rw [haddrs]
      exact (h.own_ip hip).congr (fun _ _ => by rw [hblocks]) fun _ _ => bit_congr sb (by rw [hblocks])
  have htype : (v.itable ip).type ≠ 0 := by
    rw [hself]
    exact (h.synced ip hip.1 hip.2).2
  have hwhole : Whole v.blocks (v.itable ip).toDinode := by
    rw [hself, hblocks]
    exact h.whole_ip hip
  have hnum : (v.itable ip).inum = (t.itable ip).inum := hlocal.inum
  refine ⟨
    { wf := Local.wf hsb h hip hlocal rfl (Function.update_eq_self ip v.itable).symm hnum (fun _ => ⟨rfl, htype⟩)
        (fun _ => hwhole) fun h0 => absurd h0 htype
      table := ?_
      ref := by rw [updated_itable, hself]
      inum := by rw [updated_itable, hself]
      locked := by rw [updated_itable, hself]
      valid := by rw [updated_itable, hself]
      type := by rw [updated_itable, hself]
      dinode := fun j hj hne => hlocal.dinode_of_ne rfl hj hne
      content := fun j hj ht hne => (hlocal.content hsb h hip rfl hj ht hne).2
      ftable := by rw [← hv]; rfl
      ofile := by rw [← hv]; rfl
      cwd := by rw [← hv]; rfl }, ?_⟩
  · rw [updated_itable, ← hv]
    show Function.update t.itable ip _ = _
    rw [setInode_self]
  · have hui : sb.Inum (v.itable ip).inum := hnum ▸ h.inum ip hip.1 hip.2
    have hdin : (v.updated sb ip).dinode sb (t.itable ip).inum = (v.itable ip).toDinode := by
      rw [updated_dinode, if_pos hnum.symm]
    unfold State.content
    rw [hdin, ← (h.synced ip hip.1 hip.2).1, hself]
    refine bytesOf_congr (fun k => ?_) fun p hp => ?_
    · refine slotAddr_congr (fun hne => ?_) k
      rw [updated_data hsb hui, hblocks]
      rw [← slot_last] at hne ⊢
      exact ((h.own_ip hip).used_ip hne).1
    · rw [updated_data hsb hui, hblocks]
      exact ((h.own_ip hip).used_ip ((h.whole_ip hip).2 p hp)).1

theorem Truncated.rewritten (ht : Truncated sb ip t u) : Rewritten sb ip t u where
  wf := ht.wf
  table := by rw [ht.table, Function.update_self]
  ref := by rw [ht.table, Function.update_self]
  inum := by rw [ht.table, Function.update_self]
  locked := by rw [ht.table, Function.update_self]
  valid := by rw [ht.table, Function.update_self]
  type := by rw [ht.table, Function.update_self]
  dinode := ht.dinode
  content := ht.others
  ftable := ht.ftable
  ofile := ht.ofile
  cwd := ht.cwd

theorem isDir_nil : IsDir sb [] := ⟨Nat.dvd_zero _, fun _ hj => absurd hj (Nat.not_lt_zero _)⟩

section

variable (hsb : sb.Ordered)
include hsb

theorem triple_change (hmem : (⟨ip, i, true, f⟩ : Hold) ∈ held) (hi : i ∈ paid) {g : Inode → Inode} (hg : Relinks g) :
    Triple (May sb counted s.logged top) (Work sb s counted base paid cost held) (change sb ip g)
      fun _ => Work sb s counted base paid cost held := by
  intro t h
  have hip := h.inCore hmem rfl
  have hn : (t.itable ip).inum = i := (h.names hmem).2
  obtain ⟨hu, hsame⟩ := change_rewritten hsb h.wf hip hg
  rw [change_eq]
  refine h.write hmem hi hu (fun ht => ?_) ?_
  · rw [← hn, hsame]
    refine h.dirs _ (h.inum hmem) ?_
    rw [← (h.wf.synced ip hip.1 hip.2).1]
    exact ht
  · refine h.logs.within (?_ : _ = [sb.IBLOCK (t.itable ip).inum] ++ t.logged) fun b hb => .inr ⟨i, hi, ?_⟩
    · have hinum := hu.inum
      rw [updated_itable] at hinum
      show sb.IBLOCK ((t.setInode ip _).itable ip).inum :: t.logged = _
      rw [hinum]
      rfl
    · rw [List.mem_singleton.1 hb, hn]

theorem triple_itrunc (hmem : (⟨ip, i, true, f⟩ : Hold) ∈ held) (hi : i ∈ paid) :
    Triple (May sb counted s.logged top) (Work sb s counted base paid cost held) (itrunc sb ip)
      fun _ => Work sb s counted base paid cost held := by
  intro t h
  have hip := h.inCore hmem rfl
  have hn : (t.itable ip).inum = i := (h.names hmem).2
  obtain ⟨u, hok, ht⟩ := itrunc_spec hsb h.wf hip
  rw [hok]
  refine h.write hmem hi ht.rewritten (fun _ => ?_) ?_
  · rw [← hn, ht.content]
    exact isDir_nil
  · obtain ⟨new, hnew, hb⟩ := ht.logged
    exact h.logs.within hnew fun b hmem => (hb b hmem).imp_right fun he => ⟨i, hi, by rw [he, hn]⟩

end

/-! ## `readi` -/

section

variable (hsb : sb.Ordered)
include hsb

theorem triple_readi (hmem : (⟨ip, i, true, f⟩ : Hold) ∈ held) (dst : Dest) (off n : Uint) :
    Triple (May sb counted s.logged top) (Work sb s counted base paid cost held) (readi sb ip dst off n)
      fun _ => Work sb s counted base paid cost held := by
  refine Triple.of_ok fun t h => ?_
  obtain ⟨r, hok, -⟩ := readi_spec hsb h.wf (h.inCore hmem rfl) dst off n
  exact ⟨r, t, hok, h⟩

theorem triple_readDirent (hcost : cost ≤ top) (hmem : (⟨dp, i, true, f⟩ : Hold) ∈ held) (off : Nat) {fail : Panic}
    (hfail : fail ≠ .bfree) : Triple (May sb counted s.logged top) (Work sb s counted base paid cost held)
      (readDirent sb dp off fail) fun _ => Work sb s counted base paid cost held := by
  refine Triple.bind (triple_readi hsb hmem _ _ _) fun r => ?_
  exact Triple.ite (fun _ => fun t h => h.may hcost hfail) fun _ => Triple.pure _ fun _ hu => hu

end

/-! ## `writei` -/

theorem Written.rewritten {src : Source} {off n tot : Nat} (hw : Written sb ip src off n tot t u) :
    Rewritten sb ip t u where
  wf := hw.wf
  table := by
    rw [hw.table]
    simp only [Function.update_self]
  ref := by rw [hw.table, Function.update_self]
  inum := by rw [hw.table, Function.update_self]
  locked := by rw [hw.table, Function.update_self]
  valid := by rw [hw.table, Function.update_self]
  type := by rw [hw.table, Function.update_self]
  dinode := hw.dinode
  content := hw.others
  ftable := hw.ftable
  ofile := hw.ofile
  cwd := hw.cwd

/-- `writei` logs the inode, the blocks it writes to and the indirect block. -/
theorem Work.written {src : Source} {off n tot m : Nat} (h : Work sb s counted base paid cost held t)
    (hmem : (⟨ip, i, true, f⟩ : Hold) ∈ held) (hi : i ∈ paid) (hw : Written sb ip src off n tot t u)
    (hdir : (t.itable ip).type = T_DIR → IsDir sb (u.content sb i)) (hm : off + n ≤ (off / BSIZE + m) * BSIZE) :
    Work sb s counted base paid (cost + (m + 1)) held u := by
  have hn : (t.itable ip).inum = i := (h.names hmem).2
  obtain ⟨new, g, hnew, hb⟩ := hw.logged
  obtain ⟨E, hcard, hE⟩ := touched_card hm
  refine h.write hmem hi hw.rewritten hdir ?_
  refine h.logs.more hnew (E := E.image g) (Finset.card_image_le.trans hcard) fun b hbmem => ?_
  rcases hb b hbmem with hc | he | ⟨k, hk, rfl⟩
  · exact .inl hc
  · exact .inr (.inl ⟨i, hi, by rw [he, hn]⟩)
  · exact .inr (.inr (Finset.mem_image_of_mem g (hE k hk)))

/-- An entry of a directory is written. -/
theorem IsDir.splice {c e : List Byte} {j : Nat} (hc : IsDir sb c) (he : e.length = DIRENT)
    (hinum : deInum e ≠ 0 → sb.Inum (deInum e).toNat) (hj : j ≤ c.length / DIRENT) :
    IsDir sb (splice c (DIRENT * j) e) := by
  obtain ⟨hdvd, hsize⟩ := splice_size hc.1 he hj
  refine ⟨hdvd, fun k hk => ?_⟩
  rw [entryAt_splice he (le_trans (Nat.mul_le_mul_left _ hj) (Nat.mul_div_le _ _))]
  by_cases hkj : k = j
  · rw [if_pos hkj]
    exact hinum
  · rw [if_neg hkj]
    rw [hsize] at hk
    exact hc.2 k (by omega)

/-- A directory that is held can be read. -/
theorem Work.dirSized (h : Work sb s counted base paid cost held t) (hmem : (⟨ip, i, true, f⟩ : Hold) ∈ held)
    (ht : (t.itable ip).type = T_DIR) : DirSized sb ip t ∧ IsDir sb (t.dir sb ip) := by
  have hip := h.inCore hmem rfl
  have hdir : IsDir sb (t.dir sb ip) := by
    refine h.dirs _ (h.wf.inum ip hip.1 hip.2) ?_
    rw [← (h.wf.synced ip hip.1 hip.2).1]
    exact ht
  exact ⟨⟨h.wf, hip, ht, hdir.1⟩, hdir⟩

section

variable (hsb : sb.Ordered)
include hsb

/-- A write to a file. -/
theorem triple_writei (hmem : (⟨ip, i, true, true⟩ : Hold) ∈ held) (hi : i ∈ paid) {src : Source} {off n : Uint}
    {m : Nat}
    (hm : off.toNat + n.toNat ≤ (off.toNat / BSIZE + m) * BSIZE) :
    Triple (May sb counted s.logged top) (Work sb s counted base paid cost held) (writei sb ip src off n)
      fun _ => Work sb s counted base paid (cost + (m + 1)) held := by
  intro t h
  have hip := h.inCore hmem rfl
  by_cases hr : Refused (t.itable ip).size off n
  · rw [writei_refused hr]
    exact h.mono (Nat.le_add_right _ _)
  · obtain ⟨tot, u, hok, hw⟩ := writei_spec hsb h.wf hip src off n hr
    rw [hok]
    refine h.written hmem hi hw (fun ht => absurd ?_ ((h.disk _ (List.mem_append_left _ hmem)).file rfl).2) hm
    have hd := (h.wf.synced ip hip.1 hip.2).1
    rw [(h.names hmem).2] at hd
    rw [← hd]
    exact ht

/-- An entry of a directory is in one block. -/
theorem triple_writeEntry (hmem : (⟨dp, i, true, f⟩ : Hold) ∈ held) (hi : i ∈ paid) {src : Source} {e : List Byte}
    (hsrc : ∀ k, k < DIRENT → src k ≠ none) (he : eitherCopyin src DIRENT = e)
    (hinum : deInum e ≠ 0 → sb.Inum (deInum e).toNat) (hj : DIRENT * j ≤ MAXFILE * BSIZE) :
    Triple (May sb counted s.logged top) (Work sb s counted base paid cost held)
      (writei sb dp src (BitVec.ofNat 32 (DIRENT * j)) (BitVec.ofNat 32 DIRENT))
      fun _ => Work sb s counted base paid (cost + 2) held := by
  intro t h
  have hip := h.inCore hmem rfl
  have hn : (t.itable dp).inum = i := (h.names hmem).2
  have hmax : MAXFILE * BSIZE < 2 ^ 31 := by decide
  have hoff : (BitVec.ofNat 32 (DIRENT * j)).toNat = DIRENT * j := by
    rw [BitVec.toNat_ofNat, Nat.mod_eq_of_lt (by omega)]
  by_cases hr : Refused (t.itable dp).size (BitVec.ofNat 32 (DIRENT * j)) (BitVec.ofNat 32 DIRENT)
  · rw [writei_refused hr]
    exact h.mono (Nat.le_add_right _ _)
  · obtain ⟨tot, u, hok, hw⟩ := writei_spec hsb h.wf hip src _ _ hr
    rw [hok]
    refine h.written hmem hi hw (m := 1) (fun ht => ?_) ?_
    · obtain ⟨hsized, hdir⟩ := h.dirSized hmem ht
      have hlen : (t.itable dp).size.toNat = (t.dir sb dp).length := (length_content h.wf hip).symm
      have hle : j ≤ (t.dir sb dp).length / DIRENT := by
        have hsize : ¬ (t.itable dp).size < BitVec.ofNat 32 (DIRENT * j) := fun hc => hr (.inl hc)
        rw [BitVec.lt_def, hoff, hlen, Nat.not_lt] at hsize
        exact (Nat.le_div_iff_mul_le (by decide)).2 (Nat.mul_comm DIRENT j ▸ hsize)
      obtain ⟨r, v, hok', hent, hres⟩ := writeEntry_spec hsb hsized hsrc he hle
      rw [hok] at hok'
      cases hok'
      have hsame : u.content sb i = u.dir sb dp := by
        unfold State.dir
        rw [hent.inum, hn]
      rw [hsame]
      rcases hres with ⟨-, hnew⟩ | ⟨-, hnew, -, -⟩
      · rw [hnew]
        exact hdir.splice (he ▸ eitherCopyin_take (Nat.le_refl _) hsrc) hinum hle
      · rw [hnew]
        exact hdir
    · rw [hoff]
      show DIRENT * j + 16 ≤ _
      rw [show DIRENT = 16 from rfl, show BSIZE = 1024 from rfl]
      omega

/-- `sys_unlink` zeroes an entry. -/
theorem triple_clearDirent (hmem : (⟨dp, i, true, f⟩ : Hold) ∈ held) (hi : i ∈ paid)
    (hj : DIRENT * j ≤ MAXFILE * BSIZE) :
    Triple (May sb counted s.logged top) (Work sb s counted base paid cost held) (clearDirent sb dp (DIRENT * j))
      fun _ => Work sb s counted base paid (cost + 2) held := by
  have hzero : deInum (List.replicate DIRENT 0) = 0 := by decide
  refine triple_writeEntry hsb hmem hi (kernelSrc_ne_none _) (e := List.replicate DIRENT 0) ?_
    (fun hne => absurd hzero hne) hj
  rw [eitherCopyin_kernelSrc, List.map_const', List.length_range]

end

/-! ## A new inode -/

/-- The content of an inode is in its data blocks. -/
theorem State.Wf.content_congr (h : t.Wf sb) (hi : sb.Inum i) (ht : (t.dinode sb i).type ≠ 0)
    (hdin : u.dinode sb i = t.dinode sb i) (hdata : ∀ b, sb.dataStart ≤ b → u.blocks b = t.blocks b) :
    u.content sb i = t.content sb i := by
  have ha := addrs_of_alloc hi ht
  have hused : ∀ k, slotAddr t.blocks (t.dinode sb i).addrs k ≠ 0 →
      u.blocks (slotAddr t.blocks (t.dinode sb i).addrs k).toNat =
        t.blocks (slotAddr t.blocks (t.dinode sb i).addrs k).toNat := by
    intro k hk
    rw [← ha] at hk ⊢
    exact hdata _ (h.own.used hk).1
  unfold State.content
  rw [hdin]
  refine bytesOf_congr (fun k => slotAddr_congr (fun hk => ?_) k) fun p hp => hused _ ((h.whole i hi ht).2 p hp)
  rw [← slotAddr_indirect t.blocks (t.dinode sb i).addrs] at hk ⊢
  exact hused _ hk

/-- From `t` to `u` the free inode `i` has been set to `d`, which is empty. -/
structure Allocated (sb : Superblock) (i : Nat) (d : Dinode) (t u : State) : Prop where
  blocks : u.blocks = (t.setDinode sb i d).blocks
  itable : u.itable = t.itable
  free : (t.dinode sb i).type = 0
  size : d.size = 0
  addrs : d.addrs = fun _ => 0

variable {d : Dinode}

theorem Allocated.dinode (ha : Allocated sb i d t u) (j : Nat) :
    u.dinode sb j = if j = i then d else t.dinode sb j := by
  rw [← dinode_setDinode]
  exact dinode_congr sb (by rw [ha.blocks])

theorem Allocated.data (ha : Allocated sb i d t u) (hsb : sb.Ordered) (hi : sb.Inum i) {b : Nat}
    (hb : sb.bmapstart.toNat ≤ b) :
    u.blocks b = t.blocks b := by
  rw [ha.blocks]
  refine setDinode_of_ne _ fun he => ?_
  have hlt := Superblock.IBLOCK_lt hsb hi.2
  omega

theorem Allocated.wf (ha : Allocated sb i d t u) (hsb : sb.Ordered) (h : t.Wf sb) (hi : sb.Inum i) : u.Wf sb := by
  have hdata : ∀ b, sb.dataStart ≤ b → u.blocks b = t.blocks b := fun b hb =>
    ha.data hsb hi (Nat.le_trans (Nat.le_of_lt (Superblock.bmapstart_lt_dataStart sb)) hb)
  have haddrs : u.addrs sb = t.addrs sb := by
    funext j
    unfold State.addrs
    rw [ha.dinode]
    by_cases hj : j = i
    · subst hj
      rw [if_pos rfl, ha.addrs, ite_self, if_neg fun hc => hc.2 ha.free]
    · rw [if_neg hj]
  have hne : ∀ jp, 0 < (t.itable jp).ref → (t.itable jp).valid = true → (t.itable jp).inum ≠ i := by
    intro jp hr hv hn
    obtain ⟨hd, ht⟩ := h.synced jp hr hv
    rw [hn] at hd
    exact ht (by rw [hd, ha.free])
  refine ⟨?_, fun jp hr hv => ?_, fun jp kp hj hk hn => ?_, fun jp hr hv => ?_, fun j hj ht => ?_⟩
  · rw [haddrs]
    refine h.own.congr (fun j hj => hdata _ ?_) fun b _ =>
      bit_congr sb (ha.data hsb hi (Superblock.bmapstart_le_BBLOCK b))
    rw [← slotAddr_indirect t.blocks (t.addrs sb j)] at hj ⊢
    exact (h.own.used hj).1
  · rw [ha.itable] at hr hv ⊢
    exact h.inum jp hr hv
  · rw [ha.itable] at hj hk hn
    exact h.uniq jp kp hj hk hn
  · rw [ha.itable] at hr hv ⊢
    rw [ha.dinode, if_neg (hne jp hr hv)]
    exact h.synced jp hr hv
  · rw [ha.dinode] at ht ⊢
    by_cases hji : j = i
    · rw [if_pos hji]
      exact whole_empty _ ha.size
    · rw [if_neg hji] at ht ⊢
      refine (h.whole j hj ht).congr fun k => slotAddr_congr (fun hk => hdata _ ?_) k
      rw [← addrs_of_alloc hj ht] at hk ⊢
      rw [← slotAddr_indirect t.blocks (t.addrs sb j)] at hk ⊢
      exact (h.own.used hk).1

/-- A new inode is held by nobody. -/
theorem Work.allocated (h : Work sb s counted base paid cost held t) (hsb : sb.Ordered) (hi : sb.Inum i)
    (hpaid : i ∈ paid)
    (ha : Allocated sb i d t u) (hlog : u.logged = sb.IBLOCK i :: t.logged) (hftable : u.ftable = t.ftable)
    (hofile : u.ofile = t.ofile) (hcwd : u.cwd = t.cwd) : Work sb s counted base paid cost held u := by
  have hdata : ∀ b, sb.dataStart ≤ b → u.blocks b = t.blocks b := fun b hb =>
    ha.data hsb hi (Nat.le_trans (Nat.le_of_lt (Superblock.bmapstart_lt_dataStart sb)) hb)
  have hdin : ∀ j, sb.Inum j → j ≠ i → u.dinode sb j = t.dinode sb j := fun j _ hji => by rw [ha.dinode, if_neg hji]
  refine h.step hpaid (ha.wf hsb h.wf hi) hdin (fun j hj ht hji => h.wf.content_congr hj ht (hdin j hj hji) hdata)
    (fun _ _ => ?_) (h.table.congr fun jp => ?_) (fun _ hg => hg) (fun g hg hgi hfile => ?_) ?_ hftable hofile hcwd
  · have hnil : u.content sb i = [] := by
      unfold State.content bytesOf
      rw [ha.dinode, if_pos rfl, ha.size]
      rfl
    rw [hnil]
    exact isDir_nil
  · rw [ha.itable]
    exact ⟨rfl, rfl, rfl, rfl⟩
  · have hfree := ((h.disk g hg).file hfile).1
    rw [hgi] at hfree
    exact absurd ha.free hfree
  · have hnew : u.logged = [sb.IBLOCK i] ++ t.logged := hlog
    exact h.logs.within hnew fun b hb => .inr ⟨i, hpaid, List.mem_singleton.1 hb⟩

theorem triple_ialloc (hsb : sb.Ordered) (hcost : cost + 1 ≤ top) {type : BitVec 16} (htype : type ≠ 0) :
    Triple (May sb counted s.logged top) (Work sb s counted base paid cost held) (ialloc sb type)
      (Cases (Work sb s counted base paid cost held) fun ip t =>
        ∃ i, Work sb s counted base (i :: paid) (cost + 1) (⟨ip, i, false, decide (type ≠ T_DIR)⟩ :: held) t) := by
  intro t h
  unfold ialloc
  rw [bind_of_ok (a := t) (t := t) rfl]
  cases hfind : (List.range' 1 (sb.ninodes.toNat - 1)).find? fun i => decide ((t.dinode sb i).type = 0) with
  | none => exact h
  | some i =>
      have hmem := List.mem_range'_1.1 (List.mem_of_find?_eq_some hfind)
      have hfree := List.find?_some hfind
      have hi : sb.Inum i := ⟨hmem.1, by omega⟩
      obtain ⟨u, hu⟩ : ∃ u : State, { t.setDinode sb i ⟨type, 0, 0, 0, 0, fun _ => 0⟩ with
        logged := sb.IBLOCK i :: t.logged } = u := ⟨_, rfl⟩
      have ha : Allocated sb i ⟨type, 0, 0, 0, 0, fun _ => 0⟩ t u := by
        rw [← hu]
        exact ⟨rfl, rfl, of_decide_eq_true hfree, rfl, rfl⟩
      have hw : Work sb s counted base (i :: paid) (cost + 1) held u :=
        (h.pay i).allocated hsb hi List.mem_cons_self ha (by rw [← hu]) (by rw [← hu]; rfl) (by rw [← hu]; rfl)
          (by rw [← hu]; rfl)
      have hrun : (do
          set (t.setDinode sb i ⟨type, 0, 0, 0, 0, fun _ => 0⟩)
          logWrite (sb.IBLOCK i)
          let ip ← iget i
          pure (some ip) : K (Option Ip)) t = (do
          let ip ← iget i
          pure (some ip) : K (Option Ip)) u := by
        rw [← hu]
        rfl
      simp only
      rw [hrun]
      rcases iget_cases u i with ⟨hpanic, -⟩ | ⟨ip, v, hok, hg⟩
      · rw [bind_of_error _ hpanic]
        exact hw.may hcost (by decide)
      · rw [bind_of_ok hok]
        refine ⟨i, hw.got hg hi fun hf => ?_⟩
        have hdin : (u.dinode sb i).type = type := by rw [ha.dinode, if_pos rfl]
        rw [hdin]
        exact ⟨htype, of_decide_eq_true hf⟩

/-! ## Directories -/

variable {name : Buf}

theorem dirlookup_not_dir (h : (t.itable dp).type ≠ T_DIR) (name : Buf) :
    dirlookup sb dp name t = .error (.dirlookupNotDir, t) := by
  unfold dirlookup
  refine (bind_of_ok (a := t) (t := t) rfl).trans ?_
  rw [if_pos h]
  rfl

/-- The number that is entered is cut to 16 bits. -/
theorem inum_dirent (hj : sb.Inum j) (name : Buf) (h : deInum (dirent (BitVec.ofNat 16 j) name) ≠ 0) :
    sb.Inum (deInum (dirent (BitVec.ofNat 16 j) name)).toNat := by
  have hinum : deInum (dirent (BitVec.ofNat 16 j) name) = BitVec.ofNat 16 j := deInum_dirent _ _
  rw [hinum] at h ⊢
  refine ⟨Nat.pos_of_ne_zero fun h0 => h (BitVec.eq_of_toNat_eq h0), ?_⟩
  rw [BitVec.toNat_ofNat]
  exact Nat.lt_of_le_of_lt (Nat.mod_le _ _) hj.2

/-- An entry that is found names an inode. -/
theorem IsDir.inum {c : List Byte} {key : List Byte} {v : BitVec 16} (hc : IsDir sb c) (hj : j < c.length / DIRENT)
    (hslot : dirSlot c j = some (key, v)) : sb.Inum v.toNat := by
  unfold dirSlot binding at hslot
  by_cases h0 : deInum (entryAt c j) = 0
  · rw [if_pos h0] at hslot
    cases hslot
  · rw [if_neg h0, Option.some.injEq, Prod.mk.injEq] at hslot
    rw [← hslot.2]
    exact hc.2 j hj h0

section

variable (hsb : sb.Ordered)
include hsb

/-- The inode that is found is held as well. -/
theorem triple_dirlookup (hcost : cost ≤ top) (hmem : (⟨dp, i, true, f⟩ : Hold) ∈ held) :
    Triple (May sb counted s.logged top) (Work sb s counted base paid cost held) (dirlookup sb dp name)
      (Cases (fun t => Work sb s counted base paid cost held t ∧ dirlookup sb dp name t = .ok (none, t)) fun r t =>
        (∃ j, r.2 = DIRENT * j ∧ DIRENT * j ≤ MAXFILE * BSIZE) ∧
          ∃ i, Work sb s counted base paid cost (⟨r.1, i, false, false⟩ :: held) t) := by
  intro t h
  by_cases ht : (t.itable dp).type = T_DIR
  · obtain ⟨hsized, hdir⟩ := h.dirSized hmem ht
    have hrun := dirlookup_eq hsb hsized name
    cases hl : lookup (dirSlot (t.dir sb dp)) ((t.dir sb dp).length / DIRENT) (dirKey name) with
    | none =>
        rw [hl] at hrun
        rw [hrun]
        exact ⟨h, hrun⟩
    | some p =>
        obtain ⟨j, inum⟩ := p
        obtain ⟨hj, hslot⟩ := slot_of_lookup hl
        have hi : sb.Inum inum.toNat := hdir.inum hj hslot
        have hle : DIRENT * j ≤ MAXFILE * BSIZE :=
          (Nat.mul_le_mul_left _ (Nat.le_of_lt hj)).trans ((Nat.mul_div_le _ _).trans hsized.le_max)
        rw [hrun, hl]
        exact Triple.bind (triple_iget hcost hi) (fun ip => Triple.pure _ fun u hu => ⟨⟨j, rfl, hle⟩, _, hu⟩) t h
  · rw [dirlookup_not_dir ht]
    exact h.may hcost (by decide)

/-- The name is there and its inode is given back, or an entry is written. -/
theorem triple_dirlink (hcost : cost + 2 ≤ top) (hmem : (⟨dp, i, true, f⟩ : Hold) ∈ held) (hi : i ∈ paid)
    (hj : sb.Inum j) :
    Triple (May sb counted s.logged top) (Work sb s counted base paid cost held) (dirlink sb dp name j)
      fun _ => Work sb s counted base paid (cost + 2) held := by
  have hcost' : cost ≤ top := (Nat.le_add_right _ _).trans hcost
  refine Triple.bind (triple_dirlookup hsb hcost' hmem) fun r => ?_
  cases r with
  | some r =>
      refine fun t ht => Triple.bind (triple_iput hsb hcost') (fun _ => Triple.pure _ fun u hu => ?_) t ht.2.choose_spec
      exact hu.mono (Nat.le_add_right _ _)
  | none =>
      rintro t ⟨h, hrun⟩
      have ht : (t.itable dp).type = T_DIR := by
        by_contra hne
        rw [dirlookup_not_dir hne] at hrun
        cases hrun
      obtain ⟨hsized, -⟩ := h.dirSized hmem ht
      have hde := length_dirent (BitVec.ofNat 16 j) name
      have hcopy : eitherCopyin (kernelSrc fun k => (dirent (BitVec.ofNat 16 j) name).getD k 0) DIRENT =
          dirent (BitVec.ofNat 16 j) name := by
        rw [eitherCopyin_kernelSrc, ← hde, map_getD_range]
      have hle : DIRENT * slotFor (t.dir sb dp) ≤ MAXFILE * BSIZE :=
        (Nat.mul_le_mul_left _ (slotFor_spec _).1).trans ((Nat.mul_div_le _ _).trans hsized.le_max)
      have hcont := dirlink_absent hsb hsized name j hrun
      unfold dirlink at hcont
      rw [bind_of_ok hrun] at hcont
      rw [hcont]
      refine Triple.bind (triple_writeEntry hsb hmem hi (kernelSrc_ne_none _) hcopy (inum_dirent hj name) hle)
        (fun r => ?_)
        t h
      exact Triple.ite (fun _ => Triple.pure _ fun _ hu => hu) fun _ => Triple.pure _ fun _ hu => hu

/-! ## Paths -/

/-- A reference to the inode that is returned, if one is. -/
def Holding (sb : Superblock) (s : State) (counted : Prop) (base : List Hold) (paid : List Nat) (cost : Nat)
    (held : List Hold) :
    Option Ip → State → Prop :=
  Cases (Work sb s counted base paid cost held) fun ip t => ∃ i f,
    Work sb s counted base paid cost (⟨ip, i, false, f⟩ :: held) t

theorem triple_namexLoop (hcost : cost ≤ top) (nip : Bool) (path : Path) (name : Buf) :
    Triple (May sb counted s.logged top) (Work sb s counted base paid cost (⟨ip, i, false, f⟩ :: held))
    (namexLoop sb nip path ip name)
      fun r => Holding sb s counted base paid cost held r.1 := by
  -- the path gets shorter with each name
  induction hlen : path.length using Nat.strong_induction_on generalizing path name ip i f with
  | _ n ih =>
      subst hlen
      cases hskip : skipelem path name with
      | none =>
          rw [namexLoop_none hskip]
          refine Triple.ite (fun _ => ?_) fun _ => Triple.pure _ fun u hu => ⟨i, f, hu⟩
          exact Triple.bind (triple_iput hsb hcost) fun _ => Triple.pure _ fun u hu => hu
      | some p =>
          obtain ⟨rest, name'⟩ := p
          rw [namexLoop_some hskip]
          refine Triple.bind (triple_ilock hcost) fun _ => Triple.look fun t _ => ?_
          refine Triple.ite (fun _ => ?_) fun _ => Triple.ite (fun _ => ?_) fun _ => ?_
          · exact Triple.bind (triple_iunlockput hsb hcost) fun _ => Triple.pure _ fun u hu => hu
          · exact Triple.bind triple_iunlock fun _ => Triple.pure _ fun u hu => ⟨i, f, hu⟩
          · refine Triple.bind (triple_dirlookup hsb hcost List.mem_cons_self) fun r => ?_
            cases r with
            | none =>
                refine Triple.conseq ?_ (fun u hu => hu.1) fun _ _ h => h
                exact Triple.bind (triple_iunlockput hsb hcost) fun _ => Triple.pure _ fun u hu => hu
            | some r =>
                rintro u ⟨-, j, hu⟩
                refine Triple.bind (triple_iunlockput hsb hcost) (fun _ => ?_) u hu.swap
                exact ih rest.length (length_skipelem hskip) rest name' rfl

/-- A path starts at the root or at the current directory. -/
theorem triple_namex (hcost : cost ≤ top) (hroot : sb.Inum ROOTINO) (hcwd : ∃ g ∈ base, g.ip = s.cwd) (path : Path)
    (nip : Bool) (name : Buf) : Triple (May sb counted s.logged top) (Work sb s counted base paid cost held)
    (namex sb path nip name)
      fun r => Holding sb s counted base paid cost held r.1 := by
  have hstart : Triple (May sb counted s.logged top) (Work sb s counted base paid cost held) (do
      let s ← get
      if path.head? = some slash then iget ROOTINO else idup s.cwd : K Ip)
      fun ip t => ∃ i f, Work sb s counted base paid cost (⟨ip, i, false, f⟩ :: held) t := by
    refine Triple.look fun t ht => Triple.ite (fun _ => ?_) fun _ => ?_
    · exact (triple_iget hcost hroot).conseq (fun _ hs => hs) fun ip u hu => ⟨_, _, hu⟩
    · obtain ⟨g, hg, hgip⟩ := hcwd
      rw [ht.cwd, ← hgip]
      refine Triple.of_ok fun u hu => ?_
      obtain ⟨v, hok, hv⟩ := hu.idup (List.mem_append_right held hg)
      exact ⟨g.ip, v, hok, _, _, hv⟩
  have hrun : namex sb path nip name = ((do
      let s ← get
      if path.head? = some slash then iget ROOTINO else idup s.cwd : K Ip) >>= fun ip =>
        namexLoop sb nip path ip name) := rfl
  rw [hrun]
  refine Triple.bind hstart fun ip => ?_
  exact Triple.exists fun i => Triple.exists fun f => triple_namexLoop hsb hcost nip path name

theorem triple_namei (hcost : cost ≤ top) (hroot : sb.Inum ROOTINO) (hcwd : ∃ g ∈ base, g.ip = s.cwd) (path : Path)
    (name : Buf) : Triple (May sb counted s.logged top) (Work sb s counted base paid cost held) (namei sb path name)
      (Holding sb s counted base paid cost held) :=
  Triple.bind (triple_namex hsb hcost hroot hcwd path false name) fun _ => Triple.pure _ fun _ hu => hu

end

end Xv6.Blocks
