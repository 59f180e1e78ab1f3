import Xv6.Lib.Tally
import Xv6.Blocks.DirMap

set_option autoImplicit false

/-! # References to inodes

While a system call looks names up it holds references to some inodes and at most one lock. What it holds
it has got from `iget`, and gives back with `iput`. -/

namespace Xv6.Blocks

open Xv6.Lib
open Xv6.Fs (NINODE NFILE NDEV ROOTINO DIRSIZ MAXFILE Ip)

/-- The references to inode `i` in a table entry. -/
def Inode.refs (e : Inode) (i : Nat) : Nat := if e.inum = i then e.ref else 0

/-- The references to inode `i`. -/
@[irreducible] def State.refs (s : State) (i : Nat) : Nat := ∑ ip, (s.itable ip).refs i

/-- `ip` is a table entry of inode `i`. -/
def State.Names (s : State) (ip : Ip) (i : Nat) : Prop := 0 < (s.itable ip).ref ∧ (s.itable ip).inum = i

/-- Inode `i` is allocated, and is not freed with the next `iput` of a reference that was taken after `s`. -/
def Anchored (sb : Superblock) (s : State) (i : Nat) : Prop :=
  sb.Inum i ∧ (s.dinode sb i).type ≠ 0 ∧ ((s.dinode sb i).nlink ≠ 0 ∨ 0 < s.refs i)

/-- Since `s` the references `held` have been taken and the lock of `lock`, and nothing was written. -/
structure Borrowed (sb : Superblock) (held : List Nat) (lock : Option Ip) (s t : State) : Prop where
  frame : ∃ table, t = { s with itable := table }
  wf : t.Wf sb
  locked : ∀ jp, (t.itable jp).locked = decide (lock = some jp)
  refs : ∀ i, t.refs i = s.refs i + held.count i

variable {sb : Superblock} {s t u : State} {ip jp : Ip} {i j : Nat} {held held' : List Nat} {lock : Option Ip}

/-- One entry of the table changes. -/
theorem refs_update {e : Inode} (h : t.itable = Function.update s.itable ip e) (i : Nat) :
    t.refs i + (s.itable ip).refs i = s.refs i + e.refs i := by
  have hsum := sum_update_add (Finset.mem_univ ip) s.itable (fun e : Inode => e.refs i) e
  unfold State.refs
  rw [h]
  exact hsum

theorem refs_setInode (s : State) (ip : Ip) (e : Inode) (i : Nat) :
    (s.setInode ip e).refs i + (s.itable ip).refs i = s.refs i + e.refs i := refs_update rfl i

/-- An inode is in one entry, which counts its references. -/
theorem State.Names.refs (h : s.Names ip i) (hs : s.Wf sb) : s.refs i = (s.itable ip).ref := by
  have hself : (s.itable ip).refs i = (s.itable ip).ref := if_pos h.2
  rw [← hself]
  unfold State.refs
  refine Finset.sum_eq_single ip (fun jp _ hj => ?_) fun hn => absurd (Finset.mem_univ ip) hn
  unfold Inode.refs
  by_cases hn : (s.itable jp).inum = i
  · rw [if_pos hn]
    by_contra hr
    exact hj (hs.uniq jp ip (Nat.pos_of_ne_zero hr) h.1 (hn.trans h.2.symm))
  · exact if_neg hn

theorem Borrowed.refl (h : s.Wf sb) (hs : ∀ jp, (s.itable jp).locked = false) : Borrowed sb [] none s s := by
  refine ⟨⟨s.itable, rfl⟩, h, fun jp => ?_, fun i => by rw [List.count_nil, Nat.add_zero]⟩
  rw [hs]
  rfl

theorem Borrowed.perm (h : Borrowed sb held lock s t) (hp : held.Perm held') : Borrowed sb held' lock s t :=
  ⟨h.frame, h.wf, h.locked, fun i => (h.refs i).trans (by rw [hp.count_eq])⟩

theorem Borrowed.blocks (h : Borrowed sb held lock s t) : t.blocks = s.blocks := by
  obtain ⟨table, rfl⟩ := h.frame
  rfl

theorem Borrowed.dinode (h : Borrowed sb held lock s t) (i : Nat) : t.dinode sb i = s.dinode sb i :=
  dinode_congr sb (by rw [h.blocks])

theorem Borrowed.content (h : Borrowed sb held lock s t) (i : Nat) : t.content sb i = s.content sb i := by
  unfold State.content
  rw [h.dinode, h.blocks]

/-- Only a table entry changes. -/
theorem Borrowed.setInode {e : Inode} (h : Borrowed sb held lock s t) {lock' : Option Ip}
    (hwf : (t.setInode ip e).Wf sb) (hself : e.locked = decide (lock' = some ip))
    (hother : ∀ jp, jp ≠ ip → decide (lock = some jp) = decide (lock' = some jp))
    (hrefs : ∀ i, e.refs i + held.count i = (t.itable ip).refs i + held'.count i) :
    Borrowed sb held' lock' s (t.setInode ip e) := by
  refine ⟨?_, hwf, fun jp => ?_, fun i => ?_⟩
  · obtain ⟨table, rfl⟩ := h.frame
    exact ⟨_, rfl⟩
  · by_cases hj : jp = ip
    · rw [hj, setInode_self, hself]
    · rw [setInode_of_ne _ hj, h.locked, hother jp hj]
  · have hset := refs_setInode t ip e i
    have hold := h.refs i
    have hnew := hrefs i
    omega

/-! ## Looking up -/

/-- One reference more to inode `n`. -/
theorem Got.refs {n : Nat} (hg : Got n ip t u) (i : Nat) : u.refs i = t.refs i + if n = i then 1 else 0 := by
  have hset := refs_setInode t ip (u.itable ip) i
  rw [← hg.frame] at hset
  unfold Inode.refs at hset
  rw [hg.num] at hset
  by_cases hi : n = i
  · rw [if_pos hi] at hset ⊢
    rcases hg.entry with ⟨-, hn, he⟩ | ⟨h0, -, h1, -⟩
    · have href : (u.itable ip).ref = (t.itable ip).ref + 1 := congrArg Inode.ref he
      rw [if_pos (hn.trans hi), href] at hset
      omega
    · rw [h1, h0, ite_self] at hset
      exact hset
  · rw [if_neg hi] at hset ⊢
    rcases hg.entry with ⟨-, hn, -⟩ | ⟨h0, -⟩
    · rw [if_neg fun hc => hi (hn.symm.trans hc)] at hset
      omega
    · rw [h0, ite_self] at hset
      omega

theorem Borrowed.got {n : Nat} (h : Borrowed sb held lock s t) (hg : Got n ip t u) : Borrowed sb (n :: held) lock s u := by
  refine ⟨?_, hg.wf h.wf, fun jp => ?_, fun i => ?_⟩
  · obtain ⟨table, rfl⟩ := h.frame
    exact ⟨_, hg.frame⟩
  · by_cases hj : jp = ip
    · rw [hj, hg.locked, h.locked]
    · rw [hg.others jp hj, h.locked]
  · rw [hg.refs, h.refs, List.count_cons, Nat.add_assoc]
    congr 2
    exact if_congr beq_iff_eq.symm rfl rfl

theorem Got.names {n : Nat} (hg : Got n ip t u) : u.Names ip n := ⟨hg.ref, hg.num⟩

theorem Got.keeps {n : Nat} (hg : Got n ip t u) (hn : t.Names jp j) : u.Names jp j := by
  unfold State.Names
  by_cases hj : jp = ip
  · subst hj
    rcases hg.entry with ⟨-, -, he⟩ | ⟨h0, -⟩
    · rw [he]
      exact ⟨Nat.succ_pos _, hn.2⟩
    · exact absurd h0 (Nat.pos_iff_ne_zero.1 hn.1)
  · rw [hg.others jp hj]
    exact hn

/-- A change of an entry that keeps its inode and its references. -/
theorem State.Names.setInode {e : Inode} (hn : t.Names jp j) (href : e.ref = (t.itable ip).ref)
    (hinum : e.inum = (t.itable ip).inum) : (t.setInode ip e).Names jp j := by
  unfold State.Names
  by_cases hj : jp = ip
  · subst hj
    rw [setInode_self, href, hinum]
    exact hn
  · rw [setInode_of_ne _ hj]
    exact hn

/-- `idup` does what `iget` does with an inode that is in the table. -/
theorem idup_got (hn : t.Names ip i) : ∃ u, idup ip t = .ok (ip, u) ∧ Got i ip t u := by
  refine ⟨t.setInode ip { t.itable ip with ref := (t.itable ip).ref + 1 }, rfl, rfl, fun jp hj => setInode_of_ne _ hj,
    ?_, ?_, ?_, ?_, .inl ⟨hn.1, hn.2, setInode_self _ _⟩⟩ <;>
    rw [setInode_self]
  · exact Nat.succ_pos _
  · exact hn.2

/-! ## Locking -/

theorem ilock_run (href : 0 < (t.itable ip).ref) (hfree : (t.itable ip).locked = false)
    (htype : (t.dinode sb (t.itable ip).inum).type ≠ 0)
    (hsync : (t.itable ip).valid = true → (t.itable ip).toDinode = t.dinode sb (t.itable ip).inum) :
    ilock sb ip t = .ok (⟨⟩, t.setInode ip { t.itable ip with
      toDinode := t.dinode sb (t.itable ip).inum
      locked := true
      valid := true }) := by
  unfold ilock
  refine (bind_of_ok (a := t) (t := t) rfl).trans ?_
  rw [if_neg (Nat.not_lt.2 href), bind_of_ok (acquiresleep_eq t ip hfree)]
  refine (bind_of_ok (a := t.setInode ip _) (t := t.setInode ip _) rfl).trans ?_
  rw [setInode_self]
  by_cases hv : (t.itable ip).valid = true
  · rw [if_pos hv, ← hsync hv, ← hv]
    rfl
  · rw [if_neg hv]
    simp only
    rw [setInode_setInode, setInode_dinode, if_neg htype]
    rfl

theorem ilock_no_type (href : 0 < (t.itable ip).ref) (hfree : (t.itable ip).locked = false)
    (hv : (t.itable ip).valid = false) (htype : (t.dinode sb (t.itable ip).inum).type = 0) :
    ∃ u, ilock sb ip t = .error (.ilockNoType, u) ∧ u.logged = t.logged := by
  refine ⟨(t.setInode ip { t.itable ip with locked := true }).setInode ip { t.itable ip with
    toDinode := t.dinode sb (t.itable ip).inum
    locked := true
    valid := true }, ?_, rfl⟩
  unfold ilock
  refine (bind_of_ok (a := t) (t := t) rfl).trans ?_
  rw [if_neg (Nat.not_lt.2 href), bind_of_ok (acquiresleep_eq t ip hfree)]
  refine (bind_of_ok (a := t.setInode ip _) (t := t.setInode ip _) rfl).trans ?_
  rw [setInode_self, hv, if_neg Bool.false_ne_true]
  simp only
  rw [setInode_dinode, if_pos htype]
  rfl

/-- The table keeps the inode of every entry, and what is valid is what is on the disk. -/
theorem State.Wf.setInode {e : Inode} (h : t.Wf sb) (hinum : e.inum = (t.itable ip).inum)
    (href : 0 < e.ref → 0 < (t.itable ip).ref)
    (hvalid : 0 < e.ref → e.valid = true → sb.Inum e.inum ∧ e.toDinode = t.dinode sb e.inum ∧ e.type ≠ 0) :
    (t.setInode ip e).Wf sb := by
  have hall : ∀ kp, ((t.setInode ip e).itable kp).inum = (t.itable kp).inum ∧
      (0 < ((t.setInode ip e).itable kp).ref → 0 < (t.itable kp).ref) := by
    intro kp
    by_cases hk : kp = ip
    · rw [hk, setInode_self]
      exact ⟨hinum, href⟩
    · rw [setInode_of_ne _ hk]
      exact ⟨rfl, id⟩
  refine h.of_table rfl (fun kp hr hv => ?_) fun kp lp hk hl he => ?_
  · by_cases hk : kp = ip
    · rw [hk, setInode_self] at hr hv ⊢
      exact hvalid hr hv
    · rw [setInode_of_ne _ hk] at hr hv ⊢
      exact ⟨h.inum kp hr hv, h.synced kp hr hv⟩
  · rw [(hall kp).1, (hall lp).1] at he
    exact h.uniq kp lp ((hall kp).2 hk) ((hall lp).2 hl) he

/-- An entry that only changes its lock or its count. -/
theorem State.Wf.relabel {e : Inode} (h : t.Wf sb) (hinum : e.inum = (t.itable ip).inum)
    (href : 0 < e.ref → 0 < (t.itable ip).ref) (hvalid : e.valid = (t.itable ip).valid)
    (hd : e.toDinode = (t.itable ip).toDinode) : (t.setInode ip e).Wf sb := by
  refine h.setInode hinum href fun hr hv => ?_
  rw [hvalid] at hv
  rw [hinum, hd]
  exact ⟨h.inum ip (href hr) hv, h.synced ip (href hr) hv⟩

/-- `ilock` reads the inode. -/
theorem Borrowed.ilock (h : Borrowed sb held none s t) (hn : t.Names ip i) (hi : Anchored sb s i) :
    ∃ u, Blocks.ilock sb ip t = .ok (⟨⟩, u) ∧ Borrowed sb held (some ip) s u ∧ u.InCore ip ∧
      (u.itable ip).toDinode = s.dinode sb i ∧ ∀ jp j, t.Names jp j → u.Names jp j := by
  have hdin : t.dinode sb (t.itable ip).inum = s.dinode sb i := by rw [hn.2, h.dinode]
  have htype : (t.dinode sb (t.itable ip).inum).type ≠ 0 := by
    rw [hdin]
    exact hi.2.1
  have hlock := ilock_run hn.1 (h.locked ip) htype fun hv => (h.wf.synced ip hn.1 hv).1
  rw [hdin] at hlock
  have hwf : (t.setInode ip { t.itable ip with
      toDinode := s.dinode sb i
      locked := true
      valid := true }).Wf sb := by
    refine h.wf.setInode rfl id fun _ _ => ?_
    rw [hdin]
    exact ⟨by rw [hn.2]; exact hi.1, rfl, hi.2.1⟩
  refine ⟨_, hlock, h.setInode hwf (by simp) (fun jp hj => ?_) (fun _ => rfl), ?_, by rw [setInode_self], fun jp j hj =>
    hj.setInode rfl rfl⟩
  · simp [Ne.symm hj]
  · unfold State.InCore
    rw [setInode_self]
    exact ⟨hn.1, rfl⟩

theorem Borrowed.iunlock (h : Borrowed sb held (some ip) s t) (hn : t.Names ip i) :
    ∃ u, Blocks.iunlock ip t = .ok (⟨⟩, u) ∧ Borrowed sb held none s u ∧ ∀ jp j, t.Names jp j → u.Names jp j := by
  have hlocked : (t.itable ip).locked = true := by
    rw [h.locked]
    simp
  refine ⟨_, iunlock_eq hlocked hn.1, h.setInode (h.wf.relabel rfl id rfl rfl) rfl (fun jp hj => ?_) fun _ => rfl,
    fun jp j hj => hj.setInode rfl rfl⟩
  simp [Ne.symm hj]

/-- `iput` gives back a reference; others keep theirs. -/
theorem Borrowed.iput (h : Borrowed sb (i :: held) none s t) (hn : t.Names ip i) (hi : Anchored sb s i) :
    ∃ u, Blocks.iput sb ip t = .ok (⟨⟩, u) ∧ Borrowed sb held none s u ∧
      ∀ jp j, t.Names jp j → j ∈ held → u.Names jp j := by
  have hcount : (t.itable ip).ref = s.refs i + (held.count i + 1) := by
    rw [← hn.refs h.wf, h.refs, List.count_cons_self]
  have hkept : ¬ ((t.itable ip).ref = 1 ∧ (t.itable ip).valid = true ∧ (t.itable ip).nlink = 0) := by
    rintro ⟨h1, hv, h0⟩
    rcases hi.2.2 with hlink | href
    · have hd := (h.wf.synced ip hn.1 hv).1
      rw [hn.2, h.dinode] at hd
      exact hlink ((congrArg Dinode.nlink hd).symm.trans h0)
    · omega
  refine ⟨_, iput_kept hkept, h.setInode (h.wf.relabel rfl (fun _ => hn.1) rfl rfl) (h.locked ip) (fun _ _ => rfl)
    fun j => ?_, fun jp j hj hmem => ?_⟩
  · rw [List.count_cons]
    unfold Inode.refs
    simp only [hn.2]
    by_cases hj : i = j
    · rw [if_pos hj, if_pos hj, if_pos (beq_iff_eq.2 hj)]
      omega
    · rw [if_neg hj, if_neg hj, if_neg fun hb => hj (beq_iff_eq.1 hb), Nat.add_zero]
  · unfold State.Names
    by_cases hjp : jp = ip
    · subst hjp
      obtain rfl : i = j := hn.2.symm.trans hj.2
      have hpos := List.count_pos_iff.2 hmem
      rw [setInode_self]
      exact ⟨by show 0 < (t.itable jp).ref - 1; omega, hj.2⟩
    · rw [setInode_of_ne _ hjp]
      exact hj

theorem Borrowed.iunlockput (h : Borrowed sb (i :: held) (some ip) s t) (hn : t.Names ip i) (hi : Anchored sb s i) :
    ∃ u, Blocks.iunlockput sb ip t = .ok (⟨⟩, u) ∧ Borrowed sb held none s u ∧
      ∀ jp j, t.Names jp j → j ∈ held → u.Names jp j := by
  obtain ⟨t', hunlock, h', hnames⟩ := h.iunlock hn
  obtain ⟨u, hput, hu, hkeep⟩ := h'.iput (hnames ip i hn) hi
  exact ⟨u, (bind_of_ok hunlock).trans hput, hu, fun jp j hj hmem => hkeep jp j (hnames jp j hj) hmem⟩

end Xv6.Blocks
