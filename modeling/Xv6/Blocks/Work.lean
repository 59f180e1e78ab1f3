import Xv6.Lib.Hoare
import Xv6.Blocks.Refs

set_option autoImplicit false

/-! # A system call at work

In the middle of a system call the file system is well-formed, the call holds references to inodes, and it
has passed some blocks to `log_write`. Each function is a triple that says what it adds to that. -/

namespace Xv6.Blocks

open Xv6.Lib
open Xv6.Fs (NINODE NFILE NDEV ROOTINO DIRSIZ MAXFILE Ip)

/-! ## What is logged -/

/-- Since `log` the blocks of the free map have been logged and others, among which the blocks of the inodes
    `paid` count. If they are counted there are at most `cost` of these. -/
def Logs (sb : Superblock) (counted : Prop) (log paid : List Nat) (cost : Nat) (t : State) : Prop :=
  ∃ (new : List Nat) (D : Finset Nat), t.logged = new ++ log ∧ (counted → D.card ≤ cost) ∧
    (∀ i ∈ paid, sb.IBLOCK i ∈ D) ∧ ∀ b ∈ new, (∃ c, c < sb.size.toNat ∧ b = sb.BBLOCK c) ∨ b ∈ D

variable {sb : Superblock} {s t u : State} {counted : Prop} {ip jp dp : Ip} {i j cost cost' top : Nat}
    {log paid paid' : List Nat}

theorem Logs.refl (t : State) : Logs sb counted t.logged [] 0 t :=
  ⟨[], ∅, rfl, fun _ => Nat.le_refl 0, fun _ hi => absurd hi List.not_mem_nil, fun _ hb => absurd hb List.not_mem_nil⟩

theorem Logs.mono (h : Logs sb counted log paid cost t) (hpaid : ∀ i ∈ paid', i ∈ paid) (hcost : counted → cost ≤ cost')
    (hlog : u.logged = t.logged) : Logs sb counted log paid' cost' u := by
  obtain ⟨new, D, hnew, hD, hp, hb⟩ := h
  exact ⟨new, D, hlog.trans hnew, fun hc => (hD hc).trans (hcost hc), fun i hi => hp i (hpaid i hi), hb⟩

/-- The block of an inode is counted from now on. -/
theorem Logs.pay (h : Logs sb counted log paid cost t) (i : Nat) : Logs sb counted log (i :: paid) (cost + 1) t := by
  obtain ⟨new, D, hnew, hD, hp, hb⟩ := h
  refine ⟨new, insert (sb.IBLOCK i) D, hnew, fun hc => ?_, fun j hj => ?_, fun b hb' => ?_⟩
  · exact (Finset.card_insert_le _ _).trans (Nat.succ_le_succ (hD hc))
  · rcases List.mem_cons.1 hj with rfl | hj
    · exact Finset.mem_insert_self _ _
    · exact Finset.mem_insert_of_mem (hp j hj)
  · exact (hb b hb').imp_right Finset.mem_insert_of_mem

/-- Blocks are logged: those of the free map and of inodes, and `E`. -/
theorem Logs.more (h : Logs sb counted log paid cost t) {new : List Nat} {E : Finset Nat} {k : Nat}
    (hlog : u.logged = new ++ t.logged) (hE : E.card ≤ k)
    (hnew : ∀ b ∈ new, (∃ c, c < sb.size.toNat ∧ b = sb.BBLOCK c) ∨ (∃ i ∈ paid, b = sb.IBLOCK i) ∨ b ∈ E) :
    Logs sb counted log paid (cost + k) u := by
  obtain ⟨old, D, hold, hD, hp, hb⟩ := h
  refine ⟨new ++ old, D ∪ E, by rw [hlog, hold, List.append_assoc], fun hc => ?_, fun i hi =>
    Finset.mem_union_left _ (hp i hi), fun b hb' => ?_⟩
  · exact (Finset.card_union_le D E).trans (Nat.add_le_add (hD hc) hE)
  · rcases List.mem_append.1 hb' with hb' | hb'
    · rcases hnew b hb' with hc | ⟨i, hi, rfl⟩ | hE'
      · exact .inl hc
      · exact .inr (Finset.mem_union_left _ (hp i hi))
      · exact .inr (Finset.mem_union_right _ hE')
    · exact (hb b hb').imp_right (Finset.mem_union_left _)

/-- Only blocks that are paid for. -/
theorem Logs.within (h : Logs sb counted log paid cost t) {new : List Nat} (hlog : u.logged = new ++ t.logged)
    (hnew : ∀ b ∈ new, (∃ c, c < sb.size.toNat ∧ b = sb.BBLOCK c) ∨ ∃ i ∈ paid, b = sb.IBLOCK i) :
    Logs sb counted log paid cost u := by
  exact h.more hlog (Nat.le_of_eq Finset.card_empty) fun b hb => (hnew b hb).imp_right .inl

/-! ## What is held -/

/-- Whole entries that name inodes. -/
def IsDir (sb : Superblock) (c : List Byte) : Prop := DIRENT ∣ c.length ∧
  ∀ j, j < c.length / DIRENT → deInum (entryAt c j) ≠ 0 → sb.Inum (deInum (entryAt c j)).toNat

def DirsOk (sb : Superblock) (t : State) : Prop :=
  ∀ i, sb.Inum i → (t.dinode sb i).type = T_DIR → IsDir sb (t.content sb i)

/-- A reference to an inode. -/
structure Hold where
  ip : Ip
  inum : Nat
  /-- With its lock. -/
  locked : Bool
  /-- It is a file and not a directory. -/
  file : Bool

/-- The references to `ip` in a list. -/
def holdsOf (held : List Hold) (ip : Ip) : Nat := held.countP fun h => decide (h.ip = ip)

/-- The locks of `ip` in a list. -/
def locksOf (held : List Hold) (ip : Ip) : Nat := held.countP fun h => decide (h.ip = ip) && h.locked

/-- The inode table counts the references in the list, and has their locks. -/
structure Accounts (held : List Hold) (t : State) : Prop where
  inum : ∀ h ∈ held, (t.itable h.ip).inum = h.inum
  valid : ∀ h ∈ held, h.locked = true → (t.itable h.ip).valid = true
  refs : ∀ ip, (t.itable ip).ref = holdsOf held ip
  locks : ∀ ip, (t.itable ip).locked.toNat = locksOf held ip

variable {base held held' : List Hold} {h g : Hold} {o f : Bool}

theorem holdsOf_cons (h : Hold) (held : List Hold) (ip : Ip) :
    holdsOf (h :: held) ip = holdsOf held ip + if h.ip = ip then 1 else 0 := by
  unfold holdsOf
  rw [List.countP_cons]
  congr 1
  exact if_congr decide_eq_true_iff rfl rfl

theorem locksOf_cons (h : Hold) (held : List Hold) (ip : Ip) :
    locksOf (h :: held) ip = locksOf held ip + if h.ip = ip ∧ h.locked = true then 1 else 0 := by
  unfold locksOf
  rw [List.countP_cons]
  congr 1
  refine if_congr ?_ rfl rfl
  rw [Bool.and_eq_true, decide_eq_true_iff]

theorem holdsOf_pos (hh : h ∈ held) : 0 < holdsOf held h.ip :=
  List.countP_pos_iff.2 ⟨h, hh, decide_eq_true rfl⟩

theorem Accounts.names (ha : Accounts held t) (hh : h ∈ held) : t.Names h.ip h.inum :=
  ⟨by rw [ha.refs]; exact holdsOf_pos hh, ha.inum h hh⟩

theorem Accounts.inCore (ha : Accounts held t) (hh : h ∈ held) (hl : h.locked = true) : t.InCore h.ip :=
  ⟨(ha.names hh).1, ha.valid h hh hl⟩

theorem Accounts.perm (ha : Accounts held t) (hp : held.Perm held') : Accounts held' t where
  inum := fun h hh => ha.inum h (hp.mem_iff.2 hh)
  valid := fun h hh => ha.valid h (hp.mem_iff.2 hh)
  refs := fun ip => (ha.refs ip).trans (hp.countP_eq _)
  locks := fun ip => (ha.locks ip).trans (hp.countP_eq _)

/-- A table that counts the same. -/
theorem Accounts.congr (ha : Accounts held t) (hu : ∀ jp, (u.itable jp).ref = (t.itable jp).ref ∧
    (u.itable jp).inum = (t.itable jp).inum ∧ (u.itable jp).locked = (t.itable jp).locked ∧
    (u.itable jp).valid = (t.itable jp).valid) : Accounts held u where
  inum := fun h hh => (hu h.ip).2.1.trans (ha.inum h hh)
  valid := fun h hh hl => (hu h.ip).2.2.2.trans (ha.valid h hh hl)
  refs := fun jp => (hu jp).1.trans (ha.refs jp)
  locks := by
    intro jp
    rw [(hu jp).2.2.1]
    exact ha.locks jp

/-- A lock in the list is taken. -/
theorem Accounts.locked (ha : Accounts held t) (hh : h ∈ held) (hl : h.locked = true) :
    (t.itable h.ip).locked = true := by
  have hpos : 0 < locksOf held h.ip :=
    List.countP_pos_iff.2 ⟨h, hh, by rw [hl, Bool.and_true]; exact decide_eq_true rfl⟩
  rw [← ha.locks] at hpos
  by_contra hf
  rw [Bool.not_eq_true] at hf
  rw [hf] at hpos
  exact absurd hpos (Nat.lt_irrefl 0)

/-- Another reference. -/
theorem Accounts.got (ha : Accounts held t) (hg : Got i ip t u) : Accounts (⟨ip, i, false, f⟩ :: held) u where
  inum := by
    intro g hmem
    rcases List.mem_cons.1 hmem with rfl | hmem
    · exact hg.num
    · exact (hg.keeps (ha.names hmem)).2
  valid := by
    intro g hmem hl
    rcases List.mem_cons.1 hmem with rfl | hmem
    · cases hl
    · have hv := ha.valid g hmem hl
      by_cases hj : g.ip = ip
      · rcases hg.entry with ⟨-, -, he⟩ | ⟨h0, -⟩
        · rw [hj] at hv ⊢
          rw [he]
          exact hv
        · exact absurd h0 (Nat.pos_iff_ne_zero.1 (hj ▸ (ha.names hmem).1))
      · rw [hg.others g.ip hj]
        exact hv
  refs := by
    intro jp
    rw [holdsOf_cons, ← ha.refs]
    by_cases hj : ip = jp
    · subst hj
      rw [if_pos rfl]
      rcases hg.entry with ⟨-, -, he⟩ | ⟨h0, -, h1, -⟩
      · rw [he]
      · rw [h1, h0]
    · rw [if_neg hj, hg.others jp (Ne.symm hj), Nat.add_zero]
  locks := by
    intro jp
    rw [locksOf_cons, if_neg fun hc => Bool.false_ne_true hc.2, Nat.add_zero, ← ha.locks]
    by_cases hj : jp = ip
    · rw [hj, hg.locked]
    · rw [hg.others jp hj]

/-- The entry of the first reference changes, which may be locked or unlocked. -/
theorem Accounts.setInode {e : Inode} {l : Bool} (ha : Accounts (⟨ip, i, o, f⟩ :: held) t)
    (hinum : e.inum = (t.itable ip).inum) (href : e.ref = (t.itable ip).ref) (ho : o = (t.itable ip).locked)
    (hl : e.locked = l)
    (hvalid : (t.itable ip).valid = true ∨ l = true → e.valid = true) :
    Accounts (⟨ip, i, l, f⟩ :: held) (t.setInode ip e) where
  inum := by
    have hself := ha.inum _ List.mem_cons_self
    intro g hmem
    by_cases hj : g.ip = ip
    · rw [hj, setInode_self, hinum, ← hj]
      rcases List.mem_cons.1 hmem with rfl | hmem
      · exact hself
      · exact ha.inum g (List.mem_cons_of_mem _ hmem)
    · rw [setInode_of_ne _ hj]
      rcases List.mem_cons.1 hmem with rfl | hmem
      · exact absurd rfl hj
      · exact ha.inum g (List.mem_cons_of_mem _ hmem)
  valid := by
    intro g hmem hgl
    by_cases hj : g.ip = ip
    · rw [hj, setInode_self]
      rcases List.mem_cons.1 hmem with rfl | hmem
      · exact hvalid (.inr hgl)
      · exact hvalid (.inl (hj ▸ ha.valid g (List.mem_cons_of_mem _ hmem) hgl))
    · rw [setInode_of_ne _ hj]
      rcases List.mem_cons.1 hmem with rfl | hmem
      · exact absurd rfl hj
      · exact ha.valid g (List.mem_cons_of_mem _ hmem) hgl
  refs := by
    intro jp
    have hrefs := ha.refs jp
    rw [holdsOf_cons] at hrefs ⊢
    by_cases hj : jp = ip
    · subst hj
      rw [setInode_self, href, hrefs]
    · rw [setInode_of_ne _ hj, hrefs]
  locks := by
    intro jp
    have hlocks := ha.locks jp
    rw [locksOf_cons] at hlocks ⊢
    by_cases hj : jp = ip
    · subst hj
      rw [setInode_self, hl]
      rw [← ho] at hlocks
      cases o <;> cases l <;> simp at hlocks ⊢ <;> omega
    · rw [setInode_of_ne _ hj, hlocks, if_neg fun hc => hj hc.1.symm, if_neg fun hc => hj hc.1.symm]

/-- The table does not know what is a file. -/
theorem Accounts.file {f' : Bool} (ha : Accounts (⟨ip, i, o, f⟩ :: held) t) : Accounts (⟨ip, i, o, f'⟩ :: held) t where
  inum := fun g hg => (List.mem_cons.1 hg).elim (fun he => he ▸ ha.inum ⟨ip, i, o, f⟩ List.mem_cons_self) fun hg =>
    ha.inum g (List.mem_cons_of_mem _ hg)
  valid := fun g hg => (List.mem_cons.1 hg).elim (fun he => he ▸ ha.valid ⟨ip, i, o, f⟩ List.mem_cons_self) fun hg =>
    ha.valid g (List.mem_cons_of_mem _ hg)
  refs := fun jp => (ha.refs jp).trans (by rw [holdsOf_cons, holdsOf_cons])
  locks := fun jp => (ha.locks jp).trans (by rw [locksOf_cons, locksOf_cons])

/-- The first reference is given back. -/
theorem Accounts.drop (ha : Accounts (⟨ip, i, false, f⟩ :: held) t) (hother : ∀ jp, jp ≠ ip → u.itable jp = t.itable jp)
    (href : (u.itable ip).ref = (t.itable ip).ref - 1) (hinum : (u.itable ip).inum = (t.itable ip).inum)
    (hlocked : (u.itable ip).locked = (t.itable ip).locked)
    (hvalid : (t.itable ip).ref ≠ 1 → (u.itable ip).valid = (t.itable ip).valid) : Accounts held u where
  inum := by
    intro g hmem
    have hold := ha.inum g (List.mem_cons_of_mem _ hmem)
    by_cases hj : g.ip = ip
    · rw [hj, hinum, ← hj, hold]
    · rw [hother g.ip hj, hold]
  valid := by
    intro g hmem hl
    have hold := ha.valid g (List.mem_cons_of_mem _ hmem) hl
    by_cases hj : g.ip = ip
    · have hrefs := ha.refs ip
      have hpos := holdsOf_pos hmem
      rw [holdsOf_cons, if_pos rfl] at hrefs
      rw [hj] at hold hpos ⊢
      rw [hvalid (by omega), hold]
    · rw [hother g.ip hj, hold]
  refs := by
    intro jp
    have hrefs := ha.refs jp
    rw [holdsOf_cons] at hrefs
    by_cases hj : jp = ip
    · subst hj
      rw [if_pos rfl] at hrefs
      rw [href, hrefs, Nat.add_sub_cancel]
    · rw [if_neg (Ne.symm hj), Nat.add_zero] at hrefs
      rw [hother jp hj, hrefs]
  locks := by
    intro jp
    have hlocks := ha.locks jp
    rw [locksOf_cons, if_neg fun hc => Bool.false_ne_true hc.2, Nat.add_zero] at hlocks
    by_cases hj : jp = ip
    · rw [hj, hlocked, ← hj, hlocks]
    · rw [hother jp hj, hlocks]

/-- What is on the disk of an inode that is held. -/
structure Hold.Ok (sb : Superblock) (h : Hold) (t : State) : Prop where
  inum : sb.Inum h.inum
  file : h.file = true → (t.dinode sb h.inum).type ≠ 0 ∧ (t.dinode sb h.inum).type ≠ T_DIR

/-- A system call that began with the log, the files and the directory of `s`. It holds references
    besides those of `base`, which are not its own. Where blocks are counted, the inodes without a
    link are paid or are in `base`. -/
structure Work (sb : Superblock) (s : State) (counted : Prop) (base : List Hold) (paid : List Nat) (cost : Nat)
    (held : List Hold) (t : State) : Prop where
  wf : t.Wf sb
  dirs : DirsOk sb t
  table : Accounts (held ++ base) t
  disk : ∀ h ∈ held ++ base, h.Ok sb t
  kept : counted → ∀ i, sb.Inum i → (t.dinode sb i).type ≠ 0 → (t.dinode sb i).nlink = 0 →
    i ∈ paid ∨ ∃ h ∈ base, h.inum = i
  logs : Logs sb counted s.logged paid cost t
  ftable : t.ftable = s.ftable
  ofile : t.ofile = s.ofile
  cwd : t.cwd = s.cwd

/-- A panic that is not for freeing a free block, with no more than `top` blocks logged. -/
def May (sb : Superblock) (counted : Prop) (log : List Nat) (top : Nat) (e : Panic × State) : Prop :=
  e.1 ≠ .bfree ∧ Logs sb counted log [] top e.2

theorem Work.may (h : Work sb s counted base paid cost held t) (hcost : cost ≤ top) {p : Panic} (hp : p ≠ .bfree) :
    May sb counted s.logged top (p, t) :=
  ⟨hp, h.logs.mono (fun _ hi => absurd hi List.not_mem_nil) (fun _ => hcost) rfl⟩

theorem Work.mono (h : Work sb s counted base paid cost held t) (hcost : cost ≤ cost') :
    Work sb s counted base paid cost' held t where
  wf := h.wf
  dirs := h.dirs
  table := h.table
  disk := h.disk
  kept := h.kept
  logs := h.logs.mono (fun _ hi => hi) (fun _ => hcost) rfl
  ftable := h.ftable
  ofile := h.ofile
  cwd := h.cwd

theorem Work.pay (h : Work sb s counted base paid cost held t) (i : Nat) :
    Work sb s counted base (i :: paid) (cost + 1) held t where
  wf := h.wf
  dirs := h.dirs
  table := h.table
  disk := h.disk
  kept := fun hc j hj ht hl => (h.kept hc j hj ht hl).imp_left (List.mem_cons_of_mem i)
  logs := h.logs.pay i
  ftable := h.ftable
  ofile := h.ofile
  cwd := h.cwd

theorem Work.perm (h : Work sb s counted base paid cost held t) (hp : held.Perm held') :
    Work sb s counted base paid cost held' t :=
  { h with
    table := h.table.perm (hp.append_right base)
    disk := fun g hg => h.disk g ((hp.append_right base).mem_iff.2 hg) }

theorem Work.swap (hw : Work sb s counted base paid cost (g :: h :: held) t) :
    Work sb s counted base paid cost (h :: g :: held) t :=
  hw.perm (List.Perm.swap _ _ _)

theorem Work.inCore (hw : Work sb s counted base paid cost held t) (hh : h ∈ held) (hl : h.locked = true) :
    t.InCore h.ip :=
  hw.table.inCore (List.mem_append_left _ hh) hl

theorem Work.names (hw : Work sb s counted base paid cost held t) (hh : h ∈ held) : t.Names h.ip h.inum :=
  hw.table.names (List.mem_append_left _ hh)

/-- The number in an entry that is held is that of an inode. -/
theorem Work.inum (hw : Work sb s counted base paid cost held t) (hh : h ∈ held) : sb.Inum (t.itable h.ip).inum := by
  rw [(hw.names hh).2]
  exact (hw.disk h (List.mem_append_left _ hh)).inum

/-- A step that may change what is on the disk of inode `i`, which is paid. -/
theorem Work.step (h : Work sb s counted base paid cost held t) (hi : i ∈ paid) (hwf : u.Wf sb)
    (hdin : ∀ j, sb.Inum j → j ≠ i → u.dinode sb j = t.dinode sb j)
    (hcont : ∀ j, sb.Inum j → (t.dinode sb j).type ≠ 0 → j ≠ i → u.content sb j = t.content sb j)
    (hdir : sb.Inum i → (u.dinode sb i).type = T_DIR → IsDir sb (u.content sb i))
    (htable : Accounts (held' ++ base) u) (hmem : ∀ g ∈ held', g ∈ held)
    (htype : ∀ g ∈ held' ++ base, g.inum = i → g.file = true → (u.dinode sb i).type = (t.dinode sb i).type)
    (hlogs : Logs sb counted s.logged paid cost' u) (hftable : u.ftable = t.ftable) (hofile : u.ofile = t.ofile)
    (hcwd : u.cwd = t.cwd) : Work sb s counted base paid cost' held' u := by
  refine ⟨hwf, fun j hj ht => ?_, htable, fun g hg => ?_, ?_, hlogs, hftable.trans h.ftable, hofile.trans h.ofile,
    hcwd.trans h.cwd⟩
  · by_cases hji : j = i
    · subst hji
      exact hdir hj ht
    · rw [hdin j hj hji] at ht
      have hne : (t.dinode sb j).type ≠ 0 := by
        rw [ht]
        decide
      rw [hcont j hj hne hji]
      exact h.dirs j hj ht
  · have hold := h.disk g ((List.mem_append.1 hg).elim (fun hg => List.mem_append_left _ (hmem g hg))
      (List.mem_append_right _))
    refine ⟨hold.inum, fun hfile => ?_⟩
    by_cases hgi : g.inum = i
    · rw [hgi, htype g hg hgi hfile, ← hgi]
      exact hold.file hfile
    · rw [hdin g.inum hold.inum hgi]
      exact hold.file hfile
  · intro hc j hj ht hl
    by_cases hji : j = i
    · exact .inl (hji ▸ hi)
    · rw [hdin j hj hji] at ht hl
      exact h.kept hc j hj ht hl

/-- A step that writes no block. -/
theorem Work.retable (h : Work sb s counted base paid cost held t) (hwf : u.Wf sb)
    (hframe : ∃ table, u = { t with itable := table }) (htable : Accounts (held' ++ base) u)
    (hdisk : ∀ g ∈ held', g.Ok sb t) : Work sb s counted base paid cost held' u := by
  obtain ⟨table, rfl⟩ := hframe
  refine ⟨hwf, h.dirs, htable, fun g hg => ?_, h.kept, h.logs.mono (fun _ hi => hi) (fun _ => Nat.le_refl _) rfl,
    h.ftable,
    h.ofile, h.cwd⟩
  have hold : g.Ok sb t := (List.mem_append.1 hg).elim (hdisk g) fun hg => h.disk g (List.mem_append_right _ hg)
  exact ⟨hold.inum, hold.file⟩

/-- Another reference. -/
theorem Work.got (h : Work sb s counted base paid cost held t) (hg : Got i ip t u) (hi : sb.Inum i)
    (hf : f = true → (t.dinode sb i).type ≠ 0 ∧ (t.dinode sb i).type ≠ T_DIR) :
    Work sb s counted base paid cost (⟨ip, i, false, f⟩ :: held) u := by
  refine h.retable (hg.wf h.wf) ⟨_, hg.frame⟩ (h.table.got hg) fun g hmem => ?_
  rcases List.mem_cons.1 hmem with rfl | hmem
  · exact ⟨hi, hf⟩
  · exact h.disk g (List.mem_append_left _ hmem)

/-- An inode in the table is a file if its entry says so. -/
theorem Work.asFile (h : Work sb s counted base paid cost (⟨ip, i, true, f⟩ :: held) t)
    (ht : (t.itable ip).type ≠ T_DIR) :
    Work sb s counted base paid cost (⟨ip, i, true, true⟩ :: held) t := by
  have hip := h.inCore List.mem_cons_self rfl
  obtain ⟨hd, hne⟩ := h.wf.synced ip hip.1 hip.2
  rw [(h.names List.mem_cons_self).2] at hd
  refine { h with table := h.table.file, disk := fun g hg => ?_ }
  rcases List.mem_cons.1 hg with rfl | hg
  · refine ⟨(h.disk _ List.mem_cons_self).inum, fun _ => ?_⟩
    rw [← hd]
    exact ⟨hne, ht⟩
  · exact h.disk g (List.mem_cons_of_mem _ hg)

/-- The entry of the first reference changes, which may be locked or unlocked. -/
theorem Work.setInode {e : Inode} {l : Bool} (h : Work sb s counted base paid cost (⟨ip, i, o, f⟩ :: held) t)
    (hwf : (t.setInode ip e).Wf sb) (hinum : e.inum = (t.itable ip).inum) (href : e.ref = (t.itable ip).ref)
    (ho : o = (t.itable ip).locked) (hl : e.locked = l)
    (hvalid : (t.itable ip).valid = true ∨ l = true → e.valid = true) :
    Work sb s counted base paid cost (⟨ip, i, l, f⟩ :: held) (t.setInode ip e) := by
  have hold := h.disk _ List.mem_cons_self
  refine h.retable hwf ⟨_, rfl⟩ (h.table.setInode hinum href ho hl hvalid) fun g hg => ?_
  rcases List.mem_cons.1 hg with rfl | hg
  · exact ⟨hold.inum, hold.file⟩
  · exact h.disk g (List.mem_append_left _ (List.mem_cons_of_mem _ hg))

/-! ## The inode table -/

/-- The reference may be to a file, if another one is. -/
theorem Work.idup (h : Work sb s counted base paid cost held t) (hg : g ∈ held ++ base) :
    ∃ u, Blocks.idup g.ip t = .ok (g.ip, u) ∧
    Work sb s counted base paid cost (⟨g.ip, g.inum, false, g.file⟩ :: held) u := by
  have hold := h.disk g hg
  obtain ⟨u, hok, hgot⟩ := idup_got (h.table.names hg)
  exact ⟨u, hok, h.got hgot hold.inum hold.file⟩

section

variable (hcost : cost ≤ top)
include hcost

theorem triple_iget (hi : sb.Inum i) :
    Triple (May sb counted s.logged top) (Work sb s counted base paid cost held) (iget i)
    fun ip => Work sb s counted base paid cost (⟨ip, i, false, false⟩ :: held) := by
  intro t h
  rcases iget_cases t i with ⟨hpanic, -⟩ | ⟨ip, u, hok, hg⟩
  · rw [hpanic]
    exact h.may hcost (by decide)
  · rw [hok]
    exact h.got hg hi fun hf => absurd hf Bool.false_ne_true

theorem triple_ilock :
    Triple (May sb counted s.logged top) (Work sb s counted base paid cost (⟨ip, i, false, f⟩ :: held)) (ilock sb ip)
      fun _ => Work sb s counted base paid cost (⟨ip, i, true, f⟩ :: held) := by
  intro t h
  have hold := h.disk _ List.mem_cons_self
  obtain ⟨href, hn⟩ := h.names List.mem_cons_self
  by_cases hlocked : (t.itable ip).locked = true
  · rw [ilock_locked href hlocked]
    exact h.may hcost (by decide)
  · have hfree := Bool.eq_false_iff.2 hlocked
    by_cases htype : (t.dinode sb (t.itable ip).inum).type = 0
    · have hv : (t.itable ip).valid = false := Bool.eq_false_iff.2 fun hv => (h.wf.synced ip href hv).2 (by
        rw [(h.wf.synced ip href hv).1]
        exact htype)
      obtain ⟨u, hpanic, hlog⟩ := ilock_no_type href hfree hv htype
      have hp : Panic.ilockNoType ≠ .bfree := by decide
      rw [hpanic]
      exact ⟨hp, h.logs.mono (fun _ hi => absurd hi List.not_mem_nil) (fun _ => hcost) hlog⟩
    · rw [ilock_run href hfree htype fun hv => (h.wf.synced ip href hv).1]
      have hwf : (t.setInode ip { t.itable ip with
          toDinode := t.dinode sb (t.itable ip).inum
          locked := true
          valid := true }).Wf sb :=
        h.wf.setInode rfl id fun _ _ => ⟨h.inum List.mem_cons_self, rfl, htype⟩
      exact h.setInode hwf rfl rfl hfree.symm rfl fun _ => rfl

end

/-- A lock that is held is given back. -/
theorem triple_iunlock :
    Triple (May sb counted s.logged top) (Work sb s counted base paid cost (⟨ip, i, true, f⟩ :: held)) (iunlock ip)
      fun _ => Work sb s counted base paid cost (⟨ip, i, false, f⟩ :: held) := by
  intro t h
  have hlocked := h.table.locked List.mem_cons_self rfl
  rw [iunlock_eq hlocked (h.names List.mem_cons_self).1]
  exact h.setInode (h.wf.relabel rfl id rfl rfl) rfl rfl hlocked.symm rfl fun hv => hv.resolve_right Bool.false_ne_true

/-! ## Freeing an inode -/

/-- `iput` up to the last reference: what is on the disk is free, and the entry is as it was but not valid. -/
structure Cleared (sb : Superblock) (ip : Ip) (t u : State) : Prop where
  wf : u.Wf sb
  table : u.itable = Function.update t.itable ip (u.itable ip)
  ref : (u.itable ip).ref = 0
  inum : (u.itable ip).inum = (t.itable ip).inum
  locked : (u.itable ip).locked = false
  dinode : ∀ j, sb.Inum j → j ≠ (t.itable ip).inum → u.dinode sb j = t.dinode sb j
  content : ∀ j, sb.Inum j → (t.dinode sb j).type ≠ 0 → j ≠ (t.itable ip).inum → u.content sb j = t.content sb j
  type : (u.dinode sb (t.itable ip).inum).type = 0
  logged : ∃ new, u.logged = new ++ t.logged ∧ ∀ b ∈ new,
    (∃ c, c < sb.size.toNat ∧ b = sb.BBLOCK c) ∨ b = sb.IBLOCK (t.itable ip).inum
  ftable : u.ftable = t.ftable
  ofile : u.ofile = t.ofile
  cwd : u.cwd = t.cwd

theorem iput_cleared (hsb : sb.Ordered) (h : t.Wf sb) (href : (t.itable ip).ref = 1) (hv : (t.itable ip).valid = true)
    (hlink : (t.itable ip).nlink = 0) (hfree : (t.itable ip).locked = false) :
    ∃ u, iput sb ip t = .ok (⟨⟩, u) ∧ Cleared sb ip t u := by
  have hip : t.InCore ip := ⟨by rw [href]; exact Nat.one_pos, hv⟩
  obtain ⟨u, v, he, hv', hrun⟩ := iput_frees href hv hlink hfree (h.own_ip hip).toOwned
  obtain ⟨t₁, ht₁⟩ : ∃ t₁, t.setInode ip { t.itable ip with locked := true } = t₁ := ⟨_, rfl⟩
  rw [ht₁] at he
  have hself₁ : t₁.itable ip = { t.itable ip with locked := true } := by rw [← ht₁, setInode_self]
  have hblocks₁ : t₁.blocks = t.blocks := by rw [← ht₁]; rfl
  have haddrs₁ : t₁.withIp ip (t.addrs sb) = t.withIp ip (t.addrs sb) := by
    unfold State.withIp
    rw [hself₁]
  have hown₁ : Own sb (t₁.withIp ip (t.addrs sb)) t₁ := by
    rw [haddrs₁]
    exact (h.own_ip hip).congr (fun _ _ => by rw [hblocks₁]) fun _ _ => bit_congr sb (by rw [hblocks₁])
  have hl := he.local hsb hown₁
  have hui : u.itable ip = { t.itable ip with
      locked := true
      size := 0
      addrs := fun _ => 0 } := by
    rw [he.table, Function.update_self, hself₁]
  -- the entry that is written to disk at last
  obtain ⟨d, hd⟩ : ∃ d : Dinode, { (t.itable ip).toDinode with
    type := 0
    size := 0
    addrs := fun _ => 0 } = d := ⟨_, rfl⟩
  obtain ⟨u', hu'⟩ : ∃ u', u.setInode ip { t.itable ip with toDinode := d } = u' := ⟨_, rfl⟩
  have hself' : u'.itable ip = { t.itable ip with toDinode := d } := by rw [← hu', setInode_self]
  have hblocks' : u'.blocks = u.blocks := by rw [← hu']; rfl
  have hinum₁ : (t₁.itable ip).inum = (t.itable ip).inum := by rw [hself₁]
  have hutable : u'.itable = Function.update t.itable ip { t.itable ip with toDinode := d } := by
    rw [← hu']
    show Function.update u.itable ip _ = _
    rw [he.table, Function.update_idem, ← ht₁]
    exact Function.update_idem ..
  have hlocal : Local sb (t.addrs sb) ip t u' := by
    refine ⟨by rw [hself']; exact hutable, fun j hj => ?_, ?_, fun j hj k => ?_, fun j hj k hk => ?_⟩
    · rw [dinode_congr sb (s := u) (by rw [hblocks']), hl.dinode j hj]
      exact dinode_congr sb (by rw [hblocks₁])
    · have haddrs' : u'.withIp ip (t.addrs sb) = u.withIp ip (t.addrs sb) := by
        unfold State.withIp
        rw [hself', hui, ← hd]
      rw [haddrs']
      exact hl.own.congr (fun _ _ => by rw [hblocks']) fun _ _ => bit_congr sb (by rw [hblocks'])
    · have hslots := hl.slots j (by rw [hinum₁]; exact hj) k
      rw [hblocks₁] at hslots
      rw [hblocks', hslots]
    · rw [← hblocks₁] at hk ⊢
      rw [hblocks']
      exact hl.data j (by rw [hinum₁]; exact hj) k hk
  have hvi : v.itable ip = { u.itable ip with type := 0 } := by rw [hv', setInode_self]
  obtain ⟨w, hw⟩ : ∃ w, (v.updated sb ip).setInode ip { v.itable ip with
    ref := 0
    locked := false
    valid := false } = w := ⟨_, rfl⟩
  have hwself : w.itable ip = { v.itable ip with
      ref := 0
      locked := false
      valid := false } := by rw [← hw, setInode_self]
  have hwtable : w.itable = Function.update u'.itable ip (w.itable ip) := by
    rw [hwself, ← hw, ← hu']
    show Function.update v.itable ip _ = Function.update (Function.update u.itable ip _) ip _
    rw [hv']
    show Function.update (Function.update u.itable ip _) ip _ = _
    rw [Function.update_idem, Function.update_idem]
  have hwblocks : w.blocks = (u'.updated sb ip).blocks := by
    have hleft : w.blocks = ((u.setDinode sb (u.itable ip).inum (u.itable ip).toDinode).setDinode sb (u.itable ip).inum
        { (u.itable ip).toDinode with type := 0 }).blocks := by
      rw [← hw]
      show (v.setDinode sb (v.itable ip).inum (v.itable ip).toDinode).blocks = _
      rw [hvi, hv']
      rfl
    have hright : (u'.updated sb ip).blocks = (u.setDinode sb (t.itable ip).inum d).blocks := by
      show (u'.setDinode sb (u'.itable ip).inum (u'.itable ip).toDinode).blocks = _
      rw [hself', ← hu']
      rfl
    rw [hleft, hright, setDinode_setDinode, hui, ← hd]
  have hwinum : (w.itable ip).inum = (t.itable ip).inum := by
    rw [hwself, hvi, hui]
  obtain ⟨new, hnew, hmap⟩ := he.logged
  rw [hw] at hrun
  refine ⟨w, hrun, ?_⟩
  refine
    { wf := Local.wf hsb h hip hlocal hwblocks hwtable hwinum (fun hv => ?_) (fun hne => absurd ?_ hne) fun _ => ?_
      table := ?_
      ref := by rw [hwself]
      inum := hwinum
      locked := by rw [hwself]
      dinode := fun j hj hne => hlocal.dinode_of_ne hwblocks hj hne
      content := fun j hj hne hji => (hlocal.content hsb h hip hwblocks hj hne hji).2
      type := ?_
      logged := ⟨sb.IBLOCK (t.itable ip).inum :: sb.IBLOCK (t.itable ip).inum :: new, ?_, fun b hb => ?_⟩
      ftable := ?_
      ofile := ?_
      cwd := ?_ }
  · rw [hwself] at hv
    cases hv
  · rw [hself', ← hd]
  · rw [hself', ← hd]
  · rw [hwtable, hutable, Function.update_idem, Function.update_self]
  · rw [dinode_congr sb (s := u'.updated sb ip) (by rw [hwblocks]), updated_dinode, hself', if_pos rfl, ← hd]
  · rw [← hw]
    show sb.IBLOCK (v.itable ip).inum :: v.logged = _
    rw [hvi, hv']
    show sb.IBLOCK (u.itable ip).inum :: sb.IBLOCK (u.itable ip).inum :: u.logged = _
    rw [hui, hnew, ← ht₁]
    rfl
  · rcases List.mem_cons.1 hb with rfl | hb
    · exact .inr rfl
    · rcases List.mem_cons.1 hb with rfl | hb
      · exact .inr rfl
      · exact .inl (hown₁.toOwned.bitmap ((hmap b).1 hb))
  · rw [← hw]
    show v.ftable = _
    rw [hv']
    show u.ftable = _
    rw [he.ftable, ← ht₁]
    rfl
  · rw [← hw]
    show v.ofile = _
    rw [hv']
    show u.ofile = _
    rw [he.ofile, ← ht₁]
    rfl
  · rw [← hw]
    show v.cwd = _
    rw [hv']
    show u.cwd = _
    rw [he.cwd, ← ht₁]
    rfl

/-- A reference that is not the last one, or one to an inode with a link. -/
theorem Work.dropped (h : Work sb s counted base paid cost (⟨ip, i, false, f⟩ :: held) t) :
    Work sb s counted base paid cost held (t.setInode ip { t.itable ip with ref := (t.itable ip).ref - 1 }) := by
  have href := (h.names List.mem_cons_self).1
  refine h.retable (h.wf.relabel rfl (fun _ => href) rfl rfl) ⟨_, rfl⟩ ?_ fun g hg =>
    h.disk g (List.mem_append_left _ (List.mem_cons_of_mem _ hg))
  refine h.table.drop (fun jp hj => setInode_of_ne _ hj) ?_ ?_ ?_ fun _ => ?_ <;> rw [setInode_self]

/-- The last reference to an inode without a link. -/
theorem Work.cleared (h : Work sb s counted base paid cost (⟨ip, i, false, f⟩ :: held) t) (hi : i ∈ paid)
    (href : (t.itable ip).ref = 1) (hfree : (t.itable ip).locked = false) (hc : Cleared sb ip t u) :
    Work sb s counted base paid cost held u := by
  obtain ⟨hpos, hn⟩ := h.names List.mem_cons_self
  have hn : (t.itable ip).inum = i := hn
  -- nobody else holds the inode
  have hnone : ∀ g ∈ held ++ base, g.inum ≠ i := by
    intro g hg hgi
    have hnames := h.table.names (List.mem_cons_of_mem _ hg)
    have hgip := h.wf.uniq g.ip ip hnames.1 hpos (hnames.2.trans (hgi.trans hn.symm))
    have hrefs := h.table.refs ip
    have hg' := holdsOf_pos hg
    rw [List.cons_append, holdsOf_cons, if_pos rfl, href] at hrefs
    rw [hgip] at hg'
    omega
  refine h.step hi hc.wf (fun j hj hji => hc.dinode j hj (hn ▸ hji)) (fun j hj ht hji => hc.content j hj ht (hn ▸ hji))
    (fun _ ht => ?_) ?_ (fun g hg => List.mem_cons_of_mem _ hg) (fun g hg hgi => absurd hgi (hnone g hg)) ?_ hc.ftable
    hc.ofile hc.cwd
  · rw [← hn, hc.type] at ht
    exact absurd ht (by decide)
  · refine h.table.drop (fun jp hj => ?_) (by rw [hc.ref, href]) hc.inum (hc.locked.trans hfree.symm) fun hne =>
    absurd href hne
    rw [hc.table, Function.update_of_ne hj]
  · obtain ⟨new, hnew, hb⟩ := hc.logged
    exact h.logs.within hnew fun b hmem => (hb b hmem).imp_right fun he => ⟨i, hi, by rw [he, hn]⟩

section

variable (hsb : sb.Ordered) (hcost : cost ≤ top)
include hsb hcost

theorem triple_iput_paid (hi : i ∈ paid) :
    Triple (May sb counted s.logged top) (Work sb s counted base paid cost (⟨ip, i, false, f⟩ :: held)) (iput sb ip)
      fun _ => Work sb s counted base paid cost held := by
  intro t h
  by_cases hlast : (t.itable ip).ref = 1 ∧ (t.itable ip).valid = true ∧ (t.itable ip).nlink = 0
  · by_cases hlocked : (t.itable ip).locked = true
    · have hpanic : iput sb ip t = .error (.acquiresleep, t) := by
        unfold iput
        refine (bind_of_ok (a := t) (t := t) rfl).trans ?_
        simp only
        rw [if_pos hlast]
        refine bind_of_error _ (bind_of_error _ ?_)
        unfold acquiresleep
        refine (bind_of_ok (a := t) (t := t) rfl).trans ?_
        rw [hlocked, if_pos rfl]
        rfl
      rw [hpanic]
      exact h.may hcost (by decide)
    · have hfree := Bool.eq_false_iff.2 hlocked
      obtain ⟨u, hok, hc⟩ := iput_cleared hsb h.wf hlast.1 hlast.2.1 hlast.2.2 hfree
      rw [hok]
      exact h.cleared hi hlast.1 hfree hc
  · rw [iput_kept hlast]
    exact h.dropped

/-- No block has to be paid: if the inode has no link it is paid, or somebody else holds it. -/
theorem triple_iput :
    Triple (May sb counted s.logged top) (Work sb s counted base paid cost (⟨ip, i, false, f⟩ :: held)) (iput sb ip)
      fun _ => Work sb s counted base paid cost held := by
  intro t h
  by_cases hcounted : counted
  · by_cases hi : i ∈ paid
    · exact triple_iput_paid hsb hcost hi t h
    · have hold := h.disk _ List.mem_cons_self
      obtain ⟨hpos, hn⟩ := h.names List.mem_cons_self
      have hn : (t.itable ip).inum = i := hn
      rw [iput_kept]
      · exact h.dropped
      · rintro ⟨href, hv, hlink⟩
        obtain ⟨hd, ht⟩ := h.wf.synced ip hpos hv
        rw [hn] at hd
        rcases h.kept hcounted i hold.inum (hd ▸ ht) (hd ▸ hlink) with hp | ⟨g, hg, hgi⟩
        · exact hi hp
        · have hmem : g ∈ held ++ base := List.mem_append_right _ hg
          have hnames := h.table.names (List.mem_cons_of_mem _ hmem)
          have hgip := h.wf.uniq g.ip ip hnames.1 hpos (hnames.2.trans (hgi.trans hn.symm))
          have hrefs := h.table.refs ip
          have hg' := holdsOf_pos hmem
          rw [List.cons_append, holdsOf_cons, if_pos rfl, href] at hrefs
          rw [hgip] at hg'
          omega
  · have hany : ∀ {paid paid' cost cost' held u}, Work sb s counted base paid cost held u → (∀ i ∈ paid', i ∈ paid) →
        Work sb s counted base paid' cost' held u := fun hu hp =>
      { hu with
        kept := fun hc => absurd hc hcounted
        logs := hu.logs.mono hp (fun hc => absurd hc hcounted) rfl }
    have hput : Triple (May sb counted s.logged top)
      (Work sb s counted base (i :: paid) cost (⟨ip, i, false, f⟩ :: held))
        (iput sb ip) fun _ => Work sb s counted base paid cost held :=
      (triple_iput_paid hsb hcost List.mem_cons_self).conseq (fun _ hs => hs) fun _ u hu =>
        hany hu fun _ => List.mem_cons_of_mem i
    exact hput t (hany (h.pay i) fun _ hj => hj)

theorem triple_iunlockput :
    Triple (May sb counted s.logged top) (Work sb s counted base paid cost (⟨ip, i, true, f⟩ :: held))
    (iunlockput sb ip)
      fun _ => Work sb s counted base paid cost held :=
  Triple.bind triple_iunlock fun _ => triple_iput hsb hcost

end

end Xv6.Blocks
