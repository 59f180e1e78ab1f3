import Xv6.Blocks.Rules

set_option autoImplicit false

/-! # What each system call logs

Between `begin_op` and `end_op` no system call logs more than `MAXOPBLOCKS` blocks. An inode and the
directories that it is entered into are paid when they are first written. -/

namespace Xv6.Blocks

open Xv6.Lib
open Xv6.Fs (NINODE NFILE NDEV ROOTINO DIRSIZ MAXFILE Ip)

/-- The call is at work, and some inodes are paid. -/
def Busy (sb : Superblock) (s : State) (counted : Prop) (base : List Hold) (cost : Nat) (held : List Hold)
    (t : State) : Prop :=
  ∃ paid, Work sb s counted base paid cost held t

variable {sb : Superblock} {s t u : State} {counted : Prop} {ip jp dp : Ip} {i j k cost cost' top : Nat}
    {paid : List Nat}
variable {base held : List Hold} {f f' : Bool} {name : Buf} {path : Path}

theorem Work.busy (h : Work sb s counted base paid cost held t) (hcost : cost ≤ cost') :
    Busy sb s counted base cost' held t :=
  ⟨paid, h.mono hcost⟩

/-- Triples about what is paid later. -/
theorem triple_pay {α : Type} {may : Panic × State → Prop} {x : K α} {Q : α → State → Prop} (j : Nat)
    (h : Triple may (Work sb s counted base (j :: paid) (cost + 1) held) x Q) :
    Triple may (Work sb s counted base paid cost held) x Q :=
  h.conseq (fun _ hu => hu.pay j) fun _ _ hq => hq

section

variable (hsb : sb.Ordered)
include hsb

/-- The end of a call. -/
theorem triple_putReturn {α : Type} {a : α} (hcost : cost ≤ top) (hle : cost ≤ cost') :
    Triple (May sb counted s.logged top) (Work sb s counted base paid cost (⟨ip, i, true, f⟩ :: held)) (do
      iunlockput sb ip
      pure a : K α) fun _ => Busy sb s counted base cost' held :=
  Triple.bind (triple_iunlockput hsb hcost) fun _ => Triple.pure _ fun _ hu => hu.busy hle

/-! ## `link` -/

theorem triple_unlinkOld (hcost : cost ≤ top) (hi : i ∈ paid) (hle : cost ≤ cost') :
    Triple (May sb counted s.logged top) (Work sb s counted base paid cost (⟨ip, i, false, f⟩ :: held))
    (unlinkOld sb ip)
      fun _ => Busy sb s counted base cost' held := by
  refine Triple.bind (triple_ilock hcost) fun _ => ?_
  refine Triple.bind (triple_change hsb List.mem_cons_self hi fun _ => ⟨_, _, _, rfl⟩) fun _ => ?_
  exact triple_putReturn hsb hcost hle

variable (hroot : sb.Inum ROOTINO) (hcwd : ∃ g ∈ base, g.ip = s.cwd)
include hroot hcwd

/-- The inode, and the directory with the new entry. -/
theorem triple_sysLink (htop : cost + 4 ≤ top) (old new : Path) :
    Triple (May sb counted s.logged top) (Work sb s counted base paid cost held) (sysLink sb old new name)
      fun _ => Busy sb s counted base (cost + 4) held := by
  refine Triple.bind (triple_namei hsb (by omega) hroot hcwd old name) fun r => ?_
  cases r with
  | none => exact Triple.pure _ fun _ hu => hu.busy (by omega)
  | some ip =>
      refine Triple.exists fun i => Triple.exists fun f => ?_
      refine Triple.bind (triple_ilock (by omega)) fun _ => Triple.look fun t _ => ?_
      refine Triple.ite (fun _ => triple_putReturn hsb (by omega) (by omega)) fun _ => triple_pay i ?_
      refine Triple.bind (triple_change hsb List.mem_cons_self List.mem_cons_self fun _ => ⟨_, _, _, rfl⟩) fun _ => ?_
      refine Triple.bind triple_iunlock fun _ => ?_
      refine Triple.bind (triple_namex hsb (by omega) hroot hcwd new true name) fun r => ?_
      obtain ⟨r, name'⟩ := r
      cases r with
      | none => exact triple_unlinkOld hsb (by omega) List.mem_cons_self (by omega)
      | some dp =>
          refine Triple.exists fun j => Triple.exists fun f => ?_
          refine Triple.bind (triple_ilock (by omega)) fun _ => Triple.look fun t ht => triple_pay j ?_
          have hinum := ht.inum (List.mem_cons_of_mem _ List.mem_cons_self)
          refine Triple.bind (triple_dirlink hsb (by omega) List.mem_cons_self List.mem_cons_self hinum) fun r => ?_
          refine Triple.ite (fun _ => ?_) fun _ => ?_
          · refine Triple.bind (triple_iunlockput hsb (by omega)) fun _ => ?_
            exact triple_unlinkOld hsb (by omega) (List.mem_cons_of_mem _ List.mem_cons_self) (by omega)
          · refine Triple.bind (triple_iunlockput hsb (by omega)) fun _ => ?_
            exact Triple.bind (triple_iput hsb (by omega)) fun _ => Triple.pure _ fun _ hu => hu.busy (by omega)

/-! ## `unlink` -/

omit hroot hcwd in
theorem triple_isdirempty (hcost : cost ≤ top) (hmem : (⟨dp, i, true, f⟩ : Hold) ∈ held) :
    Triple (May sb counted s.logged top) (Work sb s counted base paid cost held) (isdirempty sb dp)
      fun _ => Work sb s counted base paid cost held := by
  have hloop : ∀ offs, Triple (May sb counted s.logged top) (Work sb s counted base paid cost held)
    (emptyFrom sb dp offs)
      fun _ => Work sb s counted base paid cost held := by
    intro offs
    induction offs with
    | nil => exact Triple.pure _ fun _ hu => hu
    | cons off offs ih =>
        refine Triple.bind (triple_readDirent hsb hcost hmem off (by decide)) fun de => ?_
        exact Triple.ite (fun _ => Triple.pure _ fun _ hu => hu) fun _ => ih
  exact Triple.look fun t _ => hloop _

omit hroot hcwd in
theorem triple_removeEntry (htop : cost + 4 ≤ top) (hj : DIRENT * k ≤ MAXFILE * BSIZE) :
    Triple (May sb counted s.logged top)
      (Work sb s counted base paid cost (⟨ip, i, true, f⟩ :: ⟨dp, j, true, f'⟩ :: held))
      (removeEntry sb dp ip (DIRENT * k))
      fun _ => Busy sb s counted base (cost + 4) held := by
  have hdp : (⟨dp, j, true, f'⟩ : Hold) ∈ (⟨ip, i, true, f⟩ : Hold) :: ⟨dp, j, true, f'⟩ :: held :=
    List.mem_cons_of_mem _ List.mem_cons_self
  refine Triple.look fun t _ => triple_pay j ?_
  refine Triple.bind (triple_clearDirent hsb hdp List.mem_cons_self hj) fun r => ?_
  refine Triple.ite (fun _ => fun u hu => hu.may (by omega) (by decide)) fun _ => ?_
  refine Triple.bind (R := fun _ => Work sb s counted base (j :: paid) (cost + 1 + 2)
    (⟨ip, i, true, f⟩ :: ⟨dp, j, true, f'⟩ :: held)) ?_ fun _ => ?_
  · refine Triple.ite (fun _ => ?_) fun _ => Triple.pure _ fun _ hu => hu
    exact triple_change hsb hdp List.mem_cons_self fun _ => ⟨_, _, _, rfl⟩
  · refine Triple.conseq ?_ (fun u hu => hu.swap) fun _ _ h => h
    refine Triple.bind (triple_iunlockput hsb (by omega)) fun _ => triple_pay i ?_
    refine Triple.bind (triple_change hsb List.mem_cons_self List.mem_cons_self fun _ => ⟨_, _, _, rfl⟩) fun _ => ?_
    exact triple_putReturn hsb (by omega) (by omega)

/-- The directory with the entry, and the inode. -/
theorem triple_sysUnlink (htop : cost + 4 ≤ top) (path : Path) :
    Triple (May sb counted s.logged top) (Work sb s counted base paid cost held) (sysUnlink sb path name)
      fun _ => Busy sb s counted base (cost + 4) held := by
  refine Triple.bind (triple_namex hsb (by omega) hroot hcwd path true name) fun r => ?_
  obtain ⟨r, name'⟩ := r
  cases r with
  | none => exact Triple.pure _ fun _ hu => hu.busy (by omega)
  | some dp =>
      refine Triple.exists fun j => Triple.exists fun f => ?_
      refine Triple.bind (triple_ilock (by omega)) fun _ => ?_
      refine Triple.ite (fun _ => triple_putReturn hsb (by omega) (by omega)) fun _ => ?_
      refine Triple.bind (triple_dirlookup hsb (by omega) List.mem_cons_self) fun r => ?_
      cases r with
      | none => exact (triple_putReturn hsb (by omega) (by omega)).conseq (fun _ hu => hu.1) fun _ _ h => h
      | some r =>
          obtain ⟨ip, off⟩ := r
          rintro u ⟨⟨k, rfl, hk⟩, i, hu⟩
          refine Triple.bind (triple_ilock (by omega)) (fun _ => Triple.look fun t _ => ?_) u hu
          refine Triple.ite (fun _ => fun v hv => hv.may (by omega) (by decide)) fun _ => ?_
          refine Triple.bind (R := fun _ =>
            Work sb s counted base paid cost (⟨ip, i, true, false⟩ :: ⟨dp, j, true, f⟩ :: held))
            ?_ fun full => ?_
          · refine Triple.ite (fun _ => ?_) fun _ => Triple.pure _ fun _ hv => hv
            exact Triple.bind (triple_isdirempty hsb (by omega) List.mem_cons_self) fun _ =>
              Triple.pure _ fun _ hv => hv
          · refine Triple.ite (fun _ => ?_) fun _ => triple_removeEntry hsb htop hk
            refine Triple.bind (triple_iunlockput hsb (by omega)) fun _ => ?_
            exact triple_putReturn hsb (by omega) (by omega)

/-! ## `create` -/

omit hroot hcwd in
theorem triple_linkNew (htop : cost + 6 ≤ top) (hi : i ∈ paid) (hj : j ∈ paid) (type : BitVec 16) :
    Triple (May sb counted s.logged top)
    (Work sb s counted base paid cost (⟨ip, i, true, f⟩ :: ⟨dp, j, true, f'⟩ :: held))
      (linkNew sb type ip dp name)
      fun _ => Work sb s counted base paid (cost + 6) (⟨ip, i, true, f⟩ :: ⟨dp, j, true, f'⟩ :: held) := by
  have hdp : (⟨dp, j, true, f'⟩ : Hold) ∈ (⟨ip, i, true, f⟩ : Hold) :: ⟨dp, j, true, f'⟩ :: held :=
    List.mem_cons_of_mem _ List.mem_cons_self
  refine Triple.look fun t ht => ?_
  have hipnum := ht.inum List.mem_cons_self
  have hdpnum := ht.inum hdp
  refine Triple.bind (R := fun _ =>
    Work sb s counted base paid (cost + 4) (⟨ip, i, true, f⟩ :: ⟨dp, j, true, f'⟩ :: held))
    ?_ fun dots => ?_
  · refine Triple.ite (fun _ => ?_) fun _ => Triple.pure _ fun _ hu => hu.mono (by omega)
    refine Triple.bind (triple_dirlink hsb (by omega) List.mem_cons_self hi hipnum) fun r => ?_
    refine Triple.ite (fun _ => Triple.pure _ fun _ hu => hu.mono (by omega)) fun _ => ?_
    exact Triple.bind (triple_dirlink hsb (by omega) List.mem_cons_self hi hdpnum) fun r => Triple.pure _ fun _ hu => hu
  · refine Triple.ite (fun _ => ?_) fun _ => Triple.pure _ fun _ hu => hu.mono (by omega)
    exact Triple.bind (triple_dirlink hsb (by omega) hdp hj hipnum) fun r => Triple.pure _ fun _ hu => hu

/-- What `create` returns is held and locked, and it is a file if one was asked for. -/
def Created (sb : Superblock) (s : State) (counted : Prop) (base : List Hold) (cost : Nat) (held : List Hold)
    (type : BitVec 16) : Option Ip → State → Prop :=
  Cases (Busy sb s counted base cost held) fun ip t =>
    ∃ i f, Busy sb s counted base cost (⟨ip, i, true, f⟩ :: held) t ∧ (type = T_FILE → f = true)

/-- The directory with the entry, the new inode, and three entries. -/
theorem triple_create (htop : cost + 8 ≤ top) (path : Path) {type : BitVec 16} (htype : type ≠ 0)
    (major minor : BitVec 16) :
    Triple (May sb counted s.logged top) (Work sb s counted base paid cost held) (create sb path type major minor name)
      (Created sb s counted base (cost + 8) held type) := by
  refine Triple.bind (triple_namex hsb (by omega) hroot hcwd path true name) fun r => ?_
  obtain ⟨r, name'⟩ := r
  cases r with
  | none => exact Triple.pure _ fun _ hu => hu.busy (by omega)
  | some dp =>
      refine Triple.exists fun j => Triple.exists fun f => ?_
      refine Triple.bind (triple_ilock (by omega)) fun _ => ?_
      refine Triple.bind (triple_dirlookup hsb (by omega) List.mem_cons_self) fun r => ?_
      cases r with
      | some r =>
          -- the name is there
          obtain ⟨ip, off⟩ := r
          rintro u ⟨-, i, hu⟩
          refine Triple.bind (triple_iunlockput hsb (by omega)) (fun _ => ?_) u hu.swap
          refine Triple.bind (triple_ilock (by omega)) fun _ => Triple.bind_get fun t ht => ?_
          refine Triple.ite (fun hfile => Triple.pure _ ?_) fun _ => ?_
          · rintro v rfl
            have hne : (v.itable ip).type ≠ T_DIR := by
              rcases hfile.2 with he | he <;> rw [he] <;> decide
            exact ⟨i, true, (ht.asFile hne).busy (by omega), fun _ => rfl⟩
          · refine Triple.conseq ?_ (fun v hv => hv ▸ ht) fun _ _ h => h
            exact Triple.bind (triple_iunlockput hsb (by omega)) fun _ => Triple.pure _ fun _ hv => hv.busy (by omega)
      | none =>
          refine Triple.conseq ?_ (fun u hu => hu.1) fun _ _ h => h
          refine Triple.bind (triple_ialloc hsb (by omega) htype) fun r => ?_
          cases r with
          | none => exact Triple.bind (triple_iunlockput hsb (by omega)) fun _ => Triple.pure _ fun _ hu =>
              hu.busy (by omega)
          | some ip =>
              refine Triple.exists fun i => ?_
              have hi : i ∈ j :: i :: paid := List.mem_cons_of_mem _ List.mem_cons_self
              refine Triple.bind (triple_ilock (by omega)) fun _ => triple_pay j ?_
              refine Triple.bind (triple_change hsb List.mem_cons_self hi fun _ => ⟨_, _, _, rfl⟩) fun _ => ?_
              refine Triple.bind (triple_linkNew hsb (by omega) hi List.mem_cons_self type) fun ok => ?_
              refine Triple.ite (fun _ => ?_) fun _ => ?_
              · refine Triple.bind (R := fun _ => Work sb s counted base (j :: i :: paid) (cost + 8)
                  (⟨ip, i, true, decide (type ≠ T_DIR)⟩ :: ⟨dp, j, true, f⟩ :: held)) ?_ fun _ => ?_
                · refine Triple.ite (fun _ => ?_) fun _ => Triple.pure _ fun _ hu => hu
                  exact triple_change hsb (List.mem_cons_of_mem _ List.mem_cons_self) List.mem_cons_self fun _ =>
                    ⟨_, _, _, rfl⟩
                · refine Triple.conseq ?_ (fun u hu => hu.swap) fun _ _ h => h
                  refine Triple.bind (triple_iunlockput hsb (by omega)) fun _ => Triple.pure _ fun u hu => ?_
                  refine ⟨i, _, hu.busy (by omega), fun he => ?_⟩
                  rw [he]
                  decide
              · -- something went wrong, and the new inode is freed
                refine Triple.bind (triple_change hsb List.mem_cons_self hi fun _ => ⟨_, _, _, rfl⟩) fun _ => ?_
                refine Triple.bind (triple_iunlockput hsb (by omega)) fun _ => ?_
                exact Triple.bind (triple_iunlockput hsb (by omega)) fun _ => Triple.pure _ fun _ hu =>
                  hu.busy (by omega)

end

end Xv6.Blocks
