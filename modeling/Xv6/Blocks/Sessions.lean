import Xv6.Blocks.Settled

set_option autoImplicit false

/-! # Whole system calls

Each call that begins with the references in the inode table accounted for ends so. If every inode without a link
is referred to when it begins, it logs no more than it may. -/

namespace Xv6.Blocks

open Xv6.Lib
open Xv6.Fs (NINODE NFILE NDEV ROOTINO DIRSIZ MAXFILE Ip)

/-- The blocks that a call may log besides one of the free map. -/
def room : Nat := MAXOPBLOCKS - 1

variable {sb : Superblock} {s t u : State} {counted : Prop} {ip jp dp : Ip} {i j k cost cost' top : Nat}
    {paid : List Nat}
variable {base held : List Hold} {f w : Bool} {others : List Ip} {file : Fin NFILE} {e : File} {name : Buf}

theorem setFile_self (s : State) (file : Fin NFILE) (e : File) : (s.setFile file e).ftable file = e :=
  Function.update_self ..

/-! ## The end -/

/-- A system call has ended, with no more than `top` blocks logged. The current directories are that of the process
    that runs and `others`. -/
def Finished (sb : Superblock) (counted : Prop) (log : List Nat) (top : Nat) (others : List Ip) (t : State) : Prop :=
  Settled sb (t.cwd :: others) t ∧ Logs sb counted log [] top t

theorem lasting_cwd (s : State) (others : List Ip) : ∃ g ∈ s.lasting (s.cwd :: others), g.ip = s.cwd :=
  ⟨_, List.mem_cons_self, rfl⟩

theorem Work.finished (h : Work sb s counted base paid cost held t) (hcost : cost ≤ top)
    (hfree : ∀ g ∈ held ++ base, g.locked = false)
    (hp : ((held ++ base).map fun g => (g.ip, g.file)).Perm (pins (s.cwd :: others) s.ftable))
    (hclosed : ∀ f, (s.ftable f).ref = 0 → (s.ftable f).type = .none) : Finished sb counted s.logged top others t := by
  refine ⟨?_, h.logs.mono (fun _ hi => absurd hi List.not_mem_nil) (fun _ => hcost) rfl⟩
  rw [h.cwd]
  exact h.settled hfree hp hclosed

theorem Busy.finished (h : Busy sb s counted (s.lasting (s.cwd :: others)) cost [] t)
    (hs : Settled sb (s.cwd :: others) s)
    (hcost : cost ≤ top) : Finished sb counted s.logged top others t := by
  obtain ⟨paid, h⟩ := h
  refine h.finished hcost (fun g hg => lasting_free hg) ?_ hs.closed
  rw [List.nil_append, lasting_pins]

/-- An entry of the file table has changed, and what it refers to is taken or given back. -/
theorem Work.finishedFile {s' : State} (h : Work sb s' counted base paid cost held t)
    (hs : Settled sb (s.cwd :: others) s)
    (hcost : cost ≤ top) (hlog : s'.logged = s.logged) (hcwd : s'.cwd = s.cwd)
    (hftable : s'.ftable = Function.update s.ftable file e) (he : e.ref = 0 → e.type = .none)
    (hfree : ∀ g ∈ held ++ base, g.locked = false)
    (hp : ((s.ftable file).pin ++ (held ++ base).map fun g => (g.ip, g.file)).Perm
      (e.pin ++ pins (s.cwd :: others) s.ftable)) : Finished sb counted s.logged top others t := by
  rw [← hlog]
  refine h.finished hcost hfree ?_ fun f hf => ?_
  · rw [hcwd, hftable]
    exact (List.perm_append_left_iff _).1 (hp.trans (pins_perm _ _ _ _).symm)
  · rw [hftable] at hf ⊢
    by_cases hfile : f = file
    · subst hfile
      rw [Function.update_self] at hf ⊢
      exact he hf
    · rw [Function.update_of_ne hfile] at hf ⊢
      exact hs.closed f hf

theorem File.pin_of_none (h : e.type = .none) : e.pin = [] := if_pos h

theorem File.pin_of_ne (h : e.type ≠ .none) : e.pin = [(e.ip, e.writable)] := if_neg h

/-- An open file is among what is referred to. -/
theorem lasting_file (s : State) (cwds : List Ip) (h : (s.ftable file).type ≠ .none) : ∃ base', (s.lasting cwds).Perm
    (⟨(s.ftable file).ip, (s.itable (s.ftable file).ip).inum, false, (s.ftable file).writable⟩ :: base') := by
  have hmem : ((s.ftable file).ip, (s.ftable file).writable) ∈ pins cwds s.ftable := by
    refine List.mem_append_right _ (List.mem_filterMap.2 ⟨file, mem_files file, ?_⟩)
    rw [if_neg h]
  obtain ⟨l, r, hlr⟩ := List.append_of_mem hmem
  refine ⟨(l ++ r).map fun p => ⟨p.1, (s.itable p.1).inum, false, p.2⟩, ?_⟩
  unfold State.lasting
  rw [hlr]
  exact List.perm_middle.map _

/-- What is taken of the references and given back. -/
theorem map_lasting {g : Hold} {base' : List Hold} {cwds : List Ip} (h : (s.lasting cwds).Perm (g :: base')) :
    ((g :: base').map fun g => (g.ip, g.file)).Perm (pins cwds s.ftable) := by
  rw [← lasting_pins]
  exact (h.map _).symm

theorem free_of_perm {g : Hold} {base' : List Hold} {cwds : List Ip} (h : (s.lasting cwds).Perm (g :: base')) :
    ∀ g' ∈ g :: base', g'.locked = false := fun _ hg' => lasting_free (h.mem_iff.2 hg')

/-! ## The file table -/

theorem triple_filealloc : Triple (May sb counted s.logged top) (Work sb s counted base paid cost held) filealloc
    (Cases (Work sb s counted base paid cost held) fun file t =>
      Work sb (s.setFile file { s.ftable file with ref := 1 }) counted base paid cost held t ∧
      (s.ftable file).ref = 0) := by
  intro t h
  have hrun : filealloc t = (files.find? fun f => decide ((t.ftable f).ref = 0)).elim (.ok (none, t)) fun f =>
      .ok (some f, t.setFile f { t.ftable f with ref := 1 }) := by
    unfold filealloc
    refine (bind_of_ok (a := t) (t := t) rfl).trans ?_
    cases files.find? fun f => decide ((t.ftable f).ref = 0) <;> rfl
  rw [hrun]
  cases hfind : files.find? fun f => decide ((t.ftable f).ref = 0) with
  | none => exact h
  | some file =>
      have hsome := List.find?_some hfind
      have href : (t.ftable file).ref = 0 := of_decide_eq_true hsome
      rw [h.ftable] at href
      refine ⟨?_, href⟩
      rw [h.ftable]
      exact h.setFile file _

theorem triple_fdalloc : Triple (May sb counted s.logged top) (Work sb s counted base paid cost held) (fdalloc file)
    (Cases (Work sb s counted base paid cost held) fun fd t =>
      Work sb { s with ofile := Function.update s.ofile fd (some file) } counted base paid cost held t) := by
  intro t h
  have hrun : fdalloc file t = (fds.find? fun fd => decide (t.ofile fd = none)).elim (.ok (none, t)) fun fd =>
      .ok (some fd, { t with ofile := Function.update t.ofile fd (some file) }) := by
    unfold fdalloc
    refine (bind_of_ok (a := t) (t := t) rfl).trans ?_
    cases fds.find? fun fd => decide (t.ofile fd = none) <;> rfl
  rw [hrun]
  cases fds.find? fun fd => decide (t.ofile fd = none) with
  | none => exact h
  | some fd =>
      rw [h.ofile]
      exact h.setOfile _

/-- A file that has just been allocated is closed. -/
theorem triple_fileclose_new (href : (s.ftable file).ref = 1) (htype : (s.ftable file).type = .none) :
    Triple (May sb counted s.logged top) (Work sb s counted base paid cost held) (fileclose sb file) fun _ =>
      Work sb (s.setFile file { s.ftable file with
        ref := 0
        type := .none }) counted base paid cost held := by
  unfold fileclose
  refine Triple.look fun t ht => ?_
  rw [ht.ftable]
  refine Triple.ite (fun hlt => absurd hlt (by omega)) fun _ =>
    Triple.ite (fun hlt => absurd hlt (by omega)) fun _ => ?_
  refine Triple.bind (R := fun _ => Work sb (s.setFile file { s.ftable file with
    ref := 0
    type := .none }) counted base paid cost held) (Triple.set _ fun _ _ => ht.setFile file _) fun _ => ?_
  exact Triple.ite (fun _ => Triple.pure _ fun _ hu => hu) fun hne => absurd htype hne

/-! ## `open` -/

/-- Whether a file that is opened so is writable. -/
def writes (omode : Uint) : Bool := decide (omode &&& Fs.O_WRONLY ≠ 0 ∨ omode &&& Fs.O_RDWR ≠ 0)

theorem writes_zero : writes 0 = false := by decide

/-- What `openInode` returns is held and locked. -/
def Opened (sb : Superblock) (s : State) (counted : Prop) (base : List Hold) (cost : Nat) (held : List Hold)
    (w : Bool) :
    Option Ip → State → Prop :=
  Cases (Busy sb s counted base cost held) fun ip t => ∃ i, Busy sb s counted base cost (⟨ip, i, true, w⟩ :: held) t

/-- Once the inode, the file and the descriptor are there. -/
theorem triple_openFile (hsb : sb.Ordered) (fd : Fin NOFILE) (omode : Uint) :
    Triple (May sb counted s.logged top) (Work sb s counted base paid cost (⟨ip, i, true, w⟩ :: held))
      (openFile sb ip file fd omode) fun _ t => ∃ e : File, e.type ≠ .none ∧ e.ref = (s.ftable file).ref ∧
        e.pin = [(ip, writes omode)] ∧
        Work sb (s.setFile file e) counted base (i :: paid) (cost + 1) (⟨ip, i, false, w⟩ :: held) t := by
  refine Triple.look fun t _ => ?_
  let e : File := { s.ftable file with
    type := if (t.itable ip).type = T_DEVICE then .device else .inode
    major := if (t.itable ip).type = T_DEVICE then (t.itable ip).major else (s.ftable file).major
    off := if (t.itable ip).type = T_DEVICE then (s.ftable file).off else 0
    ip := ip
    readable := decide (omode &&& Fs.O_WRONLY = 0)
    writable := writes omode }
  have htype : e.type ≠ .none := by
    show (if (t.itable ip).type = T_DEVICE then Fs.FdType.device else .inode) ≠ .none
    split <;> decide
  refine Triple.bind (R := fun _ =>
    Work sb (s.setFile file e) counted base (i :: paid) (cost + 1) (⟨ip, i, true, w⟩ :: held))
    (Triple.modify _ fun u hu => ?_) fun _ => ?_
  · have hset := (hu.pay i).setFile file e
    simp only [hu.ftable]
    exact hset
  · refine Triple.bind (R := fun _ =>
    Work sb (s.setFile file e) counted base (i :: paid) (cost + 1) (⟨ip, i, true, w⟩ :: held))
      ?_ fun _ => ?_
    · exact Triple.ite (fun _ => triple_itrunc hsb List.mem_cons_self List.mem_cons_self) fun _ =>
      Triple.pure _ fun _ hu => hu
    · exact Triple.bind triple_iunlock fun _ => Triple.pure _ fun _ hu => ⟨e, htype, rfl, File.pin_of_ne htype, hu⟩

section

variable (hsb : sb.Ordered) (hroot : sb.Inum ROOTINO)
include hsb hroot

theorem triple_openInode (hcwd : ∃ g ∈ base, g.ip = s.cwd) (htop : cost + 8 ≤ top) (path : Path) (omode : Uint) :
    Triple (May sb counted s.logged top) (Work sb s counted base paid cost held) (openInode sb path omode name)
      (Opened sb s counted base (cost + 8) held (writes omode)) := by
  refine Triple.ite (fun _ => ?_) fun _ => ?_
  · refine (triple_create hsb hroot hcwd htop path (by decide) 0 0).conseq (fun _ hu => hu) fun r u hu => ?_
    cases r with
    | none => exact hu
    | some ip =>
        obtain ⟨i, f, ⟨paid, hu⟩, hf⟩ := hu
        exact ⟨i, paid, hu.weaken fun _ => hf rfl⟩
  · refine Triple.bind (triple_namei hsb (by omega) hroot hcwd path name) fun r => ?_
    cases r with
    | none => exact Triple.pure _ fun _ hu => hu.busy (by omega)
    | some ip =>
        refine Triple.exists fun i => Triple.exists fun f => ?_
        refine Triple.bind (triple_ilock (by omega)) fun _ => Triple.bind_get fun t ht => ?_
        refine Triple.ite (fun _ => ?_) fun hdir => Triple.pure _ ?_
        · refine Triple.conseq ?_ (fun v hv => hv ▸ ht) fun _ _ h => h
          exact Triple.bind (triple_iunlockput hsb (by omega)) fun _ => Triple.pure _ fun _ hv => hv.busy (by omega)
        · rintro v rfl
          refine ⟨i, paid, Work.mono ?_ (Nat.le_add_right cost 8)⟩
          by_cases hdirectory : (v.itable ip).type = T_DIR
          · -- a directory is opened for reading
            have hmode : omode = 0 := by
              by_contra hne
              exact hdir ⟨hdirectory, hne⟩
            rw [hmode, writes_zero]
            exact ht.weaken fun hf => absurd hf Bool.false_ne_true
          · exact (ht.asFile hdirectory).weaken fun _ => rfl

theorem triple_makeInode (hcwd : ∃ g ∈ base, g.ip = s.cwd) (htop : cost + 8 ≤ top)
    (path : Option Path) {type : BitVec 16}
    (htype : type ≠ 0) (major minor : BitVec 16) :
    Triple (May sb counted s.logged top) (Work sb s counted base paid cost held)
    (makeInode sb path type major minor name)
      fun _ => Busy sb s counted base (cost + 8) held := by
  cases path with
  | none => exact Triple.pure _ fun _ hu => hu.busy (by omega)
  | some path =>
      refine Triple.bind (triple_create hsb hroot hcwd htop path htype major minor) fun r => ?_
      cases r with
      | none => exact Triple.pure _ fun _ hu => hu
      | some ip =>
          rintro u ⟨i, f, ⟨paid, hu⟩, -⟩
          exact triple_putReturn hsb htop (Nat.le_refl _) u hu

end

/-! ## From the beginning to the end -/

section

variable (hsb : sb.Ordered) (hroot : sb.Inum ROOTINO) (hs : Settled sb (s.cwd :: others) s)
variable (hkept : counted → NoOrphan sb (s.cwd :: others) s)

include hs hkept in
theorem triple_call {α : Type} {x : K α} {Q : α → State → Prop} (hx : Triple (May sb counted s.logged room)
    (Work sb s counted (s.lasting (s.cwd :: others)) [] 0 []) x Q) :
    Triple (May sb counted s.logged room) (fun t => t = s) x Q :=
  hx.conseq (fun _ ht => ht ▸ hs.work hkept) fun _ _ hq => hq

include hs hkept in
/-- A call that refers to inodes only while it runs. -/
theorem triple_busy {α : Type} {x : K α} (cost : Nat) (hcost : cost ≤ room) (hx : Triple (May sb counted s.logged room)
    (Work sb s counted (s.lasting (s.cwd :: others)) [] 0 []) x fun _ =>
    Busy sb s counted (s.lasting (s.cwd :: others)) cost []) :
    Triple (May sb counted s.logged room) (fun t => t = s) x fun _ => Finished sb counted s.logged room others :=
  triple_call hs hkept (hx.conseq (fun _ hu => hu) fun _ _ hu => hu.finished hs hcost)

include hsb hroot hs hkept

theorem sysLink_finished (old new : Path) : Triple (May sb counted s.logged room) (fun t => t = s)
    (sysLink sb old new name) fun _ => Finished sb counted s.logged room others :=
  triple_busy hs hkept 4 (by decide) (triple_sysLink hsb hroot (lasting_cwd s others) (by decide) old new)

theorem sysUnlink_finished (path : Path) : Triple (May sb counted s.logged room) (fun t => t = s)
    (sysUnlink sb path name) fun _ => Finished sb counted s.logged room others :=
  triple_busy hs hkept 4 (by decide) (triple_sysUnlink hsb hroot (lasting_cwd s others) (by decide) path)

theorem makeInode_finished (path : Option Path) {type : BitVec 16} (htype : type ≠ 0) (major minor : BitVec 16) :
    Triple (May sb counted s.logged room) (fun t => t = s) (makeInode sb path type major minor name)
      fun _ => Finished sb counted s.logged room others :=
  triple_busy hs hkept 8 (by decide)
    (triple_makeInode hsb hroot (lasting_cwd s others) (by decide) path htype major minor)

theorem sysChdir_finished (path : Option Path) : Triple (May sb counted s.logged room) (fun t => t = s)
    (sysChdir sb path name) fun _ => Finished sb counted s.logged room others := by
  refine triple_call hs hkept ?_
  cases path with
  | none => exact Triple.pure _ fun _ hu => (hu.busy (Nat.le_refl 0)).finished hs (by decide)
  | some path =>
      refine Triple.bind (triple_namei hsb (by decide) hroot (lasting_cwd s others) path name) fun r => ?_
      cases r with
      | none => exact Triple.pure _ fun _ hu => (Work.busy hu (Nat.le_refl 0)).finished hs (by decide)
      | some ip =>
          refine Triple.exists fun i => Triple.exists fun f => ?_
          refine Triple.bind (triple_ilock (by decide)) fun _ => Triple.look fun t ht => ?_
          refine Triple.ite (fun _ => ?_) fun _ => ?_
          · exact (triple_putReturn hsb (by decide) (Nat.le_refl 0)).conseq (fun _ hu => hu) fun _ _ hu =>
              hu.finished hs (by decide)
          · refine Triple.bind triple_iunlock fun _ => ?_
            rw [ht.cwd]
            -- the reference to the old directory is given back
            refine Triple.bind (R := fun _ => Work sb s counted (s.lasting others) [(s.itable s.cwd).inum] 1 [⟨ip, i, false, f⟩])
              ?_ fun _ => ?_
            · exact (triple_iput_paid hsb (by decide) List.mem_cons_self).conseq (fun u hu => hu.take (List.Perm.refl _))
                fun _ _ hu => hu
            · refine Triple.bind (R := fun _ => Work sb { s with cwd := ip } counted (s.lasting others)
                [(s.itable s.cwd).inum] 1 [⟨ip, i, false, f⟩]) (Triple.modify _ fun u hu => hu.setCwd ip) fun _ => ?_
              refine Triple.pure _ fun u hu => ?_
              have hend := hu.weaken (w := false) fun hf => absurd hf Bool.false_ne_true
              refine hend.finished (by decide) (fun g hg => ?_) ?_ hs.closed
              · rcases List.mem_cons.1 hg with rfl | hg
                · rfl
                · exact lasting_free hg
              · rw [List.cons_append, List.nil_append, List.map_cons, lasting_pins]
                exact List.Perm.refl _

theorem sysOpen_finished (path : Path) (omode : Uint) : Triple (May sb counted s.logged room) (fun t => t = s)
    (sysOpen sb path omode name) fun _ => Finished sb counted s.logged room others := by
  refine triple_call hs hkept ?_
  refine Triple.bind (triple_openInode hsb hroot (lasting_cwd s others) (by decide) path omode) fun r => ?_
  cases r with
  | none => exact Triple.pure _ fun _ hu => Busy.finished hu hs (by decide)
  | some ip =>
      rintro u ⟨i, paid, hu⟩
      have hput : Triple (May sb counted s.logged room)
          (Work sb s counted (s.lasting (s.cwd :: others)) paid 8 [⟨ip, i, true, writes omode⟩])
          (do
            iunlockput sb ip
            pure (-1) : K Int) fun _ => Finished sb counted s.logged room others :=
        (triple_putReturn hsb (by decide) (Nat.le_refl 8)).conseq (fun _ hv => hv) fun _ _ hv =>
        hv.finished hs (by decide)
      refine (Triple.look fun t _ => Triple.ite (fun _ => hput) fun _ => ?_ : Triple (May sb counted s.logged room)
        (Work sb s counted (s.lasting (s.cwd :: others)) paid 8 [⟨ip, i, true, writes omode⟩]) _ _) u hu
      refine Triple.bind triple_filealloc fun r => ?_
      cases r with
      | none => exact hput
      | some file =>
          refine Triple.assume fun href => ?_
          have hnew := File.pin_of_none (hs.closed file href)
          have hmap : ((s.lasting (s.cwd :: others)).map fun g => (g.ip, g.file)) = pins (s.cwd :: others) s.ftable :=
            lasting_pins s _
          refine Triple.bind (triple_fdalloc (s := s.setFile file { s.ftable file with ref := 1 })) fun r => ?_
          cases r with
          | none =>
              refine Triple.bind (triple_fileclose_new (s := s.setFile file { s.ftable file with ref := 1 }) ?_ ?_)
                fun _ => ?_
              · rw [setFile_self]
              · rw [setFile_self]
                exact hs.closed file href
              · refine Triple.bind (triple_iunlockput hsb (by decide)) fun _ => Triple.pure _ fun v hv => ?_
                refine hv.finishedFile hs (by decide) rfl rfl (Function.update_idem ..) (fun _ => rfl)
                  (fun g hg => lasting_free hg) ?_
                rw [List.nil_append, hmap, hnew, File.pin_of_none rfl]
          | some fd =>
              refine (triple_openFile (s := { s.setFile file { s.ftable file with ref := 1 } with
                ofile := Function.update s.ofile fd (some file) }) hsb fd omode).conseq
                (fun _ hv => hv) fun _ v hv => ?_
              obtain ⟨e, htype, heref, hpin, hv⟩ := hv
              have heref : e.ref = 1 := by
                rw [heref]
                exact congrArg File.ref (setFile_self s file _)
              refine hv.finishedFile hs (by decide) rfl rfl (Function.update_idem ..) (fun h0 => absurd h0 (by omega))
                (fun g hg => ?_) ?_
              · rcases List.mem_cons.1 hg with rfl | hg
                · rfl
                · exact lasting_free hg
              · rw [hnew, hpin, List.nil_append, List.cons_append, List.nil_append, List.map_cons, hmap]
                exact List.Perm.refl _

/-- What `kexec` reads of a file. -/
theorem readFile_finished (path : Path) (reads : List (Uint × Uint)) :
    Triple (May sb counted s.logged room) (fun t => t = s)
    (readFile sb path reads name) fun _ => Finished sb counted s.logged room others := by
  refine triple_busy hs hkept 0 (by decide) ?_
  refine Triple.bind (triple_namei hsb (by decide) hroot (lasting_cwd s others) path name) fun r => ?_
  cases r with
  | none => exact Triple.pure _ fun _ hu => Work.busy hu (Nat.le_refl 0)
  | some ip =>
      refine Triple.exists fun i => Triple.exists fun f => ?_
      refine Triple.bind (triple_ilock (by decide)) fun _ => ?_
      refine Triple.bind (Triple.forM fun r _ => ?_) fun _ => ?_
      · exact Triple.bind (triple_readi hsb List.mem_cons_self kernelDst r.1 r.2) fun _ => Triple.pure _ fun _ hu => hu
      · exact (triple_iunlockput hsb (by decide)).conseq (fun _ hu => hu) fun _ _ hu => hu.busy (Nat.le_refl 0)

omit hroot

/-- The last `fileclose` puts the inode back. -/
theorem fileclose_finished (file : Fin NFILE) : Triple (May sb counted s.logged room) (fun t => t = s)
    (fileclose sb file) fun _ => Finished sb counted s.logged room others := by
  refine triple_call hs hkept ?_
  have hmap := lasting_pins s (s.cwd :: others)
  refine Triple.look fun t ht => ?_
  rw [ht.ftable]
  refine Triple.ite (fun _ => fun u hu => hu.may (by decide) (by decide)) fun hlt => ?_
  refine Triple.ite (fun hmore => ?_) fun hlast => ?_
  · refine Triple.set _ fun u _ => ?_
    refine (ht.setFile file _).finishedFile hs (by decide) rfl rfl rfl (fun h0 => ?_) (fun g hg => lasting_free hg) ?_
    · have h0 : (s.ftable file).ref - 1 = 0 := h0
      omega
    · rw [List.nil_append, hmap]
      exact List.Perm.refl _
  · let e : File := { s.ftable file with
      ref := 0
      type := .none }
    refine Triple.bind (R := fun _ => Work sb (s.setFile file e) counted (s.lasting (s.cwd :: others)) [] 0 [])
      (Triple.set _ fun _ _ => ht.setFile file e) fun _ => ?_
    have hpin : e.pin = [] := File.pin_of_none rfl
    refine Triple.ite (fun hnone => Triple.pure _ fun u hu => ?_) fun hopen => ?_
    · refine hu.finishedFile hs (by decide) rfl rfl rfl (fun _ => rfl) (fun g hg => lasting_free hg) ?_
      rw [List.nil_append, hmap, hpin, File.pin_of_none hnone]
    · obtain ⟨base', hbase⟩ := lasting_file s (s.cwd :: others) hopen
      have hcost : 1 ≤ room := by decide
      refine ((triple_iput_paid (s := s.setFile file e) hsb hcost List.mem_cons_self).conseq
        (fun u hu => hu.take hbase) fun _ _ hu => hu).conseq (fun _ hu => hu) fun _ u hu => ?_
      refine hu.finishedFile hs (by decide) rfl rfl rfl (fun _ => rfl) (fun g hg => ?_) ?_
      · exact free_of_perm hbase g (List.mem_cons_of_mem _ hg)
      · rw [hpin, File.pin_of_ne hopen]
        exact map_lasting hbase

/-- The reference of an open file to its inode. -/
def State.fileHold (s : State) (file : Fin NFILE) (locked : Bool) : Hold :=
  ⟨(s.ftable file).ip, (s.itable (s.ftable file).ip).inum, locked, (s.ftable file).writable⟩

omit hsb in
/-- The inode of an open file is used, and then the offset may have changed. -/
theorem triple_file {α : Type} {x : K α} (htype : (s.ftable file).type ≠ .none) (cost : Nat) (hcost : cost ≤ room)
    (hx : ∀ paid base, (s.itable (s.ftable file).ip).inum ∈ paid → Triple (May sb counted s.logged room)
      (Work sb s counted base paid 1 [s.fileHold file false]) x fun _ t => ∃ off,
        Work sb (s.setFile file { s.ftable file with off := off }) counted base paid cost [s.fileHold file false] t) :
    Triple (May sb counted s.logged room) (fun t => t = s) x fun _ t => Finished sb counted s.logged room others t ∧
      ∃ off, t.ftable = Function.update s.ftable file { s.ftable file with off := off } := by
  obtain ⟨base', hbase⟩ := lasting_file s (s.cwd :: others) htype
  refine triple_call hs hkept ((hx _ base' List.mem_cons_self).conseq (fun u hu => hu.take hbase) fun _ u hu => ?_)
  obtain ⟨off, hu⟩ := hu
  refine ⟨hu.finishedFile hs hcost rfl rfl rfl (hs.closed file) (free_of_perm hbase) ?_, off, hu.ftable⟩
  exact (map_lasting hbase).append_left _

omit hsb hs hkept in
/-- The end of `fileread` and of a transaction of `filewrite`. -/
theorem triple_advance {α : Type} {a : α} {r : Int} {base : List Hold} :
    Triple (May sb counted s.logged room) (Work sb s counted base paid cost [s.fileHold file true]) (do
      (if 0 < r then modify fun t => t.setFile file
      { t.ftable file with off := (s.ftable file).off + BitVec.ofInt 32 r }
      else pure ⟨⟩)
      iunlock (s.ftable file).ip
      pure a : K α) fun _ t => ∃ off,
        Work sb (s.setFile file { s.ftable file with off := off }) counted base paid cost [s.fileHold file false]
        t := by
  let off := if 0 < r then (s.ftable file).off + BitVec.ofInt 32 r else (s.ftable file).off
  refine Triple.bind (R := fun _ => Work sb (s.setFile file { s.ftable file with off := off }) counted base paid cost
    [s.fileHold file true]) (Triple.ite (fun hpos => Triple.modify _ fun u hu => ?_) fun hpos =>
    Triple.pure _ fun u hu => ?_)
    fun _ => ?_
  · rw [show off = _ from if_pos hpos, hu.ftable]
    exact hu.setFile file _
  · rw [show off = _ from if_neg hpos]
    refine hu.files rfl ⟨_, _, _, rfl⟩ ?_ hu.ofile hu.cwd
    rw [hu.ftable]
    exact (Function.update_eq_self file s.ftable).symm
  · exact Triple.bind triple_iunlock fun _ => Triple.pure _ fun _ hu => ⟨off, hu⟩

theorem fileread_finished (file : Fin NFILE) (dst : Dest) (n : Uint) :
    Triple (May sb counted s.logged room) (fun t => t = s)
    (fileread sb file dst n) fun _ => Finished sb counted s.logged room others := by
  refine Triple.bind_get fun t ht => ?_
  subst ht
  refine Triple.ite (fun _ => ?_) fun _ => Triple.ite (fun _ => ?_) fun htype => ?_
  · exact triple_call hs hkept (Triple.pure _ fun _ hu => (hu.busy (Nat.le_refl 0)).finished hs (by decide))
  · exact triple_call hs hkept fun u hu => hu.may (by decide) (by decide)
  · have hopen : (t.ftable file).type ≠ .none := by
      rw [not_not.1 htype]
      decide
    refine (triple_file hs hkept hopen 1 (by decide) fun paid base hpaid => ?_).conseq
      (fun _ hu => hu) fun _ _ hu => hu.1
    refine Triple.bind (triple_ilock (by decide)) fun _ => ?_
    exact Triple.bind (triple_readi hsb List.mem_cons_self dst _ n) fun r => triple_advance

/-- A chunk of `filewrite` is in at most four blocks. -/
theorem writeSome_finished (htype : (s.ftable file).type = .inode) (hw : (s.ftable file).writable = true) (src : Source)
    {n : Nat} (hn : n ≤ maxWrite) : Triple (May sb counted s.logged room) (fun t => t = s)
    (writeSome sb file src n) fun _ t => Finished sb counted s.logged room others t ∧
      ∃ off, t.ftable = Function.update s.ftable file { s.ftable file with off := off } := by
  refine Triple.bind_get fun t ht => ?_
  subst ht
  have hopen : (t.ftable file).type ≠ .none := by
    rw [htype]
    decide
  refine triple_file hs hkept hopen 6 (by decide) fun paid base hpaid => ?_
  have hhold : ∀ locked, t.fileHold file locked =
    ⟨(t.ftable file).ip, (t.itable (t.ftable file).ip).inum, locked, true⟩ := by
    intro locked
    unfold State.fileHold
    rw [hw]
  have hmax : n ≤ 3 * BSIZE := hn
  refine Triple.bind (triple_ilock (by decide)) fun _ => ?_
  refine Triple.bind (R := fun _ => Work sb t counted base paid (1 + (4 + 1)) [t.fileHold file true]) ?_ fun r =>
    triple_advance
  rw [← State.fileHold, hhold]
  refine triple_writei hsb List.mem_cons_self hpaid ?_
  have hlt : BSIZE * 3 < 2 ^ 32 := by decide
  rw [BitVec.toNat_ofNat, Nat.mod_eq_of_lt (by omega)]
  have hmod := Nat.div_add_mod (t.ftable file).off.toNat BSIZE
  have hrem : (t.ftable file).off.toNat % BSIZE < BSIZE := Nat.mod_lt _ (by decide)
  rw [Nat.add_mul, Nat.mul_comm]
  omega

/-- The end of `kexit`. -/
theorem triple_putCwd : Triple (May sb counted s.logged room) (fun t => t = s) (iput sb s.cwd)
    fun _ t => Settled sb others t ∧ Logs sb counted s.logged [] room t := by
  refine triple_call hs hkept ((triple_iput_paid hsb (by decide) List.mem_cons_self).conseq
    (fun u hu => hu.take (List.Perm.refl _)) fun _ u hu => ?_)
  refine ⟨hu.settled (fun g hg => lasting_free hg) ?_ hs.closed, hu.logs.mono (fun _ hi => absurd hi List.not_mem_nil)
    (fun _ => by decide) rfl⟩
  exact List.Perm.of_eq (lasting_pins s others)

end

/-! ## What a transaction logs -/

/-- What a process does between a `begin_op` and an `end_op`. -/
inductive Transaction where
  | sysOpen (path : Path) (omode : Uint)
  | sysMkdir (path : Option Path)
  | sysMknod (path : Option Path) (major minor : BitVec 16)
  | sysLink (old new : Path)
  | sysUnlink (path : Path)
  | sysChdir (path : Option Path)
  /-- `kexec` reads its file. -/
  | kexec (path : Path) (reads : List (Uint × Uint))
  | fileclose (file : Fin NFILE)
  /-- `kexit` puts the current directory back. -/
  | kexit
  /-- A chunk of `filewrite`. -/
  | filewrite (file : Fin NFILE) (src : Source) (n : Nat)

def Transaction.code (sb : Superblock) (name : Buf) : Transaction → K PUnit
  | sysOpen path omode => do
      let _ ← Blocks.sysOpen sb path omode name
  | sysMkdir path => do
      let _ ← Blocks.sysMkdir sb path name
  | sysMknod path major minor => do
      let _ ← Blocks.sysMknod sb path major minor name
  | sysLink old new => do
      let _ ← Blocks.sysLink sb old new name
  | sysUnlink path => do
      let _ ← Blocks.sysUnlink sb path name
  | sysChdir path => do
      let _ ← Blocks.sysChdir sb path name
  | kexec path reads => readFile sb path reads name
  | fileclose file => Blocks.fileclose sb file
  | kexit => do
      let s ← get
      iput sb s.cwd
  | filewrite file src n => do
      let _ ← writeSome sb file src n

/-- `filewrite` has looked at the file, and writes no more than `maxWrite` bytes at a time. -/
def Transaction.Ready (s : State) : Transaction → Prop
  | filewrite file _ n => (s.ftable file).type = .inode ∧ (s.ftable file).writable = true ∧ n ≤ maxWrite
  | _ => True

theorem Triple.lastState {α : Type} {x : K α} {Q : α → State → Prop} {R : State → Prop}
    (hx : Triple (May sb counted s.logged room) (fun t => t = s) x Q) (hQ : ∀ a t, Q a t → R t)
    (hmay : ∀ p t, May sb counted s.logged room (p, t) → R t) : R (lastState (x s)) := by
  have h := hx s rfl
  cases hr : x s with
  | error e =>
      rw [hr] at h
      exact hmay e.1 e.2 h
  | ok r =>
      rw [hr] at h
      exact hQ r.1 r.2 h

theorem Triple.discard {α : Type} {may : Panic × State → Prop} {P : State → Prop} {x : K α} {R : State → Prop}
    (hx : Triple may P x fun _ => R) : Triple may P (do
      let _ ← x : K PUnit) fun _ => R :=
  Triple.bind hx fun _ => Triple.pure _ fun _ hr => hr

theorem Transaction.triple (hsb : sb.Ordered) (hroot : sb.Inum ROOTINO) (hs : Settled sb (s.cwd :: others) s)
    (hkept : counted → NoOrphan sb (s.cwd :: others) s) (tx : Transaction) (htx : tx.Ready s) (name : Buf) :
    Triple (May sb counted s.logged room) (fun t => t = s) (tx.code sb name) fun _ =>
    Logs sb counted s.logged [] room := by
  have hlogs : ∀ {α : Type} {x : K α}, (Triple (May sb counted s.logged room) (fun t => t = s) x fun _ =>
      Finished sb counted s.logged room others) →
      Triple (May sb counted s.logged room) (fun t => t = s) x fun _ => Logs sb counted s.logged [] room :=
    fun hx => hx.conseq (fun _ ht => ht) fun _ _ ht => ht.2
  cases tx with
  | sysOpen path omode => exact Triple.discard (hlogs (sysOpen_finished hsb hroot hs hkept path omode))
  | sysMkdir path => exact Triple.discard (hlogs (makeInode_finished hsb hroot hs hkept path (by decide) 0 0))
  | sysMknod path major minor =>
      exact Triple.discard (hlogs (makeInode_finished hsb hroot hs hkept path (by decide) major minor))
  | sysLink old new => exact Triple.discard (hlogs (sysLink_finished hsb hroot hs hkept old new))
  | sysUnlink path => exact Triple.discard (hlogs (sysUnlink_finished hsb hroot hs hkept path))
  | sysChdir path => exact Triple.discard (hlogs (sysChdir_finished hsb hroot hs hkept path))
  | kexec path reads => exact hlogs (readFile_finished hsb hroot hs hkept path reads)
  | fileclose file => exact hlogs (fileclose_finished hsb hs hkept file)
  | kexit =>
      refine Triple.bind_get fun t ht => ?_
      subst ht
      exact (triple_putCwd hsb hs hkept).conseq (fun _ ht => ht) fun _ _ ht => ht.2
  | filewrite file src n =>
      obtain ⟨htype, hw, hn⟩ := htx
      refine Triple.discard ((writeSome_finished hsb hs hkept htype hw src hn).conseq (fun _ ht => ht) fun _ _ ht =>
        ht.1.2)

/-- With one block for the free map, a transaction that begins with no orphan logs no more blocks than `begin_op` has
    room for, also if it panics. -/
theorem transaction_fits (hsb : sb.Ordered) (hone : sb.size.toNat ≤ BPB) (hroot : sb.Inum ROOTINO)
    (hs : Settled sb (s.cwd :: others) s) (hkept : NoOrphan sb (s.cwd :: others) s) (tx : Transaction)
    (htx : tx.Ready s)
    (name : Buf) : ∃ new, (lastState (tx.code sb name s)).logged = new ++ s.logged ∧
    new.toFinset.card ≤ MAXOPBLOCKS := by
  have hlogs : Logs sb True s.logged [] room (lastState (tx.code sb name s)) :=
    Triple.lastState (tx.triple hsb hroot hs (fun _ => hkept) htx name) (fun _ _ ht => ht) fun _ _ ht => ht.2
  obtain ⟨new, D, hnew, hD, -, hb⟩ := hlogs
  refine ⟨new, hnew, ?_⟩
  -- all of the free map is in one block
  have hsub : new.toFinset ⊆ insert sb.bmapstart.toNat D := by
    intro b hmem
    rcases hb b (List.mem_toFinset.1 hmem) with ⟨c, hc, rfl⟩ | hb
    · refine Finset.mem_insert.2 (.inl ?_)
      unfold Superblock.BBLOCK
      rw [Nat.div_eq_of_lt (by omega), Nat.zero_add]
    · exact Finset.mem_insert_of_mem hb
  refine (Finset.card_le_card hsub).trans ((Finset.card_insert_le _ _).trans ?_)
  exact Nat.succ_le_succ (hD trivial)

/-! ## A directory of one file -/

/-- The directory is all that is in use. -/
theorem lasting_of_one (hfiles : ∀ f, (s.ftable f).type = .none) :
    s.lasting [dirEntry] = [⟨dirEntry, (s.itable dirEntry).inum, false, false⟩] := by
  have hnone : ∀ f, (if (s.ftable f).type = .none then none else some ((s.ftable f).ip, (s.ftable f).writable)) =
      none := fun f => if_pos (hfiles f)
  have hpins : pins [dirEntry] s.ftable = [(dirEntry, false)] := by
    unfold pins
    rw [List.filterMap_eq_nil_iff.2 fun f _ => hnone f]
    rfl
  unfold State.lasting
  rw [hpins]
  rfl

theorem Accounts.of_one (hfiles : ∀ f, (s.ftable f).type = .none)
    (href : ∀ ip, (s.itable ip).ref = if ip = dirEntry then 1 else 0) (hlocked : ∀ ip, (s.itable ip).locked = false) :
    Accounts (s.lasting [dirEntry]) s := by
  rw [lasting_of_one hfiles]
  refine ⟨fun h hh => ?_, fun h hh hl => ?_, fun ip => ?_, fun ip => ?_⟩
  · rw [List.mem_singleton.1 hh]
  · rw [List.mem_singleton.1 hh] at hl
    cases hl
  · rw [holdsOf_cons, href]
    refine Eq.trans ?_ (Nat.zero_add _).symm
    exact if_congr eq_comm rfl rfl
  · rw [locksOf_cons, if_neg fun hc => Bool.false_ne_true hc.2, hlocked]
    rfl

theorem dirState_noOrphan : NoOrphan (dirDisk 9) [dirEntry] (dirState 8 1) := by
  intro i hi _ hl
  rw [dirDisk_dinode hi] at hl
  split at hl <;> exact absurd hl (by decide)

theorem dirState_settled : Settled (dirDisk 9) [dirEntry] (dirState 8 1) where
  wf := dirState_wf
  dirs := by
    intro i hi ht
    rw [(dirDisk_one hi ht).2]
    refine ⟨by rw [length_dirent], fun j hj _ => ?_⟩
    have h0 : j = 0 := by
      rw [length_dirent, Nat.div_self (by decide)] at hj
      omega
    rw [h0]
    decide
  table := by
    refine .of_one (fun _ => rfl) (fun ip => ?_) fun _ => rfl
    show (if ip.val < 1 then 1 else 0) = _
    refine if_congr ?_ rfl rfl
    rw [Fin.ext_iff]
    show ip.val < 1 ↔ ip.val = 0
    omega
  disk := by
    rw [lasting_of_one fun _ => rfl]
    intro h hh
    rw [List.mem_singleton.1 hh]
    exact ⟨by decide, fun hf => absurd hf Bool.false_ne_true⟩
  closed := fun _ _ => rfl

/-- The file is unlinked, and the disk is full. -/
theorem transaction_fits_unlink : ∃ new,
    (lastState ((Transaction.sysUnlink [97]).code (dirDisk 9) dirName (dirState 8 1))).logged =
      new ++ (dirState 8 1).logged ∧ new.toFinset.card ≤ MAXOPBLOCKS :=
  transaction_fits dirDisk_ordered (by decide) (by decide) dirState_settled dirState_noOrphan
    (.sysUnlink [97]) trivial dirName

end Xv6.Blocks
