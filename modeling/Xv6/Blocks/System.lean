import Xv6.Blocks.Boot

set_option autoImplicit false

/-! # Processes

A number of processes whose system calls on files run one after the other, in any order. In every state between
two calls the blocks of the disk are each in one place, and the inode table counts what the processes have. -/

namespace Xv6.Blocks

open Xv6.Lib
open Xv6.Fs (NINODE NFILE NDEV ROOTINO DIRSIZ MAXFILE Ip)

/-! ## The model -/

/-- What a process that does not run has of the file system. -/
structure Proc where
  ofile : Fin NOFILE → Option (Fin NFILE)
  cwd : Ip

structure Sys where
  /-- With what the process that runs has. -/
  state : State
  others : List Proc

inductive SysPanic where
  | fs (p : Panic)
  | filedup
  /-- `init exiting`: there is always a process. -/
  | initExiting

abbrev M := Code SysPanic Sys

/-- What the process that runs does in the file system. -/
def fs {α : Type} (x : K α) : M α := fun σ => match x σ.state with
  | .ok (a, t) => .ok (a, { σ with state := t })
  | .error (p, _) => .error (.fs p)

/-- A descriptor and its file. -/
def argfd (fd : Int) : M (Option (Fin NOFILE × Fin NFILE)) := do
  let σ ← get
  pure (if h : 0 ≤ fd ∧ fd.toNat < NOFILE then (σ.state.ofile ⟨fd.toNat, h.2⟩).map fun f =>
    (⟨fd.toNat, h.2⟩, f) else none)

def filedup (f : Fin NFILE) : M PUnit := do
  let σ ← get
  if (σ.state.ftable f).ref < 1 then throw .filedup
  else set { σ with state := σ.state.setFile f { σ.state.ftable f with ref := (σ.state.ftable f).ref + 1 } }

def sysDup (fd : Int) : M Int := do
  match ← argfd fd with
  | none => pure (-1)
  | some (_, f) => do
    match ← fs (fdalloc f) with
    | none => pure (-1)
    | some fd => do
      filedup f
      pure fd.val

variable (sb : Superblock)

/-- A device returns `dev`. -/
def sysRead (fd : Int) (dst : Dest) (n : Uint) (dev : Int) : M Int := do
  match ← argfd fd with
  | none => pure (-1)
  | some (_, f) => do
    let σ ← get
    if (σ.state.ftable f).type = .device then pure (if (σ.state.ftable f).readable then dev else -1)
    else do
      let r ← fs (fileread sb f dst n)
      pure r.1

def sysWrite (fd : Int) (src : Source) (n : Int) (dev : Int) : M Int := do
  match ← argfd fd with
  | none => pure (-1)
  | some (_, f) => do
    let σ ← get
    if (σ.state.ftable f).type = .device then pure (if (σ.state.ftable f).writable then dev else -1)
    else fs (filewrite sb f src n)

def setOfile (fd : Fin NOFILE) (f : Option (Fin NFILE)) : K PUnit :=
  modify fun s => { s with ofile := Function.update s.ofile fd f }

def sysClose (fd : Int) : M Int := do
  match ← argfd fd with
  | none => pure (-1)
  | some (fd, f) => do
    fs (setOfile fd none)
    fs (fileclose sb f)
    pure 0

/-- `struct stat` -/
structure Stat where
  ino : Nat
  type : BitVec 16
  nlink : BitVec 16
  size : Uint

def stati (ip : Ip) : K Stat := do
  let s ← get
  pure ⟨(s.itable ip).inum, (s.itable ip).type, (s.itable ip).nlink, (s.itable ip).size⟩

/-- `filestat` up to the copy to the user. -/
def filestat (f : Fin NFILE) : K (Option Stat) := do
  let s ← get
  if (s.ftable f).type = .none then pure none
  else do
    ilock sb (s.ftable f).ip
    let st ← stati (s.ftable f).ip
    iunlock (s.ftable f).ip
    pure (some st)

def sysFstat (fd : Int) : M (Option Stat) := do
  match ← argfd fd with
  | none => pure none
  | some (_, f) => fs (filestat sb f)

/-- The loop of `kfork` over the open files: what the child gets. -/
def forkFiles (ofile : Fin NOFILE → Option (Fin NFILE)) : List (Fin NOFILE) → (Fin NOFILE → Option (Fin NFILE)) →
    M (Fin NOFILE → Option (Fin NFILE))
  | [], np => pure np
  | fd :: l, np => match ofile fd with
    | none => forkFiles ofile l np
    | some f => do
      filedup f
      forkFiles ofile l (Function.update np fd (some f))

/-- `kfork` once the child has its memory. -/
def kfork : M PUnit := do
  let σ ← get
  let ofile ← forkFiles σ.state.ofile fds fun _ => none
  let σ ← get
  let cwd ← fs (idup σ.state.cwd)
  modify fun σ => { σ with others := ⟨ofile, cwd⟩ :: σ.others }

/-- Process `next` of the others runs. -/
def Sys.run (σ : Sys) (p : Proc) (others : List Proc) : Sys where
  state := { σ.state with
    ofile := p.ofile
    cwd := p.cwd }
  others := others

/-- The loop of `kexit` over the open files. -/
def closeFd (fd : Fin NOFILE) : K PUnit := do
  let s ← get
  match s.ofile fd with
  | none => pure ⟨⟩
  | some f => do
    fileclose sb f
    setOfile fd none

/-- `kexit`, and then another process runs. -/
def kexit (next : Nat) : M PUnit := do
  let σ ← get
  match σ.others[next]? with
  | none => throw .initExiting
  | some p => do
    fs (fds.forM (closeFd sb))
    fs (do
      let s ← get
      iput sb s.cwd)
    modify fun σ => σ.run p (σ.others.eraseIdx next)

/-- `sched`: another process runs. -/
def sched (next : Nat) : M PUnit := do
  let σ ← get
  match σ.others[next]? with
  | none => pure ⟨⟩
  | some p => modify fun σ => σ.run p (⟨σ.state.ofile, σ.state.cwd⟩ :: σ.others.eraseIdx next)

inductive Event where
  | sysOpen (path : Path) (omode : Uint)
  | sysMkdir (path : Option Path)
  | sysMknod (path : Option Path) (major minor : BitVec 16)
  | sysLink (old new : Path)
  | sysUnlink (path : Path)
  | sysChdir (path : Option Path)
  | sysExec (path : Path) (reads : List (Uint × Uint))
  | sysRead (fd : Int) (dst : Dest) (n : Uint) (dev : Int)
  | sysWrite (fd : Int) (src : Source) (n dev : Int)
  | sysFstat (fd : Int)
  | sysDup (fd : Int)
  | sysClose (fd : Int)
  | kfork
  | kexit (next : Nat)
  | sched (next : Nat)

/-- `name` is what is in the buffers for names before they are written. -/
def step (e : Event) (name : Buf) : M PUnit := match e with
  | .sysOpen path omode => do
      let _ ← fs (Blocks.sysOpen sb path omode name)
  | .sysMkdir path => do
      let _ ← fs (Blocks.sysMkdir sb path name)
  | .sysMknod path major minor => do
      let _ ← fs (Blocks.sysMknod sb path major minor name)
  | .sysLink old new => do
      let _ ← fs (Blocks.sysLink sb old new name)
  | .sysUnlink path => do
      let _ ← fs (Blocks.sysUnlink sb path name)
  | .sysChdir path => do
      let _ ← fs (Blocks.sysChdir sb path name)
  | .sysExec path reads => fs (readFile sb path reads name)
  | .sysRead fd dst n dev => do
      let _ ← Blocks.sysRead sb fd dst n dev
  | .sysWrite fd src n dev => do
      let _ ← Blocks.sysWrite sb fd src n dev
  | .sysFstat fd => do
      let _ ← Blocks.sysFstat sb fd
  | .sysDup fd => do
      let _ ← Blocks.sysDup fd
  | .sysClose fd => do
      let _ ← Blocks.sysClose sb fd
  | .kfork => Blocks.kfork
  | .kexit next => Blocks.kexit sb next
  | .sched next => Blocks.sched next

def runEvents (events : List (Event × Buf)) : M PUnit := events.forM fun e => step sb e.1 e.2

/-! ## One process -/

variable {sb} {s t : State} {others : List Ip} {cwds : List Ip} {file : Fin NFILE} {e : File} {l : List Proc}
    {name : Buf}

/-- Code that does not free a free block, and leaves the references as they are between system calls. -/
def Keeps {α : Type} (sb : Superblock) (others : List Ip) (x : K α) : Prop :=
  Triple (fun e => e.1 ≠ Panic.bfree) (fun s => Settled sb (s.cwd :: others) s) x fun _ t =>
    Settled sb (t.cwd :: others) t

theorem Keeps.of_finished {α : Type} {x : K α} (hx : ∀ s, Settled sb (s.cwd :: others) s →
    Triple (May sb False s.logged room) (fun t => t = s) x fun _ => Finished sb False s.logged room others) :
    Keeps sb others x :=
  Triple.each fun s hs => ((hx s hs).mono fun _ he => he.1).conseq (fun _ ht => ht) fun _ _ ht => ht.1

theorem Settled.retask (h : Settled sb cwds t) (ofile : Fin NOFILE → Option (Fin NFILE)) (cwd : Ip) :
    Settled sb cwds { t with
      ofile := ofile
      cwd := cwd } := by
  have hw : Work sb t False (t.lasting cwds) [] 0 [] t := h.work fun hf => hf.elim
  have hu : Work sb { t with
      ofile := ofile
      cwd := cwd } False (t.lasting cwds) [] 0 [] { t with
      ofile := ofile
      cwd := cwd } := hw.files rfl ⟨_, _, _, rfl⟩ rfl rfl rfl
  exact hu.settled (fun g hg => lasting_free hg) (List.Perm.of_eq (lasting_pins t cwds)) h.closed

theorem Settled.perm {cwds' : List Ip} (h : Settled sb cwds t) (hp : cwds.Perm cwds') : Settled sb cwds' t := by
  have hw : Work sb t False (t.lasting cwds) [] 0 [] t := h.work fun hf => hf.elim
  refine hw.settled (fun g hg => lasting_free hg) ?_ h.closed
  rw [List.nil_append, lasting_pins]
  exact (hp.map _).append_right _

theorem Settled.beginOp (h : Settled sb cwds t) : Settled sb cwds t.beginOp where
  wf := h.wf.beginOp
  dirs := h.dirs
  table := ⟨h.table.inum, h.table.valid, h.table.refs, h.table.locks⟩
  disk := fun g hg => ⟨(h.disk g hg).inum, (h.disk g hg).file⟩
  closed := h.closed

/-- The file table changes, but not what it refers to. -/
theorem Settled.setFile (h : Settled sb cwds t) (he : e.ref = 0 → e.type = .none) (hpin : e.pin = (t.ftable file).pin) :
    Settled sb cwds (t.setFile file e) := by
  have hw : Work sb t False (t.lasting cwds) [] 0 [] t := h.work fun hf => hf.elim
  refine (hw.setFile file e).settled (fun g hg => lasting_free hg) ?_ fun f hf => ?_
  · have hperm := pins_perm cwds t.ftable file e
    rw [hpin] at hperm
    rw [List.nil_append, lasting_pins]
    exact ((List.perm_append_left_iff _).1 hperm).symm
  · by_cases hfile : f = file
    · subst hfile
      rw [setFile_self] at hf ⊢
      exact he hf
    · rw [show (t.setFile file e).ftable f = _ from Function.update_of_ne hfile ..] at hf ⊢
      exact h.closed f hf

theorem setOfile_keeps (fd : Fin NOFILE) (f : Option (Fin NFILE)) : Keeps sb others (setOfile fd f) :=
  Triple.modify _ fun s hs => hs.retask _ s.cwd

theorem fdalloc_keeps (f : Fin NFILE) : Keeps sb others (fdalloc f) := by
  refine Triple.look fun s hs => ?_
  cases fds.find? fun fd => decide (s.ofile fd = none) with
  | none => exact Triple.pure _ fun _ ht => ht
  | some fd => exact Triple.bind (Triple.set _ fun _ _ => hs.retask _ s.cwd) fun _ => Triple.pure _ fun _ ht => ht

section

variable (hsb : sb.Ordered)
include hsb

theorem closeFd_keeps (fd : Fin NOFILE) : Keeps sb others (closeFd sb fd) := by
  refine Triple.look fun s _ => ?_
  cases s.ofile fd with
  | none => exact Triple.pure _ fun _ ht => ht
  | some f => exact Triple.bind (Keeps.of_finished fun s hs => fileclose_finished hsb hs (fun hf => hf.elim) f) fun _ =>
      setOfile_keeps fd none

/-- A file stays open for writing while it is written. -/
theorem filewriteLoop_keeps (file : Fin NFILE) (src : Source) (n : Nat) : Triple (fun e => e.1 ≠ Panic.bfree)
    (fun s => Settled sb (s.cwd :: others) s ∧ (s.ftable file).type = .inode ∧ (s.ftable file).writable = true)
    (filewriteLoop sb file src n) fun _ t => Settled sb (t.cwd :: others) t := by
  induction n using Nat.strong_induction_on generalizing src with
  | _ n ih =>
      rw [filewriteLoop]
      by_cases h0 : n = 0
      · rw [dif_pos h0]
        exact Triple.pure _ fun _ hs => hs.1
      · rw [dif_neg h0]
        have hpos : 0 < min n maxWrite := Nat.lt_min.2 ⟨Nat.pos_of_ne_zero h0, maxWrite_pos⟩
        have hle : min n maxWrite ≤ n := Nat.min_le_left _ _
        have htoo : Panic.tooBig ≠ .bfree := by decide
        refine Triple.bind (R := fun _ s => Settled sb (s.cwd :: others) s ∧ (s.ftable file).type = .inode ∧
          (s.ftable file).writable = true) (Triple.transaction (Triple.each fun s hs => ?_)
          (fun s hs => ⟨hs.1.beginOp, hs.2⟩) fun _ => htoo) fun r => ?_
        · have hrun := writeSome_finished hsb hs.1 (fun hf : False => hf.elim) hs.2.1 hs.2.2 src (Nat.min_le_right n maxWrite)
          refine (hrun.mono fun _ he => he.1).conseq (fun _ ht => ht) fun _ t ht => ?_
          obtain ⟨hend, off, hft⟩ := ht
          rw [hft, Function.update_self]
          exact ⟨hend.1, hs.2⟩
        · refine Triple.ite (fun _ => Triple.pure _ fun _ hs => hs.1) fun _ => ?_
          exact ih (n - min n maxWrite) (by omega) _

theorem filewrite_keeps (file : Fin NFILE) (src : Source) (n : Int) : Keeps sb others (filewrite sb file src n) := by
  have hstop : Panic.filewrite ≠ .bfree := by decide
  refine Triple.bind_get fun s hs => Triple.ite (fun _ => Triple.pure _ fun t ht => ht ▸ hs) fun hw => ?_
  refine Triple.ite (fun _ => fun t _ => hstop) fun htype => ?_
  refine Triple.bind ((filewriteLoop_keeps hsb file src n.toNat).conseq (fun t ht => ?_) fun _ _ ht => ht) fun all =>
    Triple.pure _ fun _ ht => ht
  rw [ht]
  exact ⟨hs, not_not.1 htype, (Bool.not_eq_false _).mp hw⟩

omit hsb in
theorem filestat_keeps (file : Fin NFILE) : Keeps sb others (filestat sb file) := by
  refine Keeps.of_finished fun s hs => Triple.bind_get fun t ht => ?_
  subst ht
  refine Triple.ite (fun _ => ?_) fun hopen => ?_
  · exact triple_call hs (fun hf => hf.elim) (Triple.pure _ fun _ hu => (hu.busy (Nat.le_refl 0)).finished hs (by decide))
  · refine (triple_file hs (fun hf => hf.elim) hopen 1 (by decide) fun paid base hpaid => ?_).conseq
      (fun _ hu => hu) fun _ _ hu => hu.1
    refine Triple.bind (triple_ilock (by decide)) fun _ => Triple.bind (R := fun _ =>
      Work sb t False base paid 1 [t.fileHold file true]) (Triple.look fun _ _ => Triple.pure _ fun _ hu => hu)
      fun st => ?_
    exact triple_advance (r := 0)

end

/-! ## Several processes -/

/-- What holds between system calls, when `l` are the other processes. -/
def At (sb : Superblock) (l : List Proc) (σ : Sys) : Prop :=
  σ.others = l ∧ Settled sb (σ.state.cwd :: l.map Proc.cwd) σ.state

/-- No free block is freed. -/
def Sound (p : SysPanic) : Prop := p ≠ .fs .bfree

theorem triple_fs {α : Type} {x : K α} {P : State → Prop} {Q : α → State → Prop}
    (hx : Triple (fun e => e.1 ≠ Panic.bfree) P x Q) :
    Triple Sound (fun σ => σ.others = l ∧ P σ.state) (fs x) fun a σ => σ.others = l ∧ Q a σ.state := by
  intro σ hσ
  have h := hx σ.state hσ.2
  unfold fs
  cases hr : x σ.state with
  | error e =>
      rw [hr] at h
      rintro he
      exact h (SysPanic.fs.inj he)
  | ok r =>
      rw [hr] at h
      exact ⟨hσ.1, h⟩

theorem Keeps.fs {α : Type} {x : K α} (hx : Keeps sb (l.map Proc.cwd) x) :
    Triple Sound (At sb l) (Blocks.fs x) fun _ => At sb l :=
  triple_fs hx

theorem triple_argfd (fd : Int) : Triple Sound (At sb l) (argfd fd) fun _ => At sb l :=
  Triple.look fun _ _ => Triple.pure _ fun _ hσ => hσ

theorem triple_filedup (f : Fin NFILE) : Triple Sound (At sb l) (filedup f) fun _ => At sb l := by
  have hpanic : SysPanic.filedup ≠ .fs .bfree := fun h => by cases h
  refine Triple.look fun σ hσ => Triple.ite (fun _ => Triple.throw _ fun _ _ => hpanic) fun href => ?_
  refine Triple.set _ fun _ _ => ⟨hσ.1, hσ.2.setFile (fun h0 => ?_) rfl⟩
  have h0 : (σ.state.ftable f).ref + 1 = 0 := h0
  omega

theorem triple_forkFiles (ofile np : Fin NOFILE → Option (Fin NFILE)) (fds : List (Fin NOFILE)) :
    Triple Sound (At sb l) (forkFiles ofile fds np) fun _ => At sb l := by
  induction fds generalizing np with
  | nil => exact Triple.pure _ fun _ hσ => hσ
  | cons fd fds ih =>
      unfold forkFiles
      cases ofile fd with
      | none => exact ih np
      | some f => exact Triple.bind (triple_filedup f) fun _ => ih _

/-- The child has its own reference to the current directory. -/
theorem triple_idup (s : State) (hs : Settled sb (s.cwd :: others) s) :
    Triple (fun e => e.1 ≠ Panic.bfree) (fun t => t = s)
    (idup s.cwd) fun ip t => Settled sb (t.cwd :: ip :: others) t := by
  refine Triple.of_ok ?_
  rintro t rfl
  have hw : Work sb t False (t.lasting (t.cwd :: others)) [] 0 [] t := hs.work fun hf => hf.elim
  obtain ⟨u, hok, hu⟩ := hw.idup (g := ⟨t.cwd, (t.itable t.cwd).inum, false, false⟩) List.mem_cons_self
  refine ⟨t.cwd, u, hok, ?_⟩
  rw [hu.cwd]
  refine hu.settled (fun g hg => ?_) ?_ hs.closed
  · rcases List.mem_cons.1 hg with rfl | hg
    · rfl
    · exact lasting_free hg
  · rw [List.cons_append, List.nil_append, List.map_cons, lasting_pins]
    exact List.Perm.refl _

theorem triple_kfork : Triple Sound (At sb l) kfork fun _ σ => ∃ l, At sb l σ := by
  refine Triple.look fun σ _ => Triple.bind (triple_forkFiles σ.state.ofile _ fds) fun ofile =>
    Triple.bind_get fun σ hσ => ?_
  refine Triple.bind (R := fun ip τ => τ.others = l ∧ Settled sb (τ.state.cwd :: ip :: l.map Proc.cwd) τ.state) ?_
    fun ip =>
    Triple.modify _ fun τ hτ => ⟨⟨ofile, ip⟩ :: l, congrArg _ hτ.1, hτ.2⟩
  exact (triple_fs (triple_idup σ.state hσ.2)).conseq (fun τ hτ => ⟨hτ ▸ hσ.1, congrArg Sys.state hτ⟩) fun _ _ h => h

theorem perm_eraseIdx {α : Type} {l : List α} {k : Nat} {a : α} (h : l[k]? = some a) : l.Perm (a :: l.eraseIdx k) := by
  obtain ⟨hk, rfl⟩ := List.getElem?_eq_some_iff.1 h
  exact (List.getElem_cons_eraseIdx_perm hk).symm

theorem triple_kexit (hsb : sb.Ordered) (next : Nat) : Triple Sound (At sb l) (kexit sb next) fun _ σ => ∃ l,
    At sb l σ := by
  have hpanic : SysPanic.initExiting ≠ .fs .bfree := fun h => by cases h
  refine Triple.look fun σ hσ => ?_
  rw [hσ.1]
  cases hnext : l[next]? with
  | none => exact Triple.throw _ fun _ _ => hpanic
  | some p =>
      have hput : Triple (fun e => e.1 ≠ Panic.bfree) (fun s => Settled sb (s.cwd :: l.map Proc.cwd) s) (do
          let s ← get
          iput sb s.cwd) fun _ t => Settled sb (l.map Proc.cwd) t :=
        Triple.bind_get fun s hs => ((triple_putCwd hsb hs fun hf : False => hf.elim).mono fun _ he => he.1).conseq
          (fun _ ht => ht) fun _ _ ht => ht.1
      refine Triple.bind (Keeps.fs (Triple.forM fun fd _ => closeFd_keeps hsb fd)) fun _ => ?_
      refine Triple.bind (triple_fs hput) fun _ => Triple.modify _ fun τ hτ => ⟨l.eraseIdx next, by rw [hτ.1]; rfl, ?_⟩
      exact (hτ.2.perm ((perm_eraseIdx hnext).map Proc.cwd)).retask p.ofile p.cwd

theorem triple_sched (next : Nat) : Triple Sound (At sb l) (sched next) fun _ σ => ∃ l, At sb l σ := by
  refine Triple.look fun σ hσ => ?_
  rw [hσ.1]
  cases hnext : l[next]? with
  | none => exact Triple.pure _ fun _ hτ => ⟨l, hτ⟩
  | some p =>
      refine Triple.modify _ fun τ hτ => ⟨_, rfl, ?_⟩
      refine (hτ.2.perm ?_).retask p.ofile p.cwd
      show (τ.state.cwd :: l.map Proc.cwd).Perm (p.cwd :: τ.state.cwd :: (τ.others.eraseIdx next).map Proc.cwd)
      rw [hτ.1]
      exact (((perm_eraseIdx hnext).map Proc.cwd).cons _).trans (List.Perm.swap _ _ _)

theorem Triple.noted {α : Type} {may : SysPanic → Prop} {P R : Sys → Prop} {x : M α} (hx : Triple may P x fun _ => R) :
    Triple may P (do
      let _ ← x : M PUnit) fun _ => R :=
  Triple.bind hx fun _ => Triple.pure _ fun _ hr => hr

section

variable (hsb : sb.Ordered) (hroot : sb.Inum ROOTINO)
include hsb

theorem triple_sysRead (fd : Int) (dst : Dest) (n : Uint) (dev : Int) :
    Triple Sound (At sb l) (sysRead sb fd dst n dev) fun _ => At sb l := by
  refine Triple.bind (triple_argfd fd) fun r => ?_
  cases r with
  | none => exact Triple.pure _ fun _ hσ => hσ
  | some r =>
      refine Triple.look fun σ _ => Triple.ite (fun _ => Triple.pure _ fun _ hσ => hσ) fun _ => ?_
      refine Triple.bind (Keeps.fs (Keeps.of_finished fun s hs => ?_)) fun _ => Triple.pure _ fun _ hσ => hσ
      exact fileread_finished hsb hs (fun hf => hf.elim) r.2 dst n

theorem triple_sysWrite (fd : Int) (src : Source) (n dev : Int) :
    Triple Sound (At sb l) (sysWrite sb fd src n dev) fun _ => At sb l := by
  refine Triple.bind (triple_argfd fd) fun r => ?_
  cases r with
  | none => exact Triple.pure _ fun _ hσ => hσ
  | some r =>
      refine Triple.look fun σ _ => Triple.ite (fun _ => Triple.pure _ fun _ hσ => hσ) fun _ => ?_
      exact Keeps.fs (filewrite_keeps hsb r.2 src n)

theorem triple_sysClose (fd : Int) : Triple Sound (At sb l) (sysClose sb fd) fun _ => At sb l := by
  refine Triple.bind (triple_argfd fd) fun r => ?_
  cases r with
  | none => exact Triple.pure _ fun _ hσ => hσ
  | some r =>
      refine Triple.bind (Keeps.fs (setOfile_keeps r.1 none)) fun _ => ?_
      refine Triple.bind (Keeps.fs (Keeps.of_finished fun s hs => ?_)) fun _ => Triple.pure _ fun _ hσ => hσ
      exact fileclose_finished hsb hs (fun hf => hf.elim) r.2

omit hsb in
theorem triple_sysFstat (fd : Int) : Triple Sound (At sb l) (sysFstat sb fd) fun _ => At sb l := by
  refine Triple.bind (triple_argfd fd) fun r => ?_
  cases r with
  | none => exact Triple.pure _ fun _ hσ => hσ
  | some r => exact Keeps.fs (filestat_keeps r.2)

omit hsb in
theorem triple_sysDup (fd : Int) : Triple Sound (At sb l) (sysDup fd) fun _ => At sb l := by
  refine Triple.bind (triple_argfd fd) fun r => ?_
  cases r with
  | none => exact Triple.pure _ fun _ hσ => hσ
  | some r =>
      refine Triple.bind (Keeps.fs (fdalloc_keeps r.2)) fun fd' => ?_
      cases fd' with
      | none => exact Triple.pure _ fun _ hσ => hσ
      | some fd' => exact Triple.bind (triple_filedup r.2) fun _ => Triple.pure _ fun _ hσ => hσ

include hroot

/-- One system call of the process that runs, or another process runs. -/
theorem triple_step (e : Event) (name : Buf) :
    Triple Sound (fun σ => ∃ l, At sb l σ) (step sb e name) fun _ σ => ∃ l, At sb l σ := by
  refine Triple.exists fun l => ?_
  have hkeep : ∀ {x : M PUnit}, (Triple Sound (At sb l) x fun _ => At sb l) → Triple Sound (At sb l) x fun _ σ =>
    ∃ l, At sb l σ :=
    fun hx => hx.conseq (fun _ hσ => hσ) fun _ _ hσ => ⟨l, hσ⟩
  have hcall : ∀ {α : Type} {x : K α}, (∀ s others, Settled sb (s.cwd :: others) s → Triple (May sb False s.logged room)
      (fun t => t = s) x fun _ => Finished sb False s.logged room others) → Triple Sound (At sb l) (fs x) fun _ =>
      At sb l :=
    fun hx => Keeps.fs (Keeps.of_finished fun s hs => hx s _ hs)
  cases e with
  | sysOpen path omode =>
      exact hkeep (Triple.noted (hcall fun s others hs =>
        sysOpen_finished hsb hroot hs (fun hf => hf.elim) path omode))
  | sysMkdir path =>
      exact hkeep (Triple.noted (hcall fun s others hs =>
        makeInode_finished hsb hroot hs (fun hf => hf.elim) path (by decide) 0 0))
  | sysMknod path major minor =>
      exact hkeep (Triple.noted (hcall fun s others hs =>
        makeInode_finished hsb hroot hs (fun hf => hf.elim) path (by decide) major minor))
  | sysLink old new =>
      exact hkeep (Triple.noted (hcall fun s others hs => sysLink_finished hsb hroot hs (fun hf => hf.elim) old new))
  | sysUnlink path =>
      exact hkeep (Triple.noted (hcall fun s others hs => sysUnlink_finished hsb hroot hs (fun hf => hf.elim) path))
  | sysChdir path =>
      exact hkeep (Triple.noted (hcall fun s others hs => sysChdir_finished hsb hroot hs (fun hf => hf.elim) path))
  | sysExec path reads =>
      exact hkeep (hcall fun s others hs => readFile_finished hsb hroot hs (fun hf => hf.elim) path reads)
  | sysRead fd dst n dev => exact hkeep (Triple.noted (triple_sysRead hsb fd dst n dev))
  | sysWrite fd src n dev => exact hkeep (Triple.noted (triple_sysWrite hsb fd src n dev))
  | sysFstat fd => exact hkeep (Triple.noted (triple_sysFstat fd))
  | sysDup fd => exact hkeep (Triple.noted (triple_sysDup fd))
  | sysClose fd => exact hkeep (Triple.noted (triple_sysClose hsb fd))
  | kfork => exact triple_kfork
  | kexit next => exact triple_kexit hsb next
  | sched next => exact triple_sched next

theorem triple_run (events : List (Event × Buf)) :
    Triple Sound (fun σ => ∃ l, At sb l σ) (runEvents sb events) fun _ σ => ∃ l, At sb l σ :=
  Triple.forM fun e _ => triple_step hsb hroot e.1 e.2

end

/-! ## Blocks -/

/-- Block `b` is in slot `k` of inode `i`, which is allocated. -/
def State.Holds (sb : Superblock) (s : State) (i k : Nat) (b : Uint) : Prop :=
  sb.Inum i ∧ (s.dinode sb i).type ≠ 0 ∧ slotAddr s.blocks (s.dinode sb i).addrs k = b ∧ b ≠ 0

/-- No block is shared, lost or both free and in use, and an inode has all blocks of its size. -/
structure Partition (sb : Superblock) (s : State) : Prop where
  once : ∀ b i k i' k', s.Holds sb i k b → s.Holds sb i' k' b → i = i' ∧ k = k'
  data : ∀ b i k, s.Holds sb i k b → sb.dataStart ≤ b.toNat ∧ b.toNat < sb.size.toNat ∧ s.bit sb b.toNat = true
  used : ∀ b, b < sb.size.toNat → (s.bit sb b = true ↔ b < sb.dataStart ∨ ∃ i k, s.Holds sb i k (BitVec.ofNat 32 b))
  whole : ∀ i, sb.Inum i → (s.dinode sb i).type ≠ 0 → (s.dinode sb i).size.toNat ≤ MAXFILE * BSIZE ∧
    ∀ p, p < (s.dinode sb i).size.toNat → ∃ b, s.Holds sb i (fileSlot (p / BSIZE)) b

theorem holds_iff {i k : Nat} {b : Uint} (hb : b ≠ 0) : s.Holds sb i k b ↔ slotAddr s.blocks (s.addrs sb i) k = b := by
  unfold State.Holds State.addrs
  by_cases hi : sb.Inum i ∧ (s.dinode sb i).type ≠ 0
  · rw [if_pos hi]
    exact ⟨fun h => h.2.2.1, fun h => ⟨hi.1, hi.2, h, hb⟩⟩
  · rw [if_neg hi]
    refine ⟨fun h => absurd ⟨h.1, h.2.1⟩ hi, fun h => absurd h ?_⟩
    rw [slotAddr_zero]
    exact hb.symm

theorem State.Wf.partition (h : s.Wf sb) : Partition sb s where
  once := by
    intro b i k i' k' hk hk'
    have hb := hk.2.2.2
    rw [holds_iff hb] at hk hk'
    have hp := h.own.owns.inj (i, k) (i', k') (by rw [hk]; exact hb) (hk.trans hk'.symm)
    exact ⟨congrArg Prod.fst hp, congrArg Prod.snd hp⟩
  data := by
    intro b i k hk
    have hb := hk.2.2.2
    exact (h.own.owns.used_iff b hb).2 ⟨(i, k), (holds_iff hb).1 hk⟩
  used := by
    intro b hb
    have hnat : (BitVec.ofNat 32 b).toNat = b := by
      rw [BitVec.toNat_ofNat, Nat.mod_eq_of_lt (hb.trans sb.size.isLt)]
    have hmeta := sb.bmapstart_lt_dataStart
    constructor
    · intro hbit
      refine (Nat.lt_or_ge b sb.dataStart).imp_right fun hdata => ?_
      have hne : BitVec.ofNat 32 b ≠ 0 := by
        intro h0
        rw [h0] at hnat
        have hnat : 0 = b := hnat
        omega
      obtain ⟨⟨i, k⟩, hik⟩ := (h.own.owns.used_iff _ hne).1
        ⟨by rw [hnat]; exact hdata, by rw [hnat]; exact hb, by rw [hnat]; exact hbit⟩
      exact ⟨i, k, (holds_iff hne).2 hik⟩
    · rintro (hlt | ⟨i, k, hik⟩)
      · exact h.own.boot b hlt hb
      · have hne := hik.2.2.2
        have hu := (h.own.owns.used_iff _ hne).2 ⟨(i, k), (holds_iff hne).1 hik⟩
        rw [← hnat]
        exact hu.2.2
  whole := by
    intro i hi ht
    have hw := h.whole i hi ht
    exact ⟨hw.1, fun p hp => ⟨_, hi, ht, rfl, hw.2 p hp⟩⟩

/-- Whatever the processes do, in whatever order, the blocks stay partitioned, also where the disk
or the tables are full and where memory of the user cannot be read, and `bfree` does not panic. -/
theorem blocks_partitioned (hsb : sb.Ordered) (hroot : sb.Inum ROOTINO) {σ : Sys} (hσ : At sb σ.others σ)
    (events : List (Event × Buf)) : (∀ τ, runEvents sb events σ = .ok (⟨⟩, τ) → Partition sb τ.state) ∧
      runEvents sb events σ ≠ .error (.fs .bfree) := by
  have hrun := triple_run hsb hroot events σ ⟨_, hσ⟩
  constructor
  · intro τ hok
    rw [hok] at hrun
    obtain ⟨l, hτ⟩ := hrun
    exact hτ.2.wf.partition
  · intro herr
    rw [herr] at hrun
    exact hrun rfl

/-! ## From a new file system -/

theorem boot_at (h : sb.Roomy) : At sb [] ⟨bootState sb, []⟩ := ⟨rfl, bootState_settled h⟩

def bootDisk : Superblock where
  size := 2000
  ninodes := 200
  inodestart := 33
  bmapstart := 46

theorem bootDisk_roomy : bootDisk.Roomy := ⟨(by decide : 200 / IPB + 33 < 46), by decide, by decide⟩

def aFileIsUnlinked : List (Event × Buf) :=
  [(.sysMkdir (some [97]), dirName), (.sysOpen [97, slash, 98] 0x202, dirName),
    (.sysWrite 0 (kernelSrc fun k => BitVec.ofNat 8 k) 1500 0, dirName), (.sysUnlink [97, slash, 98], dirName)]

/-- A file in a new directory is written, and unlinked while it is open. -/
theorem blocks_partitioned_unlink : ∃ τ, runEvents bootDisk aFileIsUnlinked ⟨bootState bootDisk, []⟩ = .ok (⟨⟩, τ) ∧
    (τ.state.dinode bootDisk 3).size = 1500 ∧ (τ.state.dinode bootDisk 3).nlink = 0 ∧ Partition bootDisk τ.state := by
  have hrun : ((runEvents bootDisk aFileIsUnlinked ⟨bootState bootDisk, []⟩).toOption.map fun r =>
      ((r.2.state.dinode bootDisk 3).size, (r.2.state.dinode bootDisk 3).nlink)) = some (1500, 0) := by
    decide +kernel
  have hparts := (blocks_partitioned bootDisk_roomy.ordered bootDisk_roomy.root (boot_at bootDisk_roomy)
    aFileIsUnlinked).1
  revert hrun hparts
  cases runEvents bootDisk aFileIsUnlinked ⟨bootState bootDisk, []⟩ with
  | error e => exact fun h => absurd h (Option.some_ne_none _).symm
  | ok r =>
      intro hrun hparts
      obtain ⟨hsize, hlink⟩ := Prod.mk.inj (Option.some.inj hrun)
      exact ⟨r.2, rfl, hsize, hlink, hparts r.2 rfl⟩

/-! ## References to inodes -/

/-- The open files that are inode `ip`. -/
def State.opens (s : State) (ip : Ip) : Nat :=
  files.countP fun f => decide ((s.ftable f).type ≠ .none ∧ (s.ftable f).ip = ip)

theorem holdsOf_lasting (s : State) (cwds : List Ip) (ip : Ip) :
    holdsOf (s.lasting cwds) ip = cwds.count ip + s.opens ip := by
  unfold holdsOf State.lasting pins State.opens
  rw [List.countP_map, List.countP_append, List.countP_map, List.countP_filterMap, List.count_eq_countP]
  congr 1
  refine List.countP_congr fun f _ => ?_
  by_cases ht : (s.ftable f).type = .none
  · simp [ht]
  · simp [ht]

/-- The inode table agrees with what the processes have: an entry counts the current directories and the open files
    that it is, no inode has two entries, and no lock is left. -/
structure Exact (σ : Sys) : Prop where
  refs : ∀ ip, (σ.state.itable ip).ref = (σ.state.cwd :: σ.others.map Proc.cwd).count ip + σ.state.opens ip
  uniq : ∀ ip jp, 0 < (σ.state.itable ip).ref → 0 < (σ.state.itable jp).ref →
    (σ.state.itable ip).inum = (σ.state.itable jp).inum → ip = jp
  unlocked : ∀ ip, (σ.state.itable ip).locked = false

theorem references_exact (hsb : sb.Ordered) (hroot : sb.Inum ROOTINO) {σ τ : Sys} (hσ : At sb σ.others σ)
    (events : List (Event × Buf)) (hrun : runEvents sb events σ = .ok (⟨⟩, τ)) : Exact τ := by
  have hτ := triple_run hsb hroot events σ ⟨_, hσ⟩
  rw [hrun] at hτ
  obtain ⟨l, rfl, hτ⟩ := hτ
  refine ⟨fun ip => ?_, hτ.wf.uniq, fun ip => ?_⟩
  · rw [hτ.table.refs, holdsOf_lasting]
  · have hlocks := hτ.table.locks ip
    have hnone : locksOf (τ.state.lasting (τ.state.cwd :: τ.others.map Proc.cwd)) ip = 0 := by
      refine List.countP_eq_zero.2 fun h hh => ?_
      rw [lasting_free hh, Bool.and_false]
      exact Bool.false_ne_true
    rw [hnone] at hlocks
    cases hl : (τ.state.itable ip).locked with
    | false => rfl
    | true =>
        rw [hl] at hlocks
        cases hlocks

def aChildOpens : List (Event × Buf) :=
  [(.sysMkdir (some [97]), dirName), (.sysChdir (some [97]), dirName), (.kfork, dirName), (.sched 0, dirName),
    (.sysOpen [98] 0x202, dirName)]

/-- A process forks in a new directory, and the child runs and opens a file there. The first entry is the file's, and the
    processes have the second one. -/
theorem references_exact_fork : ∃ τ, runEvents bootDisk aChildOpens ⟨bootState bootDisk, []⟩ = .ok (⟨⟩, τ) ∧
    (τ.state.itable dirEntry).ref = 1 ∧ (τ.state.itable τ.state.cwd).ref = 2 ∧ Exact τ := by
  have hrun : ((runEvents bootDisk aChildOpens ⟨bootState bootDisk, []⟩).toOption.map fun r =>
      ((r.2.state.itable dirEntry).ref, (r.2.state.itable r.2.state.cwd).ref)) = some (1, 2) := by
    decide +kernel
  have hexact : ∀ τ, runEvents bootDisk aChildOpens ⟨bootState bootDisk, []⟩ = .ok (⟨⟩, τ) → Exact τ := fun _ =>
    references_exact bootDisk_roomy.ordered bootDisk_roomy.root (boot_at bootDisk_roomy) aChildOpens
  revert hrun hexact
  cases runEvents bootDisk aChildOpens ⟨bootState bootDisk, []⟩ with
  | error e => exact fun h => absurd h (Option.some_ne_none _).symm
  | ok r =>
      intro hrun hexact
      obtain ⟨hfile, hcwd⟩ := Prod.mk.inj (Option.some.inj hrun)
      exact ⟨r.2, rfl, hfile, hcwd, hexact r.2 rfl⟩

end Xv6.Blocks
