import Xv6.Lib.Atomic
import Xv6.Fs.Model

set_option autoImplicit false

/-! # System calls that interleave

A system call sleeps wherever it waits for a block or for a lock, and other processes run meanwhile; a
reference to an inode that it has taken stays in the inode table. Here a call is a row of steps: what
`itable.lock` protects is one step, so `iget`, `idup` and each half of `iput` are, and code in between that
leaves the reference counts alone is cut into the functions of `fs.c` and `file.c`. Between two steps any
other process may take its own.

Sleep-locks are left out, so that a call may go on where the kernel would let it wait: the runs of the kernel
are runs of this machine, and there are more. -/

namespace Xv6.Fs.Interleaved

open Xv6.Lib

abbrev Steps := Prog (Panic × FS) FS

/-! ## The calls -/

/-- A reference is given back in steps: the inode is freed under its sleep-lock, with `itable.lock` released. -/
def iput (ip : Ip) : Steps PUnit := do
  let s ← get
  let e := s.itable ip
  (if e.ref = 1 ∧ e.valid = true ∧ e.nlink = 0 then do
    note (.freed e.inum (isParent s.ninodes s.disk e.inum))
    itrunc ip
    change ip fun e => { e with type := .free }
    modify fun s => s.setInode ip { s.itable ip with valid := false }
  else pure ⟨⟩)
  modify fun s => s.setInode ip { s.itable ip with ref := (s.itable ip).ref - 1 }

/-- `ialloc` marks the inode on disk and then calls `iget`. -/
def ialloc (type : FileType) : Steps (Option Ip) := do
  let o ← show K (Option Nat) from do
    let s ← get
    match (List.range' 1 (s.ninodes - 1)).find? fun i => decide ((s.disk i).type = .free) with
    | none => pure none
    | some inum => do
      set (s.setDisk inum ⟨type, 0, 0, 0, [], []⟩)
      pure (some inum)
  match o with
  | none => pure none
  | some inum => do
    let ip ← iget inum
    pure (some ip)

def dirlookup (dp : Ip) (name : Name) : Steps (Option (Ip × Nat)) := do
  let s ← get
  if (s.itable dp).type ≠ .dir then stop .dirlookup
  else
    let ents := (s.disk (s.itable dp).inum).ents
    match findEntry ents name with
    | none => pure none
    | some off => do
      let ip ← iget ((ents.getD off ⟨0, []⟩).inum)
      pure (some (ip, off))

def dirlink (dp : Ip) (name : Name) (inum : Nat) : Steps Bool := do
  match ← dirlookup dp name with
  | some (ip, _) => do
    iput ip
    pure false
  | none => do
    let s ← get
    writei dp (emptyEntry (s.disk (s.itable dp).inum).ents) ⟨inum % 2 ^ 16, name⟩

def namexLoop (nameiparent : Bool) : List Name → Ip → Steps (Option (Ip × Name))
  | [], ip =>
    if nameiparent then do
      iput ip
      pure none
    else pure (some (ip, []))
  | name :: rest, ip => do
    ilock ip
    let s ← get
    if (s.itable ip).type ≠ .dir then do
      iput ip
      pure none
    else if nameiparent = true ∧ rest = [] then pure (some (ip, name))
    else match ← dirlookup ip name with
      | none => do
        iput ip
        pure none
      | some (next, _) => do
        iput ip
        namexLoop nameiparent rest next

def namex (p : Pid) (path : Path) (nameiparent : Bool) : Steps (Option (Ip × Name)) := do
  let s ← get
  let ip ← (if path.head? = some slash then liftM (iget ROOTINO) else liftM (idup (s.proc p).cwd))
  namexLoop nameiparent (elements path.length path) ip

def namei (p : Pid) (path : Path) : Steps (Option Ip) := do
  let r ← namex p path false
  pure (r.map Prod.fst)

def nameiparent (p : Pid) (path : Path) : Steps (Option (Ip × Name)) := namex p path true

/-- What `fileclose` does under `ftable.lock`; the inode whose reference the file had, if it has been closed. -/
def dropFile (f : Fin NFILE) : K (Option Ip) := do
  let s ← get
  let ff := s.ftable f
  if ff.ref < 1 then stop .fileclose
  else if 1 < ff.ref then do
    set (s.setFile f { ff with ref := ff.ref - 1 })
    pure none
  else do
    set (s.setFile f { ff with ref := 0, type := .none })
    pure (if ff.type = .none then none else some ff.ip)

def fileclose (f : Fin NFILE) : Steps PUnit := do
  match ← dropFile f with
  | none => pure ⟨⟩
  | some ip => iput ip

def sysDup (p : Pid) (fd : Int) : Steps Int := do
  match ← argfd p fd with
  | none => pure (-1)
  | some (_, f) => do
    match ← fdalloc p f with
    | none => pure (-1)
    | some fd => do
      filedup f
      pure fd.val

def sysClose (p : Pid) (fd : Int) : Steps Int := do
  match ← argfd p fd with
  | none => pure (-1)
  | some (fd, f) => do
    modify fun s => s.setFd p fd none
    fileclose f
    pure 0

def unlinkOld (ip : Ip) : Steps Int := do
  ilock ip
  change ip fun e => { e with nlink := e.nlink - 1 }
  iput ip
  pure (-1)

def sysLink (p : Pid) (old new : Option Path) : Steps Int := do
  match old, new with
  | some old, some new => do
    match ← namei p old with
    | none => pure (-1)
    | some ip => do
      ilock ip
      let s ← get
      if (s.itable ip).type = .dir then do
        iput ip
        pure (-1)
      else do
        note (.linked (s.itable ip).nlink)
        change ip fun e => { e with nlink := e.nlink + 1 }
        match ← nameiparent p new with
        | none => unlinkOld ip
        | some (dp, name) => do
          ilock dp
          let s ← get
          if ← dirlink dp name (s.itable ip).inum then do
            note (.entered (s.itable dp).nlink)
            iput dp
            iput ip
            pure 0
          else do
            iput dp
            unlinkOld ip
  | _, _ => pure (-1)

def sysUnlink (p : Pid) (path : Option Path) : Steps Int := do
  match path with
  | none => pure (-1)
  | some path => do
    match ← nameiparent p path with
    | none => pure (-1)
    | some (dp, name) => do
      ilock dp
      if namecmp name dot || namecmp name dotdot then do
        iput dp
        pure (-1)
      else do
        match ← dirlookup dp name with
        | none => do
          iput dp
          pure (-1)
        | some (ip, off) => do
          ilock ip
          let s ← get
          let e := s.itable ip
          if e.nlink.toInt < 1 then stop .unlinkNlink
          else if e.type = .dir ∧ isdirempty (s.disk e.inum).ents = false then do
            iput ip
            iput dp
            pure (-1)
          else do
            if ← writei dp off ⟨0, []⟩ then do
              (if e.type = .dir then liftM (change dp fun e => { e with nlink := e.nlink - 1 })
                else pure ⟨⟩)
              iput dp
              change ip fun e => { e with nlink := e.nlink - 1 }
              iput ip
              pure 0
            else stop .unlinkWritei

def linkDots (type : FileType) (ip dp : Ip) : Steps Bool := do
  if type = .dir then do
    let s ← get
    if ← dirlink ip dot (s.itable ip).inum then dirlink ip dotdot (s.itable dp).inum
    else pure false
  else pure true

def createFail (ip dp : Ip) : Steps (Option Ip) := do
  change ip fun e => { e with nlink := 0 }
  iput ip
  iput dp
  pure none

def create (p : Pid) (path : Path) (type : FileType) (major minor : BitVec 16) :
    Steps (Option Ip) := do
  match ← nameiparent p path with
  | none => pure none
  | some (dp, name) => do
    ilock dp
    match ← dirlookup dp name with
    | some (ip, _) => do
      iput dp
      ilock ip
      let s ← get
      if type = .file ∧ ((s.itable ip).type = .file ∨ (s.itable ip).type = .device) then
        pure (some ip)
      else do
        iput ip
        pure none
    | none => do
      match ← ialloc type with
      | none => do
        iput dp
        pure none
      | some ip => do
        ilock ip
        change ip fun e => { e with major := major, minor := minor, nlink := 1 }
        if ← linkDots type ip dp then do
          let s ← get
          if ← dirlink dp name (s.itable ip).inum then do
            note (.entered (s.itable dp).nlink)
            (if type = .dir then do
              note (.linked (s.itable dp).nlink)
              change dp fun e => { e with nlink := e.nlink + 1 }
            else pure ⟨⟩)
            iput dp
            pure (some ip)
          else createFail ip dp
        else createFail ip dp

def openInode (p : Pid) (path : Path) (omode : BitVec 32) : Steps (Option Ip) := do
  if omode &&& O_CREATE ≠ 0 then create p path .file 0 0
  else match ← namei p path with
    | none => pure none
    | some ip => do
      ilock ip
      let s ← get
      if (s.itable ip).type = .dir ∧ omode ≠ 0 then do
        iput ip
        pure none
      else pure (some ip)

def sysOpen (p : Pid) (path : Option Path) (omode : BitVec 32) : Steps Int := do
  match path with
  | none => pure (-1)
  | some path => do
    match ← openInode p path omode with
    | none => pure (-1)
    | some ip => do
      let s ← get
      let e := s.itable ip
      if e.type = .device ∧ (e.major.toInt < 0 ∨ NDEV ≤ e.major.toInt) then do
        iput ip
        pure (-1)
      else match ← filealloc with
        | none => do
          iput ip
          pure (-1)
        | some f => do
          match ← fdalloc p f with
          | none => do
            fileclose f
            iput ip
            pure (-1)
          | some fd => do
            modify fun s => s.setFile f { s.ftable f with
              type := if e.type = .device then .device else .inode
              major := if e.type = .device then e.major else (s.ftable f).major
              off := if e.type = .device then (s.ftable f).off else 0
              ip := ip
              readable := decide (omode &&& O_WRONLY = 0)
              writable := decide (omode &&& O_WRONLY ≠ 0 ∨ omode &&& O_RDWR ≠ 0) }
            (if omode &&& O_TRUNC ≠ 0 ∧ e.type = .file then liftM (itrunc ip) else pure ⟨⟩)
            pure fd.val

def sysMkdir (p : Pid) (path : Option Path) : Steps Int := do
  match path with
  | none => pure (-1)
  | some path => do
    match ← create p path .dir 0 0 with
    | none => pure (-1)
    | some ip => do
      iput ip
      pure 0

def sysMknod (p : Pid) (path : Option Path) (major minor : BitVec 16) : Steps Int := do
  match path with
  | none => pure (-1)
  | some path => do
    match ← create p path .device major minor with
    | none => pure (-1)
    | some ip => do
      iput ip
      pure 0

def sysChdir (p : Pid) (path : Option Path) : Steps Int := do
  match path with
  | none => pure (-1)
  | some path => do
    match ← namei p path with
    | none => pure (-1)
    | some ip => do
      ilock ip
      let s ← get
      if (s.itable ip).type ≠ .dir then do
        iput ip
        pure (-1)
      else do
        iput (s.proc p).cwd
        modify fun s => s.setProc p { s.proc p with cwd := ip }
        pure 0

/-- What `kexec` does with inodes; `argc` is what it returns, `none` if the program cannot be loaded. -/
def kexec (p : Pid) (path : Path) (argc : Option Nat) : Steps Int := do
  match ← namei p path with
  | none => pure (-1)
  | some ip => do
    ilock ip
    iput ip
    pure (match argc with
      | none => -1
      | some n => n)

/-- `path` is `none` if the arguments cannot be fetched. -/
def sysExec (p : Pid) (path : Option Path) (argc : Option Nat) : Steps Int := do
  match path with
  | none => pure (-1)
  | some path => kexec p path argc

/-- `np->cwd = idup(p->cwd)`, and `np` may run. -/
def inheritCwd (p np : Pid) : K PUnit := do
  let s ← get
  let _ ← idup (s.proc p).cwd
  modify fun s => s.setProc np { s.proc np with used := true, cwd := (s.proc p).cwd }

def kfork (p np : Pid) : Steps PUnit := do
  fds.forM fun fd => do
    let s ← get
    match (s.proc p).ofile fd with
    | none => pure ⟨⟩
    | some f => do
      filedup f
      modify fun s => s.setFd np fd (some f)
  inheritCwd p np

def kexit (p : Pid) : Steps PUnit := do
  if p = initproc then stop .initExiting
  else do
    fds.forM fun fd => do
      let s ← get
      match (s.proc p).ofile fd with
      | none => pure ⟨⟩
      | some f => do
        fileclose f
        modify fun s => s.setFd p fd none
    let s ← get
    iput (s.proc p).cwd
    modify fun s => s.setProc p { s.proc p with used := false }

/-- What a process asks of the kernel. -/
inductive Request where
  | call (call : Call)
  | exec (path : Option Path) (argc : Option Nat)

def Request.steps (p : Pid) : Request → Steps Int
  | .call (.open path omode) => sysOpen p path omode
  | .call (.mkdir path) => sysMkdir p path
  | .call (.mknod path major minor) => sysMknod p path major minor
  | .call (.link old new) => sysLink p old new
  | .call (.unlink path) => sysUnlink p path
  | .call (.chdir path) => sysChdir p path
  | .call (.dup fd) => sysDup p fd
  | .call (.close fd) => sysClose p fd
  | .call (.fork np) => do
    kfork p np
    pure 0
  | .call .exit => do
    kexit p
    pure 0
  | .exec path argc => sysExec p path argc

/-! ## One call at a time -/

theorem run_iput (ip : Ip) : (iput ip).run = Fs.iput ip := by
  unfold iput Fs.iput
  simp

theorem run_ialloc (type : FileType) : (ialloc type).run = Fs.ialloc type := by
  unfold ialloc Fs.ialloc
  simp only [Prog.run_bind, Prog.run_lift, bind_assoc]
  refine bind_congr fun s => ?_
  cases (List.range' 1 (s.ninodes - 1)).find? fun i => decide ((s.disk i).type = .free) with
  | none => rfl
  | some inum => simp

theorem run_dirlookup (dp : Ip) (name : Name) : (dirlookup dp name).run = Fs.dirlookup dp name := by
  unfold dirlookup Fs.dirlookup
  simp only [Prog.run_bind, Prog.run_get, Prog.run_ite, Prog.run_lift]
  refine bind_congr fun s => ?_
  cases findEntry (s.disk (s.itable dp).inum).ents name with
  | none => simp
  | some off => simp

theorem run_dirlink (dp : Ip) (name : Name) (inum : Nat) : (dirlink dp name inum).run = Fs.dirlink dp name inum := by
  unfold dirlink Fs.dirlink
  rw [Prog.run_bind, run_dirlookup]
  refine bind_congr fun o => ?_
  cases o with
  | none => simp
  | some o => simp [run_iput]

theorem run_namexLoop (nameiparent : Bool) (names : List Name) (ip : Ip) :
    (namexLoop nameiparent names ip).run = Fs.namexLoop nameiparent names ip := by
  induction names generalizing ip with
  | nil =>
      unfold namexLoop Fs.namexLoop
      simp [run_iput]
  | cons name rest ih =>
      unfold namexLoop Fs.namexLoop
      simp only [Prog.run_bind, Prog.run_get, Prog.run_ite, Prog.run_lift, Prog.run_pure, run_iput, run_dirlookup]
      refine bind_congr fun _ => bind_congr fun s => ?_
      refine congrArg _ (congrArg _ (bind_congr fun o => ?_))
      cases o with
      | none => simp [run_iput]
      | some o => simp [run_iput, ih]

theorem run_namex (p : Pid) (path : Path) (parent : Bool) : (namex p path parent).run = Fs.namex p path parent := by
  unfold namex Fs.namex
  simp [run_namexLoop]

theorem run_namei (p : Pid) (path : Path) : (namei p path).run = Fs.namei p path := by
  unfold namei Fs.namei
  simp [run_namex]

theorem run_fileclose (f : Fin NFILE) : (fileclose f).run = Fs.fileclose f := by
  unfold fileclose dropFile Fs.fileclose
  simp only [Prog.run_bind, Prog.run_lift, bind_assoc]
  refine bind_congr fun s => ?_
  by_cases hfree : (s.ftable f).ref < 1
  · simp only [if_pos hfree]
    rfl
  · by_cases hshared : 1 < (s.ftable f).ref
    · simp [hfree, hshared]
    · by_cases hnone : (s.ftable f).type = .none <;> simp [hfree, hshared, hnone, run_iput]

theorem run_unlinkOld (ip : Ip) : (unlinkOld ip).run = Fs.unlinkOld ip := by
  unfold unlinkOld Fs.unlinkOld
  simp [run_iput]

theorem run_linkDots (type : FileType) (ip dp : Ip) : (linkDots type ip dp).run = Fs.linkDots type ip dp := by
  unfold linkDots Fs.linkDots
  simp [run_dirlink]

theorem run_createFail (ip dp : Ip) : (createFail ip dp).run = Fs.createFail ip dp := by
  unfold createFail Fs.createFail
  simp [run_iput]

theorem run_create (p : Pid) (path : Path) (type : FileType) (major minor : BitVec 16) :
    (create p path type major minor).run = Fs.create p path type major minor := by
  unfold create Fs.create nameiparent Fs.nameiparent
  rw [Prog.run_bind, run_namex]
  refine bind_congr fun o => ?_
  cases o with
  | none => rfl
  | some o =>
      simp only [Prog.run_bind, Prog.run_lift, run_dirlookup]
      refine bind_congr fun _ => bind_congr fun found => ?_
      cases found with
      | some found => simp [run_iput]
      | none =>
          simp only [Prog.run_bind, run_ialloc]
          refine bind_congr fun made => ?_
          cases made with
          | none => simp [run_iput]
          | some ip => simp [run_iput, run_linkDots, run_dirlink, run_createFail]

theorem run_sysLink (p : Pid) (old new : Option Path) : (sysLink p old new).run = Fs.sysLink p old new := by
  unfold sysLink Fs.sysLink
  cases old with
  | none => rfl
  | some old => cases new with
    | none => rfl
    | some new =>
        simp only [Prog.run_bind, run_namei]
        refine bind_congr fun o => ?_
        cases o with
        | none => rfl
        | some ip =>
            simp only [Prog.run_bind, Prog.run_get, Prog.run_ite, Prog.run_lift, run_iput, Prog.run_pure]
            refine bind_congr fun _ => bind_congr fun s => ?_
            refine congrArg _ (bind_congr fun _ => bind_congr fun _ => ?_)
            unfold nameiparent Fs.nameiparent
            rw [run_namex]
            refine bind_congr fun o => ?_
            cases o with
            | none => exact run_unlinkOld ip
            | some o => simp [run_iput, run_dirlink, run_unlinkOld]

theorem run_sysUnlink (p : Pid) (path : Option Path) : (sysUnlink p path).run = Fs.sysUnlink p path := by
  unfold sysUnlink Fs.sysUnlink
  cases path with
  | none => rfl
  | some path =>
      simp only [Prog.run_bind, nameiparent, Fs.nameiparent, run_namex]
      refine bind_congr fun o => ?_
      cases o with
      | none => rfl
      | some o =>
          simp only [Prog.run_bind, Prog.run_ite, Prog.run_lift, Prog.run_pure, run_iput, run_dirlookup]
          refine bind_congr fun _ => congrArg _ (bind_congr fun found => ?_)
          cases found with
          | none => simp [run_iput]
          | some found => simp [run_iput]

theorem run_openInode (p : Pid) (path : Path) (omode : BitVec 32) :
    (openInode p path omode).run = Fs.openInode p path omode := by
  unfold openInode Fs.openInode
  simp only [Prog.run_bind, Prog.run_ite, run_create, run_namei]
  refine congrArg _ (bind_congr fun o => ?_)
  cases o with
  | none => rfl
  | some ip => simp [run_iput]

theorem run_sysOpen (p : Pid) (path : Option Path) (omode : BitVec 32) :
    (sysOpen p path omode).run = Fs.sysOpen p path omode := by
  unfold sysOpen Fs.sysOpen
  cases path with
  | none => rfl
  | some path =>
      simp only [Prog.run_bind, run_openInode]
      refine bind_congr fun o => ?_
      cases o with
      | none => rfl
      | some ip =>
          simp only [Prog.run_bind, Prog.run_get, Prog.run_ite, Prog.run_lift, Prog.run_pure, run_iput]
          refine bind_congr fun s => congrArg _ (bind_congr fun file => ?_)
          cases file with
          | none => simp [run_iput]
          | some f =>
              simp only [Prog.run_bind, Prog.run_lift]
              refine bind_congr fun fd => ?_
              cases fd with
              | none => simp [run_iput, run_fileclose]
              | some fd => simp

theorem run_kfork (p np : Pid) : (kfork p np).run = Fs.kfork p np := by
  unfold kfork Fs.kfork inheritCwd
  simp only [Prog.run_bind, Prog.run_forM, Prog.run_lift]
  refine congrArg (· >>= _) (congrArg _ (funext fun fd => ?_))
  simp only [Prog.run_get]
  refine bind_congr fun s => ?_
  cases (s.proc p).ofile fd with
  | none => rfl
  | some f => simp

theorem run_kexit (p : Pid) : (kexit p).run = Fs.kexit p := by
  unfold kexit Fs.kexit
  simp only [Prog.run_ite, Prog.run_bind, Prog.run_forM, Prog.run_lift, Prog.run_get, run_iput, Prog.run_modify]
  refine congrArg _ (congrArg (· >>= _) (congrArg _ (funext fun fd => ?_)))
  refine bind_congr fun s => ?_
  cases (s.proc p).ofile fd with
  | none => rfl
  | some f => simp [run_fileclose]

theorem run_sysDup (p : Pid) (fd : Int) : (sysDup p fd).run = Fs.sysDup p fd := by
  unfold sysDup Fs.sysDup
  simp only [Prog.run_bind, Prog.run_lift]
  refine bind_congr fun o => ?_
  cases o with
  | none => rfl
  | some o =>
      simp only [Prog.run_bind, Prog.run_lift]
      refine bind_congr fun o' => ?_
      cases o' with
      | none => rfl
      | some fd => simp

theorem run_sysClose (p : Pid) (fd : Int) : (sysClose p fd).run = Fs.sysClose p fd := by
  unfold sysClose Fs.sysClose
  simp only [Prog.run_bind, Prog.run_lift]
  refine bind_congr fun o => ?_
  cases o with
  | none => rfl
  | some o => simp [run_fileclose]

theorem run_sysMkdir (p : Pid) (path : Option Path) :
    (sysMkdir p path).run = Fs.sysMkdir p path := by
  unfold sysMkdir Fs.sysMkdir
  cases path with
  | none => rfl
  | some path =>
      simp only [Prog.run_bind, run_create]
      refine bind_congr fun o => ?_
      cases o with
      | none => rfl
      | some ip => simp [run_iput]

theorem run_sysMknod (p : Pid) (path : Option Path) (major minor : BitVec 16) :
    (sysMknod p path major minor).run = Fs.sysMknod p path major minor := by
  unfold sysMknod Fs.sysMknod
  cases path with
  | none => rfl
  | some path =>
      simp only [Prog.run_bind, run_create]
      refine bind_congr fun o => ?_
      cases o with
      | none => rfl
      | some ip => simp [run_iput]

theorem run_sysChdir (p : Pid) (path : Option Path) : (sysChdir p path).run = Fs.sysChdir p path := by
  unfold sysChdir Fs.sysChdir
  cases path with
  | none => rfl
  | some path =>
      simp only [Prog.run_bind, run_namei]
      refine bind_congr fun o => ?_
      cases o with
      | none => rfl
      | some ip => simp [run_iput]

/-- A call whose steps follow right after each other is the call of `Fs.Model`. -/
theorem run_steps (p : Pid) (call : Call) : (Request.steps p (.call call)).run = call.run p := by
  cases call with
  | «open» path omode => exact run_sysOpen p path omode
  | mkdir path => exact run_sysMkdir p path
  | mknod path major minor => exact run_sysMknod p path major minor
  | link old new => exact run_sysLink p old new
  | unlink path => exact run_sysUnlink p path
  | chdir path => exact run_sysChdir p path
  | dup fd => exact run_sysDup p fd
  | close fd => exact run_sysClose p fd
  | fork np =>
      show (kfork p np >>= _).run = Fs.kfork p np >>= _
      rw [Prog.run_bind, run_kfork]
      rfl
  | exit =>
      show (kexit p >>= _).run = Fs.kexit p >>= _
      rw [Prog.run_bind, run_kexit]
      rfl

/-! ## The machine -/

structure Machine where
  fs : FS
  /-- What a process has asked for, and the steps that are left of it. -/
  running : Pid → Option (Request × Steps Int)
  /-- The kernel has stopped. -/
  panic : Option Panic

inductive Act where
  /-- A process that runs in user space enters the kernel. -/
  | begin (p : Pid) (req : Request)
  /-- A process in the kernel takes its next step. -/
  | step (p : Pid)
  /-- Whether the next calls of `balloc` find a free block. -/
  | blocks (blocks : List Bool)

def Request.left (req : Request) : Steps Int → Option (Request × Steps Int)
  | .done _ => none
  | .step x f => some (req, .step x f)

/-- Process `p` goes on with `prog`, or returns to user space. -/
def Machine.goOn (m : Machine) (p : Pid) (req : Request) (prog : Steps Int) : Machine :=
  { m with running := Function.update m.running p (req.left prog) }

/-- `allocproc` has found `np` for nobody else. -/
def Machine.vacant (m : Machine) (np : Pid) : Bool :=
  !(m.fs.proc np).used && (List.finRange NPROC).all fun q => match m.running q with
    | some (.call (.fork np'), _) => np' ≠ np
    | _ => true

def Machine.enabled (m : Machine) : Act → Bool
  | .begin p req => m.panic.isNone && (m.fs.proc p).used && (m.running p).isNone && match req with
    | .call (.fork np) => m.vacant np
    | _ => true
  | .step p => m.panic.isNone && (m.running p).isSome
  | .blocks _ => m.panic.isNone

/-- Process `p` takes the first of the steps that are left. -/
def Machine.take (m : Machine) (p : Pid) (req : Request) : Steps Int → Option Machine
  | .done _ => none
  | .step x f => match x m.fs with
    | .ok (b, fs) => some ({ m with fs := fs }.goOn p req (f b))
    | .error (e, fs) => some { m with fs := fs, panic := some e }

def Machine.setBlocks (m : Machine) (blocks : List Bool) : Machine :=
  { m with fs := { m.fs with blocks := blocks } }

def perform (m : Machine) (a : Act) : Option Machine :=
  if m.enabled a then match a with
    | .begin p req => some (m.goOn p req (req.steps p))
    | .step p => (m.running p).bind fun r => m.take p r.1 r.2
    | .blocks blocks => some (m.setBlocks blocks)
  else none

/-- After `userinit`. -/
def boot (ninodes : Nat) (disk : Nat → Dinode) : Machine where
  fs := (Fs.boot ninodes disk).fs
  running := fun _ => none
  panic := none

/-! ## The runs of `Fs.Model` among the runs of the machine -/

variable {m : Machine} {p : Pid} {req : Request} {s t : State}

theorem Machine.goOn_goOn (m : Machine) (p : Pid) (req : Request) (prog prog' : Steps Int) :
    (m.goOn p req prog).goOn p req prog' = m.goOn p req prog' := by
  unfold goOn
  rw [Function.update_idem]

theorem perform_step (hpanic : m.panic = none) {r : Request × Steps Int} (hr : m.running p = some r) :
    perform m (.step p) = m.take p r.1 r.2 := by
  have henabled : m.enabled (.step p) = true := by simp [Machine.enabled, hpanic, hr]
  unfold perform
  rw [if_pos henabled]
  simp only [hr, Option.bind_some]

theorem perform_begin {l : Label} (hpanic : m.panic = none) (hs : Fs.step s l = some t) (hproc : m.fs.proc = s.fs.proc)
    (hidle : ∀ q, m.running q = none) :
    perform m (.begin l.p (.call l.call)) = some (m.goOn l.p (.call l.call) (Request.steps l.p (.call l.call))) := by
  have hen : s.enabled l = true := by
    unfold Fs.step at hs
    split at hs
    next hen => exact hen
    next => cases hs
  have henabled : m.enabled (.begin l.p (.call l.call)) = true := by
    unfold State.enabled at hen
    unfold Machine.enabled Machine.vacant
    simp only [hpanic, hproc, hidle]
    revert hen
    cases l.call <;> simp +contextual
  unfold perform
  rw [if_pos henabled]

/-- How a call ends that nobody disturbs. -/
def Machine.Ends (m : Machine) (p : Pid) : Except (Panic × FS) (Int × FS) → Machine → Prop
  | .ok (_, fs), t => t.fs = fs ∧ t.panic = none ∧ t.running = Function.update m.running p none
  | .error (e, fs), t => t.fs = fs ∧ t.panic = some e

theorem Machine.take_ok {β : Type} {x : K β} {f : β → Steps Int} {r : β × FS} (hx : x m.fs = .ok r) :
    m.take p req (.step x f) = some ({ m with fs := r.2 }.goOn p req (f r.1)) := by
  unfold take
  simp only [hx]

theorem Machine.take_error {β : Type} {x : K β} {f : β → Steps Int} {e : Panic × FS} (hx : x m.fs = .error e) :
    m.take p req (.step x f) = some { m with fs := e.2, panic := some e.1 } := by
  unfold take
  simp only [hx]

/-- A process that nobody disturbs takes one step after the other until its call ends. -/
theorem runs_alone (m : Machine) (p : Pid) (req : Request) (prog : Steps Int) (hpanic : m.panic = none) : ∃ n t,
    runSteps perform (m.goOn p req prog) (List.replicate n (.step p)) = some t ∧ m.Ends p (prog.run m.fs) t := by
  induction prog generalizing m with
  | done a => exact ⟨0, _, rfl, rfl, hpanic, rfl⟩
  | step x f ih =>
      have hrunning : (m.goOn p req (.step x f)).running p = some (req, .step x f) := Function.update_self ..
      have hstep := perform_step (m := m.goOn p req (.step x f)) hpanic hrunning
      cases hx : x m.fs with
      | error e =>
          refine ⟨1, _, runSteps_cons_eq_some.2 ⟨_, hstep.trans (Machine.take_error hx), rfl⟩, ?_⟩
          rw [show (Prog.step x f).run m.fs = .error e from bind_of_error _ hx]
          exact ⟨rfl, rfl⟩
      | ok r =>
          obtain ⟨n, t, hrun, hends⟩ := ih r.1 (m := { m with fs := r.2 }) hpanic
          have hnext := hstep.trans (Machine.take_ok hx)
          rw [show ({ m.goOn p req (.step x f) with fs := r.2 } : Machine).goOn p req (f r.1) =
            ({ m with fs := r.2 } : Machine).goOn p req (f r.1) from Machine.goOn_goOn { m with fs := r.2 } ..] at hnext
          refine ⟨n + 1, t, runSteps_cons_eq_some.2 ⟨_, hnext, hrun⟩, ?_⟩
          rw [show (Prog.step x f).run m.fs = (f r.1).run r.2 from bind_of_ok hx]
          exact hends

/-- What a run with a call of `Fs.Model` in it does on the machine. -/
def Label.acts (l : Label) (n : Nat) : List Act :=
  .blocks l.blocks :: .begin l.p (.call l.call) :: List.replicate n (.step l.p)

/-- A call of `Fs.Model` is a run of the machine. -/
theorem call_alone {l : Label} (hs : Fs.step s l = some t) (hfs : m.fs = s.fs) (hpanic : m.panic = none)
    (hidle : ∀ q, m.running q = none) : ∃ n u, runSteps perform m (Label.acts l n) = some u ∧ u.fs = t.fs ∧
      u.panic = t.panic ∧ (t.panic = none → ∀ q, u.running q = none) := by
  have hblocks : perform m (.blocks l.blocks) = some (m.setBlocks l.blocks) := by
    unfold perform Machine.enabled
    simp [hpanic]
  have hproc : (m.setBlocks l.blocks).fs.proc = s.fs.proc := show m.fs.proc = s.fs.proc by rw [hfs]
  have hbegin := perform_begin (m := m.setBlocks l.blocks) hpanic hs hproc hidle
  obtain ⟨n, u, hrun, hends⟩ := runs_alone (m.setBlocks l.blocks) l.p (.call l.call)
    (Request.steps l.p (.call l.call)) hpanic
  refine ⟨n, u, runSteps_cons_eq_some.2 ⟨_, hblocks, runSteps_cons_eq_some.2 ⟨_, hbegin, hrun⟩⟩, ?_⟩
  rw [run_steps, show (m.setBlocks l.blocks).fs = { s.fs with blocks := l.blocks } from hfs ▸ rfl] at hends
  unfold Fs.step at hs
  split at hs
  next =>
    revert hs hends
    cases l.call.run l.p { s.fs with blocks := l.blocks } with
    | ok r =>
        rintro ⟨hu, hnone, hrunning⟩ hs
        obtain rfl := Option.some.inj hs
        refine ⟨hu, hnone, fun _ q => ?_⟩
        rw [hrunning, Function.update_apply]
        split
        · rfl
        · exact hidle q
    | error e =>
        rintro ⟨hu, hsome⟩ hs
        obtain rfl := Option.some.inj hs
        exact ⟨hu, hsome, fun h => absurd h (Option.some_ne_none _)⟩
  next => cases hs

theorem panic_of_step {l : Label} (hs : Fs.step s l = some t) : s.panic = none := by
  unfold Fs.step at hs
  split at hs
  next hen =>
    simp only [State.enabled, Bool.and_eq_true, Option.isNone_iff_eq_none] at hen
    exact hen.1.1
  next => cases hs

theorem runs_sequential_from {whole : State → Label → Prop} {ok : Machine → Act → Prop}
    (hok : ∀ (s : State) (m : Machine) (l : Label) (n : Nat), m.fs = s.fs → (∀ q, m.running q = none) → whole s l →
      AllSteps perform ok m (Label.acts l n))
    {ls : List Label} (hfs : m.fs = s.fs) (hpanic : m.panic = s.panic)
    (hidle : s.panic = none → ∀ q, m.running q = none) (hall : AllSteps Fs.step whole s ls)
    (hrun : runSteps Fs.step s ls = some t) :
    ∃ acts u, AllSteps perform ok m acts ∧ runSteps perform m acts = some u ∧ u.fs = t.fs ∧ u.panic = t.panic := by
  induction ls generalizing s m with
  | nil =>
      obtain rfl := Option.some.inj hrun
      exact ⟨[], m, trivial, rfl, hfs, hpanic⟩
  | cons l ls ih =>
      obtain ⟨s', hstep, hrest⟩ := runSteps_cons_eq_some.1 hrun
      have hnone := panic_of_step hstep
      obtain ⟨n, u, hu, hufs, hupanic, huidle⟩ := call_alone hstep hfs (hpanic.trans hnone) (hidle hnone)
      obtain ⟨acts, v, hacts, hv, hend⟩ := ih hufs hupanic huidle (hall.2 s' hstep) hrest
      refine ⟨Label.acts l n ++ acts, v, ?_, ?_, hend⟩
      · exact (hok s m l n hfs (hidle hnone) hall.1).append hu hacts
      · rw [runSteps_append, hu]
        exact hv

/-- Every run in which the calls follow one after the other is a run of the machine, whose steps meet `ok` where
    the calls meet `whole`. -/
theorem runSteps_sequential {whole : State → Label → Prop} {ok : Machine → Act → Prop}
    (hok : ∀ (s : State) (m : Machine) (l : Label) (n : Nat), m.fs = s.fs → (∀ q, m.running q = none) → whole s l →
      AllSteps perform ok m (Label.acts l n))
    {ninodes : Nat} {disk : Nat → Dinode} {ls : List Label} (hall : AllSteps Fs.step whole (Fs.boot ninodes disk) ls)
    (hrun : runSteps Fs.step (Fs.boot ninodes disk) ls = some s) :
    ∃ acts m, AllSteps perform ok (boot ninodes disk) acts ∧ runSteps perform (boot ninodes disk) acts = some m ∧
      m.fs = s.fs ∧ m.panic = s.panic :=
  runs_sequential_from hok rfl rfl (fun _ _ => rfl) hall hrun

end Xv6.Fs.Interleaved
