import Mathlib.Logic.Function.Basic
import Mathlib.Data.List.FinRange
import Xv6.Lib.Run
import Xv6.Lib.Hoare
import Xv6.Param

set_option autoImplicit false

/-! # Inodes, directories and path names

`kernel/fs.c` from the inodes upwards, `kernel/sysfile.c`, and the parts of `kernel/file.c` and
`kernel/proc.c` that take and give back references to inodes. System calls run one after the other,
so sleep-locks and transactions are left out, and there is one device.

The content of a directory is the list of its entries, and an offset in it is the number of an
entry; the content of any other file is its bytes. What an inode has on disk besides its content is
copied to the inode table and written back as in the source. -/

namespace Xv6.Fs

open Xv6.Lib

/-- Maximum number of active i-nodes. -/
def NINODE : Nat := 50
/-- Open files per system. -/
def NFILE : Nat := 100
/-- Maximum major device number. -/
def NDEV : Nat := 10
/-- Root i-number. -/
def ROOTINO : Nat := 1
def DIRSIZ : Nat := 14
/-- Blocks of a file. -/
def MAXFILE : Nat := 12 + BSIZE / 4
/-- `sizeof(struct dirent)` -/
def DIRENT : Nat := 16

inductive Panic where
  /-- `iget: no inodes` -/
  | iget
  /-- `ilock` -/
  | ilock
  /-- `ilock: no type` -/
  | ilockNoType
  /-- `dirlookup not DIR` -/
  | dirlookup
  /-- `unlink: nlink < 1` -/
  | unlinkNlink
  /-- `unlink: writei` -/
  | unlinkWritei
  | filedup | fileclose
  /-- `init exiting` -/
  | initExiting
  deriving DecidableEq

/-- The type of an inode: 0, `T_DIR`, `T_FILE` or `T_DEVICE`. -/
inductive FileType where
  | free | dir | file | device
  deriving DecidableEq

/-- At most `DIRSIZ` bytes, none of them 0. -/
abbrev Name := List UInt8

abbrev Path := List UInt8

def slash : UInt8 := 47
/-- `"."` -/
def dot : Name := [46]
/-- `".."` -/
def dotdot : Name := [46, 46]

structure Dirent where
  inum : Nat
  name : Name
  deriving DecidableEq

/-- `struct dinode` with its content: entries if it is a directory, bytes if it is not. -/
structure Dinode where
  type : FileType
  major : BitVec 16
  minor : BitVec 16
  nlink : BitVec 16
  ents : List Dirent
  data : List UInt8
  deriving DecidableEq

/-- `struct inode`: an entry of the inode table. -/
structure Inode where
  inum : Nat
  ref : Nat
  valid : Bool
  type : FileType
  major : BitVec 16
  minor : BitVec 16
  nlink : BitVec 16

/-- `FD_NONE`, `FD_INODE` and `FD_DEVICE`. -/
inductive FdType where
  | none | inode | device
  deriving DecidableEq

/-- A pointer to an entry of the inode table. -/
abbrev Ip := Fin NINODE

structure File where
  type : FdType
  ref : Nat
  readable : Bool
  writable : Bool
  ip : Ip
  off : Nat
  major : BitVec 16

/-- `used`: neither `UNUSED` nor `ZOMBIE`. -/
structure Proc where
  used : Bool
  cwd : Ip
  ofile : Fin NOFILE → Option (Fin NFILE)

abbrev Pid := Fin NPROC

def initproc : Pid := ⟨0, by decide⟩

/-- What the history of a run says besides the state. -/
inductive Event where
  /-- `iput` has freed an inode; `parent`: the `..` of another directory named it. -/
  | freed (inum : Nat) (parent : Bool)
  /-- `create` or `sys_link` has entered a name into a directory with this link count. -/
  | entered (nlink : BitVec 16)
  /-- `nlink++`, from this link count. -/
  | linked (nlink : BitVec 16)
  deriving DecidableEq

structure FS where
  /-- `sb.ninodes` -/
  ninodes : Nat
  disk : Nat → Dinode
  itable : Ip → Inode
  ftable : Fin NFILE → File
  proc : Pid → Proc
  /-- Whether the next calls of `balloc` find a free block. -/
  blocks : List Bool
  /-- A history variable. -/
  events : List Event

/-- A panic keeps the state it was reached in. -/
abbrev K := Code (Panic × FS) FS

def stop {α : Type} (e : Panic) : K α := do
  let s ← get
  throw (e, s)

def FS.setDisk (s : FS) (inum : Nat) (d : Dinode) : FS :=
  { s with disk := Function.update s.disk inum d }

def FS.setInode (s : FS) (ip : Ip) (e : Inode) : FS :=
  { s with itable := Function.update s.itable ip e }

def FS.setFile (s : FS) (f : Fin NFILE) (e : File) : FS :=
  { s with ftable := Function.update s.ftable f e }

def FS.setProc (s : FS) (p : Pid) (e : Proc) : FS :=
  { s with proc := Function.update s.proc p e }

/-- `p->ofile[fd] = f` -/
def FS.setFd (s : FS) (p : Pid) (fd : Fin NOFILE) (f : Option (Fin NFILE)) : FS :=
  s.setProc p { s.proc p with ofile := Function.update (s.proc p).ofile fd f }

def note (e : Event) : K PUnit := modify fun s => { s with events := e :: s.events }

/-! ## Inodes -/

/-- The entries of the inode table, in order. -/
@[irreducible] def slots : List Ip := List.finRange NINODE

def iget (inum : Nat) : K Ip := do
  let s ← get
  match slots.find? fun ip => decide (0 < (s.itable ip).ref ∧ (s.itable ip).inum = inum) with
  | some ip => do
    set (s.setInode ip { s.itable ip with ref := (s.itable ip).ref + 1 })
    pure ip
  | none => match slots.find? fun ip => decide ((s.itable ip).ref = 0) with
    | none => stop .iget
    | some ip => do
      set (s.setInode ip { s.itable ip with inum := inum, ref := 1, valid := false })
      pure ip

def idup (ip : Ip) : K Ip := do
  modify fun s => s.setInode ip { s.itable ip with ref := (s.itable ip).ref + 1 }
  pure ip

/-- The fields of an inode that are kept on disk. -/
def Inode.load (e : Inode) (d : Dinode) : Inode :=
  { e with type := d.type, major := d.major, minor := d.minor, nlink := d.nlink }

def Inode.store (e : Inode) (d : Dinode) : Dinode :=
  { d with type := e.type, major := e.major, minor := e.minor, nlink := e.nlink }

def iupdate (ip : Ip) : K PUnit := modify fun s =>
  s.setDisk (s.itable ip).inum ((s.itable ip).store (s.disk (s.itable ip).inum))

/-- Changes fields of `*ip` and writes them back. -/
def change (ip : Ip) (f : Inode → Inode) : K PUnit := do
  modify fun s => s.setInode ip (f (s.itable ip))
  iupdate ip

/-- The first free inode, if there is one, marked as allocated and referenced. -/
def ialloc (type : FileType) : K (Option Ip) := do
  let s ← get
  match (List.range' 1 (s.ninodes - 1)).find? fun i => decide ((s.disk i).type = .free) with
  | none => pure none
  | some inum => do
    set (s.setDisk inum ⟨type, 0, 0, 0, [], []⟩)
    let ip ← iget inum
    pure (some ip)

def ilock (ip : Ip) : K PUnit := do
  let s ← get
  if (s.itable ip).ref < 1 then stop .ilock
  else if (s.itable ip).valid then pure ⟨⟩
  else do
    let d := s.disk (s.itable ip).inum
    set (s.setInode ip { (s.itable ip).load d with valid := true })
    if d.type = .free then stop .ilockNoType else pure ⟨⟩

/-- The content goes, and the size with it. -/
def Dinode.trunc (d : Dinode) : Dinode := { d with ents := [], data := [] }

def itrunc (ip : Ip) : K PUnit := do
  modify fun s => s.setDisk (s.itable ip).inum (s.disk (s.itable ip).inum).trunc
  iupdate ip

/-- The `..` of a directory other than `inum` names `inum`. -/
def isParent (ninodes : Nat) (disk : Nat → Dinode) (inum : Nat) : Bool :=
  (List.range ninodes).any fun d => decide (d ≠ inum) && decide ((disk d).type = .dir) &&
    (disk d).ents.any fun e => decide (e.name = dotdot ∧ e.inum = inum)

/-- `iput` and `iunlockput`. -/
def iput (ip : Ip) : K PUnit := do
  let s ← get
  let e := s.itable ip
  (if e.ref = 1 ∧ e.valid = true ∧ e.nlink = 0 then do
    note (.freed e.inum (isParent s.ninodes s.disk e.inum))
    itrunc ip
    change ip fun e => { e with type := .free }
    modify fun s => s.setInode ip { s.itable ip with valid := false }
  else pure ⟨⟩)
  modify fun s => s.setInode ip { s.itable ip with ref := (s.itable ip).ref - 1 }

/-! ## Directories -/

def balloc : K Bool := do
  let s ← get
  match s.blocks with
  | [] => pure false
  | b :: rest => do
    set { s with blocks := rest }
    pure b

/-- The content with `de` written over entry `off` or appended. -/
def putEntry (ents : List Dirent) (off : Nat) (de : Dirent) : List Dirent :=
  if off < ents.length then ents.set off de else ents ++ [de]

/-- `writei` of one entry; whether it was written. A block is allocated for the first entry in it. -/
def writei (dp : Ip) (off : Nat) (de : Dirent) : K Bool := do
  let s ← get
  let inum := (s.itable dp).inum
  let ents := (s.disk inum).ents
  if ents.length < off ∨ MAXFILE * BSIZE < off * DIRENT + DIRENT then pure false
  else do
    let ok ← (if off < ents.length ∨ off * DIRENT % BSIZE ≠ 0 then pure true else balloc)
    (if ok then modify fun s => s.setDisk inum { s.disk inum with ents := putEntry ents off de }
      else pure ⟨⟩)
    iupdate dp
    pure ok

/-- `strncmp` of at most `DIRSIZ` bytes. -/
def namecmp (s t : Name) : Bool := decide (s = t)

/-- The offset of the first live entry with this name. -/
def findEntry (ents : List Dirent) (name : Name) : Option Nat :=
  ents.findIdx? fun de => decide (de.inum ≠ 0) && namecmp name de.name

/-- The inode and the offset of the entry. -/
def dirlookup (dp : Ip) (name : Name) : K (Option (Ip × Nat)) := do
  let s ← get
  if (s.itable dp).type ≠ .dir then stop .dirlookup
  else
    let ents := (s.disk (s.itable dp).inum).ents
    match findEntry ents name with
    | none => pure none
    | some off => do
      let ip ← iget ((ents.getD off ⟨0, []⟩).inum)
      pure (some (ip, off))

/-- The first empty entry, or the end of the directory. -/
def emptyEntry (ents : List Dirent) : Nat := ents.findIdx fun de => decide (de.inum = 0)

/-- Whether the entry was written; its inode number is a `ushort`. -/
def dirlink (dp : Ip) (name : Name) (inum : Nat) : K Bool := do
  match ← dirlookup dp name with
  | some (ip, _) => do
    iput ip
    pure false
  | none => do
    let s ← get
    writei dp (emptyEntry (s.disk (s.itable dp).inum).ents) ⟨inum % 2 ^ 16, name⟩

/-! ## Paths -/

/-- The next path element, cut to `DIRSIZ` bytes, and what follows it. -/
def skipelem (path : Path) : Option (Name × Path) :=
  match path.dropWhile (fun c => decide (c = slash)) with
  | [] => none
  | c :: cs => some (((c :: cs).takeWhile fun c => decide (c ≠ slash)).take DIRSIZ,
      ((c :: cs).dropWhile fun c => decide (c ≠ slash)).dropWhile fun c => decide (c = slash))

/-- What at most `n` calls of `skipelem` give, one after the other. -/
def elements : Nat → Path → List Name
  | 0, _ => []
  | n + 1, path => match skipelem path with
    | none => []
    | some (name, rest) => name :: elements n rest

/-- The loop of `namex` over the elements that are left; the name is the last element. -/
def namexLoop (nameiparent : Bool) : List Name → Ip → K (Option (Ip × Name))
  | [], ip =>
    if nameiparent then do
      iput ip
      pure none
    else pure (some (ip, []))
  | name :: rest, ip => do
    ilock ip
    let s ← get
    if (s.itable ip).type ≠ .dir then do
      iput ip
      pure none
    else if nameiparent = true ∧ rest = [] then pure (some (ip, name))
    else match ← dirlookup ip name with
      | none => do
        iput ip
        pure none
      | some (next, _) => do
        iput ip
        namexLoop nameiparent rest next

def namex (p : Pid) (path : Path) (nameiparent : Bool) : K (Option (Ip × Name)) := do
  let s ← get
  let ip ← (if path.head? = some slash then iget ROOTINO else idup (s.proc p).cwd)
  namexLoop nameiparent (elements path.length path) ip

def namei (p : Pid) (path : Path) : K (Option Ip) := do
  let r ← namex p path false
  pure (r.map Prod.fst)

def nameiparent (p : Pid) (path : Path) : K (Option (Ip × Name)) := namex p path true

/-! ## Files -/

@[irreducible] def files : List (Fin NFILE) := List.finRange NFILE

@[irreducible] def fds : List (Fin NOFILE) := List.finRange NOFILE

def filealloc : K (Option (Fin NFILE)) := do
  let s ← get
  match files.find? fun f => decide ((s.ftable f).ref = 0) with
  | none => pure none
  | some f => do
    set (s.setFile f { s.ftable f with ref := 1 })
    pure (some f)

def filedup (f : Fin NFILE) : K PUnit := do
  let s ← get
  if (s.ftable f).ref < 1 then stop .filedup
  else set (s.setFile f { s.ftable f with ref := (s.ftable f).ref + 1 })

def fileclose (f : Fin NFILE) : K PUnit := do
  let s ← get
  let ff := s.ftable f
  if ff.ref < 1 then stop .fileclose
  else if 1 < ff.ref then set (s.setFile f { ff with ref := ff.ref - 1 })
  else do
    set (s.setFile f { ff with ref := 0, type := .none })
    if ff.type = .none then pure ⟨⟩ else iput ff.ip

/-- The descriptor, or `none` if all are in use. -/
def fdalloc (p : Pid) (f : Fin NFILE) : K (Option (Fin NOFILE)) := do
  let s ← get
  match fds.find? fun fd => decide ((s.proc p).ofile fd = none) with
  | none => pure none
  | some fd => do
    set (s.setFd p fd (some f))
    pure (some fd)

/-! ## System calls

`path` is what `argstr` has fetched, `none` if it has failed. -/

/-- `none` if `fd` is not an open descriptor. -/
def argfd (p : Pid) (fd : Int) : K (Option (Fin NOFILE × Fin NFILE)) := do
  let s ← get
  if h : 0 ≤ fd ∧ fd < NOFILE then
    let fd : Fin NOFILE := ⟨fd.toNat, by omega⟩
    pure (((s.proc p).ofile fd).map fun f => (fd, f))
  else pure none

def sysDup (p : Pid) (fd : Int) : K Int := do
  match ← argfd p fd with
  | none => pure (-1)
  | some (_, f) => do
    match ← fdalloc p f with
    | none => pure (-1)
    | some fd => do
      filedup f
      pure fd.val

def sysClose (p : Pid) (fd : Int) : K Int := do
  match ← argfd p fd with
  | none => pure (-1)
  | some (fd, f) => do
    modify fun s => s.setFd p fd none
    fileclose f
    pure 0

/-- The end of `sys_link` where the new name could not be entered. -/
def unlinkOld (ip : Ip) : K Int := do
  ilock ip
  change ip fun e => { e with nlink := e.nlink - 1 }
  iput ip
  pure (-1)

def sysLink (p : Pid) (old new : Option Path) : K Int := do
  match old, new with
  | some old, some new => do
    match ← namei p old with
    | none => pure (-1)
    | some ip => do
      ilock ip
      let s ← get
      if (s.itable ip).type = .dir then do
        iput ip
        pure (-1)
      else do
        note (.linked (s.itable ip).nlink)
        change ip fun e => { e with nlink := e.nlink + 1 }
        match ← nameiparent p new with
        | none => unlinkOld ip
        | some (dp, name) => do
          ilock dp
          let s ← get
          if ← dirlink dp name (s.itable ip).inum then do
            note (.entered (s.itable dp).nlink)
            iput dp
            iput ip
            pure 0
          else do
            iput dp
            unlinkOld ip
  | _, _ => pure (-1)

/-- Whether there are only `.` and `..`. -/
def isdirempty (ents : List Dirent) : Bool := (ents.drop 2).all fun de => decide (de.inum = 0)

def sysUnlink (p : Pid) (path : Option Path) : K Int := do
  match path with
  | none => pure (-1)
  | some path => do
    match ← nameiparent p path with
    | none => pure (-1)
    | some (dp, name) => do
      ilock dp
      if namecmp name dot || namecmp name dotdot then do
        iput dp
        pure (-1)
      else do
        match ← dirlookup dp name with
        | none => do
          iput dp
          pure (-1)
        | some (ip, off) => do
          ilock ip
          let s ← get
          let e := s.itable ip
          if e.nlink.toInt < 1 then stop .unlinkNlink
          else if e.type = .dir ∧ isdirempty (s.disk e.inum).ents = false then do
            iput ip
            iput dp
            pure (-1)
          else do
            if ← writei dp off ⟨0, []⟩ then do
              (if e.type = .dir then change dp fun e => { e with nlink := e.nlink - 1 }
                else pure ⟨⟩)
              iput dp
              change ip fun e => { e with nlink := e.nlink - 1 }
              iput ip
              pure 0
            else stop .unlinkWritei

/-- The entries `.` and `..` of a new directory. -/
def linkDots (type : FileType) (ip dp : Ip) : K Bool := do
  if type = .dir then do
    let s ← get
    if ← dirlink ip dot (s.itable ip).inum then dirlink ip dotdot (s.itable dp).inum
    else pure false
  else pure true

/-- The end of `create` where something went wrong: de-allocate `ip`. -/
def createFail (ip dp : Ip) : K (Option Ip) := do
  change ip fun e => { e with nlink := 0 }
  iput ip
  iput dp
  pure none

def create (p : Pid) (path : Path) (type : FileType) (major minor : BitVec 16) :
    K (Option Ip) := do
  match ← nameiparent p path with
  | none => pure none
  | some (dp, name) => do
    ilock dp
    match ← dirlookup dp name with
    | some (ip, _) => do
      iput dp
      ilock ip
      let s ← get
      if type = .file ∧ ((s.itable ip).type = .file ∨ (s.itable ip).type = .device) then
        pure (some ip)
      else do
        iput ip
        pure none
    | none => do
      match ← ialloc type with
      | none => do
        iput dp
        pure none
      | some ip => do
        ilock ip
        change ip fun e => { e with major := major, minor := minor, nlink := 1 }
        if ← linkDots type ip dp then do
          let s ← get
          if ← dirlink dp name (s.itable ip).inum then do
            note (.entered (s.itable dp).nlink)
            (if type = .dir then do
              note (.linked (s.itable dp).nlink)
              change dp fun e => { e with nlink := e.nlink + 1 }
            else pure ⟨⟩)
            iput dp
            pure (some ip)
          else createFail ip dp
        else createFail ip dp

def O_WRONLY : BitVec 32 := 0x001
def O_RDWR : BitVec 32 := 0x002
def O_CREATE : BitVec 32 := 0x200
def O_TRUNC : BitVec 32 := 0x400

/-- The inode that `sys_open` opens, locked. -/
def openInode (p : Pid) (path : Path) (omode : BitVec 32) : K (Option Ip) := do
  if omode &&& O_CREATE ≠ 0 then create p path .file 0 0
  else match ← namei p path with
    | none => pure none
    | some ip => do
      ilock ip
      let s ← get
      if (s.itable ip).type = .dir ∧ omode ≠ 0 then do
        iput ip
        pure none
      else pure (some ip)

def sysOpen (p : Pid) (path : Option Path) (omode : BitVec 32) : K Int := do
  match path with
  | none => pure (-1)
  | some path => do
    match ← openInode p path omode with
    | none => pure (-1)
    | some ip => do
      let s ← get
      let e := s.itable ip
      if e.type = .device ∧ (e.major.toInt < 0 ∨ NDEV ≤ e.major.toInt) then do
        iput ip
        pure (-1)
      else match ← filealloc with
        | none => do
          iput ip
          pure (-1)
        | some f => do
          match ← fdalloc p f with
          | none => do
            fileclose f
            iput ip
            pure (-1)
          | some fd => do
            modify fun s => s.setFile f { s.ftable f with
              type := if e.type = .device then .device else .inode
              major := if e.type = .device then e.major else (s.ftable f).major
              off := if e.type = .device then (s.ftable f).off else 0
              ip := ip
              readable := decide (omode &&& O_WRONLY = 0)
              writable := decide (omode &&& O_WRONLY ≠ 0 ∨ omode &&& O_RDWR ≠ 0) }
            (if omode &&& O_TRUNC ≠ 0 ∧ e.type = .file then itrunc ip else pure ⟨⟩)
            pure fd.val

def sysMkdir (p : Pid) (path : Option Path) : K Int := do
  match path with
  | none => pure (-1)
  | some path => do
    match ← create p path .dir 0 0 with
    | none => pure (-1)
    | some ip => do
      iput ip
      pure 0

def sysMknod (p : Pid) (path : Option Path) (major minor : BitVec 16) : K Int := do
  match path with
  | none => pure (-1)
  | some path => do
    match ← create p path .device major minor with
    | none => pure (-1)
    | some ip => do
      iput ip
      pure 0

def sysChdir (p : Pid) (path : Option Path) : K Int := do
  match path with
  | none => pure (-1)
  | some path => do
    match ← namei p path with
    | none => pure (-1)
    | some ip => do
      ilock ip
      let s ← get
      if (s.itable ip).type ≠ .dir then do
        iput ip
        pure (-1)
      else do
        iput (s.proc p).cwd
        modify fun s => s.setProc p { s.proc p with cwd := ip }
        pure 0

/-- What `kfork` does about files. -/
def kfork (p np : Pid) : K PUnit := do
  fds.forM fun fd => do
    let s ← get
    match (s.proc p).ofile fd with
    | none => pure ⟨⟩
    | some f => do
      filedup f
      modify fun s => s.setFd np fd (some f)
  let s ← get
  let _ ← idup (s.proc p).cwd
  modify fun s => s.setProc np { s.proc np with used := true, cwd := (s.proc p).cwd }

def kexit (p : Pid) : K PUnit := do
  if p = initproc then stop .initExiting
  else do
    fds.forM fun fd => do
      let s ← get
      match (s.proc p).ofile fd with
      | none => pure ⟨⟩
      | some f => do
        fileclose f
        modify fun s => s.setFd p fd none
    let s ← get
    iput (s.proc p).cwd
    modify fun s => s.setProc p { s.proc p with used := false }

/-! ## The system -/

structure State where
  fs : FS
  /-- The kernel has stopped. -/
  panic : Option Panic

inductive Call where
  | open (path : Option Path) (omode : BitVec 32)
  | mkdir (path : Option Path)
  | mknod (path : Option Path) (major minor : BitVec 16)
  | link (old new : Option Path)
  | unlink (path : Option Path)
  | chdir (path : Option Path)
  | dup (fd : Int)
  | close (fd : Int)
  /-- `np` is the process slot that `allocproc` has found. -/
  | fork (np : Pid)
  | exit

/-- The value is what the call returns; `fork` and `exit` count as returning 0. -/
def Call.run (p : Pid) : Call → K Int
  | .open path omode => sysOpen p path omode
  | .mkdir path => sysMkdir p path
  | .mknod path major minor => sysMknod p path major minor
  | .link old new => sysLink p old new
  | .unlink path => sysUnlink p path
  | .chdir path => sysChdir p path
  | .dup fd => sysDup p fd
  | .close fd => sysClose p fd
  | .fork np => do
    kfork p np
    pure 0
  | .exit => do
    kexit p
    pure 0

/-- Who calls what, and whether the calls of `balloc` on the way find a free block. -/
structure Label where
  p : Pid
  call : Call
  blocks : List Bool

/-- The call of a process, which is alive; `fork` needs a free slot. -/
def State.enabled (s : State) (l : Label) : Bool :=
  s.panic.isNone && (s.fs.proc l.p).used && match l.call with
    | .fork np => !(s.fs.proc np).used
    | _ => true

def step (s : State) (l : Label) : Option State :=
  if s.enabled l then match l.call.run l.p { s.fs with blocks := l.blocks } with
    | .ok (_, fs) => some ⟨fs, none⟩
    | .error (e, fs) => some ⟨fs, some e⟩
  else none

/-- After `userinit`: `initproc` has the root as its working directory. -/
def boot (ninodes : Nat) (disk : Nat → Dinode) : State where
  fs :=
    { ninodes := ninodes
      disk := disk
      itable := fun ip => ⟨if ip.val = 0 then ROOTINO else 0, if ip.val = 0 then 1 else 0, false,
        .free, 0, 0, 0⟩
      ftable := fun _ => ⟨.none, 0, false, false, ⟨0, by decide⟩, 0, 0⟩
      proc := fun p => ⟨decide (p = initproc), ⟨0, by decide⟩, fun _ => none⟩
      blocks := []
      events := [] }
  panic := none

end Xv6.Fs
