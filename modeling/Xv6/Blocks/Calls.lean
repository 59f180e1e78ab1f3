import Xv6.Blocks.Model

set_option autoImplicit false

/-! # Directories, path names and system calls

The rest of `kernel/fs.c`, and the system calls of `kernel/sysfile.c` between `begin_op` and
`end_op`, on the model of the blocks. -/

namespace Xv6.Blocks

open Xv6.Lib
open Xv6.Fs (NINODE NFILE NDEV ROOTINO DIRSIZ MAXFILE Ip)

/-! ## Strings (`kernel/string.c`) -/

def strncmp (p q : Nat → Byte) : Nat → Int
  | 0 => 0
  | n + 1 =>
    if p 0 ≠ 0 ∧ p 0 = q 0 then strncmp (fun k => p (k + 1)) (fun k => q (k + 1)) n
    else (p 0).toNat - (q 0).toNat

/-- The `n` bytes that `strncpy` writes: the string, and zeros. -/
def strncpy (t : Nat → Byte) : Nat → List Byte
  | 0 => []
  | n + 1 => if t 0 = 0 then List.replicate (n + 1) 0 else t 0 :: strncpy (fun k => t (k + 1)) n

/-! ## Directories -/

/-- Memory that contains a name. -/
abbrev Buf := Nat → Byte

/-- `sizeof(struct dirent)` -/
def DIRENT : Nat := 16

/-- `inum` of a `struct dirent`. -/
def deInum (de : List Byte) : BitVec 16 := half (fun k => de.getD k 0) 0

/-- `name` of a `struct dirent`. -/
def deName (de : List Byte) : Buf := fun k => de.getD (2 + k) 0

/-- The bytes of a `struct dirent`. -/
def dirent (inum : BitVec 16) (name : Buf) : List Byte :=
  (List.range 2).map (byteOf inum) ++ strncpy name DIRSIZ

/-- The values of `off` in a loop over a directory of `size` bytes, from entry `i` on. -/
def offsets (i size : Nat) : List Nat :=
  (List.range' i ((size + (DIRENT - 1)) / DIRENT - i)).map fun j => DIRENT * j

def namecmp (s t : Buf) : Int := strncmp s t DIRSIZ

variable (sb : Superblock)

/-- `readi` of one entry. -/
def readDirent (dp : Ip) (off : Nat) (fail : Panic) : K (List Byte) := do
  let r ← readi sb dp kernelDst (BitVec.ofNat 32 off) (BitVec.ofNat 32 DIRENT)
  if r.1 ≠ DIRENT then stop fail else pure r.2

def dirlookupLoop (dp : Ip) (name : Buf) : List Nat → K (Option (Ip × Nat))
  | [] => pure none
  | off :: offs => do
    let de ← readDirent sb dp off .dirlookupRead
    if deInum de = 0 then dirlookupLoop dp name offs
    else if namecmp name (deName de) = 0 then do
      let ip ← iget (deInum de).toNat
      pure (some (ip, off))
    else dirlookupLoop dp name offs

/-- The inode that a directory entry names, and the byte offset of the entry. -/
def dirlookup (dp : Ip) (name : Buf) : K (Option (Ip × Nat)) := do
  let s ← get
  if (s.itable dp).type ≠ T_DIR then stop .dirlookupNotDir
  else dirlookupLoop sb dp name (offsets 0 (s.itable dp).size.toNat)

/-- The loop of `dirlink` for an empty entry; `none` if there is none. -/
def emptyLoop (dp : Ip) : List Nat → K (Option Nat)
  | [] => pure none
  | off :: offs => do
    let de ← readDirent sb dp off .dirlinkRead
    if deInum de = 0 then pure (some off) else emptyLoop dp offs

/-- Write a new directory entry into a directory; 0 or -1. -/
def dirlink (dp : Ip) (name : Buf) (inum : Nat) : K Int := do
  match ← dirlookup sb dp name with
  | some (ip, _) => do
    iput sb ip
    pure (-1)
  | none => do
    let s ← get
    let size := (s.itable dp).size.toNat
    let found ← emptyLoop sb dp (offsets 0 size)
    let off := found.getD ((size + (DIRENT - 1)) / DIRENT * DIRENT)
    let de := dirent (BitVec.ofNat 16 inum) name
    let r ← writei sb dp (kernelSrc fun k => de.getD k 0) (BitVec.ofNat 32 off) (BitVec.ofNat 32 DIRENT)
    if r ≠ DIRENT then pure (-1) else pure 0

/-- `sys_unlink` zeroes the entry at `off`; what `writei` has returned. -/
def clearDirent (dp : Ip) (off : Nat) : K Int :=
  writei sb dp (kernelSrc fun _ => 0) (BitVec.ofNat 32 off) (BitVec.ofNat 32 DIRENT)

/-! ## Paths -/

/-- The bytes of a string before its NUL. -/
abbrev Path := List Byte

def slash : Byte := 47

/-- `while(*path == '/') path++` -/
def skipSlashes : Path → Path
  | [] => []
  | c :: path => if c = slash then skipSlashes path else c :: path

/-- `while(*path != '/' && *path != 0) path++`: what is skipped, and what is left. -/
def skipName : Path → Path × Path
  | [] => ([], [])
  | c :: path =>
    if c = slash then ([], c :: path) else (c :: (skipName path).1, (skipName path).2)

/-- What `skipelem` puts in `name` for an element `s`. -/
def copyName (name : Buf) (s : List Byte) : Buf :=
  if DIRSIZ ≤ s.length then put name 0 (s.take DIRSIZ)
  else Function.update (put name 0 s) s.length 0

/-- What follows the next path element, and `name` with the element in it. -/
def skipelem (path : Path) (name : Buf) : Option (Path × Buf) :=
  match skipSlashes path with
  | [] => none
  | c :: cs =>
    some (skipSlashes (skipName (c :: cs)).2, copyName name (skipName (c :: cs)).1)

theorem length_skipSlashes_le (path : Path) : (skipSlashes path).length ≤ path.length := by
  induction path with
  | nil => exact Nat.le_refl _
  | cons c path ih =>
      rw [skipSlashes]
      split
      · exact Nat.le_succ_of_le ih
      · exact Nat.le_refl _

theorem length_skipName_le (path : Path) : (skipName path).2.length ≤ path.length := by
  induction path with
  | nil => exact Nat.le_refl _
  | cons c path ih =>
      rw [skipName]
      split
      · exact Nat.le_refl _
      · exact Nat.le_succ_of_le ih

theorem head_skipSlashes {path cs : Path} {c : Byte} (h : skipSlashes path = c :: cs) :
    c ≠ slash := by
  induction path with
  | nil => simp [skipSlashes] at h
  | cons d path ih =>
      rw [skipSlashes] at h
      split at h
      · exact ih h
      · rename_i hd
        rw [List.cons.injEq] at h
        exact h.1 ▸ hd

theorem length_skipelem {path rest : Path} {name name' : Buf}
    (h : skipelem path name = some (rest, name')) : rest.length < path.length := by
  have hle := length_skipSlashes_le path
  unfold skipelem at h
  cases hs : skipSlashes path with
  | nil => simp [hs] at h
  | cons c cs =>
      rw [hs] at h hle
      have hrest : skipSlashes (skipName (c :: cs)).2 = rest := by
        simpa using congrArg (fun r => r.map Prod.fst) h
      rw [skipName, if_neg (head_skipSlashes hs)] at hrest
      have h1 := length_skipSlashes_le (skipName cs).2
      have h2 := length_skipName_le cs
      rw [hrest] at h1
      rw [List.length_cons] at hle
      omega

/-- The loop of `namex`, which is at `ip`. -/
def namexLoop (nameiparent : Bool) (path : Path) (ip : Ip) (name : Buf) : K (Option Ip × Buf) :=
  match h : skipelem path name with
  | none =>
    if nameiparent then do
      iput sb ip
      pure (none, name)
    else pure (some ip, name)
  | some (path', name) => do
    ilock sb ip
    let s ← get
    if (s.itable ip).type ≠ T_DIR then do
      iunlockput sb ip
      pure (none, name)
    else if nameiparent = true ∧ path' = [] then do
      iunlock ip
      pure (some ip, name)
    else match ← dirlookup sb ip name with
      | none => do
        iunlockput sb ip
        pure (none, name)
      | some (next, _) => do
        iunlockput sb ip
        have := length_skipelem h
        namexLoop nameiparent path' next name
  termination_by path.length

/-- The inode for a path name, and what is in `name` then. -/
def namex (path : Path) (nameiparent : Bool) (name : Buf) : K (Option Ip × Buf) := do
  let s ← get
  let ip ← (if path.head? = some slash then iget ROOTINO else idup s.cwd)
  namexLoop sb nameiparent path ip name

/-- The array `name` of `namei` is not initialized. -/
def namei (path : Path) (name : Buf) : K (Option Ip) := do
  let r ← namex sb path false name
  pure r.1

def nameiparent (path : Path) (name : Buf) : K (Option Ip × Buf) := namex sb path true name

/-! ## The file table -/

@[irreducible] def files : List (Fin NFILE) := List.finRange NFILE

@[irreducible] def fds : List (Fin NOFILE) := List.finRange NOFILE

def filealloc : K (Option (Fin NFILE)) := do
  let s ← get
  match files.find? fun f => decide ((s.ftable f).ref = 0) with
  | none => pure none
  | some f => do
    set (s.setFile f { s.ftable f with ref := 1 })
    pure (some f)

def fileclose (f : Fin NFILE) : K PUnit := do
  let s ← get
  let ff := s.ftable f
  if ff.ref < 1 then stop .fileclose
  else if 1 < ff.ref then set (s.setFile f { ff with ref := ff.ref - 1 })
  else do
    set (s.setFile f { ff with
      ref := 0
      type := .none })
    if ff.type = .none then pure ⟨⟩ else iput sb ff.ip

def fdalloc (f : Fin NFILE) : K (Option (Fin NOFILE)) := do
  let s ← get
  match fds.find? fun fd => decide (s.ofile fd = none) with
  | none => pure none
  | some fd => do
    set { s with ofile := Function.update s.ofile fd (some f) }
    pure (some fd)

/-! ## System calls

`path` is what `argstr` has fetched, `none` if it has failed. -/

/-- Changes fields of `*ip` and writes them back. -/
def change (ip : Ip) (f : Inode → Inode) : K PUnit := do
  modify fun s => s.setInode ip (f (s.itable ip))
  iupdate sb ip

/-- The end of `sys_link` where the new name could not be entered. -/
def unlinkOld (ip : Ip) : K Int := do
  ilock sb ip
  change sb ip fun e => { e with nlink := e.nlink - 1 }
  iunlockput sb ip
  pure (-1)

def sysLink (old new : Path) (name : Buf) : K Int := do
  match ← namei sb old name with
  | none => pure (-1)
  | some ip => do
    ilock sb ip
    let s ← get
    if (s.itable ip).type = T_DIR then do
      iunlockput sb ip
      pure (-1)
    else do
      change sb ip fun e => { e with nlink := e.nlink + 1 }
      iunlock ip
      match ← nameiparent sb new name with
      | (none, _) => unlinkOld sb ip
      | (some dp, name) => do
        ilock sb dp
        let s ← get
        let r ← dirlink sb dp name (s.itable ip).inum
        if r < 0 then do
          iunlockput sb dp
          unlinkOld sb ip
        else do
          iunlockput sb dp
          iput sb ip
          pure 0

/-- The loop of `isdirempty`. -/
def emptyFrom (dp : Ip) : List Nat → K Bool
  | [] => pure true
  | off :: offs => do
    let de ← readDirent sb dp off .isdirempty
    if deInum de ≠ 0 then pure false else emptyFrom dp offs

/-- Is the directory empty except for `.` and `..`? -/
def isdirempty (dp : Ip) : K Bool := do
  let s ← get
  emptyFrom sb dp (offsets 2 (s.itable dp).size.toNat)

/-- `"."` and `".."` -/
def dot : Buf := fun k => [46].getD k 0
def dotdot : Buf := fun k => [46, 46].getD k 0

/-- `sys_unlink` once the entry is found and its inode locked. -/
def removeEntry (dp ip : Ip) (off : Nat) : K Int := do
  let s ← get
  let isdir := decide ((s.itable ip).type = T_DIR)
  let r ← clearDirent sb dp off
  if r ≠ DIRENT then stop .unlinkWritei
  else do
    (if isdir then change sb dp fun e => { e with nlink := e.nlink - 1 } else pure ⟨⟩)
    iunlockput sb dp
    change sb ip fun e => { e with nlink := e.nlink - 1 }
    iunlockput sb ip
    pure 0

/-- `bad:` in `sys_unlink`. -/
def unlinkBad (dp : Ip) : K Int := do
  iunlockput sb dp
  pure (-1)

def sysUnlink (path : Path) (name : Buf) : K Int := do
  match ← nameiparent sb path name with
  | (none, _) => pure (-1)
  | (some dp, name) => do
    ilock sb dp
    if namecmp name dot = 0 ∨ namecmp name dotdot = 0 then unlinkBad sb dp
    else match ← dirlookup sb dp name with
      | none => unlinkBad sb dp
      | some (ip, off) => do
        ilock sb ip
        let s ← get
        if (s.itable ip).nlink.toInt < 1 then stop .unlinkNlink
        else do
          let full ← (if (s.itable ip).type = T_DIR then do
              let e ← isdirempty sb ip
              pure !e
            else pure false)
          if full then do
            iunlockput sb ip
            unlinkBad sb dp
          else removeEntry sb dp ip off

/-- `create` fills in a new inode: `.` and `..`, and its entry in `dp`. -/
def linkNew (type : BitVec 16) (ip dp : Ip) (name : Buf) : K Bool := do
  let s ← get
  let dots ← (if type = T_DIR then do
      let r ← dirlink sb ip dot (s.itable ip).inum
      if r < 0 then pure false
      else do
        let r ← dirlink sb ip dotdot (s.itable dp).inum
        pure (decide (0 ≤ r))
    else pure true)
  if dots then do
    let r ← dirlink sb dp name (s.itable ip).inum
    pure (decide (0 ≤ r))
  else pure false

def create (path : Path) (type major minor : BitVec 16) (name : Buf) : K (Option Ip) := do
  match ← nameiparent sb path name with
  | (none, _) => pure none
  | (some dp, name) => do
    ilock sb dp
    match ← dirlookup sb dp name with
    | some (ip, _) => do
      iunlockput sb dp
      ilock sb ip
      let s ← get
      if type = T_FILE ∧ ((s.itable ip).type = T_FILE ∨ (s.itable ip).type = T_DEVICE) then
        pure (some ip)
      else do
        iunlockput sb ip
        pure none
    | none => do
      match ← ialloc sb type with
      | none => do
        iunlockput sb dp
        pure none
      | some ip => do
        ilock sb ip
        change sb ip fun e => { e with
          major := major
          minor := minor
          nlink := 1 }
        if ← linkNew sb type ip dp name then do
          (if type = T_DIR then change sb dp fun e => { e with nlink := e.nlink + 1 } else pure ⟨⟩)
          iunlockput sb dp
          pure (some ip)
        else do
          -- fail: something went wrong, de-allocate `ip`
          change sb ip fun e => { e with nlink := 0 }
          iunlockput sb ip
          iunlockput sb dp
          pure none

/-- The inode that `sys_open` opens, locked. -/
def openInode (path : Path) (omode : Uint) (name : Buf) : K (Option Ip) := do
  if omode &&& Fs.O_CREATE ≠ 0 then create sb path T_FILE 0 0 name
  else match ← namei sb path name with
    | none => pure none
    | some ip => do
      ilock sb ip
      let s ← get
      if (s.itable ip).type = T_DIR ∧ omode ≠ 0 then do
        iunlockput sb ip
        pure none
      else pure (some ip)

/-- `sys_open` once it has the inode, a file and a descriptor. -/
def openFile (ip : Ip) (f : Fin NFILE) (fd : Fin NOFILE) (omode : Uint) : K Int := do
  let s ← get
  let e := s.itable ip
  modify fun s => s.setFile f { s.ftable f with
    type := if e.type = T_DEVICE then .device else .inode
    major := if e.type = T_DEVICE then e.major else (s.ftable f).major
    off := if e.type = T_DEVICE then (s.ftable f).off else 0
    ip := ip
    readable := decide (omode &&& Fs.O_WRONLY = 0)
    writable := decide (omode &&& Fs.O_WRONLY ≠ 0 ∨ omode &&& Fs.O_RDWR ≠ 0) }
  (if omode &&& Fs.O_TRUNC ≠ 0 ∧ e.type = T_FILE then itrunc sb ip else pure ⟨⟩)
  iunlock ip
  pure fd.val

def sysOpen (path : Path) (omode : Uint) (name : Buf) : K Int := do
  match ← openInode sb path omode name with
  | none => pure (-1)
  | some ip => do
    let s ← get
    let e := s.itable ip
    if e.type = T_DEVICE ∧ (e.major.toInt < 0 ∨ NDEV ≤ e.major.toInt) then do
      iunlockput sb ip
      pure (-1)
    else match ← filealloc with
      | none => do
        iunlockput sb ip
        pure (-1)
      | some f => do
        match ← fdalloc f with
        | none => do
          fileclose sb f
          iunlockput sb ip
          pure (-1)
        | some fd => openFile sb ip f fd omode

/-- `sys_mkdir` and `sys_mknod`, which make an inode and do not keep it. -/
def makeInode (path : Option Path) (type major minor : BitVec 16) (name : Buf) : K Int := do
  match path with
  | none => pure (-1)
  | some path => do
    match ← create sb path type major minor name with
    | none => pure (-1)
    | some ip => do
      iunlockput sb ip
      pure 0

def sysMkdir (path : Option Path) (name : Buf) : K Int := makeInode sb path T_DIR 0 0 name

def sysMknod (path : Option Path) (major minor : BitVec 16) (name : Buf) : K Int :=
  makeInode sb path T_DEVICE major minor name

def sysChdir (path : Option Path) (name : Buf) : K Int := do
  match path with
  | none => pure (-1)
  | some path => do
    match ← namei sb path name with
    | none => pure (-1)
    | some ip => do
      ilock sb ip
      let s ← get
      if (s.itable ip).type ≠ T_DIR then do
        iunlockput sb ip
        pure (-1)
      else do
        iunlock ip
        iput sb s.cwd
        modify fun s => { s with cwd := ip }
        pure 0

/-- What `kexec` does with the executable file: find it, read what the program headers say, and
    put it back. -/
def readFile (path : Path) (reads : List (Uint × Uint)) (name : Buf) : K PUnit := do
  match ← namei sb path name with
  | none => pure ⟨⟩
  | some ip => do
    ilock sb ip
    reads.forM fun r => do
      let _ ← readi sb ip kernelDst r.1 r.2
    iunlockput sb ip

end Xv6.Blocks
