import Xv6.Fs.Model
import Xv6.Lib.Bytes

set_option autoImplicit false

/-! # Blocks, inodes and their content

`kernel/fs.c` up to `writei`, and the parts of `kernel/file.c` above it, on the bytes of the disk
blocks. A block is what `bread` returns; `log_write` is its block number in a list, and panics at the end
of its transaction. Nothing else runs meanwhile, and there is one device. -/

namespace Xv6.Blocks

open Xv6.Lib
open Xv6.Fs (NINODE NFILE NDEV ROOTINO DIRSIZ MAXFILE Ip FdType)

def NDIRECT : Nat := 12
def NINDIRECT : Nat := BSIZE / 4
/-- `sizeof(struct dinode)` -/
def DINODE : Nat := 64
/-- Inodes per block. -/
def IPB : Nat := BSIZE / DINODE
/-- Bitmap bits per block. -/
def BPB : Nat := BSIZE * 8

def T_DIR : BitVec 16 := 1
def T_FILE : BitVec 16 := 2
def T_DEVICE : BitVec 16 := 3

inductive Panic where
  /-- `freeing free block` -/
  | bfree
  /-- `iget: no inodes` -/
  | iget
  /-- `ilock` -/
  | ilock
  /-- `ilock: no type` -/
  | ilockNoType
  /-- `iunlock` -/
  | iunlock
  /-- `bmap: out of range` -/
  | bmap
  /-- `dirlookup not DIR` -/
  | dirlookupNotDir
  /-- `dirlookup read` -/
  | dirlookupRead
  /-- `dirlink read` -/
  | dirlinkRead
  /-- `isdirempty: readi` -/
  | isdirempty
  /-- `unlink: nlink < 1` -/
  | unlinkNlink
  /-- `unlink: writei` -/
  | unlinkWritei
  /-- `fileclose` -/
  | fileclose
  /-- `fileread` -/
  | fileread
  /-- `filewrite` -/
  | filewrite
  /-- `too big a transaction` -/
  | tooBig
  /-- No panic: the process sleeps on a lock that nobody will release. -/
  | acquiresleep
  deriving DecidableEq

/-- What the code uses of `struct superblock`. -/
structure Superblock where
  size : Uint
  ninodes : Uint
  inodestart : Uint
  bmapstart : Uint

/-- The block that contains inode `i`. -/
def Superblock.IBLOCK (sb : Superblock) (i : Nat) : Nat := i / IPB + sb.inodestart.toNat

/-- The block of the free map that contains the bit of block `b`. -/
def Superblock.BBLOCK (sb : Superblock) (b : Nat) : Nat := b / BPB + sb.bmapstart.toNat

/-- Block numbers: the direct ones and the indirect block. -/
abbrev Addrs := Fin (NDIRECT + 1) → Uint

structure Dinode where
  type : BitVec 16
  major : BitVec 16
  minor : BitVec 16
  nlink : BitVec 16
  size : Uint
  addrs : Addrs

/-- The inode at offset `o` of a block. -/
def loadDinode (f : Nat → Byte) (o : Nat) : Dinode where
  type := half f o
  major := half f (o + 2)
  minor := half f (o + 4)
  nlink := half f (o + 6)
  size := word f (o + 8)
  addrs := fun k => word f (o + 12 + 4 * k.val)

/-- Byte `k` of a `struct dinode`. -/
def Dinode.byte (d : Dinode) (k : Nat) : Byte :=
  if k < 2 then byteOf d.type k
  else if k < 4 then byteOf d.major (k - 2)
  else if k < 6 then byteOf d.minor (k - 4)
  else if k < 8 then byteOf d.nlink (k - 6)
  else if k < 12 then byteOf d.size (k - 8)
  else if h : (k - 12) / 4 < NDIRECT + 1 then byteOf (d.addrs ⟨(k - 12) / 4, h⟩) ((k - 12) % 4)
  else 0

def storeDinode (f : Nat → Byte) (o : Nat) (d : Dinode) : Nat → Byte :=
  fun k => if o ≤ k ∧ k < o + DINODE then d.byte (k - o) else f k

/-- `struct inode`: an entry of the inode table, with its copy of the inode on disk. -/
structure Inode extends Dinode where
  inum : Nat
  ref : Nat
  locked : Bool
  valid : Bool

structure File where
  type : FdType
  ref : Nat
  readable : Bool
  writable : Bool
  ip : Ip
  off : Uint
  major : BitVec 16

structure State where
  /-- The bytes of the blocks, `BSIZE` of each. -/
  blocks : Nat → Nat → Byte
  /-- The block numbers passed to `log_write`, the last one first. -/
  logged : List Nat
  itable : Ip → Inode
  ftable : Fin NFILE → File
  /-- Of the process that runs. -/
  ofile : Fin NOFILE → Option (Fin NFILE)
  /-- Of the process that runs. -/
  cwd : Ip

/-- A panic keeps the state it was reached in. -/
abbrev K := Code (Panic × State) State

def stop {α : Type} (e : Panic) : K α := do
  let s ← get
  throw (e, s)

def State.setBlock (s : State) (b : Nat) (f : Nat → Byte) : State :=
  { s with blocks := Function.update s.blocks b f }

def State.setInode (s : State) (ip : Ip) (e : Inode) : State :=
  { s with itable := Function.update s.itable ip e }

def State.setFile (s : State) (f : Fin NFILE) (e : File) : State :=
  { s with ftable := Function.update s.ftable f e }

/-- `ip->addrs[k] = addr` -/
def State.setAddr (s : State) (ip : Ip) (k : Fin (NDIRECT + 1)) (addr : Uint) : State :=
  s.setInode ip { s.itable ip with addrs := Function.update (s.itable ip).addrs k addr }

def logWrite (b : Nat) : K PUnit := modify fun s => { s with logged := b :: s.logged }

/-- The state that code ends in, be it in a panic. -/
def lastState {α : Type} : Except (Panic × State) (α × State) → State
  | .ok (_, t) => t
  | .error (_, t) => t

/-- The last `log_write`, and so each of them, has found fewer than `LOGBLOCKS` blocks in the log. -/
def Fits (logged : List Nat) : Prop := logged.tail.toFinset.card < LOGBLOCKS

instance (logged : List Nat) : Decidable (Fits logged) := inferInstanceAs (Decidable (_ < _))

/-- The log is empty: nothing else runs, and the last `end_op` has committed. -/
def State.beginOp (s : State) : State := { s with logged := [] }

/-- `x` between `begin_op` and `end_op`. If a `log_write` of `x` panics nothing else is done, so it does not
    matter that it is found at the end. -/
def transaction {α : Type} (x : K α) : K α := fun s =>
  let r := x s.beginOp
  if Fits (lastState r).logged then r else .error (.tooBig, lastState r)

variable (sb : Superblock)

/-! ## Blocks -/

/-- Zero a block. -/
def bzero (b : Nat) : K PUnit := do
  modify fun s => s.setBlock b fun _ => 0
  logWrite b

/-- The bit of block `b` in the free map. -/
def State.bit (s : State) (b : Nat) : Bool :=
  (s.blocks (sb.BBLOCK b) (b % BPB / 8)).getLsbD (b % 8)

/-- `bp->data[bi/8] |= m` and `bp->data[bi/8] &= ~m` -/
def State.setBit (s : State) (b : Nat) (v : Bool) : State :=
  let f := s.blocks (sb.BBLOCK b)
  let m := 1#8 <<< (b % 8)
  s.setBlock (sb.BBLOCK b) (Function.update f (b % BPB / 8)
    (if v then f (b % BPB / 8) ||| m else f (b % BPB / 8) &&& ~~~ m))

/-- Allocate a zeroed disk block; 0 if out of disk space. The two loops visit the blocks in order. -/
def balloc : K Uint := do
  let s ← get
  match (List.range sb.size.toNat).find? fun b => !s.bit sb b with
  | none => pure 0
  | some b => do
    set (s.setBit sb b true)
    logWrite (sb.BBLOCK b)
    bzero b
    pure (BitVec.ofNat 32 b)

/-- Free a disk block. -/
def bfree (b : Uint) : K PUnit := do
  let s ← get
  if s.bit sb b.toNat = false then stop .bfree
  else do
    set (s.setBit sb b.toNat false)
    logWrite (sb.BBLOCK b.toNat)

/-! ## Inodes -/

/-- Inode `i` on disk. -/
def State.dinode (s : State) (i : Nat) : Dinode :=
  loadDinode (s.blocks (sb.IBLOCK i)) (i % IPB * DINODE)

def State.setDinode (s : State) (i : Nat) (d : Dinode) : State :=
  s.setBlock (sb.IBLOCK i) (storeDinode (s.blocks (sb.IBLOCK i)) (i % IPB * DINODE) d)

/-- The entries of the inode table, in order. -/
@[irreducible] def slots : List Ip := List.finRange NINODE

def iget (inum : Nat) : K Ip := do
  let s ← get
  match slots.find? fun ip => decide (0 < (s.itable ip).ref ∧ (s.itable ip).inum = inum) with
  | some ip => do
    set (s.setInode ip { s.itable ip with ref := (s.itable ip).ref + 1 })
    pure ip
  | none => match slots.find? fun ip => decide ((s.itable ip).ref = 0) with
    | none => stop .iget
    | some ip => do
      set (s.setInode ip { s.itable ip with
        inum := inum
        ref := 1
        valid := false })
      pure ip

/-- Mark a free inode as allocated, of the given type. -/
def ialloc (type : BitVec 16) : K (Option Ip) := do
  let s ← get
  match (List.range' 1 (sb.ninodes.toNat - 1)).find? fun i => decide ((s.dinode sb i).type = 0) with
  | none => pure none
  | some i => do
    set (s.setDinode sb i ⟨type, 0, 0, 0, 0, fun _ => 0⟩)
    logWrite (sb.IBLOCK i)
    let ip ← iget i
    pure (some ip)

/-- Copy a modified in-memory inode to disk. -/
def iupdate (ip : Ip) : K PUnit := do
  modify fun s => s.setDinode sb (s.itable ip).inum (s.itable ip).toDinode
  let s ← get
  logWrite (sb.IBLOCK (s.itable ip).inum)

def idup (ip : Ip) : K Ip := do
  modify fun s => s.setInode ip { s.itable ip with ref := (s.itable ip).ref + 1 }
  pure ip

def acquiresleep (ip : Ip) : K PUnit := do
  let s ← get
  if (s.itable ip).locked then stop .acquiresleep
  else set (s.setInode ip { s.itable ip with locked := true })

def releasesleep (ip : Ip) : K PUnit :=
  modify fun s => s.setInode ip { s.itable ip with locked := false }

/-- Lock the given inode; reads the inode from disk if necessary. -/
def ilock (ip : Ip) : K PUnit := do
  let s ← get
  if (s.itable ip).ref < 1 then stop .ilock
  else do
    acquiresleep ip
    let s ← get
    if (s.itable ip).valid then pure ⟨⟩
    else do
      let d := s.dinode sb (s.itable ip).inum
      set (s.setInode ip { s.itable ip with
        toDinode := d
        valid := true })
      if d.type = 0 then stop .ilockNoType else pure ⟨⟩

def iunlock (ip : Ip) : K PUnit := do
  let s ← get
  if (s.itable ip).locked = false ∨ (s.itable ip).ref < 1 then stop .iunlock
  else releasesleep ip

/-! ## Inode content -/

/-- `ip->addrs[k]`, allocated if it is 0; 0 if out of disk space. -/
def allocAddr (ip : Ip) (k : Fin (NDIRECT + 1)) : K Uint := do
  let s ← get
  if (s.itable ip).addrs k ≠ 0 then pure ((s.itable ip).addrs k)
  else do
    let addr ← balloc sb
    (if addr = 0 then pure ⟨⟩ else modify fun s => s.setAddr ip k addr)
    pure addr

/-- Entry `j` of the indirect block `b`. -/
def State.entry (s : State) (b : Uint) (j : Nat) : Uint := word (s.blocks b.toNat) (4 * j)

/-- `a[j] = addr` for the indirect block `b`. -/
def State.setEntry (s : State) (b : Uint) (j : Nat) (addr : Uint) : State :=
  s.setBlock b.toNat (put (s.blocks b.toNat) (4 * j) ((List.range 4).map (byteOf addr)))

/-- Entry `j` of the indirect block `b`, allocated if it is 0; 0 if out of disk space. -/
def allocEntry (b : Uint) (j : Nat) : K Uint := do
  let s ← get
  if s.entry b j ≠ 0 then pure (s.entry b j)
  else do
    let addr ← balloc sb
    (if addr = 0 then pure ⟨⟩
    else do
      modify fun s => s.setEntry b j addr
      logWrite b.toNat)
    pure addr

/-- The disk block address of the `bn`th block in an inode; if there is no such block, it is
    allocated; 0 if out of disk space. -/
def bmap (ip : Ip) (bn : Nat) : K Uint :=
  if h : bn < NDIRECT then allocAddr sb ip ⟨bn, Nat.lt_succ_of_lt h⟩
  else if bn - NDIRECT < NINDIRECT then do
    let b ← allocAddr sb ip (Fin.last NDIRECT)
    if b = 0 then pure 0 else allocEntry sb b (bn - NDIRECT)
  else stop .bmap

/-- The loop of `itrunc` over the direct blocks. -/
def freeDirect (ip : Ip) (k : Fin NDIRECT) : K PUnit := do
  let s ← get
  if (s.itable ip).addrs k.castSucc = 0 then pure ⟨⟩
  else do
    bfree sb ((s.itable ip).addrs k.castSucc)
    modify fun s => s.setAddr ip k.castSucc 0

/-- The loop of `itrunc` over the entries of the indirect block. -/
def freeEntry (b : Uint) (j : Nat) : K PUnit := do
  let s ← get
  if s.entry b j = 0 then pure ⟨⟩ else bfree sb (s.entry b j)

def freeIndirect (ip : Ip) : K PUnit := do
  let s ← get
  let b := (s.itable ip).addrs (Fin.last NDIRECT)
  if b = 0 then pure ⟨⟩
  else do
    (List.range NINDIRECT).forM (freeEntry sb b)
    bfree sb b
    modify fun s => s.setAddr ip (Fin.last NDIRECT) 0

/-- Truncate inode (discard contents). -/
def itrunc (ip : Ip) : K PUnit := do
  (List.finRange NDIRECT).forM (freeDirect sb ip)
  freeIndirect sb ip
  modify fun s => s.setInode ip { s.itable ip with size := 0 }
  iupdate sb ip

/-- Drop a reference to an in-memory inode; if that was the last one and the inode has no links,
    free the inode on disk. -/
def iput (ip : Ip) : K PUnit := do
  let s ← get
  let e := s.itable ip
  (if e.ref = 1 ∧ e.valid = true ∧ e.nlink = 0 then do
    acquiresleep ip
    itrunc sb ip
    modify fun s => s.setInode ip { s.itable ip with type := 0 }
    iupdate sb ip
    modify fun s => s.setInode ip { s.itable ip with valid := false }
    releasesleep ip
  else pure ⟨⟩)
  modify fun s => s.setInode ip { s.itable ip with ref := (s.itable ip).ref - 1 }

def iunlockput (ip : Ip) : K PUnit := do
  iunlock ip
  iput sb ip

/-- A round of the loop of `ireclaim`: an inode that is orphaned is freed by the last `iput`. -/
def reclaimInode (inum : Nat) : K PUnit := do
  let s ← get
  let dip := s.dinode sb inum
  if dip.type ≠ 0 ∧ dip.nlink = 0 then do
    let ip ← iget inum
    transaction do
      ilock sb ip
      iunlock ip
      iput sb ip
  else pure ⟨⟩

def ireclaim : K PUnit := (List.range' 1 (sb.ninodes.toNat - 1)).forM (reclaimInode sb)

/-- Which bytes of the destination can be written. -/
abbrev Dest := Nat → Bool

/-- The bytes of the source, as far as they can be read. -/
abbrev Source := Nat → Option Byte

/-- Memory of the kernel. -/
def kernelDst : Dest := fun _ => true

def kernelSrc (f : Nat → Byte) : Source := fun k => some (f k)

/-- What `either_copyout` has put at the destination: all of it, unless it returned -1. -/
def eitherCopyout : Dest → List Byte → List Byte
  | _, [] => []
  | dst, c :: bytes => if dst 0 then c :: eitherCopyout (fun k => dst (k + 1)) bytes else []

/-- What `either_copyin` of `len` bytes has fetched: all of it, unless it returned -1. -/
def eitherCopyin (src : Source) : Nat → List Byte
  | 0 => []
  | len + 1 => match src 0 with
    | none => []
    | some c => c :: eitherCopyin (fun k => src (k + 1)) len

theorem chunk_pos {n : Nat} (off : Nat) (h : n ≠ 0) : 0 < min n (BSIZE - off % BSIZE) := by
  have hmod : off % BSIZE < BSIZE := Nat.mod_lt _ (by decide)
  omega

/-- The loop of `readi`: what is added to `tot`, or -1, and the bytes at the destination. -/
def readiLoop (ip : Ip) (dst : Dest) (off n : Nat) : K (Int × List Byte) :=
  if h : n = 0 then pure (0, [])
  else do
    let addr ← bmap sb ip (off / BSIZE)
    if addr = 0 then pure (0, [])
    else do
      let s ← get
      let m := min n (BSIZE - off % BSIZE)
      let bytes := eitherCopyout dst ((List.range m).map fun k => s.blocks addr.toNat (off % BSIZE + k))
      if bytes.length < m then pure (-1, bytes)
      else do
        have := chunk_pos off h
        let r ← readiLoop ip (fun k => dst (m + k)) (off + m) (n - m)
        pure (if r.1 = -1 then -1 else m + r.1, bytes ++ r.2)
  termination_by n

/-- Read data from an inode. -/
def readi (ip : Ip) (dst : Dest) (off n : Uint) : K (Int × List Byte) := do
  let s ← get
  let size := (s.itable ip).size
  if size < off ∨ off + n < off then pure (0, [])
  else readiLoop sb ip dst off.toNat (if size < off + n then size - off else n).toNat

/-- The loop of `writei`: what is added to `tot`. -/
def writeiLoop (ip : Ip) (src : Source) (off n : Nat) : K Nat :=
  if h : n = 0 then pure 0
  else do
    let addr ← bmap sb ip (off / BSIZE)
    if addr = 0 then pure 0
    else do
      let m := min n (BSIZE - off % BSIZE)
      let bytes := eitherCopyin src m
      modify fun s => s.setBlock addr.toNat (put (s.blocks addr.toNat) (off % BSIZE) bytes)
      if bytes.length < m then pure 0
      else do
        have := chunk_pos off h
        logWrite addr.toNat
        let r ← writeiLoop ip (fun k => src (m + k)) (off + m) (n - m)
        pure (m + r)
  termination_by n

/-- Write data to an inode. -/
def writei (ip : Ip) (src : Source) (off n : Uint) : K Int := do
  let s ← get
  if (s.itable ip).size < off ∨ off + n < off then pure (-1)
  else if MAXFILE * BSIZE < (off + n).toNat then pure (-1)
  else do
    let tot ← writeiLoop sb ip src off.toNat n.toNat
    let s ← get
    let off := off + BitVec.ofNat 32 tot
    (if (s.itable ip).size < off then set (s.setInode ip { s.itable ip with size := off })
    else pure ⟨⟩)
    -- even if the size did not change: `bmap` may have added a block to `addrs`
    iupdate sb ip
    pure tot

/-! ## Files

Of the files those that are an inode; pipes and devices are elsewhere. -/

def fileread (f : Fin NFILE) (dst : Dest) (n : Uint) : K (Int × List Byte) := do
  let s ← get
  let fp := s.ftable f
  if fp.readable = false then pure (-1, [])
  else if fp.type ≠ .inode then stop .fileread
  else do
    ilock sb fp.ip
    let r ← readi sb fp.ip dst fp.off n
    (if 0 < r.1 then modify fun s => s.setFile f { s.ftable f with off := fp.off + BitVec.ofInt 32 r.1 }
    else pure ⟨⟩)
    iunlock fp.ip
    pure r

/-- `((MAXOPBLOCKS-1-1-2) / 2) * BSIZE` -/
def maxWrite : Nat := (MAXOPBLOCKS - 1 - 1 - 2) / 2 * BSIZE

theorem maxWrite_pos : 0 < maxWrite := by decide

/-- One transaction of `filewrite`. -/
def writeSome (f : Fin NFILE) (src : Source) (n1 : Nat) : K Int := do
  let s ← get
  let fp := s.ftable f
  ilock sb fp.ip
  let r ← writei sb fp.ip src fp.off (BitVec.ofNat 32 n1)
  (if 0 < r then modify fun s => s.setFile f { s.ftable f with off := fp.off + BitVec.ofInt 32 r }
  else pure ⟨⟩)
  iunlock fp.ip
  pure r

/-- The loop of `filewrite`, for the `n` bytes that are left: whether all are written. -/
def filewriteLoop (f : Fin NFILE) (src : Source) (n : Nat) : K Bool :=
  if h : n = 0 then pure true
  else do
    let n1 := min n maxWrite
    let r ← transaction (writeSome sb f src n1)
    if r ≠ n1 then pure false
    else do
      have : 0 < n1 := Nat.lt_min.2 ⟨Nat.pos_of_ne_zero h, maxWrite_pos⟩
      filewriteLoop f (fun k => src (n1 + k)) (n - n1)
  termination_by n

def filewrite (f : Fin NFILE) (src : Source) (n : Int) : K Int := do
  let s ← get
  if (s.ftable f).writable = false then pure (-1)
  else if (s.ftable f).type ≠ .inode then stop .filewrite
  else do
    let all ← filewriteLoop sb f src n.toNat
    pure (if all = true ∧ 0 ≤ n then n else -1)

end Xv6.Blocks
