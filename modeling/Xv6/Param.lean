import Mathlib.Data.BitVec

set_option autoImplicit false

/-! # Kernel parameters

The constants of `kernel/param.h`, `kernel/fs.h`, `kernel/riscv.h` and `kernel/memlayout.h` used by
the models, and the machine integers. -/

namespace Xv6

/-- `uint` (and the bits of an `int` used as one). -/
abbrev Uint := BitVec 32

instance : LawfulBEq Uint := inferInstance

/-- `uint64`. -/
abbrev Uint64 := BitVec 64

/-- `uchar`, and the bits of a `char`. -/
abbrev Byte := BitVec 8

instance : LawfulBEq Byte := inferInstance

/-- Maximum number of processes. -/
def NPROC : Nat := 64
/-- Open files per process. -/
def NOFILE : Nat := 16
/-- Max # of blocks any FS op writes. -/
def MAXOPBLOCKS : Nat := 10
/-- Max data blocks in on-disk log. -/
def LOGBLOCKS : Nat := MAXOPBLOCKS * 3
/-- Size of disk block cache. -/
def NBUF : Nat := MAXOPBLOCKS * 3
theorem NBUF_pos : 0 < NBUF := by decide
/-- Block size, in bytes. -/
def BSIZE : Nat := 1024

end Xv6
