import Xv6.Lib.Durable
import Xv6.Param
import Mathlib.Logic.Function.Basic

set_option autoImplicit false

/-! # The on-disk redo log

Model of the part of `kernel/log.c` that touches the disk: `install_trans`, `read_head`,
`write_head`, `recover_from_log`, `write_log` and `commit`. The durable part is the disk, changed
one block at a time by `bwrite`; the volatile part is the in-memory header `log.lh` and the cached
blocks. `log.start` is a parameter, and there is one device. -/

namespace Xv6.Log

open Xv6.Lib

/-- A block number, a `uint`. -/
abbrev Blockno := Uint

/-- The contents of a block, read as the `BSIZE / 4` words the header is laid out in. -/
abbrev Block := Fin (BSIZE / 4) → Uint

/-- The `i`th word of a block. -/
def Block.word (b : Block) (i : Nat) : Uint := if h : i < BSIZE / 4 then b ⟨i, h⟩ else 0

/-- Store the `i`th word of a block. -/
def Block.setWord (b : Block) (i : Nat) (w : Uint) : Block := fun j => if j.val = i then w else b j

theorem Block.word_setWord (b : Block) (i j : Nat) (w : Uint) :
    (b.setWord i w).word j = if j = i ∧ j < BSIZE / 4 then w else b.word j := by
  unfold Block.word Block.setWord
  split
  · next h => simp [h]
  · next h => simp [h]

abbrev Disk := Blockno → Block

/-- The volatile part: the blocks of `log.lh` (with `log.lh.n` their number) and the valid
    buffers of the cache. -/
structure Mem where
  lh : List Blockno
  cache : Blockno → Option Block

/-- After a reboot: an empty header and an empty cache. -/
def Mem.boot : Mem := ⟨[], fun _ => none⟩

/-- What `bread` finds in a block: its cached contents if it is cached, else the disk's. -/
def Mem.read (m : Mem) (d : Disk) (b : Blockno) : Block := (m.cache b).getD (d b)

abbrev LogM := Durable Mem Disk

/-! ## Buffers -/

/-- `bread`: the contents of a block, which is cached from now on. -/
def bread (b : Blockno) : LogM Block :=
  Durable.access fun m d =>
    (m.read d b, { m with cache := Function.update m.cache b (some (m.read d b)) })

/-- Change the contents of a buffer, in memory. -/
def setData (b : Blockno) (data : Block) : LogM Unit :=
  Durable.access fun m _ => ((), { m with cache := Function.update m.cache b (some data) })

/-- `bwrite`: write the contents of a buffer to its block. -/
def bwrite (b : Blockno) : LogM Unit :=
  Durable.write fun m d => Function.update d b (m.read d b)

/-! ## The log header -/

/-- `lh->n` of a header block, an `int`. -/
def headCount (hb : Block) : Int := (hb.word 0).toInt

/-- `lh->block[i]` of a header block. -/
def headBlock (hb : Block) (i : Nat) : Blockno := hb.word (i + 1)

/-- The header `read_head` finds in a header block. -/
def decodeHead (hb : Block) : List Blockno :=
  (List.range (headCount hb).toNat).map (headBlock hb)

/-- The `for` loop of `write_head`, from `hb->block[i]` on. -/
def setHeadBlocks (hb : Block) (i : Nat) : List Blockno → Block
  | [] => hb
  | b :: bs => setHeadBlocks (hb.setWord (i + 1) b) (i + 1) bs

/-- The header block `write_head` makes of the buffer contents `hb`. -/
def encodeHead (hb : Block) (lh : List Blockno) : Block :=
  setHeadBlocks (hb.setWord 0 (BitVec.ofNat 32 lh.length)) 0 lh

/-- `log.lh`. -/
def getLh : LogM (List Blockno) := Durable.access fun m _ => (m.lh, m)

/-- `log.lh = lh`. -/
def setLh (lh : List Blockno) : LogM Unit := Durable.access fun m _ => ((), { m with lh := lh })

/-- `log.lh.block[tail]`. -/
def lhBlock (tail : Nat) : LogM Blockno := Durable.access fun m _ => (m.lh.getD tail 0, m)

def readHead (start : Blockno) : LogM Unit := do
  let buf ← bread start
  setLh (decodeHead buf)

def writeHead (start : Blockno) : LogM Unit := do
  let buf ← bread start
  let lh ← getLh
  setData start (encodeHead buf lh)
  bwrite start

/-! ## Commit and recovery -/

/-- The block of the log that holds the data of `log.lh.block[tail]`. -/
def logBlock (start : Blockno) (tail : Nat) : Blockno := start + BitVec.ofNat 32 tail + 1

/-- One round of `install_trans`: copy a block from the log to its home location. The pin counts
    `bunpin` changes are no part of this model. -/
def installBlock (start : Blockno) (tail : Nat) : LogM Unit := do
  let lbuf ← bread (logBlock start tail)
  let dst ← lhBlock tail
  let _ ← bread dst
  setData dst lbuf
  bwrite dst

def installTrans (start : Blockno) : LogM Unit := do
  let lh ← getLh
  Durable.upto (installBlock start) lh.length

def recoverFromLog (start : Blockno) : LogM Unit := do
  readHead start
  installTrans start
  setLh []
  writeHead start

/-- One round of `write_log`: copy a modified block from the cache to the log. -/
def logOneBlock (start : Blockno) (tail : Nat) : LogM Unit := do
  let _ ← bread (logBlock start tail)
  let src ← lhBlock tail
  let data ← bread src
  setData (logBlock start tail) data
  bwrite (logBlock start tail)

def writeLog (start : Blockno) : LogM Unit := do
  let lh ← getLh
  Durable.upto (logOneBlock start) lh.length

/-- `commit`, the part after `write_log` and `write_head`. -/
def installAndErase (start : Blockno) : LogM Unit := do
  installTrans start
  setLh []
  writeHead start

def commit (start : Blockno) : LogM Unit := do
  let lh ← getLh
  if 0 < lh.length then do
    writeLog start
    writeHead start
    installAndErase start
  else
    pure ()

end Xv6.Log
