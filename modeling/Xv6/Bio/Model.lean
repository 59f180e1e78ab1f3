import Mathlib.Data.Fintype.Basic
import Xv6.Lib.Run
import Xv6.Param

set_option autoImplicit false

/-! # The buffer cache under the log

`kernel/bio.c` with the parts of `kernel/log.c` that use it. A step is a critical section of
`bcache.lock` or `log.lock`, the taking or giving up of a buffer's sleep lock, one transfer of the disk,
or one change to the data of a buffer. All blocks are on `ROOTDEV`, the only disk there is; a buffer that
has not been used yet has `dev` 0 and holds no block. A process that has to sleep stays where it is. -/

namespace Xv6.Bio

/-! ## Buffers -/

structure Buf (Pid α : Type) where
  blockno : Option Uint
  valid : Bool
  refcnt : Nat
  lock : Option Pid
  data : α

/-- `bcache`, with the list through `head` from the most recently used buffer to the least. -/
structure Cache (Pid α : Type) where
  buf : Fin NBUF → Buf Pid α
  mru : List (Fin NBUF)

section Cache

variable {Pid α : Type}

def Cache.set (c : Cache Pid α) (i : Fin NBUF) (b : Buf Pid α) : Cache Pid α :=
  { c with buf := Function.update c.buf i b }

/-- The list that `binit` makes: each buffer is put in front of the one before. -/
def binit (x : α) : Cache Pid α where
  buf := fun _ => ⟨none, false, 0, none, x⟩
  mru := (List.finRange NBUF).reverse

/-- The critical section of `bget`; `none` when it panics. -/
def bget (c : Cache Pid α) (b : Uint) : Option (Cache Pid α × Fin NBUF) :=
  match c.mru.find? fun i => (c.buf i).blockno = some b with
  | some i => some (c.set i { c.buf i with refcnt := (c.buf i).refcnt + 1 }, i)
  | none =>
    match c.mru.reverse.find? fun i => (c.buf i).refcnt = 0 with
    | some i => some (c.set i { c.buf i with blockno := some b, valid := false, refcnt := 1 }, i)
    | none => none

def bpin (c : Cache Pid α) (i : Fin NBUF) : Cache Pid α :=
  c.set i { c.buf i with refcnt := (c.buf i).refcnt + 1 }

def bunpin (c : Cache Pid α) (i : Fin NBUF) : Cache Pid α :=
  c.set i { c.buf i with refcnt := (c.buf i).refcnt - 1 }

/-- The critical section of `brelse`. -/
def bdrop (c : Cache Pid α) (i : Fin NBUF) : Cache Pid α :=
  let c := bunpin c i
  if (c.buf i).refcnt = 0 then { c with mru := i :: c.mru.erase i } else c

end Cache

/-! ## The log -/

/-- The variables of the loops of `commit`: `to`, `lbuf` and `buf` hold a block of the log, `from` and
    `dbuf` a block at home. -/
inductive Reg where
  | log
  | home
  deriving DecidableEq

inductive Op where
  | bread (r : Reg)
  | memmove (dst src : Reg)
  /-- `hb->n = log.lh.n`, and the loop over `hb->block`. -/
  | header
  | bwrite (r : Reg)
  | bunpin
  | brelse (r : Reg)
  deriving DecidableEq

/-- A round of `write_log` or `install_trans`, or a call of `write_head`. -/
inductive Phase where
  | writeLog (tail : Nat)
  | writeHead
  | install (tail : Nat)
  | erase
  deriving DecidableEq

def Phase.body : Phase → List Op
  | .writeLog _ =>
    [.bread .log, .bread .home, .memmove .log .home, .bwrite .log, .brelse .home, .brelse .log]
  | .install _ =>
    [.bread .log, .bread .home, .memmove .home .log, .bwrite .home, .bunpin, .brelse .log, .brelse .home]
  | .writeHead => [.bread .log, .header, .bwrite .log, .brelse .log]
  | .erase => [.bread .log, .header, .bwrite .log, .brelse .log]

/-- The block that a variable is read from; `start` is `log.start`. -/
def Phase.block (start : Uint) (lh : List Uint) : Phase → Reg → Uint
  | .writeLog tail, .log => start + BitVec.ofNat 32 tail + 1
  | .install tail, .log => start + BitVec.ofNat 32 tail + 1
  | .writeLog tail, .home => lh.getD tail 0
  | .install tail, .home => lh.getD tail 0
  | .writeHead, _ => start
  | .erase, _ => start

/-- The head of the loop of `write_log`, and what follows the loop. -/
def writeLog (lh : List Uint) (tail : Nat) : Phase :=
  if tail < lh.length then .writeLog tail else .writeHead

/-- The head of the loop of `install_trans`, and what follows the loop. -/
def installTrans (lh : List Uint) (tail : Nat) : Phase :=
  if tail < lh.length then .install tail else .erase

/-! ## Processes -/

/-- The call of `bread` or `brelse` that a process is in. -/
inductive Call where
  | idle
  /-- In `acquiresleep`, at the end of `bget`. -/
  | locking (i : Fin NBUF) (b : Uint)
  /-- In `bread`, with a buffer that is not valid. -/
  | reading (i : Fin NBUF) (b : Uint)
  /-- In `brelse`, after `releasesleep`. -/
  | dropping (i : Fin NBUF)
  deriving DecidableEq

inductive Task where
  | user
  /-- Between `begin_op` and `end_op`. -/
  | inOp
  /-- In `commit`, with what is left of the round and the buffers that it has read. -/
  | commit (ph : Phase) (rest : List Op) (reg : Reg → Option (Fin NBUF))

inductive Panic where
  | noBuffers
  | bwrite
  | brelse
  | logCommitting
  | tooBig
  | outsideTrans
  deriving DecidableEq

inductive Ev (Pid α : Type) where
  /-- The data of a block are changed, by a process or by `commit`. -/
  | change (byCommit : Bool) (b : Uint) (d : α)
  /-- A `bread` returns these contents. -/
  | bread (p : Pid) (b : Uint) (d : α)
  deriving DecidableEq

structure State (Pid α : Type) where
  cache : Cache Pid α
  disk : Uint → α
  outstanding : Nat
  committing : Bool
  lh : List Uint
  call : Pid → Call
  task : Pid → Task
  panic : Option (Panic × Pid)
  /-- History variables: what has happened to the data; the buffers with a change that was neither logged
      nor written; the blocks that the log has pinned; the pins of the processes; and the blocks that an
      operation has logged. -/
  hist : List (Ev Pid α)
  dirty : Fin NBUF → Bool
  pinned : List Uint
  pins : Pid → Fin NBUF → Nat
  logged : Pid → List Uint

/-- Where the log is, and what `write_head` makes of the header block. -/
structure Geometry (α : Type) where
  start : Uint
  head : List Uint → α → α

inductive Label (Pid α : Type) where
  | bread (p : Pid) (b : Uint)
  /-- The process goes on with its call of `bread` or `brelse`. -/
  | cont (p : Pid)
  | change (p : Pid) (i : Fin NBUF) (d : α)
  | logWrite (p : Pid) (i : Fin NBUF)
  | bwrite (p : Pid) (i : Fin NBUF)
  | brelse (p : Pid) (i : Fin NBUF)
  | bpin (p : Pid) (i : Fin NBUF)
  | bunpin (p : Pid) (i : Fin NBUF)
  | beginOp (p : Pid)
  | endOp (p : Pid)
  /-- The next operation of `commit`. -/
  | commit (p : Pid)

section Step

variable {Pid α : Type} [DecidableEq Pid]

def State.fail (s : State Pid α) (x : Panic) (p : Pid) : State Pid α := { s with panic := some (x, p) }

def State.setTask (s : State Pid α) (p : Pid) (t : Task) : State Pid α :=
  { s with task := Function.update s.task p t }

def State.setCall (s : State Pid α) (p : Pid) (c : Call) : State Pid α :=
  { s with call := Function.update s.call p c }

/-- `bread` up to `acquiresleep`; the process goes on with what `k` makes of the buffer. -/
def State.bread (s : State Pid α) (p : Pid) (b : Uint) (k : Fin NBUF → Task) : State Pid α :=
  match bget s.cache b with
  | none => s.fail .noBuffers p
  | some (c, i) => ({ s with cache := c }.setCall p (.locking i b)).setTask p (k i)

/-- The end of `bread`. -/
def State.return (s : State Pid α) (p : Pid) (b : Uint) (d : α) : State Pid α :=
  { s with hist := s.hist ++ [Ev.bread p b d] }.setCall p .idle

/-- The next step of the call that `p` is in; `none` while the buffer is locked. -/
def State.cont (s : State Pid α) (p : Pid) : Call → Option (State Pid α)
  | .idle => none
  | .locking i b =>
    let x := s.cache.buf i
    if x.lock.isSome then none
    else
      let s := { s with cache := s.cache.set i { x with lock := some p } }
      some (if x.valid then s.return p b x.data else s.setCall p (.reading i b))
  | .reading i b =>
    let x := s.cache.buf i
    let d := s.disk (x.blockno.getD 0)
    some ({ s with cache := s.cache.set i { x with data := d, valid := true } }.return p b d)
  | .dropping i => some ({ s with cache := bdrop s.cache i }.setCall p .idle)

def State.change (s : State Pid α) (byCommit : Bool) (i : Fin NBUF) (d : α) : State Pid α :=
  let x := s.cache.buf i
  { s with
    cache := s.cache.set i { x with data := d }
    dirty := Function.update s.dirty i true
    hist := s.hist ++ [Ev.change byCommit (x.blockno.getD 0) d] }

def State.bwrite (s : State Pid α) (p : Pid) (i : Fin NBUF) : State Pid α :=
  let x := s.cache.buf i
  if x.lock = some p then
    { s with
      disk := Function.update s.disk (x.blockno.getD 0) x.data
      dirty := Function.update s.dirty i false }
  else s.fail .bwrite p

/-- `brelse` up to `releasesleep`. -/
def State.brelse (s : State Pid α) (p : Pid) (i : Fin NBUF) : State Pid α :=
  let x := s.cache.buf i
  if x.lock = some p then
    { s with cache := s.cache.set i { x with lock := none } }.setCall p (.dropping i)
  else s.fail .brelse p

def State.logWrite (s : State Pid α) (p : Pid) (i : Fin NBUF) : State Pid α :=
  let b := (s.cache.buf i).blockno.getD 0
  if s.lh.length ≥ LOGBLOCKS then s.fail .tooBig p
  else if s.outstanding < 1 then s.fail .outsideTrans p
  else
    let s := { s with
      dirty := Function.update s.dirty i false
      logged := Function.update s.logged p (b :: s.logged p) }
    if b ∈ s.lh then s
    else { s with cache := bpin s.cache i, lh := s.lh ++ [b], pinned := s.pinned ++ [b] }

/-- `begin_op`; `none` when the process has to sleep. -/
def State.beginOp (s : State Pid α) (p : Pid) : Option (State Pid α) :=
  if s.committing then none
  else if s.lh.length + (s.outstanding + 1) * MAXOPBLOCKS > LOGBLOCKS then none
  else
    some ({ s with
      outstanding := s.outstanding + 1
      logged := Function.update s.logged p [] }.setTask p .inOp)

/-- `log.lh.n = 0` comes before the second `write_head`. -/
def State.enter (s : State Pid α) (p : Pid) (ph : Phase) : State Pid α :=
  { s with lh := if ph = Phase.erase then [] else s.lh }.setTask p (.commit ph ph.body fun _ => none)

/-- The first critical section of `end_op`, and the test of `commit`. -/
def State.endOp (s : State Pid α) (p : Pid) : State Pid α :=
  let s := { s with outstanding := s.outstanding - 1 }
  if s.committing then s.fail .logCommitting p
  else if s.outstanding = 0 then
    let s := { s with committing := true }
    if s.lh.length > 0 then s.enter p (Bio.writeLog s.lh 0)
    else s.setTask p (.commit .erase [] fun _ => none)
  else s.setTask p .user

/-- From one round to the next; at last the second critical section of `end_op`. -/
def State.advance (s : State Pid α) (p : Pid) : Phase → State Pid α
  | .writeLog tail => s.enter p (Bio.writeLog s.lh (tail + 1))
  | .writeHead => s.enter p (installTrans s.lh 0)
  | .install tail => s.enter p (installTrans s.lh (tail + 1))
  | .erase => { s with committing := false }.setTask p .user

/-- What an operation of `commit` other than `bread` does, given the variables. -/
def State.exec (g : Geometry α) (s : State Pid α) (p : Pid) (reg : Reg → Option (Fin NBUF)) :
    Op → Option (State Pid α)
  | .bread _ => none
  | .memmove dst src =>
    match reg dst, reg src with
    | some i, some j => some (s.change true i (s.cache.buf j).data)
    | _, _ => none
  | .header => (reg .log).map fun i => s.change true i (g.head s.lh (s.cache.buf i).data)
  | .bwrite r => (reg r).map fun i => s.bwrite p i
  | .bunpin => (reg .home).map fun i =>
    { s with
      cache := Bio.bunpin s.cache i
      pinned := s.pinned.erase ((s.cache.buf i).blockno.getD 0) }
  | .brelse r => (reg r).map fun i => s.brelse p i

def State.commitStep (g : Geometry α) (s : State Pid α) (p : Pid) : Task → Option (State Pid α)
  | .commit ph [] _ => some (s.advance p ph)
  | .commit ph (.bread r :: rest) reg =>
    some (s.bread p (ph.block g.start s.lh r) fun i => .commit ph rest (Function.update reg r (some i)))
  | .commit ph (op :: rest) reg => (s.setTask p (.commit ph rest reg)).exec g p reg op
  | _ => none

/-- The process is not in `commit`, nor in a call. -/
def State.Free (s : State Pid α) (p : Pid) : Prop :=
  s.call p = .idle ∧ (match s.task p with | .commit _ _ _ => false | _ => true) = true

instance (s : State Pid α) (p : Pid) : Decidable (s.Free p) :=
  inferInstanceAs (Decidable (_ ∧ _))

/-- A process uses the data of a buffer only while it has locked it. -/
def State.Holds (s : State Pid α) (p : Pid) (i : Fin NBUF) : Prop := (s.cache.buf i).lock = some p

instance (s : State Pid α) (p : Pid) (i : Fin NBUF) : Decidable (s.Holds p i) :=
  inferInstanceAs (Decidable (_ = _))

/-- The step of a process that is not in `commit`. -/
def State.client (s : State Pid α) : Label Pid α → Option (State Pid α)
  | .bread p b => some (s.bread p b fun _ => s.task p)
  | .change p i d => if s.Holds p i then some (s.change false i d) else none
  | .logWrite p i => if s.Holds p i then some (s.logWrite p i) else none
  | .bwrite p i => some (s.bwrite p i)
  | .brelse p i => some (s.brelse p i)
  | .bpin p i =>
    if s.Holds p i then
      some { s with
        cache := bpin s.cache i
        pins := Function.update s.pins p (Function.update (s.pins p) i (s.pins p i + 1)) }
    else none
  | .bunpin p i =>
    some { s with
      cache := bunpin s.cache i
      pins := Function.update s.pins p (Function.update (s.pins p) i (s.pins p i - 1)) }
  | .beginOp p => match s.task p with
    | .user => s.beginOp p
    | _ => none
  | .endOp p => match s.task p with
    | .inOp => some (s.endOp p)
    | _ => none
  | .cont _ => none
  | .commit _ => none

def Label.who : Label Pid α → Pid
  | .bread p _ | .cont p | .change p _ _ | .logWrite p _ | .bwrite p _ | .brelse p _ | .bpin p _
  | .bunpin p _ | .beginOp p | .endOp p | .commit p => p

/-- One step; `none` after a panic, and where the process is not at the code in question. -/
def step (g : Geometry α) (s : State Pid α) (l : Label Pid α) : Option (State Pid α) :=
  if s.panic.isSome then none
  else match l with
  | .cont p => s.cont p (s.call p)
  | .commit p => if s.call p = .idle then s.commitStep g p (s.task p) else none
  | l => if s.Free l.who then s.client l else none

/-- After `initlog`, with an empty log. -/
def boot (Pid : Type) (disk : Uint → α) : State Pid α where
  cache := binit (disk 0)
  disk := disk
  outstanding := 0
  committing := false
  lh := []
  call := fun _ => .idle
  task := fun _ => .user
  panic := none
  hist := []
  dirty := fun _ => false
  pinned := []
  pins := fun _ _ => 0
  logged := fun _ => []

end Step

end Xv6.Bio
