import Xv6.Lib.Ring
import Xv6.Lib.Run
import Xv6.Param

set_option autoImplicit false

/-! # The disk driver

`kernel/virtio_disk.c` after `virtio_disk_init`, and the device. The driver's steps are the critical
sections of `vdisk_lock`: from the start of a call of `virtio_disk_rw`, or from where it wakes up, to
where it sleeps or returns, and each round of the loop of `virtio_disk_intr`, which holds the lock
between the rounds. The device takes its steps at any time. A call that sleeps may wake up at any
time the lock is free, so that `wakeup` has nothing to do here. What the disk contains is left out,
and with it the request headers `ops`. -/

namespace Xv6.Virtio

open Xv6.Lib

/-- This many virtio descriptors. -/
def NUM : Nat := 8

instance : NeZero NUM := ⟨by decide⟩

abbrev Uint16 := BitVec 16

/-- Chained with another descriptor. -/
def VRING_DESC_F_NEXT : Uint16 := 1
/-- Device writes (vs read). -/
def VRING_DESC_F_WRITE : Uint16 := 2

/-- What a descriptor points to: `&disk.ops[i]`, `b->data`, or `&disk.info[i].status`. -/
inductive Addr (Buf : Type) where
  | null
  | op (i : Nat)
  | data (b : Buf)
  | status (i : Nat)

structure Desc (Buf : Type) where
  addr : Addr Buf
  len : Nat
  flags : Uint16
  next : Nat

structure Info (Buf : Type) where
  b : Option Buf
  status : BitVec 8

inductive Panic where
  /-- `free_desc 1`, `free_desc 2` and `virtio_disk_intr status`. -/
  | freeDesc1 | freeDesc2 | intrStatus
  /-- A completion for which there is no buffer. -/
  | nullBuf
  deriving DecidableEq

/-- `disk`, with the two rings, and `b->disk` of the buffers. -/
structure Disk (Buf : Type) where
  desc : Nat → Desc Buf
  avail : Fin NUM → Nat
  availIdx : Uint16
  used : Fin NUM → Nat
  usedRingIdx : Uint16
  /-- Is a descriptor free? -/
  free : Nat → Bool
  /-- We've looked this far in `used`. -/
  usedIdx : Uint16
  info : Nat → Info Buf
  disk : Buf → Bool

section Driver

variable {Buf : Type} [DecidableEq Buf]

def allocDesc (d : Disk Buf) : Option (Nat × Disk Buf) :=
  ((List.range NUM).find? d.free).map fun i => (i, { d with free := Function.update d.free i false })

def freeDesc (i : Nat) (d : Disk Buf) : Except Panic (Disk Buf) :=
  if NUM ≤ i then .error .freeDesc1
  else if d.free i then .error .freeDesc2
  else .ok { d with
    desc := Function.update d.desc i ⟨.null, 0, 0, 0⟩
    free := Function.update d.free i true }

/-- The loop of `free_chain`; after `NUM` rounds there is no descriptor left to free. -/
def freeChain : Nat → Nat → Disk Buf → Except Panic (Disk Buf)
  | 0, _, _ => .error .freeDesc2
  | n + 1, i, d => do
    let flag := (d.desc i).flags
    let nxt := (d.desc i).next
    let d ← freeDesc i d
    if flag &&& VRING_DESC_F_NEXT ≠ 0 then freeChain n nxt d else pure d

/-- The descriptors of a request: `idx`. -/
abbrev Idx := Nat × Nat × Nat

def alloc3Desc (d : Disk Buf) : Except Panic (Option Idx × Disk Buf) :=
  match allocDesc d with
  | none => pure (none, d)
  | some (i₀, d) =>
    match allocDesc d with
    | none => do
      let d ← freeDesc i₀ d
      pure (none, d)
    | some (i₁, d) =>
      match allocDesc d with
      | none => do
        let d ← freeDesc i₀ d
        let d ← freeDesc i₁ d
        pure (none, d)
      | some (i₂, d) => pure (some (i₀, i₁, i₂), d)

/-- Formats the three descriptors, and tells the device the first of them. -/
def submit (b : Buf) (write : Bool) (i : Idx) (d : Disk Buf) : Disk Buf :=
  { d with
    desc := Function.update (Function.update (Function.update d.desc
      i.1 ⟨.op i.1, 16, VRING_DESC_F_NEXT, i.2.1⟩)
      i.2.1 ⟨.data b, BSIZE, (if write then 0 else VRING_DESC_F_WRITE) ||| VRING_DESC_F_NEXT, i.2.2⟩)
      i.2.2 ⟨.status i.1, 1, VRING_DESC_F_WRITE, 0⟩
    info := Function.update d.info i.1 ⟨some b, 0xff⟩
    disk := Function.update d.disk b true
    avail := Function.update d.avail (Ring.slot NUM d.availIdx) i.1
    availIdx := d.availIdx + 1 }

/-- The end of `virtio_disk_rw`. -/
def finish (i : Idx) (d : Disk Buf) : Except Panic (Disk Buf) :=
  freeChain (NUM + 1) i.1
    { d with info := Function.update d.info i.1 { d.info i.1 with b := none } }

/-- A round of the loop of `virtio_disk_intr`. -/
def intrRound (d : Disk Buf) : Except Panic (Disk Buf) :=
  let id := d.used (Ring.slot NUM d.usedIdx)
  if (d.info id).status ≠ 0 then .error .intrStatus
  else match (d.info id).b with
    | none => .error .nullBuf
    | some b => .ok { d with disk := Function.update d.disk b false, usedIdx := d.usedIdx + 1 }

/-! ## The device -/

/-- The last descriptor of a chain. -/
def lastDesc (desc : Nat → Desc Buf) : Nat → Nat → Nat
  | 0, i => i
  | n + 1, i => if (desc i).flags &&& VRING_DESC_F_NEXT ≠ 0 then lastDesc desc n (desc i).next else i

/-- The device writes 0 where a status is to go. -/
def writeStatus (addr : Addr Buf) (d : Disk Buf) : Disk Buf :=
  match addr with
  | .status i => { d with info := Function.update d.info i { d.info i with status := 0 } }
  | _ => d

/-- The device has finished with the chain at `i`. -/
def complete (i : Nat) (d : Disk Buf) : Disk Buf :=
  let d := writeStatus (d.desc (lastDesc d.desc NUM i)).addr d
  { d with used := Function.update d.used (Ring.slot NUM d.usedRingIdx) i, usedRingIdx := d.usedRingIdx + 1 }

end Driver

/-! ## The system -/

/-- Where a process is in `virtio_disk_rw`. -/
inductive Call (Buf : Type) where
  | idle
  /-- Asleep for descriptors. -/
  | descs (b : Buf) (write : Bool)
  /-- Asleep for its request. -/
  | io (b : Buf) (i : Idx)

structure State (Pid Buf : Type) where
  disk : Disk Buf
  call : Pid → Call Buf
  /-- `b->lock`, which the callers of `virtio_disk_rw` hold. -/
  lock : Buf → Option Pid
  /-- `virtio_disk_intr` holds `vdisk_lock`. -/
  intr : Bool
  /-- How far the device has looked in `avail`. -/
  seen : Uint16
  /-- The chains that the device is working on. -/
  heads : List Nat
  /-- A history variable: the device has finished with the chain since it was last submitted. -/
  served : Nat → Bool
  panicked : Option Panic

inductive Label (Pid Buf : Type) where
  | rw (p : Pid) (b : Buf) (write : Bool)
  | wake (p : Pid)
  /-- `virtio_disk_intr` starts, takes a round of its loop, and returns. -/
  | intr
  | round
  | iret
  /-- The device finds the next chain in `avail`, and is done with a chain. -/
  | fetch
  | complete (i : Nat)

section Step

variable {Pid Buf : Type} [DecidableEq Pid] [DecidableEq Buf]

def State.setCall (s : State Pid Buf) (p : Pid) (c : Call Buf) : State Pid Buf :=
  { s with call := Function.update s.call p c }

/-- A call tries to get its descriptors. -/
def State.alloc (s : State Pid Buf) (p : Pid) (b : Buf) (write : Bool) : State Pid Buf :=
  match alloc3Desc s.disk with
  | .error e => { s with panicked := some e }
  | .ok (none, d) => { s.setCall p (.descs b write) with disk := d }
  | .ok (some i, d) =>
    { s.setCall p (.io b i) with
      disk := submit b write i d
      served := Function.update s.served i.1 false }

/-- A call whose request is done returns. -/
def State.finish (s : State Pid Buf) (p : Pid) (b : Buf) (i : Idx) : State Pid Buf :=
  match Virtio.finish i s.disk with
  | .error e => { s with panicked := some e }
  | .ok d => { s.setCall p .idle with disk := d, lock := Function.update s.lock b none }

def State.round (s : State Pid Buf) : State Pid Buf :=
  match intrRound s.disk with
  | .error e => { s with panicked := some e }
  | .ok d => { s with disk := d }

def step (s : State Pid Buf) (l : Label Pid Buf) : Option (State Pid Buf) :=
  if s.panicked.isSome then none
  else match l with
    | .rw p b write =>
      match s.intr, s.call p, s.lock b with
      | false, .idle, none =>
        some ({ s with lock := Function.update s.lock b (some p) }.alloc p b write)
      | _, _, _ => none
    | .wake p =>
      match s.intr, s.call p with
      | false, .descs b write => some (s.alloc p b write)
      | false, .io b i => some (if s.disk.disk b then s else s.finish p b i)
      | _, _ => none
    | .intr => if s.intr then none else some { s with intr := true }
    | .round => if s.intr ∧ s.disk.usedIdx ≠ s.disk.usedRingIdx then some s.round else none
    | .iret =>
      if s.intr ∧ s.disk.usedIdx = s.disk.usedRingIdx then some { s with intr := false } else none
    | .fetch =>
      if s.seen = s.disk.availIdx then none
      else some { s with
        seen := s.seen + 1
        heads := s.heads ++ [s.disk.avail (Ring.slot NUM s.seen)] }
    | .complete i =>
      if i ∈ s.heads then some { s with
        disk := complete i s.disk
        heads := s.heads.erase i
        served := Function.update s.served i true }
      else none

/-- After `virtio_disk_init`. -/
def start (Pid Buf : Type) : State Pid Buf where
  disk := {
    desc := fun _ => ⟨.null, 0, 0, 0⟩
    avail := fun _ => 0
    availIdx := 0
    used := fun _ => 0
    usedRingIdx := 0
    free := fun _ => true
    usedIdx := 0
    info := fun _ => ⟨none, 0⟩
    disk := fun _ => false }
  call := fun _ => .idle
  lock := fun _ => none
  intr := false
  seen := 0
  heads := []
  served := fun _ => false
  panicked := none

end Step

end Xv6.Virtio
