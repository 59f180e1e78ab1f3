import Mathlib.Algebra.GroupWithZero.Nat
import Mathlib.Data.Fintype.Basic
import Xv6.Lib.Run
import Xv6.Lib.Linked
import Xv6.Lib.Assoc

set_option autoImplicit false

/-! # The hash table with a lock for each bucket

`put_thread`, `put`, `insert` and `get` of `notxv6/ph-with-mutex-locks.c`. The threads run `put` in
small steps: taking the lock, each node the search visits, the update, the allocation, the store
into the table, and the release are steps of their own, so that sections on different buckets
interleave freely. `nkeys` stands for `NKEYS`, which the source sets to 100000.

`order i` is a history variable: the puts (key and thread) in the order in which they took `locks[i]`. -/

namespace Xv6.HashTable

open Xv6.Lib

def NBUCKET : Nat := 5

instance : NeZero NBUCKET := ⟨by decide⟩

/-- `struct entry`; a null pointer is `none`. -/
structure Entry (Addr : Type) where
  key : Nat
  value : Nat
  next : Option Addr

/-- Where a thread is in `put_thread`; `i` is its loop variable. -/
inductive Pc (Addr : Type) where
  | loop (i : Nat)
  /-- `pthread_mutex_lock`. -/
  | lock (key i : Nat)
  /-- The search, at the node `e`. -/
  | search (key i : Nat) (e : Option Addr)
  /-- `e->value = value`. -/
  | update (key i : Nat) (e : Addr)
  /-- `insert`: before `malloc`. -/
  | malloc (key i : Nat)
  /-- `insert`: `*p = e`. -/
  | link (key i : Nat) (e : Addr)
  /-- `pthread_mutex_unlock`. -/
  | unlock (key i : Nat)
  | done
  deriving DecidableEq

structure State (Addr : Type) (nthread : Nat) where
  heap : Addr → Entry Addr
  /-- Which memory `malloc` has handed out. -/
  allocated : Addr → Bool
  table : Fin NBUCKET → Option Addr
  locks : Fin NBUCKET → Option (Fin nthread)
  pc : Fin nthread → Pc Addr
  order : Fin NBUCKET → List (Nat × Nat)

/-- `key % NBUCKET`. -/
def bucket (key : Nat) : Fin NBUCKET := Fin.ofNat NBUCKET key

/-- The thread that moves, and the memory its `malloc` would return. -/
structure Label (Addr : Type) (nthread : Nat) where
  thread : Fin nthread
  fresh : Addr

section Step

variable {Addr : Type} [DecidableEq Addr] {nthread nkeys : Nat}

def State.setPc (s : State Addr nthread) (n : Fin nthread) (c : Pc Addr) : State Addr nthread :=
  { s with pc := Function.update s.pc n c }

/-- One step of thread `l.thread`. -/
def step (keys : Fin nkeys → Nat) (s : State Addr nthread) (l : Label Addr nthread) :
    Option (State Addr nthread) :=
  let n := l.thread
  let b := nkeys / nthread
  match s.pc n with
  | .loop i =>
    if i < b then
      -- an index beyond the array would be undefined behaviour
      if h : b * n + i < nkeys then some (s.setPc n (.lock (keys ⟨b * n + i, h⟩) i)) else none
    else some (s.setPc n .done)
  | .lock key i =>
    if s.locks (bucket key) = none then
      some ({ s with locks := Function.update s.locks (bucket key) (some n)
                     order := Function.update s.order (bucket key)
                       (s.order (bucket key) ++ [(key, n.val)]) }.setPc n
        (.search key i (s.table (bucket key))))
    else none
  | .search key i none => some (s.setPc n (.malloc key i))
  | .search key i (some e) =>
    if (s.heap e).key = key then some (s.setPc n (.update key i e))
    else some (s.setPc n (.search key i (s.heap e).next))
  | .update key i e =>
    some ({ s with heap := Function.update s.heap e { s.heap e with value := n.val } }.setPc n
      (.unlock key i))
  | .malloc key i =>
    if s.allocated l.fresh = false then
      some ({ s with
        heap := Function.update s.heap l.fresh ⟨key, n.val, s.table (bucket key)⟩
        allocated := Function.update s.allocated l.fresh true }.setPc n (.link key i l.fresh))
    else none
  | .link key i e =>
    some ({ s with table := Function.update s.table (bucket key) (some e) }.setPc n (.unlock key i))
  | .unlock key i =>
    some ({ s with locks := Function.update s.locks (bucket key) none }.setPc n (.loop (i + 1)))
  | .done => none

/-- The loop of `get`, with fuel; `none` when the fuel does not suffice. -/
def find (heap : Addr → Entry Addr) (key : Nat) : Nat → Option Addr → Option (Option Addr)
  | 0, _ => none
  | _ + 1, none => some none
  | fuel + 1, some e =>
    if (heap e).key = key then some (some e) else find heap key fuel (heap e).next

def get (fuel : Nat) (s : State Addr nthread) (key : Nat) : Option (Option Addr) :=
  find s.heap key fuel (s.table (bucket key))

/-- The number of missing keys that `get_thread` prints. -/
def getThread (keys : Fin nkeys → Nat) (fuel : Nat) (s : State Addr nthread) : Option Nat :=
  (List.finRange nkeys).foldlM
    (fun missing i => (get fuel s (keys i)).map fun e => if e = none then missing + 1 else missing) 0

end Step

/-- Before the threads are created: the table is empty and the locks are free. -/
def Init {Addr : Type} {nthread : Nat} (s : State Addr nthread) : Prop :=
  (∀ i, s.table i = none) ∧ (∀ i, s.locks i = none) ∧ (∀ n, s.pc n = .loop 0) ∧ ∀ i, s.order i = []

end Xv6.HashTable
