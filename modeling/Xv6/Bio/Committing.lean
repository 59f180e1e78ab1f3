import Xv6.Bio.Cached

set_option autoImplicit false

/-! # The process in `commit`

The invariant of the log: only one process commits, no operation is in progress then, the variables of its
loops hold buffers that it has locked, and the blocks that are pinned are those of the header that
`install_trans` has not got to yet. -/

namespace Xv6.Bio

open Xv6.Lib

variable {Pid α : Type}

/-! ## The rounds -/

/-- The buffer in the variable has been read and not released. -/
def InUse (rest : List Op) (r : Reg) : Prop := .brelse r ∈ rest ∧ .bread r ∉ rest

instance (rest : List Op) (r : Reg) : Decidable (InUse rest r) := inferInstanceAs (Decidable (_ ∧ _))

def Op.copies : Op → Bool
  | .memmove _ _ => true
  | .header => true
  | _ => false

/-- What `install_trans` has still to unpin. -/
def Phase.pending (lh : List Uint) (rest : List Op) : Phase → List Uint
  | .install tail => if .bunpin ∈ rest then lh.drop tail else lh.drop (tail + 1)
  | .erase => []
  | _ => lh

def Phase.Bound (lh : List Uint) : Phase → Prop
  | .writeLog tail => tail < lh.length
  | .install tail => tail < lh.length
  | .writeHead => True
  | .erase => lh = []

/-- What holds of all that can be left of a round; the bodies do not depend on `tail`. -/
theorem forall_suffix {P : List Op → Prop} [DecidablePred P] {ph : Phase} {rest : List Op}
    (h : ∀ ph' ∈ [.writeLog 0, .writeHead, .install 0, .erase], ∀ l ∈ (Phase.body ph').tails, P l)
    (hrest : rest <:+ ph.body) : P rest := by
  have hmem : rest ∈ ph.body.tails := (List.mem_tails _ _).2 hrest
  cases ph with
  | writeLog tail => exact h (.writeLog 0) (by simp) rest hmem
  | writeHead => exact h .writeHead (by simp) rest hmem
  | install tail => exact h (.install 0) (by simp) rest hmem
  | erase => exact h .erase (by simp) rest hmem

/-- After a `bread` the copying is still to come, and the buffer is in use. -/
def Op.ReadsAhead : List Op → Prop
  | .bread r :: rest => rest.any Op.copies = true ∧ InUse rest r
  | _ => True

def Op.UnpinsOnce : List Op → Prop
  | .bunpin :: rest => .bunpin ∉ rest ∧ InUse rest .home
  | _ => True

def Op.ReleasesOnce : List Op → Prop
  | .brelse r :: rest => .brelse r ∉ rest ∧ .bread r ∉ rest
  | _ => True

instance : DecidablePred Op.ReadsAhead := fun l =>
  match l with
  | .bread r :: rest => inferInstanceAs (Decidable (rest.any Op.copies = true ∧ InUse rest r))
  | [] | .memmove _ _ :: _ | .header :: _ | .bwrite _ :: _ | .bunpin :: _ | .brelse _ :: _ => isTrue trivial

instance : DecidablePred Op.UnpinsOnce := fun l =>
  match l with
  | .bunpin :: rest => inferInstanceAs (Decidable (.bunpin ∉ rest ∧ InUse rest .home))
  | [] | .bread _ :: _ | .memmove _ _ :: _ | .header :: _ | .bwrite _ :: _ | .brelse _ :: _ => isTrue trivial

instance : DecidablePred Op.ReleasesOnce := fun l =>
  match l with
  | .brelse r :: rest => inferInstanceAs (Decidable (.brelse r ∉ rest ∧ .bread r ∉ rest))
  | [] | .bread _ :: _ | .memmove _ _ :: _ | .header :: _ | .bwrite _ :: _ | .bunpin :: _ => isTrue trivial

theorem Phase.readsAhead {ph : Phase} {r : Reg} {rest : List Op} (h : .bread r :: rest <:+ ph.body) :
    rest.any Op.copies = true ∧ InUse rest r :=
  forall_suffix (P := Op.ReadsAhead) (by decide) h

theorem Phase.unpinsOnce {ph : Phase} {rest : List Op} (h : .bunpin :: rest <:+ ph.body) :
    .bunpin ∉ rest ∧ InUse rest .home :=
  forall_suffix (P := Op.UnpinsOnce) (by decide) h

theorem Phase.releasesOnce {ph : Phase} {r : Reg} {rest : List Op} (h : .brelse r :: rest <:+ ph.body) :
    .brelse r ∉ rest ∧ .bread r ∉ rest :=
  forall_suffix (P := Op.ReleasesOnce) (by decide) h

theorem Phase.install_of_bunpin {ph : Phase} {rest : List Op} (h : .bunpin :: rest <:+ ph.body) :
    ∃ tail, ph = .install tail := by
  have hmem : Op.bunpin ∈ ph.body := h.subset (List.mem_cons_self ..)
  cases ph with
  | install tail => exact ⟨tail, rfl⟩
  | writeLog tail => exact absurd hmem (by simp [Phase.body])
  | writeHead => exact absurd hmem (by simp [Phase.body])
  | erase => exact absurd hmem (by simp [Phase.body])

theorem InUse.cons {rest : List Op} {r : Reg} (h : InUse rest r) {op : Op} (hop : op ≠ .bread r) :
    InUse (op :: rest) r := by
  refine ⟨List.mem_cons_of_mem _ h.1, ?_⟩
  rw [List.mem_cons, not_or]
  exact ⟨fun heq => hop heq.symm, h.2⟩

theorem Phase.pending_cons {ph : Phase} {lh : List Uint} {op : Op} {rest : List Op} (hop : op ≠ .bunpin) :
    ph.pending lh (op :: rest) = ph.pending lh rest := by
  cases ph with
  | install tail => simp only [Phase.pending, List.mem_cons, Ne.symm hop, false_or]
  | _ => rfl

/-! ## The invariant -/

def Task.commits : Task → Bool
  | .commit _ _ _ => true
  | _ => false

structure Com (g : Geometry α) (s : State Pid α) (p : Pid) (ph : Phase) (rest : List Op)
    (reg : Reg → Option (Fin NBUF)) : Prop where
  suffix : rest <:+ ph.body
  bound : ph.Bound s.lh
  pinned : s.pinned = ph.pending s.lh rest
  regs : ∀ r, InUse rest r → ∃ i, reg r = some i ∧
    (s.cache.buf i).blockno = some (ph.block g.start s.lh r) ∧
    ((s.cache.buf i).lock = some p ∨ ∃ b, s.call p = .locking i b)
  /-- The two variables hold one buffer only where the process waits for itself. -/
  apart : ∀ i, InUse rest .log → InUse rest .home → reg .log = some i → reg .home = some i →
    (s.cache.buf i).lock = some p ∧ ∃ b, s.call p = .locking i b
  copying : ∀ i b, s.call p = .locking i b ∨ s.call p = .reading i b → rest.any Op.copies = true

structure LogInv (g : Geometry α) (s : State Pid α) : Prop where
  ops : Counts (fun p => s.task p = .inOp) s.outstanding
  nodup : s.lh.Nodup
  small : s.lh.length ≤ LOGBLOCKS
  quiet : s.committing = false → s.pinned = s.lh
  busy : s.committing = true → s.outstanding = 0 ∧ ∃ p ph rest reg, s.task p = .commit ph rest reg
  com : ∀ {p ph rest reg}, s.task p = .commit ph rest reg → s.committing = true ∧ Com g s p ph rest reg
  only : ∀ {p q}, (s.task p).commits = true → (s.task q).commits = true → p = q

/-- A step of other processes, seen from `p`. -/
structure Keeps (s t : State Pid α) (p : Pid) : Prop where
  call : t.call p = s.call p
  buf : ∀ i, (s.cache.buf i).lock = some p ∨ (∃ b, s.call p = .locking i b) →
    (t.cache.buf i).blockno = (s.cache.buf i).blockno ∧
      ((s.cache.buf i).lock = some p → (t.cache.buf i).lock = some p)

theorem Keeps.of_eq {s t : State Pid α} {p : Pid} (hcall : t.call = s.call) (hcache : t.cache = s.cache) :
    Keeps s t p := by
  refine ⟨by rw [hcall], fun i _ => ?_⟩
  rw [hcache]
  exact ⟨rfl, id⟩

theorem Com.keeps {g : Geometry α} {s t : State Pid α} {p : Pid} {ph : Phase} {rest : List Op}
    {reg : Reg → Option (Fin NBUF)} (h : Com g s p ph rest reg) (hk : Keeps s t p) (hlh : t.lh = s.lh)
    (hpinned : t.pinned = s.pinned) : Com g t p ph rest reg := by
  constructor
  case suffix =>
    exact h.suffix
  case bound =>
    rw [hlh]
    exact h.bound
  case pinned =>
    rw [hpinned, hlh]
    exact h.pinned
  case regs =>
    intro r hr
    obtain ⟨i, hi, hb, hl⟩ := h.regs r hr
    obtain ⟨hblock, hlock⟩ := hk.buf i hl
    exact ⟨i, hi, by rw [hblock, hlh, hb], hl.imp hlock fun hc => by rwa [hk.call]⟩
  case apart =>
    intro i hlog hhome hi hj
    obtain ⟨hl, hc⟩ := h.apart i hlog hhome hi hj
    exact ⟨(hk.buf i (Or.inl hl)).2 hl, by rwa [hk.call]⟩
  case copying =>
    intro i b hc
    rw [hk.call] at hc
    exact h.copying i b hc

/-- A step that changes neither the log nor where processes are. -/
theorem LogInv.frame {g : Geometry α} {s t : State Pid α} (h : LogInv g s) (htask : t.task = s.task)
    (houtstanding : t.outstanding = s.outstanding) (hcommitting : t.committing = s.committing)
    (hlh : t.lh = s.lh) (hpinned : t.pinned = s.pinned)
    (hcom : ∀ p ph rest reg, s.task p = .commit ph rest reg → Com g s p ph rest reg →
      Com g t p ph rest reg) : LogInv g t := by
  constructor
  case ops =>
    rw [htask, houtstanding]
    exact h.ops
  case nodup =>
    rw [hlh]
    exact h.nodup
  case small =>
    rw [hlh]
    exact h.small
  case quiet =>
    rw [hcommitting, hpinned, hlh]
    exact h.quiet
  case busy =>
    rw [hcommitting, houtstanding, htask]
    exact h.busy
  case com =>
    intro p ph rest reg hp
    rw [htask] at hp
    rw [hcommitting]
    exact ⟨(h.com hp).1, hcom p ph rest reg hp (h.com hp).2⟩
  case only =>
    intro p q hp hq
    rw [htask] at hp hq
    exact h.only hp hq

/-- No process is in `commit` while an operation is in progress. -/
theorem LogInv.no_commit {g : Geometry α} {s : State Pid α} (h : LogInv g s) (hpos : 1 ≤ s.outstanding) :
    s.committing = false := by
  cases hc : s.committing with
  | false => rfl
  | true =>
      have hzero := (h.busy hc).1
      omega

end Xv6.Bio
