import Mathlib.Data.List.Perm.Basic
import Xv6.Lib.Count
import Xv6.Bio.Model

set_option autoImplicit false

/-! # References to buffers

The invariant of the cache: each block is in one buffer at most, and `refcnt` counts the references to a
buffer, which are the holder of its lock, the calls that wait for it or have just given it up, the pin of
the log and the pins of processes. What has a reference is not recycled. -/

namespace Xv6.Bio

open Xv6.Lib

variable {Pid α : Type}

/-! ## The operations of the cache -/

@[simp] theorem Cache.set_self (c : Cache Pid α) (i : Fin NBUF) (x : Buf Pid α) : (c.set i x).buf i = x :=
  Function.update_self ..

@[simp] theorem Cache.set_of_ne (c : Cache Pid α) {i j : Fin NBUF} (x : Buf Pid α) (h : j ≠ i) :
    (c.set i x).buf j = c.buf j :=
  Function.update_of_ne h ..

@[simp] theorem Cache.set_mru (c : Cache Pid α) (i : Fin NBUF) (x : Buf Pid α) : (c.set i x).mru = c.mru :=
  rfl

theorem Cache.set_blockno {c : Cache Pid α} {i : Fin NBUF} {x : Buf Pid α}
    (hx : x.blockno = (c.buf i).blockno) (j : Fin NBUF) :
    ((c.set i x).buf j).blockno = (c.buf j).blockno := by
  by_cases hj : j = i
  · subst hj
    rw [Cache.set_self, hx]
  · rw [Cache.set_of_ne c x hj]

theorem Cache.set_lock {c : Cache Pid α} {i : Fin NBUF} {x : Buf Pid α} (hx : x.lock = (c.buf i).lock)
    (j : Fin NBUF) : ((c.set i x).buf j).lock = (c.buf j).lock := by
  by_cases hj : j = i
  · subst hj
    rw [Cache.set_self, hx]
  · rw [Cache.set_of_ne c x hj]

/-- A hit takes one more reference; a miss recycles a buffer without references. -/
theorem bget_eq_some {c c' : Cache Pid α} {b : Uint} {i : Fin NBUF} (h : bget c b = some (c', i)) :
    ((c.buf i).blockno = some b ∧ c' = bpin c i) ∨
      ((∀ j ∈ c.mru, (c.buf j).blockno ≠ some b) ∧ (c.buf i).refcnt = 0 ∧
        c' = c.set i { c.buf i with blockno := some b, valid := false, refcnt := 1 }) := by
  unfold bget at h
  split at h
  · rename_i k hfind
    obtain ⟨rfl, rfl⟩ := Prod.mk.inj (Option.some.inj h)
    exact .inl ⟨by simpa using List.find?_some hfind, rfl⟩
  · rename_i hmiss
    split at h
    · rename_i k hfind
      obtain ⟨rfl, rfl⟩ := Prod.mk.inj (Option.some.inj h)
      refine .inr ⟨fun j hj => ?_, by simpa using List.find?_some hfind, rfl⟩
      simpa using List.find?_eq_none.1 hmiss j hj
    · cases h

theorem bget_eq_none {c : Cache Pid α} {b : Uint} :
    bget c b = none ↔ ∀ j ∈ c.mru, (c.buf j).blockno ≠ some b ∧ (c.buf j).refcnt ≠ 0 := by
  unfold bget
  split
  · rename_i k hfind
    refine iff_of_false (by simp) fun hall => ?_
    exact (hall k (List.mem_of_find?_eq_some hfind)).1 (by simpa using List.find?_some hfind)
  · rename_i hmiss
    have hno : ∀ j ∈ c.mru, (c.buf j).blockno ≠ some b := fun j hj => by
      simpa using List.find?_eq_none.1 hmiss j hj
    split
    · rename_i k hfind
      have hk := List.mem_reverse.1 (List.mem_of_find?_eq_some hfind)
      refine iff_of_false (by simp) fun hall => (hall k hk).2 (by simpa using List.find?_some hfind)
    · rename_i hbusy
      refine iff_of_true rfl fun j hj => ⟨hno j hj, ?_⟩
      simpa using List.find?_eq_none.1 hbusy j (List.mem_reverse.2 hj)

theorem bunpin_blockno (c : Cache Pid α) (i j : Fin NBUF) :
    ((bunpin c i).buf j).blockno = (c.buf j).blockno :=
  Cache.set_blockno (by rfl) j

theorem bunpin_lock (c : Cache Pid α) (i j : Fin NBUF) : ((bunpin c i).buf j).lock = (c.buf j).lock :=
  Cache.set_lock (by rfl) j

theorem bdrop_buf (c : Cache Pid α) (i : Fin NBUF) : (bdrop c i).buf = (bunpin c i).buf := by
  simp only [bdrop]
  split <;> rfl

theorem bdrop_mru {c : Cache Pid α} {i : Fin NBUF} (hi : i ∈ c.mru) : (bdrop c i).mru.Perm c.mru := by
  simp only [bdrop]
  split
  · exact (List.perm_cons_erase hi).symm
  · exact List.Perm.refl _

/-! ## References -/

inductive Ref (Pid : Type) where
  /-- The lock of the buffer is held. -/
  | lock
  | call (p : Pid)
  | log
  /-- One of the pins of a process. -/
  | pin (p : Pid) (k : Nat)

/-- The call has a reference to a buffer that it has not locked. -/
def Call.Waits (i : Fin NBUF) : Call → Prop
  | .locking j _ => j = i
  | .dropping j => j = i
  | _ => False

def State.Refers (s : State Pid α) (i : Fin NBUF) : Ref Pid → Prop
  | .lock => (s.cache.buf i).lock.isSome = true
  | .call p => (s.call p).Waits i
  | .log => ∃ b ∈ s.pinned, (s.cache.buf i).blockno = some b
  | .pin p k => k < s.pins p i

structure CacheInv (s : State Pid α) : Prop where
  nodup : s.cache.mru.Nodup
  all : ∀ i, i ∈ s.cache.mru
  one : ∀ {i j b}, (s.cache.buf i).blockno = some b → (s.cache.buf j).blockno = some b → i = j
  refs : ∀ i, Counts (s.Refers i) (s.cache.buf i).refcnt
  locking : ∀ {p i b}, s.call p = .locking i b → (s.cache.buf i).blockno = some b
  reading : ∀ {p i b}, s.call p = .reading i b →
    (s.cache.buf i).blockno = some b ∧ (s.cache.buf i).lock = some p ∧ (s.cache.buf i).valid = false
  locked : ∀ {p i}, (s.cache.buf i).lock = some p →
    (∃ b, (s.cache.buf i).blockno = some b) ∧ ((s.cache.buf i).valid = true ∨ ∃ b, s.call p = .reading i b)
  pinned : ∀ {b}, b ∈ s.pinned → ∃ i, (s.cache.buf i).blockno = some b ∧ (s.cache.buf i).valid = true
  nodupPinned : s.pinned.Nodup

theorem CacheInv.refcnt_pos {s : State Pid α} (h : CacheInv s) {i : Fin NBUF} {r : Ref Pid}
    (hr : s.Refers i r) : (s.cache.buf i).refcnt ≠ 0 :=
  Nat.ne_of_gt ((h.refs i).pos hr)

theorem CacheInv.no_ref {s : State Pid α} (h : CacheInv s) {i : Fin NBUF}
    (hi : (s.cache.buf i).refcnt = 0) (r : Ref Pid) : ¬ s.Refers i r := fun hr => h.refcnt_pos hr hi

/-- A buffer without references is not locked. -/
theorem CacheInv.unlocked {s : State Pid α} (h : CacheInv s) {i : Fin NBUF}
    (hi : (s.cache.buf i).refcnt = 0) : (s.cache.buf i).lock = none :=
  Option.isSome_eq_false_iff.1 (Bool.eq_false_iff.2 (h.no_ref hi .lock)) |> Option.isNone_iff_eq_none.1

theorem CacheInv.congr {s t : State Pid α} (h : CacheInv s) (hcache : t.cache = s.cache)
    (hcall : t.call = s.call) (hpinned : t.pinned = s.pinned) (hpins : t.pins = s.pins) : CacheInv t := by
  obtain ⟨cache, disk, outstanding, committing, lh, call, task, panic, hist, dirty, pinned, pins, logged⟩ := t
  dsimp only at hcache hcall hpinned hpins
  subst hcache hcall hpinned hpins
  exact ⟨h.nodup, h.all, h.one, h.refs, h.locking, h.reading, h.locked, h.pinned, h.nodupPinned⟩

/-- A step of process `p` that replaces a buffer by `x`, which has the same block. -/
structure Touch (s t : State Pid α) (p : Pid) (i : Fin NBUF) (x : Buf Pid α) : Prop where
  buf : t.cache.buf = (s.cache.set i x).buf
  mru : t.cache.mru.Perm s.cache.mru
  call : ∀ q, q ≠ p → t.call q = s.call q
  block : x.blockno = (s.cache.buf i).blockno
  valid : (s.cache.buf i).valid = true → x.valid = true
  /-- The lock is not taken from another process. -/
  lock : ∀ q, q ≠ p → (s.cache.buf i).lock = some q → x.lock = some q ∧ x.valid = (s.cache.buf i).valid

theorem Touch.at {s t : State Pid α} {p : Pid} {i : Fin NBUF} {x : Buf Pid α} (h : Touch s t p i x) :
    t.cache.buf i = x := by
  rw [h.buf, Cache.set_self]

theorem Touch.at_ne {s t : State Pid α} {p : Pid} {i j : Fin NBUF} {x : Buf Pid α} (h : Touch s t p i x)
    (hj : j ≠ i) : t.cache.buf j = s.cache.buf j := by
  rw [h.buf, Cache.set_of_ne _ _ hj]

theorem Touch.blockno {s t : State Pid α} {p : Pid} {i : Fin NBUF} {x : Buf Pid α} (h : Touch s t p i x)
    (j : Fin NBUF) : (t.cache.buf j).blockno = (s.cache.buf j).blockno := by
  by_cases hj : j = i
  · subst hj
    rw [h.at, h.block]
  · rw [h.at_ne hj]

theorem Touch.valid_of_valid {s t : State Pid α} {p : Pid} {i : Fin NBUF} {x : Buf Pid α}
    (h : Touch s t p i x) {j : Fin NBUF} (hv : (s.cache.buf j).valid = true) :
    (t.cache.buf j).valid = true := by
  by_cases hj : j = i
  · subst hj
    rw [h.at]
    exact h.valid hv
  · rw [h.at_ne hj]
    exact hv

/-- Only the references to the buffer and the call of the process are to be looked at. -/
theorem CacheInv.touch {s t : State Pid α} {p : Pid} {i : Fin NBUF} {x : Buf Pid α} (h : CacheInv s)
    (hx : Touch s t p i x) (hpinned : ∀ b ∈ t.pinned, ∃ j, (s.cache.buf j).blockno = some b ∧
      (s.cache.buf j).valid = true) (hnodup : t.pinned.Nodup)
    (hself : Counts (t.Refers i) x.refcnt) (hother : ∀ j, j ≠ i → ∀ r, t.Refers j r ↔ s.Refers j r)
    (hlocking : ∀ j b, t.call p = .locking j b → (s.cache.buf j).blockno = some b)
    (hreading : ∀ j b, t.call p = .reading j b → j = i ∧ x.blockno = some b ∧ x.lock = some p ∧
      x.valid = false)
    (hreader : ∀ j b, s.call p = .reading j b → j = i)
    (hlocked : x.lock = some p → (∃ b, x.blockno = some b) ∧ (x.valid = true ∨ ∃ b, t.call p = .reading i b))
    (hnew : ∀ q, q ≠ p → x.lock = some q → (s.cache.buf i).lock = some q) : CacheInv t := by
  constructor
  case nodup =>
    exact hx.mru.nodup_iff.2 h.nodup
  case all =>
    exact fun j => hx.mru.mem_iff.2 (h.all j)
  case one =>
    intro j k b hj hk
    rw [hx.blockno] at hj hk
    exact h.one hj hk
  case refs =>
    intro j
    by_cases hj : j = i
    · subst hj
      rw [hx.at]
      exact hself
    · rw [hx.at_ne hj]
      exact (h.refs j).congr fun r => (hother j hj r).symm
  case locking =>
    intro q j b hq
    rw [hx.blockno]
    by_cases hqp : q = p
    · subst hqp
      exact hlocking j b hq
    · exact h.locking (hx.call q hqp ▸ hq)
  case reading =>
    intro q j b hq
    by_cases hqp : q = p
    · subst hqp
      obtain ⟨rfl, hread⟩ := hreading j b hq
      rw [hx.at]
      exact hread
    · rw [hx.call q hqp] at hq
      obtain ⟨hb, hl, hv⟩ := h.reading hq
      rw [hx.blockno]
      refine ⟨hb, ?_⟩
      by_cases hj : j = i
      · subst hj
        obtain ⟨hl', hv'⟩ := hx.lock q hqp hl
        rw [hx.at, hv', hv]
        exact ⟨hl', rfl⟩
      · rw [hx.at_ne hj]
        exact ⟨hl, hv⟩
  case locked =>
    intro q j hq
    by_cases hj : j = i
    · subst hj
      rw [hx.at] at hq ⊢
      by_cases hqp : q = p
      · subst hqp
        exact hlocked hq
      · obtain ⟨hb, hv⟩ := h.locked (hnew q hqp hq)
        rw [hx.block, hx.call q hqp, (hx.lock q hqp (hnew q hqp hq)).2]
        exact ⟨hb, hv⟩
    · rw [hx.at_ne hj] at hq ⊢
      obtain ⟨hb, hv⟩ := h.locked hq
      refine ⟨hb, hv.imp_right fun hread => ?_⟩
      obtain ⟨b, hread⟩ := hread
      by_cases hqp : q = p
      · subst hqp
        exact absurd (hreader j b hread) hj
      · exact ⟨b, (hx.call q hqp).trans hread⟩
  case pinned =>
    intro b hb
    obtain ⟨j, hj, hv⟩ := hpinned b hb
    exact ⟨j, (hx.blockno j).trans hj, hx.valid_of_valid hv⟩
  case nodupPinned =>
    exact hnodup

/-- The references that a step leaves as they are. -/
theorem Touch.agree {s t : State Pid α} {p : Pid} {i j : Fin NBUF} {x : Buf Pid α} {r : Ref Pid}
    (hx : Touch s t p i x) (hpinned : t.pinned = s.pinned) (hpins : t.pins = s.pins)
    (hlock : r = .lock → j = i → x.lock = (s.cache.buf i).lock)
    (hcall : r = .call p → ((t.call p).Waits j ↔ (s.call p).Waits j)) : t.Refers j r ↔ s.Refers j r := by
  cases r with
  | lock =>
      by_cases hj : j = i
      · subst hj
        simp only [State.Refers, hx.at, hlock rfl rfl]
      · simp only [State.Refers, hx.at_ne hj]
  | call q =>
      by_cases hq : q = p
      · subst hq
        exact hcall rfl
      · simp only [State.Refers, hx.call q hq]
  | log => simp only [State.Refers, hpinned, hx.blockno]
  | pin q k => simp only [State.Refers, hpins]

/-! ## The calls -/

section Calls

variable {s t : State Pid α} {p : Pid} {i : Fin NBUF}

theorem CacheInv.breadHit (h : CacheInv s) {b : Uint} (hidle : s.call p = .idle)
    (hb : (s.cache.buf i).blockno = some b) (hcache : t.cache = bpin s.cache i)
    (hcall : t.call p = .locking i b) (hne : ∀ q, q ≠ p → t.call q = s.call q)
    (hpinned : t.pinned = s.pinned) (hpins : t.pins = s.pins) : CacheInv t := by
  have hx : Touch s t p i { s.cache.buf i with refcnt := (s.cache.buf i).refcnt + 1 } :=
    ⟨by rw [hcache]; rfl, by rw [hcache]; rfl, hne, rfl, id, fun _ _ hq => ⟨hq, rfl⟩⟩
  refine h.touch hx (fun b' hb' => h.pinned (hpinned ▸ hb')) (hpinned ▸ h.nodupPinned) ?_ ?_ ?_ ?_ ?_ ?_ ?_
  · refine (h.refs i).gain (i := .call p) ?_ ?_ fun r hr => hx.agree hpinned hpins (fun _ _ => rfl) ?_
    · simp only [State.Refers, hidle, Call.Waits, not_false_eq_true]
    · simp only [State.Refers, hcall, Call.Waits]
    · exact fun hp => absurd hp hr
  · refine fun j hj r => hx.agree hpinned hpins (fun _ hi => absurd hi hj) fun _ => ?_
    simp only [hidle, hcall, Call.Waits, Ne.symm hj]
  · rintro j b' hq
    rw [hcall] at hq
    obtain ⟨rfl, rfl⟩ := Call.locking.inj hq
    exact hb
  · intro j b' hq
    rw [hcall] at hq
    cases hq
  · intro j b' hq
    rw [hidle] at hq
    cases hq
  · intro hl
    refine ⟨⟨b, hb⟩, (h.locked hl).2.imp_right fun hread => ?_⟩
    rw [hidle] at hread
    obtain ⟨_, hread⟩ := hread
    cases hread
  · exact fun q _ hq => hq

theorem CacheInv.breadMiss (h : CacheInv s) {b : Uint} (hidle : s.call p = .idle)
    (hmiss : ∀ j ∈ s.cache.mru, (s.cache.buf j).blockno ≠ some b) (hfree : (s.cache.buf i).refcnt = 0)
    (hcache : t.cache = s.cache.set i { s.cache.buf i with blockno := some b, valid := false, refcnt := 1 })
    (hcall : t.call p = .locking i b) (hne : ∀ q, q ≠ p → t.call q = s.call q)
    (hpinned : t.pinned = s.pinned) (hpins : t.pins = s.pins) : CacheInv t := by
  have hat : t.cache.buf i = { s.cache.buf i with blockno := some b, valid := false, refcnt := 1 } := by
    rw [hcache, Cache.set_self]
  have hat_ne : ∀ j, j ≠ i → t.cache.buf j = s.cache.buf j := fun j hj => by
    rw [hcache, Cache.set_of_ne _ _ hj]
  have hunlocked := h.unlocked hfree
  -- no call is about the recycled buffer
  have hcalls : ∀ q j b', s.call q = .locking j b' → j ≠ i := fun q j b' hq hj =>
    h.no_ref hfree (.call q) (by simp only [State.Refers, hq, Call.Waits, hj])
  constructor
  case nodup =>
    rw [hcache]
    exact h.nodup
  case all =>
    rw [hcache]
    exact h.all
  case one =>
    intro j k b' hj hk
    by_cases hji : j = i
    · by_cases hki : k = i
      · rw [hji, hki]
      · rw [hji, hat] at hj
        rw [hat_ne k hki] at hk
        obtain rfl : b = b' := Option.some.inj hj
        exact absurd hk (hmiss k (h.all k))
    · rw [hat_ne j hji] at hj
      by_cases hki : k = i
      · rw [hki, hat] at hk
        obtain rfl : b = b' := Option.some.inj hk
        exact absurd hj (hmiss j (h.all j))
      · rw [hat_ne k hki] at hk
        exact h.one hj hk
  case refs =>
    intro j
    by_cases hj : j = i
    · subst hj
      rw [hat]
      have hzero := h.refs j
      rw [hfree] at hzero
      refine hzero.gain (i := .call p) (h.no_ref hfree _) ?_ fun r hr => ?_
      · simp only [State.Refers, hcall, Call.Waits]
      · refine iff_of_false ?_ (h.no_ref hfree r)
        cases r with
        | lock => simp [State.Refers, hat, hunlocked]
        | call q =>
            have hq : q ≠ p := fun hq => hr (by rw [hq])
            simpa only [State.Refers, hne q hq] using h.no_ref hfree (.call q)
        | log =>
            rintro ⟨b', hb', hb⟩
            rw [hat] at hb
            obtain rfl : b = b' := Option.some.inj hb
            obtain ⟨k, hk, -⟩ := h.pinned (hpinned ▸ hb')
            exact hmiss k (h.all k) hk
        | pin q k => simpa only [State.Refers, hpins] using h.no_ref hfree (.pin q k)
    · rw [hat_ne j hj]
      refine (h.refs j).congr fun r => ?_
      cases r with
      | lock => simp only [State.Refers, hat_ne j hj]
      | call q =>
          by_cases hq : q = p
          · subst hq
            simp only [State.Refers, hidle, hcall, Call.Waits, Ne.symm hj]
          · simp only [State.Refers, hne q hq]
      | log => simp only [State.Refers, hpinned, hat_ne j hj]
      | pin q k => simp only [State.Refers, hpins]
  case locking =>
    intro q j b' hq
    by_cases hqp : q = p
    · subst hqp
      rw [hcall] at hq
      obtain ⟨rfl, rfl⟩ := Call.locking.inj hq
      rw [hat]
    · rw [hne q hqp] at hq
      rw [hat_ne j (hcalls q j b' hq)]
      exact h.locking hq
  case reading =>
    intro q j b' hq
    by_cases hqp : q = p
    · subst hqp
      rw [hcall] at hq
      cases hq
    · rw [hne q hqp] at hq
      have hread := h.reading hq
      have hj : j ≠ i := by
        rintro rfl
        rw [hunlocked] at hread
        exact absurd hread.2.1 (by simp)
      rw [hat_ne j hj]
      exact hread
  case locked =>
    intro q j hq
    by_cases hj : j = i
    · subst hj
      rw [hat] at hq
      exact absurd (hunlocked.symm.trans hq) (by simp)
    · rw [hat_ne j hj] at hq ⊢
      refine ⟨(h.locked hq).1, (h.locked hq).2.imp_right fun hread => ?_⟩
      obtain ⟨b', hread⟩ := hread
      refine ⟨b', ?_⟩
      rw [hne q, hread]
      rintro rfl
      rw [hidle] at hread
      cases hread
  case pinned =>
    intro b' hb'
    obtain ⟨j, hj, hv⟩ := h.pinned (hpinned ▸ hb')
    have hji : j ≠ i := by
      rintro rfl
      exact h.no_ref hfree .log ⟨b', hpinned ▸ hb', hj⟩
    exact ⟨j, by rw [hat_ne j hji]; exact hj, by rw [hat_ne j hji]; exact hv⟩
  case nodupPinned =>
    rw [hpinned]
    exact h.nodupPinned

/-- The lock is taken by a call that waits for it. -/
theorem CacheInv.lock (h : CacheInv s) {b : Uint} (hwait : s.call p = .locking i b)
    (hfree : (s.cache.buf i).lock = none)
    (hcache : t.cache = s.cache.set i { s.cache.buf i with lock := some p })
    (hcall : t.call p = if (s.cache.buf i).valid then .idle else .reading i b)
    (hne : ∀ q, q ≠ p → t.call q = s.call q)
    (hpinned : t.pinned = s.pinned) (hpins : t.pins = s.pins) : CacheInv t := by
  have hb := h.locking hwait
  have hx : Touch s t p i { s.cache.buf i with lock := some p } := by
    refine ⟨by rw [hcache], by rw [hcache]; rfl, hne, rfl, id, fun q _ hq => ?_⟩
    rw [hfree] at hq
    cases hq
  have hnot : ∀ j, ¬ (t.call p).Waits j := fun j => by
    rw [hcall]
    split <;> exact id
  refine h.touch hx (fun b' hb' => h.pinned (hpinned ▸ hb')) (hpinned ▸ h.nodupPinned) ?_ ?_ ?_ ?_ ?_ ?_ ?_
  · refine (h.refs i).swap (i := .call p) (j := .lock) ?_ (hnot i) ?_ ?_ fun r hr hrl => ?_
    · simp only [State.Refers, hwait, Call.Waits]
    · simp [State.Refers, hfree]
    · simp [State.Refers, hx.at]
    · exact hx.agree hpinned hpins (fun hl => absurd hl hrl) fun hc => absurd hc hr
  · refine fun j hj r => hx.agree hpinned hpins (fun _ hi => absurd hi hj) fun _ => ?_
    refine iff_of_false (hnot j) ?_
    simp only [hwait, Call.Waits]
    exact Ne.symm hj
  · intro j b' hq
    rw [hcall] at hq
    split at hq <;> cases hq
  · intro j b' hq
    rw [hcall] at hq
    split at hq
    · cases hq
    · rename_i hv
      obtain ⟨rfl, rfl⟩ := Call.reading.inj hq
      exact ⟨rfl, hb, rfl, Bool.eq_false_iff.2 hv⟩
  · intro j b' hq
    rw [hwait] at hq
    cases hq
  · intro _
    refine ⟨⟨b, hb⟩, ?_⟩
    cases hv : (s.cache.buf i).valid with
    | true => exact Or.inl rfl
    | false =>
        rw [hv] at hcall
        exact Or.inr ⟨b, hcall⟩
  · intro q hq hl
    exact absurd (Option.some.inj hl) (Ne.symm hq)

/-- The block comes from the disk. -/
theorem CacheInv.read (h : CacheInv s) {b : Uint} {d : α} (hread : s.call p = .reading i b)
    (hcache : t.cache = s.cache.set i { s.cache.buf i with data := d, valid := true })
    (hcall : t.call p = .idle) (hne : ∀ q, q ≠ p → t.call q = s.call q)
    (hpinned : t.pinned = s.pinned) (hpins : t.pins = s.pins) : CacheInv t := by
  obtain ⟨hb, hl, -⟩ := h.reading hread
  have hx : Touch s t p i { s.cache.buf i with data := d, valid := true } := by
    refine ⟨by rw [hcache], by rw [hcache]; rfl, hne, rfl, fun _ => rfl, fun q hq hlq => ?_⟩
    rw [hl] at hlq
    exact absurd (Option.some.inj hlq).symm hq
  have hagree : ∀ j r, t.Refers j r ↔ s.Refers j r := fun j r =>
    hx.agree hpinned hpins (fun _ _ => rfl) fun _ => by simp only [hread, hcall, Call.Waits]
  refine h.touch hx (fun b' hb' => h.pinned (hpinned ▸ hb')) (hpinned ▸ h.nodupPinned)
    ((h.refs i).congr fun r => (hagree i r).symm) (fun j _ => hagree j) ?_ ?_ ?_ ?_ ?_
  · intro j b' hq
    rw [hcall] at hq
    cases hq
  · intro j b' hq
    rw [hcall] at hq
    cases hq
  · intro j b' hq
    rw [hread] at hq
    exact (Call.reading.inj hq).1.symm
  · exact fun _ => ⟨⟨b, hb⟩, Or.inl rfl⟩
  · exact fun q _ hq => hq

theorem CacheInv.drop (h : CacheInv s) (hdrop : s.call p = .dropping i) (hcache : t.cache = bdrop s.cache i)
    (hcall : t.call p = .idle) (hne : ∀ q, q ≠ p → t.call q = s.call q)
    (hpinned : t.pinned = s.pinned) (hpins : t.pins = s.pins) : CacheInv t := by
  have hx : Touch s t p i { s.cache.buf i with refcnt := (s.cache.buf i).refcnt - 1 } := by
    refine ⟨by rw [hcache, bdrop_buf]; rfl, ?_, hne, rfl, id, fun _ _ hq => ⟨hq, rfl⟩⟩
    rw [hcache]
    exact bdrop_mru (h.all i)
  refine h.touch hx (fun b' hb' => h.pinned (hpinned ▸ hb')) (hpinned ▸ h.nodupPinned) ?_ ?_ ?_ ?_ ?_ ?_ ?_
  · refine (h.refs i).lose (i := .call p) ?_ ?_ fun r hr => hx.agree hpinned hpins (fun _ _ => rfl) ?_
    · simp only [State.Refers, hdrop, Call.Waits]
    · simp only [State.Refers, hcall, Call.Waits, not_false_eq_true]
    · exact fun hp => absurd hp hr
  · refine fun j hj r => hx.agree hpinned hpins (fun _ hi => absurd hi hj) fun _ => ?_
    simp only [hdrop, hcall, Call.Waits, Ne.symm hj]
  · intro j b' hq
    rw [hcall] at hq
    cases hq
  · intro j b' hq
    rw [hcall] at hq
    cases hq
  · intro j b' hq
    rw [hdrop] at hq
    cases hq
  · intro hl
    refine ⟨(h.locked hl).1, (h.locked hl).2.imp_right fun hread => ?_⟩
    rw [hdrop] at hread
    obtain ⟨_, hread⟩ := hread
    cases hread
  · exact fun q _ hq => hq

theorem CacheInv.unlock (h : CacheInv s) (hidle : s.call p = .idle) (hl : (s.cache.buf i).lock = some p)
    (hcache : t.cache = s.cache.set i { s.cache.buf i with lock := none })
    (hcall : t.call p = .dropping i) (hne : ∀ q, q ≠ p → t.call q = s.call q)
    (hpinned : t.pinned = s.pinned) (hpins : t.pins = s.pins) : CacheInv t := by
  have hx : Touch s t p i { s.cache.buf i with lock := none } := by
    refine ⟨by rw [hcache], by rw [hcache]; rfl, hne, rfl, id, fun q hq hlq => ?_⟩
    rw [hl] at hlq
    exact absurd (Option.some.inj hlq).symm hq
  refine h.touch hx (fun b' hb' => h.pinned (hpinned ▸ hb')) (hpinned ▸ h.nodupPinned) ?_ ?_ ?_ ?_ ?_ ?_ ?_
  · refine (h.refs i).swap (i := .lock) (j := .call p) ?_ ?_ ?_ ?_ fun r hr hrl => ?_
    · simp [State.Refers, hl]
    · simp [State.Refers, hx.at]
    · simp only [State.Refers, hidle, Call.Waits, not_false_eq_true]
    · simp only [State.Refers, hcall, Call.Waits]
    · exact hx.agree hpinned hpins (fun hc => absurd hc hr) fun hc => absurd hc hrl
  · refine fun j hj r => hx.agree hpinned hpins (fun _ hi => absurd hi hj) fun _ => ?_
    simp only [hidle, hcall, Call.Waits, Ne.symm hj]
  · intro j b' hq
    rw [hcall] at hq
    cases hq
  · intro j b' hq
    rw [hcall] at hq
    cases hq
  · intro j b' hq
    rw [hidle] at hq
    cases hq
  · intro hnone
    cases hnone
  · intro q _ hnone
    cases hnone

/-- A step that changes the data or the pins of a buffer, outside of all calls of the process. -/
theorem CacheInv.recount (h : CacheInv s) {n : Nat} {d : α} (hidle : s.call p = .idle)
    (hcache : t.cache = s.cache.set i { s.cache.buf i with refcnt := n, data := d }) (hcall : t.call = s.call)
    (hpinned : ∀ b ∈ t.pinned, b ∈ s.pinned ∨
      ((s.cache.buf i).blockno = some b ∧ (s.cache.buf i).valid = true))
    (hnodup : t.pinned.Nodup)
    (hself : Touch s t p i { s.cache.buf i with refcnt := n, data := d } → Counts (t.Refers i) n)
    (hother : Touch s t p i { s.cache.buf i with refcnt := n, data := d } →
      ∀ j, j ≠ i → ∀ r, t.Refers j r ↔ s.Refers j r) : CacheInv t := by
  have hx : Touch s t p i { s.cache.buf i with refcnt := n, data := d } :=
    ⟨by rw [hcache], by rw [hcache]; rfl, fun q _ => by rw [hcall], rfl, id, fun _ _ hq => ⟨hq, rfl⟩⟩
  refine h.touch hx (fun b hb => ?_) hnodup (hself hx) (hother hx) ?_ ?_ ?_ ?_ ?_
  · exact (hpinned b hb).elim h.pinned fun hi => ⟨i, hi⟩
  · intro j b hq
    rw [hcall] at hq
    exact h.locking hq
  · intro j b hq
    rw [hcall, hidle] at hq
    cases hq
  · intro j b hq
    rw [hidle] at hq
    cases hq
  · intro hl
    rw [hcall]
    exact h.locked hl
  · exact fun q _ hq => hq

theorem CacheInv.change (h : CacheInv s) {d : α} (hidle : s.call p = .idle)
    (hcache : t.cache = s.cache.set i { s.cache.buf i with data := d }) (hcall : t.call = s.call)
    (hpinned : t.pinned = s.pinned) (hpins : t.pins = s.pins) : CacheInv t := by
  refine h.recount hidle hcache hcall (fun b hb => Or.inl (hpinned ▸ hb)) (hpinned ▸ h.nodupPinned)
    (fun hx => ?_) fun hx j hj r => ?_
  · refine (h.refs i).congr fun r => (hx.agree hpinned hpins (fun _ _ => rfl) fun _ => ?_).symm
    rw [hcall]
  · exact hx.agree hpinned hpins (fun _ hi => absurd hi hj) fun _ => by rw [hcall]

/-- The pins of a process on other buffers, and those of other processes, stay. -/
theorem CacheInv.pins [DecidableEq Pid] (h : CacheInv s) {n : Nat} (m : Nat) (hidle : s.call p = .idle)
    (hcache : t.cache = s.cache.set i { s.cache.buf i with refcnt := n }) (hcall : t.call = s.call)
    (hpinned : t.pinned = s.pinned)
    (hpins : t.pins = Function.update s.pins p (Function.update (s.pins p) i m))
    (hcount : (∀ r, (∀ k, r ≠ Ref.pin p k) → (t.Refers i r ↔ s.Refers i r)) → Counts (t.Refers i) n) :
    CacheInv t := by
  have hpin : ∀ q j, q ≠ p ∨ j ≠ i → t.pins q j = s.pins q j := by
    intro q j hqj
    rw [hpins]
    by_cases hq : q = p
    · subst hq
      rw [Function.update_self, Function.update_of_ne (hqj.resolve_left fun hne => hne rfl)]
    · rw [Function.update_of_ne hq]
  have hagree : ∀ j r, Touch s t p i { s.cache.buf i with refcnt := n } →
      ((∀ k, r ≠ Ref.pin p k) ∨ j ≠ i) → (t.Refers j r ↔ s.Refers j r) := by
    intro j r hx hr
    cases r with
    | lock =>
        by_cases hj : j = i
        · subst hj
          simp only [State.Refers, hx.at]
        · simp only [State.Refers, hx.at_ne hj]
    | call q => simp only [State.Refers, hcall]
    | log => simp only [State.Refers, hpinned, hx.blockno]
    | pin q k =>
        simp only [State.Refers]
        rw [hpin q j (hr.imp_left fun hne hq => hne k (by rw [hq]))]
  refine h.recount hidle hcache hcall (fun b hb => Or.inl (hpinned ▸ hb)) (hpinned ▸ h.nodupPinned)
    (fun hx => ?_) fun hx j hj r => hagree j r hx (Or.inr hj)
  exact hcount fun r hr => hagree i r hx (Or.inl hr)

theorem CacheInv.bpin [DecidableEq Pid] (h : CacheInv s) (hidle : s.call p = .idle)
    (hcache : t.cache = Bio.bpin s.cache i) (hcall : t.call = s.call) (hpinned : t.pinned = s.pinned)
    (hpins : t.pins = Function.update s.pins p (Function.update (s.pins p) i (s.pins p i + 1))) :
    CacheInv t := by
  refine h.pins _ hidle hcache hcall hpinned hpins fun hagree => ?_
  have hmine : t.pins p i = s.pins p i + 1 := by rw [hpins, Function.update_self, Function.update_self]
  refine (h.refs i).gain (i := .pin p (s.pins p i)) ?_ ?_ fun r hr => ?_
  · simp only [State.Refers, Nat.lt_irrefl, not_false_eq_true]
  · simp only [State.Refers, hmine, Nat.lt_succ_self]
  · by_cases hpin : ∃ k, r = .pin p k
    · obtain ⟨k, rfl⟩ := hpin
      have hk : k ≠ s.pins p i := fun hk => hr (by rw [hk])
      simp only [State.Refers, hmine]
      omega
    · exact hagree r fun k hk => hpin ⟨k, hk⟩

theorem CacheInv.bunpin [DecidableEq Pid] (h : CacheInv s) (hidle : s.call p = .idle) (hpos : 0 < s.pins p i)
    (hcache : t.cache = Bio.bunpin s.cache i) (hcall : t.call = s.call) (hpinned : t.pinned = s.pinned)
    (hpins : t.pins = Function.update s.pins p (Function.update (s.pins p) i (s.pins p i - 1))) :
    CacheInv t := by
  refine h.pins _ hidle hcache hcall hpinned hpins fun hagree => ?_
  have hmine : t.pins p i = s.pins p i - 1 := by rw [hpins, Function.update_self, Function.update_self]
  refine (h.refs i).lose (i := .pin p (s.pins p i - 1)) ?_ ?_ fun r hr => ?_
  · simp only [State.Refers]
    omega
  · simp only [State.Refers, hmine, Nat.lt_irrefl, not_false_eq_true]
  · by_cases hpin : ∃ k, r = .pin p k
    · obtain ⟨k, rfl⟩ := hpin
      have hk : k ≠ s.pins p i - 1 := fun hk => hr (by rw [hk])
      simp only [State.Refers, hmine]
      omega
    · exact hagree r fun k hk => hpin ⟨k, hk⟩

/-- The other references do not depend on what the log has pinned. -/
theorem Touch.agree_log {x : Buf Pid α} {j : Fin NBUF} {r : Ref Pid} (hx : Touch s t p i x)
    (hlock : x.lock = (s.cache.buf i).lock) (hcall : t.call = s.call) (hpins : t.pins = s.pins)
    (hr : r ≠ .log) : t.Refers j r ↔ s.Refers j r := by
  cases r with
  | lock =>
      by_cases hj : j = i
      · subst hj
        simp only [State.Refers, hx.at, hlock]
      · simp only [State.Refers, hx.at_ne hj]
  | call q => simp only [State.Refers, hcall]
  | log => exact absurd rfl hr
  | pin q k => simp only [State.Refers, hpins]

/-- `log_write` pins the buffer of a block that is new to the header. -/
theorem CacheInv.logPin (h : CacheInv s) {b : Uint} (hidle : s.call p = .idle)
    (hb : (s.cache.buf i).blockno = some b) (hv : (s.cache.buf i).valid = true) (hnew : b ∉ s.pinned)
    (hcache : t.cache = Bio.bpin s.cache i) (hcall : t.call = s.call) (hpinned : t.pinned = s.pinned ++ [b])
    (hpins : t.pins = s.pins) : CacheInv t := by
  have hmem : ∀ b', b' ∈ t.pinned ↔ b' ∈ s.pinned ∨ b' = b := fun b' => by
    rw [hpinned, List.mem_append, List.mem_singleton]
  refine h.recount hidle hcache hcall (fun b' hb' => ?_) ?_ (fun hx => ?_) fun hx j hj r => ?_
  · rcases (hmem b').1 hb' with hold | rfl
    · exact Or.inl hold
    · exact Or.inr ⟨hb, hv⟩
  · rw [hpinned, List.nodup_append]
    refine ⟨h.nodupPinned, List.nodup_singleton b, fun b' hb' c hc => ?_⟩
    rw [List.mem_singleton.1 hc]
    rintro rfl
    exact hnew hb'
  · refine (h.refs i).gain (i := .log) ?_ ?_ fun r hr => hx.agree_log rfl hcall hpins hr
    · rintro ⟨b', hb', hib'⟩
      rw [hb] at hib'
      exact hnew (Option.some.inj hib' ▸ hb')
    · exact ⟨b, (hmem b).2 (Or.inr rfl), by rw [hx.blockno, hb]⟩
  · by_cases hr : r = .log
    · subst hr
      simp only [State.Refers, hx.blockno, hmem]
      refine exists_congr fun b' => and_congr_left fun hjb => or_iff_left ?_
      rintro rfl
      exact hj (h.one hjb hb)
    · exact hx.agree_log rfl hcall hpins hr

/-- `install_trans` takes the pin away. -/
theorem CacheInv.logUnpin (h : CacheInv s) {b : Uint} (hidle : s.call p = .idle)
    (hb : (s.cache.buf i).blockno = some b) (hmem : b ∈ s.pinned) (hcache : t.cache = Bio.bunpin s.cache i)
    (hcall : t.call = s.call) (hpinned : t.pinned = s.pinned.erase b) (hpins : t.pins = s.pins) :
    CacheInv t := by
  have hiff : ∀ b', b' ∈ t.pinned ↔ b' ≠ b ∧ b' ∈ s.pinned := fun b' => by
    rw [hpinned, h.nodupPinned.mem_erase_iff]
  refine h.recount hidle hcache hcall (fun b' hb' => Or.inl ((hiff b').1 hb').2) ?_ (fun hx => ?_)
    fun hx j hj r => ?_
  · rw [hpinned]
    exact h.nodupPinned.erase b
  · refine (h.refs i).lose (i := .log) ⟨b, hmem, hb⟩ ?_ fun r hr => hx.agree_log rfl hcall hpins hr
    rintro ⟨b', hb', hib'⟩
    rw [hx.blockno, hb] at hib'
    exact ((hiff b').1 hb').1 (Option.some.inj hib').symm
  · by_cases hr : r = .log
    · subst hr
      simp only [State.Refers, hx.blockno, hiff]
      refine exists_congr fun b' => and_congr_left fun hjb => and_iff_right ?_
      rintro rfl
      exact hj (h.one hjb hb)
    · exact hx.agree_log rfl hcall hpins hr

end Calls

end Xv6.Bio
