import Xv6.Pipe.Model

set_option autoImplicit false

/-! # A pipe is a lossless FIFO, as long as no `copyout` fails

What matters for the order of bytes is a queue with histories (`Flow`): the bytes stored are the
bytes taken followed by the bytes in the buffer, and the bytes taken are the bytes delivered or
copied out by the reader that holds the lock, except for those whose `copyout` failed. `piperead`
advances `nread` before it calls `copyout`, so such a byte is gone: the pipe is a FIFO all along a
run exactly if no `copyout` fails in it. -/

namespace Xv6.Pipe

open Xv6.Lib

/-! ## The holder of the lock -/

/-- `pi->lock` is held at this point of the code. -/
def Pc.critical : Pc → Bool
  | .writeLoop .. | .writeEnd .. | .readWait .. | .readCopy .. | .readEnd .. => true
  | _ => false

/-- The bytes a call of `piperead` has copied out so far. -/
def Pc.got : Pc → List UInt8
  | .readCopy _ _ got | .readEnd _ got => got
  | _ => []

variable {Pid : Type}

/-- The bytes the holder of the lock has copied out so far. -/
def State.copied (s : State Pid) : List UInt8 :=
  match s.lock with
  | none => []
  | some p => (s.pc p).got

/-- The processes at critical points are the holder of the lock. -/
def Locked (s : State Pid) : Prop := ∀ p, (s.pc p).critical = true ↔ s.lock = some p

/-- In a copying loop `i` counts the bytes copied out. -/
def Counted (s : State Pid) : Prop :=
  ∀ p i got, (s.pc p = .readEnd i got ∨ ∃ n, s.pc p = .readCopy n i got) → i = got.length

theorem copied_of_lock_none {s : State Pid} (h : s.lock = none) : s.copied = [] := by
  unfold State.copied
  rw [h]

theorem copied_of_lock {s : State Pid} {p : Pid} (h : s.lock = some p) : s.copied = (s.pc p).got := by
  unfold State.copied
  rw [h]

theorem wakeupReaders_pc (s : State Pid) (q : Pid) :
    (wakeupReaders s).pc q = s.pc q ∨
      ∃ n, s.pc q = .readSleep n ∧ (wakeupReaders s).pc q = .readAcq n := by
  unfold wakeupReaders
  cases h : s.pc q <;> simp [h]

theorem wakeupWriters_pc (s : State Pid) (q : Pid) :
    (wakeupWriters s).pc q = s.pc q ∨
      ∃ n i, s.pc q = .writeSleep n i ∧ (wakeupWriters s).pc q = .writeAcq n i := by
  unfold wakeupWriters
  cases h : s.pc q <;> simp [h]

section Update

variable [DecidableEq Pid]

@[simp] theorem setPc_self (s : State Pid) (p : Pid) (c : Pc) : (s.setPc p c).pc p = c :=
  Function.update_self ..

theorem setPc_of_ne (s : State Pid) {p q : Pid} (c : Pc) (h : q ≠ p) :
    (s.setPc p c).pc q = s.pc q :=
  Function.update_of_ne h ..

/-- The holder of the lock moves on inside the critical section. -/
theorem Locked.move {s t : State Pid} (h : Locked s) {p : Pid} {c : Pc} (hlock : s.lock = some p)
    (hpc : t.pc = s.pc) (htl : t.lock = s.lock) (hc : c.critical = true) : Locked (t.setPc p c) := by
  intro q
  change _ ↔ t.lock = some q
  rw [htl]
  by_cases hq : q = p
  · subst hq
    rw [setPc_self]
    exact ⟨fun _ => hlock, fun _ => hc⟩
  · rw [setPc_of_ne _ _ hq, hpc]
    exact h q

/-- The holder of the lock releases it; sleepers may have been woken before. -/
theorem Locked.release {s t : State Pid} (h : Locked s) {p : Pid} {c : Pc} (hlock : s.lock = some p)
    (hpc : ∀ q, (t.pc q).critical = (s.pc q).critical) (hc : c.critical = false) :
    Locked (t.release p c) := by
  intro q
  change _ ↔ none = some q
  by_cases hq : q = p
  · subst hq
    simp [State.release, hc]
  · have hfree : (s.pc q).critical ≠ true := fun hcr => by
      have := (h q).1 hcr
      rw [hlock, Option.some.injEq] at this
      exact hq this.symm
    simp only [State.release, setPc_of_ne _ _ hq]
    simp [hpc q, hfree]

/-- A process moves between points outside the critical section. -/
theorem Locked.outside {s : State Pid} (h : Locked s) {p : Pid} {c : Pc}
    (hp : (s.pc p).critical = false) (hc : c.critical = false) : Locked (s.setPc p c) := by
  intro q
  change _ ↔ s.lock = some q
  by_cases hq : q = p
  · subst hq
    rw [setPc_self, hc, ← h q, hp]
  · rw [setPc_of_ne _ _ hq]
    exact h q

/-- A process takes the free lock. -/
theorem Locked.take {s : State Pid} (h : Locked s) {p : Pid} {c : Pc} (hlock : s.lock = none)
    (hc : c.critical = true) : Locked ({ s with lock := some p }.setPc p c) := by
  intro q
  change _ ↔ some p = some q
  by_cases hq : q = p
  · subst hq
    rw [setPc_self]
    exact ⟨fun _ => rfl, fun _ => hc⟩
  · have hfree : (s.pc q).critical ≠ true := fun hcr => by
      have := (h q).1 hcr
      rw [hlock] at this
      cases this
    rw [setPc_of_ne _ _ hq]
    exact ⟨fun hcr => absurd hcr hfree, fun he => absurd (Option.some.inj he).symm hq⟩

end Update

theorem wakeupReaders_critical (s : State Pid) (q : Pid) :
    ((wakeupReaders s).pc q).critical = (s.pc q).critical := by
  rcases wakeupReaders_pc s q with h | ⟨n, h, h'⟩
  · rw [h]
  · rw [h, h']
    rfl

theorem wakeupWriters_critical (s : State Pid) (q : Pid) :
    ((wakeupWriters s).pc q).critical = (s.pc q).critical := by
  rcases wakeupWriters_pc s q with h | ⟨n, i, h, h'⟩
  · rw [h]
  · rw [h, h']
    rfl

/-! ## The queue -/

/-- The histories of the bytes, with the contents of the buffer. -/
structure Flow where
  stored : List UInt8
  taken : List UInt8
  delivered : List UInt8
  copied : List UInt8
  buffered : List UInt8
  lost : Nat

def State.flow (s : State Pid) : Flow :=
  ⟨s.stored, s.taken, s.delivered, s.copied, s.pi.contents, s.lost⟩

structure Flow.Ok (f : Flow) : Prop where
  queue : f.taken ++ f.buffered = f.stored
  count : (f.delivered ++ f.copied).length + f.lost = f.taken.length
  order : f.lost = 0 → f.delivered ++ f.copied = f.taken

/-- Every byte stored is delivered, copied out by the reader at work, or still in the buffer, in the
    order it was stored. -/
def Flow.Fifo (f : Flow) : Prop := f.delivered ++ f.copied ++ f.buffered = f.stored

theorem Flow.Ok.fifo_iff {f : Flow} (h : f.Ok) : f.Fifo ↔ f.lost = 0 := by
  constructor
  · intro hf
    have hlen := congrArg List.length (hf.trans h.queue.symm)
    have hcount := h.count
    rw [List.length_append, @List.length_append _ f.taken] at hlen
    omega
  · intro h0
    rw [Flow.Fifo, h.order h0]
    exact h.queue

/-- `pipewrite` stores a byte. -/
theorem Flow.Ok.store {f : Flow} (h : f.Ok) (ch : UInt8) :
    Flow.Ok { f with stored := f.stored ++ [ch], buffered := f.buffered ++ [ch] } :=
  ⟨by rw [← h.queue]; simp, h.count, h.order⟩

/-- `piperead` takes a byte and copies it out. -/
theorem Flow.Ok.take {f : Flow} (h : f.Ok) {ch : UInt8} {rest : List UInt8}
    (hb : f.buffered = ch :: rest) :
    Flow.Ok { f with taken := f.taken ++ [ch], copied := f.copied ++ [ch], buffered := rest } := by
  refine ⟨?_, ?_, fun h0 => ?_⟩
  · rw [← h.queue, hb]
    simp
  · have := h.count
    simp only [List.length_append, List.length_singleton] at this ⊢
    omega
  · have := h.order h0
    simp only at this ⊢
    rw [← this]
    simp

/-- `piperead` takes a byte that `copyout` fails to deliver. -/
theorem Flow.Ok.lose {f : Flow} (h : f.Ok) {ch : UInt8} {rest : List UInt8}
    (hb : f.buffered = ch :: rest) :
    Flow.Ok { f with taken := f.taken ++ [ch], buffered := rest, lost := f.lost + 1 } := by
  refine ⟨?_, ?_, fun h0 => ?_⟩
  · rw [← h.queue, hb]
    simp
  · have := h.count
    simp only [List.length_append, List.length_singleton] at this ⊢
    omega
  · exact absurd h0 (Nat.succ_ne_zero _)

/-- `piperead` returns. -/
theorem Flow.Ok.report {f : Flow} (h : f.Ok) :
    Flow.Ok { f with delivered := f.delivered ++ f.copied, copied := [] } := by
  refine ⟨h.queue, ?_, fun h0 => ?_⟩
  · simpa using h.count
  · simpa using h.order h0

/-! ## The invariant -/

structure Inv (s : State Pid) : Prop where
  locked : Locked s
  counted : Counted s
  room : (s.pi.nwrite - s.pi.nread).toNat ≤ PIPESIZE
  flow : s.flow.Ok

theorem pipesize_dvd : PIPESIZE ∣ 2 ^ 32 := by decide

theorem not_full_room {s : State Pid} (h : Inv s) (hfull : ¬ s.pi.full) :
    (s.pi.nwrite - s.pi.nread).toNat < PIPESIZE := by
  refine lt_of_le_of_ne h.room fun he => hfull ?_
  have hsum := Ring.add_ofNat_sub s.pi.nread s.pi.nwrite
  rw [he] at hsum
  exact hsum.symm

theorem contents_push {pi : PipeBuf} (hroom : (pi.nwrite - pi.nread).toNat < PIPESIZE) (ch : UInt8) :
    (pi.push ch).contents = pi.contents ++ [ch] :=
  Ring.contents_push pipesize_dvd pi.data ch hroom (by decide)

theorem push_room {pi : PipeBuf} (hroom : (pi.nwrite - pi.nread).toNat < PIPESIZE) (ch : UInt8) :
    ((pi.push ch).nwrite - (pi.push ch).nread).toNat ≤ PIPESIZE := by
  have hlt : PIPESIZE < 2 ^ 32 := by decide
  change (pi.nwrite + 1 - pi.nread).toNat ≤ _
  rw [Ring.toNat_succ_sub (by omega)]
  omega

theorem contents_pop {pi : PipeBuf} (h : pi.nread ≠ pi.nwrite) :
    pi.contents = pi.front :: { pi with nread := pi.nread + 1 }.contents :=
  Ring.contents_pop pi.data h

theorem pop_room {pi : PipeBuf} (hroom : (pi.nwrite - pi.nread).toNat ≤ PIPESIZE)
    (h : pi.nread ≠ pi.nwrite) : (pi.nwrite - (pi.nread + 1)).toNat ≤ PIPESIZE := by
  rw [Ring.toNat_sub_succ h]
  omega

theorem lock_of_critical {s : State Pid} (h : Inv s) {p : Pid} {c : Pc} (hp : s.pc p = c)
    (hc : c.critical = true) : s.lock = some p :=
  (h.locked p).1 (by rw [hp]; exact hc)

section Steps

variable [DecidableEq Pid]

theorem Counted.setPc {s t : State Pid} (h : Counted s) (hpc : t.pc = s.pc) {p : Pid} {c : Pc}
    (hc : ∀ i got, (c = .readEnd i got ∨ ∃ n, c = .readCopy n i got) → i = got.length) :
    Counted (t.setPc p c) := by
  intro q i got hq
  by_cases hqp : q = p
  · subst hqp
    rw [setPc_self] at hq
    exact hc i got hq
  · rw [setPc_of_ne _ _ hqp, hpc] at hq
    exact h q i got hq

omit [DecidableEq Pid] in
theorem Counted.wakeupReaders {s : State Pid} (h : Counted s) : Counted (wakeupReaders s) := by
  intro q i got hq
  rcases wakeupReaders_pc s q with he | ⟨n, -, he⟩
  · rw [he] at hq
    exact h q i got hq
  · rw [he] at hq
    rcases hq with hq | ⟨m, hq⟩ <;> cases hq

omit [DecidableEq Pid] in
theorem Counted.wakeupWriters {s : State Pid} (h : Counted s) : Counted (wakeupWriters s) := by
  intro q i got hq
  rcases wakeupWriters_pc s q with he | ⟨n, k, -, he⟩
  · rw [he] at hq
    exact h q i got hq
  · rw [he] at hq
    rcases hq with hq | ⟨m, hq⟩ <;> cases hq

/-- The holder of the lock has moved on to `c`. -/
theorem flow_setPc (t : State Pid) {p : Pid} (c : Pc) (hlock : t.lock = some p) :
    (t.setPc p c).flow = ⟨t.stored, t.taken, t.delivered, c.got, t.pi.contents, t.lost⟩ := by
  have hcopied : (t.setPc p c).copied = c.got := by
    rw [copied_of_lock (s := t.setPc p c) hlock, setPc_self]
  unfold State.flow
  rw [hcopied]
  rfl

omit [DecidableEq Pid] in
theorem flow_of_lock_none (t : State Pid) (hlock : t.lock = none) :
    t.flow = ⟨t.stored, t.taken, t.delivered, [], t.pi.contents, t.lost⟩ := by
  unfold State.flow
  rw [copied_of_lock_none hlock]

omit [DecidableEq Pid] in
theorem flow_of_lock (t : State Pid) {p : Pid} (hlock : t.lock = some p) :
    t.flow = ⟨t.stored, t.taken, t.delivered, (t.pc p).got, t.pi.contents, t.lost⟩ := by
  unfold State.flow
  rw [copied_of_lock hlock]

/-- A process outside the critical section moves; nothing else changes. -/
theorem Inv.outside {s : State Pid} (h : Inv s) {p : Pid} {c : Pc}
    (hp : (s.pc p).critical = false) (hc : c.critical = false) : Inv (s.setPc p c) := by
  refine ⟨h.locked.outside hp hc, h.counted.setPc rfl fun i got hcc => ?_, h.room, ?_⟩
  · rcases hcc with rfl | ⟨n, rfl⟩ <;> cases hc
  · have hcopied : (s.setPc p c).copied = s.copied := by
      change (match s.lock with | none => [] | some q => ((s.setPc p c).pc q).got) = _
      unfold State.copied
      cases hl : s.lock with
      | none => rfl
      | some q =>
          have hqp : q ≠ p := fun he => by
            have := (h.locked q).2 hl
            rw [he, hp] at this
            cases this
          simp only [setPc_of_ne s c hqp]
    have hflow : (s.setPc p c).flow = s.flow := by
      unfold State.flow
      rw [hcopied]
      rfl
    rw [hflow]
    exact h.flow

theorem Inv.acquire {s t : State Pid} (h : Inv s) {p : Pid} (ht : acquire s p = some t) : Inv t := by
  unfold Pipe.acquire at ht
  split at ht
  · next hfree =>
    have htake : ∀ c : Pc, c.critical = true → c.got = [] →
        (∀ i got, (c = .readEnd i got ∨ ∃ n, c = .readCopy n i got) → i = got.length) →
        Inv ({ s with lock := some p }.setPc p c) := by
      intro c hc hgot hcount
      refine ⟨h.locked.take hfree.1 hc, h.counted.setPc rfl hcount, h.room, ?_⟩
      have hflow : ({ s with lock := some p }.setPc p c).flow = s.flow := by
        unfold State.flow
        rw [copied_of_lock_none hfree.1, copied_of_lock (p := p) rfl, setPc_self, hgot]
        rfl
      rw [hflow]
      exact h.flow
    cases hp : s.pc p <;> simp only [hp, reduceCtorEq, Option.some.injEq] at ht
    · subst ht
      exact htake _ rfl rfl fun i got hc => by rcases hc with hc | ⟨m, hc⟩ <;> cases hc
    · subst ht
      exact htake _ rfl rfl fun i got hc => by rcases hc with hc | ⟨m, hc⟩ <;> cases hc
  · cases ht

/-- The holder of the lock moves on without touching the pipe or the bytes copied out. -/
theorem Inv.move {s : State Pid} (h : Inv s) {p : Pid} {c : Pc} (hlock : s.lock = some p)
    (hc : c.critical = true) (hgot : c.got = (s.pc p).got)
    (hcount : ∀ i got, (c = .readEnd i got ∨ ∃ n, c = .readCopy n i got) → i = got.length) :
    Inv (s.setPc p c) := by
  refine ⟨h.locked.move hlock rfl rfl hc, h.counted.setPc rfl hcount, h.room, ?_⟩
  have hflow : (s.setPc p c).flow = s.flow := by
    unfold State.flow
    rw [copied_of_lock hlock, copied_of_lock (s := s.setPc p c) hlock, setPc_self, hgot]
    rfl
  rw [hflow]
  exact h.flow

/-- The holder of the lock gives it up, with nothing copied out and possibly after a wakeup. -/
theorem Inv.release {s t : State Pid} (h : Inv s) {p : Pid} {c : Pc} (hlock : s.lock = some p)
    (hgot : (s.pc p).got = []) (hc : c.critical = false)
    (hcrit : ∀ q, (t.pc q).critical = (s.pc q).critical) (hcounted : Counted t)
    (hpi : t.pi = s.pi) (hst : t.stored = s.stored) (htk : t.taken = s.taken)
    (hdl : t.delivered = s.delivered) (hlo : t.lost = s.lost) : Inv (t.release p c) := by
  refine ⟨h.locked.release hlock hcrit hc, ?_, by simpa [State.release, State.setPc, hpi] using h.room, ?_⟩
  · refine Counted.setPc (s := { t with lock := none }) hcounted rfl fun i got hcc => ?_
    rcases hcc with rfl | ⟨n, rfl⟩ <;> cases hc
  · have hflow : (t.release p c).flow = s.flow := by
      unfold State.flow
      rw [copied_of_lock hlock, hgot, copied_of_lock_none (s := t.release p c) rfl]
      simp [State.release, State.setPc, hpi, hst, htk, hdl, hlo]
    rw [hflow]
    exact h.flow

theorem Inv.writeLoop {s : State Pid} (h : Inv s) {p : Pid} {n i : Int}
    (hp : s.pc p = .writeLoop n i) (copyin : Option UInt8) : Inv (writeLoop s p n i copyin) := by
  have hlock : s.lock = some p := lock_of_critical h hp rfl
  have hgot : (s.pc p).got = [] := by rw [hp]; rfl
  have hmove : ∀ c : Pc, c.critical = true → c.got = [] →
      (∀ j got, (c = .readEnd j got ∨ ∃ m, c = .readCopy m j got) → j = got.length) →
      Inv (s.setPc p c) := fun c hc hg hcount => h.move hlock hc (hg.trans hgot.symm) hcount
  have hend : Inv (s.setPc p (.writeEnd i)) :=
    hmove _ rfl rfl fun j got hc => by rcases hc with hc | ⟨m, hc⟩ <;> cases hc
  unfold Pipe.writeLoop
  split
  · split
    · exact h.release hlock hgot rfl (fun _ => rfl) h.counted rfl rfl rfl rfl rfl
    · split
      · exact h.release hlock hgot rfl (wakeupReaders_critical s) h.counted.wakeupReaders
          rfl rfl rfl rfl rfl
      · next hfull =>
        cases copyin with
        | none => exact hend
        | some ch =>
            have hroom := not_full_room h hfull
            refine ⟨h.locked.move hlock rfl rfl rfl, h.counted.setPc rfl fun j got hc => ?_,
              push_room hroom ch, ?_⟩
            · rcases hc with hc | ⟨m, hc⟩ <;> cases hc
            · have hok := h.flow.store ch
              rw [flow_of_lock s hlock, hgot] at hok
              simp only
              rw [flow_setPc]
              · change Flow.Ok ⟨_, _, _, _, (s.pi.push ch).contents, _⟩
                rw [contents_push hroom]
                exact hok
              · exact hlock
  · exact hend

theorem Inv.writeEnd {s : State Pid} (h : Inv s) {p : Pid} {i : Int} (hp : s.pc p = .writeEnd i) :
    Inv (writeEnd s p) :=
  h.release (lock_of_critical h hp rfl) (by rw [hp]; rfl) rfl (wakeupReaders_critical s)
    h.counted.wakeupReaders rfl rfl rfl rfl rfl

theorem Inv.readWait {s : State Pid} (h : Inv s) {p : Pid} {n : Int} (hp : s.pc p = .readWait n) :
    Inv (readWait s p n) := by
  have hlock : s.lock = some p := lock_of_critical h hp rfl
  have hgot : (s.pc p).got = [] := by rw [hp]; rfl
  unfold Pipe.readWait
  split
  · split
    · exact h.release hlock hgot rfl (fun _ => rfl) h.counted rfl rfl rfl rfl rfl
    · exact h.release hlock hgot rfl (fun _ => rfl) h.counted rfl rfl rfl rfl rfl
  · refine h.move hlock rfl hgot.symm fun j got hc => ?_
    rcases hc with hc | ⟨m, hc⟩ <;> cases hc
    rfl

theorem Inv.readCopy {s : State Pid} (h : Inv s) {p : Pid} {n i : Int} {got : List UInt8}
    (hp : s.pc p = .readCopy n i got) (copyout : Bool) : Inv (readCopy s p n i got copyout) := by
  have hlock : s.lock = some p := lock_of_critical h hp rfl
  have hi : i = got.length := h.counted p i got (Or.inr ⟨n, hp⟩)
  have hend : Inv (s.setPc p (.readEnd i got)) := by
    refine h.move hlock rfl (by rw [hp]; rfl) fun j got' hc => ?_
    rcases hc with hc | ⟨m, hc⟩ <;> cases hc
    exact hi
  unfold Pipe.readCopy
  split
  · split
    · exact hend
    · next hne =>
      have hb : s.flow.buffered = s.pi.front :: _ := contents_pop hne
      cases copyout with
      | true =>
          refine ⟨h.locked.move hlock rfl rfl rfl, h.counted.setPc rfl fun j got' hc => ?_,
            pop_room h.room hne, ?_⟩
          · rcases hc with hc | ⟨m, hc⟩ <;> cases hc
            rw [hi, List.length_append, List.length_singleton]
            rfl
          · have hok := h.flow.take hb
            rw [flow_of_lock s hlock, hp] at hok
            simp only [if_true]
            rw [flow_setPc]
            · exact hok
            · exact hlock
      | false =>
          refine ⟨h.locked.move hlock rfl rfl rfl, h.counted.setPc rfl fun j got' hc => ?_,
            pop_room h.room hne, ?_⟩
          · rcases hc with hc | ⟨m, hc⟩ <;> cases hc
            exact hi
          · have hok := h.flow.lose hb
            rw [flow_of_lock s hlock, hp] at hok
            simp only [Bool.false_eq_true, if_false]
            rw [flow_setPc]
            · exact hok
            · exact hlock
  · exact hend

theorem Inv.readEnd {s : State Pid} (h : Inv s) {p : Pid} {i : Int} {got : List UInt8}
    (hp : s.pc p = .readEnd i got) : Inv (readEnd s p i got) := by
  have hlock : s.lock = some p := lock_of_critical h hp rfl
  have hi : i = got.length := h.counted p i got (Or.inl hp)
  have hall : got.take i.toNat = got := by rw [hi]; simp
  refine ⟨h.locked.release hlock (wakeupWriters_critical _) rfl, ?_, h.room, ?_⟩
  · refine Counted.setPc (s := { Pipe.wakeupWriters s with lock := none }) h.counted.wakeupWriters rfl
      fun j got' hc => ?_
    rcases hc with hc | ⟨m, hc⟩ <;> cases hc
  · have hok := h.flow.report
    rw [flow_of_lock s hlock, hp] at hok
    rw [flow_of_lock_none (Pipe.readEnd s p i got) rfl]
    unfold Pipe.readEnd
    simp only [hall]
    exact hok

omit [DecidableEq Pid] in
theorem Inv.pipeclose {s : State Pid} (h : Inv s) (hlock : s.lock = none) (writable : Bool) :
    Inv (pipeclose s writable) := by
  have hfree : ∀ t : State Pid, t.lock = none → (∀ q, (t.pc q).critical = (s.pc q).critical) →
      Locked t := by
    intro t ht hcrit q
    rw [hcrit, h.locked q, hlock, ht]
  unfold Pipe.pipeclose
  cases writable with
  | true =>
      simp only [if_true]
      refine ⟨hfree _ hlock (wakeupReaders_critical _), Counted.wakeupReaders h.counted, h.room, ?_⟩
      have hok := h.flow
      rw [flow_of_lock_none s hlock] at hok
      rw [flow_of_lock_none]
      · exact hok
      · exact hlock
  | false =>
      simp only [Bool.false_eq_true, if_false]
      refine ⟨hfree _ hlock (wakeupWriters_critical _), Counted.wakeupWriters h.counted, h.room, ?_⟩
      have hok := h.flow
      rw [flow_of_lock_none s hlock] at hok
      rw [flow_of_lock_none]
      · exact hok
      · exact hlock

theorem Inv.kkill {s : State Pid} (h : Inv s) (p : Pid) : Inv (kkill s p) := by
  have hk : Inv { s with killed := Function.update s.killed p true } := ⟨h.locked, h.counted, h.room, h.flow⟩
  unfold Pipe.kkill
  simp only
  split
  · next n i hp => exact hk.outside (by rw [hp]; rfl) rfl
  · next n hp => exact hk.outside (by rw [hp]; rfl) rfl
  · exact hk

theorem Inv.step {s t : State Pid} {l : Label Pid} (h : Inv s) (hstep : step s l = some t) :
    Inv t := by
  unfold Pipe.step at hstep
  cases l with
  | callWrite p n =>
      cases hp : s.pc p <;> simp only [hp, reduceCtorEq, Option.some.injEq] at hstep
      subst hstep
      exact h.outside (by rw [hp]; rfl) rfl
  | callRead p n =>
      cases hp : s.pc p <;> simp only [hp, reduceCtorEq, Option.some.injEq] at hstep
      subst hstep
      exact h.outside (by rw [hp]; rfl) rfl
  | acquire p => exact h.acquire hstep
  | writeLoop p copyin =>
      cases hp : s.pc p <;> simp only [hp, reduceCtorEq, Option.some.injEq] at hstep
      subst hstep
      exact h.writeLoop hp copyin
  | writeEnd p =>
      cases hp : s.pc p <;> simp only [hp, reduceCtorEq, Option.some.injEq] at hstep
      subst hstep
      exact h.writeEnd hp
  | readWait p =>
      cases hp : s.pc p <;> simp only [hp, reduceCtorEq, Option.some.injEq] at hstep
      subst hstep
      exact h.readWait hp
  | readCopy p copyout =>
      cases hp : s.pc p <;> simp only [hp, reduceCtorEq, Option.some.injEq] at hstep
      subst hstep
      exact h.readCopy hp copyout
  | readEnd p =>
      cases hp : s.pc p <;> simp only [hp, reduceCtorEq, Option.some.injEq] at hstep
      subst hstep
      exact h.readEnd hp
  | pipeclose p writable =>
      simp only at hstep
      split at hstep
      · next hc =>
          rw [Option.some.injEq] at hstep
          subst hstep
          exact h.pipeclose hc.2.1 writable
      · cases hstep
  | kkill p =>
      rw [Option.some.injEq] at hstep
      subst hstep
      exact h.kkill p

omit [DecidableEq Pid] in
theorem inv_init {s : State Pid} (h : Init s) : Inv s := by
  obtain ⟨hr, hw, -, -, hlock, hpc, hst, htk, hdl, hlo⟩ := h
  refine ⟨fun p => ?_, fun p i got hp => ?_, ?_, ?_⟩
  · rw [hpc, hlock]
    simp [Pc.critical]
  · rw [hpc] at hp
    rcases hp with hp | ⟨n, hp⟩ <;> cases hp
  · rw [hr, hw]
    decide
  · have hbuf : s.pi.contents = [] := Ring.contents_eq_nil_iff.2 (hr.trans hw.symm)
    unfold State.flow
    rw [copied_of_lock_none hlock, hst, htk, hdl, hlo, hbuf]
    exact ⟨rfl, rfl, fun _ => rfl⟩

/-! ## The pipe is a FIFO exactly while no `copyout` fails -/

/-- In this step `piperead` takes a byte out of the buffer and `copyout` fails to deliver it. -/
def CopyoutFails (s : State Pid) : Label Pid → Prop
  | .readCopy p copyout => copyout = false ∧
    ∃ n i got, s.pc p = .readCopy n i got ∧ i < n ∧ s.pi.nread ≠ s.pi.nwrite
  | _ => False

/-- Only a failing `copyout` loses a byte. -/
theorem lost_step {s t : State Pid} {l : Label Pid} (hstep : step s l = some t) :
    (CopyoutFails s l ∧ t.lost = s.lost + 1) ∨ (¬ CopyoutFails s l ∧ t.lost = s.lost) := by
  unfold Pipe.step at hstep
  cases l with
  | readCopy p copyout =>
      cases hp : s.pc p <;> simp only [hp, reduceCtorEq, Option.some.injEq] at hstep
      next n i got =>
      subst hstep
      unfold Pipe.readCopy CopyoutFails
      simp only [hp, Pc.readCopy.injEq]
      split
      -- the byte is counted as read only if copyout() succeeds
      · next hin =>
        split
        · next he => exact Or.inr ⟨by rintro ⟨-, -, -, -, -, -, hne⟩; exact hne he, rfl⟩
        · next hne =>
          cases copyout with
          | true => exact Or.inr ⟨by simp, rfl⟩
          | false => exact Or.inl ⟨⟨rfl, n, i, got, ⟨rfl, rfl, rfl⟩, hin, hne⟩, rfl⟩
      · next hin =>
        refine Or.inr ⟨?_, rfl⟩
        rintro ⟨-, m, j, g, ⟨hm, hj, -⟩, hlt, -⟩
        exact hin (by rw [hm, hj]; exact hlt)
  | callWrite p n =>
      cases hp : s.pc p <;> simp only [hp, reduceCtorEq, Option.some.injEq] at hstep
      subst hstep
      exact Or.inr ⟨id, rfl⟩
  | callRead p n =>
      cases hp : s.pc p <;> simp only [hp, reduceCtorEq, Option.some.injEq] at hstep
      subst hstep
      exact Or.inr ⟨id, rfl⟩
  | acquire p =>
      refine Or.inr ⟨id, ?_⟩
      simp only [Pipe.acquire] at hstep
      split at hstep
      · cases hp : s.pc p <;> simp only [hp, reduceCtorEq, Option.some.injEq] at hstep
        · subst hstep; rfl
        · subst hstep; rfl
      · cases hstep
  | writeLoop p copyin =>
      refine Or.inr ⟨id, ?_⟩
      cases hp : s.pc p <;> simp only [hp, reduceCtorEq, Option.some.injEq] at hstep
      subst hstep
      unfold Pipe.writeLoop
      split
      · split
        · rfl
        · split
          · rfl
          · cases copyin <;> rfl
      · rfl
  | writeEnd p =>
      cases hp : s.pc p <;> simp only [hp, reduceCtorEq, Option.some.injEq] at hstep
      subst hstep
      exact Or.inr ⟨id, rfl⟩
  | readWait p =>
      refine Or.inr ⟨id, ?_⟩
      cases hp : s.pc p <;> simp only [hp, reduceCtorEq, Option.some.injEq] at hstep
      subst hstep
      unfold Pipe.readWait
      split
      · split <;> rfl
      · rfl
  | readEnd p =>
      cases hp : s.pc p <;> simp only [hp, reduceCtorEq, Option.some.injEq] at hstep
      subst hstep
      exact Or.inr ⟨id, rfl⟩
  | pipeclose p writable =>
      refine Or.inr ⟨id, ?_⟩
      simp only at hstep
      split at hstep
      · rw [Option.some.injEq] at hstep
        subst hstep
        cases writable <;> rfl
      · cases hstep
  | kkill p =>
      refine Or.inr ⟨id, ?_⟩
      rw [Option.some.injEq] at hstep
      subst hstep
      unfold Pipe.kkill
      simp only
      split <;> rfl

/-- **Lossless FIFO.** After any run the buffer holds at most `PIPESIZE` bytes. All along the run
    the bytes delivered, those copied out by the reader that holds the lock, and those still in the
    buffer are exactly the bytes stored, in order, if and only if no `copyout` of `piperead` fails
    in the run. (When the lock is free nothing is copied out and not yet delivered.) -/
theorem pipe_fifo_iff (s₀ s : State Pid) (ls : List (Label Pid)) (h₀ : Init s₀)
    (hrun : runSteps step s₀ ls = some s) :
    (s.pi.nwrite - s.pi.nread).toNat ≤ PIPESIZE ∧
    ((∀ pre suf u, ls = pre ++ suf → runSteps step s₀ pre = some u →
        u.delivered <+: u.stored ∧
        u.delivered ++ u.copied ++ u.pi.contents = u.stored ∧
        (u.lock = none → u.delivered ++ u.pi.contents = u.stored)) ↔
      AllSteps step (fun u l => ¬ CopyoutFails u l) s₀ ls) := by
  have hinv : Inv s := runSteps_invariant (fun _ _ _ h => h.step) (inv_init h₀) hrun
  refine ⟨hinv.room, ?_⟩
  refine forall_prefix_iff_allSteps (I := fun u => Inv u ∧ u.lost = 0) (fun u hu => ?_)
    (fun u l t hu hok ht => ?_) (fun u l t hu hno ht => ?_)
    ⟨inv_init h₀, h₀.2.2.2.2.2.2.2.2.2⟩ hrun
  · have hfifo : u.delivered ++ u.copied ++ u.pi.contents = u.stored := hu.1.flow.fifo_iff.2 hu.2
    refine ⟨⟨u.copied ++ u.pi.contents, by rw [← List.append_assoc]; exact hfifo⟩, hfifo, fun hl => ?_⟩
    rw [copied_of_lock_none hl, List.append_nil] at hfifo
    exact hfifo
  · refine ⟨hu.1.step ht, ?_⟩
    rcases lost_step ht with ⟨hf, -⟩ | ⟨-, hl⟩
    · exact absurd hf hok
    · exact hl.trans hu.2
  · rintro ⟨-, hfifo, -⟩
    have hlost : t.lost = 0 := (hu.1.step ht).flow.fifo_iff.1 hfifo
    rcases lost_step ht with ⟨-, hl⟩ | ⟨hf, -⟩
    · omega
    · exact hno hf

end Steps

/-! ## The failing run -/

/-- Process 0 writes a byte; process 1 reads into memory it cannot write. -/
def lostByte : List (Label Nat) :=
  [.callWrite 0 1, .acquire 0, .writeLoop 0 (some 65), .writeLoop 0 none, .writeEnd 0,
   .callRead 1 1, .acquire 1, .readWait 1, .readCopy 1 false, .readEnd 1]

def emptyPipe : State Nat :=
  { pi := { data := fun _ => 0, nread := 0, nwrite := 0, readopen := true, writeopen := true },
    lock := none, pc := fun _ => .user, killed := fun _ => false, stored := [], taken := [],
    delivered := [], lost := 0 }

/-- The byte that was stored is neither delivered nor in the buffer, with the lock free. -/
theorem pipe_loses_byte :
    Init emptyPipe ∧ ∃ s, runSteps step emptyPipe lostByte = some s ∧ s.lock = none ∧
      s.stored = [65] ∧ s.delivered = [] ∧ s.pi.contents = [] := by
  refine ⟨⟨rfl, rfl, rfl, rfl, rfl, fun _ => rfl, rfl, rfl, rfl, rfl⟩,
    (runSteps step emptyPipe lostByte).get (by decide), (Option.some_get _).symm, ?_⟩
  decide

/-- The same with a valid buffer. -/
def deliveredByte : List (Label Nat) :=
  [.callWrite 0 1, .acquire 0, .writeLoop 0 (some 65), .writeLoop 0 none, .writeEnd 0,
   .callRead 1 1, .acquire 1, .readWait 1, .readCopy 1 true, .readCopy 1 true, .readEnd 1]

/-- No `copyout` that fails. -/
def copiesOut : Label Nat → Bool
  | .readCopy _ copyout => copyout
  | _ => true

theorem pipe_fifo_iff_one_byte :
    ∃ s, runSteps step emptyPipe deliveredByte = some s ∧ (s.pi.nwrite - s.pi.nread).toNat ≤ PIPESIZE ∧
      s.delivered = [65] ∧ s.delivered ++ s.copied ++ s.pi.contents = s.stored := by
  let s : State Nat := (runSteps step emptyPipe deliveredByte).get (by decide)
  have hrun : runSteps step emptyPipe deliveredByte = some s := (Option.some_get _).symm
  obtain ⟨hroom, hiff⟩ := pipe_fifo_iff emptyPipe s deliveredByte
    ⟨rfl, rfl, rfl, rfl, rfl, fun _ => rfl, rfl, rfl, rfl, rfl⟩ hrun
  have hok : AllSteps step (fun u l => ¬ CopyoutFails u l) emptyPipe deliveredByte := by
    refine AllSteps.of_forall (fun l hl u hfails => ?_) emptyPipe
    have hcopied : copiesOut l = true := (by decide : ∀ l ∈ deliveredByte, copiesOut l = true) l hl
    cases l with
    | readCopy p copyout => exact Bool.noConfusion (hfails.1.symm.trans hcopied)
    | _ => exact hfails
  exact ⟨s, hrun, hroom, by decide, (hiff.2 hok deliveredByte [] s (List.append_nil _).symm hrun).2.1⟩

end Xv6.Pipe
