import Xv6.Pipe.Fifo

set_option autoImplicit false

/-! # Who sleeps on a pipe

A reader sleeps on `&pi->nread` while the pipe is empty, a writer on `&pi->nwrite` while it is full.
When the other side changes that, the sleeper stays asleep only until the process that made the
change gives the lock up: it is still on its way to its `wakeup`. One exit has none. `pipewrite`
returns -1 when it finds itself killed or the read end closed, also after it has stored bytes, and
that return skips `wakeup(&pi->nread)`: a reader that sleeps then stays asleep over a pipe that is
not empty. -/

namespace Xv6.Pipe

open Xv6.Lib

variable {Pid : Type}

/-! ## Sleepers and the processes that will wake them -/

def Pc.readAsleep : Pc → Bool
  | .readSleep _ => true
  | _ => false

def Pc.writeAsleep : Pc → Bool
  | .writeSleep .. => true
  | _ => false

/-- In the loop of `pipewrite` or after it. -/
def Pc.stores : Pc → Bool
  | .writeLoop .. | .writeEnd .. => true
  | _ => false

/-- In the copying loop of `piperead` or after it. -/
def Pc.takes : Pc → Bool
  | .readCopy .. | .readEnd .. => true
  | _ => false

/-- Whoever sleeps here has the other end open, and sleeps for a reason, unless the lock is held by
    a process that works for him. -/
def Watched (s : State Pid) (asleep works : Pc → Bool) (isOpen : Bool) (reason : Prop) : Prop :=
  ∀ q, asleep (s.pc q) = true →
    isOpen = true ∧ (reason ∨ ∃ r, s.lock = some r ∧ works (s.pc r) = true)

section Watched

variable {asleep works : Pc → Bool} {isOpen : Bool} {reason : Prop}

/-- With nobody at work for the sleepers, they have their reason. -/
theorem Watched.reason_of_idle {s : State Pid} (h : Watched s asleep works isOpen reason)
    (hidle : ∀ r, s.lock = some r → works (s.pc r) = false) {q : Pid}
    (hq : asleep (s.pc q) = true) : reason := by
  obtain ⟨-, hr | ⟨r, hlock, hw⟩⟩ := h q hq
  · exact hr
  · rw [hidle r hlock] at hw
    cases hw

theorem Watched.reason_of_holder {s : State Pid} (h : Watched s asleep works isOpen reason) {p : Pid}
    (hlock : s.lock = some p) (hp : works (s.pc p) = false) {q : Pid}
    (hq : asleep (s.pc q) = true) : reason := by
  refine h.reason_of_idle (fun r hr => ?_) hq
  rw [hlock, Option.some.injEq] at hr
  rw [← hr]
  exact hp

theorem Watched.reason_of_free {s : State Pid} (h : Watched s asleep works isOpen reason)
    (hlock : s.lock = none) {q : Pid} (hq : asleep (s.pc q) = true) : reason := by
  refine h.reason_of_idle (fun r hr => ?_) hq
  rw [hlock] at hr
  cases hr

theorem Watched.of_nobody {s : State Pid} (h : ∀ q, asleep (s.pc q) = false) :
    Watched s asleep works isOpen reason := by
  intro q hq
  rw [h q] at hq
  cases hq

variable [DecidableEq Pid]

/-- After `p` has moved to `c`, where it does not sleep, the others sleep as before. -/
theorem Watched.setPc {s t : State Pid} {reason' : Prop} (h : Watched s asleep works isOpen reason)
    {p : Pid} {c : Pc} (hsleep : ∀ q, asleep (t.pc q) = true → asleep (s.pc q) = true)
    (hc : asleep c = false)
    (hcov : ∀ q, asleep (s.pc q) = true → reason' ∨ (t.lock = some p ∧ works c = true)) :
    Watched (t.setPc p c) asleep works isOpen reason' := by
  intro q hq
  by_cases hqp : q = p
  · rw [hqp, setPc_self, hc] at hq
    cases hq
  · rw [setPc_of_ne _ _ hqp] at hq
    refine ⟨(h q (hsleep q hq)).1, ?_⟩
    rcases hcov q (hsleep q hq) with hr | ⟨hlock, hw⟩
    · exact Or.inl hr
    · exact Or.inr ⟨p, hlock, by rw [setPc_self]; exact hw⟩

/-- `p` goes to sleep. -/
theorem Watched.fallAsleep {t : State Pid} {p : Pid} {c : Pc}
    (hopen : isOpen = true) (hr : reason) : Watched (t.release p c) asleep works isOpen reason :=
  fun _ _ => ⟨hopen, Or.inl hr⟩

/-- A process that holds no lock moves on, to a point where it does not sleep. -/
theorem Watched.outside {s : State Pid} (h : Watched s asleep works isOpen reason) {p : Pid} {c : Pc}
    (hp : works (s.pc p) = false) (hc : asleep c = false) :
    Watched (s.setPc p c) asleep works isOpen reason := by
  intro q hq
  by_cases hqp : q = p
  · rw [hqp, setPc_self, hc] at hq
    cases hq
  · rw [setPc_of_ne _ _ hqp] at hq
    refine ⟨(h q hq).1, ?_⟩
    rcases (h q hq).2 with hr | ⟨r, hlock, hw⟩
    · exact Or.inl hr
    · have hrp : r ≠ p := fun he => by
        rw [he, hp] at hw
        cases hw
      exact Or.inr ⟨r, hlock, by rw [setPc_of_ne _ _ hrp]; exact hw⟩

end Watched

/-- The invariant of the sleepers on both channels. -/
structure Guarded (s : State Pid) : Prop where
  readers : Watched s Pc.readAsleep Pc.stores s.pi.writeopen (s.pi.nread = s.pi.nwrite)
  writers : Watched s Pc.writeAsleep Pc.takes s.pi.readopen s.pi.full

/-! ## What `wakeup` leaves -/

theorem wakeupReaders_nobody (s : State Pid) (q : Pid) :
    ((wakeupReaders s).pc q).readAsleep = false := by
  unfold wakeupReaders
  cases h : s.pc q <;> simp [h, Pc.readAsleep]

theorem wakeupWriters_nobody (s : State Pid) (q : Pid) :
    ((wakeupWriters s).pc q).writeAsleep = false := by
  unfold wakeupWriters
  cases h : s.pc q <;> simp [h, Pc.writeAsleep]

theorem wakeupReaders_writeAsleep (s : State Pid) (q : Pid) :
    ((wakeupReaders s).pc q).writeAsleep = (s.pc q).writeAsleep := by
  rcases wakeupReaders_pc s q with h | ⟨n, h, h'⟩
  · rw [h]
  · rw [h, h']
    rfl

theorem wakeupWriters_readAsleep (s : State Pid) (q : Pid) :
    ((wakeupWriters s).pc q).readAsleep = (s.pc q).readAsleep := by
  rcases wakeupWriters_pc s q with h | ⟨n, i, h, h'⟩
  · rw [h]
  · rw [h, h']
    rfl

section Steps

variable [DecidableEq Pid]

theorem nobody_setPc {asleep : Pc → Bool} {t : State Pid} {p : Pid} {c : Pc}
    (h : ∀ q, asleep (t.pc q) = false) (hc : asleep c = false) (q : Pid) :
    asleep ((t.setPc p c).pc q) = false := by
  by_cases hqp : q = p
  · rw [hqp, setPc_self]
    exact hc
  · rw [setPc_of_ne _ _ hqp]
    exact h q

/-! ## The steps -/

/-- The early return of `pipewrite` is taken over a pipe that is not empty, with a reader asleep. -/
def SkipsWakeup (s : State Pid) : Label Pid → Prop
  | .writeLoop p _ =>
    (∃ n i, s.pc p = .writeLoop n i ∧ i < n) ∧ (s.pi.readopen = false ∨ s.killed p = true) ∧
    s.pi.nread ≠ s.pi.nwrite ∧ ∃ q m, s.pc q = .readSleep m
  | _ => False

omit [DecidableEq Pid] in
theorem readAsleep_iff {c : Pc} : c.readAsleep = true ↔ ∃ n, c = .readSleep n := by
  cases c <;> simp [Pc.readAsleep]

omit [DecidableEq Pid] in
theorem writeAsleep_iff {c : Pc} : c.writeAsleep = true ↔ ∃ n i, c = .writeSleep n i := by
  cases c <;> simp [Pc.writeAsleep]

theorem Guarded.outside {s : State Pid} (h : Guarded s) {p : Pid} {c : Pc}
    (hp : (s.pc p).critical = false) (hr : c.readAsleep = false) (hw : c.writeAsleep = false) :
    Guarded (s.setPc p c) := by
  have hstores : (s.pc p).stores = false := by
    cases hc : s.pc p <;> simp_all [Pc.critical, Pc.stores]
  have htakes : (s.pc p).takes = false := by
    cases hc : s.pc p <;> simp_all [Pc.critical, Pc.takes]
  exact ⟨h.readers.outside hstores hr, h.writers.outside htakes hw⟩

theorem Guarded.acquire {s t : State Pid} (h : Guarded s) {p : Pid} (ht : acquire s p = some t) :
    Guarded t := by
  unfold Pipe.acquire at ht
  split at ht
  · next hfree =>
    have htake : ∀ c : Pc, c.readAsleep = false → c.writeAsleep = false →
        Guarded ({ s with lock := some p }.setPc p c) := fun c hr hw =>
      ⟨h.readers.setPc (fun _ hq => hq) hr fun _ hq => Or.inl (h.readers.reason_of_free hfree.1 hq),
       h.writers.setPc (fun _ hq => hq) hw fun _ hq => Or.inl (h.writers.reason_of_free hfree.1 hq)⟩
    cases hp : s.pc p <;> simp only [hp, reduceCtorEq, Option.some.injEq] at ht
    · subst ht
      exact htake _ rfl rfl
    · subst ht
      exact htake _ rfl rfl
  · cases ht

theorem Guarded.writeLoop {s : State Pid} (h : Guarded s) {p : Pid} {n i : Int}
    (hlock : s.lock = some p) (hp : s.pc p = .writeLoop n i) (copyin : Option UInt8)
    (hok : ¬ SkipsWakeup s (.writeLoop p copyin)) : Guarded (writeLoop s p n i copyin) := by
  have hfull : ∀ q, (s.pc q).writeAsleep = true → s.pi.full := fun q hq =>
    h.writers.reason_of_holder hlock (by rw [hp]; rfl) hq
  have hend : Guarded (s.setPc p (.writeEnd i)) :=
    ⟨h.readers.setPc (fun _ hq => hq) rfl fun _ _ => Or.inr ⟨hlock, rfl⟩,
     h.writers.setPc (fun _ hq => hq) rfl fun q hq => Or.inl (hfull q hq)⟩
  unfold Pipe.writeLoop
  split
  · next hin =>
    split
    · next hret =>
      -- the return without a `wakeup`
      refine ⟨h.readers.setPc (fun _ hq => hq) rfl fun q hq => Or.inl ?_,
        h.writers.setPc (fun _ hq => hq) rfl fun q hq => Or.inl (hfull q hq)⟩
      by_contra hne
      exact hok ⟨⟨n, i, hp, hin⟩, hret, hne, q, readAsleep_iff.1 hq⟩
    · next hret =>
      have hopen : s.pi.readopen = true := by
        by_contra hclosed
        exact hret (Or.inl (Bool.eq_false_iff.2 hclosed))
      split
      · next hf =>
        exact ⟨Watched.of_nobody (nobody_setPc (wakeupReaders_nobody s) rfl),
          Watched.fallAsleep hopen hf⟩
      · next hf =>
        cases copyin with
        | none => exact hend
        | some ch =>
            exact ⟨h.readers.setPc (fun _ hq => hq) rfl fun _ _ => Or.inr ⟨hlock, rfl⟩,
              h.writers.setPc (fun _ hq => hq) rfl fun q hq => absurd (hfull q hq) hf⟩
  · exact hend

theorem Guarded.writeEnd {s : State Pid} (h : Guarded s) {p : Pid} {i : Int}
    (hlock : s.lock = some p) (hp : s.pc p = .writeEnd i) : Guarded (writeEnd s p) := by
  refine ⟨Watched.of_nobody (nobody_setPc (wakeupReaders_nobody s) rfl),
    h.writers.setPc (fun q hq => ?_) rfl fun q hq => Or.inl ?_⟩
  · rw [← wakeupReaders_writeAsleep]
    exact hq
  · exact h.writers.reason_of_holder hlock (by rw [hp]; rfl) hq

theorem Guarded.readWait {s : State Pid} (h : Guarded s) {p : Pid} {n : Int}
    (hlock : s.lock = some p) (hp : s.pc p = .readWait n) : Guarded (readWait s p n) := by
  have hempty : ∀ q, (s.pc q).readAsleep = true → s.pi.nread = s.pi.nwrite := fun q hq =>
    h.readers.reason_of_holder hlock (by rw [hp]; rfl) hq
  have hfull : ∀ q, (s.pc q).writeAsleep = true → s.pi.full := fun q hq =>
    h.writers.reason_of_holder hlock (by rw [hp]; rfl) hq
  unfold Pipe.readWait
  split
  · next hwait =>
    split
    · exact ⟨h.readers.setPc (fun _ hq => hq) rfl fun q hq => Or.inl (hempty q hq),
        h.writers.setPc (fun _ hq => hq) rfl fun q hq => Or.inl (hfull q hq)⟩
    · exact ⟨Watched.fallAsleep hwait.2 hwait.1,
        h.writers.setPc (fun _ hq => hq) rfl fun q hq => Or.inl (hfull q hq)⟩
  · exact ⟨h.readers.setPc (fun _ hq => hq) rfl fun q hq => Or.inl (hempty q hq),
      h.writers.setPc (fun _ hq => hq) rfl fun _ _ => Or.inr ⟨hlock, rfl⟩⟩

theorem Guarded.readCopy {s : State Pid} (h : Guarded s) {p : Pid} {n i : Int} {got : List UInt8}
    (hlock : s.lock = some p) (hp : s.pc p = .readCopy n i got) (copyout : Bool) :
    Guarded (readCopy s p n i got copyout) := by
  have hempty : ∀ q, (s.pc q).readAsleep = true → s.pi.nread = s.pi.nwrite := fun q hq =>
    h.readers.reason_of_holder hlock (by rw [hp]; rfl) hq
  have hend : Guarded (s.setPc p (.readEnd i got)) :=
    ⟨h.readers.setPc (fun _ hq => hq) rfl fun q hq => Or.inl (hempty q hq),
     h.writers.setPc (fun _ hq => hq) rfl fun _ _ => Or.inr ⟨hlock, rfl⟩⟩
  unfold Pipe.readCopy
  split
  · split
    · exact hend
    · next hne =>
      cases copyout with
      | true =>
          exact ⟨h.readers.setPc (fun _ hq => hq) rfl fun q hq => absurd (hempty q hq) hne,
            h.writers.setPc (fun _ hq => hq) rfl fun _ _ => Or.inr ⟨hlock, rfl⟩⟩
      | false =>
          exact ⟨h.readers.setPc (fun _ hq => hq) rfl fun q hq => absurd (hempty q hq) hne,
            h.writers.setPc (fun _ hq => hq) rfl fun _ _ => Or.inr ⟨hlock, rfl⟩⟩
  · exact hend

theorem Guarded.readEnd {s : State Pid} (h : Guarded s) {p : Pid} {i : Int} {got : List UInt8}
    (hlock : s.lock = some p) (hp : s.pc p = .readEnd i got) : Guarded (readEnd s p i got) := by
  refine ⟨h.readers.setPc (fun q hq => ?_) rfl fun q hq => Or.inl ?_,
    Watched.of_nobody (nobody_setPc (wakeupWriters_nobody _) rfl)⟩
  · rw [← wakeupWriters_readAsleep]
    exact hq
  · exact h.readers.reason_of_holder hlock (by rw [hp]; rfl) hq

omit [DecidableEq Pid] in
theorem Guarded.pipeclose {s : State Pid} (h : Guarded s) (hlock : s.lock = none)
    (writable : Bool) : Guarded (pipeclose s writable) := by
  unfold Pipe.pipeclose
  cases writable with
  | true =>
      refine ⟨Watched.of_nobody (wakeupReaders_nobody _), fun q hq => ?_⟩
      rw [if_pos rfl, wakeupReaders_writeAsleep] at hq
      exact ⟨(h.writers q hq).1, Or.inl (h.writers.reason_of_free hlock hq)⟩
  | false =>
      refine ⟨fun q hq => ?_, Watched.of_nobody (wakeupWriters_nobody _)⟩
      rw [if_neg Bool.false_ne_true, wakeupWriters_readAsleep] at hq
      exact ⟨(h.readers q hq).1, Or.inl (h.readers.reason_of_free hlock hq)⟩

theorem Guarded.kkill {s : State Pid} (h : Guarded s) (p : Pid) : Guarded (kkill s p) := by
  have hk : Guarded { s with killed := Function.update s.killed p true } := ⟨h.readers, h.writers⟩
  unfold Pipe.kkill
  simp only
  split
  · next n i hp => exact hk.outside (by rw [hp]; rfl) rfl rfl
  · next n hp => exact hk.outside (by rw [hp]; rfl) rfl rfl
  · exact hk

theorem Guarded.step {s t : State Pid} {l : Label Pid} (h : Guarded s) (hl : Locked s)
    (hok : ¬ SkipsWakeup s l) (hstep : step s l = some t) : Guarded t := by
  have hlock : ∀ {p : Pid} {c : Pc}, s.pc p = c → c.critical = true → s.lock = some p :=
    fun hp hc => (hl _).1 (by rw [hp]; exact hc)
  unfold Pipe.step at hstep
  cases l with
  | callWrite p n =>
      cases hp : s.pc p <;> simp only [hp, reduceCtorEq, Option.some.injEq] at hstep
      subst hstep
      exact h.outside (by rw [hp]; rfl) rfl rfl
  | callRead p n =>
      cases hp : s.pc p <;> simp only [hp, reduceCtorEq, Option.some.injEq] at hstep
      subst hstep
      exact h.outside (by rw [hp]; rfl) rfl rfl
  | acquire p => exact h.acquire hstep
  | writeLoop p copyin =>
      cases hp : s.pc p <;> simp only [hp, reduceCtorEq, Option.some.injEq] at hstep
      subst hstep
      exact h.writeLoop (hlock hp rfl) hp copyin hok
  | writeEnd p =>
      cases hp : s.pc p <;> simp only [hp, reduceCtorEq, Option.some.injEq] at hstep
      subst hstep
      exact h.writeEnd (hlock hp rfl) hp
  | readWait p =>
      cases hp : s.pc p <;> simp only [hp, reduceCtorEq, Option.some.injEq] at hstep
      subst hstep
      exact h.readWait (hlock hp rfl) hp
  | readCopy p copyout =>
      cases hp : s.pc p <;> simp only [hp, reduceCtorEq, Option.some.injEq] at hstep
      subst hstep
      exact h.readCopy (hlock hp rfl) hp copyout
  | readEnd p =>
      cases hp : s.pc p <;> simp only [hp, reduceCtorEq, Option.some.injEq] at hstep
      subst hstep
      exact h.readEnd (hlock hp rfl) hp
  | pipeclose p writable =>
      simp only at hstep
      split at hstep
      · next hc =>
          rw [Option.some.injEq] at hstep
          subst hstep
          exact h.pipeclose hc.2.1 writable
      · cases hstep
  | kkill p =>
      rw [Option.some.injEq] at hstep
      subst hstep
      exact h.kkill p

/-! ## Nobody is stranded exactly while no early return skips a wakeup -/

/-- While the lock is free a reader sleeps only over an empty pipe, a writer only over a full one,
    and the other end is open. -/
def NoStranded (s : State Pid) : Prop :=
  s.lock = none →
    (∀ p n, s.pc p = .readSleep n → s.pi.nread = s.pi.nwrite ∧ s.pi.writeopen = true) ∧
    (∀ p n i, s.pc p = .writeSleep n i → s.pi.full ∧ s.pi.readopen = true)

omit [DecidableEq Pid] in
theorem Guarded.noStranded {s : State Pid} (h : Guarded s) : NoStranded s := by
  intro hlock
  refine ⟨fun p n hp => ?_, fun p n i hp => ?_⟩
  · have hq := readAsleep_iff.2 ⟨n, hp⟩
    exact ⟨h.readers.reason_of_free hlock hq, (h.readers p hq).1⟩
  · have hq := writeAsleep_iff.2 ⟨n, i, hp⟩
    exact ⟨h.writers.reason_of_free hlock hq, (h.writers p hq).1⟩

/-- The early return leaves the lock free and the reader asleep. -/
theorem SkipsWakeup.strands {s t : State Pid} {l : Label Pid} (h : SkipsWakeup s l)
    (hstep : step s l = some t) : ¬ NoStranded t := by
  cases l with
  | writeLoop p copyin =>
      obtain ⟨⟨n, i, hp, hin⟩, hret, hne, q, m, hq⟩ := h
      have ht : t = s.release p .user := by
        simp only [Pipe.step, hp, Pipe.writeLoop, hin, hret, if_true, Option.some.injEq] at hstep
        exact hstep.symm
      have hqp : q ≠ p := fun he => by
        rw [he, hp] at hq
        cases hq
      intro hno
      have hsleep : t.pc q = .readSleep m := by
        rw [ht, State.release, setPc_of_ne _ _ hqp]
        exact hq
      have hlock : t.lock = none := by
        rw [ht]
        rfl
      have hempty := ((hno hlock).1 q m hsleep).1
      rw [ht] at hempty
      exact hne hempty
  | _ => exact h.elim

omit [DecidableEq Pid] in
theorem guarded_init {s : State Pid} (h : Init s) : Guarded s := by
  obtain ⟨-, -, -, -, -, hpc, -⟩ := h
  refine ⟨Watched.of_nobody fun q => ?_, Watched.of_nobody fun q => ?_⟩
  · rw [hpc]
    rfl
  · rw [hpc]
    rfl

/-- **No stranded sleepers.** All along a run nobody is stranded, if and only if no `pipewrite`
    takes its early return over a pipe that is not empty while a reader is asleep. -/
theorem no_stranded_iff (s₀ s : State Pid) (ls : List (Label Pid)) (h₀ : Init s₀)
    (hrun : runSteps step s₀ ls = some s) :
    (∀ pre suf u, ls = pre ++ suf → runSteps step s₀ pre = some u → NoStranded u) ↔
      AllSteps step (fun u l => ¬ SkipsWakeup u l) s₀ ls := by
  refine forall_prefix_iff_allSteps (I := fun u => Inv u ∧ Guarded u) (fun u hu => ?_)
    (fun u l t hu hok ht => ?_) (fun u l t hu hno ht => ?_) ⟨inv_init h₀, guarded_init h₀⟩ hrun
  · exact hu.2.noStranded
  · exact ⟨hu.1.step ht, hu.2.step hu.1.locked hok ht⟩
  · exact (not_not.1 hno).strands ht

/-- A reader sleeps, a writer stores the first of two bytes, is killed, and returns. -/
def killedWriter : List (Label Nat) :=
  [.callRead 1 1, .acquire 1, .readWait 1, .callWrite 0 2, .acquire 0, .writeLoop 0 (some 65),
   .kkill 0, .writeLoop 0 none]

/-- The reader sleeps over a pipe with a byte in it, with the lock free. -/
theorem killed_writer_strands_reader :
    Init emptyPipe ∧ ∃ s, runSteps step emptyPipe killedWriter = some s ∧ s.lock = none ∧
      s.pc 1 = .readSleep 1 ∧ s.pi.nread ≠ s.pi.nwrite := by
  refine ⟨⟨rfl, rfl, rfl, rfl, rfl, fun _ => rfl, rfl, rfl, rfl, rfl⟩,
    (runSteps step emptyPipe killedWriter).get (by decide), (Option.some_get _).symm, ?_⟩
  decide

/-- The writer is not killed, and waits for its second byte to be copied in. -/
def writerAndReader : List (Label Nat) :=
  [.callRead 1 1, .acquire 1, .readWait 1, .callWrite 0 2, .acquire 0, .writeLoop 0 (some 65),
   .writeLoop 0 (some 66), .writeLoop 0 none, .writeEnd 0]

/-- A `pipewrite` that does not return early. -/
def goesOn (u : State Nat) : Label Nat → Bool
  | .writeLoop p _ => u.pi.readopen && !u.killed p
  | _ => true

/-- The reader has been woken. -/
theorem no_stranded_iff_one_byte :
    ∃ s, runSteps step emptyPipe writerAndReader = some s ∧ s.pc 1 = .readAcq 1 ∧ NoStranded s := by
  let s : State Nat := (runSteps step emptyPipe writerAndReader).get (by decide)
  have hrun : runSteps step emptyPipe writerAndReader = some s := (Option.some_get _).symm
  have hgoes : AllSteps step (fun u l => goesOn u l = true) emptyPipe writerAndReader := by decide
  have hok : AllSteps step (fun u l => ¬ SkipsWakeup u l) emptyPipe writerAndReader := by
    refine hgoes.mono fun u l hl hskip => ?_
    cases l with
    | writeLoop p copyin =>
        simp only [goesOn, Bool.and_eq_true, Bool.not_eq_true'] at hl
        obtain hclosed | hkilled := hskip.2.1
        · exact Bool.noConfusion (hclosed.symm.trans hl.1)
        · exact Bool.noConfusion (hkilled.symm.trans hl.2)
    | _ => exact hskip
  have hinit : Init emptyPipe := ⟨rfl, rfl, rfl, rfl, rfl, fun _ => rfl, rfl, rfl, rfl, rfl⟩
  have hall := (no_stranded_iff emptyPipe s writerAndReader hinit hrun).2 hok
  exact ⟨s, hrun, by decide, hall writerAndReader [] s (List.append_nil _).symm hrun⟩

end Steps

end Xv6.Pipe
