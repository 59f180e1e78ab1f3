import Xv6.Log.GroupCommit

set_option autoImplicit false

/-! # Isolation of group commit

The invariant has three parts. `Sched` ties `outstanding` to the processes inside an operation and
`committing` to the one process that runs `commit`, and says why a sleeper sleeps. `History` ties the
numbered `log_write`s to the header and to the commits made so far. `Drained` says that the header is
empty when nobody is in an operation and no commit runs. All are preserved by every critical section
and by every step of the unlocked `commit`. -/

namespace Xv6.GroupCommit

open Xv6.Lib

variable {Pid : Type}

/-! ## Program counters -/

theorem Pc.op?_eq_some {c : Pc} {o : Nat} : c.op? = some o ↔ c = .inOp o := by
  cases c <;> simp [Pc.op?]

theorem wakeup_pc (s : State Pid) (p : Pid) :
    (wakeup s).pc p = s.pc p ∨ s.pc p = .sleeping ∧ (wakeup s).pc p = .begin := by
  unfold wakeup
  cases h : s.pc p <;> simp [h]

@[simp] theorem wakeup_op? (s : State Pid) (p : Pid) : ((wakeup s).pc p).op? = (s.pc p).op? := by
  rcases wakeup_pc s p with h | ⟨h, h'⟩
  · rw [h]
  · rw [h, h']
    rfl

@[simp] theorem wakeup_commitPc? (s : State Pid) (p : Pid) :
    ((wakeup s).pc p).commitPc? = (s.pc p).commitPc? := by
  rcases wakeup_pc s p with h | ⟨h, h'⟩
  · rw [h]
  · rw [h, h']
    rfl

theorem wakeup_not_sleeping (s : State Pid) (p : Pid) : (wakeup s).pc p ≠ .sleeping := by
  rcases wakeup_pc s p with h | ⟨-, h⟩
  · intro hs
    have hsp : s.pc p = .sleeping := h ▸ hs
    simp [wakeup, hsp] at hs
  · rw [h]
    simp

theorem absorb_subset (b : Uint) (lh : List Uint) : ∀ x ∈ lh, x ∈ absorb b lh := by
  induction lh with
  | nil => simp
  | cons b' bs ih =>
      intro x hx
      simp only [absorb]
      split
      · exact hx
      · rcases List.mem_cons.1 hx with rfl | hx
        · exact List.mem_cons_self
        · exact List.mem_cons_of_mem _ (ih x hx)

theorem mem_absorb_self (b : Uint) (lh : List Uint) : b ∈ absorb b lh := by
  induction lh with
  | nil => simp [absorb]
  | cons b' bs ih =>
      simp only [absorb]
      split
      · next h => exact h ▸ List.mem_cons_self
      · exact List.mem_cons_of_mem _ ih

theorem length_le_absorb (b : Uint) (lh : List Uint) : lh.length ≤ (absorb b lh).length := by
  induction lh with
  | nil => simp
  | cons b' bs ih =>
      simp only [absorb]
      split
      · exact Nat.le_refl _
      · simpa using ih

/-! ## The invariant -/

/-- The admission test of `begin_op` fails. -/
def Full (s : State Pid) : Prop :=
  (s.lh.length : Int) + (s.outstanding + 1) * MAXOPBLOCKS > LOGBLOCKS

structure Sched (s : State Pid) : Prop where
  counted : ∃ n : Nat, Counts (fun p => (s.pc p).op?.isSome) n ∧ s.outstanding = n
  committer : s.committing = true ↔ ∃ p c, (s.pc p).commitPc? = some c
  alone : ∀ p q c c', (s.pc p).commitPc? = some c → (s.pc q).commitPc? = some c' → p = q
  quiet : s.committing = true → s.outstanding = 0
  asleep : ∀ p, s.pc p = .sleeping → s.committing = true ∨ Full s
  panics : s.panic ≠ some .logCommitting ∧ s.panic ≠ some .outsideTrans

/-- Nothing that was logged still waits for a commit. -/
def Clean (s : State Pid) : Prop := s.lh = [] ∧ ∀ e ∈ s.logged, e.txn < s.commits.length

/-- What a process running `commit` has done so far. -/
def CommitOk (s : State Pid) : CommitPc → Prop
  | .test => s.installs.length = s.commits.length
  | .writeLog tail copied =>
    s.installs.length = s.commits.length ∧ tail ≤ s.lh.length ∧ copied = s.lh.take tail
  | .writeHead copied => s.installs.length = s.commits.length ∧ copied = s.lh
  | .install tail home =>
    s.installs.length + 1 = s.commits.length ∧ tail ≤ s.lh.length ∧ home = s.lh.take tail ∧
    (∀ c : Commit, s.commits[s.installs.length]? = some c → c.head = s.lh) ∧
    ∀ e ∈ s.logged, e.txn < s.commits.length
  | .erase => s.installs.length = s.commits.length ∧ ∀ e ∈ s.logged, e.txn < s.commits.length
  | .finish => s.installs.length = s.commits.length ∧ Clean s

structure History (s : State Pid) : Prop where
  opBound : ∀ p o, (s.pc p).op? = some o → o < s.nextOp
  opUnique : ∀ p q o, (s.pc p).op? = some o → (s.pc q).op? = some o → p = q
  loggedBound : ∀ e ∈ s.logged, e.op < s.nextOp ∧ e.txn ≤ s.commits.length
  sameTxn : ∀ e ∈ s.logged, ∀ e' ∈ s.logged, e.op = e'.op → e.txn = e'.txn
  opTxn : ∀ p o, (s.pc p).op? = some o → ∀ e ∈ s.logged, e.op = o → e.txn = s.commits.length
  written : ∀ e ∈ s.logged, ∀ c : Commit, s.commits[e.txn]? = some c → e.block ∈ c.head
  pending : ∀ e ∈ s.logged, e.txn = s.commits.length → e.block ∈ s.lh
  copies : ∀ c ∈ s.commits, c.copied = c.head
  installed : ∀ (n : Nat) (c : Commit) (home : List Uint), s.commits[n]? = some c →
    s.installs[n]? = some home → home = c.head
  commit : ∀ p c, (s.pc p).commitPc? = some c → CommitOk s c
  rest : s.committing = false → s.installs.length = s.commits.length

/-- Without operations and without a commit, the header is empty. -/
def Drained (s : State Pid) : Prop := s.committing = false → s.outstanding = 0 → Clean s

/-! ## `Sched` is preserved -/

/-- A step that leaves counters, flags and the operations and commits of all processes as they are,
    and puts no process to sleep without a reason. -/
theorem Sched.frame {s t : State Pid} (h : Sched s) (ho : t.outstanding = s.outstanding)
    (hc : t.committing = s.committing) (hp : t.panic = s.panic)
    (hop : ∀ p, (t.pc p).op? = (s.pc p).op?)
    (hcm : ∀ p, (t.pc p).commitPc? = (s.pc p).commitPc?)
    (hsleep : ∀ p, t.pc p = .sleeping → t.committing = true ∨ Full t) : Sched t := by
  refine ⟨?_, ?_, ?_, ?_, hsleep, ?_⟩
  · obtain ⟨n, hn, hout⟩ := h.counted
    exact ⟨n, hn.congr fun p => by rw [hop], ho.trans hout⟩
  · rw [hc, h.committer]
    exact exists_congr fun p => exists_congr fun c => by rw [hcm]
  · intro p q c c' hpc hqc
    rw [hcm] at hpc hqc
    exact h.alone p q c c' hpc hqc
  · rw [hc, ho]
    exact h.quiet
  · rw [hp]
    exact h.panics

theorem Sched.outstanding_pos {s : State Pid} (h : Sched s) {p : Pid} {o : Nat}
    (hp : s.pc p = .inOp o) : 1 ≤ s.outstanding ∧ s.committing = false := by
  obtain ⟨n, hn, hout⟩ := h.counted
  have hpos : 0 < n := hn.pos (i := p) (by rw [hp]; rfl)
  refine ⟨by omega, ?_⟩
  cases hc : s.committing with
  | false => rfl
  | true =>
      have := h.quiet hc
      omega

variable [DecidableEq Pid]

@[simp] theorem setPc_self (s : State Pid) (p : Pid) (c : Pc) : (s.setPc p c).pc p = c :=
  Function.update_self ..

theorem setPc_of_ne (s : State Pid) {p q : Pid} (c : Pc) (h : q ≠ p) :
    (s.setPc p c).pc q = s.pc q :=
  Function.update_of_ne h ..

/-- A process that is in no operation and no commit moves to another such place. -/
theorem Sched.setPc {s : State Pid} (h : Sched s) {p : Pid} {c : Pc} (hop : (s.pc p).op? = none)
    (hcm : (s.pc p).commitPc? = none) (hop' : c.op? = none) (hcm' : c.commitPc? = none)
    (hsleep : c = .sleeping → s.committing = true ∨ Full s) : Sched (s.setPc p c) := by
  refine h.frame rfl rfl rfl (fun q => ?_) (fun q => ?_) (fun q hq => ?_)
  · by_cases hqp : q = p
    · subst hqp; rw [setPc_self, hop, hop']
    · rw [setPc_of_ne s c hqp]
  · by_cases hqp : q = p
    · subst hqp; rw [setPc_self, hcm, hcm']
    · rw [setPc_of_ne s c hqp]
  · by_cases hqp : q = p
    · subst hqp
      rw [setPc_self] at hq
      exact hsleep hq
    · rw [setPc_of_ne s c hqp] at hq
      exact h.asleep q hq

theorem Sched.beginOp {s : State Pid} (h : Sched s) {p : Pid} (hp : s.pc p = .begin) :
    Sched (beginOp s p) := by
  unfold GroupCommit.beginOp
  have hop : (s.pc p).op? = none := by rw [hp]; rfl
  have hcm : (s.pc p).commitPc? = none := by rw [hp]; rfl
  split
  · next hc => exact h.setPc hop hcm rfl rfl fun _ => Or.inl hc
  · next hc =>
    split
    · next hfull => exact h.setPc hop hcm rfl rfl fun _ => Or.inr hfull
    · next hroom =>
      -- the operation is admitted: one more in `outstanding`
      have hcm' : ∀ q, (({ s with outstanding := s.outstanding + 1, nextOp := s.nextOp + 1 }.setPc p
          (.inOp s.nextOp)).pc q).commitPc? = (s.pc q).commitPc? := by
        intro q
        by_cases hqp : q = p
        · subst hqp; rw [setPc_self, hcm]; rfl
        · rw [setPc_of_ne _ _ hqp]
      refine ⟨?_, ?_, ?_, ?_, ?_, h.panics⟩
      · obtain ⟨n, hn, hout⟩ := h.counted
        refine ⟨n + 1, hn.insert (i := p) (by simp [hop]) fun q => ?_, ?_⟩
        · by_cases hqp : q = p
          · subst hqp; simp [Pc.op?]
          · simp [setPc_of_ne _ _ hqp, hqp]
        · change s.outstanding + 1 = _
          rw [hout]; rfl
      · refine h.committer.trans (exists_congr fun q => exists_congr fun c => ?_)
        rw [hcm']
      · intro q r c c' hq hr
        rw [hcm'] at hq hr
        exact h.alone q r c c' hq hr
      · intro hc'
        exact absurd hc' hc
      · intro q hq
        have hqp : q ≠ p := fun he => by subst he; rw [setPc_self] at hq; cases hq
        rw [setPc_of_ne _ _ hqp] at hq
        rcases h.asleep q hq with hc' | hfull
        · exact absurd hc' hc
        · exact absurd hfull hroom

omit [DecidableEq Pid] in
theorem Sched.logWrite {s : State Pid} (h : Sched s) {p : Pid} {o : Nat} (hp : s.pc p = .inOp o)
    (b : Uint) : Sched (logWrite s o b) := by
  unfold GroupCommit.logWrite
  obtain ⟨hpos, hc⟩ := h.outstanding_pos hp
  split
  · exact ⟨h.counted, h.committer, h.alone, h.quiet, h.asleep, by simp, by simp⟩
  · rw [if_neg (by omega)]
    refine h.frame rfl rfl rfl (fun _ => rfl) (fun _ => rfl) fun q hq => ?_
    -- the header can only have grown, so a full log stays full
    refine (h.asleep q hq).imp id fun hfull => ?_
    have hlen := length_le_absorb b s.lh
    unfold Full at hfull ⊢
    change ((absorb b s.lh).length : Int) + (s.outstanding + 1) * MAXOPBLOCKS > LOGBLOCKS
    omega

theorem Sched.endOp {s : State Pid} (h : Sched s) {p : Pid} {o : Nat} (hp : s.pc p = .inOp o) :
    Sched (endOp s p) := by
  unfold GroupCommit.endOp
  obtain ⟨hpos, hc⟩ := h.outstanding_pos hp
  obtain ⟨n, hn, hout⟩ := h.counted
  have hop : (s.pc p).op?.isSome := by rw [hp]; rfl
  have hnone : ∀ q c, (s.pc q).commitPc? ≠ some c := by
    intro q c hq
    have := h.committer.2 ⟨q, c, hq⟩
    rw [hc] at this
    cases this
  have hcount : ∀ t : State Pid, (∀ q, q ≠ p → (t.pc q).op? = (s.pc q).op?) →
      (t.pc p).op? = none → Counts (fun q => (t.pc q).op?.isSome) (n - 1) := by
    intro t hne hself
    refine hn.erase hop fun q => ?_
    by_cases hqp : q = p
    · subst hqp; simp [hself]
    · simp [hne q hqp, hqp]
  have hout' : s.outstanding - 1 = ((n - 1 : Nat) : Int) := by
    have := hn.pos hop
    omega
  simp only [hc, Bool.false_eq_true, if_false]
  split
  · next hz =>
    -- the last operation starts a commit
    refine ⟨⟨n - 1, hcount _ (fun q hq => ?_) ?_, hout'⟩, ?_, ?_, fun _ => hz, fun q _ => Or.inl rfl,
      h.panics⟩
    · rw [setPc_of_ne _ _ hq]
    · rw [setPc_self]; rfl
    · exact ⟨fun _ => ⟨p, .test, by rw [setPc_self]; rfl⟩, fun _ => rfl⟩
    · have honly : ∀ q c, (((State.setPc { s with outstanding := s.outstanding - 1, committing := true }
          p (.committing .test)).pc q).commitPc? = some c) → q = p := by
        intro q c hq
        by_contra hqp
        rw [setPc_of_ne _ _ hqp] at hq
        exact hnone q c hq
      intro q r c c' hq hr
      rw [honly q c hq, honly r c' hr]
  · next hz =>
    -- others are outstanding: the wakeup leaves no sleeper behind
    refine ⟨⟨n - 1, hcount _ (fun q hq => ?_) ?_, hout'⟩, ?_, ?_, ?_, ?_, h.panics⟩
    · rw [setPc_of_ne _ _ hq, wakeup_op?]
    · rw [setPc_self]; rfl
    · refine ⟨fun hc' => ?_, fun ⟨q, c, hq⟩ => ?_⟩
      · cases hc'
      · by_cases hqp : q = p
        · subst hqp; rw [setPc_self] at hq; cases hq
        · rw [setPc_of_ne _ _ hqp, wakeup_commitPc?] at hq
          exact absurd hq (hnone q c)
    · intro q r c c' hq
      by_cases hqp : q = p
      · subst hqp; rw [setPc_self] at hq; cases hq
      · rw [setPc_of_ne _ _ hqp, wakeup_commitPc?] at hq
        exact absurd hq (hnone q c)
    · intro hc'
      cases hc'
    · intro q hq
      by_cases hqp : q = p
      · subst hqp; rw [setPc_self] at hq; cases hq
      · rw [setPc_of_ne _ _ hqp] at hq
        exact absurd hq (wakeup_not_sleeping _ q)

/-- A step of `commit` that stays inside it. -/
theorem Sched.commitMove {s : State Pid} (h : Sched s) {p : Pid} {c c' : CommitPc}
    (hp : s.pc p = .committing c) : Sched (s.setPc p (.committing c')) := by
  have hc : s.committing = true := h.committer.2 ⟨p, c, by rw [hp]; rfl⟩
  refine ⟨?_, ?_, ?_, h.quiet, fun q _ => Or.inl hc, h.panics⟩
  · obtain ⟨n, hn, hout⟩ := h.counted
    refine ⟨n, hn.congr fun q => ?_, hout⟩
    by_cases hqp : q = p
    · subst hqp; rw [setPc_self, hp]; rfl
    · rw [setPc_of_ne _ _ hqp]
  · exact ⟨fun _ => ⟨p, c', by rw [setPc_self]; rfl⟩, fun _ => hc⟩
  · have honly : ∀ q k, ((s.setPc p (.committing c')).pc q).commitPc? = some k → q = p := by
      intro q k hq
      by_contra hqp
      rw [setPc_of_ne _ _ hqp] at hq
      exact hqp (h.alone q p k c hq (by rw [hp]; rfl))
    intro q r k k' hq hr
    rw [honly q k hq, honly r k' hr]

theorem Sched.finish {s : State Pid} (h : Sched s) {p : Pid} {c : CommitPc}
    (hp : s.pc p = .committing c) :
    Sched ((wakeup { s with committing := false }).setPc p .user) := by
  have hnone : ∀ q k,
      (((wakeup { s with committing := false }).setPc p .user).pc q).commitPc? ≠ some k := by
    intro q k hq
    by_cases hqp : q = p
    · subst hqp; rw [setPc_self] at hq; cases hq
    · rw [setPc_of_ne _ _ hqp, wakeup_commitPc?] at hq
      exact hqp (h.alone q p k c hq (by rw [hp]; rfl))
  refine ⟨?_, ?_, fun q r k k' hq => absurd hq (hnone q k), fun hc => (by cases hc), ?_, h.panics⟩
  · obtain ⟨n, hn, hout⟩ := h.counted
    refine ⟨n, hn.congr fun q => ?_, hout⟩
    by_cases hqp : q = p
    · subst hqp; rw [setPc_self, hp]; rfl
    · rw [setPc_of_ne _ _ hqp, wakeup_op?]
  · exact ⟨fun hc => (by cases hc), fun ⟨q, k, hq⟩ => absurd hq (hnone q k)⟩
  · intro q hq
    by_cases hqp : q = p
    · subst hqp; rw [setPc_self] at hq; cases hq
    · rw [setPc_of_ne _ _ hqp] at hq
      exact absurd hq (wakeup_not_sleeping _ q)

/-! ## `History` is preserved -/

omit [DecidableEq Pid] in
/-- A step that leaves the histories, the header and the operations and commits of all processes as
    they are. -/
theorem History.frame {s t : State Pid} (h : History s) (hlh : t.lh = s.lh)
    (hnext : t.nextOp = s.nextOp) (hlog : t.logged = s.logged) (hcommits : t.commits = s.commits)
    (hinst : t.installs = s.installs) (hcing : t.committing = s.committing)
    (hop : ∀ p, (t.pc p).op? = (s.pc p).op?)
    (hcm : ∀ p, (t.pc p).commitPc? = (s.pc p).commitPc?) : History t := by
  refine ⟨?_, ?_, ?_, ?_, ?_, ?_, ?_, ?_, ?_, ?_, ?_⟩
  · simpa only [hop, hnext] using h.opBound
  · simpa only [hop] using h.opUnique
  · simpa only [hlog, hnext, hcommits] using h.loggedBound
  · simpa only [hlog] using h.sameTxn
  · simpa only [hop, hlog, hcommits] using h.opTxn
  · simpa only [hlog, hcommits] using h.written
  · simpa only [hlog, hcommits, hlh] using h.pending
  · simpa only [hcommits] using h.copies
  · simpa only [hcommits, hinst] using h.installed
  · intro p c hp
    have hc := h.commit p c (by rw [← hcm]; exact hp)
    cases c <;> simpa only [CommitOk, Clean, hlh, hlog, hcommits, hinst] using hc
  · simpa only [hcing, hcommits, hinst] using h.rest

/-- A process moves between places outside operations and commits. -/
theorem History.setPc {s : State Pid} (h : History s) {p : Pid} {c : Pc}
    (hop : c.op? = (s.pc p).op?) (hcm : c.commitPc? = (s.pc p).commitPc?) :
    History (s.setPc p c) := by
  refine h.frame rfl rfl rfl rfl rfl rfl (fun q => ?_) (fun q => ?_)
  · by_cases hqp : q = p
    · subst hqp; rw [setPc_self, hop]
    · rw [setPc_of_ne s c hqp]
  · by_cases hqp : q = p
    · subst hqp; rw [setPc_self, hcm]
    · rw [setPc_of_ne s c hqp]

theorem History.beginOp {s : State Pid} (h : History s) {p : Pid} (hp : s.pc p = .begin) :
    History (beginOp s p) := by
  unfold GroupCommit.beginOp
  split
  · exact h.setPc (by rw [hp]; rfl) (by rw [hp]; rfl)
  · split
    · exact h.setPc (by rw [hp]; rfl) (by rw [hp]; rfl)
    · -- the number of the admitted operation is new
      have hop : ∀ q o, (({ s with outstanding := s.outstanding + 1, nextOp := s.nextOp + 1 }.setPc p
          (.inOp s.nextOp)).pc q).op? = some o → (q = p ∧ o = s.nextOp) ∨
          (q ≠ p ∧ (s.pc q).op? = some o) := by
        intro q o hq
        by_cases hqp : q = p
        · subst hqp
          rw [setPc_self] at hq
          exact Or.inl ⟨rfl, (Option.some.inj hq).symm⟩
        · rw [setPc_of_ne _ _ hqp] at hq
          exact Or.inr ⟨hqp, hq⟩
      refine ⟨fun q o hq => ?_, fun q r o hq hr => ?_, fun e he => ?_, h.sameTxn,
        fun q o hq e he heo => ?_, h.written, h.pending, h.copies, h.installed, fun q c hq => ?_,
        h.rest⟩
      · change o < s.nextOp + 1
        rcases hop q o hq with ⟨-, rfl⟩ | ⟨-, hq⟩
        · exact Nat.lt_succ_self _
        · exact Nat.lt_succ_of_lt (h.opBound q o hq)
      · rcases hop q o hq with ⟨rfl, rfl⟩ | ⟨-, hq'⟩
        · rcases hop r _ hr with ⟨rfl, -⟩ | ⟨-, hr'⟩
          · rfl
          · exact absurd (h.opBound r _ hr') (Nat.lt_irrefl _)
        · rcases hop r o hr with ⟨rfl, rfl⟩ | ⟨-, hr'⟩
          · exact absurd (h.opBound q _ hq') (Nat.lt_irrefl _)
          · exact h.opUnique q r o hq' hr'
      · exact ⟨Nat.lt_succ_of_lt (h.loggedBound e he).1, (h.loggedBound e he).2⟩
      · rcases hop q o hq with ⟨rfl, rfl⟩ | ⟨-, hq⟩
        · have := (h.loggedBound e he).1
          omega
        · exact h.opTxn q o hq e he heo
      · by_cases hqp : q = p
        · subst hqp; rw [setPc_self] at hq; cases hq
        · rw [setPc_of_ne _ _ hqp] at hq
          have hc := h.commit q c hq
          cases c <;> exact hc

omit [DecidableEq Pid] in
theorem History.logWrite {s : State Pid} (h : History s) (hs : Sched s) {p : Pid} {o : Nat}
    (hp : s.pc p = .inOp o) (b : Uint) : History (logWrite s o b) := by
  unfold GroupCommit.logWrite
  have hop : (s.pc p).op? = some o := by rw [hp]; rfl
  split
  · exact h.frame rfl rfl rfl rfl rfl rfl (fun _ => rfl) (fun _ => rfl)
  · split
    · exact h.frame rfl rfl rfl rfl rfl rfl (fun _ => rfl) (fun _ => rfl)
    · have hmem : ∀ e, e ∈ s.logged ++ [LogWrite.mk o b s.commits.length] →
          e ∈ s.logged ∨ e = ⟨o, b, s.commits.length⟩ := fun e he => by simpa using he
      -- the earlier entries of this operation have the same number of commits before them
      have hsame : ∀ e ∈ s.logged, e.op = o → e.txn = s.commits.length :=
        fun e he heo => h.opTxn p o hop e he heo
      refine ⟨h.opBound, h.opUnique, fun e he => ?_, fun e he e' he' heq => ?_,
        fun q o' hq e he heo => ?_, fun e he c hc => ?_, fun e he hetxn => ?_, h.copies,
        h.installed, fun q c hq => ?_, h.rest⟩
      · rcases hmem e he with he | rfl
        · exact h.loggedBound e he
        · exact ⟨h.opBound p o hop, Nat.le_refl _⟩
      · rcases hmem e he with he | rfl <;> rcases hmem e' he' with he' | rfl
        · exact h.sameTxn e he e' he' heq
        · exact hsame e he heq
        · exact (hsame e' he' heq.symm).symm
        · rfl
      · rcases hmem e he with he | rfl
        · exact h.opTxn q o' hq e he heo
        · rfl
      · rcases hmem e he with he | rfl
        · exact h.written e he c hc
        · rw [List.getElem?_eq_none (Nat.le_refl _)] at hc
          cases hc
      · rcases hmem e he with he | rfl
        · exact absorb_subset b s.lh _ (h.pending e he hetxn)
        · exact mem_absorb_self b s.lh
      · -- no commit runs while an operation is outstanding
        have hcing := hs.committer.2 ⟨q, c, hq⟩
        rw [(hs.outstanding_pos hp).2] at hcing
        cases hcing

theorem History.endOp {s : State Pid} (h : History s) (hs : Sched s) {p : Pid} {o : Nat}
    (hp : s.pc p = .inOp o) : History (endOp s p) := by
  unfold GroupCommit.endOp
  have hc : s.committing = false := (hs.outstanding_pos hp).2
  have hnone : ∀ q k, (s.pc q).commitPc? ≠ some k := by
    intro q k hq
    have := hs.committer.2 ⟨q, k, hq⟩
    rw [hc] at this
    cases this
  simp only [hc, Bool.false_eq_true, if_false]
  -- fewer processes are in an operation than before
  have hfewer : ∀ (t : State Pid) (c : Pc), c.op? = none →
      (∀ q, (t.pc q).op? = (s.pc q).op?) → ∀ q o', ((t.setPc p c).pc q).op? = some o' →
      (s.pc q).op? = some o' := by
    intro t c hcop ht q o' hq
    by_cases hqp : q = p
    · subst hqp; rw [setPc_self, hcop] at hq; cases hq
    · rwa [setPc_of_ne _ _ hqp, ht] at hq
  split
  · have hop := hfewer { s with outstanding := s.outstanding - 1, committing := true }
      (.committing .test) rfl fun _ => rfl
    refine ⟨fun q o' hq => h.opBound q o' (hop q o' hq),
      fun q r o' hq hr => h.opUnique q r o' (hop q o' hq) (hop r o' hr), h.loggedBound, h.sameTxn,
      fun q o' hq => h.opTxn q o' (hop q o' hq), h.written, h.pending, h.copies, h.installed,
      fun q k hq => ?_, fun hcf => (by cases hcf)⟩
    by_cases hqp : q = p
    · subst hqp
      rw [setPc_self] at hq
      cases hq
      exact h.rest hc
    · rw [setPc_of_ne _ _ hqp] at hq
      exact absurd hq (hnone q k)
  · have hop := hfewer (wakeup { s with outstanding := s.outstanding - 1 }) .user rfl
      fun q => wakeup_op? _ q
    refine ⟨fun q o' hq => h.opBound q o' (hop q o' hq),
      fun q r o' hq hr => h.opUnique q r o' (hop q o' hq) (hop r o' hr), h.loggedBound, h.sameTxn,
      fun q o' hq => h.opTxn q o' (hop q o' hq), h.written, h.pending, h.copies, h.installed,
      fun q k hq => ?_, fun _ => h.rest hc⟩
    by_cases hqp : q = p
    · subst hqp; rw [setPc_self] at hq; cases hq
    · rw [setPc_of_ne _ _ hqp, wakeup_commitPc?] at hq
      exact absurd hq (hnone q k)

/-- A step of `commit` that changes none of the histories but its own progress. -/
theorem History.commitMove {s : State Pid} (h : History s) (hs : Sched s) {p : Pid}
    {c c' : CommitPc} (hp : s.pc p = .committing c) (hok : CommitOk s c') :
    History (s.setPc p (.committing c')) := by
  have hop : ∀ q o, ((s.setPc p (.committing c')).pc q).op? = some o → (s.pc q).op? = some o := by
    intro q o hq
    by_cases hqp : q = p
    · subst hqp; rw [setPc_self] at hq; cases hq
    · rwa [setPc_of_ne _ _ hqp] at hq
  refine ⟨fun q o hq => h.opBound q o (hop q o hq),
    fun q r o hq hr => h.opUnique q r o (hop q o hq) (hop r o hr), h.loggedBound, h.sameTxn,
    fun q o hq => h.opTxn q o (hop q o hq), h.written, h.pending, h.copies, h.installed,
    fun q k hq => ?_, h.rest⟩
  by_cases hqp : q = p
  · subst hqp
    rw [setPc_self] at hq
    cases hq
    cases c' <;> exact hok
  · rw [setPc_of_ne _ _ hqp] at hq
    exact absurd (hs.alone q p k c hq (by rw [hp]; rfl)) hqp

omit [DecidableEq Pid] in
theorem Sched.no_op_of_commit {s : State Pid} (hs : Sched s) {p : Pid} {c : CommitPc}
    (hp : s.pc p = .committing c) (q : Pid) (o : Nat) : (s.pc q).op? ≠ some o := by
  intro hq
  have hc := hs.committer.2 ⟨p, c, by rw [hp]; rfl⟩
  rw [(hs.outstanding_pos (Pc.op?_eq_some.1 hq)).2] at hc
  cases hc

/-- `write_head` writes out everything that was logged since the last commit. -/
theorem History.writeHead {s : State Pid} (h : History s) (hs : Sched s) {p : Pid}
    {copied : List Uint} (hp : s.pc p = .committing (.writeHead copied)) :
    History ({ s with commits := s.commits ++ [Commit.mk copied s.lh] }.setPc p
      (.committing (.install 0 []))) := by
  have hcing : s.committing = true := hs.committer.2 ⟨p, _, by rw [hp]; rfl⟩
  obtain ⟨hlen, hcopied⟩ : s.installs.length = s.commits.length ∧ copied = s.lh :=
    h.commit p (.writeHead copied) (by rw [hp]; rfl)
  have hnoop : ∀ q o, (({ s with commits := s.commits ++ [Commit.mk copied s.lh] }.setPc p
      (.committing (.install 0 []))).pc q).op? ≠ some o := by
    intro q o hq
    by_cases hqp : q = p
    · subst hqp; rw [setPc_self] at hq; cases hq
    · rw [setPc_of_ne _ _ hqp] at hq
      exact hs.no_op_of_commit hp q o hq
  have hbound : ∀ e ∈ s.logged, e.txn < (s.commits ++ [Commit.mk copied s.lh]).length := by
    intro e he
    have := (h.loggedBound e he).2
    rw [List.length_append, List.length_singleton]
    omega
  refine ⟨fun q o hq => absurd hq (hnoop q o), fun q r o hq => absurd hq (hnoop q o),
    fun e he => ⟨(h.loggedBound e he).1, (hbound e he).le⟩, h.sameTxn,
    fun q o hq => absurd hq (hnoop q o), fun e he c hc => ?_,
    fun e he hetxn => absurd hetxn (hbound e he).ne, fun c hc => ?_, fun n c home hc hhome => ?_,
    fun q k hq => ?_, fun hf => ?_⟩
  · change (s.commits ++ [Commit.mk copied s.lh])[e.txn]? = some c at hc
    rcases Nat.lt_or_ge e.txn s.commits.length with hlt | hge
    · rw [List.getElem?_append_left hlt] at hc
      exact h.written e he c hc
    · have heq : e.txn = s.commits.length := Nat.le_antisymm (h.loggedBound e he).2 hge
      rw [heq, List.getElem?_concat_length] at hc
      obtain rfl := Option.some.inj hc
      exact h.pending e he heq
  · rcases List.mem_append.1 hc with hc | hc
    · exact h.copies c hc
    · rw [List.mem_singleton.1 hc]
      exact hcopied
  · change (s.commits ++ [Commit.mk copied s.lh])[n]? = some c at hc
    change s.installs[n]? = some home at hhome
    have hn : n < s.commits.length := by
      rw [← hlen]
      exact (List.getElem?_eq_some_iff.1 hhome).1
    rw [List.getElem?_append_left hn] at hc
    exact h.installed n c home hc hhome
  · by_cases hqp : q = p
    · subst hqp
      rw [setPc_self] at hq
      cases hq
      refine ⟨?_, Nat.zero_le _, rfl, fun c hc => ?_, hbound⟩
      · change s.installs.length + 1 = (s.commits ++ [Commit.mk copied s.lh]).length
        rw [List.length_append, List.length_singleton, hlen]
      · change (s.commits ++ [Commit.mk copied s.lh])[s.installs.length]? = some c at hc
        rw [hlen, List.getElem?_concat_length] at hc
        rw [← Option.some.inj hc]
        rfl
    · rw [setPc_of_ne _ _ hqp] at hq
      exact absurd (hs.alone q p k _ hq (by rw [hp]; rfl)) hqp
  · change s.committing = false at hf
    rw [hcing] at hf
    cases hf

/-- `install_trans` is done: what it wrote home is what the header said. -/
theorem History.installDone {s : State Pid} (h : History s) (hs : Sched s) {p : Pid} {tail : Nat}
    {home : List Uint} (hp : s.pc p = .committing (.install tail home))
    (htail : ¬ tail < s.lh.length) :
    History ({ s with installs := s.installs ++ [home] }.setPc p (.committing .erase)) := by
  have hcing : s.committing = true := hs.committer.2 ⟨p, _, by rw [hp]; rfl⟩
  obtain ⟨hlen, hle, hhome, hhead, hbound⟩ := h.commit p _ (by rw [hp]; rfl)
  have hall : home = s.lh := by rw [hhome, List.take_of_length_le (by omega)]
  have hlen' : (s.installs ++ [home]).length = s.commits.length := by
    rw [List.length_append, List.length_singleton, hlen]
  have hop : ∀ q o, (({ s with installs := s.installs ++ [home] }.setPc p
      (.committing .erase)).pc q).op? = some o → (s.pc q).op? = some o := by
    intro q o hq
    by_cases hqp : q = p
    · subst hqp; rw [setPc_self] at hq; cases hq
    · rwa [setPc_of_ne _ _ hqp] at hq
  refine ⟨fun q o hq => h.opBound q o (hop q o hq),
    fun q r o hq hr => h.opUnique q r o (hop q o hq) (hop r o hr), h.loggedBound, h.sameTxn,
    fun q o hq => h.opTxn q o (hop q o hq), h.written, h.pending, h.copies,
    fun n c home' hc hhome' => ?_, fun q k hq => ?_, fun _ => hlen'⟩
  · change (s.installs ++ [home])[n]? = some home' at hhome'
    rcases Nat.lt_or_ge n s.installs.length with hlt | hge
    · rw [List.getElem?_append_left hlt] at hhome'
      exact h.installed n c home' hc hhome'
    · have hn : n < (s.installs ++ [home]).length := (List.getElem?_eq_some_iff.1 hhome').1
      rw [List.length_append, List.length_singleton] at hn
      obtain rfl : n = s.installs.length := by omega
      rw [List.getElem?_concat_length] at hhome'
      rw [← Option.some.inj hhome', hall, hhead c hc]
  · by_cases hqp : q = p
    · subst hqp
      rw [setPc_self] at hq
      cases hq
      exact ⟨hlen', hbound⟩
    · rw [setPc_of_ne _ _ hqp] at hq
      exact absurd (hs.alone q p k _ hq (by rw [hp]; rfl)) hqp

/-- The header is emptied only after everything logged has been committed. -/
theorem History.erase {s : State Pid} (h : History s) (hs : Sched s) {p : Pid}
    (hp : s.pc p = .committing .erase) :
    History ({ s with lh := [] }.setPc p (.committing .finish)) := by
  obtain ⟨hlen, hbound⟩ := h.commit p _ (by rw [hp]; rfl)
  have hop : ∀ q o, (({ s with lh := [] }.setPc p (.committing .finish)).pc q).op? = some o →
      (s.pc q).op? = some o := by
    intro q o hq
    by_cases hqp : q = p
    · subst hqp; rw [setPc_self] at hq; cases hq
    · rwa [setPc_of_ne _ _ hqp] at hq
  refine ⟨fun q o hq => h.opBound q o (hop q o hq),
    fun q r o hq hr => h.opUnique q r o (hop q o hq) (hop r o hr), h.loggedBound, h.sameTxn,
    fun q o hq => h.opTxn q o (hop q o hq), h.written,
    fun e he hetxn => absurd hetxn (hbound e he).ne, h.copies, h.installed, fun q k hq => ?_,
    h.rest⟩
  by_cases hqp : q = p
  · subst hqp
    rw [setPc_self] at hq
    cases hq
    exact ⟨hlen, rfl, hbound⟩
  · rw [setPc_of_ne _ _ hqp] at hq
    exact absurd (hs.alone q p k _ hq (by rw [hp]; rfl)) hqp

theorem History.finish {s : State Pid} (h : History s) (hs : Sched s) {p : Pid}
    (hp : s.pc p = .committing .finish) :
    History ((wakeup { s with committing := false }).setPc p .user) := by
  obtain ⟨hlen, -⟩ := h.commit p .finish (by rw [hp]; rfl)
  have hop : ∀ q o, (((wakeup { s with committing := false }).setPc p .user).pc q).op? = some o →
      (s.pc q).op? = some o := by
    intro q o hq
    by_cases hqp : q = p
    · subst hqp; rw [setPc_self] at hq; cases hq
    · rwa [setPc_of_ne _ _ hqp, wakeup_op?] at hq
  refine ⟨fun q o hq => h.opBound q o (hop q o hq),
    fun q r o hq hr => h.opUnique q r o (hop q o hq) (hop r o hr), h.loggedBound, h.sameTxn,
    fun q o hq => h.opTxn q o (hop q o hq), h.written, h.pending, h.copies, h.installed,
    fun q k hq => ?_, fun _ => hlen⟩
  by_cases hqp : q = p
  · subst hqp; rw [setPc_self] at hq; cases hq
  · rw [setPc_of_ne _ _ hqp, wakeup_commitPc?] at hq
    exact absurd (hs.alone q p k _ hq (by rw [hp]; rfl)) hqp

omit [DecidableEq Pid] in
/-- A commit that finds the header empty has nothing to write: every block that was logged since the
    last one would be in it. -/
theorem History.clean {s : State Pid} (h : History s) (hlh : s.lh = []) : Clean s := by
  refine ⟨hlh, fun e he => lt_of_le_of_ne (h.loggedBound e he).2 fun heq => ?_⟩
  have hmem := h.pending e he heq
  rw [hlh] at hmem
  cases hmem

/-! ## `Drained` is preserved -/

/-- A process moves. -/
theorem Drained.setPc {s : State Pid} (h : Drained s) (p : Pid) (c : Pc) : Drained (s.setPc p c) := h

theorem Drained.beginOp {s : State Pid} (h : Drained s) (hs : Sched s) (p : Pid) :
    Drained (beginOp s p) := by
  unfold GroupCommit.beginOp
  split
  · exact h.setPc p .sleeping
  · split
    · exact h.setPc p .sleeping
    · -- an operation has been admitted
      intro _ hzero
      obtain ⟨n, -, hout⟩ := hs.counted
      change s.outstanding + 1 = 0 at hzero
      omega

omit [DecidableEq Pid] in
theorem Drained.logWrite {s : State Pid} (hs : Sched s) {p : Pid} {o : Nat} (hp : s.pc p = .inOp o)
    (b : Uint) : Drained (logWrite s o b) := by
  have hpos := (hs.outstanding_pos hp).1
  have hsame : (GroupCommit.logWrite s o b).outstanding = s.outstanding := by
    unfold GroupCommit.logWrite
    split
    · rfl
    · split <;> rfl
  intro _ hzero
  omega

theorem Drained.endOp {s : State Pid} (hs : Sched s) {p : Pid} {o : Nat} (hp : s.pc p = .inOp o) :
    Drained (endOp s p) := by
  unfold GroupCommit.endOp
  simp only [(hs.outstanding_pos hp).2, Bool.false_eq_true, if_false]
  split
  · intro hc
    cases hc
  · next hpos =>
    intro _ hzero
    exact absurd hzero hpos

/-- Only the last step of a commit ends it, and by then the header has been emptied. -/
theorem Drained.commitStep {s : State Pid} (hs : Sched s) (hh : History s) {p : Pid} {c : CommitPc}
    (hp : s.pc p = .committing c) : Drained (commitStep s p c) := by
  have hc : s.committing = true := hs.committer.2 ⟨p, c, by rw [hp]; rfl⟩
  have hbusy : (GroupCommit.commitStep s p c).committing = true → Drained (GroupCommit.commitStep s p c) := by
    intro htrue hfalse
    rw [htrue] at hfalse
    cases hfalse
  cases c with
  | test => exact hbusy (by simp only [GroupCommit.commitStep]; split <;> exact hc)
  | writeLog tail copied => exact hbusy (by simp only [GroupCommit.commitStep]; split <;> exact hc)
  | writeHead copied => exact hbusy hc
  | install tail home => exact hbusy (by simp only [GroupCommit.commitStep]; split <;> exact hc)
  | erase => exact hbusy hc
  | finish =>
      obtain ⟨-, hclean⟩ := hh.commit p .finish (by rw [hp]; rfl)
      exact fun _ _ => hclean

/-! ## Every step and every run -/

structure Inv (s : State Pid) : Prop where
  sched : Sched s
  history : History s
  drained : Drained s

theorem Inv.commitStep {s : State Pid} (h : Inv s) {p : Pid} {c : CommitPc}
    (hp : s.pc p = .committing c) : Inv (commitStep s p c) := by
  obtain ⟨hs, hh, -⟩ := h
  have hok : CommitOk s c := hh.commit p c (by rw [hp]; rfl)
  have hdrained : Drained (GroupCommit.commitStep s p c) := Drained.commitStep hs hh hp
  suffices Sched (GroupCommit.commitStep s p c) ∧ History (GroupCommit.commitStep s p c) from
    ⟨this.1, this.2, hdrained⟩
  cases c with
  | test =>
      simp only [GroupCommit.commitStep]
      split
      · exact ⟨hs.commitMove hp, hh.commitMove hs hp ⟨hok, Nat.zero_le _, rfl⟩⟩
      · next hempty =>
        have hlh : s.lh = [] := List.eq_nil_of_length_eq_zero (Nat.eq_zero_of_not_pos hempty)
        exact ⟨hs.commitMove hp, hh.commitMove hs hp ⟨hok, hh.clean hlh⟩⟩
  | writeLog tail copied =>
      obtain ⟨hlen, hle, hcopied⟩ := hok
      simp only [GroupCommit.commitStep]
      split
      · next htail =>
          refine ⟨hs.commitMove hp, hh.commitMove hs hp ⟨hlen, htail, ?_⟩⟩
          rw [hcopied, List.take_append_getElem]
      · next htail =>
          refine ⟨hs.commitMove hp, hh.commitMove hs hp ⟨hlen, ?_⟩⟩
          rw [hcopied, List.take_of_length_le (by omega)]
  | writeHead copied =>
      exact ⟨hs.commitMove hp |>.frame rfl rfl rfl (fun _ => rfl) (fun _ => rfl)
        (hs.commitMove hp).asleep, hh.writeHead hs hp⟩
  | install tail home =>
      obtain ⟨hlen, hle, hhome, hhead, hbound⟩ := hok
      simp only [GroupCommit.commitStep]
      split
      · next htail =>
          refine ⟨hs.commitMove hp, hh.commitMove hs hp ⟨hlen, htail, ?_, hhead, hbound⟩⟩
          rw [hhome, List.take_append_getElem]
      · next htail =>
          exact ⟨hs.commitMove hp |>.frame rfl rfl rfl (fun _ => rfl) (fun _ => rfl)
            (hs.commitMove hp).asleep, hh.installDone hs hp htail⟩
  | erase =>
      have hc : s.committing = true := hs.committer.2 ⟨p, _, by rw [hp]; rfl⟩
      exact ⟨hs.commitMove hp |>.frame rfl rfl rfl (fun _ => rfl) (fun _ => rfl)
        fun _ _ => Or.inl hc, hh.erase hs hp⟩
  | finish => exact ⟨hs.finish hp, hh.finish hs hp⟩

theorem Inv.step {s t : State Pid} {l : Label Pid} (h : Inv s) (hstep : step s l = some t) :
    Inv t := by
  obtain ⟨hs, hh, hd⟩ := h
  unfold GroupCommit.step at hstep
  split at hstep
  · cases hstep
  · cases l with
    | call p =>
        cases hp : s.pc p <;> simp only [hp, reduceCtorEq, Option.some.injEq] at hstep
        subst hstep
        have hop : (s.pc p).op? = none := by rw [hp]; rfl
        have hcm : (s.pc p).commitPc? = none := by rw [hp]; rfl
        exact ⟨hs.setPc hop hcm rfl rfl nofun, hh.setPc (by rw [hop]; rfl) (by rw [hcm]; rfl),
          hd.setPc p .begin⟩
    | beginOp p =>
        cases hp : s.pc p <;> simp only [hp, reduceCtorEq, Option.some.injEq] at hstep
        subst hstep
        exact ⟨hs.beginOp hp, hh.beginOp hp, hd.beginOp hs p⟩
    | kill p =>
        cases hp : s.pc p <;> simp only [hp, reduceCtorEq, Option.some.injEq] at hstep
        subst hstep
        have hop : (s.pc p).op? = none := by rw [hp]; rfl
        have hcm : (s.pc p).commitPc? = none := by rw [hp]; rfl
        exact ⟨hs.setPc hop hcm rfl rfl nofun, hh.setPc (by rw [hop]; rfl) (by rw [hcm]; rfl),
          hd.setPc p .begin⟩
    | logWrite p b =>
        cases hp : s.pc p <;> simp only [hp, reduceCtorEq, Option.some.injEq] at hstep
        subst hstep
        exact ⟨hs.logWrite hp b, hh.logWrite hs hp b, Drained.logWrite hs hp b⟩
    | endOp p =>
        cases hp : s.pc p <;> simp only [hp, reduceCtorEq, Option.some.injEq] at hstep
        subst hstep
        exact ⟨hs.endOp hp, hh.endOp hs hp, Drained.endOp hs hp⟩
    | commit p =>
        cases hp : s.pc p <;> simp only [hp, reduceCtorEq, Option.some.injEq] at hstep
        subst hstep
        exact Inv.commitStep ⟨hs, hh, hd⟩ hp

omit [DecidableEq Pid] in
theorem inv_init {s : State Pid} (h : Init s) : Inv s := by
  subst h
  refine ⟨⟨⟨0, Counts.zero fun p => by simp [Pc.op?], rfl⟩, ?_, ?_, fun h => (by cases h), ?_, ?_⟩, ?_, ?_⟩
  · simp [Pc.commitPc?]
  · simp [Pc.commitPc?]
  · intro p hp
    cases hp
  · simp
  · constructor <;> simp [Pc.op?, Pc.commitPc?]
  · exact fun _ _ => ⟨rfl, fun e he => (by cases he)⟩

/-- **Group-commit isolation.** In every state of every run: a process runs `commit` only while
    `outstanding` is 0; while `committing` is set no process is inside an operation, none is
    admitted and no `log_write` happens; two of the panics are unreachable; every `log_write` of an
    operation falls before the same commit, whose header names its block, as do the blocks copied to
    the log and those installed by that commit; once no operation is open and no commit runs, that
    commit has been made for all that was logged, and the header is empty; every commit that has ended
    has been installed; and a process sleeps on `&log` only during a commit or while the log is too
    full to admit one more operation. -/
theorem group_commit_isolation (s : State Pid) (h : Reachable step Init s) :
    (∀ p c, s.pc p = .committing c → s.outstanding = 0) ∧
    (s.committing = true →
      (∀ p op, s.pc p ≠ .inOp op) ∧
      (∀ p t, step s (.beginOp p) = some t → ∀ op, t.pc p ≠ .inOp op) ∧
      ∀ p b, step s (.logWrite p b) = none) ∧
    (s.panic ≠ some .logCommitting ∧ s.panic ≠ some .outsideTrans) ∧
    (∀ e ∈ s.logged, ∀ e' ∈ s.logged, e.op = e'.op → e.txn = e'.txn) ∧
    (∀ e ∈ s.logged, (e.txn = s.commits.length ∧ e.block ∈ s.lh) ∨
      ∃ c, s.commits[e.txn]? = some c ∧ e.block ∈ c.head ∧ c.copied = c.head ∧
        ∀ home, s.installs[e.txn]? = some home → home = c.head) ∧
    (s.committing = false → s.outstanding = 0 →
      s.lh = [] ∧ ∀ e ∈ s.logged, e.txn < s.commits.length) ∧
    (s.committing = false → s.installs.length = s.commits.length) ∧
    (∀ p op, s.pc p = .inOp op → ∀ e ∈ s.logged, e.op = op → e.txn = s.commits.length) ∧
    (∀ p, s.pc p = .sleeping → s.committing = true ∨
      (s.lh.length : Int) + (s.outstanding + 1) * MAXOPBLOCKS > LOGBLOCKS) := by
  obtain ⟨hs, hh, hd⟩ : Inv s := h.invariant (fun _ => inv_init) fun _ _ _ h => h.step
  have hnoop : s.committing = true → ∀ p op, s.pc p ≠ .inOp op := by
    intro hc p op hp
    rw [(hs.outstanding_pos hp).2] at hc
    cases hc
  refine ⟨fun p c hp => hs.quiet (hs.committer.2 ⟨p, c, by rw [hp]; rfl⟩), fun hc =>
    ⟨hnoop hc, fun p t ht op hop => ?_, fun p b => ?_⟩, hs.panics, hh.sameTxn, fun e he => ?_, hd,
    hh.rest, fun p op hp => hh.opTxn p op (by rw [hp]; rfl), hs.asleep⟩
  · -- a pass through the loop of `begin_op` goes to sleep
    unfold GroupCommit.step at ht
    split at ht
    · cases ht
    · cases hp : s.pc p <;> simp only [hp, reduceCtorEq, Option.some.injEq] at ht
      rw [← ht, GroupCommit.beginOp, if_pos hc, setPc_self] at hop
      cases hop
  · unfold GroupCommit.step
    split
    · rfl
    · cases hp : s.pc p with
      | inOp op => exact absurd hp (hnoop hc p op)
      | _ => simp only [hp]
  · rcases Nat.lt_or_ge e.txn s.commits.length with hlt | hge
    · refine Or.inr ⟨s.commits[e.txn], List.getElem?_eq_getElem hlt,
        hh.written e he _ (List.getElem?_eq_getElem hlt), hh.copies _ (List.getElem_mem hlt),
        fun home hhome => hh.installed e.txn _ home (List.getElem?_eq_getElem hlt) hhome⟩
    · have heq : e.txn = s.commits.length := Nat.le_antisymm (hh.loggedBound e he).2 hge
      exact Or.inl ⟨heq, hh.pending e he heq⟩

/-- Two operations overlap, and the one that ends last commits for both: after the whole commit, what
    either has logged is in the header that was written and in the blocks that were installed. -/
theorem group_commit_isolation_two_ops :
    ∃ s : State Nat, Reachable step Init s ∧ s.committing = false ∧ s.outstanding = 0 ∧
      s.logged.map (fun e => (e.op, e.block)) = [(0, 7), (1, 9), (0, 9)] ∧ s.lh = [] ∧
      ∀ e ∈ s.logged, ∃ c, s.commits[e.txn]? = some c ∧ e.block ∈ c.head ∧ c.copied = c.head ∧
        s.installs[e.txn]? = some c.head := by
  let s₀ : State Nat := ⟨0, false, [], fun _ => .user, none, 0, [], [], []⟩
  let ls : List (Label Nat) :=
    [.call 0, .call 1, .beginOp 0, .beginOp 1, .logWrite 0 7, .logWrite 1 9, .logWrite 0 9, .endOp 0,
      .endOp 1] ++ List.replicate 10 (.commit 1)
  have hend : (runSteps step s₀ ls).map (fun s => (s.committing, s.outstanding,
      s.logged.map fun e => (e.op, e.block))) = some (false, 0, [(0, 7), (1, 9), (0, 9)]) := by
    decide +kernel
  obtain ⟨s, hrun, heq⟩ := Option.map_eq_some_iff.1 hend
  obtain ⟨hidle, hzero, hpairs⟩ : s.committing = false ∧ s.outstanding = 0 ∧
      s.logged.map (fun e => (e.op, e.block)) = [(0, 7), (1, 9), (0, 9)] := by
    simpa only [Prod.mk.injEq] using heq
  have hs : Reachable step Init s := ⟨s₀, ls, rfl, hrun⟩
  obtain ⟨-, -, -, -, hlogged, hdrained, hinstalls, -⟩ := group_commit_isolation s hs
  obtain ⟨hlh, hbound⟩ := hdrained hidle hzero
  refine ⟨s, hs, hidle, hzero, hpairs, hlh, fun e he => ?_⟩
  rcases hlogged e he with ⟨htxn, -⟩ | ⟨c, hc, hmem, hcopied, hhome⟩
  · exact absurd htxn (hbound e he).ne
  · have hlt : e.txn < s.installs.length := hinstalls hidle ▸ hbound e he
    have hinst : s.installs[e.txn]? = some s.installs[e.txn] := List.getElem?_eq_getElem hlt
    exact ⟨c, hc, hmem, hcopied, hinst.trans (congrArg some (hhome _ hinst))⟩

end Xv6.GroupCommit
