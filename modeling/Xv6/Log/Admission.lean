import Mathlib.Algebra.Order.BigOperators.Group.Finset
import Xv6.Log.GroupCommitProof

set_option autoImplicit false

/-! # The admission test of `begin_op`

`begin_op` reserves `MAXOPBLOCKS` blocks of the log for each operation it admits. The invariant says
that the header together with what is still reserved fits into the log, so that a block that is new
to the header always has room. `log_write` makes its test for a full log before it looks whether the
block is already there, and the full log is where the two differ. -/

namespace Xv6.GroupCommit

open Xv6.Lib

variable {Pid : Type}

/-- The state after `initlog`. -/
def start (Pid : Type) : State Pid := ⟨0, false, [], fun _ => .user, none, 0, [], [], []⟩

/-- The distinct blocks that operation `op` has logged. -/
def State.blocksOf (s : State Pid) (op : Nat) : Finset Uint :=
  ((s.logged.filter fun e => decide (e.op = op)).map LogWrite.block).toFinset

/-- The operation that `p` is in stays within `MAXOPBLOCKS` distinct blocks. -/
def WithinBudget (s : State Pid) : Label Pid → Prop
  | .logWrite p b => ∀ op ∈ (s.pc p).op?, (insert b (s.blocksOf op)).card ≤ MAXOPBLOCKS
  | _ => True

/-- A `log_write` of a block that is in the header already, while the header is full. -/
def AbsorbsWhenFull (s : State Pid) : Label Pid → Prop
  | .logWrite _ b => b ∈ s.lh ∧ s.lh.length = LOGBLOCKS
  | _ => False

instance (s : State Pid) (l : Label Pid) : Decidable (WithinBudget s l) :=
  match l with
  | .logWrite p b =>
    inferInstanceAs (Decidable (∀ op ∈ (s.pc p).op?, (insert b (s.blocksOf op)).card ≤ MAXOPBLOCKS))
  | .call _ | .beginOp _ | .kill _ | .endOp _ | .commit _ => isTrue trivial

instance (s : State Pid) (l : Label Pid) : Decidable (AbsorbsWhenFull s l) :=
  match l with
  | .logWrite _ b => inferInstanceAs (Decidable (b ∈ s.lh ∧ s.lh.length = LOGBLOCKS))
  | .call _ | .beginOp _ | .kill _ | .endOp _ | .commit _ => isFalse id

/-- How many distinct blocks the operation that `p` is in has logged. -/
def State.spent (s : State Pid) (p : Pid) : Nat :=
  match (s.pc p).op? with
  | some op => (s.blocksOf op).card
  | none => 0

/-- What the header holds and what the operations may still add fits into the log. -/
structure Reserved (s : State Pid) : Prop where
  budget : ∀ p, s.spent p ≤ MAXOPBLOCKS
  room : ∃ ops : Finset Pid, (∀ p, p ∈ ops ↔ (s.pc p).op?.isSome) ∧
    s.lh.length + ops.card * MAXOPBLOCKS ≤ LOGBLOCKS + ∑ p ∈ ops, s.spent p

theorem mem_blocksOf {s : State Pid} {op : Nat} {b : Uint} :
    b ∈ s.blocksOf op ↔ ∃ e ∈ s.logged, e.op = op ∧ e.block = b := by
  simp [State.blocksOf, and_assoc]

theorem spent_of_op {s : State Pid} {p : Pid} {op : Nat} (h : (s.pc p).op? = some op) :
    s.spent p = (s.blocksOf op).card := by
  simp [State.spent, h]

theorem spent_of_none {s : State Pid} {p : Pid} (h : (s.pc p).op? = none) : s.spent p = 0 := by
  simp [State.spent, h]

theorem spent_congr {s t : State Pid} (hl : t.logged = s.logged) {p : Pid}
    (hp : (t.pc p).op? = (s.pc p).op?) : t.spent p = s.spent p := by
  unfold State.spent State.blocksOf
  rw [hp, hl]

/-- A step that logs nothing, moves no process into or out of an operation and does not make the
    header longer. -/
theorem Reserved.frame {s t : State Pid} (h : Reserved s) (hl : t.logged = s.logged)
    (hlh : t.lh.length ≤ s.lh.length) (hp : ∀ p, (t.pc p).op? = (s.pc p).op?) : Reserved t := by
  obtain ⟨ops, hops, hroom⟩ := h.room
  refine ⟨fun p => ?_, ops, fun p => ?_, ?_⟩
  · rw [spent_congr hl (hp p)]
    exact h.budget p
  · rw [hp]
    exact hops p
  · rw [Finset.sum_congr rfl fun p _ => spent_congr hl (hp p)]
    omega

variable [DecidableEq Pid]

theorem setPc_op? {s : State Pid} {p : Pid} {c : Pc} (hc : c.op? = (s.pc p).op?) (q : Pid) :
    ((s.setPc p c).pc q).op? = (s.pc q).op? := by
  by_cases hq : q = p
  · subst hq
    rw [setPc_self, hc]
  · rw [setPc_of_ne s c hq]

/-- A new operation, which has logged nothing. -/
theorem Reserved.admit {s t : State Pid} (h : Reserved s) {ops : Finset Pid}
    (hops : ∀ p, p ∈ ops ↔ (s.pc p).op?.isSome) {p : Pid} (hmem : p ∉ ops) {op : Nat}
    (hnew : s.blocksOf op = ∅) (hfit : s.lh.length + (ops.card + 1) * MAXOPBLOCKS ≤ LOGBLOCKS)
    (hl : t.logged = s.logged) (hlh : t.lh = s.lh)
    (hothers : ∀ q, q ≠ p → (t.pc q).op? = (s.pc q).op?) (hop : (t.pc p).op? = some op) :
    Reserved t := by
  refine ⟨fun q => ?_, insert p ops, fun q => ?_, ?_⟩
  · by_cases hq : q = p
    · subst hq
      have hzero : t.blocksOf op = ∅ := by
        rw [← hnew, State.blocksOf, State.blocksOf, hl]
      simp [spent_of_op hop, hzero]
    · exact (spent_congr hl (hothers q hq)).trans_le (h.budget q)
  · by_cases hq : q = p
    · subst hq
      simp [hop]
    · rw [hothers q hq, Finset.mem_insert, hops]
      simp [hq]
  · rw [Finset.card_insert_of_notMem hmem, hlh]
    omega

theorem Reserved.beginOp {s : State Pid} (h : Reserved s) (hi : Inv s) {p : Pid}
    (hp : s.pc p = .begin) : Reserved (beginOp s p) := by
  have hop : (s.pc p).op? = none := by rw [hp]; rfl
  unfold GroupCommit.beginOp
  split
  · exact h.frame rfl (Nat.le_refl _) (setPc_op? (by rw [hop]; rfl))
  · split
    · exact h.frame rfl (Nat.le_refl _) (setPc_op? (by rw [hop]; rfl))
    · rename_i hfull
      -- the operation is new and has logged nothing
      obtain ⟨ops, hops, -⟩ := h.room
      obtain ⟨n, ⟨A, hA, hcard⟩, hout⟩ := hi.sched.counted
      have hn : ops.card = n := by
        rw [← hcard, Finset.ext fun q => (hops q).trans (hA q).symm]
      have hmem : p ∉ ops := by
        rw [hops, hop]
        simp
      have hnew : s.blocksOf s.nextOp = ∅ := by
        refine Finset.eq_empty_of_forall_notMem fun b hb => ?_
        obtain ⟨e, he, heq, -⟩ := mem_blocksOf.1 hb
        have := (hi.history.loggedBound e he).1
        omega
      have hfit : s.lh.length + (ops.card + 1) * MAXOPBLOCKS ≤ LOGBLOCKS := by
        rw [hout, ← hn] at hfull
        exact_mod_cast Int.not_lt.1 hfull
      exact h.admit hops hmem hnew hfit rfl rfl (fun q hq => by rw [setPc_of_ne _ _ hq])
        (by rw [setPc_self]; rfl)

omit [DecidableEq Pid] in
/-- The blocks of an operation in progress are in the header. -/
theorem blocksOf_subset {s : State Pid} (hi : Inv s) {p : Pid} {op : Nat}
    (hop : (s.pc p).op? = some op) {b : Uint} (hb : b ∈ s.blocksOf op) : b ∈ s.lh := by
  obtain ⟨e, he, heq, rfl⟩ := mem_blocksOf.1 hb
  exact hi.history.pending e he (hi.history.opTxn p op hop e he heq)

omit [DecidableEq Pid] in
/-- A block that is new to the header has room. -/
theorem Reserved.lt_of_notMem {s : State Pid} (h : Reserved s) (hi : Inv s) {p : Pid} {op : Nat}
    (hop : (s.pc p).op? = some op) {b : Uint}
    (hbudget : (insert b (s.blocksOf op)).card ≤ MAXOPBLOCKS) (hb : b ∉ s.lh) :
    s.lh.length < LOGBLOCKS := by
  obtain ⟨ops, hops, hroom⟩ := h.room
  have hmem : p ∈ ops := by
    rw [hops, hop]
    rfl
  have hlt : s.spent p < MAXOPBLOCKS := by
    rw [Finset.card_insert_of_notMem fun hmem => hb (blocksOf_subset hi hop hmem)] at hbudget
    rw [spent_of_op hop]
    omega
  have hsum : ∑ q ∈ ops, s.spent q < ∑ _q ∈ ops, MAXOPBLOCKS :=
    Finset.sum_lt_sum (fun q _ => h.budget q) ⟨p, hmem, hlt⟩
  rw [Finset.sum_const, nsmul_eq_mul, Nat.cast_id] at hsum
  omega

omit [DecidableEq Pid] in
theorem Reserved.length_le {s : State Pid} (h : Reserved s) : s.lh.length ≤ LOGBLOCKS := by
  obtain ⟨ops, -, hroom⟩ := h.room
  have hsum : ∑ p ∈ ops, s.spent p ≤ ops.card • MAXOPBLOCKS :=
    Finset.sum_le_card_nsmul ops s.spent MAXOPBLOCKS fun p _ => h.budget p
  rw [nsmul_eq_mul, Nat.cast_id] at hsum
  omega

theorem absorb_of_mem {b : Uint} {lh : List Uint} (h : b ∈ lh) : absorb b lh = lh := by
  induction lh with
  | nil => simp at h
  | cons b' bs ih =>
      by_cases hb : b' = b
      · simp [absorb, hb]
      · have hbs : b ∈ bs := by
          rcases List.mem_cons.1 h with rfl | hbs
          · exact absurd rfl hb
          · exact hbs
        simp [absorb, hb, ih hbs]

theorem length_absorb_of_notMem {b : Uint} {lh : List Uint} (h : b ∉ lh) :
    (absorb b lh).length = lh.length + 1 := by
  induction lh with
  | nil => rfl
  | cons b' bs ih =>
      obtain ⟨hb, hbs⟩ := not_or.1 (mt List.mem_cons.2 h)
      simp [absorb, Ne.symm hb, ih hbs]

omit [DecidableEq Pid] in
/-- What `log_write` does where it does not panic. -/
theorem logWrite_eq {s : State Pid} {op : Nat} {b : Uint} (hfull : s.lh.length < LOGBLOCKS)
    (hout : 0 < s.outstanding) : logWrite s op b = { s with
      lh := absorb b s.lh, logged := s.logged ++ [LogWrite.mk op b s.commits.length] } := by
  unfold logWrite
  rw [if_neg (Nat.not_le.2 hfull), if_neg (by omega)]

omit [DecidableEq Pid] in
theorem Reserved.logWrite {s : State Pid} (h : Reserved s) (hi : Inv s) {p : Pid} {op : Nat}
    (hp : s.pc p = .inOp op) {b : Uint} (hbudget : (insert b (s.blocksOf op)).card ≤ MAXOPBLOCKS)
    (hfull : s.lh.length < LOGBLOCKS) : Reserved (logWrite s op b) := by
  have hop : (s.pc p).op? = some op := by rw [hp]; rfl
  have hout := (hi.sched.outstanding_pos hp).1
  obtain ⟨ops, hops, hroom⟩ := h.room
  have hmem : p ∈ ops := by
    rw [hops, hop]
    rfl
  rw [logWrite_eq hfull hout]
  let t : State Pid := { s with
    lh := absorb b s.lh, logged := s.logged ++ [LogWrite.mk op b s.commits.length] }
  have hself : t.blocksOf op = insert b (s.blocksOf op) := by
    ext x
    rw [mem_blocksOf, Finset.mem_insert, mem_blocksOf]
    simp only [t, List.mem_append, List.mem_singleton]
    constructor
    · rintro ⟨e, he | rfl, heq, rfl⟩
      · exact Or.inr ⟨e, he, heq, rfl⟩
      · exact Or.inl rfl
    · rintro (rfl | ⟨e, he, heq, rfl⟩)
      · exact ⟨_, Or.inr rfl, rfl, rfl⟩
      · exact ⟨e, Or.inl he, heq, rfl⟩
  -- an operation is one process's: the others have spent what they had
  have hother : ∀ q, q ≠ p → t.spent q = s.spent q := by
    intro q hq
    cases hqop : (s.pc q).op? with
    | none => rw [spent_of_none (s := t) hqop, spent_of_none hqop]
    | some op' =>
        have hne : op ≠ op' := by
          rintro rfl
          exact hq (hi.history.opUnique q p op hqop hop)
        rw [spent_of_op (s := t) hqop, spent_of_op hqop]
        simp [t, State.blocksOf, hne]
  have hspent : t.spent p = (insert b (s.blocksOf op)).card := by
    rw [spent_of_op (s := t) hop, hself]
  refine ⟨fun q => ?_, ops, hops, ?_⟩
  · by_cases hq : q = p
    · subst hq
      exact hspent.trans_le hbudget
    · exact (hother q hq).trans_le (h.budget q)
  · show (absorb b s.lh).length + _ ≤ LOGBLOCKS + ∑ q ∈ ops, t.spent q
    have hsum : ∑ q ∈ ops, s.spent q ≤ ∑ q ∈ ops, t.spent q := by
      refine Finset.sum_le_sum fun q _ => ?_
      by_cases hq : q = p
      · subst hq
        rw [hspent, spent_of_op hop]
        exact Finset.card_le_card (Finset.subset_insert ..)
      · exact (hother q hq).ge
    by_cases hb : b ∈ s.lh
    · rw [absorb_of_mem hb]
      omega
    -- a block that is new to the log is new to the operation as well
    · have hlt : ∑ q ∈ ops, s.spent q < ∑ q ∈ ops, t.spent q := by
        refine Finset.sum_lt_sum (fun q _ => ?_) ⟨p, hmem, ?_⟩
        · by_cases hq : q = p
          · subst hq
            rw [hspent, spent_of_op hop]
            exact Finset.card_le_card (Finset.subset_insert ..)
          · exact (hother q hq).ge
        · rw [hspent, spent_of_op hop,
            Finset.card_insert_of_notMem fun hmem => hb (blocksOf_subset hi hop hmem)]
          omega
      rw [length_absorb_of_notMem hb]
      omega

/-- An operation ends; what it has not used is no longer reserved. -/
theorem Reserved.leave {s t : State Pid} (h : Reserved s) {p : Pid} {op : Nat}
    (hop : (s.pc p).op? = some op) (hl : t.logged = s.logged) (hlh : t.lh = s.lh)
    (hothers : ∀ q, q ≠ p → (t.pc q).op? = (s.pc q).op?) (hnone : (t.pc p).op? = none) :
    Reserved t := by
  obtain ⟨ops, hops, hroom⟩ := h.room
  have hmem : p ∈ ops := by
    rw [hops, hop]
    rfl
  have hspent : ∀ q ∈ ops.erase p, t.spent q = s.spent q :=
    fun q hq => spent_congr hl (hothers q (Finset.ne_of_mem_erase hq))
  refine ⟨fun q => ?_, ops.erase p, fun q => ?_, ?_⟩
  · by_cases hq : q = p
    · rw [hq, spent_of_none hnone]
      exact Nat.zero_le _
    · exact (spent_congr hl (hothers q hq)).trans_le (h.budget q)
  · by_cases hq : q = p
    · simp [hq, hnone]
    · rw [Finset.mem_erase, hothers q hq, hops]
      simp [hq]
  · have hsum : s.spent p + ∑ q ∈ ops.erase p, s.spent q = ∑ q ∈ ops, s.spent q :=
      Finset.add_sum_erase ops s.spent hmem
    have hcard := Finset.card_erase_add_one hmem
    have hbudget := h.budget p
    have hsame : ∑ q ∈ ops.erase p, t.spent q = ∑ q ∈ ops.erase p, s.spent q :=
      Finset.sum_congr rfl hspent
    rw [← hcard, Nat.succ_mul] at hroom
    rw [hsame, hlh]
    omega

theorem Reserved.endOp {s : State Pid} (h : Reserved s) (hi : Inv s) {p : Pid} {op : Nat}
    (hp : s.pc p = .inOp op) : Reserved (endOp s p) := by
  have hop : (s.pc p).op? = some op := by rw [hp]; rfl
  have hquiet := (hi.sched.outstanding_pos hp).2
  unfold GroupCommit.endOp
  dsimp only
  rw [if_neg (by simp [hquiet])]
  split
  · refine h.leave hop rfl rfl (fun q hq => ?_) ?_
    · rw [setPc_of_ne _ _ hq]
    · rw [setPc_self]
      rfl
  · refine h.leave hop rfl rfl (fun q hq => ?_) ?_
    · rw [setPc_of_ne _ _ hq]
      exact wakeup_op? _ q
    · rw [setPc_self]
      rfl

theorem Reserved.commitStep {s : State Pid} (h : Reserved s) {p : Pid} {c : CommitPc}
    (hp : s.pc p = .committing c) : Reserved (commitStep s p c) := by
  have hop : (s.pc p).op? = none := by rw [hp]; rfl
  have hmove : ∀ c', ∀ q, ((s.setPc p (.committing c')).pc q).op? = (s.pc q).op? :=
    fun c' => setPc_op? (by rw [hop]; rfl)
  cases c with
  | test =>
      dsimp only [GroupCommit.commitStep]
      split
      · exact h.frame rfl (Nat.le_refl _) (hmove _)
      · exact h.frame rfl (Nat.le_refl _) (hmove _)
  | writeLog tail copied =>
      dsimp only [GroupCommit.commitStep]
      split
      · exact h.frame rfl (Nat.le_refl _) (hmove _)
      · exact h.frame rfl (Nat.le_refl _) (hmove _)
  | writeHead copied => exact h.frame rfl (Nat.le_refl _) (hmove _)
  | install tail home =>
      dsimp only [GroupCommit.commitStep]
      split
      · exact h.frame rfl (Nat.le_refl _) (hmove _)
      · exact h.frame rfl (Nat.le_refl _) (hmove _)
  | erase => exact h.frame rfl (Nat.zero_le _) (hmove _)
  | finish =>
      refine h.frame rfl (Nat.le_refl _) fun q => ?_
      refine (setPc_op? ?_ q).trans (wakeup_op? _ q)
      rw [wakeup_op?]
      exact hop.symm

theorem commitStep_panic (s : State Pid) (p : Pid) (c : CommitPc) :
    (commitStep s p c).panic = s.panic := by
  cases c with
  | writeHead copied => rfl
  | erase => rfl
  | finish => rfl
  | _ =>
      dsimp only [GroupCommit.commitStep]
      split
      · rfl
      · rfl

/-- A step that stays within the budgets and does not absorb a block into a full log. -/
theorem Reserved.step {s t : State Pid} {l : Label Pid} (h : Reserved s) (hi : Inv s)
    (hnot : s.panic ≠ some .tooBig) (hbudget : WithinBudget s l) (hok : ¬ AbsorbsWhenFull s l)
    (hstep : step s l = some t) : Reserved t ∧ t.panic ≠ some .tooBig := by
  unfold GroupCommit.step at hstep
  split at hstep
  · cases hstep
  · cases l with
    | call p =>
        cases hp : s.pc p <;> simp only [hp, reduceCtorEq, Option.some.injEq] at hstep
        subst hstep
        exact ⟨h.frame rfl (Nat.le_refl _) (setPc_op? (by rw [hp]; rfl)), hnot⟩
    | beginOp p =>
        cases hp : s.pc p <;> simp only [hp, reduceCtorEq, Option.some.injEq] at hstep
        subst hstep
        refine ⟨h.beginOp hi hp, ?_⟩
        unfold GroupCommit.beginOp
        split
        · exact hnot
        · split
          · exact hnot
          · exact hnot
    | kill p =>
        cases hp : s.pc p <;> simp only [hp, reduceCtorEq, Option.some.injEq] at hstep
        subst hstep
        exact ⟨h.frame rfl (Nat.le_refl _) (setPc_op? (by rw [hp]; rfl)), hnot⟩
    | logWrite p b =>
        cases hp : s.pc p <;> simp only [hp, reduceCtorEq, Option.some.injEq] at hstep
        rename_i op
        subst hstep
        have hop : (s.pc p).op? = some op := by rw [hp]; rfl
        have hfits := hbudget op hop
        have hfull : s.lh.length < LOGBLOCKS := by
          by_cases hb : b ∈ s.lh
          · exact Nat.lt_of_le_of_ne h.length_le fun hlen => hok ⟨hb, hlen⟩
          · exact h.lt_of_notMem hi hop hfits hb
        refine ⟨h.logWrite hi hp hfits hfull, ?_⟩
        rw [logWrite_eq hfull (hi.sched.outstanding_pos hp).1]
        exact hnot
    | endOp p =>
        cases hp : s.pc p <;> simp only [hp, reduceCtorEq, Option.some.injEq] at hstep
        subst hstep
        refine ⟨h.endOp hi hp, ?_⟩
        unfold GroupCommit.endOp
        dsimp only
        rw [if_neg (by simp [(hi.sched.outstanding_pos hp).2])]
        split
        · exact hnot
        · exact hnot
    | commit p =>
        cases hp : s.pc p <;> simp only [hp, reduceCtorEq, Option.some.injEq] at hstep
        rename_i c
        subst hstep
        refine ⟨h.commitStep hp, ?_⟩
        exact (commitStep_panic s p c).trans_ne hnot

omit [DecidableEq Pid] in
theorem reserved_init {s : State Pid} (h : Init s) : Reserved s := by
  subst h
  exact ⟨fun p => by simp [State.spent, Pc.op?], ∅, fun p => by simp [Pc.op?], by simp⟩

/-- Absorbing a block into a full log panics. -/
theorem step_absorbsWhenFull {s t : State Pid} {l : Label Pid} (hbad : AbsorbsWhenFull s l)
    (hstep : step s l = some t) : t.panic = some .tooBig := by
  cases l with
  | logWrite p b =>
      unfold GroupCommit.step at hstep
      split at hstep
      · cases hstep
      · cases hp : s.pc p <;> simp only [hp, reduceCtorEq, Option.some.injEq] at hstep
        subst hstep
        unfold GroupCommit.logWrite
        rw [if_pos (Nat.le_of_eq hbad.2.symm)]
  | _ => exact absurd hbad id

/-- **The admission test.** In a run whose operations each log at most `MAXOPBLOCKS` distinct
    blocks, `too big a transaction` is not reached if and only if no `log_write` is for a block that
    is already in a full header. -/
theorem log_admission_iff (s₀ u : State Pid) (ls : List (Label Pid)) (hinit : Init s₀)
    (hrun : runSteps step s₀ ls = some u) (hbudget : AllSteps step WithinBudget s₀ ls) :
    u.panic ≠ some .tooBig ↔ AllSteps step (fun s l => ¬ AbsorbsWhenFull s l) s₀ ls := by
  have hgood : Inv s₀ ∧ Reserved s₀ ∧ s₀.panic ≠ some .tooBig :=
    ⟨inv_init hinit, reserved_init hinit, by subst hinit; simp⟩
  clear hinit
  induction ls generalizing s₀ with
  | nil =>
      obtain rfl : s₀ = u := Option.some.inj hrun
      exact ⟨fun _ => trivial, fun _ => hgood.2.2⟩
  | cons l ls ih =>
      obtain ⟨t, ht, hrest⟩ := runSteps_cons_eq_some.1 hrun
      obtain ⟨hi, hres, hnot⟩ := hgood
      by_cases hbad : AbsorbsWhenFull s₀ l
      · -- the kernel has stopped
        have hpanic := step_absorbsWhenFull hbad ht
        have hu : u = t := by
          cases ls with
          | nil => exact (Option.some.inj hrest).symm
          | cons l' ls' =>
              obtain ⟨t', ht', -⟩ := runSteps_cons_eq_some.1 hrest
              simp [GroupCommit.step, hpanic] at ht'
        rw [hu]
        exact ⟨fun h => absurd hpanic h, fun h => absurd hbad h.1⟩
      · have hgood := hres.step hi hnot hbudget.1 hbad ht
        have hiff := ih t hrest (hbudget.2 t ht) ⟨hi.step ht, hgood.1, hgood.2⟩
        refine hiff.trans ⟨fun h => ⟨hbad, fun t' ht' => ?_⟩, fun h => h.2 t ht⟩
        obtain rfl : t = t' := Option.some.inj (ht.symm.trans ht')
        exact h

/-- One process logs one block twice. -/
theorem log_admission_iff_one_op :
    ∃ u : State Nat, runSteps step (start Nat) [.call 0, .beginOp 0, .logWrite 0 7, .logWrite 0 7] =
      some u ∧ u.panic ≠ some .tooBig := by
  let ls : List (Label Nat) := [.call 0, .beginOp 0, .logWrite 0 7, .logWrite 0 7]
  let u : State Nat := (runSteps step (start Nat) ls).get (by decide)
  have hrun : runSteps step (start Nat) ls = some u := (Option.some_get _).symm
  exact ⟨u, hrun, (log_admission_iff (start Nat) u ls rfl hrun (by decide)).2 (by decide)⟩

/-- Three operations use their whole budget, and the first logs one of its blocks again. -/
def fullLog : List (Label Nat) :=
  (List.range 3).flatMap (fun p => [.call p, .beginOp p]) ++
    (List.range 3).flatMap (fun p => (List.range MAXOPBLOCKS).map fun i =>
      .logWrite p (BitVec.ofNat 32 (100 * p + i))) ++ [.logWrite 0 0]

/-- Every operation stays within its budget, and the last `log_write` panics. -/
theorem absorb_at_full_log_panics :
    AllSteps step WithinBudget (start Nat) fullLog ∧
      ∃ u, runSteps step (start Nat) fullLog = some u ∧ u.panic = some .tooBig := by
  let u : State Nat := (runSteps step (start Nat) fullLog).get (by decide +kernel)
  have hrun : runSteps step (start Nat) fullLog = some u := (Option.some_get _).symm
  exact ⟨by decide +kernel, u, hrun, by decide +kernel⟩

end Xv6.GroupCommit
