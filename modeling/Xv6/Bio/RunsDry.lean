import Xv6.Bio.Rounds

set_option autoImplicit false

/-! # Buffers for `commit`

When no operation holds a buffer at the end of the last one, the buffers with references during the commit
are the pinned ones and those in the variables of `commit`. A block to install is in a pinned buffer; a
block of the log needs another one, and there is one exactly if the log does not pin all of them. -/

namespace Xv6.Bio

open Xv6.Lib

variable {Pid α : Type} [DecidableEq Pid] {g : Geometry α} {s t : State Pid α} {p q : Pid}

/-- A process has nothing to do with buffers. -/
def State.HasNothing (s : State Pid α) (p : Pid) : Prop := s.call p = .idle ∧ ∀ i, (s.cache.buf i).lock ≠ some p

instance (s : State Pid α) (p : Pid) : Decidable (s.HasNothing p) :=
  inferInstanceAs (Decidable (_ ∧ _))

/-- Blocks are read by operations, which log at most `MAXOPBLOCKS` distinct blocks each; when the last one
    ends no buffer is held; the pins are those of the log. -/
def OperationsOnly (s : State Pid α) : Label Pid α → Prop
  | .bread p _ => s.task p = .inOp
  | .logWrite p i => (((s.cache.buf i).blockno.getD 0) :: s.logged p).toFinset.card ≤ MAXOPBLOCKS
  | .endOp _ => s.outstanding = 1 → ∀ q, s.HasNothing q
  | .bpin _ _ => False
  | .bunpin _ _ => False
  | _ => True

instance (T : Task) : Decidable (T = .inOp) :=
  match T with
  | .inOp => isTrue rfl
  | .user => isFalse (by simp)
  | .commit _ _ _ => isFalse (by simp)

instance [Fintype Pid] (s : State Pid α) (l : Label Pid α) : Decidable (OperationsOnly s l) :=
  match l with
  | .bread p _ => inferInstanceAs (Decidable (s.task p = .inOp))
  | .logWrite p i => inferInstanceAs
      (Decidable ((((s.cache.buf i).blockno.getD 0) :: s.logged p).toFinset.card ≤ MAXOPBLOCKS))
  | .endOp _ => inferInstanceAs (Decidable (s.outstanding = 1 → ∀ q, s.HasNothing q))
  | .bpin _ _ | .bunpin _ _ => isFalse id
  | .cont _ | .change _ _ _ | .bwrite _ _ | .brelse _ _ | .beginOp _ | .commit _ => isTrue trivial

/-- Fewer blocks are logged than there are buffers when the last operation ends. -/
def LeavesRoom (s : State Pid α) : Label Pid α → Prop
  | .endOp _ => s.outstanding = 1 → s.lh.length < NBUF
  | _ => True

instance (s : State Pid α) (l : Label Pid α) : Decidable (LeavesRoom s l) :=
  match l with
  | .endOp _ => inferInstanceAs (Decidable (s.outstanding = 1 → s.lh.length < NBUF))
  | .bread _ _ | .cont _ | .change _ _ _ | .logWrite _ _ | .bwrite _ _ | .brelse _ _ | .bpin _ _
  | .bunpin _ _ | .beginOp _ | .commit _ => isTrue trivial

/-- The panic of `bget` has not happened in `commit`. -/
def FindsBuffers (s : State Pid α) : Prop := ∀ p, s.panic = some (.noBuffers, p) → (s.task p).commits = false

/-! ## The invariant -/

structure Dry (s : State Pid α) : Prop where
  pins : ∀ p i, s.pins p i = 0
  outside : s.committing = true → ∀ p, s.task p = .user → s.HasNothing p
  room : ∀ p, (s.task p).commits = true → s.lh.length < NBUF
  /-- What the process in `commit` has locked, or waits for, is in its variables. -/
  uses : ∀ {p ph rest reg}, s.task p = .commit ph rest reg → ∀ i,
    (s.cache.buf i).lock = some p ∨ (∃ b, s.call p = .locking i b) → ∃ r, InUse rest r ∧ reg r = some i
  safe : FindsBuffers s

omit [DecidableEq Pid] in
/-- Who holds a reference when all locks and calls are accounted for. -/
theorem CacheInv.pinned_of_ref (h : CacheInv s) (hlock : ∀ i, (s.cache.buf i).lock = none)
    (hcall : ∀ q, s.call q = .idle) (hpins : ∀ q i, s.pins q i = 0) {i : Fin NBUF}
    (hi : (s.cache.buf i).refcnt ≠ 0) : ∃ b ∈ s.pinned, (s.cache.buf i).blockno = some b := by
  by_contra hno
  refine hi ((h.refs i).eq_zero_iff.2 fun r hr => ?_)
  cases r with
  | lock => simp [State.Refers, hlock] at hr
  | call q => simp [State.Refers, hcall, Call.Waits] at hr
  | log => exact hno hr
  | pin q k => simp [State.Refers, hpins] at hr

omit [DecidableEq Pid] in
/-- If all buffers are pinned there are as many pinned blocks as buffers. -/
theorem CacheInv.all_pinned (h : CacheInv s)
    (hall : ∀ i, ∃ b ∈ s.pinned, (s.cache.buf i).blockno = some b) : NBUF ≤ s.pinned.length := by
  have hnodup : ((List.finRange NBUF).map fun i => (s.cache.buf i).blockno).Nodup := by
    refine (List.nodup_finRange NBUF).map_on fun i _ j _ hij => ?_
    obtain ⟨b, -, hb⟩ := hall i
    exact h.one hb (hij ▸ hb)
  have hsub : ((List.finRange NBUF).map fun i => (s.cache.buf i).blockno) ⊆ s.pinned.map some := by
    intro x hx
    obtain ⟨i, -, rfl⟩ := List.mem_map.1 hx
    obtain ⟨b, hb, hi⟩ := hall i
    exact List.mem_map.2 ⟨b, hb, hi.symm⟩
  have hlen := (List.subperm_of_subset hnodup hsub).length_le
  rwa [List.length_map, List.length_map, List.length_finRange] at hlen

theorem Phase.pending_length_le (ph : Phase) (lh : List Uint) (rest : List Op) :
    (ph.pending lh rest).length ≤ lh.length := by
  unfold Phase.pending
  split
  · split <;> simp
  · simp
  · exact Nat.le_refl _

def Op.ReadsHome : List Op → Prop
  | .bread .home :: rest => .bunpin ∈ rest ∨ .bwrite .log ∈ rest
  | .bread .log :: rest => ∀ r, ¬ InUse (.bread .log :: rest) r
  | _ => True

theorem forall_not_inUse (l : List Op) : (¬ InUse l .log ∧ ¬ InUse l .home) ↔ ∀ r, ¬ InUse l r :=
  ⟨fun h r => by cases r; exacts [h.1, h.2], fun h => ⟨h .log, h .home⟩⟩

instance : DecidablePred Op.ReadsHome := fun l =>
  match l with
  | .bread .home :: rest => inferInstanceAs (Decidable (.bunpin ∈ rest ∨ .bwrite .log ∈ rest))
  | .bread .log :: rest => decidable_of_iff _ (forall_not_inUse (.bread .log :: rest))
  | [] | .memmove _ _ :: _ | .header :: _ | .bwrite _ :: _ | .bunpin :: _ | .brelse _ :: _ => isTrue trivial

/-- When the block of the log is read nothing is in use. -/
theorem Phase.reads_log {ph : Phase} {rest : List Op} (h : .bread .log :: rest <:+ ph.body) (r : Reg) :
    ¬ InUse (.bread .log :: rest) r :=
  forall_suffix (P := Op.ReadsHome) (by decide) h r

omit [DecidableEq Pid] in
/-- The block at home that is read is still pinned. -/
theorem Com.reads_home {ph : Phase} {rest : List Op} {reg : Reg → Option (Fin NBUF)}
    (h : Com g s p ph (.bread .home :: rest) reg) : ph.block g.start s.lh .home ∈ s.pinned := by
  have hmem : Op.bread .home ∈ ph.body := h.suffix.subset (List.mem_cons_self ..)
  have hrest : .bunpin ∈ rest ∨ .bwrite .log ∈ rest := forall_suffix (P := Op.ReadsHome) (by decide) h.suffix
  rw [h.pinned]
  cases ph with
  | writeLog tail =>
      have hlt : tail < s.lh.length := h.bound
      simp only [Phase.block, Phase.pending, List.getD_eq_getElem?_getD, List.getElem?_eq_getElem hlt,
        Option.getD_some]
      exact List.getElem_mem hlt
  | install tail =>
      have hlt : tail < s.lh.length := h.bound
      have hunpin : Op.bunpin ∈ Op.bread .home :: rest := by
        refine List.mem_cons_of_mem _ (hrest.resolve_right fun hw => ?_)
        have hbody : Op.bwrite .log ∈ (Phase.install tail).body :=
          h.suffix.subset (List.mem_cons_of_mem _ hw)
        simp [Phase.body] at hbody
      simp only [Phase.block, Phase.pending, if_pos hunpin, List.drop_eq_getElem_cons hlt,
        List.getD_eq_getElem?_getD, List.getElem?_eq_getElem hlt, Option.getD_some]
      exact List.mem_cons_self ..
  | writeHead => exact absurd hmem (by simp [Phase.body])
  | erase => exact absurd hmem (by simp [Phase.body])

omit [DecidableEq Pid] in
/-- While a process commits the others are outside of operations. -/
theorem Inv.alone (h : Inv g s) (hd : Dry s) (hp : (s.task p).commits = true) (hq : q ≠ p) :
    s.HasNothing q := by
  have hc : s.committing = true := by
    cases hp' : s.task p with
    | commit ph rest reg => exact (h.log.com hp').1
    | user =>
        rw [hp'] at hp
        cases hp
    | inOp =>
        rw [hp'] at hp
        cases hp
  refine hd.outside hc q ?_
  have hother := h.log.others hp hq
  cases hq' : s.task q with
  | user => rfl
  | inOp => exact absurd hq' ((h.log.ops.eq_zero_iff.1 (h.log.busy hc).1) q)
  | commit ph rest reg =>
      rw [hq'] at hother
      cases hother

omit [DecidableEq Pid] in
/-- Every `bread` of `commit` finds a buffer. -/
theorem Inv.bget_finds (h : Inv g s) (hd : Dry s) {ph : Phase} {r : Reg} {rest : List Op}
    {reg : Reg → Option (Fin NBUF)} (hp : s.task p = .commit ph (.bread r :: rest) reg)
    (hidle : s.call p = .idle) : bget s.cache (ph.block g.start s.lh r) ≠ none := by
  intro hnone
  obtain ⟨-, hcom⟩ := h.log.com hp
  have hcommits : (s.task p).commits = true := by rw [hp]; rfl
  have hall : ∀ j, _ := fun j => bget_eq_none.1 hnone j (h.cache.all j)
  cases r with
  | home =>
      obtain ⟨j, hj, -⟩ := h.cache.pinned hcom.reads_home
      exact (hall j).1 hj
  | log =>
      -- nothing is locked and nobody waits: what has a reference is pinned
      have hlock : ∀ i, (s.cache.buf i).lock = none := fun i => by
        cases hl : (s.cache.buf i).lock with
        | none => rfl
        | some q =>
            by_cases hq : q = p
            · subst hq
              obtain ⟨r, hr, -⟩ := hd.uses hp i (Or.inl hl)
              exact absurd hr (Phase.reads_log hcom.suffix r)
            · exact absurd hl ((h.alone hd hcommits hq).2 i)
      have hcall : ∀ q, s.call q = .idle := fun q => by
        by_cases hq : q = p
        · rw [hq, hidle]
        · exact (h.alone hd hcommits hq).1
      have hfull := h.cache.all_pinned fun i => h.cache.pinned_of_ref hlock hcall hd.pins (hall i).2
      have hle : s.pinned.length ≤ s.lh.length := by
        rw [hcom.pinned]
        exact Phase.pending_length_le ..
      exact absurd (hd.room p hcommits) (Nat.not_lt.2 (hfull.trans hle))

/-! ## It is kept -/

omit [DecidableEq Pid] in
theorem bget_lock {c c' : Cache Pid α} {b : Uint} {i : Fin NBUF} (hget : bget c b = some (c', i))
    (j : Fin NBUF) : (c'.buf j).lock = (c.buf j).lock := by
  obtain ⟨-, rfl⟩ | ⟨-, -, rfl⟩ := bget_eq_some hget
  · exact Cache.set_lock (by rfl) j
  · exact Cache.set_lock (by rfl) j

/-- A step of `q` gives nothing to another process. -/
structure Apart (s t : State Pid α) (q : Pid) : Prop where
  pins : t.pins = s.pins
  task : ∀ p, p ≠ q → t.task p = s.task p
  call : ∀ p, p ≠ q → t.call p = s.call p
  lock : ∀ p, p ≠ q → ∀ i, (t.cache.buf i).lock = some p → (s.cache.buf i).lock = some p
  /-- The header does not grow during a commit. -/
  room : ∀ p, (s.task p).commits = true → t.lh.length ≤ s.lh.length

omit [DecidableEq Pid] in
theorem Dry.of_apart (h : Dry s) (ha : Apart s t q)
    (hsafe : t.panic = some (.noBuffers, q) → (t.task q).commits = false)
    (hpanic : ∀ x p, t.panic = some (x, p) → p = q)
    (hout : t.committing = true → ∀ p, p = q ∨ s.task p = .user → t.task p = .user → t.HasNothing p)
    (hroom : (t.task q).commits = true → t.lh.length < NBUF)
    (huses : ∀ ph rest reg, t.task q = .commit ph rest reg → ∀ i,
      (t.cache.buf i).lock = some q ∨ (∃ b, t.call q = .locking i b) → ∃ r, InUse rest r ∧ reg r = some i) :
    Dry t := by
  constructor
  case pins =>
    intro p i
    rw [ha.pins]
    exact h.pins p i
  case outside =>
    intro hc p hp
    by_cases hpq : p = q
    · exact hout hc p (Or.inl hpq) hp
    · exact hout hc p (Or.inr (ha.task p hpq ▸ hp)) hp
  case room =>
    intro p hp
    by_cases hpq : p = q
    · subst hpq
      exact hroom hp
    · rw [ha.task p hpq] at hp
      exact Nat.lt_of_le_of_lt (ha.room p hp) (h.room p hp)
  case uses =>
    intro p ph rest reg hp i hi
    by_cases hpq : p = q
    · subst hpq
      exact huses ph rest reg hp i hi
    · rw [ha.task p hpq] at hp
      rw [ha.call p hpq] at hi
      exact h.uses hp i (hi.imp_left (ha.lock p hpq i))
  case safe =>
    intro p hp
    obtain rfl := hpanic _ p hp
    exact hsafe hp

omit [DecidableEq Pid] in
/-- Those that had nothing during a commit still have nothing. -/
theorem Dry.outside_apart (h : Dry s) (ha : Apart s t q) (hcommitting : t.committing = s.committing)
    (hmine : s.committing = true → s.task q = .user → s.HasNothing q → t.HasNothing q)
    (htask : t.task q = .user → s.task q = .user) (hc : t.committing = true) (p : Pid)
    (_ : p = q ∨ s.task p = .user) (hp : t.task p = .user) : t.HasNothing p := by
  rw [hcommitting] at hc
  by_cases hpq : p = q
  · subst hpq
    exact hmine hc (htask hp) (h.outside hc p (htask hp))
  · obtain ⟨hidle, hlock⟩ := h.outside hc p (ha.task p hpq ▸ hp)
    exact ⟨(ha.call p hpq).trans hidle, fun i hl => hlock i (ha.lock p hpq i hl)⟩

omit [DecidableEq Pid] in
/-- A step that gives no process anything, and moves none. -/
theorem Dry.same_task (h : Dry s) (ha : Apart s t q) (htask : t.task q = s.task q)
    (hcommitting : t.committing = s.committing) (hcommits : (s.task q).commits = false)
    (hpanic : ∀ x p, t.panic = some (x, p) → p = q)
    (hmine : s.task q = .user → s.HasNothing q → t.HasNothing q) : Dry t := by
  refine h.of_apart ha (fun _ => by rw [htask, hcommits]) hpanic
    (h.outside_apart ha hcommitting (fun _ => hmine) fun hu => htask ▸ hu) (fun hc => ?_) fun ph rest reg hp => ?_
  · rw [htask, hcommits] at hc
    cases hc
  · rw [htask] at hp
    rw [hp] at hcommits
    cases hcommits

omit [DecidableEq Pid] in
theorem apart_fail (s : State Pid α) (x : Panic) (q : Pid) : Apart s (s.fail x q) q :=
  ⟨rfl, fun _ _ => rfl, fun _ _ => rfl, fun _ _ _ hl => hl, fun _ _ => Nat.le_refl _⟩

theorem apart_bread (s : State Pid α) (q : Pid) (b : Uint) (k : Fin NBUF → Task) :
    Apart s (s.bread q b k) q := by
  unfold State.bread
  split
  · exact apart_fail s _ q
  · rename_i c i hget
    refine ⟨rfl, fun p hp => Function.update_of_ne hp .., fun p hp => Function.update_of_ne hp ..,
      fun p _ j hl => ?_, fun _ _ => Nat.le_refl _⟩
    rw [← bget_lock hget j]
    exact hl

/-- A call gets only locks that it has waited for. -/
theorem cont_locks (hcont : s.cont q (s.call q) = some t) (i : Fin NBUF) :
    (∀ p, p ≠ q → (t.cache.buf i).lock = some p → (s.cache.buf i).lock = some p) ∧
      ((t.cache.buf i).lock = some q ∨ (∃ b, t.call q = .locking i b) →
        (s.cache.buf i).lock = some q ∨ ∃ b, s.call q = .locking i b) := by
  obtain ⟨j, b, hwait, -, hcache, hcall⟩ | ⟨j, b, -, hcache, hcall⟩ | ⟨j, -, hcache, hcall⟩ :=
    cont_cases hcont
  · have hnot : ¬ ∃ b, t.call q = .locking i b := by
      rintro ⟨b', hc⟩
      rw [hcall, Function.update_self] at hc
      split at hc <;> cases hc
    rw [hcache]
    by_cases hij : i = j
    · subst hij
      rw [Cache.set_self]
      exact ⟨fun p hp hl => absurd (Option.some.inj hl).symm hp, fun _ => Or.inr ⟨b, hwait⟩⟩
    · rw [Cache.set_of_ne _ _ hij]
      exact ⟨fun _ _ hl => hl, fun hl => Or.inl (hl.resolve_right hnot)⟩
  · have hnot : ¬ ∃ b, t.call q = .locking i b := by
      rintro ⟨b', hc⟩
      rw [hcall, Function.update_self] at hc
      cases hc
    rw [hcache, Cache.set_lock (by rfl) i]
    exact ⟨fun _ _ hl => hl, fun hl => Or.inl (hl.resolve_right hnot)⟩
  · have hnot : ¬ ∃ b, t.call q = .locking i b := by
      rintro ⟨b', hc⟩
      rw [hcall, Function.update_self] at hc
      cases hc
    rw [hcache, bdrop_buf, bunpin_lock]
    exact ⟨fun _ _ hl => hl, fun hl => Or.inl (hl.resolve_right hnot)⟩

theorem cont_frame (hcont : s.cont q (s.call q) = some t) :
    t.panic = s.panic ∧ ∀ p, p ≠ q → t.call p = s.call p := by
  refine ⟨?_, fun p hp => ?_⟩
  · cases hc : s.call q with
    | idle =>
        rw [hc] at hcont
        cases hcont
    | locking i b =>
        simp only [hc, State.cont] at hcont
        obtain ⟨-, hcont⟩ := Option.ite_none_left_eq_some.1 hcont
        obtain rfl := Option.some.inj hcont
        split <;> rfl
    | reading i b =>
        rw [hc] at hcont
        obtain rfl := Option.some.inj hcont
        rfl
    | dropping i =>
        rw [hc] at hcont
        obtain rfl := Option.some.inj hcont
        rfl
  · obtain ⟨i, b, -, -, -, hcall⟩ | ⟨i, b, -, -, hcall⟩ | ⟨i, -, -, hcall⟩ := cont_cases hcont <;>
      rw [hcall, Function.update_of_ne hp]

theorem Dry.cont (h : Dry s) (hnone : s.panic = none) (hcont : s.cont q (s.call q) = some t) : Dry t := by
  obtain ⟨hlh, -, -, hcommitting, htask⟩ := cont_log hcont
  obtain ⟨hpanic, hcall⟩ := cont_frame hcont
  rw [hnone] at hpanic
  have ha : Apart s t q := by
    refine ⟨cont_pins hcont, fun p _ => by rw [htask], hcall, fun p hp i hl => ?_, fun _ _ => by rw [hlh]⟩
    exact (cont_locks hcont i).1 p hp hl
  refine h.of_apart ha (fun hp => ?_) (fun x p hp => ?_)
    (h.outside_apart ha hcommitting (fun _ _ hnothing => ?_) fun hu => htask ▸ hu) (fun hc => ?_)
    fun ph rest reg hp i hi => ?_
  · rw [hpanic] at hp
    cases hp
  · rw [hpanic] at hp
    cases hp
  · -- there is no call to go on with
    rw [hnothing.1] at hcont
    cases hcont
  · rw [htask] at hc
    rw [hlh]
    exact h.room q hc
  · rw [htask] at hp
    exact h.uses hp i ((cont_locks hcont i).2 hi)

theorem apart_brelse (s : State Pid α) (q : Pid) (i : Fin NBUF) : Apart s (s.brelse q i) q := by
  simp only [State.brelse]
  split
  · refine ⟨rfl, fun _ _ => rfl, fun p hp => Function.update_of_ne hp .., fun p _ j hl => ?_,
      fun _ _ => Nat.le_refl _⟩
    have hlock : ((s.cache.set i { s.cache.buf i with lock := none }).buf j).lock = some p := hl
    by_cases hj : j = i
    · subst hj
      rw [Cache.set_self] at hlock
      cases hlock
    · rwa [Cache.set_of_ne _ _ hj] at hlock
  · exact apart_fail s _ q

theorem apart_bwrite (s : State Pid α) (q : Pid) (i : Fin NBUF) : Apart s (s.bwrite q i) q := by
  obtain ⟨hcache, hcall, hpins, hlh, -, htask, -⟩ := bwrite_log s q i
  exact ⟨hpins, fun p _ => by rw [htask], fun p _ => by rw [hcall], fun p _ j hl => by rwa [hcache] at hl,
    fun _ _ => by rw [hlh]⟩

omit [DecidableEq Pid] in
theorem apart_change (s : State Pid α) (byCommit : Bool) (q : Pid) (i : Fin NBUF) (d : α) :
    Apart s (s.change byCommit i d) q :=
  ⟨rfl, fun _ _ => rfl, fun _ _ => rfl, fun _ _ j hl => (Cache.set_lock (by rfl) j).symm.trans hl,
    fun _ _ => Nat.le_refl _⟩

/-- The header grows only while operations are in progress. -/
theorem Inv.apart_logWrite (h : Inv g s) (q : Pid) (i : Fin NBUF) : Apart s (s.logWrite q i) q := by
  simp only [State.logWrite]
  split
  · exact apart_fail s _ q
  split
  · exact apart_fail s _ q
  rename_i hpos
  split
  · exact ⟨rfl, fun _ _ => rfl, fun _ _ => rfl, fun _ _ _ hl => hl, fun _ _ => Nat.le_refl _⟩
  · refine ⟨rfl, fun _ _ => rfl, fun _ _ => rfl,
      fun _ _ j hl => (Cache.set_lock (by rfl) j).symm.trans hl, fun p hp => ?_⟩
    rw [h.log.no_commits (h.log.no_commit (Nat.le_of_not_lt hpos)) p] at hp
    cases hp

theorem logWrite_task (s : State Pid α) (q : Pid) (i : Fin NBUF) :
    (s.logWrite q i).task = s.task ∧ (s.logWrite q i).committing = s.committing := by
  simp only [State.logWrite]
  split
  · exact ⟨rfl, rfl⟩
  split
  · exact ⟨rfl, rfl⟩
  split <;> exact ⟨rfl, rfl⟩

/-- The panics of an operation are those of the process that runs it. -/
theorem panic_mine (hnone : s.panic = none) {x : Panic} {p : Pid} :
    ((∃ b k, (s.bread q b k).panic = some (x, p)) ∨ (∃ i, (s.bwrite q i).panic = some (x, p)) ∨
      (∃ i, (s.brelse q i).panic = some (x, p)) ∨ ∃ i, (s.logWrite q i).panic = some (x, p)) → p = q := by
  rintro (⟨b, k, hp⟩ | ⟨i, hp⟩ | ⟨i, hp⟩ | ⟨i, hp⟩)
  · unfold State.bread at hp
    split at hp
    · exact (Prod.mk.inj (Option.some.inj hp)).2.symm
    · exact absurd (hnone.symm.trans hp) (by simp)
  · simp only [State.bwrite] at hp
    split at hp
    · exact absurd (hnone.symm.trans hp) (by simp)
    · exact (Prod.mk.inj (Option.some.inj hp)).2.symm
  · simp only [State.brelse] at hp
    split at hp
    · exact absurd (hnone.symm.trans hp) (by simp)
    · exact (Prod.mk.inj (Option.some.inj hp)).2.symm
  · simp only [State.logWrite] at hp
    split at hp
    · exact (Prod.mk.inj (Option.some.inj hp)).2.symm
    split at hp
    · exact (Prod.mk.inj (Option.some.inj hp)).2.symm
    split at hp
    · exact absurd (hnone.symm.trans hp) (by simp)
    · exact absurd (hnone.symm.trans hp) (by simp)

/-- A process moves on without a panic, to or from a commit only with all buffers free. -/
theorem Dry.move (h : Dry s) (hnone : s.panic = none) {T : Task}
    (hnothing : t.committing = true → ∀ p, p = q ∨ s.task p = .user → s.HasNothing p)
    (hcommits : T.commits = true → t.committing = true) (hpins : t.pins = s.pins)
    (hpanic : t.panic = s.panic) (hcache : t.cache = s.cache) (hcall : t.call = s.call)
    (htask : t.task = Function.update s.task q T) (hlh : t.lh.length ≤ s.lh.length)
    (hroom : T.commits = true → s.lh.length < NBUF) : Dry t := by
  have hself : t.task q = T := by rw [htask, Function.update_self]
  have ha : Apart s t q :=
    ⟨hpins, fun p hp => by rw [htask, Function.update_of_ne hp], fun p _ => by rw [hcall],
      fun p _ i hl => by rwa [hcache] at hl, fun _ _ => hlh⟩
  rw [hnone] at hpanic
  refine h.of_apart ha (fun hp => ?_) (fun x p hp => ?_) (fun hc p hp _ => ?_) (fun hc => ?_)
    fun ph rest reg hp i hi => ?_
  · rw [hpanic] at hp
    cases hp
  · rw [hpanic] at hp
    cases hp
  · unfold State.HasNothing
    rw [hcall, hcache]
    exact hnothing hc p hp
  · rw [hself] at hc
    exact Nat.lt_of_le_of_lt hlh (hroom hc)
  · have hT : T.commits = true := by
      rw [hself] at hp
      rw [hp]
      rfl
    obtain ⟨hidle, hlock⟩ := hnothing (hcommits hT) q (Or.inl rfl)
    rw [hcall, hcache, hidle] at hi
    rcases hi with hl | ⟨b, hc⟩
    · exact absurd hl (hlock i)
    · cases hc

theorem Dry.enter (h : Dry s) (hnone : s.panic = none) (hc : s.committing = true) (hmine : s.HasNothing q)
    (hroom : s.lh.length < NBUF) (ph : Phase) : Dry (s.enter q ph) := by
  refine h.move hnone (fun _ p hp => ?_) (fun _ => hc) rfl rfl rfl rfl rfl ?_ fun _ => hroom
  · rcases hp with rfl | hu
    · exact hmine
    · exact h.outside hc p hu
  · show (if ph = Phase.erase then [] else s.lh).length ≤ _
    split
    · exact Nat.zero_le _
    · exact Nat.le_refl _

theorem Dry.client (hi : Inv g s) (h : Dry s) {l : Label Pid α} (hok : OperationsOnly s l)
    (hroom : LeavesRoom s l) (hnone : s.panic = none) (hfree : s.Free l.who)
    (hstep : s.client l = some t) : Dry t := by
  have hcommits := hfree.commits
  have hidle := hfree.1
  cases l with
  | bread p b =>
      have hp : s.task p = .inOp := hok
      obtain rfl := Option.some.inj hstep
      refine h.same_task (apart_bread s p b _) ?_ (bread_log s p b _).2.2.2 hcommits
        (fun x p' hp' => panic_mine hnone (Or.inl ⟨b, _, hp'⟩)) fun hu => ?_
      · unfold State.bread
        split
        · rfl
        · exact Function.update_self ..
      · rw [show s.task p = .user from hu] at hp
        cases hp
  | change p i d =>
      obtain ⟨hl, hstep⟩ := Option.ite_none_right_eq_some.1 hstep
      obtain rfl := Option.some.inj hstep
      refine h.same_task (apart_change s false p i d) rfl rfl hcommits
        (fun x p' hp' => absurd (hnone.symm.trans hp') (by simp)) fun _ hnothing => ?_
      exact absurd hl (hnothing.2 i)
  | logWrite p i =>
      obtain ⟨hl, hstep⟩ := Option.ite_none_right_eq_some.1 hstep
      obtain rfl := Option.some.inj hstep
      obtain ⟨htask, hcommitting⟩ := logWrite_task s p i
      refine h.same_task (hi.apart_logWrite p i) (by rw [htask]) hcommitting hcommits
        (fun x p' hp' => panic_mine hnone (Or.inr (Or.inr (Or.inr ⟨i, hp'⟩)))) fun _ hnothing => ?_
      exact absurd hl (hnothing.2 i)
  | bwrite p i =>
      obtain rfl := Option.some.inj hstep
      obtain ⟨hcache, hcall, -, -, -, htask, -, hcommitting⟩ := bwrite_log s p i
      refine h.same_task (apart_bwrite s p i) (by rw [htask]) hcommitting hcommits
        (fun x p' hp' => panic_mine hnone (Or.inr (Or.inl ⟨i, hp'⟩))) fun _ hnothing => ?_
      unfold State.HasNothing
      rw [hcall, hcache]
      exact hnothing
  | brelse p i =>
      obtain rfl := Option.some.inj hstep
      obtain ⟨-, -, htask, -, hcommitting⟩ := brelse_log s p i
      refine h.same_task (apart_brelse s p i) (by rw [htask]) hcommitting hcommits
        (fun x p' hp' => panic_mine hnone (Or.inr (Or.inr (Or.inl ⟨i, hp'⟩)))) fun _ hnothing => ?_
      simp only [State.brelse]
      split
      · rename_i hl
        exact absurd hl (hnothing.2 i)
      · exact hnothing
  | bpin p i => exact absurd hok id
  | bunpin p i => exact absurd hok id
  | beginOp p =>
      simp only [State.client] at hstep
      split at hstep
      · rename_i hp
        unfold State.beginOp at hstep
        obtain ⟨hquiet, hstep⟩ := Option.ite_none_left_eq_some.1 hstep
        obtain ⟨-, hstep⟩ := Option.ite_none_left_eq_some.1 hstep
        obtain rfl := Option.some.inj hstep
        refine h.move hnone (fun hc => absurd hc hquiet) (fun hT => ?_) rfl rfl rfl rfl rfl (Nat.le_refl _)
          fun hT => ?_
        · cases hT
        · cases hT
      · cases hstep
  | endOp p =>
      simp only [State.client] at hstep
      split at hstep
      · rename_i hp
        obtain rfl := Option.some.inj hstep
        have hpos : 1 ≤ s.outstanding := hi.log.ops.pos hp
        -- no commit runs while an operation is open
        have hquiet := hi.log.no_commit hpos
        simp only [State.endOp, hquiet, Bool.false_eq_true, if_false]
        split
        · rename_i hlast
          have hone : s.outstanding = 1 := by omega
          have hlt : s.lh.length < NBUF := hroom hone
          -- the last operation to end is the only one that can hold buffers, and it holds none
          have hnothing : ∀ p, s.HasNothing p := hok hone
          split
          · rename_i hlen
            have hph : writeLog s.lh 0 = .writeLog 0 := if_pos hlen
            rw [hph]
            exact h.move hnone (fun _ p' _ => hnothing p') (fun _ => rfl) rfl rfl rfl rfl rfl (Nat.le_refl _)
              fun _ => hlt
          · exact h.move hnone (fun _ p' _ => hnothing p') (fun _ => rfl) rfl rfl rfl rfl rfl (Nat.le_refl _)
              fun _ => hlt
        · refine h.move hnone (fun hc => ?_) (fun hT => ?_) rfl rfl rfl rfl rfl (Nat.le_refl _) fun hT => ?_
          · cases hc
          · cases hT
          · cases hT
      · cases hstep
  | cont p => cases hstep
  | commit p => cases hstep

theorem InUse.tail {rest : List Op} {op : Op} {r : Reg} (h : InUse (op :: rest) r) (hop : op ≠ .brelse r) :
    InUse rest r :=
  ⟨(List.mem_cons.1 h.1).resolve_left fun heq => hop heq.symm, fun hin => h.2 (List.mem_cons_of_mem _ hin)⟩

theorem Dry.commitBread (hi : Inv g s) (h : Dry s) {ph : Phase} {r : Reg} {rest : List Op}
    {reg : Reg → Option (Fin NBUF)} (hp : s.task q = .commit ph (.bread r :: rest) reg)
    (hidle : s.call q = .idle) (hnone : s.panic = none) :
    Dry (s.bread q (ph.block g.start s.lh r) fun i => .commit ph rest (Function.update reg r (some i))) := by
  have ha := apart_bread s q (ph.block g.start s.lh r) fun i =>
    .commit ph rest (Function.update reg r (some i))
  obtain ⟨-, hcom⟩ := hi.log.com hp
  obtain ⟨hlh, -⟩ := bread_log s q (ph.block g.start s.lh r) fun i =>
    .commit ph rest (Function.update reg r (some i))
  unfold State.bread at ha hlh ⊢
  split
  · rename_i hget
    exact absurd hget (hi.bget_finds h hp hidle)
  · rename_i c i hget
    rw [hget] at ha hlh
    refine h.of_apart ha (fun hpanic => absurd (hnone.symm.trans hpanic) (by simp))
      (fun x p hpanic => absurd (hnone.symm.trans hpanic) (by simp))
      (h.outside_apart ha rfl (fun _ hu => ?_) fun hu => ?_)
      (fun _ => h.room q (by rw [hp]; rfl)) fun ph' rest' reg' htask j hj => ?_
    · rw [hp] at hu
      cases hu
    · exact absurd ((Function.update_self ..).symm.trans hu) (by simp)
    · obtain ⟨rfl, rfl, rfl⟩ := Task.commit.inj ((Function.update_self ..).symm.trans htask)
      rcases hj with hl | ⟨b, hc⟩
      · -- a buffer that was locked before is in the other variable
        obtain ⟨r', hr', hreg⟩ := h.uses hp j (Or.inl ((bget_lock hget j).symm.trans hl))
        have hne : r' ≠ r := by
          rintro rfl
          exact hr'.2 (List.mem_cons_self ..)
        exact ⟨r', hr'.tail (by simp), by rw [Function.update_of_ne hne, hreg]⟩
      · obtain ⟨rfl, -⟩ := Call.locking.inj ((Function.update_self ..).symm.trans hc)
        exact ⟨r, (Phase.readsAhead hcom.suffix).2, Function.update_self ..⟩

/-- After another operation `commit` has locked no more than before. -/
theorem Dry.consume (h : Dry s) {ph : Phase} {op : Op} {rest : List Op} {reg : Reg → Option (Fin NBUF)}
    (hp : s.task q = .commit ph (op :: rest) reg) (ha : Apart (s.setTask q (.commit ph rest reg)) t q)
    (htask : t.task q = .commit ph rest reg) (hcommitting : t.committing = s.committing) (hlh : t.lh = s.lh)
    (hpanic : ∀ x p, t.panic = some (x, p) → x ≠ .noBuffers ∧ p = q)
    (hmine : ∀ i, (t.cache.buf i).lock = some q ∨ (∃ b, t.call q = .locking i b) →
      ((s.cache.buf i).lock = some q ∨ ∃ b, s.call q = .locking i b) ∧
        ∀ r, op = .brelse r → reg r ≠ some i) : Dry t := by
  have ha' : Apart s t q := by
    refine ⟨ha.pins, fun p hpq => ?_, ha.call, ha.lock, fun _ _ => by rw [hlh]⟩
    rw [ha.task p hpq]
    exact Function.update_of_ne hpq ..
  refine h.of_apart ha' (fun hx => absurd rfl (hpanic _ _ hx).1) (fun x p hx => (hpanic x p hx).2)
    (h.outside_apart ha' hcommitting (fun _ hu => ?_) fun hu => ?_) (fun _ => ?_)
    fun ph' rest' reg' htask' i hi => ?_
  · rw [hp] at hu
    cases hu
  · rw [htask] at hu
    cases hu
  · rw [hlh]
    exact h.room q (by rw [hp]; rfl)
  · obtain ⟨rfl, rfl, rfl⟩ := Task.commit.inj (htask.symm.trans htask')
    obtain ⟨hold, hrel⟩ := hmine i hi
    obtain ⟨r, hr, hreg⟩ := h.uses hp i hold
    exact ⟨r, hr.tail fun hop => hrel r hop hreg, hreg⟩

theorem Dry.exec (hi : Inv g s) (h : Dry s) {ph : Phase} {op : Op} {rest : List Op}
    {reg : Reg → Option (Fin NBUF)} (hp : s.task q = .commit ph (op :: rest) reg)
    (hidle : s.call q = .idle) (hnone : s.panic = none)
    (hexec : (s.setTask q (.commit ph rest reg)).exec g q reg op = some t) : Dry t := by
  obtain ⟨-, hcom⟩ := hi.log.com hp
  have hself : (s.setTask q (.commit ph rest reg)).task q = .commit ph rest reg := Function.update_self ..
  have hquiet : ∀ {u : State Pid α}, u.panic = none → ∀ x p, u.panic = some (x, p) →
      x ≠ Panic.noBuffers ∧ p = q := fun hu x p hx => by
    rw [hu] at hx
    cases hx
  cases op with
  | bread r => cases hexec
  | memmove dst src =>
      simp only [State.exec] at hexec
      split at hexec
      · rename_i i j _ _
        obtain rfl := Option.some.inj hexec
        refine h.consume hp (apart_change ..) hself rfl rfl (hquiet hnone) fun k hk => ⟨?_, by simp⟩
        exact hk.imp_left (Cache.set_lock (by rfl) k).symm.trans
      · cases hexec
  | header =>
      obtain ⟨i, -, rfl⟩ := Option.map_eq_some_iff.1 hexec
      refine h.consume hp (apart_change ..) hself rfl rfl (hquiet hnone) fun k hk => ⟨?_, by simp⟩
      exact hk.imp_left (Cache.set_lock (by rfl) k).symm.trans
  | bwrite r =>
      obtain ⟨i, -, rfl⟩ := Option.map_eq_some_iff.1 hexec
      obtain ⟨hcache, hcall, -, hlh, -, htask, -, hcommitting⟩ := bwrite_log (s.setTask q (.commit ph rest reg)) q i
      refine h.consume hp (apart_bwrite ..) (by rw [htask, hself]) hcommitting hlh (fun x p hx => ?_)
        fun k hk => ⟨?_, by simp⟩
      · simp only [State.bwrite] at hx
        split at hx
        · exact absurd (hnone.symm.trans hx) (by simp)
        · obtain ⟨rfl, rfl⟩ := Prod.mk.inj (Option.some.inj hx)
          exact ⟨by simp, rfl⟩
      · rw [hcache, hcall] at hk
        exact hk
  | bunpin =>
      obtain ⟨i, -, rfl⟩ := Option.map_eq_some_iff.1 hexec
      refine h.consume hp ⟨rfl, fun _ _ => rfl, fun _ _ => rfl, fun _ _ k hl => ?_, fun _ _ => Nat.le_refl _⟩
        hself rfl rfl (hquiet hnone) fun k hk => ⟨?_, by simp⟩
      · exact (bunpin_lock ..).symm.trans hl
      · exact hk.imp_left (bunpin_lock ..).symm.trans
  | brelse r =>
      obtain ⟨i, hreg, rfl⟩ := Option.map_eq_some_iff.1 hexec
      obtain ⟨hlh, -, htask, -, hcommitting⟩ := brelse_log (s.setTask q (.commit ph rest reg)) q i
      -- what a commit still has to release it has read, and holds
      have hl : (s.cache.buf i).lock = some q := by
        have hbody : InUse (.brelse r :: rest) r :=
          ⟨List.mem_cons_self .., by simp [(Phase.releasesOnce hcom.suffix).2]⟩
        obtain ⟨j, hj, -, hl⟩ := hcom.held hidle hbody
        obtain rfl : i = j := Option.some.inj (hreg.symm.trans hj)
        exact hl
      refine h.consume hp (apart_brelse ..) (by rw [htask, hself]) hcommitting hlh (fun x p hx => ?_) fun k hk => ?_
      · simp only [State.brelse] at hx
        split at hx
        · exact absurd (hnone.symm.trans hx) (by simp)
        · obtain ⟨rfl, rfl⟩ := Prod.mk.inj (Option.some.inj hx)
          exact ⟨by simp, rfl⟩
      · have hcache : ((s.setTask q (.commit ph rest reg)).brelse q i).cache =
            s.cache.set i { s.cache.buf i with lock := none } := by
          simp only [State.brelse]
          rw [if_pos (show ((s.setTask q (.commit ph rest reg)).cache.buf i).lock = some q from hl)]
          rfl
        have hcall : ((s.setTask q (.commit ph rest reg)).brelse q i).call q = .dropping i := by
          simp only [State.brelse]
          rw [if_pos (show ((s.setTask q (.commit ph rest reg)).cache.buf i).lock = some q from hl)]
          exact Function.update_self ..
        rw [hcache, hcall] at hk
        have hk' := hk.resolve_right fun hc => by
          obtain ⟨b, hc⟩ := hc
          cases hc
        -- the lock of the released buffer is gone: what q still holds is another one
        by_cases hki : k = i
        · subst hki
          rw [Cache.set_self] at hk'
          cases hk'
        · rw [Cache.set_of_ne _ _ hki] at hk'
          refine ⟨Or.inl hk', fun r' hr' hreg' => hki ?_⟩
          obtain rfl := Op.brelse.inj hr'
          exact Option.some.inj (hreg'.symm.trans hreg)

theorem Dry.commitStep (hi : Inv g s) (h : Dry s) (hidle : s.call q = .idle) (hnone : s.panic = none)
    (hstep : s.commitStep g q (s.task q) = some t) : Dry t := by
  cases hp : s.task q with
  | user =>
      rw [hp] at hstep
      cases hstep
  | inOp =>
      rw [hp] at hstep
      cases hstep
  | commit ph rest reg =>
      rw [hp] at hstep
      cases rest with
      | nil =>
          obtain rfl := Option.some.inj hstep
          have hlock : ∀ i, (s.cache.buf i).lock ≠ some q := fun i hl => by
            obtain ⟨r, hr, -⟩ := h.uses hp i (Or.inl hl)
            exact absurd hr.1 List.not_mem_nil
          have hroom := h.room q (by rw [hp]; rfl)
          have hc := (hi.log.com hp).1
          cases ph with
          | erase =>
              refine h.move hnone (fun hc => ?_) (fun hT => ?_) rfl rfl rfl rfl rfl (Nat.le_refl _) fun _ => hroom
              · cases hc
              · cases hT
          | _ => exact h.enter hnone hc ⟨hidle, hlock⟩ hroom _
      | cons op rest =>
          cases op with
          | bread r =>
              obtain rfl := Option.some.inj hstep
              exact h.commitBread hi hp hidle hnone
          | _ => exact h.exec hi hp hidle hnone hstep

/-- What a step needs. -/
def Admitted (s : State Pid α) (l : Label Pid α) : Prop := OperationsOnly s l ∧ LeavesRoom s l

instance [Fintype Pid] (s : State Pid α) (l : Label Pid α) : Decidable (Admitted s l) :=
  inferInstanceAs (Decidable (_ ∧ _))

omit [DecidableEq Pid] in
theorem OperationsOnly.balanced {l : Label Pid α} (h : OperationsOnly s l) : Balanced s l := by
  cases l with
  | bunpin p i => exact absurd h id
  | _ => trivial

theorem Dry.step {l : Label Pid α} (hi : Inv g s) (h : Dry s) (hok : Admitted s l)
    (hstep : Bio.step g s l = some t) : Dry t := by
  have hnone : s.panic = none := by
    unfold Bio.step at hstep
    obtain ⟨hp, -⟩ := Option.ite_none_left_eq_some.1 hstep
    simpa using hp
  obtain ⟨p, rfl, hcont⟩ | ⟨p, rfl, hidle, hcommit⟩ | ⟨hfree, hclient⟩ := step_cases hstep
  · exact h.cont hnone hcont
  · exact h.commitStep hi hidle hnone hcommit
  · exact h.client hi hok.1 hok.2 hnone hfree hclient

omit [DecidableEq Pid] in
theorem dry_boot (disk : Uint → α) : Dry (boot Pid disk) := by
  refine ⟨fun _ _ => rfl, fun hc => ?_, fun p hp => ?_, fun {p ph rest reg} hp => ?_, fun p hp => ?_⟩
  · cases hc
  · cases hp
  · cases hp
  · cases hp

/-- **Commit finds its buffers**, in every run where no buffer is held when the last operation ends and fewer
    blocks than there are buffers have been logged then. -/
theorem commit_finds_buffers (g : Geometry α) (disk : Uint → α) (ls : List (Label Pid α)) (s : State Pid α)
    (hok : AllSteps (step g) Admitted (boot Pid disk) ls)
    (hrun : runSteps (step g) (boot Pid disk) ls = some s) : FindsBuffers s := by
  have hinv : Inv g s ∧ Dry s := by
    refine runSteps_invariant_of_allSteps (I := fun s => Inv g s ∧ Dry s) ?_ ⟨inv_boot disk, dry_boot disk⟩
      hok hrun
    intro s l t h hok hstep
    exact ⟨h.1.step hok.1.balanced hstep, h.2.step h.1 hok hstep⟩
  exact hinv.2.safe

/-! ## The condition is exact -/

omit [DecidableEq Pid] in
/-- As many pinned blocks as buffers: all buffers are pinned. -/
theorem CacheInv.pinned_everywhere (h : CacheInv s) (hlen : s.pinned.length = NBUF) (i : Fin NBUF) :
    ∃ b ∈ s.pinned, (s.cache.buf i).blockno = some b := by
  have hcached : ∀ b : { b // b ∈ s.pinned }, ∃ j, (s.cache.buf j).blockno = some b.1 := fun b => by
    obtain ⟨j, hj, -⟩ := h.pinned b.2
    exact ⟨j, hj⟩
  choose f hf using hcached
  have hnodup : (s.pinned.attach.map f).Nodup := by
    refine (List.nodup_attach.2 h.nodupPinned).map fun b c hbc => Subtype.ext (Option.some.inj ?_)
    rw [← hf b, ← hf c, hbc]
  have huniv : (s.pinned.attach.map f).toFinset = Finset.univ := by
    refine Finset.eq_univ_of_card _ ?_
    rw [List.toFinset_card_of_nodup hnodup, List.length_map, List.length_attach, hlen, Fintype.card_fin]
  have hi : i ∈ (s.pinned.attach.map f).toFinset := by
    rw [huniv]
    exact Finset.mem_univ i
  obtain ⟨b, -, rfl⟩ := List.mem_map.1 (List.mem_toFinset.1 hi)
  exact ⟨b.1, b.2, hf b⟩

omit [DecidableEq Pid] in
/-- A header with as many blocks as there are buffers leaves none for the first block of the log. -/
theorem Inv.runs_dry (h : Inv g s) {rest : List Op} {reg : Reg → Option (Fin NBUF)}
    (hp : s.task p = .commit (.writeLog 0) (.bread .log :: rest) reg) (hlen : s.lh.length = NBUF)
    (hlog : (Phase.writeLog 0).block g.start s.lh .log ∉ s.lh) :
    bget s.cache ((Phase.writeLog 0).block g.start s.lh .log) = none := by
  have hpinned : s.pinned = s.lh := (h.log.com hp).2.pinned
  refine bget_eq_none.2 fun j _ => ?_
  obtain ⟨b, hb, hj⟩ := h.cache.pinned_everywhere (hpinned ▸ hlen) j
  refine ⟨fun hblock => ?_, h.cache.refcnt_pos (r := .log) ⟨b, hb, hj⟩⟩
  rw [hj] at hblock
  obtain rfl := Option.some.inj hblock
  exact hlog (hpinned ▸ hb)

/-! ## Runs on fixed inputs -/

/-- A process reads a block into buffer `i`, logs it and releases it. -/
def logBlock {P : Type} (p : P) (i : Fin NBUF) : List (Label P Unit) :=
  [.bread p (100 + BitVec.ofNat 32 i), .cont p, .cont p, .logWrite p i, .brelse p i, .cont p]

/-- One operation logs one block and commits. -/
def commitOne : List (Label Unit Unit) :=
  let c := .commit ()
  let k := .cont ()
  [.beginOp ()] ++ logBlock () ⟨0, NBUF_pos⟩ ++ [.endOp ()] ++
    [c, k, k, c, k, c, c, c, k, c, k, c] ++ [c, k, k, c, c, c, k, c] ++
    [c, k, c, k, c, c, c, c, k, c, k, c] ++ [c, k, c, c, c, k, c]

theorem commit_finds_buffers_one : ∃ s,
    runSteps (step ⟨0, fun _ _ => ()⟩) (boot Unit fun _ => ()) commitOne = some s ∧
      s.committing = false ∧ FindsBuffers s := by
  have hok : AllSteps (step ⟨0, fun _ _ => ()⟩) Admitted (boot Unit fun _ => ()) commitOne := by
    decide +kernel
  have hrun : (runSteps (step ⟨0, fun _ _ => ()⟩) (boot Unit fun _ => ()) commitOne).map
      State.committing = some false := by decide +kernel
  obtain ⟨s, hs, hc⟩ := Option.map_eq_some_iff.1 hrun
  exact ⟨s, hs, hc, commit_finds_buffers _ _ commitOne s hok hs⟩

/-- Three operations log ten blocks each. -/
def fullLog : List (Label (Fin 3) Unit) :=
  [.beginOp 0, .beginOp 1, .beginOp 2] ++
    (List.finRange NBUF).flatMap (fun i => logBlock ⟨i.1 / 10 % 3, Nat.mod_lt _ (by decide)⟩ i) ++
    [.endOp 0, .endOp 1, .endOp 2, .commit 2]

/-- Without the condition the first `bread` of `commit` panics. -/
theorem full_log_panics : ¬ ∀ (ls : List (Label (Fin 3) Unit)) (s : State (Fin 3) Unit),
    AllSteps (step ⟨0, fun _ _ => ()⟩) OperationsOnly (boot (Fin 3) fun _ => ()) ls →
      runSteps (step ⟨0, fun _ _ => ()⟩) (boot (Fin 3) fun _ => ()) ls = some s → FindsBuffers s := by
  intro hall
  have hok : AllSteps (step ⟨0, fun _ _ => ()⟩) OperationsOnly (boot (Fin 3) fun _ => ()) fullLog := by
    decide +kernel
  have hpanic : (runSteps (step ⟨0, fun _ _ => ()⟩) (boot (Fin 3) fun _ => ()) fullLog).map
      (fun s => (s.panic, (s.task 2).commits)) = some (some (.noBuffers, 2), true) := by
    decide +kernel
  obtain ⟨s, hs, hx⟩ := Option.map_eq_some_iff.1 hpanic
  obtain ⟨hp, hc⟩ := Prod.mk.inj hx
  rw [hall fullLog s hok hs 2 hp] at hc
  cases hc

end Xv6.Bio
