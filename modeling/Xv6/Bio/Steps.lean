import Xv6.Bio.Committing

set_option autoImplicit false

/-! # The invariant is kept

First what each operation does to the cache and what other processes see of it; then the log. -/

namespace Xv6.Bio

open Xv6.Lib

variable {Pid α : Type} [DecidableEq Pid] {g : Geometry α} {s t : State Pid α} {p q : Pid}

structure Inv (g : Geometry α) (s : State Pid α) : Prop where
  cache : CacheInv s
  log : LogInv g s

/-! ## `bread` -/

/-- What `bread` leaves as it is, whether it panics or not. -/
theorem bread_log (s : State Pid α) (p : Pid) (b : Uint) (k : Fin NBUF → Task) :
    (s.bread p b k).lh = s.lh ∧ (s.bread p b k).pinned = s.pinned ∧
      (s.bread p b k).outstanding = s.outstanding ∧ (s.bread p b k).committing = s.committing := by
  unfold State.bread
  split <;> exact ⟨rfl, rfl, rfl, rfl⟩

theorem CacheInv.bread (h : CacheInv s) (hidle : s.call p = .idle) (b : Uint) (k : Fin NBUF → Task) :
    CacheInv (s.bread p b k) := by
  unfold State.bread
  split
  · exact h.congr rfl rfl rfl rfl
  · rename_i c i hget
    have hcall : ∀ q, q ≠ p → Function.update s.call p (Call.locking i b) q = s.call q := fun q hq =>
      Function.update_of_ne hq ..
    obtain ⟨hb, hc⟩ | ⟨hmiss, hfree, hc⟩ := bget_eq_some hget
    · exact h.breadHit hidle hb hc (Function.update_self ..) hcall rfl rfl
    · exact h.breadMiss hidle hmiss hfree hc (Function.update_self ..) hcall rfl rfl

omit [DecidableEq Pid] in
/-- `bget` leaves the buffers alone that have references. -/
theorem CacheInv.bget_keeps {b : Uint} {c : Cache Pid α} {i j : Fin NBUF}
    (hget : bget s.cache b = some (c, i)) (hj : (s.cache.buf j).refcnt ≠ 0) :
    (c.buf j).blockno = (s.cache.buf j).blockno ∧ (c.buf j).lock = (s.cache.buf j).lock := by
  obtain ⟨-, rfl⟩ | ⟨-, hfree, rfl⟩ := bget_eq_some hget
  · exact ⟨Cache.set_blockno (by rfl) j, Cache.set_lock (by rfl) j⟩
  · have hji : j ≠ i := by
      rintro rfl
      exact hj hfree
    rw [Cache.set_of_ne _ _ hji]
    exact ⟨rfl, rfl⟩

omit [DecidableEq Pid] in
theorem CacheInv.locked_ref (h : CacheInv s) {i : Fin NBUF} (hl : (s.cache.buf i).lock = some p) :
    (s.cache.buf i).refcnt ≠ 0 :=
  h.refcnt_pos (r := .lock) (by simp [State.Refers, hl])

theorem CacheInv.bread_keeps (h : CacheInv s) (hq : q ≠ p) (b : Uint) (k : Fin NBUF → Task) :
    Keeps s (s.bread p b k) q := by
  unfold State.bread
  split
  · exact Keeps.of_eq rfl rfl
  · rename_i c i hget
    refine ⟨Function.update_of_ne hq .., fun j hj => ?_⟩
    have href : (s.cache.buf j).refcnt ≠ 0 := by
      rcases hj with hl | ⟨b', hc⟩
      · exact h.locked_ref hl
      · exact h.refcnt_pos (r := .call q) (by simp only [State.Refers, hc, Call.Waits])
    obtain ⟨hblock, hlock⟩ := bget_keeps hget href
    exact ⟨hblock, fun hl => hlock.trans hl⟩

/-! ## The rest of a call -/

theorem cont_log (hcont : s.cont p (s.call p) = some t) :
    t.lh = s.lh ∧ t.pinned = s.pinned ∧ t.outstanding = s.outstanding ∧ t.committing = s.committing ∧
      t.task = s.task := by
  cases hc : s.call p with
  | idle =>
      rw [hc] at hcont
      cases hcont
  | locking i b =>
      simp only [hc, State.cont] at hcont
      obtain ⟨-, hcont⟩ := Option.ite_none_left_eq_some.1 hcont
      obtain rfl := Option.some.inj hcont
      split <;> exact ⟨rfl, rfl, rfl, rfl, rfl⟩
  | reading i b =>
      rw [hc] at hcont
      obtain rfl := Option.some.inj hcont
      exact ⟨rfl, rfl, rfl, rfl, rfl⟩
  | dropping i =>
      rw [hc] at hcont
      obtain rfl := Option.some.inj hcont
      exact ⟨rfl, rfl, rfl, rfl, rfl⟩

/-- The three steps of a call. -/
theorem cont_cases (hcont : s.cont p (s.call p) = some t) :
    (∃ i b, s.call p = .locking i b ∧ (s.cache.buf i).lock = none ∧
      t.cache = s.cache.set i { s.cache.buf i with lock := some p } ∧
      t.call = Function.update s.call p (if (s.cache.buf i).valid then .idle else .reading i b)) ∨
    (∃ i b, s.call p = .reading i b ∧
      t.cache = s.cache.set i { s.cache.buf i with
        data := s.disk ((s.cache.buf i).blockno.getD 0), valid := true } ∧
      t.call = Function.update s.call p .idle) ∨
    (∃ i, s.call p = .dropping i ∧ t.cache = bdrop s.cache i ∧ t.call = Function.update s.call p .idle) := by
  cases hc : s.call p with
  | idle =>
      rw [hc] at hcont
      cases hcont
  | locking i b =>
      simp only [hc, State.cont] at hcont
      obtain ⟨hl, hcont⟩ := Option.ite_none_left_eq_some.1 hcont
      obtain rfl := Option.some.inj hcont
      refine Or.inl ⟨i, b, rfl, by simpa using hl, ?_, ?_⟩
      · split <;> rfl
      · split <;> rfl
  | reading i b =>
      rw [hc] at hcont
      obtain rfl := Option.some.inj hcont
      exact Or.inr (Or.inl ⟨i, b, rfl, rfl, rfl⟩)
  | dropping i =>
      rw [hc] at hcont
      obtain rfl := Option.some.inj hcont
      exact Or.inr (Or.inr ⟨i, rfl, rfl, rfl⟩)

theorem CacheInv.cont (h : CacheInv s) (hpins : t.pins = s.pins)
    (hcont : s.cont p (s.call p) = some t) : CacheInv t := by
  obtain ⟨-, hpinned, -⟩ := cont_log hcont
  have hne : ∀ {c : Call}, t.call = Function.update s.call p c → ∀ q, q ≠ p → t.call q = s.call q := by
    intro c hc q hq
    rw [hc, Function.update_of_ne hq]
  have hself : ∀ {c : Call}, t.call = Function.update s.call p c → t.call p = c := by
    intro c hc
    rw [hc, Function.update_self]
  obtain ⟨i, b, hwait, hfree, hcache, hcall⟩ | ⟨i, b, hread, hcache, hcall⟩ | ⟨i, hdrop, hcache, hcall⟩ :=
    cont_cases hcont
  · exact h.lock hwait hfree hcache (hself hcall) (hne hcall) hpinned hpins
  · exact h.read hread hcache (hself hcall) (hne hcall) hpinned hpins
  · exact h.drop hdrop hcache (hself hcall) (hne hcall) hpinned hpins

omit [DecidableEq Pid] in
/-- Only the contents of one buffer change, and its lock is not taken from `q`. -/
theorem Keeps.of_set {i : Fin NBUF} {x : Buf Pid α} (hbuf : t.cache.buf = (s.cache.set i x).buf)
    (hcall : t.call q = s.call q) (hblock : x.blockno = (s.cache.buf i).blockno)
    (hlock : (s.cache.buf i).lock = some q → x.lock = some q) : Keeps s t q := by
  refine ⟨hcall, fun j _ => ?_⟩
  rw [hbuf]
  by_cases hj : j = i
  · subst hj
    rw [Cache.set_self]
    exact ⟨hblock, hlock⟩
  · rw [Cache.set_of_ne _ _ hj]
    exact ⟨rfl, id⟩

theorem cont_keeps (hcont : s.cont p (s.call p) = some t) (hq : q ≠ p) : Keeps s t q := by
  have hne : ∀ {c : Call}, t.call = Function.update s.call p c → t.call q = s.call q := by
    intro c hc
    rw [hc, Function.update_of_ne hq]
  obtain ⟨i, b, -, hfree, hcache, hcall⟩ | ⟨i, b, -, hcache, hcall⟩ | ⟨i, -, hcache, hcall⟩ :=
    cont_cases hcont
  · refine Keeps.of_set (congrArg Cache.buf hcache) (hne hcall) rfl fun hl => ?_
    rw [hfree] at hl
    cases hl
  · exact Keeps.of_set (congrArg Cache.buf hcache) (hne hcall) rfl id
  · exact Keeps.of_set (x := { s.cache.buf i with refcnt := (s.cache.buf i).refcnt - 1 })
      ((congrArg Cache.buf hcache).trans (bdrop_buf ..)) (hne hcall) rfl id

/-- The process in `commit` gets the buffer that it has waited for. -/
theorem Com.cont {ph : Phase} {rest : List Op} {reg : Reg → Option (Fin NBUF)}
    (h : Com g s p ph rest reg) (hcont : s.cont p (s.call p) = some t) : Com g t p ph rest reg := by
  obtain ⟨hlh, hpinned, -⟩ := cont_log hcont
  -- in each case the blocks stay, and a lock that `p` has or waits for is then its own
  have hregs : (∀ i, (t.cache.buf i).blockno = (s.cache.buf i).blockno ∧
      ((s.cache.buf i).lock = some p ∨ (∃ b, s.call p = .locking i b) → (t.cache.buf i).lock = some p)) ∧
      (∀ i b, ¬ ((s.cache.buf i).lock = some p ∧ s.call p = .locking i b)) ∧
      ∀ i b, t.call p = .locking i b ∨ t.call p = .reading i b → s.call p = .locking i b := by
    obtain ⟨i, b, hwait, hfree, hcache, hcall⟩ | ⟨i, b, hread, hcache, hcall⟩ | ⟨i, hdrop, hcache, hcall⟩ :=
      cont_cases hcont
    · refine ⟨fun j => ?_, fun j b' hand => ?_, fun j b' hc => ?_⟩
      · rw [hcache]
        by_cases hj : j = i
        · subst hj
          rw [Cache.set_self]
          exact ⟨rfl, fun _ => rfl⟩
        · rw [Cache.set_of_ne _ _ hj]
          refine ⟨rfl, fun hl => hl.resolve_right fun hc => ?_⟩
          obtain ⟨b', hc⟩ := hc
          rw [hwait] at hc
          exact hj (Call.locking.inj hc).1.symm
      · rw [hwait] at hand
        obtain ⟨rfl, -⟩ := Call.locking.inj hand.2
        rw [hfree] at hand
        cases hand.1
      · rw [hcall, Function.update_self] at hc
        rw [hwait]
        split at hc
        · rcases hc with hc | hc <;> cases hc
        · rcases hc with hc | hc
          · cases hc
          · obtain ⟨rfl, rfl⟩ := Call.reading.inj hc
            rfl
    · refine ⟨fun j => ?_, fun j b' hand => ?_, fun j b' hc => ?_⟩
      · rw [hcache]
        refine ⟨Cache.set_blockno (by rfl) j, fun hl => ?_⟩
        · rcases hl with hl | ⟨b', hc⟩
          · exact (Cache.set_lock (by rfl) j).trans hl
          · rw [hread] at hc
            cases hc
      · rw [hread] at hand
        cases hand.2
      · rw [hcall, Function.update_self] at hc
        rcases hc with hc | hc <;> cases hc
    · refine ⟨fun j => ?_, fun j b' hand => ?_, fun j b' hc => ?_⟩
      · rw [hcache, bdrop_buf]
        refine ⟨bunpin_blockno .., fun hl => ?_⟩
        · rcases hl with hl | ⟨b', hc⟩
          · exact (bunpin_lock ..).trans hl
          · rw [hdrop] at hc
            cases hc
      · rw [hdrop] at hand
        cases hand.2
      · rw [hcall, Function.update_self] at hc
        rcases hc with hc | hc <;> cases hc
  obtain ⟨hbuf, happart, hcopy⟩ := hregs
  constructor
  case suffix =>
    exact h.suffix
  case bound =>
    rw [hlh]
    exact h.bound
  case pinned =>
    rw [hpinned, hlh]
    exact h.pinned
  case regs =>
    intro r hr
    obtain ⟨i, hi, hb, hl⟩ := h.regs r hr
    exact ⟨i, hi, by rw [(hbuf i).1, hlh, hb], Or.inl ((hbuf i).2 hl)⟩
  case apart =>
    intro i hlog hhome hi hj
    obtain ⟨hl, b, hc⟩ := h.apart i hlog hhome hi hj
    exact absurd ⟨hl, hc⟩ (happart i b)
  case copying =>
    intro i b hc
    exact h.copying i b (Or.inl (hcopy i b hc))

theorem Inv.cont (h : Inv g s) (hpins : t.pins = s.pins) (hcont : s.cont p (s.call p) = some t) :
    Inv g t := by
  obtain ⟨hlh, hpinned, houtstanding, hcommitting, htask⟩ := cont_log hcont
  refine ⟨h.cache.cont hpins hcont, h.log.frame htask houtstanding hcommitting hlh hpinned ?_⟩
  intro q ph rest reg _ hcom
  by_cases hq : q = p
  · subst hq
    exact hcom.cont hcont
  · exact hcom.keeps (cont_keeps hcont hq) hlh hpinned

/-! ## Operations of processes outside of `commit` -/

omit [DecidableEq Pid] in
/-- What another process does is nothing to the one in `commit`. -/
theorem LogInv.client (h : LogInv g s) (hp : (s.task p).commits = false) (htask : t.task = s.task)
    (houtstanding : t.outstanding = s.outstanding) (hcommitting : t.committing = s.committing)
    (hlh : t.lh = s.lh) (hpinned : t.pinned = s.pinned) (hkeeps : ∀ q, q ≠ p → Keeps s t q) :
    LogInv g t := by
  refine h.frame htask houtstanding hcommitting hlh hpinned fun q ph rest reg hq hcom => ?_
  refine hcom.keeps (hkeeps q ?_) hlh hpinned
  rintro rfl
  rw [hq] at hp
  cases hp

omit [DecidableEq Pid] in
theorem Inv.fail (h : Inv g s) (x : Panic) (p : Pid) : Inv g (s.fail x p) :=
  ⟨h.cache.congr rfl rfl rfl rfl,
    h.log.frame rfl rfl rfl rfl rfl fun _ _ _ _ _ hcom => hcom.keeps (Keeps.of_eq rfl rfl) rfl rfl⟩

theorem Inv.bread (h : Inv g s) (hp : (s.task p).commits = false) (hidle : s.call p = .idle) (b : Uint) :
    Inv g (s.bread p b fun _ => s.task p) := by
  obtain ⟨hlh, hpinned, houtstanding, hcommitting⟩ := bread_log s p b fun _ => s.task p
  refine ⟨h.cache.bread hidle b _, h.log.client hp ?_ houtstanding hcommitting hlh hpinned
    fun q hq => h.cache.bread_keeps hq b _⟩
  unfold State.bread
  split
  · rfl
  · exact Function.update_eq_self ..

omit [DecidableEq Pid] in
theorem CacheInv.change_data (h : CacheInv s) (hidle : s.call p = .idle) (byCommit : Bool) (i : Fin NBUF)
    (d : α) : CacheInv (s.change byCommit i d) :=
  h.change hidle rfl rfl rfl rfl

omit [DecidableEq Pid] in
theorem change_keeps (byCommit : Bool) (i : Fin NBUF) (d : α) (q : Pid) :
    Keeps s (s.change byCommit i d) q :=
  Keeps.of_set rfl rfl rfl id

omit [DecidableEq Pid] in
theorem Inv.change (h : Inv g s) (hp : (s.task p).commits = false) (hidle : s.call p = .idle)
    (byCommit : Bool) (i : Fin NBUF) (d : α) : Inv g (s.change byCommit i d) :=
  ⟨h.cache.change_data hidle byCommit i d,
    h.log.client hp rfl rfl rfl rfl rfl fun q _ => change_keeps byCommit i d q⟩

/-- `bwrite` changes nothing but the disk. -/
theorem bwrite_log (s : State Pid α) (p : Pid) (i : Fin NBUF) :
    (s.bwrite p i).cache = s.cache ∧ (s.bwrite p i).call = s.call ∧ (s.bwrite p i).pins = s.pins ∧
      (s.bwrite p i).lh = s.lh ∧ (s.bwrite p i).pinned = s.pinned ∧ (s.bwrite p i).task = s.task ∧
      (s.bwrite p i).outstanding = s.outstanding ∧ (s.bwrite p i).committing = s.committing := by
  simp only [State.bwrite]
  split <;> exact ⟨rfl, rfl, rfl, rfl, rfl, rfl, rfl, rfl⟩

theorem CacheInv.bwrite (h : CacheInv s) (p : Pid) (i : Fin NBUF) : CacheInv (s.bwrite p i) := by
  obtain ⟨hcache, hcall, hpins, -, hpinned, -⟩ := bwrite_log s p i
  exact h.congr hcache hcall hpinned hpins

theorem Inv.bwrite (h : Inv g s) (hp : (s.task p).commits = false) (i : Fin NBUF) :
    Inv g (s.bwrite p i) := by
  obtain ⟨hcache, hcall, -, hlh, hpinned, htask, houtstanding, hcommitting⟩ := bwrite_log s p i
  exact ⟨h.cache.bwrite p i, h.log.client hp htask houtstanding hcommitting hlh hpinned
    fun q _ => Keeps.of_eq hcall hcache⟩

theorem brelse_log (s : State Pid α) (p : Pid) (i : Fin NBUF) :
    (s.brelse p i).lh = s.lh ∧ (s.brelse p i).pinned = s.pinned ∧ (s.brelse p i).task = s.task ∧
      (s.brelse p i).outstanding = s.outstanding ∧ (s.brelse p i).committing = s.committing := by
  simp only [State.brelse]
  split <;> exact ⟨rfl, rfl, rfl, rfl, rfl⟩

theorem CacheInv.brelse (h : CacheInv s) (hidle : s.call p = .idle) (i : Fin NBUF) :
    CacheInv (s.brelse p i) := by
  simp only [State.brelse]
  split
  · rename_i hl
    exact h.unlock hidle hl rfl (Function.update_self ..) (fun q hq => Function.update_of_ne hq ..) rfl rfl
  · exact h.congr rfl rfl rfl rfl

theorem brelse_keeps (hq : q ≠ p) (i : Fin NBUF) : Keeps s (s.brelse p i) q := by
  simp only [State.brelse]
  split
  · rename_i hl
    refine Keeps.of_set rfl (Function.update_of_ne hq ..) rfl fun hlq => ?_
    rw [hl] at hlq
    exact absurd (Option.some.inj hlq).symm hq
  · exact Keeps.of_eq rfl rfl

theorem Inv.brelse (h : Inv g s) (hp : (s.task p).commits = false) (hidle : s.call p = .idle)
    (i : Fin NBUF) : Inv g (s.brelse p i) := by
  obtain ⟨hlh, hpinned, htask, houtstanding, hcommitting⟩ := brelse_log s p i
  exact ⟨h.cache.brelse hidle i, h.log.client hp htask houtstanding hcommitting hlh hpinned
    fun q hq => brelse_keeps hq i⟩

omit [DecidableEq Pid] in
/-- What a process has locked it has read. -/
theorem CacheInv.held (h : CacheInv s) (hidle : s.call p = .idle) {i : Fin NBUF} (hl : s.Holds p i) :
    ∃ b, (s.cache.buf i).blockno = some b ∧ (s.cache.buf i).valid = true := by
  obtain ⟨⟨b, hb⟩, hv⟩ := h.locked hl
  refine ⟨b, hb, hv.resolve_right fun hread => ?_⟩
  rw [hidle] at hread
  obtain ⟨_, hread⟩ := hread
  cases hread

/-- `log_write` succeeds only inside an operation, when no process commits. -/
theorem Inv.logWrite (h : Inv g s) (hp : (s.task p).commits = false) (hidle : s.call p = .idle)
    {i : Fin NBUF} (hl : s.Holds p i) : Inv g (s.logWrite p i) := by
  obtain ⟨b, hb, hv⟩ := h.cache.held hidle hl
  unfold State.logWrite
  simp only [hb, Option.getD_some]
  split
  · exact h.fail _ _
  split
  · exact h.fail _ _
  rename_i hroom hpos
  have hquiet : s.committing = false := h.log.no_commit (Nat.le_of_not_lt hpos)
  have hno : ∀ q, (s.task q).commits = false := fun q => by
    cases hq : s.task q with
    | commit ph rest reg => exact absurd hquiet (by rw [(h.log.com hq).1]; simp)
    | user => rfl
    | inOp => rfl
  split
  · exact ⟨h.cache.congr rfl rfl rfl rfl,
      h.log.client hp rfl rfl rfl rfl rfl fun q _ => Keeps.of_eq rfl rfl⟩
  · rename_i hnew
    refine ⟨h.cache.logPin hidle hb hv ?_ rfl rfl rfl rfl, ?_⟩
    · rw [h.log.quiet hquiet]
      exact hnew
    · refine ⟨h.log.ops, ?_, ?_, fun _ => ?_, h.log.busy, fun {q ph rest reg} hq => ?_, h.log.only⟩
      · show (s.lh ++ [b]).Nodup
        rw [List.nodup_append]
        refine ⟨h.log.nodup, List.nodup_singleton b, fun b' hb' c hc => ?_⟩
        rw [List.mem_singleton.1 hc]
        rintro rfl
        exact hnew hb'
      · show (s.lh ++ [b]).length ≤ LOGBLOCKS
        rw [List.length_append, List.length_singleton]
        omega
      · show s.pinned ++ [b] = s.lh ++ [b]
        rw [h.log.quiet hquiet]
      · have hq' := hno q
        rw [show s.task q = .commit ph rest reg from hq] at hq'
        cases hq'

end Xv6.Bio
