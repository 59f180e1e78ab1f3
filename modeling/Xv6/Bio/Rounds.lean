import Xv6.Bio.Steps

set_option autoImplicit false

/-! # Operations and commits

`begin_op`, `end_op` and the rounds of `commit` keep the invariant, and with them every step does. -/

namespace Xv6.Bio

open Xv6.Lib

variable {Pid α : Type} {g : Geometry α} {s t : State Pid α} {p q : Pid}

/-! ## From one operation of `commit` to the next -/

theorem not_inUse_body (ph : Phase) (r : Reg) : ¬ InUse ph.body r := by
  intro h
  refine h.2 (?_ : Op.bread r ∈ ph.body)
  have hrel := h.1
  cases ph <;> cases r <;> simp [Phase.body] at hrel ⊢

theorem Com.fresh {ph : Phase} (hidle : t.call p = .idle) (hbound : ph.Bound t.lh)
    (hpinned : t.pinned = ph.pending t.lh ph.body) : Com g t p ph ph.body fun _ => none := by
  refine ⟨List.suffix_refl _, hbound, hpinned, fun r hr => absurd hr (not_inUse_body ph r),
    fun i hlog => absurd hlog (not_inUse_body ph _), fun i b hc => ?_⟩
  rw [hidle] at hc
  rcases hc with hc | hc <;> cases hc

theorem Com.finished {ph : Phase} (hidle : t.call p = .idle) (hbound : ph.Bound t.lh)
    (hpinned : t.pinned = ph.pending t.lh []) : Com g t p ph [] fun _ => none := by
  refine ⟨List.nil_suffix, hbound, hpinned, fun r hr => absurd hr.1 List.not_mem_nil,
    fun i hlog => absurd hlog.1 List.not_mem_nil, fun i b hc => ?_⟩
  rw [hidle] at hc
  rcases hc with hc | hc <;> cases hc

/-- The buffer in a variable that is in use is locked, between the calls of `commit`. -/
theorem Com.held {ph : Phase} {rest : List Op} {reg : Reg → Option (Fin NBUF)}
    (h : Com g s p ph rest reg) (hidle : s.call p = .idle) {r : Reg} (hr : InUse rest r) :
    ∃ i, reg r = some i ∧ (s.cache.buf i).blockno = some (ph.block g.start s.lh r) ∧
      (s.cache.buf i).lock = some p := by
  obtain ⟨i, hi, hb, hl⟩ := h.regs r hr
  refine ⟨i, hi, hb, hl.resolve_right fun hc => ?_⟩
  rw [hidle] at hc
  obtain ⟨_, hc⟩ := hc
  cases hc

/-- Two variables in use hold different buffers, between the calls of `commit`. -/
theorem Com.ne {ph : Phase} {rest : List Op} {reg : Reg → Option (Fin NBUF)}
    (h : Com g s p ph rest reg) (hidle : s.call p = .idle) {r r' : Reg} (hne : r ≠ r')
    (hr : InUse rest r) (hr' : InUse rest r') {i : Fin NBUF} (hi : reg r = some i) : reg r' ≠ some i := by
  intro hi'
  have hboth : InUse rest .log ∧ InUse rest .home ∧ reg .log = some i ∧ reg .home = some i := by
    cases r with
    | log =>
        cases r' with
        | log => exact absurd rfl hne
        | home => exact ⟨hr, hr', hi, hi'⟩
    | home =>
        cases r' with
        | log => exact ⟨hr', hr, hi', hi⟩
        | home => exact absurd rfl hne
  obtain ⟨hlog, hhome, hilog, hihome⟩ := hboth
  obtain ⟨-, b, hc⟩ := h.apart i hlog hhome hilog hihome
  rw [hidle] at hc
  cases hc

/-- An operation other than `bread` is done: the locks of the variables still in use stay. -/
theorem Com.consume {ph : Phase} {op : Op} {rest : List Op} {reg : Reg → Option (Fin NBUF)}
    (h : Com g s p ph (op :: rest) reg) (hidle : s.call p = .idle) (hop : ∀ r, op ≠ .bread r)
    (hlh : t.lh = s.lh) (hpinned : t.pinned = ph.pending s.lh rest)
    (hblock : ∀ i, (t.cache.buf i).blockno = (s.cache.buf i).blockno)
    (hlock : ∀ r i, InUse rest r → reg r = some i → (s.cache.buf i).lock = some p →
      (t.cache.buf i).lock = some p)
    (hcall : t.call p = .idle ∨ ∃ i, t.call p = .dropping i) : Com g t p ph rest reg := by
  constructor
  case suffix =>
    exact (List.suffix_cons op rest).trans h.suffix
  case bound =>
    rw [hlh]
    exact h.bound
  case pinned =>
    rw [hlh]
    exact hpinned
  case regs =>
    intro r hr
    obtain ⟨i, hi, hb, hl⟩ := h.held hidle (hr.cons (hop r))
    exact ⟨i, hi, by rw [hblock, hlh, hb], Or.inl (hlock r i hr hi hl)⟩
  case apart =>
    intro i hlog hhome hi hj
    exact absurd hj (h.ne hidle (by simp) (hlog.cons (hop _)) (hhome.cons (hop _)) hi)
  case copying =>
    intro i b hc
    rcases hcall with hidle' | ⟨j, hdrop⟩
    · rw [hidle'] at hc
      rcases hc with hc | hc <;> cases hc
    · rw [hdrop] at hc
      rcases hc with hc | hc <;> cases hc

/-! ## Where processes are -/

/-- Without a process in `commit` there is little to say. -/
theorem LogInv.of_quiet (hops : Counts (fun p => t.task p = .inOp) t.outstanding) (hnodup : t.lh.Nodup)
    (hsmall : t.lh.length ≤ LOGBLOCKS) (hcommitting : t.committing = false) (hpinned : t.pinned = t.lh)
    (hno : ∀ q, (t.task q).commits = false) : LogInv g t := by
  refine ⟨hops, hnodup, hsmall, fun _ => hpinned, fun hc => ?_, fun {q ph rest reg} hq => ?_,
    fun {q q'} hq _ => ?_⟩
  · rw [hcommitting] at hc
    cases hc
  · have hfalse := hno q
    rw [hq] at hfalse
    cases hfalse
  · rw [hno q] at hq
    cases hq

/-- With one, all depends on it. -/
theorem LogInv.of_commit {ph : Phase} {rest : List Op} {reg : Reg → Option (Fin NBUF)}
    (hops : Counts (fun p => t.task p = .inOp) t.outstanding) (hnodup : t.lh.Nodup)
    (hsmall : t.lh.length ≤ LOGBLOCKS) (hcommitting : t.committing = true) (hzero : t.outstanding = 0)
    (hp : t.task p = .commit ph rest reg) (hno : ∀ q, q ≠ p → (t.task q).commits = false)
    (hcom : Com g t p ph rest reg) : LogInv g t := by
  have honly : ∀ q, (t.task q).commits = true → q = p := fun q hq => by
    by_contra hne
    rw [hno q hne] at hq
    cases hq
  refine ⟨hops, hnodup, hsmall, fun hc => ?_, fun _ => ⟨hzero, p, ph, rest, reg, hp⟩,
    fun {q ph' rest' reg'} hq => ?_, fun {q q'} hq hq' => ?_⟩
  · rw [hcommitting] at hc
    cases hc
  · obtain rfl : q = p := honly q (by rw [hq]; rfl)
    rw [hp] at hq
    cases hq
    exact ⟨hcommitting, hcom⟩
  · rw [honly q hq, honly q' hq']

theorem LogInv.no_commits (h : LogInv g s) (hquiet : s.committing = false) (q : Pid) :
    (s.task q).commits = false := by
  cases hq : s.task q with
  | commit ph rest reg =>
      rw [(h.com hq).1] at hquiet
      cases hquiet
  | user => rfl
  | inOp => rfl

theorem LogInv.others (h : LogInv g s) (hp : (s.task p).commits = true) (hq : q ≠ p) :
    (s.task q).commits = false := by
  cases hc : (s.task q).commits with
  | false => rfl
  | true => exact absurd (h.only hc hp) hq

variable [DecidableEq Pid]

/-- Only the process in `commit` moves. -/
theorem LogInv.exec {ph ph' : Phase} {rest rest' : List Op} {reg reg' : Reg → Option (Fin NBUF)}
    (h : LogInv g s) (hp : s.task p = .commit ph rest reg)
    (htask : t.task = Function.update s.task p (.commit ph' rest' reg')) (hnodup : t.lh.Nodup)
    (hsmall : t.lh.length ≤ LOGBLOCKS) (hcommitting : t.committing = s.committing)
    (houtstanding : t.outstanding = s.outstanding) (hcom : Com g t p ph' rest' reg') : LogInv g t := by
  have hc := (h.com hp).1
  have hself : t.task p = .commit ph' rest' reg' := by rw [htask, Function.update_self]
  have hne : ∀ q, q ≠ p → t.task q = s.task q := fun q hq => by rw [htask, Function.update_of_ne hq]
  refine .of_commit ?_ hnodup hsmall (hcommitting.trans hc) (houtstanding.trans (h.busy hc).1) hself
    (fun q hq => ?_) hcom
  · rw [houtstanding]
    refine h.ops.congr fun q => ?_
    by_cases hq : q = p
    · subst hq
      rw [hself, hp]
      exact iff_of_false (by simp) (by simp)
    · rw [hne q hq]
  · rw [hne q hq]
    exact h.others (by rw [hp]; rfl) hq

/-! ## `begin_op` and `end_op` -/

theorem Inv.beginOp (h : Inv g s) (hp : s.task p = .user) (hbegin : s.beginOp p = some t) : Inv g t := by
  unfold State.beginOp at hbegin
  obtain ⟨hc, hbegin⟩ := Option.ite_none_left_eq_some.1 hbegin
  obtain ⟨-, hbegin⟩ := Option.ite_none_left_eq_some.1 hbegin
  obtain rfl := Option.some.inj hbegin
  have hquiet : s.committing = false := Bool.eq_false_iff.2 hc
  refine ⟨h.cache.congr rfl rfl rfl rfl, .of_quiet ?_ h.log.nodup h.log.small hquiet (h.log.quiet hquiet)
    fun q => ?_⟩
  · refine h.log.ops.gain (i := p) (by rw [hp]; simp) (Function.update_self ..) fun q hq => ?_
    show Function.update s.task p Task.inOp q = _ ↔ _
    rw [Function.update_of_ne hq]
  · show (Function.update s.task p Task.inOp q).commits = false
    by_cases hq : q = p
    · subst hq
      rw [Function.update_self]
      rfl
    · rw [Function.update_of_ne hq]
      exact h.log.no_commits hquiet q

theorem Inv.endOp (h : Inv g s) (hp : s.task p = .inOp) (hidle : s.call p = .idle) : Inv g (s.endOp p) := by
  have hpos : 1 ≤ s.outstanding := h.log.ops.pos hp
  have hquiet := h.log.no_commit hpos
  have hpinned := h.log.quiet hquiet
  have hno := h.log.no_commits hquiet
  -- `p` leaves its operation, whatever it does next
  have hops : ∀ T : Task, T ≠ .inOp →
      Counts (fun q => Function.update s.task p T q = .inOp) (s.outstanding - 1) := fun T hT => by
    refine h.log.ops.lose (i := p) hp (by rw [Function.update_self]; exact hT) fun q hq => ?_
    rw [Function.update_of_ne hq]
  have hothers : ∀ (T : Task) (q : Pid), q ≠ p → (Function.update s.task p T q).commits = false := by
    intro T q hq
    rw [Function.update_of_ne hq]
    exact hno q
  simp only [State.endOp, hquiet, Bool.false_eq_true, if_false]
  split
  · rename_i hlast
    split
    · rename_i hlen
      have hph : writeLog s.lh 0 = .writeLog 0 := if_pos hlen
      rw [hph]
      refine ⟨h.cache.congr rfl rfl rfl rfl, .of_commit (hops _ (by simp)) h.log.nodup h.log.small rfl hlast
        (Function.update_self ..) (hothers _) (.fresh hidle hlen hpinned)⟩
    · rename_i hlen
      have hnil : s.lh = [] := List.eq_nil_of_length_eq_zero (Nat.eq_zero_of_not_pos hlen)
      exact ⟨h.cache.congr rfl rfl rfl rfl, .of_commit (hops _ (by simp)) h.log.nodup h.log.small rfl hlast
        (Function.update_self ..) (hothers _) (.finished hidle hnil (hpinned.trans hnil))⟩
  · refine ⟨h.cache.congr rfl rfl rfl rfl, .of_quiet (hops _ (by simp)) h.log.nodup h.log.small rfl hpinned
      fun q => ?_⟩
    by_cases hq : q = p
    · subst hq
      show (Function.update s.task q Task.user q).commits = false
      rw [Function.update_self]
      rfl
    · exact hothers _ q hq

/-! ## `commit` -/

theorem Inv.enter (h : Inv g s) {ph ph' : Phase} {rest : List Op} {reg : Reg → Option (Fin NBUF)}
    (hp : s.task p = .commit ph rest reg) (hidle : s.call p = .idle)
    (hbound : ph' ≠ .erase → ph'.Bound s.lh)
    (hpinned : s.pinned = ph'.pending (if ph' = .erase then [] else s.lh) ph'.body) :
    Inv g (s.enter p ph') := by
  have hlh : (s.enter p ph').lh = if ph' = .erase then [] else s.lh := rfl
  refine ⟨h.cache.congr rfl rfl rfl rfl, h.log.exec hp rfl ?_ ?_ rfl rfl (.fresh hidle ?_ hpinned)⟩
  · rw [hlh]
    split
    · exact List.nodup_nil
    · exact h.log.nodup
  · rw [hlh]
    split
    · exact Nat.zero_le _
    · exact h.log.small
  · rw [hlh]
    split
    · rename_i he
      rw [he]
      rfl
    · rename_i he
      exact hbound he

theorem Inv.advance (h : Inv g s) {ph : Phase} {reg : Reg → Option (Fin NBUF)}
    (hp : s.task p = .commit ph [] reg) (hidle : s.call p = .idle) : Inv g (s.advance p ph) := by
  obtain ⟨hc, hcom⟩ := h.log.com hp
  have hpinned := hcom.pinned
  cases ph with
  | writeLog tail =>
      show Inv g (s.enter p (Bio.writeLog s.lh (tail + 1)))
      unfold Bio.writeLog
      split
      · rename_i hlt
        exact h.enter hp hidle (fun _ => hlt) hpinned
      · exact h.enter hp hidle (fun _ => trivial) hpinned
  | writeHead =>
      show Inv g (s.enter p (installTrans s.lh 0))
      unfold installTrans
      split
      · rename_i hlt
        exact h.enter hp hidle (fun _ => hlt) hpinned
      · rename_i hlen
        refine h.enter hp hidle (fun hne => absurd rfl hne) (hpinned.trans ?_)
        exact List.eq_nil_of_length_eq_zero (Nat.eq_zero_of_not_pos hlen)
  | install tail =>
      have hdrop : s.pinned = s.lh.drop (tail + 1) := hpinned
      show Inv g (s.enter p (installTrans s.lh (tail + 1)))
      unfold installTrans
      split
      · rename_i hlt
        exact h.enter hp hidle (fun _ => hlt) hdrop
      · rename_i hlen
        refine h.enter hp hidle (fun hne => absurd rfl hne) (hdrop.trans ?_)
        exact List.drop_eq_nil_of_le (Nat.le_of_not_lt hlen)
  | erase =>
      have hnil : s.lh = [] := hcom.bound
      have hno : ∀ q, (Function.update s.task p Task.user q).commits = false := fun q => by
        by_cases hq : q = p
        · subst hq
          rw [Function.update_self]
          rfl
        · rw [Function.update_of_ne hq]
          exact h.log.others (by rw [hp]; rfl) hq
      refine ⟨h.cache.congr rfl rfl rfl rfl, .of_quiet (h.log.ops.congr fun q => ?_) h.log.nodup h.log.small
        rfl (hpinned.trans hnil.symm) hno⟩
      show _ ↔ Function.update s.task p Task.user q = _
      by_cases hq : q = p
      · subst hq
        rw [Function.update_self, hp]
        exact iff_of_false (by simp) (by simp)
      · rw [Function.update_of_ne hq]

theorem Inv.commitBread (h : Inv g s) {ph : Phase} {r : Reg} {rest : List Op}
    {reg : Reg → Option (Fin NBUF)} (hp : s.task p = .commit ph (.bread r :: rest) reg)
    (hidle : s.call p = .idle) : Inv g (s.bread p (ph.block g.start s.lh r) fun i =>
      .commit ph rest (Function.update reg r (some i))) := by
  obtain ⟨hc, hcom⟩ := h.log.com hp
  obtain ⟨hcopies, -⟩ := Phase.readsAhead hcom.suffix
  have hcache := h.cache.bread hidle (ph.block g.start s.lh r) fun i =>
    .commit ph rest (Function.update reg r (some i))
  unfold State.bread at hcache ⊢
  split
  · exact h.fail _ _
  · rename_i c i hget
    rw [hget] at hcache
    refine ⟨hcache, h.log.exec hp rfl h.log.nodup h.log.small rfl rfl ?_⟩
    have hb : (c.buf i).blockno = some (ph.block g.start s.lh r) := by
      obtain ⟨hb, rfl⟩ | ⟨-, -, rfl⟩ := bget_eq_some hget
      · exact (Cache.set_blockno (by rfl) i).trans hb
      · rw [Cache.set_self]
    -- the other variable still holds its buffer
    have hother : ∀ r', r' ≠ r → InUse rest r' → ∃ j, reg r' = some j ∧
        (c.buf j).blockno = some (ph.block g.start s.lh r') ∧ (c.buf j).lock = some p := by
      intro r' hr' huse
      obtain ⟨j, hj, hblock, hl⟩ := hcom.held hidle
        (huse.cons fun heq => hr' (Op.bread.inj heq).symm)
      obtain ⟨hb', hl'⟩ := CacheInv.bget_keeps hget (h.cache.locked_ref hl)
      exact ⟨j, hj, hb'.trans hblock, hl'.trans hl⟩
    have hcall : Function.update s.call p (Call.locking i (ph.block g.start s.lh r)) p =
        .locking i (ph.block g.start s.lh r) := Function.update_self ..
    refine ⟨(List.suffix_cons _ rest).trans hcom.suffix, hcom.bound, ?_, fun r' hr' => ?_,
      fun j hlog hhome hj hj' => ?_, fun _ _ _ => hcopies⟩
    · have hne : Op.bread r ≠ .bunpin := by simp
      rw [← Phase.pending_cons hne]
      exact hcom.pinned
    · by_cases hr : r' = r
      · subst hr
        exact ⟨i, Function.update_self .., hb, Or.inr ⟨_, hcall⟩⟩
      · obtain ⟨j, hj, hblock, hl⟩ := hother r' hr hr'
        exact ⟨j, (Function.update_of_ne hr ..).trans hj, hblock, Or.inl hl⟩
    · -- the buffer that is waited for is the one that the other variable holds
      cases r with
      | log =>
          rw [Function.update_self] at hj
          rw [Function.update_of_ne (by simp)] at hj'
          obtain ⟨k, hk, -, hl⟩ := hother .home (by simp) hhome
          obtain rfl : j = k := Option.some.inj (hj'.symm.trans hk)
          obtain rfl : i = j := Option.some.inj hj
          exact ⟨hl, _, hcall⟩
      | home =>
          rw [Function.update_self] at hj'
          rw [Function.update_of_ne (by simp)] at hj
          obtain ⟨k, hk, -, hl⟩ := hother .log (by simp) hlog
          obtain rfl : j = k := Option.some.inj (hj.symm.trans hk)
          obtain rfl : i = j := Option.some.inj hj'
          exact ⟨hl, _, hcall⟩

omit [DecidableEq Pid] in
/-- The block of the buffer that `install_trans` unpins is the next one in the header. -/
theorem Com.unpins {ph : Phase} {rest : List Op} {reg : Reg → Option (Fin NBUF)}
    (h : Com g s p ph (.bunpin :: rest) reg) (hidle : s.call p = .idle) :
    ∃ i b, reg .home = some i ∧ (s.cache.buf i).blockno = some b ∧ b ∈ s.pinned ∧
      s.pinned.erase b = ph.pending s.lh rest := by
  obtain ⟨tail, rfl⟩ := Phase.install_of_bunpin h.suffix
  obtain ⟨hnot, huse⟩ := Phase.unpinsOnce h.suffix
  have hne : Op.bunpin ≠ .bread .home := by simp
  obtain ⟨i, hi, hb, -⟩ := h.held hidle (huse.cons hne)
  have hlt : tail < s.lh.length := h.bound
  have hpinned : s.pinned = s.lh[tail] :: s.lh.drop (tail + 1) := by
    have hp := h.pinned
    rw [Phase.pending, if_pos (List.mem_cons_self ..)] at hp
    rw [hp, List.drop_eq_getElem_cons hlt]
  have hblock : s.lh.getD tail 0 = s.lh[tail] := by
    rw [List.getD_eq_getElem?_getD, List.getElem?_eq_getElem hlt, Option.getD_some]
  refine ⟨i, s.lh[tail], hi, ?_, ?_, ?_⟩
  · rw [hb, Phase.block, hblock]
  · rw [hpinned]
    exact List.mem_cons_self ..
  · rw [hpinned, List.erase_cons_head, Phase.pending, if_neg hnot]

theorem Inv.exec (h : Inv g s) {ph : Phase} {op : Op} {rest : List Op}
    {reg : Reg → Option (Fin NBUF)} (hp : s.task p = .commit ph (op :: rest) reg)
    (hidle : s.call p = .idle) (hop : ∀ r, op ≠ .bread r)
    (hexec : (s.setTask p (.commit ph rest reg)).exec g p reg op = some t) : Inv g t := by
  obtain ⟨hc, hcom⟩ := h.log.com hp
  have hcache : CacheInv (s.setTask p (.commit ph rest reg)) := h.cache.congr rfl rfl rfl rfl
  have hpinned : op ≠ .bunpin → s.pinned = ph.pending s.lh rest := fun hne => by
    rw [← Phase.pending_cons hne]
    exact hcom.pinned
  cases op with
  | bread r => exact absurd rfl (hop r)
  | memmove dst src =>
      simp only [State.exec] at hexec
      split at hexec
      · obtain rfl := Option.some.inj hexec
        refine ⟨hcache.change_data hidle true _ _, h.log.exec hp rfl h.log.nodup h.log.small rfl rfl
          (hcom.consume hidle hop rfl (hpinned (by simp)) (fun j => Cache.set_blockno (by rfl) j) ?_
            (Or.inl hidle))⟩
        exact fun _ j _ _ hl => (Cache.set_lock (by rfl) j).trans hl
      · cases hexec
  | header =>
      obtain ⟨i, -, rfl⟩ := Option.map_eq_some_iff.1 hexec
      refine ⟨hcache.change_data hidle true _ _, h.log.exec hp rfl h.log.nodup h.log.small rfl rfl
        (hcom.consume hidle hop rfl (hpinned (by simp)) (fun j => Cache.set_blockno (by rfl) j) ?_
          (Or.inl hidle))⟩
      exact fun _ j _ _ hl => (Cache.set_lock (by rfl) j).trans hl
  | bwrite r =>
      obtain ⟨i, -, rfl⟩ := Option.map_eq_some_iff.1 hexec
      obtain ⟨hcache', hcall, -, hlh, hpin, htask, houtstanding, hcommitting⟩ :=
        bwrite_log (s.setTask p (.commit ph rest reg)) p i
      refine ⟨hcache.bwrite p i, h.log.exec hp htask (hlh ▸ h.log.nodup) (hlh ▸ h.log.small) hcommitting
        houtstanding (hcom.consume hidle hop hlh (hpin.trans (hpinned (by simp))) ?_ ?_ ?_)⟩
      · exact fun j => by rw [hcache']; rfl
      · exact fun _ j _ _ hl => by rw [hcache']; exact hl
      · rw [hcall]
        exact Or.inl hidle
  | bunpin =>
      obtain ⟨i, b, hi, hb, hmem, herase⟩ := hcom.unpins hidle
      obtain ⟨j, hj, rfl⟩ := Option.map_eq_some_iff.1 hexec
      obtain rfl : i = j := Option.some.inj (hi.symm.trans hj)
      have hd : ((s.cache.buf i).blockno.getD 0) = b := by rw [hb, Option.getD_some]
      refine ⟨hcache.logUnpin hidle hb hmem rfl rfl (congrArg s.pinned.erase hd) rfl,
        h.log.exec hp rfl h.log.nodup h.log.small rfl rfl (hcom.consume hidle hop rfl ?_
          (fun j => bunpin_blockno ..) (fun _ j _ _ hl => (bunpin_lock ..).trans hl) (Or.inl hidle))⟩
      exact (congrArg s.pinned.erase hd).trans herase
  | brelse r =>
      obtain ⟨i, hi, rfl⟩ := Option.map_eq_some_iff.1 hexec
      obtain ⟨hlh, hpin, htask, houtstanding, hcommitting⟩ := brelse_log (s.setTask p (.commit ph rest reg)) p i
      refine ⟨hcache.brelse hidle i, h.log.exec hp htask (hlh ▸ h.log.nodup) (hlh ▸ h.log.small)
        hcommitting houtstanding (hcom.consume hidle hop hlh (hpin.trans (hpinned (by simp))) ?_ ?_ ?_)⟩
      · intro j
        simp only [State.brelse]
        split
        · exact Cache.set_blockno (by rfl) j
        · rfl
      · -- the variable that is released is not the one that stays in use
        intro r' j hr' hj hl
        obtain ⟨hrelse, hread⟩ := Phase.releasesOnce hcom.suffix
        have hne : r' ≠ r := by
          rintro rfl
          exact hrelse hr'.1
        have huse : InUse (.brelse r :: rest) r := ⟨List.mem_cons_self .., by simp [hread]⟩
        have hji : j ≠ i := by
          rintro rfl
          exact hcom.ne hidle hne (hr'.cons (hop r')) huse hj hi
        simp only [State.brelse]
        split
        · show ((s.cache.set i _).buf j).lock = some p
          rw [Cache.set_of_ne _ _ hji]
          exact hl
        · exact hl
      · simp only [State.brelse]
        split
        · exact Or.inr ⟨i, Function.update_self ..⟩
        · exact Or.inl hidle

theorem Inv.commitStep (h : Inv g s) (hidle : s.call p = .idle)
    (hstep : s.commitStep g p (s.task p) = some t) : Inv g t := by
  cases hp : s.task p with
  | user =>
      rw [hp] at hstep
      cases hstep
  | inOp =>
      rw [hp] at hstep
      cases hstep
  | commit ph rest reg =>
      rw [hp] at hstep
      cases rest with
      | nil =>
          obtain rfl := Option.some.inj hstep
          exact h.advance hp hidle
      | cons op rest =>
          cases op with
          | bread r =>
              obtain rfl := Option.some.inj hstep
              exact h.commitBread hp hidle
          | _ => exact h.exec hp hidle (by simp) hstep

/-! ## Steps -/

/-- A process takes away only pins of its own. -/
def Balanced (s : State Pid α) : Label Pid α → Prop
  | .bunpin p i => 0 < s.pins p i
  | _ => True

instance (s : State Pid α) (l : Label Pid α) : Decidable (Balanced s l) :=
  match l with
  | .bunpin p i => inferInstanceAs (Decidable (0 < s.pins p i))
  | .bread _ _ | .cont _ | .change _ _ _ | .logWrite _ _ | .bwrite _ _ | .brelse _ _ | .bpin _ _
  | .beginOp _ | .endOp _ | .commit _ => isTrue trivial

/-- The three kinds of steps. -/
theorem step_cases {l : Label Pid α} (hstep : step g s l = some t) :
    (∃ p, l = .cont p ∧ s.cont p (s.call p) = some t) ∨
      (∃ p, l = .commit p ∧ s.call p = .idle ∧ s.commitStep g p (s.task p) = some t) ∨
      (s.Free l.who ∧ s.client l = some t) := by
  unfold step at hstep
  obtain ⟨-, hstep⟩ := Option.ite_none_left_eq_some.1 hstep
  cases l with
  | cont p => exact Or.inl ⟨p, rfl, hstep⟩
  | commit p =>
      obtain ⟨hidle, hstep⟩ := Option.ite_none_right_eq_some.1 hstep
      exact Or.inr (Or.inl ⟨p, rfl, hidle, hstep⟩)
  | _ =>
      obtain ⟨hfree, hstep⟩ := Option.ite_none_right_eq_some.1 hstep
      exact Or.inr (Or.inr ⟨hfree, hstep⟩)

omit [DecidableEq Pid] in
theorem State.Free.commits (h : s.Free p) : (s.task p).commits = false := by
  have htask := h.2
  cases hp : s.task p with
  | commit ph rest reg =>
      rw [hp] at htask
      cases htask
  | user => rfl
  | inOp => rfl

theorem cont_pins (hcont : s.cont p (s.call p) = some t) : t.pins = s.pins := by
  cases hc : s.call p with
  | idle =>
      rw [hc] at hcont
      cases hcont
  | locking i b =>
      simp only [hc, State.cont] at hcont
      obtain ⟨-, hcont⟩ := Option.ite_none_left_eq_some.1 hcont
      obtain rfl := Option.some.inj hcont
      split <;> rfl
  | reading i b =>
      rw [hc] at hcont
      obtain rfl := Option.some.inj hcont
      rfl
  | dropping i =>
      rw [hc] at hcont
      obtain rfl := Option.some.inj hcont
      rfl

theorem Inv.client (h : Inv g s) {l : Label Pid α} (hbal : Balanced s l) (hfree : s.Free l.who)
    (hstep : s.client l = some t) : Inv g t := by
  have hcommits := hfree.commits
  have hidle := hfree.1
  cases l with
  | bread p b =>
      obtain rfl := Option.some.inj hstep
      exact h.bread hcommits hidle b
  | change p i d =>
      obtain ⟨-, hstep⟩ := Option.ite_none_right_eq_some.1 hstep
      obtain rfl := Option.some.inj hstep
      exact h.change hcommits hidle false i d
  | logWrite p i =>
      obtain ⟨hl, hstep⟩ := Option.ite_none_right_eq_some.1 hstep
      obtain rfl := Option.some.inj hstep
      exact h.logWrite hcommits hidle hl
  | bwrite p i =>
      obtain rfl := Option.some.inj hstep
      exact h.bwrite hcommits i
  | brelse p i =>
      obtain rfl := Option.some.inj hstep
      exact h.brelse hcommits hidle i
  | bpin p i =>
      obtain ⟨-, hstep⟩ := Option.ite_none_right_eq_some.1 hstep
      obtain rfl := Option.some.inj hstep
      exact ⟨h.cache.bpin hidle rfl rfl rfl rfl,
        h.log.client hcommits rfl rfl rfl rfl rfl fun _ _ => Keeps.of_set rfl rfl rfl id⟩
  | bunpin p i =>
      obtain rfl := Option.some.inj hstep
      exact ⟨h.cache.bunpin hidle hbal rfl rfl rfl rfl,
        h.log.client hcommits rfl rfl rfl rfl rfl fun _ _ => Keeps.of_set rfl rfl rfl id⟩
  | beginOp p =>
      simp only [State.client] at hstep
      split at hstep
      · rename_i hp
        exact h.beginOp hp hstep
      · cases hstep
  | endOp p =>
      simp only [State.client] at hstep
      split at hstep
      · rename_i hp
        obtain rfl := Option.some.inj hstep
        exact h.endOp hp hidle
      · cases hstep
  | cont p => cases hstep
  | commit p => cases hstep

theorem Inv.step {l : Label Pid α} (h : Inv g s) (hbal : Balanced s l) (hstep : Bio.step g s l = some t) :
    Inv g t := by
  obtain ⟨p, rfl, hcont⟩ | ⟨p, rfl, hidle, hcommit⟩ | ⟨hfree, hclient⟩ := step_cases hstep
  · exact h.cont (cont_pins hcont) hcont
  · exact h.commitStep hidle hcommit
  · exact h.client hbal hfree hclient

omit [DecidableEq Pid] in
theorem inv_boot (disk : Uint → α) : Inv g (boot Pid disk) := by
  have hno : ∀ i, ((boot Pid disk).cache.buf i).blockno = none := fun _ => rfl
  refine ⟨⟨?_, fun i => ?_, fun {i j b} hi => ?_, fun i => ?_, ?_, ?_, ?_, ?_, List.nodup_nil⟩, ?_⟩
  · exact List.nodup_reverse.2 (List.nodup_finRange _)
  · exact List.mem_reverse.2 (List.mem_finRange i)
  · rw [hno] at hi
    cases hi
  · refine Counts.zero fun r => ?_
    cases r with
    | lock => simp [State.Refers, boot, binit]
    | call p => simp [State.Refers, boot, Call.Waits]
    | log => simp [State.Refers, boot]
    | pin p k => simp [State.Refers, boot]
  · intro p i b hp
    cases hp
  · intro p i b hp
    cases hp
  · intro p i hp
    cases hp
  · intro b hb
    cases hb
  · exact .of_quiet (Counts.zero fun p hp => by cases hp) List.nodup_nil (Nat.zero_le _) rfl rfl fun _ => rfl

end Xv6.Bio
