import Xv6.Bio.OneDisk

set_option autoImplicit false

/-! # The log is transparent

If processes leave the blocks of the log to `commit`, and write no block themselves that is logged,
then what `commit` copies is what the blocks contained before: a `bread` returns what processes have
left in the block. -/

namespace Xv6.Bio

open Xv6.Lib

variable {Pid α : Type} {g : Geometry α} {s t : State Pid α} {p q : Pid} {disk : Uint → α}

/-- The block in the log of entry `k` of the header. -/
def Geometry.slot (g : Geometry α) (k : Nat) : Uint := g.start + BitVec.ofNat 32 k + 1

/-- The header block and the blocks of the log. -/
def Geometry.InLog (g : Geometry α) (b : Uint) : Prop := b = g.start ∨ ∃ k, k < LOGBLOCKS ∧ b = g.slot k

def LogsOnly (g : Geometry α) (s : State Pid α) : Label Pid α → Prop
  | .change _ i _ => ∀ b, (s.cache.buf i).blockno = some b → ¬ g.InLog b
  | .logWrite _ i => ∀ b, (s.cache.buf i).blockno = some b → ¬ g.InLog b
  | .bwrite _ i => ∀ b, (s.cache.buf i).blockno = some b → b ∉ s.lh
  | _ => True

/-- An event that is not a change by `commit`. -/
def Ev.ofProcess : Ev Pid α → Bool
  | .change byCommit _ _ => !byCommit
  | .bread _ _ _ => true

theorem slot_toNat (k : Nat) (hk : k < LOGBLOCKS) : (g.slot k).toNat = (g.start.toNat + k + 1) % 2 ^ 32 := by
  have hk' : k < 30 := hk
  have hone : (1 : Uint).toNat = 1 := rfl
  simp only [Geometry.slot, BitVec.toNat_add, BitVec.toNat_ofNat, hone]
  omega

theorem slot_ne_start {k : Nat} (hk : k < LOGBLOCKS) : g.slot k ≠ g.start := by
  have hk' : k < 30 := hk
  have hstart := g.start.isLt
  intro h
  have hnat := congrArg BitVec.toNat h
  rw [slot_toNat k hk] at hnat
  omega

theorem slot_inj {j k : Nat} (hj : j < LOGBLOCKS) (hk : k < LOGBLOCKS) (h : g.slot j = g.slot k) : j = k := by
  have hj' : j < 30 := hj
  have hk' : k < 30 := hk
  have hstart := g.start.isLt
  have hnat := congrArg BitVec.toNat h
  rw [slot_toNat j hj, slot_toNat k hk] at hnat
  omega

/-! ## The invariant -/

/-- The entries of the header whose block has been copied to the log. -/
def Phase.Done (rest : List Op) (k : Nat) : Phase → Prop
  | .writeLog tail => k < tail ∨ (k = tail ∧ rest.any Op.copies = false)
  | .writeHead => True
  | .install _ => True
  | .erase => False

/-- Another process has changed the block and not released it. -/
def State.Changing (s : State Pid α) (b : Uint) (p : Pid) : Prop :=
  ∃ i q, q ≠ p ∧ (s.cache.buf i).blockno = some b ∧ (s.cache.buf i).lock = some q ∧ s.dirty i = true

def Copied (disk : Uint → α) (g : Geometry α) (s : State Pid α) (p : Pid) (k : Nat) : Prop :=
  latest disk s.hist (g.slot k) = latest disk s.hist (s.lh.getD k 0) ∨ s.Changing (s.lh.getD k 0) p

/-- The changes of `commit` make no difference outside of the log. -/
def Unchanged (disk : Uint → α) (g : Geometry α) (hist : List (Ev Pid α)) : Prop :=
  ∀ b, ¬ g.InLog b → latest disk (hist.filter Ev.ofProcess) b = latest disk hist b

structure Transparent (disk : Uint → α) (g : Geometry α) (s : State Pid α) : Prop where
  same : ∀ pre, pre <+: s.hist → Unchanged disk g pre
  lh : ∀ b ∈ s.lh, ¬ g.InLog b
  copied : ∀ {p ph rest reg}, s.task p = .commit ph rest reg → ∀ k, k < s.lh.length → ph.Done rest k →
    Copied disk g s p k

theorem Unchanged.process {hist : List (Ev Pid α)} (h : Unchanged disk g hist) {e : Ev Pid α}
    (he : e.ofProcess = true) : Unchanged disk g (hist ++ [e]) := by
  intro b hb
  rw [List.filter_append, List.filter_cons_of_pos he, List.filter_nil]
  cases e with
  | change c b' d =>
      rw [latest_change, latest_change]
      by_cases hbb : b = b'
      · subst hbb
        rw [Function.update_self, Function.update_self]
      · rw [Function.update_of_ne hbb, Function.update_of_ne hbb]
        exact h b hb
  | bread p b' d =>
      rw [latest_bread, latest_bread]
      exact h b hb

/-- A change by `commit` in the log, or one that changes nothing. -/
theorem Unchanged.commit {hist : List (Ev Pid α)} (h : Unchanged disk g hist) {b : Uint} {d : α}
    (hd : g.InLog b ∨ d = latest disk hist b) : Unchanged disk g (hist ++ [Ev.change true b d]) := by
  intro b' hb'
  have hfilter : (hist ++ [Ev.change true b d]).filter Ev.ofProcess = hist.filter Ev.ofProcess := by
    rw [List.filter_append, List.filter_cons_of_neg (by simp [Ev.ofProcess]), List.filter_nil, List.append_nil]
  rw [hfilter, latest_change, h b' hb']
  by_cases hbb : b' = b
  · subst hbb
    rw [Function.update_self]
    exact (hd.resolve_left hb').symm
  · rw [Function.update_of_ne hbb]

theorem same_snoc {hist : List (Ev Pid α)} {e : Ev Pid α} (h : ∀ pre, pre <+: hist → Unchanged disk g pre)
    (he : Unchanged disk g (hist ++ [e])) : ∀ pre, pre <+: hist ++ [e] → Unchanged disk g pre := by
  intro pre hpre
  rcases List.prefix_concat_iff.1 hpre with rfl | hpre
  · exact he
  · exact h pre hpre

/-- A step keeps what another process has changed. -/
structure KeepsDirty (s t : State Pid α) (p : Pid) : Prop where
  keeps : ∀ i q, q ≠ p → (s.cache.buf i).lock = some q → s.dirty i = true → ∀ b ∈ s.lh,
    (s.cache.buf i).blockno = some b →
      (t.cache.buf i).blockno = some b ∧ (t.cache.buf i).lock = some q ∧ t.dirty i = true

theorem Copied.keeps {k : Nat} (h : Copied disk g s p k) (hk : k < s.lh.length)
    (hkeeps : KeepsDirty s t p) (hlh : t.lh = s.lh) (hlatest : latest disk t.hist = latest disk s.hist) :
    Copied disk g t p k := by
  unfold Copied
  rw [hlh, hlatest]
  refine h.imp_right fun hex => ?_
  obtain ⟨i, q, hq, hb, hl, hd⟩ := hex
  have hmem : s.lh.getD k 0 ∈ s.lh := by
    rw [List.getD_eq_getElem?_getD, List.getElem?_eq_getElem hk, Option.getD_some]
    exact List.getElem_mem hk
  obtain ⟨hb', hl', hd'⟩ := hkeeps.keeps i q hq hl hd _ hmem hb
  exact ⟨i, q, hq, hb', hl', hd'⟩

/-- A step that changes no data and moves no process. -/
theorem Transparent.quiet (h : Transparent disk g s) (htask : t.task = s.task) (hlh : t.lh = s.lh)
    (hhist : t.hist = s.hist ∨ ∃ p b d, t.hist = s.hist ++ [Ev.bread p b d])
    (hkeeps : ∀ p ph rest reg, s.task p = .commit ph rest reg → KeepsDirty s t p) : Transparent disk g t := by
  have hlatest : latest disk t.hist = latest disk s.hist := by
    rcases hhist with hh | ⟨p, b, d, hh⟩
    · rw [hh]
    · rw [hh, latest_bread]
  refine ⟨?_, ?_, fun {p ph rest reg} hp k hk hdone => ?_⟩
  · rcases hhist with hh | ⟨p, b, d, hh⟩
    · rw [hh]
      exact h.same
    · rw [hh]
      exact same_snoc h.same ((h.same _ (List.prefix_refl _)).process rfl)
  · rw [hlh]
    exact h.lh
  · rw [htask] at hp
    rw [hlh] at hk
    exact (h.copied hp k hk hdone).keeps hk (hkeeps p ph rest reg hp) hlh hlatest

/-! ## Steps -/

section Steps

variable [DecidableEq Pid]

theorem cont_hist (hcont : s.cont p (s.call p) = some t) :
    t.hist = s.hist ∨ ∃ p b d, t.hist = s.hist ++ [Ev.bread p b d] := by
  cases hc : s.call p with
  | idle =>
      rw [hc] at hcont
      cases hcont
  | locking i b =>
      simp only [hc, State.cont] at hcont
      obtain ⟨-, hcont⟩ := Option.ite_none_left_eq_some.1 hcont
      obtain rfl := Option.some.inj hcont
      split
      · exact Or.inr ⟨_, _, _, rfl⟩
      · exact Or.inl rfl
  | reading i b =>
      rw [hc] at hcont
      obtain rfl := Option.some.inj hcont
      exact Or.inr ⟨_, _, _, rfl⟩
  | dropping i =>
      rw [hc] at hcont
      obtain rfl := Option.some.inj hcont
      exact Or.inl rfl

/-- What is locked stays locked while others go on with their calls. -/
theorem cont_keepsDirty (hcont : s.cont q (s.call q) = some t) : KeepsDirty s t p := by
  obtain ⟨hdirty, -⟩ := cont_data (s.disk) hcont
  refine ⟨fun i q' _ hl hd b _ hb => ?_⟩
  rw [hdirty]
  obtain ⟨j, _, -, hfree, hcache, -⟩ | ⟨j, _, -, hcache, -⟩ | ⟨j, -, hcache, -⟩ := cont_cases hcont
  · have hij : i ≠ j := by
      rintro rfl
      rw [hfree] at hl
      cases hl
    rw [hcache, Cache.set_of_ne _ _ hij]
    exact ⟨hb, hl, hd⟩
  · rw [hcache]
    exact ⟨(Cache.set_blockno (by rfl) i).trans hb, (Cache.set_lock (by rfl) i).trans hl, hd⟩
  · rw [hcache, bdrop_buf]
    exact ⟨(bunpin_blockno ..).trans hb, (bunpin_lock ..).trans hl, hd⟩

theorem CacheInv.bread_keepsDirty (h : CacheInv s) (b : Uint) (k : Fin NBUF → Task) :
    KeepsDirty s (s.bread q b k) p := by
  obtain ⟨hdirty, -⟩ := bread_data s q b k
  refine ⟨fun i q' _ hl hd b' _ hb => ?_⟩
  rw [hdirty]
  unfold State.bread
  split
  · exact ⟨hb, hl, hd⟩
  · rename_i c j hget
    obtain ⟨hblock, hlock⟩ := CacheInv.bget_keeps hget (h.locked_ref hl)
    exact ⟨hblock.trans hb, hlock.trans hl, hd⟩

omit [DecidableEq Pid] in
/-- A step that only changes data and counts of a buffer. -/
theorem KeepsDirty.of_set {i : Fin NBUF} {x : Buf Pid α} (hbuf : t.cache.buf = (s.cache.set i x).buf)
    (hblock : x.blockno = (s.cache.buf i).blockno) (hlock : x.lock = (s.cache.buf i).lock)
    (hdirty : ∀ j, s.dirty j = true → t.dirty j = true) : KeepsDirty s t p := by
  refine ⟨fun j q _ hl hd b _ hb => ?_⟩
  rw [hbuf]
  exact ⟨(Cache.set_blockno hblock j).trans hb, (Cache.set_lock hlock j).trans hl, hdirty j hd⟩

theorem brelse_keepsDirty {i : Fin NBUF}
    (h : s.Holds q i → s.dirty i = false ∨ (s.cache.buf i).lock = some p) :
    KeepsDirty s (s.brelse q i) p := by
  refine ⟨fun j q' hq hl hd b _ hb => ?_⟩
  simp only [State.brelse]
  split
  · rename_i hlock
    have hji : j ≠ i := by
      rintro rfl
      rcases h hlock with hclean | hlp
      · rw [hclean] at hd
        cases hd
      · exact hq (Option.some.inj (hl.symm.trans hlp))
    show ((s.cache.set i _).buf j).blockno = _ ∧ ((s.cache.set i _).buf j).lock = _ ∧ _
    rw [Cache.set_of_ne _ _ hji]
    exact ⟨hb, hl, hd⟩
  · exact ⟨hb, hl, hd⟩

/-- What is written is not a block of the header that another process has changed. -/
theorem bwrite_keepsDirty {i : Fin NBUF} (h : ∀ b, (s.cache.buf i).blockno = some b → b ∉ s.lh ∨
    (s.cache.buf i).lock = some p) : KeepsDirty s (s.bwrite q i) p := by
  obtain ⟨hcache, -⟩ := bwrite_log s q i
  refine ⟨fun j q' hq hl hd b hmem hb => ?_⟩
  rw [hcache]
  refine ⟨hb, hl, ?_⟩
  have hji : j ≠ i := by
    rintro rfl
    rcases h b hb with hno | hlp
    · exact hno hmem
    · exact hq (Option.some.inj (hl.symm.trans hlp))
  simp only [State.bwrite]
  split
  · exact (Function.update_of_ne hji ..).trans hd
  · exact hd

omit [DecidableEq Pid] in
/-- A process changes a block outside of the log. -/
theorem Transparent.change (h : Transparent disk g s) (hi : Inv g s) {i : Fin NBUF} {b : Uint}
    (hp : (s.task p).commits = false) (hb : (s.cache.buf i).blockno = some b) (hl : (s.cache.buf i).lock = some p)
    (hout : ¬ g.InLog b) (d : α) : Transparent disk g (s.change false i d) := by
  refine ⟨same_snoc h.same ((h.same _ (List.prefix_refl _)).process rfl), h.lh,
    fun {q ph rest reg} hq k hk hdone => ?_⟩
  have hqp : q ≠ p := by
    rintro rfl
    rw [show s.task q = _ from hq] at hp
    cases hp
  have hlatest : latest disk (s.change false i d).hist = Function.update (latest disk s.hist) b d := by
    simp only [State.change, latest_change, hb, Option.getD_some]
  have hsmall : k < LOGBLOCKS := Nat.lt_of_lt_of_le hk hi.log.small
  have hslot : g.slot k ≠ b := by
    rintro rfl
    exact hout (Or.inr ⟨k, hsmall, rfl⟩)
  unfold Copied
  rw [hlatest, Function.update_of_ne hslot]
  by_cases hhome : s.lh.getD k 0 = b
  · refine Or.inr ⟨i, p, Ne.symm hqp, ?_, ?_, Function.update_self ..⟩
    · rw [← hhome] at hb
      exact (Cache.set_blockno (by rfl) i).trans hb
    · exact (Cache.set_lock (by rfl) i).trans hl
  · rw [show (s.change false i d).lh = s.lh from rfl, Function.update_of_ne hhome]
    refine (h.copied hq k hk hdone).imp_right fun hex => ?_
    obtain ⟨j, q', hq', hj, hlj, hd⟩ := hex
    refine ⟨j, q', hq', (Cache.set_blockno (by rfl) j).trans hj, (Cache.set_lock (by rfl) j).trans hlj, ?_⟩
    show Function.update s.dirty i true j = true
    by_cases hji : j = i
    · rw [hji, Function.update_self]
    · rw [Function.update_of_ne hji, hd]

theorem Transparent.logWrite (h : Transparent disk g s) (hi : Inv g s) {i : Fin NBUF} {b : Uint}
    (hb : (s.cache.buf i).blockno = some b) (hout : ¬ g.InLog b) : Transparent disk g (s.logWrite p i) := by
  unfold State.logWrite
  simp only [hb, Option.getD_some]
  split
  · exact h.quiet rfl rfl (Or.inl rfl) fun _ _ _ _ _ => ⟨fun _ _ _ hl hd _ _ hb => ⟨hb, hl, hd⟩⟩
  split
  · exact h.quiet rfl rfl (Or.inl rfl) fun _ _ _ _ _ => ⟨fun _ _ _ hl hd _ _ hb => ⟨hb, hl, hd⟩⟩
  rename_i hpos
  have hno := hi.log.no_commits (hi.log.no_commit (Nat.le_of_not_lt hpos))
  have hnever : ∀ {q ph rest reg}, s.task q ≠ .commit ph rest reg := fun {q ph rest reg} hq => by
    have hq' := hno q
    rw [hq] at hq'
    cases hq'
  split
  · exact ⟨h.same, h.lh, fun hq => absurd hq hnever⟩
  · refine ⟨h.same, fun b' hb' => ?_, fun hq => absurd hq hnever⟩
    rcases List.mem_append.1 hb' with hold | hnew
    · exact h.lh b' hold
    · rw [List.mem_singleton.1 hnew]
      exact hout

omit [DecidableEq Pid] in
theorem Phase.done_congr {ph : Phase} {rest rest' : List Op} {k : Nat}
    (h : rest.any Op.copies = rest'.any Op.copies) (hdone : ph.Done rest k) : ph.Done rest' k := by
  cases ph with
  | writeLog tail => exact hdone.imp_right fun hand => ⟨hand.1, h ▸ hand.2⟩
  | _ => exact hdone

theorem Transparent.clientStep (h : Transparent disk g s) (hi : Inv g s) {l : Label Pid α}
    (hok : Disciplined s l) (hlog : LogsOnly g s l) (hfree : s.Free l.who) (hstep : s.client l = some t) :
    Transparent disk g t := by
  have hcommits := hfree.commits
  have hidle := hfree.1
  cases l with
  | bread p b =>
      obtain rfl := Option.some.inj hstep
      obtain ⟨hlh, -⟩ := bread_log s p b fun _ => s.task p
      obtain ⟨-, -, hhist⟩ := bread_data s p b fun _ => s.task p
      refine h.quiet ?_ hlh (Or.inl hhist) fun _ _ _ _ _ => hi.cache.bread_keepsDirty b _
      unfold State.bread
      split
      · rfl
      · exact Function.update_eq_self ..
  | change p i d =>
      obtain ⟨hl, hstep⟩ := Option.ite_none_right_eq_some.1 hstep
      obtain rfl := Option.some.inj hstep
      obtain ⟨b, hb, -⟩ := hi.cache.held hidle hl
      exact h.change hi hcommits hb hl (hlog b hb) d
  | logWrite p i =>
      obtain ⟨hl, hstep⟩ := Option.ite_none_right_eq_some.1 hstep
      obtain rfl := Option.some.inj hstep
      obtain ⟨b, hb, -⟩ := hi.cache.held hidle hl
      exact h.logWrite hi hb (hlog b hb)
  | bwrite p i =>
      obtain rfl := Option.some.inj hstep
      obtain ⟨-, -, -, hlh, -, htask, -⟩ := bwrite_log s p i
      refine h.quiet htask hlh (Or.inl ?_) fun _ _ _ _ _ => bwrite_keepsDirty fun b hb => Or.inl (hlog b hb)
      simp only [State.bwrite]
      split <;> rfl
  | brelse p i =>
      obtain rfl := Option.some.inj hstep
      obtain ⟨hlh, -, htask, -⟩ := brelse_log s p i
      refine h.quiet htask hlh (Or.inl ?_) fun _ _ _ _ _ => brelse_keepsDirty fun hl => Or.inl (hok hl)
      simp only [State.brelse]
      split <;> rfl
  | bpin p i =>
      obtain ⟨-, hstep⟩ := Option.ite_none_right_eq_some.1 hstep
      obtain rfl := Option.some.inj hstep
      exact h.quiet rfl rfl (Or.inl rfl) fun _ _ _ _ _ => .of_set rfl rfl rfl fun _ hd => hd
  | bunpin p i =>
      obtain rfl := Option.some.inj hstep
      exact h.quiet rfl rfl (Or.inl rfl) fun _ _ _ _ _ => .of_set rfl rfl rfl fun _ hd => hd
  | beginOp p =>
      simp only [State.client] at hstep
      split at hstep
      · unfold State.beginOp at hstep
        obtain ⟨hquiet, hstep⟩ := Option.ite_none_left_eq_some.1 hstep
        obtain ⟨-, hstep⟩ := Option.ite_none_left_eq_some.1 hstep
        obtain rfl := Option.some.inj hstep
        refine ⟨h.same, h.lh, fun {q ph rest reg} hq => ?_⟩
        by_cases hqp : q = p
        · subst hqp
          exact absurd ((Function.update_self ..).symm.trans hq) (by simp)
        · have hq' : s.task q = .commit ph rest reg := (Function.update_of_ne hqp ..).symm.trans hq
          exact absurd (hi.log.com hq').1 hquiet
      · cases hstep
  | endOp p =>
      simp only [State.client] at hstep
      split at hstep
      · rename_i hp
        obtain rfl := Option.some.inj hstep
        have hquiet := hi.log.no_commit (hi.log.ops.pos hp)
        have hothers : ∀ {T : Task} {q : Pid} {ph rest reg}, Function.update s.task p T q = .commit ph rest reg →
            T = .commit ph rest reg := by
          intro T q ph rest reg hq
          by_cases hqp : q = p
          · subst hqp
            exact (Function.update_self ..).symm.trans hq
          · rw [Function.update_of_ne hqp] at hq
            have hno := hi.log.no_commits hquiet q
            rw [hq] at hno
            cases hno
        simp only [State.endOp, hquiet, Bool.false_eq_true, if_false]
        split
        · split
          · rename_i hlen
            have hph : writeLog s.lh 0 = .writeLog 0 := if_pos hlen
            rw [hph]
            refine ⟨h.same, h.lh, fun {q ph rest reg} hq k _ hdone => ?_⟩
            -- nothing has been copied at the start
            obtain ⟨rfl, rfl, -⟩ := Task.commit.inj (hothers hq)
            rcases hdone with hlt | ⟨-, hcopied⟩
            · exact absurd hlt (Nat.not_lt_zero k)
            · cases hcopied
          · refine ⟨h.same, h.lh, fun {q ph rest reg} hq k _ hdone => ?_⟩
            obtain ⟨rfl, -, -⟩ := Task.commit.inj (hothers hq)
            exact absurd hdone id
        · refine ⟨h.same, h.lh, fun {q ph rest reg} hq => ?_⟩
          cases hothers hq
      · cases hstep
  | cont p => cases hstep
  | commit p => cases hstep

/-! ## `commit` -/

omit [DecidableEq Pid] in
/-- A step of the process in `commit`. -/
theorem Transparent.mine (hi : Inv g t) {ph : Phase} {rest : List Op} {reg : Reg → Option (Fin NBUF)}
    (hp : t.task p = .commit ph rest reg) (hsame : ∀ pre, pre <+: t.hist → Unchanged disk g pre)
    (hlh : ∀ b ∈ t.lh, ¬ g.InLog b)
    (hcopied : ∀ k, k < t.lh.length → ph.Done rest k → Copied disk g t p k) : Transparent disk g t := by
  refine ⟨hsame, hlh, fun {q ph' rest' reg'} hq => ?_⟩
  obtain rfl : q = p := hi.log.only (by rw [hq]; rfl) (by rw [hp]; rfl)
  obtain ⟨rfl, rfl, rfl⟩ := Task.commit.inj (hp.symm.trans hq)
  exact hcopied

theorem Transparent.commitBread (h : Transparent disk g s) (hi : Inv g s) {ph : Phase} {r : Reg}
    {rest : List Op} {reg : Reg → Option (Fin NBUF)} (hp : s.task p = .commit ph (.bread r :: rest) reg)
    (hidle : s.call p = .idle) : Transparent disk g (s.bread p (ph.block g.start s.lh r) fun i =>
      .commit ph rest (Function.update reg r (some i))) := by
  have hi' := hi.commitBread hp hidle
  have hkeeps := hi.cache.bread_keepsDirty (q := p) (p := p) (ph.block g.start s.lh r) fun i =>
    .commit ph rest (Function.update reg r (some i))
  have hdone : ∀ k, ph.Done rest k → ph.Done (.bread r :: rest) k := fun k => Phase.done_congr rfl
  unfold State.bread at hi' hkeeps ⊢
  split
  · exact h.quiet rfl rfl (Or.inl rfl) fun _ _ _ _ _ => ⟨fun _ _ _ hl hd _ _ hb => ⟨hb, hl, hd⟩⟩
  · rename_i c i hget
    rw [hget] at hi' hkeeps
    exact .mine hi' (Function.update_self ..) h.same h.lh fun k hk hd =>
      (h.copied hp k hk (hdone k hd)).keeps hk hkeeps rfl rfl

omit [DecidableEq Pid] in
/-- Entry `k` of the header is not in the log. -/
theorem Transparent.home_out (h : Transparent disk g s) {k : Nat} (hk : k < s.lh.length) :
    ¬ g.InLog (s.lh.getD k 0) := by
  refine h.lh _ ?_
  rw [List.getD_eq_getElem?_getD, List.getElem?_eq_getElem hk, Option.getD_some]
  exact List.getElem_mem hk

omit [DecidableEq Pid] in
/-- `commit` changes a block of the log that no entry copied so far uses. -/
theorem Copied.change_log {k : Nat} {i : Fin NBUF} {b : Uint} {d : α} (h : Copied disk g s p k)
    (hb : (s.cache.buf i).blockno = some b) (hslot : g.slot k ≠ b) (hhome : s.lh.getD k 0 ≠ b) :
    Copied disk g (s.change true i d) p k := by
  have hlatest : latest disk (s.change true i d).hist = Function.update (latest disk s.hist) b d := by
    simp only [State.change, latest_change, hb, Option.getD_some]
  unfold Copied
  rw [hlatest, Function.update_of_ne hslot, show (s.change true i d).lh = s.lh from rfl,
    Function.update_of_ne hhome]
  refine h.imp_right fun hex => ?_
  obtain ⟨j, q, hq, hj, hl, hd⟩ := hex
  refine ⟨j, q, hq, (Cache.set_blockno (by rfl) j).trans hj, (Cache.set_lock (by rfl) j).trans hl, ?_⟩
  show Function.update s.dirty i true j = true
  by_cases hji : j = i
  · rw [hji, Function.update_self]
  · rw [Function.update_of_ne hji, hd]

omit [DecidableEq Pid] in
/-- `write_log` copies what the block contains. -/
theorem copied_now {k : Nat} {i j : Fin NBUF} (hd : DataInv disk s) (hk : k < LOGBLOCKS)
    (hlog : (s.cache.buf i).blockno = some (g.slot k)) (hhome : (s.cache.buf j).blockno = some (s.lh.getD k 0))
    (hv : (s.cache.buf j).valid = true) (hout : ¬ g.InLog (s.lh.getD k 0)) :
    Copied disk g (s.change true i (s.cache.buf j).data) p k := by
  have hne : s.lh.getD k 0 ≠ g.slot k := by
    intro heq
    exact hout (Or.inr ⟨k, hk, heq⟩)
  refine Or.inl ?_
  have hlatest : latest disk (s.change true i (s.cache.buf j).data).hist =
      Function.update (latest disk s.hist) (g.slot k) (s.cache.buf j).data := by
    simp only [State.change, latest_change, hlog, Option.getD_some]
  rw [hlatest, Function.update_self, show (s.change true i _).lh = s.lh from rfl,
    Function.update_of_ne hne]
  exact hd.current hhome hv

theorem Transparent.memmove (h : Transparent disk g s) (hi : Inv g s) (hd : DataInv disk s) {ph : Phase}
    {dst src : Reg} {rest : List Op} {reg : Reg → Option (Fin NBUF)}
    (hp : s.task p = .commit ph (.memmove dst src :: rest) reg) (hidle : s.call p = .idle) {i j : Fin NBUF}
    (hdst : reg dst = some i) (hsrc : reg src = some j)
    (hi' : Inv g ((s.setTask p (.commit ph rest reg)).change true i (s.cache.buf j).data))
    (huse : InUse rest dst ∧ InUse rest src) :
    Transparent disk g ((s.setTask p (.commit ph rest reg)).change true i (s.cache.buf j).data) := by
  obtain ⟨-, hcom⟩ := hi.log.com hp
  have hself : (s.setTask p (.commit ph rest reg)).task p = .commit ph rest reg := Function.update_self ..
  have hne : ∀ r, Op.memmove dst src ≠ .bread r := by simp
  obtain ⟨i', hi1, hbi, hli⟩ := hcom.held hidle (huse.1.cons (hne dst))
  obtain rfl : i = i' := Option.some.inj (hdst.symm.trans hi1)
  obtain ⟨j', hj1, hbj, hlj⟩ := hcom.held hidle (huse.2.cons (hne src))
  obtain rfl : j = j' := Option.some.inj (hsrc.symm.trans hj1)
  obtain ⟨-, -, hvj⟩ := hi.cache.held hidle hlj
  have hmem : Op.memmove dst src ∈ ph.body := hcom.suffix.subset (List.mem_cons_self ..)
  cases ph with
  | writeLog tail =>
      obtain ⟨rfl, rfl⟩ : dst = .log ∧ src = .home := by simpa [Phase.body] using hmem
      have htail : tail < s.lh.length := hcom.bound
      have hsmall : tail < LOGBLOCKS := Nat.lt_of_lt_of_le htail hi.log.small
      have hin : g.InLog (g.slot tail) := Or.inr ⟨tail, hsmall, rfl⟩
      refine .mine hi' hself (same_snoc h.same ((h.same _ (List.prefix_refl _)).commit (Or.inl ?_))) h.lh
        fun k hk hdone => ?_
      · have hget : (s.cache.buf i).blockno.getD 0 = g.slot tail := by rw [hbi]; rfl
        exact hget ▸ hin
      · have hksmall : k < LOGBLOCKS := Nat.lt_of_lt_of_le hk hi.log.small
        rcases hdone with hlt | ⟨rfl, -⟩
        · have hne : g.slot k ≠ g.slot tail := fun heq => absurd (slot_inj hksmall hsmall heq) (Nat.ne_of_lt hlt)
          have hhome : s.lh.getD k 0 ≠ g.slot tail := fun heq => h.home_out hk (heq ▸ hin)
          exact (h.copied hp k hk (Or.inl hlt)).change_log hbi hne hhome
        · exact copied_now (hd.congr rfl rfl rfl rfl rfl) hsmall hbi hbj hvj (h.home_out hk)
  | install tail =>
      obtain ⟨rfl, rfl⟩ : dst = .home ∧ src = .log := by simpa [Phase.body] using hmem
      have htail : tail < s.lh.length := hcom.bound
      -- the copy is what the block contains, which nobody else has locked
      have hcopy : (s.cache.buf j).data = latest disk s.hist (s.lh.getD tail 0) := by
        rw [hd.current hbj hvj]
        refine (h.copied hp tail htail trivial).resolve_right fun hex => ?_
        obtain ⟨k, q, hq, hbk, hlk, -⟩ := hex
        obtain rfl := hi.cache.one hbk hbi
        exact hq (Option.some.inj (hlk.symm.trans hli))
      have hlatest : latest disk (s.hist ++ [Ev.change true ((s.cache.buf i).blockno.getD 0) (s.cache.buf j).data]) =
          latest disk s.hist := by
        rw [latest_change, hbi, Option.getD_some, hcopy]
        exact Function.update_eq_self ..
      refine .mine hi' hself (same_snoc h.same ((h.same _ (List.prefix_refl _)).commit (Or.inr ?_))) h.lh
        fun k hk hdone => (h.copied hp k hk hdone).keeps hk ?_ rfl hlatest
      · have hget : (s.cache.buf i).blockno.getD 0 = s.lh.getD tail 0 := by rw [hbi]; rfl
        exact hcopy.trans (congrArg (latest disk s.hist) hget.symm)
      · refine .of_set rfl rfl rfl fun k hk => ?_
        show Function.update s.dirty i true k = true
        by_cases hki : k = i
        · rw [hki, Function.update_self]
        · rw [Function.update_of_ne hki, hk]
  | writeHead => exact absurd hmem (by simp [Phase.body])
  | erase => exact absurd hmem (by simp [Phase.body])

theorem Transparent.header (h : Transparent disk g s) (hi : Inv g s) {ph : Phase} {rest : List Op}
    {reg : Reg → Option (Fin NBUF)} (hp : s.task p = .commit ph (.header :: rest) reg)
    (hidle : s.call p = .idle) {i : Fin NBUF} (hlog : reg .log = some i) (d : α)
    (hi' : Inv g ((s.setTask p (.commit ph rest reg)).change true i d)) (huse : InUse rest .log) :
    Transparent disk g ((s.setTask p (.commit ph rest reg)).change true i d) := by
  obtain ⟨-, hcom⟩ := hi.log.com hp
  have hself : (s.setTask p (.commit ph rest reg)).task p = .commit ph rest reg := Function.update_self ..
  have hne : Op.header ≠ .bread .log := by simp
  obtain ⟨k, hk, hb, -⟩ := hcom.held hidle (huse.cons hne)
  obtain rfl : i = k := Option.some.inj (hlog.symm.trans hk)
  have hmem : Op.header ∈ ph.body := hcom.suffix.subset (List.mem_cons_self ..)
  have hstart : ph.block g.start s.lh .log = g.start ∧ ∀ k, ph.Done rest k → ph.Done (.header :: rest) k := by
    cases ph with
    | writeLog tail => exact absurd hmem (by simp [Phase.body])
    | install tail => exact absurd hmem (by simp [Phase.body])
    | writeHead => exact ⟨rfl, fun _ hd => hd⟩
    | erase => exact ⟨rfl, fun _ hd => hd⟩
  rw [hstart.1] at hb
  refine .mine hi' hself (same_snoc h.same ((h.same _ (List.prefix_refl _)).commit (Or.inl ?_))) h.lh
    fun k hk hdone => ?_
  · have hget : (s.cache.buf i).blockno.getD 0 = g.start := by rw [hb]; rfl
    exact Or.inl hget
  · have hhome : s.lh.getD k 0 ≠ g.start := fun heq => h.home_out hk (Or.inl heq)
    exact (h.copied hp k hk (hstart.2 k hdone)).change_log hb
      (slot_ne_start (Nat.lt_of_lt_of_le hk hi.log.small)) hhome

theorem Transparent.exec (h : Transparent disk g s) (hi : Inv g s) (hd : DataInv disk s) {ph : Phase}
    {op : Op} {rest : List Op} {reg : Reg → Option (Fin NBUF)} (hp : s.task p = .commit ph (op :: rest) reg)
    (hidle : s.call p = .idle) (hop : ∀ r, op ≠ .bread r)
    (hexec : (s.setTask p (.commit ph rest reg)).exec g p reg op = some t) : Transparent disk g t := by
  have hi' := hi.exec hp hidle hop hexec
  obtain ⟨-, hcom⟩ := hi.log.com hp
  have hself : (s.setTask p (.commit ph rest reg)).task p = .commit ph rest reg := Function.update_self ..
  have hback := Phase.writesBack hcom.suffix
  cases op with
  | bread r => exact absurd rfl (hop r)
  | memmove dst src =>
      simp only [State.exec] at hexec
      split at hexec
      · rename_i i j hdst hsrc
        obtain rfl := Option.some.inj hexec
        exact h.memmove hi hd hp hidle hdst hsrc hi' (Phase.moves hcom.suffix)
      · cases hexec
  | header =>
      obtain ⟨i, hlog, rfl⟩ := Option.map_eq_some_iff.1 hexec
      exact h.header hi hp hidle hlog _ hi' hback.2.2
  | bwrite r =>
      obtain ⟨i, hreg, rfl⟩ := Option.map_eq_some_iff.1 hexec
      obtain ⟨k, hk, -, hl⟩ := hcom.held hidle (hback.cons (hop r))
      obtain rfl : i = k := Option.some.inj (hreg.symm.trans hk)
      obtain ⟨-, -, -, hlh, -, htask, -⟩ := bwrite_log (s.setTask p (.commit ph rest reg)) p i
      have hhist : ((s.setTask p (.commit ph rest reg)).bwrite p i).hist = s.hist := by
        simp only [State.bwrite]
        split <;> rfl
      have hkeeps : KeepsDirty (s.setTask p (.commit ph rest reg))
          ((s.setTask p (.commit ph rest reg)).bwrite p i) p := bwrite_keepsDirty fun _ _ => Or.inr hl
      refine .mine hi' (by rw [htask, hself]) (hhist ▸ h.same) (hlh ▸ h.lh) fun k hk hdone => ?_
      rw [hlh] at hk
      exact (h.copied hp k hk (Phase.done_congr rfl hdone)).keeps hk ⟨hkeeps.keeps⟩ hlh (by rw [hhist])
  | bunpin =>
      obtain ⟨i, -, rfl⟩ := Option.map_eq_some_iff.1 hexec
      exact .mine hi' hself h.same h.lh fun k hk hdone =>
        (h.copied hp k hk (Phase.done_congr rfl hdone)).keeps hk (.of_set rfl rfl rfl fun _ hd => hd) rfl rfl
  | brelse r =>
      obtain ⟨i, hreg, rfl⟩ := Option.map_eq_some_iff.1 hexec
      have huse : InUse (.brelse r :: rest) r :=
        ⟨List.mem_cons_self .., by simp [(Phase.releasesOnce hcom.suffix).2]⟩
      obtain ⟨k, hk, -, hl⟩ := hcom.held hidle huse
      obtain rfl : i = k := Option.some.inj (hreg.symm.trans hk)
      obtain ⟨hlh, -, htask, -⟩ := brelse_log (s.setTask p (.commit ph rest reg)) p i
      have hhist : ((s.setTask p (.commit ph rest reg)).brelse p i).hist = s.hist := by
        simp only [State.brelse]
        split <;> rfl
      have hkeeps : KeepsDirty (s.setTask p (.commit ph rest reg))
          ((s.setTask p (.commit ph rest reg)).brelse p i) p := brelse_keepsDirty fun _ => Or.inr hl
      refine .mine hi' (by rw [htask, hself]) (hhist ▸ h.same) (hlh ▸ h.lh) fun k hk hdone => ?_
      rw [hlh] at hk
      exact (h.copied hp k hk (Phase.done_congr rfl hdone)).keeps hk ⟨hkeeps.keeps⟩ hlh (by rw [hhist])

theorem Transparent.advance (h : Transparent disk g s) (hi : Inv g s) {ph : Phase}
    {reg : Reg → Option (Fin NBUF)} (hp : s.task p = .commit ph [] reg) (hidle : s.call p = .idle) :
    Transparent disk g (s.advance p ph) := by
  have hi' := hi.advance hp hidle
  obtain ⟨-, hcom⟩ := hi.log.com hp
  -- the entries of the next round have been copied, or the header is empty
  have henter : ∀ ph', Inv g (s.enter p ph') → (∀ k, k < s.lh.length → ph'.Done ph'.body k → ph.Done [] k) →
      Transparent disk g (s.enter p ph') := by
    intro ph' hinv hdone
    refine .mine hinv (Function.update_self ..) h.same ?_ fun k hk hd => ?_
    · intro b hb
      change b ∈ (if ph' = Phase.erase then [] else s.lh) at hb
      split at hb
      · cases hb
      · exact h.lh b hb
    · have hlh : (s.enter p ph').lh = if ph' = .erase then [] else s.lh := rfl
      by_cases he : ph' = .erase
      · rw [he] at hd
        exact absurd hd id
      · rw [if_neg he] at hlh
        rw [hlh] at hk
        exact (h.copied hp k hk (hdone k hk hd)).keeps hk ⟨fun _ _ _ hl hd _ _ hb => ⟨hb, hl, hd⟩⟩ hlh rfl
  cases ph with
  | writeLog tail =>
      refine henter _ hi' fun k hk hd => ?_
      unfold writeLog at hd
      split at hd
      · rcases hd with hlt | ⟨-, hcopied⟩
        · rcases Nat.lt_succ_iff_lt_or_eq.1 hlt with hlt | heq
          · exact Or.inl hlt
          · exact Or.inr ⟨heq, rfl⟩
        · cases hcopied
      · rename_i hlen
        rcases Nat.lt_or_ge k tail with hlt | hge
        · exact Or.inl hlt
        · exact Or.inr ⟨by omega, rfl⟩
  | writeHead => exact henter _ hi' fun _ _ _ => trivial
  | install tail => exact henter _ hi' fun _ _ _ => trivial
  | erase =>
      refine ⟨h.same, h.lh, fun {q ph rest reg} hq => ?_⟩
      have hno := hi'.log.no_commits rfl q
      rw [hq] at hno
      cases hno

theorem Transparent.step (h : Transparent disk g s) (hi : Inv g s) (hc : Coherent disk g s) {l : Label Pid α}
    (hok : Disciplined s l) (hlog : LogsOnly g s l) (hstep : Bio.step g s l = some t) :
    Transparent disk g t := by
  obtain ⟨p, rfl, hcont⟩ | ⟨p, rfl, hidle, hcommit⟩ | ⟨hfree, hclient⟩ := step_cases hstep
  · obtain ⟨hlh, -, -, -, htask⟩ := cont_log hcont
    exact h.quiet htask hlh (cont_hist hcont) fun _ _ _ _ _ => cont_keepsDirty hcont
  · cases hp : s.task p with
    | user =>
        rw [hp] at hcommit
        cases hcommit
    | inOp =>
        rw [hp] at hcommit
        cases hcommit
    | commit ph rest reg =>
        rw [hp] at hcommit
        cases rest with
        | nil =>
            obtain rfl := Option.some.inj hcommit
            exact h.advance hi hp hidle
        | cons op rest =>
            cases op with
            | bread r =>
                obtain rfl := Option.some.inj hcommit
                exact h.commitBread hi hp hidle
            | _ => exact h.exec hi hc.data hp hidle (by simp) hcommit
  · exact h.clientStep hi hok hlog hfree hclient

omit [DecidableEq Pid] in
theorem transparent_boot (disk : Uint → α) : Transparent disk g (boot Pid disk) := by
  refine ⟨fun pre hpre b _ => ?_, ?_, ?_⟩
  · rw [List.prefix_nil.1 hpre]
    rfl
  · intro b hb
    cases hb
  · intro p ph rest reg hp
    cases hp

/-- **One coherent disk**, in every run where changes are logged or written before the buffer is released:
    a `bread` returns the latest contents of its block, and the blocks of the header stay in the cache until
    `install_trans` has written them home. If the log is left to `commit`, its copies are no changes. -/
theorem one_disk (g : Geometry α) (disk : Uint → α) (ls : List (Label Pid α)) (s : State Pid α)
    (hok : AllSteps (step g) Disciplined (boot Pid disk) ls)
    (hrun : runSteps (step g) (boot Pid disk) ls = some s) :
    (∀ pre p b d suf, s.hist = pre ++ Ev.bread p b d :: suf → d = latest disk pre b) ∧
      (∀ b ∈ s.lh, WrittenHome s b ∨ ∃ i, (s.cache.buf i).blockno = some b ∧
        (s.cache.buf i).valid = true ∧ 1 ≤ (s.cache.buf i).refcnt) ∧
      (AllSteps (step g) (LogsOnly g) (boot Pid disk) ls → ∀ pre p b d suf,
        s.hist = pre ++ Ev.bread p b d :: suf → ¬ g.InLog b →
          d = latest disk (pre.filter Ev.ofProcess) b) := by
  have hinv : Inv g s ∧ Coherent disk g s := by
    refine runSteps_invariant_of_allSteps (I := fun s => Inv g s ∧ Coherent disk g s) ?_
      ⟨inv_boot disk, coherent_boot disk⟩ hok hrun
    intro s l t h hok hstep
    exact ⟨h.1.step hok.balanced hstep, h.2.step h.1 hok hstep⟩
  refine ⟨hinv.2.data.reads, fun b hb => hinv.1.kept hb, fun hlog pre p b d suf hhist hout => ?_⟩
  have htrans : Inv g s ∧ Coherent disk g s ∧ Transparent disk g s := by
    refine runSteps_invariant_of_allSteps (I := fun s => Inv g s ∧ Coherent disk g s ∧ Transparent disk g s) ?_
      ⟨inv_boot disk, coherent_boot disk, transparent_boot disk⟩ (hok.and hlog) hrun
    intro s l t h hok hstep
    exact ⟨h.1.step hok.1.balanced hstep, h.2.1.step h.1 hok.1 hstep,
      h.2.2.step h.1 h.2.1 hok.1 hok.2 hstep⟩
  have hpre : pre <+: s.hist := ⟨_, hhist.symm⟩
  rw [htrans.2.2.same pre hpre b hout]
  exact hinv.2.data.reads pre p b d suf hhist

instance (s : State Pid α) (l : Label Pid α) : Decidable (Disciplined s l) :=
  match l with
  | .brelse p i => inferInstanceAs (Decidable (s.Holds p i → s.dirty i = false))
  | .bunpin p i => inferInstanceAs (Decidable (0 < s.pins p i))
  | .bread _ _ | .cont _ | .change _ _ _ | .logWrite _ _ | .bwrite _ _ | .bpin _ _ | .beginOp _
  | .endOp _ | .commit _ => isTrue trivial

end Steps

/-- A process changes a block, logs it, commits and reads the block again. -/
def changeAndRead : List (Label Unit Nat) :=
  let i : Fin NBUF := ⟨0, NBUF_pos⟩
  let c := .commit ()
  let k := .cont ()
  [.beginOp (), .bread () 100, k, k, .change () i 7, .logWrite () i, .brelse () i, k, .endOp ()] ++
    [c, k, k, c, k, c, c, c, k, c, k, c] ++ [c, k, k, c, c, c, k, c] ++
    [c, k, c, k, c, c, c, c, k, c, k, c] ++ [c, k, c, c, c, k, c] ++ [.bread () 100, k]

/-- The second `bread` returns what has been logged. -/
theorem one_disk_changed : ∃ s,
    runSteps (step ⟨0, fun _ d => d⟩) (boot Unit fun _ => 0) changeAndRead = some s ∧
      ∃ pre, s.hist = pre ++ [Ev.bread () 100 7] ∧ latest (fun _ => 0) pre 100 = 7 := by
  have hok : AllSteps (step ⟨0, fun _ d => d⟩) Disciplined (boot Unit fun _ => 0) changeAndRead := by
    decide +kernel
  have hlast : (runSteps (step ⟨0, fun _ d => d⟩) (boot Unit fun _ => 0) changeAndRead).map
      (fun s => s.hist.getLast?) = some (some (Ev.bread () 100 7)) := by
    decide +kernel
  obtain ⟨s, hs, hhist⟩ := Option.map_eq_some_iff.1 hlast
  have hpre := (List.dropLast_append_getLast? (Ev.bread () 100 7) hhist).symm
  exact ⟨s, hs, s.hist.dropLast, hpre, ((one_disk _ _ changeAndRead s hok hs).1 _ _ _ _ [] hpre).symm⟩

end Xv6.Bio
