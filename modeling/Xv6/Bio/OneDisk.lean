import Xv6.Bio.RunsDry
import Xv6.Bio.Coherence

set_option autoImplicit false

/-! # Every `bread` returns the latest contents

The steps keep the data coherent, and the log keeps its blocks in the cache until they are home. If processes
leave the log to `commit`, then what it copies does not change what a block contains. -/

namespace Xv6.Bio

open Xv6.Lib

variable {Pid α : Type} [DecidableEq Pid] {g : Geometry α} {s t : State Pid α} {p q : Pid}
  {disk : Uint → α}

/-! ## Steps -/

theorem cont_data (disk : Uint → α) (hcont : s.cont p (s.call p) = some t) :
    t.dirty = s.dirty ∧ t.disk = s.disk ∧ latest disk t.hist = latest disk s.hist := by
  cases hc : s.call p with
  | idle =>
      rw [hc] at hcont
      cases hcont
  | locking i b =>
      simp only [hc, State.cont] at hcont
      obtain ⟨-, hcont⟩ := Option.ite_none_left_eq_some.1 hcont
      obtain rfl := Option.some.inj hcont
      split
      · exact ⟨rfl, rfl, latest_bread ..⟩
      · exact ⟨rfl, rfl, rfl⟩
  | reading i b =>
      rw [hc] at hcont
      obtain rfl := Option.some.inj hcont
      exact ⟨rfl, rfl, latest_bread ..⟩
  | dropping i =>
      rw [hc] at hcont
      obtain rfl := Option.some.inj hcont
      exact ⟨rfl, rfl, rfl⟩

/-- A buffer that `p` gets now was clean. -/
theorem ComData.cont {ph : Phase} {rest : List Op} {reg : Reg → Option (Fin NBUF)}
    (h : ComData disk g s p ph rest reg) (hd : DataInv disk s) (hcont : s.cont p (s.call p) = some t) :
    ComData disk g t p ph rest reg := by
  obtain ⟨hdirty, hdisk, hlatest⟩ := cont_data disk hcont
  obtain ⟨hlh, -⟩ := cont_log hcont
  constructor
  · intro r i hr hi hc hdi
    rw [hdirty] at hdi
    refine h.clean r i hr hi (fun b hwait => ?_) hdi
    have hlocked := hd.dirty hdi
    obtain ⟨j, b', hwait', hfree, -⟩ | ⟨j, b', hread, -⟩ | ⟨j, hdrop, -⟩ := cont_cases hcont
    · rw [hwait] at hwait'
      obtain ⟨rfl, -⟩ := Call.locking.inj hwait'
      rw [hfree] at hlocked
      cases hlocked
    · rw [hwait] at hread
      cases hread
    · rw [hwait] at hdrop
      cases hdrop
  · rw [hdisk, hlatest, hlh]
    exact h.synced

theorem Coherent.cont (h : Coherent disk g s) (hi : Inv g s) (hcont : s.cont p (s.call p) = some t) :
    Coherent disk g t := by
  obtain ⟨hdirty, hdisk, hlatest⟩ := cont_data disk hcont
  obtain ⟨hlh, -, -, -, htask⟩ := cont_log hcont
  refine ⟨h.data.cont hi.cache hcont, fun {q ph rest reg} hq => ?_⟩
  rw [htask] at hq
  by_cases hqp : q = p
  · subst hqp
    exact (h.com hq).cont h.data hcont
  · exact (h.com hq).spares (hi.log.com hq).2 ((cont_frame hcont).2 q hqp) hlh
      (Spares.of_eq (fun i hd => hdirty ▸ hd) hdisk hlatest)

theorem bread_data (s : State Pid α) (p : Pid) (b : Uint) (k : Fin NBUF → Task) :
    (s.bread p b k).dirty = s.dirty ∧ (s.bread p b k).disk = s.disk ∧ (s.bread p b k).hist = s.hist := by
  unfold State.bread
  split <;> exact ⟨rfl, rfl, rfl⟩

theorem logWrite_data (s : State Pid α) (p : Pid) (i : Fin NBUF) :
    (∀ j, (s.logWrite p i).dirty j = true → s.dirty j = true) ∧ (s.logWrite p i).disk = s.disk ∧
      (s.logWrite p i).hist = s.hist ∧ (s.logWrite p i).call = s.call := by
  have hclean : ∀ j, Function.update s.dirty i false j = true → s.dirty j = true := fun j hj => by
    by_cases hji : j = i
    · subst hji
      rw [Function.update_self] at hj
      cases hj
    · rwa [Function.update_of_ne hji] at hj
  simp only [State.logWrite]
  split
  · exact ⟨fun _ hj => hj, rfl, rfl, rfl⟩
  split
  · exact ⟨fun _ hj => hj, rfl, rfl, rfl⟩
  split <;> exact ⟨hclean, rfl, rfl, rfl⟩

omit [DecidableEq Pid] in
/-- Another process changes only buffers that it has locked itself. -/
theorem CacheInv.change_spares (h : CacheInv s) (hq : q ≠ p) {i : Fin NBUF} {b : Uint}
    (hl : (s.cache.buf i).lock = some p) (hb : (s.cache.buf i).blockno = some b) (byCommit : Bool) (d : α) :
    Spares disk s (s.change byCommit i d) q := by
  have hne : ∀ j, (s.cache.buf j).lock = some q → j ≠ i := by
    rintro j hlj rfl
    exact hq (Option.some.inj (hlj.symm.trans hl))
  refine ⟨fun j hlj hd => ?_, fun j b' hlj hbj hb' => ?_⟩
  · exact (Function.update_of_ne (hne j hlj) ..).symm.trans hd
  · have hbb : b' ≠ b := by
      rintro rfl
      exact hne j hlj (h.one hbj hb)
    simp only [State.change, latest_change, hb, Option.getD_some]
    rw [Function.update_of_ne hbb]
    exact hb'

theorem CacheInv.bwrite_spares (h : CacheInv s) (hq : q ≠ p) (i : Fin NBUF) :
    Spares disk s (s.bwrite p i) q := by
  simp only [State.bwrite]
  split
  · rename_i hl
    obtain ⟨⟨b, hb⟩, -⟩ := h.locked hl
    have hne : ∀ j, (s.cache.buf j).lock = some q → j ≠ i := by
      rintro j hlj rfl
      exact hq (Option.some.inj (hlj.symm.trans hl))
    refine ⟨fun j hlj hd => ?_, fun j b' hlj hbj hb' => ?_⟩
    · exact (Function.update_of_ne (hne j hlj) ..).symm.trans hd
    · have hbb : b' ≠ b := by
        rintro rfl
        exact hne j hlj (h.one hbj hb)
      simp only [hb, Option.getD_some]
      rw [Function.update_of_ne hbb]
      exact hb'
  · exact Spares.of_eq (fun _ hd => hd) rfl rfl

theorem Coherent.clientStep (h : Coherent disk g s) (hi : Inv g s) {l : Label Pid α} (hok : Disciplined s l)
    (hfree : s.Free l.who) (hstep : s.client l = some t) : Coherent disk g t := by
  have hcommits := hfree.commits
  have hidle := hfree.1
  cases l with
  | bread p b =>
      obtain rfl := Option.some.inj hstep
      obtain ⟨hlh, -⟩ := bread_log s p b fun _ => s.task p
      obtain ⟨hdirty, hdisk, hhist⟩ := bread_data s p b fun _ => s.task p
      refine h.client hi hcommits (h.data.bread hi.cache b _) ?_ hlh (apart_bread s p b _).call fun q _ =>
        Spares.of_eq (fun i hd => hdirty ▸ hd) hdisk (by rw [hhist])
      unfold State.bread
      split
      · rfl
      · exact Function.update_eq_self ..
  | change p i d =>
      obtain ⟨hl, hstep⟩ := Option.ite_none_right_eq_some.1 hstep
      obtain rfl := Option.some.inj hstep
      obtain ⟨b, hb, hv⟩ := hi.cache.held hidle hl
      exact h.client hi hcommits (h.data.change hi.cache hb hv hl false d) rfl rfl (fun _ _ => rfl)
        fun q hq => hi.cache.change_spares hq hl hb false d
  | logWrite p i =>
      obtain ⟨hl, hstep⟩ := Option.ite_none_right_eq_some.1 hstep
      obtain rfl := Option.some.inj hstep
      obtain ⟨hdirty, hdisk, hhist, hcall⟩ := logWrite_data s p i
      have hspares : ∀ q, Spares disk s (s.logWrite p i) q := fun q =>
        Spares.of_eq hdirty hdisk (by rw [hhist])
      refine ⟨h.data.logWrite hi hidle hl, fun {q ph rest reg} hq => ?_⟩
      rw [(logWrite_task s p i).1] at hq
      have hlh : (s.logWrite p i).lh = s.lh := by
        -- an operation in progress is not a commit
        have hbusy := (hi.log.busy (hi.log.com hq).1).1
        simp only [State.logWrite]
        split
        · rfl
        split
        · rfl
        · rename_i hpos
          omega
      exact (h.com hq).spares (hi.log.com hq).2 (by rw [hcall]) hlh (hspares q)
  | bwrite p i =>
      obtain rfl := Option.some.inj hstep
      obtain ⟨-, hcall, -, hlh, -, htask, -⟩ := bwrite_log s p i
      exact h.client hi hcommits (h.data.bwrite hi.cache hidle i) htask hlh (fun q _ => by rw [hcall])
        fun q hq => hi.cache.bwrite_spares hq i
  | brelse p i =>
      obtain rfl := Option.some.inj hstep
      obtain ⟨hlh, -, htask, -⟩ := brelse_log s p i
      refine h.client hi hcommits (h.data.brelse hok) htask hlh (apart_brelse s p i).call fun q _ => ?_
      simp only [State.brelse]
      split <;> exact Spares.of_eq (fun _ hd => hd) rfl rfl
  | bpin p i =>
      obtain ⟨-, hstep⟩ := Option.ite_none_right_eq_some.1 hstep
      obtain rfl := Option.some.inj hstep
      exact h.client hi hcommits (h.data.recount rfl rfl rfl (fun _ hb => hb) rfl) rfl rfl (fun _ _ => rfl)
        fun q _ => Spares.of_eq (fun _ hd => hd) rfl rfl
  | bunpin p i =>
      obtain rfl := Option.some.inj hstep
      exact h.client hi hcommits (h.data.recount rfl rfl rfl (fun _ hb => hb) rfl) rfl rfl (fun _ _ => rfl)
        fun q _ => Spares.of_eq (fun _ hd => hd) rfl rfl
  | beginOp p =>
      simp only [State.client] at hstep
      split at hstep
      · unfold State.beginOp at hstep
        obtain ⟨hquiet, hstep⟩ := Option.ite_none_left_eq_some.1 hstep
        obtain ⟨-, hstep⟩ := Option.ite_none_left_eq_some.1 hstep
        obtain rfl := Option.some.inj hstep
        refine ⟨h.data.congr rfl rfl rfl rfl rfl, fun {q ph rest reg} hq => ?_⟩
        by_cases hqp : q = p
        · subst hqp
          exact absurd ((Function.update_self ..).symm.trans hq) (by simp)
        · have hq' : s.task q = .commit ph rest reg := (Function.update_of_ne hqp ..).symm.trans hq
          exact absurd (hi.log.com hq').1 hquiet
      · cases hstep
  | endOp p =>
      simp only [State.client] at hstep
      split at hstep
      · rename_i hp
        obtain rfl := Option.some.inj hstep
        have hquiet := hi.log.no_commit (hi.log.ops.pos hp)
        have hothers : ∀ {T : Task} {q : Pid} {ph rest reg}, Function.update s.task p T q = .commit ph rest reg →
            q = p ∧ T = .commit ph rest reg := by
          intro T q ph rest reg hq
          by_cases hqp : q = p
          · subst hqp
            exact ⟨rfl, (Function.update_self ..).symm.trans hq⟩
          · rw [Function.update_of_ne hqp] at hq
            have hno := hi.log.no_commits hquiet q
            rw [hq] at hno
            cases hno
        simp only [State.endOp, hquiet, Bool.false_eq_true, if_false]
        split
        · split
          · refine ⟨h.data.congr rfl rfl rfl rfl rfl, fun {q ph rest reg} hq => ?_⟩
            obtain ⟨rfl, hT⟩ := hothers hq
            obtain ⟨rfl, rfl, rfl⟩ := Task.commit.inj hT
            exact .fresh
          · refine ⟨h.data.congr rfl rfl rfl rfl rfl, fun {q ph rest reg} hq => ?_⟩
            obtain ⟨rfl, hT⟩ := hothers hq
            obtain ⟨rfl, rfl, rfl⟩ := Task.commit.inj hT
            exact ⟨fun r i hr => absurd hr.1 List.not_mem_nil, fun hunpin => absurd hunpin List.not_mem_nil⟩
        · refine ⟨h.data.congr rfl rfl rfl rfl rfl, fun {q ph rest reg} hq => ?_⟩
          obtain ⟨-, hT⟩ := hothers hq
          cases hT
      · cases hstep
  | cont p => cases hstep
  | commit p => cases hstep

/-! ## `commit` -/

theorem Coherent.commitBread (h : Coherent disk g s) (hi : Inv g s) {ph : Phase} {r : Reg} {rest : List Op}
    {reg : Reg → Option (Fin NBUF)} (hp : s.task p = .commit ph (.bread r :: rest) reg)
    (hidle : s.call p = .idle) : Coherent disk g (s.bread p (ph.block g.start s.lh r) fun i =>
      .commit ph rest (Function.update reg r (some i))) := by
  obtain ⟨-, hcom⟩ := hi.log.com hp
  have hdata := h.data.bread (p := p) hi.cache (ph.block g.start s.lh r) fun i =>
    .commit ph rest (Function.update reg r (some i))
  have hi' := hi.commitBread hp hidle
  have hcd := h.com hp
  unfold State.bread at hdata hi' ⊢
  split
  · exact ⟨h.data.congr rfl rfl rfl rfl rfl, fun {q ph' rest' reg'} hq =>
      (h.com hq).spares (hi.log.com hq).2 rfl rfl (Spares.of_eq (fun _ hd => hd) rfl rfl)⟩
  · rename_i c i hget
    rw [hget] at hdata hi'
    refine .mine hi' (Function.update_self ..) hdata ⟨fun r' j hr' hj hc hd => ?_, fun hunpin hwritten => ?_⟩
    · -- nothing is dirty before the copying
      have hne : r' ≠ r := by
        rintro rfl
        rw [Function.update_self] at hj
        obtain rfl : i = j := Option.some.inj hj
        exact hc _ (Function.update_self ..)
      have huse : InUse (.bread r :: rest) r' := hr'.cons fun heq => hne (Op.bread.inj heq).symm
      obtain ⟨hcopied, -⟩ := hcd.clean r' j huse ((Function.update_of_ne hne ..).symm.trans hj)
        (fun b hwait => by rw [hidle] at hwait; cases hwait) hd
      have hcopies := (Phase.readsAhead hcom.suffix).1
      rw [show rest.any Op.copies = false from hcopied] at hcopies
      cases hcopies
    · obtain ⟨hhead, -⟩ := Phase.syncs hcom.suffix hunpin hwritten
      exact absurd (hhead (by simp)) (by simp)

omit [DecidableEq Pid] in
/-- The data of a variable are replaced; it is written before it is released. -/
theorem ComData.copy {ph : Phase} {op : Op} {r : Reg} {rest : List Op} {reg : Reg → Option (Fin NBUF)}
    (h : ComData disk g s p ph (op :: rest) reg) (hcom : Com g s p ph (op :: rest) reg)
    (hidle : s.call p = .idle) (hop : ∀ r, op ≠ .bread r) (hcopies : op.copies = true)
    (hr : rest.any Op.copies = false ∧ .bwrite r ∈ rest ∧ InUse rest r) {i : Fin NBUF} (hi : reg r = some i)
    (hdirty : t.dirty = Function.update s.dirty i true) : ComData disk g t p ph rest reg := by
  obtain ⟨hcopied, hwrite, huse⟩ := hr
  refine ⟨fun r' j hr' hj _ hd => ⟨hcopied, ?_⟩, fun hunpin hwritten => ?_⟩
  · by_cases hrr : r' = r
    · rw [hrr]
      exact hwrite
    · -- the other variable has another buffer, which is clean
      have hji : j ≠ i := by
        rintro rfl
        exact hcom.ne hidle hrr (hr'.cons (hop r')) (huse.cons (hop r)) hj hi
      rw [hdirty, Function.update_of_ne hji] at hd
      obtain ⟨hno, -⟩ := h.clean r' j (hr'.cons (hop r')) hj
        (fun b hwait => by rw [hidle] at hwait; cases hwait) hd
      rw [List.any_cons, hcopies] at hno
      cases hno
  · obtain ⟨hhead, -⟩ := Phase.syncs hcom.suffix hunpin hwritten
    obtain rfl : op = .bwrite .home := Option.some.inj (hhead (by simp))
    cases hcopies

theorem Coherent.exec (h : Coherent disk g s) (hi : Inv g s) {ph : Phase} {op : Op} {rest : List Op}
    {reg : Reg → Option (Fin NBUF)} (hp : s.task p = .commit ph (op :: rest) reg)
    (hidle : s.call p = .idle) (hop : ∀ r, op ≠ .bread r)
    (hexec : (s.setTask p (.commit ph rest reg)).exec g p reg op = some t) : Coherent disk g t := by
  have hi' := hi.exec hp hidle hop hexec
  obtain ⟨-, hcom⟩ := hi.log.com hp
  have hcd := h.com hp
  have hself : (s.setTask p (.commit ph rest reg)).task p = .commit ph rest reg := Function.update_self ..
  have hcache : CacheInv (s.setTask p (.commit ph rest reg)) := hi.cache.congr rfl rfl rfl rfl
  have hdata : DataInv disk (s.setTask p (.commit ph rest reg)) := h.data.congr rfl rfl rfl rfl rfl
  have hback := Phase.writesBack hcom.suffix
  have hwait : ∀ i b, s.call p ≠ .locking i b := fun i b hc => by
    rw [hidle] at hc
    cases hc
  cases op with
  | bread r => exact absurd rfl (hop r)
  | memmove dst src =>
      simp only [State.exec] at hexec
      split at hexec
      · rename_i i j hdst _
        obtain rfl := Option.some.inj hexec
        obtain ⟨k, hk, hb, hl⟩ := hcom.held hidle (hback.2.2.cons (hop dst))
        obtain rfl : i = k := Option.some.inj (hdst.symm.trans hk)
        obtain ⟨b, hb', hv⟩ := hcache.held hidle hl
        exact .mine hi' hself (hdata.change hcache hb' hv hl true _)
          (hcd.copy hcom hidle hop rfl hback hdst rfl)
      · cases hexec
  | header =>
      obtain ⟨i, hlog, rfl⟩ := Option.map_eq_some_iff.1 hexec
      obtain ⟨k, hk, hb, hl⟩ := hcom.held hidle (hback.2.2.cons (hop .log))
      obtain rfl : i = k := Option.some.inj (hlog.symm.trans hk)
      obtain ⟨b, hb', hv⟩ := hcache.held hidle hl
      exact .mine hi' hself (hdata.change hcache hb' hv hl true _)
        (hcd.copy hcom hidle hop rfl hback hlog rfl)
  | bwrite r =>
      obtain ⟨i, hreg, rfl⟩ := Option.map_eq_some_iff.1 hexec
      obtain ⟨k, hk, hb, hl⟩ := hcom.held hidle (hback.cons (hop r))
      obtain rfl : i = k := Option.some.inj (hreg.symm.trans hk)
      obtain ⟨hc', hcall, -, hlh, -, htask, -⟩ := bwrite_log (s.setTask p (.commit ph rest reg)) p i
      have hwrite : (s.setTask p (.commit ph rest reg)).bwrite p i =
          { s.setTask p (.commit ph rest reg) with
            disk := Function.update s.disk ((s.cache.buf i).blockno.getD 0) (s.cache.buf i).data
            dirty := Function.update s.dirty i false } := if_pos hl
      refine .mine hi' (by rw [htask, hself]) (hdata.bwrite hcache hidle i)
        ⟨fun r' j hr' hj _ hd => ?_, fun hunpin hwritten => ?_⟩
      · rw [hwrite] at hd
        have hji : j ≠ i := by
          rintro rfl
          exact absurd ((Function.update_self ..).symm.trans hd) (by simp)
        obtain ⟨hcopied, hmem⟩ := hcd.clean r' j (hr'.cons (hop r')) hj (hwait j)
          ((Function.update_of_ne hji ..).symm.trans hd)
        refine ⟨hcopied, (List.mem_cons.1 hmem).resolve_left fun heq => hji ?_⟩
        obtain rfl := Op.bwrite.inj heq
        exact Option.some.inj (hj.symm.trans hreg)
      · obtain ⟨hhead, -⟩ := Phase.syncs hcom.suffix hunpin hwritten
        obtain rfl := Op.bwrite.inj (Option.some.inj (hhead (by simp)))
        obtain ⟨b, hb', hv⟩ := hcache.held hidle hl
        rw [hwrite]
        show Function.update s.disk ((s.cache.buf i).blockno.getD 0) _ (ph.block g.start s.lh .home) =
          latest disk s.hist (ph.block g.start s.lh .home)
        rw [hb, Option.getD_some, Function.update_self]
        exact h.data.current hb hv
  | bunpin =>
      obtain ⟨i, b, hreg, hb, -, -⟩ := hcom.unpins hidle
      obtain ⟨j, hj, rfl⟩ := Option.map_eq_some_iff.1 hexec
      obtain rfl : i = j := Option.some.inj (hreg.symm.trans hj)
      obtain ⟨hnot, huse⟩ := Phase.unpinsOnce hcom.suffix
      have hwritten : Op.bwrite .home ∉ Op.bunpin :: rest := Phase.unpinsWritten hcom.suffix
      have hblock : b = ph.block g.start s.lh .home := by
        obtain ⟨k, hk, hbk, -⟩ := hcom.held hidle (huse.cons (hop .home))
        obtain rfl : i = k := Option.some.inj (hreg.symm.trans hk)
        exact Option.some.inj (hb.symm.trans hbk)
      -- the home block has been installed before its buffer is unpinned
      have hsynced := hcd.synced (List.mem_cons_self ..) hwritten
      have hd : (s.cache.buf i).blockno.getD 0 = b := by rw [hb, Option.getD_some]
      refine .mine hi' hself (hdata.unpin hcache (hblock ▸ hsynced) rfl rfl rfl ?_ rfl)
        ⟨fun r' k hr' hk _ hd => ?_, fun hunpin => absurd hunpin hnot⟩
      · exact congrArg s.pinned.erase hd
      · obtain ⟨hcopied, hmem⟩ := hcd.clean r' k (hr'.cons (hop r')) hk (hwait k) hd
        exact ⟨hcopied, (List.mem_cons.1 hmem).resolve_left (by simp)⟩
  | brelse r =>
      obtain ⟨i, hreg, rfl⟩ := Option.map_eq_some_iff.1 hexec
      obtain ⟨hlh, -, htask, -⟩ := brelse_log (s.setTask p (.commit ph rest reg)) p i
      have huse : InUse (.brelse r :: rest) r :=
        ⟨List.mem_cons_self .., by simp [(Phase.releasesOnce hcom.suffix).2]⟩
      -- a buffer that is released has been written back
      have hclean : s.dirty i = false := by
        cases hd : s.dirty i with
        | false => rfl
        | true =>
            have hmem := (hcd.clean r i huse hreg (hwait i) hd).2
            exact absurd ((List.mem_cons.1 hmem).resolve_left (by simp)) hback
      have hsame : ((s.setTask p (.commit ph rest reg)).brelse p i).dirty = s.dirty := by
        simp only [State.brelse]
        split <;> rfl
      refine .mine hi' (by rw [htask, hself]) (hdata.brelse fun _ => hclean)
        ⟨fun r' k hr' hk _ hd => ?_, fun hunpin hwritten => ?_⟩
      · rw [hsame] at hd
        obtain ⟨hcopied, hmem⟩ := hcd.clean r' k (hr'.cons (hop r')) hk (hwait k) hd
        exact ⟨hcopied, (List.mem_cons.1 hmem).resolve_left (by simp)⟩
      · obtain ⟨hhead, -⟩ := Phase.syncs hcom.suffix hunpin hwritten
        exact absurd (hhead (by simp)) (by simp)

theorem Coherent.commitStep (h : Coherent disk g s) (hi : Inv g s) (hidle : s.call p = .idle)
    (hstep : s.commitStep g p (s.task p) = some t) : Coherent disk g t := by
  have hi' := hi.commitStep hidle hstep
  cases hp : s.task p with
  | user =>
      rw [hp] at hstep
      cases hstep
  | inOp =>
      rw [hp] at hstep
      cases hstep
  | commit ph rest reg =>
      rw [hp] at hstep
      cases rest with
      | nil =>
          obtain rfl := Option.some.inj hstep
          have hdata : DataInv disk (s.advance p ph) := by
            cases ph <;> exact h.data.congr rfl rfl rfl rfl rfl
          cases ph with
          | erase =>
              refine ⟨hdata, fun {q ph' rest' reg'} hq => ?_⟩
              have hno := hi'.log.no_commits rfl q
              rw [hq] at hno
              cases hno
          | _ => exact .mine hi' (Function.update_self ..) hdata .fresh
      | cons op rest =>
          cases op with
          | bread r =>
              obtain rfl := Option.some.inj hstep
              exact h.commitBread hi hp hidle
          | _ => exact h.exec hi hp hidle (by simp) hstep

omit [DecidableEq Pid] in
theorem Disciplined.balanced {l : Label Pid α} (h : Disciplined s l) : Balanced s l := by
  cases l with
  | bunpin p i => exact h
  | _ => trivial

theorem Coherent.step {l : Label Pid α} (h : Coherent disk g s) (hi : Inv g s) (hok : Disciplined s l)
    (hstep : Bio.step g s l = some t) : Coherent disk g t := by
  obtain ⟨p, rfl, hcont⟩ | ⟨p, rfl, hidle, hcommit⟩ | ⟨hfree, hclient⟩ := step_cases hstep
  · exact h.cont hi hcont
  · exact h.commitStep hi hidle hcommit
  · exact h.clientStep hi hok hfree hclient

omit [DecidableEq Pid] in
theorem coherent_boot (disk : Uint → α) : Coherent disk g (boot Pid disk) := by
  refine ⟨⟨?_, fun b => Or.inl rfl, ?_, Reads.nil⟩, ?_⟩
  · intro i b hb
    cases hb
  · intro i hi
    cases hi
  · intro p ph rest reg hp
    cases hp

/-! ## The blocks of the header -/

/-- `install_trans` has written the block home. -/
def WrittenHome (s : State Pid α) (b : Uint) : Prop :=
  ∃ p tail rest reg, s.task p = .commit (.install tail) rest reg ∧
    (b ∈ s.lh.take tail ∨ (s.lh[tail]? = some b ∧ .bwrite .home ∉ rest))

theorem Phase.unpinned {ph : Phase} {rest : List Op} (h : rest <:+ ph.body) (hnot : .bunpin ∉ rest) :
    .bwrite .home ∉ rest :=
  forall_suffix (P := fun l => .bunpin ∉ l → .bwrite .home ∉ l) (by decide) h hnot

omit [DecidableEq Pid] in
/-- A logged block stays pinned until it is home. -/
theorem Inv.kept (h : Inv g s) {b : Uint} (hb : b ∈ s.lh) : WrittenHome s b ∨
    ∃ i, (s.cache.buf i).blockno = some b ∧ (s.cache.buf i).valid = true ∧ 1 ≤ (s.cache.buf i).refcnt := by
  have hpinned : b ∈ s.pinned → ∃ i, (s.cache.buf i).blockno = some b ∧ (s.cache.buf i).valid = true ∧
      1 ≤ (s.cache.buf i).refcnt := fun hmem => by
    obtain ⟨i, hi, hv⟩ := h.cache.pinned hmem
    exact ⟨i, hi, hv, Nat.one_le_iff_ne_zero.2 (h.cache.refcnt_pos (r := .log) ⟨b, hmem, hi⟩)⟩
  cases hc : s.committing with
  | false =>
      rw [← h.log.quiet hc] at hb
      exact Or.inr (hpinned hb)
  | true =>
      obtain ⟨-, p, ph, rest, reg, hp⟩ := h.log.busy hc
      obtain ⟨-, hcom⟩ := h.log.com hp
      cases ph with
      | writeLog tail => exact Or.inr (hpinned (by rw [hcom.pinned]; exact hb))
      | writeHead => exact Or.inr (hpinned (by rw [hcom.pinned]; exact hb))
      | erase =>
          rw [show s.lh = [] from hcom.bound] at hb
          cases hb
      | install tail =>
          have hlt : tail < s.lh.length := hcom.bound
          have hpend := hcom.pinned
          rw [← List.take_append_drop tail s.lh, List.mem_append] at hb
          rcases hb with htake | hdrop
          · exact Or.inl ⟨p, tail, rest, reg, hp, Or.inl htake⟩
          · by_cases hunpin : Op.bunpin ∈ rest
            · rw [Phase.pending, if_pos hunpin] at hpend
              exact Or.inr (hpinned (hpend ▸ hdrop))
            · rw [Phase.pending, if_neg hunpin] at hpend
              rw [List.drop_eq_getElem_cons hlt, List.mem_cons] at hdrop
              rcases hdrop with rfl | hlater
              · refine Or.inl ⟨p, tail, rest, reg, hp, Or.inr ⟨List.getElem?_eq_getElem hlt, ?_⟩⟩
                exact Phase.unpinned hcom.suffix hunpin
              · exact Or.inr (hpinned (hpend ▸ hlater))

end Xv6.Bio
