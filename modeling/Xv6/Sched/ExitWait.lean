import Xv6.Sched.Family
import Xv6.Sched.Zombies

set_option autoImplicit false

/-! # Exit and wait

The table is a family: every slot that is not free is a member of it, with its parent and with the
status of its `exit`, and every step that changes the family is one of `Family.Step`. -/

namespace Xv6.Sched

open Xv6.Lib
open Xv6.ProcTable (ProcState Chan Proc Table initproc freeproc)
open Effect

variable {C L : Type} {s t : State C L} {c : C} {e : Effect L} {l : Label C L} {p q : Slot}
  {f g : Frame L} {fam : Family}

/-- The slots of the table are the members of the family. -/
structure Kin (s : State C L) (fam : Family) : Prop where
  occupied : ∀ q, fam q = none ↔ (s.proc q).state = .UNUSED
  pid : ∀ q m, fam q = some m → m.pid = (s.proc q).pid
  /-- A child that is not ready yet may have no parent in the table. -/
  parent : ∀ q m, fam q = some m → (s.proc q).state ≠ .USED → m.parent = (s.proc q).parent
  forker : ∀ p pc np pid, (s.thread p).base = .kfork pc np pid → ∃ m, fam np = some m ∧ m.parent = some p
  exit : ∀ q m, fam q = some m → m.exit = (s.thread q).base.exit

theorem Kin.member (hkin : Kin s fam) (hq : (s.proc q).state ≠ .UNUSED) : ∃ m, fam q = some m := by
  cases hm : fam q with
  | none => exact absurd ((hkin.occupied q).1 hm) hq
  | some m => exact ⟨m, rfl⟩

/-- One slot changes, and the member of the family in it. -/
theorem Kin.update (hkin : Kin s fam) {v : Proc} {o : Option Member}
    (hproc : t.proc = Function.update s.proc q v) (hoccupied : o = none ↔ v.state = .UNUSED)
    (hmember : ∀ m, o = some m → m.pid = v.pid ∧ (v.state ≠ .USED → m.parent = v.parent) ∧
      m.exit = (t.thread q).base.exit)
    (hforker : ∀ p pc np pid, (t.thread p).base = .kfork pc np pid →
      (np ≠ q ∧ ∃ pc', (s.thread p).base = .kfork pc' np pid) ∨ np = q ∧ ∃ m, o = some m ∧ m.parent = some p)
    (hexit : ∀ q', q' ≠ q → (s.proc q').state ≠ .UNUSED →
      (t.thread q').base.exit = (s.thread q').base.exit) :
    Kin t (Function.update fam q o) := by
  constructor
  case occupied =>
    intro q'
    rw [hproc]
    by_cases hq : q' = q
    · subst hq
      rw [Function.update_self, Function.update_self]
      exact hoccupied
    · rw [Function.update_of_ne hq, Function.update_of_ne hq]
      exact hkin.occupied q'
  case pid =>
    intro q' m hm
    rw [hproc]
    by_cases hq : q' = q
    · subst hq
      rw [Function.update_self] at hm ⊢
      exact (hmember m hm).1
    · rw [Function.update_of_ne hq] at hm ⊢
      exact hkin.pid q' m hm
  case parent =>
    intro q' m hm hused
    rw [hproc] at hused ⊢
    by_cases hq : q' = q
    · subst hq
      rw [Function.update_self] at hm hused ⊢
      exact (hmember m hm).2.1 hused
    · rw [Function.update_of_ne hq] at hm hused ⊢
      exact hkin.parent q' m hm hused
  case forker =>
    intro p pc np pid hb
    rcases hforker p pc np pid hb with ⟨hne, pc', hold⟩ | ⟨rfl, hnew⟩
    · rw [Function.update_of_ne hne]
      exact hkin.forker p pc' np pid hold
    · rw [Function.update_self]
      exact hnew
  case exit =>
    intro q' m hm
    by_cases hq : q' = q
    · subst hq
      rw [Function.update_self] at hm
      exact (hmember m hm).2.2
    · rw [Function.update_of_ne hq] at hm
      rw [hexit q' hq fun hunused => ?_]
      · exact hkin.exit q' m hm
      · rw [(hkin.occupied q').2 hunused] at hm
        cases hm

/-- Who is lifeless has no children in the family either. -/
theorem Kin.childless (hkin : Kin s fam) (hk : Kids s) (hp : Lifeless (s.proc p)) :
    fam.Childless p := by
  intro q m hm hparent
  by_cases hused : (s.proc q).state = .USED
  · obtain ⟨-, p', pc, pid, hfork⟩ := hk.used q hused
    obtain ⟨m', hm', hparent'⟩ := hkin.forker p' pc q pid hfork
    rw [hm] at hm'
    cases hm'
    rw [hparent] at hparent'
    cases hparent'
    exact hk.forker p pc q pid hfork hp
  · rw [hkin.parent q m hm hused] at hparent
    cases hk.childless p hp q hparent

section Step

variable [DecidableEq C] [DecidableEq L]

/-- A process leaves other code for `exit` by the system call, and stays there. -/
theorem exit_step (h : Inv s) (he : effect s l = some e) (hex : Executed s l.cpu e t) (q : Slot) :
    (t.thread q).base.exit = (s.thread q).base.exit ∨ e.fresh = some q ∨ ∃ status,
      s.on l.cpu = some q ∧ e.event = some (.exiting q status) := by
  rcases hex.base_cases q with hsame | ⟨g, hon, hn, hthread, hg⟩ | ⟨hfresh, -⟩
  · exact Or.inl (by rw [hsame])
  · rw [hg, hthread]
    rcases effect_cases he with ⟨ok, hr⟩ | ⟨locks, htop, hr⟩ | hr
    · exact Or.inl (row_exit hr hn)
    · rcases codeRow_deed h htop hr with ⟨-, hnone⟩ | ⟨p, hon', hlocks, -, hd⟩
      · refine Or.inl ((hnone g hn).trans ?_)
        rw [htop]
        rfl
      · subst hlocks
        rw [hon] at hon'
        obtain rfl := Option.some.inj hon'
        cases hd
        exact Or.inr (Or.inr ⟨_, hon, rfl⟩)
    · exact absurd hn (intrRow_not_top hr _)
  · exact Or.inr (Or.inl hfresh)

theorem forker_step (h : Inv s) (hcalls : Calls s) (he : effect s l = some e) (hex : Executed s l.cpu e t)
    {pc : ForkPc} {np : Slot} {pid : BitVec 32} (hb : (t.thread p).base = .kfork pc np pid) :
    (∃ pc', (s.thread p).base = .kfork pc' np pid) ∨ s.on l.cpu = some p ∧
      (s.proc np).state = .UNUSED ∧
      e.upd = some (np, { s.proc np with pid := s.nextpid, state := .USED }) := by
  rw [hex.thread] at hb
  rcases hcalls.commit_kfork h he hb with ⟨hon, -, -, hunused, hu⟩ | ⟨pc', -, hold, -⟩ | ⟨hold, -⟩
  · exact Or.inr ⟨hon, hunused, hu⟩
  · exact Or.inl ⟨pc', hold⟩
  · exact Or.inl ⟨pc, hold⟩

theorem Kin.quiet (hkin : Kin s fam) (h : Inv s) (hcalls : Calls s) (he : effect s l = some e)
    (hex : Executed s l.cpu e t) (hq : Quiet s e) : Kin t fam := by
  have hmild : ∀ q, Mild (s.proc q) (t.proc q) := fun q => by
    rw [hex.proc]
    exact hq.table q
  constructor
  case occupied =>
    exact fun q => (hkin.occupied q).trans (hmild q).unused.symm
  case pid =>
    exact fun q m hm => (hkin.pid q m hm).trans (hmild q).pid.symm
  case parent =>
    intro q m hm hused
    exact (hkin.parent q m hm fun hold => hused ((hmild q).used.2 hold)).trans (hmild q).parent.symm
  case forker =>
    intro p pc np pid hb
    rcases forker_step h hcalls he hex hb with ⟨pc', hold⟩ | ⟨-, hunused, hu⟩
    · exact hkin.forker p pc' np pid hold
    · have hused := (hq.upd _ _ hu).unused.2 hunused
      cases hused
  case exit =>
    intro q m hm
    rw [hkin.exit q m hm]
    rcases exit_step h he hex q with hsame | hfresh | ⟨status, -, hev⟩
    · exact hsame.symm
    · rw [hq.fresh] at hfresh
      cases hfresh
    · rw [hq.event] at hev
      cases hev

omit [DecidableEq L] in
theorem table_update {v : Proc} (hex : Executed s c e t) (hu : e.upd = some (q, v)) :
    t.proc = Function.update s.proc q v := by
  rw [hex.proc, Effect.table, hu]

/-- A slot that is taken changes, in a step that begins no `exit`. -/
theorem Kin.change (hkin : Kin s fam) (h : Inv s) (hcalls : Calls s) (he : effect s l = some e)
    (hex : Executed s l.cpu e t) {v : Proc} {o : Option Member} (hu : e.upd = some (q, v))
    (htaken : (s.proc q).state ≠ .UNUSED) (hfresh : e.fresh = none)
    (hev : ∀ p status, e.event ≠ some (.exiting p status)) (hoccupied : o = none ↔ v.state = .UNUSED)
    (hmember : ∀ m, o = some m → m.pid = v.pid ∧ (v.state ≠ .USED → m.parent = v.parent) ∧
      m.exit = (s.thread q).base.exit)
    (hforker : ∀ p pc pc' pid, (s.thread p).base = .kfork pc q pid → (t.thread p).base = .kfork pc' q pid →
      ∃ m, o = some m ∧ m.parent = some p) :
    Kin t (Function.update fam q o) := by
  have hexits : ∀ q', (t.thread q').base.exit = (s.thread q').base.exit := by
    intro q'
    rcases exit_step h he hex q' with hsame | hnew | ⟨status, -, hexiting⟩
    · exact hsame
    · rw [hfresh] at hnew
      cases hnew
    · exact absurd hexiting (hev _ _)
  refine hkin.update (table_update hex hu) hoccupied (fun m hm => ?_) (fun p pc np pid hb => ?_) fun q' _ _ => hexits q'
  · rw [hexits q]
    exact hmember m hm
  · rcases forker_step h hcalls he hex hb with ⟨pc', hold⟩ | ⟨-, hunused, hu'⟩
    · by_cases hnp : np = q
      · subst hnp
        exact Or.inr ⟨rfl, hforker p pc' pc pid hold hb⟩
      · exact Or.inl ⟨hnp, pc', hold⟩
    · rw [hu] at hu'
      cases hu'
      exact absurd hunused htaken

/-- The member in the slot stays the same. -/
theorem Kin.keep (hkin : Kin s fam) (h : Inv s) (hcalls : Calls s) (he : effect s l = some e)
    (hex : Executed s l.cpu e t) {v : Proc} {m : Member} (hu : e.upd = some (q, v)) (hm : fam q = some m)
    (hv : v.state ≠ .UNUSED) (hpid : v.pid = (s.proc q).pid) (hparent : v.state ≠ .USED → m.parent = v.parent)
    (hfresh : e.fresh = none) (hev : ∀ p status, e.event ≠ some (.exiting p status)) : Kin t fam := by
  have htaken : (s.proc q).state ≠ .UNUSED := by
    intro hunused
    rw [(hkin.occupied q).2 hunused] at hm
    cases hm
  have hkin' : Kin t (Function.update fam q (some m)) := by
    refine hkin.change h hcalls he hex hu htaken hfresh hev (iff_of_false (by simp) hv) ?_ ?_
    · rintro m' ⟨⟩
      exact ⟨(hkin.pid q m hm).trans hpid.symm, hparent, hkin.exit q m hm⟩
    · intro p pc _ pid hold _
      rw [← hm]
      exact hkin.forker p pc q pid hold
  rwa [← hm, Function.update_eq_self] at hkin'

/-- `allocproc` takes a slot for the child. -/
theorem Kin.forked (hkin : Kin s fam) (h : Inv s) (hcalls : Calls s) (he : effect s l = some e)
    (hex : Executed s l.cpu e t) (hon : s.on l.cpu = some p) (halive : (s.proc p).state ≠ .UNUSED)
    (hfresh : e.fresh = some q) (hev : ∀ p status, e.event ≠ some (.exiting p status)) :
    Kin t (Function.update fam q (some ⟨s.nextpid, some p, none⟩)) := by
  obtain ⟨-, -, hunused, hu⟩ := effect_fresh he hfresh
  have hqp : s.on l.cpu ≠ some q := by
    rw [hon]
    rintro ⟨⟩
    exact halive hunused
  have hthread : t.thread q = ⟨.forkret, none⟩ := by
    rw [hex.thread, commit_thread, if_neg hqp, if_pos hfresh]
  refine hkin.update (table_update hex hu) (iff_of_false (by simp) (by simp)) ?_ ?_ ?_
  · rintro m ⟨⟩
    refine ⟨rfl, fun hused => absurd rfl hused, ?_⟩
    rw [hthread]
    rfl
  · intro p' pc np pid hb
    rcases forker_step h hcalls he hex hb with ⟨pc', hold⟩ | ⟨hon', -, hu'⟩
    · refine Or.inl ⟨?_, pc', hold⟩
      rintro rfl
      rw [(hcalls.child p' pc' _ pid hold).1] at hunused
      cases hunused
    · rw [hu] at hu'
      cases hu'
      rw [hon] at hon'
      exact Or.inr ⟨rfl, _, rfl, hon'⟩
  · intro q' hne _
    rcases exit_step h he hex q' with hsame | hnew | ⟨status, -, hexiting⟩
    · exact hsame
    · rw [hfresh] at hnew
      exact absurd (Option.some.inj hnew).symm hne
    · exact absurd hexiting (hev _ _)

/-- A process begins its `exit`. -/
theorem Kin.exiting (hkin : Kin s fam) (h : Inv s) (hcalls : Calls s) (he : effect s l = some e)
    (hex : Executed s l.cpu e t) (hon : s.on l.cpu = some p) {m : Member} (hm : fam p = some m)
    {status : BitVec 32} (hu : e.upd = none) (hfresh : e.fresh = none)
    (hbase : (t.thread p).base = .kexit .waitLock status) :
    Kin t (Function.update fam p (some { m with exit := some status })) := by
  have hstate := h.state l.cpu p hon
  have hsame : t.proc = Function.update s.proc p (s.proc p) := by
    rw [Function.update_eq_self]
    exact proc_of_none hex hu
  refine hkin.update hsame (iff_of_false (by simp) ?_) ?_ ?_ ?_
  · rw [hstate]
    exact (Frame.state_alive _).1
  · rintro m' ⟨⟩
    refine ⟨hkin.pid p m hm, hkin.parent p m hm, ?_⟩
    rw [hbase]
    rfl
  · intro p' pc np pid hb
    rcases forker_step h hcalls he hex hb with ⟨pc', hold⟩ | ⟨-, -, hu'⟩
    · refine Or.inl ⟨?_, pc', hold⟩
      rintro rfl
      -- the process runs, and the slot of a child does not
      have hused := (hcalls.child p' pc' _ pid hold).1
      rw [hstate] at hused
      exact (Frame.state_alive _).2 hused
    · rw [hu] at hu'
      cases hu'
  · intro q' hne _
    rcases exit_step h he hex q' with hold | hnew | ⟨status', hon', -⟩
    · exact hold
    · rw [hfresh] at hnew
      cases hnew
    · rw [hon] at hon'
      exact absurd (Option.some.inj hon').symm hne

omit [DecidableEq C] [DecidableEq L] in
/-- The child of a `fork` is not given away: its parent is not in `exit`. -/
theorem child_not_used (hcalls : Calls s) (hk : Kids s) (hparent : (s.proc q).parent = some p)
    (hbase : ∀ pc np pid, (s.thread p).base ≠ .kfork pc np pid) : (s.proc q).state ≠ .USED := by
  intro hused
  obtain ⟨-, p', pc, pid, hfork⟩ := hk.used q hused
  have hpar := (hcalls.child p' pc q pid hfork).2.2
  rw [hparent] at hpar
  have hpp : p' = p := by
    cases pc <;> simp_all [ForkPc.childParent]
  exact hbase pc q pid (hpp ▸ hfork)

theorem Kin.step (hkin : Kin s fam) (h : Inv s) (hcalls : Calls s) (hk : Kids s)
    (he : effect s l = some e) (hex : Executed s l.cpu e t) : ∃ fam', Kin t fam' ∧
      (e.event = none ∧ fam' = fam ∨ ∃ ev, e.event = some ev ∧ Family.Step fam ev fam') := by
  rcases effect_deed h hcalls he with hq | ⟨p, f, hon, htop, hthread, hd⟩
  · exact ⟨fam, hkin.quiet h hcalls he hex hq, Or.inl ⟨hq.event, rfl⟩⟩
  have hbase : (s.thread p).base = f := congrArg Thread.base hthread
  -- the process itself
  have hlive : (s.proc p).state ≠ .UNUSED ∧ (s.proc p).state ≠ .USED := by
    rw [h.state l.cpu p hon]
    exact Frame.state_alive _
  obtain ⟨mp, hmp⟩ := hkin.member hlive.1
  have hmexit : mp.exit = f.exit := by
    rw [hkin.exit p mp hmp, hbase]
  cases hd with
  | @fork q rest hunused =>
      rw [allocprocAt, if_pos hunused] at hex he ⊢
      exact ⟨_, hkin.forked h hcalls he hex hon hlive.1 rfl (fun _ _ hev => by cases hev),
        Or.inr ⟨_, rfl, .forked hmp hmexit ((hkin.occupied q).2 hunused)⟩⟩
  | @noMem np pid =>
      have hused := (hcalls.child p .fill np pid hbase).1
      obtain ⟨m, hm, -⟩ := hkin.forker p .fill np pid hbase
      have hmx : m.exit = none := by
        rw [hkin.exit np m hm, (hk.used np hused).1]
        rfl
      refine ⟨_, hkin.change (o := none) h hcalls he hex rfl (by rw [hused]; simp) rfl (fun _ _ hev => by cases hev)
        (iff_of_true rfl rfl) (fun m hm => by cases hm) ?_, Or.inr ⟨_, rfl,
        .freed hm hmx (hkin.childless hk (Or.inr (Or.inl hused)))⟩⟩
      intro p' pc pc' pid' hold hb
      -- the call is over
      have hpp := hcalls.unique p p' _ _ _ _ _ hbase hold
      subst hpp
      rw [hex.thread_self hon, hthread] at hb
      cases hb
  | @parent np pid ok =>
      have hused := (hcalls.child p .parent np pid hbase).1
      obtain ⟨m, hm, -⟩ := hkin.forker p .parent np pid hbase
      exact ⟨fam, hkin.keep h hcalls he hex rfl hm (by simp [hused]) rfl (fun hne => absurd hused hne) rfl
        (fun _ _ hev => by cases hev), Or.inl ⟨rfl, rfl⟩⟩
  | @run np pid ok =>
      have hparent := (hcalls.child p .run np pid hbase).2.2
      obtain ⟨m, hm, hpar⟩ := hkin.forker p .run np pid hbase
      exact ⟨fam, hkin.keep h hcalls he hex rfl hm (by simp) rfl (fun _ => hpar.trans hparent.symm) rfl
        (fun _ _ hev => by cases hev), Or.inl ⟨rfl, rfl⟩⟩
  | @reparent pp status rest hpp =>
      rw [Sched.reparent, if_pos hpp] at hex he ⊢
      have htaken : (s.proc pp).state ≠ .UNUSED := by
        intro hunused
        rw [hcalls.unused pp hunused] at hpp
        cases hpp
      obtain ⟨m, hm⟩ := hkin.member htaken
      have hready := child_not_used hcalls hk hpp fun pc np pid hfork => by rw [hbase] at hfork; cases hfork
      have hmpar : m.parent = some p := (hkin.parent pp m hm hready).trans hpp
      refine ⟨_, hkin.change h hcalls he hex rfl htaken rfl (fun _ _ hev => by cases hev)
        (iff_of_false (by simp) htaken) ?_ ?_,
        Or.inr ⟨_, rfl, .reparented hm hmpar ⟨mp, hmp, by rw [hmexit]; rfl⟩⟩⟩
      · rintro m' ⟨⟩
        exact ⟨hkin.pid pp m hm, fun _ => rfl, hkin.exit pp m hm⟩
      · exact fun p' pc _ pid hold _ => absurd (hcalls.child p' pc _ pid hold).1 hready
  | @zombie status =>
      exact ⟨fam, hkin.keep h hcalls he hex rfl hmp (by simp) rfl (fun _ => hkin.parent p mp hmp hlive.2) rfl
        (fun _ _ hev => by cases hev), Or.inl ⟨rfl, rfl⟩⟩
  | @reap addr q rest ok hz hok =>
      have hknows := hk.knows l.cpu p hon
      rw [htop] at hknows
      have hcopy : ¬ (addr ≠ 0 ∧ ok = false) := by
        rintro ⟨haddr, hfalse⟩
        rw [hok haddr] at hfalse
        cases hfalse
      rw [waitChild, if_pos hz, if_neg hcopy] at hex he ⊢
      obtain ⟨m, hm⟩ := hkin.member (q := q) (by rw [hz]; simp)
      have hmpar : m.parent = some p := (hkin.parent q m hm (by rw [hz]; simp)).trans hknows.1
      have hmx : m.exit = some (s.proc q).xstate := (hkin.exit q m hm).trans (hk.zombie q hz)
      refine ⟨_, hkin.change (o := none) h hcalls he hex rfl (by rw [hz]; simp) rfl (fun _ _ hev => by cases hev)
        (iff_of_true rfl rfl) (fun m hm => by cases hm) ?_, Or.inr ⟨_, rfl, ?_⟩⟩
      · intro p' pc _ pid hold _
        rw [(hcalls.child p' pc _ pid hold).1] at hz
        cases hz
      · rw [← hkin.pid q m hm]
        refine .reaped hm hmpar hmx ?_ (hkin.childless hk (Or.inr (Or.inr hz)))
        by_cases haddr : addr = 0
        · exact Or.inl (if_pos haddr)
        · exact Or.inr (if_neg haddr)
  | @exiting status hp =>
      have hbase' : (t.thread p).base = .kexit .waitLock status := by
        rw [hex.thread_self hon, hthread]
        rfl
      exact ⟨_, hkin.exiting h hcalls he hex hon hmp rfl rfl hbase', Or.inr ⟨_, rfl, .exiting hmp hmexit⟩⟩

end Step

section Runs

variable [DecidableEq C] [DecidableEq L]

omit [DecidableEq C] [DecidableEq L] in
theorem Kin.boot : Kin (boot C L) (Function.update (fun _ => none) initproc (some ⟨1, none, none⟩)) := by
  have hproc := boot_proc (C := C) (L := L)
  constructor
  case occupied =>
    intro q
    rw [hproc, Function.update_apply]
    by_cases hq : q = initproc
    · rw [if_pos hq, if_pos hq]
      exact iff_of_false (by simp) (by simp)
    · rw [if_neg hq, if_neg hq]
      exact iff_of_true rfl rfl
  case pid =>
    intro q m hm
    rw [hproc]
    rw [Function.update_apply] at hm
    by_cases hq : q = initproc
    · rw [if_pos hq] at hm ⊢
      cases hm
      rfl
    · rw [if_neg hq] at hm
      cases hm
  case parent =>
    intro q m hm _
    rw [hproc]
    rw [Function.update_apply] at hm
    by_cases hq : q = initproc
    · rw [if_pos hq] at hm ⊢
      cases hm
      rfl
    · rw [if_neg hq] at hm
      cases hm
  case forker =>
    exact fun p pc np pid hb => by cases hb
  case exit =>
    intro q m hm
    rw [Function.update_apply] at hm
    by_cases hq : q = initproc
    · rw [if_pos hq] at hm
      cases hm
      rfl
    · rw [if_neg hq] at hm
      cases hm

/-- The history of a run is that of a family, and the table is this family. -/
theorem reachable_kin (h : Reachable Sched.step (· = Sched.boot C L) s) :
    (Inv s ∧ Calls s ∧ Sleepers s ∧ Kids s) ∧ ∃ fam, Family.After s.log fam ∧ Kin s fam := by
  refine h.invariant (I := fun s => (Inv s ∧ Calls s ∧ Sleepers s ∧ Kids s) ∧
    ∃ fam, Family.After s.log fam ∧ Kin s fam) ?_ ?_
  · rintro s rfl
    exact ⟨⟨Inv.boot, Calls.boot, Sleepers.boot, Kids.boot⟩, _, .boot, Kin.boot⟩
  · rintro s l t ⟨⟨hi, hc, hs, hk⟩, fam, hafter, hkin⟩ hstep
    refine ⟨⟨hi.step hc hstep, hc.step hi hstep, hs.step hi hc hstep, hk.step hi hc hs hstep⟩, ?_⟩
    rcases step_executed hstep with rfl | ⟨e, he, hex⟩
    · exact ⟨fam, hafter, hkin.occupied, hkin.pid, hkin.parent, hkin.forker, hkin.exit⟩
    · obtain ⟨fam', hkin', hev⟩ := hkin.step hi hc hk he hex
      refine ⟨fam', ?_, hkin'⟩
      rw [hex.log]
      rcases hev with ⟨hnone, rfl⟩ | ⟨ev, hsome, hfam⟩
      · rw [hnone]
        exact (List.append_nil _).symm ▸ hafter
      · rw [hsome]
        exact hafter.step hfam

/-! ## The steps of `wait` -/

/-- A CPU that releases a lock that it has does not panic. -/
theorem Inv.release_executed {lk : Lock L} (h : Inv s) (hpanic : s.panicked c = false)
    (hop : e.op = .release lk) (hlk : lk ∈ s.held c) (hx : s.exec c e = some t) : Executed s c e t := by
  rcases exec_cases hx with rfl | hex
  · exfalso
    unfold State.exec at hx
    rw [hop] at hx
    simp only [if_pos ((h.locks.mem c lk).2 hlk), Option.some.injEq] at hx
    have hsame : s.panicked c = (s.panic c).panicked c := congrArg (fun s => s.panicked c) hx
    rw [hpanic, State.panic] at hsame
    simp at hsame
  · exact hex

/-- Who reaps a child is its parent, and returns the pid and the status of the child. -/
theorem reaped_step (h : Inv s) (hcalls : Calls s) (hk : Kids s) (hstep : Sched.step s l = some t)
    {pid : BitVec 32} {st : Option (BitVec 32)} (hlog : t.log = s.log ++ [.reaped p q pid st]) :
    ∃ addr rest, s.on l.cpu = some p ∧ s.top l.cpu = .waitChild addr q rest ∧
      (s.proc q).parent = some p ∧ pid = (s.proc q).pid ∧ (addr ≠ 0 → st = some (s.proc q).xstate) ∧
      t.on l.cpu = some p ∧ t.top l.cpu = .waitDone pid := by
  rcases step_executed hstep with rfl | ⟨e, he, hex⟩
  · have hlen := congrArg List.length hlog
    simp [State.panic] at hlen
  · have hev : e.event = some (.reaped p q pid st) := by
      rw [hex.log] at hlog
      have hlist := List.append_cancel_left hlog
      cases hopt : e.event with
      | none =>
          rw [hopt] at hlist
          cases hlist
      | some ev =>
          rw [hopt] at hlist
          cases hlist
          rfl
    rcases effect_deed h hcalls he with hq | ⟨p', f, hon, htop, -, hd⟩
    · rw [hq.event] at hev
      cases hev
    · cases hd with
      | @reap addr q' rest ok hz hok =>
          have hcopy : ¬ (addr ≠ 0 ∧ ok = false) := by
            rintro ⟨haddr, hfalse⟩
            rw [hok haddr] at hfalse
            cases hfalse
          rw [waitChild, if_pos hz, if_neg hcopy] at hev hex
          have hknows := hk.knows l.cpu p' hon
          rw [htop] at hknows
          obtain ⟨hon', htop'⟩ := hex.top_next rfl rfl (by simp [release, of, Effect.set, note])
          cases hev
          exact ⟨addr, rest, hon, htop, hknows.1, rfl, fun haddr => if_neg haddr, hon'.trans hon, htop'⟩
      | @fork q' rest hq =>
          rw [allocprocAt, if_pos hq] at hev
          cases hev
      | reparent hpp =>
          rw [Sched.reparent, if_pos hpp] at hev
          cases hev
      | _ => cases hev

theorem waitDone_step (h : Inv s) (hstep : Sched.step s l = some t) {v : BitVec 32}
    (hon : s.on l.cpu = some p) (htop : s.top l.cpu = .waitDone v) :
    t.ret p = v ∧ t.top l.cpu = .code [] := by
  obtain ⟨hpanic, e, he, hx⟩ := step_cases hstep
  obtain ⟨ok, hr⟩ := h.row_of_held he htop (by simp [Frame.fn]) (by simp [Frame.holds])
  obtain ⟨p', hp', rfl⟩ := Option.map_eq_some_iff.1 hr
  rw [h.cpu_of_on hon] at hp'
  obtain rfl := Option.some.inj hp'
  have hex := h.release_executed hpanic rfl (by rw [State.held, htop]; exact List.mem_singleton_self _) hx
  refine ⟨?_, (hex.top_next rfl rfl (by simp [waitDone, release, of, returns])).2⟩
  rw [hex.ret]
  exact Function.update_self ..

/-- A `copyout` that fails changes nothing. -/
theorem copyout_step (h : Inv s) (hstep : Sched.step s l = some t) {addr : Uint64} {rest : List Slot}
    (htop : s.top l.cpu = .waitChild addr q rest) (hz : (s.proc q).state = .ZOMBIE) (haddr : addr ≠ 0)
    (hact : l.act = .run false) : t.proc = s.proc ∧ t.log = s.log ∧ t.top l.cpu = .waitDone (-1) := by
  obtain ⟨hpanic, e, he, hx⟩ := step_cases hstep
  have hr : row s l.cpu false (.waitChild addr q rest) = some e := by
    rw [effect, hact, htop] at he
    exact he
  obtain ⟨p', hp', rfl⟩ := Option.map_eq_some_iff.1 hr
  rw [waitChild, if_pos hz, if_pos ⟨haddr, rfl⟩] at hx
  have hex := h.release_executed hpanic rfl (by rw [State.held, htop]; exact List.mem_cons_self ..) hx
  refine ⟨proc_of_none hex rfl, ?_, (hex.top_next rfl rfl (by simp [release, of])).2⟩
  rw [hex.log]
  exact List.append_nil _

/-- Each process that is reaped has been made by one `fork` and has gone into `exit` once since then, with
    the status that `wait` may deliver; it is reaped once, by its creator, or by `initproc` after its
    creator gave it away. A `wait` returns what it has found; it leaves a child whose status it cannot
    deliver as it is; and while `wait_lock` is free, nobody sleeps in `wait` who has a zombie child. -/
theorem exit_wait (hs : Reachable Sched.step (· = Sched.boot C L) s) :
    (∀ log₁ log₂ p q pid st, s.log = log₁ ++ .reaped p q pid st :: log₂ →
      ∃ log₀ mid p₀ status, log₁ = log₀ ++ .forked p₀ q pid :: mid ∧
        (∀ p' pid', .forked p' q pid' ∉ mid) ∧ (∀ p' pid' st', .reaped p' q pid' st' ∉ mid) ∧
        (p = p₀ ∨ p = initproc ∧ .reparented q ∈ mid) ∧
        (∀ st', .exiting q st' ∈ mid ↔ st' = status) ∧ (st = none ∨ st = some status)) ∧
    (∀ l t, step s l = some t →
      (∀ p q pid st, t.log = s.log ++ [.reaped p q pid st] → ∃ addr rest, s.on l.cpu = some p ∧
        s.top l.cpu = .waitChild addr q rest ∧ (s.proc q).parent = some p ∧ pid = (s.proc q).pid ∧
        (addr ≠ 0 → st = some (s.proc q).xstate) ∧ t.on l.cpu = some p ∧ t.top l.cpu = .waitDone pid) ∧
      (∀ p v, s.on l.cpu = some p → s.top l.cpu = .waitDone v → t.ret p = v ∧ t.top l.cpu = .code []) ∧
      ∀ addr q rest, s.top l.cpu = .waitChild addr q rest → (s.proc q).state = .ZOMBIE → addr ≠ 0 →
        l.act = .run false → t.proc = s.proc ∧ t.log = s.log ∧ t.top l.cpu = .waitDone (-1)) ∧
    (s.holder (.cond .waitLock) = none → ∀ p q, (s.proc p).state = .SLEEPING →
      (∃ pc addr, (s.thread p).top = .sleep pc (.proc p) .waitLock (.kwait addr)) →
      (s.proc q).parent = some p → (s.proc q).state ≠ .ZOMBIE) := by
  obtain ⟨⟨hi, hcalls, hsleepers, hk⟩, fam, hafter, hkin⟩ := reachable_kin hs
  refine ⟨fun log₁ log₂ p q pid st hlog => ?_, fun l t hstep => ⟨fun p q pid st hlog => ?_,
    fun p v hon htop => ?_, fun addr q rest htop hz haddr hact => ?_⟩, fun hfree p q hsleep hframe hparent hz => ?_⟩
  · have hpre : ∃ fam', Family.After (log₁ ++ [.reaped p q pid st]) fam' := by
      rw [hlog, List.append_cons] at hafter
      exact hafter.prefix log₂
    obtain ⟨fam', hfam'⟩ := hpre
    obtain ⟨fam₁, status, hfam₁, hq, hst⟩ := hfam'.reaped
    obtain ⟨log₀, mid, p₀, rfl, hforked, hpar, hexit⟩ := hfam₁.member hq rfl
    refine ⟨log₀, mid, p₀, status, rfl, hforked, fun p' pid' st' hin => ?_, hpar, fun st' => ?_, hst⟩
    · -- it would have been reaped twice
      obtain ⟨mid₁, mid₂, rfl⟩ := List.append_of_mem hin
      have hsplit : log₀ ++ .forked p₀ q pid :: (mid₁ ++ .reaped p' q pid' st' :: mid₂) ++ [.reaped p q pid st] =
          (log₀ ++ .forked p₀ q pid :: mid₁) ++ .reaped p' q pid' st' :: (mid₂ ++ [.reaped p q pid st]) := by
        simp
      rw [hsplit] at hfam'
      obtain ⟨p'', pid'', hin'⟩ := hfam'.reaped_once
      exact hforked p'' pid'' (List.mem_append_right _ (List.mem_cons_of_mem _ hin'))
    · rw [hexit, Option.some.injEq, eq_comm]
  · exact reaped_step hi hcalls hk hstep hlog
  · exact waitDone_step hi hstep hon htop
  · exact copyout_step hi hstep htop hz haddr hact
  · obtain ⟨c, rest, -, hholder⟩ := hk.waiting p q (Or.inr ⟨hsleep, hframe⟩) hparent hz
    rw [hfree] at hholder
    cases hholder

end Runs

/-- `initproc` forks and waits; the child exits with 7. -/
def familyRun : List (Label (Fin 1) Empty) :=
  List.replicate 4 ⟨0, .run true⟩ ++ ⟨0, .kfork⟩ :: List.replicate 10 ⟨0, .run true⟩ ++
    ⟨0, .kwait 4096⟩ :: List.replicate 79 ⟨0, .run true⟩ ++
    ⟨0, .kexit 7⟩ :: List.replicate 335 ⟨0, .run true⟩

theorem exit_wait_child : ∃ s, runSteps step (boot (Fin 1) Empty) familyRun = some s ∧
    s.log = [.forked initproc 1 2, .exiting 1 7, .reaped initproc 1 2 (some 7)] ∧ s.ret initproc = 2 ∧
    ∃ log₀ mid p₀ status, [Event.forked initproc 1 2, .exiting 1 7] = log₀ ++ .forked p₀ 1 2 :: mid ∧
      Event.exiting 1 status ∈ mid ∧ some 7 = some status := by
  obtain ⟨s, hs⟩ : ∃ s, runSteps step (boot (Fin 1) Empty) familyRun = some s :=
    Option.isSome_iff_exists.1 (by decide +kernel)
  have hend : (runSteps step (boot (Fin 1) Empty) familyRun).map (fun s => (s.log, s.ret initproc)) =
      some ([.forked initproc 1 2, .exiting 1 7, .reaped initproc 1 2 (some 7)], 2) := by decide +kernel
  rw [hs] at hend
  obtain ⟨hlog, hret⟩ := Prod.mk.inj (Option.some.inj hend)
  obtain ⟨log₀, mid, p₀, status, hsplit, -, -, -, hexit, hst⟩ := (exit_wait ⟨_, _, rfl, hs⟩).1
    [.forked initproc 1 2, .exiting 1 7] [] initproc 1 2 (some 7) hlog
  exact ⟨s, hs, hlog, hret, log₀, mid, p₀, status, hsplit, (hexit status).2 rfl,
    hst.resolve_left (by simp)⟩

end Xv6.Sched
