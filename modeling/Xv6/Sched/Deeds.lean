import Xv6.Sched.Wakeup

set_option autoImplicit false

/-! # Steps that change a family

Most steps leave the parents of all processes as they are, and what `wait` looks for. The others are a
few steps of `kfork`, `kexit`, `reparent` and `kwait`. -/

namespace Xv6.Sched

open Xv6.Lib
open Xv6.ProcTable (ProcState Chan Proc Table initproc freeproc)
open Effect

variable {C L : Type}

/-- The status, once the process has gone into `exit`. -/
def WakeRet.exit : WakeRet L → Option (BitVec 32)
  | .code _ => none
  | .reparent status _ => some status
  | .kexit status => some status

def Frame.exit : Frame L → Option (BitVec 32)
  | .wakeup _ _ ret => ret.exit
  | .wakeupAt _ _ _ ret => ret.exit
  | .kexit _ status => some status
  | .reparent status _ => some status
  | _ => none

/-- The same to its parent. -/
structure Mild (u v : Proc) : Prop where
  parent : v.parent = u.parent
  pid : v.pid = u.pid
  xstate : v.xstate = u.xstate
  unused : v.state = .UNUSED ↔ u.state = .UNUSED
  used : v.state = .USED ↔ u.state = .USED
  zombie : v.state = .ZOMBIE ↔ u.state = .ZOMBIE

theorem Mild.refl (u : Proc) : Mild u u := ⟨rfl, rfl, rfl, Iff.rfl, Iff.rfl, Iff.rfl⟩

/-- A process that is neither free, nor new, nor dead, stays so. -/
theorem Mild.of_alive {u v : Proc} (hparent : v.parent = u.parent) (hpid : v.pid = u.pid)
    (hxstate : v.xstate = u.xstate) (hu : u.state ≠ .UNUSED ∧ u.state ≠ .USED ∧ u.state ≠ .ZOMBIE)
    (hv : v.state ≠ .UNUSED ∧ v.state ≠ .USED ∧ v.state ≠ .ZOMBIE) : Mild u v :=
  ⟨hparent, hpid, hxstate, iff_of_false hv.1 hu.1, iff_of_false hv.2.1 hu.2.1, iff_of_false hv.2.2 hu.2.2⟩

theorem Mild.kill (u : Proc) : Mild u u.kill := by
  by_cases hs : u.state = .SLEEPING
  · refine Mild.of_alive rfl rfl rfl (by simp [hs]) ?_
    simp [ProcTable.Proc.kill, hs]
  · have hstate : u.kill.state = u.state := by simp [ProcTable.Proc.kill, hs]
    exact ⟨rfl, rfl, rfl, by rw [hstate], by rw [hstate], by rw [hstate]⟩

/-- A step that no family notices. -/
structure Quiet (s : State C L) (e : Effect L) : Prop where
  upd : ∀ q v, e.upd = some (q, v) → Mild (s.proc q) v
  event : e.event = none
  fresh : e.fresh = none

variable {s t : State C L} {c : C} {e : Effect L} {l : Label C L} {p : Slot}

theorem Quiet.of_none (hu : e.upd = none) (hev : e.event = none) (hfresh : e.fresh = none) : Quiet s e :=
  ⟨fun q v h => (by rw [hu] at h; cases h), hev, hfresh⟩

theorem Quiet.table (h : Quiet s e) (q : Slot) : Mild (s.proc q) (e.table s.proc q) := by
  rcases table_eq_or e s.proc q with hold | ⟨v, hu, hnew⟩
  · rw [hold]
    exact Mild.refl _
  · rw [hnew]
    exact h.upd q v hu

/-- What else a process may do. -/
inductive Deed (s : State C L) (p : Slot) : Frame L → Effect L → Prop where
  | fork {q : Slot} {rest : List Slot} (hq : (s.proc q).state = .UNUSED) :
      Deed s p (.allocprocAt q rest) (allocprocAt s p q rest)
  | noMem {np : Slot} {pid : BitVec 32} :
      Deed s p (.kfork .fill np pid) (kfork s p np pid false .fill)
  | parent {np : Slot} {pid : BitVec 32} {ok : Bool} :
      Deed s p (.kfork .parent np pid) (kfork s p np pid ok .parent)
  | run {np : Slot} {pid : BitVec 32} {ok : Bool} :
      Deed s p (.kfork .run np pid) (kfork s p np pid ok .run)
  | reparent {pp : Slot} {status : BitVec 32} {rest : List Slot} (hpp : (s.proc pp).parent = some p) :
      Deed s p (.reparent status (pp :: rest)) (reparent s p status (pp :: rest))
  | zombie {status : BitVec 32} :
      Deed s p (.kexit .zombie status) ((goto (.kexit .unlock status)).set p
        { s.proc p with xstate := status, state := .ZOMBIE })
  | reap {addr : Uint64} {q : Slot} {rest : List Slot} {ok : Bool} (hq : (s.proc q).state = .ZOMBIE)
      (hok : addr ≠ 0 → ok = true) :
      Deed s p (.waitChild addr q rest) (waitChild s p addr q rest ok)
  | exiting {status : BitVec 32} (hp : p ≠ initproc) :
      Deed s p (.code []) ((goto (.kexit .waitLock status)).note (.exiting p status))

/-! ## Every step is quiet or one of these -/

theorem Quiet.of_upd {q : Slot} {v : Proc} (hu : e.upd = some (q, v)) (hv : Mild (s.proc q) v)
    (hev : e.event = none) (hfresh : e.fresh = none) : Quiet s e := by
  refine ⟨fun q' v' hu' => ?_, hev, hfresh⟩
  rw [hu] at hu'
  cases hu'
  exact hv

section Functions

theorem quiet_yield {pc : YieldPc} (halive : pc = .switch →
    (s.proc p).state ≠ .UNUSED ∧ (s.proc p).state ≠ .USED ∧ (s.proc p).state ≠ .ZOMBIE) :
    Quiet s (yield s p pc) := by
  cases pc with
  | switch => exact Quiet.of_upd rfl (Mild.of_alive rfl rfl rfl (halive rfl) (by simp)) rfl rfl
  | _ => exact Quiet.of_none rfl rfl rfl

theorem quiet_sleep (chan : Chan) (lk : CondLock L) (ret : SleepRet L) {pc : SleepPc}
    (halive : pc = .switch →
      (s.proc p).state ≠ .UNUSED ∧ (s.proc p).state ≠ .USED ∧ (s.proc p).state ≠ .ZOMBIE) :
    Quiet s (sleep s p chan lk ret pc) := by
  cases pc with
  | switch => exact Quiet.of_upd rfl (Mild.of_alive rfl rfl rfl (halive rfl) (by simp)) rfl rfl
  | woken => exact Quiet.of_upd rfl ⟨rfl, rfl, rfl, Iff.rfl, Iff.rfl, Iff.rfl⟩ rfl rfl
  | _ => exact Quiet.of_none rfl rfl rfl

theorem quiet_wakeup (my : Option Slot) (chan : Option Chan) (ret : WakeRet L) (rest : List Slot) :
    Quiet s (wakeup my chan ret rest) := by
  cases rest with
  | nil => exact Quiet.of_none rfl rfl rfl
  | cons q rest =>
      rw [wakeup]
      split
      · exact Quiet.of_none rfl rfl rfl
      · exact Quiet.of_none rfl rfl rfl

theorem quiet_wakeupAt (chan : Option Chan) (q : Slot) (rest : List Slot) (ret : WakeRet L) :
    Quiet s (wakeupAt s chan q rest ret) := by
  unfold wakeupAt
  split
  · rename_i hq
    exact Quiet.of_upd rfl (Mild.of_alive rfl rfl rfl (by simp [hq.1]) (by simp)) rfl rfl
  · exact Quiet.of_none rfl rfl rfl

theorem quiet_kkill (pid : BitVec 32) (rest : List Slot) : Quiet s (kkill (L := L) p pid rest) := by
  cases rest with
  | nil => exact Quiet.of_none rfl rfl rfl
  | cons q rest => exact Quiet.of_none rfl rfl rfl

theorem quiet_kkillAt (pid : BitVec 32) (q : Slot) (rest : List Slot) : Quiet s (kkillAt s p pid q rest) := by
  unfold kkillAt
  split
  · exact Quiet.of_upd rfl (Mild.kill _) rfl rfl
  · exact Quiet.of_none rfl rfl rfl

theorem quiet_allocproc (rest : List Slot) : Quiet s (allocproc (L := L) p rest) := by
  cases rest with
  | nil => exact Quiet.of_none rfl rfl rfl
  | cons q rest => exact Quiet.of_none rfl rfl rfl

theorem quiet_waitScan (addr : Uint64) (havekids : Bool) (rest : List Slot) :
    Quiet s (waitScan s p addr havekids rest) := by
  cases rest with
  | nil =>
      rw [waitScan]
      split
      · exact Quiet.of_none rfl rfl rfl
      · exact Quiet.of_none rfl rfl rfl
  | cons q rest =>
      rw [waitScan]
      split
      · exact Quiet.of_none rfl rfl rfl
      · exact Quiet.of_none rfl rfl rfl

theorem quiet_scheduler (rest : List Slot) : Quiet s (scheduler (L := L) rest) := by
  cases rest with
  | nil => exact Quiet.of_none rfl rfl rfl
  | cons q rest => exact Quiet.of_none rfl rfl rfl

theorem quiet_schedAt (q : Slot) (rest : List Slot) : Quiet s (schedAt s q rest) := by
  unfold schedAt
  split
  · rename_i hq
    exact Quiet.of_upd rfl (Mild.of_alive rfl rfl rfl (by simp [hq]) (by simp)) rfl rfl
  · exact Quiet.of_none rfl rfl rfl

theorem deed_allocprocAt (q : Slot) (rest : List Slot) :
    Quiet s (allocprocAt s p q rest) ∨ Deed s p (.allocprocAt q rest) (allocprocAt s p q rest) := by
  by_cases hq : (s.proc q).state = .UNUSED
  · exact Or.inr (.fork hq)
  · refine Or.inl ?_
    rw [allocprocAt, if_neg hq]
    exact Quiet.of_none rfl rfl rfl

theorem deed_kfork (np : Slot) (pid : BitVec 32) (ok : Bool) (pc : ForkPc) :
    Quiet s (kfork s p np pid ok pc) ∨ Deed s p (.kfork pc np pid) (kfork s p np pid ok pc) := by
  cases pc with
  | fill =>
      cases ok with
      | true => exact Or.inl (Quiet.of_none rfl rfl rfl)
      | false => exact Or.inr .noMem
  | parent => exact Or.inr .parent
  | run => exact Or.inr .run
  | _ => exact Or.inl (Quiet.of_none rfl rfl rfl)

theorem deed_kexit {status : BitVec 32} {pc : ExitPc} (hr : kexit s p status pc = some e) :
    Quiet s e ∨ Deed s p (.kexit pc status) e := by
  cases pc with
  | zombie =>
      obtain rfl := Option.some.inj hr
      exact Or.inr .zombie
  | done => cases hr
  | _ =>
      obtain rfl := Option.some.inj hr
      exact Or.inl (Quiet.of_none rfl rfl rfl)

theorem deed_reparent (status : BitVec 32) (rest : List Slot) :
    Quiet s (reparent s p status rest) ∨ Deed s p (.reparent status rest) (reparent s p status rest) := by
  cases rest with
  | nil => exact Or.inl (Quiet.of_none rfl rfl rfl)
  | cons pp rest =>
      by_cases hpp : (s.proc pp).parent = some p
      · exact Or.inr (.reparent hpp)
      · refine Or.inl ?_
        rw [reparent, if_neg hpp]
        exact Quiet.of_none rfl rfl rfl

theorem deed_waitChild (addr : Uint64) (q : Slot) (rest : List Slot) (ok : Bool) :
    Quiet s (waitChild s p addr q rest ok) ∨
      Deed s p (.waitChild addr q rest) (waitChild s p addr q rest ok) := by
  by_cases hq : (s.proc q).state = .ZOMBIE
  · by_cases hok : addr ≠ 0 ∧ ok = false
    · refine Or.inl ?_
      rw [waitChild, if_pos hq, if_pos hok]
      exact Quiet.of_none rfl rfl rfl
    · refine Or.inr (.reap hq fun haddr => ?_)
      by_contra hfalse
      exact hok ⟨haddr, by simpa using hfalse⟩
  · refine Or.inl ?_
    rw [waitChild, if_neg hq]
    exact Quiet.of_none rfl rfl rfl

end Functions

theorem row_deed (h : Inv s) {f : Frame L} {ok : Bool} (htop : s.top c = f) (hr : row s c ok f = some e) :
    Quiet s e ∨ ∃ p, s.on c = some p ∧ f.sys = true ∧ Deed s p f e := by
  have hon : ∀ {p}, s.cpuProc c = some p → f.kind ≠ .sched → s.on c = some p := by
    intro p hp hkind
    exact h.on_of_frame (by rw [htop]; exact hkind) hp
  have hdeed : ∀ {p}, s.cpuProc c = some p → f.kind ≠ .sched → f.sys = true → Quiet s e ∨ Deed s p f e →
      Quiet s e ∨ ∃ p, s.on c = some p ∧ f.sys = true ∧ Deed s p f e :=
    fun hp hkind hsys hd => hd.imp_right fun hd => ⟨_, hon hp hkind, hsys, hd⟩
  -- the process that is executed is alive, but for the end of its `exit`
  have halive : ∀ {p}, s.on c = some p → f.state = .RUNNING →
      (s.proc p).state ≠ .UNUSED ∧ (s.proc p).state ≠ .USED ∧ (s.proc p).state ≠ .ZOMBIE := by
    intro p hp hrun
    have hstate := h.state c p hp
    rw [State.top, State.current_of_on hp] at htop
    rw [htop, hrun] at hstate
    simp [hstate]
  cases f with
  | code locks => cases hr
  | yield pc =>
      obtain ⟨p, hp, rfl⟩ := Option.map_eq_some_iff.1 hr
      refine Or.inl (quiet_yield fun hpc => halive (hon hp (by simp [Frame.kind])) ?_)
      rw [hpc]
      rfl
  | sleep pc chan lk ret =>
      obtain ⟨p, hp, rfl⟩ := Option.map_eq_some_iff.1 hr
      refine Or.inl (quiet_sleep chan lk ret fun hpc => halive (hon hp (by simp [Frame.kind])) ?_)
      rw [hpc]
      rfl
  | wakeup chan rest ret =>
      obtain rfl := Option.some.inj hr
      exact Or.inl (quiet_wakeup _ chan ret rest)
  | wakeupAt chan q rest ret =>
      obtain rfl := Option.some.inj hr
      exact Or.inl (quiet_wakeupAt chan q rest ret)
  | kkill pid rest =>
      obtain ⟨p, -, rfl⟩ := Option.map_eq_some_iff.1 hr
      exact Or.inl (quiet_kkill pid rest)
  | kkillAt pid q rest =>
      obtain ⟨p, -, rfl⟩ := Option.map_eq_some_iff.1 hr
      exact Or.inl (quiet_kkillAt pid q rest)
  | allocproc rest =>
      obtain ⟨p, -, rfl⟩ := Option.map_eq_some_iff.1 hr
      exact Or.inl (quiet_allocproc rest)
  | allocprocAt q rest =>
      obtain ⟨p, hp, rfl⟩ := Option.map_eq_some_iff.1 hr
      exact hdeed hp (by simp [Frame.kind]) rfl (deed_allocprocAt q rest)
  | kfork pc np pid =>
      obtain ⟨p, hp, rfl⟩ := Option.map_eq_some_iff.1 hr
      exact hdeed hp (by simp [Frame.kind]) rfl (deed_kfork np pid ok pc)
  | kexit pc status =>
      obtain ⟨p, hp, hr⟩ := Option.bind_eq_some_iff.1 hr
      exact hdeed hp (by simp [Frame.kind]) rfl (deed_kexit hr)
  | reparent status rest =>
      obtain ⟨p, hp, rfl⟩ := Option.map_eq_some_iff.1 hr
      exact hdeed hp (by simp [Frame.kind]) rfl (deed_reparent status rest)
  | kwait addr =>
      obtain rfl := Option.some.inj hr
      exact Or.inl (Quiet.of_none rfl rfl rfl)
  | waitScan addr rest havekids =>
      obtain ⟨p, -, rfl⟩ := Option.map_eq_some_iff.1 hr
      exact Or.inl (quiet_waitScan addr havekids rest)
  | waitChild addr q rest =>
      obtain ⟨p, hp, rfl⟩ := Option.map_eq_some_iff.1 hr
      exact hdeed hp (by simp [Frame.kind]) rfl (deed_waitChild addr q rest ok)
  | scheduler rest =>
      obtain rfl := Option.some.inj hr
      exact Or.inl (quiet_scheduler rest)
  | schedAt q rest =>
      obtain rfl := Option.some.inj hr
      exact Or.inl (quiet_schedAt q rest)
  | schedSwtch q rest =>
      obtain rfl := Option.some.inj hr
      exact Or.inl (Quiet.of_none rfl rfl rfl)
  | schedBack q rest =>
      obtain rfl := Option.some.inj hr
      exact Or.inl (Quiet.of_none rfl rfl rfl)
  | schedDone q rest =>
      obtain rfl := Option.some.inj hr
      exact Or.inl (Quiet.of_none rfl rfl rfl)
  | _ =>
      obtain ⟨p, -, rfl⟩ := Option.map_eq_some_iff.1 hr
      exact Or.inl (Quiet.of_none rfl rfl rfl)

variable [DecidableEq L]

/-- A call of `exit` is made by user code, and not by `initproc`. -/
theorem codeRow_deed (h : Inv s) {locks : List (CondLock L)} {a : Act L} (htop : s.top c = .code locks)
    (hr : codeRow s c locks a = some e) : (Quiet s e ∧ ∀ f, e.next = .top f → f.exit = none) ∨
      ∃ p, s.on c = some p ∧ locks = [] ∧ (s.current c).intr = none ∧ Deed s p (.code locks) e := by
  cases a with
  | acquire l =>
      obtain rfl := Option.some.inj hr
      refine Or.inl ⟨Quiet.of_none rfl rfl rfl, ?_⟩
      rintro f ⟨⟩
      rfl
  | release l =>
      obtain rfl := Option.some.inj hr
      refine Or.inl ⟨Quiet.of_none rfl rfl rfl, ?_⟩
      rintro f ⟨⟩
      rfl
  | sleep chan lk =>
      obtain ⟨-, ⟨⟩⟩ := Option.ite_none_right_eq_some.1 hr
      refine Or.inl ⟨Quiet.of_none rfl rfl rfl, ?_⟩
      rintro f ⟨⟩
      rfl
  | wakeup chan =>
      obtain rfl := Option.some.inj hr
      refine Or.inl ⟨Quiet.of_none rfl rfl rfl, ?_⟩
      rintro f ⟨⟩
      rfl
  | kfork =>
      obtain ⟨-, ⟨⟩⟩ := Option.ite_none_right_eq_some.1 hr
      refine Or.inl ⟨Quiet.of_none rfl rfl rfl, ?_⟩
      rintro f ⟨⟩
      rfl
  | kexit status =>
      obtain ⟨⟨hlocks, hintr⟩, hr⟩ := Option.ite_none_right_eq_some.1 hr
      obtain ⟨p, hp, hr⟩ := Option.bind_eq_some_iff.1 hr
      obtain ⟨hinit, ⟨⟩⟩ := Option.ite_none_left_eq_some.1 hr
      subst hlocks
      exact Or.inr ⟨p, h.on_of_frame (by rw [htop]; simp [Frame.kind]) hp, rfl, hintr, .exiting hinit⟩
  | kwait addr =>
      obtain ⟨-, ⟨⟩⟩ := Option.ite_none_right_eq_some.1 hr
      refine Or.inl ⟨Quiet.of_none rfl rfl rfl, ?_⟩
      rintro f ⟨⟩
      rfl
  | kkill pid =>
      obtain ⟨-, ⟨⟩⟩ := Option.ite_none_right_eq_some.1 hr
      refine Or.inl ⟨Quiet.of_none rfl rfl rfl, ?_⟩
      rintro f ⟨⟩
      rfl
  | _ => cases hr

theorem intrRow_event {a : Act L} (hr : intrRow s c a = some e) : e.event = none := by
  cases a with
  | intr =>
      obtain ⟨-, ⟨⟩⟩ := Option.ite_none_right_eq_some.1 hr
      rfl
  | iret =>
      obtain ⟨-, ⟨⟩⟩ := Option.ite_none_right_eq_some.1 hr
      rfl
  | timer =>
      obtain ⟨-, ⟨⟩⟩ := Option.ite_none_right_eq_some.1 hr
      rfl
  | _ => cases hr

theorem effect_deed (h : Inv s) (hcalls : Calls s) (he : effect s l = some e) : Quiet s e ∨
    ∃ p f, s.on l.cpu = some p ∧ s.top l.cpu = f ∧ s.thread p = ⟨f, none⟩ ∧ Deed s p f e := by
  have hthread : ∀ {p f}, s.on l.cpu = some p → s.top l.cpu = f → (s.thread p).intr = none →
      s.thread p = ⟨f, none⟩ := by
    intro p f hon htop hintr
    rw [State.top, State.current_of_on hon, Thread.top, hintr] at htop
    rw [← htop]
    exact congrArg (Thread.mk (s.thread p).base) hintr
  rcases effect_cases he with ⟨ok, hr⟩ | ⟨locks, htop, hr⟩ | hr
  · rcases row_deed h rfl hr with hq | ⟨p, hon, hsys, hd⟩
    · exact Or.inl hq
    · refine Or.inr ⟨p, _, hon, rfl, hthread hon rfl ?_, hd⟩
      have htop : (s.thread p).top = s.top l.cpu := by rw [State.top, State.current_of_on hon]
      exact (hcalls.base_of_top htop hsys).1
  · rcases codeRow_deed h htop hr with ⟨hq, -⟩ | ⟨p, hon, -, hintr, hd⟩
    · exact Or.inl hq
    · rw [State.current_of_on hon] at hintr
      exact Or.inr ⟨p, _, hon, htop, hthread hon htop hintr, hd⟩
  · obtain ⟨hu, -, hfresh, -, -⟩ := intrRow_idle hr
    exact Or.inl (Quiet.of_none hu (intrRow_event hr) hfresh)

end Xv6.Sched
