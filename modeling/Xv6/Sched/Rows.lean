import Xv6.Sched.Model

set_option autoImplicit false

/-! # What a step can do

The steps that change a slot of the table, and the steps that come to a frame of a given function. -/

namespace Xv6.Sched

open Xv6.Lib
open Xv6.ProcTable (ProcState Chan Proc Table initproc freeproc)

variable {C L : Type}

/-! ## Frames -/

def SleepRet.sys : SleepRet L → Bool
  | .code _ => false
  | .kwait _ => true

def WakeRet.sys : WakeRet L → Bool
  | .code _ => false
  | _ => true

/-- In `kfork`, `kexit` or `kwait`. -/
def Frame.sys : Frame L → Bool
  | .sleep _ _ _ ret => ret.sys
  | .wakeup _ _ ret => ret.sys
  | .wakeupAt _ _ _ ret => ret.sys
  | .allocproc _ => true
  | .allocprocAt _ _ => true
  | .kfork _ _ _ => true
  | .kexit _ _ => true
  | .reparent _ _ => true
  | .kwait _ => true
  | .waitScan _ _ _ => true
  | .waitChild _ _ _ => true
  | .waitKilled _ => true
  | .waitKilledAt _ => true
  | .waitDone _ => true
  | _ => false

/-- The functions, with those that scan split where they have taken a lock. -/
inductive Fn where
  | code | forkret | yield | sleep | wakeup | wakeupAt | kkill | kkillAt | allocproc | allocprocAt
  | kfork | kexit | reparent | kwait | waitScan | waitChild | waitKilled | waitKilledAt | waitDone
  | scheduler | schedAt | schedSwtch | schedBack | schedDone
  deriving DecidableEq

def Frame.fn : Frame L → Fn
  | .code _ => .code
  | .forkret => .forkret
  | .yield _ => .yield
  | .sleep _ _ _ _ => .sleep
  | .wakeup _ _ _ => .wakeup
  | .wakeupAt _ _ _ _ => .wakeupAt
  | .kkill _ _ => .kkill
  | .kkillAt _ _ _ => .kkillAt
  | .allocproc _ => .allocproc
  | .allocprocAt _ _ => .allocprocAt
  | .kfork _ _ _ => .kfork
  | .kexit _ _ => .kexit
  | .reparent _ _ => .reparent
  | .kwait _ => .kwait
  | .waitScan _ _ _ => .waitScan
  | .waitChild _ _ _ => .waitChild
  | .waitKilled _ => .waitKilled
  | .waitKilledAt _ => .waitKilledAt
  | .waitDone _ => .waitDone
  | .scheduler _ => .scheduler
  | .schedAt _ _ => .schedAt
  | .schedSwtch _ _ => .schedSwtch
  | .schedBack _ _ => .schedBack
  | .schedDone _ _ => .schedDone

/-- Where the next step of a thread may be. -/
def Fn.next : Fn → List Fn
  | .code => []
  | .forkret => [.code]
  | .yield => [.yield]
  | .sleep => [.sleep, .code, .waitScan]
  | .wakeup => [.wakeup, .wakeupAt, .code, .reparent, .kexit]
  | .wakeupAt => [.wakeup]
  | .kkill => [.kkillAt, .code]
  | .kkillAt => [.kkill, .code]
  | .allocproc => [.allocprocAt, .code]
  | .allocprocAt => [.allocproc, .kfork]
  | .kfork => [.kfork, .code]
  | .kexit => [.kexit, .reparent, .wakeup]
  | .reparent => [.reparent, .wakeup, .kexit]
  | .kwait => [.waitScan]
  | .waitScan => [.waitScan, .waitChild, .waitKilled, .waitDone]
  | .waitChild => [.waitScan, .waitDone]
  | .waitKilled => [.waitKilledAt]
  | .waitKilledAt => [.waitDone, .sleep]
  | .waitDone => [.code]
  | .scheduler => [.scheduler, .schedAt]
  | .schedAt => [.scheduler, .schedSwtch]
  | .schedSwtch => [.schedBack]
  | .schedBack => [.schedDone]
  | .schedDone => [.scheduler]

/-! ## Slots -/

/-- A step at this frame turns the slot into this; `me` is the process of the CPU. -/
inductive Change (s : State C L) (me : Option Slot) : Frame L → Slot → Proc → Prop where
  | yield {p : Slot} (hme : me = some p) :
      Change s me (.yield .switch) p { s.proc p with state := .RUNNABLE }
  | sleep {p : Slot} {chan : Chan} {lk : CondLock L} {ret : SleepRet L} (hme : me = some p) :
      Change s me (.sleep .switch chan lk ret) p { s.proc p with chan := some chan, state := .SLEEPING }
  | woken {p : Slot} {chan : Chan} {lk : CondLock L} {ret : SleepRet L} (hme : me = some p) :
      Change s me (.sleep .woken chan lk ret) p { s.proc p with chan := none }
  | wakeup {chan : Option Chan} {q : Slot} {rest : List Slot} {ret : WakeRet L}
      (hq : (s.proc q).state = .SLEEPING) (hchan : (s.proc q).chan = chan) :
      Change s me (.wakeupAt chan q rest ret) q { s.proc q with state := .RUNNABLE }
  | kkill {pid : BitVec 32} {q : Slot} {rest : List Slot} (hq : (s.proc q).pid = pid) :
      Change s me (.kkillAt pid q rest) q (s.proc q).kill
  | allocproc {q : Slot} {rest : List Slot} (hq : (s.proc q).state = .UNUSED) :
      Change s me (.allocprocAt q rest) q { s.proc q with pid := s.nextpid, state := .USED }
  | noMem {p np : Slot} {pid : BitVec 32} (hme : me = some p) :
      Change s me (.kfork .fill np pid) np (freeproc (s.proc np))
  | parent {p np : Slot} {pid : BitVec 32} (hme : me = some p) :
      Change s me (.kfork .parent np pid) np { s.proc np with parent := some p }
  | run {p np : Slot} {pid : BitVec 32} (hme : me = some p) :
      Change s me (.kfork .run np pid) np { s.proc np with state := .RUNNABLE }
  | reparent {p pp : Slot} {status : BitVec 32} {rest : List Slot} (hme : me = some p)
      (hpp : (s.proc pp).parent = some p) :
      Change s me (.reparent status (pp :: rest)) pp { s.proc pp with parent := some initproc }
  | kexit {p : Slot} {status : BitVec 32} (hme : me = some p) :
      Change s me (.kexit .zombie status) p { s.proc p with xstate := status, state := .ZOMBIE }
  | reap {p : Slot} {addr : Uint64} {q : Slot} {rest : List Slot} (hme : me = some p)
      (hq : (s.proc q).state = .ZOMBIE) :
      Change s me (.waitChild addr q rest) q (freeproc (s.proc q))
  | scheduler {p : Slot} {rest : List Slot} (hp : (s.proc p).state = .RUNNABLE) :
      Change s me (.schedAt p rest) p { s.proc p with state := .RUNNING }

variable {s : State C L} {c : C} {ok : Bool} {f : Frame L} {e : Effect L}

theorem row_upd (hr : row s c ok f = some e) {q : Slot} {v : Proc} (hu : e.upd = some (q, v)) :
    Change s (s.cpuProc c) f q v := by
  cases f with
  | code locks => cases hr
  | forkret =>
      obtain ⟨p, -, rfl⟩ := Option.map_eq_some_iff.1 hr
      cases hu
  | yield pc =>
      obtain ⟨p, hp, rfl⟩ := Option.map_eq_some_iff.1 hr
      cases pc <;> cases hu
      exact .yield hp
  | sleep pc chan lk ret =>
      obtain ⟨p, hp, rfl⟩ := Option.map_eq_some_iff.1 hr
      cases pc <;> cases hu
      · exact .sleep hp
      · exact .woken hp
  | wakeup chan rest ret =>
      obtain rfl := Option.some.inj hr
      cases rest with
      | nil => cases hu
      | cons q rest =>
          simp only [wakeup] at hu
          split at hu <;> cases hu
  | wakeupAt chan q rest ret =>
      obtain rfl := Option.some.inj hr
      unfold wakeupAt at hu
      split at hu
      · rename_i hq
        cases hu
        exact .wakeup hq.1 hq.2
      · cases hu
  | kkill pid rest =>
      obtain ⟨p, -, rfl⟩ := Option.map_eq_some_iff.1 hr
      cases rest <;> cases hu
  | kkillAt pid q rest =>
      obtain ⟨p, -, rfl⟩ := Option.map_eq_some_iff.1 hr
      unfold kkillAt at hu
      split at hu
      · rename_i hq
        cases hu
        exact .kkill hq
      · cases hu
  | allocproc rest =>
      obtain ⟨p, -, rfl⟩ := Option.map_eq_some_iff.1 hr
      cases rest <;> cases hu
  | allocprocAt q rest =>
      obtain ⟨p, -, rfl⟩ := Option.map_eq_some_iff.1 hr
      unfold allocprocAt at hu
      split at hu
      · rename_i hq
        cases hu
        exact .allocproc hq
      · cases hu
  | kfork pc np pid =>
      obtain ⟨p, hp, rfl⟩ := Option.map_eq_some_iff.1 hr
      cases pc with
      | fill =>
          simp only [kfork] at hu
          split at hu <;> cases hu
          exact .noMem hp
      | parent =>
          cases hu
          exact .parent hp
      | run =>
          cases hu
          exact .run hp
      | _ => cases hu
  | kexit pc status =>
      obtain ⟨p, hp, he⟩ := Option.bind_eq_some_iff.1 hr
      cases pc <;> cases he <;> cases hu
      exact .kexit hp
  | reparent status rest =>
      obtain ⟨p, hp, rfl⟩ := Option.map_eq_some_iff.1 hr
      cases rest with
      | nil => cases hu
      | cons pp rest =>
          simp only [reparent] at hu
          split at hu
          · rename_i hpp
            cases hu
            exact .reparent hp hpp
          · cases hu
  | kwait addr =>
      obtain rfl := Option.some.inj hr
      cases hu
  | waitScan addr rest havekids =>
      obtain ⟨p, -, rfl⟩ := Option.map_eq_some_iff.1 hr
      cases rest with
      | nil =>
          simp only [waitScan] at hu
          split at hu <;> cases hu
      | cons q rest =>
          simp only [waitScan] at hu
          split at hu <;> cases hu
  | waitChild addr q rest =>
      obtain ⟨p, hp, rfl⟩ := Option.map_eq_some_iff.1 hr
      unfold waitChild at hu
      split at hu
      · rename_i hq
        split at hu <;> cases hu
        exact .reap hp hq
      · cases hu
  | waitKilled addr =>
      obtain ⟨p, -, rfl⟩ := Option.map_eq_some_iff.1 hr
      cases hu
  | waitKilledAt addr =>
      obtain ⟨p, -, rfl⟩ := Option.map_eq_some_iff.1 hr
      cases hu
  | waitDone v =>
      obtain ⟨p, -, rfl⟩ := Option.map_eq_some_iff.1 hr
      cases hu
  | scheduler rest =>
      obtain rfl := Option.some.inj hr
      cases rest <;> cases hu
  | schedAt p rest =>
      obtain rfl := Option.some.inj hr
      unfold schedAt at hu
      split at hu
      · rename_i hp
        cases hu
        exact .scheduler hp
      · cases hu
  | schedSwtch p rest =>
      obtain rfl := Option.some.inj hr
      cases hu
  | schedBack p rest =>
      obtain rfl := Option.some.inj hr
      cases hu
  | schedDone p rest =>
      obtain rfl := Option.some.inj hr
      cases hu

/-! ## Frames that come next -/

theorem row_fn (hr : row s c ok f = some e) {g : Frame L} (hn : e.next = .top g) : g.fn ∈ f.fn.next := by
  cases f with
  | code locks => cases hr
  | forkret =>
      obtain ⟨p, -, rfl⟩ := Option.map_eq_some_iff.1 hr
      cases hn
      simp [Frame.fn, Fn.next]
  | yield pc =>
      obtain ⟨p, -, rfl⟩ := Option.map_eq_some_iff.1 hr
      cases pc <;> cases hn <;> simp [Frame.fn, Fn.next]
  | sleep pc chan lk ret =>
      obtain ⟨p, -, rfl⟩ := Option.map_eq_some_iff.1 hr
      cases pc with
      | relock => cases ret <;> cases hn <;> simp [Frame.fn, Fn.next, SleepRet.frame]
      | _ =>
          cases hn
          simp [Frame.fn, Fn.next]
  | wakeup chan rest ret =>
      obtain rfl := Option.some.inj hr
      cases rest with
      | nil => cases ret <;> cases hn <;> simp [Frame.fn, Fn.next, WakeRet.frame]
      | cons q rest =>
          simp only [wakeup] at hn
          split at hn <;> cases hn <;> simp [Frame.fn, Fn.next]
  | wakeupAt chan q rest ret =>
      obtain rfl := Option.some.inj hr
      unfold wakeupAt at hn
      split at hn <;> cases hn <;> simp [Frame.fn, Fn.next]
  | kkill pid rest =>
      obtain ⟨p, -, rfl⟩ := Option.map_eq_some_iff.1 hr
      cases rest <;> cases hn <;> simp [Frame.fn, Fn.next]
  | kkillAt pid q rest =>
      obtain ⟨p, -, rfl⟩ := Option.map_eq_some_iff.1 hr
      unfold kkillAt at hn
      split at hn <;> cases hn <;> simp [Frame.fn, Fn.next]
  | allocproc rest =>
      obtain ⟨p, -, rfl⟩ := Option.map_eq_some_iff.1 hr
      cases rest <;> cases hn <;> simp [Frame.fn, Fn.next]
  | allocprocAt q rest =>
      obtain ⟨p, -, rfl⟩ := Option.map_eq_some_iff.1 hr
      unfold allocprocAt at hn
      split at hn <;> cases hn <;> simp [Frame.fn, Fn.next]
  | kfork pc np pid =>
      obtain ⟨p, -, rfl⟩ := Option.map_eq_some_iff.1 hr
      cases pc with
      | fill =>
          simp only [kfork] at hn
          split at hn <;> cases hn <;> simp [Frame.fn, Fn.next]
      | _ =>
          cases hn
          simp [Frame.fn, Fn.next]
  | kexit pc status =>
      obtain ⟨p, -, he⟩ := Option.bind_eq_some_iff.1 hr
      cases pc <;> cases he <;> cases hn <;> simp [Frame.fn, Fn.next]
  | reparent status rest =>
      obtain ⟨p, -, rfl⟩ := Option.map_eq_some_iff.1 hr
      cases rest with
      | nil =>
          cases hn
          simp [Frame.fn, Fn.next]
      | cons pp rest =>
          simp only [reparent] at hn
          split at hn <;> cases hn <;> simp [Frame.fn, Fn.next]
  | kwait addr =>
      obtain rfl := Option.some.inj hr
      cases hn
      simp [Frame.fn, Fn.next]
  | waitScan addr rest havekids =>
      obtain ⟨p, -, rfl⟩ := Option.map_eq_some_iff.1 hr
      cases rest <;> simp only [waitScan] at hn <;> split at hn <;> cases hn <;> simp [Frame.fn, Fn.next]
  | waitChild addr q rest =>
      obtain ⟨p, -, rfl⟩ := Option.map_eq_some_iff.1 hr
      unfold waitChild at hn
      split at hn
      · split at hn <;> cases hn <;> simp [Frame.fn, Fn.next]
      · cases hn
        simp [Frame.fn, Fn.next]
  | waitKilled addr =>
      obtain ⟨p, -, rfl⟩ := Option.map_eq_some_iff.1 hr
      cases hn
      simp [Frame.fn, Fn.next]
  | waitKilledAt addr =>
      obtain ⟨p, -, rfl⟩ := Option.map_eq_some_iff.1 hr
      cases hn
      split <;> simp [Frame.fn, Fn.next]
  | waitDone v =>
      obtain ⟨p, -, rfl⟩ := Option.map_eq_some_iff.1 hr
      cases hn
      simp [Frame.fn, Fn.next]
  | scheduler rest =>
      obtain rfl := Option.some.inj hr
      cases rest <;> cases hn <;> simp [Frame.fn, Fn.next]
  | schedAt p rest =>
      obtain rfl := Option.some.inj hr
      unfold schedAt at hn
      split at hn <;> cases hn <;> simp [Frame.fn, Fn.next]
  | schedSwtch p rest =>
      obtain rfl := Option.some.inj hr
      cases hn
      simp [Frame.fn, Fn.next]
  | schedBack p rest =>
      obtain rfl := Option.some.inj hr
      cases hn
      simp [Frame.fn, Fn.next]
  | schedDone p rest =>
      obtain rfl := Option.some.inj hr
      cases hn
      simp [Frame.fn, Fn.next]

theorem sys_of_fn {f g : Frame L} (h : g.fn ∈ f.fn.next) (hg : g.sys = true)
    (hf : f.fn ≠ .sleep) (hf' : f.fn ≠ .wakeup) (hf'' : f.fn ≠ .wakeupAt) : f.sys = true := by
  cases f with
  | sleep pc chan lk ret => exact absurd rfl hf
  | wakeup chan rest ret => exact absurd rfl hf'
  | wakeupAt chan q rest ret => exact absurd rfl hf''
  | _ => cases g <;> simp_all [Frame.fn, Fn.next, Frame.sys]

/-- A call that has been made goes on. -/
theorem row_sys (hr : row s c ok f = some e) {g : Frame L} (hn : e.next = .top g) (hg : g.sys = true) :
    f.sys = true := by
  cases f with
  | sleep pc chan lk ret =>
      cases ret with
      | code locks =>
          obtain ⟨p, -, rfl⟩ := Option.map_eq_some_iff.1 hr
          cases pc <;> cases hn <;> cases hg
      | kwait addr => rfl
  | wakeup chan rest ret =>
      cases ret with
      | code locks =>
          obtain rfl := Option.some.inj hr
          cases rest with
          | nil =>
              cases hn
              cases hg
          | cons q rest =>
              simp only [wakeup] at hn
              split at hn <;> cases hn <;> cases hg
      | _ => rfl
  | wakeupAt chan q rest ret =>
      cases ret with
      | code locks =>
          obtain rfl := Option.some.inj hr
          unfold wakeupAt at hn
          split at hn <;> cases hn <;> cases hg
      | _ => rfl
  | _ => exact sys_of_fn (row_fn hr hn) hg (by simp [Frame.fn]) (by simp [Frame.fn]) (by simp [Frame.fn])

def ForkPc.next : ForkPc → ForkPc
  | .fill => .unlock
  | .unlock => .waitLock
  | .waitLock => .parent
  | .parent => .lock
  | .lock => .run
  | .run => .run

theorem row_kfork (hr : row s c ok f = some e) {pc : ForkPc} {np : Slot} {pid : BitVec 32}
    (hn : e.next = .top (.kfork pc np pid)) :
    (∃ rest, f = .allocprocAt np rest ∧ pc = .fill ∧ pid = s.nextpid ∧ (s.proc np).state = .UNUSED ∧
      e.upd = some (np, { s.proc np with pid := s.nextpid, state := .USED })) ∨
    ∃ pc', f = .kfork pc' np pid ∧ pc' ≠ .run ∧ pc = pc'.next ∧
      ((pc' ≠ .parent ∧ e.upd = none) ∨ (pc' = .parent ∧ ∃ p, s.cpuProc c = some p ∧
        e.upd = some (np, { s.proc np with parent := some p }))) := by
  have hfn := row_fn hr hn
  cases f with
  | allocprocAt q rest =>
      obtain ⟨p, -, rfl⟩ := Option.map_eq_some_iff.1 hr
      unfold allocprocAt at hn ⊢
      split at hn
      · rename_i hq
        cases hn
        rw [if_pos hq]
        exact Or.inl ⟨rest, rfl, rfl, rfl, hq, rfl⟩
      · cases hn
  | kfork pc' np' pid' =>
      obtain ⟨p, hp, rfl⟩ := Option.map_eq_some_iff.1 hr
      cases pc' with
      | fill =>
          simp only [kfork] at hn ⊢
          split at hn
          · rename_i hok
            cases hn
            rw [if_pos hok]
            exact Or.inr ⟨.fill, rfl, by decide, rfl, Or.inl ⟨by decide, rfl⟩⟩
          · cases hn
      | unlock =>
          cases hn
          exact Or.inr ⟨.unlock, rfl, by decide, rfl, Or.inl ⟨by decide, rfl⟩⟩
      | waitLock =>
          cases hn
          exact Or.inr ⟨.waitLock, rfl, by decide, rfl, Or.inl ⟨by decide, rfl⟩⟩
      | parent =>
          cases hn
          exact Or.inr ⟨.parent, rfl, by decide, rfl, Or.inr ⟨rfl, p, hp, rfl⟩⟩
      | lock =>
          cases hn
          exact Or.inr ⟨.lock, rfl, by decide, rfl, Or.inl ⟨by decide, rfl⟩⟩
      | run => cases hn
  | _ => simp [Frame.fn, Fn.next] at hfn

def SleepPc.next : SleepPc → Option SleepPc
  | .lock => some .release
  | .release => some .switch
  | .switch => some .sched
  | .sched => some .woken
  | .woken => some .relock
  | .relock => none

theorem row_sleep (hr : row s c ok f = some e) {pc : SleepPc} {chan : Chan} {lk : CondLock L}
    {ret : SleepRet L} (hn : e.next = .top (.sleep pc chan lk ret)) :
    (∃ pc', f = .sleep pc' chan lk ret ∧ pc'.next = some pc) ∨
    pc = .lock ∧ ∃ addr p, f = .waitKilledAt addr ∧ s.cpuProc c = some p ∧ chan = .proc p ∧
      lk = .waitLock ∧ ret = .kwait addr := by
  have hfn := row_fn hr hn
  cases f with
  | sleep pc' chan' lk' ret' =>
      obtain ⟨p, -, rfl⟩ := Option.map_eq_some_iff.1 hr
      cases pc' with
      | relock => cases ret' <;> cases hn
      | _ =>
          cases hn
          exact Or.inl ⟨_, rfl, rfl⟩
  | waitKilledAt addr =>
      obtain ⟨p, hp, rfl⟩ := Option.map_eq_some_iff.1 hr
      by_cases hk : (s.proc p).killed = true
      · simp [waitKilledAt, Effect.release, Effect.of, hk] at hn
      · simp only [waitKilledAt, Effect.release, Effect.of, hk] at hn
        cases hn
        exact Or.inr ⟨rfl, addr, p, rfl, hp, rfl, rfl, rfl⟩
  | _ => simp [Frame.fn, Fn.next] at hfn

/-- A call of `wakeup` starts with all slots. -/
theorem row_wakeup (hr : row s c ok f = some e) {chan : Option Chan} {rest : List Slot} {ret : WakeRet L}
    (hn : e.next = .top (.wakeup chan rest ret)) :
    rest = allSlots ∨ (∃ q, f = .wakeup chan (q :: rest) ret ∧ s.cpuProc c = some q ∧ e.op = .skip) ∨
    ∃ q, f = .wakeupAt chan q rest ret ∧ e = wakeupAt s chan q rest ret := by
  have hfn := row_fn hr hn
  cases f with
  | wakeup chan' rest' ret' =>
      obtain rfl := Option.some.inj hr
      cases rest' with
      | nil => cases ret' <;> cases hn
      | cons q rest' =>
          simp only [wakeup] at hn ⊢
          split at hn
          · rename_i hq
            cases hn
            exact Or.inr (Or.inl ⟨q, rfl, hq, by rw [if_pos hq]; rfl⟩)
          · cases hn
  | wakeupAt chan' q rest' ret' =>
      obtain rfl := Option.some.inj hr
      have hnext : (wakeupAt s chan' q rest' ret').next = .top (.wakeup chan' rest' ret') := by
        unfold wakeupAt
        split <;> rfl
      rw [hnext] at hn
      cases hn
      exact Or.inr (Or.inr ⟨q, rfl, rfl⟩)
  | reparent status rest' =>
      obtain ⟨p, -, rfl⟩ := Option.map_eq_some_iff.1 hr
      cases rest' with
      | nil => cases hn
      | cons pp rest' =>
          simp only [reparent] at hn
          split at hn <;> cases hn
          exact Or.inl rfl
  | kexit pc status =>
      obtain ⟨p, -, he⟩ := Option.bind_eq_some_iff.1 hr
      cases pc <;> cases he <;> cases hn
      exact Or.inl rfl
  | _ => simp [Frame.fn, Fn.next] at hfn

/-- The process that the scheduler switches to. -/
def Op.target : Op L → Option Slot
  | .swtch p => some p
  | _ => none

/-- What else an effect changes, and where. -/
structure Rest (f : Frame L) (e : Effect L) : Prop where
  next : (∃ g, e.next = .top g) ∨ f = .yield .unlock ∧ e.next = .pop
  swtch : f.fn ≠ .schedSwtch → e.op.target = none
  fresh : f.fn ≠ .allocprocAt → e.fresh = none
  cpuProc : f.fn ≠ .schedAt → f.fn ≠ .schedBack → e.cpuProc = none
  ret : f.fn ∉ [.kkill, .kkillAt, .allocproc, .kfork, .waitDone] → e.ret = none
  event : f.fn ∉ [.allocprocAt, .kfork, .reparent, .waitChild] → e.event = none

theorem Rest.of_none (hn : ∃ g, e.next = .top g) (hop : e.op.target = none) (hfresh : e.fresh = none)
    (hcpu : e.cpuProc = none) (hret : e.ret = none) (hevent : e.event = none) : Rest f e :=
  ⟨Or.inl hn, fun _ => hop, fun _ => hfresh, fun _ _ => hcpu, fun _ => hret, fun _ => hevent⟩

theorem row_rest (hr : row s c ok f = some e) : Rest f e := by
  cases f with
  | code locks => cases hr
  | forkret =>
      obtain ⟨p, -, rfl⟩ := Option.map_eq_some_iff.1 hr
      exact .of_none ⟨_, rfl⟩ rfl rfl rfl rfl rfl
  | yield pc =>
      obtain ⟨p, -, rfl⟩ := Option.map_eq_some_iff.1 hr
      cases pc with
      | unlock => exact ⟨Or.inr ⟨rfl, rfl⟩, fun _ => rfl, fun _ => rfl, fun _ _ => rfl, fun _ => rfl, fun _ => rfl⟩
      | _ => exact .of_none ⟨_, rfl⟩ rfl rfl rfl rfl rfl
  | sleep pc chan lk ret =>
      obtain ⟨p, -, rfl⟩ := Option.map_eq_some_iff.1 hr
      cases pc <;> exact .of_none ⟨_, rfl⟩ rfl rfl rfl rfl rfl
  | wakeup chan rest ret =>
      obtain rfl := Option.some.inj hr
      cases rest with
      | nil => exact .of_none ⟨_, rfl⟩ rfl rfl rfl rfl rfl
      | cons q rest =>
          simp only [wakeup]
          split <;> exact .of_none ⟨_, rfl⟩ rfl rfl rfl rfl rfl
  | wakeupAt chan q rest ret =>
      obtain rfl := Option.some.inj hr
      unfold wakeupAt
      split <;> exact .of_none ⟨_, rfl⟩ rfl rfl rfl rfl rfl
  | kkill pid rest =>
      obtain ⟨p, -, rfl⟩ := Option.map_eq_some_iff.1 hr
      cases rest <;> exact ⟨Or.inl ⟨_, rfl⟩, fun _ => rfl, fun _ => rfl, fun _ _ => rfl, by simp [Frame.fn], fun _ => rfl⟩
  | kkillAt pid q rest =>
      obtain ⟨p, -, rfl⟩ := Option.map_eq_some_iff.1 hr
      unfold kkillAt
      split <;> exact ⟨Or.inl ⟨_, rfl⟩, fun _ => rfl, fun _ => rfl, fun _ _ => rfl, by simp [Frame.fn], fun _ => rfl⟩
  | allocproc rest =>
      obtain ⟨p, -, rfl⟩ := Option.map_eq_some_iff.1 hr
      cases rest <;> exact ⟨Or.inl ⟨_, rfl⟩, fun _ => rfl, fun _ => rfl, fun _ _ => rfl, by simp [Frame.fn], fun _ => rfl⟩
  | allocprocAt q rest =>
      obtain ⟨p, -, rfl⟩ := Option.map_eq_some_iff.1 hr
      unfold allocprocAt
      split <;> exact ⟨Or.inl ⟨_, rfl⟩, fun _ => rfl, by simp [Frame.fn], fun _ _ => rfl, fun _ => rfl, by simp [Frame.fn]⟩
  | kfork pc np pid =>
      obtain ⟨p, -, rfl⟩ := Option.map_eq_some_iff.1 hr
      have hfn : ∀ {e : Effect L}, (∃ g, e.next = .top g) → e.op.target = none → e.fresh = none → e.cpuProc = none → Rest (.kfork pc np pid) e :=
        fun hn hop hfresh hcpu => ⟨Or.inl hn, fun _ => hop, fun _ => hfresh, fun _ _ => hcpu, by simp [Frame.fn], by simp [Frame.fn]⟩
      cases pc with
      | fill =>
          simp only [kfork]
          split <;> exact hfn ⟨_, rfl⟩ rfl rfl rfl
      | _ => exact hfn ⟨_, rfl⟩ rfl rfl rfl
  | kexit pc status =>
      obtain ⟨p, -, he⟩ := Option.bind_eq_some_iff.1 hr
      cases pc <;> cases he <;> exact .of_none ⟨_, rfl⟩ rfl rfl rfl rfl rfl
  | reparent status rest =>
      obtain ⟨p, -, rfl⟩ := Option.map_eq_some_iff.1 hr
      cases rest with
      | nil => exact .of_none ⟨_, rfl⟩ rfl rfl rfl rfl rfl
      | cons pp rest =>
          simp only [reparent]
          split <;> exact ⟨Or.inl ⟨_, rfl⟩, fun _ => rfl, fun _ => rfl, fun _ _ => rfl, fun _ => rfl, by simp [Frame.fn]⟩
  | kwait addr =>
      obtain rfl := Option.some.inj hr
      exact .of_none ⟨_, rfl⟩ rfl rfl rfl rfl rfl
  | waitScan addr rest havekids =>
      obtain ⟨p, -, rfl⟩ := Option.map_eq_some_iff.1 hr
      cases rest <;> simp only [waitScan] <;> split <;> exact .of_none ⟨_, rfl⟩ rfl rfl rfl rfl rfl
  | waitChild addr q rest =>
      obtain ⟨p, -, rfl⟩ := Option.map_eq_some_iff.1 hr
      have hfn : ∀ {e : Effect L}, (∃ g, e.next = .top g) → e.op.target = none → e.fresh = none → e.cpuProc = none → e.ret = none →
          Rest (.waitChild addr q rest) e :=
        fun hn hop hfresh hcpu hret => ⟨Or.inl hn, fun _ => hop, fun _ => hfresh, fun _ _ => hcpu, fun _ => hret, by simp [Frame.fn]⟩
      unfold waitChild
      split
      · split <;> exact hfn ⟨_, rfl⟩ rfl rfl rfl rfl
      · exact hfn ⟨_, rfl⟩ rfl rfl rfl rfl
  | waitKilled addr =>
      obtain ⟨p, -, rfl⟩ := Option.map_eq_some_iff.1 hr
      exact .of_none ⟨_, rfl⟩ rfl rfl rfl rfl rfl
  | waitKilledAt addr =>
      obtain ⟨p, -, rfl⟩ := Option.map_eq_some_iff.1 hr
      exact .of_none ⟨_, rfl⟩ rfl rfl rfl rfl rfl
  | waitDone v =>
      obtain ⟨p, -, rfl⟩ := Option.map_eq_some_iff.1 hr
      exact ⟨Or.inl ⟨_, rfl⟩, fun _ => rfl, fun _ => rfl, fun _ _ => rfl, by simp [Frame.fn], fun _ => rfl⟩
  | scheduler rest =>
      obtain rfl := Option.some.inj hr
      cases rest <;> exact .of_none ⟨_, rfl⟩ rfl rfl rfl rfl rfl
  | schedAt p rest =>
      obtain rfl := Option.some.inj hr
      unfold schedAt
      split <;> exact ⟨Or.inl ⟨_, rfl⟩, fun _ => rfl, fun _ => rfl, by simp [Frame.fn], fun _ => rfl, fun _ => rfl⟩
  | schedSwtch p rest =>
      obtain rfl := Option.some.inj hr
      exact ⟨Or.inl ⟨_, rfl⟩, by simp [Frame.fn], fun _ => rfl, fun _ _ => rfl, fun _ => rfl, fun _ => rfl⟩
  | schedBack p rest =>
      obtain rfl := Option.some.inj hr
      exact ⟨Or.inl ⟨_, rfl⟩, fun _ => rfl, fun _ => rfl, by simp [Frame.fn], fun _ => rfl, fun _ => rfl⟩
  | schedDone p rest =>
      obtain rfl := Option.some.inj hr
      exact .of_none ⟨_, rfl⟩ rfl rfl rfl rfl rfl

theorem row_swtch (hr : row s c ok f = some e) {p : Slot} (hp : e.op = .swtch p) :
    ∃ rest, f = .schedSwtch p rest := by
  have hrest := (row_rest hr).swtch
  cases f with
  | schedSwtch p' rest =>
      obtain rfl := Option.some.inj hr
      cases hp
      exact ⟨rest, rfl⟩
  | _ =>
      have hnone := hrest (by simp [Frame.fn])
      rw [hp] at hnone
      cases hnone

theorem row_taken (hr : row s c ok f = some e) {p : Slot} (hp : e.cpuProc = some (some p)) :
    ∃ rest, f = .schedAt p rest ∧ (s.proc p).state = .RUNNABLE := by
  have hrest := (row_rest hr).cpuProc
  cases f with
  | schedAt p' rest =>
      obtain rfl := Option.some.inj hr
      unfold schedAt at hp
      split at hp
      · rename_i hstate
        cases hp
        exact ⟨rest, rfl, hstate⟩
      · cases hp
  | schedBack p' rest =>
      obtain rfl := Option.some.inj hr
      cases hp
  | _ =>
      rw [hrest (by simp [Frame.fn]) (by simp [Frame.fn])] at hp
      cases hp

theorem row_fresh (hr : row s c ok f = some e) {q : Slot} (hq : e.fresh = some q) :
    ∃ rest, f = .allocprocAt q rest ∧ (s.proc q).state = .UNUSED ∧
      e.upd = some (q, { s.proc q with pid := s.nextpid, state := .USED }) := by
  have hrest := (row_rest hr).fresh
  cases f with
  | allocprocAt q' rest =>
      obtain ⟨p, -, rfl⟩ := Option.map_eq_some_iff.1 hr
      unfold allocprocAt at hq ⊢
      split at hq
      · rename_i hunused
        cases hq
        rw [if_pos hunused]
        exact ⟨rest, rfl, hunused, rfl⟩
      · cases hq
  | _ =>
      rw [hrest (by simp [Frame.fn])] at hq
      cases hq

theorem row_wakeupAt (hr : row s c ok f = some e) {chan : Option Chan} {q : Slot} {rest : List Slot}
    {ret : WakeRet L} (hn : e.next = .top (.wakeupAt chan q rest ret)) :
    f = .wakeup chan (q :: rest) ret ∧ e.op = .acquire (.proc q) := by
  have hfn := row_fn hr hn
  cases f with
  | wakeup chan' rest' ret' =>
      obtain rfl := Option.some.inj hr
      cases rest' with
      | nil => cases ret' <;> cases hn
      | cons q' rest' =>
          simp only [wakeup] at hn ⊢
          split at hn
          · cases hn
          · rename_i hq
            cases hn
            rw [if_neg hq]
            exact ⟨rfl, rfl⟩
  | _ => simp [Frame.fn, Fn.next] at hfn

/-! ## Other code -/

variable [DecidableEq L] {t : State C L} {l : Label C L} {a : Act L} {locks : List (CondLock L)}

/-- Other code does nothing to a process. -/
structure Idle (e : Effect L) : Prop where
  upd : e.upd = none
  cpuProc : e.cpuProc = none
  fresh : e.fresh = none
  ret : e.ret = none
  swtch : e.op.target = none

theorem codeRow_idle (hr : codeRow s c locks a = some e) : Idle e ∧ ∃ g, e.next = .top g := by
  cases a with
  | acquire l =>
      obtain rfl := Option.some.inj hr
      exact ⟨⟨rfl, rfl, rfl, rfl, rfl⟩, _, rfl⟩
  | release l =>
      obtain rfl := Option.some.inj hr
      exact ⟨⟨rfl, rfl, rfl, rfl, rfl⟩, _, rfl⟩
  | sleep chan lk =>
      obtain ⟨-, ⟨⟩⟩ := Option.ite_none_right_eq_some.1 hr
      exact ⟨⟨rfl, rfl, rfl, rfl, rfl⟩, _, rfl⟩
  | wakeup chan =>
      obtain rfl := Option.some.inj hr
      exact ⟨⟨rfl, rfl, rfl, rfl, rfl⟩, _, rfl⟩
  | kfork =>
      obtain ⟨-, ⟨⟩⟩ := Option.ite_none_right_eq_some.1 hr
      exact ⟨⟨rfl, rfl, rfl, rfl, rfl⟩, _, rfl⟩
  | kexit status =>
      obtain ⟨-, he⟩ := Option.ite_none_right_eq_some.1 hr
      obtain ⟨p, -, he⟩ := Option.bind_eq_some_iff.1 he
      obtain ⟨-, ⟨⟩⟩ := Option.ite_none_left_eq_some.1 he
      exact ⟨⟨rfl, rfl, rfl, rfl, rfl⟩, _, rfl⟩
  | kwait addr =>
      obtain ⟨-, ⟨⟩⟩ := Option.ite_none_right_eq_some.1 hr
      exact ⟨⟨rfl, rfl, rfl, rfl, rfl⟩, _, rfl⟩
  | kkill pid =>
      obtain ⟨-, ⟨⟩⟩ := Option.ite_none_right_eq_some.1 hr
      exact ⟨⟨rfl, rfl, rfl, rfl, rfl⟩, _, rfl⟩
  | _ => cases hr

theorem intrRow_idle (hr : intrRow s c a = some e) : Idle e := by
  cases a with
  | intr =>
      obtain ⟨-, ⟨⟩⟩ := Option.ite_none_right_eq_some.1 hr
      exact ⟨rfl, rfl, rfl, rfl, rfl⟩
  | iret =>
      obtain ⟨-, ⟨⟩⟩ := Option.ite_none_right_eq_some.1 hr
      exact ⟨rfl, rfl, rfl, rfl, rfl⟩
  | timer =>
      obtain ⟨-, ⟨⟩⟩ := Option.ite_none_right_eq_some.1 hr
      exact ⟨rfl, rfl, rfl, rfl, rfl⟩
  | _ => cases hr

theorem intrRow_next (hr : intrRow s c a = some e) : e.op = .skip ∧ ((e.next = .pop ∧
    (s.current c).intr = some (.code [])) ∨ (s.current c).intr = none ∧ s.noff c = 0 ∧
    (e.next = .push (.code []) ∨ e.next = .push (.yield .lock))) := by
  cases a with
  | intr =>
      obtain ⟨⟨hi, hnoff⟩, ⟨⟩⟩ := Option.ite_none_right_eq_some.1 hr
      exact ⟨rfl, Or.inr ⟨hi, hnoff, Or.inl rfl⟩⟩
  | iret =>
      obtain ⟨hi, ⟨⟩⟩ := Option.ite_none_right_eq_some.1 hr
      exact ⟨rfl, Or.inl ⟨rfl, hi⟩⟩
  | timer =>
      obtain ⟨⟨hi, hnoff, -⟩, ⟨⟩⟩ := Option.ite_none_right_eq_some.1 hr
      exact ⟨rfl, Or.inr ⟨hi, hnoff, Or.inr rfl⟩⟩
  | _ => cases hr

/-- A system call is made by user code. -/
theorem codeRow_sys (hr : codeRow s c locks a = some e) {g : Frame L} (hn : e.next = .top g)
    (hg : g.sys = true) : (s.current c).intr = none ∧
    ((∃ rest, g = .allocproc rest) ∨ (∃ status, g = .kexit .waitLock status) ∨ ∃ addr, g = .kwait addr) := by
  cases a with
  | acquire l =>
      obtain rfl := Option.some.inj hr
      cases hn
      cases hg
  | release l =>
      obtain rfl := Option.some.inj hr
      cases hn
      cases hg
  | sleep chan lk =>
      obtain ⟨-, ⟨⟩⟩ := Option.ite_none_right_eq_some.1 hr
      cases hn
      cases hg
  | wakeup chan =>
      obtain rfl := Option.some.inj hr
      cases hn
      cases hg
  | kfork =>
      obtain ⟨⟨-, hi⟩, ⟨⟩⟩ := Option.ite_none_right_eq_some.1 hr
      cases hn
      exact ⟨hi, Or.inl ⟨_, rfl⟩⟩
  | kexit status =>
      obtain ⟨⟨-, hi⟩, he⟩ := Option.ite_none_right_eq_some.1 hr
      obtain ⟨p, -, he⟩ := Option.bind_eq_some_iff.1 he
      obtain ⟨-, ⟨⟩⟩ := Option.ite_none_left_eq_some.1 he
      cases hn
      exact ⟨hi, Or.inr (Or.inl ⟨_, rfl⟩)⟩
  | kwait addr =>
      obtain ⟨⟨-, hi⟩, ⟨⟩⟩ := Option.ite_none_right_eq_some.1 hr
      cases hn
      exact ⟨hi, Or.inr (Or.inr ⟨_, rfl⟩)⟩
  | kkill pid =>
      obtain ⟨-, ⟨⟩⟩ := Option.ite_none_right_eq_some.1 hr
      cases hn
      cases hg
  | _ => cases hr

/-- `sleep` and `wakeup` start from the beginning. -/
theorem codeRow_call (hr : codeRow s c locks a = some e) {g : Frame L} (hn : e.next = .top g) :
    g.fn ≠ .wakeupAt ∧ (∀ pc chan lk ret, g = .sleep pc chan lk ret → pc = .lock ∧ ret.sys = false) ∧
    ∀ chan rest ret, g = .wakeup chan rest ret → rest = allSlots ∧ ret.sys = false := by
  cases a with
  | acquire l =>
      obtain rfl := Option.some.inj hr
      cases hn
      exact ⟨by simp [Frame.fn], by simp, by simp⟩
  | release l =>
      obtain rfl := Option.some.inj hr
      cases hn
      exact ⟨by simp [Frame.fn], by simp, by simp⟩
  | sleep chan lk =>
      obtain ⟨-, ⟨⟩⟩ := Option.ite_none_right_eq_some.1 hr
      cases hn
      refine ⟨by simp [Frame.fn], ?_, by simp⟩
      intro pc chan' lk' ret hg
      cases hg
      exact ⟨rfl, rfl⟩
  | wakeup chan =>
      obtain rfl := Option.some.inj hr
      cases hn
      refine ⟨by simp [Frame.fn], by simp, ?_⟩
      intro chan' rest ret hg
      cases hg
      exact ⟨rfl, rfl⟩
  | kfork =>
      obtain ⟨-, ⟨⟩⟩ := Option.ite_none_right_eq_some.1 hr
      cases hn
      exact ⟨by simp [Frame.fn], by simp, by simp⟩
  | kexit status =>
      obtain ⟨-, he⟩ := Option.ite_none_right_eq_some.1 hr
      obtain ⟨p, -, he⟩ := Option.bind_eq_some_iff.1 he
      obtain ⟨-, ⟨⟩⟩ := Option.ite_none_left_eq_some.1 he
      cases hn
      exact ⟨by simp [Frame.fn], by simp, by simp⟩
  | kwait addr =>
      obtain ⟨-, ⟨⟩⟩ := Option.ite_none_right_eq_some.1 hr
      cases hn
      exact ⟨by simp [Frame.fn], by simp, by simp⟩
  | kkill pid =>
      obtain ⟨-, ⟨⟩⟩ := Option.ite_none_right_eq_some.1 hr
      cases hn
      exact ⟨by simp [Frame.fn], by simp, by simp⟩
  | _ => cases hr

/-! ## Steps -/

theorem effect_cases (h : effect s l = some e) : (∃ ok, row s l.cpu ok (s.top l.cpu) = some e) ∨
    (∃ locks, s.top l.cpu = .code locks ∧ codeRow s l.cpu locks l.act = some e) ∨
    intrRow s l.cpu l.act = some e := by
  obtain ⟨c, a⟩ := l
  cases a with
  | run ok => exact Or.inl ⟨ok, h⟩
  | intr => exact Or.inr (Or.inr h)
  | iret => exact Or.inr (Or.inr h)
  | timer => exact Or.inr (Or.inr h)
  | _ =>
      unfold effect at h
      simp only at h
      split at h
      · rename_i locks htop
        exact Or.inr (Or.inl ⟨locks, htop, h⟩)
      · cases h

theorem effect_upd (h : effect s l = some e) {q : Slot} {v : Proc} (hu : e.upd = some (q, v)) :
    Change s (s.cpuProc l.cpu) (s.top l.cpu) q v := by
  rcases effect_cases h with ⟨ok, hr⟩ | ⟨locks, -, hr⟩ | hr
  · exact row_upd hr hu
  · rw [(codeRow_idle hr).1.upd] at hu
    cases hu
  · rw [(intrRow_idle hr).upd] at hu
    cases hu

theorem effect_fresh (h : effect s l = some e) {q : Slot} (hq : e.fresh = some q) :
    ∃ rest, s.top l.cpu = .allocprocAt q rest ∧ (s.proc q).state = .UNUSED ∧
      e.upd = some (q, { s.proc q with pid := s.nextpid, state := .USED }) := by
  rcases effect_cases h with ⟨ok, hr⟩ | ⟨locks, -, hr⟩ | hr
  · exact row_fresh hr hq
  · rw [(codeRow_idle hr).1.fresh] at hq
    cases hq
  · rw [(intrRow_idle hr).fresh] at hq
    cases hq

theorem effect_swtch (h : effect s l = some e) {p : Slot} (hp : e.op = .swtch p) :
    ∃ rest, s.top l.cpu = .schedSwtch p rest := by
  rcases effect_cases h with ⟨ok, hr⟩ | ⟨locks, -, hr⟩ | hr
  · exact row_swtch hr hp
  · have hnone := (codeRow_idle hr).1.swtch
    rw [hp] at hnone
    cases hnone
  · have hnone := (intrRow_idle hr).swtch
    rw [hp] at hnone
    cases hnone

theorem effect_taken (h : effect s l = some e) {p : Slot} (hp : e.cpuProc = some (some p)) :
    ∃ rest, s.top l.cpu = .schedAt p rest ∧ (s.proc p).state = .RUNNABLE := by
  rcases effect_cases h with ⟨ok, hr⟩ | ⟨locks, -, hr⟩ | hr
  · exact row_taken hr hp
  · rw [(codeRow_idle hr).1.cpuProc] at hp
    cases hp
  · rw [(intrRow_idle hr).cpuProc] at hp
    cases hp

theorem intrRow_not_top (hr : intrRow s c a = some e) (g : Frame L) : e.next ≠ .top g := by
  rcases (intrRow_next hr).2 with ⟨hn, -⟩ | ⟨-, -, hn | hn⟩ <;> rw [hn] <;> simp

theorem effect_sys (h : effect s l = some e) {g : Frame L} (hn : e.next = .top g) (hg : g.sys = true) :
    (s.top l.cpu).sys = true ∨ (s.current l.cpu).intr = none := by
  rcases effect_cases h with ⟨ok, hr⟩ | ⟨locks, -, hr⟩ | hr
  · exact Or.inl (row_sys hr hn hg)
  · exact Or.inr (codeRow_sys hr hn hg).1
  · exact absurd hn (intrRow_not_top hr g)

/-- An interrupt comes with other code, or with `yield`. -/
theorem effect_push (h : effect s l = some e) {g : Frame L} (hn : e.next = .push g) :
    intrRow s l.cpu l.act = some e := by
  rcases effect_cases h with ⟨ok, hr⟩ | ⟨locks, -, hr⟩ | hr
  · rcases (row_rest hr).next with ⟨f, hf⟩ | ⟨-, hf⟩ <;> rw [hf] at hn <;> cases hn
  · obtain ⟨-, f, hf⟩ := codeRow_idle hr
    rw [hf] at hn
    cases hn
  · exact hr

variable [DecidableEq C]

theorem step_cases (h : step s l = some t) :
    s.panicked l.cpu = false ∧ ∃ e, effect s l = some e ∧ s.exec l.cpu e = some t := by
  unfold step at h
  cases hp : s.panicked l.cpu with
  | true =>
      rw [hp] at h
      cases h
  | false =>
      rw [hp] at h
      exact ⟨rfl, Option.bind_eq_some_iff.1 h⟩

/-- `t` is what an effect makes of `s` when the operation does not panic. -/
structure Executed (s : State C L) (c : C) (e : Effect L) (t : State C L) : Prop where
  proc : t.proc = e.table s.proc
  thread : t.thread = (s.commit c e).thread
  scheduler : t.scheduler = (s.commit c e).scheduler
  cpuProc : t.cpuProc = (s.commit c e).cpuProc
  ret : t.ret = (s.commit c e).ret
  log : t.log = s.log ++ e.event.toList
  /-- Locks are acquired by this operation only. -/
  holder : ∀ k c', t.holder k = some c' → s.holder k = some c' ∨ e.op = .acquire k ∧ c' = c
  acquired : ∀ k, e.op = .acquire k → t.holder k = some c
  released : ∀ k, e.op = .release k → t.holder k = none
  on : t.on = s.on ∨ (∃ p, e.op = .swtch p ∧ t.on = Function.update s.on c (some p)) ∨
    (s.on c).isSome ∧ e.op = .sched ∧ t.on = Function.update s.on c none

theorem exec_cases {c : C} (hx : s.exec c e = some t) : t = s.panic c ∨ Executed s c e t := by
  unfold State.exec at hx
  cases hop : e.op with
  | skip =>
      rw [hop] at hx
      obtain rfl := Option.some.inj hx
      exact Or.inr ⟨rfl, rfl, rfl, rfl, rfl, rfl, fun _ _ hk => Or.inl hk, by simp [hop], by simp [hop],
        Or.inl rfl⟩
  | acquire lk =>
      rw [hop] at hx
      cases hh : s.holder lk with
      | none =>
          simp only [hh, Option.some.injEq] at hx
          subst hx
          refine Or.inr ⟨rfl, rfl, rfl, rfl, rfl, rfl, fun k c' hk => ?_, ?_, by simp [hop], Or.inl rfl⟩
          · by_cases hlk : k = lk
            · subst hlk
              simp only [Function.update_self, Option.some.injEq] at hk
              exact Or.inr ⟨hop, hk.symm⟩
            · simp only [Function.update_of_ne hlk] at hk
              exact Or.inl hk
          · intro k hk
            rw [hop] at hk
            cases hk
            exact Function.update_self ..
      | some c' =>
          simp only [hh] at hx
          obtain ⟨-, ⟨⟩⟩ := Option.ite_none_right_eq_some.1 hx
          exact Or.inl rfl
  | release lk =>
      rw [hop] at hx
      by_cases hh : s.holder lk = some c
      · simp only [if_pos hh, Option.some.injEq] at hx
        subst hx
        refine Or.inr ⟨rfl, rfl, rfl, rfl, rfl, rfl, fun k c' hk => ?_, by simp [hop], ?_, Or.inl rfl⟩
        · by_cases hlk : k = lk
          · subst hlk
            simp only [Function.update_self] at hk
            cases hk
          · simp only [Function.update_of_ne hlk] at hk
            exact Or.inl hk
        · intro k hk
          rw [hop] at hk
          cases hk
          exact Function.update_self ..
      · simp only [if_neg hh, Option.some.injEq] at hx
        exact Or.inl hx.symm
  | swtch p =>
      rw [hop] at hx
      obtain rfl := Option.some.inj hx
      exact Or.inr ⟨rfl, rfl, rfl, rfl, rfl, rfl, fun _ _ hk => Or.inl hk, by simp [hop], by simp [hop],
        Or.inr (Or.inl ⟨p, hop, rfl⟩)⟩
  | sched =>
      rw [hop] at hx
      cases hon : s.on c with
      | none =>
          simp only [hon] at hx
          cases hx
      | some p =>
          simp only [hon] at hx
          split at hx
          · exact Or.inl (Option.some.inj hx).symm
          · obtain rfl := Option.some.inj hx
            exact Or.inr ⟨rfl, rfl, rfl, rfl, rfl, rfl, fun _ _ hk => Or.inl hk, by simp [hop], by simp [hop],
              Or.inr (Or.inr ⟨by rw [hon]; rfl, hop, rfl⟩)⟩

/-- A step of a CPU that does not panic. -/
theorem step_executed (h : step s l = some t) :
    t = s.panic l.cpu ∨ ∃ e, effect s l = some e ∧ Executed s l.cpu e t := by
  obtain ⟨-, e, he, hx⟩ := step_cases h
  rcases exec_cases hx with ht | ht
  · exact Or.inl ht
  · exact Or.inr ⟨e, he, ht⟩

end Xv6.Sched
