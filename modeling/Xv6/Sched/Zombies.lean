import Xv6.Sched.Children

set_option autoImplicit false

/-! # Zombies are waited for

Every step keeps what is known about children: nobody lifeless has a child, and a parent that waits for
a zombie is about to be woken up by the CPU that has `wait_lock`. -/

namespace Xv6.Sched

open Xv6.Lib
open Xv6.ProcTable (ProcState Chan Proc Table initproc freeproc)
open Effect

variable {C L : Type} {s t : State C L} {c : C} {e : Effect L} {l : Label C L} {p q : Slot}
  {f g : Frame L}

/-- What becomes of a slot by a step that its family notices. -/
inductive Turn (s : State C L) (p : Slot) : Frame L → Slot → Proc → Prop where
  | fork {q : Slot} {rest : List Slot} (hq : (s.proc q).state = .UNUSED) :
      Turn s p (.allocprocAt q rest) q { s.proc q with pid := s.nextpid, state := .USED }
  | noMem {np : Slot} {pid : BitVec 32} :
      Turn s p (.kfork .fill np pid) np (freeproc (s.proc np))
  | parent {np : Slot} {pid : BitVec 32} :
      Turn s p (.kfork .parent np pid) np { s.proc np with parent := some p }
  | run {np : Slot} {pid : BitVec 32} :
      Turn s p (.kfork .run np pid) np { s.proc np with state := .RUNNABLE }
  | reparent {pp : Slot} {status : BitVec 32} {rest : List Slot} (hpp : (s.proc pp).parent = some p) :
      Turn s p (.reparent status (pp :: rest)) pp { s.proc pp with parent := some initproc }
  | zombie {status : BitVec 32} :
      Turn s p (.kexit .zombie status) p { s.proc p with xstate := status, state := .ZOMBIE }
  | reap {addr : Uint64} {q : Slot} {rest : List Slot} (hq : (s.proc q).state = .ZOMBIE) :
      Turn s p (.waitChild addr q rest) q (freeproc (s.proc q))

theorem Deed.turn [DecidableEq L] {v : Proc} (hd : Deed s p f e) (hu : e.upd = some (q, v)) :
    Turn s p f q v := by
  cases hd with
  | fork hq =>
      rw [allocprocAt, if_pos hq] at hu
      cases hu
      exact .fork hq
  | noMem =>
      cases hu
      exact .noMem
  | parent =>
      cases hu
      exact .parent
  | run =>
      cases hu
      exact .run
  | reparent hpp =>
      rw [Sched.reparent, if_pos hpp] at hu
      cases hu
      exact .reparent hpp
  | zombie =>
      cases hu
      exact .zombie
  | reap hq hok =>
      rename_i addr q' rest ok
      have hcopy : ¬ (addr ≠ 0 ∧ ok = false) := by
        rintro ⟨haddr, hfalse⟩
        rw [hok haddr] at hfalse
        cases hfalse
      rw [waitChild, if_pos hq, if_neg hcopy] at hu
      cases hu
      exact .reap hq
  | exiting hp => cases hu

section Step

variable [DecidableEq C] [DecidableEq L]

omit [DecidableEq L] in
/-- A step that neither switches nor calls `sched`. -/
theorem Executed.top_next (hex : Executed s c e t) (hn : e.next = .top g) (htarget : e.op.target = none)
    (hsched : e.op ≠ .sched) : t.on c = s.on c ∧ t.top c = g := by
  have hon : t.on c = s.on c := by
    rcases hex.on with hon | ⟨q, hop, -⟩ | ⟨-, hop, -⟩
    · rw [hon]
    · rw [hop] at htarget
      cases htarget
    · exact absurd hop hsched
  refine ⟨hon, ?_⟩
  rw [hex.top_self hon, hn, Next.apply_top]

variable (h : Inv s) (hcalls : Calls s) (he : effect s l = some e) (hex : Executed s l.cpu e t)

include h hcalls he hex

theorem slot_cases (q : Slot) : Mild (s.proc q) (t.proc q) ∨ ∃ p f, s.on l.cpu = some p ∧
    s.top l.cpu = f ∧ s.thread p = ⟨f, none⟩ ∧ Deed s p f e ∧ Turn s p f q (t.proc q) := by
  rw [hex.proc]
  rcases effect_deed h hcalls he with hq | ⟨p, f, hon, htop, hthread, hd⟩
  · exact Or.inl (hq.table q)
  · rcases table_eq_or e s.proc q with hold | ⟨v, hu, hnew⟩
    · rw [hold]
      exact Or.inl (Mild.refl _)
    · rw [hnew]
      exact Or.inr ⟨p, f, hon, htop, hthread, hd, hd.turn hu⟩

/-- A process dies by its own `exit`. -/
theorem proc_lifeless_step (hq : Lifeless (t.proc q)) : Lifeless (s.proc q) ∨
    ∃ status, s.on l.cpu = some q ∧ s.top l.cpu = .kexit .zombie status := by
  rcases slot_cases h hcalls he hex q with hmild | ⟨p, f, hon, htop, hthread, -, hturn⟩
  · exact Or.inl (hmild.lifeless.1 hq)
  · generalize t.proc q = v at hq hturn
    cases hturn with
    | fork hunused => exact Or.inl (Or.inl hunused)
    | noMem =>
        have hchild := hcalls.child p .fill _ _ (congrArg Thread.base hthread)
        exact Or.inl (Or.inr (Or.inl hchild.1))
    | parent => exact Or.inl hq
    | run => rcases hq with hv | hv | hv <;> cases hv
    | reparent => exact Or.inl hq
    | zombie => exact Or.inr ⟨_, hon, htop⟩
    | reap hz => exact Or.inl (Or.inr (Or.inr hz))

theorem proc_used_step (hq : (t.proc q).state = .USED) : (s.proc q).state = .USED ∨
    ∃ p rest, s.on l.cpu = some p ∧ s.thread p = ⟨.allocprocAt q rest, none⟩ ∧
      (s.proc q).state = .UNUSED ∧ e = allocprocAt s p q rest := by
  rcases slot_cases h hcalls he hex q with hmild | ⟨p, f, hon, htop, hthread, hd, hturn⟩
  · exact Or.inl (hmild.used.1 hq)
  · generalize t.proc q = v at hq hturn
    cases hturn with
    | fork hunused =>
        cases hd
        exact Or.inr ⟨p, _, hon, hthread, hunused, rfl⟩
    | parent => exact Or.inl hq
    | reparent => exact Or.inl hq
    | _ => cases hq

theorem proc_zombie_step (hq : (t.proc q).state = .ZOMBIE) :
    ((s.proc q).state = .ZOMBIE ∧ (t.proc q).xstate = (s.proc q).xstate) ∨
    ∃ status, s.on l.cpu = some q ∧ s.thread q = ⟨.kexit .zombie status, none⟩ ∧
      (t.proc q).xstate = status ∧ e.next = .top (.kexit .unlock status) := by
  rcases slot_cases h hcalls he hex q with hmild | ⟨p, f, hon, htop, hthread, hd, hturn⟩
  · exact Or.inl ⟨hmild.zombie.1 hq, hmild.xstate⟩
  · generalize t.proc q = v at hq hturn
    cases hturn with
    | parent => exact Or.inl ⟨hq, rfl⟩
    | reparent => exact Or.inl ⟨hq, rfl⟩
    | zombie =>
        cases hd
        exact Or.inr ⟨_, hon, hthread, rfl, rfl⟩
    | _ => cases hq

/-- A process gets a child by its own `fork`, or `initproc` by the `exit` of another one. -/
theorem proc_parent_step (hq : (t.proc q).parent = some p) : (s.proc q).parent = some p ∨
    (s.on l.cpu = some p ∧ ∃ pid, s.top l.cpu = .kfork .parent q pid) ∨
    p = initproc ∧ ∃ p' status rest, s.on l.cpu = some p' ∧ s.top l.cpu = .reparent status (q :: rest) ∧
      (s.proc q).parent = some p' ∧ e = reparent s p' status (q :: rest) := by
  rcases slot_cases h hcalls he hex q with hmild | ⟨p', f, hon, htop, hthread, hd, hturn⟩
  · exact Or.inl (hmild.parent.symm.trans hq)
  · generalize t.proc q = v at hq hturn
    cases hturn with
    | parent =>
        obtain rfl := Option.some.inj hq
        exact Or.inr (Or.inl ⟨hon, _, htop⟩)
    | reparent hpp =>
        obtain rfl := Option.some.inj hq
        cases hd
        exact Or.inr (Or.inr ⟨rfl, p', _, _, hon, htop, hpp, rfl⟩)
    | noMem => cases hq
    | reap => cases hq
    | fork => exact Or.inl hq
    | run => exact Or.inl hq
    | zombie => exact Or.inl hq

/-! ## The invariant after a step -/

omit he hcalls hex [DecidableEq C] [DecidableEq L] in
theorem Inv.not_lifeless (hon : s.on c = some p) (hrun : (s.top c).state = .RUNNING) :
    ¬ Lifeless (s.proc p) := by
  have hstate := h.state c p hon
  rw [State.top, State.current_of_on hon] at hrun
  rw [Lifeless, hstate, hrun]
  simp

omit h hcalls he hex [DecidableEq C] [DecidableEq L] in
/-- The steps of `kfork` that change no slot stay in it. -/
theorem row_forker {ok : Bool} {pc : ForkPc} {np : Slot} {pid : BitVec 32}
    (hr : row s c ok (.kfork pc np pid) = some e) (hn : e.next = .top g) :
    (∃ pc', g = .kfork pc' np pid) ∨ ∃ v, e.upd = some (np, v) ∧ v.state ≠ .USED := by
  obtain ⟨p, -, rfl⟩ := Option.map_eq_some_iff.1 hr
  cases pc with
  | fill =>
      cases ok with
      | true =>
          cases hn
          exact Or.inl ⟨_, rfl⟩
      | false => exact Or.inr ⟨_, rfl, by simp [freeproc]⟩
  | run => exact Or.inr ⟨_, rfl, by simp⟩
  | _ =>
      cases hn
      exact Or.inl ⟨_, rfl⟩

theorem Kids.forker_step (hk : Kids s) {pc : ForkPc} {np : Slot} {pid : BitVec 32}
    (hb : (t.thread p).base = .kfork pc np pid) : ¬ Lifeless (t.proc p) := by
  have hold : ¬ Lifeless (s.proc p) := by
    rcases hex.base_cases p with hsame | ⟨g, hon, hn, hthread, hg⟩ | ⟨-, hnew⟩
    · exact hk.forker p pc np pid (hsame.symm.trans hb)
    · rw [hb] at hg
      subst hg
      refine h.not_lifeless hon ?_
      rcases effect_cases he with ⟨ok, hr⟩ | ⟨locks, -, hr⟩ | hr
      · rcases row_kfork hr hn with ⟨rest, htop, -⟩ | ⟨pc', htop, -⟩
        · rw [htop]
          rfl
        · rw [htop]
          rfl
      · rcases (codeRow_sys hr hn rfl).2 with ⟨_, hg⟩ | ⟨_, hg⟩ | ⟨_, hg⟩ <;> cases hg
      · exact absurd hn (intrRow_not_top hr _)
    · rw [hnew] at hb
      cases hb
  intro hlife
  rcases proc_lifeless_step h hcalls he hex hlife with hs | ⟨status, hon, htop⟩
  · exact hold hs
  · -- it is in `exit`
    have hb' : (s.thread p).base = .kexit .zombie status := hcalls.base_of_on hon htop rfl
    rcases hex.base_cases p with hsame | ⟨g, -, hn, -, hg⟩ | ⟨hfresh, -⟩
    · rw [hsame, hb'] at hb
      cases hb
    · rcases effect_cases he with ⟨ok, hr⟩ | ⟨locks, hcode, -⟩ | hr
      · have hexit := row_exit hr hn
        rw [← hg, hb, htop] at hexit
        cases hexit
      · rw [htop] at hcode
        cases hcode
      · exact absurd hn (intrRow_not_top hr _)
    · exact h.not_fresh he hon hfresh

theorem Kids.used_step (hk : Kids s) (hq : (t.proc q).state = .USED) : (t.thread q).base = .forkret ∧
    ∃ p pc pid, (t.thread p).base = .kfork pc q pid := by
  rcases proc_used_step h hcalls he hex hq with hold | ⟨p, rest, hon, hthread, hunused, rfl⟩
  · obtain ⟨hbase, p, pc, pid, hfork⟩ := hk.used q hold
    have hoff : ∀ c, s.on c ≠ some q := by
      intro c hc
      have hstate := h.state c q hc
      rw [hold] at hstate
      exact (Frame.state_alive _).2 hstate.symm
    refine ⟨?_, p, ?_⟩
    · rcases hex.base_cases q with hsame | ⟨_, hon, -⟩ | ⟨hfresh, -⟩
      · exact hsame.trans hbase
      · exact absurd hon (hoff _)
      · obtain ⟨-, -, hunused, -⟩ := effect_fresh he hfresh
        rw [hold] at hunused
        cases hunused
    · rcases hex.base_cases p with hsame | ⟨g, hon, hn, hthread, hg⟩ | ⟨hfresh, -⟩
      · exact ⟨pc, pid, hsame.trans hfork⟩
      · have htop : s.top l.cpu = .kfork pc q pid := by
          rw [hthread] at hfork
          exact hfork
        rcases effect_cases he with ⟨ok, hr⟩ | ⟨locks, hcode, -⟩ | hr
        · rw [htop] at hr
          rcases row_forker hr hn with ⟨pc', rfl⟩ | ⟨v, hu, hv⟩
          · exact ⟨pc', pid, hg⟩
          · rw [hex.proc, table_of_upd hu] at hq
            exact absurd hq hv
        · rw [htop] at hcode
          cases hcode
        · exact absurd hn (intrRow_not_top hr _)
      · obtain ⟨-, -, hunused, -⟩ := effect_fresh he hfresh
        exact absurd (Or.inl hunused) (hk.forker p pc q pid hfork)
  · -- the slot has just been taken
    have hne : s.on l.cpu ≠ some q := by
      intro hc
      have hstate := h.state l.cpu q hc
      rw [hunused] at hstate
      exact (Frame.state_alive _).1 hstate.symm
    have hfresh : (allocprocAt (L := L) s p q rest).fresh = some q := by
      rw [allocprocAt, if_pos hunused]
    have hnext : (allocprocAt (L := L) s p q rest).next = .top (.kfork .fill q s.nextpid) := by
      rw [allocprocAt, if_pos hunused]
      rfl
    refine ⟨?_, p, .fill, s.nextpid, ?_⟩
    · rw [hex.thread, commit_thread, if_neg hne, if_pos hfresh]
    · rw [hex.thread_self hon, hnext, hthread]
      rfl

theorem Kids.zombie_step (hk : Kids s) (hq : (t.proc q).state = .ZOMBIE) :
    (t.thread q).base.exit = some (t.proc q).xstate := by
  rcases proc_zombie_step h hcalls he hex hq with ⟨hold, hx⟩ | ⟨status, hon, hthread, hx, hn⟩
  · have hexit := hk.zombie q hold
    rw [hx, ← hexit]
    rcases hex.base_cases q with hsame | ⟨g, hon, hn, hthread, hg⟩ | ⟨hfresh, -⟩
    · rw [hsame]
    · rw [hg, hthread]
      rcases effect_cases he with ⟨ok, hr⟩ | ⟨locks, hcode, -⟩ | hr
      · exact row_exit hr hn
      · rw [hthread, hcode] at hexit
        cases hexit
      · exact absurd hn (intrRow_not_top hr _)
    · obtain ⟨-, -, hunused, -⟩ := effect_fresh he hfresh
      rw [hold] at hunused
      cases hunused
  · rw [hx, hex.thread_self hon, hn, hthread]
    rfl

theorem Kids.childless_step (hk : Kids s) (hp : Lifeless (t.proc p)) : Within t p [] := by
  intro q hparent
  exfalso
  rcases proc_parent_step h hcalls he hex hparent with hold | ⟨hon, pid, htop⟩ | ⟨rfl, p', status, rest, hon, htop, -⟩
  · rcases proc_lifeless_step h hcalls he hex hp with hlife | ⟨status, hon, htop⟩
    · cases hk.childless p hlife q hold
    · have hknows := hk.knows l.cpu p hon
      rw [htop] at hknows
      cases hknows.1 q hold
  · rcases proc_lifeless_step h hcalls he hex hp with hlife | ⟨status, -, htop'⟩
    · exact h.not_lifeless hon (by rw [htop]; rfl) hlife
    · rw [htop] at htop'
      cases htop'
  · rcases proc_lifeless_step h hcalls he hex hp with hlife | ⟨status, -, htop'⟩
    · exact hk.init.1 hlife
    · rw [htop] at htop'
      cases htop'

theorem Kids.init_step (hk : Kids s) : ¬ Lifeless (t.proc initproc) ∧
    (t.thread initproc).base.exit = none := by
  constructor
  · intro hlife
    rcases proc_lifeless_step h hcalls he hex hlife with hold | ⟨status, hon, htop⟩
    · exact hk.init.1 hold
    · have hexit := hk.init.2
      rw [hcalls.base_of_on hon htop rfl] at hexit
      cases hexit
  · rcases hex.base_cases initproc with hsame | ⟨g, hon, hn, hthread, hg⟩ | ⟨hfresh, -⟩
    · rw [hsame]
      exact hk.init.2
    · have hexit := hk.init.2
      rw [hthread] at hexit
      rw [hg]
      rcases effect_cases he with ⟨ok, hr⟩ | ⟨locks, htop, hr⟩ | hr
      · rw [row_exit hr hn]
        exact hexit
      · rcases codeRow_deed h htop hr with ⟨-, hnone⟩ | ⟨p, hon', hlocks, -, hd⟩
        · exact hnone g hn
        · subst hlocks
          cases hd with
          | exiting hp =>
              rw [hon] at hon'
              exact absurd (Option.some.inj hon').symm hp
      · exact absurd hn (intrRow_not_top hr _)
    · obtain ⟨-, -, hunused, -⟩ := effect_fresh he hfresh
      exact absurd (Or.inl hunused) hk.init.1

variable (hs : Sleepers s) (ht : Inv t)

include hs ht

theorem Kids.knows_step (hk : Kids s) {c : C} (hon : t.on c = some p) : Knows t p (t.top c) := by
  by_cases hlk : .cond .waitLock ∈ t.held c
  · have hholder : t.holder (.cond .waitLock) = some c := (ht.locks.mem _ _).2 hlk
    by_cases hc : c = l.cpu
    · subst hc
      obtain ⟨hself, g, hn, hg⟩ := h.holder_next ht he hex hholder
      have hon' : s.on l.cpu = some p := hself.symm.trans hon
      rw [hg]
      rcases effect_cases he with ⟨ok, hr⟩ | ⟨locks, -, hr⟩ | hr
      · refine hk.knows_row h he hex hs hon' rfl hr hn (fun hsys => hcalls.base_of_on hon' rfl hsys) fun hin => ?_
        refine (h.locks.mem _ _).2 ?_
        rw [State.held, hon']
        exact hin
      · exact codeRow_knows hr hn
      · exact absurd hn (intrRow_not_top hr _)
    · -- the others leave families alone while this CPU has `wait_lock`
      have htop := hex.top_of_ne h he hc
      have hon' : s.on c = some p := (hex.on_of_ne hc).symm.trans hon
      have hheld : .cond .waitLock ∈ s.held c := by
        rw [State.held, htop, hon] at hlk
        rw [State.held, hon']
        exact hlk
      have hfree : s.holder (.cond .waitLock) ≠ some l.cpu := by
        rw [(h.locks.mem _ _).2 hheld]
        exact fun heq => hc (Option.some.inj heq)
      have hstep := hcalls.free_step h he hex hfree
      rw [htop]
      refine Knows.mono (fun q => (hstep q).1) (fun q => (hstep q).2) (fun r hw => ?_) (hk.knows c p hon')
      rcases hs.waiting_step h he hex hw with hold | ⟨addr, hr, hrel, -⟩
      · exact hold
      · exact absurd (by simp [Frame.holds, SleepRet.held]) (h.lock_free hfree hr hrel)
  · refine knows_of_free ?_
    rw [State.held, hon] at hlk
    exact hlk

omit hcalls in
/-- A `wakeup` goes on while it has not been through the table. -/
theorem Kids.scan_step {c : C} {rest : List Slot} (hscan : (s.top c).scan = some (some (.proc p), rest))
    (hholder : s.holder (.cond .waitLock) = some c) (hw : Waiting s p) :
    ∃ c rest, (t.top c).scan = some (some (.proc p), rest) ∧ t.holder (.cond .waitLock) = some c := by
  have hheld : .cond .waitLock ∈ s.held c := (h.locks.mem _ _).1 hholder
  by_cases hc : c = l.cpu
  · subst hc
    have hrest : p ∈ rest := hs.scan _ _ rest _ hscan hholder p hw.pending
    have hgoes : ∀ {chan rest' ret}, e.next = .top (.wakeup (some chan) rest' ret) → chan = .proc p →
        .cond .waitLock ∈ ret.held → e.op.target = none → e.op ≠ .sched →
        ∃ c rest, (t.top c).scan = some (some (.proc p), rest) ∧ t.holder (.cond .waitLock) = some c := by
      rintro chan rest' ret hn rfl hret htarget hsched
      obtain ⟨-, htop⟩ := hex.top_next hn htarget hsched
      refine ⟨l.cpu, rest', by rw [htop]; rfl, (ht.locks.mem _ _).2 ?_⟩
      rw [State.held, htop]
      exact hret
    generalize htop : s.top l.cpu = f at hscan
    have hne : f.holds (s.on l.cpu) ≠ [] := by
      rw [State.held, htop] at hheld
      exact List.ne_nil_of_mem hheld
    cases f with
    | wakeup chan rest' ret =>
        cases hscan
        rw [State.held, htop] at hheld
        obtain ⟨ok, hr⟩ := h.row_of_held he htop (by simp [Frame.fn]) hne
        obtain rfl := Option.some.inj hr
        cases rest with
        | nil => cases hrest
        | cons q rest =>
            rw [wakeup] at hgoes hex
            by_cases hq : s.cpuProc l.cpu = some q
            · rw [if_pos hq] at hgoes
              exact hgoes rfl rfl hheld rfl (by simp [goto, of])
            · rw [if_neg hq] at hex
              obtain ⟨-, htop'⟩ := hex.top_next rfl rfl (by simp [acquire, of])
              refine ⟨l.cpu, q :: rest, by rw [htop']; rfl, (ht.locks.mem _ _).2 ?_⟩
              rw [State.held, htop']
              exact List.mem_cons_of_mem _ hheld
    | wakeupAt chan q rest' ret =>
        cases hscan
        rw [State.held, htop] at hheld
        have hret : .cond .waitLock ∈ ret.held := by
          rcases List.mem_cons.1 hheld with heq | hin
          · cases heq
          · exact hin
        obtain ⟨ok, hr⟩ := h.row_of_held he htop (by simp [Frame.fn]) hne
        obtain rfl := Option.some.inj hr
        unfold wakeupAt at hgoes
        split at hgoes
        · exact hgoes rfl rfl hret rfl (by simp [release, of, Effect.set])
        · exact hgoes rfl rfl hret rfl (by simp [release, of])
    | _ => cases hscan
  · have htop := hex.top_of_ne h he hc
    refine ⟨c, rest, by rw [htop, hscan], (ht.locks.mem _ _).2 ?_⟩
    rw [State.held, htop, hex.on_of_ne hc]
    exact hheld

theorem Kids.waiting_step (hk : Kids s) (hw : Waiting t p) (hparent : (t.proc q).parent = some p)
    (hz : (t.proc q).state = .ZOMBIE) :
    ∃ c rest, (t.top c).scan = some (some (.proc p), rest) ∧ t.holder (.cond .waitLock) = some c := by
  rcases hs.waiting_step h he hex hw with hold | ⟨addr, hon, htop, -⟩
  · rcases proc_parent_step h hcalls he hex hparent with hpar | ⟨hon, pid, htop⟩ |
      ⟨rfl, p', status, rest, hon, htop, hpar, rfl⟩
    · rcases proc_zombie_step h hcalls he hex hz with ⟨hzs, -⟩ | ⟨status, hon, hthread, -⟩
      · obtain ⟨c, rest, hscan, hholder⟩ := hk.waiting p q hold hpar hzs
        exact scan_step h he hex hs ht hscan hholder hold
      · -- its parent has been woken up
        have hknows := hk.knows l.cpu q hon
        rw [State.top, State.current_of_on hon, hthread] at hknows
        exact absurd hold (hknows.2 p hpar)
    · exfalso
      have hused := (hcalls.child p _ _ _ (hcalls.base_of_on hon htop rfl)).1
      rcases proc_zombie_step h hcalls he hex hz with ⟨hzs, -⟩ | ⟨status, hon', hthread, -⟩
      · rw [hused] at hzs
        cases hzs
      · have hstate := h.state l.cpu q hon'
        rw [hused] at hstate
        exact (Frame.state_alive _).2 hstate.symm
    · -- its new parent is about to be woken up
      rw [Sched.reparent, if_pos hpar] at hex
      obtain ⟨-, htop'⟩ := hex.top_next rfl rfl (by simp [goto, of, Effect.set, note])
      refine ⟨l.cpu, allSlots, by rw [htop']; rfl, (ht.locks.mem _ _).2 ?_⟩
      rw [State.held, htop']
      exact List.mem_singleton_self _
  · -- it has looked at all its children
    exfalso
    have hknows := hk.knows l.cpu p hon
    rw [htop] at hknows
    have hpar : (s.proc q).parent = some p := by
      rcases proc_parent_step h hcalls he hex hparent with hpar | ⟨-, pid, htop'⟩ | ⟨-, _, _, _, -, htop', -⟩
      · exact hpar
      · rw [htop] at htop'
        cases htop'
      · rw [htop] at htop'
        cases htop'
    have hzs : (s.proc q).state = .ZOMBIE := by
      rcases proc_zombie_step h hcalls he hex hz with ⟨hzs, -⟩ | ⟨status, hon', hthread, -⟩
      · exact hzs
      · rw [State.top, State.current_of_on hon', hthread] at htop
        cases htop
    cases hknows q hpar hzs

theorem Kids.executed (hk : Kids s) : Kids t where
  forker _ _ _ _ hb := hk.forker_step h hcalls he hex hb
  used _ hq := hk.used_step h hcalls he hex hq
  zombie _ hq := hk.zombie_step h hcalls he hex hq
  childless _ hp := hk.childless_step h hcalls he hex hp
  init := hk.init_step h hcalls he hex
  knows _ _ hon := hk.knows_step h hcalls he hex hs ht hon
  waiting _ _ hw hparent hz := hk.waiting_step h hcalls he hex hs ht hw hparent hz

end Step

variable [DecidableEq C] [DecidableEq L]

theorem Kids.step (hk : Kids s) (h : Inv s) (hcalls : Calls s) (hs : Sleepers s)
    (hstep : Sched.step s l = some t) : Kids t := by
  rcases step_executed hstep with rfl | ⟨e, he, hex⟩
  · exact ⟨hk.forker, hk.used, hk.zombie, hk.childless, hk.init, hk.knows, hk.waiting⟩
  · exact hk.executed h hcalls he hex hs (h.step hcalls hstep)

omit [DecidableEq C] [DecidableEq L] in
theorem boot_proc (p : Slot) : (boot C L).proc p =
    if p = initproc then { Proc.zero with pid := 1, state := .RUNNABLE } else Proc.zero :=
  Function.update_apply (fun _ => Proc.zero) initproc { Proc.zero with pid := 1, state := .RUNNABLE } p

omit [DecidableEq C] [DecidableEq L] in
theorem Kids.boot : Kids (Sched.boot C L) := by
  have hproc := boot_proc (C := C) (L := L)
  constructor
  case forker =>
    exact fun p pc np pid hb => by cases hb
  case used =>
    intro q hq
    rw [hproc] at hq
    split at hq <;> cases hq
  case zombie =>
    intro q hq
    rw [hproc] at hq
    split at hq <;> cases hq
  case childless =>
    intro p _ q hq
    rw [hproc] at hq
    split at hq <;> cases hq
  case init =>
    refine ⟨?_, rfl⟩
    rw [hproc, if_pos rfl, Lifeless]
    simp
  case knows =>
    exact fun c p hon => by cases hon
  case waiting =>
    intro p q hw hq
    rw [hproc] at hq
    split at hq <;> cases hq

end Xv6.Sched
