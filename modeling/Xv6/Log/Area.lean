import Xv6.Log.GroupCommitProof
import Xv6.Log.Redo

set_option autoImplicit false

/-! # The log on the disk

Where `write_log` and `write_head` write. `fsinit` looks at the magic number only, and nothing looks at
`sb.nlog`; the header and the blocks of a commit lie in the log as long as there are no more of them
than that. `write_head` is also called once at every boot, when `initlog` has recovered. -/

namespace Xv6.GroupCommit

open Xv6.Lib
open Xv6.Log (logBlock LogM Mem Disk)

/-- What `fsinit` and `initlog` read of `struct superblock`, and the size of the log. -/
structure Superblock where
  magic : Uint
  nlog : Uint
  logstart : Uint

def FSMAGIC : Uint := 0x10203040

/-- What a boot makes of the log: `log.start`, and the blocks that `write_head` has written. -/
structure Boot where
  start : Uint
  writes : List Uint
  deriving DecidableEq

/-- `initlog`, whose `recover_from_log` ends with a call of `write_head`. -/
def initlog (sb : Superblock) : Boot := ⟨sb.logstart, [sb.logstart]⟩

/-- `fsinit` up to `initlog`, unless it panics. -/
def fsinit (sb : Superblock) : Option Boot := if sb.magic ≠ FSMAGIC then none else some (initlog sb)

/-- `b` is a block of the log. -/
def Superblock.InLog (sb : Superblock) (b : Uint) : Prop :=
  sb.logstart.toNat ≤ b.toNat ∧ b.toNat < sb.logstart.toNat + sb.nlog.toNat

/-- The header and `n` more blocks fit into the log, which does not go beyond the last block number. -/
def Superblock.Fits (sb : Superblock) (n : Nat) : Prop :=
  n + 1 ≤ sb.nlog.toNat ∧ sb.logstart.toNat + n < 2 ^ 32

instance (sb : Superblock) (b : Uint) : Decidable (sb.InLog b) := inferInstanceAs (Decidable (_ ∧ _))

instance (sb : Superblock) (n : Nat) : Decidable (sb.Fits n) := inferInstanceAs (Decidable (_ ∧ _))

/-- What a round of `write_log` or a call of `write_head` writes. -/
def CommitPc.writes (start : Uint) (lh : List Uint) : CommitPc → List Uint
  | .writeLog tail _ => if tail < lh.length then [logBlock start tail] else []
  | .writeHead _ => [start]
  | .erase => [start]
  | _ => []

/-- The part of `commit` that a step is, where it writes to the log. -/
def CommitPc.program (start : Uint) (lh : List Uint) : CommitPc → LogM Unit
  | .writeLog tail _ => if tail < lh.length then Log.logOneBlock start tail else pure ()
  | .writeHead _ => Log.writeHead start
  | .erase => do Log.setLh []; Log.writeHead start
  | _ => pure ()

variable {Pid : Type}

def Pc.writes (start : Uint) (lh : List Uint) : Pc → List Uint
  | .committing c => c.writes start lh
  | _ => []

/-- The step writes to blocks of the log only. -/
def WritesLog (sb : Superblock) (start : Uint) (s : State Pid) : Label Pid → Prop
  | .commit p => ∀ b ∈ (s.pc p).writes start s.lh, sb.InLog b
  | _ => True

/-- A commit begins with a header that fits into the log. -/
def CommitFits (sb : Superblock) (s : State Pid) : Label Pid → Prop
  | .commit p => (s.pc p).commitPc? = some .test → s.lh.length > 0 → sb.Fits s.lh.length
  | _ => True

/-! ## The programs that write -/

theorem update_of_not_mem (d : Disk) {a b : Uint} {data : Log.Block} (hb : b ∉ [a]) :
    Function.update d a data b = d b :=
  Function.update_of_ne (fun heq => hb (List.mem_singleton.2 heq)) ..

/-- What a step writes is what the program behind it changes. -/
theorem CommitPc.program_writes (start : Uint) (lh : List Uint) (c : CommitPc) (m : Mem) (d d' : Disk)
    (h : d' ∈ (c.program start lh m d).trace) {b : Uint} (hb : b ∉ c.writes start lh) : d' b = d b := by
  cases c with
  | writeLog tail copied =>
      simp only [program, writes] at h hb
      split at h
      case isTrue htail =>
        rw [if_pos htail] at hb
        obtain rfl := List.mem_singleton.1 h
        exact update_of_not_mem d hb
      case isFalse => cases h
  | writeHead copied =>
      obtain rfl := List.mem_singleton.1 h
      exact update_of_not_mem d hb
  | erase =>
      obtain rfl := List.mem_singleton.1 h
      exact update_of_not_mem d hb
  | test => cases h
  | install tail home => cases h
  | finish => cases h

/-- Nothing but the blocks of `A` has been written since the disk was `d₀`. -/
def Only (A : Uint → Prop) (d₀ d : Disk) : Prop := ∀ b, ¬ A b → d b = d₀ b

theorem triple_bwrite_only (A : Uint → Prop) (d₀ : Disk) (P : Mem → Prop) {b : Uint} (hb : A b) :
    Durable.Triple (fun m d => P m ∧ Only A d₀ d) (Log.bwrite b) (fun _ m d => P m ∧ Only A d₀ d)
      (Only A d₀) := by
  have hkeep : ∀ m d, P m ∧ Only A d₀ d → Only A d₀ (Function.update d b (m.read d b)) :=
    fun m d h x hx => by
      have hne : x ≠ b := fun heq => hx (heq.symm ▸ hb)
      exact (Function.update_of_ne hne ..).trans (h.2 x hx)
  exact Durable.Triple.write (fun m d h => ⟨h.1, hkeep m d h⟩) hkeep

/-- `recover_from_log` writes the home blocks that the header names, from `install_trans`, and the block
    that the last call of `write_head` writes. -/
theorem recoverFromLog_writes (sb : Superblock) (m : Mem) (d d' : Disk)
    (h : d' ∈ (Log.recoverFromLog (initlog sb).start m d).trace) {b : Uint}
    (hb : b ∉ (initlog sb).writes) (hhome : b ∉ Log.decodeHead (m.read d sb.logstart)) :
    d' b = d b := by
  let lh := Log.decodeHead (m.read d sb.logstart)
  let A : Uint → Prop := fun x => x ∈ (initlog sb).writes ∨ x ∈ lh
  have hhead : Durable.Triple (fun m' d' => m' = m ∧ d' = d) (Log.readHead sb.logstart)
      (fun _ m' d' => m'.lh = lh ∧ Only A d d') (Only A d) := by
    rintro m' d' ⟨rfl, rfl⟩
    exact ⟨⟨rfl, fun _ _ => rfl⟩, fun _ hmem => by cases hmem⟩
  have hround : ∀ tail < lh.length, Durable.Triple (fun m' d' => m'.lh = lh ∧ Only A d d')
      (Log.installBlock sb.logstart tail) (fun _ m' d' => m'.lh = lh ∧ Only A d d') (Only A d) := by
    rintro tail htail m' d₁ ⟨hlh, honly⟩
    have hmem : m'.lh.getD tail 0 ∈ lh := by
      rw [hlh, List.getD_eq_getElem?_getD, List.getElem?_eq_getElem htail]
      exact List.getElem_mem htail
    have hkeep := triple_bwrite_only A d (fun m => m.lh = lh) (b := m'.lh.getD tail 0) (.inr hmem)
    exact hkeep _ d₁ ⟨hlh, honly⟩
  have hinstall : Durable.Triple (fun m' d' => m'.lh = lh ∧ Only A d d')
      (Log.installTrans sb.logstart) (fun _ m' d' => m'.lh = lh ∧ Only A d d') (Only A d) := by
    rintro m' d₁ ⟨hlh, honly⟩
    have hloop := Durable.Triple.upto (I := fun _ (m' : Mem) d' => m'.lh = lh ∧ Only A d d') lh.length hround
    have hrun : Log.installTrans sb.logstart m' d₁ =
        Durable.upto (Log.installBlock sb.logstart) m'.lh.length m' d₁ := rfl
    have hdur : (Log.installTrans sb.logstart).dur m' d₁ =
        (Durable.upto (Log.installBlock sb.logstart) m'.lh.length).dur m' d₁ := rfl
    rw [hdur, hrun, hlh]
    exact hloop m' d₁ ⟨hlh, honly⟩
  have hclear : Durable.Triple (fun m' d' => m'.lh = lh ∧ Only A d d')
      (do Log.setLh []; Log.writeHead sb.logstart) (fun _ _ d' => Only A d d') (Only A d) := by
    rintro m' d₁ ⟨-, honly⟩
    have hkeep := triple_bwrite_only A d (fun _ => True) (b := sb.logstart) (.inl (List.mem_singleton_self _))
    obtain ⟨⟨-, hlast⟩, htrace⟩ := hkeep _ d₁ ⟨trivial, honly⟩
    exact ⟨hlast, htrace⟩
  have hall := (hhead.bind fun _ => hinstall.bind fun _ => hclear) m d ⟨rfl, rfl⟩
  exact hall.2 d' h b fun hx => hx.elim hb hhome

/-! ## Block numbers -/

variable {sb : Superblock} {n k : Nat}

theorem toNat_logBlock (h : sb.logstart.toNat + k + 1 < 2 ^ 32) :
    (logBlock sb.logstart k).toNat = sb.logstart.toNat + k + 1 := by
  unfold logBlock
  rw [BitVec.toNat_add, BitVec.toNat_add, BitVec.toNat_ofNat]
  have hone : (1 : BitVec 32).toNat = 1 := rfl
  rw [hone]
  omega

theorem Superblock.Fits.inLog_start (h : sb.Fits n) : sb.InLog sb.logstart := by
  have := h.1
  exact ⟨Nat.le_refl _, by omega⟩

theorem Superblock.Fits.inLog (h : sb.Fits n) (hk : k < n) : sb.InLog (logBlock sb.logstart k) := by
  obtain ⟨hn, hlt⟩ := h
  unfold Superblock.InLog
  rw [toNat_logBlock (by omega)]
  omega

/-- A header all of whose blocks are in the log fits into it. By induction on their number, which keeps
    the sum below the last block number. -/
theorem fits_of_inLog (hn : n ≤ LOGBLOCKS) (hstart : sb.InLog sb.logstart)
    (hlog : ∀ k < n, sb.InLog (logBlock sb.logstart k)) : sb.Fits n := by
  have hbound : LOGBLOCKS = 30 := rfl
  induction n with
  | zero =>
      have := sb.logstart.isLt
      exact ⟨by have := hstart.2; omega, by omega⟩
  | succ n ih =>
      obtain ⟨-, hlt⟩ := ih (by omega) fun k hk => hlog k (by omega)
      obtain ⟨hlo, hhi⟩ := hlog n (Nat.lt_succ_self n)
      have hsum : (logBlock sb.logstart n).toNat = (sb.logstart.toNat + n + 1) % 2 ^ 32 := by
        unfold logBlock
        rw [BitVec.toNat_add, BitVec.toNat_add, BitVec.toNat_ofNat]
        have hone : (1 : BitVec 32).toNat = 1 := rfl
        rw [hone]
        omega
      unfold Superblock.Fits
      omega

/-! ## Steps -/

variable [DecidableEq Pid] {s t : State Pid} {l : Label Pid} {p : Pid} {c : CommitPc}

omit [DecidableEq Pid] in
theorem length_absorb_le (b : Uint) (lh : List Uint) : (absorb b lh).length ≤ lh.length + 1 := by
  induction lh with
  | nil => exact Nat.le_refl _
  | cons b' bs ih =>
      simp only [absorb]
      split
      · exact Nat.le_succ _
      · exact Nat.succ_le_succ ih

/-- A commit is one process's, and goes on with the header that it has begun with. -/
structure Idle (s t : State Pid) : Prop where
  commits : t.commits = s.commits
  length : s.lh.length ≤ LOGBLOCKS → t.lh.length ≤ LOGBLOCKS
  pcs : ∀ q c, (t.pc q).commitPc? = some c → c = .test ∨ (s.pc q).commitPc? = some c ∧ t.lh = s.lh

omit [DecidableEq Pid] in
/-- What else a state contains does not matter. -/
theorem Idle.of_same {s' : State Pid} (h : Idle s' t) (hcommits : s'.commits = s.commits)
    (hlh : s'.lh = s.lh) (hpc : ∀ q, (s'.pc q).commitPc? = (s.pc q).commitPc?) : Idle s t where
  commits := h.commits.trans hcommits
  length := hlh ▸ h.length
  pcs := fun q c hq => by
    rw [← hpc, ← hlh]
    exact h.pcs q c hq

/-- A process moves, and the commits stay where they are. -/
theorem idle_setPc (s : State Pid) (p : Pid) {pc : Pc} (hpc : pc.commitPc? = none ∨ pc.commitPc? = some .test) :
    Idle s (s.setPc p pc) := by
  refine ⟨rfl, id, fun q c hq => ?_⟩
  by_cases hqp : q = p
  · subst hqp
    rw [setPc_self] at hq
    rcases hpc with hnone | htest
    · rw [hnone] at hq
      cases hq
    · exact .inl (Option.some.inj (hq.symm.trans htest))
  · rw [setPc_of_ne s pc hqp] at hq
    exact .inr ⟨hq, rfl⟩

/-- A step is one of a commit, or it leaves the commits alone. -/
theorem step_idle (h : Inv s) (hstep : step s l = some t) :
    (∃ p c, l = .commit p ∧ s.pc p = .committing c ∧ t = commitStep s p c) ∨ Idle s t := by
  unfold GroupCommit.step at hstep
  split at hstep
  · cases hstep
  · cases l with
    | call p =>
        cases hp : s.pc p <;> simp only [hp, reduceCtorEq, Option.some.injEq] at hstep
        subst hstep
        exact .inr (idle_setPc s _ (.inl rfl))
    | beginOp p =>
        cases hp : s.pc p <;> simp only [hp, reduceCtorEq, Option.some.injEq] at hstep
        subst hstep
        unfold beginOp
        split
        · exact .inr (idle_setPc s _ (.inl rfl))
        · split
          · exact .inr (idle_setPc s _ (.inl rfl))
          · exact .inr (idle_setPc { s with
              outstanding := s.outstanding + 1
              nextOp := s.nextOp + 1 } p (.inl rfl) |>.of_same rfl rfl fun _ => rfl)
    | kill p =>
        cases hp : s.pc p <;> simp only [hp, reduceCtorEq, Option.some.injEq] at hstep
        subst hstep
        exact .inr (idle_setPc s _ (.inl rfl))
    | logWrite p b =>
        cases hp : s.pc p <;> simp only [hp, reduceCtorEq, Option.some.injEq] at hstep
        subst hstep
        -- the process is in an operation, so there is no commit
        have hquiet := (h.sched.outstanding_pos hp).2
        have hnone : ∀ q c, (s.pc q).commitPc? ≠ some c := fun q c hq => by
          rw [h.sched.committer.2 ⟨q, c, hq⟩] at hquiet
          cases hquiet
        unfold logWrite
        split
        · exact .inr ⟨rfl, id, fun q c hq => absurd hq (hnone q c)⟩
        · split
          · exact .inr ⟨rfl, id, fun q c hq => absurd hq (hnone q c)⟩
          · rename_i hroom _
            have hlength := length_absorb_le b s.lh
            exact .inr ⟨rfl, fun _ => by dsimp only; omega, fun q c hq => absurd hq (hnone q c)⟩
    | endOp p =>
        cases hp : s.pc p <;> simp only [hp, reduceCtorEq, Option.some.injEq] at hstep
        subst hstep
        unfold endOp
        dsimp only
        split
        · exact .inr ⟨rfl, id, fun q c hq => .inr ⟨hq, rfl⟩⟩
        · split
          · exact .inr (idle_setPc { s with outstanding := s.outstanding - 1, committing := true } p
              (.inr rfl) |>.of_same rfl rfl fun _ => rfl)
          · exact .inr (idle_setPc (wakeup { s with outstanding := s.outstanding - 1 }) p
              (.inl rfl) |>.of_same rfl rfl fun _ => wakeup_commitPc? _ _)
    | commit p =>
        cases hp : s.pc p <;> simp only [hp, reduceCtorEq, Option.some.injEq] at hstep
        exact .inl ⟨p, _, rfl, hp, hstep.symm⟩

/-- Nobody else commits. -/
theorem commitStep_alone (h : Inv s) (hp : s.pc p = .committing c) {q : Pid} {c' : CommitPc}
    (hq : ((commitStep s p c).pc q).commitPc? = some c') : q = p := by
  by_contra hne
  have hself : (s.pc p).commitPc? = some c := by rw [hp]; rfl
  have hsame : ((commitStep s p c).pc q).commitPc? = (s.pc q).commitPc? := by
    cases c <;> simp only [commitStep] <;> (repeat' split) <;> simp [setPc_of_ne _ _ hne]
  exact hne (h.sched.alone q p c' c (hsame ▸ hq) hself)

/-! ## A header that fits -/

/-- The commit has found blocks in the header, and has not erased them. -/
def CommitPc.past : CommitPc → Prop
  | .test => False
  | .finish => False
  | _ => True

/-- The header of a commit in progress fits into the log. -/
def Held (sb : Superblock) (s : State Pid) : Prop :=
  ∀ p c, (s.pc p).commitPc? = some c → c.past → sb.Fits s.lh.length

theorem Held.step (h : Held sb s) (hi : Inv s) (hok : CommitFits sb s l) (hstep : step s l = some t) :
    Held sb t := by
  rcases step_idle hi hstep with ⟨p, c, rfl, hp, rfl⟩ | hidle
  · have hself : (s.pc p).commitPc? = some c := by rw [hp]; rfl
    intro q c' hq hpast
    obtain rfl := commitStep_alone hi hp hq
    cases c with
    | test =>
        simp only [commitStep] at hq ⊢
        split at hq
        case isTrue hpos =>
          rw [if_pos hpos]
          exact hok hself hpos
        case isFalse hzero =>
          rw [setPc_self] at hq
          cases hq
          exact hpast.elim
    | writeLog tail copied =>
        have hfits := h q _ hself trivial
        simp only [commitStep]
        split
        · exact hfits
        · exact hfits
    | writeHead copied => exact h q _ hself trivial
    | install tail home =>
        have hfits := h q _ hself trivial
        simp only [commitStep]
        split
        · exact hfits
        · exact hfits
    | erase =>
        simp only [commitStep, setPc_self] at hq
        cases hq
        exact hpast.elim
    | finish =>
        simp only [commitStep, setPc_self] at hq
        cases hq
  · intro q c hq hpast
    rcases hidle.pcs q c hq with rfl | ⟨hq', hlh⟩
    · exact hpast.elim
    · rw [hlh]
      exact h q c hq' hpast

omit [DecidableEq Pid] in
theorem Held.writesLog (h : Held sb s) (l : Label Pid) : WritesLog sb sb.logstart s l := by
  cases l with
  | commit p =>
      intro b hb
      cases hp : s.pc p with
      | committing c =>
          have hself : (s.pc p).commitPc? = some c := by rw [hp]; rfl
          rw [hp] at hb
          cases c with
          | writeLog tail copied =>
              simp only [Pc.writes, CommitPc.writes] at hb
              split at hb
              case isTrue htail =>
                rw [List.mem_singleton.1 hb]
                exact (h p _ hself trivial).inLog htail
              case isFalse => cases hb
          | writeHead copied =>
              rw [List.mem_singleton.1 hb]
              exact (h p _ hself trivial).inLog_start
          | erase =>
              rw [List.mem_singleton.1 hb]
              exact (h p _ hself trivial).inLog_start
          | test => cases hb
          | install tail home => cases hb
          | finish => cases hb
      | _ =>
          rw [hp] at hb
          cases hb
  | _ => trivial

/-! ## What has been written -/

/-- What a commit has written up to now is in the log. -/
def CommitPc.Written (sb : Superblock) (lh : List Uint) : CommitPc → Prop
  | .writeLog tail _ => ∀ k < tail, sb.InLog (logBlock sb.logstart k)
  | .writeHead _ => ∀ k < lh.length, sb.InLog (logBlock sb.logstart k)
  | _ => True

structure Written (sb : Superblock) (s : State Pid) : Prop where
  length : s.lh.length ≤ LOGBLOCKS
  commits : ∀ c ∈ s.commits, sb.Fits c.head.length
  pcs : ∀ p c, (s.pc p).commitPc? = some c → c.Written sb s.lh

/-- The process that commits moves on. -/
theorem Written.setPc (pc : Pc) (h : Written sb s) (hp : s.pc p = .committing c) (hi : Inv s)
    (hpc : ∀ c, pc.commitPc? = some c → c.Written sb s.lh) : Written sb (s.setPc p pc) := by
  have hself : (s.pc p).commitPc? = some c := by rw [hp]; rfl
  refine ⟨h.length, h.commits, fun q c' hq => ?_⟩
  by_cases hqp : q = p
  · subst hqp
    rw [setPc_self] at hq
    exact hpc c' hq
  · rw [setPc_of_ne s pc hqp] at hq
    exact absurd (hi.sched.alone q p c' c hq hself) hqp

theorem Written.commitStep (h : Written sb s) (hi : Inv s) (hp : s.pc p = .committing c)
    (hok : ∀ b ∈ c.writes sb.logstart s.lh, sb.InLog b) : Written sb (commitStep s p c) := by
  have hpcs : c.Written sb s.lh := h.pcs p c (by rw [hp]; rfl)
  cases c with
  | test =>
      simp only [GroupCommit.commitStep]
      split
      · refine h.setPc _ hp hi fun c hc => ?_
        cases hc
        exact fun k hk => absurd hk (Nat.not_lt_zero k)
      · refine h.setPc _ hp hi fun c hc => ?_
        cases hc
        trivial
  | writeLog tail copied =>
      simp only [GroupCommit.commitStep]
      split
      case isTrue htail =>
        refine h.setPc _ hp hi fun c hc => ?_
        cases hc
        intro k hk
        rcases Nat.lt_succ_iff_lt_or_eq.1 hk with hlt | rfl
        · exact hpcs k hlt
        · refine hok _ ?_
          rw [CommitPc.writes, if_pos htail]
          exact List.mem_singleton_self _
      case isFalse htail =>
        refine h.setPc _ hp hi fun c hc => ?_
        cases hc
        exact fun k hk => hpcs k (by omega)
  | writeHead copied =>
      -- the commit point: every copy has been written, inside the log area
      have hfits : sb.Fits s.lh.length :=
        fits_of_inLog h.length (hok _ (List.mem_singleton_self _)) hpcs
      have hmoved := h.setPc (.committing (.install 0 [])) hp hi fun c hc => by
        cases hc
        trivial
      refine ⟨hmoved.length, fun c hc => ?_, hmoved.pcs⟩
      rcases List.mem_append.1 hc with hc | hc
      · exact h.commits c hc
      · rw [List.mem_singleton.1 hc]
        exact hfits
  | install tail home =>
      simp only [GroupCommit.commitStep]
      split
      · refine h.setPc _ hp hi fun c hc => ?_
        cases hc
        trivial
      · have hmoved := h.setPc (.committing .erase) hp hi fun c hc => by
          cases hc
          trivial
        exact ⟨hmoved.length, hmoved.commits, hmoved.pcs⟩
  | erase =>
      have hmoved := h.setPc (.committing .finish) hp hi fun c hc => by
        cases hc
        trivial
      refine ⟨Nat.zero_le _, hmoved.commits, fun q c hq => ?_⟩
      obtain rfl := commitStep_alone hi hp hq
      simp only [GroupCommit.commitStep, setPc_self] at hq
      cases hq
      trivial
  | finish =>
      refine ⟨h.length, h.commits, fun q c hq => ?_⟩
      obtain rfl := commitStep_alone hi hp hq
      simp only [GroupCommit.commitStep, setPc_self] at hq
      cases hq

theorem Written.step (h : Written sb s) (hi : Inv s) (hok : WritesLog sb sb.logstart s l)
    (hstep : step s l = some t) : Written sb t := by
  rcases step_idle hi hstep with ⟨p, c, rfl, hp, rfl⟩ | hidle
  · refine h.commitStep hi hp fun b hb => hok b ?_
    rw [hp]
    exact hb
  · refine ⟨hidle.length h.length, hidle.commits ▸ h.commits, fun q c hq => ?_⟩
    rcases hidle.pcs q c hq with rfl | ⟨hq', hlh⟩
    · trivial
    · rw [hlh]
      exact h.pcs q c hq'

/-! ## Every run -/

omit [DecidableEq Pid] in
theorem held_init (h : Init s) : Held sb s := by
  subst h
  intro p c hc
  cases hc

omit [DecidableEq Pid] in
theorem written_init (h : Init s) : Written sb s := by
  subst h
  refine ⟨Nat.zero_le _, fun c hc => ?_, fun p c hc => ?_⟩
  · cases hc
  · cases hc

/-- The block that the boot writes is in the log just if the log has a block. -/
theorem inLog_boot : (∀ b ∈ (initlog sb).writes, sb.InLog b) ↔ 1 ≤ sb.nlog.toNat := by
  simp only [initlog, List.mem_singleton, forall_eq, Superblock.InLog]
  omega

/-- **Commits and the log on the disk.** When the log has a block, and in a run in which the header of
    every commit fits, `write_log` and `write_head` write to blocks of the log only, at boot and after;
    and when they do, the log has a block and the header of every commit that has been written fits. -/
theorem commit_in_log_area (sb : Superblock) (boot : Boot) (s u : State Pid) (ls : List (Label Pid))
    (hsb : fsinit sb = some boot) (hs : Init s) (hrun : runSteps step s ls = some u) :
    (1 ≤ sb.nlog.toNat ∧ AllSteps step (CommitFits sb) s ls →
      (∀ b ∈ boot.writes, sb.InLog b) ∧ AllSteps step (WritesLog sb boot.start) s ls) ∧
    ((∀ b ∈ boot.writes, sb.InLog b) ∧ AllSteps step (WritesLog sb boot.start) s ls →
      1 ≤ sb.nlog.toNat ∧ ∀ c ∈ u.commits, sb.Fits c.head.length) := by
  obtain rfl : initlog sb = boot := by
    unfold fsinit at hsb
    split at hsb
    · cases hsb
    · exact Option.some.inj hsb
  refine ⟨fun ⟨hnlog, h⟩ => ⟨inLog_boot.2 hnlog, ?_⟩, fun ⟨hboot, h⟩ => ⟨inLog_boot.1 hboot, ?_⟩⟩
  · refine AllSteps.of_invariant (I := fun s => Inv s ∧ Held sb s) (fun s l t hI hok hstep => ?_)
      (fun s l hI _ => hI.2.writesLog l) ⟨inv_init hs, held_init hs⟩ h
    exact ⟨hI.1.step hstep, hI.2.step hI.1 hok hstep⟩
  · have hend := runSteps_invariant_of_allSteps (I := fun s => Inv s ∧ Written sb s)
      (fun s l t hI hok hstep => ⟨hI.1.step hstep, hI.2.step hI.1 hok hstep⟩)
      ⟨inv_init hs, written_init hs⟩ h hrun
    exact hend.2.commits

theorem length_commitStep : (commitStep s p c).lh.length ≤ s.lh.length := by
  cases c <;> simp only [commitStep] <;> (repeat' split) <;> first | exact Nat.le_refl _ | exact Nat.zero_le _

/-- With room for `LOGBLOCKS` blocks and the header, every header fits. -/
theorem commitFits_of_nlog (hnlog : LOGBLOCKS + 1 ≤ sb.nlog.toNat)
    (hend : sb.logstart.toNat + LOGBLOCKS < 2 ^ 32) (hi : Inv s) (hlen : s.lh.length ≤ LOGBLOCKS)
    (ls : List (Label Pid)) : AllSteps step (CommitFits sb) s ls := by
  induction ls generalizing s with
  | nil => trivial
  | cons l ls ih =>
      refine ⟨?_, fun t hstep => ih (hi.step hstep) ?_⟩
      · cases l with
        | commit p => exact fun _ _ => ⟨by omega, by omega⟩
        | _ => trivial
      · rcases step_idle hi hstep with ⟨p, c, rfl, hp, rfl⟩ | hidle
        · exact Nat.le_trans length_commitStep hlen
        · exact hidle.length hlen

/-! ## A log that is too small -/

/-- A log of the header and nothing else. -/
def tinyLog : Superblock := ⟨FSMAGIC, 1, 2⟩

def noOps : State Nat := ⟨0, false, [], fun _ => .user, none, 0, [], [], []⟩

/-- Up to the first round of `write_log` of an operation that has logged block 40. -/
def oneOp : List (Label Nat) := [.call 0, .beginOp 0, .logWrite 0 40, .endOp 0, .commit 0]

/-- `write_log` writes to block 3, which is behind the log. -/
theorem write_behind_log : fsinit tinyLog = some ⟨2, [2]⟩ ∧ Init noOps ∧
    ∃ s, runSteps step noOps oneOp = some s ∧ 3 ∈ (s.pc 0).writes 2 s.lh ∧ ¬ tinyLog.InLog 3 ∧
      ¬ WritesLog tinyLog 2 s (.commit 0) := by
  obtain ⟨s, hs⟩ : ∃ s, runSteps step noOps oneOp = some s :=
    Option.isSome_iff_exists.1 (by decide +kernel)
  have hend : (runSteps step noOps oneOp).map (fun s => (s.pc 0).writes 2 s.lh) = some [3] := by
    decide +kernel
  rw [hs, Option.map_some, Option.some.injEq] at hend
  have hmem : 3 ∈ (s.pc 0).writes 2 s.lh := hend ▸ List.mem_singleton_self _
  have hout : ¬ tinyLog.InLog 3 := by decide
  exact ⟨by decide, rfl, s, hs, hmem, hout, fun h => hout (h 3 hmem)⟩

/-- A log with room for every commit. -/
def roomyLog : Superblock := ⟨FSMAGIC, 31, 2⟩

/-- The whole commit of an operation that has logged one block, in a log that has room for it. -/
theorem commit_in_log_area_one : ∃ u, runSteps step noOps (oneOp ++ List.replicate 7 (.commit 0)) = some u ∧
    u.commits.map Commit.head = [[40]] ∧ roomyLog.InLog 2 ∧
    AllSteps step (WritesLog roomyLog 2) noOps (oneOp ++ List.replicate 7 (.commit 0)) ∧
    ∀ c ∈ u.commits, roomyLog.Fits c.head.length := by
  have hend : (runSteps step noOps (oneOp ++ List.replicate 7 (.commit 0))).map
      (fun u => u.commits.map Commit.head) = some [[40]] := by decide +kernel
  obtain ⟨u, hu, hheads⟩ := Option.map_eq_some_iff.1 hend
  have hall := commit_in_log_area roomyLog ⟨2, [2]⟩ noOps u _ (by decide) rfl hu
  have hfits : AllSteps step (CommitFits roomyLog) noOps (oneOp ++ List.replicate 7 (.commit 0)) :=
    commitFits_of_nlog (by decide) (by decide) (inv_init rfl) (Nat.zero_le _) _
  obtain ⟨hboot, hrun⟩ := hall.1 ⟨by decide, hfits⟩
  exact ⟨u, hu, hheads, hboot 2 (List.mem_singleton_self _), hrun, (hall.2 ⟨hboot, hrun⟩).2⟩

end Xv6.GroupCommit
