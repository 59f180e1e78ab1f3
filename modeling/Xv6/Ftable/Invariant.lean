import Mathlib.Data.Fintype.Sum
import Xv6.Ftable.Model

set_option autoImplicit false

/-! # Who refers to a file, and who has the end of a pipe

A reference to a file is in a descriptor or in the hands of a process that is in a system call. The
end of a pipe is open as long as a file is that end, or a process is about to close it. -/

namespace Xv6.Ftable

open Xv6.Lib

/-! ## References -/

/-- The files to which a process has a reference that is in no descriptor. -/
def Pc.held : Pc → List (Fin NFILE)
  | openFd f _ => [f]
  | close l _ => l
  | pipeclose _ _ l _ => l
  | pipeAlloc1 f0 => [f0]
  | pipeKalloc f0 f1 => [f0, f1]
  | pipeFd0 rf wf => [rf, wf]
  | pipeFd1 _ _ wf => [wf]
  | _ => []

/-- A descriptor for which there is no reference yet, or no longer. -/
def Pc.skip : Pc → Option (Fin NOFILE)
  | dup _ fd => some fd
  | exitPipe _ _ fd _ => some fd
  | _ => none

/-- The files that are allocated, and are not of a type yet. -/
def Pc.fresh : Pc → List (Fin NFILE)
  | openFd f _ => [f]
  | openSet f _ _ => [f]
  | pipeAlloc1 f0 => [f0]
  | pipeKalloc f0 f1 => [f0, f1]
  | _ => []

/-- The end of a pipe that is about to be closed. -/
def Pc.closes : Pc → Option (Page × Bool)
  | pipeclose pi w _ _ => some (pi, w)
  | exitPipe pi w _ _ => some (pi, w)
  | _ => none

/-- The descriptors that are `f`. -/
def slotsOf (d : Descs) (f : Fin NFILE) : Nat := ∑ fd, if d fd = some f then 1 else 0

/-- The descriptors with a reference. -/
def Proc.counted (P : Proc) : Descs := match P.pc.skip with
  | none => P.ofile
  | some fd => Function.update P.ofile fd none

def Proc.holds (P : Proc) (f : Fin NFILE) : Nat := slotsOf P.counted f + P.pc.held.count f

/-! ## Ends of pipes -/

def openEnd (P : Option Pipe) (w : Bool) : Nat := match P with
  | none => 0
  | some P => (P.opened w).toNat

def File.hasEnd (e : File) (x : Page × Bool) : Nat := if e.type = .pipe ∧ e.pipe = x.1 ∧ e.writable = x.2 then 1 else 0

def Pc.hasEnd (pc : Pc) (x : Page × Bool) : Nat := if pc.closes = some x then 1 else 0

def State.hasEnd (s : State) : Fin NFILE ⊕ Pid → Page × Bool → Nat
  | .inl f => (s.ftable f).hasEnd
  | .inr p => (s.procs p).pc.hasEnd

/-! ## The invariant -/

/-- What the descriptors of a process are, at each place. -/
def Proc.Ok (P : Proc) : Prop := match P.pc with
  | .unused | .zombie => ∀ fd, P.ofile fd = none
  | .embryo _ => True
  | .user => P.ret = -1 → P.ofile = P.old
  | .openAlloc _ | .openFd _ _ | .pipeAlloc0 | .pipeAlloc1 _ | .pipeKalloc _ _ | .pipeFd0 _ _ | .fork _ _ =>
      P.ofile = P.old
  | .openSet f fd _ => P.ofile fd = some f
  | .dup f fd => P.ofile fd = some f ∧ ∃ fd', fd' ≠ fd ∧ P.ofile fd' = some f
  | .close _ ret | .pipeclose _ _ _ ret => ret = -1 → P.ofile = P.old
  | .pipeFd1 fd0 rf _ => P.old fd0 = none ∧ P.ofile = Function.update P.old fd0 (some rf)
  | .pipeOut fd0 fd1 rf wf => fd0 ≠ fd1 ∧ P.old fd0 = none ∧ P.old fd1 = none ∧
      P.ofile = Function.update (Function.update P.old fd0 (some rf)) fd1 (some wf)
  | .exit l => ∀ fd, fd ∉ l → P.ofile fd = none
  | .exitPipe _ _ fd l => ∀ fd', fd' ∉ fd :: l → P.ofile fd' = none

structure Inv (s : State) : Prop where
  refs : Counted (fun f => (s.ftable f).ref) fun p => (s.procs p).holds
  closed : ∀ f, (s.ftable f).ref = 0 → (s.ftable f).type = .none
  fresh : ∀ p, ∀ f ∈ (s.procs p).pc.fresh, (s.ftable f).ref = 1 ∧ (s.ftable f).type = .none
  ok : ∀ p, (s.procs p).Ok
  fork : ∀ p c l, (s.procs p).pc = .fork c l → (s.procs c).pc = .embryo p ∧ l.Nodup ∧ ∀ fd ∈ l,
    (s.procs c).ofile fd = none
  ends : Counted (fun x : Page × Bool => openEnd (s.pipes x.1) x.2) s.hasEnd
  alive : ∀ pi P, s.pipes pi = some P → P.readopen = true ∨ P.writeopen = true
  fault : s.fault = none

variable {s t : State} {p q c : Pid} {P P' : Proc} {f g : Fin NFILE} {fd : Fin NOFILE} {e : File}
    {v : Option (Fin NFILE)} {d : Descs}

/-! ## What a process refers to -/

theorem slots_update (d : Descs) (fd : Fin NOFILE) (v : Option (Fin NFILE)) (f : Fin NFILE) :
    slotsOf (Function.update d fd v) f + (if d fd = some f then 1 else 0) = slotsOf d f + if v = some f then 1 else 0 :=
  sum_update_add (Finset.mem_univ fd) d (fun v => if v = some f then 1 else 0) v

theorem slots_pos (h : d fd = some f) : 0 < slotsOf d f := by
  unfold slotsOf
  have hle := Finset.single_le_sum (f := fun fd => if d fd = some f then 1 else 0) (fun _ _ => Nat.zero_le _)
    (Finset.mem_univ fd)
  rw [if_pos h] at hle
  exact hle

theorem slots_none (h : ∀ fd, d fd = none) (f : Fin NFILE) : slotsOf d f = 0 := by
  refine Finset.sum_eq_zero fun fd _ => ?_
  rw [h fd, if_neg fun hc => by cases hc]

theorem holds_eq (h : P.pc.skip = none) (f : Fin NFILE) : P.holds f = slotsOf P.ofile f + P.pc.held.count f := by
  unfold Proc.holds Proc.counted
  rw [h]

theorem holds_skip (h : P.pc.skip = some fd) (f : Fin NFILE) :
    P.holds f = slotsOf (Function.update P.ofile fd none) f + P.pc.held.count f := by
  unfold Proc.holds Proc.counted
  rw [h]

theorem holds_counted (h : P.pc.held = []) (f : Fin NFILE) : P.holds f = slotsOf P.counted f := by
  unfold Proc.holds
  rw [h, List.count_nil, Nat.add_zero]

theorem holds_of_held (h : f ∈ P.pc.held) : 0 < P.holds f :=
  Nat.lt_of_lt_of_le (List.count_pos_iff.2 h) (Nat.le_add_left _ _)

theorem holds_of_slot (hskip : P.pc.skip = none) (h : P.ofile fd = some f) : 0 < P.holds f := by
  rw [holds_eq hskip]
  exact Nat.lt_of_lt_of_le (slots_pos h) (Nat.le_add_right _ _)

/-- A process refers to a file that it has allocated. -/
theorem Proc.Ok.fresh (h : P.Ok) (hf : f ∈ P.pc.fresh) : 0 < P.holds f := by
  unfold Proc.Ok at h
  cases hpc : P.pc <;> rw [hpc] at h hf <;> try exact absurd hf List.not_mem_nil
  case openSet f' fd m =>
    obtain rfl := List.mem_singleton.1 hf
    exact holds_of_slot (by rw [hpc]; rfl) h
  all_goals exact holds_of_held (by rw [hpc]; exact hf)

/-- A file that another process has allocated. -/
theorem Inv.not_fresh (h : Inv s) (hf : (s.ftable f).ref = 0 ∨ 0 < (s.procs p).holds f) (hq : q ≠ p) :
    f ∉ (s.procs q).pc.fresh := by
  intro hmem
  have hone := (h.fresh q f hmem).1
  have hpos := (h.ok q).fresh hmem
  rcases hf with h0 | hp
  · rw [h0] at hone
    cases hone
  · have hsole := h.refs.sole (Nat.le_of_eq hone) hpos hq.symm
    exact absurd hp (Nat.not_lt.2 (Nat.le_of_eq hsole))

/-- The holds of the processes after one of them has moved. -/
theorem holds_update (procs : Pid → Proc) (p : Pid) (P' : Proc) :
    (fun q => (Function.update procs p P' q).holds) = Function.update (fun q => (procs q).holds) p P'.holds := by
  funext q
  by_cases hq : q = p
  · rw [hq, Function.update_self, Function.update_self]
  · rw [Function.update_of_ne hq, Function.update_of_ne hq]

/-! ## Steps -/

/-- A process moves from `P` to `P'`, files and pipes may change. -/
theorem Inv.change (h : Inv s) (p : Pid) (P' : Proc) (ftable : Fin NFILE → File) (pipes : Page → Option Pipe)
    (hrefs : ∀ f, (ftable f).ref + (s.procs p).holds f = (s.ftable f).ref + P'.holds f)
    (hclosed : ∀ f, (ftable f).ref = 0 → (ftable f).type = .none)
    (hfresh : ∀ f ∈ P'.pc.fresh, (ftable f).ref = 1 ∧ (ftable f).type = .none)
    (hothers : ∀ f q, q ≠ p → f ∈ (s.procs q).pc.fresh → ftable f = s.ftable f) (hok : P'.Ok)
    (hchild : ∀ q l, q ≠ p → (s.procs q).pc = .fork p l → P'.pc = .embryo q ∧ ∀ fd ∈ l, P'.ofile fd = none)
    (hparent : ∀ c l, P'.pc = .fork c l → c ≠ p ∧ (s.procs c).pc = .embryo p ∧ l.Nodup ∧ ∀ fd ∈ l,
    (s.procs c).ofile fd = none)
    (hends : Counted (fun x : Page × Bool => openEnd (pipes x.1) x.2)
      ({ s with
        ftable := ftable
        pipes := pipes
        procs := Function.update s.procs p P' } : State).hasEnd)
    (halive : ∀ pi P, pipes pi = some P → P.readopen = true ∨ P.writeopen = true) :
    Inv { s with
      ftable := ftable
      pipes := pipes
      procs := Function.update s.procs p P' } where
  refs := by
    show Counted (fun f => (ftable f).ref) fun q => (Function.update s.procs p P' q).holds
    rw [holds_update]
    exact h.refs.update p hrefs
  closed := hclosed
  fresh := by
    intro q f hf
    by_cases hq : q = p
    · subst hq
      simp only [Function.update_self] at hf
      exact hfresh f hf
    · simp only [Function.update_of_ne hq] at hf
      show (ftable f).ref = 1 ∧ (ftable f).type = .none
      rw [hothers f q hq hf]
      exact h.fresh q f hf
  ok := by
    intro q
    by_cases hq : q = p
    · subst hq
      simp only [Function.update_self]
      exact hok
    · simp only [Function.update_of_ne hq]
      exact h.ok q
  fork := by
    intro q c l hpc
    by_cases hq : q = p
    · subst hq
      simp only [Function.update_self] at hpc
      obtain ⟨hc, hrest⟩ := hparent c l hpc
      simp only [Function.update_of_ne hc]
      exact hrest
    · simp only [Function.update_of_ne hq] at hpc
      obtain ⟨hcpc, hnodup, hnone⟩ := h.fork q c l hpc
      by_cases hc : c = p
      · subst hc
        simp only [Function.update_self]
        obtain ⟨hpc', hnone'⟩ := hchild q l hq hpc
        exact ⟨hpc', hnodup, hnone'⟩
      · simp only [Function.update_of_ne hc]
        exact ⟨hcpc, hnodup, hnone⟩
  ends := hends
  alive := halive
  fault := h.fault

/-- The ends of pipes when one file and one process have changed. -/
theorem Inv.ends_change (h : Inv s) (p : Pid) (P' : Proc) (f : Fin NFILE) (e : File) (pipes : Page → Option Pipe)
    (hx : ∀ x : Page × Bool, openEnd (pipes x.1) x.2 + ((s.ftable f).hasEnd x + (s.procs p).pc.hasEnd x) =
      openEnd (s.pipes x.1) x.2 + (e.hasEnd x + P'.pc.hasEnd x)) :
    Counted (fun x : Page × Bool => openEnd (pipes x.1) x.2)
      ({ s with
        ftable := Function.update s.ftable f e
        pipes := pipes
        procs := Function.update s.procs p P' } : State).hasEnd := by
  have hhas : ({ s with
      ftable := Function.update s.ftable f e
      pipes := pipes
      procs := Function.update s.procs p P' } : State).hasEnd =
      Function.update (Function.update s.hasEnd (.inl f) e.hasEnd) (.inr p) P'.pc.hasEnd := by
    funext i
    rcases i with g | q
    · rw [Function.update_of_ne Sum.inl_ne_inr]
      by_cases hg : g = f
      · subst hg
        rw [Function.update_self]
        exact congrArg File.hasEnd (Function.update_self ..)
      · rw [Function.update_of_ne fun hc => hg (Sum.inl.inj hc)]
        exact congrArg File.hasEnd (Function.update_of_ne hg ..)
    · by_cases hq : q = p
      · subst hq
        rw [Function.update_self]
        exact congrArg (fun P : Proc => P.pc.hasEnd) (Function.update_self ..)
      · rw [Function.update_of_ne fun hc => hq (Sum.inr.inj hc), Function.update_of_ne Sum.inr_ne_inl]
        exact congrArg (fun P : Proc => P.pc.hasEnd) (Function.update_of_ne hq ..)
  rw [hhas]
  have hfile : Counted (fun x : Page × Bool => openEnd (s.pipes x.1) x.2 + e.hasEnd x - (s.ftable f).hasEnd x)
      (Function.update s.hasEnd (.inl f) e.hasEnd) := by
    refine h.ends.update (.inl f) fun x => ?_
    have hle := h.ends.le (.inl f) x
    have hsame : s.hasEnd (.inl f) x = (s.ftable f).hasEnd x := rfl
    rw [hsame] at hle ⊢
    omega
  refine hfile.update (.inr p) fun x => ?_
  rw [Function.update_of_ne Sum.inr_ne_inl]
  have hsame : s.hasEnd (.inr p) x = (s.procs p).pc.hasEnd x := rfl
  have hle := h.ends.le (.inl f) x
  have hsame' : s.hasEnd (.inl f) x = (s.ftable f).hasEnd x := rfl
  have hall := hx x
  rw [hsame'] at hle
  rw [hsame]
  omega

end Xv6.Ftable
