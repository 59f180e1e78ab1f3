import Xv6.Ftable.Invariant

set_option autoImplicit false

/-! # Each step keeps the references

A step of a process touches one file, one pipe or only its own descriptors. -/

namespace Xv6.Ftable

open Xv6.Lib

variable {s t : State} {p q c : Pid} {P P' : Proc} {f g : Fin NFILE} {fd : Fin NOFILE} {e : File}
    {v : Option (Fin NFILE)}
variable {pc : Pc} {pi : Page} {w : Bool} {ret : Int} {answer : Option Page}

/-! ## What a process refers to, before and after -/

theorem holds_same (P P' : Proc) (hofile : P'.ofile = P.ofile) (hskip : P.pc.skip = none)
    (hskip' : P'.pc.skip = none) (f : Fin NFILE) :
    P'.holds f + P.pc.held.count f = P.holds f + P'.pc.held.count f := by
  rw [holds_eq hskip, holds_eq hskip', hofile]
  omega

theorem holds_fd (P P' : Proc) (hofile : P'.ofile = Function.update P.ofile fd v) (hskip : P.pc.skip = none)
    (hskip' : P'.pc.skip = none)
    (f : Fin NFILE) : P'.holds f + P.pc.held.count f + (if P.ofile fd = some f then 1 else 0) =
      P.holds f + P'.pc.held.count f + if v = some f then 1 else 0 := by
  have hslots := slots_update P.ofile fd v f
  rw [holds_eq hskip, holds_eq hskip', hofile]
  omega

theorem count_one (f g : Fin NFILE) : [f].count g = if some f = some g then 1 else 0 := by
  rw [List.count_cons, List.count_nil, Nat.zero_add]
  refine if_congr ?_ rfl rfl
  rw [beq_iff_eq, Option.some.injEq]

theorem count_two (f f' g : Fin NFILE) : [f, f'].count g = [f].count g + [f'].count g := by
  rw [← List.count_append]
  rfl

/-! ## Steps of one process -/

/-- A process that is not a child in the making. -/
def Pc.Active (pc : Pc) : Prop := ∀ q, pc ≠ .embryo q

theorem Inv.not_child (h : Inv s) (hact : (s.procs p).pc.Active) {l : List (Fin NOFILE)} : (s.procs q).pc ≠ .fork p l :=
  fun hq => hact q (h.fork q p l hq).1

/-- One file changes. -/
theorem Inv.touch (h : Inv s) (p : Pid) (P' : Proc) (f : Fin NFILE) (e : File)
    (hmine : ∀ q, q ≠ p → f ∉ (s.procs q).pc.fresh) (href : e.ref + (s.procs p).holds f = (s.ftable f).ref + P'.holds f)
    (hother : ∀ g, g ≠ f → P'.holds g = (s.procs p).holds g) (hclosed : e.ref = 0 → e.type = .none)
    (hfresh : ∀ g ∈ P'.pc.fresh, if g = f then e.ref = 1 ∧ e.type = .none else g ∈ (s.procs p).pc.fresh) (hok : P'.Ok)
    (hchild : ∀ q l, q ≠ p → (s.procs q).pc = .fork p l → P'.pc = .embryo q ∧ ∀ fd ∈ l, P'.ofile fd = none)
    (hparent : ∀ c l, P'.pc ≠ .fork c l)
    (hends : ∀ x, (s.ftable f).hasEnd x + (s.procs p).pc.hasEnd x = e.hasEnd x + P'.pc.hasEnd x) :
    Inv ((s.setFile f e).setProc p P') := by
  refine h.change p P' (Function.update s.ftable f e) s.pipes (fun g => ?_) (fun g hg => ?_) (fun g hg => ?_)
    (fun g q hq hg => ?_)
    hok hchild (fun c l hc => absurd hc (hparent c l)) (h.ends_change p P' f e s.pipes fun x => by rw [hends x]) h.alive
  · by_cases hgf : g = f
    · subst hgf
      rw [Function.update_self]
      exact href
    · rw [Function.update_of_ne hgf, hother g hgf]
  · by_cases hgf : g = f
    · subst hgf
      rw [Function.update_self] at hg ⊢
      exact hclosed hg
    · rw [Function.update_of_ne hgf] at hg ⊢
      exact h.closed g hg
  · have hold := hfresh g hg
    by_cases hgf : g = f
    · subst hgf
      rw [if_pos rfl] at hold
      rw [Function.update_self]
      exact hold
    · rw [if_neg hgf] at hold
      rw [Function.update_of_ne hgf]
      exact h.fresh p g hold
  · refine Function.update_of_ne ?_ ..
    rintro rfl
    exact hmine q hq hg

/-- No file changes. -/
theorem Inv.move (h : Inv s) (p : Pid) (P' : Proc) (hholds : ∀ f, P'.holds f = (s.procs p).holds f)
    (hfresh : ∀ f ∈ P'.pc.fresh, f ∈ (s.procs p).pc.fresh) (hok : P'.Ok)
    (hchild : ∀ q l, q ≠ p → (s.procs q).pc = .fork p l → P'.pc = .embryo q ∧ ∀ fd ∈ l, P'.ofile fd = none)
    (hparent : ∀ c l, P'.pc = .fork c l → c ≠ p ∧ (s.procs c).pc = .embryo p ∧ l.Nodup ∧ ∀ fd ∈ l,
    (s.procs c).ofile fd = none)
    (hends : P'.pc.closes = (s.procs p).pc.closes) : Inv (s.setProc p P') := by
  have hsame : ∀ x, P'.pc.hasEnd x = (s.procs p).pc.hasEnd x := by
    intro x
    unfold Pc.hasEnd
    rw [hends]
  have hcounted := h.ends_change p P' ⟨0, by decide⟩ (s.ftable ⟨0, by decide⟩) s.pipes fun x => by rw [hsame]
  rw [Function.update_eq_self] at hcounted
  exact h.change p P' s.ftable s.pipes (fun f => by rw [hholds]) h.closed (fun f hf => h.fresh p f (hfresh f hf))
    (fun _ _ _ _ => rfl) hok hchild hparent hcounted h.alive

/-- A process that is in a system call moves on. -/
theorem Inv.go (h : Inv s) (hact : (s.procs p).pc.Active) (P' : Proc) (hholds : ∀ f, P'.holds f = (s.procs p).holds f)
    (hfresh : ∀ f ∈ P'.pc.fresh, f ∈ (s.procs p).pc.fresh) (hok : P'.Ok) (hparent : ∀ c l, P'.pc ≠ .fork c l)
    (hends : P'.pc.closes = (s.procs p).pc.closes) : Inv (s.setProc p P') :=
  h.move p P' hholds hfresh hok (fun _ _ _ hq => absurd hq (h.not_child hact))
    (fun c l hc => absurd hc (hparent c l)) hends

theorem hasEnd_of_none {e : File} (he : e.type = .none) (x : Page × Bool) : e.hasEnd x = 0 := by
  refine if_neg fun hc => ?_
  rw [he] at hc
  cases hc.1

theorem hasEnd_pipe {e : File} (he : e.type = .pipe) (x : Page × Bool) :
    e.hasEnd x = if e.pipe = x.1 ∧ e.writable = x.2 then 1 else 0 :=
  if_congr ⟨fun hc => hc.2, fun hc => ⟨he, hc⟩⟩ rfl rfl

theorem hasEnd_of_closes {pc : Pc} (h : pc.closes = none) (x : Page × Bool) : pc.hasEnd x = 0 := by
  refine if_neg fun hc => ?_
  rw [h] at hc
  cases hc

theorem filealloc_free (h : s.filealloc = some f) : (s.ftable f).ref = 0 := by
  have hfind := List.find?_some h
  exact of_decide_eq_true hfind

theorem fdalloc_free (h : P.fdalloc = some fd) : P.ofile fd = none := by
  have hfind := List.find?_some h
  exact of_decide_eq_true hfind

/-- `filealloc` -/
theorem Inv.alloc (h : Inv s) (hact : (s.procs p).pc.Active) (hf : s.filealloc = some f) (pc : Pc)
    (hskip : (s.procs p).pc.skip = none) (hskip' : pc.skip = none)
    (hheld : ∀ g, pc.held.count g = (s.procs p).pc.held.count g + [f].count g)
    (hfresh : ∀ g ∈ pc.fresh, g ≠ f → g ∈ (s.procs p).pc.fresh) (hok : ({ s.procs p with pc := pc } : Proc).Ok)
    (hparent : ∀ c l, pc ≠ .fork c l) (hcloses : (s.procs p).pc.closes = none) (hcloses' : pc.closes = none) :
    Inv ((s.setFile f { s.ftable f with ref := 1 }).at p pc) := by
  have hfree := filealloc_free hf
  have hholds : ∀ g, ({ s.procs p with pc := pc } : Proc).holds g = (s.procs p).holds g + [f].count g := by
    intro g
    have hsame := holds_same (s.procs p) { s.procs p with pc := pc } rfl hskip hskip' g
    have hg := hheld g
    have hpc : ({ s.procs p with pc := pc } : Proc).pc.held.count g = pc.held.count g := rfl
    omega
  have htype := h.closed f hfree
  refine h.touch p { s.procs p with pc := pc } f { s.ftable f with ref := 1 }
    (fun q hq => h.not_fresh (.inl hfree) hq) ?_
    (fun g hg => ?_) (fun h0 => absurd h0 Nat.one_ne_zero) (fun g hg => ?_) hok
    (fun _ _ _ hq => absurd hq (h.not_child hact)) hparent
    fun x => ?_
  · rw [hholds, hfree, List.count_singleton_self]
    show 1 + (s.procs p).holds f = _
    omega
  · rw [hholds, List.count_eq_zero.2 fun hmem => hg (List.mem_singleton.1 hmem), Nat.add_zero]
  · by_cases hgf : g = f
    · rw [if_pos hgf]
      exact ⟨rfl, htype⟩
    · rw [if_neg hgf]
      exact hfresh g hg hgf
  · rw [hasEnd_of_none htype, hasEnd_of_closes hcloses]
    exact (congrArg₂ Nat.add (hasEnd_of_none htype x) (hasEnd_of_closes hcloses' x)).symm

/-- `filedup`, of which the reference goes to process `p`. -/
theorem Inv.dup (h : Inv s) (p : Pid) (P' : Proc) (hmine : ∀ q, q ≠ p → f ∉ (s.procs q).pc.fresh)
    (hholds : ∀ g, P'.holds g = (s.procs p).holds g + [f].count g) (hfresh : P'.pc.fresh = []) (hok : P'.Ok)
    (hchild : ∀ q l, q ≠ p → (s.procs q).pc = .fork p l → P'.pc = .embryo q ∧ ∀ fd ∈ l, P'.ofile fd = none)
    (hparent : ∀ c l, P'.pc ≠ .fork c l) (hcloses : P'.pc.closes = (s.procs p).pc.closes) :
    Inv ((s.setFile f { s.ftable f with ref := (s.ftable f).ref + 1 }).setProc p P') := by
  refine h.touch p P' f _ hmine ?_ (fun g hg => ?_) (fun h0 => absurd h0 (Nat.succ_ne_zero _))
    (fun g hg => ?_) hok hchild hparent
    fun x => ?_
  · rw [hholds, List.count_singleton_self]
    show (s.ftable f).ref + 1 + _ = _
    omega
  · rw [hholds, List.count_eq_zero.2 fun hmem => hg (List.mem_singleton.1 hmem), Nat.add_zero]
  · rw [hfresh] at hg
    exact absurd hg List.not_mem_nil
  · unfold Pc.hasEnd
    rw [hcloses]
    rfl

/-- What `fileclose` does to the file, and which end of a pipe it leaves to be closed. -/
theorem drop_cases (s : State) (f : Fin NFILE) (hpos : ¬ (s.ftable f).ref < 1) : ∃ e, (s.drop f).1 = s.setFile f e ∧
    e.ref + 1 = (s.ftable f).ref ∧ (e.ref = 0 → e.type = .none) ∧
    ∀ x, (s.ftable f).hasEnd x = e.hasEnd x + if (s.drop f).2 = some x then 1 else 0 := by
  by_cases hmore : 1 < (s.ftable f).ref
  · have hdrop : s.drop f = (s.setFile f { s.ftable f with ref := (s.ftable f).ref - 1 }, none) := if_pos hmore
    refine ⟨{ s.ftable f with ref := (s.ftable f).ref - 1 }, by rw [hdrop], ?_, fun h0 => ?_, fun x => ?_⟩
    · show (s.ftable f).ref - 1 + 1 = _
      omega
    · have h0 : (s.ftable f).ref - 1 = 0 := h0
      omega
    · rw [hdrop, if_neg fun hc => by cases hc]
      rfl
  · have hdrop : s.drop f = (s.setFile f { s.ftable f with
        ref := 0
        type := .none },
        if (s.ftable f).type = .pipe then some ((s.ftable f).pipe, (s.ftable f).writable) else none) := if_neg hmore
    refine ⟨{ s.ftable f with
      ref := 0
      type := .none }, by rw [hdrop], ?_, fun _ => rfl, fun x => ?_⟩
    · show 0 + 1 = _
      omega
    · rw [hasEnd_of_none (e := { s.ftable f with
        ref := 0
        type := .none }) rfl, Nat.zero_add, hdrop]
      refine if_congr ?_ rfl rfl
      obtain ⟨pi, w⟩ := x
      by_cases hpipe : (s.ftable f).type = .pipe
      · simp only [hpipe, true_and, if_true, Option.some.injEq, Prod.mk.injEq]
      · simp only [hpipe, false_and, if_false, reduceCtorEq]

/-- `fileclose` under the lock of the table. -/
theorem Inv.drop (h : Inv s) (hact : (s.procs p).pc.Active) (P' : Proc) (hpos : ¬ (s.ftable f).ref < 1)
    (hholds : ∀ g, P'.holds g + [f].count g = (s.procs p).holds g) (hfresh : P'.pc.fresh = []) (hok : P'.Ok)
    (hparent : ∀ c l, P'.pc ≠ .fork c l) (hcloses : (s.procs p).pc.closes = none)
    (hcloses' : P'.pc.closes = (s.drop f).2) :
    Inv ((s.drop f).1.setProc p P') := by
  obtain ⟨e, hdrop, href, hclosed, hends⟩ := drop_cases s f hpos
  have hf := hholds f
  rw [List.count_singleton_self] at hf
  rw [hdrop]
  refine h.touch p P' f e (fun q hq => h.not_fresh (.inr (by omega)) hq) (by omega) (fun g hg => ?_) hclosed
    (fun g hg => ?_) hok
    (fun _ _ _ hq => absurd hq (h.not_child hact)) hparent fun x => ?_
  · have hg' := hholds g
    rw [List.count_eq_zero.2 fun hmem => hg (List.mem_singleton.1 hmem), Nat.add_zero] at hg'
    exact hg'
  · rw [hfresh] at hg
    exact absurd hg List.not_mem_nil
  · rw [hends x, hasEnd_of_closes hcloses, Nat.add_zero]
    unfold Pc.hasEnd
    rw [hcloses']

/-- An end that a process is about to close is open. -/
theorem Inv.open_end (h : Inv s) (hcloses : (s.procs p).pc.closes = some (pi, w)) :
    ∃ P, s.pipes pi = some P ∧ P.opened w = true := by
  have hle := h.ends.le (.inr p) (pi, w)
  have hone : s.hasEnd (.inr p) (pi, w) = 1 := if_pos hcloses
  rw [hone] at hle
  have hle : 1 ≤ openEnd (s.pipes pi) w := hle
  cases hpi : s.pipes pi with
  | none =>
      rw [hpi] at hle
      exact absurd hle (Nat.not_succ_le_zero 0)
  | some P =>
      rw [hpi] at hle
      refine ⟨P, rfl, ?_⟩
      cases hopen : P.opened w with
      | true => rfl
      | false =>
          have hle : 1 ≤ (P.opened w).toNat := hle
          rw [hopen] at hle
          exact absurd hle (by decide)

theorem openEnd_shut (P : Pipe) (w w' : Bool) :
    openEnd (if (P.shut w).readopen = false ∧ (P.shut w).writeopen = false then none else some (P.shut w)) w' =
      if w' = w then 0 else (P.opened w').toNat := by
  obtain ⟨r, o⟩ := P
  cases r <;> cases o <;> cases w <;> cases w' <;> rfl

/-- `pipeclose` -/
theorem Inv.shut (h : Inv s) (hact : (s.procs p).pc.Active) (P' : Proc) (hcloses : (s.procs p).pc.closes = some (pi, w))
    (hholds : ∀ g, P'.holds g = (s.procs p).holds g) (hfresh : P'.pc.fresh = []) (hok : P'.Ok)
    (hparent : ∀ c l, P'.pc ≠ .fork c l) (hcloses' : P'.pc.closes = none) : Inv ((s.pipeclose pi w).setProc p P') := by
  obtain ⟨P, hpi, hopen⟩ := h.open_end hcloses
  let P₁ := if (P.shut w).readopen = false ∧ (P.shut w).writeopen = false then none else some (P.shut w)
  have hrun : s.pipeclose pi w = { s with pipes := Function.update s.pipes pi P₁ } := by
    unfold State.pipeclose
    rw [hpi]
    simp only
    rw [hopen, if_neg (Bool.noConfusion : ¬ true = false)]
  have hone : openEnd (s.pipes pi) w = 1 := by
    rw [hpi]
    show (P.opened w).toNat = 1
    rw [hopen]
    rfl
  rw [hrun]
  have hcounted := h.ends_change p P' ⟨0, by decide⟩ (s.ftable ⟨0, by decide⟩)
    (Function.update s.pipes pi P₁) fun x => by
    obtain ⟨pi', w'⟩ := x
    rw [hasEnd_of_closes hcloses']
    have hmine : (s.procs p).pc.hasEnd (pi', w') = if pi' = pi ∧ w' = w then 1 else 0 := by
      unfold Pc.hasEnd
      rw [hcloses]
      refine if_congr ?_ rfl rfl
      rw [Option.some.injEq, Prod.mk.injEq, eq_comm, @eq_comm _ w]
    rw [hmine]
    by_cases hpage : pi' = pi
    · subst hpage
      simp only [Function.update_self, true_and]
      rw [openEnd_shut]
      by_cases hw : w' = w
      · subst hw
        rw [if_pos rfl, if_pos rfl, hone]
        omega
      · rw [if_neg hw, if_neg hw, hpi]
        rfl
    · simp only [Function.update_of_ne hpage, hpage, false_and, if_false]
  rw [Function.update_eq_self] at hcounted
  refine h.change p P' s.ftable (Function.update s.pipes pi P₁) (fun f => by rw [hholds]) h.closed (fun f hf => ?_)
    (fun _ _ _ _ => rfl) hok (fun _ _ _ hq => absurd hq (h.not_child hact)) (fun c l hc => absurd hc (hparent c l))
    hcounted
    fun pi' Q hQ => ?_
  · rw [hfresh] at hf
    exact absurd hf List.not_mem_nil
  · by_cases hpage : pi' = pi
    · subst hpage
      rw [Function.update_self] at hQ
      have hQ : (if (P.shut w).readopen = false ∧ (P.shut w).writeopen = false then none else some (P.shut w)) =
        some Q := hQ
      by_cases hboth : (P.shut w).readopen = false ∧ (P.shut w).writeopen = false
      · rw [if_pos hboth] at hQ
        cases hQ
      · rw [if_neg hboth] at hQ
        cases hQ
        rw [← Bool.not_eq_false, ← Bool.not_eq_false, ← not_and_or]
        exact hboth
    · rw [Function.update_of_ne hpage] at hQ
      exact h.alive pi' Q hQ

/-! ## Steps that touch no file -/

/-- Only the place changes, and what is returned. -/
theorem Inv.goOn (h : Inv s) (hact : (s.procs p).pc.Active) (P' : Proc) (hofile : P'.ofile = (s.procs p).ofile)
    (hskip : (s.procs p).pc.skip = none) (hskip' : P'.pc.skip = none) (hheld : P'.pc.held = (s.procs p).pc.held)
    (hfresh : ∀ f ∈ P'.pc.fresh, f ∈ (s.procs p).pc.fresh) (hok : P'.Ok) (hparent : ∀ c l, P'.pc ≠ .fork c l)
    (hends : P'.pc.closes = (s.procs p).pc.closes) : Inv (s.setProc p P') := by
  refine h.go hact P' (fun f => ?_) hfresh hok hparent hends
  have hsame := holds_same _ P' hofile hskip hskip' f
  rw [hheld] at hsame
  omega

/-- A system call returns. -/
theorem Inv.done (h : Inv s) (hact : (s.procs p).pc.Active) (hskip : (s.procs p).pc.skip = none)
    (hheld : (s.procs p).pc.held = [])
    (hcloses : (s.procs p).pc.closes = none) (hok : ret = -1 → (s.procs p).ofile = (s.procs p).old) :
    Inv (s.done p ret) :=
  h.goOn hact { s.procs p with
    pc := .user
    ret := ret } rfl hskip rfl hheld.symm (fun _ hf => absurd hf List.not_mem_nil) hok
    (fun _ _ hc => by cases hc) hcloses.symm

/-- A descriptor changes, and what it referred to is in the hands of the process. -/
theorem Inv.setFd (h : Inv s) (hact : (s.procs p).pc.Active) (fd : Fin NOFILE) (v : Option (Fin NFILE)) (pc : Pc)
    (hskip : (s.procs p).pc.skip = none) (hskip' : pc.skip = none)
    (hheld : ∀ g, pc.held.count g + (if v = some g then 1 else 0) =
      (s.procs p).pc.held.count g + if (s.procs p).ofile fd = some g then 1 else 0)
    (hfresh : ∀ f ∈ pc.fresh, f ∈ (s.procs p).pc.fresh)
    (hok : ({ s.procs p with
      ofile := Function.update (s.procs p).ofile fd v
      pc := pc } : Proc).Ok) (hparent : ∀ c l, pc ≠ .fork c l)
    (hends : pc.closes = (s.procs p).pc.closes) : Inv (s.setFd p fd v pc) := by
  let P' : Proc := { s.procs p with
    ofile := Function.update (s.procs p).ofile fd v
    pc := pc }
  refine h.go hact P' (fun g => ?_) hfresh hok hparent hends
  have hfd := holds_fd (s.procs p) P' rfl hskip hskip' g
  have hg := hheld g
  have hpc : P'.pc.held.count g = pc.held.count g := rfl
  omega

theorem active_user (hpc : (s.procs p).pc = .user) : (s.procs p).pc.Active := by
  intro q hq
  rw [hpc] at hq
  cases hq

/-- A system call begins. -/
theorem Inv.enter (h : Inv s) (hpc : (s.procs p).pc = .user) (pc : Pc) (hskip : pc.skip = none) (hheld : pc.held = [])
    (hfresh : pc.fresh = []) (hok : ({ s.procs p with
      pc := pc
      old := (s.procs p).ofile } : Proc).Ok)
    (hparent : ∀ c l, pc ≠ .fork c l) (hcloses : pc.closes = none) : Inv (s.enter p pc) := by
  refine h.goOn (active_user hpc) { s.procs p with
    pc := pc
    old := (s.procs p).ofile } rfl ?_ hskip ?_ (fun f hf => ?_) hok hparent ?_
  · rw [hpc]
    rfl
  · rw [hpc]
    exact hheld
  · have hf : f ∈ pc.fresh := hf
    rw [hfresh] at hf
    exact absurd hf List.not_mem_nil
  · rw [hpc]
    exact hcloses

theorem enter_procs (s : State) (p : Pid) (pc : Pc) : (s.enter p pc).procs p = { s.procs p with
    pc := pc
    old := (s.procs p).ofile } := Function.update_self ..

/-! ## `open` and `dup` -/

variable {m : Mode}

theorem resume_openAlloc (h : Inv s) (hpc : (s.procs p).pc = .openAlloc m) (hr : resume s p answer = some t) :
    Inv t := by
  have hact : (s.procs p).pc.Active := fun q hq => by rw [hpc] at hq; cases hq
  have hok := h.ok p
  unfold Proc.Ok at hok
  unfold resume at hr
  simp only [hpc] at hok hr
  cases hf : s.filealloc with
  | none =>
      rw [hf] at hr
      cases hr
      exact h.done hact (by rw [hpc]; rfl) (by rw [hpc]; rfl) (by rw [hpc]; rfl) fun _ => hok
  | some f =>
      rw [hf] at hr
      cases hr
      refine h.alloc hact hf (.openFd f m) (by rw [hpc]; rfl) rfl (fun g => ?_)
        (fun g hg hne => absurd (List.mem_singleton.1 hg) hne) hok (fun _ _ hc => by cases hc) (by rw [hpc]; rfl) rfl
      rw [hpc]
      exact (Nat.zero_add _).symm

theorem resume_openFd (h : Inv s) (hpc : (s.procs p).pc = .openFd f m) (hr : resume s p answer = some t) : Inv t := by
  have hact : (s.procs p).pc.Active := fun q hq => by rw [hpc] at hq; cases hq
  have hok := h.ok p
  unfold Proc.Ok at hok
  unfold resume at hr
  simp only [hpc] at hok hr
  cases hfd : (s.procs p).fdalloc with
  | none =>
      rw [hfd] at hr
      cases hr
      exact h.goOn hact { s.procs p with pc := .close [f] (-1) } rfl (by rw [hpc]; rfl) rfl (by rw [hpc]; rfl)
        (fun _ hg => absurd hg List.not_mem_nil) (fun _ => hok) (fun _ _ hc => by cases hc) (by rw [hpc]; rfl)
  | some fd =>
      rw [hfd] at hr
      cases hr
      refine h.setFd hact fd (some f) (.openSet f fd m) (by rw [hpc]; rfl) rfl (fun g => ?_) (fun g hg => ?_)
        (Function.update_self ..) (fun _ _ hc => by cases hc) (by rw [hpc]; rfl)
      · rw [hpc, fdalloc_free hfd, if_neg (Option.some_ne_none g).symm]
        show 0 + _ = [f].count g + 0
        rw [count_one]
        omega
      · rw [hpc]
        exact hg

theorem resume_openSet (h : Inv s) (hpc : (s.procs p).pc = .openSet f fd m) (hr : resume s p answer = some t) :
    Inv t := by
  have hact : (s.procs p).pc.Active := fun q hq => by rw [hpc] at hq; cases hq
  have hfresh : f ∈ (s.procs p).pc.fresh := by
    rw [hpc]
    exact List.mem_singleton_self f
  obtain ⟨hone, htype⟩ := h.fresh p f hfresh
  have hmine := (h.ok p).fresh hfresh
  unfold resume at hr
  simp only [hpc] at hr
  cases hr
  have hnew : (if m.device then FdType.device else .inode) ≠ .pipe := by split <;> decide
  let P' : Proc := { s.procs p with
    pc := .user
    ret := fd.val }
  have hholds : ∀ g, P'.holds g = (s.procs p).holds g := by
    intro g
    have hsame := holds_same (s.procs p) P' rfl (by rw [hpc]; rfl) rfl g
    have hold : (s.procs p).pc.held.count g = 0 := by rw [hpc]; rfl
    have hnew : P'.pc.held.count g = 0 := rfl
    omega
  let e : File := { s.ftable f with
    type := if m.device then .device else .inode
    readable := m.readable
    writable := m.writable }
  refine h.touch p P' f e (fun q hq => h.not_fresh (.inr hmine) hq) (congrArg _ (hholds f).symm)
    (fun g _ => hholds g) (fun h0 => ?_)
    (fun _ hg => absurd hg List.not_mem_nil) (fun hret => ?_) (fun _ _ _ hq => absurd hq (h.not_child hact))
    (fun _ _ hc => by cases hc) fun x => ?_
  · have h0 : (s.ftable f).ref = 0 := h0
    rw [hone] at h0
    cases h0
  · have hret : (fd.val : Int) = -1 := hret
    omega
  · have hfile : e.hasEnd x = 0 := if_neg fun hc => hnew hc.1
    rw [hasEnd_of_none htype, hpc]
    exact (congrArg (· + 0) hfile).symm

/-- A second descriptor has got its reference. -/
theorem resume_dup (h : Inv s) (hpc : (s.procs p).pc = .dup f fd) (hr : resume s p answer = some t) : Inv t := by
  have hact : (s.procs p).pc.Active := fun q hq => by rw [hpc] at hq; cases hq
  have hok := h.ok p
  unfold Proc.Ok at hok
  unfold resume at hr
  simp only [hpc] at hok hr
  obtain ⟨hfd, fd', hne, hfd'⟩ := hok
  have hskip : (s.procs p).pc.skip = some fd := by rw [hpc]; rfl
  have hmine : 0 < (s.procs p).holds f := by
    have hother : Function.update (s.procs p).ofile fd none fd' = some f := by rw [Function.update_of_ne hne, hfd']
    rw [holds_skip hskip]
    exact Nat.lt_of_lt_of_le (slots_pos hother) (Nat.le_add_right _ _)
  have href : ¬ (s.ftable f).ref < 1 := by
    have hle := h.refs.le p f
    have hle : (s.procs p).holds f ≤ (s.ftable f).ref := hle
    omega
  rw [if_neg href] at hr
  cases hr
  let P' : Proc := { s.procs p with
    pc := .user
    ret := fd.val }
  refine h.dup p P' (fun q hq => h.not_fresh (.inr hmine) hq) (fun g => ?_) rfl (fun hret => ?_)
    (fun _ _ _ hq => absurd hq (h.not_child hact)) (fun _ _ hc => by cases hc) (by rw [hpc]; rfl)
  · have hslots := slots_update (s.procs p).ofile fd none g
    rw [hfd, if_neg (Option.some_ne_none g).symm, ← count_one] at hslots
    rw [holds_eq (P := P') rfl, holds_skip hskip, hpc]
    show slotsOf (s.procs p).ofile g + 0 = slotsOf (Function.update (s.procs p).ofile fd none) g + 0 + _
    omega
  · have hret : (fd.val : Int) = -1 := hret
    omega

/-! ## `close` -/

variable {l : List (Fin NFILE)} {lfd : List (Fin NOFILE)}

theorem drop_procs (s : State) (f : Fin NFILE) : (s.drop f).1.procs = s.procs := by
  unfold State.drop
  simp only
  split <;> rfl

theorem pipeclose_procs (s : State) (pi : Page) (w : Bool) : (s.pipeclose pi w).procs = s.procs := by
  unfold State.pipeclose
  split
  · rfl
  · split <;> rfl

/-- A file to which a process refers is in use. -/
theorem Inv.in_use (h : Inv s) (hf : 0 < (s.procs p).holds f) : ¬ (s.ftable f).ref < 1 := by
  have hle := h.refs.le p f
  have hle : (s.procs p).holds f ≤ (s.ftable f).ref := hle
  omega

theorem resume_close (h : Inv s) (hpc : (s.procs p).pc = .close l ret) (hr : resume s p answer = some t) : Inv t := by
  have hact : (s.procs p).pc.Active := fun q hq => by rw [hpc] at hq; cases hq
  have hok := h.ok p
  unfold Proc.Ok at hok
  unfold resume at hr
  cases l with
  | nil =>
      simp only [hpc] at hok hr
      cases hr
      exact h.done hact (by rw [hpc]; rfl) (by rw [hpc]; rfl) (by rw [hpc]; rfl) hok
  | cons f l =>
      simp only [hpc] at hok hr
      have hpos := h.in_use (holds_of_held (P := s.procs p) (f := f) (by rw [hpc]; exact List.mem_cons_self))
      rw [if_neg hpos] at hr
      have hholds : ∀ (P' : Proc), P'.ofile = (s.procs p).ofile → P'.pc.skip = none → P'.pc.held = l → ∀ g,
          P'.holds g + [f].count g = (s.procs p).holds g := by
        intro P' hofile hskip hheld g
        have hsame := holds_same (s.procs p) P' hofile (by rw [hpc]; rfl) hskip g
        have hcons : (s.procs p).pc.held.count g = [f].count g + l.count g := by
          rw [hpc, ← List.count_append]
          rfl
        rw [hheld] at hsame
        omega
      have hprocs := drop_procs s f
      have hstep : ∀ P' : Proc, P'.ofile = (s.procs p).ofile → P'.pc.skip = none → P'.pc.held = l →
        P'.pc.fresh = [] → P'.Ok →
          (∀ c l, P'.pc ≠ .fork c l) → P'.pc.closes = (s.drop f).2 → Inv ((s.drop f).1.setProc p P') :=
        fun P' hofile hskip hheld hfresh hok' hparent hcloses =>
          h.drop hact P' hpos (hholds P' hofile hskip hheld) hfresh hok' hparent (by rw [hpc]; rfl) hcloses
      cases hdrop : s.drop f with
      | mk u closing =>
          rw [hdrop] at hr hprocs hstep
          cases closing with
          | none =>
              cases hr
              refine hstep { u.procs p with pc := .close l ret } ?_ rfl rfl rfl ?_ (fun _ _ hc => by cases hc) rfl
              · exact congrArg (fun procs => (procs p).ofile) hprocs
              · intro hret
                rw [hprocs]
                exact hok hret
          | some x =>
              cases hr
              refine hstep { u.procs p with pc := .pipeclose x.1 x.2 l ret } ?_ rfl rfl rfl ?_
                (fun _ _ hc => by cases hc) rfl
              · exact congrArg (fun procs => (procs p).ofile) hprocs
              · intro hret
                rw [hprocs]
                exact hok hret

theorem resume_pipeclose (h : Inv s) (hpc : (s.procs p).pc = .pipeclose pi w l ret)
    (hr : resume s p answer = some t) : Inv t := by
  have hact : (s.procs p).pc.Active := fun q hq => by rw [hpc] at hq; cases hq
  have hok := h.ok p
  unfold Proc.Ok at hok
  unfold resume at hr
  simp only [hpc] at hok hr
  cases hr
  have hrun : (s.pipeclose pi w).at p (.close l ret) =
    (s.pipeclose pi w).setProc p { s.procs p with pc := .close l ret } := by
    unfold State.at
    rw [pipeclose_procs]
  rw [hrun]
  refine h.shut hact { s.procs p with pc := .close l ret } (by rw [hpc]; rfl) (fun g => ?_) rfl hok
    (fun _ _ hc => by cases hc) rfl
  have hsame := holds_same (s.procs p) { s.procs p with pc := .close l ret } rfl (by rw [hpc]; rfl) rfl g
  have hold : (s.procs p).pc.held.count g = l.count g := by rw [hpc]; rfl
  have hnew : ({ s.procs p with pc := .close l ret } : Proc).pc.held.count g = l.count g := rfl
  omega

/-! ## `pipe` -/

variable {f0 f1 rf wf : Fin NFILE} {fd0 fd1 : Fin NOFILE}

theorem resume_pipeAlloc0 (h : Inv s) (hpc : (s.procs p).pc = .pipeAlloc0) (hr : resume s p answer = some t) :
    Inv t := by
  have hact : (s.procs p).pc.Active := fun q hq => by rw [hpc] at hq; cases hq
  have hok := h.ok p
  unfold Proc.Ok at hok
  unfold resume at hr
  simp only [hpc] at hok hr
  cases hf : s.filealloc with
  | none =>
      rw [hf] at hr
      cases hr
      exact h.done hact (by rw [hpc]; rfl) (by rw [hpc]; rfl) (by rw [hpc]; rfl) fun _ => hok
  | some f0 =>
      rw [hf] at hr
      cases hr
      refine h.alloc hact hf (.pipeAlloc1 f0) (by rw [hpc]; rfl) rfl (fun g => ?_)
        (fun g hg hne => absurd (List.mem_singleton.1 hg) hne) hok (fun _ _ hc => by cases hc) (by rw [hpc]; rfl) rfl
      rw [hpc]
      exact (Nat.zero_add _).symm

theorem resume_pipeAlloc1 (h : Inv s) (hpc : (s.procs p).pc = .pipeAlloc1 f0) (hr : resume s p answer = some t) :
    Inv t := by
  have hact : (s.procs p).pc.Active := fun q hq => by rw [hpc] at hq; cases hq
  have hok := h.ok p
  unfold Proc.Ok at hok
  unfold resume at hr
  simp only [hpc] at hok hr
  cases hf : s.filealloc with
  | none =>
      rw [hf] at hr
      cases hr
      exact h.goOn hact { s.procs p with pc := .close [f0] (-1) } rfl (by rw [hpc]; rfl) rfl (by rw [hpc]; rfl)
        (fun _ hg => absurd hg List.not_mem_nil) (fun _ => hok) (fun _ _ hc => by cases hc) (by rw [hpc]; rfl)
  | some f1 =>
      rw [hf] at hr
      cases hr
      refine h.alloc hact hf (.pipeKalloc f0 f1) (by rw [hpc]; rfl) rfl (fun g => ?_) (fun g hg hne => ?_) hok
        (fun _ _ hc => by cases hc) (by rw [hpc]; rfl) rfl
      · rw [hpc]
        exact count_two f0 f1 g
      · rw [hpc]
        rcases List.mem_cons.1 hg with rfl | hg
        · exact List.mem_singleton_self g
        · exact absurd (List.mem_singleton.1 hg) hne

/-- The two files of a pipe are different. -/
theorem Inv.two_files (h : Inv s) (hpc : (s.procs p).pc = .pipeKalloc f0 f1) : f0 ≠ f1 := by
  rintro rfl
  have hone := (h.fresh p f0 (by rw [hpc]; exact List.mem_cons_self)).1
  have hle := h.refs.le p f0
  have hle : (s.procs p).holds f0 ≤ (s.ftable f0).ref := hle
  have htwo : [f0, f0].count f0 ≤ (s.procs p).holds f0 := by
    rw [holds_eq (by rw [hpc]; rfl), hpc]
    exact Nat.le_add_left _ _
  rw [count_two, List.count_singleton_self] at htwo
  omega

/-- Two files that are no ends of pipes become the ends of a new one. -/
theorem Inv.newPipe_ends (h : Inv s) (p : Pid) {pi : Page} {f0 f1 : Fin NFILE} {e0 e1 : File} (hfree : s.pipes pi = none)
    (hne : f0 ≠ f1) (htype0 : (s.ftable f0).type = .none) (htype1 : (s.ftable f1).type = .none)
    (hend0 : ∀ x, e0.hasEnd x = if pi = x.1 ∧ false = x.2 then 1 else 0)
    (hend1 : ∀ x, e1.hasEnd x = if pi = x.1 ∧ true = x.2 then 1 else 0) (P' : Proc)
    (hproc : P'.pc.hasEnd = (s.procs p).pc.hasEnd) :
    Counted (fun x : Page × Bool => openEnd (Function.update s.pipes pi (some ⟨true, true⟩) x.1) x.2) ({ s with
      ftable := Function.update (Function.update s.ftable f0 e0) f1 e1
      pipes := Function.update s.pipes pi (some ⟨true, true⟩)
      procs := Function.update s.procs p P' } : State).hasEnd := by
  have hhas : ({ s with
      ftable := Function.update (Function.update s.ftable f0 e0) f1 e1
      pipes := Function.update s.pipes pi (some ⟨true, true⟩)
      procs := Function.update s.procs p P' } : State).hasEnd =
      Function.update (Function.update s.hasEnd (.inl f0) e0.hasEnd) (.inl f1) e1.hasEnd := by
    funext i
    rcases i with g | q
    · show (Function.update (Function.update s.ftable f0 e0) f1 e1 g).hasEnd = _
      by_cases h1 : g = f1
      · rw [h1, Function.update_self, Function.update_self]
      · rw [Function.update_of_ne h1, Function.update_of_ne fun hc => h1 (Sum.inl.inj hc)]
        by_cases h0 : g = f0
        · rw [h0, Function.update_self, Function.update_self]
        · rw [Function.update_of_ne h0, Function.update_of_ne fun hc => h0 (Sum.inl.inj hc)]
          rfl
    · rw [Function.update_of_ne Sum.inr_ne_inl, Function.update_of_ne Sum.inr_ne_inl]
      show (Function.update s.procs p P' q).pc.hasEnd = (s.procs q).pc.hasEnd
      by_cases hq : q = p
      · rw [hq, Function.update_self, hproc]
      · rw [Function.update_of_ne hq]
  rw [hhas]
  -- the end for reading first
  have hfirst : Counted (fun x : Page × Bool => openEnd (s.pipes x.1) x.2 + if pi = x.1 ∧ false = x.2 then 1 else 0)
      (Function.update s.hasEnd (.inl f0) e0.hasEnd) := by
    refine h.ends.update (.inl f0) fun x => ?_
    have hold : s.hasEnd (.inl f0) x = 0 := hasEnd_of_none htype0 x
    rw [hold, hend0, Nat.add_zero]
  refine hfirst.update (.inl f1) fun x => ?_
  have hold : s.hasEnd (.inl f1) x = 0 := hasEnd_of_none htype1 x
  rw [Function.update_of_ne fun hc => hne (Sum.inl.inj hc).symm, hold, hend1]
  obtain ⟨pi', w⟩ := x
  by_cases hpage : pi' = pi
  · subst hpage
    show openEnd (Function.update s.pipes pi' (some ⟨true, true⟩) pi') w + 0 = _
    rw [Function.update_self, hfree]
    cases w <;> simp [openEnd, Pipe.opened]
  · show openEnd (Function.update s.pipes pi (some ⟨true, true⟩) pi') w + 0 = _
    rw [Function.update_of_ne hpage, if_neg fun hc => hpage hc.1.symm, if_neg fun hc => hpage hc.1.symm]

theorem resume_pipeKalloc (h : Inv s) (hpc : (s.procs p).pc = .pipeKalloc f0 f1) (hr : resume s p answer = some t) :
    Inv t := by
  have hact : (s.procs p).pc.Active := fun q hq => by rw [hpc] at hq; cases hq
  have hok := h.ok p
  unfold Proc.Ok at hok
  unfold resume at hr
  simp only [hpc] at hok hr
  have hne := h.two_files hpc
  cases answer with
  | none =>
      cases hr
      exact h.goOn hact { s.procs p with pc := .close [f0, f1] (-1) } rfl (by rw [hpc]; rfl) rfl (by rw [hpc]; rfl)
        (fun _ hg => absurd hg List.not_mem_nil) (fun _ => hok) (fun _ _ hc => by cases hc) (by rw [hpc]; rfl)
  | some pi =>
      cases hpi : s.pipes pi with
      | some P =>
          simp only [hpi] at hr
          cases hr
      | none =>
          simp only [hpi] at hr
          cases hr
          have hf0 : f0 ∈ (s.procs p).pc.fresh := by rw [hpc]; exact List.mem_cons_self
          have hf1 : f1 ∈ (s.procs p).pc.fresh := by rw [hpc]; exact List.mem_cons_of_mem _ (List.mem_singleton_self f1)
          obtain ⟨hone0, htype0⟩ := h.fresh p f0 hf0
          obtain ⟨hone1, htype1⟩ := h.fresh p f1 hf1
          let e0 : File := { s.ftable f0 with
            type := .pipe
            readable := true
            writable := false
            pipe := pi }
          let e1 : File := { Function.update s.ftable f0 e0 f1 with
            type := .pipe
            readable := false
            writable := true
            pipe := pi }
          let P' : Proc := { s.procs p with pc := .pipeFd0 f0 f1 }
          let pipes := Function.update s.pipes pi (some ⟨true, true⟩)
          let ftable := Function.update (Function.update s.ftable f0 e0) f1 e1
          have hft0 : ftable f0 = e0 := by
            show Function.update (Function.update s.ftable f0 e0) f1 e1 f0 = e0
            rw [Function.update_of_ne hne, Function.update_self]
          have hft1 : ftable f1 = e1 := Function.update_self ..
          -- both files are the process's own, and become the two ends of the new pipe
          have hft : ∀ g, g ≠ f0 → g ≠ f1 → ftable g = s.ftable g := by
            intro g h0 h1
            show Function.update (Function.update s.ftable f0 e0) f1 e1 g = _
            rw [Function.update_of_ne h1, Function.update_of_ne h0]
          have href1 : e1.ref = 1 := by
            show (Function.update s.ftable f0 e0 f1).ref = 1
            rw [Function.update_of_ne hne.symm, hone1]
          have href : ∀ g, (ftable g).ref = (s.ftable g).ref := by
            intro g
            by_cases h0 : g = f0
            · rw [h0, hft0]
            · by_cases h1 : g = f1
              · rw [h1, hft1, href1, hone1]
              · rw [hft g h0 h1]
          -- the files are only held in another frame
          have hholds : ∀ g, P'.holds g = (s.procs p).holds g := by
            intro g
            have hsame := holds_same (s.procs p) P' rfl (by rw [hpc]; rfl) rfl g
            have hold : (s.procs p).pc.held.count g = [f0, f1].count g := by rw [hpc]; rfl
            have hnew : P'.pc.held.count g = [f0, f1].count g := rfl
            omega
          have hends : Counted (fun x : Page × Bool => openEnd (pipes x.1) x.2) ({ s with
              ftable := ftable
              pipes := pipes
              procs := Function.update s.procs p P' } : State).hasEnd :=
            h.newPipe_ends p hpi hne htype0 htype1 (hasEnd_pipe rfl) (hasEnd_pipe rfl) P' (by rw [hpc]; rfl)
          refine h.change p P' ftable pipes (fun g => by rw [href, hholds]) (fun g hg => ?_)
            (fun _ hg => absurd hg List.not_mem_nil)
            (fun g q hq hg => ?_) hok (fun _ _ _ hq => absurd hq (h.not_child hact))
            (fun _ _ hc => by cases hc) hends fun pi' Q hQ => ?_
          · rw [href] at hg
            have h0 : g ≠ f0 := by
              rintro rfl
              rw [hone0] at hg
              cases hg
            have h1 : g ≠ f1 := by
              rintro rfl
              rw [hone1] at hg
              cases hg
            rw [hft g h0 h1]
            exact h.closed g hg
          · refine hft g ?_ ?_
            · rintro rfl
              exact h.not_fresh (.inr ((h.ok p).fresh hf0)) hq hg
            · rintro rfl
              exact h.not_fresh (.inr ((h.ok p).fresh hf1)) hq hg
          · have hQ : Function.update s.pipes pi (some ⟨true, true⟩) pi' = some Q := hQ
            by_cases hpage : pi' = pi
            · rw [hpage, Function.update_self] at hQ
              cases hQ
              exact .inl rfl
            · rw [Function.update_of_ne hpage] at hQ
              exact h.alive pi' Q hQ

theorem resume_pipeFd0 (h : Inv s) (hpc : (s.procs p).pc = .pipeFd0 rf wf) (hr : resume s p answer = some t) :
    Inv t := by
  have hact : (s.procs p).pc.Active := fun q hq => by rw [hpc] at hq; cases hq
  have hok := h.ok p
  unfold Proc.Ok at hok
  unfold resume at hr
  simp only [hpc] at hok hr
  cases hfd : (s.procs p).fdalloc with
  | none =>
      rw [hfd] at hr
      cases hr
      exact h.goOn hact { s.procs p with pc := .close [rf, wf] (-1) } rfl (by rw [hpc]; rfl) rfl (by rw [hpc]; rfl)
        (fun _ hg => absurd hg List.not_mem_nil) (fun _ => hok) (fun _ _ hc => by cases hc) (by rw [hpc]; rfl)
  | some fd =>
      rw [hfd] at hr
      cases hr
      have hfree := fdalloc_free hfd
      refine h.setFd hact fd (some rf) (.pipeFd1 fd rf wf) (by rw [hpc]; rfl) rfl (fun g => ?_)
        (fun _ hg => absurd hg List.not_mem_nil) ⟨?_, ?_⟩ (fun _ _ hc => by cases hc) (by rw [hpc]; rfl)
      · rw [hpc, hfree, if_neg (Option.some_ne_none g).symm, ← count_one]
        show [wf].count g + _ = [rf, wf].count g + 0
        rw [count_two]
        omega
      · rw [← hok]
        exact hfree
      · rw [hok]

theorem resume_pipeFd1 (h : Inv s) (hpc : (s.procs p).pc = .pipeFd1 fd0 rf wf) (hr : resume s p answer = some t) :
    Inv t := by
  have hact : (s.procs p).pc.Active := fun q hq => by rw [hpc] at hq; cases hq
  have hok := h.ok p
  unfold Proc.Ok at hok
  unfold resume at hr
  simp only [hpc] at hok hr
  obtain ⟨hnone, hofile⟩ := hok
  have hfd0 : (s.procs p).ofile fd0 = some rf := by rw [hofile, Function.update_self]
  cases hfd : (s.procs p).fdalloc with
  | none =>
      rw [hfd] at hr
      cases hr
      refine h.setFd hact fd0 none (.close [rf, wf] (-1)) (by rw [hpc]; rfl) rfl (fun g => ?_)
        (fun _ hg => absurd hg List.not_mem_nil) (fun _ => ?_) (fun _ _ hc => by cases hc) (by rw [hpc]; rfl)
      · rw [hpc, hfd0, if_neg (Option.some_ne_none g).symm, ← count_one]
        show [rf, wf].count g + 0 = [wf].count g + _
        rw [count_two]
        omega
      · rw [hofile, Function.update_idem, ← hnone]
        exact Function.update_eq_self ..
  | some fd1 =>
      rw [hfd] at hr
      cases hr
      have hfree := fdalloc_free hfd
      have hne : fd0 ≠ fd1 := by
        rintro rfl
        rw [hfd0] at hfree
        cases hfree
      refine h.setFd hact fd1 (some wf) (.pipeOut fd0 fd1 rf wf) (by rw [hpc]; rfl) rfl (fun g => ?_)
        (fun _ hg => absurd hg List.not_mem_nil) ⟨hne, hnone, ?_, ?_⟩ (fun _ _ hc => by cases hc) (by rw [hpc]; rfl)
      · rw [hpc, hfree, if_neg (Option.some_ne_none g).symm, ← count_one]
        show 0 + _ = [wf].count g + 0
        omega
      · rw [hofile, Function.update_of_ne hne.symm] at hfree
        exact hfree
      · rw [hofile]

theorem resume_pipeOut (h : Inv s) (hpc : (s.procs p).pc = .pipeOut fd0 fd1 rf wf)
    (hr : resume s p answer = some t) : Inv t := by
  have hact : (s.procs p).pc.Active := fun q hq => by rw [hpc] at hq; cases hq
  have hok := h.ok p
  unfold Proc.Ok at hok
  unfold resume at hr
  simp only [hpc] at hok hr
  obtain ⟨hne, hnone0, hnone1, hofile⟩ := hok
  cases answer with
  | some pi =>
      cases hr
      exact h.done hact (by rw [hpc]; rfl) (by rw [hpc]; rfl) (by rw [hpc]; rfl) fun hret => by omega
  | none =>
      cases hr
      let P' : Proc := { s.procs p with
        ofile := Function.update (Function.update (s.procs p).ofile fd0 none) fd1 none
        pc := .close [rf, wf] (-1) }
      have hrun : (s.setFd p fd0 none (.pipeOut fd0 fd1 rf wf)).setFd p fd1 none
        (.close [rf, wf] (-1)) = s.setProc p P' := by
        unfold State.setFd State.setProc
        simp only [Function.update_self, Function.update_idem]
        rfl
      rw [hrun]
      refine h.go hact P' (fun g => ?_) (fun _ hg => absurd hg List.not_mem_nil) (fun _ => ?_)
        (fun _ _ hc => by cases hc)
        (by rw [hpc]; rfl)
      · have h0 := slots_update (s.procs p).ofile fd0 none g
        have h1 := slots_update (Function.update (s.procs p).ofile fd0 none) fd1 none g
        have hfd0 : (s.procs p).ofile fd0 = some rf := by rw [hofile, Function.update_of_ne hne, Function.update_self]
        have hfd1 : (s.procs p).ofile fd1 = some wf := by rw [hofile, Function.update_self]
        rw [hfd0, if_neg (Option.some_ne_none g).symm, ← count_one] at h0
        rw [Function.update_of_ne hne.symm, hfd1, if_neg (Option.some_ne_none g).symm, ← count_one] at h1
        rw [holds_eq (P := P') rfl, holds_eq (P := s.procs p) (by rw [hpc]; rfl), hpc]
        show slotsOf (Function.update (Function.update (s.procs p).ofile fd0 none) fd1 none) g + [rf, wf].count g =
          slotsOf (s.procs p).ofile g + 0
        rw [count_two]
        omega
      · show Function.update (Function.update (s.procs p).ofile fd0 none) fd1 none = (s.procs p).old
        funext fd
        rw [hofile]
        by_cases h1 : fd = fd1
        · rw [h1, Function.update_self, hnone1]
        · rw [Function.update_of_ne h1]
          by_cases h0 : fd = fd0
          · rw [h0, Function.update_self, hnone0]
          · rw [Function.update_of_ne h0, Function.update_of_ne h1, Function.update_of_ne h0]

/-! ## `exit` -/

theorem resume_exit (h : Inv s) (hpc : (s.procs p).pc = .exit lfd) (hr : resume s p answer = some t) : Inv t := by
  have hact : (s.procs p).pc.Active := fun q hq => by rw [hpc] at hq; cases hq
  have hok := h.ok p
  unfold Proc.Ok at hok
  unfold resume at hr
  cases lfd with
  | nil =>
      simp only [hpc] at hok hr
      cases hr
      exact h.goOn hact { s.procs p with pc := .zombie } rfl (by rw [hpc]; rfl) rfl (by rw [hpc]; rfl)
        (fun _ hg => absurd hg List.not_mem_nil) (fun fd => hok fd List.not_mem_nil) (fun _ _ hc => by cases hc)
        (by rw [hpc]; rfl)
  | cons fd lfd =>
      simp only [hpc] at hok hr
      cases hfd : (s.procs p).ofile fd with
      | none =>
          simp only [hfd] at hr
          cases hr
          refine h.goOn hact { s.procs p with pc := .exit lfd } rfl (by rw [hpc]; rfl) rfl (by rw [hpc]; rfl)
            (fun _ hg => absurd hg List.not_mem_nil) (fun fd' hfd' => ?_) (fun _ _ hc => by cases hc) (by rw [hpc]; rfl)
          by_cases he : fd' = fd
          · rw [he]
            exact hfd
          · exact hok fd' fun hmem => (List.mem_cons.1 hmem).elim he hfd'
      | some f =>
          simp only [hfd] at hr
          have hskip : (s.procs p).pc.skip = none := by rw [hpc]; rfl
          have hpos := h.in_use (holds_of_slot hskip hfd)
          rw [if_neg hpos] at hr
          -- the reference of the descriptor goes over to the fileclose() of this step
          have hslots : ∀ g, slotsOf (Function.update (s.procs p).ofile fd none) g + [f].count g =
            (s.procs p).holds g := by
            intro g
            have hup := slots_update (s.procs p).ofile fd none g
            rw [hfd, if_neg (Option.some_ne_none g).symm, ← count_one] at hup
            rw [holds_eq hskip, hpc]
            show _ = slotsOf (s.procs p).ofile g + 0
            omega
          have hprocs := drop_procs s f
          have hstep : ∀ P' : Proc, P'.counted = Function.update (s.procs p).ofile fd none → P'.pc.held = [] →
            P'.pc.fresh = [] →
              P'.Ok → (∀ c l, P'.pc ≠ .fork c l) → P'.pc.closes = (s.drop f).2 → Inv ((s.drop f).1.setProc p P') :=
            fun P' hcounted hheld hfresh hok' hparent hcloses =>
              h.drop hact P' hpos (fun g => by rw [holds_counted hheld, hcounted]; exact hslots g) hfresh hok' hparent
                (by rw [hpc]; rfl) hcloses
          cases hdrop : s.drop f with
          | mk u closing =>
              rw [hdrop] at hr hprocs hstep
              cases closing with
              | none =>
                  cases hr
                  refine hstep { u.procs p with
                    ofile := Function.update (u.procs p).ofile fd none
                    pc := .exit lfd } ?_ rfl rfl (fun fd' hfd' => ?_) (fun _ _ hc => by cases hc) rfl
                  · rw [hprocs]
                    rfl
                  · rw [hprocs]
                    show Function.update (s.procs p).ofile fd none fd' = none
                    by_cases he : fd' = fd
                    · rw [he, Function.update_self]
                    · rw [Function.update_of_ne he]
                      exact hok fd' fun hmem => (List.mem_cons.1 hmem).elim he hfd'
              | some x =>
                  cases hr
                  refine hstep { u.procs p with pc := .exitPipe x.1 x.2 fd lfd } ?_ rfl rfl ?_
                    (fun _ _ hc => by cases hc) rfl
                  · rw [hprocs]
                    rfl
                  · rw [hprocs]
                    exact hok

theorem resume_exitPipe (h : Inv s) (hpc : (s.procs p).pc = .exitPipe pi w fd lfd)
    (hr : resume s p answer = some t) : Inv t := by
  have hact : (s.procs p).pc.Active := fun q hq => by rw [hpc] at hq; cases hq
  have hok := h.ok p
  unfold Proc.Ok at hok
  unfold resume at hr
  simp only [hpc] at hok hr
  cases hr
  let P' : Proc := { s.procs p with
    ofile := Function.update (s.procs p).ofile fd none
    pc := .exit lfd }
  have hrun : (s.pipeclose pi w).setFd p fd none (.exit lfd) = (s.pipeclose pi w).setProc p P' := by
    unfold State.setFd
    rw [pipeclose_procs]
  rw [hrun]
  refine h.shut hact P' (by rw [hpc]; rfl) (fun g => ?_) rfl (fun fd' hfd' => ?_) (fun _ _ hc => by cases hc) rfl
  · have hskip : (s.procs p).pc.skip = some fd := by rw [hpc]; rfl
    rw [holds_eq (P := P') rfl, holds_skip hskip, hpc]
    rfl
  · show Function.update (s.procs p).ofile fd none fd' = none
    by_cases he : fd' = fd
    · rw [he, Function.update_self]
    · rw [Function.update_of_ne he]
      exact hok fd' fun hmem => (List.mem_cons.1 hmem).elim he hfd'

end Xv6.Ftable
