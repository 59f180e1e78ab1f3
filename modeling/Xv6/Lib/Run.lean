import Mathlib.Data.List.Basic

set_option autoImplicit false

/-! # Runs of a step function

A system is given by a partial step function `step : S → L → Option S`: the label says who moves
and what the environment answers, `none` says that the label is not enabled. A run is the list of
its labels. Two rules are provided: an invariant that every step preserves holds after every run,
and an invariant that is only preserved by the steps meeting a condition holds after every run all
of whose steps meet it. -/

namespace Xv6.Lib

universe u v

variable {S : Type u} {L : Type v}

/-- Take the steps of a run one after the other; `none` as soon as one is not enabled. -/
def runSteps (step : S → L → Option S) (s : S) : List L → Option S
  | [] => some s
  | l :: ls => (step s l).bind fun t => runSteps step t ls

@[simp] theorem runSteps_nil (step : S → L → Option S) (s : S) : runSteps step s [] = some s := rfl

theorem runSteps_cons (step : S → L → Option S) (s : S) (l : L) (ls : List L) :
    runSteps step s (l :: ls) = (step s l).bind fun t => runSteps step t ls := rfl

theorem runSteps_cons_eq_some {step : S → L → Option S} {s u : S} {l : L} {ls : List L} :
    runSteps step s (l :: ls) = some u ↔ ∃ t, step s l = some t ∧ runSteps step t ls = some u := by
  rw [runSteps_cons, Option.bind_eq_some_iff]

theorem runSteps_append {step : S → L → Option S} (s : S) (ls ms : List L) :
    runSteps step s (ls ++ ms) = (runSteps step s ls).bind fun t => runSteps step t ms := by
  induction ls generalizing s with
  | nil => rfl
  | cons l ls ih =>
      simp only [List.cons_append, runSteps_cons]
      cases step s l with
      | none => rfl
      | some t => exact ih t

/-- Every step of the run from `s` satisfies `ok` in the state it is taken in. -/
def AllSteps (step : S → L → Option S) (ok : S → L → Prop) (s : S) : List L → Prop
  | [] => True
  | l :: ls => ok s l ∧ ∀ t, step s l = some t → AllSteps step ok t ls

theorem AllSteps.append_left {step : S → L → Option S} {ok : S → L → Prop} {s : S}
    {ls ms : List L} (h : AllSteps step ok s (ls ++ ms)) : AllSteps step ok s ls := by
  induction ls generalizing s with
  | nil => trivial
  | cons l ls ih => exact ⟨h.1, fun t ht => ih (h.2 t ht)⟩

theorem AllSteps.append {step : S → L → Option S} {ok : S → L → Prop} {s t : S} {ls ms : List L}
    (h : AllSteps step ok s ls) (hrun : runSteps step s ls = some t) (h' : AllSteps step ok t ms) :
    AllSteps step ok s (ls ++ ms) := by
  induction ls generalizing s with
  | nil => exact (Option.some.inj hrun) ▸ h'
  | cons l ls ih =>
      obtain ⟨u, hu, hrest⟩ := runSteps_cons_eq_some.1 hrun
      refine ⟨h.1, fun v hv => ?_⟩
      obtain rfl : u = v := Option.some.inj (hu.symm.trans hv)
      exact ih (h.2 u hu) hrest

theorem AllSteps.of_forall {step : S → L → Option S} {ok : S → L → Prop} {ls : List L}
    (h : ∀ l ∈ ls, ∀ s, ok s l) (s : S) : AllSteps step ok s ls := by
  induction ls generalizing s with
  | nil => trivial
  | cons l ls ih =>
      exact ⟨h l (List.mem_cons_self ..) s, fun t _ => ih (fun l' hl => h l' (List.mem_cons_of_mem _ hl)) t⟩

theorem AllSteps.mono {step : S → L → Option S} {ok ok' : S → L → Prop} {s : S} {ls : List L}
    (hok : ∀ s l, ok s l → ok' s l) (h : AllSteps step ok s ls) : AllSteps step ok' s ls := by
  induction ls generalizing s with
  | nil => trivial
  | cons l ls ih => exact ⟨hok s l h.1, fun t ht => ih (h.2 t ht)⟩

theorem AllSteps.and {step : S → L → Option S} {ok ok' : S → L → Prop} {s : S} {ls : List L}
    (h : AllSteps step ok s ls) (h' : AllSteps step ok' s ls) :
    AllSteps step (fun s l => ok s l ∧ ok' s l) s ls := by
  induction ls generalizing s with
  | nil => trivial
  | cons l ls ih => exact ⟨⟨h.1, h'.1⟩, fun t ht => ih (h.2 t ht) (h'.2 t ht)⟩

instance decidableAllSteps (step : S → L → Option S) (ok : S → L → Prop)
    [∀ s l, Decidable (ok s l)] : (s : S) → (ls : List L) → Decidable (AllSteps step ok s ls)
  | _, [] => isTrue trivial
  | s, l :: ls =>
    match hstep : step s l with
    | none => decidable_of_iff (ok s l)
        ⟨fun h => ⟨h, fun _ ht => absurd (hstep.symm.trans ht) (by simp)⟩, And.left⟩
    | some t =>
      have := decidableAllSteps step ok t ls
      decidable_of_iff (ok s l ∧ AllSteps step ok t ls)
        ⟨fun h => ⟨h.1, fun _ ht => Option.some.inj (hstep.symm.trans ht) ▸ h.2⟩,
          fun h => ⟨h.1, h.2 t hstep⟩⟩

/-- The invariant rule. -/
theorem runSteps_invariant {step : S → L → Option S} {I : S → Prop}
    (hstep : ∀ s l t, I s → step s l = some t → I t) {s u : S} {ls : List L}
    (hs : I s) (hrun : runSteps step s ls = some u) : I u := by
  induction ls generalizing s with
  | nil => exact (Option.some.inj hrun) ▸ hs
  | cons l ls ih =>
      obtain ⟨t, ht, hrest⟩ := runSteps_cons_eq_some.1 hrun
      exact ih (hstep s l t hs ht) hrest

/-- The invariant rule for the runs whose steps all meet a condition. -/
theorem runSteps_invariant_of_allSteps {step : S → L → Option S} {I : S → Prop}
    {ok : S → L → Prop} (hstep : ∀ s l t, I s → ok s l → step s l = some t → I t) {s u : S}
    {ls : List L} (hs : I s) (hok : AllSteps step ok s ls) (hrun : runSteps step s ls = some u) :
    I u := by
  induction ls generalizing s with
  | nil => exact (Option.some.inj hrun) ▸ hs
  | cons l ls ih =>
      obtain ⟨t, ht, hrest⟩ := runSteps_cons_eq_some.1 hrun
      exact ih (hstep s l t hs hok.1 ht) (hok.2 t ht) hrest

/-- Steps that meet one condition in states of an invariant that they keep meet another one as well. -/
theorem AllSteps.of_invariant {step : S → L → Option S} {I : S → Prop} {ok ok' : S → L → Prop}
    (hstep : ∀ s l t, I s → ok s l → step s l = some t → I t) (hok : ∀ s l, I s → ok s l → ok' s l)
    {s : S} {ls : List L} (hs : I s) (h : AllSteps step ok s ls) : AllSteps step ok' s ls := by
  induction ls generalizing s with
  | nil => trivial
  | cons l ls ih => exact ⟨hok s l hs h.1, fun t ht => ih (hstep s l t hs h.1 ht) (h.2 t ht)⟩

/-- When the steps that meet `ok` keep an invariant, and any other step leaves a state without `P`,
    then `P` holds all along a run exactly if all its steps meet `ok`. -/
theorem forall_prefix_iff_allSteps {step : S → L → Option S} {I P : S → Prop} {ok : S → L → Prop}
    (hIP : ∀ s, I s → P s) (hgood : ∀ s l t, I s → ok s l → step s l = some t → I t)
    (hbad : ∀ s l t, I s → ¬ ok s l → step s l = some t → ¬ P t) {s u : S} {ls : List L}
    (hs : I s) (hrun : runSteps step s ls = some u) :
    (∀ pre suf v, ls = pre ++ suf → runSteps step s pre = some v → P v) ↔
      AllSteps step ok s ls := by
  constructor
  · intro h
    induction ls generalizing s with
    | nil => trivial
    | cons l ls ih =>
        obtain ⟨t, ht, hrest⟩ := runSteps_cons_eq_some.1 hrun
        have hok : ok s l := by
          by_contra hno
          have hPt : P t := h [l] ls t rfl (runSteps_cons_eq_some.2 ⟨t, ht, rfl⟩)
          exact hbad s l t hs hno ht hPt
        refine ⟨hok, fun t' ht' => ?_⟩
        obtain rfl : t = t' := Option.some.inj (ht.symm.trans ht')
        refine ih (hgood s l t hs hok ht) hrest fun pre suf v hls hv => ?_
        exact h (l :: pre) suf v (by rw [hls]; rfl) (runSteps_cons_eq_some.2 ⟨t, ht, hv⟩)
  · intro h pre suf v hls hv
    subst hls
    exact hIP v (runSteps_invariant_of_allSteps hgood hs h.append_left hv)

/-- `s` is reached from some initial state by some run. -/
def Reachable (step : S → L → Option S) (init : S → Prop) (s : S) : Prop :=
  ∃ s₀ ls, init s₀ ∧ runSteps step s₀ ls = some s

theorem Reachable.invariant {step : S → L → Option S} {init : S → Prop} {I : S → Prop}
    (hinit : ∀ s, init s → I s) (hstep : ∀ s l t, I s → step s l = some t → I t) {s : S}
    (h : Reachable step init s) : I s := by
  obtain ⟨s₀, ls, h₀, hrun⟩ := h
  exact runSteps_invariant hstep (hinit s₀ h₀) hrun

end Xv6.Lib
