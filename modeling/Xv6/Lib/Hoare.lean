set_option autoImplicit false

/-! # Triples for code with state that may panic

Code of type `Code E S α` reads and writes a state `S` and may stop in a panic `E`. A triple names
the panics it allows: with none allowed it says that the code returns and what holds then, with all
allowed it says what holds if the code returns. -/

namespace Xv6.Lib

/-- Code over a state `S` that returns an `α` or panics with an `E`. -/
abbrev Code (E S α : Type) := StateT S (Except E) α

variable {E S α β : Type}

/-- Started where `P` holds, the code returns with `Q`, or panics as `may` allows. -/
def Triple (may : E → Prop) (P : S → Prop) (x : Code E S α) (Q : α → S → Prop) : Prop :=
  ∀ s, P s → match x s with
    | .ok (a, t) => Q a t
    | .error e => may e

/-- Where no panic is allowed, the code returns. -/
theorem Triple.exists_ok {P : S → Prop} {x : Code E S α} {Q : α → S → Prop}
    (h : Triple (fun _ => False) P x Q) {s : S} (hs : P s) : ∃ a t, x s = .ok (a, t) ∧ Q a t := by
  have hx := h s hs
  cases hr : x s with
  | error e =>
      rw [hr] at hx
      exact absurd hx id
  | ok r =>
      rw [hr] at hx
      exact ⟨r.1, r.2, rfl, hx⟩

/-- What holds where the code has returned. -/
theorem Triple.returned {may : E → Prop} {P : S → Prop} {x : Code E S α} {Q : α → S → Prop}
    (h : Triple may P x Q) {s t : S} {a : α} (hs : P s) (hx : x s = .ok (a, t)) : Q a t := by
  have hq := h s hs
  rw [hx] at hq
  exact hq

/-- Code that has returned has done so after each of its parts. -/
theorem bind_returned {x : Code E S α} {f : α → Code E S β} {s t : S} {b : β}
    (h : (x >>= f) s = .ok (b, t)) : ∃ a u, x s = .ok (a, u) ∧ f a u = .ok (b, t) := by
  have hx : (x s >>= fun r => f r.1 r.2) = .ok (b, t) := h
  cases hr : x s with
  | error e =>
      rw [hr] at hx
      cases hx
  | ok r =>
      rw [hr] at hx
      exact ⟨r.1, r.2, rfl, hx⟩

/-- Code runs on after a part that has returned. -/
theorem bind_of_ok {x : Code E S α} {f : α → Code E S β} {s t : S} {a : α} (h : x s = .ok (a, t)) :
    (x >>= f) s = f a t := by
  show (x s >>= fun r => f r.1 r.2) = f a t
  rw [h]
  rfl

/-- Code does not run on after a panic. -/
theorem bind_of_error {x : Code E S α} (f : α → Code E S β) {s : S} {e : E} (h : x s = .error e) :
    (x >>= f) s = .error e := by
  show (x s >>= fun r => f r.1 r.2) = .error e
  rw [h]
  rfl

theorem Triple.conseq {may : E → Prop} {P P' : S → Prop} {x : Code E S α}
    {Q Q' : α → S → Prop} (h : Triple may P x Q) (hpre : ∀ s, P' s → P s)
    (hpost : ∀ a s, Q a s → Q' a s) : Triple may P' x Q' := by
  intro s hs
  have hx := h s (hpre s hs)
  revert hx
  cases x s with
  | error e => exact id
  | ok r => exact hpost r.1 r.2

/-- More panics are allowed. -/
theorem Triple.mono {may may' : E → Prop} {P : S → Prop} {x : Code E S α} {Q : α → S → Prop} (h : Triple may P x Q)
    (hmay : ∀ e, may e → may' e) : Triple may' P x Q := by
  intro s hs
  have hx := h s hs
  revert hx
  cases x s with
  | error e => exact hmay e
  | ok r => exact id

theorem Triple.and {may : E → Prop} {P : S → Prop} {x : Code E S α} {Q Q' : α → S → Prop}
    (h : Triple may P x Q) (h' : Triple may P x Q') :
    Triple may P x fun a s => Q a s ∧ Q' a s := by
  intro s hs
  have hx := h s hs
  have hx' := h' s hs
  revert hx hx'
  cases x s with
  | error e => exact fun he _ => he
  | ok r => exact fun hq hq' => ⟨hq, hq'⟩

/-- What is known of the code without its panics helps to rule panics out. -/
theorem Triple.with {may : E → Prop} {P P' : S → Prop} {x : Code E S α} {Q Q' : α → S → Prop}
    (h : Triple (fun _ => True) P x Q) (h' : Triple may (fun s => P s ∧ P' s) x Q') :
    Triple may (fun s => P s ∧ P' s) x fun a s => Q a s ∧ Q' a s := by
  intro s hs
  have hx := h s hs.1
  have hx' := h' s hs
  revert hx hx'
  cases x s with
  | error e => exact fun _ he => he
  | ok r => exact fun hq hq' => ⟨hq, hq'⟩

theorem Triple.pure {may : E → Prop} {P : S → Prop} {Q : α → S → Prop} (a : α)
    (h : ∀ s, P s → Q a s) : Triple may P (Pure.pure a : Code E S α) Q :=
  fun s hs => h s hs

theorem Triple.throw {may : E → Prop} {P : S → Prop} {Q : α → S → Prop} (e : E)
    (h : ∀ s, P s → may e) : Triple may P (throw e : Code E S α) Q :=
  fun s hs => h s hs

theorem Triple.bind {may : E → Prop} {P : S → Prop} {R : α → S → Prop} {Q : β → S → Prop}
    {x : Code E S α} {f : α → Code E S β} (hx : Triple may P x R)
    (hf : ∀ a, Triple may (R a) (f a) Q) : Triple may P (x >>= f) Q := by
  intro s hs
  have hxs := hx s hs
  show match (x s >>= fun p => f p.1 p.2) with
    | .ok (a, t) => Q a t
    | .error e => may e
  revert hxs
  cases x s with
  | error e => exact id
  | ok r => exact fun hr => hf r.1 r.2 hr

theorem Triple.get {may : E → Prop} {P : S → Prop} {Q : S → S → Prop}
    (h : ∀ s, P s → Q s s) : Triple may P (get : Code E S S) Q :=
  fun s hs => h s hs

theorem Triple.set {may : E → Prop} {P : S → Prop} {Q : PUnit → S → Prop} (t : S)
    (h : ∀ s, P s → Q ⟨⟩ t) : Triple may P (set t : Code E S PUnit) Q :=
  fun s hs => h s hs

theorem Triple.modify {may : E → Prop} {P : S → Prop} {Q : PUnit → S → Prop} (f : S → S)
    (h : ∀ s, P s → Q ⟨⟩ (f s)) : Triple may P (modify f : Code E S PUnit) Q :=
  fun s hs => h s hs

theorem Triple.ite {may : E → Prop} {P : S → Prop} {Q : α → S → Prop} {x y : Code E S α}
    {c : Prop} [Decidable c] (ht : c → Triple may P x Q) (hf : ¬ c → Triple may P y Q) :
    Triple may P (if c then x else y) Q := by
  by_cases hc : c
  · rw [if_pos hc]
    exact ht hc
  · rw [if_neg hc]
    exact hf hc

/-- A loop over a list keeps what each round keeps. -/
theorem Triple.forM {may : E → Prop} {inv : S → Prop} {l : List α} {f : α → Code E S PUnit}
    (h : ∀ a ∈ l, Triple may inv (f a) fun _ => inv) :
    Triple may inv (l.forM f) fun _ => inv := by
  induction l with
  | nil => exact Triple.pure _ fun _ hs => hs
  | cons a l ih =>
      refine Triple.bind (h a (List.mem_cons_self ..)) fun _ => ?_
      exact ih fun b hb => h b (List.mem_cons_of_mem _ hb)

/-- A loop over a list, with an invariant that knows which elements are left. -/
theorem Triple.forM_left {may : E → Prop} {I : List α → S → Prop} {f : α → Code E S PUnit}
    (h : ∀ a l, Triple may (I (a :: l)) (f a) fun _ => I l) (l : List α) :
    Triple may (I l) (l.forM f) fun _ => I [] := by
  induction l with
  | nil => exact Triple.pure _ fun _ hs => hs
  | cons a l ih => exact Triple.bind (h a l) fun _ => ih

/-- A part of the precondition that is not about the state. -/
theorem Triple.assume {may : E → Prop} {P : S → Prop} {x : Code E S α} {Q : α → S → Prop}
    {c : Prop} (h : c → Triple may P x Q) : Triple may (fun s => P s ∧ c) x Q :=
  fun s hs => h hs.2 s hs.1

/-- A precondition, one state at a time. -/
theorem Triple.each {may : E → Prop} {P : S → Prop} {x : Code E S α} {Q : α → S → Prop}
    (h : ∀ s, P s → Triple may (fun t => t = s) x Q) : Triple may P x Q :=
  fun s hs => h s hs s rfl

/-- Code that looks at the state first. -/
theorem Triple.bind_get {may : E → Prop} {P : S → Prop} {Q : β → S → Prop} {f : S → Code E S β}
    (h : ∀ s, P s → Triple may (fun t => t = s) (f s) Q) : Triple may P (MonadState.get >>= f) Q :=
  fun s hs => h s hs s rfl

/-- Code that looks at the state, of which the precondition still holds then. -/
theorem Triple.look {may : E → Prop} {P : S → Prop} {Q : β → S → Prop} {f : S → Code E S β}
    (h : ∀ s, P s → Triple may P (f s) Q) : Triple may P (MonadState.get >>= f) Q :=
  fun s hs => h s hs s hs

/-- A condition on an optional result. -/
def Cases (P : S → Prop) (Q : α → S → Prop) : Option α → S → Prop
  | none => P
  | some a => Q a

theorem Triple.exists {ι : Type} {may : E → Prop} {P : ι → S → Prop} {x : Code E S α}
    {Q : α → S → Prop} (h : ∀ i, Triple may (P i) x Q) :
    Triple may (fun s => ∃ i, P i s) x Q := by
  rintro s ⟨i, hi⟩
  exact h i s hi

theorem Triple.or {may : E → Prop} {P P' : S → Prop} {x : Code E S α} {Q : α → S → Prop}
    (h : Triple may P x Q) (h' : Triple may P' x Q) : Triple may (fun s => P s ∨ P' s) x Q := by
  rintro s (hs | hs)
  · exact h s hs
  · exact h' s hs

/-- Code whose result is known. -/
theorem Triple.of_ok {may : E → Prop} {P : S → Prop} {x : Code E S α} {Q : α → S → Prop}
    (h : ∀ s, P s → ∃ a t, x s = .ok (a, t) ∧ Q a t) : Triple may P x Q := by
  intro s hs
  obtain ⟨a, t, hx, hq⟩ := h s hs
  rw [hx]
  exact hq

/-- Nothing is left to show where the precondition is false. -/
theorem Triple.of_false {may : E → Prop} {P : S → Prop} {x : Code E S α} {Q : α → S → Prop}
    (h : ∀ s, ¬ P s) : Triple may P x Q :=
  fun s hs => absurd hs (h s)

end Xv6.Lib
