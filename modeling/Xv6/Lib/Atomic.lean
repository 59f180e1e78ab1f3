import Xv6.Lib.Hoare

set_option autoImplicit false

/-! # Programs of atomic steps

A program is a row of steps, each of which is code that runs without being disturbed; between two
of them anything else may happen to the state. What holds of a program whatever happens between its
steps is a predicate `Fit` on the program and on a ghost value, which only its own steps change: the
predicate does not look at the state, so the steps of others cannot invalidate it. -/

namespace Xv6.Lib

/-- A program over the state `S` whose steps may panic with an `E`. -/
inductive Prog (E S α : Type) : Type 1 where
  | done (a : α)
  | step {β : Type} (x : Code E S β) (f : β → Prog E S α)

namespace Prog

variable {E S α β G : Type}

def bind : Prog E S α → (α → Prog E S β) → Prog E S β
  | .done a, g => g a
  | .step x f, g => .step x fun b => (f b).bind g

instance : Monad (Prog E S) where
  pure := .done
  bind := bind

/-- Code as a single step. -/
instance : MonadLift (Code E S) (Prog E S) where
  monadLift x := .step x .done

/-- The steps one right after the other. -/
def run : Prog E S α → Code E S α
  | .done a => pure a
  | .step x f => x >>= fun b => (f b).run

@[simp] theorem run_pure (a : α) : (pure a : Prog E S α).run = pure a := rfl

@[simp] theorem run_lift (x : Code E S α) : (liftM x : Prog E S α).run = x := bind_pure x

@[simp] theorem run_get : (get : Prog E S S).run = get := bind_pure _

@[simp] theorem run_modify (f : S → S) : (modify f : Prog E S PUnit).run = modify f := bind_pure _

@[simp] theorem run_bind (x : Prog E S α) (f : α → Prog E S β) : (x >>= f).run = x.run >>= fun a => (f a).run := by
  induction x with
  | done a => exact (pure_bind a fun a => (f a).run).symm
  | step x g ih =>
      refine Eq.trans (bind_congr fun b => ?_) (bind_assoc x _ _).symm
      exact ih b

@[simp] theorem run_ite (c : Prop) [Decidable c] (x y : Prog E S α) :
    (if c then x else y).run = if c then x.run else y.run := apply_ite run c x y

theorem run_forM (l : List α) (f : α → Prog E S PUnit) : (l.forM f).run = l.forM fun a => (f a).run := by
  induction l with
  | nil => rfl
  | cons a l ih => exact (run_bind (f a) fun _ => l.forM f).trans (bind_congr fun _ => ih)

/-- From the ghost value on, every step of the program may be taken, and `Q` holds of its result; `may x g R`
    says that the step `x` may be taken with the ghost value `g` and ends in a value with `R`. -/
def Fit (may : {β : Type} → Code E S β → G → (β → G → Prop) → Prop) (Q : α → G → Prop) : Prog E S α → G → Prop
  | .done a, g => Q a g
  | .step x f, g => may x g fun b h => (f b).Fit may Q h

variable {may : {β : Type} → Code E S β → G → (β → G → Prop) → Prop} {Q : β → G → Prop} {R : α → G → Prop} {g : G}

/-- A step may be taken for the sake of less. -/
def Monotone (may : {β : Type} → Code E S β → G → (β → G → Prop) → Prop) : Prop :=
  ∀ {β : Type} (x : Code E S β) (g : G) (R R' : β → G → Prop), (∀ b h, R b h → R' b h) → may x g R → may x g R'

theorem Fit.bind (hmono : Monotone @may) {x : Prog E S α} {f : α → Prog E S β} (hx : x.Fit may R g)
    (hf : ∀ a h, R a h → (f a).Fit may Q h) : (x >>= f).Fit may Q g := by
  induction x generalizing g with
  | done a => exact hf a g hx
  | step x k ih => exact hmono x g _ _ (fun b h hb => ih b hb) hx

theorem Fit.mono (hmono : Monotone @may) {x : Prog E S α} {R' : α → G → Prop} (hx : x.Fit may R g)
    (h : ∀ a g, R a g → R' a g) : x.Fit may R' g := by
  induction x generalizing g with
  | done a => exact h a g hx
  | step x k ih => exact hmono x g _ _ (fun b h' hb => ih b hb) hx

theorem Fit.forM (hmono : Monotone @may) {l : List α} {f : α → Prog E S PUnit} (g : G)
    (h : ∀ a ∈ l, (f a).Fit may (fun _ g' => g' = g) g) : (l.forM f).Fit may (fun _ g' => g' = g) g := by
  induction l with
  | nil => exact rfl
  | cons a l ih =>
      refine Fit.bind hmono (h a (List.mem_cons_self ..)) fun _ g' hg => ?_
      subst hg
      exact ih fun b hb => h b (List.mem_cons_of_mem _ hb)

end Prog

end Xv6.Lib
