import Mathlib.Data.List.Basic

set_option autoImplicit false

/-! # Computations over durable storage

A computation of type `Durable V D α` owns a volatile part `V`, lost at a crash, and a durable part
`D`, changed only by atomic writes. It yields its result, the volatile part it ends with and the
durable values it passes through, one for each write and oldest first: these, with the durable
value it starts from, are exactly the values a crash can leave behind.

`Triple P p Q C` is a Hoare triple with a crash condition: from a state with `P`, the computation
ends in `Q` and every durable value written on the way satisfies `C`. The rules follow the
structure of the computation; `CrashRecover` iterates a recovery computation over any number of
further crashes, with one rule for it. -/

namespace Xv6.Lib

variable {V D α β : Type}

/-- What a computation yields: result, volatile part, durable values passed through. -/
structure Outcome (V D α : Type) where
  val : α
  vol : V
  trace : List D

/-- A computation over a volatile part `V` and a durable part `D`. -/
def Durable (V D α : Type) : Type := V → D → Outcome V D α

namespace Durable

/-- The durable part a computation ends with: the last one written. -/
def dur (p : Durable V D α) (v : V) (d : D) : D := (p v d).trace.getLastD d

protected def pure (a : α) : Durable V D α := fun v _ => ⟨a, v, []⟩

protected def bind (p : Durable V D α) (f : α → Durable V D β) : Durable V D β := fun v d =>
  let r := p v d
  let r' := f r.val r.vol (p.dur v d)
  ⟨r'.val, r'.vol, r.trace ++ r'.trace⟩

instance : Monad (Durable V D) where
  pure := Durable.pure
  bind := Durable.bind

/-- Read the volatile and the durable part, and change the volatile part. -/
def access (f : V → D → α × V) : Durable V D α := fun v d => ⟨(f v d).1, (f v d).2, []⟩

/-- One atomic write of the durable part. -/
def write (f : V → D → D) : Durable V D Unit := fun v d => ⟨(), v, [f v d]⟩

/-- `body 0`, `body 1`, …, `body (n - 1)` in this order. -/
def upto (body : Nat → Durable V D Unit) : Nat → Durable V D Unit
  | 0 => pure ()
  | n + 1 => do upto body n; body n

/-- The durable values a crash of `p` can leave behind: after no write, after one, and so on. -/
def crashPoints (p : Durable V D α) (v : V) (d : D) : List D := d :: (p v d).trace

/-! ## Unfolding a sequence -/

theorem bind_trace (p : Durable V D α) (f : α → Durable V D β) (v : V) (d : D) :
    ((p >>= f) v d).trace
      = (p v d).trace ++ (f (p v d).val (p v d).vol (p.dur v d)).trace := rfl

theorem getLastD_append (l m : List D) (d : D) :
    (l ++ m).getLastD d = m.getLastD (l.getLastD d) := by
  cases m with
  | nil => simp
  | cons a m => simp [List.getLast?_cons]

theorem bind_dur (p : Durable V D α) (f : α → Durable V D β) (v : V) (d : D) :
    (p >>= f).dur v d = (f (p v d).val).dur (p v d).vol (p.dur v d) := by
  simp only [dur, bind_trace, getLastD_append]

/-! ## Triples with a crash condition -/

/-- From `P`, `p` ends in `Q`, and every durable value written on the way satisfies `C`. -/
def Triple (P : V → D → Prop) (p : Durable V D α) (Q : α → V → D → Prop) (C : D → Prop) : Prop :=
  ∀ v d, P v d → Q (p v d).val (p v d).vol (p.dur v d) ∧ ∀ d' ∈ (p v d).trace, C d'

theorem Triple.conseq {P P' : V → D → Prop} {p : Durable V D α} {Q Q' : α → V → D → Prop}
    {C C' : D → Prop} (h : Triple P p Q C) (hP : ∀ v d, P' v d → P v d)
    (hQ : ∀ a v d, Q a v d → Q' a v d) (hC : ∀ d, C d → C' d) : Triple P' p Q' C' := by
  intro v d hp
  obtain ⟨hq, hc⟩ := h v d (hP v d hp)
  exact ⟨hQ _ _ _ hq, fun d' hd' => hC d' (hc d' hd')⟩

theorem Triple.pure {P : V → D → Prop} {C : D → Prop} {a : α} {Q : α → V → D → Prop}
    (h : ∀ v d, P v d → Q a v d) : Triple P (Pure.pure a : Durable V D α) Q C := by
  intro v d hp
  refine ⟨h v d hp, fun d' hd' => ?_⟩
  change d' ∈ ([] : List D) at hd'
  exact absurd hd' (by simp)

theorem Triple.bind {P : V → D → Prop} {p : Durable V D α} {f : α → Durable V D β}
    {R : α → V → D → Prop} {Q : β → V → D → Prop} {C : D → Prop} (hp : Triple P p R C)
    (hf : ∀ a, Triple (R a) (f a) Q C) : Triple P (p >>= f) Q C := by
  intro v d h
  obtain ⟨hr, hc⟩ := hp v d h
  obtain ⟨hq, hc'⟩ := hf _ _ _ hr
  refine ⟨?_, fun d' hd' => ?_⟩
  · rwa [bind_dur]
  · rw [bind_trace, List.mem_append] at hd'
    exact hd'.elim (hc d') (hc' d')

theorem Triple.access {P : V → D → Prop} {C : D → Prop} {f : V → D → α × V}
    {Q : α → V → D → Prop} (h : ∀ v d, P v d → Q (f v d).1 (f v d).2 d) :
    Triple P (access f) Q C := by
  intro v d hp
  exact ⟨h v d hp, fun d' hd' => absurd hd' (by simp [Durable.access])⟩

theorem Triple.write {P : V → D → Prop} {C : D → Prop} {f : V → D → D} {Q : Unit → V → D → Prop}
    (h : ∀ v d, P v d → Q () v (f v d)) (hC : ∀ v d, P v d → C (f v d)) :
    Triple P (write f) Q C := by
  intro v d hp
  refine ⟨h v d hp, fun d' hd' => ?_⟩
  rw [List.mem_singleton.1 hd']
  exact hC v d hp

/-- Two triples with different preconditions. -/
theorem Triple.or {P P' : V → D → Prop} {p : Durable V D α} {Q : α → V → D → Prop} {C : D → Prop}
    (h : Triple P p Q C) (h' : Triple P' p Q C) :
    Triple (fun v d => P v d ∨ P' v d) p Q C := by
  intro v d hp
  rcases hp with hp | hp
  · exact h v d hp
  · exact h' v d hp

/-- The loop rule: `I i` holds before round `i`. -/
theorem Triple.upto {I : Nat → V → D → Prop} {C : D → Prop} {body : Nat → Durable V D Unit}
    (n : Nat) (h : ∀ i < n, Triple (I i) (body i) (fun _ => I (i + 1)) C) :
    Triple (I 0) (upto body n) (fun _ => I n) C := by
  induction n with
  | zero => exact Triple.pure fun _ _ hi => hi
  | succ n ih =>
      have hpre : Triple (I 0) (Durable.upto body n) (fun _ => I n) C :=
        ih fun i hi => h i (Nat.lt_succ_of_lt hi)
      exact hpre.bind fun _ => h n (Nat.lt_succ_self n)

/-- The durable values written from a state with `P`, and the one it started with. -/
theorem Triple.crashPoints {P : V → D → Prop} {p : Durable V D α} {Q : α → V → D → Prop}
    {C : D → Prop} (h : Triple P p Q C) {v : V} {d d' : D} (hP : P v d) (hd : C d)
    (hd' : d' ∈ p.crashPoints v d) : C d' := by
  rcases List.mem_cons.1 hd' with rfl | hd'
  · exact hd
  · exact (h v d hP).2 d' hd'

/-! ## Recovery after any number of crashes -/

/-- From `d`, any number of runs of `rec`, each started with the volatile part `boot` and cut off
    at some crash point, leave `d'`. -/
inductive CrashRecover (rec : Durable V D α) (boot : V) : D → D → Prop
  | refl (d : D) : CrashRecover rec boot d d
  | crash {d d' d'' : D} (h : CrashRecover rec boot d d')
      (hcut : d'' ∈ rec.crashPoints boot d') : CrashRecover rec boot d d''

/-- The recovery rule: a crash condition that recovery itself keeps is there when it is next
    started, and a run to completion ends in its postcondition. -/
theorem CrashRecover.complete {rec : Durable V D α} {boot : V} {C : D → Prop}
    {Q : α → V → D → Prop} (hrec : Triple (fun v d => v = boot ∧ C d) rec Q C) {d d' : D}
    (hd : C d) (h : CrashRecover rec boot d d') :
    C d' ∧ Q (rec boot d').val (rec boot d').vol (rec.dur boot d') := by
  have hC : C d' := by
    induction h with
    | refl => exact hd
    | crash _ hcut ih => exact hrec.crashPoints ⟨rfl, ih⟩ ih hcut
  exact ⟨hC, (hrec boot d' ⟨rfl, hC⟩).1⟩

end Durable

end Xv6.Lib
