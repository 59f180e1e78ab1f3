import Xv6.Sched.Model

set_option autoImplicit false

/-! # Parents and children

What `fork`, `exit` and `wait` are for: a process is a member of the family from its `fork` until its
parent has reaped it. The events of a run are judged against that. -/

namespace Xv6.Sched

open Xv6.Lib
open Xv6.ProcTable (ProcState Chan Proc Table initproc freeproc)

structure Member where
  pid : BitVec 32
  /-- Its creator, or `initproc` once its creator has gone into `exit`. -/
  parent : Option Slot
  /-- The status, once it has gone into `exit`. -/
  exit : Option (BitVec 32)

abbrev Family := Slot → Option Member

namespace Family

def Childless (f : Family) (p : Slot) : Prop := ∀ q m, f q = some m → m.parent ≠ some p

/-- It has gone into `exit`. -/
def Exiting (f : Family) (p : Slot) : Prop := ∃ m, f p = some m ∧ m.exit.isSome

/-- What may happen to a family. Nobody leaves it while he has children. -/
inductive Step (f : Family) : Event → Family → Prop where
  | forked {p q : Slot} {pid : BitVec 32} {m : Member} (hp : f p = some m) (hexit : m.exit = none)
      (hq : f q = none) :
      Step f (.forked p q pid) (Function.update f q (some ⟨pid, some p, none⟩))
  | freed {q : Slot} {m : Member} (hq : f q = some m) (hexit : m.exit = none) (hchildren : f.Childless q) :
      Step f (.freed q) (Function.update f q none)
  | exiting {p : Slot} {status : BitVec 32} {m : Member} (hp : f p = some m) (hexit : m.exit = none) :
      Step f (.exiting p status) (Function.update f p (some { m with exit := some status }))
  | reparented {p q : Slot} {m : Member} (hq : f q = some m) (hparent : m.parent = some p)
      (hexit : f.Exiting p) :
      Step f (.reparented q) (Function.update f q (some { m with parent := some initproc }))
  | reaped {p q : Slot} {status : BitVec 32} {delivered : Option (BitVec 32)} {m : Member}
      (hq : f q = some m) (hparent : m.parent = some p) (hexit : m.exit = some status)
      (hdelivered : delivered = none ∨ delivered = some status) (hchildren : f.Childless q) :
      Step f (.reaped p q m.pid delivered) (Function.update f q none)

/-- The family after the events of a history. -/
inductive After : List Event → Family → Prop where
  | boot : After [] (Function.update (fun _ => none) initproc (some ⟨1, none, none⟩))
  | step {log : List Event} {f g : Family} {ev : Event} (h : After log f) (hstep : Step f ev g) :
      After (log ++ [ev]) g

variable {f g : Family} {log log' : List Event} {q : Slot}

theorem After.of_append (h : After log g) : ∀ {pre : List Event} {ev : Event}, log = pre ++ [ev] →
    ∃ f, After pre f ∧ Step f ev g := by
  intro pre ev hlog
  cases h with
  | boot => simp at hlog
  | step h hstep =>
      obtain ⟨rfl, hev⟩ := List.append_inj' hlog rfl
      cases hev
      exact ⟨_, h, hstep⟩

/-- A slot that has left the family comes back by a `fork` only. -/
theorem Step.vacant {ev : Event} (h : Step f ev g) (hq : f q = none)
    (hev : ∀ p pid, ev ≠ .forked p q pid) : g q = none := by
  have hne : ∀ {q' m}, f q' = some m → q ≠ q' := by
    rintro q' m hq' rfl
    rw [hq] at hq'
    cases hq'
  cases h with
  | forked hp hexit hq' =>
      rename_i p q' pid m
      have hqq : q ≠ q' := by
        rintro rfl
        exact hev p pid rfl
      rw [Function.update_of_ne hqq, hq]
  | freed hq' => rw [Function.update_of_ne (hne hq'), hq]
  | exiting hq' => rw [Function.update_of_ne (hne hq'), hq]
  | reparented hq' => rw [Function.update_of_ne (hne hq'), hq]
  | reaped hq' => rw [Function.update_of_ne (hne hq'), hq]

theorem After.vacant (mid : List Event) : ∀ {g : Family}, After (log ++ mid) g →
    (∀ f, After log f → f q = none) → (∀ p pid, .forked p q pid ∉ mid) → g q = none := by
  induction mid using List.reverseRecOn with
  | nil =>
      intro g h hvacant _
      rw [List.append_nil] at h
      exact hvacant g h
  | append_singleton mid ev ih =>
      intro g h hvacant hmid
      obtain ⟨f, hf, hstep⟩ := h.of_append (List.append_assoc ..).symm
      have hq := ih hf hvacant fun p pid hin => hmid p pid (List.mem_append_left _ hin)
      refine hstep.vacant hq fun p pid hev => hmid p pid ?_
      rw [hev]
      exact List.mem_append_right _ (List.mem_singleton_self _)

/-- The history up to any point is that of a family. -/
theorem After.prefix (mid : List Event) : ∀ {g : Family}, After (log ++ mid) g → ∃ f, After log f := by
  induction mid using List.reverseRecOn with
  | nil =>
      intro g h
      rw [List.append_nil] at h
      exact ⟨g, h⟩
  | append_singleton mid ev ih =>
      intro g h
      obtain ⟨f, hf, -⟩ := h.of_append (List.append_assoc ..).symm
      exact ih hf

theorem After.reaped_vacant {p : Slot} {pid : BitVec 32} {delivered : Option (BitVec 32)}
    (h : After (log ++ [.reaped p q pid delivered]) g) : g q = none := by
  obtain ⟨f, -, hstep⟩ := h.of_append rfl
  cases hstep with
  | reaped => exact Function.update_self ..

/-- A process is reaped once: between two that are reaped in one slot, there is a `fork`. -/
theorem After.reaped_once {p p' : Slot} {pid pid' : BitVec 32} {st st' : Option (BitVec 32)}
    (h : After (log ++ .reaped p q pid st :: (log' ++ [.reaped p' q pid' st'])) g) :
    ∃ p'' pid'', .forked p'' q pid'' ∈ log' := by
  by_contra hno
  push Not at hno
  have hsplit : log ++ .reaped p q pid st :: (log' ++ [.reaped p' q pid' st']) =
      (log ++ [.reaped p q pid st] ++ log') ++ [.reaped p' q pid' st'] := by simp
  obtain ⟨f, hf, hstep⟩ := h.of_append hsplit
  have hvacant : f q = none := hf.vacant log' (fun f' hf' => hf'.reaped_vacant) hno
  cases hstep with
  | reaped hq =>
      rw [hvacant] at hq
      cases hq

/-- What a process that is reaped was. -/
theorem After.reaped {p : Slot} {pid : BitVec 32} {delivered : Option (BitVec 32)}
    (h : After (log ++ [.reaped p q pid delivered]) g) : ∃ f status, After log f ∧
      f q = some ⟨pid, some p, some status⟩ ∧ (delivered = none ∨ delivered = some status) := by
  obtain ⟨f, hf, hstep⟩ := h.of_append rfl
  cases hstep with
  | reaped hq hparent hexit hdelivered =>
      rename_i status m hch
      refine ⟨f, status, hf, ?_, hdelivered⟩
      rw [hq, ← hparent, ← hexit]

/-- Where a member comes from: there has been a `fork` of it, its parent is its creator, or `initproc`
    once it was given away, and it has the status of its `exit`. -/
theorem After.member {m : Member} {p : Slot} (h : After log f) (hq : f q = some m)
    (hparent : m.parent = some p) : ∃ log₁ log₂ p₀, log = log₁ ++ .forked p₀ q m.pid :: log₂ ∧
      (∀ p' pid, .forked p' q pid ∉ log₂) ∧ (p = p₀ ∨ p = initproc ∧ .reparented q ∈ log₂) ∧
      ∀ status, .exiting q status ∈ log₂ ↔ m.exit = some status := by
  induction h generalizing m p with
  | boot =>
      by_cases hi : q = initproc
      · subst hi
        rw [Function.update_self] at hq
        cases hq
        cases hparent
      · rw [Function.update_of_ne hi] at hq
        cases hq
  | @step log f g ev h hstep ih =>
      -- an event of another slot
      have hother : f q = some m → (∀ p' pid, ev ≠ .forked p' q pid) →
          (∀ status, ev ≠ .exiting q status) → ∃ log₁ log₂ p₀, log ++ [ev] = log₁ ++ .forked p₀ q m.pid :: log₂ ∧
          (∀ p' pid, .forked p' q pid ∉ log₂) ∧ (p = p₀ ∨ p = initproc ∧ .reparented q ∈ log₂) ∧
          ∀ status, .exiting q status ∈ log₂ ↔ m.exit = some status := by
        intro hold hfork hexit
        obtain ⟨log₁, log₂, p₀, rfl, hnone, hpar, hst⟩ := ih hold hparent
        refine ⟨log₁, log₂ ++ [ev], p₀, by simp, fun p' pid hin => ?_, ?_, fun status => ?_⟩
        · rcases List.mem_append.1 hin with hin | hin
          · exact hnone p' pid hin
          · exact hfork p' pid (List.mem_singleton.1 hin).symm
        · exact hpar.imp id fun hp => ⟨hp.1, List.mem_append_left _ hp.2⟩
        · rw [List.mem_append, hst]
          refine or_iff_left fun hin => hexit status (List.mem_singleton.1 hin).symm
      cases hstep with
      | @forked p' q' pid m' hp' hexit hq' =>
          by_cases hqq : q = q'
          · subst hqq
            rw [Function.update_self] at hq
            cases hq
            cases hparent
            exact ⟨log, [], p, rfl, by simp, Or.inl rfl, by simp⟩
          · rw [Function.update_of_ne hqq] at hq
            exact hother hq (fun p'' pid' heq => hqq (by cases heq; rfl)) (fun status heq => by cases heq)
      | @freed q' m' hq' hexit hch =>
          by_cases hqq : q = q'
          · subst hqq
            rw [Function.update_self] at hq
            cases hq
          · rw [Function.update_of_ne hqq] at hq
            exact hother hq (fun p'' pid' heq => by cases heq) (fun status heq => by cases heq)
      | @exiting p' status' m' hp' hexit =>
          by_cases hqq : q = p'
          · subst hqq
            rw [Function.update_self] at hq
            cases hq
            obtain ⟨log₁, log₂, p₀, rfl, hnone, hpar, hst⟩ := ih hp' hparent
            refine ⟨log₁, log₂ ++ [.exiting q status'], p₀, by simp, fun p' pid hin => ?_, ?_, fun status => ?_⟩
            · rcases List.mem_append.1 hin with hin | hin
              · exact hnone p' pid hin
              · cases List.mem_singleton.1 hin
            · exact hpar.imp id fun hp => ⟨hp.1, List.mem_append_left _ hp.2⟩
            · -- it has not been in `exit` before
              rw [List.mem_append, hst, hexit, List.mem_singleton]
              simp [eq_comm]
          · rw [Function.update_of_ne hqq] at hq
            exact hother hq (fun p'' pid' heq => by cases heq) (fun status heq => hqq (by cases heq; rfl))
      | @reparented p' q' m' hq' hpar' hexit =>
          by_cases hqq : q = q'
          · subst hqq
            rw [Function.update_self] at hq
            cases hq
            cases hparent
            obtain ⟨log₁, log₂, p₀, rfl, hnone, -, hst⟩ := ih hq' hpar'
            refine ⟨log₁, log₂ ++ [.reparented q], p₀, by simp, fun p'' pid hin => ?_, ?_, fun status => ?_⟩
            · rcases List.mem_append.1 hin with hin | hin
              · exact hnone p'' pid hin
              · cases List.mem_singleton.1 hin
            · exact Or.inr ⟨rfl, List.mem_append_right _ (List.mem_singleton_self _)⟩
            · rw [List.mem_append, hst]
              exact or_iff_left fun hin => by cases List.mem_singleton.1 hin
          · rw [Function.update_of_ne hqq] at hq
            exact hother hq (fun p'' pid' heq => by cases heq) (fun status heq => by cases heq)
      | @reaped p' q' status' delivered m' hq' hpar' hexit hdel hch =>
          by_cases hqq : q = q'
          · subst hqq
            rw [Function.update_self] at hq
            cases hq
          · rw [Function.update_of_ne hqq] at hq
            exact hother hq (fun p'' pid' heq => by cases heq) (fun status heq => by cases heq)

end Family

end Xv6.Sched
