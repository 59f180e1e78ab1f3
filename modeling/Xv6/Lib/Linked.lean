import Mathlib.Data.List.Basic

set_option autoImplicit false

/-! # Singly linked lists

`Linked next p as`: following `next` from the pointer `p` visits exactly the nodes `as` and ends in
the null pointer. Such a list is finite by definition, and determined by `p`. -/

namespace Xv6.Lib

variable {A : Type}

/-- The nodes of the list that starts at `p`; the null pointer is `none`. -/
def Linked (next : A → Option A) : Option A → List A → Prop
  | p, [] => p = none
  | p, a :: as => p = some a ∧ Linked next (next a) as

theorem Linked.unique {next : A → Option A} {p : Option A} {as bs : List A}
    (ha : Linked next p as) (hb : Linked next p bs) : as = bs := by
  induction as generalizing p bs with
  | nil =>
      cases bs with
      | nil => rfl
      | cons b bs =>
          have hnone : p = none := ha
          rw [hnone] at hb
          exact absurd hb.1 (by simp)
  | cons a as ih =>
      cases bs with
      | nil =>
          have hnone : p = none := hb
          rw [hnone] at ha
          exact absurd ha.1 (by simp)
      | cons b bs =>
          obtain ⟨hpa, hta⟩ := ha
          obtain ⟨hpb, htb⟩ := hb
          have hab : a = b := by
            rw [hpa] at hpb
            exact Option.some.inj hpb
          subst hab
          rw [ih hta htb]

/-- Only the links out of the nodes of the list matter. -/
theorem Linked.congr {next next' : A → Option A} {p : Option A} {as : List A}
    (h : Linked next p as) (heq : ∀ a ∈ as, next' a = next a) : Linked next' p as := by
  induction as generalizing p with
  | nil => exact h
  | cons a as ih =>
      refine ⟨h.1, ?_⟩
      rw [heq a (List.mem_cons_self ..)]
      exact ih h.2 fun b hb => heq b (List.mem_cons_of_mem _ hb)

end Xv6.Lib
