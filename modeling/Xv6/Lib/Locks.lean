import Mathlib.Logic.Function.Basic
import Mathlib.Data.List.Perm.Basic

set_option autoImplicit false

/-! # Who holds which lock

A lock records its holder, a holder counts its locks, and what each holder does next tells which locks
it has. `Held` says that the three agree. An operation on a lock keeps it, and in the other steps the
locks may be listed in another order. -/

namespace Xv6.Lib

variable {K C : Type}

structure Held (holder : K → Option C) (held : C → List K) (count : C → Nat) : Prop where
  mem : ∀ c k, holder k = some c ↔ k ∈ held c
  nodup : ∀ c, (held c).Nodup
  count : ∀ c, count c = (held c).length

variable {holder : K → Option C} {held held' : C → List K} {count : C → Nat} {c : C} {k : K}

/-- Two holders have no lock in common. -/
theorem Held.unique (h : Held holder held count) {c' : C} (hk : k ∈ held c) (hk' : k ∈ held c') :
    c = c' := by
  have hc := (h.mem c k).2 hk
  rw [(h.mem c' k).2 hk'] at hc
  exact (Option.some.inj hc).symm

theorem Held.congr (h : Held holder held count) (hperm : ∀ c, (held c).Perm (held' c)) :
    Held holder held' count := by
  constructor
  · intro c k
    rw [h.mem, (hperm c).mem_iff]
  · intro c
    exact (hperm c).nodup_iff.1 (h.nodup c)
  · intro c
    rw [h.count, (hperm c).length_eq]

/-- Only what `c` has changes, and that in the order. -/
theorem Held.perm (h : Held holder held count) (hperm : (held c).Perm (held' c))
    (hothers : ∀ c', c' ≠ c → held' c' = held c') : Held holder held' count := by
  refine h.congr fun c' => ?_
  by_cases hc : c' = c
  · subst hc
    exact hperm
  · rw [hothers c' hc]

variable [DecidableEq K] [DecidableEq C]

theorem Held.acquire (h : Held holder held count) (hfree : holder k = none)
    (hperm : (k :: held c).Perm (held' c)) (hothers : ∀ c', c' ≠ c → held' c' = held c') :
    Held (Function.update holder k (some c)) held' (Function.update count c (count c + 1)) := by
  have hnew : ∀ c', k ∉ held c' := by
    intro c' hk
    rw [← h.mem, hfree] at hk
    cases hk
  constructor
  · intro c' k'
    by_cases hk : k' = k
    · subst hk
      rw [Function.update_self]
      by_cases hc : c' = c
      · subst hc
        simp [← hperm.mem_iff]
      · rw [hothers c' hc]
        exact ⟨fun he => absurd (Option.some.inj he).symm hc, fun hin => absurd hin (hnew c')⟩
    · rw [Function.update_of_ne hk, h.mem]
      by_cases hc : c' = c
      · subst hc
        rw [← hperm.mem_iff, List.mem_cons]
        exact ⟨Or.inr, fun hin => hin.resolve_left hk⟩
      · rw [hothers c' hc]
  · intro c'
    by_cases hc : c' = c
    · subst hc
      rw [← hperm.nodup_iff]
      exact List.nodup_cons.2 ⟨hnew c', h.nodup c'⟩
    · rw [hothers c' hc]
      exact h.nodup c'
  · intro c'
    by_cases hc : c' = c
    · subst hc
      rw [Function.update_self, ← hperm.length_eq, List.length_cons, h.count]
    · rw [Function.update_of_ne hc, hothers c' hc, h.count]

theorem Held.release (h : Held holder held count) (hperm : (held c).Perm (k :: held' c))
    (hothers : ∀ c', c' ≠ c → held' c' = held c') :
    Held (Function.update holder k none) held' (Function.update count c (count c - 1)) := by
  have hnodup : k ∉ held' c ∧ (held' c).Nodup := List.nodup_cons.1 (hperm.nodup_iff.1 (h.nodup c))
  have hin : k ∈ held c := hperm.mem_iff.2 (List.mem_cons_self ..)
  constructor
  · intro c' k'
    by_cases hk : k' = k
    · subst hk
      rw [Function.update_self]
      refine ⟨fun he => absurd he (by simp), fun hk' => ?_⟩
      by_cases hc : c' = c
      · subst hc
        exact absurd hk' hnodup.1
      · rw [hothers c' hc] at hk'
        exact absurd (h.unique hk' hin) hc
    · rw [Function.update_of_ne hk, h.mem]
      by_cases hc : c' = c
      · subst hc
        rw [hperm.mem_iff, List.mem_cons]
        exact ⟨fun hin => hin.resolve_left hk, Or.inr⟩
      · rw [hothers c' hc]
  · intro c'
    by_cases hc : c' = c
    · subst hc
      exact hnodup.2
    · rw [hothers c' hc]
      exact h.nodup c'
  · intro c'
    by_cases hc : c' = c
    · subst hc
      rw [Function.update_self, h.count, hperm.length_eq, List.length_cons, Nat.add_sub_cancel]
    · rw [Function.update_of_ne hc, hothers c' hc, h.count]

end Xv6.Lib
