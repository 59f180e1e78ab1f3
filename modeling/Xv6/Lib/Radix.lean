import Mathlib.Logic.Function.Basic
import Mathlib.Data.List.Induction

set_option autoImplicit false

/-! # Radix trees in memory

A memory of pages: a page is an array of entries, and an entry may point to another page. A path
is the list of the indices on the way down. The pages within `n` levels of a root form a tree when
no page is reached by two paths. What is stated here is how paths change when an entry of the last
level is written, and when an entry of an upper level is made to point to a fresh page. -/

namespace Xv6.Lib.Radix

variable {P I E : Type} {child : E → Option P}

/-- The page at the end of a path that starts at a page. -/
def follow (child : E → Option P) (mem : P → I → E) : P → List I → Option P
  | p, [] => some p
  | p, i :: is => (child (mem p i)).bind fun q => follow child mem q is

/-- The entry at an index of the page at the end of a path. -/
def entryAt (child : E → Option P) (mem : P → I → E) (root : P) (is : List I) (i : I) : Option E :=
  (follow child mem root is).map fun p => mem p i

/-- The pages within `n` levels of the root are reached by one path each. -/
def IsTree (child : E → Option P) (mem : P → I → E) (root : P) (n : Nat) : Prop :=
  ∀ is js p, is.length < n → js.length < n → follow child mem root is = some p →
    follow child mem root js = some p → is = js

/-- A page outside the tree. -/
def Fresh (child : E → Option P) (mem : P → I → E) (root : P) (n : Nat) (p : P) : Prop :=
  ∀ is, is.length < n → follow child mem root is ≠ some p

/-- Memory with another entry at an index of a page. -/
def store [DecidableEq P] [DecidableEq I] (mem : P → I → E) (p : P) (i : I) (e : E) : P → I → E :=
  Function.update mem p (Function.update (mem p) i e)

theorem follow_append (mem : P → I → E) (root : P) (is js : List I) :
    follow child mem root (is ++ js) =
      (follow child mem root is).bind fun p => follow child mem p js := by
  induction is generalizing root with
  | nil => rfl
  | cons i is ih =>
      show (child (mem root i)).bind (fun q => follow child mem q (is ++ js)) = _
      cases h : child (mem root i) with
      | none => simp only [follow, h, Option.bind_none]
      | some q => simp only [follow, h, Option.bind_some, ih]

theorem follow_snoc (mem : P → I → E) (root : P) (is : List I) (i : I) :
    follow child mem root (is ++ [i]) =
      (follow child mem root is).bind fun p => child (mem p i) := by
  rw [follow_append]
  congr 1
  funext p
  show (child (mem p i)).bind some = _
  exact Option.bind_fun_some _

section Store

variable [DecidableEq P] [DecidableEq I] {mem : P → I → E} {root p : P} {n : Nat} {is : List I}
  {i : I} {e : E}

theorem store_of_ne {q : P} (hq : q ≠ p) : store mem p i e q = mem q :=
  Function.update_of_ne hq ..

theorem store_self : store mem p i e p i = e := by
  rw [store, Function.update_self, Function.update_self]

theorem store_self_of_ne {j : I} (hj : j ≠ i) : store mem p i e p j = mem p j := by
  rw [store, Function.update_self, Function.update_of_ne hj]

/-- Paths do not read the entries of the last level. -/
theorem IsTree.follow_store_leaf (h : IsTree child mem root n) (hp : follow child mem root is = some p)
    (hn : is.length + 1 = n) (js : List I) (hjs : js.length < n) :
    follow child (store mem p i e) root js = follow child mem root js := by
  induction js using List.reverseRecOn with
  | nil => rfl
  | append_singleton js j ih =>
      have hlen : js.length + 1 < n := by
        simpa only [List.length_append, List.length_singleton] using hjs
      rw [follow_snoc, follow_snoc, ih (by omega)]
      cases hq : follow child mem root js with
      | none => rfl
      | some q =>
          have hne : q ≠ p := by
            rintro rfl
            have := h is js q (by omega) (by omega) hp hq
            rw [this] at hn
            omega
          show child (store mem p i e q j) = child (mem q j)
          rw [store_of_ne hne]

theorem IsTree.store_leaf (h : IsTree child mem root n) (hp : follow child mem root is = some p)
    (hn : is.length + 1 = n) : IsTree child (store mem p i e) root n := by
  intro js ks q hjs hks hj hk
  rw [h.follow_store_leaf hp hn js hjs] at hj
  rw [h.follow_store_leaf hp hn ks hks] at hk
  exact h js ks q hjs hks hj hk

theorem Fresh.store_leaf {q : P} (hq : Fresh child mem root n q) (h : IsTree child mem root n)
    (hp : follow child mem root is = some p) (hn : is.length + 1 = n) :
    Fresh child (store mem p i e) root n q := by
  intro js hjs
  rw [h.follow_store_leaf hp hn js hjs]
  exact hq js hjs

/-- Writing an entry of the last level changes this entry. -/
theorem IsTree.entryAt_store_leaf (h : IsTree child mem root n)
    (hp : follow child mem root is = some p) (hn : is.length + 1 = n) (js : List I)
    (hjs : js.length < n) (j : I) : entryAt child (store mem p i e) root js j =
      if js = is ∧ j = i then some e else entryAt child mem root js j := by
  rw [entryAt, h.follow_store_leaf hp hn js hjs]
  by_cases hij : js = is ∧ j = i
  · obtain ⟨rfl, rfl⟩ := hij
    rw [hp, if_pos ⟨rfl, rfl⟩, Option.map_some, store_self]
  · rw [if_neg hij, entryAt]
    cases hq : follow child mem root js with
    | none => rfl
    | some q =>
        rw [Option.map_some, Option.map_some]
        by_cases hqp : q = p
        · subst hqp
          have hji : js = is := h js is q hjs (by omega) hq hp
          rw [store_self_of_ne fun hj => hij ⟨hji, hj⟩]
        · rw [store_of_ne hqp]

/-- An empty entry made to point to a fresh page without children opens one path. -/
theorem IsTree.follow_store_fresh {f : P} {blank : I → E} (h : IsTree child mem root n)
    (hp : follow child mem root is = some p) (hn : is.length + 1 < n)
    (hnone : child (mem p i) = none) (hf : Fresh child mem root n f)
    (hblank : ∀ j, child (blank j) = none) (he : child e = some f) (js : List I)
    (hjs : js.length < n) :
    follow child (store (Function.update mem f blank) p i e) root js =
      if js = is ++ [i] then some f else follow child mem root js := by
  have hpf : p ≠ f := fun heq => hf is (by omega) (heq ▸ hp)
  induction js using List.reverseRecOn with
  | nil =>
      rw [if_neg (by simp)]
      rfl
  | append_singleton js j ih =>
      have hlen : js.length + 1 < n := by
        simpa only [List.length_append, List.length_singleton] using hjs
      rw [follow_snoc, follow_snoc, ih (by omega)]
      by_cases hnew : js = is ++ [i]
      · -- below the fresh page there is nothing, before and after
        rw [if_pos hnew, if_neg (by simp [hnew])]
        rw [hnew, follow_snoc, hp, Option.bind_some, Option.bind_some, hnone, Option.bind_none,
          store_of_ne (Ne.symm hpf), Function.update_self, hblank]
      · rw [if_neg hnew]
        cases hq : follow child mem root js with
        | none =>
            rw [if_neg]
            · rfl
            · intro heq
              rw [(List.append_inj' heq rfl).1, hp] at hq
              cases hq
        | some q =>
            have hqf : q ≠ f := fun heq => hf js (by omega) (heq ▸ hq)
            rw [Option.bind_some, Option.bind_some]
            by_cases hqp : q = p
            · have hji : js = is := h js is p (by omega) (by omega) (hqp ▸ hq) hp
              subst hqp hji
              by_cases hj : j = i
              · rw [hj, if_pos rfl, store_self, he]
              · rw [if_neg (fun heq => hj (by simpa using heq)), store_self_of_ne hj,
                  Function.update_of_ne hqf]
            · rw [store_of_ne hqp, Function.update_of_ne hqf, if_neg]
              intro heq
              rw [(List.append_inj' heq rfl).1, hp] at hq
              exact hqp (Option.some.inj hq).symm

variable {f : P} {blank : I → E}

theorem IsTree.store_fresh (h : IsTree child mem root n)
    (hp : follow child mem root is = some p) (hn : is.length + 1 < n)
    (hnone : child (mem p i) = none) (hf : Fresh child mem root n f)
    (hblank : ∀ j, child (blank j) = none) (he : child e = some f) :
    IsTree child (store (Function.update mem f blank) p i e) root n := by
  intro js ks q hjs hks hj hk
  rw [h.follow_store_fresh hp hn hnone hf hblank he js hjs] at hj
  rw [h.follow_store_fresh hp hn hnone hf hblank he ks hks] at hk
  by_cases h1 : js = is ++ [i] <;> by_cases h2 : ks = is ++ [i]
  · rw [h1, h2]
  · rw [if_pos h1] at hj
    rw [if_neg h2] at hk
    exact absurd (hj ▸ hk) (hf ks hks)
  · rw [if_neg h1] at hj
    rw [if_pos h2] at hk
    exact absurd (hk ▸ hj) (hf js hjs)
  · rw [if_neg h1] at hj
    rw [if_neg h2] at hk
    exact h js ks q hjs hks hj hk

theorem Fresh.store_fresh {q : P} (hq : Fresh child mem root n q) (hqf : q ≠ f)
    (h : IsTree child mem root n) (hp : follow child mem root is = some p) (hn : is.length + 1 < n)
    (hnone : child (mem p i) = none) (hf : Fresh child mem root n f)
    (hblank : ∀ j, child (blank j) = none) (he : child e = some f) :
    Fresh child (store (Function.update mem f blank) p i e) root n q := by
  intro js hjs
  rw [h.follow_store_fresh hp hn hnone hf hblank he js hjs]
  by_cases hnew : js = is ++ [i]
  · rw [if_pos hnew]
    exact fun heq => hqf (Option.some.inj heq).symm
  · rw [if_neg hnew]
    exact hq js hjs

/-- A fresh page adds its own entries, in the last level or above it, and changes no other entry
    of the last level. -/
theorem IsTree.entryAt_store_fresh (h : IsTree child mem root n)
    (hp : follow child mem root is = some p) (hn : is.length + 1 < n)
    (hnone : child (mem p i) = none) (hf : Fresh child mem root n f)
    (hblank : ∀ j, child (blank j) = none) (he : child e = some f) (js : List I)
    (hjs : js.length + 1 = n) (j : I) :
    entryAt child (store (Function.update mem f blank) p i e) root js j =
      if js = is ++ [i] then some (blank j) else entryAt child mem root js j := by
  have hpf : p ≠ f := fun heq => hf is (by omega) (heq ▸ hp)
  rw [entryAt, h.follow_store_fresh hp hn hnone hf hblank he js (by omega)]
  by_cases hnew : js = is ++ [i]
  · rw [if_pos hnew, if_pos hnew, Option.map_some, store_of_ne (Ne.symm hpf), Function.update_self]
  · rw [if_neg hnew, if_neg hnew, entryAt]
    cases hq : follow child mem root js with
    | none => rfl
    | some q =>
        have hqp : q ≠ p := by
          rintro rfl
          have := h js is q (by omega) (by omega) hq hp
          rw [this] at hjs
          omega
        have hqf : q ≠ f := fun heq => hf js (by omega) (heq ▸ hq)
        rw [Option.map_some, Option.map_some, store_of_ne hqp, Function.update_of_ne hqf]

end Store

end Xv6.Lib.Radix
