import Mathlib.Logic.Function.Basic
import Xv6.Lib.Circular

set_option autoImplicit false

/-! # Doubly linked lists

A circular list through a head, with pointers in both directions. Elements are unlinked from where they
are and put in at the front, and the list is searched from either end. -/

namespace Xv6.Lib

variable {A : Type} [DecidableEq A]

/-! ## One direction -/

section Circular

variable {f : A → A} {a b x y : A} {l₁ l₂ u v : List A}

omit [DecidableEq A] in
theorem Circular.apply (h : Circular f a (l₁ ++ b :: l₂)) (hy : l₂ ++ [a] = y :: v) : f b = y := by
  have hvisits : Visits f ((a :: l₁) ++ b :: (l₂ ++ [a])) := by
    simpa only [Circular, List.cons_append, List.append_assoc] using h
  rw [hy] at hvisits
  exact (Visits.cons_cons.1 (Visits.split.1 hvisits).2).1

omit [DecidableEq A] in
theorem cons_append_split (hx : a :: l₁ = u ++ [x]) (m : List A) : a :: (l₁ ++ m) = u ++ x :: m := by
  rw [← List.cons_append, hx, List.append_assoc, List.singleton_append]

omit [DecidableEq A] in
theorem circular_split (hx : a :: l₁ = u ++ [x]) (m : List A) :
    Circular f a (l₁ ++ m) ↔ Visits f (u ++ x :: (m ++ [a])) := by
  rw [Circular, List.cons_append, List.append_assoc, cons_append_split hx]

/-- The list without `b`; `x` comes before `b`. -/
theorem Circular.remove (h : Circular f a (l₁ ++ b :: l₂)) (hnd : (a :: (l₁ ++ b :: l₂)).Nodup)
    (hx : a :: l₁ = u ++ [x]) : Circular (Function.update f x (f b)) a (l₁ ++ l₂) := by
  rw [cons_append_split hx] at hnd
  rw [circular_split hx] at h ⊢
  obtain ⟨-, htail, hdisj⟩ := List.nodup_append.1 hnd
  obtain ⟨hto, hfrom⟩ := Visits.split.1 h
  have hxl₂ : ∀ c ∈ l₂, c ≠ x := fun c hc heq =>
    (List.nodup_cons.1 htail).1 (List.mem_cons_of_mem _ (heq ▸ hc))
  refine Visits.split.2 ⟨hto.congr fun c hc => ?_, ?_⟩
  · exact Function.update_of_ne (hdisj c hc x List.mem_cons_self) _ _
  · obtain ⟨y, v, hy⟩ : ∃ y v, l₂ ++ [a] = y :: v := List.exists_cons_of_ne_nil (by simp)
    rw [List.cons_append, hy] at hfrom
    obtain ⟨hb, hrest⟩ := Visits.cons_cons.1 (Visits.cons_cons.1 hfrom).2
    rw [← hy] at hrest
    have hcongr : Visits (Function.update f x (f b)) (l₂ ++ [a]) :=
      hrest.congr fun c hc => Function.update_of_ne (hxl₂ c hc) _ _
    rw [hy] at hcongr ⊢
    refine Visits.cons_cons.2 ⟨?_, hcongr⟩
    rw [Function.update_self]
    exact hb

/-- The list with `b` after `x`. -/
theorem Circular.insert (h : Circular f a (l₁ ++ l₂)) (hnd : (a :: (l₁ ++ l₂)).Nodup)
    (hb : b ∉ a :: (l₁ ++ l₂)) (hx : a :: l₁ = u ++ [x]) :
    Circular (Function.update (Function.update f b (f x)) x b) a (l₁ ++ b :: l₂) := by
  rw [cons_append_split hx] at hnd hb
  rw [circular_split hx] at h ⊢
  obtain ⟨-, htail, hdisj⟩ := List.nodup_append.1 hnd
  obtain ⟨hto, hfrom⟩ := Visits.split.1 h
  have hbx : b ≠ x := fun heq => hb (List.mem_append_right _ (heq ▸ List.mem_cons_self))
  have hxl₂ : ∀ c ∈ l₂, c ≠ x := fun c hc heq => (List.nodup_cons.1 htail).1 (heq ▸ hc)
  have hbu : ∀ c ∈ u, c ≠ b := fun c hc heq => hb (List.mem_append_left _ (heq ▸ hc))
  have hbl₂ : ∀ c ∈ l₂, c ≠ b := fun c hc heq =>
    hb (List.mem_append_right _ (List.mem_cons_of_mem _ (heq ▸ hc)))
  rw [List.cons_append]
  refine Visits.split.2 ⟨hto.congr fun c hc => ?_, Visits.cons_cons.2 ⟨Function.update_self .., ?_⟩⟩
  · rw [Function.update_of_ne (hdisj c hc x List.mem_cons_self),
      Function.update_of_ne (hbu c hc)]
  · obtain ⟨y, v, hy⟩ : ∃ y v, l₂ ++ [a] = y :: v := List.exists_cons_of_ne_nil (by simp)
    rw [hy] at hfrom
    obtain ⟨hxy, hrest⟩ := Visits.cons_cons.1 hfrom
    rw [← hy] at hrest
    have hcongr : Visits (Function.update (Function.update f b (f x)) x b) (l₂ ++ [a]) := by
      refine hrest.congr fun c hc => ?_
      rw [Function.update_of_ne (hxl₂ c hc), Function.update_of_ne (hbl₂ c hc)]
    rw [hy] at hcongr ⊢
    refine Visits.cons_cons.2 ⟨?_, hcongr⟩
    rw [Function.update_of_ne hbx, Function.update_self]
    exact hxy

end Circular

/-! ## Both directions -/

structure Links (A : Type) where
  next : A → A
  prev : A → A

/-- Take `b` out of the list that it is in. -/
def Links.unlink (L : Links A) (b : A) : Links A :=
  let L := { L with prev := Function.update L.prev (L.next b) (L.prev b) }
  { L with next := Function.update L.next (L.prev b) (L.next b) }

/-- Put `b` at the front of the list of `a`. -/
def Links.pushFront (L : Links A) (a b : A) : Links A :=
  let L := { L with next := Function.update L.next b (L.next a) }
  let L := { L with prev := Function.update L.prev b a }
  let L := { L with prev := Function.update L.prev (L.next a) b }
  { L with next := Function.update L.next a b }

/-- The list of the head `a` is `l`, in both directions. -/
structure Ring (L : Links A) (a : A) (l : List A) : Prop where
  nodup : (a :: l).Nodup
  next : Circular L.next a l
  prev : Circular L.prev a l.reverse

variable {L : Links A} {a b : A} {l l₁ l₂ : List A}

theorem Ring.unlink (h : Ring L a (l₁ ++ b :: l₂)) : Ring (L.unlink b) a (l₁ ++ l₂) := by
  obtain ⟨y, v, hy⟩ : ∃ y v, l₂ ++ [a] = y :: v := List.exists_cons_of_ne_nil (by simp)
  obtain ⟨x, w, hx⟩ : ∃ x w, l₁.reverse ++ [a] = x :: w := List.exists_cons_of_ne_nil (by simp)
  have hrev : (l₁ ++ b :: l₂).reverse = l₂.reverse ++ b :: l₁.reverse := by simp
  have hprev := h.prev
  have hnd := h.nodup
  rw [hrev] at hprev
  have hnext_b : L.next b = y := h.next.apply hy
  have hprev_b : L.prev b = x := hprev.apply hx
  have hx' : a :: l₁ = w.reverse ++ [x] := by simpa using congrArg List.reverse hx
  have hy' : a :: l₂.reverse = v.reverse ++ [y] := by simpa using congrArg List.reverse hy
  have hyb : b ≠ y := by
    have hb : b ∉ l₂ ++ [a] := by
      have := List.nodup_middle.1 (show (a :: l₁ ++ b :: l₂).Nodup from hnd)
      have hb := (List.nodup_cons.1 this).1
      simp only [List.cons_append, List.mem_cons, List.mem_append, not_or] at hb
      simp only [List.mem_append, List.mem_singleton, not_or]
      exact ⟨hb.2.2, hb.1⟩
    rw [hy] at hb
    exact fun heq => hb (heq ▸ List.mem_cons_self)
  have hprev_b' : (Function.update L.prev (L.next b) (L.prev b)) b = x := by
    rw [hnext_b, Function.update_of_ne hyb, hprev_b]
  refine ⟨?_, ?_, ?_⟩
  · have hsub : (a :: (l₁ ++ l₂)).Sublist (a :: (l₁ ++ b :: l₂)) :=
      ((List.sublist_cons_self b l₂).append_left l₁).cons_cons a
    exact hnd.sublist hsub
  · have hremove := h.next.remove hnd hx'
    unfold Links.unlink
    dsimp only
    rw [hprev_b']
    exact hremove
  · have hnd' : (a :: (l₂.reverse ++ b :: l₁.reverse)).Nodup := by
      rw [← hrev]
      exact (List.reverse_perm _).symm.cons a |>.nodup_iff.1 hnd
    have hremove := hprev.remove hnd' hy'
    rw [List.reverse_append]
    unfold Links.unlink
    dsimp only
    rw [hnext_b]
    exact hremove

theorem Ring.pushFront (h : Ring L a l) (hb : b ∉ a :: l) : Ring (L.pushFront a b) a (b :: l) := by
  obtain ⟨y, v, hy⟩ : ∃ y v, l ++ [a] = y :: v := List.exists_cons_of_ne_nil (by simp)
  have hba : a ≠ b := fun heq => hb (heq ▸ List.mem_cons_self)
  have hnext_a : L.next a = y := by
    have hvisits : Visits L.next (a :: (l ++ [a])) := h.next
    rw [hy] at hvisits
    exact (Visits.cons_cons.1 hvisits).1
  have hy' : a :: l.reverse = v.reverse ++ [y] := by simpa using congrArg List.reverse hy
  have hprev_y : L.prev y = a := by
    have hvisits : Visits L.prev (v.reverse ++ y :: ([] ++ [a])) :=
      (circular_split hy' []).1 (by rw [List.append_nil]; exact h.prev)
    exact (Visits.cons_cons.1 (Visits.split.1 hvisits).2).1
  refine ⟨?_, ?_, ?_⟩
  · have hperm : (a :: b :: l).Perm (b :: a :: l) := List.Perm.swap b a l
    exact hperm.nodup_iff.2 (List.nodup_cons.2 ⟨hb, h.nodup⟩)
  · have hnext : Circular L.next a ([] ++ l) := h.next
    have hfront : a :: [] = [] ++ [a] := rfl
    exact hnext.insert h.nodup hb hfront
  · have hnd' : (a :: (l.reverse ++ [])).Nodup := by
      rw [List.append_nil]
      exact (List.reverse_perm l).symm.cons a |>.nodup_iff.1 h.nodup
    have hb' : b ∉ a :: (l.reverse ++ []) := by
      rw [List.append_nil]
      simpa using hb
    have hinsert := Circular.insert (by rw [List.append_nil]; exact h.prev) hnd' hb' hy'
    rw [hprev_y] at hinsert
    rw [List.reverse_cons]
    unfold Links.pushFront
    dsimp only
    rw [Function.update_of_ne hba, hnext_a]
    exact hinsert

/-! ## Searching -/

/-- Search the list of `a` from `b` on, for at most `n` rounds. -/
def search (f : A → A) (a : A) (p : A → Bool) : Nat → A → Option (Option A)
  | 0, _ => none
  | n + 1, b => if b = a then some none else if p b then some (some b) else search f a p n (f b)

theorem search_eq {f : A → A} (p : A → Bool) {n : Nat} {y : A} {v : List A} (hvisits : Visits f (l ++ [a]))
    (ha : a ∉ l) (hn : l.length < n) (hy : l ++ [a] = y :: v) : search f a p n y = some (l.find? p) := by
  induction l generalizing n y v with
  | nil =>
      obtain ⟨rfl, -⟩ := List.cons.inj hy
      obtain ⟨n, rfl⟩ := Nat.exists_eq_succ_of_ne_zero (Nat.ne_of_gt hn)
      exact if_pos rfl
  | cons b l ih =>
      obtain ⟨rfl, -⟩ := List.cons.inj hy
      obtain ⟨n, rfl⟩ := Nat.exists_eq_succ_of_ne_zero (Nat.ne_of_gt (Nat.zero_lt_of_lt hn))
      obtain ⟨z, w, hz⟩ : ∃ z w, l ++ [a] = z :: w := List.exists_cons_of_ne_nil (by simp)
      have hba : b ≠ a := fun heq => ha (heq ▸ List.mem_cons_self)
      rw [List.cons_append, hz] at hvisits
      obtain ⟨hbz, hrest⟩ := Visits.cons_cons.1 hvisits
      rw [search, if_neg hba, List.find?_cons]
      cases hp : p b with
      | true => exact if_pos rfl
      | false =>
          rw [hbz]
          refine (if_neg Bool.false_ne_true).trans ?_
          exact ih (hz ▸ hrest) (fun h => ha (List.mem_cons_of_mem _ h)) (Nat.lt_of_succ_lt_succ hn) hz

/-- From the front, and from the back. -/
theorem Ring.search_next (h : Ring L a l) (p : A → Bool) {n : Nat} (hn : l.length < n) :
    search L.next a p n (L.next a) = some (l.find? p) := by
  obtain ⟨y, v, hy⟩ : ∃ y v, l ++ [a] = y :: v := List.exists_cons_of_ne_nil (by simp)
  have hvisits : Visits L.next (a :: (l ++ [a])) := h.next
  rw [hy] at hvisits
  obtain ⟨hay, hrest⟩ := Visits.cons_cons.1 hvisits
  rw [hay]
  exact search_eq p (hy ▸ hrest) (List.nodup_cons.1 h.nodup).1 hn hy

omit [DecidableEq A] in
theorem Ring.flip (h : Ring L a l) : Ring ⟨L.prev, L.next⟩ a l.reverse where
  nodup := (List.reverse_perm l).symm.cons a |>.nodup_iff.1 h.nodup
  next := h.prev
  prev := by
    rw [List.reverse_reverse]
    exact h.next

theorem Ring.search_prev (h : Ring L a l) (p : A → Bool) {n : Nat} (hn : l.length < n) :
    search L.prev a p n (L.prev a) = some (l.reverse.find? p) :=
  h.flip.search_next p (by rwa [List.length_reverse])

end Xv6.Lib
