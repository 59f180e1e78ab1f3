import Mathlib.Data.List.Chain
import Mathlib.Data.List.Nodup

set_option autoImplicit false

/-! # Circular lists

`Visits next l`: following `next` from the first element of `l` visits `l`. A circular list comes back
to where it starts, and may be entered at any of its elements. -/

namespace Xv6.Lib

variable {A : Type} {next next' : A → A}

def Visits (next : A → A) (l : List A) : Prop := l.IsChain fun a b => next a = b

/-- Following `next` from `a` visits `a` and `l`, and is back at `a`. -/
def Circular (next : A → A) (a : A) (l : List A) : Prop := Visits next (a :: l ++ [a])

theorem Visits.cons_cons {a b : A} {l : List A} :
    Visits next (a :: b :: l) ↔ next a = b ∧ Visits next (b :: l) :=
  List.isChain_cons_cons

/-- A path is two paths that meet in an element. -/
theorem Visits.split {b : A} {l₁ l₂ : List A} :
    Visits next (l₁ ++ b :: l₂) ↔ Visits next (l₁ ++ [b]) ∧ Visits next (b :: l₂) :=
  List.isChain_split

theorem Visits.single (a : A) : Visits next [a] := List.isChain_singleton a

/-- Where a path leads from its last element does not matter to it. -/
theorem Visits.congr {l : List A} {b : A} (h : Visits next (l ++ [b]))
    (heq : ∀ a ∈ l, next' a = next a) : Visits next' (l ++ [b]) := by
  induction l with
  | nil => exact Visits.single b
  | cons a l ih =>
      have hl := fun c hc => heq c (List.mem_cons_of_mem a hc)
      cases l with
      | nil =>
          refine Visits.cons_cons.2 ⟨?_, Visits.single b⟩
          rw [heq a (List.mem_cons_self ..)]
          exact (Visits.cons_cons.1 h).1
      | cons c l =>
          obtain ⟨hac, hrest⟩ := Visits.cons_cons.1 h
          refine Visits.cons_cons.2 ⟨?_, ih hrest hl⟩
          rw [heq a (List.mem_cons_self ..)]
          exact hac

/-- The successor of an element of a path comes later in the path. -/
theorem Visits.next_mem {l₁ l₂ : List A} {a b : A} (h : Visits next (l₁ ++ a :: (l₂ ++ [b]))) :
    next a ∈ l₂ ++ [b] := by
  have htail := (Visits.split.1 h).2
  cases l₂ with
  | nil => exact (Visits.cons_cons.1 htail).1 ▸ List.mem_singleton.2 rfl
  | cons c l₂ => exact (Visits.cons_cons.1 htail).1 ▸ List.mem_cons_self ..

/-- A circular list may be entered anywhere. -/
theorem Circular.rotate {a b : A} {l : List A} (h : Circular next a l) (hb : b ∈ a :: l) :
    ∃ l', Circular next b l' ∧ (b :: l').Perm (a :: l) := by
  rcases List.mem_cons.1 hb with rfl | hb
  · exact ⟨l, h, List.Perm.refl _⟩
  · obtain ⟨l₁, l₂, rfl⟩ := List.append_of_mem hb
    have h' : Visits next ((a :: l₁) ++ b :: (l₂ ++ [a])) := by
      simpa only [Circular, List.cons_append, List.append_assoc] using h
    obtain ⟨hto, hfrom⟩ := Visits.split.1 h'
    refine ⟨l₂ ++ a :: l₁, ?_, ?_⟩
    · have hjoin : Visits next ((b :: l₂) ++ a :: (l₁ ++ [b])) := Visits.split.2 ⟨hfrom, hto⟩
      simpa only [Circular, List.cons_append, List.append_assoc] using hjoin
    · show ((b :: l₂) ++ (a :: l₁)).Perm ((a :: l₁) ++ (b :: l₂))
      exact List.perm_append_comm

/-- Following `next` turns a circular list by one. -/
theorem Circular.map_next {a : A} {l : List A} (h : Circular next a l) :
    (a :: l).map next = l ++ [a] := by
  have hvisits : ∀ (l : List A) (a b : A), Visits next (a :: (l ++ [b])) →
      (a :: l).map next = l ++ [b] := by
    intro l
    induction l with
    | nil =>
        intro a b h
        rw [List.map_singleton, (Visits.cons_cons.1 h).1, List.nil_append]
    | cons c l ih =>
        intro a b h
        obtain ⟨hac, hrest⟩ := Visits.cons_cons.1 h
        rw [List.map_cons, hac, ih c b hrest, List.cons_append]
  exact hvisits l a a h

/-- Each element of a circular list without repetitions has one predecessor. -/
theorem Circular.next_inj {a x y : A} {l : List A} (h : Circular next a l)
    (hnd : (a :: l).Nodup) (hx : x ∈ a :: l) (hy : y ∈ a :: l) (hxy : next x = next y) : x = y := by
  have hperm : (l ++ [a]).Perm (a :: l) := List.perm_append_singleton a l
  have hmap : ((a :: l).map next).Nodup := by
    rw [h.map_next]
    exact hperm.nodup_iff.2 hnd
  exact List.inj_on_of_nodup_map hmap hx hy hxy

end Xv6.Lib
