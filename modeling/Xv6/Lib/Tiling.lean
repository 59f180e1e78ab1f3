import Mathlib.Algebra.BigOperators.Group.List.Basic
import Mathlib.Algebra.GroupWithZero.Nat
import Mathlib.Data.List.Perm.Basic

set_option autoImplicit false

/-! # Tilings of an interval

A block is an address and a size in units of `u`. Blocks tile an interval when they are apart, lie
inside it on unit boundaries, and their sizes add up to its length. -/

namespace Xv6.Lib

abbrev Block := Nat × Nat

/-- The address after a block. -/
def Block.fin (u : Nat) (b : Block) : Nat := b.1 + u * b.2

def Apart (u : Nat) (b c : Block) : Prop := Block.fin u b ≤ c.1 ∨ Block.fin u c ≤ b.1

structure Tiling (u lo hi : Nat) (bs : List Block) : Prop where
  apart : bs.Pairwise (Apart u)
  inside : ∀ b ∈ bs, lo ≤ b.1 ∧ Block.fin u b ≤ hi ∧ b.1 % u = lo % u ∧ 0 < b.2
  total : lo + u * (bs.map Prod.snd).sum = hi

theorem Apart.symm {u : Nat} {b c : Block} (h : Apart u b c) : Apart u c b := Or.symm h

instance (u : Nat) : Std.Symm (Apart u) := ⟨fun _ _ => Apart.symm⟩

section Tiling

variable {u lo hi x s t : Nat} {bs cs : List Block}

theorem Tiling.nil (u lo : Nat) : Tiling u lo lo [] where
  apart := List.Pairwise.nil
  inside := fun _ hb => absurd hb List.not_mem_nil
  total := rfl

theorem Tiling.perm (h : Tiling u lo hi bs) (hp : bs.Perm cs) : Tiling u lo hi cs where
  apart := (hp.pairwise_iff fun h => Apart.symm h).1 h.apart
  inside := fun b hb => h.inside b (hp.mem_iff.2 hb)
  total := by rw [← (hp.map Prod.snd).sum_eq, h.total]

theorem Tiling.lo_le (h : Tiling u lo hi bs) : lo ≤ hi := h.total ▸ Nat.le_add_right ..

/-- Two blocks that touch are one. -/
theorem Tiling.merge (hu : 0 < u) (h : Tiling u lo hi ((x, s) :: (x + u * s, t) :: bs)) :
    Tiling u lo hi ((x, s + t) :: bs) := by
  obtain ⟨h1, h2⟩ := List.pairwise_cons.1 h.apart
  obtain ⟨h3, h4⟩ := List.pairwise_cons.1 h2
  have hx := h.inside _ (List.mem_cons_self ..)
  have hy := h.inside _ (List.mem_cons_of_mem _ (List.mem_cons_self ..))
  have hsum : u * (s + t) = u * s + u * t := Nat.mul_add ..
  constructor
  · refine List.pairwise_cons.2 ⟨fun c hc => ?_, h4⟩
    have hxc := h1 c (List.mem_cons_of_mem _ hc)
    have hyc := h3 c hc
    have hpos := (h.inside c (List.mem_cons_of_mem _ (List.mem_cons_of_mem _ hc))).2.2.2
    have hcpos : 0 < u * c.2 := Nat.mul_pos hu hpos
    simp only [Apart, Block.fin] at hxc hyc ⊢
    rw [hsum]
    omega
  · intro b hb
    rcases List.mem_cons.1 hb with rfl | hb
    · refine ⟨hx.1, ?_, hx.2.2.1, Nat.lt_of_lt_of_le hx.2.2.2 (Nat.le_add_right ..)⟩
      have := hy.2.1
      simp only [Block.fin] at this ⊢
      rw [hsum]
      omega
    · exact h.inside b (List.mem_cons_of_mem _ (List.mem_cons_of_mem _ hb))
  · have := h.total
    simp only [List.map_cons, List.sum_cons] at this ⊢
    rw [← this, Nat.add_assoc s]

/-- A block is two blocks that touch. -/
theorem Tiling.split (h : Tiling u lo hi ((x, s + t) :: bs)) (hs : 0 < s) (ht : 0 < t) :
    Tiling u lo hi ((x, s) :: (x + u * s, t) :: bs) := by
  obtain ⟨h1, h2⟩ := List.pairwise_cons.1 h.apart
  have hx := h.inside _ (List.mem_cons_self ..)
  have hsum : u * (s + t) = u * s + u * t := Nat.mul_add ..
  have hfin := hx.2.1
  simp only [Block.fin] at hfin
  rw [hsum] at hfin
  constructor
  · refine List.pairwise_cons.2 ⟨fun c hc => ?_, List.pairwise_cons.2 ⟨fun c hc => ?_, h2⟩⟩
    · rcases List.mem_cons.1 hc with rfl | hc
      · exact Or.inl (Nat.le_refl _)
      · have := h1 c hc
        simp only [Apart, Block.fin] at this ⊢
        rw [hsum] at this
        omega
    · have := h1 c hc
      simp only [Apart, Block.fin] at this ⊢
      rw [hsum] at this
      omega
  · intro b hb
    rcases List.mem_cons.1 hb with rfl | hb
    · refine ⟨hx.1, ?_, hx.2.2.1, hs⟩
      simp only [Block.fin]
      omega
    · rcases List.mem_cons.1 hb with rfl | hb
      · refine ⟨Nat.le_trans hx.1 (Nat.le_add_right ..), ?_, ?_, ht⟩
        · simp only [Block.fin]
          omega
        · rw [Nat.add_mul_mod_self_left]
          exact hx.2.2.1
      · exact h.inside b (List.mem_cons_of_mem _ hb)
  · have := h.total
    simp only [List.map_cons, List.sum_cons] at this ⊢
    rw [← this, Nat.add_assoc s]

/-- The interval grows by a block. -/
theorem Tiling.grow (h : Tiling u lo hi bs) (hs : 0 < s) :
    Tiling u lo (hi + u * s) ((hi, s) :: bs) := by
  constructor
  · refine List.pairwise_cons.2 ⟨fun c hc => Or.inr ?_, h.apart⟩
    exact (h.inside c hc).2.1
  · intro b hb
    rcases List.mem_cons.1 hb with rfl | hb
    · refine ⟨h.lo_le, Nat.le_refl _, ?_, hs⟩
      rw [← h.total, Nat.add_mul_mod_self_left]
    · obtain ⟨h1, h2, h3, h4⟩ := h.inside b hb
      exact ⟨h1, Nat.le_trans h2 (Nat.le_add_right ..), h3, h4⟩
  · have := h.total
    simp only [List.map_cons, List.sum_cons]
    rw [Nat.mul_add, ← this]
    omega

/-- There are no more blocks than units. -/
theorem Tiling.length_le (h : Tiling u lo hi bs) : lo + u * bs.length ≤ hi := by
  have hlen : bs.length ≤ (bs.map Prod.snd).sum := by
    have hpos := fun b hb => (h.inside b hb).2.2.2
    clear h
    induction bs with
    | nil => exact Nat.le_refl _
    | cons b bs ih =>
        have hb := hpos b (List.mem_cons_self ..)
        have := ih fun c hc => hpos c (List.mem_cons_of_mem _ hc)
        simp only [List.length_cons, List.map_cons, List.sum_cons]
        omega
  rw [← h.total]
  exact Nat.add_le_add_left (Nat.mul_le_mul_left u hlen) lo

end Tiling

end Xv6.Lib
