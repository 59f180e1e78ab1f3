import Xv6.Sv39.Walk

set_option autoImplicit false

/-! # Page tables refine maps

`mappages` binds the pages of a range, or of a proper part of it that starts where the range does
when no page is left for the page table; `uvmunmap` unbinds the pages of a range; `walkaddr` reads a
binding. Each keeps the tree of page-table pages. -/

namespace Xv6.Sv39

open Xv6.Lib Xv6.Lib.Radix

/-- The page-aligned addresses in `k` pages from `va`. -/
def InRange (va : Uint64) (k : Nat) (a : Uint64) : Prop :=
  a % PGSIZE = 0 ∧ va.toNat ≤ a.toNat ∧ a.toNat < va.toNat + k * PGSIZE.toNat

instance (va : Uint64) (k : Nat) (a : Uint64) : Decidable (InRange va k a) :=
  inferInstanceAs (Decidable (_ ∧ _ ∧ _))

/-- The map with `k` pages from `va` bound to the pages from `pa`. -/
def Bound (m m' : Mem) (root va pa : Uint64) (perm : Uint) (k : Nat) : Prop :=
  ∀ a, tableMap m' root a =
    if InRange va k a then some (PA2PTE (pa + (a - va)) ||| perm.signExtend 64 ||| PTE_V)
    else tableMap m root a

/-- The map without `k` pages from `va`. -/
def Unbound (m m' : Mem) (root va : Uint64) (k : Nat) : Prop :=
  ∀ a, tableMap m' root a = if InRange va k a then none else tableMap m root a

theorem toNat_PGSIZE : PGSIZE.toNat = 2 ^ 12 := rfl

theorem toNat_MAXVA : MAXVA.toNat = 2 ^ 38 := rfl

/-! ## Ranges -/

section Ranges

variable {va : Uint64} {k : Nat}

theorem not_inRange_zero (va a : Uint64) : ¬ InRange va 0 a := by
  rintro ⟨-, h1, h2⟩
  omega

theorem toNat_add_PGSIZE (h : va.toNat + PGSIZE.toNat ≤ MAXVA.toNat) :
    (va + PGSIZE).toNat = va.toNat + PGSIZE.toNat := by
  rw [toNat_PGSIZE, toNat_MAXVA] at h
  rw [BitVec.toNat_add, toNat_PGSIZE]
  omega

theorem aligned_add_PGSIZE (ha : va % PGSIZE = 0)
    (h : va.toNat + PGSIZE.toNat ≤ MAXVA.toNat) : (va + PGSIZE) % PGSIZE = 0 := by
  rw [aligned_iff] at ha ⊢
  rw [toNat_add_PGSIZE h, toNat_PGSIZE]
  omega

/-- A range is its first page and the rest. -/
theorem inRange_succ (ha : va % PGSIZE = 0)
    (h : va.toNat + (k + 1) * PGSIZE.toNat ≤ MAXVA.toNat) (a : Uint64) :
    InRange va (k + 1) a ↔ a = va ∨ InRange (va + PGSIZE) k a := by
  have hlt : va.toNat + PGSIZE.toNat ≤ MAXVA.toNat := by
    rw [Nat.add_mul] at h
    omega
  have hva := (aligned_iff va).1 ha
  constructor
  · rintro ⟨haa, h1, h2⟩
    have haa' := (aligned_iff a).1 haa
    rw [Nat.add_mul, toNat_PGSIZE] at h2
    by_cases heq : a.toNat = va.toNat
    · exact Or.inl (BitVec.eq_of_toNat_eq heq)
    · refine Or.inr ⟨haa, ?_, ?_⟩
      · rw [toNat_add_PGSIZE hlt, toNat_PGSIZE]
        omega
      · rw [toNat_add_PGSIZE hlt, toNat_PGSIZE]
        omega
  · rintro (rfl | ⟨haa, h1, h2⟩)
    · refine ⟨ha, le_refl _, ?_⟩
      rw [toNat_PGSIZE]
      omega
    · rw [toNat_add_PGSIZE hlt] at h1 h2
      refine ⟨haa, by omega, ?_⟩
      rw [Nat.add_mul]
      omega

theorem InRange.lt {a : Uint64} (h : InRange va k a)
    (hmax : va.toNat + k * PGSIZE.toNat ≤ MAXVA.toNat) : a < MAXVA := by
  rw [BitVec.lt_def]
  exact Nat.lt_of_lt_of_le h.2.2 hmax

end Ranges

/-! ## One page -/

/-- Memory after `*pte = e` for an entry that `walk` has found. -/
def Mem.setPte (m : Mem) (q : Pagetable) (va : Uint64) (e : Pte) : Mem where
  page := store m.page q (PX 0 va) e
  freelist := m.freelist

section OnePage

variable {m : Mem} {root q va : Uint64} {e : Pte}

theorem Table.setPte (h : Table m root) (hq : follow child m.page root (path va 2) = some q) :
    Keeps root m (m.setPte q va e) where
  table := {
    tree := h.tree.store_leaf hq rfl
    nodup := h.nodup
    free := fun r hr => (h.free r hr).store_leaf h.tree hq rfl }
  free := List.suffix_rfl
  outside := by
    intro p hp
    have hpq : p ≠ q := fun heq => hp.1 (path va 2) (Nat.lt_succ_self 2) (heq ▸ hq)
    exact ⟨store_of_ne hpq, hp.1.store_leaf h.tree hq rfl, hp.2⟩

/-- An entry of the lowest level is the binding of one page. -/
theorem Table.tableMap_setPte (h : Table m root)
    (hq : follow child m.page root (path va 2) = some q) (ha : va % PGSIZE = 0) (hva : va < MAXVA)
    (a : Uint64) : tableMap (m.setPte q va e) root a =
      if a = va then (some e).filter fun e => e &&& PTE_V ≠ 0 else tableMap m root a := by
  by_cases haa : a % PGSIZE = 0 ∧ a < MAXVA
  · rw [tableMap, if_pos haa]
    show Option.filter _ (entryAt child (store _ _ _ _) root _ _) = _
    rw [h.tree.entryAt_store_leaf hq rfl (path a 2) (Nat.lt_succ_self 2) (PX 0 a)]
    by_cases heq : a = va
    · rw [if_pos heq, heq, if_pos ⟨rfl, rfl⟩]
    · rw [if_neg heq, if_neg, tableMap, if_pos haa]
      rintro ⟨hpath, h0⟩
      exact heq (eq_of_path haa.1 ha haa.2 hva hpath h0)
  · rw [tableMap, if_neg haa, if_neg, tableMap, if_neg haa]
    rintro rfl
    exact haa ⟨ha, hva⟩

/-- Where a binding is in memory. -/
theorem tableMap_eq_some (hb : tableMap m root va = some e) :
    va < MAXVA ∧ e &&& PTE_V ≠ 0 ∧
      ∃ q, follow child m.page root (path va 2) = some q ∧ m.page q (PX 0 va) = e := by
  obtain ⟨hva, hb⟩ := Option.ite_none_right_eq_some.1 hb
  obtain ⟨hent, hv⟩ := Option.filter_eq_some_iff.1 hb
  obtain ⟨q, hq, he⟩ := Option.map_eq_some_iff.1 hent
  exact ⟨hva.2, of_decide_eq_true hv, q, hq, he⟩

/-- An entry that is no binding is not valid. -/
theorem invalid_of_tableMap (hb : tableMap m root va = none) (ha : va % PGSIZE = 0)
    (hva : va < MAXVA) (hq : follow child m.page root (path va 2) = some q) :
    ¬ m.page q (PX 0 va) &&& PTE_V ≠ 0 := by
  intro hv
  rw [tableMap, if_pos ⟨ha, hva⟩, entryAt, hq, Option.map_some, Option.filter_eq_none_iff] at hb
  exact hb _ rfl (decide_eq_true hv)

end OnePage

/-! ## `mappages` -/

section Mappages

variable {m : Mem} {root last a pa : Uint64} {perm : Uint} {left : Nat}

theorem mappagesLoop_none {m' : Mem} (hw : walk root a true m = .ok (none, m')) :
    mappagesLoop root last perm (left + 1) a pa m = .ok (-1, m') := by
  show (walk root a true >>= _) m = _
  rw [bind_of_ok hw]
  rfl

theorem mappagesLoop_page {m' : Mem} {q : Pagetable}
    (hw : walk root a true m = .ok (some (q, PX 0 a), m'))
    (hv : ¬ m'.page q (PX 0 a) &&& PTE_V ≠ 0) :
    mappagesLoop root last perm (left + 1) a pa m =
      if a = last then .ok (0, m'.setPte q a (PA2PTE pa ||| perm.signExtend 64 ||| PTE_V))
      else mappagesLoop root last perm left (a + PGSIZE) (pa + PGSIZE)
        (m'.setPte q a (PA2PTE pa ||| perm.signExtend 64 ||| PTE_V)) := by
  show (walk root a true >>= _) m = _
  rw [bind_of_ok hw]
  show (if _ then _ else _ : K _) m' = _
  rw [if_neg hv]
  show (if _ then _ else _ : K _) (m'.setPte q a _) = _
  split <;> rfl

/-- One page is bound, then the rest. -/
theorem Bound.cons {m m' m'' : Mem} {k : Nat} (h : Bound m m' root a pa perm 1)
    (h' : Bound m' m'' root (a + PGSIZE) (pa + PGSIZE) perm k) (ha : a % PGSIZE = 0)
    (hmax : a.toNat + (k + 1) * PGSIZE.toNat ≤ MAXVA.toNat) : Bound m m'' root a pa perm (k + 1) := by
  intro b
  have hone : a.toNat + (0 + 1) * PGSIZE.toNat ≤ MAXVA.toNat := by
    rw [Nat.add_mul] at hmax
    omega
  have hshift : pa + PGSIZE + (b - (a + PGSIZE)) = pa + (b - a) := by bv_omega
  rw [h' b, h b, hshift]
  by_cases hrest : InRange (a + PGSIZE) k b
  · rw [if_pos hrest, if_pos ((inRange_succ ha hmax b).2 (Or.inr hrest))]
  · rw [if_neg hrest]
    by_cases hba : b = a
    · rw [if_pos ((inRange_succ ha hone b).2 (Or.inl hba)),
        if_pos ((inRange_succ ha hmax b).2 (Or.inl hba))]
    · rw [if_neg, if_neg]
      · rw [inRange_succ ha hmax b]
        exact fun hor => hor.elim hba hrest
      · rw [inRange_succ ha hone b]
        exact fun hor => hor.elim hba (not_inRange_zero _ b)

theorem Bound.of_eq {m' : Mem} (hmap : ∀ b, tableMap m' root b = tableMap m root b) :
    Bound m m' root a pa perm 0 := by
  intro b
  rw [if_neg (not_inRange_zero a b), hmap]

/-- A round binds one page, or finds no page for the page table. -/
theorem Table.mappages_round (h : Table m root) (ha : a % PGSIZE = 0)
    (hmax : a.toNat + (0 + 1) * PGSIZE.toNat ≤ MAXVA.toNat) (hnone : tableMap m root a = none)
    (pa : Uint64) (perm : Uint) :
    (∃ m', walk root a true m = .ok (none, m') ∧ Keeps root m m' ∧ m'.freelist = [] ∧
      ∀ b, tableMap m' root b = tableMap m root b) ∨
    ∃ m' q, walk root a true m = .ok (some (q, PX 0 a), m') ∧
      ¬ m'.page q (PX 0 a) &&& PTE_V ≠ 0 ∧
      Keeps root m (m'.setPte q a (PA2PTE pa ||| perm.signExtend 64 ||| PTE_V)) ∧
      Bound m (m'.setPte q a (PA2PTE pa ||| perm.signExtend 64 ||| PTE_V)) root a pa perm 1 := by
  have halt : a < MAXVA :=
    ((inRange_succ ha hmax a).2 (Or.inl rfl)).lt hmax
  obtain ⟨r, m', hrun, hkeep, hmap, hres⟩ := @walkLoop_alloc root a 2 m root [] h rfl rfl
  rw [← walk_below halt] at hrun
  obtain ⟨rfl, hf⟩ | ⟨q, rfl, hq⟩ := hres
  · exact Or.inl ⟨m', hrun, hkeep, hf, hmap⟩
  · rw [List.nil_append] at hq
    refine Or.inr ⟨m', q, hrun, ?_, hkeep.trans (hkeep.table.setPte hq), ?_⟩
    · exact invalid_of_tableMap ((hmap a).trans hnone) ha halt hq
    · intro b
      rw [hkeep.table.tableMap_setPte hq ha halt b, hmap b]
      by_cases hb : b = a
      · have hzero : pa + (b - a) = pa := by rw [hb, BitVec.sub_self, BitVec.add_zero]
        rw [if_pos hb, if_pos ((inRange_succ ha hmax b).2 (Or.inl hb)), hzero]
        exact Option.filter_eq_some_iff.2 ⟨rfl, decide_eq_true (or_valid _)⟩
      · rw [if_neg hb, if_neg]
        rw [inRange_succ ha hmax b]
        exact fun hor => hor.elim hb (not_inRange_zero _ b)

/-- The loop binds page after page, up to `last` or to where no page is left. -/
theorem mappagesLoop_spec (k : Nat) {m : Mem} {a pa : Uint64} (h : Table m root)
    (ha : a % PGSIZE = 0) (hmax : a.toNat + (k + 1) * PGSIZE.toNat ≤ MAXVA.toNat)
    (hlast : last.toNat = a.toNat + k * PGSIZE.toNat)
    (hnone : ∀ b, InRange a (k + 1) b → tableMap m root b = none) :
    ∃ r m', mappagesLoop root last perm (k + 1) a pa m = .ok (r, m') ∧ Keeps root m m' ∧
      (r = 0 ∧ Bound m m' root a pa perm (k + 1) ∨
        r = -1 ∧ m'.freelist = [] ∧ ∃ j, j < k + 1 ∧ Bound m m' root a pa perm j) := by
  induction k generalizing m a pa with
  | zero =>
      have hnonea := hnone a ((inRange_succ ha hmax a).2 (Or.inl rfl))
      obtain ⟨m', hw, hkeep, hf, hmap⟩ | ⟨m', q, hw, hv, hkeep, hb⟩ :=
        h.mappages_round ha hmax hnonea pa perm
      · exact ⟨-1, m', mappagesLoop_none hw, hkeep,
          Or.inr ⟨rfl, hf, 0, Nat.zero_lt_one, Bound.of_eq hmap⟩⟩
      · have heq : a = last := BitVec.eq_of_toNat_eq (by omega)
        refine ⟨0, _, ?_, hkeep, Or.inl ⟨rfl, hb⟩⟩
        rw [mappagesLoop_page hw hv, if_pos heq]
  | succ k ih =>
      have hsplit : (k + 1 + 1) * PGSIZE.toNat = (k + 1) * PGSIZE.toNat + PGSIZE.toNat :=
        Nat.succ_mul ..
      have hsplit' : (k + 1) * PGSIZE.toNat = k * PGSIZE.toNat + PGSIZE.toNat := Nat.succ_mul ..
      have hone : a.toNat + (0 + 1) * PGSIZE.toNat ≤ MAXVA.toNat := by omega
      have hnext : (a + PGSIZE).toNat = a.toNat + PGSIZE.toNat := toNat_add_PGSIZE (by omega)
      have hnonea := hnone a ((inRange_succ ha hmax a).2 (Or.inl rfl))
      obtain ⟨m', hw, hkeep, hf, hmap⟩ | ⟨m', q, hw, hv, hkeep, hb⟩ :=
        h.mappages_round ha hone hnonea pa perm
      · exact ⟨-1, m', mappagesLoop_none hw, hkeep,
          Or.inr ⟨rfl, hf, 0, Nat.zero_lt_succ _, Bound.of_eq hmap⟩⟩
      · have hne : a ≠ last := by
          rintro rfl
          rw [toNat_PGSIZE] at hlast
          omega
        rw [mappagesLoop_page hw hv, if_neg hne]
        -- the rest of the range is still unmapped
        have hrest : ∀ b, InRange (a + PGSIZE) (k + 1) b → tableMap (m'.setPte q a
            (PA2PTE pa ||| perm.signExtend 64 ||| PTE_V)) root b = none := by
          intro b hb'
          rw [hb b, if_neg]
          · exact hnone b ((inRange_succ ha hmax b).2 (Or.inr hb'))
          · rw [inRange_succ ha hone b]
            rintro (rfl | hbad)
            · have := hb'.2.1
              rw [hnext, toNat_PGSIZE] at this
              omega
            · exact not_inRange_zero _ b hbad
        obtain ⟨r, m'', hrun, hk, hres⟩ := @ih _ _ (pa + PGSIZE) hkeep.table
          (aligned_add_PGSIZE ha (by omega)) (by omega) (by omega) hrest
        refine ⟨r, m'', hrun, hkeep.trans hk, ?_⟩
        obtain ⟨hr, hb'⟩ | ⟨hr, hf, j, hj, hb'⟩ := hres
        · exact Or.inl ⟨hr, hb.cons hb' ha hmax⟩
        · refine Or.inr ⟨hr, hf, j + 1, Nat.succ_lt_succ hj, hb.cons hb' ha ?_⟩
          have : (j + 1) * PGSIZE.toNat ≤ (k + 1 + 1) * PGSIZE.toNat :=
            Nat.mul_le_mul_right _ (by omega)
          omega

end Mappages

theorem toNat_div_PGSIZE {size : Uint64} (hs : size % PGSIZE = 0) :
    (size / PGSIZE).toNat * PGSIZE.toNat = size.toNat := by
  have := (aligned_iff size).1 hs
  rw [BitVec.toNat_udiv, toNat_PGSIZE]
  omega

/-- `mappages` binds a range of unmapped pages, or a proper part of it and runs out of pages. -/
theorem mappages_spec {m : Mem} {root va size : Uint64} (h : Table m root)
    (ha : va % PGSIZE = 0) (hs : size % PGSIZE = 0) (hpos : 0 < size)
    (hmax : va.toNat + size.toNat ≤ MAXVA.toNat)
    (hnone : ∀ b, InRange va (size / PGSIZE).toNat b → tableMap m root b = none)
    (pa : Uint64) (perm : Uint) :
    ∃ r m', mappages root va size pa perm m = .ok (r, m') ∧ Keeps root m m' ∧
      (r = 0 ∧ Bound m m' root va pa perm (size / PGSIZE).toNat ∨
        r = -1 ∧ m'.freelist = [] ∧
          ∃ j, j < (size / PGSIZE).toNat ∧ Bound m m' root va pa perm j) := by
  have hne : size ≠ 0 := fun heq => absurd (heq ▸ hpos) (by decide)
  have hpages := toNat_div_PGSIZE hs
  have hpos' : 0 < size.toNat := BitVec.lt_def.1 hpos
  obtain ⟨k, hk⟩ : ∃ k, (size / PGSIZE).toNat = k + 1 := by
    refine Nat.exists_eq_succ_of_ne_zero fun h0 => ?_
    rw [h0, Nat.zero_mul] at hpages
    omega
  have hsucc : (k + 1) * PGSIZE.toNat = k * PGSIZE.toNat + PGSIZE.toNat := Nat.succ_mul ..
  have hlast : (va + size - PGSIZE).toNat = va.toNat + k * PGSIZE.toNat := by
    rw [hk] at hpages
    rw [toNat_PGSIZE] at hpages hsucc ⊢
    rw [toNat_MAXVA] at hmax
    rw [BitVec.toNat_sub, BitVec.toNat_add, toNat_PGSIZE]
    omega
  have hrun : mappages root va size pa perm =
      mappagesLoop root (va + size - PGSIZE) perm (k + 1) va pa := by
    rw [mappages, if_neg (not_not.2 ha), if_neg (not_not.2 hs), if_neg hne, hk]
  rw [hk] at hnone hpages ⊢
  rw [hrun]
  exact mappagesLoop_spec k h ha (by omega) hlast hnone

/-! ## `uvmunmap` -/

/-- An entry that `uvmunmap` takes for a leaf. -/
def IsLeaf (e : Pte) : Prop := PTE_FLAGS e ≠ PTE_V

instance (e : Pte) : Decidable (IsLeaf e) := inferInstanceAs (Decidable (_ ≠ _))

section Uvmunmap

variable {m : Mem} {root last a : Uint64} {e : Pte} {left : Nat} {kend : End}

/-- Reading without `alloc` finds the entry of a binding. -/
theorem walk_of_bound (hb : tableMap m root a = some e) :
    ∃ q, walk root a false m = .ok (some (q, PX 0 a), m) ∧ m.page q (PX 0 a) = e ∧
      follow child m.page root (path a 2) = some q := by
  obtain ⟨halt, -, q, hq, he⟩ := tableMap_eq_some hb
  refine ⟨q, ?_, he, hq⟩
  rw [walk_below halt, walkLoop_read, hq, Option.map_some]

theorem uvmunmapLoop_page (h : a < last) (hb : tableMap m root a = some e) (hl : IsLeaf e) :
    ∃ q, follow child m.page root (path a 2) = some q ∧
      uvmunmapLoop kend root last false (left + 1) a m =
        uvmunmapLoop kend root last false left (a + PGSIZE) (m.setPte q a 0) := by
  obtain ⟨q, hw, rfl, hq⟩ := walk_of_bound hb
  obtain ⟨-, hv, -⟩ := tableMap_eq_some hb
  refine ⟨q, hq, ?_⟩
  show (if _ then _ else _ : K _) m = _
  rw [if_pos h, bind_of_ok hw]
  show (if _ then _ else _ : K _) m = _
  rw [if_neg hv, if_neg hl]
  rfl

theorem uvmunmapLoop_spec (k : Nat) {m : Mem} {a : Uint64} (h : Table m root)
    (ha : a % PGSIZE = 0) (hmax : a.toNat + k * PGSIZE.toNat ≤ MAXVA.toNat)
    (hlast : last.toNat = a.toNat + k * PGSIZE.toNat)
    (hb : ∀ b, InRange a k b → ∃ e, tableMap m root b = some e ∧ IsLeaf e) :
    ∃ m', uvmunmapLoop kend root last false k a m = .ok (⟨⟩, m') ∧ Keeps root m m' ∧
      m'.freelist = m.freelist ∧ Unbound m m' root a k := by
  induction k generalizing m a with
  | zero =>
      refine ⟨m, rfl, Keeps.refl h, rfl, fun b => ?_⟩
      rw [if_neg (not_inRange_zero a b)]
  | succ k ih =>
      have hsucc : (k + 1) * PGSIZE.toNat = k * PGSIZE.toNat + PGSIZE.toNat := Nat.succ_mul ..
      have hnext : (a + PGSIZE).toNat = a.toNat + PGSIZE.toNat := toNat_add_PGSIZE (by omega)
      have hin : InRange a (k + 1) a := (inRange_succ ha hmax a).2 (Or.inl rfl)
      have halt : a < last := by
        rw [BitVec.lt_def, hlast, hsucc, toNat_PGSIZE]
        omega
      obtain ⟨e, hbound, hleaf⟩ := hb a hin
      obtain ⟨q, hq, hround⟩ := @uvmunmapLoop_page m root last a e k kend halt hbound hleaf
      have hkeep := h.setPte (e := 0) hq
      have hmap := h.tableMap_setPte (e := 0) hq ha (hin.lt hmax)
      have hrest : ∀ b, InRange (a + PGSIZE) k b →
          ∃ e, tableMap (m.setPte q a 0) root b = some e ∧ IsLeaf e := by
        intro b hb'
        rw [hmap b, if_neg]
        · exact hb b ((inRange_succ ha hmax b).2 (Or.inr hb'))
        · rintro rfl
          have := hb'.2.1
          rw [hnext, toNat_PGSIZE] at this
          omega
      obtain ⟨m', hrun, hk, hf, hun⟩ := ih hkeep.table (aligned_add_PGSIZE ha (by omega))
        (by omega) (by omega) hrest
      refine ⟨m', hround.trans hrun, hkeep.trans hk, hf, fun b => ?_⟩
      rw [hun b, hmap b]
      by_cases hb' : InRange (a + PGSIZE) k b
      · rw [if_pos hb', if_pos ((inRange_succ ha hmax b).2 (Or.inr hb'))]
      · rw [if_neg hb']
        by_cases hba : b = a
        · rw [if_pos hba, if_pos ((inRange_succ ha hmax b).2 (Or.inl hba))]
          rfl
        · rw [if_neg hba, if_neg]
          rw [inRange_succ ha hmax b]
          exact fun hor => hor.elim hba hb'

end Uvmunmap

/-- `uvmunmap` takes a range of pages that are bound to leaves out of the map. -/
theorem uvmunmap_spec {m : Mem} {root va npages : Uint64} (kend : End) (h : Table m root)
    (ha : va % PGSIZE = 0) (hmax : va.toNat + npages.toNat * PGSIZE.toNat ≤ MAXVA.toNat)
    (hb : ∀ b, InRange va npages.toNat b → ∃ e, tableMap m root b = some e ∧ IsLeaf e) :
    ∃ m', uvmunmap kend root va npages false m = .ok (⟨⟩, m') ∧ Keeps root m m' ∧
      m'.freelist = m.freelist ∧ Unbound m m' root va npages.toNat := by
  have hlast : (va + npages * PGSIZE).toNat = va.toNat + npages.toNat * PGSIZE.toNat := by
    rw [toNat_MAXVA, toNat_PGSIZE] at hmax
    rw [BitVec.toNat_add, BitVec.toNat_mul, toNat_PGSIZE]
    omega
  have hrun : uvmunmap kend root va npages false =
      uvmunmapLoop kend root (va + npages * PGSIZE) false npages.toNat va :=
    if_neg (not_not.2 ha)
  rw [hrun]
  exact uvmunmapLoop_spec npages.toNat h ha hmax hlast hb

/-! ## `walkaddr` -/

/-- The physical page that user code finds at an address, or 0. -/
def userPage (m : Mem) (root va : Uint64) : Uint64 :=
  ((tableMap m root (PGROUNDDOWN va)).filter fun e => e &&& PTE_U ≠ 0).elim 0 PTE2PA

theorem filter_flag (e flag : Pte) :
    ((some e).filter fun e => e &&& flag ≠ 0) = if e &&& flag = 0 then none else some e := by
  by_cases h : e &&& flag = 0
  · rw [if_pos h]
    exact Option.filter_some_neg (decide_eq_false (not_not.2 h))
  · rw [if_neg h]
    exact Option.filter_some_pos (decide_eq_true h)

theorem walkaddr_spec (m : Mem) (root va : Uint64) :
    walkaddr root va m = .ok (userPage m root va, m) := by
  by_cases hva : MAXVA ≤ va
  · have hmap : tableMap m root (PGROUNDDOWN va) = none :=
      if_neg fun h => BitVec.not_le.2 (PGROUNDDOWN_lt_iff.1 h.2) hva
    rw [walkaddr, if_pos hva, userPage, hmap]
    rfl
  · have hlt : va < MAXVA := BitVec.not_le.1 hva
    have hw : walk root va false m =
        .ok ((follow child m.page root (path va 2)).map fun q => (q, PX 0 va), m) := by
      rw [walk_below hlt, walkLoop_read]
    have hmap : tableMap m root (PGROUNDDOWN va) =
        (entryAt child m.page root (path va 2) (PX 0 va)).filter fun e => e &&& PTE_V ≠ 0 := by
      rw [tableMap, if_pos ⟨aligned_PGROUNDDOWN va, PGROUNDDOWN_lt_iff.2 hlt⟩, path_PGROUNDDOWN,
        PX_PGROUNDDOWN va (by decide)]
    rw [walkaddr, if_neg hva, bind_of_ok hw, userPage, hmap, entryAt]
    cases follow child m.page root (path va 2) with
    | none => rfl
    | some q =>
        show (if _ then _ else if _ then _ else _ : K _) m = _
        rw [Option.map_some]
        rw [filter_flag]
        by_cases hv : m.page q (PX 0 va) &&& PTE_V = 0
        · rw [if_pos hv, if_pos hv]
          rfl
        · rw [if_neg hv, if_neg hv, filter_flag]
          by_cases hu : m.page q (PX 0 va) &&& PTE_U = 0
          · rw [if_pos hu, if_pos hu]
            rfl
          · rw [if_neg hu, if_neg hu]
            rfl

/-! ## Refinement -/

/-- On a page table that is a tree of distinct pages in use, the operations are those of a map from
    pages to entries: `mappages` adds a range, or a proper part of it where pages run out,
    `uvmunmap` removes a range of leaves, and `walkaddr` looks a page up. -/
theorem refines_map {m : Mem} {root : Pagetable} (h : Table m root) (kend : End) :
    (∀ va size pa perm, va % PGSIZE = 0 → size % PGSIZE = 0 → 0 < size →
      va.toNat + size.toNat ≤ MAXVA.toNat →
      (∀ b, InRange va (size / PGSIZE).toNat b → tableMap m root b = none) →
      ∃ r m', mappages root va size pa perm m = .ok (r, m') ∧ Keeps root m m' ∧
        (r = 0 ∧ Bound m m' root va pa perm (size / PGSIZE).toNat ∨
          r = -1 ∧ m'.freelist = [] ∧
            ∃ j, j < (size / PGSIZE).toNat ∧ Bound m m' root va pa perm j)) ∧
    (∀ va npages, va % PGSIZE = 0 → va.toNat + npages.toNat * PGSIZE.toNat ≤ MAXVA.toNat →
      (∀ b, InRange va npages.toNat b → ∃ e, tableMap m root b = some e ∧ IsLeaf e) →
      ∃ m', uvmunmap kend root va npages false m = .ok (⟨⟩, m') ∧ Keeps root m m' ∧
        m'.freelist = m.freelist ∧ Unbound m m' root va npages.toNat) ∧
    (∀ va, walkaddr root va m = .ok (userPage m root va, m)) ∧
    ∀ pa flags, pa % PGSIZE = 0 → pa.toNat < 2 ^ 56 → flags.toNat < 2 ^ 10 →
      PTE2PA (PA2PTE pa ||| flags) = pa ∧ PTE_FLAGS (PA2PTE pa ||| flags) = flags :=
  ⟨fun _ _ pa perm ha hs hpos hmax hnone => mappages_spec h ha hs hpos hmax hnone pa perm,
    fun _ _ ha hmax hb => uvmunmap_spec kend h ha hmax hb, walkaddr_spec m root,
    fun _ _ ha hpa hf => decode_pte ha hpa hf⟩

/-! ## An empty page table -/

/-- A root page of zeros, and three free pages. -/
def blank : Mem where
  page := fun _ _ => 0
  freelist := [⟨0x80002000, by decide⟩, ⟨0x80003000, by decide⟩, ⟨0x80004000, by decide⟩]

def blankRoot : Pagetable := 0x80001000

def blankEnd : End := ⟨0x80001000, by decide⟩

theorem follow_blank (is : List (Fin 512)) :
    follow child blank.page blankRoot is = if is = [] then some blankRoot else none := by
  cases is with
  | nil => rfl
  | cons i is =>
      show (child 0).bind _ = _
      rw [child_zero]
      rfl

theorem table_blank : Table blank blankRoot where
  tree := by
    intro is js p _ _ his hjs
    rw [follow_blank] at his hjs
    rw [(Option.ite_none_right_eq_some.1 his).1, (Option.ite_none_right_eq_some.1 hjs).1]
  nodup := by decide
  free := by
    intro r hr is _ his
    rw [follow_blank] at his
    have hroot := (Option.some.inj (Option.ite_none_right_eq_some.1 his).2).symm
    revert hroot
    simp only [blank, List.mem_cons, List.not_mem_nil, or_false] at hr
    rcases hr with rfl | rfl | rfl <;> decide

theorem tableMap_blank (b : Uint64) : tableMap blank blankRoot b = none := by
  rw [tableMap, entryAt, follow_blank]
  split <;> rfl

theorem inRange_one {va b : Uint64} (ha : va % PGSIZE = 0) (h : va.toNat + PGSIZE.toNat ≤ MAXVA.toNat) :
    InRange va 1 b ↔ b = va := by
  rw [inRange_succ ha (by omega) b]
  constructor
  · rintro (h | h)
    · exact h
    · exact absurd h (not_inRange_zero _ b)
  · exact Or.inl

/-- A page bound without any permission is in the map, and `uvmunmap` panics over it. -/
theorem unmapping_panics : ∃ m, mappages blankRoot 0 PGSIZE 0x80004000 0 blank = .ok (0, m) ∧
    Table m blankRoot ∧ (∀ b, InRange 0 1 b → tableMap m blankRoot b ≠ none) ∧
    uvmunmap blankEnd blankRoot 0 1 false m = .error .unmapLeaf := by
  have hrun : ∃ m, mappages blankRoot 0 PGSIZE 0x80004000 0 blank = .ok (0, m) ∧
      tableMap m blankRoot 0 ≠ none ∧
      uvmunmap blankEnd blankRoot 0 1 false m = .error .unmapLeaf :=
    ⟨_, rfl, by decide, rfl⟩
  obtain ⟨m, hm, hzero, hpanic⟩ := hrun
  obtain ⟨r, m', hm', hkeep, -⟩ := @mappages_spec blank blankRoot 0 PGSIZE table_blank
    (by decide) (by decide) (by decide) (by decide) (fun b _ => tableMap_blank b) 0x80004000 0
  rw [hm] at hm'
  cases hm'
  refine ⟨m, hm, hkeep.table, fun b hb => ?_, hpanic⟩
  rw [(inRange_one (by decide) (by decide)).1 hb]
  exact hzero

/-- Two pages at the border of two page-table pages are bound and looked up; where no page is left
    for the page table, nothing more is bound; the first of the two is unbound and the second stays. -/
theorem refines_map_blank : ∃ m₁ m₂ m₃,
    mappages blankRoot 0x1ff000 (2 * PGSIZE) 0x80010000 0x12 blank = .ok (0, m₁) ∧
    Bound blank m₁ blankRoot 0x1ff000 0x80010000 0x12 2 ∧
    walkaddr blankRoot 0x200000 m₁ = .ok (0x80011000, m₁) ∧
    mappages blankRoot 0x40000000 PGSIZE 0x80012000 0x12 m₁ = .ok (-1, m₂) ∧
    (∀ b, tableMap m₂ blankRoot b = tableMap m₁ blankRoot b) ∧
    uvmunmap blankEnd blankRoot 0x1ff000 1 false m₂ = .ok (⟨⟩, m₃) ∧
    Unbound m₂ m₃ blankRoot 0x1ff000 1 ∧
    walkaddr blankRoot 0x1ff000 m₃ = .ok (0, m₃) ∧ walkaddr blankRoot 0x200000 m₃ = .ok (0x80011000, m₃) ∧
    PTE2PA (PA2PTE 0x80010000 ||| 0x13) = 0x80010000 := by
  have hrun : ∃ m₁ m₂ m₃, mappages blankRoot 0x1ff000 (2 * PGSIZE) 0x80010000 0x12 blank = .ok (0, m₁) ∧
      userPage m₁ blankRoot 0x200000 = 0x80011000 ∧
      mappages blankRoot 0x40000000 PGSIZE 0x80012000 0x12 m₁ = .ok (-1, m₂) ∧
      uvmunmap blankEnd blankRoot 0x1ff000 1 false m₂ = .ok (⟨⟩, m₃) ∧
      userPage m₃ blankRoot 0x1ff000 = 0 ∧ userPage m₃ blankRoot 0x200000 = 0x80011000 :=
    ⟨_, _, _, rfl, by decide, rfl, rfl, by decide, by decide⟩
  obtain ⟨m₁, m₂, m₃, hm₁, hpage, hm₂, hm₃, hgone, hleft⟩ := hrun
  have hblank := refines_map table_blank blankEnd
  obtain ⟨r, m, hm, hkeep, hres⟩ := hblank.1 0x1ff000 (2 * PGSIZE) 0x80010000 0x12 (by decide)
    (by decide) (by decide) (by decide) fun b _ => tableMap_blank b
  rw [hm₁] at hm
  cases hm
  have hbound : Bound blank m₁ blankRoot 0x1ff000 0x80010000 0x12 2 := by
    obtain ⟨-, hb⟩ | ⟨hr, -⟩ := hres
    · exact hb
    · exact absurd hr (by decide)
  have htable := refines_map hkeep.table blankEnd
  obtain ⟨r, m, hm, hkeep, hres⟩ := htable.1 0x40000000 PGSIZE 0x80012000 0x12 (by decide) (by decide)
    (by decide) (by decide) fun b hb => by
      rw [hbound b, if_neg fun hr => ?_, tableMap_blank]
      have hlt := hr.2.2
      have hge := hb.2.1
      simp [toNat_PGSIZE] at hlt hge
      omega
  rw [hm₂] at hm
  cases hm
  have hsame : ∀ b, tableMap m₂ blankRoot b = tableMap m₁ blankRoot b := by
    obtain ⟨hr, -⟩ | ⟨-, -, j, hj, hb⟩ := hres
    · exact absurd hr (by decide)
    · intro b
      obtain rfl : j = 0 := Nat.lt_one_iff.1 hj
      exact (hb b).trans (if_neg (not_inRange_zero _ b))
  have htable' := refines_map hkeep.table blankEnd
  obtain ⟨m, hm, hkeep', -, hunbound⟩ := htable'.2.1 0x1ff000 1 (by decide) (by decide) fun b hb => by
    have hfirst : b = 0x1ff000 := (inRange_one (by decide) (by decide)).1 hb
    refine ⟨_, (hsame b).trans ((hbound b).trans (if_pos ?_)), ?_⟩ <;> rw [hfirst] <;> decide
  rw [hm₃] at hm
  cases hm
  have hfinal := (refines_map hkeep'.table blankEnd).2.2.1
  refine ⟨m₁, m₂, m₃, hm₁, hbound, ?_, hm₂, hsame, hm₃, hunbound, ?_, ?_, ?_⟩
  · rw [htable.2.2.1 0x200000, hpage]
  · rw [hfinal 0x1ff000, hgone]
  · rw [hfinal 0x200000, hleft]
  · exact (hblank.2.2.2 0x80010000 0x13 (by decide) (by decide) (by decide)).1

end Xv6.Sv39
