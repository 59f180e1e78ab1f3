import Xv6.Sv39.Index

set_option autoImplicit false

/-! # The map of a page table, and `walk`

A page table is a tree of three levels, none of whose pages is free. Its map sends the page-aligned
addresses below `MAXVA` to the valid entries of the lowest level. `walk` without `alloc` reads this
tree; with `alloc` it adds pages to it and leaves the map as it is. -/

namespace Xv6.Sv39

open Xv6.Lib Xv6.Lib.Radix

/-- A page table whose page-table pages are distinct and in use. -/
structure Table (m : Mem) (root : Pagetable) : Prop where
  tree : IsTree child m.page root 3
  nodup : m.freelist.Nodup
  free : ∀ r ∈ m.freelist, Fresh child m.page root 3 r.1

/-- The entry to which a page-aligned address is bound. -/
def tableMap (m : Mem) (root : Pagetable) (va : Uint64) : Option Pte :=
  if va % PGSIZE = 0 ∧ va < MAXVA then
    (entryAt child m.page root (path va 2) (PX 0 va)).filter fun e => e &&& PTE_V ≠ 0
  else none

/-- A page that is neither free nor part of the page table. -/
def Outside (m : Mem) (root p : Pagetable) : Prop :=
  Fresh child m.page root 3 p ∧ ∀ r ∈ m.freelist, r.1 ≠ p

/-- What the operations keep: the page table is a tree, pages are only taken from the free list,
    and what is outside does not change. -/
structure Keeps (root : Pagetable) (m m' : Mem) : Prop where
  table : Table m' root
  free : m'.freelist <:+ m.freelist
  outside : ∀ p, Outside m root p → m'.page p = m.page p ∧ Outside m' root p

theorem Keeps.refl {m : Mem} {root : Pagetable} (h : Table m root) : Keeps root m m where
  table := h
  free := List.suffix_rfl
  outside := fun _ hp => ⟨rfl, hp⟩

theorem Keeps.trans {m m' m'' : Mem} {root : Pagetable} (h : Keeps root m m')
    (h' : Keeps root m' m'') : Keeps root m m'' where
  table := h'.table
  free := h'.free.trans h.free
  outside := by
    intro p hp
    obtain ⟨heq, hout⟩ := h.outside p hp
    obtain ⟨heq', hout'⟩ := h'.outside p hout
    exact ⟨heq'.trans heq, hout'⟩

/-! ## A new page-table page -/

/-- Memory after a page has been taken for an entry of an upper level. -/
def Mem.extend (m : Mem) (p : Pagetable) (i : Fin 512) (r : Page) (rest : List Page) : Mem where
  page := store (Function.update m.page r.1 fun _ => 0) p i (PA2PTE r.1 ||| PTE_V)
  freelist := rest

section Extend

variable {m : Mem} {root p : Pagetable} {i : Fin 512} {r : Page} {rest : List Page}
  {is : List (Fin 512)}

theorem Table.extend (h : Table m root) (hf : m.freelist = r :: rest)
    (hp : follow child m.page root is = some p) (hn : is.length + 1 < 3)
    (hnone : child (m.page p i) = none) : Keeps root m (m.extend p i r rest) := by
  have hr : Fresh child m.page root 3 r.1 := h.free r (hf ▸ List.mem_cons_self ..)
  have hnd := h.nodup
  rw [hf, List.nodup_cons] at hnd
  have hfresh : ∀ q, Fresh child m.page root 3 q → q ≠ r.1 →
      Fresh child (m.extend p i r rest).page root 3 q := fun q hq hqr =>
    hq.store_fresh hqr h.tree hp hn hnone hr (fun _ => child_zero) (child_page r)
  constructor
  · constructor
    · exact h.tree.store_fresh hp hn hnone hr (fun _ => child_zero) (child_page r)
    · exact hnd.2
    · intro q hq
      have hqr : q.1 ≠ r.1 := fun heq => hnd.1 (Subtype.ext heq ▸ hq)
      exact hfresh q.1 (h.free q (hf ▸ List.mem_cons_of_mem _ hq)) hqr
  · exact hf ▸ List.suffix_cons r rest
  · intro q hq
    have hqr : q ≠ r.1 := fun heq => hq.2 r (hf ▸ List.mem_cons_self ..) heq.symm
    have hqp : q ≠ p := fun heq => hq.1 is (by omega) (heq ▸ hp)
    constructor
    · show store _ p i _ q = _
      rw [store_of_ne hqp, Function.update_of_ne hqr]
    · exact ⟨hfresh q hq.1 hqr, fun s hs => hq.2 s (hf ▸ List.mem_cons_of_mem _ hs)⟩

theorem Table.follow_extend (h : Table m root) (hf : m.freelist = r :: rest)
    (hp : follow child m.page root is = some p) (hn : is.length + 1 < 3)
    (hnone : child (m.page p i) = none) :
    follow child (m.extend p i r rest).page root (is ++ [i]) = some r.1 := by
  have hr : Fresh child m.page root 3 r.1 := h.free r (hf ▸ List.mem_cons_self ..)
  have := h.tree.follow_store_fresh hp hn hnone hr (fun _ => child_zero) (child_page r) (is ++ [i])
    (by simpa using hn)
  rw [if_pos rfl] at this
  exact this

/-- The entries of a new page-table page are not valid. -/
theorem Table.tableMap_extend (h : Table m root) (hf : m.freelist = r :: rest)
    (hp : follow child m.page root is = some p) (hn : is.length + 1 < 3)
    (hnone : child (m.page p i) = none) (va : Uint64) :
    tableMap (m.extend p i r rest) root va = tableMap m root va := by
  have hr : Fresh child m.page root 3 r.1 := h.free r (hf ▸ List.mem_cons_self ..)
  have hentry := h.tree.entryAt_store_fresh hp hn hnone hr (fun _ => child_zero) (child_page r)
    (path va 2) rfl (PX 0 va)
  by_cases hva : va % PGSIZE = 0 ∧ va < MAXVA
  · rw [tableMap, tableMap, if_pos hva, if_pos hva]
    show Option.filter _ (entryAt child (store _ p i _) root _ _) = _
    rw [hentry]
    by_cases hnew : path va 2 = is ++ [i]
    · -- the path went nowhere before
      rw [if_pos hnew, hnew, entryAt, follow_snoc, hp, Option.bind_some, hnone]
      rfl
    · rw [if_neg hnew]
  · rw [tableMap, tableMap, if_neg hva, if_neg hva]

end Extend

/-! ## `walk` -/

theorem kalloc_nil {m : Mem} (hf : m.freelist = []) : kalloc m = .ok (0, m) := by
  obtain ⟨page, freelist⟩ := m
  simp only at hf
  subst hf
  rfl

theorem kalloc_cons {m : Mem} {r : Page} {rest : List Page} (hf : m.freelist = r :: rest) :
    kalloc m = .ok (r.1, ⟨Function.update m.page r.1 fun _ => 0x0505050505050505, rest⟩) := by
  obtain ⟨page, freelist⟩ := m
  simp only at hf
  subst hf
  rfl

section Rounds

variable {va : Uint64} {alloc : Bool} {level : Nat} {pt : Pagetable} {m : Mem}

theorem walkLoop_valid (hv : m.page pt (PX (level + 1) va) &&& PTE_V ≠ 0) :
    walkLoop va alloc (level + 1) pt m =
      walkLoop va alloc level (PTE2PA (m.page pt (PX (level + 1) va))) m := by
  show (if _ then _ else _ : K _) m = _
  rw [if_pos hv]

theorem walkLoop_invalid (hv : ¬ m.page pt (PX (level + 1) va) &&& PTE_V ≠ 0) :
    walkLoop va false (level + 1) pt m = .ok (none, m) := by
  show (if _ then _ else _ : K _) m = _
  rw [if_neg hv, if_pos rfl]
  rfl

theorem walkLoop_no_page (hv : ¬ m.page pt (PX (level + 1) va) &&& PTE_V ≠ 0)
    (hf : m.freelist = []) : walkLoop va true (level + 1) pt m = .ok (none, m) := by
  show (if _ then _ else _ : K _) m = _
  rw [if_neg hv, if_neg (by decide), bind_of_ok (kalloc_nil hf), if_pos rfl]
  rfl

theorem walkLoop_page {r : Page} {rest : List Page}
    (hv : ¬ m.page pt (PX (level + 1) va) &&& PTE_V ≠ 0) (hf : m.freelist = r :: rest) :
    walkLoop va true (level + 1) pt m =
      walkLoop va true level r.1 (m.extend pt (PX (level + 1) va) r rest) := by
  show (if _ then _ else _ : K _) m = _
  rw [if_neg hv, if_neg (by decide), bind_of_ok (kalloc_cons hf), if_neg r.ne_zero]
  show walkLoop va true level r.1
    ⟨store (Function.update (Function.update _ _ _) _ _) _ _ _, rest⟩ = _
  rw [Function.update_idem]
  rfl

end Rounds

theorem child_of_valid {e : Pte} (hv : e &&& PTE_V ≠ 0) : child e = some (PTE2PA e) := if_pos hv

theorem child_of_invalid {e : Pte} (hv : ¬ e &&& PTE_V ≠ 0) : child e = none := if_neg hv

/-- Without `alloc`, `walk` goes down the tree. -/
theorem walkLoop_read (va : Uint64) (m : Mem) (level : Nat) (pt : Pagetable) :
    walkLoop va false level pt m =
      .ok ((follow child m.page pt (path va level)).map fun q => (q, PX 0 va), m) := by
  induction level generalizing pt with
  | zero => rfl
  | succ level ih =>
      rw [path, follow]
      by_cases hv : m.page pt (PX (level + 1) va) &&& PTE_V ≠ 0
      · rw [walkLoop_valid hv, ih, child_of_valid hv, Option.bind_some]
      · rw [walkLoop_invalid hv, child_of_invalid hv]
        rfl

/-- With `alloc`, `walk` comes to the entry, unless pages have run out. It keeps the map. -/
theorem walkLoop_alloc {root : Pagetable} (va : Uint64) (level : Nat) {m : Mem} {pt : Pagetable}
    {is : List (Fin 512)} (h : Table m root) (hpt : follow child m.page root is = some pt)
    (hn : is.length + level = 2) : ∃ r m', walkLoop va true level pt m = .ok (r, m') ∧
      Keeps root m m' ∧ (∀ a, tableMap m' root a = tableMap m root a) ∧
      (r = none ∧ m'.freelist = [] ∨ ∃ q, r = some (q, PX 0 va) ∧
        follow child m'.page root (is ++ path va level) = some q) := by
  induction level generalizing m pt is with
  | zero =>
      refine ⟨_, m, rfl, Keeps.refl h, fun _ => rfl, Or.inr ⟨pt, rfl, ?_⟩⟩
      rw [path, List.append_nil, hpt]
  | succ level ih =>
      have happ : is ++ path va (level + 1) = is ++ [PX (level + 1) va] ++ path va level := by
        rw [path, List.append_assoc]
        rfl
      have hlen : (is ++ [PX (level + 1) va]).length + level = 2 := by
        rw [List.length_append, List.length_singleton]
        omega
      rw [happ]
      by_cases hv : m.page pt (PX (level + 1) va) &&& PTE_V ≠ 0
      · rw [walkLoop_valid hv]
        refine ih h ?_ hlen
        rw [follow_snoc, hpt, Option.bind_some, child_of_valid hv]
      · have hnone := child_of_invalid hv
        cases hf : m.freelist with
        | nil =>
            rw [walkLoop_no_page hv hf]
            exact ⟨_, m, rfl, Keeps.refl h, fun _ => rfl, Or.inl ⟨rfl, hf⟩⟩
        | cons r rest =>
            have hkeep := h.extend hf hpt (by omega) hnone
            rw [walkLoop_page hv hf]
            obtain ⟨res, m', hrun, hk, hmap, hres⟩ :=
              ih hkeep.table (h.follow_extend hf hpt (by omega) hnone) hlen
            refine ⟨res, m', hrun, hkeep.trans hk, fun a => ?_, hres⟩
            rw [hmap, h.tableMap_extend hf hpt (by omega) hnone]

theorem walk_below {root : Pagetable} {va : Uint64} {alloc : Bool} (hva : va < MAXVA) :
    walk root va alloc = walkLoop va alloc 2 root :=
  if_neg (BitVec.not_le.2 hva)

end Xv6.Sv39
