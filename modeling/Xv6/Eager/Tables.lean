import Mathlib.Algebra.BigOperators.Fin
import Xv6.Vm.Fork
import Xv6.Eager.Model

set_option autoImplicit false

/-! # What a page table maps

The set of the addresses that a page table maps. Pages are unmapped here only if they are in it, and a
table is freed only once it is empty; no page is lost on the way. -/

namespace Xv6.Eager

open Xv6.Lib Xv6.Vm

variable {α : Type} {pt pt' : PageTable} {S : Set Nat} {a va : Nat} {m m' : Mem}

/-- The code returns. -/
abbrev Safe (P : Mem → Prop) (x : K α) (Q : α → Mem → Prop) : Prop := Triple (fun _ => False) P x Q

theorem safe_onVm {P : Mem → Prop} {x : Vm.K α} {Q : α → Mem → Prop} (h : Triple (fun _ => False) P x Q) :
    Safe P (onVm x) Q := by
  intro m hm
  have hx := h m hm
  unfold onVm
  revert hx
  cases x m with
  | ok r => exact id
  | error e => exact id

theorem safe_eq {P : Mem → Prop} {x : K α} {Q : α → Mem → Prop}
    (h : ∀ m, P m → ∃ a m', x m = .ok (a, m') ∧ Q a m') : Safe P x Q := Triple.of_ok h

theorem onVm_ok {x : Vm.K α} {a : α} (h : x m = .ok (a, m')) : onVm x m = .ok (a, m') := by
  unfold onVm
  rw [h]

theorem onVm_walk (hva : va < MAXVA) (pt : PageTable) (m : Mem) :
    onVm (walk pt va false) m = .ok ((pt, slot pt va), m) := onVm_ok (Copy.walk_eq hva pt m)

/-! ## Entries -/

/-- The addresses in `S`, and no others, are mapped, and readable. -/
structure Maps (pt : PageTable) (S : Set Nat) : Prop where
  leafy : Leafy pt
  mapped : ∀ x, x < 2 ^ 39 → ((pteAt pt x).V = true ↔ x ∈ S)

theorem Maps.congr {T : Set Nat} (h : Maps pt S) (heq : ∀ x, x < 2 ^ 39 → (x ∈ S ↔ x ∈ T)) : Maps pt T :=
  ⟨h.leafy, fun x hx => (h.mapped x hx).trans (heq x hx)⟩

theorem Maps.of_same (h : Maps pt S) (hsame : ∀ x, pteAt pt' x = pteAt pt x) : Maps pt' S := by
  refine ⟨fun x hx hv => ?_, fun x hx => ?_⟩
  · rw [hsame] at hv ⊢
    exact h.leafy x hx hv
  · rw [hsame]
    exact h.mapped x hx

theorem maps_empty : Maps (fun _ => none) ∅ := by
  have hzero : ∀ x, (pteAt (fun _ => none) x).V = false := fun _ => rfl
  refine ⟨fun x _ hv => ?_, fun x _ => ?_⟩
  · rw [hzero] at hv
    cases hv
  · rw [hzero]
    simp

/-- The entry of a page that is mapped. -/
theorem Maps.slot (h : Maps pt S) (ha : a < MAXVA) (hS : a ∈ S) :
    ∃ pte, Vm.slot pt a = some pte ∧ pteAt pt a = pte ∧ pte.V = true ∧ pte.perm.R = true := by
  have hv := (h.mapped a (maxva_lt ha)).2 hS
  have hR := h.leafy a (maxva_lt ha) hv
  cases hs : Vm.slot pt a with
  | none =>
      rw [pteAt, hs] at hv
      cases hv
  | some pte =>
      have hpte : pteAt pt a = pte := by rw [pteAt, hs, Option.getD_some]
      rw [hpte] at hv hR
      exact ⟨pte, rfl, hpte, hv, hR⟩

/-- A page that has been unmapped. -/
theorem Maps.unmapped {lo hi : Nat} (h : Maps pt S) (hu : Unmapped pt pt' lo hi) :
    Maps pt' (S \ Set.Ico lo hi) := by
  refine ⟨hu.leafy h.leafy, fun x hx => ⟨fun hv => ?_, fun hS => ?_⟩⟩
  · obtain ⟨hout, he⟩ := hu.of_valid hx hv
    rw [he] at hv
    refine ⟨(h.mapped x hx).1 hv, fun hin => ?_⟩
    have hlo := hin.1
    have hhi := hin.2
    omega
  · have hout : x < lo ∨ hi ≤ x := by
      by_contra hin
      exact hS.2 ⟨by omega, by omega⟩
    rw [hu.outside x hx hout]
    exact (h.mapped x hx).2 hS.1

/-! ## `uvmunmap` -/

/-- The memory once the page has been unmapped. -/
def freed (m : Mem) (do_free : Bool) (pa : Nat) : Mem :=
  if do_free then { m with freelist := pa :: m.freelist } else m

theorem free_freed (m : Mem) (do_free : Bool) (pa : Nat) :
    (freed m do_free pa).free = m.free + if do_free then {pa} else 0 := by
  unfold freed
  cases do_free with
  | false => simp
  | true =>
      simp only [if_true]
      rw [Mem.free, Mem.free, ← Multiset.cons_coe, ← Multiset.singleton_add, add_comm]

theorem unmapPage_eq {pte : Pte} (ha : a < MAXVA) (hs : Vm.slot pt a = some pte) (hv : pte.V = true)
    (hR : pte.perm.R = true) (do_free : Bool) (m : Mem) :
    unmapPage pt a do_free m = .ok (setPte pt a Pte.zero, freed m do_free pte.pa) := by
  have hperm : pte.perm ≠ Perm.none := by
    intro he
    rw [he] at hR
    cases hR
  unfold unmapPage
  rw [bind_of_ok (onVm_walk ha pt m), hs]
  simp only
  rw [if_neg (by simp [hv]), if_neg hperm]
  cases do_free with
  | false => rfl
  | true => rfl

/-- What `uvmunmap` has done to `n` pages from `a` on. -/
structure Gone (pt : PageTable) (m : Mem) (a n : Nat) (do_free : Bool) (pt' : PageTable) (m' : Mem) : Prop where
  unmapped : Unmapped pt pt' a (a + n * PGSIZE)
  tables : tables pt' = tables pt
  free : m'.free = m.free + if do_free then leaves pt a n else 0

theorem uvmunmapLoop_gone (do_free : Bool) (n : Nat) (h : Maps pt S) (halign : a % PGSIZE = 0)
    (hmax : a + n * PGSIZE ≤ MAXVA) (hS : Set.Ico a (a + n * PGSIZE) ⊆ S) (m : Mem) :
    Safe (fun m' => m' = m) (uvmunmapLoop do_free n pt a) (Gone pt m a n do_free) := by
  induction n generalizing pt a m S with
  | zero =>
      refine Triple.pure _ ?_
      rintro m' rfl
      refine ⟨⟨fun x hlo hhi => by omega, fun _ _ _ => rfl⟩, rfl, ?_⟩
      simp [leaves]
  | succ n ih =>
      have hP : 0 < PGSIZE := Copy.pgsize_pos
      have hsum := Copy.next_page a n
      rw [hsum] at hmax hS
      have ha : a < MAXVA := by omega
      obtain ⟨pte, hs, hpte, hv, hR⟩ := h.slot ha (hS ⟨Nat.le_refl a, by omega⟩)
      -- the first page
      have hfirst : Unmapped pt (setPte pt a Pte.zero) a (a + PGSIZE) := by
        refine ⟨fun x hlo hhi => ?_, fun x hx hout => ?_⟩
        · rw [pteAt_congr (div_eq_of_aligned halign hlo hhi), pteAt_setPte_self hs]
          rfl
        · exact pteAt_setPte_of_ne (maxva_lt ha) hx (div_ne_of_aligned halign hout)
      have hrest := ih (h.unmapped hfirst) (by rw [Nat.add_mod_right, halign]) hmax
        (fun x hx => ⟨hS ⟨by have := hx.1; omega, hx.2⟩, fun hin => by have := hx.1; have := hin.2; omega⟩)
        (freed m do_free pte.pa)
      refine Triple.bind (R := fun r m' => r = setPte pt a Pte.zero ∧ m' = freed m do_free pte.pa)
        (safe_eq fun m' hm => ⟨_, _, by rw [hm]; exact unmapPage_eq ha hs hv hR do_free m, rfl, rfl⟩) fun r => ?_
      rintro m' ⟨rfl, rfl⟩
      refine hrest.conseq (fun _ hm => hm) (fun pt₂ m₂ hgone => ⟨?_, hgone.tables.trans (tables_setPte ..), ?_⟩) _ rfl
      · refine ⟨fun x hlo hhi => ?_, fun x hx hout => ?_⟩
        · by_cases hx : x < a + PGSIZE
          · rw [hgone.unmapped.outside x (maxva_lt (by omega)) (Or.inl hx)]
            exact hfirst.inside x hlo hx
          · exact hgone.unmapped.inside x (by omega) (by omega)
        · rw [hgone.unmapped.outside x hx (by omega)]
          exact hfirst.outside x hx (by omega)
      · have hsame : leaves (setPte pt a Pte.zero) (a + PGSIZE) n = leaves pt (a + PGSIZE) n := by
          refine Copy.leaves_congr fun k hk => hfirst.outside _ (maxva_lt ?_) (Or.inr (Nat.le_add_right ..))
          have hlt := Nat.mul_lt_mul_of_pos_right hk hP
          omega
        rw [hgone.free, free_freed, hsame, Copy.leaves_succ, leafAt, hpte, if_pos hv, add_assoc]
        cases do_free with
        | false => simp
        | true => simp

theorem uvmunmap_gone (do_free : Bool) (n : Nat) (h : Maps pt S) (halign : a % PGSIZE = 0)
    (hmax : a + n * PGSIZE ≤ MAXVA) (hS : Set.Ico a (a + n * PGSIZE) ⊆ S) (m : Mem) :
    Safe (fun m' => m' = m) (uvmunmap pt a n do_free) (Gone pt m a n do_free) := by
  unfold uvmunmap
  exact Triple.ite (fun hne => absurd halign hne) fun _ => uvmunmapLoop_gone do_free n h halign hmax hS m

/-! ## `freewalk` -/

theorem kfree_free (pa : Nat) (m : Mem) {T : Multiset Nat} (h : m.free + {pa} = T) :
    ∃ r m', kfree pa m = .ok (r, m') ∧ m'.free = T := by
  refine ⟨_, _, rfl, ?_⟩
  rw [← h, Mem.free, Mem.free, ← Multiset.cons_coe, ← Multiset.singleton_add, add_comm]

/-- A loop over all entries of a table that gives back what each of them holds. -/
theorem triple_entries {may : Vm.Panic → Prop} {f : Fin 512 → Vm.K PUnit} {g : Fin 512 → Multiset Nat}
    (h : ∀ i T, Triple may (fun m => m.free + g i = T) (f i) fun _ m => m.free = T) (T : Multiset Nat) :
    Triple may (fun m => m.free + ∑ i, g i = T) (entries.forM f) fun _ m => m.free = T := by
  have hround : ∀ i l, Triple may (fun m => m.free + ((i :: l).map g).sum = T) (f i)
      fun _ m => m.free + (l.map g).sum = T := by
    intro i l
    refine Triple.each fun m₀ hm₀ => (h i (m₀.free + g i)).conseq (fun m hm => by rw [hm]) fun _ m hm => ?_
    rw [hm, ← hm₀, List.map_cons, List.sum_cons, add_assoc]
  refine (Triple.forM_left (I := fun l m => m.free + (l.map g).sum = T) hround entries).conseq (fun m hm => ?_) fun _ m hm => by simpa using hm
  rw [← hm, Fin.sum_univ_def]
  unfold entries
  rfl

theorem freewalkLeaf_free {may : Vm.Panic → Prop} {table : Nat × Leaf} (h : ∀ i, (table.2 i).V = false) (T : Multiset Nat) :
    Triple may (fun m => m.free + {table.1} = T) (freewalkLeaf table) fun _ m => m.free = T := by
  unfold freewalkLeaf
  refine Triple.ite (fun hany => ?_) fun _ => Triple.of_ok fun m hm => kfree_free _ m hm
  unfold hasLeaf at hany
  obtain ⟨i, -, hv⟩ := List.any_eq_true.1 hany
  rw [h i] at hv
  cases hv

theorem freewalkMid_free {may : Vm.Panic → Prop} {table : Nat × Mid}
    (h : ∀ i t, table.2 i = some t → ∀ j, (t.2 j).V = false) (T : Multiset Nat) :
    Triple may (fun m => m.free + rootTables (some table) = T) (freewalkMid table) fun _ m => m.free = T := by
  unfold freewalkMid
  refine Triple.each fun m₀ hm₀ => ?_
  refine Triple.bind (R := fun _ m => m.free = m₀.free + ∑ j, midTables (table.2 j)) ?_ fun _ =>
    Triple.of_ok fun m hm => kfree_free _ m ?_
  · refine (triple_entries (fun i T' => ?_) _).conseq (fun m hm => by rw [hm]) fun _ _ hm => hm
    cases hi : table.2 i with
    | none => exact Triple.pure _ fun m hm => by simpa [midTables] using hm
    | some t => exact freewalkLeaf_free (h i t hi) T'
  · rw [hm, ← hm₀, rootTables, Option.elim_some, add_assoc, add_comm (∑ j, midTables (table.2 j))]

/-- A table that maps nothing is given back. -/
theorem freewalk_free (root : Nat) (h : Maps pt ∅) (T : Multiset Nat) :
    Safe (fun m => m.free + ({root} + tables pt) = T) (onVm (freewalk root pt)) fun _ m => m.free = T := by
  refine safe_onVm ?_
  unfold freewalk
  refine Triple.each fun m₀ hm₀ => ?_
  refine Triple.bind (R := fun _ m => m.free = m₀.free + tables pt) ?_ fun _ =>
    Triple.of_ok fun m hm => kfree_free _ m ?_
  · refine (triple_entries (g := fun i => rootTables (pt i)) (fun i2 T' => ?_) _).conseq (fun m hm => ?_) fun _ _ hm => hm
    · cases h2 : pt i2 with
      | none => exact Triple.pure _ fun m hm => by simpa [rootTables] using hm
      | some t2 =>
          refine freewalkMid_free (fun i1 t1 h1 i0 => ?_) T'
          obtain ⟨hlt, e2, e1, e0⟩ := PX_address i2 i1 i0
          have hfree := h.mapped _ hlt
          simp only [pteAt, Vm.slot, e2, h2, e1, h1, e0, Option.getD_some] at hfree
          simpa using hfree
    · rw [hm]
      unfold tables
      rfl
  · rw [hm, ← hm₀, add_assoc, add_comm (tables pt)]

/-! ## `mappages` -/

/-- What `mappages` has done with one page. -/
structure Mapped (pt : PageTable) (m : Mem) (va pa : Nat) (perm : Perm) (r : PageTable × Int) (m' : Mem) : Prop where
  frames : m'.free + tables r.1 = m.free + tables pt
  result : r.2 = 0 ∨ r.2 = -1
  ok : r.2 = 0 → pteAt r.1 va = ⟨true, perm, pa⟩ ∧
    ∀ x, x < 2 ^ 39 → x / PGSIZE ≠ va / PGSIZE → pteAt r.1 x = pteAt pt x
  failed : r.2 ≠ 0 → ∀ x, pteAt r.1 x = pteAt pt x

theorem mappages_mapped (pa : Nat) (perm : Perm) (hva : va < MAXVA) (halign : va % PGSIZE = 0)
    (h : Maps pt S) (hS : va ∉ S) (m : Mem) :
    Safe (fun m' => m' = m) (onVm (mappages pt va PGSIZE pa perm)) (Mapped pt m va pa perm) := by
  have hv : ¬ (pteAt pt va).V = true := fun hv => hS ((h.mapped va (maxva_lt hva)).1 hv)
  have hI : Triple (fun _ : Vm.Panic => False) (fun _ => True) kalloc fun _ _ => True :=
    Triple.each fun m _ => (kalloc_took m).conseq (fun _ h => h) fun _ _ _ => trivial
  have hkeeps : Triple (fun _ : Vm.Panic => False) _ (mappages pt va PGSIZE pa perm) _ :=
    mappages_keeps hI pt hva halign fun h => absurd h hv
  refine safe_onVm (((mappages_took pt hva halign (fun h => absurd h hv) m).and
    (hkeeps.conseq (fun _ _ => trivial) fun _ _ h => h)).conseq (fun _ h => h) fun r m' hm => ?_)
  obtain ⟨⟨l, htook, htables⟩, -, hresult, hok, hfailed⟩ := hm
  refine ⟨?_, hresult, fun h0 => (hok h0).2, hfailed⟩
  rw [htables, htook.free, add_assoc, add_comm l]

/-- The page has been mapped. -/
theorem Mapped.maps {pa : Nat} {perm : Perm} {r : PageTable × Int} (hr : Mapped pt m va pa perm r m')
    (h : Maps pt S) (halign : va % PGSIZE = 0) (h0 : r.2 = 0) (hR : perm.R = true) :
    Maps r.1 (S ∪ Set.Ico va (va + PGSIZE)) := by
  obtain ⟨hnew, hrest⟩ := hr.ok h0
  have hcases : ∀ x, x < 2 ^ 39 → (x ∈ Set.Ico va (va + PGSIZE) ∧ pteAt r.1 x = ⟨true, perm, pa⟩) ∨
      (x ∉ Set.Ico va (va + PGSIZE) ∧ pteAt r.1 x = pteAt pt x) := by
    intro x hx
    by_cases hin : x ∈ Set.Ico va (va + PGSIZE)
    · exact Or.inl ⟨hin, by rw [pteAt_congr (div_eq_of_aligned halign hin.1 hin.2), hnew]⟩
    · refine Or.inr ⟨hin, hrest x hx (div_ne_of_aligned halign ?_)⟩
      by_contra hout
      exact hin ⟨by omega, by omega⟩
  refine ⟨fun x hx hv => ?_, fun x hx => ?_⟩
  · rcases hcases x hx with ⟨-, he⟩ | ⟨-, he⟩
    · rw [he]
      exact hR
    · rw [he] at hv ⊢
      exact h.leafy x hx hv
  · rcases hcases x hx with ⟨hin, he⟩ | ⟨hin, he⟩
    · rw [he]
      exact ⟨fun _ => Or.inr hin, fun _ => rfl⟩
    · rw [he, h.mapped x hx]
      exact ⟨Or.inl, fun hS => hS.resolve_right hin⟩

end Xv6.Eager
