import Xv6.Vm.Model

set_option autoImplicit false

/-! # Page tables as maps from pages to entries

`pteAt` reads the entry of a page off the tree of tables. Each function on page tables is described
by what it does to `pteAt` and to the memory, and later proofs do not look at the tree again. -/

namespace Xv6.Vm

open Xv6.Lib

/-! ## The entries of a tree -/

/-- The entry for `va`, if the tables on the way exist. -/
def slot (pt : PageTable) (va : Nat) : Option Pte :=
  match pt (PX 2 va) with
  | none => none
  | some (_, mid) => match mid (PX 1 va) with
    | none => none
    | some (_, leaf) => some (leaf (PX 0 va))

def pteAt (pt : PageTable) (va : Nat) : Pte := (slot pt va).getD Pte.zero

theorem PX_inj {va x : Nat} (hva : va < 2 ^ 39) (hx : x < 2 ^ 39) (h2 : PX 2 va = PX 2 x)
    (h1 : PX 1 va = PX 1 x) (h0 : PX 0 va = PX 0 x) : va / PGSIZE = x / PGSIZE := by
  simp only [PX, Fin.ofNat_eq_cast, Fin.ext_iff, Fin.val_natCast] at h2 h1 h0
  unfold PGSIZE
  omega

theorem PX_congr {va x : Nat} (h : va / PGSIZE = x / PGSIZE) (level : Nat) :
    PX level va = PX level x := by
  have hdiv : ∀ y : Nat, y / 2 ^ (12 + 9 * level) = y / PGSIZE / 2 ^ (9 * level) := by
    intro y
    rw [Nat.div_div_eq_div_mul, pow_add]
    rfl
  unfold PX
  rw [hdiv va, hdiv x, h]

theorem slot_congr {pt : PageTable} {va x : Nat} (h : va / PGSIZE = x / PGSIZE) :
    slot pt va = slot pt x := by
  unfold slot
  rw [PX_congr h 2, PX_congr h 1, PX_congr h 0]

theorem slot_setPte_self {pt : PageTable} {va : Nat} {e e' : Pte} (h : slot pt va = some e) :
    slot (setPte pt va e') va = some e' := by
  unfold slot at h
  unfold setPte
  cases h2 : pt (PX 2 va) with
  | none => simp [h2] at h
  | some r2 =>
      obtain ⟨pa1, mid⟩ := r2
      cases h1 : mid (PX 1 va) with
      | none => simp [h2, h1] at h
      | some r1 =>
          obtain ⟨pa0, leaf⟩ := r1
          simp [slot, h1]

theorem slot_setPte_of_ne {pt : PageTable} {va x : Nat} {e : Pte} (hva : va < 2 ^ 39)
    (hx : x < 2 ^ 39) (h : x / PGSIZE ≠ va / PGSIZE) : slot (setPte pt va e) x = slot pt x := by
  unfold setPte
  cases h2 : pt (PX 2 va) with
  | none => rfl
  | some r2 =>
      obtain ⟨pa1, mid⟩ := r2
      cases h1 : mid (PX 1 va) with
      | none => simp [h1]
      | some r1 =>
          obtain ⟨pa0, leaf⟩ := r1
          simp only [h1]
          unfold slot
          by_cases e2 : PX 2 x = PX 2 va
          · simp only [e2, Function.update_self, h2]
            by_cases e1 : PX 1 x = PX 1 va
            · have e0 : PX 0 x ≠ PX 0 va := fun e0 => h (PX_inj hx hva e2 e1 e0)
              simp [e1, h1, e0]
            · simp [e1]
          · simp [e2]

theorem pteAt_setPte_self {pt : PageTable} {va : Nat} {e e' : Pte} (h : slot pt va = some e) :
    pteAt (setPte pt va e') va = e' := by
  simp [pteAt, slot_setPte_self h]

theorem pteAt_setPte_of_ne {pt : PageTable} {va x : Nat} {e : Pte} (hva : va < 2 ^ 39)
    (hx : x < 2 ^ 39) (h : x / PGSIZE ≠ va / PGSIZE) : pteAt (setPte pt va e) x = pteAt pt x := by
  simp [pteAt, slot_setPte_of_ne hva hx h]

/-! ## `walk` -/

/-- Nothing at `TRAPFRAME` or above has been come to by an `uvmunmap` that frees. -/
def Sound (m : Mem) : Prop := ∀ va ∈ m.unmapped, va < TRAPFRAME

/-- Besides, at most `n` pages are free. -/
structure Clean (n : Nat) (m : Mem) : Prop where
  free : m.freelist.length ≤ n
  unmapped : Sound m

variable {may : Panic → Prop}

/-- Where the number of free pages does not matter. -/
theorem triple_sound {α : Type} {x : K α} {q : α → Prop}
    (h : ∀ n, Triple may (Clean n) x (fun r m => Clean n m ∧ q r)) :
    Triple may Sound x (fun r m => Sound m ∧ q r) := by
  intro m hm
  have hx := h m.freelist.length m ⟨le_rfl, hm⟩
  revert hx
  cases x m with
  | error e => exact id
  | ok r => exact fun hr => ⟨hr.1.unmapped, hr.2⟩

theorem triple_kalloc (n : Nat) : Triple may (Clean n) kalloc
    (fun r m => Clean n m ∧ (r ≠ none → 0 < n ∧ Clean (n - 1) m)) := by
  unfold kalloc
  refine Triple.bind (Triple.get (Q := fun a m => a = m ∧ Clean n m) fun m hm => ⟨rfl, hm⟩) ?_
  intro m
  cases hf : m.freelist with
  | nil => exact Triple.pure _ fun s hs => ⟨hs.2, by simp⟩
  | cons pa rest =>
      refine Triple.bind (Triple.set (Q := fun _ s => 0 < n ∧ Clean (n - 1) s) _ ?_) ?_
      · rintro s ⟨rfl, hs⟩
        have hlen := hs.free
        rw [hf, List.length_cons] at hlen
        exact ⟨by omega, ⟨by simp only; omega, hs.unmapped⟩⟩
      · intro _
        exact Triple.pure _ fun s hs => ⟨⟨by have := hs.2.free; omega, hs.2.unmapped⟩, fun _ => hs⟩

theorem kalloc_clean (n : Nat) : Triple may (Clean n) kalloc fun _ => Clean n :=
  Triple.conseq (triple_kalloc n) (fun _ hm => hm) fun _ _ hm => hm.1

section Keeps

variable {I : Mem → Prop} (hI : Triple may I kalloc fun _ => I)

include hI

/-- One level of `walk`: an entry that was there, an empty table, or nothing. -/
theorem triple_descend {α : Type} (entry : Option (Nat × α)) (empty : α) (alloc : Bool) :
    Triple may I (descend entry empty alloc) (fun r m => I m ∧
      (∀ table, entry = some table → r = some table) ∧
      (entry = none → ∀ table, r = some table → alloc = true ∧ table.2 = empty)) := by
  unfold descend
  cases entry with
  | some table => exact Triple.pure _ fun m hm => ⟨hm, fun t ht => ht, by simp⟩
  | none =>
      refine Triple.ite (fun halloc => ?_) fun _ => Triple.pure _ fun m hm => ⟨hm, by simp, by simp⟩
      refine Triple.bind hI fun pa => Triple.pure _ fun m hm => ⟨hm, by simp, ?_⟩
      intro _ table htable
      obtain ⟨a, -, rfl⟩ := Option.map_eq_some_iff.1 htable
      exact ⟨halloc, rfl⟩

omit hI in
/-- Entering a table that was there, or an empty one, changes no entry. -/
theorem pteAt_update_mid {pt : PageTable} {va pa1 : Nat} {mid : Mid}
    (hsome : ∀ table, pt (PX 2 va) = some table → table = (pa1, mid))
    (hnone : pt (PX 2 va) = none → mid = fun _ => none) (x : Nat) :
    pteAt (Function.update pt (PX 2 va) (some (pa1, mid))) x = pteAt pt x := by
  by_cases h2 : PX 2 x = PX 2 va
  · cases he : pt (PX 2 va) with
    | none => simp [pteAt, slot, h2, he, hnone he]
    | some table =>
        rw [hsome table he] at he
        simp [pteAt, slot, h2, he]
  · simp [pteAt, slot, h2]

omit hI in
theorem pteAt_update_leaf {pt : PageTable} {va pa1 pa0 : Nat} {mid : Mid} {leaf : Leaf}
    (hsome : ∀ table, mid (PX 1 va) = some table → table = (pa0, leaf))
    (hnone : mid (PX 1 va) = none → leaf = fun _ => Pte.zero) (x : Nat) :
    pteAt (Function.update pt (PX 2 va)
      (some (pa1, Function.update mid (PX 1 va) (some (pa0, leaf))))) x
      = pteAt (Function.update pt (PX 2 va) (some (pa1, mid))) x := by
  by_cases h2 : PX 2 x = PX 2 va
  · by_cases h1 : PX 1 x = PX 1 va
    · cases he : mid (PX 1 va) with
      | none => simp [pteAt, slot, h2, h1, he, hnone he]
      | some table =>
          rw [hsome table he] at he
          simp [pteAt, slot, h2, h1, he]
    · simp [pteAt, slot, h2, h1]
  · simp [pteAt, slot, h2]

/-- `walk` keeps every entry, and finds the one for `va`, if the tables on the way exist. -/
theorem walk_keeps (pt : PageTable) {va : Nat} (hva : va < MAXVA) (alloc : Bool) :
    Triple may I (walk pt va alloc) (fun r m => I m ∧
      (∀ x, pteAt r.1 x = pteAt pt x) ∧ (∀ e, r.2 = some e → slot r.1 va = some e) ∧
      (r.2 = none → slot pt va = none) ∧ (alloc = false → r.1 = pt)) := by
  unfold walk
  refine Triple.ite (fun h => absurd hva (by omega)) fun _ => ?_
  refine Triple.bind (triple_descend hI _ _ alloc) fun r2 => Triple.assume fun ⟨hsome2, hnone2⟩ => ?_
  cases r2 with
  | none =>
      refine Triple.pure _ fun m hm => ⟨hm, fun _ => rfl, by simp, fun _ => ?_, fun _ => rfl⟩
      have hnone : pt (PX 2 va) = none := by
        cases he : pt (PX 2 va) with
        | none => rfl
        | some table => simpa using hsome2 table he
      simp [slot, hnone]
  | some t2 =>
      obtain ⟨pa1, mid⟩ := t2
      have hmid : ∀ table, pt (PX 2 va) = some table → table = (pa1, mid) :=
        fun table ht => (Option.some.inj (hsome2 table ht)).symm
      have hempty : pt (PX 2 va) = none → mid = fun _ => none := fun hn => (hnone2 hn _ rfl).2
      refine Triple.bind (triple_descend hI _ _ alloc) fun r1 => Triple.assume fun ⟨hsome1, hnone1⟩ => ?_
      cases r1 with
      | none =>
          have hn1 : mid (PX 1 va) = none := by
            cases he : mid (PX 1 va) with
            | none => rfl
            | some table => simpa using hsome1 table he
          refine Triple.pure _ fun m hm =>
            ⟨hm, pteAt_update_mid hmid hempty, by simp, fun _ => ?_, fun halloc => ?_⟩
          · cases he : pt (PX 2 va) with
            | none => simp [slot, he]
            | some table =>
                rw [hmid table he] at he
                simp [slot, he, hn1]
          · cases he : pt (PX 2 va) with
            | none =>
                have := (hnone2 he _ rfl).1
                simp [halloc] at this
            | some table =>
                rw [hmid table he] at he
                rw [← he, Function.update_eq_self]
      | some t1 =>
          obtain ⟨pa0, leaf⟩ := t1
          have hleaf : ∀ table, mid (PX 1 va) = some table → table = (pa0, leaf) :=
            fun table ht => (Option.some.inj (hsome1 table ht)).symm
          have hzero : mid (PX 1 va) = none → leaf = fun _ => Pte.zero :=
            fun hn => (hnone1 hn _ rfl).2
          refine Triple.pure _ fun m hm => ⟨hm, fun x => ?_, fun e he => ?_, by simp, fun halloc => ?_⟩
          · rw [pteAt_update_leaf hleaf hzero, pteAt_update_mid hmid hempty]
          · rw [← he]
            simp [slot]
          · cases he1 : mid (PX 1 va) with
            | none =>
                have := (hnone1 he1 _ rfl).1
                simp [halloc] at this
            | some table1 =>
                rw [hleaf table1 he1] at he1
                cases he2 : pt (PX 2 va) with
                | none =>
                    have := (hnone2 he2 _ rfl).1
                    simp [halloc] at this
                | some table2 =>
                    rw [hmid table2 he2] at he2
                    simp only
                    rw [← he1, Function.update_eq_self, ← he2, Function.update_eq_self]

end Keeps

theorem triple_walk (n : Nat) (pt : PageTable) {va : Nat} (hva : va < MAXVA) (alloc : Bool) :
    Triple may (Clean n) (walk pt va alloc) (fun r m => Clean n m ∧
      (∀ x, pteAt r.1 x = pteAt pt x) ∧ (∀ e, r.2 = some e → slot r.1 va = some e) ∧
      (r.2 = none → slot pt va = none) ∧ (alloc = false → r.1 = pt)) :=
  walk_keeps (kalloc_clean n) pt hva alloc

/-! ## Mapping and unmapping one page -/

/-- What the page table maps is readable; in particular it is not taken for a table. -/
def Leafy (pt : PageTable) : Prop :=
  ∀ x, x < 2 ^ 39 → (pteAt pt x).V = true → (pteAt pt x).perm.R = true

theorem maxva_lt {va : Nat} (h : va < MAXVA) : va < 2 ^ 39 := by
  unfold MAXVA at h
  omega

/-- Mapping a page: on success the entry was invalid, and now maps the page. -/
theorem mappages_keeps {I : Mem → Prop} (hI : Triple may I kalloc fun _ => I) (pt : PageTable)
    {va pa : Nat} {perm : Perm} (hva : va < MAXVA) (halign : va % PGSIZE = 0)
    (hmay : (pteAt pt va).V = true → ∀ e, may e) :
    Triple may I (mappages pt va PGSIZE pa perm) (fun r m => I m ∧
      (r.2 = 0 ∨ r.2 = -1) ∧
      (r.2 = 0 → (pteAt pt va).V = false ∧ pteAt r.1 va = ⟨true, perm, pa⟩ ∧
        ∀ x, x < 2 ^ 39 → x / PGSIZE ≠ va / PGSIZE → pteAt r.1 x = pteAt pt x) ∧
      (r.2 ≠ 0 → ∀ x, pteAt r.1 x = pteAt pt x)) := by
  unfold mappages
  refine Triple.ite (fun h => absurd halign h) fun _ => Triple.ite (fun h => by simp at h) fun _ =>
    Triple.ite (fun h => by simp [PGSIZE] at h) fun _ => ?_
  rw [Nat.div_self (by decide)]
  unfold mappagesLoop
  refine Triple.bind (walk_keeps hI pt hva true) fun r =>
    Triple.assume fun ⟨hpte, hslot, _, _⟩ => ?_
  cases hr : r.2 with
  | none => exact Triple.pure _ fun m hm => ⟨hm, Or.inr rfl, by simp, fun _ => hpte⟩
  | some pte =>
      have hva' : pteAt pt va = pte := by
        rw [← hpte va]
        simp [pteAt, hslot pte hr]
      refine Triple.ite (fun hv => Triple.throw _ fun _ _ => hmay (by rw [hva']; exact hv) _) fun hv => ?_
      refine Triple.pure _ fun m hm => ⟨hm, Or.inl rfl, fun _ => ⟨?_, ?_, fun x hx hne => ?_⟩, by simp⟩
      · rw [hva']
        simpa using hv
      · exact pteAt_setPte_self (hslot pte hr)
      · rw [pteAt_setPte_of_ne (maxva_lt hva) hx hne, hpte]

theorem triple_mappages (n : Nat) (pt : PageTable) {va pa : Nat} {perm : Perm} (hva : va < MAXVA)
    (halign : va % PGSIZE = 0) (hmay : (pteAt pt va).V = true → ∀ e, may e) :
    Triple may (Clean n) (mappages pt va PGSIZE pa perm) (fun r m => Clean n m ∧
      (r.2 = 0 ∨ r.2 = -1) ∧
      (r.2 = 0 → (pteAt pt va).V = false ∧ pteAt r.1 va = ⟨true, perm, pa⟩ ∧
        ∀ x, x < 2 ^ 39 → x / PGSIZE ≠ va / PGSIZE → pteAt r.1 x = pteAt pt x) ∧
      (r.2 ≠ 0 → ∀ x, pteAt r.1 x = pteAt pt x)) :=
  mappages_keeps (kalloc_clean n) pt hva halign hmay

/-! ## The pages that mapping takes -/

/-- The tables that `walk` has to create on the way to `va`. -/
def missing (pt : PageTable) (va : Nat) : Nat :=
  match pt (PX 2 va) with
  | none => 2
  | some (_, mid) => match mid (PX 1 va) with
    | none => 1
    | some _ => 0

/-- What is missing on the way to `x` once the tables on the way to `va` are there. -/
def opened (tables : Nat → Nat) (va x : Nat) : Nat :=
  if PX 2 x = PX 2 va then if PX 1 x = PX 1 va then 0 else min (tables x) 1 else tables x

/-- The pages it takes to map `n` pages from `a` on, with the tables that are missing. -/
def pagesNeeded (tables : Nat → Nat) : Nat → Nat → Nat
  | 0, _ => 0
  | n + 1, a => 1 + tables a + pagesNeeded (opened tables a) n (a + PGSIZE)

theorem missing_setPte (pt : PageTable) (va : Nat) (e : Pte) (x : Nat) :
    missing (setPte pt va e) x = missing pt x := by
  unfold setPte
  cases h2 : pt (PX 2 va) with
  | none => rfl
  | some r2 =>
      obtain ⟨pa1, mid⟩ := r2
      cases h1 : mid (PX 1 va) with
      | none => simp [h1]
      | some r1 =>
          obtain ⟨pa0, leaf⟩ := r1
          simp only [h1]
          unfold missing
          by_cases e2 : PX 2 x = PX 2 va
          · simp only [e2, Function.update_self, h2]
            by_cases e1 : PX 1 x = PX 1 va
            · simp [e1, h1]
            · simp [e1]
          · simp [e2]

/-- What `descend` takes from the free pages. -/
theorem triple_descend_count {α : Type} (n : Nat) (entry : Option (Nat × α)) (empty : α) :
    Triple may (Clean n) (descend entry empty true) (fun r m => r ≠ none →
      (if entry = none then 1 else 0) ≤ n ∧ Clean (n - if entry = none then 1 else 0) m) := by
  unfold descend
  cases entry with
  | some table => exact Triple.pure _ fun m hm _ => by simpa using hm
  | none =>
      refine Triple.ite (fun _ => ?_) fun h => absurd rfl h
      refine Triple.bind (triple_kalloc n) fun pa => Triple.pure _ fun m hm hne => ?_
      have hpa : pa ≠ none := by
        rintro rfl
        exact hne rfl
      obtain ⟨hpos, hclean⟩ := hm.2 hpa
      simpa using ⟨Nat.succ_le_of_lt hpos, hclean⟩

/-- `walk` takes a page for each table it creates. -/
theorem triple_walk_count (n : Nat) (pt : PageTable) {va : Nat} (hva : va < MAXVA) :
    Triple may (Clean n) (walk pt va true) (fun r m => r.2 ≠ none →
      missing pt va ≤ n ∧ Clean (n - missing pt va) m ∧
      ∀ x, missing r.1 x = opened (missing pt) va x) := by
  unfold walk
  refine Triple.ite (fun h => absurd hva (by omega)) fun _ => ?_
  refine Triple.bind (Triple.and (triple_descend (kalloc_clean n) _ _ true) (triple_descend_count n _ _)) fun r2 => ?_
  cases r2 with
  | none => exact Triple.pure _ fun m _ h => absurd rfl h
  | some t2 =>
      obtain ⟨pa1, mid⟩ := t2
      refine Triple.conseq (P := fun m => Clean (n - if pt (PX 2 va) = none then 1 else 0) m ∧
        (if pt (PX 2 va) = none then 1 else 0) ≤ n ∧
        (∀ table, pt (PX 2 va) = some table → table = (pa1, mid)) ∧
        (pt (PX 2 va) = none → mid = fun _ => none)) (Triple.assume fun ⟨hle2, hmid, hempty⟩ => ?_)
        (fun m hm => ⟨(hm.2 (by simp)).2, (hm.2 (by simp)).1,
          fun table ht => (Option.some.inj (hm.1.2.1 table ht)).symm,
          fun hn => (hm.1.2.2 hn _ rfl).2⟩) fun r m hm => hm
      refine Triple.bind (triple_descend_count _ _ _) fun r1 => ?_
      cases r1 with
      | none => exact Triple.pure _ fun m _ h => absurd rfl h
      | some t1 =>
          obtain ⟨pa0, leaf⟩ := t1
          refine Triple.pure _ fun m hm _ => ?_
          obtain ⟨hle1, hclean⟩ := hm (by simp)
          have hmissing : missing pt va = (if pt (PX 2 va) = none then 1 else 0) +
              (if mid (PX 1 va) = none then 1 else 0) := by
            unfold missing
            cases h2 : pt (PX 2 va) with
            | none => simp [hempty h2]
            | some table =>
                rw [hmid table h2]
                cases h1 : mid (PX 1 va) <;> simp [h1]
          refine ⟨by omega, by rwa [hmissing, ← Nat.sub_sub], fun x => ?_⟩
          unfold opened
          by_cases h2 : PX 2 x = PX 2 va
          · by_cases h1 : PX 1 x = PX 1 va
            · simp [missing, h2, h1]
            · rw [if_pos h2, if_neg h1]
              cases he : pt (PX 2 va) with
              | none => simp [missing, h2, h1, he, hempty he]
              | some table =>
                  rw [hmid table he] at he
                  cases h1' : mid (PX 1 x) <;> simp [missing, h2, h1, he, h1']
          · simp [missing, h2]

theorem triple_mappages_count (n : Nat) (pt : PageTable) {va pa : Nat} {perm : Perm}
    (hva : va < MAXVA) (halign : va % PGSIZE = 0) (hmay : (pteAt pt va).V = true → ∀ e, may e) :
    Triple may (Clean n) (mappages pt va PGSIZE pa perm) (fun r m => r.2 = 0 →
      missing pt va ≤ n ∧ Clean (n - missing pt va) m ∧
      ∀ x, missing r.1 x = opened (missing pt) va x) := by
  unfold mappages
  refine Triple.ite (fun h => absurd halign h) fun _ => Triple.ite (fun h => by simp at h) fun _ =>
    Triple.ite (fun h => by simp [PGSIZE] at h) fun _ => ?_
  rw [Nat.div_self (by decide)]
  unfold mappagesLoop
  refine Triple.bind (Triple.and (triple_walk n pt hva true) (triple_walk_count n pt hva)) fun r => ?_
  cases hr : r.2 with
  | none => exact Triple.pure _ fun m _ h => by simp at h
  | some pte =>
      refine Triple.ite (fun hv => Triple.throw _ fun m hm => hmay ?_ _) fun _ =>
        Triple.pure _ fun m hm _ => ?_
      · obtain ⟨⟨_, hpte, hslot, _⟩, _⟩ := hm
        rw [← hpte va]
        simpa [pteAt, hslot pte rfl] using hv
      · obtain ⟨hle, hclean, hopen⟩ := hm.2 (by simp)
        exact ⟨hle, hclean, fun x => by rw [missing_setPte, hopen]⟩

theorem triple_kfree (pa : Nat) : Triple may Sound (kfree pa) (fun _ m => Sound m) :=
  Triple.modify _ fun _ hm => hm

theorem triple_unmapPage (pt : PageTable) {a : Nat} (ha : a < MAXVA) (hleafy : Leafy pt)
    (do_free : Bool) (hfree : do_free = true → a < TRAPFRAME) :
    Triple may Sound (unmapPage pt a do_free) (fun r m => Sound m ∧ (pteAt r a).V = false ∧
      ∀ x, x < 2 ^ 39 → x / PGSIZE ≠ a / PGSIZE → pteAt r x = pteAt pt x) := by
  unfold unmapPage
  refine Triple.bind (R := fun _ => Sound) ?_ fun _ => ?_
  · refine Triple.ite (fun hd => Triple.modify _ fun m hm => ?_) fun _ => Triple.pure _ fun _ hm => hm
    intro va hva
    rcases List.mem_cons.1 hva with rfl | hva
    · exact hfree hd
    · exact hm va hva
  · refine Triple.bind (triple_sound fun n => triple_walk n pt ha false) fun r =>
      Triple.assume fun ⟨hpte, hslot, hnone, hpt⟩ => ?_
    have hr1 : r.1 = pt := hpt rfl
    cases hr : r.2 with
    | none => exact Triple.pure _ fun m hm => ⟨hm, by simp [pteAt, hnone hr, Pte.zero], fun _ _ _ => rfl⟩
    | some pte =>
        have hs : slot pt a = some pte := by
          rw [← hr1]
          exact hslot pte hr
        have hpa : pteAt pt a = pte := by simp [pteAt, hs]
        refine Triple.ite (fun hv => Triple.pure _ fun m hm => ⟨hm, ?_, fun _ _ _ => rfl⟩) fun hv => ?_
        · rw [hpa]
          exact hv
        · refine Triple.ite (fun hp => Triple.of_false fun _ _ => ?_) fun _ => ?_
          · have hR := hleafy a (maxva_lt ha) (by rw [hpa]; simpa using hv)
            rw [hpa, hp] at hR
            cases hR
          · refine Triple.bind (R := fun _ => Sound) ?_ fun _ => Triple.pure _ fun m hm => ⟨hm, ?_, ?_⟩
            · exact Triple.ite (fun _ => triple_kfree _) fun _ => Triple.pure _ fun _ hm => hm
            · rw [pteAt_setPte_self hs]
              rfl
            · intro x hx hne
              exact pteAt_setPte_of_ne (maxva_lt ha) hx hne

/-- The pages from `lo` up to `hi` have been unmapped, and nothing else has changed. -/
structure Unmapped (pt pt' : PageTable) (lo hi : Nat) : Prop where
  inside : ∀ x, lo ≤ x → x < hi → (pteAt pt' x).V = false
  outside : ∀ x, x < 2 ^ 39 → x < lo ∨ hi ≤ x → pteAt pt' x = pteAt pt x

/-- What is still mapped was mapped before. -/
theorem Unmapped.of_valid {pt pt' : PageTable} {lo hi : Nat} (h : Unmapped pt pt' lo hi) {x : Nat}
    (hx : x < 2 ^ 39) (hv : (pteAt pt' x).V = true) :
    (x < lo ∨ hi ≤ x) ∧ pteAt pt' x = pteAt pt x := by
  have hout : x < lo ∨ hi ≤ x := by
    by_contra hin
    have := h.inside x (by omega) (by omega)
    rw [hv] at this
    cases this
  exact ⟨hout, h.outside x hx hout⟩

theorem Unmapped.leafy {pt pt' : PageTable} {lo hi : Nat} (h : Unmapped pt pt' lo hi)
    (hleafy : Leafy pt) : Leafy pt' := by
  intro x hx hv
  have he := (h.of_valid hx hv).2
  rw [he] at hv ⊢
  exact hleafy x hx hv

theorem div_ne_of_aligned {a x : Nat} (ha : a % PGSIZE = 0) (h : x < a ∨ a + PGSIZE ≤ x) :
    x / PGSIZE ≠ a / PGSIZE := by
  unfold PGSIZE at *
  omega

theorem div_eq_of_aligned {a x : Nat} (ha : a % PGSIZE = 0) (hlo : a ≤ x) (hhi : x < a + PGSIZE) :
    x / PGSIZE = a / PGSIZE := by
  unfold PGSIZE at *
  omega

theorem pteAt_congr {pt : PageTable} {va x : Nat} (h : va / PGSIZE = x / PGSIZE) :
    pteAt pt va = pteAt pt x := by
  simp [pteAt, slot_congr h]

theorem triple_uvmunmapLoop (do_free : Bool) (n : Nat) (pt : PageTable) {a : Nat}
    (halign : a % PGSIZE = 0) (hmax : a + n * PGSIZE ≤ MAXVA) (hleafy : Leafy pt)
    (hfree : do_free = true → a + n * PGSIZE ≤ TRAPFRAME) :
    Triple may Sound (uvmunmapLoop do_free n pt a)
      (fun r m => Sound m ∧ Unmapped pt r a (a + n * PGSIZE)) := by
  induction n generalizing pt a with
  | zero =>
      refine Triple.pure _ fun m hm => ⟨hm, fun x hlo hhi => ?_, fun _ _ _ => rfl⟩
      omega
  | succ n ih =>
      have hpos : 0 < PGSIZE := by decide
      rw [Nat.succ_mul] at hmax hfree ⊢
      have ha : a < MAXVA := by omega
      refine Triple.bind (triple_unmapPage pt ha hleafy do_free fun hd => ?_) fun r =>
        Triple.assume fun ⟨hv, hothers⟩ => ?_
      · have := hfree hd
        omega
      · have hpage : ∀ x, a ≤ x → x < a + PGSIZE → (pteAt r x).V = false := by
          intro x hlo hhi
          rw [pteAt_congr (div_eq_of_aligned halign hlo hhi)]
          exact hv
        have hrest : ∀ x, x < 2 ^ 39 → x < a ∨ a + PGSIZE ≤ x → pteAt r x = pteAt pt x :=
          fun x hx hout => hothers x hx (div_ne_of_aligned halign hout)
        have hleafy' : Leafy r := Unmapped.leafy ⟨hpage, hrest⟩ hleafy
        refine Triple.conseq (ih r ?_ (by omega) hleafy' fun hd => ?_) (fun _ hm => hm)
          fun r' m hm => ⟨hm.1, fun x hlo hhi => ?_, fun x hx hout => ?_⟩
        · unfold PGSIZE at *
          omega
        · have := hfree hd
          omega
        · by_cases hlt : x < a + PGSIZE
          · have hx : x < 2 ^ 39 := by
              unfold MAXVA at hmax
              omega
            rw [hm.2.outside x hx (Or.inl hlt)]
            exact hpage x hlo hlt
          · exact hm.2.inside x (by omega) (by omega)
        · rw [hm.2.outside x hx (by omega)]
          exact hrest x hx (by omega)

theorem triple_uvmunmap (do_free : Bool) (npages : Nat) (pt : PageTable) {va : Nat}
    (halign : va % PGSIZE = 0) (hmax : va + npages * PGSIZE ≤ MAXVA) (hleafy : Leafy pt)
    (hfree : do_free = true → va + npages * PGSIZE ≤ TRAPFRAME) :
    Triple may Sound (uvmunmap pt va npages do_free)
      (fun r m => Sound m ∧ Unmapped pt r va (va + npages * PGSIZE)) := by
  unfold uvmunmap
  exact Triple.ite (fun h => absurd halign h) fun _ =>
    triple_uvmunmapLoop do_free npages pt halign hmax hleafy hfree

end Xv6.Vm
