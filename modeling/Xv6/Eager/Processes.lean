import Xv6.Eager.Space

set_option autoImplicit false

/-! # The memory of a process

A process has its trapframe, the root page and what its page table owns. `fork` and `exec` leave either
another such process or nothing, wherever memory runs out. -/

namespace Xv6.Eager

open Xv6.Lib Xv6.Vm

variable {pt : PageTable} {m m' : Mem} {T : Multiset Nat} {p : Proc} {root sz : Nat}

theorem tables_none : tables (fun _ => none) = 0 := by
  unfold tables
  exact Finset.sum_eq_zero fun _ _ => rfl

theorem owned_zero (pt : PageTable) : owned pt 0 = tables pt := by
  unfold owned leaves
  rw [Nat.zero_div, Finset.range_zero, Finset.sum_empty, add_zero]

theorem pgroundup_zero : PGROUNDUP 0 = 0 := by decide

/-! ## Freeing a page table -/

theorem uvmfree_free (root : Nat) (hsz : sz ≤ TRAPFRAME) (h : Maps pt {x | x < PGROUNDUP sz}) (T : Multiset Nat) :
    Safe (fun m => m.free + ({root} + owned pt (PGROUNDUP sz)) = T) (uvmfree root pt sz) fun _ m => m.free = T := by
  unfold uvmfree
  have hmod := pgroundup_mod sz
  refine Triple.bind (R := fun r m => Maps r ∅ ∧ m.free + ({root} + tables r) = T) ?_ fun r => ?_
  · refine Triple.ite (fun _ => ?_) fun hzero => Triple.pure _ fun m hm => ?_
    · refine Triple.each fun m hm => ?_
      have hn : 0 + PGROUNDUP sz / PGSIZE * PGSIZE = PGROUNDUP sz := by rw [Nat.zero_add, mul_div_aligned hmod]
      refine (uvmunmap_gone true _ h (Nat.zero_mod _) (by rw [hn]; exact le_maxva (pgroundup_le_top hsz))
        (fun x hx => ?_) m).conseq (fun _ h => h) fun r m' hgone => ⟨(h.unmapped hgone.unmapped).congr fun x _ => ?_, ?_⟩
      · rw [hn] at hx
        exact hx.2
      · rw [hn]
        simp
      · rw [hgone.free, hgone.tables, if_pos rfl, ← hm, owned]
        abel
    · have h0 : sz = 0 := by omega
      rw [h0, pgroundup_zero] at h hm
      rw [owned_zero] at hm
      exact ⟨h.congr fun x _ => by simp, hm⟩
  · refine Triple.each fun m hm => (freewalk_free root hm.1 T).conseq (fun m' hm' => ?_) fun _ _ h => h
    rw [hm']
    exact hm.2

/-- The page at the top has been unmapped, and stays where it is. -/
theorem Gone.top {a n lim : Nat} {pt' : PageTable} (hgone : Gone pt m a n false pt' m') (hlim : lim ≤ TRAPFRAME)
    (ha : TRAPFRAME ≤ a) : m'.free = m.free ∧ owned pt' lim = owned pt lim := by
  refine ⟨by rw [hgone.free]; simp, ?_⟩
  unfold owned
  rw [hgone.tables]
  congr 1
  refine Copy.leaves_congr fun k hk => ?_
  have hlt := Nat.mul_lt_mul_of_pos_right hk Copy.pgsize_pos
  have hle := Nat.div_mul_le_self lim PGSIZE
  exact hgone.unmapped.outside _ (maxva_lt (below_maxva (by omega))) (Or.inl (by omega))

theorem procFreepagetable_free (root : Nat) (hsz : sz ≤ TRAPFRAME) (h : Space pt (PGROUNDUP sz)) (T : Multiset Nat) :
    Safe (fun m => m.free + ({root} + owned pt (PGROUNDUP sz)) = T) (procFreepagetable root pt sz)
      fun _ m => m.free = T := by
  have htop := h.below
  have htramp : TRAMPOLINE = TRAPFRAME + PGSIZE := by decide
  have hmax : MAXVA = TRAMPOLINE + PGSIZE := by decide
  unfold procFreepagetable
  refine Triple.each fun m hm => Triple.bind (uvmunmap_gone false 1 h.maps (by decide) (by decide) (fun x hx => ?_) m)
    fun p1 => Triple.each fun m₁ hgone₁ => ?_
  · have hlo := hx.1
    have hhi := hx.2
    exact Or.inr ⟨by omega, by omega⟩
  have hmaps₁ := h.maps.unmapped hgone₁.unmapped
  refine Triple.bind (uvmunmap_gone false 1 hmaps₁ (by decide) (by decide) (fun x hx => ⟨?_, fun hin => ?_⟩) m₁)
    fun p2 => Triple.each fun m₂ hgone₂ => ?_
  · have hlo := hx.1
    have hhi := hx.2
    exact Or.inr ⟨hlo, by omega⟩
  · have hlo := hin.1
    have hhi := hx.2
    omega
  obtain ⟨hfree₁, howned₁⟩ := hgone₁.top htop (by omega)
  obtain ⟨hfree₂, howned₂⟩ := hgone₂.top htop (Nat.le_refl _)
  refine (uvmfree_free root hsz ((hmaps₁.unmapped hgone₂.unmapped).congr fun x _ => ?_) T).conseq (fun m' hm' => ?_)
    fun _ _ h => h
  · constructor
    · rintro ⟨⟨hx | hx, hout₁⟩, hout₂⟩
      · exact hx
      · exact absurd ⟨hx.1, Nat.lt_of_not_le fun hle => hout₁ ⟨by omega, by omega⟩⟩ hout₂
    · intro hx
      have hlt : x < PGROUNDUP sz := hx
      exact ⟨⟨Or.inl hlt, fun hin => by have := hin.1; omega⟩, fun hin => by have := hin.1; omega⟩
  · rw [hm', hfree₂, hfree₁, howned₂, howned₁]
    exact hm

/-! ## A new page table -/

/-- A new page table, or nothing has been taken. -/
def MadeTable (T : Multiset Nat) (o : Option (Nat × PageTable)) (m : Mem) : Prop :=
  (o = none → m.free = T) ∧
  ∀ root pt, o = some (root, pt) → Space pt 0 ∧ m.free + ({root} + owned pt 0) = T

theorem MadeTable.none (h : m.free = T) : MadeTable T none m := ⟨fun _ => h, by simp⟩

/-- The empty table of a process that could not be made. -/
theorem uvmfree_made (root : Nat) (h : Maps pt ∅) (T : Multiset Nat) : Safe (fun m => m.free + {root} + tables pt = T) (do
    uvmfree root pt 0
    pure (none : Option (Nat × PageTable))) (MadeTable T) := by
  refine Triple.bind ((uvmfree_free root (Nat.zero_le _) (h.congr fun x _ => ?_) T).conseq (fun m hm => ?_) fun _ _ h => h)
    fun _ => Triple.pure _ fun m hm => MadeTable.none hm
  · rw [pgroundup_zero]
    simp
  · rw [pgroundup_zero, owned_zero, ← hm, add_assoc]

theorem procPagetable_made (trapframe trampoline : Nat) (T : Multiset Nat) :
    Safe (fun m => m.free = T) (procPagetable trapframe trampoline) (MadeTable T) := by
  unfold procPagetable
  refine Triple.each fun m₀ hm₀ => Triple.bind (kalloc_free m₀) fun o => ?_
  cases o with
  | none => exact Triple.pure _ fun m hm => MadeTable.none (by rw [hm.1 rfl]; exact hm₀)
  | some root =>
      refine Triple.each fun m₁ hm₁ => ?_
      have hroot : m₁.free + {root} = T := (hm₁.2 root rfl).trans hm₀
      refine Triple.bind (mappages_mapped trampoline _ (by decide) (by decide) maps_empty (Set.notMem_empty _) m₁)
        fun r => Triple.ite (fun hfail => ?_) fun hok => ?_
      · refine Triple.each fun m₂ hr => ?_
        have hne : r.2 ≠ 0 := by omega
        refine (uvmfree_made root (maps_empty.of_same (hr.failed hne)) T).conseq (fun m hm => ?_) fun _ _ h => h
        have hframes := hr.frames
        rw [tables_none, add_zero] at hframes
        rw [hm, ← hroot, ← hframes]
        abel
      · refine Triple.each fun m₂ hr => ?_
        have h0 : r.2 = 0 := by rcases hr.result with h | h <;> omega
        have hmaps := hr.maps maps_empty (by decide) h0 rfl
        have hframes := hr.frames
        rw [tables_none, add_zero] at hframes
        have htramp : TRAMPOLINE = TRAPFRAME + PGSIZE := by decide
        have hout : TRAPFRAME ∉ ∅ ∪ Set.Ico TRAMPOLINE (TRAMPOLINE + PGSIZE) := by
          rintro (hx | hx)
          · exact hx
          · exact absurd hx.1 (by decide)
        refine Triple.bind (mappages_mapped trapframe _ (by decide) (by decide) hmaps hout m₂) fun r' =>
          Triple.ite (fun hfail => ?_) fun hok => Triple.pure _ fun m₃ hr' => ⟨by simp, ?_⟩
        · refine Triple.each fun m₃ hr' => ?_
          have hmaps' := hmaps.of_same (hr'.failed (by omega))
          refine Triple.bind (uvmunmap_gone false 1 hmaps' (by decide) (by decide) (fun x hx => ?_) m₃) fun p3 =>
            Triple.each fun m₄ hgone => ?_
          · rw [Nat.one_mul] at hx
            exact Or.inr hx
          refine (uvmfree_made root ((hmaps'.unmapped hgone.unmapped).congr fun x _ => ?_) T).conseq (fun m hm => ?_)
            fun _ _ h => h
          · simp
          · have hframes' := hr'.frames
            have hfree := hgone.free
            rw [if_neg (by simp), add_zero] at hfree
            rw [hm, hgone.tables, hfree, ← hroot, ← hframes, add_right_comm, hframes', add_right_comm]
        · rintro root' pt he
          obtain ⟨rfl, rfl⟩ := Prod.mk.inj (Option.some.inj he)
          have h0' : r'.2 = 0 := by rcases hr'.result with h | h <;> omega
          refine ⟨⟨(hr'.maps hmaps (by decide) h0' rfl).congr fun x _ => ?_, by decide, Nat.zero_le _⟩, ?_⟩
          · have hmax : MAXVA = TRAMPOLINE + PGSIZE := by decide
            constructor
            · rintro ((hx | hx) | hx)
              · exact absurd hx (Set.notMem_empty _)
              · have hlo := hx.1
                have hhi := hx.2
                exact Or.inr ⟨by omega, by omega⟩
              · have hlo := hx.1
                have hhi := hx.2
                exact Or.inr ⟨hlo, by omega⟩
            · rintro (hx | ⟨hlo, hhi⟩)
              · exact absurd hx (Nat.not_lt_zero x)
              · by_cases hx : x < TRAMPOLINE
                · exact Or.inr ⟨hlo, by omega⟩
                · exact Or.inl (Or.inr ⟨by omega, by omega⟩)
          · have hframes' := hr'.frames
            rw [owned_zero, add_left_comm, hframes', hframes, add_comm, hroot]

/-! ## Processes -/

/-- The page table maps the pages below the size. -/
structure Good (p : Proc) : Prop where
  size : p.sz ≤ TRAPFRAME
  space : Space p.pagetable (PGROUNDUP p.sz)

/-- The pages of a process. -/
def held (p : Proc) : Multiset Nat := {p.trapframe} + ({p.root} + owned p.pagetable (PGROUNDUP p.sz))

/-- A new process, or nothing has been taken. -/
def MadeProc (T : Multiset Nat) (o : Option Proc) (m : Mem) : Prop :=
  (o = none → m.free = T) ∧ ∀ p, o = some p → Good p ∧ m.free + held p = T

theorem MadeProc.none (h : m.free = T) : MadeProc T none m := ⟨fun _ => h, by simp⟩

theorem safe_freeproc (h : Good p) (T : Multiset Nat) :
    Safe (fun m => m.free + held p = T) (freeproc p) fun _ m => m.free = T := by
  unfold freeproc
  refine Triple.each fun m hm => ?_
  have hpages := hm
  rw [held, ← add_assoc] at hpages
  refine Triple.bind ((safe_kfree p.trapframe _).conseq (fun m' hm' => by rw [hm']) fun _ _ h => h) fun _ =>
    (procFreepagetable_free p.root h.size h.space T).conseq (fun m' hm' => ?_) fun _ _ h => h
  rw [hm', hpages]

theorem allocproc_made (trampoline : Nat) (T : Multiset Nat) :
    Safe (fun m => m.free = T) (allocproc trampoline) fun o m => MadeProc T o m ∧ ∀ p, o = some p → p.sz = 0 := by
  unfold allocproc
  refine Triple.each fun m₀ hm₀ => Triple.bind (kalloc_free m₀) fun o => ?_
  cases o with
  | none => exact Triple.pure _ fun m hm => ⟨MadeProc.none (by rw [hm.1 rfl]; exact hm₀), by simp⟩
  | some trapframe =>
      refine Triple.each fun m₁ hm₁ => ?_
      have htrap : m₁.free + {trapframe} = T := (hm₁.2 trapframe rfl).trans hm₀
      refine Triple.bind ((procPagetable_made trapframe trampoline m₁.free).conseq (fun m hm => by rw [hm])
        fun _ _ h => h) fun o => ?_
      cases o with
      | none =>
          refine Triple.each fun m₂ hm₂ => Triple.bind ((safe_kfree trapframe T).conseq (fun m hm => ?_) fun _ _ h => h)
            fun _ => Triple.pure _ fun m hm => ⟨MadeProc.none hm, by simp⟩
          rw [hm, hm₂.1 rfl, htrap]
      | some r =>
          refine Triple.pure _ fun m hm => ⟨⟨by simp, fun p he => ?_⟩, fun p he => ?_⟩
          · obtain rfl := Option.some.inj he
            obtain ⟨hspace, hpages⟩ := hm.2 r.1 r.2 rfl
            refine ⟨⟨Nat.zero_le _, by rw [pgroundup_zero]; exact hspace⟩, ?_⟩
            simp only [held, pgroundup_zero]
            rw [← htrap, ← hpages]
            abel
          · obtain rfl := Option.some.inj he
            rfl

/-- A process with another page table and size has the same pages otherwise. -/
theorem held_of_pages (p : Proc) {pt' : PageTable} {sz' : Nat} {m₀ : Mem} (hm₀ : m₀.free + held p = T)
    (hm : m.free + owned pt' (PGROUNDUP sz') = m₀.free + owned p.pagetable (PGROUNDUP p.sz)) :
    m.free + held { p with pagetable := pt', sz := sz' } = T := by
  rw [← hm₀]
  unfold held
  calc m.free + ({p.trapframe} + ({p.root} + owned pt' (PGROUNDUP sz')))
      = {p.trapframe} + {p.root} + (m.free + owned pt' (PGROUNDUP sz')) := by abel
    _ = {p.trapframe} + {p.root} + (m₀.free + owned p.pagetable (PGROUNDUP p.sz)) := by rw [hm]
    _ = m₀.free + ({p.trapframe} + ({p.root} + owned p.pagetable (PGROUNDUP p.sz))) := by abel

theorem fork_made (h : Good p) (trampoline : Nat) (T : Multiset Nat) :
    Safe (fun m => m.free = T) (fork p trampoline) (MadeProc T) := by
  unfold fork
  refine Triple.bind (allocproc_made trampoline T) fun o => ?_
  cases o with
  | none => exact Triple.pure _ fun m hm => MadeProc.none (hm.1.1 rfl)
  | some np =>
      refine Triple.each fun m₀ hm₀ => ?_
      obtain ⟨⟨-, hmade⟩, hsz⟩ := hm₀
      obtain ⟨hgood, hpages⟩ := hmade np rfl
      have hsz := hsz np rfl
      have hn : 0 + (p.sz + PGSIZE - 1) / PGSIZE * PGSIZE = PGROUNDUP p.sz :=
        pages_eq (Nat.zero_mod _) (le_maxva h.size) (Nat.zero_le _)
      have hspace := hgood.space
      rw [hsz, pgroundup_zero] at hspace
      unfold uvmcopy
      refine Triple.bind ((uvmcopyLoop_space _ h.space hspace (by rw [hn])).conseq (fun m hm => by rw [hm]) fun _ _ h => h)
        fun r => Triple.ite (fun hneg => ?_) fun hpos => Triple.pure _ fun m hm => ⟨by simp, fun c he => ?_⟩
      · refine Triple.each fun m hm => ?_
        obtain ⟨hspace', hpages'⟩ := hm.2 hneg
        have hgood' : Good { np with pagetable := r.1 } :=
          ⟨hgood.size, by rw [hsz, pgroundup_zero]; exact hspace'⟩
        have hheld : m.free + held { np with pagetable := r.1 } = T :=
          held_of_pages np hpages (by rw [hsz, pgroundup_zero]; exact hpages')
        exact Triple.bind ((safe_freeproc hgood' T).conseq (fun m' hm' => by rw [hm']; exact hheld) fun _ _ h => h)
          fun _ => Triple.pure _ fun m' hm' => MadeProc.none hm'
      · obtain rfl := Option.some.inj he
        have hpos : 0 ≤ r.2 := by omega
        obtain ⟨hspace', hpages'⟩ := hm.1 hpos
        rw [hn] at hspace' hpages'
        exact ⟨⟨h.size, hspace'⟩, held_of_pages np hpages (by rw [hpages', hsz, pgroundup_zero])⟩

/-! ## `growproc` -/

/-- What is mapped at an address. -/
def mapping (pt : PageTable) (va : Nat) : Option (Nat × Perm) :=
  if (pteAt pt va).V then some ((pteAt pt va).pa, (pteAt pt va).perm) else none

theorem Resized.mapping {lim va : Nat} {pt' : PageTable} (hres : Resized T pt lim pt' lim m) (h : Space pt lim)
    (hva : va < MAXVA) : mapping pt' va = mapping pt va := by
  have hva' := maxva_lt hva
  unfold Eager.mapping
  by_cases hin : va < lim ∨ TRAPFRAME ≤ va
  · rw [hres.agree va hva' hin]
  · have hout : va ∉ Eager.space lim := fun hx => hin (hx.imp_right And.left)
    rw [if_neg fun hv => hout ((hres.space.maps.mapped va hva').1 hv),
      if_neg fun hv => hout ((h.maps.mapped va hva').1 hv)]

/-- What `growproc` may return. -/
structure Grew (p : Proc) (n : BitVec 32) (r : Proc × Int) : Prop where
  result : r.2 = 0 ∨ r.2 = -1
  done : r.2 = 0 → 0 ≤ p.sz + n.toInt → (r.1.sz : Int) = p.sz + n.toInt
  kept : r.2 = 0 → p.sz + n.toInt < 0 → r.1.sz = p.sz
  failed : r.2 = -1 → r.1.sz = p.sz ∧ ∀ va, va < MAXVA → mapping r.1.pagetable va = mapping p.pagetable va

theorem toInt_lt (n : BitVec 32) : n.toInt < 2 ^ 31 := BitVec.toInt_lt

theorem le_toInt (n : BitVec 32) : -2 ^ 31 ≤ n.toInt := BitVec.le_toInt n

theorem growproc_grew (h : Good p) (n : BitVec 32) (hfew : T.card < TRAPFRAME / PGSIZE) :
    Safe (fun m => m.free + held p = T) (growproc p n) fun r m => Good r.1 ∧ m.free + held r.1 = T ∧ Grew p n r := by
  have hsize := h.size
  have hmax : TRAPFRAME = 2 ^ 38 - 8192 := by decide
  have hhi := toInt_lt n
  have hlo := le_toInt n
  unfold growproc
  refine Triple.each fun m₀ hm₀ => ?_
  have hlocal : (m₀.free + owned p.pagetable (PGROUNDUP p.sz)).card < TRAPFRAME / PGSIZE := by
    refine Nat.lt_of_le_of_lt (Multiset.card_le_card ?_) hfew
    rw [← hm₀, held, ← add_assoc, ← add_assoc]
    exact add_le_add_left (Multiset.le_add_right _ _ |>.trans (Multiset.le_add_right _ _)) _
  refine Triple.ite (fun hpos => ?_) fun hnonpos => Triple.ite (fun hneg => ?_) fun hzero => Triple.pure _ fun m hm => ?_
  · refine Triple.bind ((uvmalloc_space h.space hsize hlocal).conseq (fun m hm => by rw [hm]) fun _ _ h => h) fun r =>
      Triple.ite (fun h0 => Triple.pure _ fun m hm => ?_) fun hne => Triple.pure _ fun m hm => ?_
    · have hres := hm.1 h0
      exact ⟨⟨hsize, hres.space⟩, held_of_pages p hm₀ hres.pages, Or.inr rfl, fun h => absurd h (by simp),
        fun h => absurd h (by simp), fun _ => ⟨rfl, fun va hva => hres.mapping h.space hva⟩⟩
    · obtain ⟨hr, hle, hres, -⟩ := hm.2 hne
      refine ⟨⟨hle, hres.space⟩, held_of_pages p hm₀ hres.pages, Or.inl rfl, fun _ _ => ?_, fun _ hlt => ?_,
        fun h => absurd h (by simp)⟩
      · have hadd : addSz p.sz n.toInt = p.sz + n.toInt.toNat := addSz_of_pos (le_maxva hsize) (by omega) hhi
        simp only
        rw [hr, hadd]
        omega
      · omega
  · refine Triple.bind ((uvmdealloc_space h.space hsize _ _).conseq (fun m hm => by rw [hm]) fun _ _ h => h) fun r =>
      Triple.pure _ fun m hm => ?_
    obtain ⟨hr, hres⟩ := hm
    have hadd : addSz p.sz n.toInt = ((p.sz + n.toInt) % 2 ^ 64).toNat := rfl
    have hle : r.2 ≤ TRAPFRAME := by
      rw [hr]
      split <;> omega
    refine ⟨⟨hle, hres.space⟩, held_of_pages p hm₀ hres.pages, Or.inl rfl, fun _ hnn => ?_, fun _ hwrap => ?_,
      fun h => absurd h (by simp)⟩
    · simp only
      rw [hr, hadd]
      split <;> omega
    · simp only
      rw [hr, hadd]
      split <;> omega
  · have h0 : n.toInt = 0 := by omega
    refine ⟨h, by rw [hm]; exact hm₀, Or.inl rfl, fun _ _ => by rw [h0, add_zero], fun _ _ => rfl, fun h => absurd h (by simp)⟩

theorem sysSbrk_good (h : Good p) (n : BitVec 32) (hfew : T.card < TRAPFRAME / PGSIZE) :
    Safe (fun m => m.free + held p = T) (sysSbrk p n) fun r m => Good r.1 ∧ m.free + held r.1 = T := by
  unfold sysSbrk
  refine Triple.bind (growproc_grew h n hfew) fun r => Triple.ite (fun _ => ?_) fun _ => ?_
  · exact Triple.pure _ fun m hm => ⟨hm.1, hm.2.1⟩
  · exact Triple.pure _ fun m hm => ⟨hm.1, hm.2.1⟩

end Xv6.Eager
