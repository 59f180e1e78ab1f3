import Xv6.Eager.Processes

set_option autoImplicit false

/-! # `exec`

The new page table grows from segment to segment, and each segment is loaded into pages that are
mapped. Wherever `exec` gives up, it frees the new page table with the size that the table has. -/

namespace Xv6.Eager

open Xv6.Lib Xv6.Vm

variable {pt : PageTable} {m m' : Mem} {T : Multiset Nat} {p : Proc} {lim root sz va : Nat}

/-! ## `loadseg` -/

theorem mem_leaves (hva : va < lim) (halign : va % PGSIZE = 0) (hlim : lim % PGSIZE = 0) (hv : (pteAt pt va).V = true) :
    (pteAt pt va).pa ∈ leaves pt 0 (lim / PGSIZE) := by
  unfold leaves
  rw [Multiset.mem_sum]
  refine ⟨va / PGSIZE, Finset.mem_range.2 ?_, ?_⟩
  · unfold PGSIZE at *
    omega
  · rw [Nat.zero_add, mul_div_aligned halign, leafAt, if_pos hv]
    exact Multiset.mem_singleton_self _

theorem walkaddr_user (h : Space pt lim) (hu : Users pt lim) (hva : va < lim) (m : Mem) :
    onVm (walkaddr pt va) m = .ok ((pteAt pt va).pa, m) := by
  have hmax : va < MAXVA := below_maxva (by have := h.below; omega)
  obtain ⟨pte, hs, hpte, hv, -⟩ := h.maps.slot hmax (Or.inl hva)
  have hU := hu va hva
  rw [hpte] at hU
  refine onVm_ok ?_
  unfold walkaddr
  rw [if_neg (by omega), bind_of_ok (Copy.walk_eq hmax pt m), hs, hpte]
  simp only
  rw [if_neg (by simp [hv, hU])]
  rfl

theorem safe_loadseg (n pages : Nat) (h : Space pt lim) (hu : Users pt lim)
    (hpa : ∀ pa ∈ leaves pt 0 (lim / PGSIZE), pa ≠ 0) (halign : va % PGSIZE = 0) (hle : va + n * PGSIZE ≤ lim) (m₀ : Mem) :
    Safe (fun m => m = m₀) (loadseg pt n va pages) fun _ m => m = m₀ := by
  induction n generalizing va pages with
  | zero => exact Triple.pure _ fun _ hm => hm
  | succ n ih =>
      have hsum := Copy.next_page va n
      have hP := Copy.pgsize_pos
      have hlt : va < lim := by omega
      have hv := (h.maps.mapped va (maxva_lt (below_maxva (by have := h.below; omega)))).2 (Or.inl hlt)
      refine Triple.bind (R := fun r m => r = (pteAt pt va).pa ∧ m = m₀)
        (safe_eq fun m hm => ⟨_, _, walkaddr_user h hu hlt m, rfl, hm⟩) fun r => ?_
      refine Triple.ite (fun h0 => ?_) fun _ => ?_
      · exact Triple.of_false fun m hm => hpa _ (mem_leaves hlt halign h.aligned hv) (hm.1.symm.trans h0)
      · cases pages with
        | zero => exact Triple.pure _ fun _ hm => hm.2
        | succ pages =>
            exact (ih pages (by rw [Nat.add_mod_right, halign]) (by omega)).conseq (fun _ hm => hm.2) fun _ _ hm => hm

/-! ## The segments -/

/-- The pages of a segment lie below the end of it. -/
theorem segment_below {ph : Phdr} (hfile : ¬ ph.memsz < ph.filesz) (hwrap : ¬ ph.vaddr + ph.memsz < ph.vaddr)
    (halign : ph.vaddr.toNat % PGSIZE = 0) {sz : Nat} (hle : (ph.vaddr + ph.memsz).toNat ≤ sz) (hsz : sz ≤ TRAPFRAME) :
    ph.vaddr.toNat + (ph.filesz.toNat % 2 ^ 32 + PGSIZE - 1) / PGSIZE * PGSIZE ≤ PGROUNDUP sz := by
  have hfile' : ph.filesz.toNat ≤ ph.memsz.toNat := by simpa [BitVec.lt_def] using hfile
  have hsum : (ph.vaddr + ph.memsz).toNat = ph.vaddr.toNat + ph.memsz.toNat := by
    have hge : ph.vaddr.toNat ≤ (ph.vaddr + ph.memsz).toNat := by simpa [BitVec.lt_def] using hwrap
    have h1 := ph.vaddr.isLt
    have h2 := ph.memsz.isLt
    rw [BitVec.toNat_add] at hge ⊢
    omega
  rw [hsum] at hle
  rw [pgroundup_eq (le_maxva hsz)]
  have hmod : ph.filesz.toNat % 2 ^ 32 ≤ ph.filesz.toNat := Nat.mod_le _ _
  unfold PGSIZE at *
  omega

/-- What `loadSegments` leaves, whether or not it got to the end. -/
structure Loaded (T : Multiset Nat) (pt : PageTable) (sz : Nat) (m : Mem) : Prop where
  size : sz ≤ TRAPFRAME
  space : Space pt (PGROUNDUP sz)
  pages : m.free + owned pt (PGROUNDUP sz) = T

theorem loadSegments_loaded (phs : List Phdr) (hsz : sz ≤ TRAPFRAME) (h : Space pt (PGROUNDUP sz))
    (hu : Users pt (PGROUNDUP sz)) (hfew : T.card < TRAPFRAME / PGSIZE) (hpa : ∀ pa ∈ T, pa ≠ 0) :
    Safe (fun m => m.free + owned pt (PGROUNDUP sz) = T) (loadSegments phs pt sz)
      fun r m => Loaded T r.1 r.2.1 m := by
  induction phs generalizing pt sz with
  | nil => exact Triple.pure _ fun m hm => ⟨hsz, h, hm⟩
  | cons ph rest ih =>
      unfold loadSegments
      refine Triple.ite (fun _ => Triple.pure _ fun m hm => ⟨hsz, h, hm⟩) fun _ => ?_
      refine Triple.ite (fun _ => ih hsz h hu) fun _ => ?_
      refine Triple.ite (fun _ => Triple.pure _ fun m hm => ⟨hsz, h, hm⟩) fun hok => ?_
      simp only [not_or, not_not] at hok
      obtain ⟨hfile, hwrap, halign⟩ := hok
      refine Triple.bind (uvmalloc_space h hsz hfew) fun r => Triple.ite (fun h0 => ?_) fun hne => ?_
      · exact Triple.pure _ fun m hm => ⟨hsz, (hm.1 h0).space, (hm.1 h0).pages⟩
      · refine Triple.each fun m hm => ?_
        obtain ⟨hr, hle, hres, husers⟩ := hm.2 hne
        have hu' := husers hu
        have hpa' : ∀ pa ∈ leaves r.1 0 (PGROUNDUP r.2 / PGSIZE), pa ≠ 0 := fun pa hmem => by
          refine hpa pa ?_
          rw [← hres.pages, owned]
          exact Multiset.mem_add.2 (Or.inr (Multiset.mem_add.2 (Or.inr hmem)))
        have hbelow := segment_below hfile hwrap halign (by rw [hr]; exact Nat.le_max_right _ _) hle
        refine Triple.bind (safe_loadseg _ ph.pages hres.space hu' hpa' halign hbelow m) fun ok =>
          Triple.ite (fun _ => ?_) fun _ => Triple.pure _ fun m' hm' => ?_
        · exact (ih hle hres.space hu').conseq (fun m' hm' => by rw [hm']; exact hres.pages) fun _ _ h => h
        · exact ⟨hle, hres.space, by rw [hm']; exact hres.pages⟩

/-! ## The stack -/

/-- Taking `PTE_U` away unmaps nothing. -/
theorem Space.clear {pte : Pte} (h : Space pt lim) (hva : va < MAXVA) (hs : slot pt va = some pte) (e : Pte)
    (hV : e.V = pte.V) (hR : e.perm.R = pte.perm.R) (hpa : e.pa = pte.pa) :
    Space (setPte pt va e) lim ∧ owned (setPte pt va e) lim = owned pt lim := by
  have hpte : pteAt pt va = pte := by rw [pteAt, hs, Option.getD_some]
  have hsame : ∀ x, x < 2 ^ 39 → (pteAt (setPte pt va e) x).V = (pteAt pt x).V ∧
      (pteAt (setPte pt va e) x).perm.R = (pteAt pt x).perm.R ∧ (pteAt (setPte pt va e) x).pa = (pteAt pt x).pa := by
    intro x hx
    by_cases hd : x / PGSIZE = va / PGSIZE
    · rw [pteAt_congr hd, pteAt_setPte_self hs, pteAt_congr hd, hpte]
      exact ⟨hV, hR, hpa⟩
    · rw [pteAt_setPte_of_ne (maxva_lt hva) hx hd]
      exact ⟨rfl, rfl, rfl⟩
  refine ⟨⟨⟨fun x hx hv => ?_, fun x hx => ?_⟩, h.aligned, h.below⟩, ?_⟩
  · rw [(hsame x hx).1] at hv
    rw [(hsame x hx).2.1]
    exact h.maps.leafy x hx hv
  · rw [(hsame x hx).1]
    exact h.maps.mapped x hx
  · unfold owned leaves
    rw [tables_setPte]
    congr 1
    refine Finset.sum_congr rfl fun k hk => ?_
    have hlt := Nat.mul_lt_mul_of_pos_right (Finset.mem_range.1 hk) Copy.pgsize_pos
    rw [mul_div_aligned h.aligned] at hlt
    have hbelow := h.below
    have heq := hsame (0 + k * PGSIZE) (maxva_lt (below_maxva (by omega)))
    rw [leafAt, leafAt, heq.1, heq.2.2]

theorem uvmclear_eq {pte : Pte} (hva : va < MAXVA) (hs : slot pt va = some pte) (m : Mem) :
    onVm (uvmclear pt va) m = .ok (setPte pt va { pte with perm := { pte.perm with U := false } }, m) := by
  refine onVm_ok ?_
  unfold uvmclear
  rw [bind_of_ok (Copy.walk_eq hva pt m), hs]
  rfl

/-- The process afterwards is as it should be, and no page is lost. -/
def Execed (T : Multiset Nat) (r : Proc × Int) (m : Mem) : Prop := Good r.1 ∧ m.free + held r.1 = T

/-- `exec` has given up, and gives the new page table back. -/
theorem exec_bad (h : Good p) (hload : Space pt (PGROUNDUP sz)) (hsz : sz ≤ TRAPFRAME) (T : Multiset Nat) :
    Safe (fun m => m.free + ({root} + owned pt (PGROUNDUP sz)) + held p = T) (do
      procFreepagetable root pt sz
      pure (p, (-1 : Int))) (Execed T) := by
  refine Triple.each fun m hm => Triple.bind ((procFreepagetable_free root hsz hload _).conseq
    (fun m' hm' => by rw [hm']) fun _ _ h => h) fun _ => Triple.pure _ fun m' hm' => ⟨h, ?_⟩
  rw [hm', hm]

/-- The new image is complete but for the guard page and the arguments. -/
theorem execGuard_execed {guard : Nat} (h : Good p) (elf : Elf) (T : Multiset Nat) :
    Safe (fun m => (Space pt (PGROUNDUP sz) ∧ sz ≤ TRAPFRAME ∧ guard < PGROUNDUP sz) ∧
      m.free + ({root} + owned pt (PGROUNDUP sz)) + held p = T) (do
      let pt ← onVm (uvmclear pt guard)
      if elf.args then do
        procFreepagetable p.root p.pagetable p.sz
        pure ((⟨root, pt, p.trapframe, sz⟩ : Proc), (0 : Int))
      else do
        procFreepagetable root pt sz
        pure (p, -1)) (Execed T) := by
  refine Triple.each fun m hm => ?_
  obtain ⟨⟨hload, hsz, hguard⟩, hm⟩ := hm
  have hbelow := hload.below
  have hva : guard < MAXVA := below_maxva (by omega)
  obtain ⟨pte, hs, -, -, -⟩ := hload.maps.slot hva (Or.inl hguard)
  refine Triple.bind (R := fun pt' m' => pt' = setPte pt guard { pte with perm := { pte.perm with U := false } } ∧ m' = m)
    (safe_eq fun m' hm' => ⟨_, _, uvmclear_eq hva hs m', rfl, hm'⟩) fun pt' => ?_
  refine Triple.each fun m' hm' => ?_
  obtain ⟨rfl, rfl⟩ := hm'
  obtain ⟨hclear, howned⟩ := hload.clear hva hs { pte with perm := { pte.perm with U := false } } rfl rfl rfl
  generalize setPte pt guard { pte with perm := { pte.perm with U := false } } = pt' at hclear howned
  rw [← howned] at hm
  refine Triple.ite (fun _ => ?_) fun _ => (exec_bad h hclear hsz T).conseq (fun m hm' => by rw [hm']; exact hm)
    fun _ _ h => h
  -- the old page table goes, the trapframe stays
  have hold : m'.free + ({p.root} + owned p.pagetable (PGROUNDUP p.sz)) + ({p.trapframe} +
      ({root} + owned pt' (PGROUNDUP sz))) = T := by
    rw [← hm, held]
    abel
  refine Triple.bind ((procFreepagetable_free p.root h.size h.space
    (m'.free + ({p.root} + owned p.pagetable (PGROUNDUP p.sz)))).conseq (fun m hm' => by rw [hm']) fun _ _ h => h) fun _ =>
      Triple.pure _ fun m₁ hm₁ => ⟨⟨hsz, hclear⟩, ?_⟩
  rw [hm₁]
  exact hold

theorem execStack_execed (h : Good p) (elf : Elf) (hload : Space pt (PGROUNDUP sz)) (hsz : sz ≤ TRAPFRAME)
    (hfew : T.card < TRAPFRAME / PGSIZE) :
    Safe (fun m => m.free + ({root} + owned pt (PGROUNDUP sz)) + held p = T) (execStack p elf root pt sz) (Execed T) := by
  have htop := pgroundup_le_top hsz
  have hround : PGROUNDUP (PGROUNDUP sz) = PGROUNDUP sz := pgroundup_of_aligned (le_maxva htop) (pgroundup_mod sz)
  have hmax : TRAPFRAME = 2 ^ 38 - 8192 := by decide
  have hsum : (PGROUNDUP sz + 2 * PGSIZE) % 2 ^ 64 = PGROUNDUP sz + 2 * PGSIZE := by
    unfold PGSIZE at *
    omega
  unfold execStack
  simp only
  rw [hsum]
  refine Triple.each fun m₀ hm₀ => ?_
  have hlocal : (m₀.free + owned pt (PGROUNDUP sz)).card < TRAPFRAME / PGSIZE := by
    refine Nat.lt_of_le_of_lt (Multiset.card_le_card ?_) hfew
    rw [← hm₀, ← add_assoc]
    exact (add_le_add_left (Multiset.le_add_right _ _) _).trans (Multiset.le_add_right _ _)
  have hspace : Space pt (PGROUNDUP (PGROUNDUP sz)) := by rw [hround]; exact hload
  refine Triple.bind ((uvmalloc_space hspace htop hlocal).conseq (fun m hm => by rw [hm, hround]) fun _ _ h => h) fun r =>
    ?_
  generalize hguard : r.2 - 2 * PGSIZE = guard
  refine Triple.ite (fun h0 => ?_) fun hne => ?_
  · refine Triple.each fun m hm => ?_
    have hres := hm.1 h0
    refine (exec_bad h hres.space htop T).conseq (fun m' hm' => ?_) fun _ _ h => h
    have hpages := hres.pages
    rw [hm', ← hm₀]
    calc m.free + ({root} + owned r.1 (PGROUNDUP (PGROUNDUP sz))) + held p
        = {root} + (m.free + owned r.1 (PGROUNDUP (PGROUNDUP sz))) + held p := by abel
      _ = {root} + (m₀.free + owned pt (PGROUNDUP sz)) + held p := by rw [hpages]
      _ = m₀.free + ({root} + owned pt (PGROUNDUP sz)) + held p := by abel
  · refine (execGuard_execed h elf T).conseq (fun m hm => ?_) fun _ _ h => h
    obtain ⟨hr, hle, hres, -⟩ := hm.2 hne
    have hgrows : PGROUNDUP sz ≤ PGROUNDUP sz + 2 * PGSIZE := Nat.le_add_right _ _
    rw [max_eq_right hgrows] at hr
    have hP := Copy.pgsize_pos
    have hround' := le_pgroundup (le_maxva hle)
    refine ⟨⟨hres.space, hle, by omega⟩, ?_⟩
    have hpages := hres.pages
    rw [← hm₀]
    calc m.free + ({root} + owned r.1 (PGROUNDUP r.2)) + held p
        = {root} + (m.free + owned r.1 (PGROUNDUP r.2)) + held p := by abel
      _ = {root} + (m₀.free + owned pt (PGROUNDUP sz)) + held p := by rw [hpages]
      _ = m₀.free + ({root} + owned pt (PGROUNDUP sz)) + held p := by abel

theorem exec_execed (h : Good p) (trampoline : Nat) (elf : Elf) (hfew : T.card < TRAPFRAME / PGSIZE)
    (hpa : ∀ pa ∈ T, pa ≠ 0) :
    Safe (fun m => m.free + held p = T) (exec p trampoline elf) (Execed T) := by
  unfold exec
  refine Triple.ite (fun _ => ?_) fun _ => Triple.pure _ fun m hm => ⟨h, hm⟩
  refine Triple.each fun m₀ hm₀ => ?_
  refine Triple.bind ((procPagetable_made p.trapframe trampoline m₀.free).conseq (fun m hm => by rw [hm])
    fun _ _ h => h) fun o => ?_
  cases o with
  | none => exact Triple.pure _ fun m hm => ⟨h, by rw [hm.1 rfl]; exact hm₀⟩
  | some r =>
      obtain ⟨root, pt⟩ := r
      refine Triple.each fun m₁ hm₁ => ?_
      obtain ⟨hspace, hnew⟩ := hm₁.2 root pt rfl
      have hpages : m₁.free + owned pt 0 + ({root} + held p) = T := by
        rw [← hm₀, ← hnew]
        abel
      have hle : m₁.free + owned pt 0 ≤ T := by
        rw [← hpages]
        exact Multiset.le_add_right _ _
      have hfew' := Nat.lt_of_le_of_lt (Multiset.card_le_card hle) hfew
      have hpa' : ∀ pa ∈ m₁.free + owned pt 0, pa ≠ 0 := fun pa hmem => hpa pa (Multiset.mem_of_le hle hmem)
      refine Triple.bind ((loadSegments_loaded elf.phdrs (Nat.zero_le _) (by rw [pgroundup_zero]; exact hspace)
        (by rw [pgroundup_zero]; exact fun x hx => absurd hx (Nat.not_lt_zero x)) hfew' hpa').conseq
          (fun m hm => by rw [hm, pgroundup_zero]) fun _ _ h => h) fun r => Triple.each fun m₂ hm₂ => ?_
      have hpages₂ : m₂.free + ({root} + owned r.1 (PGROUNDUP r.2.1)) + held p = T := by
        rw [← hpages, ← hm₂.pages]
        abel
      refine Triple.ite (fun _ => ?_) fun _ => ?_
      · exact (execStack_execed h elf hm₂.space hm₂.size hfew).conseq (fun m hm => by rw [hm]; exact hpages₂) fun _ _ h => h
      · exact (exec_bad h hm₂.space hm₂.size T).conseq (fun m hm => by rw [hm]; exact hpages₂) fun _ _ h => h

end Xv6.Eager
