import Xv6.Vm.PageTable

set_option autoImplicit false

/-! # The size of a process

A process maps pages below its size, and the trapframe and the trampoline at the top. As long as
the size stays at or below `TRAPFRAME` the two ranges do not meet, and none of the panics of `vm.c`
is reached. `sys_sbrk` does not keep it there: the lazy path tests only whether the sum wraps around
in 64 bits, and the eager path stops short of `TRAPFRAME` only if memory runs out before. -/

namespace Xv6.Vm

open Xv6.Lib

/-! ## Rounding -/

theorem pgroundup_eq {sz : Nat} (h : sz ≤ MAXVA) :
    PGROUNDUP sz = (sz + (PGSIZE - 1)) / PGSIZE * PGSIZE := by
  unfold PGROUNDUP PGSIZE
  unfold MAXVA at h
  have : (sz + 4096 - 1) % 2 ^ 64 = sz + (4096 - 1) := by omega
  rw [this]

theorem pgroundup_mod (sz : Nat) : PGROUNDUP sz % PGSIZE = 0 := by
  unfold PGROUNDUP
  exact Nat.mul_mod_left ..

theorem le_pgroundup {sz : Nat} (h : sz ≤ MAXVA) : sz ≤ PGROUNDUP sz := by
  rw [pgroundup_eq h]
  unfold PGSIZE
  omega

theorem pgroundup_le {sz a : Nat} (h : sz ≤ a) (ha : a ≤ MAXVA) (halign : a % PGSIZE = 0) :
    PGROUNDUP sz ≤ a := by
  rw [pgroundup_eq (by omega)]
  unfold PGSIZE at *
  omega

theorem pgroundup_of_aligned {a : Nat} (ha : a ≤ MAXVA) (halign : a % PGSIZE = 0) :
    PGROUNDUP a = a :=
  le_antisymm (pgroundup_le le_rfl ha halign) (le_pgroundup ha)

theorem trapframe_le : TRAPFRAME ≤ MAXVA := by decide

theorem trapframe_mod : TRAPFRAME % PGSIZE = 0 := by decide

theorem pgrounddown_le (x : Nat) : PGROUNDDOWN x ≤ x := Nat.div_mul_le_self ..

theorem pgrounddown_mod (x : Nat) : PGROUNDDOWN x % PGSIZE = 0 := Nat.mul_mod_left ..

theorem pgrounddown_div (x : Nat) : PGROUNDDOWN x / PGSIZE = x / PGSIZE := by
  unfold PGROUNDDOWN
  exact Nat.mul_div_cancel _ (by decide)

/-- The pages from `a` up to `sz`. -/
theorem pages_eq {a sz : Nat} (halign : a % PGSIZE = 0) (h : sz ≤ MAXVA) (ha : a ≤ PGROUNDUP sz) :
    a + (sz - a + PGSIZE - 1) / PGSIZE * PGSIZE = PGROUNDUP sz := by
  rw [pgroundup_eq h] at ha ⊢
  unfold PGSIZE at *
  omega

theorem pgroundup_mono {sz sz' : Nat} (hle : sz ≤ sz') (h : sz' ≤ MAXVA) :
    PGROUNDUP sz ≤ PGROUNDUP sz' := by
  rw [pgroundup_eq h, pgroundup_eq (by omega)]
  exact Nat.mul_le_mul_right _ (Nat.div_le_div_right (by omega))

/-- A page starts below `sz` exactly if it lies below `PGROUNDUP sz`. -/
theorem pgrounddown_lt_iff {sz x : Nat} (h : sz ≤ MAXVA) :
    PGROUNDDOWN x < sz ↔ x < PGROUNDUP sz := by
  rw [pgroundup_eq h]
  unfold PGROUNDDOWN PGSIZE
  omega

/-! ## What a process maps -/

/-- The mapped pages start below `lim`, apart from the trapframe and the trampoline. -/
structure UserVm (pt : PageTable) (lim : Nat) : Prop where
  leafy : Leafy pt
  below : ∀ x, x < 2 ^ 39 → (pteAt pt x).V = true → PGROUNDDOWN x < lim ∨ TRAPFRAME ≤ x ∧ x < MAXVA
  trapframe : (pteAt pt TRAPFRAME).V = true

theorem UserVm.congr {pt pt' : PageTable} {lim : Nat} (h : UserVm pt lim)
    (he : ∀ x, pteAt pt' x = pteAt pt x) : UserVm pt' lim := by
  refine ⟨fun x hx hv => ?_, fun x hx hv => ?_, ?_⟩
  · rw [he] at hv ⊢
    exact h.leafy x hx hv
  · rw [he] at hv
    exact h.below x hx hv
  · rw [he]
    exact h.trapframe

theorem UserVm.mono {pt : PageTable} {lim lim' : Nat} (h : UserVm pt lim) (hle : lim ≤ lim') :
    UserVm pt lim' := by
  refine ⟨h.leafy, fun x hx hv => ?_, h.trapframe⟩
  rcases h.below x hx hv with hlt | htop
  · exact Or.inl (by omega)
  · exact Or.inr htop

/-- Only whole pages count. -/
theorem UserVm.of_pgroundup {pt : PageTable} {sz : Nat} (hsz : sz ≤ MAXVA)
    (h : UserVm pt (PGROUNDUP sz)) : UserVm pt sz := by
  refine ⟨h.leafy, fun x hx hv => ?_, h.trapframe⟩
  rcases h.below x hx hv with hlt | htop
  · left
    rw [pgroundup_eq hsz] at hlt
    unfold PGROUNDDOWN PGSIZE at *
    omega
  · exact Or.inr htop

/-- A page that starts at `lim` or above, and below the trapframe, is not mapped. -/
theorem UserVm.not_mapped {pt : PageTable} {lim a : Nat} (h : UserVm pt lim) (hlim : lim ≤ a)
    (ha : a < TRAPFRAME) (halign : a % PGSIZE = 0) : (pteAt pt a).V = false := by
  cases hv : (pteAt pt a).V with
  | false => rfl
  | true =>
      have hlt : a < 2 ^ 39 := maxva_lt (lt_of_lt_of_le ha trapframe_le)
      have hdown : PGROUNDDOWN a = a := by
        unfold PGROUNDDOWN PGSIZE at *
        omega
      rcases h.below a hlt hv with hb | ⟨htop, -⟩
      · omega
      · omega

/-- A new page below `lim'`. -/
theorem UserVm.map {pt pt' : PageTable} {lim lim' va pa : Nat} {perm : Perm} (h : UserVm pt lim)
    (hle : lim ≤ lim') (hva : va < lim') (htop : va < TRAPFRAME) (halign : va % PGSIZE = 0)
    (hperm : perm.R = true) (hnew : pteAt pt' va = ⟨true, perm, pa⟩)
    (hrest : ∀ x, x < 2 ^ 39 → x / PGSIZE ≠ va / PGSIZE → pteAt pt' x = pteAt pt x) :
    UserVm pt' lim' := by
  have hcases : ∀ x, x < 2 ^ 39 → (x / PGSIZE = va / PGSIZE ∧ pteAt pt' x = ⟨true, perm, pa⟩) ∨
      pteAt pt' x = pteAt pt x := by
    intro x hx
    by_cases hd : x / PGSIZE = va / PGSIZE
    · exact Or.inl ⟨hd, by rw [pteAt_congr hd, hnew]⟩
    · exact Or.inr (hrest x hx hd)
  refine ⟨fun x hx hv => ?_, fun x hx hv => ?_, ?_⟩
  · rcases hcases x hx with ⟨-, he⟩ | he
    · rw [he]
      exact hperm
    · rw [he] at hv ⊢
      exact h.leafy x hx hv
  · rcases hcases x hx with ⟨hd, -⟩ | he
    · left
      unfold PGROUNDDOWN
      unfold PGSIZE at *
      omega
    · rw [he] at hv
      rcases h.below x hx hv with hlt | hin
      · exact Or.inl (by omega)
      · exact Or.inr hin
  · rw [hrest TRAPFRAME (by decide)]
    · exact h.trapframe
    · exact div_ne_of_aligned halign (Or.inr (by
        have := trapframe_mod
        unfold PGSIZE at *
        omega))

/-- Unmapping from `lim'` on, below the trapframe. -/
theorem UserVm.unmap {pt pt' : PageTable} {lim lo hi : Nat} (h : UserVm pt lim)
    (hu : Unmapped pt pt' lo hi) (hlim : lim ≤ hi) (hhi : hi ≤ TRAPFRAME) (halign : hi % PGSIZE = 0) :
    UserVm pt' lo := by
  refine ⟨hu.leafy h.leafy, fun x hx hv => ?_, ?_⟩
  · obtain ⟨hout, he⟩ := hu.of_valid hx hv
    rw [he] at hv
    have hdown := pgrounddown_le x
    rcases hout with hlo | hhix
    · exact Or.inl (by omega)
    · rcases h.below x hx hv with hlt | htop
      · exfalso
        unfold PGROUNDDOWN PGSIZE at *
        omega
      · exact Or.inr htop
  · rw [hu.outside TRAPFRAME (by decide) (Or.inr hhi)]
    exact h.trapframe

/-! ## Growing and shrinking -/

variable {may : Panic → Prop}

theorem triple_uvmdealloc {pt : PageTable} {oldsz newsz : Nat} (h : UserVm pt oldsz)
    (hold : oldsz ≤ TRAPFRAME) : Triple may Sound (uvmdealloc pt oldsz newsz)
      (fun r m => Sound m ∧ r.2 ≤ oldsz ∧ UserVm r.1 r.2 ∧ (newsz < oldsz → r.2 = newsz)) := by
  have htop := trapframe_le
  have hmod := trapframe_mod
  unfold uvmdealloc
  refine Triple.ite (fun hge => Triple.pure _ fun m hm => ⟨hm, le_rfl, h, fun hlt => by omega⟩)
    fun hlt => ?_
  have hnew : newsz < oldsz := by omega
  refine Triple.ite (fun hr => ?_) fun hr => Triple.pure _ fun m hm =>
    ⟨hm, by omega, UserVm.of_pgroundup (by omega) ?_, fun _ => rfl⟩
  · have hpages : PGROUNDUP newsz + (PGROUNDUP oldsz - PGROUNDUP newsz) / PGSIZE * PGSIZE
        = PGROUNDUP oldsz := by
      have hm1 := pgroundup_mod newsz
      have hm2 := pgroundup_mod oldsz
      unfold PGSIZE at *
      omega
    have hup : PGROUNDUP oldsz ≤ TRAPFRAME := pgroundup_le hold htop hmod
    refine Triple.bind (triple_uvmunmap true _ pt (pgroundup_mod newsz) (by omega) h.leafy
      fun _ => by omega) fun pt' => Triple.assume fun hu => Triple.pure _ fun m hm => ?_
    rw [hpages] at hu
    refine ⟨hm, by omega, UserVm.of_pgroundup (by omega) ?_, fun _ => rfl⟩
    exact h.unmap hu (le_pgroundup (by omega)) hup (pgroundup_mod oldsz)
  · have hle : PGROUNDUP oldsz ≤ PGROUNDUP newsz := by omega
    exact h.mono (le_trans (le_pgroundup (by omega)) hle)

/-- The pages it takes to map everything from the page after `sz` up to the trapframe. -/
def pagesToTop (pt : PageTable) (sz : Nat) : Nat :=
  pagesNeeded (missing pt) ((TRAPFRAME - PGROUNDUP sz) / PGSIZE) (PGROUNDUP sz)

/-- What mapping a page does to the page table and takes from the free pages. -/
theorem triple_mapNext {k a pa : Nat} {perm : Perm} (pt : PageTable) (ha : a < MAXVA)
    (halign : a % PGSIZE = 0) (hmay : (pteAt pt a).V = true → ∀ e, may e) :
    Triple may (Clean k) (mappages pt a PGSIZE pa perm) (fun r m =>
      (Clean k m ∧ (r.2 = 0 → Clean (k - missing pt a) m)) ∧
      (r.2 = 0 → (pteAt pt a).V = false ∧ pteAt r.1 a = ⟨true, perm, pa⟩ ∧
        ∀ x, x < 2 ^ 39 → x / PGSIZE ≠ a / PGSIZE → pteAt r.1 x = pteAt pt x) ∧
      (r.2 ≠ 0 → ∀ x, pteAt r.1 x = pteAt pt x) ∧
      (r.2 = 0 → ∀ x, missing r.1 x = opened (missing pt) a x)) := by
  refine Triple.conseq (Triple.and (triple_mappages k pt ha halign hmay)
    (triple_mappages_count k pt ha halign hmay)) (fun _ hm => hm) fun r m hm => ?_
  obtain ⟨⟨hclean, _, hnew, hsame⟩, hcount⟩ := hm
  exact ⟨⟨hclean, fun h0 => (hcount h0).2.1⟩, hnew, hsame, fun h0 => (hcount h0).2.2⟩

/-- The loop of `uvmalloc` stays below the trapframe, if it ends there, or if memory is too short to
    come that far; or else it panics. -/
theorem triple_uvmallocLoop {xperm : Perm} {start : Nat} (n : Nat) (pt : PageTable)
    {a k : Nat} (h : UserVm pt a) (hle : start ≤ a) (halign : a % PGSIZE = 0)
    (htop : a ≤ TRAPFRAME) (hroom : a + n * PGSIZE ≤ TRAPFRAME ∨
      k ≤ pagesNeeded (missing pt) ((TRAPFRAME - a) / PGSIZE) a ∨ ∀ e, may e) :
    Triple may (Clean k) (uvmallocLoop xperm start n pt a) (fun r m => Sound m ∧
      (r.2 = true → a + n * PGSIZE ≤ TRAPFRAME ∧ UserVm r.1 (a + n * PGSIZE)) ∧
      (r.2 = false → UserVm r.1 start)) := by
  have hmax : TRAPFRAME < MAXVA := by decide
  have hpos : 0 < PGSIZE := by decide
  have hdealloc : ∀ {pt' : PageTable}, UserVm pt' a → Triple may Sound (uvmdealloc pt' a start)
      (fun r m => Sound m ∧ UserVm r.1 start) := by
    intro pt' h'
    refine Triple.conseq (triple_uvmdealloc h' htop) (fun _ hm => hm) fun r m hm => ⟨hm.1, ?_⟩
    by_cases hlt : start < a
    · rw [← hm.2.2.2 hlt]
      exact hm.2.2.1
    · exact hm.2.2.1.mono (by omega)
  induction n generalizing pt a k with
  | zero =>
      exact Triple.pure _ fun m hm => ⟨hm.unmapped, fun _ => ⟨by omega, by simpa using h⟩, by simp⟩
  | succ n ih =>
      rw [Nat.succ_mul] at hroom ⊢
      refine Triple.bind (triple_kalloc k) fun r => ?_
      cases r with
      | none =>
          refine Triple.conseq (Triple.bind (hdealloc h) fun r => Triple.pure _ fun m hm => ?_)
            (fun m hm => hm.1.unmapped) fun r m hm => hm
          exact ⟨hm.1, by simp, fun _ => hm.2⟩
      | some mem =>
          refine Triple.conseq (Triple.assume (P := Clean (k - 1)) (c := 0 < k) fun hk => ?_)
            (fun m hm => ⟨(hm.2 (by simp)).2, (hm.2 (by simp)).1⟩) fun r m hm => hm
          -- at the trapframe the page is mapped already
          have hmay : (pteAt pt a).V = true → ∀ e, may e := by
            intro hv
            by_cases hat : a = TRAPFRAME
            · rcases hroom with h1 | h2 | h3
              · omega
              · rw [hat, Nat.sub_self, Nat.zero_div] at h2
                exact absurd hk (Nat.not_lt.2 h2)
              · exact h3
            · rw [h.not_mapped le_rfl (by omega) halign] at hv
              cases hv
          refine Triple.bind (triple_mapNext pt (by omega) halign hmay) fun r =>
            Triple.assume fun ⟨hnew, hsame, hopen⟩ => ?_
          · refine Triple.ite (fun hfail => ?_) fun hok => ?_
            · refine Triple.conseq (Triple.bind (triple_kfree mem) fun _ =>
                Triple.bind (hdealloc (h.congr (hsame hfail))) fun r => Triple.pure _ fun m hm => ?_)
                (fun m hm => hm.1.unmapped) fun r m hm => hm
              exact ⟨hm.1, by simp, fun _ => hm.2⟩
            · have h0 : r.2 = 0 := not_not.1 hok
              obtain ⟨hfree, hmapped, hrest⟩ := hnew h0
              have hbelow : a < TRAPFRAME := by
                refine lt_of_le_of_ne htop fun hat => ?_
                rw [hat, h.trapframe] at hfree
                cases hfree
              have hnext : a + PGSIZE ≤ TRAPFRAME := by
                have := trapframe_mod
                unfold PGSIZE at *
                omega
              have hvm : UserVm r.1 (a + PGSIZE) :=
                h.map (by omega) (by omega) hbelow halign rfl hmapped hrest
              refine Triple.conseq (ih r.1 hvm (by omega) ?_ hnext ?_ ?_) (fun _ hm => hm.2 h0)
                fun r' m hm => ⟨hm.1, fun ht => ?_, hm.2.2⟩
              · unfold PGSIZE at *
                omega
              · rcases hroom with h1 | h2 | h3
                · exact Or.inl (by omega)
                · right
                  left
                  have hpages : (TRAPFRAME - a) / PGSIZE = (TRAPFRAME - (a + PGSIZE)) / PGSIZE + 1 := by
                    unfold PGSIZE at *
                    omega
                  rw [hpages, pagesNeeded, ← funext (hopen h0)] at h2
                  omega
                · exact Or.inr (Or.inr h3)
              · intro pt' h'
                refine Triple.conseq (triple_uvmdealloc h' hnext) (fun _ hm => hm)
                  fun r m hm => ⟨hm.1, ?_⟩
                rw [← hm.2.2.2 (by omega)]
                exact hm.2.2.1
              · have heq : a + PGSIZE + n * PGSIZE = a + (n * PGSIZE + PGSIZE) := by omega
                rw [← heq]
                exact hm.2.1 ht

theorem triple_uvmalloc {pt : PageTable} {oldsz newsz k : Nat} {xperm : Perm} (h : UserVm pt oldsz)
    (hold : oldsz ≤ TRAPFRAME)
    (hroom : newsz ≤ TRAPFRAME ∨ k ≤ pagesToTop pt oldsz ∨ ∀ e, may e) :
    Triple may (Clean k) (uvmalloc pt oldsz newsz xperm) (fun r m => Sound m ∧
      (r.2 = 0 → UserVm r.1 oldsz) ∧ (r.2 ≠ 0 → r.2 ≤ TRAPFRAME ∧ UserVm r.1 r.2)) := by
  have hmax := trapframe_le
  have hmod := trapframe_mod
  have hupmod := pgroundup_mod oldsz
  have hle : oldsz ≤ PGROUNDUP oldsz := le_pgroundup (by omega)
  have hup : PGROUNDUP oldsz ≤ TRAPFRAME := pgroundup_le hold hmax hmod
  unfold uvmalloc
  refine Triple.ite (fun _ => Triple.pure _ fun m hm => ⟨hm.unmapped, fun _ => h, fun _ => ⟨hold, h⟩⟩)
    fun hlt => ?_
  refine Triple.bind (triple_uvmallocLoop _ pt (h.mono hle) le_rfl hupmod hup ?_) fun r =>
    Triple.assume fun ⟨hok, hfail⟩ => Triple.pure _ fun m hm => ⟨hm, fun h0 => ?_, fun hne => ?_⟩
  · rcases hroom with h1 | h2 | h3
    · left
      unfold PGSIZE at *
      omega
    · exact Or.inr (Or.inl h2)
    · exact Or.inr (Or.inr h3)
  · cases hr : r.2 with
    | true =>
        simp only [hr, if_true] at h0
        obtain ⟨hend, hvm⟩ := hok hr
        have hnone : (newsz - PGROUNDUP oldsz + PGSIZE - 1) / PGSIZE = 0 := by
          simp [h0, PGSIZE]
        rw [hnone, Nat.zero_mul, Nat.add_zero] at hvm
        exact UserVm.of_pgroundup (by omega) hvm
    | false =>
        exact UserVm.of_pgroundup (by omega) (hfail hr)
  · cases hr : r.2 with
    | true =>
        simp only [hr, if_true] at hne ⊢
        obtain ⟨hend, hvm⟩ := hok hr
        have hnew : newsz ≤ TRAPFRAME := by
          unfold PGSIZE at *
          omega
        refine ⟨hnew, UserVm.of_pgroundup (by omega) ?_⟩
        rw [← pages_eq hupmod (by omega) (pgroundup_mono (by omega) (by omega))]
        exact hvm
    | false => simp [hr] at hne

/-! ## Copying and freeing a page table -/

theorem triple_uvmcopyLoop {old : PageTable} (hold : Leafy old) (n : Nat) (new : PageTable)
    {i : Nat} (h : UserVm new i) (halign : i % PGSIZE = 0) (htop : i + n * PGSIZE ≤ TRAPFRAME) :
    Triple may Sound (uvmcopyLoop old n new i) (fun r m => Sound m ∧
      (0 ≤ r.2 → UserVm r.1 (i + n * PGSIZE)) ∧ (r.2 < 0 → UserVm r.1 0)) := by
  have hmax : TRAPFRAME < MAXVA := by decide
  have hpos : 0 < PGSIZE := by decide
  have hundo : ∀ {i : Nat} {new : PageTable}, UserVm new i → i % PGSIZE = 0 → i ≤ TRAPFRAME →
      Triple may Sound (uvmunmap new 0 (i / PGSIZE) true)
        (fun r m => Sound m ∧ UserVm r 0) := by
    intro i new h halign hi
    have hpages : 0 + i / PGSIZE * PGSIZE = i := by
      unfold PGSIZE at *
      omega
    refine Triple.conseq (triple_uvmunmap true _ new (by decide) (by omega) h.leafy fun _ => by omega)
      (fun _ hm => hm) fun r m hm => ⟨hm.1, ?_⟩
    rw [hpages] at hm
    exact h.unmap hm.2 le_rfl hi halign
  induction n generalizing new i with
  | zero => exact Triple.pure _ fun m hm => ⟨hm, fun _ => by simpa using h, by simp⟩
  | succ n ih =>
      rw [Nat.succ_mul] at htop ⊢
      have halign' : (i + PGSIZE) % PGSIZE = 0 := by
        unfold PGSIZE at *
        omega
      have heq : i + PGSIZE + n * PGSIZE = i + (n * PGSIZE + PGSIZE) := by omega
      have hskip : Triple may Sound (uvmcopyLoop old n new (i + PGSIZE)) (fun r m => Sound m ∧
          (0 ≤ r.2 → UserVm r.1 (i + (n * PGSIZE + PGSIZE))) ∧ (r.2 < 0 → UserVm r.1 0)) := by
        rw [← heq]
        exact ih new (h.mono (by omega)) halign' (by omega)
      refine Triple.bind (triple_sound fun k => triple_walk k old (by omega) false) fun r =>
        Triple.assume fun hwalk => ?_
      obtain ⟨hpte, hslot, -, -⟩ := hwalk
      cases hr : r.2 with
      | none => exact hskip
      | some pte =>
          refine Triple.ite (fun _ => hskip) fun hv => ?_
          have hpa : pteAt old i = pte := by
            rw [← hpte i]
            simp [pteAt, hslot pte hr]
          have hR : pte.perm.R = true := by
            rw [← hpa]
            exact hold i (maxva_lt (by omega)) (by rw [hpa]; simpa using hv)
          refine Triple.bind (triple_sound fun k => Triple.conseq (triple_kalloc k) (fun _ hm => hm)
            fun a m hm => ⟨hm.1, trivial⟩) fun a => ?_
          cases a with
          | none =>
              refine Triple.bind (Triple.conseq (hundo h halign (by omega)) (fun _ hm => hm.1)
                fun _ _ hm => hm) fun r => Triple.pure _ fun m hm => ?_
              exact ⟨hm.1, by simp, fun _ => hm.2⟩
          | some mem =>
              refine Triple.bind (Triple.conseq (triple_sound fun k => triple_mappages k new
                (by omega) halign fun hv => ?_) (fun _ hm => hm.1) fun _ _ hm => hm) fun r =>
                Triple.assume fun hmap => ?_
              · rw [h.not_mapped le_rfl (by omega) halign] at hv
                cases hv
              · obtain ⟨-, hnew, hsame⟩ := hmap
                refine Triple.ite (fun hfail => ?_) fun hok => ?_
                · refine Triple.bind (triple_kfree mem) fun _ =>
                    Triple.bind (hundo (h.congr (hsame hfail)) halign (by omega)) fun r =>
                      Triple.pure _ fun m hm => ?_
                  exact ⟨hm.1, by simp, fun _ => hm.2⟩
                · obtain ⟨-, hmapped, hrest⟩ := hnew (not_not.1 hok)
                  rw [← heq]
                  exact ih r.1 (h.map (by omega) (by omega) (by omega) halign hR hmapped hrest)
                    halign' (by omega)

/-- The address of the page with these indices. -/
theorem PX_address (i2 i1 i0 : Fin 512) :
    i2.val * 2 ^ 30 + i1.val * 2 ^ 21 + i0.val * 2 ^ 12 < 2 ^ 39 ∧
    PX 2 (i2.val * 2 ^ 30 + i1.val * 2 ^ 21 + i0.val * 2 ^ 12) = i2 ∧
    PX 1 (i2.val * 2 ^ 30 + i1.val * 2 ^ 21 + i0.val * 2 ^ 12) = i1 ∧
    PX 0 (i2.val * 2 ^ 30 + i1.val * 2 ^ 21 + i0.val * 2 ^ 12) = i0 := by
  have h2 := i2.isLt
  have h1 := i1.isLt
  have h0 := i0.isLt
  refine ⟨by omega, ?_, ?_, ?_⟩
  · simp only [PX, Fin.ofNat_eq_cast, Fin.ext_iff, Fin.val_natCast]
    omega
  · simp only [PX, Fin.ofNat_eq_cast, Fin.ext_iff, Fin.val_natCast]
    omega
  · simp only [PX, Fin.ofNat_eq_cast, Fin.ext_iff, Fin.val_natCast]
    omega

theorem triple_freewalkLeaf {table : Nat × Leaf} (h : ∀ i, (table.2 i).V = false) :
    Triple may Sound (freewalkLeaf table) (fun _ m => Sound m) := by
  unfold freewalkLeaf
  refine Triple.ite (fun hany => ?_) fun _ => triple_kfree table.1
  unfold hasLeaf at hany
  obtain ⟨i, -, hv⟩ := List.any_eq_true.1 hany
  rw [h i] at hv
  cases hv

theorem triple_freewalkMid {table : Nat × Mid}
    (h : ∀ i t, table.2 i = some t → ∀ j, (t.2 j).V = false) :
    Triple may Sound (freewalkMid table) (fun _ m => Sound m) := by
  unfold freewalkMid
  refine Triple.bind (Triple.forM fun i _ => ?_) fun _ => triple_kfree table.1
  cases hi : table.2 i with
  | none => exact Triple.pure _ fun _ hm => hm
  | some t => exact triple_freewalkLeaf (h i t hi)

theorem triple_freewalk {root : Nat} {pt : PageTable}
    (h : ∀ x, x < 2 ^ 39 → (pteAt pt x).V = false) :
    Triple may Sound (freewalk root pt) (fun _ m => Sound m) := by
  unfold freewalk
  refine Triple.bind (Triple.forM fun i2 _ => ?_) fun _ => triple_kfree root
  cases h2 : pt i2 with
  | none => exact Triple.pure _ fun _ hm => hm
  | some t2 =>
      refine triple_freewalkMid fun i1 t1 h1 i0 => ?_
      obtain ⟨hlt, e2, e1, e0⟩ := PX_address i2 i1 i0
      have hfree := h _ hlt
      simp only [pteAt, slot, e2, h2, e1, h1, e0, Option.getD_some] at hfree
      exact hfree

/-- With the two top pages unmapped, and everything else below the size. -/
theorem triple_uvmfree {root sz : Nat} {pt : PageTable} (hsz : sz ≤ TRAPFRAME) (hleafy : Leafy pt)
    (hbelow : ∀ x, x < 2 ^ 39 → (pteAt pt x).V = true → PGROUNDDOWN x < sz) :
    Triple may Sound (uvmfree root pt sz) (fun _ m => Sound m) := by
  have hmax := trapframe_le
  have hmod := trapframe_mod
  unfold uvmfree
  have hpages : 0 + PGROUNDUP sz / PGSIZE * PGSIZE = PGROUNDUP sz := by
    have := pgroundup_mod sz
    unfold PGSIZE at *
    omega
  have hup : PGROUNDUP sz ≤ TRAPFRAME := pgroundup_le hsz hmax hmod
  refine Triple.bind (R := fun r m => Sound m ∧ ∀ x, x < 2 ^ 39 → (pteAt r x).V = false) ?_
    fun r => Triple.assume fun hfree => triple_freewalk hfree
  refine Triple.ite (fun _ => ?_) fun h0 => Triple.pure _ fun m hm => ⟨hm, fun x hx => ?_⟩
  · have hun : Triple may Sound (uvmunmap pt 0 (PGROUNDUP sz / PGSIZE) true)
        (fun r m => Sound m ∧ Unmapped pt r 0 (PGROUNDUP sz)) := by
      have hu : Triple may Sound (uvmunmap pt 0 (PGROUNDUP sz / PGSIZE) true) (fun r m => Sound m ∧
          Unmapped pt r 0 (0 + PGROUNDUP sz / PGSIZE * PGSIZE)) :=
        triple_uvmunmap true _ pt (by decide) (by omega) hleafy fun _ => by omega
      rw [hpages] at hu
      exact hu
    refine Triple.conseq hun (fun _ hm => hm) fun r m hm => ⟨hm.1, fun x hx => ?_⟩
    cases hv : (pteAt r x).V with
    | false => rfl
    | true =>
        obtain ⟨hout, he⟩ := hm.2.of_valid hx hv
        rw [he] at hv
        have hlt := (pgrounddown_lt_iff (by omega)).1 (hbelow x hx hv)
        omega
  · cases hv : (pteAt pt x).V with
    | false => rfl
    | true =>
        have := hbelow x hx hv
        omega

theorem triple_procFreepagetable {root sz : Nat} {pt : PageTable} (h : UserVm pt sz)
    (hsz : sz ≤ TRAPFRAME) : Triple may Sound (procFreepagetable root pt sz) (fun _ m => Sound m) := by
  unfold procFreepagetable
  refine Triple.bind (triple_uvmunmap false 1 pt (by decide) (by decide) h.leafy (by simp)) fun p1 =>
    Triple.assume fun h1 => ?_
  refine Triple.bind (triple_uvmunmap false 1 p1 (by decide) (by decide) (h1.leafy h.leafy) (by simp))
    fun p2 => Triple.assume fun h2 => ?_
  refine triple_uvmfree hsz (h2.leafy (h1.leafy h.leafy)) fun x hx hv => ?_
  obtain ⟨hout2, he2⟩ := h2.of_valid hx hv
  rw [he2] at hv
  obtain ⟨hout1, he1⟩ := h1.of_valid hx hv
  rw [he1] at hv
  rcases h.below x hx hv with hlt | ⟨htop, hmax⟩
  · exact hlt
  · exfalso
    unfold TRAPFRAME TRAMPOLINE at *
    unfold MAXVA PGSIZE at *
    omega

/-! ## The operations on a process -/

/-- The size is at most `TRAPFRAME`, and the page table agrees with it. -/
structure Ok (p : Proc) : Prop where
  size : p.sz ≤ TRAPFRAME
  vm : UserVm p.pagetable p.sz

theorem triple_freeproc {p : Proc} (h : Ok p) : Triple may Sound (freeproc p) (fun _ m => Sound m) := by
  unfold freeproc
  exact Triple.bind (triple_kfree _) fun _ => triple_procFreepagetable h.vm h.size

theorem triple_vmfault {p : Proc} (h : Ok p) (va : Nat) :
    Triple may Sound (vmfault p va) (fun r m => Sound m ∧ Ok r.1 ∧ r.1.sz = p.sz) := by
  unfold vmfault
  refine Triple.ite (fun _ => Triple.pure _ fun m hm => ⟨hm, h, rfl⟩) fun hva => ?_
  have hsize := h.size
  have hle := pgrounddown_le va
  have hmod := pgrounddown_mod va
  have hmax : TRAPFRAME < MAXVA := by decide
  have hmapped : Triple may Sound (ismapped p.pagetable (PGROUNDDOWN va)) (fun r m => Sound m ∧
      (r = false → (pteAt p.pagetable (PGROUNDDOWN va)).V = false)) := by
    unfold ismapped
    refine Triple.bind (triple_sound fun k => triple_walk k p.pagetable (by omega) false) fun r =>
      Triple.assume fun hwalk => ?_
    obtain ⟨hpte, hslot, hnone, -⟩ := hwalk
    cases hr : r.2 with
    | none =>
        exact Triple.pure _ fun m hm => ⟨hm, fun _ => by simp [pteAt, hnone hr, Pte.zero]⟩
    | some pte =>
        refine Triple.pure _ fun m hm => ⟨hm, fun hv => ?_⟩
        rw [← hpte]
        simpa [pteAt, hslot pte hr] using hv
  refine Triple.bind hmapped fun r => Triple.assume fun hv => ?_
  refine Triple.ite (fun _ => Triple.pure _ fun m hm => ⟨hm, h, rfl⟩) fun hr => ?_
  have hfree : (pteAt p.pagetable (PGROUNDDOWN va)).V = false := hv (by simpa using hr)
  refine Triple.bind (triple_sound fun k => Triple.conseq (triple_kalloc k) (fun _ hm => hm)
    fun a m hm => ⟨hm.1, trivial⟩) fun a => ?_
  cases a with
  | none => exact Triple.pure _ fun m hm => ⟨hm.1, h, rfl⟩
  | some mem =>
      refine Triple.bind (Triple.conseq (triple_sound fun k => triple_mappages k p.pagetable (by omega)
        hmod fun hv => ?_) (fun _ hm => hm.1) fun _ _ hm => hm) fun r =>
        Triple.assume fun hmap => ?_
      · rw [hfree] at hv
        cases hv
      · obtain ⟨-, hnew, hsame⟩ := hmap
        refine Triple.ite (fun hfail => ?_) fun hok => Triple.pure _ fun m hm => ⟨hm, ⟨hsize, ?_⟩, rfl⟩
        · exact Triple.bind (triple_kfree mem) fun _ =>
            Triple.pure _ fun m hm => ⟨hm, ⟨hsize, h.vm.congr (hsame hfail)⟩, rfl⟩
        · obtain ⟨-, hmap, hrest⟩ := hnew (not_not.1 hok)
          exact h.vm.map le_rfl (show PGROUNDDOWN va < p.sz by omega) (by omega) hmod rfl hmap hrest

theorem triple_walkaddr (pt : PageTable) (va : Nat) :
    Triple may Sound (walkaddr pt va) (fun _ m => Sound m) := by
  unfold walkaddr
  refine Triple.ite (fun _ => Triple.pure _ fun _ hm => hm) fun hva => ?_
  refine Triple.bind (triple_sound fun k => triple_walk k pt (by omega) false) fun r => ?_
  cases r.2 with
  | none => exact Triple.pure _ fun _ hm => hm.1
  | some pte =>
      exact Triple.ite (fun _ => Triple.pure _ fun _ hm => hm.1) fun _ => Triple.pure _ fun _ hm => hm.1

theorem triple_resolve {p : Proc} (h : Ok p) (va : Nat) :
    Triple may Sound (resolve p va) (fun r m => Sound m ∧ Ok r.1) := by
  unfold resolve
  refine Triple.bind (triple_walkaddr _ _) fun pa => ?_
  refine Triple.ite (fun _ => ?_) fun _ => Triple.pure _ fun m hm => ⟨hm, h⟩
  exact Triple.conseq (triple_vmfault h va) (fun _ hm => hm) fun r m hm => ⟨hm.1, hm.2.1⟩

theorem triple_copyin {p : Proc} (h : Ok p) (srcva len : Nat) :
    Triple may Sound (copyin p srcva len) (fun r m => Sound m ∧ Ok r.1) := by
  induction len using Nat.strong_induction_on generalizing p srcva with
  | _ len ih =>
      rw [copyin]
      by_cases h0 : len = 0
      · rw [dif_pos h0]
        exact Triple.pure _ fun m hm => ⟨hm, h⟩
      · rw [dif_neg h0]
        have hpos := chunk_pos srcva h0
        refine Triple.bind (triple_resolve h _) fun r => Triple.assume fun hr => ?_
        refine Triple.ite (fun _ => Triple.pure _ fun m hm => ⟨hm, hr⟩) fun _ => ?_
        exact ih _ (by omega) hr _

theorem triple_copyout {p : Proc} (h : Ok p) (dstva len : Nat) :
    Triple may Sound (copyout p dstva len) (fun r m => Sound m ∧ Ok r.1) := by
  induction len using Nat.strong_induction_on generalizing p dstva with
  | _ len ih =>
      rw [copyout]
      by_cases h0 : len = 0
      · rw [dif_pos h0]
        exact Triple.pure _ fun m hm => ⟨hm, h⟩
      · rw [dif_neg h0]
        have hpos := chunk_pos dstva h0
        refine Triple.ite (fun _ => Triple.pure _ fun m hm => ⟨hm, h⟩) fun hva => ?_
        refine Triple.bind (triple_resolve h _) fun r => Triple.assume fun hr => ?_
        refine Triple.ite (fun _ => Triple.pure _ fun m hm => ⟨hm, hr⟩) fun _ => ?_
        refine Triple.bind (triple_sound fun k => triple_walk k r.1.pagetable (by omega) false)
          fun w => Triple.assume fun _ => ?_
        cases w.2 with
        | none => exact Triple.pure _ fun m hm => ⟨hm, hr⟩
        | some pte =>
            refine Triple.ite (fun _ => Triple.pure _ fun m hm => ⟨hm, hr⟩) fun _ => ?_
            exact ih _ (by omega) hr _

theorem triple_procPagetable (trapframe trampoline : Nat) :
    Triple may Sound (procPagetable trapframe trampoline) (fun r m => Sound m ∧
      ∀ root pt, r = some (root, pt) → UserVm pt 0) := by
  have hzero : ∀ x, pteAt (fun _ => none) x = Pte.zero := fun x => rfl
  unfold procPagetable
  refine Triple.bind (triple_sound fun k => Triple.conseq (triple_kalloc k) (fun _ hm => hm)
    fun a m hm => ⟨hm.1, trivial⟩) fun a => ?_
  cases a with
  | none => exact Triple.pure _ fun m hm => ⟨hm.1, by simp⟩
  | some root =>
      refine Triple.bind (Triple.conseq (triple_sound fun k => triple_mappages k (fun _ => none)
        (by decide) (by decide) fun hv => ?_) (fun _ hm => hm.1) fun _ _ hm => hm) fun r1 =>
        Triple.assume fun hmap1 => ?_
      · simp [hzero, Pte.zero] at hv
      obtain ⟨hr1, hnew1, hsame1⟩ := hmap1
      refine Triple.ite (fun hfail => ?_) fun hok => ?_
      · refine Triple.bind (triple_uvmfree (by decide) (fun x hx hv => ?_) fun x hx hv => ?_) fun _ =>
          Triple.pure _ fun m hm => ⟨hm, by simp⟩
        · rw [hsame1 (by omega), hzero] at hv
          cases hv
        · rw [hsame1 (by omega), hzero] at hv
          cases hv
      · obtain ⟨-, hmap1, hrest1⟩ := hnew1 (by omega)
        -- only the trampoline is mapped so far
        have honly : ∀ x, x < 2 ^ 39 → (pteAt r1.1 x).V = true →
            x / PGSIZE = TRAMPOLINE / PGSIZE ∧ (pteAt r1.1 x).perm.R = true := by
          intro x hx hv
          by_cases hd : x / PGSIZE = TRAMPOLINE / PGSIZE
          · refine ⟨hd, ?_⟩
            rw [pteAt_congr hd, hmap1]
          · rw [hrest1 x hx hd, hzero] at hv
            cases hv
        have hleafy : Leafy r1.1 := fun x hx hv => (honly x hx hv).2
        refine Triple.bind (triple_sound fun k => triple_mappages k r1.1 (by decide) (by decide)
          fun hv => ?_) fun r2 => Triple.assume fun hmap2 => ?_
        · exact absurd (honly TRAPFRAME (by decide) hv).1 (by decide)
        obtain ⟨hr2, hnew2, hsame2⟩ := hmap2
        refine Triple.ite (fun hfail => ?_) fun hok2 => Triple.pure _ fun m hm => ⟨hm, ?_⟩
        · have hleafy2 : Leafy r2.1 := fun x hx hv => by
            rw [hsame2 (by omega)] at hv ⊢
            exact hleafy x hx hv
          refine Triple.bind (triple_uvmunmap false 1 r2.1 (by decide) (by decide) hleafy2 (by simp))
            fun p3 => Triple.assume fun h3 => ?_
          refine Triple.bind (triple_uvmfree (by decide) (h3.leafy hleafy2) fun x hx hv => ?_) fun _ =>
            Triple.pure _ fun m hm => ⟨hm, by simp⟩
          obtain ⟨hout, he⟩ := h3.of_valid hx hv
          rw [he, hsame2 (by omega)] at hv
          have hd := (honly x hx hv).1
          exfalso
          unfold TRAMPOLINE at *
          unfold MAXVA PGSIZE at *
          omega
        · rintro root' pt he
          simp only [Option.some.injEq, Prod.mk.injEq] at he
          obtain ⟨-, rfl⟩ := he
          obtain ⟨-, hmap2, hrest2⟩ := hnew2 (by omega)
          have hcases : ∀ x, x < 2 ^ 39 → (pteAt r2.1 x).V = true →
              (x / PGSIZE = TRAMPOLINE / PGSIZE ∨ x / PGSIZE = TRAPFRAME / PGSIZE) ∧
              (pteAt r2.1 x).perm.R = true := by
            intro x hx hv
            by_cases hd : x / PGSIZE = TRAPFRAME / PGSIZE
            · refine ⟨Or.inr hd, ?_⟩
              rw [pteAt_congr hd, hmap2]
            · rw [hrest2 x hx hd] at hv ⊢
              obtain ⟨ht, hR⟩ := honly x hx hv
              exact ⟨Or.inl ht, hR⟩
          refine ⟨fun x hx hv => (hcases x hx hv).2, fun x hx hv => Or.inr ?_, by rw [hmap2]⟩
          have hd := (hcases x hx hv).1
          unfold TRAPFRAME TRAMPOLINE at *
          unfold MAXVA PGSIZE at *
          omega

theorem triple_kfork {p : Proc} (h : Ok p) (trampoline : Nat) :
    Triple may Sound (kfork p trampoline) (fun r m => Sound m ∧ ∀ child, r = some child → Ok child) := by
  have hmax := trapframe_le
  unfold kfork
  refine Triple.bind (triple_sound fun k => Triple.conseq (triple_kalloc k) (fun _ hm => hm)
    fun a m hm => ⟨hm.1, trivial⟩) fun a => ?_
  cases a with
  | none => exact Triple.pure _ fun m hm => ⟨hm.1, by simp⟩
  | some trapframe =>
      refine Triple.bind (Triple.conseq (triple_procPagetable trapframe trampoline)
        (fun _ hm => hm.1) fun _ _ hm => hm) fun r => Triple.assume fun hr => ?_
      cases r with
      | none => exact Triple.bind (triple_kfree _) fun _ => Triple.pure _ fun m hm => ⟨hm, by simp⟩
      | some rp =>
          obtain ⟨root, pt⟩ := rp
          have hpages : 0 + (p.sz + PGSIZE - 1) / PGSIZE * PGSIZE = PGROUNDUP p.sz := by
            exact pages_eq (by decide) (le_trans h.size hmax) (Nat.zero_le _)
          have hup : PGROUNDUP p.sz ≤ TRAPFRAME := pgroundup_le h.size hmax trapframe_mod
          unfold uvmcopy
          refine Triple.bind (triple_uvmcopyLoop h.vm.leafy _ pt (hr root pt rfl) (by decide)
            (by rw [hpages]; exact hup)) fun r => Triple.assume fun ⟨hok, hfail⟩ => ?_
          refine Triple.ite (fun hneg => ?_) fun hpos => Triple.pure _ fun m hm => ⟨hm, ?_⟩
          · exact Triple.bind (triple_freeproc ⟨Nat.zero_le _, hfail hneg⟩) fun _ =>
              Triple.pure _ fun m hm => ⟨hm, by simp⟩
          · rintro child he
            rw [Option.some.injEq] at he
            subst he
            refine ⟨h.size, UserVm.of_pgroundup (le_trans h.size hmax) ?_⟩
            rw [← hpages]
            exact hok (by omega)

theorem addSz_of_pos {sz : Nat} {n : Int} (hsz : sz ≤ MAXVA) (hn : 0 ≤ n) (hmax : n < 2 ^ 31) :
    addSz sz n = sz + n.toNat := by
  unfold addSz MAXVA at *
  omega

/-- The size after growing by `n` bytes stays at or below `TRAPFRAME`, or the growth is eager and
    no more pages are free than it takes to map everything up to `TRAPFRAME`. -/
def Fits (p : Proc) (n : Int) (eager : Bool) (free : Nat) : Prop :=
  0 < n → p.sz + n ≤ TRAPFRAME ∨ (eager = true ∧ free ≤ pagesToTop p.pagetable p.sz)

theorem triple_sysSbrk {p : Proc} (h : Ok p) (n : BitVec 32) (eager : Bool) (k : Nat)
    (hfits : Fits p n.toInt eager k) :
    Triple may (Clean k) (sysSbrk p n eager) (fun r m => Sound m ∧ Ok r.1) := by
  have hmax := trapframe_le
  have hsize := h.size
  have hn : n.toInt < 2 ^ 31 := by
    have := BitVec.toInt_lt (x := n)
    simpa using this
  unfold sysSbrk
  refine Triple.ite (fun _ => ?_) fun hlazy => ?_
  · refine Triple.bind (R := fun r m => Sound m ∧ Ok r.1) ?_ fun r => Triple.assume fun hr =>
      Triple.ite (fun _ => Triple.pure _ fun m hm => ⟨hm, hr⟩) fun _ =>
        Triple.pure _ fun m hm => ⟨hm, hr⟩
    unfold growproc
    refine Triple.ite (fun hpos => ?_) fun hnonpos => ?_
    · refine Triple.bind (triple_uvmalloc h.vm hsize ?_) fun r => Triple.assume fun ⟨h0, hne⟩ => ?_
      · rw [addSz_of_pos (by omega) (by omega) hn]
        rcases hfits hpos with hle | ⟨-, hfree⟩
        · exact Or.inl (by omega)
        · exact Or.inr (Or.inl hfree)
      · refine Triple.ite (fun hz => Triple.pure _ fun m hm => ⟨hm, hsize, h0 hz⟩) fun hz => ?_
        exact Triple.pure _ fun m hm => ⟨hm, (hne hz).1, (hne hz).2⟩
    · refine Triple.ite (fun _ => ?_) fun _ => Triple.pure _ fun m hm => ⟨hm.unmapped, h⟩
      refine Triple.bind (Triple.conseq (triple_uvmdealloc h.vm hsize) (fun _ hm => hm.unmapped)
        fun _ _ hm => hm) fun r => Triple.assume fun ⟨hle, hvm, _⟩ => Triple.pure _ fun m hm => ?_
      exact ⟨hm, le_trans hle hsize, hvm⟩
  · refine Triple.ite (fun _ => Triple.pure _ fun m hm => ⟨hm.unmapped, h⟩) fun hwrap =>
      Triple.pure _ fun m hm => ⟨hm.unmapped, ?_⟩
    have hnn : 0 ≤ n.toInt := by
      by_contra hneg
      exact hlazy (Or.inr (by omega))
    have hle : addSz p.sz n.toInt ≤ TRAPFRAME := by
      rw [addSz_of_pos (by omega) hnn hn]
      by_cases hpos : 0 < n.toInt
      · rcases hfits hpos with hle | ⟨heager, -⟩
        · omega
        · exact absurd (Or.inl heager) hlazy
      · omega
    exact ⟨hle, h.vm.mono (by simp only; omega)⟩

/-! ## What `kexec` leaves -/

/-- Where a panic is allowed, the number of free pages does not matter. -/
theorem triple_uvmalloc_of_may {pt : PageTable} {oldsz newsz : Nat} {xperm : Perm}
    (h : UserVm pt oldsz) (hold : oldsz ≤ TRAPFRAME) :
    Triple (fun _ => True) Sound (uvmalloc pt oldsz newsz xperm) (fun r m => Sound m ∧
      (r.2 ≠ 0 → r.2 ≤ TRAPFRAME ∧ UserVm r.1 r.2)) := by
  intro m hm
  have htriple : Triple (fun _ => True) (Clean m.freelist.length)
      (uvmalloc pt oldsz newsz xperm) _ :=
    triple_uvmalloc h hold (Or.inr (Or.inr fun _ => trivial))
  have hx := htriple m ⟨le_rfl, hm⟩
  revert hx
  cases uvmalloc pt oldsz newsz xperm m with
  | error e => exact id
  | ok r => exact fun hr => ⟨hr.1, hr.2.2⟩

theorem triple_loadSegments (segments : List (Nat × Nat × Perm)) {pt : PageTable} {sz : Nat}
    (h : UserVm pt sz) (hsz : sz ≤ TRAPFRAME) :
    Triple (fun _ => True) Sound (loadSegments segments pt sz) (fun r m => Sound m ∧
      ∀ sz', r.2 = some sz' → sz' ≤ TRAPFRAME ∧ UserVm r.1 sz') := by
  induction segments generalizing pt sz with
  | nil =>
      refine Triple.pure _ fun m hm => ⟨hm, fun sz' he => ?_⟩
      rw [Option.some.injEq] at he
      subst he
      exact ⟨hsz, h⟩
  | cons segment rest ih =>
      obtain ⟨vaddr, memsz, perm⟩ := segment
      unfold loadSegments
      refine Triple.ite (fun _ => Triple.pure _ fun m hm => ⟨hm, by simp⟩) fun _ => ?_
      refine Triple.bind (triple_uvmalloc_of_may h hsz) fun r => Triple.assume fun hr => ?_
      refine Triple.ite (fun _ => Triple.pure _ fun m hm => ⟨hm, by simp⟩) fun hne => ?_
      exact ih (hr hne).2 (hr hne).1

theorem UserVm.setPte {pt : PageTable} {lim va : Nat} {e e' : Pte} (h : UserVm pt lim)
    (hva : va < MAXVA) (hs : slot pt va = some e) (hV : e'.V = e.V) (hR : e'.perm.R = e.perm.R) :
    UserVm (Vm.setPte pt va e') lim := by
  have hpa : pteAt pt va = e := by simp [pteAt, hs]
  have hsame : ∀ x, x < 2 ^ 39 → (pteAt (Vm.setPte pt va e') x).V = (pteAt pt x).V ∧
      (pteAt (Vm.setPte pt va e') x).perm.R = (pteAt pt x).perm.R := by
    intro x hx
    by_cases hd : x / PGSIZE = va / PGSIZE
    · rw [pteAt_congr hd, pteAt_setPte_self hs, pteAt_congr hd, hpa]
      exact ⟨hV, hR⟩
    · rw [pteAt_setPte_of_ne (maxva_lt hva) hx hd]
      exact ⟨rfl, rfl⟩
  refine ⟨fun x hx hv => ?_, fun x hx hv => ?_, ?_⟩
  · rw [(hsame x hx).1] at hv
    rw [(hsame x hx).2]
    exact h.leafy x hx hv
  · rw [(hsame x hx).1] at hv
    exact h.below x hx hv
  · rw [(hsame TRAPFRAME (by decide)).1]
    exact h.trapframe

theorem triple_uvmclear {pt : PageTable} {lim va : Nat} (h : UserVm pt lim) (hva : va < MAXVA) :
    Triple (fun _ => True) Sound (uvmclear pt va) (fun r m => Sound m ∧ UserVm r lim) := by
  unfold uvmclear
  refine Triple.bind (triple_sound fun k => triple_walk k pt hva false) fun w =>
    Triple.assume fun ⟨_, hslot, _, hw⟩ => ?_
  cases he : w.2 with
  | none => exact Triple.throw _ fun _ _ => trivial
  | some pte =>
      refine Triple.pure _ fun m hm => ⟨hm, ?_⟩
      have hs := hslot pte he
      rw [hw rfl] at hs
      exact h.setPte hva hs rfl rfl

theorem triple_kexec (trapframe trampoline : Nat) (segments : List (Nat × Nat × Perm)) :
    Triple (fun _ => True) Sound (kexec trapframe trampoline segments) (fun r m => Sound m ∧
      ∀ q, r = some q → Ok q) := by
  have hmax := trapframe_le
  unfold kexec
  refine Triple.bind (triple_procPagetable trapframe trampoline) fun r =>
    Triple.assume fun hr => ?_
  cases r with
  | none => exact Triple.pure _ fun m hm => ⟨hm, by simp⟩
  | some rp =>
      obtain ⟨root, pt⟩ := rp
      refine Triple.bind (triple_loadSegments segments (hr root pt rfl) (Nat.zero_le _)) fun r =>
        Triple.assume fun hload => ?_
      cases hsz : r.2 with
      | none => exact Triple.pure _ fun m hm => ⟨hm, by simp⟩
      | some sz =>
          obtain ⟨hle, hvm⟩ := hload sz hsz
          have hup : PGROUNDUP sz ≤ TRAPFRAME := pgroundup_le hle hmax trapframe_mod
          refine Triple.bind (triple_uvmalloc_of_may (hvm.mono (le_pgroundup (by omega))) hup)
            fun r => Triple.assume fun hstack => ?_
          refine Triple.ite (fun _ => Triple.pure _ fun m hm => ⟨hm, by simp⟩) fun hne => ?_
          obtain ⟨hle', hvm'⟩ := hstack hne
          generalize hva : r.2 - (USERSTACK + 1) * PGSIZE = va
          have hlt : va < MAXVA := by
            have : TRAPFRAME < MAXVA := by decide
            have : va ≤ r.2 := by
              rw [← hva]
              exact Nat.sub_le ..
            omega
          refine Triple.bind (triple_uvmclear hvm' hlt) fun pt => Triple.assume fun hpt =>
            Triple.pure _ fun m hm => ⟨hm, ?_⟩
          rintro q he
          rw [Option.some.injEq] at he
          subst he
          exact ⟨hle', hpt⟩

end Xv6.Vm
