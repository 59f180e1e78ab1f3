import Xv6.Eager.Tables

set_option autoImplicit false

/-! # Growing, shrinking and copying

A user page table maps the addresses below a limit and the two pages at the top. Every function that
changes one ends with such a table again, and the pages that it has taken are in the table or have been
given back: `T` is what is free and what the table has, together. -/

namespace Xv6.Eager

open Xv6.Lib Xv6.Vm

variable {pt pt' old new : PageTable} {a lim : Nat} {m m' : Mem} {T : Multiset Nat} {xperm : Perm}

/-- The addresses below `lim`, and those of `TRAPFRAME` and `TRAMPOLINE`. -/
def space (lim : Nat) : Set Nat := {x | x < lim ∨ TRAPFRAME ≤ x ∧ x < MAXVA}

structure Space (pt : PageTable) (lim : Nat) : Prop where
  maps : Maps pt (space lim)
  aligned : lim % PGSIZE = 0
  below : lim ≤ TRAPFRAME

/-- The pages of the tables, and those mapped below `lim`. -/
def owned (pt : PageTable) (lim : Nat) : Multiset Nat := tables pt + leaves pt 0 (lim / PGSIZE)

/-- The entries below `lim` and at the top are the same. -/
def Agree (pt pt' : PageTable) (lim : Nat) : Prop :=
  ∀ x, x < 2 ^ 39 → x < lim ∨ TRAPFRAME ≤ x → pteAt pt' x = pteAt pt x

/-- The table `pt` has become `pt'` with limit `lim'`, and is the same below `lim`. -/
structure Resized (T : Multiset Nat) (pt : PageTable) (lim : Nat) (pt' : PageTable) (lim' : Nat) (m : Mem) : Prop where
  space : Space pt' lim'
  pages : m.free + owned pt' lim' = T
  agree : Agree pt pt' lim

/-- User code may use the pages below `lim`. -/
def Users (pt : PageTable) (lim : Nat) : Prop := ∀ x, x < lim → (pteAt pt x).perm.U = true

theorem Agree.refl (pt : PageTable) (lim : Nat) : Agree pt pt lim := fun _ _ _ => rfl

theorem Agree.trans {pt'' : PageTable} {lim' : Nat} (h : Agree pt pt' lim) (h' : Agree pt' pt'' lim')
    (hle : lim ≤ lim') : Agree pt pt'' lim :=
  fun x hx hor => (h' x hx (hor.imp_left fun hlt => Nat.lt_of_lt_of_le hlt hle)).trans (h x hx hor)

theorem below_maxva {x : Nat} (hx : x ≤ TRAPFRAME) : x < MAXVA := Nat.lt_of_le_of_lt hx (by decide)

theorem leaves_add (pt : PageTable) (a k n : Nat) :
    leaves pt a (k + n) = leaves pt a k + leaves pt (a + k * PGSIZE) n := by
  unfold leaves
  rw [Finset.sum_range_add]
  congr 1
  refine Finset.sum_congr rfl fun i _ => ?_
  rw [Nat.add_mul, Nat.add_assoc]

/-- Only the entries below the limit count. -/
theorem leaves_agree (h : Agree pt pt' lim) {n : Nat} (hn : n * PGSIZE ≤ lim) (hlim : lim ≤ TRAPFRAME) :
    leaves pt' 0 n = leaves pt 0 n := by
  refine Copy.leaves_congr fun k hk => ?_
  have hlt := Nat.mul_lt_mul_of_pos_right hk Copy.pgsize_pos
  exact h _ (maxva_lt (below_maxva (by omega))) (Or.inl (by omega))

theorem mul_div_aligned (h : lim % PGSIZE = 0) : lim / PGSIZE * PGSIZE = lim :=
  Nat.div_mul_cancel (Nat.dvd_of_mod_eq_zero h)

/-- As many pages as there are below the limit. -/
theorem Space.card_leaves (h : Space pt lim) : (leaves pt 0 (lim / PGSIZE)).card = lim / PGSIZE := by
  have hone : ∀ k ∈ Finset.range (lim / PGSIZE), (leafAt pt (0 + k * PGSIZE)).card = 1 := by
    intro k hk
    have hlt := Nat.mul_lt_mul_of_pos_right (Finset.mem_range.1 hk) Copy.pgsize_pos
    rw [mul_div_aligned h.aligned] at hlt
    have hbelow := h.below
    rw [Nat.zero_add, leafAt, if_pos ((h.maps.mapped _ (maxva_lt (below_maxva (by omega)))).2 (Or.inl hlt))]
    rfl
  unfold leaves
  rw [Multiset.card_sum, Finset.sum_congr rfl hone, Finset.sum_const, Finset.card_range, smul_eq_mul, Nat.mul_one]

/-- The pages from `lo` up to the limit have been unmapped. -/
theorem Space.shrink {lo n : Nat} (h : Space pt lim) (hlo : lo % PGSIZE = 0) (hn : lo + n * PGSIZE = lim)
    (hpages : m.free + owned pt lim = T) (hgone : Gone pt m lo n true pt' m') : Resized T pt lo pt' lo m' := by
  have hbelow := h.below
  have hle : lo ≤ lim := by omega
  have hagree : Agree pt pt' lo := fun x hx hor => hgone.unmapped.outside x hx (by omega)
  refine ⟨⟨(h.maps.unmapped hgone.unmapped).congr fun x hx => ?_, hlo, by omega⟩, ?_, hagree⟩
  · rw [hn]
    constructor
    · rintro ⟨hx' | hx', hout⟩
      · exact Or.inl (Nat.lt_of_not_le fun hle => hout ⟨hle, hx'⟩)
      · exact Or.inr hx'
    · rintro (hx' | hx')
      · exact ⟨Or.inl (by omega), fun hin => by have := hin.1; omega⟩
      · exact ⟨Or.inr hx', fun hin => by have := hin.2; omega⟩
  · have hsplit : lim / PGSIZE = lo / PGSIZE + n := by
      rw [← hn, Nat.add_mul_div_right _ _ Copy.pgsize_pos]
    have hsame := leaves_agree hagree (n := lo / PGSIZE) (by rw [mul_div_aligned hlo]) (by omega)
    rw [← hpages, owned, owned, hgone.tables, hgone.free, hsame, hsplit, leaves_add, Nat.zero_add,
      mul_div_aligned hlo, if_pos rfl]
    abel

/-- The page at the limit has been mapped. -/
theorem Space.grow {pa : Nat} {perm : Perm} {r : PageTable × Int} (h : Space pt lim) (hlt : lim < TRAPFRAME)
    (hR : perm.R = true) (hr : Mapped pt m lim pa perm r m') (h0 : r.2 = 0) (hpages : m.free + {pa} + owned pt lim = T) :
    Resized T pt lim r.1 (lim + PGSIZE) m' ∧ ∀ x, lim ≤ x → x < lim + PGSIZE → pteAt r.1 x = ⟨true, perm, pa⟩ := by
  obtain ⟨hnew, hrest⟩ := hr.ok h0
  have hmod := h.aligned
  have htop : TRAPFRAME % PGSIZE = 0 := trapframe_mod
  have hle : lim + PGSIZE ≤ TRAPFRAME := by
    unfold PGSIZE at *
    omega
  have hagree : Agree pt r.1 lim := fun x hx hor => hrest x hx (div_ne_of_aligned hmod (by omega))
  have hpage : ∀ x, lim ≤ x → x < lim + PGSIZE → pteAt r.1 x = ⟨true, perm, pa⟩ := fun x hlo hhi => by
    rw [pteAt_congr (div_eq_of_aligned hmod hlo hhi), hnew]
  refine ⟨⟨⟨(hr.maps h.maps hmod h0 hR).congr fun x hx => ?_, by rw [Nat.add_mod_right, hmod], hle⟩, ?_, hagree⟩, hpage⟩
  · constructor
    · rintro ((hx' | hx') | hx')
      · exact Or.inl (by omega)
      · exact Or.inr hx'
      · exact Or.inl hx'.2
    · rintro (hx' | hx')
      · by_cases hx'' : x < lim
        · exact Or.inl (Or.inl hx'')
        · exact Or.inr ⟨by omega, hx'⟩
      · exact Or.inl (Or.inr hx')
  · have hdiv : (lim + PGSIZE) / PGSIZE = lim / PGSIZE + 1 := Nat.add_div_right _ Copy.pgsize_pos
    have hsame := leaves_agree hagree (n := lim / PGSIZE) (by rw [mul_div_aligned hmod]) h.below
    have hleaf : leafAt r.1 lim = {pa} := by rw [leafAt, hnew, if_pos rfl]
    rw [← hpages, owned, owned, hdiv, Copy.leaves_last, hsame, Nat.zero_add, mul_div_aligned hmod, hleaf]
    calc m'.free + (tables r.1 + (leaves pt 0 (lim / PGSIZE) + {pa}))
        = m'.free + tables r.1 + (leaves pt 0 (lim / PGSIZE) + {pa}) := by rw [add_assoc]
      _ = m.free + tables pt + (leaves pt 0 (lim / PGSIZE) + {pa}) := by rw [hr.frames]
      _ = m.free + {pa} + (tables pt + leaves pt 0 (lim / PGSIZE)) := by abel

/-- Nothing has been mapped, but there may be new tables. -/
theorem Space.stay {pa : Nat} {perm : Perm} {va : Nat} {r : PageTable × Int} (h : Space pt lim)
    (hr : Mapped pt m va pa perm r m') (h0 : r.2 ≠ 0) {X : Multiset Nat} (hpages : m.free + X + owned pt lim = T) :
    Space r.1 lim ∧ m'.free + X + owned r.1 lim = T := by
  have hsame := hr.failed h0
  refine ⟨⟨h.maps.of_same hsame, h.aligned, h.below⟩, ?_⟩
  have hleaves : leaves r.1 0 (lim / PGSIZE) = leaves pt 0 (lim / PGSIZE) := Copy.leaves_congr fun k _ => hsame _
  rw [← hpages, owned, owned, hleaves]
  calc m'.free + X + (tables r.1 + leaves pt 0 (lim / PGSIZE))
      = m'.free + tables r.1 + (X + leaves pt 0 (lim / PGSIZE)) := by abel
    _ = m.free + tables pt + (X + leaves pt 0 (lim / PGSIZE)) := by rw [hr.frames]
    _ = m.free + X + (tables pt + leaves pt 0 (lim / PGSIZE)) := by abel

/-! ## `kalloc` and `kfree` -/

theorem kalloc_free (m₀ : Mem) : Safe (fun m => m = m₀) (onVm kalloc) fun o m =>
    (o = none → m = m₀) ∧ ∀ pa, o = some pa → m.free + {pa} = m₀.free := by
  refine safe_onVm ((kalloc_took m₀).conseq (fun _ h => h) fun o m h => ?_)
  rcases h with ⟨rfl, rfl⟩ | ⟨pa, rfl, htook, -⟩
  · exact ⟨fun _ => rfl, by simp⟩
  · refine ⟨by simp, fun pa' he => ?_⟩
    obtain rfl := Option.some.inj he
    exact htook.free.symm

theorem safe_kfree (pa : Nat) (T : Multiset Nat) :
    Safe (fun m => m.free + {pa} = T) (onVm (kfree pa)) fun _ m => m.free = T :=
  safe_onVm (Triple.of_ok fun m hm => kfree_free pa m hm)

/-! ## `uvmdealloc` and `uvmalloc` -/

theorem int_of_small {x : Nat} (h : x < 2 ^ 31) : int x = x := by
  unfold int
  have hmsb : (BitVec.ofNat 32 x).msb = false := by
    rw [BitVec.msb_eq_false_iff_two_mul_lt, BitVec.toNat_ofNat, Nat.mod_eq_of_lt (by omega)]
    omega
  rw [BitVec.signExtend_eq_setWidth_of_msb_false hmsb, BitVec.toNat_setWidth, BitVec.toNat_ofNat]
  omega

theorem le_maxva {x : Nat} (h : x ≤ TRAPFRAME) : x ≤ MAXVA := Nat.le_trans h trapframe_le

theorem pgroundup_le_top {sz : Nat} (h : sz ≤ TRAPFRAME) : PGROUNDUP sz ≤ TRAPFRAME :=
  pgroundup_le h trapframe_le trapframe_mod

theorem uvmdealloc_space {oldsz : Nat} (h : Space pt (PGROUNDUP oldsz)) (hold : oldsz ≤ TRAPFRAME) (newsz : Nat)
    (T : Multiset Nat) : Safe (fun m => m.free + owned pt (PGROUNDUP oldsz) = T) (uvmdealloc pt oldsz newsz) fun r m =>
      r.2 = (if oldsz ≤ newsz then oldsz else newsz) ∧ Resized T pt (PGROUNDUP r.2) r.1 (PGROUNDUP r.2) m := by
  unfold uvmdealloc
  refine Triple.ite (fun hle => Triple.pure _ fun m hm => ?_) fun hlt => ?_
  · rw [if_pos hle]
    exact ⟨rfl, h, hm, Agree.refl _ _⟩
  rw [if_neg hlt]
  have hmono : PGROUNDUP newsz ≤ PGROUNDUP oldsz := pgroundup_mono (by omega) (le_maxva hold)
  refine Triple.ite (fun hr => ?_) fun hr => Triple.pure _ fun m hm => ?_
  · have htop := pgroundup_le_top hold
    have hnew := pgroundup_mod newsz
    have hmod := pgroundup_mod oldsz
    have hsmall : (PGROUNDUP oldsz - PGROUNDUP newsz) / PGSIZE < 2 ^ 31 := by
      have hmax : TRAPFRAME = 2 ^ 38 - 8192 := by decide
      unfold PGSIZE at *
      omega
    have hn : PGROUNDUP newsz + (PGROUNDUP oldsz - PGROUNDUP newsz) / PGSIZE * PGSIZE = PGROUNDUP oldsz := by
      unfold PGSIZE at *
      omega
    rw [int_of_small hsmall]
    refine Triple.each fun m hm => ?_
    refine Triple.bind (uvmunmap_gone true _ h.maps hnew (by rw [hn]; exact le_maxva htop) (fun x hx => ?_) m) fun pt' =>
      Triple.pure _ fun m' hgone => ⟨rfl, h.shrink hnew hn hm hgone⟩
    rw [hn] at hx
    exact Or.inl hx.2
  · have heq : PGROUNDUP newsz = PGROUNDUP oldsz := by omega
    refine ⟨rfl, ?_⟩
    simp only [heq]
    exact ⟨h, hm, Agree.refl _ _⟩

/-- The end of `uvmalloc` where memory has run out. -/
theorem uvmdealloc_back {start : Nat} {pt₀ : PageTable} (h : Space pt a) (hstart : start % PGSIZE = 0) (hle : start ≤ a)
    (hagree : Agree pt₀ pt start) (T : Multiset Nat) :
    Safe (fun m => m.free + owned pt a = T) (uvmdealloc pt a start) fun r m => Resized T pt₀ start r.1 start m := by
  have hround : PGROUNDUP a = a := pgroundup_of_aligned (le_maxva h.below) h.aligned
  have hround' : PGROUNDUP start = start := pgroundup_of_aligned (le_maxva (Nat.le_trans hle h.below)) hstart
  have hspec := @uvmdealloc_space pt a (by rw [hround]; exact h) h.below start T
  rw [hround] at hspec
  refine hspec.conseq (fun _ hm => hm) fun r m hm => ?_
  obtain ⟨hr, hres⟩ := hm
  have hr2 : r.2 = start := by
    rw [hr]
    split <;> omega
  rw [hr2, hround'] at hres
  exact ⟨hres.space, hres.pages, hagree.trans hres.agree (Nat.le_refl _)⟩

/-- The loop gets no further than memory reaches, which is less far than the trapframe. -/
theorem uvmallocLoop_space {start : Nat} {pt₀ : PageTable} (n : Nat) (h : Space pt a) (hstart : start % PGSIZE = 0)
    (hle : start ≤ a) (hagree : Agree pt₀ pt start) (hfew : T.card < TRAPFRAME / PGSIZE) :
    Safe (fun m => m.free + owned pt a = T) (uvmallocLoop xperm start n pt a) fun r m =>
      (r.2 = true → Resized T pt₀ start r.1 (a + n * PGSIZE) m ∧ (Users pt a → Users r.1 (a + n * PGSIZE))) ∧
      (r.2 = false → Resized T pt₀ start r.1 start m) := by
  induction n generalizing pt a with
  | zero =>
      refine Triple.pure _ fun m hm => ⟨fun _ => ?_, Bool.noConfusion⟩
      rw [Nat.zero_mul, Nat.add_zero]
      exact ⟨⟨h, hm, hagree⟩, id⟩
  | succ n ih =>
      refine Triple.each fun m₀ hm₀ => Triple.bind (kalloc_free m₀) fun o => ?_
      cases o with
      | none =>
          refine Triple.conseq (Triple.bind (uvmdealloc_back h hstart hle hagree T) fun r =>
            Triple.pure _ fun m hm => ⟨Bool.noConfusion, fun _ => hm⟩) (fun m hm => ?_) fun _ _ hm => hm
          rw [hm.1 rfl]
          exact hm₀
      | some mem =>
          refine Triple.each fun m₁ hm₁ => ?_
          have hfree := hm₁.2 mem rfl
          have hpages : m₁.free + {mem} + owned pt a = T := by rw [hfree, hm₀]
          -- there is a page left for each page so far
          have hlt : a < TRAPFRAME := by
            have hcard := congrArg Multiset.card hpages
            rw [owned, Multiset.card_add, Multiset.card_add, Multiset.card_add, h.card_leaves,
              Multiset.card_singleton] at hcard
            have hmod := h.aligned
            unfold PGSIZE at *
            omega
          have hout : a ∉ space a := by
            rintro (hlt' | ⟨hge, -⟩)
            · exact Nat.lt_irrefl a hlt'
            · omega
          refine Triple.bind (mappages_mapped mem _ (below_maxva h.below) h.aligned h.maps hout m₁) fun r =>
            Triple.ite (fun hfail => ?_) fun hok => ?_
          · refine Triple.conseq (P := fun m => m.free + {mem} + owned r.1 a = T ∧ Space r.1 a ∧ Agree pt₀ r.1 start) ?_
              (fun m hr => ?_) fun _ _ hm => hm
            · refine Triple.each fun m hm => ?_
              obtain ⟨hpages', hspace, hagree'⟩ := hm
              refine Triple.bind (R := fun _ m => m.free + owned r.1 a = T) ?_ fun _ => Triple.bind
                (uvmdealloc_back hspace hstart hle hagree' T) fun r' => Triple.pure _ fun m hm =>
                  ⟨Bool.noConfusion, fun _ => hm⟩
              refine (safe_kfree mem (m.free + {mem})).conseq (fun m' hm' => by rw [hm']) fun _ m' hm' => ?_
              rw [hm', hpages']
            · obtain ⟨hspace, hpages'⟩ := h.stay hr hfail hpages
              exact ⟨hpages', hspace, fun x hx hor => (hr.failed hfail x).trans (hagree x hx hor)⟩
          · have h0 : r.2 = 0 := not_not.1 hok
            have hsum := Copy.next_page a n
            refine Triple.each fun m hr => ?_
            obtain ⟨hres, hpage⟩ := h.grow hlt rfl hr h0 hpages
            have hrest := ih hres.space (by omega) (hagree.trans hres.agree hle)
            rw [hsum]
            refine hrest.conseq (fun m' hm' => by rw [hm']; exact hres.pages) fun r' m' hm' => ⟨fun ht => ?_, hm'.2⟩
            obtain ⟨hres', husers⟩ := hm'.1 ht
            refine ⟨hres', fun hu => husers fun x hx => ?_⟩
            by_cases hxa : x < a
            · have hbelow := h.below
              rw [hres.agree x (maxva_lt (below_maxva (by omega))) (Or.inl hxa)]
              exact hu x hxa
            · rw [hpage x (by omega) hx]

theorem uvmalloc_space {oldsz newsz : Nat} (h : Space pt (PGROUNDUP oldsz)) (hold : oldsz ≤ TRAPFRAME)
    (hfew : T.card < TRAPFRAME / PGSIZE) : Safe (fun m => m.free + owned pt (PGROUNDUP oldsz) = T)
      (uvmalloc pt oldsz newsz xperm) fun r m =>
      (r.2 = 0 → Resized T pt (PGROUNDUP oldsz) r.1 (PGROUNDUP oldsz) m) ∧
      (r.2 ≠ 0 → r.2 = max oldsz newsz ∧ r.2 ≤ TRAPFRAME ∧ Resized T pt (PGROUNDUP oldsz) r.1 (PGROUNDUP r.2) m ∧
        (Users pt (PGROUNDUP oldsz) → Users r.1 (PGROUNDUP r.2))) := by
  unfold uvmalloc
  refine Triple.ite (fun hlt => Triple.pure _ fun m hm => ?_) fun hge => ?_
  · exact ⟨fun _ => ⟨h, hm, Agree.refl _ _⟩, fun _ => ⟨(Nat.max_eq_left (Nat.le_of_lt hlt)).symm, hold,
      ⟨h, hm, Agree.refl _ _⟩, id⟩⟩
  have hmod := pgroundup_mod oldsz
  have hle : oldsz ≤ PGROUNDUP oldsz := le_pgroundup (le_maxva hold)
  refine Triple.bind (uvmallocLoop_space _ h hmod (Nat.le_refl _) (Agree.refl _ _) hfew) fun r =>
    Triple.pure _ fun m hm => ?_
  cases hr : r.2 with
  | false => exact ⟨fun _ => hm.2 hr, fun hne => absurd (by simp) hne⟩
  | true =>
      obtain ⟨hres, husers⟩ := hm.1 hr
      have hend := hres.space.below
      have hnew : newsz ≤ TRAPFRAME := by
        unfold PGSIZE at *
        omega
      have hmono : PGROUNDUP oldsz ≤ PGROUNDUP newsz := pgroundup_mono (by omega) (le_maxva hnew)
      rw [pages_eq hmod (le_maxva hnew) hmono] at hres husers
      have hmax : max oldsz newsz = newsz := Nat.max_eq_right (by omega)
      refine ⟨fun h0 => ?_, fun _ => ⟨hmax.symm, hnew, hres, husers⟩⟩
      -- a program of no size
      have hzero : newsz = 0 := h0
      have hold0 : oldsz = newsz := by omega
      rw [hold0]
      rw [hold0] at hres
      exact hres

/-! ## `uvmcopy` -/

/-- The copy has been given up. -/
theorem uvmunmap_back (h : Space new a) (T : Multiset Nat) :
    Safe (fun m => m.free + owned new a = T) (uvmunmap new 0 (a / PGSIZE) true) fun r m =>
      Space r 0 ∧ m.free + owned r 0 = T := by
  refine Triple.each fun m hm => ?_
  have hn : 0 + a / PGSIZE * PGSIZE = a := by rw [Nat.zero_add, mul_div_aligned h.aligned]
  refine (uvmunmap_gone true _ h.maps (Nat.zero_mod _) (by rw [hn]; exact le_maxva h.below) (fun x hx => ?_) m).conseq
    (fun _ hm => hm) fun r m' hgone => ?_
  · rw [hn] at hx
    exact Or.inl hx.2
  · have hres := h.shrink (Nat.zero_mod _) hn hm hgone
    exact ⟨hres.space, hres.pages⟩

theorem uvmcopyLoop_space (n : Nat) (hold : Space old lim) (h : Space new a) (hle : a + n * PGSIZE ≤ lim) :
    Safe (fun m => m.free + owned new a = T) (uvmcopyLoop old n new a) fun r m =>
      (0 ≤ r.2 → Space r.1 (a + n * PGSIZE) ∧ m.free + owned r.1 (a + n * PGSIZE) = T) ∧
      (r.2 < 0 → Space r.1 0 ∧ m.free + owned r.1 0 = T) := by
  induction n generalizing new a with
  | zero =>
      refine Triple.pure _ fun m hm => ⟨fun _ => ?_, fun hneg => absurd hneg (by simp)⟩
      rw [Nat.zero_mul, Nat.add_zero]
      exact ⟨h, hm⟩
  | succ n ih =>
      have hP := Copy.pgsize_pos
      have hsum := Copy.next_page a n
      have hlim := hold.below
      have ha : a < lim := by omega
      obtain ⟨pte, hs, -, hv, hR⟩ := hold.maps.slot (below_maxva (by omega)) (Or.inl ha)
      have hgive : ∀ pt : PageTable, Space pt a → Safe (fun m => m.free + owned pt a = T) (do
          let new ← uvmunmap pt 0 (a / PGSIZE) true
          pure (new, (-1 : Int))) fun r m => (0 ≤ r.2 → Space r.1 (a + (n + 1) * PGSIZE) ∧
            m.free + owned r.1 (a + (n + 1) * PGSIZE) = T) ∧ (r.2 < 0 → Space r.1 0 ∧ m.free + owned r.1 0 = T) :=
        fun pt hpt => Triple.bind (uvmunmap_back hpt T) fun r => Triple.pure _ fun m hm =>
          ⟨fun hpos => absurd hpos (by simp), fun _ => hm⟩
      unfold uvmcopyLoop
      refine Triple.each fun m₀ hm₀ => ?_
      refine Triple.bind (R := fun r m => r.2 = some pte ∧ m = m₀) (safe_eq fun m hm => ⟨_, _,
        onVm_walk (below_maxva (by omega)) old m, hs, hm⟩) fun r => ?_
      refine Triple.each fun m₁ hm₁ => ?_
      obtain ⟨hr, rfl⟩ := hm₁
      rw [hr]
      refine Triple.ite (fun hinv => ?_) fun _ => ?_
      · rw [hv] at hinv
        cases hinv
      refine Triple.bind (kalloc_free m₁) fun o => ?_
      cases o with
      | none => exact (hgive new h).conseq (fun m hm => by rw [hm.1 rfl]; exact hm₀) fun _ _ hm => hm
      | some mem =>
          refine Triple.each fun m₂ hm₂ => ?_
          have hpages : m₂.free + {mem} + owned new a = T := by rw [hm₂.2 mem rfl, hm₀]
          have hout : a ∉ space a := by
            rintro (hlt' | ⟨hge, -⟩)
            · exact Nat.lt_irrefl a hlt'
            · omega
          refine Triple.bind (mappages_mapped mem pte.perm (below_maxva h.below) h.aligned h.maps hout m₂) fun r =>
            Triple.ite (fun hfail => ?_) fun hok => ?_
          · refine Triple.each fun m₃ hr => ?_
            obtain ⟨hspace, hpages'⟩ := h.stay hr hfail hpages
            refine Triple.bind ((safe_kfree mem (m₃.free + {mem})).conseq (fun m hm => by rw [hm]) fun _ _ hm => hm)
              fun _ => (hgive r.1 hspace).conseq (fun m hm => ?_) fun _ _ hm => hm
            rw [hm, hpages']
          · have h0 : r.2 = 0 := not_not.1 hok
            refine Triple.each fun m₃ hr => ?_
            obtain ⟨hres, -⟩ := h.grow (by omega) hR hr h0 hpages
            rw [hsum]
            exact (ih hres.space (by omega)).conseq (fun m hm => by rw [hm]; exact hres.pages) fun _ _ hm => hm

end Xv6.Eager
