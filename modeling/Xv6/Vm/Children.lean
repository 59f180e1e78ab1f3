import Xv6.Vm.Processes

set_option autoImplicit false

/-! # Two pools

A pool is a part of a larger one, and code that runs in one of two pools leaves the other as it is. With that `kfork` is
taken apart: the new page table is made in the pool of the free pages, `uvmcopy` works on the pages of two
processes, and
what a failed `fork` frees goes back to the free pages. -/

namespace Xv6.Vm.Copy

open Xv6.Lib
open Xv6.Eager (owned mul_div_aligned below_maxva le_maxva pgroundup_le_top)

variable {T T' X X' Y Z : Multiset Nat} {b₀ b₁ : Nat → Byte} {top : Nat → Pte} {pt : PageTable}
    {lim trampoline : Nat} {p q : Proc}
  {u : UserMem} {sh sh' : Bool} {r s : Ram}

/-! ## Parts of a pool -/

theorem At.part (h : At T b₀ top (X + Z) pt lim u sh r) :
    At (r.mem.free + X + owned pt lim) r.byte top X pt lim u sh r :=
  ⟨h.space, rfl, Within.refl _ _, h.view, h.short⟩

theorem At.part_le (h : At T b₀ top (X + Z) pt lim u sh r) : r.mem.free + X + owned pt lim ≤ T := by
  rw [← h.pages, ← add_assoc, add_right_comm _ Z]
  exact Multiset.le_add_right ..

/-- The part again, in the whole. -/
theorem At.widen (h : At T' b₁ top X pt lim u sh r) (hT : T' + Z = T) (hwithin : Within T b₀ b₁) :
    At T b₀ top (X + Z) pt lim u sh r := by
  refine ⟨h.space, ?_, hwithin.trans (h.within.mono fun pa hpa => ?_), h.view, h.short⟩
  · rw [← hT, ← h.pages]
    abel
  · rw [← hT]
    exact Multiset.mem_add.2 (.inl hpa)

theorem Holds.part_add (h : Holds T b₀ trampoline X p u sh r) : r.mem.free + held p + X = T := by
  rw [← h.pool.pages]
  abel

/-- Code with a pool of its own has run. -/
theorem Holds.frame (hT : Frames T) (h : Holds T b₀ trampoline (X + Y) p u sh r)
    (hpool : Pool (r.mem.free + Y) r.byte X' sh' s) :
    Holds T b₀ trampoline (X + X') p u sh' s := by
  refine ⟨h.size, ?_⟩
  have hspace := h.space
  rw [show X + Y + {p.trapframe} + {p.root} = X + {p.trapframe} + {p.root} + Y by abel] at hspace
  rw [show X + X' + {p.trapframe} + {p.root} = X + {p.trapframe} + {p.root} + X' by abel]
  exact hspace.frame hT hpool.pages hpool.within hpool.short

/-! ## `uvmcopy` -/

theorem kalloc_short : Triple (fun _ => True) (fun r => sh = true → r.short = true) kalloc
    (Cases (fun r => r.short = true) fun _ r => sh = true → r.short = true) := by
  refine Triple.of_ok fun r h => ?_
  cases hfree : r.mem.freelist with
  | nil => exact ⟨_, _, kalloc_nil hfree, rfl⟩
  | cons pa rest => exact ⟨_, _, kalloc_cons hfree, h⟩

/-- Where the code gives up, `kalloc` has returned 0. -/
theorem uvmcopyLoop_short (n : Nat) (old new : PageTable) (i : Nat) :
    Triple (fun _ => True) (fun r => sh = true → r.short = true) (uvmcopyLoop n old new i) fun q r =>
      (sh = true → r.short = true) ∧ (q.2.2 ≠ 0 → r.short = true) := by
  -- the pages copied so far are freed
  have hundo : ∀ (old new : PageTable) (j : Nat), Triple (fun _ => True) (fun r => r.short = true)
      (do let new ← uvmunmap new 0 j true; pure (old, new, (-1 : Int))) fun q r =>
      (sh = true → r.short = true) ∧ (q.2.2 ≠ 0 → r.short = true) := fun old new j =>
    Triple.bind ((uvmunmap_short new 0 j true : Triple _ (fun r => true = true → r.short = true) _ _).conseq
    (fun _ h _ => h)
      fun _ _ h => h rfl) fun _ =>
      Triple.pure _ fun _ h => ⟨fun _ => h, fun _ => h⟩
  induction n generalizing old new i with
  | zero => exact Triple.pure _ fun _ h => ⟨h, fun hne => absurd rfl hne⟩
  | succ n ih =>
    unfold uvmcopyLoop
    refine Triple.bind (onMem_short _) fun w => ?_
    cases w.2 with
    | none => exact ih _ _ _
    | some pte =>
      refine Triple.ite (fun _ => ih _ _ _) fun _ => ?_
      refine Triple.bind kalloc_short fun o => ?_
      cases o with
      | none => exact hundo w.1 new _
      | some mem =>
        show Triple _ (fun r : Ram => sh = true → r.short = true) _ _
        refine Triple.bind (R := fun _ r => sh = true → r.short = true)
          (Triple.of_ok fun r h => ⟨_, _, load_eq pte.pa r, h⟩)
          fun bytes => ?_
        refine Triple.bind (R := fun _ r => sh = true → r.short = true)
          (Triple.of_ok fun r h => ⟨_, _, memmove_eq .., h⟩) fun _ => ?_
        refine Triple.bind (mappages_short new i PGSIZE mem pte.perm) fun m => ?_
        refine Triple.ite (fun hfail => ?_) fun _ => (ih w.1 m.1 (i + PGSIZE)).conseq (fun _ h => h.1) fun _ _ h => h
        exact Triple.bind (R := fun _ r => r.short = true)
          (Triple.of_ok fun r h => ⟨_, _, kfree_eq mem r, h.2 hfail⟩) fun _ => hundo w.1 m.1 _

/-- The trampoline is a page of the kernel. -/
structure Trampoline (T : Multiset Nat) (trampoline : Nat) : Prop where
  nonzero : trampoline ≠ 0
  page : trampoline % PGSIZE = 0
  apart : trampoline ∉ T

theorem Holds.allocated (hT : Frames T) (htr : Trampoline T trampoline) (h : Holds T b₀ trampoline X p u sh r) :
    Allocated p.pagetable r.mem := by
  have hpages := h.space.pages ▸ hT.nodup
  rw [add_assoc, Multiset.nodup_add, Multiset.disjoint_left] at hpages
  obtain ⟨hfree, -, happart⟩ := hpages
  have hframe : p.trapframe ∈ X + {p.trapframe} + {p.root} := by simp
  refine ⟨Multiset.coe_nodup.1 hfree, fun pa hpa => (hT.page pa (h.space.mem_of_free hpa)).2, fun va hmax hv => ?_,
    fun va hmax hv hin => ?_, fun pa hpa hin => ?_⟩
  · rcases h.leaf_cases hmax hv with hlim | he | he
    · exact (hT.page _ (h.space.mem_of_leaf hlim hv)).2
    · rw [he]
      exact (hT.page _ (h.space.mem_of_held hframe)).2
    · rw [he]
      exact htr.page
  · rcases h.leaf_cases hmax hv with hlim | he | he
    · exact h.space.leaf_not hT.nodup hlim hv (Multiset.mem_add.2 (.inl (Multiset.mem_coe.2 hin)))
    · rw [he] at hin
      exact happart (Multiset.mem_coe.2 hin) (Multiset.mem_add.2 (.inl hframe))
    · rw [he] at hin
      exact htr.apart (h.space.mem_of_free hin)
  · refine happart (Multiset.mem_coe.2 hin) (Multiset.mem_add.2 (.inr ?_))
    unfold owned
    exact Multiset.mem_add.2 (.inl hpa)

theorem Copied.start (old new : PageTable) (r : Ram) : Copied old new r 0 new r := by
  refine ⟨fun va hva => absurd hva (Nat.not_lt_zero va), fun va hva => absurd hva (Nat.not_lt_zero va),
    fun va hva => absurd hva (Nat.not_lt_zero va), fun va hva => absurd hva (Nat.not_lt_zero va),
    fun va _ hva => absurd hva (Nat.not_lt_zero va), fun _ _ _ => rfl, List.suffix_rfl, ?_, Frozen.refl _ _⟩
  rw [Nat.zero_div, leaves, Finset.range_zero, Finset.sum_empty, add_zero]

variable {C : Multiset Nat} {new : PageTable}

/-- The new page table has a copy of every page. -/
theorem At.copied {new' : PageTable} (hp : Holds T b₀ trampoline X p u sh r) (h : At T b₀ top Y new 0 noMem sh r)
    (hcopied : Copied p.pagetable new r (PGROUNDUP p.sz) new' s) (hshort : sh = true → s.short = true) :
    At T b₀ top Y new' (PGROUNDUP p.sz) u sh s := by
  have hspace := hp.space.space
  have habove : ∀ x, PGROUNDUP p.sz ≤ x → x < 2 ^ 39 → pteAt new' x = pteAt new x := hcopied.above
  refine ⟨⟨fun x hx hv => ?_, fun x hlo hhi => ?_, fun x hlo hhi => ?_, hspace.aligned, hspace.below⟩, ?_, ?_, ?_,
    hshort⟩
  · by_cases hlim : x < PGROUNDUP p.sz
    · rw [hcopied.perm x hlim hv]
      exact hspace.leafy x hx (by rw [← hcopied.valid x hlim, hv])
    · rw [habove x (Nat.not_lt.1 hlim) hx] at hv ⊢
      exact h.space.leafy x hx hv
  · rw [habove x hlo (maxva_lt (below_maxva (Nat.le_of_lt hhi)))]
    exact h.space.hole x (Nat.zero_le x) hhi
  · rw [habove x (by have := hspace.below; omega) hhi]
    exact h.space.above x hlo hhi
  · have hframes := hcopied.frames
    rw [← h.pages, Eager.owned_zero, owned]
    calc s.mem.free + Y + (tables new' + leaves new' 0 (PGROUNDUP p.sz / PGSIZE))
        = s.mem.free + tables new' + leaves new' 0 (PGROUNDUP p.sz / PGSIZE) + Y := by abel
      _ = r.mem.free + tables new + Y := by rw [hframes]
      _ = r.mem.free + Y + tables new := by abel
  · exact h.within.trans (within_frozen hcopied.frozen fun pa hpa => h.mem_of_free hpa)
  · rw [← hp.space.view]
    funext x
    by_cases hlim : x < PGROUNDUP p.sz
    · by_cases hv : (pteAt new' x).V = true
      · have hv' : (pteAt p.pagetable x).V = true := by rw [← hcopied.valid x hlim, hv]
        rw [view_valid hlim hv, view_valid hlim hv', hcopied.perm x hlim hv,
          hcopied.bytes x hlim hv _ (Nat.mod_lt _ pgsize_pos)]
      · have hv' : (pteAt p.pagetable x).V = false := by rw [← hcopied.valid x hlim]; simpa using hv
        rw [view_lazy hlim (by simpa using hv), view_lazy hlim hv']
    · rw [view_of_le (Nat.not_lt.1 hlim), view_of_le (Nat.not_lt.1 hlim)]

/-- The new page table maps nothing again. -/
theorem At.undone {new' : PageTable} {b : Nat} (h : At T b₀ top Y new 0 noMem sh r) (hb : b ≤ TRAPFRAME)
    (hundone : Undone new r b new' s) (hshort : s.short = true) : At T b₀ top Y new' 0 noMem true s := by
  refine ⟨⟨fun x hx hv => ?_, fun x hlo hhi => ?_, fun x hlo hhi => ?_, Nat.zero_mod _, Nat.zero_le _⟩, ?_, ?_, ?_,
    fun _ => hshort⟩
  · by_cases hlim : x < b
    · rw [hundone.below x hlim] at hv
      cases hv
    · rw [hundone.above x (Nat.not_lt.1 hlim) hx] at hv ⊢
      exact h.space.leafy x hx hv
  · by_cases hlim : x < b
    · exact hundone.below x hlim
    · rw [hundone.above x (Nat.not_lt.1 hlim) (maxva_lt (below_maxva (Nat.le_of_lt hhi)))]
      exact h.space.hole x hlo hhi
  · rw [hundone.above x (by omega) hhi]
    exact h.space.above x hlo hhi
  · have hframes := hundone.frames
    rw [← h.pages, Eager.owned_zero, Eager.owned_zero]
    calc s.mem.free + Y + tables new' = s.mem.free + tables new' + Y := by abel
      _ = r.mem.free + tables new + Y := by rw [hframes]
      _ = r.mem.free + Y + tables new := by abel
  · exact h.within.trans (within_frozen hundone.frozen fun pa hpa => h.mem_of_free hpa)
  · funext x
    exact view_of_le (Nat.zero_le x)

/-- A new page table, of whose process the code holds `C`, gets a copy of the memory of `p`, or nothing. -/
theorem uvmcopy_at (hT : Frames T) (htr : Trampoline T trampoline) :
    Runs (fun r => Holds T b₀ trampoline (X + (C + owned new 0)) p u sh r ∧ At T b₀ top Y new 0 noMem sh r)
      (uvmcopy p.pagetable new p.sz) fun q r =>
        q.2.2 = 0 ∧ Holds T b₀ trampoline (X + (C + owned q.2.1 (PGROUNDUP p.sz))) p u sh r ∧
          At T b₀ top Y q.2.1 (PGROUNDUP p.sz) u sh r ∨
        q.2.2 = -1 ∧ Holds T b₀ trampoline (X + (C + owned q.2.1 0)) p u true r ∧
        At T b₀ top Y q.2.1 0 noMem true r := by
  refine Triple.each fun r₀ hboth => ?_
  obtain ⟨h, hnew⟩ := hboth
  have hspace := h.space.space
  have hlim := hspace.below
  have hpages := pages_eq (Nat.zero_mod PGSIZE) (h.size.trans trapframe_le) (Nat.zero_le _)
  rw [Nat.sub_zero] at hpages
  have hclear : ∀ va, va < PGROUNDUP p.sz → (pteAt new va).V = false := fun va hva =>
    hnew.space.hole va (Nat.zero_le va) (by omega)
  have hperm : ∀ x, x < PGROUNDUP p.sz → (pteAt p.pagetable x).V = true → (pteAt p.pagetable x).perm = Perm.none →
    False := by
    intro x hx hv hnone
    have hR := hspace.leafy x (hspace.lt39 hx) hv
    rw [hnone] at hR
    cases hR
  have hcopies : Runs (fun r => (sh = true → r.short = true) ∧ r = r₀) (uvmcopy p.pagetable new p.sz) _ :=
    (uvmcopyLoop_copies (h.allocated hT htr) (hlim.trans trapframe_le) hclear hperm _ (Nat.zero_mod PGSIZE) hpages
      (Copied.start p.pagetable new r₀)).conseq (fun _ hr => hr.2) fun _ _ hr => hr
  have hshort : Triple (fun _ => True) (fun r => sh = true → r.short = true) (uvmcopy p.pagetable new p.sz) _ :=
    uvmcopyLoop_short _ _ _ _
  refine (hshort.with hcopies).conseq (fun r hr => ⟨hr ▸ h.space.short, hr⟩) fun q r hend => ?_
  obtain ⟨⟨hsh, hfail⟩, -, hres⟩ := hend
  rcases hres with ⟨h0, hcopied⟩ | ⟨h0, hundone⟩
  · refine .inl ⟨h0, h.frame hT ⟨?_, ?_, hsh⟩, At.copied h hnew hcopied hsh⟩
    · rw [Eager.owned_zero, owned]
      calc r.mem.free + (C + (tables q.2.1 + leaves q.2.1 0 (PGROUNDUP p.sz / PGSIZE)))
          = r.mem.free + tables q.2.1 + leaves q.2.1 0 (PGROUNDUP p.sz / PGSIZE) + C := by abel
        _ = r₀.mem.free + tables new + C := by rw [hcopied.frames]
        _ = r₀.mem.free + (C + tables new) := by abel
    · exact within_frozen hcopied.frozen fun pa hpa => Multiset.mem_add.2 (.inl (Multiset.mem_coe.2 hpa))
  · have hsh' : r.short = true := hfail (by rw [h0]; decide)
    refine .inr ⟨h0, h.frame hT ⟨?_, ?_, fun _ => hsh'⟩, At.undone hnew hlim hundone hsh'⟩
    · rw [Eager.owned_zero, Eager.owned_zero]
      calc r.mem.free + (C + tables q.2.1) = r.mem.free + tables q.2.1 + C := by abel
        _ = r₀.mem.free + tables new + C := by rw [hundone.frames]
        _ = r₀.mem.free + (C + tables new) := by abel
    · exact within_frozen hundone.frozen fun pa hpa => Multiset.mem_add.2 (.inl (Multiset.mem_coe.2 hpa))

/-! ## `kfork` -/

theorem kalloc_pool (hT : Frames T) :
    Runs (Pool T b₀ X sh) kalloc (Cases (Pool T b₀ X true) fun pa => Pool T b₀ (X + {pa}) sh) := by
  have hempty : ∀ {Y : Multiset Nat} {sh : Bool} {r : Ram}, At T b₀ noTop Y (fun _ => none) 0 noMem sh r →
    Pool T b₀ Y sh r := by
    intro Y sh r h
    have hpool := h.pool
    rwa [owned_empty, add_zero] at hpool
  refine (kalloc_at hT).conseq (fun _ h => h.empty) fun o r h => ?_
  cases o with
  | none => exact hempty h
  | some pa => exact hempty h

/-- The child is a copy of the parent, which is as before; or memory has run out. -/
theorem kfork_at (hT : Frames T) (htr : Trampoline T trampoline) :
    Runs (Holds T b₀ trampoline X p u sh) (kfork p trampoline)
    (Cases (Holds T b₀ trampoline X p u true) fun q r => q.sz = p.sz ∧ Holds T b₀ trampoline (X + held q) p u sh r ∧
      Holds T b₀ trampoline (X + held p) q u sh r) := by
  refine Triple.each fun r₀ h => ?_
  have hparent : Holds T b₀ trampoline (X + 0) p u sh r₀ := by rwa [add_zero]
  let F := r₀.mem.free + 0
  have hrest : F + (held p + X) = T := by
    rw [← h.part_add]
    simp only [F]
    abel
  have hF : Frames F := hT.le (hrest ▸ Multiset.le_add_right ..)
  -- what the pool of the child leaves to the parent
  have hback : ∀ {Y : Multiset Nat} {sh' : Bool} {r : Ram}, Pool F r₀.byte Y sh' r →
    Holds T b₀ trampoline (X + Y) p u sh' r :=
    fun hpool => hparent.frame hT hpool
  have hwithin : Within T b₀ r₀.byte := h.space.within
  unfold kfork
  refine (Triple.bind (kalloc_pool hF) fun o => ?_ : Runs (Pool F r₀.byte 0 sh) _ _).conseq
    (fun r hr => by subst hr; exact ⟨rfl, Within.refl _ _, h.space.short⟩) fun _ _ h => h
  cases o with
  | none => exact Triple.pure _ fun r hr => by simpa [Cases] using hback hr
  | some trapframe =>
    refine Triple.bind (procPagetable_made hF trapframe trampoline) fun o => ?_
    cases o with
    | none =>
      exact Triple.bind (kfree_pool trapframe) fun _ => Triple.pure _ fun r hr => by simpa [Cases] using hback hr
    | some t =>
      obtain ⟨root, pt⟩ := t
      let C : Multiset Nat := {trapframe} + {root}
      have hboth : ∀ r, At F r₀.byte (procTop trapframe trampoline) (0 + {trapframe} + {root}) pt 0 noMem sh r →
          Holds T b₀ trampoline (X + (C + owned pt 0)) p u sh r ∧
            At T b₀ (procTop trapframe trampoline) (C + (held p + X)) pt 0 noMem sh r := by
        intro r hr
        rw [zero_add] at hr
        exact ⟨hback hr.pool, hr.widen hrest hwithin⟩
      refine (Triple.bind (uvmcopy_at hT htr) fun q => ?_).conseq hboth fun _ _ h => h
      refine Triple.ite (fun hneg => ?_) fun hpos => Triple.pure _ fun r hr => ?_
      · -- the child's pages are free again
        refine Triple.each fun r₂ hr => ?_
        obtain ⟨-, hp, hc⟩ := hr.resolve_left fun h => by rw [h.1] at hneg; exact Int.lt_irrefl 0 hneg
        have hzero : PGROUNDUP 0 = 0 := by decide
        have hchild : Holds (r₂.mem.free + (C + owned q.2.1 0)) r₂.byte trampoline 0
          ⟨root, q.2.1, trapframe, 0⟩ noMem true r₂ := by
          refine ⟨Nat.zero_le _, ?_⟩
          have hpart := hc.part
          rw [add_assoc] at hpart
          rwa [hzero, zero_add]
        have hfew : Frames (r₂.mem.free + (C + owned q.2.1 0)) := by
          have hle := hc.part_le
          rw [add_assoc] at hle
          exact hT.le hle
        refine (Triple.bind (freeproc_pool hfew) fun _ => Triple.pure _ fun r hpool => ?_).conseq 
          (fun r hr => by subst hr; exact hchild) fun _ _ h => h
        have hend := hp.frame hT hpool
        rwa [add_zero] at hend
      · obtain ⟨-, hp, hc⟩ := hr.resolve_right fun h => by rw [h.1] at hpos; exact hpos (by decide)
        refine ⟨rfl, ?_, h.size, ?_⟩
        · have hsum : held ⟨root, q.2.1, trapframe, p.sz⟩ = C + owned q.2.1 (PGROUNDUP p.sz) := (add_assoc ..).symm
          rw [hsum]
          exact hp
        · rw [show X + held p + {trapframe} + {root} = C + (held p + X) by simp only [C]; abel]
          exact hc

end Xv6.Vm.Copy
