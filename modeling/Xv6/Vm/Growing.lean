import Xv6.Eager.Processes
import Xv6.Vm.Pool

set_option autoImplicit false

/-! # Growing, shrinking and freeing

`uvmalloc`, `uvmdealloc`, `freewalk` and `uvmfree` of `kernel/vm.c`, and the functions of
`kernel/proc.c` over them, with the bytes of the pages: `kalloc` and `kfree` fill a page with junk,
and `uvmalloc` clears what it maps. -/

namespace Xv6.Vm.Copy

open Xv6.Lib
open Xv6.Eager (int int_of_small owned owned_zero tables_none leaves_add mul_div_aligned below_maxva le_maxva
  pgroundup_le_top)

/-- The number of pages is an `int`. -/
def uvmdealloc (pt : PageTable) (oldsz newsz : Nat) : KR (PageTable × Nat) :=
  if oldsz ≤ newsz then pure (pt, oldsz)
  else if PGROUNDUP newsz < PGROUNDUP oldsz then do
    let pt ← uvmunmap pt (PGROUNDUP newsz) (int ((PGROUNDUP oldsz - PGROUNDUP newsz) / PGSIZE)) true
    pure (pt, newsz)
  else pure (pt, newsz)

/-- `false` when memory has run out, and what was allocated from `oldsz` on has been freed. -/
def uvmallocLoop (xperm : Perm) (oldsz : Nat) : Nat → PageTable → Nat → KR (PageTable × Bool)
  | 0, pt, _ => pure (pt, true)
  | n + 1, pt, a => do
    match ← kalloc with
    | none => do
      let r ← uvmdealloc pt a oldsz
      pure (r.1, false)
    | some mem => do
      memset mem 0 PGSIZE
      let r ← mappages pt a PGSIZE mem { xperm with R := true, U := true }
      if r.2 ≠ 0 then do
        kfree mem
        let r ← uvmdealloc r.1 a oldsz
        pure (r.1, false)
      else uvmallocLoop xperm oldsz n r.1 (a + PGSIZE)

def uvmalloc (pt : PageTable) (oldsz newsz : Nat) (xperm : Perm) : KR (PageTable × Nat) :=
  if newsz < oldsz then pure (pt, oldsz)
  else do
    let a := PGROUNDUP oldsz
    let r ← uvmallocLoop xperm a ((newsz - a + PGSIZE - 1) / PGSIZE) pt a
    pure (r.1, if r.2 then newsz else 0)

def freewalkLeaf (table : Nat × Leaf) : KR PUnit := if hasLeaf table.2 then throw .freewalk else kfree table.1

def freewalkMid (table : Nat × Mid) : KR PUnit := do
  entries.forM fun i => match table.2 i with
    | none => pure ⟨⟩
    | some child => freewalkLeaf child
  kfree table.1

def freewalk (root : Nat) (pt : PageTable) : KR PUnit := do
  entries.forM fun i => match pt i with
    | none => pure ⟨⟩
    | some child => freewalkMid child
  kfree root

def uvmfree (root : Nat) (pt : PageTable) (sz : Nat) : KR PUnit := do
  let pt ← (if 0 < sz then uvmunmap pt 0 (PGROUNDUP sz / PGSIZE) true else pure pt)
  freewalk root pt

/-- The root page and the new page table. -/
def procPagetable (trapframe trampoline : Nat) : KR (Option (Nat × PageTable)) := do
  match ← kalloc with
  | none => pure none
  | some root => do
    memset root 0 PGSIZE
    let r ← mappages (fun _ => none) TRAMPOLINE PGSIZE trampoline ⟨true, false, true, false⟩
    if r.2 < 0 then do
      uvmfree root r.1 0
      pure none
    else do
      let r ← mappages r.1 TRAPFRAME PGSIZE trapframe ⟨true, true, false, false⟩
      if r.2 < 0 then do
        let pt ← uvmunmap r.1 TRAMPOLINE 1 false
        uvmfree root pt 0
        pure none
      else pure (some (root, r.1))

def procFreepagetable (root : Nat) (pt : PageTable) (sz : Nat) : KR PUnit := do
  let pt ← uvmunmap pt TRAMPOLINE 1 false
  let pt ← uvmunmap pt TRAPFRAME 1 false
  uvmfree root pt sz

/-- What `freeproc` does about memory. -/
def freeproc (p : Proc) : KR PUnit := do
  kfree p.trapframe
  procFreepagetable p.root p.pagetable p.sz

/-- What `allocproc` and `kfork` do about memory; `none` when there is not enough of it. What the trapframe contains is
    left out. -/
def kfork (p : Proc) (trampoline : Nat) : KR (Option Proc) := do
  match ← kalloc with
  | none => pure none
  | some trapframe => do
    match ← procPagetable trapframe trampoline with
    | none => do
      kfree trapframe
      pure none
    | some (root, pt) => do
      let r ← uvmcopy p.pagetable pt p.sz
      if r.2.2 < 0 then do
        freeproc ⟨root, r.2.1, trapframe, 0⟩
        pure none
      else pure (some ⟨root, r.2.1, trapframe, p.sz⟩)

/-- The process, and 0 or -1. -/
def growproc (p : Proc) (n : Int) : KR (Proc × Int) :=
  if 0 < n then do
    let r ← uvmalloc p.pagetable p.sz (addSz p.sz n) ⟨false, true, false, false⟩
    if r.2 = 0 then pure ({ p with pagetable := r.1 }, -1)
    else pure ({ p with pagetable := r.1, sz := r.2 }, 0)
  else if n < 0 then do
    let r ← uvmdealloc p.pagetable p.sz (addSz p.sz n)
    pure ({ p with pagetable := r.1, sz := r.2 }, 0)
  else pure (p, 0)

/-- `eager` says whether `t == SBRK_EAGER`. -/
def sysSbrk (p : Proc) (n : BitVec 32) (eager : Bool) : KR (Proc × Int) :=
  if eager = true ∨ n.toInt < 0 then do
    let r ← growproc p n.toInt
    if r.2 < 0 then pure (r.1, -1) else pure (r.1, p.sz)
  else if addSz p.sz n.toInt < p.sz then pure (p, -1)
  else pure ({ p with sz := addSz p.sz n.toInt }, p.sz)

variable {T X : Multiset Nat} {b₀ : Nat → Byte} {top : Nat → Pte} {pt : PageTable} {lim a start oldsz newsz : Nat}
    {u : UserMem}
  {sh : Bool} {xperm : Perm}

/-! ## Clear pages -/

/-- Clear pages from `lo` up to `hi`. -/
def UserMem.grow (u : UserMem) (lo hi : Nat) (perm : Perm) : UserMem := fun va =>
  if lo ≤ va ∧ va < hi then some (perm, 0) else u va

namespace UserMem

theorem grow_self (u : UserMem) (a : Nat) (perm : Perm) : u.grow a a perm = u := by
  funext va
  exact if_neg (by omega)

theorem grow_page (u : UserMem) (perm : Perm) (hle : start ≤ a) :
    (u.grow start a perm).page a perm (fun _ => 0) = u.grow start (a + PGSIZE) perm := by
  funext va
  unfold UserMem.page grow
  by_cases h : a ≤ va ∧ va < a + PGSIZE
  · rw [if_pos h, if_pos (by omega)]
  · rw [if_neg h]
    by_cases h' : start ≤ va ∧ va < a
    · rw [if_pos h', if_pos (by omega)]
    · rw [if_neg h', if_neg (by omega)]

theorem grow_cut (hu : u.cut start = u) (hi : Nat) (perm : Perm) : (u.grow start hi perm).cut start = u := by
  funext va
  have hva := congrFun hu va
  unfold UserMem.cut at hva ⊢
  unfold grow
  by_cases h : va < start
  · rw [if_pos h, if_neg (by omega)]
  · rw [if_neg h] at hva ⊢
    exact hva

end UserMem

/-- Everything below the limit is mapped, for the use of the process. -/
def Full (pt : PageTable) (lim : Nat) : Prop := ∀ x, x < lim → (pteAt pt x).V = true ∧ (pteAt pt x).perm.U = true

theorem Full.card_leaves (h : Full pt lim) (hlim : lim % PGSIZE = 0) :
    (leaves pt 0 (lim / PGSIZE)).card = lim / PGSIZE := by
  have hone : ∀ k ∈ Finset.range (lim / PGSIZE), (leafAt pt (0 + k * PGSIZE)).card = 1 := by
    intro k hk
    have hlt := Nat.mul_lt_mul_of_pos_right (Finset.mem_range.1 hk) pgsize_pos
    rw [mul_div_aligned hlim] at hlt
    rw [Nat.zero_add, leafAt, if_pos (h _ hlt).1]
    rfl
  unfold leaves
  rw [Multiset.card_sum, Finset.sum_congr rfl hone, Finset.sum_const, Finset.card_range, smul_eq_mul, Nat.mul_one]

/-- There is room below the trapframe: the caller has seen to it, or there are not enough pages to get there. -/
def Room (T : Multiset Nat) (pt : PageTable) (lim hi : Nat) : Prop :=
  hi ≤ TRAPFRAME ∨ Full pt lim ∧ T.card < TRAPFRAME / PGSIZE

/-- With a page at hand there is room for it. -/
theorem Room.lt {hi mem : Nat} {r : Ram} (h : Room T pt lim hi) (hlt : lim < hi)
    (hat : At T b₀ top (X + {mem}) pt lim u sh r) :
    lim < TRAPFRAME := by
  rcases h with hle | ⟨hfull, hfew⟩
  · omega
  · have hcard := congrArg Multiset.card hat.pages
    have hlim := hat.space.aligned
    rw [owned, Multiset.card_add, Multiset.card_add, Multiset.card_add, Multiset.card_add, hfull.card_leaves hlim,
      Multiset.card_singleton] at hcard
    unfold PGSIZE at *
    omega

/-! ## `uvmdealloc` and `uvmalloc` -/

theorem uvmdealloc_at (hT : Frames T) (hold : oldsz ≤ TRAPFRAME) (newsz : Nat) :
    Runs (At T b₀ top X pt (PGROUNDUP oldsz) u sh) (uvmdealloc pt oldsz newsz) fun r s =>
      r.2 = min oldsz newsz ∧ At T b₀ top X r.1 (PGROUNDUP r.2) (u.cut (PGROUNDUP r.2)) sh s := by
  unfold uvmdealloc
  refine Triple.ite (fun hle => Triple.pure _ fun r h => ?_) fun hlt => ?_
  · refine ⟨(Nat.min_eq_left hle).symm, ?_⟩
    simp only
    rw [h.cut_self]
    exact h
  have hmin : min oldsz newsz = newsz := Nat.min_eq_right (by omega)
  have hmono : PGROUNDUP newsz ≤ PGROUNDUP oldsz := pgroundup_mono (by omega) (le_maxva hold)
  refine Triple.ite (fun hr => ?_) fun hr => Triple.pure _ fun r h => ⟨hmin.symm, ?_⟩
  · have htop := pgroundup_le_top hold
    have hnew := pgroundup_mod newsz
    have hmod := pgroundup_mod oldsz
    have hsmall : (PGROUNDUP oldsz - PGROUNDUP newsz) / PGSIZE < 2 ^ 31 := by
      have hmax : TRAPFRAME = 2 ^ 38 - 8192 := by decide
      unfold PGSIZE at *
      omega
    have hn : PGROUNDUP newsz + (PGROUNDUP oldsz - PGROUNDUP newsz) / PGSIZE * PGSIZE = PGROUNDUP oldsz := by
      unfold PGSIZE at *
      omega
    rw [int_of_small hsmall]
    exact Triple.bind (uvmunmap_at hT hnew hn) fun pt' => Triple.pure _ fun r h => ⟨hmin.symm, h⟩
  · have heq : PGROUNDUP newsz = PGROUNDUP oldsz := by omega
    simp only [heq]
    rw [h.cut_self]
    exact h

/-- Where memory has run out, what has been mapped from `start` on is unmapped. -/
theorem uvmdealloc_back (hT : Frames T) (hstart : start % PGSIZE = 0) (hle : start ≤ a) (hmax : a ≤ TRAPFRAME)
    (halign : a % PGSIZE = 0) (hu : u.cut start = u) (perm : Perm) :
    Runs (At T b₀ top X pt a (u.grow start a perm) sh) (uvmdealloc pt a start) fun r =>
    At T b₀ top X r.1 start u sh := by
  have hround : PGROUNDUP a = a := pgroundup_of_aligned (le_maxva hmax) halign
  have hround' : PGROUNDUP start = start := pgroundup_of_aligned (le_maxva (by omega)) hstart
  have hspec := @uvmdealloc_at T X b₀ top pt a (u.grow start a perm) sh hT hmax start
  rw [hround] at hspec
  refine hspec.conseq (fun _ h => h) fun r s h => ?_
  obtain ⟨hr, hat⟩ := h
  rwa [hr, Nat.min_eq_right hle, hround', UserMem.grow_cut hu] at hat

theorem uvmallocLoop_at (hT : Frames T) (n : Nat) (hstart : start % PGSIZE = 0) (hle : start ≤ a) (hu : u.cut start = u)
    (hroom : Room T pt a (a + n * PGSIZE)) :
    Runs (At T b₀ top X pt a (u.grow start a { xperm with R := true, U := true }) sh)
    (uvmallocLoop xperm start n pt a) fun r s =>
      (r.2 = true → At T b₀ top X r.1 (a + n * PGSIZE)
      (u.grow start (a + n * PGSIZE) { xperm with R := true, U := true }) sh s ∧
        (Full pt a → Full r.1 (a + n * PGSIZE))) ∧
      (r.2 = false → At T b₀ top X r.1 start u true s) := by
  induction n generalizing pt a with
  | zero =>
    rw [Nat.zero_mul, Nat.add_zero]
    exact Triple.pure _ fun s h => ⟨fun _ => ⟨h, id⟩, Bool.noConfusion⟩
  | succ n ih =>
    have hsum := next_page a n
    have hlt : a < a + (n + 1) * PGSIZE := by
      rw [hsum]
      have := pgsize_pos
      omega
    unfold uvmallocLoop
    refine Triple.each fun s₀ h₀ => ?_
    have halign := h₀.space.aligned
    have hbelow := h₀.space.below
    have hback : ∀ pt' : PageTable, Runs (At T b₀ top X pt' a (u.grow start a { xperm with R := true, U := true }) true)
        (do let r ← uvmdealloc pt' a start; pure (r.1, false)) fun r s =>
        (r.2 = true → At T b₀ top X r.1 (a + (n + 1) * PGSIZE)
          (u.grow start (a + (n + 1) * PGSIZE) { xperm with R := true, U := true }) sh s ∧
          (Full pt a → Full r.1 (a + (n + 1) * PGSIZE))) ∧ (r.2 = false → At T b₀ top X r.1 start u true s) :=
          fun pt' =>
      Triple.bind (uvmdealloc_back hT hstart hle hbelow halign hu _) fun r => Triple.pure _ fun s h =>
        ⟨Bool.noConfusion, fun _ => h⟩
    refine (Triple.bind (kalloc_at hT) fun o => ?_ : Runs (At T b₀ top X pt a _ sh) _ _).conseq
      (fun s hs => hs ▸ h₀) fun _ _ h => h
    cases o with
    | none => exact hback pt
    | some mem =>
      refine Triple.bind (memset_at hT (Multiset.mem_add.2 (.inr (Multiset.mem_singleton_self mem))) 0) fun _ => ?_
      refine Triple.each fun s₁ h₁ => ?_
      have hlast : a < TRAPFRAME := hroom.lt hlt h₁.1
      refine (Triple.bind (mappages_at halign (Nat.le_refl a) hlast rfl (h₁.1.space.hole a (Nat.le_refl a) hlast))
        fun r => ?_ :
        Runs (fun s => At T b₀ top (X + {mem}) pt a _ sh s ∧ Contains mem (fun _ => 0) s) _ _).conseq
        (fun s hs => hs ▸ h₁)
        fun _ _ h => h
      refine Triple.ite (fun hfail => ?_) fun hok => ?_
      · refine (Triple.bind (kfree_at hT) fun _ => hback r.1).conseq (fun s hs => (hs.2 hfail).1) fun _ _ h => h
      · have h0 : r.2 = 0 := not_not.1 hok
        refine Triple.each fun s₂ hs₂ => ?_
        obtain ⟨hat, hself, hother⟩ := hs₂.1 h0
        rw [Nat.max_eq_right (Nat.le_add_right ..), UserMem.grow_page _ _ hle] at hat
        have hfull : Full pt a → Full r.1 (a + PGSIZE) := by
          intro hf x hx
          by_cases hxa : x < a
          · rw [hother x (h₀.space.lt39 hxa) (div_ne_of_aligned halign (.inl hxa))]
            exact hf x hxa
          · rw [pteAt_congr (div_eq_of_aligned halign (by omega) hx), hself]
            exact ⟨rfl, rfl⟩
        have hrest : Room T r.1 (a + PGSIZE) (a + PGSIZE + n * PGSIZE) := by
          rw [← hsum]
          exact hroom.imp_right fun h => ⟨hfull h.1, h.2⟩
        rw [hsum]
        exact (ih (by omega) hrest).conseq (fun s hs => hs ▸ hat) fun r' s h => ⟨fun ht => ⟨(h.1 ht).1, fun hf =>
          (h.1 ht).2 (hfull hf)⟩, h.2⟩

/-- `uvmalloc` returns 0 where memory has run out, and for a program of no size. -/
theorem uvmalloc_at (hT : Frames T) (hold : oldsz ≤ TRAPFRAME) (hroom : Room T pt (PGROUNDUP oldsz) newsz) :
    Runs (At T b₀ top X pt (PGROUNDUP oldsz) u sh) (uvmalloc pt oldsz newsz xperm) fun r s =>
      (r.2 = 0 → oldsz ≤ newsz ∧ At T b₀ top X r.1 (PGROUNDUP oldsz) u (sh || decide (0 < newsz)) s) ∧
      (r.2 ≠ 0 → r.2 = max oldsz newsz ∧ r.2 ≤ TRAPFRAME ∧ At T b₀ top X r.1 (PGROUNDUP r.2)
        (u.grow (PGROUNDUP oldsz) (PGROUNDUP r.2) { xperm with R := true, U := true }) sh s ∧
        (Full pt (PGROUNDUP oldsz) → Full r.1 (PGROUNDUP r.2))) := by
  have hmod := pgroundup_mod oldsz
  have hle : oldsz ≤ PGROUNDUP oldsz := le_pgroundup (le_maxva hold)
  have htop := pgroundup_le_top hold
  unfold uvmalloc
  refine Triple.ite (fun hlt => Triple.pure _ fun s h => ⟨fun h0 => ?_, fun _ => ?_⟩) fun hge => ?_
  · have hzero : oldsz = 0 := h0
    omega
  · refine ⟨(Nat.max_eq_left (Nat.le_of_lt hlt)).symm, hold, ?_, id⟩
    simp only
    rw [UserMem.grow_self]
    exact h
  have hmax : max oldsz newsz = newsz := Nat.max_eq_right (by omega)
  have hroom' : Room T pt (PGROUNDUP oldsz)
      (PGROUNDUP oldsz + (newsz - PGROUNDUP oldsz + PGSIZE - 1) / PGSIZE * PGSIZE) := by
    refine hroom.imp_left fun h => ?_
    have htm := trapframe_mod
    unfold PGSIZE at *
    omega
  refine Triple.each fun s₀ h₀ => ?_
  have hstart : At T b₀ top X pt (PGROUNDUP oldsz)
      (u.grow (PGROUNDUP oldsz) (PGROUNDUP oldsz) { xperm with R := true, U := true }) sh s₀ := by
    rw [UserMem.grow_self]
    exact h₀
  refine (Triple.bind (uvmallocLoop_at hT _ hmod (Nat.le_refl _) h₀.cut_self hroom') fun r =>
    Triple.pure _ fun s h => ?_).conseq
    (fun s hs => hs ▸ hstart) fun _ _ h => h
  cases hr : r.2 with
  | false =>
    have hat := h.2 hr
    exact ⟨fun _ => ⟨not_lt.1 hge, hat.space, hat.pages, hat.within, hat.view, fun _ => hat.short rfl⟩,
      fun hne => absurd (by simp) hne⟩
  | true =>
    obtain ⟨hat, hfull⟩ := h.1 hr
    have hend := hat.space.below
    have hnew : newsz ≤ TRAPFRAME := by
      unfold PGSIZE at *
      omega
    have hmono : PGROUNDUP oldsz ≤ PGROUNDUP newsz := pgroundup_mono (by omega) (le_maxva hnew)
    rw [pages_eq hmod (le_maxva hnew) hmono] at hat hfull
    refine ⟨fun h0 => ?_, fun _ => ⟨hmax.symm, hnew, hat, hfull⟩⟩
    have hzero : newsz = 0 := h0
    have hsame : oldsz = newsz := by omega
    rw [hsame] at hat ⊢
    rw [UserMem.grow_self] at hat
    rw [hzero]
    rw [hzero] at hat
    exact ⟨Nat.le_refl 0, by simpa using hat⟩

/-! ## Freeing a page table -/

/-- Without a page table: the code holds `X`, and the other pages of `T` are free. -/
structure Pool (T : Multiset Nat) (b₀ : Nat → Byte) (X : Multiset Nat) (sh : Bool) (r : Ram) : Prop where
  pages : r.mem.free + X = T
  within : Within T b₀ r.byte
  short : sh = true → r.short = true

theorem At.pool {r : Ram} (h : At T b₀ top X pt lim u sh r) : Pool T b₀ (X + owned pt lim) sh r :=
  ⟨by rw [← h.pages, add_assoc], h.within, h.short⟩

theorem kfree_pool (pa : Nat) : Runs (Pool T b₀ (X + {pa}) sh) (kfree pa) fun _ => Pool T b₀ X sh := by
  refine Triple.of_ok fun r h => ⟨_, _, kfree_eq pa r, ?_, ?_, h.short⟩
  · rw [free_freed, ← h.pages]
    abel
  · refine h.within.trans (within_filled ?_ _ _)
    rw [← h.pages]
    exact Multiset.mem_add.2 (.inr (Multiset.mem_add.2 (.inr (Multiset.mem_singleton_self pa))))

/-- A loop over all entries of a table that frees what each of them has. -/
theorem entries_pool {f : Fin 512 → KR PUnit} {g : Fin 512 → Multiset Nat}
    (h : ∀ i X, Runs (Pool T b₀ (X + g i) sh) (f i) fun _ => Pool T b₀ X sh) (X : Multiset Nat) :
    Runs (Pool T b₀ (X + ∑ i, g i) sh) (entries.forM f) fun _ => Pool T b₀ X sh := by
  have hround : ∀ i l, Runs (Pool T b₀ (X + ((i :: l).map g).sum) sh) (f i) fun _ =>
    Pool T b₀ (X + (l.map g).sum) sh := by
    intro i l
    rw [List.map_cons, List.sum_cons, add_comm (g i), ← add_assoc]
    exact h i _
  refine (Triple.forM_left (I := fun l => Pool T b₀ (X + (l.map g).sum) sh) hround entries).conseq (fun r hr => ?_)
    fun _ r hr => by simpa using hr
  rw [Fin.sum_univ_def] at hr
  unfold entries
  exact hr

theorem freewalkLeaf_pool {table : Nat × Leaf} (h : ∀ i, (table.2 i).V = false) :
    Runs (Pool T b₀ (X + {table.1}) sh) (freewalkLeaf table) fun _ => Pool T b₀ X sh := by
  unfold freewalkLeaf
  refine Triple.ite (fun hany => ?_) fun _ => kfree_pool table.1
  unfold hasLeaf at hany
  obtain ⟨i, -, hv⟩ := List.any_eq_true.1 hany
  rw [h i] at hv
  cases hv

theorem freewalkMid_pool {table : Nat × Mid} (h : ∀ i t, table.2 i = some t → ∀ j, (t.2 j).V = false) :
    Runs (Pool T b₀ (X + rootTables (some table)) sh) (freewalkMid table) fun _ => Pool T b₀ X sh := by
  unfold freewalkMid
  rw [rootTables, Option.elim_some, ← add_assoc]
  refine Triple.bind (entries_pool (fun i Y => ?_) _) fun _ => kfree_pool table.1
  cases hi : table.2 i with
  | none => exact Triple.pure _ fun r hr => by simpa [midTables] using hr
  | some t => exact freewalkLeaf_pool (h i t hi)

/-- A page table that maps nothing. -/
theorem freewalk_pool {root : Nat} (h : ∀ x, x < 2 ^ 39 → (pteAt pt x).V = false) :
    Runs (Pool T b₀ (X + {root} + tables pt) sh) (freewalk root pt) fun _ => Pool T b₀ X sh := by
  unfold freewalk tables
  refine Triple.bind (entries_pool (g := fun i => rootTables (pt i)) (fun i2 Y => ?_) _) fun _ => kfree_pool root
  cases h2 : pt i2 with
  | none => exact Triple.pure _ fun r hr => by simpa [rootTables] using hr
  | some t2 =>
    refine freewalkMid_pool fun i1 t1 h1 i0 => ?_
    obtain ⟨hlt, e2, e1, e0⟩ := PX_address i2 i1 i0
    have hfree := h _ hlt
    simpa only [pteAt, slot, e2, h2, e1, h1, e0, Option.getD_some] using hfree

/-- Nothing is mapped from the trapframe on. -/
def noTop : Nat → Pte := fun _ => Pte.zero

/-- Another entry for the page at `a`. -/
def setTop (top : Nat → Pte) (a : Nat) (e : Pte) : Nat → Pte := fun x => if x / PGSIZE = a / PGSIZE then e else top x

/-- The top of a process. -/
def procTop (trapframe trampoline : Nat) : Nat → Pte :=
  setTop (setTop noTop TRAMPOLINE ⟨true, ⟨true, false, true, false⟩, trampoline⟩) TRAPFRAME
    ⟨true, ⟨true, true, false, false⟩, trapframe⟩

theorem uvmfree_pool {root sz : Nat} (hT : Frames T) (hsz : sz ≤ TRAPFRAME)
    (htop : ∀ x, TRAPFRAME ≤ x → (top x).V = false) :
    Runs (At T b₀ top (X + {root}) pt (PGROUNDUP sz) u sh) (uvmfree root pt sz) fun _ => Pool T b₀ X sh := by
  have hP : PGROUNDUP 0 = 0 := by decide
  have hn : 0 + PGROUNDUP sz / PGSIZE * PGSIZE = PGROUNDUP sz := by
    rw [Nat.zero_add, mul_div_aligned (pgroundup_mod sz)]
  unfold uvmfree
  refine Triple.bind (R := fun pt' => At T b₀ top (X + {root}) pt' 0 (u.cut 0) sh) (Triple.ite (fun _ => uvmunmap_at hT
    (Nat.zero_mod _) hn) fun h0 => Triple.pure _ fun r h => ?_) fun pt' => ?_
  · have hzero : sz = 0 := by omega
    subst hzero
    rw [hP] at h
    rwa [h.cut_self]
  · refine Triple.each fun r₀ h₀ => ?_
    refine (freewalk_pool fun x hx => ?_).conseq (fun r hr => ?_) fun _ _ h => h
    · by_cases hlow : x < TRAPFRAME
      · exact h₀.space.hole x (Nat.zero_le _) hlow
      · rw [h₀.space.above x (Nat.not_lt.1 hlow) hx]
        exact htop x (Nat.not_lt.1 hlow)
    · have hpool := h₀.pool
      rw [owned_zero] at hpool
      rwa [hr]

/-! ## The two pages at the top -/

theorem unmapPage_keep {e : Pte} (ha : a < MAXVA) (he : slot pt a = some e) (hv : e.V = true) (hR : e.perm.R = true)
    (r : Ram) :
    unmapPage pt a false r = .ok (setPte pt a Pte.zero, r) := by
  have hperm : e.perm ≠ Perm.none := fun h => by rw [h] at hR; cases hR
  unfold unmapPage
  rw [bind_of_ok (show onMem (if (false : Bool) = true then _ else pure PUnit.unit) r = .ok (⟨⟩, r) from rfl),
    bind_of_ok (onMem_ok (walk_eq ha pt r.mem)), he]
  simp only
  rw [if_neg (by simp [hv]), if_neg hperm]
  rfl

/-- The trapframe or the trampoline; the page stays where it is. -/
theorem uvmunmap_top (halign : a % PGSIZE = 0) (hlo : TRAPFRAME ≤ a) (hhi : a < MAXVA) (hv : (top a).V = true) :
    Runs (At T b₀ top X pt lim u sh) (uvmunmap pt a 1 false) fun pt' =>
    At T b₀ (setTop top a Pte.zero) X pt' lim u sh := by
  refine Triple.of_ok fun r h => ?_
  have hspace := h.space
  have ha : a < 2 ^ 39 := maxva_lt hhi
  have hentry := hspace.above a hlo ha
  obtain ⟨e, he⟩ : ∃ e, slot pt a = some e := by
    cases hs : slot pt a with
    | some e => exact ⟨e, rfl⟩
    | none =>
      rw [← hentry, pteAt, hs] at hv
      cases hv
  have hpte : pteAt pt a = e := by rw [pteAt, he, Option.getD_some]
  have hvalid : e.V = true := by rw [← hpte, hentry, hv]
  have hR : e.perm.R = true := by
    rw [← hpte]
    exact hspace.leafy a ha (hpte ▸ hvalid)
  refine ⟨setPte pt a Pte.zero, r, ?_, ?_⟩
  · unfold uvmunmap
    rw [if_neg (not_not.2 halign)]
    unfold uvmunmapLoop
    rw [bind_of_ok (unmapPage_keep hhi he hvalid hR r)]
    rfl
  have hother : ∀ x, x < 2 ^ 39 → x / PGSIZE ≠ a / PGSIZE → pteAt (setPte pt a Pte.zero) x = pteAt pt x :=
    fun x hx hne =>
    pteAt_setPte_of_ne ha hx hne
  have hself : ∀ x, x / PGSIZE = a / PGSIZE → pteAt (setPte pt a Pte.zero) x = Pte.zero := fun x hx => by
    rw [pteAt_congr hx, pteAt_setPte_self he]
  have hlow : ∀ x, x < TRAPFRAME → pteAt (setPte pt a Pte.zero) x = pteAt pt x := fun x hx =>
    hother x (maxva_lt (below_maxva (Nat.le_of_lt hx))) (div_ne_of_aligned halign (.inl (by omega)))
  refine ⟨⟨fun x hx hxv => ?_, fun x hx1 hx2 => ?_, fun x hx1 hx2 => ?_, hspace.aligned, hspace.below⟩, ?_,
    h.within, ?_, h.short⟩
  · by_cases hx' : x / PGSIZE = a / PGSIZE
    · rw [hself x hx'] at hxv
      cases hxv
    · rw [hother x hx hx'] at hxv ⊢
      exact hspace.leafy x hx hxv
  · rw [hlow x hx2]
    exact hspace.hole x hx1 hx2
  · unfold setTop
    by_cases hx' : x / PGSIZE = a / PGSIZE
    · rw [if_pos hx', hself x hx']
    · rw [if_neg hx', hother x hx2 hx', hspace.above x hx1 hx2]
  · have hbelow := hspace.below
    have hsame : leaves (setPte pt a Pte.zero) 0 (lim / PGSIZE) = leaves pt 0 (lim / PGSIZE) := by
      refine leaves_congr fun k hk => hlow _ ?_
      have hlt := Nat.mul_lt_mul_of_pos_right hk pgsize_pos
      rw [mul_div_aligned hspace.aligned] at hlt
      omega
    rw [← h.pages, owned, owned, hsame, tables_setPte]
  · rw [← h.view]
    funext x
    unfold view
    by_cases hx : x < lim
    · rw [if_pos hx, if_pos hx, hlow x (by have := hspace.below; omega)]
    · rw [if_neg hx, if_neg hx]

theorem trapframe_ne : TRAPFRAME / PGSIZE ≠ TRAMPOLINE / PGSIZE := by decide

/-- With both pages unmapped, nothing is left at the top. -/
theorem clear_top (trapframe trampoline x : Nat) :
    (setTop (setTop (procTop trapframe trampoline) TRAMPOLINE Pte.zero) TRAPFRAME Pte.zero x).V = false := by
  unfold procTop setTop noTop
  by_cases h1 : x / PGSIZE = TRAPFRAME / PGSIZE
  · rw [if_pos h1]
    rfl
  · by_cases h2 : x / PGSIZE = TRAMPOLINE / PGSIZE
    · rw [if_neg h1, if_pos h2]
      rfl
    · rw [if_neg h1, if_neg h2, if_neg h1, if_neg h2]
      rfl

theorem procFreepagetable_pool {root sz trapframe trampoline : Nat} (hT : Frames T) (hsz : sz ≤ TRAPFRAME) :
    Runs (At T b₀ (procTop trapframe trampoline) (X + {root}) pt (PGROUNDUP sz) u sh) (procFreepagetable root pt sz)
      fun _ => Pool T b₀ X sh := by
  unfold procFreepagetable
  refine Triple.bind (uvmunmap_top (by decide) (by decide) (by decide) ?_) fun pt₁ =>
    Triple.bind (uvmunmap_top (by decide) (Nat.le_refl _) (by decide) ?_) fun pt₂ =>
      uvmfree_pool hT hsz fun x _ => clear_top trapframe trampoline x
  · unfold procTop setTop
    rw [if_neg trapframe_ne.symm, if_pos rfl]
  · unfold procTop setTop
    rw [if_neg trapframe_ne, if_pos rfl]

/-! ## A new page table -/

/-- An entry of the top is made; the page stays where it is. -/
theorem mappages_top {pa : Nat} {perm : Perm} (halign : a % PGSIZE = 0) (hlo : TRAPFRAME ≤ a) (hhi : a < MAXVA)
    (hv : (top a).V = false) (hR : perm.R = true) :
    Runs (At T b₀ top X pt lim u sh) (mappages pt a PGSIZE pa perm) fun p r =>
      (0 ≤ p.2 → At T b₀ (setTop top a ⟨true, perm, pa⟩) X p.1 lim u sh r) ∧
      (p.2 < 0 → At T b₀ top X p.1 lim u true r) := by
  refine Triple.each fun r₀ h => ?_
  have hspace := h.space
  have hbelow := hspace.below
  have ha : a < 2 ^ 39 := maxva_lt hhi
  have hinvalid : (pteAt pt a).V = false := by rw [hspace.above a hlo ha, hv]
  have hkeep : Triple (fun _ => True) (fun r => sh = true → r.short = true) (mappages pt a PGSIZE pa perm) fun p r =>
      (sh = true → r.short = true) ∧ (p.2 ≠ 0 → r.short = true) := mappages_short pt a PGSIZE pa perm
  have hmaps : Runs (fun r => (sh = true → r.short = true) ∧ r = r₀) (mappages pt a PGSIZE pa perm)
      (Mapped pt r₀ a pa perm) := (mappages_maps pa perm hhi halign hinvalid r₀).conseq
      (fun _ hr => hr.2) fun _ _ hr => hr
  refine (hkeep.with hmaps).conseq (fun r hr => ⟨hr ▸ h.short, hr⟩) fun p r ⟨⟨hsh, hfail⟩, hmap⟩ => ?_
  obtain ⟨l, htook, htables⟩ := hmap.took
  -- what is below the trapframe has not changed
  have hend : (∀ x, x < TRAPFRAME → pteAt p.1 x = pteAt pt x) →
    leaves p.1 0 (lim / PGSIZE) = leaves pt 0 (lim / PGSIZE) ∧
      r.mem.free + X + owned p.1 lim = T ∧ Within T b₀ r.byte ∧ view p.1 lim r.byte = u := by
    intro hlow
    have hsame : leaves p.1 0 (lim / PGSIZE) = leaves pt 0 (lim / PGSIZE) := by
      refine leaves_congr fun k hk => hlow _ ?_
      have hlt := Nat.mul_lt_mul_of_pos_right hk pgsize_pos
      rw [mul_div_aligned hspace.aligned] at hlt
      omega
    refine ⟨hsame, ?_, by rw [hmap.byte]; exact h.within, ?_⟩
    · rw [← h.pages, htook.free, owned, owned, hsame, htables]
      abel
    · rw [hmap.byte, ← h.view]
      funext x
      unfold view
      by_cases hx : x < lim
      · rw [if_pos hx, if_pos hx, hlow x (by omega)]
      · rw [if_neg hx, if_neg hx]
  refine ⟨fun h0 => ?_, fun h0 => ?_⟩
  · obtain ⟨hself, hother⟩ := hmap.ok (by rcases hmap.result with h | h <;> omega)
    have hlow : ∀ x, x < TRAPFRAME → pteAt p.1 x = pteAt pt x := fun x hx =>
      hother x (maxva_lt (below_maxva (Nat.le_of_lt hx))) (div_ne_of_aligned halign (.inl (by omega)))
    obtain ⟨-, hpages, hwithin, hview⟩ := hend hlow
    refine ⟨⟨fun x hx hxv => ?_, fun x hx1 hx2 => ?_, fun x hx1 hx2 => ?_, hspace.aligned, hbelow⟩, hpages, hwithin,
      hview, hsh⟩
    · by_cases hx' : x / PGSIZE = a / PGSIZE
      · rw [pteAt_congr hx', hself]
        exact hR
      · rw [hother x hx hx'] at hxv ⊢
        exact hspace.leafy x hx hxv
    · rw [hlow x hx2]
      exact hspace.hole x hx1 hx2
    · unfold setTop
      by_cases hx' : x / PGSIZE = a / PGSIZE
      · rw [if_pos hx', pteAt_congr hx', hself]
      · rw [if_neg hx', hother x hx2 hx', hspace.above x hx1 hx2]
  · have hsame := hmap.failed (by omega)
    obtain ⟨-, hpages, hwithin, hview⟩ := hend fun x _ => hsame x
    refine ⟨⟨fun x hx => ?_, fun x hx1 hx2 => ?_, fun x hx1 hx2 => ?_, hspace.aligned, hbelow⟩, hpages, hwithin, hview,
      fun _ => hfail (by omega)⟩
    · rw [hsame]
      exact hspace.leafy x hx
    · rw [hsame]
      exact hspace.hole x hx1 hx2
    · rw [hsame]
      exact hspace.above x hx1 hx2

/-- Nothing. -/
def noMem : UserMem := fun _ => none

theorem owned_empty : owned (fun _ => none) 0 = 0 := by rw [owned_zero, tables_none]

/-- The empty page table. -/
theorem Pool.empty {r : Ram} (h : Pool T b₀ X sh r) : At T b₀ noTop X (fun _ => none) 0 noMem sh r := by
  have hzero : ∀ x, pteAt (fun _ => none) x = Pte.zero := fun _ => rfl
  refine ⟨⟨fun x _ hv => ?_, fun x _ _ => by rw [hzero]; rfl, fun x _ _ => hzero x, Nat.zero_mod _, Nat.zero_le _⟩, ?_,
    h.within, ?_, h.short⟩
  · rw [hzero] at hv
    cases hv
  · rw [owned_empty, add_zero, h.pages]
  · funext x
    exact view_of_le (Nat.zero_le x)

/-- A new page table, or nothing has been taken. -/
def MadeTable (T : Multiset Nat) (b₀ : Nat → Byte) (X : Multiset Nat) (sh : Bool) (trapframe trampoline : Nat) :
    Option (Nat × PageTable) → Ram → Prop :=
  Cases (Pool T b₀ X true) fun t => At T b₀ (procTop trapframe trampoline) (X + {t.1}) t.2 0 noMem sh

theorem procPagetable_made (hT : Frames T) (trapframe trampoline : Nat) :
    Runs (Pool T b₀ X sh) (procPagetable trapframe trampoline) (MadeTable T b₀ X sh trapframe trampoline) := by
  have hzero : PGROUNDUP 0 = 0 := by decide
  -- the pages of a table that could not be made
  have hfree : ∀ (root : Nat) (pt : PageTable) (top : Nat → Pte), (∀ x, (top x).V = false) →
      Runs (At T b₀ top (X + {root}) pt 0 noMem true) (do uvmfree root pt 0; pure none)
        (MadeTable T b₀ X sh trapframe trampoline) := by
    intro root pt top htop
    have hspec := @uvmfree_pool T X b₀ top pt noMem true root 0 hT (Nat.zero_le _) fun x _ => htop x
    rw [hzero] at hspec
    exact Triple.bind hspec fun _ => Triple.pure _ fun _ h => h
  unfold procPagetable
  refine (Triple.bind (kalloc_at hT) fun o => ?_ : Runs (At T b₀ noTop X (fun _ => none) 0 noMem sh) _ _).conseq
    (fun _ h => h.empty) fun _ _ h => h
  cases o with
  | none =>
    refine Triple.pure _ fun r h => ?_
    have hpool := At.pool h
    rwa [owned_empty, add_zero] at hpool
  | some root =>
    have hroot : root ∈ X + {root} := Multiset.mem_add.2 (.inr (Multiset.mem_singleton_self root))
    refine Triple.bind ((memset_at hT hroot 0).conseq (fun _ h => h) fun _ _ h => h.1) fun _ => ?_
    refine Triple.bind (mappages_top (by decide) (by decide) (by decide) rfl rfl) fun p =>
      Triple.ite (fun hneg => ?_) fun hpos => ?_
    · exact (hfree root p.1 noTop fun _ => rfl).conseq (fun _ h => h.2 hneg) fun _ _ h => h
    · refine (Triple.bind (mappages_top (by decide) (Nat.le_refl _) (by decide) ?_ rfl) fun p' =>
      Triple.ite (fun hneg => ?_)
        fun hpos' => ?_ : Runs (At T b₀ _ (X + {root}) p.1 0 noMem sh) _ _).conseq
        (fun _ h => h.1 (not_lt.1 hpos)) fun _ _ h => h
      · unfold setTop
        rw [if_neg trapframe_ne]
        rfl
      · refine (Triple.bind (uvmunmap_top (by decide) (by decide) (by decide) ?_) fun pt => hfree root pt _ fun x =>
        ?_ :
          Runs (At T b₀ _ (X + {root}) p'.1 0 noMem true) _ _).conseq (fun _ h => h.2 hneg) fun _ _ h => h
        · unfold setTop
          rw [if_pos rfl]
        · unfold setTop
          by_cases hx : x / PGSIZE = TRAMPOLINE / PGSIZE
          · rw [if_pos hx]
            rfl
          · rw [if_neg hx, if_neg hx]
            rfl
      · exact Triple.pure _ fun _ h => h.1 (not_lt.1 hpos')

end Xv6.Vm.Copy
