import Xv6.Vm.Growing

set_option autoImplicit false

/-! # What the calls of a process do to its memory

Each call works on the pool of the process: its own pages and those that are free. It keeps the pages of the pool
together, touches no other page, and changes what the process sees as the call promises. Memory may run out; then a
call has done part of its work at most. -/

namespace Xv6.Vm.Copy

open Xv6.Lib
open Xv6.Eager (owned leaves_add mul_div_aligned below_maxva le_maxva pgroundup_le_top)

variable {T X : Multiset Nat} {b₀ : Nat → Byte} {trampoline : Nat} {p q : Proc} {u : UserMem} {sh : Bool}
    {r s : Ram} {va : Nat}

/-- Process `p` sees `u`. Of the pages `T` it has its own, the code holds `X`, and the others are free. -/
structure Holds (T : Multiset Nat) (b₀ : Nat → Byte) (trampoline : Nat) (X : Multiset Nat) (p : Proc) (u : UserMem)
    (sh : Bool)
    (r : Ram) : Prop where
  size : p.sz ≤ TRAPFRAME
  space : At T b₀ (procTop p.trapframe trampoline) (X + {p.trapframe} + {p.root}) p.pagetable (PGROUNDUP p.sz) u sh r

/-- The pages of a process. -/
def held (p : Proc) : Multiset Nat := {p.trapframe} + ({p.root} + owned p.pagetable (PGROUNDUP p.sz))

theorem Holds.pool (h : Holds T b₀ trampoline X p u sh r) : Pool T b₀ (X + held p) sh r := by
  refine ⟨?_, h.space.within, h.space.short⟩
  rw [← h.space.pages, held]
  abel

theorem Holds.shorter (h : Holds T b₀ trampoline X p u sh r) {sh' : Bool} (hs : sh' = true → r.short = true) :
    Holds T b₀ trampoline X p u sh' r :=
  ⟨h.size, h.space.space, h.space.pages, h.space.within, h.space.view, hs⟩

/-! ## `freeproc` -/

theorem freeproc_pool (hT : Frames T) : Runs (Holds T b₀ trampoline X p u sh) (freeproc p) fun _ => Pool T b₀ X sh := by
  unfold freeproc
  refine Triple.each fun r h => ?_
  have hspace := h.space
  rw [add_right_comm] at hspace
  exact (Triple.bind (kfree_at hT) fun _ => procFreepagetable_pool hT h.size :
    Runs (At T b₀ (procTop p.trapframe trampoline) (X + {p.root} + {p.trapframe}) p.pagetable (PGROUNDUP p.sz) u sh)
    _ _).conseq
    (fun s hs => hs ▸ hspace) fun _ _ h => h

/-! ## `sbrk` -/

/-- The size after `sbrk`: it does not shrink by more than there is. -/
def newSize (sz : Nat) (n : Int) : Nat := if 0 ≤ n then sz + n.toNat else if -n ≤ sz then sz - (-n).toNat else sz

/-- The memory after `sbrk`: clear pages are added at the end, or the last pages are gone. -/
def UserMem.resize (u : UserMem) (sz sz' : Nat) : UserMem :=
  (u.grow (PGROUNDUP sz) (PGROUNDUP sz') userRW).cut (PGROUNDUP sz')

theorem newSize_of_nonneg {sz : Nat} {n : Int} (hn : 0 ≤ n) : newSize sz n = sz + n.toNat := if_pos hn

theorem addSz_of_nonneg {sz : Nat} {n : Int} (hn : 0 ≤ n) (hsz : sz + n.toNat ≤ TRAPFRAME) :
    addSz sz n = newSize sz n := by
  have htop : TRAPFRAME < 2 ^ 64 := by decide
  rw [newSize_of_nonneg hn]
  unfold addSz
  have hsum : ((sz : Int) + n) % 2 ^ 64 = (sz : Int) + n := Int.emod_eq_of_lt (by omega) (by omega)
  rw [hsum]
  omega

/-- Subtracting too much wraps around, and then `uvmdealloc` does nothing. -/
theorem min_addSz {sz : Nat} {n : Int} (hn : n < 0) (hlo : -2 ^ 31 ≤ n) (hsz : sz ≤ TRAPFRAME) :
    min sz (addSz sz n) = newSize sz n := by
  have htop : TRAPFRAME = 2 ^ 38 - 8192 := by decide
  unfold newSize addSz
  rw [if_neg (by omega)]
  by_cases hle : -n ≤ sz
  · have hsum : ((sz : Int) + n) % 2 ^ 64 = (sz : Int) + n := Int.emod_eq_of_lt (by omega) (by omega)
    rw [if_pos hle, hsum]
    omega
  · have hsum : ((sz : Int) + n) % 2 ^ 64 = (sz : Int) + n + 2 ^ 64 := by
      rw [← Int.add_emod_right, Int.emod_eq_of_lt (by omega) (by omega)]
    rw [if_neg hle, hsum]
    omega

theorem UserMem.resize_grow {sz sz' : Nat} (hu : u.cut (PGROUNDUP sz) = u) (hle : PGROUNDUP sz ≤ PGROUNDUP sz') :
    u.resize sz sz' = u.grow (PGROUNDUP sz) (PGROUNDUP sz') userRW := by
  funext va
  have hva := congrFun hu va
  unfold UserMem.resize
  unfold UserMem.cut UserMem.grow at *
  by_cases h : va < PGROUNDUP sz'
  · rw [if_pos h]
  · rw [if_neg (by omega)] at hva
    rw [if_neg h, if_neg (by omega), hva]

theorem UserMem.resize_cut {sz sz' : Nat} (hle : PGROUNDUP sz' ≤ PGROUNDUP sz) :
    u.resize sz sz' = u.cut (PGROUNDUP sz') := by
  funext va
  unfold UserMem.resize UserMem.cut UserMem.grow
  by_cases h : va < PGROUNDUP sz'
  · rw [if_pos h, if_pos h, if_neg (by omega)]
  · rw [if_neg h, if_neg h]

/-- A page that has not been allocated yet is clear. -/
theorem At.lazy {pt : PageTable} {lim lim' : Nat} {top : Nat → Pte} (h : At T b₀ top X pt lim u sh r) (hle : lim ≤ lim')
    (halign : lim' % PGSIZE = 0) (hmax : lim' ≤ TRAPFRAME) : At T b₀ top X pt lim' (u.grow lim lim' userRW) sh r := by
  have hspace := h.space
  refine ⟨⟨hspace.leafy, fun x hlo => hspace.hole x (by omega), hspace.above, halign, hmax⟩, ?_, h.within, ?_, h.short⟩
  · have hn : lim' / PGSIZE = lim / PGSIZE + (lim' / PGSIZE - lim / PGSIZE) := by
      unfold PGSIZE at *
      omega
    have hzero : leaves pt (0 + lim / PGSIZE * PGSIZE) (lim' / PGSIZE - lim / PGSIZE) = 0 := by
      refine leaves_eq_zero fun k hk => hspace.hole _ ?_ ?_
      · rw [Nat.zero_add, mul_div_aligned hspace.aligned]
        exact Nat.le_add_right ..
      · have hlt := Nat.mul_lt_mul_of_pos_right hk pgsize_pos
        rw [Nat.zero_add, mul_div_aligned hspace.aligned]
        rw [Nat.sub_mul, mul_div_aligned hspace.aligned, mul_div_aligned halign] at hlt
        omega
    rw [← h.pages, owned, owned, hn, leaves_add, hzero, add_zero]
  · funext x
    unfold UserMem.grow
    by_cases hx : lim ≤ x ∧ x < lim'
    · rw [if_pos hx, view_lazy hx.2 (hspace.hole x hx.1 (by omega))]
    · rw [if_neg hx, ← h.view]
      unfold Copy.view
      by_cases hlow : x < lim
      · rw [if_pos hlow, if_pos (by omega)]
      · rw [if_neg hlow, if_neg (by omega)]

/-- The size of `p` has changed by `n`, or memory has run out. -/
def Resized (T : Multiset Nat) (b₀ : Nat → Byte) (trampoline : Nat) (X : Multiset Nat) (p : Proc) (u : UserMem)
    (sh : Bool)
    (n : Int) (ok : Bool) (q : Proc) (r : Ram) : Prop :=
  if ok then q.sz = newSize p.sz n ∧ Holds T b₀ trampoline X q (u.resize p.sz (newSize p.sz n)) sh r
  else q.sz = p.sz ∧ Holds T b₀ trampoline X q u true r

theorem pgroundup_newSize {n : Int} (hn : 0 ≤ n) (hfit : p.sz + n.toNat ≤ TRAPFRAME) :
    PGROUNDUP p.sz ≤ PGROUNDUP (newSize p.sz n) := by
  rw [newSize_of_nonneg hn]
  exact pgroundup_mono (Nat.le_add_right ..) (le_maxva hfit)

theorem growproc_more (hT : Frames T) {n : Int} (hn : 0 < n) (hfit : p.sz + n.toNat ≤ TRAPFRAME) :
    Runs (Holds T b₀ trampoline X p u sh) (growproc p n) fun q r =>
      q.2 = 0 ∧ Resized T b₀ trampoline X p u sh n true q.1 r ∨ q.2 = -1 ∧
      Resized T b₀ trampoline X p u sh n false q.1 r := by
  refine Triple.each fun r₀ h => ?_
  have hsz := h.size
  have hnew : newSize p.sz n = p.sz + n.toNat := newSize_of_nonneg (Int.le_of_lt hn)
  unfold growproc
  rw [if_pos hn, addSz_of_nonneg (Int.le_of_lt hn) hfit]
  refine (Triple.bind (uvmalloc_at hT hsz (.inl (by rw [hnew]; exact hfit))) fun a => ?_ :
    Runs (At T b₀ (procTop p.trapframe trampoline) (X + {p.trapframe} + {p.root}) p.pagetable (PGROUNDUP p.sz) u sh)
    _ _).conseq
    (fun s hs => hs ▸ h.space) fun _ _ h => h
  refine Triple.ite (fun h0 => Triple.pure _ fun s hs => .inr ⟨rfl, rfl, hsz, ?_⟩) fun h0 => Triple.pure _ fun s hs =>
    .inl ⟨rfl, ?_⟩
  · have hat := (hs.1 h0).2
    have hshort : (sh || decide (0 < newSize p.sz n)) = true := by
      rw [hnew]
      simp
      omega
    rwa [hshort] at hat
  · obtain ⟨hmax, hend, hat, -⟩ := hs.2 h0
    have hmax' : a.2 = newSize p.sz n := by
      rw [hmax, hnew]
      omega
    refine ⟨hmax', hend, ?_⟩
    rw [UserMem.resize_grow h.space.cut_self (pgroundup_newSize (Int.le_of_lt hn) hfit), ← hmax']
    exact hat

theorem growproc_less (hT : Frames T) {n : Int} (hn : n < 0) (hlo : -2 ^ 31 ≤ n) :
    Runs (Holds T b₀ trampoline X p u sh) (growproc p n) fun q r =>
      q.2 = 0 ∧ Resized T b₀ trampoline X p u sh n true q.1 r := by
  refine Triple.each fun r₀ h => ?_
  have hsz := h.size
  unfold growproc
  rw [if_neg (by omega), if_pos hn]
  refine (Triple.bind (uvmdealloc_at hT hsz (addSz p.sz n)) fun a => Triple.pure _ fun s ⟨hr, hat⟩ => ⟨rfl, ?_⟩ :
    Runs (At T b₀ (procTop p.trapframe trampoline) (X + {p.trapframe} + {p.root}) p.pagetable (PGROUNDUP p.sz) u sh)
    _ _).conseq
    (fun s hs => hs ▸ h.space) fun _ _ h => h
  rw [min_addSz hn hlo hsz] at hr
  have hle : newSize p.sz n ≤ p.sz := by
    unfold newSize
    split
    · omega
    · split <;> omega
  refine ⟨hr, by simp only; omega, ?_⟩
  rw [UserMem.resize_cut (pgroundup_mono hle (le_maxva hsz)), ← hr]
  exact hat

/-- Pages that are not allocated yet. -/
theorem Holds.lazy (h : Holds T b₀ trampoline X p u sh r) {n : Int} (hn : 0 ≤ n) (hfit : p.sz + n.toNat ≤ TRAPFRAME) :
    Resized T b₀ trampoline X p u sh n true { p with sz := newSize p.sz n } r := by
  have hmono := pgroundup_newSize hn hfit
  have hnew : newSize p.sz n = p.sz + n.toNat := newSize_of_nonneg hn
  refine ⟨rfl, by rw [hnew]; exact hfit, ?_⟩
  rw [UserMem.resize_grow h.space.cut_self hmono]
  exact h.space.lazy hmono (pgroundup_mod _) (pgroundup_le_top (by rw [hnew]; exact hfit))

/-- `sbrk` fails only where memory has run out. -/
theorem sysSbrk_at (hT : Frames T) (n : BitVec 32) (eager : Bool)
    (hfit : 0 ≤ n.toInt → p.sz + n.toInt.toNat ≤ TRAPFRAME) :
    Runs (Holds T b₀ trampoline X p u sh) (sysSbrk p n eager) fun q r =>
      q.2 = p.sz ∧ Resized T b₀ trampoline X p u sh n.toInt true q.1 r ∨
        q.2 = -1 ∧ Resized T b₀ trampoline X p u sh n.toInt false q.1 r := by
  have hlo : -2 ^ 31 ≤ n.toInt := BitVec.le_toInt n
  unfold sysSbrk
  refine Triple.ite (fun hc => ?_) fun hc => ?_
  · refine Triple.bind (R := fun q r => q.2 = 0 ∧ Resized T b₀ trampoline X p u sh n.toInt true q.1 r ∨
      q.2 = -1 ∧ Resized T b₀ trampoline X p u sh n.toInt false q.1 r) ?_ fun q => ?_
    · rcases Int.lt_trichotomy n.toInt 0 with hneg | hzero | hpos
      · exact (growproc_less hT hneg hlo).conseq (fun _ h => h) fun _ _ h => .inl h
      · unfold growproc
        rw [hzero, if_neg (Int.lt_irrefl 0), if_neg (Int.lt_irrefl 0)]
        exact Triple.pure _ fun r h => .inl ⟨rfl, h.lazy (Int.le_refl 0) h.size⟩
      · exact growproc_more hT hpos (hfit (Int.le_of_lt hpos))
    · refine Triple.ite (fun hneg => Triple.pure _ fun r h => ?_) fun hneg => Triple.pure _ fun r h => ?_
      · rcases h with h | h
        · rw [h.1] at hneg
          exact absurd hneg (Int.lt_irrefl 0)
        · exact .inr ⟨rfl, h.2⟩
      · rcases h with h | h
        · exact .inl ⟨rfl, h.2⟩
        · rw [h.1] at hneg
          exact absurd (by decide) hneg
  · have hn : 0 ≤ n.toInt := by
      by_contra hneg
      exact hc (.inr (by omega))
    rw [addSz_of_nonneg hn (hfit hn), newSize_of_nonneg hn]
    refine Triple.ite (fun hcon => absurd hcon (by omega)) fun _ => Triple.pure _ fun r h => .inl ⟨rfl, ?_⟩
    rw [← newSize_of_nonneg hn]
    exact h.lazy hn (hfit hn)

/-! ## Page faults -/

/-- The page of `va`, which was clear and had not been allocated. -/
structure Faulted (T : Multiset Nat) (b₀ : Nat → Byte) (trampoline : Nat) (X : Multiset Nat) (p : Proc)
    (u : UserMem) (sh : Bool)
    (va : Nat) (q : Proc × Nat) (r : Ram) : Prop where
  holds : Holds T b₀ trampoline X q.1 u sh r
  size : q.1.sz = p.sz
  below : va < p.sz
  page : q.2 ≠ 0
  entry : pteAt q.1.pagetable (PGROUNDDOWN va) = ⟨true, userRW, q.2⟩

theorem lt_pgroundup (hsz : p.sz ≤ TRAPFRAME) (hva : va < p.sz) : va < PGROUNDUP p.sz :=
  lt_of_lt_of_le hva (le_pgroundup (le_maxva hsz))

/-- A clear page of which nothing has been allocated is seen as it is. -/
theorem Holds.page_clear (h : Holds T b₀ trampoline X p u sh r) {a : Nat} (halign : a % PGSIZE = 0)
    (hlim : a < PGROUNDUP p.sz)
    (hv : (pteAt p.pagetable a).V = false) : u.page a userRW (fun _ => 0) = u := by
  funext x
  unfold UserMem.page
  by_cases hx : a ≤ x ∧ x < a + PGSIZE
  · have hxlim : x < PGROUNDUP p.sz := by
      have hmod := pgroundup_mod p.sz
      unfold PGSIZE at *
      omega
    rw [if_pos hx, ← h.space.view, view_lazy hxlim (by rw [pteAt_congr (div_eq_of_aligned halign hx.1 hx.2), hv])]
  · rw [if_neg hx]

theorem vmfault_at (hT : Frames T) (va : Nat) :
    Runs (Holds T b₀ trampoline X p u sh) (vmfault p va) fun q r => Faulted T b₀ trampoline X p u sh va q r ∨
      q.2 = 0 ∧ q.1.sz = p.sz ∧ Holds T b₀ trampoline X q.1 u true r ∨
      q.2 = 0 ∧ q.1 = p ∧ Holds T b₀ trampoline X p u sh r ∧ (p.sz ≤ va ∨ (pteAt p.pagetable va).V = true) := by
  refine Triple.each fun r₀ h => ?_
  have hsz := h.size
  unfold vmfault
  refine Triple.ite (fun hge => Triple.pure _ fun r hr => .inr (.inr ⟨rfl, rfl, hr ▸ h, .inl hge⟩)) fun hlt => ?_
  have hva : va < p.sz := Nat.not_le.1 hlt
  let a := PGROUNDDOWN va
  have hdown : a ≤ va := pgrounddown_le va
  have halign : a % PGSIZE = 0 := pgrounddown_mod va
  have hlim : a < PGROUNDUP p.sz := lt_of_le_of_lt hdown (lt_pgroundup hsz hva)
  have hsame : pteAt p.pagetable a = pteAt p.pagetable va := pteAt_congr (pgrounddown_div va)
  show Runs _ (onMem (ismapped p.pagetable a) >>= _) _
  refine Triple.bind (R := fun v r => v = (pteAt p.pagetable a).V ∧ r = r₀) (Triple.of_ok fun r hr => ⟨_, _, onMem_ok
    (ismapped_eq (h.space.space.ltmax hlim) p.pagetable r.mem), rfl, hr⟩) fun v => ?_
  refine Triple.each fun r₁ ⟨hv, hr₁⟩ => ?_
  subst hv hr₁
  refine Triple.ite (fun hv => Triple.pure _ fun r hr => .inr (.inr ⟨rfl, rfl, hr ▸ h, .inr (hsame ▸ hv)⟩)) fun hv => ?_
  have hinvalid : (pteAt p.pagetable a).V = false := by simpa using hv
  have hroom : max (PGROUNDUP p.sz) (a + PGSIZE) = PGROUNDUP p.sz := by
    have hmod := pgroundup_mod p.sz
    unfold PGSIZE at *
    omega
  refine (Triple.bind (kalloc_at hT) fun o => ?_ :
    Runs (At T b₀ (procTop p.trapframe trampoline) (X + {p.trapframe} + {p.root}) p.pagetable (PGROUNDUP p.sz) u sh)
    _ _).conseq
    (fun s hs => hs ▸ h.space) fun _ _ h => h
  cases o with
  | none => exact Triple.pure _ fun r hr => .inr (.inl ⟨rfl, rfl, hsz, hr⟩)
  | some mem =>
    have hheld : mem ∈ X + {p.trapframe} + {p.root} + {mem} :=
      Multiset.mem_add.2 (.inr (Multiset.mem_singleton_self mem))
    refine Triple.bind (memset_at hT hheld 0) fun _ => ?_
    refine Triple.each fun s₁ h₁ => ?_
    have hmem := hT.page mem (h₁.1.mem_of_held hheld)
    refine (Triple.bind (mappages_at halign (Nat.le_of_lt hlim) (by omega) rfl hinvalid) fun m => ?_ :
      Runs (fun s => At T b₀ (procTop p.trapframe trampoline) (X + {p.trapframe} + {p.root} + {mem}) p.pagetable
        (PGROUNDUP p.sz) u sh s ∧ Contains mem (fun _ => 0) s) _ _).conseq (fun s hs => hs ▸ h₁) fun _ _ h => h
    refine Triple.ite (fun hfail => ?_) fun hok => Triple.pure _ fun s hs => ?_
    · refine (Triple.bind (kfree_at hT) fun _ => Triple.pure _ fun s hs => .inr (.inl ⟨rfl, rfl, hsz, hs⟩) :
        Runs (At T b₀ (procTop p.trapframe trampoline) (X + {p.trapframe} + {p.root} + {mem}) m.1
        (PGROUNDUP p.sz) u true) _ _).conseq
        (fun s hs => (hs.2 hfail).1) fun _ _ h => h
    · obtain ⟨hat, hself, -⟩ := hs.1 (not_not.1 hok)
      rw [h.page_clear halign hlim hinvalid, hroom] at hat
      exact .inl ⟨⟨hsz, hat⟩, rfl, hva, hmem.1, hself⟩

/-! ## Finding a page -/

/-- The process may touch the page of `va`, and the page is there. -/
structure Reached (T : Multiset Nat) (b₀ : Nat → Byte) (trampoline : Nat) (X : Multiset Nat) (p : Proc)
    (u : UserMem) (sh : Bool)
    (va : Nat) (q : Proc × Nat) (r : Ram) : Prop where
  holds : Holds T b₀ trampoline X q.1 u sh r
  size : q.1.sz = p.sz
  below : va < PGROUNDUP p.sz
  page : q.2 ≠ 0
  valid : (pteAt q.1.pagetable va).V = true
  user : (pteAt q.1.pagetable va).perm.U = true
  pa : (pteAt q.1.pagetable va).pa = q.2

/-- What user code may touch is below the size. -/
theorem Holds.user_below (h : Holds T b₀ trampoline X p u sh r) (hmax : va < MAXVA)
    (hv : (pteAt p.pagetable va).V = true)
    (hu : (pteAt p.pagetable va).perm.U = true) : va < PGROUNDUP p.sz := by
  by_contra hge
  by_cases htop : va < TRAPFRAME
  · rw [h.space.space.hole va (Nat.not_lt.1 hge) htop] at hv
    cases hv
  · rw [h.space.space.above va (Nat.not_lt.1 htop) (maxva_lt hmax)] at hu
    unfold procTop setTop noTop at hu
    split at hu
    · cases hu
    · split at hu <;> cases hu

theorem Holds.readable_valid (h : Holds T b₀ trampoline X p u sh r) (hlim : va < PGROUNDUP p.sz)
    (hv : (pteAt p.pagetable va).V = true) : u.readable va =
      if (pteAt p.pagetable va).perm.U then some (r.byte ((pteAt p.pagetable va).pa + va % PGSIZE)) else none := by
  unfold UserMem.readable
  rw [← h.space.view, view_valid hlim hv, Option.bind_some]

/-- The addresses of a page may be read, or none of them. -/
theorem Holds.readable_down (h : Holds T b₀ trampoline X p u sh r) (hnone : u.readable (PGROUNDDOWN va) = none) :
    u.readable va = none := by
  have hpage := pgrounddown_div va
  have hlim : PGROUNDDOWN va < PGROUNDUP p.sz ↔ va < PGROUNDUP p.sz := by
    have hmod := pgroundup_mod p.sz
    unfold PGROUNDDOWN PGSIZE at *
    omega
  unfold UserMem.readable at *
  rw [← h.space.view] at *
  by_cases hva : va < PGROUNDUP p.sz
  · by_cases hv : (pteAt p.pagetable va).V = true
    · rw [view_valid (hlim.2 hva) (by rw [pteAt_congr hpage]; exact hv), pteAt_congr hpage] at hnone
      rw [view_valid hva hv]
      revert hnone
      cases (pteAt p.pagetable va).perm.U <;> simp
    · rw [view_lazy (hlim.2 hva) (by rw [pteAt_congr hpage]; simpa using hv)] at hnone
      cases hnone
  · rw [view_of_le (Nat.not_lt.1 hva)]
    rfl

theorem resolve_at (hT : Frames T) (halign : va % PGSIZE = 0) :
    Runs (Holds T b₀ trampoline X p u sh) (resolve p va) fun q r => Reached T b₀ trampoline X p u sh va q r ∨
      q.2 = 0 ∧ q.1.sz = p.sz ∧ Holds T b₀ trampoline X q.1 u true r ∨
      q.2 = 0 ∧ q.1 = p ∧ Holds T b₀ trampoline X p u sh r ∧ u.readable va = none := by
  refine Triple.each fun r₀ h => ?_
  unfold resolve
  refine Triple.bind (R := fun pa r => pa = _ ∧ r = r₀) (Triple.of_ok fun r hr => ⟨_, _, onMem_ok
    (walkaddr_eq p.pagetable va r.mem), rfl, hr⟩) fun pa => ?_
  refine Triple.each fun r₁ ⟨hpa, hr₁⟩ => ?_
  subst hr₁
  by_cases hyes : va < MAXVA ∧ (pteAt p.pagetable va).V = true ∧ (pteAt p.pagetable va).perm.U = true
  · rw [if_pos hyes] at hpa
    have hlim := h.user_below hyes.1 hyes.2.1 hyes.2.2
    have hne := (hT.page _ (h.space.mem_of_leaf hlim hyes.2.1)).1
    rw [if_neg (by rw [hpa]; exact hne)]
    refine Triple.pure _ fun r hr => .inl ⟨hr ▸ h, rfl, hlim, ?_, hyes.2.1, hyes.2.2, hpa.symm⟩
    simp only
    rw [hpa]
    exact hne
  · rw [if_neg hyes] at hpa
    rw [if_pos hpa]
    refine (vmfault_at hT va).conseq (fun r hr => hr ▸ h) fun q r hq => ?_
    rcases hq with hq | hq | ⟨h0, hqp, hholds, hcase⟩
    · have hentry := hq.entry
      rw [pteAt_congr (pgrounddown_div va)] at hentry
      refine .inl ⟨hq.holds, hq.size, lt_pgroundup h.size hq.below, hq.page, ?_, ?_, ?_⟩ <;> rw [hentry]
      rfl
    · exact .inr (.inl hq)
    · refine .inr (.inr ⟨h0, hqp, hholds, ?_⟩)
      by_cases hlim : va < PGROUNDUP p.sz
      · rcases hcase with hge | hv
        · have hle := pgroundup_le hge (Nat.le_of_lt (h.space.space.ltmax hlim)) halign
          omega
        · rw [h.readable_valid hlim hv, if_neg fun hu => hyes ⟨h.space.space.ltmax hlim, hv, hu⟩]
      · unfold UserMem.readable
        rw [h.space.cut (Nat.not_lt.1 hlim)]
        rfl

/-- The bytes of one round are on the page. -/
theorem Reached.chunk_byte {q : Proc × Nat} {len k : Nat} (h : Reached T b₀ trampoline X p u sh (PGROUNDDOWN va) q r)
    (hk : k < chunk va len) : u (va + k) =
      some ((pteAt q.1.pagetable (PGROUNDDOWN va)).perm, r.byte (q.2 + (va - PGROUNDDOWN va) + k)) := by
  obtain ⟨hpage, hoff⟩ := chunk_page hk
  have hlim : va + k < PGROUNDUP q.1.sz := by
    have hbelow := h.below
    have hmod := pgroundup_mod p.sz
    rw [h.size]
    unfold PGROUNDDOWN PGSIZE at *
    omega
  rw [← h.holds.space.view, view_valid hlim (by rw [pteAt_congr hpage]; exact h.valid), pteAt_congr hpage, h.pa, hoff,
    Nat.add_assoc]

theorem Reached.readable {q : Proc × Nat} {len k : Nat} (h : Reached T b₀ trampoline X p u sh (PGROUNDDOWN va) q r)
    (hk : k < chunk va len) : u.readable (va + k) = some (r.byte (q.2 + (va - PGROUNDDOWN va) + k)) := by
  unfold UserMem.readable
  rw [h.chunk_byte hk, Option.bind_some, if_pos h.user]

theorem Reached.maxva {q : Proc × Nat} (h : Reached T b₀ trampoline X p u sh va q r) : va < MAXVA :=
  h.holds.space.space.ltmax (by rw [h.size]; exact h.below)

/-! ## `copyin` -/

/-- `copyin` reads what the process sees, up to a byte that it may not touch, unless memory runs out. -/
theorem copyin_at (hT : Frames T) (srcva len : Nat) :
    Runs (Holds T b₀ trampoline X p u sh) (copyin p srcva len) fun q r => q.1.sz = p.sz ∧
      (Holds T b₀ trampoline X q.1 u true r ∧ q.2.1 = -1 ∨
        Holds T b₀ trampoline X q.1 u sh r ∧ q.2.2 = u.read srcva len ∧
        q.2.1 = if q.2.2.length = len then 0 else -1) := by
  induction len using Nat.strong_induction_on generalizing p srcva with
  | _ len ih =>
    rw [copyin]
    by_cases h0 : len = 0
    · rw [dif_pos h0]
      subst h0
      exact Triple.pure _ fun r h => ⟨rfl, .inr ⟨h, rfl, rfl⟩⟩
    · rw [dif_neg h0]
      have hpos := chunk_pos srcva h0
      have hle := chunk_le srcva len
      refine Triple.bind (resolve_at hT (pgrounddown_mod srcva)) fun q => ?_
      refine Triple.ite (fun hpa => Triple.pure _ fun r h => ?_) fun hpa => ?_
      · rcases h with h | ⟨-, hsz, h⟩ | ⟨-, rfl, h, hnone⟩
        · exact absurd hpa h.page
        · exact ⟨hsz, .inl ⟨h, rfl⟩⟩
        · refine ⟨rfl, .inr ⟨h, (UserMem.read_of_none (h.readable_down hnone)).symm, ?_⟩⟩
          rw [if_neg (by simpa using Ne.symm h0)]
      · refine Triple.each fun r h => ?_
        have hreach := h.resolve_right fun hor => hor.elim (fun h => hpa h.1) fun h => hpa h.1
        refine Triple.bind (R := fun bytes s => s = r ∧ bytes = (List.range (chunk srcva len)).map fun k =>
          r.byte (q.2 + (srcva - PGROUNDDOWN srcva) + k)) (Triple.of_ok fun s hs => ⟨_, _, rfl, hs, by rw [hs]⟩)
          fun bytes => ?_
        refine Triple.each fun s hload => ?_
        obtain ⟨hs, hbytes⟩ := hload
        subst hs
        refine (Triple.bind (ih _ (by omega) _) fun rest => Triple.pure _ fun t ht => ?_ :
          Runs (Holds T b₀ trampoline X q.1 u sh) _ _).conseq (fun _ hs => hs ▸ hreach.holds) fun _ _ h => h
        obtain ⟨hsz, hrest⟩ := ht
        refine ⟨hsz.trans hreach.size, hrest.imp_right fun hr => ?_⟩
        obtain ⟨hholds, hread, hres⟩ := hr
        have hnext : u.read ((PGROUNDDOWN srcva + PGSIZE) % 2 ^ 64) (len - chunk srcva len) =
            u.read (srcva + chunk srcva len) (len - chunk srcva len) := by
          by_cases hend : chunk srcva len < len
          · rw [chunk_next hreach.maxva hend]
          · rw [Nat.sub_eq_zero_of_le (by omega), UserMem.read_zero, UserMem.read_zero]
        have hall : bytes ++ rest.2.2 = u.read srcva len := by
          calc bytes ++ rest.2.2 = bytes ++ u.read (srcva + chunk srcva len) (len - chunk srcva len) := by rw [hread, hnext]
            _ = u.read srcva (chunk srcva len + (len - chunk srcva len)) := by
              rw [hbytes]
              exact (UserMem.read_add fun k hk => hreach.readable hk).symm
            _ = u.read srcva len := by rw [Nat.add_sub_cancel' hle]
        refine ⟨hholds, hall, ?_⟩
        have hlen : (bytes ++ rest.2.2).length = chunk srcva len + rest.2.2.length := by rw [hbytes]; simp
        rw [hres, hlen]
        exact if_congr (by omega) rfl rfl

/-! ## Writing to a page -/

/-- Other bytes on a page are seen where the page is mapped, and nowhere else. -/
theorem At.view_moved {top : Nat → Pte} {pt : PageTable} {lim n : Nat} {bs : List Byte} (hT : Frames T)
    (h : At T b₀ top X pt lim u sh r) (hva : PGROUNDDOWN va < lim) (hv : (pteAt pt (PGROUNDDOWN va)).V = true)
    (hn : bs.length ≤ chunk va n) :
    Copy.view pt lim (moved r.byte ((pteAt pt (PGROUNDDOWN va)).pa + (va - PGROUNDDOWN va)) bs) = u.store va bs := by
  have hdown := pgrounddown_le va
  have hroom : va - PGROUNDDOWN va + bs.length ≤ PGSIZE := by
    unfold chunk PGROUNDDOWN PGSIZE at *
    omega
  have hpa := hT.page _ (h.mem_of_leaf hva hv)
  funext x
  unfold UserMem.store
  rw [← h.view]
  by_cases hx : x < lim
  · by_cases hxv : (pteAt pt x).V = true
    · rw [view_valid hx hxv, view_valid hx hxv]
      have hmod : x % PGSIZE < PGSIZE := Nat.mod_lt _ pgsize_pos
      by_cases hpage : x / PGSIZE = PGROUNDDOWN va / PGSIZE
      · rw [pteAt_congr hpage]
        have hoff : x % PGSIZE = x - PGROUNDDOWN va ∧ PGROUNDDOWN va ≤ x := by
          unfold PGROUNDDOWN PGSIZE at *
          omega
        by_cases hin : va ≤ x ∧ x < va + bs.length
        · have hk : (pteAt pt (PGROUNDDOWN va)).pa + x % PGSIZE =
              (pteAt pt (PGROUNDDOWN va)).pa + (va - PGROUNDDOWN va) + (x - va) := by omega
          have hlt : x - va < bs.length := by omega
          rw [if_pos hin, hk, moved_self hlt, Option.map_some, List.getD_eq_getElem?_getD, List.getElem?_eq_getElem hlt,
            Option.getD_some]
        · rw [if_neg hin, moved_of_not_mem (by omega)]
      · have hne : (pteAt pt x).pa ≠ (pteAt pt (PGROUNDDOWN va)).pa := fun he =>
          hpage (leaf_inj (h.leaves_nodup hT.nodup) h.space.aligned hx hva hxv hv he)
        have hapart := not_in_page hpa.2 (hT.page _ (h.mem_of_leaf hx hxv)).2 hne hmod
        rw [moved_of_not_mem (by omega), if_neg]
        unfold PGROUNDDOWN PGSIZE at *
        omega
    · have hpage : x / PGSIZE ≠ PGROUNDDOWN va / PGSIZE := fun he => by
        rw [pteAt_congr he] at hxv
        exact hxv hv
      rw [view_lazy hx (by simpa using hxv), view_lazy hx (by simpa using hxv), if_neg]
      unfold PGROUNDDOWN PGSIZE at *
      omega
  · rw [view_of_le (Nat.not_lt.1 hx), view_of_le (Nat.not_lt.1 hx)]
    split <;> rfl

/-- The process has bytes of its own page changed. -/
theorem Holds.move {n : Nat} {bs : List Byte} (hT : Frames T) (h : Holds T b₀ trampoline X p u sh r)
    (hva : PGROUNDDOWN va < PGROUNDUP p.sz) (hv : (pteAt p.pagetable (PGROUNDDOWN va)).V = true)
    (hn : bs.length ≤ chunk va n) :
    Holds T b₀ trampoline X p (u.store va bs) sh
      { r with byte := moved r.byte ((pteAt p.pagetable (PGROUNDDOWN va)).pa + (va - PGROUNDDOWN va)) bs } := by
  have hroom : va - PGROUNDDOWN va + bs.length ≤ PGSIZE := by
    have hdown := pgrounddown_le va
    unfold chunk PGROUNDDOWN PGSIZE at *
    omega
  exact ⟨h.size, h.space.space, h.space.pages, h.space.within.trans (within_moved (h.space.mem_of_leaf hva hv) hroom _),
    h.space.view_moved hT hva hv hn, h.space.short⟩

/-! ## `copyout` -/

theorem writable_of_some {e : Perm × Byte} (h : u va = some e) (hU : e.1.U = true) : u.writable va = e.1.W := by
  unfold UserMem.writable
  rw [h, Option.any_some, hU, Bool.true_and]

/-- `copyout` writes what the process sees, up to a byte that it may not touch, or to where memory has run out. -/
theorem copyout_at (hT : Frames T) (dstva : Nat) (src : List Byte) :
    Runs (Holds T b₀ trampoline X p u sh) (copyout p dstva src) fun q r => q.1.sz = p.sz ∧
      (q.2 = -1 ∧ (∃ k, k ≤ src.length ∧ Holds T b₀ trampoline X q.1 (u.write dstva (src.take k)).1 true r) ∨
        q.2 = (u.write dstva src).2 ∧ Holds T b₀ trampoline X q.1 (u.write dstva src).1 sh r) := by
  induction hlen : src.length using Nat.strong_induction_on generalizing p u dstva src with
  | _ len ih =>
    subst hlen
    rw [copyout]
    by_cases h0 : src.length = 0
    · rw [dif_pos h0, List.length_eq_zero_iff.1 h0]
      exact Triple.pure _ fun r h => ⟨rfl, .inr ⟨rfl, h⟩⟩
    rw [dif_neg h0]
    have hne : src ≠ [] := fun h => h0 (by rw [h]; rfl)
    have hpos := chunk_pos dstva h0
    have hle := chunk_le dstva src.length
    -- nothing can be written at the first address
    have hstop : ∀ q : Proc, ∀ r : Ram, u.writable dstva = false → Holds T b₀ trampoline X q u sh r →
        (-1 : Int) = (u.write dstva src).2 ∧ Holds T b₀ trampoline X q (u.write dstva src).1 sh r := by
      intro q r hw h
      rw [UserMem.write_of_not_writable hw hne]
      exact ⟨rfl, h⟩
    refine Triple.ite (fun hmax => Triple.pure _ fun r h => ⟨rfl, .inr (hstop p r ?_ h)⟩) fun hmax => ?_
    · have hdown := pgrounddown_le dstva
      unfold UserMem.writable
      rw [h.space.cut, Option.any_none]
      by_contra hlt
      have := h.space.space.ltmax (Nat.not_le.1 hlt)
      omega
    refine Triple.bind (resolve_at hT (pgrounddown_mod dstva)) fun q => ?_
    refine Triple.ite (fun hpa => Triple.pure _ fun r h => ?_) fun hpa => ?_
    · rcases h with h | ⟨-, hsz, h⟩ | ⟨-, rfl, h, hnone⟩
      · exact absurd hpa h.page
      · refine ⟨hsz, .inl ⟨rfl, 0, Nat.zero_le _, ?_⟩⟩
        rw [List.take_zero]
        exact h
      · exact ⟨rfl, .inr (hstop q.1 r (writable_of_readable_none (h.readable_down hnone)) h)⟩
    refine Triple.each fun r h => ?_
    have hreach := h.resolve_right fun hor => hor.elim (fun h => hpa h.1) fun h => hpa h.1
    refine Triple.bind (R := fun w s => w.2 = slot q.1.pagetable (PGROUNDDOWN dstva) ∧ s = r) (Triple.of_ok fun s hs =>
      ⟨_, _, onMem_ok (walk_eq hreach.maxva q.1.pagetable s.mem), rfl, hs⟩) fun w => ?_
    refine Triple.each fun s hwalk => ?_
    obtain ⟨hw, hs⟩ := hwalk
    subst hs
    rw [hw]
    have hvalid := hreach.valid
    cases hslot : slot q.1.pagetable (PGROUNDDOWN dstva) with
    | none =>
      rw [pteAt, hslot] at hvalid
      cases hvalid
    | some pte =>
      have hpte : pteAt q.1.pagetable (PGROUNDDOWN dstva) = pte := by rw [pteAt, hslot, Option.getD_some]
      have hwrite : ∀ k, k < chunk dstva src.length → u.writable (dstva + k) = pte.perm.W := by
        intro k hk
        rw [writable_of_some (hreach.chunk_byte hk) hreach.user, hpte]
      simp only
      refine Triple.ite (fun hW => Triple.pure _ fun t ht => ?_) fun hW => ?_
      · subst ht
        refine ⟨hreach.size, .inr (hstop q.1 t ?_ hreach.holds)⟩
        have hfirst := hwrite 0 hpos
        rwa [Nat.add_zero, hW] at hfirst
      · let n := chunk dstva src.length
        have htake : (src.take n).length = n := List.length_take_of_le hle
        let dst := (pteAt q.1.pagetable (PGROUNDDOWN dstva)).pa + (dstva - PGROUNDDOWN dstva)
        have hmoved : Holds T b₀ trampoline X q.1
          (u.store dstva (src.take n)) sh { s with byte := moved s.byte dst (src.take n) } :=
          hreach.holds.move hT (by rw [hreach.size]; exact hreach.below) hreach.valid (Nat.le_of_eq htake)
        simp only [dst] at hmoved
        rw [hreach.pa] at hmoved
        refine Triple.bind (R := fun _ => Holds T b₀ trampoline X q.1 (u.store dstva (src.take n)) sh) (Triple.of_ok
          fun t ht => ⟨_, _, memmove_eq .., by rw [ht]; exact hmoved⟩) fun _ => ?_
        have hpage : ∀ k, k < (src.take n).length → u.writable (dstva + k) = true := by
          intro k hk
          rw [htake] at hk
          rw [hwrite k hk]
          simpa using hW
        -- the round, and then the rest of what is written
        have hsplit : ∀ l : List Byte, (n < src.length ∨ l = []) →
            (u.store dstva (src.take n)).write ((PGROUNDDOWN dstva + PGSIZE) % 2 ^ 64) l = u.write dstva
            (src.take n ++ l) := by
          intro l hl
          rw [UserMem.write_append hpage, htake]
          rcases hl with hend | rfl
          · rw [chunk_next hreach.maxva hend]
          · rw [UserMem.write_nil, UserMem.write_nil]
        have hrest : ∀ k, n < src.length ∨ (src.drop n).take k = [] := by
          intro k
          by_cases hend : n < src.length
          · exact .inl hend
          · rw [List.drop_of_length_le (by omega), List.take_nil]
            exact .inr rfl
        refine (ih (src.drop n).length (by rw [List.length_drop]; omega) _ (src.drop n) rfl).conseq (fun _ h => h)
          fun q' t hend => ⟨hend.1.trans hreach.size, ?_⟩
        have ht := hend.2
        rcases ht with ⟨hres, k, hk, ht⟩ | ⟨hres, ht⟩
        · rw [hsplit _ (hrest k)] at ht
          refine .inl ⟨hres, n + k, by rw [List.length_drop] at hk; omega, ?_⟩
          rwa [List.take_add]
        · rw [hsplit _ ((hrest src.length).imp_right fun h => by rwa [List.take_of_length_le (by simp)] at h),
            List.take_append_drop] at hres ht
          exact .inr ⟨hres, ht⟩

/-! ## `copyinstr` -/

theorem UserMem.readString_pos {n : Nat} (h : (u.readString va n).1 = 0) : 0 < (u.readString va n).2.length := by
  cases n with
  | zero => cases h
  | succ n =>
    rw [UserMem.readString] at h ⊢
    cases hu : u.readable va with
    | none =>
      rw [hu] at h
      cases h
    | some b =>
      simp only
      by_cases hb : b = 0
      · simp only [if_pos hb, List.length_singleton, Nat.lt_one_iff]
      · simp only [if_neg hb, List.length_cons]
        exact Nat.succ_pos _

/-- A string that is read is read as well where more may be read. -/
theorem readString_of_mapped {v : UserMem} {n : Nat} (hle : ∀ x b, v.readable x = some b → u.readable x = some b)
    (h0 : (v.readString va n).1 = 0) : u.readString va n = v.readString va n := by
  induction n generalizing va with
  | zero => rfl
  | succ n ih =>
    rw [UserMem.readString] at h0 ⊢
    rw [UserMem.readString]
    cases hv : v.readable va with
    | none =>
      rw [hv] at h0
      cases h0
    | some b =>
      rw [hle va b hv]
      rw [hv] at h0
      simp only at h0 ⊢
      by_cases hb : b = 0
      · rw [if_pos hb, if_pos hb]
      · rw [if_neg hb] at h0 ⊢
        rw [if_neg hb, ih h0]

theorem UserMem.readString_length (u : UserMem) (va n : Nat) : (u.readString va n).2.length ≤ n := by
  induction n generalizing va with
  | zero => exact Nat.le_refl 0
  | succ n ih =>
    rw [UserMem.readString]
    cases u.readable va with
    | none => exact Nat.zero_le _
    | some b =>
      by_cases hb : b = 0
      · simp only [if_pos hb, List.length_singleton]
        omega
      · simp only [if_neg hb, List.length_cons]
        exact Nat.succ_le_succ (ih (va + 1))

theorem UserMem.readString_result (u : UserMem) (va n : Nat) :
    (u.readString va n).1 = 0 ∨ (u.readString va n).1 = -1 := by
  induction n generalizing va with
  | zero => exact .inr rfl
  | succ n ih =>
    rw [UserMem.readString]
    cases u.readable va with
    | none => exact .inr rfl
    | some b =>
      by_cases hb : b = 0
      · exact .inl (by simp only [if_pos hb])
      · simp only [if_neg hb]
        exact ih (va + 1)

/-- The page of `va` contains zeros only, as one does that has not been allocated yet. -/
def UserMem.Blank (u : UserMem) (va : Nat) : Prop :=
  ∀ x, x / PGSIZE = va / PGSIZE → u.readable x = some 0

/-- The string at `va` is not there, or it ends in a page of zeros. -/
def UserMem.Misses (u : UserMem) (va n : Nat) : Prop :=
  (u.readString va n).1 ≠ 0 ∨ u.Blank (va + ((u.readString va n).2.length - 1))

/-- A string that is missed where less may be read ends at an address that may not be read there. -/
theorem readString_missed {v : UserMem} {n : Nat} (hle : ∀ x b, v.readable x = some b → u.readable x = some b)
    (hzero : ∀ x b, v.readable x = none → u.readable x = some b → b = 0) (h0 : (u.readString va n).1 = 0)
    (hv : (v.readString va n).1 ≠ 0) :
    v.readable (va + ((u.readString va n).2.length - 1)) = none ∧
      u.readable (va + ((u.readString va n).2.length - 1)) = some 0 := by
  induction n generalizing va with
  | zero => cases h0
  | succ n ih =>
    rw [UserMem.readString] at h0 hv ⊢
    cases hu : u.readable va with
    | none =>
      rw [hu] at h0
      cases h0
    | some b =>
      rw [hu] at h0
      simp only at h0 ⊢
      by_cases hb : b = 0
      · simp only [if_pos hb, List.length_singleton, Nat.sub_self, Nat.add_zero]
        refine ⟨?_, by rw [hu, hb]⟩
        by_contra hsome
        obtain ⟨c, hc⟩ := Option.ne_none_iff_exists'.1 hsome
        have hcb : b = c := Option.some.inj (hu.symm.trans (hle va c hc))
        rw [hc, ← hcb] at hv
        exact hv (by simp only [if_pos hb])
      · simp only [if_neg hb] at h0 ⊢
        cases hva : v.readable va with
        | none => exact absurd (hzero va b hva hu) hb
        | some c =>
          have hcb : b = c := Option.some.inj (hu.symm.trans (hle va c hva))
          rw [hva, ← hcb] at hv
          simp only [if_neg hb] at hv
          have hrest := ih h0 hv
          have hpos := UserMem.readString_pos h0
          have hnext : va + 1 + ((u.readString (va + 1) n).2.length - 1) =
              va + ((b :: (u.readString (va + 1) n).2).length - 1) := by
            rw [List.length_cons]
            omega
          rwa [hnext] at hrest

/-- What a page table of a process maps: its own pages, or one of the two at the top. -/
theorem Holds.leaf_cases (h : Holds T b₀ trampoline X p u sh r) (hmax : va < MAXVA)
    (hv : (pteAt p.pagetable va).V = true) :
    va < PGROUNDUP p.sz ∨ (pteAt p.pagetable va).pa = p.trapframe ∨ (pteAt p.pagetable va).pa = trampoline := by
  by_cases hlim : va < PGROUNDUP p.sz
  · exact .inl hlim
  by_cases htop : va < TRAPFRAME
  · rw [h.space.space.hole va (Nat.not_lt.1 hlim) htop] at hv
    cases hv
  · rw [h.space.space.above va (Nat.not_lt.1 htop) (maxva_lt hmax)] at hv ⊢
    unfold procTop setTop noTop at hv ⊢
    by_cases h1 : va / PGSIZE = TRAPFRAME / PGSIZE
    · rw [if_pos h1]
      exact .inr (.inl rfl)
    · rw [if_neg h1] at hv ⊢
      by_cases h2 : va / PGSIZE = TRAMPOLINE / PGSIZE
      · rw [if_pos h2]
        exact .inr (.inr rfl)
      · rw [if_neg h2] at hv
        cases hv

/-- Where the page table maps nothing that user code may read, the process sees nothing, or a page of zeros. -/
theorem Holds.blank (h : Holds T b₀ trampoline X p u sh r) (hm : (mappedMem p.pagetable r.byte).readable va = none)
    {b : Byte} (hb : u.readable va = some b) : b = 0 ∧ u.Blank va := by
  have hview := h.space.view
  have hlim : va < PGROUNDUP p.sz := by
    by_contra hge
    rw [← hview, UserMem.readable, view_of_le (Nat.not_lt.1 hge)] at hb
    cases hb
  have hmax := h.space.space.ltmax hlim
  have hv : (pteAt p.pagetable va).V = false := by
    by_contra hv
    have hv : (pteAt p.pagetable va).V = true := by simpa using hv
    rw [h.readable_valid hlim hv] at hb
    rw [mapped_readable] at hm
    by_cases hU : (pteAt p.pagetable va).perm.U = true
    · rw [if_pos ⟨hmax, hv, hU⟩] at hm
      cases hm
    · rw [if_neg hU] at hb
      cases hb
  have hzero : ∀ x, x / PGSIZE = va / PGSIZE → u.readable x = some 0 := by
    intro x hx
    have hpte : pteAt p.pagetable x = pteAt p.pagetable va := pteAt_congr hx
    have hxlim : x < PGROUNDUP p.sz := by
      have hmul := Nat.div_mul_cancel (Nat.dvd_of_mod_eq_zero (pgroundup_mod p.sz))
      rw [← hmul, ← Nat.div_lt_iff_lt_mul pgsize_pos] at hlim ⊢
      rwa [hx]
    rw [← hview, UserMem.readable, view_lazy hxlim (by rw [hpte, hv])]
    rfl
  exact ⟨(Option.some.inj (hb.symm.trans (hzero va rfl))), hzero⟩

/-- A string is found in what the process sees, but only in pages that have been allocated. -/
theorem copyinstr_at (hT : Frames T) (htrampoline : trampoline ≠ 0) (srcva n : Nat) :
    Runs (Holds T b₀ trampoline X p u sh) (copyinstr p.pagetable srcva n) fun q r =>
      Holds T b₀ trampoline X p u sh r ∧ (q.1 = 0 → q = u.readString srcva n) ∧
        (q.1 = 0 ∨ q.1 = -1 ∧ u.Misses srcva n) ∧ q.2.length ≤ n := by
  refine Triple.of_ok fun r h => ?_
  have hle : ∀ x b, (mappedMem p.pagetable r.byte).readable x = some b → u.readable x = some b := by
    intro x b hx
    rw [mapped_readable] at hx
    by_cases hc : x < MAXVA ∧ (pteAt p.pagetable x).V = true ∧ (pteAt p.pagetable x).perm.U = true
    · rw [if_pos hc] at hx
      rw [h.readable_valid (h.user_below hc.1 hc.2.1 hc.2.2) hc.2.1, if_pos hc.2.2]
      exact hx
    · rw [if_neg hc] at hx
      cases hx
  refine ⟨_, _, copyinstr_spec (fun va hmax hv => ?_) srcva n, h, fun h0 => (readString_of_mapped hle h0).symm,
    ?_, UserMem.readString_length ..⟩
  · rcases h.leaf_cases hmax hv with hlim | he | he
    · exact (hT.page _ (h.space.mem_of_leaf hlim hv)).1
    · rw [he]
      exact (hT.page _ (h.space.mem_of_held (by simp))).1
    · rw [he]
      exact htrampoline
  · rcases UserMem.readString_result (mappedMem p.pagetable r.byte) srcva n with h0 | hneg
    · exact .inl h0
    · refine .inr ⟨hneg, ?_⟩
      by_cases hu : (u.readString srcva n).1 = 0
      · obtain ⟨hm, hz⟩ := readString_missed hle (fun x b hx hb => (h.blank hx hb).1) hu (by rw [hneg]; decide)
        exact .inr (h.blank hm hz).2
      · exact .inl hu

/-! ## Loads and stores of user code -/

/-- Where user code finds the byte at `va`, if the page table allows it. -/
def translate (pt : PageTable) (va : Nat) (write : Bool) : Option Nat :=
  if va < MAXVA ∧ (pteAt pt va).V = true ∧ (pteAt pt va).perm.U = true ∧
      (if write then (pteAt pt va).perm.W else (pteAt pt va).perm.R) = true then
    some ((pteAt pt va).pa + va % PGSIZE)
  else none

/-- `usertrap` handles a page fault, or kills the process, for which there is no address then. -/
def touch (p : Proc) (va : Nat) (write : Bool) : KR (Proc × Option Nat) :=
  match translate p.pagetable va write with
  | some pa => pure (p, some pa)
  | none => do
    let r ← vmfault p va
    if r.2 = 0 then pure (r.1, none) else pure (r.1, translate r.1.pagetable va write)

/-- A load of user code. -/
def userLoad (p : Proc) (va : Nat) : KR (Proc × Option Byte) := do
  let q ← touch p va false
  match q.2 with
  | none => pure (q.1, none)
  | some pa => do
    let bytes ← load pa 1
    pure (q.1, bytes.head?)

/-- A store of user code. -/
def userStore (p : Proc) (va : Nat) (b : Byte) : KR (Proc × Bool) := do
  let q ← touch p va true
  match q.2 with
  | none => pure (q.1, false)
  | some pa => do
    memmove pa [b]
    pure (q.1, true)

/-- The page is there, and allows the access. -/
structure Touched (T : Multiset Nat) (b₀ : Nat → Byte) (trampoline : Nat) (X : Multiset Nat) (p : Proc)
    (u : UserMem) (sh : Bool)
    (va : Nat) (write : Bool) (q : Proc) (pa : Nat) (r : Ram) : Prop where
  holds : Holds T b₀ trampoline X q u sh r
  size : q.sz = p.sz
  below : va < PGROUNDUP p.sz
  valid : (pteAt q.pagetable va).V = true
  user : (pteAt q.pagetable va).perm.U = true
  access : (if write then (pteAt q.pagetable va).perm.W else (pteAt q.pagetable va).perm.R) = true
  pa : pa = (pteAt q.pagetable va).pa + va % PGSIZE

theorem translate_some {pt : PageTable} {write : Bool} {pa : Nat} (h : translate pt va write = some pa) :
    va < MAXVA ∧ (pteAt pt va).V = true ∧ (pteAt pt va).perm.U = true ∧
      (if write then (pteAt pt va).perm.W else (pteAt pt va).perm.R) = true ∧ pa = (pteAt pt va).pa + va % PGSIZE := by
  unfold translate at h
  by_cases hc : va < MAXVA ∧ (pteAt pt va).V = true ∧ (pteAt pt va).perm.U = true ∧
      (if write then (pteAt pt va).perm.W else (pteAt pt va).perm.R) = true
  · rw [if_pos hc] at h
    exact ⟨hc.1, hc.2.1, hc.2.2.1, hc.2.2.2, (Option.some.inj h).symm⟩
  · rw [if_neg hc] at h
    cases h

/-- What may be done to the byte at `va`. -/
def UserMem.may (u : UserMem) (va : Nat) (write : Bool) :
    Bool := if write then u.writable va else (u.readable va).isSome

theorem touch_at (hT : Frames T) (va : Nat) (write : Bool) :
    Runs (Holds T b₀ trampoline X p u sh) (touch p va write) fun q r =>
      (∃ pa, q.2 = some pa ∧ Touched T b₀ trampoline X p u sh va write q.1 pa r) ∨
      q.2 = none ∧ q.1.sz = p.sz ∧ Holds T b₀ trampoline X q.1 u true r ∨
      q.2 = none ∧ q.1 = p ∧ Holds T b₀ trampoline X p u sh r ∧ (p.sz ≤ va ∨ u.may va write = false) := by
  refine Triple.each fun r₀ h => ?_
  unfold touch
  cases htr : translate p.pagetable va write with
  | some pa =>
    obtain ⟨hmax, hv, hu, hacc, hpa⟩ := translate_some htr
    exact Triple.pure _ fun r hr => .inl ⟨pa, rfl, hr ▸ h, rfl, h.user_below hmax hv hu, hv, hu, hacc, hpa⟩
  | none =>
    refine (Triple.bind (vmfault_at hT va) fun q => ?_ : Runs (Holds T b₀ trampoline X p u sh) _ _).conseq
      (fun r hr => hr ▸ h) fun _ _ h => h
    refine Triple.ite (fun h0 => Triple.pure _ fun r hq => ?_) fun h0 => Triple.pure _ fun r hq => ?_
    · rcases hq with hq | hq | ⟨-, hqp, hholds, hcase⟩
      · exact absurd h0 hq.page
      · exact .inr (.inl ⟨rfl, hq.2⟩)
      · refine .inr (.inr ⟨rfl, hqp, hholds, hcase.imp_right fun hv => ?_⟩)
        by_cases hlim : va < PGROUNDUP p.sz
        · -- the page table forbids what the process sees to be forbidden
          have hR := h.space.space.leafy va (h.space.space.lt39 hlim) hv
          have hbyte := view_valid (b := r₀.byte) hlim hv
          rw [h.space.view] at hbyte
          unfold translate at htr
          have hmax := h.space.space.ltmax hlim
          unfold UserMem.may UserMem.writable UserMem.readable
          rw [hbyte]
          cases hU : (pteAt p.pagetable va).perm.U with
          | false => cases write <;> simp [hU]
          | true =>
            cases write with
            | false => simp [hmax, hv, hU, hR] at htr
            | true =>
              have hW : (pteAt p.pagetable va).perm.W = false := by simpa [hmax, hv, hU] using htr
              simp [hW]
        · unfold UserMem.may UserMem.writable UserMem.readable
          rw [h.space.cut (Nat.not_lt.1 hlim)]
          cases write <;> rfl
    · have hq := hq.resolve_right fun hor => hor.elim (fun h => h0 h.1) fun h => h0 h.1
      have hentry := hq.entry
      rw [pteAt_congr (pgrounddown_div va)] at hentry
      have hlim := lt_pgroundup h.size hq.below
      have hmax := h.space.space.ltmax hlim
      refine .inl ⟨q.2 + va % PGSIZE, ?_, hq.holds, hq.size, hlim, ?_, ?_, ?_, ?_⟩
      · unfold translate
        rw [hentry, if_pos ⟨hmax, rfl, rfl, by cases write <;> rfl⟩]
      · rw [hentry]
      · rw [hentry]
        rfl
      · rw [hentry]
        cases write <;> rfl
      · rw [hentry]

/-- A load reads what the process sees. -/
theorem userLoad_at (hT : Frames T) (va : Nat) :
    Runs (Holds T b₀ trampoline X p u sh) (userLoad p va) fun q r => q.1.sz = p.sz ∧
      (q.2 = none ∧ Holds T b₀ trampoline X q.1 u true r ∨
        (q.2 = u.readable va ∨ q.2 = none ∧ p.sz ≤ va) ∧ Holds T b₀ trampoline X q.1 u sh r) := by
  unfold userLoad
  refine Triple.bind (touch_at hT va false) fun q => ?_
  cases hq2 : q.2 with
  | none =>
    refine Triple.pure _ fun r hq => ?_
    rcases hq with ⟨pa, he, -⟩ | ⟨-, hsz, hq⟩ | ⟨-, rfl, hq, hcase⟩
    · cases he
    · exact ⟨hsz, .inl ⟨rfl, hq⟩⟩
    · refine ⟨rfl, .inr ⟨?_, hq⟩⟩
      rcases hcase with hge | hmay
      · exact .inr ⟨rfl, hge⟩
      · exact .inl (Option.not_isSome_iff_eq_none.1 (by simpa [UserMem.may] using hmay)).symm
  | some pa =>
    refine Triple.of_ok fun r hq => ⟨_, _, rfl, ?_⟩
    rcases hq with ⟨pa', he, hq⟩ | ⟨he, -⟩ | ⟨he, -⟩
    · obtain rfl := Option.some.inj he
      refine ⟨hq.size, .inr ⟨.inl ?_, hq.holds⟩⟩
      rw [hq.holds.readable_valid (by rw [hq.size]; exact hq.below) hq.valid, if_pos hq.user, ← hq.pa]
      rfl
    · cases he
    · cases he

/-- A store writes what the process sees. -/
theorem userStore_at (hT : Frames T) (va : Nat) (b : Byte) :
    Runs (Holds T b₀ trampoline X p u sh) (userStore p va b) fun q r => q.1.sz = p.sz ∧
      (q.2 = true ∧ u.writable va = true ∧ Holds T b₀ trampoline X q.1 (u.store va [b]) sh r ∨
        q.2 = false ∧ Holds T b₀ trampoline X q.1 u true r ∨
        q.2 = false ∧ (u.writable va = false ∨ p.sz ≤ va) ∧ Holds T b₀ trampoline X q.1 u sh r) := by
  unfold userStore
  refine Triple.bind (touch_at hT va true) fun q => ?_
  cases hq2 : q.2 with
  | none =>
    refine Triple.pure _ fun r hq => ?_
    rcases hq with ⟨pa, he, -⟩ | ⟨-, hsz, hq⟩ | ⟨-, rfl, hq, hcase⟩
    · cases he
    · exact ⟨hsz, .inr (.inl ⟨rfl, hq⟩)⟩
    · exact ⟨rfl, .inr (.inr ⟨rfl, hcase.symm.imp_left fun h => by simpa [UserMem.may] using h, hq⟩)⟩
  | some pa =>
    refine Triple.of_ok fun r hq => ⟨_, _, rfl, ?_⟩
    rcases hq with ⟨pa', he, hq⟩ | ⟨he, -⟩ | ⟨he, -⟩
    · obtain rfl := Option.some.inj he
      have hdown : pteAt q.1.pagetable (PGROUNDDOWN va) = pteAt q.1.pagetable va := pteAt_congr (pgrounddown_div va)
      have hoff : va % PGSIZE = va - PGROUNDDOWN va := by
        unfold PGROUNDDOWN PGSIZE
        omega
      have hlim : va < PGROUNDUP q.1.sz := by
        rw [hq.size]
        exact hq.below
      have hone : [b].length ≤ chunk va 1 := chunk_pos va Nat.one_ne_zero
      have hmoved := hq.holds.move hT (lt_of_le_of_lt (pgrounddown_le va) hlim) (by rw [hdown]; exact hq.valid) hone
      rw [hdown, ← hoff, ← hq.pa] at hmoved
      refine ⟨hq.size, .inl ⟨rfl, ?_, hmoved⟩⟩
      have hbyte := view_valid (b := r.byte) hlim hq.valid
      rw [hq.holds.space.view] at hbyte
      rw [writable_of_some hbyte hq.user]
      exact hq.access
    · cases he
    · cases he

end Xv6.Vm.Copy
