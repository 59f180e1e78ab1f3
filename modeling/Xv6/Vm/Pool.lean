import Xv6.Eager.Space
import Xv6.Vm.Args

set_option autoImplicit false

/-! # A pool of pages

A piece of kernel code works on the free pages, a user page table with its pages, and some pages that it
holds: the pool of the code. `At` says that the pool has the same pages as before, that no byte of any other
page has changed, and what the process with that page table sees, whatever the free pages contain. -/

namespace Xv6.Vm.Copy

open Xv6.Lib
open Xv6.Eager (owned leaves_add mul_div_aligned below_maxva le_maxva)

variable {T T' S X Y : Multiset Nat} {b b₀ b' b'' : Nat → Byte} {top : Nat → Pte} {pt pt' : PageTable}
    {lim va pa k : Nat}
  {u v : UserMem} {sh : Bool} {r r' : Ram} {perm : Perm}

/-! ## Bytes of other pages -/

/-- No byte outside the pages in `S` has changed. -/
def Within (S : Multiset Nat) (b b' : Nat → Byte) : Prop :=
  ∀ x, (∀ pa ∈ S, ¬ (pa ≤ x ∧ x < pa + PGSIZE)) → b' x = b x

theorem Within.refl (S : Multiset Nat) (b : Nat → Byte) : Within S b b := fun _ _ => rfl

theorem Within.trans (h : Within S b b') (h' : Within S b' b'') : Within S b b'' := fun x hx => (h' x hx).trans (h x hx)

theorem Within.mono (h : Within S b b') (hsub : ∀ pa ∈ S, pa ∈ T) : Within T b b' :=
  fun x hx => h x fun pa hpa => hx pa (hsub pa hpa)

theorem within_filled (hpa : pa ∈ S) (b : Nat → Byte) (c : Byte) : Within S b (filled b pa c) := fun _ hx =>
  if_neg (hx pa hpa)

theorem within_moved {n : Nat} {src : List Byte} (hpa : pa ∈ S) (hn : n + src.length ≤ PGSIZE) (b : Nat → Byte) :
    Within S b (moved b (pa + n) src) := fun _ hx => moved_of_not_mem fun hin => hx pa hpa (by omega)

theorem within_frozen {F : List Nat} (h : Frozen F b b') (hsub : ∀ pa ∈ F, pa ∈ S) : Within S b b' :=
  fun x hx => h x fun pa hpa => hx pa (hsub pa hpa)

/-- The pages of a pool are different pages. -/
structure Frames (T : Multiset Nat) : Prop where
  nodup : T.Nodup
  page : ∀ pa ∈ T, pa ≠ 0 ∧ pa % PGSIZE = 0

theorem Frames.le (h : Frames T) (hle : S ≤ T) : Frames S :=
  ⟨Multiset.nodup_of_le hle h.nodup, fun pa hpa => h.page pa (Multiset.mem_of_le hle hpa)⟩

theorem Within.page (h : Within S b b') (hS : ∀ pa ∈ S, pa % PGSIZE = 0) (hpa : pa % PGSIZE = 0) (hnot : pa ∉ S)
    (hk : k < PGSIZE) : b' (pa + k) = b (pa + k) :=
  h _ fun pa' hpa' => not_in_page (hS pa' hpa') hpa (fun he => hnot (he ▸ hpa')) hk

/-! ## Page tables -/

/-- A user page table: below `lim` it may have holes, between `lim` and the trapframe it maps nothing, and from
    there on its entries are those of `top`. -/
structure Space (top : Nat → Pte) (pt : PageTable) (lim : Nat) : Prop where
  leafy : Leafy pt
  hole : ∀ x, lim ≤ x → x < TRAPFRAME → (pteAt pt x).V = false
  above : ∀ x, TRAPFRAME ≤ x → x < 2 ^ 39 → pteAt pt x = top x
  aligned : lim % PGSIZE = 0
  below : lim ≤ TRAPFRAME

theorem Space.lt39 (h : Space top pt lim) (hva : va < lim) : va < 2 ^ 39 :=
  maxva_lt (below_maxva (by have := h.below; omega))

theorem Space.ltmax (h : Space top pt lim) (hva : va < lim) : va < MAXVA :=
  below_maxva (by have := h.below; omega)

/-- What the process sees: the pages that are mapped, and zeros where a page has not been allocated yet. -/
def view (pt : PageTable) (lim : Nat) (byte : Nat → Byte) : UserMem := fun va =>
  if va < lim then
    if (pteAt pt va).V then some ((pteAt pt va).perm, byte ((pteAt pt va).pa + va % PGSIZE)) else some (userRW, 0)
  else none

theorem view_of_le (hva : lim ≤ va) : view pt lim b va = none := if_neg (Nat.not_lt.2 hva)

theorem view_valid (hva : va < lim) (hv : (pteAt pt va).V = true) :
    view pt lim b va = some ((pteAt pt va).perm, b ((pteAt pt va).pa + va % PGSIZE)) := by
  unfold view
  rw [if_pos hva, if_pos hv]

theorem view_lazy (hva : va < lim) (hv : (pteAt pt va).V = false) : view pt lim b va = some (userRW, 0) := by
  unfold view
  rw [if_pos hva, if_neg (by simp [hv])]

/-- Only the bytes of the mapped pages count. -/
theorem view_congr (h : ∀ va, va < lim → (pteAt pt va).V = true → ∀ k, k < PGSIZE →
    b' ((pteAt pt va).pa + k) = b ((pteAt pt va).pa + k)) : view pt lim b' = view pt lim b := by
  funext va
  by_cases hva : va < lim
  · by_cases hv : (pteAt pt va).V = true
    · rw [view_valid hva hv, view_valid hva hv, h va hva hv _ (Nat.mod_lt _ pgsize_pos)]
    · rw [view_lazy hva (by simpa using hv), view_lazy hva (by simpa using hv)]
  · rw [view_of_le (Nat.not_lt.1 hva), view_of_le (Nat.not_lt.1 hva)]

/-! ## The pages that are mapped -/

theorem leaf_mem (hlim : lim % PGSIZE = 0) (hva : va < lim) (hv : (pteAt pt va).V = true) :
    (pteAt pt va).pa ∈ leaves pt 0 (lim / PGSIZE) := by
  have hpage : va / PGSIZE * PGSIZE / PGSIZE = va / PGSIZE := Nat.mul_div_cancel _ pgsize_pos
  unfold leaves
  rw [Multiset.mem_sum]
  refine ⟨va / PGSIZE, Finset.mem_range.2 ?_, ?_⟩
  · unfold PGSIZE at *
    omega
  · rw [Nat.zero_add, leafAt, pteAt_congr hpage, if_pos hv]
    exact Multiset.mem_singleton_self _

theorem leaf_owned (hlim : lim % PGSIZE = 0) (hva : va < lim) (hv : (pteAt pt va).V = true) :
    (pteAt pt va).pa ∈ owned pt lim := by
  unfold owned
  exact Multiset.mem_add.2 (.inr (leaf_mem hlim hva hv))

/-- A page is mapped once. -/
theorem leaf_inj (hnodup : (leaves pt 0 (lim / PGSIZE)).Nodup) (hlim : lim % PGSIZE = 0) {x : Nat} (hva : va < lim)
    (hx : x < lim) (hv : (pteAt pt va).V = true) (hxv : (pteAt pt x).V = true)
    (he : (pteAt pt va).pa = (pteAt pt x).pa) :
    va / PGSIZE = x / PGSIZE := by
  by_contra hne
  have hleaf : ∀ y, y < lim → (pteAt pt y).V = true → leafAt pt (0 + y / PGSIZE * PGSIZE) = {(pteAt pt y).pa} := by
    intro y _ hyv
    rw [Nat.zero_add, leafAt, pteAt_congr (Nat.mul_div_cancel _ pgsize_pos), if_pos hyv]
  have hrange : ∀ y, y < lim → y / PGSIZE ∈ Finset.range (lim / PGSIZE) := by
    intro y hy
    rw [Finset.mem_range]
    unfold PGSIZE at *
    omega
  have hpair : leafAt pt (0 + va / PGSIZE * PGSIZE) + leafAt pt (0 + x / PGSIZE * PGSIZE) ≤ leaves pt 0
    (lim / PGSIZE) := by
    unfold leaves
    rw [← Finset.add_sum_erase _ _ (hrange va hva)]
    refine add_le_add_right ?_ _
    exact Finset.single_le_sum (f := fun k => leafAt pt (0 + k * PGSIZE)) (fun _ _ => Multiset.zero_le _)
      (Finset.mem_erase.2 ⟨Ne.symm hne, hrange x hx⟩)
  rw [hleaf va hva hv, hleaf x hx hxv, he] at hpair
  have htwice := Multiset.nodup_of_le hpair hnodup
  rw [Multiset.nodup_add] at htwice
  exact Multiset.disjoint_left.1 htwice.2.2 (Multiset.mem_singleton_self _) (Multiset.mem_singleton_self _)

/-! ## The state of the code -/

/-- Of the pages `T`, the page table `pt` has some, the code holds `X`, and the others are free. The process with that
    page table sees `u`. With `sh`, `kalloc` has returned 0. -/
structure At (T : Multiset Nat) (b₀ : Nat → Byte) (top : Nat → Pte) (X : Multiset Nat) (pt : PageTable) (lim : Nat)
    (u : UserMem) (sh : Bool) (r : Ram) : Prop where
  space : Space top pt lim
  pages : r.mem.free + X + owned pt lim = T
  within : Within T b₀ r.byte
  view : view pt lim r.byte = u
  short : sh = true → r.short = true

/-- The code returns. -/
abbrev Runs {α : Type} (P : Ram → Prop) (x : KR α) (Q : α → Ram → Prop) : Prop := Triple (fun _ => False) P x Q

theorem At.mem_of_free (h : At T b₀ top X pt lim u sh r) (hpa : pa ∈ r.mem.freelist) : pa ∈ T := by
  rw [← h.pages]
  exact Multiset.mem_add.2 (.inl (Multiset.mem_add.2 (.inl (Multiset.mem_coe.2 hpa))))

theorem At.mem_of_held (h : At T b₀ top X pt lim u sh r) (hpa : pa ∈ X) : pa ∈ T := by
  rw [← h.pages]
  exact Multiset.mem_add.2 (.inl (Multiset.mem_add.2 (.inr hpa)))

theorem At.mem_of_leaf (h : At T b₀ top X pt lim u sh r) (hva : va < lim) (hv : (pteAt pt va).V = true) :
    (pteAt pt va).pa ∈ T := by
  rw [← h.pages]
  exact Multiset.mem_add.2 (.inr (leaf_owned h.space.aligned hva hv))

/-- A page that is mapped is neither free nor held. -/
theorem At.leaf_not (h : At T b₀ top X pt lim u sh r) (hT : T.Nodup) (hva : va < lim) (hv : (pteAt pt va).V = true) :
    (pteAt pt va).pa ∉ r.mem.free + X := by
  have hnodup := h.pages ▸ hT
  rw [Multiset.nodup_add] at hnodup
  exact fun hin => Multiset.disjoint_left.1 hnodup.2.2 hin (leaf_owned h.space.aligned hva hv)

theorem At.leaves_nodup (h : At T b₀ top X pt lim u sh r) (hT : T.Nodup) : (leaves pt 0 (lim / PGSIZE)).Nodup := by
  have hnodup := h.pages ▸ hT
  rw [Multiset.nodup_add] at hnodup
  exact (Multiset.nodup_add.1 hnodup.2.1).2.1

theorem At.cut (h : At T b₀ top X pt lim u sh r) (hva : lim ≤ va) : u va = none := by
  rw [← h.view]
  exact view_of_le hva

/-- Other code has run, which was given the pages in `Y` and what was free, and has left those in `X'`. -/
theorem At.frame {X' : Multiset Nat} {sh' : Bool} (hT : Frames T) (h : At T b₀ top (X + Y) pt lim u sh r)
    (hpages : r'.mem.free + X' = r.mem.free + Y) (hwithin : Within (r.mem.free + Y) r.byte r'.byte)
    (hshort : sh' = true → r'.short = true) : At T b₀ top (X + X') pt lim u sh' r' := by
  have hsub : ∀ pa ∈ r.mem.free + Y, pa ∈ r.mem.free + (X + Y) := by
    intro pa hpa
    rw [Multiset.mem_add] at hpa ⊢
    exact hpa.imp_right fun hY => Multiset.mem_add.2 (.inr hY)
  have hsubT : ∀ pa ∈ r.mem.free + Y, pa ∈ T := fun pa hpa => by
    rw [← h.pages]
    exact Multiset.mem_add.2 (.inl (hsub pa hpa))
  refine ⟨h.space, ?_, h.within.trans (hwithin.mono hsubT), ?_, hshort⟩
  · rw [← h.pages]
    calc r'.mem.free + (X + X') + owned pt lim = r'.mem.free + X' + X + owned pt lim := by abel
      _ = r.mem.free + Y + X + owned pt lim := by rw [hpages]
      _ = r.mem.free + (X + Y) + owned pt lim := by abel
  · rw [← h.view]
    refine view_congr fun va hva hv k hk => ?_
    exact hwithin.page (fun pa hpa => (hT.page pa (hsubT pa hpa)).2) (hT.page _ (h.mem_of_leaf hva hv)).2
      (fun hin => h.leaf_not hT.nodup hva hv (hsub _ hin)) hk

/-- Bytes of held pages have changed. -/
theorem At.bytes (hT : Frames T) (h : At T b₀ top X pt lim u sh r) (hwithin : Within X r.byte b) :
    At T b₀ top X pt lim u sh { r with byte := b } := by
  have hstart : At T b₀ top (0 + X) pt lim u sh r := by rwa [zero_add]
  have hframe : At T b₀ top (0 + X) pt lim u sh { r with byte := b } :=
    hstart.frame hT rfl (hwithin.mono fun pa hpa => Multiset.mem_add.2 (.inr hpa)) h.short
  rwa [zero_add] at hframe

/-! ## Allocating and freeing a page -/

theorem free_cons {rest : List Nat} (h : r.mem.freelist = pa :: rest) : r.mem.free = (rest : Multiset Nat) + {pa} := by
  rw [Mem.free, h, ← Multiset.cons_coe, ← Multiset.singleton_add, add_comm]

theorem kalloc_at (hT : Frames T) : Runs (At T b₀ top X pt lim u sh) kalloc
    (Cases (At T b₀ top X pt lim u true) fun pa => At T b₀ top (X + {pa}) pt lim u sh) := by
  refine Triple.of_ok fun r h => ?_
  cases hfree : r.mem.freelist with
  | nil => exact ⟨_, _, kalloc_nil hfree, h.space, h.pages, h.within, h.view, fun _ => rfl⟩
  | cons pa rest =>
    refine ⟨_, _, kalloc_cons hfree, ?_⟩
    have hstart : At T b₀ top (X + 0) pt lim u sh r := by rwa [add_zero]
    refine hstart.frame hT ?_ ?_ h.short
    · rw [add_zero]
      exact (free_cons hfree).symm
    · rw [add_zero]
      exact within_filled (by rw [Mem.free, hfree]; exact Multiset.mem_coe.2 (List.mem_cons_self ..)) _ _

/-- What a page contains. -/
def Contains (pa : Nat) (f : Nat → Byte) (r : Ram) : Prop := ∀ k, k < PGSIZE → r.byte (pa + k) = f k

theorem memset_at (hT : Frames T) (hpa : pa ∈ X) (c : Byte) : Runs (At T b₀ top X pt lim u sh) (memset pa c PGSIZE)
    fun _ r => At T b₀ top X pt lim u sh r ∧ Contains pa (fun _ => c) r :=
  Triple.of_ok fun _ h => ⟨_, _, rfl, h.bytes hT (within_filled hpa _ c), fun _ hk => filled_self hk⟩

theorem kfree_at (hT : Frames T) : Runs (At T b₀ top (X + {pa}) pt lim u sh) (kfree pa)
    fun _ => At T b₀ top X pt lim u sh := by
  refine Triple.of_ok fun r h => ⟨_, _, kfree_eq pa r, ?_⟩
  have hframe : At T b₀ top (X + 0) pt lim u sh (r.freed pa) := h.frame hT (by rw [free_freed, add_zero])
    (within_filled (Multiset.mem_add.2 (.inr (Multiset.mem_singleton_self pa))) _ _) h.short
  rwa [add_zero] at hframe

/-! ## Mapping a page -/

/-- The bytes `f`, on the page at `a`. -/
def UserMem.page (u : UserMem) (a : Nat) (perm : Perm) (f : Nat → Byte) : UserMem := fun va =>
  if a ≤ va ∧ va < a + PGSIZE then some (perm, f (va - a)) else u va

theorem onMem_short {α : Type} (x : K α) :
    Triple (fun _ => True) (fun r => sh = true → r.short = true) (onMem x) fun _ r => sh = true → r.short = true := by
  intro r hr
  unfold onMem
  cases x r.mem with
  | ok p => exact hr
  | error e => trivial

theorem mappages_short (pt : PageTable) (va size pa : Nat) (perm : Perm) :
    Triple (fun _ => True) (fun r => sh = true → r.short = true) (mappages pt va size pa perm) fun p r =>
      (sh = true → r.short = true) ∧ (p.2 ≠ 0 → r.short = true) := by
  unfold mappages
  refine Triple.bind (onMem_short _) fun p => ?_
  by_cases hp : p.2 ≠ 0
  · rw [if_pos hp]
    exact Triple.bind (R := fun _ r => r.short = true) (Triple.modify _ fun _ _ => rfl) fun _ =>
      Triple.pure _ fun _ h => ⟨fun _ => h, fun _ => h⟩
  · rw [if_neg hp]
    exact Triple.bind (R := fun _ r => sh = true → r.short = true) (Triple.pure _ fun _ h => h) fun _ =>
      Triple.pure _ fun _ h => ⟨h, fun hne => absurd hne hp⟩

/-- One more page is mapped, at `a`. -/
theorem leaves_map {a mem : Nat} (halign : a % PGSIZE = 0)
    (hlim : lim % PGSIZE = 0) (hle : a ≤ lim) (hmax : lim ≤ TRAPFRAME) (hv : (pteAt pt a).V = false)
    (hself : pteAt pt' a = ⟨true, perm, mem⟩)
    (hother : ∀ x, x < 2 ^ 39 → x / PGSIZE ≠ a / PGSIZE → pteAt pt' x = pteAt pt x) :
    leaves pt' 0 (max lim (a + PGSIZE) / PGSIZE) = leaves pt 0 (lim / PGSIZE) + {mem} := by
  have hrest : ∀ k, k < lim / PGSIZE → k ≠ a / PGSIZE → leafAt pt' (0 + k * PGSIZE) = leafAt pt (0 + k * PGSIZE) := by
    intro k hk hne
    have hlt := Nat.mul_lt_mul_of_pos_right hk pgsize_pos
    rw [mul_div_aligned hlim] at hlt
    rw [leafAt, leafAt, hother _ (maxva_lt (below_maxva (by omega)))
      (by rwa [Nat.zero_add, Nat.mul_div_cancel _ pgsize_pos])]
  have hnew : leafAt pt' (0 + a / PGSIZE * PGSIZE) = {mem} := by
    rw [Nat.zero_add, mul_div_aligned halign, leafAt, hself, if_pos rfl]
  have hold : leafAt pt (0 + a / PGSIZE * PGSIZE) = 0 := by
    rw [Nat.zero_add, mul_div_aligned halign, leafAt, hv, if_neg (by simp)]
  by_cases hlt : a < lim
  · have hmaxlim : max lim (a + PGSIZE) = lim := by
      unfold PGSIZE at *
      omega
    have hin : a / PGSIZE ∈ Finset.range (lim / PGSIZE) := by
      rw [Finset.mem_range]
      unfold PGSIZE at *
      omega
    rw [hmaxlim]
    unfold leaves
    rw [← Finset.sum_erase_add _ _ hin, hnew, ← Finset.sum_erase_add _ (fun k => leafAt pt (0 + k * PGSIZE)) hin,
      hold, add_zero]
    congr 1
    refine Finset.sum_congr rfl fun k hk => ?_
    rw [Finset.mem_erase, Finset.mem_range] at hk
    exact hrest k hk.2 hk.1
  · have heq : a = lim := by omega
    subst heq
    rw [Nat.max_eq_right (Nat.le_add_right ..), Nat.add_div_right _ pgsize_pos, leaves_last, hnew]
    congr 1
    refine Finset.sum_congr rfl fun k hk => ?_
    rw [Finset.mem_range] at hk
    exact hrest k hk (by omega)

/-- A page below the limit, or at it. -/
theorem mappages_at {a mem : Nat} {f : Nat → Byte} (halign : a % PGSIZE = 0) (hle : a ≤ lim) (htop : a < TRAPFRAME)
    (hR : perm.R = true) (hv : (pteAt pt a).V = false) :
    Runs (fun r => At T b₀ top (X + {mem}) pt lim u sh r ∧ Contains mem f r) (mappages pt a PGSIZE mem perm) fun p r =>
      (p.2 = 0 → At T b₀ top X p.1 (max lim (a + PGSIZE)) (u.page a perm f) sh r ∧ pteAt p.1 a = ⟨true, perm, mem⟩ ∧
        ∀ x, x < 2 ^ 39 → x / PGSIZE ≠ a / PGSIZE → pteAt p.1 x = pteAt pt x) ∧
      (p.2 ≠ 0 → At T b₀ top (X + {mem}) p.1 lim u true r ∧ ∀ x, pteAt p.1 x = pteAt pt x) := by
  refine Triple.each fun r₀ ⟨h, hf⟩ => ?_
  have hmax : a < MAXVA := below_maxva (Nat.le_of_lt htop)
  have hspace := h.space
  have hbelow := hspace.below
  have hlim := hspace.aligned
  have hkeep : Triple (fun _ => True) (fun r => sh = true → r.short = true) (mappages pt a PGSIZE mem perm) fun p r =>
      (sh = true → r.short = true) ∧ (p.2 ≠ 0 → r.short = true) := mappages_short pt a PGSIZE mem perm
  have hmaps : Runs (fun r => (sh = true → r.short = true) ∧ r = r₀) (mappages pt a PGSIZE mem perm)
      (Mapped pt r₀ a mem perm) := (mappages_maps mem perm hmax halign hv r₀).conseq (fun _ hr => hr.2) fun _ _ hr => hr
  refine (hkeep.with hmaps).conseq (fun r hr => ⟨hr ▸ h.short, hr⟩) fun p r ⟨⟨hsh, hfail⟩, hmap⟩ =>
    ⟨fun h0 => ?_, fun h0 => ?_⟩
  · obtain ⟨hself, hother⟩ := hmap.ok h0
    obtain ⟨l, htook, htables⟩ := hmap.took
    have hnext : max lim (a + PGSIZE) ≤ TRAPFRAME := by
      have htm := trapframe_mod
      unfold PGSIZE at *
      omega
    -- the new page, or one of the others
    have hcases : ∀ x, x < 2 ^ 39 → (a ≤ x ∧ x < a + PGSIZE) ∧ pteAt p.1 x = ⟨true, perm, mem⟩ ∨
        ¬ (a ≤ x ∧ x < a + PGSIZE) ∧ pteAt p.1 x = pteAt pt x := by
      intro x hx
      by_cases hin : a ≤ x ∧ x < a + PGSIZE
      · exact .inl ⟨hin, by rw [pteAt_congr (div_eq_of_aligned halign hin.1 hin.2), hself]⟩
      · exact .inr ⟨hin, hother x hx (div_ne_of_aligned halign (by omega))⟩
    refine ⟨⟨⟨fun x hx hxv => ?_, fun x hlo hhi => ?_, fun x hlo hhi => ?_, ?_, hnext⟩, ?_, ?_, ?_, hsh⟩, hself, hother⟩
    · rcases hcases x hx with ⟨-, he⟩ | ⟨-, he⟩
      · rw [he]
        exact hR
      · rw [he] at hxv ⊢
        exact hspace.leafy x hx hxv
    · rcases hcases x (maxva_lt (below_maxva (by omega))) with ⟨hin, -⟩ | ⟨-, he⟩
      · omega
      · rw [he]
        exact hspace.hole x (by omega) hhi
    · rcases hcases x hhi with ⟨hin, -⟩ | ⟨-, he⟩
      · omega
      · rw [he]
        exact hspace.above x hlo hhi
    · unfold PGSIZE at *
      omega
    · rw [owned, leaves_map halign hlim hle hbelow hv hself hother, htables]
      have hfree := htook.free
      rw [← h.pages, hfree, owned]
      abel
    · rw [hmap.byte]
      exact h.within
    · have hu : view pt lim r.byte = u := by rw [hmap.byte, h.view]
      funext x
      unfold UserMem.page
      by_cases hx : x < max lim (a + PGSIZE)
      · rcases hcases x (maxva_lt (below_maxva (by omega))) with ⟨hin, he⟩ | ⟨hin, he⟩
        · have hk : x - a < PGSIZE := by omega
          have hmod : x % PGSIZE = x - a := by
            unfold PGSIZE at *
            omega
          rw [view_valid hx (by rw [he]), if_pos hin, he, hmap.byte, hmod, hf _ hk]
        · have hxlim : x < lim := by omega
          rw [if_neg hin, ← hu]
          unfold view
          rw [if_pos hx, if_pos hxlim, he]
      · rw [view_of_le (Nat.not_lt.1 hx), if_neg (by omega), h.cut (by omega)]
  · obtain ⟨l, htook, htables⟩ := hmap.took
    have hsame := hmap.failed h0
    refine ⟨⟨⟨fun x hx => ?_, fun x hlo hhi => ?_, fun x hlo hhi => ?_, hlim, hbelow⟩, ?_, ?_, ?_, fun _ =>
      hfail h0⟩, hsame⟩
    · rw [hsame]
      exact hspace.leafy x hx
    · rw [hsame]
      exact hspace.hole x hlo hhi
    · rw [hsame]
      exact hspace.above x hlo hhi
    · have hleaves : leaves p.1 0 (lim / PGSIZE) = leaves pt 0 (lim / PGSIZE) := leaves_congr fun _ _ => hsame _
      rw [← h.pages, htook.free, owned, owned, hleaves, htables]
      abel
    · rw [hmap.byte]
      exact h.within
    · rw [hmap.byte, ← h.view]
      funext x
      unfold view
      rw [hsame]

/-! ## Unmapping pages -/

/-- What is below `a`. -/
def UserMem.cut (u : UserMem) (a : Nat) : UserMem := fun va => if va < a then u va else none

theorem At.cut_self (h : At T b₀ top X pt lim u sh r) : u.cut lim = u := by
  funext va
  unfold UserMem.cut
  by_cases hva : va < lim
  · rw [if_pos hva]
  · rw [if_neg hva, h.cut (Nat.not_lt.1 hva)]

theorem unmapPage_short (pt : PageTable) (a : Nat) (do_free : Bool) :
    Triple (fun _ => True) (fun r => sh = true → r.short = true) (unmapPage pt a do_free) fun _ r =>
      sh = true → r.short = true := by
  unfold unmapPage
  refine Triple.bind (onMem_short _) fun _ => Triple.bind (onMem_short _) fun w => ?_
  cases w.2 with
  | none => exact Triple.pure _ fun _ h => h
  | some pte =>
    refine Triple.ite (fun _ => Triple.pure _ fun _ h => h) fun _ =>
      Triple.ite (fun _ => Triple.throw _ fun _ _ => trivial)
      fun _ => ?_
    refine Triple.bind (R := fun _ r => sh = true → r.short = true) ?_ fun _ => Triple.pure _ fun _ h => h
    cases do_free with
    | false => exact Triple.pure _ fun _ h => h
    | true => exact Triple.of_ok fun r h => ⟨_, _, kfree_eq pte.pa r, h⟩

theorem uvmunmap_short (pt : PageTable) (a n : Nat) (do_free : Bool) :
    Triple (fun _ => True) (fun r => sh = true → r.short = true) (uvmunmap pt a n do_free) fun _ r =>
      sh = true → r.short = true := by
  have hloop : Triple (fun _ => True) (fun r => sh = true → r.short = true) (uvmunmapLoop do_free n pt a) fun _ r =>
      sh = true → r.short = true := by
    induction n generalizing pt a with
    | zero => exact Triple.pure _ fun _ h => h
    | succ n ih => exact Triple.bind (unmapPage_short pt a do_free) fun pt => ih pt (a + PGSIZE)
  unfold uvmunmap
  exact Triple.ite (fun _ => Triple.throw _ fun _ _ => trivial) fun _ => hloop

theorem leaves_split {a n : Nat} (halign : a % PGSIZE = 0) (hn : a + n * PGSIZE = lim) :
    leaves pt 0 (lim / PGSIZE) = leaves pt 0 (a / PGSIZE) + leaves pt a n := by
  have hpages : lim / PGSIZE = a / PGSIZE + n := by
    unfold PGSIZE at *
    omega
  rw [hpages, leaves_add, Nat.zero_add, mul_div_aligned halign]

theorem leaf_mem_range {a n x : Nat} (halign : a % PGSIZE = 0) (hlo : a ≤ x) (hhi : x < a + n * PGSIZE)
    (hv : (pteAt pt x).V = true) : (pteAt pt x).pa ∈ leaves pt a n := by
  have hk : (x - a) / PGSIZE < n := by
    unfold PGSIZE at *
    omega
  have hx : (a + (x - a) / PGSIZE * PGSIZE) / PGSIZE = x / PGSIZE := by
    unfold PGSIZE at *
    omega
  unfold leaves
  rw [Multiset.mem_sum]
  refine ⟨_, Finset.mem_range.2 hk, ?_⟩
  rw [leafAt, pteAt_congr hx, if_pos hv]
  exact Multiset.mem_singleton_self _

/-- The pages from `a` up to the limit are free now. -/
theorem At.shrink {a n : Nat} (hT : Frames T) (h : At T b₀ top X pt lim u sh r) (halign : a % PGSIZE = 0)
    (hn : a + n * PGSIZE = lim) (hfreed : Freed (leaves pt a n).toList pt r a n pt' r')
    (hsh : sh = true → r'.short = true) :
    At T b₀ top X pt' a (u.cut a) sh r' := by
  have hspace := h.space
  have hbelow := hspace.below
  have hleaves : leaves pt 0 (lim / PGSIZE) = leaves pt 0 (a / PGSIZE) + leaves pt a n := leaves_split halign hn
  have hout := hfreed.unmapped.outside
  have hagree : ∀ x, x < a → pteAt pt' x = pteAt pt x := fun x hx => hout x (hspace.lt39 (by omega)) (.inl hx)
  have hwithin : Within (leaves pt a n) r.byte r'.byte := within_frozen hfreed.frozen fun pa hpa =>
    Multiset.mem_toList.1 hpa
  have hsub : ∀ pa ∈ leaves pt a n, pa ∈ T := by
    intro pa hpa
    rw [← h.pages, owned, hleaves]
    simp only [Multiset.mem_add]
    exact .inr (.inr (.inr hpa))
  refine ⟨⟨hfreed.unmapped.leafy hspace.leafy, fun x hlo hhi => ?_, fun x hlo hhi => ?_, halign, by omega⟩, ?_, ?_,
    ?_, hsh⟩
  · by_cases hx : x < a + n * PGSIZE
    · exact hfreed.unmapped.inside x hlo hx
    · rw [hout x (maxva_lt (below_maxva (by omega))) (by omega)]
      exact hspace.hole x (by omega) hhi
  · rw [hout x hhi (by omega)]
    exact hspace.above x hlo hhi
  · have hsame : leaves pt' 0 (a / PGSIZE) = leaves pt 0 (a / PGSIZE) := by
      refine leaves_congr fun k hk => hagree _ ?_
      have hlt := Nat.mul_lt_mul_of_pos_right hk pgsize_pos
      rw [mul_div_aligned halign] at hlt
      omega
    rw [← h.pages, hfreed.free, owned, owned, hfreed.tables, hsame, hleaves]
    abel
  · exact h.within.trans (hwithin.mono hsub)
  · -- what stays is mapped on other pages
    have hnodup := h.leaves_nodup hT.nodup
    rw [hleaves, Multiset.nodup_add] at hnodup
    have hbytes : ∀ x, x < a → (pteAt pt x).V = true → ∀ k, k < PGSIZE →
        r'.byte ((pteAt pt x).pa + k) = r.byte ((pteAt pt x).pa + k) := fun x hx hv k hk =>
      hwithin.page (fun pa hpa => (hT.page pa (hsub pa hpa)).2) (hT.page _ (h.mem_of_leaf (by omega) hv)).2
        (Multiset.disjoint_left.1 hnodup.2.2 (leaf_mem halign hx hv)) hk
    funext x
    unfold UserMem.cut
    by_cases hx : x < a
    · rw [if_pos hx, ← h.view]
      by_cases hv : (pteAt pt x).V = true
      · rw [view_valid hx (by rw [hagree x hx, hv]), view_valid (by omega) hv, hagree x hx,
          hbytes x hx hv _ (Nat.mod_lt _ pgsize_pos)]
      · rw [view_lazy hx (by rw [hagree x hx]; simpa using hv), view_lazy (by omega) (by simpa using hv)]
    · rw [if_neg hx, view_of_le (Nat.not_lt.1 hx)]

theorem uvmunmap_at {a n : Nat} (hT : Frames T) (halign : a % PGSIZE = 0) (hn : a + n * PGSIZE = lim) :
    Runs (At T b₀ top X pt lim u sh) (uvmunmap pt a n true) fun pt' => At T b₀ top X pt' a (u.cut a) sh := by
  refine Triple.each fun r₀ h => ?_
  have hspace := h.space
  have hbelow := hspace.below
  have hfrees : Runs (fun r => (sh = true → r.short = true) ∧ r = r₀) (uvmunmap pt a n true)
      (Freed (leaves pt a n).toList pt r₀ a n) := by
    unfold uvmunmap
    refine Triple.ite (fun hne => absurd halign hne) fun _ => ?_
    refine (uvmunmapLoop_frees _ n pt halign (by have := trapframe_le; omega) (fun x hlo hhi hv hperm => ?_)
      (fun x hlo hhi hv => Multiset.mem_toList.2 (leaf_mem_range halign hlo hhi hv)) r₀).conseq
      (fun _ hr => hr.2) fun _ _ hr => hr
    have hR := hspace.leafy x (hspace.lt39 (by omega)) hv
    rw [hperm] at hR
    cases hR
  exact ((uvmunmap_short pt a n true).with hfrees).conseq (fun r hr => ⟨hr ▸ h.short, hr⟩) fun pt' r ⟨hsh, hfreed⟩ =>
    h.shrink hT halign hn hfreed hsh

end Xv6.Vm.Copy
