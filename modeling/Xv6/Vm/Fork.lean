import Xv6.Vm.Frames
import Xv6.Vm.UserMem

set_option autoImplicit false

/-! # Copying the memory of a process

`uvmunmap` and `uvmcopy` of `kernel/vm.c` with the bytes of the pages. `uvmcopy` returns both tables
and what the code returns. A child gets its own page for each page of its parent; when memory runs
out, the pages it has got so far go back to the free list. -/

namespace Xv6.Vm.Copy

open Xv6.Lib

/-- Unmaps the page at `a`. -/
def unmapPage (pt : PageTable) (a : Nat) (do_free : Bool) : KR PageTable := do
  onMem (if do_free then modify fun m => { m with unmapped := a :: m.unmapped } else pure ⟨⟩)
  match (← onMem (walk pt a false)).2 with
  | none => pure pt
  | some pte =>
    if pte.V = false then pure pt
    else if pte.perm = Perm.none then throw .unmapLeaf
    else do
      (if do_free then kfree pte.pa else pure ⟨⟩)
      pure (setPte pt a Pte.zero)

def uvmunmapLoop (do_free : Bool) : Nat → PageTable → Nat → KR PageTable
  | 0, pt, _ => pure pt
  | n + 1, pt, a => do
    let pt ← unmapPage pt a do_free
    uvmunmapLoop do_free n pt (a + PGSIZE)

def uvmunmap (pt : PageTable) (va npages : Nat) (do_free : Bool) : KR PageTable :=
  if va % PGSIZE ≠ 0 then throw .unmapVa else uvmunmapLoop do_free npages pt va

def uvmcopyLoop : Nat → PageTable → PageTable → Nat → KR (PageTable × PageTable × Int)
  | 0, old, new, _ => pure (old, new, 0)
  | n + 1, old, new, i => do
    let w ← onMem (walk old i false)
    match w.2 with
    | none => uvmcopyLoop n w.1 new (i + PGSIZE)
    | some pte =>
      if pte.V = false then uvmcopyLoop n w.1 new (i + PGSIZE)
      else do
        match ← kalloc with
        | none => do
          let new ← uvmunmap new 0 (i / PGSIZE) true
          pure (w.1, new, -1)
        | some mem => do
          let bytes ← load pte.pa PGSIZE
          memmove mem bytes
          let r ← mappages new i PGSIZE mem pte.perm
          if r.2 ≠ 0 then do
            kfree mem
            let new ← uvmunmap r.1 0 (i / PGSIZE) true
            pure (w.1, new, -1)
          else uvmcopyLoop n w.1 r.1 (i + PGSIZE)

def uvmcopy (old new : PageTable) (sz : Nat) : KR (PageTable × PageTable × Int) :=
  uvmcopyLoop ((sz + PGSIZE - 1) / PGSIZE) old new 0

/-! ## Bytes that stay -/

/-- Only bytes of the pages in `F` may have changed. -/
def Frozen (F : List Nat) (byte byte' : Nat → Byte) : Prop :=
  ∀ x, (∀ pa ∈ F, ¬ (pa ≤ x ∧ x < pa + PGSIZE)) → byte' x = byte x

theorem Frozen.refl (F : List Nat) (byte : Nat → Byte) : Frozen F byte byte := fun _ _ => rfl

theorem Frozen.trans {F : List Nat} {byte byte' byte'' : Nat → Byte} (h : Frozen F byte byte')
    (h' : Frozen F byte' byte'') : Frozen F byte byte'' :=
  fun x hx => (h' x hx).trans (h x hx)

theorem frozen_filled {F : List Nat} {pa : Nat} (hpa : pa ∈ F) (byte : Nat → Byte) (c : Byte) :
    Frozen F byte (filled byte pa c) := fun x hx => by
  unfold filled
  exact if_neg (hx pa hpa)

/-! ## Unmapping -/

variable {may : Panic → Prop} {pt : PageTable} {a : Nat}

/-- The memory once `uvmunmap` has come to `a`. -/
def Ram.at (r : Ram) (a : Nat) : Ram :=
  { r with mem := { r.mem with unmapped := a :: r.mem.unmapped } }

theorem unmapPage_invalid (ha : a < MAXVA) (hv : (pteAt pt a).V = false) (r : Ram) :
    unmapPage pt a true r = .ok (pt, r.at a) := by
  have hnote : onMem (modify fun m => { m with unmapped := a :: m.unmapped }) r =
      .ok (PUnit.unit, r.at a) := rfl
  unfold unmapPage
  rw [if_pos rfl, bind_of_ok hnote, bind_of_ok (onMem_ok (walk_eq ha pt (r.at a).mem))]
  cases hs : slot pt a with
  | none => rfl
  | some pte =>
    have hpte : pteAt pt a = pte := by rw [pteAt, hs, Option.getD_some]
    simp only
    rw [if_pos (hpte ▸ hv)]
    rfl

theorem unmapPage_valid (ha : a < MAXVA) (hv : (pteAt pt a).V = true)
    (hmay : (pteAt pt a).perm = Perm.none → may .unmapLeaf) (r₀ : Ram) :
    Triple may (fun r => r = r₀) (unmapPage pt a true) fun pt' r =>
      pt' = setPte pt a Pte.zero ∧ slot pt a ≠ none ∧
        r.byte = filled r₀.byte (pteAt pt a).pa 1 ∧
        r.mem.freelist = (pteAt pt a).pa :: r₀.mem.freelist := by
  intro r hr
  rw [hr]
  have hnote : onMem (modify fun m => { m with unmapped := a :: m.unmapped }) r₀ =
      .ok (PUnit.unit, r₀.at a) := rfl
  unfold unmapPage
  rw [if_pos rfl, bind_of_ok hnote, bind_of_ok (onMem_ok (walk_eq ha pt (r₀.at a).mem))]
  cases hs : slot pt a with
  | none =>
    rw [pteAt, hs] at hv
    cases hv
  | some pte =>
    have hpte : pteAt pt a = pte := by rw [pteAt, hs, Option.getD_some]
    rw [hpte] at hv hmay
    simp only
    rw [if_neg (by simp [hv])]
    by_cases hperm : pte.perm = Perm.none
    · rw [if_pos hperm]
      exact hmay hperm
    · rw [if_neg hperm, hpte]
      exact ⟨rfl, by simp, rfl, rfl⟩

theorem next_page (a n : Nat) : a + (n + 1) * PGSIZE = a + PGSIZE + n * PGSIZE := by
  rw [Nat.add_mul, Nat.one_mul, Nat.add_assoc, Nat.add_comm PGSIZE]

theorem leaves_succ (pt : PageTable) (a n : Nat) :
    leaves pt a (n + 1) = leafAt pt a + leaves pt (a + PGSIZE) n := by
  unfold leaves
  rw [Finset.sum_range_succ', Nat.zero_mul, Nat.add_zero, add_comm]
  congr 1
  refine Finset.sum_congr rfl fun k _ => ?_
  rw [next_page]

theorem leaves_congr {pt pt' : PageTable} {a n : Nat}
    (h : ∀ k, k < n → pteAt pt' (a + k * PGSIZE) = pteAt pt (a + k * PGSIZE)) :
    leaves pt' a n = leaves pt a n :=
  Finset.sum_congr rfl fun k hk => by rw [leafAt, leafAt, h k (Finset.mem_range.mp hk)]

theorem leaves_eq_zero {pt : PageTable} {a n : Nat}
    (h : ∀ k, k < n → (pteAt pt (a + k * PGSIZE)).V = false) : leaves pt a n = 0 :=
  Finset.sum_eq_zero fun k hk => by rw [leafAt, h k (Finset.mem_range.mp hk)]; rfl

/-- What `uvmunmap` has done to the pages from `a` to `hi`, all of them in `F`. -/
structure Freed (F : List Nat) (pt : PageTable) (r : Ram) (a n : Nat) (pt' : PageTable) (r' : Ram) :
    Prop where
  unmapped : Unmapped pt pt' a (a + n * PGSIZE)
  tables : tables pt' = tables pt
  free : r'.mem.free = r.mem.free + leaves pt a n
  frozen : Frozen F r.byte r'.byte

theorem uvmunmapLoop_frees (F : List Nat) (n : Nat) (pt : PageTable) {a : Nat}
    (halign : a % PGSIZE = 0) (hmax : a + n * PGSIZE ≤ MAXVA)
    (hmay : ∀ x, a ≤ x → x < a + n * PGSIZE → (pteAt pt x).V = true →
      (pteAt pt x).perm = Perm.none → may .unmapLeaf)
    (hF : ∀ x, a ≤ x → x < a + n * PGSIZE → (pteAt pt x).V = true → (pteAt pt x).pa ∈ F)
    (r₀ : Ram) :
    Triple may (fun r => r = r₀) (uvmunmapLoop true n pt a) (Freed F pt r₀ a n) := by
  have hP : 0 < PGSIZE := pgsize_pos
  induction n generalizing pt a r₀ with
  | zero =>
    refine Triple.pure _ ?_
    rintro r rfl
    exact ⟨⟨fun x hlo hhi => by omega, fun x _ _ => rfl⟩, rfl, (add_zero _).symm, Frozen.refl _ _⟩
  | succ n ih =>
    have hsum := next_page a n
    have ha : a < MAXVA := by omega
    have halign' : (a + PGSIZE) % PGSIZE = 0 := by rw [Nat.add_mod_right, halign]
    rw [hsum] at hmax hmay hF
    -- the first page is gone, the others are as they were
    have hrest : ∀ pt₁ r₁, (pteAt pt₁ a).V = false → (∀ x, x < 2 ^ 39 → x / PGSIZE ≠ a / PGSIZE →
        pteAt pt₁ x = pteAt pt x) → Vm.tables pt₁ = Vm.tables pt →
        r₁.mem.free = r₀.mem.free + leafAt pt a → Frozen F r₀.byte r₁.byte →
        Triple may (fun r => r = r₁) (uvmunmapLoop true n pt₁ (a + PGSIZE))
          (Freed F pt r₀ a (n + 1)) := by
      intro pt₁ r₁ hv₁ hpte₁ htables₁ hfree₁ hfrozen₁
      have hlater : ∀ x, a + PGSIZE ≤ x → x < a + PGSIZE + n * PGSIZE → pteAt pt₁ x = pteAt pt x :=
        fun x hlo hhi => hpte₁ x (maxva_lt (by omega)) (div_ne_of_aligned halign (.inr hlo))
      refine (ih pt₁ halign' hmax ?_ ?_ r₁).conseq (fun _ h => h) fun pt₂ r₂ h₂ =>
        ⟨⟨fun x hlo hhi => ?_, fun x hx hout => ?_⟩, h₂.tables.trans htables₁, ?_,
          hfrozen₁.trans h₂.frozen⟩
      · intro x hlo hhi
        rw [hlater x hlo hhi]
        exact hmay x (by omega) hhi
      · intro x hlo hhi
        rw [hlater x hlo hhi]
        exact hF x (by omega) hhi
      · by_cases hx : x < a + PGSIZE
        · have hxa := div_eq_of_aligned halign hlo hx
          rw [h₂.unmapped.outside x (maxva_lt (by omega)) (.inl hx), pteAt_congr hxa]
          exact hv₁
        · exact h₂.unmapped.inside x (by omega) (by omega)
      · rw [h₂.unmapped.outside x hx (by omega)]
        exact hpte₁ x hx (div_ne_of_aligned halign (by omega))
      · have hsame : leaves pt₁ (a + PGSIZE) n = leaves pt (a + PGSIZE) n := by
          refine leaves_congr fun k hk => hlater _ (Nat.le_add_right ..) ?_
          exact Nat.add_lt_add_left (Nat.mul_lt_mul_of_pos_right hk hP) _
        rw [h₂.free, hfree₁, hsame, leaves_succ, add_assoc]
    unfold uvmunmapLoop
    cases hv : (pteAt pt a).V with
    | false =>
      rintro r rfl
      rw [bind_of_ok (unmapPage_invalid ha hv r)]
      refine hrest pt (r.at a) hv (fun _ _ _ => rfl) rfl ?_ (Frozen.refl _ _) _ rfl
      rw [leafAt, hv]
      exact (add_zero _).symm
    | true =>
      refine Triple.bind (unmapPage_valid ha hv (hmay a le_rfl (by omega) hv) r₀) fun pt₁ =>
        Triple.each ?_
      rintro r₁ ⟨rfl, hslot, hbyte, hlist⟩
      obtain ⟨e, he⟩ := Option.ne_none_iff_exists'.mp hslot
      refine hrest _ r₁ (by rw [pteAt_setPte_self he]; rfl)
        (fun x hx hne => pteAt_setPte_of_ne (maxva_lt ha) hx hne) (tables_setPte ..) ?_ ?_
      · rw [Mem.free, hlist, leafAt, hv, if_pos rfl, ← Multiset.cons_coe,
          ← Multiset.singleton_add, add_comm]
        rfl
      · rw [hbyte]
        exact frozen_filled (hF a le_rfl (by omega) hv) _ _

theorem uvmunmap_frees (F : List Nat) (n : Nat) (pt : PageTable) (hmax : n * PGSIZE ≤ MAXVA)
    (hmay : ∀ x, x < n * PGSIZE → (pteAt pt x).V = true → (pteAt pt x).perm = Perm.none →
      may .unmapLeaf)
    (hF : ∀ x, x < n * PGSIZE → (pteAt pt x).V = true → (pteAt pt x).pa ∈ F) (r₀ : Ram) :
    Triple may (fun r => r = r₀) (uvmunmap pt 0 n true) (Freed F pt r₀ 0 n) := by
  unfold uvmunmap
  refine Triple.ite (fun h => absurd (Nat.zero_mod _) h) fun _ => ?_
  exact uvmunmapLoop_frees F n pt (Nat.zero_mod _) (by omega) (fun x _ hx => hmay x (by omega))
    (fun x _ hx => hF x (by omega)) r₀

/-! ## Mapping -/

theorem triple_onMem {α : Type} {x : K α} {Q : α → Mem → Prop} (r₀ : Ram)
    (h : Triple may (fun m => m = r₀.mem) x Q) :
    Triple may (fun r => r = r₀) (onMem x) fun a r =>
      Q a r.mem ∧ r.byte = r₀.byte ∧ r.short = r₀.short := by
  intro r hr
  have hx := h r.mem (by rw [hr])
  unfold onMem
  revert hx
  cases x r.mem with
  | error e => exact id
  | ok p => exact fun hx => ⟨hx, by rw [hr], by rw [hr]⟩

/-- What `mappages` has done with one page: the pages it has taken are those of new tables. -/
structure Mapped (pt : PageTable) (r : Ram) (va pa : Nat) (perm : Perm) (p : PageTable × Int)
    (r' : Ram) : Prop where
  byte : r'.byte = r.byte
  took : ∃ l, Took r.mem l r'.mem ∧ tables p.1 = tables pt + l
  result : p.2 = 0 ∨ p.2 = -1
  ok : p.2 = 0 → pteAt p.1 va = ⟨true, perm, pa⟩ ∧
    ∀ x, x < 2 ^ 39 → x / PGSIZE ≠ va / PGSIZE → pteAt p.1 x = pteAt pt x
  failed : p.2 ≠ 0 → ∀ x, pteAt p.1 x = pteAt pt x

theorem mappages_maps {va : Nat} (pa : Nat) (perm : Perm) (hva : va < MAXVA)
    (halign : va % PGSIZE = 0) (hv : (pteAt pt va).V = false) (r₀ : Ram) :
    Triple may (fun r => r = r₀) (mappages pt va PGSIZE pa perm) (Mapped pt r₀ va pa perm) := by
  have hmay : (pteAt pt va).V = true → ∀ e, may e := fun h => absurd (hv.symm.trans h) (by decide)
  have hI : Triple may (fun _ => True) Vm.kalloc fun _ _ => True :=
    Triple.each fun m _ => (kalloc_took m).conseq (fun _ h => h) fun _ _ _ => trivial
  have hkeeps : Triple may _ (Vm.mappages pt va PGSIZE pa perm) _ :=
    mappages_keeps hI pt hva halign hmay
  have hboth := (mappages_took pt hva halign hmay r₀.mem).and
    (hkeeps.conseq (fun _ _ => trivial) fun _ _ h => h)
  have hmapped : Triple may (fun r => r = r₀) (onMem (Vm.mappages pt va PGSIZE pa perm))
      (Mapped pt r₀ va pa perm) :=
    (triple_onMem r₀ hboth).conseq (fun _ h => h) fun p r h =>
      ⟨h.2.1, h.1.1, h.1.2.2.1, fun hp => (h.1.2.2.2.1 hp).2, h.1.2.2.2.2⟩
  unfold mappages
  refine Triple.bind hmapped fun p => ?_
  refine Triple.bind (R := fun _ => Mapped pt r₀ va pa perm p) ?_ fun _ => Triple.pure _ fun _ h => h
  refine Triple.ite (fun _ => Triple.modify _ fun r h => ?_) fun _ => Triple.pure _ fun _ h => h
  exact ⟨h.byte, h.took, h.result, h.ok, h.failed⟩

/-! ## Copying -/

/-- The allocator has handed out the pages of the table, and the free ones are its own. -/
structure Allocated (pt : PageTable) (m : Mem) : Prop where
  nodup : m.freelist.Nodup
  free_page : ∀ pa ∈ m.freelist, pa % PGSIZE = 0
  leaf_page : ∀ va, va < MAXVA → (pteAt pt va).V = true → (pteAt pt va).pa % PGSIZE = 0
  leaf : ∀ va, va < MAXVA → (pteAt pt va).V = true → (pteAt pt va).pa ∉ m.freelist
  table : ∀ pa ∈ tables pt, pa ∉ m.freelist

/-- Below `i` the new table maps a copy of what the old one maps, on pages that were free. -/
structure Copied (old new : PageTable) (r : Ram) (i : Nat) (new' : PageTable) (r' : Ram) : Prop where
  valid : ∀ va, va < i → (pteAt new' va).V = (pteAt old va).V
  perm : ∀ va, va < i → (pteAt new' va).V = true → (pteAt new' va).perm = (pteAt old va).perm
  fresh : ∀ va, va < i → (pteAt new' va).V = true →
    (pteAt new' va).pa ∈ r.mem.freelist ∧ (pteAt new' va).pa ∉ r'.mem.freelist
  bytes : ∀ va, va < i → (pteAt new' va).V = true → ∀ k, k < PGSIZE →
    r'.byte ((pteAt new' va).pa + k) = r.byte ((pteAt old va).pa + k)
  distinct : ∀ va va', va < i → va' < i → (pteAt new' va).V = true → (pteAt new' va').V = true →
    (pteAt new' va).pa = (pteAt new' va').pa → va / PGSIZE = va' / PGSIZE
  above : ∀ va, i ≤ va → va < 2 ^ 39 → pteAt new' va = pteAt new va
  suffix : r'.mem.freelist <:+ r.mem.freelist
  frames : r.mem.free + tables new = r'.mem.free + tables new' + leaves new' 0 (i / PGSIZE)
  frozen : Frozen r.mem.freelist r.byte r'.byte

/-- The copy has been given up: nothing is mapped below `b`, and only tables have taken pages. -/
structure Undone (new : PageTable) (r : Ram) (b : Nat) (new' : PageTable) (r' : Ram) : Prop where
  below : ∀ va, va < b → (pteAt new' va).V = false
  above : ∀ va, b ≤ va → va < 2 ^ 39 → pteAt new' va = pteAt new va
  frames : r.mem.free + tables new = r'.mem.free + tables new'
  frozen : Frozen r.mem.freelist r.byte r'.byte

variable {old new new' : PageTable} {r r' : Ram} {i : Nat}

theorem leaves_last (pt : PageTable) (a n : Nat) :
    leaves pt a (n + 1) = leaves pt a n + leafAt pt (a + n * PGSIZE) := Finset.sum_range_succ ..

theorem page_cases (halign : i % PGSIZE = 0) {va : Nat} (hva : va < i + PGSIZE) :
    va < i ∧ va / PGSIZE ≠ i / PGSIZE ∨ va / PGSIZE = i / PGSIZE := by
  unfold PGSIZE at *
  omega

/-- A page that the parent does not map. -/
theorem Copied.skip (h : Copied old new r i new' r') (halign : i % PGSIZE = 0) (hi : i < MAXVA)
    (hold : (pteAt old i).V = false) (hnew : (pteAt new i).V = false) :
    Copied old new r (i + PGSIZE) new' r' := by
  have hi39 := maxva_lt hi
  have hinv : (pteAt new' i).V = false := by rw [h.above i le_rfl hi39, hnew]
  have hbelow : ∀ va, va < i + PGSIZE → (pteAt new' va).V = true → va < i := by
    intro va hva hv
    rcases page_cases halign hva with hlt | heq
    · exact hlt.1
    · rw [pteAt_congr heq, hinv] at hv
      cases hv
  refine ⟨fun va hva => ?_, fun va hva hv => h.perm va (hbelow va hva hv) hv,
    fun va hva hv => h.fresh va (hbelow va hva hv) hv, fun va hva hv => h.bytes va (hbelow va hva hv) hv,
    fun va va' hva hva' hv hv' => h.distinct va va' (hbelow va hva hv) (hbelow va' hva' hv') hv hv',
    fun va hva => h.above va (by omega), h.suffix, ?_, h.frozen⟩
  · rcases page_cases halign hva with hlt | heq
    · exact h.valid va hlt.1
    · rw [pteAt_congr heq, pteAt_congr heq, hinv, hold]
  · have hdiv : (i + PGSIZE) / PGSIZE = i / PGSIZE + 1 := Nat.add_div_right _ pgsize_pos
    have hmul : 0 + i / PGSIZE * PGSIZE = i := by
      rw [Nat.zero_add, Nat.div_mul_cancel (Nat.dvd_of_mod_eq_zero halign)]
    have hleaf : leafAt new' i = 0 := by rw [leafAt, hinv]; rfl
    rw [hdiv, leaves_last, hmul, hleaf, add_zero, h.frames]

/-- Memory after `memmove`. -/
def moved (byte : Nat → Byte) (dst : Nat) (src : List Byte) : Nat → Byte := fun a =>
  if dst ≤ a then src.getD (a - dst) (byte a) else byte a

theorem moved_self {byte : Nat → Byte} {dst k : Nat} {src : List Byte} (hk : k < src.length) :
    moved byte dst src (dst + k) = src[k] := by
  unfold moved
  rw [if_pos (Nat.le_add_right ..), Nat.add_sub_cancel_left, List.getD_eq_getElem?_getD,
    List.getElem?_eq_getElem hk, Option.getD_some]

theorem moved_of_not_mem {byte : Nat → Byte} {dst x : Nat} {src : List Byte}
    (h : ¬ (dst ≤ x ∧ x < dst + src.length)) : moved byte dst src x = byte x := by
  unfold moved
  by_cases hx : dst ≤ x
  · rw [if_pos hx, List.getD_eq_default _ _ (by omega)]
  · rw [if_neg hx]

/-- Two pages have no byte in common. -/
theorem not_in_page {pa pa' k : Nat} (h : pa % PGSIZE = 0) (h' : pa' % PGSIZE = 0) (hne : pa' ≠ pa)
    (hk : k < PGSIZE) : ¬ (pa ≤ pa' + k ∧ pa' + k < pa + PGSIZE) := by
  unfold PGSIZE at *
  omega

theorem Frozen.page {F : List Nat} {byte byte' : Nat → Byte} (h : Frozen F byte byte')
    (hF : ∀ pa ∈ F, pa % PGSIZE = 0) {pa k : Nat} (hpa : pa % PGSIZE = 0) (hnot : pa ∉ F)
    (hk : k < PGSIZE) : byte' (pa + k) = byte (pa + k) :=
  h _ fun pa' hpa' => not_in_page (hF pa' hpa') hpa (fun he => hnot (he ▸ hpa')) hk

/-- The bytes of a page, as `memmove` finds them. -/
def pageBytes (byte : Nat → Byte) (pa : Nat) : List Byte :=
  (List.range PGSIZE).map fun k => byte (pa + k)

theorem length_pageBytes (byte : Nat → Byte) (pa : Nat) : (pageBytes byte pa).length = PGSIZE := by
  rw [pageBytes, List.length_map, List.length_range]

theorem getElem_pageBytes {byte : Nat → Byte} {pa k : Nat} (hk : k < (pageBytes byte pa).length) :
    (pageBytes byte pa)[k] = byte (pa + k) := by
  simp [pageBytes]

theorem load_eq (src : Nat) (r : Ram) :
    load src PGSIZE r = .ok (pageBytes r.byte src, r) := rfl

theorem memmove_eq (dst : Nat) (src : List Byte) (r : Ram) :
    memmove dst src r = .ok (⟨⟩, { r with byte := moved r.byte dst src }) := rfl

/-- The memory once the page has been freed. -/
def Ram.freed (r : Ram) (pa : Nat) : Ram :=
  { r with
    mem := { r.mem with freelist := pa :: r.mem.freelist }
    byte := filled r.byte pa 1 }

theorem kfree_eq (pa : Nat) (r : Ram) : kfree pa r = .ok (⟨⟩, r.freed pa) := rfl

theorem free_freed (r : Ram) (pa : Nat) : (r.freed pa).mem.free = r.mem.free + {pa} := by
  unfold Ram.freed Mem.free
  rw [← Multiset.cons_coe, ← Multiset.singleton_add, add_comm]

/-- The memory once the page `mem` has been allocated and filled with a copy of `pa`. -/
def Ram.copy (r : Ram) (mem : Nat) (rest : List Nat) (pa : Nat) : Ram :=
  { r with
    mem := { r.mem with freelist := rest }
    byte := moved (filled r.byte mem 5) mem (pageBytes (filled r.byte mem 5) pa) }

theorem frozen_copy {F : List Nat} {mem : Nat} (hmem : mem ∈ F) (r : Ram) (rest : List Nat)
    (pa : Nat) : Frozen F r.byte (r.copy mem rest pa).byte := by
  intro x hx
  have hnot := hx mem hmem
  unfold Ram.copy
  simp only
  rw [moved_of_not_mem (by rwa [length_pageBytes]), filled, if_neg hnot]

/-- A page that the parent maps, once it has been copied and mapped. -/
theorem Copied.page (h : Copied old new r i new' r') (ha : Allocated old r.mem)
    (halign : i % PGSIZE = 0) (hi : i < MAXVA) (hv : (pteAt old i).V = true) {mem : Nat}
    {rest : List Nat} (hfree : r'.mem.freelist = mem :: rest) {p : PageTable × Int} {r₂ : Ram}
    (hmap : Mapped new' (r'.copy mem rest (pteAt old i).pa) i mem (pteAt old i).perm p r₂)
    (hp : p.2 = 0) : Copied old new r (i + PGSIZE) p.1 r₂ := by
  obtain ⟨hself, hother⟩ := hmap.ok hp
  obtain ⟨l, htook, htables⟩ := hmap.took
  have hi39 := maxva_lt hi
  have hmem : mem ∈ r.mem.freelist := h.suffix.subset (hfree ▸ List.mem_cons_self ..)
  have hmem0 := ha.free_page mem hmem
  have hsuffix : r₂.mem.freelist <:+ rest := htook.suffix
  have hnodup : (mem :: rest).Nodup := hfree ▸ ha.nodup.sublist h.suffix.sublist
  -- each page below is the new one or an old one
  have hcases : ∀ va, va < i + PGSIZE → va < i ∧ pteAt p.1 va = pteAt new' va ∨
      va / PGSIZE = i / PGSIZE ∧ pteAt p.1 va = ⟨true, (pteAt old i).perm, mem⟩ := by
    intro va hva
    rcases page_cases halign hva with ⟨hlt, hne⟩ | heq
    · exact .inl ⟨hlt, hother va (by omega) hne⟩
    · exact .inr ⟨heq, by rw [pteAt_congr heq, hself]⟩
  have hbyte : r₂.byte = (r'.copy mem rest (pteAt old i).pa).byte := hmap.byte
  -- the pages copied before are not the new one
  have hne : ∀ va, va < i → (pteAt new' va).V = true → (pteAt new' va).pa ≠ mem := by
    intro va hva hv' he
    exact (h.fresh va hva hv').2 (he ▸ hfree ▸ List.mem_cons_self ..)
  refine ⟨fun va hva => ?_, fun va hva => ?_, fun va hva => ?_, fun va hva => ?_,
    fun va va' hva hva' => ?_, fun va hva hva39 => ?_, ?_, ?_, ?_⟩
  · rcases hcases va hva with ⟨hlt, he⟩ | ⟨heq, he⟩
    · rw [he, h.valid va hlt]
    · rw [he, pteAt_congr heq, hv]
  · rcases hcases va hva with ⟨hlt, he⟩ | ⟨heq, he⟩
    · rw [he]
      exact h.perm va hlt
    · rw [he, pteAt_congr heq]
      exact fun _ => rfl
  · rcases hcases va hva with ⟨hlt, he⟩ | ⟨heq, he⟩
    · rw [he]
      intro hv'
      refine ⟨(h.fresh va hlt hv').1, fun hin => (h.fresh va hlt hv').2 ?_⟩
      rw [hfree]
      exact List.mem_cons_of_mem _ (hsuffix.subset hin)
    · rw [he]
      exact fun _ => ⟨hmem, fun hin => (List.nodup_cons.mp hnodup).1 (hsuffix.subset hin)⟩
  · rcases hcases va hva with ⟨hlt, he⟩ | ⟨heq, he⟩
    · rw [he]
      intro hv' k hk
      have hpage := ha.free_page _ (h.fresh va hlt hv').1
      rw [← h.bytes va hlt hv' k hk, hbyte]
      have hnot := not_in_page hmem0 hpage (hne va hlt hv') hk
      unfold Ram.copy
      simp only
      rw [moved_of_not_mem (by rwa [length_pageBytes]), filled, if_neg hnot]
    · rw [he, pteAt_congr heq]
      intro _ k hk
      have hpage := ha.leaf_page i hi hv
      have hnot := ha.leaf i hi hv
      have hk' : k < (pageBytes (filled r'.byte mem 5) (pteAt old i).pa).length := by
        rwa [length_pageBytes]
      rw [hbyte]
      unfold Ram.copy
      simp only
      rw [moved_self hk', getElem_pageBytes,
        filled_of_ne hmem0 hpage (fun he => hnot (he ▸ hmem)) hk]
      exact h.frozen.page ha.free_page hpage hnot hk
  · rcases hcases va hva with ⟨hlt, he⟩ | ⟨heq, he⟩ <;>
      rcases hcases va' hva' with ⟨hlt', he'⟩ | ⟨heq', he'⟩ <;> rw [he, he']
    · exact h.distinct va va' hlt hlt'
    · exact fun hv₁ _ hpa => absurd hpa (hne va hlt hv₁)
    · exact fun _ hv₂ hpa => absurd hpa.symm (hne va' hlt' hv₂)
    · exact fun _ _ _ => heq.trans heq'.symm
  · rw [hother va hva39 (div_ne_of_aligned halign (.inr hva)), h.above va (by omega) hva39]
  · exact (hsuffix.trans (List.suffix_cons ..)).trans (hfree ▸ h.suffix)
  · have hdiv : (i + PGSIZE) / PGSIZE = i / PGSIZE + 1 := Nat.add_div_right _ pgsize_pos
    have hmul : i / PGSIZE * PGSIZE = i := Nat.div_mul_cancel (Nat.dvd_of_mod_eq_zero halign)
    have hleaf : leafAt p.1 (0 + i / PGSIZE * PGSIZE) = {mem} := by
      rw [Nat.zero_add, hmul, leafAt, hself]
      rfl
    have hsame : leaves p.1 0 (i / PGSIZE) = leaves new' 0 (i / PGSIZE) := by
      refine leaves_congr fun k hk => ?_
      have hlt : 0 + k * PGSIZE < i := by
        rw [Nat.zero_add, ← hmul]
        exact Nat.mul_lt_mul_of_pos_right hk pgsize_pos
      exact hother _ (by omega) (div_ne_of_aligned halign (.inl hlt))
    have hlist : r'.mem.free = r₂.mem.free + l + {mem} := by
      have hcons : r'.mem.free = {mem} + (rest : Multiset Nat) := by
        rw [Mem.free, hfree, ← Multiset.cons_coe, ← Multiset.singleton_add]
      have hrest : (rest : Multiset Nat) = r₂.mem.free + l := htook.free
      rw [hcons, hrest, add_comm]
    rw [hdiv, leaves_last, hleaf, hsame, htables, h.frames, hlist]
    abel
  · rw [hbyte]
    exact h.frozen.trans (frozen_copy hmem r' rest _)

/-- Giving up a copy. -/
theorem Copied.undo (h : Copied old new r i new' r') {b : Nat} (halign : i % PGSIZE = 0)
    (hib : i ≤ b) (hb : b ≤ MAXVA) (hnew : ∀ va, va < b → (pteAt new va).V = false)
    (hmay : ∀ x, x < b → (pteAt old x).V = true → (pteAt old x).perm = Perm.none → may .unmapLeaf)
    {pt : PageTable} {r₁ : Ram} (hsame : ∀ x, pteAt pt x = pteAt new' x)
    (hframes : r₁.mem.free + tables pt = r'.mem.free + tables new')
    (hfrozen : Frozen r.mem.freelist r.byte r₁.byte) :
    Triple may (fun r => r = r₁) (uvmunmap pt 0 (i / PGSIZE) true) (Undone new r b) := by
  have hmul : i / PGSIZE * PGSIZE = i := Nat.div_mul_cancel (Nat.dvd_of_mod_eq_zero halign)
  refine (uvmunmap_frees r.mem.freelist (i / PGSIZE) pt (by omega) ?_ ?_ r₁).conseq (fun _ h => h)
    fun pt' r₂ h₂ => ⟨fun va hva => ?_, fun va hva hva39 => ?_, ?_, hfrozen.trans h₂.frozen⟩
  · intro x hx hv hperm
    rw [hmul] at hx
    rw [hsame] at hv hperm
    exact hmay x (by omega) (h.valid x hx ▸ hv) (h.perm x hx hv ▸ hperm)
  · intro x hx hv
    rw [hmul] at hx
    rw [hsame] at hv ⊢
    exact (h.fresh x hx hv).1
  · by_cases hvai : va < i
    · exact h₂.unmapped.inside va (Nat.zero_le _) (by omega)
    · have hva39 : va < 2 ^ 39 := maxva_lt (by omega)
      rw [h₂.unmapped.outside va hva39 (by omega), hsame, h.above va (by omega) hva39]
      exact hnew va hva
  · rw [h₂.unmapped.outside va hva39 (by omega), hsame, h.above va (by omega) hva39]
  · have hleaves : leaves pt 0 (i / PGSIZE) = leaves new' 0 (i / PGSIZE) :=
      leaves_congr fun k _ => hsame _
    rw [h.frames, h₂.free, h₂.tables, hleaves, ← hframes]
    abel

theorem uvmcopyLoop_copies (ha : Allocated old r.mem) {b : Nat} (hb : b ≤ MAXVA)
    (hnew : ∀ va, va < b → (pteAt new va).V = false)
    (hmay : ∀ x, x < b → (pteAt old x).V = true → (pteAt old x).perm = Perm.none → may .unmapLeaf)
    (n : Nat) {i : Nat} {new' : PageTable} {r' : Ram} (halign : i % PGSIZE = 0)
    (hend : i + n * PGSIZE = b) (h : Copied old new r i new' r') :
    Triple may (fun r => r = r') (uvmcopyLoop n old new' i) fun q r'' =>
      q.1 = old ∧ (q.2.2 = 0 ∧ Copied old new r b q.2.1 r'' ∨
        q.2.2 = -1 ∧ Undone new r b q.2.1 r'') := by
  have hP := pgsize_pos
  induction n generalizing i new' r' with
  | zero =>
    refine Triple.pure _ ?_
    rintro r'' rfl
    obtain rfl : i = b := by omega
    exact ⟨rfl, .inl ⟨rfl, h⟩⟩
  | succ n ih =>
    rw [next_page] at hend
    have hi : i < MAXVA := by omega
    have hi39 := maxva_lt hi
    have halign' : (i + PGSIZE) % PGSIZE = 0 := by rw [Nat.add_mod_right, halign]
    have hinew : (pteAt new i).V = false := hnew i (by omega)
    have hinew' : (pteAt new' i).V = false := by rw [h.above i le_rfl hi39, hinew]
    have hskip (hv : (pteAt old i).V = false) := ih halign' hend (h.skip halign hi hv hinew)
    intro s hs
    subst hs
    unfold uvmcopyLoop
    rw [bind_of_ok (onMem_ok (walk_eq hi old s.mem))]
    cases hslot : slot old i with
    | none => exact hskip (by rw [pteAt, hslot]; rfl) _ rfl
    | some pte =>
      have hpte : pteAt old i = pte := by rw [pteAt, hslot, Option.getD_some]
      simp only
      cases hv : pte.V with
      | false => exact hskip (hpte ▸ hv) _ rfl
      | true =>
        rw [if_neg (by simp)]
        cases hfree : s.mem.freelist with
        | nil =>
          -- kalloc() failed: what was copied so far is taken down again
          have hundo : Triple may (fun r => r = { s with short := true })
              (uvmunmap new' 0 (i / PGSIZE) true) (Undone new r b) :=
            h.undo halign (by omega) hb hnew hmay (fun _ => rfl) rfl h.frozen
          rw [bind_of_ok (kalloc_nil hfree)]
          exact Triple.bind hundo (fun pt => Triple.pure _ fun r'' hundone =>
            ⟨rfl, .inr ⟨rfl, hundone⟩⟩) _ rfl
        | cons mem rest =>
          have hmem : mem ∈ r.mem.freelist := h.suffix.subset (hfree ▸ List.mem_cons_self ..)
          rw [bind_of_ok (kalloc_cons hfree)]
          simp only
          rw [bind_of_ok (load_eq ..), bind_of_ok (memmove_eq ..)]
          refine Triple.bind (mappages_maps mem pte.perm hi halign hinew' (s.copy mem rest pte.pa))
            (fun p => Triple.each fun r₂ hmap => ?_) (s.copy mem rest pte.pa) rfl
          refine Triple.ite (fun hp => ?_) fun hp => ?_
          · have hbyte := hmap.byte
            obtain ⟨l, htook, htables⟩ := hmap.took
            -- the frame is now mapped, and the tables of the child took the frames that mappages() asked for
            have hframes : (r₂.mem.free + {mem}) + tables p.1 = s.mem.free + tables new' := by
              have hcons : s.mem.free = {mem} + (rest : Multiset Nat) := by
                rw [Mem.free, hfree, ← Multiset.cons_coe, ← Multiset.singleton_add]
              have hrest : (rest : Multiset Nat) = r₂.mem.free + l := htook.free
              rw [hcons, hrest, htables]
              abel
            have hfrozen : Frozen r.mem.freelist r.byte (filled r₂.byte mem 1) := by
              rw [hbyte]
              exact (h.frozen.trans (frozen_copy hmem s rest pte.pa)).trans (frozen_filled hmem _ _)
            -- mappages() failed: the frame just filled is freed as well
            have hundo : Triple may (fun r => r = r₂.freed mem) (uvmunmap p.1 0 (i / PGSIZE) true)
                (Undone new r b) :=
              h.undo halign (by omega) hb hnew hmay (hmap.failed hp)
                (by rw [free_freed, hframes]) hfrozen
            intro r₃ hr₃
            rw [hr₃, bind_of_ok (kfree_eq mem r₂)]
            exact Triple.bind hundo (fun pt => Triple.pure _ fun r'' hundone =>
              ⟨rfl, .inr ⟨rfl, hundone⟩⟩) _ rfl
          · have hp0 : p.2 = 0 := not_not.mp hp
            rw [← hpte] at hmap
            exact ih halign' hend (h.page ha halign hi (hpte ▸ hv) hfree hmap hp0)

/-! ## Isolation -/

/-- A store of the process into its memory; one that faults changes nothing. -/
def store (pt : PageTable) (byte : Nat → Byte) (va : Nat) (c : Byte) : Nat → Byte :=
  if va < MAXVA ∧ (pteAt pt va).V = true ∧ (pteAt pt va).perm.U = true ∧ (pteAt pt va).perm.W = true
  then Function.update byte ((pteAt pt va).pa + va % PGSIZE) c else byte

/-- Where two tables map different pages, a store through one is not seen through the other. -/
theorem mappedMem_store {pt pt' : PageTable} {va x : Nat}
    (hpage : (pteAt pt va).V = true → (pteAt pt va).pa % PGSIZE = 0)
    (hpage' : (pteAt pt' x).V = true → (pteAt pt' x).pa % PGSIZE = 0)
    (hne : (pteAt pt va).V = true → (pteAt pt' x).V = true → (pteAt pt' x).pa ≠ (pteAt pt va).pa)
    (byte : Nat → Byte) (c : Byte) :
    mappedMem pt' (store pt byte va c) x = mappedMem pt' byte x := by
  unfold mappedMem store
  by_cases hx : x < MAXVA ∧ (pteAt pt' x).V = true
  · rw [if_pos hx, if_pos hx]
    by_cases hva : va < MAXVA ∧ (pteAt pt va).V = true ∧ (pteAt pt va).perm.U = true ∧
        (pteAt pt va).perm.W = true
    · rw [if_pos hva, Function.update_of_ne]
      have hnot := not_in_page (hpage hva.2.1) (hpage' hx.2) (hne hva.2.1 hx.2)
        (Nat.mod_lt x pgsize_pos)
      have hmod := Nat.mod_lt va pgsize_pos
      omega
    · rw [if_neg hva]
  · rw [if_neg hx, if_neg hx]

/-- The child has a copy of its own of every page below `b`. -/
structure Forked (old new : PageTable) (r : Ram) (b : Nat) (new' : PageTable) (r' : Ram) : Prop
    extends Copied old new r b new' r' where
  unreached : ∀ va, va < b → (pteAt new' va).V = true → (pteAt new' va).pa ∉ tables old ∧
    ∀ x, x < MAXVA → (pteAt old x).V = true → (pteAt old x).pa ≠ (pteAt new' va).pa
  child_stores : ∀ byte va c x, va < b → x < b →
    mappedMem old (store new' byte va c) x = mappedMem old byte x
  parent_stores : ∀ byte va c x, va < b → x < b →
    mappedMem new' (store old byte va c) x = mappedMem new' byte x

theorem Copied.forked {b : Nat} (h : Copied old new r b new' r') (ha : Allocated old r.mem)
    (hb : b ≤ MAXVA) : Forked old new r b new' r' := by
  have hfresh : ∀ va, va < b → (pteAt new' va).V = true → (pteAt new' va).pa ∈ r.mem.freelist :=
    fun va hva hv => (h.fresh va hva hv).1
  have hne : ∀ va x, va < b → x < MAXVA → (pteAt new' va).V = true → (pteAt old x).V = true →
      (pteAt old x).pa ≠ (pteAt new' va).pa :=
    fun va x hva hx hv hxv he => ha.leaf x hx hxv (he ▸ hfresh va hva hv)
  refine ⟨h, fun va hva hv => ⟨fun hin => ha.table _ hin (hfresh va hva hv),
    fun x hx => hne va x hva hx hv⟩, fun byte va c x hva hx => ?_, fun byte va c x hva hx => ?_⟩
  · exact mappedMem_store (fun hv => ha.free_page _ (hfresh va hva hv)) (ha.leaf_page x (by omega))
      (hne va x hva (by omega)) byte c
  · exact mappedMem_store (ha.leaf_page va (by omega)) (fun hv => ha.free_page _ (hfresh x hx hv))
      (fun hv hxv => (hne x va hx (by omega) hxv hv).symm) byte c

/-- `fork` copies the memory of a process and isolates it. Below the size the child maps what the
parent maps, with the same flags and the same bytes, on pages that were free; or nothing, and then
only tables have taken pages for good. The parent's table and memory are as they were. A panic
is possible only for an entry that is valid and has no other flag. -/
theorem uvmcopy_copies {sz : Nat} (hsz : sz ≤ TRAPFRAME) (ha : Allocated old r.mem)
    (hnew : ∀ va, va < PGROUNDUP sz → (pteAt new va).V = false) :
    (∀ e, uvmcopy old new sz r = .error e → e = .unmapLeaf ∧ ∃ x, x < PGROUNDUP sz ∧
      (pteAt old x).V = true ∧ (pteAt old x).perm = Perm.none) ∧
    ∀ old' new' res r', uvmcopy old new sz r = .ok ((old', new', res), r') →
      old' = old ∧
      (∀ va, va < MAXVA → (pteAt old va).V = true → ∀ k, k < PGSIZE →
        r'.byte ((pteAt old va).pa + k) = r.byte ((pteAt old va).pa + k)) ∧
      (res = 0 ∧ Forked old new r (PGROUNDUP sz) new' r' ∨
        res = -1 ∧ Undone new r (PGROUNDUP sz) new' r') := by
  have hmax : PGROUNDUP sz ≤ MAXVA :=
    (pgroundup_le hsz trapframe_le trapframe_mod).trans trapframe_le
  have hpages := pages_eq (Nat.zero_mod PGSIZE) (hsz.trans trapframe_le) (Nat.zero_le _)
  rw [Nat.sub_zero] at hpages
  have hstart : Copied old new r 0 new r :=
    ⟨fun va hva => absurd hva (Nat.not_lt_zero va), fun va hva => absurd hva (Nat.not_lt_zero va),
      fun va hva => absurd hva (Nat.not_lt_zero va), fun va hva => absurd hva (Nat.not_lt_zero va),
      fun va _ hva => absurd hva (Nat.not_lt_zero va), fun va _ _ => rfl, List.suffix_rfl,
      by rw [Nat.zero_div, leaves, Finset.range_zero, Finset.sum_empty, add_zero],
      Frozen.refl _ _⟩
  have hloop : Triple (fun e => e = .unmapLeaf ∧ ∃ x, x < PGROUNDUP sz ∧ (pteAt old x).V = true ∧
      (pteAt old x).perm = Perm.none) _ (uvmcopyLoop _ old new 0) _ :=
    uvmcopyLoop_copies ha hmax hnew (fun x hx hv hperm => ⟨rfl, x, hx, hv, hperm⟩) _
      (Nat.zero_mod PGSIZE) hpages hstart
  have hrun := hloop r rfl
  refine ⟨fun e he => ?_, fun old' new' res r' hok => ?_⟩
  · rw [show uvmcopyLoop _ old new 0 r = _ from he] at hrun
    exact hrun
  · rw [show uvmcopyLoop _ old new 0 r = _ from hok] at hrun
    obtain ⟨rfl, hres⟩ := hrun
    refine ⟨rfl, fun va hva hv k hk => ?_, ?_⟩
    · have hfrozen : Frozen r.mem.freelist r.byte r'.byte :=
        hres.elim (fun h => h.2.frozen) fun h => h.2.frozen
      exact hfrozen.page ha.free_page (ha.leaf_page va hva hv) (ha.leaf va hva hv) hk
    · exact hres.imp (fun h => ⟨h.1, h.2.forked ha hmax⟩) id

/-- A table with one user page. -/
def onePage : PageTable :=
  Function.update (fun _ => none) (PX 2 0) (some (PGSIZE,
    Function.update (fun _ => none) (PX 1 0) (some (2 * PGSIZE,
      Function.update (fun _ => Pte.zero) (PX 0 0) ⟨true, userRW, 3 * PGSIZE⟩))))

theorem pa_onePage {va : Nat} (hv : (pteAt onePage va).V = true) :
    (pteAt onePage va).pa = 3 * PGSIZE := by
  revert hv
  unfold pteAt slot onePage
  by_cases h2 : PX 2 va = PX 2 0
  · by_cases h1 : PX 1 va = PX 1 0
    · by_cases h0 : PX 0 va = PX 0 0
      · simp [h2, h1, h0]
      · simp [h2, h1, Function.update_of_ne h0, Pte.zero]
    · simp [h2, Function.update_of_ne h1, Pte.zero]
  · simp [Function.update_of_ne h2, Pte.zero]

theorem tables_onePage : tables onePage = {PGSIZE} + {2 * PGSIZE} := by
  have hroot := tables_update (fun _ => none) (PX 2 0) (some (PGSIZE,
    Function.update (fun _ => none) (PX 1 0) (some (2 * PGSIZE,
      Function.update (fun _ => Pte.zero) (PX 0 0) ⟨true, userRW, 3 * PGSIZE⟩))))
  have hmid := midTables_update (fun _ => none) (PX 1 0) (some (2 * PGSIZE,
    Function.update (fun _ => Pte.zero) (PX 0 0) ⟨true, userRW, 3 * PGSIZE⟩))
  have hempty : tables (fun _ => none) = 0 := by
    unfold tables
    exact Finset.sum_eq_zero fun _ _ => rfl
  have hnone : ∑ k, midTables ((fun _ => none : Mid) k) = 0 := Finset.sum_eq_zero fun _ _ => rfl
  have hsum := (add_zero _).symm.trans (hmid.trans (by rw [hnone, zero_add]))
  have htables := (add_zero _).symm.trans (hroot.trans (by rw [hempty, zero_add]))
  rw [rootTables, Option.elim_some, hsum] at htables
  exact htables

def threePages : Ram := ⟨⟨[4 * PGSIZE, 5 * PGSIZE, 6 * PGSIZE], []⟩, fun _ => 7, false⟩

/-- A parent that maps one page, and an empty table for the child: it gets the first free page. -/
theorem uvmcopy_copies_onePage : ∃ new' r', uvmcopy onePage (fun _ => none) PGSIZE threePages = .ok ((onePage, new', 0), r') ∧
    (pteAt new' 0).V = true ∧ (pteAt new' 0).pa = 4 * PGSIZE ∧
      Forked onePage (fun _ => none) threePages (PGROUNDUP PGSIZE) new' r' := by
  have ha : Allocated onePage threePages.mem :=
    { nodup := by decide
      free_page := by decide
      leaf_page := fun va _ hv => by rw [pa_onePage hv]; decide
      leaf := fun va _ hv => by rw [pa_onePage hv]; decide
      table := by rw [tables_onePage]; decide }
  have hresult : ((uvmcopy onePage (fun _ => none) PGSIZE threePages).toOption.map fun r =>
      (r.1.2.2, (pteAt r.1.2.1 0).V, (pteAt r.1.2.1 0).pa)) = some (0, true, 4 * PGSIZE) := by decide +kernel
  have hsize : PGSIZE ≤ TRAPFRAME := by decide
  have hempty : ∀ va, va < PGROUNDUP PGSIZE → (pteAt (fun _ => none) va).V = false := fun _ _ => rfl
  have hcopy := (uvmcopy_copies hsize ha hempty).2
  revert hresult hcopy
  cases uvmcopy onePage (fun _ => none) PGSIZE threePages with
  | error e => exact fun h => absurd h (Option.some_ne_none _).symm
  | ok r =>
    obtain ⟨⟨old', new', res⟩, r'⟩ := r
    intro hresult hcopy
    simp only [Except.toOption, Option.map_some, Option.some.injEq, Prod.mk.injEq] at hresult
    obtain ⟨rfl, hv, hpa⟩ := hresult
    obtain ⟨rfl, -, hforked⟩ := hcopy old' new' 0 r' rfl
    exact ⟨new', r', rfl, hv, hpa, (hforked.resolve_right fun h => absurd h.1 (by decide)).2⟩

end Xv6.Vm.Copy
