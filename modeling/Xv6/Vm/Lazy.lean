import Xv6.Vm.UserMem

set_option autoImplicit false

/-! # Lazy allocation and the copies of the kernel

A process whose memory has been allocated lazily, beside the same process with all of it allocated.
`copyin` and `copyout` fault the pages in and do the same for both. `copyinstr` does not: it fails at a
page that has not been allocated, where the other process has a page of zeros and so an empty string. -/

namespace Xv6.Vm.Copy

open Xv6.Lib

inductive Call where
  | copyin (srcva len : Uint64)
  | copyout (dstva : Uint64) (src : List Byte)
  | copyinstr (srcva max : Uint64)

/-- With the process's own page table: what is returned, and what has been put into the buffer of
    the kernel. -/
def Call.run (p : Proc) : Call → KR (Proc × Int × List Byte)
  | .copyin srcva len => Copy.copyin p srcva.toNat len.toNat
  | .copyout dstva src => do
    let r ← Copy.copyout p dstva.toNat src
    pure (r.1, r.2, [])
  | .copyinstr srcva max => do
    let r ← Copy.copyinstr p.pagetable srcva.toNat max.toNat
    pure (p, r)

/-- `q` in the memory `s` is `p` in the memory `r` with every page below `PGROUNDUP(sz)` allocated. That
    the new pages are fresh is part of `owned`. -/
structure EagerCompletion (p : Proc) (r : Ram) (q : Proc) (s : Ram) : Prop where
  size : q.sz = p.sz
  owned : Owned q s.mem
  mapped : ∀ va, va < MAXVA → (pteAt p.pagetable va).V = true →
    pteAt q.pagetable va = pteAt p.pagetable va
  contents : ∀ va, va < MAXVA → (pteAt p.pagetable va).V = true →
    s.byte ((pteAt p.pagetable va).pa + va % PGSIZE) = r.byte ((pteAt p.pagetable va).pa + va % PGSIZE)
  fresh : ∀ va, va < PGROUNDUP p.sz → (pteAt p.pagetable va).V = false →
    ∃ pa, pteAt q.pagetable va = ⟨true, userRW, pa⟩ ∧ ∀ k, k < PGSIZE → s.byte (pa + k) = 0
  above : ∀ va, va < MAXVA → PGROUNDUP p.sz ≤ va → (pteAt p.pagetable va).V = false →
    (pteAt q.pagetable va).V = false
  short : s.short = r.short

/-- The call returns the same, moves the same bytes and leaves the same user memory, unless `kalloc`
    fails in it. -/
def Transparent (p : Proc) (r : Ram) (q : Proc) (s : Ram) (c : Call) : Prop :=
  ∃ p' out r', c.run p r = .ok ((p', out), r') ∧ (r'.short = false →
    ∃ q' s', c.run q s = .ok ((q', out), s') ∧ userMem p' r'.byte = userMem q' s'.byte)

/-- The page of `va` is to be allocated when it is used. -/
def NotYet (p : Proc) (va : Nat) : Prop := va < PGROUNDUP p.sz ∧ (pteAt p.pagetable va).V = false

/-- `copyinstr` comes to no page that has not been allocated yet: before each of them the string has
    ended, or there is a page that may not be read. -/
def StringMapped (p : Proc) (r : Ram) : Call → Prop
  | .copyinstr srcva max => ∀ i, i < max.toNat → NotYet p (srcva.toNat + i) →
      ∃ j, j < i ∧ ∀ b, (mappedMem p.pagetable r.byte).readable (srcva.toNat + j) = some b → b = 0
  | _ => True

/-! ## The two processes -/

variable {p q : Proc} {r s : Ram}

theorem EagerCompletion.complete (h : EagerCompletion p r q s) (hsz : p.sz ≤ TRAPFRAME) :
    Complete q := by
  intro va hva
  rw [h.size] at hva
  have hlt := pgroundup_lt hsz hva
  cases hv : (pteAt p.pagetable va).V with
  | true => rw [h.mapped va hlt hv, hv]
  | false =>
      obtain ⟨pa, hpa, -⟩ := h.fresh va hva hv
      rw [hpa]

/-- Both see the same memory. -/
theorem EagerCompletion.userMem_eq (h : EagerCompletion p r q s) :
    userMem q s.byte = userMem p r.byte := by
  funext va
  by_cases hva : va < MAXVA
  · cases hv : (pteAt p.pagetable va).V with
    | true =>
        have he := h.mapped va hva hv
        rw [userMem_of_valid hva (by rw [he, hv]), userMem_of_valid hva hv, he, h.contents va hva hv]
    | false =>
        rw [userMem_of_invalid (p := p) (by simp [hv])]
        by_cases hlt : va < PGROUNDUP p.sz
        · obtain ⟨pa, hpa, hzero⟩ := h.fresh va hlt hv
          rw [if_pos hlt, userMem_of_valid hva (by rw [hpa]), hpa]
          simp only
          rw [hzero _ (Nat.mod_lt _ pgsize_pos)]
        · have hq := h.above va hva (by omega) hv
          rw [if_neg hlt, userMem_of_invalid (by simp [hq]), h.size, if_neg hlt]
  · rw [userMem_of_invalid (fun hv => hva hv.1), userMem_of_invalid (fun hv => hva hv.1), h.size]

theorem notYet_iff (hsz : p.sz ≤ TRAPFRAME) (va : Nat) : NotYet p va ↔
    (mappedMem p.pagetable r.byte).readable va = none ∧ (userMem p r.byte).readable va = some 0 := by
  unfold NotYet UserMem.readable
  by_cases hv : va < MAXVA ∧ (pteAt p.pagetable va).V = true
  · rw [mappedMem_of_valid hv.1 hv.2, userMem_of_valid hv.1 hv.2]
    simp only [hv.2, Bool.true_eq_false, and_false, Option.bind_some, false_iff, not_and]
    intro h
    rw [h]
    simp
  · rw [mappedMem_of_invalid hv, userMem_of_invalid hv]
    by_cases hlt : va < PGROUNDUP p.sz
    · have hinvalid : (pteAt p.pagetable va).V = false := by
        simpa using fun h => hv ⟨pgroundup_lt hsz hlt, h⟩
      simp [hlt, hinvalid, userRW]
    · simp [hlt]

theorem mapped_readable_userMem {va : Nat} {b : Byte}
    (h : (mappedMem p.pagetable r.byte).readable va = some b) :
    (userMem p r.byte).readable va = some b := by
  unfold UserMem.readable at *
  by_cases hv : va < MAXVA ∧ (pteAt p.pagetable va).V = true
  · rw [mappedMem_of_valid hv.1 hv.2] at h
    rw [userMem_of_valid hv.1 hv.2]
    exact h
  · rw [mappedMem_of_invalid hv] at h
    cases h

theorem userMem_readable_of_mapped_none {va : Nat}
    (h : (mappedMem p.pagetable r.byte).readable va = none) :
    (userMem p r.byte).readable va = none ∨ (userMem p r.byte).readable va = some 0 := by
  unfold UserMem.readable at *
  by_cases hv : va < MAXVA ∧ (pteAt p.pagetable va).V = true
  · rw [mappedMem_of_valid hv.1 hv.2] at h
    rw [userMem_of_valid hv.1 hv.2]
    exact Or.inl h
  · rw [userMem_of_invalid hv]
    by_cases hlt : va < PGROUNDUP p.sz
    · rw [if_pos hlt]
      exact Or.inr rfl
    · rw [if_neg hlt]
      exact Or.inl rfl

/-! ## The calls -/

theorem transparent_copyin (hsz : p.sz ≤ TRAPFRAME) (ho : Owned p r.mem) (hshort : r.short = false)
    (he : EagerCompletion p r q s) (srcva len : Uint64) : Transparent p r q s (.copyin srcva len) := by
  obtain ⟨p', res, bytes, r', hx, hkept, hout⟩ :=
    copyin_spec hsz (fun _ => ho) srcva.toNat len.toNat
  obtain ⟨q', res', bytes', s', hx', hkept', hout'⟩ :=
    copyin_spec (he.size ▸ hsz) (fun _ => he.owned) srcva.toNat len.toNat
  have hs' : s'.short = false := by
    rw [(hkept'.complete (he.complete hsz)).2, he.short, hshort]
  refine ⟨p', (res, bytes), r', hx, fun hs => ⟨q', s', ?_, ?_⟩⟩
  · obtain ⟨hbytes, hres⟩ := hout hs
    obtain ⟨hbytes', hres'⟩ := hout' hs'
    rw [he.userMem_eq, ← hbytes] at hbytes'
    rw [hbytes'] at hres' hx'
    rw [← hres] at hres'
    rw [hres'] at hx'
    exact hx'
  · rw [hkept.mem hs, hkept'.mem hs', he.userMem_eq]

theorem transparent_copyout (hsz : p.sz ≤ TRAPFRAME) (ho : Owned p r.mem) (hshort : r.short = false)
    (he : EagerCompletion p r q s) (dstva : Uint64) (src : List Byte) :
    Transparent p r q s (.copyout dstva src) := by
  obtain ⟨p', res, r', hx, hkept, hout⟩ := copyout_spec hsz (fun _ => ho) dstva.toNat src
  obtain ⟨q', res', s', hx', hkept', hout'⟩ :=
    copyout_spec (he.size ▸ hsz) (fun _ => he.owned) dstva.toNat src
  have hs' : s'.short = false := by
    rw [(hkept'.complete (he.complete hsz)).2, he.short, hshort]
  have hrun : (Call.copyout dstva src).run p r = .ok ((p', res, []), r') := by
    simp only [Call.run]
    rw [bind_of_ok hx]
    rfl
  have hrun' : (Call.copyout dstva src).run q s = .ok ((q', res', []), s') := by
    simp only [Call.run]
    rw [bind_of_ok hx']
    rfl
  refine ⟨p', (res, []), r', hrun, fun hs => ⟨q', s', ?_, ?_⟩⟩
  · rw [hrun', hout' hs', he.userMem_eq, ← hout hs]
  · rw [hkept.mem hs, hkept'.mem hs', he.userMem_eq]

theorem transparent_copyinstr (hsz : p.sz ≤ TRAPFRAME) (ho : Owned p r.mem) (hshort : r.short = false)
    (he : EagerCompletion p r q s) (srcva max : Uint64) :
    Transparent p r q s (.copyinstr srcva max) ↔
      (mappedMem p.pagetable r.byte).readString srcva.toNat max.toNat =
        (userMem p r.byte).readString srcva.toNat max.toNat := by
  have hrun : (Call.copyinstr srcva max).run p r =
      .ok ((p, (mappedMem p.pagetable r.byte).readString srcva.toNat max.toNat), r) := by
    simp only [Call.run]
    rw [bind_of_ok (copyinstr_spec (fun va hva hv => (ho.page va hva hv).1) _ _)]
    rfl
  have hrun' : (Call.copyinstr srcva max).run q s =
      .ok ((q, (userMem p r.byte).readString srcva.toNat max.toNat), s) := by
    have hmem : mappedMem q.pagetable s.byte = userMem p r.byte := by
      rw [← (he.complete hsz).userMem (he.size ▸ hsz), he.userMem_eq]
    simp only [Call.run]
    rw [bind_of_ok (copyinstr_spec (fun va hva hv => (he.owned.page va hva hv).1) _ _), hmem]
    rfl
  constructor
  · rintro ⟨p', out, r', hx, hsame⟩
    rw [hrun, Except.ok.injEq, Prod.mk.injEq, Prod.mk.injEq] at hx
    obtain ⟨⟨-, hout⟩, rfl⟩ := hx
    obtain ⟨q', s', hx', -⟩ := hsame hshort
    rw [hrun', Except.ok.injEq, Prod.mk.injEq, Prod.mk.injEq] at hx'
    rw [hout, hx'.1.2]
  · intro h
    refine ⟨p, _, r, hrun, fun _ => ⟨q, s, ?_, (he.userMem_eq).symm⟩⟩
    rw [h]
    exact hrun'

/-- `copyin` and `copyout` make no difference between the two processes, and `copyinstr` does exactly
    if it comes to a page that has not been allocated yet. -/
theorem lazy_transparent_iff (hsz : p.sz ≤ TRAPFRAME) (ho : Owned p r.mem) (hshort : r.short = false)
    (he : EagerCompletion p r q s) (c : Call) : Transparent p r q s c ↔ StringMapped p r c := by
  cases c with
  | copyin srcva len => exact ⟨fun _ => trivial, fun _ => transparent_copyin hsz ho hshort he _ _⟩
  | copyout dstva src => exact ⟨fun _ => trivial, fun _ => transparent_copyout hsz ho hshort he _ _⟩
  | copyinstr srcva max =>
      rw [transparent_copyinstr hsz ho hshort he, UserMem.readString_eq_iff
        (fun _ _ => mapped_readable_userMem) fun _ => userMem_readable_of_mapped_none]
      refine forall_congr' fun i => imp_congr_right fun _ => ?_
      rw [notYet_iff (r := r) hsz, and_imp]

/-! ## A process that has grown lazily -/

/-- The page table that maps these pages, by their numbers, with the tables that it takes. -/
def tableOf (pages : List (Nat × Pte)) : PageTable := fun i =>
  if pages.any fun e => e.1 / 2 ^ 18 = i.val then
    some (0x87e00000 + i.val * PGSIZE, fun j =>
      if pages.any fun e => e.1 / 2 ^ 9 = i.val * 2 ^ 9 + j.val then
        some (0x87c00000 + (i.val * 2 ^ 9 + j.val) * PGSIZE, fun k =>
          (pages.lookup (i.val * 2 ^ 18 + j.val * 2 ^ 9 + k.val)).getD Pte.zero)
      else none)
  else none

theorem mem_of_lookup {pages : List (Nat × Pte)} {n : Nat} {e : Pte} (h : pages.lookup n = some e) :
    (n, e) ∈ pages := by
  obtain ⟨l₁, l₂, rfl, -⟩ := List.lookup_eq_some_iff.1 h
  exact List.mem_append_right _ (List.mem_cons_self ..)

theorem pteAt_tableOf (pages : List (Nat × Pte)) {va : Nat} (hva : va < 2 ^ 39) :
    pteAt (tableOf pages) va = (pages.lookup (va / PGSIZE)).getD Pte.zero := by
  have h2 : (PX 2 va).val = va / PGSIZE / 2 ^ 18 := by
    simp only [PX, Fin.ofNat_eq_cast, Fin.val_natCast, PGSIZE]
    omega
  have h1 : (PX 2 va).val * 2 ^ 9 + (PX 1 va).val = va / PGSIZE / 2 ^ 9 := by
    simp only [PX, Fin.ofNat_eq_cast, Fin.val_natCast, PGSIZE]
    omega
  have h0 : (PX 2 va).val * 2 ^ 18 + (PX 1 va).val * 2 ^ 9 + (PX 0 va).val = va / PGSIZE := by
    have hlow : (PX 0 va).val = va / PGSIZE % 2 ^ 9 := by
      simp only [PX, Fin.ofNat_eq_cast, Fin.val_natCast, PGSIZE]
      omega
    have hsum : (PX 2 va).val * 2 ^ 18 + (PX 1 va).val * 2 ^ 9 =
        ((PX 2 va).val * 2 ^ 9 + (PX 1 va).val) * 2 ^ 9 := by
      rw [Nat.add_mul, Nat.mul_assoc, ← Nat.pow_add]
    rw [hsum, h1, hlow]
    exact Nat.div_add_mod' ..
  have hnone : (¬ ∃ e ∈ pages, e.1 = va / PGSIZE) → pages.lookup (va / PGSIZE) = none := by
    intro h
    cases hl : pages.lookup (va / PGSIZE) with
    | none => rfl
    | some e => exact absurd ⟨_, mem_of_lookup hl, rfl⟩ h
  unfold pteAt slot tableOf
  by_cases ha : (pages.any fun e => e.1 / 2 ^ 18 = (PX 2 va).val) = true
  · rw [if_pos ha]
    simp only
    by_cases hb : (pages.any fun e => e.1 / 2 ^ 9 = (PX 2 va).val * 2 ^ 9 + (PX 1 va).val) = true
    · rw [if_pos hb]
      simp only
      rw [h0]
      rfl
    · rw [if_neg hb, hnone]
      rintro ⟨e, he, hpage⟩
      refine hb (List.any_eq_true.2 ⟨e, he, ?_⟩)
      rw [h1, hpage]
      simp
  · rw [if_neg ha, hnone]
    rintro ⟨e, he, hpage⟩
    refine ha (List.any_eq_true.2 ⟨e, he, ?_⟩)
    rw [h2, hpage]
    simp

/-- A mapped address lies on one of the pages. -/
theorem tableOf_valid {pages : List (Nat × Pte)} {va : Nat} (hva : va < MAXVA)
    (hv : (pteAt (tableOf pages) va).V = true) :
    (va / PGSIZE, pteAt (tableOf pages) va) ∈ pages := by
  rw [pteAt_tableOf pages (maxva_lt hva)] at hv ⊢
  cases hl : pages.lookup (va / PGSIZE) with
  | none =>
      rw [hl] at hv
      cases hv
  | some e => exact mem_of_lookup hl

theorem owned_tableOf {pages : List (Nat × Pte)} {free unmapped : List Nat} (root trapframe sz : Nat)
    (hpage : ∀ e ∈ pages, e.2.pa ≠ 0 ∧ e.2.pa % PGSIZE = 0)
    (hdistinct : ∀ e ∈ pages, ∀ e' ∈ pages, e.2.pa = e'.2.pa → e.1 = e'.1) (hnodup : free.Nodup)
    (hfree : ∀ pa ∈ free, pa ≠ 0 ∧ pa % PGSIZE = 0) (hunused : ∀ e ∈ pages, e.2.pa ∉ free) :
    Owned ⟨root, tableOf pages, trapframe, sz⟩ ⟨free, unmapped⟩ := by
  refine ⟨fun va hva hv => ?_, fun va va' hva hva' hv hv' heq => ?_, hnodup, hfree,
    fun va hva hv => ?_⟩
  · exact hpage _ (tableOf_valid hva hv)
  · exact hdistinct _ (tableOf_valid hva hv) _ (tableOf_valid hva' hv') heq
  · exact hunused _ (tableOf_valid hva hv)

/-- A page of text, the guard page, the stack, the trapframe and the trampoline. -/
def execPages : List (Nat × Pte) :=
  [(0, ⟨true, ⟨true, false, true, true⟩, 0x87f50000⟩), (1, ⟨true, ⟨true, true, false, false⟩, 0x87f4f000⟩),
    (2, ⟨true, userRW, 0x87f4e000⟩), (TRAPFRAME / PGSIZE, ⟨true, ⟨true, true, false, false⟩, 0x87f57000⟩),
    (TRAMPOLINE / PGSIZE, ⟨true, ⟨true, false, true, false⟩, 0x80007000⟩)]

def freeList : List Nat := [0x87f4a000, 0x87f49000, 0x87f48000]

/-- After `sbrklazy(4096)`: the page at 12288 is not mapped yet. -/
def lazyProc : Proc := ⟨0x87f56000, tableOf execPages, 0x87f57000, 16384⟩
def lazyRam : Ram := ⟨⟨freeList, []⟩, fun _ => 0, false⟩

/-- The same with the page. -/
def eagerProc : Proc :=
  ⟨0x87f56000, tableOf ((3, ⟨true, userRW, 0x87f4b000⟩) :: execPages), 0x87f57000, 16384⟩

theorem owned_lazyProc : Owned lazyProc lazyRam.mem :=
  owned_tableOf _ _ _ (by decide) (by decide) (by decide) (by decide) (by decide)

theorem eagerCompletion_lazyProc : EagerCompletion lazyProc lazyRam eagerProc lazyRam := by
  have hsz : PGROUNDUP lazyProc.sz = 16384 := by decide
  have hlazy : ∀ va, va < MAXVA → pteAt lazyProc.pagetable va =
      (execPages.lookup (va / PGSIZE)).getD Pte.zero := fun va hva => pteAt_tableOf _ (maxva_lt hva)
  have heager : ∀ va, va < MAXVA → pteAt eagerProc.pagetable va = if va / PGSIZE = 3
      then ⟨true, userRW, 0x87f4b000⟩ else pteAt lazyProc.pagetable va := by
    intro va hva
    rw [hlazy va hva]
    show pteAt (tableOf _) va = _
    rw [pteAt_tableOf _ (maxva_lt hva), List.lookup_cons]
    by_cases h3 : va / PGSIZE = 3
    · simp [h3]
    · rw [beq_false_of_ne h3, if_neg h3]
  have hthree : ∀ va, va < MAXVA → va / PGSIZE = 3 → (pteAt lazyProc.pagetable va).V = false := by
    intro va hva h3
    rw [hlazy va hva, h3]
    rfl
  refine ⟨rfl, owned_tableOf _ _ _ (by decide) (by decide) (by decide) (by decide) (by decide),
    fun va hva hv => ?_, fun _ _ _ => rfl, fun va hva hv => ?_, fun va hva hge hv => ?_, rfl⟩
  · rw [heager va hva, if_neg]
    intro h3
    rw [hthree va hva h3] at hv
    cases hv
  · rw [hsz] at hva
    have hmax : va < MAXVA := by
      unfold MAXVA
      omega
    have hpage : va / PGSIZE = 0 ∨ va / PGSIZE = 1 ∨ va / PGSIZE = 2 ∨ va / PGSIZE = 3 := by
      unfold PGSIZE
      omega
    refine ⟨0x87f4b000, ?_, fun _ _ => rfl⟩
    rw [heager va hmax, if_pos]
    rw [hlazy va hmax] at hv
    rcases hpage with h | h | h | h
    · rw [h] at hv
      cases hv
    · rw [h] at hv
      cases hv
    · rw [h] at hv
      cases hv
    · exact h
  · rw [heager va hva, if_neg]
    · exact hv
    · rw [hsz] at hge
      unfold PGSIZE
      omega

theorem lazy_transparent_copyin :
    Transparent lazyProc lazyRam eagerProc lazyRam (.copyin 12288 8) :=
  (lazy_transparent_iff (by decide) owned_lazyProc rfl eagerCompletion_lazyProc _).2 trivial

/-- `open(p)` with `p` on the new page: the name is empty, and `copyinstr` fails. -/
theorem copyinstr_not_transparent : lazyProc.sz ≤ TRAPFRAME ∧ Owned lazyProc lazyRam.mem ∧
    EagerCompletion lazyProc lazyRam eagerProc lazyRam ∧
    ¬ Transparent lazyProc lazyRam eagerProc lazyRam (.copyinstr 12288 128) := by
  refine ⟨by decide, owned_lazyProc, eagerCompletion_lazyProc, fun h => ?_⟩
  have hmapped := (lazy_transparent_iff (by decide) owned_lazyProc rfl eagerCompletion_lazyProc _).1 h
  have hnot : NotYet lazyProc ((12288 : Uint64).toNat + 0) := by
    refine ⟨by decide, ?_⟩
    show (pteAt (tableOf execPages) _).V = false
    rw [pteAt_tableOf _ (by decide)]
    rfl
  obtain ⟨j, hj, -⟩ := hmapped 0 (by decide) hnot
  exact Nat.not_lt_zero j hj

end Xv6.Vm.Copy
