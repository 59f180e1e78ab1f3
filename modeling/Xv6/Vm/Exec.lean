import Xv6.Vm.Elf

set_option autoImplicit false

/-! # `exec`

`kexec` of `kernel/exec.c` and `sys_exec` of `kernel/sysfile.c`. The new page table is made from free pages while
the process
still has its old one, which is freed only after nothing can fail any more. -/

namespace Xv6.Vm.Copy

open Xv6.Lib
open Xv6.Eager (owned below_maxva le_maxva pgroundup_le_top)

/-- How the new program starts: what `kexec` returns, and `sp` and `epc` in the trapframe. -/
structure Start where
  argc : Nat
  sp : Nat
  entry : Nat
  deriving DecidableEq

/-- The process, and `none` for -1. The file has been found, and is locked. -/
def kexec (p : Proc) (trampoline : Nat) (f : List Byte) (argv : List (List Byte)) : KE (Proc × Option Start) :=
  let elf := elfhdr (readi f 0 elfhdrSize)
  if (readi f 0 elfhdrSize).length ≠ elfhdrSize then pure (p, none)
  else if elf.magic ≠ ELF_MAGIC then pure (p, none)
  else do
    match ← vm (procPagetable p.trapframe trampoline) with
    | none => pure (p, none)
    | some (root, pt) => do
      let l ← loadProghdrs f elf.phnum (uint elf.phoff) pt 0
      if l.2.2 = false then do
        vm (procFreepagetable root l.1 l.2.1)
        pure (p, none)
      else do
        let sz := PGROUNDUP l.2.1
        let a ← vm (uvmalloc l.1 sz ((sz + (USERSTACK + 1) * PGSIZE) % 2 ^ 64) ⟨false, true, false, false⟩)
        if a.2 = 0 then do
          vm (procFreepagetable root a.1 sz)
          pure (p, none)
        else do
          let pt ← vm (onMem (uvmclear a.1 (a.2 - (USERSTACK + 1) * PGSIZE)))
          let s ← vm (pushArgs p pt a.2 argv)
          match s.2.2 with
          | none => do
            vm (procFreepagetable root pt a.2)
            pure (s.1, none)
          | some (argc, sp) => do
            vm (procFreepagetable s.1.root s.1.pagetable s.1.sz)
            pure (⟨root, pt, p.trapframe, a.2⟩, some ⟨argc, sp, elf.entry⟩)

variable {T X : Multiset Nat} {b₀ : Nat → Byte} {top : Nat → Pte} {pt : PageTable} {lim sz a trampoline : Nat}
    {p : Proc}
  {u u₀ : UserMem} {sh : Bool} {f : List Byte} {argv : List (List Byte)} {r : Ram}

/-! ## The stack -/

/-- The page at `a` is not for the use of the process. -/
def UserMem.clear (u : UserMem) (a : Nat) : UserMem := fun va =>
  if a ≤ va ∧ va < a + PGSIZE then (u va).map fun e => ({ e.1 with U := false }, e.2) else u va

/-- `uvmclear` changes the page at `a` alone. -/
theorem uvmclear_at (halign : a % PGSIZE = 0) (hlim : a < lim) (hv : (pteAt pt a).V = true) :
    Runs (At T b₀ top X pt lim u sh) (onMem (uvmclear pt a)) fun pt' r => At T b₀ top X pt' lim (u.clear a) sh r ∧
      ∀ x, x < 2 ^ 39 → x / PGSIZE ≠ a / PGSIZE → pteAt pt' x = pteAt pt x := by
  refine Triple.of_ok fun r h => ?_
  have hspace := h.space
  have hmax := hspace.ltmax hlim
  obtain ⟨e, he⟩ : ∃ e, slot pt a = some e := by
    cases hs : slot pt a with
    | some e => exact ⟨e, rfl⟩
    | none =>
      rw [pteAt, hs] at hv
      cases hv
  have hpte : pteAt pt a = e := by rw [pteAt, he, Option.getD_some]
  let e' : Pte := { e with perm := { e.perm with U := false } }
  have hrun : uvmclear pt a r.mem = .ok (setPte pt a e', r.mem) := by
    unfold uvmclear
    rw [bind_of_ok (walk_eq hmax pt r.mem), he]
    rfl
  have hother : ∀ x, x < 2 ^ 39 → x / PGSIZE ≠ a / PGSIZE → pteAt (setPte pt a e') x = pteAt pt x := fun x hx hne =>
    pteAt_setPte_of_ne (maxva_lt hmax) hx hne
  -- the page, or another one
  have hcases : ∀ x, x < 2 ^ 39 → (a ≤ x ∧ x < a + PGSIZE) ∧ pteAt pt x = e ∧ pteAt (setPte pt a e') x = e' ∨
      ¬ (a ≤ x ∧ x < a + PGSIZE) ∧ pteAt (setPte pt a e') x = pteAt pt x := by
    intro x hx
    by_cases hin : a ≤ x ∧ x < a + PGSIZE
    · have hpage := div_eq_of_aligned halign hin.1 hin.2
      exact .inl ⟨hin, by rw [pteAt_congr hpage, hpte], by rw [pteAt_congr hpage, pteAt_setPte_self he]⟩
    · exact .inr ⟨hin, hother x hx (div_ne_of_aligned halign (by omega))⟩
  have hsame : ∀ x, x < 2 ^ 39 → (pteAt (setPte pt a e') x).V = (pteAt pt x).V ∧
      (pteAt (setPte pt a e') x).pa = (pteAt pt x).pa ∧ (pteAt (setPte pt a e') x).perm.R = (pteAt pt x).perm.R := by
    intro x hx
    rcases hcases x hx with ⟨-, h1, h2⟩ | ⟨-, h2⟩
    · rw [h1, h2]
      exact ⟨rfl, rfl, rfl⟩
    · rw [h2]
      exact ⟨rfl, rfl, rfl⟩
  have hbelow := hspace.below
  refine ⟨_, _, onMem_ok hrun, ⟨⟨fun x hx hxv => ?_, fun x hlo hhi => ?_, fun x hlo hhi => ?_, hspace.aligned,
    hbelow⟩, ?_,
    h.within, ?_, h.short⟩, hother⟩
  · rw [(hsame x hx).1] at hxv
    rw [(hsame x hx).2.2]
    exact hspace.leafy x hx hxv
  · rw [(hsame x (maxva_lt (below_maxva (Nat.le_of_lt hhi)))).1]
    exact hspace.hole x hlo hhi
  · rcases hcases x hhi with ⟨hin, -⟩ | ⟨-, h2⟩
    · have hmod := hspace.aligned
      have htm := trapframe_mod
      unfold PGSIZE at *
      omega
    · rw [h2]
      exact hspace.above x hlo hhi
  · have hleaves : leaves (setPte pt a e') 0 (lim / PGSIZE) = leaves pt 0 (lim / PGSIZE) := by
      refine Finset.sum_congr rfl fun k hk => ?_
      have hlt := Nat.mul_lt_mul_of_pos_right (Finset.mem_range.1 hk) pgsize_pos
      rw [Eager.mul_div_aligned hspace.aligned] at hlt
      have hk' := hsame (0 + k * PGSIZE) (hspace.lt39 (by omega))
      rw [leafAt, leafAt, hk'.1, hk'.2.1]
    rw [← h.pages, owned, owned, hleaves, tables_setPte]
  · rw [← h.view]
    funext x
    unfold UserMem.clear
    by_cases hx : x < lim
    · rcases hcases x (hspace.lt39 hx) with ⟨hin, h1, h2⟩ | ⟨hin, h2⟩
      · have hvalid : e.V = true := by rw [← hpte, hv]
        rw [if_pos hin, view_valid hx (by rw [h2]; exact hvalid), view_valid hx (by rw [h1]; exact hvalid), h1, h2]
        rfl
      · rw [if_neg hin]
        unfold view
        rw [if_pos hx, if_pos hx, h2]
    · rw [view_of_le (Nat.not_lt.1 hx), view_of_le (Nat.not_lt.1 hx)]
      split <;> rfl

/-! ## The arguments -/

/-- `copyout` to pages of a new page table that may be written. -/
theorem copyoutIn_at (hT : Frames T) (p : Proc) (dstva : Nat) (src : List Byte)
    (hok : ∀ k, k < src.length → dstva + k < lim ∧ Writes pt (dstva + k)) :
    Runs (At T b₀ top X pt lim u sh) (copyoutIn p pt dstva src) fun q r =>
      At T b₀ top X pt lim (u.store dstva src) sh r ∧ q = (p, 0) := by
  induction hlen : src.length using Nat.strong_induction_on generalizing dstva src u with
  | _ len ih =>
    subst hlen
    rw [copyoutIn]
    by_cases h0 : src.length = 0
    · rw [dif_pos h0, List.length_eq_zero_iff.1 h0, UserMem.store_nil]
      exact Triple.pure _ fun r h => ⟨h, rfl⟩
    rw [dif_neg h0]
    have hpos := chunk_pos dstva h0
    have hle := chunk_le dstva src.length
    have hdown := pgrounddown_le dstva
    have hfirst := hok 0 (by omega)
    rw [Nat.add_zero] at hfirst
    have hw : Writes pt (PGROUNDDOWN dstva) := hfirst.2.congr (pgrounddown_div dstva).symm hdown
    have hlim : PGROUNDDOWN dstva < lim := lt_of_le_of_lt hdown hfirst.1
    refine Triple.ite (fun hmax => absurd hmax (Nat.not_le.2 hw.1)) fun _ => ?_
    refine Triple.each fun r₀ h => ?_
    -- page 0 is never handed out, so that walkaddr() does not fail here
    have hpa := (hT.page _ (h.mem_of_leaf hlim hw.2.1)).1
    have hresolve : ∀ r, resolveIn p pt (PGROUNDDOWN dstva) r = .ok ((p, (pteAt pt (PGROUNDDOWN dstva)).pa), r) := by
      intro r
      have haddr := walkaddr_eq pt (PGROUNDDOWN dstva) r.mem
      rw [if_pos ⟨hw.1, hw.2.1, hw.2.2.1⟩] at haddr
      unfold resolveIn
      rw [bind_of_ok (onMem_ok haddr), if_neg hpa]
      rfl
    refine Triple.bind (R := fun q r => q = (p, (pteAt pt (PGROUNDDOWN dstva)).pa) ∧ r = r₀) (Triple.of_ok fun r hr =>
      ⟨_, _, hresolve r, rfl, hr⟩) fun q => ?_
    refine Triple.each fun r₁ hr₁ => ?_
    obtain ⟨hq, hr⟩ := hr₁
    subst hq hr
    refine Triple.ite (fun hcon => absurd hcon hpa) fun _ => ?_
    refine Triple.bind (R := fun w r => w.2 = slot pt (PGROUNDDOWN dstva) ∧ r = r₁) (Triple.of_ok fun r hr =>
      ⟨_, _, onMem_ok (walk_eq hw.1 pt r.mem), rfl, hr⟩) fun w => ?_
    refine Triple.each fun r₂ hr₂ => ?_
    obtain ⟨hslot', hr⟩ := hr₂
    subst hr
    rw [hslot']
    cases hslot : slot pt (PGROUNDDOWN dstva) with
    | none =>
      have hv := hw.2.1
      rw [pteAt, hslot] at hv
      cases hv
    | some pte =>
      have hpte : pteAt pt (PGROUNDDOWN dstva) = pte := by rw [pteAt, hslot, Option.getD_some]
      refine Triple.ite (fun hW => ?_) fun _ => ?_
      · rw [← hpte, hw.2.2.2] at hW
        cases hW
      let n := chunk dstva src.length
      have htake : (src.take n).length = n := List.length_take_of_le hle
      have hroom : dstva - PGROUNDDOWN dstva + (src.take n).length ≤ PGSIZE := by
        rw [htake]
        simp only [n]
        unfold chunk PGROUNDDOWN PGSIZE at *
        omega
      -- one page of the image is written, inside a frame of the new process
      have hmoved : At T b₀ top X pt lim (u.store dstva (src.take n)) sh { r₂ with
          byte := moved r₂.byte ((pteAt pt (PGROUNDDOWN dstva)).pa + (dstva - PGROUNDDOWN dstva)) (src.take n) } :=
        ⟨h.space, h.pages, h.within.trans (within_moved (h.mem_of_leaf hlim hw.2.1) hroom _),
          h.view_moved hT hlim hw.2.1 (Nat.le_of_eq htake), h.short⟩
      refine Triple.bind (R := fun _ => At T b₀ top X pt lim (u.store dstva (src.take n)) sh) (Triple.of_ok fun r hr =>
        ⟨_, _, memmove_eq .., by rw [hr]; exact hmoved⟩) fun _ => ?_
      have hall : (u.store dstva (src.take n)).store (dstva + n) (src.drop n) = u.store dstva src := by
        have happend : (u.store dstva (src.take n)).store (dstva + (src.take n).length) (src.drop n) = _ :=
          UserMem.store_append
        rwa [htake, List.take_append_drop] at happend
      by_cases hend : n < src.length
      · rw [chunk_next hw.1 hend, ← hall]
        refine ih (src.drop n).length (by rw [List.length_drop]; omega) (dstva + n) (src.drop n) (fun k hk => ?_) rfl
        rw [List.length_drop] at hk
        rw [Nat.add_assoc]
        exact hok (n + k) (by omega)
      · have hnil : src.drop n = [] := List.drop_of_length_le (by omega)
        rw [hnil, UserMem.store_nil] at hall
        show Runs _ (copyoutIn p pt _ (src.drop n)) _
        rw [hnil, copyoutIn, dif_pos List.length_nil, hall]
        exact Triple.pure _ fun r hr => ⟨hr, rfl⟩

/-- The new stack ends at `sz`, and may be written. -/
structure Stacked (pt : PageTable) (sz : Nat) : Prop where
  aligned : sz % PGSIZE = 0
  guard : (USERSTACK + 1) * PGSIZE ≤ sz
  size : sz ≤ TRAPFRAME
  stack : ∀ x, sz - USERSTACK * PGSIZE ≤ x → x < sz → Writes pt x

theorem Stacked.readable (hst : Stacked pt sz) (h : At T b₀ top X pt sz u sh r) {x : Nat}
    (hlo : sz - USERSTACK * PGSIZE ≤ x)
    (hhi : x < sz) : ∃ b, u.readable x = some b := by
  have hw := hst.stack x hlo hhi
  unfold UserMem.readable
  rw [← h.view, view_valid hhi hw.2.1, Option.bind_some, if_pos hw.2.2.1]
  exact ⟨_, rfl⟩

theorem pushStrings_at (hT : Frames T) (hst : Stacked pt sz) (p : Proc)
    (argv : List (List Byte)) {args : List (List Byte)}
    {st : ArgState} {placed : List (Nat × List Byte)} {base : Nat} (hbase : base = sz - USERSTACK * PGSIZE)
    (hp : Pushed u₀ sz args st placed u) (hmax : args.length + argv.length < MAXARG)
    (hlen : ∀ s ∈ argv, s.length ≤ PGSIZE - 1) :
    Runs (At T b₀ top X pt sz u sh) (pushStrings p pt base argv st) fun q r => q.1 = p ∧
      (q.2.2 = true ∧ (∃ placed' u', Pushed u₀ sz (args ++ argv) q.2.1 placed' u' ∧ At T b₀ top X pt sz u' sh r) ∨
        q.2.2 = false ∧ USERSTACK * PGSIZE < need (args ++ argv) ∧ ∃ u', At T b₀ top X pt sz u' sh r) := by
  have hguard := hst.guard
  have hsize := hst.size
  have htop : TRAPFRAME < 2 ^ 64 := by decide
  induction argv generalizing args st placed u with
  | nil =>
    rw [List.append_nil]
    exact Triple.pure _ fun r h => ⟨rfl, .inl ⟨rfl, placed, u, hp, h⟩⟩
  | cons s argv ih =>
    rw [List.length_cons] at hmax
    have hs := hlen s (List.mem_cons_self ..)
    have hused := hp.used
    have habove := hp.above
    have hcount : st.ustack.length = args.length := by
      rw [← hp.ustack, ← hp.pushed, List.length_map, List.length_map]
    have hn : s.length + 1 ≤ st.sp := by
      unfold USERSTACK PGSIZE at *
      omega
    obtain ⟨hsp, halign⟩ := ArgState.push_sp hn (by omega) hp.aligned
    have hexact := hp.exact.push hn
    have happend : args ++ s :: argv = args ++ [s] ++ argv := by
      rw [List.append_assoc, List.singleton_append]
    unfold pushStrings
    refine Triple.ite (fun hcon => absurd hcon (by omega)) fun _ => ?_
    refine Triple.ite (fun hlow => Triple.pure _ fun r h => ⟨rfl, .inr ⟨rfl, ?_, u, h⟩⟩) fun hlow => ?_
    · have hneed := need_le_append (args ++ [s]) argv
      rw [need_append] at hneed
      rw [happend]
      omega
    · have hup : s.length + 1 ≤ up16 (s.length + 1) := by
        unfold up16
        omega
      have hbytes : (s ++ [0]).length = s.length + 1 := List.length_append
      refine Triple.each fun r₀ h => ?_
      refine (Triple.bind (copyoutIn_at hT p (st.push (s.length + 1)).sp (s ++ [0]) fun k hk => ?_) fun q => ?_ :
        Runs (At T b₀ top X pt sz u sh) _ _).conseq (fun r hr => hr ▸ h) fun _ _ h => h
      · exact ⟨by omega, hst.stack _ (by omega) (by omega)⟩
      · have hplaced := hp.toPlaced.store (by omega) (show (st.push (s.length + 1)).sp + (s.length + 1) ≤ st.sp by omega)
          fun x hlo hhi => hst.readable h (by omega) (by omega)
        refine Triple.assume fun hq => ?_
        subst hq
        refine Triple.ite (fun hcon => absurd hcon (Int.lt_irrefl 0)) fun _ => ?_
        have hnext : Pushed u₀ sz (args ++ [s])
            { st.push (s.length + 1) with ustack := (st.push (s.length + 1)).ustack ++ [(st.push (s.length + 1)).sp] }
            (placed ++ [((st.push (s.length + 1)).sp, s)]) (u.store (st.push (s.length + 1)).sp (s ++ [0])) := by
          refine ⟨hplaced, ?_, ?_, halign, ?_, by simp only; omega, hexact⟩
          · rw [List.map_append, hp.ustack, ArgState.push_ustack]
            rfl
          · rw [List.map_append, hp.pushed]
            rfl
          · rw [need_append]
            simp only
            omega
        have hmax' : (args ++ [s]).length + argv.length < MAXARG := by
          rw [List.length_append, List.length_singleton]
          omega
        rw [happend]
        exact ih hnext hmax' fun s' hs' => hlen s' (List.mem_cons_of_mem _ hs')

/-- What the strings and the array take. -/
def argRoom (argv : List (List Byte)) : Nat := need argv + up16 ((argv.length + 1) * 8)

/-- The arguments are laid out on the stack, or are too large for it. -/
theorem pushArgs_at (hT : Frames T) (hst : Stacked pt sz) (p : Proc) (hmax : argv.length ≤ MAXARG - 1)
    (hlen : ∀ s ∈ argv, s.length ≤ PGSIZE - 1) :
    Runs (At T b₀ top X pt sz u sh) (pushArgs p pt sz argv) fun q r => q.1 = p ∧
      ((∃ argc sp placed u', q.2.2 = some (argc, sp) ∧ Layout u sz argv argc sp placed u' ∧
      At T b₀ top X pt sz u' sh r) ∨
        q.2.2 = none ∧ USERSTACK * PGSIZE < argRoom argv ∧ ∃ u', At T b₀ top X pt sz u' sh r) := by
  have hguard := hst.guard
  have hsize := hst.size
  have htop : TRAPFRAME < 2 ^ 64 := by decide
  have hM : MAXARG = 32 := rfl
  have hstackbase : (sz + 2 ^ 64 - USERSTACK * PGSIZE) % 2 ^ 64 = sz - USERSTACK * PGSIZE := by
    unfold USERSTACK PGSIZE at *
    omega
  have hstart : Pushed u sz [] ⟨sz, [], []⟩ [] u :=
    ⟨⟨by simp, by simp, by simp, List.Pairwise.nil, fun _ _ => rfl⟩, rfl, rfl,
      by have := hst.aligned; unfold PGSIZE at this; simp only; omega, rfl, by simp only; omega,
      by intro q hq; exact absurd hq List.not_mem_nil⟩
  unfold pushArgs argRoom
  simp only
  rw [hstackbase]
  generalize hbase : sz - USERSTACK * PGSIZE = base
  refine Triple.bind (pushStrings_at hT hst p argv hbase.symm hstart (by rw [List.length_nil]; omega) hlen) fun q => ?_
  rw [List.nil_append]
  refine Triple.ite (fun hfail => Triple.pure _ fun r h => ?_) fun hok => ?_
  · obtain ⟨hq, hr⟩ := h
    obtain ⟨-, hneed, hat⟩ := hr.resolve_left fun hr => by rw [hr.1] at hfail; cases hfail
    exact ⟨hq, .inr ⟨rfl, by omega, hat⟩⟩
  · refine Triple.each fun r₀ h => ?_
    obtain ⟨hq, hr⟩ := h
    obtain ⟨-, placed, u', hpushed, hat⟩ := hr.resolve_right fun hr => hok hr.1
    have hcount : q.2.1.ustack.length = argv.length := by
      rw [← hpushed.ustack, ← hpushed.pushed, List.length_map, List.length_map]
    have hused := hpushed.used
    have habove := hpushed.above
    have hn : (q.2.1.ustack.length + 1) * 8 ≤ q.2.1.sp := by
      unfold USERSTACK PGSIZE at *
      omega
    obtain ⟨hsp, halign⟩ := ArgState.push_sp hn (by omega) hpushed.aligned
    rw [hcount] at hn hsp halign ⊢
    refine Triple.ite (fun hlow => Triple.pure _ fun r hr => ⟨hq, .inr ⟨rfl, by omega, u', hr ▸ hat⟩⟩) fun hlow => ?_
    have hup : (argv.length + 1) * 8 ≤ up16 ((argv.length + 1) * 8) := by
      unfold up16
      omega
    have hbytes : ((q.2.1.ustack ++ [0]).flatMap le64).length = 8 * (argv.length + 1) := by
      rw [length_flatMap_le64, List.length_append, List.length_singleton, hcount]
    rw [ArgState.push_ustack]
    refine Triple.conseq (P := At T b₀ top X pt sz u' sh) ?_ (fun r (hr : r = r₀) => hr ▸ hat) fun _ _ h => h
    refine Triple.bind (copyoutIn_at hT q.1 (q.2.1.push ((argv.length + 1) * 8)).sp ((q.2.1.ustack ++ [0]).flatMap le64)
      fun k hk => ?_) fun c => ?_
    · exact ⟨by omega, hst.stack _ (by omega) (by omega)⟩
    · refine Triple.assume fun hc => ?_
      subst hc
      refine Triple.ite (fun hcon => absurd hcon (Int.lt_irrefl 0)) fun _ => Triple.pure _ fun r hr => ⟨hq, .inl ?_⟩
      have hlayout := hpushed.layout halign (by omega) (by omega) fun x hlo hhi =>
        hst.readable hat (by omega) (by omega)
      rw [hcount] at hlayout
      exact ⟨_, _, placed, _, rfl, hlayout, hr⟩

/-! ## `kexec` -/

/-- A stack above the program, and below it a page that may not be touched. -/
def UserMem.withStack (u : UserMem) (sz : Nat) : UserMem :=
  (u.grow (PGROUNDUP sz) (PGROUNDUP sz + (USERSTACK + 1) * PGSIZE) userRW).clear (PGROUNDUP sz)

/-- Memory `u`, of size `sz`, is that of the program in the file `f` when it starts with the arguments `argv`. -/
def Started (f : List Byte) (argv : List (List Byte)) (start : Start) (sz : Nat) (u : UserMem) : Prop :=
  start.entry = (elfhdr (readi f 0 elfhdrSize)).entry ∧ ∃ m placed, image f = some m ∧
    m.2 ≤ TRAPFRAME ∧ sz = PGROUNDUP m.2 + (USERSTACK + 1) * PGSIZE ∧
    Layout (m.1.withStack m.2) sz argv start.argc start.sp placed u

/-- The file is no program, or there is no room for its arguments. -/
def Refused (f : List Byte) (argv : List (List Byte)) : Prop := image f = none ∨ USERSTACK * PGSIZE < argRoom argv

/-- The process runs the program now, or it is as before. -/
def Execed (T : Multiset Nat) (b₀ : Nat → Byte) (trampoline : Nat) (X : Multiset Nat) (p : Proc) (u : UserMem)
    (sh : Bool)
    (f : List Byte) (argv : List (List Byte)) (q : Proc × Option Start) (r : Ram) : Prop :=
  (∃ start u', q.2 = some start ∧ Started f argv start q.1.sz u' ∧ Holds T b₀ trampoline X q.1 u' sh r) ∨
  q.2 = none ∧ q.1 = p ∧ (Holds T b₀ trampoline X p u true r ∨ Refused f argv ∧ Holds T b₀ trampoline X p u sh r)

theorem image_eq (hlen : (readi f 0 elfhdrSize).length = elfhdrSize)
    (hmagic : (elfhdr (readi f 0 elfhdrSize)).magic = ELF_MAGIC) :
    image f = loadAll f (elfhdr (readi f 0 elfhdrSize)).phnum (uint (elfhdr (readi f 0 elfhdrSize)).phoff)
    (noMem, 0) := by
  unfold image program
  rw [if_neg (not_or.2 ⟨not_not.2 hlen, not_not.2 hmagic⟩)]
  rfl

theorem image_none (h : (readi f 0 elfhdrSize).length ≠ elfhdrSize ∨
    (elfhdr (readi f 0 elfhdrSize)).magic ≠ ELF_MAGIC) :
    image f = none := by
  unfold image program
  rw [if_pos h]
  rfl

/-- Where the stack is. -/
theorem withStack_stacked {m : Nat} (h : At T b₀ top X pt (PGROUNDUP m + (USERSTACK + 1) * PGSIZE) (u.withStack m) sh r)
    (hvalid : ∀ x, PGROUNDUP m + PGSIZE ≤ x → x < PGROUNDUP m + (USERSTACK + 1) * PGSIZE → (pteAt pt x).V = true) :
    Stacked pt (PGROUNDUP m + (USERSTACK + 1) * PGSIZE) := by
  refine ⟨h.space.aligned, Nat.le_add_left .., h.space.below, fun x hlo hhi => ?_⟩
  have hx : PGROUNDUP m + PGSIZE ≤ x := by
    unfold USERSTACK at hlo
    omega
  have hsee : u.withStack m x = some (userRW, 0) := by
    unfold UserMem.withStack UserMem.clear UserMem.grow
    rw [if_neg (by omega), if_pos (by omega)]
  have hview := view_valid (b := r.byte) hhi (hvalid x hx hhi)
  rw [h.view, hsee] at hview
  have hperm : userRW = (pteAt pt x).perm := congrArg Prod.fst (Option.some.inj hview)
  refine ⟨h.space.ltmax hhi, hvalid x hx hhi, ?_, ?_⟩ <;> rw [← hperm] <;> rfl

/-- The guard page is below the stack. -/
theorem uvmclear_guard {m : Nat} (hall : Full pt (PGROUNDUP m + (USERSTACK + 1) * PGSIZE)) :
    Runs (At T b₀ top X pt (PGROUNDUP m + (USERSTACK + 1) * PGSIZE)
      (u.grow (PGROUNDUP m) (PGROUNDUP m + (USERSTACK + 1) * PGSIZE) userRW) sh) (onMem (uvmclear pt (PGROUNDUP m)))
      fun pt' r => At T b₀ top X pt' (PGROUNDUP m + (USERSTACK + 1) * PGSIZE) (u.withStack m) sh r ∧
        Stacked pt' (PGROUNDUP m + (USERSTACK + 1) * PGSIZE) := by
  have halign := pgroundup_mod m
  have hbelow : PGROUNDUP m < PGROUNDUP m + (USERSTACK + 1) * PGSIZE :=
    Nat.lt_add_of_pos_right (Nat.mul_pos (Nat.succ_pos _) pgsize_pos)
  refine (uvmclear_at halign hbelow (hall _ hbelow).1).conseq (fun _ h => h) fun pt' r hr => ?_
  obtain ⟨hat, hother⟩ := hr
  refine ⟨hat, withStack_stacked hat fun x hlo hhi => ?_⟩
  rw [hother x (hat.space.lt39 hhi) (div_ne_of_aligned halign (.inr hlo))]
  exact (hall x hhi).1

/-- The process gets the new page table, and the old one is freed. -/
theorem commit_at {root : Nat} {u' : UserMem} (hT : Frames T) :
    Runs (fun r => Holds T b₀ trampoline (X + ({root} + owned pt lim)) p u sh r ∧
        At T b₀ (procTop p.trapframe trampoline) ({root} + (held p + X)) pt lim u' sh r)
      (procFreepagetable p.root p.pagetable p.sz) fun _ =>
        At T b₀ (procTop p.trapframe trampoline) (X + {p.trapframe} + {root}) pt lim u' sh := by
  refine Triple.each fun r h => ?_
  obtain ⟨hold, hnew⟩ := h
  let Y := 0 + {p.root} + owned p.pagetable (PGROUNDUP p.sz)
  have hspace := hold.space
  rw [show X + ({root} + owned pt lim) + {p.trapframe} + {p.root} =
    0 + {p.root} + (X + ({root} + owned pt lim) + {p.trapframe}) by abel] at hspace
  have hpart := hspace.part
  have hle := hspace.part_le
  rw [add_assoc r.mem.free] at hpart hle
  refine (procFreepagetable_pool (hT.le hle) hold.size).conseq (fun s hs => by subst hs; exact hpart)
    fun _ s hpool => ?_
  have hstart : At T b₀ (procTop p.trapframe trampoline) (X + {p.trapframe} + {root} + Y) pt lim u' sh r := by
    rw [show X + {p.trapframe} + {root} + Y = {root} + (held p + X) by simp only [Y, held]; abel]
    exact hnew
  have hend := hstart.frame hT hpool.pages hpool.within hpool.short
  rwa [add_zero] at hend

theorem kexec_at (hT : Frames T) (hcard : T.card < TRAPFRAME / PGSIZE) (hf : f.length < 2 ^ 32)
    (hmax : argv.length ≤ MAXARG - 1)
    (hlen : ∀ s ∈ argv, s.length ≤ PGSIZE - 1) :
    RunsE (Holds T b₀ trampoline X p u sh) (kexec p trampoline f argv) (Execed T b₀ trampoline X p u sh f argv) := by
  have hzero : PGROUNDUP 0 = 0 := by decide
  unfold kexec
  dsimp only
  refine Triple.ite (fun hshort => Triple.pure _ fun r h =>
    .inr ⟨rfl, rfl, .inr ⟨.inl (image_none (.inl hshort)), h⟩⟩) fun hhdr => ?_
  refine Triple.ite (fun hbad => Triple.pure _ fun r h => .inr ⟨rfl, rfl, .inr ⟨.inl (image_none (.inr hbad)), h⟩⟩)
    fun hmagic => ?_
  have himage := image_eq (not_not.1 hhdr) (not_not.1 hmagic)
  refine Triple.each fun r₀ h => ?_
  have hparent : Holds T b₀ trampoline (X + 0) p u sh r₀ := by rwa [add_zero]
  let F := r₀.mem.free + 0
  have hrest : F + (held p + X) = T := by
    rw [← h.part_add]
    simp only [F]
    abel
  have hle : F ≤ T := hrest ▸ Multiset.le_add_right ..
  have hF : Frames F := hT.le hle
  have hcardF : F.card < TRAPFRAME / PGSIZE := lt_of_le_of_lt (Multiset.card_le_card hle) hcard
  have hback : ∀ {Y : Multiset Nat} {sh' : Bool} {r : Ram}, Pool F r₀.byte Y sh' r →
    Holds T b₀ trampoline (X + Y) p u sh' r :=
    fun hpool => hparent.frame hT hpool
  -- what has been made of a new page table is free again
  have hfree : ∀ (root : Nat) (pt : PageTable) (sz : Nat) (u' : UserMem) (sh' : Bool), sz ≤ TRAPFRAME →
      (sh' = true ∨ Refused f argv ∧ sh' = sh) →
      RunsE (At F r₀.byte (procTop p.trapframe trampoline) (0 + {root}) pt (PGROUNDUP sz) u' sh')
        (do vm (procFreepagetable root pt sz); pure (p, none)) (Execed T b₀ trampoline X p u sh f argv) := by
    intro root pt sz u' sh' hsz hwhy
    refine Triple.bind (Triple.vm (procFreepagetable_pool hF hsz)) fun _ => Triple.pure _ fun r hpool =>
      .inr ⟨rfl, rfl, ?_⟩
    have hend := hback hpool
    rw [add_zero] at hend
    rcases hwhy with rfl | ⟨hrefused, rfl⟩
    · exact .inl hend
    · exact .inr ⟨hrefused, hend⟩
  refine (Triple.bind (Triple.vm (procPagetable_made hF p.trapframe trampoline)) fun o => ?_ :
    RunsE (Pool F r₀.byte 0 sh) _ _).conseq (fun r hr => by subst hr; exact ⟨rfl, Within.refl _ _, h.space.short⟩)
    fun _ _ h => h
  cases o with
  | none =>
    refine Triple.pure _ fun r hr => .inr ⟨rfl, rfl, .inl ?_⟩
    have hend := hback hr
    rwa [add_zero] at hend
  | some t =>
    obtain ⟨root, pt⟩ := t
    refine (Triple.bind (loadProghdrs_at hF hcardF hf _ _) fun l => ?_ :
      RunsE (Loading F r₀.byte (procTop p.trapframe trampoline) (0 + {root}) pt 0 noMem sh) _ _).conseq (fun r hr =>
        ⟨Nat.zero_le _, by rw [hzero]; exact hr, fun x hx => absurd (hzero ▸ hx) (Nat.not_lt_zero x)⟩) fun _ _ h => h
    rw [← himage]
    refine Triple.ite (fun hfail => ?_) fun hok => ?_
    · refine Triple.each fun r₁ hr => ?_
      obtain ⟨-, hsz, u₁, hat⟩ := hr.resolve_left fun hr => by rw [hr.1] at hfail; cases hfail
      rcases hat with hat | ⟨hnone, hat⟩
      · exact (hfree root l.1 l.2.1 u₁ true hsz (.inl rfl)).conseq (fun s hs => hs ▸ hat) fun _ _ h => h
      · exact (hfree root l.1 l.2.1 u₁ sh hsz (.inr ⟨.inl hnone, rfl⟩)).conseq (fun s hs => hs ▸ hat) fun _ _ h => h
    refine Triple.each fun r₁ hr => ?_
    obtain ⟨-, u₁, hsome, hloading⟩ := hr.resolve_right fun hr => hok hr.1
    have htop := pgroundup_le_top hloading.size
    have halign := pgroundup_mod l.2.1
    have hround : PGROUNDUP (PGROUNDUP l.2.1) = PGROUNDUP l.2.1 := pgroundup_of_aligned (le_maxva htop) halign
    have hsmall : PGROUNDUP l.2.1 + (USERSTACK + 1) * PGSIZE < 2 ^ 64 := by
      have hmax : TRAPFRAME = 2 ^ 38 - 8192 := by decide
      unfold USERSTACK PGSIZE at *
      omega
    rw [Nat.mod_eq_of_lt hsmall]
    have hspace := hloading.space
    rw [← hround] at hspace
    have hfull := hloading.full
    rw [← hround] at hfull
    refine Triple.conseq (P := At F r₀.byte (procTop p.trapframe trampoline) (0 + {root}) l.1
      (PGROUNDUP (PGROUNDUP l.2.1)) u₁ sh) ?_
      (fun r (hr : r = r₁) => hr ▸ hspace) fun _ _ h => h
    refine Triple.bind (Triple.vm (uvmalloc_at hF htop (.inr ⟨hfull, hcardF⟩))) fun a => ?_
    refine Triple.ite (fun h0 => ?_) fun h0 => ?_
    · refine (hfree root a.1 (PGROUNDUP l.2.1) u₁ true htop (.inl rfl)).conseq (fun s hs => ?_) fun _ _ h => h
      have hat := (hs.1 h0).2
      rwa [decide_eq_true (by unfold USERSTACK PGSIZE; omega), Bool.or_true] at hat
    generalize hguard : a.2 - (USERSTACK + 1) * PGSIZE = guard
    refine Triple.each fun r₂ hr₂ => ?_
    obtain ⟨hsz, hend, hat, hfull'⟩ := hr₂.2 h0
    rw [Nat.max_eq_right (Nat.le_add_right ..)] at hsz
    have hround' : PGROUNDUP a.2 = a.2 := pgroundup_of_aligned (le_maxva hend) (by
      rw [hsz, Nat.add_mul_mod_self_right, halign])
    obtain rfl : guard = PGROUNDUP l.2.1 := by omega
    have hall := hfull' hfull
    rw [hround', hsz] at hall
    rw [hround', hround, hsz] at hat
    refine Triple.conseq (P := At F r₀.byte (procTop p.trapframe trampoline) (0 + {root}) a.1 (PGROUNDUP l.2.1 +
      (USERSTACK + 1) * PGSIZE) _ sh) ?_ (fun r (hr : r = r₂) => hr ▸ hat) fun _ _ h => h
    refine Triple.bind (Triple.vm (uvmclear_guard hall)) fun pt₂ => ?_
    refine Triple.each fun r₃ hr₃ => ?_
    obtain ⟨hat₂, hst⟩ := hr₃
    rw [← hsz] at hat₂ hst
    refine Triple.conseq (P := At F r₀.byte (procTop p.trapframe trampoline) (0 + {root}) pt₂ a.2 _ sh) ?_
      (fun r (hr : r = r₃) => hr ▸ hat₂) fun _ _ h => h
    refine Triple.bind (Triple.vm (pushArgs_at hF hst p hmax hlen)) fun s => ?_
    refine Triple.each fun r₄ hr₄ => ?_
    obtain ⟨hp, hargs⟩ := hr₄
    cases hs : s.2.2 with
    | none =>
      obtain ⟨-, hlarge, u₂, hat₃⟩ := hargs.resolve_left fun hr => by
        obtain ⟨_, _, _, _, hsome', -⟩ := hr
        rw [hs] at hsome'
        cases hsome'
      rw [← hround'] at hat₃
      rw [hp]
      exact (hfree root pt₂ a.2 u₂ sh hend (.inr ⟨.inr hlarge, rfl⟩)).conseq (fun s hs => hs ▸ hat₃) fun _ _ h => h
    | some c =>
      obtain ⟨argc, sp, placed, u₂, hstart, hlayout, hat₃⟩ := hargs.resolve_right fun hr => by
        rw [hs] at hr
        cases hr.1
      rw [hs] at hstart
      obtain rfl := Option.some.inj hstart
      rw [hp]
      have hnew := hat₃.widen hrest h.space.within
      have hboth : Holds T b₀ trampoline (X + ({root} + owned pt₂ a.2)) p u sh r₄ := by
        have hend := hback hat₃.pool
        rwa [zero_add] at hend
      rw [zero_add] at hnew
      refine Triple.bind (Triple.vm ((commit_at hT).conseq (fun s hs => by subst hs; exact ⟨hboth, hnew⟩)
        fun _ _ h => h)) fun _ =>
        Triple.pure _ fun r hr => .inl ⟨_, u₂, rfl, ⟨rfl, _, placed, hsome, hloading.size, hsz, hlayout⟩, hend, ?_⟩
      rw [hround']
      exact hr

end Xv6.Vm.Copy
