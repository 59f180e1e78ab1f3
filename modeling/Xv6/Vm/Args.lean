import Xv6.Vm.UserMem

set_option autoImplicit false

/-! # The arguments of a new program

The phase of `kexec` of `kernel/exec.c` that copies the arguments to the new stack. The strings come
without the NUL that ends them. The page table is not that of the process yet, and `vmfault` maps
what it allocates in that of the process. -/

namespace Xv6.Vm.Copy

open Xv6.Lib

/-- max exec arguments -/
def MAXARG : Nat := 32

/-- `vmfault` for the page table `pt`. -/
def vmfaultIn (p : Proc) (pt : PageTable) (va : Nat) : KR (Proc × Nat) :=
  if p.sz ≤ va then pure (p, 0)
  else do
    let va := PGROUNDDOWN va
    if ← onMem (ismapped pt va) then pure (p, 0)
    else match ← kalloc with
      | none => pure (p, 0)
      | some mem => do
        memset mem 0 PGSIZE
        let r ← mappages p.pagetable va PGSIZE mem userRW
        let p := { p with pagetable := r.1 }
        if r.2 ≠ 0 then do
          kfree mem
          pure (p, 0)
        else pure (p, mem)

def resolveIn (p : Proc) (pt : PageTable) (va : Nat) : KR (Proc × Nat) := do
  let pa ← onMem (walkaddr pt va)
  if pa = 0 then vmfaultIn p pt va else pure (p, pa)

/-- `copyout` to the page table `pt`. -/
def copyoutIn (p : Proc) (pt : PageTable) (dstva : Nat) (src : List Byte) : KR (Proc × Int) :=
  if h : src.length = 0 then pure (p, 0)
  else if MAXVA ≤ PGROUNDDOWN dstva then pure (p, -1)
  else do
    let r ← resolveIn p pt (PGROUNDDOWN dstva)
    if r.2 = 0 then pure (r.1, -1)
    else match (← onMem (walk pt (PGROUNDDOWN dstva) false)).2 with
      | none => pure (r.1, -1)
      | some pte =>
        if pte.perm.W = false then pure (r.1, -1)
        else do
          have := chunk_pos dstva h
          memmove (r.2 + (dstva - PGROUNDDOWN dstva)) (src.take (chunk dstva src.length))
          copyoutIn r.1 pt ((PGROUNDDOWN dstva + PGSIZE) % 2 ^ 64)
            (src.drop (chunk dstva src.length))
  termination_by src.length
  decreasing_by simp only [List.length_drop]; omega

/-- `sp` and `ustack`, and a history variable: what has been subtracted from `sp` when. -/
structure ArgState where
  sp : Nat
  ustack : List Nat
  subs : List (Nat × Nat)

/-- `sp -= n` -/
@[irreducible] def ArgState.sub (st : ArgState) (n : Nat) : ArgState :=
  { st with sp := (st.sp + 2 ^ 64 - n) % 2 ^ 64, subs := (st.sp, n) :: st.subs }

/-- `sp -= n`, and `sp -= sp % 16`: riscv sp must be 16-byte aligned. -/
def ArgState.push (st : ArgState) (n : Nat) : ArgState := (st.sub n).sub ((st.sub n).sp % 16)

/-- The loop over the strings; `false` stands for `goto bad`. -/
def pushStrings (p : Proc) (pt : PageTable) (stackbase : Nat) :
    List (List Byte) → ArgState → KR (Proc × ArgState × Bool)
  | [], st => pure (p, st, true)
  | s :: argv, st =>
    if MAXARG ≤ st.ustack.length then pure (p, st, false)
    else do
      let st := st.push (s.length + 1)
      if st.sp < stackbase then pure (p, st, false)
      else do
        let r ← copyoutIn p pt st.sp (s ++ [0])
        if r.2 < 0 then pure (r.1, st, false)
        else pushStrings r.1 pt stackbase argv { st with ustack := st.ustack ++ [st.sp] }

/-- The bytes of a `uint64`. -/
def le64 (x : Nat) : List Byte := (List.range 8).map fun j => BitVec.ofNat 8 (x / 2 ^ (8 * j))

/-- The argument phase: `argc` and `sp`, or `none` for `goto bad`. -/
def pushArgs (p : Proc) (pt : PageTable) (sz : Nat) (argv : List (List Byte)) :
    KR (Proc × ArgState × Option (Nat × Nat)) := do
  let stackbase := (sz + 2 ^ 64 - USERSTACK * PGSIZE) % 2 ^ 64
  let r ← pushStrings p pt stackbase argv ⟨sz, [], []⟩
  if r.2.2 = false then pure (r.1, r.2.1, none)
  else do
    let argc := r.2.1.ustack.length
    let st := r.2.1.push ((argc + 1) * 8)
    if st.sp < stackbase then pure (r.1, st, none)
    else do
      let q ← copyoutIn r.1 pt st.sp ((st.ustack ++ [0]).flatMap le64)
      if q.2 < 0 then pure (q.1, st, none) else pure (q.1, st, some (argc, st.sp))

/-! ## Copying to pages that are mapped -/

variable {pt : PageTable}

/-- The pages of the table are pages, each mapped once. -/
structure Pages (pt : PageTable) : Prop where
  page : ∀ va, va < MAXVA → (pteAt pt va).V = true → (pteAt pt va).pa ≠ 0 ∧ (pteAt pt va).pa % PGSIZE = 0
  distinct : ∀ va va', va < MAXVA → va' < MAXVA → (pteAt pt va).V = true → (pteAt pt va').V = true →
    (pteAt pt va).pa = (pteAt pt va').pa → va / PGSIZE = va' / PGSIZE

/-- The process may write at the address. -/
def Writes (pt : PageTable) (va : Nat) : Prop :=
  va < MAXVA ∧ (pteAt pt va).V = true ∧ (pteAt pt va).perm.U = true ∧ (pteAt pt va).perm.W = true

theorem Writes.congr {va x : Nat} (h : Writes pt va) (hpage : va / PGSIZE = x / PGSIZE) (hx : x ≤ va) :
    Writes pt x := by
  unfold Writes at *
  rw [← pteAt_congr hpage]
  exact ⟨by omega, h.2⟩

theorem mappedMem_memmove (h : Pages pt) {va n : Nat} {bs : List Byte} (hva : PGROUNDDOWN va < MAXVA)
    (hv : (pteAt pt (PGROUNDDOWN va)).V = true) (hn : bs.length ≤ chunk va n) (byte : Nat → Byte) :
    mappedMem pt (fun a => if (pteAt pt (PGROUNDDOWN va)).pa + (va - PGROUNDDOWN va) ≤ a then
        bs.getD (a - ((pteAt pt (PGROUNDDOWN va)).pa + (va - PGROUNDDOWN va))) (byte a)
      else byte a) = (mappedMem pt byte).store va bs := by
  let p : Proc := ⟨0, pt, 0, 0⟩
  have hzero : PGROUNDUP 0 = 0 := by decide
  have hnone : ∀ byte, userMem p byte = mappedMem pt byte := fun byte =>
    Complete.userMem (p := p) (fun va hva => absurd hva (hzero ▸ Nat.not_lt_zero va)) (Nat.zero_le _)
  have ho : Owned p ⟨[], []⟩ :=
    ⟨h.page, h.distinct, List.nodup_nil, fun _ h => absurd h List.not_mem_nil,
      fun _ _ _ => List.not_mem_nil⟩
  rw [← hnone, ← hnone]
  exact userMem_memmove ho hva hv hn byte

namespace UserMem

variable {u : UserMem} {va : Nat} {bs bs' : List Byte}

theorem store_append : (u.store va bs).store (va + bs.length) bs' = u.store va (bs ++ bs') := by
  funext x
  unfold store
  rw [List.length_append]
  by_cases h' : va + bs.length ≤ x ∧ x < va + bs.length + bs'.length
  · rw [if_pos h', if_neg (by omega), if_pos (by omega)]
    cases u x with
    | none => rfl
    | some e =>
      have hsub : x - va = bs.length + (x - (va + bs.length)) := by omega
      simp only [Option.map_some, hsub, List.getD_eq_getElem?_getD]
      rw [List.getElem?_append_right (Nat.le_add_right ..), Nat.add_sub_cancel_left]
  · rw [if_neg h']
    by_cases h : va ≤ x ∧ x < va + bs.length
    · rw [if_pos h, if_pos (by omega)]
      cases u x with
      | none => rfl
      | some e =>
        simp only [Option.map_some, List.getD_eq_getElem?_getD]
        rw [List.getElem?_append_left (by omega)]
    · rw [if_neg h, if_neg (by omega)]

theorem store_of_not_mem {x : Nat} (h : ¬ (va ≤ x ∧ x < va + bs.length)) : u.store va bs x = u x :=
  if_neg h

/-- What has been stored is read. -/
theorem read_store {n : Nat} (hn : n = bs.length)
    (h : ∀ k, k < bs.length → ∃ b, u.readable (va + k) = some b) : (u.store va bs).read va n = bs := by
  subst hn
  induction bs generalizing u va with
  | nil => rfl
  | cons b bs ih =>
    obtain ⟨b₀, h₀⟩ := h 0 (Nat.succ_pos _)
    obtain ⟨e, he, hU⟩ : ∃ e, u va = some e ∧ e.1.U = true := by
      unfold readable at h₀
      cases hu : u va with
      | none => simp [hu] at h₀
      | some e =>
        refine ⟨e, rfl, ?_⟩
        by_contra hcon
        simp [hu, hcon] at h₀
    have hput : u.store va (b :: bs) = (u.put va b).store (va + 1) bs := store_put.symm
    have hread : (u.store va (b :: bs)).readable va = some b := by
      rw [hput]
      unfold readable
      rw [store_of_not_mem (by omega), put, Function.update_self, he]
      simp [hU]
    rw [List.length_cons, read, hread]
    simp only
    rw [hput, ih]
    intro k hk
    obtain ⟨b', hb'⟩ := h (k + 1) (Nat.succ_lt_succ hk)
    refine ⟨b', ?_⟩
    unfold readable put at *
    rw [Function.update_of_ne (by omega), show va + 1 + k = va + (k + 1) by omega]
    exact hb'

/-- Reading depends on what is read only. -/
theorem read_congr {u v : UserMem} {va n : Nat} (h : ∀ k, k < n → u (va + k) = v (va + k)) :
    u.read va n = v.read va n := by
  induction n generalizing va with
  | zero => rfl
  | succ n ih =>
    have h₀ := h 0 (Nat.succ_pos n)
    have htail : u.read (va + 1) n = v.read (va + 1) n := by
      refine ih fun k hk => ?_
      have hk' := h (k + 1) (Nat.succ_lt_succ hk)
      rwa [show va + (k + 1) = va + 1 + k by omega] at hk'
    rw [read, read, htail]
    unfold readable
    rw [show u va = v va from h₀]

end UserMem

/-- `copyout` to pages that may be written does not fail. -/
theorem copyoutIn_mapped (h : Pages pt) (p : Proc) (dstva : Nat) (src : List Byte)
    (hok : ∀ k, k < src.length → Writes pt (dstva + k)) (r : Ram) :
    ∃ byte', copyoutIn p pt dstva src r = .ok ((p, 0), { r with byte := byte' }) ∧
      mappedMem pt byte' = (mappedMem pt r.byte).store dstva src := by
  induction hlen : src.length using Nat.strong_induction_on generalizing dstva src r with
  | _ len ih =>
    subst hlen
    rw [copyoutIn]
    by_cases h0 : src.length = 0
    · rw [dif_pos h0, List.length_eq_zero_iff.1 h0, UserMem.store_nil]
      exact ⟨r.byte, rfl, rfl⟩
    · rw [dif_neg h0]
      have hpos := chunk_pos dstva h0
      have hle := chunk_le dstva src.length
      have hdown := pgrounddown_le dstva
      have hw : Writes pt (PGROUNDDOWN dstva) :=
        (hok 0 (by omega)).congr (pgrounddown_div dstva).symm hdown
      have hpa := (h.page _ hw.1 hw.2.1).1
      have hresolve : resolveIn p pt (PGROUNDDOWN dstva) r =
          .ok ((p, (pteAt pt (PGROUNDDOWN dstva)).pa), r) := by
        have haddr := walkaddr_eq pt (PGROUNDDOWN dstva) r.mem
        rw [if_pos ⟨hw.1, hw.2.1, hw.2.2.1⟩] at haddr
        unfold resolveIn
        rw [bind_of_ok (onMem_ok haddr), if_neg hpa]
        rfl
      rw [if_neg (by have := hw.1; omega), bind_of_ok hresolve, if_neg hpa,
        bind_of_ok (onMem_ok (walk_eq hw.1 pt r.mem))]
      cases hslot : slot pt (PGROUNDDOWN dstva) with
      | none =>
        have hv := hw.2.1
        rw [pteAt, hslot] at hv
        cases hv
      | some pte =>
        have hpte : pteAt pt (PGROUNDDOWN dstva) = pte := by rw [pteAt, hslot, Option.getD_some]
        simp only
        rw [if_neg (by rw [← hpte, hw.2.2.2]; decide)]
        let n := chunk dstva src.length
        let dst := (pteAt pt (PGROUNDDOWN dstva)).pa + (dstva - PGROUNDDOWN dstva)
        let r₁ : Ram := { r with byte := fun a =>
          if dst ≤ a then (src.take n).getD (a - dst) (r.byte a) else r.byte a }
        have hmove : memmove dst (src.take n) r = .ok (⟨⟩, r₁) := rfl
        have htake : (src.take n).length = n := by
          rw [List.length_take]
          exact Nat.min_eq_left hle
        have hstore : mappedMem pt r₁.byte = (mappedMem pt r.byte).store dstva (src.take n) :=
          mappedMem_memmove h hw.1 hw.2.1 (le_of_eq htake) r.byte
        rw [bind_of_ok hmove]
        by_cases hend : n < src.length
        · have hnext : (PGROUNDDOWN dstva + PGSIZE) % 2 ^ 64 = dstva + n := chunk_next hw.1 hend
          rw [hnext]
          obtain ⟨byte', hrun, hmem⟩ := ih (src.drop n).length
            (by rw [List.length_drop]; omega) (dstva + n) (src.drop n)
            (fun k hk => by
              rw [List.length_drop] at hk
              rw [Nat.add_assoc]
              exact hok (n + k) (by omega)) r₁ rfl
          refine ⟨byte', hrun, ?_⟩
          have happend : ((mappedMem pt r.byte).store dstva (src.take n)).store
              (dstva + (src.take n).length) (src.drop n) = _ := UserMem.store_append
          rw [htake, List.take_append_drop] at happend
          rw [hmem, hstore, happend]
        · have hnil : src.drop n = [] := List.drop_of_length_le (by omega)
          have hall : src.take n = src := List.take_of_length_le (by omega)
          rw [hall] at hstore
          refine ⟨r₁.byte, ?_, hstore⟩
          show copyoutIn p pt _ (src.drop n) r₁ = _
          rw [hnil, copyoutIn, dif_pos List.length_nil]
          rfl

/-! ## The layout -/

/-- A size rounded up to 16 bytes. -/
def up16 (n : Nat) : Nat := (n + 15) / 16 * 16

/-- What the strings take. -/
def need (argv : List (List Byte)) : Nat := (argv.map fun s => up16 (s.length + 1)).sum

theorem need_append (argv : List (List Byte)) (s : List Byte) :
    need (argv ++ [s]) = need argv + up16 (s.length + 1) := by
  simp [need]

theorem need_le_append (argv argv' : List (List Byte)) : need argv ≤ need (argv ++ argv') := by
  simp [need]

/-- A new image: `sz` ends a stack whose pages the program may write, with a page below it. -/
structure Image (pt : PageTable) (sz : Nat) : Prop where
  pages : Pages pt
  aligned : sz % PGSIZE = 0
  guard : (USERSTACK + 1) * PGSIZE ≤ sz
  size : sz ≤ TRAPFRAME
  stack : ∀ va, sz - USERSTACK * PGSIZE ≤ va → va < sz → Writes pt va

/-- The strings `placed` lie from `sp` up to `sz`, in memory `u`, which has changed only there. -/
structure Placed (u₀ : UserMem) (sz sp : Nat) (placed : List (Nat × List Byte)) (u : UserMem) : Prop
    where
  string : ∀ q ∈ placed, u.read q.1 (q.2.length + 1) = q.2 ++ [0]
  low : ∀ q ∈ placed, sp ≤ q.1
  high : ∀ q ∈ placed, q.1 + (q.2.length + 1) ≤ sz
  apart : placed.Pairwise fun p q => q.1 + (q.2.length + 1) ≤ p.1
  outside : ∀ x, x < sp ∨ sz ≤ x → u x = u₀ x

variable {u u₀ : UserMem} {sz sp sp' : Nat} {placed : List (Nat × List Byte)}

/-- One more string below the others. -/
theorem Placed.store (h : Placed u₀ sz sp placed u) (hsp : sp ≤ sz) {s : List Byte}
    (hs : sp' + (s.length + 1) ≤ sp)
    (hread : ∀ x, sp' ≤ x → x < sp → ∃ b, u.readable x = some b) :
    Placed u₀ sz sp' (placed ++ [(sp', s)]) (u.store sp' (s ++ [0])) := by
  have hlen : (s ++ [0]).length = s.length + 1 := List.length_append
  have hkeep : ∀ x, sp ≤ x → u.store sp' (s ++ [0]) x = u x := fun x hx =>
    UserMem.store_of_not_mem (by omega)
  refine ⟨?_, ?_, ?_, ?_, fun x hx => ?_⟩
  · rw [List.forall_mem_append, List.forall_mem_singleton]
    refine ⟨fun q hq => ?_, ?_⟩
    · rw [← h.string q hq]
      exact UserMem.read_congr fun k _ => hkeep _ (by have := h.low q hq; omega)
    · refine UserMem.read_store hlen.symm fun k hk => hread _ (Nat.le_add_right ..) ?_
      omega
  · rw [List.forall_mem_append, List.forall_mem_singleton]
    exact ⟨fun q hq => by have := h.low q hq; omega, le_rfl⟩
  · rw [List.forall_mem_append, List.forall_mem_singleton]
    exact ⟨h.high, by simp only; omega⟩
  · refine List.pairwise_append.2 ⟨h.apart, List.pairwise_singleton _ _, fun q hq q' hq' => ?_⟩
    rw [List.mem_singleton.1 hq']
    exact hs.trans (h.low q hq)
  · rw [UserMem.store_of_not_mem (by omega)]
    exact h.outside x (by omega)

/-! ## The subtractions -/

/-- No subtraction from `sp` has gone below zero. -/
def ArgState.Exact (st : ArgState) : Prop := ∀ q ∈ st.subs, q.2 ≤ q.1

variable {st : ArgState} {n : Nat}

theorem ArgState.sub_sp (hn : n ≤ st.sp) (hsp : st.sp < 2 ^ 64) : (st.sub n).sp = st.sp - n := by
  unfold sub
  simp only
  omega

theorem ArgState.push_sp (hn : n ≤ st.sp) (hsp : st.sp < 2 ^ 64) (halign : st.sp % 16 = 0) :
    (st.push n).sp + up16 n = st.sp ∧ (st.push n).sp % 16 = 0 := by
  have hsub := sub_sp hn hsp
  have hmod : (st.sub n).sp % 16 ≤ (st.sub n).sp := Nat.mod_le ..
  have hpush : (st.push n).sp = (st.sub n).sp - (st.sub n).sp % 16 := sub_sp hmod (by omega)
  rw [hpush, hsub]
  unfold up16
  omega

theorem ArgState.sub_subs : (st.sub n).subs = (st.sp, n) :: st.subs := by
  unfold sub
  rfl

theorem ArgState.sub_ustack : (st.sub n).ustack = st.ustack := by
  unfold sub
  rfl

theorem ArgState.Exact.sub (h : st.Exact) (hn : n ≤ st.sp) : (st.sub n).Exact := by
  unfold Exact at *
  rw [sub_subs, List.forall_mem_cons]
  exact ⟨hn, h⟩

theorem ArgState.Exact.push (h : st.Exact) (hn : n ≤ st.sp) : (st.push n).Exact :=
  (h.sub hn).sub (Nat.mod_le ..)

theorem ArgState.push_ustack : (st.push n).ustack = st.ustack := by
  unfold push
  rw [sub_ustack, sub_ustack]

/-! ## The loop over the strings -/

theorem Image.readable {pt : PageTable} (h : Image pt sz) (byte : Nat → Byte) {x : Nat}
    (hlo : sz - USERSTACK * PGSIZE ≤ x) (hhi : x < sz) :
    ∃ b, (mappedMem pt byte).readable x = some b := by
  have hw := h.stack x hlo hhi
  rw [mapped_readable, if_pos ⟨hw.1, hw.2.1, hw.2.2.1⟩]
  exact ⟨_, rfl⟩

/-- The state of the loop once the strings `args` have been pushed. -/
structure Pushed (u₀ : UserMem) (sz : Nat) (args : List (List Byte)) (st : ArgState)
    (placed : List (Nat × List Byte)) (u : UserMem) : Prop extends Placed u₀ sz st.sp placed u where
  ustack : placed.map Prod.fst = st.ustack
  pushed : placed.map Prod.snd = args
  aligned : st.sp % 16 = 0
  used : st.sp + need args = sz
  above : sz - USERSTACK * PGSIZE ≤ st.sp
  exact : st.Exact

theorem pushStrings_spec {pt : PageTable} (himage : Image pt sz) (p : Proc) (argv : List (List Byte))
    {args : List (List Byte)} {st : ArgState} {placed : List (Nat × List Byte)} {r : Ram}
    (h : Pushed u₀ sz args st placed (mappedMem pt r.byte)) (hmax : args.length + argv.length < MAXARG)
    (hlen : ∀ s ∈ argv, s.length ≤ PGSIZE - 1) :
    ∃ st' ok byte', pushStrings p pt (sz - USERSTACK * PGSIZE) argv st r =
        .ok ((p, st', ok), { r with byte := byte' }) ∧
      (ok = true → ∃ placed', Pushed u₀ sz (args ++ argv) st' placed' (mappedMem pt byte')) ∧
      (ok = false → USERSTACK * PGSIZE < need (args ++ argv)) ∧ st'.Exact ∧
      ∀ x, x < sz - USERSTACK * PGSIZE ∨ sz ≤ x → mappedMem pt byte' x = u₀ x := by
  have hguard := himage.guard
  have hsize := himage.size
  have htop : TRAPFRAME < 2 ^ 64 := by decide
  induction argv generalizing args st placed r with
  | nil =>
    rw [List.append_nil]
    have habove := h.above
    exact ⟨st, true, r.byte, rfl, fun _ => ⟨placed, h⟩, fun hcon => absurd hcon (by decide), h.exact,
      fun x hx => h.outside x (by omega)⟩
  | cons s argv ih =>
    rw [List.length_cons] at hmax
    have hs := hlen s (List.mem_cons_self ..)
    have hused := h.used
    have habove := h.above
    have hcount : st.ustack.length = args.length := by
      rw [← h.ustack, ← h.pushed, List.length_map, List.length_map]
    have hn : s.length + 1 ≤ st.sp := by
      unfold USERSTACK PGSIZE at *
      omega
    obtain ⟨hsp, halign⟩ := ArgState.push_sp hn (by omega) h.aligned
    have hexact := h.exact.push hn
    have happend : args ++ s :: argv = args ++ [s] ++ argv := by
      rw [List.append_assoc, List.singleton_append]
    unfold pushStrings
    rw [if_neg (by omega)]
    by_cases hlow : (st.push (s.length + 1)).sp < sz - USERSTACK * PGSIZE
    · simp only [if_pos hlow]
      refine ⟨_, false, r.byte, rfl, fun hcon => absurd hcon (by decide), fun _ => ?_, hexact,
        fun x hx => h.outside x (by omega)⟩
      -- the guard page is reached: this string and the ones to come need more than the stack
      have hneed := need_le_append (args ++ [s]) argv
      rw [need_append] at hneed
      rw [happend]
      omega
    · simp only [if_neg hlow]
      have hup : s.length + 1 ≤ up16 (s.length + 1) := by
        unfold up16
        omega
      obtain ⟨byte', hrun, hmem⟩ := copyoutIn_mapped himage.pages p (st.push (s.length + 1)).sp
        (s ++ [0]) (fun k hk => by
          rw [List.length_append, List.length_singleton] at hk
          exact himage.stack _ (by omega) (by omega)) r
      rw [bind_of_ok hrun]
      simp only [show ¬ (0 : Int) < 0 by decide, if_false]
      -- the string ends below the ones pushed before it
      have hroom : (st.push (s.length + 1)).sp + (s.length + 1) ≤ st.sp := by omega
      have hplaced := h.toPlaced.store (by omega) hroom fun x hlo hhi => himage.readable r.byte (by omega) (by omega)
      rw [← hmem] at hplaced
      have hnext : Pushed u₀ sz (args ++ [s])
          { st.push (s.length + 1) with
            ustack := (st.push (s.length + 1)).ustack ++ [(st.push (s.length + 1)).sp] }
          (placed ++ [((st.push (s.length + 1)).sp, s)])
          (mappedMem pt { r with byte := byte' }.byte) := by
        refine ⟨hplaced, ?_, ?_, halign, ?_, by simp only; omega, hexact⟩
        · rw [List.map_append, h.ustack, ArgState.push_ustack]
          rfl
        · rw [List.map_append, h.pushed]
          rfl
        · rw [need_append]
          simp only
          omega
      have hmax' : (args ++ [s]).length + argv.length < MAXARG := by
        rw [List.length_append, List.length_singleton]
        omega
      obtain ⟨st', ok, byte'', hrun', hok, hbad, hexact', hout⟩ := ih hnext hmax'
        (fun s' hs' => hlen s' (List.mem_cons_of_mem _ hs'))
      rw [happend]
      exact ⟨st', ok, byte'', hrun', hok, hbad, hexact', hout⟩

/-! ## The array of pointers -/

theorem UserMem.readable_store {u : UserMem} {va x : Nat} {bs : List Byte}
    (h : ∃ b, u.readable x = some b) : ∃ b, (u.store va bs).readable x = some b := by
  obtain ⟨b, hb⟩ := h
  unfold readable store at *
  by_cases hx : va ≤ x ∧ x < va + bs.length
  · rw [if_pos hx]
    cases hu : u x with
    | none => simp [hu] at hb
    | some e =>
      rw [hu] at hb
      cases hU : e.1.U with
      | false => simp [hU] at hb
      | true => exact ⟨bs.getD (x - va) e.2, by simp [hU]⟩
  · rw [if_neg hx]
    exact ⟨b, hb⟩

/-- A part of what has been stored is read. -/
theorem UserMem.read_store_part (u : UserMem) (va : Nat) {n : Nat} (as bs cs : List Byte) (hn : n = bs.length)
    (h : ∀ k, k < (as ++ (bs ++ cs)).length → ∃ b, u.readable (va + k) = some b) :
    (u.store va (as ++ (bs ++ cs))).read (va + as.length) n = bs := by
  simp only [List.length_append] at h
  have hread : ((u.store va as).store (va + as.length) bs).read (va + as.length) n = bs :=
    read_store hn fun k hk => readable_store (by rw [Nat.add_assoc]; exact h _ (by omega))
  rw [← store_append, ← store_append, read_congr fun k hk => store_of_not_mem (by omega), hread]

theorem length_flatMap_le64 (l : List Nat) : (l.flatMap le64).length = 8 * l.length := by
  induction l with
  | nil => rfl
  | cons a l ih =>
    rw [List.flatMap_cons, List.length_append, ih, List.length_cons]
    have hlen : (le64 a).length = 8 := rfl
    omega

theorem length_le64 (a : Nat) : (le64 a).length = 8 := rfl

/-- A pointer of the array is read. -/
theorem read_le64 {u : UserMem} {va i a : Nat} {l : List Nat} (hi : l[i]? = some a)
    (h : ∀ k, k < 8 * l.length → ∃ b, u.readable (va + k) = some b) :
    (u.store va (l.flatMap le64)).read (va + 8 * i) 8 = le64 a := by
  obtain ⟨hlt, rfl⟩ := List.getElem?_eq_some_iff.1 hi
  have hsplit : l.flatMap le64 =
      (l.take i).flatMap le64 ++ (le64 l[i] ++ (l.drop (i + 1)).flatMap le64) := by
    rw [← List.flatMap_cons, ← List.flatMap_append, List.getElem_cons_drop, List.take_append_drop]
  have hlen : ((l.take i).flatMap le64).length = 8 * i := by
    rw [length_flatMap_le64, List.length_take_of_le (by omega)]
  have hpart := UserMem.read_store_part u va ((l.take i).flatMap le64) (le64 l[i])
    ((l.drop (i + 1)).flatMap le64) (length_le64 _).symm
    (by rw [← hsplit, length_flatMap_le64]; exact h)
  rwa [← hsplit, hlen] at hpart

/-- What the new program finds in memory `u` when it starts with the arguments `argv`: the array of
pointers at `sp`, and above it the strings, at the places in `placed`. -/
structure Layout (u₀ : UserMem) (sz : Nat) (argv : List (List Byte)) (argc sp : Nat)
    (placed : List (Nat × List Byte)) (u : UserMem) : Prop where
  count : argc = argv.length
  args : placed.map Prod.snd = argv
  aligned : sp % 16 = 0
  above : sz - USERSTACK * PGSIZE ≤ sp
  array : sp + 8 * (argc + 1) ≤ sz
  pointer : ∀ i q, placed[i]? = some q → u.read (sp + 8 * i) 8 = le64 q.1
  null : u.read (sp + 8 * argc) 8 = le64 0
  string : ∀ q ∈ placed, u.read q.1 (q.2.length + 1) = q.2 ++ [0]
  low : ∀ q ∈ placed, sp + 8 * (argc + 1) ≤ q.1
  high : ∀ q ∈ placed, q.1 + (q.2.length + 1) ≤ sz
  apart : placed.Pairwise fun p q => q.1 + (q.2.length + 1) ≤ p.1
  outside : ∀ x, x < sz - USERSTACK * PGSIZE ∨ sz ≤ x → u x = u₀ x

/-- The array is pushed below the strings. -/
theorem Pushed.layout {args : List (List Byte)} (h : Pushed u₀ sz args st placed u) {sp' : Nat}
    (halign : sp' % 16 = 0) (habove : sz - USERSTACK * PGSIZE ≤ sp')
    (hroom : sp' + (st.ustack.length + 1) * 8 ≤ st.sp)
    (hread : ∀ x, sp' ≤ x → x < st.sp → ∃ b, u.readable x = some b) :
    Layout u₀ sz args st.ustack.length sp' placed
      (u.store sp' ((st.ustack ++ [0]).flatMap le64)) := by
  have hlen : ((st.ustack ++ [0]).flatMap le64).length = 8 * (st.ustack.length + 1) := by
    rw [length_flatMap_le64, List.length_append, List.length_singleton]
  have hused := h.used
  have hkeep : ∀ x, st.sp ≤ x → u.store sp' ((st.ustack ++ [0]).flatMap le64) x = u x := fun x hx =>
    UserMem.store_of_not_mem (by omega)
  have hword : ∀ i a, (st.ustack ++ [0])[i]? = some a →
      (u.store sp' ((st.ustack ++ [0]).flatMap le64)).read (sp' + 8 * i) 8 = le64 a := by
    intro i a hi
    refine read_le64 hi fun k hk => hread _ (Nat.le_add_right ..) ?_
    rw [List.length_append, List.length_singleton] at hk
    omega
  refine ⟨?_, h.pushed, halign, habove, by omega, fun i q hq => ?_, ?_, fun q hq => ?_, fun q hq => ?_, h.high,
    h.apart, fun x hx => ?_⟩
  · rw [← h.ustack, ← h.pushed, List.length_map, List.length_map]
  · refine hword i q.1 ?_
    have hi : st.ustack[i]? = some q.1 := by rw [← h.ustack, List.getElem?_map, hq]; rfl
    rwa [List.getElem?_append_left (List.getElem?_eq_some_iff.1 hi).1]
  · refine hword _ 0 ?_
    rw [List.getElem?_append_right le_rfl, Nat.sub_self]
    rfl
  · rw [← h.string q hq]
    exact UserMem.read_congr fun k _ => hkeep _ (by have := h.low q hq; omega)
  · have := h.low q hq
    omega
  · have habove' := h.above
    rw [UserMem.store_of_not_mem (by omega)]
    exact h.outside x (by omega)

/-- The argument phase of `kexec`. It fails exactly if the strings and the array, each rounded up to
16 bytes, take more than the stack; otherwise the new program finds its arguments. No subtraction
from `sp` goes below zero. -/
theorem pushArgs_layout {pt : PageTable} (himage : Image pt sz) (p : Proc) {argv : List (List Byte)}
    (hmax : argv.length ≤ MAXARG - 1) (hlen : ∀ s ∈ argv, s.length ≤ PGSIZE - 1) (r : Ram) :
    ∃ st result byte', pushArgs p pt sz argv r = .ok ((p, st, result), { r with byte := byte' }) ∧
      st.Exact ∧
      (result = none ↔ USERSTACK * PGSIZE < need argv + up16 ((argv.length + 1) * 8)) ∧
      (∀ argc sp, result = some (argc, sp) →
        ∃ placed, Layout (mappedMem pt r.byte) sz argv argc sp placed (mappedMem pt byte')) ∧
      ∀ x, x < sz - USERSTACK * PGSIZE ∨ sz ≤ x → mappedMem pt byte' x = mappedMem pt r.byte x := by
  have hguard := himage.guard
  have hsize := himage.size
  have htop : TRAPFRAME < 2 ^ 64 := by decide
  have hM : MAXARG = 32 := rfl
  have hbase : (sz + 2 ^ 64 - USERSTACK * PGSIZE) % 2 ^ 64 = sz - USERSTACK * PGSIZE := by
    unfold USERSTACK PGSIZE at *
    omega
  have hstart : Pushed (mappedMem pt r.byte) sz [] ⟨sz, [], []⟩ [] (mappedMem pt r.byte) :=
    ⟨⟨by simp, by simp, by simp, List.Pairwise.nil, fun _ _ => rfl⟩, rfl, rfl,
      by have := himage.aligned; unfold PGSIZE at this; simp only; omega, rfl, by simp only; omega,
      by intro q hq; exact absurd hq List.not_mem_nil⟩
  obtain ⟨st, ok, byte', hrun, hok, hbad, hexact, hout⟩ :=
    pushStrings_spec himage p argv hstart (by rw [List.length_nil]; omega) hlen
  rw [List.nil_append] at hok hbad
  unfold pushArgs
  rw [hbase, bind_of_ok hrun]
  cases ok with
  | false =>
    have hneed := hbad rfl
    refine ⟨st, none, byte', rfl, hexact, ⟨fun _ => by omega, fun _ => rfl⟩, fun argc sp h => ?_, hout⟩
    cases h
  | true =>
    obtain ⟨placed, hpushed⟩ := hok rfl
    have hcount : st.ustack.length = argv.length := by
      rw [← hpushed.ustack, ← hpushed.pushed, List.length_map, List.length_map]
    have hused := hpushed.used
    have habove := hpushed.above
    have hn : (st.ustack.length + 1) * 8 ≤ st.sp := by
      unfold USERSTACK PGSIZE at *
      omega
    obtain ⟨hsp, halign⟩ := ArgState.push_sp hn (by omega) hpushed.aligned
    have hexact' := hexact.push hn
    rw [hcount] at hn hsp halign hexact'
    simp only [Bool.true_eq_false, if_false, hcount]
    by_cases hlow : (st.push ((argv.length + 1) * 8)).sp < sz - USERSTACK * PGSIZE
    · rw [if_pos hlow]
      refine ⟨_, none, byte', rfl, hexact', ⟨fun _ => by omega, fun _ => rfl⟩, fun argc sp h => ?_,
        hout⟩
      cases h
    · rw [if_neg hlow]
      have hup : (argv.length + 1) * 8 ≤ up16 ((argv.length + 1) * 8) := by
        unfold up16
        omega
      have hbytes : ((st.ustack ++ [0]).flatMap le64).length = 8 * (argv.length + 1) := by
        rw [length_flatMap_le64, List.length_append, List.length_singleton, hcount]
      obtain ⟨byte'', hcopy, hmem⟩ := copyoutIn_mapped himage.pages p
        (st.push ((argv.length + 1) * 8)).sp ((st.ustack ++ [0]).flatMap le64)
        (fun k hk => himage.stack _ (by omega) (by omega)) { r with byte := byte' }
      rw [ArgState.push_ustack, bind_of_ok hcopy]
      simp only [show ¬ (0 : Int) < 0 by decide, if_false]
      have hlayout := hpushed.layout halign (by omega) (by omega)
        fun x hlo hhi => himage.readable byte' (by omega) (by omega)
      rw [← hmem, hcount] at hlayout
      refine ⟨_, some _, byte'', rfl, hexact', ⟨fun h => absurd h (Option.some_ne_none _), fun h => by omega⟩, ?_,
        hlayout.outside⟩
      rintro argc sp h
      cases h
      exact ⟨placed, hlayout⟩

/-- A table with a stack page alone, at `PGSIZE`. -/
def stackPage : PageTable :=
  Function.update (fun _ => none) (PX 2 PGSIZE) (some (PGSIZE,
    Function.update (fun _ => none) (PX 1 PGSIZE) (some (2 * PGSIZE,
      Function.update (fun _ => Pte.zero) (PX 0 PGSIZE) ⟨true, userRW, 3 * PGSIZE⟩))))

theorem valid_stackPage {va : Nat} (hva : va < MAXVA) (hv : (pteAt stackPage va).V = true) :
    va / PGSIZE = PGSIZE / PGSIZE ∧ (pteAt stackPage va).pa = 3 * PGSIZE := by
  have hpx : PX 2 va = PX 2 PGSIZE ∧ PX 1 va = PX 1 PGSIZE ∧ PX 0 va = PX 0 PGSIZE := by
    revert hv
    unfold pteAt slot stackPage
    by_cases h2 : PX 2 va = PX 2 PGSIZE
    · by_cases h1 : PX 1 va = PX 1 PGSIZE
      · by_cases h0 : PX 0 va = PX 0 PGSIZE
        · exact fun _ => ⟨h2, h1, h0⟩
        · simp [h2, h1, Function.update_of_ne h0, Pte.zero]
      · simp [h2, Function.update_of_ne h1, Pte.zero]
    · simp [Function.update_of_ne h2, Pte.zero]
  have hpage := PX_inj (maxva_lt hva) (by decide) hpx.1 hpx.2.1 hpx.2.2
  refine ⟨hpage, ?_⟩
  rw [pteAt_congr hpage]
  rfl

theorem image_stackPage : Image stackPage (2 * PGSIZE) where
  pages :=
    { page := fun va hva hv => by rw [(valid_stackPage hva hv).2]; decide
      distinct := fun va va' hva hva' hv hv' _ =>
        (valid_stackPage hva hv).1.trans (valid_stackPage hva' hv').1.symm }
  aligned := by decide
  guard := by decide
  size := by decide
  stack := fun va hlo hhi => by
    have hpage : va / PGSIZE = PGSIZE / PGSIZE := by
      unfold USERSTACK PGSIZE at *
      omega
    unfold Writes
    rw [pteAt_congr hpage]
    exact ⟨hhi.trans (by decide), rfl, rfl, rfl⟩

/-- `echo hi` -/
def echoHi : List (List Byte) := [[0x65, 0x63, 0x68, 0x6f], [0x68, 0x69]]

/-- On a stack of one page. -/
theorem pushArgs_layout_echo : ∃ st sp byte' placed,
    pushArgs ⟨0, stackPage, 0, 0⟩ stackPage (2 * PGSIZE) echoHi ⟨⟨[], []⟩, fun _ => 0, false⟩ =
      .ok ((⟨0, stackPage, 0, 0⟩, st, some (2, sp)), ⟨⟨[], []⟩, byte', false⟩) ∧
    Layout (mappedMem stackPage fun _ => 0) (2 * PGSIZE) echoHi 2 sp placed (mappedMem stackPage byte') := by
  have hmax : echoHi.length ≤ MAXARG - 1 := by decide
  have hlen : ∀ s ∈ echoHi, s.length ≤ PGSIZE - 1 := by decide
  obtain ⟨st, result, byte', hrun, -, hiff, hlayout, -⟩ := pushArgs_layout image_stackPage
    ⟨0, stackPage, 0, 0⟩ hmax hlen ⟨⟨[], []⟩, fun _ => 0, false⟩
  cases result with
  | none => exact absurd (hiff.1 rfl) (by decide)
  | some res =>
    obtain ⟨placed, hplaced⟩ := hlayout res.1 res.2 rfl
    have hcount : res = (2, res.2) := Prod.ext hplaced.count rfl
    rw [hcount] at hrun hplaced
    exact ⟨st, res.2, byte', placed, hrun, hplaced⟩

end Xv6.Vm.Copy
