import Xv6.Sv39.Copy

set_option autoImplicit false

/-! # What the copies move

Each of the three loops goes through the pages of the range. What it has moved is the part of the range
in front of the first byte that the process may not use. -/

namespace Xv6.Sv39

open Xv6.Lib Xv6.Lib.Radix

variable {r r' r'' : Ram} {m : Mem} {root : Pagetable} {va a : Uint64} {w : Bool} {e : Pte} {len k n j : Nat}

/-! ## User addresses -/

/-- The entry of a page that user code may read, or write. -/
def userEntry (w : Bool) (m : Mem) (root page : Pagetable) : Option Pte :=
  (tableMap m root page).filter fun e => e &&& PTE_U ≠ 0 ∧ (w = true → e &&& PTE_W ≠ 0)

/-- The physical address of a byte that user code may read, or write. -/
def userAddr (w : Bool) (m : Mem) (root : Pagetable) (va : Uint64) : Option Uint64 :=
  (userEntry w m root (PGROUNDDOWN va)).map fun e => PTE2PA e + (va - PGROUNDDOWN va)

/-- Byte `k` of the range from `va` on. -/
def nth (va : Uint64) (k : Nat) : Uint64 := va + BitVec.ofNat 64 k

theorem nth_zero : nth va 0 = va := BitVec.add_zero va

theorem nth_add : nth (nth va j) k = nth va (j + k) := by
  rw [nth, nth, nth, BitVec.add_assoc, BitVec.ofNat_add]

theorem chunk_le (va : Uint64) (len : Nat) : chunk va len ≤ len := Nat.min_le_right _ _

theorem chunk_le_page (va : Uint64) (len : Nat) : va.toNat % 2 ^ 12 + chunk va len ≤ 2 ^ 12 := by
  have hoff := toNat_offset va
  have hsize := toNat_PGSIZE
  rw [chunk]
  omega

theorem toNat_nth (hk : va.toNat % 2 ^ 12 + k < 2 ^ 12) : (nth va k).toNat = va.toNat + k := by
  have := va.isLt
  rw [nth, BitVec.toNat_add, BitVec.toNat_ofNat]
  omega

theorem PGROUNDDOWN_nth (hk : va.toNat % 2 ^ 12 + k < 2 ^ 12) :
    PGROUNDDOWN (nth va k) = PGROUNDDOWN va := by
  have h := toNat_PGROUNDDOWN va
  have h' := toNat_PGROUNDDOWN (nth va k)
  have hal := (aligned_iff _).1 (aligned_PGROUNDDOWN va)
  have hal' := (aligned_iff _).1 (aligned_PGROUNDDOWN (nth va k))
  have hat := toNat_nth hk
  apply BitVec.eq_of_toNat_eq
  omega

theorem nth_sub (k : Nat) (b : Uint64) : nth va k - b = nth (va - b) k := by
  rw [nth, nth]
  bv_omega

/-- The bytes of a page are where its entry says. -/
theorem userAddr_nth (w : Bool) (m : Mem) (root : Pagetable) (hk : va.toNat % 2 ^ 12 + k < 2 ^ 12) :
    userAddr w m root (nth va k) =
      (userEntry w m root (PGROUNDDOWN va)).map fun e => nth (PTE2PA e + (va - PGROUNDDOWN va)) k := by
  rw [userAddr, PGROUNDDOWN_nth hk, nth_sub]
  congr 1
  funext e
  rw [nth, nth, BitVec.add_assoc]

/-- A page is left behind, or the range ends in it. -/
theorem next_page (h : chunk va len < len) : PGROUNDDOWN va + PGSIZE = nth va (chunk va len) := by
  have hdown := toNat_PGROUNDDOWN va
  have hoff := toNat_offset va
  have hsize := toNat_PGSIZE
  have hchunk : chunk va len = 2 ^ 12 - va.toNat % 2 ^ 12 := by
    rw [chunk] at h ⊢
    omega
  apply BitVec.eq_of_toNat_eq
  rw [hchunk, nth, BitVec.toNat_add, BitVec.toNat_add, BitVec.toNat_ofNat, hsize]
  omega

theorem aligned_next (va : Uint64) : (PGROUNDDOWN va + PGSIZE) % PGSIZE = 0 := by
  have hal := (aligned_iff _).1 (aligned_PGROUNDDOWN va)
  have hsize := toNat_PGSIZE
  rw [aligned_iff, BitVec.toNat_add]
  omega

theorem PGROUNDDOWN_idem (va : Uint64) : PGROUNDDOWN (PGROUNDDOWN va) = PGROUNDDOWN va := by
  have h := toNat_PGROUNDDOWN (PGROUNDDOWN va)
  have hal := (aligned_iff _).1 (aligned_PGROUNDDOWN va)
  apply BitVec.eq_of_toNat_eq
  omega

/-- No page of the process is at 0, which is what `walkaddr` returns if there is none. -/
def OffZero (m : Mem) (root : Pagetable) : Prop :=
  ∀ page e, userEntry false m root page = some e → PTE2PA e ≠ 0

/-- No byte that the process may write is at two of its addresses. -/
def Apart (m : Mem) (root : Pagetable) : Prop :=
  ∀ va va' a, userAddr true m root va = some a → userAddr true m root va' = some a → va = va'

/-- No byte that the process may write is one of its page table. -/
def TablesApart (m : Mem) (root : Pagetable) : Prop :=
  ∀ va a, userAddr true m root va = some a → ∀ is p, is.length < 3 → follow child m.page root is = some p →
    ∀ i : Fin 512, ∀ k < 8, a ≠ p + BitVec.ofNat 64 (8 * i) + BitVec.ofNat 64 k

theorem onMem_ok {α : Type} {x : K α} {b : α} (h : x r.mem = .ok (b, m)) : onMem x r = .ok (b, r) := by
  rw [onMem, h]

theorem walkaddr_page (hz : OffZero r.mem root) (va : Uint64) :
    ∃ pa, onMem (walkaddr root (PGROUNDDOWN va)) r = .ok (pa, r) ∧
      (pa = 0 ∧ userEntry false r.mem root (PGROUNDDOWN va) = none ∨
        ∃ e, pa = PTE2PA e ∧ pa ≠ 0 ∧ userEntry false r.mem root (PGROUNDDOWN va) = some e) := by
  refine ⟨_, onMem_ok (walkaddr_spec r.mem root (PGROUNDDOWN va)), ?_⟩
  have hentry : userEntry false r.mem root (PGROUNDDOWN va) =
      (tableMap r.mem root (PGROUNDDOWN va)).filter fun e => e &&& PTE_U ≠ 0 := by
    rw [userEntry]
    congr 1
    funext e
    simp
  rw [userPage, PGROUNDDOWN_idem, ← hentry]
  cases he : userEntry false r.mem root (PGROUNDDOWN va) with
  | none => exact .inl ⟨rfl, rfl⟩
  | some e => exact .inr ⟨e, rfl, hz _ e he, rfl⟩

/-! ## Reading -/

/-- The bytes are those of the process from `va` on. -/
def Reads (r : Ram) (root : Pagetable) (va : Uint64) (out : List Byte) : Prop :=
  ∀ k b, out[k]? = some b → ∃ a, userAddr false r.mem root (nth va k) = some a ∧ b = r.byte a

theorem reads_nil : Reads r root va [] := by
  intro k b h
  simp at h

theorem Reads.append {out out' : List Byte} (h : Reads r root va out)
    (h' : Reads r root (nth va out.length) out') : Reads r root va (out ++ out') := by
  intro k b hb
  rcases Nat.lt_or_ge k out.length with hlt | hge
  · rw [List.getElem?_append_left hlt] at hb
    exact h k b hb
  · rw [List.getElem?_append_right hge] at hb
    obtain ⟨a, ha, hbyte⟩ := h' _ b hb
    rw [nth_add, Nat.add_sub_cancel' hge] at ha
    exact ⟨a, ha, hbyte⟩

/-- What one round reads of a page that is mapped. -/
theorem reads_chunk (he : userEntry false r.mem root (PGROUNDDOWN va) = some e) {out : List Byte}
    (hlen : out.length ≤ chunk va len)
    (hout : ∀ k, k < out.length →
      out[k]? = some (r.byte (nth (PTE2PA e + (va - PGROUNDDOWN va)) k))) : Reads r root va out := by
  intro k b hb
  have hk : k < out.length := (List.getElem?_eq_some_iff.1 hb).1
  have hpage := chunk_le_page va len
  have hin : va.toNat % 2 ^ 12 + k < 2 ^ 12 := by omega
  have haddr := userAddr_nth false r.mem root hin
  rw [he, Option.map_some] at haddr
  rw [hout k hk] at hb
  exact ⟨_, haddr, (Option.some.inj hb).symm⟩

/-- The bytes that a round loads. -/
def loaded (r : Ram) (src : Uint64) (n : Nat) : List Byte := (List.range n).map fun k => r.byte (nth src k)

theorem length_loaded (src : Uint64) (n : Nat) : (loaded r src n).length = n := by
  rw [loaded, List.length_map, List.length_range]

theorem reads_loaded (len : Nat) (he : userEntry false r.mem root (PGROUNDDOWN va) = some e) :
    Reads r root va (loaded r (PTE2PA e + (va - PGROUNDDOWN va)) (chunk va len)) := by
  refine reads_chunk he (Nat.le_of_eq (length_loaded ..)) fun k hk => ?_
  rw [length_loaded] at hk
  rw [loaded, List.getElem?_map, List.getElem?_range hk]
  rfl

theorem copyin_zero (va : Uint64) : copyin root va 0 r = .ok ((0, []), r) := by
  rw [copyin]
  rfl

theorem copyin_stop {pa : Uint64} (h0 : len ≠ 0)
    (hwalk : onMem (walkaddr root (PGROUNDDOWN va)) r = .ok (pa, r)) (hpa : pa = 0) :
    copyin root va len r = .ok ((-1, []), r) := by
  rw [copyin, dif_neg h0]
  refine (bind_of_ok hwalk).trans ?_
  rw [if_pos hpa]
  rfl

theorem copyin_round {pa : Uint64} (h0 : len ≠ 0)
    (hwalk : onMem (walkaddr root (PGROUNDDOWN va)) r = .ok (pa, r)) (hpa : pa ≠ 0) {ret : Int}
    {out : List Byte}
    (hrest : copyin root (PGROUNDDOWN va + PGSIZE) (len - chunk va len) r = .ok ((ret, out), r)) :
    copyin root va len r =
      .ok ((ret, loaded r (pa + (va - PGROUNDDOWN va)) (chunk va len) ++ out), r) := by
  rw [copyin, dif_neg h0]
  refine (bind_of_ok hwalk).trans ?_
  rw [if_neg hpa]
  exact bind_of_ok (a := loaded r (pa + (va - PGROUNDDOWN va)) (chunk va len)) rfl |>.trans (bind_of_ok hrest)

/-- By induction on the length: a round reads what is in one page, and the next one begins where it
    has stopped. -/
theorem copyin_spec (hz : OffZero r.mem root) (va : Uint64) (len : Nat) :
    ∃ ret out, copyin root va len r = .ok ((ret, out), r) ∧ Reads r root va out ∧
      (ret = 0 ∧ out.length = len ∨
        ret = -1 ∧ out.length < len ∧ userAddr false r.mem root (nth va out.length) = none) := by
  induction len using Nat.strong_induction_on generalizing va with
  | _ len ih =>
    by_cases h0 : len = 0
    · subst h0
      exact ⟨0, [], copyin_zero va, reads_nil, .inl ⟨rfl, rfl⟩⟩
    · obtain ⟨pa, hwalk, ⟨hpa, hnone⟩ | ⟨e, rfl, hpa, he⟩⟩ := walkaddr_page hz va
      · refine ⟨-1, [], copyin_stop h0 hwalk hpa, reads_nil, .inr ⟨rfl, Nat.pos_of_ne_zero h0, ?_⟩⟩
        rw [List.length_nil, nth_zero, userAddr, hnone]
        rfl
      · have hpos := chunk_pos va h0
        have hle := chunk_le va len
        have hreads := reads_loaded len he
        rcases Nat.lt_or_eq_of_le hle with hlt | hend
        · obtain ⟨ret, out, hrest, hout, hret⟩ := ih (len - chunk va len) (by omega) (nth va (chunk va len))
          rw [← next_page hlt] at hrest
          refine ⟨ret, _, copyin_round h0 hwalk hpa hrest, hreads.append ?_, ?_⟩
          · rwa [length_loaded]
          · rw [List.length_append, length_loaded]
            rcases hret with ⟨hret, hlen⟩ | ⟨hret, hlen, hnone⟩
            · exact .inl ⟨hret, by omega⟩
            · rw [nth_add] at hnone
              exact .inr ⟨hret, by omega, hnone⟩
        · have hrest : copyin root (PGROUNDDOWN va + PGSIZE) (len - chunk va len) r = .ok ((0, []), r) := by
            rw [hend, Nat.sub_self]
            exact copyin_zero _
          refine ⟨0, _, copyin_round h0 hwalk hpa hrest, hreads.append reads_nil, .inl ⟨rfl, ?_⟩⟩
          rw [List.append_nil, length_loaded, hend]

/-! ## Strings -/

theorem nth_succ (p : Uint64) (k : Nat) : nth (p + 1) k = nth p (k + 1) := by
  rw [nth, nth, Nat.add_comm k 1, BitVec.ofNat_add, ← BitVec.add_assoc]
  rfl

/-- The inner loop stops behind the first NUL, or at the end. -/
theorem copyUntilNull_spec (byte : Uint64 → Byte) (n : Nat) (p : Uint64) :
    (∀ k, k < (copyUntilNull byte p n).1.length →
      (copyUntilNull byte p n).1[k]? = some (byte (nth p k))) ∧
    ((copyUntilNull byte p n).2 = true ∧ (copyUntilNull byte p n).1.length ≤ n ∧
        (∃ s, (copyUntilNull byte p n).1 = s ++ [0] ∧ 0 ∉ s) ∨
      (copyUntilNull byte p n).2 = false ∧ (copyUntilNull byte p n).1.length = n ∧
        0 ∉ (copyUntilNull byte p n).1) := by
  induction n generalizing p with
  | zero => exact ⟨fun k hk => absurd hk (Nat.not_lt_zero k), .inr ⟨rfl, rfl, List.not_mem_nil⟩⟩
  | succ n ih =>
      rw [copyUntilNull]
      by_cases hp : byte p = 0
      · rw [if_pos hp]
        refine ⟨fun k hk => ?_, .inl ⟨rfl, Nat.succ_le_succ (Nat.zero_le n), [], rfl, List.not_mem_nil⟩⟩
        obtain rfl : k = 0 := Nat.lt_one_iff.1 hk
        rw [nth_zero, hp]
        rfl
      · rw [if_neg hp]
        obtain ⟨hbytes, hend⟩ := ih (p + 1)
        refine ⟨fun k hk => ?_, ?_⟩
        · cases k with
          | zero => rw [nth_zero]; rfl
          | succ k =>
              rw [← nth_succ]
              exact hbytes k (Nat.lt_of_succ_lt_succ hk)
        · rcases hend with ⟨hgot, hlen, s, hs, h0⟩ | ⟨hgot, hlen, h0⟩
          · refine .inl ⟨hgot, Nat.succ_le_succ hlen, byte p :: s, ?_, ?_⟩
            · rw [List.cons_append, ← hs]
            · exact fun hmem => (List.mem_cons.1 hmem).elim (fun heq => hp heq.symm) h0
          · refine .inr ⟨hgot, congrArg Nat.succ hlen, ?_⟩
            exact fun hmem => (List.mem_cons.1 hmem).elim (fun heq => hp heq.symm) h0

theorem copyinstr_zero (va : Uint64) : copyinstr root va 0 r = .ok ((-1, []), r) := by
  rw [copyinstr]
  rfl

theorem copyinstr_stop {pa : Uint64} (h0 : len ≠ 0)
    (hwalk : onMem (walkaddr root (PGROUNDDOWN va)) r = .ok (pa, r)) (hpa : pa = 0) :
    copyinstr root va len r = .ok ((-1, []), r) := by
  rw [copyinstr, dif_neg h0]
  refine (bind_of_ok hwalk).trans ?_
  rw [if_pos hpa]
  rfl

section Round

variable {pa : Uint64} {bs : List Byte}

theorem copyinstr_found (h0 : len ≠ 0)
    (hwalk : onMem (walkaddr root (PGROUNDDOWN va)) r = .ok (pa, r)) (hpa : pa ≠ 0)
    (hbs : copyUntilNull r.byte (pa + (va - PGROUNDDOWN va)) (chunk va len) = (bs, true)) :
    copyinstr root va len r = .ok ((0, bs), r) := by
  rw [copyinstr, dif_neg h0]
  refine (bind_of_ok hwalk).trans ?_
  rw [if_neg hpa]
  refine (bind_of_ok (a := r) (t := r) rfl).trans ?_
  rw [hbs]
  rfl

theorem copyinstr_round (h0 : len ≠ 0)
    (hwalk : onMem (walkaddr root (PGROUNDDOWN va)) r = .ok (pa, r)) (hpa : pa ≠ 0)
    (hbs : copyUntilNull r.byte (pa + (va - PGROUNDDOWN va)) (chunk va len) = (bs, false)) {ret : Int}
    {out : List Byte}
    (hrest : copyinstr root (PGROUNDDOWN va + PGSIZE) (len - chunk va len) r = .ok ((ret, out), r)) :
    copyinstr root va len r = .ok ((ret, bs ++ out), r) := by
  rw [copyinstr, dif_neg h0]
  refine (bind_of_ok hwalk).trans ?_
  rw [if_neg hpa]
  refine (bind_of_ok (a := r) (t := r) rfl).trans ?_
  rw [hbs]
  exact bind_of_ok hrest

end Round

/-- By induction on `max`, as for `copyin`; a round that finds a NUL is the last one. -/
theorem copyinstr_spec (hz : OffZero r.mem root) (va : Uint64) (len : Nat) :
    ∃ ret out, copyinstr root va len r = .ok ((ret, out), r) ∧ Reads r root va out ∧ out.length ≤ len ∧
      (ret = 0 ∧ (∃ s, out = s ++ [0] ∧ 0 ∉ s) ∨
        ret = -1 ∧ 0 ∉ out ∧
          (out.length < len → userAddr false r.mem root (nth va out.length) = none)) := by
  induction len using Nat.strong_induction_on generalizing va with
  | _ len ih =>
    by_cases h0 : len = 0
    · subst h0
      refine ⟨-1, [], copyinstr_zero va, reads_nil, Nat.le_refl _, .inr ⟨rfl, List.not_mem_nil, ?_⟩⟩
      exact fun h => absurd h (Nat.not_lt_zero _)
    · obtain ⟨pa, hwalk, ⟨hpa, hnone⟩ | ⟨e, rfl, hpa, he⟩⟩ := walkaddr_page hz va
      · refine ⟨-1, [], copyinstr_stop h0 hwalk hpa, reads_nil, Nat.zero_le _,
          .inr ⟨rfl, List.not_mem_nil, fun _ => ?_⟩⟩
        rw [List.length_nil, nth_zero, userAddr, hnone]
        rfl
      · have hpos := chunk_pos va h0
        have hle := chunk_le va len
        obtain ⟨hbytes, hend⟩ := copyUntilNull_spec r.byte (chunk va len) (PTE2PA e + (va - PGROUNDDOWN va))
        obtain ⟨⟨bs, got⟩, hbs⟩ :
            ∃ c, copyUntilNull r.byte (PTE2PA e + (va - PGROUNDDOWN va)) (chunk va len) = c := ⟨_, rfl⟩
        rw [hbs] at hbytes hend
        rcases hend with ⟨rfl, hlen, hnul⟩ | ⟨rfl, hlen, hnul⟩
        · exact ⟨0, bs, copyinstr_found h0 hwalk hpa hbs, reads_chunk he hlen hbytes,
            Nat.le_trans hlen hle, .inl ⟨rfl, hnul⟩⟩
        · have hreads : Reads r root va bs := reads_chunk he (Nat.le_of_eq hlen) hbytes
          have hlen : bs.length = chunk va len := hlen
          rcases Nat.lt_or_eq_of_le hle with hlt | hlast
          · obtain ⟨ret, out, hrest, hout, hmax, hret⟩ :=
              ih (len - chunk va len) (by omega) (nth va (chunk va len))
            rw [← next_page hlt] at hrest
            rw [← hlen] at hout
            refine ⟨ret, _, copyinstr_round h0 hwalk hpa hbs hrest, hreads.append hout, ?_, ?_⟩
            · rw [List.length_append, hlen]
              omega
            · rcases hret with ⟨hret, s, rfl, hs⟩ | ⟨hret, hs, hnone⟩
              · refine .inl ⟨hret, bs ++ s, (List.append_assoc ..).symm, ?_⟩
                exact fun hmem => (List.mem_append.1 hmem).elim hnul hs
              · refine .inr ⟨hret, fun hmem => (List.mem_append.1 hmem).elim hnul hs, fun hshort => ?_⟩
                rw [List.length_append, hlen] at hshort ⊢
                rw [← nth_add]
                exact hnone (by omega)
          · have hrest : copyinstr root (PGROUNDDOWN va + PGSIZE) (len - chunk va len) r =
                .ok ((-1, []), r) := by
              rw [hlast, Nat.sub_self]
              exact copyinstr_zero _
            refine ⟨-1, _, copyinstr_round h0 hwalk hpa hbs hrest, hreads.append reads_nil, ?_,
              .inr ⟨rfl, ?_, fun hshort => ?_⟩⟩
            · rw [List.append_nil, hlen]
              exact hle
            · rw [List.append_nil]
              exact hnul
            · rw [List.append_nil, hlen, hlast] at hshort
              exact absurd hshort (Nat.lt_irrefl _)

/-! ## Writing -/

section Write

variable {src : List Byte} {dst : Uint64} {bs : List Byte}

theorem nth_injective {i : Nat} (hi : i < 2 ^ 64) (hk : k < 2 ^ 64) (h : nth va i = nth va k) : i = k := by
  have heq := congrArg BitVec.toNat h
  have := va.isLt
  rw [nth, nth, BitVec.toNat_add, BitVec.toNat_add, BitVec.toNat_ofNat, BitVec.toNat_ofNat] at heq
  omega

/-- Memory after `memmove`. -/
def Ram.put (r : Ram) (dst : Uint64) (bs : List Byte) : Ram :=
  { r with byte := fun a => bs.getD (a - dst).toNat (r.byte a) }

theorem put_nth (hk : k < bs.length) (hlen : bs.length ≤ 2 ^ 64) :
    bs[k]? = some ((r.put dst bs).byte (nth dst k)) := by
  have hsub : (nth dst k - dst).toNat = k := by
    rw [nth, BitVec.toNat_sub, BitVec.toNat_add, BitVec.toNat_ofNat]
    have := dst.isLt
    omega
  show bs[k]? = some (bs.getD (nth dst k - dst).toNat (r.byte (nth dst k)))
  rw [hsub, List.getD_eq_getElem?_getD, List.getElem?_eq_getElem hk]
  rfl

theorem put_of_ne (h : ∀ k < bs.length, nth dst k ≠ a) : (r.put dst bs).byte a = r.byte a := by
  have hout : bs.length ≤ (a - dst).toNat := by
    by_contra hlt
    refine h (a - dst).toNat (Nat.lt_of_not_le hlt) ?_
    rw [nth, BitVec.ofNat_toNat, BitVec.setWidth_eq]
    bv_omega
  show bs.getD (a - dst).toNat (r.byte a) = r.byte a
  rw [List.getD_eq_getElem?_getD, List.getElem?_eq_none hout]
  rfl

/-! A page table that keeps its pages keeps its map. -/

/-- The pages of the page table are the same. -/
def SameTables (root : Pagetable) (m m' : Mem) : Prop :=
  ∀ is p, is.length < 3 → follow child m.page root is = some p → m'.page p = m.page p

theorem SameTables.refl : SameTables root m m := fun _ _ _ _ => rfl

section SameTables

variable {m' m'' : Mem}

/-- By induction on the path, from its end: the entry that leads on is in a page that is the same. -/
theorem SameTables.follow (h : SameTables root m m') (is : List (Fin 512)) (hlen : is.length < 3) :
    follow child m'.page root is = follow child m.page root is := by
  induction is using List.reverseRecOn with
  | nil => rfl
  | append_singleton is i ih =>
      rw [List.length_append, List.length_singleton] at hlen
      rw [follow_snoc, follow_snoc, ih (by omega)]
      cases hp : Radix.follow child m.page root is with
      | none => rfl
      | some p => rw [Option.bind_some, Option.bind_some, h is p (by omega) hp]

theorem SameTables.trans (h : SameTables root m m') (h' : SameTables root m' m'') :
    SameTables root m m'' := fun is p hlen hp =>
  (h' is p hlen ((h.follow is hlen).trans hp)).trans (h is p hlen hp)

theorem SameTables.tableMap (h : SameTables root m m') (b : Uint64) :
    tableMap m' root b = tableMap m root b := by
  have hlen : (path b 2).length < 3 := by
    rw [length_path]
    exact Nat.lt_succ_self 2
  rw [Sv39.tableMap, Sv39.tableMap, entryAt, entryAt, h.follow _ hlen]
  cases hp : Radix.follow child m.page root (path b 2) with
  | none => rfl
  | some p => rw [Option.map_some, Option.map_some, h _ p hlen hp]

theorem SameTables.userAddr (h : SameTables root m m') (w : Bool) (b : Uint64) :
    userAddr w m' root b = userAddr w m root b := by
  rw [Sv39.userAddr, Sv39.userAddr, userEntry, userEntry, h.tableMap]

theorem SameTables.tablesApart (h : SameTables root m m') (ht : TablesApart m root) :
    TablesApart m' root := by
  intro b a ha is p hlen hp
  rw [h.userAddr] at ha
  rw [h.follow is hlen] at hp
  exact ht b a ha is p hlen hp

/-- What is not written to is the same, so a page table is that no byte of the process is in. -/
theorem sameTables_of_bytes (ht : TablesApart r.mem root)
    (hkeep : ∀ a, (∀ b, userAddr true r.mem root b ≠ some a) → r'.byte a = r.byte a) :
    SameTables root r.mem r'.mem := by
  intro is p hlen hp
  funext i
  have hbyte : ∀ x : Uint64, x.toNat < 8 → r'.byte (p + BitVec.ofNat 64 (8 * i) + x) =
      r.byte (p + BitVec.ofNat 64 (8 * i) + x) := by
    refine fun x hx => hkeep _ fun b hb => ht b _ hb is p hlen hp i x.toNat hx ?_
    rw [BitVec.ofNat_toNat, BitVec.setWidth_eq]
  have h0 := hbyte 0 (by decide)
  simp only [BitVec.ofNat_eq_ofNat, BitVec.add_zero] at h0
  show r'.word _ = r.word _
  rw [Ram.word, Ram.word, h0, hbyte 1 (by decide), hbyte 2 (by decide), hbyte 3 (by decide),
    hbyte 4 (by decide), hbyte 5 (by decide), hbyte 6 (by decide), hbyte 7 (by decide)]

end SameTables

/-- The first `j` bytes of `src` are written from `va` on, and nothing else. Where two addresses are of
    one byte, it is one of the two that stays. -/
structure Writes (r r' : Ram) (root : Pagetable) (va : Uint64) (src : List Byte) (j : Nat) : Prop where
  freelist : r'.freelist = r.freelist
  tables : SameTables root r.mem r'.mem
  mapped : ∀ k < j, ∃ a, userAddr true r.mem root (nth va k) = some a
  written : Apart r.mem root →
    ∀ k < j, ∃ a, userAddr true r.mem root (nth va k) = some a ∧ src[k]? = some (r'.byte a)
  keeps : ∀ a, (∀ k < j, userAddr true r.mem root (nth va k) ≠ some a) → r'.byte a = r.byte a

theorem writes_zero : Writes r r root va src 0 :=
  ⟨rfl, .refl, fun k hk => absurd hk (Nat.not_lt_zero k), fun _ k hk => absurd hk (Nat.not_lt_zero k),
    fun _ _ => rfl⟩

/-- What one round writes to a page that is mapped. -/
theorem writes_chunk (ht : TablesApart r.mem root) (src : List Byte)
    (he : userEntry true r.mem root (PGROUNDDOWN va) = some e) :
    Writes r (r.put (PTE2PA e + (va - PGROUNDDOWN va)) (src.take (chunk va src.length))) root va src
      (chunk va src.length) := by
  have hpage := chunk_le_page va src.length
  have hlen : (src.take (chunk va src.length)).length = chunk va src.length :=
    List.length_take_of_le (chunk_le _ _)
  have haddr : ∀ k < chunk va src.length, userAddr true r.mem root (nth va k) =
      some (nth (PTE2PA e + (va - PGROUNDDOWN va)) k) := by
    intro k hk
    rw [userAddr_nth _ _ _ (by omega), he]
    rfl
  have hkeeps : ∀ a, (∀ k < chunk va src.length, userAddr true r.mem root (nth va k) ≠ some a) →
      (r.put (PTE2PA e + (va - PGROUNDDOWN va)) (src.take (chunk va src.length))).byte a = r.byte a := by
    refine fun a ha => put_of_ne fun k hk heq => ?_
    rw [hlen] at hk
    exact ha k hk (heq ▸ haddr k hk)
  refine ⟨rfl, sameTables_of_bytes ht fun a ha => hkeeps a fun k _ => ha _,
    fun k hk => ⟨_, haddr k hk⟩, fun _ k hk => ⟨_, haddr k hk, ?_⟩, hkeeps⟩
  rw [← put_nth (by rwa [hlen]) (by omega), List.getElem?_take_of_lt hk]

theorem Writes.append {r₁ : Ram} (h : Writes r r₁ root va src n)
    (h' : Writes r₁ r' root (nth va n) (src.drop n) j) (hlen : n + j ≤ 2 ^ 64) :
    Writes r r' root va src (n + j) := by
  have hsame : ∀ b, userAddr true r₁.mem root b = userAddr true r.mem root b := h.tables.userAddr true
  refine ⟨h'.freelist.trans h.freelist, h.tables.trans h'.tables, fun k hk => ?_, fun hap k hk => ?_,
    fun a ha => ?_⟩
  · rcases Nat.lt_or_ge k n with hlt | hge
    · exact h.mapped k hlt
    · obtain ⟨a, haddr⟩ := h'.mapped (k - n) (by omega)
      rw [hsame, nth_add, Nat.add_sub_cancel' hge] at haddr
      exact ⟨a, haddr⟩
  · rcases Nat.lt_or_ge k n with hlt | hge
    · obtain ⟨a, haddr, hbyte⟩ := h.written hap k hlt
      refine ⟨a, haddr, ?_⟩
      rw [h'.keeps a fun k' hk' haddr' => ?_, hbyte]
      -- a byte of the process is at one address only
      rw [hsame, nth_add] at haddr'
      have heq := hap _ _ a haddr' haddr
      have := nth_injective (by omega) (by omega) heq
      omega
    · have hap' : Apart r₁.mem root := fun b b' a hb hb' =>
        hap b b' a ((hsame b).symm.trans hb) ((hsame b').symm.trans hb')
      obtain ⟨a, haddr, hbyte⟩ := h'.written hap' (k - n) (by omega)
      rw [hsame, nth_add, Nat.add_sub_cancel' hge] at haddr
      rw [List.getElem?_drop, Nat.add_sub_cancel' hge] at hbyte
      exact ⟨a, haddr, hbyte⟩
  · rw [h'.keeps a fun k hk => ?_, h.keeps a fun k hk => ha k (by omega)]
    rw [hsame, nth_add]
    exact ha (n + k) (by omega)

theorem filter_writable (e : Pte) :
    (((some e).filter fun e => e &&& PTE_V ≠ 0).filter
        fun e => e &&& PTE_U ≠ 0 ∧ (true = true → e &&& PTE_W ≠ 0)) =
      if e &&& PTE_V = 0 ∨ e &&& PTE_U = 0 ∨ e &&& PTE_W = 0 then none else some e := by
  rw [filter_flag]
  by_cases hv : e &&& PTE_V = 0
  · rw [if_pos hv, if_pos (.inl hv)]
    rfl
  · rw [if_neg hv]
    by_cases hbad : e &&& PTE_U = 0 ∨ e &&& PTE_W = 0
    · rw [if_pos (.inr hbad)]
      refine Option.filter_some_neg (decide_eq_false fun h => ?_)
      exact hbad.elim h.1 (h.2 rfl)
    · obtain ⟨hu, hw⟩ := not_or.1 hbad
      rw [if_neg (not_or.2 ⟨hv, hbad⟩)]
      exact Option.filter_some_pos (decide_eq_true ⟨hu, fun _ => hw⟩)

/-- What `copyout` finds for a page. -/
theorem walk_page (r : Ram) (root : Pagetable) (hva : PGROUNDDOWN va < MAXVA) :
    ∃ o, onMem (walk root (PGROUNDDOWN va) false) r = .ok (o, r) ∧
      (o = none ∧ userEntry true r.mem root (PGROUNDDOWN va) = none ∨
        ∃ pte, o = some pte ∧ userEntry true r.mem root (PGROUNDDOWN va) =
          if r.mem.page pte.1 pte.2 &&& PTE_V = 0 ∨ r.mem.page pte.1 pte.2 &&& PTE_U = 0 ∨
            r.mem.page pte.1 pte.2 &&& PTE_W = 0 then none else some (r.mem.page pte.1 pte.2)) := by
  have hw : walk root (PGROUNDDOWN va) false r.mem =
      .ok ((follow child r.mem.page root (path (PGROUNDDOWN va) 2)).map
        fun q => (q, PX 0 (PGROUNDDOWN va)), r.mem) := by
    rw [walk_below hva, walkLoop_read]
  refine ⟨_, onMem_ok hw, ?_⟩
  rw [userEntry, tableMap, if_pos ⟨aligned_PGROUNDDOWN va, hva⟩, entryAt]
  cases hq : follow child r.mem.page root (path (PGROUNDDOWN va) 2) with
  | none => exact .inl ⟨rfl, rfl⟩
  | some q =>
      exact .inr ⟨(q, PX 0 (PGROUNDDOWN va)), rfl, filter_writable _⟩

theorem copyout_nil (va : Uint64) : copyout root va [] r = .ok (0, r) := by
  rw [copyout]
  rfl

theorem copyout_stop (h0 : src.length ≠ 0) (hnone : userEntry true r.mem root (PGROUNDDOWN va) = none) :
    copyout root va src r = .ok (-1, r) := by
  rw [copyout, dif_neg h0]
  by_cases hva : MAXVA ≤ PGROUNDDOWN va
  · exact congrFun (if_pos hva) r
  · refine (congrFun (if_neg hva) r).trans ?_
    obtain ⟨o, hwalk, ⟨rfl, -⟩ | ⟨pte, rfl, hentry⟩⟩ := walk_page r root (BitVec.not_le.1 hva)
    · exact bind_of_ok hwalk
    · refine (bind_of_ok hwalk).trans ((bind_of_ok (a := r) (t := r) rfl).trans ?_)
      rw [hnone] at hentry
      split at hentry
      case isTrue hbad => exact congrFun (if_pos hbad) r
      case isFalse => cases hentry

theorem copyout_round (ret : Int) (r' : Ram) (h0 : src.length ≠ 0)
    (he : userEntry true r.mem root (PGROUNDDOWN va) = some e)
    (hrest : copyout root (PGROUNDDOWN va + PGSIZE) (src.drop (chunk va src.length))
      (r.put (PTE2PA e + (va - PGROUNDDOWN va)) (src.take (chunk va src.length))) = .ok (ret, r')) :
    copyout root va src r = .ok (ret, r') := by
  rw [copyout, dif_neg h0]
  have hva : PGROUNDDOWN va < MAXVA := by
    by_contra hge
    rw [userEntry, tableMap, if_neg fun h => hge h.2] at he
    cases he
  refine (congrFun (if_neg (BitVec.not_le.2 hva)) r).trans ?_
  obtain ⟨o, hwalk, ⟨rfl, hnone⟩ | ⟨pte, rfl, hentry⟩⟩ := walk_page r root hva
  · rw [hnone] at he
    cases he
  · refine (bind_of_ok hwalk).trans ((bind_of_ok (a := r) (t := r) rfl).trans ?_)
    rw [he] at hentry
    split at hentry
    case isTrue => cases hentry
    case isFalse hgood =>
      obtain rfl := Option.some.inj hentry
      exact (congrFun (if_neg hgood) r).trans ((bind_of_ok (a := ⟨⟩) rfl).trans hrest)

/-- By induction on the bytes that are left to be written. -/
theorem copyout_spec (ht : TablesApart r.mem root) (va : Uint64) (src : List Byte) (hsrc : src.length < 2 ^ 64) :
    ∃ ret r' j, copyout root va src r = .ok (ret, r') ∧ Writes r r' root va src j ∧
      (ret = 0 ∧ j = src.length ∨
        ret = -1 ∧ j < src.length ∧ userAddr true r.mem root (nth va j) = none ∧
          (j = 0 ∨ nth va j % PGSIZE = 0)) := by
  induction hlen : src.length using Nat.strong_induction_on generalizing va src r with
  | _ len ih =>
    subst hlen
    by_cases h0 : src.length = 0
    · rw [List.length_eq_zero_iff.1 h0]
      exact ⟨0, r, 0, copyout_nil va, writes_zero, .inl ⟨rfl, rfl⟩⟩
    · cases he : userEntry true r.mem root (PGROUNDDOWN va) with
      | none =>
          refine ⟨-1, r, 0, copyout_stop h0 he, writes_zero, .inr ⟨rfl, Nat.pos_of_ne_zero h0, ?_, .inl rfl⟩⟩
          rw [nth_zero, userAddr, he]
          rfl
      | some e =>
          have hpos := chunk_pos va h0
          have hle := chunk_le va src.length
          have hwrites := writes_chunk ht src he
          obtain ⟨r₁, hr₁⟩ : ∃ r₁, r.put (PTE2PA e + (va - PGROUNDDOWN va))
              (src.take (chunk va src.length)) = r₁ := ⟨_, rfl⟩
          have hround := fun ret r' => copyout_round ret r' h0 he
          rw [hr₁] at hwrites hround
          rcases Nat.lt_or_eq_of_le hle with hlt | hlast
          · obtain ⟨ret, r', j, hrest, hw, hret⟩ := ih (src.drop (chunk va src.length)).length
              (by rw [List.length_drop]; omega) (hwrites.tables.tablesApart ht) (nth va (chunk va src.length))
              (src.drop (chunk va src.length)) (by rw [List.length_drop]; omega) rfl
            have hdrop : (src.drop (chunk va src.length)).length = src.length - chunk va src.length :=
              List.length_drop
            rw [← next_page hlt] at hrest
            refine ⟨ret, r', chunk va src.length + j, hround ret r' hrest,
              hwrites.append hw ?_, ?_⟩
            · omega
            · rcases hret with ⟨hret, hj⟩ | ⟨hret, hj, hnone, hpage⟩
              · exact .inl ⟨hret, by omega⟩
              · rw [hwrites.tables.userAddr, nth_add] at hnone
                refine .inr ⟨hret, by omega, hnone, .inr ?_⟩
                rcases hpage with rfl | hpage
                · rw [Nat.add_zero, ← next_page hlt]
                  exact aligned_next va
                · rwa [nth_add] at hpage
          · refine ⟨0, r₁, chunk va src.length, hround 0 r₁ ?_, hwrites, .inl ⟨rfl, hlast⟩⟩
            rw [hlast, List.drop_length]
            exact copyout_nil _

end Write

/-! ## The ranges that a process may use -/

/-- The byte at `va` lies in a page below `MAXVA` that is mapped for user code, to read or to write. -/
def User (w : Bool) (m : Mem) (root : Pagetable) (va : Uint64) : Prop :=
  va < MAXVA ∧ ∃ e, tableMap m root (PGROUNDDOWN va) = some e ∧ e &&& PTE_V ≠ 0 ∧ e &&& PTE_U ≠ 0 ∧
    (w = true → e &&& PTE_W ≠ 0)

theorem user_iff : User w m root va ↔ ∃ a, userAddr w m root va = some a := by
  constructor
  · rintro ⟨-, e, he, -, hu, hw⟩
    refine ⟨_, Option.map_eq_some_iff.2 ⟨e, ?_, rfl⟩⟩
    exact Option.filter_eq_some_iff.2 ⟨he, decide_eq_true ⟨hu, hw⟩⟩
  · rintro ⟨a, ha⟩
    obtain ⟨e, he, -⟩ := Option.map_eq_some_iff.1 ha
    obtain ⟨hmap, hflags⟩ := Option.filter_eq_some_iff.1 he
    have hin : PGROUNDDOWN va % PGSIZE = 0 ∧ PGROUNDDOWN va < MAXVA := by
      by_contra hout
      rw [tableMap, if_neg hout] at hmap
      cases hmap
    have hvalid := hmap
    rw [tableMap, if_pos hin] at hvalid
    exact ⟨PGROUNDDOWN_lt_iff.1 hin.2, e, hmap,
      of_decide_eq_true (Option.filter_eq_some_iff.1 hvalid).2, of_decide_eq_true hflags⟩

theorem not_user_of_none (h : userAddr w m root va = none) : ¬ User w m root va := by
  rw [user_iff, h]
  rintro ⟨a, ha⟩
  cases ha

theorem Reads.user {out : List Byte} (h : Reads r root va out) (hk : k < out.length) :
    User false r.mem root (nth va k) := by
  obtain ⟨a, ha, -⟩ := h k _ (List.getElem?_eq_getElem hk)
  exact user_iff.2 ⟨a, ha⟩

/-- `copyin` returns 0 if the process may read the whole range, and has read that much of it. -/
theorem copyin_exact (hz : OffZero r.mem root) (va : Uint64) (len : Nat) :
    ∃ ret out, copyin root va len r = .ok ((ret, out), r) ∧ (ret = 0 ∨ ret = -1) ∧
      (ret = 0 ↔ ∀ k < len, User false r.mem root (nth va k)) ∧ Reads r root va out ∧
      out.length ≤ len ∧ (ret = 0 → out.length = len) := by
  obtain ⟨ret, out, hrun, hreads, ⟨rfl, hlen⟩ | ⟨rfl, hlen, hnone⟩⟩ := copyin_spec hz va len
  · refine ⟨0, out, hrun, .inl rfl, iff_of_true rfl fun k hk => ?_, hreads, Nat.le_of_eq hlen, fun _ => hlen⟩
    exact hreads.user (by rwa [hlen])
  · refine ⟨-1, out, hrun, .inr rfl, iff_of_false (by decide) fun h => ?_, hreads, Nat.le_of_lt hlen, ?_⟩
    · exact not_user_of_none hnone (h _ hlen)
    · exact fun h => absurd h (by decide)

/-- `copyout` returns 0 if the process may write the whole range; what it writes ends at a page. -/
theorem copyout_exact (ht : TablesApart r.mem root) (va : Uint64) (src : List Byte) (hsrc : src.length < 2 ^ 64) :
    ∃ ret r' j, copyout root va src r = .ok (ret, r') ∧ (ret = 0 ∨ ret = -1) ∧
      (ret = 0 ↔ ∀ k < src.length, User true r.mem root (nth va k)) ∧ Writes r r' root va src j ∧
      (ret = 0 → j = src.length) ∧
      (ret = -1 → j < src.length ∧ (j = 0 ∨ nth va j % PGSIZE = 0)) := by
  obtain ⟨ret, r', j, hrun, hw, ⟨rfl, rfl⟩ | ⟨rfl, hj, hnone, hpage⟩⟩ := copyout_spec ht va src hsrc
  · refine ⟨0, r', _, hrun, .inl rfl, iff_of_true rfl fun k hk => ?_, hw, fun _ => rfl, ?_⟩
    · exact user_iff.2 (hw.mapped k hk)
    · exact fun h => absurd h (by decide)
  · refine ⟨-1, r', j, hrun, .inr rfl, iff_of_false (by decide) fun h => ?_, hw, ?_, fun _ => ⟨hj, hpage⟩⟩
    · exact not_user_of_none hnone (h j hj)
    · exact fun h => absurd h (by decide)

/-- `copyinstr` returns 0 if there is a NUL in the range that the process may read up to, and has then
    read up to the first one. -/
theorem copyinstr_exact (hz : OffZero r.mem root) (va : Uint64) (max : Nat) :
    ∃ ret out, copyinstr root va max r = .ok ((ret, out), r) ∧ (ret = 0 ∨ ret = -1) ∧
      (ret = 0 ↔ ∃ i < max, (∀ k ≤ i, User false r.mem root (nth va k)) ∧
        ∃ a, userAddr false r.mem root (nth va i) = some a ∧ r.byte a = 0) ∧
      Reads r root va out ∧ out.length ≤ max ∧ (ret = 0 → ∃ s, out = s ++ [0] ∧ 0 ∉ s) := by
  obtain ⟨ret, out, hrun, hreads, hlen, ⟨rfl, s, rfl, hs⟩ | ⟨rfl, h0, hnone⟩⟩ := copyinstr_spec hz va max
  · have hlast : (s ++ [0]).length = s.length + 1 := List.length_append
    refine ⟨0, _, hrun, .inl rfl, iff_of_true rfl ⟨s.length, by omega, fun k hk => ?_, ?_⟩, hreads, hlen,
      fun _ => ⟨s, rfl, hs⟩⟩
    · exact hreads.user (by omega)
    · obtain ⟨a, ha, hbyte⟩ := hreads s.length 0 List.getElem?_concat_length
      exact ⟨a, ha, hbyte.symm⟩
  · refine ⟨-1, out, hrun, .inr rfl, iff_of_false (by decide) ?_, hreads, hlen, fun h => absurd h (by decide)⟩
    rintro ⟨i, hi, huser, a, ha, hbyte⟩
    rcases Nat.lt_or_ge i out.length with hlt | hge
    · obtain ⟨a', ha', hbyte'⟩ := hreads i _ (List.getElem?_eq_getElem hlt)
      obtain rfl := Option.some.inj (ha.symm.trans ha')
      rw [hbyte] at hbyte'
      exact h0 (hbyte' ▸ List.getElem_mem hlt)
    · exact not_user_of_none (hnone (by omega)) (huser _ hge)

theorem strlen_append {s : List Byte} (hs : 0 ∉ s) : strlen (s ++ [0]) = some s.length := by
  induction s with
  | nil => rfl
  | cons b s ih =>
      obtain ⟨hb, hs'⟩ := not_or.1 (mt List.mem_cons.2 hs)
      rw [List.cons_append, strlen, if_neg (Ne.symm hb), ih hs']
      rfl

/-- A length that `fetchstr` returns is that of a string that it has put into the buffer. -/
theorem fetchstr_exact (hz : OffZero r.mem root) (addr : Uint64) (max : Uint) :
    ∃ ret out, fetchstr root addr max r = .ok ((ret, out), r) ∧
      out.length ≤ (max.signExtend 64).toNat ∧
      (ret = some (-1) ∨ ∃ s, out = s ++ [0] ∧ 0 ∉ s ∧ ret = some (Int.ofNat s.length)) := by
  obtain ⟨ret, out, hrun, -, hlen, ⟨rfl, s, rfl, hs⟩ | ⟨rfl, -⟩⟩ := copyinstr_spec hz addr (max.signExtend 64).toNat
  · refine ⟨some (Int.ofNat s.length), s ++ [0], (bind_of_ok hrun).trans ?_, hlen, .inr ⟨s, rfl, hs, rfl⟩⟩
    have h0 : ¬ (0 : Int) < 0 := by decide
    rw [if_neg h0, strlen_append hs]
    rfl
  · refine ⟨some (-1), out, (bind_of_ok hrun).trans ?_, hlen, .inl rfl⟩
    have h1 : (-1 : Int) < 0 := by decide
    rw [if_pos h1]
    rfl

/-- The copies succeed for the ranges that the process may use, move them and nothing else, and leave a
    prefix of whole pages behind where they fail. -/
theorem copies_exact (r : Ram) (root : Pagetable) :
    (OffZero r.mem root →
      (∀ va len, ∃ ret out, copyin root va len r = .ok ((ret, out), r) ∧ (ret = 0 ∨ ret = -1) ∧
        (ret = 0 ↔ ∀ k < len, User false r.mem root (nth va k)) ∧ Reads r root va out ∧
        out.length ≤ len ∧ (ret = 0 → out.length = len)) ∧
      (∀ va max, ∃ ret out, copyinstr root va max r = .ok ((ret, out), r) ∧ (ret = 0 ∨ ret = -1) ∧
        (ret = 0 ↔ ∃ i < max, (∀ k ≤ i, User false r.mem root (nth va k)) ∧
          ∃ a, userAddr false r.mem root (nth va i) = some a ∧ r.byte a = 0) ∧
        Reads r root va out ∧ out.length ≤ max ∧ (ret = 0 → ∃ s, out = s ++ [0] ∧ 0 ∉ s)) ∧
      (∀ addr (max : Uint), ∃ ret out, fetchstr root addr max r = .ok ((ret, out), r) ∧
        out.length ≤ (max.signExtend 64).toNat ∧
        (ret = some (-1) ∨ ∃ s, out = s ++ [0] ∧ 0 ∉ s ∧ ret = some (Int.ofNat s.length)))) ∧
    (TablesApart r.mem root → ∀ va (src : List Byte), src.length < 2 ^ 64 → ∃ ret r' j,
      copyout root va src r = .ok (ret, r') ∧ (ret = 0 ∨ ret = -1) ∧
      (ret = 0 ↔ ∀ k < src.length, User true r.mem root (nth va k)) ∧ Writes r r' root va src j ∧
      (ret = 0 → j = src.length) ∧
      (ret = -1 → j < src.length ∧ (j = 0 ∨ nth va j % PGSIZE = 0))) :=
  ⟨fun hz => ⟨copyin_exact hz, copyinstr_exact hz, fetchstr_exact hz⟩, copyout_exact⟩

/-! ## Small page tables -/

/-- The entry at an address. -/
def lookup (es : List (Uint64 × Pte)) (a : Uint64) : Pte :=
  es.foldr (fun x e => if a = x.1 then x.2 else e) 0

/-- Memory in which there are these entries, and 0 elsewhere. -/
def ramOf (es : List (Uint64 × Pte)) : Ram where
  byte := fun a => (lookup es (a - a % 8)).extractLsb' (8 * (a % 8).toNat) 8
  freelist := []

theorem byte_ramOf (es : List (Uint64 × Pte)) {x : Uint64} (ha : a.toNat % 8 = 0) (hx : x.toNat < 8) :
    (ramOf es).byte (a + x) = (lookup es a).extractLsb' (8 * x.toNat) 8 := by
  have hlow : (a + x) % 8 = x := by
    apply BitVec.eq_of_toNat_eq
    rw [BitVec.toNat_umod, BitVec.toNat_add]
    change (a.toNat + x.toNat) % 2 ^ 64 % 8 = x.toNat
    omega
  have hbase : a + x - x = a := BitVec.add_sub_cancel a x
  show (lookup es (a + x - (a + x) % 8)).extractLsb' (8 * ((a + x) % 8).toNat) 8 = _
  rw [hlow, hbase]

theorem append_bytes (e : Pte) : (e.extractLsb' 56 8 ++ e.extractLsb' 48 8 ++ e.extractLsb' 40 8 ++
    e.extractLsb' 32 8 ++ e.extractLsb' 24 8 ++ e.extractLsb' 16 8 ++ e.extractLsb' 8 8 ++
    e.extractLsb' 0 8 : Uint64) = e := by
  rw [BitVec.extractLsb'_append_extractLsb'_eq_extractLsb' (by decide),
    BitVec.extractLsb'_append_extractLsb'_eq_extractLsb' (by decide),
    BitVec.extractLsb'_append_extractLsb'_eq_extractLsb' (by decide),
    BitVec.extractLsb'_append_extractLsb'_eq_extractLsb' (by decide),
    BitVec.extractLsb'_append_extractLsb'_eq_extractLsb' (by decide),
    BitVec.extractLsb'_append_extractLsb'_eq_extractLsb' (by decide),
    BitVec.extractLsb'_append_extractLsb'_eq_extractLsb' (by decide)]
  exact BitVec.extractLsb'_eq_self

theorem word_ramOf (es : List (Uint64 × Pte)) (ha : a.toNat % 8 = 0) : (ramOf es).word a = lookup es a := by
  have h0 := byte_ramOf es (x := 0) ha (by decide)
  simp only [BitVec.ofNat_eq_ofNat, BitVec.add_zero] at h0
  rw [Ram.word, h0, byte_ramOf es ha (by decide), byte_ramOf es ha (by decide),
    byte_ramOf es ha (by decide), byte_ramOf es ha (by decide), byte_ramOf es ha (by decide),
    byte_ramOf es ha (by decide), byte_ramOf es ha (by decide)]
  exact append_bytes (lookup es a)

/-- The two upper levels of a page table, and entries of the page at `0x80003000` below them. -/
def chain (es : List (Uint64 × Pte)) : List (Uint64 × Pte) :=
  (blankRoot, PA2PTE 0x80002000 ||| PTE_V) :: (0x80002000, PA2PTE 0x80003000 ||| PTE_V) :: es

theorem page_ramOf (es : List (Uint64 × Pte)) {p : Pagetable} (hp : p.toNat % 8 = 0) (i : Fin 512) :
    (ramOf es).mem.page p i = lookup es (p + BitVec.ofNat 64 (8 * i)) := by
  refine word_ramOf es ?_
  have := i.isLt
  rw [BitVec.toNat_add, BitVec.toNat_ofNat]
  omega

/-- The page table whose lowest level is `f`. -/
structure Chain (r : Ram) (f : Fin 512 → Pte) : Prop where
  root : ∀ i, r.mem.page blankRoot i = if i.val = 0 then PA2PTE 0x80002000 ||| PTE_V else 0
  middle : ∀ i, r.mem.page 0x80002000 i = if i.val = 0 then PA2PTE 0x80003000 ||| PTE_V else 0
  leaf : ∀ i, r.mem.page 0x80003000 i = f i

section Chain

variable {f : Fin 512 → Pte} {i i' : Fin 512}

theorem Chain.child_root (h : Chain r f) :
    child (r.mem.page blankRoot i) = if i.val = 0 then some 0x80002000 else none := by
  rw [h.root]
  split
  · decide
  · exact child_zero

theorem Chain.child_middle (h : Chain r f) :
    child (r.mem.page 0x80002000 i) = if i.val = 0 then some 0x80003000 else none := by
  rw [h.middle]
  split
  · decide
  · exact child_zero

theorem Chain.follow_two (h : Chain r f) : follow child r.mem.page blankRoot [i, i'] =
    if i.val = 0 ∧ i'.val = 0 then some 0x80003000 else none := by
  rw [follow, h.child_root]
  by_cases hi : i.val = 0
  · rw [if_pos hi, Option.bind_some, follow, h.child_middle]
    by_cases hi' : i'.val = 0
    · rw [if_pos hi', if_pos ⟨hi, hi'⟩]
      rfl
    · rw [if_neg hi', if_neg fun hboth => hi' hboth.2]
      rfl
  · rw [if_neg hi, if_neg fun hboth => hi hboth.1]
    rfl

/-- The pages of the table. -/
theorem Chain.pages (h : Chain r f) {is : List (Fin 512)} {p : Pagetable} (hlen : is.length < 3)
    (hp : follow child r.mem.page blankRoot is = some p) :
    p = 0x80001000 ∨ p = 0x80002000 ∨ p = 0x80003000 := by
  cases is with
  | nil => exact .inl (Option.some.inj hp).symm
  | cons i is =>
      cases is with
      | nil =>
          rw [follow, h.child_root] at hp
          split at hp
          · exact .inr (.inl (Option.some.inj hp).symm)
          · cases hp
      | cons i' is =>
          have hnil : is = [] := List.eq_nil_of_length_eq_zero (by
            simp only [List.length_cons] at hlen
            omega)
          rw [hnil, h.follow_two] at hp
          split at hp
          · exact .inr (.inr (Option.some.inj hp).symm)
          · cases hp

theorem Chain.tableMap (h : Chain r f) (b : Uint64) : tableMap r.mem blankRoot b =
    if b % PGSIZE = 0 ∧ b < MAXVA ∧ (PX 2 b).val = 0 ∧ (PX 1 b).val = 0 then
      (some (f (PX 0 b))).filter fun e => e &&& PTE_V ≠ 0
    else none := by
  have hpath : path b 2 = [PX 2 b, PX 1 b] := rfl
  rw [Sv39.tableMap, hpath, entryAt, h.follow_two]
  by_cases hb : b % PGSIZE = 0 ∧ b < MAXVA
  · rw [if_pos hb]
    by_cases hzero : (PX 2 b).val = 0 ∧ (PX 1 b).val = 0
    · rw [if_pos hzero, if_pos ⟨hb.1, hb.2, hzero⟩, Option.map_some, h.leaf]
    · rw [if_neg hzero, if_neg fun hall => hzero hall.2.2]
      rfl
  · rw [if_neg hb, if_neg fun hall => hb ⟨hall.1, hall.2.1⟩]

theorem Chain.entry {w : Bool} {page : Pagetable} (h : Chain r f)
    (he : userEntry w r.mem blankRoot page = some e) :
    page % PGSIZE = 0 ∧ page < MAXVA ∧ (PX 2 page).val = 0 ∧ (PX 1 page).val = 0 ∧ f (PX 0 page) = e ∧
      e &&& PTE_V ≠ 0 := by
  have hmap := (Option.filter_eq_some_iff.1 he).1
  rw [h.tableMap] at hmap
  obtain ⟨⟨hal, hlt, h2, h1⟩, hf⟩ := Option.ite_none_right_eq_some.1 hmap
  obtain ⟨heq, hv⟩ := Option.filter_eq_some_iff.1 hf
  exact ⟨hal, hlt, h2, h1, Option.some.inj heq, of_decide_eq_true hv⟩

end Chain

/-- The entry of a user page at `0x80004000`. -/
def onePage : Pte := 0x20001017

/-- Page 0, and where `both` page 1 as well, is mapped to the page at `0x80004000`. -/
def pageEntries (both : Bool) : List (Uint64 × Pte) :=
  chain ((0x80003000, onePage) :: if both then [(0x80003008, onePage)] else [])

def pageRam (both : Bool) : Ram := ramOf (pageEntries both)

theorem chain_pageRam (both : Bool) :
    Chain (pageRam both) fun i => if i.val = 0 ∨ both = true ∧ i.val = 1 then onePage else 0 := by
  have hroot : ∀ i : Fin 512, lookup (pageEntries both) (blankRoot + BitVec.ofNat 64 (8 * i)) =
      if i.val = 0 then PA2PTE 0x80002000 ||| PTE_V else 0 := by
    cases both <;> decide +kernel
  have hmiddle : ∀ i : Fin 512, lookup (pageEntries both) (0x80002000 + BitVec.ofNat 64 (8 * i)) =
      if i.val = 0 then PA2PTE 0x80003000 ||| PTE_V else 0 := by
    cases both <;> decide +kernel
  have hleaf : ∀ i : Fin 512, lookup (pageEntries both) (0x80003000 + BitVec.ofNat 64 (8 * i)) =
      if i.val = 0 ∨ both = true ∧ i.val = 1 then onePage else 0 := by
    cases both <;> decide +kernel
  exact ⟨fun i => (page_ramOf _ (by decide) i).trans (hroot i),
    fun i => (page_ramOf _ (by decide) i).trans (hmiddle i),
    fun i => (page_ramOf _ (by decide) i).trans (hleaf i)⟩

theorem userEntry_pageRam {both w : Bool} {page : Pagetable}
    (he : userEntry w (pageRam both).mem blankRoot page = some e) :
    e = onePage ∧ (both = false → page = 0) := by
  obtain ⟨hal, hlt, h2, h1, hf, hv⟩ := (chain_pageRam both).entry he
  split at hf
  case isTrue h0 =>
    refine ⟨hf.symm, fun hb => eq_of_path hal (by decide) hlt (by decide) ?_ ?_⟩
    · have e2 : PX 2 page = PX 2 0 := Fin.ext h2
      have e1 : PX 1 page = PX 1 0 := Fin.ext h1
      rw [path, path, path, e2, e1]
      rfl
    · rcases h0 with h0 | ⟨hboth, -⟩
      · exact Fin.ext h0
      · rw [hb] at hboth
        cases hboth
  case isFalse =>
    rw [← hf] at hv
    exact absurd rfl hv

theorem offZero_pageRam (both : Bool) : OffZero (pageRam both).mem blankRoot := by
  intro page e he
  rw [(userEntry_pageRam he).1]
  decide

theorem userAddr_pageRam {both w : Bool} (h : userAddr w (pageRam both).mem blankRoot va = some a) :
    a.toNat = 0x80004000 + va.toNat % 2 ^ 12 ∧ (both = false → va.toNat < 2 ^ 12) := by
  obtain ⟨e, he, rfl⟩ := Option.map_eq_some_iff.1 h
  obtain ⟨rfl, hzero⟩ := userEntry_pageRam he
  have hpa : (PTE2PA onePage).toNat = 0x80004000 := rfl
  have hoff := toNat_offset va
  refine ⟨?_, fun hb => ?_⟩
  · rw [BitVec.toNat_add, hpa, hoff]
    omega
  · have hdown := toNat_PGROUNDDOWN va
    rw [hzero hb] at hdown
    change 0 + va.toNat % 2 ^ 12 = va.toNat at hdown
    omega

theorem apart_pageRam : Apart (pageRam false).mem blankRoot := by
  intro va va' a h h'
  obtain ⟨heq, hlt⟩ := userAddr_pageRam h
  obtain ⟨heq', hlt'⟩ := userAddr_pageRam h'
  have hva := hlt rfl
  have hva' := hlt' rfl
  exact BitVec.eq_of_toNat_eq (by omega)

theorem tablesApart_pageRam (both : Bool) : TablesApart (pageRam both).mem blankRoot := by
  intro va a h is p hlen hp i k hk heq
  obtain ⟨hat, -⟩ := userAddr_pageRam h
  have hi := i.isLt
  have hsum := congrArg BitVec.toNat heq
  rw [BitVec.toNat_add, BitVec.toNat_add, BitVec.toNat_ofNat, BitVec.toNat_ofNat] at hsum
  have hpage : p.toNat = 0x80001000 ∨ p.toNat = 0x80002000 ∨ p.toNat = 0x80003000 := by
    rcases (chain_pageRam both).pages hlen hp with rfl | rfl | rfl
    · exact .inl rfl
    · exact .inr (.inl rfl)
    · exact .inr (.inr rfl)
  omega

theorem user_pageRam {both w : Bool} (hva : va < MAXVA) (h2 : (PX 2 va).val = 0) (h1 : (PX 1 va).val = 0)
    (h0 : (PX 0 va).val = 0 ∨ both = true ∧ (PX 0 va).val = 1) :
    User w (pageRam both).mem blankRoot va := by
  refine ⟨hva, onePage, ?_, by decide, by decide, fun _ => by decide⟩
  have hPX : ∀ level, level < 3 → PX level (PGROUNDDOWN va) = PX level va := fun level hl =>
    PX_PGROUNDDOWN va hl
  rw [(chain_pageRam both).tableMap, hPX 2 (by decide), hPX 1 (by decide), hPX 0 (by decide),
    if_pos ⟨aligned_PGROUNDDOWN va, PGROUNDDOWN_lt_iff.2 hva, h2, h1⟩, if_pos h0]
  exact Option.filter_some_pos (decide_eq_true (by decide))

/-- With one page mapped, the last byte of it can be read and written, the one behind it not, and a
    write arrives. -/
theorem copies_exact_page :
    (∃ out, copyin blankRoot (PGSIZE - 1) 1 (pageRam false) = .ok ((0, out), pageRam false)) ∧
    (∃ out, copyin blankRoot (PGSIZE - 1) 2 (pageRam false) = .ok ((-1, out), pageRam false)) ∧
    ∃ r', copyout blankRoot (PGSIZE - 1) [7] (pageRam false) = .ok (0, r') ∧ r'.byte 0x80004FFF = 7 := by
  obtain ⟨hin, hout⟩ := copies_exact (pageRam false) blankRoot
  obtain ⟨hread, -⟩ := hin (offZero_pageRam false)
  have hfirst : ∀ w k, k < 1 → User w (pageRam false).mem blankRoot (nth (PGSIZE - 1) k) := by
    intro w k hk
    rw [Nat.lt_one_iff.1 hk]
    exact user_pageRam (by decide) (by decide) (by decide) (by decide)
  have hend : ¬ User false (pageRam false).mem blankRoot (nth (PGSIZE - 1) 1) := by
    intro huser
    obtain ⟨a, ha⟩ := user_iff.1 huser
    exact absurd ((userAddr_pageRam ha).2 rfl) (by decide)
  obtain ⟨ret, out, hok, -, hret, -⟩ := hread (PGSIZE - 1) 1
  obtain ⟨ret', out', hfail, hret', hiff, -⟩ := hread (PGSIZE - 1) 2
  obtain ⟨ret'', r', j, hwrite, -, hiff', hwrites, hall, -⟩ :=
    hout (tablesApart_pageRam false) (PGSIZE - 1) [7] (by decide)
  have hzero : ret'' = 0 := hiff'.2 (hfirst true)
  obtain ⟨a, ha, hbyte⟩ := hwrites.written apart_pageRam 0 (by rw [hall hzero]; decide)
  have hat : a = 0x80004FFF := BitVec.eq_of_toNat_eq (userAddr_pageRam ha).1
  refine ⟨⟨out, hret.2 (hfirst false) ▸ hok⟩, ?_, r', hzero ▸ hwrite, ?_⟩
  · rcases hret' with h0 | rfl
    · exact absurd (hiff.1 h0 1 (by decide)) hend
    · exact ⟨out', hfail⟩
  · rw [← hat]
    exact (Option.some.inj hbyte).symm

/-- A page table in which page 0 is mapped to the physical page at 0. -/
def lowRam : Ram := ramOf (chain [(0x80003000, PTE_R ||| PTE_U ||| PTE_V)])

theorem copyin_low : copyin blankRoot 0 1 lowRam = .ok ((-1, []), lowRam) := by
  have hpage : userPage lowRam.mem blankRoot 0 = 0 := by decide +kernel
  have hwalk : onMem (walkaddr blankRoot 0) lowRam = .ok (0, lowRam) :=
    onMem_ok (hpage ▸ walkaddr_spec lowRam.mem blankRoot 0)
  exact copyin_stop (by decide) hwalk rfl

/-- A page table in which page 510 is the page-table page at `0x80003000`, whose last entry is that of
    page 511. -/
def selfRam : Ram :=
  ramOf (chain [(0x80003FF0, PA2PTE 0x80003000 ||| 0x17), (0x80003FF8, onePage)])

/-- The last bytes of page 510. -/
def selfVa : Uint64 := 0x1FEFF8

theorem user_selfRam : ∀ k < 9, User true selfRam.mem blankRoot (nth selfVa k) := by
  intro k hk
  have haddr : ∀ k < 9, (userAddr true selfRam.mem blankRoot (nth selfVa k)).isSome = true := by
    decide +kernel
  exact user_iff.2 (Option.isSome_iff_exists.1 (haddr k hk))

/-- The first eight bytes overwrite the entry that the ninth one needs. -/
theorem copyout_self : ∃ r', copyout blankRoot selfVa (List.replicate 9 0) selfRam = .ok (-1, r') := by
  have he : userEntry true selfRam.mem blankRoot (PGROUNDDOWN selfVa) =
      some (PA2PTE 0x80003000 ||| 0x17) := by
    decide +kernel
  have hstop : userEntry true (selfRam.put (PTE2PA (PA2PTE 0x80003000 ||| 0x17) +
      (selfVa - PGROUNDDOWN selfVa)) (List.replicate 8 0)).mem blankRoot
      (PGROUNDDOWN (PGROUNDDOWN selfVa + PGSIZE)) = none := by
    decide +kernel
  exact ⟨_, copyout_round _ _ (by decide) he (copyout_stop (by decide) hstop)⟩

/-- `copyin` takes the physical address 0 for a failure; a process that can write to its own page table
    makes `copyout` fail; and of two writes to one byte the second one stays. -/
theorem copies_not_exact :
    (¬ ∀ (r : Ram) (root : Pagetable) (va : Uint64) (len : Nat), ∃ ret out,
      copyin root va len r = .ok ((ret, out), r) ∧
        (ret = 0 ↔ ∀ k < len, User false r.mem root (nth va k))) ∧
    (¬ ∀ (r : Ram) (root : Pagetable) (va : Uint64) (src : List Byte), src.length < 2 ^ 64 → ∃ ret r',
      copyout root va src r = .ok (ret, r') ∧
        (ret = 0 ↔ ∀ k < src.length, User true r.mem root (nth va k))) ∧
    ¬ ∀ (r : Ram) (root : Pagetable) (va : Uint64) (src : List Byte), src.length < 2 ^ 64 →
      TablesApart r.mem root → ∃ ret r', copyout root va src r = .ok (ret, r') ∧
        (ret = 0 → ∀ k < src.length, ∃ a, userAddr true r.mem root (nth va k) = some a ∧
          src[k]? = some (r'.byte a)) := by
  refine ⟨fun h => ?_, fun h => ?_, fun h => ?_⟩
  · obtain ⟨ret, out, hrun, hret⟩ := h lowRam blankRoot 0 1
    have huser : ∀ k < 1, User false lowRam.mem blankRoot (nth 0 k) := by
      intro k hk
      rw [Nat.lt_one_iff.1 hk]
      exact user_iff.2 (Option.isSome_iff_exists.1 (by decide +kernel))
    rw [copyin_low] at hrun
    cases hrun
    exact absurd (hret.2 huser) (by decide)
  · obtain ⟨ret, r', hrun, hret⟩ := h selfRam blankRoot selfVa (List.replicate 9 0) (by decide)
    obtain ⟨r'', hself⟩ := copyout_self
    rw [hself] at hrun
    cases hrun
    exact absurd (hret.2 user_selfRam) (by decide)
  · have hlen : (List.replicate 4096 (0 : Byte) ++ [1]).length = 4097 := by
      rw [List.length_append, List.length_replicate]
      rfl
    obtain ⟨ret, r', hrun, hbytes⟩ := h (pageRam true) blankRoot 0 (List.replicate 4096 0 ++ [1])
      (by rw [hlen]; decide) (tablesApart_pageRam true)
    obtain ⟨ret', r'', j, hrun', -, hiff, -⟩ := copyout_exact (tablesApart_pageRam true) 0
      (List.replicate 4096 (0 : Byte) ++ [1]) (by rw [hlen]; decide)
    cases hrun.symm.trans hrun'
    have huser : ∀ k < (List.replicate 4096 (0 : Byte) ++ [1]).length,
        User true (pageRam true).mem blankRoot (nth 0 k) := by
      intro k hk
      rw [hlen] at hk
      have hval : (nth 0 k).toNat = k := by
        rw [nth, BitVec.toNat_add, BitVec.toNat_ofNat]
        change (0 + k % 2 ^ 64) % 2 ^ 64 = k
        omega
      have hmax : MAXVA.toNat = 2 ^ 38 := rfl
      refine user_pageRam (BitVec.lt_def.2 (by omega)) ?_ ?_ ?_
      · rw [PX_val, hval]
        omega
      · rw [PX_val, hval]
        omega
      · rw [PX_val, hval]
        change k / 2 ^ 12 % 2 ^ 9 = 0 ∨ true = true ∧ k / 2 ^ 12 % 2 ^ 9 = 1
        exact (show k / 2 ^ 12 % 2 ^ 9 = 0 ∨ k / 2 ^ 12 % 2 ^ 9 = 1 by omega).imp_right fun h1 => ⟨rfl, h1⟩
    have hall := hbytes (hiff.2 huser)
    obtain ⟨a, ha, hbyte⟩ := hall 0 (by omega)
    obtain ⟨a', ha', hbyte'⟩ := hall 4096 (by omega)
    -- the byte at address 0 and the one at 4096 are the same
    have heq : a = a' := by
      apply BitVec.eq_of_toNat_eq
      rw [(userAddr_pageRam ha).1, (userAddr_pageRam ha').1]
      rfl
    rw [heq] at hbyte
    rw [List.getElem?_append_left (by rw [List.length_replicate]; decide),
      List.getElem?_replicate_of_lt (by decide)] at hbyte
    rw [List.getElem?_append_right (by rw [List.length_replicate]), List.length_replicate] at hbyte'
    exact absurd ((Option.some.inj hbyte).trans (Option.some.inj hbyte').symm) (by decide)

end Xv6.Sv39
