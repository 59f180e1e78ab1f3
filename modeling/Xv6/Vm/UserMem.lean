import Mathlib.Data.List.GetD
import Xv6.Vm.Copy
import Xv6.Vm.Size

set_option autoImplicit false

/-! # The memory of a process

`UserMem` is the memory that a process sees, as a function of the address, in which the pages that
have not been allocated yet are there and contain zeros. `copyin` and `copyout` read and write it byte
by byte, up to the first byte that the process may not touch, and `vmfault` does not change it.
`copyinstr` sees only the pages that are mapped. -/

namespace Xv6.Vm.Copy

open Xv6.Lib

/-! ## Memory as a function of the address -/

/-- What is at an address, if anything: the flags of the page, and the byte. -/
abbrev UserMem := Nat → Option (Perm × Byte)

namespace UserMem

variable {u v : UserMem} {va n m : Nat} {b : Byte} {bs src : List Byte}

def readable (u : UserMem) (va : Nat) : Option Byte :=
  (u va).bind fun e => if e.1.U then some e.2 else none

def writable (u : UserMem) (va : Nat) : Bool := (u va).any fun e => e.1.U && e.1.W

def put (u : UserMem) (va : Nat) (b : Byte) : UserMem :=
  Function.update u va ((u va).map fun e => (e.1, b))

/-- The bytes from `va` on, `n` of them or up to one that is not readable. -/
def read (u : UserMem) (va : Nat) : Nat → List Byte
  | 0 => []
  | n + 1 => match u.readable va with
    | none => []
    | some b => b :: read u (va + 1) n

/-- The bytes are written up to an address that is not writable. -/
def write (u : UserMem) (va : Nat) : List Byte → UserMem × Int
  | [] => (u, 0)
  | b :: src => if u.writable va then write (u.put va b) (va + 1) src else (u, -1)

/-- The bytes up to a NUL, and whether there is one among the `n` bytes from `va` on, all of them
    readable up to there. -/
def readString (u : UserMem) (va : Nat) : Nat → Int × List Byte
  | 0 => (-1, [])
  | n + 1 => match u.readable va with
    | none => (-1, [])
    | some b => if b = 0 then (0, [0])
      else ((readString u (va + 1) n).1, b :: (readString u (va + 1) n).2)

theorem read_zero : u.read va 0 = [] := rfl

theorem read_of_none (h : u.readable va = none) : u.read va n = [] := by
  cases n with
  | zero => rfl
  | succ n => simp [read, h]

theorem readString_zero : u.readString va 0 = (-1, []) := rfl

theorem readString_of_none (h : u.readable va = none) : u.readString va n = (-1, []) := by
  cases n with
  | zero => rfl
  | succ n => simp [readString, h]

theorem write_nil : u.write va [] = (u, 0) := rfl

theorem write_of_not_writable (h : u.writable va = false) (hsrc : src ≠ []) :
    u.write va src = (u, -1) := by
  cases src with
  | nil => exact absurd rfl hsrc
  | cons b src => simp [write, h]

/-- Reading first what is on one page. -/
theorem read_add {f : Nat → Byte} (h : ∀ k, k < n → u.readable (va + k) = some (f k)) :
    u.read va (n + m) = (List.range n).map f ++ u.read (va + n) m := by
  induction n generalizing va f with
  | zero => simp
  | succ n ih =>
      have h0 : u.readable va = some (f 0) := h 0 (Nat.succ_pos n)
      have hrest : ∀ k, k < n → u.readable (va + 1 + k) = some (f (k + 1)) := by
        intro k hk
        rw [Nat.add_right_comm]
        exact h (k + 1) (Nat.succ_lt_succ hk)
      rw [Nat.add_right_comm n 1 m, read, h0]
      simp only
      rw [ih hrest, List.range_succ_eq_map, List.map_cons, List.map_map, Nat.add_right_comm va 1 n]
      rfl

/-- Reading a string first on one page. -/
theorem readString_add {byte : Nat → Byte} {pa : Nat}
    (h : ∀ k, k < n → u.readable (va + k) = some (byte (pa + k))) :
    u.readString va (n + m) = if (copyUntilNull byte pa n).2 then (0, (copyUntilNull byte pa n).1)
      else ((u.readString (va + n) m).1,
        (copyUntilNull byte pa n).1 ++ (u.readString (va + n) m).2) := by
  induction n generalizing va pa with
  | zero => simp [copyUntilNull]
  | succ n ih =>
      have h0 : u.readable va = some (byte pa) := h 0 (Nat.succ_pos n)
      have hrest : ∀ k, k < n → u.readable (va + 1 + k) = some (byte (pa + 1 + k)) := by
        intro k hk
        rw [Nat.add_right_comm va, Nat.add_right_comm pa]
        exact h (k + 1) (Nat.succ_lt_succ hk)
      rw [Nat.add_right_comm n 1 m, readString, h0]
      by_cases hb : byte pa = 0
      · simp [copyUntilNull, hb]
      · simp only [copyUntilNull, hb, if_false, ih hrest, Nat.add_right_comm va 1 n]
        by_cases hnull : (copyUntilNull byte (pa + 1) n).2 = true
        · simp [hnull]
        · simp [hnull, Nat.add_assoc]

/-- Bytes in a row. -/
def store (u : UserMem) (va : Nat) (bs : List Byte) : UserMem := fun x =>
  if va ≤ x ∧ x < va + bs.length then (u x).map fun e => (e.1, bs.getD (x - va) e.2) else u x

theorem store_nil : u.store va [] = u := by
  funext x
  unfold store
  rw [if_neg (by simp)]

theorem store_put : (u.put va b).store (va + 1) bs = u.store va (b :: bs) := by
  funext x
  unfold store put
  rw [List.length_cons]
  by_cases hx : x = va
  · subst hx
    simp
  · rw [Function.update_of_ne hx]
    by_cases hin : va + 1 ≤ x ∧ x < va + 1 + bs.length
    · rw [if_pos hin, if_pos (by omega)]
      have hsub : x - va = (x - (va + 1)) + 1 := by omega
      rw [hsub]
      rfl
    · rw [if_neg hin, if_neg (by omega)]

theorem writable_put (x : Nat) : (u.put va b).writable x = u.writable x := by
  unfold writable put
  by_cases hx : x = va
  · subst hx
    rw [Function.update_self]
    cases u x <;> rfl
  · rw [Function.update_of_ne hx]

/-- Writing first what is on one page. -/
theorem write_append (h : ∀ k, k < bs.length → u.writable (va + k) = true) :
    u.write va (bs ++ src) = (u.store va bs).write (va + bs.length) src := by
  induction bs generalizing u va with
  | nil =>
      rw [store_nil]
      rfl
  | cons b bs ih =>
      have h0 : u.writable va = true := h 0 (Nat.succ_pos _)
      have hrest : ∀ k, k < bs.length → (u.put va b).writable (va + 1 + k) = true := by
        intro k hk
        rw [writable_put, Nat.add_right_comm]
        exact h (k + 1) (Nat.succ_lt_succ hk)
      rw [List.cons_append, write, if_pos h0, ih hrest, store_put, List.length_cons]
      congr 1
      omega

/-- Two memories in which the same string is read: where one may not be read, the string has ended
    before, or the other may not be read either. -/
theorem readString_eq_iff (hle : ∀ x b, u.readable x = some b → v.readable x = some b)
    (hzero : ∀ x, u.readable x = none → v.readable x = none ∨ v.readable x = some 0) :
    u.readString va n = v.readString va n ↔
      ∀ i, i < n → u.readable (va + i) = none → v.readable (va + i) = some 0 →
        ∃ j, j < i ∧ ∀ b, u.readable (va + j) = some b → b = 0 := by
  induction n generalizing va with
  | zero => simp [readString]
  | succ n ih =>
      cases hu : u.readable va with
      | none =>
          rcases hzero va hu with hv | hv
          · refine ⟨fun _ i _ hi hvi => ?_, fun _ => ?_⟩
            · rcases Nat.eq_zero_or_pos i with rfl | hpos
              · rw [Nat.add_zero, hv] at hvi
                cases hvi
              · exact ⟨0, hpos, fun b hb => by
                  rw [Nat.add_zero, hu] at hb
                  cases hb⟩
            · rw [readString_of_none hu, readString_of_none hv]
          · refine ⟨fun h => ?_, fun h => ?_⟩
            · rw [readString_of_none hu] at h
              simp [readString, hv] at h
            · obtain ⟨j, hj, _⟩ := h 0 (Nat.succ_pos n) hu hv
              exact absurd hj (Nat.not_lt_zero j)
      | some b =>
          have hv := hle va b hu
          by_cases hb : b = 0
          · refine ⟨fun _ i _ hi _ => ?_, fun _ => by simp [readString, hu, hv, hb]⟩
            rcases Nat.eq_zero_or_pos i with rfl | hpos
            · rw [Nat.add_zero, hu] at hi
              cases hi
            · refine ⟨0, hpos, fun c hc => ?_⟩
              rw [Nat.add_zero, hu] at hc
              rw [← Option.some.inj hc, hb]
          · have htail : u.readString va (n + 1) = v.readString va (n + 1) ↔
                u.readString (va + 1) n = v.readString (va + 1) n := by
              simp only [readString, hu, hv, if_neg hb, Prod.ext_iff, List.cons.injEq, true_and]
            rw [htail, ih]
            refine ⟨fun h i hi hui hvi => ?_, fun h i hi hui hvi => ?_⟩
            · cases i with
              | zero =>
                  rw [Nat.add_zero, hu] at hui
                  cases hui
              | succ i =>
                  rw [Nat.add_comm i 1, ← Nat.add_assoc] at hui hvi
                  obtain ⟨j, hj, hjb⟩ := h i (Nat.lt_of_succ_lt_succ hi) hui hvi
                  refine ⟨j + 1, Nat.succ_lt_succ hj, fun c hc => hjb c ?_⟩
                  rw [Nat.add_comm j 1, ← Nat.add_assoc] at hc
                  exact hc
            · rw [Nat.add_assoc, Nat.add_comm 1 i] at hui hvi
              obtain ⟨j, hj, hjb⟩ := h (i + 1) (Nat.succ_lt_succ hi) hui hvi
              cases j with
              | zero => exact absurd (hjb b hu) hb
              | succ j =>
                  refine ⟨j, Nat.lt_of_succ_lt_succ hj, fun c hc => hjb c ?_⟩
                  rw [Nat.add_assoc, Nat.add_comm 1 j] at hc
                  exact hc

end UserMem

/-! ## What a process sees -/

/-- The pages that are mapped. -/
def mappedMem (pt : PageTable) (byte : Nat → Byte) : UserMem := fun va =>
  if va < MAXVA ∧ (pteAt pt va).V = true then
    some ((pteAt pt va).perm, byte ((pteAt pt va).pa + va % PGSIZE))
  else none

/-- With the pages below the size that are not mapped. -/
def userMem (p : Proc) (byte : Nat → Byte) : UserMem := fun va =>
  (mappedMem p.pagetable byte va).or (if va < PGROUNDUP p.sz then some (userRW, 0) else none)

/-- The allocator has handed out what is mapped, once, and what is free is not in use. -/
structure Owned (p : Proc) (m : Mem) : Prop where
  page : ∀ va, va < MAXVA → (pteAt p.pagetable va).V = true →
    (pteAt p.pagetable va).pa ≠ 0 ∧ (pteAt p.pagetable va).pa % PGSIZE = 0
  distinct : ∀ va va', va < MAXVA → va' < MAXVA → (pteAt p.pagetable va).V = true →
    (pteAt p.pagetable va').V = true → (pteAt p.pagetable va).pa = (pteAt p.pagetable va').pa →
    va / PGSIZE = va' / PGSIZE
  nodup : m.freelist.Nodup
  free_page : ∀ pa ∈ m.freelist, pa ≠ 0 ∧ pa % PGSIZE = 0
  unused : ∀ va, va < MAXVA → (pteAt p.pagetable va).V = true →
    (pteAt p.pagetable va).pa ∉ m.freelist

/-- Nothing below the size is left to be allocated. -/
def Complete (p : Proc) : Prop := ∀ va, va < PGROUNDUP p.sz → (pteAt p.pagetable va).V = true

theorem mappedMem_of_valid {pt : PageTable} {byte : Nat → Byte} {va : Nat} (hva : va < MAXVA)
    (hv : (pteAt pt va).V = true) : mappedMem pt byte va =
      some ((pteAt pt va).perm, byte ((pteAt pt va).pa + va % PGSIZE)) := if_pos ⟨hva, hv⟩

theorem mappedMem_of_invalid {pt : PageTable} {byte : Nat → Byte} {va : Nat}
    (h : ¬ (va < MAXVA ∧ (pteAt pt va).V = true)) : mappedMem pt byte va = none := if_neg h

theorem userMem_of_valid {p : Proc} {byte : Nat → Byte} {va : Nat} (hva : va < MAXVA)
    (hv : (pteAt p.pagetable va).V = true) : userMem p byte va =
      some ((pteAt p.pagetable va).perm, byte ((pteAt p.pagetable va).pa + va % PGSIZE)) := by
  unfold userMem
  rw [mappedMem_of_valid hva hv, Option.some_or]

theorem userMem_of_invalid {p : Proc} {byte : Nat → Byte} {va : Nat}
    (h : ¬ (va < MAXVA ∧ (pteAt p.pagetable va).V = true)) :
    userMem p byte va = if va < PGROUNDUP p.sz then some (userRW, 0) else none := by
  unfold userMem
  rw [mappedMem_of_invalid h, Option.none_or]

theorem pgroundup_lt {sz : Nat} (h : sz ≤ TRAPFRAME) {va : Nat} (hva : va < PGROUNDUP sz) :
    va < MAXVA := by
  have hup := pgroundup_le h trapframe_le trapframe_mod
  have htop := trapframe_le
  omega

/-- Where everything is mapped, nothing is added. -/
theorem Complete.userMem {p : Proc} {byte : Nat → Byte} (h : Complete p) (hsz : p.sz ≤ TRAPFRAME) :
    userMem p byte = mappedMem p.pagetable byte := by
  funext va
  by_cases hv : va < MAXVA ∧ (pteAt p.pagetable va).V = true
  · rw [userMem_of_valid hv.1 hv.2, mappedMem_of_valid hv.1 hv.2]
  · rw [userMem_of_invalid hv, mappedMem_of_invalid hv, if_neg]
    exact fun hlt => hv ⟨pgroundup_lt hsz hlt, h va hlt⟩

/-! ## The functions that look at page tables -/

theorem onMem_ok {α : Type} {x : K α} {r : Ram} {a : α} {m : Mem} (h : x r.mem = .ok (a, m)) :
    onMem x r = .ok (a, { r with mem := m }) := by
  unfold onMem
  rw [h]

theorem descend_some {α : Type} (table : Nat × α) (empty : α) (alloc : Bool) (m : Mem) :
    descend (some table) empty alloc m = .ok (some table, m) := rfl

theorem descend_none {α : Type} (empty : α) (m : Mem) :
    descend none empty false m = .ok (none, m) := rfl

theorem walk_eq {va : Nat} (hva : va < MAXVA) (pt : PageTable) (m : Mem) :
    walk pt va false m = .ok ((pt, slot pt va), m) := by
  unfold walk slot
  rw [if_neg (by omega)]
  cases h2 : pt (PX 2 va) with
  | none => rfl
  | some r2 =>
      obtain ⟨pa1, mid⟩ := r2
      have hpt : Function.update pt (PX 2 va) (some (pa1, mid)) = pt := by
        rw [← h2, Function.update_eq_self]
      rw [bind_of_ok (descend_some (pa1, mid) _ false m)]
      cases h1 : mid (PX 1 va) with
      | none =>
          simp only [h1]
          rw [bind_of_ok (descend_none _ m)]
          simp only [hpt]
          rfl
      | some r1 =>
          obtain ⟨pa0, leaf⟩ := r1
          have hmid : Function.update mid (PX 1 va) (some (pa0, leaf)) = mid := by
            rw [← h1, Function.update_eq_self]
          simp only [h1]
          rw [bind_of_ok (descend_some (pa0, leaf) _ false m)]
          simp only [hmid, hpt]
          rfl

theorem ismapped_eq {va : Nat} (hva : va < MAXVA) (pt : PageTable) (m : Mem) :
    ismapped pt va m = .ok ((pteAt pt va).V, m) := by
  unfold ismapped
  rw [bind_of_ok (walk_eq hva pt m)]
  unfold pteAt
  cases slot pt va <;> rfl

/-- The page, where the process may use it. -/
theorem walkaddr_eq (pt : PageTable) (va : Nat) (m : Mem) : walkaddr pt va m =
    .ok (if va < MAXVA ∧ (pteAt pt va).V = true ∧ (pteAt pt va).perm.U = true
      then (pteAt pt va).pa else 0, m) := by
  unfold walkaddr
  by_cases hva : MAXVA ≤ va
  · rw [if_pos hva, if_neg (by omega)]
    rfl
  · rw [if_neg hva, bind_of_ok (walk_eq (by omega) pt m)]
    have hlt : va < MAXVA := by omega
    unfold pteAt
    cases slot pt va with
    | none =>
        rw [if_neg fun h => Bool.false_ne_true h.2.1]
        rfl
    | some pte =>
        simp only [Option.getD_some, hlt, true_and]
        cases pte.V <;> cases pte.perm.U <;> rfl

/-! ## A page fault -/

theorem kalloc_nil {r : Ram} (h : r.mem.freelist = []) :
    kalloc r = .ok (none, { r with short := true }) := by
  have hk : Vm.kalloc r.mem = .ok (none, r.mem) := by
    unfold Vm.kalloc
    rw [bind_of_ok (show (get : K Mem) r.mem = .ok (r.mem, r.mem) from rfl), h]
    rfl
  unfold kalloc
  rw [bind_of_ok (onMem_ok hk)]
  rfl

/-- The bytes of memory with a page filled. -/
def filled (byte : Nat → Byte) (pa : Nat) (c : Byte) : Nat → Byte := fun a =>
  if pa ≤ a ∧ a < pa + PGSIZE then c else byte a

theorem kalloc_cons {r : Ram} {pa : Nat} {rest : List Nat} (h : r.mem.freelist = pa :: rest) :
    kalloc r = .ok (some pa,
      { r with mem := { r.mem with freelist := rest }, byte := filled r.byte pa 5 }) := by
  have hk : Vm.kalloc r.mem = .ok (some pa, { r.mem with freelist := rest }) := by
    unfold Vm.kalloc
    rw [bind_of_ok (show (get : K Mem) r.mem = .ok (r.mem, r.mem) from rfl), h]
    rfl
  unfold kalloc
  rw [bind_of_ok (onMem_ok hk)]
  rfl

theorem kalloc_suffix {may : Panic → Prop} (l : List Nat) :
    Triple may (fun m => m.freelist <:+ l) Vm.kalloc fun _ m => m.freelist <:+ l := by
  unfold Vm.kalloc
  refine Triple.bind_get fun m hm => ?_
  cases hf : m.freelist with
  | nil =>
      refine Triple.pure _ fun t ht => ?_
      rw [ht]
      exact hm
  | cons pa rest =>
      refine Triple.bind (R := fun _ t => t.freelist <:+ l) (Triple.set _ fun _ _ => ?_) fun _ =>
        Triple.pure _ fun _ ht => ht
      rw [hf] at hm
      exact (List.suffix_cons pa rest).trans hm

/-- Mapping a page that is not mapped yet, if `kalloc` does not return 0. -/
theorem mappages_spec {pt : PageTable} {va : Nat} (hva : va < MAXVA) (halign : va % PGSIZE = 0)
    (hv : (pteAt pt va).V = false) (pa : Nat) (perm : Perm) (r : Ram) :
    ∃ pt' res r', mappages pt va PGSIZE pa perm r = .ok ((pt', res), r') ∧ r'.byte = r.byte ∧
      r'.mem.freelist <:+ r.mem.freelist ∧ (r'.short = false → r.short = false ∧ res = 0 ∧
        pteAt pt' va = ⟨true, perm, pa⟩ ∧
        ∀ x, x < 2 ^ 39 → x / PGSIZE ≠ va / PGSIZE → pteAt pt' x = pteAt pt x) := by
  have hmay : (pteAt pt va).V = true → ∀ _ : Panic, False := by
    intro h
    rw [hv] at h
    cases h
  have hkeeps : Triple _ _ (Vm.mappages pt va PGSIZE pa perm) _ :=
    mappages_keeps (kalloc_suffix r.mem.freelist) pt hva halign hmay
  obtain ⟨⟨pt', res⟩, m', hx, hm, hres, hok, _⟩ := hkeeps.exists_ok (s := r.mem) List.suffix_rfl
  unfold mappages
  rw [bind_of_ok (onMem_ok hx)]
  by_cases h0 : res = 0
  · refine ⟨pt', res, { r with mem := m' }, ?_, rfl, hm, fun hs => ⟨hs, h0, (hok h0).2⟩⟩
    rw [if_neg (by simp [h0])]
    rfl
  · refine ⟨pt', res, { r with mem := m', short := true }, ?_, rfl, hm, fun hs => by cases hs⟩
    rw [if_pos h0]
    rfl

/-- What a function of the kernel leaves of a process and the memory, with `u` for what the process
    sees afterwards. -/
structure Kept (p : Proc) (r : Ram) (p' : Proc) (r' : Ram) (u : UserMem) : Prop where
  size : p'.sz = p.sz
  short : r'.short = false → r.short = false
  owned : r'.short = false → Owned p' r'.mem
  mem : r'.short = false → userMem p' r'.byte = u
  complete : Complete p → p' = p ∧ r'.short = r.short

theorem Kept.refl {p : Proc} {r : Ram} (h : r.short = false → Owned p r.mem) :
    Kept p r p r (userMem p r.byte) :=
  ⟨rfl, id, h, fun _ => rfl, fun _ => ⟨rfl, rfl⟩⟩

theorem Kept.trans {p p' p'' : Proc} {r r' r'' : Ram} {u : UserMem}
    (h : Kept p r p' r' (userMem p r.byte)) (h' : Kept p' r' p'' r'' u) : Kept p r p'' r'' u := by
  refine ⟨h'.size.trans h.size, fun hs => h.short (h'.short hs), h'.owned, h'.mem, fun hc => ?_⟩
  obtain ⟨hp, hs⟩ := h.complete hc
  obtain ⟨hp', hs'⟩ := h'.complete (hp ▸ hc)
  exact ⟨hp'.trans hp, hs'.trans hs⟩

/-- Two pages do not overlap. -/
theorem filled_of_ne {byte : Nat → Byte} {pa pa' k : Nat} {c : Byte} (ha : pa % PGSIZE = 0)
    (ha' : pa' % PGSIZE = 0) (hne : pa' ≠ pa) (hk : k < PGSIZE) :
    filled byte pa c (pa' + k) = byte (pa' + k) := by
  unfold filled
  rw [if_neg]
  unfold PGSIZE at *
  omega

theorem filled_self {byte : Nat → Byte} {pa k : Nat} {c : Byte} (hk : k < PGSIZE) :
    filled byte pa c (pa + k) = c := by
  unfold filled
  exact if_pos ⟨Nat.le_add_right .., by omega⟩

theorem pgsize_pos : 0 < PGSIZE := by decide

/-- A free page, filled with zeros, becomes the page at `va`, which was not mapped. -/
theorem kept_map {p : Proc} {r r' : Ram} {va pa : Nat} {pt' : PageTable} {rest : List Nat}
    (hsz : p.sz ≤ TRAPFRAME) (ho : Owned p r.mem) (hfree : r.mem.freelist = pa :: rest)
    (hva : va < p.sz) (halign : va % PGSIZE = 0) (hv : (pteAt p.pagetable va).V = false)
    (hnew : pteAt pt' va = ⟨true, userRW, pa⟩)
    (hrest : ∀ x, x < 2 ^ 39 → x / PGSIZE ≠ va / PGSIZE → pteAt pt' x = pteAt p.pagetable x)
    (hlist : r'.mem.freelist <:+ rest) (hbyte : r'.byte = filled (filled r.byte pa 5) pa 0)
    (hshort : r.short = false) : Kept p r { p with pagetable := pt' } r' (userMem p r.byte) := by
  have hmax := trapframe_le
  have hup := le_pgroundup (show p.sz ≤ MAXVA by omega)
  -- the page of va is the new one, the others are as they were
  have hcases : ∀ x, x < MAXVA → (x / PGSIZE = va / PGSIZE ∧ pteAt pt' x = ⟨true, userRW, pa⟩) ∨
      (x / PGSIZE ≠ va / PGSIZE ∧ pteAt pt' x = pteAt p.pagetable x) := by
    intro x hx
    by_cases hd : x / PGSIZE = va / PGSIZE
    · exact Or.inl ⟨hd, by rw [pteAt_congr hd, hnew]⟩
    · exact Or.inr ⟨hd, hrest x (maxva_lt hx) hd⟩
  have hin : pa ∈ r.mem.freelist := by
    rw [hfree]
    exact List.mem_cons_self ..
  have hpa := ho.free_page pa hin
  have hsub : ∀ a, a ∈ r'.mem.freelist → a ∈ r.mem.freelist := by
    intro a ha
    rw [hfree]
    exact List.mem_cons_of_mem _ (hlist.subset ha)
  -- the frame has left the free list, so that no page but va's can be in it
  have hnodup : pa ∉ rest ∧ rest.Nodup := by
    have := ho.nodup
    rw [hfree] at this
    exact List.nodup_cons.1 this
  refine ⟨rfl, fun _ => hshort, fun _ => ⟨?_, ?_, ?_, ?_, ?_⟩, fun _ => ?_, fun hc => ?_⟩
  · intro x hx hvx
    rcases hcases x hx with ⟨-, he⟩ | ⟨-, he⟩
    · simp only [he]
      exact hpa
    · simp only [he] at hvx ⊢
      exact ho.page x hx hvx
  · intro x x' hx hx' hvx hvx' heq
    rcases hcases x hx with ⟨hd, he⟩ | ⟨hd, he⟩
    · rcases hcases x' hx' with ⟨hd', he'⟩ | ⟨hd', he'⟩
      · rw [hd, hd']
      · simp only [he, he'] at hvx' heq
        exact absurd (heq ▸ hin) (ho.unused x' hx' hvx')
    · rcases hcases x' hx' with ⟨hd', he'⟩ | ⟨hd', he'⟩
      · simp only [he, he'] at hvx heq
        exact absurd (heq ▸ hin) (ho.unused x hx hvx)
      · simp only [he, he'] at hvx hvx' heq
        exact ho.distinct x x' hx hx' hvx hvx' heq
  · exact hnodup.2.sublist hlist.sublist
  · exact fun a ha => ho.free_page a (hsub a ha)
  · intro x hx hvx ha
    rcases hcases x hx with ⟨-, he⟩ | ⟨-, he⟩
    · simp only [he] at ha
      exact hnodup.1 (hlist.subset ha)
    · simp only [he] at hvx ha
      exact ho.unused x hx hvx (hsub _ ha)
  · funext x
    by_cases hx : x < MAXVA
    · have hmod : x % PGSIZE < PGSIZE := Nat.mod_lt _ pgsize_pos
      rcases hcases x hx with ⟨hd, he⟩ | ⟨-, he⟩
      -- va is below the break, so that its page read as zeros before, as it does now
      · have hlt : x < PGROUNDUP p.sz := by
          rw [← pgrounddown_lt_iff (show p.sz ≤ MAXVA by omega)]
          unfold PGROUNDDOWN
          unfold PGSIZE at *
          omega
        have hvx : (pteAt p.pagetable x).V = false := by rw [pteAt_congr hd, hv]
        rw [userMem_of_valid hx (by simp only [he]), userMem_of_invalid (by simp [hvx]), if_pos hlt]
        simp only [he, hbyte, filled_self hmod]
      · by_cases hvx : (pteAt p.pagetable x).V = true
        · have hpx := ho.page x hx hvx
          have hne : (pteAt p.pagetable x).pa ≠ pa := fun heq => ho.unused x hx hvx (heq ▸ hin)
          rw [userMem_of_valid hx (by simp only [he, hvx]), userMem_of_valid hx hvx]
          simp only [he, hbyte]
          rw [filled_of_ne hpa.2 hpx.2 hne hmod, filled_of_ne hpa.2 hpx.2 hne hmod]
        · rw [userMem_of_invalid (by simp only [he]; exact fun h => hvx h.2),
            userMem_of_invalid (fun h => hvx h.2)]
    · rw [userMem_of_invalid (fun h => hx h.1), userMem_of_invalid (fun h => hx h.1)]
  · have := hc va (by omega)
    rw [hv] at this
    cases this

/-- What `vmfault` and `resolve` find: the page, if the process may touch the address. -/
structure Found (p p' : Proc) (byte : Nat → Byte) (va pa : Nat) : Prop where
  none : pa = 0 → (userMem p byte).readable va = none
  some : pa ≠ 0 → va < MAXVA ∧ (pteAt p'.pagetable va).V = true ∧
    (pteAt p'.pagetable va).perm.U = true ∧ (pteAt p'.pagetable va).pa = pa

theorem readable_of_no_U {p : Proc} {byte : Nat → Byte} {va : Nat} (hva : va < MAXVA)
    (hv : (pteAt p.pagetable va).V = true) (hu : (pteAt p.pagetable va).perm.U = false) :
    (userMem p byte).readable va = none := by
  unfold UserMem.readable
  rw [userMem_of_valid hva hv]
  simp [hu]

/-- Called where `walkaddr` has found nothing. -/
theorem vmfault_spec {p : Proc} {r : Ram} {va : Nat} (hsz : p.sz ≤ TRAPFRAME)
    (ho : r.short = false → Owned p r.mem) (halign : va % PGSIZE = 0)
    (hno : r.short = false → ¬ (va < MAXVA ∧ (pteAt p.pagetable va).V = true ∧
      (pteAt p.pagetable va).perm.U = true)) :
    ∃ p' pa r', vmfault p va r = .ok ((p', pa), r') ∧ Kept p r p' r' (userMem p r.byte) ∧
      (r'.short = false → Found p p' r.byte va pa) := by
  have hmax := trapframe_le
  -- a mapped page without PTE_U is no page of the process, and reads as absent
  have hnoU : r.short = false → va < MAXVA → (pteAt p.pagetable va).V = true →
      (userMem p r.byte).readable va = none := by
    intro hs hlt hv
    refine readable_of_no_U hlt hv ?_
    cases hu : (pteAt p.pagetable va).perm.U with
    | false => rfl
    | true => exact absurd ⟨hlt, hv, hu⟩ (hno hs)
  unfold vmfault
  by_cases hge : p.sz ≤ va
  · rw [if_pos hge]
    refine ⟨p, 0, r, rfl, Kept.refl ho, fun hs => ⟨fun _ => ?_, fun h => absurd rfl h⟩⟩
    by_cases hv : va < MAXVA ∧ (pteAt p.pagetable va).V = true
    · exact hnoU hs hv.1 hv.2
    · have hup : ¬ va < PGROUNDUP p.sz := by
        rw [← pgrounddown_lt_iff (show p.sz ≤ MAXVA by omega)]
        unfold PGROUNDDOWN PGSIZE at *
        omega
      unfold UserMem.readable
      rw [userMem_of_invalid hv, if_neg hup]
      rfl
  · rw [if_neg hge]
    have hlt : va < MAXVA := by omega
    have hdown : PGROUNDDOWN va = va := by
      unfold PGROUNDDOWN PGSIZE at *
      omega
    simp only [hdown]
    rw [bind_of_ok (onMem_ok (ismapped_eq hlt p.pagetable r.mem))]
    cases hv : (pteAt p.pagetable va).V with
    | true =>
        rw [if_pos rfl]
        exact ⟨p, 0, r, rfl, Kept.refl ho,
          fun hs => ⟨fun _ => hnoU hs hlt hv, fun h => absurd rfl h⟩⟩
    | false =>
        -- a process whose pages are all there does not fault
        have hincomplete : ¬ Complete p := by
          intro hc
          have := hc va (lt_of_lt_of_le (by omega) (le_pgroundup (show p.sz ≤ MAXVA by omega)))
          rw [hv] at this
          cases this
        rw [if_neg (by simp)]
        cases hf : r.mem.freelist with
        | nil =>
            rw [bind_of_ok (kalloc_nil hf)]
            refine ⟨p, 0, { r with short := true }, rfl, ?_, fun h => absurd h (by simp)⟩
            exact ⟨rfl, fun h => absurd h (by simp), fun h => absurd h (by simp),
              fun h => absurd h (by simp), fun hc => absurd hc hincomplete⟩
        | cons mem rest =>
            let r1 : Ram := { r with mem := { r.mem with freelist := rest },
                                     byte := filled (filled r.byte mem 5) mem 0 }
            have hset : memset mem 0 PGSIZE { r with mem := { r.mem with freelist := rest },
                                                     byte := filled r.byte mem 5 } = .ok (⟨⟩, r1) := rfl
            rw [bind_of_ok (kalloc_cons hf)]
            simp only
            rw [bind_of_ok hset]
            obtain ⟨pt', res, r', hx, hbyte, hlist, hok⟩ :=
              mappages_spec hlt halign hv mem userRW r1
            rw [bind_of_ok hx]
            by_cases hs : r'.short = false
            · obtain ⟨hshort, hres, hnew, hrest⟩ := hok hs
              have howned := ho hshort
              have hpa := howned.free_page mem (by rw [hf]; exact List.mem_cons_self ..)
              rw [if_neg (by simp [hres])]
              refine ⟨{ p with pagetable := pt' }, mem, r', rfl,
                kept_map hsz howned hf (by omega) halign hv hnew hrest hlist hbyte hshort,
                fun _ => ⟨fun h => absurd h hpa.1, fun _ => ?_⟩⟩
              show va < MAXVA ∧ (pteAt pt' va).V = true ∧ (pteAt pt' va).perm.U = true ∧
                (pteAt pt' va).pa = mem
              rw [hnew]
              exact ⟨hlt, rfl, rfl, rfl⟩
            -- memory ran out in mappages(): only the shortage is promised from here on
            · have hend : ∀ r2 : Ram, r2.short = r'.short →
                  Kept p r { p with pagetable := pt' } r2 (userMem p r.byte) := by
                intro r2 h2
                rw [← h2] at hs
                exact ⟨rfl, fun h => absurd h hs, fun h => absurd h hs, fun h => absurd h hs,
                  fun hc => absurd hc hincomplete⟩
              by_cases h0 : res = 0
              · rw [if_neg (by simp [h0])]
                exact ⟨{ p with pagetable := pt' }, mem, r', rfl, hend r' rfl, fun h => absurd h hs⟩
              · rw [if_pos (by simpa using h0)]
                exact ⟨{ p with pagetable := pt' }, 0, _, rfl, hend _ rfl, fun h => absurd h hs⟩

theorem resolve_spec {p : Proc} {r : Ram} {va : Nat} (hsz : p.sz ≤ TRAPFRAME)
    (ho : r.short = false → Owned p r.mem) (halign : va % PGSIZE = 0) :
    ∃ p' pa r', resolve p va r = .ok ((p', pa), r') ∧ Kept p r p' r' (userMem p r.byte) ∧
      (r'.short = false → Found p p' r.byte va pa) := by
  unfold resolve
  rw [bind_of_ok (onMem_ok (walkaddr_eq p.pagetable va r.mem))]
  by_cases hyes : va < MAXVA ∧ (pteAt p.pagetable va).V = true ∧ (pteAt p.pagetable va).perm.U = true
  · rw [if_pos hyes]
    by_cases h0 : (pteAt p.pagetable va).pa = 0
    · rw [if_pos h0]
      exact vmfault_spec hsz ho halign fun hs _ => ((ho hs).page va hyes.1 hyes.2.1).1 h0
    · rw [if_neg h0]
      exact ⟨p, _, r, rfl, Kept.refl ho, fun _ => ⟨fun h => absurd h h0, fun _ =>
        ⟨hyes.1, hyes.2.1, hyes.2.2, rfl⟩⟩⟩
  · rw [if_neg hyes, if_pos rfl]
    exact vmfault_spec hsz ho halign fun _ => hyes

/-! ## The copies -/

/-- The addresses of one round lie on the page that it starts with. -/
theorem chunk_page {va len k : Nat} (hk : k < chunk va len) :
    (va + k) / PGSIZE = PGROUNDDOWN va / PGSIZE ∧ (va + k) % PGSIZE = va - PGROUNDDOWN va + k := by
  unfold chunk PGROUNDDOWN PGSIZE at *
  omega

theorem chunk_le (va len : Nat) : chunk va len ≤ len := Nat.min_le_right ..

/-- The next round starts where this one ends, if there is one. -/
theorem chunk_next {va len : Nat} (hva : PGROUNDDOWN va < MAXVA) (h : chunk va len < len) :
    (PGROUNDDOWN va + PGSIZE) % 2 ^ 64 = va + chunk va len := by
  unfold chunk PGROUNDDOWN PGSIZE MAXVA at *
  omega

/-- What is at the addresses of one round. -/
theorem userMem_chunk {p : Proc} {byte : Nat → Byte} {va len k : Nat} (hva : PGROUNDDOWN va < MAXVA)
    (hv : (pteAt p.pagetable (PGROUNDDOWN va)).V = true) (hk : k < chunk va len) :
    userMem p byte (va + k) = some ((pteAt p.pagetable (PGROUNDDOWN va)).perm,
      byte ((pteAt p.pagetable (PGROUNDDOWN va)).pa + (va - PGROUNDDOWN va) + k)) := by
  obtain ⟨hpage, hoff⟩ := chunk_page hk
  have hlt : va + k < MAXVA := by
    unfold PGROUNDDOWN PGSIZE MAXVA at *
    omega
  rw [userMem_of_valid hlt (by rw [pteAt_congr hpage]; exact hv), pteAt_congr hpage, hoff,
    Nat.add_assoc]

/-- An address on a page that may not be read. -/
theorem readable_none_of_page {p : Proc} {byte : Nat → Byte} {va : Nat}
    (h : (userMem p byte).readable (PGROUNDDOWN va) = none) : (userMem p byte).readable va = none := by
  have hpage := pgrounddown_div va
  have hlt : PGROUNDDOWN va < MAXVA ↔ va < MAXVA := by
    unfold PGROUNDDOWN PGSIZE MAXVA
    omega
  unfold UserMem.readable at *
  by_cases hv : va < MAXVA ∧ (pteAt p.pagetable va).V = true
  · rw [userMem_of_valid (hlt.2 hv.1) (by rw [pteAt_congr hpage]; exact hv.2),
      pteAt_congr hpage] at h
    rw [userMem_of_valid hv.1 hv.2]
    revert h
    cases (pteAt p.pagetable va).perm.U <;> simp
  · rw [userMem_of_invalid (by rw [hlt, pteAt_congr hpage]; exact hv)] at h
    rw [userMem_of_invalid hv]
    have hup : PGROUNDDOWN va < PGROUNDUP p.sz ↔ va < PGROUNDUP p.sz := by
      have hmod := pgroundup_mod p.sz
      unfold PGROUNDDOWN PGSIZE at *
      omega
    rw [if_congr hup rfl rfl] at h
    exact h

/-- `copyin` reads what the process sees, up to a byte that it may not touch. -/
theorem copyin_spec {p : Proc} {r : Ram} (hsz : p.sz ≤ TRAPFRAME)
    (ho : r.short = false → Owned p r.mem) (srcva len : Nat) :
    ∃ p' res bytes r', copyin p srcva len r = .ok ((p', res, bytes), r') ∧
      Kept p r p' r' (userMem p r.byte) ∧ (r'.short = false →
        bytes = (userMem p r.byte).read srcva len ∧ res = if bytes.length = len then 0 else -1) := by
  induction len using Nat.strong_induction_on generalizing p r srcva with
  | _ len ih =>
      rw [copyin]
      by_cases h0 : len = 0
      · rw [dif_pos h0]
        subst h0
        exact ⟨p, 0, [], r, rfl, Kept.refl ho, fun _ => ⟨rfl, rfl⟩⟩
      · rw [dif_neg h0]
        have hpos := chunk_pos srcva h0
        have hle := chunk_le srcva len
        obtain ⟨p1, pa, r1, hx, hkept, hfound⟩ := resolve_spec hsz ho (pgrounddown_mod srcva)
        rw [bind_of_ok hx]
        by_cases hpa : pa = 0
        · rw [if_pos hpa]
          refine ⟨p1, -1, [], r1, rfl, hkept, fun hs => ?_⟩
          have hnone := readable_none_of_page ((hfound hs).none hpa)
          exact ⟨(UserMem.read_of_none hnone).symm, by simp [Ne.symm h0]⟩
        · rw [if_neg hpa]
          let bytes := (List.range (chunk srcva len)).map fun k =>
            r1.byte (pa + (srcva - PGROUNDDOWN srcva) + k)
          have hload : load (pa + (srcva - PGROUNDDOWN srcva)) (chunk srcva len) r1 =
              .ok (bytes, r1) := rfl
          obtain ⟨p2, res, rest, r2, hx2, hkept2, hrest⟩ := ih (len - chunk srcva len) (by omega)
            (hkept.size ▸ hsz) hkept.owned ((PGROUNDDOWN srcva + PGSIZE) % 2 ^ 64)
          rw [bind_of_ok hload, bind_of_ok hx2]
          refine ⟨p2, res, bytes ++ rest, r2, rfl, ?_, fun hs => ?_⟩
          · refine hkept.trans ⟨hkept2.size, hkept2.short, hkept2.owned, fun hs => ?_,
              hkept2.complete⟩
            rw [hkept2.mem hs, hkept.mem (hkept2.short hs)]
          · have hs1 := hkept2.short hs
            obtain ⟨hlt, hv, hu, hpte⟩ := (hfound hs1).some hpa
            obtain ⟨hread, hres⟩ := hrest hs
            have hpage : ∀ k, k < chunk srcva len → (userMem p r.byte).readable (srcva + k) =
                some (r1.byte (pa + (srcva - PGROUNDDOWN srcva) + k)) := by
              intro k hk
              rw [← hkept.mem hs1]
              unfold UserMem.readable
              rw [userMem_chunk hlt hv hk, hpte]
              simp [hu]
            have hnext : (userMem p r.byte).read ((PGROUNDDOWN srcva + PGSIZE) % 2 ^ 64)
                (len - chunk srcva len) =
                (userMem p r.byte).read (srcva + chunk srcva len) (len - chunk srcva len) := by
              by_cases hend : chunk srcva len < len
              · rw [chunk_next hlt hend]
              · rw [Nat.sub_eq_zero_of_le (by omega), UserMem.read_zero, UserMem.read_zero]
            have hall : bytes ++ rest = (userMem p r.byte).read srcva len := by
              calc bytes ++ rest
                  = bytes ++ (userMem p r.byte).read (srcva + chunk srcva len)
                      (len - chunk srcva len) := by rw [hread, hkept.mem hs1, hnext]
                _ = (userMem p r.byte).read srcva (chunk srcva len + (len - chunk srcva len)) :=
                    (UserMem.read_add hpage).symm
                _ = (userMem p r.byte).read srcva len := by rw [Nat.add_sub_cancel' hle]
            refine ⟨hall, ?_⟩
            have hlen : (bytes ++ rest).length = chunk srcva len + rest.length := by simp [bytes]
            rw [hres, hlen]
            exact if_congr (by omega) rfl rfl

/-- A write to a page changes what the process sees there. -/
theorem userMem_memmove {p : Proc} {m : Mem} {va n : Nat} {bs : List Byte} (ho : Owned p m)
    (hva : PGROUNDDOWN va < MAXVA) (hv : (pteAt p.pagetable (PGROUNDDOWN va)).V = true)
    (hn : bs.length ≤ chunk va n) (byte : Nat → Byte) :
    userMem p (fun a => if (pteAt p.pagetable (PGROUNDDOWN va)).pa + (va - PGROUNDDOWN va) ≤ a then
        bs.getD (a - ((pteAt p.pagetable (PGROUNDDOWN va)).pa + (va - PGROUNDDOWN va))) (byte a)
      else byte a) = (userMem p byte).store va bs := by
  have hpa := ho.page _ hva hv
  have hchunk : va - PGROUNDDOWN va + bs.length ≤ PGSIZE := by
    unfold chunk PGROUNDDOWN PGSIZE at *
    omega
  funext x
  unfold UserMem.store
  by_cases hx : x < MAXVA ∧ (pteAt p.pagetable x).V = true
  · rw [userMem_of_valid hx.1 hx.2, userMem_of_valid hx.1 hx.2]
    have hmod : x % PGSIZE < PGSIZE := Nat.mod_lt _ pgsize_pos
    have hpx := ho.page x hx.1 hx.2
    by_cases hpage : x / PGSIZE = PGROUNDDOWN va / PGSIZE
    · rw [pteAt_congr hpage]
      have hoff : x % PGSIZE = x - PGROUNDDOWN va ∧ PGROUNDDOWN va ≤ x := by
        unfold PGROUNDDOWN PGSIZE at *
        omega
      have hdown := pgrounddown_le va
      by_cases hin : va ≤ x ∧ x < va + bs.length
      · rw [if_pos hin, if_pos (by omega)]
        have hsub : (pteAt p.pagetable (PGROUNDDOWN va)).pa + x % PGSIZE -
            ((pteAt p.pagetable (PGROUNDDOWN va)).pa + (va - PGROUNDDOWN va)) = x - va := by omega
        rw [hsub]
        rfl
      · rw [if_neg hin]
        by_cases hge : (pteAt p.pagetable (PGROUNDDOWN va)).pa + (va - PGROUNDDOWN va) ≤
            (pteAt p.pagetable (PGROUNDDOWN va)).pa + x % PGSIZE
        · rw [if_pos hge, List.getD_eq_default _ _ (by omega)]
        · rw [if_neg hge]
    · have hne : (pteAt p.pagetable x).pa ≠ (pteAt p.pagetable (PGROUNDDOWN va)).pa :=
        fun heq => hpage (ho.distinct _ _ hx.1 hva hx.2 hv heq)
      have hout : ¬ (va ≤ x ∧ x < va + bs.length) := by
        unfold PGROUNDDOWN PGSIZE at *
        omega
      rw [if_neg hout]
      by_cases hge : (pteAt p.pagetable (PGROUNDDOWN va)).pa + (va - PGROUNDDOWN va) ≤
          (pteAt p.pagetable x).pa + x % PGSIZE
      · rw [if_pos hge, List.getD_eq_default]
        unfold PGSIZE at *
        omega
      · rw [if_neg hge]
  · rw [userMem_of_invalid hx, userMem_of_invalid hx]
    by_cases hin : va ≤ x ∧ x < va + bs.length
    · exfalso
      have hpage : x / PGSIZE = PGROUNDDOWN va / PGSIZE := by
        unfold PGROUNDDOWN PGSIZE at *
        omega
      refine hx ⟨?_, by rw [pteAt_congr hpage]; exact hv⟩
      unfold PGROUNDDOWN PGSIZE MAXVA at *
      omega
    · rw [if_neg hin]

theorem writable_page {p : Proc} {byte : Nat → Byte} {va k len : Nat} (hva : PGROUNDDOWN va < MAXVA)
    (hv : (pteAt p.pagetable (PGROUNDDOWN va)).V = true)
    (hu : (pteAt p.pagetable (PGROUNDDOWN va)).perm.U = true) (hk : k < chunk va len) :
    (userMem p byte).writable (va + k) = (pteAt p.pagetable (PGROUNDDOWN va)).perm.W := by
  unfold UserMem.writable
  rw [userMem_chunk hva hv hk]
  simp [hu]

theorem writable_of_readable_none {u : UserMem} {va : Nat} (h : u.readable va = none) :
    u.writable va = false := by
  unfold UserMem.readable at h
  unfold UserMem.writable
  cases hu : u va with
  | none => rfl
  | some e =>
      rw [hu] at h
      revert h
      cases he : e.1.U <;> simp [he]

/-- `copyout` writes what the process sees, up to a byte that it may not touch. -/
theorem copyout_spec {p : Proc} {r : Ram} (hsz : p.sz ≤ TRAPFRAME)
    (ho : r.short = false → Owned p r.mem) (dstva : Nat) (src : List Byte) :
    ∃ p' res r', copyout p dstva src r = .ok ((p', res), r') ∧
      Kept p r p' r' ((userMem p r.byte).write dstva src).1 ∧
      (r'.short = false → res = ((userMem p r.byte).write dstva src).2) := by
  -- a round of the loop writes what is left of a page; the induction is on the bytes left to write
  induction hlen : src.length using Nat.strong_induction_on generalizing p r dstva src with
  | _ len ih =>
      subst hlen
      rw [copyout]
      by_cases h0 : src.length = 0
      · rw [dif_pos h0]
        rw [List.length_eq_zero_iff.1 h0]
        exact ⟨p, 0, r, rfl, Kept.refl ho, fun _ => rfl⟩
      · rw [dif_neg h0]
        have hne : src ≠ [] := fun h => h0 (by rw [h]; rfl)
        have hpos := chunk_pos dstva h0
        have hle := chunk_le dstva src.length
        have hstop : (userMem p r.byte).writable dstva = false →
            (userMem p r.byte).write dstva src = (userMem p r.byte, -1) :=
          fun h => UserMem.write_of_not_writable h hne
        by_cases hmax : MAXVA ≤ PGROUNDDOWN dstva
        · rw [if_pos hmax]
          have hout : (userMem p r.byte).writable dstva = false := by
            have hdown := pgrounddown_le dstva
            have hup : dstva < PGROUNDUP p.sz → dstva < MAXVA := pgroundup_lt hsz
            unfold UserMem.writable
            rw [userMem_of_invalid (fun h => by omega), if_neg (fun h => by have := hup h; omega)]
            rfl
          refine ⟨p, -1, r, rfl, ?_, fun _ => by rw [hstop hout]⟩
          rw [hstop hout]
          exact Kept.refl ho
        · rw [if_neg hmax]
          obtain ⟨p1, pa, r1, hx, hkept, hfound⟩ := resolve_spec hsz ho (pgrounddown_mod dstva)
          rw [bind_of_ok hx]
          -- where a round finds no page to write to, nothing of the source is written
          have hfail : (r1.short = false → (userMem p r.byte).writable dstva = false) →
              Kept p r p1 r1 ((userMem p r.byte).write dstva src).1 ∧
              (r1.short = false → (-1 : Int) = ((userMem p r.byte).write dstva src).2) := by
            intro hw
            refine ⟨⟨hkept.size, hkept.short, hkept.owned, fun hs => ?_, hkept.complete⟩, fun hs => ?_⟩
            · rw [hstop (hw hs)]
              exact hkept.mem hs
            · rw [hstop (hw hs)]
          by_cases hpa : pa = 0
          · rw [if_pos hpa]
            exact ⟨p1, -1, r1, rfl, hfail fun hs => writable_of_readable_none
              (readable_none_of_page ((hfound hs).none hpa))⟩
          · rw [if_neg hpa, bind_of_ok (onMem_ok (walk_eq (by omega) p1.pagetable r1.mem))]
            have hpte : pteAt p1.pagetable (PGROUNDDOWN dstva) =
                (slot p1.pagetable (PGROUNDDOWN dstva)).getD Pte.zero := rfl
            cases hslot : slot p1.pagetable (PGROUNDDOWN dstva) with
            | none =>
                refine ⟨p1, -1, r1, rfl, hfail fun hs => ?_⟩
                have hv := ((hfound hs).some hpa).2.1
                rw [hpte, hslot] at hv
                cases hv
            | some pte =>
                rw [hslot, Option.getD_some] at hpte
                simp only
                -- the bytes of a page are writable all together, by its entry
                have hwrite : ∀ k, k < chunk dstva src.length → r1.short = false →
                    (userMem p r.byte).writable (dstva + k) = pte.perm.W := by
                  intro k hk hs
                  obtain ⟨hlt, hv, hu, -⟩ := (hfound hs).some hpa
                  rw [← hkept.mem hs, writable_page hlt hv hu hk, hpte]
                by_cases hW : pte.perm.W = false
                · rw [if_pos hW]
                  refine ⟨p1, -1, r1, rfl, hfail fun hs => ?_⟩
                  rw [← hW, ← hwrite 0 hpos hs, Nat.add_zero]
                · rw [if_neg hW]
                  let n := chunk dstva src.length
                  let dst := pa + (dstva - PGROUNDDOWN dstva)
                  let r1' : Ram := { r1 with byte := fun a =>
                    if dst ≤ a then (src.take n).getD (a - dst) (r1.byte a) else r1.byte a }
                  have hmove : memmove dst (src.take n) r1 = .ok (⟨⟩, r1') := rfl
                  rw [bind_of_ok hmove]
                  have hsplit : src = src.take n ++ src.drop n := (List.take_append_drop n src).symm
                  have htake : (src.take n).length = n := by
                    rw [List.length_take]
                    exact Nat.min_eq_left hle
                  obtain ⟨p2, res, r2, hx2, hkept2, hres⟩ := ih (src.drop n).length (by
                    rw [List.length_drop]
                    omega) (p := p1) (r := r1') (hkept.size ▸ hsz) hkept.owned
                    ((PGROUNDDOWN dstva + PGSIZE) % 2 ^ 64) (src.drop n) rfl
                  rw [hx2]
                  have hall : r2.short = false →
                      (userMem p1 r1'.byte).write ((PGROUNDDOWN dstva + PGSIZE) % 2 ^ 64)
                        (src.drop n) = (userMem p r.byte).write dstva src := by
                    intro hs2
                    have hs : r1.short = false := hkept2.short hs2
                    obtain ⟨hlt, hv, hu, hpa1⟩ := (hfound hs).some hpa
                    have hstore : userMem p1 r1'.byte = (userMem p r.byte).store dstva (src.take n) := by
                      have hm := userMem_memmove (hkept.owned hs) hlt hv (le_of_eq htake) r1.byte
                      rw [hpa1, hkept.mem hs] at hm
                      exact hm
                    have hpage : ∀ k, k < (src.take n).length →
                        (userMem p r.byte).writable (dstva + k) = true := by
                      intro k hk
                      rw [htake] at hk
                      rw [hwrite k hk hs]
                      simpa using hW
                    -- this chunk, and then the rest, is the whole source
                    calc (userMem p1 r1'.byte).write ((PGROUNDDOWN dstva + PGSIZE) % 2 ^ 64)
                          (src.drop n)
                        = ((userMem p r.byte).store dstva (src.take n)).write (dstva + n)
                            (src.drop n) := by
                          rw [hstore]
                          by_cases hend : n < src.length
                          · rw [chunk_next hlt hend]
                          · rw [List.drop_of_length_le (by omega), UserMem.write_nil,
                              UserMem.write_nil]
                      _ = (userMem p r.byte).write dstva (src.take n ++ src.drop n) := by
                          rw [UserMem.write_append hpage, htake]
                      _ = (userMem p r.byte).write dstva src := by rw [← hsplit]
                  refine ⟨p2, res, r2, rfl, ?_, fun hs => ?_⟩
                  · have hkept' : Kept p1 r1 p2 r2 ((userMem p r.byte).write dstva src).1 := by
                      refine ⟨hkept2.size, hkept2.short, hkept2.owned, fun hs => ?_, hkept2.complete⟩
                      rw [hkept2.mem hs, hall hs]
                    exact hkept.trans hkept'
                  · rw [hres hs, hall hs]

theorem mapped_readable {pt : PageTable} {byte : Nat → Byte} {va : Nat} : (mappedMem pt byte).readable va =
    if va < MAXVA ∧ (pteAt pt va).V = true ∧ (pteAt pt va).perm.U = true then
      some (byte ((pteAt pt va).pa + va % PGSIZE)) else none := by
  unfold UserMem.readable
  by_cases hv : va < MAXVA ∧ (pteAt pt va).V = true
  · rw [mappedMem_of_valid hv.1 hv.2]
    simp [hv.1, hv.2]
  · rw [mappedMem_of_invalid hv, if_neg fun h => hv ⟨h.1, h.2.1⟩]
    rfl

/-- `copyinstr` reads the string that is in the mapped pages. -/
theorem copyinstr_spec {pt : PageTable} {r : Ram}
    (hpage : ∀ va, va < MAXVA → (pteAt pt va).V = true → (pteAt pt va).pa ≠ 0) (srcva max : Nat) :
    copyinstr pt srcva max r = .ok ((mappedMem pt r.byte).readString srcva max, r) := by
  induction max using Nat.strong_induction_on generalizing srcva with
  | _ max ih =>
      rw [copyinstr]
      by_cases h0 : max = 0
      · rw [dif_pos h0, h0]
        rfl
      · rw [dif_neg h0, bind_of_ok (onMem_ok (walkaddr_eq pt (PGROUNDDOWN srcva) r.mem))]
        have hpos := chunk_pos srcva h0
        have hle := chunk_le srcva max
        by_cases hyes : PGROUNDDOWN srcva < MAXVA ∧ (pteAt pt (PGROUNDDOWN srcva)).V = true ∧
            (pteAt pt (PGROUNDDOWN srcva)).perm.U = true
        · rw [if_pos hyes, if_neg (hpage _ hyes.1 hyes.2.1)]
          let pa := (pteAt pt (PGROUNDDOWN srcva)).pa + (srcva - PGROUNDDOWN srcva)
          let copied := copyUntilNull r.byte pa (chunk srcva max)
          have hread : ∀ k, k < chunk srcva max →
              (mappedMem pt r.byte).readable (srcva + k) = some (r.byte (pa + k)) := by
            intro k hk
            obtain ⟨hdiv, hoff⟩ := chunk_page hk
            have hlt : srcva + k < MAXVA := by
              have := hyes.1
              unfold PGROUNDDOWN PGSIZE MAXVA at *
              omega
            rw [mapped_readable, pteAt_congr hdiv, if_pos ⟨hlt, hyes.2⟩, hoff, ← Nat.add_assoc]
          have hsplit := UserMem.readString_add (m := max - chunk srcva max) hread
          rw [Nat.add_sub_cancel' hle] at hsplit
          rw [hsplit]
          show (if copied.2 = true then (pure (0, copied.1) : KR _) else _) r = _
          by_cases hnull : copied.2 = true
          · rw [if_pos hnull, if_pos hnull]
            rfl
          · rw [if_neg hnull, if_neg hnull, bind_of_ok (ih _ (by omega) _)]
            have hnext : (mappedMem pt r.byte).readString ((PGROUNDDOWN srcva + PGSIZE) % 2 ^ 64)
                (max - chunk srcva max) =
                (mappedMem pt r.byte).readString (srcva + chunk srcva max) (max - chunk srcva max) := by
              by_cases hend : chunk srcva max < max
              · rw [chunk_next hyes.1 hend]
              · rw [Nat.sub_eq_zero_of_le (by omega), UserMem.readString_zero, UserMem.readString_zero]
            rw [hnext]
            rfl
        · rw [if_neg hyes, if_pos rfl, UserMem.readString_of_none]
          · rfl
          · have hpage := pgrounddown_div srcva
            rw [mapped_readable, if_neg]
            rintro ⟨hlt, h⟩
            refine hyes ⟨lt_of_le_of_lt (pgrounddown_le srcva) hlt, ?_⟩
            rw [pteAt_congr hpage]
            exact h

end Xv6.Vm.Copy
