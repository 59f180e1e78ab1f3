import Xv6.Lib.Circular
import Xv6.Lib.Tiling
import Xv6.Umalloc.Model

set_option autoImplicit false

/-! # The free list

The free list starts at `base`, whose size is 0, goes through the free blocks in the order of their
addresses, and comes back to `base`. No free block touches the next one. `freep` is one of its headers. -/

namespace Xv6.Umalloc

open Xv6.Lib

/-- Headers the process can read and write. -/
def Accessible (s : Proc) (a : Nat) : Prop := a + HEADER ≤ PGROUNDUP s.sz

def Proc.next (s : Proc) (a : Nat) : Nat := (s.mem a).ptr

/-- The free blocks are `bs`. -/
structure FreeList (base : Nat) (s : Proc) (bs : List Block) : Prop where
  circular : Circular s.next base (bs.map Prod.fst)
  sizes : ∀ b ∈ bs, (s.mem b.1).size = b.2
  baseSize : (s.mem base).size = 0
  sorted : bs.Pairwise fun b c => Block.fin HEADER b < c.1
  above : ∀ b ∈ bs, base + HEADER ≤ b.1
  freep : s.freep ∈ base :: bs.map Prod.fst

/-! ## Reading and writing headers -/

section Access

variable {s : Proc} {a : Nat}

theorem load_ok (h : Accessible s a) : load a s = .ok (s.mem a, s) := by
  show (if _ then _ else _ : K _) s = _
  rw [if_pos (show a + HEADER ≤ PGROUNDUP s.sz from h)]
  rfl

/-- Memory with another header. -/
def Proc.put (s : Proc) (a : Nat) (h : Header) : Proc :=
  { s with mem := Function.update s.mem a h }

theorem save_ok (h : Accessible s a) (hd : Header) : save a hd s = .ok (⟨⟩, s.put a hd) := by
  show (if _ then _ else _ : K _) s = _
  rw [if_pos (show a + HEADER ≤ PGROUNDUP s.sz from h)]
  rfl

theorem setPtr_ok (h : Accessible s a) (ptr : Nat) :
    setPtr a ptr s = .ok (⟨⟩, s.put a ⟨ptr, (s.mem a).size⟩) := by
  show (load a >>= _) s = _
  rw [bind_of_ok (load_ok h), save_ok h]

theorem setSize_ok (h : Accessible s a) (size : Nat) :
    setSize a size s = .ok (⟨⟩, s.put a ⟨(s.mem a).ptr, size⟩) := by
  show (load a >>= _) s = _
  rw [bind_of_ok (load_ok h), save_ok h]

@[simp] theorem put_self (s : Proc) (a : Nat) (h : Header) : (s.put a h).mem a = h :=
  Function.update_self ..

theorem put_of_ne {b : Nat} (hb : b ≠ a) (h : Header) : (s.put a h).mem b = s.mem b :=
  Function.update_of_ne hb ..

@[simp] theorem put_put (s : Proc) (a : Nat) (h h' : Header) : (s.put a h).put a h' = s.put a h' := by
  simp only [Proc.put, Function.update_idem]

@[simp] theorem put_sz (s : Proc) (a : Nat) (h : Header) : (s.put a h).sz = s.sz := rfl

@[simp] theorem put_freep (s : Proc) (a : Nat) (h : Header) : (s.put a h).freep = s.freep := rfl

theorem Accessible.put {b : Nat} (h : Accessible s b) (hd : Header) : Accessible (s.put a hd) b := h

end Access

/-! ## Finding the place of a block -/

/-- A sorted list is cut in two by an address that no block of it starts at. -/
theorem exists_cut {bs : List Block} {a : Nat}
    (hsorted : bs.Pairwise fun b c => Block.fin HEADER b < c.1) (hne : ∀ b ∈ bs, b.1 ≠ a) :
    ∃ lo hi, bs = lo ++ hi ∧ (∀ b ∈ lo, b.1 < a) ∧ ∀ b ∈ hi, a < b.1 := by
  induction bs with
  | nil => exact ⟨[], [], rfl, by simp, by simp⟩
  | cons b bs ih =>
      obtain ⟨hb, hrest⟩ := List.pairwise_cons.1 hsorted
      rcases Nat.lt_or_gt_of_ne (hne b (List.mem_cons_self ..)) with hlt | hgt
      · obtain ⟨lo, hi, rfl, hlo, hhi⟩ := ih hrest fun c hc => hne c (List.mem_cons_of_mem _ hc)
        refine ⟨b :: lo, hi, rfl, fun c hc => ?_, hhi⟩
        rcases List.mem_cons.1 hc with rfl | hc
        · exact hlt
        · exact hlo c hc
      · refine ⟨[], b :: bs, rfl, by simp, fun c hc => ?_⟩
        rcases List.mem_cons.1 hc with rfl | hc
        · exact hgt
        · have := hb c hc
          simp only [Block.fin] at this
          omega

/-- Where a block at `a` belongs: after `p`, the last header below it. -/
structure Place (base : Nat) (s : Proc) (a p : Nat) (pre : List Nat) (lo hi : List Block) :
    Prop where
  above : base < a
  below : ∀ b ∈ lo, b.1 < a
  beyond : ∀ b ∈ hi, a < b.1
  last : base :: lo.map Prod.fst = pre ++ [p]

section Place

variable {base a p : Nat} {s : Proc} {pre : List Nat} {lo hi : List Block}

theorem FreeList.headers_sorted {bs : List Block} (h : FreeList base s bs) :
    (base :: bs.map Prod.fst).Pairwise (· < ·) := by
  refine List.pairwise_cons.2 ⟨fun x hx => ?_, ?_⟩
  · obtain ⟨b, hb, rfl⟩ := List.mem_map.1 hx
    have := h.above b hb
    simp only [HEADER] at this
    omega
  · refine List.pairwise_map.2 (h.sorted.imp fun {b c} hbc => ?_)
    simp only [Block.fin] at hbc
    omega

theorem exists_place {bs : List Block} (h : FreeList base s bs) (habove : base < a)
    (hne : ∀ b ∈ bs, b.1 ≠ a) : ∃ p pre lo hi, bs = lo ++ hi ∧ Place base s a p pre lo hi := by
  obtain ⟨lo, hi, rfl, hlo, hhi⟩ := exists_cut h.sorted hne
  have hcons : base :: lo.map Prod.fst ≠ [] := List.cons_ne_nil _ _
  exact ⟨(base :: lo.map Prod.fst).getLast hcons, (base :: lo.map Prod.fst).dropLast, lo, hi, rfl,
    habove, hlo, hhi, (List.dropLast_append_getLast hcons).symm⟩

/-- The list goes to the place, and on from it. -/
theorem Place.visits (hp : Place base s a p pre lo hi) (h : FreeList base s (lo ++ hi)) :
    Visits s.next (pre ++ [p]) ∧ Visits s.next (p :: (hi.map Prod.fst ++ [base])) := by
  have hc := h.circular
  rw [Circular, List.map_append, ← List.cons_append, hp.last, List.append_assoc,
    List.append_assoc] at hc
  exact Visits.split.1 hc

theorem Place.mem_below (hp : Place base s a p pre lo hi) {x : Nat} (hx : x ∈ pre ++ [p]) :
    x < a := by
  rw [← hp.last] at hx
  rcases List.mem_cons.1 hx with rfl | hx
  · exact hp.above
  · obtain ⟨b, hb, rfl⟩ := List.mem_map.1 hx
    exact hp.below b hb

theorem Place.lt (hp : Place base s a p pre lo hi) : p < a :=
  hp.mem_below (List.mem_append_right _ (List.mem_singleton.2 rfl))

theorem Place.mem_headers (hp : Place base s a p pre lo hi) :
    p ∈ base :: (lo ++ hi).map Prod.fst := by
  rw [List.map_append, ← List.cons_append, hp.last]
  exact List.mem_append_left _ (List.mem_append_right _ (List.mem_singleton.2 rfl))

theorem FreeList.base_le {bs : List Block} (h : FreeList base s bs) {x : Nat}
    (hx : x ∈ base :: bs.map Prod.fst) : base ≤ x := by
  rcases List.mem_cons.1 hx with rfl | hx
  · exact Nat.le_refl _
  · exact Nat.le_of_lt ((List.pairwise_cons.1 h.headers_sorted).1 x hx)

/-- The block belongs between `p` and its successor. -/
theorem Place.between (hp : Place base s a p pre lo hi) (h : FreeList base s (lo ++ hi)) :
    Between a p (s.next p) := by
  have hv := (hp.visits h).2
  have hlt := hp.lt
  cases hi with
  | nil =>
      have hnext : s.next p = base := (Visits.cons_cons.1 hv).1
      have hbase : base ≤ p := h.base_le hp.mem_headers
      right
      omega
  | cons b hi =>
      have hnext : s.next p = b.1 := (Visits.cons_cons.1 hv).1
      have := hp.beyond b (List.mem_cons_self ..)
      left
      omega

/-- It belongs nowhere else. -/
theorem Place.unique (hp : Place base s a p pre lo hi) (h : FreeList base s (lo ++ hi)) {q : Nat}
    (hq : q ∈ base :: (lo ++ hi).map Prod.fst) (hb : Between a q (s.next q)) : q = p := by
  have habove := hp.above
  obtain ⟨hv, hv'⟩ := hp.visits h
  have hsorted := h.headers_sorted
  rw [List.map_append, ← List.cons_append, hp.last] at hq hsorted
  simp only [Between] at hb
  rcases List.mem_append.1 hq with hq | hq
  · rcases List.mem_append.1 hq with hq | hq
    · -- before the place, the list goes up and stays below the block
      obtain ⟨l₁, l₂, rfl⟩ := List.append_of_mem hq
      rw [List.append_assoc, List.cons_append] at hv
      have hmem := hv.next_mem
      have hlt : s.next q < a := hp.mem_below (by
        rw [List.append_assoc, List.cons_append]
        exact List.mem_append_right _ (List.mem_cons_of_mem _ hmem))
      have hup : q < s.next q := by
        have hpre := (List.pairwise_append.1 hsorted).1
        rw [List.append_assoc, List.cons_append] at hpre
        exact (List.pairwise_cons.1 (List.pairwise_append.1 hpre).2.1).1 _ hmem
      omega
    · exact List.mem_singleton.1 hq
  · -- beyond it, the list goes up above the block, or back to `base`
    obtain ⟨b, hbhi, rfl⟩ := List.mem_map.1 hq
    have hgt := hp.beyond b hbhi
    obtain ⟨l₁, l₂, hsplit⟩ := List.append_of_mem hq
    have hfrom : Visits s.next ((p :: l₁) ++ b.1 :: (l₂ ++ [base])) := by
      rw [hsplit] at hv'
      simpa only [List.cons_append, List.append_assoc] using hv'
    rcases List.mem_append.1 hfrom.next_mem with hnext | hnext
    · have hup : b.1 < s.next b.1 := by
        have hhi := (List.pairwise_append.1 hsorted).2.1
        rw [hsplit] at hhi
        exact (List.pairwise_cons.1 (List.pairwise_append.1 hhi).2.1).1 _ hnext
      omega
    · have : s.next b.1 = base := List.mem_singleton.1 hnext
      omega

theorem freeLoop_succ {x : Nat} (hacc : Accessible s x) (rounds : Nat) :
    freeLoop a (rounds + 1) x s =
      if Between a x (s.next x) then .ok (x, s) else freeLoop a rounds (s.next x) s := by
  show (load x >>= _) s = _
  rw [bind_of_ok (load_ok hacc)]
  show (if Between a x (s.next x) then _ else _ : K Nat) s = _
  split <;> rfl

/-- The loop of `free` stops at the first header that it comes to between which and its successor
    the block is. -/
theorem freeLoop_stops {l : List Nat} {x rounds : Nat} (hv : Visits s.next (x :: l))
    (hacc : ∀ y ∈ x :: l, Accessible s y) (hq : ∃ q ∈ x :: l, Between a q (s.next q))
    (hr : l.length < rounds) :
    ∃ q ∈ x :: l, Between a q (s.next q) ∧ freeLoop a rounds x s = .ok (q, s) := by
  induction l generalizing x rounds with
  | nil =>
      obtain ⟨rounds, rfl⟩ := Nat.exists_eq_succ_of_ne_zero (Nat.ne_of_gt hr)
      obtain ⟨q, hqx, hb⟩ := hq
      rw [List.mem_singleton.1 hqx] at hb
      refine ⟨x, List.mem_cons_self .., hb, ?_⟩
      rw [freeLoop_succ (hacc x (List.mem_cons_self ..)), if_pos hb]
  | cons y l ih =>
      obtain ⟨rounds, rfl⟩ := Nat.exists_eq_succ_of_ne_zero (Nat.ne_zero_of_lt hr)
      obtain ⟨hxy, hv⟩ := Visits.cons_cons.1 hv
      have hstep := freeLoop_succ (hacc x (List.mem_cons_self ..)) (a := a) rounds
      by_cases hb : Between a x (s.next x)
      · refine ⟨x, List.mem_cons_self .., hb, ?_⟩
        rw [hstep, if_pos hb]
      · obtain ⟨q, hqx, hbq⟩ := hq
        have hqy : q ∈ y :: l := by
          rcases List.mem_cons.1 hqx with rfl | hqx
          · exact absurd hbq hb
          · exact hqx
        obtain ⟨q', hq', hb', hrun⟩ := ih hv (fun z hz => hacc z (List.mem_cons_of_mem _ hz))
          ⟨q, hqy, hbq⟩ (Nat.lt_of_succ_lt_succ hr)
        refine ⟨q', List.mem_cons_of_mem _ hq', hb', ?_⟩
        rw [hstep, if_neg hb, hxy]
        exact hrun

/-- Started anywhere in the list, the loop finds the place. -/
theorem Place.freeLoop (hp : Place base s a p pre lo hi) (h : FreeList base s (lo ++ hi))
    (hacc : ∀ y ∈ base :: (lo ++ hi).map Prod.fst, Accessible s y)
    (hlen : (lo ++ hi).length < ROUNDS) : freeLoop a ROUNDS s.freep s = .ok (p, s) := by
  obtain ⟨l', hcirc, hperm⟩ := h.circular.rotate h.freep
  have hv : Visits s.next (s.freep :: l') := List.IsChain.left_of_append hcirc
  have hlen' : l'.length < ROUNDS := by
    have := hperm.length_eq
    simp only [List.length_cons, List.length_map] at this
    omega
  obtain ⟨q, hq, hb, hrun⟩ := freeLoop_stops hv (fun y hy => hacc y (hperm.mem_iff.1 hy))
    ⟨p, hperm.mem_iff.2 hp.mem_headers, hp.between h⟩ hlen'
  rw [hrun, hp.unique h (hperm.mem_iff.1 hq) hb]

end Place

end Xv6.Umalloc
