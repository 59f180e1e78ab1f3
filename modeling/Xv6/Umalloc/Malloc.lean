import Xv6.Umalloc.Free

set_option autoImplicit false

/-! # `malloc`

The search goes once around the free list. A block that is large enough gives its tail, or all of
it; where none is, `morecore` adds a block at the break, unless `sbrk` fails, and the search goes
around once more. -/

namespace Xv6.Umalloc

open Xv6.Lib

section Malloc

variable {base brk k p prev : Nat} {s : Proc} {bs rest : List Block}

theorem FreeList.nodup (h : FreeList base s bs) : (base :: bs.map Prod.fst).Nodup :=
  h.headers_sorted.imp fun h => Nat.ne_of_lt h

/-- Only the headers of the list matter to it. -/
theorem FreeList.congr {t : Proc} (h : FreeList base s bs)
    (hmem : ∀ x ∈ base :: bs.map Prod.fst, t.mem x = s.mem x) (hfreep : t.freep = s.freep) :
    FreeList base t bs where
  circular := by
    have hc := h.circular
    rw [Circular] at hc ⊢
    exact hc.congr fun x hx => congrArg Header.ptr (hmem x hx)
  sizes := by
    intro b hb
    rw [hmem b.1 (List.mem_cons_of_mem _ (List.mem_map_of_mem hb))]
    exact h.sizes b hb
  baseSize := by
    rw [hmem base (List.mem_cons_self ..)]
    exact h.baseSize
  sorted := h.sorted
  above := h.above
  freep := by
    rw [hfreep]
    exact h.freep

theorem FreeList.freep_ne_zero (hl : Layout base brk) (h : FreeList base s bs) : s.freep ≠ 0 := by
  have := h.base_le h.freep
  have := hl.pos
  omega

/-! ## Taking a block -/

/-- The free block after a header of the list. -/
theorem FreeList.split_at (h : FreeList base s bs) (hprev : prev ∈ base :: bs.map Prod.fst)
    (hnext : s.next prev = p) (hpos : 0 < (s.mem p).size) :
    ∃ pre lo hi, bs = lo ++ (p, (s.mem p).size) :: hi ∧ base :: lo.map Prod.fst = pre ++ [prev] := by
  have hmem : p ∈ base :: bs.map Prod.fst := by
    have hturn : s.next prev ∈ (base :: bs.map Prod.fst).map s.next := List.mem_map_of_mem hprev
    rw [h.circular.map_next, hnext] at hturn
    exact (List.perm_append_singleton base _).mem_iff.1 hturn
  have hpb : p ∈ bs.map Prod.fst := by
    rcases List.mem_cons.1 hmem with rfl | hmem
    · rw [h.baseSize] at hpos
      omega
    · exact hmem
  obtain ⟨b, hb, rfl⟩ := List.mem_map.1 hpb
  have hsize := h.sizes b hb
  obtain ⟨lo, hi, hsplit⟩ := List.append_of_mem hb
  have hcons : base :: lo.map Prod.fst ≠ [] := List.cons_ne_nil _ _
  have hlast := (List.dropLast_append_getLast hcons).symm
  refine ⟨(base :: lo.map Prod.fst).dropLast, lo, hi, ?_, ?_⟩
  · rw [hsize]
    exact hsplit
  · -- the header before the block leads to it, and only one header does
    have hc := h.circular
    rw [Circular, hsplit, List.map_append, ← List.cons_append, hlast, List.append_assoc,
      List.append_assoc] at hc
    have hto := (Visits.cons_cons.1 (Visits.split.1 hc).2).1
    have hin : (base :: lo.map Prod.fst).getLast hcons ∈ base :: bs.map Prod.fst := by
      have := List.getLast_mem hcons
      rw [hsplit, List.map_append, ← List.cons_append]
      exact List.mem_append_left _ this
    rw [h.circular.next_inj h.nodup hprev hin (hnext.trans hto.symm)]
    exact hlast

section Take

variable {pre : List Nat} {lo hi : List Block} {n : Nat}

/-- The list around a free block. -/
theorem FreeList.around (h : FreeList base s (lo ++ (p, n) :: hi))
    (hpre : base :: lo.map Prod.fst = pre ++ [prev]) :
    Visits s.next (pre ++ [prev]) ∧ Visits s.next (p :: (hi.map Prod.fst ++ [base])) ∧
      (∀ x ∈ pre, x < prev) ∧ prev < p ∧ ∀ b ∈ hi, p < b.1 := by
  have hc := h.circular
  rw [Circular, List.map_append, ← List.cons_append, hpre, List.append_assoc,
    List.append_assoc] at hc
  obtain ⟨hto, hfrom⟩ := Visits.split.1 hc
  have hs := h.headers_sorted
  rw [List.map_append, ← List.cons_append, hpre, List.append_assoc] at hs
  obtain ⟨-, hs', hcross⟩ := List.pairwise_append.1 hs
  have hprev := List.pairwise_cons.1 hs'
  refine ⟨hto, (Visits.cons_cons.1 hfrom).2, fun x hx => ?_, ?_, fun b hb => ?_⟩
  · exact hcross x hx prev (List.mem_cons_self ..)
  · exact hprev.1 p (List.mem_cons_self ..)
  · exact (List.pairwise_cons.1 hprev.2).1 b.1 (List.mem_map_of_mem hb)

/-- The whole block leaves the list. -/
theorem FreeList.remove (h : FreeList base s (lo ++ (p, n) :: hi))
    (hpre : base :: lo.map Prod.fst = pre ++ [prev]) :
    FreeList base (s.relink prev ⟨s.next p, (s.mem prev).size⟩) (lo ++ hi) := by
  obtain ⟨hto, hfrom, hlt, hprevp, hgt⟩ := h.around hpre
  have hheaders : base :: (lo ++ hi).map Prod.fst = pre ++ prev :: hi.map Prod.fst := by
    rw [List.map_append, ← List.cons_append, hpre, List.append_assoc]
    rfl
  have hsizes : ∀ x, ((s.relink prev ⟨s.next p, (s.mem prev).size⟩).mem x).size =
      (s.mem x).size := by
    intro x
    by_cases hx : x = prev
    · rw [hx, relink_self]
    · rw [relink_of_ne hx]
  have hbeyond : ∀ b ∈ hi, b.1 ≠ prev := by
    intro b hb
    have := hgt b hb
    omega
  obtain ⟨hlo, hhi, hcross⟩ := List.pairwise_append.1 h.sorted
  constructor
  case circular =>
    refine circular_of_tail hto (fun x hx => ?_) ?_ hheaders
    · exact congrArg Header.ptr (relink_of_ne (Nat.ne_of_lt (hlt x hx)) _)
    · have htail : Visits s.next (hi.map Prod.fst ++ [base]) := hfrom.tail
      refine visits_cons (htail.congr fun x hx => ?_) fun y hy => ?_
      · obtain ⟨b, hb, rfl⟩ := List.mem_map.1 hx
        exact congrArg Header.ptr (relink_of_ne (hbeyond b hb) _)
      · exact (congrArg Header.ptr (relink_self ..)).trans (hfrom.rel_head? hy)
  case sizes =>
    intro b hb
    rw [hsizes]
    rcases List.mem_append.1 hb with hb | hb
    · exact h.sizes b (List.mem_append_left _ hb)
    · exact h.sizes b (List.mem_append_right _ (List.mem_cons_of_mem _ hb))
  case baseSize =>
    rw [hsizes]
    exact h.baseSize
  case sorted =>
    refine List.pairwise_append.2 ⟨hlo, (List.pairwise_cons.1 hhi).2, fun b hb c hc => ?_⟩
    exact hcross b hb c (List.mem_cons_of_mem _ hc)
  case above =>
    intro b hb
    rcases List.mem_append.1 hb with hb | hb
    · exact h.above b (List.mem_append_left _ hb)
    · exact h.above b (List.mem_append_right _ (List.mem_cons_of_mem _ hb))
  case freep =>
    rw [hheaders]
    exact List.mem_append_right _ (List.mem_cons_self ..)

/-- The block keeps its first `m` units. -/
theorem FreeList.shrink {m q : Nat} {hq : Header} (h : FreeList base s (lo ++ (p, n) :: hi))
    (hprev : prev ∈ base :: (lo ++ (p, n) :: hi).map Prod.fst) (hm : m ≤ n)
    (hqin : q ∉ base :: (lo ++ (p, n) :: hi).map Prod.fst) :
    FreeList base { (s.put p ⟨s.next p, m⟩).put q hq with freep := prev }
      (lo ++ (p, m) :: hi) := by
  have hheaders : (lo ++ (p, m) :: hi).map Prod.fst = (lo ++ (p, n) :: hi).map Prod.fst := by
    rw [List.map_append, List.map_append]
    rfl
  -- the new header is cut out of the end of p, so that no other header is written
  have hmem : ∀ x ∈ base :: (lo ++ (p, n) :: hi).map Prod.fst, x ≠ p →
      ((s.put p ⟨s.next p, m⟩).put q hq).mem x = s.mem x := fun x hx hxp => by
    rw [put_of_ne (ne_of_mem_of_not_mem hx hqin), put_of_ne hxp]
  have hpq : p ≠ q := ne_of_mem_of_not_mem (by simp) hqin
  have hpmem : ((s.put p ⟨s.next p, m⟩).put q hq).mem p = ⟨s.next p, m⟩ := by
    rw [put_of_ne hpq, put_self]
  obtain ⟨hlo, hhi, hcross⟩ := List.pairwise_append.1 h.sorted
  obtain ⟨hfirst, hrest⟩ := List.pairwise_cons.1 hhi
  -- blocks do not overlap: only one starts at p
  have hne : ∀ b ∈ lo ++ hi, b.1 ≠ p := by
    intro b hb
    rcases List.mem_append.1 hb with hb | hb
    · have := hcross b hb (p, n) (List.mem_cons_self ..)
      simp only [Block.fin] at this
      omega
    · have := hfirst b hb
      simp only [Block.fin] at this
      omega
  have hsize : ∀ b ∈ lo ++ hi, (((s.put p ⟨s.next p, m⟩).put q hq).mem b.1).size = b.2 := by
    intro b hb
    have hold : b ∈ lo ++ (p, n) :: hi := by
      rcases List.mem_append.1 hb with hb | hb
      · exact List.mem_append_left _ hb
      · exact List.mem_append_right _ (List.mem_cons_of_mem _ hb)
    rw [hmem b.1 (List.mem_cons_of_mem _ (List.mem_map_of_mem hold)) (hne b hb)]
    exact h.sizes b hold
  constructor
  case circular =>
    have hc := h.circular
    rw [Circular] at hc ⊢
    rw [hheaders]
    refine hc.congr fun x hx => ?_
    by_cases hxp : x = p
    · subst hxp
      show (((s.put x ⟨s.next x, m⟩).put q hq).mem x).ptr = s.next x
      rw [hpmem]
    · exact congrArg Header.ptr (hmem x hx hxp)
  case sizes =>
    intro b hb
    rcases List.mem_append.1 hb with hb | hb
    · exact hsize b (List.mem_append_left _ hb)
    · rcases List.mem_cons.1 hb with rfl | hb
      · exact congrArg Header.size hpmem
      · exact hsize b (List.mem_append_right _ hb)
  case baseSize =>
    have hbp : base ≠ p := by
      have := h.above (p, n) (by simp)
      simp only [HEADER] at this
      omega
    exact (congrArg Header.size (hmem base (List.mem_cons_self ..) hbp)).trans h.baseSize
  case sorted =>
    refine List.pairwise_append.2 ⟨hlo, List.pairwise_cons.2 ⟨fun c hc => ?_, hrest⟩, ?_⟩
    · have := hfirst c hc
      have hmul : HEADER * m ≤ HEADER * n := Nat.mul_le_mul_left _ hm
      simp only [Block.fin] at this ⊢
      omega
    · intro b hb c hc
      rcases List.mem_cons.1 hc with rfl | hc
      · exact hcross b hb (p, n) (List.mem_cons_self ..)
      · exact hcross b hb c (List.mem_cons_of_mem _ hc)
  case above =>
    intro b hb
    rcases List.mem_append.1 hb with hb | hb
    · exact h.above b (List.mem_append_left _ hb)
    · rcases List.mem_cons.1 hb with rfl | hb
      · exact h.above (p, n) (by simp)
      · exact h.above b (List.mem_append_right _ (List.mem_cons_of_mem _ hb))
  case freep =>
    rw [hheaders]
    exact hprev

/-- A unit inside a block is the header of no other block. -/
theorem inside_not_header {q m : Nat} (hl : Layout base brk)
    (ht : Tiling HEADER brk s.sz ((p, n) :: bs)) (hq : q = p + HEADER * m) (hm : 0 < m)
    (hmn : m < n) : q ∉ base :: p :: bs.map Prod.fst := by
  have hin := ht.inside (p, n) (List.mem_cons_self ..)
  have hb := hl.below
  simp only [Block.fin, HEADER] at hin hb hq
  intro hmem
  rcases List.mem_cons.1 hmem with hqb | hmem
  · omega
  rcases List.mem_cons.1 hmem with hqp | hmem
  · omega
  obtain ⟨b, hbmem, hbq⟩ := List.mem_map.1 hmem
  have hap := (List.pairwise_cons.1 ht.apart).1 b hbmem
  have hpos := (ht.inside b (List.mem_cons_of_mem _ hbmem)).2.2.2
  simp only [Apart, Block.fin, HEADER] at hap
  omega

end Take

/-- A large enough block gives `k` units, which leave the free list. -/
theorem take_spec (hl : Layout base brk) (h : FreeList base s bs)
    (ht : Tiling HEADER brk s.sz (bs ++ rest)) (hprev : prev ∈ base :: bs.map Prod.fst)
    (hnext : s.next prev = p) (hk : 0 < k) (hle : k ≤ (s.mem p).size) :
    ∃ bs' q t, take k prev p (s.mem p) s = .ok (q + HEADER, t) ∧ FreeList base t bs' ∧
      Tiling HEADER brk s.sz ((q, k) :: (bs' ++ rest)) ∧ (t.mem q).size = k ∧ t.sz = s.sz ∧
      ∀ b ∈ rest, t.mem b.1 = s.mem b.1 := by
  obtain ⟨pre, lo, hi, rfl, hpre⟩ := h.split_at hprev hnext (Nat.lt_of_lt_of_le hk hle)
  have hperm : (lo ++ (p, (s.mem p).size) :: hi ++ rest).Perm
      ((p, (s.mem p).size) :: (lo ++ hi ++ rest)) := by
    simp only [List.append_assoc, List.cons_append]
    exact List.perm_middle
  have htp := ht.perm hperm
  have hacc : ∀ y ∈ base :: (lo ++ (p, (s.mem p).size) :: hi).map Prod.fst, Accessible s y := by
    intro y hy
    rcases List.mem_cons.1 hy with rfl | hy
    · exact accessible_base hl ht
    · obtain ⟨b, hb, rfl⟩ := List.mem_map.1 hy
      exact accessible_of_tiling ht (List.mem_append_left _ hb)
  have haccp : Accessible s p := hacc p (by simp)
  -- blocks that are out lie apart from the free ones: none of their headers is in the list
  have hrest : ∀ b ∈ rest, b.1 ∉ base :: (lo ++ (p, (s.mem p).size) :: hi).map Prod.fst := by
    intro b hb hmem
    rcases List.mem_cons.1 hmem with hbase | hmem
    · have := (ht.inside b (List.mem_append_right _ hb)).1
      have := hl.below
      simp only [HEADER] at this
      omega
    · obtain ⟨c, hc, hcb⟩ := List.mem_map.1 hmem
      have hap := (List.pairwise_append.1 ht.apart).2.2 c hc b hb
      have h1 := (ht.inside b (List.mem_append_right _ hb)).2.2.2
      have h2 := (ht.inside c (List.mem_append_left _ hc)).2.2.2
      simp only [Apart, Block.fin, HEADER] at hap
      omega
  by_cases hall : (s.mem p).size = k
  · refine ⟨lo ++ hi, p, s.relink prev ⟨s.next p, (s.mem prev).size⟩, ?_, h.remove hpre, ?_, ?_,
      rfl, ?_⟩
    · rw [take, if_pos hall, bind_of_ok (setPtr_ok (hacc prev hprev) _)]
      rfl
    · rw [← hall]
      exact htp
    · have hne : p ≠ prev := Nat.ne_of_gt (h.around hpre).2.2.2.1
      rw [relink_of_ne hne, hall]
    · intro b hb
      exact relink_of_ne (ne_of_mem_of_not_mem hprev (hrest b hb)).symm _
  · have hlt : k < (s.mem p).size := Nat.lt_of_le_of_ne hle (Ne.symm hall)
    have hsum : (s.mem p).size - k + k = (s.mem p).size := Nat.sub_add_cancel hle
    have hm : 0 < (s.mem p).size - k := Nat.sub_pos_of_lt hlt
    -- the header of the part handed out lies inside the block, where no other header is
    have hq : p + HEADER * ((s.mem p).size - k) ∉
        base :: (lo ++ (p, (s.mem p).size) :: hi).map Prod.fst := by
      have hno := inside_not_header hl htp rfl hm (Nat.sub_lt (Nat.lt_of_lt_of_le hk hle) hk)
      simp only [List.map_append, List.map_cons, List.mem_cons, List.mem_append, not_or] at hno ⊢
      exact ⟨hno.1, hno.2.2.1.1, hno.2.1, hno.2.2.1.2⟩
    have hqp : p + HEADER * ((s.mem p).size - k) ≠ p := fun heq => hq (by simp [heq])
    rw [← hsum] at htp
    have hsplit := htp.split hm hk
    have haccq : Accessible s (p + HEADER * ((s.mem p).size - k)) :=
      accessible_of_tiling hsplit (List.mem_cons_of_mem _ (List.mem_cons_self ..))
    refine ⟨lo ++ (p, (s.mem p).size - k) :: hi, p + HEADER * ((s.mem p).size - k),
      { (s.put p ⟨s.next p, (s.mem p).size - k⟩).put (p + HEADER * ((s.mem p).size - k))
          ⟨(s.mem (p + HEADER * ((s.mem p).size - k))).ptr, k⟩ with freep := prev },
      ?_, h.shrink hprev (Nat.sub_le ..) hq, ?_, ?_, rfl, ?_⟩
    · rw [take, if_neg hall, bind_of_ok (setSize_ok haccp _)]
      show (setSize (p + HEADER * ((s.mem p).size - k)) k >>= _) _ = _
      rw [bind_of_ok (setSize_ok (haccq.put _) _), put_of_ne hqp]
      rfl
    · refine hsplit.perm (List.Perm.trans (List.Perm.swap ..) (List.Perm.cons _ ?_))
      simp only [List.append_assoc, List.cons_append]
      exact List.perm_middle.symm
    · exact congrArg Header.size (put_self ..)
    · intro b hb
      have hbq : b.1 ≠ p + HEADER * ((s.mem p).size - k) :=
        headers_ne_of_tiling (hsplit.perm (List.Perm.swap ..))
          (List.mem_cons_of_mem _ (List.mem_append_right _ hb))
      have hbp : b.1 ≠ p := fun heq => hrest b hb (by simp [heq])
      exact (put_of_ne hbq _).trans (put_of_ne hbp _)

/-! ## Searching -/

section Search

variable {room rounds : Nat}

/-- What the loop does where it is back at `freep`. -/
def more (room k rounds : Nat) : K Nat := do
  let q ← morecore room k
  if q = 0 then pure 0
  else mallocLoop room k rounds q (← load q).ptr

theorem mallocLoop_take (hacc : Accessible s p) (hle : k ≤ (s.mem p).size) :
    mallocLoop room k (rounds + 1) prev p s = take k prev p (s.mem p) s := by
  show (load p >>= _) s = _
  rw [bind_of_ok (load_ok hacc), if_pos hle]

theorem mallocLoop_next (hacc : Accessible s p) (hlt : ¬ k ≤ (s.mem p).size) (hp : p ≠ s.freep) :
    mallocLoop room k (rounds + 1) prev p s = mallocLoop room k rounds p (s.next p) s := by
  show (load p >>= _) s = _
  rw [bind_of_ok (load_ok hacc), if_neg hlt]
  show (if p = s.freep then _ else _ : K Nat) s = _
  rw [if_neg hp]
  rfl

theorem mallocLoop_more (hacc : Accessible s p) (hlt : ¬ k ≤ (s.mem p).size) (hp : p = s.freep) :
    mallocLoop room k (rounds + 1) prev p s = more room k rounds s := by
  show (load p >>= _) s = _
  rw [bind_of_ok (load_ok hacc), if_neg hlt]
  show (if p = s.freep then _ else _ : K Nat) s = _
  rw [if_pos hp]
  rfl

/-- The loop takes the first block that is large enough, or comes to `freep`. -/
theorem mallocLoop_search {l : List Nat} (hv : Visits s.next (prev :: (l ++ [s.freep])))
    (hnot : s.freep ∉ l) (hacc : ∀ x ∈ l ++ [s.freep], Accessible s x) (hr : l.length < rounds) :
    (∃ q' q, q' ∈ prev :: l ∧ s.next q' = q ∧ k ≤ (s.mem q).size ∧
      mallocLoop room k rounds prev (s.next prev) s = take k q' q (s.mem q) s) ∨
    (∀ x ∈ l ++ [s.freep], (s.mem x).size < k) ∧ ∃ r, r + l.length + 1 = rounds ∧
      mallocLoop room k rounds prev (s.next prev) s = more room k r s := by
  obtain ⟨r, rfl⟩ := Nat.exists_eq_succ_of_ne_zero (Nat.ne_zero_of_lt hr)
  induction l generalizing prev r with
  | nil =>
      have hnext : s.next prev = s.freep := (Visits.cons_cons.1 hv).1
      have haccf : Accessible s (s.next prev) := hnext ▸ hacc _ (List.mem_singleton.2 rfl)
      by_cases hle : k ≤ (s.mem (s.next prev)).size
      · exact Or.inl ⟨prev, _, List.mem_cons_self .., rfl, hle, mallocLoop_take haccf hle⟩
      · refine Or.inr ⟨fun x hx => ?_, r, rfl, mallocLoop_more haccf hle hnext⟩
        rw [List.mem_singleton.1 hx, ← hnext]
        exact Nat.lt_of_not_le hle
  | cons y l ih =>
      obtain ⟨hnext, hv⟩ := Visits.cons_cons.1 hv
      have haccy : Accessible s (s.next prev) := hnext ▸ hacc y (List.mem_cons_self ..)
      by_cases hle : k ≤ (s.mem (s.next prev)).size
      · exact Or.inl ⟨prev, _, List.mem_cons_self .., rfl, hle, mallocLoop_take haccy hle⟩
      · have hyf : s.next prev ≠ s.freep := fun heq =>
          hnot (by rw [← heq, hnext]; exact List.mem_cons_self ..)
        obtain ⟨r, rfl⟩ := Nat.exists_eq_succ_of_ne_zero
          (Nat.ne_zero_of_lt (Nat.lt_of_succ_lt_succ hr))
        have hstep : mallocLoop room k (r + 1 + 1) prev (s.next prev) s =
            mallocLoop room k (r + 1) (s.next prev) (s.next (s.next prev)) s :=
          mallocLoop_next haccy hle hyf
        rw [hstep, hnext]
        have hnot' : s.freep ∉ l := fun hmem => hnot (List.mem_cons_of_mem _ hmem)
        obtain ⟨q', q, hq', hq, hkq, hrun⟩ | ⟨hsmall, r', hr', hrun⟩ := ih hv hnot'
          (fun x hx => hacc x (List.mem_cons_of_mem _ hx)) r (Nat.lt_of_succ_lt_succ hr)
        · exact Or.inl ⟨q', q, List.mem_cons_of_mem _ hq', hq, hkq, hrun⟩
        · refine Or.inr ⟨fun x hx => ?_, r', ?_, hrun⟩
          · rcases List.mem_cons.1 hx with rfl | hx
            · rw [← hnext]
              exact Nat.lt_of_not_le hle
            · exact hsmall x hx
          · rw [List.length_cons]
            omega

/-- Once around the free list, from `freep`. -/
theorem FreeList.search (hl : Layout base brk) (h : FreeList base s bs)
    (ht : Tiling HEADER brk s.sz (bs ++ rest)) (hr : bs.length < rounds) :
    (∃ q' q, q' ∈ base :: bs.map Prod.fst ∧ s.next q' = q ∧ k ≤ (s.mem q).size ∧
      mallocLoop room k rounds s.freep (s.next s.freep) s = take k q' q (s.mem q) s) ∨
    (∀ b ∈ bs, b.2 < k) ∧ ∃ r, r + bs.length + 1 = rounds ∧
      mallocLoop room k rounds s.freep (s.next s.freep) s = more room k r s := by
  obtain ⟨l, hcirc, hperm⟩ := h.circular.rotate h.freep
  have hnd : (s.freep :: l).Nodup := hperm.nodup_iff.2 h.nodup
  have hlen : l.length = bs.length := by
    have := hperm.length_eq
    simpa only [List.length_cons, List.length_map, Nat.add_right_cancel_iff] using this
  have hperm' : (l ++ [s.freep]).Perm (base :: bs.map Prod.fst) :=
    (List.perm_append_singleton ..).trans hperm
  have hacc : ∀ x ∈ l ++ [s.freep], Accessible s x := by
    intro x hx
    rcases List.mem_cons.1 (hperm'.mem_iff.1 hx) with rfl | hx
    · exact accessible_base hl ht
    · obtain ⟨b, hb, rfl⟩ := List.mem_map.1 hx
      exact accessible_of_tiling ht (List.mem_append_left _ hb)
  obtain ⟨q', q, hq', hq, hkq, hrun⟩ | ⟨hsmall, r, hr', hrun⟩ :=
    @mallocLoop_search k s.freep s room rounds l hcirc (List.nodup_cons.1 hnd).1 hacc (hlen ▸ hr)
  · exact Or.inl ⟨q', q, hperm.mem_iff.1 hq', hq, hkq, hrun⟩
  · refine Or.inr ⟨fun b hb => ?_, r, hlen ▸ hr', hrun⟩
    rw [← h.sizes b hb]
    exact hsmall b.1 (hperm'.mem_iff.2 (List.mem_cons_of_mem _ (List.mem_map_of_mem hb)))

end Search

/-! ## More memory -/

section More

variable {room : Nat}

/-- Where the argument of `sbrk` fits into an `int`. -/
theorem toInt_of_small {n : Nat} (hn : n < 2 ^ 31) : (BitVec.ofNat 32 n).toInt = n := by
  have hnat : (BitVec.ofNat 32 n).toNat = n := by
    rw [BitVec.toNat_ofNat]
    omega
  rw [BitVec.toInt_eq_toNat_of_lt (by rw [hnat]; omega), hnat]

theorem sbrk_fails {n : Nat} (hn : 0 < n) (hroom : room < s.sz + n) :
    sbrk room n s = .ok (none, s) := by
  have hpos : (n : Int) > 0 := by omega
  show (if _ then (if _ then _ else _) else _ : K _) s = _
  rw [if_pos hpos, Int.toNat_natCast, if_pos hroom]
  rfl

theorem sbrk_grows {n : Nat} (hn : 0 < n) (hroom : ¬ room < s.sz + n) :
    sbrk room n s = .ok (some s.sz, { s with sz := s.sz + n }) := by
  have hpos : (n : Int) > 0 := by omega
  show (if _ then (if _ then _ else _) else _ : K _) s = _
  rw [if_pos hpos, Int.toNat_natCast, if_neg hroom]
  rfl

/-- `morecore` fails, or adds a block that is large enough. -/
theorem morecore_spec (hl : Layout base brk) (h : FreeList base s bs)
    (ht : Tiling HEADER brk s.sz (bs ++ rest)) (hroom : room ≤ PHYSMEM)
    (hsmall : k * HEADER < 2 ^ 31) :
    morecore room k s = .ok (0, s) ∨
    ∃ bs' t, morecore room k s = .ok (t.freep, t) ∧ FreeList base t bs' ∧
      Tiling HEADER brk t.sz (bs' ++ rest) ∧ t.sz ≤ PHYSMEM ∧ (∃ b ∈ bs', k ≤ b.2) ∧
      ∀ b ∈ rest, t.mem b.1 = s.mem b.1 := by
  obtain ⟨nu, hnu⟩ : ∃ nu, nu = if k < 4096 then 4096 else k := ⟨_, rfl⟩
  have hknu : k ≤ nu ∧ 0 < nu ∧ nu * HEADER < 2 ^ 31 := by
    rw [hnu]
    simp only [HEADER] at hsmall ⊢
    split <;> omega
  have hparts : morecore room k s =
      (sbrk room (BitVec.ofNat 32 (nu * HEADER)).toInt >>= addCore nu : K Nat) s := by
    rw [hnu]
    rfl
  have hbytes : 0 < nu * HEADER := Nat.mul_pos hknu.2.1 (by decide)
  rw [hparts, toInt_of_small hknu.2.2]
  by_cases hfail : room < s.sz + nu * HEADER
  · left
    rw [bind_of_ok (sbrk_fails hbytes hfail)]
    rfl
  · right
    rw [bind_of_ok (sbrk_grows hbytes hfail)]
    obtain ⟨s₁, hs₁⟩ : ∃ s₁ : Proc, s₁ = { s with sz := s.sz + nu * HEADER } := ⟨_, rfl⟩
    rw [← hs₁]
    have hsz : s₁.sz = s.sz + HEADER * nu := by rw [hs₁, Nat.mul_comm]
    have ht₁ : Tiling HEADER brk s₁.sz ((s.sz, nu) :: (bs ++ rest)) := by
      rw [hsz]
      exact ht.grow hknu.2.1
    have hacc : Accessible s₁ s.sz := accessible_of_tiling ht₁ (List.mem_cons_self ..)
    have hbelow : ∀ b ∈ bs ++ rest, b.1 ≠ s.sz := fun b hb => headers_ne_of_tiling ht₁ hb
    have hbase : base ≠ s.sz := by
      have h1 := hl.below
      have h2 := ht.lo_le
      simp only [HEADER] at h1
      omega
    -- the new block lies above the break, and so above base and every block of the list
    have hnot : s.sz ∉ base :: bs.map Prod.fst := by
      intro hmem
      rcases List.mem_cons.1 hmem with heq | hmem
      · exact hbase heq.symm
      · obtain ⟨b, hb, heq⟩ := List.mem_map.1 hmem
        exact hbelow b (List.mem_append_left _ hb) heq
    obtain ⟨s₂, hs₂⟩ : ∃ s₂ : Proc, s₂ = s₁.put s.sz ⟨(s₁.mem s.sz).ptr, nu⟩ := ⟨_, rfl⟩
    have hmem : ∀ x, x ≠ s.sz → s₂.mem x = s.mem x := by
      intro x hx
      rw [hs₂, put_of_ne hx, hs₁]
    have h₂ : FreeList base s₂ bs := by
      refine h.congr (fun x hx => hmem x (ne_of_mem_of_not_mem hx hnot)) ?_
      rw [hs₂, hs₁]
      rfl
    have hsize : (s₂.mem s.sz).size = nu := by rw [hs₂, put_self]
    have hsz₂ : s₂.sz = s₁.sz := by rw [hs₂, put_sz]
    have hphys : s₂.sz ≤ PHYSMEM := by
      rw [hsz₂, hsz, Nat.mul_comm]
      omega
    rw [← hsz₂] at ht₁
    obtain ⟨bs', t, hfree, hlist, htile, htsz, ⟨b, hb, hbk⟩, hframe⟩ :=
      free_spec hl h₂ hsize ht₁ hphys
    refine ⟨bs', t, ?_, hlist, htsz ▸ htile, htsz ▸ hphys,
      ⟨b, hb, Nat.le_trans hknu.1 hbk⟩, fun c hc => ?_⟩
    · show (setSize s.sz nu >>= _) s₁ = _
      rw [bind_of_ok (setSize_ok hacc nu), ← hs₂, bind_of_ok hfree]
      rfl
    · rw [hframe c.1 (hbelow c (List.mem_append_right _ hc)), hmem c.1
        (hbelow c (List.mem_append_right _ hc))]
      intro hmem
      rcases List.mem_cons.1 hmem with heq | hmem
      · have h1 := hl.below
        have h2 := (ht.inside c (List.mem_append_right _ hc)).1
        simp only [HEADER] at h1
        omega
      · obtain ⟨d, hd, heq⟩ := List.mem_map.1 hmem
        have hap := (List.pairwise_append.1 ht.apart).2.2 d hd c hc
        have h1 := (ht.inside c (List.mem_append_right _ hc)).2.2.2
        have h2 := (ht.inside d (List.mem_append_left _ hd)).2.2.2
        simp only [Apart, Block.fin, HEADER] at hap
        omega

end More

/-- What a call of `malloc` for `k` units has led to. -/
structure Result (base brk k : Nat) (s : Proc) (rest : List Block) (r : Nat) (t : Proc)
    (bs : List Block) : Prop where
  list : FreeList base t bs
  phys : t.sz ≤ PHYSMEM
  block : r = 0 ∧ Tiling HEADER brk t.sz (bs ++ rest) ∨
    ∃ q, r = q + HEADER ∧ Tiling HEADER brk t.sz ((q, k) :: (bs ++ rest)) ∧ (t.mem q).size = k
  frame : ∀ b ∈ rest, t.mem b.1 = s.mem b.1

/-- Once there is a list, `malloc` returns a block or 0. -/
theorem mallocLoop_spec {room : Nat} (hl : Layout base brk) (h : FreeList base s bs)
    (ht : Tiling HEADER brk s.sz (bs ++ rest)) (hs : s.sz ≤ PHYSMEM) (hroom : room ≤ PHYSMEM)
    (hk : 0 < k) (hsmall : k * HEADER < 2 ^ 31) :
    ∃ r t bs', mallocLoop room k ROUNDS s.freep (s.next s.freep) s = .ok (r, t) ∧
      Result base brk k s rest r t bs' := by
  have hshort : ∀ {bs : List Block} {u : Proc}, Tiling HEADER brk u.sz (bs ++ rest) →
      u.sz ≤ PHYSMEM → bs.length ≤ 2 ^ 23 := by
    intro bs u htu hsu
    have hle := htu.length_le
    simp only [List.length_append, HEADER] at hle
    simp only [PHYSMEM] at hsu
    omega
  obtain ⟨q', q, hq', hq, hkq, hrun⟩ | ⟨-, r, hr, hrun⟩ :=
    h.search hl ht (Nat.lt_of_le_of_lt (hshort ht hs) (show 2 ^ 23 < ROUNDS by decide))
  · obtain ⟨bs', x, t, htake, hlist, htile, hsize, hsz, hframe⟩ :=
      take_spec hl h ht hq' hq hk hkq
    exact ⟨_, t, bs', hrun.trans htake, hlist, hsz ▸ hs,
      Or.inr ⟨x, rfl, hsz ▸ htile, hsize⟩, hframe⟩
  · rw [hrun]
    obtain hfail | ⟨bs₁, t₁, hmore, hlist₁, htile₁, hphys₁, ⟨b, hb, hbk⟩, hframe₁⟩ :=
      morecore_spec hl h ht hroom hsmall
    · refine ⟨0, s, bs, ?_, h, hs, Or.inl ⟨rfl, ht⟩, fun _ _ => rfl⟩
      rw [more, bind_of_ok hfail]
      rfl
    · -- the second time around, the new block is large enough
      have hne : t₁.freep ≠ 0 := hlist₁.freep_ne_zero hl
      have haccf : Accessible t₁ t₁.freep := by
        rcases List.mem_cons.1 hlist₁.freep with heq | hmem
        · rw [heq]
          exact accessible_base hl htile₁
        · obtain ⟨c, hc, heq⟩ := List.mem_map.1 hmem
          rw [← heq]
          exact accessible_of_tiling htile₁ (List.mem_append_left _ hc)
      have hagain : more room k r s =
          mallocLoop room k r t₁.freep (t₁.next t₁.freep) t₁ := by
        rw [more, bind_of_ok hmore, if_neg hne, bind_of_ok (load_ok haccf)]
        rfl
      have hr₁ : bs₁.length < r := by
        have h1 := hshort htile₁ hphys₁
        have h2 := hshort ht hs
        simp only [ROUNDS] at hr
        omega
      obtain ⟨q', q, hq', hq, hkq, hrun₁⟩ | ⟨hno, -⟩ := hlist₁.search hl htile₁ hr₁
      · obtain ⟨bs', x, t, htake, hlist, htile, hsize, hsz, hframe⟩ :=
          take_spec hl hlist₁ htile₁ hq' hq hk hkq
        refine ⟨_, t, bs', (hagain.trans hrun₁).trans htake, hlist, hsz ▸ hphys₁,
          Or.inr ⟨x, rfl, hsz ▸ htile, hsize⟩, fun c hc => ?_⟩
        rw [hframe c hc, hframe₁ c hc]
      · exact absurd hbk (Nat.not_le_of_lt (hno b hb))

end Malloc

end Xv6.Umalloc
