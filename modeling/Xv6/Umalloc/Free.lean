import Xv6.Umalloc.FreeList

set_option autoImplicit false

/-! # `free`

A block is put into the free list at its place, and joined to the free blocks that it touches. The
free blocks and the other blocks tile the same memory as before. -/

namespace Xv6.Umalloc

open Xv6.Lib

/-- `base` is below the heap, which starts with the first break. -/
structure Layout (base brk : Nat) : Prop where
  pos : 0 < base
  below : base + HEADER ≤ brk
  aligned : brk % PGSIZE = 0

theorem le_PGROUNDUP (sz : Nat) : sz ≤ PGROUNDUP sz := by
  simp only [PGROUNDUP, PGSIZE]
  omega

section Free

variable {base brk a u p : Nat} {s : Proc} {pre : List Nat} {lo hi rest : List Block}

/-- Blocks of the heap have headers that can be accessed. -/
theorem accessible_of_tiling {bs : List Block} (ht : Tiling HEADER brk s.sz bs) {b : Block}
    (hb : b ∈ bs) : Accessible s b.1 := by
  obtain ⟨-, hfin, -, hpos⟩ := ht.inside b hb
  have hle := le_PGROUNDUP s.sz
  simp only [Block.fin, HEADER] at hfin
  simp only [Accessible, HEADER]
  omega

theorem accessible_base {bs : List Block} (hl : Layout base brk)
    (ht : Tiling HEADER brk s.sz bs) : Accessible s base := by
  have h1 := hl.below
  have h2 := ht.lo_le
  have hle := le_PGROUNDUP s.sz
  simp only [Accessible]
  omega

/-- Blocks in memory have fewer units than wrap around in a `uint`. -/
theorem sum_small {b c : Block} {bs : List Block} (ht : Tiling HEADER brk s.sz (b :: c :: bs))
    (hs : s.sz ≤ PHYSMEM) : (b.2 + c.2) % 2 ^ 32 = b.2 + c.2 := by
  have htotal := ht.total
  simp only [List.map_cons, List.sum_cons, HEADER] at htotal
  simp only [PHYSMEM] at hs
  apply Nat.mod_eq_of_lt
  omega

theorem visits_cons {next : Nat → Nat} {x : Nat} {l : List Nat} (hl : Visits next l)
    (hx : ∀ y ∈ l.head?, next x = y) : Visits next (x :: l) :=
  List.IsChain.cons hl hx

/-- The upper neighbor becomes part of the block, or its successor. -/
theorem joinUpper_spec (hl : Layout base brk) (hp : Place base s a p pre lo hi)
    (h : FreeList base s (lo ++ hi)) (hu : (s.mem a).size = u)
    (ht : Tiling HEADER brk s.sz ((a, u) :: (lo ++ hi ++ rest))) (hs : s.sz ≤ PHYSMEM) :
    ∃ u' hi' hd, joinUpper a p s = .ok (⟨⟩, s.put a hd) ∧ hd.size = u' ∧ u ≤ u' ∧ hi' <:+ hi ∧
      Visits (s.put a hd).next (a :: (hi'.map Prod.fst ++ [base])) ∧
      ((a, u') :: hi').Pairwise (fun b c => Block.fin HEADER b < c.1) ∧
      Tiling HEADER brk s.sz ((a, u') :: (lo ++ hi' ++ rest)) := by
  have hacca : Accessible s a := accessible_of_tiling ht (List.mem_cons_self ..)
  have haccp : Accessible s p := by
    rcases List.mem_cons.1 hp.mem_headers with rfl | hmem
    · exact accessible_base hl ht
    · obtain ⟨b, hb, rfl⟩ := List.mem_map.1 hmem
      exact accessible_of_tiling ht (List.mem_cons_of_mem _ (List.mem_append_left _ hb))
  have hv := (hp.visits h).2
  have hsorted := (List.pairwise_append.1 h.sorted).2.1
  -- beyond the place, nothing changes
  have hvisits : ∀ (hd : Header) (hi' : List Block), hi' <:+ hi →
      Visits s.next (hi'.map Prod.fst ++ [base]) →
      Visits (s.put a hd).next (hi'.map Prod.fst ++ [base]) := by
    intro hd hi' hsuf hvi
    refine hvi.congr fun x hx => ?_
    obtain ⟨b, hb, rfl⟩ := List.mem_map.1 hx
    exact congrArg Header.ptr (put_of_ne (Nat.ne_of_gt (hp.beyond b (hsuf.subset hb))) hd)
  have hrun : joinUpper a p s = (if a + HEADER * u = s.next p then do
      let n ← load (s.next p)
      setSize a ((u + n.size) % 2 ^ 32)
      setPtr a n.ptr
    else setPtr a (s.next p) : K PUnit) s := by
    show (load p >>= _) s = _
    rw [bind_of_ok (load_ok haccp)]
    show (load a >>= _) s = _
    rw [bind_of_ok (load_ok hacca), hu]
    rfl
  by_cases hjoin : a + HEADER * u = s.next p
  · cases hi with
    | nil =>
        have hbase : s.next p = base := (Visits.cons_cons.1 hv).1
        have := hp.above
        omega
    | cons c hi' =>
        obtain ⟨n, t⟩ := c
        obtain ⟨hnext, hvn⟩ := Visits.cons_cons.1 hv
        have hn : a + HEADER * u = n := hjoin.trans hnext
        subst hn
        have hperm : ((a, u) :: (lo ++ (a + HEADER * u, t) :: hi' ++ rest)).Perm
            ((a, u) :: (a + HEADER * u, t) :: (lo ++ hi' ++ rest)) := by
          refine List.Perm.cons _ ?_
          rw [List.append_assoc, List.append_assoc, List.cons_append]
          exact List.perm_middle
        have htp := ht.perm hperm
        have hsize : (s.mem (a + HEADER * u)).size = t :=
          h.sizes (a + HEADER * u, t) (List.mem_append_right _ (List.mem_cons_self ..))
        have haccn : Accessible s (a + HEADER * u) :=
          accessible_of_tiling htp (List.mem_cons_of_mem _ (List.mem_cons_self ..))
        refine ⟨u + t, hi', ⟨s.next (a + HEADER * u), u + t⟩, ?_, rfl, Nat.le_add_right ..,
          List.suffix_cons .., ?_, ?_, htp.merge (by decide)⟩
        · rw [hrun, if_pos hjoin, hnext, bind_of_ok (load_ok haccn), hsize,
            sum_small htp hs, bind_of_ok (setSize_ok hacca _), setPtr_ok (hacca.put _)]
          simp only [put_self, put_put]
          rfl
        · refine visits_cons (hvisits _ hi' (List.suffix_cons ..) hvn.tail) fun y hy => ?_
          exact (congrArg Header.ptr (put_self s a _)).trans (hvn.rel_head? hy)
        · obtain ⟨hfirst, hrest⟩ := List.pairwise_cons.1 hsorted
          refine List.pairwise_cons.2 ⟨fun c hc => ?_, hrest⟩
          have := hfirst c hc
          simp only [Block.fin] at this ⊢
          rw [Nat.mul_add, ← Nat.add_assoc]
          exact this
  · refine ⟨u, hi, ⟨s.next p, u⟩, ?_, rfl, Nat.le_refl _, List.suffix_rfl, ?_, ?_, ht⟩
    · rw [hrun, if_neg hjoin, setPtr_ok hacca, hu]
    · refine visits_cons (hvisits _ hi List.suffix_rfl hv.tail) fun y hy => ?_
      exact (congrArg Header.ptr (put_self s a _)).trans (hv.rel_head? hy)
    · refine List.pairwise_cons.2 ⟨fun c hc => ?_, hsorted⟩
      have hgt := hp.beyond c hc
      have hap : Apart HEADER (a, u) c := by
        refine (List.pairwise_cons.1 ht.apart).1 c ?_
        rw [List.append_assoc]
        exact List.mem_append_right _ (List.mem_append_left _ hc)
      -- the first block beyond the place does not touch, and the others are farther
      have hne : Block.fin HEADER (a, u) ≠ c.1 := by
        intro heq
        cases hi with
        | nil => exact List.not_mem_nil hc
        | cons d hi =>
            have hnext : s.next p = d.1 := (Visits.cons_cons.1 hv).1
            rcases List.mem_cons.1 hc with rfl | hc
            · exact hjoin (heq.trans hnext.symm)
            · have hdc := (List.pairwise_cons.1 hsorted).1 c hc
              have had := hp.beyond d (List.mem_cons_self ..)
              have hapd : Apart HEADER (a, u) d := by
                refine (List.pairwise_cons.1 ht.apart).1 d ?_
                rw [List.append_assoc]
                exact List.mem_append_right _ (List.mem_append_left _ (List.mem_cons_self ..))
              simp only [Apart, Block.fin] at hapd hdc heq
              omega
      simp only [Apart, Block.fin] at hap hne ⊢
      omega

/-- The list goes to `p` as before, and from there through other headers. -/
theorem circular_of_tail {t : Proc} {bs tl : List Block} (hpre : Visits s.next (pre ++ [p]))
    (hsame : ∀ x ∈ pre, t.next x = s.next x)
    (htail : Visits t.next (p :: (tl.map Prod.fst ++ [base])))
    (hbs : base :: bs.map Prod.fst = pre ++ p :: tl.map Prod.fst) :
    Circular t.next base (bs.map Prod.fst) := by
  rw [Circular, hbs, List.append_assoc, List.cons_append]
  exact Visits.split.2 ⟨hpre.congr hsame, htail⟩

/-- The header at `p` has been given another successor or size, and is where the next call starts. -/
def Proc.relink (s : Proc) (p : Nat) (h : Header) : Proc := { s.put p h with freep := p }

theorem relink_self (s : Proc) (p : Nat) (h : Header) : (s.relink p h).mem p = h := put_self s p h

theorem relink_of_ne {x : Nat} (hx : x ≠ p) (h : Header) : (s.relink p h).mem x = s.mem x :=
  put_of_ne hx h

section Lower

variable {hi' : List Block} {hd : Header}

/-- Headers of free blocks other than those at `a` and `p` are as they were. -/
theorem relink_mem {x : Nat} (hx : x ≠ p) (hxa : x ≠ a)
    (h : Header) : ((s.put a hd).relink p h).mem x = s.mem x := by
  rw [relink_of_ne hx, put_of_ne hxa]

theorem Place.ne_of_mem (hp : Place base s a p pre lo hi) (hsuf : hi' <:+ hi) {b : Block}
    (hb : b ∈ hi') : b.1 ≠ p ∧ b.1 ≠ a := by
  have hgt := hp.beyond b (hsuf.subset hb)
  have hlt := hp.lt
  omega

/-- What comes after the block is as `joinUpper` has left it. -/
theorem visits_relink (hp : Place base s a p pre lo hi) (hsuf : hi' <:+ hi)
    (hv : Visits (s.put a hd).next (a :: (hi'.map Prod.fst ++ [base]))) (h : Header) :
    Visits ((s.put a hd).relink p h).next (a :: (hi'.map Prod.fst ++ [base])) := by
  rw [← List.cons_append] at hv ⊢
  refine hv.congr fun x hx => congrArg Header.ptr (relink_of_ne ?_ h)
  rcases List.mem_cons.1 hx with rfl | hx
  · exact Nat.ne_of_gt hp.lt
  · obtain ⟨b, hb, rfl⟩ := List.mem_map.1 hx
    exact (hp.ne_of_mem hsuf hb).1

/-- What comes before `p` is as it was. -/
theorem relink_before (hp : Place base s a p pre lo hi) (h : FreeList base s (lo ++ hi))
    {x : Nat} (hx : x ∈ pre) (hd' : Header) :
    ((s.put a hd).relink p hd').next x = s.next x := by
  have hsorted := h.headers_sorted
  rw [List.map_append, ← List.cons_append, hp.last] at hsorted
  have hlt : x < p := (List.pairwise_append.1 (List.pairwise_append.1 hsorted).1).2.2 x hx p
    (List.mem_singleton.2 rfl)
  have hxa := hp.mem_below (List.mem_append_left _ hx)
  exact congrArg Header.ptr (relink_mem (Nat.ne_of_lt hlt) (Nat.ne_of_lt hxa) hd')

/-- The block becomes the successor of `p`. -/
theorem FreeList.link (hp : Place base s a p pre lo hi) (h : FreeList base s (lo ++ hi))
    (hsuf : hi' <:+ hi) (hbase : base + HEADER ≤ a)
    (hv : Visits (s.put a hd).next (a :: (hi'.map Prod.fst ++ [base])))
    (hgap : ((a, hd.size) :: hi').Pairwise fun b c => Block.fin HEADER b < c.1)
    (hlow : ∀ b ∈ lo, Block.fin HEADER b < a) :
    FreeList base ((s.put a hd).relink p ⟨a, (s.mem p).size⟩) (lo ++ (a, hd.size) :: hi') := by
  obtain ⟨hlosorted, hhisorted, hcross⟩ := List.pairwise_append.1 h.sorted
  have hheaders : base :: (lo ++ (a, hd.size) :: hi').map Prod.fst =
      pre ++ p :: ((a, hd.size) :: hi').map Prod.fst := by
    rw [List.map_append, ← List.cons_append, hp.last, List.append_assoc]
    rfl
  constructor
  case circular =>
    refine circular_of_tail (hp.visits h).1 (fun x hx => relink_before hp h hx _) ?_ hheaders
    refine visits_cons (visits_relink hp hsuf hv _) fun y hy => ?_
    exact (congrArg Header.ptr (relink_self ..)).trans (Option.some.inj hy)
  case sizes =>
    intro b hb
    rcases List.mem_append.1 hb with hb | hb
    · have hsize := h.sizes b (List.mem_append_left _ hb)
      by_cases hbp : b.1 = p
      · rw [hbp, relink_self, ← hsize, hbp]
      · rw [relink_mem hbp (Nat.ne_of_lt (hp.below b hb)), hsize]
    · rcases List.mem_cons.1 hb with rfl | hb
      · rw [relink_of_ne (Nat.ne_of_gt hp.lt), put_self]
      · obtain ⟨hbp, hba⟩ := hp.ne_of_mem hsuf hb
        rw [relink_mem hbp hba]
        exact h.sizes b (List.mem_append_right _ (hsuf.subset hb))
  case baseSize =>
    by_cases hbp : base = p
    · rw [hbp, relink_self, ← hbp]
      exact h.baseSize
    · rw [relink_mem hbp (Nat.ne_of_lt hp.above)]
      exact h.baseSize
  case sorted =>
    refine List.pairwise_append.2 ⟨hlosorted, hgap, fun b hb c hc => ?_⟩
    rcases List.mem_cons.1 hc with rfl | hc
    · exact hlow b hb
    · exact hcross b hb c (hsuf.subset hc)
  case above =>
    intro b hb
    rcases List.mem_append.1 hb with hb | hb
    · exact h.above b (List.mem_append_left _ hb)
    · rcases List.mem_cons.1 hb with rfl | hb
      · exact hbase
      · exact h.above b (List.mem_append_right _ (hsuf.subset hb))
  case freep =>
    rw [hheaders]
    exact List.mem_append_right _ (List.mem_cons_self ..)

/-- The block becomes part of the free block at `p`. -/
theorem FreeList.absorb {lo' : List Block} {t : Nat}
    (hp : Place base s a p pre (lo' ++ [(p, t)]) hi)
    (h : FreeList base s (lo' ++ [(p, t)] ++ hi)) (hsuf : hi' <:+ hi)
    (hv : Visits (s.put a hd).next (a :: (hi'.map Prod.fst ++ [base])))
    (hgap : ((a, hd.size) :: hi').Pairwise fun b c => Block.fin HEADER b < c.1)
    (htouch : p + HEADER * t = a) :
    FreeList base ((s.put a hd).relink p ⟨hd.ptr, t + hd.size⟩)
      (lo' ++ (p, t + hd.size) :: hi') := by
  obtain ⟨hlosorted, hhisorted, hcross⟩ := List.pairwise_append.1 h.sorted
  obtain ⟨hlo', -, hlop⟩ := List.pairwise_append.1 hlosorted
  -- p is the last header before a, as the loop of free() left it
  have hpre : base :: lo'.map Prod.fst = pre := by
    have hlast := hp.last
    rw [List.map_append, ← List.cons_append] at hlast
    exact (List.append_inj' hlast rfl).1
  have hheaders : base :: (lo' ++ (p, t + hd.size) :: hi').map Prod.fst =
      pre ++ p :: hi'.map Prod.fst := by
    rw [List.map_append, ← List.cons_append, hpre]
    rfl
  have hpmem : (p, t) ∈ lo' ++ [(p, t)] ++ hi := by simp
  have hbelow : ∀ b ∈ lo', b.1 < p := by
    intro b hb
    have := hlop b hb (p, t) (List.mem_singleton.2 rfl)
    simp only [Block.fin] at this
    omega
  have hbp : base < p := by
    have := h.above (p, t) hpmem
    simp only [HEADER] at this
    omega
  constructor
  case circular =>
    -- the ring is as before up to p, and from p it goes where a would have gone
    refine circular_of_tail (hp.visits h).1 (fun x hx => relink_before hp h hx _) ?_ hheaders
    have htail := (visits_relink hp hsuf hv ⟨hd.ptr, t + hd.size⟩).tail
    refine visits_cons htail fun y hy => ?_
    have hya : (s.put a hd).next a = y := hv.rel_head? hy
    rw [← hya]
    exact (congrArg Header.ptr (relink_self ..)).trans (congrArg Header.ptr (put_self s a hd)).symm
  case sizes =>
    intro b hb
    rcases List.mem_append.1 hb with hb | hb
    · have hlt := hbelow b hb
      rw [relink_mem (Nat.ne_of_lt hlt) (Nat.ne_of_lt (Nat.lt_trans hlt hp.lt))]
      exact h.sizes b (by simp [hb])
    · rcases List.mem_cons.1 hb with rfl | hb
      · rw [relink_self]
      · obtain ⟨hbp, hba⟩ := hp.ne_of_mem hsuf hb
        rw [relink_mem hbp hba]
        exact h.sizes b (List.mem_append_right _ (hsuf.subset hb))
  case baseSize =>
    rw [relink_mem (Nat.ne_of_lt hbp) (Nat.ne_of_lt hp.above)]
    exact h.baseSize
  case sorted =>
    obtain ⟨hfirst, hrest⟩ := List.pairwise_cons.1 hgap
    refine List.pairwise_append.2 ⟨hlo', List.pairwise_cons.2 ⟨fun c hc => ?_, hrest⟩, ?_⟩
    · have := hfirst c hc
      simp only [Block.fin] at this ⊢
      rw [Nat.mul_add, ← Nat.add_assoc, htouch]
      exact this
    · intro b hb c hc
      rcases List.mem_cons.1 hc with rfl | hc
      · exact hlop b hb (p, t) (List.mem_singleton.2 rfl)
      · exact hcross b (List.mem_append_left _ hb) c (hsuf.subset hc)
  case above =>
    intro b hb
    rcases List.mem_append.1 hb with hb | hb
    · exact h.above b (by simp [hb])
    · rcases List.mem_cons.1 hb with rfl | hb
      · exact h.above (p, t) hpmem
      · exact h.above b (List.mem_append_right _ (hsuf.subset hb))
  case freep =>
    rw [hheaders]
    exact List.mem_append_right _ (List.mem_cons_self ..)

/-- The second half of `free`. -/
def freeLower (a p : Nat) : K PUnit := do
  joinLower a p
  setFreep p

theorem freeLower_link (hp : Place base s a p pre lo hi) (haccp : Accessible s p)
    (hno : p + HEADER * (s.mem p).size ≠ a) :
    freeLower a p (s.put a hd) = .ok (⟨⟩, (s.put a hd).relink p ⟨a, (s.mem p).size⟩) := by
  have hmem : (s.put a hd).mem p = s.mem p := put_of_ne (Nat.ne_of_lt hp.lt) hd
  have hrun : joinLower a p (s.put a hd) =
      .ok (⟨⟩, (s.put a hd).put p ⟨a, (s.mem p).size⟩) := by
    show (load p >>= _) (s.put a hd) = _
    rw [bind_of_ok (load_ok (haccp.put hd)), hmem, if_neg hno, setPtr_ok (haccp.put hd), hmem]
  rw [freeLower, bind_of_ok hrun]
  rfl

theorem freeLower_absorb (hp : Place base s a p pre lo hi) (haccp : Accessible s p)
    (hacca : Accessible s a) (htouch : p + HEADER * (s.mem p).size = a)
    (hsmall : ((s.mem p).size + hd.size) % 2 ^ 32 = (s.mem p).size + hd.size) :
    freeLower a p (s.put a hd) =
      .ok (⟨⟩, (s.put a hd).relink p ⟨hd.ptr, (s.mem p).size + hd.size⟩) := by
  have hmem : (s.put a hd).mem p = s.mem p := put_of_ne (Nat.ne_of_lt hp.lt) hd
  have hrun : joinLower a p (s.put a hd) =
      .ok (⟨⟩, (s.put a hd).put p ⟨hd.ptr, (s.mem p).size + hd.size⟩) := by
    show (load p >>= _) (s.put a hd) = _
    rw [bind_of_ok (load_ok (haccp.put hd)), hmem, if_pos htouch,
      bind_of_ok (load_ok (hacca.put hd)), put_self, hsmall,
      bind_of_ok (setSize_ok (haccp.put hd) _), setPtr_ok ((haccp.put hd).put _)]
    simp only [put_self, put_put]
  rw [freeLower, bind_of_ok hrun]
  rfl

end Lower

theorem Place.eq_base (hp : Place base s a p pre [] hi) : p = base := by
  have hlast : [] ++ [base] = pre ++ [p] := hp.last
  exact (List.singleton_inj.1 (List.append_inj' hlast rfl).2).symm

theorem Place.eq_last {lo' : List Block} {q t : Nat}
    (hp : Place base s a p pre (lo' ++ [(q, t)]) hi) : q = p := by
  have hlast := hp.last
  rw [List.map_append, ← List.cons_append] at hlast
  exact List.singleton_inj.1 (List.append_inj' hlast rfl).2

/-- Below the place, only the block at `p` could touch. -/
theorem Place.fin_lt (hp : Place base s a p pre lo hi) (h : FreeList base s (lo ++ hi))
    (hno : p + HEADER * (s.mem p).size ≠ a) {v : Nat} {b : Block} (hb : b ∈ lo)
    (hap : Apart HEADER (a, v) b) : Block.fin HEADER b < a := by
  have hlt := hp.below b hb
  have hne : Block.fin HEADER b ≠ a := by
    rcases List.eq_nil_or_concat lo with rfl | ⟨lo', c, rfl⟩
    · exact absurd hb List.not_mem_nil
    · obtain ⟨q, t⟩ := c
      rw [List.concat_eq_append] at hp h hb
      obtain rfl := hp.eq_last
      rcases List.mem_append.1 hb with hb | hb
      · have hbq := (List.pairwise_append.1 (List.pairwise_append.1 h.sorted).1).2.2 b hb (q, t)
          (List.mem_singleton.2 rfl)
        exact Nat.ne_of_lt (Nat.lt_trans hbq hp.lt)
      · obtain rfl := List.mem_singleton.1 hb
        have hsize : (s.mem q).size = t := h.sizes (q, t) (by simp)
        rwa [hsize] at hno
  simp only [Apart, Block.fin] at hap hne ⊢
  omega

theorem headers_ne_of_tiling {bs : List Block} (ht : Tiling HEADER brk s.sz ((a, u) :: bs))
    {b : Block} (hb : b ∈ bs) : b.1 ≠ a := by
  have hap := (List.pairwise_cons.1 ht.apart).1 b hb
  have hpos := (ht.inside (a, u) (List.mem_cons_self ..)).2.2.2
  have hposb := (ht.inside b (List.mem_cons_of_mem _ hb)).2.2.2
  simp only [Apart, Block.fin, HEADER] at hap
  omega

/-- `free` gives a block to the free list. -/
theorem free_spec {bs : List Block} (hl : Layout base brk) (h : FreeList base s bs)
    (hu : (s.mem a).size = u) (ht : Tiling HEADER brk s.sz ((a, u) :: (bs ++ rest)))
    (hs : s.sz ≤ PHYSMEM) :
    ∃ bs' t, free (a + HEADER) s = .ok (⟨⟩, t) ∧ FreeList base t bs' ∧
      Tiling HEADER brk s.sz (bs' ++ rest) ∧ t.sz = s.sz ∧ (∃ b ∈ bs', u ≤ b.2) ∧
      ∀ x, x ≠ a → x ∉ base :: bs.map Prod.fst → t.mem x = s.mem x := by
  have hacca : Accessible s a := accessible_of_tiling ht (List.mem_cons_self ..)
  have hacc : ∀ y ∈ base :: bs.map Prod.fst, Accessible s y := by
    intro y hy
    rcases List.mem_cons.1 hy with rfl | hy
    · exact accessible_base hl ht
    · obtain ⟨b, hb, rfl⟩ := List.mem_map.1 hy
      exact accessible_of_tiling ht (List.mem_cons_of_mem _ (List.mem_append_left _ hb))
  have hbase : base + HEADER ≤ a :=
    Nat.le_trans hl.below (ht.inside (a, u) (List.mem_cons_self ..)).1
  have hlen : bs.length < ROUNDS := by
    have hle := ht.length_le
    simp only [List.length_cons, List.length_append, HEADER] at hle
    simp only [PHYSMEM] at hs
    simp only [ROUNDS]
    omega
  obtain ⟨p, pre, lo, hi, rfl, hp⟩ := exists_place (a := a) h
    (by simp only [HEADER] at hbase; omega)
    fun b hb => headers_ne_of_tiling ht (List.mem_append_left _ hb)
  have haccp := hacc p hp.mem_headers
  obtain ⟨v, hi', hd, hupper, rfl, huv, hsuf, hv, hgap, ht'⟩ := joinUpper_spec hl hp h hu ht hs
  have hrun : ∀ t, freeLower a p (s.put a hd) = .ok (⟨⟩, t) → free (a + HEADER) s = .ok (⟨⟩, t) := by
    intro t hlower
    have hparts : free (a + HEADER) s = (freeLoop (a + HEADER - HEADER) ROUNDS s.freep >>= fun p =>
        joinUpper (a + HEADER - HEADER) p >>= fun _ => freeLower (a + HEADER - HEADER) p) s := rfl
    rw [hparts, Nat.add_sub_cancel, bind_of_ok (hp.freeLoop h hacc hlen), bind_of_ok hupper]
    exact hlower
  have hframe : ∀ (hd' : Header) (x : Nat), x ≠ a → x ∉ base :: (lo ++ hi).map Prod.fst →
      ((s.put a hd).relink p hd').mem x = s.mem x := fun hd' x hxa hx =>
    relink_mem (ne_of_mem_of_not_mem hp.mem_headers hx).symm hxa hd'
  by_cases htouch : p + HEADER * (s.mem p).size = a
  · -- a header that touches the block is not `base`
    rcases List.eq_nil_or_concat lo with rfl | ⟨lo', b, rfl⟩
    · rw [hp.eq_base, h.baseSize] at htouch
      have := hp.above
      omega
    · obtain ⟨q, t⟩ := b
      rw [List.concat_eq_append] at hp h ht' hacc hframe
      obtain rfl := hp.eq_last
      rw [List.concat_eq_append]
      have hsize : (s.mem q).size = t := h.sizes (q, t) (by simp)
      rw [hsize] at htouch
      have hperm : ((a, hd.size) :: (lo' ++ [(q, t)] ++ hi' ++ rest)).Perm
          ((q, t) :: (a, hd.size) :: (lo' ++ hi' ++ rest)) := by
        refine List.Perm.trans (List.Perm.cons _ ?_) (List.Perm.swap ..)
        simp only [List.append_assoc, List.cons_append, List.nil_append]
        exact List.perm_middle
      have htp := ht'.perm hperm
      have hsmall := sum_small htp hs
      refine ⟨lo' ++ (q, t + hd.size) :: hi', _, hrun _ (freeLower_absorb hp haccp hacca
        (hsize.symm ▸ htouch) (hsize.symm ▸ hsmall)), ?_, ?_, rfl, ?_, hframe _⟩
      · rw [hsize]
        exact FreeList.absorb hp h hsuf hv hgap htouch
      · rw [← htouch] at htp
        refine (htp.merge (by decide)).perm ?_
        simp only [List.append_assoc, List.cons_append]
        exact List.perm_middle.symm
      · exact ⟨(q, t + hd.size), List.mem_append_right _ (List.mem_cons_self ..),
          Nat.le_trans huv (Nat.le_add_left ..)⟩
  · refine ⟨lo ++ (a, hd.size) :: hi', _, hrun _ (freeLower_link hp haccp htouch), ?_, ?_, rfl,
      ⟨(a, hd.size), List.mem_append_right _ (List.mem_cons_self ..), huv⟩, hframe _⟩
    · refine FreeList.link hp h hsuf hbase hv hgap fun b hb => ?_
      have hb' : b ∈ lo ++ hi' ++ rest := List.mem_append_left _ (List.mem_append_left _ hb)
      exact hp.fin_lt h htouch hb ((List.pairwise_cons.1 ht'.apart).1 b hb')
    · refine ht'.perm ?_
      simp only [List.append_assoc, List.cons_append]
      exact List.perm_middle.symm

end Free

end Xv6.Umalloc
