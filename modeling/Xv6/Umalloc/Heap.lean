import Xv6.Umalloc.Malloc

set_option autoImplicit false

/-! # The heap of a process

As long as the process asks for fewer bytes than make the argument of `sbrk` wrap around, the free
blocks and the blocks it holds tile all memory that `sbrk` has given, and the bytes of a block it
holds are its own. -/

namespace Xv6.Umalloc

open Xv6.Lib

/-- A block the process holds, with its header. -/
def Live.block (l : Live) : Block := (l.p - HEADER, nunits l.n)

/-- What every step keeps. -/
structure Heap (base brk : Nat) (s : State) (bs : List Block) : Prop where
  phys : s.proc.sz ≤ PHYSMEM
  tiling : Tiling HEADER brk s.proc.sz (bs ++ s.live.map Live.block)
  header : ∀ l ∈ s.live, HEADER ≤ l.p
  sizes : ∀ l ∈ s.live, (s.proc.mem l.block.1).size = l.block.2
  list : s.proc.freep = 0 ∧ bs = [] ∧ s.live = [] ∨ FreeList base s.proc bs

/-- The headers of the heap. -/
def headers (base : Nat) (s : State) (bs : List Block) : List Nat :=
  base :: (bs ++ s.live.map Live.block).map Prod.fst

/-- What a process may rely on, and the state of the free list. -/
structure Sound (base brk : Nat) (s : State) (bs : List Block) : Prop where
  /-- A block is aligned, and between the first and the current break. -/
  inside : ∀ l ∈ s.live, l.p % HEADER = 0 ∧ brk ≤ l.p ∧ l.p + l.n.toNat ≤ s.proc.sz
  /-- Its bytes are in no other block, -/
  apart : s.live.Pairwise fun l m => l.p + l.n.toNat ≤ m.p ∨ m.p + m.n.toNat ≤ l.p
  /-- and in no header. -/
  clear : ∀ l ∈ s.live, ∀ x ∈ headers base s bs, x + HEADER ≤ l.p ∨ l.p + l.n.toNat ≤ x
  /-- The free list is circular, in the order of addresses, and no free block touches the next. -/
  list : s.proc.freep = 0 ∧ bs = [] ∨ FreeList base s.proc bs
  /-- The free blocks and the blocks held are all memory that `sbrk` has given. -/
  tiling : Tiling HEADER brk s.proc.sz (bs ++ s.live.map Live.block)

section Blocks

variable {base brk : Nat} {s : State} {bs : List Block}

theorem nunits_pos (n : Uint) : 0 < nunits n := Nat.succ_pos _

/-- The bytes of a block are in its units after the header. -/
theorem bytes_le (n : Uint) : HEADER + n.toNat ≤ HEADER * nunits n := by
  simp only [nunits, HEADER]
  omega

theorem Heap.mem_block {l : Live} (hl : l ∈ s.live) :
    l.block ∈ bs ++ s.live.map Live.block :=
  List.mem_append_right _ (List.mem_map_of_mem hl)

/-- Where the bytes of a block are. -/
theorem Heap.bytes (h : Heap base brk s bs) {l : Live} (hl : l ∈ s.live) :
    l.block.1 + HEADER = l.p ∧ l.p + l.n.toNat ≤ Block.fin HEADER l.block := by
  have hp := h.header l hl
  have hb := bytes_le l.n
  simp only [Live.block, Block.fin]
  omega

/-- Headers are outside the bytes of the blocks held. -/
theorem Heap.clear (hl : Layout base brk) (h : Heap base brk s bs) {l : Live} (hlive : l ∈ s.live)
    {x : Nat} (hx : x ∈ headers base s bs) : x + HEADER ≤ l.p ∨ l.p + l.n.toNat ≤ x := by
  obtain ⟨hp, hend⟩ := h.bytes hlive
  have hin := h.tiling.inside _ (Heap.mem_block hlive)
  rcases List.mem_cons.1 hx with rfl | hx
  · have := hl.below
    left
    omega
  · obtain ⟨b, hb, rfl⟩ := List.mem_map.1 hx
    by_cases heq : b = l.block
    · left
      rw [heq]
      omega
    · have hap := h.tiling.apart.forall hb (Heap.mem_block hlive) heq
      have hpos := (h.tiling.inside b hb).2.2.2
      simp only [Apart, Block.fin, HEADER] at hap hend hp ⊢
      omega

theorem Heap.sound (hl : Layout base brk) (h : Heap base brk s bs) : Sound base brk s bs where
  inside := by
    intro l hlive
    obtain ⟨hp, hend⟩ := h.bytes hlive
    obtain ⟨hlo, hhi, halign, -⟩ := h.tiling.inside _ (Heap.mem_block hlive)
    have hal := hl.aligned
    simp only [PGSIZE] at hal
    simp only [HEADER] at halign hp ⊢
    refine ⟨by omega, by omega, Nat.le_trans hend hhi⟩
  apart := by
    have hap := (List.pairwise_append.1 h.tiling.apart).2.1
    rw [List.pairwise_map] at hap
    refine hap.imp_of_mem fun {l m} hlm hmm hlm' => ?_
    obtain ⟨hp, hend⟩ := h.bytes hlm
    obtain ⟨hp', hend'⟩ := h.bytes hmm
    simp only [Apart] at hlm'
    omega
  clear := fun _ hlive _ hx => h.clear hl hlive hx
  list := h.list.imp_left fun h => ⟨h.1, h.2.1⟩
  tiling := h.tiling

end Blocks

/-! ## Steps -/

section Steps

variable {base brk : Nat} {s t : State} {bs : List Block}

/-- The requests for which `morecore` asks `sbrk` for the number of bytes it means to ask for. -/
def Small : Label → Prop
  | .malloc _ n => n.toNat ≤ 2 ^ 31 - 32
  | _ => True

/-- The process frees only blocks it holds, and is not larger than memory. -/
def Allowed (s : State) : Label → Prop
  | .malloc room _ => room ≤ PHYSMEM
  | .free l => l ∈ s.live
  | .write _ => True

theorem small_iff (n : Uint) : n.toNat ≤ 2 ^ 31 - 32 ↔ nunits n * HEADER < 2 ^ 31 := by
  simp only [nunits, HEADER]
  omega

/-- The first call makes a list without blocks. -/
theorem initList_spec (hl : Layout base brk) {p : Proc} (hp : brk ≤ p.sz) :
    ∃ t, initList base p = .ok (⟨⟩, t) ∧ FreeList base t [] ∧ t.sz = p.sz ∧
      ∀ x, x ≠ base → t.mem x = p.mem x := by
  have hacc : Accessible { p with freep := base } base := by
    have h1 := hl.below
    have h2 := le_PGROUNDUP p.sz
    simp only [Accessible]
    omega
  refine ⟨({ p with freep := base } : Proc).put base ⟨base, 0⟩, ?_, ?_, rfl, ?_⟩
  · have hfreep : setFreep base p = .ok (⟨⟩, { p with freep := base }) := rfl
    rw [initList, bind_of_ok hfreep, bind_of_ok (setPtr_ok hacc base), setSize_ok (hacc.put _),
      put_put, put_self]
  · constructor
    case circular =>
      exact Visits.cons_cons.2 ⟨congrArg Header.ptr (put_self ..), Visits.single base⟩
    case sizes =>
      exact fun b hb => absurd hb List.not_mem_nil
    case baseSize =>
      rw [put_self]
    case sorted =>
      exact List.Pairwise.nil
    case above =>
      exact fun b hb => absurd hb List.not_mem_nil
    case freep =>
      exact List.mem_cons_self ..
  · exact fun x hx => put_of_ne hx _

/-- The search of a call of `malloc`. -/
def search (room : Nat) (n : Uint) (p : Proc) : Except Fault (Nat × Proc) :=
  (load p.freep >>= fun h => mallocLoop room (nunits n) ROUNDS p.freep h.ptr) p

theorem malloc_first {p q : Proc} {room : Nat} {n : Uint} (hp : p.freep = 0)
    (hinit : initList base p = .ok (⟨⟩, q)) : malloc base room n p = search room n q := by
  have hget : (get : K Proc) p = .ok (p, p) := rfl
  rw [malloc, bind_of_ok hget]
  show (if p.freep = 0 then _ else _ : K Nat) p = _
  rw [if_pos hp, bind_of_ok hinit]
  rfl

theorem malloc_again {p : Proc} {room : Nat} {n : Uint} (hp : p.freep ≠ 0) :
    malloc base room n p = search room n p := by
  have hget : (get : K Proc) p = .ok (p, p) := rfl
  rw [malloc, bind_of_ok hget]
  show (if p.freep = 0 then _ else _ : K Nat) p = _
  rw [if_neg hp]
  rfl

theorem search_of_list {p : Proc} {room : Nat} {n : Uint} (hl : Layout base brk)
    (h : FreeList base p bs) {rest : List Block} (ht : Tiling HEADER brk p.sz (bs ++ rest)) :
    search room n p = mallocLoop room (nunits n) ROUNDS p.freep (p.next p.freep) p := by
  have hacc : Accessible p p.freep := by
    rcases List.mem_cons.1 h.freep with heq | hmem
    · rw [heq]
      exact accessible_base hl ht
    · obtain ⟨c, hc, heq⟩ := List.mem_map.1 hmem
      rw [← heq]
      exact accessible_of_tiling ht (List.mem_append_left _ hc)
  rw [search, bind_of_ok (load_ok hacc)]
  rfl

theorem Heap.malloc (hl : Layout base brk) (h : Heap base brk s bs) {room : Nat} {n : Uint}
    (hroom : room ≤ PHYSMEM) (hn : Small (.malloc room n)) :
    ∃ r t bs', malloc base room n s.proc = .ok (r, t) ∧
      Result base brk (nunits n) s.proc (s.live.map Live.block) r t bs' := by
  have hk := (small_iff n).1 hn
  obtain ⟨hzero, rfl, hlive⟩ | hlist := h.list
  · -- before the first call there is nothing
    have ht := h.tiling
    obtain ⟨p, hinit, hlist, hsz, hmem⟩ := initList_spec hl ht.lo_le
    rw [← hsz] at ht
    obtain ⟨r, t, bs', hrun, hres⟩ := mallocLoop_spec hl hlist ht (hsz ▸ h.phys) hroom
      (nunits_pos n) hk
    refine ⟨r, t, bs', ?_, hres.list, hres.phys, hres.block, fun b hb => ?_⟩
    · rw [malloc_first hzero hinit, search_of_list hl hlist ht]
      exact hrun
    · rw [hlive] at hb
      exact absurd hb List.not_mem_nil
  · obtain ⟨r, t, bs', hrun, hres⟩ := mallocLoop_spec hl hlist h.tiling h.phys hroom
      (nunits_pos n) hk
    refine ⟨r, t, bs', ?_, hres⟩
    rw [malloc_again (hlist.freep_ne_zero hl), search_of_list hl hlist h.tiling]
    exact hrun

/-- A call of `malloc` leaves a heap with the new block. -/
theorem Heap.of_result (h : Heap base brk s bs) {n : Uint} {r : Nat} {p : Proc}
    {bs' : List Block} (hres : Result base brk (nunits n) s.proc (s.live.map Live.block) r p bs') :
    Heap base brk ⟨p, if r = 0 then s.live else ⟨r, n⟩ :: s.live⟩ bs' := by
  have hsizes : ∀ l ∈ s.live, (p.mem l.block.1).size = l.block.2 := by
    intro l hlive
    rw [hres.frame _ (List.mem_map_of_mem hlive)]
    exact h.sizes l hlive
  obtain ⟨rfl, ht⟩ | ⟨q, rfl, ht, hq⟩ := hres.block
  · rw [if_pos rfl]
    exact ⟨hres.phys, ht, h.header, hsizes, Or.inr hres.list⟩
  · have hblock : Live.block ⟨q + HEADER, n⟩ = (q, nunits n) := by
      rw [Live.block, Nat.add_sub_cancel]
    rw [if_neg (show q + HEADER ≠ 0 from Nat.succ_ne_zero _)]
    refine ⟨hres.phys, ?_, ?_, ?_, Or.inr hres.list⟩
    · rw [List.map_cons, hblock]
      exact ht.perm List.perm_middle.symm
    · intro l hlive
      rcases List.mem_cons.1 hlive with rfl | hlive
      · exact Nat.le_add_left ..
      · exact h.header l hlive
    · intro l hlive
      rcases List.mem_cons.1 hlive with rfl | hlive
      · rw [hblock]
        exact hq
      · exact hsizes l hlive

/-- A call of `free` leaves a heap without the block. -/
theorem Heap.free (hl : Layout base brk) (h : Heap base brk s bs) {l : Live} (hlive : l ∈ s.live) :
    ∃ p bs', free l.p s.proc = .ok (⟨⟩, p) ∧ Heap base brk ⟨p, s.live.erase l⟩ bs' := by
  obtain ⟨-, -, hnil⟩ | hlist := h.list
  · rw [hnil] at hlive
    exact absurd hlive List.not_mem_nil
  have hperm : (bs ++ s.live.map Live.block).Perm
      (l.block :: (bs ++ (s.live.erase l).map Live.block)) :=
    (((List.perm_cons_erase hlive).map Live.block).append_left bs).trans List.perm_middle
  have ht := h.tiling.perm hperm
  obtain ⟨hp, -⟩ := h.bytes hlive
  obtain ⟨bs', p, hrun, hlist', ht', hsz, -, hframe⟩ :=
    free_spec hl hlist (h.sizes l hlive) ht h.phys
  rw [hp] at hrun
  refine ⟨p, bs', hrun, hsz ▸ h.phys, hsz ▸ ht', fun m hm => h.header m (List.mem_of_mem_erase hm),
    fun m hm => ?_, Or.inr hlist'⟩
  have hmem : m.block ∈ bs ++ (s.live.erase l).map Live.block :=
    List.mem_append_right _ (List.mem_map_of_mem hm)
  rw [hframe _ (headers_ne_of_tiling ht hmem)]
  · exact h.sizes m (List.mem_of_mem_erase hm)
  · intro hin
    rcases List.mem_cons.1 hin with hbase | hin
    · have h1 := hl.below
      have h2 := (ht.inside _ (List.mem_cons_of_mem _ hmem)).1
      simp only [HEADER] at h1
      omega
    · obtain ⟨b, hb, heq⟩ := List.mem_map.1 hin
      have hap := (List.pairwise_append.1 (List.pairwise_cons.1 ht.apart).2).2.2 b hb m.block
        (List.mem_map_of_mem hm)
      have h1 := (ht.inside _ (List.mem_cons_of_mem _ hmem)).2.2.2
      have h2 := (ht.inside b (List.mem_cons_of_mem _ (List.mem_append_left _ hb))).2.2.2
      simp only [Apart, Block.fin, HEADER] at hap
      omega

/-- Writing to blocks changes no header. -/
theorem Heap.write (hl : Layout base brk) (h : Heap base brk s bs) (mem : Nat → Header) :
    Heap base brk { s with proc := { s.proc with
      mem := fun a => if ∃ l ∈ s.live, l.Has a then mem a else s.proc.mem a } } bs := by
  have hsame : ∀ x ∈ headers base s bs,
      (if ∃ l ∈ s.live, l.Has x then mem x else s.proc.mem x) = s.proc.mem x := by
    intro x hx
    refine if_neg ?_
    rintro ⟨l, hlive, hlo, hhi⟩
    rcases h.clear hl hlive hx with hc | hc
    · simp only [HEADER] at hc
      omega
    · omega
  refine ⟨h.phys, h.tiling, h.header, fun l hlive => ?_, h.list.imp_right fun hlist => ?_⟩
  · refine (congrArg Header.size (hsame _ ?_)).trans (h.sizes l hlive)
    exact List.mem_cons_of_mem _ (List.mem_map_of_mem (Heap.mem_block hlive))
  · refine hlist.congr (fun x hx => hsame x ?_) rfl
    rcases List.mem_cons.1 hx with rfl | hx
    · exact List.mem_cons_self ..
    · obtain ⟨b, hb, rfl⟩ := List.mem_map.1 hx
      exact List.mem_cons_of_mem _ (List.mem_map_of_mem (List.mem_append_left _ hb))

/-- A process that may take a step is not killed by it, and keeps a heap. -/
theorem Heap.step_ok (hl : Layout base brk) (h : Heap base brk s bs) {l : Label} (hn : Small l)
    (ha : Allowed s l) : ∃ t bs', step base s l = some t ∧ Heap base brk t bs' := by
  cases l with
  | malloc room n =>
      obtain ⟨r, p, bs', hrun, hres⟩ := h.malloc hl ha hn
      refine ⟨_, bs', ?_, h.of_result hres⟩
      show (if _ then _ else _) = _
      rw [if_pos (show room ≤ PHYSMEM from ha), hrun]
      rfl
  | free l =>
      obtain ⟨p, bs', hrun, hheap⟩ := h.free hl ha
      refine ⟨_, bs', ?_, hheap⟩
      show (if _ then _ else _) = _
      rw [if_pos (show l ∈ s.live from ha), hrun]
      rfl
  | write mem => exact ⟨_, bs, rfl, h.write hl mem⟩

/-- Only allowed steps are taken. -/
theorem allowed_of_step {l : Label} (hstep : step base s l = some t) : Allowed s l := by
  cases l with
  | malloc room n => exact (Option.ite_none_right_eq_some.1 hstep).1
  | free l => exact (Option.ite_none_right_eq_some.1 hstep).1
  | write mem => trivial

theorem Heap.step (hl : Layout base brk) {l : Label} (h : ∃ bs, Heap base brk s bs) (hn : Small l)
    (hstep : step base s l = some t) : ∃ bs, Heap base brk t bs := by
  obtain ⟨bs, h⟩ := h
  obtain ⟨t', bs', ht', hheap⟩ := h.step_ok hl hn (allowed_of_step hstep)
  rw [hstep] at ht'
  exact ⟨bs', (Option.some.inj ht') ▸ hheap⟩

theorem heap_start {mem : Nat → Header} (hb : brk ≤ PHYSMEM) :
    Heap base brk (start mem brk) [] where
  phys := hb
  tiling := Tiling.nil HEADER brk
  header := fun _ hl => absurd hl List.not_mem_nil
  sizes := fun _ hl => absurd hl List.not_mem_nil
  list := Or.inl ⟨rfl, rfl, rfl⟩

/-- In every run whose requests are small, the blocks that a process holds are aligned, inside its
    memory and apart from each other and from all headers, the free list is in order, and its next
    request or call of `free` returns. -/
theorem heap_sound (hl : Layout base brk) (hb : brk ≤ PHYSMEM) (mem : Nat → Header)
    {ls : List Label}
    (hsmall : AllSteps (Umalloc.step base) (fun _ l => Small l) (start mem brk) ls)
    (hrun : runSteps (Umalloc.step base) (start mem brk) ls = some s) :
    ∃ bs, Sound base brk s bs ∧
      ∀ l, Small l → Allowed s l → ∃ t, Umalloc.step base s l = some t := by
  have hheap : ∃ bs, Heap base brk s bs :=
    runSteps_invariant_of_allSteps (I := fun s => ∃ bs, Heap base brk s bs)
      (fun _ _ _ h hn hstep => Heap.step hl h hn hstep) ⟨[], heap_start hb⟩ hsmall hrun
  obtain ⟨bs, h⟩ := hheap
  refine ⟨bs, h.sound hl, fun l hn ha => ?_⟩
  obtain ⟨t, -, ht, -⟩ := h.step_ok hl hn ha
  exact ⟨t, ht⟩

end Steps

/-- A block is taken from new memory, another is split off it, and the first is freed. -/
theorem heap_sound_three : ∃ s bs,
    runSteps (step 0x1000) (start (fun _ => ⟨0, 0⟩) 0x4000)
      [.malloc PHYSMEM 100, .malloc PHYSMEM 5000, .free ⟨0x13f90, 100⟩] = some s ∧
    s.live = [⟨0x12bf0, 5000⟩] ∧ Sound 0x1000 0x4000 s bs := by
  have hrun : (runSteps (step 0x1000) (start (fun _ => ⟨0, 0⟩) 0x4000)
      [.malloc PHYSMEM 100, .malloc PHYSMEM 5000, .free ⟨0x13f90, 100⟩]).map State.live =
      some [⟨0x12bf0, 5000⟩] := by
    decide +kernel
  obtain ⟨s, hs, hlive⟩ := Option.map_eq_some_iff.1 hrun
  have hsmall : AllSteps (step 0x1000) (fun _ l => Small l) (start (fun _ => ⟨0, 0⟩) 0x4000)
      [.malloc PHYSMEM 100, .malloc PHYSMEM 5000, .free ⟨0x13f90, 100⟩] :=
    ⟨show (100 : Uint).toNat ≤ 2 ^ 31 - 32 by decide, fun _ _ =>
      ⟨show (5000 : Uint).toNat ≤ 2 ^ 31 - 32 by decide, fun _ _ => ⟨trivial, fun _ _ => trivial⟩⟩⟩
  have hl : Layout 0x1000 0x4000 := ⟨by decide, by decide, by decide⟩
  obtain ⟨bs, hsound, -⟩ := heap_sound hl (by decide) (fun _ => ⟨0, 0⟩) hsmall hs
  exact ⟨s, bs, hs, hlive, hsound⟩

/-- For the largest request, `morecore` asks `sbrk` for 16 bytes. -/
theorem huge_block : ∃ s, runSteps (step 0x1000) (start (fun _ => ⟨0, 0⟩) 0x4000)
    [.malloc PHYSMEM 0xffffffff] = some s ∧ Layout 0x1000 0x4000 ∧
    ∃ l ∈ s.live, s.proc.sz < l.p + l.n.toNat := by
  have hrun : (runSteps (step 0x1000) (start (fun _ => ⟨0, 0⟩) 0x4000)
      [.malloc PHYSMEM 0xffffffff]).map (fun s => (s.live, s.proc.sz)) =
      some ([⟨0x4010, 0xffffffff⟩], 0x4010) := by
    decide +kernel
  obtain ⟨s, hs, hend⟩ := Option.map_eq_some_iff.1 hrun
  have hlive : s.live = [⟨0x4010, 0xffffffff⟩] := congrArg Prod.fst hend
  have hsz : s.proc.sz = 0x4010 := congrArg Prod.snd hend
  refine ⟨s, hs, ⟨by decide, by decide, by decide⟩, ⟨0x4010, 0xffffffff⟩, ?_, ?_⟩
  · rw [hlive]
    exact List.mem_singleton.2 rfl
  · rw [hsz]
    decide

end Xv6.Umalloc
