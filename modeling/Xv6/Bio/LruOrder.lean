import Xv6.Bio.Lru

set_option autoImplicit false

/-! # The order of the buffers

The list holds each buffer once, the one that `brelse` has brought to 0 last in front. -/

namespace Xv6.Bio.Lru

open Xv6.Lib

variable {Pid : Type} {s t : State Pid} {l : List (Fin NBUF)} {i : Fin NBUF} {dev blockno : Uint}

/-- The buffers are in the list in the order `l`. -/
structure Inv (s : State Pid) (l : List (Fin NBUF)) : Prop where
  ring : Ring s.links .head (l.map .buf)
  all : ∀ i, i ∈ l
  sorted : l.Pairwise fun i j => s.dropped j ≤ s.dropped i
  le_now : ∀ i, s.dropped i ≤ s.now
  unique : ∀ i j, (s.buf i).dev ≠ 0 → (s.buf i).dev = (s.buf j).dev →
    (s.buf i).blockno = (s.buf j).blockno → i = j

theorem buf_injective : Function.Injective Node.buf := fun _ _ h => Node.buf.inj h

theorem Inv.nodup (h : Inv s l) : l.Nodup := (List.nodup_cons.1 h.ring.nodup).2.of_map _

theorem Inv.length (h : Inv s l) : l.length = NBUF := by
  have hperm : l.Perm (List.finRange NBUF) :=
    (List.perm_ext_iff_of_nodup h.nodup (List.nodup_finRange NBUF)).2 fun i =>
      iff_of_true (h.all i) (List.mem_finRange i)
  rw [hperm.length_eq, List.length_finRange]

/-- What a step does to the list and to the blocks decides whether the invariant holds. -/
theorem Inv.of_eq (h : Inv s l) (hlinks : t.links = s.links) (hdropped : t.dropped = s.dropped)
    (hnow : t.now = s.now) (hbuf : ∀ i, (t.buf i).dev = (s.buf i).dev ∧ (t.buf i).blockno = (s.buf i).blockno) :
    Inv t l where
  ring := hlinks ▸ h.ring
  all := h.all
  sorted := hdropped ▸ h.sorted
  le_now := hdropped ▸ hnow ▸ h.le_now
  unique := by
    intro i j
    rw [(hbuf i).1, (hbuf i).2, (hbuf j).1, (hbuf j).2]
    exact h.unique i j

/-- A change of the count does not change which block a buffer caches. -/
theorem set_refcnt (s : State Pid) (i j : Fin NBUF) (n : Uint) :
    ((s.set i { s.buf i with refcnt := n }).buf j).dev = (s.buf j).dev ∧
      ((s.set i { s.buf i with refcnt := n }).buf j).blockno = (s.buf j).blockno := by
  by_cases hj : j = i
  · subst hj
    simp [State.set]
  · simp [State.set, hj]

/-! ## `bget` -/

/-- `bget` finds the block, or recycles the buffer that has been 0 for longest, or panics. -/
theorem bget_cases (h : Inv s l) (dev blockno : Uint) :
    (∃ i, (s.buf i).dev = dev ∧ (s.buf i).blockno = blockno ∧
      bget s dev blockno = some (s.set i { s.buf i with refcnt := (s.buf i).refcnt + 1 }, some i)) ∨
    (∀ i, ¬ ((s.buf i).dev = dev ∧ (s.buf i).blockno = blockno)) ∧
      ((∃ i, (s.buf i).refcnt = 0 ∧ (∀ j, (s.buf j).refcnt = 0 → s.dropped i ≤ s.dropped j) ∧
        bget s dev blockno = some (s.set i ⟨dev, blockno, false, 1⟩, some i)) ∨
      (∀ j, (s.buf j).refcnt ≠ 0) ∧ bget s dev blockno = some ({ s with panicked := true }, none)) := by
  have hlen : (l.map Node.buf).length < NBUF + 1 := by
    rw [List.length_map, h.length]
    exact Nat.lt_succ_self _
  have hnext := h.ring.search_next (s.cached dev blockno) hlen
  have hprev := h.ring.search_prev s.unused hlen
  rw [List.find?_map] at hnext
  rw [← List.map_reverse, List.find?_map] at hprev
  unfold bget
  rw [hnext, hprev]
  cases hfound : l.find? (s.cached dev blockno ∘ Node.buf) with
  | some i =>
      have hi := List.find?_some hfound
      exact .inl ⟨i, (of_decide_eq_true hi).1, (of_decide_eq_true hi).2, rfl⟩
  | none =>
      have hmiss : ∀ i, ¬ ((s.buf i).dev = dev ∧ (s.buf i).blockno = blockno) := fun i hi =>
        List.find?_eq_none.1 hfound i (h.all i) (decide_eq_true hi)
      refine .inr ⟨hmiss, ?_⟩
      cases hfree : l.reverse.find? (s.unused ∘ Node.buf) with
      | some i =>
          obtain ⟨hi, as, bs, hsplit, has⟩ := List.find?_eq_some_iff_append.1 hfree
          refine .inl ⟨i, of_decide_eq_true hi, fun j hj => ?_, rfl⟩
          have hsorted : (as ++ i :: bs).Pairwise fun i j => s.dropped i ≤ s.dropped j := by
            rw [← hsplit]
            exact List.pairwise_reverse.2 h.sorted
          have hmem : j ∈ as ++ i :: bs := by
            rw [← hsplit]
            exact List.mem_reverse.2 (h.all j)
          -- the search has passed by all that come before `i`
          rcases List.mem_append.1 hmem with hjas | hj'
          · have := has j hjas
            simp [State.unused, hj] at this
          · rcases List.mem_cons.1 hj' with rfl | hjbs
            · exact Nat.le_refl _
            · exact (List.pairwise_cons.1 (List.pairwise_append.1 hsorted).2.1).1 j hjbs
      | none =>
          refine .inr ⟨fun j hj => ?_, rfl⟩
          exact List.find?_eq_none.1 hfree j (List.mem_reverse.2 (h.all j)) (decide_eq_true hj)

/-! ## The list -/

/-- The loop of `binit`. -/
theorem ring_pushFront {L : Links Node} {is l : List (Fin NBUF)} (h : Ring L .head (l.map .buf))
    (hnd : (is ++ l).Nodup) :
    Ring (is.foldl (fun L i => L.pushFront .head (.buf i)) L) .head ((is.reverse ++ l).map .buf) := by
  induction is generalizing L l with
  | nil => exact h
  | cons i is ih =>
      obtain ⟨hi, hnd'⟩ := List.nodup_cons.1 hnd
      have hmem : Node.buf i ∉ Node.head :: l.map .buf := by
        intro hm
        rcases List.mem_cons.1 hm with heq | hm
        · cases heq
        · exact hi (List.mem_append_right _ ((List.mem_map_of_injective buf_injective).1 hm))
      have hperm : (i :: (is ++ l)).Perm (is ++ i :: l) := List.perm_middle.symm
      have hrest : Ring (L.pushFront .head (.buf i)) .head ((i :: l).map .buf) := h.pushFront hmem
      have hgoal := ih hrest (hperm.nodup_iff.1 hnd)
      rw [List.reverse_cons, List.append_assoc]
      exact hgoal

theorem inv_binit (L : Links Node) : Inv (binit L : State Pid) (List.finRange NBUF).reverse where
  ring := by
    have hempty : Ring ⟨Function.update L.next .head .head, Function.update L.prev .head .head⟩
        Node.head (([] : List (Fin NBUF)).map .buf) := by
      have hself : ∀ f : Node → Node, Function.update f .head .head .head = .head := fun f =>
        Function.update_self ..
      exact ⟨List.nodup_singleton _, Visits.cons_cons.2 ⟨hself L.next, Visits.single _⟩,
        Visits.cons_cons.2 ⟨hself L.prev, Visits.single _⟩⟩
    have hnd : (List.finRange NBUF ++ []).Nodup := by
      rw [List.append_nil]
      exact List.nodup_finRange NBUF
    have hring := ring_pushFront hempty hnd
    rw [List.append_nil] at hring
    exact hring
  all := fun i => List.mem_reverse.2 (List.mem_finRange i)
  sorted := List.pairwise_of_forall fun _ _ => Nat.le_refl 0
  le_now := fun _ => Nat.le_refl 0
  unique := fun _ _ h => absurd rfl h

/-- What `brelse` does once it has the lock of the cache: the count goes down, and a buffer whose count
    becomes 0 moves to the front, from wherever in the list it was. -/
structure Drops (s t : State Pid) (i : Fin NBUF) : Prop where
  refcnt : (t.buf i).refcnt = (s.buf i).refcnt - 1
  others : ∀ j, j ≠ i → t.buf j = s.buf j
  zero : (t.buf i).refcnt = 0 → t.now = s.now + 1 ∧ t.dropped = Function.update s.dropped i t.now ∧
    ∀ l : List (Fin NBUF), Ring s.links .head (l.map .buf) → i ∈ l →
      Ring t.links .head ((i :: l.erase i).map .buf)
  pos : (t.buf i).refcnt ≠ 0 → t.links = s.links ∧ t.now = s.now ∧ t.dropped = s.dropped

theorem ring_moveFront {L : Links Node} (h : Ring L .head (l.map .buf)) (hi : i ∈ l) :
    Ring ((L.unlink (.buf i)).pushFront .head (.buf i)) .head ((i :: l.erase i).map .buf) := by
  obtain ⟨l₁, l₂, rfl⟩ := List.append_of_mem hi
  have hnd : (l₁ ++ i :: l₂).Nodup := (List.nodup_cons.1 h.nodup).2.of_map _
  obtain ⟨hout, -⟩ := List.nodup_cons.1 (List.nodup_middle.1 hnd)
  have herase : (l₁ ++ i :: l₂).erase i = l₁ ++ l₂ := by
    rw [List.erase_append_right _ fun hmem => hout (List.mem_append_left _ hmem), List.erase_cons_head]
  rw [List.map_append, List.map_cons] at h
  have hunlink := h.unlink
  rw [← List.map_append] at hunlink
  have hmem : Node.buf i ∉ Node.head :: (l₁ ++ l₂).map .buf := by
    intro hm
    rcases List.mem_cons.1 hm with heq | hm
    · cases heq
    · exact hout ((List.mem_map_of_injective buf_injective).1 hm)
  rw [herase]
  exact hunlink.pushFront hmem

theorem drops_bdrop (s : State Pid) (i : Fin NBUF) : Drops s (bdrop s i) i := by
  have hself : ((s.set i { s.buf i with refcnt := (s.buf i).refcnt - 1 }).buf i).refcnt =
      (s.buf i).refcnt - 1 := by
    simp only [State.set, Function.update_self]
  have hne : ∀ j, j ≠ i →
      (s.set i { s.buf i with refcnt := (s.buf i).refcnt - 1 }).buf j = s.buf j := fun j hj => by
    simp only [State.set, Function.update_of_ne hj]
  unfold Lru.bdrop
  dsimp only
  split
  case isTrue hzero =>
    refine ⟨hself, hne, fun _ => ⟨rfl, rfl, fun l hl hi => ring_moveFront hl hi⟩, fun h => ?_⟩
    exact absurd hzero h
  case isFalse hpos =>
    exact ⟨hself, hne, fun h => absurd h hpos, fun _ => ⟨rfl, rfl, rfl⟩⟩

theorem Drops.assigned (h : Drops s t i) (hkeep : (t.buf i).dev = (s.buf i).dev ∧
    (t.buf i).blockno = (s.buf i).blockno) (j : Fin NBUF) :
    (t.buf j).dev = (s.buf j).dev ∧ (t.buf j).blockno = (s.buf j).blockno := by
  by_cases hj : j = i
  · exact hj ▸ hkeep
  · rw [h.others j hj]
    exact ⟨rfl, rfl⟩

/-- The list stays in the order of the drops. -/
theorem Inv.drops (h : Inv s l) (hd : Drops s t i) (hkeep : (t.buf i).dev = (s.buf i).dev ∧
    (t.buf i).blockno = (s.buf i).blockno) : ∃ l', Inv t l' := by
  have hassigned := hd.assigned hkeep
  have hunique : ∀ j k, (t.buf j).dev ≠ 0 → (t.buf j).dev = (t.buf k).dev →
      (t.buf j).blockno = (t.buf k).blockno → j = k := by
    intro j k
    rw [(hassigned j).1, (hassigned j).2, (hassigned k).1, (hassigned k).2]
    exact h.unique j k
  by_cases hzero : (t.buf i).refcnt = 0
  · obtain ⟨hnow, hdropped, hring⟩ := hd.zero hzero
    have hne : ∀ j ∈ l.erase i, j ≠ i := fun j hj => (h.nodup.mem_erase_iff.1 hj).1
    refine ⟨i :: l.erase i, hring l h.ring (h.all i), fun j => ?_,
      List.pairwise_cons.2 ⟨fun j hj => ?_, ?_⟩, fun j => ?_, hunique⟩
    · by_cases hj : j = i
      · exact hj ▸ List.mem_cons_self
      · exact List.mem_cons_of_mem _ ((List.mem_erase_of_ne hj).2 (h.all j))
    · rw [hdropped, hnow, Function.update_self, Function.update_of_ne (hne j hj)]
      exact Nat.le_succ_of_le (h.le_now j)
    · refine (h.sorted.sublist List.erase_sublist).imp_of_mem fun hj hk hle => ?_
      rw [hdropped, Function.update_of_ne (hne _ hj), Function.update_of_ne (hne _ hk)]
      exact hle
    · rw [hdropped, hnow]
      by_cases hj : j = i
      · rw [hj, Function.update_self]
      · rw [Function.update_of_ne hj]
        exact Nat.le_succ_of_le (h.le_now j)
  · obtain ⟨hlinks, hnow, hdropped⟩ := hd.pos hzero
    exact ⟨l, h.of_eq hlinks hdropped hnow hassigned⟩

/-! ## Steps -/

theorem Inv.bget (h : Inv s l) {r : State Pid × Option (Fin NBUF)} (hr : bget s dev blockno = some r) :
    Inv r.1 l := by
  rcases bget_cases h dev blockno with
    ⟨i, -, -, heq⟩ | ⟨hmiss, ⟨i, -, -, heq⟩ | ⟨-, heq⟩⟩
  · cases heq.symm.trans hr
    exact h.of_eq rfl rfl rfl fun j => set_refcnt s i j _
  · cases heq.symm.trans hr
    refine ⟨h.ring, h.all, h.sorted, h.le_now, fun j k => ?_⟩
    -- no buffer has cached the block before
    by_cases hj : j = i
    · by_cases hk : k = i
      · exact fun _ _ _ => hj.trans hk.symm
      · subst hj
        intro _ hdev hblockno
        simp only [State.set, Function.update_self, Function.update_of_ne hk] at hdev hblockno
        exact absurd ⟨hdev.symm, hblockno.symm⟩ (hmiss k)
    · by_cases hk : k = i
      · subst hk
        intro _ hdev hblockno
        simp only [State.set, Function.update_self, Function.update_of_ne hj] at hdev hblockno
        exact absurd ⟨hdev, hblockno⟩ (hmiss j)
      · simp only [State.set, Function.update_of_ne hj, Function.update_of_ne hk]
        exact h.unique j k
  · cases heq.symm.trans hr
    exact h.of_eq rfl rfl rfl fun _ => ⟨rfl, rfl⟩

theorem bdrop_same (i j : Fin NBUF) :
    ((bdrop s i).buf j).dev = (s.buf j).dev ∧ ((bdrop s i).buf j).blockno = (s.buf j).blockno := by
  have hset := set_refcnt s i j ((s.buf i).refcnt - 1)
  unfold Lru.bdrop
  dsimp only
  split
  · exact hset
  · exact hset

/-- A buffer that is in use keeps its block. -/
theorem Inv.bget_assigned (h : Inv s l) {r : State Pid × Option (Fin NBUF)}
    (hr : Lru.bget s dev blockno = some r) {j : Fin NBUF} (hj : (s.buf j).refcnt ≠ 0) :
    (r.1.buf j).dev = (s.buf j).dev ∧ (r.1.buf j).blockno = (s.buf j).blockno := by
  rcases bget_cases h dev blockno with
    ⟨i, -, -, heq⟩ | ⟨hmiss, ⟨i, hi, -, heq⟩ | ⟨-, heq⟩⟩
  · cases heq.symm.trans hr
    exact set_refcnt s i j _
  · cases heq.symm.trans hr
    have hne : j ≠ i := by
      rintro rfl
      exact hj hi
    simp only [State.set, Function.update_of_ne hne, and_self]
  · cases heq.symm.trans hr
    exact ⟨rfl, rfl⟩

variable [DecidableEq Pid] {lb : Label Pid}

/-- What any step keeps. -/
structure Kept (s t : State Pid) : Prop where
  inv : ∃ l, Inv t l
  assigned : ∀ i, (s.buf i).refcnt ≠ 0 →
    (t.buf i).dev = (s.buf i).dev ∧ (t.buf i).blockno = (s.buf i).blockno

/-- By cases on the step: the list changes in `bdrop` only, and a buffer gets another block in
    `bget` only. -/
theorem Inv.step (h : Inv s l) (hstep : Lru.step s lb = some t) : Kept s t := by
  unfold Lru.step at hstep
  split at hstep
  · cases hstep
  · cases lb with
    | bget p dev blockno =>
        obtain ⟨-, hmap⟩ := Option.ite_none_right_eq_some.1 hstep
        obtain ⟨r, hr, rfl⟩ := Option.map_eq_some_iff.1 hmap
        have hinv := h.bget hr
        cases hfound : r.2 with
        | none => exact ⟨⟨l, hinv⟩, fun j hj => h.bget_assigned hr hj⟩
        | some i =>
            exact ⟨⟨l, hinv.of_eq rfl rfl rfl fun _ => ⟨rfl, rfl⟩⟩, fun j hj => h.bget_assigned hr hj⟩
    | acquiresleep p =>
        cases hcall : s.call p with
        | locking i =>
            simp only [hcall] at hstep
            obtain ⟨-, ⟨⟩⟩ := Option.ite_none_right_eq_some.1 hstep
            exact ⟨⟨l, h.of_eq rfl rfl rfl fun _ => ⟨rfl, rfl⟩⟩, fun _ _ => ⟨rfl, rfl⟩⟩
        | idle => simp [hcall] at hstep
        | dropping i => simp [hcall] at hstep
    | brelse p i =>
        obtain ⟨-, ⟨⟩⟩ := Option.ite_none_right_eq_some.1 hstep
        exact ⟨⟨l, h.of_eq rfl rfl rfl fun _ => ⟨rfl, rfl⟩⟩, fun _ _ => ⟨rfl, rfl⟩⟩
    | bdrop p =>
        cases hcall : s.call p with
        | dropping i =>
            simp only [hcall] at hstep
            cases hstep
            obtain ⟨l', hl'⟩ := h.drops (drops_bdrop s i) (bdrop_same i i)
            exact ⟨⟨l', hl'.of_eq rfl rfl rfl fun _ => ⟨rfl, rfl⟩⟩, fun j _ => bdrop_same i j⟩
        | idle => simp [hcall] at hstep
        | locking i => simp [hcall] at hstep
    | bpin i =>
        cases hstep
        exact ⟨⟨l, h.of_eq rfl rfl rfl fun j => set_refcnt s i j _⟩, fun j _ => set_refcnt s i j _⟩
    | bunpin i =>
        cases hstep
        exact ⟨⟨l, h.of_eq rfl rfl rfl fun j => set_refcnt s i j _⟩, fun j _ => set_refcnt s i j _⟩

/-! ## Every run -/

theorem step_bget_some {p : Pid} (hlive : s.panicked = false) (hidle : s.call p = .idle) (hdev : dev ≠ 0)
    (heq : bget s dev blockno = some (t, some i)) :
    step s (.bget p dev blockno) = some { t with call := Function.update t.call p (.locking i) } := by
  unfold Lru.step
  rw [hlive]
  refine (if_neg Bool.false_ne_true).trans ((if_pos ⟨hidle, hdev⟩).trans ?_)
  rw [heq]
  rfl

theorem step_bget_none {p : Pid} (hlive : s.panicked = false) (hidle : s.call p = .idle) (hdev : dev ≠ 0)
    (heq : bget s dev blockno = some (t, none)) : step s (.bget p dev blockno) = some t := by
  unfold Lru.step
  rw [hlive]
  refine (if_neg Bool.false_ne_true).trans ((if_pos ⟨hidle, hdev⟩).trans ?_)
  rw [heq]
  rfl

/-- The state after `bget` has recycled buffer `i`, called by `p`. -/
def recycled (s : State Pid) (p : Pid) (dev blockno : Uint) (i : Fin NBUF) : State Pid :=
  { s.set i ⟨dev, blockno, false, 1⟩ with call := Function.update s.call p (.locking i) }

theorem step_brelse {p : Pid} (hlive : s.panicked = false) (hidle : s.call p = .idle)
    (hlock : s.lock i = some p) : step s (.brelse p i) = some { s with
      lock := Function.update s.lock i none
      call := Function.update s.call p (.dropping i) } := by
  unfold Lru.step
  rw [hlive]
  exact (if_neg Bool.false_ne_true).trans (if_pos ⟨hidle, hlock⟩)

theorem step_bdrop {p : Pid} (hlive : s.panicked = false) (hcall : s.call p = .dropping i) :
    step s (.bdrop p) = some { bdrop s i with call := Function.update s.call p .idle } := by
  unfold Lru.step
  rw [hlive]
  refine (if_neg Bool.false_ne_true).trans ?_
  simp only [hcall]

/-- Nothing but `brelse` moves a buffer. -/
theorem step_order (hstep : step s lb = some t) (hlb : ∀ p, lb ≠ .bdrop p) :
    t.links = s.links ∧ t.now = s.now ∧ t.dropped = s.dropped := by
  unfold Lru.step at hstep
  split at hstep
  · cases hstep
  · cases lb with
    | bget p dev blockno =>
        obtain ⟨-, hmap⟩ := Option.ite_none_right_eq_some.1 hstep
        obtain ⟨r, hr, rfl⟩ := Option.map_eq_some_iff.1 hmap
        have hsame : r.1.links = s.links ∧ r.1.now = s.now ∧ r.1.dropped = s.dropped := by
          unfold bget at hr
          split at hr
          · cases hr
            exact ⟨rfl, rfl, rfl⟩
          · split at hr <;> cases hr <;> exact ⟨rfl, rfl, rfl⟩
          · cases hr
        cases hfound : r.2 with
        | none => exact hsame
        | some i => exact hsame
    | acquiresleep p =>
        cases hcall : s.call p with
        | locking i =>
            simp only [hcall] at hstep
            obtain ⟨-, ⟨⟩⟩ := Option.ite_none_right_eq_some.1 hstep
            exact ⟨rfl, rfl, rfl⟩
        | idle => simp [hcall] at hstep
        | dropping i => simp [hcall] at hstep
    | brelse p i =>
        obtain ⟨-, ⟨⟩⟩ := Option.ite_none_right_eq_some.1 hstep
        exact ⟨rfl, rfl, rfl⟩
    | bdrop p => exact absurd rfl (hlb p)
    | bpin i =>
        cases hstep
        exact ⟨rfl, rfl, rfl⟩
    | bunpin i =>
        cases hstep
        exact ⟨rfl, rfl, rfl⟩

/-- **The cache as a list.** After every run the list through `head` is circular in both directions and
    holds each buffer once, the one that `brelse` has brought to 0 last in front; a block is cached at most
    once; no step gives a buffer that is in use to another block; a call of `bget` that does not find its
    block recycles, among the buffers that are not in use, one that `brelse` has brought to 0 no later than
    any other of them; and `brelse` lowers the count of its buffer, moves it to the front when the count
    becomes 0, and is all that changes the order. -/
theorem cache_list (s : State Pid) (hs : Reachable step Init s) :
    (∃ l : List (Fin NBUF), l.Nodup ∧ (∀ i, i ∈ l) ∧ Ring s.links .head (l.map .buf) ∧
      l.Pairwise fun i j => s.dropped j ≤ s.dropped i) ∧
    (∀ i j, (s.buf i).dev ≠ 0 → (s.buf i).dev = (s.buf j).dev →
      (s.buf i).blockno = (s.buf j).blockno → i = j) ∧
    (∀ lb t, step s lb = some t → ∀ i, (s.buf i).refcnt ≠ 0 →
      (t.buf i).dev = (s.buf i).dev ∧ (t.buf i).blockno = (s.buf i).blockno) ∧
    (∀ p dev blockno, s.panicked = false → s.call p = .idle → dev ≠ 0 →
      (∀ i, ¬ ((s.buf i).dev = dev ∧ (s.buf i).blockno = blockno)) →
      (∃ i, (s.buf i).refcnt = 0 ∧ (∀ j, (s.buf j).refcnt = 0 → s.dropped i ≤ s.dropped j) ∧
        step s (.bget p dev blockno) = some (recycled s p dev blockno i)) ∨
      (∀ i, (s.buf i).refcnt ≠ 0) ∧
        step s (.bget p dev blockno) = some { s with panicked := true }) ∧
    (∀ p i, s.panicked = false → s.call p = .idle → s.lock i = some p →
      ∃ t, runSteps step s [.brelse p i, .bdrop p] = some t ∧ Drops s t i) ∧
    (∀ p i, s.panicked = false → s.call p = .dropping i →
      ∃ t, step s (.bdrop p) = some t ∧ Drops s t i) ∧
    ∀ lb t, step s lb = some t → (∀ p, lb ≠ .bdrop p) →
      t.links = s.links ∧ t.now = s.now ∧ t.dropped = s.dropped := by
  obtain ⟨l, h⟩ : ∃ l, Inv s l := by
    refine hs.invariant (I := fun s => ∃ l, Inv s l) ?_ ?_
    · rintro s ⟨L, rfl⟩
      exact ⟨(List.finRange NBUF).reverse, inv_binit L⟩
    · rintro s lb t ⟨l, h⟩ hstep
      exact (h.step hstep).inv
  refine ⟨⟨l, h.nodup, h.all, h.ring, h.sorted⟩, h.unique, fun lb t hstep => (h.step hstep).assigned, ?_,
    fun p i hlive hidle hlock => ?_, fun p i hlive hcall => ?_, fun lb t => step_order⟩
  · intro p dev blockno hlive hidle hdev hmiss
    rcases bget_cases h dev blockno with
      ⟨i, hd, hb, -⟩ | ⟨-, ⟨i, hi, hmin, heq⟩ | ⟨hnone, heq⟩⟩
    · exact absurd ⟨hd, hb⟩ (hmiss i)
    · exact .inl ⟨i, hi, hmin, step_bget_some hlive hidle hdev heq⟩
    · exact .inr ⟨hnone, step_bget_none hlive hidle hdev heq⟩
  · -- the sleep lock is given up first, which changes nothing that `Drops` is about
    let u : State Pid := { s with
      lock := Function.update s.lock i none
      call := Function.update s.call p (.dropping i) }
    have hcall : u.call p = .dropping i := Function.update_self ..
    obtain ⟨hrefcnt, hothers, hzero, hpos⟩ := drops_bdrop u i
    refine ⟨{ bdrop u i with call := Function.update u.call p .idle }, ?_, hrefcnt, hothers, hzero, hpos⟩
    rw [runSteps, step_brelse hlive hidle hlock, Option.bind_some, runSteps,
      step_bdrop (s := u) hlive hcall, Option.bind_some]
    rfl
  · obtain ⟨hrefcnt, hothers, hzero, hpos⟩ := drops_bdrop s i
    exact ⟨_, step_bdrop hlive hcall, hrefcnt, hothers, hzero, hpos⟩

/-! ## A run that recycles -/

def binitNull : State Unit := binit ⟨fun _ => .head, fun _ => .head⟩

/-- `bget` of as many blocks as there are buffers. -/
def bgets : List (Label Unit) :=
  (List.range NBUF).flatMap fun n => [.bget () 1 (BitVec.ofNat 32 n), .acquiresleep ()]

/-- `brelse` of buffer 3 and then of buffer 1. -/
def brelses : List (Label Unit) :=
  [.brelse () ⟨3, by decide⟩, .bdrop (), .brelse () ⟨1, by decide⟩, .bdrop ()]

/-- Every buffer is taken, and two are given back: buffer 3 is the one that has been given back first, and
    the next block that is not cached gets it. -/
theorem cache_list_recycles : ∃ s, runSteps step binitNull (bgets ++ brelses) = some s ∧
    (s.buf ⟨3, by decide⟩).blockno = 3 ∧ (∀ i, s.dropped i ≤ s.dropped ⟨1, by decide⟩) ∧
    step s (.bget () 1 99) = some (recycled s () 1 99 ⟨3, by decide⟩) ∧
    ∃ l : List (Fin NBUF), l.Nodup ∧ (∀ i, i ∈ l) ∧ Ring s.links .head (l.map .buf) ∧
      l.Pairwise fun i j => s.dropped j ≤ s.dropped i := by
  have hend : (runSteps step binitNull (bgets ++ brelses)).map (fun s => (s.panicked, s.call (),
      (List.finRange NBUF).map fun i => ((s.buf i).blockno, (s.buf i).refcnt, s.dropped i))) =
      some (false, .idle, (List.finRange NBUF).map fun i : Fin NBUF => (BitVec.ofNat 32 i,
        if i.val = 3 ∨ i.val = 1 then 0 else 1,
        if i.val = 3 then 1 else if i.val = 1 then 2 else 0)) := by
    decide +kernel
  obtain ⟨s, hrun, heq⟩ := Option.map_eq_some_iff.1 hend
  obtain ⟨hlive, hrest⟩ := Prod.mk.inj heq
  obtain ⟨hidle, hbufs⟩ := Prod.mk.inj hrest
  have hbuf : ∀ i : Fin NBUF, (s.buf i).blockno = BitVec.ofNat 32 i ∧
      (s.buf i).refcnt = (if i.val = 3 ∨ i.val = 1 then 0 else 1) ∧
      s.dropped i = if i.val = 3 then 1 else if i.val = 1 then 2 else 0 := fun i => by
    simpa only [Prod.mk.injEq] using List.map_inj_left.1 hbufs i (List.mem_finRange i)
  obtain ⟨hlist, -, -, hmiss, -⟩ := cache_list s ⟨binitNull, _, ⟨_, rfl⟩, hrun⟩
  refine ⟨s, hrun, (hbuf _).1, fun i => ?_, ?_, hlist⟩
  · rw [(hbuf i).2.2, (hbuf _).2.2]
    split
    · decide
    · split <;> decide
  · have hout : ∀ i, ¬ ((s.buf i).dev = 1 ∧ (s.buf i).blockno = 99) := by
      rintro i ⟨-, hi⟩
      rw [(hbuf i).1] at hi
      have hval := congrArg BitVec.toNat hi
      have hlt : i.val < 30 := i.isLt
      rw [BitVec.toNat_ofNat, Nat.mod_eq_of_lt (by omega)] at hval
      change i.val = 99 at hval
      omega
    rcases hmiss () 1 99 hlive hidle (by decide) hout with ⟨i, hi, hmin, hstep⟩ | ⟨hnone, -⟩
    · -- the counts leave buffers 1 and 3, and the drops leave 3
      have h3 := hmin ⟨3, by decide⟩ (hbuf _).2.1
      rw [(hbuf i).2.1] at hi
      rw [(hbuf i).2.2, (hbuf _).2.2] at h3
      have heq : i = ⟨3, by decide⟩ := by
        by_contra hne
        have hne' : i.val ≠ 3 := fun h => hne (Fin.ext h)
        by_cases h1 : i.val = 1
        · simp [h1] at h3
        · simp [hne', h1] at hi
      exact heq ▸ hstep
    · exact absurd (hbuf ⟨3, by decide⟩).2.1 (hnone _)

end Xv6.Bio.Lru
