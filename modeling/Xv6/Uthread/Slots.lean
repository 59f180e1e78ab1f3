import Xv6.Uthread.Table

set_option autoImplicit false

/-! # The slots of the table

What each store changes, and that `thread_create` keeps inside of the table as long as a slot is `FREE`. -/

namespace Xv6.Uthread.Table

open Xv6.Lib

variable {I : Image} {mem : Mem} {i j t : Nat} {st : Uint} {w : Word} {s u : State}

/-! ## Layout -/

theorem stateOffset_eq : stateOffset = 8192 := by decide

theorem contextOffset_eq : contextOffset = 8200 := by decide

theorem sizeofThread_eq : sizeofThread = 8312 := by decide

theorem thread_zero : I.thread 0 = I.allThread := by
  rw [Image.thread, Nat.zero_mul, Nat.add_zero]

theorem thread_succ : I.thread i + sizeofThread = I.thread (i + 1) := by
  rw [Image.thread, Image.thread, Nat.succ_mul, Nat.add_assoc]

theorem thread_mono (h : i ≤ j) : I.thread i ≤ I.thread j :=
  Nat.add_le_add_left (Nat.mul_le_mul_right _ h) _

/-- Slots do not overlap. -/
theorem thread_add_le (h : i < j) : I.thread i + sizeofThread ≤ I.thread j := by
  rw [thread_succ]
  exact thread_mono h

theorem thread_lt_iff : I.thread i < I.thread j ↔ i < j := by
  constructor
  · intro h
    by_contra hle
    have := thread_mono (I := I) (Nat.le_of_not_lt hle)
    omega
  · intro h
    have := thread_add_le (I := I) h
    rw [sizeofThread_eq] at this
    omega

theorem thread_lt (h : i ≤ I.MAX_THREAD) : I.thread i + sizeofThread < 2 ^ 64 := by
  have hlast := thread_mono (I := I) (Nat.succ_le_succ h)
  have := I.allThread_lt
  rw [thread_succ]
  exact Nat.lt_of_le_of_lt hlast this

/-- `current_thread` does not lie where `state` and `context` of a slot are, or of the one behind
    the table. -/
theorem currentThread_apart (h : i ≤ I.MAX_THREAD) :
    I.currentThread + 8 ≤ I.thread i + stateOffset ∨ I.thread i + sizeofThread ≤ I.currentThread := by
  have hnear := I.near
  have hend := thread_mono (I := I) h
  rw [stateOffset_eq, sizeofThread_eq]
  rcases I.disjoint with hlo | hhi
  · have := thread_mono (I := I) (Nat.zero_le i)
    rw [thread_zero] at this
    omega
  · rcases Nat.lt_or_eq_of_le h with hlt | rfl
    · have := thread_add_le (I := I) hlt
      rw [sizeofThread_eq] at this
      unfold Image.thread at *
      omega
    · unfold Image.thread at *
      rw [STACK_SIZE] at hnear
      omega

/-! ## Stores -/

theorem state_setState (h : i ≠ j) :
    I.state (store mem (setState (I.thread j) st)) i = I.state mem i := by
  refine word_put_outside ?_
  rw [setState, length_toBytes]
  rcases Nat.lt_or_gt_of_ne h with hlt | hlt
  · have := thread_add_le (I := I) hlt
    rw [sizeofThread_eq] at this
    omega
  · have := thread_add_le (I := I) hlt
    rw [sizeofThread_eq] at this
    omega

theorem state_setContext {off : Nat} (hoff : off + 8 ≤ sizeofContext) :
    I.state (store mem (setContext (I.thread j) off w)) i = I.state mem i := by
  have hctx : sizeofContext = 112 := by decide
  refine word_put_outside ?_
  rw [setContext, length_toBytes]
  have hij := thread_add_le (I := I) (i := i) (j := j)
  have hji := thread_add_le (I := I) (i := j) (j := i)
  rcases Nat.lt_trichotomy i j with hlt | rfl | hlt
  · have := hij hlt
    rw [sizeofThread_eq, stateOffset_eq, contextOffset_eq] at *
    omega
  · rw [stateOffset_eq, contextOffset_eq]
    omega
  · have := hji hlt
    rw [sizeofThread_eq, stateOffset_eq, contextOffset_eq] at *
    omega

theorem state_setCurrent (h : i ≤ I.MAX_THREAD) :
    I.state (store mem (I.setCurrent t)) i = I.state mem i := by
  have := currentThread_apart h
  rw [sizeofThread_eq] at this
  refine word_put_outside ?_
  rw [Image.setCurrent, length_toBytes]
  rw [stateOffset_eq] at *
  omega

theorem current_setState (h : j ≤ I.MAX_THREAD) :
    I.current (store mem (setState (I.thread j) st)) = I.current mem := by
  have := currentThread_apart h
  rw [sizeofThread_eq, stateOffset_eq] at this
  refine congrArg BitVec.toNat (dword_put_outside ?_)
  rw [setState, length_toBytes, stateOffset_eq]
  omega

theorem current_setContext {off : Nat} (hoff : off + 8 ≤ sizeofContext) (h : j ≤ I.MAX_THREAD) :
    I.current (store mem (setContext (I.thread j) off w)) = I.current mem := by
  have hctx : sizeofContext = 112 := by decide
  have := currentThread_apart h
  rw [sizeofThread_eq, stateOffset_eq] at this
  refine congrArg BitVec.toNat (dword_put_outside ?_)
  rw [setContext, length_toBytes, contextOffset_eq]
  omega

theorem current_setCurrent (h : t < 2 ^ 64) : I.current (store mem (I.setCurrent t)) = t := by
  rw [Image.current, store, Image.setCurrent, dword_put_toBytes, BitVec.toNat_ofNat,
    Nat.mod_eq_of_lt h]

/-! ## `thread_create` -/

/-- The search stops at the first slot that is `FREE`, or behind the table. -/
theorem findFree_spec (n : Nat) (mem : Mem) (i : Nat) :
    ∃ j, i ≤ j ∧ j ≤ i + n ∧ findFree mem n (I.thread i) = I.thread j ∧
      (∀ k, i ≤ k → k < j → I.state mem k ≠ FREE) ∧ (j < i + n → I.state mem j = FREE) := by
  induction n generalizing i with
  | zero =>
      refine ⟨i, Nat.le_refl _, Nat.le_refl _, rfl, fun k hk hki => ?_, fun h => ?_⟩
      · omega
      · omega
  | succ n ih =>
      by_cases hfree : I.state mem i = FREE
      · refine ⟨i, Nat.le_refl _, Nat.le_add_right _ _, if_pos hfree, fun k hk hki => ?_, fun _ => hfree⟩
        omega
      · obtain ⟨j, hij, hjn, hfind, hbefore, hstop⟩ := ih (i + 1)
        refine ⟨j, by omega, by omega, ?_, fun k hk hkj => ?_, fun h => hstop (by omega)⟩
        · rw [← hfind, ← thread_succ]
          exact if_neg hfree
        · rcases Nat.eq_or_lt_of_le hk with rfl | hlt
          · exact hfree
          · exact hbefore k hlt hkj

theorem exists_findFree (mem : Mem) :
    ∃ j ≤ I.MAX_THREAD, findFree mem I.MAX_THREAD I.allThread = I.thread j ∧
      (∀ k < j, I.state mem k ≠ FREE) ∧ (j < I.MAX_THREAD → I.state mem j = FREE) := by
  obtain ⟨j, -, hj, hfind, hbefore, hstop⟩ := findFree_spec (I := I) I.MAX_THREAD mem 0
  rw [Nat.zero_add] at hj hstop
  rw [thread_zero] at hfind
  exact ⟨j, hj, hfind, fun k hk => hbefore k (Nat.zero_le _) hk, hstop⟩

/-- The store writes to `a`. -/
def Store.Writes (w : Store) (a : Nat) : Prop := w.1 ≤ a ∧ a < w.1 + w.2.length

/-- `a` is an address of slot `i`. -/
def Image.InSlot (I : Image) (i a : Nat) : Prop := I.thread i ≤ a ∧ a < I.thread i + sizeofThread

theorem storeList_of_not_writes {ws : List Store} {a : Nat} (h : ∀ w ∈ ws, ¬ w.Writes a) :
    storeList mem ws a = mem a := by
  induction ws generalizing mem with
  | nil => rfl
  | cons w ws ih =>
      have hw : ¬ w.Writes a := h w List.mem_cons_self
      have htail : storeList (store mem w) ws a = store mem w a :=
        ih fun w' hw' => h w' (List.mem_cons_of_mem _ hw')
      have hkeep : store mem w a = mem a := put_outside (by unfold Store.Writes at hw; omega)
      exact htail.trans hkeep

theorem createStores_inSlot {func : Word} (h : findFree mem I.MAX_THREAD I.allThread = I.thread j)
    {x : Store} (hx : x ∈ I.createStores mem func) {a : Nat} (ha : x.Writes a) : I.InSlot j a := by
  unfold Image.createStores at hx
  rw [h] at hx
  unfold Store.Writes at ha
  unfold Image.InSlot
  rw [sizeofThread_eq]
  rcases List.mem_cons.mp hx with rfl | hx
  · rw [setState, length_toBytes, stateOffset_eq] at ha
    omega
  · rcases List.mem_cons.mp hx with rfl | hx
    · rw [setContext, length_toBytes, contextOffset_eq] at ha
      omega
    · rw [List.mem_singleton.mp hx, setContext, length_toBytes, contextOffset_eq] at ha
      omega

/-- `thread_create` writes to slot `i` of the table and to nothing else. -/
structure Inside (I : Image) (s : State) (func : Word) (i : Nat) : Prop where
  lt : i < I.MAX_THREAD
  writes : ∀ x ∈ I.createStores s.mem func, ∀ a, x.Writes a → I.InSlot i a
  keeps : ∀ a, ¬ I.InSlot i a → (threadCreate I s func).mem a = s.mem a
  current : I.current (threadCreate I s func).mem = I.current s.mem

theorem threadCreate_inside {func : Word} (hj : j < I.MAX_THREAD)
    (hfind : findFree s.mem I.MAX_THREAD I.allThread = I.thread j) : Inside I s func j := by
  have hkeep : ∀ a, ¬ I.InSlot j a → (threadCreate I s func).mem a = s.mem a := fun a ha =>
    storeList_of_not_writes fun x hx hw => ha (createStores_inSlot hfind hx hw)
  refine ⟨hj, fun x hx a => createStores_inSlot hfind hx, hkeep, ?_⟩
  refine congrArg BitVec.toNat (dword_congr fun k hk => hkeep _ ?_)
  have hlo := thread_mono (I := I) (Nat.zero_le j)
  have hhi := thread_add_le (I := I) hj
  rw [thread_zero] at hlo
  unfold Image.InSlot
  rcases I.disjoint with h | h
  · omega
  · have hend : I.thread I.MAX_THREAD = I.allThread + I.MAX_THREAD * sizeofThread := rfl
    omega

/-- The slot it writes to is the one that the search has found. -/
theorem Inside.free {func : Word} (h : Inside I s func i) : I.state s.mem i = FREE := by
  obtain ⟨j, hj, hfind, -, hstop⟩ := exists_findFree (I := I) s.mem
  have hwrites : (setState (I.thread j) RUNNABLE).Writes (I.thread j + stateOffset) := by
    unfold Store.Writes
    rw [setState, length_toBytes]
    omega
  have hmem : setState (I.thread j) RUNNABLE ∈ I.createStores s.mem func := by
    unfold Image.createStores
    rw [hfind]
    exact List.mem_cons_self
  obtain ⟨hlo, hhi⟩ := h.writes _ hmem _ hwrites
  rw [sizeofThread_eq, stateOffset_eq] at *
  have hij : i = j := by
    rcases Nat.lt_trichotomy i j with hlt | heq | hlt
    · have := thread_add_le (I := I) hlt
      rw [sizeofThread_eq] at this
      omega
    · exact heq
    · have := thread_add_le (I := I) hlt
      rw [sizeofThread_eq] at this
      omega
  subst hij
  exact hstop h.lt

/-- A new thread finds a slot. -/
def HasFree (I : Image) (s : State) : Label → Prop
  | .threadCreate _ => ∃ i < I.MAX_THREAD, I.state s.mem i = FREE
  | _ => True

/-- `thread_create` keeps inside of one slot. -/
def CreatesInside (I : Image) (s : State) : Label → Prop
  | .threadCreate func => ∃ i, Inside I s func i
  | _ => True

/-- `thread_create` keeps inside of one slot, which was `FREE`. -/
def CreatesInFree (I : Image) (s : State) : Label → Prop
  | .threadCreate func => ∃ i, Inside I s func i ∧ I.state s.mem i = FREE
  | _ => True

theorem createsInside_iff (l : Label) : CreatesInside I s l ↔ HasFree I s l := by
  cases l with
  | threadCreate func =>
      constructor
      · rintro ⟨i, h⟩
        exact ⟨i, h.lt, h.free⟩
      · rintro ⟨i, hi, hfree⟩
        obtain ⟨j, -, hfind, hbefore, -⟩ := exists_findFree (I := I) s.mem
        have hji : j ≤ i := by
          by_contra hlt
          exact hbefore i (by omega) hfree
        exact ⟨j, threadCreate_inside (by omega) hfind⟩
  | _ => exact Iff.rfl

theorem createsInFree_iff (l : Label) : CreatesInFree I s l ↔ CreatesInside I s l := by
  cases l with
  | threadCreate func =>
      constructor
      · rintro ⟨i, h, -⟩
        exact ⟨i, h⟩
      · rintro ⟨i, h⟩
        exact ⟨i, h, h.free⟩
  | _ => exact Iff.rfl

/-- In the runs in which a slot is `FREE` whenever a thread is created, and in no others, each
    `thread_create` keeps inside of one slot of the table. That slot was `FREE`. -/
theorem thread_create_confined (I : Image) (s : State) (ls : List Label) :
    (AllSteps (step I) (CreatesInside I) s ls ↔ AllSteps (step I) (HasFree I) s ls) ∧
      (AllSteps (step I) (CreatesInFree I) s ls ↔ AllSteps (step I) (HasFree I) s ls) := by
  constructor
  · constructor
    · intro h
      exact h.mono fun _ l => (createsInside_iff l).mp
    · intro h
      exact h.mono fun _ l => (createsInside_iff l).mpr
  · constructor
    · intro h
      exact h.mono fun _ l hl => (createsInside_iff l).mp ((createsInFree_iff l).mp hl)
    · intro h
      exact h.mono fun _ l hl => (createsInFree_iff l).mpr ((createsInside_iff l).mpr hl)

theorem MAX_THREAD_pos : 0 < Uthread.MAX_THREAD := by decide

/-- The program as it is, with four slots. -/
def image : Image where
  MAX_THREAD := Uthread.MAX_THREAD
  allThread := 0x2000
  currentThread := 0x2000 + 4 * 8312
  MAX_THREAD_pos := MAX_THREAD_pos
  allThread_pos := by decide
  allThread_lt := by decide
  disjoint := by decide
  near := by decide

def atStart : State := ⟨threadInit image fun _ => 0, false⟩

theorem init_atStart : Init image atStart := ⟨fun _ => 0, fun _ _ _ => rfl, rfl⟩

/-- `main` creates three threads. -/
def threeThreads : List Label := [.threadCreate 0x50, .threadCreate 0x60, .threadCreate 0x70]

/-- The fourth thread is written behind the table. -/
theorem thread_create_behind : Init image atStart ∧ ∃ u,
    runSteps (step image) atStart threeThreads = some u ∧ (¬ ∃ i, Inside image u 0x80 i) ∧
      u.mem (image.thread 4 + stateOffset) = 0 ∧ (threadCreate image u 0x80).mem (image.thread 4 + stateOffset) = 2 := by
  obtain ⟨u, hu⟩ : ∃ u, runSteps (step image) atStart threeThreads = some u :=
    Option.isSome_iff_exists.1 (by decide +kernel)
  have hend : (runSteps (step image) atStart threeThreads).map (fun u =>
      (decide (∀ i < image.MAX_THREAD, image.state u.mem i ≠ FREE),
        u.mem (image.thread 4 + stateOffset),
        (threadCreate image u 0x80).mem (image.thread 4 + stateOffset))) = some (true, 0, 2) := by
    decide +kernel
  rw [hu, Option.map_some, Option.some.injEq, Prod.mk.injEq, Prod.mk.injEq] at hend
  obtain ⟨hfull, hbefore, hafter⟩ := hend
  refine ⟨init_atStart, u, hu, ?_, hbefore, hafter⟩
  rintro ⟨i, h⟩
  exact of_decide_eq_true hfull i h.lt h.free

end Xv6.Uthread.Table
