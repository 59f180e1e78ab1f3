import Xv6.Uthread.Switch

set_option autoImplicit false

/-! # Contexts are preserved

A thread that is switched out has its registers in its context and those of the caller of
`thread_schedule` in the frame on its stack. Nobody else writes to either: stacks and contexts of
different slots do not overlap. So `thread_schedule` returns where it was called, with the registers it
was called with. -/

namespace Xv6.Uthread

open Xv6.Lib

variable {I : Image} {s t : State} {i j : Slot}

/-! ## The layout -/

theorem contextOffset_eq : contextOffset = 8200 := by decide

theorem sizeofThread_eq : sizeofThread = 8312 := by decide

theorem sizeofContext_eq : sizeofContext = 112 := by decide

theorem contextLayout_range {r : Reg} {off : Nat} (h : (r, off) ∈ contextLayout) :
    off % 8 = 0 ∧ off + 8 ≤ sizeofContext := by
  have hall : ∀ p ∈ contextLayout, p.2 % 8 = 0 ∧ p.2 + 8 ≤ sizeofContext := by decide
  exact hall _ h

theorem contextLayout_regs : (contextLayout.map Prod.fst).Nodup := by decide

theorem contextLayout_offsets : (contextLayout.map Prod.snd).Nodup := by decide

theorem mem_contextLayout {r : Reg} (h : r ∈ threadContext) : ∃ off, (r, off) ∈ contextLayout := by
  have hall : ∀ r ∈ threadContext, ∃ p ∈ contextLayout, p.1 = r := by decide
  obtain ⟨p, hp, rfl⟩ := hall r h
  exact ⟨p.2, hp⟩

theorem runInstrs_append (m : Machine) (code code' : List Instr) :
    runInstrs m (code ++ code') = runInstrs (runInstrs m code) code' := List.foldl_append ..

theorem runInstrs_stores (m : Machine) (base : Reg) (l : List (Reg × Nat)) :
    runInstrs m (l.map fun p => Instr.sd p.1 p.2 base) =
      { m with mem := storeAll m.regs (m.regs base).toNat l m.mem } := by
  induction l generalizing m with
  | nil => rfl
  | cons p l ih =>
      obtain ⟨r, off⟩ := p
      exact ih _

theorem runInstrs_loads (m : Machine) (base : Reg) (l : List (Reg × Nat))
    (hbase : ∀ off, (base, off) ∉ l) :
    runInstrs m (l.map fun p => Instr.ld p.1 p.2 base) =
      { m with regs := loadAll m.mem (m.regs base).toNat l m.regs } := by
  induction l generalizing m with
  | nil => rfl
  | cons p l ih =>
      obtain ⟨r, off⟩ := p
      have hne : base ≠ r := by
        rintro rfl
        exact hbase off (List.mem_cons_self ..)
      have hrest := ih (Instr.exec m (.ld r off base))
        fun off' hmem => hbase off' (List.mem_cons_of_mem _ hmem)
      rw [List.map_cons]
      refine hrest.trans ?_
      simp only [Instr.exec, loadAll, Function.update_of_ne hne]

theorem threadSwitch_eq : threadSwitch = (contextLayout.map fun p => Instr.sd p.1 p.2 .a0) ++
    (contextLayout.map fun p => Instr.ld p.1 p.2 .a1) ++ [.ret] := by decide

/-- The instructions save and restore the fields of `struct thread_context`, at their offsets. -/
theorem threadSwitch_spec (m : Machine) (regs : Reg → Word) (mem : Nat → Word)
    (hmem : mem = storeAll m.regs (m.regs .a0).toNat contextLayout m.mem)
    (hregs : regs = loadAll mem (m.regs .a1).toNat contextLayout m.regs) :
    runInstrs m threadSwitch = ⟨regs, regs .ra, mem⟩ := by
  have ha1 : ∀ off, (Reg.a1, off) ∉ contextLayout := by
    intro off h
    have hall : ∀ p ∈ contextLayout, p.1 ≠ .a1 := by decide
    exact hall _ h rfl
  rw [threadSwitch_eq, runInstrs_append, runInstrs_append, runInstrs_stores,
    runInstrs_loads _ _ _ ha1, hregs, hmem]
  rfl

/-- `all_thread[i].context` -/
def Image.contextRegion (I : Image) (i : Slot) : Region := ⟨I.context i, I.context i + sizeofContext⟩

def Region.disjoint (r r' : Region) : Prop := r.hi ≤ r'.lo ∨ r'.hi ≤ r.lo

theorem Region.disjoint.ne {r r' : Region} (h : r.disjoint r') {a b : Nat} (ha : r.holds a)
    (hb : r'.holds b) : a ≠ b := by
  unfold Region.disjoint at h
  unfold Region.holds at ha hb
  omega

theorem Image.thread_bounds (I : Image) (i : Slot) :
    I.allThread ≤ I.thread i ∧ I.thread i + 8312 ≤ I.allThread + 33248 := by
  have hi := i.isLt
  unfold Image.thread MAX_THREAD at *
  rw [sizeofThread_eq]
  omega

theorem Image.thread_apart (I : Image) (h : i ≠ j) :
    I.thread i + 8312 ≤ I.thread j ∨ I.thread j + 8312 ≤ I.thread i := by
  have hne : i.val ≠ j.val := fun heq => h (Fin.ext heq)
  unfold Image.thread
  rw [sizeofThread_eq]
  omega

theorem Image.ustack_apart (I : Image) (i : Slot) :
    I.ustack.hi ≤ I.thread i ∨ I.thread i + 8312 ≤ I.ustack.lo := by
  have hbounds := I.thread_bounds i
  have hdisjoint := I.ustack_disjoint
  rw [sizeofThread_eq, show MAX_THREAD = 4 from rfl] at hdisjoint
  omega

/-- The stack of a thread is that of its slot, or that of `main`. -/
def StackOf (I : Image) (i : Slot) (r : Region) : Prop := r = I.stack i ∨ (i.val = 0 ∧ r = I.ustack)

theorem StackOf.disjoint {r r' : Region} (h : StackOf I i r) (h' : StackOf I j r') (hne : i ≠ j) :
    r.disjoint r' := by
  have happart := I.thread_apart hne
  have hi := I.ustack_apart i
  have hj := I.ustack_apart j
  unfold Region.disjoint
  rcases h with rfl | ⟨hi0, rfl⟩ <;> rcases h' with rfl | ⟨hj0, rfl⟩
  · simp only [Image.stack, STACK_SIZE]
    omega
  · simp only [Image.stack, STACK_SIZE]
    omega
  · simp only [Image.stack, STACK_SIZE]
    omega
  · exact absurd (Fin.ext (hi0.trans hj0.symm)) hne

theorem StackOf.disjoint_context {r : Region} (h : StackOf I i r) (j : Slot) :
    r.disjoint (I.contextRegion j) := by
  have hj := I.ustack_apart j
  unfold Region.disjoint Image.contextRegion Image.context
  rw [contextOffset_eq, sizeofContext_eq]
  rcases h with rfl | ⟨-, rfl⟩
  · by_cases hne : i = j
    · subst hne
      simp only [Image.stack, STACK_SIZE]
      omega
    · have happart := I.thread_apart hne
      simp only [Image.stack, STACK_SIZE]
      omega
  · simp only
    omega

theorem Image.context_disjoint (I : Image) (h : i ≠ j) :
    (I.contextRegion i).disjoint (I.contextRegion j) := by
  have happart := I.thread_apart h
  unfold Region.disjoint Image.contextRegion Image.context
  rw [contextOffset_eq, sizeofContext_eq]
  simp only
  omega

theorem Image.thread_align (I : Image) (i : Slot) : I.thread i % 8 = 0 := by
  have halign := I.allThread_align
  unfold Image.thread
  rw [sizeofThread_eq]
  omega

/-- The fields of a context lie in it. -/
theorem Image.context_holds (I : Image) (i : Slot) {r : Reg} {off : Nat}
    (h : (r, off) ∈ contextLayout) : (I.contextRegion i).holds (I.context i + off) := by
  obtain ⟨halign, hle⟩ := contextLayout_range h
  have hthread := I.thread_align i
  unfold Region.holds Image.contextRegion Image.context at *
  rw [contextOffset_eq]
  simp only
  omega

theorem Image.context_toNat (I : Image) (i : Slot) :
    (BitVec.ofNat 64 (I.context i)).toNat = I.context i := by
  have hbounds := I.thread_bounds i
  have hle := I.allThread_le
  rw [sizeofThread_eq, show MAX_THREAD = 4 from rfl] at hle
  rw [BitVec.toNat_ofNat]
  refine Nat.mod_eq_of_lt ?_
  unfold Image.context
  rw [contextOffset_eq]
  omega

/-! ## A thread in `thread_schedule` -/

/-- The thread with this stack has called `thread_schedule` with `caller`, and goes on in it with `regs`. -/
structure Suspended (I : Image) (mem : Nat → Word) (stk : Region) (caller regs : Reg → Word) :
    Prop where
  low : stk.lo + I.frame ≤ (caller .sp).toNat
  high : (caller .sp).toNat ≤ stk.hi
  align : (caller .sp).toNat % 8 = 0
  ra : caller .ra ≠ I.after
  sp : regs .sp = caller .sp - BitVec.ofNat 64 I.frame
  kept : ∀ r ∈ threadContext, r ≠ .sp → r ∉ I.layout.map Prod.fst → regs r = caller r
  frame : ∀ r off, (r, off) ∈ I.layout → mem ((regs .sp).toNat + off) = caller r

theorem sp_toNat {sp : Word} (h : I.frame ≤ sp.toNat) :
    (sp - BitVec.ofNat 64 I.frame).toNat = sp.toNat - I.frame := by
  have hlt := sp.isLt
  rw [BitVec.toNat_sub, BitVec.toNat_ofNat, Nat.mod_eq_of_lt (by omega : I.frame < 2 ^ 64)]
  omega

/-- The frame lies on the stack. -/
theorem frame_holds {stk : Region} {sp : Word} (hlow : stk.lo + I.frame ≤ sp.toNat)
    (hhigh : sp.toNat ≤ stk.hi) (halign : sp.toNat % 8 = 0) {r : Reg} {off : Nat}
    (h : (r, off) ∈ I.layout) : stk.holds ((sp - BitVec.ofNat 64 I.frame).toNat + off) := by
  obtain ⟨hoff, hle⟩ := I.layout_range r off h
  have hframe := I.frame_align
  rw [sp_toNat (by omega)]
  unfold Region.holds
  omega

theorem Suspended.congr {mem mem' : Nat → Word} {stk : Region} {caller regs regs' : Reg → Word}
    (h : Suspended I mem stk caller regs) (hmem : ∀ a, stk.holds a → mem' a = mem a)
    (hregs : ∀ r ∈ threadContext, regs' r = regs r) : Suspended I mem' stk caller regs' := by
  have hsp : regs' .sp = regs .sp := hregs .sp (by decide)
  refine ⟨h.low, h.high, h.align, h.ra, hsp.trans h.sp, fun r hr hne hno => ?_, fun r off hmem' => ?_⟩
  · rw [hregs r hr]
    exact h.kept r hr hne hno
  · rw [hsp, hmem _ (by rw [h.sp]; exact frame_holds h.low h.high h.align hmem')]
    exact h.frame r off hmem'

/-- The registers in a context. -/
def contextRegs (I : Image) (mem : Nat → Word) (i : Slot) : Reg → Word :=
  loadAll mem (I.context i) contextLayout fun _ => 0

theorem contextRegs_eq (mem : Nat → Word) (i : Slot) {r : Reg} {off : Nat}
    (h : (r, off) ∈ contextLayout) : contextRegs I mem i r = mem (I.context i + off) :=
  loadAll_of_mem contextLayout_regs h

theorem contextRegs_congr {mem mem' : Nat → Word}
    (h : ∀ a, (I.contextRegion i).holds a → mem' a = mem a) :
    ∀ r ∈ threadContext, contextRegs I mem' i r = contextRegs I mem i r := by
  intro r hr
  obtain ⟨off, hoff⟩ := mem_contextLayout hr
  rw [contextRegs_eq mem' i hoff, contextRegs_eq mem i hoff, h _ (I.context_holds i hoff)]

/-- A thread that is switched out. -/
def Parked (I : Image) (mem : Nat → Word) (stk : Region) (i : Slot) : Where → Prop
  | .running => False
  | .fresh func => func ≠ I.after ∧ contextRegs I mem i .ra = func ∧
      contextRegs I mem i .sp = BitVec.ofNat 64 (I.stack i).hi ∧ stk = I.stack i
  | .called caller => contextRegs I mem i .ra = I.after ∧
      Suspended I mem stk caller (contextRegs I mem i)

theorem Parked.congr {mem mem' : Nat → Word} {stk : Region} {w : Where} (h : Parked I mem stk i w)
    (hcontext : ∀ a, (I.contextRegion i).holds a → mem' a = mem a)
    (hstack : ∀ a, stk.holds a → mem' a = mem a) : Parked I mem' stk i w := by
  have hregs := contextRegs_congr hcontext
  cases w with
  | running => exact h
  | fresh func =>
      obtain ⟨hfunc, hra, hsp, hstk⟩ := h
      exact ⟨hfunc, by rw [hregs .ra (by decide), hra], by rw [hregs .sp (by decide), hsp], hstk⟩
  | called caller =>
      obtain ⟨hra, hsus⟩ := h
      exact ⟨by rw [hregs .ra (by decide), hra], hsus.congr hstack hregs⟩

/-! ## The invariant -/

structure Inv (I : Image) (s : State) : Prop where
  stackOf : ∀ i, StackOf I i (s.stack i)
  current : s.state s.currentThread ≠ .FREE
  parked : ∀ i, i ≠ s.currentThread → s.state i ≠ .FREE → Parked I s.mem (s.stack i) i (s.place i)
  inside : s.pc = I.after → ∃ caller, s.place s.currentThread = .called caller ∧
    Suspended I s.mem (s.stack s.currentThread) caller s.regs
  outside : s.pc ≠ I.after → s.place s.currentThread = .running

/-- Every state of a run: the program has exited, or the invariant holds. -/
def Sound (I : Image) (s : State) : Prop := s.exited = true ∨ Inv I s

/-- Memory outside the stack and the context of slot `c` has not changed. -/
def Local (I : Image) (stk : Region) (c : Slot) (mem mem' : Nat → Word) : Prop :=
  ∀ a, (∀ b, stk.holds b → a ≠ b) → (∀ b, (I.contextRegion c).holds b → a ≠ b) → mem' a = mem a

theorem Local.context {stk : Region} {c : Slot} {mem mem' : Nat → Word}
    (h : Local I stk c mem mem') (hstk : StackOf I c stk) (hne : i ≠ c) :
    ∀ a, (I.contextRegion i).holds a → mem' a = mem a := by
  intro a ha
  refine h a (fun b hb heq => ?_) fun b hb => (I.context_disjoint hne).ne ha hb
  exact (hstk.disjoint_context i).ne hb ha heq.symm

theorem Local.stack {stk stk' : Region} {c : Slot} {mem mem' : Nat → Word}
    (h : Local I stk c mem mem') (hstk : StackOf I c stk) (hstk' : StackOf I i stk') (hne : i ≠ c) :
    ∀ a, stk'.holds a → mem' a = mem a := by
  intro a ha
  exact h a (fun b hb => (hstk'.disjoint hstk hne).ne ha hb)
    fun b hb => (hstk'.disjoint_context c).ne ha hb

/-- What a thread does in its own memory leaves the threads that are switched out as they are. -/
theorem Inv.parked_local (h : Inv I s) {mem' : Nat → Word}
    (hlocal : Local I (s.stack s.currentThread) s.currentThread s.mem mem')
    (hne : i ≠ s.currentThread) (hfree : s.state i ≠ .FREE) :
    Parked I mem' (s.stack i) i (s.place i) :=
  (h.parked i hne hfree).congr (hlocal.context (h.stackOf _) hne)
    (hlocal.stack (h.stackOf _) (h.stackOf i) hne)

theorem writeAll_of_ne {mem : Nat → Word} {writes : List (Nat × Word)} {a : Nat}
    (h : ∀ w ∈ writes, a ≠ w.1) : writeAll mem writes a = mem a := by
  induction writes generalizing mem with
  | nil => rfl
  | cons w rest ih =>
      obtain ⟨b, v⟩ := w
      rw [writeAll, ih fun w hw => h w (List.mem_cons_of_mem _ hw),
        Function.update_of_ne (h (b, v) (List.mem_cons_self ..))]

theorem Inv.run (h : Inv I s) (huser : s.user I) {regs : Reg → Word} {pc : Word}
    (hpc : pc ≠ I.after) {writes : List (Nat × Word)}
    (hwrites : ∀ w ∈ writes, (s.stack s.currentThread).holds w.1) :
    Inv I { s with regs := regs, pc := pc, mem := writeAll s.mem writes } := by
  refine ⟨h.stackOf, h.current, fun i hne hfree => ?_, fun hat => absurd hat hpc,
    fun _ => h.outside huser.2⟩
  refine h.parked_local (fun a hstack _ => ?_) hne hfree
  exact writeAll_of_ne fun w hw => hstack _ (hwrites w hw)

theorem Inv.create (h : Inv I s) (huser : s.user I) {func : Word} (hfunc : func ≠ I.after)
    {t : Slot} (hfree : s.state t = .FREE) : Inv I (threadCreate I s func t) := by
  have hcur : s.currentThread ≠ t := by
    intro heq
    exact h.current (heq ▸ hfree)
  have hra : (Reg.ra, 0) ∈ contextLayout := by decide
  have hsp : (Reg.sp, 8) ∈ contextLayout := by decide
  have hne : I.context t + 0 ≠ I.context t + 8 := by omega
  have hmem : ∀ a, (∀ b, (I.contextRegion t).holds b → a ≠ b) →
      (threadCreate I s func t).mem a = s.mem a := by
    intro a ha
    simp only [threadCreate]
    rw [Function.update_of_ne (ha _ (I.context_holds t hsp)),
      Function.update_of_ne (ha _ (I.context_holds t hra))]
  refine ⟨fun i => ?_, ?_, fun i hi hstate => ?_, fun hat => absurd hat huser.2, fun _ => ?_⟩
  · by_cases hit : i = t
    · subst hit
      simp only [threadCreate, Function.update_self]
      exact Or.inl rfl
    · simp only [threadCreate, Function.update_of_ne hit]
      exact h.stackOf i
  · simp only [threadCreate, Function.update_of_ne hcur]
    exact h.current
  · by_cases hit : i = t
    · subst hit
      simp only [threadCreate, Function.update_self]
      refine ⟨hfunc, ?_, ?_, rfl⟩
      · rw [contextRegs_eq _ _ hra, Function.update_of_ne hne, Function.update_self]
      · rw [contextRegs_eq _ _ hsp, Function.update_self]
    · simp only [threadCreate, Function.update_of_ne hit] at hstate hi ⊢
      refine (h.parked i hi hstate).congr (fun a ha => hmem a fun b hb => ?_)
        fun a ha => hmem a fun b hb => ?_
      · exact (I.context_disjoint hit).ne ha hb
      · exact ((h.stackOf i).disjoint_context t).ne ha hb
  · simp only [threadCreate, Function.update_of_ne hcur]
    exact h.outside huser.2

/-! ## `thread_schedule` -/

theorem findRunnable_state {state : Slot → ThreadState} {n k : Nat} {next : Slot}
    (h : findRunnable state n k = some next) : state next = .RUNNABLE := by
  induction n generalizing k with
  | zero => cases h
  | succ n ih =>
      simp only [findRunnable] at h
      split at h
      · next hrunnable =>
        rw [← Option.some.inj h]
        exact hrunnable
      · exact ih h

/-- The frame has been made, and the body of `thread_schedule` runs. -/
theorem suspended_body (hcall : s.mayCall I) (scratch : Reg → Word) :
    Suspended I (storeAll s.regs (s.regs .sp - BitVec.ofNat 64 I.frame).toNat I.layout s.mem)
      (s.stack s.currentThread) s.regs (bodyRegs I s.regs scratch) := by
  obtain ⟨hlow, hhigh, halign, hra⟩ := hcall
  have hsp : bodyRegs I s.regs scratch .sp = s.regs .sp - BitVec.ofNat 64 I.frame := if_pos rfl
  refine ⟨hlow, hhigh, halign, hra, hsp, fun r _ hne hno => ?_, fun r off hmem => ?_⟩
  · rw [bodyRegs, if_neg hne, if_neg hno]
  · rw [hsp]
    exact storeAll_of_mem I.layout_offsets hmem

theorem local_frame (hcall : s.mayCall I) :
    Local I (s.stack s.currentThread) s.currentThread s.mem
      (storeAll s.regs (s.regs .sp - BitVec.ofNat 64 I.frame).toNat I.layout s.mem) := by
  obtain ⟨hlow, hhigh, halign, -⟩ := hcall
  intro a hstack _
  refine storeAll_of_ne fun r off hmem heq => ?_
  exact hstack _ (frame_holds hlow hhigh halign hmem) heq.symm

/-- What `thread_switch` does from `c` to `next`. -/
structure Switched (I : Image) (c next : Slot) (regs : Reg → Word) (mem : Nat → Word) (m : Machine) :
    Prop where
  saved : ∀ r ∈ threadContext, contextRegs I m.mem c r = if r = .ra then I.after else regs r
  other : ∀ a, (∀ b, (I.contextRegion c).holds b → a ≠ b) → m.mem a = mem a
  loaded : ∀ r ∈ threadContext, m.regs r = contextRegs I m.mem next r
  pc : m.pc = contextRegs I m.mem next .ra

theorem switched (c next : Slot) (regs : Reg → Word) (mem : Nat → Word) :
    Switched I c next regs mem (callSwitch I c next regs mem) := by
  generalize hregs' : switchRegs I c next regs = regs'
  have ha0 : (regs' .a0).toNat = I.context c := by
    rw [← I.context_toNat c, ← hregs']
    simp [switchRegs]
  have ha1 : (regs' .a1).toNat = I.context next := by
    rw [← I.context_toNat next, ← hregs']
    simp [switchRegs]
  have hregs : ∀ r ∈ threadContext, regs' r = if r = .ra then I.after else regs r := by
    intro r hr
    have hne : r ≠ .a0 ∧ r ≠ .a1 := by
      have hall : ∀ r ∈ threadContext, r ≠ Reg.a0 ∧ r ≠ Reg.a1 := by decide
      exact hall r hr
    by_cases hra : r = .ra
    · subst hra
      simp [← hregs', switchRegs]
    · rw [if_neg hra, ← hregs', switchRegs, Function.update_of_ne hra, Function.update_of_ne hne.2,
        Function.update_of_ne hne.1]
  have hspec := threadSwitch_spec ⟨regs', I.after, mem⟩ _ _ rfl rfl
  simp only [ha0, ha1] at hspec
  rw [callSwitch, hregs', hspec]
  have hstored : ∀ r off, (r, off) ∈ contextLayout →
      storeAll regs' (I.context c) contextLayout mem (I.context c + off) = regs' r :=
    fun r off hoff => storeAll_of_mem contextLayout_offsets hoff
  have hother : ∀ a, (∀ b, (I.contextRegion c).holds b → a ≠ b) →
      storeAll regs' (I.context c) contextLayout mem a = mem a :=
    fun a ha => storeAll_of_ne fun r off hoff heq => ha _ (I.context_holds c hoff) heq.symm
  generalize storeAll regs' (I.context c) contextLayout mem = mem' at hstored hother
  have hloaded : ∀ r ∈ threadContext,
      loadAll mem' (I.context next) contextLayout regs' r = contextRegs I mem' next r := by
    intro r hr
    obtain ⟨off, hoff⟩ := mem_contextLayout hr
    rw [contextRegs_eq _ _ hoff, loadAll_of_mem contextLayout_regs hoff]
  have hpc := hloaded .ra (by decide)
  refine ⟨fun r hr => ?_, hother, hloaded, hpc⟩
  obtain ⟨off, hoff⟩ := mem_contextLayout hr
  rw [contextRegs_eq _ _ hoff, ← hregs r hr]
  exact hstored r off hoff

/-- The thread that calls `thread_schedule` is parked as soon as another one runs. -/
theorem parked_self {c next : Slot} {stk : Region} {caller regs : Reg → Word}
    {mem : Nat → Word} {m : Machine} (hstk : StackOf I c stk)
    (hsus : Suspended I mem stk caller regs) (hm : Switched I c next regs mem m) :
    Parked I m.mem stk c (.called caller) := by
  refine ⟨by rw [hm.saved .ra (by decide), if_pos rfl], ?_⟩
  have hstack : ∀ a, stk.holds a → m.mem a = mem a :=
    fun a ha => hm.other a fun b hb => (hstk.disjoint_context c).ne ha hb
  have hsp : contextRegs I m.mem c .sp = regs .sp := by
    rw [hm.saved .sp (by decide), if_neg (by decide)]
  refine ⟨hsus.low, hsus.high, hsus.align, hsus.ra, hsp.trans hsus.sp, fun r hr hne hno => ?_,
    fun r off hmem => ?_⟩
  · have hra : r ≠ .ra := by
      rintro rfl
      obtain ⟨off, hoff⟩ := I.layout_ra
      exact hno (List.mem_map.2 ⟨_, hoff, rfl⟩)
    rw [hm.saved r hr, if_neg hra]
    exact hsus.kept r hr hne hno
  · rw [hsp, hstack _ (by rw [hsus.sp]; exact frame_holds hsus.low hsus.high hsus.align hmem)]
    exact hsus.frame r off hmem

/-- The thread that `thread_switch` goes to. -/
theorem parked_next {next : Slot} {stk : Region} {w : Where} {m : Machine}
    (hparked : Parked I m.mem stk next w)
    (hregs : ∀ r ∈ threadContext, m.regs r = contextRegs I m.mem next r)
    (hpc : m.pc = contextRegs I m.mem next .ra) :
    (m.pc = I.after → ∃ caller, w.resume = .called caller ∧ Suspended I m.mem stk caller m.regs) ∧
      (m.pc ≠ I.after → w.resume = .running) := by
  cases w with
  | running => exact hparked.elim
  | fresh func =>
      obtain ⟨hfunc, hra, -, -⟩ := hparked
      rw [hpc, hra]
      exact ⟨fun heq => absurd heq hfunc, fun _ => rfl⟩
  | called caller =>
      obtain ⟨hra, hsus⟩ := hparked
      rw [hpc, hra]
      exact ⟨fun _ => ⟨caller, rfl, hsus.congr (fun _ _ => rfl) hregs⟩, fun hne => absurd rfl hne⟩

/-- What `thread_schedule` has done where it leaves off: it has found no thread, or the current one, or
    it has switched to another one. -/
inductive Scheduled (I : Image) (s : State) (scratch : Reg → Word) : State → Prop
  | exited : Scheduled I s scratch { s with exited := true }
  | same (mem : Nat → Word) : s.state s.currentThread = .RUNNABLE →
      Local I (s.stack s.currentThread) s.currentThread s.mem mem →
      Suspended I mem (s.stack s.currentThread) s.regs (bodyRegs I s.regs scratch) →
      Scheduled I s scratch
        { s with
          regs := bodyRegs I s.regs scratch
          pc := I.after
          mem := mem
          place := Function.update s.place s.currentThread (.called s.regs) }
  | switched (mem : Nat → Word) (next : Slot) (m : Machine) : s.currentThread ≠ next →
      s.state next = .RUNNABLE →
      Local I (s.stack s.currentThread) s.currentThread s.mem m.mem →
      Suspended I mem (s.stack s.currentThread) s.regs (bodyRegs I s.regs scratch) →
      Switched I s.currentThread next (bodyRegs I s.regs scratch) mem m →
      Scheduled I s scratch
        { s with
          regs := m.regs
          pc := m.pc
          mem := m.mem
          state := Function.update s.state next .RUNNING
          currentThread := next
          place := Function.update (Function.update s.place s.currentThread (.called s.regs)) next
            (s.place next).resume }

theorem scheduled (hcall : s.mayCall I) (scratch : Reg → Word) :
    Scheduled I s scratch (threadSchedule I s scratch) := by
  have hsus := suspended_body hcall scratch
  have hlocal := local_frame hcall
  unfold threadSchedule
  simp only
  generalize storeAll s.regs (s.regs .sp - BitVec.ofNat 64 I.frame).toNat I.layout s.mem = mem
    at hsus hlocal
  cases hnext : findRunnable s.state MAX_THREAD (s.currentThread.val + 1) with
  | none => exact .exited
  | some next =>
      have hrunnable := findRunnable_state hnext
      simp only
      by_cases hne : s.currentThread = next
      · rw [if_neg (not_not.2 hne)]
        rw [← hne] at hrunnable
        exact .same mem hrunnable hlocal hsus
      · rw [if_pos hne, Function.update_of_ne (Ne.symm hne)]
        have hm := switched (I := I) s.currentThread next (bodyRegs I s.regs scratch) mem
        exact .switched mem next _ hne hrunnable
          (fun a hstack hcontext => (hm.other a hcontext).trans (hlocal a hstack hcontext)) hsus hm

/-- The other threads are parked, whatever the current one does in its own memory. -/
def OthersParked (I : Image) (s : State) : Prop :=
  ∀ mem', Local I (s.stack s.currentThread) s.currentThread s.mem mem' →
    ∀ i, i ≠ s.currentThread → s.state i ≠ .FREE → Parked I mem' (s.stack i) i (s.place i)

theorem Scheduled.sound {scratch : Reg → Word} (h : Scheduled I s scratch t)
    (hstk : ∀ i, StackOf I i (s.stack i)) (hparked : OthersParked I s) : Sound I t := by
  cases h with
  | exited => exact Or.inl rfl
  | same mem hrunnable hlocal hsus =>
      refine Or.inr ⟨hstk, ?_, fun i hi hfree => ?_, fun _ => ⟨s.regs, ?_, hsus⟩,
        fun hno => absurd rfl hno⟩
      · simp only
        rw [hrunnable]
        simp
      · simp only [Function.update_of_ne hi] at hfree ⊢
        exact hparked _ hlocal i hi hfree
      · simp only [Function.update_self]
  | switched mem next m hne hrunnable hlocal hsus hm =>
      have hnextparked := parked_next
        (hparked _ hlocal next (Ne.symm hne) (by rw [hrunnable]; simp)) hm.loaded hm.pc
      refine Or.inr ⟨hstk, ?_, fun i hi hfree => ?_, fun hat => ?_, fun hno => ?_⟩
      · simp
      · simp only [Function.update_of_ne hi] at hfree ⊢
        by_cases hic : i = s.currentThread
        · subst hic
          simp only [Function.update_self]
          exact parked_self (hstk _) hsus hm
        · simp only [Function.update_of_ne hic]
          exact hparked _ hlocal i hic hfree
      · simp only [Function.update_self]
        exact hnextparked.1 hat
      · simp only [Function.update_self]
        exact hnextparked.2 hno

/-- The state in which the current thread calls `thread_schedule`. -/
theorem Inv.othersParked (h : Inv I s) (st : ThreadState) :
    OthersParked I { s with state := Function.update s.state s.currentThread st } := by
  intro mem' hlocal i hi hfree
  have hsame : s.state i ≠ .FREE := by
    simp only [Function.update_of_ne hi] at hfree
    exact hfree
  exact h.parked_local hlocal hi hsame

theorem Inv.schedule (h : Inv I s) (hcall : s.mayCall I) (st : ThreadState) (scratch : Reg → Word) :
    Sound I (threadSchedule I
      { s with state := Function.update s.state s.currentThread st } scratch) := by
  let s' : State := { s with state := Function.update s.state s.currentThread st }
  have hcall' : s'.mayCall I := hcall
  exact (scheduled hcall' scratch).sound h.stackOf (h.othersParked st)

/-! ## The return -/

/-- The registers after `thread_schedule` has returned are those of the caller. -/
theorem Suspended.returned {mem : Nat → Word} {stk : Region} {caller regs : Reg → Word}
    (h : Suspended I mem stk caller regs) :
    ∀ r ∈ threadContext, Function.update (loadAll mem (regs .sp).toNat I.layout regs) .sp
      (regs .sp + BitVec.ofNat 64 I.frame) r = caller r := by
  intro r hr
  by_cases hsp : r = .sp
  · subst hsp
    rw [Function.update_self, h.sp, BitVec.sub_add_cancel]
  · rw [Function.update_of_ne hsp]
    by_cases hin : r ∈ I.layout.map Prod.fst
    · obtain ⟨⟨r', off⟩, hmem, rfl⟩ := List.mem_map.1 hin
      rw [loadAll_of_mem I.layout_regs hmem]
      exact h.frame _ off hmem
    · rw [loadAll_of_ne fun off hmem => hin (List.mem_map.2 ⟨_, hmem, rfl⟩)]
      exact h.kept r hr hsp hin

theorem Suspended.returned_pc {mem : Nat → Word} {stk : Region} {caller regs : Reg → Word}
    (h : Suspended I mem stk caller regs) :
    loadAll mem (regs .sp).toNat I.layout regs .ra = caller .ra := by
  have := h.returned .ra (by decide)
  rw [Function.update_of_ne (by decide)] at this
  exact this

theorem Inv.ret (h : Inv I s) (hat : s.pc = I.after) : Inv I (scheduleReturn I s) := by
  obtain ⟨caller, -, hsus⟩ := h.inside hat
  have hpc : (scheduleReturn I s).pc = caller .ra := hsus.returned_pc
  refine ⟨h.stackOf, h.current, fun i hi hfree => ?_, fun hat' => ?_, fun _ => ?_⟩
  · have hplace : (scheduleReturn I s).place i = s.place i := Function.update_of_ne hi _ _
    rw [hplace]
    exact h.parked i hi hfree
  · rw [hpc] at hat'
    exact absurd hat' hsus.ra
  · exact Function.update_self ..

theorem findFree_state {state : Slot → ThreadState} {t : Slot} (h : findFree state = some t) :
    state t = .FREE := by
  unfold findFree at h
  simpa using List.find?_some h

theorem Sound.step {l : Label} (h : Sound I s) (hstep : Uthread.step I s l = some t) :
    Sound I t := by
  unfold Uthread.step at hstep
  cases l with
  | run regs pc writes =>
      simp only at hstep
      split at hstep
      · next hok =>
        obtain ⟨huser, hpc, hwrites⟩ := hok
        obtain rfl := Option.some.inj hstep
        have hinv := h.resolve_left (by rw [huser.1]; simp)
        exact Or.inr (hinv.run huser hpc hwrites)
      · cases hstep
  | threadCreate func =>
      simp only at hstep
      split at hstep
      · next hok =>
        obtain ⟨huser, hfunc⟩ := hok
        obtain ⟨t', ht', rfl⟩ := Option.map_eq_some_iff.1 hstep
        have hinv := h.resolve_left (by rw [huser.1]; simp)
        exact Or.inr (hinv.create huser hfunc (findFree_state ht'))
      · cases hstep
  | threadYield scratch =>
      simp only at hstep
      split at hstep
      · next hok =>
        obtain rfl := Option.some.inj hstep
        have hinv := h.resolve_left (by rw [hok.1.1]; simp)
        exact hinv.schedule hok.2 .RUNNABLE scratch
      · cases hstep
  | exit scratch =>
      simp only at hstep
      split at hstep
      · next hok =>
        obtain rfl := Option.some.inj hstep
        have hinv := h.resolve_left (by rw [hok.1.1]; simp)
        exact hinv.schedule hok.2 .FREE scratch
      · cases hstep
  | ret =>
      simp only at hstep
      split at hstep
      · next hok =>
        obtain rfl := Option.some.inj hstep
        have hinv := h.resolve_left (by rw [hok.1]; simp)
        exact Or.inr (hinv.ret hok.2)
      · cases hstep

theorem inv_boot (I : Image) (regs : Reg → Word) {pc : Word} (hpc : pc ≠ I.after)
    (mem : Nat → Word) : Inv I (boot I regs pc mem) := by
  refine ⟨fun i => ?_, by simp [boot], fun i hi hfree => ?_, fun hat => absurd hat hpc, fun _ => rfl⟩
  · by_cases hi : i.val = 0
    · simp only [boot, if_pos hi]
      exact Or.inr ⟨hi, rfl⟩
    · simp only [boot, if_neg hi]
      exact Or.inl rfl
  · have hi0 : i.val ≠ 0 := fun h0 => hi (Fin.ext h0)
    simp [boot, hi0] at hfree

/-! ## The law -/

/-- What a step does to the threads. -/
structure StepLaw (I : Image) (s : State) (l : Label) (t : State) : Prop where
  /-- `thread_schedule` returns in the thread that has called it, with the registers of the call. -/
  returns : l = .ret → ∃ caller, s.place s.currentThread = .called caller ∧
    t.currentThread = s.currentThread ∧ t.pc = caller .ra ∧ ∀ r ∈ threadContext, t.regs r = caller r
  calls : ∀ scratch, l = .threadYield scratch → t.exited = false →
    t.place s.currentThread = .called s.regs ∧ t.state s.currentThread ≠ .FREE
  /-- Until it returns, the call is pending. -/
  pending : ∀ i caller, s.place i = .called caller → s.state i ≠ .FREE → t.exited = false →
    (t.place i = .called caller ∧ t.state i ≠ .FREE) ∨ (l = .ret ∧ i = s.currentThread)
  creates : ∀ func, l = .threadCreate func → ∃ i, s.state i = .FREE ∧ t.state i ≠ .FREE ∧
    t.place i = .fresh func
  /-- A new thread waits until it runs, at its function and the top of its stack. -/
  first : ∀ i func, s.place i = .fresh func → s.state i ≠ .FREE → t.exited = false →
    (t.currentThread ≠ i ∧ t.place i = .fresh func ∧ t.state i ≠ .FREE) ∨
      (t.currentThread = i ∧ t.pc = func ∧ t.regs .sp = BitVec.ofNat 64 (I.stack i).hi)
  /-- Nobody changes the context of a thread that is switched out. -/
  kept : ∀ i, i ≠ s.currentThread → s.state i ≠ .FREE →
    ∀ r off, (r, off) ∈ contextLayout → t.mem (I.context i + off) = s.mem (I.context i + off)

/-- The current thread is not new, and is in `thread_schedule` exactly if it has called it. -/
theorem Inv.not_fresh (h : Inv I s) (func : Word) : s.place s.currentThread ≠ .fresh func := by
  intro heq
  by_cases hat : s.pc = I.after
  · obtain ⟨caller, hcaller, -⟩ := h.inside hat
    rw [heq] at hcaller
    cases hcaller
  · have := h.outside hat
    rw [heq] at this
    cases this

theorem Inv.user_place (h : Inv I s) (huser : s.user I) : s.place s.currentThread = .running :=
  h.outside huser.2

/-- The place of a thread that is switched out, when another one is scheduled. -/
theorem Scheduled.law {scratch : Reg → Word} {l : Label} (st : ThreadState) (h : Inv I s)
    (huser : s.user I)
    (hsch : Scheduled I { s with state := Function.update s.state s.currentThread st } scratch t)
    (hl : l = .threadYield scratch ∧ st = .RUNNABLE ∨ l = .exit scratch) : StepLaw I s l t := by
  have hrunning := h.user_place huser
  have hcur : ∀ i w, s.place i = w → w ≠ .running → i ≠ s.currentThread := by
    rintro i w hw hne rfl
    exact hne (hw.symm.trans hrunning)
  have hret : l ≠ .ret := by
    rcases hl with ⟨rfl, -⟩ | rfl <;> simp
  have hcreate : ∀ func, l ≠ .threadCreate func := by
    rcases hl with ⟨rfl, -⟩ | rfl <;> simp
  have hyield : ∀ scratch', l = .threadYield scratch' → st = .RUNNABLE := by
    intro scratch' heq
    rcases hl with ⟨-, hst⟩ | rfl
    · exact hst
    · cases heq
  cases hsch with
  | exited =>
      exact ⟨fun heq => absurd heq hret, fun _ _ hex => by simp at hex, fun _ _ _ _ hex => by simp at hex,
        fun func heq => absurd heq (hcreate func), fun _ _ _ _ hex => by simp at hex,
        fun _ _ _ _ _ _ => rfl⟩
  | same mem hrunnable hlocal hsus =>
      refine ⟨fun heq => absurd heq hret, fun scratch' heq _ => ?_, fun i caller hi hfree _ => ?_,
        fun func heq => absurd heq (hcreate func), fun i func hi hfree _ => ?_, fun i hi hfree r off hoff => ?_⟩
      · simp only [Function.update_self, hyield scratch' heq]
        simp
      · have hne := hcur i _ hi (by simp)
        simp only [Function.update_of_ne hne]
        exact Or.inl ⟨hi, hfree⟩
      · have hne := hcur i _ hi (by simp)
        simp only [Function.update_of_ne hne]
        exact Or.inl ⟨Ne.symm hne, hi, hfree⟩
      · exact hlocal.context (h.stackOf _) hi _ (I.context_holds i hoff)
  | switched mem next m hne hrunnable hlocal hsus hm =>
      simp only at hne
      refine ⟨fun heq => absurd heq hret, fun scratch' heq _ => ?_, fun i caller hi hfree _ => ?_,
        fun func heq => absurd heq (hcreate func), fun i func hi hfree _ => ?_, fun i hi hfree r off hoff => ?_⟩
      · simp only [Function.update_self, Function.update_of_ne hne, hyield scratch' heq]
        simp
      · have hic := hcur i _ hi (by simp)
        refine Or.inl ?_
        by_cases hin : i = next
        · subst hin
          simp only [Function.update_self, hi]
          exact ⟨rfl, by simp⟩
        · simp only [Function.update_of_ne hin, Function.update_of_ne hic]
          exact ⟨hi, hfree⟩
      · have hic := hcur i _ hi (by simp)
        by_cases hin : i = next
        · subst hin
          refine Or.inr ⟨rfl, ?_⟩
          have hparked := h.parked_local hlocal hic hfree
          rw [hi] at hparked
          obtain ⟨-, hra, hsp, -⟩ := hparked
          exact ⟨hm.pc.trans hra, (hm.loaded .sp (by decide)).trans hsp⟩
        · simp only [Function.update_of_ne hin, Function.update_of_ne hic]
          exact Or.inl ⟨Ne.symm hin, hi, hfree⟩
      · exact hlocal.context (h.stackOf _) hi _ (I.context_holds i hoff)

theorem Inv.create_law (h : Inv I s) (huser : s.user I) {func : Word} {i : Slot}
    (hfree : s.state i = .FREE) : StepLaw I s (.threadCreate func) (threadCreate I s func i) := by
  have hne : ∀ j, s.state j ≠ .FREE → j ≠ i := by
    rintro j hj rfl
    exact hj hfree
  have hcur : ∀ j w, s.place j = w → w ≠ .running → j ≠ s.currentThread := by
    rintro j w hw hno rfl
    exact hno (hw.symm.trans (h.user_place huser))
  refine ⟨fun heq => absurd heq (by simp), fun _ heq => absurd heq (by simp), fun j caller hj hjfree _ => ?_,
    fun func' heq => ⟨i, hfree, ?_⟩, fun j func' hj hjfree _ => ?_, fun j hj hjfree r off hoff => ?_⟩
  · simp only [threadCreate, Function.update_of_ne (hne j hjfree)]
    exact Or.inl ⟨hj, hjfree⟩
  · obtain rfl := Label.threadCreate.inj heq
    simp [threadCreate]
  · simp only [threadCreate, Function.update_of_ne (hne j hjfree)]
    exact Or.inl ⟨Ne.symm (hcur j _ hj (by simp)), hj, hjfree⟩
  · have hholds := I.context_holds j hoff
    have happart : ∀ r' off', (r', off') ∈ contextLayout → I.context j + off ≠ I.context i + off' :=
      fun r' off' hoff' => (I.context_disjoint (hne j hjfree)).ne hholds (I.context_holds i hoff')
    simp only [threadCreate]
    rw [Function.update_of_ne (happart .sp 8 (by decide)), Function.update_of_ne (happart .ra 0 (by decide))]

theorem Inv.stepLaw (h : Inv I s) {l : Label} (hstep : Uthread.step I s l = some t) :
    StepLaw I s l t := by
  unfold Uthread.step at hstep
  cases l with
  | run regs pc writes =>
      simp only at hstep
      split at hstep
      · next hok =>
        obtain ⟨huser, hpc, hwrites⟩ := hok
        obtain rfl := Option.some.inj hstep
        have hlocal : Local I (s.stack s.currentThread) s.currentThread s.mem (writeAll s.mem writes) :=
          fun a hstack _ => writeAll_of_ne fun w hw => hstack _ (hwrites w hw)
        refine ⟨fun heq => absurd heq (by simp), fun _ heq => absurd heq (by simp), fun i caller hi hfree _ => ?_,
          fun _ heq => absurd heq (by simp), fun i func hi hfree _ => ?_, fun i hi hfree r off hoff => ?_⟩
        · exact Or.inl ⟨hi, hfree⟩
        · refine Or.inl ⟨?_, hi, hfree⟩
          rintro rfl
          exact h.not_fresh func hi
        · exact hlocal.context (h.stackOf _) hi _ (I.context_holds i hoff)
      · cases hstep
  | threadCreate func =>
      simp only at hstep
      split at hstep
      · next hok =>
        obtain ⟨i, hi, rfl⟩ := Option.map_eq_some_iff.1 hstep
        exact h.create_law hok.1 (findFree_state hi)
      · cases hstep
  | threadYield scratch =>
      simp only at hstep
      split at hstep
      · next hok =>
        obtain rfl := Option.some.inj hstep
        have hcall : State.mayCall I
            { s with state := Function.update s.state s.currentThread .RUNNABLE } := hok.2
        exact Scheduled.law .RUNNABLE h hok.1 (scheduled hcall scratch) (Or.inl ⟨rfl, rfl⟩)
      · cases hstep
  | exit scratch =>
      simp only at hstep
      split at hstep
      · next hok =>
        obtain rfl := Option.some.inj hstep
        have hcall : State.mayCall I
            { s with state := Function.update s.state s.currentThread .FREE } := hok.2
        exact Scheduled.law .FREE h hok.1 (scheduled hcall scratch) (Or.inr rfl)
      · cases hstep
  | ret =>
      simp only at hstep
      split at hstep
      · next hok =>
        obtain rfl := Option.some.inj hstep
        obtain ⟨caller, hcaller, hsus⟩ := h.inside hok.2
        refine ⟨fun _ => ⟨caller, hcaller, rfl, hsus.returned_pc, hsus.returned⟩,
          fun _ heq => absurd heq (by simp), fun i caller' hi hfree _ => ?_, fun _ heq => absurd heq (by simp),
          fun i func hi hfree _ => ?_, fun _ _ _ _ _ _ => rfl⟩
        · by_cases hic : i = s.currentThread
          · exact Or.inr ⟨rfl, hic⟩
          · exact Or.inl ⟨(Function.update_of_ne hic ..).trans hi, hfree⟩
        · have hic : i ≠ s.currentThread := by
            rintro rfl
            exact h.not_fresh func hi
          exact Or.inl ⟨Ne.symm hic, (Function.update_of_ne hic ..).trans hi, hfree⟩
      · cases hstep

/-- No call of `thread_schedule` returns in `i`. -/
def NoReturn (i : Slot) (s : State) (l : Label) : Prop := ¬ (l = .ret ∧ s.currentThread = i)

theorem not_exited_of_step {l : Label} (hstep : Uthread.step I s l = some t) : s.exited = false := by
  cases hex : s.exited with
  | false => rfl
  | true =>
      cases l <;> simp [Uthread.step, State.user, hex] at hstep

theorem not_exited_of_run {ls : List Label} (hrun : runSteps (Uthread.step I) s ls = some t)
    (ht : t.exited = false) : s.exited = false := by
  cases ls with
  | nil =>
      obtain rfl := Option.some.inj hrun
      exact ht
  | cons l ls =>
      obtain ⟨u, hu, -⟩ := runSteps_cons_eq_some.1 hrun
      exact not_exited_of_step hu

/-- A call stays pending until it returns. -/
theorem pending_run {caller : Reg → Word} {ls : List Label} (h : Inv I s)
    (hplace : s.place i = .called caller) (hfree : s.state i ≠ .FREE)
    (hno : AllSteps (Uthread.step I) (NoReturn i) s ls)
    (hrun : runSteps (Uthread.step I) s ls = some t) (ht : t.exited = false) :
    Inv I t ∧ t.place i = .called caller := by
  induction ls generalizing s with
  | nil =>
      obtain rfl := Option.some.inj hrun
      exact ⟨h, hplace⟩
  | cons l ls ih =>
      obtain ⟨u, hu, hrest⟩ := runSteps_cons_eq_some.1 hrun
      have hex := not_exited_of_run hrest ht
      have hinv : Inv I u := (Sound.step (Or.inr h) hu).resolve_left (by rw [hex]; simp)
      rcases (h.stepLaw hu).pending i caller hplace hfree hex with ⟨hplace', hfree'⟩ | ⟨hl, hi⟩
      · exact ih hinv hplace' hfree' (hno.2 u hu) hrest
      · exact absurd ⟨hl, hi.symm⟩ hno.1

/-- **Contexts are preserved.** In every run every step obeys the law of the threads; and when a call
    of `thread_schedule` that `thread_yield` makes returns, it returns in the thread that has made it,
    at its return address and with its registers. -/
theorem contexts_preserved (I : Image) (regs : Reg → Word) (pc : Word) (hpc : pc ≠ I.after)
    (mem : Nat → Word) (ls : List Label) (s : State)
    (hrun : runSteps (step I) (boot I regs pc mem) ls = some s) :
    (∀ l t, step I s l = some t → StepLaw I s l t) ∧
      ∀ scratch t ls' u v, step I s (.threadYield scratch) = some t →
        AllSteps (step I) (NoReturn s.currentThread) t ls' →
        runSteps (step I) t ls' = some u → u.currentThread = s.currentThread →
        step I u .ret = some v →
        v.currentThread = s.currentThread ∧ v.pc = s.regs .ra ∧
          ∀ r ∈ threadContext, v.regs r = s.regs r := by
  have hsound : Sound I s :=
    runSteps_invariant (fun _ _ _ h hstep => h.step hstep) (Or.inr (inv_boot I regs hpc mem)) hrun
  have hinv : ∀ l t, step I s l = some t → Inv I s := fun l t hstep =>
    hsound.resolve_left (by rw [not_exited_of_step hstep]; simp)
  refine ⟨fun l t hstep => (hinv l t hstep).stepLaw hstep,
    fun scratch t ls' u v hyield hno hrest hcur hret => ?_⟩
  have hs := hinv _ _ hyield
  have hu := not_exited_of_step hret
  have ht := not_exited_of_run hrest hu
  have htinv : Inv I t := (Sound.step (Or.inr hs) hyield).resolve_left (by rw [ht]; simp)
  obtain ⟨hplace, hfree⟩ := (hs.stepLaw hyield).calls scratch rfl ht
  obtain ⟨huinv, hcalled⟩ := pending_run htinv hplace hfree hno hrest hu
  obtain ⟨caller, hcaller, hcur', hpc', hregs⟩ := (huinv.stepLaw hret).returns rfl
  rw [hcur] at hcaller
  obtain rfl := Where.called.inj (hcaller.symm.trans hcalled)
  exact ⟨hcur'.trans hcur, hpc', hregs⟩

/-! ## Two threads -/

/-- `thread_schedule` keeps `ra` and `s0` in a frame of two words. -/
def image : Image where
  allThread := 0x1000
  ustack := ⟨0x20000, 0x21000⟩
  frame := 16
  layout := [(.ra, 8), (.s0, 0)]
  after := 0x100
  allThread_align := by decide
  allThread_le := by decide
  ustack_le := by decide
  ustack_disjoint := by decide
  frame_align := by decide
  layout_range := by
    intro r off h
    have hall : ∀ p ∈ [(Reg.ra, 8), (Reg.s0, 0)], p.2 % 8 = 0 ∧ p.2 + 8 ≤ 16 := by decide
    exact hall _ h
  layout_regs := by decide
  layout_offsets := by decide
  layout_ra := ⟨8, by decide⟩
  layout_sp := by
    intro off h
    have hall : ∀ p ∈ [(Reg.ra, 8), (Reg.s0, 0)], p.1 ≠ Reg.sp := by decide
    exact hall _ h rfl

/-- The registers of `main`. -/
def mainRegs : Reg → Word
  | .ra => 0x40
  | .sp => 0x20800
  | .s0 => 7
  | .s1 => 8
  | _ => 0

/-- The registers with which the new thread yields; its stack ends at 20600. -/
def threadRegs : Reg → Word
  | .ra => 0x80
  | .sp => 20600
  | _ => 1

def mainBoot : State := boot image mainRegs 0x10 fun _ => 0

def yieldMain : Label := .threadYield fun _ => 2

/-- The new thread runs, and yields. -/
def runAndYield : List Label := [.run threadRegs 0x60 [], .threadYield fun _ => 3]

/-- `main` creates a thread and yields, the thread runs and yields, and `thread_schedule` returns. -/
def yieldedBack : Bool :=
  match runSteps (step image) mainBoot [.threadCreate 0x50] with
  | none => false
  | some s => match step image s yieldMain with
    | none => false
    | some t => match runSteps (step image) t runAndYield with
      | none => false
      | some u => decide (t.currentThread ≠ s.currentThread) &&
          decide (u.currentThread = s.currentThread) && (step image u .ret).isSome

theorem contexts_preserved_main :
    ∃ s t u v, runSteps (step image) mainBoot [.threadCreate 0x50] = some s ∧
      step image s yieldMain = some t ∧ t.currentThread ≠ s.currentThread ∧
      runSteps (step image) t runAndYield = some u ∧ step image u .ret = some v ∧
      v.pc = s.regs .ra ∧ ∀ r ∈ threadContext, v.regs r = s.regs r := by
  have hcheck : yieldedBack = true := by decide +kernel
  unfold yieldedBack at hcheck
  cases hs : runSteps (step image) mainBoot [.threadCreate 0x50] with
  | none =>
      rw [hs] at hcheck
      cases hcheck
  | some s =>
      rw [hs] at hcheck
      dsimp only at hcheck
      cases ht : step image s yieldMain with
      | none =>
          rw [ht] at hcheck
          cases hcheck
      | some t =>
          rw [ht] at hcheck
          dsimp only at hcheck
          cases hu : runSteps (step image) t runAndYield with
          | none =>
              rw [hu] at hcheck
              cases hcheck
          | some u =>
              rw [hu] at hcheck
              simp only [Bool.and_eq_true, decide_eq_true_eq, Option.isSome_iff_exists] at hcheck
              obtain ⟨⟨hswitched, hback⟩, v, hv⟩ := hcheck
              have hno : AllSteps (step image) (NoReturn s.currentThread) t runAndYield :=
                ⟨by simp [NoReturn], fun _ _ => ⟨by simp [NoReturn], fun _ _ => trivial⟩⟩
              have hlaw := contexts_preserved image mainRegs 0x10 (by decide) (fun _ => 0) _ s hs
              obtain ⟨-, hpc, hregs⟩ := hlaw.2 _ t runAndYield u v ht hno hu hback hv
              exact ⟨s, t, u, v, rfl, ht, hswitched, hu, hv, hpc, hregs⟩

end Xv6.Uthread
