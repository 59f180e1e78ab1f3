import Xv6.Console.Model

set_option autoImplicit false

/-! # The line discipline

What the console is for: a queue of committed bytes, and a line that is still being edited. The ring
buffer with its three indices simulates the two lists: the queue lies between `r` and `w`, the line
between `w` and `e`. -/

namespace Xv6.Console

open Xv6.Lib

/-! ## The specification -/

structure Line where
  queue : List Byte
  line : List Byte
  /-- History variables: all bytes that have come to the queue, and those that were taken from it. -/
  committed : List Byte
  taken : List Byte

def Line.commit (k : Line) : Line :=
  { k with queue := k.queue ++ k.line, line := [], committed := k.committed ++ k.line }

def Line.size (k : Line) : Nat := k.queue.length + k.line.length

/-- The line is committed with a newline or `^D`, and when there is no room left. -/
def Line.append (k : Line) (c : Byte) : Line :=
  let k := { k with line := k.line ++ [c] }
  if c = '\n'.toUInt8 ∨ c = C 'D' ∨ k.size = INPUT_BUF_SIZE then k.commit else k

def Line.intr (k : Line) (c : Byte) : Line :=
  if c = C 'P' ∨ c = 0 then k
  else if c = C 'U' then { k with line := [] }
  else if c = C 'H' ∨ c = 0x7f then { k with line := k.line.dropLast }
  else if k.size < INPUT_BUF_SIZE then
    k.append (if c = '\r'.toUInt8 then '\n'.toUInt8 else c)
  else k

def Line.take (k : Line) (c : Byte) (rest : List Byte) : Line :=
  { k with queue := rest, taken := k.taken ++ [c] }

/-- A read with `n` bytes to go; a `^D` that is not met first stays in the queue. -/
def Line.read (target : Nat) : Nat → List Byte → Line → Line × Outcome
  | 0, got, k => (k, .ret target got)
  | n + 1, got, k =>
    match k.queue with
    | [] => (k, .sleep (n + 1) got)
    | c :: rest =>
      if c = C 'D' then (if n + 1 < target then k else k.take c rest, .ret (target - (n + 1)) got)
      else if c = '\n'.toUInt8 then (k.take c rest, .ret (target - n) (got ++ [c]))
      else Line.read target n (got ++ [c]) (k.take c rest)

/-- What always holds of the two lists. -/
structure Line.Ok (k : Line) : Prop where
  size : k.size ≤ INPUT_BUF_SIZE
  full : k.size = INPUT_BUF_SIZE → k.queue ≠ []
  edited : '\n'.toUInt8 ∉ k.line
  history : k.committed = k.taken ++ k.queue

theorem Line.Ok.commit {k : Line} (hsize : k.size ≤ INPUT_BUF_SIZE) (hline : k.line ≠ [])
    (hhistory : k.committed = k.taken ++ k.queue) : k.commit.Ok := by
  constructor
  case size =>
    simpa [Line.commit, Line.size] using hsize
  case full =>
    intro _
    simp [Line.commit, hline]
  case edited =>
    exact List.not_mem_nil
  case history =>
    simp [Line.commit, hhistory]

theorem Line.Ok.append {k : Line} (h : k.Ok) (hroom : k.size < INPUT_BUF_SIZE) (c : Byte) :
    (k.append c).Ok := by
  have hsize : Line.size { k with line := k.line ++ [c] } = k.size + 1 := by
    simp only [Line.size, List.length_append, List.length_singleton]
    omega
  unfold Line.append
  simp only [hsize]
  split
  · refine Line.Ok.commit ?_ (by simp) h.history
    rw [hsize]
    omega
  · rename_i hkeep
    push Not at hkeep
    refine ⟨?_, fun hfull => absurd hfull ?_, ?_, h.history⟩
    · rw [hsize]
      omega
    · rw [hsize]
      exact hkeep.2.2
    · rw [List.mem_append, List.mem_singleton]
      rintro (hin | heq)
      · exact h.edited hin
      · exact hkeep.1 heq.symm

theorem Line.Ok.intr {k : Line} (h : k.Ok) (c : Byte) : (k.intr c).Ok := by
  have hsize := h.size
  simp only [Line.size] at hsize
  unfold Line.intr
  split
  · exact h
  split
  · refine ⟨?_, fun hfull => h.full ?_, List.not_mem_nil, h.history⟩
    · simp only [Line.size, List.length_nil]
      omega
    · simp only [Line.size, List.length_nil] at hfull ⊢
      omega
  split
  · have hlen : k.line.dropLast.length ≤ k.line.length := by simp
    refine ⟨?_, fun hfull => h.full ?_, fun hin => h.edited (List.dropLast_subset _ hin), h.history⟩
    · simp only [Line.size]
      omega
    · simp only [Line.size] at hfull ⊢
      omega
  split
  · rename_i hroom
    exact h.append hroom _
  · exact h

theorem Line.Ok.take {k : Line} (h : k.Ok) {c : Byte} {rest : List Byte} (hq : k.queue = c :: rest) :
    (k.take c rest).Ok := by
  have hsize := h.size
  simp only [Line.size, hq, List.length_cons] at hsize
  refine ⟨?_, fun hfull => ?_, h.edited, ?_⟩
  · simp only [Line.take, Line.size]
    omega
  · simp only [Line.take, Line.size] at hfull
    omega
  · simp only [Line.take, h.history, hq, List.append_assoc, List.singleton_append]

theorem Line.Ok.read {target n : Nat} : ∀ {got : List Byte} {k : Line}, k.Ok →
    (Line.read target n got k).1.Ok := by
  induction n with
  | zero => exact fun h => h
  | succ n ih =>
      intro got k h
      unfold Line.read
      split
      · exact h
      · rename_i c rest hq
        split
        · split
          · exact h
          · exact h.take hq
        split
        · exact h.take hq
        · exact ih (h.take hq)

/-! ## The simulation -/

structure Sim (k : Cons) (a : Line) : Prop where
  between : (k.w - k.r).toNat ≤ (k.e - k.r).toNat
  queue : a.queue = Ring.contents k.buf k.r k.w
  line : a.line = Ring.contents k.buf k.w k.e

variable {k : Cons} {a : Line}

theorem Sim.size (h : Sim k a) : a.size = (k.e - k.r).toNat := by
  have hlen := congrArg List.length (Ring.contents_append k.buf h.between)
  rw [List.length_append, Ring.length_contents] at hlen
  rw [Line.size, h.queue, h.line, hlen]

theorem Sim.queue_nil (h : Sim k a) : a.queue = [] ↔ k.r = k.w := by
  rw [h.queue, Ring.contents_eq_nil_iff]

/-- `^U` stops at the commit point: there is no newline in the line. -/
theorem killLine_eq : ∀ {n : Nat} {k : Cons}, n = (k.e - k.w).toNat →
    '\n'.toUInt8 ∉ Ring.contents k.buf k.w k.e → killLine n k = { k with e := k.w } := by
  intro n
  induction n with
  | zero =>
      intro k hn _
      have he : k.w = k.e := by
        by_contra hne
        exact Ring.toNat_sub_ne_zero hne hn.symm
      obtain ⟨buf, r, w, e⟩ := k
      obtain rfl : w = e := he
      rfl
  | succ n ih =>
      intro k hn hno
      have hne : k.w ≠ k.e := by
        intro he
        rw [he] at hn
        simp at hn
      rw [Ring.contents_snoc k.buf hne, List.mem_append, not_or, List.mem_singleton] at hno
      rw [killLine, if_pos ⟨Ne.symm hne, Ne.symm hno.2⟩, ih _ hno.1]
      rw [Ring.toNat_pred_sub hne, ← hn, Nat.add_sub_cancel]

theorem dvd_wrap : INPUT_BUF_SIZE ∣ 2 ^ 32 := by decide

theorem Sim.store (h : Sim k a) (hroom : (k.e - k.r).toNat < INPUT_BUF_SIZE) (c : Byte) :
    Sim (store k c) { a with line := a.line ++ [c] } := by
  have hlt : INPUT_BUF_SIZE < 2 ^ 32 := by decide
  have hpush := Ring.contents_push dvd_wrap k.buf c hroom hlt
  have hsucc : (k.e + 1 - k.r).toNat = (k.e - k.r).toNat + 1 := Ring.toNat_succ_sub (by omega)
  have hbetween : (k.w - k.r).toNat ≤ (k.e + 1 - k.r).toNat := by
    rw [hsucc]
    exact Nat.le_succ_of_le h.between
  have hlen : (k.w - k.r).toNat ≤ (Ring.contents k.buf k.r k.e).length := by
    rw [Ring.length_contents]
    exact h.between
  constructor
  · exact hbetween
  · show a.queue = Ring.contents (Function.update k.buf _ c) k.r k.w
    rw [Ring.contents_take _ hbetween, hpush, List.take_append_of_le_length hlen,
      ← Ring.contents_take _ h.between, h.queue]
  · show a.line ++ [c] = Ring.contents (Function.update k.buf _ c) k.w (k.e + 1)
    rw [Ring.contents_drop _ hbetween, hpush, List.drop_append_of_le_length hlen,
      ← Ring.contents_drop _ h.between, h.line]

theorem Sim.commit (h : Sim k a) : Sim { k with w := k.e } a.commit := by
  constructor
  · exact Nat.le_refl _
  · show a.queue ++ a.line = Ring.contents k.buf k.r k.e
    rw [Ring.contents_append k.buf h.between, h.queue, h.line]
  · exact (Ring.contents_self ..).symm

theorem Sim.append (h : Sim k a) (hroom : (k.e - k.r).toNat < INPUT_BUF_SIZE) (c : Byte) :
    Sim (let k := Console.store k c
      if c = '\n'.toUInt8 ∨ c = C 'D' ∨ (k.e - k.r).toNat = INPUT_BUF_SIZE then { k with w := k.e } else k)
      (a.append c) := by
  have hstore := h.store hroom c
  unfold Line.append
  simp only [hstore.size]
  split
  · exact hstore.commit
  · exact hstore

theorem Sim.backspace (h : Sim k a) :
    Sim (if k.e ≠ k.w then { k with e := k.e - 1 } else k) { a with line := a.line.dropLast } := by
  by_cases he : k.e = k.w
  · have hnil : a.line = [] := by rw [h.line, he, Ring.contents_self]
    rw [if_neg (by simp [he])]
    refine ⟨h.between, h.queue, ?_⟩
    rw [← h.line, hnil]
    rfl
  · rw [if_pos he]
    have hpos := Ring.toNat_sub_ne_zero (Ne.symm he)
    rw [Ring.toNat_sub_of_between h.between] at hpos
    have hne : k.r ≠ k.e := by
      intro hre
      rw [hre] at hpos
      simp at hpos
    refine ⟨?_, h.queue, ?_⟩
    · show (k.w - k.r).toNat ≤ (k.e - 1 - k.r).toNat
      rw [Ring.toNat_pred_sub hne]
      omega
    · show a.line.dropLast = _
      rw [h.line, ← Ring.contents_pred k.buf (Ne.symm he)]

theorem Sim.intr (h : Sim k a) (hok : a.Ok) (c : Byte) : Sim (consoleintr k c) (a.intr c) := by
  unfold consoleintr Line.intr
  by_cases hP : c = C 'P'
  · rw [if_pos hP, if_pos (Or.inl hP)]
    exact h
  rw [if_neg hP]
  by_cases hzero : c = 0
  · subst hzero
    rw [if_pos (Or.inr rfl), if_neg (by decide), if_neg (by decide), if_neg (by simp)]
    exact h
  have hneither : ¬ (c = C 'P' ∨ c = 0) := by
    rintro (hc | hc)
    · exact hP hc
    · exact hzero hc
  rw [if_neg hneither]
  by_cases hU : c = C 'U'
  · rw [if_pos hU, if_pos hU, killLine_eq rfl (by rw [← h.line]; exact hok.edited)]
    exact ⟨Nat.le_refl _, h.queue, (Ring.contents_self ..).symm⟩
  rw [if_neg hU, if_neg hU]
  by_cases hH : c = C 'H' ∨ c = 0x7f
  · rw [if_pos hH, if_pos hH]
    exact h.backspace
  rw [if_neg hH, if_neg hH, h.size]
  by_cases hroom : (k.e - k.r).toNat < INPUT_BUF_SIZE
  · rw [if_pos ⟨hzero, hroom⟩, if_pos hroom]
    exact h.append hroom _
  · rw [if_neg (fun hand => hroom hand.2), if_neg hroom]
    exact h

theorem Sim.take (h : Sim k a) (hne : k.r ≠ k.w) :
    ∃ rest, a.queue = k.byteAt k.r :: rest ∧ Sim { k with r := k.r + 1 } (a.take (k.byteAt k.r) rest) := by
  refine ⟨Ring.contents k.buf (k.r + 1) k.w, ?_, ?_, rfl, h.line⟩
  · rw [h.queue, Ring.contents_pop k.buf hne]
    rfl
  · have hpos := Ring.toNat_sub_ne_zero hne
    have hbetween := h.between
    have hre : k.r ≠ k.e := by
      intro hre
      rw [hre] at hbetween hpos
      simp at hbetween
      exact hpos (by simpa using hbetween)
    show (k.w - (k.r + 1)).toNat ≤ (k.e - (k.r + 1)).toNat
    rw [Ring.toNat_sub_succ hne, Ring.toNat_sub_succ hre]
    omega

/-- The environment of a reader that is not killed, and whose copies succeed. -/
structure Env.Fine (env : Env) : Prop where
  alive : env.killed = false
  copies : ∀ i, env.copyout i = true

theorem Sim.read {env : Env} (henv : env.Fine) (h : Sim k a) (target n : Nat) (got : List Byte) :
    Sim (readLoop env target n got k).1 (Line.read target n got a).1 ∧
      (readLoop env target n got k).2 = (Line.read target n got a).2 := by
  induction n generalizing got k a with
  | zero => exact ⟨h, rfl⟩
  | succ n ih =>
      unfold readLoop Line.read
      by_cases hempty : k.r = k.w
      · rw [if_pos hempty, henv.alive, h.queue_nil.2 hempty]
        exact ⟨h, rfl⟩
      · obtain ⟨rest, hq, htake⟩ := h.take hempty
        rw [if_neg hempty, hq]
        simp only [henv.copies, Bool.true_eq_false, if_false]
        by_cases hD : k.byteAt k.r = C 'D'
        · rw [if_pos hD, if_pos hD]
          refine ⟨?_, rfl⟩
          by_cases hlate : n + 1 < target
          · -- `^D` is put back
            rw [if_pos hlate, if_pos hlate, BitVec.add_sub_cancel]
            exact h
          · rw [if_neg hlate, if_neg hlate]
            exact htake
        · rw [if_neg hD, if_neg hD]
          by_cases hLF : k.byteAt k.r = '\n'.toUInt8
          · rw [if_pos hLF, if_pos hLF]
            exact ⟨htake, rfl⟩
          · rw [if_neg hLF, if_neg hLF]
            exact ih htake _

/-! ## Runs -/

section Runs

variable {Pid : Type} [DecidableEq Pid]

def Spec.step (s : State Pid Line) (l : Label Pid) : Option (State Pid Line) :=
  stepWith Line.intr (fun _ => Line.read) s l

def Spec.boot (Pid : Type) : State Pid Line :=
  { cons := ⟨[], [], [], []⟩, reader := fun _ => none, ret := fun _ => none }

/-- No reader is killed, and the copies succeed. -/
def Label.Fine : Label Pid → Prop
  | .intr _ => True
  | .read _ _ env => env.Fine
  | .wake _ env => env.Fine

/-- The console and the specification with the same readers. -/
structure Simulates (s : State Pid Cons) (u : State Pid Line) : Prop where
  cons : Sim s.cons u.cons
  ok : u.cons.Ok
  reader : s.reader = u.reader
  ret : s.ret = u.ret

theorem Simulates.finish {s : State Pid Cons} {u : State Pid Line} (h : Simulates s u) {p : Pid}
    {target : Nat} {x : Cons × Outcome} {y : Line × Outcome} (hsim : Sim x.1 y.1) (hok : y.1.Ok)
    (hout : x.2 = y.2) : Simulates (s.finish p target x) (u.finish p target y) := by
  obtain ⟨k, o⟩ := x
  obtain ⟨a, o'⟩ := y
  obtain rfl : o = o' := hout
  cases o with
  | sleep n got =>
      refine ⟨hsim, hok, ?_, h.ret⟩
      simp only [State.finish, h.reader]
  | ret v got =>
      refine ⟨hsim, hok, ?_, ?_⟩
      · simp only [State.finish, h.reader]
      · simp only [State.finish, h.ret]

theorem Simulates.step {s t : State Pid Cons} {u : State Pid Line} {l : Label Pid} (h : Simulates s u)
    (hfine : l.Fine) (hstep : Console.step s l = some t) : ∃ v, Spec.step u l = some v ∧ Simulates t v := by
  cases l with
  | intr c =>
      obtain rfl := Option.some.inj hstep
      exact ⟨_, rfl, h.cons.intr h.ok c, h.ok.intr c, h.reader, h.ret⟩
  | read p n env =>
      cases hr : s.reader p with
      | some r =>
          simp only [Console.step, stepWith, hr] at hstep
          cases hstep
      | none =>
          simp only [Console.step, stepWith, hr] at hstep
          obtain rfl := Option.some.inj hstep
          obtain ⟨hsim, hout⟩ := h.cons.read hfine n n []
          refine ⟨_, ?_, h.finish hsim h.ok.read hout⟩
          simp only [Spec.step, stepWith, ← h.reader, hr]
  | wake p env =>
      obtain ⟨r, hr, rfl⟩ := Option.map_eq_some_iff.1 hstep
      obtain ⟨hsim, hout⟩ := h.cons.read hfine r.target r.n r.got
      refine ⟨_, ?_, h.finish hsim h.ok.read hout⟩
      simp only [Spec.step, stepWith, ← h.reader, hr, Option.map_some]

omit [DecidableEq Pid] in
theorem simulates_boot : Simulates (boot Pid) (Spec.boot Pid) := by
  refine ⟨⟨Nat.le_refl _, ?_, ?_⟩, ⟨Nat.zero_le _, ?_, List.not_mem_nil, rfl⟩, rfl, rfl⟩
  · exact (Ring.contents_self ..).symm
  · exact (Ring.contents_self ..).symm
  · -- an empty console is not full
    intro hfull
    cases hfull

theorem simulates_run : ∀ {ls : List (Label Pid)} {s t : State Pid Cons} {u : State Pid Line},
    Simulates s u → (∀ l ∈ ls, l.Fine) → runSteps step s ls = some t →
      ∃ v, runSteps Spec.step u ls = some v ∧ Simulates t v := by
  intro ls
  induction ls with
  | nil =>
      intro s t u h _ hrun
      obtain rfl := Option.some.inj hrun
      exact ⟨u, rfl, h⟩
  | cons l ls ih =>
      intro s t u h hfine hrun
      obtain ⟨s', hs', hrest⟩ := runSteps_cons_eq_some.1 hrun
      obtain ⟨u', hu', h'⟩ := h.step (hfine l (List.mem_cons_self ..)) hs'
      obtain ⟨v, hv, hsim⟩ := ih h' (fun l' hl' => hfine l' (List.mem_cons_of_mem _ hl')) hrest
      exact ⟨v, runSteps_cons_eq_some.2 ⟨u', hu', hv⟩, hsim⟩

/-- **The line discipline.** A run of the console is a run of the specification, with the same answers to
    all readers. The ring buffer holds the queue and the line; all bytes that were committed have been
    taken in their order or are in the queue; and a full buffer has something to read. -/
theorem line_discipline (ls : List (Label Pid)) (s : State Pid Cons) (hfine : ∀ l ∈ ls, l.Fine)
    (hrun : runSteps step (boot Pid) ls = some s) :
    ∃ u, runSteps Spec.step (Spec.boot Pid) ls = some u ∧ s.reader = u.reader ∧ s.ret = u.ret ∧
      u.cons.queue = Ring.contents s.cons.buf s.cons.r s.cons.w ∧
      u.cons.line = Ring.contents s.cons.buf s.cons.w s.cons.e ∧
      u.cons.queue.length + u.cons.line.length = (s.cons.e - s.cons.r).toNat ∧
      (s.cons.e - s.cons.r).toNat ≤ INPUT_BUF_SIZE ∧
      ((s.cons.e - s.cons.r).toNat = INPUT_BUF_SIZE → u.cons.queue ≠ []) ∧
      u.cons.committed = u.cons.taken ++ u.cons.queue := by
  obtain ⟨u, hu, hsim⟩ := simulates_run simulates_boot hfine hrun
  have hsize : u.cons.queue.length + u.cons.line.length = (s.cons.e - s.cons.r).toNat := hsim.cons.size
  have hok := hsim.ok
  refine ⟨u, hu, hsim.reader, hsim.ret, hsim.cons.queue, hsim.cons.line, hsize, ?_, fun hfull => ?_,
    hok.history⟩
  · rw [← hsize]
    exact hok.size
  · rw [← hsize] at hfull
    exact hok.full hfull

end Runs

/-- Nothing goes wrong. -/
def Env.fine : Env := ⟨false, fun _ => true⟩

/-- A reader waits for a line, which is corrected before it is committed. -/
def corrected : List (Label Unit) :=
  [.read () 8 Env.fine, .intr 'a'.toUInt8, .intr 0x7f, .intr 'b'.toUInt8, .intr '\r'.toUInt8,
    .wake () Env.fine]

theorem corrected_runs : (runSteps step (boot Unit) corrected).isSome := by decide +kernel

theorem line_discipline_corrected :
    ∃ u, runSteps Spec.step (Spec.boot Unit) corrected = some u ∧
      u.ret () = some (2, ['b'.toUInt8, '\n'.toUInt8]) := by
  have hfine : ∀ l ∈ corrected, l.Fine := by
    simp [corrected, Label.Fine, Env.fine]
    exact ⟨rfl, fun _ => rfl⟩
  obtain ⟨s, hs⟩ := Option.isSome_iff_exists.1 corrected_runs
  obtain ⟨u, hu, -⟩ := line_discipline corrected s hfine hs
  refine ⟨u, hu, ?_⟩
  have hret : (runSteps Spec.step (Spec.boot Unit) corrected).map (fun v => v.ret ()) =
      some (some (2, ['b'.toUInt8, '\n'.toUInt8])) := by
    decide +kernel
  rw [hu] at hret
  exact Option.some.inj hret

end Xv6.Console
