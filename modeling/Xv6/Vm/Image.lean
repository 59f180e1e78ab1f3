import Xv6.Vm.Runs

set_option autoImplicit false

/-! # What a new program finds

The loadable segments of an executable are in the order of their addresses. Then each of them is in memory as it is
in the
file, with zeros after it, below the guard page, and the arguments of `exec` are above that. -/

namespace Xv6.Vm.Copy

open Xv6.Lib
open Xv6.Eager (le_maxva)

variable {f : List Byte} {ph : Proghdr} {m m' : UserMem × Nat} {u : UserMem} {sz : Nat}

/-- No segment is below the end of one before it. -/
def Ascending (l : List Proghdr) : Prop :=
  l.Pairwise fun a b => a.type = ELF_PROG_LOAD → b.type = ELF_PROG_LOAD → a.vaddr + a.memsz ≤ b.vaddr

instance (l : List Proghdr) : Decidable (Ascending l) := List.instDecidablePairwise l

/-- The process may read the segment: the bytes in the file, and zeros after them. -/
def Proghdr.Visible (ph : Proghdr) (f : List Byte) (u : UserMem) : Prop :=
  ∀ k, k < ph.memsz → u.readable (ph.vaddr + k) = some ((ph.bytes f).getD k 0)

theorem loadSegment_some (hload : ph.type = ELF_PROG_LOAD) (h : loadSegment f m ph = some m') : ph.Fits f ∧
    m'.2 = max m.2 (ph.vaddr + ph.memsz) ∧ m'.1 = (m.1.grow (PGROUNDUP m.2) (PGROUNDUP m'.2)
      { flags2perm ph.flags with R := true, U := true }).store ph.vaddr (ph.bytes f) := by
  unfold loadSegment at h
  rw [if_neg (not_not.2 hload)] at h
  by_cases hbad : ¬ ph.Fits f ∨ max m.2 (ph.vaddr + ph.memsz) = 0
  · rw [if_pos hbad] at h
    cases h
  · rw [if_neg hbad] at h
    obtain rfl := Option.some.inj h
    exact ⟨not_not.1 (not_or.1 hbad).1, rfl, rfl⟩

/-- A segment above what has been loaded leaves that as it is. -/
theorem loadSegment_visible (hload : ph.type = ELF_PROG_LOAD) (h : loadSegment f m ph = some m')
    (hmax : m'.2 ≤ TRAPFRAME)
    (hle : m.2 ≤ ph.vaddr) : (∀ x, x < m.2 → m'.1 x = m.1 x) ∧ ph.Visible f m'.1 := by
  obtain ⟨hfits, hsize, hmem⟩ := loadSegment_some hload h
  have hend : ph.vaddr + ph.memsz ≤ m'.2 := by
    rw [hsize]
    exact Nat.le_max_right ..
  have hround : m'.2 ≤ PGROUNDUP m'.2 := le_pgroundup (le_maxva hmax)
  have hvaddr : ph.vaddr ≤ MAXVA := le_maxva (by omega)
  have hlow : m.2 ≤ PGROUNDUP m.2 := le_pgroundup (by omega)
  -- the segment starts on a page of its own
  have hstart : PGROUNDUP m.2 ≤ ph.vaddr := by
    rw [← pgroundup_of_aligned hvaddr hfits.2.2.1]
    exact pgroundup_mono hle hvaddr
  refine ⟨fun x hx => ?_, fun k hk => ?_⟩
  · rw [hmem, UserMem.store_of_not_mem (by omega)]
    exact if_neg (by omega)
  · have hgrow : m.1.grow (PGROUNDUP m.2) (PGROUNDUP m'.2) { flags2perm ph.flags with R := true, U := true } (ph.vaddr + k) =
        some ({ flags2perm ph.flags with R := true, U := true }, 0) := if_pos (by omega)
    rw [hmem]
    unfold UserMem.readable UserMem.store
    by_cases hbyte : k < (ph.bytes f).length
    · rw [if_pos (by omega), hgrow, Nat.add_sub_cancel_left]
      rfl
    · rw [if_neg (by omega), hgrow, List.getD_eq_default _ _ (Nat.not_lt.1 hbyte)]
      rfl

theorem segments_visible {l : List Proghdr} (h : l.foldlM (loadSegment f) m = some m') (hmax : m'.2 ≤ TRAPFRAME)
    (hle : ∀ ph ∈ l, ph.type = ELF_PROG_LOAD → m.2 ≤ ph.vaddr) (hasc : Ascending l) :
    m.2 ≤ m'.2 ∧ (∀ x, x < m.2 → m'.1 x = m.1 x) ∧
      ∀ ph ∈ l, ph.type = ELF_PROG_LOAD → ph.vaddr + ph.memsz ≤ m'.2 ∧ ph.Visible f m'.1 := by
  induction l generalizing m with
  | nil =>
    obtain rfl := Option.some.inj h
    exact ⟨Nat.le_refl _, fun _ _ => rfl, fun ph hin => absurd hin List.not_mem_nil⟩
  | cons ph l ih =>
    rw [List.foldlM_cons, Option.bind_eq_bind, Option.bind_eq_some_iff] at h
    obtain ⟨m₁, hseg, hrest⟩ := h
    unfold Ascending at hasc
    rw [List.pairwise_cons] at hasc
    by_cases hload : ph.type = ELF_PROG_LOAD
    · obtain ⟨-, hsize, -⟩ := loadSegment_some hload hseg
      have hhead := hle ph List.mem_cons_self hload
      have hnext : ∀ ph' ∈ l, ph'.type = ELF_PROG_LOAD → m₁.2 ≤ ph'.vaddr := fun ph' hin htype => by
        have hafter := hasc.1 ph' hin hload htype
        omega
      obtain ⟨hmono, hkeep, hall⟩ := ih hrest hnext hasc.2
      obtain ⟨hbelow, hvisible⟩ := loadSegment_visible hload hseg (by omega) hhead
      have hend : ph.vaddr + ph.memsz ≤ m₁.2 := by omega
      -- the segments after this one are above it, and leave it as it is
      refine ⟨by omega, fun x hx => (hkeep x (by omega)).trans (hbelow x hx), fun ph' hin htype => ?_⟩
      rcases List.mem_cons.1 hin with rfl | hin
      · refine ⟨by omega, fun k hk => ?_⟩
        unfold UserMem.readable
        rw [hkeep _ (by omega)]
        exact hvisible k hk
      · exact hall ph' hin htype
    · rw [loadSegment_other hload] at hseg
      obtain rfl := Option.some.inj hseg
      obtain ⟨hmono, hkeep, hall⟩ := ih hrest (fun ph' hin => hle ph' (List.mem_cons_of_mem ph hin)) hasc.2
      refine ⟨hmono, hkeep, fun ph' hin htype => ?_⟩
      rcases List.mem_cons.1 hin with rfl | hin
      · exact absurd htype hload
      · exact hall ph' hin htype

/-! ## A program that has been started -/

variable {argv : List (List Byte)} {start : Start}

/-- The segments are below the guard page. -/
theorem Started.segments (h : Started f argv start sz u) {l : List Proghdr} (hl : program f = some l)
    (hasc : Ascending l)
    (hin : ph ∈ l) (hload : ph.type = ELF_PROG_LOAD) : ph.Visible f u := by
  obtain ⟨-, m, placed, himage, hmax, hsz, hlayout⟩ := h
  unfold image at himage
  rw [hl, Option.bind_some] at himage
  obtain ⟨-, -, hall⟩ := segments_visible himage hmax (fun _ _ _ => Nat.zero_le _) hasc
  obtain ⟨hend, hvisible⟩ := hall ph hin hload
  intro k hk
  have hround : m.2 ≤ PGROUNDUP m.2 := le_pgroundup (le_maxva hmax)
  have hbelow : ph.vaddr + k < PGROUNDUP m.2 := by omega
  -- neither the stack nor the arguments are below the guard page
  have hsame : u (ph.vaddr + k) = m.1 (ph.vaddr + k) := by
    rw [hlayout.outside _ (.inl (by unfold USERSTACK at *; omega))]
    unfold UserMem.withStack UserMem.clear UserMem.grow
    rw [if_neg (by omega), if_neg (by omega)]
  have hread := hvisible k hk
  unfold UserMem.readable at *
  rwa [hsame]

/-- The page below the stack is not for the process. -/
theorem Started.guard (h : Started f argv start sz u) {x : Nat} (hlo : sz - (USERSTACK + 1) * PGSIZE ≤ x)
    (hhi : x < sz - USERSTACK * PGSIZE) : u.readable x = none ∧ u.writable x = false := by
  obtain ⟨-, m, placed, -, -, hsz, hlayout⟩ := h
  have hclear : u x = some ({ userRW with U := false }, 0) := by
    rw [hlayout.outside x (.inl hhi)]
    unfold UserMem.withStack UserMem.clear UserMem.grow
    unfold USERSTACK at *
    rw [if_pos (by omega), if_pos (by omega)]
    rfl
  unfold UserMem.readable UserMem.writable
  rw [hclear]
  exact ⟨rfl, rfl⟩

/-- The arguments are where the array at `sp` says. -/
theorem Started.argument (h : Started f argv start sz u) {k : Nat} {arg : List Byte} (hk : argv[k]? = some arg) :
    ∃ a, u.read (start.sp + 8 * k) 8 = le64 a ∧ u.read a (arg.length + 1) = arg ++ [0] := by
  obtain ⟨-, m, placed, -, -, -, hlayout⟩ := h
  rw [← hlayout.args, List.getElem?_map, Option.map_eq_some_iff] at hk
  obtain ⟨q, hq, rfl⟩ := hk
  exact ⟨q.1, hlayout.pointer k q hq, hlayout.string q (List.mem_of_getElem? hq)⟩

section Machine

variable {Pid : Type} [DecidableEq Pid] [Fintype Pid] {T : Multiset Nat} {trampoline : Nat} {s₀ s s' : Machine Pid}
    {i : Pid}

/-- When `exec` has succeeded, the process has been given the segments of the file that it has named, with a guard
page above
    them, and the arguments that it has passed; and no other process has changed. -/
theorem exec_starts {as : List (Act Pid)} {es : List (Event Pid)} {files : List Byte → Option (List Byte)}
    {upath uargv : Nat}
    {u : User} {start : Start} (hS : Setup T trampoline) (h : Booted T s₀) (hfit₀ : FitAll trampoline s₀ as)
    (hrun : run trampoline as s₀ = .ok (es, s)) (hfit : Fits s (.exec i files upath uargv)) (hu : s.users i = some u)
    (hstep : step trampoline (.exec i files upath uargv) s = .ok (.program (some start), s')) :
    ∃ f args u', files (u.mem.readString upath MAXPATH).2.dropLast = some f ∧
    u.mem.args u.sz uargv MAXARG 0 = some args ∧
      s'.users = Function.update s.users i (some u') ∧ start.entry = (elfhdr (readi f 0 elfhdrSize)).entry ∧
      start.argc = args.length ∧
      (∀ l, program f = some l → Ascending l → ∀ ph ∈ l, ph.type = ELF_PROG_LOAD → ph.Visible f u'.mem) ∧
      (∀ x, u'.sz - (USERSTACK + 1) * PGSIZE ≤ x → x < u'.sz - USERSTACK * PGSIZE →
        u'.mem.readable x = none ∧ u'.mem.writable x = false) ∧
      ∀ k arg, args[k]? = some arg →
        ∃ a, u'.mem.read (start.sp + 8 * k) 8 = le64 a ∧ u'.mem.read a (arg.length + 1) = arg ++ [0] := by
  obtain ⟨-, hinv, -⟩ := run_returned hS h.inv hfit₀ hrun
  obtain ⟨r, t, hstep', -, hdoes⟩ := step_spec hS hinv hfit
  rw [hstep] at hstep'
  obtain ⟨rfl, rfl⟩ := Prod.mk.inj (Except.ok.inj hstep')
  cases hdoes with
  | @exec i w u' files upath uargv f args start _ hw hpath hfile hargs hstarted hs =>
    obtain rfl := Option.some.inj (hw.symm.trans hu)
    refine ⟨f, args, u', hfile, hargs, hs, hstarted.1, ?_, fun l hl hasc ph hin hload =>
      hstarted.segments hl hasc hin hload,
      fun x hlo hhi => hstarted.guard hlo hhi, fun k arg hk => hstarted.argument hk⟩
    obtain ⟨-, m, placed, -, -, -, hlayout⟩ := hstarted
    exact hlayout.count

end Machine

/-- An executable with one segment, of four bytes and four zeros. -/
def tinyElf : List Byte :=
  [0x7F, 0x45, 0x4C, 0x46] ++ List.replicate 28 0 ++ [64] ++ List.replicate 23 0 ++ [1] ++ List.replicate 7 0 ++
    [1, 0, 0, 0, 5, 0, 0, 0, 120] ++ List.replicate 23 0 ++ [4] ++ List.replicate 7 0 ++ [8] ++ List.replicate 15 0
    ++ [1, 2, 3, 4]

def tinyFiles (path : List Byte) : Option (List Byte) := if path = [97] then some tinyElf else none

theorem tinyFiles_some {path f : List Byte} (h : tinyFiles path = some f) : f = tinyElf := by
  unfold tinyFiles at h
  by_cases hpath : path = [97]
  · rw [if_pos hpath] at h
    exact (Option.some.inj h).symm
  · rw [if_neg hpath] at h
    cases h

/-- The process has its path at 0, its array of arguments at 8, and one argument at 24. -/
def tinyActs : List (Act (Bool)) :=
  [.sbrk false 4096 false, .copyout false 0 ([97] ++ List.replicate 7 0 ++ [24] ++ List.replicate 15 0 ++ [98, 0])]

theorem exec_starts_tiny : ∃ es s s' u', run bareTrampoline (.allocproc false :: tinyActs) bare = .ok (es, s) ∧
    step bareTrampoline (.exec false tinyFiles 0 8) s = .ok (.program (some ⟨1, 12256, 0⟩), s') ∧
    s'.users false = some u' ∧
    u'.mem.readable 2 = some 3 ∧ u'.mem.readable 5 = some 0 := by
  have hfit₀ : FitAll bareTrampoline bare (.allocproc false :: tinyActs) := by
    refine ⟨trivial, fun r s h => ?_⟩
    obtain ⟨p, hp, hsz⟩ := bare_started h
    refine ⟨fun q hq _ => ?_, fun _ _ _ => ⟨trivial, fun _ _ _ => trivial⟩⟩
    obtain rfl := Option.some.inj (hp.symm.trans hq)
    rw [hsz]
    decide
  obtain ⟨es, s, hrun, -, hinv, -⟩ := run_spec bare_setup bare_booted.inv hfit₀
  have hfit : Fits s (.exec false tinyFiles 0 8) := fun path f hf => by
    rw [tinyFiles_some hf]
    decide +kernel
  obtain ⟨r, s', hstep, -⟩ := step_spec bare_setup hinv hfit
  have heval : ((run bareTrampoline (.allocproc false :: tinyActs) bare).toOption.any fun q => (q.2.proc false).isSome &&
      (step bareTrampoline (.exec false tinyFiles 0 8) q.2).toOption.any fun q =>
      q.1 = .program (some ⟨1, 12256, 0⟩)) = true := by
    decide +kernel
  rw [hrun, Except.toOption, Option.any_some, hstep, Except.toOption, Option.any_some, Bool.and_eq_true,
    decide_eq_true_eq] at heval
  obtain ⟨hsome, rfl⟩ := heval
  obtain ⟨p, hp⟩ := Option.isSome_iff_exists.1 hsome
  obtain ⟨f, args, u', hfile, -, hs', -, -, hsegs, -⟩ :=
    exec_starts bare_setup bare_booted hfit₀ hrun hfit (users_some hp) hstep
  obtain rfl := tinyFiles_some hfile
  have hvisible := hsegs [⟨1, 5, 120, 0, 4, 8⟩] (by decide +kernel) (by decide) _ List.mem_cons_self rfl
  refine ⟨es, s, s', u', hrun, hstep, by rw [hs', Function.update_self], (hvisible 2 (by decide)).trans ?_,
    (hvisible 5 (by decide)).trans ?_⟩
  · decide +kernel
  · decide +kernel

end Xv6.Vm.Copy
