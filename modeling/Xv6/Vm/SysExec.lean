import Xv6.Vm.Exec

set_option autoImplicit false

/-! # The arguments of `exec`

`sys_exec` of `kernel/sysfile.c`, with `fetchaddr` and `fetchstr` of `kernel/syscall.c`: the strings are fetched
from the old memory of the process, each to a page of its own, and the pages are freed when `kexec` has returned. -/

namespace Xv6.Vm.Copy

open Xv6.Lib

/-- maximum file path name -/
def MAXPATH : Nat := 128

/-- The process, 0 or -1, and the `uint64` at `addr`. -/
def fetchaddr (p : Proc) (addr : Nat) : KR (Proc × Int × Nat) :=
  if p.sz ≤ addr ∨ p.sz < (addr + 8) % 2 ^ 64 then pure (p, -1, 0)
  else do
    let r ← copyin p addr 8
    if r.2.1 ≠ 0 then pure (r.1, -1, 0) else pure (r.1, 0, field r.2.2 0 8)

/-- The loop of `sys_exec`, with `k` entries of `argv` left: the process, the pages, and the strings on them; `none` for
    `goto bad`. -/
def fetchArgs (uargv : Nat) : Nat → Proc → List Nat → List (List Byte) →
    KR (Proc × List Nat × Option (List (List Byte)))
  | 0, p, pages, _ => pure (p, pages, none)
  | k + 1, p, pages, args => do
    let a ← fetchaddr p ((uargv + 8 * args.length) % 2 ^ 64)
    if a.2.1 < 0 then pure (a.1, pages, none)
    else if a.2.2 = 0 then pure (a.1, pages, some args)
    else match ← kalloc with
      | none => pure (a.1, pages, none)
      | some page => do
        let s ← copyinstr a.1.pagetable a.2.2 PGSIZE
        memmove page s.2
        if s.1 < 0 then pure (a.1, pages ++ [page], none)
        else fetchArgs uargv k a.1 (pages ++ [page]) (args ++ [s.2.dropLast])

/-- `namei` finds the file of a path in `files`. The process, and `none` for -1. -/
def sysExec (p : Proc) (trampoline : Nat) (files : List Byte → Option (List Byte)) (upath uargv : Nat) :
    KE (Proc × Option Start) := do
  let path ← vm (copyinstr p.pagetable upath MAXPATH)
  if path.1 < 0 then pure (p, none)
  else do
    let a ← vm (fetchArgs uargv MAXARG p [] [])
    match a.2.2, files path.2.dropLast with
    | some args, some f => do
      let q ← kexec a.1 trampoline f args
      vm (a.2.1.forM kfree)
      pure q
    | _, _ => do
      vm (a.2.1.forM kfree)
      pure (a.1, none)

/-- The arguments that the array of pointers at `uargv` has from entry `i` on, at most `k` of them with the null. -/
def UserMem.args (u : UserMem) (sz uargv : Nat) : Nat → Nat → Option (List (List Byte))
  | 0, _ => none
  | k + 1, i =>
    let a := (uargv + 8 * i) % 2 ^ 64
    if sz ≤ a ∨ sz < (a + 8) % 2 ^ 64 ∨ (u.read a 8).length ≠ 8 then none
    else if field (u.read a 8) 0 8 = 0 then some []
    else if (u.readString (field (u.read a 8) 0 8) PGSIZE).1 ≠ 0 then none
    else (u.args sz uargv k (i + 1)).map ((u.readString (field (u.read a 8) 0 8) PGSIZE).2.dropLast :: ·)

/-- The pointer that is entry `i` of the array at `uargv`. -/
def UserMem.arg (u : UserMem) (uargv i : Nat) : Nat := field (u.read ((uargv + 8 * i) % 2 ^ 64) 8) 0 8

/-- The arguments cannot be fetched: they are not there, or one of them ends in a page of zeros. -/
def UserMem.MissesArgs (u : UserMem) (sz uargv k i : Nat) : Prop :=
  u.args sz uargv k i = none ∨
    ∃ j, i ≤ j ∧ j < i + k ∧ u.Blank (u.arg uargv j + ((u.readString (u.arg uargv j) PGSIZE).2.length - 1))

/-- A call of `exec` fails even if memory does not run out. -/
def UserMem.Rejects (u : UserMem) (sz : Nat) (files : List Byte → Option (List Byte)) (upath uargv : Nat) : Prop :=
  u.Misses upath MAXPATH ∨ files (u.readString upath MAXPATH).2.dropLast = none ∨ u.MissesArgs sz uargv MAXARG 0 ∨
    ∃ f args, files (u.readString upath MAXPATH).2.dropLast = some f ∧ u.args sz uargv MAXARG 0 = some args ∧
      Refused f args

variable {T X : Multiset Nat} {b₀ : Nat → Byte} {trampoline uargv : Nat} {p : Proc} {u : UserMem} {sh : Bool} {r : Ram}

/-- It is not known whether memory has run out. -/
theorem Holds.anyhow (h : Holds T b₀ trampoline X p u sh r) : Holds T b₀ trampoline X p u false r :=
  h.shorter Bool.noConfusion

/-- The process sees `u`, and has its size. -/
def Sees (T : Multiset Nat) (b₀ : Nat → Byte) (trampoline : Nat) (X : Multiset Nat) (sz : Nat) (u : UserMem)
    (sh : Bool) (p : Proc) (r : Ram) : Prop := p.sz = sz ∧ Holds T b₀ trampoline X p u sh r

/-! ## Pages that the code holds -/

theorem kalloc_holds (hT : Frames T) : Runs (Holds T b₀ trampoline X p u sh) kalloc
    (Cases (Holds T b₀ trampoline X p u true) fun pa => Holds T b₀ trampoline (X + {pa}) p u sh) := by
  refine Triple.each fun r h => ?_
  refine (kalloc_at hT).conseq (fun s hs => by subst hs; exact h.space) fun o s hs => ?_
  cases o with
  | none => exact ⟨h.size, hs⟩
  | some pa =>
    refine ⟨h.size, ?_⟩
    rw [show X + {pa} + {p.trapframe} + {p.root} = X + {p.trapframe} + {p.root} + {pa} by abel]
    exact hs

theorem kfree_holds (hT : Frames T) (pa : Nat) :
    Runs (Holds T b₀ trampoline (X + {pa}) p u sh) (kfree pa) fun _ => Holds T b₀ trampoline X p u sh := by
  refine Triple.each fun r h => ?_
  have hspace := h.space
  rw [show X + {pa} + {p.trapframe} + {p.root} = X + {p.trapframe} + {p.root} + {pa} by abel] at hspace
  exact (kfree_at hT).conseq (fun s hs => by subst hs; exact hspace) fun _ s hs => ⟨h.size, hs⟩

theorem coe_snoc (X : Multiset Nat) (pa : Nat) (pages : List Nat) :
    X + ((pages ++ [pa] : List Nat) : Multiset Nat) = X + (pages : Multiset Nat) + {pa} := by
  rw [← Multiset.coe_add, Multiset.coe_singleton, add_assoc]

theorem coe_cons (X : Multiset Nat) (pa : Nat) (pages : List Nat) :
    X + ((pa :: pages : List Nat) : Multiset Nat) = X + (pages : Multiset Nat) + {pa} := by
  rw [← Multiset.cons_coe, ← Multiset.singleton_add, add_comm ({pa} : Multiset Nat), add_assoc]

/-- The pages of the arguments are freed. -/
theorem freePages_holds (hT : Frames T) (pages : List Nat) :
    Runs (Holds T b₀ trampoline (X + (pages : Multiset Nat)) p u sh) (pages.forM kfree) fun _ =>
    Holds T b₀ trampoline X p u sh := by
  have hround : ∀ pa (l : List Nat),
    Runs (Holds T b₀ trampoline (X + ((pa :: l : List Nat) : Multiset Nat)) p u sh) (kfree pa)
      fun _ => Holds T b₀ trampoline (X + (l : Multiset Nat)) p u sh := by
    intro pa l
    rw [coe_cons]
    exact kfree_holds hT pa
  refine (Triple.forM_left (I := fun l : List Nat => Holds T b₀ trampoline (X + (l : Multiset Nat)) p u sh) hround
    pages).conseq
    (fun _ h => h) fun _ r h => ?_
  rwa [Multiset.coe_nil, add_zero] at h

theorem memmove_holds {pa : Nat} {bs : List Byte} (hT : Frames T) (hpa : pa ∈ X) (hlen : bs.length ≤ PGSIZE) :
    Runs (Holds T b₀ trampoline X p u sh) (memmove pa bs) fun _ => Holds T b₀ trampoline X p u sh := by
  refine Triple.of_ok fun r h => ⟨_, _, memmove_eq pa bs r, h.size, h.space.bytes hT ?_⟩
  have hmem : pa ∈ X + {p.trapframe} + {p.root} := Multiset.mem_add.2 (.inl (Multiset.mem_add.2 (.inl hpa)))
  have hwithin := within_moved (n := 0) hmem (by rwa [Nat.zero_add]) r.byte
  rwa [Nat.add_zero] at hwithin

/-! ## Fetching -/

theorem fetchaddr_at (hT : Frames T) (addr : Nat) :
    Runs (Holds T b₀ trampoline X p u false) (fetchaddr p addr) fun q r =>
      Sees T b₀ trampoline X p.sz u false q.1 r ∧
      (q.2.1 = 0 → ¬ (p.sz ≤ addr ∨ p.sz < (addr + 8) % 2 ^ 64 ∨ (u.read addr 8).length ≠ 8) ∧
        q.2.2 = field (u.read addr 8) 0 8) ∧
      (q.2.1 = 0 ∨ q.2.1 = -1 ∧ (Sees T b₀ trampoline X p.sz u true q.1 r ∨
        p.sz ≤ addr ∨ p.sz < (addr + 8) % 2 ^ 64 ∨ (u.read addr 8).length ≠ 8)) := by
  have hne : (-1 : Int) ≠ 0 := by decide
  unfold fetchaddr
  refine Triple.ite (fun hout => Triple.pure _ fun r h => ?_) fun hin => ?_
  · exact ⟨⟨rfl, h⟩, fun h0 => absurd h0 hne, .inr ⟨rfl, .inr (hout.imp_right .inl)⟩⟩
  refine Triple.bind (copyin_at hT addr 8) fun q => ?_
  refine Triple.ite (fun hneg => Triple.pure _ fun r h => ?_) fun h0 => Triple.pure _ fun r h => ?_
  · obtain ⟨hsz, ⟨hat, -⟩ | ⟨hat, hread, hres⟩⟩ := h
    · exact ⟨⟨hsz, hat.anyhow⟩, fun h0 => absurd h0 hne, .inr ⟨rfl, .inl ⟨hsz, hat⟩⟩⟩
    · refine ⟨⟨hsz, hat⟩, fun h0 => absurd h0 hne, .inr ⟨rfl, .inr (.inr (.inr fun hlen => hneg ?_))⟩⟩
      rw [hres, hread, if_pos hlen]
  · obtain ⟨hsz, hr⟩ := h
    obtain ⟨hat, hread, hres⟩ := hr.resolve_left fun hr => h0 (by rw [hr.2]; exact hne)
    refine ⟨⟨hsz, hat⟩, fun _ => ⟨fun hbad => ?_, by rw [hread]⟩, .inl rfl⟩
    by_cases hlen : q.2.2.length = 8
    · rw [hread] at hlen
      rcases hbad with hbad | hbad | hbad
      · exact hin (.inl hbad)
      · exact hin (.inr hbad)
      · exact hbad hlen
    · rw [hres, if_neg hlen] at h0
      exact h0 hne

/-- What is left of the arguments after one of them. -/
theorem UserMem.MissesArgs.next {sz k i : Nat} (h : u.MissesArgs sz uargv k (i + 1))
    (hin : ¬ (sz ≤ (uargv + 8 * i) % 2 ^ 64 ∨ sz < ((uargv + 8 * i) % 2 ^ 64 + 8) % 2 ^ 64 ∨
      (u.read ((uargv + 8 * i) % 2 ^ 64) 8).length ≠ 8))
    (h0 : u.arg uargv i ≠ 0) (hs : (u.readString (u.arg uargv i) PGSIZE).1 = 0) :
    u.MissesArgs sz uargv (k + 1) i := by
  unfold UserMem.arg at h0 hs
  rcases h with h | ⟨j, hlo, hhi, hblank⟩
  · refine .inl ?_
    rw [UserMem.args, if_neg hin, if_neg h0, if_neg (not_not.2 hs), h]
    rfl
  · exact .inr ⟨j, by omega, by omega, hblank⟩

theorem fetchArgs_at (hT : Frames T) (htr : Trampoline T trampoline) (k : Nat) (pages : List Nat)
    (args : List (List Byte))
    (hk : args.length + k = MAXARG) (hlen : ∀ s ∈ args, s.length ≤ PGSIZE - 1) :
    Runs (Holds T b₀ trampoline (X + (pages : Multiset Nat)) p u false) (fetchArgs uargv k p pages args) fun q r =>
      Sees T b₀ trampoline (X + (q.2.1 : Multiset Nat)) p.sz u false q.1 r ∧
      (∀ all, q.2.2 = some all → all.length ≤ MAXARG - 1 ∧ (∀ s ∈ all, s.length ≤ PGSIZE - 1) ∧
        ∃ rest, u.args p.sz uargv k args.length = some rest ∧ all = args ++ rest) ∧
      (q.2.2 = none → Sees T b₀ trampoline (X + (q.2.1 : Multiset Nat)) p.sz u true q.1 r ∨
        u.MissesArgs p.sz uargv k args.length) := by
  have hnone : ∀ {β : Type} (all : β), (none : Option β) ≠ some all := fun all => (Option.some_ne_none all).symm
  induction k generalizing p pages args with
  | zero => exact Triple.pure _ fun r h => ⟨⟨rfl, h⟩, fun all hall => absurd hall (hnone all), fun _ => .inr (.inl rfl)⟩
  | succ k ih =>
    unfold fetchArgs
    refine Triple.bind (fetchaddr_at hT _) fun a => ?_
    refine Triple.ite (fun hneg => Triple.pure _ fun r h => ⟨h.1, fun all hall => absurd hall (hnone all), fun _ => ?_⟩)
      fun hok => ?_
    · -- the pointer cannot be read
      have hzero : a.2.1 ≠ 0 := fun h0 => by
        rw [h0] at hneg
        exact absurd hneg (by decide)
      exact (h.2.2.resolve_left hzero).2.imp_right fun hbad => .inl (by rw [UserMem.args, if_pos hbad])
    refine Triple.each fun r₀ h => ?_
    obtain ⟨⟨hsz, hat⟩, hres, hcase⟩ := h
    obtain ⟨hin, hptr⟩ := hres (hcase.resolve_right fun hneg => hok (by rw [hneg.1]; decide))
    have hargs : u.args p.sz uargv (k + 1) args.length = _ := if_neg hin
    rw [hargs, ← hptr]
    refine Triple.conseq (P := Holds T b₀ trampoline (X + (pages : Multiset Nat)) a.1 u false) ?_
      (fun r (hr : r = r₀) => hr ▸ hat)
      fun _ _ h => h
    refine Triple.ite (fun h0 => Triple.pure _ fun r h =>
      ⟨⟨hsz, h⟩, fun all hall => ?_, fun hall => absurd hall (Option.some_ne_none args)⟩) fun h0 => ?_
    · obtain rfl := Option.some.inj hall
      refine ⟨?_, hlen, [], if_pos h0, (List.append_nil _).symm⟩
      unfold MAXARG at *
      omega
    refine Triple.bind (kalloc_holds hT) fun o => ?_
    cases o with
    | none =>
      exact Triple.pure _ fun r h =>
        ⟨⟨hsz, Holds.anyhow h⟩, fun all hall => absurd hall (hnone all), fun _ => .inl ⟨hsz, h⟩⟩
    | some page =>
      have hpage : page ∈ X + (pages : Multiset Nat) + {page} :=
        Multiset.mem_add.2 (.inr (Multiset.mem_singleton_self page))
      refine Triple.bind (copyinstr_at hT htr.nonzero a.2.2 PGSIZE) fun s => ?_
      refine Triple.each fun r₁ h => ?_
      obtain ⟨hat₁, hread, hres₁, hsize⟩ := h
      refine Triple.conseq (P := Holds T b₀ trampoline (X + (pages : Multiset Nat) + {page}) a.1 u false) ?_
        (fun r (hr : r = r₁) => hr ▸ hat₁) fun _ _ h => h
      refine Triple.bind (memmove_holds hT hpage hsize) fun _ => ?_
      rw [← coe_snoc]
      refine Triple.ite (fun hneg => Triple.pure _ fun r h =>
        ⟨⟨hsz, h⟩, fun all hall => absurd hall (hnone all), fun _ => .inr ?_⟩) fun hneg => ?_
      · -- the string cannot be read
        have hzero : s.1 ≠ 0 := fun h0 => by
          rw [h0] at hneg
          exact absurd hneg (by decide)
        rcases (hres₁.resolve_left hzero).2 with hmiss | hblank
        · refine .inl ?_
          rw [hargs, ← hptr, if_neg h0, if_pos hmiss]
        · refine .inr ⟨args.length, Nat.le_refl _, by omega, ?_⟩
          rw [UserMem.arg, ← hptr]
          exact hblank
      have hok₁ : s.1 = 0 := hres₁.resolve_right fun hr => hneg (by rw [hr.1]; decide)
      have hs := hread hok₁
      have hstring : (u.readString a.2.2 PGSIZE).1 = 0 := by rw [← hs, hok₁]
      have hlen₁ : ∀ s' ∈ args ++ [s.2.dropLast], s'.length ≤ PGSIZE - 1 := by
        intro s' hs'
        rcases List.mem_append.1 hs' with hs' | hs'
        · exact hlen s' hs'
        · rw [List.mem_singleton.1 hs', List.length_dropLast]
          omega
      have hcount : (args ++ [s.2.dropLast]).length = args.length + 1 := by
        rw [List.length_append, List.length_singleton]
      refine (ih (pages ++ [page]) (args ++ [s.2.dropLast]) (by omega) hlen₁).conseq (fun _ h => h) fun q r h => ?_
      obtain ⟨⟨hsz', hat'⟩, hall, hmiss⟩ := h
      rw [hsz, hcount] at hmiss
      refine ⟨⟨hsz'.trans hsz, hat'⟩, fun all hq => ?_, fun hq => ?_⟩
      · obtain ⟨hmax, hlens, rest, hrest, heq⟩ := hall all hq
        refine ⟨hmax, hlens, s.2.dropLast :: rest, ?_, by rw [heq, List.append_assoc]; rfl⟩
        rw [hsz, hcount] at hrest
        rw [if_neg h0, if_neg (not_not.2 hstring), hrest, ← hs]
        rfl
      · rw [hptr] at h0 hstring
        exact (hmiss hq).imp_right fun h => h.next hin h0 hstring

/-! ## `sys_exec` -/

/-- A program has been started with the arguments that the process has passed, or the process sees what it saw. -/
def ExecDone (T : Multiset Nat) (b₀ : Nat → Byte) (trampoline : Nat) (X : Multiset Nat) (p : Proc) (u : UserMem)
    (files : List Byte → Option (List Byte)) (upath uargv : Nat) (q : Proc × Option Start) (r : Ram) : Prop :=
  (∃ start u' f args, q.2 = some start ∧ (u.readString upath MAXPATH).1 = 0 ∧
    files (u.readString upath MAXPATH).2.dropLast = some f ∧ u.args p.sz uargv MAXARG 0 = some args ∧
    Started f args start q.1.sz u' ∧ Holds T b₀ trampoline X q.1 u' false r) ∨
  q.2 = none ∧ Sees T b₀ trampoline X p.sz u false q.1 r ∧
    (Sees T b₀ trampoline X p.sz u true q.1 r ∨ u.Rejects p.sz files upath uargv)

/-- The pages are freed after a call that has failed. -/
theorem execBad_at {files : List Byte → Option (List Byte)} {upath : Nat} {q : Proc} {o : Option Start}
    (hT : Frames T) (pages : List Nat) (ho : o = none) (h : Sees T b₀ trampoline (X + (pages : Multiset Nat)) p.sz u false q r)
    (hwhy : Sees T b₀ trampoline (X + (pages : Multiset Nat)) p.sz u true q r ∨ u.Rejects p.sz files upath uargv) :
    RunsE (fun s => s = r) (do vm (pages.forM kfree); pure (q, o))
      (ExecDone T b₀ trampoline X p u files upath uargv) := by
  rcases hwhy with hshort | hrejects
  · exact (Triple.bind (Triple.vm (freePages_holds hT pages)) fun _ => Triple.pure _ fun s hs =>
      .inr ⟨ho, ⟨h.1, hs.anyhow⟩, .inl ⟨h.1, hs⟩⟩ :
      RunsE (Holds T b₀ trampoline (X + (pages : Multiset Nat)) q u true) _ _).conseq
      (fun s hs => hs ▸ hshort.2) fun _ _ h => h
  · exact (Triple.bind (Triple.vm (freePages_holds hT pages)) fun _ => Triple.pure _ fun s hs =>
      .inr ⟨ho, ⟨h.1, hs⟩, .inr hrejects⟩ :
      RunsE (Holds T b₀ trampoline (X + (pages : Multiset Nat)) q u false) _ _).conseq
      (fun s hs => hs ▸ h.2) fun _ _ h => h

theorem sysExec_at {files : List Byte → Option (List Byte)} (hT : Frames T) (htr : Trampoline T trampoline)
    (hcard : T.card < TRAPFRAME / PGSIZE) (hfiles : ∀ path f, files path = some f → f.length < 2 ^ 32)
    (upath uargv : Nat) :
    RunsE (Holds T b₀ trampoline X p u sh) (sysExec p trampoline files upath uargv)
      (ExecDone T b₀ trampoline X p u files upath uargv) := by
  unfold sysExec
  refine Triple.bind (Triple.vm (copyinstr_at hT htr.nonzero upath MAXPATH)) fun path => ?_
  refine Triple.ite (fun hneg => Triple.pure _ fun r h => .inr ⟨rfl, ⟨rfl, h.1.anyhow⟩, .inr (.inl ?_)⟩) fun hneg => ?_
  · exact (h.2.2.1.resolve_left fun h0 => by rw [h0] at hneg; exact absurd hneg (by decide)).2
  refine Triple.each fun r₀ h => ?_
  obtain ⟨hat, hread, hres, -⟩ := h
  have hok : path.1 = 0 := hres.resolve_right fun hr => hneg (by rw [hr.1]; decide)
  have hpath := hread hok
  refine Triple.conseq (P := Holds T b₀ trampoline (X + (([] : List Nat) : Multiset Nat)) p u false) ?_
    (fun r (hr : r = r₀) => by rw [hr, Multiset.coe_nil, add_zero]; exact hat.anyhow) fun _ _ h => h
  refine Triple.bind (Triple.vm (fetchArgs_at hT htr MAXARG [] [] (Nat.zero_add _) fun s hs =>
    absurd hs List.not_mem_nil)) fun a => ?_
  refine Triple.each fun r₁ h => ?_
  obtain ⟨hsees, hargs, hmiss⟩ := h
  cases hall : a.2.2 with
  | none => exact execBad_at hT a.2.1 rfl hsees ((hmiss hall).imp_right fun h => .inr (.inr (.inl h)))
  | some args =>
    cases hfile : files path.2.dropLast with
    | none => exact execBad_at hT a.2.1 rfl hsees (.inr (.inr (.inl (by rw [← hpath]; exact hfile))))
    | some f =>
      obtain ⟨hmax, hlens, rest, hrest, heq⟩ := hargs args hall
      rw [List.nil_append] at heq
      rw [List.length_nil, ← heq] at hrest
      rw [hpath] at hok hfile
      refine Triple.conseq (P := Holds T b₀ trampoline (X + (a.2.1 : Multiset Nat)) a.1 u false) ?_
        (fun r (hr : r = r₁) => hr ▸ hsees.2) fun _ _ h => h
      refine Triple.bind (kexec_at hT hcard (hfiles _ f hfile) hmax hlens) fun q => ?_
      refine Triple.each fun r₂ h => ?_
      rcases h with ⟨start, u', hq, hstarted, hat₂⟩ | ⟨hq, hqp, hat₂⟩
      · exact (Triple.bind (Triple.vm (freePages_holds hT a.2.1)) fun _ => Triple.pure _ fun r h =>
          .inl ⟨start, u', f, args, hq, hok, hfile, hrest, hstarted, h⟩ :
          RunsE (Holds T b₀ trampoline (X + (a.2.1 : Multiset Nat)) q.1 u' false) _ _).conseq
          (fun r hr => hr ▸ hat₂) fun _ _ h => h
      · obtain ⟨q, o⟩ := q
        obtain rfl : q = a.1 := hqp
        refine execBad_at hT a.2.1 hq ⟨hsees.1, hat₂.elim (fun h => h.anyhow) fun h => h.2⟩ ?_
        exact hat₂.imp (fun h => ⟨hsees.1, h⟩) fun h => .inr (.inr (.inr ⟨f, args, hfile, hrest, h.1⟩))

end Xv6.Vm.Copy
