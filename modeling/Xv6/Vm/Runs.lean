import Xv6.Vm.Isolation

set_option autoImplicit false

/-! # Runs of the machine

From an empty machine on, any list of steps is run to its end, and what the processes see all along
is a trace of `Does`. So a page has one owner at any time, and what a process gets does not depend
on the steps of the others. -/

namespace Xv6.Vm.Copy

open Xv6.Lib
open Xv6.Eager (owned)

/-- A step, whether `kalloc` has returned 0 in it, and the reply. -/
structure Event (Pid : Type) where
  act : Act Pid
  short : Bool
  reply : Reply

variable {Pid : Type} [DecidableEq Pid]

def run (trampoline : Nat) : List (Act Pid) → Code Stop (Machine Pid) (List (Event Pid))
  | [] => pure []
  | a :: as => do
    let r ← step trampoline a
    let s ← get
    let es ← run trampoline as
    pure (⟨a, s.ram.short, r⟩ :: es)

/-- Each step fits in the state in which it is taken. -/
def FitAll (trampoline : Nat) : Machine Pid → List (Act Pid) → Prop
  | _, [] => True
  | s, a :: as => Fits s a ∧ ∀ r s', step trampoline a s = .ok (r, s') → FitAll trampoline s' as

/-- What the processes see from `s` to `s'`. -/
inductive Trace : Users Pid → List (Event Pid) → Users Pid → Prop
  | nil {s : Users Pid} : Trace s [] s
  | cons {s s' s'' : Users Pid} {e : Event Pid} {es : List (Event Pid)} :
      Does s e.short e.act e.reply s' → Trace s' es s'' →
      Trace s (e :: es) s''

/-! ## Every run is a trace -/

theorem run_cons {trampoline : Nat} {a : Act Pid} {as : List (Act Pid)} {es : List (Event Pid)}
    {s t s' : Machine Pid} {r : Reply}
    (hstep : step trampoline a s = .ok (r, t)) (hrun : run trampoline as t = .ok (es, s')) :
    run trampoline (a :: as) s = .ok (⟨a, t.ram.short, r⟩ :: es, s') := by
  unfold run
  rw [bind_of_ok hstep]
  show ((run trampoline as >>= fun es => pure (⟨a, t.ram.short, r⟩ :: es)) : Code Stop (Machine Pid) _) t = _
  rw [bind_of_ok hrun]
  rfl

variable [Fintype Pid] {T : Multiset Nat} {trampoline : Nat} {s s' : Machine Pid} {i : Pid}

theorem run_spec {as : List (Act Pid)} (hS : Setup T trampoline) (h : Inv T trampoline s)
    (hfit : FitAll trampoline s as) :
    ∃ es s', run trampoline as s = .ok (es, s') ∧ es.map Event.act = as ∧ Inv T trampoline s' ∧
    Trace s.users es s'.users := by
  induction as generalizing s with
  | nil => exact ⟨[], s, rfl, rfl, h, .nil⟩
  | cons a as ih =>
    obtain ⟨r, t, hstep, hinv, hdoes⟩ := step_spec hS h hfit.1
    obtain ⟨es, s', hrun, hacts, hinv', htrace⟩ := ih hinv (hfit.2 r t hstep)
    refine ⟨_, s', run_cons hstep hrun, ?_, hinv', .cons hdoes htrace⟩
    rw [List.map_cons, hacts]

/-- The state after a run is one of those of which `run_spec` speaks. -/
theorem run_returned {as : List (Act Pid)} {es : List (Event Pid)} (hS : Setup T trampoline) (h : Inv T trampoline s)
    (hfit : FitAll trampoline s as) (hrun : run trampoline as s = .ok (es, s')) :
    es.map Event.act = as ∧ Inv T trampoline s' ∧ Trace s.users es s'.users := by
  obtain ⟨es', t, hrun', hacts, hinv, htrace⟩ := run_spec hS h hfit
  rw [hrun] at hrun'
  have hsame := Except.ok.inj hrun'
  rw [Prod.mk.injEq] at hsame
  rw [hsame.1, hsame.2]
  exact ⟨hacts, hinv, htrace⟩

omit [DecidableEq Pid] [Fintype Pid] in
theorem Booted.users (h : Booted T s) : s.users = fun _ => none := funext fun i => users_none (h.proc i)

/-- No run panics, and each of its steps does to the memory of the processes what it is for. -/
theorem memory_refined {as : List (Act Pid)} (hS : Setup T trampoline) (h : Booted T s)
    (hfit : FitAll trampoline s as) :
    ∃ es s', run trampoline as s = .ok (es, s') ∧ es.map Event.act = as ∧ Trace (fun _ => none) es s'.users := by
  obtain ⟨es, s', hrun, hacts, -, htrace⟩ := run_spec hS h.inv hfit
  rw [h.users] at htrace
  exact ⟨es, s', hrun, hacts, htrace⟩

/-- A machine of two dozen pages. -/
def bare : Machine (Bool) :=
  ⟨⟨⟨(List.range 24).map fun k => (k + 1) * PGSIZE, []⟩, fun _ => 5, false⟩, fun _ => none, []⟩

def bareTrampoline : Nat := 32 * PGSIZE

theorem bare_booted : Booted bare.ram.mem.free bare := ⟨rfl, rfl, fun _ => rfl⟩

theorem bare_setup : Setup bare.ram.mem.free bareTrampoline :=
    ⟨⟨by decide, by decide⟩, ⟨by decide, by decide, by decide⟩, by decide⟩

def bareActs : List (Act (Bool)) :=
  [.sbrk false 4096 false, .store false 100 7, .allocproc true, .load false 100, .copyin false 99 3, .reap true, .take]

theorem bare_started {r : Reply} {s : Machine (Bool)} (h : step bareTrampoline (.allocproc false) bare = .ok (r, s)) :
    ∃ p, s.proc false = some p ∧ p.sz = 0 := by
  have hmade : ((step bareTrampoline (.allocproc false) bare).toOption.any fun q =>
    (q.2.proc false).any fun p => p.sz == 0) = true := by
    decide +kernel
  rw [h, Except.toOption, Option.any_some] at hmade
  cases hp : s.proc false with
  | none =>
    rw [hp] at hmade
    cases hmade
  | some p =>
    rw [hp] at hmade
    exact ⟨p, rfl, by simpa using hmade⟩

theorem bare_fits {r : Reply} {s : Machine (Bool)} (h : step bareTrampoline (.allocproc false) bare = .ok (r, s)) :
    FitAll bareTrampoline s bareActs := by
  obtain ⟨p, hp, hsz⟩ := bare_started h
  refine ⟨fun q hq _ => ?_, fun _ _ _ =>
    ⟨trivial, fun _ _ _ => ⟨trivial, fun _ _ _ => ⟨trivial, fun _ _ _ => ⟨trivial, fun _ _ _ =>
    ⟨trivial, fun _ _ _ => ⟨trivial, fun _ _ _ => trivial⟩⟩⟩⟩⟩⟩⟩
  obtain rfl := Option.some.inj (hp.symm.trans hq)
  rw [hsz]
  decide

theorem memory_refined_bare : ∃ es s, run bareTrampoline (.allocproc false :: bareActs) bare = .ok (es, s) ∧
    es.map Event.act = .allocproc false :: bareActs ∧ Trace (fun _ => none) es s.users :=
  memory_refined bare_setup bare_booted ⟨trivial, fun _ _ h => bare_fits h⟩

/-! ## Every page has one owner -/

omit [DecidableEq Pid] [Fintype Pid] in
theorem mem_held {p : Proc} {va : Nat} (hva : va < PGROUNDUP p.sz) (hv : (pteAt p.pagetable va).V = true) :
    (pteAt p.pagetable va).pa ∈ held p :=
  Multiset.mem_add.2 (.inr (Multiset.mem_add.2 (.inr (leaf_owned (pgroundup_mod _) hva hv))))

/-- What one process has is not free, and nobody else has it. -/
theorem Inv.alone {p : Proc} {pa : Nat} (hT : Frames T) (h : Inv T trampoline s) (hp : s.proc i = some p)
    (hpa : pa ∈ held p) :
    pa ∉ s.ram.mem.freelist ∧ pa ∉ s.rest i := by
  have hused : s.used = s.rest i + held p := by
    rw [used_eq s i, hp]
    rfl
  have hnodup := h.pages ▸ hT.nodup
  rw [hused, ← add_assoc, Multiset.nodup_add] at hnodup
  have happart := fun hin => Multiset.disjoint_left.1 hnodup.2.2 hin hpa
  exact ⟨fun hin => happart (Multiset.mem_add.2 (.inl (Multiset.mem_coe.2 hin))), fun hin =>
    happart (Multiset.mem_add.2 (.inr hin))⟩

theorem Inv.leaf_once {p q : Proc} {j : Pid} {va x : Nat} (hT : Frames T) (h : Inv T trampoline s)
    (hp : s.proc i = some p)
    (hq : s.proc j = some q) (hva : va < PGROUNDUP p.sz) (hx : x < PGROUNDUP q.sz)
    (hv : (pteAt p.pagetable va).V = true)
    (hxv : (pteAt q.pagetable x).V = true) (hsame : (pteAt p.pagetable va).pa = (pteAt q.pagetable x).pa) :
    j = i ∧ x / PGSIZE = va / PGSIZE := by
  by_cases hji : j = i
  · subst hji
    obtain rfl := Option.some.inj (hp.symm.trans hq)
    have hnodup := (h.holds hp).space.leaves_nodup (hT.le (h.pool_le hp)).nodup
    exact ⟨rfl, leaf_inj hnodup (pgroundup_mod _) hx hva hxv hv hsame.symm⟩
  -- a page of `q` is among those that `p` does not have
  · have hother := Multiset.mem_of_le (held_le_rest hq hji) (mem_held hx hxv)
    rw [← hsame] at hother
    exact absurd hother (h.alone hT hp (mem_held hva hv)).2

/-- At any time each page of the machine is free, or the kernel's, or a process's, and it is so once; no page is
mapped twice,
    and when there are no processes and the kernel has given its pages back, all are free again. -/
theorem pages_conserved {s₀ : Machine Pid} {as : List (Act Pid)} {es : List (Event Pid)} (hS : Setup T trampoline)
    (h : Booted T s₀)
    (hfit : FitAll trampoline s₀ as) (hrun : run trampoline as s₀ = .ok (es, s)) :
    s.ram.mem.free + ((s.kernel : Multiset Nat) + ∑ i, usage (s.proc i)) = T ∧
    (∀ i p va, s.proc i = some p → va < PGROUNDUP p.sz → (pteAt p.pagetable va).V = true →
      (pteAt p.pagetable va).pa ∉ s.ram.mem.freelist ∧ (pteAt p.pagetable va).pa ∉ s.kernel ∧
      ∀ j q x, s.proc j = some q → x < PGROUNDUP q.sz → (pteAt q.pagetable x).V = true →
        (pteAt p.pagetable va).pa = (pteAt q.pagetable x).pa → j = i ∧ x / PGSIZE = va / PGSIZE) ∧
    ((∀ i, s.proc i = none) → s.kernel = [] → s.ram.mem.free = T) := by
  obtain ⟨-, hinv, -⟩ := run_returned hS h.inv hfit hrun
  refine ⟨hinv.pages, fun i p va hp hva hv => ?_, fun hnone hkernel => ?_⟩
  · obtain ⟨hfree, hrest⟩ := hinv.alone hS.frames hp (mem_held hva hv)
    exact ⟨hfree, fun hin => hrest (Multiset.mem_add.2 (.inl (Multiset.mem_coe.2 hin))),
      fun j q x hq hx hxv hsame => hinv.leaf_once hS.frames hp hq hva hx hv hxv hsame⟩
  · have hempty : ∀ i ∈ Finset.univ, usage (s.proc i) = 0 := fun i _ => by
      rw [hnone i]
      rfl
    rw [← hinv.pages, Machine.used, hkernel, Finset.sum_eq_zero hempty]
    simp

theorem pages_conserved_bare : ∃ es s, run bareTrampoline (.allocproc false :: bareActs) bare = .ok (es, s) ∧
    s.ram.mem.free + ((s.kernel : Multiset Nat) + ∑ i, usage (s.proc i)) = bare.ram.mem.free := by
  have hfit : FitAll bareTrampoline bare (.allocproc false :: bareActs) := ⟨trivial, fun _ _ h => bare_fits h⟩
  obtain ⟨es, s, hrun, -⟩ := run_spec bare_setup bare_booted.inv hfit
  exact ⟨es, s, hrun, (pages_conserved bare_setup bare_booted hfit hrun).1⟩

/-! ## What a process gets -/

/-- The step makes, changes or unmakes process `i`, or replies to it. -/
def Act.touches (i : Pid) : Act Pid → Bool
  | .load j _ | .store j _ _ | .sbrk j _ _ | .copyin j _ _ | .copyout j _ _ | .copyinstr j _ _ | .exec j _ _ _ |
      .init j _ _
  | .fork _ j | .allocproc j | .reap j => decide (j = i)
  | .take | .write _ _ _ | .give _ => false

/-- What a step of a process does as long as memory does not run out, where this is given by what the process sees. -/
def User.perform (u : User) : Act Pid → Option (User × Reply)
  | .load _ va => if va < u.sz then some (u, .byte (u.mem.readable va)) else none
  | .store _ va b =>
    if va < u.sz then
      if u.mem.writable va then some (⟨u.mem.store va [b], u.sz⟩, .made true) else some (u, .made false)
    else none
  | .sbrk _ n _ => some (⟨u.mem.resize u.sz (newSize u.sz n.toInt), newSize u.sz n.toInt⟩, .result u.sz)
  | .copyin _ srcva len =>
    some (u, .bytes (if (u.mem.read srcva len).length = len then 0 else -1) (u.mem.read srcva len))
  | .copyout _ dstva src => some (⟨(u.mem.write dstva src).1, u.sz⟩, .result (u.mem.write dstva src).2)
  | _ => none

def User.performAll (u : User) : List (Act Pid) → Option (User × List Reply)
  | [] => some (u, [])
  | a :: as => do
    let r ← u.perform a
    let rs ← r.1.performAll as
    pure (rs.1, r.2 :: rs.2)

omit [Fintype Pid] in
/-- The steps of the others do not change what a process sees. -/
theorem Does.others {u u' : Users Pid} {a : Act Pid} {short : Bool} {r : Reply} (h : Does u short a r u')
    (ha : a.touches i = false) :
    u' i = u i := by
  cases h with
  | store _ _ hs | sbrk _ hs | copyout _ hs | copyoutFails _ _ _ hs | exec _ _ _ _ _ hs | init _ _ hs | fork _ _ hs
  | allocproc _ hs | reap _ hs =>
    have hne := of_decide_eq_false ha
    rw [hs, Function.update_of_ne (Ne.symm hne)]
  | _ => rfl

omit [Fintype Pid] in
/-- A step of a process does what the process has been promised. -/
theorem Does.own {s s' : Users Pid} {a : Act Pid} {r r' : Reply} {u u' : User} (h : Does s false a r s')
    (ha : a.touches i = true)
    (hu : s i = some u) (hp : u.perform a = some (u', r')) : s' i = some u' ∧ r = r' := by
  have hsame : ∀ {w : User}, s i = some w → w = u := fun hw => Option.some.inj (hw.symm.trans hu)
  have hidle : s i ≠ none := by
    rw [hu]
    exact Option.some_ne_none u
  -- each step that `perform` describes can have gone in one way only, as memory has not run out
  cases a with
  | load j va =>
    obtain rfl := of_decide_eq_true ha
    simp only [User.perform] at hp
    by_cases hva : va < u.sz
    · rw [if_pos hva, Option.some.injEq, Prod.mk.injEq] at hp
      obtain ⟨rfl, rfl⟩ := hp
      cases h with
      | idle h => exact absurd h hidle
      | load hw => exact ⟨hu, by rw [hsame hw]⟩
      | loadFault hw hwhy =>
        rw [hsame hw] at hwhy
        exact absurd (hwhy.resolve_left Bool.false_ne_true) (Nat.not_le.2 hva)
    · rw [if_neg hva] at hp
      cases hp
  | store j va b =>
    obtain rfl := of_decide_eq_true ha
    simp only [User.perform] at hp
    by_cases hva : va < u.sz
    · rw [if_pos hva] at hp
      by_cases hw : u.mem.writable va = true
      · rw [if_pos hw, Option.some.injEq, Prod.mk.injEq] at hp
        obtain ⟨rfl, rfl⟩ := hp
        cases h with
        | idle h => exact absurd h hidle
        | store hv _ hs =>
          rw [hs, hsame hv]
          exact ⟨Function.update_self .., rfl⟩
        | storeFault hv hwhy =>
          rw [hsame hv] at hwhy
          rcases hwhy with hwhy | hwhy | hwhy
          · cases hwhy
          · rw [hw] at hwhy
            cases hwhy
          · exact absurd hwhy (Nat.not_le.2 hva)
      · rw [if_neg hw, Option.some.injEq, Prod.mk.injEq] at hp
        obtain ⟨rfl, rfl⟩ := hp
        cases h with
        | idle h => exact absurd h hidle
        | store hv hw' hs =>
          rw [hsame hv] at hw'
          exact absurd hw' hw
        | storeFault hv hwhy => exact ⟨hu, rfl⟩
    · rw [if_neg hva] at hp
      cases hp
  | sbrk j n eager =>
    obtain rfl := of_decide_eq_true ha
    obtain ⟨rfl, rfl⟩ := Prod.mk.inj (Option.some.inj hp)
    cases h with
    | idle h => exact absurd h hidle
    | sbrk hw hs =>
      rw [hs, hsame hw]
      exact ⟨Function.update_self .., rfl⟩
    | sbrkFails _ hshort => cases hshort
  | copyin j srcva len =>
    obtain rfl := of_decide_eq_true ha
    obtain ⟨rfl, rfl⟩ := Prod.mk.inj (Option.some.inj hp)
    cases h with
    | idle h => exact absurd h hidle
    | copyin hw => exact ⟨hu, by rw [hsame hw]⟩
    | copyinFails _ hshort => cases hshort
  | copyout j dstva src =>
    obtain rfl := of_decide_eq_true ha
    obtain ⟨rfl, rfl⟩ := Prod.mk.inj (Option.some.inj hp)
    cases h with
    | idle h => exact absurd h hidle
    | copyout hw hs =>
      rw [hs, hsame hw]
      exact ⟨Function.update_self .., rfl⟩
    | copyoutFails _ hshort => cases hshort
  | _ => cases hp

omit [Fintype Pid] in
/-- What a process sees of a trace are its own steps. -/
theorem Trace.alone {s s' : Users Pid} {es : List (Event Pid)} {u u' : User} {rs : List Reply} (h : Trace s es s')
    (hu : s i = some u)
    (hshort : ∀ e ∈ es, e.act.touches i = true → e.short = false)
    (hown : u.performAll ((es.map Event.act).filter (Act.touches i)) = some (u', rs)) :
    s' i = some u' ∧ (es.filter fun e => e.act.touches i).map Event.reply = rs := by
  induction h generalizing u rs with
  | nil =>
    obtain ⟨rfl, rfl⟩ := Prod.mk.inj (Option.some.inj hown)
    exact ⟨hu, rfl⟩
  | cons hdoes htrace ih =>
    rename_i s s₁ s' e es
    have hrest := fun e' he' => hshort e' (List.mem_cons_of_mem e he')
    rw [List.map_cons] at hown
    cases ha : e.act.touches i with
    | false =>
      -- somebody else's step, after which the process is as it was
      rw [List.filter_cons_of_neg (by simp [ha])] at hown
      rw [List.filter_cons_of_neg (by simp [ha])]
      exact ih ((hdoes.others ha).trans hu) hrest hown
    | true =>
      rw [List.filter_cons_of_pos ha, User.performAll, Option.bind_eq_bind, Option.bind_eq_some_iff] at hown
      obtain ⟨p, hp, hown⟩ := hown
      rw [Option.bind_eq_bind, Option.bind_eq_some_iff] at hown
      obtain ⟨q, hq, heq⟩ := hown
      obtain ⟨rfl, rfl⟩ := Prod.mk.inj (Option.some.inj heq)
      rw [hshort e List.mem_cons_self ha] at hdoes
      obtain ⟨hu', hreply⟩ := hdoes.own ha hu hp
      obtain ⟨hend, hreplies⟩ := ih hu' hrest hq
      refine ⟨hend, ?_⟩
      rw [List.filter_cons_of_pos (p := fun e : Event Pid => e.act.touches i) ha, List.map_cons, hreplies, hreply]

/-- Whatever the other processes and the kernel do in between, and whichever pages it has: a process whose own steps
do not
    run out of memory gets the replies that its own steps give it, and its memory is what they make of it. -/
theorem process_isolated {s₀ : Machine Pid} {as₀ as : List (Act Pid)} {es₀ es : List (Event Pid)} {u u' : User}
    {rs : List Reply}
    (hS : Setup T trampoline) (h : Booted T s₀) (hfit₀ : FitAll trampoline s₀ as₀)
    (hrun₀ : run trampoline as₀ s₀ = .ok (es₀, s))
    (hfit : FitAll trampoline s as) (hrun : run trampoline as s = .ok (es, s')) (hu : s.users i = some u)
    (hshort : ∀ e ∈ es, e.act.touches i = true → e.short = false)
    (hown : u.performAll (as.filter (Act.touches i)) = some (u', rs)) :
    s'.users i = some u' ∧ (es.filter fun e => e.act.touches i).map Event.reply = rs := by
  obtain ⟨-, hinv, -⟩ := run_returned hS h.inv hfit₀ hrun₀
  obtain ⟨hacts, -, htrace⟩ := run_returned hS hinv hfit hrun
  rw [← hacts] at hown
  exact htrace.alone hu hshort hown

theorem process_isolated_bare : ∃ es₀ es s s', run bareTrampoline [.allocproc false] bare = .ok (es₀, s) ∧
    run bareTrampoline bareActs s = .ok (es, s') ∧ (es.filter fun e => e.act.touches false).map Event.reply =
      [.result 0, .made true, .byte (some 7), .bytes 0 [0, 7, 0]] := by
  have hfit₀ : FitAll bareTrampoline bare [.allocproc false] := ⟨trivial, fun _ _ _ => trivial⟩
  obtain ⟨r, s, hstep, hinv, -⟩ := step_allocproc bare_setup bare_booted.inv false
  have hrun₀ : run bareTrampoline [.allocproc false] bare = .ok ([⟨.allocproc false, s.ram.short, r⟩], s) :=
    run_cons hstep rfl
  obtain ⟨es, s', hrun, -⟩ := run_spec bare_setup hinv (bare_fits hstep)
  -- the process starts with nothing
  obtain ⟨p, hp, hsz⟩ := bare_started hstep
  have hu : s.users false = some ⟨noMem, 0⟩ := by
    have hsee : s.see p = noMem := funext fun x => view_of_le (by rw [hsz]; exact Nat.zero_le x)
    rw [users_some hp, hsee, hsz]
  have hshort : ((run bareTrampoline [.allocproc false] bare).toOption.any fun q =>
      (run bareTrampoline bareActs q.2).toOption.any fun q => q.1.all fun e => !e.short) = true := by
    decide +kernel
  rw [hrun₀, Except.toOption, Option.any_some, hrun, Except.toOption, Option.any_some, List.all_eq_true] at hshort
  have hreplies : ((⟨noMem, 0⟩ : User).performAll (bareActs.filter (Act.touches false))).map Prod.snd =
      some [.result 0, .made true, .byte (some 7), .bytes 0 [0, 7, 0]] := by decide +kernel
  obtain ⟨⟨u', rs⟩, hown, rfl⟩ := Option.map_eq_some_iff.1 hreplies
  exact ⟨_, es, s, s', hrun₀, hrun, (process_isolated bare_setup bare_booted hfit₀ hrun₀ (bare_fits hstep) hrun hu
    (fun e he _ => by simpa using hshort e he) hown).2⟩

end Xv6.Vm.Copy
