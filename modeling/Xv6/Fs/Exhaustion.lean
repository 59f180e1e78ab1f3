import Mathlib.Algebra.BigOperators.Group.Finset.Basic
import Mathlib.Algebra.Order.BigOperators.Group.Finset
import Xv6.Fs.Room

set_option autoImplicit false

/-! # Running out of inode-table entries

`iget` panics if the inode is not in the table and no entry is free. It does not come to that if, whenever a
call begins, two entries are free for it and for every other call in progress that follows a path, and three
for those that may enter a name in a directory. -/

namespace Xv6.Fs.Interleaved

open Xv6.Lib

variable {base : Ip → Nat} {p : Pid} {g : Hold}

/-! ## The condition -/

/-- The entries that have references or are current directories: between the `iput` and the assignment of
    `sys_chdir` a current directory may have none. -/
def occupied (alive : Pid → Bool) (s : FS) : Finset Ip :=
  (Finset.univ.filter fun ip => 0 < (s.itable ip).ref) ∪
    (Finset.univ.filter fun q => alive q = true).image fun q => (s.proc q).cwd

/-- The process exists. -/
def Machine.alive (m : Machine) (q : Pid) : Bool := (m.fs.proc q).used || (m.running q).isSome

def Machine.free (m : Machine) : Nat := NINODE - (occupied m.alive m.fs).card

/-- What the calls in progress need together. -/
def Machine.needs (n : Nat) (m : Machine) : Nat := ∑ q, ((m.running q).map fun r => r.1.need n).getD 0

/-- A call that needs entries begins only when enough are free for it and for those in progress. -/
def Room (n : Nat) (m : Machine) : Act → Prop
  | .begin _ req => req.need n = 0 ∨ m.needs n + req.need n ≤ m.free
  | .step _ | .blocks _ => True

instance (n : Nat) (m : Machine) : (a : Act) → Decidable (Room n m a)
  | .begin _ _ => inferInstanceAs (Decidable (_ ∨ _))
  | .step _ | .blocks _ => inferInstanceAs (Decidable True)

/-! ## Every run -/

/-- The references that the calls in progress have. -/
def ofAll (gs : Pid → Hold) (ip : Ip) : Nat := ∑ q, (gs q).held.count ip

/-- Those of the calls of other processes than `p`. -/
def ofOthers (gs : Pid → Hold) (p : Pid) (ip : Ip) : Nat := ∑ q ∈ Finset.univ.erase p, (gs q).held.count ip

/-- The references that no call in progress has are `base`, and `g` says what the calls have. -/
structure Inv (m : Machine) (base : Ip → Nat) (g : Pid → Hold) : Prop where
  bound : Bound (fun q => (m.running q).isSome = true) base (ofAll g) [] m.fs
  room : taken base + ∑ q, (g q).room ≤ NINODE
  held : ∀ q, (g q).held.length ≤ (g q).room
  idle : ∀ q, m.running q = none → g q = ⟨[], 0⟩
  busy : ∀ q r, m.running q = some r → (g q).room ≤ r.1.need 2 ∧ Fits q (fun _ _ => True) r.2 (g q)

variable {m m' : Machine} {gs : Pid → Hold} {req : Request}

theorem sum_update (F : Hold → Nat) (gs : Pid → Hold) (p : Pid) (g : Hold) :
    ∑ q, F (Function.update gs p g q) = (∑ q ∈ Finset.univ.erase p, F (gs q)) + F g := by
  rw [← Finset.sum_erase_add _ _ (Finset.mem_univ p), Function.update_self]
  refine congrArg (· + F g) (Finset.sum_congr rfl fun q hq => ?_)
  rw [Function.update_of_ne (Finset.ne_of_mem_erase hq)]

theorem ofAll_update (gs : Pid → Hold) (p : Pid) (g : Hold) (ip : Ip) :
    ofAll (Function.update gs p g) ip = ofOthers gs p ip + g.held.count ip :=
  sum_update (fun g => g.held.count ip) gs p g

theorem ofAll_eq (gs : Pid → Hold) (p : Pid) (ip : Ip) : ofAll gs ip = ofOthers gs p ip + (gs p).held.count ip := by
  rw [← ofAll_update, Function.update_eq_self]

/-- The entries that the other calls refer to. -/
theorem taken_others (gs : Pid → Hold) (p : Pid) (hheld : ∀ q, (gs q).held.length ≤ (gs q).room) :
    taken (ofOthers gs p) ≤ ∑ q ∈ Finset.univ.erase p, (gs q).room := by
  have hsub : (Finset.univ.filter fun ip => 0 < ofOthers gs p ip) ⊆
      (Finset.univ.erase p).biUnion fun q => (gs q).held.toFinset := by
    intro ip hip
    obtain ⟨q, hq, hpos⟩ := Finset.exists_ne_zero_of_sum_ne_zero (Nat.pos_iff_ne_zero.1 (Finset.mem_filter.1 hip).2)
    exact Finset.mem_biUnion.2 ⟨q, hq, List.mem_toFinset.2 (List.count_pos_iff.1 (Nat.pos_of_ne_zero hpos))⟩
  refine (Finset.card_le_card hsub).trans (Finset.card_biUnion_le.trans (Finset.sum_le_sum fun q _ => ?_))
  exact (List.toFinset_card_le _).trans (hheld q)

/-- The invariant without what it says of `p`, which is in the kernel and has `g`. -/
structure Others (m : Machine) (p : Pid) (base : Ip → Nat) (gs : Pid → Hold) (g : Hold) : Prop where
  bound : Bound (fun q => q = p ∨ (m.running q).isSome = true) base
    (ofOthers gs p) g.held m.fs
  room : taken base + (∑ q ∈ Finset.univ.erase p, (gs q).room) + g.room ≤ NINODE
  held : ∀ q, (gs q).held.length ≤ (gs q).room
  held_self : g.held.length ≤ g.room
  idle : ∀ q, m.running q = none → q ≠ p → gs q = ⟨[], 0⟩
  busy : ∀ q r, m.running q = some r → q ≠ p → (gs q).room ≤ r.1.need 2 ∧ Fits q (fun _ _ => True) r.2 (gs q)

theorem Inv.others (h : Inv m base gs) (hp : (m.running p).isSome = true) : Others m p base gs (gs p) where
  bound := by
    refine ⟨fun ip => ?_, fun q hq => h.bound.2 q (hq.imp_left fun hq => hq.elim (fun hq => hq ▸ hp) id)⟩
    have hip := h.bound.1 ip
    rw [ofAll_eq gs p, List.count_nil] at hip
    omega
  room := by
    have hroom := h.room
    have hsum := sum_update Hold.room gs p (gs p)
    rw [Function.update_eq_self] at hsum
    omega
  held := h.held
  held_self := h.held p
  idle := fun q hq _ => h.idle q hq
  busy := fun q r hr _ => h.busy q r hr

/-- The call leaves what it has to the files and the processes. -/
theorem Others.leave (h : Others m p base gs g) : Others m p (fun ip => base ip + g.held.count ip) gs ⟨[], 0⟩ where
  bound := by
    refine ⟨fun ip => ?_, fun q hq => Nat.lt_of_lt_of_le (h.bound.2 q hq) (Nat.le_add_right ..)⟩
    have hip := h.bound.1 ip
    show (m.fs.itable ip).ref ≤ base ip + g.held.count ip + ofOthers gs p ip + [].count ip
    rw [List.count_nil]
    omega
  room := by
    have hcount := taken_add_count base g.held
    have hroom := h.room
    have hheld := h.held_self
    simp only
    omega
  held := h.held
  held_self := Nat.zero_le _
  idle := h.idle
  busy := h.busy

/-- Back to the invariant: `p` has returned and has nothing, or it goes on with what it has. -/
theorem Others.inv (h : Others m p base gs g) {r : Option (Request × Steps Int)} (hidle : r = none → g = ⟨[], 0⟩)
    (hbusy : ∀ r', r = some r' → g.room ≤ r'.1.need 2 ∧ Fits p (fun _ _ => True) r'.2 g) :
    Inv { m with running := Function.update m.running p r } base (Function.update gs p g) where
  bound := by
    refine ⟨fun ip => ?_, fun q hq => h.bound.2 q (hq.imp_left fun hq => ?_)⟩
    · have hip := h.bound.1 ip
      rw [ofAll_update, List.count_nil]
      exact hip.trans (by omega)
    · by_cases hqp : q = p
      · exact Or.inl hqp
      · exact Or.inr ((congrArg Option.isSome (Function.update_of_ne hqp r m.running)).symm.trans hq)
  room := by
    rw [sum_update Hold.room]
    have hroom := h.room
    omega
  held := by
    intro q
    rw [Function.update_apply]
    split
    next => exact h.held_self
    next => exact h.held q
  idle := by
    intro q hq
    simp only [Function.update_apply] at hq ⊢
    split
    next hqp =>
      rw [if_pos hqp] at hq
      exact hidle hq
    next hqp =>
      rw [if_neg hqp] at hq
      exact h.idle q hq hqp
  busy := by
    intro q r' hq
    simp only [Function.update_apply] at hq ⊢
    split
    next hqp =>
      rw [if_pos hqp] at hq
      exact hqp ▸ hbusy r' hq
    next hqp =>
      rw [if_neg hqp] at hq
      exact h.busy q r' hq hqp

theorem Others.goOn (h : Others m p base gs g) (hneed : g.room ≤ req.need 2) {prog : Steps Int}
    (hfits : Fits p (fun _ _ => True) prog g) : ∃ base' gs', Inv (m.goOn p req prog) base' gs' := by
  cases prog with
  | done a => exact ⟨_, _, h.leave.inv (fun _ => rfl) fun r' hr => nomatch hr⟩
  | step x f =>
      refine ⟨_, _, h.inv (fun hr => nomatch hr) fun r' hr => ?_⟩
      obtain rfl := Option.some.inj hr
      exact ⟨hneed, hfits⟩

/-- A step of `p`. -/
theorem Inv.take (h : Inv m base gs) {r : Request × Steps Int} (hr : m.running p = some r)
    (htake : m.take p r.1 r.2 = some m') : (m'.panic = m.panic ∧ ∃ base' gs', Inv m' base' gs') ∨
      ∃ e, m'.panic = some e ∧ e ≠ .iget := by
  have hothers := h.others (p := p) (by rw [hr]; rfl)
  obtain ⟨hneed, hfits⟩ := h.busy p r hr
  obtain ⟨req, prog⟩ := r
  cases prog with
  | done a => cases htake
  | step x f =>
      have hx := hfits (fun q => q = p ∨ (m.running q).isSome = true) base _ _ (Or.inl rfl)
        (taken_others gs p h.held) hothers.room hothers.held_self m.fs hothers.bound
      cases hrun : x m.fs with
      | error e =>
          rw [hrun] at hx
          rw [Machine.take_error hrun] at htake
          obtain rfl := Option.some.inj htake
          exact Or.inr ⟨e.1, rfl, hx⟩
      | ok r =>
          rw [hrun] at hx
          rw [Machine.take_ok hrun] at htake
          obtain rfl := Option.some.inj htake
          obtain ⟨base', g, hfits, hbound, htaken, hless, hheld⟩ := hx
          have hroom := hothers.room
          have hafter : Others { m with fs := r.2 } p base' gs g :=
            ⟨hbound, by omega, h.held, hheld, hothers.idle, hothers.busy⟩
          exact Or.inl ⟨rfl, hafter.goOn (hless.trans hneed) hfits⟩

/-- The references that there are, with one for every entry that is a current directory. -/
def Machine.inUse (m : Machine) (ip : Ip) : Nat :=
  (m.fs.itable ip).ref + if ip ∈ occupied m.alive m.fs then 1 else 0

theorem Machine.inUse_pos {ip : Ip} : 0 < m.inUse ip ↔ ip ∈ occupied m.alive m.fs := by
  unfold inUse
  by_cases hip : ip ∈ occupied m.alive m.fs
  · rw [if_pos hip]
    exact iff_of_true (Nat.succ_pos _) hip
  · have hzero : ¬ 0 < (m.fs.itable ip).ref := fun hpos =>
      hip (Finset.mem_union_left _ (Finset.mem_filter.2 ⟨Finset.mem_univ ip, hpos⟩))
    rw [if_neg hip]
    exact iff_of_false hzero hip

theorem Machine.taken_add_free (m : Machine) : taken m.inUse + m.free = NINODE := by
  have htaken : taken m.inUse = (occupied m.alive m.fs).card := by
    refine congrArg Finset.card (Finset.ext fun ip => ?_)
    rw [Finset.mem_filter, inUse_pos]
    exact and_iff_right (Finset.mem_univ ip)
  have hle : (occupied m.alive m.fs).card ≤ NINODE := (Finset.card_le_univ _).trans (Fintype.card_fin _).le
  unfold free
  omega

theorem Machine.inUse_cwd {q : Pid} (hq : m.alive q = true) : 0 < m.inUse (m.fs.proc q).cwd :=
  inUse_pos.2 (Finset.mem_union_right _ (Finset.mem_image_of_mem _ (Finset.mem_filter.2 ⟨Finset.mem_univ q, hq⟩)))

theorem Inv.rooms_le_needs (h : Inv m base gs) : ∑ q, (gs q).room ≤ m.needs 2 := by
  refine Finset.sum_le_sum fun q _ => ?_
  cases hq : m.running q with
  | none =>
      rw [h.idle q hq]
      exact Nat.zero_le _
  | some r => exact (h.busy q r hq).1

/-- Process `p` enters the kernel. -/
theorem Inv.begin (h : Inv m base gs) (hp : (m.fs.proc p).used = true) (hidle : m.running p = none)
    (hroom : Room 2 m (.begin p req)) : ∃ base' gs', Inv (m.goOn p req (req.steps p)) base' gs' := by
  have hsum := sum_update Hold.room gs p (gs p)
  rw [Function.update_eq_self, h.idle p hidle] at hsum
  have hothers : ∃ base', Others m p base' gs ⟨[], req.need 2⟩ := by
    obtain hnone | hfree := hroom
    · -- what is taken does not change
      rw [hnone]
      refine ⟨base, ⟨⟨fun ip => ?_, fun q hq => h.bound.2 q ?_⟩, ?_, h.held, Nat.zero_le _, fun q hq _ => h.idle q hq,
        fun q r hr _ => h.busy q r hr⟩⟩
      · have hip := h.bound.1 ip
        rwa [ofAll_eq gs p, h.idle p hidle] at hip
      · obtain (rfl | hq) | hq := hq
        · exact Or.inr hp
        · exact Or.inl hq
        · exact Or.inr hq
      · have hroom := h.room
        simp only at hsum ⊢
        omega
    · -- everything that has a reference is taken, those of the calls in progress too
      refine ⟨m.inUse, ⟨⟨fun ip => ?_, fun q hq => ?_⟩, ?_, h.held, Nat.zero_le _, fun q hq _ => h.idle q hq,
        fun q r hr _ => h.busy q r hr⟩⟩
      · exact (Nat.le_add_right ..).trans ((Nat.le_add_right ..).trans (Nat.le_add_right ..))
      · refine Machine.inUse_cwd (Bool.or_eq_true_iff.2 ?_)
        obtain (rfl | hq) | hq := hq
        · exact Or.inl hp
        · exact Or.inr hq
        · exact Or.inl hq
      · have htaken := m.taken_add_free
        have hneeds := h.rooms_le_needs
        simp only at hsum ⊢
        omega
  obtain ⟨base', hothers⟩ := hothers
  exact hothers.goOn le_rfl (fits_steps req)

/-- What every step keeps that meets the condition. -/
def Roomy (m : Machine) : Prop := (m.panic = none → ∃ base gs, Inv m base gs) ∧ m.panic ≠ some .iget

theorem Roomy.perform {a : Act} (h : Roomy m) (hroom : Room 2 m a) (hstep : perform m a = some m') : Roomy m' := by
  unfold Interleaved.perform at hstep
  split at hstep
  swap
  next => cases hstep
  next hen =>
    unfold Machine.enabled at hen
    cases a with
    | begin p req =>
        simp only [Bool.and_eq_true, Option.isNone_iff_eq_none] at hen
        obtain ⟨base, gs, hinv⟩ := h.1 hen.1.1.1
        obtain rfl := Option.some.inj hstep
        exact ⟨fun _ => hinv.begin hen.1.1.2 hen.1.2 hroom, h.2⟩
    | step p =>
        simp only [Bool.and_eq_true, Option.isNone_iff_eq_none] at hen
        obtain ⟨base, gs, hinv⟩ := h.1 hen.1
        obtain ⟨r, hr, htake⟩ := Option.bind_eq_some_iff.1 hstep
        obtain ⟨hpanic, hinv⟩ | ⟨e, hpanic, he⟩ := hinv.take hr htake
        · exact ⟨fun _ => hinv, hpanic ▸ h.2⟩
        · refine ⟨fun hnone => absurd (hpanic.symm.trans hnone) (Option.some_ne_none _), ?_⟩
          rw [hpanic]
          exact fun heq => he (Option.some.inj heq)
    | blocks blocks =>
        obtain rfl := Option.some.inj hstep
        refine ⟨fun hpanic => ?_, h.2⟩
        obtain ⟨base, gs, hinv⟩ := h.1 hpanic
        exact ⟨base, gs, hinv.bound, hinv.room, hinv.held, hinv.idle, hinv.busy⟩

theorem roomy_boot (ninodes : Nat) (disk : Nat → Dinode) : Roomy (boot ninodes disk) := by
  refine ⟨fun _ => ⟨(boot ninodes disk).inUse, fun _ => ⟨[], 0⟩, ⟨⟨fun ip => ?_, fun q hq => ?_⟩, ?_, fun _ => le_rfl,
    fun _ _ => rfl, fun _ _ hr => nomatch hr⟩⟩, (Option.some_ne_none _).symm⟩
  · exact (Nat.le_add_right ..).trans ((Nat.le_add_right ..).trans (Nat.le_add_right ..))
  · exact Machine.inUse_cwd (Bool.or_eq_true_iff.2 hq.symm)
  · have htaken := (boot ninodes disk).taken_add_free
    rw [Finset.sum_const_zero]
    omega

theorem Request.need_mono {n n' : Nat} (hle : n ≤ n') (req : Request) : req.need n ≤ req.need n' := by
  cases req with
  | exec path argc => exact hle
  | call call => cases call with
    | «open» path omode =>
        by_cases hcreate : omode &&& O_CREATE ≠ 0
        · simp only [need, if_pos hcreate]
          exact Nat.succ_le_succ hle
        · simp only [need, if_neg hcreate]
          exact hle
    | mkdir | mknod | link => exact Nat.succ_le_succ hle
    | unlink | chdir => exact hle
    | dup | close | fork | exit => exact Nat.le_refl 0

theorem Machine.needs_mono {n n' : Nat} (hle : n ≤ n') (m : Machine) : m.needs n ≤ m.needs n' := by
  refine Finset.sum_le_sum fun q _ => ?_
  cases m.running q with
  | none => exact le_rfl
  | some r => exact r.1.need_mono hle

theorem Room.mono {n n' : Nat} (hle : n ≤ n') (m : Machine) (a : Act) (h : Room n' m a) : Room n m a := by
  cases a with
  | begin p req =>
      refine h.imp (fun hzero => ?_) fun hfree => ?_
      · exact Nat.le_zero.1 (hzero ▸ req.need_mono hle)
      · exact (Nat.add_le_add (m.needs_mono hle) (req.need_mono hle)).trans hfree
  | step | blocks => trivial

/-- A root with fifty files and a directory with one more. -/
def manyFiles (inum : Nat) : Dinode :=
  if inum = ROOTINO then ⟨.dir, 0, 0, 1, ⟨60, [99]⟩ :: (List.range 50).map fun k => ⟨k + 2, [UInt8.ofNat (100 + k)]⟩, []⟩
  else if inum = 60 then ⟨.dir, 0, 0, 1, [⟨61, [97]⟩], []⟩
  else ⟨.file, 0, 0, 1, [], []⟩

def pid (k : Nat) : Pid := ⟨k % NPROC, Nat.mod_lt _ (by decide)⟩

/-- The first `n` steps of a call that nobody disturbs. -/
def alone (p : Pid) (call : Call) (n : Nat) : List Act := .begin p (.call call) :: List.replicate n (.step p)

/-- The `k`-th file of the root. -/
def file (k : Nat) : Path := [slash, UInt8.ofNat (100 + k)]

/-- Four processes open the first `n` files of the root. -/
def openMany (n : Nat) : List Act :=
  ([1, 2, 3].flatMap fun k => alone initproc (.fork (pid k)) 17) ++
    (List.range n).flatMap fun k => alone (pid (k / NOFILE)) (.open (some (file k)) 0) 14

/-- One of them opens another file of the root. -/
def openOneMore : List Act := alone (pid 3) (.open (some (file 49)) 0) 6

def endsIn (acts : List Act) : Option (Option Panic) :=
  (runSteps perform (boot 62 manyFiles) acts).map Machine.panic

/-- Files that are open at the same time fill the inode table. -/
theorem openMany_panics :
    endsIn (openMany 49) = some none ∧ endsIn (openMany 49 ++ openOneMore) = some (some .iget) := by
  decide +kernel

/-- The condition, for a call while no other is in progress. -/
def RoomAlone (n : Nat) (s : State) (l : Label) : Prop :=
  (Request.call l.call).need n = 0 ∨
    (Request.call l.call).need n ≤ NINODE - (occupied (fun q => (s.fs.proc q).used) s.fs).card

instance (n : Nat) (s : State) (l : Label) : Decidable (RoomAlone n s l) := inferInstanceAs (Decidable (_ ∨ _))

theorem allSteps_step (n k : Nat) (m : Machine) (p : Pid) : AllSteps perform (Room n) m (List.replicate k (.step p)) := by
  induction k generalizing m with
  | zero => trivial
  | succ k ih => exact ⟨trivial, fun t _ => ih t⟩

theorem RoomAlone.acts {n k : Nat} {s : State} {l : Label} (h : RoomAlone n s l) (hfs : m.fs = s.fs)
    (hidle : ∀ q, m.running q = none) : AllSteps perform (Room n) m (Label.acts l k) := by
  refine ⟨trivial, fun t ht => ⟨?_, fun u _ => allSteps_step n k u l.p⟩⟩
  have ht : t = m.setBlocks l.blocks := by
    unfold perform at ht
    split at ht
    next => exact (Option.some.inj ht).symm
    next => cases ht
  have hneeds : t.needs n = 0 := by
    rw [ht]
    exact Finset.sum_eq_zero fun q _ => by rw [show (m.setBlocks l.blocks).running q = none from hidle q]; rfl
  have hfree : t.free = NINODE - (occupied (fun q => (s.fs.proc q).used) s.fs).card := by
    have halive : t.alive = fun q => (s.fs.proc q).used := by
      funext q
      unfold Machine.alive
      rw [ht, show (m.setBlocks l.blocks).running q = none from hidle q, ← hfs]
      exact Bool.or_false _
    unfold Machine.free
    rw [halive, ht, ← hfs]
    rfl
  show (Request.call l.call).need n = 0 ∨ t.needs n + (Request.call l.call).need n ≤ t.free
  rw [hneeds, hfree, Nat.zero_add]
  exact h

/-- One call after the other: three forks, 48 files of the root, and one of the other directory, `/c/a`. -/
def openBelow : List Label :=
  ([1, 2, 3].map fun k => ⟨initproc, .fork (pid k), []⟩) ++
    ((List.range 48).map fun k => ⟨pid (k / NOFILE), .open (some (file k)) 0, []⟩) ++
    [⟨pid 3, .open (some [slash, 99, slash, 97]) 0, []⟩]

theorem openBelow_ends : (runSteps Fs.step (Fs.boot 62 manyFiles) openBelow).map State.panic = some (some .iget) := by
  decide +kernel

theorem openBelow_room : AllSteps Fs.step (RoomAlone 1) (Fs.boot 62 manyFiles) openBelow := by
  decide +kernel

/-- However the steps of the calls interleave, `iget` panics in no run in which a call that follows a path
    begins only while two entries are free for it and for every such call in progress, and three for those that
    may enter a name in a directory; with less than that it comes to the panic. -/
theorem iget_panics_unless_room (n : Nat) :
    (∀ (ninodes : Nat) (disk : Nat → Dinode) (acts : List Act) (m : Machine),
      AllSteps perform (Room n) (boot ninodes disk) acts → runSteps perform (boot ninodes disk) acts = some m →
      m.panic ≠ some .iget) ↔ 2 ≤ n := by
  constructor
  · intro h
    by_contra hlt
    obtain ⟨s, hrun, hpanic⟩ := Option.map_eq_some_iff.1 openBelow_ends
    have hacts : ∃ acts m, AllSteps perform (Room 1) (boot 62 manyFiles) acts ∧
        runSteps perform (boot 62 manyFiles) acts = some m ∧ m.fs = s.fs ∧ m.panic = s.panic :=
      runSteps_sequential (fun _ _ _ _ hfs hidle hwhole => hwhole.acts hfs hidle) openBelow_room hrun
    obtain ⟨acts, m, hroom, hm, -, hmpanic⟩ := hacts
    exact h 62 manyFiles acts m (hroom.mono (Room.mono (by omega))) hm (hmpanic.trans hpanic)
  · intro hn ninodes disk acts m hroom hrun
    have hm := runSteps_invariant_of_allSteps (I := Roomy) (fun _ _ _ h hroom hstep => h.perform hroom hstep)
      (roomy_boot ninodes disk) (hroom.mono (Room.mono hn)) hrun
    exact hm.2

end Xv6.Fs.Interleaved
