import Xv6.Virtio.Descs

set_option autoImplicit false

/-! # The protocol between the driver and the disk

A chain that has been submitted is in one place: in the part of `avail` that the device has not
looked at, with the device, or in the part of `used` that the driver has not looked at. It leaves the
last of these when `virtio_disk_intr` clears `b->disk` of the buffer it was submitted for. -/

namespace Xv6.Virtio

open Xv6.Lib

variable {Pid Buf : Type}

def Call.Uses : Call Buf → Buf → Prop
  | .idle, _ => False
  | .descs b _, c => b = c
  | .io b _, c => b = c

/-- Chains the device has not found yet. -/
def State.queued (s : State Pid Buf) : List Nat :=
  Ring.contents s.disk.avail s.seen s.disk.availIdx

/-- Completions the driver has not seen yet. -/
def State.completed (s : State Pid Buf) : List Nat :=
  Ring.contents s.disk.used s.disk.usedIdx s.disk.usedRingIdx

/-- The chains that are out. -/
def State.out (s : State Pid Buf) : List Nat := s.queued ++ s.heads ++ s.completed

structure Inv (s : State Pid Buf) : Prop where
  panic : s.panicked = none
  chain : ∀ p b x, s.call p = .io b x → Chain s.disk b x
  /-- A descriptor belongs to one request, -/
  apart : ∀ p q b c x y n, s.call p = .io b x → s.call q = .io c y → x.Has n → y.Has n → p = q
  /-- or is free. -/
  owned : ∀ n, n < NUM → s.disk.free n = false → ∃ p b x, s.call p = .io b x ∧ x.Has n
  lock : ∀ p b, (s.call p).Uses b → s.lock b = some p
  nodup : s.out.Nodup
  out_io : ∀ i ∈ s.out, ∃ p b x, s.call p = .io b x ∧ x.1 = i ∧ s.disk.disk b = true
  io_out : ∀ p b x, s.call p = .io b x → s.disk.disk b = true → x.1 ∈ s.out
  status : ∀ i ∈ s.completed, (s.disk.info i).status = 0
  served : ∀ i ∈ s.completed, s.served i = true
  done : ∀ p b x, s.call p = .io b x → s.disk.disk b = false → s.served x.1 = true

section Inv

variable {s t : State Pid Buf} {p q : Pid} {b c : Buf} {x y : Idx}

theorem Idx.has_head (x : Idx) : x.Has x.1 := Or.inl rfl

theorem Inv.ne_buf (h : Inv s) (hp : (s.call p).Uses b) (hq : (s.call q).Uses c) (hne : q ≠ p) :
    c ≠ b := by
  rintro rfl
  have := (h.lock p c hp).symm.trans (h.lock q c hq)
  exact hne (Option.some.inj this).symm

/-- A chain that is out has taken its descriptors. -/
theorem Inv.taken_of_out (h : Inv s) {i : Nat} (hi : i ∈ s.out) : s.disk.free i = false ∧ i < NUM := by
  obtain ⟨p, b, x, hp, rfl, -⟩ := h.out_io i hi
  have hc := h.chain p b x hp
  exact ⟨hc.taken _ x.has_head, hc.ok.lt _ x.has_head⟩

/-- Fewer chains are out than there are descriptors, if one descriptor is not among their heads. -/
theorem length_lt_of_nodup {l : List Nat} {i : Nat} (hnd : (i :: l).Nodup)
    (hlt : ∀ n ∈ i :: l, n < NUM) : l.length < NUM := by
  have hsub : (i :: l) ⊆ List.range NUM := fun n hn => List.mem_range.2 (hlt n hn)
  have := (hnd.subperm hsub).length_le
  rw [List.length_range, List.length_cons] at this
  omega

/-- What changes neither requests nor chains. -/
theorem Inv.of_same (h : Inv s) (hcall : ∀ q c y, t.call q = .io c y ↔ s.call q = .io c y)
    (hd : SameBut s.disk t.disk) (hseen : t.seen = s.seen) (hheads : t.heads = s.heads)
    (hserved : t.served = s.served) (hpanic : t.panicked = s.panicked)
    (hlock : ∀ q c, (t.call q).Uses c → t.lock c = some q) : Inv t := by
  obtain ⟨hdisk, hdesc⟩ := hd
  have hfree : t.disk.free = s.disk.free := by rw [hdisk]
  have hinfo : t.disk.info = s.disk.info := by rw [hdisk]
  have hflag : t.disk.disk = s.disk.disk := by rw [hdisk]
  have hqueued : t.queued = s.queued := by rw [State.queued, State.queued, hdisk, hseen]
  have hcompleted : t.completed = s.completed := by rw [State.completed, State.completed, hdisk]
  have hout : t.out = s.out := by rw [State.out, State.out, hqueued, hcompleted, hheads]
  constructor
  case panic =>
    rw [hpanic, h.panic]
  case chain =>
    intro q c y hq
    have hc := h.chain q c y ((hcall q c y).1 hq)
    refine hc.congr (fun n hn => ?_) (fun n hn => hdesc n (hc.taken n hn)) (by rw [hinfo])
    rw [hfree, hc.taken n hn]
  case apart =>
    intro p q b c x y n hp hq
    exact h.apart p q b c x y n ((hcall p b x).1 hp) ((hcall q c y).1 hq)
  case owned =>
    intro n hn hf
    rw [hfree] at hf
    obtain ⟨p, b, x, hp, hx⟩ := h.owned n hn hf
    exact ⟨p, b, x, (hcall p b x).2 hp, hx⟩
  case lock =>
    exact hlock
  case nodup =>
    rw [hout]
    exact h.nodup
  case out_io =>
    intro i hi
    rw [hout] at hi
    obtain ⟨p, b, x, hp, hx, hb⟩ := h.out_io i hi
    exact ⟨p, b, x, (hcall p b x).2 hp, hx, by rw [hflag, hb]⟩
  case io_out =>
    intro p b x hp hb
    rw [hflag] at hb
    rw [hout]
    exact h.io_out p b x ((hcall p b x).1 hp) hb
  case status =>
    intro i hi
    rw [hcompleted] at hi
    rw [hinfo]
    exact h.status i hi
  case served =>
    intro i hi
    rw [hcompleted] at hi
    rw [hserved]
    exact h.served i hi
  case done =>
    intro p b x hp hb
    rw [hflag] at hb
    rw [hserved]
    exact h.done p b x ((hcall p b x).1 hp) hb

/-! ## Calls -/

section Calls

variable [DecidableEq Pid]

theorem setCall_call (s : State Pid Buf) (p q : Pid) (c : Call Buf) :
    (s.setCall p c).call q = if q = p then c else s.call q :=
  Function.update_apply ..

/-- A call without a request goes on without one. -/
theorem Inv.setCall (h : Inv s) {a : Call Buf} {d' : Disk Buf} (ha : ∀ b x, a ≠ .io b x)
    (hp : ∀ b x, s.call p ≠ .io b x) (hd : SameBut s.disk d')
    (hlock : ∀ b, a.Uses b → s.lock b = some p) : Inv { s.setCall p a with disk := d' } := by
  refine h.of_same (fun q c y => ?_) hd rfl rfl rfl rfl fun q c hq => ?_
  · rw [setCall_call]
    by_cases hqp : q = p
    · rw [if_pos hqp, hqp]
      exact ⟨fun he => absurd he (ha c y), fun he => absurd he (hp c y)⟩
    · rw [if_neg hqp]
  · rw [setCall_call] at hq
    by_cases hqp : q = p
    · rw [if_pos hqp] at hq
      rw [hqp]
      exact hlock c hq
    · rw [if_neg hqp] at hq
      exact h.lock q c hq

variable [DecidableEq Buf]

/-- The state after a request has been submitted. -/
def State.submitted (s : State Pid Buf) (p : Pid) (b : Buf) (write : Bool) (x : Idx) :
    State Pid Buf :=
  { s.setCall p (.io b x) with
    disk := submit b write x (((s.disk.take x.1).take x.2.1).take x.2.2)
    served := Function.update s.served x.1 false }

theorem submitted_free {write : Bool} {n : Nat} :
    (s.submitted p b write x).disk.free n = false ↔ x.Has n ∨ s.disk.free n = false := by
  show (((s.disk.take x.1).take x.2.1).take x.2.2).free n = false ↔ _
  simp only [Disk.take, Idx.Has, Function.update_apply]
  by_cases h₁ : n = x.1 <;> by_cases h₂ : n = x.2.1 <;> by_cases h₃ : n = x.2.2 <;>
    simp [h₁, h₂, h₃]

theorem submitted_desc {write : Bool} {n : Nat} (hn : ¬ x.Has n) :
    (s.submitted p b write x).disk.desc n = s.disk.desc n := by
  have h₁ : n ≠ x.1 := fun he => hn (Or.inl he)
  have h₂ : n ≠ x.2.1 := fun he => hn (Or.inr (Or.inl he))
  have h₃ : n ≠ x.2.2 := fun he => hn (Or.inr (Or.inr he))
  exact ((Function.update_of_ne h₃ _ _).trans (Function.update_of_ne h₂ _ _)).trans
    (Function.update_of_ne h₁ _ _)

theorem submitted_info {write : Bool} {n : Nat} (hn : n ≠ x.1) :
    (s.submitted p b write x).disk.info n = s.disk.info n :=
  Function.update_of_ne hn ..

theorem submitted_disk (s : State Pid Buf) (p : Pid) (b c : Buf) (write : Bool) (x : Idx) :
    (s.submitted p b write x).disk.disk c = if c = b then true else s.disk.disk c :=
  Function.update_apply ..

/-- The new chain is the last that the device will find. -/
theorem Inv.submitted_out (h : Inv s) (write : Bool) (hx : x.Ok)
    (hfree : ∀ n, x.Has n → s.disk.free n = true) :
    (s.submitted p b write x).out = s.queued ++ [x.1] ++ s.heads ++ s.completed := by
  have hnot : x.1 ∉ s.out := by
    intro hmem
    have := (h.taken_of_out hmem).1
    rw [hfree _ x.has_head] at this
    cases this
  have hsub : ∀ n ∈ s.queued, n ∈ s.out := fun n hn =>
    List.mem_append_left _ (List.mem_append_left _ hn)
  have hnd : s.queued.Nodup := (List.nodup_append.1 (List.nodup_append.1 h.nodup).1).1
  have hroom : (s.disk.availIdx - s.seen).toNat < NUM := by
    rw [← Ring.length_contents s.disk.avail]
    refine length_lt_of_nodup (i := x.1) (List.nodup_cons.2 ⟨fun hm => hnot (hsub _ hm), hnd⟩) ?_
    intro n hn
    rcases List.mem_cons.1 hn with rfl | hn
    · exact hx.lt _ x.has_head
    · exact (h.taken_of_out (hsub n hn)).2
  have hpush := Ring.contents_push (r := s.seen) (e := s.disk.availIdx) (by decide) s.disk.avail x.1
    hroom (by decide)
  show Ring.contents (Function.update s.disk.avail (Ring.slot NUM s.disk.availIdx) x.1) s.seen
    (s.disk.availIdx + 1) ++ s.heads ++ s.completed = _
  rw [hpush]
  rfl

/-- A submitted request has descriptors of its own, and its chain is out. -/
theorem Inv.submit (h : Inv s) (hp : ∀ b x, s.call p ≠ .io b x) (hb : s.lock b = some p)
    (write : Bool) (hx : x.Ok) (hfree : ∀ n, x.Has n → s.disk.free n = true) :
    Inv (s.submitted p b write x) := by
  have hcall : ∀ q, (s.submitted p b write x).call q = if q = p then .io b x else s.call q :=
    fun q => setCall_call s p q _
  have hout := h.submitted_out (p := p) (b := b) write hx hfree
  have hmem : ∀ i, i ∈ (s.submitted p b write x).out ↔ i = x.1 ∨ i ∈ s.out := by
    intro i
    rw [hout, State.out]
    simp only [List.mem_append, List.mem_singleton]
    tauto
  -- the descriptors of the other calls are others
  have hother : ∀ q c y, s.call q = .io c y → ∀ n, y.Has n → ¬ x.Has n := by
    intro q c y hq n hn hxn
    have := (h.chain q c y hq).taken n hn
    rw [hfree n hxn] at this
    cases this
  have hnew : ∀ i ∈ s.out, i ≠ x.1 := by
    rintro i hi rfl
    have := (h.taken_of_out hi).1
    rw [hfree _ x.has_head] at this
    cases this
  have hbuf : ∀ q c y, q ≠ p → s.call q = .io c y → c ≠ b := by
    rintro q c y hq hc rfl
    have huse : (s.call q).Uses c := by
      rw [hc]
      rfl
    exact hq (Option.some.inj (hb.symm.trans (h.lock q c huse))).symm
  have hcompleted : (s.submitted p b write x).completed = s.completed := rfl
  have hcompout : ∀ i ∈ s.completed, i ∈ s.out := fun i hi => List.mem_append_right _ hi
  constructor
  case panic =>
    exact h.panic
  case chain =>
    intro q c y hq
    rw [hcall] at hq
    by_cases hqp : q = p
    · rw [if_pos hqp] at hq
      obtain ⟨rfl, rfl⟩ := Call.io.inj hq
      have htaken : ∀ n, x.Has n → (s.submitted p b write x).disk.free n = false :=
        fun n hn => submitted_free.2 (Or.inl hn)
      exact chain_submit hx write htaken
    · rw [if_neg hqp] at hq
      refine (h.chain q c y hq).congr (fun n hn => ?_) (fun n hn => ?_) ?_
      · exact submitted_free.2 (Or.inr ((h.chain q c y hq).taken n hn))
      · exact submitted_desc (hother q c y hq n hn)
      · rw [submitted_info]
        exact fun he => hother q c y hq y.1 y.has_head (he ▸ x.has_head)
  case apart =>
    intro q q' c c' y y' n hq hq' hn hn'
    rw [hcall] at hq hq'
    by_cases hqp : q = p <;> by_cases hqp' : q' = p
    · rw [hqp, hqp']
    · rw [if_pos hqp] at hq
      rw [if_neg hqp'] at hq'
      obtain ⟨rfl, rfl⟩ := Call.io.inj hq
      exact absurd hn (hother q' c' y' hq' n hn')
    · rw [if_neg hqp] at hq
      rw [if_pos hqp'] at hq'
      obtain ⟨rfl, rfl⟩ := Call.io.inj hq'
      exact absurd hn' (hother q c y hq n hn)
    · rw [if_neg hqp] at hq
      rw [if_neg hqp'] at hq'
      exact h.apart q q' c c' y y' n hq hq' hn hn'
  case owned =>
    intro n hn hf
    rcases submitted_free.1 hf with hxn | hf
    · exact ⟨p, b, x, by rw [hcall, if_pos rfl], hxn⟩
    · obtain ⟨q, c, y, hq, hy⟩ := h.owned n hn hf
      refine ⟨q, c, y, ?_, hy⟩
      rw [hcall, if_neg]
      · exact hq
      · rintro rfl
        exact hp c y hq
  case lock =>
    intro q c hq
    rw [hcall] at hq
    by_cases hqp : q = p
    · rw [if_pos hqp] at hq
      rw [hqp]
      exact (show b = c from hq) ▸ hb
    · rw [if_neg hqp] at hq
      exact h.lock q c hq
  -- the head of the new chain was a free descriptor, so it was not out
  case nodup =>
    rw [hout]
    have hperm : (s.queued ++ [x.1] ++ s.heads ++ s.completed).Perm (x.1 :: s.out) := by
      rw [State.out]
      simp only [List.append_assoc, List.singleton_append]
      exact List.perm_middle
    exact hperm.nodup_iff.2 (List.nodup_cons.2 ⟨fun hm => hnew _ hm rfl, h.nodup⟩)
  case out_io =>
    intro i hi
    rcases (hmem i).1 hi with rfl | hi
    · exact ⟨p, b, x, by rw [hcall, if_pos rfl], rfl, by rw [submitted_disk, if_pos rfl]⟩
    · obtain ⟨q, c, y, hq, hy, hc⟩ := h.out_io i hi
      refine ⟨q, c, y, ?_, hy, ?_⟩
      · rw [hcall, if_neg]
        · exact hq
        · rintro rfl
          exact hp c y hq
      · rw [submitted_disk, hc, ite_self]
  case io_out =>
    intro q c y hq hc
    rw [hcall] at hq
    by_cases hqp : q = p
    · rw [if_pos hqp] at hq
      obtain ⟨rfl, rfl⟩ := Call.io.inj hq
      exact (hmem _).2 (Or.inl rfl)
    · rw [if_neg hqp] at hq
      rw [submitted_disk, if_neg (hbuf q c y hqp hq)] at hc
      exact (hmem _).2 (Or.inr (h.io_out q c y hq hc))
  case status =>
    intro i hi
    rw [hcompleted] at hi
    rw [submitted_info (hnew i (hcompout i hi))]
    exact h.status i hi
  case served =>
    intro i hi
    rw [hcompleted] at hi
    show Function.update s.served x.1 false i = true
    rw [Function.update_of_ne (hnew i (hcompout i hi))]
    exact h.served i hi
  case done =>
    intro q c y hq hc
    rw [hcall] at hq
    by_cases hqp : q = p
    · rw [if_pos hqp] at hq
      obtain ⟨rfl, rfl⟩ := Call.io.inj hq
      rw [submitted_disk, if_pos rfl] at hc
      cases hc
    · rw [if_neg hqp] at hq
      rw [submitted_disk, if_neg (hbuf q c y hqp hq)] at hc
      show Function.update s.served x.1 false y.1 = true
      rw [Function.update_of_ne]
      · exact h.done q c y hq hc
      · exact fun he => hother q c y hq y.1 y.has_head (he ▸ x.has_head)

/-- A call that has no request yet. -/
theorem Inv.alloc (h : Inv s) (hp : ∀ b x, s.call p ≠ .io b x) (hb : s.lock b = some p)
    (write : Bool) : Inv (s.alloc p b write) := by
  obtain ⟨r, d', hrun, hr⟩ := alloc3Desc_spec s.disk
  rw [State.alloc, hrun]
  cases hr with
  | none d' hd => exact h.setCall (fun _ _ he => by cases he) hp hd fun c hc => hc ▸ hb
  | some x hx hf => exact h.submit hp hb write hx hf

omit [DecidableEq Pid] [DecidableEq Buf] in
theorem release_free {d : Disk Buf} {n : Nat} :
    (d.release x).free n = false ↔ ¬ x.Has n ∧ d.free n = false := by
  simp only [Disk.release, Disk.give, Idx.Has, Function.update_apply]
  by_cases h₁ : n = x.1 <;> by_cases h₂ : n = x.2.1 <;> by_cases h₃ : n = x.2.2 <;>
    simp [h₁, h₂, h₃]

omit [DecidableEq Pid] [DecidableEq Buf] in
theorem release_desc {d : Disk Buf} {n : Nat} (hn : ¬ x.Has n) :
    (d.release x).desc n = d.desc n := by
  have h₁ : n ≠ x.1 := fun he => hn (Or.inl he)
  have h₂ : n ≠ x.2.1 := fun he => hn (Or.inr (Or.inl he))
  have h₃ : n ≠ x.2.2 := fun he => hn (Or.inr (Or.inr he))
  exact ((Function.update_of_ne h₃ _ _).trans (Function.update_of_ne h₂ _ _)).trans
    (Function.update_of_ne h₁ _ _)

omit [DecidableEq Pid] [DecidableEq Buf] in
theorem release_info {d : Disk Buf} {n : Nat} (hn : n ≠ x.1) : (d.release x).info n = d.info n :=
  Function.update_of_ne hn ..

omit [DecidableEq Pid] [DecidableEq Buf] in
/-- The chain of a request that is done is not out. -/
theorem Inv.not_out (h : Inv s) (hp : s.call p = .io b x) (hb : s.disk.disk b = false) :
    x.1 ∉ s.out := by
  intro hmem
  obtain ⟨q, c, y, hq, hy, hc⟩ := h.out_io _ hmem
  have hqp := h.apart q p c b y x x.1 hq hp (hy ▸ y.has_head) x.has_head
  rw [hqp, hp] at hq
  obtain ⟨rfl, rfl⟩ := Call.io.inj hq
  rw [hb] at hc
  cases hc

/-- A call returns, and its descriptors are free. -/
theorem Inv.finish (h : Inv s) (hp : s.call p = .io b x) (hb : s.disk.disk b = false) :
    Inv (s.finish p b x) := by
  rw [State.finish, (h.chain p b x hp).finish]
  obtain ⟨t, ht⟩ : ∃ t, t = { s.setCall p .idle with
    disk := s.disk.release x, lock := Function.update s.lock b none } := ⟨_, rfl⟩
  show Inv { s.setCall p .idle with
    disk := s.disk.release x, lock := Function.update s.lock b none }
  rw [← ht]
  have hsame : ∀ q, t.call q = if q = p then .idle else s.call q := by
    intro q
    rw [ht]
    exact setCall_call s p q .idle
  have hcall : ∀ q c y, t.call q = .io c y ↔ q ≠ p ∧ s.call q = .io c y := by
    intro q c y
    rw [hsame]
    by_cases hqp : q = p
    · simp [hqp]
    · simp [hqp]
  have hdisk : t.disk = s.disk.release x := by rw [ht]
  have hout : t.out = s.out := by
    rw [ht]
    rfl
  have hcompleted : t.completed = s.completed := by
    rw [ht]
    rfl
  have hserved : t.served = s.served := by
    rw [ht]
    rfl
  have hflag : t.disk.disk = s.disk.disk := by
    rw [ht]
    rfl
  have hother : ∀ q c y, q ≠ p → s.call q = .io c y → ∀ n, y.Has n → ¬ x.Has n :=
    fun q c y hqp hq n hn hxn => hqp (h.apart q p c b y x n hq hp hn hxn)
  -- the device has reported the chain: it is not out any more
  have hnot := h.not_out hp hb
  constructor
  case panic =>
    rw [ht]
    exact h.panic
  case chain =>
    intro q c y hq
    obtain ⟨hqp, hq⟩ := (hcall q c y).1 hq
    have hc := h.chain q c y hq
    have hn := hother q c y hqp hq
    rw [hdisk]
    refine hc.congr (fun n hy => release_free.2 ⟨hn n hy, hc.taken n hy⟩)
      (fun n hy => release_desc (hn n hy)) ?_
    rw [release_info]
    exact fun he => hn y.1 y.has_head (he ▸ x.has_head)
  case apart =>
    intro q q' c c' y y' n hq hq' hn hn'
    exact h.apart q q' c c' y y' n ((hcall q c y).1 hq).2 ((hcall q' c' y').1 hq').2 hn hn'
  case owned =>
    intro n hn hf
    rw [hdisk] at hf
    obtain ⟨hx, hf⟩ := release_free.1 hf
    obtain ⟨q, c, y, hq, hy⟩ := h.owned n hn hf
    refine ⟨q, c, y, (hcall q c y).2 ⟨?_, hq⟩, hy⟩
    rintro rfl
    rw [hp] at hq
    obtain ⟨rfl, rfl⟩ := Call.io.inj hq
    exact hx hy
  case lock =>
    intro q c hq
    have hqp : q ≠ p := by
      intro hqp
      rw [hsame, if_pos hqp] at hq
      exact hq
    rw [hsame, if_neg hqp] at hq
    have huse : (s.call p).Uses b := by
      rw [hp]
      rfl
    have hcb := h.ne_buf huse hq hqp
    rw [ht]
    exact (Function.update_of_ne hcb _ _).trans (h.lock q c hq)
  case nodup =>
    rw [hout]
    exact h.nodup
  case out_io =>
    intro i hi
    rw [hout] at hi
    obtain ⟨q, c, y, hq, hy, hc⟩ := h.out_io i hi
    refine ⟨q, c, y, (hcall q c y).2 ⟨?_, hq⟩, hy, by rw [hflag, hc]⟩
    rintro rfl
    rw [hp] at hq
    obtain ⟨rfl, rfl⟩ := Call.io.inj hq
    exact hnot (hy ▸ hi)
  case io_out =>
    intro q c y hq hc
    rw [hflag] at hc
    rw [hout]
    exact h.io_out q c y ((hcall q c y).1 hq).2 hc
  case status =>
    intro i hi
    rw [hcompleted] at hi
    have hne : i ≠ x.1 := by
      rintro rfl
      exact hnot (List.mem_append_right _ hi)
    rw [hdisk, release_info hne]
    exact h.status i hi
  case served =>
    intro i hi
    rw [hcompleted] at hi
    rw [hserved]
    exact h.served i hi
  case done =>
    intro q c y hq hc
    rw [hflag] at hc
    rw [hserved]
    exact h.done q c y ((hcall q c y).1 hq).2 hc

end Calls

/-! ## Completions -/

section Completions

/-- The request of the next completion. -/
theorem Inv.next_completed (h : Inv s) (hne : s.disk.usedIdx ≠ s.disk.usedRingIdx) :
    ∃ rest p b x, s.completed = s.disk.used (Ring.slot NUM s.disk.usedIdx) :: rest ∧
      rest = Ring.contents s.disk.used (s.disk.usedIdx + 1) s.disk.usedRingIdx ∧
      s.call p = .io b x ∧ x.1 = s.disk.used (Ring.slot NUM s.disk.usedIdx) ∧
      s.disk.disk b = true := by
  have hpop := Ring.contents_pop s.disk.used hne
  have hmem : s.disk.used (Ring.slot NUM s.disk.usedIdx) ∈ s.out := by
    refine List.mem_append_right _ ?_
    rw [State.completed, hpop]
    exact List.mem_cons_self ..
  obtain ⟨p, b, x, hp, hx, hb⟩ := h.out_io _ hmem
  exact ⟨_, p, b, x, hpop, rfl, hp, hx, hb⟩

variable [DecidableEq Buf]

/-- The driver clears the flag of the buffer that the chain was submitted for. -/
theorem Inv.round (h : Inv s) (hne : s.disk.usedIdx ≠ s.disk.usedRingIdx) : Inv s.round := by
  obtain ⟨rest, p, b, x, hcomp, hrest, hp, hx, hb⟩ := h.next_completed hne
  have hmem : x.1 ∈ s.completed := by
    rw [hcomp, hx]
    exact List.mem_cons_self ..
  have hstatus := h.status _ hmem
  have hbuf := (h.chain p b x hp).buf
  have hrun : intrRound s.disk = .ok { s.disk with
      disk := Function.update s.disk.disk b false, usedIdx := s.disk.usedIdx + 1 } := by
    rw [intrRound, ← hx, if_neg (not_not.2 hstatus), hbuf]
  rw [State.round, hrun]
  obtain ⟨t, ht⟩ : ∃ t, t = { s with disk := { s.disk with
    disk := Function.update s.disk.disk b false, usedIdx := s.disk.usedIdx + 1 } } := ⟨_, rfl⟩
  show Inv { s with disk := { s.disk with
    disk := Function.update s.disk.disk b false, usedIdx := s.disk.usedIdx + 1 } }
  rw [← ht]
  have hcall : t.call = s.call := by rw [ht]
  have hcompleted : t.completed = rest := by
    rw [ht, hrest]
    rfl
  have hout : s.out = s.queued ++ s.heads ++ x.1 :: rest := by rw [State.out, hcomp, hx]
  have hout' : t.out = s.queued ++ s.heads ++ rest := by
    rw [State.out, hcompleted, ht]
    rfl
  have hflag : ∀ c, t.disk.disk c = if c = b then false else s.disk.disk c := by
    intro c
    rw [ht]
    exact Function.update_apply ..
  have hperm : s.out.Perm (x.1 :: t.out) := by
    rw [hout, hout']
    exact List.perm_middle
  have hnd := hperm.nodup_iff.1 h.nodup
  have hmemout : ∀ i, i ∈ s.out ↔ i = x.1 ∨ i ∈ t.out := fun i =>
    hperm.mem_iff.trans List.mem_cons
  -- the request of a chain is the request for its buffer
  have hxb : ∀ q c y, s.call q = .io c y → (y.1 = x.1 ↔ c = b) := by
    intro q c y hq
    constructor
    · intro he
      have hqp := h.apart q p c b y x x.1 hq hp (he ▸ y.has_head) x.has_head
      rw [hqp, hp] at hq
      exact (Call.io.inj hq).1.symm
    · rintro rfl
      by_cases hqp : q = p
      · rw [hqp, hp] at hq
        rw [(Call.io.inj hq).2]
      · have hu : (s.call p).Uses c := by
          rw [hp]
          rfl
        have hu' : (s.call q).Uses c := by
          rw [hq]
          rfl
        exact absurd rfl (h.ne_buf hu hu' hqp)
  have hchain : ∀ q c y, s.call q = .io c y → Chain t.disk c y := by
    intro q c y hq
    refine (h.chain q c y hq).congr (fun n hn => ?_) (fun n _ => by rw [ht]) (by rw [ht])
    rw [ht]
    exact (h.chain q c y hq).taken n hn
  constructor
  case panic =>
    rw [ht]
    exact h.panic
  case chain =>
    rw [hcall]
    exact hchain
  case apart =>
    rw [hcall]
    exact h.apart
  case owned =>
    rw [hcall, show t.disk.free = s.disk.free by rw [ht]]
    exact h.owned
  case lock =>
    rw [hcall, show t.lock = s.lock by rw [ht]]
    exact h.lock
  case nodup =>
    exact (List.nodup_cons.1 hnd).2
  case out_io =>
    intro i hi
    obtain ⟨q, c, y, hq, hy, hc⟩ := h.out_io i ((hmemout i).2 (Or.inr hi))
    refine ⟨q, c, y, hcall ▸ hq, hy, ?_⟩
    rw [hflag, if_neg, hc]
    intro hcb
    have := (hxb q c y hq).2 hcb
    rw [← hy, this] at hi
    exact (List.nodup_cons.1 hnd).1 hi
  case io_out =>
    intro q c y hq hc
    rw [hcall] at hq
    rw [hflag] at hc
    by_cases hcb : c = b
    · rw [if_pos hcb] at hc
      cases hc
    · rw [if_neg hcb] at hc
      rcases (hmemout _).1 (h.io_out q c y hq hc) with he | hmem
      · exact absurd ((hxb q c y hq).1 he) hcb
      · exact hmem
  case status =>
    intro i hi
    rw [hcompleted] at hi
    rw [show t.disk.info = s.disk.info by rw [ht]]
    exact h.status i (by rw [hcomp]; exact List.mem_cons_of_mem _ hi)
  case served =>
    intro i hi
    rw [hcompleted] at hi
    rw [show t.served = s.served by rw [ht]]
    exact h.served i (by rw [hcomp]; exact List.mem_cons_of_mem _ hi)
  -- the flag goes down for the request whose completion was next, and the device has served it
  case done =>
    intro q c y hq hc
    rw [hcall] at hq
    rw [show t.served = s.served by rw [ht]]
    rw [hflag] at hc
    by_cases hcb : c = b
    · rw [(hxb q c y hq).2 hcb]
      exact h.served _ hmem
    · rw [if_neg hcb] at hc
      exact h.done q c y hq hc

end Completions

/-! ## The device -/

section Device

/-- The device finds a chain. -/
theorem Inv.fetch (h : Inv s) (hne : s.seen ≠ s.disk.availIdx) :
    Inv { s with seen := s.seen + 1
                 heads := s.heads ++ [s.disk.avail (Ring.slot NUM s.seen)] } := by
  have hpop := Ring.contents_pop s.disk.avail hne
  obtain ⟨t, ht⟩ : ∃ t, t = { s with
    seen := s.seen + 1
    heads := s.heads ++ [s.disk.avail (Ring.slot NUM s.seen)] } := ⟨_, rfl⟩
  rw [← ht]
  have hcall : t.call = s.call := by rw [ht]
  have hdisk : t.disk = s.disk := by rw [ht]
  have hcompleted : t.completed = s.completed := by
    rw [ht]
    rfl
  have hperm : t.out.Perm s.out := by
    have hq : s.queued = s.disk.avail (Ring.slot NUM s.seen) :: t.queued := by
      rw [ht]
      exact hpop
    rw [State.out, State.out, hq, hcompleted, ht]
    refine List.Perm.append_right _ ?_
    rw [← List.append_assoc]
    exact List.perm_append_singleton ..
  exact {
    panic := by rw [ht]; exact h.panic
    chain := by rw [hcall, hdisk]; exact h.chain
    apart := by rw [hcall]; exact h.apart
    owned := by rw [hcall, hdisk]; exact h.owned
    lock := by rw [hcall, show t.lock = s.lock by rw [ht]]; exact h.lock
    nodup := hperm.nodup_iff.2 h.nodup
    out_io := by
      rw [hcall, hdisk]
      exact fun i hi => h.out_io i (hperm.mem_iff.1 hi)
    io_out := by
      rw [hcall, hdisk]
      exact fun p b x hp hb => hperm.mem_iff.2 (h.io_out p b x hp hb)
    status := by rw [hcompleted, hdisk]; exact h.status
    served := by rw [hcompleted, show t.served = s.served by rw [ht]]; exact h.served
    done := by rw [hcall, hdisk, show t.served = s.served by rw [ht]]; exact h.done }

/-- The device is done with a chain, and reports it as done. -/
theorem Inv.complete (h : Inv s) {i : Nat} (hi : i ∈ s.heads) :
    Inv { s with disk := complete i s.disk
                 heads := s.heads.erase i
                 served := Function.update s.served i true } := by
  have hmem : i ∈ s.out := List.mem_append_left _ (List.mem_append_right _ hi)
  obtain ⟨p, b, x, hp, rfl, -⟩ := h.out_io i hmem
  rw [(h.chain p b x hp).complete]
  obtain ⟨t, ht⟩ : ∃ t, t = { s with
    disk := { s.disk with
      info := Function.update s.disk.info x.1 { s.disk.info x.1 with status := 0 }
      used := Function.update s.disk.used (Ring.slot NUM s.disk.usedRingIdx) x.1
      usedRingIdx := s.disk.usedRingIdx + 1 }
    heads := s.heads.erase x.1
    served := Function.update s.served x.1 true } := ⟨_, rfl⟩
  rw [← ht]
  have hcall : t.call = s.call := by rw [ht]
  have hflag : t.disk.disk = s.disk.disk := by rw [ht]
  have hnd := h.nodup
  rw [State.out] at hnd
  obtain ⟨hnd₁, hnd₂, hdisj⟩ := List.nodup_append.1 hnd
  have hcompout : ∀ j ∈ s.completed, j ∈ s.out := fun j hj => List.mem_append_right _ hj
  have hxc : x.1 ∉ s.completed := fun hc =>
    hdisj x.1 (List.mem_append_right _ hi) x.1 hc rfl
  -- fewer chains are out than there are descriptors, so that the ring has room
  have hroom : (s.disk.usedRingIdx - s.disk.usedIdx).toNat < NUM := by
    rw [← Ring.length_contents s.disk.used]
    refine length_lt_of_nodup (i := x.1) (List.nodup_cons.2 ⟨hxc, hnd₂⟩) fun n hn => ?_
    rcases List.mem_cons.1 hn with rfl | hn
    · exact (h.taken_of_out hmem).2
    · exact (h.taken_of_out (hcompout n hn)).2
  have hcompleted : t.completed = s.completed ++ [x.1] := by
    have hpush := Ring.contents_push (r := s.disk.usedIdx) (e := s.disk.usedRingIdx) (by decide)
      s.disk.used x.1 hroom (by decide)
    rw [ht]
    exact hpush
  -- the chain moves from the device to the completions
  have hperm : t.out.Perm s.out := by
    have hq : t.queued = s.queued := by
      rw [ht]
      rfl
    rw [State.out, State.out, hq, hcompleted, ht, List.append_assoc, List.append_assoc]
    refine List.Perm.append_left _ ?_
    show (s.heads.erase x.1 ++ (s.completed ++ [x.1])).Perm (s.heads ++ s.completed)
    rw [← List.append_assoc]
    refine (List.perm_append_singleton ..).trans ?_
    rw [← List.cons_append]
    exact (List.perm_cons_erase hi).symm.append_right _
  have hinfo : ∀ j, (t.disk.info j).b = (s.disk.info j).b ∧
      (j = x.1 ∨ (s.disk.info j).status = 0 → (t.disk.info j).status = 0) := by
    intro j
    rw [ht]
    show (Function.update s.disk.info x.1 _ j).b = _ ∧
      (_ → (Function.update s.disk.info x.1 _ j).status = 0)
    by_cases hj : j = x.1
    · rw [hj, Function.update_self]
      exact ⟨rfl, fun _ => rfl⟩
    · rw [Function.update_of_ne hj]
      exact ⟨rfl, fun hor => hor.resolve_left hj⟩
  have hserved : ∀ j, j = x.1 ∨ s.served j = true → t.served j = true := by
    intro j hj
    rw [ht]
    show Function.update s.served x.1 true j = true
    by_cases hjx : j = x.1
    · rw [hjx, Function.update_self]
    · rw [Function.update_of_ne hjx]
      exact hj.resolve_left hjx
  constructor
  case panic =>
    rw [ht]
    exact h.panic
  case chain =>
    intro q c y hq
    rw [hcall] at hq
    refine (h.chain q c y hq).congr (fun n hn => ?_) (fun n _ => by rw [ht]) (hinfo y.1).1
    rw [ht]
    exact (h.chain q c y hq).taken n hn
  case apart =>
    rw [hcall]
    exact h.apart
  case owned =>
    rw [hcall, show t.disk.free = s.disk.free by rw [ht]]
    exact h.owned
  case lock =>
    rw [hcall, show t.lock = s.lock by rw [ht]]
    exact h.lock
  case nodup =>
    exact hperm.nodup_iff.2 h.nodup
  case out_io =>
    rw [hcall, hflag]
    exact fun j hj => h.out_io j (hperm.mem_iff.1 hj)
  case io_out =>
    rw [hcall, hflag]
    exact fun q c y hq hc => hperm.mem_iff.2 (h.io_out q c y hq hc)
  case status =>
    intro j hj
    rw [hcompleted] at hj
    refine (hinfo j).2 ?_
    rcases List.mem_append.1 hj with hj | hj
    · exact Or.inr (h.status j hj)
    · exact Or.inl (List.mem_singleton.1 hj)
  case served =>
    intro j hj
    rw [hcompleted] at hj
    refine hserved j ?_
    rcases List.mem_append.1 hj with hj | hj
    · exact Or.inr (h.served j hj)
    · exact Or.inl (List.mem_singleton.1 hj)
  case done =>
    rw [hcall, hflag]
    exact fun q c y hq hc => hserved _ (Or.inr (h.done q c y hq hc))

end Device

end Inv

/-! ## Runs -/

section Runs

variable [DecidableEq Pid] [DecidableEq Buf] {s t : State Pid Buf}

omit [DecidableEq Pid] [DecidableEq Buf] in
theorem inv_start : Inv (start Pid Buf) := by
  have hcompleted : (start Pid Buf).completed = [] := Ring.contents_self ..
  have hqueued : (start Pid Buf).queued = [] := Ring.contents_self ..
  have hout : (start Pid Buf).out = [] := by
    rw [State.out, hqueued, hcompleted]
    rfl
  exact {
    panic := rfl
    chain := fun _ _ _ h => by cases h
    apart := fun _ _ _ _ _ _ _ h => by cases h
    owned := fun _ _ h => by cases h
    lock := fun _ _ h => absurd h id
    nodup := hout ▸ List.nodup_nil
    out_io := fun _ h => absurd (hout ▸ h) List.not_mem_nil
    io_out := fun _ _ _ h => by cases h
    status := fun _ h => absurd (hcompleted ▸ h) List.not_mem_nil
    served := fun _ h => absurd (hcompleted ▸ h) List.not_mem_nil
    done := fun _ _ _ h => by cases h }

/-- What a step of a state without a panic is. -/
inductive Step (s : State Pid Buf) : State Pid Buf → Prop where
  | rw (p : Pid) (b : Buf) (write : Bool) (hp : s.call p = .idle) (hb : s.lock b = none) :
    Step s ({ s with lock := Function.update s.lock b (some p) }.alloc p b write)
  | retry (p : Pid) (b : Buf) (write : Bool) (hp : s.call p = .descs b write) :
    Step s (s.alloc p b write)
  | spurious : Step s s
  | finish (p : Pid) (b : Buf) (x : Idx) (hp : s.call p = .io b x) (hb : s.disk.disk b = false) :
    Step s (s.finish p b x)
  | lock (intr : Bool) : Step s { s with intr := intr }
  | round (hne : s.disk.usedIdx ≠ s.disk.usedRingIdx) : Step s s.round
  | fetch (hne : s.seen ≠ s.disk.availIdx) :
    Step s { s with seen := s.seen + 1
                    heads := s.heads ++ [s.disk.avail (Ring.slot NUM s.seen)] }
  | complete (i : Nat) (hi : i ∈ s.heads) :
    Step s { s with disk := complete i s.disk
                    heads := s.heads.erase i
                    served := Function.update s.served i true }

theorem step_cases {l : Label Pid Buf} (h : step s l = some t) : Step s t := by
  obtain ⟨-, h⟩ := Option.ite_none_left_eq_some.1 h
  cases l with
  | rw p b write =>
      cases hi : s.intr <;> cases hp : s.call p <;> cases hb : s.lock b <;>
        simp only [hi, hp, hb] at h <;> cases h
      simpa only [hi] using Step.rw p b write hp hb
  | wake p =>
      cases hi : s.intr <;> cases hp : s.call p <;> simp only [hi, hp] at h <;> cases h
      · exact .retry p _ _ hp
      · rename_i b x
        by_cases hb : s.disk.disk b = true
        · rw [if_pos hb]
          exact .spurious
        · rw [if_neg hb]
          exact .finish p b x hp (Bool.eq_false_iff.2 hb)
  | intr =>
      obtain ⟨-, h⟩ := Option.ite_none_left_eq_some.1 h
      cases h
      exact .lock true
  | round =>
      obtain ⟨hne, h⟩ := Option.ite_none_right_eq_some.1 h
      cases h
      exact .round hne.2
  | iret =>
      obtain ⟨-, h⟩ := Option.ite_none_right_eq_some.1 h
      cases h
      exact .lock false
  | fetch =>
      obtain ⟨hne, h⟩ := Option.ite_none_left_eq_some.1 h
      cases h
      exact .fetch hne
  | complete i =>
      obtain ⟨hi, h⟩ := Option.ite_none_right_eq_some.1 h
      cases h
      exact .complete i hi

theorem alloc_call {p q : Pid} {b : Buf} {write : Bool} (hpq : p ≠ q) :
    (s.alloc q b write).call p = s.call p := by
  rw [State.alloc]
  split
  · rfl
  · exact (setCall_call s q p _).trans (if_neg hpq)
  · exact (setCall_call s q p _).trans (if_neg hpq)

theorem finish_call {p q : Pid} {b : Buf} {x : Idx} (hpq : p ≠ q) :
    (s.finish q b x).call p = s.call p := by
  rw [State.finish]
  split
  · rfl
  · exact (setCall_call s q p _).trans (if_neg hpq)

omit [DecidableEq Pid] in
theorem round_call : s.round.call = s.call := by
  rw [State.round]
  split <;> rfl

/-- A call with a request returns when the flag of its buffer is clear. -/
theorem Step.returns (hstep : Step s t) {p : Pid} {b : Buf} {x : Idx} (hp : s.call p = .io b x)
    (hidle : t.call p = .idle) : s.disk.disk b = false := by
  have hsame : t.call p ≠ s.call p := by
    rw [hp, hidle]
    exact fun he => by cases he
  cases hstep with
  | rw q c write hq hc =>
      have hpq : p ≠ q := by
        rintro rfl
        rw [hp] at hq
        cases hq
      exact absurd (alloc_call hpq) hsame
  | retry q c write hq =>
      have hpq : p ≠ q := by
        rintro rfl
        rw [hp] at hq
        cases hq
      exact absurd (alloc_call hpq) hsame
  | finish q c y hq hc =>
      by_cases hpq : p = q
      · rw [hpq, hq] at hp
        rw [← (Call.io.inj hp).1]
        exact hc
      · exact absurd (finish_call hpq) hsame
  | round hne => exact absurd (congrFun round_call p) hsame
  | spurious => exact absurd rfl hsame
  | lock intr => exact absurd rfl hsame
  | fetch hne => exact absurd rfl hsame
  | complete i hi => exact absurd rfl hsame

omit [DecidableEq Pid] in
/-- A call of `virtio_disk_rw` starts with a buffer that no other call has. -/
theorem Inv.hold (h : Inv s) {p : Pid} {b : Buf} (hb : s.lock b = none) :
    Inv { s with lock := Function.update s.lock b (some p) } := by
  refine h.of_same (fun _ _ _ => Iff.rfl) ⟨rfl, fun _ _ => rfl⟩ rfl rfl rfl rfl fun q c hq => ?_
  have hold := h.lock q c hq
  have hcb : c ≠ b := by
    rintro rfl
    rw [hb] at hold
    cases hold
  exact (Function.update_of_ne hcb _ _).trans hold

theorem Inv.step (h : Inv s) (hstep : Step s t) : Inv t := by
  cases hstep with
  | rw p b write hp hb =>
      have hno : ∀ c x, s.call p ≠ .io c x := fun c x he => by rw [hp] at he; cases he
      exact (h.hold hb).alloc hno (Function.update_self ..) write
  | retry p b write hp =>
      have hno : ∀ c x, s.call p ≠ .io c x := fun c x he => by rw [hp] at he; cases he
      exact h.alloc hno (h.lock p b (by rw [hp]; rfl)) write
  | spurious => exact h
  | finish p b x hp hb => exact h.finish hp hb
  | lock intr =>
      exact h.of_same (fun _ _ _ => Iff.rfl) ⟨rfl, fun _ _ => rfl⟩ rfl rfl rfl rfl h.lock
  | round hne => exact h.round hne
  | fetch hne => exact h.fetch hne
  | complete i hi => exact h.complete hi

theorem inv_of_run {ls : List (Label Pid Buf)}
    (hrun : runSteps step (start Pid Buf) ls = some s) : Inv s :=
  runSteps_invariant (fun _ _ _ h hstep => h.step (step_cases hstep)) inv_start hrun

/-- After every run of calls, completions, interrupts and wakeups: requests have descriptors of
    their own; the buffer recorded for a request is its own, and the next completion is that of a
    request in flight; a call returns only when the device has finished with its chain; nothing
    panics; and all descriptors are free when no request is in flight. -/
theorem protocol {ls : List (Label Pid Buf)} (hrun : runSteps step (start Pid Buf) ls = some s) :
    (∀ p b x, s.call p = .io b x → x.Ok ∧ (∀ n, x.Has n → s.disk.free n = false) ∧
      ∀ q c y, s.call q = .io c y → q ≠ p → ∀ n, x.Has n → ¬ y.Has n) ∧
    (∀ p b x, s.call p = .io b x → (s.disk.info x.1).b = some b) ∧
    (s.disk.usedIdx ≠ s.disk.usedRingIdx → ∃ p b x, s.call p = .io b x ∧
      x.1 = s.disk.used (Ring.slot NUM s.disk.usedIdx) ∧ s.served x.1 = true) ∧
    (∀ p b x l t, s.call p = .io b x → step s l = some t → t.call p = .idle →
      s.served x.1 = true) ∧
    s.panicked = none ∧
    ((∀ p b x, s.call p ≠ .io b x) → ∀ n, n < NUM → s.disk.free n = true) := by
  have h := inv_of_run hrun
  refine ⟨fun p b x hp => ?_, fun p b x hp => (h.chain p b x hp).buf, fun hne => ?_, ?_, h.panic, ?_⟩
  · refine ⟨(h.chain p b x hp).ok, (h.chain p b x hp).taken, fun q c y hq hqp n hx hy => ?_⟩
    exact hqp (h.apart q p c b y x n hq hp hy hx)
  · obtain ⟨rest, p, b, x, hcomp, -, hp, hx, -⟩ := h.next_completed hne
    refine ⟨p, b, x, hp, hx, h.served _ ?_⟩
    rw [hcomp, hx]
    exact List.mem_cons_self ..
  · intro p b x l t hp hstep hidle
    exact h.done p b x hp ((step_cases hstep).returns hp hidle)
  · intro hno n hn
    rw [← Bool.not_eq_false]
    intro hf
    obtain ⟨p, b, x, hp, -⟩ := h.owned n hn hf
    exact hno p b x hp

end Runs

/-- Two requests are submitted and done in the other order, and the second call returns first. -/
theorem protocol_two : ∃ s : State (Fin 2) (Fin 2),
    runSteps step (start (Fin 2) (Fin 2)) [.rw 0 0 true, .rw 1 1 false, .fetch, .fetch, .complete 3,
      .complete 0, .intr, .round, .round, .iret, .wake 1] = some s ∧
    s.disk.free 3 = true ∧ s.disk.free 0 = false ∧ s.panicked = none := by
  have hrun : (runSteps step (start (Fin 2) (Fin 2)) [.rw 0 0 true, .rw 1 1 false, .fetch, .fetch,
      .complete 3, .complete 0, .intr, .round, .round, .iret, .wake 1]).map
      (fun s => (s.disk.free 3, s.disk.free 0)) = some (true, false) := by
    decide +kernel
  obtain ⟨s, hs, hfree⟩ := Option.map_eq_some_iff.1 hrun
  have h := protocol hs
  exact ⟨s, hs, congrArg Prod.fst hfree, congrArg Prod.snd hfree, h.2.2.2.2.1⟩

end Xv6.Virtio
