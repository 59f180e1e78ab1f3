import Xv6.Virtio.Model

set_option autoImplicit false

/-! # Descriptors

What `alloc3_desc`, `submit`, `finish` and the device do with the descriptors of a request. -/

namespace Xv6.Virtio

open Xv6.Lib

section Descs

variable {Buf : Type} {d d' : Disk Buf} {i : Nat}

/-- The three descriptors of a request. -/
def Idx.Has (x : Idx) (n : Nat) : Prop := n = x.1 ∨ n = x.2.1 ∨ n = x.2.2

/-- Three different descriptors. -/
structure Idx.Ok (x : Idx) : Prop where
  lt : ∀ n, x.Has n → n < NUM
  ne₁ : x.1 ≠ x.2.1
  ne₂ : x.1 ≠ x.2.2
  ne₃ : x.2.1 ≠ x.2.2

/-- A descriptor is not free any more. -/
def Disk.take (d : Disk Buf) (i : Nat) : Disk Buf :=
  { d with free := Function.update d.free i false }

/-- A descriptor is free again. -/
def Disk.give (d : Disk Buf) (i : Nat) : Disk Buf :=
  { d with
    desc := Function.update d.desc i ⟨.null, 0, 0, 0⟩
    free := Function.update d.free i true }

theorem allocDesc_eq_some (h : allocDesc d = some (i, d')) :
    i < NUM ∧ d.free i = true ∧ d' = d.take i := by
  obtain ⟨j, hj, heq⟩ := Option.map_eq_some_iff.1 h
  obtain ⟨rfl, rfl⟩ := Prod.mk.inj heq
  exact ⟨List.mem_range.1 (List.mem_of_find?_eq_some hj), List.find?_some hj, rfl⟩

theorem freeDesc_ok (hi : i < NUM) (hf : d.free i = false) : freeDesc i d = .ok (d.give i) := by
  rw [freeDesc, if_neg (Nat.not_le.2 hi), if_neg (by rw [hf]; decide)]
  rfl

/-- Only free descriptors have been written. -/
def SameBut (d d' : Disk Buf) : Prop :=
  d' = { d with desc := d'.desc } ∧ ∀ n, d.free n = false → d'.desc n = d.desc n

/-- What `alloc3_desc` returns, and what it leaves behind. -/
inductive Alloc3 (d : Disk Buf) : Option Idx → Disk Buf → Prop where
  | none (d' : Disk Buf) (h : SameBut d d') : Alloc3 d none d'
  | some (x : Idx) (hx : x.Ok) (hf : ∀ n, x.Has n → d.free n = true) :
    Alloc3 d (some x) (((d.take x.1).take x.2.1).take x.2.2)

theorem take_of_ne {n : Nat} (h : (d.take i).free n = true) : n ≠ i ∧ d.free n = true := by
  by_cases hn : n = i
  · rw [hn] at h
    simp [Disk.take] at h
  · have hsame : (d.take i).free n = d.free n := Function.update_of_ne hn ..
    exact ⟨hn, hsame ▸ h⟩

/-- `alloc3_desc` takes three free descriptors, or none. -/
theorem alloc3Desc_spec (d : Disk Buf) : ∃ r d', alloc3Desc d = .ok (r, d') ∧ Alloc3 d r d' := by
  cases h₀ : allocDesc d with
  | none => exact ⟨none, d, by rw [alloc3Desc, h₀]; rfl, .none d ⟨rfl, fun _ _ => rfl⟩⟩
  | some r₀ =>
      obtain ⟨i₀, d₀⟩ := r₀
      obtain ⟨lt₀, free₀, rfl⟩ := allocDesc_eq_some h₀
      cases h₁ : allocDesc (d.take i₀) with
      | none =>
          -- the first is given back
          have hgive : freeDesc i₀ (d.take i₀) = .ok ((d.take i₀).give i₀) :=
            freeDesc_ok lt₀ (Function.update_self ..)
          refine ⟨none, (d.take i₀).give i₀, ?_, .none _ ⟨?_, fun n hn => ?_⟩⟩
          · simp only [alloc3Desc, h₀, h₁, hgive]
            rfl
          · simp only [Disk.take, Disk.give, Function.update_idem]
            rw [← free₀, Function.update_eq_self]
          · refine Function.update_of_ne ?_ _ _
            rintro rfl
            rw [free₀] at hn
            cases hn
      | some r₁ =>
          obtain ⟨i₁, d₁⟩ := r₁
          obtain ⟨lt₁, free₁, rfl⟩ := allocDesc_eq_some h₁
          obtain ⟨ne₁, free₁⟩ := take_of_ne free₁
          cases h₂ : allocDesc ((d.take i₀).take i₁) with
          | none =>
              -- the first two are given back
              have hgive : freeDesc i₀ ((d.take i₀).take i₁) =
                  .ok (((d.take i₀).take i₁).give i₀) := by
                refine freeDesc_ok lt₀ ?_
                simp [Disk.take, Function.update_of_ne ne₁.symm]
              have hgive' : freeDesc i₁ (((d.take i₀).take i₁).give i₀) =
                  .ok ((((d.take i₀).take i₁).give i₀).give i₁) := by
                refine freeDesc_ok lt₁ ?_
                simp [Disk.take, Disk.give, Function.update_of_ne ne₁]
              refine ⟨none, (((d.take i₀).take i₁).give i₀).give i₁, ?_,
                .none _ ⟨?_, fun n hn => ?_⟩⟩
              · simp only [alloc3Desc, h₀, h₁, h₂, hgive]
                show (freeDesc i₁ _ >>= fun d => pure (none, d)) = _
                rw [hgive']
                rfl
              · simp only [Disk.take, Disk.give]
                congr 1
                funext n
                by_cases hn₁ : n = i₁
                · rw [hn₁, Function.update_self, free₁]
                · by_cases hn₀ : n = i₀
                  · rw [hn₀, Function.update_of_ne ne₁.symm, Function.update_self, free₀]
                  · rw [Function.update_of_ne hn₁, Function.update_of_ne hn₀,
                      Function.update_of_ne hn₁, Function.update_of_ne hn₀]
              · have hne₀ : n ≠ i₀ := by
                  rintro rfl
                  rw [free₀] at hn
                  cases hn
                have hne₁ : n ≠ i₁ := by
                  rintro rfl
                  rw [free₁] at hn
                  cases hn
                exact (Function.update_of_ne hne₁ _ _).trans (Function.update_of_ne hne₀ _ _)
          | some r₂ =>
              obtain ⟨i₂, d₂⟩ := r₂
              obtain ⟨lt₂, free₂, rfl⟩ := allocDesc_eq_some h₂
              obtain ⟨ne₃, free₂⟩ := take_of_ne free₂
              obtain ⟨ne₂, free₂⟩ := take_of_ne free₂
              refine ⟨some (i₀, i₁, i₂), _, by simp only [alloc3Desc, h₀, h₁, h₂]; rfl,
                .some (i₀, i₁, i₂) ⟨?_, ne₁.symm, ne₂.symm, ne₃.symm⟩ ?_⟩
              · rintro n (rfl | rfl | rfl)
                · exact lt₀
                · exact lt₁
                · exact lt₂
              · rintro n (rfl | rfl | rfl)
                · exact free₀
                · exact free₁
                · exact free₂

/-! ## Chains -/

/-- The descriptors of a request for a buffer, as `submit` has formatted them. -/
structure Chain (d : Disk Buf) (b : Buf) (x : Idx) : Prop where
  ok : x.Ok
  taken : ∀ n, x.Has n → d.free n = false
  next₁ : (d.desc x.1).flags &&& VRING_DESC_F_NEXT ≠ 0 ∧ (d.desc x.1).next = x.2.1
  next₂ : (d.desc x.2.1).flags &&& VRING_DESC_F_NEXT ≠ 0 ∧ (d.desc x.2.1).next = x.2.2
  last : (d.desc x.2.2).flags &&& VRING_DESC_F_NEXT = 0 ∧ (d.desc x.2.2).addr = .status x.1
  buf : (d.info x.1).b = some b

/-- A request is not touched by what happens to other descriptors. -/
theorem Chain.congr {b : Buf} {x : Idx} (h : Chain d b x)
    (hfree : ∀ n, x.Has n → d'.free n = false) (hdesc : ∀ n, x.Has n → d'.desc n = d.desc n)
    (hinfo : (d'.info x.1).b = (d.info x.1).b) : Chain d' b x := by
  have h₁ := hdesc x.1 (Or.inl rfl)
  have h₂ := hdesc x.2.1 (Or.inr (Or.inl rfl))
  have h₃ := hdesc x.2.2 (Or.inr (Or.inr rfl))
  exact ⟨h.ok, hfree, by rw [h₁]; exact h.next₁, by rw [h₂]; exact h.next₂,
    by rw [h₃]; exact h.last, hinfo.trans h.buf⟩

theorem chain_submit [DecidableEq Buf] {b : Buf} {x : Idx} (hx : x.Ok) (write : Bool)
    (htaken : ∀ n, x.Has n → d.free n = false) : Chain (submit b write x d) b x := by
  have hd₃ : (submit b write x d).desc x.2.2 = ⟨.status x.1, 1, VRING_DESC_F_WRITE, 0⟩ :=
    Function.update_self ..
  have hd₂ : (submit b write x d).desc x.2.1 = ⟨.data b, BSIZE,
      (if write then 0 else VRING_DESC_F_WRITE) ||| VRING_DESC_F_NEXT, x.2.2⟩ :=
    (Function.update_of_ne hx.ne₃ _ _).trans (Function.update_self ..)
  have hd₁ : (submit b write x d).desc x.1 = ⟨.op x.1, 16, VRING_DESC_F_NEXT, x.2.1⟩ :=
    ((Function.update_of_ne hx.ne₂ _ _).trans (Function.update_of_ne hx.ne₁ _ _)).trans
      (Function.update_self ..)
  constructor
  case ok =>
    exact hx
  case taken =>
    exact htaken
  case next₁ =>
    rw [hd₁]
    exact ⟨show VRING_DESC_F_NEXT &&& VRING_DESC_F_NEXT ≠ 0 by decide, rfl⟩
  case next₂ =>
    rw [hd₂]
    refine ⟨?_, rfl⟩
    show ((if write then 0 else VRING_DESC_F_WRITE) ||| VRING_DESC_F_NEXT) &&& VRING_DESC_F_NEXT ≠ 0
    cases write <;> decide
  case last =>
    rw [hd₃]
    exact ⟨show VRING_DESC_F_WRITE &&& VRING_DESC_F_NEXT = 0 by decide, rfl⟩
  case buf =>
    have hinfo : (submit b write x d).info x.1 = ⟨some b, 0xff⟩ := Function.update_self ..
    rw [hinfo]

/-- The device finds the place for the status of a request. -/
theorem Chain.lastDesc {b : Buf} {x : Idx} (h : Chain d b x) : lastDesc d.desc NUM x.1 = x.2.2 := by
  show Virtio.lastDesc d.desc (5 + 1 + 1 + 1) x.1 = x.2.2
  rw [Virtio.lastDesc, if_pos h.next₁.1, h.next₁.2, Virtio.lastDesc, if_pos h.next₂.1, h.next₂.2,
    Virtio.lastDesc, if_neg (not_not.2 h.last.1)]

theorem Chain.complete {b : Buf} {x : Idx} (h : Chain d b x) :
    complete x.1 d = { d with
      info := Function.update d.info x.1 { d.info x.1 with status := 0 }
      used := Function.update d.used (Ring.slot NUM d.usedRingIdx) x.1
      usedRingIdx := d.usedRingIdx + 1 } := by
  rw [Virtio.complete, h.lastDesc, h.last.2]
  rfl

/-- The three descriptors of a request are free again, and its buffer is forgotten. -/
def Disk.release (d : Disk Buf) (x : Idx) : Disk Buf :=
  ((({ d with info := Function.update d.info x.1 { d.info x.1 with b := none } } :
    Disk Buf).give x.1).give x.2.1).give x.2.2

theorem freeChain_next {n : Nat} (hi : i < NUM) (hf : d.free i = false)
    (hflag : (d.desc i).flags &&& VRING_DESC_F_NEXT ≠ 0) :
    freeChain (n + 1) i d = freeChain n (d.desc i).next (d.give i) := by
  rw [freeChain, freeDesc_ok hi hf]
  exact if_pos hflag

theorem freeChain_last {n : Nat} (hi : i < NUM) (hf : d.free i = false)
    (hflag : (d.desc i).flags &&& VRING_DESC_F_NEXT = 0) :
    freeChain (n + 1) i d = .ok (d.give i) := by
  rw [freeChain, freeDesc_ok hi hf]
  exact if_neg (not_not.2 hflag)

theorem give_of_ne {n : Nat} (hn : n ≠ i) :
    (d.give i).desc n = d.desc n ∧ (d.give i).free n = d.free n :=
  ⟨Function.update_of_ne hn .., Function.update_of_ne hn ..⟩

/-- A call that returns does not panic. -/
theorem Chain.finish {b : Buf} {x : Idx} (h : Chain d b x) : finish x d = .ok (d.release x) := by
  obtain ⟨d₀, hd₀⟩ : ∃ d₀ : Disk Buf, d₀ =
    { d with info := Function.update d.info x.1 { d.info x.1 with b := none } } := ⟨_, rfl⟩
  have hdesc : d₀.desc = d.desc := by rw [hd₀]
  have hfree : d₀.free = d.free := by rw [hd₀]
  obtain ⟨d₁, hd₁⟩ : ∃ d₁, d₁ = d₀.give x.1 := ⟨_, rfl⟩
  obtain ⟨d₂, hd₂⟩ : ∃ d₂, d₂ = d₁.give x.2.1 := ⟨_, rfl⟩
  have lt := fun n hn => h.ok.lt n hn
  have hx₁ : x.Has x.1 := Or.inl rfl
  have hx₂ : x.Has x.2.1 := Or.inr (Or.inl rfl)
  have hx₃ : x.Has x.2.2 := Or.inr (Or.inr rfl)
  have e₁ : d₁.desc x.2.1 = d.desc x.2.1 ∧ d₁.free x.2.1 = d.free x.2.1 := by
    rw [hd₁, ← hdesc, ← hfree]
    exact give_of_ne h.ok.ne₁.symm
  have e₂ : d₂.desc x.2.2 = d.desc x.2.2 ∧ d₂.free x.2.2 = d.free x.2.2 := by
    have e := give_of_ne h.ok.ne₃.symm (d := d₁)
    have e' := give_of_ne h.ok.ne₂.symm (d := d₀)
    rw [hd₂, e.1, e.2, hd₁, e'.1, e'.2, hdesc, hfree]
    exact ⟨rfl, rfl⟩
  show freeChain (7 + 1 + 1) x.1 _ = _
  rw [← hd₀, freeChain_next (lt _ hx₁) (hfree ▸ h.taken _ hx₁) (hdesc ▸ h.next₁.1), hdesc,
    h.next₁.2, ← hd₁, freeChain_next (lt _ hx₂) (e₁.2.trans (h.taken _ hx₂))
    (by rw [e₁.1]; exact h.next₂.1), e₁.1, h.next₂.2, ← hd₂,
    freeChain_last (lt _ hx₃) (e₂.2.trans (h.taken _ hx₃)) (by rw [e₂.1]; exact h.last.1)]
  rw [hd₂, hd₁, hd₀]
  rfl

end Descs

end Xv6.Virtio
