import Xv6.Blocks.Owned

set_option autoImplicit false

/-! # Blocks that an inode gets

`bmap` fills empty slots of the inode it is called for and changes no other slot, and what it writes
besides the inode in the table is logged. -/

namespace Xv6.Blocks

open Xv6.Lib
open Xv6.Fs (NINODE NFILE NDEV ROOTINO DIRSIZ MAXFILE Ip)

/-- The block numbers `A`, but those of `ip` as they are in the inode table. -/
def State.withIp (s : State) (ip : Ip) (A : Nat → Addrs) : Nat → Addrs :=
  Function.update A (s.itable ip).inum (s.itable ip).addrs

/-- From `s` to `t` slots of `ip` in `R` have been filled, and blocks of `ip` written; what is logged
    are blocks of the free map and the blocks in these slots. -/
structure Grown (sb : Superblock) (A : Nat → Addrs) (ip : Ip) (R : Nat → Prop) (s t : State) :
    Prop where
  table : t.itable = Function.update s.itable ip { s.itable ip with addrs := (t.itable ip).addrs }
  ftable : t.ftable = s.ftable
  ofile : t.ofile = s.ofile
  cwd : t.cwd = s.cwd
  dinode : ∀ i, i < sb.ninodes.toNat → t.dinode sb i = s.dinode sb i
  keep : ∀ k, s.slot ip k ≠ 0 → t.slot ip k = s.slot ip k
  bits : ∀ b, b < sb.size.toNat → s.bit sb b = true → t.bit sb b = true
  own : Own sb (t.withIp ip A) t
  data : ∀ b, Used sb s b → (∀ k, (t.slot ip k).toNat ≠ b) → t.blocks b = s.blocks b
  fresh : ∀ k, s.slot ip k = 0 → t.slot ip k ≠ 0 → (t.slot ip k).toNat ∈ t.logged
  filled : ∀ k, s.slot ip k = 0 → t.slot ip k ≠ 0 → R k
  logged : ∃ new, t.logged = new ++ s.logged ∧ ∀ b ∈ new,
    (∃ c, c < sb.size.toNat ∧ b = sb.BBLOCK c) ∨ ∃ k, R k ∧ t.slot ip k ≠ 0 ∧ (t.slot ip k).toNat = b

/-- The blocks that have changed are logged. -/
def Clean (s t : State) : Prop := ∀ b, b ∉ t.logged → t.blocks b = s.blocks b

variable {sb : Superblock} {s t u : State} {A : Nat → Addrs} {ip : Ip} {R R' : Nat → Prop}

theorem withIp_self : s.withIp ip A (s.itable ip).inum = (s.itable ip).addrs := Function.update_self ..

theorem withIp_of_ne {i : Nat} (h : i ≠ (s.itable ip).inum) : s.withIp ip A i = A i :=
  Function.update_of_ne h ..

theorem slotAddr_withIp (k : Nat) :
    slotAddr s.blocks (s.withIp ip A (s.itable ip).inum) k = s.slot ip k := by
  rw [withIp_self]
  rfl

theorem Owned.used_ip (h : Owned sb (s.withIp ip A) s) {k : Nat} (hk : s.slot ip k ≠ 0) :
    Used sb s (s.slot ip k).toNat := by
  rw [← slotAddr_withIp (A := A)] at hk ⊢
  exact h.used hk

theorem Owned.inj_ip (h : Owned sb (s.withIp ip A) s) {k k' : Nat} (hk : s.slot ip k ≠ 0)
    (he : (s.slot ip k).toNat = (s.slot ip k').toNat) : k = k' := by
  have he' := BitVec.eq_of_toNat_eq he
  rw [← slotAddr_withIp (A := A)] at hk
  rw [← slotAddr_withIp (A := A), ← slotAddr_withIp (A := A)] at he'
  exact (h.inj hk he').2

theorem Used.mono (hbits : ∀ b, b < sb.size.toNat → s.bit sb b = true → t.bit sb b = true) {b : Nat}
    (h : Used sb s b) : Used sb t b := ⟨h.1, h.2.1, hbits b h.2.1 h.2.2⟩

theorem Grown.inum (h : Grown sb A ip R s t) : (t.itable ip).inum = (s.itable ip).inum := by
  rw [h.table, Function.update_self]

theorem Grown.refl (h : Own sb (s.withIp ip A) s) : Grown sb A ip R s s where
  table := (Function.update_eq_self ip s.itable).symm
  ftable := rfl
  ofile := rfl
  cwd := rfl
  dinode := fun _ _ => rfl
  keep := fun _ _ => rfl
  bits := fun _ _ hb => hb
  own := h
  data := fun _ _ _ => rfl
  fresh := fun _ h0 h1 => absurd h0 h1
  filled := fun _ h0 h1 => absurd h0 h1
  logged := ⟨[], rfl, fun _ hb => absurd hb List.not_mem_nil⟩

theorem Grown.mono (h : Grown sb A ip R s t) (hR : ∀ k, R k → R' k) : Grown sb A ip R' s t := by
  obtain ⟨new, hnew, hlog⟩ := h.logged
  refine { h with
    filled := fun k h0 h1 => hR k (h.filled k h0 h1)
    logged := ⟨new, hnew, fun b hb => ?_⟩ }
  rcases hlog b hb with hc | ⟨k, hk, hrest⟩
  · exact Or.inl hc
  · exact Or.inr ⟨k, hR k hk, hrest⟩

theorem Grown.mem_logged (h : Grown sb A ip R s t) {b : Nat} (hb : b ∈ s.logged) : b ∈ t.logged := by
  obtain ⟨new, hnew, -⟩ := h.logged
  rw [hnew]
  exact List.mem_append_right _ hb

theorem Grown.trans (h : Grown sb A ip R s t) (h' : Grown sb A ip R t u) : Grown sb A ip R s u := by
  obtain ⟨new, hnew, hlog⟩ := h.logged
  obtain ⟨new', hnew', hlog'⟩ := h'.logged
  refine
    { table := ?_
      ftable := h'.ftable.trans h.ftable
      ofile := h'.ofile.trans h.ofile
      cwd := h'.cwd.trans h.cwd
      dinode := fun i hi => (h'.dinode i hi).trans (h.dinode i hi)
      keep := ?_
      bits := fun b hb hs => h'.bits b hb (h.bits b hb hs)
      own := h'.own
      data := ?_
      fresh := ?_
      filled := ?_
      logged := ⟨new' ++ new, by rw [hnew', hnew, List.append_assoc], ?_⟩ }
  · rw [h'.table, h.table, Function.update_idem, Function.update_self]
    simp only [Function.update_self]
  · intro k hk
    have hk' := h.keep k hk
    rw [h'.keep k (hk' ▸ hk), hk']
  · intro b hb hnot
    have hb' := Used.mono h.bits hb
    rw [h'.data b hb' hnot]
    refine h.data b hb fun k hk => ?_
    have hne : t.slot ip k ≠ 0 := by
      intro h0
      rw [h0] at hk
      exact hb.ne_zero hk.symm
    exact hnot k (by rw [h'.keep k hne, hk])
  · intro k h0 h1
    by_cases hk : t.slot ip k = 0
    · exact h'.fresh k hk h1
    · rw [h'.keep k hk]
      exact h'.mem_logged (h.fresh k h0 hk)
  · intro k h0 h1
    by_cases hk : t.slot ip k = 0
    · exact h'.filled k hk h1
    · exact h.filled k h0 hk
  · intro b hb
    rcases List.mem_append.1 hb with hb | hb
    · exact hlog' b hb
    · rcases hlog b hb with hc | ⟨k, hk, hne, he⟩
      · exact Or.inl hc
      · exact Or.inr ⟨k, hk, by rw [h'.keep k hne]; exact hne, by rw [h'.keep k hne]; exact he⟩

theorem Clean.trans (h : Clean s t) (hlog : ∀ b, b ∈ t.logged → b ∈ u.logged) (h' : Clean t u) :
    Clean s u := fun b hb => (h' b hb).trans (h b fun hm => hb (hlog b hm))

theorem Clean.refl (s : State) : Clean s s := fun _ _ => rfl

/-- Block `b`, which was free, is now in slot `k`; at most the indirect block has been written besides. -/
theorem Grown.of_taken (hsb : sb.Ordered) (h : Own sb (s.withIp ip A) s) {k b : Nat} (extra : List Nat)
    (hk : s.slot ip k = 0) (hb : b < sb.size.toNat) (hfree : s.bit sb b = false)
    (htable : t.itable = Function.update s.itable ip { s.itable ip with addrs := (t.itable ip).addrs })
    (hftable : t.ftable = s.ftable) (hofile : t.ofile = s.ofile) (hcwd : t.cwd = s.cwd)
    (hslot : ∀ j, t.slot ip j = if j = k then BitVec.ofNat 32 b else s.slot ip j)
    (hblocks : ∀ c, t.blocks c = (s.taken sb b).blocks c ∨ c ∈ extra)
    (hlogged : t.logged = extra ++ (s.taken sb b).logged)
    (hextra : ∀ c ∈ extra, s.slot ip INDIRECT ≠ 0 ∧ c = (s.slot ip INDIRECT).toNat) (hk' : R k)
    (hind : ∀ c ∈ extra, R INDIRECT) : Grown sb A ip R s t := by
  have hdata := h.data_of_free hb hfree
  have hbnat := toNat_blockno hb
  have hb0 := blockno_ne_zero hb hdata
  have hexdata : ∀ c ∈ extra, sb.dataStart ≤ c := by
    intro c hc
    obtain ⟨hne, rfl⟩ := hextra c hc
    exact (h.used_ip hne).1
  -- the change is in block `b`, in its bit, and in the indirect block
  have hmeta : ∀ c, c < sb.dataStart → t.blocks c = (s.taken sb b).blocks c := fun c hc =>
    (hblocks c).resolve_right fun hm => Nat.not_lt.2 (hexdata c hm) hc
  have hbit : ∀ c, c < sb.size.toNat → t.bit sb c = if c = b then true else s.bit sb c := by
    intro c hc
    rw [← taken_bit hdata hc]
    exact bit_congr sb (hmeta _ (Superblock.BBLOCK_lt hc))
  have hinum : (t.itable ip).inum = (s.itable ip).inum := by
    rw [htable, Function.update_self]
  have honly : ∀ j, s.slot ip j = 0 → t.slot ip j ≠ 0 → j = k := by
    intro j h0 h1
    by_contra hne
    rw [hslot, if_neg hne] at h1
    exact h1 h0
  -- the slots of the other inodes stay: their indirect blocks are not free and not this inode's
  have hother : ∀ i j, i ≠ (s.itable ip).inum →
      slotAddr t.blocks (s.withIp ip A i) j = slotAddr s.blocks (s.withIp ip A i) j := by
    intro i j hi
    refine slotAddr_congr (fun hne => ?_) j
    have hs : slotAddr s.blocks (s.withIp ip A i) INDIRECT ≠ 0 := by rwa [slotAddr_indirect]
    have hu := h.used hs
    rw [slotAddr_indirect] at hu
    have hneb := hu.ne_free hfree
    have hnot : (s.withIp ip A i (Fin.last NDIRECT)).toNat ∉ extra := by
      intro hm
      have he := BitVec.eq_of_toNat_eq (hextra _ hm).2
      rw [← slotAddr_indirect s.blocks (s.withIp ip A i), ← slotAddr_withIp (A := A)] at he
      exact hi (h.inj hs he).1
    rw [(hblocks _).resolve_right hnot]
    exact taken_of_ne hb hu.1 hneb
  refine
    { table := htable
      ftable := hftable
      ofile := hofile
      cwd := hcwd
      dinode := fun i hi => ?_
      keep := fun j hj => ?_
      bits := fun c hc hs => ?_
      own := ⟨⟨?_⟩, fun c hc hlt => ?_⟩
      data := fun c hc hnot => ?_
      fresh := fun j h0 h1 => ?_
      filled := fun j h0 h1 => ?_
      logged := ⟨extra ++ [b, sb.BBLOCK b], by rw [hlogged, List.append_assoc]; rfl, fun c hc => ?_⟩ }
  · have hlt := Superblock.IBLOCK_lt hsb hi
    have hlt' := Superblock.bmapstart_lt_dataStart sb
    exact (dinode_congr sb (hmeta _ (by omega))).trans (taken_dinode hsb hdata hi)
  · rw [hslot, if_neg]
    rintro rfl
    exact hj hk
  · rw [hbit c hc, hs]
    split <;> rfl
  -- slot `k` takes the free block `b`, and no other slot changes
  · refine h.owns.take (i := ((s.itable ip).inum, k)) (b := BitVec.ofNat 32 b) ?_ ?_ ?_ ?_ ?_
    · exact (slotAddr_withIp k).trans hk
    · rw [hbnat]
      exact fun hu => hu.ne_free hfree rfl
    · show slotAddr t.blocks (t.withIp ip A (s.itable ip).inum) k = _
      rw [← hinum, slotAddr_withIp, hslot, if_pos rfl]
    · rintro ⟨i, j⟩ hne
      show slotAddr t.blocks (t.withIp ip A i) j = slotAddr s.blocks (s.withIp ip A i) j
      by_cases hi : i = (s.itable ip).inum
      · subst hi
        have hjk : j ≠ k := fun he => hne (by rw [he])
        rw [slotAddr_withIp, ← hinum, slotAddr_withIp, hslot, if_neg hjk]
      · rw [withIp_of_ne (hinum ▸ hi), ← withIp_of_ne (s := s) (A := A) hi]
        exact hother i j hi
    · intro c hc
      have hlt : c.toNat < sb.size.toNat → (c = BitVec.ofNat 32 b ↔ c.toNat = b) := fun _ =>
        ⟨fun he => by rw [he, hbnat], fun he => BitVec.eq_of_toNat_eq (by rw [he, hbnat])⟩
      constructor
      · rintro ⟨h1, h2, h3⟩
        rw [hbit _ h2] at h3
        by_cases he : c.toNat = b
        · exact Or.inr ((hlt h2).2 he)
        · rw [if_neg he] at h3
          exact Or.inl ⟨h1, h2, h3⟩
      · rintro (⟨h1, h2, h3⟩ | rfl)
        · refine ⟨h1, h2, ?_⟩
          rw [hbit _ h2, h3]
          split <;> rfl
        · rw [hbnat]
          exact ⟨hdata, hb, by rw [hbit b hb, if_pos rfl]⟩
  · rw [hbit c hlt, h.boot c hc hlt]
    split <;> rfl
  · have hnotextra : c ∉ extra := by
      intro hm
      obtain ⟨hi, rfl⟩ := hextra c hm
      refine hnot INDIRECT ?_
      rw [hslot, if_neg]
      rintro rfl
      exact hi hk
    rw [(hblocks c).resolve_right hnotextra]
    exact taken_of_ne hb hc.1 (hc.ne_free hfree)
  · rw [hslot, if_pos (honly j h0 h1), hbnat, hlogged]
    exact List.mem_append_right _ (List.mem_cons_self ..)
  · exact honly j h0 h1 ▸ hk'
  · rcases List.mem_append.1 hc with hc | hc
    · have hRi := hind c hc
      obtain ⟨hi, rfl⟩ := hextra c hc
      have hne : INDIRECT ≠ k := by
        rintro rfl
        exact hi hk
      exact Or.inr ⟨INDIRECT, hRi, by rw [hslot, if_neg hne]; exact hi, by rw [hslot, if_neg hne]⟩
    · rw [List.mem_cons, List.mem_singleton] at hc
      rcases hc with rfl | rfl
      · exact Or.inr ⟨k, hk', by rw [hslot, if_pos rfl]; exact hb0, by rw [hslot, if_pos rfl, hbnat]⟩
      · exact Or.inl ⟨b, hb, rfl⟩

/-- The slots of the other inodes are as before. -/
theorem Grown.slotAddr_of_ne (h : Grown sb A ip R s t) (hs : Own sb (s.withIp ip A) s) {i : Nat}
    (hi : i ≠ (s.itable ip).inum) (k : Nat) :
    slotAddr t.blocks (A i) k = slotAddr s.blocks (A i) k := by
  have hti : t.withIp ip A i = A i := withIp_of_ne (h.inum ▸ hi)
  refine slotAddr_congr (fun hne => ?_) k
  have hu : Used sb s (A i (Fin.last NDIRECT)).toNat := by
    have hne' : slotAddr s.blocks (s.withIp ip A i) INDIRECT ≠ 0 := by
      rwa [slotAddr_indirect, withIp_of_ne hi]
    have hused := hs.used hne'
    rwa [slotAddr_indirect, withIp_of_ne hi] at hused
  refine h.data _ hu fun j hj => ?_
  have hj' : slotAddr t.blocks (t.withIp ip A i) INDIRECT = slotAddr t.blocks
      (t.withIp ip A (t.itable ip).inum) j := by
    rw [slotAddr_indirect, hti, slotAddr_withIp]
    exact (BitVec.eq_of_toNat_eq hj).symm
  have hne' : slotAddr t.blocks (t.withIp ip A i) INDIRECT ≠ 0 := by
    rwa [slotAddr_indirect, hti]
  exact hi ((h.own.inj hne' hj').1.trans h.inum)

/-- A block that `ip` has got was not used. -/
theorem Grown.unused (h : Grown sb A ip R s t) (hs : Own sb (s.withIp ip A) s) {k : Nat}
    (h0 : s.slot ip k = 0) (h1 : t.slot ip k ≠ 0) : ¬ Used sb s (t.slot ip k).toNat := by
  intro hu
  obtain ⟨⟨i, j⟩, hij⟩ := (hs.owns.used_iff _ h1).1 hu
  have hij' : slotAddr s.blocks (s.withIp ip A i) j = t.slot ip k := hij
  have hkt : slotAddr t.blocks (t.withIp ip A (s.itable ip).inum) k = t.slot ip k := by
    rw [← h.inum, slotAddr_withIp]
  by_cases hi : i = (s.itable ip).inum
  · subst hi
    rw [slotAddr_withIp] at hij'
    have hkeep := h.keep j (hij' ▸ h1)
    have he : (t.slot ip k).toNat = (t.slot ip j).toNat := by rw [hkeep, hij']
    have hjk := h.own.inj_ip h1 he
    rw [hjk, hij'] at h0
    exact h1 h0
  · have hti : t.withIp ip A i = A i := withIp_of_ne (h.inum ▸ hi)
    rw [withIp_of_ne hi, ← h.slotAddr_of_ne hs hi, ← hti] at hij'
    exact hi (h.own.inj (hij' ▸ h1) (hij'.trans hkt.symm)).1

/-! ## `bmap` -/

theorem word_zero (o : Nat) : word (fun _ => 0) o = 0 := by
  show (0#8 ++ 0#8 ++ 0#8 ++ 0#8 : Uint) = 0
  decide

/-- What the code that maps one slot of `ip` has done. -/
structure Mapped (sb : Superblock) (A : Nat → Addrs) (ip : Ip) (R : Nat → Prop) (k : Nat) (addr : Uint)
    (s t : State) : Prop where
  grown : Grown sb A ip R s t
  clean : Clean s t
  slot : t.slot ip k = addr
  full : addr = 0 → Full sb t
  same : s.slot ip k ≠ 0 → t = s
  data : ∀ b, Used sb s b → b ≠ (s.slot ip INDIRECT).toNat → t.blocks b = s.blocks b

theorem slot_setAddr {b : Uint} (k : Fin (NDIRECT + 1)) (j : Nat) (hk : (s.itable ip).addrs k = 0)
    (hzero : s.blocks b.toNat = fun _ => 0) :
    (s.setAddr ip k b).slot ip j = if j = k.val then b else s.slot ip j := by
  unfold State.slot State.setAddr
  rw [setInode_self, setInode_blocks]
  by_cases hj : j < NDIRECT + 1
  · rw [slotAddr_direct _ _ hj, slotAddr_direct _ _ hj]
    simp only [Function.update_apply, Fin.ext_iff]
  · have hjk : j ≠ k.val := fun he => hj (he ▸ k.isLt)
    rw [if_neg hjk]
    by_cases hlast : k = Fin.last NDIRECT
    · subst hlast
      rw [slotAddr_of_no_indirect (a := (s.itable ip).addrs) (by omega) hk]
      unfold slotAddr
      rw [dif_neg hj]
      simp only [Function.update_self]
      rw [hzero, word_zero]
      split <;> rfl
    · unfold slotAddr
      rw [dif_neg hj, dif_neg hj]
      simp only [Function.update_of_ne (Ne.symm hlast)]

theorem allocAddr_spec (hsb : sb.Ordered) (h : Own sb (s.withIp ip A) s) (k : Fin (NDIRECT + 1))
    (hk : R k.val) : ∃ addr t, allocAddr sb ip k s = .ok (addr, t) ∧ Mapped sb A ip R k.val addr s t := by
  have hslot : s.slot ip k.val = (s.itable ip).addrs k := slotAddr_direct _ _ k.isLt
  have hrun : allocAddr sb ip k s = (if (s.itable ip).addrs k ≠ 0 then pure ((s.itable ip).addrs k)
    else do
      let addr ← balloc sb
      (if addr = 0 then pure ⟨⟩ else modify fun s => s.setAddr ip k addr)
      pure addr : K Uint) s := rfl
  rw [hrun]
  by_cases h0 : (s.itable ip).addrs k ≠ 0
  · rw [if_pos h0]
    exact ⟨_, s, rfl, Grown.refl h, Clean.refl s, hslot, fun hz => absurd hz h0, fun _ => rfl,
      fun _ _ _ => rfl⟩
  · rw [if_neg h0]
    have h0' := not_not.1 h0
    rcases balloc_eq sb s with ⟨hfull, hok⟩ | ⟨b, hb, hfree, hok⟩
    · rw [bind_of_ok hok]
      exact ⟨0, s, rfl, Grown.refl h, Clean.refl s, hslot.trans h0', fun _ => hfull, fun _ => rfl,
        fun _ _ _ => rfl⟩
    · have hdata := h.data_of_free hb hfree
      have hbnat := toNat_blockno hb
      have hb0 := blockno_ne_zero hb hdata
      rw [bind_of_ok hok, if_neg hb0]
      have hsl : ∀ j, ((s.taken sb b).setAddr ip k (BitVec.ofNat 32 b)).slot ip j =
          if j = k.val then BitVec.ofNat 32 b else s.slot ip j := by
        intro j
        rw [slot_setAddr (s := s.taken sb b) k j h0' (by rw [hbnat]; exact taken_self b)]
        congr 1
        refine slotAddr_congr (fun hne => ?_) j
        have hs : s.slot ip INDIRECT ≠ 0 := by rwa [State.slot, slotAddr_indirect]
        have hu := h.used_ip hs
        rw [State.slot, slotAddr_indirect] at hu
        exact taken_of_ne hb hu.1 (hu.ne_free hfree)
      refine ⟨_, (s.taken sb b).setAddr ip k (BitVec.ofNat 32 b), rfl, ?_, ?_, ?_, ?_, ?_, ?_⟩
      · refine Grown.of_taken hsb h (k := k.val) [] (hslot.trans h0') hb hfree ?_ rfl rfl rfl hsl
          (fun c => Or.inl rfl) rfl (fun c hc => absurd hc List.not_mem_nil) hk
          fun c hc => absurd hc List.not_mem_nil
        show Function.update s.itable ip _ = _
        rw [State.setAddr, setInode_self]
        rfl
      · intro c hc
        exact taken_clean hc
      · rw [hsl, if_pos rfl]
      · exact fun hz => absurd hz hb0
      · exact fun hne => absurd (hslot.trans h0') hne
      · intro c hc _
        exact taken_of_ne hb hc.1 (hc.ne_free hfree)

theorem slot_last : s.slot ip INDIRECT = (s.itable ip).addrs (Fin.last NDIRECT) :=
  slotAddr_indirect _ _

theorem slot_entry {b : Uint} (hb : s.slot ip INDIRECT = b) (h0 : b ≠ 0) {j : Nat}
    (hj : j < NINDIRECT) : s.slot ip (NDIRECT + 1 + j) = s.entry b j := by
  rw [slot_last] at hb
  subst hb
  exact slotAddr_entry hj h0

theorem slot_setEntry (addr : Uint) {b : Uint} (hb : s.slot ip INDIRECT = b) (h0 : b ≠ 0) {j : Nat}
    (hj : j < NINDIRECT) (k : Nat) :
    (s.setEntry b j addr).slot ip k = if k = NDIRECT + 1 + j then addr else s.slot ip k := by
  rw [slot_last] at hb
  subst hb
  unfold State.slot State.setEntry
  rw [setBlock_itable]
  by_cases hk : k < NDIRECT + 1
  · rw [slotAddr_direct _ _ hk, slotAddr_direct _ _ hk, if_neg (by omega)]
  · by_cases hlt : k < SLOTS
    · have hkj : k = NDIRECT + 1 + (k - (NDIRECT + 1)) := by omega
      have hk' : k - (NDIRECT + 1) < NINDIRECT := by
        unfold SLOTS at hlt
        omega
      rw [hkj, slotAddr_entry hk' h0, slotAddr_entry hk' h0, setBlock_self, word_setEntry]
      by_cases he : k - (NDIRECT + 1) = j
      · rw [if_pos he, if_pos (by omega)]
      · rw [if_neg he, if_neg (by omega)]
    · have hne : k ≠ NDIRECT + 1 + j := by
        unfold SLOTS at hlt
        omega
      unfold slotAddr
      rw [if_neg hne, dif_neg hk, dif_neg hk, if_neg fun h => hlt h.1, if_neg fun h => hlt h.1]

theorem allocEntry_spec (hsb : sb.Ordered) (h : Own sb (s.withIp ip A) s) {b : Uint}
    (hb : s.slot ip INDIRECT = b) (h0 : b ≠ 0) {j : Nat} (hj : j < NINDIRECT)
    (hk : R (NDIRECT + 1 + j)) (hind : R INDIRECT) :
    ∃ addr t, allocEntry sb b j s = .ok (addr, t) ∧
      Mapped sb A ip R (NDIRECT + 1 + j) addr s t := by
  have hslot := slot_entry hb h0 hj
  have hrun : allocEntry sb b j s = (if s.entry b j ≠ 0 then pure (s.entry b j)
    else do
      let addr ← balloc sb
      (if addr = 0 then pure ⟨⟩
      else do
        modify fun s => s.setEntry b j addr
        logWrite b.toNat)
      pure addr : K Uint) s := rfl
  rw [hrun]
  by_cases hent : s.entry b j ≠ 0
  · rw [if_pos hent]
    exact ⟨_, s, rfl, Grown.refl h, Clean.refl s, hslot, fun hz => absurd hz hent, fun _ => rfl,
      fun _ _ _ => rfl⟩
  · rw [if_neg hent]
    have hent' := not_not.1 hent
    rcases balloc_eq sb s with ⟨hfull, hok⟩ | ⟨c, hc, hfree, hok⟩
    · rw [bind_of_ok hok]
      exact ⟨0, s, rfl, Grown.refl h, Clean.refl s, hslot.trans hent', fun _ => hfull, fun _ => rfl,
        fun _ _ _ => rfl⟩
    · have hdata := h.data_of_free hc hfree
      have hcnat := toNat_blockno hc
      have hc0 := blockno_ne_zero hc hdata
      -- the indirect block is in use, so that balloc() took another one
      have hbu : Used sb s b.toNat := by
        rw [← hb] at h0 ⊢
        exact h.used_ip h0
      have hsame : (s.taken sb c).blocks b.toNat = s.blocks b.toNat :=
        taken_of_ne hc hbu.1 (hbu.ne_free hfree)
      rw [bind_of_ok hok, if_neg hc0]
      let t : State := { (s.taken sb c).setEntry b j (BitVec.ofNat 32 c) with
        logged := b.toNat :: (s.taken sb c).logged }
      have hslots : ∀ k, (s.taken sb c).slot ip k = s.slot ip k := by
        have hlast : (s.itable ip).addrs (Fin.last NDIRECT) = b := slot_last.symm.trans hb
        rw [← hlast] at hsame
        exact slotAddr_congr fun _ => hsame
      have hsl : ∀ k, t.slot ip k = if k = NDIRECT + 1 + j then BitVec.ofNat 32 c else s.slot ip k := by
        intro k
        have hset := slot_setEntry (s := s.taken sb c) (BitVec.ofNat 32 c)
          ((hslots INDIRECT).trans hb) h0 hj k
        rw [hslots] at hset
        exact hset
      have hblocks : ∀ d, d ≠ b.toNat → t.blocks d = (s.taken sb c).blocks d := fun d hd =>
        setBlock_of_ne _ hd
      refine ⟨_, t, rfl, ?_, ?_, ?_, ?_, ?_, ?_⟩
      · refine Grown.of_taken hsb h [b.toNat] (hslot.trans hent') hc hfree
          (Function.update_eq_self ip s.itable).symm rfl rfl rfl hsl (fun d => ?_) rfl (fun d hd => ?_)
          hk fun _ _ => hind
        · by_cases hd : d = b.toNat
          · exact Or.inr (List.mem_singleton.2 hd)
          · exact Or.inl (hblocks d hd)
        · rw [hb]
          exact ⟨h0, List.mem_singleton.1 hd⟩
      · intro d hd
        have hdb : d ≠ b.toNat := fun he => hd (he ▸ List.mem_cons_self ..)
        rw [hblocks d hdb]
        exact taken_clean fun hm => hd (List.mem_cons_of_mem _ hm)
      · rw [hsl, if_pos rfl]
      · exact fun hz => absurd hz hc0
      · exact fun hne => absurd (hslot.trans hent') hne
      · intro d hd hne
        rw [hblocks d (hb ▸ hne)]
        exact taken_of_ne hc hd.1 (hd.ne_free hfree)

/-- `bmap` fills the slot of block `bn`, and before it the slot of the indirect block. -/
theorem bmap_spec (hsb : sb.Ordered) (h : Own sb (s.withIp ip A) s) {bn : Nat} (hbn : bn < MAXFILE)
    (hk : R (fileSlot bn)) (hind : NDIRECT ≤ bn → R INDIRECT) :
    ∃ addr t, bmap sb ip bn s = .ok (addr, t) ∧ Mapped sb A ip R (fileSlot bn) addr s t := by
  unfold bmap
  by_cases hdir : bn < NDIRECT
  · rw [dif_pos hdir]
    have hslot : fileSlot bn = bn := if_pos hdir
    rw [hslot] at hk ⊢
    exact allocAddr_spec hsb h ⟨bn, Nat.lt_succ_of_lt hdir⟩ hk
  · have hslot : fileSlot bn = NDIRECT + 1 + (bn - NDIRECT) := by
      rw [fileSlot, if_neg hdir]
      omega
    have hj : bn - NDIRECT < NINDIRECT := by
      have hmax : MAXFILE = NDIRECT + NINDIRECT := rfl
      omega
    have hRi := hind (Nat.not_lt.1 hdir)
    rw [dif_neg hdir, if_pos hj]
    rw [hslot] at hk ⊢
    obtain ⟨b, t, hok, hm⟩ := allocAddr_spec hsb h (Fin.last NDIRECT) hRi
    have hmslot : t.slot ip INDIRECT = b := hm.slot
    rw [bind_of_ok hok]
    by_cases hb : b = 0
    · rw [if_pos hb]
      have hs : s.slot ip INDIRECT = 0 := by
        by_contra hne
        rw [hm.same hne] at hmslot
        exact hne (hmslot.trans hb)
      have hnone : ∀ v : State, v.slot ip INDIRECT = 0 → v.slot ip (NDIRECT + 1 + (bn - NDIRECT)) = 0 :=
        fun v hv => slotAddr_of_no_indirect (Nat.le_add_right _ _) (slot_last.symm.trans hv)
      exact ⟨0, t, rfl, hm.grown, hm.clean, hnone t (hmslot.trans hb), fun _ => hm.full hb,
        fun hne => absurd (hnone s hs) hne, hm.data⟩
    · rw [if_neg hb]
      obtain ⟨addr, u, hok', hm'⟩ := allocEntry_spec hsb hm.grown.own hmslot hb hj hk hRi
      refine ⟨addr, u, hok', hm.grown.trans hm'.grown, ?_, hm'.slot, hm'.full, ?_, ?_⟩
      · exact hm.clean.trans (fun _ => hm'.grown.mem_logged) hm'.clean
      · intro hne
        have hs : s.slot ip INDIRECT ≠ 0 := by
          intro hz
          exact hne (slotAddr_of_no_indirect (Nat.le_add_right _ _) (slot_last.symm.trans hz))
        have hts := hm.same hs
        rw [hm'.same (hts ▸ hne), hts]
      · intro c hc hne
        have hct := Used.mono hm.grown.bits hc
        rw [hm'.data c hct, hm.data c hc hne]
        by_cases hs : s.slot ip INDIRECT = 0
        · rintro rfl
          exact hm.grown.unused h hs (hmslot ▸ hb) hc
        · rw [hm.same hs]
          exact hne

end Xv6.Blocks
