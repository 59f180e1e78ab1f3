import Xv6.Blocks.Files

set_option autoImplicit false

/-! # Giving blocks back

`itrunc` clears the bits of the blocks that the inode has, each once. -/

namespace Xv6.Blocks

open Xv6.Lib
open Xv6.Fs (NINODE NFILE NDEV ROOTINO DIRSIZ MAXFILE Ip)

/-- From `s` to `t` the blocks in the slots `D` of `ip` have been given back. -/
structure Freed (sb : Superblock) (ip : Ip) (D : Nat → Prop) (s t : State) : Prop where
  table : t.itable = Function.update s.itable ip { s.itable ip with addrs := (t.itable ip).addrs }
  ftable : t.ftable = s.ftable
  ofile : t.ofile = s.ofile
  cwd : t.cwd = s.cwd
  gone : ∀ k : Fin (NDIRECT + 1), D k.val → (t.itable ip).addrs k = 0
  left : ∀ k : Fin (NDIRECT + 1), ¬ D k.val → (t.itable ip).addrs k = (s.itable ip).addrs k
  bits : ∀ b, t.bit sb b = true ↔ s.bit sb b = true ∧
    ∀ k, D k → s.slot ip k ≠ 0 → (s.slot ip k).toNat ≠ b
  data : ∀ b, sb.dataStart ≤ b ∨ b < sb.bmapstart.toNat → t.blocks b = s.blocks b
  rest : ∀ b k, BSIZE ≤ k → t.blocks b k = s.blocks b k
  logged : ∃ new, t.logged = new ++ s.logged ∧ ∀ b, b ∈ new ↔
    ∃ k, D k ∧ s.slot ip k ≠ 0 ∧ b = sb.BBLOCK (s.slot ip k).toNat

variable {sb : Superblock} {s t u : State} {A : Nat → Addrs} {ip : Ip} {D D' : Nat → Prop}

/-- A block of the inode has its bit in the free map. -/
theorem Owned.bitmap (hs : Owned sb (s.withIp ip A) s) {b : Nat}
    (h : ∃ k, s.slot ip k ≠ 0 ∧ b = sb.BBLOCK (s.slot ip k).toNat) : ∃ c, c < sb.size.toNat ∧ b = sb.BBLOCK c := by
  obtain ⟨k, hk, hb⟩ := h
  exact ⟨_, (hs.used_ip hk).2.1, hb⟩

theorem Freed.refl (s : State) : Freed sb ip (fun _ => False) s s where
  table := (Function.update_eq_self ip s.itable).symm
  ftable := rfl
  ofile := rfl
  cwd := rfl
  gone := fun _ h => h.elim
  left := fun _ _ => rfl
  bits := fun _ => ⟨fun h => ⟨h, fun _ hk => hk.elim⟩, fun h => h.1⟩
  data := fun _ _ => rfl
  rest := fun _ _ _ => rfl
  logged := by
    refine ⟨[], rfl, fun b => iff_of_false List.not_mem_nil ?_⟩
    rintro ⟨k, hk, -⟩
    exact hk

theorem Freed.congr (h : Freed sb ip D s t) (hD : ∀ k, D' k ↔ D k) : Freed sb ip D' s t := by
  obtain rfl : D' = D := funext fun k => propext (hD k)
  exact h

/-- Nothing is in the slots `E`. -/
theorem Freed.empty (h : Freed sb ip D s t) (E : Nat → Prop) (hE : ∀ k, E k → s.slot ip k = 0) :
    Freed sb ip (fun j => D j ∨ E j) s t where
  table := h.table
  ftable := h.ftable
  ofile := h.ofile
  cwd := h.cwd
  gone := by
    intro j hj
    by_cases hD : D j.val
    · exact h.gone j hD
    · rw [h.left j hD, ← slotAddr_direct s.blocks (s.itable ip).addrs j.isLt]
      exact hE _ (hj.resolve_left hD)
  left := fun j hj => h.left j fun hD => hj (Or.inl hD)
  bits := by
    intro b
    rw [h.bits b]
    refine and_congr_right fun _ => ⟨fun hall j hj hne => ?_, fun hall j hj => hall j (Or.inl hj)⟩
    rcases hj with hj | hj
    · exact hall j hj hne
    · exact absurd (hE j hj) hne
  data := h.data
  rest := h.rest
  logged := by
    obtain ⟨new, hnew, hlog⟩ := h.logged
    refine ⟨new, hnew, fun b => (hlog b).trans ⟨?_, ?_⟩⟩
    · rintro ⟨k, hD, hk⟩
      exact ⟨k, .inl hD, hk⟩
    · rintro ⟨k, hD | hEk, hk⟩
      · exact ⟨k, hD, hk⟩
      · exact absurd (hE k hEk) hk.1

/-- `bfree` finds the bit set, and clears it. -/
theorem Freed.bfree (hs : Owned sb (s.withIp ip A) s) (h : Freed sb ip D s t) {k : Nat}
    (hk : s.slot ip k ≠ 0) (hD : ¬ D k) :
    ∃ u, bfree sb (s.slot ip k) t = .ok (⟨⟩, u) ∧ u.itable = t.itable ∧ u.ftable = t.ftable ∧
      u.ofile = t.ofile ∧ u.cwd = t.cwd ∧
      (∀ b, u.bit sb b = true ↔ s.bit sb b = true ∧
        ∀ j, D j ∨ j = k → s.slot ip j ≠ 0 → (s.slot ip j).toNat ≠ b) ∧
      (∀ b, sb.dataStart ≤ b ∨ b < sb.bmapstart.toNat → u.blocks b = s.blocks b) ∧
      (∀ b k, BSIZE ≤ k → u.blocks b k = s.blocks b k) ∧
      ∃ new, u.logged = new ++ s.logged ∧ ∀ b, b ∈ new ↔
        ∃ j, (D j ∨ j = k) ∧ s.slot ip j ≠ 0 ∧ b = sb.BBLOCK (s.slot ip j).toNat := by
  have hused := hs.used_ip hk
  have hset : t.bit sb (s.slot ip k).toNat = true := by
    refine (h.bits _).2 ⟨hused.2.2, fun j hj hne he => ?_⟩
    exact hD (hs.inj_ip hne he ▸ hj)
  have hrun : Blocks.bfree sb (s.slot ip k) t = .ok (⟨⟩,
      { t.setBit sb (s.slot ip k).toNat false with
        logged := sb.BBLOCK (s.slot ip k).toNat :: t.logged }) := by
    refine (bind_of_ok (a := t) rfl).trans ((congrFun (if_neg ?_) t).trans rfl)
    rw [hset]
    exact Bool.true_eq_false.mp ∘ fun h => h
  have hbit : ∀ b, ({ t.setBit sb (s.slot ip k).toNat false with
      logged := sb.BBLOCK (s.slot ip k).toNat :: t.logged } : State).bit sb b =
      if b = (s.slot ip k).toNat then false else t.bit sb b := fun b => bit_setBit _ b false
  obtain ⟨new, hnew, hlog⟩ := h.logged
  refine ⟨_, hrun, rfl, rfl, rfl, rfl, fun b => ?_, fun b hb => ?_, fun b k hk => ?_,
    sb.BBLOCK (s.slot ip k).toNat :: new, by rw [hnew]; rfl, fun b => ?_⟩
  · rw [hbit]
    by_cases he : b = (s.slot ip k).toNat
    · rw [if_pos he]
      refine iff_of_false Bool.false_ne_true fun hc => ?_
      exact hc.2 k (Or.inr rfl) hk he.symm
    · rw [if_neg he, h.bits b]
      refine and_congr_right fun _ => ⟨fun hall j hj hne => ?_, fun hall j hj => hall j (Or.inl hj)⟩
      rcases hj with hj | rfl
      · exact hall j hj hne
      · exact fun hc => he hc.symm
  · refine (setBit_of_ne _ ?_).trans (h.data b hb)
    rcases hb with hb | hb
    · exact (Superblock.BBLOCK_ne_data hused.2.1 hb).symm
    · exact Nat.ne_of_lt (Nat.lt_of_lt_of_le hb (Superblock.bmapstart_le_BBLOCK _))
  · exact (setBit_rest hk).trans (h.rest b k hk)
  · rw [List.mem_cons, hlog]
    constructor
    · rintro (rfl | ⟨j, hj, hne⟩)
      · exact ⟨k, .inr rfl, hk, rfl⟩
      · exact ⟨j, .inl hj, hne⟩
    · rintro ⟨j, hj | rfl, hne⟩
      · exact .inr ⟨j, hj, hne⟩
      · exact .inl hne.2

/-- One direct block. -/
theorem freeDirect_spec (hs : Owned sb (s.withIp ip A) s) (h : Freed sb ip D s t)
    (k : Fin NDIRECT) (hD : ¬ D k.val) :
    ∃ u, freeDirect sb ip k t = .ok (⟨⟩, u) ∧ Freed sb ip (fun j => D j ∨ j = k.val) s u := by
  have hslot : s.slot ip k.val = (s.itable ip).addrs k.castSucc := slotAddr_direct _ _ k.castSucc.isLt
  have hleft : (t.itable ip).addrs k.castSucc = s.slot ip k.val := (h.left k.castSucc hD).trans hslot.symm
  have hrun : freeDirect sb ip k t = (if (t.itable ip).addrs k.castSucc = 0 then pure ⟨⟩
    else do
      bfree sb ((t.itable ip).addrs k.castSucc)
      modify fun s => s.setAddr ip k.castSucc 0 : K PUnit) t := rfl
  rw [hrun, hleft]
  by_cases h0 : s.slot ip k.val = 0
  · rw [if_pos h0]
    exact ⟨t, rfl, h.empty (fun j => j = _) fun j hj => hj ▸ h0⟩
  · rw [if_neg h0]
    obtain ⟨u, hok, hit, hft, hof, hcwd, hbits, hdata, hrest, hlog⟩ := h.bfree hs h0 hD
    refine ⟨u.setAddr ip k.castSucc 0, (bind_of_ok hok).trans rfl, ?_⟩
    have haddrs : ∀ j, ((u.setAddr ip k.castSucc 0).itable ip).addrs j =
        if j = k.castSucc then 0 else (t.itable ip).addrs j := by
      intro j
      unfold State.setAddr
      rw [setInode_self, hit]
      exact Function.update_apply ..
    refine ⟨?_, hft.trans h.ftable, hof.trans h.ofile, hcwd.trans h.cwd, fun j hj => ?_,
      fun j hj => ?_, hbits, hdata, hrest, hlog⟩
    · unfold State.setAddr
      rw [setInode_self]
      show Function.update u.itable ip _ = _
      rw [hit, h.table, Function.update_idem, Function.update_self]
    · rw [haddrs]
      by_cases he : j = k.castSucc
      · rw [if_pos he]
      · rw [if_neg he]
        refine h.gone j (hj.resolve_right fun hv => he (Fin.ext hv))
    · rw [haddrs, if_neg fun he => hj (Or.inr (by rw [he]; rfl))]
      exact h.left j fun hv => hj (Or.inl hv)

theorem freeDirect_loop (hs : Owned sb (s.withIp ip A) s) (l : List (Fin NDIRECT))
    (hl : l.Nodup) (h : Freed sb ip D s t) (hD : ∀ k ∈ l, ¬ D k.val) :
    ∃ u, l.forM (freeDirect sb ip) t = .ok (⟨⟩, u) ∧
      Freed sb ip (fun j => D j ∨ ∃ k ∈ l, j = k.val) s u := by
  induction l generalizing D t with
  | nil => exact ⟨t, rfl, h.congr fun k => by simp⟩
  | cons k l ih =>
      obtain ⟨hk, hl⟩ := List.nodup_cons.1 hl
      obtain ⟨u, hok, hu⟩ := freeDirect_spec hs h k (hD k (List.mem_cons_self ..))
      obtain ⟨v, hok', hv⟩ := ih hl hu fun j hj hc => by
        rcases hc with hc | hc
        · exact hD j (List.mem_cons_of_mem _ hj) hc
        · exact hk (Fin.ext hc ▸ hj)
      refine ⟨v, (bind_of_ok hok).trans hok', hv.congr fun j => ?_⟩
      simp only [List.mem_cons, exists_eq_or_imp, or_assoc]

/-- One entry of the indirect block. -/
theorem freeEntry_spec (hs : Owned sb (s.withIp ip A) s) (h : Freed sb ip D s t)
    (hind : s.slot ip INDIRECT ≠ 0) {j : Nat} (hj : j < NINDIRECT) (hD : ¬ D (NDIRECT + 1 + j)) :
    ∃ u, freeEntry sb (s.slot ip INDIRECT) j t = .ok (⟨⟩, u) ∧
      Freed sb ip (fun i => D i ∨ i = NDIRECT + 1 + j) s u := by
  have hent : t.entry (s.slot ip INDIRECT) j = s.slot ip (NDIRECT + 1 + j) := by
    rw [slot_entry rfl hind hj]
    unfold State.entry
    rw [h.data _ (.inl (hs.used_ip hind).1)]
  have hrun : freeEntry sb (s.slot ip INDIRECT) j t = (if t.entry (s.slot ip INDIRECT) j = 0 then pure ⟨⟩
    else bfree sb (t.entry (s.slot ip INDIRECT) j) : K PUnit) t := rfl
  rw [hrun, hent]
  by_cases h0 : s.slot ip (NDIRECT + 1 + j) = 0
  · rw [if_pos h0]
    exact ⟨t, rfl, h.empty (fun j => j = _) fun j hj => hj ▸ h0⟩
  · rw [if_neg h0]
    obtain ⟨u, hok, hit, hft, hof, hcwd, hbits, hdata, hrest, hlog⟩ := h.bfree hs h0 hD
    refine ⟨u, hok, ?_, hft.trans h.ftable, hof.trans h.ofile, hcwd.trans h.cwd, fun k hk => ?_,
      fun k hk => ?_, hbits, hdata, hrest, hlog⟩
    · rw [hit]
      exact h.table
    · rw [hit]
      exact h.gone k (hk.resolve_right (by have := k.isLt; omega))
    · rw [hit]
      exact h.left k fun hv => hk (Or.inl hv)

theorem freeEntry_loop (hs : Owned sb (s.withIp ip A) s) (hind : s.slot ip INDIRECT ≠ 0)
    (l : List Nat) (hl : l.Nodup) (hlt : ∀ j ∈ l, j < NINDIRECT) (h : Freed sb ip D s t)
    (hD : ∀ j ∈ l, ¬ D (NDIRECT + 1 + j)) :
    ∃ u, l.forM (freeEntry sb (s.slot ip INDIRECT)) t = .ok (⟨⟩, u) ∧
      Freed sb ip (fun i => D i ∨ ∃ j ∈ l, i = NDIRECT + 1 + j) s u := by
  induction l generalizing D t with
  | nil => exact ⟨t, rfl, h.congr fun k => by simp⟩
  | cons j l ih =>
      obtain ⟨hj, hl⟩ := List.nodup_cons.1 hl
      obtain ⟨u, hok, hu⟩ := freeEntry_spec hs h hind (hlt j (List.mem_cons_self ..))
        (hD j (List.mem_cons_self ..))
      obtain ⟨v, hok', hv⟩ := ih hl (fun i hi => hlt i (List.mem_cons_of_mem _ hi)) hu fun i hi hc => by
        rcases hc with hc | hc
        · exact hD i (List.mem_cons_of_mem _ hi) hc
        · have hij : i = j := by omega
          exact hj (hij ▸ hi)
      refine ⟨v, (bind_of_ok hok).trans hok', hv.congr fun i => ?_⟩
      simp only [List.mem_cons, exists_eq_or_imp, or_assoc]

theorem freeIndirect_spec (hs : Owned sb (s.withIp ip A) s)
    (h : Freed sb ip (fun k => k < NDIRECT) s t) :
    ∃ u, freeIndirect sb ip t = .ok (⟨⟩, u) ∧ Freed sb ip (fun _ => True) s u := by
  have hleft : (t.itable ip).addrs (Fin.last NDIRECT) = s.slot ip INDIRECT :=
    (h.left (Fin.last NDIRECT) (Nat.lt_irrefl _)).trans slot_last.symm
  have hrun : freeIndirect sb ip t = (if (t.itable ip).addrs (Fin.last NDIRECT) = 0 then pure ⟨⟩
    else do
      (List.range NINDIRECT).forM (freeEntry sb ((t.itable ip).addrs (Fin.last NDIRECT)))
      bfree sb ((t.itable ip).addrs (Fin.last NDIRECT))
      modify fun s => s.setAddr ip (Fin.last NDIRECT) 0 : K PUnit) t := rfl
  rw [hrun, hleft]
  by_cases h0 : s.slot ip INDIRECT = 0
  · rw [if_pos h0]
    refine ⟨t, rfl, (h.empty (fun k => ¬ k < NDIRECT) fun k hk => ?_).congr fun k => ?_⟩
    · by_cases he : k = INDIRECT
      · rw [he, h0]
      · refine slotAddr_of_no_indirect ?_ (slot_last.symm.trans h0)
        unfold INDIRECT at he
        omega
    · exact ⟨fun _ => em _, fun _ => trivial⟩
  · rw [if_neg h0]
    obtain ⟨u, hok, hu⟩ := freeEntry_loop hs h0 (List.range NINDIRECT) List.nodup_range
      (fun j hj => List.mem_range.1 hj) h fun j _ hc => by omega
    -- the indirect block is not one of those freed already
    have hind : ¬ (INDIRECT < NDIRECT ∨ ∃ j ∈ List.range NINDIRECT, INDIRECT = NDIRECT + 1 + j) := by
      rintro (hc | ⟨j, -, hc⟩)
      · exact Nat.lt_irrefl _ hc
      · unfold INDIRECT at hc
        omega
    obtain ⟨v, hok', hit, hft, hof, hcwd, hbits, hdata, hrest, hlog⟩ := hu.bfree hs h0 hind
    refine ⟨v.setAddr ip (Fin.last NDIRECT) 0, (bind_of_ok hok).trans ((bind_of_ok hok').trans rfl), ?_⟩
    have haddrs : ∀ j, ((v.setAddr ip (Fin.last NDIRECT) 0).itable ip).addrs j =
        if j = Fin.last NDIRECT then 0 else (u.itable ip).addrs j := by
      intro j
      unfold State.setAddr
      rw [setInode_self, hit]
      exact Function.update_apply ..
    have hfreed : Freed sb ip (fun k => (k < NDIRECT ∨ ∃ j ∈ List.range NINDIRECT, k = NDIRECT + 1 + j) ∨
        k = INDIRECT) s (v.setAddr ip (Fin.last NDIRECT) 0) := by
      refine ⟨?_, hft.trans hu.ftable, hof.trans hu.ofile, hcwd.trans hu.cwd, fun j hj => ?_,
        fun j hj => ?_, hbits, hdata, hrest, hlog⟩
      · unfold State.setAddr
        rw [setInode_self]
        show Function.update v.itable ip _ = _
        rw [hit, hu.table, Function.update_idem, Function.update_self]
      · rw [haddrs]
        by_cases he : j = Fin.last NDIRECT
        · rw [if_pos he]
        · rw [if_neg he]
          exact hu.gone j (hj.resolve_right fun hv => he (Fin.ext hv))
      · rw [haddrs, if_neg fun he => hj (Or.inr (by rw [he]; rfl))]
        exact hu.left j fun hv => hj (Or.inl hv)
    -- past the last slot there is nothing to free
    refine (hfreed.empty (fun k => ¬ k < SLOTS) fun k hk => ?_).congr fun k => ?_
    · unfold SLOTS at hk
      unfold State.slot slotAddr
      rw [dif_neg (by omega), if_neg fun hc => hk hc.1]
    · refine ⟨fun _ => ?_, fun _ => trivial⟩
      unfold SLOTS
      by_cases hk : k < NDIRECT + 1 + NINDIRECT
      · left
        by_cases he : k = INDIRECT
        · exact Or.inr he
        · left
          unfold INDIRECT at he
          by_cases hd : k < NDIRECT
          · exact Or.inl hd
          · exact Or.inr ⟨k - (NDIRECT + 1), List.mem_range.2 (by omega), by omega⟩
      · exact Or.inr hk

/-- From `s` to `t` the inode `ip` has been emptied. -/
structure Emptied (sb : Superblock) (A : Nat → Addrs) (ip : Ip) (s t : State) : Prop where
  table : t.itable = Function.update s.itable ip { s.itable ip with
    size := 0
    addrs := fun _ => 0 }
  ftable : t.ftable = s.ftable
  ofile : t.ofile = s.ofile
  cwd : t.cwd = s.cwd
  own : Owned sb (t.withIp ip A) t
  bits : ∀ b, t.bit sb b = true ↔ s.bit sb b = true ∧
    ∀ k, s.slot ip k ≠ 0 → (s.slot ip k).toNat ≠ b
  data : ∀ b, sb.dataStart ≤ b ∨ b < sb.bmapstart.toNat → t.blocks b = s.blocks b
  rest : ∀ b k, BSIZE ≤ k → t.blocks b k = s.blocks b k
  logged : ∃ new, t.logged = new ++ s.logged ∧ ∀ b, b ∈ new ↔
    ∃ k, s.slot ip k ≠ 0 ∧ b = sb.BBLOCK (s.slot ip k).toNat

/-- The blocks in the slots of the other inodes are for data. -/
theorem Owned.data_of_ne (hs : Owned sb (s.withIp ip A) s) {i : Nat} (hi : i ≠ (s.itable ip).inum) {k : Nat}
    (hk : slotAddr s.blocks (A i) k ≠ 0) : sb.dataStart ≤ (slotAddr s.blocks (A i) k).toNat := by
  rw [← withIp_of_ne (s := s) (A := A) hi] at hk ⊢
  exact (hs.used hk).1

/-- The slots of the other inodes are what they were. -/
theorem Owned.slots_of_data (hs : Owned sb (s.withIp ip A) s)
    (hdata : ∀ b, sb.dataStart ≤ b ∨ b < sb.bmapstart.toNat → t.blocks b = s.blocks b) {i : Nat}
    (hi : i ≠ (s.itable ip).inum) (k : Nat) :
    slotAddr t.blocks (A i) k = slotAddr s.blocks (A i) k := by
  refine slotAddr_congr (fun hne => hdata _ (.inl ?_)) k
  rw [← slotAddr_indirect s.blocks (A i)] at hne ⊢
  exact hs.data_of_ne hi hne

theorem Freed.emptied (hs : Owned sb (s.withIp ip A) s) (h : Freed sb ip (fun _ => True) s u) :
    Emptied sb A ip s (u.setInode ip { u.itable ip with size := 0 }) := by
  have haddrs : (u.itable ip).addrs = fun _ => 0 := funext fun k => h.gone k trivial
  have htable : (u.setInode ip { u.itable ip with size := 0 }).itable =
      Function.update s.itable ip { s.itable ip with
        size := 0
        addrs := fun _ => 0 } := by
    show Function.update u.itable ip _ = _
    rw [h.table, Function.update_idem, Function.update_self, haddrs]
  have hnum : ((u.setInode ip { u.itable ip with size := 0 }).itable ip).inum = (s.itable ip).inum := by
    rw [htable, Function.update_self]
  have hwith : (u.setInode ip { u.itable ip with size := 0 }).withIp ip A =
      Function.update A (s.itable ip).inum fun _ => 0 := by
    unfold State.withIp
    rw [hnum, htable, Function.update_self]
  obtain ⟨new, hnew, hlog⟩ := h.logged
  refine ⟨htable, h.ftable, h.ofile, h.cwd, ⟨?_⟩, fun b => ?_, h.data, h.rest, new, hnew, fun b => (hlog b).trans ?_⟩
  · rw [hwith]
    refine hs.owns.give (fun p => p.1 = (s.itable ip).inum) (fun p hp => ?_) (fun p hp => ?_)
      fun c hc => ?_
    · rw [hp, Function.update_self]
      exact slotAddr_zero _ _
    · rw [Function.update_of_ne hp, withIp_of_ne hp]
      exact hs.slots_of_data h.data hp p.2
    · show Used sb u c.toNat ↔ _
      constructor
      · rintro ⟨h1, h2, h3⟩
        obtain ⟨hbit, hnot⟩ := (h.bits _).1 h3
        refine ⟨⟨h1, h2, hbit⟩, fun p hp he => ?_⟩
        rw [hp, slotAddr_withIp] at he
        exact hnot p.2 trivial (he ▸ hc) (by rw [he])
      · rintro ⟨⟨h1, h2, h3⟩, hnot⟩
        refine ⟨h1, h2, (h.bits _).2 ⟨h3, fun k _ _ he => ?_⟩⟩
        refine hnot ((s.itable ip).inum, k) rfl ?_
        rw [slotAddr_withIp]
        exact BitVec.eq_of_toNat_eq he
  · exact (h.bits b).trans (and_congr_right fun _ => ⟨fun hall k => hall k trivial, fun hall k _ => hall k⟩)
  · exact exists_congr fun k => and_iff_right trivial

theorem Emptied.dinode (hsb : sb.Ordered) (h : Emptied sb A ip s t) {i : Nat} (hi : i < sb.ninodes.toNat) :
    t.dinode sb i = s.dinode sb i := dinode_congr sb (h.data _ (.inr (Superblock.IBLOCK_lt hsb hi)))

theorem Emptied.local (hsb : sb.Ordered) (hs : Own sb (s.withIp ip A) s) (h : Emptied sb A ip s t) :
    Local sb A ip s t := by
  refine ⟨?_, fun i hi => h.dinode hsb hi, ⟨h.own, fun b hb hlt => ?_⟩,
    fun i hi => hs.slots_of_data h.data hi, fun i hi k hk => h.data _ (.inl (hs.data_of_ne hi hk))⟩
  · rw [h.table, Function.update_self]
  · refine (h.bits b).2 ⟨hs.boot b hb hlt, fun k hne he => ?_⟩
    have hdata := (hs.used_ip hne).1
    omega

/-- `itrunc` up to its `iupdate`. -/
theorem itrunc_run (hs : Owned sb (s.withIp ip A) s) :
    ∃ t, itrunc sb ip s = .ok (⟨⟩, t.updated sb ip) ∧ Emptied sb A ip s t := by
  obtain ⟨t, hok, ht⟩ := freeDirect_loop hs (List.finRange NDIRECT) (List.nodup_finRange _)
    (Freed.refl s) fun _ _ hc => hc
  have ht' : Freed sb ip (fun k => k < NDIRECT) s t := ht.congr fun k =>
    ⟨fun hk => Or.inr ⟨⟨k, hk⟩, List.mem_finRange _, rfl⟩, fun hk => by
      rcases hk with hk | ⟨j, -, rfl⟩
      · exact hk.elim
      · exact j.isLt⟩
  obtain ⟨u, hok', hu⟩ := freeIndirect_spec hs ht'
  exact ⟨_, (bind_of_ok hok).trans ((bind_of_ok hok').trans rfl), hu.emptied hs⟩

/-- What `itrunc` has done. -/
structure Truncated (sb : Superblock) (ip : Ip) (s t : State) : Prop where
  wf : t.Wf sb
  table : t.itable = Function.update s.itable ip { s.itable ip with
    size := 0
    addrs := fun _ => 0 }
  ftable : t.ftable = s.ftable
  ofile : t.ofile = s.ofile
  cwd : t.cwd = s.cwd
  dinode : ∀ i, sb.Inum i → i ≠ (s.itable ip).inum → t.dinode sb i = s.dinode sb i
  others : ∀ i, sb.Inum i → (s.dinode sb i).type ≠ 0 → i ≠ (s.itable ip).inum →
    t.content sb i = s.content sb i
  content : t.content sb (s.itable ip).inum = []
  logged : ∃ new, t.logged = new ++ s.logged ∧ ∀ b ∈ new,
    (∃ c, c < sb.size.toNat ∧ b = sb.BBLOCK c) ∨ b = sb.IBLOCK (s.itable ip).inum

theorem whole_empty (blocks : Nat → Nat → Byte) {d : Dinode} (h : d.size = 0) : Whole blocks d := by
  have h0 : d.size.toNat = 0 := by rw [h]; rfl
  exact ⟨by rw [h0]; exact Nat.zero_le _, fun p hp => absurd hp (by rw [h0]; exact Nat.not_lt_zero p)⟩

theorem itrunc_spec (hsb : sb.Ordered) (h : s.Wf sb) (hip : s.InCore ip) :
    ∃ t, itrunc sb ip s = .ok (⟨⟩, t) ∧ Truncated sb ip s t := by
  obtain ⟨t, hok, he⟩ := itrunc_run (h.own_ip hip).toOwned
  have hlocal := he.local hsb (h.own_ip hip)
  have hti : t.itable ip = { s.itable ip with
      size := 0
      addrs := fun _ => 0 } := by rw [he.table, Function.update_self]
  have htype : (t.itable ip).type ≠ 0 := by
    rw [hti]
    exact (h.synced ip hip.1 hip.2).2
  have hnum : (t.itable ip).inum = (s.itable ip).inum := hlocal.inum
  obtain ⟨new, hnew, hlog⟩ := he.logged
  refine ⟨_, hok,
    { wf := Local.wf hsb h hip hlocal rfl (Function.update_eq_self ip t.itable).symm hnum
        (fun _ => ⟨rfl, htype⟩) (fun _ => whole_empty _ (by rw [hti])) fun h0 => absurd h0 htype
      table := he.table
      ftable := he.ftable
      ofile := he.ofile
      cwd := he.cwd
      dinode := fun i hi hne => ?_
      others := fun i hi hne hin => (Local.content hsb h hip hlocal rfl hi hne hin).2
      content := ?_
      logged := ⟨sb.IBLOCK (t.itable ip).inum :: new, by rw [List.cons_append, ← hnew]; rfl,
        fun b hb => ?_⟩ }⟩
  · rw [updated_dinode, hnum, if_neg hne, hlocal.dinode i hi.2]
  · unfold State.content bytesOf
    rw [updated_dinode, if_pos hnum.symm, hti]
    rfl
  · rcases List.mem_cons.1 hb with rfl | hb
    · exact Or.inr (by rw [hnum])
    · exact Or.inl ((h.own_ip hip).toOwned.bitmap ((hlog b).1 hb))

/-- The last reference to an inode without links: `itrunc`, and then the type of the inode is set to 0, in
    memory and on disk. -/
theorem iput_frees (href : (s.itable ip).ref = 1) (hvalid : (s.itable ip).valid = true) (hlink : (s.itable ip).nlink = 0)
    (hfree : (s.itable ip).locked = false) (hs : Owned sb (s.withIp ip A) s) :
    ∃ u v, Emptied sb A ip (s.setInode ip { s.itable ip with locked := true }) u ∧
      v = (u.updated sb ip).setInode ip { u.itable ip with type := 0 } ∧
      iput sb ip s = .ok (⟨⟩, (v.updated sb ip).setInode ip { v.itable ip with
        ref := 0
        locked := false
        valid := false }) := by
  obtain ⟨s₁, hs₁⟩ : ∃ s₁, s.setInode ip { s.itable ip with locked := true } = s₁ := ⟨_, rfl⟩
  have hown : Owned sb (s₁.withIp ip A) s₁ := by
    have haddrs : s₁.withIp ip A = s.withIp ip A := by
      unfold State.withIp
      rw [← hs₁, setInode_self]
    rw [haddrs, ← hs₁]
    exact hs.congr (fun _ _ => rfl) fun _ _ => rfl
  obtain ⟨u, hok, he⟩ := itrunc_run hown
  have hacq := acquiresleep_eq s ip hfree
  rw [hs₁] at hacq
  obtain ⟨v, hv⟩ : ∃ v, v = (u.updated sb ip).setInode ip { u.itable ip with type := 0 } := ⟨_, rfl⟩
  have href' : (v.itable ip).ref = 1 := by
    rw [hv, setInode_self, he.table, Function.update_self, ← hs₁, setInode_self]
    exact href
  refine ⟨u, v, hs₁ ▸ he, hv, ?_⟩
  unfold iput
  refine (bind_of_ok (a := s) (t := s) rfl).trans ?_
  simp only
  rw [if_pos ⟨href, hvalid, hlink⟩]
  refine (bind_of_ok (a := ⟨⟩) (t := (v.updated sb ip).setInode ip { v.itable ip with
    locked := false
    valid := false }) ?_).trans ?_
  · refine (bind_of_ok hacq).trans ((bind_of_ok hok).trans ?_)
    refine (bind_of_ok (a := ⟨⟩) (t := v) (by rw [hv]; rfl)).trans ((bind_of_ok (iupdate_eq v)).trans ?_)
    refine (bind_of_ok (a := ⟨⟩) (t := (v.updated sb ip).setInode ip { v.itable ip with
      valid := false }) rfl).trans ?_
    show Except.ok (PUnit.unit, ((v.updated sb ip).setInode ip _).setInode ip _) = _
    rw [setInode_self, setInode_setInode]
  · show Except.ok (PUnit.unit, ((v.updated sb ip).setInode ip _).setInode ip _) = _
    rw [setInode_self, setInode_setInode, href']

end Xv6.Blocks
