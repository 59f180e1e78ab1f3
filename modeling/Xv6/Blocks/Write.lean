import Xv6.Blocks.Growth

set_option autoImplicit false

/-! # The loop of `writei`

What the loop writes is one stretch of the file, up to the place where the disk is full or the bytes
cannot be fetched. -/

namespace Xv6.Blocks

open Xv6.Lib
open Xv6.Fs (NINODE NFILE NDEV ROOTINO DIRSIZ MAXFILE Ip)

/-- Byte `p` of the file. -/
def State.byteAt (s : State) (ip : Ip) (p : Nat) : Byte :=
  s.blocks (s.slot ip (fileSlot (p / BSIZE))).toNat (p % BSIZE)

/-- The block that byte `p` of the file is in is allocated. -/
def State.Has (s : State) (ip : Ip) (p : Nat) : Prop := s.slot ip (fileSlot (p / BSIZE)) ≠ 0

/-- The slots of the bytes from `off` to `off + n`, and that of the indirect block if these are in it. -/
def touched (off n k : Nat) : Prop :=
  ∃ bn, off / BSIZE ≤ bn ∧ bn * BSIZE < off + n ∧ (k = fileSlot bn ∨ NDIRECT ≤ bn ∧ k = INDIRECT)

/-- The first `tot` bytes of the source are in the file at `off`. -/
structure Wrote (sb : Superblock) (A : Nat → Addrs) (ip : Ip) (src : Source) (off n tot : Nat)
    (s t : State) : Prop where
  grown : Grown sb A ip (touched off n) s t
  clean : Clean s t
  le : tot ≤ n
  written : ∀ p, off ≤ p → p < off + tot → t.Has ip p ∧ src (p - off) = some (t.byteAt ip p)
  kept : ∀ p, s.Has ip p → p < off ∨ off + tot ≤ p → t.byteAt ip p = s.byteAt ip p

/-- `either_copyin` has fetched a part of a chunk; the buffer has changed and is not logged. -/
structure CopyFailed (ip : Ip) (src : Source) (off n : Nat) (s t : State) : Prop where
  has : s.Has ip off
  short : (eitherCopyin src (min n (BSIZE - off % BSIZE))).length < min n (BSIZE - off % BSIZE)
  eq : t = s.setBlock (s.slot ip (fileSlot (off / BSIZE))).toNat
    (put (s.blocks (s.slot ip (fileSlot (off / BSIZE))).toNat) (off % BSIZE)
      (eitherCopyin src (min n (BSIZE - off % BSIZE))))

/-- How the loop ends after `tot` bytes. -/
def Ended (sb : Superblock) (ip : Ip) (src : Source) (off n tot : Nat) (s t : State) : Prop :=
  (t = s ∧ (tot < n → Full sb s ∧ ¬ s.Has ip (off + tot))) ∨ CopyFailed ip (fun k => src (tot + k)) (off + tot) (n - tot) s t

variable {sb : Superblock} {s t u : State} {A : Nat → Addrs} {ip : Ip} {R : Nat → Prop}

theorem length_eitherCopyin_le (src : Source) (len : Nat) : (eitherCopyin src len).length ≤ len := by
  induction len generalizing src with
  | zero => exact Nat.le_refl _
  | succ len ih =>
      rw [eitherCopyin]
      cases src 0 with
      | none => exact Nat.zero_le _
      | some c => exact Nat.succ_le_succ (ih _)

theorem eitherCopyin_getElem (src : Source) {len k : Nat} (hk : k < (eitherCopyin src len).length) :
    src k = some (eitherCopyin src len)[k] := by
  induction len generalizing src k with
  | zero => exact absurd hk (Nat.not_lt_zero k)
  | succ len ih =>
      cases hs : src 0 with
      | none => simp [eitherCopyin, hs] at hk
      | some c =>
          have heq : eitherCopyin src (len + 1) = c :: eitherCopyin (fun k => src (k + 1)) len := by
            rw [eitherCopyin, hs]
          simp only [heq]
          cases k with
          | zero => exact hs
          | succ k =>
              rw [heq, List.length_cons] at hk
              exact ih (fun k => src (k + 1)) (Nat.lt_of_succ_lt_succ hk)

theorem eitherCopyin_short (src : Source) {len : Nat} (h : (eitherCopyin src len).length < len) :
    src (eitherCopyin src len).length = none := by
  induction len generalizing src with
  | zero => exact absurd h (Nat.not_lt_zero _)
  | succ len ih =>
      cases hs : src 0 with
      | none =>
          have heq : eitherCopyin src (len + 1) = [] := by rw [eitherCopyin, hs]
          rw [heq]
          exact hs
      | some c =>
          have heq : eitherCopyin src (len + 1) = c :: eitherCopyin (fun k => src (k + 1)) len := by
            rw [eitherCopyin, hs]
          rw [heq, List.length_cons] at h ⊢
          exact ih (fun k => src (k + 1)) (Nat.lt_of_succ_lt_succ h)

/-- A write to a data block of `ip` changes no slot. -/
theorem slot_put (h : Own sb (s.withIp ip A) s) {k : Nat} (hne : k ≠ INDIRECT)
    (f : Nat → Byte) (j : Nat) : (s.setBlock (s.slot ip k).toNat f).slot ip j = s.slot ip j := by
  refine slotAddr_congr (fun hj => setBlock_of_ne _ fun he => ?_) j
  rw [setBlock_itable, ← slot_last] at hj he
  exact hne (h.inj_ip hj he).symm

/-- A data block of `ip` is written. -/
theorem Grown.of_put (h : Own sb (s.withIp ip A) s) (hsb : sb.Ordered) {k : Nat} (h0 : s.slot ip k ≠ 0)
    (hne : k ≠ INDIRECT) (f : Nat → Byte) (extra : List Nat)
    (hextra : ∀ c ∈ extra, c = (s.slot ip k).toNat) (hR : R k) :
    Grown sb A ip R s { s.setBlock (s.slot ip k).toNat f with logged := extra ++ s.logged } := by
  have hused := h.used_ip h0
  have hmeta : ∀ b, b < sb.dataStart → (s.setBlock (s.slot ip k).toNat f).blocks b = s.blocks b :=
    fun b hb => setBlock_of_ne _ (Nat.ne_of_lt (Nat.lt_of_lt_of_le hb hused.1))
  have hind : ∀ i, (s.withIp ip A i (Fin.last NDIRECT)).toNat ≠ (s.slot ip k).toNat := by
    intro i
    rw [← slotAddr_withIp (A := A)]
    exact h.indirect_ne (by rw [slotAddr_withIp]; exact h0) hne
  have hslot : ∀ j, ({ s.setBlock (s.slot ip k).toNat f with logged := extra ++ s.logged } : State).slot ip j
      = s.slot ip j := slot_put h hne f
  exact
    { table := (Function.update_eq_self ip s.itable).symm
      ftable := rfl
      ofile := rfl
      cwd := rfl
      dinode := fun i hi => dinode_congr sb (hmeta _ (Nat.lt_trans (Superblock.IBLOCK_lt hsb hi)
        (Superblock.bmapstart_lt_dataStart sb)))
      keep := fun j _ => hslot j
      bits := fun b hb hs => (bit_congr sb (hmeta _ (Superblock.BBLOCK_lt hb))).trans hs
      own := h.congr (fun i _ => setBlock_of_ne _ (hind i)) fun b hb =>
        bit_congr sb (hmeta _ (Superblock.BBLOCK_lt hb))
      data := fun b _ hnot => setBlock_of_ne _ fun he => hnot k (by rw [hslot, he])
      fresh := fun j h0' h1 => absurd h0' (hslot j ▸ h1)
      filled := fun j h0' h1 => absurd h0' (hslot j ▸ h1)
      logged := ⟨extra, rfl, fun b hb => Or.inr ⟨k, hR, by rw [hslot]; exact h0, by
        rw [hslot]
        exact (hextra b hb).symm⟩⟩ }

/-- The bytes of a file, one block written. -/
theorem byteAt_put (h : Own sb (s.withIp ip A) s) (off : Nat) {bytes : List Byte}
    (hlen : off % BSIZE + bytes.length ≤ BSIZE) {p : Nat} (hp : s.Has ip p) :
    (s.setBlock (s.slot ip (fileSlot (off / BSIZE))).toNat
      (put (s.blocks (s.slot ip (fileSlot (off / BSIZE))).toNat) (off % BSIZE) bytes)).byteAt ip p =
      if off ≤ p then bytes.getD (p - off) (s.byteAt ip p) else s.byteAt ip p := by
  have hslot := slot_put h (fileSlot_ne_indirect (off / BSIZE))
  have hpd := Nat.div_add_mod p BSIZE
  have hod := Nat.div_add_mod off BSIZE
  unfold State.byteAt
  rw [hslot]
  by_cases hbn : p / BSIZE = off / BSIZE
  · rw [hbn, setBlock_self]
    rw [hbn] at hpd
    unfold put
    by_cases hle : off ≤ p
    · rw [if_pos hle, if_pos (by omega)]
      congr 1
      omega
    · rw [if_neg hle, if_neg (by omega)]
  · have hne : (s.slot ip (fileSlot (p / BSIZE))).toNat ≠ (s.slot ip (fileSlot (off / BSIZE))).toNat :=
      fun he => hbn (fileSlot_inj (h.inj_ip hp he))
    rw [setBlock_of_ne _ hne]
    by_cases hle : off ≤ p
    · have hlt : off / BSIZE < p / BSIZE :=
        Nat.lt_of_le_of_ne (Nat.div_le_div_right hle) (Ne.symm hbn)
      have hmul : (off / BSIZE + 1) * BSIZE ≤ p / BSIZE * BSIZE := Nat.mul_le_mul_right _ hlt
      rw [if_pos hle, List.getD_eq_getElem?_getD, List.getElem?_eq_none (by
        rw [Nat.mul_comm] at hpd hod
        rw [Nat.add_mul] at hmul
        omega), Option.getD_none]
    · rw [if_neg hle]

theorem Wrote.refl (h : Own sb (s.withIp ip A) s) (src : Source) (off n : Nat) :
    Wrote sb A ip src off n 0 s s where
  grown := Grown.refl h
  clean := Clean.refl s
  le := Nat.zero_le n
  written := fun _ hp hlt => absurd hlt (Nat.not_lt.2 hp)
  kept := fun _ _ _ => rfl

/-- Allocating a block changes no byte of the file. -/
theorem Mapped.byteAt {k : Nat} {addr : Uint} (h : Mapped sb A ip R k addr s t)
    (hs : Own sb (s.withIp ip A) s) {p : Nat} (hp : s.Has ip p) :
    t.Has ip p ∧ t.byteAt ip p = s.byteAt ip p := by
  have hkeep := h.grown.keep _ hp
  unfold State.Has State.byteAt
  rw [hkeep]
  refine ⟨hp, ?_⟩
  rw [h.data _ (hs.used_ip hp) fun he => fileSlot_ne_indirect _ (hs.inj_ip hp he)]

theorem chunk_le (off n : Nat) : off % BSIZE + min n (BSIZE - off % BSIZE) ≤ BSIZE := by
  have hmod : off % BSIZE < BSIZE := Nat.mod_lt _ (by decide)
  omega

theorem touched_first (off : Nat) {n : Nat} (hn : n ≠ 0) : touched off n (fileSlot (off / BSIZE)) := by
  have hle := Nat.div_mul_le_self off BSIZE
  exact ⟨_, Nat.le_refl _, by omega, Or.inl rfl⟩

theorem touched_indirect {off n : Nat} (hn : n ≠ 0) (hind : NDIRECT ≤ off / BSIZE) :
    touched off n INDIRECT := by
  have hle := Nat.div_mul_le_self off BSIZE
  exact ⟨_, Nat.le_refl _, by omega, Or.inr ⟨hind, rfl⟩⟩

/-- A whole chunk is fetched, put in its block and logged. -/
theorem wrote_chunk (hsb : sb.Ordered) (h : Own sb (s.withIp ip A) s) {src : Source} {off n : Nat}
    (hn : n ≠ 0) {addr : Uint} (hm : Mapped sb A ip (touched off n) (fileSlot (off / BSIZE)) addr s t)
    (h0 : addr ≠ 0)
    (hlen : (eitherCopyin src (min n (BSIZE - off % BSIZE))).length = min n (BSIZE - off % BSIZE)) :
    Wrote sb A ip src off n (min n (BSIZE - off % BSIZE)) s
      { t.setBlock addr.toNat (put (t.blocks addr.toNat) (off % BSIZE)
          (eitherCopyin src (min n (BSIZE - off % BSIZE)))) with
        logged := addr.toNat :: t.logged } := by
  obtain rfl := hm.slot
  have htouch := touched_first off hn
  have hput := Grown.of_put hm.grown.own hsb h0 (fileSlot_ne_indirect _)
    (put (t.blocks (t.slot ip (fileSlot (off / BSIZE))).toNat) (off % BSIZE)
      (eitherCopyin src (min n (BSIZE - off % BSIZE)))) [_]
    (fun c hc => List.mem_singleton.1 hc) htouch
  have hbytes := fun p (hp : t.Has ip p) =>
    byteAt_put hm.grown.own off (hlen ▸ chunk_le off n) hp
  refine ⟨hm.grown.trans hput, ?_, Nat.min_le_left _ _, fun p hp hlt => ?_, fun p hp hout => ?_⟩
  · refine hm.clean.trans (fun _ => hput.mem_logged) fun b hb => setBlock_of_ne _ ?_
    exact fun he => hb (he ▸ List.mem_cons_self ..)
  · have hbn : p / BSIZE = off / BSIZE := by
      refine Nat.div_eq_of_lt_le ?_ ?_
      · exact Nat.le_trans (Nat.div_mul_le_self off BSIZE) hp
      · have hod := Nat.div_add_mod off BSIZE
        have hle := chunk_le off n
        rw [Nat.mul_comm] at hod
        rw [Nat.add_mul]
        omega
    have hpt : t.Has ip p := by
      unfold State.Has
      rw [hbn]
      exact h0
    have hk : p - off < (eitherCopyin src (min n (BSIZE - off % BSIZE))).length := by omega
    refine ⟨fun hz => hpt (hput.keep _ hpt ▸ hz), ?_⟩
    rw [eitherCopyin_getElem src hk]
    congr 1
    refine Eq.trans ?_ (hbytes p hpt).symm
    rw [if_pos hp, List.getD_eq_getElem?_getD, List.getElem?_eq_getElem hk, Option.getD_some]
  · obtain ⟨hpt, hsame⟩ := hm.byteAt h hp
    rw [← hsame]
    refine (hbytes p hpt).trans ?_
    by_cases hle : off ≤ p
    · rw [if_pos hle, List.getD_eq_getElem?_getD, List.getElem?_eq_none (by omega), Option.getD_none]
    · rw [if_neg hle]

theorem touched_mono {off n m k : Nat} (hm : m ≤ n) (h : touched (off + m) (n - m) k) :
    touched off n k := by
  obtain ⟨bn, hle, hlt, hk⟩ := h
  exact ⟨bn, Nat.le_trans (Nat.div_le_div_right (Nat.le_add_right _ _)) hle, by omega, hk⟩

/-- The slots of `m` blocks, and that of the indirect block. -/
theorem touched_card {off n m : Nat} (hm : off + n ≤ (off / BSIZE + m) * BSIZE) :
    ∃ E : Finset Nat, E.card ≤ m + 1 ∧ ∀ k, touched off n k → k ∈ E := by
  refine ⟨insert INDIRECT ((Finset.range m).image fun j => fileSlot (off / BSIZE + j)), ?_, ?_⟩
  · refine (Finset.card_insert_le _ _).trans (Nat.succ_le_succ (Finset.card_image_le.trans ?_))
    rw [Finset.card_range]
  · rintro k ⟨bn, hle, hlt, rfl | ⟨-, rfl⟩⟩
    · have hbn : bn < off / BSIZE + m := Nat.lt_of_mul_lt_mul_right (Nat.lt_of_lt_of_le hlt hm)
      refine Finset.mem_insert_of_mem (Finset.mem_image.2 ⟨bn - off / BSIZE, Finset.mem_range.2 (by omega), ?_⟩)
      congr 1
      omega
    · exact Finset.mem_insert_self _ _

theorem Wrote.trans {src : Source} {off n m r : Nat} (h : Wrote sb A ip src off n m s t)
    (h' : Wrote sb A ip (fun k => src (m + k)) (off + m) (n - m) r t u) :
    Wrote sb A ip src off n (m + r) s u := by
  have hle := h.le
  have hle' := h'.le
  have hhas : ∀ p, t.Has ip p → u.Has ip p := fun p hp hz => hp (h'.grown.keep _ hp ▸ hz)
  refine
    { grown := h.grown.trans (h'.grown.mono fun k hk => touched_mono hle hk)
      clean := h.clean.trans (fun _ => h'.grown.mem_logged) h'.clean
      le := by omega
      written := fun p hp hlt => ?_
      kept := fun p hp hout => ?_ }
  · by_cases hlow : p < off + m
    · obtain ⟨hpt, hsrc⟩ := h.written p hp hlow
      exact ⟨hhas p hpt, by rw [h'.kept p hpt (Or.inl hlow)]; exact hsrc⟩
    · obtain ⟨hpu, hsrc⟩ := h'.written p (by omega) (by omega)
      refine ⟨hpu, hsrc ▸ ?_⟩
      congr 1
      omega
  · have hpt : t.Has ip p := fun hz => hp (h.grown.keep _ hp ▸ hz)
    rw [h'.kept p hpt (by omega), h.kept p hp (by omega)]

theorem Mapped.wrote {src : Source} {off n k : Nat} {addr : Uint}
    (h : Mapped sb A ip (touched off n) k addr s t) (hs : Own sb (s.withIp ip A) s) :
    Wrote sb A ip src off n 0 s t where
  grown := h.grown
  clean := h.clean
  le := Nat.zero_le n
  written := fun _ hp hlt => absurd hlt (Nat.not_lt.2 hp)
  kept := fun _ hp _ => (h.byteAt hs hp).2

/-- The loop of `writei`. -/
theorem writeiLoop_spec (hsb : sb.Ordered) (src : Source) (off n : Nat)
    (hmax : off + n ≤ MAXFILE * BSIZE) (h : Own sb (s.withIp ip A) s) :
    ∃ tot t u, writeiLoop sb ip src off n s = .ok (tot, u) ∧ Wrote sb A ip src off n tot s t ∧
      Ended sb ip src off n tot t u := by
  induction hlen : n using Nat.strong_induction_on generalizing n src off s with
  | _ k ih =>
      subst hlen
      rw [writeiLoop]
      by_cases h0 : n = 0
      · rw [dif_pos h0]
        exact ⟨0, s, s, rfl, Wrote.refl h src off n, Or.inl ⟨rfl, fun hlt => absurd hlt (by omega)⟩⟩
      · rw [dif_neg h0]
        have hpos := chunk_pos off h0
        have hle : min n (BSIZE - off % BSIZE) ≤ n := Nat.min_le_left _ _
        have hbn : off / BSIZE < MAXFILE := by
          refine Nat.div_lt_of_lt_mul ?_
          rw [Nat.mul_comm]
          omega
        obtain ⟨addr, t, hok, hm⟩ := bmap_spec hsb h hbn (touched_first off h0) (touched_indirect h0)
        rw [bind_of_ok hok]
        by_cases haddr : addr = 0
        · rw [if_pos haddr]
          exact ⟨0, t, t, rfl, hm.wrote h, Or.inl ⟨rfl, fun _ => ⟨hm.full haddr, fun hhas =>
            hhas (hm.slot.trans haddr)⟩⟩⟩
        · rw [if_neg haddr]
          by_cases hshort : (eitherCopyin src (min n (BSIZE - off % BSIZE))).length <
              min n (BSIZE - off % BSIZE)
          · refine ⟨0, t, t.setBlock addr.toNat (put (t.blocks addr.toNat) (off % BSIZE)
              (eitherCopyin src (min n (BSIZE - off % BSIZE)))), ?_, hm.wrote h, Or.inr ?_⟩
            · exact (bind_of_ok (a := ⟨⟩) rfl).trans (congrFun (if_pos hshort) _)
            · obtain rfl := hm.slot
              have hsrc : (fun k => src (0 + k)) = src := funext fun k => by rw [Nat.zero_add]
              rw [hsrc]
              exact ⟨haddr, hshort, rfl⟩
          · have hfull : (eitherCopyin src (min n (BSIZE - off % BSIZE))).length =
                min n (BSIZE - off % BSIZE) :=
              Nat.le_antisymm (length_eitherCopyin_le src _) (Nat.not_lt.1 hshort)
            have hchunk := wrote_chunk hsb h h0 hm haddr hfull
            obtain ⟨r, t', u, hok', hw', hend⟩ := ih (n - min n (BSIZE - off % BSIZE)) (by omega)
              (fun k => src (min n (BSIZE - off % BSIZE) + k)) (off + min n (BSIZE - off % BSIZE)) _
              (by omega) hchunk.grown.own rfl
            refine ⟨min n (BSIZE - off % BSIZE) + r, t', u, ?_, hchunk.trans hw', ?_⟩
            · refine (bind_of_ok (a := ⟨⟩) rfl).trans ?_
              refine (congrFun (if_neg hshort) _).trans ?_
              refine (bind_of_ok (a := ⟨⟩) rfl).trans ?_
              exact (bind_of_ok hok').trans rfl
            · have hsrc : (fun k => src (min n (BSIZE - off % BSIZE) + (r + k))) =
                  fun k => src (min n (BSIZE - off % BSIZE) + r + k) :=
                funext fun k => by rw [Nat.add_assoc]
              rcases hend with ⟨rfl, hf⟩ | hc
              · refine Or.inl ⟨rfl, fun hlt => ?_⟩
                rw [← Nat.add_assoc]
                exact hf (by omega)
              · rw [hsrc, Nat.add_assoc, Nat.sub_sub] at hc
                exact Or.inr hc

end Xv6.Blocks
