import Xv6.Blocks.Write
import Xv6.Blocks.Wf

set_option autoImplicit false

/-! # Reading and writing files

`readi` returns a part of the content, and `writei` replaces a part of it. -/

namespace Xv6.Blocks

open Xv6.Lib
open Xv6.Fs (NINODE NFILE NDEV ROOTINO DIRSIZ MAXFILE Ip)

variable {sb : Superblock} {s t u : State} {A : Nat → Addrs} {ip : Ip}

/-! ## `readi` -/

theorem eitherCopyout_eq {dst : Dest} {bytes : List Byte} (h : ∀ k, k < bytes.length → dst k = true) :
    eitherCopyout dst bytes = bytes := by
  induction bytes generalizing dst with
  | nil => rfl
  | cons c bytes ih =>
      have h0 : dst 0 = true := h 0 (Nat.succ_pos _)
      rw [eitherCopyout, if_pos h0, ih fun k hk => h (k + 1) (Nat.succ_lt_succ hk)]

/-- Where the blocks are there, the loop of `readi` changes nothing, and what it reads is the file. -/
theorem readiLoop_spec (hsb : sb.Ordered) (h : Own sb (s.withIp ip A) s) (dst : Dest) (off n : Nat)
    (hmax : off + n ≤ MAXFILE * BSIZE) (hhas : ∀ p, off ≤ p → p < off + n → s.Has ip p) :
    ∃ r, readiLoop sb ip dst off n s = .ok (r, s) ∧ ((∀ k, k < n → dst k = true) →
      r = ((n : Int), (List.range n).map fun k => s.byteAt ip (off + k))) := by
  induction hlen : n using Nat.strong_induction_on generalizing n dst off with
  | _ k ih =>
      subst hlen
      rw [readiLoop]
      by_cases h0 : n = 0
      · rw [dif_pos h0]
        exact ⟨_, rfl, fun _ => by rw [h0]; rfl⟩
      · rw [dif_neg h0]
        have hpos := chunk_pos off h0
        have hle : min n (BSIZE - off % BSIZE) ≤ n := Nat.min_le_left _ _
        have hbn : off / BSIZE < MAXFILE := by
          refine Nat.div_lt_of_lt_mul ?_
          rw [Nat.mul_comm]
          omega
        have hoff : s.Has ip off := hhas off (Nat.le_refl _) (by omega)
        obtain ⟨addr, t, hok, hm⟩ := bmap_spec (R := fun _ => True) hsb h hbn trivial fun _ => trivial
        -- the block is there: bmap() finds it and changes nothing
        obtain rfl := hm.same hoff
        obtain rfl := hm.slot
        rw [bind_of_ok hok, if_neg hoff, bind_of_ok (a := t) rfl]
        let m := min n (BSIZE - off % BSIZE)
        let bytes := (List.range m).map fun k =>
          t.blocks (t.slot ip (fileSlot (off / BSIZE))).toNat (off % BSIZE + k)
        have hblock : bytes = (List.range m).map fun k => t.byteAt ip (off + k) := by
          refine List.map_congr_left fun k hk => ?_
          have hkm := List.mem_range.1 hk
          have hod := Nat.div_add_mod off BSIZE
          have hcl := chunk_le off n
          have hdiv : (off + k) / BSIZE = off / BSIZE := by
            refine Nat.div_eq_of_lt_le ?_ ?_
            · rw [Nat.mul_comm]
              omega
            · rw [Nat.add_mul, Nat.mul_comm]
              omega
          have hmod := Nat.div_add_mod (off + k) BSIZE
          rw [hdiv] at hmod
          unfold State.byteAt
          rw [hdiv, show (off + k) % BSIZE = off % BSIZE + k by omega]
        have hblen : bytes.length = m := by
          rw [hblock, List.length_map, List.length_range]
        have hcopy : (∀ k, k < n → dst k = true) → eitherCopyout dst bytes = bytes := fun hdst =>
          eitherCopyout_eq fun k hk => hdst k (by omega)
        by_cases hshort : (eitherCopyout dst bytes).length < m
        · refine ⟨_, congrFun (if_pos hshort) _, fun hdst => ?_⟩
          rw [hcopy hdst, hblen] at hshort
          exact absurd hshort (Nat.lt_irrefl _)
        · obtain ⟨r, hr, hres⟩ := ih (n - m) (by omega) (fun k => dst (m + k)) (off + m) (n - m)
            (by omega) (fun p hp hlt => hhas p (by omega) (by omega)) rfl
          refine ⟨_, (congrFun (if_neg hshort) _).trans ((bind_of_ok hr).trans rfl), fun hdst => ?_⟩
          rw [hres fun k hk => hdst (m + k) (by omega)]
          -- the bytes of this block, then those of the rest
          have hsplit : (List.range n).map (fun k => t.byteAt ip (off + k)) = bytes ++
              (List.range (n - m)).map fun k => t.byteAt ip (off + m + k) := by
            have hn : n = m + (n - m) := by omega
            conv => lhs; rw [hn, List.range_add, List.map_append, List.map_map]
            rw [hblock]
            congr 1
            refine List.map_congr_left fun k _ => ?_
            rw [Function.comp_apply, Nat.add_assoc]
          rw [hsplit]
          refine Prod.ext ?_ (congrArg (fun l => l ++ _) (hcopy hdst))
          show (if ((n - m : Nat) : Int) = -1 then -1 else (m : Int) + (n - m : Nat)) = n
          rw [if_neg (by omega)]
          omega

theorem content_eq_byteAt (h : s.Wf sb) (hip : s.InCore ip) :
    s.content sb (s.itable ip).inum =
      (List.range (s.itable ip).size.toNat).map fun p => s.byteAt ip p := by
  unfold State.content
  rw [← (h.synced ip hip.1 hip.2).1]
  rfl

theorem State.Wf.whole_ip (h : s.Wf sb) (hip : s.InCore ip) : Whole s.blocks (s.itable ip).toDinode := by
  obtain ⟨hd, ht⟩ := h.synced ip hip.1 hip.2
  have hw := h.whole _ (h.inum ip hip.1 hip.2) (hd ▸ ht)
  rwa [← hd] at hw

theorem toNat_add_of_not_wrap {off n : Uint} (h : ¬ off + n < off) :
    (off + n).toNat = off.toNat + n.toNat := by
  rw [BitVec.lt_def, BitVec.toNat_add] at h
  rw [BitVec.toNat_add]
  have h1 := off.isLt
  have h2 := n.isLt
  omega

/-- What `readi` reads and returns, if the destination can be written. -/
def readResult (c : List Byte) (off n : Uint) : Int × List Byte :=
  if c.length < off.toNat ∨ off + n < off then (0, [])
  else ((min n.toNat (c.length - off.toNat) : Nat), (c.drop off.toNat).take n.toNat)

theorem readi_spec (hsb : sb.Ordered) (h : s.Wf sb) (hip : s.InCore ip) (dst : Dest) (off n : Uint) :
    ∃ r, readi sb ip dst off n s = .ok (r, s) ∧ ((∀ k, k < n.toNat → dst k = true) →
      r = readResult (s.content sb (s.itable ip).inum) off n) := by
  have hc := content_eq_byteAt h hip
  have hlen : (s.content sb (s.itable ip).inum).length = (s.itable ip).size.toNat := by
    rw [hc, List.length_map, List.length_range]
  have hw := h.whole_ip hip
  have hrun : readi sb ip dst off n s = (if (s.itable ip).size < off ∨ off + n < off then pure (0, [])
    else readiLoop sb ip dst off.toNat
      (if (s.itable ip).size < off + n then (s.itable ip).size - off else n).toNat : K _) s := rfl
  rw [hrun]
  unfold readResult
  rw [hlen]
  by_cases hout : (s.itable ip).size < off ∨ off + n < off
  · rw [if_pos hout]
    rw [BitVec.lt_def] at hout
    exact ⟨_, rfl, fun _ => (if_pos hout).symm⟩
  · rw [if_neg hout]
    rw [BitVec.lt_def] at hout
    rw [if_neg hout]
    rw [not_or, Nat.not_lt] at hout
    have hadd := toNat_add_of_not_wrap hout.2
    have hn : (if (s.itable ip).size < off + n then (s.itable ip).size - off else n).toNat =
        min n.toNat ((s.itable ip).size.toNat - off.toNat) := by
      by_cases hlt : (s.itable ip).size < off + n
      · rw [if_pos hlt, BitVec.toNat_sub_of_le (BitVec.le_def.2 hout.1)]
        rw [BitVec.lt_def, hadd] at hlt
        omega
      · rw [if_neg hlt]
        rw [BitVec.lt_def, hadd] at hlt
        omega
    rw [hn]
    obtain ⟨r, hr, hres⟩ := readiLoop_spec hsb (h.own_ip hip) dst off.toNat
      (min n.toNat ((s.itable ip).size.toNat - off.toNat)) (by have := hw.1; omega)
      (fun p hp hlt => hw.2 p (by omega))
    refine ⟨r, hr, fun hdst => ?_⟩
    rw [hres fun k hk => hdst k (by omega)]
    refine Prod.ext rfl ?_
    show _ = ((s.content sb (s.itable ip).inum).drop off.toNat).take n.toNat
    rw [hc]
    refine List.ext_getElem ?_ fun k h1 h2 => ?_
    · simp
    · simp

/-! ## `writei` -/

/-- `if(off > ip->size) ip->size = off` -/
def State.sized (s : State) (ip : Ip) (off : Uint) : State :=
  if (s.itable ip).size < off then s.setInode ip { s.itable ip with size := off } else s

/-- What `writei` has done, which has returned `tot`. -/
structure Written (sb : Superblock) (ip : Ip) (src : Source) (off n tot : Nat) (s t : State) : Prop where
  wf : t.Wf sb
  le : tot ≤ n
  table : t.itable = Function.update s.itable ip { s.itable ip with
    size := (t.itable ip).size
    addrs := (t.itable ip).addrs }
  ftable : t.ftable = s.ftable
  ofile : t.ofile = s.ofile
  cwd : t.cwd = s.cwd
  dinode : ∀ i, sb.Inum i → i ≠ (s.itable ip).inum → t.dinode sb i = s.dinode sb i
  others : ∀ i, sb.Inum i → (s.dinode sb i).type ≠ 0 → i ≠ (s.itable ip).inum →
    t.content sb i = s.content sb i
  content : (∀ k, k < n → src k ≠ none) → t.content sb (s.itable ip).inum =
    (s.content sb (s.itable ip).inum).take off ++ eitherCopyin src tot ++
      (s.content sb (s.itable ip).inum).drop (off + tot)
  full : (∀ k, k < n → src k ≠ none) → tot < n → Full sb t ∧ ¬ t.Has ip (off + tot)
  keep : ∀ k, s.slot ip k ≠ 0 → t.slot ip k = s.slot ip k
  filled : ∀ k, s.slot ip k = 0 → t.slot ip k ≠ 0 → touched off n k
  has : ∀ p, off ≤ p → p < off + tot → t.Has ip p
  slots : ∀ i, i ≠ (s.itable ip).inum → ∀ k,
    slotAddr t.blocks (t.addrs sb i) k = slotAddr s.blocks (s.addrs sb i) k
  logged : ∃ (new : List Nat) (f : Nat → Nat), t.logged = new ++ s.logged ∧ ∀ b ∈ new,
    (∃ c, c < sb.size.toNat ∧ b = sb.BBLOCK c) ∨ b = sb.IBLOCK (s.itable ip).inum ∨ ∃ k, touched off n k ∧ b = f k

theorem sized_blocks (off : Uint) : (s.sized ip off).blocks = s.blocks := by
  unfold State.sized
  split <;> rfl

theorem sized_logged (off : Uint) : (s.sized ip off).logged = s.logged := by
  unfold State.sized
  split <;> rfl

theorem sized_ftable (off : Uint) : (s.sized ip off).ftable = s.ftable := by
  unfold State.sized
  split <;> rfl

theorem sized_ofile (off : Uint) : (s.sized ip off).ofile = s.ofile := by
  unfold State.sized
  split <;> rfl

theorem sized_cwd (off : Uint) : (s.sized ip off).cwd = s.cwd := by
  unfold State.sized
  split <;> rfl

theorem sized_itable (off : Uint) : (s.sized ip off).itable =
    Function.update s.itable ip { s.itable ip with size := ((s.sized ip off).itable ip).size } := by
  unfold State.sized
  split
  · rw [setInode_self]
    rfl
  · exact (Function.update_eq_self ip s.itable).symm

theorem sized_addrs (off : Uint) : ((s.sized ip off).itable ip).addrs = (s.itable ip).addrs := by
  rw [sized_itable, Function.update_self]

theorem sized_size (off : Uint) : ((s.sized ip off).itable ip).size.toNat =
    max (s.itable ip).size.toNat off.toNat := by
  unfold State.sized
  by_cases h : (s.itable ip).size < off
  · rw [if_pos h, setInode_self]
    rw [BitVec.lt_def] at h
    show off.toNat = _
    omega
  · rw [if_neg h]
    rw [BitVec.lt_def] at h
    omega

theorem slot_sized (off : Uint) (k : Nat) : (s.sized ip off).slot ip k = s.slot ip k := by
  unfold State.slot
  rw [sized_addrs, sized_blocks]

theorem Local.sized (hl : Local sb A ip s u) (off : Uint) : Local sb A ip s (u.sized ip off) := by
  have hinum : ((u.sized ip off).itable ip).inum = (u.itable ip).inum := by
    rw [sized_itable, Function.update_self]
  have hwith : (u.sized ip off).withIp ip A = u.withIp ip A := by
    unfold State.withIp
    rw [sized_addrs, hinum]
  refine ⟨?_, ?_, ?_, ?_, ?_⟩
  · rw [sized_itable, hl.table, Function.update_idem]
    simp only [Function.update_self]
  · exact fun i hi => (dinode_congr sb (by rw [sized_blocks])).trans (hl.dinode i hi)
  · rw [hwith]
    exact hl.own.congr (fun i _ => by rw [sized_blocks]) fun b _ => bit_congr sb (by rw [sized_blocks])
  · intro i hi k
    rw [sized_blocks]
    exact hl.slots i hi k
  · intro i hi k hk
    rw [sized_blocks]
    exact hl.data i hi k hk

theorem Ended.slot {src : Source} {off n tot : Nat} (h : Ended sb ip src off n tot t u)
    (hown : Own sb (t.withIp ip A) t) (k : Nat) : u.slot ip k = t.slot ip k := by
  rcases h with ⟨rfl, -⟩ | hc
  · rfl
  · rw [hc.eq]
    exact slot_put hown (fileSlot_ne_indirect _) _ k

theorem Ended.logged {src : Source} {off n tot : Nat} (h : Ended sb ip src off n tot t u) :
    u.logged = t.logged := by
  rcases h with ⟨rfl, -⟩ | hc
  · rfl
  · rw [hc.eq]
    rfl

theorem Ended.grown {src : Source} {off n tot : Nat} {R : Nat → Prop} (hsb : sb.Ordered)
    (h : Ended sb ip src off n tot t u) (hg : Grown sb A ip R s t) (hR : R (fileSlot ((off + tot) / BSIZE))) :
    Grown sb A ip R s u := by
  rcases h with ⟨rfl, -⟩ | hc
  · exact hg
  · rw [hc.eq]
    exact hg.trans (Grown.of_put hg.own hsb hc.has (fileSlot_ne_indirect _) _ []
      (fun c hc => absurd hc List.not_mem_nil) hR)

/-- A copy that can fetch every byte does not fail. -/
theorem Ended.eq_of_readable {src : Source} {off n tot : Nat} (h : Ended sb ip src off n tot t u)
    (hle : tot ≤ n) (hsrc : ∀ k, k < n → src k ≠ none) :
    u = t ∧ (tot < n → Full sb t ∧ ¬ t.Has ip (off + tot)) := by
  rcases h with h | hc
  · exact h
  · exact absurd (eitherCopyin_short _ hc.short) (hsrc _ (by have := hc.short; omega))

theorem eitherCopyin_take {src : Source} {n m : Nat} (hm : m ≤ n) (hsrc : ∀ k, k < n → src k ≠ none) :
    (eitherCopyin src m).length = m := by
  refine Nat.le_antisymm (length_eitherCopyin_le src m) (Nat.not_lt.1 fun hlt => ?_)
  exact hsrc _ (by omega) (eitherCopyin_short src hlt)

/-- The content of a file of which a part was written. -/
theorem splice_eq {f g : Nat → Byte} {size off tot : Nat} {bytes : List Byte} (hoff : off ≤ size)
    (hlen : bytes.length = tot)
    (hin : ∀ k (hk : k < bytes.length), g (off + k) = bytes[k])
    (hout : ∀ p, p < size → p < off ∨ off + tot ≤ p → g p = f p) :
    (List.range (max size (off + tot))).map g =
      ((List.range size).map f).take off ++ bytes ++ ((List.range size).map f).drop (off + tot) := by
  have htake : (((List.range size).map f).take off).length = off := by
    rw [List.length_take, List.length_map, List.length_range]
    omega
  rw [List.append_assoc]
  refine List.ext_getElem ?_ fun p h1 h2 => ?_
  · simp only [List.length_map, List.length_range, List.length_append, List.length_drop, htake]
    omega
  · rw [List.length_map, List.length_range] at h1
    rw [List.getElem_map, List.getElem_range]
    by_cases hlow : p < off
    · rw [List.getElem_append_left (by omega), List.getElem_take, List.getElem_map, List.getElem_range]
      exact hout p (by omega) (Or.inl hlow)
    · rw [List.getElem_append_right (by omega)]
      simp only [htake]
      by_cases hmid : p < off + tot
      · rw [List.getElem_append_left (by omega), ← hin]
        congr 1
        omega
      · rw [List.getElem_append_right (by omega), List.getElem_drop, List.getElem_map,
          List.getElem_range]
        rw [show off + tot + (p - off - bytes.length) = p by omega]
        exact hout p (by omega) (Or.inr (by omega))

theorem slot_updated (hsb : sb.Ordered) (hi : sb.Inum (s.itable ip).inum)
    (h : Own sb (s.withIp ip A) s) (k : Nat) : (s.updated sb ip).slot ip k = s.slot ip k := by
  refine slotAddr_congr (fun hne => updated_data hsb hi ?_) k
  rw [updated_itable, ← slot_last] at hne ⊢
  exact (h.used_ip hne).1

/-- Writing the inode to disk changes no byte of the file. -/
theorem byteAt_updated (hsb : sb.Ordered) (hi : sb.Inum (s.itable ip).inum)
    (h : Own sb (s.withIp ip A) s) {p : Nat} (hp : s.Has ip p) :
    (s.updated sb ip).byteAt ip p = s.byteAt ip p := by
  unfold State.byteAt
  rw [slot_updated hsb hi h, updated_data hsb hi (h.used_ip hp).1]

/-- Where `writei` returns -1 and has done nothing. -/
def Refused (size off n : Uint) : Prop := size < off ∨ off + n < off ∨ MAXFILE * BSIZE < (off + n).toNat

theorem writei_refused {src : Source} {off n : Uint} (h : Refused (s.itable ip).size off n) :
    writei sb ip src off n s = .ok (-1, s) := by
  have hrun : writei sb ip src off n s = (if (s.itable ip).size < off ∨ off + n < off then pure (-1)
    else if MAXFILE * BSIZE < (off + n).toNat then pure (-1)
    else do
      let tot ← writeiLoop sb ip src off.toNat n.toNat
      let s ← get
      let off := off + BitVec.ofNat 32 tot
      (if (s.itable ip).size < off then set (s.setInode ip { s.itable ip with size := off })
      else pure ⟨⟩)
      iupdate sb ip
      pure tot : K Int) s := rfl
  rw [hrun]
  by_cases h1 : (s.itable ip).size < off ∨ off + n < off
  · rw [if_pos h1]
    rfl
  · rw [if_neg h1, if_pos]
    · rfl
    · rcases h with h | h | h
      · exact absurd (Or.inl h) h1
      · exact absurd (Or.inr h) h1
      · exact h

theorem writei_run {src : Source} {off n : Uint} {tot : Nat} (h : ¬ Refused (s.itable ip).size off n)
    (hloop : writeiLoop sb ip src off.toNat n.toNat s = .ok (tot, u)) :
    writei sb ip src off n s = .ok ((tot : Int), (u.sized ip (off + BitVec.ofNat 32 tot)).updated sb ip) := by
  have h1 : ¬ ((s.itable ip).size < off ∨ off + n < off) := fun hc =>
    h (hc.elim Or.inl fun hw => Or.inr (Or.inl hw))
  have h2 : ¬ MAXFILE * BSIZE < (off + n).toNat := fun hc => h (Or.inr (Or.inr hc))
  have hsize : ∀ o : Uint, (do
      let s ← get
      (if (s.itable ip).size < o then set (s.setInode ip { s.itable ip with size := o }) else pure ⟨⟩)
      iupdate sb ip
      pure (tot : Int) : K Int) u = .ok ((tot : Int), (u.sized ip o).updated sb ip) := by
    intro o
    refine (bind_of_ok (a := u) rfl).trans ?_
    unfold State.sized
    by_cases ho : (u.itable ip).size < o
    · rw [if_pos ho, if_pos ho]
      rfl
    · rw [if_neg ho, if_neg ho]
      rfl
  refine (bind_of_ok (a := s) rfl).trans ?_
  refine (congrFun (if_neg h1) s).trans ((congrFun (if_neg h2) s).trans ?_)
  exact (bind_of_ok hloop).trans (hsize _)

section Finish

variable {src : Source} {off n tot : Nat} {w : State} (hsb : sb.Ordered) (h : s.Wf sb) (hip : s.InCore ip)
  (hw : Wrote sb (s.addrs sb) ip src off n tot s u) (hend : Ended sb ip src off n tot u w) (o : Uint)

include hsb hw hend

/-- The loop has grown the file, whether or not its last copy failed. -/
theorem finish_grown : Grown sb (s.addrs sb) ip (fun _ => True) s w :=
  hend.grown hsb (hw.grown.mono fun _ _ => trivial) trivial

theorem finish_table : (w.sized ip o).itable = Function.update s.itable ip { s.itable ip with
    size := ((w.sized ip o).itable ip).size
    addrs := ((w.sized ip o).itable ip).addrs } := by
  rw [sized_itable, Function.update_self, (finish_grown hsb hw hend).table, Function.update_idem,
    Function.update_self]

theorem finish_inum : ((w.sized ip o).itable ip).inum = (s.itable ip).inum := by
  rw [finish_table hsb hw hend, Function.update_self]

theorem finish_size (ho : o.toNat = off + tot) :
    ((w.sized ip o).itable ip).size.toNat = max (s.itable ip).size.toNat (off + tot) := by
  rw [sized_size, ho, (finish_grown hsb hw hend).table, Function.update_self]

include h hip

theorem finish_local : Local sb (s.addrs sb) ip s (w.sized ip o) :=
  ((finish_grown hsb hw hend).local (h.own_ip hip)).sized o

theorem finish_slot (k : Nat) : ((w.sized ip o).updated sb ip).slot ip k = u.slot ip k := by
  have hnum := finish_inum hsb hw hend o
  have hi : sb.Inum ((w.sized ip o).itable ip).inum := hnum ▸ h.inum ip hip.1 hip.2
  rw [slot_updated hsb hi (finish_local hsb h hip hw hend o).own, slot_sized]
  exact hend.slot hw.grown.own k

/-- The blocks of the file are there up to its new size. -/
theorem finish_has (hoff : off ≤ (s.itable ip).size.toNat) {p : Nat}
    (hp : p < max (s.itable ip).size.toNat (off + tot)) : w.Has ip p := by
  by_cases hlt : p < (s.itable ip).size.toNat
  · have hold : s.Has ip p := (h.whole_ip hip).2 p hlt
    exact fun hz => hold ((finish_grown hsb hw hend).keep _ hold ▸ hz)
  · have hnew := (hw.written p (by omega) (by omega)).1
    exact fun hz => hnew ((hend.slot hw.grown.own _).symm.trans hz)

variable (hoff : off ≤ (s.itable ip).size.toNat) (ho : o.toNat = off + tot) (hmax : off + n ≤ MAXFILE * BSIZE)

include hoff ho hmax

theorem finish_wf : ((w.sized ip o).updated sb ip).Wf sb := by
  have hsize := finish_size hsb hw hend o ho
  have htype : ((w.sized ip o).itable ip).type ≠ 0 := by
    rw [finish_table hsb hw hend, Function.update_self]
    exact (h.synced ip hip.1 hip.2).2
  have hwhole : Whole (w.sized ip o).blocks ((w.sized ip o).itable ip).toDinode := by
    refine ⟨?_, fun p hp hz => ?_⟩
    · have hs := (h.whole_ip hip).1
      have hle := hw.le
      show ((w.sized ip o).itable ip).size.toNat ≤ _
      rw [hsize]
      omega
    · exact finish_has hsb h hip hw hend hoff (hsize ▸ hp) ((slot_sized o _).symm.trans hz)
  exact Local.wf hsb h hip (finish_local hsb h hip hw hend o) rfl
    (Function.update_eq_self ip (w.sized ip o).itable).symm (finish_inum hsb hw hend o)
    (fun _ => ⟨rfl, htype⟩) (fun _ => hwhole) fun h0 => absurd h0 htype

/-- A source that can be read is in the file, up to where the disk was full. -/
theorem finish_content (hsrc : ∀ k, k < n → src k ≠ none) :
    ((w.sized ip o).updated sb ip).content sb (s.itable ip).inum =
      (s.content sb (s.itable ip).inum).take off ++ eitherCopyin src tot ++
        (s.content sb (s.itable ip).inum).drop (off + tot) := by
  have hle := hw.le
  obtain ⟨rfl, -⟩ := hend.eq_of_readable hle hsrc
  have hgrown := finish_grown hsb hw hend
  have hnum := finish_inum hsb hw hend o
  have hi : sb.Inum ((w.sized ip o).itable ip).inum := hnum ▸ h.inum ip hip.1 hip.2
  have hincore : ((w.sized ip o).updated sb ip).InCore ip := by
    unfold State.InCore
    rw [updated_itable, finish_table hsb hw hend, Function.update_self]
    exact hip
  have hbyte : ∀ p, w.Has ip p → ((w.sized ip o).updated sb ip).byteAt ip p = w.byteAt ip p := by
    intro p hp
    have hpv : (w.sized ip o).Has ip p := fun hz => hp ((slot_sized o _).symm.trans hz)
    rw [byteAt_updated hsb hi (finish_local hsb h hip hw hend o).own hpv]
    unfold State.byteAt
    rw [slot_sized, sized_blocks]
  have hcontent := content_eq_byteAt (finish_wf hsb h hip hw hend o hoff ho hmax) hincore
  rw [updated_itable, hnum, finish_size hsb hw hend o ho] at hcontent
  rw [hcontent, content_eq_byteAt h hip]
  refine splice_eq hoff (eitherCopyin_take hle hsrc) (fun k hk => ?_) fun p hp hout => ?_
  · have hk' : k < tot := (eitherCopyin_take hle hsrc) ▸ hk
    obtain ⟨hpw, hsrck⟩ := hw.written (off + k) (by omega) (by omega)
    rw [Nat.add_sub_cancel_left, eitherCopyin_getElem src hk] at hsrck
    rw [hbyte _ hpw, Option.some.inj hsrck]
  · have hps : s.Has ip p := (h.whole_ip hip).2 p hp
    rw [hbyte p fun hz => hps (hgrown.keep _ hps ▸ hz)]
    exact hw.kept p hps hout

theorem finish_written : Written sb ip src off n tot s ((w.sized ip o).updated sb ip) := by
  have hgrown := finish_grown hsb hw hend
  have hlocal := finish_local hsb h hip hw hend o
  have hnum := finish_inum hsb hw hend o
  have hslot := finish_slot hsb h hip hw hend o
  have hi : sb.Inum ((w.sized ip o).itable ip).inum := hnum ▸ h.inum ip hip.1 hip.2
  refine
    { wf := finish_wf hsb h hip hw hend o hoff ho hmax
      le := hw.le
      table := finish_table hsb hw hend o
      ftable := (sized_ftable o).trans hgrown.ftable
      ofile := (sized_ofile o).trans hgrown.ofile
      cwd := (sized_cwd o).trans hgrown.cwd
      dinode := fun i hi hne => ?_
      others := fun i hi hne hnum => (Local.content hsb h hip hlocal rfl hi hne hnum).2
      content := finish_content hsb h hip hw hend o hoff ho hmax
      full := fun hsrc hlt => ?_
      keep := fun k hk => ?_
      filled := fun k h0 h1 => ?_
      has := fun p hp hlt hz => (hw.written p hp hlt).1 ((hslot _).symm.trans hz)
      slots := fun i hi k => Local.slots_updated hsb h hip hlocal rfl hi k
      logged := ?_ }
  · rw [updated_dinode, hnum, if_neg hne, hlocal.dinode i hi.2]
  · obtain ⟨rfl, hfull⟩ := hend.eq_of_readable hw.le hsrc
    refine ⟨fun b hb => ?_, fun hhas => (hfull hlt).2 fun hz => hhas ((hslot _).trans hz)⟩
    refine (bit_congr sb ?_).trans ((hfull hlt).1 b hb)
    rw [updated_of_ne (Superblock.IBLOCK_ne_BBLOCK hsb hi.2 b).symm, sized_blocks]
  · rw [hslot]
    exact hw.grown.keep k hk
  · rw [hslot] at h1
    exact hw.grown.filled k h0 h1
  · obtain ⟨new, hnew, hlog⟩ := hw.grown.logged
    refine ⟨sb.IBLOCK (s.itable ip).inum :: new, fun k => (u.slot ip k).toNat, ?_, fun b hb => ?_⟩
    · rw [show ((w.sized ip o).updated sb ip).logged =
        sb.IBLOCK ((w.sized ip o).itable ip).inum :: (w.sized ip o).logged from rfl, hnum, sized_logged,
        hend.logged, hnew]
      rfl
    · rcases List.mem_cons.1 hb with rfl | hb
      · exact Or.inr (Or.inl rfl)
      · rcases hlog b hb with hc | ⟨k, hk, -, he⟩
        · exact Or.inl hc
        · exact Or.inr (Or.inr ⟨k, hk, he.symm⟩)

end Finish

theorem writei_spec (hsb : sb.Ordered) (h : s.Wf sb) (hip : s.InCore ip) (src : Source) (off n : Uint)
    (hr : ¬ Refused (s.itable ip).size off n) : ∃ (tot : Nat) (t : State), writei sb ip src off n s = .ok ((tot : Int), t) ∧
      Written sb ip src off.toNat n.toNat tot s t := by
  have hoff : off.toNat ≤ (s.itable ip).size.toNat := by
    have hle : ¬ (s.itable ip).size < off := fun hc => hr (Or.inl hc)
    rw [BitVec.lt_def] at hle
    omega
  have hadd : (off + n).toNat = off.toNat + n.toNat :=
    toNat_add_of_not_wrap fun hc => hr (Or.inr (Or.inl hc))
  have hmax : off.toNat + n.toNat ≤ MAXFILE * BSIZE := by
    rw [← hadd]
    exact Nat.not_lt.1 fun hc => hr (Or.inr (Or.inr hc))
  obtain ⟨tot, u, w, hloop, hw, hend⟩ := writeiLoop_spec hsb src off.toNat n.toNat hmax (h.own_ip hip)
  have hle := hw.le
  have ho : (off + BitVec.ofNat 32 tot).toNat = off.toNat + tot := by
    have hlt := n.isLt
    have hlt' := (off + n).isLt
    rw [BitVec.toNat_add, BitVec.toNat_ofNat]
    omega
  exact ⟨tot, _, writei_run hr hloop, finish_written hsb h hip hw hend _ hoff ho hmax⟩

end Xv6.Blocks
