import Mathlib.Data.FinEnum
import Xv6.Blocks.ByteFiles

set_option autoImplicit false

/-! # `filewrite` and one `writei`

`filewrite` cuts a write into transactions. When it has written everything, a single `writei` of all the
bytes would have done the same, and would have found enough blocks. -/

namespace Xv6.Blocks

open Xv6.Lib
open Xv6.Fs (NINODE NFILE NDEV ROOTINO DIRSIZ MAXFILE Ip)

variable {sb : Superblock} {s t u : State} {ip : Ip} {f : Fin NFILE}

/-! ## Locking -/

/-- What a step that writes no block, and only locks or unlocks inodes or begins a transaction, keeps. -/
structure Relocked (s t : State) : Prop where
  blocks : t.blocks = s.blocks
  ref : ∀ jp, (t.itable jp).ref = (s.itable jp).ref
  valid : ∀ jp, (t.itable jp).valid = (s.itable jp).valid
  inum : ∀ jp, (t.itable jp).inum = (s.itable jp).inum
  toDinode : ∀ jp, (t.itable jp).toDinode = (s.itable jp).toDinode

theorem Relocked.trans (h : Relocked s t) (h' : Relocked t u) : Relocked s u :=
  ⟨h'.blocks.trans h.blocks, fun jp => (h'.ref jp).trans (h.ref jp), fun jp => (h'.valid jp).trans (h.valid jp),
    fun jp => (h'.inum jp).trans (h.inum jp), fun jp => (h'.toDinode jp).trans (h.toDinode jp)⟩

theorem Relocked.dinode (h : Relocked s t) (i : Nat) : t.dinode sb i = s.dinode sb i :=
  dinode_congr sb (by rw [h.blocks])

theorem Relocked.addrs (h : Relocked s t) : t.addrs sb = s.addrs sb := by
  funext i
  unfold State.addrs
  rw [h.dinode]

theorem Relocked.content (h : Relocked s t) (i : Nat) : t.content sb i = s.content sb i := by
  unfold State.content
  rw [h.dinode, h.blocks]

theorem Relocked.slot (h : Relocked s t) (k : Nat) : t.slot ip k = s.slot ip k := by
  unfold State.slot
  rw [h.blocks, h.toDinode]

theorem Relocked.inCore (h : Relocked s t) : t.InCore ip ↔ s.InCore ip := by
  unfold State.InCore
  rw [h.ref, h.valid]

theorem Relocked.wf (h : Relocked s t) (hs : s.Wf sb) : t.Wf sb := by
  refine hs.retable h.blocks (fun jp hr hv => ?_) fun jp kp hj hk hn => ?_
  · rw [h.ref] at hr
    rw [h.valid] at hv
    exact ⟨hr, hv, h.inum jp, h.toDinode jp⟩
  · rw [h.ref] at hj hk
    rw [h.inum, h.inum] at hn
    exact hs.uniq jp kp hj hk hn

theorem relocked_setLocked (s : State) (ip : Ip) (v : Bool) :
    Relocked s (s.setInode ip { s.itable ip with locked := v }) := by
  constructor
  · rfl
  all_goals
    intro jp
    by_cases hj : jp = ip
    · rw [hj, setInode_self]
    · rw [setInode_of_ne _ hj]

theorem relocked_beginOp (s : State) : Relocked s s.beginOp :=
  ⟨rfl, fun _ => rfl, fun _ => rfl, fun _ => rfl, fun _ => rfl⟩

theorem Relocked.symm (h : Relocked s t) : Relocked t s :=
  ⟨h.blocks.symm, fun jp => (h.ref jp).symm, fun jp => (h.valid jp).symm, fun jp => (h.inum jp).symm,
    fun jp => (h.toDinode jp).symm⟩

/-- `ilock` returns if nobody has the lock. -/
theorem ilock_eq (hip : s.InCore ip) (hfree : (s.itable ip).locked = false) :
    ilock sb ip s = .ok (⟨⟩, s.setInode ip { s.itable ip with locked := true }) := by
  unfold ilock
  refine (bind_of_ok (a := s) (t := s) rfl).trans ?_
  rw [if_neg (Nat.not_lt.2 hip.1), bind_of_ok (acquiresleep_eq s ip hfree)]
  refine (bind_of_ok (a := s.setInode ip _) (t := s.setInode ip _) rfl).trans ?_
  rw [setInode_self]
  exact congrFun (if_pos hip.2) _

theorem iunlock_returned (h : iunlock ip s = .ok (⟨⟩, t)) : Relocked s t ∧ t.ftable = s.ftable := by
  obtain ⟨s0, s0', hget, h⟩ := bind_returned h
  cases hget
  by_cases hc : (s.itable ip).locked = false ∨ (s.itable ip).ref < 1
  · rw [if_pos hc] at h
    cases h
  · rw [if_neg hc] at h
    cases h
    exact ⟨relocked_setLocked s ip false, rfl⟩

/-! ## One transaction -/

/-- `tot` bytes of the source are in the file, at its offset, which has moved on. -/
structure Advanced (sb : Superblock) (f : Fin NFILE) (src : Source) (tot : Nat) (s t : State) : Prop where
  wf : t.Wf sb
  core : t.InCore (s.ftable f).ip
  inum : (t.itable (s.ftable f).ip).inum = (s.itable (s.ftable f).ip).inum
  file : t.ftable f = { s.ftable f with off := (s.ftable f).off + BitVec.ofNat 32 tot }
  content : t.content sb (s.itable (s.ftable f).ip).inum =
    splice (s.content sb (s.itable (s.ftable f).ip).inum) (s.ftable f).off.toNat (eitherCopyin src tot)
  others : ∀ i, sb.Inum i → (s.dinode sb i).type ≠ 0 → i ≠ (s.itable (s.ftable f).ip).inum →
    t.content sb i = s.content sb i
  types : ∀ i, sb.Inum i → (t.dinode sb i).type = (s.dinode sb i).type
  keep : ∀ k, s.slot (s.ftable f).ip k ≠ 0 → t.slot (s.ftable f).ip k ≠ 0
  has : ∀ p, (s.ftable f).off.toNat ≤ p → p < (s.ftable f).off.toNat + tot → t.Has (s.ftable f).ip p
  slots : ∀ i, i ≠ (s.itable (s.ftable f).ip).inum → ∀ k,
    slotAddr t.blocks (t.addrs sb i) k = slotAddr s.blocks (s.addrs sb i) k
  inside : tot ≠ 0 → (s.ftable f).off.toNat ≤ (s.itable (s.ftable f).ip).size.toNat ∧
    (s.ftable f).off.toNat + tot ≤ MAXFILE * BSIZE

theorem Advanced.refl {src : Source} (h : s.Wf sb) (hip : s.InCore (s.ftable f).ip) :
    Advanced sb f src 0 s s := by
  constructor
  case wf =>
    exact h
  case core =>
    exact hip
  case inum =>
    rfl
  case file =>
    rw [BitVec.add_zero]
  case content =>
    rw [eitherCopyin, splice_nil]
  case others =>
    exact fun _ _ _ _ => rfl
  case types =>
    exact fun _ _ => rfl
  case keep =>
    exact fun _ hk => hk
  case has =>
    intro p hp hlt
    omega
  case slots =>
    exact fun _ _ _ => rfl
  case inside =>
    exact fun h0 => absurd rfl h0

theorem eitherCopyin_add {src : Source} {m n : Nat} (hsrc : ∀ k, k < m → src k ≠ none) :
    eitherCopyin src (m + n) = eitherCopyin src m ++ eitherCopyin (fun k => src (m + k)) n := by
  induction m generalizing src with
  | zero => simp only [Nat.zero_add, eitherCopyin, List.nil_append]
  | succ m ih =>
      rw [Nat.succ_add, eitherCopyin, eitherCopyin]
      cases h0 : src 0 with
      | none => exact absurd h0 (hsrc 0 (Nat.succ_pos m))
      | some c =>
          simp only [List.cons_append, List.cons.injEq, true_and]
          rw [ih fun k hk => hsrc (k + 1) (Nat.succ_lt_succ hk)]
          congr 2
          funext k
          rw [Nat.add_right_comm]

/-- One write after the other. -/
theorem Advanced.trans {src : Source} {m n : Nat} (hs : s.Wf sb) (hip : s.InCore (s.ftable f).ip)
    (hsrc : ∀ k, k < m → src k ≠ none) (hm : m ≠ 0) (h : Advanced sb f src m s t)
    (h' : Advanced sb f (fun k => src (m + k)) n t u) : Advanced sb f src (m + n) s u := by
  have hin := h.inside hm
  have hfip : (t.ftable f).ip = (s.ftable f).ip := by rw [h.file]
  have hoff : (t.ftable f).off.toNat = (s.ftable f).off.toNat + m := by
    have hbig : MAXFILE * BSIZE < 2 ^ 32 := by decide
    rw [h.file, BitVec.toNat_add, BitVec.toNat_ofNat, Nat.add_mod_mod, Nat.mod_eq_of_lt (by omega)]
  have hinum : (t.itable (t.ftable f).ip).inum = (s.itable (s.ftable f).ip).inum := by
    rw [hfip, h.inum]
  have hlen : (eitherCopyin src m).length = m := eitherCopyin_take (Nat.le_refl m) hsrc
  constructor
  case wf =>
    exact h'.wf
  case core =>
    rw [← hfip]
    exact h'.core
  case inum =>
    rw [← hinum, ← hfip, h'.inum]
  case file =>
    rw [h'.file, h.file, BitVec.add_assoc, ← BitVec.ofNat_add]
  case content =>
    have hcont := h'.content
    rw [hinum, h.content, hoff] at hcont
    have hle : (s.ftable f).off.toNat ≤ (s.content sb (s.itable (s.ftable f).ip).inum).length := by
      rw [length_content hs hip]
      exact hin.1
    rw [hcont, eitherCopyin_add hsrc]
    exact splice_splice hle hlen
  case others =>
    intro i hi ht hne
    rw [h'.others i hi (by rw [h.types i hi]; exact ht) (by rw [hinum]; exact hne), h.others i hi ht hne]
  case types =>
    exact fun i hi => (h'.types i hi).trans (h.types i hi)
  case keep =>
    intro k hk
    have h1 := h.keep k hk
    rw [← hfip] at h1 ⊢
    exact h'.keep k h1
  case has =>
    intro p hp hlt
    by_cases hpm : p < (s.ftable f).off.toNat + m
    · have h1 := h.has p hp hpm
      unfold State.Has at h1 ⊢
      rw [← hfip] at h1 ⊢
      exact h'.keep _ h1
    · rw [← hfip]
      exact h'.has p (by omega) (by omega)
  case slots =>
    intro i hi k
    rw [h'.slots i (by rw [hinum]; exact hi), h.slots i hi]
  case inside =>
    intro _
    refine ⟨hin.1, ?_⟩
    by_cases hn : n = 0
    · omega
    · have := (h'.inside hn).2
      omega

/-- What `writei` has done. -/
theorem Written.advanced {src : Source} {n tot : Nat} (hs : s.Wf sb) (hip : s.InCore (s.ftable f).ip)
    (hsrc : ∀ k, k < n → src k ≠ none) (hw : Written sb (s.ftable f).ip src (s.ftable f).off.toNat n tot s t)
    (hin : (s.ftable f).off.toNat ≤ (s.itable (s.ftable f).ip).size.toNat ∧ (s.ftable f).off.toNat + n ≤ MAXFILE * BSIZE)
    (hr : Relocked t u)
    (hftable : u.ftable f = { s.ftable f with off := (s.ftable f).off + BitVec.ofNat 32 tot }) :
    Advanced sb f src tot s u := by
  obtain ⟨href, hvalid, hinum⟩ := core_of_table hw.table rfl rfl rfl (s.ftable f).ip
  constructor
  case wf =>
    exact hr.wf hw.wf
  case core =>
    rw [hr.inCore]
    exact ⟨by rw [href]; exact hip.1, by rw [hvalid]; exact hip.2⟩
  case inum =>
    rw [hr.inum, hinum]
  case file =>
    exact hftable
  case content =>
    rw [hr.content, hw.content hsrc, splice, eitherCopyin_take hw.le hsrc]
  case others =>
    intro i hi ht hne
    rw [hr.content, hw.others i hi ht hne]
  case types =>
    intro i hi
    rw [hr.dinode]
    exact types_of_table hs hw.wf hip hw.table rfl rfl rfl rfl hw.dinode hi
  case keep =>
    intro k hk
    rw [hr.slot, hw.keep k hk]
    exact hk
  case has =>
    intro p hp hlt
    unfold State.Has
    rw [hr.slot]
    exact hw.has p hp hlt
  case slots =>
    intro i hi k
    rw [hr.blocks, hr.addrs]
    exact hw.slots i hi k
  case inside =>
    intro _
    have := hw.le
    exact ⟨hin.1, by omega⟩

theorem not_refused {size off n : Uint} (h : ¬ Refused size off n) :
    off.toNat ≤ size.toNat ∧ off.toNat + n.toNat ≤ MAXFILE * BSIZE := by
  have hoff : ¬ size < off := fun hc => h (Or.inl hc)
  have hadd := toNat_add_of_not_wrap fun hc => h (Or.inr (Or.inl hc))
  have hmax : ¬ MAXFILE * BSIZE < (off + n).toNat := fun hc => h (Or.inr (Or.inr hc))
  rw [BitVec.lt_def] at hoff
  omega

/-- Where the write began with a lock. -/
theorem Advanced.unlocked {src : Source} {tot : Nat} (hr : Relocked s t) (hf : t.ftable f = s.ftable f)
    (h : Advanced sb f src tot t u) : Advanced sb f src tot s u := by
  have hfip : (t.ftable f).ip = (s.ftable f).ip := by rw [hf]
  have hinum := hr.inum (s.ftable f).ip
  obtain ⟨wf, core, num, file, content, others, types, keep, has, slots, inside⟩ := h
  rw [hf] at core num file content others keep has slots inside
  rw [hinum] at num content others slots
  rw [hr.content] at content
  have hsize : (t.itable (s.ftable f).ip).size = (s.itable (s.ftable f).ip).size :=
    congrArg Dinode.size (hr.toDinode _)
  rw [hsize] at inside
  refine ⟨wf, core, num, file, content, ?_, ?_, ?_, has, ?_, inside⟩
  · intro i hi ht hne
    rw [others i hi (by rw [hr.dinode]; exact ht) hne, hr.content]
  · intro i hi
    rw [types i hi, hr.dinode]
  · intro k hk
    rw [← hr.slot] at hk
    exact keep k hk
  · intro i hi k
    rw [slots i hi, hr.blocks, hr.addrs]

/-- A transaction of `filewrite` that has written all its bytes. -/
theorem writeSome_all (hsb : sb.Ordered) (h : s.Wf sb) (hip : s.InCore (s.ftable f).ip) {src : Source} {n1 : Nat}
    (hn1 : n1 < 2 ^ 32) (hsrc : ∀ k, k < n1 → src k ≠ none) (hrun : writeSome sb f src n1 s = .ok ((n1 : Int), t)) :
    Advanced sb f src n1 s t := by
  let ip := (s.ftable f).ip
  obtain ⟨s0, s0', hget, hrun⟩ := bind_returned hrun
  cases hget
  obtain ⟨_, s1, hlock, hrun⟩ := bind_returned hrun
  have hfree : (s.itable ip).locked = false := by
    by_contra hne
    rw [ilock_locked hip.1 (Bool.eq_true_of_not_eq_false hne)] at hlock
    cases hlock
  rw [ilock_eq hip hfree] at hlock
  cases hlock
  let s1 := s.setInode ip { s.itable ip with locked := true }
  have hr1 : Relocked s s1 := relocked_setLocked s ip true
  have hip1 : s1.InCore ip := hr1.inCore.2 hip
  obtain ⟨r, t1, hwrite, hrun⟩ := bind_returned hrun
  obtain ⟨_, t2, hset, hrun⟩ := bind_returned hrun
  obtain ⟨_, t3, hunlock, hrun⟩ := bind_returned hrun
  cases hrun
  obtain ⟨hr2, hft⟩ := iunlock_returned hunlock
  have hnat : (BitVec.ofNat 32 n1).toNat = n1 := by rw [BitVec.toNat_ofNat, Nat.mod_eq_of_lt hn1]
  by_cases href : Refused (s1.itable ip).size (s.ftable f).off (BitVec.ofNat 32 n1)
  · rw [writei_refused href] at hwrite
    cases hwrite
  · obtain ⟨tot, u, hok, hw⟩ := writei_spec hsb (hr1.wf h) hip1 src (s.ftable f).off (BitVec.ofNat 32 n1) href
    rw [hwrite] at hok
    obtain ⟨htot, rfl⟩ := Prod.mk.inj (Except.ok.inj hok)
    obtain rfl : n1 = tot := by omega
    have hin := not_refused href
    rw [hnat] at hw hin
    have hftu : t1.ftable = s.ftable := hw.ftable
    have hset' : Relocked t1 t2 ∧ t2.ftable f = { s.ftable f with off := (s.ftable f).off + BitVec.ofNat 32 n1 } := by
      by_cases hpos : 0 < (n1 : Int)
      · rw [if_pos hpos] at hset
        cases hset
        refine ⟨⟨rfl, fun _ => rfl, fun _ => rfl, fun _ => rfl, fun _ => rfl⟩, ?_⟩
        simp only [State.setFile, Function.update_self, hftu, BitVec.ofInt_natCast]
      · rw [if_neg hpos] at hset
        cases hset
        have h0 : n1 = 0 := by omega
        refine ⟨⟨rfl, fun _ => rfl, fun _ => rfl, fun _ => rfl, fun _ => rfl⟩, ?_⟩
        rw [hftu, h0, BitVec.add_zero]
    refine Advanced.unlocked hr1 rfl ?_
    refine hw.advanced (hr1.wf h) hip1 hsrc hin (hset'.1.trans hr2) ?_
    rw [hft]
    exact hset'.2

/-- The loop of `filewrite`, when it has written everything. -/
theorem filewriteLoop_all (hsb : sb.Ordered) (h : s.Wf sb) (hip : s.InCore (s.ftable f).ip) {src : Source} {n : Nat}
    (hsrc : ∀ k, k < n → src k ≠ none) (hrun : filewriteLoop sb f src n s = .ok (true, t)) :
    Advanced sb f src n s t := by
  induction hlen : n using Nat.strong_induction_on generalizing n src s with
  | _ k ih =>
      subst hlen
      rw [filewriteLoop] at hrun
      by_cases h0 : n = 0
      · rw [dif_pos h0] at hrun
        cases hrun
        rw [h0]
        exact Advanced.refl h hip
      · rw [dif_neg h0] at hrun
        obtain ⟨r, u, hsome, hrun⟩ := bind_returned hrun
        have hle : min n maxWrite ≤ n := Nat.min_le_left _ _
        have hpos : min n maxWrite ≠ 0 := Nat.pos_iff_ne_zero.1 (Nat.lt_min.2 ⟨Nat.pos_of_ne_zero h0, maxWrite_pos⟩)
        have hmax : min n maxWrite < 2 ^ 32 := lt_of_le_of_lt (Nat.min_le_right _ _) (by decide)
        by_cases hr : r ≠ (min n maxWrite : Nat)
        · rw [if_pos hr] at hrun
          cases hrun
        · rw [if_neg hr] at hrun
          obtain rfl := not_not.1 hr
          have hfirst := writeSome_all hsb h.beginOp hip hmax (fun k hk => hsrc k (by omega))
            (transaction_returned hsome).1
          replace hfirst := hfirst.unlocked (relocked_beginOp s) rfl
          have hfip : (u.ftable f).ip = (s.ftable f).ip := by rw [hfirst.file]
          have hrest := ih (n - min n maxWrite) (by omega) hfirst.wf (by rw [hfip]; exact hfirst.core)
            (fun k hk => hsrc (min n maxWrite + k) (by omega)) hrun rfl
          have hall := Advanced.trans h hip (fun k hk => hsrc k (by omega)) hpos hfirst hrest
          rwa [Nat.add_sub_cancel' hle] at hall

/-! ## One write instead -/

/-- What a single `writei` has allocated, the transactions have allocated as well. -/
theorem Advanced.slots_le {src : Source} {n tot : Nat} (hip : s.InCore (s.ftable f).ip)
    (h : Advanced sb f src n s t) (hn : n ≠ 0)
    (hw : Written sb (s.ftable f).ip src (s.ftable f).off.toNat n tot s u) {i k : Nat}
    (hk : slotAddr u.blocks (u.addrs sb i) k ≠ 0) : slotAddr t.blocks (t.addrs sb i) k ≠ 0 := by
  by_cases hi : i = (s.itable (s.ftable f).ip).inum
  · subst hi
    obtain ⟨href, hvalid, hinum⟩ := core_of_table hw.table rfl rfl rfl (s.ftable f).ip
    have hipu : u.InCore (s.ftable f).ip := ⟨by rw [href]; exact hip.1, by rw [hvalid]; exact hip.2⟩
    have hua := hw.wf.addrs_ip hipu
    have hta := h.wf.addrs_ip h.core
    rw [hinum] at hua
    rw [h.inum] at hta
    rw [hua] at hk
    rw [hta]
    by_cases hold : s.slot (s.ftable f).ip k = 0
    · obtain ⟨bn, hle, hlt, hbn⟩ := hw.filled k hold hk
      have hB : 0 < BSIZE := by decide
      -- a byte of the write is in block `bn`
      have hbyte : t.slot (s.ftable f).ip (fileSlot bn) ≠ 0 := by
        rcases Nat.eq_or_lt_of_le hle with heq | hlt'
        · rw [← heq]
          exact h.has _ (Nat.le_refl _) (by omega)
        · have hp := h.has (bn * BSIZE) (Nat.le_of_lt ((Nat.div_lt_iff_lt_mul hB).1 hlt')) hlt
          unfold State.Has at hp
          rwa [Nat.mul_div_cancel _ hB] at hp
      rcases hbn with rfl | ⟨hind, rfl⟩
      · exact hbyte
      · intro hz
        refine hbyte (slotAddr_of_no_indirect ?_ ((slotAddr_indirect _ _).symm.trans hz))
        rw [fileSlot, if_neg (Nat.not_lt.2 hind)]
        exact Nat.succ_le_succ hind
    · exact h.keep k hold
  · rw [h.slots i hi]
    rwa [hw.slots i hi] at hk

/-- So the disk is not full before the single `writei` has written everything. -/
theorem Advanced.not_short {src : Source} {n tot : Nat} (hip : s.InCore (s.ftable f).ip)
    (h : Advanced sb f src n s t) (hsrc : ∀ k, k < n → src k ≠ none)
    (hw : Written sb (s.ftable f).ip src (s.ftable f).off.toNat n tot s u) : tot = n := by
  refine Nat.le_antisymm hw.le (Nat.not_lt.1 fun hlt => ?_)
  obtain ⟨hfull, hnot⟩ := hw.full hsrc hlt
  have hused : ∀ b : Uint, Used sb t b.toNat → Used sb u b.toNat := fun b hb => ⟨hb.1, hb.2.1, hfull _ hb.2.1⟩
  have hmore := h.has _ (Nat.le_add_right _ tot) (by omega)
  obtain ⟨href, hvalid, hinum⟩ := core_of_table hw.table rfl rfl rfl (s.ftable f).ip
  have hipu : u.InCore (s.ftable f).ip := ⟨by rw [href]; exact hip.1, by rw [hvalid]; exact hip.2⟩
  have hua := hw.wf.addrs_ip hipu
  have hta := h.wf.addrs_ip h.core
  rw [hinum] at hua
  rw [h.inum] at hta
  have hslot : slotAddr t.blocks (t.addrs sb (s.itable (s.ftable f).ip).inum)
      (fileSlot (((s.ftable f).off.toNat + tot) / BSIZE)) ≠ 0 := by
    rw [hta]
    exact hmore
  have hno := hw.wf.own.owns.no_more h.wf.own.owns hused (fun p hp => h.slots_le hip (by omega) hw hp)
    (i := ((s.itable (s.ftable f).ip).inum, fileSlot (((s.ftable f).off.toNat + tot) / BSIZE))) hslot
  rw [hua] at hno
  exact hnot hno

/-- What the transactions have done, a single `writei` does. -/
theorem Advanced.as_writei (hsb : sb.Ordered) (h : s.Wf sb) (hip : s.InCore (s.ftable f).ip) {src : Source} {n : Nat}
    (hsrc : ∀ k, k < n → src k ≠ none) (ha : Advanced sb f src n s t) :
    ∃ r u, writei sb (s.ftable f).ip src (s.ftable f).off (BitVec.ofNat 32 n) s = .ok (r, u) ∧ (0 < n → r = n) ∧
      ∀ i, sb.Inum i → (s.dinode sb i).type ≠ 0 → t.content sb i = u.content sb i := by
  by_cases href : Refused (s.itable (s.ftable f).ip).size (s.ftable f).off (BitVec.ofNat 32 n)
  · -- only an empty write may be at a place where `writei` refuses to write
    have h0 : n = 0 := by
      by_contra hne
      obtain ⟨hin, hmax⟩ := ha.inside hne
      have hbig : MAXFILE * BSIZE < 2 ^ 32 := by decide
      have hnat : (BitVec.ofNat 32 n).toNat = n := by rw [BitVec.toNat_ofNat, Nat.mod_eq_of_lt (by omega)]
      have hadd : ((s.ftable f).off + BitVec.ofNat 32 n).toNat = (s.ftable f).off.toNat + n := by
        rw [BitVec.toNat_add, hnat, Nat.mod_eq_of_lt (by omega)]
      rcases href with hc | hc | hc
      · rw [BitVec.lt_def] at hc
        omega
      · rw [BitVec.lt_def, hadd] at hc
        omega
      · omega
    refine ⟨-1, s, writei_refused href, fun hpos => by omega, fun i hi hti => ?_⟩
    by_cases he : i = (s.itable (s.ftable f).ip).inum
    · rw [he, ha.content, h0, eitherCopyin, splice_nil]
    · exact ha.others i hi hti he
  · obtain ⟨tot, u, hok, hw⟩ := writei_spec hsb h hip src (s.ftable f).off (BitVec.ofNat 32 n) href
    have hlt : n < 2 ^ 32 := by
      by_cases h0 : n = 0
      · rw [h0]
        decide
      · exact lt_of_le_of_lt (le_trans (Nat.le_add_left _ _) (ha.inside h0).2) (by decide)
    rw [BitVec.toNat_ofNat, Nat.mod_eq_of_lt hlt] at hw
    obtain rfl := ha.not_short hip hsrc hw
    refine ⟨tot, u, hok, fun _ => rfl, fun i hi hti => ?_⟩
    by_cases he : i = (s.itable (s.ftable f).ip).inum
    · rw [he, ha.content, hw.content hsrc, splice, eitherCopyin_take (Nat.le_refl _) hsrc]
    · rw [ha.others i hi hti he, hw.others i hi hti he]

/-- What `filewrite` does that has written everything, a single `writei` does in a transaction of its own. -/
theorem filewrite_as_writei (hsb : sb.Ordered) (h : s.Wf sb) (hip : s.InCore (s.ftable f).ip) {src : Source} {n : Int}
    (hn : 0 ≤ n) (hsrc : ∀ k, k < n.toNat → src k ≠ none) (hrun : filewrite sb f src n s = .ok (n, t)) :
    (t.ftable f).off = (s.ftable f).off + BitVec.ofInt 32 n ∧
      ∃ r u, writei sb (s.ftable f).ip src (s.ftable f).off (BitVec.ofInt 32 n) s.beginOp = .ok (r, u) ∧
        (0 < n → r = n) ∧ ∀ i, sb.Inum i → (s.dinode sb i).type ≠ 0 → t.content sb i = u.content sb i := by
  obtain ⟨n, rfl⟩ := Int.eq_ofNat_of_zero_le hn
  have hsrc : ∀ k, k < n → src k ≠ none := hsrc
  have hloop : ∃ u, filewriteLoop sb f src n s = .ok (true, u) ∧ t = u := by
    obtain ⟨s0, s0', hget, hrun⟩ := bind_returned hrun
    cases hget
    by_cases hw : (s.ftable f).writable = false
    · rw [if_pos hw] at hrun
      cases hrun
    · rw [if_neg hw] at hrun
      by_cases ht : (s.ftable f).type ≠ .inode
      · rw [if_pos ht] at hrun
        cases hrun
      · rw [if_neg ht] at hrun
        obtain ⟨all, u, hall, hrun⟩ := bind_returned hrun
        cases all with
        | false => cases hrun
        | true =>
            cases hrun
            exact ⟨t, hall, rfl⟩
  obtain ⟨_, hloop, rfl⟩ := hloop
  have ha := filewriteLoop_all hsb h hip hsrc hloop
  refine ⟨by rw [ha.file, BitVec.ofInt_natCast], ?_⟩
  rw [BitVec.ofInt_natCast]
  obtain ⟨r, u, hok, hr, hcont⟩ := (ha.unlocked (relocked_beginOp s).symm rfl).as_writei hsb h.beginOp hip hsrc
  exact ⟨r, u, hok, fun hpos => hr (Int.natCast_pos.1 hpos), hcont⟩

/-- Files are arrays of bytes: after any operations the next one does what it would do to arrays, unless it is
    too big a transaction, which small ones are not. And `filewrite`, when it has written everything, does what
    one `writei` does that is not too big. -/
theorem files_are_byte_arrays (hsb : sb.Ordered) (h : s.Wf sb) {ops : List FileOp}
    (hops : ∀ op ∈ ops, s.InCore op.ip ∧ op.Copies) :
    (∀ pre op post rs u, ops = pre ++ op :: post → runOps sb pre s = .ok (rs, u) → ∃ r v,
      Acts sb op u.beginOp r v ∧ (u.content sb (u.itable op.ip).inum).length ≤ MAXFILE * BSIZE ∧
        (transaction (op.run sb) u = if Fits v.logged then .ok (r, v) else .error (.tooBig, v)) ∧
        (op.Small sb → Fits v.logged)) ∧
    ((∀ op ∈ ops, op.Small sb) → ∃ rs u, runOps sb ops s = .ok (rs, u)) ∧
    ∀ rs u f src n v, runOps sb ops s = .ok (rs, u) → u.InCore (u.ftable f).ip → 0 ≤ n →
      (∀ k, k < n.toNat → src k ≠ none) → filewrite sb f src n u = .ok (n, v) →
        (v.ftable f).off = (u.ftable f).off + BitVec.ofInt 32 n ∧
          ∃ r w, (0 < n → r = n) ∧ (∀ i, sb.Inum i → (u.dinode sb i).type ≠ 0 → v.content sb i = w.content sb i) ∧
            transaction (writei sb (u.ftable f).ip src (u.ftable f).off (BitVec.ofInt 32 n)) u =
              if Fits w.logged then .ok (r, w) else .error (.tooBig, w) := by
  refine ⟨fun pre op post rs u hpre hrun => ?_, runOps_small hsb ops h hops, ?_⟩
  · obtain ⟨hip, hcopy⟩ := hops op (hpre ▸ List.mem_append_right _ List.mem_cons_self)
    obtain ⟨hu, hcore⟩ := runOps_wf hsb pre h (fun op' hop' => hops op' (hpre ▸ List.mem_append_left _ hop')) hrun
    have hipu := hcore op.ip hip
    obtain ⟨r, v, hacts, heq⟩ := op.transaction_acts hsb hu hipu hcopy
    refine ⟨r, v, hacts, ?_, heq, hacts.fits rfl⟩
    rw [length_content hu hipu]
    exact (hu.whole_ip hipu).1
  · intro rs u f src n v hok hip hn hsrc hrun
    obtain ⟨hu, -⟩ := runOps_wf hsb ops h hops hok
    obtain ⟨hoff, r, w, hw, hr, hcont⟩ := filewrite_as_writei hsb hu hip hn hsrc hrun
    exact ⟨hoff, r, w, hr, hcont, transaction_of_ok hw⟩

/-! ## A disk with one file -/

/-- Four blocks of metadata. -/
def tinyDisk (size : Uint) : Superblock where
  size := size
  ninodes := 3
  inodestart := 2
  bmapstart := 3

theorem entry_lt : 0 < NINODE := by decide

def fileEntry : Ip := ⟨0, entry_lt⟩

/-- A file of `size` bytes without a block. -/
def tinyFile (size : Uint) : Dinode := ⟨T_FILE, 0, 0, 1, size, fun _ => 0⟩

def tinyState (size : Uint) : State :=
  let s : State :=
    { blocks := fun b k => if b = 3 ∧ k = 0 then 15 else 0
      logged := []
      itable := fun ip =>
        { tinyFile size with
          inum := if ip = fileEntry then 1 else 0
          ref := if ip = fileEntry then 1 else 0
          locked := false
          valid := true }
      ftable := fun _ =>
        { type := .inode, ref := 1, readable := true, writable := true, ip := fileEntry, off := 0, major := 0 }
      ofile := fun _ => none
      cwd := fileEntry }
  s.setDinode (tinyDisk 4) 1 (tinyFile size)

variable {n size : Uint}

theorem tiny_dinode : (tinyState size).dinode (tinyDisk n) 1 = tinyFile size := by
  have h : (tinyState size).dinode (tinyDisk n) 1 = if 1 = 1 then tinyFile size else _ := dinode_setDinode 1 1 _
  exact h

theorem tiny_type : ((tinyState size).dinode (tinyDisk n) 2).type = 0 := by
  have h : (tinyState size).dinode (tinyDisk n) 2 = if 2 = 1 then tinyFile size else _ := dinode_setDinode 1 2 _
  rw [h, if_neg (by decide)]
  have hz : (fun k => if (tinyDisk n).IBLOCK 2 = 3 ∧ k = 0 then (15 : Byte) else 0) = fun _ => 0 :=
    funext fun k => if_neg fun hc => absurd hc.1 (show ¬ 2 = 3 by decide)
  unfold State.dinode
  simp only [hz]
  show (0#8 ++ 0#8 : BitVec 16) = 0
  decide

theorem tiny_inum {i : Nat} (h : (tinyDisk n).Inum i) : i = 1 ∨ i = 2 := by
  have hlt : i < 3 := h.2
  have hpos := h.1
  omega

theorem tiny_bit {b : Nat} (hb : b < 8) : (tinyState size).bit (tinyDisk n) b = decide (b < 4) := by
  have hblock : (tinyState size).blocks 3 = fun k => if k = 0 then 15 else 0 := by
    unfold tinyState
    rw [setDinode_of_ne _ (by decide)]
    simp
  have hB : (tinyDisk n).BBLOCK b = 3 := by
    unfold Superblock.BBLOCK
    rw [Nat.div_eq_of_lt (lt_of_lt_of_le hb (by decide))]
    rfl
  unfold State.bit
  rw [hB, hblock, Nat.mod_eq_of_lt (lt_of_lt_of_le hb (by decide)), Nat.div_eq_of_lt hb]
  clear hblock hB
  revert b
  decide

theorem tiny_own (hn : n.toNat ≤ 8) : Own (tinyDisk n) ((tinyState size).addrs (tinyDisk n)) (tinyState size) := by
  have haddrs : ∀ i, (tinyState size).addrs (tinyDisk n) i = fun _ => 0 := by
    intro i
    unfold State.addrs
    split
    · next h =>
      rcases tiny_inum h.1 with rfl | rfl
      · rw [tiny_dinode]
        rfl
      · exact absurd tiny_type h.2
    · rfl
  have hslot : ∀ i k, slotAddr (tinyState size).blocks ((tinyState size).addrs (tinyDisk n) i) k = 0 := by
    intro i k
    rw [haddrs]
    exact slotAddr_zero _ k
  refine ⟨⟨⟨fun p q hp => absurd (hslot p.1 p.2) hp, fun b hb => iff_of_false ?_ ?_⟩⟩, fun b hb hlt => ?_⟩
  · rintro ⟨hlow, hlt, hbit⟩
    have hlow : 3 + n.toNat / BPB + 1 ≤ b.toNat := hlow
    have hlt : b.toNat < n.toNat := hlt
    rw [Nat.div_eq_of_lt (lt_of_le_of_lt hn (by decide))] at hlow
    rw [tiny_bit (by omega), decide_eq_true_iff] at hbit
    omega
  · rintro ⟨p, rfl⟩
    exact hb (hslot p.1 p.2)
  · have hlow : b < 3 + n.toNat / BPB + 1 := hb
    rw [Nat.div_eq_of_lt (lt_of_le_of_lt hn (by decide))] at hlow
    rw [tiny_bit (by omega), decide_eq_true_iff]
    omega

theorem tiny_ordered : (tinyDisk n).Ordered := by
  show 3 / IPB + 2 < 3
  decide

theorem tiny_ref {ip : Ip} (h : 0 < ((tinyState size).itable ip).ref) : ip = fileEntry := by
  by_contra hne
  have h0 : ((tinyState size).itable ip).ref = 0 := if_neg hne
  rw [h0] at h
  exact Nat.lt_irrefl 0 h

theorem tiny_entry : ((tinyState size).itable fileEntry).ref = 1 ∧ ((tinyState size).itable fileEntry).inum = 1 :=
  ⟨show (if fileEntry = fileEntry then 1 else 0) = 1 from if_pos rfl,
    show (if fileEntry = fileEntry then 1 else 0) = 1 from if_pos rfl⟩

theorem tiny_inCore : (tinyState size).InCore fileEntry := ⟨by rw [tiny_entry.1]; exact Nat.one_pos, rfl⟩

theorem tiny_wf (hn : n.toNat ≤ 8) : (tinyState 0).Wf (tinyDisk n) := by
  constructor
  case own =>
    exact tiny_own hn
  case inum =>
    intro ip hr _
    rw [tiny_ref hr, tiny_entry.2]
    exact ⟨Nat.one_pos, show 1 < 3 by decide⟩
  case uniq =>
    intro ip jp hi hj _
    rw [tiny_ref hi, tiny_ref hj]
  case synced =>
    intro ip hr _
    rw [tiny_ref hr]
    refine ⟨?_, by decide⟩
    rw [tiny_entry.2, tiny_dinode]
    rfl
  case whole =>
    intro i hi ht
    rcases tiny_inum hi with rfl | rfl
    · rw [tiny_dinode]
      exact whole_empty _ rfl
    · exact absurd tiny_type ht

/-- A byte is written, and then it is read. -/
theorem files_are_byte_arrays_tiny : ∃ rs u r v w,
    runOps (tinyDisk 8) [.writei fileEntry (fun _ => some 7) 0 1] (tinyState 0) = .ok (rs, u) ∧
      transaction ((FileOp.readi fileEntry (fun _ => true) 0 1).run (tinyDisk 8)) u = .ok (r, v) ∧
      Acts (tinyDisk 8) (.readi fileEntry (fun _ => true) 0 1) u.beginOp r v ∧
      runOps (tinyDisk 8) [.writei fileEntry (fun _ => some 7) 0 1, .readi fileEntry (fun _ => true) 0 1]
        (tinyState 0) = .ok w := by
  have hops : ∀ op ∈ [FileOp.writei fileEntry (fun _ => some 7) 0 1, .readi fileEntry (fun _ => true) 0 1],
      (tinyState 0).InCore op.ip ∧ op.Copies := by
    intro op hop
    rcases List.mem_cons.1 hop with rfl | hop
    · exact ⟨tiny_inCore, fun _ _ => by simp⟩
    · rw [List.mem_singleton.1 hop]
      exact ⟨tiny_inCore, fun _ _ => rfl⟩
  have hwrite : (FileOp.writei fileEntry (fun _ => some 7) 0 1).Small (tinyDisk 8) := by
    show 8 / BPB + 1 + (1 / BSIZE + 2) + 2 + 2 ≤ LOGBLOCKS
    decide
  have hread : (FileOp.readi fileEntry (fun _ => true) 0 1).Small (tinyDisk 8) := by
    show 0 + 2 ≤ LOGBLOCKS
    decide
  have hsmall : ∀ op ∈ [FileOp.writei fileEntry (fun _ => some 7) 0 1, .readi fileEntry (fun _ => true) 0 1],
      op.Small (tinyDisk 8) := by
    intro op hop
    rcases List.mem_cons.1 hop with rfl | hop
    · exact hwrite
    · rw [List.mem_singleton.1 hop]
      exact hread
  obtain ⟨hnext, hall, -⟩ := files_are_byte_arrays tiny_ordered (tiny_wf (n := 8) (by decide)) hops
  obtain ⟨rs, w, hw⟩ := hall hsmall
  obtain ⟨_, u, hfirst, -⟩ := bind_returned hw
  have hpre : runOps (tinyDisk 8) [.writei fileEntry (fun _ => some 7) 0 1] (tinyState 0) = .ok (_, u) :=
    (bind_of_ok hfirst).trans rfl
  obtain ⟨r, v, hacts, -, heq, hfits⟩ := hnext [_] _ [] _ u rfl hpre
  rw [if_pos (hfits hread)] at heq
  exact ⟨_, u, r, v, (rs, w), hpre, heq, hacts, hw⟩

/-- Where a block of a file is missing and the disk is full, `readi` reads nothing. -/
theorem readi_hole : Own (tinyDisk 4) ((tinyState 1).addrs (tinyDisk 4)) (tinyState 1) ∧
    (tinyState 1).InCore fileEntry ∧ ((tinyState 1).content (tinyDisk 4) 1).length = 1 ∧
    readi (tinyDisk 4) fileEntry (fun _ => true) 0 1 (tinyState 1) = .ok ((0, []), tinyState 1) := by
  refine ⟨tiny_own (by decide), tiny_inCore, ?_, ?_⟩
  · unfold State.content
    rw [tiny_dinode, bytesOf, List.length_map, List.length_range]
    rfl
  · have hfull : balloc (tinyDisk 4) (tinyState 1) = .ok (0, tinyState 1) := by
      have hnone : (List.range (tinyDisk 4).size.toNat).find? (fun b => !(tinyState 1).bit (tinyDisk 4) b) = none := by
        rw [List.find?_eq_none]
        intro b hb
        have hlt : b < 4 := List.mem_range.1 hb
        rw [tiny_bit (by omega), decide_eq_true hlt]
        decide
      unfold balloc
      refine (bind_of_ok (a := tinyState 1) (t := tinyState 1) rfl).trans ?_
      rw [hnone]
      rfl
    have hmap : bmap (tinyDisk 4) fileEntry (0 / BSIZE) (tinyState 1) = .ok (0, tinyState 1) := by
      unfold bmap
      rw [dif_pos (by decide)]
      unfold allocAddr
      refine (bind_of_ok (a := tinyState 1) (t := tinyState 1) rfl).trans ?_
      have h0 : ∀ k, ((tinyState 1).itable fileEntry).addrs k = 0 := fun _ => rfl
      rw [h0, if_neg (not_not.2 rfl), bind_of_ok hfull]
      rfl
    have hread : readi (tinyDisk 4) fileEntry (fun _ => true) 0 1 (tinyState 1) =
        readiLoop (tinyDisk 4) fileEntry (fun _ => true) 0 1 (tinyState 1) := rfl
    rw [hread, readiLoop, dif_neg Nat.one_ne_zero, bind_of_ok hmap, if_pos rfl]
    rfl

end Xv6.Blocks
