import Xv6.Blocks.Directory

set_option autoImplicit false

/-! # What the operations do to the map of a directory

`dirlookup` looks a name up in the map, `dirlink` adds a binding to it, and `sys_unlink` removes one. -/

namespace Xv6.Blocks

open Xv6.Lib
open Xv6.Fs (NINODE NFILE NDEV ROOTINO DIRSIZ MAXFILE Ip)

variable {sb : Superblock} {s t u : State} {dp ip : Ip} {inum j : Nat}

/-! ## Writing an entry -/

/-- An entry of the directory `dp` has been written, and nothing else. -/
structure Entered (sb : Superblock) (dp : Ip) (s t : State) : Prop where
  wf : t.Wf sb
  core : t.InCore dp
  type : (t.itable dp).type = (s.itable dp).type
  inum : (t.itable dp).inum = (s.itable dp).inum
  refs : ∀ jp, (t.itable jp).ref = (s.itable jp).ref ∧ (t.itable jp).inum = (s.itable jp).inum

/-- `writei` writes a whole entry or nothing. It writes the entry, unless this is a new one for which there
    is no room. -/
theorem writeEntry_spec (hsb : sb.Ordered) (h : DirSized sb dp s) {src : Source} {e : List Byte}
    (hsrc : ∀ k, k < DIRENT → src k ≠ none) (he : eitherCopyin src DIRENT = e)
    (hj : j ≤ (s.dir sb dp).length / DIRENT) :
    ∃ r t, writei sb dp src (BitVec.ofNat 32 (DIRENT * j)) (BitVec.ofNat 32 DIRENT) s = .ok (r, t) ∧
      Entered sb dp s t ∧ ((r = DIRENT ∧ t.dir sb dp = splice (s.dir sb dp) (DIRENT * j) e) ∨
        (r ≠ DIRENT ∧ t.dir sb dp = s.dir sb dp ∧ j = (s.dir sb dp).length / DIRENT ∧
          (Full sb t ∨ (s.dir sb dp).length = MAXFILE * BSIZE))) := by
  have hlen : (s.itable dp).size.toNat = (s.dir sb dp).length := (length_content h.wf h.core).symm
  have hle := h.le_max
  have hmax : MAXFILE * BSIZE < 2 ^ 31 := by decide
  have hD : (BitVec.ofNat 32 DIRENT).toNat = DIRENT := rfl
  have hpos : 0 < DIRENT := by decide
  have hsmall : DIRENT < 2 ^ 31 := by decide
  obtain ⟨m, hm⟩ := h.size
  have hdiv : (s.dir sb dp).length / DIRENT = m := by rw [hm, Nat.mul_div_cancel_left m hpos]
  rw [hdiv] at hj ⊢
  have hin : DIRENT * j ≤ (s.dir sb dp).length := hm ▸ Nat.mul_le_mul_left _ hj
  have hoff : (BitVec.ofNat 32 (DIRENT * j)).toNat = DIRENT * j := by
    rw [BitVec.toNat_ofNat, Nat.mod_eq_of_lt (by omega)]
  have hadd : (BitVec.ofNat 32 (DIRENT * j) + BitVec.ofNat 32 DIRENT).toNat = DIRENT * j + DIRENT := by
    rw [BitVec.toNat_add, hoff, hD, Nat.mod_eq_of_lt (by omega)]
  by_cases hr : Refused (s.itable dp).size (BitVec.ofNat 32 (DIRENT * j)) (BitVec.ofNat 32 DIRENT)
  · have hroom : MAXFILE * BSIZE < DIRENT * j + DIRENT := by
      rcases hr with hc | hc | hc
      · rw [BitVec.lt_def, hoff] at hc
        omega
      · rw [BitVec.lt_def, hoff, hadd] at hc
        omega
      · rwa [hadd] at hc
    have hblocks : MAXFILE * BSIZE = DIRENT * (MAXFILE * 64) := by decide
    have hm64 : m ≤ MAXFILE * 64 := Nat.le_of_mul_le_mul_left (by rwa [← hm, ← hblocks]) hpos
    have hj64 : MAXFILE * 64 < j + 1 := Nat.lt_of_mul_lt_mul_left (a := DIRENT) (by rwa [← hblocks, Nat.mul_succ])
    have hjm : j = m ∧ m = MAXFILE * 64 := by omega
    refine ⟨-1, s, writei_refused hr, ⟨h.wf, h.core, rfl, rfl, fun _ => ⟨rfl, rfl⟩⟩, .inr ⟨by decide, rfl, hjm.1, .inr ?_⟩⟩
    rw [hm, hjm.2, hblocks]
  · obtain ⟨tot, t, hok, hw⟩ := writei_spec hsb h.wf h.core src _ _ hr
    rw [hoff, hD] at hw
    have hcore := core_of_table hw.table rfl rfl rfl
    have hinum := (hcore dp).2.2
    have hself : (t.itable dp).type = (s.itable dp).type := by rw [hw.table, Function.update_self]
    have hdir : t.dir sb dp = splice (s.dir sb dp) (DIRENT * j) (eitherCopyin src tot) := by
      unfold State.dir
      rw [hinum, hw.content hsrc, splice, eitherCopyin_take hw.le hsrc]
    refine ⟨tot, t, hok, ⟨hw.wf, ⟨?_, ?_⟩, hself, hinum, fun jp => ⟨(hcore jp).1, (hcore jp).2.2⟩⟩, ?_⟩
    · rw [(hcore dp).1]
      exact h.core.1
    · rw [(hcore dp).2.1]
      exact h.core.2
    · by_cases htot : tot = DIRENT
      · exact .inl ⟨by rw [htot], by rw [hdir, htot, he]⟩
      · have hlt : tot < DIRENT := Nat.lt_of_le_of_ne hw.le htot
        obtain ⟨hfull, hnot⟩ := hw.full hsrc hlt
        -- an entry is in one block
        have hblock : (DIRENT * j + tot) / BSIZE = DIRENT * j / BSIZE := by
          rw [show DIRENT = 16 from rfl] at hlt ⊢
          rw [show BSIZE = 1024 from rfl]
          omega
        have hnot0 : ¬ t.Has dp (DIRENT * j) := by
          unfold State.Has at hnot ⊢
          rwa [hblock] at hnot
        have h0 : tot = 0 := by
          by_contra hne
          exact hnot0 (hw.has _ (Nat.le_refl _) (by omega))
        have hend : j = m := by
          refine Nat.le_antisymm hj (Nat.not_lt.1 fun hlt' => hnot0 ?_)
          have hhas : s.Has dp (DIRENT * j) := by
            refine (h.wf.whole_ip h.core).2 _ ?_
            rw [hlen, hm]
            exact Nat.mul_lt_mul_of_pos_left hlt' hpos
          unfold State.Has at hhas ⊢
          rwa [hw.keep _ hhas]
        refine .inr ⟨by rw [h0]; decide, ?_, hend, .inl hfull⟩
        rw [hdir, h0, eitherCopyin, splice_nil]

theorem Entered.dirOk (h : Entered sb dp s t) (hs : DirOk sb dp s) (hsize : DIRENT ∣ (t.dir sb dp).length)
    (hdist : Distinct (dirSlot (t.dir sb dp)) ((t.dir sb dp).length / DIRENT)) : DirOk sb dp t :=
  ⟨⟨h.wf, h.core, h.type.trans hs.type, hsize⟩, hdist⟩

/-- The directory with an entry overwritten, or added at the end. -/
theorem splice_size {c e : List Byte} (hc : DIRENT ∣ c.length) (he : e.length = DIRENT) (hj : j ≤ c.length / DIRENT) :
    DIRENT ∣ (splice c (DIRENT * j) e).length ∧
      (splice c (DIRENT * j) e).length / DIRENT = max (c.length / DIRENT) (j + 1) := by
  have hpos : 0 < DIRENT := by decide
  obtain ⟨m, hm⟩ := hc
  rw [hm, Nat.mul_div_cancel_left m hpos] at hj
  have hlen : (splice c (DIRENT * j) e).length = DIRENT * max m (j + 1) := by
    rw [length_splice (hm ▸ Nat.mul_le_mul_left _ hj), he, hm, ← Nat.mul_succ, ← Nat.mul_max_mul_left]
  rw [hlen, hm, Nat.mul_div_cancel_left _ hpos, Nat.mul_div_cancel_left m hpos]
  exact ⟨Nat.dvd_mul_right _ _, rfl⟩

theorem dirSlot_splice {c e : List Byte} (he : e.length = DIRENT) (hj : j ≤ c.length / DIRENT) (i : Nat) :
    dirSlot (splice c (DIRENT * j) e) i = if i = j then binding e else dirSlot c i := by
  unfold dirSlot
  rw [entryAt_splice he (le_trans (Nat.mul_le_mul_left _ hj) (Nat.mul_div_le _ _))]
  split
  · rfl
  · rfl

/-! ## `dirlookup` -/

/-- The binding of the name is in entry `j`. -/
structure Finds (sb : Superblock) (dp : Ip) (name : Buf) (s : State) (inum : BitVec 16) (j : Nat) : Prop where
  map : dirMap (s.dir sb dp) (dirKey name) = some inum
  lt : j < (s.dir sb dp).length / DIRENT
  slot : dirSlot (s.dir sb dp) j = some (dirKey name, inum)

/-- The name is in the directory, and its inode cannot be got. -/
def Stuck (sb : Superblock) (dp : Ip) (name : Buf) (s : State) : Prop :=
  ∃ inum, dirMap (s.dir sb dp) (dirKey name) = some inum ∧ TableFull s inum.toNat

theorem dirlookup_spec (hsb : sb.Ordered) (h : DirOk sb dp s) (name : Buf) :
    (dirlookup sb dp name s = .error (.iget, s) ∧ Stuck sb dp name s) ∨
      (dirlookup sb dp name s = .ok (none, s) ∧ dirMap (s.dir sb dp) (dirKey name) = none) ∨
      ∃ inum ip j t, dirlookup sb dp name s = .ok (some (ip, DIRENT * j), t) ∧ Finds sb dp name s inum j ∧
        Got inum.toNat ip s t ∧ DirOk sb dp t ∧ t.dir sb dp = s.dir sb dp := by
  rw [dirlookup_eq hsb h.toDirSized]
  cases hl : lookup (dirSlot (s.dir sb dp)) ((s.dir sb dp).length / DIRENT) (dirKey name) with
  | none =>
      refine .inr (.inl ⟨rfl, ?_⟩)
      rw [dirMap, mapOf, hl]
      rfl
  | some p =>
      obtain ⟨j, inum⟩ := p
      obtain ⟨hj, hslot⟩ := slot_of_lookup hl
      have hmap : dirMap (s.dir sb dp) (dirKey name) = some inum := by
        rw [dirMap, mapOf, hl]
        rfl
      rcases iget_cases s inum.toNat with ⟨hpanic, hfull⟩ | ⟨ip, t, hok, hgot⟩
      · exact .inl ⟨bind_of_error _ hpanic, inum, hmap, hfull⟩
      · obtain ⟨hcore, hinum, hd⟩ := hgot.kept h.core
        obtain ⟨hdir, hsame⟩ := h.retable (hgot.wf h.wf) hgot.blocks hcore hinum hd
        exact .inr (.inr ⟨inum, ip, j, t, bind_of_ok hok, ⟨hmap, hj, hslot⟩, hgot, hdir, hsame⟩)

/-! ## `dirlink` -/

/-- `iput` takes back what `iget` did. -/
theorem Got.iput (h : Got inum ip s t) (hs : DirOk sb dp s) :
    ∃ u, Blocks.iput sb ip t = .ok (⟨⟩, u) ∧ DirOk sb dp u ∧ u.dir sb dp = s.dir sb dp := by
  have hrun : Blocks.iput sb ip t = .ok (⟨⟩, t.setInode ip { t.itable ip with ref := (t.itable ip).ref - 1 }) := by
    refine iput_kept ?_
    rintro ⟨h1, hv, -⟩
    rcases h.entry with ⟨href, -, he⟩ | ⟨-, -, -, hinv⟩
    · rw [he] at h1
      exact absurd h1 (by show (s.itable ip).ref + 1 ≠ 1; omega)
    · rw [hinv] at hv
      cases hv
  obtain ⟨u, hu⟩ : ∃ u, t.setInode ip { t.itable ip with ref := (t.itable ip).ref - 1 } = u := ⟨_, rfl⟩
  rw [hu] at hrun
  have hself : u.itable ip = { t.itable ip with ref := (t.itable ip).ref - 1 } := by rw [← hu, setInode_self]
  have hother : ∀ jp, jp ≠ ip → u.itable jp = s.itable jp := by
    intro jp hj
    rw [← hu, setInode_of_ne _ hj, h.others jp hj]
  -- an entry that is held is what it was before `iget`
  have hheld : ∀ jp, 0 < (u.itable jp).ref → u.itable jp = s.itable jp := by
    intro jp hr
    by_cases hj : jp = ip
    · subst hj
      rw [hself] at hr ⊢
      rcases h.entry with ⟨-, -, he⟩ | ⟨-, -, h1, -⟩
      · rw [he]
        rfl
      · rw [h1] at hr
        exact absurd hr (Nat.lt_irrefl 0)
    · exact hother jp hj
  have hdp : u.itable dp = s.itable dp := by
    by_cases hd : dp = ip
    · subst hd
      rw [hself]
      rcases h.entry with ⟨-, -, he⟩ | ⟨h0, -⟩
      · rw [he]
        rfl
      · exact absurd h0 (Nat.pos_iff_ne_zero.1 hs.core.1)
    · exact hother dp hd
  have hblocks : u.blocks = s.blocks := by
    rw [← hu]
    exact h.blocks
  have hwf : u.Wf sb := by
    refine hs.wf.retable hblocks (fun jp hr hv => ?_) fun jp kp hj hk hn => ?_
    · have he := hheld jp hr
      rw [he] at hr hv ⊢
      exact ⟨hr, hv, rfl, rfl⟩
    · have hje := hheld jp hj
      have hke := hheld kp hk
      rw [hje] at hj hn
      rw [hke] at hk hn
      exact hs.wf.uniq jp kp hj hk hn
  have hcore : u.InCore dp := by
    unfold State.InCore
    rw [hdp]
    exact hs.core
  obtain ⟨hdir, hsame⟩ := hs.retable hwf hblocks hcore (by rw [hdp]) (by rw [hdp])
  exact ⟨u, hrun, hdir, hsame⟩

theorem kernelSrc_ne_none (f : Nat → Byte) {n : Nat} : ∀ k, k < n → kernelSrc f k ≠ none :=
  fun _ _ => Option.some_ne_none _

theorem eitherCopyin_kernelSrc (f : Nat → Byte) (n : Nat) : eitherCopyin (kernelSrc f) n = (List.range n).map f := by
  induction n generalizing f with
  | zero => rfl
  | succ n ih =>
      rw [List.range_succ_eq_map, List.map_cons, List.map_map]
      show f 0 :: eitherCopyin (kernelSrc fun k => f (k + 1)) n = _
      rw [ih]
      rfl

theorem map_getD_range (e : List Byte) : ((List.range e.length).map fun k => e.getD k 0) = e := by
  refine List.ext_getElem ?_ fun k h1 h2 => ?_
  · rw [List.length_map, List.length_range]
  · rw [List.getElem_map, List.getElem_range, List.getD_eq_getElem?_getD, List.getElem?_eq_getElem h2, Option.getD_some]

/-- Where `dirlink` puts the new entry: in the first empty one, or behind the last. -/
def slotFor (c : List Byte) : Nat :=
  ((List.range (c.length / DIRENT)).find? fun j => decide (deInum (entryAt c j) = 0)).getD (c.length / DIRENT)

theorem slotFor_spec (c : List Byte) :
    slotFor c ≤ c.length / DIRENT ∧ (slotFor c < c.length / DIRENT → dirSlot c (slotFor c) = none) := by
  unfold slotFor
  cases hfind : (List.range (c.length / DIRENT)).find? fun j => decide (deInum (entryAt c j) = 0) with
  | none => exact ⟨Nat.le_refl _, fun hlt => absurd hlt (Nat.lt_irrefl _)⟩
  | some j =>
      have hmem := List.mem_of_find?_eq_some hfind
      have hfree := List.find?_some hfind
      refine ⟨Nat.le_of_lt (List.mem_range.1 hmem), fun _ => ?_⟩
      show binding (entryAt c j) = none
      rw [binding, if_pos (of_decide_eq_true hfree)]

/-- The new entry is written once the name is known to be absent. -/
theorem dirlink_absent (hsb : sb.Ordered) (h : DirSized sb dp s) (name : Buf) (inum : Nat)
    (hlook : dirlookup sb dp name s = .ok (none, s)) : dirlink sb dp name inum s = (do
      let r ← writei sb dp (kernelSrc fun k => (dirent (BitVec.ofNat 16 inum) name).getD k 0)
        (BitVec.ofNat 32 (DIRENT * slotFor (s.dir sb dp))) (BitVec.ofNat 32 DIRENT)
      if r ≠ DIRENT then pure (-1) else pure 0 : K Int) s := by
  have hlen : (s.itable dp).size.toNat = (s.dir sb dp).length := (length_content h.wf h.core).symm
  obtain ⟨m, hm⟩ := h.size
  have hpos : 0 < DIRENT := by decide
  have hround : (DIRENT * m + (DIRENT - 1)) / DIRENT * DIRENT = DIRENT * m := by
    rw [Nat.mul_add_div hpos, Nat.div_eq_of_lt (by decide), Nat.add_zero, Nat.mul_comm]
  have hempty : emptyLoop sb dp ((List.range ((s.dir sb dp).length / DIRENT)).map (DIRENT * ·)) s = _ :=
    emptyLoop_eq hsb h fun j hj => List.mem_range.1 hj
  unfold dirlink
  rw [bind_of_ok hlook]
  refine (bind_of_ok (a := s) (t := s) rfl).trans ?_
  rw [offsets_eq h, bind_of_ok hempty, hlen]
  have hoff : (((List.range ((s.dir sb dp).length / DIRENT)).find? fun j =>
        decide (deInum (entryAt (s.dir sb dp) j) = 0)).map (DIRENT * ·)).getD
        (((s.dir sb dp).length + (DIRENT - 1)) / DIRENT * DIRENT) = DIRENT * slotFor (s.dir sb dp) := by
    unfold slotFor
    rw [hm, hround, Nat.mul_div_cancel_left m hpos]
    cases (List.range m).find? fun j => decide (deInum (entryAt (s.dir sb dp) j) = 0) with
    | none => rfl
    | some j => rfl
  rw [hoff]

/-- What `dirlink` does to the map, which has returned `r`. -/
def Linked (sb : Superblock) (dp : Ip) (name : Buf) (inum : Nat) (s : State) (r : Int) (t : State) : Prop :=
  (r = 0 ∧ dirMap (s.dir sb dp) (dirKey name) = none ∧
    dirMap (t.dir sb dp) = Function.update (dirMap (s.dir sb dp)) (dirKey name) (some (BitVec.ofNat 16 inum))) ∨
  (r = -1 ∧ dirMap (t.dir sb dp) = dirMap (s.dir sb dp) ∧
    (dirMap (s.dir sb dp) (dirKey name) ≠ none ∨ Full sb t ∨ (s.dir sb dp).length = MAXFILE * BSIZE))

theorem dirlink_spec (hsb : sb.Ordered) (h : DirOk sb dp s) (name : Buf) {inum : Nat} (hpos : 0 < inum)
    (hlt : inum < 2 ^ 16) : (dirlink sb dp name inum s = .error (.iget, s) ∧ Stuck sb dp name s) ∨
      ∃ r t, dirlink sb dp name inum s = .ok (r, t) ∧ DirOk sb dp t ∧ Linked sb dp name inum s r t := by
  rcases dirlookup_spec hsb h name with ⟨hpanic, hstuck⟩ | ⟨hnone, hmap⟩ | ⟨inum', ip, j, t, hok, hfinds, hgot, -, -⟩
  · exact .inl ⟨bind_of_error _ hpanic, hstuck⟩
  · right
    have hinum : BitVec.ofNat 16 inum ≠ 0 := by
      intro hz
      have hnat := congrArg BitVec.toNat hz
      rw [BitVec.toNat_ofNat, Nat.mod_eq_of_lt hlt] at hnat
      exact absurd hnat (Nat.ne_of_gt hpos)
    have hde := length_dirent (BitVec.ofNat 16 inum) name
    obtain ⟨hj, hfree⟩ := slotFor_spec (s.dir sb dp)
    have hcopy : eitherCopyin (kernelSrc fun k => (dirent (BitVec.ofNat 16 inum) name).getD k 0) DIRENT =
        dirent (BitVec.ofNat 16 inum) name := by
      rw [eitherCopyin_kernelSrc, ← hde, map_getD_range]
    obtain ⟨r, t, hok, hent, hres⟩ := writeEntry_spec hsb h.toDirSized (kernelSrc_ne_none _) hcopy hj
    rw [dirlink_absent hsb h.toDirSized name inum hnone, bind_of_ok hok]
    rcases hres with ⟨rfl, hdir⟩ | ⟨hr, hdir, hend, hroom⟩
    · obtain ⟨hdvd, hsize⟩ := splice_size h.size hde hj
      have hslot := dirSlot_splice hde hj
      have hself := (hslot (slotFor (s.dir sb dp))).trans (if_pos rfl)
      obtain ⟨hdist, hnew⟩ := h.distinct.insert hmap hfree hsize hj (hself.trans (binding_dirent hinum name))
        fun i hi => (hslot i).trans (if_neg hi)
      rw [← hdir] at hdvd hdist hnew
      exact ⟨0, t, congrFun (if_neg (not_not.2 rfl)) t, hent.dirOk h hdvd hdist, .inl ⟨rfl, hmap, hnew⟩⟩
    · refine ⟨-1, t, congrFun (if_pos hr) t, hent.dirOk h ?_ ?_, .inr ⟨rfl, by rw [hdir], .inr hroom⟩⟩
      · rw [hdir]
        exact h.size
      · rw [hdir]
        exact h.distinct
  · obtain ⟨u, hput, hdir, hsame⟩ := hgot.iput h
    refine .inr ⟨-1, u, (bind_of_ok hok).trans (bind_of_ok hput), hdir, .inr ⟨rfl, by rw [hsame], .inl ?_⟩⟩
    rw [hfinds.map]
    exact Option.some_ne_none _

/-! ## `sys_unlink` -/

/-- The entry that `dirlookup` has found is zeroed. -/
theorem clearDirent_spec (hsb : sb.Ordered) (h : DirOk sb dp s) {name : Buf} {inum : BitVec 16} (hf : Finds sb dp name s inum j) :
    ∃ t, clearDirent sb dp (DIRENT * j) s = .ok ((DIRENT : Int), t) ∧ DirOk sb dp t ∧ Entered sb dp s t ∧
      dirMap (t.dir sb dp) = Function.update (dirMap (s.dir sb dp)) (dirKey name) none := by
  have hcopy : eitherCopyin (kernelSrc fun _ => 0) DIRENT = List.replicate DIRENT 0 := by
    rw [eitherCopyin_kernelSrc, List.map_const', List.length_range]
  have hlen : (List.replicate DIRENT (0 : Byte)).length = DIRENT := List.length_replicate
  have hj := Nat.le_of_lt hf.lt
  obtain ⟨r, t, hok, hent, hres⟩ := writeEntry_spec hsb h.toDirSized (kernelSrc_ne_none _) hcopy hj
  rcases hres with ⟨rfl, hdir⟩ | ⟨-, -, hend, -⟩
  · obtain ⟨hdvd, hsize⟩ := splice_size h.size hlen hj
    rw [Nat.max_eq_left hf.lt] at hsize
    have hslot := dirSlot_splice hlen hj
    have hself := (hslot j).trans (if_pos rfl)
    obtain ⟨hdist, hnew⟩ := h.distinct.erase hf.lt hf.slot (hself.trans binding_zero)
      fun i hi => (hslot i).trans (if_neg hi)
    rw [← hdir] at hdvd hsize hdist hnew
    have hdist' : Distinct (dirSlot (t.dir sb dp)) ((t.dir sb dp).length / DIRENT) := by
      rw [hsize]
      exact hdist
    refine ⟨t, hok, hent.dirOk h hdvd hdist', hent, ?_⟩
    rw [dirMap, hsize]
    exact hnew
  · exact absurd hend (Nat.ne_of_lt hf.lt)

/-! ## Sequences of operations -/

inductive DirOp where
  | lookup (name : Buf)
  | link (name : Buf) (inum : Nat)
  | unlink (name : Buf)

/-- The number of an inode fits into an entry. -/
def DirOp.Ok : DirOp → Prop
  | .lookup _ => True
  | .link _ inum => 0 < inum ∧ inum < 2 ^ 16
  | .unlink _ => True

def DirOp.name : DirOp → Buf
  | .lookup name => name
  | .link name _ => name
  | .unlink name => name

/-- What `dirlookup` has found, and what else is returned. `sys_unlink` returns -1 if there is no entry. -/
def DirOp.run (sb : Superblock) (dp : Ip) : DirOp → K (Option (Ip × Nat) × Int)
  | .lookup name => do
    let r ← dirlookup sb dp name
    pure (r, 0)
  | .link name inum => do
    let r ← dirlink sb dp name inum
    pure (none, r)
  | .unlink name => do
    match ← dirlookup sb dp name with
    | none => pure (none, -1)
    | some (ip, off) => do
      let r ← clearDirent sb dp off
      pure (some (ip, off), r)

def runDirOps (sb : Superblock) (dp : Ip) : List DirOp → K (List (Option (Ip × Nat) × Int))
  | [] => pure []
  | op :: ops => do
    let r ← op.run sb dp
    let rs ← runDirOps sb dp ops
    pure (r :: rs)

/-- `r` is what the map says of the name: its inode, and the offset of its entry. -/
def Found (sb : Superblock) (dp : Ip) (name : Buf) (s : State) (r : Option (Ip × Nat)) (t : State) : Prop :=
  match dirMap (s.dir sb dp) (dirKey name) with
  | none => r = none
  | some inum => ∃ ip j, r = some (ip, DIRENT * j) ∧ Finds sb dp name s inum j ∧
    0 < (t.itable ip).ref ∧ (t.itable ip).inum = inum.toNat

/-- What the operation does to the map, which has returned `r`. -/
def DirOp.Does (sb : Superblock) (dp : Ip) (s : State) (r : Option (Ip × Nat) × Int) (t : State) : DirOp → Prop
  | .lookup name => Found sb dp name s r.1 t ∧ dirMap (t.dir sb dp) = dirMap (s.dir sb dp)
  | .link name inum => Linked sb dp name inum s r.2 t
  | .unlink name => Found sb dp name s r.1 t ∧ r.2 = (if r.1 = none then -1 else (DIRENT : Int)) ∧
    dirMap (t.dir sb dp) = Function.update (dirMap (s.dir sb dp)) (dirKey name) none

/-- The operation returns and does what it does to a map, or its inode cannot be got. -/
def DirOp.Refines (sb : Superblock) (dp : Ip) (s : State) (op : DirOp) : Prop :=
  (op.run sb dp s = .error (.iget, s) ∧ Stuck sb dp op.name s) ∨
    ∃ r t, op.run sb dp s = .ok (r, t) ∧ DirOk sb dp t ∧ op.Does sb dp s r t

theorem found_none {name : Buf} (hmap : dirMap (s.dir sb dp) (dirKey name) = none) : Found sb dp name s none t := by
  unfold Found
  rw [hmap]

theorem found_some {name : Buf} {inum : BitVec 16} (hf : Finds sb dp name s inum j) (href : 0 < (t.itable ip).ref)
    (hinum : (t.itable ip).inum = inum.toNat) : Found sb dp name s (some (ip, DIRENT * j)) t := by
  unfold Found
  rw [hf.map]
  exact ⟨ip, j, rfl, hf, href, hinum⟩

theorem DirOp.refines (hsb : sb.Ordered) (h : DirOk sb dp s) {op : DirOp} (hop : op.Ok) : op.Refines sb dp s := by
  cases op with
  | lookup name =>
      rcases dirlookup_spec hsb h name with ⟨hpanic, hstuck⟩ | ⟨hok, hmap⟩ | ⟨inum, ip, j, t, hok, hf, hgot, ht, hsame⟩
      · exact .inl ⟨bind_of_error _ hpanic, hstuck⟩
      · exact .inr ⟨(none, 0), s, bind_of_ok hok, h, found_none hmap, rfl⟩
      · exact .inr ⟨(some (ip, DIRENT * j), 0), t, bind_of_ok hok, ht, found_some hf hgot.ref hgot.num, by rw [hsame]⟩
  | link name inum =>
      rcases dirlink_spec hsb h name hop.1 hop.2 with ⟨hpanic, hstuck⟩ | ⟨r, t, hok, ht, hlinked⟩
      · exact .inl ⟨bind_of_error _ hpanic, hstuck⟩
      · exact .inr ⟨(none, r), t, bind_of_ok hok, ht, hlinked⟩
  | unlink name =>
      rcases dirlookup_spec hsb h name with ⟨hpanic, hstuck⟩ | ⟨hok, hmap⟩ | ⟨inum, ip, j, t, hok, hf, hgot, ht, hsame⟩
      · exact .inl ⟨bind_of_error _ hpanic, hstuck⟩
      · refine .inr ⟨(none, -1), s, bind_of_ok hok, h, found_none hmap, rfl, ?_⟩
        rw [← hmap, Function.update_eq_self]
      · have hft : Finds sb dp name t inum j := by
          constructor
          · rw [hsame]
            exact hf.map
          · rw [hsame]
            exact hf.lt
          · rw [hsame]
            exact hf.slot
        obtain ⟨u, hclear, hu, hent, hnew⟩ := clearDirent_spec hsb ht hft
        obtain ⟨href, hinum⟩ := hent.refs ip
        rw [hsame] at hnew
        refine .inr ⟨(some (ip, DIRENT * j), (DIRENT : Int)), u, (bind_of_ok hok).trans (bind_of_ok hclear), hu, ?_, rfl, hnew⟩
        refine found_some hf ?_ (hinum.trans hgot.num)
        rw [href]
        exact hgot.ref

/-- A sequence of operations keeps the directory in order, and stops only where an inode cannot be got. -/
theorem runDirOps_spec (hsb : sb.Ordered) (h : DirOk sb dp s) (ops : List DirOp) (hops : ∀ op ∈ ops, op.Ok) :
    (∃ rs t, runDirOps sb dp ops s = .ok (rs, t) ∧ DirOk sb dp t) ∨
      ∃ t name, runDirOps sb dp ops s = .error (.iget, t) ∧ DirOk sb dp t ∧ Stuck sb dp name t := by
  induction ops generalizing s with
  | nil => exact .inl ⟨[], s, rfl, h⟩
  | cons op ops ih =>
      rcases op.refines hsb h (hops op List.mem_cons_self) with ⟨hpanic, hstuck⟩ | ⟨r, t, hok, ht, -⟩
      · exact .inr ⟨s, op.name, bind_of_error _ hpanic, h, hstuck⟩
      · rcases ih ht fun op' hop' => hops op' (List.mem_cons_of_mem _ hop') with
          ⟨rs, u, hrun, hu⟩ | ⟨u, name, hrun, hu, hstuck⟩
        · exact .inl ⟨r :: rs, u, (bind_of_ok hok).trans (bind_of_ok hrun), hu⟩
        · exact .inr ⟨u, name, (bind_of_ok hok).trans (bind_of_error _ hrun), hu, hstuck⟩

/-- A directory is a map from names to inode numbers: after any operations names are distinct and the size
    is a number of entries, and the next operation does to the map what it would do to any map. The only
    panic is for an inode that is not in the inode table, which is full. -/
theorem directories_are_maps (hsb : sb.Ordered) (h : DirOk sb dp s) {ops : List DirOp} (hops : ∀ op ∈ ops, op.Ok) :
    (∃ rs t, runDirOps sb dp ops s = .ok (rs, t) ∧ DirOk sb dp t ∧ ∀ op : DirOp, op.Ok → op.Refines sb dp t) ∨
      ∃ t name, runDirOps sb dp ops s = .error (.iget, t) ∧ DirOk sb dp t ∧ Stuck sb dp name t := by
  rcases runDirOps_spec hsb h ops hops with ⟨rs, t, hrun, ht⟩ | hstuck
  · exact .inl ⟨rs, t, hrun, ht, fun op hop => op.refines hsb ht hop⟩
  · exact .inr hstuck

/-! ## A disk with one directory -/

/-- Eight blocks of metadata. -/
def dirDisk (size : Uint) : Superblock where
  size := size
  ninodes := 64
  inodestart := 2
  bmapstart := 7

theorem dirEntry_lt : 0 < NINODE := by decide

def dirEntry : Ip := ⟨0, dirEntry_lt⟩

/-- `"a"` -/
def dirName : Buf := fun k => [97].getD k 0

/-- A directory of one entry, which is in block `addr`. -/
def dirInode (addr : Uint) : Dinode := ⟨T_DIR, 0, 0, 1, 16, fun k => if k = 0 then addr else 0⟩

def emptyFile : Dinode := ⟨T_FILE, 0, 0, 1, 0, fun _ => 0⟩

/-- The directory and empty files, of which the first `held` inodes are in the inode table. The entry names
    inode 60. -/
def dirState (addr : Uint) (held : Nat) : State :=
  let s : State :=
    { blocks := fun b k =>
        if b = 7 then if k = 0 then 255 else if k = 1 then 1 else 0
        else if b = 8 then (dirent 60 dirName).getD k 0
        else emptyFile.byte (k % DINODE)
      logged := []
      itable := fun ip =>
        { (if ip = dirEntry then dirInode addr else emptyFile) with
          inum := ip.val + 1
          ref := if ip.val < held then 1 else 0
          locked := false
          valid := true }
      ftable := fun _ =>
        { type := .none, ref := 0, readable := false, writable := false, ip := dirEntry, off := 0, major := 0 }
      ofile := fun _ => none
      cwd := dirEntry }
  s.setDinode (dirDisk 9) 1 (dirInode addr)

variable {n addr : Uint} {held : Nat}

theorem dirDisk_dinode {i : Nat} (hi : (dirDisk n).Inum i) :
    (dirState addr held).dinode (dirDisk n) i = if i = 1 then dirInode addr else emptyFile := by
  have hlt : i < 64 := hi.2
  have h : (dirState addr held).dinode (dirDisk n) i = if i = 1 then dirInode addr else _ := dinode_setDinode 1 i _
  rw [h]
  congr 1
  refine Eq.trans ?_ (loadDinode_storeDinode (fun _ => 0) 0 emptyFile)
  refine loadDinode_congr fun k hk => ?_
  have hblock : (dirDisk n).IBLOCK i < 7 := by
    show i / 16 + 2 < 7
    omega
  have hmod : (i % IPB * DINODE + k) % DINODE = k := by
    rw [Nat.add_comm, Nat.add_mul_mod_self_right, Nat.mod_eq_of_lt hk]
  show (if (dirDisk n).IBLOCK i = 7 then _ else if (dirDisk n).IBLOCK i = 8 then _
    else emptyFile.byte ((i % IPB * DINODE + k) % DINODE)) = _
  rw [if_neg (by omega), if_neg (by omega), hmod, storeDinode, if_pos ⟨by omega, by omega⟩]
  congr 1
  omega

theorem dirDisk_bit {b : Nat} (hb : b < 16) : (dirState addr held).bit (dirDisk n) b = decide (b < 9) := by
  have hblock : (dirState addr held).blocks 7 = fun k => if k = 0 then 255 else if k = 1 then 1 else 0 := by
    unfold dirState
    rw [setDinode_of_ne _ (by decide)]
    simp
  have hB : (dirDisk n).BBLOCK b = 7 := by
    unfold Superblock.BBLOCK
    rw [Nat.div_eq_of_lt (lt_of_lt_of_le hb (by decide))]
    rfl
  unfold State.bit
  rw [hB, hblock, Nat.mod_eq_of_lt (lt_of_lt_of_le hb (by decide))]
  clear hblock hB
  revert b
  decide

theorem dirDisk_slot (blocks : Nat → Nat → Byte) (k : Nat) :
    slotAddr blocks (dirInode addr).addrs k = if k = 0 then addr else 0 := by
  by_cases hk : k < NDIRECT + 1
  · rw [slotAddr_direct _ _ hk]
    by_cases h0 : k = 0
    · subst h0
      rfl
    · rw [if_neg h0]
      exact if_neg fun he => h0 (congrArg Fin.val he)
  · rw [slotAddr_of_no_indirect (Nat.not_lt.1 hk) rfl, if_neg]
    rintro rfl
    exact hk (Nat.succ_pos _)

/-- Only inode 1 has a block. -/
theorem slotAddr_one {sb : Superblock} {s : State} (hroot : sb.Inum 1)
    (hone : (s.dinode sb 1).type ≠ 0 ∧ (s.dinode sb 1).addrs = (dirInode addr).addrs)
    (hrest : ∀ i, sb.Inum i → i ≠ 1 → (s.dinode sb i).type ≠ 0 → (s.dinode sb i).addrs = fun _ => 0) (i k : Nat) :
    slotAddr s.blocks (s.addrs sb i) k = if i = 1 ∧ k = 0 then addr else 0 := by
  by_cases hi : i = 1
  · subst hi
    rw [addrs_of_alloc hroot hone.1, hone.2, dirDisk_slot]
    simp
  · have hzero : s.addrs sb i = fun _ => 0 := by
      unfold State.addrs
      split
      · next h => exact hrest i h.1 hi h.2
      · rfl
    rw [hzero, slotAddr_zero, if_neg fun h => hi h.1]

/-- The block of inode 1 is the first one for data, and all others are free. -/
theorem Own.of_one {sb : Superblock} {s : State} {A : Nat → Addrs}
    (hslot : ∀ i k, slotAddr s.blocks (A i) k = if i = 1 ∧ k = 0 then addr else 0) (haddr : addr.toNat = sb.dataStart)
    (hsize : sb.dataStart < sb.size.toNat) (hbit : ∀ b, b < sb.size.toNat → s.bit sb b = decide (b ≤ sb.dataStart)) :
    Own sb A s := by
  refine ⟨⟨⟨fun p q hp hpq => ?_, fun b hb => ?_⟩⟩, fun b hlow hlt => ?_⟩
  · have hone : ∀ r : Nat × Nat, slotAddr s.blocks (A r.1) r.2 ≠ 0 → r = (1, 0) := by
      intro r hr
      rw [hslot] at hr
      by_contra hne
      exact hr (if_neg fun h => hne (Prod.ext h.1 h.2))
    rw [hone p hp, hone q (hpq ▸ hp)]
  · constructor
    · rintro ⟨hlow, hlt, hset⟩
      rw [hbit _ hlt, decide_eq_true_iff] at hset
      refine ⟨(1, 0), ?_⟩
      simp only [hslot]
      exact BitVec.eq_of_toNat_eq (haddr.trans (Nat.le_antisymm hlow hset))
    · rintro ⟨p, rfl⟩
      simp only [hslot] at hb ⊢
      split at hb
      · next h =>
        rw [if_pos h, haddr]
        exact ⟨Nat.le_refl _, hsize, by rw [hbit _ hsize, decide_eq_true_iff]⟩
      · exact absurd rfl hb
  · rw [hbit b hlt, decide_eq_true_iff]
    exact Nat.le_of_lt hlow

theorem dirDisk_slots (i k : Nat) :
    slotAddr (dirState addr held).blocks ((dirState addr held).addrs (dirDisk n) i) k =
      if i = 1 ∧ k = 0 then addr else 0 := by
  have hone : (dirDisk n).Inum 1 := ⟨Nat.one_pos, show 1 < 64 by decide⟩
  refine slotAddr_one hone ?_ (fun j hj hne _ => ?_) i k
  · rw [dirDisk_dinode hone, if_pos rfl]
    exact ⟨(by decide : T_DIR ≠ 0), rfl⟩
  · rw [dirDisk_dinode hj, if_neg hne]
    rfl

theorem dirDisk_boot (hn : n.toNat ≤ 9) {b : Nat} (hlt : b < n.toNat) :
    (dirState addr held).bit (dirDisk n) b = true := by
  rw [dirDisk_bit (by omega), decide_eq_true_iff]
  omega

theorem dirDisk_own : Own (dirDisk 9) ((dirState 8 held).addrs (dirDisk 9)) (dirState 8 held) := by
  refine Own.of_one dirDisk_slots rfl (by decide) fun b hb => ?_
  have hlt : b < 9 := hb
  rw [dirDisk_bit (by omega)]
  refine decide_eq_decide.2 ?_
  show b < 9 ↔ b ≤ 8
  omega

theorem dirDisk_ordered : (dirDisk n).Ordered := by
  show 64 / IPB + 2 < 7
  decide

theorem dirState_inum (ip : Ip) : (dirDisk n).Inum (ip.val + 1) := by
  have hlt : ip.val < 50 := ip.isLt
  exact ⟨Nat.succ_pos _, show ip.val + 1 < 64 by omega⟩

theorem dirState_dinode {ip : Ip} :
    ((dirState addr held).itable ip).toDinode = (dirState addr held).dinode (dirDisk n) (ip.val + 1) := by
  rw [dirDisk_dinode (dirState_inum ip)]
  show (if ip = dirEntry then dirInode addr else emptyFile) = _
  by_cases h : ip = dirEntry
  · rw [if_pos h, if_pos (by rw [h]; rfl)]
  · rw [if_neg h, if_neg]
    intro h0
    exact h (Fin.ext (Nat.succ.inj h0))

theorem dirState_wf : (dirState 8 held).Wf (dirDisk 9) := by
  constructor
  case own =>
    exact dirDisk_own
  case inum =>
    exact fun ip _ _ => dirState_inum ip
  case uniq =>
    intro ip jp _ _ h
    exact Fin.ext (Nat.succ.inj h)
  case synced =>
    intro ip _ _
    refine ⟨dirState_dinode, ?_⟩
    show (if ip = dirEntry then dirInode 8 else emptyFile).type ≠ 0
    split
    · decide
    · decide
  case whole =>
    intro i hi _
    rw [dirDisk_dinode hi]
    split
    · refine ⟨by decide, fun p hp => ?_⟩
      have hp : p < 16 := hp
      have h0 : fileSlot (p / BSIZE) = 0 := by rw [Nat.div_eq_of_lt (lt_trans hp (by decide))]; rfl
      rw [dirDisk_slot, h0, if_pos rfl]
      decide
    · exact whole_empty _ rfl

theorem dirState_core (h : 0 < held) : (dirState addr held).InCore dirEntry := by
  refine ⟨?_, rfl⟩
  show 0 < if 0 < held then 1 else 0
  rw [if_pos h]
  exact Nat.one_pos

theorem dirState_dir : (dirState 8 held).dir (dirDisk 9) dirEntry = dirent 60 dirName := by
  have hone : (dirDisk 9).Inum 1 := by decide
  have hblock : (dirState 8 held).blocks 8 = fun k => (dirent 60 dirName).getD k 0 := by
    unfold dirState
    rw [setDinode_of_ne _ (by decide)]
    rfl
  show (dirState 8 held).content (dirDisk 9) 1 = _
  unfold State.content
  rw [dirDisk_dinode hone, if_pos rfl, ← map_getD_range (dirent 60 dirName), length_dirent]
  refine List.map_congr_left fun p hp => ?_
  have hp : p < 16 := List.mem_range.1 hp
  have hlt : p < BSIZE := lt_trans hp (by decide)
  rw [dirDisk_slot, Nat.div_eq_of_lt hlt, Nat.mod_eq_of_lt hlt]
  exact congrFun hblock p

theorem dirState_dirOk (h : 0 < held) : DirOk (dirDisk 9) dirEntry (dirState 8 held) := by
  refine ⟨⟨dirState_wf, dirState_core h, rfl, ?_⟩, ?_⟩
  · rw [dirState_dir, length_dirent]
  · rw [dirState_dir, length_dirent]
    intro i j _ _ hi hj _ _ _
    have hone : DIRENT / DIRENT = 1 := rfl
    omega

def entryIsReplaced : List DirOp := [.lookup dirName, .unlink dirName, .link dirName 2]

/-- The entry is looked up and removed, and a new one is put in its place. -/
theorem directories_are_maps_one : ∃ rs t, runDirOps (dirDisk 9) dirEntry entryIsReplaced (dirState 8 1) = .ok (rs, t) ∧
    rs.map Prod.snd = [0, DIRENT, 0] ∧ DirOk (dirDisk 9) dirEntry t ∧
      ∀ op : DirOp, op.Ok → op.Refines (dirDisk 9) dirEntry t := by
  have hok : ∀ op ∈ entryIsReplaced, op.Ok := by
    intro op hop
    rcases List.mem_cons.1 hop with rfl | hop
    · trivial
    · rcases List.mem_cons.1 hop with rfl | hop
      · trivial
      · rw [List.mem_singleton.1 hop]
        exact ⟨by decide, by decide⟩
  have hresults : ((runDirOps (dirDisk 9) dirEntry entryIsReplaced (dirState 8 1)).toOption.map fun r =>
      r.1.map Prod.snd) = some [0, (DIRENT : Int), 0] := by decide +kernel
  rcases directories_are_maps dirDisk_ordered (dirState_dirOk Nat.one_pos) hok with ⟨rs, t, hrun, ht, hnext⟩ | ⟨t, -, hrun, -⟩
  · rw [hrun] at hresults
    exact ⟨rs, t, hrun, Option.some.inj hresults, ht, hnext⟩
  · rw [hrun] at hresults
    cases hresults

/-- An entry of a directory may name an inode for which there is no room in the inode table. And where the
    block of a directory is missing and the disk is full, an entry cannot be read. -/
theorem dirlookup_panics : (DirOk (dirDisk 9) dirEntry (dirState 8 NINODE) ∧
      dirlookup (dirDisk 9) dirEntry dirName (dirState 8 NINODE) = .error (.iget, dirState 8 NINODE)) ∧
    Own (dirDisk 8) ((dirState 0 1).addrs (dirDisk 8)) (dirState 0 1) ∧ (dirState 0 1).InCore dirEntry ∧
      ((dirState 0 1).dir (dirDisk 8) dirEntry).length = DIRENT ∧
      dirlookup (dirDisk 8) dirEntry dirName (dirState 0 1) = .error (.dirlookupRead, dirState 0 1) := by
  have hok : DirOk (dirDisk 9) dirEntry (dirState 8 NINODE) := dirState_dirOk (by decide)
  refine ⟨⟨hok, ?_⟩, ?_, dirState_core Nat.one_pos, ?_, ?_⟩
  · have hmap : dirMap ((dirState 8 NINODE).dir (dirDisk 9) dirEntry) (dirKey dirName) = some 60 := by
      rw [dirMap, mapOf_eq_some hok.distinct]
      refine ⟨0, ?_, ?_⟩
      · rw [dirState_dir, length_dirent]
        decide
      · rw [dirState_dir]
        exact binding_dirent (by decide) dirName
    have href : ∀ ip, 0 < ((dirState 8 NINODE).itable ip).ref := by
      intro ip
      show 0 < if ip.val < NINODE then 1 else 0
      rw [if_pos ip.isLt]
      exact Nat.one_pos
    -- all the entries are taken, none by inode 60: only the panic is left
    rcases dirlookup_spec dirDisk_ordered hok dirName with ⟨hpanic, -⟩ | ⟨-, hnone⟩ | ⟨inum, ip, j, t, -, hf, hgot, -, -⟩
    · exact hpanic
    · rw [hmap] at hnone
      cases hnone
    · have hinum := hf.map
      rw [hmap] at hinum
      cases hinum
      rcases hgot.entry with ⟨-, hn, -⟩ | ⟨h0, -⟩
      · have hn : ip.val + 1 = 60 := hn
        have hlt : ip.val < 50 := ip.isLt
        omega
      · exact absurd h0 (Nat.pos_iff_ne_zero.1 (href ip))
  · refine ⟨⟨⟨fun p q hp => absurd ?_ hp, fun b hb => iff_of_false ?_ ?_⟩⟩, fun b _ hlt => dirDisk_boot (by decide) hlt⟩
    · exact (dirDisk_slots p.1 p.2).trans (ite_self 0)
    · rintro ⟨hlow, hlt, -⟩
      have hlow : 8 ≤ b.toNat := hlow
      have hlt : b.toNat < 8 := hlt
      omega
    · rintro ⟨p, rfl⟩
      exact hb ((dirDisk_slots p.1 p.2).trans (ite_self 0))
  · show ((dirState 0 1).content (dirDisk 8) 1).length = DIRENT
    unfold State.content
    rw [dirDisk_dinode (by decide), if_pos rfl, bytesOf, List.length_map, List.length_range]
    rfl
  -- no block is free, so that bmap() finds none for the hole and readi() is short
  · have hfull : balloc (dirDisk 8) (dirState 0 1) = .ok (0, dirState 0 1) := by
      have hnone : (List.range (dirDisk 8).size.toNat).find? (fun b => !(dirState 0 1).bit (dirDisk 8) b) = none := by
        rw [List.find?_eq_none]
        intro b hb
        have hlt : b < 8 := List.mem_range.1 hb
        rw [dirDisk_boot (by decide) hlt]
        decide
      unfold balloc
      refine (bind_of_ok (a := dirState 0 1) (t := dirState 0 1) rfl).trans ?_
      rw [hnone]
      rfl
    have hmap : bmap (dirDisk 8) dirEntry (0 / BSIZE) (dirState 0 1) = .ok (0, dirState 0 1) := by
      unfold bmap
      rw [dif_pos (by decide)]
      unfold allocAddr
      refine (bind_of_ok (a := dirState 0 1) (t := dirState 0 1) rfl).trans ?_
      have h0 : ∀ k, ((dirState 0 1).itable dirEntry).addrs k = 0 := fun k => ite_self 0
      rw [h0, if_neg (not_not.2 rfl), bind_of_ok hfull]
      rfl
    have hread : readi (dirDisk 8) dirEntry kernelDst (BitVec.ofNat 32 0) (BitVec.ofNat 32 DIRENT) (dirState 0 1) =
        .ok ((0, []), dirState 0 1) := by
      have hrun : readi (dirDisk 8) dirEntry kernelDst (BitVec.ofNat 32 0) (BitVec.ofNat 32 DIRENT) (dirState 0 1) =
          readiLoop (dirDisk 8) dirEntry kernelDst 0 16 (dirState 0 1) := rfl
      rw [hrun, readiLoop, dif_neg (by decide), bind_of_ok hmap, if_pos rfl]
      rfl
    have hloop : dirlookup (dirDisk 8) dirEntry dirName (dirState 0 1) =
        dirlookupLoop (dirDisk 8) dirEntry dirName [0] (dirState 0 1) := rfl
    have hent : readDirent (dirDisk 8) dirEntry 0 .dirlookupRead (dirState 0 1) = .error (.dirlookupRead, dirState 0 1) := by
      unfold readDirent
      rw [bind_of_ok hread, if_pos (by decide)]
      rfl
    rw [hloop, dirlookupLoop]
    exact bind_of_error _ hent

end Xv6.Blocks
