import Xv6.Lib.SlotMap
import Xv6.Blocks.Calls
import Xv6.Blocks.ByteFiles

set_option autoImplicit false

/-! # Directories as maps

A directory is a file of entries of 16 bytes. Those with an inode number are the bindings of a map from
names to inode numbers, and a name is the string in 14 bytes, with or without its NUL. -/

namespace Xv6.Blocks

open Xv6.Lib
open Xv6.Fs (NINODE NFILE NDEV ROOTINO DIRSIZ MAXFILE Ip)

/-! ## Names -/

/-- What `namecmp` compares of a name. -/
def dirKey (name : Buf) : List Byte := cstr name DIRSIZ

theorem strncmp_eq_zero (p q : Nat → Byte) (n : Nat) : strncmp p q n = 0 ↔ cstr p n = cstr q n := by
  induction n generalizing p q with
  | zero => exact iff_of_true rfl rfl
  | succ n ih =>
      rw [strncmp, cstr, cstr]
      by_cases hp : p 0 = 0
      · rw [if_neg fun h => h.1 hp, if_pos hp, hp]
        by_cases hq : q 0 = 0
        · rw [if_pos hq, hq]
          exact iff_of_true rfl rfl
        · rw [if_neg hq]
          refine iff_of_false (fun h => hq ?_) (List.cons_ne_nil _ _).symm
          exact BitVec.eq_of_toNat_eq (by simpa [eq_comm] using h)
      · rw [if_neg hp]
        by_cases hpq : p 0 = q 0
        · rw [if_pos ⟨hp, hpq⟩, if_neg (hpq ▸ hp), hpq, List.cons.injEq, ih]
          simp
        · rw [if_neg fun h => hpq h.2]
          refine iff_of_false (fun h => hpq ?_) fun h => ?_
          · exact BitVec.eq_of_toNat_eq (by omega)
          · by_cases hq : q 0 = 0
            · rw [if_pos hq] at h
              cases h
            · rw [if_neg hq] at h
              exact hpq (List.cons.inj h).1

theorem namecmp_eq_zero (s t : Buf) : namecmp s t = 0 ↔ dirKey s = dirKey t := strncmp_eq_zero s t DIRSIZ

theorem length_strncpy (t : Nat → Byte) (n : Nat) : (strncpy t n).length = n := by
  induction n generalizing t with
  | zero => rfl
  | succ n ih =>
      rw [strncpy]
      split
      · exact List.length_replicate
      · rw [List.length_cons, ih]

/-- `strncpy` keeps the name. -/
theorem cstr_strncpy (t : Nat → Byte) (n : Nat) : cstr (fun k => (strncpy t n).getD k 0) n = cstr t n := by
  induction n generalizing t with
  | zero => rfl
  | succ n ih =>
      rw [strncpy]
      by_cases h : t 0 = 0
      · rw [if_pos h, cstr, cstr, if_pos h, if_pos (by simp)]
      · rw [if_neg h, cstr, cstr, if_neg h, if_neg (by simpa using h)]
        simp only [List.getD_cons_zero, List.getD_cons_succ, ih]

/-! ## Entries -/

/-- Entry `j` of a directory with the content `c`. -/
def entryAt (c : List Byte) (j : Nat) : List Byte := (c.drop (DIRENT * j)).take DIRENT

/-- The binding in an entry. -/
def binding (de : List Byte) : Option (List Byte × BitVec 16) :=
  if deInum de = 0 then none else some (dirKey (deName de), deInum de)

/-- The binding in entry `j`. -/
def dirSlot (c : List Byte) (j : Nat) : Option (List Byte × BitVec 16) := binding (entryAt c j)

/-- The map of a directory with the content `c`. -/
def dirMap (c : List Byte) : List Byte → Option (BitVec 16) := mapOf (dirSlot c) (c.length / DIRENT)

theorem length_dirent (inum : BitVec 16) (name : Buf) : (dirent inum name).length = DIRENT := by
  rw [dirent, List.length_append, List.length_map, List.length_range, length_strncpy]
  rfl

theorem deInum_dirent (inum : BitVec 16) (name : Buf) : deInum (dirent inum name) = inum := by
  refine half_of_byteOf fun j hj => ?_
  have hlen : j < ((List.range 2).map (byteOf inum)).length := by
    rwa [List.length_map, List.length_range]
  rw [dirent, Nat.zero_add, List.getD_eq_getElem?_getD, List.getElem?_append_left hlen]
  simp [hj]

theorem binding_dirent {inum : BitVec 16} (h : inum ≠ 0) (name : Buf) :
    binding (dirent inum name) = some (dirKey name, inum) := by
  have hname : dirKey (deName (dirent inum name)) = dirKey name := by
    unfold dirKey
    rw [← cstr_strncpy name DIRSIZ]
    refine cstr_congr fun k _ => ?_
    have hlen : ((List.range 2).map (byteOf inum)).length = 2 := by
      rw [List.length_map, List.length_range]
    rw [deName, dirent, List.getD_eq_getElem?_getD, List.getElem?_append_right (by omega), hlen,
      Nat.add_sub_cancel_left, ← List.getD_eq_getElem?_getD]
  rw [binding, deInum_dirent, if_neg h, hname]

theorem binding_zero : binding (List.replicate DIRENT 0) = none := by decide

/-- An entry is written. -/
theorem entryAt_splice {c e : List Byte} {j : Nat} (he : e.length = DIRENT) (hj : DIRENT * j ≤ c.length) (i : Nat) :
    entryAt (splice c (DIRENT * j) e) i = if i = j then e else entryAt c i := piece_splice he hj i

/-! ## Reading a directory -/

/-- The content of the directory `dp`. -/
def State.dir (sb : Superblock) (s : State) (dp : Ip) : List Byte := s.content sb (s.itable dp).inum

/-- `dp` is a directory of whole entries. -/
structure DirSized (sb : Superblock) (dp : Ip) (s : State) : Prop where
  wf : s.Wf sb
  core : s.InCore dp
  type : (s.itable dp).type = T_DIR
  size : DIRENT ∣ (s.dir sb dp).length

/-- Besides, no name is in it twice. -/
structure DirOk (sb : Superblock) (dp : Ip) (s : State) : Prop extends DirSized sb dp s where
  distinct : Distinct (dirSlot (s.dir sb dp)) ((s.dir sb dp).length / DIRENT)

variable {sb : Superblock} {s t u : State} {dp ip : Ip} {inum j : Nat} {name : Buf}

theorem DirSized.le_max (h : DirSized sb dp s) : (s.dir sb dp).length ≤ MAXFILE * BSIZE := by
  unfold State.dir
  rw [length_content h.wf h.core]
  exact (h.wf.whole_ip h.core).1

theorem readDirent_eq (hsb : sb.Ordered) (h : DirSized sb dp s) (hj : j < (s.dir sb dp).length / DIRENT) (fail : Panic) :
    readDirent sb dp (DIRENT * j) fail s = .ok (entryAt (s.dir sb dp) j, s) := by
  have hle := h.le_max
  have hmax : MAXFILE * BSIZE < 2 ^ 31 := by decide
  have hin : DIRENT * (j + 1) ≤ (s.dir sb dp).length :=
    le_trans (Nat.mul_le_mul_left _ hj) (Nat.mul_div_le _ _)
  rw [Nat.mul_succ] at hin
  have hpos : 0 < DIRENT := by decide
  have hD : (BitVec.ofNat 32 DIRENT).toNat = DIRENT := rfl
  have hoff : (BitVec.ofNat 32 (DIRENT * j)).toNat = DIRENT * j := by
    rw [BitVec.toNat_ofNat, Nat.mod_eq_of_lt (by omega)]
  have hadd : (BitVec.ofNat 32 (DIRENT * j) + BitVec.ofNat 32 DIRENT).toNat = DIRENT * j + DIRENT := by
    rw [BitVec.toNat_add, hoff, hD, Nat.mod_eq_of_lt (by omega)]
  obtain ⟨r, hok, hr⟩ := readi_spec hsb h.wf h.core kernelDst (BitVec.ofNat 32 (DIRENT * j)) (BitVec.ofNat 32 DIRENT)
  have hr : r = readResult (s.dir sb dp) (BitVec.ofNat 32 (DIRENT * j)) (BitVec.ofNat 32 DIRENT) := hr fun _ _ => rfl
  have hres : r = ((DIRENT : Int), entryAt (s.dir sb dp) j) := by
    rw [hr, readResult, if_neg, hoff, hD, Nat.min_eq_left (show DIRENT ≤ (s.dir sb dp).length - DIRENT * j by omega)]
    · rfl
    · rw [hoff, BitVec.lt_def, hadd, hoff]
      omega
  subst hres
  unfold readDirent
  rw [bind_of_ok hok, if_neg (not_not.2 rfl)]
  rfl

/-- The values of `off` are the offsets of the entries. -/
theorem offsets_eq (h : DirSized sb dp s) :
    offsets 0 (s.itable dp).size.toNat = (List.range ((s.dir sb dp).length / DIRENT)).map (DIRENT * ·) := by
  have hlen : (s.itable dp).size.toNat = (s.dir sb dp).length := (length_content h.wf h.core).symm
  obtain ⟨m, hm⟩ := h.size
  have hdiv : (DIRENT * m + (DIRENT - 1)) / DIRENT = m := by
    rw [Nat.mul_add_div (by decide), Nat.div_eq_of_lt (by decide), Nat.add_zero]
  rw [offsets, hlen, hm, hdiv, Nat.mul_div_cancel_left m (by decide), Nat.sub_zero, List.range_eq_range']

/-- What the loop of `dirlookup` has found. -/
def found : Option (Nat × BitVec 16) → K (Option (Ip × Nat))
  | none => pure none
  | some (j, inum) => do
    let ip ← iget inum.toNat
    pure (some (ip, DIRENT * j))

theorem dirlookupLoop_eq (hsb : sb.Ordered) (h : DirSized sb dp s) (name : Buf) {js : List Nat}
    (hjs : ∀ j ∈ js, j < (s.dir sb dp).length / DIRENT) :
    dirlookupLoop sb dp name (js.map (DIRENT * ·)) s =
      found (js.findSome? (hit (dirSlot (s.dir sb dp)) (dirKey name))) s := by
  induction js with
  | nil => rfl
  | cons j js ih =>
      have hrest := ih fun i hi => hjs i (List.mem_cons_of_mem _ hi)
      rw [List.map_cons, dirlookupLoop, bind_of_ok (readDirent_eq hsb h (hjs j List.mem_cons_self) _)]
      rw [List.findSome?_cons]
      by_cases h0 : deInum (entryAt (s.dir sb dp) j) = 0
      · rw [if_pos h0, hrest]
        have hnone : hit (dirSlot (s.dir sb dp)) (dirKey name) j = none := by
          rw [hit_eq_none]
          intro v
          rw [dirSlot, binding, if_pos h0]
          exact (Option.some_ne_none _).symm
        rw [hnone]
      · rw [if_neg h0]
        have hslot : dirSlot (s.dir sb dp) j =
            some (dirKey (deName (entryAt (s.dir sb dp) j)), deInum (entryAt (s.dir sb dp) j)) := by
          rw [dirSlot, binding, if_neg h0]
        by_cases hname : namecmp name (deName (entryAt (s.dir sb dp) j)) = 0
        · rw [if_pos hname]
          rw [namecmp_eq_zero] at hname
          rw [hit_eq_some.2 ⟨rfl, by rw [hslot, ← hname]⟩]
          rfl
        · rw [if_neg hname, hrest]
          rw [namecmp_eq_zero] at hname
          have hnone : hit (dirSlot (s.dir sb dp)) (dirKey name) j = none := by
            rw [hit_eq_none]
            intro v hv
            rw [hslot, Option.some.injEq, Prod.mk.injEq] at hv
            exact hname hv.1.symm
          rw [hnone]

theorem dirlookup_eq (hsb : sb.Ordered) (h : DirSized sb dp s) (name : Buf) : dirlookup sb dp name s =
    found (lookup (dirSlot (s.dir sb dp)) ((s.dir sb dp).length / DIRENT) (dirKey name)) s := by
  unfold dirlookup
  refine (bind_of_ok (a := s) (t := s) rfl).trans ?_
  rw [if_neg (not_not.2 h.type), offsets_eq h]
  exact dirlookupLoop_eq hsb h name fun j hj => List.mem_range.1 hj

theorem emptyLoop_eq (hsb : sb.Ordered) (h : DirSized sb dp s) {js : List Nat}
    (hjs : ∀ j ∈ js, j < (s.dir sb dp).length / DIRENT) : emptyLoop sb dp (js.map (DIRENT * ·)) s =
      .ok ((js.find? fun j => decide (deInum (entryAt (s.dir sb dp) j) = 0)).map (DIRENT * ·), s) := by
  induction js with
  | nil => rfl
  | cons j js ih =>
      have hrest := ih fun i hi => hjs i (List.mem_cons_of_mem _ hi)
      rw [List.map_cons, emptyLoop, bind_of_ok (readDirent_eq hsb h (hjs j List.mem_cons_self) _)]
      by_cases h0 : deInum (entryAt (s.dir sb dp) j) = 0
      · rw [if_pos h0, List.find?_cons, decide_eq_true h0]
        rfl
      · rw [if_neg h0, List.find?_cons, decide_eq_false h0, hrest]

/-! ## The inode table -/

/-- `iget` finds the inode in the table, or puts it in an entry that is free. -/
structure Got (inum : Nat) (ip : Ip) (s t : State) : Prop where
  blocks : t.blocks = s.blocks
  others : ∀ jp, jp ≠ ip → t.itable jp = s.itable jp
  ref : 0 < (t.itable ip).ref
  num : (t.itable ip).inum = inum
  locked : (t.itable ip).locked = (s.itable ip).locked
  frame : t = s.setInode ip (t.itable ip)
  entry : (0 < (s.itable ip).ref ∧ (s.itable ip).inum = inum ∧
      t.itable ip = { s.itable ip with ref := (s.itable ip).ref + 1 }) ∨
    ((s.itable ip).ref = 0 ∧ (∀ jp, 0 < (s.itable jp).ref → (s.itable jp).inum ≠ inum) ∧
      (t.itable ip).ref = 1 ∧ (t.itable ip).valid = false)

/-- The table has no room for the inode. -/
def TableFull (s : State) (inum : Nat) : Prop :=
  ∀ jp, 0 < (s.itable jp).ref ∧ (s.itable jp).inum ≠ inum

theorem iget_cases (s : State) (inum : Nat) : (iget inum s = .error (.iget, s) ∧ TableFull s inum) ∨
    ∃ ip t, iget inum s = .ok (ip, t) ∧ Got inum ip s t := by
  have hall : ∀ jp : Ip, jp ∈ slots := by
    intro jp
    unfold slots
    exact List.mem_finRange jp
  cases hfind : slots.find? fun ip => decide (0 < (s.itable ip).ref ∧ (s.itable ip).inum = inum) with
  | some ip =>
      have hsome := List.find?_some hfind
      obtain ⟨hr, hn⟩ := of_decide_eq_true hsome
      refine .inr ⟨ip, s.setInode ip { s.itable ip with ref := (s.itable ip).ref + 1 }, ?_, ?_⟩
      · unfold iget
        refine (bind_of_ok (a := s) (t := s) rfl).trans ?_
        rw [hfind]
        rfl
      refine ⟨rfl, fun jp hj => setInode_of_ne _ hj, ?_, ?_, ?_, ?_, .inl ⟨hr, hn, setInode_self _ _⟩⟩ <;>
        rw [setInode_self]
      · exact Nat.succ_pos _
      · exact hn
  | none =>
      have hnot : ∀ jp, 0 < (s.itable jp).ref → (s.itable jp).inum ≠ inum := by
        intro jp hr hn
        exact absurd (decide_eq_true ⟨hr, hn⟩) (List.find?_eq_none.1 hfind jp (hall jp))
      cases hfree : slots.find? fun ip => decide ((s.itable ip).ref = 0) with
      | none =>
          refine .inl ⟨?_, fun jp => ?_⟩
          · unfold iget
            refine (bind_of_ok (a := s) (t := s) rfl).trans ?_
            rw [hfind]
            simp only
            rw [hfree]
            rfl
          · have hpos : 0 < (s.itable jp).ref := Nat.pos_of_ne_zero fun h0 =>
              absurd (decide_eq_true h0) (List.find?_eq_none.1 hfree jp (hall jp))
            exact ⟨hpos, hnot jp hpos⟩
      | some ip =>
          have hsome := List.find?_some hfree
          have h0 := of_decide_eq_true hsome
          refine .inr ⟨ip, s.setInode ip { s.itable ip with
            inum := inum
            ref := 1
            valid := false }, ?_, ?_⟩
          · unfold iget
            refine (bind_of_ok (a := s) (t := s) rfl).trans ?_
            rw [hfind]
            simp only
            rw [hfree]
            rfl
          · refine ⟨rfl, fun jp hj => setInode_of_ne _ hj, ?_, ?_, ?_, ?_, .inr ⟨h0, hnot, ?_, ?_⟩⟩ <;>
              rw [setInode_self]
            exact Nat.one_pos

theorem Got.wf (h : Got inum ip s t) (hs : s.Wf sb) : t.Wf sb := by
  refine hs.retable h.blocks (fun jp hr hv => ?_) fun jp kp hj hk hn => ?_
  · by_cases hjp : jp = ip
    · subst hjp
      rcases h.entry with ⟨href, -, he⟩ | ⟨-, -, -, hinv⟩
      · rw [he] at hv ⊢
        exact ⟨href, hv, rfl, rfl⟩
      · rw [hinv] at hv
        cases hv
    · rw [h.others jp hjp] at hr hv ⊢
      exact ⟨hr, hv, rfl, rfl⟩
  · -- only the entry of `inum` has changed, and no other had this inode
    have hother : ∀ kp, kp ≠ ip → 0 < (t.itable kp).ref → (t.itable kp).inum ≠ inum := by
      intro kp hkp hr hnum
      rw [h.others kp hkp] at hr hnum
      rcases h.entry with ⟨href, hn', -⟩ | ⟨-, hnot, -⟩
      · exact hkp (hs.uniq kp ip hr href (hnum.trans hn'.symm))
      · exact hnot kp hr hnum
    by_cases hjp : jp = ip <;> by_cases hkp : kp = ip
    · rw [hjp, hkp]
    · rw [hjp, h.num] at hn
      exact absurd hn.symm (hother kp hkp hk)
    · rw [hkp, h.num] at hn
      exact absurd hn (hother jp hjp hj)
    · rw [h.others jp hjp] at hj hn
      rw [h.others kp hkp] at hk hn
      exact hs.uniq jp kp hj hk hn

/-- The inodes in the table stay as they are. -/
theorem Got.kept (h : Got inum ip s t) (hdp : s.InCore dp) : t.InCore dp ∧
    (t.itable dp).inum = (s.itable dp).inum ∧ (t.itable dp).toDinode = (s.itable dp).toDinode := by
  by_cases hd : dp = ip
  · subst hd
    rcases h.entry with ⟨-, -, he⟩ | ⟨h0, -⟩
    · unfold State.InCore
      rw [he]
      exact ⟨⟨Nat.succ_pos _, hdp.2⟩, rfl, rfl⟩
    · exact absurd h0 (Nat.pos_iff_ne_zero.1 hdp.1)
  · unfold State.InCore
    rw [h.others dp hd]
    exact ⟨hdp, rfl, rfl⟩

theorem DirSized.retable (h : DirSized sb dp s) (hwf : t.Wf sb) (hblocks : t.blocks = s.blocks) (hcore : t.InCore dp)
    (hinum : (t.itable dp).inum = (s.itable dp).inum) (hd : (t.itable dp).toDinode = (s.itable dp).toDinode) :
    DirSized sb dp t ∧ t.dir sb dp = s.dir sb dp := by
  have hdir : t.dir sb dp = s.dir sb dp := by
    unfold State.dir State.content
    rw [hinum, hblocks, dinode_congr sb (s := s) (by rw [hblocks])]
  refine ⟨⟨hwf, hcore, ?_, ?_⟩, hdir⟩
  · exact (congrArg Dinode.type hd).trans h.type
  · rw [hdir]
    exact h.size

theorem DirOk.retable (h : DirOk sb dp s) (hwf : t.Wf sb) (hblocks : t.blocks = s.blocks) (hcore : t.InCore dp)
    (hinum : (t.itable dp).inum = (s.itable dp).inum) (hd : (t.itable dp).toDinode = (s.itable dp).toDinode) :
    DirOk sb dp t ∧ t.dir sb dp = s.dir sb dp := by
  obtain ⟨hsized, hdir⟩ := h.toDirSized.retable hwf hblocks hcore hinum hd
  refine ⟨⟨hsized, ?_⟩, hdir⟩
  rw [hdir]
  exact h.distinct

end Xv6.Blocks
