import Xv6.Lib.Splice
import Xv6.Blocks.Files
import Xv6.Blocks.Trunc

set_option autoImplicit false

/-! # Files as byte arrays

`readi`, `writei` and `itrunc` do to an inode what their names say of an array of bytes, and nothing to the
other inodes. Each of them is a transaction, which panics if it does not fit in the log. A write that
`filewrite` has cut into transactions does what one `writei` does. -/

namespace Xv6.Blocks

open Xv6.Lib
open Xv6.Fs (NINODE NFILE NDEV ROOTINO DIRSIZ MAXFILE Ip)

inductive FileOp where
  | readi (ip : Ip) (dst : Dest) (off n : Uint)
  | writei (ip : Ip) (src : Source) (off n : Uint)
  | itrunc (ip : Ip)

def FileOp.ip : FileOp → Ip
  | .readi ip _ _ _ => ip
  | .writei ip _ _ _ => ip
  | .itrunc ip => ip

/-- Every byte can be copied. -/
def FileOp.Copies : FileOp → Prop
  | .readi _ dst _ n => ∀ k, k < n.toNat → dst k = true
  | .writei _ src _ n => ∀ k, k < n.toNat → src k ≠ none
  | .itrunc _ => True

/-- What is returned, and what has been read. -/
def FileOp.run (sb : Superblock) : FileOp → K (Int × List Byte)
  | .readi ip dst off n => Blocks.readi sb ip dst off n
  | .writei ip src off n => do
    let r ← Blocks.writei sb ip src off n
    pure (r, [])
  | .itrunc ip => do
    Blocks.itrunc sb ip
    pure (0, [])

def runOps (sb : Superblock) : List FileOp → K (List (Int × List Byte))
  | [] => pure []
  | op :: ops => do
    let r ← transaction (op.run sb)
    let rs ← runOps sb ops
    pure (r :: rs)

/-- The operation logs no more blocks than these: the free map and the inode, and for a write the blocks of
    its bytes and the indirect block. -/
def FileOp.blocks (sb : Superblock) : FileOp → Nat
  | .readi .. => 0
  | .writei _ _ _ n => sb.size.toNat / BPB + 1 + (n.toNat / BSIZE + 2) + 2
  | .itrunc _ => sb.size.toNat / BPB + 1 + 1

/-- The operation fits in the log, and leaves two buffers of the cache, for `bmap` holds one while
    it reads another. -/
def FileOp.Small (sb : Superblock) (op : FileOp) : Prop := op.blocks sb + 2 ≤ LOGBLOCKS

/-- What the operation does to an array `c` of bytes, which becomes `c'`; `full` is that the disk has run
    out of blocks. -/
def FileOp.Does (op : FileOp) (full : Prop) (c : List Byte) (r : Int × List Byte) (c' : List Byte) : Prop :=
  match op with
  | .readi _ _ off n => r = readResult c off n ∧ c' = c
  | .writei _ src off n =>
    if c.length < off.toNat ∨ off + n < off ∨ MAXFILE * BSIZE < (off + n).toNat then r = (-1, []) ∧ c' = c
    else ∃ tot, tot ≤ n.toNat ∧ (tot < n.toNat → full) ∧ r = ((tot : Int), []) ∧
      c' = splice c off.toNat (eitherCopyin src tot)
  | .itrunc _ => r = (0, []) ∧ c' = []

/-- What the operation has done to the file system. -/
structure Acts (sb : Superblock) (op : FileOp) (s : State) (r : Int × List Byte) (t : State) : Prop where
  wf : t.Wf sb
  core : ∀ jp, (t.itable jp).ref = (s.itable jp).ref ∧ (t.itable jp).valid = (s.itable jp).valid ∧
    (t.itable jp).inum = (s.itable jp).inum
  does : op.Does (Full sb t) (s.content sb (s.itable op.ip).inum) r (t.content sb (s.itable op.ip).inum)
  others : ∀ i, sb.Inum i → (s.dinode sb i).type ≠ 0 → i ≠ (s.itable op.ip).inum → t.content sb i = s.content sb i
  types : ∀ i, sb.Inum i → (t.dinode sb i).type = (s.dinode sb i).type
  refused : r.1 = -1 → t = s
  fits : s.logged = [] → op.Small sb → Fits t.logged

variable {sb : Superblock} {s t u : State} {ip : Ip}

theorem length_content (h : s.Wf sb) (hip : s.InCore ip) :
    (s.content sb (s.itable ip).inum).length = (s.itable ip).size.toNat := by
  rw [content_eq_byteAt h hip, List.length_map, List.length_range]

/-- A write to `ip` leaves the types of all inodes. -/
theorem types_of_table (h : s.Wf sb) (ht : t.Wf sb) (hip : s.InCore ip) {e : Inode}
    (htable : t.itable = Function.update s.itable ip e) (href : e.ref = (s.itable ip).ref)
    (hvalid : e.valid = (s.itable ip).valid) (hinum : e.inum = (s.itable ip).inum) (htype : e.type = (s.itable ip).type)
    (hdinode : ∀ i, sb.Inum i → i ≠ (s.itable ip).inum → t.dinode sb i = s.dinode sb i) {i : Nat} (hi : sb.Inum i) :
    (t.dinode sb i).type = (s.dinode sb i).type := by
  by_cases he : i = (s.itable ip).inum
  · have hself : t.itable ip = e := by rw [htable, Function.update_self]
    have hr : 0 < (t.itable ip).ref := by
      rw [hself, href]
      exact hip.1
    have hv : (t.itable ip).valid = true := by
      rw [hself, hvalid]
      exact hip.2
    obtain ⟨hd, -⟩ := h.synced ip hip.1 hip.2
    obtain ⟨hd', -⟩ := ht.synced ip hr hv
    rw [hself, hinum] at hd'
    rw [he, ← hd, ← hd', htype]
  · rw [hdinode i hi he]

/-- Nor does it change which inode is in which entry. -/
theorem core_of_table {e : Inode} (htable : t.itable = Function.update s.itable ip e) (href : e.ref = (s.itable ip).ref)
    (hvalid : e.valid = (s.itable ip).valid) (hinum : e.inum = (s.itable ip).inum) (jp : Ip) :
    (t.itable jp).ref = (s.itable jp).ref ∧ (t.itable jp).valid = (s.itable jp).valid ∧
      (t.itable jp).inum = (s.itable jp).inum := by
  rw [htable]
  by_cases hj : jp = ip
  · rw [hj, Function.update_self]
    exact ⟨href, hvalid, hinum⟩
  · rw [Function.update_of_ne hj]
    exact ⟨rfl, rfl, rfl⟩

/-- A write is in the blocks from that of its first byte. -/
theorem write_le (off n : Nat) : off + n ≤ (off / BSIZE + (n / BSIZE + 2)) * BSIZE := by
  have hoff := Nat.lt_div_mul_add (a := off) (b := BSIZE) (by decide)
  have hn := Nat.lt_div_mul_add (a := n) (b := BSIZE) (by decide)
  rw [Nat.add_mul, Nat.add_mul]
  omega

theorem Written.fits {src : Source} {off n : Uint} {tot : Nat} (hw : Written sb ip src off.toNat n.toNat tot s t)
    (hlog : s.logged = []) (hsmall : (FileOp.writei ip src off n).Small sb) : Fits t.logged := by
  obtain ⟨new, g, hnew, hb⟩ := hw.logged
  obtain ⟨E, hcard, hE⟩ := touched_card (write_le off.toNat n.toNat)
  have hsmall : sb.size.toNat / BPB + 1 + (n.toNat / BSIZE + 2) + 2 + 2 ≤ LOGBLOCKS := hsmall
  rw [hnew, hlog, List.append_nil]
  refine fits_of_bitmap sb (E := insert (sb.IBLOCK (s.itable ip).inum) (E.image g)) (fun b hmem => ?_) ?_
  · rcases hb b hmem with hc | rfl | ⟨k, hk, rfl⟩
    · exact .inl hc
    · exact .inr (Finset.mem_insert_self _ _)
    · exact .inr (Finset.mem_insert_of_mem (Finset.mem_image_of_mem g (hE k hk)))
  · have hins := Finset.card_insert_le (sb.IBLOCK (s.itable ip).inum) (E.image g)
    have himg : (E.image g).card ≤ E.card := Finset.card_image_le
    omega

theorem Truncated.fits (ht : Truncated sb ip s t) (hlog : s.logged = []) (hsmall : (FileOp.itrunc ip).Small sb) :
    Fits t.logged := by
  obtain ⟨new, hnew, hb⟩ := ht.logged
  have hsmall : sb.size.toNat / BPB + 1 + 1 + 2 ≤ LOGBLOCKS := hsmall
  rw [hnew, hlog, List.append_nil]
  refine fits_of_bitmap sb (E := {sb.IBLOCK (s.itable ip).inum}) (fun b hmem => ?_) ?_
  · exact (hb b hmem).imp_right Finset.mem_singleton.2
  · rw [Finset.card_singleton]
    omega

theorem fits_nil : Fits [] := by decide

theorem FileOp.run_acts (hsb : sb.Ordered) (h : s.Wf sb) (op : FileOp) (hip : s.InCore op.ip) (hcopy : op.Copies) :
    ∃ r t, op.run sb s = .ok (r, t) ∧ Acts sb op s r t := by
  cases op with
  | readi ip dst off n =>
      obtain ⟨r, hok, hr⟩ := readi_spec hsb h hip dst off n
      exact ⟨r, s, hok, h, fun _ => ⟨rfl, rfl, rfl⟩, ⟨hr hcopy, rfl⟩, fun _ _ _ _ => rfl, fun _ _ => rfl, fun _ => rfl,
        fun hlog _ => hlog ▸ fits_nil⟩
  | writei ip src off n =>
      have hip : s.InCore ip := hip
      have hrefused : Refused (s.itable ip).size off n ↔ (s.content sb (s.itable ip).inum).length < off.toNat ∨
          off + n < off ∨ MAXFILE * BSIZE < (off + n).toNat := by
        rw [length_content h hip]
        rfl
      by_cases hr : Refused (s.itable ip).size off n
      · refine ⟨(-1, []), s, bind_of_ok (writei_refused hr), h, fun _ => ⟨rfl, rfl, rfl⟩, ?_, fun _ _ _ _ => rfl,
          fun _ _ => rfl, fun _ => rfl, fun hlog _ => hlog ▸ fits_nil⟩
        exact (if_pos (hrefused.1 hr)).mpr ⟨rfl, rfl⟩
      · obtain ⟨tot, t, hok, hw⟩ := writei_spec hsb h hip src off n hr
        have hbytes : t.content sb (s.itable ip).inum =
            splice (s.content sb (s.itable ip).inum) off.toNat (eitherCopyin src tot) := by
          rw [hw.content hcopy, splice, eitherCopyin_take hw.le hcopy]
        refine ⟨(tot, []), t, bind_of_ok hok, hw.wf, core_of_table hw.table rfl rfl rfl, ?_, hw.others, fun i hi =>
          types_of_table h hw.wf hip hw.table rfl rfl rfl rfl hw.dinode hi, fun hneg => ?_, hw.fits⟩
        · exact (if_neg fun hc => hr (hrefused.2 hc)).mpr ⟨tot, hw.le, fun hlt => (hw.full hcopy hlt).1, rfl, hbytes⟩
        · have hnn : (0 : Int) ≤ tot := Int.natCast_nonneg tot
          have hneg : (tot : Int) = -1 := hneg
          omega
  | itrunc ip =>
      have hip : s.InCore ip := hip
      obtain ⟨t, hok, ht⟩ := itrunc_spec hsb h hip
      exact ⟨(0, []), t, bind_of_ok hok, ht.wf, core_of_table ht.table rfl rfl rfl, ⟨rfl, ht.content⟩, ht.others,
        fun i hi => types_of_table h ht.wf hip ht.table rfl rfl rfl rfl ht.dinode hi, fun hneg => absurd hneg (by simp),
        ht.fits⟩

theorem Acts.inCore {op : FileOp} {r : Int × List Byte} (h : Acts sb op s r t) (hip : s.InCore ip) : t.InCore ip := by
  obtain ⟨hr, hv, -⟩ := h.core ip
  exact ⟨by rw [hr]; exact hip.1, by rw [hv]; exact hip.2⟩

theorem Acts.next {op : FileOp} {r : Int × List Byte} {ops : List FileOp} (h : Acts sb op s r t)
    (hops : ∀ op' ∈ op :: ops, s.InCore op'.ip ∧ op'.Copies) : ∀ op' ∈ ops, t.InCore op'.ip ∧ op'.Copies := by
  intro op' hop'
  obtain ⟨hip, hcopy⟩ := hops op' (List.mem_cons_of_mem _ hop')
  exact ⟨h.inCore hip, hcopy⟩

/-- An operation as a transaction: it is done, or it is too big. -/
theorem FileOp.transaction_acts (hsb : sb.Ordered) (h : s.Wf sb) (op : FileOp) (hip : s.InCore op.ip)
    (hcopy : op.Copies) : ∃ r t, Acts sb op s.beginOp r t ∧
      transaction (op.run sb) s = if Fits t.logged then .ok (r, t) else .error (.tooBig, t) := by
  obtain ⟨r, t, hok, hacts⟩ := op.run_acts hsb h.beginOp hip hcopy
  exact ⟨r, t, hacts, transaction_of_ok hok⟩

/-- What a sequence of operations keeps. -/
theorem runOps_wf (hsb : sb.Ordered) (ops : List FileOp) (h : s.Wf sb) (hops : ∀ op ∈ ops, s.InCore op.ip ∧ op.Copies)
    {rs : List (Int × List Byte)} (hrun : runOps sb ops s = .ok (rs, t)) :
    t.Wf sb ∧ ∀ jp, s.InCore jp → t.InCore jp := by
  induction ops generalizing s rs with
  | nil =>
      cases hrun
      exact ⟨h, fun _ hj => hj⟩
  | cons op ops ih =>
      obtain ⟨hip, hcopy⟩ := hops op List.mem_cons_self
      obtain ⟨r, u, hfirst, hrun⟩ := bind_returned hrun
      obtain ⟨rs', v, hrest, hrun⟩ := bind_returned hrun
      cases hrun
      obtain ⟨r', u', hok, hacts⟩ := op.run_acts hsb h.beginOp hip hcopy
      rw [(transaction_returned hfirst).1] at hok
      cases hok
      obtain ⟨ht, hcore⟩ := ih hacts.wf (hacts.next hops) hrest
      exact ⟨ht, fun jp hj => hcore jp (hacts.inCore hj)⟩

/-- Small operations are all done. -/
theorem runOps_small (hsb : sb.Ordered) (ops : List FileOp) (h : s.Wf sb)
    (hops : ∀ op ∈ ops, s.InCore op.ip ∧ op.Copies) (hsmall : ∀ op ∈ ops, op.Small sb) :
    ∃ rs t, runOps sb ops s = .ok (rs, t) := by
  induction ops generalizing s with
  | nil => exact ⟨[], s, rfl⟩
  | cons op ops ih =>
      obtain ⟨hip, hcopy⟩ := hops op List.mem_cons_self
      obtain ⟨r, t, hacts, heq⟩ := op.transaction_acts hsb h hip hcopy
      rw [if_pos (hacts.fits rfl (hsmall op List.mem_cons_self))] at heq
      obtain ⟨rs, u, hrest⟩ := ih hacts.wf (hacts.next hops) fun op' hop' => hsmall op' (List.mem_cons_of_mem _ hop')
      exact ⟨r :: rs, u, (bind_of_ok heq).trans (bind_of_ok hrest)⟩

end Xv6.Blocks
