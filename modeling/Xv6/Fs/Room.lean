import Mathlib.Data.Finset.Card
import Xv6.Fs.Inodes
import Xv6.Fs.Interleaved

set_option autoImplicit false

/-! # How many entries of the inode table a call uses up

A call that looks a path up refers to a directory and to the inode below it at a time. What it has is the
list of the references that it will give back, and a number of entries, its room, that it may refer to
besides those that have references anyway. Whatever the calls of other processes do between its steps, it
does not come to `iget` without a free entry. -/

namespace Xv6.Fs.Interleaved

open Xv6.Lib

/-- No `iget: no inodes`. -/
def Survives (e : Panic × FS) : Prop := e.1 ≠ .iget

/-- What a call has of the inode table: the references that it will give back, and how many entries it may
    refer to that were free when it began. -/
structure Hold where
  held : List Ip
  room : Nat

/-- How many entries have references, if these are their numbers. -/
def taken (c : Ip → Nat) : Nat := (Finset.univ.filter fun ip => 0 < c ip).card

/-- The references that an entry has are at most `base`, those of the other calls `o` and those of this one;
    the current directory of every process has some in `base`. -/
def Bound (live : Pid → Prop) (base o : Ip → Nat) (l : List Ip) (s : FS) : Prop :=
  (∀ ip, (s.itable ip).ref ≤ base ip + o ip + l.count ip) ∧
    ∀ q, live q ∨ (s.proc q).used = true → 0 < base (s.proc q).cwd

/-- A step of `p` that does not come to `iget` without a free entry, whatever the others refer to. -/
def May (p : Pid) {β : Type} (x : K β) (g : Hold) (R : β → Hold → Prop) : Prop :=
  ∀ (live : Pid → Prop) (base o : Ip → Nat) (c : Nat), live p → taken o ≤ c → taken base + c + g.room ≤ NINODE →
    g.held.length ≤ g.room → Triple Survives (Bound live base o g.held) x fun b t => ∃ base' h, R b h ∧
      Bound live base' o h.held t ∧ taken base' + h.room ≤ taken base + g.room ∧ h.room ≤ g.room ∧
        h.held.length ≤ h.room

/-- The steps that are left never come to `iget` without a free entry. -/
abbrev Fits (p : Pid) {α : Type} (Q : α → Hold → Prop) (x : Steps α) (g : Hold) : Prop := x.Fit (May p) Q g

/-- The same, with what the call has in the end. -/
abbrev Leads (p : Pid) {α : Type} (x : Steps α) (g : Hold) (h : α → Hold) : Prop := Fits p (fun a g' => g' = h a) x g

variable {live : Pid → Prop} {base o : Ip → Nat} {l l' : List Ip} {k : Nat} {ip dp : Ip} {p : Pid} {s t : FS}
  {α β : Type} {g : Hold}

theorem may_mono (p : Pid) : Prog.Monotone (E := Panic × FS) (S := FS) (May p) := by
  intro β x g R R' hR hx live base o c hp ho hroom hheld
  refine Triple.conseq (hx live base o c hp ho hroom hheld) (fun _ h => h) fun b t ht => ?_
  obtain ⟨base', h, hb, hrest⟩ := ht
  exact ⟨base', h, hR b h hb, hrest⟩

theorem Leads.bind {x : Steps α} {f : α → Steps β} {h : α → Hold} {Q : β → Hold → Prop} (hx : Leads p x g h)
    (hf : ∀ a, Fits p Q (f a) (h a)) : Fits p Q (x >>= f) g :=
  Prog.Fit.bind (may_mono p) hx fun a _ hg => hg ▸ hf a

/-! ## Counting entries -/

theorem taken_le_add {c d : Ip → Nat} (S : Finset Ip) (h : ∀ ip, 0 < c ip → 0 < d ip ∨ ip ∈ S) :
    taken c ≤ taken d + S.card := by
  refine le_trans (Finset.card_le_card fun ip hip => ?_) (Finset.card_union_le (Finset.univ.filter fun ip => 0 < d ip) S)
  rw [Finset.mem_union, Finset.mem_filter]
  exact (h ip (Finset.mem_filter.1 hip).2).imp_left fun hd => ⟨Finset.mem_univ ip, hd⟩

theorem taken_mono {c d : Ip → Nat} (h : ∀ ip, 0 < c ip → 0 < d ip) : taken c ≤ taken d :=
  taken_le_add ∅ fun ip hc => Or.inl (h ip hc)

/-- One more reference takes at most one more entry. -/
theorem taken_add_single (c : Ip → Nat) (ip : Ip) : taken (fun jp => c jp + if jp = ip then 1 else 0) ≤ taken c + 1 := by
  refine taken_le_add {ip} fun jp hjp => ?_
  by_cases hj : jp = ip
  · exact Or.inr (Finset.mem_singleton.2 hj)
  · simp only [if_neg hj] at hjp
    exact Or.inl hjp

/-- And a list of them at most as many as it is long. -/
theorem taken_add_count (c : Ip → Nat) (l : List Ip) : taken (fun ip => c ip + l.count ip) ≤ taken c + l.length := by
  refine le_trans (taken_le_add l.toFinset fun ip hip => ?_) (Nat.add_le_add_left l.toFinset_card_le _)
  rw [List.mem_toFinset, ← List.count_pos_iff]
  exact Nat.add_pos_iff_pos_or_pos.1 hip

theorem taken_add_le (c d : Ip → Nat) : taken (fun ip => c ip + d ip) ≤ taken c + taken d :=
  taken_le_add (Finset.univ.filter fun ip => 0 < d ip) fun ip hip =>
    (Nat.add_pos_iff_pos_or_pos.1 hip).imp_right fun hd => Finset.mem_filter.2 ⟨Finset.mem_univ ip, hd⟩

/-- With room left, an entry is free. -/
theorem Bound.exists_free {c : Nat} (hs : Bound live base o l s) (ho : taken o ≤ c) (hroom : taken base + c + k ≤ NINODE)
    (hl : l.length < k) : ∃ ip, (s.itable ip).ref = 0 := by
  by_contra hno
  have hall : taken (fun ip => base ip + o ip + l.count ip) = NINODE := by
    have hpos : ∀ ip, 0 < base ip + o ip + l.count ip := fun ip =>
      Nat.lt_of_lt_of_le (Nat.pos_of_ne_zero fun h0 => hno ⟨ip, h0⟩) (hs.1 ip)
    unfold taken
    rw [Finset.filter_true_of_mem fun ip _ => hpos ip, Finset.card_univ, Fintype.card_fin]
  have hcount := taken_add_count (fun ip => base ip + o ip) l
  have hbase := taken_add_le base o
  omega

/-! ## Steps that leave the references alone -/

/-- The references, the processes and their current directories are the same. -/
def Same (s t : FS) : Prop :=
  (∀ ip, (t.itable ip).ref = (s.itable ip).ref) ∧
    ∀ q, (t.proc q).used = (s.proc q).used ∧ (t.proc q).cwd = (s.proc q).cwd

theorem Same.refl (s : FS) : Same s s := ⟨fun _ => rfl, fun _ => ⟨rfl, rfl⟩⟩

theorem Same.bound (h : Same s t) (hs : Bound live base o l s) : Bound live base o l t := by
  refine ⟨fun ip => by rw [h.1 ip]; exact hs.1 ip, fun q hq => ?_⟩
  rw [(h.2 q).1] at hq
  rw [(h.2 q).2]
  exact hs.2 q hq

/-- The code does not come to `iget`, and leaves the references as they are. -/
def Keeps (x : K α) : Prop := ∀ s, Triple Survives (Same s) x fun _ => Same s

theorem Keeps.pure (a : α) : Keeps (Pure.pure a : K α) := fun _ => Triple.pure a fun _ h => h

theorem Keeps.bind {x : K α} {f : α → K β} (hx : Keeps x) (hf : ∀ a, Keeps (f a)) : Keeps (x >>= f) :=
  fun s => Triple.bind (hx s) fun a => hf a s

theorem Keeps.get : Keeps (get : K FS) := fun _ => Triple.get fun _ h => h

theorem Keeps.ite {c : Prop} [Decidable c] {x y : K α} (hx : Keeps x) (hy : Keeps y) : Keeps (if c then x else y) :=
  fun s => Triple.ite (fun _ => hx s) fun _ => hy s

theorem Same.trans {u : FS} (h : Same s t) (h' : Same t u) : Same s u :=
  ⟨fun ip => (h'.1 ip).trans (h.1 ip), fun q => ⟨(h'.2 q).1.trans (h.2 q).1, (h'.2 q).2.trans (h.2 q).2⟩⟩

theorem Keeps.modify {f : FS → FS} (h : ∀ s, Same s (f s)) : Keeps (modify f : K PUnit) :=
  fun _ => Triple.modify f fun t ht => ht.trans (h t)

/-- Code that looks at the state and then sets it. -/
theorem Keeps.bind_get {f : FS → K α} (hf : ∀ s, Triple Survives (fun t => t = s) (f s) fun _ => Same s) :
    Keeps (MonadState.get >>= f) :=
  fun _ => Triple.bind_get fun t ht => Triple.conseq (hf t) (fun _ h => h) fun _ _ hu => ht.trans hu

theorem same_setInode {e : Inode} (h : e.ref = (s.itable ip).ref) : Same s (s.setInode ip e) := by
  refine ⟨fun jp => ?_, fun _ => ⟨rfl, rfl⟩⟩
  unfold FS.setInode
  simp only [Function.update_apply]
  split
  next hj => rw [h, hj]
  next => rfl

theorem same_setProc {e : Proc} (hused : e.used = (s.proc p).used) (hcwd : e.cwd = (s.proc p).cwd) :
    Same s (s.setProc p e) := by
  refine ⟨fun _ => rfl, fun q => ?_⟩
  unfold FS.setProc
  simp only [Function.update_apply]
  split
  next hq => rw [hused, hcwd, hq]; exact ⟨rfl, rfl⟩
  next => exact ⟨rfl, rfl⟩

theorem same_setFd (s : FS) (p : Pid) (fd : Fin NOFILE) (f : Option (Fin NFILE)) : Same s (s.setFd p fd f) :=
  same_setProc rfl rfl

theorem keeps_note (e : Event) : Keeps (note e) := Keeps.modify fun s => Same.refl s

theorem keeps_iupdate (ip : Ip) : Keeps (iupdate ip) := Keeps.modify fun s => Same.refl s

theorem keeps_itrunc (ip : Ip) : Keeps (itrunc ip) :=
  Keeps.bind (Keeps.modify fun s => Same.refl s) fun _ => keeps_iupdate ip

theorem keeps_change (ip : Ip) (f : Inode → Inode) (hf : ∀ e, (f e).ref = e.ref) : Keeps (change ip f) :=
  Keeps.bind (Keeps.modify fun _ => same_setInode (hf _)) fun _ => keeps_iupdate ip

theorem keeps_ilock (ip : Ip) : Keeps (ilock ip) := by
  refine Keeps.bind_get fun s => ?_
  refine Triple.ite (fun _ => triple_stop _ fun _ _ => Panic.noConfusion) fun _ => ?_
  refine Triple.ite (fun _ => Triple.pure _ fun t ht => ht ▸ Same.refl s) fun _ => ?_
  refine Triple.bind (R := fun _ => Same s) (Triple.set _ fun _ _ => same_setInode rfl) fun _ => ?_
  exact Triple.ite (fun _ => triple_stop _ fun _ _ => Panic.noConfusion) fun _ => Triple.pure _ fun _ ht => ht

theorem keeps_balloc : Keeps balloc := by
  refine Keeps.bind_get fun s => ?_
  cases s.blocks with
  | nil => exact Triple.pure _ fun t ht => ht ▸ Same.refl s
  | cons b rest =>
      exact Triple.bind (R := fun _ => Same s) (Triple.set _ fun _ _ => Same.refl s) fun _ => Triple.pure _ fun _ ht => ht

theorem keeps_writei (dp : Ip) (off : Nat) (de : Dirent) : Keeps (writei dp off de) := by
  refine Keeps.bind Keeps.get fun s => ?_
  refine Keeps.ite (Keeps.pure _) (Keeps.bind (Keeps.ite (Keeps.pure _) keeps_balloc) fun ok => ?_)
  refine Keeps.bind (Keeps.ite (Keeps.modify fun s => Same.refl s) (Keeps.pure _)) fun _ => ?_
  exact Keeps.bind (keeps_iupdate dp) fun _ => Keeps.pure ok

theorem keeps_filealloc : Keeps filealloc := by
  refine Keeps.bind_get fun s => ?_
  cases files.find? fun f => decide ((s.ftable f).ref = 0) with
  | none => exact Triple.pure _ fun t ht => ht ▸ Same.refl s
  | some f =>
      exact Triple.bind (R := fun _ => Same s) (Triple.set _ fun _ _ => Same.refl s) fun _ => Triple.pure _ fun _ ht => ht

theorem keeps_fdalloc (p : Pid) (f : Fin NFILE) : Keeps (fdalloc p f) := by
  refine Keeps.bind_get fun s => ?_
  cases fds.find? fun fd => decide ((s.proc p).ofile fd = none) with
  | none => exact Triple.pure _ fun t ht => ht ▸ Same.refl s
  | some fd =>
      exact Triple.bind (R := fun _ => Same s) (Triple.set _ fun _ _ => same_setFd s p fd (some f)) fun _ =>
        Triple.pure _ fun _ ht => ht

theorem keeps_filedup (f : Fin NFILE) : Keeps (filedup f) := by
  refine Keeps.bind_get fun s => ?_
  exact Triple.ite (fun _ => triple_stop _ fun _ _ => Panic.noConfusion) fun _ => Triple.set _ fun _ _ => Same.refl s

theorem keeps_argfd (p : Pid) (fd : Int) : Keeps (argfd p fd) := by
  refine Keeps.bind Keeps.get fun s => ?_
  split
  next => exact Keeps.pure _
  next => exact Keeps.pure _

theorem keeps_dropFile (f : Fin NFILE) : Keeps (dropFile f) := by
  refine Keeps.bind_get fun s => ?_
  refine Triple.ite (fun _ => triple_stop _ fun _ _ => Panic.noConfusion) fun _ => Triple.ite (fun _ => ?_) fun _ => ?_
  · exact Triple.bind (R := fun _ => Same s) (Triple.set _ fun _ _ => Same.refl s) fun _ => Triple.pure _ fun _ ht => ht
  · exact Triple.bind (R := fun _ => Same s) (Triple.set _ fun _ _ => Same.refl s) fun _ => Triple.pure _ fun _ ht => ht

/-! ## Steps that take references and give them back -/

theorem Leads.keep {x : K α} (hx : Keeps x) : Leads p (liftM x) g fun _ => g := by
  intro live base o c hp ho hroom hheld
  refine Triple.each fun s hs => ?_
  exact Triple.conseq (hx s) (fun t ht => ht ▸ Same.refl s) fun a t ht => ⟨base, g, rfl, ht.bound hs, le_rfl, le_rfl, hheld⟩

theorem Leads.look : Leads p (get : Steps FS) g fun _ => g := Leads.keep Keeps.get

theorem Leads.write {f : FS → FS} (h : ∀ s, Same s (f s)) : Leads p (modify f : Steps PUnit) g fun _ => g :=
  Leads.keep (Keeps.modify h)

theorem fits_stop {e : Panic} (he : e ≠ .iget) {Q : α → Hold → Prop} : Fits p Q (liftM (stop e : K α)) g :=
  fun _ _ _ _ _ _ _ _ => triple_stop e fun _ _ => he

theorem ref_setInode (s : FS) (ip : Ip) (e : Inode) (jp : Ip) :
    ((s.setInode ip e).itable jp).ref = if jp = ip then e.ref else (s.itable jp).ref := by
  unfold FS.setInode
  simp only [Function.update_apply]
  split <;> rfl

/-- One more reference to `ip`. -/
theorem Bound.cons (h : Bound live base o l s) {e : Inode} (he : e.ref = (s.itable ip).ref + 1) :
    Bound live base o (ip :: l) (s.setInode ip e) := by
  refine ⟨fun jp => ?_, h.2⟩
  have hjp := h.1 jp
  rw [ref_setInode]
  by_cases hj : jp = ip
  · rw [if_pos hj, he, hj, List.count_cons_self]
    rw [hj] at hjp
    omega
  · rw [if_neg hj, List.count_cons_of_ne (Ne.symm hj)]
    exact hjp

theorem leads_iget (inum : Nat) (hroom : l.length < k) : Leads p (liftM (iget inum)) ⟨l, k⟩ fun ip => ⟨ip :: l, k⟩ := by
  intro live base o c hp ho hfull hheld
  unfold iget
  refine Triple.bind_get fun s hs => ?_
  have hcons : ∀ (ip : Ip) (e : Inode), e.ref = (s.itable ip).ref + 1 →
      ∃ (base' : Ip → Nat) (h : Hold), h = ⟨ip :: l, k⟩ ∧ Bound live base' o h.held (s.setInode ip e) ∧
        taken base' + h.room ≤ taken base + k ∧ h.room ≤ k ∧ h.held.length ≤ h.room := fun ip e he =>
    ⟨base, ⟨ip :: l, k⟩, rfl, hs.cons he, le_rfl, le_rfl, hroom⟩
  cases slots.find? fun ip => decide (0 < (s.itable ip).ref ∧ (s.itable ip).inum = inum) with
  | some ip => exact Triple.of_ok fun t _ => ⟨_, _, rfl, hcons ip _ rfl⟩
  | none =>
      cases hfree : slots.find? fun ip => decide ((s.itable ip).ref = 0) with
      | some ip =>
          have hzero := List.find?_some hfree
          exact Triple.of_ok fun t _ => ⟨_, _, rfl, hcons ip _ (by rw [of_decide_eq_true hzero])⟩
      | none =>
          obtain ⟨ip, hzero⟩ := hs.exists_free ho hfull hroom
          exact absurd (decide_eq_true hzero) (List.find?_eq_none.1 hfree ip (mem_slots ip))

theorem leads_idup (ip : Ip) (hroom : l.length < k) : Leads p (liftM (idup ip)) ⟨l, k⟩ fun ip => ⟨ip :: l, k⟩ := by
  intro live base o c hp ho hfull hheld
  refine Triple.of_ok fun s hs => ⟨_, _, rfl, base, ⟨ip :: l, k⟩, rfl, ?_, le_rfl, le_rfl, hroom⟩
  exact Bound.cons hs rfl

/-- The steps of `iput` before the last. -/
theorem leads_iput_of {h : PUnit → Hold} (hlast : Leads p
    (modify fun s => s.setInode ip { s.itable ip with ref := (s.itable ip).ref - 1 } : Steps PUnit) g h) :
    Leads p (iput ip) g h := by
  refine Leads.bind Leads.look fun s => Leads.bind (h := fun _ => g) ?_ fun _ => hlast
  split
  next =>
    refine Leads.bind (Leads.keep (keeps_note _)) fun _ => Leads.bind (Leads.keep (keeps_itrunc ip)) fun _ => ?_
    exact Leads.bind (Leads.keep (keeps_change ip _ fun _ => rfl)) fun _ => Leads.write fun s => same_setInode rfl
  next => exact rfl

/-- A reference of the call is given back. -/
theorem leads_iput (hl : l.Perm (ip :: l')) : Leads p (iput ip) ⟨l, k⟩ fun _ => ⟨l', k⟩ := by
  refine leads_iput_of fun live base o c hp ho hfull hheld => ?_
  refine Triple.modify _ fun s hs => ⟨base, ⟨l', k⟩, rfl, ⟨fun jp => ?_, hs.2⟩, le_rfl, le_rfl, ?_⟩
  · have hjp := hs.1 jp
    rw [hl.count_eq jp] at hjp
    rw [ref_setInode]
    by_cases hj : jp = ip
    · rw [hj, List.count_cons_self] at hjp
      rw [if_pos hj, hj]
      simp only
      omega
    · rw [List.count_cons_of_ne (Ne.symm hj)] at hjp
      rwa [if_neg hj]
  · have hlen := hl.length_eq
    rw [List.length_cons] at hlen
    have hle : l'.length ≤ l.length := by omega
    exact hle.trans hheld

/-- A reference of a file or of a process. -/
theorem leads_iput_other : Leads p (iput ip) g fun _ => g := by
  refine leads_iput_of fun live base o c hp ho hfull hheld => ?_
  refine Triple.modify _ fun s hs => ⟨base, g, rfl, ⟨fun jp => ?_, hs.2⟩, le_rfl, le_rfl, hheld⟩
  have hjp := hs.1 jp
  rw [ref_setInode]
  split
  next hj =>
    rw [← hj]
    exact Nat.le_trans (Nat.sub_le ..) hjp
  next => exact hjp

/-! ## Looking up -/

theorem leads_dirlookup (dp : Ip) (name : Name) (hroom : l.length < k) :
    Leads p (dirlookup dp name) ⟨l, k⟩ fun o => ⟨(o.map Prod.fst).toList ++ l, k⟩ := by
  refine Leads.bind Leads.look fun s => ?_
  split
  next => exact fits_stop Panic.noConfusion
  next =>
    simp only
    cases findEntry (s.disk (s.itable dp).inum).ents name with
    | none => exact rfl
    | some off => exact Leads.bind (leads_iget _ hroom) fun ip => rfl

theorem leads_dirlink (dp : Ip) (name : Name) (inum : Nat) (hroom : l.length < k) :
    Leads p (dirlink dp name inum) ⟨l, k⟩ fun _ => ⟨l, k⟩ := by
  refine Leads.bind (leads_dirlookup dp name hroom) fun o => ?_
  cases o with
  | none => exact Leads.bind Leads.look fun s => Leads.keep (keeps_writei _ _ _)
  | some o => exact Leads.bind (leads_iput (List.Perm.refl _)) fun _ => rfl

/-- A step of the path refers to the directory and to what is below it. -/
theorem leads_namexLoop (parent : Bool) (names : List Name) (ip : Ip) (hroom : l.length + 1 < k) :
    Leads p (namexLoop parent names ip) ⟨ip :: l, k⟩ fun o => ⟨(o.map Prod.fst).toList ++ l, k⟩ := by
  induction names generalizing ip with
  | nil =>
      unfold namexLoop
      split
      next => exact Leads.bind (leads_iput (List.Perm.refl _)) fun _ => rfl
      next => exact rfl
  | cons name rest ih =>
      unfold namexLoop
      refine Leads.bind (Leads.keep (keeps_ilock ip)) fun _ => Leads.bind Leads.look fun s => ?_
      split
      next => exact Leads.bind (leads_iput (List.Perm.refl _)) fun _ => rfl
      next =>
        split
        next => exact rfl
        next =>
          refine Leads.bind (leads_dirlookup ip name hroom) fun o => ?_
          cases o with
          | none => exact Leads.bind (leads_iput (List.Perm.refl _)) fun _ => rfl
          | some o => exact Leads.bind (leads_iput (List.Perm.swap ip o.1 l)) fun _ => ih o.1

theorem leads_namex (path : Path) (parent : Bool) (hroom : l.length + 1 < k) :
    Leads p (namex p path parent) ⟨l, k⟩ fun o => ⟨(o.map Prod.fst).toList ++ l, k⟩ := by
  refine Leads.bind Leads.look fun s => Leads.bind (h := fun ip => ⟨ip :: l, k⟩) ?_ fun ip =>
    leads_namexLoop parent _ ip hroom
  split
  next => exact leads_iget _ (Nat.lt_of_succ_lt hroom)
  next => exact leads_idup _ (Nat.lt_of_succ_lt hroom)

theorem leads_namei (path : Path) (hroom : l.length + 1 < k) :
    Leads p (namei p path) ⟨l, k⟩ fun o => ⟨o.toList ++ l, k⟩ :=
  Leads.bind (leads_namex path false hroom) fun _ => rfl

theorem leads_ialloc (type : FileType) (hroom : l.length < k) :
    Leads p (ialloc type) ⟨l, k⟩ fun o => ⟨o.toList ++ l, k⟩ := by
  refine Leads.bind (h := fun _ => ⟨l, k⟩) (Leads.keep ?_) fun o => ?_
  · refine Keeps.bind_get fun s => ?_
    cases (List.range' 1 (s.ninodes - 1)).find? fun i => decide ((s.disk i).type = .free) with
    | none => exact Triple.pure _ fun t ht => ht ▸ Same.refl s
    | some inum =>
        exact Triple.bind (R := fun _ => Same s) (Triple.set _ fun _ _ => Same.refl s) fun _ =>
          Triple.pure _ fun _ ht => ht
  · cases o with
    | none => exact rfl
    | some inum => exact Leads.bind (leads_iget inum hroom) fun ip => rfl

/-- What a call does that gives its last reference back. -/
theorem leads_putBack (a : α) : Leads p (iput ip >>= fun _ => pure a) ⟨ip :: l, k⟩ fun _ => ⟨l, k⟩ :=
  Leads.bind (leads_iput (List.Perm.refl _)) fun _ => rfl

/-! ## `create` -/

theorem leads_linkDots (type : FileType) (ip dp : Ip) (hroom : l.length < k) :
    Leads p (linkDots type ip dp) ⟨l, k⟩ fun _ => ⟨l, k⟩ := by
  unfold linkDots
  split
  next =>
    refine Leads.bind Leads.look fun s => Leads.bind (leads_dirlink ip dot _ hroom) fun ok => ?_
    split
    next => exact leads_dirlink ip dotdot _ hroom
    next => exact rfl
  next => exact rfl

theorem leads_createFail (ip dp : Ip) : Leads p (createFail ip dp) ⟨[ip, dp], k⟩ fun o => ⟨o.toList, k⟩ := by
  refine Leads.bind (Leads.keep (keeps_change ip _ fun _ => rfl)) fun _ => ?_
  refine Leads.bind (leads_iput (List.Perm.refl _)) fun _ => ?_
  exact Leads.bind (leads_iput (List.Perm.refl _)) fun _ => rfl

/-- The name is looked up once more in `dirlink`, with the new inode at hand. -/
theorem leads_create (path : Path) (type : FileType) (major minor : BitVec 16) :
    Leads p (create p path type major minor) ⟨[], 3⟩ fun o => ⟨o.toList, 3⟩ := by
  refine Leads.bind (leads_namex path true (by decide)) fun o => ?_
  cases o with
  | none => exact rfl
  | some o =>
      obtain ⟨dp, name⟩ := o
      refine Leads.bind (Leads.keep (keeps_ilock dp)) fun _ => ?_
      refine Leads.bind (leads_dirlookup (l := [dp]) dp name (by simp)) fun o => ?_
      cases o with
      | some o =>
          -- the name is there
          obtain ⟨ip, off⟩ := o
          refine Leads.bind (leads_iput (List.Perm.swap dp ip [])) fun _ => ?_
          refine Leads.bind (Leads.keep (keeps_ilock ip)) fun _ => Leads.bind Leads.look fun s => ?_
          split
          next => exact rfl
          next => exact Leads.bind (leads_iput (List.Perm.refl _)) fun _ => rfl
      | none =>
          refine Leads.bind (leads_ialloc (l := [dp]) type (by simp)) fun o => ?_
          cases o with
          | none => exact Leads.bind (leads_iput (List.Perm.refl _)) fun _ => rfl
          | some ip =>
              refine Leads.bind (Leads.keep (keeps_ilock ip)) fun _ => ?_
              refine Leads.bind (Leads.keep (keeps_change ip _ fun _ => rfl)) fun _ => ?_
              refine Leads.bind (leads_linkDots (l := [ip, dp]) type ip dp (by simp)) fun ok => ?_
              split
              swap
              next => exact leads_createFail ip dp
              refine Leads.bind Leads.look fun s => Leads.bind (leads_dirlink (l := [ip, dp]) dp name _ (by simp)) fun ok => ?_
              split
              swap
              next => exact leads_createFail ip dp
              refine Leads.bind (Leads.keep (keeps_note _)) fun _ => ?_
              refine Leads.bind (h := fun _ => ⟨[ip, dp], 3⟩) ?_ fun _ =>
                Leads.bind (leads_iput (List.Perm.swap dp ip [])) fun _ => rfl
              split
              next =>
                refine Leads.bind (Leads.keep (keeps_note _)) fun _ => ?_
                exact Leads.keep (keeps_change dp _ fun _ => rfl)
              next => exact rfl

/-! ## The other calls -/

theorem leads_unlinkOld (ip : Ip) : Leads p (unlinkOld ip) ⟨ip :: l, k⟩ fun _ => ⟨l, k⟩ := by
  refine Leads.bind (Leads.keep (keeps_ilock ip)) fun _ => ?_
  exact Leads.bind (Leads.keep (keeps_change ip _ fun _ => rfl)) fun _ => leads_putBack _

/-- `ip` is held while the other path is followed. -/
theorem leads_sysLink (old new : Option Path) : Leads p (sysLink p old new) ⟨[], 3⟩ fun _ => ⟨[], 3⟩ := by
  unfold sysLink
  split
  next old new =>
    refine Leads.bind (leads_namei old (by decide)) fun o => ?_
    cases o with
    | none => exact rfl
    | some ip =>
        refine Leads.bind (Leads.keep (keeps_ilock ip)) fun _ => Leads.bind Leads.look fun s => ?_
        split
        next => exact leads_putBack _
        next =>
          refine Leads.bind (Leads.keep (keeps_note _)) fun _ => ?_
          refine Leads.bind (Leads.keep (keeps_change ip _ fun _ => rfl)) fun _ => ?_
          refine Leads.bind (leads_namex (l := [ip]) new true (by simp)) fun o => ?_
          cases o with
          | none => exact leads_unlinkOld ip
          | some o =>
              obtain ⟨dp, name⟩ := o
              refine Leads.bind (Leads.keep (keeps_ilock dp)) fun _ => Leads.bind Leads.look fun s => ?_
              refine Leads.bind (leads_dirlink (l := [dp, ip]) dp name _ (by simp)) fun ok => ?_
              split
              next =>
                refine Leads.bind (Leads.keep (keeps_note _)) fun _ => ?_
                exact Leads.bind (leads_iput (List.Perm.refl _)) fun _ => leads_putBack _
              next => exact Leads.bind (leads_iput (List.Perm.refl _)) fun _ => leads_unlinkOld ip
  next => exact rfl

theorem leads_sysUnlink (path : Option Path) : Leads p (sysUnlink p path) ⟨[], 2⟩ fun _ => ⟨[], 2⟩ := by
  unfold sysUnlink
  cases path with
  | none => exact rfl
  | some path =>
      refine Leads.bind (leads_namex path true (by decide)) fun o => ?_
      cases o with
      | none => exact rfl
      | some o =>
          obtain ⟨dp, name⟩ := o
          refine Leads.bind (Leads.keep (keeps_ilock dp)) fun _ => ?_
          split
          next => exact leads_putBack _
          next =>
            refine Leads.bind (leads_dirlookup (l := [dp]) dp name (by simp)) fun o => ?_
            cases o with
            | none => exact leads_putBack _
            | some o =>
                obtain ⟨ip, off⟩ := o
                refine Leads.bind (Leads.keep (keeps_ilock ip)) fun _ => Leads.bind Leads.look fun s => ?_
                simp only
                split
                next => exact fits_stop Panic.noConfusion
                next =>
                  split
                  next => exact Leads.bind (leads_iput (List.Perm.refl _)) fun _ => leads_putBack _
                  next =>
                    refine Leads.bind (Leads.keep (keeps_writei dp off _)) fun ok => ?_
                    split
                    swap
                    next => exact fits_stop Panic.noConfusion
                    refine Leads.bind (h := fun _ => ⟨[ip, dp], 2⟩) ?_ fun _ => ?_
                    · split
                      next => exact Leads.keep (keeps_change dp _ fun _ => rfl)
                      next => exact rfl
                    · refine Leads.bind (leads_iput (List.Perm.swap dp ip [])) fun _ => ?_
                      exact Leads.bind (Leads.keep (keeps_change ip _ fun _ => rfl)) fun _ => leads_putBack _

theorem leads_fileclose (f : Fin NFILE) : Leads p (fileclose f) g fun _ => g := by
  refine Leads.bind (Leads.keep (keeps_dropFile f)) fun o => ?_
  cases o with
  | none => exact rfl
  | some ip => exact leads_iput_other

/-- What `open` looks up it keeps. -/
theorem fits_sysOpen (path : Option Path) (omode : BitVec 32) :
    Fits p (fun _ _ => True) (sysOpen p path omode) ⟨[], if omode &&& O_CREATE ≠ 0 then 3 else 2⟩ := by
  unfold sysOpen
  cases path with
  | none => exact trivial
  | some path =>
      refine Leads.bind (h := fun o => ⟨o.toList, if omode &&& O_CREATE ≠ 0 then 3 else 2⟩) ?_ fun o => ?_
      · unfold openInode
        split
        next => exact leads_create path .file 0 0
        next =>
          refine Leads.bind (leads_namei path (by decide)) fun o => ?_
          cases o with
          | none => exact rfl
          | some ip =>
              refine Leads.bind (Leads.keep (keeps_ilock ip)) fun _ => Leads.bind Leads.look fun s => ?_
              split
              next => exact Leads.bind (leads_iput (List.Perm.refl _)) fun _ => rfl
              next => exact rfl
      · cases o with
        | none => exact trivial
        | some ip =>
            refine Leads.bind Leads.look fun s => ?_
            simp only
            split
            next => exact Leads.bind (leads_iput (List.Perm.refl _)) fun _ => trivial
            next =>
              refine Leads.bind (Leads.keep keeps_filealloc) fun o => ?_
              cases o with
              | none => exact Leads.bind (leads_iput (List.Perm.refl _)) fun _ => trivial
              | some f =>
                  refine Leads.bind (Leads.keep (keeps_fdalloc p f)) fun o => ?_
                  cases o with
                  | none =>
                      refine Leads.bind (leads_fileclose f) fun _ => ?_
                      exact Leads.bind (leads_iput (List.Perm.refl _)) fun _ => trivial
                  | some fd =>
                      refine Leads.bind (Leads.write fun s => Same.refl s) fun _ => ?_
                      refine Leads.bind (h := fun _ => ⟨[ip], if omode &&& O_CREATE ≠ 0 then 3 else 2⟩) ?_ fun _ => trivial
                      split
                      next => exact Leads.keep (keeps_itrunc ip)
                      next => exact rfl

/-- What `sys_mkdir` and `sys_mknod` do. -/
theorem leads_made (path : Path) (type : FileType) (major minor : BitVec 16) {f : Option Ip → Steps Int}
    (hnone : f none = pure (-1)) (hsome : ∀ ip, f (some ip) = iput ip >>= fun _ => pure 0) :
    Leads p (create p path type major minor >>= f) ⟨[], 3⟩ fun _ => ⟨[], 3⟩ := by
  refine Leads.bind (leads_create path type major minor) fun o => ?_
  cases o with
  | none => exact hnone ▸ rfl
  | some ip => exact hsome ip ▸ leads_putBack _

theorem leads_sysMkdir (path : Option Path) : Leads p (sysMkdir p path) ⟨[], 3⟩ fun _ => ⟨[], 3⟩ := by
  unfold sysMkdir
  cases path with
  | none => exact rfl
  | some path => exact leads_made path .dir 0 0 rfl fun _ => rfl

theorem leads_sysMknod (path : Option Path) (major minor : BitVec 16) :
    Leads p (sysMknod p path major minor) ⟨[], 3⟩ fun _ => ⟨[], 3⟩ := by
  unfold sysMknod
  cases path with
  | none => exact rfl
  | some path => exact leads_made path .device major minor rfl fun _ => rfl

theorem FS.cwd_setProc (s : FS) (p q : Pid) (e : Proc) :
    ((s.setProc p e).proc q).cwd = if q = p then e.cwd else (s.proc q).cwd := by
  unfold FS.setProc
  simp only [Function.update_apply]
  split <;> rfl

theorem FS.used_setProc (s : FS) (p q : Pid) (e : Proc) :
    ((s.setProc p e).proc q).used = if q = p then e.used else (s.proc q).used := by
  unfold FS.setProc
  simp only [Function.update_apply]
  split <;> rfl

/-- One more reference to `ip`, for the processes. -/
def oneMore (base : Ip → Nat) (ip jp : Ip) : Nat := base jp + if jp = ip then 1 else 0

theorem oneMore_pos (base : Ip → Nat) (ip : Ip) : 0 < oneMore base ip ip := by
  unfold oneMore
  rw [if_pos rfl]
  exact Nat.succ_pos _

theorem le_oneMore (base : Ip → Nat) (ip jp : Ip) : base jp ≤ oneMore base ip jp := Nat.le_add_right ..

/-- The current directories still have references where `q` gets one that has. -/
theorem cwd_pos_setProc {q : Pid} {e : Proc} {base' : Ip → Nat}
    (hs : ∀ r, live r ∨ (s.proc r).used = true → 0 < base (s.proc r).cwd) (hle : ∀ jp, base jp ≤ base' jp) (hcwd : 0 < base' e.cwd) :
    ∀ r, live r ∨ ((s.setProc q e).proc r).used = true → 0 < base' ((s.setProc q e).proc r).cwd := by
  intro r hr
  rw [FS.used_setProc] at hr
  rw [FS.cwd_setProc]
  by_cases hq : r = q
  · rw [if_pos hq]
    exact hcwd
  · rw [if_neg hq] at hr ⊢
    exact Nat.lt_of_lt_of_le (hs r hr) (hle _)

/-- The reference of the call becomes one of the process. -/
theorem leads_setCwd (ip : Ip) : Leads p (modify fun s => s.setProc p { s.proc p with cwd := ip } : Steps PUnit)
    ⟨[ip], k + 1⟩ fun _ => ⟨[], k⟩ := by
  intro live base o c hp ho hfull hheld
  refine Triple.modify _ fun s hs => ⟨oneMore base ip, ⟨[], k⟩, rfl, ⟨fun jp => ?_, ?_⟩, ?_, Nat.le_succ k, Nat.zero_le _⟩
  · have hjp := hs.1 jp
    show (s.itable jp).ref ≤ oneMore base ip jp + o jp + [].count jp
    rw [List.count_singleton] at hjp
    unfold oneMore
    by_cases hj : jp = ip
    · rw [if_pos hj]
      rw [if_pos (beq_iff_eq.2 hj.symm)] at hjp
      simp only [List.count_nil]
      omega
    · rw [if_neg hj]
      rw [if_neg fun h => hj (beq_iff_eq.1 h).symm] at hjp
      exact hjp
  · exact cwd_pos_setProc hs.2 (le_oneMore base ip) (oneMore_pos base ip)
  · have hle : taken (oneMore base ip) ≤ taken base + 1 := taken_add_single base ip
    simp only
    omega

/-- The new directory is held from then on for the process. -/
theorem fits_sysChdir (path : Option Path) : Fits p (fun _ _ => True) (sysChdir p path) ⟨[], 2⟩ := by
  unfold sysChdir
  cases path with
  | none => exact trivial
  | some path =>
      refine Leads.bind (leads_namei path (by decide)) fun o => ?_
      cases o with
      | none => exact trivial
      | some ip =>
          refine Leads.bind (Leads.keep (keeps_ilock ip)) fun _ => Leads.bind Leads.look fun s => ?_
          split
          next => exact Leads.bind (leads_iput (List.Perm.refl _)) fun _ => trivial
          next => exact Leads.bind leads_iput_other fun _ => Leads.bind (leads_setCwd ip) fun _ => trivial

theorem leads_sysExec (path : Option Path) (argc : Option Nat) :
    Leads p (sysExec p path argc) ⟨[], 2⟩ fun _ => ⟨[], 2⟩ := by
  unfold sysExec
  cases path with
  | none => exact rfl
  | some path =>
      refine Leads.bind (leads_namei path (by decide)) fun o => ?_
      cases o with
      | none => exact rfl
      | some ip => exact Leads.bind (Leads.keep (keeps_ilock ip)) fun _ => leads_putBack _

theorem leads_sysDup (fd : Int) : Leads p (sysDup p fd) g fun _ => g := by
  refine Leads.bind (Leads.keep (keeps_argfd p fd)) fun o => ?_
  cases o with
  | none => exact rfl
  | some o =>
      refine Leads.bind (Leads.keep (keeps_fdalloc p o.2)) fun o' => ?_
      cases o' with
      | none => exact rfl
      | some fd => exact Leads.bind (Leads.keep (keeps_filedup o.2)) fun _ => rfl

theorem leads_sysClose (fd : Int) : Leads p (sysClose p fd) g fun _ => g := by
  refine Leads.bind (Leads.keep (keeps_argfd p fd)) fun o => ?_
  cases o with
  | none => exact rfl
  | some o =>
      refine Leads.bind (Leads.write fun s => same_setFd s p o.1 none) fun _ => ?_
      exact Leads.bind (leads_fileclose o.2) fun _ => rfl

/-- The current directory of the parent has a reference already, and the child's is one more. -/
theorem leads_inheritCwd (np : Pid) : Leads p (liftM (inheritCwd p np)) g fun _ => g := by
  intro live base o c hp ho hfull hheld
  refine Triple.of_ok fun s hs => ⟨_, _, rfl, oneMore base (s.proc p).cwd, g, rfl, ⟨fun jp => ?_, ?_⟩, ?_, le_rfl, hheld⟩
  · have hjp := hs.1 jp
    refine (ref_setInode s (s.proc p).cwd _ jp).trans_le ?_
    unfold oneMore
    by_cases hj : jp = (s.proc p).cwd
    · rw [hj] at hjp
      rw [if_pos hj, if_pos hj, hj]
      simp only
      omega
    · rw [if_neg hj, if_neg hj]
      exact hjp
  · exact cwd_pos_setProc (s := s.setInode (s.proc p).cwd _) hs.2 (le_oneMore base _) (oneMore_pos base _)
  · refine Nat.add_le_add_right (taken_mono fun jp hjp => ?_) _
    unfold oneMore at hjp
    by_cases hj : jp = (s.proc p).cwd
    · rw [hj]
      exact hs.2 p (Or.inl hp)
    · rw [if_neg hj] at hjp
      exact hjp

theorem leads_kfork (np : Pid) : Leads p (kfork p np) g fun _ => g := by
  refine Leads.bind (h := fun _ => g) (Prog.Fit.forM (may_mono p) g fun fd _ => ?_) fun _ => leads_inheritCwd np
  refine Leads.bind Leads.look fun s => ?_
  cases (s.proc p).ofile fd with
  | none => exact rfl
  | some f =>
      refine Leads.bind (Leads.keep (keeps_filedup f)) fun _ => ?_
      exact Leads.write fun s => same_setFd s np fd (some f)

theorem leads_setUnused : Leads p (modify fun s => s.setProc p { s.proc p with used := false } : Steps PUnit) g
    fun _ => g := by
  intro live base o c hp ho hfull hheld
  refine Triple.modify _ fun s hs => ⟨base, g, rfl, ⟨hs.1, ?_⟩, le_rfl, le_rfl, hheld⟩
  exact cwd_pos_setProc hs.2 (fun _ => le_rfl) (hs.2 p (Or.inl hp))

theorem leads_kexit : Leads p (kexit p) g fun _ => g := by
  unfold kexit
  split
  next => exact fits_stop Panic.noConfusion
  next =>
    refine Leads.bind (h := fun _ => g) (Prog.Fit.forM (may_mono p) g fun fd _ => ?_) fun _ => Leads.bind Leads.look fun s => ?_
    · refine Leads.bind Leads.look fun s => ?_
      cases (s.proc p).ofile fd with
      | none => exact rfl
      | some f => exact Leads.bind (leads_fileclose f) fun _ => Leads.write fun s => same_setFd s p fd none
    · exact Leads.bind leads_iput_other fun _ => leads_setUnused

/-- How many entries of the inode table a call refers to at a time besides those that were referred to when it
    began; `n` is what following a path takes, and to enter a name in a directory takes one more. -/
def Request.need (n : Nat) : Request → Nat
  | .call (.open _ omode) => if omode &&& O_CREATE ≠ 0 then n + 1 else n
  | .call (.mkdir _) | .call (.mknod _ _ _) | .call (.link _ _) => n + 1
  | .call (.unlink _) | .call (.chdir _) | .exec _ _ => n
  | .call (.dup _) | .call (.close _) | .call (.fork _) | .call .exit => 0

theorem fits_steps (req : Request) : Fits p (fun _ _ => True) (req.steps p) ⟨[], req.need 2⟩ := by
  have hleads : ∀ {x : Steps Int} {g : Hold} {h : Int → Hold}, Leads p x g h → Fits p (fun _ _ => True) x g :=
    fun hx => Prog.Fit.mono (may_mono p) hx fun _ _ _ => trivial
  cases req with
  | exec path argc => exact hleads (leads_sysExec path argc)
  | call call => cases call with
    | «open» path omode => exact fits_sysOpen path omode
    | mkdir path => exact hleads (leads_sysMkdir path)
    | mknod path major minor => exact hleads (leads_sysMknod path major minor)
    | link old new => exact hleads (leads_sysLink old new)
    | unlink path => exact hleads (leads_sysUnlink path)
    | chdir path => exact fits_sysChdir path
    | dup fd => exact hleads (leads_sysDup fd)
    | close fd => exact hleads (leads_sysClose fd)
    | fork np => exact Leads.bind (leads_kfork np) fun _ => trivial
    | exit => exact Leads.bind leads_kexit fun _ => trivial

end Xv6.Fs.Interleaved
