import Mathlib.Logic.Relation
import Xv6.Fs.Refs

set_option autoImplicit false

/-! # What the functions of `fs.c` do

One triple for each function, in terms of the disk and of the references that the running system
call holds. -/

namespace Xv6.Fs

open Xv6.Lib

variable {fr : Frame} {may : Panic × FS → Prop} {c : Core} {tokens : List Token}
  {proc : Pid → Proc} {ftable : Fin NFILE → File}

/-- No panic but the two that this development is about is ruled out, and `ilock: no type` only
    while the history is strict. -/
structure Lax (fr : Frame) (may : Panic × FS → Prop) : Prop where
  other : ∀ e s, e ≠ .ilockNoType → e ≠ .unlinkNlink → may (e, s)
  noType : ∀ s : FS, ¬ fr.strict s.events → may (.ilockNoType, s)

theorem triple_stop {α : Type} {P : FS → Prop} {Q : α → FS → Prop} (e : Panic)
    (h : ∀ s, P s → may (e, s)) : Triple may P (stop e) Q :=
  Triple.bind_get fun s hs => Triple.throw _ fun _ _ => h s hs

theorem mem_slots (ip : Ip) : ip ∈ slots := by
  unfold slots
  exact List.mem_finRange ip

/-! ## The inode table -/

theorem triple_iget (hlax : Lax fr may) {inum : Nat}
    (halloc : fr.strict c.events → (c.disk inum).type ≠ .free) :
    Triple may (Sys fr c tokens proc ftable) (iget inum)
      (fun ip s => Sys fr c (⟨ip, inum, false⟩ :: tokens) proc ftable s) := by
  unfold iget
  refine Triple.bind_get fun s hs => ?_
  cases hfound : slots.find? fun ip => decide (0 < (s.itable ip).ref ∧ (s.itable ip).inum = inum) with
  | some ip =>
      obtain ⟨hpos, hinum⟩ : 0 < (s.itable ip).ref ∧ (s.itable ip).inum = inum := by
        simpa using List.find?_some hfound
      refine Triple.of_ok fun t ht => ⟨_, _, rfl, ?_⟩
      have hrefs := hs.refs.acquire hpos
      rw [hinum] at hrefs
      exact ⟨hs.core, hs.proc_eq, hs.ftable_eq, hrefs⟩
  | none =>
      have hnew : ∀ jp, 0 < (s.itable jp).ref → (s.itable jp).inum ≠ inum := by
        intro jp hpos
        have := List.find?_eq_none.1 hfound jp (mem_slots jp)
        simpa [hpos] using this
      cases hempty : slots.find? fun ip => decide ((s.itable ip).ref = 0) with
      | none => exact triple_stop _ fun _ _ => hlax.other _ _ (by simp) (by simp)
      | some ip =>
          have hzero : (s.itable ip).ref = 0 := by simpa using List.find?_some hempty
          refine Triple.of_ok fun t ht => ⟨_, _, rfl, ?_⟩
          exact ⟨hs.core, hs.proc_eq, hs.ftable_eq, hs.refs.recycle hzero hnew halloc⟩

/-- Nobody but the running system call refers to `ip`, and it does not through `tokens`. -/
def Unshared (tokens : List Token) (proc : Pid → Proc) (ftable : Fin NFILE → File) (ip : Ip) :
    Prop :=
  (∀ h, ¬ Holds proc ftable ip h) ∧ held tokens ip = 0

theorem triple_iget_new (hlax : Lax fr may) {inum : Nat} (halloc : (c.disk inum).type ≠ .free) :
    Triple may (fun s => Sys fr c tokens proc ftable s ∧
        ∀ jp, 0 < (s.itable jp).ref → (s.itable jp).inum ≠ inum) (iget inum)
      (fun ip s => Sys fr c (⟨ip, inum, false⟩ :: tokens) proc ftable s ∧
        Unshared tokens proc ftable ip) := by
  unfold iget
  refine Triple.bind_get fun s ⟨hs, hnew⟩ => ?_
  have hnone : slots.find? (fun ip => decide (0 < (s.itable ip).ref ∧ (s.itable ip).inum = inum)) =
      none := by
    refine List.find?_eq_none.2 fun jp _ => ?_
    simpa using hnew jp
  rw [hnone]
  cases hempty : slots.find? fun ip => decide ((s.itable ip).ref = 0) with
  | none => exact triple_stop _ fun _ _ => hlax.other _ _ (by simp) (by simp)
  | some ip =>
      have hzero : (s.itable ip).ref = 0 := by simpa using List.find?_some hempty
      obtain ⟨n, hn, href⟩ := hs.refs.count ip
      refine Triple.of_ok fun t ht => ⟨_, _, rfl, ?_, ?_, by omega⟩
      · exact ⟨hs.core, hs.proc_eq, hs.ftable_eq, hs.refs.recycle hzero hnew fun _ => halloc⟩
      · exact hn.eq_zero_iff.1 (by omega)

/-- What is known of an inode that has been locked. -/
theorem Sys.entry {s : FS} {ip : Ip} {inum : Nat}
    (h : Sys fr c tokens proc ftable s) (ht : (⟨ip, inum, true⟩ : Token) ∈ tokens) :
    Copy (s.itable ip) (c.disk inum) ∧ (s.itable ip).inum = inum ∧
      (s.itable ip).valid = true ∧ (c.disk inum).type ≠ .free := by
  have hpos := h.refs.ref_pos ht
  obtain ⟨hinum, hvalid⟩ := h.refs.token _ ht
  have hcopy := h.refs.copy ip hpos (hvalid rfl)
  have halloc := h.refs.alloc ip hpos (Or.inl (hvalid rfl))
  simp only at hinum
  rw [hinum] at hcopy halloc
  exact ⟨hcopy, hinum, hvalid rfl, halloc⟩

theorem triple_ilock (hlax : Lax fr may) {ip : Ip} {inum : Nat} {v : Bool} :
    Triple may (Sys fr c (⟨ip, inum, v⟩ :: tokens) proc ftable) (ilock ip)
      (fun _ s => Sys fr c (⟨ip, inum, true⟩ :: tokens) proc ftable s) := by
  unfold ilock
  refine Triple.bind_get fun s hs => ?_
  have hmem : (⟨ip, inum, v⟩ : Token) ∈ (⟨ip, inum, v⟩ : Token) :: tokens := List.mem_cons_self ..
  have hpos := hs.refs.ref_pos hmem
  have hinum : (s.itable ip).inum = inum := (hs.refs.token _ hmem).1
  refine Triple.ite (fun hlt => absurd hpos (by simp only; omega)) fun _ => ?_
  refine Triple.ite (fun hvalid => Triple.pure _ fun t ht => ?_) fun _ => ?_
  · subst ht
    refine ⟨hs.core, hs.proc_eq, hs.ftable_eq, ⟨hs.refs.count, hs.refs.uniq, hs.refs.copy,
      hs.refs.alloc, fun t ht => ?_, hs.refs.used⟩⟩
    rcases List.mem_cons.1 ht with rfl | ht
    · exact ⟨hinum, fun _ => hvalid⟩
    · exact hs.refs.token t (List.mem_cons_of_mem _ ht)
  · rw [hs.disk, hinum]
    refine Triple.bind (R := fun _ t => t = s.setInode ip
      { (s.itable ip).load (c.disk inum) with valid := true }) (Triple.set _ fun _ _ => rfl) fun _ => ?_
    refine Triple.ite (fun hfree => triple_stop _ fun t ht => hlax.noType t fun hstrict => ?_)
      fun hfree => Triple.pure _ fun t ht => ?_
    · have hevents : t.events = c.events := by
        rw [ht, ← hs.core]
        rfl
      rw [hevents] at hstrict
      refine hs.refs.alloc ip hpos (Or.inr (Or.inr hstrict)) ?_
      rw [hinum]
      exact hfree
    · subst ht
      exact ⟨hs.core, hs.proc_eq, hs.ftable_eq, hs.refs.load hfree⟩

/-- The fields of a locked inode that are kept on disk, its type apart, are changed on both sides. -/
theorem triple_change {ip : Ip} {inum : Nat} {f : Inode → Inode} {d : Dinode}
    (hkeep : ∀ e, (f e).inum = e.inum ∧ (f e).ref = e.ref ∧ (f e).valid = e.valid)
    (hcopy : ∀ e, Copy e (c.disk inum) → Copy (f e) d)
    (hcontent : d.ents = (c.disk inum).ents ∧ d.data = (c.disk inum).data)
    (hd : d.type ≠ .free) :
    Triple may (Sys fr c (⟨ip, inum, true⟩ :: tokens) proc ftable) (change ip f)
      (fun _ s => Sys fr (c.setDisk inum d) (⟨ip, inum, true⟩ :: tokens) proc ftable s) := by
  refine Triple.of_ok fun s hs => ⟨_, _, rfl, ?_⟩
  obtain ⟨hc, hinum, -, -⟩ := hs.entry (List.mem_cons_self ..)
  have hstore : (f (s.itable ip)).store (s.disk inum) = d := by
    obtain ⟨h1, h2, h3, h4⟩ := hcopy _ hc
    rw [hs.disk, Inode.store, h1, h2, h3, h4, ← hcontent.1, ← hcontent.2]
  have hcore := hs.core
  refine ⟨?_, hs.proc_eq, hs.ftable_eq, ?_⟩
  · subst hcore
    simp only [FS.core, FS.setDisk, FS.setInode, Core.setDisk, Function.update_self]
    rw [(hkeep _).1, hinum, hstore]
  · exact hs.refs.change (hkeep _) (hcopy _ hc) hd

/-! ## `iput` -/

/-- The state after the free branch. -/
def FS.ifreed (s : FS) (ip : Ip) : FS :=
  (({ s with events := .freed (s.itable ip).inum (isParent s.ninodes s.disk (s.itable ip).inum) ::
        s.events } : FS).setDisk (s.itable ip).inum
      (({ s.itable ip with type := .free } : Inode).store
        (s.disk (s.itable ip).inum).trunc)).setInode ip
    { s.itable ip with type := .free, valid := false }

theorem triple_ifree {ip : Ip} {s : FS} : Triple may (fun t => t = s) (do
      note (.freed (s.itable ip).inum (isParent s.ninodes s.disk (s.itable ip).inum))
      itrunc ip
      change ip fun e => { e with type := .free }
      modify fun s => s.setInode ip { s.itable ip with valid := false })
    (fun _ t => t = s.ifreed ip) := by
  refine Triple.of_ok fun t ht => ⟨_, _, rfl, ?_⟩
  subst ht
  simp [FS.ifreed, FS.setDisk, FS.setInode, Inode.store, Dinode.trunc]

/-- The state after `iput`. -/
def FS.iput (s : FS) (ip : Ip) : FS :=
  let s := if (s.itable ip).ref = 1 ∧ (s.itable ip).valid = true ∧ (s.itable ip).nlink = 0 then
    s.ifreed ip else s
  s.setInode ip { s.itable ip with ref := (s.itable ip).ref - 1 }

theorem iput_eq (ip : Ip) (s : FS) : iput ip s = .ok (⟨⟩, s.iput ip) := by
  have htriple : Triple (fun _ => False) (fun t => t = s) (iput ip) (fun _ t => t = s.iput ip) := by
    unfold iput FS.iput
    refine Triple.bind_get fun s' hs' => ?_
    subst hs'
    by_cases hlast : (s'.itable ip).ref = 1 ∧ (s'.itable ip).valid = true ∧ (s'.itable ip).nlink = 0
    · rw [if_pos hlast]
      refine Triple.bind (R := fun _ t => t = s'.ifreed ip)
        (Triple.ite (fun _ => triple_ifree) fun h => absurd hlast h) fun _ =>
        Triple.modify _ fun t ht => ?_
      rw [ht]
    · rw [if_neg hlast]
      refine Triple.bind (R := fun _ t => t = s')
        (Triple.ite (fun h => absurd h hlast) fun _ => Triple.pure _ fun _ h => h) fun _ =>
        Triple.modify _ fun t ht => ?_
      rw [ht]
  obtain ⟨_, t, hr, rfl⟩ := htriple.exists_ok rfl
  exact hr

theorem Sys.ifreed {s : FS} {ip : Ip} {inum : Nat} {v : Bool}
    (hs : Sys fr c (⟨ip, inum, v⟩ :: tokens) proc ftable s)
    (hlast : (s.itable ip).ref = 1 ∧ (s.itable ip).valid = true ∧ (s.itable ip).nlink = 0) :
    Sys fr (c.free inum) tokens proc ftable ((s.ifreed ip).setInode ip
        { (s.ifreed ip).itable ip with ref := ((s.ifreed ip).itable ip).ref - 1 }) ∧
      (c.disk inum).type ≠ .free ∧ (c.disk inum).nlink = 0 ∧ ¬ fr.inuse inum := by
  have hmem : (⟨ip, inum, v⟩ : Token) ∈ (⟨ip, inum, v⟩ : Token) :: tokens := List.mem_cons_self ..
  have hpos := hs.refs.ref_pos hmem
  have hinum : (s.itable ip).inum = inum := (hs.refs.token _ hmem).1
  have hcopy := hs.refs.copy ip hpos hlast.2.1
  have halloc := hs.refs.alloc ip hpos (Or.inl hlast.2.1)
  rw [hinum] at hcopy halloc
  obtain ⟨-, hmajor, hminor, hnlink⟩ := hcopy
  have hcore := hs.core
  obtain ⟨hrefs, hunshared⟩ := hs.refs.free (d := (c.disk inum).freed) hlast.1
    (e := { s.itable ip with type := .free, valid := false, ref := (s.itable ip).ref - 1 })
    (by simp [hlast.1])
  refine ⟨⟨?_, hs.proc_eq, hs.ftable_eq, ?_⟩, halloc, hnlink.symm.trans hlast.2.2, fun hinuse => ?_⟩
  · subst hcore
    simp only [FS.core] at hmajor hminor hnlink
    simp [FS.ifreed, FS.core, FS.setDisk, FS.setInode, Core.free, Core.setDisk, Core.note,
      Inode.store, Dinode.freed, Dinode.trunc, hinum, hmajor, hminor, hnlink]
  · have hmono : fr.strict (c.free inum).events → fr.strict c.events := fr.mono _ _
    simpa [FS.ifreed, FS.setInode, FS.setDisk, Core.free, Core.setDisk, Core.note] using
      hrefs.mono hmono
  · obtain ⟨jp, hd, hh, hjp⟩ := hs.refs.used inum hinuse
    obtain ⟨n, hn, href⟩ := hs.refs.count jp
    have hjpos : 0 < (s.itable jp).ref := by
      have := hn.pos hh
      omega
    obtain rfl := hs.refs.uniq jp ip hjpos hpos (hjp.trans hinum.symm)
    exact hunshared.1 hd hh

/-- `iput` gives a reference back, and frees the inode if that was the last one and there are no links. -/
theorem triple_iput {ip : Ip} {inum : Nat} {v : Bool} :
    Triple may (Sys fr c (⟨ip, inum, v⟩ :: tokens) proc ftable) (iput ip)
      (fun _ s => Sys fr c tokens proc ftable s ∨
        (Sys fr (c.free inum) tokens proc ftable s ∧ (c.disk inum).type ≠ .free ∧
          (c.disk inum).nlink = 0 ∧ ¬ fr.inuse inum)) := by
  refine Triple.of_ok fun s hs => ⟨_, _, iput_eq ip s, ?_⟩
  unfold FS.iput
  by_cases hlast : (s.itable ip).ref = 1 ∧ (s.itable ip).valid = true ∧ (s.itable ip).nlink = 0
  · rw [if_pos hlast]
    exact Or.inr (hs.ifreed hlast)
  · rw [if_neg hlast]
    exact Or.inl ⟨hs.core, hs.proc_eq, hs.ftable_eq, hs.refs.release⟩

/-- The last reference to a locked inode without links. -/
theorem triple_iput_last {ip : Ip} {inum : Nat} (hnlink : (c.disk inum).nlink = 0)
    (hunshared : Unshared tokens proc ftable ip) :
    Triple may (Sys fr c (⟨ip, inum, true⟩ :: tokens) proc ftable) (iput ip)
      (fun _ s => Sys fr (c.free inum) tokens proc ftable s) := by
  refine Triple.of_ok fun s hs => ⟨_, _, iput_eq ip s, ?_⟩
  have hlast : (s.itable ip).ref = 1 ∧ (s.itable ip).valid = true ∧ (s.itable ip).nlink = 0 := by
    obtain ⟨hcopy, -, hvalid, -⟩ := hs.entry (List.mem_cons_self ..)
    obtain ⟨n, hn, href⟩ := hs.refs.count ip
    have hn0 : n = 0 := hn.eq_zero_iff.2 hunshared.1
    rw [held_cons_self, hunshared.2, hn0] at href
    exact ⟨href, hvalid, hcopy.2.2.2.trans hnlink⟩
  unfold FS.iput
  rw [if_pos hlast]
  exact (hs.ifreed hlast).1

/-! ## Directory entries -/

/-- Only what the inode table copies matters to it. -/
theorem Refs.congr {inuse : Nat → Prop} {strict : Prop} {disk disk' : Nat → Dinode} {itable : Ip → Inode}
    (h : Refs inuse strict disk tokens proc ftable itable)
    (heq : ∀ i, (disk' i).type = (disk i).type ∧ (disk' i).major = (disk i).major ∧
      (disk' i).minor = (disk i).minor ∧ (disk' i).nlink = (disk i).nlink) :
    Refs inuse strict disk' tokens proc ftable itable := by
  refine ⟨h.count, h.uniq, fun ip hpos hvalid => ?_, fun ip hpos hor => ?_, h.token, h.used⟩
  · obtain ⟨h1, h2, h3, h4⟩ := heq (itable ip).inum
    unfold Copy
    rw [h1, h2, h3, h4]
    exact h.copy ip hpos hvalid
  · rw [(heq _).1]
    exact h.alloc ip hpos hor

/-- The directory with other entries. -/
def Core.setEnts (c : Core) (inum : Nat) (ents : List Dirent) : Core :=
  c.setDisk inum { c.disk inum with ents := ents }

/-- The content of an inode is changed on disk. -/
theorem Sys.setContent {s : FS} (h : Sys fr c tokens proc ftable s) (inum : Nat)
    {f : Dinode → Dinode} (hf : ∀ d, (f d).type = d.type ∧ (f d).major = d.major ∧
      (f d).minor = d.minor ∧ (f d).nlink = d.nlink) :
    Sys fr (c.setDisk inum (f (c.disk inum))) tokens proc ftable
      (s.setDisk inum (f (s.disk inum))) := by
  refine ⟨?_, h.proc_eq, h.ftable_eq, h.refs.congr fun i => ?_⟩
  · have hcore := h.core
    subst hcore
    rfl
  · by_cases hi : i = inum
    · subst hi
      rw [Core.setDisk_self]
      exact hf _
    · simp [Core.setDisk_of_ne _ _ hi]

theorem Sys.setEnts {s : FS} (h : Sys fr c tokens proc ftable s) (inum : Nat)
    (ents : List Dirent) : Sys fr (c.setEnts inum ents) tokens proc ftable
      (s.setDisk inum { s.disk inum with ents := ents }) :=
  h.setContent inum (f := fun d => { d with ents := ents }) fun _ => ⟨rfl, rfl, rfl, rfl⟩

theorem triple_iupdate {ip : Ip} {inum : Nat} :
    Triple may (Sys fr c (⟨ip, inum, true⟩ :: tokens) proc ftable) (iupdate ip)
      (fun _ s => Sys fr c (⟨ip, inum, true⟩ :: tokens) proc ftable s) := by
  refine Triple.modify _ fun s hs => ?_
  obtain ⟨⟨h1, h2, h3, h4⟩, hinum, -, -⟩ := hs.entry (List.mem_cons_self ..)
  have hsame : (s.itable ip).store (s.disk inum) = s.disk inum := by
    rw [Inode.store, h1, h2, h3, h4, hs.disk]
  rw [hinum, hsame, FS.setDisk, Function.update_eq_self]
  exact hs

theorem triple_balloc : Triple may (Sys fr c tokens proc ftable) balloc
    (fun _ s => Sys fr c tokens proc ftable s) := by
  unfold balloc
  refine Triple.bind_get fun s hs => ?_
  cases s.blocks with
  | nil =>
      refine Triple.pure _ fun t ht => ?_
      subst ht
      exact hs
  | cons b rest =>
      exact Triple.of_ok fun t ht => ⟨_, _, rfl, hs.core, hs.proc_eq, hs.ftable_eq, hs.refs⟩

theorem triple_writei {dp : Ip} {inum off : Nat} {de : Dirent} :
    Triple may (Sys fr c (⟨dp, inum, true⟩ :: tokens) proc ftable) (writei dp off de)
      (fun ok s => Sys fr
        (if ok then c.setEnts inum (putEntry (c.disk inum).ents off de) else c)
        (⟨dp, inum, true⟩ :: tokens) proc ftable s ∧ (ok = true → off ≤ (c.disk inum).ents.length)) := by
  unfold writei
  refine Triple.bind_get fun s hs => ?_
  obtain ⟨-, hinum, -, -⟩ := hs.entry (List.mem_cons_self ..)
  have hstart : ∀ t, t = s →
      Sys fr c (⟨dp, inum, true⟩ :: tokens) proc ftable t := fun t ht => ht ▸ hs
  rw [hinum, hs.disk]
  refine Triple.ite (fun _ => Triple.pure _ fun t ht => ⟨hstart t ht, by simp⟩) fun hoff => ?_
  refine Triple.bind (R := fun _ t => Sys fr c (⟨dp, inum, true⟩ :: tokens) proc ftable t)
    (Triple.ite (fun _ => Triple.pure _ hstart) fun _ =>
      Triple.conseq triple_balloc hstart fun _ _ h => h) fun ok => ?_
  refine Triple.bind (R := fun _ t => Sys fr
      (if ok then c.setEnts inum (putEntry (c.disk inum).ents off de) else c)
      (⟨dp, inum, true⟩ :: tokens) proc ftable t) ?_ fun _ =>
    Triple.bind triple_iupdate fun _ => Triple.pure _ fun t ht => ⟨ht, fun _ => by omega⟩
  cases ok with
  | true => exact Triple.modify _ fun t ht => ht.setEnts inum _
  | false => exact Triple.pure _ fun t ht => ht

/-- What is known of an entry that has been found. -/
theorem findEntry_some {ents : List Dirent} {name : Name} {off : Nat}
    (h : findEntry ents name = some off) : off < ents.length ∧
      ents.getD off ⟨0, []⟩ ∈ ents ∧ ents[off]? = some (ents.getD off ⟨0, []⟩) ∧
      (ents.getD off ⟨0, []⟩).inum ≠ 0 ∧ (ents.getD off ⟨0, []⟩).name = name := by
  obtain ⟨hlt, hp, -⟩ := List.findIdx?_eq_some_iff_getElem.1 h
  have hget : ents.getD off ⟨0, []⟩ = ents[off] := by simp [hlt]
  rw [hget]
  simp only [namecmp, Bool.and_eq_true, decide_eq_true_eq] at hp
  exact ⟨hlt, List.getElem_mem hlt, by simp [hlt], hp.1, hp.2.symm⟩

theorem findEntry_none {ents : List Dirent} {name : Name} (h : findEntry ents name = none)
    {de : Dirent} (hde : de ∈ ents) (hlive : de.inum ≠ 0) : de.name ≠ name := by
  have := List.findIdx?_eq_none_iff.1 h de hde
  simp only [namecmp, Bool.and_eq_false_iff, decide_eq_false_iff_not] at this
  rcases this with h0 | hne
  · exact absurd hlive h0
  · exact fun heq => hne heq.symm

/-- The entries of directories name allocated inodes. -/
def Named (c : Core) : Prop :=
  ∀ i, (c.disk i).type = .dir → ∀ de ∈ (c.disk i).ents, de.inum ≠ 0 → (c.disk de.inum).type ≠ .free

/-- If the name is there, its inode is allocated. -/
def Resolves (c : Core) (inum : Nat) (name : Name) : Prop :=
  (c.disk inum).type = .dir → ∀ off, findEntry (c.disk inum).ents name = some off →
    (c.disk ((c.disk inum).ents.getD off ⟨0, []⟩).inum).type ≠ .free

theorem Named.resolves (h : Named c) (inum : Nat) (name : Name) : Resolves c inum name := by
  intro hdir off hfind
  obtain ⟨-, hmem, -, hlive, -⟩ := findEntry_some hfind
  exact h inum hdir _ hmem hlive

theorem Resolves.of_none {inum : Nat} {name : Name}
    (h : findEntry (c.disk inum).ents name = none) : Resolves c inum name := by
  intro _ off hfind
  rw [h] at hfind
  cases hfind

theorem triple_dirlookup (hlax : Lax fr may) {dp : Ip} {inum : Nat} {name : Name}
    (hnamed : fr.strict c.events → Resolves c inum name) :
    Triple may (Sys fr c (⟨dp, inum, true⟩ :: tokens) proc ftable) (dirlookup dp name)
      (fun r s => (c.disk inum).type = .dir ∧
        (r = none → findEntry (c.disk inum).ents name = none ∧
          Sys fr c (⟨dp, inum, true⟩ :: tokens) proc ftable s) ∧
        ∀ ip off, r = some (ip, off) → findEntry (c.disk inum).ents name = some off ∧
          Sys fr c (⟨ip, ((c.disk inum).ents.getD off ⟨0, []⟩).inum, false⟩ ::
            ⟨dp, inum, true⟩ :: tokens) proc ftable s) := by
  unfold dirlookup
  refine Triple.bind_get fun s hs => ?_
  obtain ⟨hcopy, hinum, -, -⟩ := hs.entry (List.mem_cons_self ..)
  refine Triple.ite (fun _ => triple_stop _ fun _ _ => hlax.other _ _ (by simp) (by simp)) fun hdir => ?_
  have hdir : (c.disk inum).type = .dir := by
    rw [← hcopy.1]
    exact not_not.1 hdir
  rw [hinum, hs.disk]
  dsimp only
  cases hfind : findEntry (c.disk inum).ents name with
  | none => exact Triple.pure _ fun t ht => ⟨hdir, fun _ => ⟨rfl, ht ▸ hs⟩, by simp⟩
  | some off =>
      refine Triple.bind (Triple.conseq (triple_iget hlax fun hstrict =>
        hnamed hstrict hdir off hfind) (fun t ht => ht ▸ hs) fun _ _ h => h) fun ip => ?_
      refine Triple.pure _ fun t ht => ⟨hdir, by simp, fun ip' off' he => ?_⟩
      simp only [Option.some.injEq, Prod.mk.injEq] at he
      obtain ⟨rfl, rfl⟩ := he
      exact ⟨rfl, ht⟩

/-! ## Entering a name, and following a path -/

/-- `iput` frees an inode without links. -/
def FreeStep (inuse : Nat → Prop) (c c' : Core) : Prop :=
  ∃ inum, (c.disk inum).type ≠ .free ∧ (c.disk inum).nlink = 0 ∧ ¬ inuse inum ∧ c' = c.free inum

def Frees (inuse : Nat → Prop) : Core → Core → Prop := Relation.ReflTransGen (FreeStep inuse)

theorem triple_iput_frees {ip : Ip} {inum : Nat} {v : Bool} :
    Triple may (Sys fr c (⟨ip, inum, v⟩ :: tokens) proc ftable) (iput ip)
      (fun _ s => ∃ c', Sys fr c' tokens proc ftable s ∧ Frees fr.inuse c c') := by
  refine Triple.conseq triple_iput (fun _ h => h) fun _ s hs => ?_
  rcases hs with hs | ⟨hs, halloc, hnlink, hinuse⟩
  · exact ⟨c, hs, Relation.ReflTransGen.refl⟩
  · exact ⟨_, hs, Relation.ReflTransGen.single ⟨inum, halloc, hnlink, hinuse, rfl⟩⟩

/-- The directory `inum` with a name entered in its first empty entry. -/
def Core.enter (c : Core) (inum : Nat) (name : Name) (i : Nat) : Core :=
  c.setEnts inum
    (putEntry (c.disk inum).ents (emptyEntry (c.disk inum).ents) ⟨i % 2 ^ 16, name⟩)

theorem triple_dirlink (hlax : Lax fr may) {dp : Ip} {inum i : Nat} {name : Name}
    (hnamed : fr.strict c.events → Resolves c inum name) :
    Triple may (Sys fr c (⟨dp, inum, true⟩ :: tokens) proc ftable) (dirlink dp name i)
      (fun ok s => (ok = true → Sys fr (c.enter inum name i)
          (⟨dp, inum, true⟩ :: tokens) proc ftable s ∧ (c.disk inum).type = .dir ∧
          findEntry (c.disk inum).ents name = none) ∧
        (ok = false → ∃ c', Sys fr c' (⟨dp, inum, true⟩ :: tokens) proc ftable s ∧
          Frees fr.inuse c c' ∧ (findEntry (c.disk inum).ents name = none → c' = c))) := by
  unfold dirlink
  refine Triple.bind (triple_dirlookup hlax hnamed) fun r => ?_
  cases r with
  | some r =>
      obtain ⟨ip, off⟩ := r
      refine Triple.conseq (Triple.assume (c := findEntry (c.disk inum).ents name = some off)
        fun hsome => Triple.bind triple_iput_frees fun _ => Triple.pure _ fun s hs => ?_)
        (fun s hs => ⟨(hs.2.2 ip off rfl).2, (hs.2.2 ip off rfl).1⟩) fun _ _ h => h
      obtain ⟨c', hs, hfrees⟩ := hs
      exact ⟨by simp, fun _ => ⟨c', hs, hfrees, by simp [hsome]⟩⟩
  | none =>
      refine Triple.conseq (Triple.assume (c := (c.disk inum).type = .dir ∧
        findEntry (c.disk inum).ents name = none) fun hdir => ?_)
        (fun s hs => ⟨(hs.2.1 rfl).2, hs.1, (hs.2.1 rfl).1⟩) fun _ _ h => h
      refine Triple.bind_get fun s hs => ?_
      obtain ⟨-, hinum, -, -⟩ := hs.entry (List.mem_cons_self ..)
      rw [hinum, hs.disk]
      refine Triple.conseq triple_writei (fun t ht => ht ▸ hs) fun ok t ht => ⟨?_, ?_⟩
      · rintro rfl
        exact ⟨ht.1, hdir⟩
      · rintro rfl
        exact ⟨c, ht.1, Relation.ReflTransGen.refl, fun _ => rfl⟩

/-- What `namex` returns. -/
def Found (fr : Frame) (tokens : List Token) (proc : Pid → Proc)
    (ftable : Fin NFILE → File) (parent : Bool) (c : Core) : Option (Ip × Name) → FS → Prop
  | none, s => ∃ c', Sys fr c' tokens proc ftable s ∧ Frees fr.inuse c c'
  | some (ip, _), s => ∃ c' inum v,
      Sys fr c' (⟨ip, inum, v⟩ :: tokens) proc ftable s ∧ Frees fr.inuse c c' ∧
      (parent = true → v = true ∧ (c'.disk inum).type = .dir)

theorem Found.of_frees {parent : Bool} {c' : Core} (h : Frees fr.inuse c c') {r : Option (Ip × Name)} {s : FS}
    (hf : Found fr tokens proc ftable parent c' r s) :
    Found fr tokens proc ftable parent c r s := by
  match r, hf with
  | none, ⟨d, hs, hd⟩ => exact ⟨d, hs, h.trans hd⟩
  | some (ip, name), ⟨d, inum, v, hs, hd, hp⟩ => exact ⟨d, inum, v, hs, h.trans hd, hp⟩

theorem triple_namexLoop (hlax : Lax fr may) (parent : Bool) (names : List Name) {ip : Ip} {inum : Nat}
    {v : Bool} (hnamed : ∀ c', Frees fr.inuse c c' → fr.strict c'.events → Named c') :
    Triple may (Sys fr c (⟨ip, inum, v⟩ :: tokens) proc ftable)
      (namexLoop parent names ip) (Found fr tokens proc ftable parent c) := by
  induction names generalizing c ip inum v with
  | nil =>
      unfold namexLoop
      refine Triple.ite (fun _ => ?_) fun hp => Triple.pure _ fun s hs => ?_
      · exact Triple.bind triple_iput_frees fun _ => Triple.pure _ fun s hs => hs
      · exact ⟨c, inum, v, hs, Relation.ReflTransGen.refl, fun h => absurd h hp⟩
  | cons name rest ih =>
      unfold namexLoop
      refine Triple.bind (triple_ilock hlax) fun _ => Triple.bind_get fun s hs => ?_
      have hcur : ∀ t, t = s → Sys fr c (⟨ip, inum, true⟩ :: tokens) proc ftable t :=
        fun t ht => ht ▸ hs
      obtain ⟨hcopy, -, -, -⟩ := hs.entry (List.mem_cons_self ..)
      rw [hcopy.1]
      refine Triple.ite (fun _ => ?_) fun hdir => Triple.ite (fun _ => ?_) fun _ => ?_
      · exact Triple.bind (Triple.conseq triple_iput_frees hcur fun _ _ h => h) fun _ =>
          Triple.pure _ fun t ht => ht
      · exact Triple.pure _ fun t ht =>
          ⟨c, inum, true, hcur t ht, Relation.ReflTransGen.refl, fun _ => ⟨rfl, not_not.1 hdir⟩⟩
      · refine Triple.bind (Triple.conseq (triple_dirlookup hlax fun hstrict =>
          (hnamed c Relation.ReflTransGen.refl hstrict).resolves inum name) hcur fun _ _ h => h) fun r => ?_
        cases r with
        | none =>
            refine Triple.conseq (Triple.bind triple_iput_frees fun _ => Triple.pure _ fun t ht => ht)
              (fun t ht => (ht.2.1 rfl).2) fun _ _ h => h
        | some r =>
            obtain ⟨next, off⟩ := r
            refine Triple.conseq (Triple.bind triple_iput_frees fun _ => Triple.exists fun c' =>
              Triple.assume fun hfrees => ?_) (fun t ht => ((ht.2.2 next off rfl).2).swap)
              fun _ _ h => h
            refine Triple.conseq (ih fun d hd => hnamed d (hfrees.trans hd))
              (fun _ h => h) fun r t ht => ht.of_frees hfrees

theorem triple_namex (hlax : Lax fr may) (hnamed : ∀ c', Frees fr.inuse c c' → fr.strict c'.events → Named c')
    (hroot : fr.strict c.events → (c.disk ROOTINO).type ≠ .free) {p : Pid} (hp : (proc p).used = true)
    (path : Path) (parent : Bool) :
    Triple may (Sys fr c tokens proc ftable) (namex p path parent)
      (Found fr tokens proc ftable parent c) := by
  unfold namex
  refine Triple.bind_get fun s hs => ?_
  refine Triple.bind (R := fun ip t => ∃ inum,
    Sys fr c (⟨ip, inum, false⟩ :: tokens) proc ftable t) ?_ fun ip =>
      Triple.exists fun inum => triple_namexLoop hlax parent _ hnamed
  refine Triple.ite (fun _ => ?_) fun _ => ?_
  · exact Triple.conseq (triple_iget hlax hroot) (fun t ht => ht ▸ hs) fun ip t ht => ⟨_, ht⟩
  · refine Triple.of_ok fun t ht => ⟨_, _, rfl, (s.itable (s.proc p).cwd).inum, ?_⟩
    subst ht
    have hpos : 0 < (t.itable (t.proc p).cwd).ref := by
      obtain ⟨n, hn, href⟩ := hs.refs.count (t.proc p).cwd
      have hholds : Holds proc ftable (t.proc p).cwd (.inl p) := by
        refine ⟨hp, ?_⟩
        rw [hs.proc_eq]
      have := hn.pos hholds
      omega
    exact ⟨hs.core, hs.proc_eq, hs.ftable_eq, hs.refs.acquire hpos⟩

/-! ## Allocating an inode -/

/-- Nothing refers to a free inode. -/
theorem Refs.unreferenced {inuse : Nat → Prop} {strict : Prop} {disk : Nat → Dinode} {itable : Ip → Inode}
    (h : Refs inuse strict disk tokens proc ftable itable) (hvalid : ∀ t ∈ tokens, t.valid = true)
    {inum : Nat} (hfree : (disk inum).type = .free) (ip : Ip) (hpos : 0 < (itable ip).ref) :
    (itable ip).inum ≠ inum := by
  intro hinum
  have hnot := fun hor => h.alloc ip hpos hor
  rw [hinum] at hnot
  obtain ⟨n, hn, href⟩ := h.count ip
  have hn0 : n = 0 := hn.eq_zero_iff.2 fun hd hh => hnot (Or.inr (Or.inl ⟨hd, hh⟩)) hfree
  have hheld : 0 < held tokens ip := by omega
  obtain ⟨t, ht, hip⟩ := List.countP_pos_iff.1 hheld
  simp only [decide_eq_true_eq] at hip
  have := (h.token t ht).2 (hvalid t ht)
  rw [hip] at this
  exact hnot (Or.inl this) hfree

/-- `ialloc` and `ilock`: an inode that was free, and that nobody else refers to. -/
theorem triple_ialloc (hlax : Lax fr may) (hvalid : ∀ t ∈ tokens, t.valid = true) {type : FileType}
    (htype : type ≠ .free) :
    Triple may (Sys fr c tokens proc ftable) (ialloc type)
      (fun r s => (r = none → Sys fr c tokens proc ftable s) ∧
        ∀ ip, r = some ip → ∃ inum, Sys fr (c.setDisk inum ⟨type, 0, 0, 0, [], []⟩)
            (⟨ip, inum, false⟩ :: tokens) proc ftable s ∧
          ((c.disk inum).type = .free ∧ 0 < inum ∧ inum < c.ninodes ∧
            Unshared tokens proc ftable ip)) := by
  unfold ialloc
  refine Triple.bind_get fun s hs => ?_
  have hcore := hs.core
  cases hfound : (List.range' 1 (s.ninodes - 1)).find? fun i => decide ((s.disk i).type = .free) with
  | none => exact Triple.pure _ fun t ht => ⟨fun _ => ht ▸ hs, by simp⟩
  | some inum =>
      have hfree : (c.disk inum).type = .free := by
        rw [← hs.disk]
        simpa using List.find?_some hfound
      have hrange := List.mem_range'_1.1 (List.mem_of_find?_eq_some hfound)
      have hn : s.ninodes = c.ninodes := by
        rw [← hcore]
        rfl
      have hnew := hs.refs.unreferenced hvalid hfree
      have hrefs : Refs fr.inuse (fr.strict c.events) (c.setDisk inum ⟨type, 0, 0, 0, [], []⟩).disk tokens proc ftable
          s.itable := by
        refine ⟨hs.refs.count, hs.refs.uniq, fun ip hpos hv => ?_, fun ip hpos hor => ?_,
          hs.refs.token, hs.refs.used⟩
        · rw [Core.setDisk_of_ne _ _ (hnew ip hpos)]
          exact hs.refs.copy ip hpos hv
        · rw [Core.setDisk_of_ne _ _ (hnew ip hpos)]
          exact hs.refs.alloc ip hpos hor
      refine Triple.bind (R := fun _ t => Sys fr (c.setDisk inum ⟨type, 0, 0, 0, [], []⟩) tokens
        proc ftable t ∧ ∀ jp, 0 < (t.itable jp).ref → (t.itable jp).inum ≠ inum)
        (Triple.set _ fun t _ => ⟨⟨?_, hs.proc_eq, hs.ftable_eq, hrefs⟩, hnew⟩) fun _ => ?_
      · rw [← hcore]
        rfl
      · refine Triple.bind (triple_iget_new hlax ?_) fun ip => Triple.pure _ fun t ht =>
          ⟨by simp, fun jp hjp => ?_⟩
        · rw [Core.setDisk_self]
          exact htype
        · obtain rfl := Option.some.inj hjp
          exact ⟨inum, ht.1, hfree, by omega, by omega, ht.2⟩

end Xv6.Fs
