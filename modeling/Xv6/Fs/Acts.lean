import Xv6.Fs.Inodes

set_option autoImplicit false

/-! # What a system call does to the disk

Apart from the inode table, a system call is a sequence of few acts: it frees an inode without
links, `sys_link` raises a link count ahead of the entry or lowers it again, and at most once the
call does what it is called for: it creates an inode and enters its name, enters a further name or
takes one away. Invariants of the disk are proved for the acts; that the system calls consist of them
is proved once. -/

namespace Xv6.Fs

open Xv6.Lib

def Core.setNlink (c : Core) (inum : Nat) (nlink : BitVec 16) : Core :=
  c.setDisk inum { c.disk inum with nlink := nlink }

/-- `sys_unlink` has zeroed entry `off` of `dp` and lowered the link counts. -/
def Core.unlink (c : Core) (dp off : Nat) : Core :=
  let inum := ((c.disk dp).ents.getD off ⟨0, []⟩).inum
  let c₁ := c.setEnts dp (putEntry (c.disk dp).ents off ⟨0, []⟩)
  let c₂ := if (c.disk inum).type = .dir then c₁.setNlink dp ((c₁.disk dp).nlink - 1) else c₁
  c₂.setNlink inum ((c₂.disk inum).nlink - 1)

/-- The inode that `create` has made, before its name is entered. -/
def newInode (inum dp : Nat) (type : FileType) (major minor : BitVec 16) : Dinode :=
  ⟨type, major, minor, 1,
    if type = .dir then [⟨inum % 2 ^ 16, dot⟩, ⟨dp % 2 ^ 16, dotdot⟩] else [], []⟩

def Core.create (c : Core) (inum dp : Nat) (type : FileType) (major minor : BitVec 16)
    (name : Name) : Core :=
  let c₁ := (c.setDisk inum (newInode inum dp type major minor)).enter dp name inum
  let c₂ := c₁.note (.entered (c.disk dp).nlink)
  if type = .dir then
    (c₂.note (.linked (c.disk dp).nlink)).setNlink dp ((c.disk dp).nlink + 1)
  else c₂

def Core.trunc (c : Core) (inum : Nat) : Core := c.setDisk inum (c.disk inum).trunc

/-- What happens on the way. The second component is the inode whose link count `sys_link` has raised
    ahead of the entry. -/
inductive Act (inuse : Nat → Prop) : Core × Option Nat → Core × Option Nat → Prop
  | free {c : Core} {l : Option Nat} {inum : Nat} : (c.disk inum).type ≠ .free →
      (c.disk inum).nlink = 0 → ¬ inuse inum → Act inuse (c, l) (c.free inum, l)
  /-- `create` gives up the inode that it has allocated. -/
  | abort {c : Core} {inum : Nat} {d : Dinode} : (c.disk inum).type = .free →
      Act inuse (c, none) ((c.setDisk inum d).free inum, none)
  | raise {c : Core} {inum : Nat} : (c.disk inum).type ≠ .free → (c.disk inum).type ≠ .dir →
      Act inuse (c, none)
        ((c.note (.linked (c.disk inum).nlink)).setNlink inum ((c.disk inum).nlink + 1), some inum)
  | lower {c : Core} {inum : Nat} : (c.disk inum).type ≠ .free →
      Act inuse (c, some inum) (c.setNlink inum ((c.disk inum).nlink - 1), none)

/-- `create` has made an inode and entered its name. -/
inductive Made : Core → Core → Prop
  | create {c : Core} {inum dp : Nat} {type : FileType} {major minor : BitVec 16} {name : Name} :
      (c.disk inum).type = .free → 0 < inum → inum < c.ninodes → type ≠ .free →
      (c.disk dp).type = .dir → findEntry (c.disk dp).ents name = none →
      Made c (c.create inum dp type major minor name)

/-- What else a system call is called for. -/
inductive Done : Core × Option Nat → Core → Prop
  | link {c : Core} {inum dp : Nat} {name : Name} : (c.disk dp).type = .dir →
      findEntry (c.disk dp).ents name = none →
      Done (c, some inum) ((c.enter dp name inum).note (.entered (c.disk dp).nlink))
  | unlink {c : Core} {dp off : Nat} {name : Name} : (c.disk dp).type = .dir →
      findEntry (c.disk dp).ents name = some off → name ≠ dot → name ≠ dotdot →
      (c.disk ((c.disk dp).ents.getD off ⟨0, []⟩).inum).type ≠ .free →
      1 ≤ (c.disk ((c.disk dp).ents.getD off ⟨0, []⟩).inum).nlink.toInt →
      ((c.disk ((c.disk dp).ents.getD off ⟨0, []⟩).inum).type = .dir →
        isdirempty (c.disk ((c.disk dp).ents.getD off ⟨0, []⟩).inum).ents = true) →
      Done (c, none) (c.unlink dp off)

/-- What a system call keeps on its way (`P`), once it has made an inode (`Q`), and in the end
    (`R`); and what this rules out. -/
structure Kept (fr : Frame) (may : Panic × FS → Prop) (P : Core × Option Nat → Prop)
    (Q R : Core → Prop) : Prop where
  act : ∀ a b, Act fr.inuse a b → P a → P b
  made : ∀ c c', Made c c' → P (c, none) → Q c'
  done : ∀ a c, Done a c → P a → R c
  /-- `O_TRUNC` -/
  trunc : ∀ (c : Core) (inum : Nat), (c.disk inum).type = .file → R c → R (c.trunc inum)
  madeFree : ∀ c c', FreeStep fr.inuse c c' → Q c → Q c'
  doneFree : ∀ c c', FreeStep fr.inuse c c' → R c → R c'
  failed : ∀ c, P (c, none) → R c
  madeDone : ∀ c, Q c → R c
  named : ∀ c l, P (c, l) → fr.strict c.events → Named c
  root : ∀ c l, P (c, l) → fr.strict c.events → (c.disk ROOTINO).type ≠ .free
  bound : ∀ c l, P (c, l) → c.ninodes ≤ 2 ^ 16
  linked : ∀ (s : FS) (dp off : Nat) (name : Name), P (s.core, none) →
    (s.disk dp).type = .dir → findEntry (s.disk dp).ents name = some off →
    name ≠ dot → name ≠ dotdot → (s.disk ((s.disk dp).ents.getD off ⟨0, []⟩).inum).type ≠ .free →
    (s.disk ((s.disk dp).ents.getD off ⟨0, []⟩).inum).nlink.toInt < 1 → may (.unlinkNlink, s)

variable {fr : Frame} {may : Panic × FS → Prop} {P : Core × Option Nat → Prop} {Q R : Core → Prop}

theorem Kept.free (h : Kept fr may P Q R) {c c' : Core} (hstep : FreeStep fr.inuse c c')
    {l : Option Nat} (hP : P (c, l)) : P (c', l) := by
  obtain ⟨inum, halloc, hnlink, hinuse, rfl⟩ := hstep
  exact h.act _ _ (Act.free halloc hnlink hinuse) hP

theorem Frees.keep {inuse : Nat → Prop} {X : Core → Prop}
    (hX : ∀ c c', FreeStep inuse c c' → X c → X c') {c c' : Core} (hf : Frees inuse c c')
    (h : X c) : X c' := by
  induction hf with
  | refl => exact h
  | tail _ hstep ih => exact hX _ _ hstep ih

theorem Kept.frees (h : Kept fr may P Q R) {c c' : Core} {l : Option Nat}
    (hf : Frees fr.inuse c c') (hP : P (c, l)) : P (c', l) :=
  hf.keep (X := fun c => P (c, l)) (fun _ _ hstep hP => h.free hstep hP) hP

/-! ## Small facts about the acts -/

theorem isParent_congr {n inum : Nat} {disk disk' : Nat → Dinode}
    (h : ∀ i, (disk' i).type = (disk i).type ∧ (disk' i).ents = (disk i).ents) :
    isParent n disk' inum = isParent n disk inum := by
  unfold isParent
  congr 1
  funext d
  rw [(h d).1, (h d).2]

@[simp] theorem Core.setEnts_type (c : Core) (inum i : Nat) (ents : List Dirent) :
    ((c.setEnts inum ents).disk i).type = (c.disk i).type := by
  unfold Core.setEnts
  by_cases h : i = inum
  · subst h
    simp
  · rw [Core.setDisk_of_ne _ _ h]

@[simp] theorem Core.setEnts_nlink (c : Core) (inum i : Nat) (ents : List Dirent) :
    ((c.setEnts inum ents).disk i).nlink = (c.disk i).nlink := by
  unfold Core.setEnts
  by_cases h : i = inum
  · subst h
    simp
  · rw [Core.setDisk_of_ne _ _ h]

@[simp] theorem Core.setNlink_ninodes (c : Core) (inum : Nat) (v : BitVec 16) :
    (c.setNlink inum v).ninodes = c.ninodes := rfl

@[simp] theorem Core.setNlink_type (c : Core) (inum i : Nat) (v : BitVec 16) :
    ((c.setNlink inum v).disk i).type = (c.disk i).type := by
  unfold Core.setNlink
  by_cases h : i = inum
  · subst h
    simp
  · rw [Core.setDisk_of_ne _ _ h]

@[simp] theorem Core.setNlink_ents (c : Core) (inum i : Nat) (v : BitVec 16) :
    ((c.setNlink inum v).disk i).ents = (c.disk i).ents := by
  unfold Core.setNlink
  by_cases h : i = inum
  · subst h
    simp
  · rw [Core.setDisk_of_ne _ _ h]

theorem Core.setNlink_self (c : Core) (inum : Nat) (v : BitVec 16) :
    ((c.setNlink inum v).disk inum).nlink = v := by
  rw [Core.setNlink, Core.setDisk_self]

theorem Core.setNlink_of_ne (c : Core) {inum i : Nat} (v : BitVec 16) (h : i ≠ inum) :
    (c.setNlink inum v).disk i = c.disk i := Core.setDisk_of_ne _ _ h

/-- Freeing an inode and changing the link count of another one. -/
theorem Core.free_setNlink {c : Core} {i inum : Nat} (h : i ≠ inum) (f : BitVec 16 → BitVec 16) :
    (c.free inum).setNlink i (f ((c.free inum).disk i).nlink) =
      (c.setNlink i (f (c.disk i).nlink)).free inum := by
  have hdisk : (c.free inum).disk i = c.disk i := Core.setDisk_of_ne _ _ h
  have hdisk' : (c.setNlink i (f (c.disk i).nlink)).disk inum = c.disk inum :=
    Core.setDisk_of_ne _ _ (Ne.symm h)
  have hparent : isParent c.ninodes (c.setNlink i (f (c.disk i).nlink)).disk inum =
      isParent c.ninodes c.disk inum :=
    isParent_congr fun j => ⟨Core.setNlink_type .., Core.setNlink_ents ..⟩
  rw [hdisk]
  unfold Core.free
  rw [hdisk', Core.setNlink_ninodes, hparent]
  simp only [Core.setNlink, Core.setDisk, Core.note, Function.update_of_ne h]
  rw [Function.update_comm (Ne.symm h)]

/-- Giving up a free inode leaves it free. -/
theorem Core.setDisk_free (c : Core) (inum : Nat) (d : Dinode) : (c.setDisk inum d).free inum =
    (c.note (.freed inum (isParent c.ninodes (c.setDisk inum d).disk inum))).setDisk inum d.freed := by
  unfold Core.free
  rw [Core.setDisk_self]
  simp [Core.setDisk, Core.note]

end Xv6.Fs
