import Xv6.Fs.Creates

set_option autoImplicit false

/-! # Calls that fail

A call of `open`, `link`, `unlink`, `mkdir` or `mknod` that returns -1 leaves files and directories
as they were, with one exception: `sys_open` calls `create` before it looks for a `struct file` and a
descriptor, and does not take the new file back where there is none. -/

namespace Xv6.Fs

open Xv6.Lib

/-- The tree under the root, the inodes with their types, link counts and contents, and the numbers
    of references are the same. -/
structure Unchanged (s t : FS) : Prop where
  tree : ∀ names, lookup t.disk names ROOTINO = lookup s.disk names ROOTINO
  type : ∀ i, (t.disk i).type = (s.disk i).type
  inode : ∀ i, (s.disk i).type ≠ .free → t.disk i = s.disk i
  refs : ∀ ip, (t.itable ip).ref = (s.itable ip).ref

/-- `c` is the disk of `s`, with the link count of `l` raised. -/
structure Same (s : FS) (a : Core × Option Nat) : Prop where
  ninodes : a.1.ninodes = s.ninodes
  free : ∀ i, (s.disk i).type = .free → (a.1.disk i).type = .free
  inode : ∀ i, (s.disk i).type ≠ .free → a.2 ≠ some i → a.1.disk i = s.disk i
  raised : ∀ i, a.2 = some i → (s.disk i).type ≠ .free ∧
    a.1.disk i = { s.disk i with nlink := (s.disk i).nlink + 1 }

/-- An inode is there that was not in `s`. -/
def Grown (s : FS) (c : Core) : Prop :=
  ∃ i, (s.disk i).type = .free ∧ (c.disk i).type ≠ .free ∧ (c.disk i).nlink = 1

variable {s : FS} {c c' : Core} {l : Option Nat}

theorem Same.type_eq (h : Same s (c, l)) (i : Nat) : (c.disk i).type = (s.disk i).type := by
  by_cases hfree : (s.disk i).type = .free
  · rw [hfree, h.free i hfree]
  · by_cases hl : l = some i
    · rw [(h.raised i hl).2]
    · rw [h.inode i hfree hl]

/-- An inode without links is in use, also while a link count is raised. -/
theorem Same.inuse (hwf : WellFormed s) (h : Same s (c, l)) {i : Nat}
    (halloc : (c.disk i).type ≠ .free) (hzero : (c.disk i).nlink = 0) : (heldFrame s).inuse i := by
  rw [h.type_eq] at halloc
  by_cases hl : l = some i
  · have hnonneg := hwf.nonneg i halloc
    rw [(h.raised i hl).2] at hzero
    have hmax : (s.disk i).nlink = -1 := by
      have hz : (s.disk i).nlink + 1 = 0 := hzero
      bv_omega
    rw [hmax] at hnonneg
    exact absurd hnonneg (by decide)
  · rw [h.inode i halloc hl] at hzero
    exact hwf.orphan i halloc hzero

theorem Same.act (hwf : WellFormed s) {a b : Core × Option Nat} (hact : Act (heldFrame s).inuse a b)
    (h : Same s a) : Same s b := by
  cases hact with
  | free halloc hzero hinuse => exact absurd (h.inuse hwf halloc hzero) hinuse
  | @abort c inum d hfree =>
      have hfree' : (s.disk inum).type = .free := by rw [← h.type_eq]; exact hfree
      have hsame : ∀ i, i ≠ inum → ((c.setDisk inum d).free inum).disk i = c.disk i := by
        intro i hi
        rw [Core.free, Core.setDisk_of_ne _ _ hi, Core.note_disk, Core.setDisk_of_ne _ _ hi]
      refine ⟨h.ninodes, fun i hi => ?_, fun i hi _ => ?_, fun i hi => by cases hi⟩
      · by_cases hinum : i = inum
        · rw [hinum, Core.free, Core.setDisk_self]
          rfl
        · rw [hsame i hinum]
          exact h.free i hi
      · have hinum : i ≠ inum := by
          rintro rfl
          exact hi hfree'
        rw [hsame i hinum]
        exact h.inode i hi (by simp)
  | @raise c inum halloc _ =>
      have hsame := h.inode inum (by rw [← h.type_eq]; exact halloc) (by simp)
      simp only at hsame
      refine ⟨h.ninodes, fun i hi => ?_, fun i hi hl => ?_, fun i hl => ?_⟩
      · rw [Core.setNlink_type]
        exact h.free i hi
      · have hinum : i ≠ inum := fun he => hl (by rw [he])
        rw [Core.setNlink, Core.setDisk_of_ne _ _ hinum]
        exact h.inode i hi (by simp)
      · obtain rfl := Option.some.inj hl
        rw [Core.setNlink, Core.setDisk_self, Core.note_disk, hsame]
        exact ⟨by rw [← hsame]; exact halloc, rfl⟩
  | @lower c inum halloc =>
      obtain ⟨-, hraised⟩ := h.raised inum rfl
      simp only at hraised
      refine ⟨h.ninodes, fun i hi => ?_, fun i hi _ => ?_, fun i hi => by cases hi⟩
      · rw [Core.setNlink_type]
        exact h.free i hi
      · by_cases hinum : i = inum
        · subst hinum
          rw [Core.setNlink, Core.setDisk_self, hraised]
          simp
        · rw [Core.setNlink, Core.setDisk_of_ne _ _ hinum]
          exact h.inode i hi fun he => hinum (Option.some.inj he).symm

theorem Grown.free {inuse : Nat → Prop} (hstep : FreeStep inuse c c') (h : Grown s c) :
    Grown s c' := by
  obtain ⟨i, hfree, halloc, hone⟩ := h
  obtain ⟨j, -, hzero, -, rfl⟩ := hstep
  have hne : i ≠ j := by
    rintro rfl
    rw [hone] at hzero
    exact absurd hzero (by decide)
  have hsame : (c.free j).disk i = c.disk i := Core.setDisk_of_ne _ _ hne
  exact ⟨i, hfree, by rw [hsame]; exact halloc, by rw [hsame]; exact hone⟩

theorem Grown.made (h : Same s (c, none)) (hmade : Made c c') : Grown s c' := by
  obtain ⟨hfree, -, -, htype, hdir, -⟩ := hmade
  rename_i inum dp type major minor name
  have hne : dp ≠ inum := by
    rintro rfl
    rw [hfree] at hdir
    cases hdir
  refine ⟨inum, by rw [← h.type_eq]; exact hfree, ?_, ?_⟩
  · rw [Core.create_disk hne]
    exact htype
  · rw [Core.create_disk hne]
    rfl

theorem WellFormed.good (hwf : WellFormed s) : Good (heldFrame s) (Before (Same s)) s := by
  exact ⟨hwf.sys.refs, ⟨rfl, fun i hi => hi, fun i _ _ => rfl, fun i hi => by cases hi⟩, hwf.files, hwf.idle⟩

/-! ## What has changed -/

theorem lookup_congr {disk disk' : Nat → Dinode}
    (h : ∀ i, (disk i).type = .dir → disk' i = disk i) (htype : ∀ i, (disk' i).type = (disk i).type)
    (names : List Name) (i : Nat) : lookup disk' names i = lookup disk names i := by
  induction names generalizing i with
  | nil => rfl
  | cons name rest ih =>
      unfold lookup
      by_cases hdir : (disk i).type = .dir
      · rw [htype, if_pos hdir, if_pos hdir, h i hdir]
        cases findEntry (disk i).ents name with
        | none => rfl
        | some off => exact ih _
      · rw [htype, if_neg hdir, if_neg hdir]

theorem Unchanged.of_after {t : FS} (hwf : WellFormed s)
    (h : After (heldFrame s) (Before (Same s)) [] s.proc s.ftable t) : Unchanged s t := by
  obtain ⟨c, hs, hsame⟩ := h
  have hinode : ∀ i, (s.disk i).type ≠ .free → t.disk i = s.disk i := fun i hi => by
    rw [hs.disk]
    exact hsame.inode i hi (by simp)
  have htype : ∀ i, (t.disk i).type = (s.disk i).type := fun i => by
    rw [hs.disk]
    exact hsame.type_eq i
  refine ⟨fun names => lookup_congr (fun i hdir => hinode i (by rw [hdir]; simp)) htype names _,
    htype, hinode, fun ip => ?_⟩
  obtain ⟨n, hn, href⟩ := hs.refs.count ip
  obtain ⟨m, hm, href'⟩ := hwf.refs.count ip
  rw [href, href', hn.unique hm]

end Xv6.Fs
