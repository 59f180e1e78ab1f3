import Xv6.Fs.Entries
import Xv6.Fs.Files

set_option autoImplicit false

/-! # Link counts

The link count of an inode is the number of entries other than `.` that name it in the directories
that have links themselves. So the `..` of a removed directory does not count, and neither does a name
that is entered into it: `create` and `sys_link` do not ask whether the directory is still there. The
count is a `short`, and `nlink++` does not ask whether it is at its greatest value. -/

namespace Xv6.Fs

open Xv6.Lib

/-- A name has been entered into a removed directory, or a link count has become negative. -/
def Event.miscounts : Event → Bool
  | .freed _ _ => false
  | .linked nlink => decide (nlink = 0x7fff)
  | .entered nlink => decide (nlink = 0)

/-- No event of the history miscounts a link. -/
def Tidy (events : List Event) : Prop := ∀ e ∈ events, e.miscounts = false

/-- A directory that has links. -/
def Dinode.linkedDir (d : Dinode) : Prop := d.type = .dir ∧ 1 ≤ d.nlink.toInt

instance (d : Dinode) : Decidable d.linkedDir :=
  inferInstanceAs (Decidable (d.type = .dir ∧ 1 ≤ d.nlink.toInt))

/-- The entries that count. -/
def entriesOf (d : Dinode) : List Dirent :=
  if d.linkedDir then d.ents.filter fun e => decide (e.name ≠ dot) else []

/-- The number of entries other than `.` that name `x`, in the directories that have links. -/
def linkCount (c : Core) (x : Nat) : Nat :=
  tally c.ninodes (fun d => entriesOf (c.disk d)) (namesInode x)

/-- The `..` of a directory that has links. -/
def upOf (d : Dinode) : List Dirent := if d.linkedDir then (d.ents.drop 1).take 1 else []

/-- The subdirectories of `x`, by their `..`. -/
def ups (c : Core) (x : Nat) : Nat := tally c.ninodes (fun d => upOf (c.disk d)) (namesInode x)

/-- Names lead from the root to an inode. -/
inductive Reaches (disk : Nat → Dinode) : Nat → Prop
  | root : Reaches disk ROOTINO
  | name {d : Nat} {e : Dirent} : Reaches disk d → e ∈ namesOf (disk d) → e.inum ≠ 0 →
      Reaches disk e.inum

/-- The directories that have links form a tree. The directory `loose` has not been entered into it
    yet, or has just been taken out. -/
structure Tree (loose : Option Nat) (c : Core) : Prop where
  form : Form c
  rootUp : ∃ rest, Listing ROOTINO (c.disk ROOTINO).ents ROOTINO rest
  rootLinked : 1 ≤ (c.disk ROOTINO).nlink.toInt
  rootNames : links c ROOTINO = 0
  single : ∀ i, (c.disk i).type = .dir → links c i ≤ 1
  /-- A directory without links has no names. -/
  gone : ∀ i, (c.disk i).type = .dir → (c.disk i).nlink = 0 → ∀ e ∈ namesOf (c.disk i), e.inum = 0
  up : ∀ i parent rest, (c.disk i).linkedDir → i ≠ ROOTINO → loose ≠ some i →
    Listing i (c.disk i).ents parent rest → ∃ e ∈ namesOf (c.disk parent), e.inum = i
  reach : ∀ i, (c.disk i).linkedDir → loose ≠ some i → Reaches c.disk i

/-- The law of link counts; `l` is the inode whose link count is ahead of the entry. -/
structure Counted (c : Core) (l : Option Nat) : Prop where
  tree : Tree none c
  law : ∀ i, (c.disk i).type ≠ .free →
    (c.disk i).nlink.toInt = links c i + ups c i + (if l = some i then 1 else 0 : Nat)
  pending : ∀ i, l = some i → (c.disk i).type ≠ .free ∧ (c.disk i).type ≠ .dir

variable {c c' : Core} {l loose : Option Nat} {inum dp i : Nat}

/-! ## Reachable inodes -/

theorem Reaches.mono {disk disk' : Nat → Dinode} (h : ∀ d, ∀ e ∈ namesOf (disk d), e.inum ≠ 0 →
    e ∈ namesOf (disk' d)) {y : Nat} (hy : Reaches disk y) : Reaches disk' y := by
  induction hy with
  | root => exact .root
  | name _ he hlive ih => exact .name ih (h _ _ he hlive) hlive

/-- No name leads on from `x`, so that what does not lead to `x` may leave it out. -/
theorem Reaches.avoid {disk disk' : Nat → Dinode} {x : Nat} (hx : ∀ e ∈ namesOf (disk x), e.inum = 0)
    (h : ∀ d, d ≠ x → ∀ e ∈ namesOf (disk d), e.inum ≠ 0 → e.inum ≠ x → e ∈ namesOf (disk' d))
    {y : Nat} (hy : Reaches disk y) (hne : y ≠ x) : Reaches disk' y := by
  induction hy with
  | root => exact .root
  | @name d e _ he hlive ih =>
      have hd : d ≠ x := by
        rintro rfl
        exact hlive (hx e he)
      exact .name (ih hd) (h d hd e he hlive hne) hlive

/-! ## Subdirectories -/

theorem upOf_of_not {d : Dinode} (h : ¬ d.linkedDir) : upOf d = [] := if_neg h

theorem Listing.upOf_eq {parent : Nat} {ents rest : List Dirent} (h : Listing i ents parent rest)
    {d : Dinode} (hd : d.linkedDir) (hents : d.ents = ents) : upOf d = [⟨parent, dotdot⟩] := by
  rw [upOf, if_pos hd, hents, h.eq]
  rfl

theorem ups_congr (hn : c'.ninodes = c.ninodes) (h : ∀ i, upOf (c'.disk i) = upOf (c.disk i))
    (x : Nat) : ups c' x = ups c x := by
  unfold ups
  rw [hn]
  exact tally_congr fun i _ => by rw [h]

/-- A subdirectory that has links and whose `..` names `x`. -/
theorem Form.exists_of_ups (h : Form c) {x : Nat} (hpos : 0 < ups c x) :
    ∃ i rest, (c.disk i).linkedDir ∧ Listing i (c.disk i).ents x rest := by
  obtain ⟨i, -, e, he, hex⟩ := exists_of_tally_pos hpos
  have hi : (c.disk i).linkedDir := by
    by_contra hno
    rw [upOf_of_not hno] at he
    simp at he
  obtain ⟨parent, rest, hl⟩ := h.listing i hi.1
  rw [hl.upOf_eq hi rfl, List.mem_singleton] at he
  obtain rfl : parent = x := by simpa [namesInode, he] using hex
  exact ⟨i, rest, hi, hl⟩

theorem Form.ups_pos (h : Form c) {x : Nat} {rest : List Dirent} (hi : (c.disk i).linkedDir)
    (hl : Listing i (c.disk i).ents x rest) : 0 < ups c x := by
  refine tally_pos (h.lt_of_dir hi.1) (a := (⟨x, dotdot⟩ : Dirent)) ?_ (by simp [namesInode])
  rw [hl.upOf_eq hi rfl]
  simp

/-! ## Changes that leave the tree as it is -/

/-- Neither a name, nor whether a directory has links, nor a type has changed. -/
structure SameTree (c c' : Core) : Prop where
  ninodes : c'.ninodes = c.ninodes
  type : ∀ i, (c'.disk i).type = (c.disk i).type
  ents : ∀ i, (c.disk i).type = .dir → (c'.disk i).ents = (c.disk i).ents
  linked : ∀ i, (c.disk i).type = .dir →
    (1 ≤ (c'.disk i).nlink.toInt ↔ 1 ≤ (c.disk i).nlink.toInt)
  zero : ∀ i, (c.disk i).type = .dir → (c'.disk i).nlink = 0 → (c.disk i).nlink = 0

theorem SameTree.linkedDir (h : SameTree c c') (i : Nat) :
    (c'.disk i).linkedDir ↔ (c.disk i).linkedDir := by
  unfold Dinode.linkedDir
  rw [h.type]
  exact and_congr_right fun hdir => h.linked i hdir

theorem SameTree.names (h : SameTree c c') (i : Nat) :
    namesOf (c'.disk i) = namesOf (c.disk i) := namesOf_congr (h.type i) (h.ents i)

theorem SameTree.links (h : SameTree c c') (x : Nat) : Fs.links c' x = Fs.links c x :=
  links_congr h.ninodes h.names x

theorem SameTree.ups (h : SameTree c c') (x : Nat) : Fs.ups c' x = Fs.ups c x := by
  refine ups_congr h.ninodes (fun i => ?_) x
  unfold upOf
  by_cases hi : (c.disk i).linkedDir
  · rw [if_pos hi, if_pos ((h.linkedDir i).2 hi), h.ents i hi.1]
  · rw [if_neg hi, if_neg fun hi' => hi ((h.linkedDir i).1 hi')]

theorem SameTree.tree (h : SameTree c c') (ht : Tree loose c) : Tree loose c' := by
  refine ⟨ht.form.congr h.ninodes h.type h.ents, ?_, ?_, ?_, fun i hi => ?_, fun i hi h0 e he => ?_,
    fun i parent rest hi hroot hloose hl => ?_, fun i hi hloose => ?_⟩
  · rw [h.ents _ ht.form.root]
    exact ht.rootUp
  · rw [h.linked _ ht.form.root]
    exact ht.rootLinked
  · rw [h.links]
    exact ht.rootNames
  · rw [h.links]
    exact ht.single i (h.type i ▸ hi)
  · rw [h.type] at hi
    rw [h.names] at he
    exact ht.gone i hi (h.zero i hi h0) e he
  · rw [h.linkedDir] at hi
    rw [h.ents i hi.1] at hl
    rw [h.names]
    exact ht.up i parent rest hi hroot hloose hl
  · rw [h.linkedDir] at hi
    exact (ht.reach i hi hloose).mono fun d e he _ => by rw [h.names]; exact he

/-- Only the link count of `inum` has changed. -/
theorem Core.setNlink_sameTree (c : Core) {v : BitVec 16}
    (h : (c.disk inum).type = .dir → 1 ≤ v.toInt ∧ 1 ≤ (c.disk inum).nlink.toInt) :
    SameTree c (c.setNlink inum v) := by
  refine ⟨rfl, fun i => Core.setNlink_type .., fun i _ => Core.setNlink_ents .., fun i hi => ?_,
    fun i hi h0 => ?_⟩
  · by_cases hinum : i = inum
    · subst hinum
      rw [Core.setNlink_self]
      exact iff_of_true (h hi).1 (h hi).2
    · rw [Core.setNlink_of_ne _ _ hinum]
  · by_cases hinum : i = inum
    · subst hinum
      rw [Core.setNlink_self] at h0
      have hv : v = 0 := h0
      have := (h hi).1
      rw [hv] at this
      exact absurd this (by decide)
    · rw [Core.setNlink_of_ne _ _ hinum] at h0
      exact h0

theorem Core.trunc_sameTree (c : Core) (hfile : (c.disk inum).type = .file) :
    SameTree c (c.trunc inum) := by
  have hself : (c.trunc inum).disk inum = (c.disk inum).trunc := Core.setDisk_self ..
  have hother : ∀ i, i ≠ inum → (c.trunc inum).disk i = c.disk i :=
    fun i hi => Core.setDisk_of_ne _ _ hi
  have hne : ∀ i, (c.disk i).type = .dir → i ≠ inum := by
    rintro i hi rfl
    rw [hfile] at hi
    cases hi
  refine ⟨rfl, fun i => ?_, fun i hi => ?_, fun i hi => ?_, fun i hi h0 => ?_⟩
  · by_cases hinum : i = inum
    · rw [hinum, hself]
      rfl
    · rw [hother i hinum]
  · rw [hother i (hne i hi)]
  · rw [hother i (hne i hi)]
  · rw [← hother i (hne i hi)]
    exact h0

theorem Tree.note (h : Tree loose c) (e : Event) : Tree loose (c.note e) :=
  ⟨h.form.note e, h.rootUp, h.rootLinked, h.rootNames, h.single, h.gone, h.up, h.reach⟩

theorem Counted.note (h : Counted c l) (e : Event) : Counted (c.note e) l :=
  ⟨h.tree.note e, h.law, h.pending⟩

theorem Counted.trunc (h : Counted c l) (hfile : (c.disk inum).type = .file) :
    Counted (c.trunc inum) l := by
  have hsame := c.trunc_sameTree hfile
  refine ⟨hsame.tree h.tree, fun i hi => ?_, fun i hi => ?_⟩
  · rw [hsame.type] at hi
    rw [hsame.links, hsame.ups, ← h.law i hi]
    by_cases hinum : i = inum
    · rw [hinum, Core.trunc, Core.setDisk_self]
      rfl
    · rw [Core.trunc, Core.setDisk_of_ne _ _ hinum]
  · rw [hsame.type]
    exact h.pending i hi

theorem toInt_add_one {v : BitVec 16} (h : v ≠ 0x7fff) : (v + 1).toInt = v.toInt + 1 := by
  have hv : v.toNat ≠ 0x7fff := fun heq => h (BitVec.eq_of_toNat_eq heq)
  have hlt := v.isLt
  rw [BitVec.toInt_eq_toNat_cond, BitVec.toInt_eq_toNat_cond, BitVec.toNat_add]
  simp only [show (1 : BitVec 16).toNat = 1 from rfl]
  split <;> split <;> omega

theorem toInt_sub_one {v : BitVec 16} (h : 1 ≤ v.toInt) : (v - 1).toInt = v.toInt - 1 := by
  have hne : v - 1 ≠ 0x7fff := by
    intro heq
    have hv : v = 0x8000 := by
      rw [← BitVec.sub_add_cancel v 1, heq]
      rfl
    rw [hv] at h
    exact absurd h (by decide)
  have := toInt_add_one hne
  rw [BitVec.sub_add_cancel] at this
  omega

theorem eq_zero_of_toInt {v : BitVec 16} (h : v.toInt = 0) : v = 0 :=
  BitVec.eq_of_toInt_eq h

theorem Counted.nonneg (h : Counted c l) (halloc : (c.disk i).type ≠ .free) :
    0 ≤ (c.disk i).nlink.toInt := by
  have := h.law i halloc
  omega

theorem Counted.linkedDir (h : Counted c l) (hdir : (c.disk i).type = .dir)
    (hnlink : (c.disk i).nlink ≠ 0) : (c.disk i).linkedDir := by
  refine ⟨hdir, ?_⟩
  have hnonneg := h.nonneg (i := i) (by rw [hdir]; simp)
  have hne : (c.disk i).nlink.toInt ≠ 0 := fun h0 => hnlink (eq_zero_of_toInt h0)
  omega

/-- The link count of an inode that is not a directory. -/
theorem Counted.setNlink (h : Counted c l) {l' : Option Nat} {v : BitVec 16}
    (hnotdir : (c.disk inum).type ≠ .dir)
    (hlaw : ∀ i, (c.disk i).type ≠ .free → ((c.setNlink inum v).disk i).nlink.toInt =
      links c i + ups c i + (if l' = some i then 1 else 0 : Nat))
    (hpending : ∀ i, l' = some i → (c.disk i).type ≠ .free ∧ (c.disk i).type ≠ .dir) :
    Counted (c.setNlink inum v) l' := by
  have hsame := c.setNlink_sameTree (v := v) fun hdir => absurd hdir hnotdir
  refine ⟨hsame.tree h.tree, fun i hi => ?_, fun i hi => ?_⟩
  · rw [hsame.links, hsame.ups]
    exact hlaw i (hsame.type i ▸ hi)
  · rw [hsame.type]
    exact hpending i hi

theorem Counted.raise (h : Counted c none) (halloc : (c.disk inum).type ≠ .free)
    (hdir : (c.disk inum).type ≠ .dir) (hmax : (c.disk inum).nlink ≠ 0x7fff) :
    Counted (c.setNlink inum ((c.disk inum).nlink + 1)) (some inum) := by
  refine h.setNlink hdir (fun i hi => ?_) fun i hi => ?_
  · have hlaw := h.law i hi
    by_cases hinum : i = inum
    · subst hinum
      rw [Core.setNlink_self, if_pos rfl]
      have := toInt_add_one hmax
      simp only [reduceCtorEq, if_false] at hlaw ⊢
      omega
    · rw [Core.setNlink_of_ne _ _ hinum, hlaw,
        if_neg fun heq : some inum = some i => hinum (Option.some.inj heq).symm]
      simp
  · obtain rfl := Option.some.inj hi
    exact ⟨halloc, hdir⟩

theorem Counted.lower (h : Counted c (some inum)) :
    Counted (c.setNlink inum ((c.disk inum).nlink - 1)) none := by
  obtain ⟨halloc, hdir⟩ := h.pending inum rfl
  refine h.setNlink hdir (fun i hi => ?_) fun i hi => by cases hi
  have hlaw := h.law i hi
  by_cases hinum : i = inum
  · subst hinum
    rw [if_pos rfl] at hlaw
    rw [Core.setNlink_self]
    have := toInt_sub_one (v := (c.disk i).nlink) (by omega)
    simp only [reduceCtorEq, if_false]
    omega
  · rw [if_neg fun heq : some inum = some i => hinum (Option.some.inj heq).symm] at hlaw
    rw [Core.setNlink_of_ne _ _ hinum, hlaw]
    simp

/-! ## An inode is freed -/

/-- An inode that nothing names and that names nothing becomes free. -/
theorem Counted.clear (h : Counted c l) {v : Dinode} (hv : v.type = .free) (hroot : inum ≠ ROOTINO)
    (hl : l ≠ some inum)
    (hnames : ∀ i, ∀ e ∈ namesOf (c.disk i), e.inum ≠ 0 → e.inum ≠ inum)
    (hempty : ∀ e ∈ namesOf (c.disk inum), e.inum = 0) (hlinked : ¬ (c.disk inum).linkedDir) :
    Counted (c.setDisk inum v) l := by
  have hself : (c.setDisk inum v).disk inum = v := Core.setDisk_self ..
  have hother : ∀ i, i ≠ inum → (c.setDisk inum v).disk i = c.disk i :=
    fun i hi => Core.setDisk_of_ne _ _ hi
  have hne : ∀ i, ((c.setDisk inum v).disk i).type ≠ .free → i ≠ inum := by
    rintro i hi rfl
    rw [hself] at hi
    exact hi hv
  have hne' : ∀ i, ((c.setDisk inum v).disk i).type = .dir → i ≠ inum :=
    fun i hi => hne i (by rw [hi]; simp)
  -- a free inode counts for nothing: it names nothing and has no `..`
  have hvnames : namesOf v = [] := namesOf_of_ne (by rw [hv]; simp)
  have hvup : upOf v = [] := upOf_of_not fun hd => by
    rw [hd.1] at hv
    cases hv
  have hlinks : ∀ x, x ≠ 0 → links (c.setDisk inum v) x = links c x := by
    intro x hx
    refine tally_congr fun i _ => ?_
    by_cases hi : i = inum
    · have hzero : (namesOf (c.disk inum)).countP (namesInode x) = 0 := by
        refine List.countP_eq_zero.2 fun e he => ?_
        rw [namesInode_empty hx e (hempty e he)]
        simp
      rw [hi, hself, hvnames, hzero]
      rfl
    · rw [hother i hi]
  have hups : ∀ x, ups (c.setDisk inum v) x = ups c x := by
    refine ups_congr rfl fun i => ?_
    by_cases hi : i = inum
    · rw [hi, hself, hvup, upOf_of_not hlinked]
    · rw [hother i hi]
  refine ⟨⟨h.tree.form.clear hv hroot hnames, ?_, ?_, ?_, fun i hi => ?_, fun i hi h0 => ?_,
    fun i parent rest hi hir _ hli => ?_, fun i hi _ => ?_⟩, fun i hi => ?_, fun i hi => ?_⟩
  · rw [hother _ (Ne.symm hroot)]
    exact h.tree.rootUp
  · rw [hother _ (Ne.symm hroot)]
    exact h.tree.rootLinked
  · rw [hlinks _ (by decide)]
    exact h.tree.rootNames
  · have hi' := hne' i hi
    rw [hother i hi'] at hi
    rw [hlinks i (h.tree.form.ne_zero (by rw [hi]; simp))]
    exact h.tree.single i hi
  · have hi' := hne' i hi
    rw [hother i hi'] at hi h0 ⊢
    exact h.tree.gone i hi h0
  · have hi' := hne' i hi.1
    rw [hother i hi'] at hi hli
    obtain ⟨e, he, hei⟩ := h.tree.up i parent rest hi hir (by simp) hli
    refine ⟨e, ?_, hei⟩
    rw [hother parent]
    · exact he
    · rintro rfl
      have := hempty e he
      rw [hei] at this
      exact h.tree.form.ne_zero (by rw [hi.1]; simp) this
  · have hi' := hne' i hi.1
    rw [hother i hi'] at hi
    refine (h.tree.reach i hi (by simp)).avoid hempty (fun d hd e he _ _ => ?_) hi'
    rw [hother d hd]
    exact he
  · have hi' := hne i hi
    rw [hother i hi'] at hi ⊢
    rw [hlinks i (h.tree.form.ne_zero hi), hups]
    exact h.law i hi
  · rw [hother i]
    · exact h.pending i hi
    · rintro rfl
      exact hl hi

/-- An inode without links is not named, by a directory that has links or by any other. -/
theorem Counted.not_named (h : Counted c l) (halloc : (c.disk inum).type ≠ .free)
    (hzero : (c.disk inum).nlink = 0) :
    l ≠ some inum ∧ links c inum = 0 ∧ ups c inum = 0 := by
  have hlaw := h.law inum halloc
  rw [hzero, show (0 : BitVec 16).toInt = 0 from rfl] at hlaw
  refine ⟨fun hl => ?_, by omega, by omega⟩
  rw [if_pos hl] at hlaw
  omega

theorem Form.not_mem_of_links (h : Form c) (hzero : links c inum = 0) (i : Nat) (e : Dirent)
    (he : e ∈ namesOf (c.disk i)) : e.inum ≠ inum := by
  rintro rfl
  have := links_pos (h.lt_of_dir (dir_of_mem_namesOf he)) he
  omega

theorem Counted.free (h : Counted c l) (halloc : (c.disk inum).type ≠ .free)
    (hzero : (c.disk inum).nlink = 0) : Counted (c.free inum) l := by
  obtain ⟨hl, hlinks, -⟩ := h.not_named halloc hzero
  have hlinked : ¬ (c.disk inum).linkedDir := by
    intro hd
    have := hd.2
    rw [hzero] at this
    exact absurd this (by decide)
  refine (h.note _).clear rfl (fun hroot => ?_) hl
    (fun i e he _ => h.tree.form.not_mem_of_links hlinks i e he) (fun e he => ?_) hlinked
  · have := h.tree.rootLinked
    rw [← hroot, hzero] at this
    exact absurd this (by decide)
  · exact h.tree.gone inum (dir_of_mem_namesOf he) hzero e he

theorem Counted.abort (h : Counted c none) (hfree : (c.disk inum).type = .free) (d : Dinode) :
    Counted ((c.setDisk inum d).free inum) none := by
  have hnot : (c.disk inum).type ≠ .dir := by rw [hfree]; simp
  have hroot : inum ≠ ROOTINO := by
    rintro rfl
    exact hnot h.tree.form.root
  rw [Core.setDisk_free]
  refine (h.note _).clear rfl hroot (by simp) (fun i e he hlive heq => ?_) (fun e he => ?_)
    fun hd => hnot hd.1
  · exact h.tree.form.names i e he hlive (by rw [heq]; exact hfree)
  · exact absurd (dir_of_mem_namesOf he) hnot

/-! ## Names come and go -/

theorem Relisted.upOf {old rest : List Dirent} (hr : Relisted c c' dp old rest) (i : Nat) : Fs.upOf (c'.disk i) = Fs.upOf (c.disk i) := by
  have hlinked : (c'.disk i).linkedDir ↔ (c.disk i).linkedDir := by
    unfold Dinode.linkedDir
    rw [hr.type, hr.nlink]
  by_cases hi : (c.disk i).linkedDir
  · obtain ⟨parent, rest, hl⟩ := hr.listing' i hi.1
    obtain ⟨rest', hl'⟩ := hr.listing i parent rest hi.1 hl
    rw [hl.upOf_eq (hlinked.2 hi) rfl, hl'.upOf_eq hi rfl]
  · rw [upOf_of_not hi, upOf_of_not fun hi' => hi (hlinked.1 hi')]

/-- A directory that has links gets other names. `inum` is the directory that is not in the tree
    before or not in it after. -/
theorem Relisted.tree {old rest : List Dirent} (hr : Relisted c c' dp old rest)
    (h : Tree loose c) (hform : Form c') (hdp : (c.disk dp).linkedDir)
    (hroot : Fs.links c' ROOTINO = 0)
    (hsingle : ∀ i, (c.disk i).type = .dir → Fs.links c' i ≤ 1)
    {loose' : Option Nat}
    (hup : ∀ i parent rest, (c.disk i).linkedDir → i ≠ ROOTINO → loose' ≠ some i →
      Listing i (c.disk i).ents parent rest → ∃ e ∈ namesOf (c'.disk parent), e.inum = i)
    (hreach : ∀ i, (c.disk i).linkedDir → loose' ≠ some i → Reaches c'.disk i) :
    Tree loose' c' := by
  have hlinked : ∀ i, (c'.disk i).linkedDir ↔ (c.disk i).linkedDir := by
    intro i
    unfold Dinode.linkedDir
    rw [hr.type, hr.nlink]
  refine ⟨hform, ?_, ?_, hroot, fun i hi => ?_, fun i hi h0 e he => ?_,
    fun i parent rest hi hir hloose hl => ?_, fun i hi hloose => ?_⟩
  · obtain ⟨parent, rest, hl⟩ := hr.listing' ROOTINO h.form.root
    obtain ⟨rest', hl'⟩ := hr.listing ROOTINO parent rest h.form.root hl
    obtain ⟨rest'', hroot⟩ := h.rootUp
    rw [(hl'.unique hroot).1] at hl
    exact ⟨rest, hl⟩
  · rw [hr.nlink]
    exact h.rootLinked
  · exact hsingle i (hr.type i ▸ hi)
  · rw [hr.type] at hi
    rw [hr.nlink] at h0
    have hidp : i ≠ dp := by
      rintro rfl
      have := hdp.2
      rw [h0] at this
      exact absurd this (by decide)
    rw [hr.other i hidp] at he
    exact h.gone i hi h0 e he
  · rw [hlinked] at hi
    obtain ⟨rest', hl'⟩ := hr.listing i parent rest hi.1 hl
    exact hup i parent rest' hi hir hloose hl'
  · rw [hlinked] at hi
    exact hreach i hi hloose

/-- Entering a name of `inum`, which is either no directory or the one that has been loose. -/
theorem Tree.enter (h : Tree loose c) (hdp : (c.disk dp).linkedDir) (hloose : loose ≠ some dp)
    (halloc : (c.disk inum).type ≠ .free) {name : Name}
    (hnone : findEntry (c.disk dp).ents name = none)
    (hdir : (c.disk inum).type = .dir → inum ≠ ROOTINO ∧ links c inum = 0)
    (hnew : ∀ i, loose = some i → i = inum ∧
      ∀ parent rest, Listing i (c.disk i).ents parent rest → parent = dp) :
    Tree none (c.enter dp name inum) ∧
      (∀ x, x ≠ 0 → links (c.enter dp name inum) x = links c x + (if x = inum then 1 else 0)) ∧
      ∀ x, ups (c.enter dp name inum) x = ups c x := by
  obtain ⟨hform, hlinks, rest, hr⟩ := h.form.enter hdp.1 halloc hnone
  have hkeep : ∀ d, ∀ e ∈ namesOf (c.disk d), e.inum ≠ 0 →
      e ∈ namesOf ((c.enter dp name inum).disk d) := by
    intro d e he hlive
    by_cases hd : d = dp
    · rw [hd, hr.old] at he
      rw [hd, hr.new]
      exact mem_putEntry_of_live he hlive
    · rw [hr.other d hd]
      exact he
  have hself : ⟨inum, name⟩ ∈ namesOf ((c.enter dp name inum).disk dp) := by
    rw [hr.new]
    exact mem_putEntry_self _
  refine ⟨hr.tree h hform hdp ?_ (fun i hi => ?_) (fun i parent rest' hi hir _ hl => ?_)
    fun i hi _ => ?_, hlinks, ups_congr hr.ninodes hr.upOf⟩
  · rw [hlinks _ (by decide), h.rootNames, if_neg]
    rintro rfl
    exact (hdir h.form.root).1 rfl
  · rw [hlinks i (h.form.ne_zero (by rw [hi]; simp))]
    by_cases hinum : i = inum
    · subst hinum
      rw [(hdir hi).2, if_pos rfl]
    · rw [if_neg hinum]
      exact h.single i hi
  · by_cases hli : loose = some i
    · obtain ⟨rfl, hparent⟩ := hnew i hli
      rw [hparent parent rest' hl]
      exact ⟨_, hself, rfl⟩
    · obtain ⟨e, he, hei⟩ := h.up i parent rest' hi hir hli hl
      refine ⟨e, hkeep parent e he ?_, hei⟩
      rw [hei]
      exact h.form.ne_zero (by rw [hi.1]; simp)
  · by_cases hli : loose = some i
    · obtain ⟨rfl, -⟩ := hnew i hli
      have hdpreach := (h.reach dp hdp hloose).mono hkeep
      exact hdpreach.name hself (h.form.ne_zero halloc)
    · exact (h.reach i hi hli).mono hkeep

theorem Counted.link (h : Counted c (some inum)) (hdir : (c.disk dp).type = .dir) {name : Name}
    (hnone : findEntry (c.disk dp).ents name = none) (hnlink : (c.disk dp).nlink ≠ 0) :
    Counted (c.enter dp name inum) none := by
  obtain ⟨halloc, hnotdir⟩ := h.pending inum rfl
  have hdp := h.linkedDir hdir hnlink
  obtain ⟨htree, hlinks, hups⟩ := h.tree.enter hdp (by simp) halloc hnone
    (fun hd => absurd hd hnotdir) fun i hi => by cases hi
  refine ⟨htree, fun i hi => ?_, fun i hi => by cases hi⟩
  rw [Core.enter, Core.setEnts_type] at hi
  have hlaw := h.law i hi
  have hsame : ((c.enter dp name inum).disk i).nlink = (c.disk i).nlink := Core.setEnts_nlink ..
  rw [hsame, hlaw, hlinks i (h.tree.form.ne_zero hi), hups]
  simp only [Option.some.injEq, reduceCtorEq, if_false, eq_comm (a := inum)]
  omega

/-- The new inode, before its name is entered. -/
theorem Tree.new (h : Tree none c) (hfree : (c.disk inum).type = .free) (hpos : 0 < inum)
    (hlt : inum < c.ninodes) (type : FileType) (hdp : (c.disk dp).linkedDir)
    (major minor : BitVec 16) :
    Tree (some inum) (c.setDisk inum (newInode inum dp type major minor)) ∧
      (∀ x, links (c.setDisk inum (newInode inum dp type major minor)) x = links c x) ∧
      (∀ x, ups (c.setDisk inum (newInode inum dp type major minor)) x =
        ups c x + (if type = .dir ∧ x = dp then 1 else 0)) ∧
      (type = .dir → Listing inum (newInode inum dp type major minor).ents dp []) := by
  obtain ⟨hform, hlinks, hvnames, hvents, hnot⟩ := h.form.new hfree hpos hlt type hdp.1 major minor
  have hvtype : (newInode inum dp type major minor).type = type := rfl
  have hvnlink : (newInode inum dp type major minor).nlink = 1 := rfl
  generalize newInode inum dp type major minor = v at hform hlinks hvnames hvents hvtype hvnlink
  have hself : (c.setDisk inum v).disk inum = v := Core.setDisk_self ..
  have hother : ∀ i, i ≠ inum → (c.setDisk inum v).disk i = c.disk i :=
    fun i hi => Core.setDisk_of_ne _ _ hi
  have hroot : ROOTINO ≠ inum := by
    rintro rfl
    rw [h.form.root] at hfree
    cases hfree
  have hnames : ∀ d, d ≠ inum → ∀ e ∈ namesOf (c.disk d), e ∈ namesOf ((c.setDisk inum v).disk d) := by
    intro d hd e he
    rw [hother d hd]
    exact he
  -- the free inode was no directory: nothing was reached through it
  have hold : namesOf (c.disk inum) = [] := namesOf_of_ne (by rw [hfree]; simp)
  refine ⟨⟨hform, ?_, ?_, ?_, fun i hi => ?_, fun i hi h0 e he => ?_,
    fun i parent rest hi hir hloose hl => ?_, fun i hi hloose => ?_⟩, hlinks, fun x => ?_, hvents⟩
  · rw [hother _ hroot]
    exact h.rootUp
  · rw [hother _ hroot]
    exact h.rootLinked
  · rw [hlinks]
    exact h.rootNames
  · rw [hlinks]
    by_cases hinum : i = inum
    · rw [hinum, h.form.links_free hfree (by omega)]
      exact Nat.zero_le _
    · rw [hother i hinum] at hi
      exact h.single i hi
  · by_cases hinum : i = inum
    · rw [hinum, hself, hvnames] at he
      simp at he
    · rw [hother i hinum] at hi h0 he
      exact h.gone i hi h0 e he
  · have hinum : i ≠ inum := fun heq => hloose (by rw [heq])
    rw [hother i hinum] at hi hl
    obtain ⟨e, he, hei⟩ := h.up i parent rest hi hir (by simp) hl
    refine ⟨e, hnames parent ?_ e he, hei⟩
    rintro rfl
    rw [hold] at he
    simp at he
  · have hinum : i ≠ inum := fun heq => hloose (by rw [heq])
    rw [hother i hinum] at hi
    refine (h.reach i hi (by simp)).avoid (x := inum) (fun e he => ?_) (fun d hd e he _ _ => ?_) hinum
    · rw [hold] at he
      simp at he
    · exact hnames d hd e he
  · have hset := tally_setDisk upOf hlt v (namesInode x)
    rw [upOf_of_not (d := c.disk inum) fun hd => by rw [hd.1] at hfree; cases hfree] at hset
    -- a new directory's `..` is one more link to its parent
    have hv : (upOf v).countP (namesInode x) = if type = .dir ∧ x = dp then 1 else 0 := by
      by_cases ht : type = .dir
      · have hlinked : v.linkedDir := ⟨hvtype.trans ht, by rw [hvnlink]; decide⟩
        rw [(hvents ht).upOf_eq hlinked rfl]
        simp [ht, namesInode, eq_comm]
      · rw [upOf_of_not fun hd => ht (hvtype.symm.trans hd.1), if_neg fun hand => ht hand.1]
        rfl
    rw [hv] at hset
    exact hset

/-- An inode without names has no subdirectories. -/
theorem Tree.ups_eq_zero (h : Tree none c) (hroot : inum ≠ ROOTINO)
    (hempty : ∀ e ∈ namesOf (c.disk inum), e.inum = 0) : ups c inum = 0 := by
  by_contra hne
  obtain ⟨i, rest, hi, hl⟩ := h.form.exists_of_ups (Nat.pos_of_ne_zero hne)
  by_cases hir : i = ROOTINO
  · subst hir
    obtain ⟨rest', hl'⟩ := h.rootUp
    exact hroot (hl.unique hl').1
  · obtain ⟨e, he, hei⟩ := h.up i inum rest hi hir (by simp) hl
    have := hempty e he
    rw [hei] at this
    exact h.form.ne_zero (by rw [hi.1]; simp) this

theorem Counted.made (h : Counted c none) (hfree : (c.disk inum).type = .free) (hpos : 0 < inum)
    (hlt : inum < c.ninodes) {type : FileType} (htype : type ≠ .free)
    (hdir : (c.disk dp).type = .dir) {name : Name} (hnone : findEntry (c.disk dp).ents name = none)
    (major minor : BitVec 16) (hnlink : (c.disk dp).nlink ≠ 0)
    (hmax : type = .dir → (c.disk dp).nlink ≠ 0x7fff) :
    Counted (c.create inum dp type major minor name) none := by
  have hdp := h.linkedDir hdir hnlink
  have hdpinum : dp ≠ inum := by
    rintro rfl
    rw [hfree] at hdir
    cases hdir
  have hroot : inum ≠ ROOTINO := by
    rintro rfl
    rw [h.tree.form.root] at hfree
    cases hfree
  have hups0 : ups c inum = 0 := h.tree.ups_eq_zero hroot fun e he => by
    rw [dir_of_mem_namesOf he] at hfree
    cases hfree
  obtain ⟨htree, hlinks, hups, hvents⟩ := h.tree.new hfree hpos hlt type hdp major minor
  generalize hc₁ : c.setDisk inum (newInode inum dp type major minor) = c₁ at htree hlinks hups
  have hself : c₁.disk inum = newInode inum dp type major minor := by
    rw [← hc₁, Core.setDisk_self]
  have hother : ∀ i, i ≠ inum → c₁.disk i = c.disk i := by
    subst hc₁
    exact fun i hi => Core.setDisk_of_ne _ _ hi
  have hparent : ∀ parent rest, Listing inum (c₁.disk inum).ents parent rest → parent = dp := by
    intro parent rest hl
    rw [hself] at hl
    by_cases hd : type = .dir
    · exact (hl.unique (hvents hd)).1
    · have hents := hl.eq
      rw [newInode, if_neg hd] at hents
      cases hents
  have hdp₁ : (c₁.disk dp).linkedDir := by rw [hother dp hdpinum]; exact hdp
  have halloc₁ : (c₁.disk inum).type ≠ .free := by rw [hself]; exact htype
  have hnone₁ : findEntry (c₁.disk dp).ents name = none := by rw [hother dp hdpinum]; exact hnone
  obtain ⟨htree₂, hlinks₂, hups₂⟩ := htree.enter hdp₁
    (fun heq => hdpinum (Option.some.inj heq).symm) halloc₁ hnone₁
    (fun _ => ⟨hroot, by rw [hlinks, h.tree.form.links_free hfree (by omega)]⟩)
    fun i hi => ⟨(Option.some.inj hi).symm, by rw [← Option.some.inj hi]; exact hparent⟩
  generalize hc₂ : c₁.enter dp name inum = c₂ at htree₂ hlinks₂ hups₂
  have htype₂ : ∀ i, (c₂.disk i).type = (c₁.disk i).type := by
    subst hc₂
    exact fun i => Core.setEnts_type ..
  have hnlink₂ : ∀ i, (c₂.disk i).nlink = (c₁.disk i).nlink := by
    subst hc₂
    exact fun i => Core.setEnts_nlink ..
  -- the law, but for the `..` that is not counted yet
  have hlaw : ∀ i, (c₂.disk i).type ≠ .free →
      (c₂.disk i).nlink.toInt + (if type = .dir ∧ i = dp then 1 else 0 : Nat) =
        links c₂ i + ups c₂ i := by
    intro i hi
    rw [htype₂] at hi
    rw [hnlink₂, hups₂, hups]
    by_cases hinum : i = inum
    · subst hinum
      rw [hlinks₂ i (by omega), hlinks, h.tree.form.links_free hfree (by omega), hups0, hself,
        if_neg fun hand => hdpinum hand.2.symm, if_pos rfl]
      rfl
    · rw [hother i hinum] at hi ⊢
      have hi0 := h.tree.form.ne_zero hi
      rw [hlinks₂ i hi0, hlinks, if_neg hinum, h.law i hi]
      simp [Int.add_assoc]
  unfold Core.create
  rw [hc₁, hc₂]
  by_cases hd : type = .dir
  · rw [if_pos hd]
    have hdp₂ : (c₂.disk dp).nlink = (c.disk dp).nlink := by rw [hnlink₂, hother dp hdpinum]
    have hplus := toInt_add_one (hmax hd)
    generalize hc₃ : (c₂.note (.entered (c.disk dp).nlink)).note (.linked (c.disk dp).nlink) = c₃
    have hsame : SameTree c₃ (c₃.setNlink dp ((c.disk dp).nlink + 1)) := by
      refine c₃.setNlink_sameTree fun _ => ?_
      have hlinked : 1 ≤ (c.disk dp).nlink.toInt := hdp.2
      subst hc₃
      rw [Core.note_disk, Core.note_disk, hdp₂]
      exact ⟨by omega, hlinked⟩
    subst hc₃
    refine ⟨hsame.tree ((htree₂.note _).note _), fun i hi => ?_, fun i hi => by cases hi⟩
    rw [hsame.type] at hi
    rw [hsame.links, hsame.ups]
    have hlaw := hlaw i hi
    show _ = (links c₂ i : Int) + ups c₂ i + _
    by_cases hidp : i = dp
    · subst hidp
      rw [if_pos ⟨hd, rfl⟩, hdp₂] at hlaw
      rw [Core.setNlink_self]
      simp only [reduceCtorEq, if_false]
      omega
    · rw [if_neg fun hand => hidp hand.2] at hlaw
      rw [Core.setNlink_of_ne _ _ hidp]
      simp only [reduceCtorEq, if_false]
      show (c₂.disk i).nlink.toInt = _
      omega
  · rw [if_neg hd]
    refine Counted.note ⟨htree₂, fun i hi => ?_, fun i hi => by cases hi⟩ _
    have hlaw := hlaw i hi
    rw [if_neg fun hand => hd hand.1] at hlaw
    simp only [reduceCtorEq, if_false]
    omega

/-- Taking a name of `inum` away, which is empty if it is a directory. -/
theorem Tree.remove (h : Tree none c) (hdp : (c.disk dp).linkedDir) {off : Nat} {name : Name}
    (hfind : findEntry (c.disk dp).ents name = some off) (hdot : name ≠ dot)
    (hdotdot : name ≠ dotdot) (hinum : ((c.disk dp).ents.getD off ⟨0, []⟩).inum = inum)
    (hempty : ∀ e ∈ namesOf (c.disk inum), e.inum = 0) :
    Tree (some inum) (c.setEnts dp (putEntry (c.disk dp).ents off ⟨0, []⟩)) ∧
      (∀ x, x ≠ 0 → links (c.setEnts dp (putEntry (c.disk dp).ents off ⟨0, []⟩)) x +
        (if x = inum then 1 else 0) = links c x) ∧
      ∀ x, ups (c.setEnts dp (putEntry (c.disk dp).ents off ⟨0, []⟩)) x = ups c x := by
  obtain ⟨hform, hlinks, rest, k, de, hget, hde, -, hr⟩ :=
    h.form.remove hdp.1 hfind hdot hdotdot hinum
  generalize c.setEnts dp (putEntry (c.disk dp).ents off ⟨0, []⟩) = c' at hform hlinks hr
  have hkeep : ∀ d, ∀ e ∈ namesOf (c.disk d), e.inum ≠ inum → e ∈ namesOf (c'.disk d) := by
    intro d e he hne
    by_cases hd : d = dp
    · rw [hd, hr.old] at he
      rw [hd, hr.new]
      obtain ⟨j, hj, rfl⟩ := List.getElem_of_mem he
      have hkj : k ≠ j := by
        rintro rfl
        rw [List.getElem?_eq_getElem hj] at hget
        exact hne (by rw [Option.some.inj hget]; exact hde)
      refine List.mem_iff_getElem.2 ⟨j, by simpa using hj, ?_⟩
      rw [List.getElem_set_of_ne hkj]
    · rw [hr.other d hd]
      exact he
  refine ⟨hr.tree h hform hdp ?_ (fun i hi => ?_) (fun i parent rest' hi hir hloose hl => ?_)
    fun i hi hloose => ?_, hlinks, ups_congr hr.ninodes hr.upOf⟩
  · have := hlinks ROOTINO (by decide)
    rw [h.rootNames] at this
    omega
  · have := hlinks i (h.form.ne_zero (by rw [hi]; simp))
    have := h.single i hi
    omega
  · obtain ⟨e, he, hei⟩ := h.up i parent rest' hi hir (by simp) hl
    exact ⟨e, hkeep parent e he fun heq => hloose (by rw [← heq, hei]), hei⟩
  · have hne : i ≠ inum := fun heq => hloose (by rw [heq])
    exact (h.reach i hi (by simp)).avoid hempty (fun d _ e he _ hei => hkeep d e he hei) hne

/-- A directory without a name and without names of its own loses its last link. -/
theorem Tree.drop (h : Tree (some inum) c) (hdir : (c.disk inum).linkedDir) (hroot : inum ≠ ROOTINO)
    {parent : Nat} {rest : List Dirent} (hl : Listing inum (c.disk inum).ents parent rest)
    (hempty : ∀ e ∈ namesOf (c.disk inum), e.inum = 0) :
    Tree none (c.setNlink inum 0) ∧ (∀ x, links (c.setNlink inum 0) x = links c x) ∧
      ∀ x, ups (c.setNlink inum 0) x + (if x = parent then 1 else 0) = ups c x := by
  have htype : ∀ i, ((c.setNlink inum 0).disk i).type = (c.disk i).type :=
    fun i => Core.setNlink_type ..
  have hents : ∀ i, ((c.setNlink inum 0).disk i).ents = (c.disk i).ents :=
    fun i => Core.setNlink_ents ..
  have hself : ((c.setNlink inum 0).disk inum).nlink = 0 := by
    rw [Core.setNlink_self]
  have hother : ∀ i, i ≠ inum → (c.setNlink inum 0).disk i = c.disk i :=
    fun i hi => Core.setDisk_of_ne _ _ hi
  have hnames : ∀ i, namesOf ((c.setNlink inum 0).disk i) = namesOf (c.disk i) :=
    fun i => namesOf_congr (htype i) fun _ => hents i
  have hlinks : ∀ x, links (c.setNlink inum 0) x = links c x := links_congr rfl hnames
  -- with no link left its `..` counts no more
  have hnot : ¬ ((c.setNlink inum 0).disk inum).linkedDir := by
    intro hd
    have := hd.2
    rw [hself] at this
    exact absurd this (by decide)
  have hne : ∀ i, ((c.setNlink inum 0).disk i).linkedDir → i ≠ inum := by
    rintro i hi rfl
    exact hnot hi
  refine ⟨⟨h.form.congr rfl htype fun i _ => hents i, ?_, ?_, ?_, fun i hi => ?_,
    fun i hi h0 e he => ?_, fun i parent rest hi hir _ hl => ?_, fun i hi _ => ?_⟩, hlinks, fun x => ?_⟩
  · rw [hents]
    exact h.rootUp
  · rw [hother _ (Ne.symm hroot)]
    exact h.rootLinked
  · rw [hlinks]
    exact h.rootNames
  · rw [hlinks]
    exact h.single i (htype i ▸ hi)
  · rw [hnames] at he
    by_cases hinum : i = inum
    · exact hempty e (hinum ▸ he)
    · rw [hother i hinum] at hi h0
      exact h.gone i hi h0 e he
  · have hinum := hne i hi
    rw [hother i hinum] at hi hl
    obtain ⟨e, he, hei⟩ := h.up i parent rest hi hir (fun heq => hinum (Option.some.inj heq).symm) hl
    exact ⟨e, by rw [hnames]; exact he, hei⟩
  · have hinum := hne i hi
    rw [hother i hinum] at hi
    refine (h.reach i hi fun heq => hinum (Option.some.inj heq).symm).mono fun d e he _ => ?_
    rw [hnames]
    exact he
  · have hset := tally_setDisk upOf (h.form.lt_of_dir hdir.1)
      { c.disk inum with nlink := 0 } (namesInode x)
    have hnew : upOf { c.disk inum with nlink := 0 } = [] := upOf_of_not fun hd => by
      have hone : 1 ≤ (0 : BitVec 16).toInt := hd.2
      exact absurd hone (by decide)
    rw [hl.upOf_eq hdir rfl, hnew] at hset
    have hone : [(⟨parent, dotdot⟩ : Dirent)].countP (namesInode x) = if x = parent then 1 else 0 := by
      simp [namesInode, eq_comm]
    rw [hone] at hset
    exact hset

/-- Something that is no directory may be taken out of the tree. -/
theorem Tree.tighten (h : Tree (some inum) c) (hnot : (c.disk inum).type ≠ .dir) : Tree none c := by
  have hne : ∀ i, (c.disk i).linkedDir → some inum ≠ some i := by
    rintro i hi heq
    obtain rfl := Option.some.inj heq
    exact hnot hi.1
  exact ⟨h.form, h.rootUp, h.rootLinked, h.rootNames, h.single, h.gone,
    fun i parent rest hi hir _ hl => h.up i parent rest hi hir (hne i hi) hl,
    fun i hi _ => h.reach i hi (hne i hi)⟩

/-- The parent of a directory that is being taken out keeps a link. -/
theorem Tree.parent_count (h : Tree (some inum) c) (hdp : (c.disk dp).linkedDir) (hne : dp ≠ inum)
    (hdir : (c.disk inum).linkedDir) (hroot : inum ≠ ROOTINO) {rest : List Dirent}
    (hl : Listing inum (c.disk inum).ents dp rest) (hempty : ∀ e ∈ namesOf (c.disk inum), e.inum = 0) :
    2 ≤ links c dp + ups c dp := by
  obtain ⟨htree, -, hups⟩ := h.drop hdir hroot hl hempty
  have hdrop := hups dp
  rw [if_pos rfl] at hdrop
  by_cases hdproot : dp = ROOTINO
  · subst hdproot
    obtain ⟨rest', hl'⟩ := htree.rootUp
    have := htree.form.ups_pos ⟨htree.form.root, htree.rootLinked⟩ hl'
    omega
  · obtain ⟨parent, rest', hl'⟩ := h.form.listing dp hdp.1
    obtain ⟨e, he, hei⟩ := h.up dp parent rest' hdp hdproot (fun heq => hne (Option.some.inj heq).symm) hl'
    have := links_pos (h.form.lt_of_dir (dir_of_mem_namesOf he)) he
    rw [hei] at this
    omega

theorem names_of_isdirempty {d : Dinode} (h : d.type = .dir → isdirempty d.ents = true) :
    ∀ e ∈ namesOf d, e.inum = 0 := by
  intro e he
  have hdir := dir_of_mem_namesOf he
  rw [namesOf, if_pos hdir] at he
  exact of_decide_eq_true (List.all_eq_true.1 (h hdir) e he)

/-- A name of `inum` has been taken away, and the link counts have not followed. -/
structure Ahead (c : Core) (inum : Nat) : Prop where
  tree : Tree (some inum) c
  law : ∀ i, (c.disk i).type ≠ .free →
    (c.disk i).nlink.toInt = links c i + ups c i + (if i = inum then 1 else 0 : Nat)

theorem Ahead.file (h : Ahead c inum) (halloc : (c.disk inum).type ≠ .free) (hnot : (c.disk inum).type ≠ .dir) :
    Counted (c.setNlink inum ((c.disk inum).nlink - 1)) none := by
  have hlawinum := h.law inum halloc
  rw [if_pos rfl] at hlawinum
  have hminus := toInt_sub_one (v := (c.disk inum).nlink) (by omega)
  have hsame : SameTree c (c.setNlink inum ((c.disk inum).nlink - 1)) :=
    c.setNlink_sameTree fun hdir => absurd hdir hnot
  refine ⟨(hsame.tree h.tree).tighten (by rw [hsame.type]; exact hnot), fun i hi => ?_, fun i hi => by cases hi⟩
  rw [hsame.type] at hi
  have hlawi := h.law i hi
  rw [hsame.links, hsame.ups]
  simp only [reduceCtorEq, if_false]
  by_cases hii : i = inum
  · subst hii
    rw [Core.setNlink_self]
    show ((c.disk i).nlink - 1).toInt = _
    omega
  · rw [if_neg hii] at hlawi
    rw [Core.setNlink_of_ne _ _ hii]
    omega

/-- A directory that is left without names; its parent loses the link of its `..`. -/
theorem Ahead.dir (h : Ahead c inum) (hdp : (c.disk dp).linkedDir) (hne : dp ≠ inum)
    (hdir : (c.disk inum).linkedDir) (hroot : inum ≠ ROOTINO) {rest : List Dirent}
    (hl : Listing inum (c.disk inum).ents dp rest) (hempty : ∀ e ∈ namesOf (c.disk inum), e.inum = 0)
    (hlinks : links c inum = 0) (hups : ups c inum = 0) :
    Counted ((c.setNlink dp ((c.disk dp).nlink - 1)).setNlink inum
      (((c.setNlink dp ((c.disk dp).nlink - 1)).disk inum).nlink - 1)) none := by
  have hcount := h.tree.parent_count hdp hne hdir hroot hl hempty
  have hlawdp := h.law dp (by rw [hdp.1]; simp)
  rw [if_neg hne] at hlawdp
  have hlawinum := h.law inum (by rw [hdir.1]; simp)
  rw [if_pos rfl] at hlawinum
  have hminus := toInt_sub_one (v := (c.disk dp).nlink) (by omega)
  have hsame : SameTree c (c.setNlink dp ((c.disk dp).nlink - 1)) :=
    c.setNlink_sameTree fun _ => ⟨by omega, by omega⟩
  have htree := hsame.tree h.tree
  have hself : ((c.setNlink dp ((c.disk dp).nlink - 1)).disk dp).nlink = (c.disk dp).nlink - 1 := by
    rw [Core.setNlink_self]
  have hother : ∀ i, i ≠ dp → (c.setNlink dp ((c.disk dp).nlink - 1)).disk i = c.disk i :=
    fun i hi => Core.setDisk_of_ne _ _ hi
  generalize c.setNlink dp ((c.disk dp).nlink - 1) = c' at hsame htree hself hother
  have hone : (c'.disk inum).nlink - 1 = 0 := by
    refine eq_zero_of_toInt ?_
    have := toInt_sub_one (v := (c'.disk inum).nlink)
    rw [hother inum (Ne.symm hne)] at this ⊢
    omega
  rw [hone]
  rw [← hother inum (Ne.symm hne)] at hdir hl hempty
  obtain ⟨htree', hlinks', hups'⟩ := htree.drop hdir hroot hl hempty
  refine ⟨htree', fun i hi => ?_, fun i hi => by cases hi⟩
  rw [Core.setNlink_type, hsame.type] at hi
  have hlawi := h.law i hi
  have hupsi := hups' i
  rw [hsame.ups] at hupsi
  rw [hlinks', hsame.links]
  simp only [reduceCtorEq, if_false]
  by_cases hii : i = inum
  · subst hii
    rw [Core.setNlink_self]
    rw [if_neg (Ne.symm hne)] at hupsi
    rw [show (0 : BitVec 16).toInt = 0 from rfl]
    omega
  · rw [if_neg hii] at hlawi
    rw [Core.setNlink_of_ne _ _ hii]
    by_cases hip : i = dp
    · subst hip
      rw [if_pos rfl] at hupsi
      rw [hself]
      omega
    · rw [if_neg hip] at hupsi
      rw [hother i hip]
      omega

section Unlink

variable {off : Nat} {name : Name} (h : Counted c none) (hdir : (c.disk dp).type = .dir)
  (hfind : findEntry (c.disk dp).ents name = some off) (hdot : name ≠ dot) (hdotdot : name ≠ dotdot)
  (hinum : ((c.disk dp).ents.getD off ⟨0, []⟩).inum = inum) (halloc : (c.disk inum).type ≠ .free)

include h hdir hfind hdot hdotdot hinum halloc

/-- The directory with the name, and what the name leads to. -/
theorem Counted.named : (c.disk dp).linkedDir ∧ 1 ≤ links c inum ∧ inum ≠ ROOTINO := by
  obtain ⟨e, he, hei⟩ : ∃ e ∈ namesOf (c.disk dp), e.inum = inum := by
    obtain ⟨parent, rest, hl⟩ := h.tree.form.listing dp hdir
    obtain ⟨k, -, -, hget⟩ := hl.find hfind hdot hdotdot
    rw [hl.names_eq hdir rfl]
    exact ⟨_, List.mem_of_getElem? hget, hinum⟩
  have hlinked := links_pos (h.tree.form.lt_of_dir hdir) he
  rw [hei] at hlinked
  refine ⟨h.linkedDir hdir fun h0 => ?_, hlinked, ?_⟩
  · have hzero := h.tree.gone dp hdir h0 e he
    rw [hei] at hzero
    exact h.tree.form.ne_zero halloc hzero
  · rintro rfl
    rw [h.tree.rootNames] at hlinked
    omega

variable (hempty : ∀ e ∈ namesOf (c.disk inum), e.inum = 0)

include hempty

theorem Counted.zeroed : Ahead (c.setEnts dp (putEntry (c.disk dp).ents off ⟨0, []⟩)) inum := by
  obtain ⟨hdp, -, -⟩ := h.named hdir hfind hdot hdotdot hinum halloc
  obtain ⟨htree, hlinks, hups⟩ := h.tree.remove hdp hfind hdot hdotdot hinum hempty
  refine ⟨htree, fun i hi => ?_⟩
  rw [Core.setEnts_type] at hi
  have hlaw := h.law i hi
  have hlink := hlinks i (h.tree.form.ne_zero hi)
  rw [Core.setEnts_nlink, hups]
  simp only [reduceCtorEq, if_false] at hlaw
  omega

/-- A directory that goes is in the directory that its `..` names, and nowhere else. -/
theorem Counted.zeroed_parent (hd : (c.disk inum).linkedDir) :
    (∃ rest, Listing inum (c.disk inum).ents dp rest) ∧
      links (c.setEnts dp (putEntry (c.disk dp).ents off ⟨0, []⟩)) inum = 0 := by
  obtain ⟨hdp, hlinked, hroot⟩ := h.named hdir hfind hdot hdotdot hinum halloc
  obtain ⟨htree, hlinks, -⟩ := h.tree.remove hdp hfind hdot hdotdot hinum hempty
  have hsingle := h.tree.single inum hd.1
  have hlink := hlinks inum (h.tree.form.ne_zero halloc)
  rw [if_pos rfl] at hlink
  obtain ⟨parent, rest, hl⟩ := h.tree.form.listing inum hd.1
  have hparent : parent = dp := by
    by_contra hpd
    obtain ⟨e, he, hei⟩ := h.tree.up inum parent rest hd hroot (by simp) hl
    have hother : (c.setEnts dp (putEntry (c.disk dp).ents off ⟨0, []⟩)).disk parent = c.disk parent :=
      Core.setDisk_of_ne _ _ hpd
    rw [← hother] at he
    have hpos := links_pos (htree.form.lt_of_dir (dir_of_mem_namesOf he)) he
    rw [hei] at hpos
    omega
  exact ⟨⟨rest, hparent ▸ hl⟩, by omega⟩

end Unlink

theorem Counted.unlink (h : Counted c none) (hdir : (c.disk dp).type = .dir) {off : Nat}
    {name : Name} (hfind : findEntry (c.disk dp).ents name = some off) (hdot : name ≠ dot)
    (hdotdot : name ≠ dotdot) (hinum : ((c.disk dp).ents.getD off ⟨0, []⟩).inum = inum)
    (halloc : (c.disk inum).type ≠ .free)
    (hempty : (c.disk inum).type = .dir → isdirempty (c.disk inum).ents = true) :
    Counted (c.unlink dp off) none := by
  have hnames := names_of_isdirempty hempty
  obtain ⟨hdp, hlinked, hroot⟩ := h.named hdir hfind hdot hdotdot hinum halloc
  have hahead := h.zeroed hdir hfind hdot hdotdot hinum halloc hnames
  simp only [Core.unlink, hinum]
  by_cases hd : (c.disk inum).type = .dir
  · rw [if_pos hd]
    have hups := h.tree.ups_eq_zero hroot hnames
    have hlinkedDir : (c.disk inum).linkedDir := by
      have hlaw := h.law inum halloc
      simp only [reduceCtorEq, if_false] at hlaw
      exact ⟨hd, by omega⟩
    have hne : dp ≠ inum := by
      rintro rfl
      obtain ⟨parent, rest, hl⟩ := h.tree.form.listing dp hdir
      obtain ⟨k, -, -, hget⟩ := hl.find hfind hdot hdotdot
      have hzero := hnames _ (by rw [hl.names_eq hdir rfl]; exact List.mem_of_getElem? hget)
      rw [hinum] at hzero
      exact h.tree.form.ne_zero halloc hzero
    obtain ⟨⟨rest, hl⟩, hlinks⟩ := h.zeroed_parent hdir hfind hdot hdotdot hinum halloc hnames hlinkedDir
    have hother : (c.setEnts dp (putEntry (c.disk dp).ents off ⟨0, []⟩)).disk inum = c.disk inum :=
      Core.setDisk_of_ne _ _ (Ne.symm hne)
    have hups' := (h.tree.remove hdp hfind hdot hdotdot hinum hnames).2.2 inum
    refine hahead.dir ⟨by rw [Core.setEnts_type]; exact hdp.1, by rw [Core.setEnts_nlink]; exact hdp.2⟩ hne
      (by rw [hother]; exact hlinkedDir) hroot (by rw [hother]; exact hl) (by rw [hother]; exact hnames) hlinks
      (hups'.trans hups)
  · rw [if_neg hd]
    exact hahead.file (by rw [Core.setEnts_type]; exact halloc) (by rw [Core.setEnts_type]; exact hd)

/-! ## Every run -/

/-- What a history that miscounts no link keeps. -/
def CountedOf (a : Core × Option Nat) : Prop :=
  a.1.ninodes ≤ 2 ^ 16 ∧ (Tidy a.1.events → Counted a.1 a.2)

/-- Entries may dangle here. -/
def laxFrame : Frame where
  strict := fun _ => False
  inuse := fun _ => False
  mono := fun _ _ h => h

/-- The panics that may happen: `unlink: nlink < 1` only after a link has been miscounted. -/
def mayMiscount (a : Panic × FS) : Prop := a.1 = .unlinkNlink → ¬ Tidy a.2.events

theorem tidy_cons {e : Event} {es : List Event} :
    Tidy (e :: es) ↔ e.miscounts = false ∧ Tidy es := by
  simp [Tidy]

theorem lax_miscount : Lax laxFrame mayMiscount :=
  ⟨fun _ _ _ h he => absurd he h, fun _ _ he => by cases he⟩

theorem CountedOf.act {a b : Core × Option Nat} (hact : Act laxFrame.inuse a b) (h : CountedOf a) :
    CountedOf b := by
  cases hact with
  | free halloc hzero _ =>
      exact ⟨h.1, fun htidy => (h.2 (tidy_cons.1 htidy).2).free halloc hzero⟩
  | abort hfree => exact ⟨h.1, fun htidy => (h.2 (tidy_cons.1 htidy).2).abort hfree _⟩
  | raise halloc hdir =>
      refine ⟨h.1, fun htidy => ?_⟩
      obtain ⟨hmax, htidy⟩ := tidy_cons.1 htidy
      exact ((h.2 htidy).note _).raise halloc hdir (of_decide_eq_false hmax)
  | lower halloc => exact ⟨h.1, fun htidy => (h.2 htidy).lower⟩

theorem CountedOf.made {c c' : Core} (hmade : Made c c') (h : CountedOf (c, none)) :
    CountedOf (c', none) := by
  cases hmade with
  | @create inum dp type major minor name hfree hpos hlt htype hdir hnone =>
      unfold CountedOf Core.create
      by_cases hd : type = .dir
      · rw [if_pos hd]
        refine ⟨h.1, fun htidy => ?_⟩
        obtain ⟨hmax, htidy⟩ := tidy_cons.1 htidy
        obtain ⟨hentered, htidy⟩ := tidy_cons.1 htidy
        have hmade := (h.2 htidy).made hfree hpos hlt htype hdir hnone major minor
          (of_decide_eq_false hentered) fun _ => of_decide_eq_false hmax
        rw [Core.create, if_pos hd] at hmade
        exact hmade
      · rw [if_neg hd]
        refine ⟨h.1, fun htidy => ?_⟩
        obtain ⟨hentered, htidy⟩ := tidy_cons.1 htidy
        have hmade := (h.2 htidy).made hfree hpos hlt htype hdir hnone major minor
          (of_decide_eq_false hentered) fun hd' => absurd hd' hd
        rw [Core.create, if_neg hd] at hmade
        exact hmade

theorem CountedOf.done {a : Core × Option Nat} {c : Core} (hdone : Done a c) (h : CountedOf a) :
    CountedOf (c, none) := by
  cases hdone with
  | link hdir hnone =>
      refine ⟨h.1, fun htidy => ?_⟩
      obtain ⟨hentered, htidy⟩ := tidy_cons.1 htidy
      exact ((h.2 htidy).link hdir hnone (of_decide_eq_false hentered)).note _
  | @unlink c dp off name hdir hfind hdot hdotdot halloc hnlink hempty =>
      have hsame : (c.unlink dp off).ninodes = c.ninodes ∧ (c.unlink dp off).events = c.events := by
        simp only [Core.unlink]
        split <;> exact ⟨rfl, rfl⟩
      refine ⟨hsame.1 ▸ h.1, fun htidy => ?_⟩
      exact (h.2 (hsame.2 ▸ htidy)).unlink hdir hfind hdot hdotdot rfl halloc hempty

theorem CountedOf.freeStep {c c' : Core} (hfree : FreeStep laxFrame.inuse c c')
    (h : CountedOf (c, none)) : CountedOf (c', none) := by
  obtain ⟨inum, halloc, hzero, hinuse, rfl⟩ := hfree
  exact CountedOf.act (Act.free halloc hzero hinuse) h

/-- An inode with a name has a link. -/
theorem Counted.one_le (h : Counted c none) {e : Dirent} (he : e ∈ namesOf (c.disk dp))
    (hlive : e.inum ≠ 0) : 1 ≤ (c.disk e.inum).nlink.toInt := by
  have hlinks := links_pos (h.tree.form.lt_of_dir (dir_of_mem_namesOf he)) he
  have hlaw := h.law e.inum (h.tree.form.names dp e he hlive)
  omega

theorem CountedOf.linked {s : FS} {dp off : Nat} {name : Name} (h : CountedOf (s.core, none))
    (hdir : (s.disk dp).type = .dir) (hfind : findEntry (s.disk dp).ents name = some off)
    (hdot : name ≠ dot) (hdotdot : name ≠ dotdot)
    (hnlink : (s.disk ((s.disk dp).ents.getD off ⟨0, []⟩).inum).nlink.toInt < 1) :
    mayMiscount (.unlinkNlink, s) := by
  intro _ htidy
  have hcounted := h.2 htidy
  obtain ⟨parent, rest, hl⟩ := hcounted.tree.form.listing dp hdir
  obtain ⟨k, -, -, hget⟩ := hl.find hfind hdot hdotdot
  have hmem := List.mem_of_getElem? hget
  rw [← hl.names_eq hdir rfl] at hmem
  have := hcounted.one_le hmem (findEntry_some hfind).2.2.2.1
  exact absurd hnlink (Int.not_lt.2 this)

theorem kept_counted :
    Kept laxFrame mayMiscount CountedOf (Before CountedOf) (Before CountedOf) where
  act := fun _ _ => CountedOf.act
  made := fun _ _ => CountedOf.made
  done := fun _ _ => CountedOf.done
  trunc := fun _ _ hfile h => ⟨h.1, fun htidy => (h.2 htidy).trunc hfile⟩
  madeFree := fun _ _ => CountedOf.freeStep
  doneFree := fun _ _ => CountedOf.freeStep
  failed := fun _ h => h
  madeDone := fun _ h => h
  named := fun _ _ _ h => h.elim
  root := fun _ _ _ h => h.elim
  bound := fun _ _ h => h.1
  linked := fun _ _ _ _ h hdir hfind hdot hdotdot _ hnlink =>
    h.linked hdir hfind hdot hdotdot hnlink

/-- What is counted: the names of a directory that has links, and its `..`. -/
theorem countP_entriesOf {parent : Nat} {rest : List Dirent} {d : Dinode} (hd : d.linkedDir)
    (hl : Listing i d.ents parent rest) {x : Nat} (hx : x ≠ 0) :
    (entriesOf d).countP (namesInode x) =
      (namesOf d).countP (namesInode x) + (upOf d).countP (namesInode x) := by
  rw [hl.upOf_eq hd rfl, hl.names_eq hd.1 rfl, entriesOf, if_pos hd, hl.eq]
  have hrest : (rest.filter fun e => decide (e.name ≠ dot)).countP (namesInode x) =
      rest.countP (namesInode x) := by
    rw [List.countP_filter]
    refine List.countP_congr fun e he => ?_
    by_cases hex : e.inum = x
    · simp [namesInode, hex, (hl.names e he (hex ▸ hx)).1]
    · simp [namesInode, hex]
  have hfirst : ((⟨i, dot⟩ :: ⟨parent, dotdot⟩ :: rest).filter fun e : Dirent =>
      decide (e.name ≠ dot)) = ⟨parent, dotdot⟩ :: rest.filter fun e => decide (e.name ≠ dot) := by
    simp [Ne.symm dot_ne_dotdot]
  rw [hfirst, List.countP_cons, hrest, List.countP_cons, List.countP_nil]
  omega

theorem Tree.linkCount_eq (h : Tree none c) (hneg : ∀ i, (c.disk i).type ≠ .free → 0 ≤ (c.disk i).nlink.toInt)
    {x : Nat} (hx : x ≠ 0) : linkCount c x = links c x + ups c x := by
  unfold linkCount links ups tally
  rw [← Finset.sum_add_distrib]
  refine Finset.sum_congr rfl fun i _ => ?_
  by_cases hd : (c.disk i).linkedDir
  · obtain ⟨parent, rest, hl⟩ := h.form.listing i hd.1
    exact countP_entriesOf hd hl hx
  · have hno : entriesOf (c.disk i) = [] := if_neg hd
    have hnone : (namesOf (c.disk i)).countP (namesInode x) = 0 := by
      refine List.countP_eq_zero.2 fun e he => ?_
      have hdir := dir_of_mem_namesOf he
      have hzero : (c.disk i).nlink = 0 := by
        refine eq_zero_of_toInt ?_
        have := hneg i (by rw [hdir]; simp)
        have hlt : ¬ 1 ≤ (c.disk i).nlink.toInt := fun hle => hd ⟨hdir, hle⟩
        omega
      rw [namesInode_empty hx e (h.gone i hdir hzero e he)]
      simp
    simp only [hno, hnone, upOf_of_not hd, List.countP_nil]

/-- Every link count is the number of entries other than `.` that name the inode in the directories
    that have links, and the root leads to every inode that has one. -/
def LinkLaw (c : Core) : Prop :=
  ∀ x, (c.disk x).type ≠ .free → (c.disk x).nlink.toInt = linkCount c x ∧
    (1 ≤ (c.disk x).nlink.toInt → Reaches c.disk x)

theorem Counted.linkLaw (h : Counted c none) : LinkLaw c := by
  intro x halloc
  have hx := h.tree.form.ne_zero halloc
  have hcount := h.tree.linkCount_eq (fun i => h.nonneg) hx
  have hlaw := h.law x halloc
  refine ⟨by simp only [reduceCtorEq, if_false] at hlaw; omega, fun hone => ?_⟩
  by_cases hdir : (c.disk x).type = .dir
  · exact h.tree.reach x ⟨hdir, hone⟩ (by simp)
  · have hups : ups c x = 0 := by
      refine h.tree.ups_eq_zero ?_ fun e he => absurd (dir_of_mem_namesOf he) hdir
      rintro rfl
      exact hdir h.tree.form.root
    obtain ⟨d, -, e, he, hex⟩ := exists_of_tally_pos (p := namesInode x)
      (f := fun d => namesOf (c.disk d)) (n := c.ninodes) (by
        have hpos : 0 < links c x := by
          simp only [reduceCtorEq, if_false] at hlaw
          omega
        exact hpos)
    obtain rfl : e.inum = x := by simpa [namesInode] using hex
    have hd : (c.disk d).linkedDir := by
      refine h.linkedDir (dir_of_mem_namesOf he) fun h0 => ?_
      exact hx (h.tree.gone d (dir_of_mem_namesOf he) h0 e he)
    exact (h.tree.reach d hd (by simp)).name he hx

/-- A file system image with accurate link counts and a tree of directories. -/
def CountedImage (ninodes : Nat) (disk : Nat → Dinode) : Prop :=
  Counted ⟨ninodes, disk, []⟩ none

/-- As long as no name is entered into a removed directory and no link count is raised beyond the
    greatest `short`, the link counts are accurate and `unlink` does not panic over one. -/
theorem links_accurate {ninodes : Nat} {disk : Nat → Dinode} (himage : CountedImage ninodes disk)
    {calls : List Label} {s : State} (hrun : runSteps step (boot ninodes disk) calls = some s)
    (htidy : Tidy s.fs.events) :
    s.panic ≠ some .unlinkNlink ∧ (s.panic = none → LinkLaw s.fs.core) := by
  have hboot : Sound laxFrame mayMiscount CountedOf (boot ninodes disk) := by
    refine sound_boot (fun _ h => h) ?_ ⟨himage.tree.form.size, fun _ => himage⟩
    have hroot : (disk ROOTINO).type = .dir := himage.tree.form.root
    rw [hroot]
    simp
  have hsound : Sound laxFrame mayMiscount CountedOf s :=
    runSteps_invariant (fun _ _ _ h hstep => h.step lax_miscount kept_counted (fun _ h => h) hstep)
      hboot hrun
  unfold Sound at hsound
  cases hpanic : s.panic with
  | none =>
      rw [hpanic] at hsound
      exact ⟨by simp, fun _ => (hsound.kept.2 htidy).linkLaw⟩
  | some e =>
      rw [hpanic] at hsound
      refine ⟨fun he => ?_, by simp⟩
      exact hsound (Option.some.inj he) htidy

/-! ## A file in a removed directory -/

theorem countedImage_mkfsDisk : CountedImage 200 mkfsDisk := by
  have hform : Form ⟨200, mkfsDisk, []⟩ := form_mkfsDisk (by decide) (by decide)
  have hroot : (mkfsDisk ROOTINO).linkedDir := by decide
  have hnames : ∀ i, namesOf ((⟨200, mkfsDisk, []⟩ : Core).disk i) = [] := namesOf_mkfsDisk
  have hups : ups ⟨200, mkfsDisk, []⟩ ROOTINO = 1 := by
    have hle : ups ⟨200, mkfsDisk, []⟩ ROOTINO ≤ 1 := by
      have hzero : tally 200 (Function.update (fun d => upOf (mkfsDisk d)) ROOTINO [])
          (namesInode ROOTINO) = 0 := by
        by_contra hne
        obtain ⟨d, -, e, he, -⟩ := exists_of_tally_pos (Nat.pos_of_ne_zero hne)
        by_cases hd : d = ROOTINO
        · rw [hd, Function.update_self] at he
          simp at he
        · rw [Function.update_of_ne hd, mkfsDisk_of_ne hd] at he
          simp [upOf, Dinode.linkedDir] at he
      have hset := tally_update (n := 200) (fun d => upOf (mkfsDisk d)) [] (namesInode ROOTINO)
        (i := ROOTINO) (by decide)
      rw [hzero, listing_mkfsDisk.upOf_eq hroot rfl] at hset
      have hone : [(⟨ROOTINO, dotdot⟩ : Dirent)].countP (namesInode ROOTINO) = 1 := by decide
      rw [hone] at hset
      show tally 200 (fun d => upOf (mkfsDisk d)) (namesInode ROOTINO) ≤ 1
      have hnil : ([] : List Dirent).countP (namesInode ROOTINO) = 0 := rfl
      omega
    have hpos := hform.ups_pos (i := ROOTINO) hroot listing_mkfsDisk
    omega
  refine ⟨⟨hform, ⟨_, listing_mkfsDisk⟩, hroot.2, links_mkfsDisk _ _, fun i _ => ?_,
    fun i _ _ e he => ?_, fun i parent rest hi hir _ _ => ?_, fun i hi _ => ?_⟩, fun i hi => ?_, by simp⟩
  · rw [links_mkfsDisk]
    exact Nat.zero_le _
  · rw [hnames] at he
    simp at he
  · exact absurd (dir_mkfsDisk hi.1) hir
  · rw [dir_mkfsDisk hi.1]
    exact .root
  · obtain rfl : i = ROOTINO := alloc_mkfsDisk hi
    rw [links_mkfsDisk, hups]
    rfl

/-- `"x"` -/
def pathX : Path := [120]

/-- The working directory is removed, and a file is made in it. -/
def makeInRemoved : List Label :=
  [byInit (.mkdir (some pathA)), byInit (.chdir (some pathA)), byInit (.unlink (some pathA)),
    byInit (.open (some pathX) O_CREATE)]

/-- After `makeInRemoved`: inode 3 is a file with one link, and no entry that counts names it. -/
def miscounted : Bool :=
  match runSteps step (boot 200 mkfsDisk) makeInRemoved with
  | none => false
  | some s => decide (s.panic = none) && decide ((s.fs.disk 3).type = .file) &&
      decide ((s.fs.disk 3).nlink = 1) && decide (s.fs.ninodes = 200) &&
      (List.range 200).all fun d => (entriesOf (s.fs.disk d)).all fun e => !namesInode 3 e

theorem removed_directory_miscounts :
    CountedImage 200 mkfsDisk ∧
      ∃ s, runSteps step (boot 200 mkfsDisk) makeInRemoved = some s ∧ s.panic = none ∧
        ¬ LinkLaw s.fs.core := by
  refine ⟨countedImage_mkfsDisk, ?_⟩
  have hcheck : miscounted = true := by decide +kernel
  unfold miscounted at hcheck
  cases hrun : runSteps step (boot 200 mkfsDisk) makeInRemoved with
  | none =>
      rw [hrun] at hcheck
      cases hcheck
  | some s =>
      rw [hrun] at hcheck
      simp only [Bool.and_eq_true, decide_eq_true_eq, List.all_eq_true, List.mem_range,
        Bool.not_eq_true'] at hcheck
      obtain ⟨⟨⟨⟨hpanic, hfile⟩, hnlink⟩, hn⟩, hnone⟩ := hcheck
      refine ⟨s, rfl, hpanic, fun hlaw => ?_⟩
      have hthree := (hlaw 3 (by rw [show s.fs.core.disk 3 = s.fs.disk 3 from rfl, hfile]; simp)).1
      rw [show s.fs.core.disk 3 = s.fs.disk 3 from rfl, hnlink] at hthree
      have hone : linkCount s.fs.core 3 = 1 := by
        rw [show (1 : BitVec 16).toInt = 1 from rfl] at hthree
        omega
      have hpos : 0 < linkCount s.fs.core 3 := by omega
      obtain ⟨d, hd, e, he, hp⟩ := exists_of_tally_pos hpos
      rw [show s.fs.core.ninodes = s.fs.ninodes from rfl, hn] at hd
      rw [hnone d hd e he] at hp
      cases hp

/-- A run that miscounts nothing: a directory is made and a file in it, and both are removed. -/
def makeAndRemove : List Label :=
  [byInit (.mkdir (some pathA)), byInit (.chdir (some pathA)), byInit (.open (some pathX) O_CREATE),
    byInit (.unlink (some pathX)), byInit (.unlink (some pathA))]

def tidyRun (calls : List Label) : Bool :=
  match runSteps step (boot 200 mkfsDisk) calls with
  | none => false
  | some s => decide (s.panic = none) && s.fs.events.all fun e => !e.miscounts

theorem links_accurate_makeAndRemove :
    ∃ s, runSteps step (boot 200 mkfsDisk) makeAndRemove = some s ∧ s.panic = none ∧
      LinkLaw s.fs.core := by
  have hcheck : tidyRun makeAndRemove = true := by decide +kernel
  unfold tidyRun at hcheck
  cases hrun : runSteps step (boot 200 mkfsDisk) makeAndRemove with
  | none =>
      rw [hrun] at hcheck
      cases hcheck
  | some s =>
      rw [hrun] at hcheck
      simp only [Bool.and_eq_true, decide_eq_true_eq, List.all_eq_true] at hcheck
      obtain ⟨hpanic, htidy⟩ := hcheck
      refine ⟨s, rfl, hpanic, (links_accurate countedImage_mkfsDisk hrun fun e he => ?_).2 hpanic⟩
      simpa using htidy e he

end Xv6.Fs
