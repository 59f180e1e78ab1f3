import Xv6.Fs.Entries
import Xv6.Fs.Files

set_option autoImplicit false

/-! # Dangling directory entries

`sys_unlink` lowers the link count of the parent with the `..` of the directory that it removes, but
the entry `..` is still there as long as the removed directory is a working directory or an open file.
If the parent is removed as well, its last `iput` frees it, and the entry dangles. The invariant says
that otherwise every entry names an allocated inode: a link count is at least the number of names
together with the subdirectories, so that an inode without links has no names, and only the `..` of a
removed directory can still name it. -/

namespace Xv6.Fs

open Xv6.Lib

/-- An inode that the `..` of another directory names has been freed, or a link count has started
    again from zero. -/
def Event.strands : Event → Bool
  | .freed _ parent => parent
  | .linked nlink => decide (nlink = 0xffff)
  | .entered _ => false

/-- No event of the history strands an entry. -/
def Clean (events : List Event) : Prop := ∀ e ∈ events, e.strands = false

/-- An entry that names a directory. -/
def isSubdir (disk : Nat → Dinode) (e : Dirent) : Bool :=
  decide (e.inum ≠ 0) && decide ((disk e.inum).type = .dir)

def subdirs (c : Core) (i : Nat) : Nat := (namesOf (c.disk i)).countP (isSubdir c.disk)

/-- What keeps `i` allocated: the root, its names, its subdirectories, and `sys_link` with `l`. -/
def anchors (c : Core) (l : Option Nat) (i : Nat) : Nat :=
  (if i = ROOTINO then 1 else 0) + links c i + subdirs c i + (if l = some i then 1 else 0)

/-- The `..` of every directory names a directory. -/
structure Shape (c : Core) : Prop where
  form : Form c
  up : ∀ i parent rest, (c.disk i).type = .dir → Listing i (c.disk i).ents parent rest →
    (c.disk parent).type = .dir

/-- No entry dangles, and the link counts say so. -/
structure Anchored (c : Core) (l : Option Nat) : Prop where
  shape : Shape c
  law : ∀ i, (c.disk i).type ≠ .free → anchors c l i ≤ (c.disk i).nlink.toNat
  pending : ∀ i, l = some i → (c.disk i).type ≠ .free ∧ (c.disk i).type ≠ .dir

variable {c c' : Core} {l : Option Nat} {inum dp i : Nat}

/-! ## What follows from the form -/

theorem Shape.named (h : Shape c) : Named c := by
  intro i hdir e he hlive
  obtain ⟨parent, rest, hl⟩ := h.form.listing i hdir
  rcases hl.mem.1 he with rfl | rfl | hrest
  · simp [hdir]
  · simp [h.up i parent rest hdir hl]
  · refine h.form.names i e ?_ hlive
    rw [hl.names_eq hdir rfl]
    exact hrest

theorem Shape.note (h : Shape c) (e : Event) : Shape (c.note e) := ⟨h.form.note e, h.up⟩

theorem Anchored.note (h : Anchored c l) (e : Event) : Anchored (c.note e) l :=
  ⟨h.shape.note e, h.law, h.pending⟩

/-- Only types, link counts and the entries of directories matter. -/
theorem Shape.congr (h : Shape c) (hn : c'.ninodes = c.ninodes)
    (htype : ∀ i, (c'.disk i).type = (c.disk i).type)
    (hents : ∀ i, (c.disk i).type = .dir → (c'.disk i).ents = (c.disk i).ents) : Shape c' := by
  refine ⟨h.form.congr hn htype hents, fun i parent rest hi hl => ?_⟩
  rw [htype] at hi ⊢
  rw [hents i hi] at hl
  exact h.up i parent rest hi hl

theorem subdirs_congr (htype : ∀ i, (c'.disk i).type = (c.disk i).type)
    (hnames : namesOf (c'.disk i) = namesOf (c.disk i)) : subdirs c' i = subdirs c i := by
  have hsub : isSubdir c'.disk = isSubdir c.disk := by
    funext e
    rw [isSubdir, isSubdir, htype]
  rw [subdirs, subdirs, hnames, hsub]

theorem anchors_congr (hn : c'.ninodes = c.ninodes) (htype : ∀ i, (c'.disk i).type = (c.disk i).type)
    (hents : ∀ i, (c.disk i).type = .dir → (c'.disk i).ents = (c.disk i).ents) (l : Option Nat)
    (i : Nat) : anchors c' l i = anchors c l i := by
  unfold anchors
  rw [links_congr hn fun j => namesOf_congr (htype j) (hents j),
    subdirs_congr htype (namesOf_congr (htype i) (hents i))]

/-! ## An inode is freed -/

/-- An inode that neither names nor a `..` of another directory lead to becomes free. -/
theorem Anchored.clear (h : Anchored c l) {v : Dinode} (hv : v.type = .free)
    (hroot : inum ≠ ROOTINO) (hl : l ≠ some inum)
    (hnames : ∀ i, ∀ e ∈ namesOf (c.disk i), e.inum ≠ 0 → e.inum ≠ inum)
    (hup : ∀ i parent rest, i ≠ inum → (c.disk i).type = .dir →
      Listing i (c.disk i).ents parent rest → parent ≠ inum) : Anchored (c.setDisk inum v) l := by
  have hself : (c.setDisk inum v).disk inum = v := Core.setDisk_self ..
  have hother : ∀ i, i ≠ inum → (c.setDisk inum v).disk i = c.disk i :=
    fun i hi => Core.setDisk_of_ne _ _ hi
  have hne : ∀ i, ((c.setDisk inum v).disk i).type ≠ .free → i ≠ inum := by
    rintro i hi rfl
    rw [hself] at hi
    exact hi hv
  have hvnames : namesOf v = [] := namesOf_of_ne (by rw [hv]; simp)
  refine ⟨⟨h.shape.form.clear hv hroot hnames, fun i parent rest hi hli => ?_⟩, fun i hi => ?_,
    fun i hi => ?_⟩
  · have hi' := hne i (by rw [hi]; simp)
    rw [hother i hi'] at hi hli
    rw [hother parent (hup i parent rest hi' hi hli)]
    exact h.shape.up i parent rest hi hli
  · have hi' := hne i hi
    rw [hother i hi'] at hi ⊢
    refine Nat.le_trans ?_ (h.law i hi)
    have hlinks : links (c.setDisk inum v) i ≤ links c i := links_setDisk_le hvnames inum i
    have hsub : subdirs (c.setDisk inum v) i ≤ subdirs c i := by
      unfold subdirs
      rw [hother i hi']
      refine List.countP_mono_left fun e _ he => ?_
      simp only [isSubdir, Bool.and_eq_true, decide_eq_true_eq] at he ⊢
      refine ⟨he.1, ?_⟩
      rw [← he.2, hother _ (hne _ (by rw [he.2]; simp))]
    unfold anchors
    omega
  · have hi' : i ≠ inum := by
      rintro rfl
      exact hl hi
    rw [hother i hi']
    exact h.pending i hi

theorem isParent_eq_false {n : Nat} {disk : Nat → Dinode} (h : isParent n disk inum = false)
    {d : Nat} (hd : d < n) (hne : d ≠ inum) (hdir : (disk d).type = .dir) {e : Dirent}
    (he : e ∈ (disk d).ents) (hname : e.name = dotdot) : e.inum ≠ inum := by
  intro heq
  have hany : isParent n disk inum = true := by
    unfold isParent
    refine List.any_eq_true.2 ⟨d, List.mem_range.2 hd, ?_⟩
    simp only [Bool.and_eq_true, decide_eq_true_eq]
    exact ⟨⟨hne, hdir⟩, List.any_eq_true.2 ⟨e, he, by simp [hname, heq]⟩⟩
  rw [h] at hany
  cases hany

theorem Anchored.free (h : Anchored c l) (halloc : (c.disk inum).type ≠ .free)
    (hzero : (c.disk inum).nlink = 0) (hparent : isParent c.ninodes c.disk inum = false) :
    Anchored (c.free inum) l := by
  have hlaw := h.law inum halloc
  rw [hzero] at hlaw
  have hnone : anchors c l inum = 0 := Nat.le_zero.1 hlaw
  unfold anchors at hnone
  refine (h.note _).clear rfl (fun hroot => ?_) (fun hl => ?_) (fun i e he _ heq => ?_)
    fun i parent rest hi hdir hli => ?_
  · rw [if_pos hroot] at hnone
    omega
  · rw [if_pos hl] at hnone
    omega
  · have hi : (c.disk i).type = .dir := dir_of_mem_namesOf he
    have hpos := links_pos (h.shape.form.lt_of_dir hi) he
    rw [heq] at hpos
    omega
  · refine isParent_eq_false hparent (h.shape.form.lt_of_dir hdir) hi hdir (e := ⟨parent, dotdot⟩) (hli.mem.2 (Or.inr (Or.inl rfl))) rfl

theorem Anchored.abort (h : Anchored c none) (hfree : (c.disk inum).type = .free) (d : Dinode) :
    Anchored ((c.setDisk inum d).free inum) none := by
  rw [Core.setDisk_free]
  refine (h.note _).clear rfl (fun hroot => ?_) (by simp) (fun i e he hlive heq => ?_)
    fun i parent rest _ hdir hli heq => ?_
  · rw [hroot, h.shape.form.root] at hfree
    cases hfree
  · exact h.shape.form.names i e he hlive (by rw [heq]; exact hfree)
  · have hup := h.shape.up i parent rest hdir hli
    rw [heq, hfree] at hup
    cases hup

/-! ## Link counts -/

theorem anchors_setNlink (c : Core) (inum : Nat) (v : BitVec 16) (l : Option Nat) (i : Nat) :
    anchors (c.setNlink inum v) l i = anchors c l i := by
  apply anchors_congr
  · rfl
  · exact fun i => Core.setNlink_type ..
  · exact fun i _ => Core.setNlink_ents ..

/-- A link count changes, and nothing else. -/
theorem Shape.nlink (h : Shape c) {v : BitVec 16}
    (hself : (c.disk inum).type ≠ .free → anchors c l inum ≤ v.toNat)
    (hothers : ∀ i, i ≠ inum → (c.disk i).type ≠ .free → anchors c l i ≤ (c.disk i).nlink.toNat)
    (hpending : ∀ i, l = some i → (c.disk i).type ≠ .free ∧ (c.disk i).type ≠ .dir) :
    Anchored (c.setNlink inum v) l := by
  have htype : ∀ i, ((c.setNlink inum v).disk i).type = (c.disk i).type :=
    fun i => Core.setNlink_type ..
  have hents : ∀ i, (c.disk i).type = .dir →
      ((c.setNlink inum v).disk i).ents = (c.disk i).ents := fun i _ => Core.setNlink_ents ..
  refine ⟨h.congr rfl htype hents, fun i hi => ?_, fun i hi => ?_⟩
  · rw [htype] at hi
    rw [anchors_setNlink]
    by_cases hinum : i = inum
    · subst hinum
      rw [Core.setNlink_self]
      exact hself hi
    · rw [Core.setNlink_of_ne _ _ hinum]
      exact hothers i hinum hi
  · rw [htype]
    exact hpending i hi

theorem anchors_none_le : anchors c none i ≤ anchors c l i := by
  unfold anchors
  simp

theorem anchors_of_ne (h : l ≠ some i) : anchors c l i = anchors c none i := by
  simp [anchors, h]

theorem anchors_self : anchors c (some i) i = anchors c none i + 1 := by
  simp [anchors]

theorem toNat_add_one {v : BitVec 16} (h : v ≠ 0xffff) : (v + 1).toNat = v.toNat + 1 := by
  bv_omega

theorem toNat_sub_one {v : BitVec 16} (h : 0 < v.toNat) : (v - 1).toNat + 1 = v.toNat := by
  bv_omega

theorem Anchored.raise (h : Anchored c none) (halloc : (c.disk inum).type ≠ .free)
    (hdir : (c.disk inum).type ≠ .dir) (hmax : (c.disk inum).nlink ≠ 0xffff) :
    Anchored (c.setNlink inum ((c.disk inum).nlink + 1)) (some inum) := by
  refine h.shape.nlink (fun _ => ?_) (fun i hi ha => ?_) fun i hi => ?_
  · rw [toNat_add_one hmax, anchors_self]
    exact Nat.succ_le_succ (h.law inum halloc)
  · rw [anchors_of_ne fun heq => hi (Option.some.inj heq).symm]
    exact h.law i ha
  · obtain rfl := Option.some.inj hi
    exact ⟨halloc, hdir⟩

theorem Anchored.lower (h : Anchored c (some inum)) :
    Anchored (c.setNlink inum ((c.disk inum).nlink - 1)) none := by
  obtain ⟨halloc, -⟩ := h.pending inum rfl
  have hlaw := h.law inum halloc
  rw [anchors_self] at hlaw
  refine h.shape.nlink (fun _ => ?_) (fun i _ ha => Nat.le_trans anchors_none_le (h.law i ha))
    fun i hi => by cases hi
  have := toNat_sub_one (v := (c.disk inum).nlink) (by omega)
  omega

theorem Anchored.trunc (h : Anchored c l) (hfile : (c.disk inum).type = .file) :
    Anchored (c.trunc inum) l := by
  have htype : ∀ i, ((c.trunc inum).disk i).type = (c.disk i).type := by
    intro i
    by_cases hi : i = inum
    · subst hi
      rw [Core.trunc, Core.setDisk_self]
      rfl
    · rw [Core.trunc, Core.setDisk_of_ne _ _ hi]
  have hother : ∀ i, i ≠ inum → (c.trunc inum).disk i = c.disk i :=
    fun i hi => Core.setDisk_of_ne _ _ hi
  have hents : ∀ i, (c.disk i).type = .dir → ((c.trunc inum).disk i).ents = (c.disk i).ents := by
    intro i hi
    rw [hother i]
    rintro rfl
    rw [hfile] at hi
    cases hi
  refine ⟨h.shape.congr rfl htype hents, fun i hi => ?_, fun i hi => ?_⟩
  · rw [htype] at hi
    have hsame : anchors (c.trunc inum) l i = anchors c l i := by
      apply anchors_congr
      · rfl
      · exact htype
      · exact hents
    rw [hsame]
    refine (h.law i hi).trans_eq ?_
    by_cases hinum : i = inum
    · subst hinum
      rw [Core.trunc, Core.setDisk_self]
      rfl
    · rw [hother i hinum]
  · rw [htype]
    exact h.pending i hi

/-! ## Entering a name -/

theorem Relisted.shape {old rest : List Dirent} (hr : Relisted c c' dp old rest) (h : Shape c)
    (hform : Form c') : Shape c' := by
  refine ⟨hform, fun i parent rest hi hl => ?_⟩
  rw [hr.type] at hi ⊢
  obtain ⟨rest', hl'⟩ := hr.listing i parent rest hi hl
  exact h.up i parent rest' hi hl'

theorem Relisted.isSubdir {old rest : List Dirent} (hr : Relisted c c' dp old rest) :
    Fs.isSubdir c'.disk = Fs.isSubdir c.disk := by
  funext e
  rw [Fs.isSubdir, Fs.isSubdir, hr.type]

/-- What entering a name of `inum` in `dp` does to the counts. -/
theorem Shape.enter (h : Shape c) (hdir : (c.disk dp).type = .dir)
    (halloc : (c.disk inum).type ≠ .free) {name : Name}
    (hnone : findEntry (c.disk dp).ents name = none) :
    Shape (c.enter dp name inum) ∧
      (∀ i, i ≠ 0 → links (c.enter dp name inum) i = links c i + (if i = inum then 1 else 0)) ∧
      ∀ i, subdirs (c.enter dp name inum) i =
        subdirs c i + (if i = dp ∧ (c.disk inum).type = .dir then 1 else 0) := by
  obtain ⟨hform, hlinks, rest, hr⟩ := h.form.enter hdir halloc hnone
  have hinum := h.form.ne_zero halloc
  refine ⟨hr.shape h hform, hlinks, fun i => ?_⟩
  unfold subdirs
  rw [hr.isSubdir]
  by_cases hidp : i = dp
  · rw [hidp, hr.new, hr.old, countP_putEntry_empty fun e he => by simp [isSubdir, he]]
    simp [isSubdir, hinum]
  · rw [hr.other i hidp, if_neg fun hand => hidp hand.1, Nat.add_zero]

theorem Anchored.link (h : Anchored c (some inum)) (hdir : (c.disk dp).type = .dir) {name : Name}
    (hnone : findEntry (c.disk dp).ents name = none) : Anchored (c.enter dp name inum) none := by
  obtain ⟨halloc, hnotdir⟩ := h.pending inum rfl
  obtain ⟨hshape, hlinks, hsubdirs⟩ := h.shape.enter hdir halloc hnone
  refine ⟨hshape, fun i hi => ?_, fun i hi => by cases hi⟩
  have hi' : (c.disk i).type ≠ .free := by
    rw [Core.enter, Core.setEnts_type] at hi
    exact hi
  have hlaw := h.law i hi'
  have hnlink : ((c.enter dp name inum).disk i).nlink = (c.disk i).nlink := Core.setEnts_nlink ..
  have hsub := hsubdirs i
  rw [if_neg fun hand => hnotdir hand.2] at hsub
  unfold anchors at hlaw ⊢
  rw [hnlink, hlinks i (h.shape.form.ne_zero hi'), hsub]
  by_cases hinum : i = inum
  · simp only [hinum, if_true] at hlaw ⊢
    simp only [reduceCtorEq, if_false]
    omega
  · have hl : (some inum : Option Nat) ≠ some i := fun heq => hinum (Option.some.inj heq).symm
    rw [if_neg hl] at hlaw
    rw [if_neg hinum]
    simp only [reduceCtorEq, if_false]
    omega

/-- The new inode, before its name is entered. -/
theorem Shape.new (h : Shape c) (hfree : (c.disk inum).type = .free) (hpos : 0 < inum)
    (hlt : inum < c.ninodes) (type : FileType) (hdir : (c.disk dp).type = .dir)
    (major minor : BitVec 16) :
    Shape (c.setDisk inum (newInode inum dp type major minor)) ∧
      (∀ i, links (c.setDisk inum (newInode inum dp type major minor)) i = links c i) ∧
      (∀ i, i ≠ inum →
        subdirs (c.setDisk inum (newInode inum dp type major minor)) i = subdirs c i) ∧
      subdirs (c.setDisk inum (newInode inum dp type major minor)) inum = 0 := by
  have hdp : dp ≠ inum := by
    rintro rfl
    rw [hfree] at hdir
    cases hdir
  obtain ⟨hform, hlinks, hvnames, hvents, hnot⟩ := h.form.new hfree hpos hlt type hdir major minor
  have hvtype : (newInode inum dp type major minor).type = type := rfl
  generalize newInode inum dp type major minor = v at hform hlinks hvnames hvents hvtype
  have hself : (c.setDisk inum v).disk inum = v := Core.setDisk_self ..
  have hother : ∀ i, i ≠ inum → (c.setDisk inum v).disk i = c.disk i :=
    fun i hi => Core.setDisk_of_ne _ _ hi
  refine ⟨⟨hform, fun i parent rest hi hl => ?_⟩, hlinks, fun i hi => ?_, ?_⟩
  · by_cases hinum : i = inum
    · subst hinum
      rw [hself] at hi hl
      rw [(hl.unique (hvents (hvtype ▸ hi))).1, hother dp hdp]
      exact hdir
    · rw [hother i hinum] at hi hl
      have hup := h.up i parent rest hi hl
      rw [hother parent]
      · exact hup
      · rintro rfl
        rw [hfree] at hup
        cases hup
  · unfold subdirs
    rw [hother i hi]
    refine List.countP_congr fun e he => ?_
    unfold isSubdir
    by_cases hlive : e.inum = 0
    · simp [hlive]
    · rw [hother _ (hnot i e he hlive)]
  · unfold subdirs
    rw [hself, hvnames]
    rfl

theorem Anchored.made (h : Anchored c none) (hfree : (c.disk inum).type = .free) (hpos : 0 < inum)
    (hlt : inum < c.ninodes) {type : FileType} (htype : type ≠ .free)
    (hdir : (c.disk dp).type = .dir) {name : Name} (hnone : findEntry (c.disk dp).ents name = none)
    (major minor : BitVec 16) (hmax : type = .dir → (c.disk dp).nlink ≠ 0xffff) :
    Anchored (c.create inum dp type major minor name) none := by
  have hdp : dp ≠ inum := by
    rintro rfl
    rw [hfree] at hdir
    cases hdir
  have hroot : inum ≠ ROOTINO := by
    rintro rfl
    rw [h.shape.form.root] at hfree
    cases hfree
  obtain ⟨hshape, hlinks, hsubdirs, hsubzero⟩ := h.shape.new hfree hpos hlt type hdir major minor
  generalize hc₁ : c.setDisk inum (newInode inum dp type major minor) = c₁
    at hshape hlinks hsubdirs hsubzero
  have hself : c₁.disk inum = newInode inum dp type major minor := by
    rw [← hc₁, Core.setDisk_self]
  have hother : ∀ i, i ≠ inum → c₁.disk i = c.disk i := by
    subst hc₁
    exact fun i hi => Core.setDisk_of_ne _ _ hi
  have hdir₁ : (c₁.disk dp).type = .dir := by rw [hother dp hdp, hdir]
  have halloc₁ : (c₁.disk inum).type ≠ .free := by rw [hself]; exact htype
  have hnone₁ : findEntry (c₁.disk dp).ents name = none := by rw [hother dp hdp, hnone]
  obtain ⟨hshape₂, hlinks₂, hsubdirs₂⟩ := hshape.enter hdir₁ halloc₁ hnone₁
  have htype₁ : (c₁.disk inum).type = type := by rw [hself]; rfl
  generalize hc₂ : c₁.enter dp name inum = c₂ at hshape₂ hlinks₂ hsubdirs₂
  have htype₂ : ∀ i, (c₂.disk i).type = (c₁.disk i).type := by
    subst hc₂
    exact fun i => Core.setEnts_type ..
  have hnlink₂ : ∀ i, (c₂.disk i).nlink = (c₁.disk i).nlink := by
    subst hc₂
    exact fun i => Core.setEnts_nlink ..
  rw [htype₁] at hsubdirs₂
  -- the counts after the name has been entered
  have hinum : anchors c₂ none inum ≤ 1 := by
    have hsub := hsubdirs₂ inum
    rw [hsubzero, if_neg fun hand => hdp hand.1.symm] at hsub
    have hlink := hlinks₂ inum (by omega)
    rw [hlinks, h.shape.form.links_free hfree (by omega), if_pos rfl] at hlink
    unfold anchors
    rw [if_neg hroot, hlink, hsub]
    simp
  have hrest : ∀ i, i ≠ inum → (c.disk i).type ≠ .free → anchors c₂ none i ≤
      (c.disk i).nlink.toNat + (if i = dp ∧ type = .dir then 1 else 0) := by
    intro i hi ha
    have hlaw := h.law i ha
    have hlink := hlinks₂ i (h.shape.form.ne_zero ha)
    rw [hlinks, if_neg hi] at hlink
    unfold anchors at hlaw ⊢
    rw [hlink, hsubdirs₂ i, hsubdirs i hi]
    omega
  have halloc : ∀ i, i ≠ inum → (c₂.disk i).type ≠ .free → (c.disk i).type ≠ .free := by
    intro i hi ha
    rw [htype₂, hother i hi] at ha
    exact ha
  unfold Core.create
  rw [hc₁, hc₂]
  by_cases hd : type = .dir
  · rw [if_pos hd]
    refine ((hshape₂.note _).note _).nlink (fun _ => ?_) (fun i hi ha => ?_) fun i hi => by cases hi
    · rw [toNat_add_one (hmax hd)]
      have := hrest dp hdp (by rw [hdir]; simp)
      rw [if_pos ⟨rfl, hd⟩] at this
      exact this
    · show anchors c₂ none i ≤ (c₂.disk i).nlink.toNat
      by_cases hi' : i = inum
      · subst hi'
        rw [hnlink₂, hself]
        exact hinum
      · have := hrest i hi' (halloc i hi' ha)
        rw [if_neg fun hand => hi hand.1] at this
        rw [hnlink₂, hother i hi']
        exact this
  · rw [if_neg hd]
    refine Anchored.note ⟨hshape₂, fun i hi => ?_, fun i hi => by cases hi⟩ _
    by_cases hi' : i = inum
    · subst hi'
      rw [hnlink₂, hself]
      exact hinum
    · have := hrest i hi' (halloc i hi' hi)
      rw [if_neg fun hand => hd hand.2] at this
      rw [hnlink₂, hother i hi']
      exact this

/-! ## Taking a name away -/

/-- What taking a name of `inum` away from `dp` does to the counts. -/
theorem Shape.remove (h : Shape c) (hdir : (c.disk dp).type = .dir) {off : Nat} {name : Name}
    (hfind : findEntry (c.disk dp).ents name = some off) (hdot : name ≠ dot)
    (hdotdot : name ≠ dotdot) (hinum : ((c.disk dp).ents.getD off ⟨0, []⟩).inum = inum) :
    Shape (c.setEnts dp (putEntry (c.disk dp).ents off ⟨0, []⟩)) ∧
      (∀ i, i ≠ 0 → links (c.setEnts dp (putEntry (c.disk dp).ents off ⟨0, []⟩)) i +
        (if i = inum then 1 else 0) = links c i) ∧
      ∀ i, subdirs (c.setEnts dp (putEntry (c.disk dp).ents off ⟨0, []⟩)) i +
        (if i = dp ∧ (c.disk inum).type = .dir then 1 else 0) = subdirs c i := by
  obtain ⟨hform, hlinks, rest, k, de, hget, hde, hlive, hr⟩ :=
    h.form.remove hdir hfind hdot hdotdot hinum
  refine ⟨hr.shape h hform, hlinks, fun i => ?_⟩
  unfold subdirs
  rw [hr.isSubdir]
  by_cases hidp : i = dp
  · have hcount := countP_remove (p := isSubdir c.disk) (fun e he => by simp [isSubdir, he]) hget
    have hsub : isSubdir c.disk de = decide ((c.disk inum).type = .dir) := by
      simp [isSubdir, hde, hlive]
    rw [hsub] at hcount
    simp only [decide_eq_true_eq] at hcount
    rw [hidp, hr.new, hr.old]
    simpa using hcount
  · rw [hr.other i hidp, if_neg fun hand => hidp hand.1, Nat.add_zero]

theorem Anchored.unlink (h : Anchored c none) (hdir : (c.disk dp).type = .dir) {off : Nat}
    {name : Name} (hfind : findEntry (c.disk dp).ents name = some off) (hdot : name ≠ dot)
    (hdotdot : name ≠ dotdot) (hinum : ((c.disk dp).ents.getD off ⟨0, []⟩).inum = inum)
    (halloc : (c.disk inum).type ≠ .free)
    (hempty : (c.disk inum).type = .dir → isdirempty (c.disk inum).ents = true) :
    Anchored (c.unlink dp off) none := by
  obtain ⟨hshape, hlinks, hsubdirs⟩ := h.shape.remove hdir hfind hdot hdotdot hinum
  have hdp : dp ≠ inum := by
    rintro rfl
    obtain ⟨parent, rest, hl⟩ := h.shape.form.listing dp hdir
    obtain ⟨k, rfl, hk, hget⟩ := hl.find hfind hdot hdotdot
    have hall := List.all_eq_true.1 (hempty hdir) _ (hl.drop ▸ List.mem_of_getElem? hget)
    exact (findEntry_some hfind).2.2.2.1 (of_decide_eq_true hall)
  simp only [Core.unlink, hinum]
  generalize hc₁ : c.setEnts dp (putEntry (c.disk dp).ents off ⟨0, []⟩) = c₁ at hshape hlinks hsubdirs
  have htype₁ : ∀ i, (c₁.disk i).type = (c.disk i).type := by
    subst hc₁
    exact fun i => Core.setEnts_type ..
  have hnlink₁ : ∀ i, (c₁.disk i).nlink = (c.disk i).nlink := by
    subst hc₁
    exact fun i => Core.setEnts_nlink ..
  have hpos := hlinks inum (h.shape.form.ne_zero halloc)
  rw [if_pos rfl] at hpos
  -- the counts after the entry has been zeroed
  have hless : ∀ i, (c.disk i).type ≠ .free → anchors c₁ none i + (if i = inum then 1 else 0) +
      (if i = dp ∧ (c.disk inum).type = .dir then 1 else 0) ≤ (c.disk i).nlink.toNat := by
    intro i ha
    have hlaw := h.law i ha
    have hlink := hlinks i (h.shape.form.ne_zero ha)
    have hsub := hsubdirs i
    unfold anchors at hlaw ⊢
    omega
  generalize hc₂ : (if (c.disk inum).type = .dir then c₁.setNlink dp ((c₁.disk dp).nlink - 1)
    else c₁) = c₂
  have hc₂' : Shape c₂ ∧ (∀ i, anchors c₂ none i = anchors c₁ none i) ∧
      (∀ i, (c₂.disk i).type = (c.disk i).type) ∧ (c₂.disk inum).nlink = (c.disk inum).nlink ∧
      ∀ i, i ≠ inum → (c.disk i).type ≠ .free → anchors c₁ none i ≤ (c₂.disk i).nlink.toNat := by
    by_cases hd : (c.disk inum).type = .dir
    · rw [if_pos hd] at hc₂
      subst hc₂
      refine ⟨hshape.congr rfl (fun i => Core.setNlink_type ..) fun i _ => Core.setNlink_ents ..,
        fun i => anchors_setNlink .., fun i => ?_, ?_, fun i hi ha => ?_⟩
      · rw [Core.setNlink_type, htype₁]
      · rw [Core.setNlink_of_ne _ _ (Ne.symm hdp), hnlink₁]
      · have := hless i ha
        by_cases hidp : i = dp
        · rw [if_neg hi, if_pos ⟨hidp, hd⟩, hidp] at this
          rw [hidp, Core.setNlink, Core.setDisk_self]
          show _ ≤ ((c₁.disk dp).nlink - 1).toNat
          rw [hnlink₁]
          have := toNat_sub_one (v := (c.disk dp).nlink) (by omega)
          omega
        · rw [Core.setNlink_of_ne _ _ hidp, hnlink₁]
          omega
    · rw [if_neg hd] at hc₂
      subst hc₂
      refine ⟨hshape, fun i => rfl, htype₁, hnlink₁ inum, fun i _ ha => ?_⟩
      have := hless i ha
      rw [hnlink₁]
      omega
  obtain ⟨hshape₂, hanchors, htype₂, hnlink₂, hrest⟩ := hc₂'
  refine Shape.nlink (l := none) hshape₂ (fun _ => ?_) (fun i hi ha => ?_) fun i hi => by cases hi
  · have := hless inum halloc
    rw [if_pos rfl, if_neg fun hand => hdp hand.1.symm] at this
    rw [hanchors, hnlink₂]
    have := toNat_sub_one (v := (c.disk inum).nlink) (by omega)
    omega
  · rw [hanchors]
    exact hrest i hi (htype₂ i ▸ ha)

/-! ## Every run -/

/-- What a history that strands no entry keeps. -/
def AnchoredOf (a : Core × Option Nat) : Prop :=
  a.1.ninodes ≤ 2 ^ 16 ∧ (Clean a.1.events → Anchored a.1 a.2)

def cleanFrame : Frame where
  strict := Clean
  inuse := fun _ => False
  mono := fun _ _ h e he => h e (List.mem_cons_of_mem _ he)

/-- The panics that may happen: `ilock: no type` only after an entry has been stranded. -/
def mayDangle (a : Panic × FS) : Prop := a.1 = .ilockNoType → ¬ Clean a.2.events

theorem clean_cons {e : Event} {es : List Event} :
    Clean (e :: es) ↔ e.strands = false ∧ Clean es := by
  simp [Clean]

theorem lax_dangle : Lax cleanFrame mayDangle :=
  ⟨fun _ _ h _ he => absurd he h, fun _ h _ => h⟩

theorem AnchoredOf.act {a b : Core × Option Nat} (hact : Act cleanFrame.inuse a b)
    (h : AnchoredOf a) : AnchoredOf b := by
  cases hact with
  | free halloc hzero _ =>
      refine ⟨h.1, fun hclean => ?_⟩
      obtain ⟨hparent, hclean⟩ := clean_cons.1 hclean
      exact (h.2 hclean).free halloc hzero hparent
  | abort hfree =>
      refine ⟨h.1, fun hclean => ?_⟩
      exact (h.2 (clean_cons.1 hclean).2).abort hfree _
  | raise halloc hdir =>
      refine ⟨h.1, fun hclean => ?_⟩
      obtain ⟨hmax, hclean⟩ := clean_cons.1 hclean
      exact ((h.2 hclean).note _).raise halloc hdir (of_decide_eq_false hmax)
  | lower halloc => exact ⟨h.1, fun hclean => (h.2 hclean).lower⟩

theorem AnchoredOf.made {c c' : Core} (hmade : Made c c') (h : AnchoredOf (c, none)) :
    AnchoredOf (c', none) := by
  cases hmade with
  | @create inum dp type major minor name hfree hpos hlt htype hdir hnone =>
      unfold AnchoredOf Core.create
      by_cases hd : type = .dir
      · rw [if_pos hd]
        refine ⟨h.1, fun hclean => ?_⟩
        obtain ⟨hmax, hclean⟩ := clean_cons.1 hclean
        have hmade := (h.2 (clean_cons.1 hclean).2).made hfree hpos hlt htype hdir hnone major minor
          fun _ => of_decide_eq_false hmax
        rw [Core.create, if_pos hd] at hmade
        exact hmade
      · rw [if_neg hd]
        refine ⟨h.1, fun hclean => ?_⟩
        have hmade := (h.2 (clean_cons.1 hclean).2).made hfree hpos hlt htype hdir hnone major minor
          fun hd' => absurd hd' hd
        rw [Core.create, if_neg hd] at hmade
        exact hmade

theorem AnchoredOf.done {a : Core × Option Nat} {c : Core} (hdone : Done a c) (h : AnchoredOf a) :
    AnchoredOf (c, none) := by
  cases hdone with
  | link hdir hnone =>
      refine ⟨h.1, fun hclean => ?_⟩
      exact ((h.2 (clean_cons.1 hclean).2).link hdir hnone).note _
  | @unlink c dp off name hdir hfind hdot hdotdot halloc hnlink hempty =>
      have hsame : (c.unlink dp off).ninodes = c.ninodes ∧ (c.unlink dp off).events = c.events := by
        simp only [Core.unlink]
        split <;> exact ⟨rfl, rfl⟩
      refine ⟨hsame.1 ▸ h.1, fun hclean => ?_⟩
      exact (h.2 (hsame.2 ▸ hclean)).unlink hdir hfind hdot hdotdot rfl halloc hempty

theorem AnchoredOf.freeStep {c c' : Core} (hfree : FreeStep cleanFrame.inuse c c')
    (h : AnchoredOf (c, none)) : AnchoredOf (c', none) := by
  obtain ⟨inum, halloc, hzero, hinuse, rfl⟩ := hfree
  exact AnchoredOf.act (Act.free halloc hzero hinuse) h

theorem kept_anchored :
    Kept cleanFrame mayDangle AnchoredOf (Before AnchoredOf) (Before AnchoredOf) where
  act := fun _ _ => AnchoredOf.act
  made := fun _ _ => AnchoredOf.made
  done := fun _ _ => AnchoredOf.done
  trunc := fun _ _ hfile h => ⟨h.1, fun hclean => (h.2 hclean).trunc hfile⟩
  madeFree := fun _ _ => AnchoredOf.freeStep
  doneFree := fun _ _ => AnchoredOf.freeStep
  failed := fun _ h => h
  madeDone := fun _ h => h
  named := fun _ _ h hclean => (h.2 hclean).shape.named
  root := fun _ _ h hclean => by
    rw [(h.2 hclean).shape.form.root]
    simp
  bound := fun _ _ h => h.1
  linked := fun _ _ _ _ _ _ _ _ _ _ _ he => by cases he

/-- Every entry of every directory names an inode that is allocated, and `..` a directory. -/
def NoDangling (disk : Nat → Dinode) : Prop :=
  ∀ i, (disk i).type = .dir → ∀ e ∈ (disk i).ents, e.inum ≠ 0 →
    (disk e.inum).type ≠ .free ∧ (e.name = dotdot → (disk e.inum).type = .dir)

theorem Shape.noDangling (h : Shape c) : NoDangling c.disk := by
  intro i hdir e he hlive
  refine ⟨h.named i hdir e he hlive, fun hname => ?_⟩
  obtain ⟨parent, rest, hl⟩ := h.form.listing i hdir
  rw [hl.dotdot_inum he hname hlive]
  exact h.up i parent rest hdir hl

end Xv6.Fs
