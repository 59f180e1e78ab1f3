import Xv6.Fs.Dangling

set_option autoImplicit false

/-! # Directories keep their parents

The `..` of a directory names the same inode until the directory is freed, and as long as no `..` is
stranded that inode is not freed before, so it is not a recycled one. -/

namespace Xv6.Fs

open Xv6.Lib

variable {c c' : Core} {l : Option Nat} {inum dp i j : Nat}

/-- What happened since `c`: a directory that has not been freed is a directory with the same `..`, and
    the inode that this names has not been freed either. -/
def SameParents (c c' : Core) : Prop := ∃ new, c'.events = new ++ c.events ∧
  ∀ i j, (c.disk i).type = .dir → ⟨j, dotdot⟩ ∈ (c.disk i).ents → j ≠ 0 →
    (∃ parent, .freed i parent ∈ new) ∨
      (c'.disk i).type = .dir ∧ ⟨j, dotdot⟩ ∈ (c'.disk i).ents ∧ ∀ parent, .freed j parent ∉ new

theorem SameParents.refl (c : Core) : SameParents c c :=
  ⟨[], rfl, fun _ _ hdir hmem _ => .inr ⟨hdir, hmem, fun _ => List.not_mem_nil⟩⟩

theorem SameParents.trans {c'' : Core} (h : SameParents c c') (h' : SameParents c' c'') : SameParents c c'' := by
  obtain ⟨new, hnew, hkeep⟩ := h
  obtain ⟨new', hnew', hkeep'⟩ := h'
  refine ⟨new' ++ new, by rw [hnew', hnew, List.append_assoc], fun i j hdir hmem hj => ?_⟩
  rcases hkeep i j hdir hmem hj with ⟨parent, hfreed⟩ | ⟨hdir, hmem, hj₁⟩
  · exact .inl ⟨parent, List.mem_append_right _ hfreed⟩
  · rcases hkeep' i j hdir hmem hj with ⟨parent, hfreed⟩ | ⟨hdir, hmem, hj₂⟩
    · exact .inl ⟨parent, List.mem_append_left _ hfreed⟩
    · exact .inr ⟨hdir, hmem, fun parent => List.not_mem_append (hj₂ parent) (hj₁ parent)⟩

/-- No inode is freed, and directories keep their entries `..`. -/
theorem SameParents.of_keeps {new : List Event} (hnew : c'.events = new ++ c.events)
    (hfreed : ∀ i parent, .freed i parent ∉ new)
    (hkeep : ∀ i j, (c.disk i).type = .dir → ⟨j, dotdot⟩ ∈ (c.disk i).ents → j ≠ 0 →
      (c'.disk i).type = .dir ∧ ⟨j, dotdot⟩ ∈ (c'.disk i).ents) : SameParents c c' :=
  ⟨new, hnew, fun i j hdir hmem hj => .inr ⟨(hkeep i j hdir hmem hj).1, (hkeep i j hdir hmem hj).2, hfreed j⟩⟩

/-! ## The acts -/

theorem sameParents_free (h : Anchored c l) (hparent : isParent c.ninodes c.disk inum = false) :
    SameParents c (c.free inum) := by
  refine ⟨[.freed inum (isParent c.ninodes c.disk inum)], rfl, fun i j hdir hmem _ => ?_⟩
  by_cases hi : i = inum
  · exact .inl ⟨_, by rw [hi]; exact List.mem_singleton.2 rfl⟩
  · have hj : j ≠ inum := isParent_eq_false hparent (h.shape.form.lt_of_dir hdir) hi hdir hmem rfl
    have hsame : (c.free inum).disk i = c.disk i := Core.setDisk_of_ne _ _ hi
    rw [hsame]
    refine .inr ⟨hdir, hmem, fun parent hfreed => hj ?_⟩
    exact (Event.freed.inj (List.mem_singleton.1 hfreed)).1

theorem sameParents_abort (h : Anchored c none) (hfree : (c.disk inum).type = .free) (d : Dinode) :
    SameParents c ((c.setDisk inum d).free inum) := by
  rw [Core.setDisk_free]
  refine ⟨[_], rfl, fun i j hdir hmem hj => ?_⟩
  have hi : i ≠ inum := by
    rintro rfl
    rw [hfree] at hdir
    cases hdir
  refine .inr ?_
  rw [Core.setDisk_of_ne _ _ hi]
  refine ⟨hdir, hmem, fun parent hfreed => ?_⟩
  obtain ⟨rfl, -⟩ := Event.freed.inj (List.mem_singleton.1 hfreed)
  exact (h.shape.noDangling i hdir _ hmem hj).1 hfree

theorem sameParents_setNlink (c : Core) (inum : Nat) (v : BitVec 16) : SameParents c (c.setNlink inum v) :=
  .of_keeps (List.nil_append _).symm (fun _ _ => List.not_mem_nil) fun i j hdir hmem _ => by
    rw [Core.setNlink_type, Core.setNlink_ents]
    exact ⟨hdir, hmem⟩

theorem sameParents_note (c : Core) {e : Event} (he : ∀ i parent, e ≠ .freed i parent) :
    SameParents c (c.note e) := by
  have hnew : (c.note e).events = [e] ++ c.events := rfl
  refine .of_keeps hnew (fun i parent h => ?_) fun _ _ hdir hmem _ => ⟨hdir, hmem⟩
  exact he i parent (List.mem_singleton.1 h).symm

/-- An entry other than a `..` is written. -/
theorem sameParents_putEntry {off : Nat} {de : Dirent}
    (hoff : ∀ j, j ≠ 0 → (c.disk dp).ents[off]? ≠ some ⟨j, dotdot⟩) :
    SameParents c (c.setEnts dp (putEntry (c.disk dp).ents off de)) := by
  refine .of_keeps (List.nil_append _).symm (fun _ _ => List.not_mem_nil) fun i j hdir hmem hj => ?_
  rw [Core.setEnts_type]
  refine ⟨hdir, ?_⟩
  by_cases hi : i = dp
  · subst hi
    rw [Core.setEnts, Core.setDisk_self]
    exact mem_putEntry hmem (hoff j hj)
  · rw [Core.setEnts, Core.setDisk_of_ne _ _ hi]
    exact hmem

theorem sameParents_enter (c : Core) (dp : Nat) (name : Name) (inum : Nat) :
    SameParents c (c.enter dp name inum) :=
  sameParents_putEntry fun _ hj hget => hj (emptyEntry_inum hget)

theorem sameParents_setDisk {d : Dinode} (hdir : (c.disk inum).type ≠ .dir) : SameParents c (c.setDisk inum d) := by
  refine .of_keeps (List.nil_append _).symm (fun _ _ => List.not_mem_nil) fun i j hi hmem _ => ?_
  have hne : i ≠ inum := fun h => hdir (h ▸ hi)
  rw [Core.setDisk_of_ne _ _ hne]
  exact ⟨hi, hmem⟩

theorem sameParents_create (hfree : (c.disk inum).type = .free) (dp : Nat) (type : FileType)
    (major minor : BitVec 16) (name : Name) :
    SameParents c (c.create inum dp type major minor name) := by
  have hnew : (c.disk inum).type ≠ .dir := by
    rw [hfree]
    decide
  have hinode : SameParents c (c.setDisk inum (newInode inum dp type major minor)) :=
    sameParents_setDisk hnew
  have hname := hinode.trans (sameParents_enter _ dp name inum)
  have hentered := hname.trans
    (sameParents_note _ (e := .entered (c.disk dp).nlink) fun _ _ h => by cases h)
  unfold Core.create
  by_cases hd : type = .dir
  · rw [if_pos hd]
    exact (hentered.trans (sameParents_note _ fun _ _ h => by cases h)).trans (sameParents_setNlink ..)
  · rw [if_neg hd]
    exact hentered

theorem sameParents_unlink {off : Nat} {name : Name} (hfind : findEntry (c.disk dp).ents name = some off)
    (hdotdot : name ≠ dotdot) : SameParents c (c.unlink dp off) := by
  have hput : SameParents c (c.setEnts dp (putEntry (c.disk dp).ents off ⟨0, []⟩)) := by
    refine sameParents_putEntry fun j _ hget => hdotdot ?_
    obtain ⟨-, -, hentry, -, hname⟩ := findEntry_some hfind
    rw [hentry] at hget
    rw [← hname, Option.some.inj hget]
  simp only [Core.unlink]
  split
  · exact (hput.trans (sameParents_setNlink ..)).trans (sameParents_setNlink ..)
  · exact hput.trans (sameParents_setNlink ..)

/-! ## Every run -/

/-- What a history that strands no entry keeps since `c₀`. -/
def ParentsOf (c₀ : Core) (a : Core × Option Nat) : Prop :=
  AnchoredOf a ∧ (Clean a.1.events → SameParents c₀ a.1)

variable {c₀ : Core} {a b : Core × Option Nat}

theorem ParentsOf.act (hact : Act cleanFrame.inuse a b) (h : ParentsOf c₀ a) : ParentsOf c₀ b := by
  refine ⟨h.1.act hact, fun hclean => ?_⟩
  cases hact with
  | free halloc hzero _ =>
      obtain ⟨hparent, hclean⟩ := clean_cons.1 hclean
      exact (h.2 hclean).trans (sameParents_free (h.1.2 hclean) hparent)
  | abort hfree =>
      have hclean := (clean_cons.1 hclean).2
      exact (h.2 hclean).trans (sameParents_abort (h.1.2 hclean) hfree _)
  | raise halloc hdir =>
      have hbefore := h.2 (clean_cons.1 hclean).2
      refine (hbefore.trans (sameParents_note _ fun _ _ he => ?_)).trans (sameParents_setNlink ..)
      cases he
  | lower halloc => exact (h.2 hclean).trans (sameParents_setNlink ..)

theorem ParentsOf.made (hmade : Made c c') (h : ParentsOf c₀ (c, none)) : ParentsOf c₀ (c', none) := by
  refine ⟨h.1.made hmade, fun hclean => ?_⟩
  cases hmade with
  | @create inum dp type major minor name hfree hpos hlt htype hdir hnone =>
      have hclean : Clean c.events := by
        unfold Core.create at hclean
        by_cases hd : type = .dir
        · rw [if_pos hd] at hclean
          exact (clean_cons.1 (clean_cons.1 hclean).2).2
        · rw [if_neg hd] at hclean
          exact (clean_cons.1 hclean).2
      exact (h.2 hclean).trans (sameParents_create hfree dp type major minor name)

theorem ParentsOf.done (hdone : Done a c) (h : ParentsOf c₀ a) : ParentsOf c₀ (c, none) := by
  refine ⟨h.1.done hdone, fun hclean => ?_⟩
  cases hdone with
  | @link c inum dp name hdir hnone =>
      have henter := (h.2 (clean_cons.1 hclean).2).trans (sameParents_enter _ dp name inum)
      exact henter.trans (sameParents_note _ fun _ _ he => by cases he)
  | @unlink c dp off name hdir hfind hdot hdotdot halloc hnlink hempty =>
      have hsame : (c.unlink dp off).events = c.events := by
        simp only [Core.unlink]
        split <;> rfl
      rw [hsame] at hclean
      exact (h.2 hclean).trans (sameParents_unlink hfind hdotdot)

theorem ParentsOf.freeStep (hfree : FreeStep cleanFrame.inuse c c') (h : ParentsOf c₀ (c, none)) :
    ParentsOf c₀ (c', none) := by
  obtain ⟨inum, halloc, hzero, hinuse, rfl⟩ := hfree
  exact h.act (Act.free halloc hzero hinuse)

theorem kept_parents (c₀ : Core) : Kept cleanFrame mayDangle (ParentsOf c₀) (Before (ParentsOf c₀))
    (Before (ParentsOf c₀)) where
  act := fun _ _ hact h => h.act hact
  made := fun _ _ hmade h => h.made hmade
  done := fun _ _ hdone h => h.done hdone
  trunc := fun _ _ hfile h => by
    refine ⟨kept_anchored.trunc _ _ hfile h.1, fun hclean => (h.2 hclean).trans (sameParents_setDisk ?_)⟩
    rw [hfile]
    decide
  madeFree := fun _ _ hfree h => h.freeStep hfree
  doneFree := fun _ _ hfree h => h.freeStep hfree
  failed := fun _ h => h
  madeDone := fun _ h => h
  named := fun c l h => kept_anchored.named c l h.1
  root := fun c l h => kept_anchored.root c l h.1
  bound := fun c l h => kept_anchored.bound c l h.1
  linked := fun s dp off name h => kept_anchored.linked s dp off name h.1

/-- A file system image: no entry dangles, and no link count is less than the number of entries that
    it stands for. -/
def WellFormedImage (ninodes : Nat) (disk : Nat → Dinode) : Prop :=
  Anchored ⟨ninodes, disk, []⟩ none

theorem sound_image {ninodes : Nat} {disk : Nat → Dinode} (himage : WellFormedImage ninodes disk) :
    Sound cleanFrame mayDangle AnchoredOf (boot ninodes disk) := by
  refine sound_boot (fun _ h => h) ?_ ⟨himage.shape.form.size, fun _ => himage⟩
  have hroot : (disk ROOTINO).type = .dir := himage.shape.form.root
  rw [hroot]
  simp

/-- From here on the run starts from `s`. -/
theorem Sound.parents {s : State} (h : Sound cleanFrame mayDangle AnchoredOf s) :
    Sound cleanFrame mayDangle (ParentsOf s.fs.core) s := by
  unfold Sound at h ⊢
  cases hpanic : s.panic with
  | none =>
      rw [hpanic] at h
      exact ⟨h.refs, ⟨h.kept, fun _ => .refl _⟩, h.files, h.idle⟩
  | some e =>
      rw [hpanic] at h
      exact h

/-- As long as no `iput` frees an inode that the `..` of another directory names, and no link count
    starts again from zero, no entry dangles and no path leads to a free inode. Until a directory is
    freed its `..` names one inode, and that inode is not freed either, so it is not a recycled one. -/
theorem no_dangling {ninodes : Nat} {disk : Nat → Dinode} (himage : WellFormedImage ninodes disk)
    {calls : List Label} {s : State} (hrun : runSteps step (boot ninodes disk) calls = some s)
    (hclean : Clean s.fs.events) :
    s.panic ≠ some .ilockNoType ∧ (s.panic = none → NoDangling s.fs.disk) ∧
      ∀ before after u, calls = before ++ after → runSteps step (boot ninodes disk) before = some u →
        s.panic = none → SameParents u.fs.core s.fs.core := by
  have hsound : ∀ ls t, runSteps step (boot ninodes disk) ls = some t →
      Sound cleanFrame mayDangle AnchoredOf t := fun ls t =>
    runSteps_invariant (fun _ _ _ h hstep => h.step lax_dangle kept_anchored (fun _ h => h) hstep)
      (sound_image himage)
  have hs := hsound _ _ hrun
  refine ⟨fun he => ?_, fun hpanic => ?_, fun before after u hcalls hbefore hpanic => ?_⟩
  · unfold Sound at hs
    rw [he] at hs
    exact hs rfl hclean
  · unfold Sound at hs
    rw [hpanic] at hs
    exact (hs.kept.2 hclean).shape.noDangling
  · rw [hcalls, runSteps_append, hbefore] at hrun
    have hs : Sound cleanFrame mayDangle (ParentsOf u.fs.core) s :=
      runSteps_invariant
        (fun _ _ _ h hstep => h.step lax_dangle (kept_parents _) (fun _ h => h) hstep)
        (hsound _ _ hbefore).parents hrun
    unfold Sound at hs
    rw [hpanic] at hs
    exact hs.kept.2 hclean

/-! ## A removed directory outlives its parent -/

theorem shape_mkfsDisk : Shape ⟨200, mkfsDisk, []⟩ := by
  refine ⟨form_mkfsDisk (by decide) (by decide), fun i parent rest hi hl => ?_⟩
  rw [dir_mkfsDisk hi] at hl
  rw [(hl.unique listing_mkfsDisk).1]
  rfl

theorem wellFormedImage_mkfsDisk : WellFormedImage 200 mkfsDisk := by
  refine ⟨shape_mkfsDisk, fun i hi => ?_, by simp⟩
  have hroot : i = ROOTINO := by
    by_contra hne
    refine hi ?_
    show (mkfsDisk i).type = .free
    rw [mkfsDisk_of_ne hne]
  have hsub : subdirs ⟨200, mkfsDisk, []⟩ i = 0 := by
    unfold subdirs
    rw [show namesOf (mkfsDisk i) = [] from namesOf_mkfsDisk i]
    rfl
  unfold anchors
  rw [links_mkfsDisk, hsub, hroot]
  decide

/-- `"/a/b"` -/
def pathAB : Path := [slash, 97, slash, 98]

/-- `/a` is removed while its removed subdirectory is the working directory. -/
def removeBoth : List Label :=
  [byInit (.mkdir (some pathA)), byInit (.mkdir (some pathAB)), byInit (.chdir (some pathAB)),
    byInit (.unlink (some pathAB)), byInit (.unlink (some pathA))]

/-- `open("..", O_RDONLY)` -/
def openParent : Label := byInit (.open (some dotdot) 0)

/-- After `removeBoth`: the working directory is there, its `..` is not, and a path through it ends in
    a panic. -/
def dangles : Bool :=
  match runSteps step (boot 200 mkfsDisk) removeBoth with
  | none => false
  | some s => decide (s.panic = none) && decide ((s.fs.disk 3).type = .dir) &&
      decide (⟨2, dotdot⟩ ∈ (s.fs.disk 3).ents) && decide ((s.fs.disk 2).type = .free) &&
      match step s openParent with
      | none => false
      | some t => decide (t.panic = some .ilockNoType)

theorem dotdot_dangles :
    WellFormedImage 200 mkfsDisk ∧
      ∃ s, runSteps step (boot 200 mkfsDisk) removeBoth = some s ∧ s.panic = none ∧
        ¬ NoDangling s.fs.disk ∧
        ∃ t, step s openParent = some t ∧ t.panic = some .ilockNoType := by
  refine ⟨wellFormedImage_mkfsDisk, ?_⟩
  have hcheck : dangles = true := by decide +kernel
  unfold dangles at hcheck
  cases hrun : runSteps step (boot 200 mkfsDisk) removeBoth with
  | none =>
      rw [hrun] at hcheck
      cases hcheck
  | some s =>
      rw [hrun] at hcheck
      simp only [Bool.and_eq_true, decide_eq_true_eq] at hcheck
      obtain ⟨⟨⟨⟨hpanic, hdir⟩, hmem⟩, hfree⟩, hopen⟩ := hcheck
      refine ⟨s, rfl, hpanic, fun h => (h 3 hdir _ hmem (by decide)).1 hfree, ?_⟩
      cases hstep : step s openParent with
      | none =>
          rw [hstep] at hopen
          cases hopen
      | some t =>
          rw [hstep] at hopen
          exact ⟨t, rfl, of_decide_eq_true hopen⟩

/-- `/a` becomes the working directory. -/
def enterA : List Label := [byInit (.mkdir (some pathA)), byInit (.chdir (some pathA))]

/-- A clean run: the working directory is removed. -/
def removeA : List Label := enterA ++ [byInit (.unlink (some pathA))]

/-- After `enterA` the `..` of inode 2 names the root; no inode is freed after that. -/
def cleanRun : Bool :=
  match runSteps step (boot 200 mkfsDisk) enterA, runSteps step (boot 200 mkfsDisk) removeA with
  | some u, some s => decide ((u.fs.disk 2).type = .dir) && decide (⟨1, dotdot⟩ ∈ (u.fs.disk 2).ents) &&
      decide (s.panic = none) && decide (s.fs.events = u.fs.events) &&
      s.fs.events.all fun e => !e.strands
  | _, _ => false

theorem no_dangling_removeA :
    ∃ u s, runSteps step (boot 200 mkfsDisk) enterA = some u ∧
      runSteps step (boot 200 mkfsDisk) removeA = some s ∧ s.panic = none ∧
      NoDangling s.fs.disk ∧ SameParents u.fs.core s.fs.core ∧
      (s.fs.disk 2).type = .dir ∧ ⟨1, dotdot⟩ ∈ (s.fs.disk 2).ents := by
  have hcheck : cleanRun = true := by decide +kernel
  unfold cleanRun at hcheck
  split at hcheck
  · rename_i u s hbefore hrun
    simp only [Bool.and_eq_true, decide_eq_true_eq, List.all_eq_true] at hcheck
    obtain ⟨⟨⟨⟨hdir, hmem⟩, hpanic⟩, hevents⟩, hclean⟩ := hcheck
    obtain ⟨-, hnames, hparents⟩ := no_dangling wellFormedImage_mkfsDisk hrun fun e he => by
      simpa using hclean e he
    have hsame := hparents enterA _ u rfl hbefore hpanic
    refine ⟨u, s, hbefore, hrun, hpanic, hnames hpanic, hsame, ?_⟩
    obtain ⟨new, hnew, hkeep⟩ := hsame
    have hnil : new = [] := List.append_left_eq_self.1 (hnew.symm.trans hevents)
    rcases hkeep 2 1 hdir hmem (by decide) with ⟨parent, hfreed⟩ | ⟨hdir, hmem, -⟩
    · rw [hnil] at hfreed
      cases hfreed
    · exact ⟨hdir, hmem⟩
  · cases hcheck

end Xv6.Fs
