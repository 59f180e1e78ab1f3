import Xv6.Lib.Tally
import Xv6.Fs.Acts

set_option autoImplicit false

/-! # The entries of a directory

A directory begins with `.` and `..` and goes on with its names; entering a name and taking one away
only change what follows the first two. The names of all directories are counted by the inode that
they name. -/

namespace Xv6.Fs

open Xv6.Lib

/-- The entries of directory `i`: `.`, then `..`, which names `parent`, then its names. -/
structure Listing (i : Nat) (ents : List Dirent) (parent : Nat) (rest : List Dirent) : Prop where
  eq : ents = ⟨i, dot⟩ :: ⟨parent, dotdot⟩ :: rest
  self : i ≠ 0
  parent : parent ≠ 0
  names : ∀ e ∈ rest, e.inum ≠ 0 → e.name ≠ dot ∧ e.name ≠ dotdot

/-- The entries with a name other than `.` and `..`. -/
def namesOf (d : Dinode) : List Dirent := if d.type = .dir then d.ents.drop 2 else []

/-- Whether an entry names `i`. -/
def namesInode (i : Nat) (e : Dirent) : Bool := decide (e.inum = i)

/-- The names of `i` in all directories. -/
def links (c : Core) (i : Nat) : Nat :=
  tally c.ninodes (fun d => namesOf (c.disk d)) (namesInode i)

variable {i parent : Nat} {ents rest : List Dirent} {name : Name}

theorem Listing.drop (h : Listing i ents parent rest) : ents.drop 2 = rest := by
  rw [h.eq]
  rfl

theorem Listing.unique {parent' : Nat} {rest' : List Dirent} (h : Listing i ents parent rest)
    (h' : Listing i ents parent' rest') : parent = parent' ∧ rest = rest' := by
  have heq := h.eq.symm.trans h'.eq
  simp only [List.cons.injEq, Dirent.mk.injEq, and_true, true_and] at heq
  exact heq

theorem Listing.names_eq (h : Listing i ents parent rest) {d : Dinode} (hd : d.type = .dir)
    (hents : d.ents = ents) : namesOf d = rest := by
  rw [namesOf, if_pos hd, hents, h.drop]

/-- Entry `.`, entry `..`, or one of the names. -/
theorem Listing.mem (h : Listing i ents parent rest) {e : Dirent} :
    e ∈ ents ↔ e = ⟨i, dot⟩ ∨ e = ⟨parent, dotdot⟩ ∨ e ∈ rest := by
  rw [h.eq, List.mem_cons, List.mem_cons]

theorem dot_ne_dotdot : dot ≠ dotdot := by decide

theorem Listing.dotdot_inum (h : Listing i ents parent rest) {e : Dirent} (he : e ∈ ents)
    (hname : e.name = dotdot) (hlive : e.inum ≠ 0) : e.inum = parent := by
  rcases h.mem.1 he with rfl | rfl | he
  · exact absurd hname dot_ne_dotdot
  · rfl
  · exact absurd hname (h.names e he hlive).2

/-! ## Entering a name -/

theorem Listing.emptyEntry (h : Listing i ents parent rest) :
    emptyEntry ents = emptyEntry rest + 2 := by
  rw [h.eq]
  simp [Fs.emptyEntry, List.findIdx_cons, h.self, h.parent]

theorem Listing.putEntry (h : Listing i ents parent rest) (k : Nat) (de : Dirent) :
    putEntry ents (k + 2) de = ⟨i, dot⟩ :: ⟨parent, dotdot⟩ :: putEntry rest k de := by
  rw [h.eq]
  unfold Fs.putEntry
  by_cases hk : k < rest.length
  · rw [if_pos hk, if_pos (by simp only [List.length_cons]; omega)]
    rfl
  · rw [if_neg hk, if_neg (by simp only [List.length_cons]; omega)]
    rfl

/-- A name that is not there is neither `.` nor `..`. -/
theorem Listing.name_of_none (h : Listing i ents parent rest) (hnone : findEntry ents name = none) :
    name ≠ dot ∧ name ≠ dotdot := by
  constructor
  · rintro rfl
    exact findEntry_none hnone (h.mem.2 (Or.inl rfl)) h.self rfl
  · rintro rfl
    exact findEntry_none hnone (h.mem.2 (Or.inr (Or.inl rfl))) h.parent rfl

/-- The entry that is written over is empty. -/
theorem emptyEntry_inum {e : Dirent} (h : rest[emptyEntry rest]? = some e) : e.inum = 0 := by
  obtain ⟨hlt, rfl⟩ := List.getElem?_eq_some_iff.1 h
  exact of_decide_eq_true (p := rest[emptyEntry rest].inum = 0) (List.findIdx_getElem (w := hlt))

theorem mem_putEntry_empty {de e : Dirent} (h : e ∈ putEntry rest (emptyEntry rest) de) :
    e = de ∨ e ∈ rest := by
  unfold putEntry at h
  split at h
  · exact (List.mem_or_eq_of_mem_set h).symm
  · rcases List.mem_append.1 h with h | h
    · exact Or.inr h
    · exact Or.inl (List.mem_singleton.1 h)

theorem mem_putEntry_self (de : Dirent) : de ∈ putEntry rest (emptyEntry rest) de := by
  unfold putEntry
  split
  · rename_i hlt
    exact List.mem_set hlt de
  · simp

/-- Only the entry at `off` is lost. -/
theorem mem_putEntry {off : Nat} {de e : Dirent} (he : e ∈ rest) (hoff : rest[off]? ≠ some e) :
    e ∈ putEntry rest off de := by
  unfold putEntry
  split
  · obtain ⟨k, hk⟩ := List.mem_iff_getElem?.1 he
    have hne : off ≠ k := fun h => hoff (h ▸ hk)
    exact List.mem_iff_getElem?.2 ⟨k, by rw [List.getElem?_set_ne hne, hk]⟩
  · exact List.mem_append_left _ he

theorem mem_putEntry_of_live {de e : Dirent} (he : e ∈ rest) (hlive : e.inum ≠ 0) :
    e ∈ putEntry rest (emptyEntry rest) de :=
  mem_putEntry he fun hget => hlive (emptyEntry_inum hget)

/-- Entering a name adds one entry, as far as live entries are counted. -/
theorem countP_putEntry_empty {p : Dirent → Bool} (hp : ∀ e : Dirent, e.inum = 0 → p e = false)
    (de : Dirent) : (putEntry rest (emptyEntry rest) de).countP p =
      rest.countP p + (if p de then 1 else 0) := by
  unfold putEntry
  split
  · rename_i hlt
    have hget := List.getElem?_eq_getElem hlt
    have := countP_set_add (p := p) (a := de) hget
    rw [hp _ (emptyEntry_inum hget)] at this
    simpa using this
  · simp [List.countP_append, List.countP_cons]

theorem Listing.enter (h : Listing i ents parent rest) {de : Dirent} (hdot : de.name ≠ dot)
    (hdotdot : de.name ≠ dotdot) : Listing i (Fs.putEntry ents (Fs.emptyEntry ents) de) parent
      (Fs.putEntry rest (Fs.emptyEntry rest) de) := by
  refine ⟨?_, h.self, h.parent, fun e he hlive => ?_⟩
  · rw [h.emptyEntry, h.putEntry]
  · rcases mem_putEntry_empty he with rfl | he
    · exact ⟨hdot, hdotdot⟩
    · exact h.names e he hlive

/-! ## Taking a name away -/

/-- A name other than `.` and `..` is found among the rest. -/
theorem Listing.find (h : Listing i ents parent rest) {off : Nat}
    (hfind : findEntry ents name = some off) (hdot : name ≠ dot) (hdotdot : name ≠ dotdot) :
    ∃ k, off = k + 2 ∧ k < rest.length ∧ rest[k]? = some (ents.getD off ⟨0, []⟩) := by
  obtain ⟨hlt, -, hget, -, hname⟩ := findEntry_some hfind
  rw [h.eq] at hlt hget hname
  match off with
  | 0 => exact absurd hname.symm hdot
  | 1 => exact absurd hname.symm hdotdot
  | k + 2 =>
      refine ⟨k, rfl, by simpa using hlt, ?_⟩
      rw [h.eq]
      simpa using hget

theorem Listing.remove (h : Listing i ents parent rest) {k : Nat} (hk : k < rest.length) :
    Listing i (Fs.putEntry ents (k + 2) ⟨0, []⟩) parent (rest.set k ⟨0, []⟩) := by
  refine ⟨?_, h.self, h.parent, fun e he hlive => ?_⟩
  · rw [h.putEntry, Fs.putEntry, if_pos hk]
  · rcases List.mem_or_eq_of_mem_set he with he | rfl
    · exact h.names e he hlive
    · exact absurd rfl hlive

theorem mem_of_mem_remove {k : Nat} {e : Dirent} (he : e ∈ rest.set k ⟨0, []⟩) (hlive : e.inum ≠ 0) :
    e ∈ rest := by
  rcases List.mem_or_eq_of_mem_set he with he | rfl
  · exact he
  · exact absurd rfl hlive

/-- Taking a name away takes one entry away, as far as live entries are counted. -/
theorem countP_remove {p : Dirent → Bool} (hp : ∀ e : Dirent, e.inum = 0 → p e = false) {k : Nat}
    {e : Dirent} (hget : rest[k]? = some e) :
    (rest.set k ⟨0, []⟩).countP p + (if p e then 1 else 0) = rest.countP p := by
  have := countP_set_add (p := p) (a := (⟨0, []⟩ : Dirent)) hget
  rw [hp ⟨0, []⟩ rfl] at this
  simpa using this

theorem namesInode_empty (hi : i ≠ 0) (e : Dirent) (he : e.inum = 0) : namesInode i e = false := by
  simp [namesInode, he, Ne.symm hi]

/-! ## Counting names -/

variable {c : Core} {d : Nat} {v : Dinode}

theorem tally_setDisk (g : Dinode → List Dirent) (hd : d < c.ninodes) (v : Dinode)
    (p : Dirent → Bool) :
    tally c.ninodes (fun j => g ((c.setDisk d v).disk j)) p + (g (c.disk d)).countP p =
      tally c.ninodes (fun j => g (c.disk j)) p + (g v).countP p := by
  have hupdate : (fun j => g ((c.setDisk d v).disk j)) =
      Function.update (fun j => g (c.disk j)) d (g v) := by
    funext j
    by_cases hj : j = d
    · subst hj
      rw [Core.setDisk_self, Function.update_self]
    · rw [Core.setDisk_of_ne _ _ hj, Function.update_of_ne hj]
  rw [hupdate]
  exact tally_update _ _ _ hd

theorem links_setDisk (hd : d < c.ninodes) (v : Dinode) (x : Nat) :
    links (c.setDisk d v) x + (namesOf (c.disk d)).countP (namesInode x) =
      links c x + (namesOf v).countP (namesInode x) := tally_setDisk namesOf hd v _

theorem links_setDisk_le (hv : namesOf v = []) (d x : Nat) :
    links (c.setDisk d v) x ≤ links c x := by
  refine tally_le fun j _ => ?_
  by_cases hj : j = d
  · rw [hj, Core.setDisk_self, hv]
    exact Nat.zero_le _
  · rw [Core.setDisk_of_ne _ _ hj]

theorem links_congr {c' : Core} (hn : c'.ninodes = c.ninodes)
    (h : ∀ j, namesOf (c'.disk j) = namesOf (c.disk j)) (x : Nat) : links c' x = links c x := by
  unfold links
  rw [hn]
  exact tally_congr fun j _ => by rw [h]

theorem links_pos (hd : d < c.ninodes) {e : Dirent} (he : e ∈ namesOf (c.disk d)) :
    0 < links c e.inum :=
  tally_pos hd he (by simp [namesInode])

/-! ## The form of the directories -/

/-- Every directory begins with `.` and `..`, and its names name allocated inodes. -/
structure Form (c : Core) : Prop where
  size : c.ninodes ≤ 2 ^ 16
  range : ∀ i, (c.disk i).type ≠ .free → 0 < i ∧ i < c.ninodes
  root : (c.disk ROOTINO).type = .dir
  listing : ∀ i, (c.disk i).type = .dir → ∃ parent rest, Listing i (c.disk i).ents parent rest
  names : ∀ i, ∀ e ∈ namesOf (c.disk i), e.inum ≠ 0 → (c.disk e.inum).type ≠ .free

variable {c' : Core} {inum dp : Nat}

theorem Form.lt_pow (h : Form c) (halloc : (c.disk i).type ≠ .free) : i < 2 ^ 16 :=
  Nat.lt_of_lt_of_le (h.range i halloc).2 h.size

theorem Form.ne_zero (h : Form c) (halloc : (c.disk i).type ≠ .free) : i ≠ 0 :=
  Nat.pos_iff_ne_zero.1 (h.range i halloc).1

theorem Form.lt_of_dir (h : Form c) (hdir : (c.disk i).type = .dir) : i < c.ninodes :=
  (h.range i (by rw [hdir]; simp)).2

theorem namesOf_of_ne {d : Dinode} (h : d.type ≠ .dir) : namesOf d = [] := by
  rw [namesOf, if_neg h]

theorem dir_of_mem_namesOf {d : Dinode} {e : Dirent} (he : e ∈ namesOf d) : d.type = .dir := by
  by_contra hne
  rw [namesOf_of_ne hne] at he
  simp at he

theorem namesOf_congr (htype : (c'.disk i).type = (c.disk i).type)
    (hents : (c.disk i).type = .dir → (c'.disk i).ents = (c.disk i).ents) :
    namesOf (c'.disk i) = namesOf (c.disk i) := by
  unfold namesOf
  by_cases hi : (c.disk i).type = .dir
  · rw [htype, hents hi]
  · rw [htype, if_neg hi, if_neg hi]

/-- A free inode has no names. -/
theorem Form.links_free (h : Form c) (hfree : (c.disk inum).type = .free) (hpos : inum ≠ 0) :
    links c inum = 0 := by
  by_contra hne
  obtain ⟨d, -, e, he, hei⟩ := exists_of_tally_pos (Nat.pos_of_ne_zero hne)
  obtain rfl : e.inum = inum := by simpa [namesInode] using hei
  exact h.names d e he hpos hfree

theorem Form.note (h : Form c) (e : Event) : Form (c.note e) :=
  ⟨h.size, h.range, h.root, h.listing, h.names⟩

/-- Only types and the entries of directories matter. -/
theorem Form.congr (h : Form c) (hn : c'.ninodes = c.ninodes)
    (htype : ∀ i, (c'.disk i).type = (c.disk i).type)
    (hents : ∀ i, (c.disk i).type = .dir → (c'.disk i).ents = (c.disk i).ents) : Form c' := by
  refine ⟨hn ▸ h.size, fun i hi => ?_, ?_, fun i hi => ?_, fun i e he hlive => ?_⟩
  · rw [hn]
    exact h.range i (htype i ▸ hi)
  · rw [htype]
    exact h.root
  · rw [htype] at hi
    rw [hents i hi]
    exact h.listing i hi
  · rw [htype]
    refine h.names i e ?_ hlive
    rw [namesOf_congr (htype i) (hents i)] at he
    exact he

/-- An inode without names becomes free. -/
theorem Form.clear (h : Form c) {v : Dinode} (hv : v.type = .free) (hroot : inum ≠ ROOTINO)
    (hnames : ∀ i, ∀ e ∈ namesOf (c.disk i), e.inum ≠ 0 → e.inum ≠ inum) :
    Form (c.setDisk inum v) := by
  have hself : (c.setDisk inum v).disk inum = v := Core.setDisk_self ..
  have hother : ∀ i, i ≠ inum → (c.setDisk inum v).disk i = c.disk i :=
    fun i hi => Core.setDisk_of_ne _ _ hi
  have hne : ∀ i, ((c.setDisk inum v).disk i).type ≠ .free → i ≠ inum := by
    rintro i hi rfl
    rw [hself] at hi
    exact hi hv
  refine ⟨h.size, fun i hi => ?_, ?_, fun i hi => ?_, fun i e he hlive => ?_⟩
  · rw [hother i (hne i hi)] at hi
    exact h.range i hi
  · rw [hother _ (Ne.symm hroot)]
    exact h.root
  · have hi' := hne i (by rw [hi]; simp)
    rw [hother i hi'] at hi ⊢
    exact h.listing i hi
  · have hi' := hne i (by rw [dir_of_mem_namesOf he]; simp)
    rw [hother i hi'] at he
    rw [hother _ (hnames i e he hlive)]
    exact h.names i e he hlive

/-- Directory `dp` now has the names `rest` instead of `old`, and nothing else has changed. -/
structure Relisted (c c' : Core) (dp : Nat) (old rest : List Dirent) : Prop where
  ninodes : c'.ninodes = c.ninodes
  type : ∀ i, (c'.disk i).type = (c.disk i).type
  nlink : ∀ i, (c'.disk i).nlink = (c.disk i).nlink
  other : ∀ i, i ≠ dp → c'.disk i = c.disk i
  old : namesOf (c.disk dp) = old
  new : namesOf (c'.disk dp) = rest
  /-- The first two entries of each directory are the same. -/
  listing : ∀ i parent rest, (c.disk i).type = .dir → Listing i (c'.disk i).ents parent rest →
    ∃ rest', Listing i (c.disk i).ents parent rest'
  listing' : ∀ i, (c.disk i).type = .dir → ∃ parent rest, Listing i (c'.disk i).ents parent rest

theorem Form.relist (h : Form c) (hdir : (c.disk dp).type = .dir) {ents : List Dirent}
    {parent : Nat} {old rest : List Dirent} (hold : Listing dp (c.disk dp).ents parent old)
    (hnew : Listing dp ents parent rest) : Relisted c (c.setEnts dp ents) dp old rest := by
  have hself : ((c.setEnts dp ents).disk dp).ents = ents := by
    rw [Core.setEnts, Core.setDisk_self]
  have hother : ∀ i, i ≠ dp → (c.setEnts dp ents).disk i = c.disk i :=
    fun i hi => Core.setDisk_of_ne _ _ hi
  refine ⟨rfl, fun i => Core.setEnts_type .., fun i => Core.setEnts_nlink .., hother,
    hold.names_eq hdir rfl, hnew.names_eq ?_ hself, fun i parent' rest' hi hl => ?_, fun i hi => ?_⟩
  · rw [Core.setEnts_type, hdir]
  · by_cases hidp : i = dp
    · rw [hidp, hself] at hl
      rw [hidp, (hl.unique hnew).1]
      exact ⟨old, hold⟩
    · rw [hother i hidp] at hl
      exact ⟨rest', hl⟩
  · by_cases hidp : i = dp
    · rw [hidp, hself]
      exact ⟨parent, rest, hnew⟩
    · rw [hother i hidp]
      exact h.listing i hi

theorem Relisted.form {old : List Dirent} (hr : Relisted c c' dp old rest) (h : Form c)
    (hnames : ∀ e ∈ rest, e.inum ≠ 0 → (c.disk e.inum).type ≠ .free) : Form c' := by
  refine ⟨hr.ninodes ▸ h.size, fun i hi => ?_, ?_, fun i hi => ?_, fun i e he hlive => ?_⟩
  · rw [hr.ninodes]
    exact h.range i (hr.type i ▸ hi)
  · rw [hr.type]
    exact h.root
  · exact hr.listing' i (hr.type i ▸ hi)
  · rw [hr.type]
    by_cases hidp : i = dp
    · rw [hidp, hr.new] at he
      exact hnames e he hlive
    · rw [hr.other i hidp] at he
      exact h.names i e he hlive

theorem Relisted.links {old : List Dirent} (hr : Relisted c c' dp old rest) (hlt : dp < c.ninodes)
    (x : Nat) :
    Fs.links c' x + old.countP (namesInode x) = Fs.links c x + rest.countP (namesInode x) := by
  have hset := links_setDisk hlt (c'.disk dp) x
  have hsame : ∀ j, namesOf ((c.setDisk dp (c'.disk dp)).disk j) = namesOf (c'.disk j) := by
    intro j
    by_cases hj : j = dp
    · rw [hj, Core.setDisk_self]
    · rw [Core.setDisk_of_ne _ _ hj, hr.other j hj]
  have heq : Fs.links (c.setDisk dp (c'.disk dp)) x = Fs.links c' x := by
    apply links_congr
    · exact hr.ninodes.symm
    · exact hsame
  rw [heq, hr.old, hr.new] at hset
  exact hset

/-- Entering a name of `inum` in `dp`. -/
theorem Form.enter (h : Form c) (hdir : (c.disk dp).type = .dir)
    (halloc : (c.disk inum).type ≠ .free) (hnone : findEntry (c.disk dp).ents name = none) :
    Form (c.enter dp name inum) ∧
      (∀ x, x ≠ 0 → links (c.enter dp name inum) x = links c x + (if x = inum then 1 else 0)) ∧
      ∃ rest, Relisted c (c.enter dp name inum) dp rest
        (putEntry rest (emptyEntry rest) ⟨inum, name⟩) := by
  obtain ⟨parent, rest, hl⟩ := h.listing dp hdir
  obtain ⟨hdot, hdotdot⟩ := hl.name_of_none hnone
  have hr : Relisted c (c.enter dp name inum) dp rest
      (Fs.putEntry rest (Fs.emptyEntry rest) ⟨inum, name⟩) := by
    rw [Core.enter, Nat.mod_eq_of_lt (h.lt_pow halloc)]
    exact h.relist hdir hl (hl.enter hdot hdotdot)
  refine ⟨hr.form h fun e he hlive => ?_, fun x hx => ?_, rest, hr⟩
  · rcases mem_putEntry_empty he with rfl | he
    · exact halloc
    · exact h.names dp e (hr.old ▸ he) hlive
  · have hset := hr.links (h.lt_of_dir hdir) x
    rw [countP_putEntry_empty (namesInode_empty hx)] at hset
    have hde : namesInode x ⟨inum, name⟩ = decide (x = inum) := by simp [namesInode, eq_comm]
    rw [hde] at hset
    simp only [decide_eq_true_eq] at hset
    omega

/-- Taking a name of `inum` away from `dp`. -/
theorem Form.remove (h : Form c) (hdir : (c.disk dp).type = .dir) {off : Nat}
    (hfind : findEntry (c.disk dp).ents name = some off) (hdot : name ≠ dot)
    (hdotdot : name ≠ dotdot) (hinum : ((c.disk dp).ents.getD off ⟨0, []⟩).inum = inum) :
    Form (c.setEnts dp (putEntry (c.disk dp).ents off ⟨0, []⟩)) ∧
      (∀ x, x ≠ 0 → links (c.setEnts dp (putEntry (c.disk dp).ents off ⟨0, []⟩)) x +
        (if x = inum then 1 else 0) = links c x) ∧
      ∃ rest k de, rest[k]? = some de ∧ de.inum = inum ∧ inum ≠ 0 ∧
        Relisted c (c.setEnts dp (putEntry (c.disk dp).ents off ⟨0, []⟩)) dp rest
          (rest.set k ⟨0, []⟩) := by
  obtain ⟨parent, rest, hl⟩ := h.listing dp hdir
  obtain ⟨k, rfl, hk, hget⟩ := hl.find hfind hdot hdotdot
  have hlive := (findEntry_some hfind).2.2.2.1
  rw [hinum] at hlive
  generalize hde : (c.disk dp).ents.getD (k + 2) ⟨0, []⟩ = de at hget hinum
  have hr := h.relist hdir hl (hl.remove hk)
  refine ⟨hr.form h fun e he hlive' => ?_, fun x hx => ?_, rest, k, de, hget, hinum, hlive, hr⟩
  · exact h.names dp e (hr.old ▸ mem_of_mem_remove he hlive') hlive'
  · have hset := hr.links (h.lt_of_dir hdir) x
    have hcount := countP_remove (namesInode_empty hx) hget
    have hde : namesInode x de = decide (x = inum) := by simp [namesInode, hinum, eq_comm]
    rw [hde] at hcount
    simp only [decide_eq_true_eq] at hcount
    omega

/-- The new inode, before its name is entered. -/
theorem Form.new (h : Form c) (hfree : (c.disk inum).type = .free) (hpos : 0 < inum)
    (hlt : inum < c.ninodes) (type : FileType) (hdir : (c.disk dp).type = .dir)
    (major minor : BitVec 16) :
    Form (c.setDisk inum (newInode inum dp type major minor)) ∧
      (∀ x, links (c.setDisk inum (newInode inum dp type major minor)) x = links c x) ∧
      namesOf (newInode inum dp type major minor) = [] ∧
      (type = .dir → Listing inum (newInode inum dp type major minor).ents dp []) ∧
      ∀ i, ∀ e ∈ namesOf (c.disk i), e.inum ≠ 0 → e.inum ≠ inum := by
  have hmod : inum % 2 ^ 16 = inum := Nat.mod_eq_of_lt (Nat.lt_of_lt_of_le hlt h.size)
  have hmoddp : dp % 2 ^ 16 = dp := Nat.mod_eq_of_lt (h.lt_pow (by rw [hdir]; simp))
  generalize hv : newInode inum dp type major minor = v
  have hvtype : v.type = type := by
    subst hv
    rfl
  have hvents : type = .dir → Listing inum v.ents dp [] := by
    intro ht
    subst hv
    refine ⟨?_, by omega, h.ne_zero (by rw [hdir]; simp), by simp⟩
    rw [newInode, if_pos ht, hmod, hmoddp]
  have hvnames : namesOf v = [] := by
    by_cases ht : type = .dir
    · rw [(hvents ht).names_eq (hvtype.trans ht) rfl]
    · exact namesOf_of_ne (hvtype ▸ ht)
  have hself : (c.setDisk inum v).disk inum = v := Core.setDisk_self ..
  have hother : ∀ i, i ≠ inum → (c.setDisk inum v).disk i = c.disk i :=
    fun i hi => Core.setDisk_of_ne _ _ hi
  have hnot : ∀ i, ∀ e ∈ namesOf (c.disk i), e.inum ≠ 0 → e.inum ≠ inum := by
    intro i e he hlive heq
    exact h.names i e he hlive (by rw [heq]; exact hfree)
  refine ⟨⟨h.size, fun i hi => ?_, ?_, fun i hi => ?_, fun i e he hlive => ?_⟩, fun x => ?_, hvnames,
    hvents, hnot⟩
  · by_cases hinum : i = inum
    · subst hinum
      exact ⟨hpos, hlt⟩
    · rw [hother i hinum] at hi
      exact h.range i hi
  · rw [hother]
    · exact h.root
    · rintro rfl
      rw [h.root] at hfree
      cases hfree
  · by_cases hinum : i = inum
    · subst hinum
      rw [hself] at hi ⊢
      exact ⟨dp, [], hvents (hvtype ▸ hi)⟩
    · rw [hother i hinum] at hi ⊢
      exact h.listing i hi
  · by_cases hinum : i = inum
    · subst hinum
      rw [hself, hvnames] at he
      simp at he
    · rw [hother i hinum] at he
      rw [hother _ (hnot i e he hlive)]
      exact h.names i e he hlive
  · have hset := links_setDisk hlt v x
    rw [hvnames, namesOf_of_ne (d := c.disk inum) (by rw [hfree]; simp)] at hset
    simpa using hset

/-! ## An empty file system -/

/-- What `mkfs` makes: a root directory with `.` and `..`. -/
def mkfsDisk (i : Nat) : Dinode :=
  if i = ROOTINO then ⟨.dir, 0, 0, 1, [⟨ROOTINO, dot⟩, ⟨ROOTINO, dotdot⟩], []⟩
  else ⟨.free, 0, 0, 0, [], []⟩

theorem mkfsDisk_of_ne {i : Nat} (h : i ≠ ROOTINO) : mkfsDisk i = ⟨.free, 0, 0, 0, [], []⟩ := if_neg h

theorem namesOf_mkfsDisk (i : Nat) : namesOf (mkfsDisk i) = [] := by
  by_cases hi : i = ROOTINO
  · subst hi
    rfl
  · rw [mkfsDisk_of_ne hi]
    rfl

theorem links_mkfsDisk (n i : Nat) : links ⟨n, mkfsDisk, []⟩ i = 0 := by
  by_contra hne
  obtain ⟨d, -, e, he, -⟩ := exists_of_tally_pos (Nat.pos_of_ne_zero hne)
  rw [namesOf_mkfsDisk] at he
  simp at he

theorem listing_mkfsDisk : Listing ROOTINO (mkfsDisk ROOTINO).ents ROOTINO [] :=
  ⟨rfl, by decide, by decide, by simp⟩

theorem alloc_mkfsDisk (h : (mkfsDisk i).type ≠ .free) : i = ROOTINO := by
  by_contra hne
  rw [mkfsDisk_of_ne hne] at h
  exact h rfl

theorem dir_mkfsDisk (h : (mkfsDisk i).type = .dir) : i = ROOTINO :=
  alloc_mkfsDisk (by rw [h]; simp)

theorem form_mkfsDisk {n : Nat} (hpos : ROOTINO < n) (hsize : n ≤ 2 ^ 16) :
    Form ⟨n, mkfsDisk, []⟩ := by
  refine ⟨hsize, fun i hi => ?_, rfl, fun i hi => ?_, fun i e he _ => ?_⟩
  · rw [alloc_mkfsDisk hi]
    exact ⟨by decide, hpos⟩
  · rw [dir_mkfsDisk hi]
    exact ⟨_, _, listing_mkfsDisk⟩
  · rw [show namesOf (mkfsDisk i) = [] from namesOf_mkfsDisk i] at he
    simp at he

/-- A call of the first process, with blocks free. -/
def byInit (call : Call) : Label := ⟨initproc, call, [true, true, true, true]⟩

/-- `"/a"` -/
def pathA : Path := [slash, 97]

end Xv6.Fs
