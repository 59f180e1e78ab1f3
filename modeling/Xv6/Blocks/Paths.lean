import Xv6.Blocks.Refs

set_option autoImplicit false

/-! # Path names

A path is a list of names with slashes before, between and after them. `namex` looks one name up
after the other. -/

namespace Xv6.Blocks

open Xv6.Lib
open Xv6.Fs (NINODE NFILE NDEV ROOTINO DIRSIZ MAXFILE Ip)

/-! ## Components -/

/-- What is between the slashes. -/
def words (path : Path) : List (List Byte) := (path.splitOn slash).filter fun s => decide (s ≠ [])

/-- The names in a path, each cut to `DIRSIZ` bytes. -/
def components (path : Path) : List (List Byte) := (words path).map (List.take DIRSIZ)

@[simp] theorem words_nil : words [] = [] := rfl

theorem words_slash (path : Path) : words (slash :: path) = words path := by
  unfold words
  rw [List.splitOn_cons_eq_if_modifyHead, if_pos (beq_self_eq_true slash)]
  exact List.filter_cons_of_neg (by simp)

theorem words_skipSlashes (path : Path) : words (skipSlashes path) = words path := by
  induction path with
  | nil => rfl
  | cons c path ih =>
      rw [skipSlashes]
      by_cases h : c = slash
      · rw [if_pos h, ih, h, words_slash]
      · rw [if_neg h]

theorem splitOn_skipName (path : Path) : ∃ rest, path.splitOn slash = (skipName path).1 :: rest ∧
    rest.filter (fun s => decide (s ≠ [])) = words (skipName path).2 := by
  induction path with
  | nil => exact ⟨[], rfl, rfl⟩
  | cons c path ih =>
      rw [skipName, List.splitOn_cons_eq_if_modifyHead]
      by_cases h : c = slash
      · rw [if_pos h, if_pos (beq_iff_eq.2 h), h, words_slash]
        exact ⟨_, rfl, rfl⟩
      · obtain ⟨rest, hsplit, hrest⟩ := ih
        rw [if_neg h, if_neg fun hb => h (beq_iff_eq.1 hb), hsplit]
        exact ⟨rest, rfl, hrest⟩

theorem words_of_skipSlashes {path cs : Path} {c : Byte} (h : skipSlashes path = c :: cs) :
    words path = (skipName (c :: cs)).1 :: words (skipSlashes (skipName (c :: cs)).2) := by
  obtain ⟨rest, hsplit, hrest⟩ := splitOn_skipName (c :: cs)
  rw [words_skipSlashes, ← words_skipSlashes path, h, ← hrest]
  unfold words
  rw [hsplit]
  refine List.filter_cons_of_pos ?_
  rw [skipName, if_neg (head_skipSlashes h)]
  simp

theorem words_skipSlashes_eq_nil (path : Path) : skipSlashes path = [] ↔ words (skipSlashes path) = [] := by
  constructor
  · intro h
    rw [h, words_nil]
  · intro h
    cases hs : skipSlashes path with
    | nil => rfl
    | cons c cs =>
        rw [words_skipSlashes, words_of_skipSlashes hs] at h
        cases h

theorem skipSlashes_suffix (path : Path) : skipSlashes path <:+ path := by
  induction path with
  | nil => exact List.suffix_rfl
  | cons c path ih =>
      rw [skipSlashes]
      by_cases h : c = slash
      · rw [if_pos h]
        exact ih.trans (List.suffix_cons c path)
      · rw [if_neg h]

theorem skipName_append (path : Path) : (skipName path).1 ++ (skipName path).2 = path := by
  induction path with
  | nil => rfl
  | cons c path ih =>
      rw [skipName]
      by_cases h : c = slash
      · rw [if_pos h]
        rfl
      · rw [if_neg h]
        exact congrArg (List.cons c) ih

/-- `skipelem` cuts the first component off. -/
theorem skipelem_none {path : Path} {name : Buf} (h : skipelem path name = none) : components path = [] := by
  unfold skipelem at h
  cases hs : skipSlashes path with
  | nil =>
      unfold components
      rw [← words_skipSlashes, hs]
      rfl
  | cons c cs =>
      rw [hs] at h
      cases h

theorem skipelem_some {path rest : Path} {name name' : Buf} (h : skipelem path name = some (rest, name')) :
    ∃ s, name' = copyName name s ∧ (∀ c ∈ s, c ∈ path) ∧ components path = s.take DIRSIZ :: components rest ∧
      (∀ c ∈ rest, c ∈ path) ∧ (rest = [] ↔ components rest = []) := by
  unfold skipelem at h
  cases hs : skipSlashes path with
  | nil =>
      rw [hs] at h
      cases h
  | cons c cs =>
      rw [hs] at h
      cases h
      have hsub : ∀ d ∈ c :: cs, d ∈ path := fun d hd => (hs ▸ skipSlashes_suffix path).subset hd
      have happ := skipName_append (c :: cs)
      refine ⟨_, rfl, fun d hd => hsub d (happ ▸ List.mem_append_left _ hd), ?_, fun d hd => hsub d ?_, ?_⟩
      · unfold components
        rw [words_of_skipSlashes hs]
        rfl
      · exact happ ▸ List.mem_append_right _ ((skipSlashes_suffix _).subset hd)
      · unfold components
        rw [List.map_eq_nil_iff]
        exact words_skipSlashes_eq_nil _

/-- A name in the buffer is the component. -/
theorem dirKey_copyName {s : List Byte} (h : (0 : Byte) ∉ s) (name : Buf) : dirKey (copyName name s) = s.take DIRSIZ := by
  unfold dirKey copyName
  by_cases hlen : DIRSIZ ≤ s.length
  · rw [if_pos hlen]
    refine cstr_of_list h (fun k hk hks => ?_) fun hlt => absurd hlt (Nat.not_lt.2 hlen)
    rw [put, if_pos (Nat.zero_le k), Nat.sub_zero, List.getD_eq_getElem?_getD, List.getElem?_take_of_lt hk,
      List.getElem?_eq_getElem hks, Option.getD_some]
  · rw [if_neg hlen]
    refine cstr_of_list h (fun k hk hks => ?_) fun _ => Function.update_self ..
    rw [Function.update_of_ne (Nat.ne_of_lt hks), put, if_pos (Nat.zero_le k), Nat.sub_zero,
      List.getD_eq_getElem?_getD, List.getElem?_eq_getElem hks, Option.getD_some]

/-! ## The tree -/

/-- The inode that the directory `i` has under the name `e`. -/
def State.child (sb : Superblock) (s : State) (i : Nat) (e : List Byte) : Option Nat :=
  if (s.dinode sb i).type = T_DIR then (dirMap (s.content sb i) e).map BitVec.toNat else none

/-- Where the names lead from `i`. -/
def State.walk (sb : Superblock) (s : State) (i : Nat) (es : List (List Byte)) : Option Nat :=
  es.foldlM (s.child sb) i

/-- The directory that the last name is looked up in. -/
def State.parent (sb : Superblock) (s : State) (i : Nat) (es : List (List Byte)) : Option Nat :=
  if es = [] then none else (s.walk sb i es.dropLast).filter fun j => decide ((s.dinode sb j).type = T_DIR)

/-- Directories have whole entries with distinct names, and name inodes that are allocated and have links.
    Nobody holds a lock. -/
structure Walkable (sb : Superblock) (s : State) : Prop where
  wf : s.Wf sb
  unlocked : ∀ ip, (s.itable ip).locked = false
  size : ∀ i, sb.Inum i → (s.dinode sb i).type = T_DIR → DIRENT ∣ (s.content sb i).length
  distinct : ∀ i, sb.Inum i → (s.dinode sb i).type = T_DIR →
    Distinct (dirSlot (s.content sb i)) ((s.content sb i).length / DIRENT)
  child : ∀ i e j, Anchored sb s i → s.child sb i e = some j → Anchored sb s j
  root : Anchored sb s ROOTINO
  cwd : 0 < (s.itable s.cwd).ref ∧ Anchored sb s (s.itable s.cwd).inum

variable {sb : Superblock} {s t u : State} {ip jp : Ip} {i j : Nat} {es : List (List Byte)} {e : List Byte}

theorem walk_cons : s.walk sb i (e :: es) = (s.child sb i e).bind fun j => s.walk sb j es := by
  unfold State.walk
  rw [List.foldlM_cons]
  rfl

theorem parent_cons : s.parent sb i (e :: es) =
    if (s.dinode sb i).type = T_DIR then
      if es = [] then some i else (s.child sb i e).bind fun j => s.parent sb j es
    else none := by
  unfold State.parent
  rw [if_neg (List.cons_ne_nil _ _)]
  by_cases hes : es = []
  · rw [if_pos hes, hes]
    show Option.filter _ (some i) = _
    by_cases h : (s.dinode sb i).type = T_DIR
    · rw [if_pos h]
      simp [h]
    · rw [if_neg h]
      simp [h]
  · rw [if_neg hes, List.dropLast_cons_of_ne_nil hes, walk_cons]
    by_cases h : (s.dinode sb i).type = T_DIR
    · rw [if_pos h]
      cases hc : s.child sb i e with
      | none => rfl
      | some j =>
          rw [Option.bind_some, Option.bind_some, if_neg hes]
    · rw [if_neg h]
      unfold State.child
      rw [if_neg h]
      rfl

/-- What `namex` looks for. -/
def State.resolve (sb : Superblock) (s : State) (nameiparent : Bool) (i : Nat) (es : List (List Byte)) : Option Nat :=
  if nameiparent then s.parent sb i es else s.walk sb i es

theorem resolve_cons {nip : Bool} : s.resolve sb nip i (e :: es) =
    if (s.dinode sb i).type = T_DIR then
      if nip = true ∧ es = [] then some i else (s.child sb i e).bind fun j => s.resolve sb nip j es
    else none := by
  unfold State.resolve
  cases nip with
  | true =>
      simp only [if_true, true_and]
      exact parent_cons
  | false =>
      simp only [Bool.false_eq_true, if_false, false_and]
      rw [walk_cons]
      by_cases h : (s.dinode sb i).type = T_DIR
      · rw [if_pos h]
      · rw [if_neg h]
        unfold State.child
        rw [if_neg h]
        rfl

/-- `namex` has returned `r`, and holds a reference to that inode and no other. -/
structure Reached (sb : Superblock) (s : State) (goal : Option Nat) (r : Option Ip) (t : State) : Prop where
  held : Borrowed sb goal.toList none s t
  found : r.isSome = goal.isSome
  names : ∀ ip i, r = some ip → goal = some i → t.Names ip i

/-! ## Room in the inode table -/

/-- The inodes that are in the table. -/
def State.inodes (s : State) : Finset Nat :=
  (Finset.univ.filter fun ip => 0 < (s.itable ip).ref).image fun ip => (s.itable ip).inum

/-- While there are the references `held` as well, inode `j` is not in the table and no entry is free. -/
def NoRoom (s : State) (held : List Nat) (j : Nat) : Prop :=
  j ∉ s.inodes ∪ held.toFinset ∧ (s.inodes ∪ held.toFinset).card = NINODE

instance (s : State) (held : List Nat) (j : Nat) : Decidable (NoRoom s held j) :=
  inferInstanceAs (Decidable (_ ∧ _))

/-- The names lead to an inode that there is no room for, while the directory before it is held. -/
def NoRoomOn (sb : Superblock) (s : State) (i : Nat) (es : List (List Byte)) : Prop :=
  ∃ es' e k j, es' ++ [e] <+: es ∧ s.walk sb i es' = some k ∧ s.child sb k e = some j ∧ NoRoom s [k] j

theorem State.exists_names (h : 0 < s.refs i) : ∃ ip, s.Names ip i := by
  unfold State.refs at h
  obtain ⟨ip, -, hne⟩ := Finset.exists_ne_zero_of_sum_ne_zero (Nat.ne_of_gt h)
  unfold Inode.refs at hne
  by_cases hn : (s.itable ip).inum = i
  · rw [if_pos hn] at hne
    exact ⟨ip, Nat.pos_of_ne_zero hne, hn⟩
  · exact absurd (if_neg hn) hne

theorem mem_inodes (hs : s.Wf sb) : j ∈ s.inodes ↔ 0 < s.refs j := by
  unfold State.inodes
  rw [Finset.mem_image]
  constructor
  · rintro ⟨ip, hip, rfl⟩
    have hn : s.Names ip (s.itable ip).inum := ⟨(Finset.mem_filter.1 hip).2, rfl⟩
    rw [hn.refs hs]
    exact hn.1
  · intro h
    obtain ⟨ip, hr, hn⟩ := State.exists_names h
    exact ⟨ip, Finset.mem_filter.2 ⟨Finset.mem_univ ip, hr⟩, hn⟩

/-- An inode has one entry. -/
theorem card_inodes (hs : s.Wf sb) :
    s.inodes.card = (Finset.univ.filter fun ip => 0 < (s.itable ip).ref).card :=
  Finset.card_image_of_injOn fun ip hip jp hjp hn =>
    hs.uniq ip jp (Finset.mem_filter.1 hip).2 (Finset.mem_filter.1 hjp).2 hn

theorem tableFull_iff (hs : s.Wf sb) : TableFull s j ↔ j ∉ s.inodes ∧ s.inodes.card = NINODE := by
  constructor
  · intro h
    refine ⟨fun hj => ?_, ?_⟩
    · obtain ⟨ip, -, hn⟩ := Finset.mem_image.1 hj
      exact (h ip).2 hn
    · rw [card_inodes hs, Finset.filter_true_of_mem fun ip _ => (h ip).1, Finset.card_univ, Fintype.card_fin]
  · rintro ⟨hj, hcard⟩ ip
    rw [card_inodes hs] at hcard
    have huniv : (Finset.univ.filter fun ip => 0 < (s.itable ip).ref) = Finset.univ :=
      (Finset.card_eq_iff_eq_univ _).1 (hcard.trans (Fintype.card_fin NINODE).symm)
    have hip : ip ∈ Finset.univ.filter fun ip => 0 < (s.itable ip).ref := by
      rw [huniv]
      exact Finset.mem_univ ip
    exact ⟨(Finset.mem_filter.1 hip).2, fun hn => hj (Finset.mem_image.2 ⟨ip, hip, hn⟩)⟩

/-- The table while some references are held. -/
theorem Borrowed.tableFull_iff {held : List Nat} {lock : Option Ip} (h : Borrowed sb held lock s t)
    (hs : s.Wf sb) : TableFull t j ↔ NoRoom s held j := by
  have hinodes : t.inodes = s.inodes ∪ held.toFinset := by
    ext k
    rw [mem_inodes h.wf, h.refs, Finset.mem_union, mem_inodes hs, List.mem_toFinset, ← List.count_pos_iff]
    omega
  rw [Blocks.tableFull_iff h.wf, hinodes]
  rfl

theorem Got.not_full (h : Got j ip s t) : ¬ TableFull s j := by
  intro hfull
  rcases h.entry with ⟨-, hn, -⟩ | ⟨h0, -⟩
  · exact (hfull ip).2 hn
  · exact absurd (hfull ip).1 (by rw [h0]; exact Nat.lt_irrefl 0)

theorem not_noRoom {held : List Nat} (h : s.inodes.card + held.length < NINODE) : ¬ NoRoom s held j := by
  rintro ⟨-, hcard⟩
  have hunion := Finset.card_union_le s.inodes held.toFinset
  have hheld := List.toFinset_card_le held
  omega

theorem not_noRoomOn (h : s.inodes.card + 1 < NINODE) : ¬ NoRoomOn sb s i es := by
  rintro ⟨-, -, k, j, -, -, -, hno⟩
  exact not_noRoom h hno

theorem noRoomOn_nil : ¬ NoRoomOn sb s i [] := by
  rintro ⟨es', e, -, -, hpre, -⟩
  exact absurd (List.prefix_nil.1 hpre) (by simp)

theorem noRoomOn_cons : NoRoomOn sb s i (e :: es) ↔
    ∃ j, s.child sb i e = some j ∧ (NoRoom s [i] j ∨ NoRoomOn sb s j es) := by
  constructor
  · rintro ⟨es', e', k, j, hpre, hwalk, hchild, hno⟩
    cases es' with
    | nil =>
        obtain ⟨rfl, -⟩ := List.cons_prefix_cons.1 hpre
        cases hwalk
        exact ⟨j, hchild, .inl hno⟩
    | cons a es' =>
        rw [List.cons_append, List.cons_prefix_cons] at hpre
        obtain ⟨rfl, hpre⟩ := hpre
        rw [walk_cons] at hwalk
        obtain ⟨i', hi', hwalk⟩ := Option.bind_eq_some_iff.1 hwalk
        exact ⟨i', hi', .inr ⟨es', e', k, j, hpre, hwalk, hchild, hno⟩⟩
  · rintro ⟨j, hchild, hno | ⟨es', e', k, j', hpre, hwalk, hchild', hno⟩⟩
    · exact ⟨[], e, i, j, List.cons_prefix_cons.2 ⟨rfl, List.nil_prefix⟩, rfl, hchild, hno⟩
    · refine ⟨e :: es', e', k, j', ?_, ?_, hchild', hno⟩
      · exact List.cons_prefix_cons.2 ⟨rfl, hpre⟩
      · rw [walk_cons, hchild]
        exact hwalk

/-- The names that `namex` looks up. -/
def looked (nameiparent : Bool) (es : List (List Byte)) : List (List Byte) :=
  if nameiparent then es.dropLast else es

theorem looked_nil (nip : Bool) : looked nip [] = [] := by cases nip <;> rfl

theorem looked_cons {nip : Bool} (h : ¬ (nip = true ∧ es = [])) : looked nip (e :: es) = e :: looked nip es := by
  cases nip with
  | true => exact List.dropLast_cons_of_ne_nil fun hes => h ⟨rfl, hes⟩
  | false => rfl

/-- Nothing is looked up in a directory that is none, or under a name that is not in it. -/
theorem not_noRoomOn_looked {nip : Bool} (h : s.child sb i e = none) :
    ¬ NoRoomOn sb s i (looked nip (e :: es)) := by
  by_cases hlast : nip = true ∧ es = []
  · rw [hlast.1, hlast.2]
    exact noRoomOn_nil
  · rw [looked_cons hlast, noRoomOn_cons, h]
    rintro ⟨j, hj, -⟩
    cases hj

/-! ## `namex` -/

/-- A directory that is locked can be read. -/
theorem Borrowed.dirOk {held : List Nat} {lock : Option Ip} (h : Borrowed sb held lock s t) (hs : Walkable sb s) (hn : t.Names ip i)
    (hcore : t.InCore ip) (hd : (t.itable ip).toDinode = s.dinode sb i) (hi : sb.Inum i)
    (htype : (s.dinode sb i).type = T_DIR) : DirOk sb ip t ∧ t.dir sb ip = s.content sb i := by
  have hdir : t.dir sb ip = s.content sb i := by
    unfold State.dir
    rw [hn.2, h.content]
  refine ⟨⟨⟨h.wf, hcore, ?_, ?_⟩, ?_⟩, hdir⟩
  · exact (congrArg Dinode.type hd).trans htype
  · rw [hdir]
    exact hs.size i hi htype
  · rw [hdir]
    exact hs.distinct i hi htype

theorem namexLoop_none {nip : Bool} {path : Path} {name : Buf} (h : skipelem path name = none) :
    namexLoop sb nip path ip name = (if nip then do
      iput sb ip
      pure (none, name)
    else pure (some ip, name)) := by
  rw [namexLoop]
  split
  · rfl
  · next hs =>
    rw [h] at hs
    cases hs

/-- `namex` once `dirlookup` has returned. -/
def namexNext (sb : Superblock) (nip : Bool) (path : Path) (ip : Ip) (name : Buf) :
    Option (Ip × Nat) → K (Option Ip × Buf)
  | none => do
    iunlockput sb ip
    pure (none, name)
  | some (next, _) => do
    iunlockput sb ip
    namexLoop sb nip path next name

theorem namexLoop_some {nip : Bool} {path rest : Path} {name name' : Buf} (h : skipelem path name = some (rest, name')) :
    namexLoop sb nip path ip name = (do
      ilock sb ip
      let s ← get
      if (s.itable ip).type ≠ T_DIR then do
        iunlockput sb ip
        pure (none, name')
      else if nip = true ∧ rest = [] then do
        iunlock ip
        pure (some ip, name')
      else do
        let r ← dirlookup sb ip name'
        namexNext sb nip rest ip name' r) := by
  rw [namexLoop]
  split
  · next hs =>
    rw [h] at hs
    cases hs
  · next hs =>
    rw [h] at hs
    cases hs
    rfl

/-- The path goes on behind a file. -/
theorem namexLoop_file {nip : Bool} {path rest : Path} {name name' : Buf} (h : skipelem path name = some (rest, name'))
    (hlock : ilock sb ip s = .ok (⟨⟩, t)) (htype : (t.itable ip).type ≠ T_DIR) :
    namexLoop sb nip path ip name s = (do
      iunlockput sb ip
      pure (none, name')) t := by
  rw [namexLoop_some h, bind_of_ok hlock]
  exact (bind_of_ok (a := t) (t := t) rfl).trans (congrFun (if_pos htype) t)

/-- `nameiparent` stops one level early. -/
theorem namexLoop_parent {nip : Bool} {path rest : Path} {name name' : Buf} (h : skipelem path name = some (rest, name'))
    (hlock : ilock sb ip s = .ok (⟨⟩, t)) (htype : (t.itable ip).type = T_DIR) (hlast : nip = true ∧ rest = []) :
    namexLoop sb nip path ip name s = (do
      iunlock ip
      pure (some ip, name')) t := by
  rw [namexLoop_some h, bind_of_ok hlock]
  refine (bind_of_ok (a := t) (t := t) rfl).trans ?_
  rw [if_neg (not_not.2 htype), if_pos hlast]

theorem namexLoop_next {nip : Bool} {path rest : Path} {name name' : Buf} (h : skipelem path name = some (rest, name'))
    (hlock : ilock sb ip s = .ok (⟨⟩, t)) (htype : (t.itable ip).type = T_DIR) (hlast : ¬ (nip = true ∧ rest = [])) :
    namexLoop sb nip path ip name s = (do
      let r ← dirlookup sb ip name'
      namexNext sb nip rest ip name' r) t := by
  rw [namexLoop_some h, bind_of_ok hlock]
  refine (bind_of_ok (a := t) (t := t) rfl).trans ?_
  rw [if_neg (not_not.2 htype), if_neg hlast]

/-- The loop of `namex` at inode `i`: it gives back the reference to `i`, and returns with one to the goal,
    unless it comes to an inode that there is no room for. -/
theorem namexLoop_spec (hsb : sb.Ordered) (hs : Walkable sb s) (nip : Bool) (path : Path) (hpath : (0 : Byte) ∉ path)
    (name : Buf) (hi : Anchored sb s i) (h : Borrowed sb [i] none s t) (hn : t.Names ip i) :
    ((∃ u, namexLoop sb nip path ip name t = .error (.iget, u)) ∧
        NoRoomOn sb s i (looked nip (components path))) ∨
      ¬ NoRoomOn sb s i (looked nip (components path)) ∧
        ∃ r name' u, namexLoop sb nip path ip name t = .ok ((r, name'), u) ∧
          Reached sb s (s.resolve sb nip i (components path)) r u ∧
          (nip = true → r ≠ none → some (dirKey name') = (components path).getLast?) := by
  induction hlen : path.length using Nat.strong_induction_on generalizing path name t ip i with
  | _ n ih =>
      subst hlen
      cases hskip : skipelem path name with
      | none =>
          rw [namexLoop_none hskip, skipelem_none hskip, looked_nil]
          refine .inr ⟨noRoomOn_nil, ?_⟩
          cases nip with
          | true =>
              obtain ⟨u, hput, hu, -⟩ := h.iput hn hi
              exact ⟨none, name, u, bind_of_ok hput, ⟨hu, rfl, fun _ _ hr => by cases hr⟩, fun _ hr => absurd rfl hr⟩
          | false =>
              refine ⟨some ip, name, t, rfl, ⟨h, rfl, fun jp j hr hj => ?_⟩, fun hf => by cases hf⟩
              cases hr
              cases hj
              exact hn
      | some p =>
          obtain ⟨rest, name'⟩ := p
          obtain ⟨e, rfl, hmem, hcomp, hsub, hend⟩ := skipelem_some hskip
          have hkey : dirKey (copyName name e) = e.take DIRSIZ := dirKey_copyName (fun h0 => hpath (hmem 0 h0)) name
          obtain ⟨t₁, hlock, h₁, hcore, hd, hnames⟩ := h.ilock hn hi
          have hn₁ := hnames ip i hn
          have htype : (t₁.itable ip).type = (s.dinode sb i).type := congrArg Dinode.type hd
          rw [hcomp, resolve_cons]
          by_cases hdir : (s.dinode sb i).type = T_DIR
          · rw [if_pos hdir]
            by_cases hlast : nip = true ∧ rest = []
            · -- the caller wants the directory
              obtain ⟨u, hunlock, hu, hnames'⟩ := h₁.iunlock hn₁
              rw [namexLoop_parent hskip hlock (htype.trans hdir) hlast, if_pos ⟨hlast.1, hend.1 hlast.2⟩, hlast.1,
                hend.1 hlast.2]
              refine .inr ⟨noRoomOn_nil, some ip, copyName name e, u, bind_of_ok hunlock,
                ⟨hu, rfl, fun jp j hr hj => ?_⟩, fun _ _ => ?_⟩
              · cases hr
                cases hj
                exact hnames' ip i hn₁
              · rw [hkey]
                rfl
            · have hmore : ¬ (nip = true ∧ components rest = []) := fun hc => hlast ⟨hc.1, hend.2 hc.2⟩
              rw [namexLoop_next hskip hlock (htype.trans hdir) hlast, if_neg hmore]
              obtain ⟨hdirok, hcont⟩ := h₁.dirOk hs hn₁ hcore hd hi.1 hdir
              have hchild : s.child sb i (e.take DIRSIZ) =
                  (dirMap (t₁.dir sb ip) (dirKey (copyName name e))).map BitVec.toNat := by
                unfold State.child
                rw [if_pos hdir, hcont, hkey]
              rcases dirlookup_spec hsb hdirok (copyName name e) with
                ⟨hpanic, n, hmap, hfull⟩ | ⟨hnone, hmap⟩ | ⟨inum, next, off, t₂, hok, hf, hgot, -, -⟩
              · rw [hmap] at hchild
                refine .inl ⟨⟨t₁, bind_of_error _ hpanic⟩, ?_⟩
                rw [looked_cons hmore, noRoomOn_cons]
                exact ⟨_, hchild, .inl ((h₁.tableFull_iff hs.wf).1 hfull)⟩
              · -- there is no such name
                obtain ⟨u, hput, hu, -⟩ := h₁.iunlockput hn₁ hi
                rw [hmap] at hchild
                rw [hchild]
                exact .inr ⟨not_noRoomOn_looked hchild, none, copyName name e, u,
                  (bind_of_ok hnone).trans (bind_of_ok hput),
                  ⟨hu, rfl, fun _ _ hr => by cases hr⟩, fun _ hr => absurd rfl hr⟩
              · have hchild : s.child sb i (e.take DIRSIZ) = some inum.toNat := by rw [hchild, hf.map]; rfl
                have h₂ := (h₁.got hgot).perm (List.Perm.swap i inum.toNat [])
                obtain ⟨t₃, hput, h₃, hkeep⟩ := h₂.iunlockput (hgot.keeps hn₁) hi
                have hn₃ := hkeep next inum.toNat hgot.names List.mem_cons_self
                have hroom : ¬ NoRoom s [i] inum.toNat := (h₁.tableFull_iff hs.wf).not.1 hgot.not_full
                have hno : NoRoomOn sb s i (looked nip (e.take DIRSIZ :: components rest)) ↔
                    NoRoomOn sb s inum.toNat (looked nip (components rest)) := by
                  rw [looked_cons hmore, noRoomOn_cons, hchild]
                  constructor
                  · rintro ⟨j, hj, hno⟩
                    cases hj
                    exact hno.resolve_left hroom
                  · exact fun hno => ⟨_, rfl, .inr hno⟩
                rw [bind_of_ok hok, hchild, Option.bind_some, hno]
                have hrun : namexNext sb nip rest ip (copyName name e) (some (next, DIRENT * off)) t₂ =
                    namexLoop sb nip rest next (copyName name e) t₃ := bind_of_ok hput
                rw [hrun]
                have hlt := length_skipelem hskip
                rcases ih rest.length hlt rest (fun h0 => hpath (hsub 0 h0)) (copyName name e)
                  (hs.child i _ _ hi hchild) h₃ hn₃ rfl with hpanic | ⟨hfits, r, name', u, hok', hreached, hname⟩
                · exact .inl hpanic
                · refine .inr ⟨hfits, r, name', u, hok', hreached, fun hnip hr => ?_⟩
                  rw [hname hnip hr, List.getLast?_cons_of_ne_nil fun h0 => hmore ⟨hnip, h0⟩]
          · -- a file in the middle of the path
            obtain ⟨u, hput, hu, -⟩ := h₁.iunlockput hn₁ hi
            have hchild : s.child sb i (e.take DIRSIZ) = none := if_neg hdir
            rw [namexLoop_file hskip hlock (by rw [htype]; exact hdir), if_neg hdir]
            exact .inr ⟨not_noRoomOn_looked hchild, none, copyName name e, u, bind_of_ok hput,
              ⟨hu, rfl, fun _ _ hr => by cases hr⟩, fun _ hr => absurd rfl hr⟩

/-- Where a path starts. -/
def State.start (s : State) (path : Path) : Nat :=
  if path.head? = some slash then ROOTINO else (s.itable s.cwd).inum

/-- There is no room for the root, where the path starts, or for an inode that its names `es` lead to. -/
def NoRoomFor (sb : Superblock) (s : State) (path : Path) (es : List (List Byte)) : Prop :=
  (path.head? = some slash ∧ NoRoom s [] ROOTINO) ∨ NoRoomOn sb s (s.start path) es

theorem namex_spec (hsb : sb.Ordered) (hs : Walkable sb s) (nip : Bool) {path : Path} (hpath : (0 : Byte) ∉ path)
    (name : Buf) :
    ((∃ t, namex sb path nip name s = .error (.iget, t)) ∧ NoRoomFor sb s path (looked nip (components path))) ∨
      ¬ NoRoomFor sb s path (looked nip (components path)) ∧
        ∃ r name' t, namex sb path nip name s = .ok ((r, name'), t) ∧
          Reached sb s (s.resolve sb nip (s.start path) (components path)) r t ∧
          (nip = true → r ≠ none → some (dirKey name') = (components path).getLast?) := by
  have hrefl := Borrowed.refl hs.wf hs.unlocked
  unfold NoRoomFor State.start
  by_cases hhead : path.head? = some slash
  · have hrun : namex sb path nip name s = (do
        let ip ← iget ROOTINO
        namexLoop sb nip path ip name : K (Option Ip × Buf)) s := by
      unfold namex
      refine (bind_of_ok (a := s) (t := s) rfl).trans ?_
      rw [if_pos hhead]
    rw [hrun, if_pos hhead]
    rcases iget_cases s ROOTINO with ⟨hpanic, hfull⟩ | ⟨ip, t, hok, hgot⟩
    · exact .inl ⟨⟨s, bind_of_error _ hpanic⟩, .inl ⟨hhead, (hrefl.tableFull_iff hs.wf).1 hfull⟩⟩
    · have hroom : ¬ NoRoom s [] ROOTINO := (hrefl.tableFull_iff hs.wf).not.1 hgot.not_full
      rw [bind_of_ok hok]
      rcases namexLoop_spec hsb hs nip path hpath name hs.root (hrefl.got hgot) hgot.names with
        ⟨hpanic, hno⟩ | ⟨hfits, hok'⟩
      · exact .inl ⟨hpanic, .inr hno⟩
      · exact .inr ⟨not_or.2 ⟨fun hc => hroom hc.2, hfits⟩, hok'⟩
  · have hrun : namex sb path nip name s = (do
        let ip ← idup s.cwd
        namexLoop sb nip path ip name : K (Option Ip × Buf)) s := by
      unfold namex
      refine (bind_of_ok (a := s) (t := s) rfl).trans ?_
      rw [if_neg hhead]
    obtain ⟨t, hok, hgot⟩ := idup_got ⟨hs.cwd.1, rfl⟩
    rw [hrun, if_neg hhead, bind_of_ok hok]
    rcases namexLoop_spec hsb hs nip path hpath name hs.cwd.2 (hrefl.got hgot) hgot.names with
      ⟨hpanic, hno⟩ | ⟨hfits, hok'⟩
    · exact .inl ⟨hpanic, .inr hno⟩
    · exact .inr ⟨not_or.2 ⟨fun hc => hhead hc.1, hfits⟩, hok'⟩

/-- `namei` finds the inode that the components of the path lead to, and `nameiparent` the directory before
    the last one, which is in `name` then. They keep a reference to what they return and nothing else. They
    panic if there is no room in the inode table for an inode on the way, and only then. -/
theorem path_resolution (hsb : sb.Ordered) (hs : Walkable sb s) {path : Path} (hpath : (0 : Byte) ∉ path) (name : Buf) :
    ((NoRoomFor sb s path (components path) → ∃ t, namei sb path name s = .error (.iget, t)) ∧
      (¬ NoRoomFor sb s path (components path) → ∃ r t, namei sb path name s = .ok (r, t) ∧
        Reached sb s (s.walk sb (s.start path) (components path)) r t)) ∧
    ((NoRoomFor sb s path (components path).dropLast → ∃ t, nameiparent sb path name s = .error (.iget, t)) ∧
      (¬ NoRoomFor sb s path (components path).dropLast → ∃ r name' t,
        nameiparent sb path name s = .ok ((r, name'), t) ∧
        Reached sb s (s.parent sb (s.start path) (components path)) r t ∧
        (r ≠ none → some (dirKey name') = (components path).getLast?))) := by
  constructor
  · rcases namex_spec hsb hs false hpath name with ⟨⟨t, hpanic⟩, hno⟩ | ⟨hfits, r, name', t, hok, hreached, -⟩
    · exact ⟨fun _ => ⟨t, bind_of_error _ hpanic⟩, fun h => absurd hno h⟩
    · exact ⟨fun h => absurd h hfits, fun _ => ⟨r, t, bind_of_ok hok, hreached⟩⟩
  · rcases namex_spec hsb hs true hpath name with ⟨hpanic, hno⟩ | ⟨hfits, r, name', t, hok, hreached, hname⟩
    · exact ⟨fun _ => hpanic, fun h => absurd hno h⟩
    · exact ⟨fun h => absurd h hfits, fun _ => ⟨r, name', t, hok, hreached, hname rfl⟩⟩

/-! ## A path of one name -/

variable {held : Nat}

theorem dirDisk_one (hi : (dirDisk 9).Inum i) (h : ((dirState 8 held).dinode (dirDisk 9) i).type = T_DIR) :
    i = 1 ∧ (dirState 8 held).content (dirDisk 9) i = dirent 60 dirName := by
  have h1 : i = 1 := by
    by_contra hne
    rw [dirDisk_dinode hi, if_neg hne] at h
    exact absurd h (by decide)
  rw [h1]
  exact ⟨rfl, dirState_dir⟩

theorem dirDisk_map (e : List Byte) (inum : BitVec 16) : dirMap (dirent 60 dirName) e = some inum ↔
    e = dirKey dirName ∧ inum = 60 := by
  have hdist : Distinct (dirSlot (dirent 60 dirName)) ((dirent 60 dirName).length / DIRENT) := by
    rw [length_dirent]
    intro i j _ _ hi hj _ _ _
    have hone : DIRENT / DIRENT = 1 := rfl
    omega
  have hslot : dirSlot (dirent 60 dirName) 0 = some (dirKey dirName, 60) := binding_dirent (by decide) dirName
  rw [dirMap, mapOf_eq_some hdist, length_dirent]
  constructor
  · rintro ⟨i, hi, hs⟩
    have h0 : i = 0 := by
      have hone : DIRENT / DIRENT = 1 := rfl
      omega
    rw [h0, hslot] at hs
    cases hs
    exact ⟨rfl, rfl⟩
  · rintro ⟨rfl, rfl⟩
    exact ⟨0, by decide, hslot⟩

theorem dirDisk_anchored (hi : (dirDisk 9).Inum i) : Anchored (dirDisk 9) (dirState 8 held) i := by
  refine ⟨hi, ?_, .inl ?_⟩
  · rw [dirDisk_dinode hi]
    split
    · decide
    · decide
  · rw [dirDisk_dinode hi]
    split
    · decide
    · decide

theorem dirState_walkable (h : 0 < held) : Walkable (dirDisk 9) (dirState 8 held) := by
  have hok := dirState_dirOk h
  have hroot : (dirDisk 9).Inum 1 := by decide
  refine ⟨dirState_wf, fun _ => rfl, fun i hi ht => ?_, fun i hi ht => ?_, fun i e j hi hc => ?_, dirDisk_anchored hroot,
    (dirState_core h).1, dirDisk_anchored hroot⟩
  · rw [(dirDisk_one hi ht).2, length_dirent]
  · rw [(dirDisk_one hi ht).2, ← dirState_dir]
    exact hok.distinct
  · unfold State.child at hc
    split at hc
    · next ht =>
      rw [(dirDisk_one hi.1 ht).2, Option.map_eq_some_iff] at hc
      obtain ⟨inum, hmap, rfl⟩ := hc
      rw [((dirDisk_map e inum).1 hmap).2]
      exact dirDisk_anchored (by decide)
    · cases hc

theorem dirState_walk : (dirState 8 held).walk (dirDisk 9) 1 [dirKey dirName] = some 60 := by
  have hroot : (dirDisk 9).Inum 1 := by decide
  have htype : ((dirState 8 held).dinode (dirDisk 9) 1).type = T_DIR := by
    rw [dirDisk_dinode hroot]
    rfl
  have hchild : (dirState 8 held).child (dirDisk 9) 1 (dirKey dirName) = some 60 := by
    unfold State.child
    rw [if_pos htype, (dirDisk_one hroot htype).2, (dirDisk_map _ 60).2 ⟨rfl, rfl⟩]
    rfl
  rw [walk_cons, hchild]
  rfl

/-- The path `a/` leads from inode 1 to inode 60, and its parent is inode 1. -/
theorem path_resolution_one :
    (∃ ip t, namei (dirDisk 9) [97, slash] dirName (dirState 8 1) = .ok (some ip, t) ∧ t.Names ip 60 ∧
      Borrowed (dirDisk 9) [60] none (dirState 8 1) t) ∧
    ∃ ip name' t, nameiparent (dirDisk 9) [97, slash] dirName (dirState 8 1) = .ok ((some ip, name'), t) ∧
      t.Names ip 1 ∧ dirKey name' = [97] ∧ Borrowed (dirDisk 9) [1] none (dirState 8 1) t := by
  have hcomp : components [97, slash] = [dirKey dirName] := by decide
  have hstart : (dirState 8 1).start [97, slash] = 1 := rfl
  have hpath : (0 : Byte) ∉ [97, slash] := by decide
  have hcard : (dirState 8 1).inodes.card = 1 := by decide +kernel
  have hfits : ∀ es, ¬ NoRoomFor (dirDisk 9) (dirState 8 1) [97, slash] es := by
    refine fun es => not_or.2 ⟨fun hc => absurd hc.1 (by decide), not_noRoomOn ?_⟩
    rw [hcard]
    decide
  obtain ⟨⟨-, hnamei⟩, -, hparent⟩ :=
    path_resolution dirDisk_ordered (dirState_walkable Nat.one_pos) hpath dirName
  have hgoal : (dirState 8 1).parent (dirDisk 9) 1 [dirKey dirName] = some 1 := by
    have hroot : (dirDisk 9).Inum 1 := by decide
    have htype : ((dirState 8 1).dinode (dirDisk 9) 1).type = T_DIR := by
      rw [dirDisk_dinode hroot]
      rfl
    rw [parent_cons, if_pos htype, if_pos rfl]
  obtain ⟨r, t, hok, hreached⟩ := hnamei (hfits _)
  obtain ⟨r', name', t', hok', hreached', hname⟩ := hparent (hfits _)
  rw [hcomp, hstart] at hreached hreached'
  rw [dirState_walk] at hreached
  rw [hgoal] at hreached'
  obtain ⟨ip, rfl⟩ := Option.isSome_iff_exists.1 hreached.found
  obtain ⟨jp, rfl⟩ := Option.isSome_iff_exists.1 hreached'.found
  refine ⟨⟨ip, t, hok, hreached.names ip 60 rfl rfl, hreached.held⟩, jp, name', t', hok',
    hreached'.names jp 1 rfl rfl, ?_, hreached'.held⟩
  have hlast := hname (by simp)
  rw [hcomp] at hlast
  exact Option.some.inj hlast

/-- The inode table may have no room for the inode that the path leads to. -/
theorem namei_panics : Walkable (dirDisk 9) (dirState 8 NINODE) ∧
    (dirState 8 NINODE).walk (dirDisk 9) ((dirState 8 NINODE).start [97]) (components [97]) = some 60 ∧
    ∃ t, namei (dirDisk 9) [97] dirName (dirState 8 NINODE) = .error (.iget, t) := by
  have hs : Walkable (dirDisk 9) (dirState 8 NINODE) := dirState_walkable (by decide)
  have hcomp : components [97] = [dirKey dirName] := by decide
  have hstart : (dirState 8 NINODE).start [97] = 1 := rfl
  have hchild : (dirState 8 NINODE).child (dirDisk 9) 1 (dirKey dirName) = some 60 := by
    have hwalk : (dirState 8 NINODE).walk (dirDisk 9) 1 [dirKey dirName] = some 60 := dirState_walk
    rw [walk_cons] at hwalk
    obtain ⟨j, hj, hend⟩ := Option.bind_eq_some_iff.1 hwalk
    cases hend
    exact hj
  have hno : NoRoomFor (dirDisk 9) (dirState 8 NINODE) [97] (looked false (components [97])) := by
    rw [hcomp]
    refine .inr (noRoomOn_cons.2 ⟨60, hchild, .inl ?_⟩)
    decide +kernel
  refine ⟨hs, hcomp ▸ hstart ▸ dirState_walk, ?_⟩
  have hpath : (0 : Byte) ∉ [97] := by decide
  rcases namex_spec dirDisk_ordered hs false hpath dirName with ⟨⟨t, hpanic⟩, -⟩ | ⟨hfits, -⟩
  · exact ⟨t, bind_of_error _ hpanic⟩
  · exact absurd hno hfits

end Xv6.Blocks
