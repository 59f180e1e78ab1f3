import Xv6.Bio.Rounds

set_option autoImplicit false

/-! # One coherent disk

The history of changes says what a block contains. A valid buffer has that content, and so has the disk
unless the block is in a buffer that is dirty or pinned; neither is ever recycled. -/

namespace Xv6.Bio

open Xv6.Lib

variable {Pid α : Type} {g : Geometry α} {s t : State Pid α} {p q : Pid}

/-! ## The contents of blocks -/

def Ev.apply (m : Uint → α) : Ev Pid α → Uint → α
  | .change _ b d => Function.update m b d
  | .bread _ _ _ => m

/-- The contents left by the most recent changes. -/
def latest (disk : Uint → α) (hist : List (Ev Pid α)) : Uint → α := hist.foldl Ev.apply disk

@[simp] theorem latest_change (disk : Uint → α) (hist : List (Ev Pid α)) (c : Bool) (b : Uint) (d : α) :
    latest disk (hist ++ [Ev.change c b d]) = Function.update (latest disk hist) b d := by
  rw [latest, List.foldl_append]
  rfl

@[simp] theorem latest_bread (disk : Uint → α) (hist : List (Ev Pid α)) (p : Pid) (b : Uint) (d : α) :
    latest disk (hist ++ [Ev.bread p b d]) = latest disk hist := by
  rw [latest, List.foldl_append]
  rfl

/-- All that was read satisfies `P`, given the history before. -/
def Reads (P : List (Ev Pid α) → Uint → α → Prop) (hist : List (Ev Pid α)) : Prop :=
  ∀ pre p b d suf, hist = pre ++ Ev.bread p b d :: suf → P pre b d

theorem Reads.nil {P : List (Ev Pid α) → Uint → α → Prop} : Reads P [] := by
  intro pre p b d suf h
  exact absurd h.symm (by simp)

theorem Reads.snoc {P : List (Ev Pid α) → Uint → α → Prop} {hist : List (Ev Pid α)} (h : Reads P hist)
    {e : Ev Pid α} (he : ∀ p b d, e = .bread p b d → P hist b d) : Reads P (hist ++ [e]) := by
  intro pre p b d suf heq
  cases suf using List.reverseRecOn with
  | nil =>
      obtain ⟨rfl, hlast⟩ := List.append_inj' heq rfl
      exact he p b d (List.singleton_inj.1 hlast)
  | append_singleton suf x _ =>
      rw [← List.cons_append, ← List.append_assoc] at heq
      exact h pre p b d suf (List.append_inj' heq rfl).1

/-! ## The invariant -/

/-- Changes are logged or written before the buffer is released, and a process takes away only pins
    of its own. -/
def Disciplined (s : State Pid α) : Label Pid α → Prop
  | .brelse p i => s.Holds p i → s.dirty i = false
  | .bunpin p i => 0 < s.pins p i
  | _ => True

structure DataInv (disk : Uint → α) (s : State Pid α) : Prop where
  current : ∀ {i b}, (s.cache.buf i).blockno = some b → (s.cache.buf i).valid = true →
    (s.cache.buf i).data = latest disk s.hist b
  onDisk : ∀ b, s.disk b = latest disk s.hist b ∨ ∃ i, (s.cache.buf i).blockno = some b ∧
    (s.cache.buf i).valid = true ∧ (s.dirty i = true ∨ b ∈ s.pinned)
  dirty : ∀ {i}, s.dirty i = true → (s.cache.buf i).lock.isSome = true
  reads : Reads (fun pre b d => d = latest disk pre b) s.hist

variable {disk : Uint → α}

theorem DataInv.congr (h : DataInv disk s) (hcache : t.cache = s.cache) (hdisk : t.disk = s.disk)
    (hdirty : t.dirty = s.dirty) (hpinned : t.pinned = s.pinned) (hhist : t.hist = s.hist) :
    DataInv disk t := by
  constructor
  case current =>
    rw [hcache, hhist]
    exact h.current
  case onDisk =>
    rw [hcache, hdisk, hdirty, hpinned, hhist]
    exact h.onDisk
  case dirty =>
    rw [hcache, hdirty]
    exact h.dirty
  case reads =>
    rw [hhist]
    exact h.reads

/-- What a step may do to the buffers without a word about the data. -/
structure SameData (s t : State Pid α) : Prop where
  block : ∀ i, (t.cache.buf i).blockno = (s.cache.buf i).blockno
  valid : ∀ i, (t.cache.buf i).valid = (s.cache.buf i).valid
  data : ∀ i, (t.cache.buf i).data = (s.cache.buf i).data

/-- A step that moves locks and counts. -/
theorem DataInv.same (h : DataInv disk s) (hsame : SameData s t) (hdisk : t.disk = s.disk)
    (hdirty : ∀ i, t.dirty i = true → s.dirty i = true ∧
      ((s.cache.buf i).lock.isSome = true → (t.cache.buf i).lock.isSome = true))
    (hkept : ∀ i b, (s.cache.buf i).blockno = some b → s.dirty i = true → t.dirty i = true ∨ b ∈ t.pinned)
    (hpinned : ∀ b ∈ s.pinned, b ∈ t.pinned) (hlatest : latest disk t.hist = latest disk s.hist)
    (hreads : Reads (fun pre b d => d = latest disk pre b) t.hist) : DataInv disk t := by
  constructor
  case current =>
    intro i b hb hv
    rw [hsame.block] at hb
    rw [hsame.valid] at hv
    rw [hsame.data, hlatest]
    exact h.current hb hv
  case onDisk =>
    intro b
    rw [hdisk, hlatest]
    refine (h.onDisk b).imp_right fun hex => ?_
    obtain ⟨i, hi, hv, hor⟩ := hex
    refine ⟨i, (hsame.block i).trans hi, (hsame.valid i).trans hv, ?_⟩
    rcases hor with hd | hp
    · exact hkept i b hi hd
    · exact Or.inr (hpinned b hp)
  case dirty =>
    intro i hi
    obtain ⟨hd, hl⟩ := hdirty i hi
    exact hl (h.dirty hd)
  case reads =>
    exact hreads

theorem SameData.of_set {i : Fin NBUF} {x : Buf Pid α} (hbuf : t.cache.buf = (s.cache.set i x).buf)
    (hblock : x.blockno = (s.cache.buf i).blockno) (hvalid : x.valid = (s.cache.buf i).valid)
    (hdata : x.data = (s.cache.buf i).data) : SameData s t := by
  have hall : ∀ j, (t.cache.buf j).blockno = (s.cache.buf j).blockno ∧
      (t.cache.buf j).valid = (s.cache.buf j).valid ∧ (t.cache.buf j).data = (s.cache.buf j).data := by
    intro j
    rw [hbuf]
    by_cases hj : j = i
    · subst hj
      rw [Cache.set_self]
      exact ⟨hblock, hvalid, hdata⟩
    · rw [Cache.set_of_ne _ _ hj]
      exact ⟨rfl, rfl, rfl⟩
  exact ⟨fun j => (hall j).1, fun j => (hall j).2.1, fun j => (hall j).2.2⟩

/-- Only the buffer's counts change. -/
theorem DataInv.recount (h : DataInv disk s) {i : Fin NBUF} {n : Nat}
    (hbuf : t.cache.buf = (s.cache.set i { s.cache.buf i with refcnt := n }).buf) (hdisk : t.disk = s.disk)
    (hdirty : t.dirty = s.dirty) (hpinned : ∀ b ∈ s.pinned, b ∈ t.pinned) (hhist : t.hist = s.hist) :
    DataInv disk t := by
  refine h.same (SameData.of_set hbuf rfl rfl rfl) hdisk (fun j hj => ⟨hdirty ▸ hj, fun hl => ?_⟩)
    (fun j b _ hd => Or.inl (hdirty ▸ hd)) hpinned (by rw [hhist]) (hhist ▸ h.reads)
  rw [hbuf, Cache.set_lock (by rfl) j]
  exact hl

variable [DecidableEq Pid]

/-- What is recycled is clean and not pinned. -/
theorem DataInv.bread (h : DataInv disk s) (hc : CacheInv s) (b : Uint) (k : Fin NBUF → Task) :
    DataInv disk (s.bread p b k) := by
  unfold State.bread
  split
  · exact h.congr rfl rfl rfl rfl rfl
  · rename_i c i hget
    obtain ⟨-, rfl⟩ | ⟨hmiss, hfree, rfl⟩ := bget_eq_some hget
    · exact h.recount rfl rfl rfl (fun _ hb => hb) rfl
    · have hunlocked := hc.unlocked hfree
      have hclean : s.dirty i ≠ true := fun hd => by
        have hl := h.dirty hd
        rw [hunlocked] at hl
        cases hl
      constructor
      case current =>
        intro j b' hb hv
        change ((s.cache.set i _).buf j).blockno = some b' at hb
        change ((s.cache.set i _).buf j).valid = true at hv
        change ((s.cache.set i _).buf j).data = _
        by_cases hj : j = i
        · subst hj
          rw [Cache.set_self] at hv
          cases hv
        · rw [Cache.set_of_ne _ _ hj] at hb hv ⊢
          exact h.current hb hv
      case onDisk =>
        intro b'
        refine (h.onDisk b').imp_right fun hex => ?_
        obtain ⟨j, hj, hv, hor⟩ := hex
        have hji : j ≠ i := by
          rintro rfl
          rcases hor with hd | hp
          · exact hclean hd
          · exact hc.no_ref hfree .log ⟨b', hp, hj⟩
        refine ⟨j, ?_⟩
        change ((s.cache.set i _).buf j).blockno = _ ∧ ((s.cache.set i _).buf j).valid = _ ∧ _
        rw [Cache.set_of_ne _ _ hji]
        exact ⟨hj, hv, hor⟩
      case dirty =>
        intro j hj
        have hji : j ≠ i := fun hji => hclean (hji ▸ hj)
        change ((s.cache.set i _).buf j).lock.isSome = true
        rw [Cache.set_of_ne _ _ hji]
        exact h.dirty hj
      case reads =>
        exact h.reads

omit [DecidableEq Pid] in
/-- A block that comes from the disk is the latest one: no other buffer has it. -/
theorem DataInv.disk_latest (h : DataInv disk s) (hc : CacheInv s) {i : Fin NBUF} {b : Uint}
    (hb : (s.cache.buf i).blockno = some b) (hv : (s.cache.buf i).valid = false) :
    s.disk b = latest disk s.hist b := by
  refine (h.onDisk b).resolve_right fun hex => ?_
  obtain ⟨j, hj, hvj, -⟩ := hex
  obtain rfl := hc.one hj hb
  rw [hv] at hvj
  cases hvj

theorem DataInv.cont (h : DataInv disk s) (hc : CacheInv s) (hcont : s.cont p (s.call p) = some t) :
    DataInv disk t := by
  cases hcall : s.call p with
  | idle =>
      rw [hcall] at hcont
      cases hcont
  | locking i b =>
      simp only [hcall, State.cont] at hcont
      obtain ⟨-, hcont⟩ := Option.ite_none_left_eq_some.1 hcont
      obtain rfl := Option.some.inj hcont
      have hb := hc.locking hcall
      have hlock : ∀ j, (s.cache.buf j).lock.isSome = true →
          ((s.cache.set i { s.cache.buf i with lock := some p }).buf j).lock.isSome = true := by
        intro j hl
        by_cases hj : j = i
        · subst hj
          rw [Cache.set_self]
          rfl
        · rwa [Cache.set_of_ne _ _ hj]
      split
      · rename_i hv
        refine h.same (SameData.of_set rfl rfl rfl rfl) rfl (fun j hj => ⟨hj, hlock j⟩)
          (fun _ _ _ hd => Or.inl hd) (fun _ hp => hp) (latest_bread ..) (h.reads.snoc ?_)
        intro p' b' d he
        obtain ⟨-, rfl, rfl⟩ := Ev.bread.inj he
        exact h.current hb hv
      · exact h.same (SameData.of_set rfl rfl rfl rfl) rfl (fun j hj => ⟨hj, hlock j⟩)
          (fun _ _ _ hd => Or.inl hd) (fun _ hp => hp) rfl h.reads
  | reading i b =>
      rw [hcall] at hcont
      obtain rfl := Option.some.inj hcont
      obtain ⟨hb, hl, hv⟩ := hc.reading hcall
      have hlatest : s.disk ((s.cache.buf i).blockno.getD 0) = latest disk s.hist b := by
        rw [hb]
        exact h.disk_latest hc hb hv
      constructor
      case current =>
        intro j b' hj hvj
        show ((s.cache.set i _).buf j).data = latest disk (s.hist ++ [Ev.bread _ _ _]) b'
        rw [latest_bread]
        change ((s.cache.set i _).buf j).blockno = some b' at hj
        change ((s.cache.set i _).buf j).valid = true at hvj
        by_cases hji : j = i
        · subst hji
          rw [Cache.set_self] at hj ⊢
          obtain rfl : b = b' := Option.some.inj (hb.symm.trans hj)
          exact hlatest
        · rw [Cache.set_of_ne _ _ hji] at hj hvj ⊢
          exact h.current hj hvj
      case onDisk =>
        intro b'
        show s.disk b' = latest disk (s.hist ++ [Ev.bread _ _ _]) b' ∨ _
        rw [latest_bread]
        refine (h.onDisk b').imp_right fun hex => ?_
        obtain ⟨j, hj, hvj, hor⟩ := hex
        have hji : j ≠ i := by
          rintro rfl
          rw [hv] at hvj
          cases hvj
        refine ⟨j, ?_⟩
        change ((s.cache.set i _).buf j).blockno = _ ∧ ((s.cache.set i _).buf j).valid = _ ∧ _
        rw [Cache.set_of_ne _ _ hji]
        exact ⟨hj, hvj, hor⟩
      case dirty =>
        intro j hj
        change ((s.cache.set i _).buf j).lock.isSome = true
        rw [Cache.set_lock (by rfl) j]
        exact h.dirty hj
      case reads =>
        refine h.reads.snoc fun p' b' d he => ?_
        obtain ⟨-, rfl, rfl⟩ := Ev.bread.inj he
        exact hlatest
  | dropping i =>
      rw [hcall] at hcont
      obtain rfl := Option.some.inj hcont
      exact h.recount (bdrop_buf ..) rfl rfl (fun _ hb => hb) rfl

omit [DecidableEq Pid] in
theorem DataInv.change (h : DataInv disk s) (hc : CacheInv s) {i : Fin NBUF} {b : Uint}
    (hb : (s.cache.buf i).blockno = some b) (hv : (s.cache.buf i).valid = true)
    (hl : (s.cache.buf i).lock = some p) (byCommit : Bool) (d : α) :
    DataInv disk (s.change byCommit i d) := by
  have hlatest : latest disk (s.change byCommit i d).hist = Function.update (latest disk s.hist) b d := by
    simp only [State.change, latest_change, hb, Option.getD_some]
  have hother : ∀ j, j ≠ i → (s.change byCommit i d).cache.buf j = s.cache.buf j := fun j hj =>
    Cache.set_of_ne _ _ hj
  have hself : (s.change byCommit i d).cache.buf i = { s.cache.buf i with data := d } := Cache.set_self ..
  constructor
  case current =>
    intro j b' hj hvj
    rw [hlatest]
    by_cases hji : j = i
    · subst hji
      rw [hself] at hj ⊢
      obtain rfl : b = b' := Option.some.inj (hb.symm.trans hj)
      rw [Function.update_self]
    · rw [hother j hji] at hj hvj ⊢
      have hne : b' ≠ b := by
        rintro rfl
        exact hji (hc.one hj hb)
      rw [Function.update_of_ne hne]
      exact h.current hj hvj
  case onDisk =>
    intro b'
    rw [hlatest]
    by_cases hbb : b' = b
    · subst hbb
      refine Or.inr ⟨i, ?_⟩
      rw [hself]
      exact ⟨hb, hv, Or.inl (Function.update_self ..)⟩
    · rw [Function.update_of_ne hbb]
      refine (h.onDisk b').imp_right fun hex => ?_
      obtain ⟨j, hj, hvj, hor⟩ := hex
      have hji : j ≠ i := by
        rintro rfl
        exact hbb (Option.some.inj (hj.symm.trans hb))
      refine ⟨j, ?_⟩
      rw [hother j hji]
      refine ⟨hj, hvj, hor.imp_left fun hd => ?_⟩
      exact (Function.update_of_ne hji ..).trans hd
  case dirty =>
    intro j hj
    by_cases hji : j = i
    · subst hji
      rw [hself]
      simp [hl]
    · rw [hother j hji]
      exact h.dirty ((Function.update_of_ne hji ..).symm.trans hj)
  case reads =>
    exact h.reads.snoc fun p' b' d' he => by cases he

theorem DataInv.bwrite (h : DataInv disk s) (hc : CacheInv s) (hidle : s.call p = .idle) (i : Fin NBUF) :
    DataInv disk (s.bwrite p i) := by
  simp only [State.bwrite]
  split
  · rename_i hl
    obtain ⟨b, hb, hv⟩ := hc.held hidle hl
    have hdata := h.current hb hv
    constructor
    case current =>
      exact h.current
    case onDisk =>
      intro b'
      simp only [hb, Option.getD_some]
      by_cases hbb : b' = b
      · subst hbb
        exact Or.inl ((Function.update_self ..).trans hdata)
      · rw [Function.update_of_ne hbb]
        refine (h.onDisk b').imp_right fun hex => ?_
        obtain ⟨j, hj, hvj, hor⟩ := hex
        have hji : j ≠ i := by
          rintro rfl
          exact hbb (Option.some.inj (hj.symm.trans hb))
        exact ⟨j, hj, hvj, hor.imp_left fun hd => (Function.update_of_ne hji ..).trans hd⟩
    case dirty =>
      intro j hj
      have hji : j ≠ i := by
        rintro rfl
        exact absurd ((Function.update_self ..).symm.trans hj) (by simp)
      exact h.dirty ((Function.update_of_ne hji ..).symm.trans hj)
    case reads =>
      exact h.reads
  · exact h.congr rfl rfl rfl rfl rfl

/-- Only a clean buffer is released. -/
theorem DataInv.brelse (h : DataInv disk s) {i : Fin NBUF}
    (hclean : (s.cache.buf i).lock = some p → s.dirty i = false) : DataInv disk (s.brelse p i) := by
  simp only [State.brelse]
  split
  · rename_i hl
    refine h.same (SameData.of_set rfl rfl rfl rfl) rfl (fun j hj => ⟨hj, fun hlj => ?_⟩)
      (fun _ _ _ hd => Or.inl hd) (fun _ hp => hp) rfl h.reads
    have hji : j ≠ i := by
      rintro rfl
      exact absurd ((hclean hl).symm.trans hj) (by simp)
    show ((s.cache.set i _).buf j).lock.isSome = true
    rwa [Cache.set_of_ne _ _ hji]
  · exact h.congr rfl rfl rfl rfl rfl

/-- What is logged is pinned. -/
theorem DataInv.logWrite (h : DataInv disk s) (hi : Inv g s) (hidle : s.call p = .idle) {i : Fin NBUF}
    (hl : s.Holds p i) : DataInv disk (s.logWrite p i) := by
  obtain ⟨b, hb, hv⟩ := hi.cache.held hidle hl
  unfold State.logWrite
  simp only [hb, Option.getD_some]
  split
  · exact h.congr rfl rfl rfl rfl rfl
  split
  · exact h.congr rfl rfl rfl rfl rfl
  rename_i hpos
  have hquiet := hi.log.quiet (hi.log.no_commit (Nat.le_of_not_lt hpos))
  have hclean : ∀ j, Function.update s.dirty i false j = true → s.dirty j = true := fun j hj => by
    by_cases hji : j = i
    · subst hji
      rw [Function.update_self] at hj
      cases hj
    · rwa [Function.update_of_ne hji] at hj
  have hkept : ∀ {u : List Uint}, b ∈ u → ∀ j b', (s.cache.buf j).blockno = some b' → s.dirty j = true →
      Function.update s.dirty i false j = true ∨ b' ∈ u := by
    intro u hu j b' hj hd
    by_cases hji : j = i
    · subst hji
      obtain rfl : b = b' := Option.some.inj (hb.symm.trans hj)
      exact Or.inr hu
    · exact Or.inl ((Function.update_of_ne hji ..).trans hd)
  split
  · rename_i hmem
    exact h.same ⟨fun _ => rfl, fun _ => rfl, fun _ => rfl⟩ rfl (fun j hj => ⟨hclean j hj, id⟩)
      (hkept (hquiet ▸ hmem)) (fun _ hp => hp) rfl h.reads
  · refine h.same (SameData.of_set rfl rfl rfl rfl) rfl (fun j hj => ⟨hclean j hj, fun hlj => ?_⟩)
      (hkept (List.mem_append_right _ (List.mem_singleton_self b))) (fun _ hp => List.mem_append_left _ hp)
      rfl h.reads
    exact (congrArg Option.isSome (Cache.set_lock (by rfl) j)).trans hlj

omit [DecidableEq Pid] in
/-- The pin is taken away when the disk is up to date. -/
theorem DataInv.unpin (h : DataInv disk s) (hc : CacheInv s) {i : Fin NBUF} {b : Uint}
    (hsynced : s.disk b = latest disk s.hist b) (hcache : t.cache = Bio.bunpin s.cache i)
    (hdisk : t.disk = s.disk) (hdirty : t.dirty = s.dirty) (hpinned : t.pinned = s.pinned.erase b)
    (hhist : t.hist = s.hist) : DataInv disk t := by
  have hbuf : t.cache.buf = (s.cache.set i { s.cache.buf i with refcnt := (s.cache.buf i).refcnt - 1 }).buf :=
    congrArg Cache.buf hcache
  have hsame : SameData s t := SameData.of_set hbuf rfl rfl rfl
  constructor
  case current =>
    intro j b' hj hv
    rw [hsame.block] at hj
    rw [hsame.valid] at hv
    rw [hsame.data, hhist]
    exact h.current hj hv
  case onDisk =>
    intro b'
    rw [hdisk, hhist]
    by_cases hbb : b' = b
    · subst hbb
      exact Or.inl hsynced
    · refine (h.onDisk b').imp_right fun hex => ?_
      obtain ⟨j, hj, hv, hor⟩ := hex
      refine ⟨j, (hsame.block j).trans hj, (hsame.valid j).trans hv, ?_⟩
      rw [hdirty, hpinned, hc.nodupPinned.mem_erase_iff]
      exact hor.imp_right fun hp => ⟨hbb, hp⟩
  case dirty =>
    intro j hj
    rw [hdirty] at hj
    rw [hbuf, Cache.set_lock (by rfl) j]
    exact h.dirty hj
  case reads =>
    rw [hhist]
    exact h.reads

/-! ## The process in `commit` -/

/-- After the copying the buffer is still to be written; before it is released it has been. -/
def Op.WritesBack : List Op → Prop
  | .memmove dst _ :: rest => rest.any Op.copies = false ∧ .bwrite dst ∈ rest ∧ InUse rest dst
  | .header :: rest => rest.any Op.copies = false ∧ .bwrite .log ∈ rest ∧ InUse rest .log
  | .brelse r :: rest => .bwrite r ∉ rest
  | .bwrite r :: rest => InUse rest r
  | _ => True

/-- Only `bwrite` comes between the copying and the unpinning. -/
def Op.Syncs (l : List Op) : Prop :=
  .bunpin ∈ l.tail → .bwrite .home ∉ l.tail →
    (l ≠ [] → l.head? = some (.bwrite .home)) ∧ InUse l.tail .home ∧ l.tail.any Op.copies = false

instance : DecidablePred Op.WritesBack := fun l =>
  match l with
  | .memmove dst _ :: rest => inferInstanceAs
      (Decidable (rest.any Op.copies = false ∧ .bwrite dst ∈ rest ∧ InUse rest dst))
  | .header :: rest => inferInstanceAs
      (Decidable (rest.any Op.copies = false ∧ .bwrite .log ∈ rest ∧ InUse rest .log))
  | .brelse r :: rest => inferInstanceAs (Decidable (.bwrite r ∉ rest))
  | .bwrite r :: rest => inferInstanceAs (Decidable (InUse rest r))
  | [] | .bread _ :: _ | .bunpin :: _ => isTrue trivial

instance : DecidablePred Op.Syncs := fun l => inferInstanceAs
  (Decidable (.bunpin ∈ l.tail → .bwrite .home ∉ l.tail →
    (l ≠ [] → l.head? = some (.bwrite .home)) ∧ InUse l.tail .home ∧ l.tail.any Op.copies = false))

theorem Phase.writesBack {ph : Phase} {l : List Op} (h : l <:+ ph.body) : Op.WritesBack l :=
  forall_suffix (by decide) h

theorem Phase.syncs {ph : Phase} {l : List Op} (h : l <:+ ph.body) : Op.Syncs l :=
  forall_suffix (by decide) h

/-- What is left of a round is not all of it, once something has been written. -/
theorem Phase.inUse_home {ph : Phase} {rest : List Op} (h : rest <:+ ph.body) (hunpin : .bunpin ∈ rest)
    (hwritten : .bwrite .home ∉ rest) : InUse rest .home ∧ rest.any Op.copies = false :=
  forall_suffix (P := fun l => .bunpin ∈ l → .bwrite .home ∉ l → InUse l .home ∧ l.any Op.copies = false)
    (by decide) h hunpin hwritten

/-- Both variables are in use when a block is copied. -/
theorem Phase.moves {ph : Phase} {dst src : Reg} {rest : List Op} (h : .memmove dst src :: rest <:+ ph.body) :
    InUse rest dst ∧ InUse rest src := by
  have hboth : InUse rest .log ∧ InUse rest .home :=
    forall_suffix (P := fun l => l.head?.any (fun op => op.copies && decide (op ≠ .header)) = true →
      InUse l.tail .log ∧ InUse l.tail .home) (by decide) h rfl
  cases dst <;> cases src <;> simp [hboth]

theorem Phase.unpinsWritten {ph : Phase} {rest : List Op} (h : .bunpin :: rest <:+ ph.body) :
    .bwrite .home ∉ Op.bunpin :: rest :=
  forall_suffix (P := fun l => l.head? = some .bunpin → .bwrite .home ∉ l) (by decide) h rfl

structure ComData (disk : Uint → α) (g : Geometry α) (s : State Pid α) (p : Pid) (ph : Phase)
    (rest : List Op) (reg : Reg → Option (Fin NBUF)) : Prop where
  clean : ∀ r i, InUse rest r → reg r = some i → (∀ b, s.call p ≠ .locking i b) → s.dirty i = true →
    rest.any Op.copies = false ∧ .bwrite r ∈ rest
  synced : .bunpin ∈ rest → .bwrite .home ∉ rest →
    s.disk (ph.block g.start s.lh .home) = latest disk s.hist (ph.block g.start s.lh .home)

/-- A step of other processes, seen from `p`: it does nothing to the buffers that `p` has locked. -/
structure Spares (disk : Uint → α) (s t : State Pid α) (p : Pid) : Prop where
  dirty : ∀ i, (s.cache.buf i).lock = some p → t.dirty i = true → s.dirty i = true
  disk : ∀ i b, (s.cache.buf i).lock = some p → (s.cache.buf i).blockno = some b →
    s.disk b = latest disk s.hist b → t.disk b = latest disk t.hist b

omit [DecidableEq Pid] in
theorem Spares.of_eq (hdirty : ∀ i, t.dirty i = true → s.dirty i = true) (hdisk : t.disk = s.disk)
    (hlatest : latest disk t.hist = latest disk s.hist) : Spares disk s t p :=
  ⟨fun i _ => hdirty i, fun i b _ _ hb => by rw [hdisk, hlatest, hb]⟩

omit [DecidableEq Pid] in
theorem ComData.spares {ph : Phase} {rest : List Op} {reg : Reg → Option (Fin NBUF)}
    (h : ComData disk g s p ph rest reg) (hcom : Com g s p ph rest reg) (hcall : t.call p = s.call p)
    (hlh : t.lh = s.lh) (hs : Spares disk s t p) : ComData disk g t p ph rest reg := by
  constructor
  · intro r i hr hi hc hd
    rw [hcall] at hc
    obtain ⟨j, hj, -, hl⟩ := hcom.regs r hr
    obtain rfl : i = j := Option.some.inj (hi.symm.trans hj)
    have hlock := hl.resolve_right fun hex => by
      obtain ⟨b, hb⟩ := hex
      exact hc b hb
    exact h.clean r i hr hi hc (hs.dirty i hlock hd)
  · intro hunpin hwritten
    obtain ⟨huse, hcopied⟩ := Phase.inUse_home hcom.suffix hunpin hwritten
    obtain ⟨i, -, hb, hl⟩ := hcom.regs .home huse
    have hlock := hl.resolve_right fun hex => by
      obtain ⟨b, hc⟩ := hex
      have hcopies := hcom.copying i b (Or.inl hc)
      rw [hcopied] at hcopies
      cases hcopies
    rw [hlh]
    exact hs.disk i _ hlock hb (h.synced hunpin hwritten)

omit [DecidableEq Pid] in
theorem ComData.fresh {ph : Phase} {reg : Reg → Option (Fin NBUF)} : ComData disk g t p ph ph.body reg := by
  refine ⟨fun r i hr => absurd hr (not_inUse_body ph r), fun hunpin hwritten => ?_⟩
  obtain ⟨huse, -⟩ := Phase.inUse_home (List.suffix_refl _) hunpin hwritten
  exact absurd huse (not_inUse_body ph _)

structure Coherent (disk : Uint → α) (g : Geometry α) (s : State Pid α) : Prop where
  data : DataInv disk s
  com : ∀ {p ph rest reg}, s.task p = .commit ph rest reg → ComData disk g s p ph rest reg

omit [DecidableEq Pid] in
/-- A step that moves no process, and is nothing to the one in `commit`. -/
theorem Coherent.client (h : Coherent disk g s) (hi : Inv g s) (hp : (s.task p).commits = false)
    (hdata : DataInv disk t) (htask : t.task = s.task) (hlh : t.lh = s.lh)
    (hcall : ∀ q, q ≠ p → t.call q = s.call q) (hspares : ∀ q, q ≠ p → Spares disk s t q) :
    Coherent disk g t := by
  refine ⟨hdata, fun {q ph rest reg} hq => ?_⟩
  rw [htask] at hq
  have hne : q ≠ p := by
    rintro rfl
    rw [hq] at hp
    cases hp
  exact (h.com hq).spares (hi.log.com hq).2 (hcall q hne) hlh (hspares q hne)

omit [DecidableEq Pid] in
/-- A step of the process in `commit`: it is the only one. -/
theorem Coherent.mine (hi : Inv g t) {ph : Phase} {rest : List Op} {reg : Reg → Option (Fin NBUF)}
    (hp : t.task p = .commit ph rest reg) (hdata : DataInv disk t) (hcom : ComData disk g t p ph rest reg) :
    Coherent disk g t := by
  refine ⟨hdata, fun {q ph' rest' reg'} hq => ?_⟩
  obtain rfl : q = p := hi.log.only (by rw [hq]; rfl) (by rw [hp]; rfl)
  obtain ⟨rfl, rfl, rfl⟩ := Task.commit.inj (hp.symm.trans hq)
  exact hcom

end Xv6.Bio
