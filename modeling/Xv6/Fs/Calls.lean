import Xv6.Fs.Acts

set_option autoImplicit false

/-! # System calls are sequences of acts

Whatever a system call does, and wherever it fails, it leaves the disk in a state that the acts lead
to and has given back every reference that it has taken. -/

namespace Xv6.Fs

open Xv6.Lib

variable {fr : Frame} {may : Panic × FS → Prop} {P : Core × Option Nat → Prop} {Q R X : Core → Prop}
  {c : Core} {tokens : List Token} {proc : Pid → Proc} {ftable : Fin NFILE → File}

/-- The acts have led to some disk, with these references left. -/
def After (fr : Frame) (X : Core → Prop) (tokens : List Token) (proc : Pid → Proc)
    (ftable : Fin NFILE → File) (s : FS) : Prop :=
  ∃ c, Sys fr c tokens proc ftable s ∧ X c

/-- No act that the call is for has happened. -/
abbrev Before (P : Core × Option Nat → Prop) (c : Core) : Prop := P (c, none)

theorem After.imp {Y : Core → Prop} (hXY : ∀ c, X c → Y c) {s : FS}
    (h : After fr X tokens proc ftable s) : After fr Y tokens proc ftable s := by
  obtain ⟨c, hs, hX⟩ := h
  exact ⟨c, hs, hXY c hX⟩

theorem triple_note (e : Event) : Triple may (Sys fr c tokens proc ftable) (note e)
    (fun _ s => Sys fr (c.note e) tokens proc ftable s) := by
  refine Triple.modify _ fun s hs => ⟨?_, hs.proc_eq, hs.ftable_eq, hs.refs.mono (fr.mono _ _)⟩
  rw [← hs.core]
  rfl

theorem triple_nlink {ip : Ip} {inum : Nat} (f : BitVec 16 → BitVec 16) :
    Triple may (Sys fr c (⟨ip, inum, true⟩ :: tokens) proc ftable)
      (change ip fun e => { e with nlink := f e.nlink })
      (fun _ s => Sys fr (c.setNlink inum (f (c.disk inum).nlink))
        (⟨ip, inum, true⟩ :: tokens) proc ftable s) := by
  by_cases hfree : (c.disk inum).type = .free
  · exact Triple.of_false fun s hs => (hs.entry (List.mem_cons_self ..)).2.2.2 hfree
  · refine triple_change (fun _ => ⟨rfl, rfl, rfl⟩) (fun e he => ?_) ⟨rfl, rfl⟩ hfree
    obtain ⟨h1, h2, h3, h4⟩ := he
    exact ⟨h1, h2, h3, by rw [h4]⟩

/-- The last thing that a system call does with an inode. -/
theorem triple_iput_after (hfree : ∀ c c', FreeStep fr.inuse c c' → X c → X c') {ip : Ip}
    {inum : Nat} {v : Bool} (hX : X c) :
    Triple may (Sys fr c (⟨ip, inum, v⟩ :: tokens) proc ftable) (iput ip)
      (fun _ s => After fr X tokens proc ftable s) := by
  refine Triple.conseq triple_iput_frees (fun _ h => h) fun _ s hs => ?_
  obtain ⟨c', hs, hf⟩ := hs
  exact ⟨c', hs, hf.keep hfree hX⟩

theorem triple_putBack (hfree : ∀ c c', FreeStep fr.inuse c c' → X c → X c') {ip : Ip} {inum : Nat}
    {v : Bool} (hX : X c) {α : Type} (a : α) {Y : α → FS → Prop}
    (hY : ∀ s, After fr X tokens proc ftable s → Y a s) :
    Triple may (Sys fr c (⟨ip, inum, v⟩ :: tokens) proc ftable)
      (iput ip >>= fun _ => pure a) Y :=
  Triple.bind (triple_iput_after hfree hX) fun _ => Triple.pure _ hY

theorem Kept.beforeFree (h : Kept fr may P Q R) (c c' : Core) (hstep : FreeStep fr.inuse c c')
    (hP : Before P c) : Before P c' := h.free hstep hP

theorem triple_namei (hlax : Lax fr may) (hkept : Kept fr may P Q R) (hP : P (c, none)) {p : Pid}
    (hp : (proc p).used = true) (path : Path) :
    Triple may (Sys fr c tokens proc ftable) (namei p path)
      (fun r s => match r with
        | none => After fr (Before P) tokens proc ftable s
        | some ip => ∃ inum v, After fr (Before P) (⟨ip, inum, v⟩ :: tokens) proc ftable s) := by
  unfold namei
  refine Triple.bind (triple_namex hlax (fun c' hf => hkept.named c' none
    (hkept.frees hf hP)) (hkept.root c none hP) hp path false) fun r =>
      Triple.pure _ fun s hs => ?_
  cases r with
  | none =>
      obtain ⟨c', hs, hf⟩ := hs
      exact ⟨c', hs, hkept.frees hf hP⟩
  | some r =>
      obtain ⟨c', inum, v, hs, hf, -⟩ := hs
      exact ⟨inum, v, c', hs, hkept.frees hf hP⟩

/-- The parent directory is locked once it has been found. -/
theorem triple_nameiparent (hlax : Lax fr may) (hkept : Kept fr may P Q R) {l : Option Nat} (hP : P (c, l))
    {p : Pid} (hp : (proc p).used = true) (path : Path) :
    Triple may (Sys fr c tokens proc ftable) (nameiparent p path)
      (fun r s => match r with
        | none => ∃ c', Sys fr c' tokens proc ftable s ∧ P (c', l)
        | some (dp, _) => ∃ c' dinum, Sys fr c' (⟨dp, dinum, true⟩ :: tokens) proc ftable s ∧
            P (c', l) ∧ (c'.disk dinum).type = .dir) := by
  unfold nameiparent
  refine Triple.conseq (triple_namex hlax (fun c' hf => hkept.named c' l
    (hkept.frees hf hP)) (hkept.root c l hP) hp path true) (fun _ h => h) fun r s hs => ?_
  cases r with
  | none =>
      obtain ⟨c', hs, hf⟩ := hs
      exact ⟨c', hs, hkept.frees hf hP⟩
  | some r =>
      obtain ⟨c', inum, v, hs, hf, hparent⟩ := hs
      obtain ⟨rfl, hdir⟩ := hparent rfl
      exact ⟨c', inum, hs, hkept.frees hf hP, hdir⟩

/-! ## `create` -/

/-- Where the name is not there, `dirlink` either enters it or does nothing. -/
theorem triple_dirlink_new (hlax : Lax fr may) {dp : Ip} {inum i : Nat} {name : Name}
    (hnew : findEntry (c.disk inum).ents name = none) :
    Triple may (Sys fr c (⟨dp, inum, true⟩ :: tokens) proc ftable) (dirlink dp name i)
      (fun ok s => Sys fr (if ok then c.enter inum name i else c)
        (⟨dp, inum, true⟩ :: tokens) proc ftable s) := by
  refine Triple.conseq (triple_dirlink hlax fun _ => Resolves.of_none hnew) (fun _ h => h)
    fun ok s hs => ?_
  cases ok with
  | true => exact (hs.1 rfl).1
  | false =>
      obtain ⟨c', hs', -, heq⟩ := hs.2 rfl
      rw [heq hnew] at hs'
      exact hs'

theorem triple_linkDots (hlax : Lax fr may) {ip dp : Ip} {inum dinum : Nat} {type : FileType}
    {major minor : BitVec 16} (h0 : inum % 2 ^ 16 ≠ 0) :
    Triple may (Sys fr (c.setDisk inum ⟨type, major, minor, 1, [], []⟩)
        (⟨ip, inum, true⟩ :: ⟨dp, dinum, true⟩ :: tokens) proc ftable) (linkDots type ip dp)
      (fun ok s => ∃ d, Sys fr (c.setDisk inum d)
          (⟨ip, inum, true⟩ :: ⟨dp, dinum, true⟩ :: tokens) proc ftable s ∧
        (ok = true → d = newInode inum dinum type major minor)) := by
  unfold linkDots
  refine Triple.ite (fun htype => ?_) fun htype => Triple.pure _ fun s hs => ⟨_, hs, fun _ => ?_⟩
  · refine Triple.bind_get fun s hs => ?_
    have hip := hs.entry (List.mem_cons_self ..)
    have hdp := hs.entry (List.mem_cons_of_mem _ (List.mem_cons_self ..))
    rw [hip.2.1, hdp.2.1]
    refine Triple.bind (Triple.conseq (triple_dirlink_new hlax (by simp [findEntry]))
      (fun t ht => ht ▸ hs) fun _ _ h => h) fun ok => ?_
    cases ok with
    | false => exact Triple.pure _ fun t ht => ⟨_, ht, by simp⟩
    | true =>
        have hdot : (c.setDisk inum ⟨type, major, minor, 1, [], []⟩).enter inum dot inum =
            c.setDisk inum ⟨type, major, minor, 1, [⟨inum % 2 ^ 16, dot⟩], []⟩ := by
          simp [Core.enter, Core.setEnts, putEntry]
        have hdotdot : (c.setDisk inum ⟨type, major, minor, 1, [⟨inum % 2 ^ 16, dot⟩], []⟩).enter inum
            dotdot dinum = c.setDisk inum (newInode inum dinum type major minor) := by
          have h0' : inum % 65536 ≠ 0 := h0
          simp [Core.enter, Core.setEnts, putEntry, emptyEntry, newInode, htype, h0']
        simp only [if_true, hdot]
        refine Triple.conseq (triple_dirlink_new hlax ?_) (fun _ h => h) fun ok t ht => ?_
        · simp [findEntry, namecmp, dot, dotdot]
        · cases ok with
          | false => exact ⟨_, ht, by simp⟩
          | true =>
              simp only [if_true, hdotdot] at ht
              exact ⟨_, ht, fun _ => rfl⟩
  · simp [newInode, htype]

theorem triple_createFail (hkept : Kept fr may P Q R) {ip dp : Ip} {inum dinum : Nat} {d : Dinode}
    (hP : P (c, none)) (hfree : (c.disk inum).type = .free)
    (hunshared : Unshared (⟨dp, dinum, true⟩ :: tokens) proc ftable ip) :
    Triple may (Sys fr (c.setDisk inum d)
        (⟨ip, inum, true⟩ :: ⟨dp, dinum, true⟩ :: tokens) proc ftable) (createFail ip dp)
      (fun r s => r = none ∧ After fr (Before P) tokens proc ftable s) := by
  unfold createFail
  by_cases hd : d.type = .free
  · refine Triple.of_false fun s hs => ?_
    have := (hs.entry (List.mem_cons_self ..)).2.2.2
    rw [Core.setDisk_self] at this
    exact this hd
  · refine Triple.bind (triple_change (d := { d with nlink := 0 }) (fun _ => ⟨rfl, rfl, rfl⟩)
      (fun e he => ?_) (by simp) hd) fun _ => ?_
    · rw [Core.setDisk_self] at he
      exact ⟨he.1, he.2.1, he.2.2.1, rfl⟩
    · rw [Core.setDisk_setDisk]
      refine Triple.bind (triple_iput_last (by simp) hunshared) fun _ => ?_
      exact triple_putBack hkept.beforeFree (hkept.act _ _ (Act.abort hfree) hP) none fun s hs => ⟨rfl, hs⟩

/-- The new inode is there, with one link. -/
def Fresh (Q : Core → Prop) (inum : Nat) (type : FileType) (c : Core) : Prop :=
  Q c ∧ (c.disk inum).type = type ∧ (c.disk inum).nlink = 1

theorem Fresh.free (hfree : ∀ c c', FreeStep fr.inuse c c' → Q c → Q c') {inum : Nat}
    {type : FileType} (c c' : Core) (hstep : FreeStep fr.inuse c c') (h : Fresh Q inum type c) :
    Fresh Q inum type c' := by
  obtain ⟨hQ, htype, hnlink⟩ := h
  refine ⟨hfree c c' hstep hQ, ?_⟩
  obtain ⟨i, -, hzero, -, rfl⟩ := hstep
  have hne : inum ≠ i := by
    rintro rfl
    rw [hnlink] at hzero
    exact absurd hzero (by decide)
  have hsame : (c.free i).disk inum = c.disk inum := Core.setDisk_of_ne _ _ hne
  rw [hsame]
  exact ⟨htype, hnlink⟩

theorem Core.create_disk {c : Core} {inum dp : Nat} (hne : dp ≠ inum) (type : FileType)
    (major minor : BitVec 16) (name : Name) : (c.create inum dp type major minor name).disk inum =
      newInode inum dp type major minor := by
  unfold Core.create
  by_cases hd : type = .dir
  · rw [if_pos hd, Core.setNlink, Core.setDisk_of_ne _ _ (Ne.symm hne)]
    show ((c.setDisk inum (newInode inum dp type major minor)).enter dp name inum).disk inum = _
    rw [Core.enter, Core.setEnts, Core.setDisk_of_ne _ _ (Ne.symm hne), Core.setDisk_self]
  · rw [if_neg hd]
    show ((c.setDisk inum (newInode inum dp type major minor)).enter dp name inum).disk inum = _
    rw [Core.enter, Core.setEnts, Core.setDisk_of_ne _ _ (Ne.symm hne), Core.setDisk_self]

/-- The part of `create` after `ialloc`. -/
theorem triple_createRest (hlax : Lax fr may) (hkept : Kept fr may P Q R) (hP : P (c, none)) {ip dp : Ip}
    {inum dinum : Nat} {type : FileType} {major minor : BitVec 16} {name : Name}
    (htype : type ≠ .free) (hdir : (c.disk dinum).type = .dir)
    (hnew : findEntry (c.disk dinum).ents name = none) (hfree : (c.disk inum).type = .free)
    (hpos : 0 < inum) (hlt : inum < c.ninodes)
    (hunshared : Unshared [⟨dp, dinum, true⟩] proc ftable ip) :
    Triple may (Sys fr (c.setDisk inum ⟨type, 0, 0, 0, [], []⟩)
        [⟨ip, inum, false⟩, ⟨dp, dinum, true⟩] proc ftable) (do
      ilock ip
      change ip fun e => { e with major := major, minor := minor, nlink := 1 }
      if ← linkDots type ip dp then do
        let s ← get
        if ← dirlink dp name (s.itable ip).inum then do
          note (.entered (s.itable dp).nlink)
          (if type = .dir then do
            note (.linked (s.itable dp).nlink)
            change dp fun e => { e with nlink := e.nlink + 1 }
          else pure ⟨⟩)
          iput dp
          pure (some ip)
        else createFail ip dp
      else createFail ip dp)
      (fun r s => match r with
        | none => After fr (Before P) [] proc ftable s
        | some ip => ∃ inum, After fr (Fresh Q inum type) [⟨ip, inum, true⟩] proc ftable s) := by
  have h0 : inum % 2 ^ 16 ≠ 0 := by
    have := hkept.bound c none hP
    omega
  have hne : dinum ≠ inum := by
    rintro rfl
    rw [hdir] at hfree
    cases hfree
  refine Triple.bind (triple_ilock hlax) fun _ => Triple.bind (triple_change
    (d := ⟨type, major, minor, 1, [], []⟩) (fun _ => ⟨rfl, rfl, rfl⟩) (fun e he => ?_) (by simp) htype)
    fun _ => ?_
  · rw [Core.setDisk_self] at he
    exact ⟨he.1, rfl, rfl, rfl⟩
  rw [Core.setDisk_setDisk]
  refine Triple.bind (triple_linkDots hlax h0) fun ok => Triple.exists fun d =>
    Triple.assume fun hd => ?_
  have hmade : ((c.create inum dinum type major minor name).disk inum).type = type ∧
      ((c.create inum dinum type major minor name).disk inum).nlink = 1 := by
    rw [Core.create_disk hne]
    exact ⟨rfl, rfl⟩
  -- both ways to createFail give the inode back and leave the directory as it was
  have hfail : ∀ d, Triple may (Sys fr (c.setDisk inum d)
      [⟨ip, inum, true⟩, ⟨dp, dinum, true⟩] proc ftable) (createFail ip dp) (fun r s => match r with
        | none => After fr (Before P) [] proc ftable s
        | some ip => ∃ inum, After fr (Fresh Q inum type) [⟨ip, inum, true⟩] proc ftable s) := by
    intro d
    refine Triple.conseq (triple_createFail hkept hP hfree hunshared) (fun _ h => h) fun r s hs => ?_
    obtain ⟨rfl, hs⟩ := hs
    exact hs
  cases ok with
  | false => exact hfail d
  | true =>
      rw [hd rfl]
      have hdisk : ((c.setDisk inum (newInode inum dinum type major minor)).disk dinum) =
          c.disk dinum := Core.setDisk_of_ne _ _ hne
      refine Triple.bind_get fun s hs => ?_
      have hip := hs.entry (List.mem_cons_self ..)
      have hdp := hs.entry (List.mem_cons_of_mem _ (List.mem_cons_self ..))
      have hnlink := hdp.1.2.2.2
      rw [hdisk] at hnlink
      rw [hip.2.1, hnlink]
      refine Triple.bind (Triple.conseq (triple_dirlink_new hlax (by rw [hdisk]; exact hnew))
        (fun t ht => (ht ▸ hs : Sys _ _ _ _ _ t).swap) fun _ _ h => h) fun ok => ?_
      cases ok with
      | false => exact Triple.conseq (hfail _) (fun t ht => ht.swap) fun _ _ h => h
      | true =>
          refine Triple.bind (triple_note _) fun _ => ?_
          refine Triple.bind (R := fun _ => Sys fr (c.create inum dinum type major minor name)
            [⟨dp, dinum, true⟩, ⟨ip, inum, true⟩] proc ftable) ?_ fun _ =>
            triple_putBack (Fresh.free hkept.madeFree) ⟨hkept.made _ _
              (Made.create hfree hpos hlt htype hdir hnew) hP, hmade.1, hmade.2⟩ (some ip)
              fun s hs => ⟨inum, hs⟩
          unfold Core.create
          by_cases hd : type = .dir
          · rw [if_pos hd, if_pos hd]
            refine Triple.bind (triple_note _) fun _ =>
              Triple.conseq (triple_nlink (fun nlink => nlink + 1)) (fun _ h => h) fun _ t ht => ?_
            simpa [Core.enter, hdisk] using ht
          · rw [if_neg hd, if_neg hd]
            exact Triple.pure _ fun t ht => ht

/-- `create` returns an inode that is referenced and locked. -/
theorem triple_create (hlax : Lax fr may) (hkept : Kept fr may P Q R) (hP : P (c, none)) {p : Pid}
    (hp : (proc p).used = true) {path : Path} {type : FileType} {major minor : BitVec 16}
    (htype : type ≠ .free) :
    Triple may (Sys fr c [] proc ftable) (create p path type major minor)
      (fun r s => match r with
        | none => After fr (Before P) [] proc ftable s
        | some ip => ∃ inum, (After fr (Before P) [⟨ip, inum, true⟩] proc ftable s ∧ type = .file) ∨
            After fr (Fresh Q inum type) [⟨ip, inum, true⟩] proc ftable s) := by
  unfold create
  refine Triple.bind (triple_nameiparent hlax hkept hP hp path) fun r => ?_
  cases r with
  | none => exact Triple.pure _ fun s hs => hs
  | some r =>
      obtain ⟨dp, name⟩ := r
      refine Triple.exists fun c => Triple.exists fun dinum => Triple.assume fun hfound => ?_
      have hP := hfound.1
      refine Triple.bind (triple_ilock hlax) fun _ => Triple.bind (triple_dirlookup hlax fun hstrict =>
        (hkept.named c none hP hstrict).resolves dinum name) fun r => ?_
      cases r with
      | some r =>
          -- the name is there
          obtain ⟨ip, off⟩ := r
          refine Triple.conseq (Triple.bind (triple_iput_after hkept.beforeFree hP) fun _ => Triple.exists fun c =>
            Triple.assume fun hP => ?_) (fun s hs => ((hs.2.2 ip off rfl).2).swap) fun _ _ h => h
          refine Triple.bind (triple_ilock hlax) fun _ => Triple.bind_get fun s hs => ?_
          refine Triple.ite (fun hfile => Triple.pure _ fun t ht => ?_) fun _ => ?_
          · subst ht
            exact ⟨_, Or.inl ⟨⟨c, hs, hP⟩, hfile.1⟩⟩
          · exact Triple.conseq (triple_putBack hkept.beforeFree hP none fun s hs => hs) (fun t ht => ht ▸ hs)
              fun _ _ h => h
      | none =>
          refine Triple.conseq (Triple.assume (c := (c.disk dinum).type = .dir ∧
            findEntry (c.disk dinum).ents name = none) fun hnew => ?_)
            (fun s hs => ⟨(hs.2.1 rfl).2, hs.1, (hs.2.1 rfl).1⟩) fun _ _ h => h
          refine Triple.bind (triple_ialloc hlax (by simp) htype) fun r => ?_
          cases r with
          | none =>
              exact Triple.conseq (triple_putBack hkept.beforeFree hP none fun s hs => hs)
                (fun s hs => hs.1 rfl) fun _ _ h => h
          | some ip =>
              refine Triple.conseq (Triple.exists fun inum => Triple.assume fun hfree => ?_)
                (fun s hs => hs.2 ip rfl) fun _ _ h => h
              refine Triple.conseq (triple_createRest hlax hkept hP htype hnew.1 hnew.2 hfree.1 hfree.2.1
                hfree.2.2.1 hfree.2.2.2) (fun _ h => h) fun r s hs => ?_
              cases r with
              | none => exact hs
              | some ip =>
                  obtain ⟨inum, hs⟩ := hs
                  exact ⟨inum, Or.inr hs⟩

/-! ## `sys_link` and `sys_unlink` -/

/-- A call that returns -1 has only come this far; any other has done what it is for. -/
def Ended (fr : Frame) (P : Core × Option Nat → Prop) (R : Core → Prop) (proc : Pid → Proc)
    (ftable : Fin NFILE → File) (r : Int) (s : FS) : Prop :=
  (r = -1 → After fr (Before P) [] proc ftable s) ∧ (r ≠ -1 → After fr R [] proc ftable s)

theorem Ended.failed {s : FS} (h : After fr (Before P) [] proc ftable s) :
    Ended fr P R proc ftable (-1) s := ⟨fun _ => h, fun hne => absurd rfl hne⟩

theorem Ended.done {s : FS} (h : After fr R [] proc ftable s) : Ended fr P R proc ftable 0 s :=
  ⟨fun heq => absurd heq (by simp), fun _ => h⟩

theorem triple_unlinkOld (hlax : Lax fr may) (hkept : Kept fr may P Q R) {ip : Ip} {inum : Nat} {v : Bool}
    (hP : P (c, some inum)) :
    Triple may (Sys fr c (⟨ip, inum, v⟩ :: tokens) proc ftable) (unlinkOld ip)
      (fun r s => r = -1 ∧ After fr (Before P) tokens proc ftable s) := by
  unfold unlinkOld
  refine Triple.bind (triple_ilock hlax) fun _ => ?_
  by_cases hfree : (c.disk inum).type = .free
  · exact Triple.of_false fun s hs => (hs.entry (List.mem_cons_self ..)).2.2.2 hfree
  · refine Triple.bind (triple_nlink fun nlink => nlink - 1) fun _ => ?_
    exact triple_putBack hkept.beforeFree (hkept.act _ _ (Act.lower hfree) hP) (-1)
      fun s hs => ⟨rfl, hs⟩

/-- The part of `sys_link` after the second path has been followed. -/
theorem triple_linkNew (hlax : Lax fr may) (hkept : Kept fr may P Q R) {ip dp : Ip} {inum dinum : Nat}
    {name : Name} (hP : P (c, some inum)) :
    Triple may (Sys fr c [⟨dp, dinum, true⟩, ⟨ip, inum, true⟩] proc ftable) (do
      ilock dp
      let s ← get
      if ← dirlink dp name (s.itable ip).inum then do
        note (.entered (s.itable dp).nlink)
        iput dp
        iput ip
        pure (0 : Int)
      else do
        iput dp
        unlinkOld ip) (Ended fr P R proc ftable) := by
  refine Triple.bind (triple_ilock hlax) fun _ => Triple.bind_get fun s hs => ?_
  have hip := hs.entry (List.mem_cons_of_mem _ (List.mem_cons_self ..))
  have hdp := hs.entry (List.mem_cons_self ..)
  rw [hip.2.1, hdp.1.2.2.2]
  refine Triple.bind (Triple.conseq (triple_dirlink hlax fun hstrict =>
    (hkept.named c _ hP hstrict).resolves dinum name) (fun t ht => ht ▸ hs) fun _ _ h => h) fun ok => ?_
  cases ok with
  | true =>
      refine Triple.conseq (Triple.assume (c := (c.disk dinum).type = .dir ∧
        findEntry (c.disk dinum).ents name = none) fun hnew => ?_) (fun s hs => hs.1 rfl)
        fun _ _ h => h
      refine Triple.bind (triple_note _) fun _ => ?_
      refine Triple.bind (triple_iput_after hkept.doneFree (hkept.done _ _ (Done.link hnew.1 hnew.2) hP))
        fun _ => Triple.exists fun c => Triple.assume fun hR => ?_
      exact triple_putBack hkept.doneFree hR 0 fun s hs => Ended.done hs
  | false =>
      refine Triple.conseq (Triple.exists fun c' => Triple.assume fun hf => ?_) (fun s hs => hs.2 rfl)
        fun _ _ h => h
      refine Triple.bind triple_iput_frees fun _ => Triple.exists fun c'' => Triple.assume fun hf' => ?_
      exact Triple.conseq (triple_unlinkOld hlax hkept (hkept.frees (hf.1.trans hf') hP))
        (fun _ h => h) fun r s hs => hs.1 ▸ Ended.failed hs.2

theorem triple_sysLink (hlax : Lax fr may) (hkept : Kept fr may P Q R) (hP : P (c, none)) {p : Pid}
    (hp : (proc p).used = true) (old new : Option Path) :
    Triple may (Sys fr c [] proc ftable) (sysLink p old new)
      (Ended fr P R proc ftable) := by
  unfold sysLink
  cases old with
  | none => exact Triple.pure _ fun s hs => Ended.failed ⟨c, hs, hP⟩
  | some old =>
      cases new with
      | none => exact Triple.pure _ fun s hs => Ended.failed ⟨c, hs, hP⟩
      | some new =>
          refine Triple.bind (triple_namei hlax hkept hP hp old) fun r => ?_
          cases r with
          | none => exact Triple.pure _ fun s hs => Ended.failed hs
          | some ip =>
              refine Triple.exists fun inum => Triple.exists fun v => Triple.exists fun c =>
                Triple.assume fun hP => ?_
              refine Triple.bind (triple_ilock hlax) fun _ => Triple.bind_get fun s hs => ?_
              obtain ⟨hcopy, -, -, halloc⟩ := hs.entry (List.mem_cons_self ..)
              refine Triple.ite (fun _ => ?_) fun hdir => ?_
              · exact Triple.conseq (triple_putBack hkept.beforeFree hP (-1) fun s hs => Ended.failed hs) (fun t ht => ht ▸ hs)
                  fun _ _ h => h
              · rw [hcopy.1] at hdir
                rw [hcopy.2.2.2]
                refine Triple.bind (Triple.conseq (triple_note _) (fun t ht => ht ▸ hs)
                  fun _ _ h => h) fun _ => Triple.bind (triple_nlink fun nlink => nlink + 1) fun _ => ?_
                have hP := hkept.act _ _ (Act.raise halloc hdir) hP
                refine Triple.bind (triple_nameiparent hlax hkept hP hp new) fun r => ?_
                cases r with
                | none =>
                    refine Triple.exists fun c => Triple.assume fun hP => ?_
                    exact Triple.conseq (triple_unlinkOld hlax hkept hP) (fun _ h => h)
                      fun r s hs => hs.1 ▸ Ended.failed hs.2
                | some r =>
                    obtain ⟨dp, name⟩ := r
                    refine Triple.exists fun c => Triple.exists fun dinum =>
                      Triple.assume fun hfound => ?_
                    exact triple_linkNew hlax hkept hfound.1

/-- The part of `sys_unlink` that takes the name away. -/
theorem triple_unlinkEntry (hlax : Lax fr may) (hkept : Kept fr may P Q R) (hP : P (c, none)) {ip dp : Ip}
    {inum dinum off : Nat} {name : Name} {type : FileType} (hdir : (c.disk dinum).type = .dir)
    (hfind : findEntry (c.disk dinum).ents name = some off)
    (hinum : inum = ((c.disk dinum).ents.getD off ⟨0, []⟩).inum) (hdot : name ≠ dot)
    (hdotdot : name ≠ dotdot) (htype : type = (c.disk inum).type)
    (hnlink : 1 ≤ (c.disk inum).nlink.toInt)
    (hempty : (c.disk inum).type = .dir → isdirempty (c.disk inum).ents = true) :
    Triple may (Sys fr c [⟨ip, inum, true⟩, ⟨dp, dinum, true⟩] proc ftable) (do
      if ← writei dp off ⟨0, []⟩ then do
        (if type = .dir then change dp fun e => { e with nlink := e.nlink - 1 } else pure ⟨⟩)
        iput dp
        change ip fun e => { e with nlink := e.nlink - 1 }
        iput ip
        pure (0 : Int)
      else stop .unlinkWritei) (Ended fr P R proc ftable) := by
  by_cases hfree : (c.disk inum).type = .free
  · exact Triple.of_false fun s hs => (hs.entry (List.mem_cons_self ..)).2.2.2 hfree
  refine Triple.conseq (Triple.bind (Triple.conseq triple_writei (fun _ h => h) fun _ _ h => h.1)
    fun ok => ?_) (fun s hs => hs.swap) fun _ _ h => h
  cases ok with
  | false => exact triple_stop _ fun _ _ => hlax.other _ _ (by simp) (by simp)
  | true =>
      let c₁ := c.setEnts dinum (putEntry (c.disk dinum).ents off ⟨0, []⟩)
      let c₂ := if (c.disk inum).type = .dir then c₁.setNlink dinum ((c₁.disk dinum).nlink - 1) else c₁
      have hact : R (c₂.setNlink inum ((c₂.disk inum).nlink - 1)) := by
        have := hkept.done _ _ (Done.unlink hdir hfind hdot hdotdot (hinum ▸ hfree) (hinum ▸ hnlink)
          (hinum ▸ hempty)) hP
        unfold Core.unlink at this
        rw [← hinum] at this
        exact this
      refine Triple.bind (R := fun _ => Sys fr c₂ [⟨dp, dinum, true⟩, ⟨ip, inum, true⟩] proc
        ftable) ?_ fun _ => Triple.bind triple_iput fun _ => ?_
      · rw [htype]
        simp only [c₂]
        by_cases hd : (c.disk inum).type = .dir
        · rw [if_pos hd, if_pos hd]
          exact triple_nlink fun nlink => nlink - 1
        · rw [if_neg hd, if_neg hd]
          exact Triple.pure _ fun t ht => ht
      · refine Triple.or ?_ (Triple.assume fun hdp => ?_)
        · refine Triple.bind (triple_nlink fun nlink => nlink - 1) fun _ => ?_
          exact triple_putBack hkept.doneFree hact 0 fun s hs => Ended.done hs
        · -- the directory itself has gone with its last reference
          by_cases hne : inum = dinum
          · refine Triple.of_false fun s hs => ?_
            have := (hs.entry (List.mem_cons_self ..)).2.2.2
            rw [hne, Core.free, Core.setDisk_self] at this
            exact this rfl
          · refine Triple.bind (triple_nlink fun nlink => nlink - 1) fun _ => ?_
            rw [Core.free_setNlink hne fun nlink => nlink - 1]
            have hsame : (c₂.setNlink inum ((c₂.disk inum).nlink - 1)).disk dinum = c₂.disk dinum :=
              Core.setDisk_of_ne _ _ (Ne.symm hne)
            have hstep : FreeStep fr.inuse (c₂.setNlink inum ((c₂.disk inum).nlink - 1))
                ((c₂.setNlink inum ((c₂.disk inum).nlink - 1)).free dinum) := by
              refine ⟨dinum, ?_, ?_, hdp.2.2, rfl⟩
              · rw [hsame]
                exact hdp.1
              · rw [hsame]
                exact hdp.2.1
            exact triple_putBack hkept.doneFree (hkept.doneFree _ _ hstep hact) 0
              fun s hs => Ended.done hs

theorem triple_sysUnlink (hlax : Lax fr may) (hkept : Kept fr may P Q R) (hP : P (c, none)) {p : Pid}
    (hp : (proc p).used = true) (path : Option Path) :
    Triple may (Sys fr c [] proc ftable) (sysUnlink p path)
      (Ended fr P R proc ftable) := by
  unfold sysUnlink
  cases path with
  | none => exact Triple.pure _ fun s hs => Ended.failed ⟨c, hs, hP⟩
  | some path =>
      refine Triple.bind (triple_nameiparent hlax hkept hP hp path) fun r => ?_
      cases r with
      | none => exact Triple.pure _ fun s hs => Ended.failed hs
      | some r =>
          obtain ⟨dp, name⟩ := r
          refine Triple.exists fun c => Triple.exists fun dinum => Triple.assume fun hfound => ?_
          obtain ⟨hP, hdir⟩ := hfound
          refine Triple.bind (triple_ilock hlax) fun _ => ?_
          refine Triple.ite (fun _ => triple_putBack hkept.beforeFree hP (-1) fun s hs => Ended.failed hs) fun hname => ?_
          refine Triple.bind (triple_dirlookup hlax fun hstrict =>
            (hkept.named c none hP hstrict).resolves dinum name) fun r => ?_
          cases r with
          | none =>
              exact Triple.conseq (triple_putBack hkept.beforeFree hP (-1) fun s hs => Ended.failed hs)
                (fun s hs => (hs.2.1 rfl).2) fun _ _ h => h
          | some r =>
              obtain ⟨ip, off⟩ := r
              refine Triple.conseq (Triple.assume (c := findEntry (c.disk dinum).ents name = some off)
                fun hfind => ?_) (fun s hs => ⟨(hs.2.2 ip off rfl).2, (hs.2.2 ip off rfl).1⟩)
                fun _ _ h => h
              refine Triple.bind (triple_ilock hlax) fun _ => Triple.bind_get fun s hs => ?_
              obtain ⟨hcopy, hinum, -, halloc⟩ := hs.entry (List.mem_cons_self ..)
              simp only [namecmp, Bool.or_eq_true, decide_eq_true_eq, not_or] at hname
              dsimp only
              rw [hcopy.2.2.2, hcopy.1, hinum, hs.disk]
              refine Triple.ite (fun hlow => triple_stop _ fun t ht => ?_) fun hlow => ?_
              · subst ht
                obtain ⟨rfl, -, -, -⟩ := hs
                exact hkept.linked t dinum off name hP hdir hfind hname.1 hname.2 halloc hlow
              refine Triple.ite (fun _ => ?_) fun hempty => ?_
              · refine Triple.conseq (Triple.bind (triple_iput_after hkept.beforeFree hP) fun _ =>
                  Triple.exists fun c => Triple.assume fun hP => ?_) (fun t ht => ht ▸ hs) fun _ _ h => h
                exact triple_putBack hkept.beforeFree hP (-1) fun s hs => Ended.failed hs
              · refine Triple.conseq (triple_unlinkEntry hlax hkept hP hdir hfind rfl hname.1 hname.2 rfl
                  (by omega) fun hd => ?_) (fun t ht => ht ▸ hs) fun _ _ h => h
                by_contra hne
                exact hempty ⟨hd, by simpa using hne⟩

end Xv6.Fs
