import Xv6.Lib.Count
import Xv6.Fs.Model

set_option autoImplicit false

/-! # References to inodes

`Sys` says what holds between two steps inside a system call: which disk there is, which references
the call holds itself, and that the inode table agrees with both. Each function of `fs.c` is
described by what it does to the disk and to the references, and later proofs do not look at the
inode table. -/

namespace Xv6.Fs

open Xv6.Lib

/-- What of the state outlives the system calls, apart from references. -/
structure Core where
  ninodes : Nat
  disk : Nat → Dinode
  events : List Event

def FS.core (s : FS) : Core := ⟨s.ninodes, s.disk, s.events⟩

def Core.setDisk (c : Core) (inum : Nat) (d : Dinode) : Core :=
  { c with disk := Function.update c.disk inum d }

def Core.note (c : Core) (e : Event) : Core := { c with events := e :: c.events }

/-- What `iput` leaves of an inode without links. -/
def Dinode.freed (d : Dinode) : Dinode := { d.trunc with type := .free }

def Core.free (c : Core) (inum : Nat) : Core :=
  (c.note (.freed inum (isParent c.ninodes c.disk inum))).setDisk inum (c.disk inum).freed

@[simp] theorem Core.note_disk (c : Core) (e : Event) : (c.note e).disk = c.disk := rfl

@[simp] theorem Core.setDisk_self (c : Core) (inum : Nat) (d : Dinode) :
    (c.setDisk inum d).disk inum = d := Function.update_self ..

theorem Core.setDisk_of_ne (c : Core) {inum i : Nat} (d : Dinode) (h : i ≠ inum) :
    (c.setDisk inum d).disk i = c.disk i := Function.update_of_ne h ..

@[simp] theorem Core.setDisk_setDisk (c : Core) (inum : Nat) (d e : Dinode) :
    (c.setDisk inum d).setDisk inum e = c.setDisk inum e := by
  simp [Core.setDisk]

/-! ## The references -/

/-- A reference that the running system call holds; `valid`: it has locked the inode before. -/
structure Token where
  ip : Ip
  inum : Nat
  valid : Bool

/-- The working directories and the open files that point to `ip`. -/
def Holds (proc : Pid → Proc) (ftable : Fin NFILE → File) (ip : Ip) : Pid ⊕ Fin NFILE → Prop
  | .inl p => (proc p).used = true ∧ (proc p).cwd = ip
  | .inr f => 0 < (ftable f).ref ∧ (ftable f).type ≠ .none ∧ (ftable f).ip = ip

/-- The entry is a copy of what is on disk. -/
def Copy (e : Inode) (d : Dinode) : Prop :=
  e.type = d.type ∧ e.major = d.major ∧ e.minor = d.minor ∧ e.nlink = d.nlink

/-- The references to `ip` that the system call holds. -/
def held (tokens : List Token) (ip : Ip) : Nat := tokens.countP fun t => decide (t.ip = ip)

/-- What is known of a run from outside: with a `strict` history every inode that is referenced is
    known to be allocated; a working directory or an open file refers to each inode `inuse`. -/
structure Frame where
  strict : List Event → Prop
  inuse : Nat → Prop
  mono : ∀ e events, strict (e :: events) → strict events

/-- The inode table. -/
structure Refs (inuse : Nat → Prop) (strict : Prop) (disk : Nat → Dinode) (tokens : List Token)
    (proc : Pid → Proc) (ftable : Fin NFILE → File) (itable : Ip → Inode) : Prop where
  count : ∀ ip, ∃ n, Counts (Holds proc ftable ip) n ∧
    (itable ip).ref = n + held tokens ip
  uniq : ∀ ip jp, 0 < (itable ip).ref → 0 < (itable jp).ref →
    (itable ip).inum = (itable jp).inum → ip = jp
  copy : ∀ ip, 0 < (itable ip).ref → (itable ip).valid = true →
    Copy (itable ip) (disk (itable ip).inum)
  alloc : ∀ ip, 0 < (itable ip).ref →
    ((itable ip).valid = true ∨ (∃ h, Holds proc ftable ip h) ∨ strict) →
    (disk (itable ip).inum).type ≠ .free
  token : ∀ t ∈ tokens, (itable t.ip).inum = t.inum ∧
    (t.valid = true → (itable t.ip).valid = true)
  used : ∀ i, inuse i → ∃ ip h, Holds proc ftable ip h ∧ (itable ip).inum = i

/-- The state inside a system call. -/
structure Sys (fr : Frame) (c : Core) (tokens : List Token) (proc : Pid → Proc)
    (ftable : Fin NFILE → File) (s : FS) : Prop where
  core : s.core = c
  proc_eq : s.proc = proc
  ftable_eq : s.ftable = ftable
  refs : Refs fr.inuse (fr.strict c.events) c.disk tokens proc ftable s.itable

variable {inuse : Nat → Prop} {strict : Prop} {fr : Frame} {c : Core} {tokens : List Token} {proc : Pid → Proc}
  {ftable : Fin NFILE → File} {s : FS}

theorem Sys.disk (h : Sys fr c tokens proc ftable s) : s.disk = c.disk := by
  rw [← h.core]
  rfl

@[simp] theorem held_nil (ip : Ip) : held [] ip = 0 := rfl

@[simp] theorem held_cons_self (ip : Ip) (inum : Nat) (valid : Bool) (tokens : List Token) :
    held (⟨ip, inum, valid⟩ :: tokens) ip = held tokens ip + 1 := by
  simp [held]

theorem held_cons_of_ne {t : Token} {ip : Ip} (h : t.ip ≠ ip) (tokens : List Token) :
    held (t :: tokens) ip = held tokens ip := by
  simp [held, h]

theorem held_pos {t : Token} (ht : t ∈ tokens) : 0 < held tokens t.ip :=
  List.countP_pos_iff.2 ⟨t, ht, by simp⟩

theorem Refs.ref_pos {disk : Nat → Dinode} {itable : Ip → Inode}
    (h : Refs inuse strict disk tokens proc ftable itable) {t : Token} (ht : t ∈ tokens) :
    0 < (itable t.ip).ref := by
  obtain ⟨n, -, hn⟩ := h.count t.ip
  have hpos := held_pos ht
  omega

theorem Refs.perm {disk : Nat → Dinode} {itable : Ip → Inode} {tokens' : List Token}
    (h : Refs inuse strict disk tokens proc ftable itable) (hp : tokens.Perm tokens') :
    Refs inuse strict disk tokens' proc ftable itable := by
  refine ⟨fun ip => ?_, h.uniq, h.copy, h.alloc, fun t ht => h.token t (hp.mem_iff.2 ht), h.used⟩
  obtain ⟨n, hc, hn⟩ := h.count ip
  exact ⟨n, hc, by rw [hn, held, held, hp.countP_eq]⟩

theorem Refs.mono {disk : Nat → Dinode} {itable : Ip → Inode} {strict' : Prop}
    (h : Refs inuse strict disk tokens proc ftable itable) (hmono : strict' → strict) :
    Refs inuse strict' disk tokens proc ftable itable :=
  ⟨h.count, h.uniq, h.copy, fun ip hpos hor => h.alloc ip hpos (hor.imp_right (Or.imp_right hmono)),
    h.token, h.used⟩

theorem Refs.swap {disk : Nat → Dinode} {itable : Ip → Inode} {t u : Token}
    (h : Refs inuse strict disk (t :: u :: tokens) proc ftable itable) :
    Refs inuse strict disk (u :: t :: tokens) proc ftable itable := h.perm (List.Perm.swap ..)

theorem Sys.perm {tokens' : List Token} (h : Sys fr c tokens proc ftable s)
    (hp : tokens.Perm tokens') : Sys fr c tokens' proc ftable s :=
  ⟨h.core, h.proc_eq, h.ftable_eq, h.refs.perm hp⟩

theorem Sys.swap {t u : Token} (h : Sys fr c (t :: u :: tokens) proc ftable s) :
    Sys fr c (u :: t :: tokens) proc ftable s := h.perm (List.Perm.swap ..)

section Table

variable {disk disk' : Nat → Dinode} {itable : Ip → Inode} {tokens' : List Token}

/-- One entry of the inode table changes, and with it perhaps the disk and the tokens. -/
theorem Refs.update (h : Refs inuse strict disk tokens proc ftable itable) (ip : Ip) {e : Inode}
    (hcount : ∃ n, Counts (Holds proc ftable ip) n ∧ e.ref = n + held tokens' ip)
    (hothers : ∀ jp, jp ≠ ip → held tokens' jp = held tokens jp)
    (huniq : ∀ jp, jp ≠ ip → 0 < (itable jp).ref → 0 < e.ref → (itable jp).inum ≠ e.inum)
    (hdisk : ∀ jp, jp ≠ ip → 0 < (itable jp).ref → disk' (itable jp).inum = disk (itable jp).inum)
    (hcopy : e.valid = true → 0 < e.ref → Copy e (disk' e.inum))
    (halloc : 0 < e.ref → (e.valid = true ∨ (∃ h, Holds proc ftable ip h) ∨ strict) →
      (disk' e.inum).type ≠ .free)
    (htoken : ∀ t ∈ tokens', t.ip = ip → e.inum = t.inum ∧ (t.valid = true → e.valid = true))
    (hkeep : ∀ t ∈ tokens', t.ip ≠ ip → t ∈ tokens)
    (hinum : (∃ h, Holds proc ftable ip h) → e.inum = (itable ip).inum) :
    Refs inuse strict disk' tokens' proc ftable (Function.update itable ip e) := by
  refine ⟨fun jp => ?_, fun jp kp hj hk heq => ?_, fun jp hj hv => ?_, fun jp hj hor => ?_,
    fun t ht => ?_, fun i hi => ?_⟩
  · by_cases hjp : jp = ip
    · subst hjp
      simpa using hcount
    · obtain ⟨n, hn, href⟩ := h.count jp
      exact ⟨n, hn, by rw [Function.update_of_ne hjp, href, hothers jp hjp]⟩
  · by_cases hjp : jp = ip
    · by_cases hkp : kp = ip
      · rw [hjp, hkp]
      · subst hjp
        rw [Function.update_self] at hj heq
        rw [Function.update_of_ne hkp] at hk heq
        exact absurd heq.symm (huniq kp hkp hk hj)
    · rw [Function.update_of_ne hjp] at hj heq
      by_cases hkp : kp = ip
      · subst hkp
        rw [Function.update_self] at hk heq
        exact absurd heq (huniq jp hjp hj hk)
      · rw [Function.update_of_ne hkp] at hk heq
        exact h.uniq jp kp hj hk heq
  · by_cases hjp : jp = ip
    · subst hjp
      rw [Function.update_self] at hj hv ⊢
      exact hcopy hv hj
    · rw [Function.update_of_ne hjp] at hj hv ⊢
      rw [hdisk jp hjp hj]
      exact h.copy jp hj hv
  · by_cases hjp : jp = ip
    · subst hjp
      rw [Function.update_self] at hj hor ⊢
      exact halloc hj hor
    · rw [Function.update_of_ne hjp] at hj hor ⊢
      rw [hdisk jp hjp hj]
      exact h.alloc jp hj hor
  · by_cases hip : t.ip = ip
    · have := htoken t ht hip
      rw [hip, Function.update_self]
      exact this
    · rw [Function.update_of_ne hip]
      exact h.token t (hkeep t ht hip)
  · obtain ⟨jp, hd, hh, rfl⟩ := h.used i hi
    refine ⟨jp, hd, hh, ?_⟩
    by_cases hjp : jp = ip
    · subst hjp
      rw [Function.update_self]
      exact hinum ⟨hd, hh⟩
    · rw [Function.update_of_ne hjp]

/-- A further reference to an inode that is in the table. -/
theorem Refs.acquire (h : Refs inuse strict disk tokens proc ftable itable) {ip : Ip}
    (hpos : 0 < (itable ip).ref) :
    Refs inuse strict disk (⟨ip, (itable ip).inum, false⟩ :: tokens) proc ftable
      (Function.update itable ip { itable ip with ref := (itable ip).ref + 1 }) := by
  refine h.update ip ?_ (fun jp hjp => held_cons_of_ne (Ne.symm hjp) _) (fun jp hjp hj _ heq => ?_)
    (fun _ _ _ => rfl) (fun hv _ => h.copy ip hpos hv) (fun _ hor => h.alloc ip hpos hor)
    (fun t ht hip => ?_) (fun t ht hip => ?_) fun _ => rfl
  · obtain ⟨n, hn, href⟩ := h.count ip
    exact ⟨n, hn, by simp only [held_cons_self]; omega⟩
  · exact hjp (h.uniq jp ip hj hpos heq)
  · rcases List.mem_cons.1 ht with rfl | ht
    · exact ⟨rfl, by simp⟩
    · rw [← hip]
      exact h.token t ht
  · rcases List.mem_cons.1 ht with rfl | ht
    · exact absurd rfl hip
    · exact ht

/-- The first reference to an inode, in an entry that was not used. -/
theorem Refs.recycle (h : Refs inuse strict disk tokens proc ftable itable) {ip : Ip} {inum : Nat}
    (hzero : (itable ip).ref = 0) (hnew : ∀ jp, 0 < (itable jp).ref → (itable jp).inum ≠ inum)
    (halloc : strict → (disk inum).type ≠ .free) :
    Refs inuse strict disk (⟨ip, inum, false⟩ :: tokens) proc ftable
      (Function.update itable ip { itable ip with inum := inum, ref := 1, valid := false }) := by
  obtain ⟨n, hn, href⟩ := h.count ip
  have hn0 : n = 0 := by omega
  have hfree : held tokens ip = 0 := by omega
  refine h.update ip ⟨0, hn0 ▸ hn, by simp [hfree]⟩ (fun jp hjp => held_cons_of_ne (Ne.symm hjp) _)
    (fun jp _ hj _ => hnew jp hj) (fun _ _ _ => rfl) (fun hv => by simp at hv)
    (fun _ hor => ?_) (fun t ht hip => ?_) (fun t ht hip => ?_)
    fun hex => hex.elim fun hd hh => absurd hh ((hn.eq_zero_iff).1 hn0 hd)
  · rcases hor with hv | ⟨hd, hh⟩ | hs
    · simp at hv
    · exact absurd hh ((hn.eq_zero_iff).1 hn0 hd)
    · exact halloc hs
  · rcases List.mem_cons.1 ht with rfl | ht
    · exact ⟨rfl, by simp⟩
    · have := held_pos ht
      rw [hip] at this
      omega
  · rcases List.mem_cons.1 ht with rfl | ht
    · exact absurd rfl hip
    · exact ht

/-- The entry is filled from the disk. -/
theorem Refs.load {ip : Ip} {inum : Nat} {v : Bool}
    (h : Refs inuse strict disk (⟨ip, inum, v⟩ :: tokens) proc ftable itable)
    (halloc : (disk inum).type ≠ .free) :
    Refs inuse strict disk (⟨ip, inum, true⟩ :: tokens) proc ftable
      (Function.update itable ip { (itable ip).load (disk inum) with valid := true }) := by
  have hpos : 0 < (itable ip).ref := h.ref_pos (t := ⟨ip, inum, v⟩) (List.mem_cons_self ..)
  have hinum : (itable ip).inum = inum := (h.token ⟨ip, inum, v⟩ (List.mem_cons_self ..)).1
  refine h.update ip ?_ (fun jp hjp => ?_) (fun jp hjp hj _ heq => ?_) (fun _ _ _ => rfl)
    (fun _ _ => ?_) (fun _ _ => ?_) (fun t ht hip => ?_) (fun t ht hip => ?_) fun _ => rfl
  · obtain ⟨n, hn, href⟩ := h.count ip
    exact ⟨n, hn, by simpa [Inode.load] using href⟩
  · rw [held_cons_of_ne (Ne.symm hjp), held_cons_of_ne (Ne.symm hjp)]
  · exact hjp (h.uniq jp ip hj hpos heq)
  · simp [Copy, Inode.load, hinum]
  · simpa [Inode.load, hinum] using halloc
  · rcases List.mem_cons.1 ht with rfl | ht
    · exact ⟨hinum, fun _ => rfl⟩
    · refine ⟨?_, fun _ => rfl⟩
      rw [← (h.token t (List.mem_cons_of_mem _ ht)).1, hip]
      rfl
  · rcases List.mem_cons.1 ht with rfl | ht
    · exact absurd rfl hip
    · exact List.mem_cons_of_mem _ ht

/-- The entry and the inode on disk are changed together. -/
theorem Refs.change {ip : Ip} {inum : Nat} {e : Inode} {d : Dinode}
    (h : Refs inuse strict disk (⟨ip, inum, true⟩ :: tokens) proc ftable itable)
    (hkeep : e.inum = (itable ip).inum ∧ e.ref = (itable ip).ref ∧ e.valid = (itable ip).valid)
    (hcopy : Copy e d) (halloc : d.type ≠ .free) :
    Refs inuse strict (Function.update disk inum d) (⟨ip, inum, true⟩ :: tokens) proc ftable
      (Function.update itable ip e) := by
  have hpos : 0 < (itable ip).ref := h.ref_pos (t := ⟨ip, inum, true⟩) (List.mem_cons_self ..)
  have htok := h.token ⟨ip, inum, true⟩ (List.mem_cons_self ..)
  have hinum : e.inum = inum := hkeep.1.trans htok.1
  refine h.update ip ?_ (fun _ _ => rfl) (fun jp hjp hj _ heq => ?_) (fun jp hjp hj => ?_)
    (fun _ _ => ?_) (fun _ _ => ?_) (fun t ht hip => ?_) (fun t ht _ => ht) fun _ => hkeep.1
  · obtain ⟨n, hn, href⟩ := h.count ip
    exact ⟨n, hn, hkeep.2.1.trans href⟩
  · exact hjp (h.uniq jp ip hj hpos (heq.trans hkeep.1))
  · refine Function.update_of_ne (fun heq => hjp (h.uniq jp ip hj hpos ?_)) ..
    exact heq.trans htok.1.symm
  · rw [hinum, Function.update_self]
    exact hcopy
  · rw [hinum, Function.update_self]
    exact halloc
  · have := h.token t ht
    rw [hip] at this
    rw [hkeep.1, hkeep.2.2]
    exact this

/-- A reference is given back; others may be left. -/
theorem Refs.release {ip : Ip} {inum : Nat} {v : Bool}
    (h : Refs inuse strict disk (⟨ip, inum, v⟩ :: tokens) proc ftable itable) :
    Refs inuse strict disk tokens proc ftable
      (Function.update itable ip { itable ip with ref := (itable ip).ref - 1 }) := by
  have hpos : 0 < (itable ip).ref := h.ref_pos (t := ⟨ip, inum, v⟩) (List.mem_cons_self ..)
  refine h.update ip ?_ (fun jp hjp => (held_cons_of_ne (Ne.symm hjp) _).symm)
    (fun jp hjp hj _ heq => hjp (h.uniq jp ip hj hpos heq)) (fun _ _ _ => rfl)
    (fun hv _ => h.copy ip hpos hv) (fun _ hor => h.alloc ip hpos hor) (fun t ht hip => ?_)
    (fun t ht _ => List.mem_cons_of_mem _ ht) fun _ => rfl
  · obtain ⟨n, hn, href⟩ := h.count ip
    rw [held_cons_self] at href
    exact ⟨n, hn, by simp only; omega⟩
  · rw [← hip]
    exact h.token t (List.mem_cons_of_mem _ ht)

/-- The last reference is given back and the inode freed. -/
theorem Refs.free {ip : Ip} {inum : Nat} {v : Bool} {e : Inode} {d : Dinode}
    (h : Refs inuse strict disk (⟨ip, inum, v⟩ :: tokens) proc ftable itable)
    (hone : (itable ip).ref = 1) (hzero : e.ref = 0) :
    Refs inuse strict (Function.update disk inum d) tokens proc ftable (Function.update itable ip e) ∧
      (∀ h, ¬ Holds proc ftable ip h) ∧ held tokens ip = 0 := by
  have hpos : 0 < (itable ip).ref := by omega
  have htok := h.token ⟨ip, inum, v⟩ (List.mem_cons_self ..)
  obtain ⟨n, hn, href⟩ := h.count ip
  rw [held_cons_self] at href
  have hn0 : n = 0 := by omega
  have hheld : held tokens ip = 0 := by omega
  refine ⟨h.update ip ⟨0, hn0 ▸ hn, by omega⟩ (fun jp hjp => (held_cons_of_ne (Ne.symm hjp) _).symm)
    (fun _ _ _ hpos => by omega) (fun jp hjp hj => ?_) (fun _ hpos => by omega)
    (fun hpos => by omega) (fun t ht hip => ?_) (fun t ht _ => List.mem_cons_of_mem _ ht)
    (fun hex => ?_), (hn.eq_zero_iff).1 hn0, hheld⟩
  · refine Function.update_of_ne (fun heq => hjp (h.uniq jp ip hj hpos ?_)) ..
    exact heq.trans htok.1.symm
  · have := held_pos ht
    rw [hip] at this
    omega
  · obtain ⟨hd, hh⟩ := hex
    exact absurd hh ((hn.eq_zero_iff).1 hn0 hd)

end Table

end Xv6.Fs
