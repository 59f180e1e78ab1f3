import Xv6.Fs.Calls

set_option autoImplicit false

/-! # Open files and working directories

Between system calls every reference to an inode is a working directory or an open file, and every
reference to an open file is a descriptor. -/

namespace Xv6.Fs

open Xv6.Lib

variable {fr : Frame} {may : Panic × FS → Prop} {P : Core × Option Nat → Prop} {Q R : Core → Prop}

/-- The descriptors that refer to `f`. -/
def Descr (proc : Pid → Proc) (f : Fin NFILE) (d : Pid × Fin NOFILE) : Prop :=
  (proc d.1).ofile d.2 = some f

/-- The file table agrees with the descriptors. -/
structure FileRefs (proc : Pid → Proc) (ftable : Fin NFILE → File) : Prop where
  count : ∀ f, Counts (Descr proc f) (ftable f).ref
  closed : ∀ f, (ftable f).ref = 0 → (ftable f).type = .none

/-- A process that is gone has no descriptors. -/
def Idle (proc : Pid → Proc) (p : Pid) : Prop :=
  (proc p).used = false → ∀ fd, (proc p).ofile fd = none

/-- What holds between two system calls. -/
structure Good (fr : Frame) (R : Core → Prop) (s : FS) : Prop where
  refs : Refs fr.inuse (fr.strict s.events) s.disk [] s.proc s.ftable s.itable
  kept : R s.core
  files : FileRefs s.proc s.ftable
  idle : ∀ p, Idle s.proc p

theorem Good.sys {s : FS} (h : Good fr R s) :
    Sys fr s.core [] s.proc s.ftable s := ⟨rfl, rfl, rfl, h.refs⟩

/-- A system call that changes neither descriptors nor working directories. -/
theorem Good.of_after {s : FS} {proc : Pid → Proc} {ftable : Fin NFILE → File}
    (h : After fr R [] proc ftable s) (hfiles : FileRefs proc ftable) (hidle : ∀ p, Idle proc p) :
    Good fr R s := by
  obtain ⟨c, hs, hR⟩ := h
  obtain ⟨rfl, rfl, rfl, hrefs⟩ := hs
  exact ⟨hrefs, hR, hfiles, hidle⟩

/-! ## A reference changes hands -/

section Holders

variable {inuse : Nat → Prop} {strict : Prop} {disk : Nat → Dinode} {itable : Ip → Inode} {tokens : List Token}
  {proc proc' : Pid → Proc} {ftable ftable' : Fin NFILE → File}

theorem Refs.holds_congr (h : Refs inuse strict disk tokens proc ftable itable)
    (heq : ∀ ip hd, Holds proc' ftable' ip hd ↔ Holds proc ftable ip hd) :
    Refs inuse strict disk tokens proc' ftable' itable := by
  refine ⟨fun ip => ?_, h.uniq, h.copy, fun ip hpos hor => h.alloc ip hpos ?_, h.token, fun i hi => ?_⟩
  · obtain ⟨n, hn, href⟩ := h.count ip
    exact ⟨n, hn.congr fun hd => (heq ip hd).symm, href⟩
  · rcases hor with hv | ⟨hd, hh⟩ | hs
    · exact Or.inl hv
    · exact Or.inr (Or.inl ⟨hd, (heq ip hd).1 hh⟩)
    · exact Or.inr (Or.inr hs)
  · obtain ⟨ip, hd, hh, hinum⟩ := h.used i hi
    exact ⟨ip, hd, (heq ip hd).2 hh, hinum⟩

/-- A working directory or an open file gives its reference to the system call. -/
theorem Refs.toToken (h : Refs inuse strict disk tokens proc ftable itable)
    (hinuse : ∀ i, ¬ inuse i) {ip : Ip} {hd : Pid ⊕ Fin NFILE} (hhd : Holds proc ftable ip hd)
    (heq : ∀ jp hd', Holds proc' ftable' jp hd' ↔ Holds proc ftable jp hd' ∧ hd' ≠ hd)
    (honly : ∀ jp, Holds proc ftable jp hd → jp = ip) :
    Refs inuse strict disk (⟨ip, (itable ip).inum, false⟩ :: tokens) proc' ftable' itable := by
  refine ⟨fun jp => ?_, h.uniq, h.copy, fun jp hpos hor => h.alloc jp hpos ?_, fun t ht => ?_,
    fun i hi => absurd hi (hinuse i)⟩
  · obtain ⟨n, hn, href⟩ := h.count jp
    by_cases hjp : jp = ip
    · subst hjp
      have hpos := hn.pos hhd
      exact ⟨n - 1, hn.erase hhd (heq jp), by rw [held_cons_self]; omega⟩
    · refine ⟨n, hn.congr fun hd' => ?_, by rw [href, held_cons_of_ne (Ne.symm hjp)]⟩
      rw [heq]
      refine ⟨fun hh => ⟨hh, ?_⟩, fun hh => hh.1⟩
      rintro rfl
      exact hjp (honly jp hh)
  · rcases hor with hv | ⟨hd', hh⟩ | hs
    · exact Or.inl hv
    · exact Or.inr (Or.inl ⟨hd', ((heq jp hd').1 hh).1⟩)
    · exact Or.inr (Or.inr hs)
  · rcases List.mem_cons.1 ht with rfl | ht
    · exact ⟨rfl, by simp⟩
    · exact h.token t ht

/-- The system call gives its reference to a working directory or an open file. -/
theorem Refs.toHolder {ip : Ip} {inum : Nat} {v : Bool}
    (h : Refs inuse strict disk (⟨ip, inum, v⟩ :: tokens) proc ftable itable) (hd : Pid ⊕ Fin NFILE)
    (hno : ∀ jp, ¬ Holds proc ftable jp hd) (halloc : (disk inum).type ≠ .free)
    (heq : ∀ jp hd', Holds proc' ftable' jp hd' ↔ Holds proc ftable jp hd' ∨ jp = ip ∧ hd' = hd) :
    Refs inuse strict disk tokens proc' ftable' itable := by
  refine ⟨fun jp => ?_, h.uniq, h.copy, fun jp hpos hor => ?_, fun t ht =>
    h.token t (List.mem_cons_of_mem _ ht), fun i hi => ?_⟩
  · obtain ⟨n, hn, href⟩ := h.count jp
    by_cases hjp : jp = ip
    · subst hjp
      rw [held_cons_self] at href
      exact ⟨n + 1, hn.insert (hno jp) fun hd' => by rw [heq]; simp, by omega⟩
    · rw [held_cons_of_ne (Ne.symm hjp)] at href
      exact ⟨n, hn.congr fun hd' => by rw [heq]; simp [hjp], href⟩
  · by_cases hjp : jp = ip
    · subst hjp
      have hinum := (h.token ⟨jp, inum, v⟩ (List.mem_cons_self ..)).1
      rw [show (itable jp).inum = inum from hinum]
      exact halloc
    · refine h.alloc jp hpos ?_
      rcases hor with hv | ⟨hd', hh⟩ | hs
      · exact Or.inl hv
      · refine Or.inr (Or.inl ⟨hd', ?_⟩)
        rcases (heq jp hd').1 hh with hh | ⟨rfl, -⟩
        · exact hh
        · exact absurd rfl hjp
      · exact Or.inr (Or.inr hs)
  · obtain ⟨jp, hd', hh, hinum⟩ := h.used i hi
    exact ⟨jp, hd', (heq jp hd').2 (Or.inl hh), hinum⟩

end Holders

/-! ## Closing a descriptor -/

variable {s : FS} {p : Pid} {fd : Fin NOFILE} {f : Fin NFILE}

theorem iput_setProc (s : FS) (p : Pid) (e : Proc) (ip : Ip) :
    (s.setProc p e).iput ip = (s.iput ip).setProc p e := by
  by_cases hlast : (s.itable ip).ref = 1 ∧ (s.itable ip).valid = true ∧ (s.itable ip).nlink = 0
  · have hlast' : ((s.setProc p e).itable ip).ref = 1 ∧ ((s.setProc p e).itable ip).valid = true ∧
        ((s.setProc p e).itable ip).nlink = 0 := hlast
    unfold FS.iput
    rw [if_pos hlast, if_pos hlast']
    rfl
  · have hlast' : ¬ (((s.setProc p e).itable ip).ref = 1 ∧
        ((s.setProc p e).itable ip).valid = true ∧ ((s.setProc p e).itable ip).nlink = 0) := hlast
    unfold FS.iput
    rw [if_neg hlast, if_neg hlast']
    rfl

theorem iput_proc (s : FS) (ip : Ip) : (s.iput ip).proc = s.proc := by
  unfold FS.iput
  by_cases hlast : (s.itable ip).ref = 1 ∧ (s.itable ip).valid = true ∧ (s.itable ip).nlink = 0
  · rw [if_pos hlast]
    rfl
  · rw [if_neg hlast]
    rfl

theorem Sys.iput_after (hkept : Kept fr may P Q R) {c : Core} {tokens : List Token} {proc : Pid → Proc}
    {ftable : Fin NFILE → File} {ip : Ip} {inum : Nat} {v : Bool} (hP : P (c, none))
    (h : Sys fr c (⟨ip, inum, v⟩ :: tokens) proc ftable s) :
    After fr (Before P) tokens proc ftable (s.iput ip) := by
  have htriple : Triple (fun _ : Panic × FS => True)
      (Sys fr c (⟨ip, inum, v⟩ :: tokens) proc ftable) (iput ip)
      (fun _ t => After fr (Before P) tokens proc ftable t) :=
    triple_iput_after hkept.beforeFree hP
  have hx := htriple s h
  rw [iput_eq] at hx
  exact hx

/-- The state after `fileclose`. -/
def FS.fileclose (s : FS) (f : Fin NFILE) : FS :=
  if 1 < (s.ftable f).ref then s.setFile f { s.ftable f with ref := (s.ftable f).ref - 1 }
  else if (s.ftable f).type = .none then s.setFile f { s.ftable f with ref := 0, type := .none }
  else (s.setFile f { s.ftable f with ref := 0, type := .none }).iput (s.ftable f).ip

theorem fileclose_eq (h : 0 < (s.ftable f).ref) : fileclose f s = .ok (⟨⟩, s.fileclose f) := by
  have htriple : Triple (fun _ => False) (fun t => t = s) (fileclose f)
      (fun _ t => t = s.fileclose f) := by
    unfold fileclose FS.fileclose
    refine Triple.bind_get fun s' hs' => ?_
    subst hs'
    refine Triple.ite (fun hlt => absurd h (by omega)) fun _ => Triple.ite (fun hlt => ?_) fun hlt => ?_
    · rw [if_pos hlt]
      exact Triple.set _ fun _ _ => rfl
    · rw [if_neg hlt]
      refine Triple.bind (R := fun _ t => t = s'.setFile f { s'.ftable f with ref := 0, type := .none })
        (Triple.set _ fun _ _ => rfl) fun _ => ?_
      refine Triple.ite (fun ht => Triple.pure _ fun t ht' => ?_) fun ht => ?_
      · rw [if_pos ht]
        exact ht'
      · rw [if_neg ht]
        exact Triple.of_ok fun t ht' => ⟨_, _, iput_eq _ t, by rw [ht']⟩
  obtain ⟨_, t, hr, rfl⟩ := htriple.exists_ok rfl
  exact hr

theorem fileclose_setProc (s : FS) (p : Pid) (e : Proc) (f : Fin NFILE) :
    (s.setProc p e).fileclose f = (s.fileclose f).setProc p e := by
  unfold FS.fileclose
  by_cases hlt : 1 < (s.ftable f).ref
  · have hlt' : 1 < ((s.setProc p e).ftable f).ref := hlt
    rw [if_pos hlt, if_pos hlt']
    rfl
  · have hlt' : ¬ 1 < ((s.setProc p e).ftable f).ref := hlt
    rw [if_neg hlt, if_neg hlt']
    by_cases ht : (s.ftable f).type = .none
    · have ht' : ((s.setProc p e).ftable f).type = .none := ht
      rw [if_pos ht, if_pos ht']
      rfl
    · have ht' : ¬ ((s.setProc p e).ftable f).type = .none := ht
      rw [if_neg ht, if_neg ht']
      exact iput_setProc (s.setFile f { s.ftable f with ref := 0, type := .none }) p e (s.ftable f).ip

theorem fileclose_proc (s : FS) (f : Fin NFILE) : (s.fileclose f).proc = s.proc := by
  unfold FS.fileclose
  by_cases hlt : 1 < (s.ftable f).ref
  · rw [if_pos hlt]
    rfl
  · rw [if_neg hlt]
    by_cases ht : (s.ftable f).type = .none
    · rw [if_pos ht]
      rfl
    · rw [if_neg ht]
      exact iput_proc ..

theorem descr_setFd_none {g : Fin NFILE} {d : Pid × Fin NOFILE} :
    Descr (s.setFd p fd none).proc g d ↔ Descr s.proc g d ∧ d ≠ (p, fd) := by
  obtain ⟨q, fe⟩ := d
  unfold Descr FS.setFd FS.setProc
  by_cases hq : q = p
  · subst hq
    by_cases hfe : fe = fd
    · subst hfe
      simp
    · simp [hfe]
  · simp [hq]

theorem descr_setFd_some (hnone : (s.proc p).ofile fd = none) {g : Fin NFILE}
    {d : Pid × Fin NOFILE} :
    Descr (s.setFd p fd (some f)).proc g d ↔ Descr s.proc g d ∨ (g = f ∧ d = (p, fd)) := by
  obtain ⟨q, fe⟩ := d
  unfold Descr FS.setFd FS.setProc
  by_cases hq : q = p
  · subst hq
    by_cases hfe : fe = fd
    · subst hfe
      simp [hnone, eq_comm]
    · simp [hfe]
  · simp [hq]

theorem holds_setFd {x : Option (Fin NFILE)} {ftable : Fin NFILE → File} {ip : Ip}
    {hd : Pid ⊕ Fin NFILE} : Holds (s.setFd p fd x).proc ftable ip hd ↔ Holds s.proc ftable ip hd := by
  cases hd with
  | inl q =>
      unfold Holds FS.setFd FS.setProc
      by_cases hq : q = p
      · subst hq
        simp
      · simp [hq]
  | inr g => exact Iff.rfl

/-- The last descriptor of an open file gives the file's reference away. -/
theorem holds_closed {proc : Pid → Proc} {ip : Ip} {hd : Pid ⊕ Fin NFILE} :
    Holds proc (s.setFile f { s.ftable f with ref := 0, type := .none }).ftable ip hd ↔
      Holds proc s.ftable ip hd ∧ hd ≠ .inr f := by
  cases hd with
  | inl q => simp [Holds]
  | inr g =>
      unfold Holds FS.setFile
      by_cases hg : g = f
      · subst hg
        simp
      · simp [hg]

/-- The descriptor is gone, and `f` has one reference less. -/
theorem FileRefs.close (h : FileRefs s.proc s.ftable) (hfd : (s.proc p).ofile fd = some f)
    {e : File} (href : e.ref = (s.ftable f).ref - 1) (hclosed : e.ref = 0 → e.type = .none) :
    FileRefs (s.setFd p fd none).proc (s.setFile f e).ftable := by
  refine ⟨fun g => ?_, fun g hg => ?_⟩
  · by_cases hgf : g = f
    · subst hgf
      have hmem : Descr s.proc g (p, fd) := hfd
      have := (h.count g).erase (Q := Descr (s.setFd p fd none).proc g) hmem fun d => descr_setFd_none
      simpa [FS.setFile, href] using this
    · have hcount := (h.count g).congr (Q := Descr (s.setFd p fd none).proc g) fun d => by
        rw [descr_setFd_none]
        refine ⟨fun hd => ⟨hd, ?_⟩, fun hd => hd.1⟩
        rintro rfl
        exact hgf (Option.some.inj (hd.symm.trans hfd))
      simpa [FS.setFile, hgf] using hcount
  · by_cases hgf : g = f
    · subst hgf
      simp only [FS.setFile, Function.update_self] at hg ⊢
      exact hclosed hg
    · simp only [FS.setFile, Function.update_of_ne hgf] at hg ⊢
      exact h.closed g hg

theorem Idle.setFd_none (h : ∀ q, Idle s.proc q) (q : Pid) : Idle (s.setFd p fd none).proc q := by
  intro hused fe
  by_cases hq : q = p
  · subst hq
    simp only [FS.setFd, FS.setProc, Function.update_self] at hused ⊢
    by_cases hfe : fe = fd
    · subst hfe
      simp
    · rw [Function.update_of_ne hfe]
      exact h q hused fe
  · simp only [FS.setFd, FS.setProc, Function.update_of_ne hq] at hused ⊢
    exact h q hused fe

/-- A descriptor is closed. -/
theorem Good.close (hkept : Kept fr may P Q R) (hinuse : ∀ i, ¬ fr.inuse i)
    (h : Good fr (Before P) s) (hfd : (s.proc p).ofile fd = some f) :
    0 < (s.ftable f).ref ∧ Good fr (Before P) ((s.setFd p fd none).fileclose f) := by
  have hpos : 0 < (s.ftable f).ref := (h.files.count f).pos (i := (p, fd)) hfd
  refine ⟨hpos, ?_⟩
  have hrefs : Refs fr.inuse (fr.strict s.events) s.disk [] (s.setFd p fd none).proc s.ftable s.itable :=
    h.refs.holds_congr fun ip hd => holds_setFd
  have hidle : ∀ q, Idle (s.setFd p fd none).proc q := Idle.setFd_none h.idle
  unfold FS.fileclose
  show Good fr (Before P) (if 1 < (s.ftable f).ref then (s.setFd p fd none).setFile f
      { s.ftable f with ref := (s.ftable f).ref - 1 }
    else if (s.ftable f).type = .none then
      (s.setFd p fd none).setFile f { s.ftable f with ref := 0, type := .none }
    else ((s.setFd p fd none).setFile f { s.ftable f with ref := 0, type := .none }).iput
      (s.ftable f).ip)
  by_cases hlt : 1 < (s.ftable f).ref
  · rw [if_pos hlt]
    refine ⟨?_, h.kept, h.files.close hfd rfl (fun h0 => ?_), hidle⟩
    · refine hrefs.holds_congr fun ip hd => ?_
      cases hd with
      | inl q => exact Iff.rfl
      | inr g =>
          unfold Holds FS.setFile
          by_cases hg : g = f
          · subst hg
            simp only [Function.update_self]
            exact ⟨fun hh => ⟨hpos, hh.2⟩, fun hh => ⟨by omega, hh.2⟩⟩
          · simp only [Function.update_of_ne hg]
            exact Iff.rfl
    · simp only at h0
      omega
  · rw [if_neg hlt]
    have hfiles : FileRefs (s.setFd p fd none).proc
        (s.setFile f { s.ftable f with ref := 0, type := .none }).ftable :=
      h.files.close hfd (by simp only; omega) fun _ => rfl
    by_cases ht : (s.ftable f).type = .none
    · rw [if_pos ht]
      refine ⟨?_, h.kept, hfiles, hidle⟩
      refine hrefs.holds_congr fun ip hd => ?_
      refine holds_closed.trans ⟨fun hh => hh.1, fun hh => ⟨hh, ?_⟩⟩
      rintro rfl
      exact hh.2.1 ht
    · rw [if_neg ht]
      have hholds : Holds (s.setFd p fd none).proc s.ftable (s.ftable f).ip (.inr f) :=
        ⟨hpos, ht, rfl⟩
      have htoken : Refs fr.inuse (fr.strict s.events) s.disk
          [⟨(s.ftable f).ip, (s.itable (s.ftable f).ip).inum, false⟩] (s.setFd p fd none).proc
          (s.setFile f { s.ftable f with ref := 0, type := .none }).ftable s.itable :=
        hrefs.toToken hinuse hholds (fun ip hd => holds_closed) fun ip hh => hh.2.2.symm
      have hsys : Sys fr s.core [⟨(s.ftable f).ip, _, false⟩] (s.setFd p fd none).proc _
          ((s.setFd p fd none).setFile f { s.ftable f with ref := 0, type := .none }) :=
        ⟨rfl, rfl, rfl, htoken⟩
      exact Good.of_after (hsys.iput_after hkept h.kept) hfiles hidle

/-! ## Descriptors -/

theorem mem_files (f : Fin NFILE) : f ∈ files := by
  unfold files
  exact List.mem_finRange f

theorem mem_fds (fd : Fin NOFILE) : fd ∈ fds := by
  unfold fds
  exact List.mem_finRange fd

theorem nodup_fds : fds.Nodup := by
  unfold fds
  exact List.nodup_finRange _

theorem triple_argfd (n : Int) : Triple may (fun t => t = s) (argfd p n)
    (fun r t => t = s ∧ ∀ fd f, r = some (fd, f) → (s.proc p).ofile fd = some f) := by
  unfold argfd
  refine Triple.bind_get fun t ht => ?_
  subst ht
  by_cases hn : 0 ≤ n ∧ n < NOFILE
  · rw [dif_pos hn]
    refine Triple.pure _ fun u hu => ⟨hu, fun fd f hr => ?_⟩
    obtain ⟨g, hg, he⟩ := Option.map_eq_some_iff.1 hr
    simp only [Prod.mk.injEq] at he
    obtain ⟨rfl, rfl⟩ := he
    exact hg
  · rw [dif_neg hn]
    exact Triple.pure _ fun u hu => ⟨hu, by simp⟩

theorem triple_fdalloc : Triple may (fun t => t = s) (fdalloc p f)
    (fun r t => (r = none → t = s ∧ ∀ fd, (s.proc p).ofile fd ≠ none) ∧
      ∀ fd, r = some fd → (s.proc p).ofile fd = none ∧ t = s.setFd p fd (some f)) := by
  unfold fdalloc
  refine Triple.bind_get fun t ht => ?_
  subst ht
  cases hfound : fds.find? fun fd => decide ((t.proc p).ofile fd = none) with
  | none =>
      refine Triple.pure _ fun u hu => ⟨fun _ => ⟨hu, fun fd => ?_⟩, by simp⟩
      simpa using List.find?_eq_none.1 hfound fd (mem_fds fd)
  | some fd =>
      have hnone : (t.proc p).ofile fd = none := by simpa using List.find?_some hfound
      refine Triple.bind (R := fun _ u => u = t.setFd p fd (some f)) (Triple.set _ fun _ _ => rfl)
        fun _ => Triple.pure _ fun u hu => ⟨by simp, fun fd' hfd' => ?_⟩
      obtain rfl := Option.some.inj hfd'
      exact ⟨hnone, hu⟩

theorem triple_filealloc : Triple may (fun t => t = s) filealloc
    (fun r t => (r = none → t = s ∧ ∀ f, (s.ftable f).ref ≠ 0) ∧
      ∀ f, r = some f → (s.ftable f).ref = 0 ∧ t = s.setFile f { s.ftable f with ref := 1 }) := by
  unfold filealloc
  refine Triple.bind_get fun t ht => ?_
  subst ht
  cases hfound : files.find? fun f => decide ((t.ftable f).ref = 0) with
  | none =>
      refine Triple.pure _ fun u hu => ⟨fun _ => ⟨hu, fun f => ?_⟩, by simp⟩
      simpa using List.find?_eq_none.1 hfound f (mem_files f)
  | some f =>
      have hzero : (t.ftable f).ref = 0 := by simpa using List.find?_some hfound
      refine Triple.bind (R := fun _ u => u = t.setFile f { t.ftable f with ref := 1 })
        (Triple.set _ fun _ _ => rfl) fun _ => Triple.pure _ fun u hu => ⟨by simp, fun f' hf' => ?_⟩
      obtain rfl := Option.some.inj hf'
      exact ⟨hzero, hu⟩

theorem triple_filedup (h : 0 < (s.ftable f).ref) : Triple may (fun t => t = s) (filedup f)
    (fun _ t => t = s.setFile f { s.ftable f with ref := (s.ftable f).ref + 1 }) := by
  unfold filedup
  refine Triple.bind_get fun t ht => ?_
  subst ht
  exact Triple.ite (fun hlt => absurd h (by omega)) fun _ => Triple.set _ fun _ _ => rfl

/-- A descriptor that was free now refers to `f`, which has one reference more. -/
theorem FileRefs.open (h : FileRefs s.proc s.ftable) (hnone : (s.proc p).ofile fd = none)
    {e : File} (href : e.ref = (s.ftable f).ref + 1) :
    FileRefs (s.setFd p fd (some f)).proc (s.setFile f e).ftable := by
  refine ⟨fun g => ?_, fun g hg => ?_⟩
  · by_cases hgf : g = f
    · subst hgf
      have hnot : ¬ Descr s.proc g (p, fd) := by simp [Descr, hnone]
      have := (h.count g).insert (Q := Descr (s.setFd p fd (some g)).proc g) hnot fun d => by
        rw [descr_setFd_some hnone]
        simp
      simpa [FS.setFile, href] using this
    · have hcount := (h.count g).congr (Q := Descr (s.setFd p fd (some f)).proc g) fun d => by
        rw [descr_setFd_some hnone]
        simp [hgf]
      simpa [FS.setFile, hgf] using hcount
  · by_cases hgf : g = f
    · subst hgf
      simp only [FS.setFile, Function.update_self] at hg
      omega
    · simp only [FS.setFile, Function.update_of_ne hgf] at hg ⊢
      exact h.closed g hg

/-- A reference to an open file does not matter to the inode table. -/
theorem holds_dup (hpos : 0 < (s.ftable f).ref) {proc : Pid → Proc} {ip : Ip}
    {hd : Pid ⊕ Fin NFILE} :
    Holds proc (s.setFile f { s.ftable f with ref := (s.ftable f).ref + 1 }).ftable ip hd ↔
      Holds proc s.ftable ip hd := by
  cases hd with
  | inl q => exact Iff.rfl
  | inr g =>
      unfold Holds FS.setFile
      by_cases hg : g = f
      · subst hg
        simp only [Function.update_self]
        exact ⟨fun hh => ⟨hpos, hh.2⟩, fun hh => ⟨by omega, hh.2⟩⟩
      · simp only [Function.update_of_ne hg]

theorem triple_sysClose (hkept : Kept fr may P Q R) (hinuse : ∀ i, ¬ fr.inuse i)
    (h : Good fr (Before P) s) (n : Int) :
    Triple may (fun t => t = s) (sysClose p n) (fun _ t => Good fr (Before P) t) := by
  unfold sysClose
  refine Triple.bind (triple_argfd n) fun r => ?_
  cases r with
  | none => exact Triple.pure _ fun t ht => ht.1 ▸ h
  | some r =>
      obtain ⟨fd, f⟩ := r
      refine Triple.conseq (Triple.assume (c := (s.proc p).ofile fd = some f) fun hfd => ?_)
        (fun t ht => ⟨ht.1, ht.2 fd f rfl⟩) fun _ _ h => h
      obtain ⟨hpos, hclose⟩ := h.close hkept hinuse hfd
      refine Triple.bind (R := fun _ t => t = s.setFd p fd none)
        (Triple.modify _ fun t ht => by rw [ht]) fun _ => ?_
      refine Triple.bind (R := fun _ t => Good fr (Before P) t) ?_ fun _ => Triple.pure _ fun t ht => ht
      refine Triple.of_ok fun t ht => ⟨_, _, fileclose_eq ?_, ?_⟩
      · rw [ht]
        exact hpos
      · rw [ht]
        exact hclose

theorem Good.dup (h : Good fr (Before P) s) (hnone : (s.proc p).ofile fd = none)
    (hp : (s.proc p).used = true) (hpos : 0 < (s.ftable f).ref) :
    Good fr (Before P) ((s.setFd p fd (some f)).setFile f
      { s.ftable f with ref := (s.ftable f).ref + 1 }) := by
  refine ⟨?_, h.kept, h.files.open hnone rfl, fun q hused fe => ?_⟩
  · refine h.refs.holds_congr fun ip hd => ?_
    exact (holds_dup hpos).trans holds_setFd
  · by_cases hq : q = p
    · subst hq
      simp [FS.setFd, FS.setProc, FS.setFile, hp] at hused
    · simp only [FS.setFile, FS.setFd, FS.setProc, Function.update_of_ne hq] at hused ⊢
      exact h.idle q hused fe

theorem triple_sysDup (h : Good fr (Before P) s) (hp : (s.proc p).used = true) (n : Int) :
    Triple may (fun t => t = s) (sysDup p n) (fun _ t => Good fr (Before P) t) := by
  unfold sysDup
  refine Triple.bind (triple_argfd n) fun r => ?_
  cases r with
  | none => exact Triple.pure _ fun t ht => ht.1 ▸ h
  | some r =>
      obtain ⟨fd₀, f⟩ := r
      refine Triple.conseq (Triple.assume (c := (s.proc p).ofile fd₀ = some f) fun hfd => ?_)
        (fun t ht => ⟨ht.1, ht.2 fd₀ f rfl⟩) fun _ _ h => h
      have hpos : 0 < (s.ftable f).ref := (h.files.count f).pos (i := (p, fd₀)) hfd
      refine Triple.bind triple_fdalloc fun r => ?_
      cases r with
      | none => exact Triple.pure _ fun t ht => (ht.1 rfl).1 ▸ h
      | some fd =>
          refine Triple.conseq (Triple.assume (c := (s.proc p).ofile fd = none) fun hnone => ?_)
            (fun t ht => ⟨(ht.2 fd rfl).2, (ht.2 fd rfl).1⟩) fun _ _ h => h
          refine Triple.bind (triple_filedup hpos) fun _ => Triple.pure _ fun t ht => ?_
          rw [ht]
          exact h.dup hnone hp hpos

/-! ## Working directories -/

/-- The processes that are in use, and their descriptors, stay as they are. -/
theorem FileRefs.congr_proc {proc proc' : Pid → Proc} {ftable : Fin NFILE → File}
    (h : FileRefs proc ftable) (heq : ∀ q, (proc' q).ofile = (proc q).ofile) :
    FileRefs proc' ftable := by
  refine ⟨fun f => (h.count f).congr fun d => ?_, h.closed⟩
  unfold Descr
  rw [heq]

theorem setProc_ofile (e : Proc) (he : e.ofile = (s.proc p).ofile) (q : Pid) :
    ((s.setProc p e).proc q).ofile = (s.proc q).ofile := by
  by_cases hq : q = p
  · subst hq
    simpa [FS.setProc] using he
  · simp [FS.setProc, hq]

/-- A process without a working directory. -/
theorem holds_unused {proc : Pid → Proc} {ftable : Fin NFILE → File} {e : Proc}
    (he : e.used = false) {ip : Ip} {hd : Pid ⊕ Fin NFILE} :
    Holds (Function.update proc p e) ftable ip hd ↔ Holds proc ftable ip hd ∧ hd ≠ .inl p := by
  cases hd with
  | inl q =>
      unfold Holds
      by_cases hq : q = p
      · subst hq
        simp [he]
      · simp [hq]
  | inr g => simp [Holds]

/-- A process that had no working directory has one now. -/
theorem holds_used {proc : Pid → Proc} {ftable : Fin NFILE → File} {e : Proc}
    (hold : (proc p).used = false) (he : e.used = true) {ip : Ip} {hd : Pid ⊕ Fin NFILE} :
    Holds (Function.update proc p e) ftable ip hd ↔
      Holds proc ftable ip hd ∨ ip = e.cwd ∧ hd = .inl p := by
  cases hd with
  | inl q =>
      unfold Holds
      by_cases hq : q = p
      · subst hq
        simp [he, hold, eq_comm]
      · simp [hq]
  | inr g => simp [Holds]

/-- A process gives up its working directory. -/
theorem Refs.leave {inuse : Nat → Prop} {strict : Prop} {disk : Nat → Dinode} {tokens : List Token}
    {proc : Pid → Proc} {ftable : Fin NFILE → File} {itable : Ip → Inode}
    (hinuse : ∀ i, ¬ inuse i) (h : Refs inuse strict disk tokens proc ftable itable) (hp : (proc p).used = true) {e : Proc}
    (he : e.used = false) :
    Refs inuse strict disk (⟨(proc p).cwd, (itable (proc p).cwd).inum, false⟩ :: tokens)
      (Function.update proc p e) ftable itable := by
  have hholds : Holds proc ftable (proc p).cwd (.inl p) := ⟨hp, rfl⟩
  exact h.toToken hinuse hholds (fun _ _ => holds_unused he) fun _ hh => hh.2.symm

/-- A process takes a reference as its working directory. -/
theorem Refs.enter {inuse : Nat → Prop} {strict : Prop} {disk : Nat → Dinode} {tokens : List Token}
    {proc : Pid → Proc} {ftable : Fin NFILE → File} {itable : Ip → Inode} {ip : Ip} {inum : Nat}
    {v : Bool} (h : Refs inuse strict disk (⟨ip, inum, v⟩ :: tokens) proc ftable itable)
    (halloc : (disk inum).type ≠ .free) (hp : (proc p).used = false) {e : Proc}
    (he : e.used = true) (hcwd : e.cwd = ip) :
    Refs inuse strict disk tokens (Function.update proc p e) ftable itable := by
  subst hcwd
  refine h.toHolder (.inl p) (fun jp hh => ?_) halloc fun _ _ => holds_used hp he
  exact absurd hh.1 (by simp [hp])

/-- A process changes its working directory. -/
theorem Refs.chdir {inuse : Nat → Prop} {strict : Prop} {disk : Nat → Dinode} {tokens : List Token}
    {proc : Pid → Proc} {ftable : Fin NFILE → File} {itable : Ip → Inode} {ip : Ip} {inum : Nat}
    {v : Bool} (hinuse : ∀ i, ¬ inuse i) (h : Refs inuse strict disk (⟨ip, inum, v⟩ :: tokens) proc ftable itable)
    (halloc : (disk inum).type ≠ .free) (hp : (proc p).used = true) :
    Refs inuse strict disk (⟨(proc p).cwd, (itable (proc p).cwd).inum, false⟩ :: tokens)
      (Function.update proc p { proc p with cwd := ip }) ftable itable := by
  have hleft := (h.leave hinuse hp (e := { proc p with used := false }) rfl).swap
  have hentered := hleft.enter (p := p) (e := { proc p with cwd := ip }) halloc (by simp) hp rfl
  rw [Function.update_idem] at hentered
  exact hentered

theorem triple_sysChdir (hlax : Lax fr may) (hkept : Kept fr may P Q R)
    (hinuse : ∀ i, ¬ fr.inuse i) (h : Good fr (Before P) s)
    (hp : (s.proc p).used = true) (path : Option Path) :
    Triple may (fun t => t = s) (sysChdir p path) (fun _ t => Good fr (Before P) t) := by
  unfold sysChdir
  cases path with
  | none => exact Triple.pure _ fun t ht => ht ▸ h
  | some path =>
      refine Triple.bind (Triple.conseq (triple_namei hlax hkept h.kept hp path)
        (fun t ht => by rw [ht]; exact h.sys) fun _ _ h => h) fun r => ?_
      cases r with
      | none => exact Triple.pure _ fun t ht => Good.of_after ht h.files h.idle
      | some ip =>
          refine Triple.exists fun inum => Triple.exists fun v => Triple.exists fun c =>
            Triple.assume fun hP => ?_
          refine Triple.bind (triple_ilock hlax) fun _ => Triple.bind_get fun t ht => ?_
          refine Triple.ite (fun _ => ?_) fun _ => ?_
          · exact Triple.conseq (triple_putBack hkept.beforeFree hP (-1) fun u hu => hu) (fun u hu => hu ▸ ht)
              fun _ u hu => Good.of_after hu h.files h.idle
          · refine Triple.of_ok fun u hu => ⟨0, ((t.iput (t.proc p).cwd).setProc p
              { (t.iput (t.proc p).cwd).proc p with cwd := ip }), ?_, ?_⟩
            · subst hu
              show (iput (u.proc p).cwd u >>= fun r => _) = _
              rw [iput_eq]
              rfl
            · obtain ⟨-, -, -, halloc⟩ := ht.entry (List.mem_cons_self ..)
              rw [iput_proc, ← iput_setProc]
              obtain ⟨rfl, hproc, hftable, hrefs⟩ := ht
              rw [← hproc] at hp
              rw [← hproc, ← hftable] at hrefs
              have hfiles : FileRefs t.proc t.ftable := by
                rw [hproc, hftable]
                exact h.files
              have hidle : ∀ q, Idle t.proc q := by
                rw [hproc]
                exact h.idle
              have hsys : Sys fr t.core _ (t.setProc p { t.proc p with cwd := ip }).proc
                  t.ftable (t.setProc p { t.proc p with cwd := ip }) := ⟨rfl, rfl, rfl, hrefs.chdir hinuse halloc hp⟩
              refine Good.of_after (hsys.iput_after hkept hP)
                (hfiles.congr_proc (setProc_ofile { t.proc p with cwd := ip } rfl)) fun q hused fe => ?_
              rw [setProc_ofile { t.proc p with cwd := ip } rfl q]
              refine hidle q ?_ fe
              by_cases hq : q = p
              · subst hq
                simpa [FS.setProc] using hused
              · simpa [FS.setProc, hq] using hused

/-! ## Opening a file -/

theorem triple_openInode (hlax : Lax fr may) (hkept : Kept fr may P Q R) {c : Core}
    {proc : Pid → Proc} {ftable : Fin NFILE → File} (hP : P (c, none))
    (hp : (proc p).used = true) (path : Path) (omode : BitVec 32) :
    Triple may (Sys fr c [] proc ftable) (openInode p path omode) (fun r t => match r with
      | none => After fr (Before P) [] proc ftable t
      | some ip => ∃ inum, After fr (Before P) [⟨ip, inum, true⟩] proc ftable t ∨
          (omode &&& O_CREATE ≠ 0 ∧
            After fr (Fresh Q inum .file) [⟨ip, inum, true⟩] proc ftable t)) := by
  unfold openInode
  refine Triple.ite (fun hcreate => ?_) fun _ => ?_
  · refine Triple.conseq (triple_create hlax hkept hP hp (by simp)) (fun _ h => h) fun r t ht => ?_
    cases r with
    | none => exact ht
    | some ip =>
        obtain ⟨inum, ht⟩ := ht
        exact ⟨inum, ht.imp And.left fun ht => ⟨hcreate, ht⟩⟩
  · refine Triple.bind (triple_namei hlax hkept hP hp path) fun r => ?_
    cases r with
    | none => exact Triple.pure _ fun t ht => ht
    | some ip =>
        refine Triple.exists fun inum => Triple.exists fun v => Triple.exists fun c =>
          Triple.assume fun hP => ?_
        refine Triple.bind (triple_ilock hlax) fun _ => Triple.bind_get fun t ht => ?_
        refine Triple.ite (fun _ => ?_) fun _ => Triple.pure _ fun u hu => ?_
        · exact Triple.conseq (triple_putBack hkept.beforeFree hP none fun u hu => hu)
            (fun u hu => hu ▸ ht) fun _ _ h => h
        · exact ⟨inum, Or.inl ⟨c, hu ▸ ht, hP⟩⟩

/-- An entry of the file table that was free becomes an open file. -/
theorem holds_setFile_some {e : File} (hzero : (s.ftable f).ref = 0) (hpos : 0 < e.ref)
    (he : e.type ≠ .none) {proc : Pid → Proc} {ip : Ip} {hd : Pid ⊕ Fin NFILE} :
    Holds proc (s.setFile f e).ftable ip hd ↔
      Holds proc s.ftable ip hd ∨ ip = e.ip ∧ hd = .inr f := by
  cases hd with
  | inl q => simp [Holds]
  | inr g =>
      unfold Holds FS.setFile
      by_cases hg : g = f
      · subst hg
        simp [he, hzero, hpos, eq_comm]
      · simp [hg]

theorem itrunc_eq {ip : Ip} (hcopy : Copy (s.itable ip) (s.disk (s.itable ip).inum)) :
    itrunc ip s = .ok (⟨⟩, s.setDisk (s.itable ip).inum (s.disk (s.itable ip).inum).trunc) := by
  obtain ⟨h1, h2, h3, h4⟩ := hcopy
  show Except.ok ((⟨⟩ : PUnit), _) = _
  simp [FS.setDisk, Inode.store, Dinode.trunc, h1, h2, h3, h4]

/-- The file that `sys_open` makes of entry `f`. -/
def File.opened (ff : File) (e : Inode) (ip : Ip) (omode : BitVec 32) : File :=
  { ff with
    type := if e.type = .device then .device else .inode
    major := if e.type = .device then e.major else ff.major
    off := if e.type = .device then ff.off else 0
    ip := ip
    readable := decide (omode &&& O_WRONLY = 0)
    writable := decide (omode &&& O_WRONLY ≠ 0 ∨ omode &&& O_RDWR ≠ 0) }

theorem File.opened_type (ff : File) (e : Inode) (ip : Ip) (omode : BitVec 32) :
    (ff.opened e ip omode).type ≠ .none := by
  unfold File.opened
  by_cases h : e.type = .device
  · simp [h]
  · simp [h]

/-- The end of `sys_open`, where nothing can fail any more. -/
theorem Good.opened (hkept : Kept fr may P Q R) {c : Core} (hR : R c) {ip : Ip} {inum : Nat}
    (hs : Sys fr c [⟨ip, inum, true⟩] s.proc s.ftable s) (hfiles : FileRefs s.proc s.ftable)
    (hidle : ∀ q, Idle s.proc q) (hp : (s.proc p).used = true) (hzero : (s.ftable f).ref = 0)
    (hnone : (s.proc p).ofile fd = none) {ff : File} (href : ff.ref = 1) (htype : ff.type ≠ .none)
    (hip : ff.ip = ip) {trunc : Prop} [Decidable trunc]
    (htrunc : trunc → (s.itable ip).type = .file) :
    Triple may (fun t => t = (s.setFd p fd (some f)).setFile f ff)
      (if trunc then itrunc ip else pure ⟨⟩) (fun _ t => Good fr R t) := by
  obtain ⟨hcopy, hinum, -, halloc⟩ := hs.entry (List.mem_cons_self ..)
  have hrefs : Refs fr.inuse (fr.strict c.events) c.disk [] (s.setFd p fd (some f)).proc (s.setFile f ff).ftable
      s.itable := by
    have hopen : Refs fr.inuse (fr.strict c.events) c.disk [] s.proc (s.setFile f ff).ftable s.itable := by
      refine hs.refs.toHolder (.inr f) (fun jp hh => ?_) halloc fun jp hd => ?_
      · exact absurd hh.1 (by omega)
      · rw [← hip]
        exact holds_setFile_some hzero (by omega) htype
    exact hopen.holds_congr fun jp hd => holds_setFd
  have hfiles : FileRefs (s.setFd p fd (some f)).proc (s.setFile f ff).ftable :=
    hfiles.open hnone (by omega)
  have hidle : ∀ q, Idle (s.setFd p fd (some f)).proc q := by
    intro q hused fe
    by_cases hq : q = p
    · subst hq
      simp [FS.setFd, FS.setProc, hp] at hused
    · simp only [FS.setFd, FS.setProc, Function.update_of_ne hq] at hused ⊢
      exact hidle q hused fe
  have hcore := hs.core
  subst hinum
  refine Triple.ite (fun ht => Triple.of_ok fun t ht' => ?_) fun _ => Triple.pure _ fun t ht' => ?_
  · subst ht'
    have hsys : Sys fr c [] (s.setFd p fd (some f)).proc (s.setFile f ff).ftable
        ((s.setFd p fd (some f)).setFile f ff) := ⟨hcore, rfl, rfl, hrefs⟩
    have hfile : (c.disk (s.itable ip).inum).type = .file := by
      rw [← hcopy.1]
      exact htrunc ht
    refine ⟨_, _, itrunc_eq ?_, ?_⟩
    · show Copy (s.itable ip) (s.disk (s.itable ip).inum)
      rw [hs.disk]
      exact hcopy
    · exact Good.of_after ⟨c.trunc (s.itable ip).inum, hsys.setContent _ fun _ => ⟨rfl, rfl, rfl, rfl⟩,
        hkept.trunc _ _ hfile hR⟩ hfiles hidle
  · subst ht'
    exact Good.of_after ⟨c, ⟨hcore, rfl, rfl, hrefs⟩, hR⟩ hfiles hidle

theorem fileclose_unused (hzero : (s.ftable f).ref = 0) (hnone : (s.ftable f).type = .none) :
    (s.setFile f { s.ftable f with ref := 1 }).fileclose f = s := by
  have hback : ({ s.ftable f with ref := 0, type := .none } : File) = s.ftable f := by
    rw [← hzero, ← hnone]
  simp [FS.fileclose, FS.setFile, hnone, hback]

/-- No `struct file` is free, or no descriptor of `p`. -/
def Exhausted (s : FS) (p : Pid) : Prop :=
  (∀ f, (s.ftable f).ref ≠ 0) ∨ ∀ fd, (s.proc p).ofile fd ≠ none

/-- The part of `sys_open` after the inode has been found. -/
theorem triple_openFile (hkept : Kept fr may P Q R) {X : Core → Prop}
    (hfree : ∀ c c', FreeStep fr.inuse c c' → X c → X c') (hXR : ∀ c, X c → R c)
    (hfiles : FileRefs s.proc s.ftable) (hidle : ∀ q, Idle s.proc q) (hp : (s.proc p).used = true)
    {ip : Ip} {inum : Nat} (omode : BitVec 32) :
    Triple may (After fr X [⟨ip, inum, true⟩] s.proc s.ftable) (do
      let s ← get
      let e := s.itable ip
      if e.type = .device ∧ (e.major.toInt < 0 ∨ NDEV ≤ e.major.toInt) then do
        iput ip
        pure (-1 : Int)
      else match ← filealloc with
        | none => do
          iput ip
          pure (-1)
        | some f => do
          match ← fdalloc p f with
          | none => do
            fileclose f
            iput ip
            pure (-1)
          | some fd => do
            modify fun s => s.setFile f { s.ftable f with
              type := if e.type = .device then .device else .inode
              major := if e.type = .device then e.major else (s.ftable f).major
              off := if e.type = .device then (s.ftable f).off else 0
              ip := ip
              readable := decide (omode &&& O_WRONLY = 0)
              writable := decide (omode &&& O_WRONLY ≠ 0 ∨ omode &&& O_RDWR ≠ 0) }
            (if omode &&& O_TRUNC ≠ 0 ∧ e.type = .file then itrunc ip else pure ⟨⟩)
            pure fd.val) (fun r t =>
      (r = -1 → After fr X [] s.proc s.ftable t ∧
        (Exhausted s p ∨ ∃ c, X c ∧ (c.disk inum).type = .device)) ∧
      (r ≠ -1 → Good fr R t)) := by
  refine Triple.exists fun c => Triple.assume fun hX => Triple.bind_get fun t ht => ?_
  obtain ⟨hcopy, -, -, -⟩ := ht.entry (List.mem_cons_self ..)
  have hproc := ht.proc_eq
  have hftable := ht.ftable_eq
  have hback : (Exhausted s p ∨ ∃ c, X c ∧ (c.disk inum).type = .device) →
      Triple may (fun u => u = t) (iput ip >>= fun _ => pure (-1 : Int)) (fun r u =>
        (r = -1 → After fr X [] s.proc s.ftable u ∧
          (Exhausted s p ∨ ∃ c, X c ∧ (c.disk inum).type = .device)) ∧
        (r ≠ -1 → Good fr R u)) := by
    intro hwhy
    have hput : Triple may (Sys fr c [⟨ip, inum, true⟩] s.proc s.ftable)
        (iput ip >>= fun _ => pure (-1 : Int)) (fun r u => r = -1 ∧ After fr X [] s.proc s.ftable u) :=
      triple_putBack hfree hX (-1) fun u hu => ⟨rfl, hu⟩
    exact Triple.conseq hput (fun u hu => hu ▸ ht) fun r u hu => ⟨fun _ => ⟨hu.2, hwhy⟩,
      fun hr => absurd hu.1 hr⟩
  dsimp only
  refine Triple.ite (fun hdev => hback (Or.inr ⟨c, hX, ?_⟩)) fun _ => ?_
  · rw [← hcopy.1]
    exact hdev.1
  refine Triple.bind triple_filealloc fun r => ?_
  cases r with
  | none =>
      refine Triple.conseq (Triple.assume (c := ∀ f, (t.ftable f).ref ≠ 0) fun hfull => ?_)
        (fun u hu => hu.1 rfl) fun _ _ h => h
      rw [hftable] at hfull
      exact hback (Or.inl (Or.inl hfull))
  | some f =>
      refine Triple.conseq (Triple.assume (c := (t.ftable f).ref = 0) fun hzero => ?_)
        (fun u hu => ⟨(hu.2 f rfl).2, (hu.2 f rfl).1⟩) fun _ _ h => h
      refine Triple.bind triple_fdalloc fun r => ?_
      cases r with
      | none =>
          -- the entry of the file table is given back
          refine Triple.conseq (Triple.assume fun hfull => ?_) (fun u hu => hu.1 rfl) fun _ _ h => h
          have hclosed : (t.ftable f).type = .none := by
            rw [hftable] at hzero ⊢
            exact hfiles.closed f hzero
          have hfull : ∀ fd, (s.proc p).ofile fd ≠ none := by
            rw [← hproc]
            exact hfull
          refine Triple.bind (R := fun _ u => u = t) (Triple.of_ok fun u hu => ⟨_, _,
            fileclose_eq ?_, ?_⟩) fun _ => hback (Or.inl (Or.inr hfull))
          · simp [hu, FS.setFile]
          · rw [hu, fileclose_unused hzero hclosed]
      | some fd =>
          refine Triple.conseq (Triple.assume (c := (t.proc p).ofile fd = none) fun hnone => ?_)
            (fun u hu => ⟨(hu.2 fd rfl).2, (hu.2 fd rfl).1⟩) fun _ _ h => h
          let ff : File := File.opened { t.ftable f with ref := 1 } (t.itable ip) ip omode
          have htype : ff.type ≠ .none := File.opened_type _ _ ip omode
          have hopened : Triple may (fun u => u = (t.setFd p fd (some f)).setFile f ff)
              (if omode &&& O_TRUNC ≠ 0 ∧ (t.itable ip).type = .file then itrunc ip else pure ⟨⟩)
              (fun _ u => Good fr R u) := by
            rw [← hproc, ← hftable] at ht
            rw [← hproc] at hp
            have hfiles : FileRefs t.proc t.ftable := by
              rw [hproc, hftable]
              exact hfiles
            have hidle : ∀ q, Idle t.proc q := by
              rw [hproc]
              exact hidle
            exact Good.opened hkept (hXR c hX) ht hfiles hidle hp hzero hnone rfl htype rfl And.right
          refine Triple.bind (R := fun _ u => u = (t.setFd p fd (some f)).setFile f ff)
            (Triple.modify _ fun u hu => ?_) fun _ => Triple.bind hopened fun _ =>
              Triple.pure _ fun u hu => ⟨fun h => absurd h (by omega), fun _ => hu⟩
          rw [hu]
          simp [FS.setFile, FS.setFd, FS.setProc, ff, File.opened]

/-- A call of `sys_open` that fails has not come far, or it has made an inode and found no room for
    the file. -/
theorem triple_sysOpen (hlax : Lax fr may) (hkept : Kept fr may P Q R)
    (h : Good fr (Before P) s) (hp : (s.proc p).used = true) (path : Option Path)
    (omode : BitVec 32) :
    Triple may (fun t => t = s) (sysOpen p path omode) (fun r t =>
      (r = -1 → After fr (Before P) [] s.proc s.ftable t ∨
        (omode &&& O_CREATE ≠ 0 ∧ Exhausted s p ∧
          ∃ inum, After fr (Fresh Q inum .file) [] s.proc s.ftable t)) ∧
      (r ≠ -1 → Good fr R t)) := by
  unfold sysOpen
  cases path with
  | none => exact Triple.pure _ fun t ht => ⟨fun _ => Or.inl ⟨s.core, ht ▸ h.sys, h.kept⟩, by simp⟩
  | some path =>
      refine Triple.bind (Triple.conseq (triple_openInode hlax hkept h.kept hp path omode)
        (fun t ht => by rw [ht]; exact h.sys) fun _ _ h => h) fun r => ?_
      cases r with
      | none => exact Triple.pure _ fun t ht => ⟨fun _ => Or.inl ht, by simp⟩
      | some ip =>
          refine Triple.exists fun inum => Triple.or ?_ ?_
          · refine Triple.conseq (triple_openFile hkept hkept.beforeFree hkept.failed h.files h.idle hp
              omode) (fun _ h => h) fun r t ht => ⟨fun hr => Or.inl (ht.1 hr).1, ht.2⟩
          · refine Triple.conseq (Triple.assume fun hcreate => Triple.conseq (triple_openFile hkept
              (Fresh.free hkept.madeFree) (fun c hc => hkept.madeDone c hc.1) h.files h.idle hp omode)
              (fun _ h => h) fun r t ht => ⟨fun hr => Or.inr ⟨hcreate, ?_, inum, (ht.1 hr).1⟩, ht.2⟩)
              (fun t ht => ⟨ht.2, ht.1⟩) fun _ _ h => h
            refine (ht.1 hr).2.resolve_right fun hex => ?_
            obtain ⟨c, hc, hdev⟩ := hex
            rw [hc.2.1] at hdev
            cases hdev

/-! ## `sys_mkdir` and `sys_mknod` -/

/-- A system call that makes an inode and gives its reference back. -/
theorem triple_made (hlax : Lax fr may) (hkept : Kept fr may P Q R) {c : Core} {proc : Pid → Proc}
    {ftable : Fin NFILE → File} (hP : P (c, none)) (hp : (proc p).used = true) (path : Path)
    {type : FileType} (htype : type ≠ .free) (hfile : type ≠ .file) (major minor : BitVec 16) :
    Triple may (Sys fr c [] proc ftable) (do
      match ← create p path type major minor with
      | none => pure (-1 : Int)
      | some ip => do
        iput ip
        pure 0) (Ended fr P R proc ftable) := by
  refine Triple.bind (triple_create hlax hkept hP hp htype) fun r => ?_
  cases r with
  | none => exact Triple.pure _ fun t ht => Ended.failed ht
  | some ip =>
      refine Triple.exists fun inum => Triple.or (Triple.assume fun h => absurd h hfile) ?_
      refine Triple.exists fun c => Triple.assume fun hQ => ?_
      exact triple_putBack hkept.doneFree (hkept.madeDone c hQ.1) 0 fun t ht => Ended.done ht

theorem triple_sysMkdir (hlax : Lax fr may) (hkept : Kept fr may P Q R) {c : Core}
    {proc : Pid → Proc} {ftable : Fin NFILE → File} (hP : P (c, none)) (hp : (proc p).used = true)
    (path : Option Path) :
    Triple may (Sys fr c [] proc ftable) (sysMkdir p path) (Ended fr P R proc ftable) := by
  unfold sysMkdir
  cases path with
  | none => exact Triple.pure _ fun t ht => Ended.failed ⟨c, ht, hP⟩
  | some path => exact triple_made hlax hkept hP hp path (by simp) (by simp) 0 0

theorem triple_sysMknod (hlax : Lax fr may) (hkept : Kept fr may P Q R) {c : Core}
    {proc : Pid → Proc} {ftable : Fin NFILE → File} (hP : P (c, none)) (hp : (proc p).used = true)
    (path : Option Path) (major minor : BitVec 16) :
    Triple may (Sys fr c [] proc ftable) (sysMknod p path major minor)
      (Ended fr P R proc ftable) := by
  unfold sysMknod
  cases path with
  | none => exact Triple.pure _ fun t ht => Ended.failed ⟨c, ht, hP⟩
  | some path => exact triple_made hlax hkept hP hp path (by simp) (by simp) major minor

/-! ## `kexit` -/

/-- The loop of `kexit` over the descriptors. -/
theorem triple_exitFiles (hkept : Kept fr may P Q R) (hinuse : ∀ i, ¬ fr.inuse i) :
    Triple may (fun t => Good fr (Before P) t ∧ (t.proc p).used = true) (fds.forM fun fd => do
      let s ← get
      match (s.proc p).ofile fd with
      | none => pure ⟨⟩
      | some f => do
        fileclose f
        modify fun s => s.setFd p fd none)
      (fun _ t => Good fr (Before P) t ∧ (t.proc p).used = true ∧ ∀ fd, (t.proc p).ofile fd = none) := by
  refine Triple.conseq (Triple.forM_left (I := fun l t => Good fr (Before P) t ∧ (t.proc p).used = true ∧
    ∀ fd, fd ∉ l → (t.proc p).ofile fd = none) (fun fd l => ?_) fds) (fun t ht => ?_)
    fun _ t ht => ⟨ht.1, ht.2.1, fun fd => ht.2.2 fd (by simp)⟩
  · refine Triple.bind_get fun t ht => ?_
    obtain ⟨hgood, hused, hclosed⟩ := ht
    cases hfd : (t.proc p).ofile fd with
    | none =>
        refine Triple.pure _ fun u hu => ?_
        subst hu
        refine ⟨hgood, hused, fun fe hfe => ?_⟩
        by_cases he : fe = fd
        · rw [he, hfd]
        · exact hclosed fe (by simp [he, hfe])
    | some f =>
        obtain ⟨hpos, hclose⟩ := hgood.close hkept hinuse hfd
        refine Triple.bind (R := fun _ u => u = t.fileclose f)
          (Triple.of_ok fun u hu => ⟨_, _, fileclose_eq (by rw [hu]; exact hpos), by rw [hu]⟩)
          fun _ => Triple.modify _ fun u hu => ?_
        have hcomm : (t.fileclose f).setFd p fd none = (t.setFd p fd none).fileclose f := by
          unfold FS.setFd
          rw [fileclose_setProc, fileclose_proc]
        rw [hu, hcomm]
        have hproc : ((t.setFd p fd none).fileclose f).proc = (t.setFd p fd none).proc :=
          fileclose_proc ..
        refine ⟨hclose, ?_, fun fe hfe => ?_⟩
        · rw [hproc]
          simpa [FS.setFd, FS.setProc] using hused
        · rw [hproc]
          by_cases he : fe = fd
          · simp [FS.setFd, FS.setProc, he]
          · have := hclosed fe (by simp [he, hfe])
            simpa [FS.setFd, FS.setProc, he] using this
  · exact ⟨ht.1, ht.2, fun fd hfd => absurd (mem_fds fd) hfd⟩

theorem triple_kexit (hlax : Lax fr may) (hkept : Kept fr may P Q R)
    (hinuse : ∀ i, ¬ fr.inuse i) (h : Good fr (Before P) s)
    (hp : (s.proc p).used = true) :
    Triple may (fun t => t = s) (kexit p) (fun _ t => Good fr (Before P) t) := by
  unfold kexit
  refine Triple.ite (fun _ => triple_stop _ fun _ _ => hlax.other _ _ (by simp) (by simp)) fun _ => ?_
  refine Triple.bind (Triple.conseq (triple_exitFiles hkept hinuse) (fun t ht => by
    rw [ht]
    exact ⟨h, hp⟩) fun _ _ h => h) fun _ => Triple.bind_get fun t ht => ?_
  obtain ⟨hgood, hused, hnone⟩ := ht
  refine Triple.of_ok fun u hu => ⟨⟨⟩, ((t.iput (t.proc p).cwd).setProc p
    { (t.iput (t.proc p).cwd).proc p with used := false }), ?_, ?_⟩
  · subst hu
    show (iput (u.proc p).cwd u >>= fun r => _) = _
    rw [iput_eq]
    rfl
  · rw [iput_proc, ← iput_setProc]
    have hrefs := hgood.refs.leave hinuse hused (e := { t.proc p with used := false }) rfl
    have hsys : Sys fr t.core _ (t.setProc p { t.proc p with used := false }).proc t.ftable
        (t.setProc p { t.proc p with used := false }) := ⟨rfl, rfl, rfl, hrefs⟩
    refine Good.of_after (hsys.iput_after hkept hgood.kept)
      (hgood.files.congr_proc (setProc_ofile { t.proc p with used := false } rfl)) fun q hq fe => ?_
    rw [setProc_ofile { t.proc p with used := false } rfl q]
    by_cases hqp : q = p
    · rw [hqp]
      exact hnone fe
    · refine hgood.idle q ?_ fe
      simpa [FS.setProc, hqp] using hq

/-! ## `kfork` -/

/-- The child `np` has the descriptors of `p` that are not in `l`; it does not run yet. -/
structure Forking (fr : Frame) (P : Core × Option Nat → Prop) (p np : Pid)
    (l : List (Fin NOFILE)) (s : FS) : Prop where
  refs : Refs fr.inuse (fr.strict s.events) s.disk [] s.proc s.ftable s.itable
  kept : P (s.core, none)
  files : FileRefs s.proc s.ftable
  idle : ∀ q, q ≠ np → Idle s.proc q
  child : (s.proc np).used = false
  todo : l.Nodup ∧ ∀ fd ∈ l, (s.proc np).ofile fd = none
  parent : (s.proc p).used = true

theorem Forking.dup {np : Pid} {l : List (Fin NOFILE)} (h : Forking fr P p np (fd :: l) s)
    (hpos : 0 < (s.ftable f).ref) :
    Forking fr P p np l ((s.setFile f { s.ftable f with ref := (s.ftable f).ref + 1 }).setFd np fd
      (some f)) := by
  have hne : p ≠ np := by
    rintro rfl
    exact absurd (h.parent.symm.trans h.child) (by simp)
  have hnone := h.todo.2 fd (by simp)
  have hrefs : Refs fr.inuse (fr.strict s.events) s.disk [] (s.setFd np fd (some f)).proc
      (s.setFile f { s.ftable f with ref := (s.ftable f).ref + 1 }).ftable s.itable :=
    h.refs.holds_congr fun ip hd => (holds_dup hpos).trans holds_setFd
  refine ⟨hrefs, h.kept, h.files.open hnone rfl, fun q hq hused fe => ?_, ?_, ⟨?_, fun fe hfe => ?_⟩, ?_⟩
  · simp only [FS.setFile, FS.setFd, FS.setProc, Function.update_of_ne hq] at hused ⊢
    exact h.idle q hq hused fe
  · simpa [FS.setFile, FS.setFd, FS.setProc] using h.child
  · exact (List.nodup_cons.1 h.todo.1).2
  · have hfd : fe ≠ fd := by
      rintro rfl
      exact (List.nodup_cons.1 h.todo.1).1 hfe
    simpa [FS.setFile, FS.setFd, FS.setProc, hfd] using h.todo.2 fe (List.mem_cons_of_mem _ hfe)
  · simpa [FS.setFile, FS.setFd, FS.setProc, hne] using h.parent

/-- The loop of `kfork` over the descriptors. -/
theorem triple_forkFiles {f : Frame} {m : Panic × FS → Prop} (np : Pid) :
    Triple m (Forking f P p np fds) (fds.forM fun fd => do
      let s ← get
      match (s.proc p).ofile fd with
      | none => pure ⟨⟩
      | some f => do
        filedup f
        modify fun s => s.setFd np fd (some f)) (fun _ => Forking f P p np []) := by
  refine Triple.forM_left (fun fd l => Triple.bind_get fun t ht => ?_) fds
  cases hfd : (t.proc p).ofile fd with
  | none =>
      refine Triple.pure _ fun u hu => ?_
      subst hu
      exact ⟨ht.refs, ht.kept, ht.files, ht.idle, ht.child, ⟨(List.nodup_cons.1 ht.todo.1).2,
        fun fe hfe => ht.todo.2 fe (List.mem_cons_of_mem _ hfe)⟩, ht.parent⟩
  | some f =>
      have hpos : 0 < (t.ftable f).ref := (ht.files.count f).pos (i := (p, fd)) hfd
      refine Triple.bind (triple_filedup hpos) fun _ => Triple.modify _ fun u hu => ?_
      rw [hu]
      exact ht.dup hpos

theorem triple_kfork (h : Good fr (Before P) s) (hp : (s.proc p).used = true) {np : Pid}
    (hnp : (s.proc np).used = false) :
    Triple may (fun t => t = s) (kfork p np) (fun _ t => Good fr (Before P) t) := by
  unfold kfork
  have hloop := triple_forkFiles (f := fr) (m := may) (P := P) (p := p) np
  refine Triple.bind (Triple.conseq hloop (fun t ht => ?_) fun _ _ h => h) fun _ =>
    Triple.bind_get fun t ht => ?_
  · rw [ht]
    exact ⟨h.refs, h.kept, h.files, fun q _ => h.idle q, hnp, ⟨nodup_fds, fun fd _ => h.idle np hnp fd⟩,
      hp⟩
  · refine Triple.of_ok fun u hu => ⟨⟨⟩, _, rfl, ?_⟩
    subst hu
    have hholds : Holds u.proc u.ftable (u.proc p).cwd (.inl p) := ⟨ht.parent, rfl⟩
    have hpos : 0 < (u.itable (u.proc p).cwd).ref := by
      obtain ⟨n, hn, href⟩ := ht.refs.count (u.proc p).cwd
      have := hn.pos hholds
      omega
    have halloc := ht.refs.alloc _ hpos (Or.inr (Or.inl ⟨_, hholds⟩))
    have hrefs := (ht.refs.acquire hpos).enter (p := np)
      (e := { u.proc np with used := true, cwd := (u.proc p).cwd }) halloc ht.child rfl rfl
    refine ⟨hrefs, ht.kept, ht.files.congr_proc (setProc_ofile
      { u.proc np with used := true, cwd := (u.proc p).cwd } rfl), fun q hq fe => ?_⟩
    by_cases hqn : q = np
    · subst hqn
      simp [FS.setProc, FS.setInode] at hq
    · have hq' : (u.proc q).used = false := by simpa [FS.setProc, FS.setInode, hqn] using hq
      simpa [FS.setProc, FS.setInode, hqn] using ht.idle q hqn hq' fe

/-! ## Every step -/

theorem triple_run (hlax : Lax fr may) (hkept : Kept fr may P (Before P) (Before P))
    (hinuse : ∀ i, ¬ fr.inuse i) (h : Good fr (Before P) s) (hp : (s.proc p).used = true)
    (call : Call) (hfork : ∀ np, call = .fork np → (s.proc np).used = false) :
    Triple may (fun t => t = s) (call.run p) (fun _ t => Good fr (Before P) t) := by
  have hended : ∀ x : K Int, Triple may (Sys fr s.core [] s.proc s.ftable) x
      (Ended fr P (Before P) s.proc s.ftable) →
      Triple may (fun t => t = s) x (fun _ t => Good fr (Before P) t) := fun x hx =>
    Triple.conseq hx (fun t ht => by rw [ht]; exact h.sys) fun r t ht => by
      by_cases hr : r = -1
      · exact Good.of_after (ht.1 hr) h.files h.idle
      · exact Good.of_after (ht.2 hr) h.files h.idle
  have hzero : ∀ x : K PUnit, Triple may (fun t => t = s) x (fun _ t => Good fr (Before P) t) →
      Triple may (fun t => t = s) (x >>= fun _ => pure (0 : Int)) (fun _ t => Good fr (Before P) t) :=
    fun x hx => Triple.bind hx fun _ => Triple.pure _ fun t ht => ht
  cases call with
  | «open» path omode =>
      refine Triple.conseq (triple_sysOpen hlax hkept h hp path omode) (fun _ h => h)
        fun r t ht => ?_
      by_cases hr : r = -1
      · rcases ht.1 hr with ht | ⟨-, -, inum, ht⟩
        · exact Good.of_after ht h.files h.idle
        · exact Good.of_after (ht.imp fun _ => And.left) h.files h.idle
      · exact ht.2 hr
  | mkdir path => exact hended _ (triple_sysMkdir hlax hkept h.kept hp path)
  | mknod path major minor => exact hended _ (triple_sysMknod hlax hkept h.kept hp path major minor)
  | link old new => exact hended _ (triple_sysLink hlax hkept h.kept hp old new)
  | unlink path => exact hended _ (triple_sysUnlink hlax hkept h.kept hp path)
  | chdir path => exact triple_sysChdir hlax hkept hinuse h hp path
  | dup fd => exact triple_sysDup h hp fd
  | close fd => exact triple_sysClose hkept hinuse h fd
  | fork np => exact hzero _ (triple_kfork h hp (hfork np rfl))
  | exit => exact hzero _ (triple_kexit hlax hkept hinuse h hp)

/-- What every state of a run satisfies. -/
def Sound (fr : Frame) (may : Panic × FS → Prop) (P : Core × Option Nat → Prop) (s : State) : Prop :=
  match s.panic with
  | none => Good fr (Before P) s.fs
  | some e => may (e, s.fs)

theorem Sound.step (hlax : Lax fr may) (hkept : Kept fr may P (Before P) (Before P))
    (hinuse : ∀ i, ¬ fr.inuse i) {s t : State} {l : Label} (h : Sound fr may P s)
    (hstep : step s l = some t) : Sound fr may P t := by
  unfold Fs.step at hstep
  split at hstep
  · rename_i hen
    simp only [State.enabled, Bool.and_eq_true, Option.isNone_iff_eq_none] at hen
    obtain ⟨⟨hpanic, hp⟩, hfork⟩ := hen
    have hgood : Good fr (Before P) s.fs := by
      unfold Sound at h
      rw [hpanic] at h
      exact h
    have hgood : Good fr (Before P) { s.fs with blocks := l.blocks } :=
      ⟨hgood.refs, hgood.kept, hgood.files, hgood.idle⟩
    have htriple := triple_run hlax hkept hinuse hgood hp l.call
      (fun np hnp => by simpa [hnp] using hfork) _ rfl
    revert htriple
    cases hr : l.call.run l.p { s.fs with blocks := l.blocks } with
    | error e =>
        rw [hr] at hstep
        obtain rfl := Option.some.inj hstep
        exact id
    | ok r =>
        rw [hr] at hstep
        obtain rfl := Option.some.inj hstep
        exact id
  · cases hstep

/-- After boot, if the disk is as it should be. -/
theorem sound_boot (hinuse : ∀ i, ¬ fr.inuse i) {ninodes : Nat} {disk : Nat → Dinode}
    (hroot : (disk ROOTINO).type ≠ .free)
    (hP : P (⟨ninodes, disk, []⟩, none)) : Sound fr may P (boot ninodes disk) := by
  have hholds : ∀ ip hd, Holds (boot ninodes disk).fs.proc (boot ninodes disk).fs.ftable ip hd ↔
      ip.val = 0 ∧ hd = .inl initproc := by
    intro ip hd
    cases hd with
    | inl q =>
        simp only [Holds, Fs.boot, decide_eq_true_eq, Sum.inl.injEq, Fin.ext_iff]
        rw [and_comm, eq_comm]
    | inr f => simp [Holds, Fs.boot]
  have hpos : ∀ ip, 0 < ((boot ninodes disk).fs.itable ip).ref → ip.val = 0 := by
    intro ip h
    by_contra hne
    simp [Fs.boot, hne] at h
  refine ⟨⟨fun ip => ?_, fun ip jp hi hj _ => ?_, fun ip _ hv => ?_, fun ip hi _ => ?_, ?_,
    fun i hi => absurd hi (hinuse i)⟩, hP,
    ⟨fun f => ?_, fun f _ => rfl⟩, fun p _ fd => rfl⟩
  · by_cases hip : ip.val = 0
    · refine ⟨1, (Counts.zero (P := fun _ => False) (fun _ => id)).insert (i := .inl initproc) id
        fun hd => ?_, ?_⟩
      · simp [hholds, hip]
      · simp [Fs.boot, hip]
    · exact ⟨0, Counts.zero fun hd => by simp [hholds, hip], by simp [Fs.boot, hip]⟩
  · exact Fin.ext ((hpos ip hi).trans (hpos jp hj).symm)
  · simp [Fs.boot] at hv
  · simpa [Fs.boot, hpos ip hi] using hroot
  · simp
  · exact Counts.zero fun d => by simp [Descr, Fs.boot]

end Xv6.Fs
