import Xv6.Lib.Tally
import Xv6.Blocks.Transactions

set_option autoImplicit false

/-! # Between system calls

Then no inode is locked, and each reference in the inode table is an open file or a current directory. Every
system call leaves it so, whether it succeeds or not. -/

namespace Xv6.Blocks

open Xv6.Lib
open Xv6.Fs (NINODE NFILE NDEV ROOTINO DIRSIZ MAXFILE Ip)

/-- The inodes that are in use, and whether they are open for writing: of the current directories
    and of the open files. -/
def pins (cwds : List Ip) (ftable : Fin NFILE → File) : List (Ip × Bool) :=
  cwds.map (fun ip => (ip, false)) ++ files.filterMap fun f =>
    if (ftable f).type = .none then none else some ((ftable f).ip, (ftable f).writable)

/-- The references of `cwds`, the current directories, and of the open files. -/
def State.lasting (t : State) (cwds : List Ip) : List Hold :=
  (pins cwds t.ftable).map fun p => ⟨p.1, (t.itable p.1).inum, false, p.2⟩

/-- What holds between system calls; `cwds` are the current directories of all processes. -/
structure Settled (sb : Superblock) (cwds : List Ip) (t : State) : Prop where
  wf : t.Wf sb
  dirs : DirsOk sb t
  table : Accounts (t.lasting cwds) t
  disk : ∀ h ∈ t.lasting cwds, h.Ok sb t
  closed : ∀ f, (t.ftable f).ref = 0 → (t.ftable f).type = .none

/-- An inode without a link is referred to. -/
def NoOrphan (sb : Superblock) (cwds : List Ip) (t : State) : Prop :=
  ∀ i, sb.Inum i → (t.dinode sb i).type ≠ 0 → (t.dinode sb i).nlink = 0 → ∃ h ∈ t.lasting cwds, h.inum = i

variable {sb : Superblock} {s t u : State} {counted : Prop} {ip jp dp : Ip} {i j k cost cost' top : Nat}
    {paid : List Nat}
variable {base base' held : List Hold} {g h : Hold} {o f w : Bool} {cwds : List Ip} {ftable : Fin NFILE → File}
variable {file : Fin NFILE} {e : File}

/-! ## The list of references -/

theorem mem_files (f : Fin NFILE) : f ∈ files := by
  unfold files
  exact List.mem_finRange f

theorem nodup_files : files.Nodup := by
  unfold files
  exact List.nodup_finRange NFILE

/-- What an entry of the file table refers to. -/
def File.pin (e : File) : List (Ip × Bool) := if e.type = .none then [] else [(e.ip, e.writable)]

theorem pins_perm (cwds : List Ip) (ftable : Fin NFILE → File) (f : Fin NFILE) (e : File) :
    ((ftable f).pin ++ pins cwds (Function.update ftable f e)).Perm (e.pin ++ pins cwds ftable) := by
  let pin : File → Option (Ip × Bool) := fun e => if e.type = .none then none else some (e.ip, e.writable)
  have hpin : ∀ e : File, e.pin = (pin e).toList := by
    intro e
    unfold File.pin
    by_cases he : e.type = .none
    · rw [if_pos he, show pin e = none from if_pos he]
      rfl
    · rw [if_neg he, show pin e = some (e.ip, e.writable) from if_neg he]
      rfl
  rw [hpin, hpin]
  have hmove := filterMap_update_perm nodup_files (mem_files f) ftable pin e
  unfold pins
  refine List.perm_append_comm_assoc _ _ _ |>.trans ?_
  refine List.Perm.trans ?_ (List.perm_append_comm_assoc _ _ _)
  exact hmove.append_left _

/-- References are known by what they refer to. -/
theorem Accounts.lasting (ha : Accounts held t) (hfree : ∀ g ∈ held, g.locked = false)
    (hp : (held.map fun g => (g.ip, g.file)).Perm (pins cwds t.ftable)) : held.Perm (t.lasting cwds) := by
  have hheld : held = (held.map fun g => (g.ip, g.file)).map fun p => ⟨p.1, (t.itable p.1).inum, false, p.2⟩ := by
    rw [List.map_map]
    refine (List.map_id held).symm.trans (List.map_congr_left fun g hg => ?_)
    rw [id, Function.comp_apply, ha.inum g hg, ← hfree g hg]
  rw [hheld]
  exact hp.map _

theorem lasting_pins (t : State) (cwds : List Ip) :
    ((t.lasting cwds).map fun g => (g.ip, g.file)) = pins cwds t.ftable := by
  unfold State.lasting
  rw [List.map_map]
  exact List.map_id _

theorem lasting_free {g : Hold} (hg : g ∈ t.lasting cwds) : g.locked = false := by
  obtain ⟨p, -, rfl⟩ := List.mem_map.1 hg
  rfl

/-! ## The beginning and the end of a call -/

theorem Settled.work (h : Settled sb cwds s) (hkept : counted → NoOrphan sb cwds s) :
    Work sb s counted (s.lasting cwds) [] 0 [] s where
  wf := h.wf
  dirs := h.dirs
  table := h.table
  disk := h.disk
  kept := fun hc i hi ht hl => .inr (hkept hc i hi ht hl)
  logs := Logs.refl s
  ftable := rfl
  ofile := rfl
  cwd := rfl

/-- The call takes over a reference, of which the inode is paid. -/
theorem Work.take (h : Work sb s counted base paid cost held t) (hp : base.Perm (g :: base')) :
    Work sb s counted base' (g.inum :: paid) (cost + 1) (g :: held) t := by
  have hperm : (held ++ base).Perm (g :: held ++ base') :=
    (hp.append_left held).trans List.perm_middle
  refine { h.pay g.inum with
    table := h.table.perm hperm
    disk := fun g' hg' => h.disk g' (hperm.mem_iff.2 hg')
    kept := fun hc j hj ht hl => ?_ }
  rcases h.kept hc j hj ht hl with hpaid | ⟨g', hg', hji⟩
  · exact .inl (List.mem_cons_of_mem _ hpaid)
  · rcases List.mem_cons.1 (hp.mem_iff.1 hg') with rfl | hg'
    · exact .inl (hji ▸ List.mem_cons_self)
    · exact .inr ⟨g', hg', hji⟩

/-- The parts of the state that are not about inodes change. -/
theorem Work.files {s' : State} (h : Work sb s counted base paid cost held t) (hlog : s'.logged = s.logged)
    (hu : ∃ ftable ofile cwd, u = { t with
      ftable := ftable
      ofile := ofile
      cwd := cwd })
    (hftable : u.ftable = s'.ftable) (hofile : u.ofile = s'.ofile) (hcwd : u.cwd = s'.cwd) :
    Work sb s' counted base paid cost held u := by
  obtain ⟨ftable, ofile, cwd, rfl⟩ := hu
  exact
    { wf := ⟨h.wf.own.congr (fun _ _ => rfl) fun _ _ => rfl, h.wf.inum, h.wf.uniq, h.wf.synced, h.wf.whole⟩
      dirs := h.dirs
      table := ⟨h.table.inum, h.table.valid, h.table.refs, h.table.locks⟩
      disk := fun g hg => ⟨(h.disk g hg).inum, (h.disk g hg).file⟩
      kept := h.kept
      logs := by
        rw [hlog]
        exact h.logs.mono (fun _ hi => hi) (fun _ => Nat.le_refl _) rfl
      ftable := hftable
      ofile := hofile
      cwd := hcwd }

theorem Work.setFile (h : Work sb s counted base paid cost held t) (file : Fin NFILE) (e : File) :
    Work sb (s.setFile file e) counted base paid cost held (t.setFile file e) := by
  refine h.files rfl ⟨_, _, _, rfl⟩ ?_ h.ofile h.cwd
  unfold State.setFile
  rw [h.ftable]

theorem Work.setOfile (h : Work sb s counted base paid cost held t) (ofile : Fin NOFILE → Option (Fin NFILE)) :
    Work sb { s with ofile := ofile } counted base paid cost held { t with ofile := ofile } :=
  h.files rfl ⟨_, _, _, rfl⟩ h.ftable rfl h.cwd

theorem Work.setCwd (h : Work sb s counted base paid cost held t) (cwd : Ip) :
    Work sb { s with cwd := cwd } counted base paid cost held { t with cwd := cwd } :=
  h.files rfl ⟨_, _, _, rfl⟩ h.ftable h.ofile rfl

/-- A reference may be used for less. -/
theorem Work.weaken (h : Work sb s counted base paid cost (⟨ip, i, o, f⟩ :: held) t) (hw : w = true → f = true) :
    Work sb s counted base paid cost (⟨ip, i, o, w⟩ :: held) t := by
  refine { h with table := h.table.file, disk := fun g hg => ?_ }
  rcases List.mem_cons.1 hg with rfl | hg
  · have hold := h.disk _ List.mem_cons_self
    exact ⟨hold.inum, fun hf => hold.file (hw hf)⟩
  · exact h.disk g (List.mem_cons_of_mem _ hg)

/-- The call is over if what it holds is what lasts. -/
theorem Work.settled (h : Work sb s counted base paid cost held t) (hfree : ∀ g ∈ held ++ base, g.locked = false)
    (hp : ((held ++ base).map fun g => (g.ip, g.file)).Perm (pins cwds s.ftable))
    (hclosed : ∀ f, (s.ftable f).ref = 0 → (s.ftable f).type = .none) : Settled sb cwds t := by
  have hlasting := h.table.lasting hfree (hp.trans (by rw [h.ftable]))
  refine ⟨h.wf, h.dirs, h.table.perm hlasting, fun g hg => h.disk g (hlasting.mem_iff.2 hg), ?_⟩
  rw [h.ftable]
  exact hclosed

end Xv6.Blocks
