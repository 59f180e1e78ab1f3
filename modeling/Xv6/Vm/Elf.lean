import Xv6.Vm.Children

set_option autoImplicit false

/-! # Loading a program

What `kexec` of `kernel/exec.c` reads of an executable file, and how it loads the segments into a new page table.
The file
stands for its bytes, as `readi` finds them. What the new program sees then is `image`: clear pages, with the bytes
of the
file over them. -/

namespace Xv6.Vm.Copy

open Xv6.Lib
open Xv6.Eager (owned below_maxva le_maxva pgroundup_le_top)

/-- The panics of the functions of `kernel/vm.c`, and `loadseg: address should exist`. -/
inductive Stop where
  | vm (e : Panic)
  | loadseg
  deriving DecidableEq

abbrev KE := Code Stop Ram

/-- Calls a function of `kernel/vm.c`. -/
def vm {α : Type} (x : KR α) : KE α := fun r => (x r).mapError Stop.vm

/-! ## The format -/

def uint (n : Nat) : Nat := n % 2 ^ 32

/-- The number of `n` bytes at `off`, the lowest byte first. -/
def field (bs : List Byte) (off n : Nat) : Nat := ((bs.drop off).take n).foldr (fun b x => b.toNat + 2 ^ 8 * x) 0

/-- `"\x7FELF"` in little endian -/
def ELF_MAGIC : Nat := 0x464C457F

def ELF_PROG_LOAD : Nat := 1

/-- What `kexec` uses of `struct elfhdr`. -/
structure Elfhdr where
  magic : Nat
  entry : Nat
  phoff : Nat
  phnum : Nat

def elfhdrSize : Nat := 64

def elfhdr (bs : List Byte) : Elfhdr := ⟨field bs 0 4, field bs 24 8, field bs 32 8, field bs 56 2⟩

/-- What `kexec` uses of `struct proghdr`. -/
structure Proghdr where
  type : Nat
  flags : Nat
  off : Nat
  vaddr : Nat
  filesz : Nat
  memsz : Nat
  deriving DecidableEq

def proghdrSize : Nat := 56

def proghdr (bs : List Byte) : Proghdr :=
  ⟨field bs 0 4, field bs 4 4, field bs 8 8, field bs 16 8, field bs 32 8, field bs 40 8⟩

/-- What `readi` reads of a file with the bytes `f`; `off` and `n` are `uint`. -/
def readi (f : List Byte) (off n : Nat) : List Byte :=
  if f.length < off ∨ uint (off + n) < off then [] else (f.drop off).take n

/-- ELF permissions to PTE permission bits. -/
def flags2perm (flags : Nat) : Perm := ⟨false, decide (flags / 2 % 2 = 1), decide (flags % 2 = 1), false⟩

/-! ## The code -/

/-- `k` rounds of the loop from `i` on. The counter of the code wraps around where `sz` is almost 2³²; then no file is
    that long, and a round before has failed. -/
def loadsegLoop (pt : PageTable) (va : Nat) (f : List Byte) (offset sz : Nat) : Nat → Nat → KE Int
  | 0, _ => pure 0
  | k + 1, i => do
    let pa ← vm (onMem (walkaddr pt ((va + i) % 2 ^ 64)))
    if pa = 0 then throw .loadseg
    else do
      let n := if sz - i < PGSIZE then sz - i else PGSIZE
      vm (memmove pa (readi f (uint (offset + i)) n))
      if (readi f (uint (offset + i)) n).length ≠ n then pure (-1) else loadsegLoop pt va f offset sz k (i + PGSIZE)

def loadseg (pt : PageTable) (va : Nat) (f : List Byte) (offset sz : Nat) : KE Int :=
  loadsegLoop pt va f offset sz ((sz + PGSIZE - 1) / PGSIZE) 0

/-- The loop over the program headers, `n` of them from `off` on: the page table, the size, and
`false` for `goto bad`. -/
def loadProghdrs (f : List Byte) : Nat → Nat → PageTable → Nat → KE (PageTable × Nat × Bool)
  | 0, _, pt, sz => pure (pt, sz, true)
  | n + 1, off, pt, sz =>
    if (readi f off proghdrSize).length ≠ proghdrSize then pure (pt, sz, false)
    else
      let ph := proghdr (readi f off proghdrSize)
      if ph.type ≠ ELF_PROG_LOAD then loadProghdrs f n (uint (off + proghdrSize)) pt sz
      else if ph.memsz < ph.filesz then pure (pt, sz, false)
      else if (ph.vaddr + ph.memsz) % 2 ^ 64 < ph.vaddr then pure (pt, sz, false)
      else if ph.vaddr % PGSIZE ≠ 0 then pure (pt, sz, false)
      else do
        let r ← vm (uvmalloc pt sz ((ph.vaddr + ph.memsz) % 2 ^ 64) (flags2perm ph.flags))
        if r.2 = 0 then pure (r.1, sz, false)
        else do
          let ok ← loadseg r.1 ph.vaddr f (uint ph.off) (uint ph.filesz)
          if ok < 0 then pure (r.1, r.2, false) else loadProghdrs f n (uint (off + proghdrSize)) r.1 r.2

/-! ## What is to be loaded -/

/-- The program headers, if the file has them. -/
def proghdrs (f : List Byte) : Nat → Nat → Option (List Proghdr)
  | 0, _ => some []
  | n + 1, off =>
    if (readi f off proghdrSize).length ≠ proghdrSize then none
    else (proghdrs f n (uint (off + proghdrSize))).map (proghdr (readi f off proghdrSize) :: ·)

/-- The bytes of the file in a segment. -/
def Proghdr.bytes (ph : Proghdr) (f : List Byte) : List Byte := (f.drop (uint ph.off)).take (uint ph.filesz)

/-- The segment is in the file, and has a place in memory. -/
def Proghdr.Fits (ph : Proghdr) (f : List Byte) : Prop :=
  ph.filesz ≤ ph.memsz ∧ ph.vaddr + ph.memsz < 2 ^ 64 ∧ ph.vaddr % PGSIZE = 0 ∧ (ph.bytes f).length = uint ph.filesz

instance (ph : Proghdr) (f : List Byte) : Decidable (ph.Fits f) := instDecidableAnd

/-- One more segment over a memory of a size. -/
def loadSegment (f : List Byte) (m : UserMem × Nat) (ph : Proghdr) : Option (UserMem × Nat) :=
  if ph.type ≠ ELF_PROG_LOAD then some m
  else if ¬ ph.Fits f ∨ max m.2 (ph.vaddr + ph.memsz) = 0 then none
  else some ((m.1.grow (PGROUNDUP m.2) (PGROUNDUP (max m.2 (ph.vaddr + ph.memsz)))
    { flags2perm ph.flags with R := true, U := true }).store ph.vaddr (ph.bytes f), max m.2 (ph.vaddr + ph.memsz))

/-- The segments of an executable file, if it is one. -/
def program (f : List Byte) : Option (List Proghdr) :=
  if (readi f 0 elfhdrSize).length ≠ elfhdrSize ∨ (elfhdr (readi f 0 elfhdrSize)).magic ≠ ELF_MAGIC then none
  else proghdrs f (elfhdr (readi f 0 elfhdrSize)).phnum (uint (elfhdr (readi f 0 elfhdrSize)).phoff)

/-- What a program sees at first, and its size. -/
def image (f : List Byte) : Option (UserMem × Nat) :=
  (program f).bind fun l => l.foldlM (loadSegment f) (noMem, 0)

variable {T X : Multiset Nat} {b₀ : Nat → Byte} {top : Nat → Pte} {pt : PageTable} {lim va sz off offset i n : Nat}
    {u : UserMem}
  {sh : Bool} {f : List Byte} {r : Ram}

/-! ## Reading the file -/

theorem field_lt (bs : List Byte) (off n : Nat) : field bs off n < 2 ^ (8 * n) := by
  have hfold : ∀ l : List Byte, l.foldr (fun b x => b.toNat + 2 ^ 8 * x) 0 < 2 ^ (8 * l.length) := by
    intro l
    induction l with
    | nil => decide
    | cons b l ih =>
      have hb : b.toNat < 2 ^ 8 := b.isLt
      rw [List.foldr_cons, List.length_cons, Nat.mul_add, Nat.pow_add]
      calc b.toNat + 2 ^ 8 * l.foldr (fun b x => b.toNat + 2 ^ 8 * x) 0
          < 2 ^ 8 + 2 ^ 8 * l.foldr (fun b x => b.toNat + 2 ^ 8 * x) 0 := Nat.add_lt_add_right hb _
        _ = 2 ^ 8 * (l.foldr (fun b x => b.toNat + 2 ^ 8 * x) 0 + 1) := by
          rw [Nat.mul_add, Nat.mul_one, Nat.add_comm]
        _ ≤ 2 ^ 8 * 2 ^ (8 * l.length) := Nat.mul_le_mul_left _ ih
        _ = 2 ^ (8 * l.length) * 2 ^ (8 * 1) := Nat.mul_comm ..
  refine lt_of_lt_of_le (hfold _) (Nat.pow_le_pow_right (by decide) (Nat.mul_le_mul_left _ ?_))
  rw [List.length_take]
  exact Nat.min_le_left ..

theorem uint_of_lt (h : n < 2 ^ 32) : uint n = n := Nat.mod_eq_of_lt h

theorem uint_lt (n : Nat) : uint n < 2 ^ 32 := Nat.mod_lt _ (by decide)

/-- All bytes are read exactly if the file has them. -/
theorem readi_full (hf : f.length < 2 ^ 32) (hn : 0 < n) : (readi f off n).length = n ↔ off + n ≤ f.length := by
  unfold readi
  by_cases h : f.length < off ∨ uint (off + n) < off
  · rw [if_pos h, List.length_nil]
    refine ⟨fun h0 => by omega, fun hle => ?_⟩
    rw [uint_of_lt (by omega)] at h
    omega
  · rw [if_neg h, List.length_take, List.length_drop]
    omega

theorem readi_eq (hf : f.length < 2 ^ 32) (hle : off + n ≤ f.length) : readi f off n = (f.drop off).take n := by
  unfold readi
  rw [if_neg (by rw [uint_of_lt (by omega)]; omega)]

/-! ## A segment -/

theorem Triple.vm {α : Type} {P : Ram → Prop} {x : KR α} {Q : α → Ram → Prop} (h : Runs P x Q) :
    Triple (fun _ => False) P (vm x) Q := by
  intro r hr
  have hx := h r hr
  unfold Copy.vm
  cases hrun : x r with
  | ok a =>
    rw [hrun] at hx
    exact hx
  | error e =>
    rw [hrun] at hx
    exact hx.elim

/-- The code returns. -/
abbrev RunsE {α : Type} (P : Ram → Prop) (x : KE α) (Q : α → Ram → Prop) : Prop := Triple (fun _ => False) P x Q

/-- Bytes on one page of the process. -/
theorem At.move {a m : Nat} {bs : List Byte} (hT : Frames T) (h : At T b₀ top X pt lim u sh r) (halign : a % PGSIZE = 0)
    (hlim : a < lim) (hv : (pteAt pt a).V = true) (hm : bs.length ≤ m) (hpage : m ≤ PGSIZE) :
    At T b₀ top X pt lim (u.store a bs) sh { r with byte := moved r.byte (pteAt pt a).pa bs } := by
  have hdown : PGROUNDDOWN a = a := by
    unfold PGROUNDDOWN PGSIZE at *
    omega
  have hchunk : bs.length ≤ chunk a m := by
    unfold chunk
    rw [hdown]
    omega
  have hmoved := h.view_moved hT (by rwa [hdown]) (by rwa [hdown]) hchunk
  rw [hdown, Nat.sub_self, Nat.add_zero] at hmoved
  have hwithin : Within T r.byte (moved r.byte ((pteAt pt a).pa + 0) bs) :=
    within_moved (h.mem_of_leaf hlim hv) (by omega) r.byte
  exact ⟨h.space, h.pages, h.within.trans hwithin, hmoved, h.short⟩

theorem Full.walkaddr (hT : Frames T) (hfull : Full pt lim) (h : At T b₀ top X pt lim u sh r) {a : Nat}
    (ha : a < lim) (m : Mem) :
    walkaddr pt a m = .ok ((pteAt pt a).pa, m) ∧ (pteAt pt a).pa ≠ 0 := by
  have hpte := hfull a ha
  refine ⟨?_, (hT.page _ (h.mem_of_leaf ha hpte.1)).1⟩
  rw [walkaddr_eq, if_pos ⟨h.space.ltmax ha, hpte⟩]

theorem loadsegLoop_at (hT : Frames T) (hfull : Full pt lim) (hva : va % PGSIZE = 0) (hfit : va + sz ≤ lim)
    (hsz : sz < 2 ^ 32)
    (hf : f.length < 2 ^ 32) (hoffset : offset < 2 ^ 32) (k : Nat) (hi : i % PGSIZE = 0)
    (hk : k = (sz - i + PGSIZE - 1) / PGSIZE)
    (hfile : min i sz = 0 ∨ offset + min i sz ≤ f.length) :
    RunsE (At T b₀ top X pt lim (u.store va ((f.drop offset).take (min i sz))) sh)
    (loadsegLoop pt va f offset sz k i) fun ok r =>
      ok = 0 ∧ (sz = 0 ∨ offset + sz ≤ f.length) ∧ At T b₀ top X pt lim (u.store va ((f.drop offset).take sz)) sh r ∨
      ok = -1 ∧ (0 < sz ∧ f.length < offset + sz) ∧ ∃ u', At T b₀ top X pt lim u' sh r := by
  induction k generalizing i with
  | zero =>
    have hend : min i sz = sz := by
      unfold PGSIZE at *
      omega
    rw [hend] at hfile ⊢
    exact Triple.pure _ fun r h => .inl ⟨rfl, hfile, h⟩
  | succ k ih =>
    -- a step is left, so that i is still inside the segment
    have hlt : i < sz := by
      unfold PGSIZE at *
      omega
    have hmin : min i sz = i := Nat.min_eq_left (Nat.le_of_lt hlt)
    rw [hmin] at hfile ⊢
    have hsmall : offset + i < 2 ^ 32 := by omega
    refine Triple.each fun r₀ h => ?_
    have htop := h.space.below
    have hmax : TRAPFRAME < 2 ^ 64 := by decide
    have halign : (va + i) % PGSIZE = 0 := by
      unfold PGSIZE at *
      omega
    have hwalk := hfull.walkaddr hT h (a := va + i) (by omega)
    unfold loadsegLoop
    rw [Nat.mod_eq_of_lt (show va + i < 2 ^ 64 by omega), uint_of_lt hsmall]
    refine Triple.bind (R := fun pa r => pa = (pteAt pt (va + i)).pa ∧ r = r₀)
      (Triple.vm (Triple.of_ok fun r hr => ⟨_, _,
      onMem_ok (hwalk r.mem).1, rfl, hr⟩)) fun pa => ?_
    refine Triple.each fun r₁ hr₁ => ?_
    obtain ⟨hpa, hr⟩ := hr₁
    subst hpa hr
    refine Triple.ite (fun h0 => absurd h0 (hwalk r₁.mem).2) fun _ => ?_
    simp only
    have hn : (if sz - i < PGSIZE then sz - i else PGSIZE) = min (sz - i) PGSIZE := by
      split <;> omega
    rw [hn]
    let m := min (sz - i) PGSIZE
    have hm : 0 < m := by
      have := pgsize_pos
      omega
    have hread : (readi f (offset + i) m).length ≤ m := by
      unfold readi
      split
      · exact Nat.zero_le _
      · exact List.length_take_le ..
    have hmove := h.move hT halign (by omega) (hfull _ (by omega)).1 hread (Nat.min_le_right ..)
    refine Triple.bind (R := fun _ r => At T b₀ top X pt lim ((u.store va ((f.drop offset).take i)).store (va + i)
      (readi f (offset + i) m)) sh r)
      (Triple.vm (Triple.of_ok fun r hr => ⟨_, _, memmove_eq .., by rw [hr]; exact hmove⟩)) fun _ => ?_
    refine Triple.ite (fun hshort => Triple.pure _ fun r hr => .inr ⟨rfl, ⟨by omega, ?_⟩, _, hr⟩) fun hall => ?_
    · have hle := (readi_full hf hm).not.1 hshort
      omega
    · have hle := (readi_full hf hm).1 (not_not.1 hall)
      have hlen : ((f.drop offset).take i).length = i := by
        rw [List.length_take, List.length_drop]
        omega
      have hnext : min (i + PGSIZE) sz = i + m := by omega
      -- what was loaded before and this page make one longer prefix of the segment
      have hstore : (u.store va ((f.drop offset).take i)).store (va + i) (readi f (offset + i) m) =
          u.store va ((f.drop offset).take (min (i + PGSIZE) sz)) := by
        have happend : (u.store va ((f.drop offset).take i)).store (va + ((f.drop offset).take i).length)
            ((f.drop (offset + i)).take m) = _ := UserMem.store_append
        rw [hlen] at happend
        rw [readi_eq hf hle, happend, hnext, List.take_add, List.drop_drop]
      rw [hstore]
      exact ih (by rw [Nat.add_mod_right, hi]) (by unfold PGSIZE at *; omega) (.inr (by omega))

/-- The bytes of the segment are in memory, or the file does not have them. -/
theorem loadseg_at (hT : Frames T) (hfull : Full pt lim) (hva : va % PGSIZE = 0) (hfit : va + sz ≤ lim)
    (hsz : sz < 2 ^ 32)
    (hf : f.length < 2 ^ 32) (hoffset : offset < 2 ^ 32) :
    RunsE (At T b₀ top X pt lim u sh) (loadseg pt va f offset sz) fun ok r =>
      ok = 0 ∧ (sz = 0 ∨ offset + sz ≤ f.length) ∧ At T b₀ top X pt lim (u.store va ((f.drop offset).take sz)) sh r ∨
      ok = -1 ∧ (0 < sz ∧ f.length < offset + sz) ∧ ∃ u', At T b₀ top X pt lim u' sh r := by
  have hloop := @loadsegLoop_at T X b₀ top pt lim va sz offset 0 u sh f hT hfull hva hfit hsz hf hoffset
    ((sz + PGSIZE - 1) / PGSIZE) (Nat.zero_mod _) (by rw [Nat.sub_zero]) (.inl (Nat.zero_min _))
  rw [Nat.zero_min, List.take_zero, UserMem.store_nil] at hloop
  exact hloop

/-! ## The program headers -/

theorem proghdr_bounds (bs : List Byte) : (proghdr bs).vaddr < 2 ^ 64 ∧ (proghdr bs).memsz < 2 ^ 64 :=
  ⟨field_lt bs 16 8, field_lt bs 40 8⟩

theorem Proghdr.bytes_length (ph : Proghdr) (f : List Byte) :
    (ph.bytes f).length = uint ph.filesz ↔ uint ph.filesz = 0 ∨ uint ph.off + uint ph.filesz ≤ f.length := by
  unfold Proghdr.bytes
  rw [List.length_take, List.length_drop]
  omega

/-- What the segments of these headers make of a memory of a size. -/
def loadAll (f : List Byte) (n off : Nat) (m : UserMem × Nat) : Option (UserMem × Nat) :=
  (proghdrs f n off).bind fun l => l.foldlM (loadSegment f) m

theorem loadAll_short (h : (readi f off proghdrSize).length ≠ proghdrSize) (m : UserMem × Nat) :
    loadAll f (n + 1) off m = none := by
  unfold loadAll proghdrs
  rw [if_pos h]
  rfl

/-- The first segment, and then the others. -/
theorem loadAll_cons (h : (readi f off proghdrSize).length = proghdrSize) (m : UserMem × Nat) :
    loadAll f (n + 1) off m =
      (loadSegment f m (proghdr (readi f off proghdrSize))).bind (loadAll f n (uint (off + proghdrSize))) := by
  unfold loadAll
  rw [proghdrs, if_neg (not_not.2 h)]
  cases proghdrs f n (uint (off + proghdrSize)) with
  | none => cases loadSegment f m (proghdr (readi f off proghdrSize)) <;> rfl
  | some l => rfl

theorem loadSegment_other {ph : Proghdr} (h : ph.type ≠ ELF_PROG_LOAD) (m : UserMem × Nat) :
    loadSegment f m ph = some m := if_pos h

theorem loadSegment_none {ph : Proghdr} {m : UserMem × Nat} (h : ph.type = ELF_PROG_LOAD)
    (hbad : ¬ ph.Fits f ∨ max m.2 (ph.vaddr + ph.memsz) = 0) : loadSegment f m ph = none := by
  unfold loadSegment
  rw [if_neg (not_not.2 h), if_pos hbad]

/-- The segments loaded so far. -/
structure Loading (T : Multiset Nat) (b₀ : Nat → Byte) (top : Nat → Pte) (X : Multiset Nat) (pt : PageTable) (sz : Nat)
    (u : UserMem) (sh : Bool) (r : Ram) : Prop where
  size : sz ≤ TRAPFRAME
  space : At T b₀ top X pt (PGROUNDUP sz) u sh r
  full : Full pt (PGROUNDUP sz)

/-- Where the loop ends, or where it has been left because of the file or of memory. -/
def Loaded (T : Multiset Nat) (b₀ : Nat → Byte) (top : Nat → Pte) (X : Multiset Nat) (sh : Bool)
    (m : Option (UserMem × Nat))
    (q : PageTable × Nat × Bool) (r : Ram) : Prop :=
  q.2.2 = true ∧ (∃ u, m = some (u, q.2.1) ∧ Loading T b₀ top X q.1 q.2.1 u sh r) ∨
  q.2.2 = false ∧ q.2.1 ≤ TRAPFRAME ∧ ∃ u, At T b₀ top X q.1 (PGROUNDUP q.2.1) u true r ∨
    m = none ∧ At T b₀ top X q.1 (PGROUNDUP q.2.1) u sh r

theorem loadProghdrs_at (hT : Frames T) (hcard : T.card < TRAPFRAME / PGSIZE) (hf : f.length < 2 ^ 32) (n off : Nat) :
    RunsE (Loading T b₀ top X pt sz u sh) (loadProghdrs f n off pt sz)
    (Loaded T b₀ top X sh (loadAll f n off (u, sz))) := by
  induction n generalizing off pt sz u with
  | zero => exact Triple.pure _ fun r h => .inl ⟨rfl, u, rfl, h⟩
  | succ n ih =>
    -- the file is bad
    have hbad : loadAll f (n + 1) off (u, sz) = none → RunsE (Loading T b₀ top X pt sz u sh) (pure (pt, sz, false))
        (Loaded T b₀ top X sh (loadAll f (n + 1) off (u, sz))) := fun hnone =>
      Triple.pure _ fun r h => .inr ⟨rfl, h.size, u, .inr ⟨hnone, h.space⟩⟩
    unfold loadProghdrs
    refine Triple.ite (fun hshort => hbad (loadAll_short hshort _)) fun hlen => ?_
    have hcons := loadAll_cons (n := n) (not_not.1 hlen) (u, sz)
    let ph := proghdr (readi f off proghdrSize)
    have hbounds := proghdr_bounds (readi f off proghdrSize)
    have hnone : ph.type = ELF_PROG_LOAD → (¬ ph.Fits f ∨ max sz (ph.vaddr + ph.memsz) = 0) →
        loadAll f (n + 1) off (u, sz) = none := fun htype h => by rw [hcons, loadSegment_none htype h, Option.bind_none]
    refine Triple.ite (fun htype => ?_) fun htype => ?_
    · rw [hcons, loadSegment_other htype]
      exact ih _
    have hload : ph.type = ELF_PROG_LOAD := not_not.1 htype
    refine Triple.ite (fun hlt => hbad (hnone hload (.inl fun hfits => absurd hfits.1 (Nat.not_le.2 hlt))))
      fun hmemsz => ?_
    refine Triple.ite (fun hwrap => hbad (hnone hload (.inl fun hfits => ?_))) fun hwrap => ?_
    · rw [Nat.mod_eq_of_lt hfits.2.1] at hwrap
      exact absurd hwrap (Nat.not_lt.2 (Nat.le_add_right ..))
    refine Triple.ite (fun halign => hbad (hnone hload (.inl fun hfits => halign hfits.2.2.1))) fun halign => ?_
    have hva : ph.vaddr % PGSIZE = 0 := not_not.1 halign
    have hend : ph.vaddr + ph.memsz < 2 ^ 64 := by
      simp only [ph] at *
      omega
    rw [Nat.mod_eq_of_lt hend]
    refine Triple.each fun r₀ h => ?_
    refine (Triple.bind (Triple.vm (uvmalloc_at hT h.size (.inr ⟨h.full, hcard⟩))) fun a => ?_ :
      RunsE (At T b₀ top X pt (PGROUNDUP sz) u sh) _ _).conseq (fun s hs => hs ▸ h.space) fun _ _ h => h
    refine Triple.ite (fun h0 => Triple.pure _ fun s hs => ?_) fun h0 => ?_
    · obtain ⟨hle, hat⟩ := hs.1 h0
      refine .inr ⟨rfl, h.size, u, ?_⟩
      by_cases hzero : 0 < ph.vaddr + ph.memsz
      · rw [decide_eq_true hzero, Bool.or_true] at hat
        exact .inl hat
      · rw [decide_eq_false hzero, Bool.or_false] at hat
        exact .inr ⟨hnone hload (.inr (by simp only [ph] at *; omega)), hat⟩
    · refine Triple.each fun r₁ hr₁ => ?_
      obtain ⟨hmax, htop, hat, hfull⟩ := hr₁.2 h0
      have hfit : ph.vaddr + uint ph.filesz ≤ PGROUNDUP a.2 := by
        have hround := le_pgroundup (le_maxva htop)
        have hmod : uint ph.filesz ≤ ph.filesz := Nat.mod_le ..
        simp only [ph] at *
        omega
      refine (Triple.bind (loadseg_at hT (hfull h.full) hva hfit (uint_lt _) hf (uint_lt _)) fun ok => ?_ :
        RunsE (At T b₀ top X a.1 (PGROUNDUP a.2) _ sh) _ _).conseq (fun s hs => hs ▸ hat) fun _ _ h => h
      refine Triple.ite (fun hneg => Triple.pure _ fun s hs => ?_) fun hpos => ?_
      · obtain ⟨-, hshort, u', hat'⟩ := hs.resolve_left fun hs => by rw [hs.1] at hneg; exact Int.lt_irrefl 0 hneg
        refine .inr ⟨rfl, htop, u', .inr ⟨hnone hload (.inl fun hfits => ?_), hat'⟩⟩
        have hall := (ph.bytes_length f).1 hfits.2.2.2
        simp only [ph] at *
        omega
      · refine Triple.each fun r₂ hr₂ => ?_
        obtain ⟨-, hfile, hat'⟩ := hr₂.resolve_right fun hs => by rw [hs.1] at hpos; exact hpos (by decide)
        have hfits : ph.Fits f := ⟨by simp only [ph] at *; omega, hend, hva, (ph.bytes_length f).2 hfile⟩
        have hsome : loadSegment f (u, sz) ph = some ((u.grow (PGROUNDUP sz) (PGROUNDUP a.2)
            { flags2perm ph.flags with R := true, U := true }).store ph.vaddr (ph.bytes f), a.2) := by
          unfold loadSegment
          rw [if_neg (not_not.2 hload), if_neg (not_or.2 ⟨not_not.2 hfits, by rw [← hmax]; exact h0⟩), ← hmax]
        rw [hcons, hsome, Option.bind_some]
        exact (ih _).conseq (fun s hs => hs ▸ ⟨htop, hat', hfull h.full⟩) fun _ _ h => h

end Xv6.Vm.Copy
