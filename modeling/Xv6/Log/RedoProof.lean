import Xv6.Log.Redo

set_option autoImplicit false

/-! # Crash atomicity of the redo log

The proof follows the two disks a transaction goes through. While `write_log` runs, the header
count is 0 and no block outside the log has changed: the disk is `Clean`. The first `write_head`
makes it `Committed`: header and log blocks hold the transaction and each home block is old or new.
`install_trans` keeps it `Committed` and makes the home blocks new one by one; the last
`write_head` makes it `Clean` again. `recover_from_log` keeps `Clean` clean and takes `Committed`
through the same two states, whatever crashes on the way. -/

namespace Xv6.Log

open Xv6.Lib Durable

/-- `b` lies in the log area `[start, start + LOGBLOCKS]`. -/
def InLog (start b : Blockno) : Prop := ∃ i ≤ LOGBLOCKS, b = start + BitVec.ofNat 32 i

/-! ## Header blocks -/

theorem word_setHeadBlocks (hb : Block) (i k : Nat) (lh : List Blockno) (hk : k ≤ i) :
    (setHeadBlocks hb i lh).word k = hb.word k := by
  induction lh generalizing hb i with
  | nil => rfl
  | cons b bs ih =>
      rw [setHeadBlocks, ih _ _ (by omega), Block.word_setWord, if_neg (by omega)]

theorem headBlock_setHeadBlocks (hb : Block) (i k : Nat) (lh : List Blockno)
    (hk : k < lh.length) (hfit : i + lh.length < BSIZE / 4) :
    headBlock (setHeadBlocks hb i lh) (i + k) = lh[k] := by
  induction lh generalizing hb i k with
  | nil => simp at hk
  | cons b bs ih =>
      simp only [List.length_cons] at hk hfit
      cases k with
      | zero =>
          rw [setHeadBlocks, headBlock, word_setHeadBlocks _ _ _ _ (by omega),
            Block.word_setWord, if_pos ⟨by omega, by omega⟩]
          rfl
      | succ k =>
          have h := ih (hb.setWord (i + 1) b) (i + 1) k (by omega) (by omega)
          rw [setHeadBlocks, show i + (k + 1) = i + 1 + k by omega, h]
          rfl

theorem headCount_encodeHead (hb : Block) (lh : List Blockno) (hn : lh.length ≤ LOGBLOCKS) :
    headCount (encodeHead hb lh) = lh.length := by
  have hlt : lh.length < 2 ^ 31 := lt_of_le_of_lt hn (by decide)
  rw [headCount, encodeHead, word_setHeadBlocks _ _ _ _ (by omega), Block.word_setWord,
    if_pos ⟨rfl, by decide⟩, BitVec.toInt_eq_toNat_of_lt (by rw [BitVec.toNat_ofNat]; omega),
    BitVec.toNat_ofNat]
  omega

/-- `read_head` reads back what `write_head` wrote. -/
theorem decodeHead_encodeHead (hb : Block) (lh : List Blockno) (hn : lh.length ≤ LOGBLOCKS) :
    decodeHead (encodeHead hb lh) = lh := by
  have hfit : lh.length < BSIZE / 4 := lt_of_le_of_lt hn (by decide)
  unfold decodeHead
  rw [headCount_encodeHead hb lh hn, Int.toNat_natCast]
  apply List.ext_getElem
  · simp
  · intro k hk hk'
    have h := headBlock_setHeadBlocks (hb.setWord 0 (BitVec.ofNat 32 lh.length)) 0 k lh hk'
      (by omega)
    simpa [encodeHead] using h

theorem decodeHead_of_count_zero {hb : Block} (h : headCount hb = 0) : decodeHead hb = [] := by
  simp [decodeHead, h]

/-! ## Addresses of the log -/

theorem inLog_start (start : Blockno) : InLog start start := ⟨0, Nat.zero_le _, by simp⟩

theorem logBlock_eq (start : Blockno) (tail : Nat) :
    logBlock start tail = start + BitVec.ofNat 32 (tail + 1) := by
  rw [logBlock, BitVec.ofNat_add, BitVec.add_assoc]
  rfl

theorem inLog_logBlock {start : Blockno} {tail : Nat} (h : tail < LOGBLOCKS) :
    InLog start (logBlock start tail) := ⟨tail + 1, h, logBlock_eq start tail⟩

theorem ofNat_inj {i j : Nat} (hi : i ≤ LOGBLOCKS) (hj : j ≤ LOGBLOCKS)
    (h : BitVec.ofNat 32 i = BitVec.ofNat 32 j) : i = j := by
  have hl : LOGBLOCKS = 30 := rfl
  have h' := congrArg BitVec.toNat h
  simp only [BitVec.toNat_ofNat] at h'
  omega

theorem logBlock_inj {start : Blockno} {i j : Nat} (hi : i < LOGBLOCKS) (hj : j < LOGBLOCKS)
    (h : logBlock start i = logBlock start j) : i = j := by
  rw [logBlock_eq, logBlock_eq] at h
  have := ofNat_inj (Nat.succ_le_of_lt hi) (Nat.succ_le_of_lt hj) ((BitVec.add_right_inj start).1 h)
  omega

theorem logBlock_ne_start {start : Blockno} {i : Nat} (hi : i < LOGBLOCKS) :
    logBlock start i ≠ start := by
  intro h
  have h0 : start + BitVec.ofNat 32 (i + 1) = start + BitVec.ofNat 32 0 := by
    rw [← logBlock_eq, h]; simp
  have := ofNat_inj (Nat.succ_le_of_lt hi) (Nat.zero_le _) ((BitVec.add_right_inj start).1 h0)
  omega

/-! ## Buffers: a predicate on header, cached view and disk -/

/-- A condition on `log.lh`, on what `bread` finds in each block, and on the disk. -/
def OnView (A : List Blockno → (Blockno → Block) → Disk → Prop) (m : Mem) (d : Disk) : Prop :=
  A m.lh (m.read d) d

variable {A B : List Blockno → (Blockno → Block) → Disk → Prop} {C : Disk → Prop}

theorem read_update_read (m : Mem) (d : Disk) (b : Blockno) (data : Block) :
    Mem.read { m with cache := Function.update m.cache b (some data) } d
      = Function.update (m.read d) b data := by
  funext x
  by_cases hx : x = b
  · subst hx; simp [Mem.read]
  · simp [Mem.read, Function.update_of_ne hx]

theorem read_update_disk (m : Mem) (d : Disk) (b : Blockno) :
    m.read (Function.update d b (m.read d b)) = m.read d := by
  funext x
  by_cases hx : x = b
  · subst hx
    cases hc : m.cache x <;> simp [Mem.read, hc]
  · simp [Mem.read, Function.update_of_ne hx]

/-- `bread` returns what it finds, and changes nothing a later `bread` could see. -/
theorem triple_bread (b : Blockno) :
    Triple (OnView A) (bread b)
      (fun buf => OnView fun lh v d => buf = v b ∧ A lh v d) C := by
  refine Triple.access fun m d h => ?_
  have hview : Mem.read { m with cache := Function.update m.cache b (some (m.read d b)) } d
      = m.read d := by
    rw [read_update_read, Function.update_eq_self]
  unfold OnView
  rw [hview]
  exact ⟨rfl, h⟩

theorem triple_setData {b : Blockno} {data : Block}
    (h : ∀ lh v d, A lh v d → B lh (Function.update v b data) d) :
    Triple (OnView A) (setData b data) (fun _ => OnView B) C := by
  refine Triple.access fun m d hA => ?_
  unfold OnView
  rw [read_update_read]
  exact h _ _ _ hA

theorem triple_bwrite {b : Blockno}
    (h : ∀ lh v d, A lh v d → B lh v (Function.update d b (v b)))
    (hC : ∀ lh v d, A lh v d → C (Function.update d b (v b))) :
    Triple (OnView A) (bwrite b) (fun _ => OnView B) C := by
  refine Triple.write (fun m d hA => ?_) (fun m d hA => hC _ _ _ hA)
  unfold OnView
  rw [read_update_disk]
  exact h _ _ _ hA

theorem triple_setLh {lh' : List Blockno} (h : ∀ lh v d, A lh v d → B lh' v d) :
    Triple (OnView A) (setLh lh') (fun _ => OnView B) C :=
  Triple.access fun _ _ hA => h _ _ _ hA

theorem triple_getLh :
    Triple (OnView A) getLh (fun lh => OnView fun lh' v d => lh = lh' ∧ A lh' v d) C :=
  Triple.access fun _ _ hA => ⟨rfl, hA⟩

theorem triple_lhBlock (tail : Nat) :
    Triple (OnView A) (lhBlock tail)
      (fun b => OnView fun lh v d => b = lh.getD tail 0 ∧ A lh v d) C :=
  Triple.access fun _ _ hA => ⟨rfl, hA⟩

/-! ## The two disks of a transaction -/

section Transaction

variable (start : Blockno) (lh : List Blockno) (old : Disk) (new : Blockno → Block)

/-- Header count 0, and outside the log the contents `t`. -/
def Clean (t : Disk) (d : Disk) : Prop :=
  headCount (d start) = 0 ∧ ∀ b, ¬ InLog start b → d b = t b

/-- The disk after the transaction: the logged blocks are new. -/
def installed : Disk := fun b => if b ∈ lh then new b else old b

/-- Header and log blocks hold the transaction, and each home block is old or new. -/
structure Committed (d : Disk) : Prop where
  head : decodeHead (d start) = lh
  logged : ∀ i (h : i < lh.length), d (logBlock start i) = new lh[i]
  outside : ∀ b, ¬ InLog start b → b ∉ lh → d b = old b
  home : ∀ b ∈ lh, d b = old b ∨ d b = new b

/-- Before round `i` of `write_log`. -/
structure Logging (i : Nat) (lh' : List Blockno) (v : Blockno → Block) (d : Disk) : Prop where
  lh_eq : lh' = lh
  cached : ∀ b ∈ lh, v b = new b
  logged : ∀ j (_ : j < i) (h : j < lh.length),
    v (logBlock start j) = new lh[j] ∧ d (logBlock start j) = new lh[j]
  clean : Clean start old d

/-- Before round `i` of `install_trans`. -/
structure Installing (i : Nat) (lh' : List Blockno) (v : Blockno → Block) (d : Disk) : Prop where
  lh_eq : lh' = lh
  cached : ∀ j (h : j < lh.length), v (logBlock start j) = new lh[j]
  disk : Committed start lh old new d
  done : ∀ j (_ : j < i) (h : j < lh.length), d lh[j] = new lh[j]

variable {start lh old new}

/-- A write to the log changes no block outside it, and the other way round. -/
theorem update_outside {d : Disk} {b x : Blockno} {data : Block} (hb : InLog start b)
    (hx : ¬ InLog start x) : Function.update d b data x = d x := by
  have hne : x ≠ b := fun he => hx (he ▸ hb)
  exact Function.update_of_ne hne _ _

theorem update_inside {d : Disk} {b x : Blockno} {data : Block} (hb : ¬ InLog start b)
    (hx : InLog start x) : Function.update d b data x = d x := by
  have hne : x ≠ b := fun he => hb (he ▸ hx)
  exact Function.update_of_ne hne _ _

theorem Clean.update_log {t d : Disk} {b : Blockno} {data : Block} (h : Clean start t d)
    (hb : InLog start b) (hne : b ≠ start) : Clean start t (Function.update d b data) := by
  refine ⟨?_, fun x hx => ?_⟩
  · rw [Function.update_of_ne (Ne.symm hne)]
    exact h.1
  · rw [update_outside hb hx]
    exact h.2 x hx

theorem Clean.update_head {t d : Disk} {hb : Block} (h : ∀ b, ¬ InLog start b → d b = t b) :
    Clean start t (Function.update d start (encodeHead hb [])) := by
  refine ⟨?_, fun x hx => ?_⟩
  · rw [Function.update_self, headCount_encodeHead _ _ (Nat.zero_le _)]
    rfl
  · rw [update_outside (inLog_start start) hx]
    exact h x hx

theorem Committed.update_home {d : Disk} (h : Committed start lh old new d)
    (hout : ∀ b ∈ lh, ¬ InLog start b) (hn : lh.length ≤ LOGBLOCKS) {b : Blockno} (hb : b ∈ lh) :
    Committed start lh old new (Function.update d b (new b)) := by
  have hlog : ∀ x, InLog start x → Function.update d b (new b) x = d x :=
    fun x hx => update_inside (hout b hb) hx
  refine ⟨?_, fun i hi => ?_, fun x hx hxl => ?_, fun x hx => ?_⟩
  · rw [hlog _ (inLog_start start)]
    exact h.head
  · rw [hlog _ (inLog_logBlock (lt_of_lt_of_le hi hn))]
    exact h.logged i hi
  · have hne : x ≠ b := fun he => hxl (he ▸ hb)
    rw [Function.update_of_ne hne]
    exact h.outside x hx hxl
  · by_cases hxb : x = b
    · subst hxb
      exact Or.inr (Function.update_self ..)
    · rw [Function.update_of_ne hxb]
      exact h.home x hx

/-- Once all home blocks are new, only the header keeps a committed disk from being clean. -/
theorem Committed.eq_installed {d : Disk} (h : Committed start lh old new d)
    (hdone : ∀ j (hj : j < lh.length), d lh[j] = new lh[j]) (b : Blockno) (hb : ¬ InLog start b) :
    d b = installed lh old new b := by
  unfold installed
  split
  · next hmem =>
      obtain ⟨j, hj, rfl⟩ := List.getElem_of_mem hmem
      exact hdone j hj
  · next hmem => exact h.outside b hb hmem

/-! ## `write_log` and `write_head` -/

theorem triple_logOneBlock (hn : lh.length ≤ LOGBLOCKS) (hout : ∀ b ∈ lh, ¬ InLog start b)
    (tail : Nat) (htail : tail < lh.length) :
    Triple (OnView (Logging start lh old new tail)) (logOneBlock start tail)
      (fun _ => OnView (Logging start lh old new (tail + 1))) (Clean start old) := by
  have hlt : tail < LOGBLOCKS := lt_of_lt_of_le htail hn
  have hin : InLog start (logBlock start tail) := inLog_logBlock hlt
  refine (triple_bread _).bind fun _ => (triple_lhBlock tail).bind fun src =>
    (triple_bread src).bind fun data => ?_
  -- the log block in memory now holds the data, and so does the disk after the write
  refine (triple_setData (B := fun lh' v d => v (logBlock start tail) = new lh[tail] ∧
    Logging start lh old new tail lh' v d) fun lh' v d => ?_).bind fun _ => ?_
  · rintro ⟨rfl, rfl, -, h⟩
    have hsrc : lh'.getD tail 0 = lh[tail] := by
      simp [h.lh_eq, htail]
    have hdata : v (lh'.getD tail 0) = new lh[tail] := by
      rw [hsrc]
      exact h.cached _ (List.getElem_mem htail)
    refine ⟨by rw [Function.update_self, hdata], h.lh_eq, fun b hb => ?_, fun j hj hjl => ?_, h.clean⟩
    · have hne : b ≠ logBlock start tail := fun he => hout b hb (he ▸ hin)
      rw [Function.update_of_ne hne]
      exact h.cached b hb
    · have hne : logBlock start j ≠ logBlock start tail := fun he => by
        have := logBlock_inj (lt_trans hj hlt) hlt he
        omega
      rw [Function.update_of_ne hne]
      exact h.logged j hj hjl
  · have hclean : ∀ lh' (v : Blockno → Block) d, v (logBlock start tail) = new lh[tail] ∧
        Logging start lh old new tail lh' v d →
        Clean start old (Function.update d (logBlock start tail) (v (logBlock start tail))) :=
      fun lh' v d h => h.2.clean.update_log hin (logBlock_ne_start hlt)
    refine triple_bwrite (fun lh' v d h => ⟨h.2.lh_eq, h.2.cached, fun j hj hjl => ?_,
      hclean lh' v d h⟩) hclean
    rcases Nat.lt_succ_iff_lt_or_eq.1 hj with hj | rfl
    · have hne : logBlock start j ≠ logBlock start tail := fun he => by
        have := logBlock_inj (lt_trans hj hlt) hlt he
        omega
      rw [Function.update_of_ne hne]
      exact h.2.logged j hj hjl
    · rw [Function.update_self]
      exact ⟨h.1, h.1⟩

theorem triple_writeLog (hn : lh.length ≤ LOGBLOCKS) (hout : ∀ b ∈ lh, ¬ InLog start b) :
    Triple (OnView (Logging start lh old new 0)) (writeLog start)
      (fun _ => OnView (Logging start lh old new lh.length)) (Clean start old) := by
  refine triple_getLh.bind fun lh' => ?_
  by_cases hlh : lh' = lh
  · subst hlh
    exact (Triple.upto lh'.length fun i hi => triple_logOneBlock hn hout i hi).conseq
      (fun _ _ h => h.2) (fun _ _ _ h => h) (fun _ h => h)
  · intro m d h
    exact absurd (h.1.trans h.2.lh_eq) hlh

/-- The first `write_head` commits the transaction. -/
theorem triple_writeHead_commit (hn : lh.length ≤ LOGBLOCKS) (hout : ∀ b ∈ lh, ¬ InLog start b) :
    Triple (OnView (Logging start lh old new lh.length)) (writeHead start)
      (fun _ => OnView (Installing start lh old new 0)) (Committed start lh old new) := by
  refine (triple_bread start).bind fun buf => triple_getLh.bind fun lh' => ?_
  refine (triple_setData (B := fun l v d => v start = encodeHead buf lh ∧
    (∀ j (h : j < lh.length), v (logBlock start j) = new lh[j]) ∧
    Logging start lh old new lh.length l (Function.update v start buf) d) fun l v d => ?_).bind
    fun _ => ?_
  · rintro ⟨rfl, rfl, h⟩
    refine ⟨by rw [Function.update_self, h.lh_eq], fun j hj => ?_, ?_⟩
    · rw [Function.update_of_ne (logBlock_ne_start (lt_of_lt_of_le hj hn))]
      exact (h.logged j hj hj).1
    · rw [Function.update_idem, Function.update_eq_self]
      exact h
  · have hcom : ∀ l (v : Blockno → Block) d, (v start = encodeHead buf lh ∧
        (∀ j (h : j < lh.length), v (logBlock start j) = new lh[j]) ∧
        Logging start lh old new lh.length l (Function.update v start buf) d) →
        Committed start lh old new (Function.update d start (v start)) := by
      rintro l v d ⟨hv, -, h⟩
      refine ⟨?_, fun i hi => ?_, fun b hb _ => ?_, fun b hb => Or.inl ?_⟩
      · rw [Function.update_self, hv, decodeHead_encodeHead _ _ hn]
      · rw [Function.update_of_ne (logBlock_ne_start (lt_of_lt_of_le hi hn))]
        exact (h.logged i hi hi).2
      · rw [update_outside (inLog_start start) hb]
        exact h.clean.2 b hb
      · rw [update_outside (inLog_start start) (hout b hb)]
        exact h.clean.2 b (hout b hb)
    refine triple_bwrite (fun l v d h => ?_) hcom
    exact ⟨h.2.2.lh_eq, h.2.1, hcom l v d h, fun j hj => absurd hj (Nat.not_lt_zero j)⟩

/-- A `write_head` with an empty header makes the disk clean. -/
theorem triple_writeHead_erase {t : Disk} :
    Triple (OnView fun l _ d => l = [] ∧ ∀ b, ¬ InLog start b → d b = t b) (writeHead start)
      (fun _ _ d => Clean start t d) (Clean start t) := by
  refine (triple_bread start).bind fun buf => triple_getLh.bind fun lh' => ?_
  refine (triple_setData (B := fun l v d => v start = encodeHead buf [] ∧
    ∀ b, ¬ InLog start b → d b = t b) fun l v d => ?_).bind fun _ => ?_
  · rintro ⟨rfl, -, rfl, h⟩
    exact ⟨by rw [Function.update_self], h⟩
  · refine (triple_bwrite (B := fun _ _ d => Clean start t d) (fun l v d h => ?_)
      (fun l v d h => ?_)).conseq (fun _ _ h => h) (fun _ _ _ h => h) (fun _ h => h)
    · rw [h.1]
      exact Clean.update_head h.2
    · rw [h.1]
      exact Clean.update_head h.2

/-! ## `install_trans`, commit and recovery -/

theorem triple_installBlock (hn : lh.length ≤ LOGBLOCKS) (hnd : lh.Nodup)
    (hout : ∀ b ∈ lh, ¬ InLog start b) (tail : Nat) (htail : tail < lh.length) :
    Triple (OnView (Installing start lh old new tail)) (installBlock start tail)
      (fun _ => OnView (Installing start lh old new (tail + 1)))
      (Committed start lh old new) := by
  have hmem : lh[tail] ∈ lh := List.getElem_mem htail
  refine (triple_bread _).bind fun lbuf => (triple_lhBlock tail).bind fun dst =>
    (triple_bread dst).bind fun _ => ?_
  refine (triple_setData (B := fun lh' v d => (dst = lh[tail] ∧ v dst = new lh[tail]) ∧
    Installing start lh old new tail lh' v d) fun lh' v d => ?_).bind fun _ => ?_
  · rintro ⟨-, rfl, rfl, h⟩
    have hdst : lh'.getD tail 0 = lh[tail] := by
      simp [h.lh_eq, htail]
    rw [hdst]
    refine ⟨⟨rfl, by rw [Function.update_self, h.cached tail htail]⟩, h.lh_eq,
      fun j hj => ?_, h.disk, h.done⟩
    -- a home block is no log block
    have hne : logBlock start j ≠ lh[tail] := fun he =>
      hout _ hmem (he ▸ inLog_logBlock (lt_of_lt_of_le hj hn))
    rw [Function.update_of_ne hne]
    exact h.cached j hj
  · refine triple_bwrite (fun lh' v d h => ?_) (fun lh' v d h => ?_)
    · obtain ⟨⟨rfl, hv⟩, h⟩ := h
      rw [hv]
      refine ⟨h.lh_eq, h.cached, h.disk.update_home hout hn hmem, fun j hj hjl => ?_⟩
      rcases Nat.lt_succ_iff_lt_or_eq.1 hj with hj | rfl
      · have hne : lh[j] ≠ lh[tail] := fun he => by
          have := (List.Nodup.getElem_inj_iff hnd).1 he
          omega
        rw [Function.update_of_ne hne]
        exact h.done j hj hjl
      · rw [Function.update_self]
    · obtain ⟨⟨rfl, hv⟩, h⟩ := h
      rw [hv]
      exact h.disk.update_home hout hn hmem

theorem triple_installAndErase (hn : lh.length ≤ LOGBLOCKS) (hnd : lh.Nodup)
    (hout : ∀ b ∈ lh, ¬ InLog start b) :
    Triple (OnView (Installing start lh old new 0)) (installAndErase start)
      (fun _ _ d => Clean start (installed lh old new) d)
      (fun d => Committed start lh old new d ∨ Clean start (installed lh old new) d) := by
  have hinst : Triple (OnView (Installing start lh old new 0)) (installTrans start)
      (fun _ => OnView (Installing start lh old new lh.length)) (Committed start lh old new) := by
    refine triple_getLh.bind fun lh' => ?_
    by_cases hlh : lh' = lh
    · subst hlh
      exact (Triple.upto lh'.length fun i hi => triple_installBlock hn hnd hout i hi).conseq
        (fun _ _ h => h.2) (fun _ _ _ h => h) (fun _ h => h)
    · intro m d h
      exact absurd (h.1.trans h.2.lh_eq) hlh
  refine (hinst.conseq (fun _ _ h => h) (fun _ _ _ h => h) (fun _ => Or.inl)).bind fun _ => ?_
  refine (triple_setLh (B := fun l _ d => l = [] ∧ ∀ b, ¬ InLog start b →
    d b = installed lh old new b) fun l v d h => ⟨rfl, ?_⟩).bind fun _ => ?_
  · exact h.disk.eq_installed fun j hj => h.done j hj hj
  · exact triple_writeHead_erase.conseq (fun _ _ h => h) (fun _ _ _ h => h) (fun _ => Or.inr)

/-- Recovery of a committed disk installs the transaction. -/
theorem triple_recover_committed (hn : lh.length ≤ LOGBLOCKS) (hnd : lh.Nodup)
    (hout : ∀ b ∈ lh, ¬ InLog start b) :
    Triple (fun m d => m = Mem.boot ∧ Committed start lh old new d) (recoverFromLog start)
      (fun _ _ d => Clean start (installed lh old new) d)
      (fun d => Committed start lh old new d ∨ Clean start (installed lh old new) d) := by
  have hread : Triple (fun m d => m = Mem.boot ∧ Committed start lh old new d) (readHead start)
      (fun _ => OnView (Installing start lh old new 0))
      (fun d => Committed start lh old new d ∨ Clean start (installed lh old new) d) := by
    refine ((triple_bread (A := fun l v d => v = d ∧ Committed start lh old new d) start).conseq
      ?_ (fun _ _ _ h => h) (fun _ h => h)).bind fun buf => ?_
    · rintro m d ⟨rfl, h⟩
      exact ⟨rfl, h⟩
    · refine triple_setLh fun l v d => ?_
      rintro ⟨rfl, rfl, h⟩
      exact ⟨h.head, fun j hj => h.logged j hj, h, fun j hj => absurd hj (Nat.not_lt_zero j)⟩
  exact hread.bind fun _ => triple_installAndErase hn hnd hout

/-- Recovery of a clean disk changes nothing outside the log. -/
theorem triple_recover_clean {t : Disk} :
    Triple (fun m d => m = Mem.boot ∧ Clean start t d) (recoverFromLog start)
      (fun _ _ d => Clean start t d) (Clean start t) := by
  have hread : Triple (fun m d => m = Mem.boot ∧ Clean start t d) (readHead start)
      (fun _ => OnView fun l _ d => l = [] ∧ Clean start t d) (Clean start t) := by
    refine ((triple_bread (A := fun l v d => v = d ∧ Clean start t d) start).conseq
      ?_ (fun _ _ _ h => h) (fun _ h => h)).bind fun buf => ?_
    · rintro m d ⟨rfl, h⟩
      exact ⟨rfl, h⟩
    · refine triple_setLh fun l v d => ?_
      rintro ⟨rfl, rfl, h⟩
      exact ⟨decodeHead_of_count_zero h.1, h⟩
  refine hread.bind fun _ => Triple.bind (R := fun _ => OnView fun l _ d => l = [] ∧ Clean start t d)
    ?_ fun _ => (triple_setLh fun l v d h => ?_).bind fun _ => triple_writeHead_erase
  · refine triple_getLh.bind fun l => ?_
    intro m d h
    obtain ⟨rfl, hl, h⟩ := h
    rw [hl]
    exact ⟨⟨hl, h⟩, fun d' hd' => absurd hd' (List.not_mem_nil)⟩
  · exact ⟨rfl, h.2.2⟩

/-! ## Crash atomicity -/

/-- The crash points of a commit: up to the last write of `write_log` the disk is clean with the
    old contents; later it is committed or clean with the new ones. -/
theorem commit_crashPoint (hn : lh.length ≤ LOGBLOCKS) (hout : ∀ b ∈ lh, ¬ InLog start b)
    (hnd : lh.Nodup) {m : Mem} {d d₁ : Disk} {k : Nat} (hlh : m.lh = lh)
    (hclean : headCount (d start) = 0) (hcut : ((commit start).crashPoints m d)[k]? = some d₁) :
    (k ≤ ((writeLog start) m d).trace.length → Clean start d d₁) ∧
    (((writeLog start) m d).trace.length < k →
      Committed start lh d (m.read d) d₁ ∨ Clean start (installed lh d (m.read d)) d₁) := by
  have hlog : OnView (Logging start lh d (m.read d) 0) m d :=
    ⟨hlh, fun _ _ => rfl, fun j hj => absurd hj (Nat.not_lt_zero j), hclean, fun _ _ => rfl⟩
  obtain ⟨hlogged, hlogC⟩ := triple_writeLog hn hout m d hlog
  obtain ⟨hcommitted, hheadC⟩ := triple_writeHead_commit hn hout _ _ hlogged
  obtain ⟨-, hinstC⟩ := triple_installAndErase hn hnd hout _ _ hcommitted
  by_cases hpos : 0 < lh.length
  · have htrace : ((commit start) m d).trace = ((writeLog start) m d).trace ++
        ((writeHead start >>= fun _ => installAndErase start) ((writeLog start) m d).vol
          ((writeLog start).dur m d)).trace := by
      change ((if 0 < m.lh.length then _ else _ : LogM Unit) m d).trace = _
      rw [hlh, if_pos hpos]
      rfl
    rw [crashPoints, htrace] at hcut
    refine ⟨fun hk => ?_, fun hk => ?_⟩
    · rw [← List.cons_append, List.getElem?_append_left (by simp; omega)] at hcut
      rcases List.mem_cons.1 (List.mem_of_getElem? hcut) with rfl | hmem
      · exact ⟨hclean, fun _ _ => rfl⟩
      · exact hlogC _ hmem
    · rw [← List.cons_append, List.getElem?_append_right (by simp; omega)] at hcut
      have hmem := List.mem_of_getElem? hcut
      rw [bind_trace, List.mem_append] at hmem
      rcases hmem with hmem | hmem
      · exact Or.inl (hheadC _ hmem)
      · exact hinstC _ hmem
  · -- an empty transaction writes nothing
    have hnil : lh = [] := List.length_eq_zero_iff.1 (by omega)
    have htrace : ((commit start) m d).trace = [] := by
      change ((if 0 < m.lh.length then _ else _ : LogM Unit) m d).trace = _
      rw [hlh, if_neg hpos]
      rfl
    rw [crashPoints, htrace] at hcut
    obtain rfl : d₁ = d := List.mem_singleton.1 (List.mem_of_getElem? hcut)
    subst hnil
    exact ⟨fun _ => ⟨hclean, fun _ _ => rfl⟩,
      fun _ => Or.inr ⟨hclean, fun b _ => by simp [installed]⟩⟩

/-- **Crash atomicity.** Cut `commit` off after any `k` of its disk writes, recover with any number
    of further crashes, and run recovery to completion: the header is empty, nothing outside the
    log and the logged blocks has changed, and the logged blocks are all old if the crash came
    before the first `write_head`'s write, and all new if it came after it. -/
theorem commit_crash_atomic (start : Blockno) (lh : List Blockno) (hn : lh.length ≤ LOGBLOCKS)
    (hnd : lh.Nodup) (hout : ∀ b ∈ lh, ¬ InLog start b) (cache : Blockno → Option Block)
    (d : Disk) (hclean : headCount (d start) = 0) (k : Nat) (d₁ : Disk)
    (hcut : ((commit start).crashPoints ⟨lh, cache⟩ d)[k]? = some d₁) (d₂ : Disk)
    (hrec : CrashRecover (recoverFromLog start) Mem.boot d₁ d₂) :
    let final := (recoverFromLog start).dur Mem.boot d₂
    let new : Blockno → Block := fun b => (cache b).getD (d b)
    let logWrites := ((writeLog start) ⟨lh, cache⟩ d).trace.length
    headCount (final start) = 0 ∧
    (∀ b, ¬ InLog start b → b ∉ lh → final b = d b) ∧
    ((∀ b ∈ lh, final b = d b) ∨ ∀ b ∈ lh, final b = new b) ∧
    (k ≤ logWrites → ∀ b ∈ lh, final b = d b) ∧
    (logWrites < k → ∀ b ∈ lh, final b = new b) := by
  intro final new logWrites
  obtain ⟨hbefore, hafter⟩ := commit_crashPoint hn hout hnd (m := ⟨lh, cache⟩) rfl hclean hcut
  have hold : k ≤ logWrites → Clean start d final := fun hk =>
    (CrashRecover.complete triple_recover_clean (hbefore hk) hrec).2
  have hnew : logWrites < k → Clean start (installed lh d new) final := fun hk =>
    (CrashRecover.complete ((((triple_recover_committed hn hnd hout).or
      (triple_recover_clean.conseq (fun _ _ h => h) (fun _ _ _ h => h) fun _ => Or.inr)).conseq
        (fun m d h => h.2.imp (⟨h.1, ·⟩) (⟨h.1, ·⟩)) (fun _ _ _ h => h) fun _ h => h))
      (hafter hk) hrec).2
  have hinst : ∀ b ∈ lh, installed lh d new b = new b := fun b hb => if_pos hb
  rcases Nat.lt_or_ge logWrites k with hk | hk
  · have h := hnew hk
    have hall : ∀ b ∈ lh, final b = new b := fun b hb => (h.2 b (hout b hb)).trans (hinst b hb)
    refine ⟨h.1, fun b hb hbl => (h.2 b hb).trans (if_neg hbl), Or.inr hall,
      fun hk' => absurd hk' (by omega), fun _ => hall⟩
  · have h := hold hk
    have hall : ∀ b ∈ lh, final b = d b := fun b hb => h.2 b (hout b hb)
    exact ⟨h.1, fun b hb _ => h.2 b hb, Or.inl hall, fun _ => hall, fun hk' => absurd hk' (by omega)⟩

/-- A transaction has changed these two blocks. -/
def twoBlocks : Mem where
  lh := [100, 101]
  cache := fun b => if b = 100 then some fun _ => 1 else if b = 101 then some fun _ => 2 else none

/-- Cut off in `install_trans`, where the first of them is installed. -/
def cutCommit : Disk := ((commit 2).crashPoints twoBlocks fun _ _ => 0).getD 4 fun _ _ => 0

/-- Recovery is cut off there as well. -/
def cutRecovery : Disk := ((recoverFromLog 2).crashPoints Mem.boot cutCommit).getD 1 cutCommit

theorem commit_crash_atomic_two_blocks :
    cutRecovery 100 = (fun _ => 1) ∧ cutRecovery 101 = (fun _ => 0) ∧
      CrashRecover (recoverFromLog 2) Mem.boot cutCommit cutRecovery ∧
      headCount ((recoverFromLog 2).dur Mem.boot cutRecovery 2) = 0 ∧
      (recoverFromLog 2).dur Mem.boot cutRecovery 100 = (fun _ => 1) ∧
      (recoverFromLog 2).dur Mem.boot cutRecovery 101 = fun _ => 2 := by
  have hout : ∀ b ∈ [(100 : Blockno), 101], ¬ InLog 2 b := by
    rintro b hb ⟨i, hi, he⟩
    have hi' : i ≤ 30 := hi
    have h := congrArg BitVec.toNat he
    simp only [List.mem_cons, List.not_mem_nil, or_false] at hb
    rcases hb with rfl | rfl <;> · simp at h; omega
  have hcrash : CrashRecover (recoverFromLog 2) Mem.boot cutCommit cutRecovery :=
    .crash (.refl _) (List.mem_iff_getElem?.2 ⟨1, rfl⟩)
  obtain ⟨hhead, -, -, -, hnew⟩ := commit_crash_atomic 2 [100, 101] (by decide) (by decide) hout
    twoBlocks.cache (fun _ _ => 0) rfl 4 cutCommit rfl cutRecovery hcrash
  have hnew := hnew (by decide)
  exact ⟨rfl, rfl, hcrash, hhead, hnew 100 List.mem_cons_self,
    hnew 101 (List.mem_cons_of_mem _ List.mem_cons_self)⟩

end Transaction

end Xv6.Log
