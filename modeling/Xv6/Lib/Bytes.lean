import Mathlib.Data.BitVec

set_option autoImplicit false

/-! # Memory, byte by byte

Little-endian numbers of 16, 32 and 64 bits in a memory of bytes, and strings that end in a NUL or with
the memory that they are given. -/

namespace Xv6.Lib

/-- Byte `j` of a number. -/
def byteOf {w : Nat} (x : BitVec w) (j : Nat) : BitVec 8 := x.extractLsb' (8 * j) 8

/-- The 16 bits at `o`. -/
def half (f : Nat → BitVec 8) (o : Nat) : BitVec 16 := f (o + 1) ++ f o

/-- The 32 bits at `o`. -/
def word (f : Nat → BitVec 8) (o : Nat) : BitVec 32 := f (o + 3) ++ f (o + 2) ++ f (o + 1) ++ f o

/-- The 64 bits at `o`. -/
def dword (f : Nat → BitVec 8) (o : Nat) : BitVec 64 := word f (o + 4) ++ word f o

/-- The first `n` bytes of a number. -/
def toBytes {w : Nat} (x : BitVec w) (n : Nat) : List (BitVec 8) := (List.range n).map (byteOf x)

theorem half_congr {f g : Nat → BitVec 8} {o o' : Nat} (h : ∀ j, j < 2 → f (o + j) = g (o' + j)) :
    half f o = half g o' := by
  have h0 := h 0 (by omega)
  have h1 := h 1 (by omega)
  simp only [Nat.add_zero] at h0
  rw [half, half, h0, h1]

theorem word_congr {f g : Nat → BitVec 8} {o o' : Nat} (h : ∀ j, j < 4 → f (o + j) = g (o' + j)) :
    word f o = word g o' := by
  have h0 := h 0 (by omega)
  have h1 := h 1 (by omega)
  have h2 := h 2 (by omega)
  have h3 := h 3 (by omega)
  simp only [Nat.add_zero] at h0
  rw [word, word, h0, h1, h2, h3]

theorem dword_congr {f g : Nat → BitVec 8} {o o' : Nat} (h : ∀ j, j < 8 → f (o + j) = g (o' + j)) :
    dword f o = dword g o' := by
  have hlo : word f o = word g o' := word_congr fun j hj => h j (by omega)
  have hhi : word f (o + 4) = word g (o' + 4) := by
    refine word_congr fun j hj => ?_
    rw [Nat.add_assoc, Nat.add_assoc]
    exact h (4 + j) (by omega)
  rw [dword, dword, hlo, hhi]

theorem half_of_byteOf {f : Nat → BitVec 8} {o : Nat} {x : BitVec 16}
    (h : ∀ j, j < 2 → f (o + j) = byteOf x j) : half f o = x := by
  have h0 := h 0 (by omega)
  have h1 := h 1 (by omega)
  simp only [Nat.add_zero] at h0
  rw [half, h0, h1]
  unfold byteOf
  apply BitVec.eq_of_getLsbD_eq
  intro i hi
  simp only [BitVec.getLsbD_append, BitVec.getLsbD_extractLsb']
  grind

theorem word_of_byteOf {f : Nat → BitVec 8} {o : Nat} {x : BitVec 32}
    (h : ∀ j, j < 4 → f (o + j) = byteOf x j) : word f o = x := by
  have h0 := h 0 (by omega)
  have h1 := h 1 (by omega)
  have h2 := h 2 (by omega)
  have h3 := h 3 (by omega)
  simp only [Nat.add_zero] at h0
  rw [word, h0, h1, h2, h3]
  unfold byteOf
  apply BitVec.eq_of_getLsbD_eq
  intro i hi
  simp only [BitVec.getLsbD_append, BitVec.getLsbD_extractLsb']
  grind

theorem dword_of_byteOf {f : Nat → BitVec 8} {o : Nat} {x : BitVec 64}
    (h : ∀ j, j < 8 → f (o + j) = byteOf x j) : dword f o = x := by
  have hlo : word f o = x.extractLsb' 0 32 := by
    refine word_of_byteOf fun j hj => (h j (by omega)).trans ?_
    apply BitVec.eq_of_getLsbD_eq
    intro i hi
    simp only [byteOf, BitVec.getLsbD_extractLsb']
    grind
  have hhi : word f (o + 4) = x.extractLsb' 32 32 := by
    refine word_of_byteOf fun j hj => ?_
    rw [Nat.add_assoc, h (4 + j) (by omega)]
    apply BitVec.eq_of_getLsbD_eq
    intro i hi
    simp only [byteOf, BitVec.getLsbD_extractLsb']
    grind
  rw [dword, hlo, hhi]
  apply BitVec.eq_of_getLsbD_eq
  intro i hi
  simp only [BitVec.getLsbD_append, BitVec.getLsbD_extractLsb']
  grind

theorem length_toBytes {w : Nat} (x : BitVec w) (n : Nat) : (toBytes x n).length = n := by
  rw [toBytes, List.length_map, List.length_range]

theorem getElem_toBytes {w : Nat} (x : BitVec w) {n j : Nat} (h : j < (toBytes x n).length) :
    (toBytes x n)[j] = byteOf x j := by
  simp [toBytes]

/-- The bytes of `l` are written from `o` on. -/
def put (f : Nat → BitVec 8) (o : Nat) (l : List (BitVec 8)) : Nat → BitVec 8 :=
  fun k => if o ≤ k then l.getD (k - o) (f k) else f k

theorem put_inside {f : Nat → BitVec 8} {o k : Nat} {l : List (BitVec 8)} (h : k < l.length) :
    put f o l (o + k) = l[k] := by
  rw [put, if_pos (Nat.le_add_right _ _), Nat.add_sub_cancel_left, List.getD_eq_getElem?_getD,
    List.getElem?_eq_getElem h, Option.getD_some]

theorem put_outside {f : Nat → BitVec 8} {o k : Nat} {l : List (BitVec 8)}
    (h : k < o ∨ o + l.length ≤ k) : put f o l k = f k := by
  unfold put
  by_cases hk : o ≤ k
  · rw [if_pos hk, List.getD_eq_getElem?_getD, List.getElem?_eq_none (by omega), Option.getD_none]
  · rw [if_neg hk]

theorem dword_put_toBytes (f : Nat → BitVec 8) (o : Nat) (x : BitVec 64) :
    dword (put f o (toBytes x 8)) o = x := by
  refine dword_of_byteOf fun j hj => ?_
  have hlen : j < (toBytes x 8).length := by rwa [length_toBytes]
  rw [put_inside hlen, getElem_toBytes]

theorem word_put_outside {f : Nat → BitVec 8} {o a : Nat} {l : List (BitVec 8)}
    (h : a + 4 ≤ o ∨ o + l.length ≤ a) : word (put f o l) a = word f a :=
  word_congr fun _ _ => put_outside (by omega)

theorem dword_put_outside {f : Nat → BitVec 8} {o a : Nat} {l : List (BitVec 8)}
    (h : a + 8 ≤ o ∨ o + l.length ≤ a) : dword (put f o l) a = dword f a :=
  dword_congr fun _ _ => put_outside (by omega)

/-- The string at `f`, cut after `n` bytes. -/
def cstr (f : Nat → BitVec 8) : Nat → List (BitVec 8)
  | 0 => []
  | n + 1 => if f 0 = 0 then [] else f 0 :: cstr (fun k => f (k + 1)) n

theorem cstr_congr {f g : Nat → BitVec 8} {n : Nat} (h : ∀ k, k < n → f k = g k) :
    cstr f n = cstr g n := by
  induction n generalizing f g with
  | zero => rfl
  | succ n ih =>
      rw [cstr, cstr, h 0 (by omega), ih fun k hk => h (k + 1) (by omega)]

/-- Memory that begins with a string and a NUL, or with at least `n` bytes that are not 0. -/
theorem cstr_of_list {f : Nat → BitVec 8} {l : List (BitVec 8)} {n : Nat} (h0 : (0 : BitVec 8) ∉ l)
    (h : ∀ k, k < n → k < l.length → l[k]? = some (f k)) (hend : l.length < n → f l.length = 0) :
    cstr f n = l.take n := by
  induction n generalizing f l with
  | zero => rw [List.take_zero]; rfl
  | succ n ih =>
      cases l with
      | nil =>
          have hz : f 0 = 0 := hend (Nat.succ_pos n)
          rw [cstr, if_pos hz, List.take_nil]
      | cons c l =>
          have hc : c = f 0 := by simpa using h 0 (by omega) (by simp)
          have hc0 : f 0 ≠ 0 := by
            rintro hz
            exact h0 (by rw [hc, hz]; exact List.mem_cons_self ..)
          rw [cstr, if_neg hc0, List.take_succ_cons, hc]
          congr 1
          refine ih (fun hm => h0 (List.mem_cons_of_mem _ hm)) (fun k hk hkl => ?_) fun hl => ?_
          · simpa using h (k + 1) (by omega) (by simpa using hkl)
          · exact hend (by simpa using hl)

end Xv6.Lib
