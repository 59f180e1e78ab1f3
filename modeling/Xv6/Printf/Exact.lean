import Mathlib.Tactic.IntervalCases
import Xv6.Lib.Numeral
import Xv6.Printf.Model

set_option autoImplicit false

/-! # Numbers are printed exactly

The kernel's `printint` puts out the numeral of its argument, whatever the argument is. The user's does so for
the last 32 bits of the magnitude. -/

namespace Xv6.Printf

open Xv6.Lib

/-- The conversions of a number. -/
inductive Conversion where
  | d | u | x | ld | lu | lx | lld | llu | llx
  deriving DecidableEq

namespace Conversion

/-- What stands after the `%`. -/
def name : Conversion → List Byte
  | .d => text "d"
  | .u => text "u"
  | .x => text "x"
  | .ld => text "ld"
  | .lu => text "lu"
  | .lx => text "lx"
  | .lld => text "lld"
  | .llu => text "llu"
  | .llx => text "llx"

def base : Conversion → Nat
  | .x | .lx | .llx => 16
  | _ => 10

/-- The number that an argument stands for. -/
def value (a : Uint64) : Conversion → Int
  | .d => (a.setWidth 32).toInt
  | .u | .x => (a.setWidth 32).toNat
  | .ld | .lld => a.toInt
  | .lu | .lx | .llu | .llx => a.toNat

def signed : Conversion → Bool
  | .d | .ld | .lld => true
  | _ => false

/-- The argument as `printint` gets it. -/
def arg : Conversion → Uint64 → Uint64
  | .d => int
  | .u | .x => uint32
  | _ => id

/-- The base as `printint` gets it. -/
def ubase : Conversion → Uint
  | .x | .lx | .llx => 16
  | _ => 10

end Conversion

/-- A character, where it does not matter whether a letter is large or small. -/
def lower (c : Byte) : Char := (Char.ofNat c.toNat).toLower

/-- The output is the numeral of `v`: a `-` if it is negative, and the digits of its magnitude. -/
def Shows (base : Nat) (v : Int) (out : List Byte) : Prop :=
  out.map lower = (if v < 0 then ['-'] else []) ++ Nat.toDigits base v.natAbs

/-- Wherever the conversion stands in a format, both functions put out the numeral for it, and then go on. -/
structure Exact (c : Conversion) (a : Uint64) : Prop where
  kernel : ∀ str fmt ap, ap 0 = a → ∃ out, Shows c.base (c.value a) out ∧
    Kernel.printf str 0 (ch '%' :: (c.name ++ fmt)) ap = (Kernel.printf str 0 fmt (ap.drop 1)).map (out ++ ·)
  user : ∀ str fmt ap, ap 0 = a → ∃ out, Shows c.base (c.value a) out ∧
    User.vprintf str 0 false (ch '%' :: (c.name ++ fmt)) ap =
      (User.vprintf str 0 false fmt (ap.drop 1)).map (out ++ ·)
  /-- Neither `printint` writes past its buffer. -/
  fits : Kernel.printint (c.arg a) c.ubase c.signed ≠ none ∧ User.printint (c.arg a) c.ubase c.signed ≠ none

/-! ## Digits -/

/-- The characters of the digits. -/
def Digits (digits : List Byte) : Prop := ∀ i, i < 16 → lower (digits.getD i 0) = i.digitChar

theorem kernel_digits : Digits Kernel.digits := by
  intro i hi
  interval_cases i <;> rfl

theorem user_digits : Digits User.digits := by
  intro i hi
  interval_cases i <;> rfl

variable {digits : List Byte} {w : Nat} {base x : BitVec w}

/-- The digits fit if there is room for them, and come out the last one first. -/
theorem storeDigits_spec (hdigits : Digits digits) (hb : 1 < base.toNat) (hb16 : base.toNat ≤ 16) (room : Nat)
    (hroom : (Nat.toDigits base.toNat x.toNat).length ≤ room) :
    ∃ buf, storeDigits digits base room x = some buf ∧ (buf.map lower).reverse = Nat.toDigits base.toNat x.toNat := by
  have hlast : lower (digits.getD (x % base).toNat 0) = (x.toNat % base.toNat).digitChar := by
    rw [BitVec.toNat_umod]
    exact hdigits _ (Nat.lt_of_lt_of_le (Nat.mod_lt _ (by omega)) hb16)
  induction room generalizing x with
  | zero =>
      have hpos : 0 < (Nat.toDigits base.toNat x.toNat).length := Nat.length_toDigits_pos
      omega
  | succ room ih =>
      have hzero : x / base = 0 ↔ x.toNat < base.toNat := by
        rw [← BitVec.toNat_inj, BitVec.toNat_udiv]
        exact Nat.div_eq_zero_iff_lt (by omega)
      unfold storeDigits
      simp only
      by_cases h0 : x / base = 0
      · rw [if_pos h0]
        have hlt := hzero.1 h0
        rw [Nat.mod_eq_of_lt hlt] at hlast
        refine ⟨_, rfl, ?_⟩
        rw [Nat.toDigits_of_lt_base hlt, List.map_singleton, List.reverse_singleton, hlast]
      · rw [if_neg h0]
        have hle : base.toNat ≤ x.toNat := Nat.le_of_not_lt fun hlt => h0 (hzero.2 hlt)
        have hsplit := Nat.toDigits_of_base_le hb hle
        rw [hsplit, List.length_append, List.length_singleton] at hroom
        have hnext : lower (digits.getD ((x / base) % base).toNat 0) = ((x / base).toNat % base.toNat).digitChar := by
          rw [BitVec.toNat_umod]
          exact hdigits _ (Nat.lt_of_lt_of_le (Nat.mod_lt _ (by omega)) hb16)
        obtain ⟨buf, hok, hbuf⟩ := ih (x := x / base) (by rw [BitVec.toNat_udiv]; omega) hnext
        refine ⟨_, by rw [hok]; rfl, ?_⟩
        rw [List.map_cons, List.reverse_cons, hbuf, BitVec.toNat_udiv, hlast, hsplit]

/-- The sign and the digits, as they are put out. -/
theorem store_spec (hdigits : Digits digits) (hb : 1 < base.toNat) (hb16 : base.toNat ≤ 16) (neg : Bool)
    (hroom : (Nat.toDigits base.toNat x.toNat).length + (if neg then 1 else 0) ≤ BUF) :
    ∃ buf, (storeDigits digits base BUF x).bind (storeSign neg) = some buf ∧
      buf.reverse.map lower = (if neg then ['-'] else []) ++ Nat.toDigits base.toNat x.toNat := by
  obtain ⟨buf, hok, hbuf⟩ := storeDigits_spec hdigits hb hb16 BUF (Nat.le_of_add_right_le hroom)
  have hlen := congrArg List.length hbuf
  rw [List.length_reverse, List.length_map] at hlen
  rw [hok, Option.bind_some]
  cases neg with
  | false =>
      refine ⟨buf, rfl, ?_⟩
      rw [List.map_reverse, hbuf]
      rfl
  | true =>
      rw [if_pos rfl] at hroom
      refine ⟨buf ++ [ch '-'], ?_, ?_⟩
      · unfold storeSign
        rw [if_pos rfl, if_pos (by omega)]
      · rw [List.reverse_append, List.reverse_singleton, List.singleton_append, List.map_cons, List.map_reverse, hbuf]
        rfl

/-! ## `printint` -/

/-- The number that `printint` gets. -/
def number (xx : Uint64) (sign : Bool) : Int := if sign then xx.toInt else xx.toNat

/-- Whether it is negative, and its magnitude. -/
theorem slt_zero (xx : Uint64) (sign : Bool) : (sign && xx.slt 0) = decide (number xx sign < 0) := by
  unfold number BitVec.slt
  cases sign with
  | false => simp
  | true => simp

theorem toNat_magnitude (xx : Uint64) (sign : Bool) :
    (if (sign && xx.slt 0) = true then -xx else xx).toNat = (number xx sign).natAbs := by
  rw [slt_zero]
  unfold number
  cases sign with
  | false =>
      have hpos : ¬ ((xx.toNat : Nat) : Int) < 0 := by omega
      rw [if_neg Bool.false_ne_true, if_neg (by rwa [decide_eq_true_iff]), Int.natAbs_natCast]
  | true =>
      have hlt := xx.isLt
      have hint := BitVec.toInt_eq_toNat_cond xx
      by_cases hneg : xx.toInt < 0
      · rw [if_pos (by simpa using hneg), BitVec.toNat_neg, if_pos rfl]
        split at hint <;> omega
      · rw [if_neg (by simpa using hneg), if_pos rfl]
        split at hint <;> omega

theorem natAbs_number_lt (xx : Uint64) (sign : Bool) :
    (number xx sign).natAbs < 2 ^ 64 ∧ (number xx sign < 0 → (number xx sign).natAbs ≤ 2 ^ 63) := by
  have hlt := xx.isLt
  have hint := BitVec.toInt_eq_toNat_cond xx
  unfold number
  cases sign with
  | false => exact ⟨by simpa using hlt, fun hneg => by simp at hneg; omega⟩
  | true =>
      rw [if_pos rfl]
      split at hint <;> exact ⟨by omega, fun _ => by omega⟩

/-- 20 characters are enough for the digits and the sign. -/
theorem length_le_BUF {b n : Nat} {neg : Bool} (hb : 10 ≤ b) (hn : n < 2 ^ 64) (hneg : neg = true → n ≤ 2 ^ 63) :
    (Nat.toDigits b n).length + (if neg then 1 else 0) ≤ BUF := by
  have hten : ∀ k, 10 ^ k ≤ b ^ k := fun k => Nat.pow_le_pow_left hb k
  cases neg with
  | false =>
      have hlen := (Nat.length_toDigits_le_iff (n := n) (show 1 < b by omega) (show 0 < 20 by omega)).2
        (Nat.lt_of_lt_of_le (by omega) (hten 20))
      exact hlen
  | true =>
      have hle := hneg rfl
      have hlen := (Nat.length_toDigits_le_iff (n := n) (show 1 < b by omega) (show 0 < 19 by omega)).2
        (Nat.lt_of_lt_of_le (by omega) (hten 19))
      exact Nat.succ_le_succ hlen

theorem Kernel.flatMap_consputc (l : List Byte) : (l.flatMap fun c => Kernel.consputc (c.setWidth 32)) = l := by
  induction l with
  | nil => rfl
  | cons c l ih =>
      have hne : c.setWidth 32 ≠ Kernel.BACKSPACE := fun he => by
        have h := congrArg BitVec.toNat he
        have hlt := c.isLt
        rw [BitVec.toNat_setWidth, Nat.mod_eq_of_lt (by omega)] at h
        rw [h] at hlt
        exact absurd hlt (by decide)
      rw [List.flatMap_cons, ih, Kernel.consputc, if_neg hne, BitVec.setWidth_setWidth_of_le _ (by omega),
        BitVec.setWidth_eq]
      rfl

theorem User.flatMap_putc (l : List Byte) : (l.flatMap fun c => User.putc (c.setWidth 32)) = l := by
  induction l with
  | nil => rfl
  | cons c l ih =>
      rw [List.flatMap_cons, ih, User.putc, BitVec.setWidth_setWidth_of_le _ (by omega), BitVec.setWidth_eq]
      rfl

/-- The base is 10 or 16. -/
def Base (base : Uint) : Prop := base = 10 ∨ base = 16

theorem Base.toNat_signExtend {base : Uint} (h : Base base) :
    (base.signExtend 64).toNat = base.toNat ∧ 10 ≤ base.toNat ∧ base.toNat ≤ 16 := by
  rcases h with rfl | rfl <;> decide

/-- The kernel puts out every number. -/
theorem Kernel.printint_shows (xx : Uint64) {base : Uint} (hbase : Base base) (sign : Bool) :
    ∃ out, Kernel.printint xx base sign = some out ∧ Shows base.toNat (number xx sign) out := by
  obtain ⟨hext, hten, hsixteen⟩ := hbase.toNat_signExtend
  obtain ⟨hlt, hmin⟩ := natAbs_number_lt xx sign
  have hmag := toNat_magnitude xx sign
  have hb : 1 < (base.signExtend 64).toNat := by omega
  obtain ⟨buf, hok, hbuf⟩ := store_spec (x := if (sign && xx.slt 0) = true then -xx else xx) kernel_digits hb
    (by omega) (sign && xx.slt 0) (by
      rw [hmag, hext]
      exact length_le_BUF hten hlt fun hneg => hmin (by rwa [slt_zero, decide_eq_true_iff] at hneg))
  refine ⟨buf.reverse, ?_, ?_⟩
  · have hrun : Kernel.printint xx base sign =
        ((storeDigits Kernel.digits (base.signExtend 64) BUF (if (sign && xx.slt 0) = true then -xx else xx)).bind
          (storeSign (sign && xx.slt 0))).bind fun buf =>
            some (buf.reverse.flatMap fun c => Kernel.consputc (c.setWidth 32)) := by
      rw [Option.bind_assoc]
      rfl
    rw [hrun, hok, Option.bind_some, Kernel.flatMap_consputc]
  · unfold Shows
    rw [hbuf, hmag, hext, slt_zero]
    simp

/-- The user's `printint` puts out the sign, and the magnitude as far as it fits in a `uint`. -/
theorem User.printint_shows (xx : Uint64) {base : Uint} (hbase : Base base) (sgn : Bool) :
    ∃ out, User.printint xx base sgn = some out ∧ out.map lower =
      (if number xx sgn < 0 then ['-'] else []) ++ Nat.toDigits base.toNat ((number xx sgn).natAbs % 2 ^ 32) := by
  obtain ⟨-, hten, hsixteen⟩ := hbase.toNat_signExtend
  have hmag := toNat_magnitude xx sgn
  have hlow : (if (sgn && xx.slt 0) = true then (-xx).setWidth 32 else xx.setWidth 32) =
      (if (sgn && xx.slt 0) = true then -xx else xx).setWidth 32 := by split <;> rfl
  have hnat : (if (sgn && xx.slt 0) = true then (-xx).setWidth 32 else xx.setWidth 32).toNat =
      (number xx sgn).natAbs % 2 ^ 32 := by rw [hlow, BitVec.toNat_setWidth, hmag]
  have hb : 1 < base.toNat := by omega
  obtain ⟨buf, hok, hbuf⟩ := store_spec
    (x := if (sgn && xx.slt 0) = true then (-xx).setWidth 32 else xx.setWidth 32) user_digits hb (by omega)
    (sgn && xx.slt 0) (by
      rw [hnat]
      exact length_le_BUF hten (by omega) fun _ => by omega)
  refine ⟨buf.reverse, ?_, ?_⟩
  · have hrun : User.printint xx base sgn =
        ((storeDigits User.digits base BUF (if (sgn && xx.slt 0) = true then (-xx).setWidth 32 else xx.setWidth 32)).bind
          (storeSign (sgn && xx.slt 0))).bind fun buf =>
            some (buf.reverse.flatMap fun c => User.putc (c.setWidth 32)) := by
      rw [Option.bind_assoc]
      rfl
    rw [hrun, hok, Option.bind_some, User.flatMap_putc]
  · rw [hbuf, hnat, slt_zero]
    simp

/-! ## The conversions -/

namespace Conversion

variable (c : Conversion) (a : Uint64)

theorem ubase_base : Base c.ubase ∧ c.ubase.toNat = c.base := by
  cases c <;> exact ⟨by first | exact Or.inl rfl | exact Or.inr rfl, rfl⟩

theorem number_arg : number (c.arg a) c.signed = c.value a := by
  have h32 : ∀ a : Uint64, number (uint32 a) false = ((a.setWidth 32).toNat : Int) := fun a => by
    have hlt := (a.setWidth 32).isLt
    show (((a.setWidth 32).setWidth 64).toNat : Int) = _
    rw [BitVec.toNat_setWidth_of_le (by omega)]
  have hint : number (int a) true = (a.setWidth 32).toInt := BitVec.toInt_signExtend_of_le (by omega)
  cases c
  case d => exact hint
  case u => exact h32 a
  case x => exact h32 a
  all_goals rfl

end Conversion

section Formats

variable (c : Conversion) (str : Uint64 → List Byte) (fmt : List Byte) (ap : VaList)

/-- A conversion takes one argument, and `printf` goes on after its name. -/
theorem Kernel.printf_name : Kernel.printf str 0 (ch '%' :: (c.name ++ fmt)) ap =
    (Kernel.printint (c.arg (ap 0)) c.ubase c.signed).bind fun shown =>
      (Kernel.printf str 0 fmt (ap.drop 1)).bind fun out => some (shown ++ out) := by
  cases c <;> rfl

theorem User.vprintf_name : User.vprintf str 0 false (ch '%' :: (c.name ++ fmt)) ap =
    (User.printint (c.arg (ap 0)) c.ubase c.signed).bind fun shown =>
      (User.vprintf str 0 false fmt (ap.drop 1)).bind fun out => some (shown ++ out) := by
  cases c <;> rfl

/-- The kernel's `printf` is exact for every argument. -/
theorem Kernel.printf_shows : ∃ out, Shows c.base (c.value (ap 0)) out ∧
    Kernel.printf str 0 (ch '%' :: (c.name ++ fmt)) ap = (Kernel.printf str 0 fmt (ap.drop 1)).map (out ++ ·) := by
  obtain ⟨hbase, hnat⟩ := c.ubase_base
  obtain ⟨out, hok, hout⟩ := Kernel.printint_shows (c.arg (ap 0)) hbase c.signed
  rw [hnat, c.number_arg] at hout
  refine ⟨out, hout, ?_⟩
  rw [Kernel.printf_name, hok, Option.bind_some, Option.map_eq_bind]
  rfl

/-- The user's `vprintf` puts out the sign, and what is left of the magnitude. -/
theorem User.vprintf_shows : ∃ out, out.map lower = (if c.value (ap 0) < 0 then ['-'] else []) ++
      Nat.toDigits c.base ((c.value (ap 0)).natAbs % 2 ^ 32) ∧
    User.vprintf str 0 false (ch '%' :: (c.name ++ fmt)) ap =
      (User.vprintf str 0 false fmt (ap.drop 1)).map (out ++ ·) := by
  obtain ⟨hbase, hnat⟩ := c.ubase_base
  obtain ⟨out, hok, hout⟩ := User.printint_shows (c.arg (ap 0)) hbase c.signed
  rw [hnat, c.number_arg] at hout
  refine ⟨out, hout, ?_⟩
  rw [User.vprintf_name, hok, Option.bind_some, Option.map_eq_bind]
  rfl

end Formats

/-- `printf` and `vprintf` print a number exactly if and only if its magnitude fits in 32 bits. -/
theorem printf_exact_iff (c : Conversion) (a : Uint64) : Exact c a ↔ (c.value a).natAbs < 2 ^ 32 := by
  constructor
  · intro h
    obtain ⟨out, hshows, hok⟩ := h.user (fun _ => []) [] (fun _ => a) rfl
    obtain ⟨out', hout', hok'⟩ := User.vprintf_shows c (fun _ => []) [] fun _ => a
    -- there is nothing after the conversion, so the two outputs are one
    have hsame : some (out ++ []) = some (out' ++ []) := hok.symm.trans hok'
    rw [Option.some.injEq, List.append_nil, List.append_nil] at hsame
    subst hsame
    unfold Shows at hshows
    rw [hout'] at hshows
    have hb : 1 < c.base ∧ c.base ≤ 16 := by cases c <;> decide
    have heq := toDigits_inj hb.1 hb.2 (List.append_cancel_left hshows)
    have hlt := Nat.mod_lt (c.value a).natAbs (show 0 < 2 ^ 32 by decide)
    omega
  · intro h
    refine ⟨fun str fmt ap hap => ?_, fun str fmt ap hap => ?_, ?_⟩
    · rw [← hap]
      exact Kernel.printf_shows c str fmt ap
    · rw [← hap] at h ⊢
      obtain ⟨out, hout, hok⟩ := User.vprintf_shows c str fmt ap
      rw [Nat.mod_eq_of_lt h] at hout
      exact ⟨out, hout, hok⟩
    · obtain ⟨hbase, -⟩ := c.ubase_base
      obtain ⟨out, hok, -⟩ := Kernel.printint_shows (c.arg a) hbase c.signed
      obtain ⟨out', hok', -⟩ := User.printint_shows (c.arg a) hbase c.signed
      rw [hok, hok']
      exact ⟨Option.some_ne_none out, Option.some_ne_none out'⟩

/-- `printf("%lu", 1UL << 32)` puts out `0`. -/
theorem printf_inexact : ¬ ∀ (c : Conversion) (a : Uint64), Exact c a := by
  intro h
  obtain ⟨out, hshows, hok⟩ := (h .lu 0x100000000).user (fun _ => []) [] (fun _ => 0x100000000) rfl
  have hzero : User.vprintf (fun _ => []) 0 false (ch '%' :: (Conversion.lu.name ++ [])) (fun _ => 0x100000000) =
      some [ch '0'] := by decide
  have hout : some [ch '0'] = some (out ++ []) := hzero.symm.trans hok
  rw [Option.some.injEq, List.append_nil] at hout
  rw [← hout] at hshows
  have hdigits : Nat.toDigits 10 0 = Nat.toDigits 10 0x100000000 := hshows
  exact absurd (toDigits_inj (by decide) (by decide) hdigits) (by decide)

/-! ## Every format -/

/-- A number is only printed in base 10 or 16. -/
def Directive.Sound (d : Directive) : Prop := ∀ arg base sign, d = .int arg base sign → Base base

theorem sound_ten (arg : Uint64 → Uint64) (sign : Bool) : (Directive.int arg 10 sign).Sound :=
  fun _ _ _ h => Or.inl (Directive.int.inj h).2.1.symm

theorem sound_sixteen (arg : Uint64 → Uint64) (sign : Bool) : (Directive.int arg 16 sign).Sound :=
  fun _ _ _ h => Or.inr (Directive.int.inj h).2.1.symm

theorem sound_ite {p : Prop} [Decidable p] {d e : Directive × Nat} (hd : d.1.Sound) (he : e.1.Sound) :
    (if p then d else e).1.Sound := by
  split
  · exact hd
  · exact he

theorem directive_sound (c0 c1 c2 : Byte) : (directive c0 c1 c2).1.Sound := by
  have hchar : Directive.char.Sound := fun _ _ _ h => by cases h
  have hptr : Directive.ptr.Sound := fun _ _ _ h => by cases h
  have hstr : Directive.str.Sound := fun _ _ _ h => by cases h
  have hpercent : Directive.percent.Sound := fun _ _ _ h => by cases h
  have hunknown : (Directive.unknown c0).Sound := fun _ _ _ h => by cases h
  unfold directive
  refine sound_ite (sound_ten _ _) (sound_ite (sound_ten _ _) (sound_ite (sound_ten _ _) ?_))
  refine sound_ite (sound_ten _ _) (sound_ite (sound_ten _ _) (sound_ite (sound_ten _ _) ?_))
  refine sound_ite (sound_sixteen _ _) (sound_ite (sound_sixteen _ _) (sound_ite (sound_sixteen _ _) ?_))
  exact sound_ite hptr (sound_ite hchar (sound_ite hstr (sound_ite hpercent hunknown)))

/-- A directive prints something if `printint` does. -/
theorem put_isSome {d : Directive} (hd : d.Sound) (printint : Uint64 → Uint → Bool → Option (List Byte))
    (digits : List Byte) (putc : Uint → List Byte) (str : Uint64 → List Byte) (ap : VaList)
    (hprint : ∀ xx base sign, Base base → ∃ out, printint xx base sign = some out) :
    ∃ shown, d.put printint digits putc str ap = some shown := by
  cases d with
  | int arg base sign => exact hprint _ _ _ (hd arg base sign rfl)
  | ptr => exact ⟨_, rfl⟩
  | char => exact ⟨_, rfl⟩
  | str => exact ⟨_, rfl⟩
  | percent => exact ⟨_, rfl⟩
  | unknown c0 => exact ⟨_, rfl⟩

/-- No format and no arguments make the kernel's `printint` write past its buffer. -/
theorem Kernel.printf_fits (str : Uint64 → List Byte) (skip : Nat) (fmt : List Byte) (ap : VaList) :
    ∃ out, Kernel.printf str skip fmt ap = some out := by
  induction fmt generalizing skip ap with
  | nil => exact ⟨[], by cases skip <;> rfl⟩
  | cons cx fmt ih =>
      cases skip with
      | succ skip => exact ih skip ap
      | zero =>
          unfold Kernel.printf
          simp only
          split
          · obtain ⟨out, hout⟩ := ih 0 ap
            exact ⟨_, by rw [hout]; rfl⟩
          · split
            · exact ⟨[], rfl⟩
            · generalize hd : directive _ _ _ = d
              have hsound : d.1.Sound := hd ▸ directive_sound _ _ _
              obtain ⟨shown, hshown⟩ := put_isSome hsound Kernel.printint Kernel.digits Kernel.consputc str ap
                fun xx base sign hbase => (Kernel.printint_shows xx hbase sign).imp fun _ h => h.1
              obtain ⟨out, hout⟩ := ih (1 + d.2) (ap.drop d.1.args)
              exact ⟨_, by rw [hshown, hout]; rfl⟩

/-- Nor do they make the user's. -/
theorem User.vprintf_fits (str : Uint64 → List Byte) (skip : Nat) (state : Bool) (fmt : List Byte) (ap : VaList) :
    ∃ out, User.vprintf str skip state fmt ap = some out := by
  induction fmt generalizing skip state ap with
  | nil => exact ⟨[], by cases skip <;> cases state <;> rfl⟩
  | cons c0 fmt ih =>
      cases skip with
      | succ skip => exact ih skip state ap
      | zero =>
          cases state with
          | false =>
              unfold User.vprintf
              split
              · exact ih 0 true ap
              · obtain ⟨out, hout⟩ := ih 0 false ap
                exact ⟨_, by rw [hout]; rfl⟩
          | true =>
              unfold User.vprintf
              simp only
              generalize hd : directive _ _ _ = d
              have hsound : d.1.Sound := hd ▸ directive_sound _ _ _
              obtain ⟨shown, hshown⟩ := put_isSome hsound User.printint User.digits User.putc str ap
                fun xx base sign hbase => (User.printint_shows xx hbase sign).imp fun _ h => h.1
              obtain ⟨out, hout⟩ := ih d.2 false (ap.drop d.1.args)
              exact ⟨_, by rw [hshown, hout]; rfl⟩

end Xv6.Printf
