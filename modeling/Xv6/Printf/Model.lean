import Xv6.Param

set_option autoImplicit false

/-! # Formatted output

`printf` of `kernel/printf.c` and `vprintf` of `user/printf.c`, with the `printint` and `printptr` of each. A
format is the bytes before its NUL. The result is what has been put out, or `none` if `printint` has written
past its buffer. The lock of the kernel's `printf` and the file descriptor of the user's are left out. -/

namespace Xv6.Printf

def ch (c : Char) : Byte := BitVec.ofNat 8 c.toNat

/-- The bytes of a string. -/
def text (s : String) : List Byte := s.toList.map ch

/-- The arguments, each in 8 bytes. -/
abbrev VaList := Nat → Uint64

/-- After `n` of them. -/
def VaList.drop (ap : VaList) (n : Nat) : VaList := fun k => ap (n + k)

/-- `char buf[20]` -/
def BUF : Nat := 20

/-- The loop `do buf[i++] = digits[x % base]; while((x /= base) != 0)`: what is put into `buf`, which has room
    for `room` characters. -/
def storeDigits {w : Nat} (digits : List Byte) (base : BitVec w) : Nat → BitVec w → Option (List Byte)
  | 0, _ => none
  | room + 1, x =>
    let c := digits.getD (x % base).toNat 0
    let x := x / base
    if x = 0 then some [c] else (storeDigits digits base room x).map (c :: ·)

/-- `if(neg) buf[i++] = '-'` -/
def storeSign (neg : Bool) (buf : List Byte) : Option (List Byte) :=
  if neg then if buf.length < BUF then some (buf ++ [ch '-']) else none
  else some buf

/-- `"0x"`, and the 16 digits of a pointer. -/
def putPtr (digits : List Byte) (putc : Uint → List Byte) (x : Uint64) : List Byte :=
  putc ((ch '0').setWidth 32) ++ putc ((ch 'x').setWidth 32) ++ (List.range 16).flatMap fun i =>
    putc ((digits.getD ((x <<< (4 * i)) >>> 60).toNat 0).setWidth 32)

/-! ## Conversions -/

/-- What is printed for a `%`. -/
inductive Directive where
  /-- `printint`, of an argument of this type -/
  | int (arg : Uint64 → Uint64) (base : Uint) (sign : Bool)
  | ptr
  | char
  | str
  | percent
  | unknown (c0 : Byte)

/-- `va_arg(ap, int)`, as a `long long` -/
def int (a : Uint64) : Uint64 := (a.setWidth 32).signExtend 64

/-- `va_arg(ap, uint32)` -/
def uint32 (a : Uint64) : Uint64 := (a.setWidth 32).setWidth 64

/-- The tests of both functions on the characters after a `%`, and how far `i` is increased. -/
def directive (c0 c1 c2 : Byte) : Directive × Nat :=
  if c0 = ch 'd' then (.int int 10 true, 0)
  else if c0 = ch 'l' ∧ c1 = ch 'd' then (.int id 10 true, 1)
  else if c0 = ch 'l' ∧ c1 = ch 'l' ∧ c2 = ch 'd' then (.int id 10 true, 2)
  else if c0 = ch 'u' then (.int uint32 10 false, 0)
  else if c0 = ch 'l' ∧ c1 = ch 'u' then (.int id 10 false, 1)
  else if c0 = ch 'l' ∧ c1 = ch 'l' ∧ c2 = ch 'u' then (.int id 10 false, 2)
  else if c0 = ch 'x' then (.int uint32 16 false, 0)
  else if c0 = ch 'l' ∧ c1 = ch 'x' then (.int id 16 false, 1)
  else if c0 = ch 'l' ∧ c1 = ch 'l' ∧ c2 = ch 'x' then (.int id 16 false, 2)
  else if c0 = ch 'p' then (.ptr, 0)
  else if c0 = ch 'c' then (.char, 0)
  else if c0 = ch 's' then (.str, 0)
  else if c0 = ch '%' then (.percent, 0)
  else (.unknown c0, 0)

/-- How many arguments it takes. -/
def Directive.args : Directive → Nat
  | .percent | .unknown _ => 0
  | _ => 1

/-- What a function with this `printint`, these digits and this `putc` prints; `str` is the memory, as the
    strings in it. -/
def Directive.put (printint : Uint64 → Uint → Bool → Option (List Byte)) (digits : List Byte)
    (putc : Uint → List Byte) (str : Uint64 → List Byte) (ap : VaList) : Directive → Option (List Byte)
  | .int arg base sign => printint (arg (ap 0)) base sign
  | .ptr => some (putPtr digits putc (ap 0))
  | .char => some (putc ((ap 0).setWidth 32))
  | .str => some ((if ap 0 = 0 then text "(null)" else str (ap 0)).flatMap fun c => putc (c.setWidth 32))
  | .percent => some (putc ((ch '%').setWidth 32))
  | .unknown c0 => some (putc ((ch '%').setWidth 32) ++ putc (c0.setWidth 32))

namespace Kernel

def digits : List Byte := text "0123456789abcdef"

def BACKSPACE : Uint := 0x100

def consputc (c : Uint) : List Byte :=
  if c = BACKSPACE then [8, 32, 8] else [c.setWidth 8]

def printint (xx : Uint64) (base : Uint) (sign : Bool) : Option (List Byte) := do
  let sign := sign && xx.slt 0
  let x := if sign then -xx else xx
  let buf ← storeDigits digits (base.signExtend 64) BUF x
  let buf ← storeSign sign buf
  pure (buf.reverse.flatMap fun c => consputc (c.setWidth 32))

/-- From `fmt[i]` on, of which the loop skips the first bytes. -/
def printf (str : Uint64 → List Byte) : Nat → List Byte → VaList → Option (List Byte)
  | _, [], _ => some []
  | skip + 1, _ :: fmt, ap => printf str skip fmt ap
  | 0, cx :: fmt, ap =>
    if cx ≠ ch '%' then do
      let out ← printf str 0 fmt ap
      pure (consputc (cx.setWidth 32) ++ out)
    else
      let c0 := fmt.getD 0 0
      let c1 := if c0 ≠ 0 then fmt.getD 1 0 else 0
      let c2 := if c1 ≠ 0 then fmt.getD 2 0 else 0
      if c0 = 0 then some []
      else do
        let d := directive c0 c1 c2
        let shown ← d.1.put printint digits consputc str ap
        let out ← printf str (1 + d.2) fmt (ap.drop d.1.args)
        pure (shown ++ out)

end Kernel

namespace User

def digits : List Byte := text "0123456789ABCDEF"

def putc (c : Uint) : List Byte := [c.setWidth 8]

/-- Here `x` is a `uint`. -/
def printint (xx : Uint64) (base : Uint) (sgn : Bool) : Option (List Byte) := do
  let neg := sgn && xx.slt 0
  let x : Uint := if neg then (-xx).setWidth 32 else xx.setWidth 32
  let buf ← storeDigits digits base BUF x
  let buf ← storeSign neg buf
  pure (buf.reverse.flatMap fun c => putc (c.setWidth 32))

/-- From `fmt[i]` on, of which the loop skips the first bytes; `state` is that the last byte was a `%`. -/
def vprintf (str : Uint64 → List Byte) : Nat → Bool → List Byte → VaList → Option (List Byte)
  | _, _, [], _ => some []
  | skip + 1, state, _ :: fmt, ap => vprintf str skip state fmt ap
  | 0, false, c0 :: fmt, ap =>
    if c0 = ch '%' then vprintf str 0 true fmt ap
    else do
      let out ← vprintf str 0 false fmt ap
      pure (putc (c0.setWidth 32) ++ out)
  | 0, true, c0 :: fmt, ap =>
    let c1 := fmt.getD 0 0
    let c2 := if c1 ≠ 0 then fmt.getD 1 0 else 0
    let d := directive c0 c1 c2
    do
      let shown ← d.1.put printint digits putc str ap
      let out ← vprintf str d.2 false fmt (ap.drop d.1.args)
      pure (shown ++ out)

end User

end Xv6.Printf
