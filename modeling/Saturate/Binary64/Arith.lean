import Saturate.Binary64.Basic

/-!
Arithmetic on binary64 patterns. Addition, subtraction, multiplication,
division and powers take their numeric results from the hardware and their
NaNs from the hardware's rule (`Binary64.withNaNs`); the remainder, the
order, conversion to integers and the sign operations are computed exactly
from the decoded fields.

* `Binary64.compareTotal` is the total order in which NaN is above everything
  and equal to itself, and `-0.0` equals `0.0`.
* `Binary64.rem` is the remainder of the quotient truncated toward zero; it
  carries the sign of the dividend and is always exact. Its NaNs are those of
  the hardware: an operand's NaN quieted, or the invalid-operation NaN.
* `Binary64.truncToInt` drops the fraction and saturates at the ends of the
  64-bit range, with NaN going to zero.
-/

namespace Saturate.Binary64

/-- The NaN that invalid operations produce: the quiet NaN with the sign bit set. -/
def invalidBits : UInt64 := 0xfff8000000000000

/-- A NaN made quiet, keeping its sign and payload. -/
def quiet (a : UInt64) : UInt64 := a ||| 0x0008000000000000

/-- The pattern of `1.0`. -/
def oneBits : UInt64 := 0x3ff0000000000000

/-- An operation as the hardware does it: a NaN operand comes back quieted,
the first one first, and a NaN made from numbers (`inf - inf`, `0 * inf`,
`0 / 0`) is the invalid-operation NaN. The numeric result comes from `f`. -/
def withNaNs (f : Float → Float → Float) (a b : UInt64) : UInt64 :=
  if isNaN a then quiet a
  else if isNaN b then quiet b
  else
    let r := (f (Float.ofBits a) (Float.ofBits b)).toBits
    if isNaN r then invalidBits else r

/-- The hardware sum. -/
def add (a b : UInt64) : UInt64 := withNaNs (· + ·) a b

/-- The hardware difference. -/
def sub (a b : UInt64) : UInt64 := withNaNs (· - ·) a b

/-- The hardware product. -/
def mul (a b : UInt64) : UInt64 := withNaNs (· * ·) a b

/-- The hardware quotient. -/
def div (a b : UInt64) : UInt64 := withNaNs (· / ·) a b

/-- Whether a pattern is an odd integer. -/
def isOddInteger (a : UInt64) : Bool :=
  match decode a with
  | .finite _ m q =>
    if 0 ≤ q then q = 0 && m % 2 == 1
    else m % Nat.pow 2 (-q).toNat == 0 && (m / Nat.pow 2 (-q).toNat) % 2 == 1
  | _ => false

/-- Whether a pattern is a signaling NaN: a NaN whose quiet bit is clear. -/
def isSignaling (a : UInt64) : Bool := isNaN a && a &&& 0x0008000000000000 == 0

/-- The library power function. A zero exponent gives one, and so does a base
of one against an exponent that is zero, infinite or a NaN; a signaling NaN
on the other side turns either case into that NaN, quieted. A NaN exponent
otherwise passes on the base's NaN if there is one and its own otherwise; a
NaN base against an infinite exponent passes on, and against a finite one
passes on as its square, whose sign an odd exponent turns back. A negative
base to a fraction is the invalid-operation NaN. -/
def pow (a b : UInt64) : UInt64 :=
  if b &&& 0x7fffffffffffffff == 0 then (if isSignaling a then quiet a else oneBits)
  else if a == oneBits then (if isSignaling b then quiet b else oneBits)
  else if isNaN b then (if isNaN a then quiet a else quiet b)
  else if isNaN a then
    match decode b with
    | .finite _ _ _ =>
      if signBit a && isOddInteger b then quiet a ^^^ 0x8000000000000000 else quiet a
    | _ => quiet a
  else withNaNs Float.pow a b

/-- The sign flipped. -/
def neg (a : UInt64) : UInt64 := a ^^^ 0x8000000000000000

/-- The sign cleared. -/
def abs (a : UInt64) : UInt64 := a &&& 0x7fffffffffffffff

/-- Whether a pattern is a zero of either sign. -/
def isZero (a : UInt64) : Bool := abs a == 0

/-- Compare `m1 · 2^q1` with `m2 · 2^q2`. -/
def compareMagnitude (m1 : Nat) (q1 : Int) (m2 : Nat) (q2 : Int) : Ordering :=
  if q1 ≥ q2 then compare (m1 * Nat.pow 2 (q1 - q2).toNat) m2
  else compare m1 (m2 * Nat.pow 2 (q2 - q1).toNat)

/-- A non-NaN pattern as a sign (`-1`, `0` or `1`) and a magnitude that is
`none` for infinity. -/
def signed (a : UInt64) : Int × Option (Nat × Int) :=
  match decode a with
  | .nan => (0, none)
  | .infinite neg => (if neg then -1 else 1, none)
  | .finite neg m q => (if m = 0 then 0 else if neg then -1 else 1, some (m, q))

/-- Compare the magnitudes of two non-NaN patterns. -/
def compareAbs : Option (Nat × Int) → Option (Nat × Int) → Ordering
  | none, none => .eq
  | none, some _ => .gt
  | some _, none => .lt
  | some (m1, q1), some (m2, q2) => compareMagnitude m1 q1 m2 q2

/-- The total order on patterns: NaN is above all and equal to itself, and
the two zeros are equal. -/
def compareTotal (a b : UInt64) : Ordering :=
  match isNaN a, isNaN b with
  | true, true => .eq
  | true, false => .gt
  | false, true => .lt
  | false, false =>
    let (s1, x1) := signed a
    let (s2, x2) := signed b
    if s1 ≠ s2 then compare s1 s2
    else if s1 = 0 then .eq
    else if s1 > 0 then compareAbs x1 x2
    else compareAbs x2 x1

/-- The remainder of `a / b` with the quotient truncated toward zero. A NaN
operand comes back quieted, the first one first; an infinite `a` or a zero
`b` gives the invalid-operation NaN; `a` itself when `b` is infinite. -/
def rem (a b : UInt64) : UInt64 :=
  match decode a, decode b with
  | .nan, _ => quiet a
  | _, .nan => quiet b
  | .infinite _, _ => invalidBits
  | .finite _ _ _, .infinite _ => a
  | .finite na ma qa, .finite _ mb qb =>
    if mb = 0 then invalidBits
    else
      let e := min qa qb
      let x := ma * Nat.pow 2 (qa - e).toNat
      let y := mb * Nat.pow 2 (qb - e).toNat
      let r := x % y
      if 0 ≤ e then ofRatio na (r * Nat.pow 2 e.toNat) 1 else ofRatio na r (Nat.pow 2 (-e).toNat)

/-- The integer part, saturated to `[-2^63, 2^63 - 1]`; NaN gives zero. -/
def truncToInt (a : UInt64) : Int :=
  let clamp (i : Int) : Int := max (-(Nat.pow 2 63 : Int)) (min ((Nat.pow 2 63 : Int) - 1) i)
  match decode a with
  | .nan => 0
  | .infinite neg => if neg then -(Nat.pow 2 63 : Int) else (Nat.pow 2 63 : Int) - 1
  | .finite neg m q =>
    let n : Nat := if 0 ≤ q then m * Nat.pow 2 q.toNat else m / Nat.pow 2 (-q).toNat
    clamp (if neg then -(n : Int) else n)

/-- `num / den` as a pattern, for a rational with positive denominator. -/
def ofRat (r : Rat) : UInt64 := ofRatio (r.num < 0) r.num.natAbs r.den

end Saturate.Binary64
