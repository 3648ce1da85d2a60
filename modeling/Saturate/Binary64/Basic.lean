/-!
Binary64 bit patterns as numbers. A pattern is NaN, an infinity, or a finite
value `m · 2^q` with a sign; `Binary64.decode` reads the three fields and
`Binary64.ofRatio` rounds a non-negative ratio of naturals to the nearest
pattern, a tie going to the even significand, and past the largest finite
value to infinity. Everything is exact arithmetic on `Nat` and `Int`.
-/

namespace Saturate.Binary64

/-- What a bit pattern denotes. A finite value is `m · 2^q`, with `m < 2^53`
and `-1074 ≤ q`, and the sign apart so that `-0.0` is kept. -/
inductive Class where
  | nan
  | infinite (neg : Bool)
  | finite (neg : Bool) (m : Nat) (q : Int)
  deriving DecidableEq, Repr

/-- The width of the stored fraction. -/
def fractionBits : Nat := 52

/-- The exponent of the least subnormal: every finite value is a multiple of `2^minExp`. -/
def minExp : Int := -1074

/-- The sign bit. -/
def signBit (bits : UInt64) : Bool := bits >>> 63 == 1

/-- The biased exponent field. -/
def exponentField (bits : UInt64) : Nat := ((bits >>> 52) &&& 0x7ff).toNat

/-- The stored fraction field. -/
def fractionField (bits : UInt64) : Nat := (bits &&& 0xfffffffffffff).toNat

/-- The class of a pattern: an exponent field of all ones is NaN or an
infinity, zero is a subnormal (or a zero) and anything else a normal value
whose significand has the hidden bit added. -/
def decode (bits : UInt64) : Class :=
  let e := exponentField bits
  let f := fractionField bits
  if e = 0x7ff then
    if f = 0 then .infinite (signBit bits) else .nan
  else if e = 0 then
    .finite (signBit bits) f minExp
  else
    .finite (signBit bits) (f + Nat.pow 2 fractionBits) ((e : Int) - 1075)

/-- The pattern of a sign, a biased exponent and a fraction. -/
def encodeFields (neg : Bool) (e f : Nat) : UInt64 :=
  ((if neg then 1 else 0 : UInt64) <<< 63) ||| ((e.toUInt64 &&& 0x7ff) <<< 52) |||
    (f.toUInt64 &&& 0xfffffffffffff)

/-- Positive infinity. -/
def infinityBits (neg : Bool) : UInt64 := encodeFields neg 0x7ff 0

/-- The quiet NaN that reading "NaN" gives. -/
def nanBits : UInt64 := 0x7ff8000000000000

/-- Whether a pattern is a NaN. -/
def isNaN (bits : UInt64) : Bool := exponentField bits == 0x7ff && fractionField bits != 0

/-- The pattern of `m · 2^q` when `m < 2^53` and the pair is the normal form of
a representable value: a significand of 53 bits is normal, a shorter one at the
least exponent is subnormal. -/
def encodeFinite (neg : Bool) (m : Nat) (q : Int) : UInt64 :=
  if m < Nat.pow 2 fractionBits then encodeFields neg 0 m
  else encodeFields neg (q + 1075).toNat (m - Nat.pow 2 fractionBits)

/-- `⌊log2 (num / den)⌋` for positive `num` and `den`. The estimate from the two
bit lengths is off by at most one, and the comparison settles it. -/
def floorLog2 (num den : Nat) : Int :=
  let e : Int := (Nat.log2 num : Int) - (Nat.log2 den : Int)
  -- 2^e ≤ num/den holds iff den · 2^e ≤ num
  let fits : Bool :=
    if 0 ≤ e then den * Nat.pow 2 e.toNat ≤ num else den ≤ num * Nat.pow 2 (-e).toNat
  if fits then e else e - 1

/-- Divide and round to the nearest natural, a tie going to the even one. -/
def divRoundEven (num den : Nat) : Nat :=
  let q := num / den
  let r := num % den
  if 2 * r < den then q
  else if 2 * r > den then q + 1
  else if q % 2 = 0 then q else q + 1

/-- The nearest pattern to `num / den` (with the given sign), ties to an even
significand. The exponent is chosen so that the significand has 53 bits, or
is the least one for values below the normal range; a significand that rounds
up to `2^53` moves to the next exponent, and an exponent past the top of the
range gives infinity. -/
def ofRatio (neg : Bool) (num den : Nat) : UInt64 :=
  if num = 0 ∨ den = 0 then encodeFields neg 0 0
  else
    let k := floorLog2 num den
    let q : Int := max (k - 52) minExp
    -- the significand is num / (den · 2^q), rounded
    let m :=
      if 0 ≤ q then divRoundEven num (den * Nat.pow 2 q.toNat)
      else divRoundEven (num * Nat.pow 2 (-q).toNat) den
    let (m, q) := if m = Nat.pow 2 (fractionBits + 1) then (Nat.pow 2 fractionBits, q + 1) else (m, q)
    if q > 971 then infinityBits neg else encodeFinite neg m q

/-- The pattern nearest to an integer. -/
def ofInt (i : Int) : UInt64 := ofRatio (i < 0) i.natAbs 1

end Saturate.Binary64
