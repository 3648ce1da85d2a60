import Saturate.Binary64.Shortest

/-!
Text of binary64 values, in the two styles the engine prints, and reading
decimal text back.

* `Binary64.literalText`: a finite value without a fractional part is its
  exact integer with `.0` (`1e300` prints all 301 digits); any other value is
  its shortest decimal written out in positional notation (`0.0000001`);
  NaN and the infinities are `NaN`, `inf` and `-inf`.
* `Binary64.debugText`: the shortest decimal, positional with at least one
  fractional digit when `1e-4 ≤ |x| < 1e16` (or `x` is zero), and otherwise in
  scientific form `d.ddde-7` with no `+` and no padding.
* `Binary64.read?`: an optional sign, then `inf`, `infinity` or `nan` in any
  case, or digits with an optional point and an optional exponent, rounded
  to the nearest value.
-/

namespace Saturate.Binary64

/-- The decimal digits of a natural. -/
def natText (n : Nat) : String := String.ofList (Nat.toDigits 10 n)

/-- `n` zeros. -/
def zeros (n : Nat) : String := String.ofList (List.replicate n '0')

/-- Positional text of `d · 10^k`: a point inside the digits, or `0.` and
leading zeros before them, or trailing zeros after them; `minFraction`
fractional digits at least (zero or one). -/
def positional (d : Decimal) (minFraction : Nat) : String :=
  let ds := natText d.digits
  let len := ds.length
  let point : Int := len + d.exponent
  if point ≤ 0 then
    "0." ++ zeros (-point).toNat ++ ds
  else if point.toNat < len then
    let p := point.toNat
    String.ofList (ds.toList.take p) ++ "." ++ String.ofList (ds.toList.drop p)
  else
    ds ++ zeros (point.toNat - len) ++ (if minFraction > 0 then "." ++ zeros minFraction else "")

/-- Scientific text of `d · 10^k`: one digit before the point, the rest after
it if any, then `e` and the decimal exponent. -/
def scientific (d : Decimal) : String :=
  let ds := natText d.digits
  let e : Int := d.exponent + ds.length - 1
  let mantissa := match ds.toList with
    | c :: rest@(_ :: _) => String.ofList [c] ++ "." ++ String.ofList rest
    | _ => ds
  let exp := if e < 0 then "-" ++ natText e.natAbs else natText e.toNat
  mantissa ++ "e" ++ exp

/-- The sign prefix. -/
def signText (neg : Bool) : String := if neg then "-" else ""

/-- The exact value of an integral `m · 2^q`. -/
def integralPart (m : Nat) (q : Int) : Nat :=
  if 0 ≤ q then m * Nat.pow 2 q.toNat else m / Nat.pow 2 (-q).toNat

/-- Whether `m · 2^q` is an integer. -/
def isIntegral (m : Nat) (q : Int) : Bool :=
  0 ≤ q || m % Nat.pow 2 (-q).toNat == 0

/-- The text a float literal prints as. -/
def literalText (bits : UInt64) : String :=
  match decode bits with
  | .nan => "NaN"
  | .infinite neg => signText neg ++ "inf"
  | .finite neg m q =>
    if isIntegral m q then signText neg ++ natText (integralPart m q) ++ ".0"
    else signText neg ++ positional (shortest m q) 0

/-- The text of the float-to-string conversion. -/
def debugText (bits : UInt64) : String :=
  match decode bits with
  | .nan => "NaN"
  | .infinite neg => signText neg ++ "inf"
  | .finite neg m q =>
    if m = 0 then signText neg ++ "0.0"
    else
      let d := shortest m q
      -- scientific below 1e-4 and from 1e16 on
      let small := compareScaled 1 (-4) m q == .gt
      let large := compareScaled 1 16 m q != .gt
      if small || large then signText neg ++ scientific d
      else signText neg ++ positional d 1

/-- The value of a decimal digit. -/
def digitValue (c : Char) : Nat := c.toNat - '0'.toNat

/-- Digits, possibly none, and the rest of the text. -/
def spanDigits (cs : List Char) : List Char × List Char :=
  (cs.takeWhile Char.isDigit, cs.dropWhile Char.isDigit)

/-- The natural written by a digit string. -/
def digitsValue (ds : List Char) : Nat := ds.foldl (fun n c => 10 * n + digitValue c) 0

/-- Read the unsigned part of a decimal: `digits [. digits] [e [sign] digits]`
with at least one digit in the mantissa. Gives the digits as a natural and
the power of ten to apply. -/
def readUnsigned (cs : List Char) : Option (Nat × Int) :=
  let (whole, rest) := spanDigits cs
  let (frac, rest) := match rest with
    | '.' :: r => spanDigits r
    | r => ([], r)
  if whole.isEmpty && frac.isEmpty then none
  else
    let mantissa := digitsValue (whole ++ frac)
    let shift : Int := -(frac.length : Int)
    match rest with
    | [] => some (mantissa, shift)
    | c :: r =>
      if (c == 'e' || c == 'E') then
        let (neg, r) := match r with
          | '-' :: r => (true, r)
          | '+' :: r => (false, r)
          | r => (false, r)
        let (es, tail) := spanDigits r
        if es.isEmpty || !tail.isEmpty then none
        else
          let e : Int := digitsValue es
          some (mantissa, shift + (if neg then -e else e))
      else none

/-- The nearest pattern to `mantissa · 10^e`. Exponents far outside the range
are cut short: beyond them the result is zero or infinity anyway. -/
def ofDecimal (neg : Bool) (mantissa : Nat) (e : Int) : UInt64 :=
  if mantissa = 0 then encodeFields neg 0 0
  else
    let digits : Int := (Nat.toDigits 10 mantissa).length
    if e + digits > 400 then infinityBits neg
    else if e + digits < -400 then encodeFields neg 0 0
    else if 0 ≤ e then ofRatio neg (mantissa * Nat.pow 10 e.toNat) 1
    else ofRatio neg mantissa (Nat.pow 10 (-e).toNat)

/-- Read a float the way the standard decimal reader does. -/
def read? (s : String) : Option UInt64 :=
  let cs := s.toList
  let (neg, body) := match cs with
    | '-' :: r => (true, r)
    | '+' :: r => (false, r)
    | r => (false, r)
  let word := String.ofList (body.map Char.toLower)
  if word == "inf" || word == "infinity" then some (infinityBits neg)
  else if word == "nan" then
    some (if neg then nanBits ||| ((1 : UInt64) <<< 63) else nanBits)
  else (readUnsigned body).map fun (m, e) => ofDecimal neg m e

end Saturate.Binary64
