import Saturate.Binary64.Basic

/-!
The shortest decimal that reads back as a given finite positive value.

A value `m · 2^q` owns the interval of reals that round to it: half the gap
to each neighbour on either side, the ends included when `m` is even (a tie
reads back to the even significand). For `n = 1, 2, …, 17` digits the two
neighbours of the value on the decimal grid of `n` significant digits are
tested; the first grid with a neighbour inside the interval gives the digits,
and when both neighbours lie inside, the nearer one wins and an exact tie
goes up. All comparisons are exact products of naturals.

Main definition: `Binary64.shortest`, returning digits `d` and an exponent `k`
with `d · 10^k` the chosen decimal and `d` free of trailing zeros.
-/

namespace Saturate.Binary64

/-- A decimal `digits · 10^exponent` with a positive digit string. -/
structure Decimal where
  digits : Nat
  exponent : Int
  deriving DecidableEq, Repr

/-- Compare `a · 10^e` with `b · 2^p` exactly, moving negative powers across. -/
def compareScaled (a : Nat) (e : Int) (b : Nat) (p : Int) : Ordering :=
  let lhs := a * Nat.pow 10 (max e 0).toNat * Nat.pow 2 (max (-p) 0).toNat
  let rhs := b * Nat.pow 2 (max p 0).toNat * Nat.pow 10 (max (-e) 0).toNat
  compare lhs rhs

/-- `⌊b · 2^p / 10^e⌋`. -/
def floorScaled (b : Nat) (p e : Int) : Nat :=
  (b * Nat.pow 2 (max p 0).toNat * Nat.pow 10 (max (-e) 0).toNat) /
    (Nat.pow 2 (max (-p) 0).toNat * Nat.pow 10 (max e 0).toNat)

/-- The number of decimal digits of a positive natural. -/
def digitCount (n : Nat) : Nat := (Nat.toDigits 10 n).length

/-- `⌊log10 (b · 2^p)⌋` for positive `b`: start from the binary length, then
step until `10^k ≤ b · 2^p < 10^(k+1)`. The estimate is within two of the
answer, so four steps each way are plenty. -/
def floorLog10 (b : Nat) (p : Int) : Int :=
  let guess : Int := ((Nat.log2 b : Int) + p) * 30103 / 100000
  let below (k : Int) : Bool := compareScaled 1 k b p != .gt
  let rec up : Nat → Int → Int
    | 0, k => k
    | fuel + 1, k => if below (k + 1) then up fuel (k + 1) else k
  let rec down : Nat → Int → Int
    | 0, k => k
    | fuel + 1, k => if below k then k else down fuel (k - 1)
  up 4 (down 4 guess)

/-- Strip trailing zeros, moving them into the exponent. -/
def Decimal.normalize (d : Decimal) : Decimal :=
  let rec go : Nat → Nat → Int → Decimal
    | 0, n, e => ⟨n, e⟩
    | fuel + 1, n, e => if n ≠ 0 ∧ n % 10 = 0 then go fuel (n / 10) (e + 1) else ⟨n, e⟩
  go (digitCount d.digits) d.digits d.exponent

/-- The rounding interval of `m · 2^q`, scaled by `2^(q-2)` so that its ends
are naturals: the value is `4m`, the upper end `4m + 2`, and the lower end
`4m - 2`, or `4m - 1` when the value is a power of two whose lower neighbour is
closer. `inclusive` tells whether the ends belong to it. -/
structure Interval where
  low : Nat
  value : Nat
  high : Nat
  scale : Int
  inclusive : Bool

/-- The interval of a finite positive value. -/
def Interval.ofFinite (m : Nat) (q : Int) : Interval :=
  let tight := m = Nat.pow 2 fractionBits ∧ q > minExp
  { low := if tight then 4 * m - 1 else 4 * m - 2
    value := 4 * m
    high := 4 * m + 2
    scale := q - 2
    inclusive := m % 2 = 0 }

/-- Whether `c · 10^k` lies in the interval. -/
def Interval.contains (r : Interval) (c : Nat) (k : Int) : Bool :=
  let lo := compareScaled c k r.low r.scale
  let hi := compareScaled c k r.high r.scale
  if r.inclusive then lo != .lt && hi != .gt else lo == .gt && hi == .lt

/-- The neighbours `c · 10^k` and `(c + 1) · 10^k` of the value on the grid of
`n` significant digits, and which of them lie in the interval. The nearer wins
when both do, and a tie goes to the upper one. -/
def Interval.onGrid (r : Interval) (e10 : Int) (n : Nat) : Option Decimal :=
  let k := e10 - n + 1
  let c := floorScaled r.value r.scale k
  let downOk := c ≠ 0 && r.contains c k
  let upOk := r.contains (c + 1) k
  if downOk && upOk then
    -- distance below is value - c·10^k, above is (c+1)·10^k - value
    let twice := compareScaled (2 * c + 1) k (2 * r.value) r.scale
    if twice == .gt then some ⟨c, k⟩ else some ⟨c + 1, k⟩
  else if downOk then some ⟨c, k⟩
  else if upOk then some ⟨c + 1, k⟩
  else none

/-- The shortest decimal inside the interval of the finite positive value
`m · 2^q`. Seventeen digits always suffice; the last grid is returned as a
fallback that the search never reaches. -/
def shortest (m : Nat) (q : Int) : Decimal :=
  let r := Interval.ofFinite m q
  let e10 := floorLog10 r.value r.scale
  let rec search : Nat → Nat → Decimal
    | 0, n => ⟨floorScaled r.value r.scale (e10 - n + 1), e10 - n + 1⟩
    | fuel + 1, n =>
      match r.onGrid e10 n with
      | some d => d
      | none => search fuel (n + 1)
  (search 17 1).normalize

end Saturate.Binary64
