import Saturate.Text.Quote

/-!
Runtime values. A value is the name of its sort and 64 bits: an `i64` in two's
complement, an `f64` as its bit pattern, a `bool` as `0` or `1`, `Unit` as `0`,
an e-class as its id, and a string, a rational or a container as its index in
an interning table. Two values are equal exactly when both parts are.
-/

namespace Saturate

/-- A runtime value: its sort's name and its payload. -/
structure Value where
  sort : String
  bits : UInt64
  deriving DecidableEq, Hashable, Repr, Inhabited

namespace Value

/-- The one value of `Unit`. -/
def unit : Value := ⟨"Unit", 0⟩

/-- The placeholder that fills slots no match has written yet. -/
def placeholder : Value := ⟨"__bogus__", 1234567890⟩

/-- A boolean. -/
def ofBool (b : Bool) : Value := ⟨"bool", if b then 1 else 0⟩

/-- The `i64` whose two's complement bits are `bits`. -/
def ofBits64 (bits : UInt64) : Value := ⟨"i64", bits⟩

/-- The two's complement bits of an integer in `[-2^63, 2^63)`. -/
def intBits (i : Int) : UInt64 :=
  if 0 ≤ i then i.toNat.toUInt64 else (Nat.pow 2 64 - i.natAbs).toUInt64

/-- An `i64`. -/
def ofInt (i : Int) : Value := ⟨"i64", intBits i⟩

/-- An `f64` from its bit pattern. -/
def ofFloatBits (bits : UInt64) : Value := ⟨"f64", bits⟩

/-- The integer that `bits` encodes in two's complement. -/
def bitsToInt (bits : UInt64) : Int :=
  if bits.toNat < Nat.pow 2 63 then bits.toNat else (bits.toNat : Int) - (Nat.pow 2 64 : Int)

/-- The integer of an `i64` value. -/
def toInt (v : Value) : Int := bitsToInt v.bits

/-- The e-class id of a value of an eq sort: the low 32 bits. -/
def id (v : Value) : Nat := v.bits.toUInt32.toNat

/-- A value of an eq sort with the given id. -/
def ofId (sort : String) (id : Nat) : Value := ⟨sort, id.toUInt64⟩

/-- The order of elements in sets and keys in maps: by where the sort's name
sorts (`key`, the place of the name in the session's table of names), then
by bits. Values of one sort compare by bits alone. -/
def compare (key : String → Nat) (a b : Value) : Ordering :=
  if a.sort = b.sort then Ord.compare a.bits b.bits
  else ((Ord.compare (key a.sort) (key b.sort)).then (Ord.compare a.bits b.bits)).then
    (Ord.compare a.sort b.sort)

/-- Whether `a` sorts strictly before `b`. -/
def lt (key : String → Nat) (a b : Value) : Bool := compare key a b == .lt

/-- The debugging text of a value, as it appears in messages. -/
def debugText (v : Value) : String :=
  "Value \x7b tag: " ++ Text.quote v.sort ++ ", bits: " ++ toString v.bits.toNat ++ " \x7d"

end Value

/-- The fixed names of the base sorts. -/
def unitSortName : String := "Unit"

end Saturate
