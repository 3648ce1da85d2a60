import Saturate.SortInfo

/-!
Primitives: the built-in operations on values. A primitive has a name, shared
by its overloads, and a signature that typing turns into constraints.

Overloads are registered per sort in a fixed order, so that the alternatives
of a name are tried in that order: `Unit`, `String`, `bool`, `i64`, `f64`,
`Rational`, then `!=`, then the primitives of each container sort in the
order the sorts are declared.
-/

namespace Saturate

/-- Operations on strings. -/
inductive StrOp where
  | concat | replace
  deriving DecidableEq, Repr, Inhabited

/-- Operations on booleans. -/
inductive BoolOp where
  | not | and | or | xor | implies
  deriving DecidableEq, Repr, Inhabited

/-- Operations on `i64`. The comparisons `lt`…`ge` succeed with unit or fail;
`eqB`…`geB` return a boolean. -/
inductive IntOp where
  | add | sub | mul | div | rem | band | bor | bxor | shl | shr | bnot | log2
  | lt | gt | le | ge | eqB | ltB | gtB | leB | geB | min | max | toString | countMatches
  deriving DecidableEq, Repr, Inhabited

/-- Operations on `f64`, with `ofInt` and `toInt` the conversions from and to `i64`. -/
inductive FloatOp where
  | add | sub | mul | div | rem | pow | neg | lt | gt | le | ge | min | max | abs
  | ofInt | toInt | toString
  deriving DecidableEq, Repr, Inhabited

/-- Operations on rationals. -/
inductive RatOp where
  | add | sub | mul | div | neg | abs | min | max | lt | gt | le | ge
  | make | numer | denom | toFloat
  deriving DecidableEq, Repr, Inhabited

/-- Operations of a set sort. -/
inductive SetOp where
  | empty | of | insert | remove | union | contains | notContains | length
  deriving DecidableEq, Repr, Inhabited

/-- Operations of a vector sort. -/
inductive VecOp where
  | empty | of | push | get | length
  deriving DecidableEq, Repr, Inhabited

/-- Operations of a map sort. -/
inductive MapOp where
  | empty | insert | get | contains | notContains | remove | length
  deriving DecidableEq, Repr, Inhabited

/-- Operations of a function sort: building a partial application of a
named function, and applying one. -/
inductive FnOp where
  | build | apply
  deriving DecidableEq, Repr, Inhabited

/-- A primitive, with the container sort it belongs to where it has one. -/
inductive Prim where
  | notEqual
  | str (op : StrOp)
  | bool (op : BoolOp)
  | int (op : IntOp)
  | float (op : FloatOp)
  | rat (op : RatOp)
  | set (sort : SortInfo) (op : SetOp)
  | vec (sort : SortInfo) (op : VecOp)
  | map (sort : SortInfo) (op : MapOp)
  | fn (sort : SortInfo) (op : FnOp)
  deriving Repr, Inhabited

/-- The argument and result sorts a primitive accepts.

* `fixed sorts`: exactly these sorts, inputs then output.
* `allEqual all len out`: with `out`, the last argument has that sort; every
  other argument has sort `all`, or all are equal when there is none; `len`
  fixes the number of arguments, output included.
* `partialApp sort`: a function name, some captured arguments and a value of
  the function sort `sort`. -/
inductive Signature where
  | fixed (sorts : List SortInfo)
  | allEqual (all : Option SortInfo) (len : Option Nat) (out : Option SortInfo)
  | partialApp (sort : SortInfo)
  deriving Repr, Inhabited

/-- The name of a string operation. -/
def StrOp.name : StrOp → String
  | .concat => "+" | .replace => "replace"

/-- The name of a boolean operation. -/
def BoolOp.name : BoolOp → String
  | .not => "not" | .and => "and" | .or => "or" | .xor => "xor" | .implies => "=>"

/-- The name of an `i64` operation. -/
def IntOp.name : IntOp → String
  | .add => "+" | .sub => "-" | .mul => "*" | .div => "/" | .rem => "%"
  | .band => "&" | .bor => "|" | .bxor => "^" | .shl => "<<" | .shr => ">>"
  | .bnot => "not-i64" | .log2 => "log2"
  | .lt => "<" | .gt => ">" | .le => "<=" | .ge => ">="
  | .eqB => "bool-=" | .ltB => "bool-<" | .gtB => "bool->" | .leB => "bool-<=" | .geB => "bool->="
  | .min => "min" | .max => "max" | .toString => "to-string" | .countMatches => "count-matches"

/-- The name of an `f64` operation. -/
def FloatOp.name : FloatOp → String
  | .add => "+" | .sub => "-" | .mul => "*" | .div => "/" | .rem => "%" | .pow => "^"
  | .neg => "neg" | .lt => "<" | .gt => ">" | .le => "<=" | .ge => ">="
  | .min => "min" | .max => "max" | .abs => "abs"
  | .ofInt => "to-f64" | .toInt => "to-i64" | .toString => "to-string"

/-- The name of a rational operation. -/
def RatOp.name : RatOp → String
  | .add => "+" | .sub => "-" | .mul => "*" | .div => "/" | .neg => "neg" | .abs => "abs"
  | .min => "min" | .max => "max" | .lt => "<" | .gt => ">" | .le => "<=" | .ge => ">="
  | .make => "rational" | .numer => "numer" | .denom => "denom" | .toFloat => "to-f64"

/-- The name of a set operation. -/
def SetOp.name : SetOp → String
  | .empty => "set-empty" | .of => "set-of" | .insert => "set-insert" | .remove => "set-remove"
  | .union => "set-union" | .contains => "set-contains" | .notContains => "set-not-contains"
  | .length => "set-length"

/-- The name of a vector operation. -/
def VecOp.name : VecOp → String
  | .empty => "vec-empty" | .of => "vec-of" | .push => "vec-push" | .get => "vec-get"
  | .length => "vec-length"

/-- The name of a map operation. -/
def MapOp.name : MapOp → String
  | .empty => "map-empty" | .insert => "map-insert" | .get => "map-get"
  | .contains => "map-contains" | .notContains => "map-not-contains"
  | .remove => "map-remove" | .length => "map-length"

/-- The name of a function-sort operation. -/
def FnOp.name : FnOp → String
  | .build => "unstable-fn" | .apply => "unstable-app"

namespace Prim

/-- The name of a primitive. -/
def name : Prim → String
  | .notEqual => "!="
  | .str op => op.name
  | .bool op => op.name
  | .int op => op.name
  | .float op => op.name
  | .rat op => op.name
  | .set _ op => op.name
  | .vec _ op => op.name
  | .map _ op => op.name
  | .fn _ op => op.name

/-- The element sort of a set or vector sort. -/
def elemOf : SortInfo → SortInfo
  | .set _ _ e | .vec _ _ e => e
  | _ => .unit

/-- The signature of a primitive. -/
def signature : Prim → Signature
  | .notEqual => .allEqual none (some 3) (some .unit)
  | .str .concat => .allEqual (some .string) none none
  | .str .replace => .allEqual (some .string) (some 4) none
  | .bool .not => .fixed [.bool, .bool]
  | .bool _ => .fixed [.bool, .bool, .bool]
  | .int op => match op with
    | .bnot => .fixed [.i64, .i64]
    | .log2 => .fixed [.i64, .i64]
    | .lt | .gt | .le | .ge => .fixed [.i64, .i64, .unit]
    | .eqB | .ltB | .gtB | .leB | .geB => .fixed [.i64, .i64, .bool]
    | .toString => .fixed [.i64, .string]
    | .countMatches => .allEqual (some .string) (some 3) (some .i64)
    | _ => .fixed [.i64, .i64, .i64]
  | .float op => match op with
    | .neg | .abs => .fixed [.f64, .f64]
    | .lt | .gt | .le | .ge => .fixed [.f64, .f64, .unit]
    | .ofInt => .fixed [.i64, .f64]
    | .toInt => .fixed [.f64, .i64]
    | .toString => .fixed [.f64, .string]
    | _ => .fixed [.f64, .f64, .f64]
  | .rat op => match op with
    | .neg | .abs => .fixed [.rational, .rational]
    | .lt | .gt | .le | .ge => .fixed [.rational, .rational, .unit]
    | .make => .fixed [.i64, .i64, .rational]
    | .numer | .denom => .fixed [.rational, .i64]
    | .toFloat => .fixed [.rational, .f64]
    | _ => .fixed [.rational, .rational, .rational]
  | .set s op =>
    let e := elemOf s
    match op with
    | .empty => .fixed [s]
    | .of => .allEqual (some e) none (some s)
    | .insert | .remove => .fixed [s, e, s]
    | .union => .fixed [s, s, s]
    | .contains | .notContains => .fixed [s, e, .unit]
    | .length => .fixed [s, .i64]
  | .vec s op =>
    let e := elemOf s
    match op with
    | .empty => .fixed [s]
    | .of => .allEqual (some e) none (some s)
    | .push => .fixed [s, e, s]
    | .get => .fixed [s, .i64, e]
    | .length => .fixed [s, .i64]
  | .map s op =>
    let (k, v) := match s with
      | .map _ _ k v => (k, v)
      | _ => (.unit, .unit)
    match op with
    | .empty => .fixed [s]
    | .insert => .fixed [s, k, v, s]
    | .get => .fixed [s, k, v]
    | .contains | .notContains => .fixed [s, k, .unit]
    | .remove => .fixed [s, k, s]
    | .length => .fixed [s, .i64]
  | .fn s op =>
    match op, s with
    | .build, _ => .partialApp s
    | .apply, .func _ _ ins out => .fixed (s :: ins ++ [out])
    | .apply, _ => .fixed [s]

end Prim

/-- The primitives a sort registers, in order. -/
def SortInfo.primitives : SortInfo → List Prim
  | .unit => []
  | .string => [.str .concat, .str .replace]
  | .bool => [.bool .not, .bool .and, .bool .or, .bool .xor, .bool .implies]
  | .i64 =>
    [.add, .sub, .mul, .div, .rem, .band, .bor, .bxor, .shl, .shr, .bnot, .log2,
      .lt, .gt, .le, .ge, .eqB, .ltB, .gtB, .leB, .geB, .min, .max, .toString,
      .countMatches].map Prim.int
  | .f64 =>
    [.add, .sub, .mul, .div, .rem, .pow, .neg, .lt, .gt, .le, .ge, .min, .max, .abs,
      .ofInt, .toInt, .toString].map Prim.float
  | .rational =>
    [.add, .sub, .mul, .div, .neg, .abs, .min, .max, .lt, .gt, .le, .ge,
      .make, .numer, .denom, .toFloat].map Prim.rat
  | .eq _ => []
  | s@(.set ..) =>
    [.empty, .of, .insert, .remove, .union, .contains, .notContains, .length].map (Prim.set s)
  | s@(.vec ..) => [.empty, .of, .push, .get, .length].map (Prim.vec s)
  | s@(.map ..) =>
    [.empty, .insert, .get, .contains, .notContains, .remove, .length].map (Prim.map s)
  | s@(.func ..) => [.build, .apply].map (Prim.fn s)

end Saturate
