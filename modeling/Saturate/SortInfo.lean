import Saturate.Value

/-!
Sorts: the types of the columns of the database. The base sorts carry their
payload in a value's bits; an eq sort's values are e-class ids; the container
sorts (`Set`, `Vec`, `Map` and `UnstableFn` instances) intern their contents
in a table of their own, named by `table`, and store its index.

A sort is known by its name: two sorts with the same name are the same sort
for typing.
-/

namespace Saturate

/-- The description of a sort. -/
inductive SortInfo where
  | unit
  | string
  | bool
  | i64
  | f64
  | rational
  | eq (name : String)
  | set (name : String) (table : Nat) (elem : SortInfo)
  | vec (name : String) (table : Nat) (elem : SortInfo)
  | map (name : String) (table : Nat) (key val : SortInfo)
  | func (name : String) (table : Nat) (inputs : List SortInfo) (output : SortInfo)
  deriving Repr, Inhabited

namespace SortInfo

/-- The name of a sort. -/
def name : SortInfo → String
  | .unit => "Unit"
  | .string => "String"
  | .bool => "bool"
  | .i64 => "i64"
  | .f64 => "f64"
  | .rational => "Rational"
  | .eq n => n
  | .set n _ _ => n
  | .vec n _ _ => n
  | .map n _ _ _ => n
  | .func n _ _ _ => n

/-- Whether the values of a sort are e-class ids. -/
def isEq : SortInfo → Bool
  | .eq _ => true
  | _ => false

/-- Whether a sort interns containers. -/
def isContainer : SortInfo → Bool
  | .set .. | .vec .. | .map .. | .func .. => true
  | _ => false

/-- Whether a container sort may hold e-class ids one level down; a function
sort may always capture them. -/
def isEqContainer : SortInfo → Bool
  | .set _ _ e | .vec _ _ e => e.isEq
  | .map _ _ k v => k.isEq || v.isEq
  | .func .. => true
  | _ => false

/-- The sorts registered in every fresh session, in registration order. -/
def base : List SortInfo := [.unit, .string, .bool, .i64, .f64, .rational]

end SortInfo

/-- The presorts: container sort constructors. -/
def presortNames : List String := ["Map", "Set", "Vec", "UnstableFn"]

/-- The primitive names the presorts reserve, so no function may take them. -/
def reservedPrimitives : List String :=
  ["map-empty", "map-insert", "map-get", "map-not-contains", "map-contains", "map-remove",
    "map-length", "set-of", "set-empty", "set-insert", "set-not-contains", "set-contains",
    "set-remove", "set-union", "set-length", "vec-of", "vec-empty", "vec-push", "vec-get",
    "vec-length", "unstable-fn", "unstable-app"]

end Saturate
