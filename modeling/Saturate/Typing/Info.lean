import Std.Data.HashMap
import Saturate.Typing.Constraint

/-!
The typing environment: the sorts by name, the overloads of every primitive
name in registration order, the signatures of functions and the names of
globals. A fresh environment registers the base sorts with their primitives,
then `!=`; declaring a container sort registers its primitives after all
earlier ones.

Declaring a sort or a function checks, in order, the errors that the
declaration can meet, and changes nothing when one arises.
-/

namespace Saturate

/-- The typing environment. -/
structure TypeInfo where
  sorts : Std.HashMap String SortInfo
  primitives : Std.HashMap String (Array Prim)
  funcTypes : Std.HashMap String FuncType
  globals : Std.HashMap String Unit
  deriving Inhabited

namespace TypeInfo

/-- Register a primitive after the overloads of its name. -/
def addPrimitive (ti : TypeInfo) (p : Prim) : TypeInfo :=
  { ti with primitives := ti.primitives.insert p.name ((ti.primitives.getD p.name #[]).push p) }

/-- Add a sort and its primitives; a name already taken by a sort is an error. -/
def addSort (ti : TypeInfo) (s : SortInfo) : Except TypeError TypeInfo :=
  if ti.sorts.contains s.name then .error (.sortAlreadyBound s.name)
  else .ok (s.primitives.foldl addPrimitive { ti with sorts := ti.sorts.insert s.name s })

/-- The environment of a fresh session. -/
def fresh : TypeInfo :=
  let empty : TypeInfo := ⟨{}, {}, {}, {}⟩
  let withBase := SortInfo.base.foldl
    (fun ti s => { (s.primitives.foldl addPrimitive ti) with sorts := ti.sorts.insert s.name s })
    empty
  withBase.addPrimitive .notEqual

/-- The sort of a name. -/
def sort? (ti : TypeInfo) (name : String) : Option SortInfo := ti.sorts.get? name

/-- Whether a name is a primitive or reserved for one. -/
def isPrimitive (ti : TypeInfo) (name : String) : Bool :=
  ti.primitives.contains name || reservedPrimitives.contains name

/-- Whether a name is a global. -/
def isGlobal (ti : TypeInfo) (name : String) : Bool := ti.globals.contains name

/-- The overloads of a primitive name. -/
def prims (ti : TypeInfo) (name : String) : List Prim := (ti.primitives.getD name #[]).toList

/-- The sort of a literal. -/
def literalSort : Literal → SortInfo
  | .int _ => .i64
  | .float _ => .f64
  | .string _ => .string
  | .bool _ => .bool
  | .unit => .unit

/-- The sort named by a presort argument. -/
def sortArgument (ti : TypeInfo) (presort : String) (args : List Expr) (i : Nat) :
    Except TypeError SortInfo :=
  match args[i]? with
  | some (.var n) => match ti.sort? n with
    | some s => .ok s
    | none => .error (.undefinedSort n)
  | some e => .error (.presortArgument presort e)
  | none => .error (.presortArgument presort (.call presort args))

/-- Build an instance of a presort, with the intern table it will use. -/
def makeSort (ti : TypeInfo) (name presort : String) (args : List Expr) (table : Nat) :
    Except TypeError SortInfo := do
  let nested (what : String) : TypeError :=
    .disallowedSort name (what ++ " nested with other EqSort containers are not allowed")
  match presort with
  | "Set" =>
    if args.length ≠ 1 then throw (.presortArgument "Set" (.call name args))
    let e ← ti.sortArgument "Set" args 0
    if e.isEqContainer then throw (nested "Sets")
    pure (.set name table e)
  | "Vec" =>
    if args.length ≠ 1 then throw (.presortArgument "Vec" (.call name args))
    let e ← ti.sortArgument "Vec" args 0
    if e.isEqContainer then throw (nested "Vecs")
    pure (.vec name table e)
  | "Map" =>
    if args.length ≠ 2 then throw (.presortArgument "Map" (.call name args))
    let k ← ti.sortArgument "Map" args 0
    let v ← ti.sortArgument "Map" args 1
    if k.isEqContainer || v.isEqContainer then throw (nested "Maps")
    pure (.map name table k v)
  | "UnstableFn" =>
    match args with
    | [inputs, _] =>
      let out ← ti.sortArgument "UnstableFn" args 1
      let names ← match inputs with
        | .call first rest => pure (Expr.var first :: rest)
        | .lit .unit => pure []
        | other => throw (.presortArgument "UnstableFn" other)
      let ins ← (List.range names.length).mapM fun i => ti.sortArgument "UnstableFn" names i
      pure (.func name table ins out)
    | _ => throw (.presortArgument "UnstableFn" (.call name args))
  | p => throw (.presortNotFound p)

/-- Declare a sort: a fresh eq sort, or an instance of a presort. -/
def declareSort (ti : TypeInfo) (name : String) (presort : Option (String × List Expr))
    (table : Nat) : Except TypeError (TypeInfo × SortInfo) := do
  if ti.funcTypes.contains name then throw (.functionAlreadyBound name)
  let s ← match presort with
    | none => pure (SortInfo.eq name)
    | some (p, args) => ti.makeSort name p args table
  let ti ← ti.addSort s
  pure (ti, s)

/-- Register the signature of a function declaration. -/
def declareFunction (ti : TypeInfo) (d : FunctionDecl) : Except TypeError (TypeInfo × FuncType) := do
  if ti.sorts.contains d.name then throw (.sortAlreadyBound d.name)
  if ti.isPrimitive d.name then throw (.primitiveAlreadyBound d.name)
  if ti.funcTypes.contains d.name then throw (.functionAlreadyBound d.name)
  let lookup (n : String) : Except TypeError SortInfo :=
    match ti.sort? n with
    | some s => .ok s
    | none => .error (.undefinedSort n)
  let ins ← d.inputs.mapM lookup
  let out ← lookup d.output
  if d.merge.isSome && out.isEq then throw (.mergeOnEqSort d.name)
  let ft : FuncType := ⟨d.name, ins, out⟩
  pure ({ ti with funcTypes := ti.funcTypes.insert d.name ft }, ft)

/-- Register a global: a nullary function of the given sort. -/
def declareGlobal (ti : TypeInfo) (name : String) (s : SortInfo) : Except TypeError (TypeInfo × FuncType) :=
  if ti.funcTypes.contains name || ti.isPrimitive name then .error (.alreadyDefined name)
  else
    let ft : FuncType := ⟨name, [], s⟩
    .ok ({ ti with funcTypes := ti.funcTypes.insert name ft, globals := ti.globals.insert name () }, ft)

/-- Forget a function's signature. -/
def removeFunction (ti : TypeInfo) (name : String) : TypeInfo :=
  { ti with funcTypes := ti.funcTypes.erase name }

end TypeInfo

end Saturate
