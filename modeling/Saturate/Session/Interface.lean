import Saturate.Session.Commands
import Saturate.Snapshot

/-!
Reading values back out of a session, and the parts of its interface that
act on the sort table or export the database.
-/

namespace Saturate

/-- How a value reads back: a primitive by its content, an e-class by its id,
a container or rational by its cheapest term when it has one, and a value of
an unknown sort by its bits. -/
inductive ValueView where
  | int (i : Int)
  | float (bits : UInt64)
  | bool (b : Bool)
  | unit
  | string (s : String)
  | eclass (sort : String) (id : UInt64)
  | term (sort : String) (text : Option String)
  | raw (sort : String) (bits : UInt64)
  deriving Repr, Inhabited

namespace Engine

/-- How a value reads back. -/
def view (v : Value) : Engine ValueView := do
  match (← db).types.sort? v.sort with
  | none => pure (.raw v.sort v.bits)
  | some .i64 => pure (.int v.toInt)
  | some .f64 => pure (.float v.bits)
  | some .bool => pure (.bool (v.bits != 0))
  | some .unit => pure .unit
  | some .string => pure (.string (← pool (PoolM.loadString v)))
  | some (.eq n) => pure (.eclass n v.bits)
  | some s =>
    let text ← try some <$> extractValueText v
      catch e => match e with
        | .error _ => pure none
        | other => throw other
    pure (.term s.name text)

/-- The sort and value of an expression, its names entered first. -/
def evaluate (e : Expr) : Engine (SortInfo × Value) := do
  enterNames e.names
  evalExpr e

/-- The value of a sort given by name with the given bits; the name is
entered first. -/
def rawValue (sort : String) (bits : UInt64) : Engine Value := do
  enterNames [sort]
  pure ⟨sort, bits⟩

/-- Whether facts hold, their names entered first. -/
def factsHold (facts : List Fact) : Engine Bool := do
  enterNames (Fact.namesOfList facts)
  holds facts

/-- Register a fresh eq sort. -/
def addEqSort (name : String) : Engine Unit := do
  enterNames [name]
  let ti ← typed ((← db).types.addSort (.eq name))
  modifyDb fun d => { d with types := ti }

/-- A snapshot of the database, with the classes of some expressions as roots. -/
def snapshot (maxFunctions maxCalls : Option Nat) (includeGlobals : Bool) (roots : List Expr) :
    Engine Snapshot := do
  enterNames (Expr.namesOfList roots)
  let rs ← roots.mapM evalExpr
  let d ← db
  pool (Snapshot.build d ⟨maxFunctions, maxCalls, includeGlobals, rs⟩)

end Engine

end Saturate
