import Saturate.Session.Rebuild

/-!
Queries over the current database: compiling a typed body against the
current table sizes, finding its matches, and checking facts. A check holds
when the facts have at least one match, subsumed rows included; facts that
equate two different literals never hold.
-/

namespace Saturate

namespace Engine

/-- Compile a typed body, ordering its variables by the current table sizes. -/
def compileQuery (body : List (Atom Call)) : Engine CompiledQuery := do
  let d ← db
  pool (CompiledQuery.compile d.sizeOf body)

/-- At most `limit` matches of a query, new since `lastRun` when it is nonzero. -/
def matchesOf (q : CompiledQuery) (lastRun : Nat) (includeSubsumed : Bool) (limit : Nat) :
    Engine (List (List Value)) := do
  let d ← db
  pool (q.run d.tableOf lastRun includeSubsumed limit)

/-- Fail with `checkFailed` unless the facts have a match. -/
def checkFacts (facts : List Fact) : Engine Unit := do
  let resolved ← match (← db).types.typecheckQuery facts with
    | .ok r => pure r
    | .error e => failType e
  let matched ← if resolved.unsat then pure false
    else do
      let q ← compileQuery resolved.body
      pure !(← matchesOf q 0 true 1).isEmpty
  if !matched then fail (.checkFailed facts)

/-- Whether the facts have a match; errors count as no match. -/
def holds (facts : List Fact) : Engine Bool := do
  try checkFacts facts; pure true
  catch e =>
    match e with
    | .error _ => pure false
    | other => throw other

end Engine

end Saturate
