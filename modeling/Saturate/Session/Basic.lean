import Saturate.Query
import Saturate.Report
import Saturate.TermDag

/-!
The state of a session and the computations over it.

A `Database` is what a failed command rolls back: the union-find, the
functions and their rows in declaration order, the rulesets, when each rule
last ran, the clock, the options and the sorts and signatures. A `Session`
holds the current database, the databases saved by `push`, and what
outlives a rollback: the intern pool, the queued messages and the reports.

Computations are `Engine` values, which keep the state they reached when
they fail; rolling back is the business of the command layer.
-/

namespace Saturate

/-- A rule ready to run: its query, its actions, and whether its body equates
two different literals. -/
structure CompiledRule where
  query : CompiledQuery
  program : Program
  unsat : Bool
  deriving Inhabited

/-- A ruleset: named rules in the order they were added, or the union of other rulesets. -/
inductive Ruleset where
  | rules (rs : List (String × CompiledRule))
  | combined (names : List String)
  deriving Inhabited

/-- The largest machine word, the default of the limits. -/
def wordMax : Nat := Nat.pow 2 64 - 1

/-- Options of a session. -/
structure Options where
  /-- Matches of one rule kept per iteration. -/
  matchLimit : Nat
  /-- Rows past which a run stops. -/
  nodeLimit : Nat
  /-- Iterations of one saturation. -/
  iterationLimit : Nat
  /-- Search only for matches that use a row new since the rule last ran. -/
  seminaive : Bool
  deriving Repr, Inhabited

/-- The options of a fresh session. -/
def Options.initial : Options := ⟨wordMax, wordMax, 10000, true⟩

/-- What a failed command rolls back. -/
structure Database where
  unionFind : UnionFind
  funcs : Array Func
  funcIndex : Std.HashMap String Nat
  rulesets : List (String × Ruleset)
  lastRun : Std.HashMap String Nat
  timestamp : Nat
  options : Options
  types : TypeInfo
  deriving Inhabited

/-- The database of a fresh session: no functions and the empty default ruleset. -/
def Database.initial : Database :=
  ⟨.empty, #[], {}, [("", .rules [])], {}, 0, .initial, TypeInfo.fresh⟩

/-- The result of the last extraction command. -/
inductive ExtractReport where
  | best (cost : Nat) (term : String)
  | variants (terms : List String)
  deriving Repr, Inhabited

/-- A session. -/
structure Session where
  db : Database
  /-- Databases saved by `push`, the most recent first. -/
  scopes : List Database
  pool : Pool
  messages : Array String
  extractReport : Option ExtractReport
  lastReport : Option RunReport
  overall : RunReport
  deriving Inhabited

/-- A fresh session. -/
def Session.initial : Session := ⟨.initial, [], {}, #[], none, none, .empty⟩

/-- Computations over a session that may fail, keeping the state they reached. -/
abbrev Engine := ExceptT Failure (StateM Session)

namespace Engine

/-- Fail with an error of the engine. -/
def fail {α : Type} (e : Error) : Engine α := throw (.error e)

/-- Fail with a type error. -/
def failType {α : Type} (e : TypeError) : Engine α := throw (.error (.type e))

/-- Run a pool computation on the session's pool. The pool is taken out of
the session while it runs, so that it is extended in place; a fault, which
ends the session, leaves it empty. -/
def pool {α : Type} (m : PoolM α) : Engine α := do
  let p ← modifyGet fun s => (s.pool, { s with pool := {} })
  match m.run p with
  | .ok (a, p) => modify (fun s => { s with pool := p }); pure a
  | .error msg => throw (.fault msg)

/-- Enter names in the session's table of names, in order, as reading a
command or a request does before it runs. -/
def enterNames (xs : List String) : Engine Unit := pool (PoolM.enterNames xs)

/-- Change the database. -/
def modifyDb (f : Database → Database) : Engine Unit := modify fun s => { s with db := f s.db }

/-- The database. -/
def db : Engine Database := do pure (← get).db

/-- Queue a message. -/
def say (msg : String) : Engine Unit := modify fun s => { s with messages := s.messages.push msg }

end Engine

namespace Database

/-- The function of a name. -/
def func? (db : Database) (name : String) : Option Func := do
  let i ← db.funcIndex.get? name
  db.funcs[i]?

/-- The table of a function, empty for an unknown name. -/
def tableOf (db : Database) (name : String) : Table := ((db.func? name).map (·.table)).getD .empty

/-- The number of live rows of a function, zero for an unknown name. -/
def sizeOf (db : Database) (name : String) : Nat := ((db.func? name).map Func.numLive).getD 0

/-- Change the function of a name. -/
def modifyFunc (db : Database) (name : String) (f : Func → Func) : Database :=
  match db.funcIndex.get? name with
  | some i => { db with funcs := db.funcs.modify i f }
  | none => db

/-- Add a function, or replace the one of the same name in its place. -/
def addFunc (db : Database) (f : Func) : Database :=
  match db.funcIndex.get? f.name with
  | some i => { db with funcs := db.funcs.set! i f }
  | none =>
    let n := db.funcs.size
    { db with funcs := db.funcs.push f, funcIndex := db.funcIndex.insert f.name n }

/-- The live rows of the database. -/
def numTuples (db : Database) : Nat := db.funcs.foldl (fun n f => n + f.numLive) 0

/-- The ruleset of a name. -/
def ruleset? (db : Database) (name : String) : Option Ruleset := db.rulesets.lookup name

end Database

namespace Engine

/-- The function of a name; an unknown name is an unbound function. -/
def func (name : String) : Engine Func := do
  match (← db).func? name with
  | some f => pure f
  | none => failType (.unboundFunction name)

/-- Change the function of a name. -/
def modifyFunc (name : String) (f : Func → Func) : Engine Unit := modifyDb (·.modifyFunc name f)

/-- The canonical form of a value of a sort. -/
def canonical (s : SortInfo) (v : Value) : Engine Value := do
  let uf := (← db).unionFind
  pure (← pool (s.canonicalize uf v)).1

/-- The canonical form of a value under the sort its name gives; values of an
unknown sort stay as they are. -/
def find (v : Value) : Engine Value := do
  match (← db).types.sort? v.sort with
  | some s => canonical s v
  | none => pure v

/-- Change the union-find, with a result. The union-find is taken out of the
session while `f` runs, so that it is changed in place; a fault, which ends
the session, leaves it empty. -/
def withUnionFind {α : Type} (f : UnionFind → Except Failure (UnionFind × α)) : Engine α := do
  let uf ← modifyGet fun s => (s.db.unionFind, { s with db := { s.db with unionFind := .empty } })
  match f uf with
  | .ok (uf, a) => modifyDb (fun d => { d with unionFind := uf }); pure a
  | .error e => throw e

/-- Union two e-classes of a sort name; the result carries the first value's sort name. -/
def unionValues (a b : Value) (sort : String) : Engine Value :=
  withUnionFind fun uf =>
    match uf.union a.id b.id sort with
    | .ok (uf, r) => .ok (uf, Value.ofId a.sort r)
    | .error id => .error (.fault ("find on unknown id id" ++ toString id))

/-- A fresh e-class of a sort. -/
def makeClass (sort : String) : Engine Value :=
  withUnionFind fun uf =>
    let (uf, id) := uf.makeSet
    .ok (uf, Value.ofId sort id)

end Engine

end Saturate
