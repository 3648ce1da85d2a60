import Std.Data.HashSet
import Saturate.Program
import Saturate.Table
import Saturate.Container

/-!
Declared functions: a signature, a merge policy, an optional default, and
the table of rows.

Two outputs written for the same inputs are combined by the merge policy:
outputs of an eq sort are unioned, a merge expression computes the new
output from `old` and `new`, and otherwise a second, different output is an
error.

`Func.rebuild` restores a function's rows after unions: every live row that
mentions an id that stopped being a root is written again in canonical form
(every row, when a column holds containers of e-classes). Rows that collide
are merged; merges that need their merge expression are handed back, to be
run once every function is rebuilt.
-/

namespace Saturate

/-- How two outputs for the same inputs are combined. -/
inductive Merge where
  | assertEq
  | union
  | program (p : Program)
  deriving Repr, Inhabited

/-- A declared function and its rows. -/
structure Func where
  decl : FunctionDecl
  inputs : List SortInfo
  output : SortInfo
  merge : Merge
  default : Option Program
  table : Table
  /-- Some column holds containers that may hold e-class ids. -/
  hasEqContainers : Bool
  deriving Inhabited

/-- A collision found while rebuilding whose merge expression is still to run. -/
structure Deferred where
  inputs : List Value
  old : Value
  new : Value
  deriving Repr, Inhabited

namespace TypeInfo

/-- Type an expression whose value must be of sort `output` and compile it. -/
def compileOutputExpr (ti : TypeInfo) (e : Expr) (binding : List (String × SortInfo))
    (output : SortInfo) : Except TypeError Program := do
  let typed ← ti.typecheckExpr e binding
  if typed.sort.name ≠ output.name then
    throw (.mismatch e output.name typed.sort.name)
  pure (Program.compileExpr (binding.map (·.1)) typed.rule.varTypes typed.rule.head typed.output)

end TypeInfo

namespace Func

/-- The name of a function. -/
def name (f : Func) : String := f.decl.name

/-- The sorts of the columns, inputs then output. -/
def columns (f : Func) : List SortInfo := f.inputs ++ [f.output]

/-- A function with no rows for a declaration of signature `ft`. -/
def make (ti : TypeInfo) (d : FunctionDecl) (ft : FuncType) : Except TypeError Func := do
  let merge ← if ft.output.isEq then pure Merge.union
    else match d.merge with
      | some e => Merge.program <$> ti.compileOutputExpr e [("old", ft.output), ("new", ft.output)] ft.output
      | none => pure Merge.assertEq
  let default ← match d.default with
    | some e => some <$> ti.compileOutputExpr e [] ft.output
    | none => pure none
  let cols := ft.inputs ++ [ft.output]
  pure ⟨d, ft.inputs, ft.output, merge, default, .empty, cols.any SortInfo.isEqContainer⟩

/-- The output of the row for some inputs. -/
def get? (f : Func) (inputs : List Value) : Option RowOutput := f.table.get? inputs

/-- Write an output for some inputs. -/
def put (f : Func) (inputs : List Value) (v : Value) (ts : Nat) : Func :=
  { f with table := f.table.put inputs v ts false }

/-- Remove the row for some inputs, dropping stale entries when they are the majority. -/
def remove (f : Func) (inputs : List Value) (ts : Nat) : Func :=
  let (t, removed) := f.table.remove inputs ts
  { f with table := if removed && t.tooStale then t.rehash else t }

/-- Mark the row for some inputs subsumed. -/
def subsume (f : Func) (inputs : List Value) (ts : Nat) : Func :=
  { f with table := (f.table.subsume inputs ts).1 }

/-- The number of live rows. -/
def numLive (f : Func) : Nat := f.table.numLive

/-- The offsets of the live rows with an eq-sorted column whose id stopped
being a root in the current rebuild round, in ascending order. -/
def dirtyOffsets (f : Func) (uf : UnionFind) : List Nat :=
  let marks : List (Option (Std.HashSet Nat)) := f.columns.map fun s =>
    if s.isEq then some (Std.HashSet.ofList (uf.dirtyIds s.name)) else none
  (f.table.rows true).filterMap fun (i, e) =>
    let vals := e.inputs ++ [e.output.value]
    let hit := (vals.zip marks).any fun (v, m) => match m with
      | some ids => ids.contains v.bits.toNat
      | none => false
    if hit then some i else none

end Func

/-- The state a rebuild of one function works on. -/
structure RebuildState where
  table : Table
  uf : UnionFind

/-- Computations of a rebuild, which keep their effects when they fail and
add to the pool; a fault of the pool ends the rebuild. -/
abbrev RebuildM := ExceptT Failure (StateT RebuildState PoolM)

namespace RebuildM

/-- Run a pool computation. -/
def pool {α : Type} (m : PoolM α) : RebuildM α := monadLift m

/-- Union two e-classes of a sort; the result carries the first value's sort
name. The union-find is taken out while it changes. -/
def union (a b : Value) (sort : String) : RebuildM Value := do
  let uf ← modifyGet fun s => (s.uf, { s with uf := .empty })
  match uf.union a.id b.id sort with
  | .ok (uf, r) => modify (fun s => { s with uf := uf }); pure (Value.ofId a.sort r)
  | .error id => throw (.fault ("find on unknown id id" ++ toString id))

end RebuildM

namespace Func

/-- The canonical forms of the values of a row, with whether any changed. -/
def canonicalRow (f : Func) (e : Entry) : RebuildM (List Value × Value × Bool) := do
  let uf := (← get).uf
  let ins ← RebuildM.pool ((e.inputs.zip f.inputs).mapM fun (v, s) => s.canonicalize uf v)
  let (out, outChanged) ← RebuildM.pool (f.output.canonicalize uf e.output.value)
  pure (ins.map (·.1), out, ins.any (·.2) || outChanged)

/-- Write a rebuilt row back, merging it into a row with the same inputs. -/
def mergeRow (f : Func) (ts : Nat) (inputs : List Value) (out : Value) (subsumed : Bool)
    (deferred : List Deferred) : RebuildM (List Deferred) := do
  let write (v : Value) : RebuildM Unit :=
    modify fun s => { s with table := s.table.put inputs v ts subsumed }
  match (← get).table.get? inputs with
  | none => write out; pure deferred
  | some prev =>
    if prev.value = out then write prev.value; pure deferred
    else match f.merge with
      | .union =>
        let r ← RebuildM.union prev.value out f.output.name
        write r; pure deferred
      | .assertEq =>
        write prev.value
        throw (.error (.mergeConflict f.name prev.value out))
      | .program _ =>
        write prev.value
        pure (⟨inputs, prev.value, out⟩ :: deferred)

/-- Rebuild the rows of one function; the merges still to run come back in the
order they were found. -/
def rebuild (f : Func) (ts : Nat) : RebuildM (Nat × List Deferred) := do
  if !(← get).uf.hasRecent then return (0, [])
  modify fun s => { s with table := if s.table.tooStale then s.table.rehash else s.table }
  let st ← get
  let offsets :=
    if f.hasEqContainers then List.range st.table.size
    else { f with table := st.table }.dirtyOffsets st.uf
  let step (acc : Nat × List Deferred) (i : Nat) : RebuildM (Nat × List Deferred) := do
    let (n, ds) := acc
    match (← get).table.entry? i with
    | none => pure (n, ds)
    | some e =>
      let (ins, out, changed) ← f.canonicalRow e
      if !changed then pure (n, ds)
      else
        modify fun s => { s with table := (s.table.remove e.inputs ts).1 }
        let ds ← f.mergeRow ts ins out e.output.subsumed ds
        pure (n + 1, ds)
  let (updates, deferred) ← offsets.foldlM step (0, [])
  modify fun s => { s with table := if s.table.tooStale then s.table.rehash else s.table }
  pure (updates, deferred.reverse)

end Func

end Saturate
