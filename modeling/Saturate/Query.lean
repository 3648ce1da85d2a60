import Std.Data.HashMap
import Saturate.Func

/-!
Conjunctive queries over function tables, evaluated by generic join.

A query is compiled to a program over one tuple of variables: the variables
of its table atoms come first, ordered by how many atoms mention them (most
first) and then by the size of the smallest of those tables; the outputs of
primitives that nothing else binds follow. The program binds the table
variables one by one (`intersect`), and runs each primitive (`call`) as soon
as its inputs are bound; a call either binds its output or checks it.

Each table atom contributes the rows that match its literals and repeated
variables, projected onto its variables in tuple order. Binding a variable
intersects the values that the atoms mentioning it still allow, so a match
is an assignment that every atom has a row for.

Semi-naive evaluation runs one pass per table atom `i` in which atom `i` only
sees rows written since the rule last ran, the atoms before it only older
rows, and the atoms after it all rows; every new match is found in exactly
one pass. A query without table atoms matches once, on its first run.
-/

namespace Saturate

/-- A table atom of a query. -/
structure TableAtom where
  func : String
  args : List AtomTerm
  deriving Repr, Inhabited

/-- The variables of a table atom, in order, with repeats. -/
def TableAtom.vars (a : TableAtom) : List String := a.args.filterMap AtomTerm.var?

/-- An argument of a call: a slot of the tuple or a constant. -/
inductive Arg where
  | slot (i : Nat)
  | const (v : Value)
  deriving Repr, Inhabited

/-- The steps of a join program. -/
inductive JoinStep where
  /-- Bind slot `idx` to each value that all of `atoms` allow. -/
  | intersect (idx : Nat) (atoms : List Nat)
  /-- Apply a primitive; bind its output or, with `check`, compare it. -/
  | call (p : Prim) (args : List Arg) (out : Arg) (check : Bool)
  deriving Repr, Inhabited

/-- A compiled query. -/
structure CompiledQuery where
  atoms : List TableAtom
  /-- The variables of the tuple, in slot order. -/
  vars : List String
  program : List JoinStep
  deriving Repr, Inhabited

namespace CompiledQuery

/-- The table variables with the atoms that mention them, in order of first appearance. -/
def occurrences (atoms : List TableAtom) : List (String × List Nat) :=
  let add (acc : List (String × List Nat)) (v : String) (i : Nat) :=
    if acc.any (·.1 == v) then
      acc.map fun (w, is) => if w == v then (w, if is.getLast? == some i then is else is ++ [i]) else (w, is)
    else acc ++ [(v, [i])]
  atoms.zipIdx.foldl (fun acc (a, i) => a.vars.foldl (fun acc v => add acc v i) acc) []

/-- Order table variables: more atoms first, then the smaller smallest table. -/
def orderVars (size : String → Nat) (atoms : List TableAtom) (occ : List (String × List Nat)) :
    List (String × List Nat) :=
  let relSize (is : List Nat) : Nat :=
    (is.map fun i => size ((atoms[i]?.map (·.func)).getD "")).min?.getD 0
  occ.mergeSort fun (_, a) (_, b) =>
    a.length > b.length || (a.length == b.length && relSize a ≤ relSize b)

/-- Whether a variable is bound once `nBound` table variables are. -/
def isBound (vars : List String) (nTable nBound : Nat) (v : String) : Bool :=
  match vars.idxOf? v with
  | some i => i ≥ nTable || i < nBound
  | none => false

/-- Whether a primitive atom can run once `nBound` table variables are bound. -/
def ready (vars : List String) (nTable nBound : Nat) (args : List AtomTerm) : Bool :=
  match args.getLast? with
  | none => false
  | some out =>
    let inputsReady := args.dropLast.all fun t => match t with
      | .var v => isBound vars nTable nBound v
      | .lit _ => true
    let outReady := match out with
      | .var v => if vars.contains v then isBound vars nTable nBound v else true
      | .lit _ => true
    inputsReady && outReady

/-- The argument of a term in a call. -/
def argOf (vars : List String) : AtomTerm → PoolM Arg
  | .var v => pure (.slot ((vars.idxOf? v).getD 0))
  | .lit l => Arg.const <$> l.toValue

/-- Schedule the ready primitives, each as early as possible, then bind the
next table variable, until all are bound. Each round either removes a
primitive or binds a variable, which bounds the rounds. -/
def schedule (nTable : Nat) (occ : List (List Nat)) :
    Nat → List String → List (Prim × List AtomTerm) → Nat → Array JoinStep →
      PoolM (List String × Array JoinStep)
  | 0, vars, _, _, prog => pure (vars, prog)
  | fuel + 1, vars, extra, nBound, prog => do
    match extra.findIdx? (fun (_, args) => ready vars nTable nBound args) with
    | some i =>
      let (p, args) := extra[i]?.getD (.notEqual, [])
      let extra := extra.eraseIdx i
      let out := args.getLast?.getD (.lit .unit)
      let ins ← args.dropLast.mapM (argOf vars)
      let (vars, check) := match out with
        | .var v => if vars.contains v then (vars, true) else (vars ++ [v], false)
        | .lit _ => (vars, true)
      let outArg ← argOf vars out
      schedule nTable occ fuel vars extra nBound (prog.push (.call p ins outArg check))
    | none =>
      if nBound = nTable then pure (vars, prog)
      else
        schedule nTable occ fuel vars extra (nBound + 1)
          (prog.push (.intersect nBound (occ[nBound]?.getD [])))

/-- The table atoms of a resolved body, in order. -/
def tableAtoms (body : List (Atom Call)) : List TableAtom :=
  body.filterMap fun a => match a.head with
    | .func f => some ⟨f.name, a.args⟩
    | .prim _ _ => none

/-- The primitive atoms of a resolved body, in order. -/
def primAtoms (body : List (Atom Call)) : List (Prim × List AtomTerm) :=
  body.filterMap fun a => match a.head with
    | .prim p _ => some (p, a.args)
    | .func _ => none

/-- Compile the atoms of a resolved body; `size` gives the live rows of a function. -/
def compile (size : String → Nat) (body : List (Atom Call)) : PoolM CompiledQuery := do
  let atoms := tableAtoms body
  let extra := primAtoms body
  let ordered := orderVars size atoms (occurrences atoms)
  let nTable := ordered.length
  let fuel := (nTable + 1) * (extra.length + 1) + 1
  let (vars, prog) ← schedule nTable (ordered.map (·.2)) fuel (ordered.map (·.1)) extra 0 #[]
  pure ⟨atoms, vars, prog.toList⟩

end CompiledQuery

/-- What an atom asks of a row: positions holding a constant, and positions
that must repeat an earlier one. -/
inductive RowTest where
  | const (i : Nat) (v : Value)
  | same (j i : Nat)
  deriving Repr, Inhabited

namespace TableAtom

/-- The tests of an atom, interning its string literals. -/
def tests (a : TableAtom) : PoolM (List RowTest) :=
  a.args.zipIdx.filterMapM fun (t, i) => match t with
    | .lit l => (some ∘ RowTest.const i) <$> l.toValue
    | .var _ =>
      match (a.args.take i).idxOf? t with
      | some j => pure (some (.same j i))
      | none => pure none

/-- The positions of the atom's variables in tuple order. -/
def projection (a : TableAtom) (vars : List String) : List Nat :=
  vars.filterMap fun v => a.args.idxOf? (.var v)

/-- The projected rows of an atom that pass its tests. -/
def select (a : TableAtom) (vars : List String) (tests : List RowTest)
    (rows : List (Nat × Entry)) : List (List Value) :=
  let proj := a.projection vars
  rows.filterMap fun (_, e) =>
    let tuple := e.inputs ++ [e.output.value]
    let ok := tests.all fun t => match t with
      | .const i v => tuple[i]? == some v
      | .same j i => tuple[j]? == tuple[i]?
    if ok then some (proj.filterMap (tuple[·]?)) else none

end TableAtom

/-- The values at the head of an atom's remaining tuples, in order of first
appearance, each with the tails that follow it. -/
def groupHeads (tuples : List (List Value)) : Array (Value × Array (List Value)) × Std.HashMap Value Nat :=
  tuples.foldl (fun (groups, index) t => match t with
    | v :: rest =>
      match index.get? v with
      | some i => (groups.modify i fun (w, ts) => (w, ts.push rest), index)
      | none =>
        let n := groups.size
        (groups.push (v, #[rest]), index.insert v n)
    | [] => (groups, index)) (#[], {})

/-- The matches found so far and how many are wanted. -/
structure Found where
  tuples : Array (List Value)
  limit : Nat

/-- Whether enough matches were found. -/
def Found.full (f : Found) : Bool := f.tuples.size ≥ f.limit

namespace JoinStep

/-- The value of a call argument. -/
def argValue (tuple : Array Value) : Arg → Value
  | .slot i => tuple[i]?.getD .placeholder
  | .const v => v

/-- Run a join program from a partial tuple; `nodes` holds, per table atom,
its remaining projected tuples consistent with the slots bound so far. -/
def search : List JoinStep → Array Value → Array (List (List Value)) → Found → PoolM Found
  | [], tuple, _, found => pure { found with tuples := found.tuples.push tuple.toList }
  | .intersect idx js :: rest, tuple, nodes, found => do
    let groups := js.map fun j => (j, groupHeads (nodes[j]?.getD []))
    match groups.head? with
    | none => pure found
    | some first =>
      let smallest := groups.foldl (fun best g =>
        if g.2.1.size < best.2.1.size then g else best) first
      let candidates := smallest.2.1.toList.map (·.1) |>.filter fun v =>
        groups.all fun g => g.2.2.contains v
      let descend (found : Found) (v : Value) : PoolM Found := do
        if found.full then pure found
        else
          let nodes' := groups.foldl (fun ns (j, gs, index) =>
            match index.get? v with
            | some i => ns.set! j ((gs[i]?.map (·.2.toList)).getD [])
            | none => ns.set! j []) nodes
          search rest (tuple.set! idx v) nodes' found
      candidates.foldlM descend found
  | .call p args out check :: rest, tuple, nodes, found => do
    let values := args.map (argValue tuple)
    match ← p.applyPure values with
    | none => pure found
    | some r =>
      match out with
      | .slot i =>
        if check && tuple[i]? != some r then pure found
        else search rest (tuple.set! i r) nodes found
      | .const v => if v != r then pure found else search rest tuple nodes found

end JoinStep

namespace CompiledQuery

/-- Add to the nodes picked so far the selection of the next atom, reading the
rows of its table written in a range of timestamps; once some atom selects
nothing there is nothing to search. -/
def pick (q : CompiledQuery) (table : String → Table) (includeSubsumed : Bool)
    (acc : Option (Array (List (List Value)))) (x : TableAtom × Nat × Option Nat) :
    PoolM (Option (Array (List (List Value)))) := do
  match acc with
  | none => pure none
  | some nodes =>
    let (a, lo, hi) := x
    let tests ← a.tests
    let sel := a.select q.vars tests ((table a.func).rowsBetween lo hi includeSubsumed)
    if sel.isEmpty then pure none else pure (some (nodes.push sel))

/-- The matches of one pass, where atom `i` sees the rows of `ranges[i]`: a
lower timestamp bound and an optional upper one. -/
def pass (q : CompiledQuery) (table : String → Table) (ranges : List (Nat × Option Nat))
    (includeSubsumed : Bool) (found : Found) : PoolM Found := do
  match ← (q.atoms.zip ranges).foldlM (q.pick table includeSubsumed) (some #[]) with
  | none => pure found
  | some nodes =>
    JoinStep.search q.program (Array.replicate q.vars.length .placeholder) nodes found

/-- The matches of a query, at most `limit` of them, as tuples in slot order.
With `lastRun` nonzero only matches that use a row written at `lastRun` or
later are found. -/
def run (q : CompiledQuery) (table : String → Table) (lastRun : Nat) (includeSubsumed : Bool)
    (limit : Nat) : PoolM (List (List Value)) := do
  let start : Found := ⟨#[], limit⟩
  let n := q.atoms.length
  if n = 0 then
    if lastRun = 0 then
      return (← JoinStep.search q.program (Array.replicate q.vars.length .placeholder) #[] start).tuples.toList
    else return []
  if lastRun = 0 then
    return (← q.pass table (List.replicate n (0, none)) includeSubsumed start).tuples.toList
  let onePass (found : Found) (i : Nat) : PoolM Found := do
    if found.full then return found
    let a := (q.atoms[i]?.map (·.func)).getD ""
    if !(table a).touchedSince lastRun then return found
    let ranges := (List.range n).map fun j =>
      if j < i then (0, some lastRun) else if j = i then (lastRun, none) else (0, none)
    q.pass table ranges includeSubsumed found
  return (← (List.range n).foldlM onePass start).tuples.toList

end CompiledQuery

end Saturate
