import Saturate.Session.Basic

/-!
Extraction: the cheapest term of every e-class.

A term's cost adds up along the tree: an application of a function costs
the function's declared cost (1 by default) plus its children, a container
costs 1 plus its elements, and any other primitive value costs 1. Only
extractable functions whose output is an e-class build terms, and only
their rows that are not subsumed.

`Extractor.build` finds the cost of every class by Bellman-Ford: it passes
over the rows in declaration and row order, giving a class a row when the
class has none yet or the row is strictly cheaper than its best, until a
pass changes nothing. Costs only decrease, so each best row's children have
their best terms built from earlier choices, and following best rows never
returns to a class.

`Extractor.all` extracts every class that some row mentions at once, with
the sum of the tree costs, a cost that counts every chosen row once and
every primitive leaf once, and whether some class with two cheapest rows
lies on a cycle, where another choice could change other classes' costs.
-/

namespace Saturate

/-- The cheapest known row of a class. -/
structure Best where
  cost : Nat
  func : String
  inputs : List Value
  deriving Repr, Inhabited

/-- Addition that stops at the largest machine word. -/
def addCost (a b : Nat) : Nat := min (a + b) wordMax

/-- The best rows of the classes of a database. -/
structure Extractor where
  costs : Std.HashMap Value Best
  ctors : List Func

namespace Extractor

/-- The canonical form of a value under the sort its name gives. -/
def findIn (d : Database) (v : Value) : PoolM Value :=
  match d.types.sort? v.sort with
  | some s => do pure (← s.canonicalize d.unionFind v).1
  | none => pure v

/-- The cost of a value of a sort, looking at most `fuel` containers deep. -/
def valueCostWithin (d : Database) (costs : Std.HashMap Value Best) :
    Nat → SortInfo → Value → PoolM (Option Nat)
  | 0, _, _ => pure none
  | fuel + 1, s, v => do
    if s.isEq then
      pure ((costs.get? (← findIn d v)).map (·.cost))
    else if s.isContainer then
      let inner ← s.innerValues v
      let cs ← inner.mapM fun (s', v') => valueCostWithin d costs fuel s' v'
      pure (cs.foldlM (fun acc c => c.map (addCost acc)) 1)
    else pure (some 1)

/-- The cost of a value of a sort. -/
def valueCost (d : Database) (costs : Std.HashMap Value Best) (s : SortInfo) (v : Value) :
    PoolM (Option Nat) := do
  valueCostWithin d costs ((← read).itemCount + 2) s v

/-- The cost of a row of a function. -/
def rowCost (d : Database) (costs : Std.HashMap Value Best) (f : Func) (inputs : List Value) :
    PoolM (Option Nat) := do
  let cs ← (inputs.zip f.inputs).mapM fun (v, s) => valueCost d costs s v
  pure (cs.foldlM (fun acc c => c.map (addCost acc)) (f.decl.cost.getD 1))

/-- One pass over the rows; whether some class got a cheaper row. -/
def improve (d : Database) (ctors : List Func) (costs : Std.HashMap Value Best) :
    PoolM (Std.HashMap Value Best × Bool) :=
  ctors.foldlM (fun acc f => (f.table.rows false).foldlM (fun (costs, changed) (_, e) => do
    match ← rowCost d costs f e.inputs with
    | none => pure (costs, changed)
    | some c =>
      let id ← findIn d e.output.value
      let better := match costs.get? id with
        | none => true
        | some old => c < old.cost
      if better then
        let inputs ← e.inputs.mapM (findIn d)
        pure (costs.insert id ⟨c, f.name, inputs⟩, true)
      else pure (costs, changed)) acc) (costs, false)

/-- Passes until one changes nothing, at most `fuel` of them. -/
def settle (d : Database) (ctors : List Func) : Nat → Std.HashMap Value Best → PoolM (Std.HashMap Value Best)
  | 0, costs => pure costs
  | fuel + 1, costs => do
    let (costs, changed) ← improve d ctors costs
    if changed then settle d ctors fuel costs else pure costs

/-- The best rows of a database. A pass that changes something lowers the
cost of a class to its least one for trees one level higher; trees need
no more levels than there are classes, which are no more than the rows. -/
def build (d : Database) : PoolM Extractor := do
  let ctors := d.funcs.toList.filter fun f => !f.decl.unextractable && f.output.isEq
  let rows := ctors.foldl (fun n f => n + f.numLive) 0
  pure ⟨← settle d ctors (rows + 2) {}, ctors⟩

/-- The term of a value of a sort, following at most `fuel` best rows and
containers down, with the dag it was added to. It is `none` when some class
below has no term; the dag then keeps the subterms added before. -/
def termWithin (x : Extractor) (d : Database) :
    Nat → SortInfo → Value → TermDag → PoolM (TermDag × Option Nat)
  | 0, _, _, dag => pure (dag, none)
  | fuel + 1, s, v, dag => do
    let children (items : List (SortInfo × Value)) (dag : TermDag) :
        PoolM (TermDag × Option (List Nat)) :=
      items.foldlM (fun acc (s', v') => do
        match acc with
        | (dag, none) => pure (dag, none)
        | (dag, some ids) =>
          let (dag, r) ← x.termWithin d fuel s' v' dag
          pure (dag, r.map (ids ++ [·]))) (dag, some [])
    let app (head : String) (pre : List Nat) : TermDag × Option (List Nat) → TermDag × Option Nat
      | (dag, some ids) => let (dag, t) := dag.app head (pre ++ ids); (dag, some t)
      | (dag, none) => (dag, none)
    let lit (l : Literal) : TermDag × Option Nat := let (dag, t) := dag.lit l; (dag, some t)
    match s with
    | .eq _ =>
      match x.costs.get? (← findIn d v) with
      | none => pure (dag, none)
      | some b =>
        match d.func? b.func with
        | none => pure (dag, none)
        | some f => pure (app b.func [] (← children (f.inputs.zip b.inputs) dag))
    | .unit => pure (lit .unit)
    | .string => pure (lit (.string (← PoolM.loadString v)))
    | .bool => pure (lit (.bool (v.bits > 0)))
    | .i64 => pure (lit (.int v.toInt))
    | .f64 => pure (lit (.float v.bits))
    | .rational =>
      let r ← PoolM.loadRat v
      if !fitsInt64 r.num then pure (dag, none)
      else
        let (dag, n) := dag.lit (.int r.num)
        if !fitsInt64 r.den then pure (dag, none)
        else
          let (dag, m) := dag.lit (.int r.den)
          pure (app "rational" [] (dag, some [n, m]))
    | .set _ t e =>
      match ← PoolM.load t v with
      | .set [] => pure (app "set-empty" [] (dag, some []))
      | .set xs => pure (app "set-of" [] (← children (xs.map (e, ·)) dag))
      | _ => throw PoolM.missing
    | .vec _ t e =>
      match ← PoolM.load t v with
      | .vec [] => pure (app "vec-empty" [] (dag, some []))
      | .vec xs => pure (app "vec-of" [] (← children (xs.map (e, ·)) dag))
      | _ => throw PoolM.missing
    | .map _ t k w =>
      match ← PoolM.load t v with
      | .map xs =>
        let (dag, empty) := dag.app "map-empty" []
        xs.foldlM (fun acc (a, b) => do
          match acc with
          | (dag, none) => pure (dag, none)
          | (dag, some term) => pure (app "map-insert" [term] (← children [(k, a), (w, b)] dag)))
          (dag, some empty)
      | _ => throw PoolM.missing
    | .func _ t _ _ =>
      match ← PoolM.load t v with
      | .partialApp name args =>
        let sorts := (← read).argSorts t v.bits
        let (dag, nameId) := dag.lit (.string name)
        pure (app "unstable-fn" [nameId] (← children (sorts.zip args) dag))
      | _ => throw PoolM.missing

/-- A bound on how deep terms go: classes along best rows, and containers
between them. -/
def fuelFor (x : Extractor) : PoolM Nat := do
  pure ((x.costs.size + 1) * ((← read).itemCount + 2))

/-- The term of a value of a sort. -/
def term? (x : Extractor) (d : Database) (s : SortInfo) (v : Value) (dag : TermDag) :
    PoolM (TermDag × Option Nat) := do
  x.termWithin d (← x.fuelFor) s v dag

/-- The term of a row: the function applied to the terms of its inputs. -/
def rowTerm? (x : Extractor) (d : Database) (f : Func) (inputs : List Value) (dag : TermDag) :
    PoolM (TermDag × Option Nat) := do
  let fuel ← x.fuelFor
  let step (acc : TermDag × Option (List Nat)) (item : SortInfo × Value) :
      PoolM (TermDag × Option (List Nat)) := do
    match acc with
    | (dag, none) => pure (dag, none)
    | (dag, some ids) =>
      let (dag, r) ← x.termWithin d fuel item.1 item.2 dag
      pure (dag, r.map (ids ++ [·]))
  match ← (f.inputs.zip inputs).foldlM step (dag, some []) with
  | (dag, some ids) => let (dag, t) := dag.app f.name ids; pure (dag, some t)
  | (dag, none) => pure (dag, none)

/-- The cheapest term of a value with its cost, `none` when it has none. -/
def best? (x : Extractor) (d : Database) (s : SortInfo) (v : Value) (dag : TermDag) :
    PoolM (TermDag × Option (Nat × Nat)) := do
  match ← valueCost d x.costs s v with
  | none => pure (dag, none)
  | some c =>
    let (dag, t) ← x.term? d s v dag
    pure (dag, t.map (c, ·))

/-- Up to `limit` terms of the class of a value, one per row of an
extractable function of its sort that is not subsumed, each with the
cheapest terms of its inputs. -/
def variants (x : Extractor) (d : Database) (s : SortInfo) (v : Value) (limit : Nat) (dag : TermDag) :
    PoolM (TermDag × List Nat) := do
  let target ← findIn d v
  let mut dag := dag
  let mut terms : Array Nat := #[]
  for f in x.ctors do
    if f.output.name ≠ s.name then continue
    for (_, e) in f.table.rows false do
      if (← findIn d e.output.value) ≠ target then continue
      let (dag', t) ← x.rowTerm? d f e.inputs dag
      dag := dag'
      if let some t := t then terms := terms.push t
  pure (dag, (terms.toList.take limit))

/-- The cost of the chosen rows with every row counted once and every
primitive input value counted once. -/
def dagCost (x : Extractor) (d : Database) : PoolM Nat := do
  let mut leaves : Std.HashMap Value Unit := {}
  let mut cost := 0
  for (_, b) in x.costs.toList do
    match d.func? b.func with
    | none => pure ()
    | some f =>
      cost := addCost cost (f.decl.cost.getD 1)
      for (v, s) in b.inputs.zip f.inputs do
        if s.isEq || leaves.contains v then continue
        leaves := leaves.insert v ()
        cost := addCost cost 1
  pure cost

/-- The classes reachable from a class through the inputs of rows, at most `fuel` steps. -/
def reaches (children : Std.HashMap Value (List Value)) (target : Value) :
    Nat → List Value → Std.HashSet Value → Bool
  | 0, _, _ => false
  | fuel + 1, stack, seen =>
    match stack with
    | [] => false
    | next :: rest =>
      if next = target then true
      else if seen.contains next then reaches children target fuel rest seen
      else reaches children target fuel ((children.getD next []) ++ rest) (seen.insert next)

/-- Whether some class with two cheapest rows is reachable from its own inputs. -/
def tieOnCycle (x : Extractor) (d : Database) : PoolM Bool := do
  let mut children : Std.HashMap Value (List Value) := {}
  let mut tied : Std.HashMap Value Nat := {}
  let mut order : Array Value := #[]
  let mut edges := 0
  for f in x.ctors do
    for (_, e) in f.table.rows false do
      let cls ← findIn d e.output.value
      if !children.contains cls then order := order.push cls
      let mut kids := children.getD cls []
      for (v, s) in e.inputs.zip f.inputs do
        if s.isEq then
          kids := (← findIn d v) :: kids
          edges := edges + 1
      children := children.insert cls kids
      match x.costs.get? cls, ← rowCost d x.costs f e.inputs with
      | some b, some c => if c = b.cost then tied := tied.insert cls (tied.getD cls 0 + 1)
      | _, _ => pure ()
  let fuel := order.size + edges + 2
  pure (tied.toList.any fun (cls, n) => n > 1 && reaches children cls fuel (children.getD cls []) {})

end Extractor

/-- The result of extracting every class at once. -/
structure GlobalExtraction where
  dag : TermDag
  best : List (Value × Nat × Nat)
  unextractable : List Value
  treeCost : Nat
  dagCost : Nat
  exact : Bool

namespace Extractor

/-- Extract every class that a row mentions in an eq-sorted column. -/
def all (d : Database) : PoolM GlobalExtraction := do
  let x ← build d
  let mut classes : Array Value := #[]
  let mut known : Std.HashMap Value Unit := {}
  for f in d.funcs do
    for (_, e) in f.table.rows true do
      for (v, s) in (e.inputs ++ [e.output.value]).zip f.columns do
        if s.isEq then
          let c ← findIn d v
          if !known.contains c then
            known := known.insert c ()
            classes := classes.push c
  let mut dag := TermDag.empty
  let mut best : Array (Value × Nat × Nat) := #[]
  let mut unextractable : Array Value := #[]
  let mut treeCost := 0
  for c in classes do
    match x.costs.get? c with
    | none => unextractable := unextractable.push c
    | some b =>
      let (dag', t) ← x.term? d (.eq c.sort) c dag
      dag := dag'
      match t with
      | some t =>
        treeCost := addCost treeCost b.cost
        best := best.push (c, b.cost, t)
      | none => unextractable := unextractable.push c
  let dagCost ← x.dagCost d
  let tie ← x.tieOnCycle d
  pure ⟨dag, best.toList, unextractable.toList, treeCost, dagCost, !tie⟩

end Extractor

end Saturate
