import Saturate.Extract

/-!
Snapshots: the database as a graph of e-classes and nodes, for export.

Every row becomes a node named `function-<offset>-<name>` in the class of
its output, with the function's cost. A value of a primitive or container
sort becomes its own class `<sort>-<bits>` with one node
`primitive-<class>`, whose children are a container's elements. An edge to
an e-class points at one of the class's nodes, taking them in turn; a class
whose nodes were all cut by the limits gets a placeholder node `[...]` of
infinite cost.

Nodes and classes are listed in the order they are first reached.
-/

namespace Saturate

/-- A node of a snapshot. -/
structure SnapshotNode where
  id : String
  op : String
  eclass : String
  /-- The cost as the bits of a binary64 number. -/
  cost : UInt64
  children : List String
  subsumed : Bool
  deriving Repr, Inhabited

/-- A snapshot of a database. -/
structure Snapshot where
  nodes : Array SnapshotNode
  roots : List String
  /-- The classes with the name of their sort. -/
  classes : Array (String × String)
  deriving Repr, Inhabited

/-- What a snapshot includes. -/
structure SnapshotConfig where
  /-- Functions with rows past this many are left out. -/
  maxFunctions : Option Nat
  /-- Rows past this many per function are left out. -/
  maxCallsPerFunction : Option Nat
  /-- Whether the tables of globals are included. -/
  includeGlobals : Bool
  /-- Classes marked as roots. -/
  roots : List (SortInfo × Value)

/-- The state of building a snapshot. -/
structure SnapshotState where
  nodes : Array SnapshotNode
  nodeIndex : Std.HashMap String Unit
  classes : Array (String × String)
  classIndex : Std.HashMap String Unit
  /-- The nodes of each e-class, in the order edges take them. -/
  members : Std.HashMap String (List String)
  dag : TermDag

namespace SnapshotState

/-- The state with a node added, unless one of its name is there. -/
def withNode (st : SnapshotState) (n : SnapshotNode) : SnapshotState :=
  if st.nodeIndex.contains n.id then st
  else { st with nodes := st.nodes.push n, nodeIndex := st.nodeIndex.insert n.id () }

/-- The state with the sort of a class recorded, unless the class is there. -/
def withClass (st : SnapshotState) (c sort : String) : SnapshotState :=
  if st.classIndex.contains c then st
  else { st with classes := st.classes.push (c, sort), classIndex := st.classIndex.insert c () }

end SnapshotState

namespace Snapshot

/-- The binary64 bits of a natural number. -/
def costBits (n : Nat) : UInt64 := Binary64.ofInt n

/-- The name of the class of a value of a sort. -/
def classId (d : Database) (s : SortInfo) (v : Value) : PoolM String := do
  let (c, _) ← s.canonicalize d.unionFind v
  pure (s.name ++ "-" ++ toString c.bits)

/-- The name of the node of a row. -/
def rowNodeId (name : String) (offset : Nat) : String :=
  "function-" ++ toString offset ++ "-" ++ name

/-- Computations that build a snapshot. -/
abbrev SnapshotM := StateT SnapshotState PoolM

/-- Add a node unless one of its name is there. -/
def addNode (n : SnapshotNode) : SnapshotM Unit :=
  modify (·.withNode n)

/-- Record the sort of a class. -/
def addClass (c : String) (sort : String) : SnapshotM Unit :=
  modify (·.withClass c sort)

/-- The text of a primitive value's node. -/
def primitiveOp (x : Extractor) (d : Database) (s : SortInfo) (v : Value) : SnapshotM String := do
  if s.isContainer then return s.name
  let dag ← modifyGet fun st => (st.dag, { st with dag := .empty })
  let (dag, t) ← (x.term? d s v dag : PoolM _)
  modify fun st => { st with dag := dag }
  match t with
  | some t => pure (dag.text t)
  | none => pure v.debugText

/-- The members of an e-class turned once, for the next edge: the first goes last. -/
def rotate : List String → List String
  | m :: rest => rest ++ [m]
  | [] => []

/-- The node an edge to a value points at, adding the nodes of primitive
values; containers nest at most `fuel` deep. -/
def nodeFor (x : Extractor) (d : Database) : Nat → SortInfo → Value → SnapshotM String
  | 0, _, _ => pure ""
  | fuel + 1, s, v => do
    let c ← (classId d s v : PoolM _)
    let id ← if s.isEq then do
        let st ← get
        let ms ← match st.members.get? c with
          | some ms => pure ms
          | none =>
            let dummy := "dummy-" ++ c
            addNode ⟨dummy, "[...]", c, Binary64.infinityBits false, [], false⟩
            pure [dummy]
        let rotated := rotate ms
        modify fun st => { st with members := st.members.insert c rotated }
        pure (rotated.head?.getD ("dummy-" ++ c))
      else do
        let id := "primitive-" ++ c
        if !(← get).nodeIndex.contains id then
          let inner ← (s.innerValues v : PoolM _)
          let children ← inner.mapM fun (s', v') => nodeFor x d fuel s' v'
          let op ← primitiveOp x d s v
          addNode ⟨id, op, c, costBits 1, children, false⟩
        pure id
    addClass c s.name
    pure id

/-- The rows a snapshot keeps, with their functions and offsets, in order:
the rows of each function up to `maxCallsPerFunction`, subsumed ones
included, for the functions that keep rows, up to `maxFunctions` of them.
The tables of globals are left out unless asked for. -/
def keptCalls (d : Database) (config : SnapshotConfig) : List (Func × Nat × Entry) :=
  let funcs := d.funcs.toList.filter fun f => config.includeGlobals || !d.types.isGlobal f.name
  let perFunc := funcs.map fun f =>
    let rows := f.table.rows true
    (f, match config.maxCallsPerFunction with
      | some n => rows.take n
      | none => rows)
  let nonEmpty := perFunc.filter fun (_, rows) => !rows.isEmpty
  let kept := match config.maxFunctions with
    | some n => nonEmpty.take n
    | none => nonEmpty
  kept.flatMap fun (f, rows) => rows.map fun (i, e) => (f, i, e)

/-- Enter the node of a row in the class of its output, when the output is
an e-class. -/
def addMember (d : Database) (members : Std.HashMap String (List String)) :
    Func × Nat × Entry → PoolM (Std.HashMap String (List String))
  | (f, i, e) => do
    if f.output.isEq then
      let c ← classId d f.output e.output.value
      pure (members.insert c (members.getD c [] ++ [rowNodeId f.name i]))
    else pure members

/-- The node of a row, after the nodes its output and inputs point at. -/
def addRow (x : Extractor) (d : Database) (fuel : Nat) : Func × Nat × Entry → SnapshotM Unit
  | (f, i, e) => do
    let c ← (classId d f.output e.output.value : PoolM _)
    let _ ← nodeFor x d fuel f.output e.output.value
    let children ← (e.inputs.zip f.inputs).mapM fun (v, s) => nodeFor x d fuel s v
    addNode ⟨rowNodeId f.name i, f.name, c, costBits (f.decl.cost.getD 1), children, e.output.subsumed⟩

/-- The snapshot of a database. -/
def build (d : Database) (config : SnapshotConfig) : PoolM Snapshot := do
  let calls := keptCalls d config
  let members ← calls.foldlM (addMember d) {}
  let x ← Extractor.build d
  let fuel := (← read).itemCount + 2
  let start : SnapshotState := ⟨#[], {}, #[], {}, members, .empty⟩
  let ((), st) ← (calls.forM (addRow x d fuel)).run start
  let roots ← config.roots.mapM fun (s, v) => classId d s v
  pure ⟨st.nodes, roots, st.classes⟩

end Snapshot

end Saturate
