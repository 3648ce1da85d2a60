import Saturate.Session.Schedule
import Saturate.Extract
import Saturate.Syntax.Names

/-!
Commands and the operations of a session's interface.

A command runs between two rebuilds. A command that fails is rolled back:
the database returns to what it was before the command, while the pool,
the queued messages and the reports stay. Commands that cannot change the
database before they fail run without a saved copy when no union is
pending; `fail` also saves the scopes, since what it runs may push or pop.

Messages queue up and are handed out when a command succeeds; of a run of
empty messages only one is kept.
-/

namespace Saturate

namespace Engine

/-- Lift a typing result. -/
def typed {α : Type} : Except TypeError α → Engine α
  | .ok a => pure a
  | .error e => failType e

/-- Declare a sort: a fresh eq sort, or an instance of a presort. -/
def declareSort (name : String) (presort : Option (String × List Expr)) : Engine SortInfo := do
  if (← db).funcIndex.contains name then failType (.functionAlreadyBound name)
  let table ← match presort with
    | some _ => modifyGet fun s => let (p, t) := s.pool.newTable; (t, { s with pool := p })
    | none => pure 0
  let (ti, s) ← typed ((← db).types.declareSort name presort table)
  modifyDb fun d => { d with types := ti }
  pure s

/-- Declare a function; its merge and default expressions may call it. -/
def declareFunction (decl : FunctionDecl) : Engine Unit := do
  let (ti, ft) ← typed ((← db).types.declareFunction decl)
  let f ← typed (Func.make ti decl ft)
  modifyDb fun d => { d with types := ti }
  modifyDb (·.addFunc f)

/-- Declare an eq sort with one constructor per variant. -/
def declareDatatype (name : String) (variants : List Variant) : Engine Unit := do
  let _ ← declareSort name none
  for v in variants do
    declareFunction (.constructor v.name v.types name v.cost)

/-- Add an empty ruleset. -/
def addRuleset (name : String) : Engine Unit := do
  if ((← db).ruleset? name).isSome then fail (.rulesetExists name)
  modifyDb fun d => { d with rulesets := d.rulesets ++ [(name, .rules [])] }

/-- Add a ruleset that runs the rules of others together. -/
def addCombinedRuleset (name : String) (members : List String) : Engine Unit := do
  let d ← db
  if (d.ruleset? name).isSome then fail (.rulesetExists name)
  if let some m := members.find? (fun m => (d.ruleset? m).isNone) then fail (.noSuchRuleset m)
  modifyDb fun d => { d with rulesets := d.rulesets ++ [(name, .combined members)] }

/-- Add a rule to a ruleset; an empty name names it by its text. -/
def addRule (name : String) (r : Rule) (ruleset : String) : Engine String := do
  let name := if name.isEmpty then r.text else name
  match (← db).ruleset? ruleset with
  | none => fail (.noSuchRuleset ruleset)
  | some (.combined _) => fail (.combinedRuleset ruleset)
  | some (.rules rs) =>
    if rs.any (·.1 == name) then fail (.ruleExists name ruleset)
    let resolved ← typed ((← db).types.typecheckRule r)
    let q ← compileQuery resolved.body
    let prog := Program.compile q.vars resolved.varTypes resolved.head
    let rule : CompiledRule := ⟨q, prog, resolved.unsat⟩
    modifyDb fun d => { d with
      rulesets := d.rulesets.map fun (n, rs) =>
        if n == ruleset then
          match rs with
          | .rules xs => (n, .rules (xs ++ [(name, rule)]))
          | other => (n, other)
        else (n, rs) }
    pure name

/-- Evaluate an expression as an action would, adding the rows it mentions. -/
def evalExpr (e : Expr) : Engine (SortInfo × Value) := do
  let t ← typed ((← db).types.typecheckExpr e [])
  let prog := Program.compileExpr [] t.rule.varTypes t.rule.head t.output
  match (← runProgram prog #[]).back? with
  | some v => pure (t.sort, v)
  | none => fail (.notFound (e.text ++ " produced no value"))

/-- Run actions outside any rule. -/
def evalActions (as : List Action) : Engine Unit := do
  let r ← typed ((← db).types.typecheckActions as [])
  let _ ← runProgram (Program.compile [] r.varTypes r.head) #[]

/-- A top-level binding: a global, kept as a nullary function that is never extracted. -/
def declareGlobal (name : String) (e : Expr) : Engine Unit := do
  let (s, v) ← evalExpr e
  let (ti, ft) ← typed ((← db).types.declareGlobal name s)
  let decl : FunctionDecl :=
    { name, inputs := [], output := s.name, default := none, merge := none, cost := none,
      unextractable := true }
  let f ← typed (Func.make ti decl ft)
  let ts := (← db).timestamp
  modifyDb fun d => { d with types := ti }
  modifyDb (·.addFunc (f.put [] v ts))

/-- Set an option. -/
def setOption (name : String) (value : Expr) : Engine Unit := do
  let invalid : Engine Nat := fail (.invalidOption name value)
  let count : Engine Nat := match value with
    | .lit (.int i) => if i ≥ 0 then pure i.toNat else invalid
    | _ => invalid
  match name with
  | "match_limit" => let n ← count; modifyDb fun d => { d with options := { d.options with matchLimit := n } }
  | "node_limit" => let n ← count; modifyDb fun d => { d with options := { d.options with nodeLimit := n } }
  | "iteration_limit" =>
    let n ← count; modifyDb fun d => { d with options := { d.options with iterationLimit := n } }
  | "seminaive" =>
    let b ← match value with
      | .lit (.bool b) => pure b
      | .lit (.int i) => pure (i ≠ 0)
      | _ => do let _ ← invalid; pure false
    modifyDb fun d => { d with options := { d.options with seminaive := b } }
  | _ => let _ ← invalid

/-- The terms of the first `n` rows of a function, subsumed rows included:
each row as the function applied to its inputs' terms, with its output's term. -/
def functionToDag (name : String) (n : Nat) : Engine (List (Nat × Nat) × TermDag) := do
  enterNames [name]
  let f ← func name
  let d ← db
  let x ← pool (Extractor.build d)
  let mut dag := TermDag.empty
  let mut out : Array (Nat × Nat) := #[]
  for (_, e) in (f.table.rows true).take n do
    let mut ids : Array Nat := #[]
    for (v, s) in e.inputs.zip f.inputs do
      let (dag', t) ← pool (x.term? d s v dag)
      dag := dag'
      match t with
      | some t => ids := ids.push t
      | none => fail (.notExtractable v)
    let (dag', o) ← pool (x.term? d f.output e.output.value dag)
    match o with
    | some o =>
      let (dag'', t) := dag'.app name ids.toList
      dag := dag''
      out := out.push (t, o)
    | none => fail (.notExtractable e.output.value)
  pure (out.toList, dag)

/-- Queue the first `n` rows of a function as a message. -/
def printFunction (name : String) (n : Nat) : Engine Unit := do
  let (rows, dag) ← functionToDag name n
  let f ← func name
  let unitOut := f.output.name == unitSortName
  let lines := rows.map fun (t, o) =>
    if unitOut then "   " ++ dag.text t ++ "\n" else "   " ++ dag.text t ++ " -> " ++ dag.text o ++ "\n"
  say ("(\n" ++ String.join lines ++ ")")

/-- Queue the size of a function, or of every function by name. -/
def printSize (name : Option String) : Engine Unit := do
  match name with
  | some n => say (toString (← func n).numLive)
  | none =>
    let sizes := (← db).funcs.toList.map fun f => (f.name, f.numLive)
    let sorted := sizes.mergeSort fun a b => a.1 ≤ b.1
    say (joinWith "\n" (sorted.map fun (n, k) => n ++ ": " ++ toString k))

/-- The cheapest term of a value of a sort with its cost. -/
def extract (s : SortInfo) (v : Value) : Engine (Nat × TermDag × Nat) := do
  let d ← db
  let x ← pool (Extractor.build d)
  match ← pool (x.best? d s v .empty) with
  | (dag, some (cost, t)) => pure (cost, dag, t)
  | (_, none) => fail (.notExtractable v)

/-- Extract the best term of an expression, or up to `variants` terms of its
class, as a message and as the extraction report. -/
def extractExpr (e : Expr) (variants : Nat) : Engine Unit := do
  let (s, v) ← evalExpr e
  let report ← if variants = 0 then do
      let (cost, dag, t) ← extract s v
      say (dag.text t)
      pure (ExtractReport.best cost (dag.text t))
    else do
      let d ← db
      let x ← pool (Extractor.build d)
      let (dag, terms) ← pool (x.variants d s v variants .empty)
      let texts := terms.map dag.text
      say ("(\n" ++ String.join (texts.map fun t => "   " ++ t ++ "\n") ++ ")")
      pure (ExtractReport.variants texts)
  modify fun st => { st with extractReport := some report }

/-- Save the database `n` times. -/
def push (n : Nat) : Engine Unit :=
  modify fun s => { s with scopes := (List.replicate n s.db) ++ s.scopes }

/-- Return to the database saved last, `n` times. -/
def pop (n : Nat) : Engine Unit := do
  let s ← get
  if n > s.scopes.length then fail .popTooMuch
  if n = 0 then return
  match (s.scopes.drop (n - 1)).head? with
  | some d => set { s with db := d, scopes := s.scopes.drop n }
  | none => pure ()

/-- Commands that fail, if at all, before changing the database. -/
def Command.isAtomic : Command → Bool
  | .setOption .. | .function _ | .relation .. | .addRuleset _ | .combinedRuleset .. | .printStats
  | .check _ | .printFunction .. | .printSize _ | .push _ | .pop _ => true
  | _ => false

/-- Run a command body, rolling the database back when it fails. -/
def withRollback (c : Command) (body : Engine Unit) : Engine Unit := do
  let s ← get
  if Command.isAtomic c && !s.db.unionFind.isDirty then return ← body
  let keepScopes := match c with
    | .fail _ => false
    | _ => true
  try body
  catch e =>
    match e with
    | .error _ =>
      modify fun now => { now with
        db := s.db
        scopes := if keepScopes then now.scopes else s.scopes }
      throw e
    | other => throw other

/-- A command between two rebuilds; `inner` runs the command that `fail` expects to fail. -/
def commandBody (c : Command) (inner : Engine Unit) : Engine Unit := do
  let _ ← rebuild
  match c with
  | .setOption n v => setOption n v
  | .datatype n vs => declareDatatype n vs
  | .declareSort n p => let _ ← declareSort n p
  | .function d => declareFunction d
  | .relation n ins => declareFunction (.relation n ins)
  | .addRuleset n => addRuleset n
  | .combinedRuleset n ms => addCombinedRuleset n ms
  | .rule n rs r => let _ ← addRule n r rs
  | .rewrite rs rw sub => let _ ← addRule "" (rw.toRule sub) rs
  | .birewrite rs rw =>
    let _ ← addRule "" (rw.toRule false) rs
    let _ ← addRule "" (rw.reversed.toRule false) rs
  | .action (.bind n e) => declareGlobal n e
  | .action a => evalActions [a]
  | .runSchedule sch =>
    let r ← runSchedule sch
    modify fun st => { st with overall := st.overall.union r, lastReport := some r }
  | .printStats => say ("Overall statistics:\n" ++ (← get).overall.text)
  | .check facts => checkFacts facts
  | .extract e n => extractExpr e n
  | .printFunction f n => printFunction f n
  | .printSize f => printSize f
  | .push n => push n
  | .pop n => pop n
  | .fail _ =>
    let ok ← try inner; pure true
      catch e => match e with
        | .error _ => pure false
        | other => throw other
    if ok then fail .expectedFailure
  let _ ← rebuild

/-- Run one command, rolling the database back when it fails. -/
def runCommand : Command → Engine Unit
  | .fail inner => withRollback (.fail inner) (commandBody (.fail inner) (runCommand inner))
  | c => withRollback c (commandBody c (pure ()))

/-- Keep one of each run of empty messages. -/
def dedupEmpty : List String → List String
  | a :: b :: rest => if a.isEmpty && b.isEmpty then dedupEmpty (b :: rest) else a :: dedupEmpty (b :: rest)
  | xs => xs

/-- Run a command and hand out the queued messages. -/
def runCommandStep (c : Command) : Engine (List String) := do
  enterNames c.names
  runCommand c
  let msgs := dedupEmpty (← get).messages.toList
  modify fun s => { s with messages := #[] }
  pure msgs

/-- The number of inputs of a function, checked against a call. -/
def checkArity (name : String) (inputs : List Value) : Engine Func := do
  let f ← func name
  if f.inputs.length ≠ inputs.length then
    failType (.arity (.call name (inputs.map fun v => .var v.debugText)) f.inputs.length)
  pure f

/-- The canonical output of the row of a function for some inputs. -/
def lookup (name : String) (inputs : List Value) : Engine (Option Value) := do
  enterNames [name]
  let f ← checkArity name inputs
  let ins ← inputs.mapM find
  match f.get? ins with
  | some out => some <$> find out.value
  | none => pure none

/-- Merge an output into the row of a function. -/
def setRow (name : String) (inputs : List Value) (output : Value) : Engine Unit := do
  enterNames [name]
  let _ ← checkArity name inputs
  performSet name inputs output

/-- Union two e-classes of one eq sort; congruence waits for the next rebuild. -/
def union (a b : Value) : Engine Value := do
  let types := (← db).types
  let some s := types.sort? a.sort | failType (.undefinedSort a.sort)
  if !s.isEq then failType (.nonEqUnion s.name)
  if a.sort ≠ b.sort then
    let some other := types.sort? b.sort | failType (.undefinedSort b.sort)
    failType (.mismatch (.call "union" []) s.name other.name)
  unionValues a b a.sort

/-- The cheapest term of a value as text. -/
def extractValueText (v : Value) : Engine String := do
  let some s := (← db).types.sort? v.sort | failType (.undefinedSort v.sort)
  let (_, dag, t) ← extract s v
  pure (dag.text t)

/-- The rows of a function, subsumed ones included, in row order. -/
def rowsOf (name : String) : Engine (List Entry) := do
  enterNames [name]
  pure (((← func name).table.rows true).map (·.2))

/-- Extract every class at once. -/
def extractAll : Engine GlobalExtraction := do
  let d ← db
  pool (Extractor.all d)

end Engine

end Saturate
