import Saturate.Typing.Info

/-!
Typing of rules, queries, actions and expressions: flatten, gather the
constraints of every atom and action, solve them over the terms of the rule,
remove equality atoms, pick the function or primitive overload of every
call, and check that every variable is grounded.

Errors arise in this order: unknown heads while gathering constraints (body
atoms, then actions), solving, resolution of body atoms, resolution of the
head, and grounding. A variable is grounded when a table atom mentions it, a
primitive atom whose inputs are grounded outputs it, a caller binds it, or an
earlier action binds it.
-/

namespace Saturate

/-- A typed rule, ready for query and action compilation. -/
structure ResolvedRule where
  body : List (Atom Call)
  head : List (CoreAction Call)
  varTypes : List (String × SortInfo)
  unsat : Bool
  deriving Inhabited

/-- An expression typed as actions leaving its value in `output`. -/
structure TypedExpr where
  rule : ResolvedRule
  output : AtomTerm
  sort : SortInfo
  deriving Inhabited

/-- Insert into an association list in first-insertion order, updating the value. -/
def assocInsert {α : Type} (xs : List (String × α)) (k : String) (v : α) : List (String × α) :=
  if xs.any (·.1 == k) then xs.map fun (k', v') => if k' == k then (k', v) else (k', v')
  else xs ++ [(k, v)]

/-- Append a term unless it is already there. -/
def addTerm (xs : List AtomTerm) (t : AtomTerm) : List AtomTerm :=
  if xs.any (·.same t) then xs else xs ++ [t]

namespace TypeInfo

/-- `Assign` constraints for the literals among terms. -/
def literalConstraints (ts : List AtomTerm) : List Constraint :=
  ts.filterMap fun t => match t with
    | .lit l => some (.assign t (literalSort l))
    | .var _ => none

/-- The constraints of a primitive applied to terms, the last its output. -/
def primConstraints (ti : TypeInfo) (p : Prim) (args : List AtomTerm) : List Constraint :=
  let arity (expected : Nat) : Constraint := .impossible (.arity ⟨p.name, args⟩ expected args.length)
  match p.signature with
  | .fixed sorts =>
    if args.length ≠ sorts.length then [arity sorts.length]
    else (args.zip sorts).map fun (t, s) => .assign t s
  | .allEqual all len out =>
    match len with
    | some n => if n ≠ args.length then [arity n] else rest all out
    | none => rest all out
  | .partialApp fs =>
    if args.length < 2 then [arity 2]
    else match args with
      | .lit (.string fname) :: _ =>
        match ti.funcTypes.get? fname, fs with
        | some ft, .func _ _ fins fout =>
          let nPartial := args.length - 2
          if nPartial + fins.length ≠ ft.inputs.length then
            [arity (ft.inputs.length + 2 - fins.length)]
          else
            let remaining := ft.inputs.drop nPartial
            let same := remaining.map SortInfo.name == fins.map SortInfo.name &&
              ft.output.name == fout.name
            if !same then [.impossible (.functionMismatch fname fs.name)]
            else
              let captured := (args.drop 1).take nPartial
              (captured.zip (ft.inputs.take nPartial)).map (fun (t, s) => Constraint.assign t s) ++
                [.assign (args.getLast?.getD (.lit .unit)) fs]
        | _, _ => [.impossible (.functionMismatch fname fs.name)]
      | t :: _ => [.assign t .string]
      | [] => [arity 2]
where
  rest (all out : Option SortInfo) : List Constraint :=
    let (pre, ins) := match out with
      | some o => match args.getLast? with
        | some last => ([Constraint.assign last o], some args.dropLast)
        | none => ([.impossible (.arity ⟨p.name, []⟩ 1 0)], none)
      | none => ([], some args)
    match ins with
    | none => pre
    | some ins =>
      match all with
      | some s => pre ++ ins.map fun t => .assign t s
      | none => match ins with
        | first :: others => pre ++ others.map fun t => .eq t first
        | [] => pre

/-- Whether a primitive accepts the given sorts, inputs then output. -/
def accepts (ti : TypeInfo) (p : Prim) (sorts : List SortInfo) : Bool :=
  let args := (List.range sorts.length).map fun i => AtomTerm.var ("$arg" ++ toString i)
  let cs := (args.zip sorts).map (fun (t, s) => Constraint.assign t s) ++ ti.primConstraints p args
  (Problem.solve cs args).toBool

/-- The constraints of an atom over a function or primitive name, or equality. -/
def atomConstraints (ti : TypeInfo) (a : Atom Head) : Except TypeError (List Constraint) :=
  let lits := literalConstraints a.args
  match a.head with
  | .eq =>
    match a.args with
    | [x, y] => .ok (lits ++ [.eq x y])
    | _ => .ok lits
  | .sym head =>
    let fromFunc : List (List Constraint) := match ti.funcTypes.get? head with
      | some ft =>
        if ft.inputs.length + 1 ≠ a.args.length then
          [[.impossible (.arity ⟨head, a.args⟩ (ft.inputs.length + 1) a.args.length)]]
        else [(a.args.zip (ft.inputs ++ [ft.output])).map fun (t, s) => .assign t s]
      | none => []
    let fromPrims := (ti.prims head).map fun p => ti.primConstraints p a.args
    match fromFunc ++ fromPrims with
    | [] => .error (.unboundFunction head)
    | [alt] => .ok (lits ++ alt)
    | alts => .ok (lits ++ [.oneOf (alts.map Constraint.all)])

/-- The constraints of setting or changing a row of `f`. -/
def tableConstraints (ti : TypeInfo) (f : String) (terms : List AtomTerm) (nInputs : Nat) :
    Except TypeError (List Constraint) :=
  match ti.funcTypes.get? f with
  | none => .error (if ti.isPrimitive f then .setPrimitive f else .unboundFunction f)
  | some ft =>
    let lits := literalConstraints terms
    if ft.inputs.length ≠ nInputs then
      .ok (lits ++ [.impossible (.arity ⟨f, terms⟩ (ft.inputs.length + terms.length - nInputs)
        terms.length)])
    else .ok (lits ++ (terms.zip (ft.inputs ++ [ft.output])).map fun (t, s) => .assign t s)

/-- The constraints of a core action. -/
def actionConstraints (ti : TypeInfo) : CoreAction String → Except TypeError (List Constraint)
  | .bindCall v f args => ti.atomConstraints ⟨.sym f, args ++ [.var v]⟩
  | .bindTerm v t => .ok (literalConstraints [t] ++ [.eq (.var v) t])
  | .set f args rhs => ti.tableConstraints f (args ++ [rhs]) args.length
  | .change _ f args => ti.tableConstraints f args args.length
  | .union a b => .ok (literalConstraints [a, b] ++ [.eq a b])
  | .abort _ => .ok []

/-- The function or the one primitive overload named `head` whose signature
is `sorts`, inputs then output. -/
def resolveCall (ti : TypeInfo) (head : String) (sorts : List SortInfo) : Except TypeError Call :=
  let fromFunc : List Call := match ti.funcTypes.get? head with
    | some ft =>
      if (ft.inputs ++ [ft.output]).map SortInfo.name == sorts.map SortInfo.name then [.func ft] else []
    | none => []
  let fromPrims : List Call := (ti.prims head).filterMap fun p =>
    if ti.accepts p sorts && !sorts.isEmpty then some (.prim p sorts.dropLast) else none
  let shown := Expr.call head (sorts.map fun s => .var s.name)
  match fromFunc ++ fromPrims with
  | [] => .error (.inferenceFailure shown)
  | [c] => .ok c
  | _ => .error (.ambiguous shown (sorts.map SortInfo.name))

/-- The function a `set` or a change writes. -/
def resolveTable (ti : TypeInfo) (f : String) : Except TypeError Call :=
  match ti.funcTypes.get? f with
  | some ft => .ok (.func ft)
  | none => .error (.unboundFunction f)

end TypeInfo

/-- Check that every variable is grounded. `bodyVars` are the body's variables
before equalities were removed, mapped through their substitution. -/
def ResolvedRule.checkGrounded (r : ResolvedRule) (bodyVars : List String) (bound : List String) :
    Except TypeError Unit := do
  let tableVars := r.body.flatMap fun a => match a.head with
    | .func _ => a.vars
    | .prim _ _ => []
  let filters := r.body.filterMap fun a => match a.head with
    | .prim _ _ => some a.args
    | .func _ => none
  let step (g : List String) : List String :=
    filters.foldl (fun g args =>
      match args.getLast? with
      | some out =>
        let ready := args.dropLast.all fun t => match t with
          | .var v => g.contains v
          | .lit _ => true
        match out with
        | .var v => if ready && !g.contains v then g ++ [v] else g
        | .lit _ => g
      | none => g) g
  -- each productive pass grounds one more primitive output
  let rec close : Nat → List String → List String
    | 0, g => g
    | fuel + 1, g => let g' := step g; if g'.length = g.length then g else close fuel g'
  let grounded := close (filters.length + 1) (tableVars ++ bound)
  -- the first variable, in order, that is not grounded is the one reported
  if let some v := (bodyVars ++ atomVars r.body).find? (!grounded.contains ·) then
    throw (.ungrounded v)
  let visit (g : List String) (a : CoreAction Call) : Except TypeError (List String) := do
    if let some v := a.usedVars.find? (!g.contains ·) then throw (.ungrounded v)
    pure (match a.boundVar? with
      | some v => g ++ [v]
      | none => g)
  let _ ← r.head.foldlM visit grounded

namespace TypeInfo

/-- Infer sorts, remove equalities, resolve every call and check grounding. -/
def resolve (ti : TypeInfo) (rule : CoreRule) (binding : List (String × SortInfo)) :
    Except TypeError ResolvedRule := do
  let bodyVars := atomVars rule.body
  let bodyCs ← rule.body.mapM ti.atomConstraints
  let headCs ← rule.head.mapM ti.actionConstraints
  let problem : Problem := bodyCs.flatten ++ headCs.flatten ++
    binding.map fun (v, s) => .assign (.var v) s
  let range0 := rule.body.foldl (fun acc a => a.args.foldl addTerm acc) []
  let range := rule.head.foldl (fun acc a =>
    let acc := a.usedVars.foldl (fun acc v => addTerm acc (.var v)) acc
    match a.boundVar? with
    | some v => addTerm acc (.var v)
    | none => acc) range0
  let assignment ← (problem.solve range).mapError ConstraintError.toTypeError
  let sortOf (t : AtomTerm) : Except TypeError SortInfo :=
    match t with
    | .lit l => .ok (literalSort l)
    | .var _ => match assignment.sortOf? t with
      | some s => .ok s
      | none => .error (.inferenceFailure t.toExpr)
  let (rule', subst, unsat) := rule.canonicalize
  let atoms ← rule'.body.filterMapM fun a => do
    match a.head with
    | .eq => pure none
    | .sym h => do
      let sorts ← a.args.mapM sortOf
      pure (some ⟨← ti.resolveCall h sorts, a.args⟩)
  let head ← rule'.head.mapM fun a => do
    match a with
    | .bindCall v f args => do
      let sorts ← (args ++ [AtomTerm.var v]).mapM sortOf
      pure (CoreAction.bindCall v (← ti.resolveCall f sorts) args)
    | .bindTerm v t => pure (.bindTerm v t)
    | .set f args rhs => pure (.set (← ti.resolveTable f) args rhs)
    | .change c f args => pure (.change c (← ti.resolveTable f) args)
    | .union a b => do
      let s ← sortOf a
      if !s.isEq then throw (.nonEqUnion s.name)
      pure (.union a b)
    | .abort msg => pure (.abort msg)
  let addVar (acc : List (String × SortInfo)) (t : AtomTerm) :
      Except TypeError (List (String × SortInfo)) := do
    match t with
    | .var v => pure (assocInsert acc v (← sortOf t))
    | .lit _ => pure acc
  let varTypes ← range.foldlM addVar []
  let resolved : ResolvedRule := ⟨atoms, head, varTypes, unsat⟩
  let mappedVars := bodyVars.filterMap fun v => match subst.get? v with
    | some (.var w) => some w
    | some (.lit _) => none
    | none => some v
  resolved.checkGrounded mappedVars (binding.map (·.1))
  pure resolved

/-- The predicate naming globals. -/
def globalNames (ti : TypeInfo) : String → Bool := ti.isGlobal

/-- Type a rule. -/
def typecheckRule (ti : TypeInfo) (r : Rule) : Except TypeError ResolvedRule := do
  let core ← (Flatten.rule ti.globalNames r).run' []
  ti.resolve core []

/-- Type the facts of a query. -/
def typecheckQuery (ti : TypeInfo) (facts : List Fact) : Except TypeError ResolvedRule := do
  let body ← (Flatten.query ti.globalNames facts).run' []
  ti.resolve ⟨body, []⟩ []

/-- Type actions run outside any rule, `binding` giving the sorts of the
variables the caller provides. -/
def typecheckActions (ti : TypeInfo) (as : List Action) (binding : List (String × SortInfo)) :
    Except TypeError ResolvedRule := do
  let head ← (Flatten.actions ti.globalNames as).run' (binding.map (·.1))
  ti.resolve ⟨[], head⟩ binding

/-- Type an expression as actions whose value ends up in the output term. -/
def typecheckExpr (ti : TypeInfo) (e : Expr) (binding : List (String × SortInfo)) :
    Except TypeError TypedExpr := do
  let (out, head) ← (Flatten.actionExpr ti.globalNames e []).run' (binding.map (·.1))
  let rule ← ti.resolve ⟨[], head⟩ binding
  let sort ← match out with
    | .var v => match rule.varTypes.lookup v with
      | some s => pure s
      | none => throw (.unbound v)
    | .lit l => pure (literalSort l)
  pure ⟨rule, out, sort⟩

end TypeInfo

end Saturate
