import Std.Data.HashMap
import Saturate.Syntax.Command
import Saturate.Prim.Basic
import Saturate.Error

/-!
The core form of rules. A body is a list of atoms whose arguments are
variables or literals, the output of every call being its last argument; a
head is a straight list of core actions in which every nested call is bound
to a fresh variable first. Heads of atoms are symbols before typing and
resolved calls (a function or one overload of a primitive) after it.

* `Flatten` introduces the fresh variables `$head<n>`, numbered by one
  counter per flattening; a user variable never starts with `$` there.
* `CoreRule.canonicalize` removes equality atoms by substitution, keeping
  literals over variables and user variables over fresh ones, and reports
  an equality between two different literals.
-/

namespace Saturate

/-- An argument of an atom. -/
inductive AtomTerm where
  | var (name : String)
  | lit (l : Literal)
  deriving DecidableEq, Hashable, Repr, Inhabited

namespace AtomTerm

/-- The canonical form under which terms are compared: literals by `Literal.key`. -/
def key : AtomTerm → AtomTerm
  | .lit l => .lit l.key
  | t => t

/-- Whether two terms are the same. -/
def same (a b : AtomTerm) : Bool := a.key == b.key

/-- The expression of a term. -/
def toExpr : AtomTerm → Expr
  | .var v => .var v
  | .lit l => .lit l

/-- The variable of a term. -/
def var? : AtomTerm → Option String
  | .var v => some v
  | .lit _ => none

/-- Replace a variable by its image. -/
def subst (m : Std.HashMap String AtomTerm) : AtomTerm → AtomTerm
  | .var v => (m.get? v).getD (.var v)
  | t => t

end AtomTerm

/-- The head of an unresolved atom: a symbol or equality. -/
inductive Head where
  | eq
  | sym (name : String)
  deriving DecidableEq, Repr, Inhabited

/-- The signature of a function: input sorts and output sort. -/
structure FuncType where
  name : String
  inputs : List SortInfo
  output : SortInfo
  deriving Repr, Inhabited

/-- A resolved head: a function, or an overload of a primitive with its input sorts. -/
inductive Call where
  | func (f : FuncType)
  | prim (p : Prim) (inputs : List SortInfo)
  deriving Repr, Inhabited

/-- The name of a resolved head. -/
def Call.name : Call → String
  | .func f => f.name
  | .prim p _ => p.name

/-- An atom: a head applied to terms, the last being the output. -/
structure Atom (H : Type) where
  head : H
  args : List AtomTerm
  deriving Repr, Inhabited

/-- The variables of an atom, in order, with repeats. -/
def Atom.vars {H : Type} (a : Atom H) : List String := a.args.filterMap AtomTerm.var?

/-- An atom with a symbol head as an expression, for messages. -/
def Atom.toExpr (a : Atom String) : Expr := .call a.head (a.args.map AtomTerm.toExpr)

/-- A core action over heads `H`. -/
inductive CoreAction (H : Type) where
  | bindCall (v : String) (f : H) (args : List AtomTerm)
  | bindTerm (v : String) (t : AtomTerm)
  | set (f : H) (args : List AtomTerm) (rhs : AtomTerm)
  | change (c : Change) (f : H) (args : List AtomTerm)
  | union (a b : AtomTerm)
  | abort (msg : String)
  deriving Repr, Inhabited

namespace CoreAction

variable {H : Type}

/-- The variables an action reads. -/
def usedVars : CoreAction H → List String
  | .bindCall _ _ args | .change _ _ args => args.filterMap AtomTerm.var?
  | .bindTerm _ t => t.var?.toList
  | .set _ args rhs => (args ++ [rhs]).filterMap AtomTerm.var?
  | .union a b => [a, b].filterMap AtomTerm.var?
  | .abort _ => []

/-- The variable an action binds. -/
def boundVar? : CoreAction H → Option String
  | .bindCall v _ _ | .bindTerm v _ => some v
  | _ => none

/-- Substitute variables in what an action reads. -/
def subst (m : Std.HashMap String AtomTerm) : CoreAction H → CoreAction H
  | .bindCall v f args => .bindCall v f (args.map (·.subst m))
  | .bindTerm v t => .bindTerm v (t.subst m)
  | .set f args rhs => .set f (args.map (·.subst m)) (rhs.subst m)
  | .change c f args => .change c f (args.map (·.subst m))
  | .union a b => .union (a.subst m) (b.subst m)
  | .abort msg => .abort msg

end CoreAction

/-- A rule after flattening. -/
structure CoreRule where
  body : List (Atom Head)
  head : List (CoreAction String)
  deriving Repr, Inhabited

/-- The variables of a list of atoms in order of first appearance. -/
def atomVars {H : Type} (atoms : List (Atom H)) : List String :=
  (atoms.flatMap Atom.vars).foldl (fun acc v => if acc.contains v then acc else acc ++ [v]) []

/-- The state of a flattening: the fresh-name counter and the names bound so far. -/
structure FlattenState where
  counter : Nat
  bound : List String
  deriving Inhabited

/-- Flattening, which may fail with a type error. -/
abbrev FlattenM := StateT FlattenState (Except TypeError)

namespace Flatten

/-- A fresh variable named after a head. -/
def fresh (hint : String) : FlattenM String :=
  modifyGet fun s => ("$" ++ hint ++ toString s.counter, { s with counter := s.counter + 1 })

/-- Whether a name is bound. -/
def isBound (v : String) : FlattenM Bool := do return (← get).bound.contains v

/-- Bind a name. -/
def bind (v : String) : FlattenM Unit := modify fun s => { s with bound := s.bound ++ [v] }

/-- The atom of a call whose arguments are flattened: a fresh output variable. -/
def pushCall (f : String) (terms : List AtomTerm) (atoms : List (Atom Head)) :
    FlattenM (AtomTerm × List (Atom Head)) := do
  let out ← fresh f
  pure (.var out, atoms ++ [⟨.sym f, terms ++ [.var out]⟩])

mutual

/-- Flatten an expression of a query, appending the atoms it needs; names of
globals become nullary calls. -/
def queryExpr (globals : String → Bool) : Expr → List (Atom Head) → FlattenM (AtomTerm × List (Atom Head))
  | .lit l, atoms => pure (.lit l, atoms)
  | .var v, atoms => if globals v then pushCall v [] atoms else pure (.var v, atoms)
  | .call f args, atoms => do
    let (terms, atoms) ← queryExprs globals args atoms
    pushCall f terms atoms

/-- Flatten arguments left to right. -/
def queryExprs (globals : String → Bool) : List Expr → List (Atom Head) →
    FlattenM (List AtomTerm × List (Atom Head))
  | [], atoms => pure ([], atoms)
  | e :: es, atoms => do
    let (t, atoms) ← queryExpr globals e atoms
    let (ts, atoms) ← queryExprs globals es atoms
    pure (t :: ts, atoms)

end

/-- The equality atoms between neighbours of a list of terms. -/
def chainEq : List AtomTerm → List (Atom Head)
  | a :: b :: rest => ⟨.eq, [a, b]⟩ :: chainEq (b :: rest)
  | _ => []

/-- Flatten the facts of a query. -/
def query (globals : String → Bool) (facts : List Fact) : FlattenM (List (Atom Head)) :=
  facts.foldlM step []
where
  /-- Flatten one fact after the atoms so far. -/
  step (atoms : List (Atom Head)) (fact : Fact) : FlattenM (List (Atom Head)) :=
    match fact with
    | .eq es =>
      if es.length < 2 then throw (.arity (.call "=" es) 2)
      else do
        let (terms, atoms) ← queryExprs globals es atoms
        pure (atoms ++ chainEq terms)
    | .holds e => do
      let (_, atoms) ← queryExpr globals e atoms
      pure atoms

/-- Bind a call whose arguments are flattened to a fresh variable. -/
def bindCall (f : String) (terms : List AtomTerm) (out : List (CoreAction String)) :
    FlattenM (AtomTerm × List (CoreAction String)) := do
  let v ← fresh f
  bind v
  pure (.var v, out ++ [.bindCall v f terms])

mutual

/-- Flatten an expression of an action, binding every call to a fresh
variable first. Variables must be bound, or name globals. -/
def actionExpr (globals : String → Bool) : Expr → List (CoreAction String) →
    FlattenM (AtomTerm × List (CoreAction String))
  | .lit l, out => pure (.lit l, out)
  | .var v, out => do
    if ← isBound v then pure (.var v, out)
    else if globals v then bindCall v [] out
    else throw (.unbound v)
  | .call f args, out => do
    let (terms, out) ← actionExprs globals args out
    bindCall f terms out

/-- Flatten the arguments of an action left to right. -/
def actionExprs (globals : String → Bool) : List Expr → List (CoreAction String) →
    FlattenM (List AtomTerm × List (CoreAction String))
  | [], out => pure ([], out)
  | e :: es, out => do
    let (t, out) ← actionExpr globals e out
    let (ts, out) ← actionExprs globals es out
    pure (t :: ts, out)

end

/-- Flatten a list of actions. -/
def actions (globals : String → Bool) (as : List Action) : FlattenM (List (CoreAction String)) :=
  as.foldlM step []
where
  /-- Flatten one action after the actions so far. -/
  step (out : List (CoreAction String)) (a : Action) : FlattenM (List (CoreAction String)) :=
    match a with
    | .bind v e => do
      if (← isBound v) || globals v then throw (.alreadyDefined v)
      let (t, out) ← actionExpr globals e out
      bind v
      pure (out ++ [.bindTerm v t])
    | .set f args rhs => do
      let (ts, out) ← actionExprs globals args out
      let (r, out) ← actionExpr globals rhs out
      pure (out ++ [.set f ts r])
    | .change c f args => do
      let (ts, out) ← actionExprs globals args out
      pure (out ++ [.change c f ts])
    | .union a b => do
      let (ta, out) ← actionExpr globals a out
      let (tb, out) ← actionExpr globals b out
      pure (out ++ [.union ta tb])
    | .abort msg => pure (out ++ [.abort msg])
    | .eval e => do
      let (_, out) ← actionExpr globals e out
      pure out

/-- Flatten a rule: the body, then the head with the body's variables bound. -/
def rule (globals : String → Bool) (r : Rule) : FlattenM CoreRule := do
  let body ← query globals r.body
  modify fun s => { s with bound := atomVars body }
  let head ← actions globals r.head
  pure ⟨body, head⟩

end Flatten

/-- Run a flattening with the given names bound. -/
def FlattenM.run' {α : Type} (m : FlattenM α) (bound : List String) : Except TypeError α :=
  (m.run ⟨0, bound⟩).map (·.1)

/-- Whether a variable was introduced by flattening. -/
def isFresh (v : String) : Bool := v.startsWith "$"

namespace CoreRule

/-- Apply a substitution to body and head. -/
def subst (r : CoreRule) (m : Std.HashMap String AtomTerm) : CoreRule :=
  { body := r.body.map fun a => { a with args := a.args.map (·.subst m) }
    head := r.head.map (·.subst m) }

/-- The first equality between two different terms that can be substituted
away: a variable by a literal, or a fresh variable by another variable (a
user variable by a fresh or other user variable otherwise). -/
def nextStep (r : CoreRule) : Option (String × AtomTerm) :=
  r.body.findSome? fun a =>
    match a.head, a.args with
    | .eq, [x, y] =>
      if x.same y then none
      else match x, y with
        | .var v, .lit _ => some (v, y)
        | .lit _, .var v => some (v, x)
        | .var v, .var w => if isFresh w then some (w, .var v) else some (v, .var w)
        | _, _ => none
    | _, _ => none

/-- Substitute equalities away until none is left between a variable and
something else, then drop all equality atoms. Gives the rule, the
substitution made, and whether two different literals were equated. Each
step removes a variable from the rule, so the number of variable occurrences
bounds the steps. -/
def canonicalize (r : CoreRule) : CoreRule × Std.HashMap String AtomTerm × Bool :=
  let fuel := (r.body.map (·.args.length)).foldl (· + ·) 0 + 1
  let rec go : Nat → CoreRule → Std.HashMap String AtomTerm → CoreRule × Std.HashMap String AtomTerm
    | 0, r, m => (r, m)
    | fuel + 1, r, m =>
      match r.nextStep with
      | none => (r, m)
      | some (x, t) =>
        let step : Std.HashMap String AtomTerm := ({} : Std.HashMap String AtomTerm).insert x t
        let m := (m.map fun _ v => v.subst step).insert x t
        go fuel (r.subst step) m
  let (r, m) := go fuel r {}
  let unsat := r.body.any fun a =>
    match a.head, a.args with
    | .eq, [x, y] => !x.same y
    | _, _ => false
  ({ r with body := r.body.filter fun a => a.head != .eq }, m, unsat)

end CoreRule

end Saturate
