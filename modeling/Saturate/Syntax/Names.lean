import Saturate.Syntax.Command

/-!
The names a piece of syntax mentions, in the order they are read: a call's
head before its arguments, every variable, the text of every string literal,
and the sort, function and ruleset names of declarations. Reading a command
enters these names in the session's table of names (`Saturate.NameTable`)
before the command runs, so that they take their places ahead of any string
the command makes.

A panic's message is text, not a name, and is not entered.
-/

namespace Saturate

/-- The names of an expression. -/
def Expr.names : Expr → List String
  | .lit (.string s) => [s]
  | .lit _ => []
  | .var v => [v]
  | .call head args => head :: (args.attach.map fun ⟨a, _⟩ => a.names).flatten

/-- The names of a list of expressions. -/
def Expr.namesOfList (es : List Expr) : List String := es.flatMap Expr.names

/-- The names of a fact. -/
def Fact.names : Fact → List String
  | .eq es => Expr.namesOfList es
  | .holds e => e.names

/-- The names of a list of facts. -/
def Fact.namesOfList (fs : List Fact) : List String := fs.flatMap Fact.names

/-- The names of an action. -/
def Action.names : Action → List String
  | .bind n e => n :: e.names
  | .set f args rhs => f :: Expr.namesOfList args ++ rhs.names
  | .change _ f args => f :: Expr.namesOfList args
  | .union a b => a.names ++ b.names
  | .abort _ => []
  | .eval e => e.names

/-- The names of a schedule: the rulesets it runs and the facts it waits for. -/
def Schedule.names : Schedule → List String
  | .saturate s => s.names
  | .repeat _ s => s.names
  | .run c => c.ruleset :: Fact.namesOfList (c.stopWhen.getD [])
  | .seq ss => (ss.attach.map fun ⟨s, _⟩ => s.names).flatten

/-- The names of a rewrite: left side, right side, conditions. -/
def Rewrite.names (rw : Rewrite) : List String :=
  rw.lhs.names ++ rw.rhs.names ++ Fact.namesOfList rw.conditions

/-- The names of a function declaration: the function, its input and output
sorts, then its default and merge expressions. -/
def FunctionDecl.names (d : FunctionDecl) : List String :=
  d.name :: d.inputs ++ [d.output] ++ (d.default.map Expr.names).getD [] ++
    (d.merge.map Expr.names).getD []

/-- The names of a command. A rule's body is read before its head. -/
def Command.names : Command → List String
  | .setOption name value => name :: value.names
  | .datatype name variants => name :: variants.flatMap fun v => v.name :: v.types
  | .declareSort name presort => name :: match presort with
    | some (p, args) => p :: Expr.namesOfList args
    | none => []
  | .function d => d.names
  | .relation name inputs => name :: inputs
  | .addRuleset name => [name]
  | .combinedRuleset name members => name :: members
  | .rule name ruleset r =>
    name :: ruleset :: Fact.namesOfList r.body ++ r.head.flatMap Action.names
  | .rewrite ruleset rw _ => ruleset :: rw.names
  | .birewrite ruleset rw => ruleset :: rw.names
  | .action a => a.names
  | .runSchedule s => s.names
  | .printStats => []
  | .check facts => Fact.namesOfList facts
  | .extract e _ => e.names
  | .printFunction name _ => [name]
  | .printSize name => name.toList
  | .push _ => []
  | .pop _ => []
  | .fail c => c.names

end Saturate
