import Saturate.Syntax.Expr
import Saturate.Text.Quote

/-!
Facts, actions, rules, schedules and commands: the typed command stream that
a session runs. Each prints in the s-expression syntax that names rules and
fills error messages.

* A rewrite `lhs ⇒ rhs` stands for the rule `((= $rewrite_lhs lhs) conds…)`
  with head `(union $rewrite_lhs rhs)`, and with `(subsume lhs)` added when
  the rewrite subsumes and its left side is a call (`Rewrite.toRule`).
-/

namespace Saturate

/-- A query atom: expressions that are all equal, or an expression that is
present. -/
inductive Fact where
  | eq (exprs : List Expr)
  | holds (e : Expr)
  deriving Repr, Inhabited

/-- How a row is changed by an action. -/
inductive Change where
  | delete
  | subsume
  deriving DecidableEq, Repr, Inhabited

/-- An action of a rule head or of the top level. -/
inductive Action where
  | bind (name : String) (e : Expr)
  | set (f : String) (args : List Expr) (rhs : Expr)
  | change (c : Change) (f : String) (args : List Expr)
  | union (a b : Expr)
  | abort (msg : String)
  | eval (e : Expr)
  deriving Repr, Inhabited

/-- A rule: for every match of the body, run the head. -/
structure Rule where
  head : List Action
  body : List Fact
  deriving Repr, Inhabited

/-- `lhs ⇒ rhs` under conditions. -/
structure Rewrite where
  lhs : Expr
  rhs : Expr
  conditions : List Fact
  deriving Repr, Inhabited

/-- One iteration of a ruleset, possibly stopping early once facts hold. -/
structure RunConfig where
  ruleset : String
  stopWhen : Option (List Fact)
  deriving Repr, Inhabited

/-- A schedule of rule iterations. -/
inductive Schedule where
  | saturate (s : Schedule)
  | repeat (n : Nat) (s : Schedule)
  | run (config : RunConfig)
  | seq (ss : List Schedule)
  deriving Repr, Inhabited

/-- A function declaration. -/
structure FunctionDecl where
  name : String
  inputs : List String
  output : String
  default : Option Expr
  merge : Option Expr
  cost : Option Nat
  unextractable : Bool
  deriving Repr, Inhabited

/-- A constructor of a datatype. -/
structure Variant where
  name : String
  types : List String
  cost : Option Nat
  deriving Repr, Inhabited

/-- A command of a session. -/
inductive Command where
  | setOption (name : String) (value : Expr)
  | datatype (name : String) (variants : List Variant)
  | declareSort (name : String) (presort : Option (String × List Expr))
  | function (decl : FunctionDecl)
  | relation (name : String) (inputs : List String)
  | addRuleset (name : String)
  | combinedRuleset (name : String) (members : List String)
  | rule (name : String) (ruleset : String) (r : Rule)
  | rewrite (ruleset : String) (rw : Rewrite) (subsume : Bool)
  | birewrite (ruleset : String) (rw : Rewrite)
  | action (a : Action)
  | runSchedule (s : Schedule)
  | printStats
  | check (facts : List Fact)
  | extract (e : Expr) (variants : Nat)
  | printFunction (name : String) (n : Nat)
  | printSize (name : Option String)
  | push (n : Nat)
  | pop (n : Nat)
  | fail (c : Command)
  deriving Repr, Inhabited

namespace Fact

/-- The text of a fact. -/
def text : Fact → String
  | .eq es => "(= " ++ joinWith " " (es.map Expr.text) ++ ")"
  | .holds e => e.text

end Fact

namespace Change

/-- The keyword of a change. -/
def text : Change → String
  | .delete => "delete"
  | .subsume => "subsume"

end Change

namespace Action

/-- The text of an action. -/
def text : Action → String
  | .bind n e => "(let " ++ n ++ " " ++ e.text ++ ")"
  | .set f args rhs => "(set " ++ (Expr.call f args).text ++ " " ++ rhs.text ++ ")"
  | .change c f args => "(" ++ c.text ++ " " ++ (Expr.call f args).text ++ ")"
  | .union a b => "(union " ++ a.text ++ " " ++ b.text ++ ")"
  | .abort msg => "(panic " ++ Text.quote msg ++ ")"
  | .eval e => e.text

end Action

namespace Rule

/-- The text of a rule, which also names a rule declared without a name. -/
def text (r : Rule) : String :=
  "(rule (" ++ joinWith " " (r.body.map Fact.text) ++ ") (" ++
    joinWith " " (r.head.map Action.text) ++ "))"

end Rule

namespace Rewrite

/-- The variable a rewrite binds to its left side. -/
def lhsVar : String := "$rewrite_lhs"

/-- The rule a rewrite stands for. -/
def toRule (rw : Rewrite) (subsume : Bool) : Rule :=
  let v := Expr.var lhsVar
  let body := Fact.eq [v, rw.lhs] :: rw.conditions
  let extra := match subsume, rw.lhs with
    | true, .call f args => [Action.change .subsume f args]
    | _, _ => []
  { head := Action.union v rw.rhs :: extra, body := body }

/-- The rewrite in the other direction. -/
def reversed (rw : Rewrite) : Rewrite := { rw with lhs := rw.rhs, rhs := rw.lhs }

end Rewrite

namespace FunctionDecl

/-- A constructor: no default, no merge. -/
def constructor (name : String) (inputs : List String) (output : String) (cost : Option Nat) :
    FunctionDecl :=
  { name, inputs, output, default := none, merge := none, cost, unextractable := false }

/-- A relation: a function to `Unit`. -/
def relation (name : String) (inputs : List String) : FunctionDecl :=
  { name, inputs, output := "Unit", default := none, merge := none, cost := none,
    unextractable := false }

end FunctionDecl

end Saturate
