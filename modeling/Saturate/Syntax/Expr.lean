import Saturate.Binary64.Text

/-!
Literals and expressions of the command language, and their s-expression
text: a call prints as `(head arg …)`, a nullary call as `(head)`, a string
literal between double quotes as it is, a float literal in the literal style
of `Binary64.literalText`, and unit as `()`.

Literal terms are compared the way the engine's term tables compare them:
two float literals are the same term when they are equal as numbers or both
NaN, so `0.0` and `-0.0` are one term. `Literal.key` is that comparison as a
canonical form.
-/

namespace Saturate

/-- A literal: an `i64`, an `f64` bit pattern, a string, a boolean or unit. -/
inductive Literal where
  | int (i : Int)
  | float (bits : UInt64)
  | string (s : String)
  | bool (b : Bool)
  | unit
  deriving DecidableEq, Hashable, Repr, Inhabited

namespace Literal

/-- The canonical form of a literal term: NaNs collapse to one pattern and the
negative zero to the positive one. -/
def key : Literal → Literal
  | .float bits =>
    if Binary64.isNaN bits then .float Binary64.nanBits
    else if bits = 0x8000000000000000 then .float 0
    else .float bits
  | l => l

/-- Whether two literals are the same term. -/
def same (a b : Literal) : Bool := a.key == b.key

/-- The text of a literal. -/
def text : Literal → String
  | .int i => toString i
  | .float bits => Binary64.literalText bits
  | .string s => "\"" ++ s ++ "\""
  | .bool b => if b then "true" else "false"
  | .unit => "()"

end Literal

/-- An expression: a literal, a variable, or a call of a function or
primitive. -/
inductive Expr where
  | lit (l : Literal)
  | var (name : String)
  | call (head : String) (args : List Expr)
  deriving Repr, Inhabited

namespace Expr

/-- The s-expression text of an expression. -/
def text : Expr → String
  | .lit l => l.text
  | .var v => v
  | .call head args => "(" ++ head ++ String.join (args.attach.map fun ⟨a, _⟩ => " " ++ a.text) ++ ")"

/-- The variables of an expression, in order and with repeats. -/
def vars : Expr → List String
  | .lit _ => []
  | .var v => [v]
  | .call _ args => (args.attach.map fun ⟨a, _⟩ => a.vars).flatten

end Expr

/-- Items joined by a separator. -/
def joinWith (sep : String) : List String → String
  | [] => ""
  | x :: xs => xs.foldl (fun acc y => acc ++ sep ++ y) x

end Saturate
