import Std.Data.HashMap
import Saturate.Typing.Core

/-!
Sort inference as constraint solving. Every atom contributes constraints
over its terms: equal sorts, a given sort, all of a list, exactly one of a
list of alternatives (an overloaded head), or an impossibility found while
generating them. Solving propagates to a fixpoint; an alternative is
committed only once every other one has failed, and a sort once assigned to
a term never changes. Sorts are compared by name.

Each productive pass assigns a sort to one more term, so the passes are
bounded by the number of term occurrences, which is the fuel of
`Problem.solve`.
-/

namespace Saturate

/-- Why an alternative cannot hold. -/
inductive Impossible where
  | arity (atom : Atom String) (expected actual : Nat)
  | functionMismatch (function sort : String)
  deriving Repr, Inhabited

/-- A constraint on the sorts of terms. -/
inductive Constraint where
  | eq (x y : AtomTerm)
  | assign (x : AtomTerm) (s : SortInfo)
  | all (cs : List Constraint)
  | oneOf (cs : List Constraint)
  | impossible (why : Impossible)
  deriving Repr, Inhabited

/-- Why solving failed. -/
inductive ConstraintError where
  | inconsistent (x : AtomTerm) (expected actual : SortInfo)
  | unconstrained (x : AtomTerm)
  | ambiguous (x : AtomTerm) (candidates : List SortInfo)
  | noneSatisfied (errors : List ConstraintError)
  | impossible (why : Impossible)
  deriving Repr, Inhabited

/-- Sorts assigned to terms, keyed by `AtomTerm.key`. -/
abbrev Assignment := Std.HashMap AtomTerm SortInfo

namespace Assignment

/-- The sort of a term. -/
def sortOf? (a : Assignment) (t : AtomTerm) : Option SortInfo := a.get? t.key

/-- Assign a sort to a term. -/
def assign (a : Assignment) (t : AtomTerm) (s : SortInfo) : Assignment := a.insert t.key s

end Assignment

namespace Constraint

mutual

/-- Update an assignment by one constraint, telling whether it grew. -/
def update : Constraint → Assignment → Except ConstraintError (Assignment × Bool)
  | .eq x y, a =>
    match a.sortOf? x, a.sortOf? y with
    | some s, none => .ok (a.assign y s, true)
    | none, some s => .ok (a.assign x s, true)
    | some s1, some s2 =>
      if s1.name = s2.name then .ok (a, false) else .error (.inconsistent x s1 s2)
    | none, none => .ok (a, false)
  | .assign x s, a =>
    match a.sortOf? x with
    | none => .ok (a.assign x s, true)
    | some s' => if s'.name = s.name then .ok (a, false) else .error (.inconsistent x s s')
  | .all cs, a => updateAll cs a false
  | .oneOf cs, a =>
    let (survivors, errors) := tryEach cs a
    match survivors with
    | [] => .error (.noneSatisfied errors)
    | [(a', grew)] => .ok (a', grew)
    | _ => .ok (a, false)
  | .impossible why, _ => .error (.impossible why)

/-- Update by each constraint in turn, stopping at the first error. -/
def updateAll : List Constraint → Assignment → Bool → Except ConstraintError (Assignment × Bool)
  | [], a, grew => .ok (a, grew)
  | c :: cs, a, grew =>
    match update c a with
    | .error e => .error e
    | .ok (a, g) => updateAll cs a (grew || g)

/-- Try each alternative on its own copy: the survivors with their
assignments, and the errors of the others, both in order. -/
def tryEach : List Constraint → Assignment →
    List (Assignment × Bool) × List ConstraintError
  | [], _ => ([], [])
  | c :: cs, a =>
    let (ss, es) := tryEach cs a
    match update c a with
    | .ok r => (r :: ss, es)
    | .error e => (ss, e :: es)

end

mutual

/-- The sorts that some feasible alternative of an undecided choice would
give a term, added to `out` without repeating a name. -/
def candidates (x : AtomTerm) (a : Assignment) : Constraint → List SortInfo → List SortInfo
  | .oneOf cs, out => candidatesOneOf x a cs out
  | .all cs, out => candidatesAll x a cs out
  | _, out => out

/-- Candidates of the alternatives of a choice. -/
def candidatesOneOf (x : AtomTerm) (a : Assignment) : List Constraint → List SortInfo → List SortInfo
  | [], out => out
  | c :: cs, out =>
    let out := match update c a with
      | .ok (a', _) =>
        match a'.sortOf? x with
        | some s => if out.any (·.name == s.name) then out else out ++ [s]
        | none => out
      | .error _ => out
    candidatesOneOf x a cs out

/-- Candidates of the members of a conjunction. -/
def candidatesAll (x : AtomTerm) (a : Assignment) : List Constraint → List SortInfo → List SortInfo
  | [], out => out
  | c :: cs, out => candidatesAll x a cs (candidates x a c out)

end

/-- The number of term occurrences in a constraint. -/
def size : Constraint → Nat
  | .eq _ _ => 2
  | .assign _ _ => 1
  | .all cs | .oneOf cs => (cs.attach.map fun ⟨c, _⟩ => c.size).foldl (· + ·) 0
  | .impossible _ => 0

end Constraint

/-- A list of constraints. -/
abbrev Problem := List Constraint

namespace Problem

/-- One pass over all constraints in order. -/
def pass (p : Problem) (a : Assignment) : Except ConstraintError (Assignment × Bool) :=
  Constraint.updateAll p a false

/-- Passes until one changes nothing. -/
def fixpoint (p : Problem) : Nat → Assignment → Except ConstraintError Assignment
  | 0, a => .ok a
  | fuel + 1, a =>
    match p.pass a with
    | .error e => .error e
    | .ok (a, grew) => if grew then p.fixpoint fuel a else .ok a

/-- Solve, then require a sort for every term of `range`, in order: the first
term without one is ambiguous when undecided choices offer it several sorts,
and unconstrained otherwise. -/
def solve (p : Problem) (range : List AtomTerm) : Except ConstraintError Assignment := do
  let a ← p.fixpoint ((p.map Constraint.size).foldl (· + ·) 0 + 1) {}
  match range.find? fun t => (a.sortOf? t).isNone with
  | none => pure a
  | some t =>
    let cands := p.foldl (fun out c => c.candidates t a out) []
    if cands.length > 1 then throw (.ambiguous t cands) else throw (.unconstrained t)

end Problem

/-- The type error a solving error stands for: a single failed alternative
is reported as itself. -/
def ConstraintError.toTypeError : ConstraintError → TypeError
  | .inconsistent x s1 s2 => .mismatch x.toExpr s1.name s2.name
  | .unconstrained x => .inferenceFailure x.toExpr
  | .ambiguous x cs => .ambiguous x.toExpr (cs.map SortInfo.name)
  | .noneSatisfied es =>
    match es.attach with
    | [⟨e, _⟩] => e.toTypeError
    | es => .allAlternativesFailed (es.map fun ⟨e, _⟩ => e.toTypeError)
  | .impossible (.arity atom expected _) => .arity atom.toExpr expected
  | .impossible (.functionMismatch f s) => .functionTypeMismatch f s

end Saturate
