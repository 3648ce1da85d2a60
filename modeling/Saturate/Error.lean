import Saturate.Syntax.Command
import Saturate.Value

/-!
Errors of a session, and their messages.

`TypeError` holds what typing rejects; `Error` holds everything a command or
an API call can fail with, and a command that fails is rolled back.
`Failure` adds the two ways a run can end without an answer: an internal
fault (an e-class id that was never made, a table index past the end) and
evaluation nested too deeply, as with a default that calls its own function.
-/

namespace Saturate

/-- What typing rejects. Sorts are named by their names. -/
inductive TypeError where
  | arity (e : Expr) (expected : Nat)
  | mismatch (e : Expr) (expected actual : String)
  | unbound (name : String)
  | undefinedSort (name : String)
  | disallowedSort (name : String) (reason : String)
  | unboundFunction (name : String)
  | functionAlreadyBound (name : String)
  | sortAlreadyBound (name : String)
  | primitiveAlreadyBound (name : String)
  | functionTypeMismatch (function sort : String)
  | presortNotFound (name : String)
  | presortArgument (presort : String) (e : Expr)
  | inferenceFailure (e : Expr)
  | ambiguous (e : Expr) (candidates : List String)
  | alreadyDefined (name : String)
  | allAlternativesFailed (errors : List TypeError)
  | nonEqUnion (sort : String)
  | ungrounded (name : String)
  | mergeOnEqSort (name : String)
  | setPrimitive (name : String)
  deriving Repr, Inhabited

namespace TypeError

/-- The message of a type error. -/
def message : TypeError → String
  | .arity e n => "Arity mismatch, expected " ++ toString n ++ " args: " ++ e.text
  | .mismatch e s1 s2 =>
    "Expect expression " ++ e.text ++ " to have type " ++ s1 ++ ", but get type " ++ s2
  | .unbound v => "Unbound symbol " ++ v
  | .undefinedSort s => "Undefined sort " ++ s
  | .disallowedSort s why => "Sort " ++ s ++ " definition is disallowed: " ++ why
  | .unboundFunction f => "Unbound function " ++ f
  | .functionAlreadyBound f => "Function already bound " ++ f
  | .sortAlreadyBound s => "Sort " ++ s ++ " already declared."
  | .primitiveAlreadyBound p => "Primitive " ++ p ++ " already declared."
  | .functionTypeMismatch f s => "Function " ++ f ++ " does not have the signature of sort " ++ s
  | .presortNotFound p => "Presort " ++ p ++ " not found."
  | .presortArgument p e => "Invalid argument to presort " ++ p ++ ": " ++ e.text
  | .inferenceFailure e => "Failed to infer a type for: " ++ e.text
  | .ambiguous e cs => "Ambiguous type for " ++ e.text ++ ", candidates: " ++ joinWith ", " cs
  | .alreadyDefined v => "Variable " ++ v ++ " was already defined"
  | .allAlternativesFailed es =>
    "All alternative definitions considered failed\n" ++
      String.join (es.attach.map fun ⟨e, _⟩ => "  " ++ e.message ++ "\n")
  | .nonEqUnion s => "Cannot union values of sort " ++ s
  | .ungrounded v => "Variable " ++ v ++ " is not bound by any function in the query"
  | .mergeOnEqSort f => "Function " ++ f ++ " has an eq sort output and cannot have a merge expression"
  | .setPrimitive f => "Cannot set or change " ++ f ++ ", which is a primitive"

end TypeError

/-- What a command or an API call fails with. -/
inductive Error where
  | notFound (msg : String)
  | type (e : TypeError)
  | checkFailed (facts : List Fact)
  | noSuchRuleset (name : String)
  | rulesetExists (name : String)
  | combinedRuleset (name : String)
  | ruleExists (name ruleset : String)
  | primitiveFailed (name : String) (args : List Value)
  | mergeConflict (function : String) (old new : Value)
  | notExtractable (v : Value)
  | popTooMuch
  | expectedFailure
  | subsumeWithMerge (function : String)
  | aborted (msg : String)
  | invalidOption (name : String) (value : Expr)
  deriving Repr, Inhabited

namespace Error

/-- The message of an error. -/
def message : Error → String
  | .notFound msg => "Not found: " ++ msg
  | .type e => e.message
  | .checkFailed facts => "Check failed: \n" ++ joinWith "\n" (facts.map Fact.text)
  | .noSuchRuleset r => "No such ruleset: " ++ r
  | .rulesetExists r => "Ruleset " ++ r ++ " was already present"
  | .combinedRuleset r =>
    "Attempted to add a rule to combined ruleset " ++ r ++
      ". Combined rulesets may only depend on other rulesets."
  | .ruleExists n r => "Rule " ++ n ++ " was already present in ruleset " ++ r
  | .primitiveFailed p vs =>
    "Evaluating primitive Prim(" ++ p ++ ") failed. (" ++ p ++ " " ++
      joinWith " " (vs.map Value.debugText) ++ ")"
  | .mergeConflict f old new =>
    "Illegal merge attempted for function " ++ f ++ ", " ++ old.debugText ++ " != " ++ new.debugText
  | .notExtractable v => "No term can be extracted for " ++ v.debugText
  | .popTooMuch => "Tried to pop too much"
  | .expectedFailure => "Command should have failed."
  | .subsumeWithMerge f => "Cannot subsume function with merge: " ++ f
  | .aborted msg => "Panic: " ++ msg
  | .invalidOption n v => "Invalid option " ++ n ++ " = " ++ v.text

/-- The values an error's message shows. -/
def values : Error → List Value
  | .primitiveFailed _ vs => vs
  | .mergeConflict _ a b => [a, b]
  | .notExtractable v => [v]
  | _ => []

end Error

/-- How a step can end other than with a value. -/
inductive Failure where
  /-- An error of the engine: the command is rolled back. -/
  | error (e : Error)
  /-- An internal fault with its message: the session cannot go on. -/
  | fault (msg : String)
  /-- Evaluation nested deeper than any terminating program needs. -/
  | overflow
  deriving Repr, Inhabited

/-- A type error as a failure. -/
def Failure.typeError (e : TypeError) : Failure := .error (.type e)

end Saturate
