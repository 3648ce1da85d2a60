import Saturate.Syntax.Expr

/-!
Run reports: what running a schedule did. Reports of consecutive runs are
combined by `RunReport.union`, which adds the counts, concatenates the
iteration reports, and keeps the later stop reason unless it has none.
-/

namespace Saturate

/-- Why a schedule stopped. -/
inductive StopReason where
  /-- An iteration changed nothing. -/
  | saturated
  /-- A saturation ran out of iterations. -/
  | exhausted (n : Nat)
  /-- The database grew past the node limit. -/
  | nodeLimit (n : Nat)
  /-- The facts of a run's stopping condition held. -/
  | condition
  deriving DecidableEq, Repr, Inhabited

/-- The text of a stop reason. -/
def StopReason.text : StopReason → String
  | .saturated => "saturated"
  | .exhausted n => "exhausted after " ++ toString n ++ " iterations"
  | .nodeLimit n => "node limit " ++ toString n ++ " reached"
  | .condition => "until condition met"

/-- What one iteration of one ruleset did. -/
structure IterationReport where
  ruleset : String
  updated : Bool
  numMatches : Nat
  numTuples : Nat
  deriving Repr, Inhabited

/-- Add `n` to the count of `key`, appending the key when it is new. -/
def addCount (counts : List (String × Nat)) (key : String) (n : Nat) : List (String × Nat) :=
  if counts.any (·.1 == key) then counts.map fun (k, m) => if k == key then (k, m + n) else (k, m)
  else counts ++ [(key, n)]

/-- What running a schedule did. -/
structure RunReport where
  updated : Bool
  iterations : Nat
  stopReason : Option StopReason
  /-- Matches found per rule. -/
  matchCounts : List (String × Nat)
  /-- Times the actions ran per rule. -/
  applyCounts : List (String × Nat)
  /-- The rulesets that were searched, applied or rebuilt. -/
  rulesets : List String
  perIteration : Array IterationReport
  deriving Repr, Inhabited

namespace RunReport

/-- The report of running nothing. -/
def empty : RunReport := ⟨false, 0, none, [], [], [], #[]⟩

/-- Note that a ruleset took part. -/
def touch (r : RunReport) (ruleset : String) : RunReport :=
  if r.rulesets.contains ruleset then r else { r with rulesets := r.rulesets ++ [ruleset] }

/-- The report of running `a` and then `b`. -/
def union (a b : RunReport) : RunReport where
  updated := a.updated || b.updated
  iterations := a.iterations + b.iterations
  stopReason := b.stopReason.or a.stopReason
  matchCounts := b.matchCounts.foldl (fun acc (k, n) => addCount acc k n) a.matchCounts
  applyCounts := b.applyCounts.foldl (fun acc (k, n) => addCount acc k n) a.applyCounts
  rulesets := b.rulesets.foldl (fun acc r => if acc.contains r then acc else acc ++ [r]) a.rulesets
  perIteration := a.perIteration ++ b.perIteration

/-- Whether enclosing schedules stop: the node limit was reached. -/
def halted (r : RunReport) : Bool :=
  match r.stopReason with
  | some (.nodeLimit _) => true
  | _ => false

/-- A summary text of a report. -/
def text (r : RunReport) : String :=
  let rules := r.matchCounts.map fun (k, n) => "Rule " ++ k ++ ": num matches " ++ toString n ++ "\n"
  let sets := r.rulesets.map fun k => "Ruleset " ++ k ++ "\n"
  String.join rules ++ String.join sets ++ toString r.iterations ++ " iterations" ++
    (match r.stopReason with
     | some s => ", " ++ s.text
     | none => "")

end RunReport

end Saturate
