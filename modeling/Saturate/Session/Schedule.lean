import Saturate.Session.Check

/-!
Running schedules.

One iteration of a ruleset (`runRules`) rebuilds, advances the clock, stops
if the run's stopping facts hold, and otherwise searches every rule of the
ruleset (of its members, for a combined ruleset, each rule once) before
applying any: every match runs the rule's actions, and a rule without
variables runs once if it matched. The clock advances again; the iteration
updated the database if a table was written in it or a union happened.

A rule keeps at most `matchLimit` matches per iteration; a rule that had
more is searched over the same rows again next time, since its last-run
time is only moved when its search was complete.

`saturate` repeats a schedule until an iteration updates nothing, at most
`iterationLimit` times; `repeat n` runs it `n` times or until nothing is
updated; a sequence runs its members in order. Reaching the node limit stops
every enclosing schedule.
-/

namespace Saturate

/-- The matches of one rule in one iteration. -/
structure SearchResult where
  name : String
  rule : CompiledRule
  found : List (List Value)
  truncated : Bool

namespace Engine

/-- Search the rules of a ruleset, skipping rules already searched; combined
rulesets nest at most `fuel` deep. -/
def searchRules : Nat → String → RunReport → Array SearchResult → Engine (RunReport × Array SearchResult)
  | 0, _, report, results => pure (report, results)
  | fuel + 1, name, report, results => do
    let d ← db
    match d.ruleset? name with
    | none => fail (.noSuchRuleset name)
    | some (.rules rs) =>
      let mut results := results
      for (rname, rule) in rs do
        if results.any (·.name == rname) then continue
        let (found, truncated) ← if rule.unsat then pure ([], false)
          else do
            let d ← db
            let since := if d.options.seminaive then d.lastRun.getD rname 0 else 0
            let limit := d.options.matchLimit
            let found ← matchesOf rule.query since false (limit + 1)
            pure (found.take limit, found.length > limit)
        results := results.push ⟨rname, rule, found, truncated⟩
      pure (report.touch name, results)
    | some (.combined members) =>
      let mut acc := (report, results)
      for m in members do
        acc ← searchRules fuel m acc.1 acc.2
      pure (acc.1.touch name, acc.2)

/-- Apply the search results in order. -/
def applyRules (report : RunReport) (results : Array SearchResult) : Engine RunReport := do
  let mut report := report
  for r in results do
    report := { report with matchCounts := addCount report.matchCounts r.name r.found.length }
    if !r.truncated then
      let ts := (← db).timestamp
      modifyDb fun d => { d with lastRun := d.lastRun.insert r.name ts }
    if r.rule.query.vars.isEmpty then
      if !r.found.isEmpty then
        let _ ← runProgram r.rule.program #[]
        report := { report with applyCounts := addCount report.applyCounts r.name 1 }
    else
      for m in r.found do
        let _ ← runProgram r.rule.program m.toArray
      report := { report with applyCounts := addCount report.applyCounts r.name r.found.length }
  pure report

/-- Search and apply every rule of a ruleset once. -/
def stepRules (ruleset : String) : Engine RunReport := do
  let unionsBefore := (← db).unionFind.unions
  let (report, results) ← searchRules ((← db).rulesets.length + 1) ruleset .empty #[]
  let report ← applyRules report results
  let d ← db
  let changed := d.funcs.any (·.table.maxTimestamp ≥ d.timestamp) || d.unionFind.unions ≠ unionsBefore
  pure { report with updated := report.updated || changed }

/-- One iteration of a ruleset. -/
def runRules (config : RunConfig) : Engine RunReport := do
  if ((← db).ruleset? config.ruleset).isNone then fail (.noSuchRuleset config.ruleset)
  let _ ← rebuild
  let report := RunReport.empty.touch config.ruleset
  modifyDb fun d => { d with timestamp := d.timestamp + 1 }
  if let some facts := config.stopWhen then
    if ← holds facts then return { report with stopReason := some .condition }
  let report := report.union (← stepRules config.ruleset)
  modifyDb fun d => { d with timestamp := d.timestamp + 1 }
  let d ← db
  let report := if d.numTuples > d.options.nodeLimit then
      { report with stopReason := some (.nodeLimit d.options.nodeLimit) }
    else report
  let total := report.matchCounts.foldl (fun n (_, k) => n + k) 0
  pure { report with
    iterations := report.iterations + 1
    perIteration := report.perIteration.push ⟨config.ruleset, report.updated, total, d.numTuples⟩ }

section Loops

variable {m : Type → Type} [Monad m]

/-- Run a schedule `n` times or until a run updates nothing or halts. -/
def repeatRuns (body : m RunReport) : Nat → RunReport → m RunReport
  | 0, report => pure report
  | n + 1, report => do
    let r ← body
    let report := report.union r
    if !r.updated || r.halted then pure report else repeatRuns body n report

/-- Run a schedule until a run updates nothing or halts, at most `fuel` more times
after `rounds` runs. -/
def saturateRuns (body : m RunReport) (limit : Nat) : Nat → Nat → RunReport → m RunReport
  | 0, rounds, report => pure { report with stopReason := some (.exhausted rounds) }
  | fuel + 1, rounds, report => do
    let r ← body
    let report := report.union r
    if r.halted then pure report
    else if !r.updated then
      pure (if r.stopReason.isNone then { report with stopReason := some .saturated } else report)
    else saturateRuns body limit fuel (rounds + 1) report

/-- Run schedules in order until one halts. -/
def seqRuns : List (m RunReport) → RunReport → m RunReport
  | [], report => pure report
  | body :: rest, report => do
    let report := report.union (← body)
    if report.halted then pure report else seqRuns rest report

end Loops

/-- Run a schedule. -/
def runSchedule : Schedule → Engine RunReport
  | .run config => runRules config
  | .repeat n s => repeatRuns (runSchedule s) n .empty
  | .saturate s => do
    let limit := (← db).options.iterationLimit
    saturateRuns (runSchedule s) limit limit 0 .empty
  | .seq ss => seqRuns (ss.attach.map fun ⟨s, _⟩ => runSchedule s) .empty

end Engine

end Saturate
