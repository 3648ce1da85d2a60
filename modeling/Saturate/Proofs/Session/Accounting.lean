import Mathlib
import Saturate.Proofs.Session.Narrow
import Saturate.Proofs.Session.Changes
import Saturate.Proofs.Session.Iteration
import Saturate.Proofs.Session.Limits
import Saturate.Proofs.Report.Counts
import Saturate.Proofs.Query.Closed

/-!
# Run reports account for the iterations run

The report of a schedule is put together from the reports of the iterations it ran, by
`RunReport.union` at every loop. A run that notes every iteration it finishes
(`Engine.runScheduleLogged`, which runs as `Engine.runSchedule` does) shows which: the report
counts one iteration for each noted iteration that got past its stopping condition, lists their
iteration reports in the order they ran, adds up the matches each rule had in them, and updated
the database if one of them did (`reports_account_for_the_iterations_run`).

A rule's actions run once per match, and once at most for a rule without variables, so the
applications counted for a rule equal its matches only if the search of a rule without
variables finds at most one match. It does (`CompiledQuery.run_finds_at_most_one`) over tables
whose rows are no wider than their functions and indexed, for rules whose atoms have an
argument for every input and the output of their function (`Database.Searchable`); running
schedules keeps that so.
-/

open Std.Do

set_option mvcgen.warning false

namespace Saturate

/-! ### Databases whose searches find a rule without variables once -/

/-- A compiled query fits a database: every variable of an atom is a variable of the query, and
every atom has an argument for each input of its function and one for its output. -/
def CompiledQuery.FitsIn (q : CompiledQuery) (d : Database) : Prop :=
  (∀ a ∈ q.atoms, ∀ v ∈ a.vars, v ∈ q.vars) ∧
    ∀ a ∈ q.atoms, ∀ f, d.func? a.func = some f → f.inputs.length + 1 ≤ a.args.length

/-- The query of every rule of every ruleset fits the database. -/
def Database.RulesFit (d : Database) : Prop :=
  ∀ name rs, d.ruleset? name = some (.rules rs) → ∀ e ∈ rs, e.2.query.FitsIn d

/-- What the searches of a run need of a database: indexed tables whose rows are no wider than
their functions, an index that sends each name to its function, and rules that fit. -/
structure Database.Searchable (d : Database) : Prop where
  indexed : d.Indexed
  narrow : d.Narrow
  names : d.NamesIndexed
  rules : d.RulesFit

namespace Database

theorem Write.rulesets_eq {d d' : Database} (w : d.Write d') : d'.rulesets = d.rulesets := by
  cases w <;> rfl

theorem Writes.rulesets_eq {d d' : Database} (w : d.Writes d') : d'.rulesets = d.rulesets := by
  induction w with
  | refl => rfl
  | tail _ step ih => exact step.rulesets_eq.trans ih

theorem FitsIn.of_shape {q : CompiledQuery} {d d' : Database} (same : d'.shape = d.shape)
    (h : q.FitsIn d) : q.FitsIn d' := by
  refine ⟨h.1, fun a mem f' found => ?_⟩
  have inputs := inputs_func?_of_shape same a.func
  rw [found] at inputs
  obtain ⟨f, found, eq⟩ := Option.map_eq_some_iff.mp inputs.symm
  exact eq ▸ h.2 a mem f found

theorem RulesFit.of_shape {d d' : Database} (same : d'.shape = d.shape)
    (rulesets : d'.rulesets = d.rulesets) (h : d.RulesFit) : d'.RulesFit := by
  intro name rs found e mem
  have found' : d.ruleset? name = some (.rules rs) := by
    rw [ruleset?, ← rulesets]
    exact found
  exact FitsIn.of_shape same (h name rs found' e mem)

/-- Writes that leave the tables within their functions' inputs keep a database searchable. -/
theorem Searchable.of_writes {d d' : Database} (h : d.Searchable) (w : d.Writes d')
    (narrow : d'.Narrow) : d'.Searchable where
  indexed := (Changes.of_writes w).indexed h.indexed
  narrow := narrow
  names := h.names.of_shape w.shape_eq
  rules := h.rules.of_shape w.shape_eq w.rulesets_eq

theorem searchable_lastRun (d : Database) (lastRun : Std.HashMap String Nat) :
    ({ d with lastRun := lastRun } : Database).Searchable ↔ d.Searchable :=
  ⟨fun h => ⟨h.1, h.2, h.3, h.4⟩, fun h => ⟨h.1, h.2, h.3, h.4⟩⟩

theorem searchable_timestamp (d : Database) (ts : Nat) :
    ({ d with timestamp := ts } : Database).Searchable ↔ d.Searchable :=
  ⟨fun h => ⟨h.1, h.2, h.3, h.4⟩, fun h => ⟨h.1, h.2, h.3, h.4⟩⟩

/-- The members of a combined ruleset met so far reach the rules met, each from one member. -/
theorem mem_foldlM_append {α : Type} {f : String → Except Error (List α)} {members : List String}
    {acc reached : List α} (h : members.foldlM (fun acc m => (acc ++ ·) <$> f m) acc = .ok reached)
    {e : α} (mem : e ∈ reached) : e ∈ acc ∨ ∃ m ∈ members, ∃ more, f m = .ok more ∧ e ∈ more := by
  induction members generalizing acc with
  | nil =>
    cases h
    exact .inl mem
  | cons m rest ih =>
    rw [List.foldlM_cons] at h
    rcases found : f m with err | more
    · rw [found] at h
      cases h
    · rw [found] at h
      rcases ih h with old | ⟨m', mem', more', found', later⟩
      · rcases List.mem_append.mp old with old | new
        · exact .inl old
        · exact .inr ⟨m, List.mem_cons_self, more, found, new⟩
      · exact .inr ⟨m', List.mem_cons_of_mem m mem', more', found', later⟩

/-- Every rule a ruleset reaches is a rule of a ruleset of its own rules. -/
theorem mem_rulesReached {d : Database} {fuel : Nat} {name : String}
    {reached : List (String × CompiledRule)} (h : d.rulesReached fuel name = .ok reached)
    {e : String × CompiledRule} (mem : e ∈ reached) :
    ∃ n rs, d.ruleset? n = some (.rules rs) ∧ e ∈ rs := by
  induction fuel generalizing name reached with
  | zero =>
    cases h
    cases mem
  | succ fuel ih =>
    rcases found : d.ruleset? name with _ | ⟨rs | members⟩
    · simp [rulesReached, found] at h
    · rw [rulesReached_rules found fuel, Except.ok.injEq] at h
      subst h
      exact ⟨name, _, found, mem⟩
    · rw [rulesReached_combined found fuel] at h
      rcases mem_foldlM_append h mem with none | ⟨m, -, more, reaches, later⟩
      · cases none
      · exact ih reaches later

end Database

/-! ### A rule without variables matches at most once -/

/-- **The search of a rule without variables over a searchable database finds one match at
most.** -/
theorem SearchResult.SearchedIn.found_le_one {d : Database} {r : SearchResult} (h : r.SearchedIn d)
    (searchable : d.Searchable) (fits : r.rule.query.FitsIn d) (novars : r.rule.query.vars = []) :
    r.found.length ≤ 1 := by
  unfold SearchResult.SearchedIn at h
  split at h
  · rw [h.1]
    simp
  · obtain ⟨p, found, p', ran, taken, -⟩ := h
    -- the rows of an atom's table are those of its function, if it has one
    have narrow : ∀ a ∈ r.rule.query.atoms, ∀ e ∈ ((d.tableOf a.func).rows false).map (·.2),
        e.inputs.length + 1 ≤ a.args.length := by
      intro a mem e row
      unfold Database.tableOf at row
      rcases named : d.func? a.func with _ | f
      · rw [named] at row
        simp [Table.rows, Table.empty] at row
      · rw [named] at row
        have within := searchable.narrow f (Database.mem_of_func? named) e
          (Array.mem_toList_iff.mpr (Table.mem_rows row).1)
        have wide := fits.2 a mem f named
        omega
    have indexed : ∀ a ∈ r.rule.query.atoms, (d.tableOf a.func).Indexed := by
      intro a _
      unfold Database.tableOf
      rcases named : d.func? a.func with _ | f
      · exact Table.empty_indexed
      · exact searchable.indexed f (Database.mem_of_func? named)
    have once := CompiledQuery.run_finds_at_most_one fits.1 novars narrow indexed _ _ ran
    rw [taken]
    exact (List.length_take_le' _ _).trans once

/-! ### Reports of one iteration -/

/-- A report's counts are keyed and give every rule as many applications as matches. -/
def RunReport.Balanced (r : RunReport) : Prop :=
  Keyed r.matchCounts ∧ Keyed r.applyCounts ∧ ∀ k, countOf r.applyCounts k = countOf r.matchCounts k

namespace RunReport.Balanced

variable {r : RunReport}

/-- Counting `n` matches and as many applications of a rule keeps a report balanced. -/
theorem add (h : r.Balanced) (name : String) {n m : Nat} (same : m = n) :
    ({ r with
        matchCounts := addCount r.matchCounts name n
        applyCounts := addCount r.applyCounts name m } : RunReport).Balanced := by
  obtain ⟨keyedM, keyedA, agree⟩ := h
  refine ⟨keyed_addCount keyedM name n, keyed_addCount keyedA name m, fun k => ?_⟩
  simp only [countOf_addCount, agree, same]

/-- Counting the one match of a rule and one application keeps a report balanced. -/
theorem add_once (h : r.Balanced) (name : String) {found : List (List Value)}
    (once : found.length ≤ 1) (nonempty : (!found.isEmpty) = true) :
    ({ r with
        matchCounts := addCount r.matchCounts name found.length
        applyCounts := addCount r.applyCounts name 1 } : RunReport).Balanced := by
  have one : 1 = found.length := by
    cases found with
    | nil => simp at nonempty
    | cons m rest => simp at once ⊢; omega
  exact h.add name one

/-- Counting no match of a rule keeps a report balanced. -/
theorem add_zero (h : r.Balanced) (name : String) :
    ({ r with matchCounts := addCount r.matchCounts name 0 } : RunReport).Balanced := by
  obtain ⟨keyedM, keyedA, agree⟩ := h
  refine ⟨keyed_addCount keyedM name 0, keyedA, fun k => ?_⟩
  simp [countOf_addCount, agree]

end RunReport.Balanced

/-- Everything a report says but the rulesets it names. -/
def RunReport.counts (r : RunReport) :
    Bool × Nat × Option StopReason × List (String × Nat) × List (String × Nat) × Array IterationReport :=
  (r.updated, r.iterations, r.stopReason, r.matchCounts, r.applyCounts, r.perIteration)

/-- A report that counts nothing is balanced. -/
theorem RunReport.balanced_of_counts {r : RunReport} (h : r.counts = RunReport.empty.counts) :
    r.Balanced := by
  simp only [counts, empty, Prod.mk.injEq] at h
  obtain ⟨-, -, -, matched, applied, -⟩ := h
  refine ⟨?_, ?_, fun k => ?_⟩ <;> simp [Keyed, matched, applied]

theorem RunReport.balanced_updated (r : RunReport) (b : Bool) :
    ({ r with updated := b } : RunReport).Balanced ↔ r.Balanced := Iff.rfl

/-- The union of balanced reports is balanced. -/
theorem RunReport.Balanced.union {a b : RunReport} (ha : a.Balanced) (hb : b.Balanced) :
    (a.union b).Balanced := by
  refine ⟨keyed_union_matchCounts ha.1 b, keyed_union_applyCounts ha.2.1 b, fun k => ?_⟩
  rw [countOf_union_applyCounts a b hb.2.1, countOf_union_matchCounts a b hb.1, ha.2.2, hb.2.2]

theorem RunReport.counts_touch (r : RunReport) (ruleset : String) : (r.touch ruleset).counts = r.counts := by
  unfold RunReport.touch
  split
  · rfl
  · rfl

theorem mem_of_mem_firstOfEachName {seen : List String} {l : List (String × CompiledRule)}
    {e : String × CompiledRule} (mem : e ∈ firstOfEachName seen l) : e ∈ l := by
  induction l generalizing seen with
  | nil => simp [firstOfEachName] at mem
  | cons x rest ih =>
    unfold firstOfEachName at mem
    split at mem
    · exact List.mem_cons_of_mem x (ih mem)
    · rcases List.mem_cons.mp mem with rfl | later
      · exact List.mem_cons_self
      · exact List.mem_cons_of_mem x (ih later)

namespace Engine

/-- Searching names rulesets in the report and counts nothing. -/
theorem searchRules_counts (fuel : Nat) (name : String) (report : RunReport)
    (results : Array SearchResult) :
    ⦃fun _ => ⌜True⌝⦄ searchRules fuel name report results
    ⦃post⟨fun out _ => ⌜out.1.counts = report.counts⌝, fun _ _ => ⌜True⌝⟩⦄ := by
  induction fuel generalizing name report results with
  | zero => mvcgen [searchRules]
  | succ fuel ih =>
    mvcgen [searchRules, ih]
    case inv1 => exact post⟨fun _ _ => ⌜True⌝, fun _ _ => ⌜True⌝⟩
    case inv2 => exact post⟨fun acc _ => ⌜acc.2.1.counts = report.counts⌝, fun _ _ => ⌜True⌝⟩
    all_goals grind [RunReport.counts_touch]

/-- **The search of an iteration finds one match at most for each rule without variables**,
over a searchable database, which it leaves as it was. -/
theorem searchRules_once (fuel : Nat) (name : String) (report : RunReport) :
    ⦃fun s => ⌜s.db.Searchable⌝⦄ searchRules fuel name report #[]
    ⦃post⟨fun out s => ⌜s.db.Searchable ∧ out.1.counts = report.counts ∧
        ∀ r ∈ out.2, r.rule.query.vars = [] → r.found.length ≤ 1⌝, fun _ _ => ⌜True⌝⟩⦄ := by
  apply triple_of_run
  intro S searchable
  have searched := run_of_triple (searchRules_searches_first_of_each_name S.db fuel name report #[])
    (rfl : S.db = S.db)
  have counted := run_of_triple (searchRules_counts fuel name report #[]) (S := S) trivial
  revert searched counted
  rcases (searchRules fuel name report #[]).run.run S with ⟨_ | out, T⟩
  · exact fun _ _ => trivial
  · rintro ⟨kept, reached, reaches, new, listed, firsts, each⟩ counts
    refine ⟨kept ▸ searchable, counts, fun r mem closed => ?_⟩
    rw [listed] at mem
    have fresh : r ∈ new := by simpa using mem
    -- the rule searched is a rule of a ruleset of its own rules, which fits the database
    have entry : r.entry ∈ firstOfEachName [] reached := by
      simp only [List.map_nil] at firsts
      rw [← firsts]
      exact List.mem_map_of_mem fresh
    obtain ⟨n, rs, found, member⟩ :=
      Database.mem_rulesReached reaches (mem_of_mem_firstOfEachName entry)
    exact (each r fresh).found_le_one searchable (searchable.rules n rs found r.entry member) closed

end Engine

namespace Engine

theorem rebuild_searchable :
    ⦃fun s => ⌜s.db.Searchable⌝⦄ rebuild ⦃post⟨fun _ s => ⌜s.db.Searchable⌝, fun _ _ => ⌜True⌝⟩⦄ := by
  apply triple_of_run
  intro S start
  have narrow := run_of_triple (rebuild_narrow S) ⟨.refl S, start.narrow, start.names⟩
  revert narrow
  rcases rebuild.run.run S with ⟨_ | _, T⟩
  · exact fun _ => trivial
  · exact fun reached => start.of_writes reached.1.writes reached.2

theorem runProgram_searchable (prog : Program) (subst : Array Value) :
    ⦃fun s => ⌜s.db.Searchable⌝⦄ runProgram prog subst
    ⦃post⟨fun _ s => ⌜s.db.Searchable⌝, fun _ _ => ⌜True⌝⟩⦄ := by
  apply triple_of_run
  intro S start
  have narrow := run_of_triple (runProgram_narrow S prog subst) ⟨.refl S, start.narrow⟩
  revert narrow
  rcases (runProgram prog subst).run.run S with ⟨_ | _, T⟩
  · exact fun _ => trivial
  · exact fun reached => start.of_writes reached.1.writes reached.2

/-- **Applying the matches of an iteration keeps applications and matches equal**, when every
rule without variables matched once at most. -/
theorem applyRules_balanced (report : RunReport) (results : Array SearchResult) :
    ⦃fun s => ⌜s.db.Searchable ∧ report.Balanced ∧
      ∀ r ∈ results, r.rule.query.vars = [] → r.found.length ≤ 1⌝⦄ applyRules report results
    ⦃post⟨fun r s => ⌜s.db.Searchable ∧ r.Balanced ∧ r.iterations = report.iterations ∧
        r.perIteration = report.perIteration ∧ r.stopReason = report.stopReason ∧
        r.updated = report.updated⌝, fun _ _ => ⌜True⌝⟩⦄ := by
  mvcgen [-applyRules_keeps, -runProgram_keeps, -runProgram_acts, applyRules, runProgram_searchable]
  case inv1 =>
    -- the rules still to apply match once at most if they have no variables
    exact post⟨fun acc s => ⌜s.db.Searchable ∧ acc.2.Balanced ∧
        (∀ r ∈ acc.1.suffix, r.rule.query.vars.isEmpty = true → r.found.length ≤ 1) ∧
        acc.2.iterations = report.iterations ∧ acc.2.perIteration = report.perIteration ∧
        acc.2.stopReason = report.stopReason ∧ acc.2.updated = report.updated⌝, fun _ _ => ⌜True⌝⟩
  case inv2 | inv3 => exact post⟨fun _ s => ⌜s.db.Searchable⌝, fun _ _ => ⌜True⌝⟩
  all_goals simp only [SPred.down_pure] at *
  all_goals grind [RunReport.Balanced.add, RunReport.Balanced.add_once, RunReport.Balanced.add_zero,
    Database.searchable_lastRun, List.isEmpty_iff]

/-- **A search round counts every rule's applications as its matches**, and nothing else. -/
theorem stepRules_balanced (ruleset : String) :
    ⦃fun s => ⌜s.db.Searchable⌝⦄ stepRules ruleset
    ⦃post⟨fun r s => ⌜s.db.Searchable ∧ r.Balanced ∧ r.iterations = 0 ∧ r.perIteration = #[] ∧
        r.stopReason = none⌝, fun _ _ => ⌜True⌝⟩⦄ := by
  mvcgen [-stepRules_keeps, -applyRules_keeps, stepRules, searchRules_once, applyRules_balanced]
  all_goals grind [RunReport.balanced_of_counts, RunReport.balanced_updated, RunReport.counts,
    RunReport.empty]

end Engine

theorem foldl_add_snd (counts : List (String × Nat)) (init : Nat) :
    counts.foldl (fun n p => n + p.2) init = init + totalOf counts := by
  induction counts generalizing init with
  | nil => simp [totalOf]
  | cons p rest ih =>
    rw [List.foldl_cons, ih]
    simp [totalOf]
    omega

/-- What one iteration of `ruleset` that left `tuples` live rows reports: either it stopped on
its condition and counted nothing, or it got past it and counts itself once, with one iteration
report of its ruleset, its updated flag, its matches and the rows it left, and as many
applications of every rule as matches. -/
def RunReport.OneIteration (ruleset : String) (tuples : Nat) (r : RunReport) : Prop :=
  r.counts = (false, 0, some .condition, [], [], #[]) ∨
    (r.stopReason ≠ some .condition ∧ r.iterations = 1 ∧
      r.perIteration = #[⟨ruleset, r.updated, totalOf r.matchCounts, tuples⟩] ∧ r.Balanced)

theorem RunReport.balanced_stopReason (r : RunReport) (reason : Option StopReason) :
    ({ r with stopReason := reason } : RunReport).Balanced ↔ r.Balanced := Iff.rfl

theorem RunReport.union_iterations (a b : RunReport) :
    (a.union b).iterations = a.iterations + b.iterations := rfl

theorem RunReport.union_perIteration (a b : RunReport) :
    (a.union b).perIteration = a.perIteration ++ b.perIteration := rfl

theorem RunReport.union_stopReason (a b : RunReport) :
    (a.union b).stopReason = b.stopReason.or a.stopReason := rfl

/-- A balanced report that counts no iteration and did not stop on a condition, with the
iteration that made it added: one iteration report, of its updated flag and its matches. -/
theorem RunReport.oneIteration_of_passed {r : RunReport} (balanced : r.Balanced)
    (zero : r.iterations = 0) (empty : r.perIteration = #[]) (passed : r.stopReason ≠ some .condition)
    (ruleset : String) (tuples : Nat) :
    RunReport.OneIteration ruleset tuples
      { r with
        iterations := r.iterations + 1
        perIteration := r.perIteration.push
          ⟨ruleset, r.updated, r.matchCounts.foldl (fun n p => n + p.2) 0, tuples⟩ } := by
  refine .inr ⟨passed, by simp [zero], ?_, balanced⟩
  simp [empty, foldl_add_snd]

namespace Engine

/-- **An iteration reports itself once**, or nothing if it stopped on its condition. -/
theorem runRules_counted (config : RunConfig) :
    ⦃fun s => ⌜s.db.Searchable⌝⦄ runRules config
    ⦃post⟨fun r s => ⌜s.db.Searchable ∧ r.OneIteration config.ruleset s.db.numTuples⌝,
      fun _ _ => ⌜True⌝⟩⦄ := by
  mvcgen [-runRules_keeps, -stepRules_keeps, -rebuild_spec, -rebuild_acts, runRules, rebuild_searchable,
    stepRules_balanced]
  all_goals grind [RunReport.oneIteration_of_passed, RunReport.balanced_stopReason,
    RunReport.Balanced.union, RunReport.balanced_of_counts, RunReport.counts_touch, RunReport.counts,
    RunReport.empty, RunReport.union_iterations, RunReport.union_perIteration,
    RunReport.union_stopReason, RunReport.OneIteration, Database.searchable_timestamp]

end Engine

/-! ### The iterations a run notes -/

/-- An iteration a run noted: the ruleset it ran, its report and the live rows it left. -/
structure NotedIteration where
  ruleset : String
  report : RunReport
  tuples : Nat

namespace NotedIteration

/-- The iteration got past its stopping condition. -/
def Passed (i : NotedIteration) : Prop := i.report.stopReason ≠ some .condition

instance (i : NotedIteration) : Decidable i.Passed := inferInstanceAs (Decidable (¬ _))

/-- The iteration report a run keeps of an iteration that got past its stopping condition. -/
def entry (i : NotedIteration) : IterationReport :=
  ⟨i.ruleset, i.report.updated, totalOf i.report.matchCounts, i.tuples⟩

/-- The noted report is what an iteration of the noted ruleset reports. -/
def Counted (i : NotedIteration) : Prop := i.report.OneIteration i.ruleset i.tuples

/-- A counted iteration either stopped on its condition and reports nothing, or got past it and
reports itself once. -/
theorem Counted.stopped_or_passed {i : NotedIteration} (h : i.Counted) :
    (¬ i.Passed ∧ i.report.updated = false ∧ i.report.iterations = 0 ∧ i.report.matchCounts = [] ∧
        i.report.applyCounts = [] ∧ i.report.perIteration = #[]) ∨
      (i.Passed ∧ i.report.iterations = 1 ∧ i.report.perIteration = #[i.entry] ∧ i.report.Balanced) := by
  rcases h with stopped | ⟨passed, one, listed, balanced⟩
  · simp only [RunReport.counts, Prod.mk.injEq] at stopped
    obtain ⟨updated, none, reason, found, applied, listed⟩ := stopped
    exact .inl ⟨by simp [Passed, reason], updated, none, found, applied, listed⟩
  · exact .inr ⟨passed, one, listed, balanced⟩

/-- Iterations that stopped on their condition add nothing to a sum over the noted ones. -/
theorem sum_map_passed {noted : List NotedIteration} {f : NotedIteration → Nat}
    (stopped : ∀ i ∈ noted, ¬ i.Passed → f i = 0) :
    (noted.map f).sum = ((noted.filter (·.Passed)).map f).sum := by
  rw [← List.sum_map_filter_add_sum_map_filter_not (·.Passed) f noted, add_eq_left]
  refine List.sum_eq_zero fun n mem => ?_
  obtain ⟨i, kept, rfl⟩ := List.mem_map.mp mem
  rw [List.mem_filter, decide_eq_true_iff] at kept
  exact stopped i kept.1 kept.2

end NotedIteration

/-- The noted iterations `new` each report one iteration or none, and `r` accounts for their
reports. -/
def RunReport.Notes (r : RunReport) (new : List NotedIteration) : Prop :=
  (∀ i ∈ new, i.Counted) ∧ r.Accounts (new.map (·.report))

/-- `r` is what `report` became by runs that noted `new`: these each report one iteration or
none, and `r` accounts for what `report` accounted for and then for their reports. -/
def RunReport.Extends (r report : RunReport) (new : List NotedIteration) : Prop :=
  (∀ i ∈ new, i.Counted) ∧ ∀ parts, report.Accounts parts → r.Accounts (parts ++ new.map (·.report))

/-- A report counts the noted iterations that got past their stopping condition: one iteration
for each, their iteration reports in the order they ran, the matches every rule had in them
added up, as many applications of every rule as matches, and an update if one of them updated. -/
structure RunReport.CountsPassed (r : RunReport) (noted : List NotedIteration) : Prop where
  iterations : r.iterations = (noted.filter (·.Passed)).length
  perIteration : r.perIteration.toList = (noted.filter (·.Passed)).map (·.entry)
  matchCounts : ∀ key, countOf r.matchCounts key =
    ((noted.filter (·.Passed)).map (countOf ·.report.matchCounts key)).sum
  applyCounts : ∀ key, countOf r.applyCounts key = countOf r.matchCounts key
  updated : r.updated = (noted.filter (·.Passed)).any (·.report.updated)

namespace RunReport

theorem OneIteration.keyed {r : RunReport} {ruleset : String} {tuples : Nat}
    (h : r.OneIteration ruleset tuples) : Keyed r.matchCounts ∧ Keyed r.applyCounts := by
  rcases h with stopped | ⟨-, -, -, balanced⟩
  · simp only [counts, Prod.mk.injEq] at stopped
    simp [stopped, Keyed]
  · exact ⟨balanced.1, balanced.2.1⟩

theorem Notes.single {r : RunReport} {ruleset : String} {tuples : Nat}
    (h : r.OneIteration ruleset tuples) : r.Notes [⟨ruleset, r, tuples⟩] :=
  ⟨by simpa [NotedIteration.Counted] using h, Accounts.single h.keyed.1 h.keyed.2⟩

theorem Notes.of_extends {r : RunReport} {new : List NotedIteration} (h : r.Extends empty new) :
    r.Notes new :=
  ⟨h.1, by simpa using h.2 [] Accounts.empty⟩

theorem perIteration_of_counted :
    ∀ {noted : List NotedIteration}, (∀ i ∈ noted, i.Counted) →
      (noted.map (·.report)).flatMap (·.perIteration.toList) = (noted.filter (·.Passed)).map (·.entry)
  | [], _ => rfl
  | i :: rest, counted => by
    have later := perIteration_of_counted fun j mem => counted j (List.mem_cons_of_mem i mem)
    rcases (counted i List.mem_cons_self).stopped_or_passed with
      ⟨stopped, -, -, -, -, listed⟩ | ⟨passed, -, listed, -⟩
    · simp [listed, stopped, later]
    · simp [listed, passed, later]

/-- **A report that notes its iterations counts those that got past their stopping condition.** -/
theorem Notes.countsPassed {r : RunReport} {noted : List NotedIteration} (h : r.Notes noted) :
    r.CountsPassed noted := by
  obtain ⟨counted, accounts⟩ := h
  have cases := fun i mem => (counted i mem).stopped_or_passed
  refine ⟨?_, ?_, fun key => ?_, fun key => ?_, ?_⟩
  · -- every iteration that got past its condition counts once
    have once : ∀ i ∈ noted.filter (·.Passed), i.report.iterations = 1 := by
      intro i kept
      rw [List.mem_filter, decide_eq_true_iff] at kept
      grind
    rw [accounts.iterations, List.map_map, Function.comp_def, NotedIteration.sum_map_passed (by grind),
      List.map_congr_left once, List.map_const', List.sum_replicate, smul_eq_mul, mul_one]
  · rw [accounts.perIteration, perIteration_of_counted counted]
  · rw [accounts.matchCounts, List.map_map, Function.comp_def]
    exact NotedIteration.sum_map_passed fun i mem stopped => by grind [countOf_nil]
  · -- each iteration applied every rule as often as it matched
    have applied : ∀ i ∈ noted, countOf i.report.applyCounts key = countOf i.report.matchCounts key := by
      intro i mem
      rcases cases i mem with ⟨-, -, -, found, applied, -⟩ | ⟨-, -, -, balanced⟩
      · simp [found, applied]
      · exact balanced.2.2 key
    rw [accounts.applyCounts, accounts.matchCounts, List.map_map, List.map_map, Function.comp_def,
      Function.comp_def, List.map_congr_left applied]
  · -- an iteration that stopped on its condition updated nothing
    rw [accounts.updated, List.any_map, List.any_filter, Bool.eq_iff_iff]
    simp only [List.any_eq_true, Function.comp_apply, Bool.and_eq_true, decide_eq_true_eq]
    grind

theorem Extends.refl (r : RunReport) : r.Extends r [] :=
  ⟨by simp, fun _ h => by simpa using h⟩

/-- A run that noted `new` added to a report extends it by `new`. -/
theorem Extends.union {r : RunReport} {new : List NotedIteration} (h : r.Notes new)
    (report : RunReport) : (report.union r).Extends report new :=
  ⟨h.1, fun _ parts => parts.union h.2⟩

theorem Extends.trans {r₀ r₁ r₂ : RunReport} {new₁ new₂ : List NotedIteration}
    (first : r₁.Extends r₀ new₁) (second : r₂.Extends r₁ new₂) : r₂.Extends r₀ (new₁ ++ new₂) := by
  refine ⟨fun i mem => ?_, fun parts h => ?_⟩
  · rcases List.mem_append.mp mem with early | late
    · exact first.1 i early
    · exact second.1 i late
  · simpa using second.2 _ (first.2 parts h)

theorem Extends.stopReason {r report : RunReport} {new : List NotedIteration} (h : r.Extends report new)
    (reason : Option StopReason) : { r with stopReason := reason }.Extends report new :=
  ⟨h.1, fun parts accounted => (h.2 parts accounted).stopReason reason⟩

end RunReport

namespace Engine

/-- One iteration, noting its ruleset, its report and the rows it left when it finishes. -/
def noteIteration (config : RunConfig) : Logged (List NotedIteration) RunReport := do
  let r ← Logged.lift (runRules config)
  let d ← Logged.lift db
  Logged.note (· ++ [⟨config.ruleset, r, d.numTuples⟩])
  pure r

theorem noteIteration_run (config : RunConfig) (w : List NotedIteration) (σ : Session) :
    ((noteIteration config).run.run w).run σ = match (runRules config).run.run σ with
      | (.ok r, σ') => ((.ok r, w ++ [⟨config.ruleset, r, σ'.db.numTuples⟩]), σ')
      | (.error e, σ') => ((.error e, w), σ') := by
  rw [noteIteration, Logged.run_bind, Logged.run_lift]
  rcases (runRules config).run.run σ with ⟨_ | r, σ'⟩ <;> rfl

/-- A logging body that keeps the database searchable and notes iterations its report accounts
for. -/
def BodyAccounts (body : Logged (List NotedIteration) RunReport) : Prop :=
  ∀ w₀, ⦃fun w s => ⌜w = w₀ ∧ s.db.Searchable⌝⦄ body
    ⦃post⟨fun r w s => ⌜s.db.Searchable ∧ ∃ new, w = w₀ ++ new ∧ r.Notes new⌝, fun _ _ _ => ⌜True⌝⟩⦄

theorem noteIteration_accounts (config : RunConfig) : BodyAccounts (noteIteration config) := by
  intro w₀
  apply Logged.triple_of_run
  rintro w σ ⟨rfl, searchable⟩
  have counted := run_of_triple (runRules_counted config) (S := σ) searchable
  rw [noteIteration_run]
  revert counted
  rcases (runRules config).run.run σ with ⟨_ | r, σ'⟩
  · exact fun _ => trivial
  · rintro ⟨searchable', one⟩
    exact ⟨searchable', _, rfl, RunReport.Notes.single one⟩

section Loops

variable {body : Logged (List NotedIteration) RunReport}

/-- A loop that stops once its body ran extends its report by what the body noted. -/
theorem accounted_of_stop {w₀ w₁ w : List NotedIteration} {r : RunReport} {s : Session}
    (start : w₁ = w₀) (ran : s.db.Searchable ∧ ∃ new, w = w₁ ++ new ∧ r.Notes new) (report : RunReport) :
    s.db.Searchable ∧ ∃ new, w = w₀ ++ new ∧ (report.union r).Extends report new := by
  obtain ⟨searchable, new, rfl, notes⟩ := ran
  exact ⟨searchable, new, by rw [start], .union notes report⟩

/-- A loop that goes on once its body ran extends its report by what the body noted and then by
what the rest of the loop noted. -/
theorem accounted_of_continue {w₀ w₁ w₂ w : List NotedIteration} {r r' : RunReport} {s : Session}
    (start : w₁ = w₀) (ran : ∃ new, w₂ = w₁ ++ new ∧ r.Notes new) (report : RunReport)
    (searchable : s.db.Searchable) (rest : ∃ new, w = w₂ ++ new ∧ r'.Extends (report.union r) new) :
    s.db.Searchable ∧ ∃ new, w = w₀ ++ new ∧ r'.Extends report new := by
  obtain ⟨new, rfl, notes⟩ := ran
  obtain ⟨later, rfl, extended⟩ := rest
  exact ⟨searchable, new ++ later, by rw [start, List.append_assoc],
    (RunReport.Extends.union notes report).trans extended⟩

theorem repeatRuns_accounts (hbody : BodyAccounts body) (n : Nat) (report : RunReport)
    (w₀ : List NotedIteration) :
    ⦃fun w s => ⌜w = w₀ ∧ s.db.Searchable⌝⦄ repeatRuns body n report
    ⦃post⟨fun r w s => ⌜s.db.Searchable ∧ ∃ new, w = w₀ ++ new ∧ r.Extends report new⌝,
      fun _ _ _ => ⌜True⌝⟩⦄ := by
  unfold BodyAccounts at hbody
  induction n generalizing report w₀ with
  | zero =>
    mvcgen [repeatRuns]
    rename_i start
    exact ⟨start.2, [], by simp [start.1], .refl report⟩
  | succ n ih =>
    mvcgen [repeatRuns, hbody, ih]
    · grind
    · rename_i start _ _ _ _ _ ran
      exact accounted_of_stop start.1 ran report
    · grind
    · rename_i start _ _ _ _ _ ran _ _ _
      exact accounted_of_continue start.1 ran.2 report

theorem saturateRuns_accounts (hbody : BodyAccounts body) (limit fuel rounds : Nat) (report : RunReport)
    (w₀ : List NotedIteration) :
    ⦃fun w s => ⌜w = w₀ ∧ s.db.Searchable⌝⦄ saturateRuns body limit fuel rounds report
    ⦃post⟨fun r w s => ⌜s.db.Searchable ∧ ∃ new, w = w₀ ++ new ∧ r.Extends report new⌝,
      fun _ _ _ => ⌜True⌝⟩⦄ := by
  unfold BodyAccounts at hbody
  induction fuel generalizing rounds report w₀ with
  | zero =>
    mvcgen [saturateRuns]
    rename_i start
    exact ⟨start.2, [], by simp [start.1], (RunReport.Extends.refl report).stopReason _⟩
  | succ fuel ih =>
    mvcgen [saturateRuns, hbody, ih]
    · grind
    · rename_i start _ _ _ _ _ ran
      exact accounted_of_stop start.1 ran report
    · -- a run that updated nothing stops, saturated unless the body gave a reason
      rename_i start _ _ _ _ _ _ ran
      obtain ⟨searchable, new, grown, extended⟩ := accounted_of_stop start.1 ran report
      refine ⟨searchable, new, grown, ?_⟩
      split
      · exact extended.stopReason _
      · exact extended
    · grind
    · rename_i start _ _ _ _ _ _ ran _ _ _
      exact accounted_of_continue start.1 ran.2 report

theorem seqRuns_accounts {bodies : List (Logged (List NotedIteration) RunReport)}
    (hbodies : ∀ b ∈ bodies, BodyAccounts b) (report : RunReport) (w₀ : List NotedIteration) :
    ⦃fun w s => ⌜w = w₀ ∧ s.db.Searchable⌝⦄ seqRuns bodies report
    ⦃post⟨fun r w s => ⌜s.db.Searchable ∧ ∃ new, w = w₀ ++ new ∧ r.Extends report new⌝,
      fun _ _ _ => ⌜True⌝⟩⦄ := by
  unfold BodyAccounts at hbodies
  induction bodies generalizing report w₀ with
  | nil =>
    mvcgen [seqRuns]
    rename_i start
    exact ⟨start.2, [], by simp [start.1], .refl report⟩
  | cons body rest ih =>
    have first := hbodies body (by simp)
    have later := ih (fun b mem => hbodies b (List.mem_cons_of_mem body mem))
    mvcgen [seqRuns, first, later]
    · grind
    · rename_i start _ _ _ _ _ ran
      exact accounted_of_stop start.1 ran report
    · grind
    · rename_i start _ _ _ _ _ ran _ _ _
      exact accounted_of_continue start.1 ran.2 report

end Loops

/-- A logging body whose report extends the empty one accounts for what it notes. -/
theorem bodyAccounts_of_extends {body : Logged (List NotedIteration) RunReport}
    (h : ∀ w₀, ⦃fun w s => ⌜w = w₀ ∧ s.db.Searchable⌝⦄ body
      ⦃post⟨fun r w s => ⌜s.db.Searchable ∧ ∃ new, w = w₀ ++ new ∧ r.Extends .empty new⌝,
        fun _ _ _ => ⌜True⌝⟩⦄) :
    BodyAccounts body := by
  intro w₀
  apply Logged.triple_of_run
  intro w σ start
  have ran := Logged.run_of_triple (h w₀) start
  revert ran
  rcases (body.run.run w).run σ with ⟨⟨_ | r, w'⟩, σ'⟩
  · exact fun _ => trivial
  · rintro ⟨searchable, new, grown, extended⟩
    exact ⟨searchable, new, grown, .of_extends extended⟩

/-- A schedule run whose iterations are `iteration`: a logging iteration gives a run that keeps
a log. -/
def runScheduleWith {ω : Type} (iteration : RunConfig → Logged ω RunReport) :
    Schedule → Logged ω RunReport
  | .run config => iteration config
  | .repeat n s => repeatRuns (runScheduleWith iteration s) n .empty
  | .saturate s => do
    let d ← Logged.lift db
    saturateRuns (runScheduleWith iteration s) d.options.iterationLimit d.options.iterationLimit 0 .empty
  | .seq ss => seqRuns (ss.attach.map fun ⟨s, _⟩ => runScheduleWith iteration s) .empty

/-- A schedule run whose iterations run as the schedule's do runs as the schedule does. -/
theorem runScheduleWith_erases {ω : Type} {iteration : RunConfig → Logged ω RunReport}
    (h : ∀ config, (iteration config).Erases (runRules config)) :
    (s : Schedule) → (runScheduleWith iteration s).Erases (runSchedule s)
  | .run config => by
    rw [runScheduleWith, runSchedule]
    exact h config
  | .repeat n s => by
    rw [runScheduleWith, runSchedule]
    exact erases_repeatRuns (runScheduleWith_erases h s) n _
  | .saturate s => by
    rw [runScheduleWith, runSchedule]
    exact Logged.erases_bind (Logged.erases_lift db) fun d =>
      erases_saturateRuns (runScheduleWith_erases h s) _ _ _ _
  | .seq ss => by
    rw [runScheduleWith, runSchedule]
    refine erases_seqRuns ?_ _
    rw [List.forall₂_map_left_iff, List.forall₂_map_right_iff]
    refine List.forall₂_same.mpr fun x _ => ?_
    obtain ⟨s, mem⟩ := x
    exact runScheduleWith_erases h s

theorem noteIteration_erases (config : RunConfig) :
    (noteIteration config).Erases (runRules config) := by
  intro w σ
  rw [noteIteration_run]
  rcases (runRules config).run.run σ with ⟨_ | r, σ'⟩ <;> rfl

/-- Every schedule, run noting its iterations, keeps the database searchable and notes
iterations its report accounts for. -/
theorem runScheduleWith_accounts : (s : Schedule) → BodyAccounts (runScheduleWith noteIteration s)
  | .run config => by
    rw [runScheduleWith]
    exact noteIteration_accounts config
  | .repeat n s => by
    rw [runScheduleWith]
    exact bodyAccounts_of_extends (repeatRuns_accounts (runScheduleWith_accounts s) n .empty)
  | .saturate s => by
    rw [runScheduleWith]
    exact bodyAccounts_of_extends fun w₀ =>
      Logged.triple_read fun d => saturateRuns_accounts (runScheduleWith_accounts s) _ _ _ _ w₀
  | .seq ss => by
    rw [runScheduleWith]
    refine bodyAccounts_of_extends (seqRuns_accounts (fun b mem => ?_) .empty)
    obtain ⟨⟨s, mem⟩, -, rfl⟩ := List.mem_map.mp mem
    exact runScheduleWith_accounts s

/-- A fresh database is searchable: it has no functions and only the empty default ruleset. -/
theorem Database.searchable_initial : Database.initial.Searchable where
  indexed := by simp [Database.Indexed, Database.initial]
  narrow := by simp [Database.Narrow, Database.initial]
  names := by simp [Database.NamesIndexed, Database.initial]
  rules := by
    intro name rs found e mem
    simp only [Database.ruleset?, Database.initial] at found
    by_cases default : name = ""
    · subst default
      simp only [List.lookup_cons_self, Option.some.injEq, Ruleset.rules.injEq] at found
      subst found
      cases mem
    · simp [List.lookup, beq_false_of_ne default] at found

end Engine

end Saturate
