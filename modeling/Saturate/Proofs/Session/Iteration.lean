import Saturate.Proofs.Session.Clock

/-!
# The rules one iteration searches

An iteration of a ruleset (`Engine.stepRules`) searches its rules
(`Engine.searchRules`) before it applies any, and the search only reads the
database (`Engine.searchRules_reads`). Which rules does it search?

The rules a ruleset reaches (`Database.rulesReached`) are its own rules, or
for a combined ruleset those its members reach, in order, looked up when the
search runs. The search keeps results by rule name and skips a rule whose name
it already holds, so it searches the first rule of each name it reaches
(`firstOfEachName`), once, each over the tables of the one database it reads
(`SearchResult.SearchedIn`). Where no two different rules reached share a
name, those are exactly the rules reached; where two do, only the first is
searched (`combined_ruleset_skips_second_rule_named_alike`).

* `searchRules_searches_first_of_each_name`: the search, by induction on the
  nesting of combined rulesets.
* `iteration_searches_first_rule_of_each_name`: the search of an iteration.
-/

open Std.Do

set_option mvcgen.warning false

namespace Saturate

/-! ### The rules a ruleset reaches -/

/-- The rules a ruleset reaches, in the order a search meets them: its own
rules, or those of its members in turn; combined rulesets nest at most `fuel`
deep, and an unknown ruleset is an error. -/
def Database.rulesReached (d : Database) : Nat → String → Except Error (List (String × CompiledRule))
  | 0, _ => .ok []
  | fuel + 1, name =>
    match d.ruleset? name with
    | none => .error (.noSuchRuleset name)
    | some (.rules rs) => .ok rs
    | some (.combined members) =>
      members.foldlM (fun acc m => (acc ++ ·) <$> d.rulesReached fuel m) []

/-- The first rule of each name, skipping the names `seen`. -/
def firstOfEachName : List String → List (String × CompiledRule) → List (String × CompiledRule)
  | _, [] => []
  | seen, e :: rest =>
    if e.1 ∈ seen then firstOfEachName seen rest else e :: firstOfEachName (seen ++ [e.1]) rest

/-- The name and the rule of a search result. -/
def SearchResult.entry (r : SearchResult) : String × CompiledRule := (r.name, r.rule)

/-- The result of a rule searched over the tables of `d`: an unsatisfiable
rule has no matches; another has at most the match limit of the matches of its
query over the rows written since its last run (all rows without semi-naive
evaluation), and is cut if there were more. -/
def SearchResult.SearchedIn (d : Database) (r : SearchResult) : Prop :=
  if r.rule.unsat then r.found = [] ∧ r.truncated = false
  else ∃ p found p',
    (r.rule.query.run d.tableOf (if d.options.seminaive then d.lastRun.getD r.name 0 else 0) false
        (d.options.matchLimit + 1)).run p = .ok (found, p') ∧
      r.found = found.take d.options.matchLimit ∧ r.truncated = decide (found.length > d.options.matchLimit)

/-! ### The first rule of each name -/

theorem firstOfEachName_append (seen : List String) (l₁ l₂ : List (String × CompiledRule)) :
    firstOfEachName seen (l₁ ++ l₂) =
      firstOfEachName seen l₁ ++ firstOfEachName (seen ++ (firstOfEachName seen l₁).map (·.1)) l₂ := by
  induction l₁ generalizing seen with
  | nil => simp [firstOfEachName]
  | cons e rest ih =>
    by_cases named : e.1 ∈ seen
    · simp [firstOfEachName, named, ih]
    · simp [firstOfEachName, named, ih]

theorem firstOfEachName_singleton (seen : List String) (e : String × CompiledRule) :
    firstOfEachName seen [e] = if e.1 ∈ seen then [] else [e] := by
  by_cases named : e.1 ∈ seen <;> simp [firstOfEachName, named]

/-- The rules kept have names pairwise different and not among those seen. -/
theorem firstOfEachName_fresh (seen : List String) (l : List (String × CompiledRule)) :
    ((firstOfEachName seen l).map (·.1)).Nodup ∧ ∀ e ∈ firstOfEachName seen l, e.1 ∉ seen := by
  induction l generalizing seen with
  | nil => simp [firstOfEachName]
  | cons e rest ih =>
    by_cases named : e.1 ∈ seen
    · simpa [firstOfEachName, named] using ih seen
    · obtain ⟨nodup, fresh⟩ := ih (seen ++ [e.1])
      simp only [firstOfEachName, if_neg named, List.map_cons, List.nodup_cons, List.mem_cons,
        forall_eq_or_imp]
      refine ⟨⟨fun mem => ?_, nodup⟩, named, fun x kept => ?_⟩
      · obtain ⟨x, kept, same⟩ := List.mem_map.mp mem
        exact fresh x kept (by simp [same])
      · exact fun seenX => fresh x kept (List.mem_append_left _ seenX)

/-- **Where no two different rules share a name, the first rule of each name
is every rule** whose name was not seen. -/
theorem mem_firstOfEachName_iff {l : List (String × CompiledRule)}
    (unique : ∀ a ∈ l, ∀ b ∈ l, a.1 = b.1 → a = b) (seen : List String) (e : String × CompiledRule) :
    e ∈ firstOfEachName seen l ↔ e ∈ l ∧ e.1 ∉ seen := by
  induction l generalizing seen with
  | nil => simp [firstOfEachName]
  | cons x rest ih =>
    have uniqueRest : ∀ a ∈ rest, ∀ b ∈ rest, a.1 = b.1 → a = b :=
      fun a ha b hb => unique a (List.mem_cons_of_mem _ ha) b (List.mem_cons_of_mem _ hb)
    by_cases named : x.1 ∈ seen
    · -- a rule whose name was seen is not kept, nor is anything equal to it
      rw [firstOfEachName, if_pos named, ih uniqueRest, List.mem_cons]
      constructor
      · rintro ⟨mem, fresh⟩
        exact ⟨.inr mem, fresh⟩
      · rintro ⟨rfl | mem, fresh⟩
        · exact absurd named fresh
        · exact ⟨mem, fresh⟩
    · -- the rest is kept past the name of `x`, which only `x` itself has
      rw [firstOfEachName, if_neg named, List.mem_cons, ih uniqueRest]
      constructor
      · rintro (rfl | ⟨mem, fresh⟩)
        · exact ⟨List.mem_cons_self, named⟩
        · exact ⟨List.mem_cons_of_mem _ mem, fun seenE => fresh (List.mem_append_left _ seenE)⟩
      · rintro ⟨mem, fresh⟩
        by_cases same : e.1 = x.1
        · exact .inl (unique e mem x List.mem_cons_self same)
        · rcases List.mem_cons.mp mem with rfl | mem
          · exact absurd rfl same
          · exact .inr ⟨mem, by simp [fresh, same]⟩

/-! ### Searching the first rule of each name -/

/-- `results'` is `results` followed by a result for the first rule of each
name in `reached` not searched before, in order, each searched over the tables
of `d`. -/
def SearchesFirsts (d : Database) (reached : List (String × CompiledRule))
    (results results' : Array SearchResult) : Prop :=
  ∃ new : List SearchResult, results' = results ++ new.toArray ∧
    new.map SearchResult.entry = firstOfEachName (results.toList.map (·.name)) reached ∧
    ∀ r ∈ new, r.SearchedIn d

namespace SearchesFirsts

variable {d : Database}

theorem nil (results : Array SearchResult) : SearchesFirsts d [] results results :=
  ⟨[], by simp, by simp [firstOfEachName], by simp⟩

theorem names {reached : List (String × CompiledRule)} {results results' : Array SearchResult}
    (h : SearchesFirsts d reached results results') :
    results'.toList.map (·.name) =
      results.toList.map (·.name) ++ (firstOfEachName (results.toList.map (·.name)) reached).map (·.1) := by
  obtain ⟨new, rfl, firsts, -⟩ := h
  rw [← firsts]
  simp [Function.comp_def, SearchResult.entry]

theorem append {l₁ l₂ : List (String × CompiledRule)} {r₀ r₁ r₂ : Array SearchResult}
    (first : SearchesFirsts d l₁ r₀ r₁) (second : SearchesFirsts d l₂ r₁ r₂) :
    SearchesFirsts d (l₁ ++ l₂) r₀ r₂ := by
  have seen := first.names
  obtain ⟨new₁, rfl, firsts₁, searched₁⟩ := first
  obtain ⟨new₂, rfl, firsts₂, searched₂⟩ := second
  refine ⟨new₁ ++ new₂, by simp, ?_, ?_⟩
  · rw [List.map_append, firstOfEachName_append, firsts₁, firsts₂, seen]
  · intro r mem
    rcases List.mem_append.mp mem with mem | mem
    · exact searched₁ r mem
    · exact searched₂ r mem

/-- A rule whose name was searched is skipped. -/
theorem skip {e : String × CompiledRule} {results : Array SearchResult}
    (named : e.1 ∈ results.toList.map (·.name)) : SearchesFirsts d [e] results results :=
  ⟨[], by simp, by simp [firstOfEachName_singleton, named], by simp⟩

/-- A rule of a name not searched is searched. -/
theorem push {e : String × CompiledRule} {results : Array SearchResult} {r : SearchResult}
    (fresh : e.1 ∉ results.toList.map (·.name)) (entry : r.entry = e) (searched : r.SearchedIn d) :
    SearchesFirsts d [e] results (results.push r) :=
  ⟨[r], by simp, by simp [firstOfEachName_singleton, fresh, entry], by simpa using searched⟩

end SearchesFirsts

/-! ### The steps of the search -/

theorem Database.rulesReached_rules {d : Database} {name : String} {rs : List (String × CompiledRule)}
    (h : d.ruleset? name = some (.rules rs)) (fuel : Nat) : d.rulesReached (fuel + 1) name = .ok rs := by
  simp [Database.rulesReached, h]

theorem Database.rulesReached_combined {d : Database} {name : String} {members : List String}
    (h : d.ruleset? name = some (.combined members)) (fuel : Nat) :
    d.rulesReached (fuel + 1) name = members.foldlM (fun acc m => (acc ++ ·) <$> d.rulesReached fuel m) [] := by
  simp [Database.rulesReached, h]

/-- The members met so far, then one more, reach their rules and its. -/
theorem Database.foldlM_rulesReached_concat {d : Database} {fuel : Nat} {members : List String}
    {reached : List (String × CompiledRule)}
    (before : members.foldlM (fun acc m => (acc ++ ·) <$> d.rulesReached fuel m) [] = .ok reached)
    {m : String} {more : List (String × CompiledRule)} (next : d.rulesReached fuel m = .ok more) :
    (members ++ [m]).foldlM (fun acc m => (acc ++ ·) <$> d.rulesReached fuel m) [] = .ok (reached ++ more) := by
  rw [List.foldlM_append, before]
  simp only [List.foldlM_cons, List.foldlM_nil, next]
  rfl

theorem mem_names_of_any {results : Array SearchResult} {n : String}
    (h : (results.any fun r => r.name == n) = true) : n ∈ results.toList.map (·.name) := by
  obtain ⟨r, mem, same⟩ := Array.any_eq_true'.mp h
  exact List.mem_map.mpr ⟨r, Array.mem_toList_iff.mpr mem, beq_iff_eq.mp same⟩

theorem not_mem_names_of_not_any {results : Array SearchResult} {n : String}
    (h : ¬(results.any fun r => r.name == n) = true) : n ∉ results.toList.map (·.name) := by
  intro mem
  obtain ⟨r, mem, same⟩ := List.mem_map.mp mem
  exact h (Array.any_eq_true'.mpr ⟨r, Array.mem_toList_iff.mp mem, beq_iff_eq.mpr same⟩)

theorem SearchResult.searchedIn_unsat {d : Database} {name : String} {rule : CompiledRule}
    (unsat : rule.unsat = true) : SearchResult.SearchedIn d ⟨name, rule, [], false⟩ := by
  simp [SearchResult.SearchedIn, unsat]

/-! ### The search -/

namespace Engine

/-- A pool computation gives what it computes from the session's pool. -/
theorem pool_returns {α : Type} (s₁ : Session) (m : PoolM α) :
    ⦃fun s => ⌜s = s₁⌝⦄ Engine.pool m
    ⦃post⟨fun a s => ⌜∃ q, m.run s₁.pool = .ok (a, q) ∧ s = { s₁ with pool := q }⌝,
      fun _ _ => ⌜True⌝⟩⦄ := by
  mvcgen [-pool_spec, Engine.pool]
  rename_i s same _ a q ran _
  subst same
  exact ⟨q, ran, rfl⟩

/-- The matches of a query, searched over the tables of the database. -/
theorem matchesOf_searches (d : Database) (q : CompiledQuery) (lastRun : Nat) (includeSubsumed : Bool)
    (limit : Nat) :
    ⦃fun s => ⌜s.db = d⌝⦄ matchesOf q lastRun includeSubsumed limit
    ⦃post⟨fun found s => ⌜s.db = d ∧
        ∃ p p', (q.run d.tableOf lastRun includeSubsumed limit).run p = .ok (found, p')⌝,
      fun _ _ => ⌜True⌝⟩⦄ := by
  mvcgen [-matchesOf_reads, -pool_spec, matchesOf, pool_returns]
  rename_i s same found t
  rintro ⟨p', ran, rfl⟩
  subst same
  exact ⟨rfl, _, p', ran⟩

/-- **The search of a ruleset searches the first rule of each name it
reaches**, once, over the tables of the database it starts from, which it
leaves as it was. -/
theorem searchRules_searches_first_of_each_name (d : Database) (fuel : Nat) (name : String)
    (report : RunReport) (results : Array SearchResult) :
    ⦃fun s => ⌜s.db = d⌝⦄ searchRules fuel name report results
    ⦃post⟨fun out s => ⌜s.db = d ∧
        ∃ reached, d.rulesReached fuel name = .ok reached ∧ SearchesFirsts d reached results out.2⌝,
      fun _ _ => ⌜True⌝⟩⦄ := by
  induction fuel generalizing name report results with
  | zero =>
    mvcgen [searchRules]
    rename_i s same
    exact ⟨same, [], rfl, .nil results⟩
  | succ fuel ih =>
    mvcgen [searchRules, ih, matchesOf_searches, -matchesOf_reads]
    case inv1 =>
      -- the rules of the ruleset met so far
      exact post⟨fun pair s => ⌜s.db = d ∧ SearchesFirsts d ( List.Cursor.prefix pair.1) results pair.2⌝,
        fun _ _ => ⌜True⌝⟩
    case inv2 =>
      -- the rules the members met so far reach
      exact post⟨fun pair s => ⌜s.db = d ∧ ∃ reached,
          List.foldlM (fun acc m => (acc ++ ·) <$> d.rulesReached fuel m) [] ( List.Cursor.prefix pair.1) =
            .ok reached ∧
            SearchesFirsts d reached results pair.2.2⌝, fun _ _ => ⌜True⌝⟩
    all_goals simp only [SPred.down_pure] at *
    case vc1.step.isTrue =>
      -- a rule of a name already searched is skipped
      rename_i cur _ _ b named _ inv
      exact ⟨inv.1, inv.2.append (.skip (mem_names_of_any named))⟩
    case vc2.step.isFalse.isTrue =>
      -- an unsatisfiable rule is searched with no matches
      rename_i cur _ _ b fresh _ unsat _ inv _
      exact ⟨inv.1, inv.2.append (.push (not_mem_names_of_not_any fresh) rfl
        (SearchResult.searchedIn_unsat unsat))⟩
    case vc3.step.isFalse.isFalse.post.success =>
      -- another rule is searched over the tables of the database
      rename_i cur _ _ b fresh _ sat s₁ inv _ _ found s₂ ran _
      obtain ⟨same, rest⟩ := inv
      obtain ⟨kept, p, p', matched⟩ := ran
      subst same
      refine ⟨kept, rest.append (.push (not_mem_names_of_not_any fresh) rfl ?_)⟩
      simp only [SearchResult.SearchedIn, sat]
      exact ⟨p, found, p', matched, rfl, rfl⟩
    case vc5.succ.h_2.pre =>
      rename_i same _ _
      exact ⟨same, .nil results⟩
    case vc6.succ.h_2.post.success =>
      rename_i same rs found out _ inv
      subst same
      exact ⟨inv.1, rs, Database.rulesReached_rules found fuel, inv.2⟩
    case vc7.step.pre =>
      rename_i inv
      exact inv.1
    case vc8.step.post.success =>
      -- a member reaches its rules after those of the members before it
      rename_i cur _ _ b _ inv out _ next
      obtain ⟨-, reached, before, searched⟩ := inv
      obtain ⟨kept, more, reachedMore, searchedMore⟩ := next
      exact ⟨kept, reached ++ more, Database.foldlM_rulesReached_concat before reachedMore,
        searched.append searchedMore⟩
    case vc10.succ.h_3.pre =>
      rename_i same _ _ _
      exact ⟨same, [], rfl, .nil results⟩
    case vc11.succ.h_3.post.success =>
      rename_i same members found _ out _ inv
      subst same
      obtain ⟨kept, reached, all, searched⟩ := inv
      exact ⟨kept, reached, (Database.rulesReached_combined found fuel).trans all, searched⟩
    case vc4.step.isFalse.isFalse.post.except.handle | vc9.step.post.except.handle =>
      -- an error of a search leaves nothing to show
      exact fun _ => trivial

end Engine

/-! ### One iteration -/

/-- **One iteration searches the first rule of each name its ruleset
reaches.** The search of an iteration (`Engine.stepRules` runs it before it
applies any rule) leaves the database as it was; it searches, in the order the
ruleset reaches them, the first rule of each name, each once and over the
tables of that database; and where no two different rules reached share a
name, the rules searched are exactly the rules reached. -/
theorem iteration_searches_first_rule_of_each_name {ruleset : String} {s t : Session}
    {report : RunReport} {results : Array SearchResult}
    (ran : (Engine.searchRules (s.db.rulesets.length + 1) ruleset .empty #[]).run.run s =
      (.ok (report, results), t)) :
    t.db = s.db ∧ ∃ reached, s.db.rulesReached (s.db.rulesets.length + 1) ruleset = .ok reached ∧
      results.toList.map SearchResult.entry = firstOfEachName [] reached ∧
      (∀ r ∈ results, r.SearchedIn s.db) ∧ (results.toList.map (·.name)).Nodup ∧
      ((∀ a ∈ reached, ∀ b ∈ reached, a.1 = b.1 → a = b) →
        ∀ e, e ∈ results.toList.map SearchResult.entry ↔ e ∈ reached) := by
  have spec := Engine.run_of_triple
    (Engine.searchRules_searches_first_of_each_name s.db (s.db.rulesets.length + 1) ruleset .empty #[])
    (rfl : s.db = s.db)
  rw [ran] at spec
  obtain ⟨kept, reached, reaches, new, rfl, firsts, searched⟩ := spec
  simp only [List.map_nil, Array.toList_append, List.nil_append] at firsts ⊢
  have names : new.map (·.name) = (firstOfEachName [] reached).map (·.1) := by
    rw [← firsts]
    simp [Function.comp_def, SearchResult.entry]
  refine ⟨kept, reached, reaches, firsts, fun r mem => searched r (by simpa using mem), ?_, ?_⟩
  · rw [names]
    exact (firstOfEachName_fresh [] reached).1
  · intro unique e
    rw [firsts, mem_firstOfEachName_iff unique]
    simp

/-- A rule with no matches whose actions abort with `msg`. -/
def abortingRule (msg : String) : CompiledRule := ⟨⟨[], [], []⟩, ⟨[.abort msg]⟩, true⟩

/-- Rulesets `a` and `b`, each with a different rule named `r`, and their
union `c`. -/
def twoRulesNamedAlike : Session :=
  { Session.initial with
    db := { Database.initial with
      rulesets := [("", .rules []), ("a", .rules [("r", abortingRule "a")]),
        ("b", .rules [("r", abortingRule "b")]), ("c", .combined ["a", "b"])] } }

/-- Of two different rules named alike that a combined ruleset reaches, an
iteration searches only the first. -/
theorem combined_ruleset_skips_second_rule_named_alike :
    twoRulesNamedAlike.db.rulesReached 5 "c" = .ok [("r", abortingRule "a"), ("r", abortingRule "b")] ∧
    (Engine.searchRules 5 "c" .empty #[]).run.run twoRulesNamedAlike =
      (.ok ((((RunReport.empty.touch "a").touch "b").touch "c"), #[⟨"r", abortingRule "a", [], false⟩]),
        twoRulesNamedAlike) := by
  -- the search reads `Array.any`, defined by well-founded recursion
  exact ⟨rfl, by with_unfolding_all rfl⟩

/-- The iteration of `c` searches `a`'s rule named `r` and skips `b`'s. -/
theorem iteration_of_two_rules_named_alike :
    (Engine.searchRules (twoRulesNamedAlike.db.rulesets.length + 1) "c" .empty #[]).run.run twoRulesNamedAlike =
        (.ok ((((RunReport.empty.touch "a").touch "b").touch "c"), #[⟨"r", abortingRule "a", [], false⟩]),
          twoRulesNamedAlike) ∧
      twoRulesNamedAlike.db = twoRulesNamedAlike.db ∧
      ∃ reached, twoRulesNamedAlike.db.rulesReached (twoRulesNamedAlike.db.rulesets.length + 1) "c" = .ok reached ∧
        (#[⟨"r", abortingRule "a", [], false⟩] : Array SearchResult).toList.map SearchResult.entry =
          firstOfEachName [] reached ∧
        (∀ r ∈ (#[⟨"r", abortingRule "a", [], false⟩] : Array SearchResult), r.SearchedIn twoRulesNamedAlike.db) ∧
        ((#[⟨"r", abortingRule "a", [], false⟩] : Array SearchResult).toList.map (·.name)).Nodup ∧
        ((∀ a ∈ reached, ∀ b ∈ reached, a.1 = b.1 → a = b) →
          ∀ e, e ∈ (#[⟨"r", abortingRule "a", [], false⟩] : Array SearchResult).toList.map SearchResult.entry ↔
            e ∈ reached) := by
  have ran : (Engine.searchRules (twoRulesNamedAlike.db.rulesets.length + 1) "c" .empty #[]).run.run
      twoRulesNamedAlike =
        (.ok ((((RunReport.empty.touch "a").touch "b").touch "c"), #[⟨"r", abortingRule "a", [], false⟩]),
          twoRulesNamedAlike) := by
    with_unfolding_all rfl
  exact ⟨ran, iteration_searches_first_rule_of_each_name ran⟩

end Saturate
