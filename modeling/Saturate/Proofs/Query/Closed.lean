import Saturate.Proofs.Query.Seminaive

/-!
# A query without variables finds at most one tuple

A rule without variables runs its actions once in an iteration where it matched, however many
matches its search reported. The two agree because the query of such a rule finds at most one
tuple, from scratch and after a last run alike.

The search of such a query starts from the empty tuple, and every atom projects the rows it
selects to the empty tuple, so an intersection finds no value to bind and a search adds at most
one tuple (`JoinStep.search_adds_at_most_one`). A run from scratch is one search. A run after a
last run at `lastRun` makes one pass per atom: pass `i` reads the rows of atom `i` written at
`lastRun` or later and those of earlier atoms written before, and it searches only when every
atom selects some row. An atom whose terms are all literals passes one row at most, in a table
with one live row per inputs and no entry wider than the atom (`TableAtom.Passes.eq_of_closed`).
So two passes never both search: the row atom `i` passes is new in pass `i` and would be old
in a later one (`closed_passes_apart`).

* `CompiledQuery.run_finds_at_most_one`: the main statement.
-/

namespace Saturate

/-! ### The search -/

/-- Selections that project every row to the empty tuple. -/
def Blank (nodes : Array (List (List Value))) : Prop := ∀ sel ∈ nodes.toList, ∀ t ∈ sel, t = []

theorem tailsAfter_of_blank {ts : List (List Value)} (blank : ∀ t ∈ ts, t = []) (v : Value) :
    tailsAfter v ts = [] :=
  List.eq_nil_iff_forall_not_mem.mpr fun rest mem =>
    List.cons_ne_nil v rest (blank _ (mem_tailsAfter.mp mem))

/-- Blank selections allow no value to an intersection. -/
theorem not_allowed_of_blank {nodes : Array (List (List Value))} (blank : Blank nodes)
    {js : List Nat} (nonempty : js ≠ []) (v : Value) : ¬ Allowed js nodes v := by
  intro allowed
  obtain ⟨j, mem⟩ := List.exists_mem_of_ne_nil js nonempty
  refine allowed j mem (tailsAfter_of_blank (fun t ht => ?_) v)
  cases at_j : nodes[j]? with
  | none => simp [at_j] at ht
  | some sel =>
    rw [at_j, Option.getD_some] at ht
    exact blank sel (Array.mem_toList_iff.mpr (Array.mem_of_getElem? at_j)) t ht

/-- **A search over blank selections adds at most one tuple**: an intersection has no candidate
to descend into, and a call goes on at most once. -/
theorem JoinStep.search_adds_at_most_one {nodes : Array (List (List Value))} (blank : Blank nodes)
    (prog : List JoinStep) {tuple : Array Value} {found found' : Found} {p P : Pool}
    (ran : (JoinStep.search prog tuple nodes found).run p = .ok (found', P)) :
    found'.tuples.size ≤ found.tuples.size + 1 := by
  induction prog generalizing tuple found found' p P with
  | nil =>
    simp only [JoinStep.search] at ran
    obtain ⟨rfl, rfl⟩ := PoolM.run_pure_inv ran
    simp
  | cons step rest ih =>
    cases step with
    | intersect idx js =>
      simp only [JoinStep.search] at ran
      split at ran
      · obtain ⟨rfl, rfl⟩ := PoolM.run_pure_inv ran
        omega
      · rename_i first hfirst
        have nonempty : js ≠ [] := by
          rintro rfl
          simp at hfirst
        -- the fold over the candidates never takes a step
        have same : found' = found := PoolM.foldlM_induction_on (fun _ b _ => b = found)
          (fun _ v _ _ _ _ mem _ _ => absurd ((mem_candidates (smallest_mem hfirst) v).mp mem)
            (not_allowed_of_blank blank nonempty v)) rfl ran
        rw [same]
        omega
    | call prim args out check =>
      simp only [JoinStep.search] at ran
      obtain ⟨o, p₁, -, ran⟩ := PoolM.run_bind_ok ran
      cases o with
      | none =>
        obtain ⟨rfl, rfl⟩ := PoolM.run_pure_inv ran
        omega
      | some r =>
        cases out with
        | slot i =>
          dsimp only at ran
          split at ran
          · obtain ⟨rfl, rfl⟩ := PoolM.run_pure_inv ran
            omega
          · exact ih ran
        | const v =>
          dsimp only at ran
          split at ran
          · obtain ⟨rfl, rfl⟩ := PoolM.run_pure_inv ran
            omega
          · exact ih ran

/-! ### Atoms without variables -/

/-- Without variables to project to, an atom selects empty tuples. -/
theorem TableAtom.eq_nil_of_mem_select {a : TableAtom} {tests : List RowTest}
    {rows : List (Nat × Entry)} {w : List Value} (mem : w ∈ a.select [] tests rows) : w = [] := by
  simp only [TableAtom.select, TableAtom.projection, List.filterMap_nil, List.mem_filterMap] at mem
  obtain ⟨_, -, kept⟩ := mem
  split at kept
  · exact (Option.some.inj kept).symm
  · cases kept

/-- A selection that is not empty has a row in its range that passes the atom. -/
theorem SelectedIn.passes {table : String → Table} {includeSubsumed : Bool} {vars : List String}
    {P : Pool} {x : TableAtom × Nat × Option Nat} {sel : List (List Value)}
    (h : SelectedIn table includeSubsumed vars P x sel) (nonempty : sel ≠ []) :
    ∃ e ∈ ((table x.1.func).rowsBetween x.2.1 x.2.2 includeSubsumed).map (·.2),
      x.1.Passes P (e.inputs ++ [e.output.value]) := by
  obtain ⟨tests, p, p', ran, grown, rfl⟩ := h
  obtain ⟨w, mem⟩ := List.exists_mem_of_ne_nil _ nonempty
  simp only [TableAtom.select, List.mem_filterMap] at mem
  obtain ⟨⟨i, e⟩, listed, kept⟩ := mem
  split at kept
  · rename_i ok
    exact ⟨e, List.mem_map.mpr ⟨(i, e), listed, rfl⟩,
      (TableAtom.tests_all_iff ran grown (fun _ _ => rfl) (fun _ _ => rfl)).mp ok⟩
  · cases kept

/-- **An atom whose terms are all literals passes one row at most** among the rows no wider
than the atom: each column must hold its literal's value. -/
theorem TableAtom.Passes.eq_of_closed {a : TableAtom} {Q : Pool} (closed : a.vars = [])
    {r r' : List Value} (h : a.Passes Q r) (h' : a.Passes Q r') (short : r.length ≤ a.args.length)
    (short' : r'.length ≤ a.args.length) : r = r' := by
  have literal : ∀ t ∈ a.args, t.var? = none := List.filterMap_eq_nil_iff.mp closed
  -- every column of the atom holds its literal's value in both rows
  have column : ∀ i < a.args.length, ∃ x, r[i]? = some x ∧ r'[i]? = some x := by
    intro i lt
    have listed : (a.args[i], i) ∈ a.args.zipIdx := List.mem_zipIdx_iff_getElem?.mpr (by simp)
    have passes := h _ listed
    have passes' := h' _ listed
    cases term : a.args[i] with
    | var v =>
      have free := literal _ (List.getElem_mem lt)
      simp [term, AtomTerm.var?] at free
    | lit l =>
      rw [term] at passes passes'
      obtain ⟨x, eval, at_i⟩ := passes
      obtain ⟨x', eval', at_i'⟩ := passes'
      rw [eval, Except.ok.injEq, Prod.mk.injEq] at eval'
      exact ⟨x, at_i, eval'.1 ▸ at_i'⟩
  -- so both rows are exactly as wide as the atom
  have wide : a.args.length ≤ r.length ∧ a.args.length ≤ r'.length := by
    rcases Nat.eq_zero_or_pos a.args.length with zero | pos
    · omega
    · obtain ⟨x, at_last, at_last'⟩ := column (a.args.length - 1) (by omega)
      have := (List.getElem?_eq_some_iff.mp at_last).1
      have := (List.getElem?_eq_some_iff.mp at_last').1
      omega
  refine List.ext_getElem? fun i => ?_
  by_cases lt : i < a.args.length
  · obtain ⟨x, at_i, at_i'⟩ := column i lt
    rw [at_i, at_i']
  · rw [List.getElem?_eq_none (by omega), List.getElem?_eq_none (by omega)]


/-! ### The passes -/

section Passes

variable {q : CompiledQuery} {table : String → Table} {includeSubsumed : Bool}

/-- **A pass of a query without variables adds at most one tuple**, and adds one only when
every atom selects some row in its range. -/
theorem CompiledQuery.pass_adds_at_most_one (novars : q.vars = []) {ranges : List (Nat × Option Nat)}
    {found found' : Found} {p P : Pool}
    (ran : (q.pass table ranges includeSubsumed found).run p = .ok (found', P)) :
    found'.tuples.size ≤ found.tuples.size + 1 ∧
      (found'.tuples.size ≠ found.tuples.size →
        ∀ x ∈ q.atoms.zip ranges, ∃ sel, SelectedIn table includeSubsumed q.vars P x sel ∧ sel ≠ []) := by
  rcases passIn_spec ran with ⟨rfl, -, -⟩ | ⟨sels, p', selected, -, -, searched⟩
  · exact ⟨by omega, fun changed => absurd rfl changed⟩
  -- each atom selected empty tuples, so the search adds at most one
  have blank : Blank sels.toArray := by
    intro sel mem t ht
    obtain ⟨x, -, held, -⟩ := List.Forall₂.exists_of_mem selected.flip
      (by simpa using mem)
    obtain ⟨tests, -, -, -, -, rfl⟩ := held
    rw [novars] at ht
    exact TableAtom.eq_nil_of_mem_select ht
  refine ⟨JoinStep.search_adds_at_most_one blank _ searched, fun _ x mem => ?_⟩
  obtain ⟨sel, -, held, nonempty⟩ := List.Forall₂.exists_of_mem selected mem
  exact ⟨sel, held.grow (PoolM.run_grows searched), nonempty⟩

/-- Pass `i` of a run from `lastRun` searches: every atom selects some row in the range the
pass gives it. -/
def CompiledQuery.Searches (q : CompiledQuery) (table : String → Table) (includeSubsumed : Bool)
    (lastRun i : Nat) (P : Pool) : Prop :=
  ∀ x ∈ q.atoms.zip ((List.range q.atoms.length).map (passRange lastRun i)),
    ∃ sel, SelectedIn table includeSubsumed q.vars P x sel ∧ sel ≠ []

theorem CompiledQuery.Searches.grow {lastRun i : Nat} {P Q : Pool}
    (h : q.Searches table includeSubsumed lastRun i P) (grows : P.Grows Q) :
    q.Searches table includeSubsumed lastRun i Q := fun x mem => by
  obtain ⟨sel, held, nonempty⟩ := h x mem
  exact ⟨sel, held.grow grows, nonempty⟩

/-- Pass `i` adds at most one tuple, and adds one only when it searches. -/
theorem CompiledQuery.newPass_adds_at_most_one (novars : q.vars = []) {lastRun i : Nat}
    {found found' : Found} {p P : Pool}
    (ran : (q.newPass table lastRun includeSubsumed found i).run p = .ok (found', P)) :
    found'.tuples.size ≤ found.tuples.size + 1 ∧
      (found'.tuples.size ≠ found.tuples.size → q.Searches table includeSubsumed lastRun i P) := by
  unfold CompiledQuery.newPass at ran
  split at ran
  · obtain ⟨rfl, rfl⟩ := PoolM.run_pure_inv ran
    exact ⟨by omega, fun changed => absurd rfl changed⟩
  dsimp only at ran
  split at ran
  · obtain ⟨rfl, rfl⟩ := PoolM.run_pure_inv ran
    exact ⟨by omega, fun changed => absurd rfl changed⟩
  exact q.pass_adds_at_most_one novars ran

variable (within : ∀ a ∈ q.atoms, ∀ v ∈ a.vars, v ∈ q.vars) (novars : q.vars = [])
  (narrow : ∀ a ∈ q.atoms, ∀ e ∈ ((table a.func).rows includeSubsumed).map (·.2),
    e.inputs.length + 1 ≤ a.args.length)
  (indexed : ∀ a ∈ q.atoms, (table a.func).Indexed)
include within novars narrow indexed

/-- **No two passes search.** Atom `j` selects in pass `j` a row written at `lastRun` or later,
and in a later pass `i` one written before; both pass the atom, so they are one row. -/
theorem closed_passes_apart {lastRun i j : Nat} {P : Pool} (lt : i < q.atoms.length) (before : j < i)
    (first : q.Searches table includeSubsumed lastRun j P)
    (later : q.Searches table includeSubsumed lastRun i P) : False := by
  have at_j : q.atoms[j]? = some q.atoms[j] := List.getElem?_eq_getElem (by omega)
  have mem : q.atoms[j] ∈ q.atoms := List.getElem_mem _
  have closed : q.atoms[j].vars = [] := List.eq_nil_iff_forall_not_mem.mpr fun v listed => by
    simpa [novars] using within _ mem v listed
  -- the row atom `j` reads in its own pass is new, and the one it reads in pass `i` is old
  obtain ⟨sel, held, nonempty⟩ := first _ (mem_zip_range_map.mpr ⟨j, at_j, rfl⟩)
  obtain ⟨e, row, passes⟩ := held.passes nonempty
  obtain ⟨sel', held', nonempty'⟩ := later _ (mem_zip_range_map.mpr ⟨j, at_j, rfl⟩)
  obtain ⟨e', row', passes'⟩ := held'.passes nonempty'
  simp only [passRange, Nat.lt_irrefl, if_false, if_true, before] at row row'
  obtain ⟨r, between, rfl⟩ := List.mem_map.mp row
  obtain ⟨r', between', rfl⟩ := List.mem_map.mp row'
  obtain ⟨listed, fresh, -⟩ := Table.mem_rowsBetween.mp between
  obtain ⟨listed', -, old⟩ := Table.mem_rowsBetween.mp between'
  have wide := narrow _ mem r.2 (List.mem_map_of_mem listed)
  have wide' := narrow _ mem r'.2 (List.mem_map_of_mem listed')
  have same := passes.eq_of_closed closed passes' (by simp; omega) (by simp; omega)
  have one := (indexed _ mem).eq_of_inputs_eq (List.mem_map_of_mem listed)
    (List.mem_map_of_mem listed') (List.append_inj' same rfl).1
  simp only [Option.all_some, decide_eq_true_eq] at old
  rw [one] at fresh
  omega


/-- The passes of a run before pass `k` leave no tuple, or one from a pass that searched. -/
theorem closed_passes_add_at_most_one {lastRun limit : Nat} {p : Pool} (k : Nat)
    (le : k ≤ q.atoms.length) {found : Found} {P : Pool}
    (ran : ((List.range k).foldlM (q.newPass table lastRun includeSubsumed) ⟨#[], limit⟩).run p =
      .ok (found, P)) :
    found.tuples.size = 0 ∨
      (found.tuples.size = 1 ∧ ∃ j < k, q.Searches table includeSubsumed lastRun j P) := by
  induction k generalizing found P with
  | zero =>
    obtain ⟨rfl, rfl⟩ := PoolM.run_pure_inv ran
    exact .inl rfl
  | succ k ih =>
    rw [List.range_succ, List.foldlM_append] at ran
    obtain ⟨found₁, P₁, before, pass⟩ := PoolM.run_bind_ok ran
    simp only [List.foldlM_cons, List.foldlM_nil, bind_pure] at pass
    have grows := PoolM.run_grows pass
    obtain ⟨bound, searched⟩ := q.newPass_adds_at_most_one novars pass
    rcases ih (by omega) before with none | ⟨one, j, lt, first⟩
    · by_cases same : found.tuples.size = 0
      · exact .inl same
      · exact .inr ⟨by omega, k, by omega, searched (by omega)⟩
    · -- a second tuple would come from a second pass that searched
      by_cases same : found.tuples.size = 1
      · exact .inr ⟨same, j, by omega, first.grow grows⟩
      · exact absurd (searched (by omega))
          fun second => closed_passes_apart within novars narrow indexed (by omega) lt
            (first.grow grows) second

/-- **A query without variables finds at most one tuple**, from any last-run time, with any
limit, over tables with one live row per inputs whose entries are no wider than the atoms that
read them, where every variable of an atom is one of the query's. -/
theorem CompiledQuery.run_finds_at_most_one (lastRun limit : Nat) {p P : Pool}
    {found : List (List Value)}
    (ran : (q.run table lastRun includeSubsumed limit).run p = .ok (found, P)) :
    found.length ≤ 1 := by
  by_cases empty : q.atoms.length = 0
  · by_cases fresh : lastRun = 0
    · -- without table atoms the search starts from no selections, once
      simp only [CompiledQuery.run, empty, fresh, if_true] at ran
      obtain ⟨found', P', searched, done⟩ := PoolM.run_bind_ok ran
      obtain ⟨rfl, rfl⟩ := PoolM.run_pure_inv done
      have blank : Blank #[] := by simp [Blank]
      simpa using JoinStep.search_adds_at_most_one blank _ searched
    · simp only [CompiledQuery.run, empty, fresh, if_true, if_false] at ran
      obtain ⟨rfl, rfl⟩ := PoolM.run_pure_inv ran
      simp
  by_cases fresh : lastRun = 0
  · -- from scratch: one pass with every atom reading every row
    simp only [CompiledQuery.run, empty, fresh, if_true, if_false] at ran
    obtain ⟨found', P', passed, done⟩ := PoolM.run_bind_ok ran
    obtain ⟨rfl, rfl⟩ := PoolM.run_pure_inv done
    simpa using (q.pass_adds_at_most_one novars passed).1
  · rw [CompiledQuery.run_eq_passes q table includeSubsumed limit fresh empty, PoolM.run_map] at ran
    rcases folded : ((List.range q.atoms.length).foldlM (q.newPass table lastRun includeSubsumed)
      ⟨#[], limit⟩).run p with e | ⟨found', P'⟩
    · rw [folded] at ran
      cases ran
    · simp only [folded, Except.map, Except.ok.injEq, Prod.mk.injEq] at ran
      obtain ⟨rfl, rfl⟩ := ran
      have counted := closed_passes_add_at_most_one within novars narrow indexed _ le_rfl folded
      simp only [Array.length_toList]
      omega

end Passes

end Saturate
