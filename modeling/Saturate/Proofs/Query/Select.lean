import Saturate.Proofs.Query.Frame

/-!
What the selection of a table atom keeps.

A table atom asks of a row that its literal columns hold the literals'
values and that a repeated variable repeats the column of its first
occurrence (`TableAtom.Passes`); the selection keeps, of each row that
passes, the columns of the atom's variables in the order of the query's
variables.

* `TableAtom.tests_all_iff`: the tests `TableAtom.tests` computes, read at
  any later pool, say exactly that a row passes.
* `TableAtom.passes_and_project_iff`: a row passes and projects onto the
  values of a complete tuple exactly when the atom's terms denote the row's
  columns under that tuple (`AtomTerm.Denotes`).
* `TableAtom.mem_select_iff`: hence a complete tuple projects onto a
  selected tuple exactly when one of the rows is denoted by the atom.
-/

namespace Saturate

open PoolM

/-! ### Denotation of terms -/

/-- The value a term of an atom denotes under the values `sigma` of the
variables `vars`, at pool `P`: a variable the value of its slot, a literal
its value, already interned at `P`. -/
def AtomTerm.Denotes (P : Pool) (vars : List String) (sigma : List Value) : AtomTerm → Value → Prop
  | .var v, x => ∃ i, vars.idxOf? v = some i ∧ sigma[i]? = some x
  | .lit l, x => l.toValue.run P = .ok (x, P)

/-- The sort of a term, given the sorts of the variables: its variable's, or
its literal's. -/
def AtomTerm.sortUnder (sortOf : String → SortInfo) : AtomTerm → SortInfo
  | .var v => sortOf v
  | .lit l => TypeInfo.literalSort l

theorem AtomTerm.Denotes.unique {P : Pool} {vars : List String} {sigma : List Value} :
    ∀ {t : AtomTerm} {x y : Value}, t.Denotes P vars sigma x → t.Denotes P vars sigma y → x = y
  | .var _, _, _, ⟨i, hi, hx⟩, ⟨j, hj, hy⟩ => by
    rw [hi] at hj
    cases hj
    rw [hx] at hy
    exact Option.some.inj hy
  | .lit _, _, _, hx, hy => by
    simp only [AtomTerm.Denotes] at hx hy
    rw [hx] at hy
    cases hy
    rfl

theorem List.forall₂_iff_getElem? {α β : Type} {R : α → β → Prop} :
    ∀ {l₁ : List α} {l₂ : List β}, List.Forall₂ R l₁ l₂ ↔
      l₁.length = l₂.length ∧ ∀ (i : Nat) a b, l₁[i]? = some a → l₂[i]? = some b → R a b
  | [], l₂ => by cases l₂ <;> simp
  | _ :: _, [] => by simp
  | a :: l₁, b :: l₂ => by
    rw [List.forall₂_cons, forall₂_iff_getElem?]
    constructor
    · rintro ⟨head, same, tail⟩
      refine ⟨by simp [same], fun i x y hx hy => ?_⟩
      cases i with
      | zero =>
        simp only [List.getElem?_cons_zero, Option.some.injEq] at hx hy
        exact hx ▸ hy ▸ head
      | succ i => exact tail i x y (by simpa using hx) (by simpa using hy)
    · rintro ⟨same, each⟩
      exact ⟨each 0 a b rfl rfl, by simpa using same,
        fun i x y hx hy => each (i + 1) x y (by simpa using hx) (by simpa using hy)⟩

/-! ### Settled folds -/

namespace PoolM

variable {α β : Type}

/-- A `filterMapM` of settled steps that ran from `p` runs again, step by
step, at every pool grown from the one it reached, adding nothing there. -/
theorem filterMapM_again {f : α → PoolM (Option β)} (settled : ∀ x, (f x).Settled) :
    ∀ {xs : List α} {ys : List β} {p p' : Pool}, (xs.filterMapM f).run p = .ok (ys, p') →
      ∀ Q, p'.Grows Q → ∃ os : List (Option β),
        List.Forall₂ (fun x o => (f x).run Q = .ok (o, Q)) xs os ∧ ys = os.filterMap id
  | [], ys, p, p', ran, Q, _ => by
    rw [List.filterMapM_nil] at ran
    obtain ⟨rfl, rfl⟩ := run_pure_inv ran
    exact ⟨[], .nil, rfl⟩
  | x :: xs, ys, p, p', ran, Q, grown => by
    rw [List.filterMapM_cons] at ran
    obtain ⟨o, q, first, rest⟩ := run_bind_ok ran
    cases o with
    | none =>
      obtain ⟨os, each, rfl⟩ := filterMapM_again settled rest Q grown
      exact ⟨none :: os, .cons (settled x p none q first Q ((run_grows rest).trans grown)) each, rfl⟩
    | some b =>
      obtain ⟨bs, q', tail, done⟩ := run_bind_ok rest
      obtain ⟨rfl, rfl⟩ := run_pure_inv done
      obtain ⟨os, each, rfl⟩ := filterMapM_again settled tail Q grown
      exact ⟨some b :: os, .cons (settled x p (some b) q first Q ((run_grows tail).trans grown)) each,
        rfl⟩

end PoolM

/-- The kept answers all pass a check exactly when every input is good, when
each answer passes it exactly for a good input. -/
theorem all_filterMap_iff {α β : Type} {R : α → Option β → Prop} {check : β → Bool}
    {Good : α → Prop} :
    ∀ {xs : List α} {os : List (Option β)}, List.Forall₂ R xs os →
      (∀ x ∈ xs, ∀ o, R x o → (o.all check = true ↔ Good x)) →
      ((os.filterMap id).all check = true ↔ ∀ x ∈ xs, Good x)
  | _, _, .nil, _ => by simp
  | x :: xs, o :: os, .cons head tail, each => by
    have rest := all_filterMap_iff tail fun y hy => each y (List.mem_cons_of_mem _ hy)
    have this := each x List.mem_cons_self o head
    cases o <;> simp_all

/-! ### First occurrences -/

theorem List.idxOf?_eq_some_iff_idxOf {α : Type} [BEq α] {l : List α} {a : α} {i : Nat} :
    l.idxOf? a = some i ↔ i < l.length ∧ l.idxOf a = i := by
  unfold List.idxOf? List.idxOf
  exact List.findIdx?_eq_some_iff_findIdx_eq

theorem List.idxOf?_eq_some_idxOf {α : Type} [BEq α] [LawfulBEq α] {l : List α} {a : α} (mem : a ∈ l) :
    l.idxOf? a = some (l.idxOf a) :=
  List.idxOf?_eq_some_iff_idxOf.mpr ⟨List.idxOf_lt_length_of_mem mem, rfl⟩

/-- The first occurrence of the term at position `i`, looked up among the
positions before `i`, or `i` itself when it occurs first there. -/
theorem List.idxOf_eq_getD_take {α : Type} [BEq α] [LawfulBEq α] {l : List α} {i : Nat} {a : α}
    (found : l[i]? = some a) : l.idxOf a = ((l.take i).idxOf? a).getD i := by
  have mem : a ∈ l := List.mem_of_getElem? found
  have first := List.idxOf?_eq_some_idxOf mem
  -- the first occurrence comes no later than `i`
  have le : l.idxOf a ≤ i := by
    obtain ⟨within, rfl⟩ := List.getElem?_eq_some_iff.mp found
    refine Nat.le_of_not_lt fun lt => ?_
    have early := List.not_of_lt_findIdx (p := (· == l[i])) lt
    simp at early
  unfold List.idxOf? at first ⊢
  rw [List.findIdx?_take, first]
  by_cases lt : l.idxOf a < i
  · simp [Option.guard, lt]
  · simp [Option.guard, lt]
    omega

/-- In a list without repeats, the first occurrence of an element is where it is. -/
theorem idxOf?_of_nodup {vars : List String} (nodup : vars.Nodup) {k : Nat} {v : String}
    (found : vars[k]? = some v) : vars.idxOf? v = some k := by
  obtain ⟨within, rfl⟩ := List.getElem?_eq_some_iff.mp found
  exact List.idxOf?_eq_some_iff_idxOf.mpr ⟨within, nodup.idxOf_getElem k within⟩

/-! ### The tests of a table atom -/

namespace TableAtom

/-- What a table atom asks of column `i` of a row, where it has term `t`, at
pool `Q`: a literal's value, or what the column of the variable's first
occurrence holds. -/
def ColumnPasses (Q : Pool) (a : TableAtom) (r : List Value) : AtomTerm × Nat → Prop
  | (.lit l, i) => ∃ x, l.toValue.run Q = .ok (x, Q) ∧ r[i]? = some x
  | (.var v, i) => r[a.args.idxOf (.var v)]? = r[i]?

/-- A row passes a table atom when every column passes. -/
def Passes (Q : Pool) (a : TableAtom) (r : List Value) : Prop :=
  ∀ x ∈ a.args.zipIdx, a.ColumnPasses Q r x

/-- **The tests of an atom say that a row passes.** Read at any pool grown
from the one computing them reached, the tests all hold of a row exactly
when it passes. -/
theorem tests_all_iff {a : TableAtom} {p p' Q : Pool} {tests : List RowTest}
    (ran : a.tests.run p = .ok (tests, p')) (grown : p'.Grows Q) {r : List Value}
    {check : RowTest → Bool} (const : ∀ i v, check (.const i v) = (r[i]? == some v))
    (same : ∀ j i, check (.same j i) = (r[j]? == r[i]?)) :
    tests.all check = true ↔ a.Passes Q r := by
  unfold TableAtom.tests at ran
  have again := filterMapM_again ?settled ran Q grown
  case settled =>
    rintro ⟨t, i⟩
    cases t with
    | lit l => exact (Literal.toValue_settled l).map _
    | var v =>
      dsimp only
      split <;> exact settled_pure _
  obtain ⟨os, each, rfl⟩ := again
  refine all_filterMap_iff each fun x mem o answer => ?_
  obtain ⟨t, i⟩ := x
  cases t with
  | lit l =>
    rw [run_map] at answer
    rcases value : l.toValue.run Q with e | ⟨y, Q'⟩
    · simp [value, Except.map] at answer
    · simp only [value, Except.map, Function.comp_apply, Except.ok.injEq, Prod.mk.injEq] at answer
      obtain ⟨rfl, rfl⟩ := answer
      simp [ColumnPasses, value, const]
  | var v =>
    -- the test compares with the first occurrence before `i`, if there is one
    rw [ColumnPasses, List.idxOf_eq_getD_take (List.mem_zipIdx_iff_getElem?.mp mem)]
    dsimp only at answer
    split at answer <;> obtain ⟨rfl, -⟩ := run_pure_inv answer
    · rename_i j first
      simp [same, first]
    · rename_i first
      simp [first]

/-! ### Projections of rows -/

theorem mem_vars_iff {a : TableAtom} {v : String} : v ∈ a.vars ↔ .var v ∈ a.args := by
  simp only [vars, List.mem_filterMap]
  constructor
  · rintro ⟨t, mem, named⟩
    cases t with
    | var w =>
      cases named
      exact mem
    | lit l => cases named
  · intro mem
    exact ⟨.var v, mem, rfl⟩

/-- The columns the selection reads: for each query variable the atom
mentions, the column of its first occurrence. -/
theorem projection_eq (a : TableAtom) (vars : List String) :
    a.projection vars = (vars.filter (· ∈ a.vars)).map fun v => a.args.idxOf (.var v) := by
  induction vars with
  | nil => rfl
  | cons v vs ih =>
    unfold projection at ih ⊢
    by_cases mem : v ∈ a.vars
    · simp [mem, List.idxOf?_eq_some_idxOf (mem_vars_iff.mp mem), ih]
    · simp [mem, mem_vars_iff.not.mp mem, ih]

/-- A row with a column for each term has a selected column for each query
variable the atom mentions. -/
theorem length_filterMap_projection (a : TableAtom) (vars : List String) {r : List Value}
    (arity : r.length = a.args.length) :
    ((a.projection vars).filterMap (r[·]?)).length = (vars.filter (· ∈ a.vars)).length := by
  rw [projection_eq, List.filterMap_map, List.filterMap_length_eq_length]
  intro v mem
  have mentioned := mem_vars_iff.mp (of_decide_eq_true (List.mem_filter.mp mem).2)
  simp [arity, List.idxOf_lt_length_of_mem mentioned]

/-- The selected columns of a row are a tuple's values at the atom's
variables exactly when, for each variable the atom mentions, the column of
its first occurrence holds the tuple's value. -/
theorem filterMap_projection_eq_project_iff (a : TableAtom) {r : List Value}
    (long : a.args.length ≤ r.length) :
    ∀ {vars : List String} {sigma : List Value}, vars.length = sigma.length →
      ((a.projection vars).filterMap (r[·]?) = a.project vars sigma ↔
        List.Forall₂ (fun v x => v ∈ a.vars → r[a.args.idxOf (.var v)]? = some x) vars sigma)
  | [], [], _ => by simp [projection, project]
  | v :: vs, x :: xs, same => by
    have rest := filterMap_projection_eq_project_iff a long
      (show vs.length = xs.length by simpa using same)
    rw [List.forall₂_cons, ← rest]
    by_cases mem : v ∈ a.vars
    · have first := List.idxOf?_eq_some_idxOf (mem_vars_iff.mp mem)
      have within := List.idxOf_lt_length_of_mem (mem_vars_iff.mp mem)
      simp [projection, project, mem, first, Nat.lt_of_lt_of_le within long]
    · simp [projection, project, mem, mem_vars_iff.not.mp mem]

/-- **A row passes and projects onto a complete tuple exactly when the atom
denotes it.** Take a row with a column for each term of the atom and a tuple
with a value for each query variable. The row passes the atom's tests and its
selected columns are the tuple's values at the atom's variables, exactly when
each term of the atom denotes its column. -/
theorem passes_and_project_iff (a : TableAtom) {Q : Pool} {vars : List String} (nodup : vars.Nodup)
    (within : ∀ v ∈ a.vars, v ∈ vars) {sigma r : List Value} (length : sigma.length = vars.length)
    (arity : r.length = a.args.length) :
    a.Passes Q r ∧ (a.projection vars).filterMap (r[·]?) = a.project vars sigma ↔
      List.Forall₂ (AtomTerm.Denotes Q vars sigma) a.args r := by
  rw [filterMap_projection_eq_project_iff a (Nat.le_of_eq arity.symm) length.symm, List.forall₂_iff_getElem?,
    List.forall₂_iff_getElem?]
  have column : ∀ (i : Nat) (t : AtomTerm), a.args[i]? = some t → ∃ x, r[i]? = some x := by
    intro i t ht
    have inside : i < r.length := by rw [arity]; exact (List.getElem?_eq_some_iff.mp ht).1
    exact ⟨r[i], List.getElem?_eq_getElem inside⟩
  have slot : ∀ (k : Nat) v, vars[k]? = some v → ∃ x, sigma[k]? = some x := by
    intro k v hv
    have inside : k < sigma.length := by rw [length]; exact (List.getElem?_eq_some_iff.mp hv).1
    exact ⟨sigma[k], List.getElem?_eq_getElem inside⟩
  -- the first occurrence of a variable is a column that holds it
  have first : ∀ w ∈ a.vars, a.args[a.args.idxOf (.var w)]? = some (.var w) := fun w mem =>
    List.getElem?_idxOf (mem_vars_iff.mp mem)
  constructor
  · rintro ⟨passes, -, proj⟩
    refine ⟨arity.symm, fun i t x ht hx => ?_⟩
    have passed := passes (t, i) (List.mem_zipIdx_iff_getElem?.mpr ht)
    cases t with
    | lit l =>
      obtain ⟨y, value, hy⟩ := passed
      rw [hx] at hy
      cases hy
      exact value
    | var w =>
      have mem : w ∈ a.vars := mem_vars_iff.mpr (List.mem_of_getElem? ht)
      obtain ⟨k, hk⟩ := List.mem_iff_getElem?.mp (within w mem)
      obtain ⟨y, hy⟩ := slot k w hk
      refine ⟨k, idxOf?_of_nodup nodup hk, ?_⟩
      have read : r[a.args.idxOf (.var w)]? = some y := proj k w y hk hy mem
      rw [hy, ← read]
      exact (passed.trans hx).symm ▸ rfl
  · rintro ⟨-, each⟩
    -- a variable denotes the column of its first occurrence
    have denoted : ∀ w ∈ a.vars, ∃ y, r[a.args.idxOf (.var w)]? = some y ∧
        (AtomTerm.var w).Denotes Q vars sigma y := by
      intro w mem
      obtain ⟨y, hy⟩ := column _ _ (first w mem)
      exact ⟨y, hy, each _ _ _ (first w mem) hy⟩
    refine ⟨fun ⟨t, i⟩ mem => ?_, length.symm, fun k v x hv hx mem => ?_⟩
    · have ht := List.mem_zipIdx_iff_getElem?.mp mem
      obtain ⟨x, hx⟩ := column i t ht
      cases t with
      | lit l => exact ⟨x, each i _ x ht hx, hx⟩
      | var w =>
        obtain ⟨y, hy, dy⟩ := denoted w (mem_vars_iff.mpr (List.mem_of_getElem? ht))
        show r[a.args.idxOf (.var w)]? = r[i]?
        rw [hy, hx, (each i _ x ht hx).unique dy]
    · obtain ⟨y, hy, dy⟩ := denoted v mem
      rw [hy, dy.unique ⟨k, idxOf?_of_nodup nodup hv, hx⟩]

/-! ### Selections -/

section Selection

variable {a : TableAtom} {p p' Q : Pool} {tests : List RowTest} {vars : List String}
  {rows : List (Nat × Entry)}

/-- **What the selection of an atom keeps.** Let the tests be computed from
some pool and read at `Q`, grown from the pool that reached, and let every
row have a column for each term of the atom. A complete tuple projects onto a
selected tuple exactly when the atom's terms denote the columns of one of the
rows. -/
theorem mem_select_iff (ran : a.tests.run p = .ok (tests, p')) (grown : p'.Grows Q)
    (nodup : vars.Nodup) (within : ∀ v ∈ a.vars, v ∈ vars)
    (arity : ∀ e ∈ rows.map (·.2), e.inputs.length + 1 = a.args.length) {sigma : List Value}
    (length : sigma.length = vars.length) :
    a.project vars sigma ∈ a.select vars tests rows ↔
      ∃ e ∈ rows.map (·.2),
        List.Forall₂ (AtomTerm.Denotes Q vars sigma) a.args (e.inputs ++ [e.output.value]) := by
  have denoted := fun (e : Entry) (mem : e ∈ rows.map (·.2)) =>
    passes_and_project_iff a (Q := Q) nodup within length (r := e.inputs ++ [e.output.value])
      (by simp [arity e mem])
  simp only [select, List.mem_filterMap]
  constructor
  · rintro ⟨⟨i, e⟩, mem, kept⟩
    have listed : e ∈ rows.map (·.2) := List.mem_map.mpr ⟨(i, e), mem, rfl⟩
    split at kept
    · rename_i ok
      exact ⟨e, listed, (denoted e listed).mp
        ⟨(tests_all_iff ran grown (fun _ _ => rfl) (fun _ _ => rfl)).mp ok, Option.some.inj kept⟩⟩
    · cases kept
  · rintro ⟨e, listed, columns⟩
    obtain ⟨⟨i, e'⟩, mem, rfl⟩ := List.mem_map.mp listed
    obtain ⟨passes, proj⟩ := (denoted _ listed).mpr columns
    refine ⟨(i, e'), mem, ?_⟩
    rw [if_pos ((tests_all_iff ran grown (fun _ _ => rfl) (fun _ _ => rfl)).mpr passes), proj]

/-- A selected tuple has a value for each query variable the atom mentions. -/
theorem length_of_mem_select (arity : ∀ e ∈ rows.map (·.2), e.inputs.length + 1 = a.args.length)
    {w : List Value} (mem : w ∈ a.select vars tests rows) :
    w.length = (vars.filter (· ∈ a.vars)).length := by
  simp only [select, List.mem_filterMap] at mem
  obtain ⟨⟨i, e⟩, listed, kept⟩ := mem
  split at kept
  · cases kept
    exact length_filterMap_projection a vars
      (by simp [arity e (List.mem_map.mpr ⟨(i, e), listed, rfl⟩)])
  · cases kept

/-- A value of a selected tuple is a column of one of the rows. -/
theorem mem_row_of_mem_select {w : List Value} (mem : w ∈ a.select vars tests rows) :
    ∀ v ∈ w, ∃ e ∈ rows.map (·.2), v ∈ e.inputs ++ [e.output.value] := by
  simp only [select, List.mem_filterMap] at mem
  obtain ⟨⟨i, e⟩, listed, kept⟩ := mem
  split at kept
  · cases kept
    intro v hv
    obtain ⟨j, -, hj⟩ := List.mem_filterMap.mp hv
    exact ⟨e, List.mem_map.mpr ⟨(i, e), listed, rfl⟩, List.mem_of_getElem? hj⟩
  · cases kept

/-- The selected columns of a row whose columns are values of the sorts of
the atom's terms are values of the sorts of the atom's variables. -/
theorem forall₂_holds_filterMap {P : Pool} {sortOf : String → SortInfo} {r : List Value}
    (held : List.Forall₂ P.Holds (a.args.map (AtomTerm.sortUnder sortOf)) r) :
    ∀ l : List String, (∀ v ∈ l, v ∈ a.vars) →
      List.Forall₂ P.Holds (l.map sortOf) (l.filterMap fun v => r[a.args.idxOf (.var v)]?)
  | [], _ => .nil
  | v :: l, mentioned => by
    have mem := mem_vars_iff.mp (mentioned v List.mem_cons_self)
    have inside : a.args.idxOf (.var v) < r.length := by
      rw [← held.length_eq, List.length_map]
      exact List.idxOf_lt_length_of_mem mem
    have sorted : (a.args.map (AtomTerm.sortUnder sortOf))[a.args.idxOf (.var v)]? = some (sortOf v) := by
      simp [List.getElem?_idxOf mem, AtomTerm.sortUnder]
    rw [List.filterMap_cons, List.getElem?_eq_getElem inside, List.map_cons]
    exact .cons (forall₂_getElem? held sorted (List.getElem?_eq_getElem inside))
      (forall₂_holds_filterMap held l fun w hw => mentioned w (List.mem_cons_of_mem _ hw))

/-- **Selected tuples are sorted.** Of rows whose columns are values of the
sorts of the atom's terms, every selected tuple is a list of values of the
sorts of the atom's variables, in query order. -/
theorem holds_of_mem_select {P : Pool} {sortOf : String → SortInfo}
    (held : ∀ e ∈ rows.map (·.2),
      List.Forall₂ P.Holds (a.args.map (AtomTerm.sortUnder sortOf)) (e.inputs ++ [e.output.value]))
    {w : List Value} (mem : w ∈ a.select vars tests rows) :
    List.Forall₂ P.Holds ((vars.filter (· ∈ a.vars)).map sortOf) w := by
  simp only [select, List.mem_filterMap] at mem
  obtain ⟨⟨i, e⟩, listed, kept⟩ := mem
  split at kept
  · cases kept
    rw [projection_eq, List.filterMap_map]
    exact forall₂_holds_filterMap (held e (List.mem_map.mpr ⟨(i, e), listed, rfl⟩)) _
      fun v hv => of_decide_eq_true (List.mem_filter.mp hv).2
  · cases kept

end Selection

end TableAtom

end Saturate
