import Mathlib
import Saturate.Typing.Core
import Saturate.Prim.Apply

/-!
# Removing equalities from a rule

`CoreRule.canonicalize` solves the equalities of a flattened body one at a
time. The first equality between a variable and another term (`nextStep`)
replaces the variable everywhere in the rule, body and head, and the
replacement joins the substitution returned. When no such equality is left,
the equalities are dropped, and the rule is reported unsatisfiable when one
of them relates two literals that are not the same term.

A body is read under a valuation of its variables (`Atom.Holds`): a call
holds when an interpretation of the called names says so, and an equality
when its arguments have one value, the value of a literal being given by
`den`. The main statement, `CoreRule.canonicalize_keeps_meaning`, holds
whenever comparing two literals of the body as terms (`Literal.same`) agrees
with comparing their values:

* the substitution reaches its normal form within the fuel: no equality
  between a variable and another term is left;
* the rule returned is the rule under the substitution, without its
  equalities;
* the rule is reported unsatisfiable exactly when no valuation satisfies the
  equalities of the body;
* otherwise a valuation satisfies the rule returned exactly when the
  valuation read through the substitution satisfies the body.

The agreement of literals is a real condition: `0.0` and `-0.0` are one
term but two values, and their equality is dropped as if it held
(`canonicalize_drops_equality_of_signed_zeros`).

One step of the loop is `CoreRule.SolveStep`. What a step keeps (the
literals of the body, the shape of its equalities, every valuation that
satisfies its equalities, and the rule as the original one under the
substitution so far) is proved once per step and carried along the steps.
-/

namespace Saturate

/-! ### Terms under a valuation -/

namespace AtomTerm

/-- The value of a term: a variable's under `σ`, a literal's by `den`. -/
def eval (den : Literal → Value) (σ : String → Value) : AtomTerm → Value
  | .var v => σ v
  | .lit l => den l

/-- The valuation that reads every variable through a substitution first. -/
def after (den : Literal → Value) (σ : String → Value) (m : Std.HashMap String AtomTerm) :
    String → Value :=
  fun v => ((AtomTerm.var v).subst m).eval den σ

theorem eval_subst (den : Literal → Value) (σ : String → Value) (m : Std.HashMap String AtomTerm)
    (t : AtomTerm) : (t.subst m).eval den σ = t.eval den (after den σ m) := by
  cases t <;> rfl

/-- The substitution of `t` for `x` alone, one step of `canonicalize`. -/
abbrev oneSubst (x : String) (t : AtomTerm) : Std.HashMap String AtomTerm :=
  (∅ : Std.HashMap String AtomTerm).insert x t

/-- The substitution after a step: `t` put for `x` in every image, and `x`
mapped to `t`. -/
abbrev extendSubst (m : Std.HashMap String AtomTerm) (x : String) (t : AtomTerm) :
    Std.HashMap String AtomTerm :=
  (m.map fun _ v => v.subst (oneSubst x t)).insert x t

theorem subst_var (m : Std.HashMap String AtomTerm) (v : String) :
    (AtomTerm.var v).subst m = (m[v]?).getD (.var v) := by
  simp [subst]

theorem subst_empty (t : AtomTerm) : t.subst ∅ = t := by
  cases t <;> simp [subst]

theorem subst_oneSubst_var (x : String) (t : AtomTerm) (v : String) :
    (AtomTerm.var v).subst (oneSubst x t) = if v = x then t else .var v := by
  rw [subst_var, Std.HashMap.getElem?_insert]
  by_cases hv : v = x
  · subst hv
    simp
  · rw [if_neg (by simpa using Ne.symm hv), if_neg hv]
    simp

/-- A valuation in which `x` already has the value of `t` reads nothing
new through the substitution of `t` for `x`. -/
theorem after_oneSubst {den : Literal → Value} {σ : String → Value} {x : String} {t : AtomTerm}
    (solved : σ x = t.eval den σ) : after den σ (oneSubst x t) = σ := by
  funext v
  simp only [after, subst_oneSubst_var]
  split
  · rename_i hv
    subst hv
    exact solved.symm
  · rfl

/-- Substituting by `m` and then `t` for `x` is substituting by the extended
substitution, as long as `m` does not replace `x`. -/
theorem subst_subst_oneSubst {m : Std.HashMap String AtomTerm} {x : String} {t : AtomTerm}
    (fresh : m[x]? = none) (u : AtomTerm) :
    (u.subst m).subst (oneSubst x t) = u.subst (extendSubst m x t) := by
  cases u with
  | lit l => rfl
  | var v =>
    rw [subst_var m, subst_var (extendSubst m x t), Std.HashMap.getElem?_insert]
    by_cases hv : v = x
    · subst hv
      simp [fresh, subst_oneSubst_var]
    · rw [if_neg (by simpa using Ne.symm hv), Std.HashMap.getElem?_map]
      cases m[v]? with
      | none => simp [subst_oneSubst_var, hv]
      | some w => rfl

theorem same_var_var {v w : String} : (AtomTerm.var v).same (.var w) = true ↔ v = w := by
  simp [same, key]

theorem same_lit_lit (a b : Literal) : (AtomTerm.lit a).same (.lit b) = a.same b := by
  simp [same, key, Literal.same]

theorem same_var_lit (v : String) (l : Literal) : (AtomTerm.var v).same (.lit l) = false := by
  simp [same, key]

theorem same_lit_var (l : Literal) (v : String) : (AtomTerm.lit l).same (.var v) = false := by
  simp [same, key]

end AtomTerm

open AtomTerm

/-- The value a literal takes at a pool: what `Literal.toValue` gives there. -/
def Literal.valueAt (p : Pool) (l : Literal) : Value :=
  ((l.toValue.run p).toOption.map Prod.fst).getD .unit

/-! ### Atoms and bodies under a valuation -/

namespace Atom

/-- An atom with a substitution applied to its arguments. -/
def subst (m : Std.HashMap String AtomTerm) (a : Atom Head) : Atom Head :=
  { a with args := a.args.map (·.subst m) }

/-- What an equality says: its arguments have one value. -/
def EqHolds (den : Literal → Value) (σ : String → Value) (a : Atom Head) : Prop :=
  ∀ x ∈ a.args, ∀ y ∈ a.args, x.eval den σ = y.eval den σ

/-- What an atom of a body says under a valuation: an equality, that its
arguments have one value; a call, what the interpretation of its name says
of the values of its arguments. -/
def Holds (den : Literal → Value) (interp : String → List Value → Prop) (σ : String → Value)
    (a : Atom Head) : Prop :=
  (a.head = .eq → a.EqHolds den σ) ∧ ∀ f, a.head = .sym f → interp f (a.args.map (·.eval den σ))

theorem eqHolds_subst {den : Literal → Value} {σ : String → Value} {m : Std.HashMap String AtomTerm}
    {a : Atom Head} : (a.subst m).EqHolds den σ ↔ a.EqHolds den (after den σ m) := by
  simp [EqHolds, subst, eval_subst]

theorem holds_subst {den : Literal → Value} {interp : String → List Value → Prop}
    {σ : String → Value} {m : Std.HashMap String AtomTerm} {a : Atom Head} :
    (a.subst m).Holds den interp σ ↔ a.Holds den interp (after den σ m) := by
  simp only [Holds, eqHolds_subst]
  simp [subst, eval_subst, Function.comp_def]

/-- A two-sided equality holds when its sides have one value. -/
theorem eqHolds_pair {den : Literal → Value} {σ : String → Value} {a : Atom Head}
    {x y : AtomTerm} (args : a.args = [x, y]) : a.EqHolds den σ ↔ x.eval den σ = y.eval den σ := by
  rw [EqHolds, args]
  constructor
  · intro h
    exact h x (by simp) y (by simp)
  · intro h u hu w hw
    simp only [List.mem_cons, List.not_mem_nil, or_false] at hu hw
    rcases hu with rfl | rfl <;> rcases hw with rfl | rfl <;> simp [h]

end Atom

/-- Every equality among some atoms has two sides, as flattening writes them. -/
def EqualitiesBinary (atoms : List (Atom Head)) : Prop :=
  ∀ a ∈ atoms, a.head = .eq → a.args.length = 2

theorem equalitiesBinary_append {xs ys : List (Atom Head)} (hx : EqualitiesBinary xs)
    (hy : EqualitiesBinary ys) : EqualitiesBinary (xs ++ ys) := by
  intro a mem head
  rcases List.mem_append.mp mem with h | h
  · exact hx a h head
  · exact hy a h head

/-! ### Flattening writes two-sided equalities -/

namespace Flatten

theorem equalitiesBinary_chainEq (terms : List AtomTerm) : EqualitiesBinary (chainEq terms) := by
  fun_induction chainEq terms with
  | case1 a b rest ih =>
    intro x mem head
    rcases List.mem_cons.mp mem with rfl | mem
    · rfl
    · exact ih x mem head
  | case2 =>
    intro x mem
    cases mem

theorem ok_of_bind {ε α β : Type} {x : Except ε α} {f : α → Except ε β} {b : β}
    (h : (x >>= f) = .ok b) : ∃ a, x = .ok a ∧ f a = .ok b := by
  cases x with
  | error e => cases h
  | ok a => exact ⟨a, rfl, h⟩

theorem run_pure_eq {α : Type} {a b : α} {st st' : FlattenState}
    (h : (pure a : FlattenM α).run st = .ok (b, st')) : b = a := by
  injection h with same
  simp only [Prod.mk.injEq] at same
  exact same.1.symm

theorem pushCall_binary {f : String} {terms : List AtomTerm} {atoms atoms' : List (Atom Head)}
    {st st' : FlattenState} {t : AtomTerm} (binary : EqualitiesBinary atoms)
    (run : (pushCall f terms atoms).run st = .ok ((t, atoms'), st')) : EqualitiesBinary atoms' := by
  simp only [pushCall, fresh, StateT.run_bind, StateT.run_modifyGet] at run
  have same : atoms' = _ := congrArg Prod.snd (run_pure_eq run)
  subst same
  refine equalitiesBinary_append binary ?_
  intro a mem head
  rcases List.mem_singleton.mp mem with rfl
  cases head

mutual

/-- Flattening an expression of a query adds calls only. -/
theorem queryExpr_binary (globals : String → Bool) (e : Expr) (atoms : List (Atom Head))
    (st : FlattenState) {t : AtomTerm} {atoms' : List (Atom Head)} {st' : FlattenState}
    (binary : EqualitiesBinary atoms)
    (run : (queryExpr globals e atoms).run st = .ok ((t, atoms'), st')) : EqualitiesBinary atoms' := by
  cases e with
  | lit l =>
    have same : atoms' = atoms := congrArg Prod.snd (run_pure_eq run)
    exact same ▸ binary
  | var v =>
    simp only [queryExpr] at run
    split at run
    · exact pushCall_binary binary run
    · have same : atoms' = atoms := congrArg Prod.snd (run_pure_eq run)
      exact same ▸ binary
  | call f args =>
    simp only [queryExpr, StateT.run_bind] at run
    obtain ⟨⟨⟨terms, atoms₁⟩, st₁⟩, first, rest⟩ := ok_of_bind run
    exact pushCall_binary (queryExprs_binary globals args atoms st binary first) rest
termination_by sizeOf e

theorem queryExprs_binary (globals : String → Bool) (es : List Expr) (atoms : List (Atom Head))
    (st : FlattenState) {ts : List AtomTerm} {atoms' : List (Atom Head)} {st' : FlattenState}
    (binary : EqualitiesBinary atoms)
    (run : (queryExprs globals es atoms).run st = .ok ((ts, atoms'), st')) :
    EqualitiesBinary atoms' := by
  cases es with
  | nil =>
    have same : atoms' = atoms := congrArg Prod.snd (run_pure_eq run)
    exact same ▸ binary
  | cons e es =>
    simp only [queryExprs, StateT.run_bind] at run
    obtain ⟨⟨⟨t, atoms₁⟩, st₁⟩, first, run⟩ := ok_of_bind run
    obtain ⟨⟨⟨ts', atoms₂⟩, st₂⟩, second, last⟩ := ok_of_bind run
    have same : atoms' = atoms₂ := congrArg Prod.snd (run_pure_eq last)
    subst same
    exact queryExprs_binary globals es atoms₁ st₁ (queryExpr_binary globals e atoms st binary first)
      second
termination_by sizeOf es

end
/-- A fact adds calls, and for an equality the equalities between
neighbouring sides, two sides each. -/
theorem query_step_binary (globals : String → Bool) {atoms atoms' : List (Atom Head)} {fact : Fact}
    {st st' : FlattenState} (binary : EqualitiesBinary atoms)
    (run : (query.step globals atoms fact).run st = .ok (atoms', st')) : EqualitiesBinary atoms' := by
  cases fact with
  | eq es =>
    simp only [query.step] at run
    split at run
    · cases run
    · simp only [StateT.run_bind] at run
      obtain ⟨⟨⟨terms, atoms₁⟩, st₁⟩, first, last⟩ := ok_of_bind run
      rw [run_pure_eq last]
      exact equalitiesBinary_append (queryExprs_binary globals es atoms st binary first)
        (equalitiesBinary_chainEq terms)
  | holds e =>
    simp only [query.step, StateT.run_bind] at run
    obtain ⟨⟨⟨t, atoms₁⟩, st₁⟩, first, last⟩ := ok_of_bind run
    rw [run_pure_eq last]
    exact queryExpr_binary globals e atoms st binary first

theorem query_binary (globals : String → Bool) (facts : List Fact) {atoms atoms' : List (Atom Head)}
    {st st' : FlattenState} (binary : EqualitiesBinary atoms)
    (run : (facts.foldlM (query.step globals) atoms).run st = .ok (atoms', st')) :
    EqualitiesBinary atoms' := by
  induction facts generalizing atoms st with
  | nil =>
    rw [List.foldlM_nil] at run
    rw [run_pure_eq run]
    exact binary
  | cons fact facts ih =>
    simp only [List.foldlM_cons, StateT.run_bind] at run
    obtain ⟨⟨atoms₁, st₁⟩, first, rest⟩ := ok_of_bind run
    exact ih (query_step_binary globals binary first) rest

/-- **Every flattened rule has two-sided equalities only.** -/
theorem rule_equalitiesBinary (globals : String → Bool) (r : Rule) {core : CoreRule}
    {st st' : FlattenState} (run : (rule globals r).run st = .ok (core, st')) :
    EqualitiesBinary core.body := by
  simp only [rule, StateT.run_bind] at run
  obtain ⟨⟨body, st₁⟩, first, run⟩ := ok_of_bind run
  obtain ⟨⟨⟨⟩, st₂⟩, -, run⟩ := ok_of_bind run
  obtain ⟨⟨head, st₃⟩, -, last⟩ := ok_of_bind run
  rw [run_pure_eq last]
  exact query_binary globals r.body (fun _ mem => by cases mem) first

end Flatten

namespace CoreRule

/-- A valuation satisfies every atom of the body. -/
def Holds (den : Literal → Value) (interp : String → List Value → Prop) (σ : String → Value)
    (r : CoreRule) : Prop :=
  ∀ a ∈ r.body, a.Holds den interp σ

/-- A valuation satisfies every equality of the body. -/
def EqualitiesHold (den : Literal → Value) (σ : String → Value) (r : CoreRule) : Prop :=
  ∀ a ∈ r.body, a.head = .eq → a.EqHolds den σ

/-- A literal is an argument of an atom of the body. -/
def HasLit (r : CoreRule) (l : Literal) : Prop :=
  ∃ a ∈ r.body, AtomTerm.lit l ∈ a.args

/-- The variables of the body. -/
def bodyVars (r : CoreRule) : Finset String :=
  (r.body.flatMap Atom.vars).toFinset

theorem subst_body (r : CoreRule) (m : Std.HashMap String AtomTerm) :
    (r.subst m).body = r.body.map (Atom.subst m) := rfl

theorem mem_bodyVars {r : CoreRule} {v : String} :
    v ∈ r.bodyVars ↔ ∃ a ∈ r.body, AtomTerm.var v ∈ a.args := by
  simp only [bodyVars, List.mem_toFinset, List.mem_flatMap, Atom.vars, List.mem_filterMap]
  constructor
  · rintro ⟨a, mem, u, hu, hv⟩
    cases u with
    | var w =>
      cases hv
      exact ⟨a, mem, hu⟩
    | lit l => cases hv
  · rintro ⟨a, mem, hu⟩
    exact ⟨a, mem, _, hu, rfl⟩

theorem holds_subst {den : Literal → Value} {interp : String → List Value → Prop}
    {σ : String → Value} {m : Std.HashMap String AtomTerm} {r : CoreRule} :
    (r.subst m).Holds den interp σ ↔ r.Holds den interp (after den σ m) := by
  simp [Holds, subst_body, Atom.holds_subst]

theorem equalitiesHold_subst {den : Literal → Value} {σ : String → Value}
    {m : Std.HashMap String AtomTerm} {r : CoreRule} :
    (r.subst m).EqualitiesHold den σ ↔ r.EqualitiesHold den (after den σ m) := by
  simp [EqualitiesHold, subst_body, Atom.subst, ← Atom.eqHolds_subst]

theorem subst_empty (r : CoreRule) : r.subst ∅ = r := by
  have terms : (fun t : AtomTerm => t.subst ∅) = id := funext AtomTerm.subst_empty
  have actions : ∀ c : CoreAction String, c.subst ∅ = c := by
    intro c
    cases c <;> simp [CoreAction.subst, terms]
  cases r with
  | mk body head =>
    simp [subst, terms, actions]

/-- Two substitutions in a row act as one on every part of a rule, when
they do so on every term. -/
theorem subst_subst {m m' m'' : Std.HashMap String AtomTerm}
    (h : ∀ u : AtomTerm, (u.subst m).subst m' = u.subst m'') (r : CoreRule) :
    (r.subst m).subst m' = r.subst m'' := by
  have terms : (fun u : AtomTerm => (u.subst m).subst m') = fun u => u.subst m'' := funext h
  have actions : ∀ c : CoreAction String, (c.subst m).subst m' = c.subst m'' := by
    intro c
    cases c <;> simp [CoreAction.subst, List.map_map, Function.comp_def, h]
  cases r with
  | mk body head =>
    simp [subst, List.map_map, Function.comp_def, terms, actions]

/-! ### What a step of the loop solves -/

/-- The equality a step solves: an equality of the body between the
variable `x` and a different term `t`, in either order. -/
theorem nextStep_solves {r : CoreRule} {x : String} {t : AtomTerm}
    (next : r.nextStep = some (x, t)) :
    ∃ a ∈ r.body, a.head = .eq ∧ (a.args = [.var x, t] ∨ a.args = [t, .var x]) ∧
      t ≠ .var x := by
  obtain ⟨_, a, _, body, found, -⟩ := List.findSome?_eq_some_iff.mp next
  refine ⟨a, by simp [body], ?_⟩
  split at found
  · rename_i y z head args
    split at found
    · cases found
    · rename_i different
      split at found
      · cases found
        exact ⟨head, .inl args, by simp⟩
      · cases found
        exact ⟨head, .inr args, by simp⟩
      · rename_i v w
        have apart : AtomTerm.var v ≠ .var w := fun same =>
          different (by cases same; simp [AtomTerm.same_var_var])
        split at found
        · cases found
          exact ⟨head, .inr args, apart⟩
        · cases found
          exact ⟨head, .inl args, Ne.symm apart⟩
      · cases found
  · cases found

/-- Both sides of the equality a step solves are arguments of one atom. -/
theorem nextStep_mem {r : CoreRule} {x : String} {t : AtomTerm} (next : r.nextStep = some (x, t)) :
    ∃ a ∈ r.body, AtomTerm.var x ∈ a.args ∧ t ∈ a.args := by
  obtain ⟨a, mem, -, args, -⟩ := nextStep_solves next
  exact ⟨a, mem, by rcases args with args | args <;> simp [args]⟩

/-- With no step left, every two-sided equality relates the same terms or
two literals. -/
theorem eq_of_nextStep_none {r : CoreRule} (done : r.nextStep = none) {a : Atom Head}
    (mem : a ∈ r.body) (head : a.head = .eq) {x y : AtomTerm} (args : a.args = [x, y]) :
    x.same y = true ∨ ∃ l l', x = .lit l ∧ y = .lit l' := by
  have none := List.findSome?_eq_none_iff.mp done a mem
  simp only [head, args] at none
  by_cases same : x.same y = true
  · exact .inl same
  · rw [if_neg same] at none
    cases x <;> cases y
    case lit.lit l l' => exact .inr ⟨l, l', rfl, rfl⟩
    all_goals simp at none
    all_goals split at none <;> cases none

theorem solves_mem_bodyVars {r : CoreRule} {x : String} {t : AtomTerm}
    (next : r.nextStep = some (x, t)) :
    x ∈ r.bodyVars ∧ ∀ w, t = .var w → w ∈ r.bodyVars ∧ w ≠ x := by
  obtain ⟨a, mem, hx, ht⟩ := nextStep_mem next
  refine ⟨mem_bodyVars.mpr ⟨a, mem, hx⟩, fun w tw => ⟨mem_bodyVars.mpr ⟨a, mem, tw ▸ ht⟩, ?_⟩⟩
  rintro rfl
  obtain ⟨-, -, -, -, other⟩ := nextStep_solves next
  exact other tw

/-- An argument after substituting `t` for `x` is `t`, put in place of `x`,
or an argument other than `x` that was there. -/
theorem mem_subst_oneSubst {r : CoreRule} {x : String} {t u : AtomTerm}
    (mem : ∃ a ∈ (r.subst (oneSubst x t)).body, u ∈ a.args) :
    (∃ a ∈ r.body, u ∈ a.args ∧ u ≠ .var x) ∨ u = t := by
  obtain ⟨a', mem', hu⟩ := mem
  rw [subst_body, List.mem_map] at mem'
  obtain ⟨a, mem, rfl⟩ := mem'
  simp only [Atom.subst, List.mem_map] at hu
  obtain ⟨w, hw, rfl⟩ := hu
  cases w with
  | lit l => exact .inl ⟨a, mem, hw, by simp [AtomTerm.subst]⟩
  | var v =>
    rw [subst_oneSubst_var]
    split
    · exact .inr rfl
    · rename_i hv
      exact .inl ⟨a, mem, hw, by simpa using hv⟩

/-- Substituting `t` for `x` leaves no other variable than those of the body
and of `t`, and not `x` itself unless `t` is `x`. -/
theorem mem_bodyVars_subst_oneSubst {r : CoreRule} {x w : String} {t : AtomTerm}
    (mem : w ∈ (r.subst (oneSubst x t)).bodyVars) : (w ∈ r.bodyVars ∧ w ≠ x) ∨ t = .var w := by
  rcases mem_subst_oneSubst (mem_bodyVars.mp mem) with ⟨a, mem, hw, ne⟩ | tw
  · exact .inl ⟨mem_bodyVars.mpr ⟨a, mem, hw⟩, by simpa using ne⟩
  · exact .inr tw.symm

/-- A step removes its variable from the body and adds none. -/
theorem bodyVars_solve_ssubset {r : CoreRule} {x : String} {t : AtomTerm}
    (next : r.nextStep = some (x, t)) : (r.subst (oneSubst x t)).bodyVars ⊂ r.bodyVars := by
  obtain ⟨hx, ht⟩ := solves_mem_bodyVars next
  refine Finset.ssubset_iff_of_subset ?_ |>.mpr ⟨x, hx, ?_⟩
  · intro w mem
    rcases mem_bodyVars_subst_oneSubst mem with ⟨old, -⟩ | tw
    · exact old
    · exact (ht w tw).1
  · intro mem
    rcases mem_bodyVars_subst_oneSubst mem with ⟨-, ne⟩ | tx
    · exact ne rfl
    · exact (ht x tx).2 rfl

theorem hasLit_subst_oneSubst {r : CoreRule} {x : String} {t : AtomTerm} {l : Literal}
    (has : (r.subst (oneSubst x t)).HasLit l) : r.HasLit l ∨ t = .lit l := by
  rcases mem_subst_oneSubst has with ⟨a, mem, hl, -⟩ | tl
  · exact .inl ⟨a, mem, hl⟩
  · exact .inr tl.symm

/-! ### One step of the loop -/

/-- One step of `canonicalize`: the variable of the first equality it can
solve is replaced by the other side, in the rule and in the images of the
substitution so far, which then maps it to that side. -/
inductive SolveStep :
    CoreRule × Std.HashMap String AtomTerm → CoreRule × Std.HashMap String AtomTerm → Prop
  | solve {r : CoreRule} {m : Std.HashMap String AtomTerm} {x : String} {t : AtomTerm}
      (next : r.nextStep = some (x, t)) :
      SolveStep (r, m) (r.subst (oneSubst x t), extendSubst m x t)

/-- Steps of `canonicalize`, one after another. -/
abbrev Solves := Relation.ReflTransGen SolveStep

/-- A property of the rule and the substitution kept by every step holds
after any number of steps. -/
theorem Solves.keeps {P : CoreRule × Std.HashMap String AtomTerm → Prop}
    (step : ∀ {s s'}, SolveStep s s' → P s → P s') {s s' : CoreRule × Std.HashMap String AtomTerm}
    (steps : Solves s s') (start : P s) : P s' := by
  induction steps with
  | refl => exact start
  | tail _ last ih => exact step last ih

theorem go_succ_done {fuel : Nat} {r : CoreRule} {m : Std.HashMap String AtomTerm}
    (done : r.nextStep = none) : canonicalize.go (fuel + 1) r m = (r, m) := by
  rw [canonicalize.go, done]

theorem go_succ_solve {fuel : Nat} {r : CoreRule} {m : Std.HashMap String AtomTerm} {x : String}
    {t : AtomTerm} (next : r.nextStep = some (x, t)) :
    canonicalize.go (fuel + 1) r m =
      canonicalize.go fuel (r.subst (oneSubst x t)) (extendSubst m x t) := by
  rw [canonicalize.go, next]

/-- The loop of `canonicalize` takes steps. -/
theorem go_solves (fuel : Nat) (r : CoreRule) (m : Std.HashMap String AtomTerm) :
    Solves (r, m) (canonicalize.go fuel r m) := by
  induction fuel generalizing r m with
  | zero => exact .refl
  | succ fuel ih =>
    cases next : r.nextStep with
    | none => rw [go_succ_done next]
    | some step =>
      obtain ⟨x, t⟩ := step
      rw [go_succ_solve next]
      exact Relation.ReflTransGen.head (.solve next) (ih _ _)

/-- **The fuel suffices**: with more fuel than variables, the loop stops
because no equality is left to solve. -/
theorem go_done {fuel : Nat} {r : CoreRule} {m : Std.HashMap String AtomTerm}
    (few : r.bodyVars.card < fuel) : (canonicalize.go fuel r m).1.nextStep = none := by
  induction fuel generalizing r m with
  | zero => cases few
  | succ fuel ih =>
    cases next : r.nextStep with
    | none =>
      rw [go_succ_done next]
      exact next
    | some step =>
      obtain ⟨x, t⟩ := step
      rw [go_succ_solve next]
      apply ih
      have fewer := Finset.card_lt_card (bodyVars_solve_ssubset next)
      omega

/-! ### What a step keeps -/

theorem SolveStep.equalitiesBinary {s s' : CoreRule × Std.HashMap String AtomTerm}
    (step : SolveStep s s') (binary : EqualitiesBinary s.1.body) : EqualitiesBinary s'.1.body := by
  cases step with
  | solve next =>
    intro a' mem' head
    rw [subst_body, List.mem_map] at mem'
    obtain ⟨a, mem, rfl⟩ := mem'
    simpa [Atom.subst] using binary a mem head

theorem SolveStep.hasLit {s s' : CoreRule × Std.HashMap String AtomTerm} (step : SolveStep s s')
    {l : Literal} (has : s'.1.HasLit l) : s.1.HasLit l := by
  cases step with
  | solve next =>
    rcases hasLit_subst_oneSubst has with old | tl
    · exact old
    · obtain ⟨a, mem, -, ht⟩ := nextStep_mem next
      exact ⟨a, mem, tl ▸ ht⟩

/-- A valuation that satisfies the equalities keeps satisfying them: it
gives the variable solved the value of the other side already. -/
theorem SolveStep.equalitiesHold {s s' : CoreRule × Std.HashMap String AtomTerm}
    (step : SolveStep s s') {den : Literal → Value} {σ : String → Value}
    (holds : s.1.EqualitiesHold den σ) : s'.1.EqualitiesHold den σ := by
  cases step with
  | @solve r m x t next =>
    obtain ⟨a, mem, head, args, -⟩ := nextStep_solves next
    have solved : σ x = t.eval den σ := by
      rcases args with args | args
      · exact (Atom.eqHolds_pair args).mp (holds a mem head)
      · exact ((Atom.eqHolds_pair args).mp (holds a mem head)).symm
    rw [equalitiesHold_subst, after_oneSubst solved]
    exact holds

/-- The rule stays the original one under the substitution so far, and no
variable that the substitution replaces is left in the body. -/
def Composes (r₀ : CoreRule) (s : CoreRule × Std.HashMap String AtomTerm) : Prop :=
  s.1 = r₀.subst s.2 ∧ ∀ v ∈ s.1.bodyVars, s.2[v]? = none

theorem composes_start (r₀ : CoreRule) : Composes r₀ (r₀, ∅) :=
  ⟨(subst_empty r₀).symm, fun _ _ => by simp⟩

theorem SolveStep.composes {r₀ : CoreRule} {s s' : CoreRule × Std.HashMap String AtomTerm}
    (step : SolveStep s s') (h : Composes r₀ s) : Composes r₀ s' := by
  cases step with
  | @solve r m x t next =>
    obtain ⟨was, fresh⟩ := h
    obtain ⟨hx, -⟩ := solves_mem_bodyVars next
    refine ⟨?_, fun v mem => ?_⟩
    · dsimp only at was ⊢
      rw [was, subst_subst (subst_subst_oneSubst (fresh x hx))]
    · dsimp only at mem ⊢
      have old := (bodyVars_solve_ssubset next).1 mem
      have hv : v ≠ x := by
        rcases mem_bodyVars_subst_oneSubst mem with ⟨-, ne⟩ | tv
        · exact ne
        · exact ((solves_mem_bodyVars next).2 v tv).2
      rw [Std.HashMap.getElem?_insert, if_neg (by simpa using Ne.symm hv),
        Std.HashMap.getElem?_map, fresh v old]
      rfl

/-! ### The result -/

/-- The number of variables of a body is at most its number of arguments. -/
theorem bodyVars_card_le (r : CoreRule) :
    r.bodyVars.card ≤ (r.body.map (·.args.length)).foldl (· + ·) 0 := by
  rw [← List.sum_eq_foldl]
  calc r.bodyVars.card
      ≤ (r.body.flatMap Atom.vars).length := List.toFinset_card_le _
    _ = (r.body.map fun a => a.vars.length).sum := List.length_flatMap
    _ ≤ (r.body.map (·.args.length)).sum :=
        List.sum_le_sum fun a _ => List.length_filterMap_le _ _

/-- Some two-sided equality of the body relates terms that are not the
same: the flag `canonicalize` raises. -/
def RelatesDifferent (body : List (Atom Head)) : Prop :=
  ∃ a ∈ body, a.head = .eq ∧ ∃ x y, a.args = [x, y] ∧ x.same y = false

/-- `canonicalize` runs its loop from the empty substitution with more fuel
than the body has variables, drops the equalities of the rule it reaches,
and raises its flag on an equality between terms that are not the same. -/
theorem canonicalize_loop (r : CoreRule) :
    ∃ fuel, r.bodyVars.card < fuel ∧
      r.canonicalize.1 = ⟨(canonicalize.go fuel r ∅).1.body.filter (·.head != .eq),
        (canonicalize.go fuel r ∅).1.head⟩ ∧
      r.canonicalize.2.1 = (canonicalize.go fuel r ∅).2 ∧
      (r.canonicalize.2.2 = true ↔ RelatesDifferent (canonicalize.go fuel r ∅).1.body) := by
  refine ⟨_, Nat.lt_succ_of_le (bodyVars_card_le r), rfl, rfl, ?_⟩
  simp only [canonicalize, List.any_eq_true]
  constructor
  · rintro ⟨a, mem, flag⟩
    refine ⟨a, mem, ?_⟩
    split at flag
    · rename_i x y head args
      exact ⟨head, x, y, args, by simpa using flag⟩
    · cases flag
  · rintro ⟨a, mem, head, x, y, args, different⟩
    exact ⟨a, mem, by simp [head, args, different]⟩

section Meaning

variable {den : Literal → Value} {interp : String → List Value → Prop}

/-- After the loop every equality is decided: one between the same terms
holds under every valuation, one between terms that are not the same holds
under none, when the literals of the body compare as their values do. -/
theorem decided_of_done {r : CoreRule} (done : r.nextStep = none) (binary : EqualitiesBinary r.body)
    (faithful : ∀ a b, r.HasLit a → r.HasLit b → (a.same b = true ↔ den a = den b))
    {a : Atom Head} (mem : a ∈ r.body) (head : a.head = .eq) :
    ∃ x y, a.args = [x, y] ∧
      (x.same y = true → ∀ σ, a.EqHolds den σ) ∧ (x.same y = false → ∀ σ, ¬ a.EqHolds den σ) := by
  obtain ⟨x, y, args⟩ := List.length_eq_two.mp (binary a mem head)
  refine ⟨x, y, args, fun same σ => ?_, fun different σ => ?_⟩
  · rw [Atom.eqHolds_pair args]
    cases x with
    | var v =>
      cases y with
      | var w => rw [AtomTerm.same_var_var.mp same]
      | lit l' => simp [AtomTerm.same_var_lit] at same
    | lit l =>
      cases y with
      | var w => simp [AtomTerm.same_lit_var] at same
      | lit l' =>
        rw [AtomTerm.same_lit_lit] at same
        exact (faithful l l' ⟨a, mem, by simp [args]⟩ ⟨a, mem, by simp [args]⟩).mp same
  · rw [Atom.eqHolds_pair args]
    rcases eq_of_nextStep_none done mem head args with same | ⟨l, l', rfl, rfl⟩
    · rw [same] at different
      cases different
    · intro equal
      rw [AtomTerm.same_lit_lit,
        (faithful l l' ⟨a, mem, by simp [args]⟩ ⟨a, mem, by simp [args]⟩).mpr equal] at different
      cases different

theorem Atom.holds_of_eq {a : Atom Head} (head : a.head = .eq) {σ : String → Value} :
    a.Holds den interp σ ↔ a.EqHolds den σ := by
  simp [Atom.Holds, head]

/-- With every equality holding, a body holds exactly when its other atoms do. -/
theorem holds_iff_filter {r : CoreRule} {σ : String → Value} (eqs : r.EqualitiesHold den σ) :
    r.Holds den interp σ ↔ ∀ a ∈ r.body.filter (·.head != .eq), a.Holds den interp σ := by
  constructor
  · intro h a mem
    exact h a (List.mem_filter.mp mem).1
  · intro h a mem
    by_cases head : a.head = .eq
    · exact (Atom.holds_of_eq head).mpr (eqs a mem head)
    · exact h a (List.mem_filter.mpr ⟨mem, by simpa using head⟩)

/-- Without the flag, every equality left after the loop holds under every valuation. -/
theorem equalitiesHold_of_done {r : CoreRule} (done : r.nextStep = none)
    (binary : EqualitiesBinary r.body)
    (faithful : ∀ a b, r.HasLit a → r.HasLit b → (a.same b = true ↔ den a = den b))
    (consistent : ¬ RelatesDifferent r.body) (σ : String → Value) : r.EqualitiesHold den σ := by
  intro a mem head
  obtain ⟨x, y, args, holds, -⟩ := decided_of_done done binary faithful mem head
  refine holds ?_ σ
  by_contra different
  exact consistent ⟨a, mem, head, x, y, args, by simpa using different⟩

/-- **Removing equalities keeps the meaning of a body**, when comparing the
literals of the body as terms agrees with comparing their values. The loop
stops because no equality between a variable and another term is left, not
for want of fuel; the rule returned is the rule under the substitution `θ`
returned, without its equalities; the rule is reported unsatisfiable exactly
when no valuation satisfies the equalities of the body; and otherwise a
valuation satisfies the rule returned exactly when the valuation read
through `θ` satisfies the body. -/
theorem canonicalize_keeps_meaning {r r' : CoreRule} {θ : Std.HashMap String AtomTerm}
    {unsat : Bool} (result : r.canonicalize = (r', θ, unsat)) (binary : EqualitiesBinary r.body)
    (faithful : ∀ a b, r.HasLit a → r.HasLit b → (a.same b = true ↔ den a = den b)) :
    (r.subst θ).nextStep = none ∧
    r' = ⟨(r.subst θ).body.filter (·.head != .eq), (r.subst θ).head⟩ ∧
    (unsat = true ↔ ¬ ∃ σ, r.EqualitiesHold den σ) ∧
    (unsat = false → ∀ σ, r'.Holds den interp σ ↔ r.Holds den interp (after den σ θ)) := by
  obtain ⟨fuel, few, first, second, flag⟩ := canonicalize_loop r
  simp only [result] at first second flag
  -- everything the loop keeps, carried along its steps
  have done := go_done (m := ∅) few
  have steps := go_solves fuel r ∅
  generalize canonicalize.go fuel r ∅ = s at steps done first second flag
  subst first second
  obtain ⟨rewritten, -⟩ : Composes r s :=
    steps.keeps (fun step h => step.composes h) (composes_start r)
  have binary' : EqualitiesBinary s.1.body := steps.keeps (fun step h => step.equalitiesBinary h) binary
  have lits : ∀ l, s.1.HasLit l → r.HasLit l :=
    steps.keeps (P := fun s => ∀ l, s.1.HasLit l → r.HasLit l)
      (fun step h l has => h l (step.hasLit has)) fun _ => id
  have faithful' : ∀ a b, s.1.HasLit a → s.1.HasLit b → (a.same b = true ↔ den a = den b) :=
    fun a b ha hb => faithful a b (lits a ha) (lits b hb)
  have kept : ∀ σ, r.EqualitiesHold den σ → s.1.EqualitiesHold den σ := fun σ holds =>
    steps.keeps (P := fun s => s.1.EqualitiesHold den σ) (fun step h => step.equalitiesHold h) holds
  refine ⟨rewritten ▸ done, by rw [rewritten], ⟨fun raised => ?_, fun none => ?_⟩,
    fun consistent σ => ?_⟩
  · -- a flagged equality relates two literals of different values
    rintro ⟨σ, holds⟩
    obtain ⟨a, mem, head, x, y, args, different⟩ := flag.mp raised
    obtain ⟨x', y', args', -, never⟩ := decided_of_done done binary' faithful' mem head
    rw [args] at args'
    simp only [List.cons.injEq, and_true] at args'
    obtain ⟨rfl, rfl⟩ := args'
    exact never different σ (kept σ holds a mem head)
  · -- without the flag, any valuation read through the substitution satisfies the equalities
    by_contra unflagged
    apply none
    refine ⟨after den (fun _ => ⟨"", 0⟩) s.2, ?_⟩
    rw [← equalitiesHold_subst, ← rewritten]
    exact equalitiesHold_of_done done binary' faithful' (fun rel => unflagged (flag.mpr rel)) _
  · have clear : ¬ RelatesDifferent s.1.body := fun rel =>
      Bool.false_ne_true (consistent.symm.trans (flag.mpr rel))
    rw [← holds_subst, ← rewritten,
      holds_iff_filter (equalitiesHold_of_done done binary' faithful' clear σ)]
    rfl

end Meaning

/-- The rule `f(x), x = 1` meets the conditions: its one equality has two
sides, and its one literal compares as its value does. -/
theorem canonicalize_keeps_meaning_of_one_equality :
    let r : CoreRule := ⟨[⟨.sym "f", [.var "x"]⟩, ⟨.eq, [.var "x", .lit (.int 1)]⟩], []⟩
    let den := Literal.valueAt {}
    (EqualitiesBinary r.body ∧ ∀ a b, r.HasLit a → r.HasLit b → (a.same b = true ↔ den a = den b)) ∧
      (r.subst r.canonicalize.2.1).nextStep = none ∧
      r.canonicalize.1 = ⟨(r.subst r.canonicalize.2.1).body.filter (·.head != .eq),
        (r.subst r.canonicalize.2.1).head⟩ ∧
      (r.canonicalize.2.2 = true ↔ ¬ ∃ σ, r.EqualitiesHold den σ) ∧
      (r.canonicalize.2.2 = false → ∀ σ, r.canonicalize.1.Holds den (fun _ _ => True) σ ↔
        r.Holds den (fun _ _ => True) (after den σ r.canonicalize.2.1)) := by
  intro r den
  have binary : EqualitiesBinary r.body := by
    intro a mem head
    simp only [r, List.mem_cons, List.not_mem_nil, or_false] at mem
    rcases mem with rfl | rfl
    · cases head
    · rfl
  have faithful : ∀ a b, r.HasLit a → r.HasLit b → (a.same b = true ↔ den a = den b) := by
    rintro a b ⟨u, hu, ha⟩ ⟨w, hw, hb⟩
    simp only [r, List.mem_cons, List.not_mem_nil, or_false] at hu hw
    rcases hu with rfl | rfl <;> rcases hw with rfl | rfl <;> simp_all [Literal.same]
  exact ⟨⟨binary, faithful⟩, canonicalize_keeps_meaning rfl binary faithful⟩

/-- `0.0` and `-0.0` are one literal term, so `canonicalize` drops their
equality as if it held and raises no flag, though their values differ and no
valuation satisfies it: the condition on literals of
`canonicalize_keeps_meaning` cannot be left out. -/
theorem canonicalize_drops_equality_of_signed_zeros :
    let r : CoreRule := ⟨[⟨.eq, [.lit (.float 0), .lit (.float 0x8000000000000000)]⟩], []⟩
    r.canonicalize.1.body = [] ∧ r.canonicalize.2.2 = false ∧
      ¬ ∃ σ, r.EqualitiesHold (Literal.valueAt {}) σ := by
  intro r
  refine ⟨rfl, rfl, ?_⟩
  rintro ⟨σ, holds⟩
  have equal := (Atom.eqHolds_pair rfl).mp (holds _ (List.mem_singleton_self _) rfl)
  simp only [AtomTerm.eval] at equal
  exact absurd equal (by decide)

end CoreRule

end Saturate
