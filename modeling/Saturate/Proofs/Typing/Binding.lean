import Mathlib
import Saturate.Proofs.Typing.Hygiene

/-!
# Binding before use in a flattened head

The head of a rule is flattened after its body, with the variables of the
flattened body bound (`atomVars`) and the counter where the body left it. A
call is bound to a fresh variable after its arguments (`Flatten.bindCall`),
and a `let` binds a name that is neither bound nor a global. For a hygienic
rule (`Rule.hygienic`) the flattened head is `WellScoped` over the variables
of the flattened body: every action uses only names bound before it, by the
body or by an earlier action, and binds only a name not bound before.

The invariant carried along the flattening is `Flatten.HeadInv`: the names
bound in the state are the body's and those the output binds, the output is
well scoped, and every bound name is a user variable or a name made fresh
before the counter. Appending one action keeps it (`Flatten.HeadInv.push`);
the runs of `actionExpr`, of one action and of a list of actions keep it
through that lemma. `Flatten.rule_hygienic` puts this together with the
meaning of the body.
-/

namespace Saturate

/-- Whether flattening an action can capture no name: a `let` does not bind a
name that looks fresh, and its expressions are hygienic. -/
def Action.hygienic (globals : String → Bool) : Action → Bool
  | .bind v e => !isFresh v && e.hygienic globals
  | .set _ args rhs => Expr.hygienicAll globals args && rhs.hygienic globals
  | .change _ _ args => Expr.hygienicAll globals args
  | .union a b => a.hygienic globals && b.hygienic globals
  | .abort _ => true
  | .eval e => e.hygienic globals

/-- Whether flattening a rule can capture no name: its facts and its actions
are hygienic. -/
def Rule.hygienic (globals : String → Bool) (r : Rule) : Bool :=
  r.body.all (Fact.hygienic globals) && r.head.all (Action.hygienic globals)

/-- Every action uses only names bound before it, by `bound` or by an earlier
action, and binds only a name not bound before. -/
def WellScoped : List String → List (CoreAction String) → Prop
  | _, [] => True
  | bound, a :: rest => (∀ v ∈ a.usedVars, v ∈ bound) ∧ (∀ v ∈ a.boundVar?, v ∉ bound) ∧
      WellScoped (bound ++ a.boundVar?.toList) rest

theorem filterMap_boundVar_cons (a : CoreAction String) (as : List (CoreAction String)) :
    (a :: as).filterMap CoreAction.boundVar? =
      a.boundVar?.toList ++ as.filterMap CoreAction.boundVar? := by
  cases h : a.boundVar? <;> simp [h]

theorem wellScoped_append (bound : List String) (xs ys : List (CoreAction String)) :
    WellScoped bound (xs ++ ys) ↔
      WellScoped bound xs ∧ WellScoped (bound ++ xs.filterMap CoreAction.boundVar?) ys := by
  induction xs generalizing bound with
  | nil => simp [WellScoped]
  | cons a xs ih =>
    simp only [List.cons_append, WellScoped, ih, filterMap_boundVar_cons, List.append_assoc,
      and_assoc]

/-- An action after well scoped ones keeps them so when what it uses is bound
by then and what it binds is not. -/
theorem wellScoped_snoc (bound : List String) (xs : List (CoreAction String))
    (a : CoreAction String) :
    WellScoped bound (xs ++ [a]) ↔ WellScoped bound xs ∧
      (∀ v ∈ a.usedVars, v ∈ bound ++ xs.filterMap CoreAction.boundVar?) ∧
      (∀ v ∈ a.boundVar?, v ∉ bound ++ xs.filterMap CoreAction.boundVar?) := by
  simp [wellScoped_append, WellScoped]

/-- The variables of atoms, each once, are their variables. -/
theorem mem_atomVars {H : Type} (atoms : List (Atom H)) (x : String) :
    x ∈ atomVars atoms ↔ x ∈ atoms.flatMap Atom.vars := by
  -- the fold adds each name it has not seen, so it keeps what it started with
  have keep : ∀ (names acc : List String),
      x ∈ names.foldl (fun acc v => if acc.contains v then acc else acc ++ [v]) acc ↔
        x ∈ acc ∨ x ∈ names := by
    intro names
    induction names with
    | nil => simp
    | cons v names ih =>
      intro acc
      rw [List.foldl_cons, ih]
      by_cases seen : v ∈ acc
      · rw [if_pos (by simpa using seen), List.mem_cons]
        constructor
        · rintro (old | later)
          · exact .inl old
          · exact .inr (.inr later)
        · rintro (old | rfl | later)
          · exact .inl old
          · exact .inl seen
          · exact .inr later
      · rw [if_neg (by simpa using seen)]
        simp [or_assoc]
  unfold atomVars
  rw [keep]
  simp

namespace Flatten

/-- What flattening a head keeps, the body having bound `bound`: the state
binds those names and the ones the output binds, the output is well scoped
over them, and every bound name is a user variable or was made fresh before
the counter. -/
structure HeadInv (bound : List String) (st : FlattenState) (out : List (CoreAction String)) :
    Prop where
  bound_eq : st.bound = bound ++ out.filterMap CoreAction.boundVar?
  wellScoped : WellScoped bound out
  bound_scoped : AllScoped 0 st.counter st.bound

section Head

variable {globals : String → Bool} {bound : List String} {st : FlattenState}
  {out : List (CoreAction String)}

/-- **One action** appended to the output keeps the invariant when it uses
bound names only and binds at most one name, which is not bound and is a user
variable or made fresh before the new counter. -/
theorem HeadInv.push (inv : HeadInv bound st out) (a : CoreAction String) {counter : Nat}
    (le : st.counter ≤ counter) (used : ∀ x ∈ a.usedVars, x ∈ st.bound)
    (unbound : ∀ v ∈ a.boundVar?, v ∉ st.bound) (inScope : AllScoped 0 counter a.boundVar?.toList) :
    HeadInv bound ⟨counter, st.bound ++ a.boundVar?.toList⟩ (out ++ [a]) where
  bound_eq := by
    rw [inv.bound_eq, List.filterMap_append, List.append_assoc]
    cases h : a.boundVar? <;> simp [h]
  wellScoped := (wellScoped_snoc bound out a).mpr
    ⟨inv.wellScoped, inv.bound_eq ▸ used, inv.bound_eq ▸ unbound⟩
  bound_scoped := (inv.bound_scoped.mono le_rfl le).append inScope

/-- An action that binds nothing and uses bound names only keeps the invariant. -/
theorem HeadInv.use (inv : HeadInv bound st out) (a : CoreAction String)
    (binds : a.boundVar? = none) (used : ∀ x ∈ a.usedVars, x ∈ st.bound) :
    HeadInv bound st (out ++ [a]) := by
  have pushed := inv.push a le_rfl used (by simp [binds]) (by simp [binds, AllScoped])
  simpa [binds] using pushed

theorem bindCall_run (f : String) (terms : List AtomTerm) (out : List (CoreAction String))
    (st : FlattenState) :
    (bindCall f terms out).run st =
      .ok ((.var (freshName f st.counter), out ++ [.bindCall (freshName f st.counter) f terms]),
        ⟨st.counter + 1, st.bound ++ [freshName f st.counter]⟩) :=
  rfl

/-- A call bound to a fresh variable keeps the invariant: the name made at the
counter is bound nowhere yet. -/
theorem HeadInv.bindCall {f : String} {terms : List AtomTerm} (inv : HeadInv bound st out)
    (hd : endsInDigit f = false) (used : ∀ x ∈ terms.filterMap AtomTerm.var?, x ∈ st.bound) :
    HeadInv bound ⟨st.counter + 1, st.bound ++ [freshName f st.counter]⟩
      (out ++ [.bindCall (freshName f st.counter) f terms]) :=
  inv.push (.bindCall (freshName f st.counter) f terms) (Nat.le_succ _) used
    (fun v binds mem => by
      cases binds
      exact not_scoped_freshName hd (inv.bound_scoped _ mem))
    (allScoped_freshName hd (Nat.zero_le _))

/-- How flattening expressions of a head leaves the output `out`: the invariant
holds at `(st', out')`, and the output grew by actions that bind fresh names
only. -/
structure HeadGrows (bound : List String) (out : List (CoreAction String)) (st' : FlattenState)
    (out' : List (CoreAction String)) : Prop where
  inv : HeadInv bound st' out'
  grows : ∃ more, out' = out ++ more ∧ ∀ x ∈ more.filterMap CoreAction.boundVar?, isFresh x = true

theorem HeadGrows.refl (inv : HeadInv bound st out) : HeadGrows bound out st out :=
  ⟨inv, [], by simp, by simp⟩

theorem HeadGrows.trans {st₁ st₂ : FlattenState} {out₁ out₂ : List (CoreAction String)}
    (first : HeadGrows bound out st₁ out₁) (second : HeadGrows bound out₁ st₂ out₂) :
    HeadGrows bound out st₂ out₂ := by
  obtain ⟨more₁, rfl, fresh₁⟩ := first.grows
  obtain ⟨more₂, rfl, fresh₂⟩ := second.grows
  refine ⟨second.inv, more₁ ++ more₂, by simp, fun x mem => ?_⟩
  rw [List.filterMap_append] at mem
  exact (List.mem_append.mp mem).elim (fresh₁ x) (fresh₂ x)

/-- The names bound before are bound after. -/
theorem HeadGrows.bound_mono {st' : FlattenState} {out' : List (CoreAction String)}
    (pre : HeadInv bound st out) (grows : HeadGrows bound out st' out') {x : String}
    (mem : x ∈ st.bound) : x ∈ st'.bound := by
  obtain ⟨more, rfl, -⟩ := grows.grows
  rw [grows.inv.bound_eq, List.filterMap_append, ← List.append_assoc, ← pre.bound_eq]
  exact List.mem_append_left _ mem

/-- A user variable bound after was bound before. -/
theorem HeadGrows.mem_of_user {st' : FlattenState} {out' : List (CoreAction String)}
    (pre : HeadInv bound st out) (grows : HeadGrows bound out st' out') {v : String}
    (user : isFresh v = false) (mem : v ∈ st'.bound) : v ∈ st.bound := by
  obtain ⟨more, rfl, fresh⟩ := grows.grows
  rw [grows.inv.bound_eq, List.filterMap_append, ← List.append_assoc, ← pre.bound_eq] at mem
  rcases List.mem_append.mp mem with mem | mem
  · exact mem
  · simp [fresh v mem] at user

theorem HeadGrows.bindCall {f : String} {terms : List AtomTerm} (inv : HeadInv bound st out)
    (hd : endsInDigit f = false) (used : ∀ x ∈ terms.filterMap AtomTerm.var?, x ∈ st.bound) :
    HeadGrows bound out ⟨st.counter + 1, st.bound ++ [freshName f st.counter]⟩
      (out ++ [.bindCall (freshName f st.counter) f terms]) :=
  ⟨inv.bindCall hd used, _, rfl, by simp [CoreAction.boundVar?, isFresh_freshName]⟩

theorem isBound_inv {v : String} {b : Bool} {st st' : FlattenState}
    (h : (isBound v).run st = .ok (b, st')) : st.bound.contains v = b ∧ st = st' :=
  ok_inv h

theorem bind_inv {v : String} {st st' : FlattenState} (h : (bind v).run st = .ok ((), st')) :
    { st with bound := st.bound ++ [v] } = st' :=
  (ok_inv h).2

variable (globals) in
mutual

/-- Flattening a hygienic expression of a head keeps the invariant, binds
fresh names only, and gives a term over bound names. -/
theorem actionExpr_grows (e : Expr) (out : List (CoreAction String)) (st : FlattenState)
    {t : AtomTerm} {out' : List (CoreAction String)} {st' : FlattenState}
    (hygienic : e.hygienic globals = true) (inv : HeadInv bound st out)
    (run : (actionExpr globals e out).run st = .ok ((t, out'), st')) :
    HeadGrows bound out st' out' ∧ ∀ x ∈ t.var?, x ∈ st'.bound := by
  cases e with
  | lit l =>
    obtain ⟨rfl, rfl, rfl⟩ := ok_pair_inv run
    exact ⟨.refl inv, by simp [AtomTerm.var?]⟩
  | var v =>
    simp only [actionExpr, StateT.run_bind] at run
    obtain ⟨⟨known, st₁⟩, check, rest⟩ := ok_of_bind run
    obtain ⟨rfl, rfl⟩ := isBound_inv check
    split at rest
    · rename_i known
      obtain ⟨rfl, rfl, rfl⟩ := ok_pair_inv rest
      exact ⟨.refl inv, by simpa [AtomTerm.var?] using known⟩
    · split at rest
      · rename_i global
        simp only [Expr.hygienic, global, if_true, Bool.not_eq_true'] at hygienic
        rw [bindCall_run] at rest
        obtain ⟨rfl, rfl, rfl⟩ := ok_pair_inv rest
        exact ⟨.bindCall inv hygienic (by simp), by simp [AtomTerm.var?]⟩
      · cases rest
  | call f args =>
    simp only [Expr.hygienic, Bool.and_eq_true, Bool.not_eq_true'] at hygienic
    simp only [actionExpr, StateT.run_bind] at run
    obtain ⟨⟨⟨terms, out₁⟩, st₁⟩, first, rest⟩ := ok_of_bind run
    obtain ⟨grows, used⟩ := actionExprs_grows args out st hygienic.2 inv first
    rw [bindCall_run] at rest
    obtain ⟨rfl, rfl, rfl⟩ := ok_pair_inv rest
    exact ⟨grows.trans (.bindCall grows.inv hygienic.1 used), by simp [AtomTerm.var?]⟩
termination_by sizeOf e

/-- Flattening hygienic arguments of a head, left to right, keeps the
invariant, binds fresh names only, and gives terms over bound names. -/
theorem actionExprs_grows (es : List Expr) (out : List (CoreAction String)) (st : FlattenState)
    {ts : List AtomTerm} {out' : List (CoreAction String)} {st' : FlattenState}
    (hygienic : Expr.hygienicAll globals es = true) (inv : HeadInv bound st out)
    (run : (actionExprs globals es out).run st = .ok ((ts, out'), st')) :
    HeadGrows bound out st' out' ∧ ∀ x ∈ ts.filterMap AtomTerm.var?, x ∈ st'.bound := by
  cases es with
  | nil =>
    obtain ⟨rfl, rfl, rfl⟩ := ok_pair_inv run
    exact ⟨.refl inv, by simp⟩
  | cons e es =>
    simp only [Expr.hygienicAll, Bool.and_eq_true] at hygienic
    simp only [actionExprs, StateT.run_bind] at run
    obtain ⟨⟨⟨t, out₁⟩, st₁⟩, first, run⟩ := ok_of_bind run
    obtain ⟨⟨⟨ts', out₂⟩, st₂⟩, second, last⟩ := ok_of_bind run
    obtain ⟨rfl, rfl, rfl⟩ := ok_pair_inv last
    obtain ⟨grows₁, used₁⟩ := actionExpr_grows e out st hygienic.1 inv first
    obtain ⟨grows₂, used₂⟩ := actionExprs_grows es out₁ st₁ hygienic.2 grows₁.inv second
    refine ⟨grows₁.trans grows₂, fun x mem => ?_⟩
    rw [List.filterMap_cons] at mem
    cases var : t.var? with
    | none =>
      rw [var] at mem
      exact used₂ x mem
    | some y =>
      rw [var] at mem
      rcases List.mem_cons.mp mem with rfl | mem
      · exact grows₂.bound_mono grows₁.inv (used₁ x var)
      · exact used₂ x mem
termination_by sizeOf es

end


variable (globals) in
/-- **One action** of a hygienic head keeps the invariant: a `let` binds a
user name that is not bound yet, every other action binds nothing, and every
action uses the terms its expressions were flattened to. -/
theorem actions_step_inv {a : Action} {out' : List (CoreAction String)} {st' : FlattenState}
    (hygienic : a.hygienic globals = true) (inv : HeadInv bound st out)
    (run : (actions.step globals out a).run st = .ok (out', st')) : HeadInv bound st' out' := by
  cases a with
  | bind v e =>
    simp only [Action.hygienic, Bool.and_eq_true, Bool.not_eq_true'] at hygienic
    simp only [actions.step, StateT.run_bind] at run
    obtain ⟨⟨known, st₁⟩, check, rest⟩ := ok_of_bind run
    obtain ⟨rfl, rfl⟩ := isBound_inv check
    split at rest
    · cases rest
    · rename_i free
      simp only [Bool.or_eq_true, not_or, List.contains_iff_mem] at free
      simp only [StateT.run_bind] at rest
      obtain ⟨⟨⟨t, out₁⟩, st₁⟩, first, rest⟩ := ok_of_bind rest
      obtain ⟨⟨⟨⟩, st₂⟩, binding, last⟩ := ok_of_bind rest
      obtain ⟨rfl, rfl⟩ := run_pure_inv last
      obtain rfl := bind_inv binding
      obtain ⟨grows, used⟩ := actionExpr_grows globals e out st hygienic.2 inv first
      -- the name was not bound before, and the expression bound fresh names only
      have unbound : v ∉ st₁.bound := fun mem => free.1 (grows.mem_of_user inv hygienic.1 mem)
      exact grows.inv.push (.bindTerm v t) le_rfl (by simpa [CoreAction.usedVars] using used)
        (by simpa [CoreAction.boundVar?] using unbound)
        (allScoped_user hygienic.1)
  | set f args rhs =>
    simp only [Action.hygienic, Bool.and_eq_true] at hygienic
    simp only [actions.step, StateT.run_bind] at run
    obtain ⟨⟨⟨ts, out₁⟩, st₁⟩, first, run⟩ := ok_of_bind run
    obtain ⟨⟨⟨r, out₂⟩, st₂⟩, second, last⟩ := ok_of_bind run
    obtain ⟨rfl, rfl⟩ := run_pure_inv last
    obtain ⟨grows₁, used₁⟩ := actionExprs_grows globals args out st hygienic.1 inv first
    obtain ⟨grows₂, used₂⟩ := actionExpr_grows globals rhs out₁ st₁ hygienic.2 grows₁.inv second
    refine grows₂.inv.use (.set f ts r) rfl fun x mem => ?_
    simp only [CoreAction.usedVars, List.filterMap_append, List.mem_append] at mem
    rcases mem with mem | mem
    · exact grows₂.bound_mono grows₁.inv (used₁ x mem)
    · exact used₂ x (by simpa using mem)
  | change c f args =>
    simp only [Action.hygienic] at hygienic
    simp only [actions.step, StateT.run_bind] at run
    obtain ⟨⟨⟨ts, out₁⟩, st₁⟩, first, last⟩ := ok_of_bind run
    obtain ⟨rfl, rfl⟩ := run_pure_inv last
    obtain ⟨grows, used⟩ := actionExprs_grows globals args out st hygienic inv first
    exact grows.inv.use (.change c f ts) rfl used
  | union a b =>
    simp only [Action.hygienic, Bool.and_eq_true] at hygienic
    simp only [actions.step, StateT.run_bind] at run
    obtain ⟨⟨⟨ta, out₁⟩, st₁⟩, first, run⟩ := ok_of_bind run
    obtain ⟨⟨⟨tb, out₂⟩, st₂⟩, second, last⟩ := ok_of_bind run
    obtain ⟨rfl, rfl⟩ := run_pure_inv last
    obtain ⟨grows₁, used₁⟩ := actionExpr_grows globals a out st hygienic.1 inv first
    obtain ⟨grows₂, used₂⟩ := actionExpr_grows globals b out₁ st₁ hygienic.2 grows₁.inv second
    refine grows₂.inv.use (.union ta tb) rfl fun x mem => ?_
    obtain ⟨u, hu, var⟩ := List.mem_filterMap.mp mem
    simp only [List.mem_cons, List.not_mem_nil, or_false] at hu
    rcases hu with rfl | rfl
    · exact grows₂.bound_mono grows₁.inv (used₁ x var)
    · exact used₂ x var
  | abort msg =>
    simp only [actions.step] at run
    obtain ⟨rfl, rfl⟩ := run_pure_inv run
    exact inv.use (.abort msg) rfl (by simp [CoreAction.usedVars])
  | eval e =>
    simp only [Action.hygienic] at hygienic
    simp only [actions.step, StateT.run_bind] at run
    obtain ⟨⟨⟨t, out₁⟩, st₁⟩, first, last⟩ := ok_of_bind run
    obtain ⟨rfl, rfl⟩ := run_pure_inv last
    exact (actionExpr_grows globals e out st hygienic inv first).1.inv

variable (globals) in
/-- A hygienic head, action after action, keeps the invariant. -/
theorem actions_fold_inv (as : List Action) {out' : List (CoreAction String)}
    {st' : FlattenState} (hygienic : ∀ a ∈ as, a.hygienic globals = true)
    (inv : HeadInv bound st out)
    (run : (as.foldlM (actions.step globals) out).run st = .ok (out', st')) :
    HeadInv bound st' out' := by
  induction as generalizing out st with
  | nil =>
    rw [List.foldlM_nil] at run
    obtain ⟨rfl, rfl⟩ := run_pure_inv run
    exact inv
  | cons a as ih =>
    simp only [List.foldlM_cons, StateT.run_bind] at run
    obtain ⟨⟨out₁, st₁⟩, first, rest⟩ := ok_of_bind run
    exact ih (fun b mem => hygienic b (List.mem_cons_of_mem _ mem))
      (actions_step_inv globals (hygienic a List.mem_cons_self) inv first) rest

end Head

/-- **Flattening a hygienic rule is faithful.** A valuation of the user
variables satisfies the nested body exactly when one with the same user
variables satisfies the flattened body, and the flattened head binds every
variable once, before any use. -/
theorem rule_hygienic (globals : String → Bool) (den : Literal → Value)
    (interp : String → List Value → Prop) {r : Rule} {core : CoreRule} {st st' : FlattenState}
    (hygienic : r.hygienic globals = true) (run : (rule globals r).run st = .ok (core, st')) :
    (∀ σ, (∀ fact ∈ r.body, fact.Holds globals den interp σ) ↔
      ∃ σ', UserAgree σ σ' ∧ core.Holds den interp σ') ∧
    WellScoped (atomVars core.body) core.head := by
  simp only [Rule.hygienic, Bool.and_eq_true, List.all_eq_true] at hygienic
  simp only [rule, StateT.run_bind] at run
  obtain ⟨⟨body, st₁⟩, first, run⟩ := ok_of_bind run
  obtain ⟨⟨⟨⟩, st₂⟩, reset, run⟩ := ok_of_bind run
  obtain ⟨⟨head, st₃⟩, second, last⟩ := ok_of_bind run
  obtain ⟨rfl, rfl⟩ := run_pure_inv last
  obtain rfl := (ok_inv reset).2
  have flat := query_flattens den interp hygienic.1 first
  -- the head starts from the body's variables, user names or made fresh before its counter
  have start : HeadInv (atomVars body) { st₁ with bound := atomVars body } [] :=
    ⟨by simp, trivial, fun x mem =>
      flat.atoms_scoped.mono (Nat.zero_le _) le_rfl x ((mem_atomVars body x).mp mem)⟩
  exact ⟨flat.solutions, (actions_fold_inv globals r.head hygienic.2 start second).wellScoped⟩

/-- The rule `(rule ((f x)) ((set (g x) (f x))))` with nothing global: it is
hygienic, its body flattens to the call `f(x, $f0)`, and its head binds `$f1`
to a second call before it sets `g`. -/
theorem rule_hygienic_of_nested_call :
    let globals : String → Bool := fun _ => false
    let r : Rule :=
      ⟨[.set "g" [.var "x"] (.call "f" [.var "x"])], [.holds (.call "f" [.var "x"])]⟩
    let core : CoreRule := ⟨[⟨.sym "f", [.var "x", .var (freshName "f" 0)]⟩],
      [.bindCall (freshName "f" 1) "f" [.var "x"], .set "g" [.var "x"] (.var (freshName "f" 1))]⟩
    let den := Literal.valueAt {}
    let interp : String → List Value → Prop := fun _ _ => True
    r.hygienic globals = true ∧
      (rule globals r).run ⟨0, []⟩ = .ok (core, ⟨2, atomVars core.body ++ [freshName "f" 1]⟩) ∧
      (∀ σ, (∀ fact ∈ r.body, fact.Holds globals den interp σ) ↔
        ∃ σ', UserAgree σ σ' ∧ core.Holds den interp σ') ∧
      WellScoped (atomVars core.body) core.head := by
  intro globals r core den interp
  have hygienic : r.hygienic globals = true := by decide +kernel
  have run : (rule globals r).run ⟨0, []⟩ =
      .ok (core, ⟨2, atomVars core.body ++ [freshName "f" 1]⟩) := rfl
  exact ⟨hygienic, run, rule_hygienic globals den interp hygienic run⟩

end Flatten

end Saturate
