import Mathlib
import Saturate.Proofs.Typing.Canonicalize

/-!
# Hygiene of flattening

`Flatten` names the output of every call it takes out of an expression
`$<head><n>`, where `n` is a counter shared by the body and the head of a
rule. Nothing keeps a user from writing such a name, and a head whose name
ends in a digit gets a name that another head gets at another counter (`f1`
at `0` and `f` at `10` both give `$f10`). Under two conditions on the names of
a rule (`Expr.hygienic`), that no variable looks fresh (`isFresh`) and that no
called name ends in a digit, fresh names determine their counter value
(`Flatten.freshName_inj`) and are never user variables
(`Flatten.isFresh_freshName`). Then:

* a valuation of the user variables satisfies the nested body exactly when it
  extends to the fresh names so that the flattened atoms hold;
* the flattened head binds every variable once, and before any use.

A nested body is read as a query (`Expr.Denotes`): a call stands for any
output that the interpretation of its name relates to values of its
arguments. What flattening a list of expressions gives is `Flatten.Flattens`:
one lemma per kind of expression builds it, the runs of `queryExpr` are
carried by them, and `Flatten.FlattensFacts` does the same for facts.
-/

namespace Saturate

/-! ### Fresh names -/

/-- Whether a name ends in a decimal digit. -/
def endsInDigit (s : String) : Bool := s.toList.getLast?.any Char.isDigit

namespace Flatten

/-- The name that `fresh` makes for a call of `hint` at counter value `n`. -/
def freshName (hint : String) (n : Nat) : String := "$" ++ hint ++ toString n

theorem fresh_run (hint : String) (st : FlattenState) :
    (fresh hint).run st =
      .ok (freshName hint st.counter, { st with counter := st.counter + 1 }) :=
  rfl

theorem freshName_toList (hint : String) (n : Nat) :
    (freshName hint n).toList = '$' :: (hint.toList ++ Nat.toDigits 10 n) := by
  simp [freshName]

theorem isFresh_freshName (hint : String) (n : Nat) : isFresh (freshName hint n) = true := by
  simp [isFresh, freshName_toList]

/-- A word that does not end in a digit, followed by digits, splits one way only. -/
theorem eq_of_append_digits {a b d e : List Char} (ha : a.getLast?.any Char.isDigit = false)
    (hb : b.getLast?.any Char.isDigit = false) (hd : ∀ c ∈ d, c.isDigit = true)
    (he : ∀ c ∈ e, c.isDigit = true) (same : a ++ d = b ++ e) : a = b ∧ d = e := by
  -- a longer word would end in a digit of the other one's suffix
  rcases List.append_eq_append_iff.mp same with ⟨a', rfl, rfl⟩ | ⟨c', rfl, rfl⟩
  · cases a' using List.reverseRecOn with
    | nil => simp
    | append_singleton xs c _ =>
      have digit : c.isDigit = true := hd c (by simp)
      simp [digit] at hb
  · cases c' using List.reverseRecOn with
    | nil => simp
    | append_singleton xs c _ =>
      have digit : c.isDigit = true := he c (by simp)
      simp [digit] at ha

/-- **Fresh names do not collide**: for heads that do not end in a digit, a
fresh name determines the head and the counter value. -/
theorem freshName_inj {h h' : String} {n n' : Nat} (hd : endsInDigit h = false)
    (hd' : endsInDigit h' = false) (same : freshName h n = freshName h' n') :
    h = h' ∧ n = n' := by
  have lists := congrArg String.toList same
  simp only [freshName_toList, List.cons.injEq, true_and] at lists
  obtain ⟨hints, digits⟩ := eq_of_append_digits hd hd'
    (fun _ mem => Nat.isDigit_of_mem_toDigits (by decide) (by decide) mem)
    (fun _ mem => Nat.isDigit_of_mem_toDigits (by decide) (by decide) mem) lists
  refine ⟨String.toList_inj.mp hints, Nat.repr_injective ?_⟩
  rw [← String.toList_inj, Nat.toList_repr, Nat.toList_repr, digits]

/-! ### Names made over a stretch of the counter -/

/-- A name made fresh at a counter value in `[lo, hi)`, for a head that does
not end in a digit. -/
def InRange (lo hi : Nat) (x : String) : Prop :=
  ∃ h n, endsInDigit h = false ∧ lo ≤ n ∧ n < hi ∧ x = freshName h n

/-- A name that flattening may mention while the counter goes from `lo` to
`hi`: a user variable, or a name made fresh in that stretch. -/
def Scoped (lo hi : Nat) (x : String) : Prop :=
  isFresh x = false ∨ InRange lo hi x

/-- Every one of some names is scoped. -/
def AllScoped (lo hi : Nat) (xs : List String) : Prop :=
  ∀ x ∈ xs, Scoped lo hi x

/-- A valuation that differs from `τ` at most on the names made fresh in `[lo, hi)`. -/
def Agrees (lo hi : Nat) (τ τ' : String → Value) : Prop :=
  ∀ x, ¬ InRange lo hi x → τ' x = τ x

/-- Two valuations with the same user variables. -/
def UserAgree (σ τ : String → Value) : Prop :=
  ∀ x, isFresh x = false → σ x = τ x

section Stretch

variable {lo mid hi n : Nat} {x h : String} {τ τ₁ τ₂ : String → Value}

theorem inRange_freshName (hd : endsInDigit h = false) (le : lo ≤ n) :
    InRange lo (n + 1) (freshName h n) :=
  ⟨h, n, hd, le, Nat.lt_succ_self n, rfl⟩

theorem InRange.isFresh (range : InRange lo hi x) : isFresh x = true := by
  obtain ⟨h, n, -, -, -, rfl⟩ := range
  exact isFresh_freshName h n

theorem InRange.mono {lo' hi' : Nat} (range : InRange lo hi x) (lo_le : lo' ≤ lo)
    (le_hi : hi ≤ hi') : InRange lo' hi' x := by
  obtain ⟨h, n, hd, lo_n, n_hi, rfl⟩ := range
  exact ⟨h, n, hd, by omega, by omega, rfl⟩

/-- Names made over two stretches that follow each other are different. -/
theorem InRange.not_after (range : InRange lo mid x) : ¬ InRange mid hi x := by
  rintro ⟨h', n', hd', mid_n', -, same⟩
  obtain ⟨h, n, hd, -, n_mid, rfl⟩ := range
  have := (freshName_inj hd hd' same).2
  omega

theorem not_inRange_of_user (user : isFresh x = false) : ¬ InRange lo hi x := fun range => by
  simp [range.isFresh] at user

/-- The name made at the end of a stretch is none of the stretch's. -/
theorem not_scoped_freshName (hd : endsInDigit h = false) : ¬ Scoped lo n (freshName h n) := by
  rintro (user | ⟨h', n', hd', -, n'_n, same⟩)
  · simp [isFresh_freshName] at user
  · have := (freshName_inj hd hd' same).2
    omega

theorem AllScoped.mono {lo' hi' : Nat} {xs : List String} (inScope : AllScoped lo hi xs)
    (lo_le : lo' ≤ lo) (le_hi : hi ≤ hi') : AllScoped lo' hi' xs :=
  fun x mem => (inScope x mem).imp_right fun range => range.mono lo_le le_hi

theorem AllScoped.append {xs ys : List String} (first : AllScoped lo hi xs)
    (second : AllScoped lo hi ys) : AllScoped lo hi (xs ++ ys) :=
  fun x mem => (List.mem_append.mp mem).elim (first x) (second x)

theorem allScoped_user (user : isFresh x = false) : AllScoped lo hi [x] := by
  intro y mem
  rw [List.mem_singleton.mp mem]
  exact .inl user

theorem allScoped_freshName (hd : endsInDigit h = false) (le : lo ≤ n) :
    AllScoped lo (n + 1) [freshName h n] := by
  intro x mem
  rw [List.mem_singleton.mp mem]
  exact .inr (inRange_freshName hd le)

theorem Agrees.refl (τ : String → Value) : Agrees lo hi τ τ := fun _ _ => rfl

theorem Agrees.trans (first : Agrees lo mid τ τ₁) (second : Agrees mid hi τ₁ τ₂)
    (lo_mid : lo ≤ mid) (mid_hi : mid ≤ hi) : Agrees lo hi τ τ₂ := by
  intro x outside
  rw [second x fun range => outside (range.mono lo_mid le_rfl),
    first x fun range => outside (range.mono le_rfl mid_hi)]

/-- Giving a value to the name made at counter value `n` changes only the
stretch `[n, n + 1)`. -/
theorem agrees_update (hd : endsInDigit h = false) (τ : String → Value) (w : Value) :
    Agrees n (n + 1) τ (Function.update τ (freshName h n) w) := by
  intro x outside
  exact Function.update_of_ne (fun same => outside (by rw [same]; exact inRange_freshName hd le_rfl)) _ _

/-- A later stretch leaves the names of an earlier one alone. -/
theorem Agrees.eq_of_scoped (agrees : Agrees mid hi τ τ₁) (inScope : Scoped lo mid x) :
    τ₁ x = τ x := by
  refine agrees x ?_
  rcases inScope with user | range
  · exact not_inRange_of_user user
  · exact range.not_after

theorem UserAgree.agrees {σ : String → Value} (user : UserAgree σ τ) (agrees : Agrees lo hi τ τ₁) :
    UserAgree σ τ₁ := by
  intro x fresh
  rw [user x fresh, agrees x (not_inRange_of_user fresh)]

variable {den : Literal → Value} {interp : String → List Value → Prop}

/-- A term over the names of an earlier stretch keeps its value. -/
theorem Agrees.eval_eq {t : AtomTerm} (agrees : Agrees mid hi τ τ₁)
    (inScope : ∀ x ∈ t.var?, Scoped lo mid x) : t.eval den τ₁ = t.eval den τ := by
  cases t with
  | lit l => rfl
  | var v => exact agrees.eq_of_scoped (inScope v rfl)

theorem Agrees.map_eval {ts : List AtomTerm} (agrees : Agrees mid hi τ τ₁)
    (inScope : AllScoped lo mid (ts.filterMap AtomTerm.var?)) :
    ts.map (·.eval den τ₁) = ts.map (·.eval den τ) :=
  List.map_congr_left fun t mem =>
    agrees.eval_eq fun x hx => inScope x (List.mem_filterMap.mpr ⟨t, mem, hx⟩)

/-- Atoms over the names of an earlier stretch keep holding. -/
theorem Agrees.holds {atoms : List (Atom Head)} (agrees : Agrees mid hi τ τ₁)
    (inScope : AllScoped lo mid (atoms.flatMap Atom.vars))
    (holds : ∀ a ∈ atoms, a.Holds den interp τ) : ∀ a ∈ atoms, a.Holds den interp τ₁ := by
  intro a mem
  have each : ∀ t ∈ a.args, t.eval den τ₁ = t.eval den τ := fun t ht =>
    agrees.eval_eq fun x hx =>
      inScope x (List.mem_flatMap.mpr ⟨a, mem, List.mem_filterMap.mpr ⟨t, ht, hx⟩⟩)
  obtain ⟨eqs, calls⟩ := holds a mem
  refine ⟨fun head x hx y hy => ?_, fun f head => ?_⟩
  · rw [each x hx, each y hy]
    exact eqs head x hx y hy
  · rw [List.map_congr_left each]
    exact calls f head

end Stretch

end Flatten

/-! ### What a nested body says -/

section Meaning

variable (globals : String → Bool) (den : Literal → Value)
  (interp : String → List Value → Prop)

mutual

/-- The values an expression of a query stands for under a valuation `σ` of
the user variables: a literal its value, a global what its nullary function
relates to no argument, and a call any output that its name relates to values
of its arguments. -/
def Expr.Denotes (σ : String → Value) : Expr → Value → Prop
  | .lit l, w => den l = w
  | .var v, w => if globals v then interp v [w] else σ v = w
  | .call f args, w => ∃ vs, Expr.DenoteAll σ args vs ∧ interp f (vs ++ [w])

/-- Expressions standing for values, one each. -/
def Expr.DenoteAll (σ : String → Value) : List Expr → List Value → Prop
  | [], vs => vs = []
  | e :: es, vs => ∃ w ws, vs = w :: ws ∧ e.Denotes σ w ∧ Expr.DenoteAll σ es ws

end

/-- What a fact of a query says under a valuation of the user variables: its
sides stand for one value, or its expression stands for some value. -/
def Fact.Holds (σ : String → Value) : Fact → Prop
  | .eq es => ∃ w, ∀ e ∈ es, e.Denotes globals den interp σ w
  | .holds e => ∃ w, e.Denotes globals den interp σ w

variable {globals den interp}

theorem Expr.denoteAll_iff {σ : String → Value} {es : List Expr} {vs : List Value} :
    Expr.DenoteAll globals den interp σ es vs ↔
      List.Forall₂ (Expr.Denotes globals den interp σ) es vs := by
  induction es generalizing vs with
  | nil => simp [Expr.DenoteAll]
  | cons e es ih =>
    cases vs with
    | nil => simp [Expr.DenoteAll]
    | cons w ws => simp [Expr.DenoteAll, ih]

theorem Expr.denotes_call {σ : String → Value} {f : String} {args : List Expr} {w : Value} :
    (Expr.call f args).Denotes globals den interp σ w ↔
      ∃ vs, List.Forall₂ (Expr.Denotes globals den interp σ) args vs ∧ interp f (vs ++ [w]) := by
  simp [Expr.Denotes, Expr.denoteAll_iff]

end Meaning

mutual

/-- Whether flattening an expression can capture no name: no variable looks
fresh, and no called name, of a function or of a global, ends in a digit. -/
def Expr.hygienic (globals : String → Bool) : Expr → Bool
  | .lit _ => true
  | .var v => if globals v then !endsInDigit v else !isFresh v
  | .call f args => !endsInDigit f && Expr.hygienicAll globals args
termination_by structural e => e

/-- Every one of some expressions is hygienic. -/
def Expr.hygienicAll (globals : String → Bool) : List Expr → Bool
  | [] => true
  | e :: es => e.hygienic globals && Expr.hygienicAll globals es

end

/-- Whether the expressions of a fact are hygienic. -/
def Fact.hygienic (globals : String → Bool) : Fact → Bool
  | .eq es => Expr.hygienicAll globals es
  | .holds e => e.hygienic globals

/-! ### Flattening a query keeps its solutions -/

theorem List.forall₂_singleton_left {α β : Type} {R : α → β → Prop} {a : α} {vs : List β} :
    List.Forall₂ R [a] vs ↔ ∃ w, vs = [w] ∧ R a w := by
  constructor
  · intro rel
    obtain ⟨w, rest, head, tail, rfl⟩ := List.forall₂_cons_left_iff.mp rel
    rw [List.forall₂_nil_left_iff.mp tail]
    exact ⟨w, rfl, head⟩
  · rintro ⟨w, rfl, head⟩
    exact .cons head .nil

theorem List.Forall₂.eq_of_values_eq {α β : Type} {R : α → β → Prop} {es : List α} {vs : List β}
    {w : β} (rel : List.Forall₂ R es vs) (same : ∀ v ∈ vs, v = w) : ∀ e ∈ es, R e w := by
  induction rel with
  | nil => exact fun e mem => by cases mem
  | cons head _ ih =>
    intro e mem
    rcases List.mem_cons.mp mem with rfl | mem
    · exact same _ List.mem_cons_self ▸ head
    · exact ih (fun v hv => same v (List.mem_cons_of_mem _ hv)) e mem

theorem List.forall₂_replicate_of_forall {α β : Type} {R : α → β → Prop} {es : List α} {w : β}
    (each : ∀ e ∈ es, R e w) : List.Forall₂ R es (List.replicate es.length w) := by
  induction es with
  | nil => exact .nil
  | cons e es ih =>
    exact .cons (each e List.mem_cons_self) (ih fun e' mem => each e' (List.mem_cons_of_mem _ mem))

namespace Flatten

section Query

variable {globals : String → Bool} {den : Literal → Value} {interp : String → List Value → Prop}

variable (globals den interp) in
/-- What flattening the expressions `es` gives while the counter goes from
`lo` to `hi`: a term for each expression and new atoms, which mention user
variables and names made fresh in the stretch only. Wherever the atoms hold,
the terms stand for values of the expressions (`sound`); and every way the
expressions stand for values is met by giving values to the fresh names of
the stretch only (`complete`). Both read the expressions under a valuation `σ`
of the user variables and the atoms under any valuation `τ` that agrees with
it there. -/
structure Flattens (es : List Expr) (lo hi : Nat) (ts : List AtomTerm)
    (new : List (Atom Head)) : Prop where
  le : lo ≤ hi
  atoms_scoped : AllScoped lo hi (new.flatMap Atom.vars)
  terms_scoped : AllScoped lo hi (ts.filterMap AtomTerm.var?)
  sound : ∀ σ τ, UserAgree σ τ → (∀ a ∈ new, a.Holds den interp τ) →
    List.Forall₂ (Expr.Denotes globals den interp σ) es (ts.map (·.eval den τ))
  complete : ∀ σ τ vs, UserAgree σ τ → List.Forall₂ (Expr.Denotes globals den interp σ) es vs →
    ∃ τ', Agrees lo hi τ τ' ∧ (∀ a ∈ new, a.Holds den interp τ') ∧ ts.map (·.eval den τ') = vs

theorem flattens_nil (lo : Nat) : Flattens globals den interp [] lo lo [] [] where
  le := le_rfl
  atoms_scoped x mem := by cases mem
  terms_scoped x mem := by cases mem
  sound _ _ _ _ := .nil
  complete σ τ vs _ denote :=
    ⟨τ, Agrees.refl τ, (fun a mem => by cases mem),
      by simp [List.forall₂_nil_left_iff.mp denote]⟩

theorem flattens_lit (l : Literal) (lo : Nat) :
    Flattens globals den interp [.lit l] lo lo [.lit l] [] where
  le := le_rfl
  atoms_scoped x mem := by cases mem
  terms_scoped x mem := by simp [AtomTerm.var?] at mem
  sound _ _ _ _ := by simp [Expr.Denotes, AtomTerm.eval]
  complete σ τ vs _ denote := by
    obtain ⟨w, rfl, value⟩ := List.forall₂_singleton_left.mp denote
    exact ⟨τ, Agrees.refl τ, (fun a mem => by cases mem),
      by simpa [AtomTerm.eval, Expr.Denotes] using value⟩

theorem flattens_user {v : String} (notGlobal : globals v = false) (user : isFresh v = false)
    (lo : Nat) : Flattens globals den interp [.var v] lo lo [.var v] [] where
  le := le_rfl
  atoms_scoped x mem := by cases mem
  terms_scoped x mem := by
    simp only [List.filterMap_cons, AtomTerm.var?, List.filterMap_nil, List.mem_singleton] at mem
    exact mem ▸ Or.inl user
  sound σ τ same _ := by simp [Expr.Denotes, AtomTerm.eval, notGlobal, same v user]
  complete σ τ vs same denote := by
    obtain ⟨w, rfl, value⟩ := List.forall₂_singleton_left.mp denote
    simp only [Expr.Denotes, notGlobal, Bool.false_eq_true, if_false] at value
    exact ⟨τ, Agrees.refl τ, (fun a mem => by cases mem),
      by simp [AtomTerm.eval, ← same v user, value]⟩

/-- Flattening expressions one after the other flattens them all: the second
stretch leaves the names of the first alone. -/
theorem Flattens.append {es₁ es₂ : List Expr} {lo mid hi : Nat} {ts₁ ts₂ : List AtomTerm}
    {new₁ new₂ : List (Atom Head)} (first : Flattens globals den interp es₁ lo mid ts₁ new₁)
    (second : Flattens globals den interp es₂ mid hi ts₂ new₂) :
    Flattens globals den interp (es₁ ++ es₂) lo hi (ts₁ ++ ts₂) (new₁ ++ new₂) where
  le := first.le.trans second.le
  atoms_scoped := by
    rw [List.flatMap_append]
    exact (first.atoms_scoped.mono le_rfl second.le).append (second.atoms_scoped.mono first.le le_rfl)
  terms_scoped := by
    rw [List.filterMap_append]
    exact (first.terms_scoped.mono le_rfl second.le).append (second.terms_scoped.mono first.le le_rfl)
  sound σ τ user holds := by
    rw [List.map_append]
    exact List.rel_append (first.sound σ τ user fun a mem => holds a (List.mem_append_left _ mem))
      (second.sound σ τ user fun a mem => holds a (List.mem_append_right _ mem))
  complete σ τ vs user denote := by
    -- the values split where the expressions do
    have denote₁ := List.forall₂_take es₁.length denote
    have denote₂ := List.forall₂_drop es₁.length denote
    rw [List.take_left] at denote₁
    rw [List.drop_left] at denote₂
    obtain ⟨τ₁, agrees₁, holds₁, values₁⟩ := first.complete σ τ _ user denote₁
    obtain ⟨τ₂, agrees₂, holds₂, values₂⟩ :=
      second.complete σ τ₁ _ (user.agrees agrees₁) denote₂
    refine ⟨τ₂, agrees₁.trans agrees₂ first.le second.le, (fun a mem => ?_), ?_⟩
    · rcases List.mem_append.mp mem with mem | mem
      · exact agrees₂.holds first.atoms_scoped holds₁ a mem
      · exact holds₂ a mem
    · rw [List.map_append, agrees₂.map_eval first.terms_scoped, values₁, values₂,
        List.take_append_drop]

/-- **A call** is flattened to a fresh variable for its output and an atom that
relates the terms of its arguments to it. -/
theorem Flattens.call {f : String} {args : List Expr} {lo n : Nat} {ts : List AtomTerm}
    {new : List (Atom Head)} (flat : Flattens globals den interp args lo n ts new)
    (hd : endsInDigit f = false) :
    Flattens globals den interp [.call f args] lo (n + 1) [.var (freshName f n)]
      (new ++ [⟨.sym f, ts ++ [.var (freshName f n)]⟩]) where
  le := flat.le.trans (Nat.le_succ n)
  atoms_scoped := by
    simp only [List.flatMap_append, List.flatMap_cons, List.flatMap_nil, List.append_nil,
      Atom.vars, List.filterMap_append, List.filterMap_cons, AtomTerm.var?, List.filterMap_nil]
    exact (flat.atoms_scoped.mono le_rfl (Nat.le_succ n)).append
      ((flat.terms_scoped.mono le_rfl (Nat.le_succ n)).append (allScoped_freshName hd flat.le))
  terms_scoped := allScoped_freshName hd flat.le
  sound σ τ user holds := by
    have holds_new : ∀ a ∈ new, a.Holds den interp τ := fun a mem =>
      holds a (List.mem_append_left _ mem)
    have related := (holds _ (List.mem_append_right _ (List.mem_singleton_self _))).2 f rfl
    simp only [List.map_append, List.map_cons, List.map_nil] at related
    simp only [List.map_cons, List.map_nil, List.forall₂_cons, List.Forall₂.nil, and_true]
    exact Expr.denotes_call.mpr ⟨_, flat.sound σ τ user holds_new, related⟩
  complete σ τ vs user denote := by
    obtain ⟨w, rfl, value⟩ := List.forall₂_singleton_left.mp denote
    obtain ⟨ws, denote_args, related⟩ := Expr.denotes_call.mp value
    obtain ⟨τ₁, agrees₁, holds₁, values₁⟩ := flat.complete σ τ ws user denote_args
    -- the output takes the value; nothing the arguments mention moves
    have agrees₂ := agrees_update (n := n) hd τ₁ w
    refine ⟨_, agrees₁.trans agrees₂ flat.le (Nat.le_succ n), (fun a mem => ?_),
      by simp [AtomTerm.eval]⟩
    rcases List.mem_append.mp mem with mem | mem
    · exact agrees₂.holds flat.atoms_scoped holds₁ a mem
    · rcases List.mem_singleton.mp mem with rfl
      refine ⟨(fun head => by cases head), fun g head => ?_⟩
      cases head
      have output : (AtomTerm.var (freshName f n)).eval den
          (Function.update τ₁ (freshName f n) w) = w := by
        simp [AtomTerm.eval]
      simp only [List.map_append, List.map_cons, List.map_nil, agrees₂.map_eval flat.terms_scoped,
        values₁, output]
      exact related

/-- Flattening depends on what an expression stands for only. -/
theorem Flattens.congr {e e' : Expr} {lo hi : Nat} {ts : List AtomTerm} {new : List (Atom Head)}
    (same : ∀ σ w, e.Denotes globals den interp σ w ↔ e'.Denotes globals den interp σ w)
    (flat : Flattens globals den interp [e] lo hi ts new) :
    Flattens globals den interp [e'] lo hi ts new := by
  have swap : ∀ σ vs, List.Forall₂ (Expr.Denotes globals den interp σ) [e] vs ↔
      List.Forall₂ (Expr.Denotes globals den interp σ) [e'] vs := by
    intro σ vs
    simp only [List.forall₂_singleton_left, same]
  exact ⟨flat.le, flat.atoms_scoped, flat.terms_scoped,
    fun σ τ user holds => (swap σ _).mp (flat.sound σ τ user holds),
    fun σ τ vs user denote => flat.complete σ τ vs user ((swap σ vs).mpr denote)⟩

/-- A global is flattened as a call with no argument. -/
theorem flattens_global {v : String} (global : globals v = true) (hd : endsInDigit v = false)
    (lo : Nat) :
    Flattens globals den interp [.var v] lo (lo + 1) [.var (freshName v lo)]
      [⟨.sym v, [.var (freshName v lo)]⟩] := by
  have empty : Flattens globals den interp [] lo lo [] [] := flattens_nil lo
  have flat := empty.call hd
  simp only [List.nil_append] at flat
  exact flat.congr fun σ w => by simp [Expr.Denotes, Expr.DenoteAll, global]

theorem pushCall_run (f : String) (terms : List AtomTerm) (atoms : List (Atom Head))
    (st : FlattenState) :
    (pushCall f terms atoms).run st =
      .ok ((.var (freshName f st.counter),
        atoms ++ [⟨.sym f, terms ++ [.var (freshName f st.counter)]⟩]),
        { st with counter := st.counter + 1 }) :=
  rfl

/-- A successful run read off its result: the value and the state. -/
theorem ok_inv {α : Type} {a a' : α} {s s' : FlattenState}
    (h : (Except.ok (a, s) : Except TypeError (α × FlattenState)) = .ok (a', s')) :
    a = a' ∧ s = s' := by
  injection h with same
  simp only [Prod.mk.injEq] at same
  exact same

/-- A successful run that returns a pair, read off its result. -/
theorem ok_pair_inv {α β : Type} {a a' : α} {b b' : β} {s s' : FlattenState}
    (h : (Except.ok ((a, b), s) : Except TypeError ((α × β) × FlattenState)) =
      .ok ((a', b'), s')) : a = a' ∧ b = b' ∧ s = s' := by
  obtain ⟨same, rfl⟩ := ok_inv h
  simp only [Prod.mk.injEq] at same
  exact ⟨same.1, same.2, rfl⟩

theorem run_pure_inv {α : Type} {a b : α} {st st' : FlattenState}
    (h : (pure a : FlattenM α).run st = .ok (b, st')) : a = b ∧ st = st' :=
  ok_inv h

variable (den interp) in
mutual

/-- Flattening a hygienic expression of a query appends atoms that flatten it. -/
theorem queryExpr_flattens (e : Expr) (atoms : List (Atom Head)) (st : FlattenState)
    {t : AtomTerm} {atoms' : List (Atom Head)} {st' : FlattenState}
    (hygienic : e.hygienic globals = true)
    (run : (queryExpr globals e atoms).run st = .ok ((t, atoms'), st')) :
    ∃ new, atoms' = atoms ++ new ∧
      Flattens globals den interp [e] st.counter st'.counter [t] new := by
  cases e with
  | lit l =>
    obtain ⟨rfl, rfl, rfl⟩ := ok_pair_inv run
    exact ⟨[], by simp, flattens_lit l _⟩
  | var v =>
    simp only [queryExpr] at run
    split at run
    · rename_i global
      simp only [Expr.hygienic, global, if_true, Bool.not_eq_true'] at hygienic
      rw [pushCall_run] at run
      obtain ⟨rfl, rfl, rfl⟩ := ok_pair_inv run
      exact ⟨_, by simp, flattens_global global hygienic st.counter⟩
    · rename_i notGlobal
      simp only [Bool.not_eq_true] at notGlobal
      simp only [Expr.hygienic, notGlobal, Bool.false_eq_true, if_false,
        Bool.not_eq_true'] at hygienic
      obtain ⟨rfl, rfl, rfl⟩ := ok_pair_inv run
      exact ⟨[], by simp, flattens_user notGlobal hygienic _⟩
  | call f args =>
    simp only [Expr.hygienic, Bool.and_eq_true, Bool.not_eq_true'] at hygienic
    simp only [queryExpr, StateT.run_bind] at run
    obtain ⟨⟨⟨terms, atoms₁⟩, st₁⟩, first, rest⟩ := ok_of_bind run
    obtain ⟨new, rfl, flat⟩ := queryExprs_flattens args atoms st hygienic.2 first
    rw [pushCall_run] at rest
    obtain ⟨rfl, rfl, rfl⟩ := ok_pair_inv rest
    exact ⟨_, by simp, flat.call hygienic.1⟩
termination_by sizeOf e

/-- Flattening hygienic arguments, left to right, appends atoms that flatten them. -/
theorem queryExprs_flattens (es : List Expr) (atoms : List (Atom Head)) (st : FlattenState)
    {ts : List AtomTerm} {atoms' : List (Atom Head)} {st' : FlattenState}
    (hygienic : Expr.hygienicAll globals es = true)
    (run : (queryExprs globals es atoms).run st = .ok ((ts, atoms'), st')) :
    ∃ new, atoms' = atoms ++ new ∧
      Flattens globals den interp es st.counter st'.counter ts new := by
  cases es with
  | nil =>
    obtain ⟨rfl, rfl, rfl⟩ := ok_pair_inv run
    exact ⟨[], by simp, flattens_nil _⟩
  | cons e es =>
    simp only [Expr.hygienicAll, Bool.and_eq_true] at hygienic
    simp only [queryExprs, StateT.run_bind] at run
    obtain ⟨⟨⟨t, atoms₁⟩, st₁⟩, first, run⟩ := ok_of_bind run
    obtain ⟨⟨⟨ts', atoms₂⟩, st₂⟩, second, last⟩ := ok_of_bind run
    obtain ⟨rfl, rfl, rfl⟩ := ok_pair_inv last
    obtain ⟨new₁, rfl, flat₁⟩ := queryExpr_flattens e atoms st hygienic.1 first
    obtain ⟨new₂, rfl, flat₂⟩ := queryExprs_flattens es _ st₁ hygienic.2 second
    exact ⟨new₁ ++ new₂, by simp, flat₁.append flat₂⟩
termination_by sizeOf es

end

/-! ### Facts -/

/-- Every equality between neighbours relates two of the terms. -/
theorem mem_chainEq (ts : List AtomTerm) :
    ∀ a ∈ chainEq ts, ∃ x ∈ ts, ∃ y ∈ ts, a = ⟨.eq, [x, y]⟩ := by
  fun_induction chainEq ts with
  | case1 x y rest ih =>
    intro a mem
    rcases List.mem_cons.mp mem with rfl | mem
    · exact ⟨x, by simp, y, by simp, rfl⟩
    · obtain ⟨u, hu, v, hv, rfl⟩ := ih a mem
      exact ⟨u, List.mem_cons_of_mem _ hu, v, List.mem_cons_of_mem _ hv, rfl⟩
  | case2 => exact fun a mem => by cases mem

theorem chainEq_scoped {lo hi : Nat} {ts : List AtomTerm}
    (inScope : AllScoped lo hi (ts.filterMap AtomTerm.var?)) :
    AllScoped lo hi ((chainEq ts).flatMap Atom.vars) := by
  intro x mem
  obtain ⟨a, ha, hx⟩ := List.mem_flatMap.mp mem
  obtain ⟨u, hu, v, hv, rfl⟩ := mem_chainEq ts a ha
  obtain ⟨t, ht, var⟩ := List.mem_filterMap.mp hx
  simp only [List.mem_cons, List.not_mem_nil, or_false] at ht
  rcases ht with rfl | rfl
  · exact inScope x (List.mem_filterMap.mpr ⟨_, hu, var⟩)
  · exact inScope x (List.mem_filterMap.mpr ⟨_, hv, var⟩)

/-- Terms of one value satisfy the equalities between neighbours. -/
theorem chainEq_holds {τ : String → Value} {ts : List AtomTerm} {w : Value}
    (same : ∀ t ∈ ts, t.eval den τ = w) : ∀ a ∈ chainEq ts, a.Holds den interp τ := by
  intro a mem
  obtain ⟨x, hx, y, hy, rfl⟩ := mem_chainEq ts a mem
  refine ⟨fun _ => (Atom.eqHolds_pair rfl).mpr ?_, fun f head => by cases head⟩
  rw [same x hx, same y hy]

/-- Where the equalities between neighbours hold, every term has the first one's value. -/
theorem eval_eq_of_chainEq_holds {τ : String → Value} (t : AtomTerm) (ts : List AtomTerm)
    (holds : ∀ a ∈ chainEq (t :: ts), a.Holds den interp τ) :
    ∀ x ∈ t :: ts, x.eval den τ = t.eval den τ := by
  induction ts generalizing t with
  | nil => simp
  | cons u rest ih =>
    have first : t.eval den τ = u.eval den τ :=
      (Atom.eqHolds_pair rfl).mp ((holds _ List.mem_cons_self).1 rfl)
    have rest_same := ih u fun a mem => holds a (List.mem_cons_of_mem _ mem)
    intro x mem
    rcases List.mem_cons.mp mem with rfl | mem
    · rfl
    · rw [rest_same x mem, first]

variable (globals den interp) in
/-- What flattening the facts `facts` gives while the counter goes from `lo`
to `hi`: new atoms over user variables and the names made fresh in the
stretch, which hold exactly where the facts do, up to those fresh names. -/
structure FlattensFacts (facts : List Fact) (lo hi : Nat) (new : List (Atom Head)) : Prop where
  le : lo ≤ hi
  atoms_scoped : AllScoped lo hi (new.flatMap Atom.vars)
  sound : ∀ σ τ, UserAgree σ τ → (∀ a ∈ new, a.Holds den interp τ) →
    ∀ fact ∈ facts, fact.Holds globals den interp σ
  complete : ∀ σ τ, UserAgree σ τ → (∀ fact ∈ facts, fact.Holds globals den interp σ) →
    ∃ τ', Agrees lo hi τ τ' ∧ ∀ a ∈ new, a.Holds den interp τ'

theorem flattensFacts_nil (lo : Nat) : FlattensFacts globals den interp [] lo lo [] where
  le := le_rfl
  atoms_scoped x mem := by cases mem
  sound _ _ _ _ fact mem := by cases mem
  complete _ τ _ _ := ⟨τ, Agrees.refl τ, fun a mem => by cases mem⟩

theorem FlattensFacts.append {facts₁ facts₂ : List Fact} {lo mid hi : Nat}
    {new₁ new₂ : List (Atom Head)} (first : FlattensFacts globals den interp facts₁ lo mid new₁)
    (second : FlattensFacts globals den interp facts₂ mid hi new₂) :
    FlattensFacts globals den interp (facts₁ ++ facts₂) lo hi (new₁ ++ new₂) where
  le := first.le.trans second.le
  atoms_scoped := by
    rw [List.flatMap_append]
    exact (first.atoms_scoped.mono le_rfl second.le).append (second.atoms_scoped.mono first.le le_rfl)
  sound σ τ user holds fact mem := by
    rcases List.mem_append.mp mem with mem | mem
    · exact first.sound σ τ user (fun a ha => holds a (List.mem_append_left _ ha)) fact mem
    · exact second.sound σ τ user (fun a ha => holds a (List.mem_append_right _ ha)) fact mem
  complete σ τ user facts_hold := by
    obtain ⟨τ₁, agrees₁, holds₁⟩ :=
      first.complete σ τ user fun fact mem => facts_hold fact (List.mem_append_left _ mem)
    obtain ⟨τ₂, agrees₂, holds₂⟩ := second.complete σ τ₁ (user.agrees agrees₁)
      fun fact mem => facts_hold fact (List.mem_append_right _ mem)
    refine ⟨τ₂, agrees₁.trans agrees₂ first.le second.le, fun a mem => ?_⟩
    rcases List.mem_append.mp mem with mem | mem
    · exact agrees₂.holds first.atoms_scoped holds₁ a mem
    · exact holds₂ a mem

/-- **An equality** is flattened to its sides and the equalities between
neighbouring sides. -/
theorem Flattens.eqFact {es : List Expr} {lo hi : Nat} {ts : List AtomTerm}
    {new : List (Atom Head)} (flat : Flattens globals den interp es lo hi ts new) :
    FlattensFacts globals den interp [.eq es] lo hi (new ++ chainEq ts) where
  le := flat.le
  atoms_scoped := by
    rw [List.flatMap_append]
    exact flat.atoms_scoped.append (chainEq_scoped flat.terms_scoped)
  sound σ τ user holds fact mem := by
    rcases List.mem_singleton.mp mem with rfl
    have denote := flat.sound σ τ user fun a ha => holds a (List.mem_append_left _ ha)
    have chain : ∀ a ∈ chainEq ts, a.Holds den interp τ := fun a ha =>
      holds a (List.mem_append_right _ ha)
    cases ts with
    | nil =>
      -- no sides: any value is the value of all of them
      rw [List.map_nil, List.forall₂_nil_right_iff] at denote
      exact ⟨.unit, by simp [denote]⟩
    | cons t ts =>
      have same := eval_eq_of_chainEq_holds t ts chain
      refine ⟨t.eval den τ, List.Forall₂.eq_of_values_eq denote fun v hv => ?_⟩
      obtain ⟨x, hx, rfl⟩ := List.mem_map.mp hv
      exact same x hx
  complete σ τ user facts_hold := by
    obtain ⟨w, each⟩ := facts_hold _ List.mem_cons_self
    obtain ⟨τ', agrees, holds, values⟩ :=
      flat.complete σ τ _ user (List.forall₂_replicate_of_forall each)
    refine ⟨τ', agrees, fun a mem => ?_⟩
    rcases List.mem_append.mp mem with mem | mem
    · exact holds a mem
    · refine chainEq_holds (w := w) (fun t ht => ?_) a mem
      exact List.eq_of_mem_replicate (values ▸ List.mem_map_of_mem ht)

/-- **A fact that holds** is flattened to its expression. -/
theorem Flattens.holdsFact {e : Expr} {lo hi : Nat} {t : AtomTerm} {new : List (Atom Head)}
    (flat : Flattens globals den interp [e] lo hi [t] new) :
    FlattensFacts globals den interp [.holds e] lo hi new where
  le := flat.le
  atoms_scoped := flat.atoms_scoped
  sound σ τ user holds fact mem := by
    rcases List.mem_singleton.mp mem with rfl
    obtain ⟨w, -, value⟩ := List.forall₂_singleton_left.mp (flat.sound σ τ user holds)
    exact ⟨w, value⟩
  complete σ τ user facts_hold := by
    obtain ⟨w, value⟩ := facts_hold _ List.mem_cons_self
    obtain ⟨τ', agrees, holds, -⟩ := flat.complete σ τ [w] user (.cons value .nil)
    exact ⟨τ', agrees, holds⟩

variable (den interp) in
/-- Flattening a hygienic fact appends atoms that flatten it. -/
theorem query_step_flattens {atoms atoms' : List (Atom Head)} {fact : Fact}
    {st st' : FlattenState} (hygienic : fact.hygienic globals = true)
    (run : (query.step globals atoms fact).run st = .ok (atoms', st')) :
    ∃ new, atoms' = atoms ++ new ∧
      FlattensFacts globals den interp [fact] st.counter st'.counter new := by
  cases fact with
  | eq es =>
    simp only [query.step] at run
    split at run
    · cases run
    · simp only [StateT.run_bind] at run
      obtain ⟨⟨⟨terms, atoms₁⟩, st₁⟩, first, last⟩ := ok_of_bind run
      obtain ⟨rfl, rfl⟩ := run_pure_inv last
      obtain ⟨new, rfl, flat⟩ := queryExprs_flattens den interp es atoms st hygienic first
      exact ⟨new ++ chainEq terms, by simp, flat.eqFact⟩
  | holds e =>
    simp only [query.step, StateT.run_bind] at run
    obtain ⟨⟨⟨t, atoms₁⟩, st₁⟩, first, last⟩ := ok_of_bind run
    obtain ⟨rfl, rfl⟩ := run_pure_inv last
    obtain ⟨new, rfl, flat⟩ := queryExpr_flattens den interp e atoms st hygienic first
    exact ⟨new, rfl, flat.holdsFact⟩

variable (den interp) in
/-- Flattening hygienic facts one after the other appends atoms that flatten them all. -/
theorem query_fold_flattens (facts : List Fact) {atoms atoms' : List (Atom Head)}
    {st st' : FlattenState} (hygienic : ∀ fact ∈ facts, fact.hygienic globals = true)
    (run : (facts.foldlM (query.step globals) atoms).run st = .ok (atoms', st')) :
    ∃ new, atoms' = atoms ++ new ∧
      FlattensFacts globals den interp facts st.counter st'.counter new := by
  induction facts generalizing atoms st with
  | nil =>
    rw [List.foldlM_nil] at run
    obtain ⟨rfl, rfl⟩ := run_pure_inv run
    exact ⟨[], by simp, flattensFacts_nil _⟩
  | cons fact facts ih =>
    simp only [List.foldlM_cons, StateT.run_bind] at run
    obtain ⟨⟨atoms₁, st₁⟩, first, rest⟩ := ok_of_bind run
    obtain ⟨new₁, rfl, flat₁⟩ :=
      query_step_flattens den interp (hygienic fact List.mem_cons_self) first
    obtain ⟨new₂, rfl, flat₂⟩ := ih (fun f mem => hygienic f (List.mem_cons_of_mem _ mem)) rest
    exact ⟨new₁ ++ new₂, by simp, flat₁.append flat₂⟩

variable (den interp) in
/-- The atoms of a hygienic query flatten its facts. -/
theorem query_flattens {facts : List Fact} {atoms : List (Atom Head)} {st st' : FlattenState}
    (hygienic : ∀ fact ∈ facts, fact.hygienic globals = true)
    (run : (query globals facts).run st = .ok (atoms, st')) :
    FlattensFacts globals den interp facts st.counter st'.counter atoms := by
  obtain ⟨new, rfl, flat⟩ := query_fold_flattens den interp facts hygienic run
  simpa using flat

/-- A valuation satisfies facts that flatten to some atoms exactly when one
with the same user variables satisfies the atoms. -/
theorem FlattensFacts.solutions {facts : List Fact} {lo hi : Nat} {atoms : List (Atom Head)}
    (flat : FlattensFacts globals den interp facts lo hi atoms) (σ : String → Value) :
    (∀ fact ∈ facts, fact.Holds globals den interp σ) ↔
      ∃ σ', UserAgree σ σ' ∧ ∀ a ∈ atoms, a.Holds den interp σ' := by
  have self : UserAgree σ σ := fun _ _ => rfl
  constructor
  · intro holds
    obtain ⟨σ', agrees, atoms_hold⟩ := flat.complete σ σ self holds
    exact ⟨σ', self.agrees agrees, atoms_hold⟩
  · rintro ⟨σ', user, atoms_hold⟩
    exact flat.sound σ σ' user atoms_hold

end Query

end Flatten

end Saturate
