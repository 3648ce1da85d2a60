import Mathlib
import Saturate.Proofs.Table.Index
import Saturate.Proofs.Session.Reachable

/-!
# The changes of a database and the rows they carry

Commands and interface calls change a database by `Database.Change`: a write
(`Database.Write`), declaring a function whose table is indexed, a change of
the types, the rulesets or the options, a tick of the clock, and the record
of a rule's search. Each keeps every table indexed (`Database.Changes.indexed`).

A row of a function is followed through such changes by its function's offset
and its inputs (`Database.Carry`): a change of its function's table carries
it as `Table.Carry` does, a change elsewhere leaves it, and declaring a
function in its function's place ends it. Every change carries each row
somewhere (`Database.Changes.follows`), and a subsumed row of an indexed table
stays subsumed wherever it is carried (`Database.Follows.marked`).

`Session.Changed s t` says that `t` came from `s` by such changes and kept
the frame of `s`. Every computation of a command that declares something
changes a session so, on success and on an error; the triples are tagged
`@[spec]` above the ones that say it moves the session (`Session.Moves`).
-/

open Std.Do

set_option mvcgen.warning false

namespace Saturate

namespace Database

/-- Every table of the database is indexed. -/
def Indexed (d : Database) : Prop := ∀ f ∈ d.funcs.toList, f.table.Indexed

/-- One change of a database by a command or a call. A declared function's
table is indexed. -/
inductive Change : Database → Database → Prop
  | write {d d' : Database} (w : d.Write d') : Change d d'
  | declare (d : Database) (f : Func) (indexed : f.table.Indexed) : Change d (d.addFunc f)
  | types (d : Database) (ti : TypeInfo) : Change d { d with types := ti }
  | rulesets (d : Database) (rs : List (String × Ruleset)) : Change d { d with rulesets := rs }
  | options (d : Database) (o : Options) : Change d { d with options := o }
  | tick (d : Database) : Change d { d with timestamp := d.timestamp + 1 }
  | stamp (d : Database) (r : String) :
      Change d { d with lastRun := d.lastRun.insert r d.timestamp }

/-- Changes of a database, one after another. -/
abbrev Changes : Database → Database → Prop := Relation.ReflTransGen Change

/-! ### Tables stay indexed -/

theorem Write.indexed {d d' : Database} (w : d.Write d') (h : d.Indexed) : d'.Indexed := by
  intro f' mem
  obtain ⟨f, mem, _, reach⟩ := w.reaches mem
  exact reach.indexed (h f mem)

theorem Change.indexed {d d' : Database} (c : d.Change d') (h : d.Indexed) : d'.Indexed := by
  cases c with
  | write w => exact w.indexed h
  | declare f indexed =>
    intro f' mem
    rcases mem_addFunc mem with old | rfl
    · exact h f' old
    · exact indexed
  | _ => exact h

theorem Changes.indexed {d d' : Database} (changes : d.Changes d') (h : d.Indexed) : d'.Indexed := by
  induction changes with
  | refl => exact h
  | tail _ c ih => exact c.indexed ih

/-! ### Following a row -/

/-- Where one change of a database takes the row followed: `some (p, k)` is
the row for `k` of the function at offset `p`, `none` a row that is gone. -/
inductive Carry : Database × Option (Nat × List Value) → Database × Option (Nat × List Value) → Prop
  /-- The table of the row's function changes and carries the row. -/
  | table (d : Database) (p : Nat) (φ : Func → Func) {f : Func} (found : d.funcs[p]? = some f)
      {k : List Value} {y : Option (List Value)} (follows : Table.Follows (f.table, some k) ((φ f).table, y)) :
      Carry (d, some (p, k)) ({ d with funcs := d.funcs.modify p φ }, y.map (p, ·))
  /-- The rest of the database changes; the function of the row stays. -/
  | aside (d d' : Database) (y : Option (Nat × List Value))
      (kept : ∀ p k, y = some (p, k) → d'.funcs[p]? = d.funcs[p]?) : Carry (d, y) (d', y)
  /-- A function declared in the place of the row's function ends the row. -/
  | replaced (d : Database) (f : Func) (p : Nat) (k : List Value) :
      Carry (d, some (p, k)) (d.addFunc f, none)

/-- Changes of a database with the row followed through them. -/
abbrev Follows : Database × Option (Nat × List Value) → Database × Option (Nat × List Value) → Prop :=
  Relation.ReflTransGen Carry

/-- The row followed, if there is one, is a subsumed row of an indexed table. -/
def Marked (q : Database × Option (Nat × List Value)) : Prop :=
  ∀ p k, q.2 = some (p, k) → ∃ f, q.1.funcs[p]? = some f ∧ Table.Marked (f.table, some k)

theorem Carry.marked {q q' : Database × Option (Nat × List Value)} (c : Carry q q') (h : Marked q) :
    Marked q' := by
  cases c with
  | table d p φ found follows =>
    rename_i f k y
    intro p' k' tracked
    -- the row is still in the table of the function at `p`
    obtain ⟨rfl, rfl⟩ : p = p' ∧ y = some k' := by
      cases y with
      | none => cases tracked
      | some k'' =>
        simp only [Option.map_some, Option.some.injEq, Prod.mk.injEq] at tracked
        exact ⟨tracked.1, by rw [tracked.2]⟩
    obtain ⟨f', found', marked⟩ := h p k rfl
    rw [found, Option.some.injEq] at found'
    subst found'
    exact ⟨φ f, by simp [Array.getElem?_modify, found], follows.marked marked⟩
  | aside d d' y kept =>
    intro p k tracked
    obtain ⟨f, found, marked⟩ := h p k tracked
    exact ⟨f, by rw [kept p k tracked, found], marked⟩
  | replaced d f p k => intro _ _ gone; cases gone

theorem Follows.marked {q q' : Database × Option (Nat × List Value)} (steps : Follows q q')
    (h : Marked q) : Marked q' := by
  induction steps with
  | refl => exact h
  | tail _ c ih => exact c.marked ih

/-- A change that leaves the functions alone carries every row along. -/
theorem Carry.of_funcs {d d' : Database} (same : d'.funcs = d.funcs) (y : Option (Nat × List Value)) :
    Carry (d, y) (d', y) :=
  .aside d d' y fun _ _ _ => by rw [same]

/-- Every change of a database carries the row followed somewhere. -/
theorem Change.follows {d d' : Database} (c : d.Change d') (y : Option (Nat × List Value)) :
    ∃ y', Follows (d, y) (d', y') := by
  cases c with
  | write w =>
    cases w with
    | table i φ frame moves =>
      -- only a row of the function at `i` moves
      rcases y with _ | ⟨p, k⟩
      · exact ⟨none, .single (.aside _ _ none fun _ _ none => by cases none)⟩
      by_cases here : p = i
      · subst here
        rcases found : d.funcs[p]? with _ | f
        · refine ⟨some (p, k), .single (.aside _ _ _ fun _ _ tracked => ?_)⟩
          cases tracked
          simp [Array.getElem?_modify, found]
        · obtain ⟨y', follows⟩ := (moves f found).follows (some k)
          exact ⟨y'.map (p, ·), .single (.table d p φ found follows)⟩
      · refine ⟨some (p, k), .single (.aside _ _ _ fun _ _ tracked => ?_)⟩
        cases tracked
        simp [Array.getElem?_modify, Ne.symm here]
    | unionFind uf => exact ⟨y, .single (.of_funcs (by rfl) y)⟩
  | declare f _ =>
    rcases y with _ | ⟨p, k⟩
    · exact ⟨none, .single (.aside _ _ none fun _ _ none => by cases none)⟩
    by_cases kept : (d.addFunc f).funcs[p]? = d.funcs[p]?
    · exact ⟨some (p, k), .single (.aside _ _ _ fun _ _ tracked => by cases tracked; exact kept)⟩
    · exact ⟨none, .single (.replaced d f p k)⟩
  | _ => exact ⟨y, .single (.of_funcs (by rfl) y)⟩

theorem Changes.follows {d d' : Database} (changes : d.Changes d') (y : Option (Nat × List Value)) :
    ∃ y', Follows (d, y) (d', y') := by
  induction changes with
  | refl => exact ⟨y, .refl⟩
  | tail _ c ih =>
    obtain ⟨y₁, follows⟩ := ih
    obtain ⟨y₂, more⟩ := c.follows y₁
    exact ⟨y₂, follows.trans more⟩

/-- A change of a search round is a change. -/
theorem RoundStep.change {d d' : Database} (step : d.RoundStep d') : d.Change d' := by
  cases step with
  | write w => exact .write w
  | stamp r => exact .stamp d r

namespace Changes

variable {d₀ d : Database}

@[grind →] theorem trans' {d' : Database} (h : d₀.Changes d) (h' : d.Changes d') : d₀.Changes d' :=
  Relation.ReflTransGen.trans h h'

@[grind →] theorem of_writes {d' : Database} (w : d.Writes d') : d.Changes d' :=
  Relation.ReflTransGen.mono (fun _ _ w => .write w) _ _ w

@[grind →] theorem of_round {d' : Database} (r : d.Round d') : d.Changes d' :=
  Relation.ReflTransGen.mono (fun _ _ step => step.change) _ _ r

@[grind! .] theorem declareEmpty (d : Database) {f : Func} (empty : f.table = .empty) :
    d.Changes (d.addFunc f) :=
  .single (.declare d f (empty ▸ Table.empty_indexed))

@[grind! .] theorem declareRow (d : Database) {f : Func} (empty : f.table = .empty) (v : Value)
    (ts : Nat) : d.Changes (d.addFunc (f.put [] v ts)) := by
  refine .single (.declare d _ ?_)
  rw [Func.put, empty]
  exact Table.put_indexed Table.empty_indexed [] v ts false

@[grind! .] theorem types (d : Database) (ti : TypeInfo) : d.Changes { d with types := ti } :=
  .single (.types d ti)

@[grind! .] theorem rulesets (d : Database) (rs : List (String × Ruleset)) :
    d.Changes { d with rulesets := rs } :=
  .single (.rulesets d rs)

@[grind! .] theorem options (d : Database) (o : Options) : d.Changes { d with options := o } :=
  .single (.options d o)

@[grind! .] theorem tick (d : Database) : d.Changes { d with timestamp := d.timestamp + 1 } :=
  .single (.tick d)

end Changes

end Database

/-! ### Sessions changed -/

/-- `t` came from `s` by changes of the database and kept the frame of `s`. -/
structure Session.Changed (s t : Session) : Prop where
  keeps : s.Keeps t
  changes : s.db.Changes t.db

@[grind =] theorem Session.changed_iff {s t : Session} :
    s.Changed t ↔ s.Keeps t ∧ s.db.Changes t.db :=
  ⟨fun h => ⟨h.keeps, h.changes⟩, fun h => ⟨h.1, h.2⟩⟩

namespace Session.Changed

variable {s t : Session}

theorem refl (s : Session) : s.Changed s := ⟨.refl s, .refl⟩

theorem trans {u : Session} (hst : s.Changed t) (htu : t.Changed u) : s.Changed u :=
  ⟨hst.keeps.trans htu.keeps, hst.changes.trans htu.changes⟩

theorem of_acts (a : s.Acts t) : s.Changed t := ⟨a.keeps, .of_writes a.writes⟩

theorem of_applies (a : s.Applies t) : s.Changed t := ⟨a.keeps, .of_round a.round⟩

end Session.Changed

/-- Success and every error leave a session changed from `s₀`. -/
abbrev Session.ChangedAfter {α : Type} (s₀ : Session) :
    PostCond α (.except Failure (.arg Session .pure)) :=
  post⟨fun _ s => ⌜s₀.Changed s⌝, fun e s => ⌜e.IsError → s₀.Changed s⌝⟩

namespace Engine

variable (s₀ : Session)

@[spec 1200] theorem declareSort_changes (name : String) (presort : Option (String × List Expr)) :
    ⦃fun s => ⌜s₀.Changed s⌝⦄ declareSort name presort ⦃s₀.ChangedAfter⦄ := by
  mvcgen [-declareSort_keeps, -declareSort_moves, declareSort]
  all_goals grind [Pool.newTable_grows]

@[spec 1200] theorem declareFunction_changes (decl : FunctionDecl) :
    ⦃fun s => ⌜s₀.Changed s⌝⦄ declareFunction decl ⦃s₀.ChangedAfter⦄ := by
  mvcgen [-declareFunction_fails_early, -declareFunction_moves, declareFunction] <;> grind

@[spec 1200] theorem declareDatatype_changes (name : String) (variants : List Variant) :
    ⦃fun s => ⌜s₀.Changed s⌝⦄ declareDatatype name variants ⦃s₀.ChangedAfter⦄ := by
  mvcgen [-declareDatatype_keeps, -declareDatatype_moves, declareDatatype]
  case inv1 => exact s₀.ChangedAfter
  all_goals grind

@[spec 1200] theorem addRuleset_changes (name : String) :
    ⦃fun s => ⌜s₀.Changed s⌝⦄ addRuleset name ⦃s₀.ChangedAfter⦄ := by
  mvcgen [-addRuleset_fails_early, -addRuleset_moves, addRuleset] <;> grind

@[spec 1200] theorem addCombinedRuleset_changes (name : String) (members : List String) :
    ⦃fun s => ⌜s₀.Changed s⌝⦄ addCombinedRuleset name members ⦃s₀.ChangedAfter⦄ := by
  mvcgen [-addCombinedRuleset_fails_early, -addCombinedRuleset_moves, addCombinedRuleset] <;> grind

@[spec 1200] theorem addRule_changes (name : String) (r : Rule) (ruleset : String) :
    ⦃fun s => ⌜s₀.Changed s⌝⦄ addRule name r ruleset ⦃s₀.ChangedAfter⦄ := by
  mvcgen [-addRule_keeps, -addRule_moves, addRule] <;> grind

@[spec 1200] theorem declareGlobal_changes (name : String) (e : Expr) :
    ⦃fun s => ⌜s₀.Changed s⌝⦄ declareGlobal name e ⦃s₀.ChangedAfter⦄ := by
  mvcgen [-declareGlobal_keeps, -declareGlobal_moves, declareGlobal] <;> grind

@[spec 1200] theorem setOption_changes (name : String) (value : Expr) :
    ⦃fun s => ⌜s₀.Changed s⌝⦄ setOption name value ⦃s₀.ChangedAfter⦄ := by
  mvcgen [-setOption_fails_early, -setOption_moves, setOption] <;> grind

@[spec 1200] theorem extractExpr_changes (e : Expr) (variants : Nat) :
    ⦃fun s => ⌜s₀.Changed s⌝⦄ extractExpr e variants ⦃s₀.ChangedAfter⦄ := by
  mvcgen [-extractExpr_keeps, -extractExpr_moves, extractExpr] <;> grind

@[spec 1200] theorem addEqSort_changes (name : String) :
    ⦃fun s => ⌜s₀.Changed s⌝⦄ addEqSort name ⦃s₀.ChangedAfter⦄ := by
  mvcgen [-addEqSort_moves, addEqSort] <;> grind

end Engine

end Saturate
