import Mathlib
import Saturate.Proofs.Session.Clock

/-!
# What commands do to the clock's discipline

Outside search rounds, every computation of a command or of an interface
call changes the database only by `Database.Step`s (`Session.Moves`): it
writes at the clock's time, declares functions whose tables start empty or
with one row at the clock's time, and changes the types, the rulesets and
the options. The statements are triples over the engine, tagged `@[spec]`
above the frame triples they refine, like those of `Session.Acts`.
-/

open Std.Do

set_option mvcgen.warning false

namespace Saturate

/-- A made function starts with an empty table. -/
@[grind →] theorem Func.make_table {ti : TypeInfo} {d : FunctionDecl} {ft : FuncType} {f : Func}
    (made : Func.make ti d ft = .ok f) : f.table = .empty := by
  unfold Func.make at made
  simp only [bind, Except.bind, pure, Except.pure] at made
  repeat' split at made
  all_goals cases made <;> rfl

namespace Database

/-- Declaring a function with an empty table is a step. -/
theorem Step.declareEmpty (d : Database) {f : Func} (empty : f.table = .empty) :
    d.Step (d.addFunc f) :=
  .declare d f (empty ▸ Table.empty_dated _) (by simp [empty, Table.liveBefore, Table.empty])

/-- Declaring a function with one row written at the clock's time is a step. -/
theorem Step.declareRow (d : Database) {f : Func} (empty : f.table = .empty) (v : Value) :
    d.Step (d.addFunc (f.put [] v d.timestamp)) := by
  have row : Table.Step d.timestamp .empty ((f.put [] v d.timestamp).table) := by
    rw [Func.put, empty]
    exact .put _ [] v false
  refine .declare d _ (row.dated (Table.empty_dated _)) ?_
  apply List.eq_nil_of_subset_nil
  simpa [Table.liveBefore, Table.empty] using row.liveBefore_subset (Nat.le_refl _)

namespace Steps

variable {d₀ d : Database}

@[grind →] theorem trans' {d' : Database} (h : d₀.Steps d) (h' : d.Steps d') : d₀.Steps d' :=
  Relation.ReflTransGen.trans h h'

@[grind →] theorem of_writes {d' : Database} (w : d.Writes d') : d.Steps d' :=
  Relation.ReflTransGen.mono (fun _ _ w => .write w) _ _ w

@[grind! .] theorem declareEmpty (d : Database) {f : Func} (empty : f.table = .empty) :
    d.Steps (d.addFunc f) :=
  .single (.declareEmpty d empty)

@[grind! .] theorem declareRow (d : Database) {f : Func} (empty : f.table = .empty) (v : Value)
    {ts : Nat} (now : ts = d.timestamp) : d.Steps (d.addFunc (f.put [] v ts)) :=
  now ▸ .single (.declareRow d empty v)

@[grind! .] theorem types (d : Database) (ti : TypeInfo) : d.Steps { d with types := ti } :=
  .single (.types d ti)

@[grind! .] theorem rulesets (d : Database) (rs : List (String × Ruleset)) :
    d.Steps { d with rulesets := rs } :=
  .single (.rulesets d rs)

@[grind! .] theorem options (d : Database) (o : Options) : d.Steps { d with options := o } :=
  .single (.options d o)

@[grind! .] theorem tick (d : Database) : d.Steps { d with timestamp := d.timestamp + 1 } :=
  .single (.tick d)

end Steps

end Database

@[grind =] theorem Session.moves_iff {s t : Session} : s.Moves t ↔ s.Keeps t ∧ s.db.Steps t.db :=
  ⟨fun h => ⟨h.keeps, h.steps⟩, fun h => ⟨h.1, h.2⟩⟩

attribute [grind →] Session.Acts.writes

/-- Success and every error leave a session moved from `s₀`. -/
abbrev Session.MovesAfter {α : Type} (s₀ : Session) :
    PostCond α (.except Failure (.arg Session .pure)) :=
  post⟨fun _ s => ⌜s₀.Moves s⌝, fun e s => ⌜e.IsError → s₀.Moves s⌝⟩

namespace Engine

variable (s₀ : Session)

/-! ### Reading -/

@[spec 1100] theorem holds_reads (facts : List Fact) :
    ⦃fun s => ⌜s₀.Reads s⌝⦄ holds facts ⦃s₀.ReadsAfter⦄ := by
  mvcgen [-holds_keeps, holds] <;> grind

@[spec 1100] theorem extract_reads (sort : SortInfo) (v : Value) :
    ⦃fun s => ⌜s₀.Reads s⌝⦄ extract sort v ⦃s₀.ReadsAfter⦄ := by
  mvcgen [-extract_keeps, extract] <;> grind

/-! ### Commands -/

@[spec 1100] theorem declareSort_moves (name : String) (presort : Option (String × List Expr)) :
    ⦃fun s => ⌜s₀.Moves s⌝⦄ declareSort name presort ⦃s₀.MovesAfter⦄ := by
  mvcgen [-declareSort_keeps, declareSort]
  all_goals grind [Pool.newTable_grows]

@[spec 1100] theorem declareFunction_moves (decl : FunctionDecl) :
    ⦃fun s => ⌜s₀.Moves s⌝⦄ declareFunction decl ⦃s₀.MovesAfter⦄ := by
  mvcgen [-declareFunction_fails_early, declareFunction] <;> grind

@[spec 1100] theorem declareDatatype_moves (name : String) (variants : List Variant) :
    ⦃fun s => ⌜s₀.Moves s⌝⦄ declareDatatype name variants ⦃s₀.MovesAfter⦄ := by
  mvcgen [-declareDatatype_keeps, declareDatatype]
  case inv1 => exact s₀.MovesAfter
  all_goals grind

@[spec 1100] theorem addRuleset_moves (name : String) :
    ⦃fun s => ⌜s₀.Moves s⌝⦄ addRuleset name ⦃s₀.MovesAfter⦄ := by
  mvcgen [-addRuleset_fails_early, addRuleset] <;> grind

@[spec 1100] theorem addCombinedRuleset_moves (name : String) (members : List String) :
    ⦃fun s => ⌜s₀.Moves s⌝⦄ addCombinedRuleset name members ⦃s₀.MovesAfter⦄ := by
  mvcgen [-addCombinedRuleset_fails_early, addCombinedRuleset] <;> grind

@[spec 1100] theorem addRule_moves (name : String) (r : Rule) (ruleset : String) :
    ⦃fun s => ⌜s₀.Moves s⌝⦄ addRule name r ruleset ⦃s₀.MovesAfter⦄ := by
  mvcgen [-addRule_keeps, addRule] <;> grind

@[spec 1100] theorem declareGlobal_moves (name : String) (e : Expr) :
    ⦃fun s => ⌜s₀.Moves s⌝⦄ declareGlobal name e ⦃s₀.MovesAfter⦄ := by
  mvcgen [-declareGlobal_keeps, declareGlobal] <;> grind

@[spec 1100] theorem setOption_moves (name : String) (value : Expr) :
    ⦃fun s => ⌜s₀.Moves s⌝⦄ setOption name value ⦃s₀.MovesAfter⦄ := by
  mvcgen [-setOption_fails_early, setOption] <;> grind

@[spec 1100] theorem extractExpr_moves (e : Expr) (variants : Nat) :
    ⦃fun s => ⌜s₀.Moves s⌝⦄ extractExpr e variants ⦃s₀.MovesAfter⦄ := by
  mvcgen [-extractExpr_keeps, extractExpr] <;> grind

/-! ### Interface calls -/

@[spec 1100] theorem checkArity_reads (name : String) (inputs : List Value) :
    ⦃fun s => ⌜s₀.Reads s⌝⦄ checkArity name inputs ⦃s₀.ReadsAfter⦄ := by
  mvcgen [checkArity] <;> grind

@[spec 1100] theorem lookup_acts (name : String) (inputs : List Value) :
    ⦃fun s => ⌜s₀.Acts s⌝⦄ lookup name inputs ⦃s₀.ActsAfter⦄ := by
  mvcgen [lookup, mapM_acts] <;> grind

@[spec 1100] theorem setRow_acts (name : String) (inputs : List Value) (output : Value) :
    ⦃fun s => ⌜s₀.Acts s⌝⦄ setRow name inputs output ⦃s₀.ActsAfter⦄ := by
  mvcgen [setRow] <;> grind

@[spec 1100] theorem union_acts (a b : Value) :
    ⦃fun s => ⌜s₀.Acts s⌝⦄ union a b ⦃s₀.ActsAfter⦄ := by
  mvcgen [union] <;> grind

@[spec 1100] theorem rowsOf_reads (name : String) :
    ⦃fun s => ⌜s₀.Reads s⌝⦄ rowsOf name ⦃s₀.ReadsAfter⦄ := by
  mvcgen [rowsOf] <;> grind

@[spec 1100] theorem extractValueText_reads (v : Value) :
    ⦃fun s => ⌜s₀.Reads s⌝⦄ extractValueText v ⦃s₀.ReadsAfter⦄ := by
  mvcgen [extractValueText] <;> grind

@[spec 1100] theorem extractAll_reads :
    ⦃fun s => ⌜s₀.Reads s⌝⦄ extractAll ⦃s₀.ReadsAfter⦄ := by
  mvcgen [extractAll] <;> grind

@[spec 1100] theorem view_reads (v : Value) :
    ⦃fun s => ⌜s₀.Reads s⌝⦄ view v ⦃s₀.ReadsAfter⦄ := by
  mvcgen [view] <;> grind

@[spec 1100] theorem evaluate_acts (e : Expr) :
    ⦃fun s => ⌜s₀.Acts s⌝⦄ evaluate e ⦃s₀.ActsAfter⦄ := by
  mvcgen [evaluate] <;> grind

@[spec 1100] theorem rawValue_reads (sort : String) (bits : UInt64) :
    ⦃fun s => ⌜s₀.Reads s⌝⦄ rawValue sort bits ⦃s₀.ReadsAfter⦄ := by
  mvcgen [rawValue] <;> grind

@[spec 1100] theorem factsHold_reads (facts : List Fact) :
    ⦃fun s => ⌜s₀.Reads s⌝⦄ factsHold facts ⦃s₀.ReadsAfter⦄ := by
  mvcgen [factsHold] <;> grind

@[spec 1100] theorem addEqSort_moves (name : String) :
    ⦃fun s => ⌜s₀.Moves s⌝⦄ addEqSort name ⦃s₀.MovesAfter⦄ := by
  mvcgen [addEqSort] <;> grind

@[spec 1100] theorem snapshot_acts (maxFunctions maxCalls : Option Nat) (includeGlobals : Bool)
    (roots : List Expr) :
    ⦃fun s => ⌜s₀.Acts s⌝⦄ snapshot maxFunctions maxCalls includeGlobals roots ⦃s₀.ActsAfter⦄ := by
  mvcgen [snapshot, mapM_acts] <;> grind

end Engine

end Saturate
