import Mathlib
import Saturate.Session.Interface

/-!
# What the steps of a command keep

A command body changes the database freely, but outside it only two things
move: the saved scopes change only by `push` and `pop`, and the intern pool
only grows. `Session.Keeps s t` says that `t` kept the scopes of `s` and
every value `s` interned. Every computation a command body runs keeps the
frame of its start on every outcome a rollback sees: success, and failure by
an error (`Failure.IsError`); a fault ends the session and is exempt.

The statements are Hoare triples of `Std.Do` over the engine monad, one per
function and tagged `@[spec]`, so that each is proved by `mvcgen` from the
triples of the functions it calls.
-/

open Std.Do

set_option mvcgen.warning false

namespace Saturate

/-- `t` has the scopes of `s` and keeps everything `s` interned. -/
structure Session.Keeps (s t : Session) : Prop where
  scopes : t.scopes = s.scopes
  pool : s.pool.Grows t.pool

namespace Session.Keeps

theorem refl (s : Session) : s.Keeps s := ⟨rfl, .refl _⟩

theorem trans {s t u : Session} (hst : s.Keeps t) (htu : t.Keeps u) : s.Keeps u :=
  ⟨htu.scopes.trans hst.scopes, hst.pool.trans htu.pool⟩

end Session.Keeps

@[grind =] theorem Session.keeps_iff {s t : Session} :
    s.Keeps t ↔ t.scopes = s.scopes ∧ s.pool.Grows t.pool :=
  ⟨fun h => ⟨h.scopes, h.pool⟩, fun h => ⟨h.1, h.2⟩⟩

attribute [grind .] Pool.Grows.refl
attribute [grind →] Pool.Grows.trans

attribute [simp] Pool.Grows.refl

/-- Declaring a function leaves the union-find alone. -/
@[grind =] theorem Database.addFunc_unionFind (d : Database) (f : Func) :
    (d.addFunc f).unionFind = d.unionFind := by
  unfold Database.addFunc
  split <;> rfl

/-- The failures a rollback catches: errors, not faults or overflows. -/
def Failure.IsError : Failure → Prop
  | .error _ => True
  | _ => False

@[simp, grind .] theorem Failure.isError_error (e : Error) : (Failure.error e).IsError := trivial

@[simp, grind .] theorem Failure.not_isError_fault (msg : String) : ¬(Failure.fault msg).IsError := id

@[simp, grind .] theorem Failure.not_isError_overflow : ¬Failure.overflow.IsError := id

theorem Failure.isError_iff {e : Failure} : e.IsError ↔ ∃ err, e = .error err := by
  cases e <;> simp

/-- Success and every error keep the frame of `s₀`. -/
abbrev Session.KeepsAfter {α : Type} (s₀ : Session) :
    PostCond α (.except Failure (.arg Session .pure)) :=
  post⟨fun _ s => ⌜s₀.Keeps s⌝, fun e s => ⌜e.IsError → s₀.Keeps s⌝⟩

/-- `t` has the database and the scopes of `s` and keeps everything `s` interned. -/
structure Session.Reads (s t : Session) : Prop where
  keeps : s.Keeps t
  db : t.db = s.db

@[grind =] theorem Session.reads_iff {s t : Session} : s.Reads t ↔ s.Keeps t ∧ t.db = s.db :=
  ⟨fun h => ⟨h.keeps, h.db⟩, fun h => ⟨h.1, h.2⟩⟩

/-- Success and every error leave the database of `s₀` as it was. -/
abbrev Session.ReadsAfter {α : Type} (s₀ : Session) :
    PostCond α (.except Failure (.arg Session .pure)) :=
  post⟨fun _ s => ⌜s₀.Reads s⌝, fun e s => ⌜e.IsError → s₀.Reads s⌝⟩

/-- Success leaves the union-find of `s₀` as it was, and an error its whole
database: the step fails, if at all, before it writes. -/
abbrev Session.FailsEarly {α : Type} (s₀ : Session) :
    PostCond α (.except Failure (.arg Session .pure)) :=
  post⟨fun _ s => ⌜s₀.Keeps s ∧ s.db.unionFind = s₀.db.unionFind⌝,
    fun e s => ⌜e.IsError → s₀.Reads s⌝⟩

/-- The session with the dirty ids of the last rebuild round dropped, which is
all a rebuild does when nothing is staged. -/
def Session.clearRound (s : Session) : Session :=
  { s with db := { s.db with unionFind := s.db.unionFind.advanceRound } }

@[simp] theorem Session.clearRound_scopes (s : Session) : s.clearRound.scopes = s.scopes := rfl

@[simp] theorem Session.clearRound_pool (s : Session) : s.clearRound.pool = s.pool := rfl

namespace Engine

/-- What a triple over the engine says of one run from a state that meets
its precondition. -/
theorem run_of_triple {α : Type} {m : Engine α} {P : Session → Prop}
    {Q : α → Session → Prop} {E : Failure → Session → Prop}
    (h : ⦃fun s => ⌜P s⌝⦄ m ⦃post⟨fun a s => ⌜Q a s⌝, fun e s => ⌜E e s⌝⟩⦄) {S : Session}
    (hS : P S) :
    match m.run.run S with
    | (.ok a, T) => Q a T
    | (.error e, T) => E e T := by
  have run := h S hS
  simp [wp] at run
  rcases hm : m.run.run S with ⟨r, T⟩
  rw [hm] at run
  cases r <;> exact run

variable (s₀ : Session)

/-! ### The session's primitives

The primitives get exact specifications, in the style of the library's own
`modify` and `get`: the precondition is what the postcondition needs of the
state they make. A pool computation is known only by the pool growing, and
a fault of it empties the pool. These serve every other specification here,
whatever it keeps. -/

section Primitives

variable {α : Type} (Q : PostCond α (.except Failure (.arg Session .pure)))

@[spec] theorem pool_spec (s₁ : Session) (m : PoolM α) :
    ⦃fun s => ⌜s = s₁⌝⦄ Engine.pool m
    ⦃post⟨fun _ s => ⌜∃ q, s₁.pool.Grows q ∧ s = { s₁ with pool := q }⌝,
      fun e _ => ⌜¬e.IsError⌝⟩⦄ := by
  mvcgen [Engine.pool]
  · rename_i s same _ _ _ ran _
    subst same
    exact ⟨_, PoolM.run_grows ran, rfl⟩
  · simp

end Primitives

attribute [spec] db modifyDb modifyFunc say fail failType typed func enterNames

@[spec] theorem canonical_keeps (sort : SortInfo) (v : Value) :
    ⦃fun s => ⌜s₀.Keeps s⌝⦄ canonical sort v ⦃s₀.KeepsAfter⦄ := by
  mvcgen [canonical] <;> grind

@[spec] theorem find_keeps (v : Value) :
    ⦃fun s => ⌜s₀.Keeps s⌝⦄ find v ⦃s₀.KeepsAfter⦄ := by
  mvcgen [find]

@[spec] theorem withUnionFind_keeps {α : Type} (f : UnionFind → Except Failure (UnionFind × α)) :
    ⦃fun s => ⌜s₀.Keeps s⌝⦄ withUnionFind f ⦃s₀.KeepsAfter⦄ := by
  mvcgen [withUnionFind]
  all_goals grind

@[spec] theorem unionValues_keeps (a b : Value) (sort : String) :
    ⦃fun s => ⌜s₀.Keeps s⌝⦄ unionValues a b sort ⦃s₀.KeepsAfter⦄ := by
  mvcgen [unionValues]

@[spec] theorem makeClass_keeps (sort : String) :
    ⦃fun s => ⌜s₀.Keeps s⌝⦄ makeClass sort ⦃s₀.KeepsAfter⦄ := by
  mvcgen [makeClass]

/-! ### Loops -/

theorem mapM_keeps {α β : Type} (f : α → Engine β) (xs : List α)
    (step : ∀ x, ⦃fun s => ⌜s₀.Keeps s⌝⦄ f x ⦃s₀.KeepsAfter⦄) :
    ⦃fun s => ⌜s₀.Keeps s⌝⦄ xs.mapM f ⦃s₀.KeepsAfter⦄ := by
  induction xs with
  | nil => mvcgen [List.mapM_nil]
  | cons x xs ih =>
    have hx := step x
    rw [List.mapM_cons]
    mvcgen [hx, ih]

@[spec] theorem canonicalInputs_keeps (f : Func) (args : List Value) :
    ⦃fun s => ⌜s₀.Keeps s⌝⦄ canonicalInputs f args ⦃s₀.KeepsAfter⦄ := by
  mvcgen [canonicalInputs, mapM_keeps]

/-! ### Actions -/

/-- Every run of nested programs keeps the frame it starts from. -/
def RunnerKeeps (run : Runner) : Prop :=
  ∀ (t : Session) (p : Program) (subst : Array Value),
    ⦃fun s => ⌜t.Keeps s⌝⦄ run p subst ⦃t.KeepsAfter⦄

variable {run : Runner}

@[spec] theorem callFunctionWith_keeps (hrun : RunnerKeeps run) (name : String) (args : List Value) :
    ⦃fun s => ⌜s₀.Keeps s⌝⦄ callFunctionWith run name args ⦃s₀.KeepsAfter⦄ := by
  have nested := hrun s₀
  mvcgen [callFunctionWith, nested] <;> grind

@[spec] theorem performSetWith_keeps (hrun : RunnerKeeps run) (name : String) (args : List Value)
    (new : Value) :
    ⦃fun s => ⌜s₀.Keeps s⌝⦄ performSetWith run name args new ⦃s₀.KeepsAfter⦄ := by
  have nested := hrun s₀
  mvcgen [performSetWith, nested] <;> grind

@[spec] theorem performChangeWith_keeps (hrun : RunnerKeeps run) (c : Change) (name : String)
    (args : List Value) :
    ⦃fun s => ⌜s₀.Keeps s⌝⦄ performChangeWith run c name args ⦃s₀.KeepsAfter⦄ := by
  mvcgen [performChangeWith] <;> grind

@[spec] theorem applyPrimWith_keeps (hrun : RunnerKeeps run) (p : Prim) (args : List Value) :
    ⦃fun s => ⌜s₀.Keeps s⌝⦄ applyPrimWith run p args ⦃s₀.KeepsAfter⦄ := by
  mvcgen [applyPrimWith] <;> grind

@[spec] theorem stepWith_keeps (hrun : RunnerKeeps run) (subst stack : Array Value) (i : Instr) :
    ⦃fun s => ⌜s₀.Keeps s⌝⦄ stepWith run subst stack i ⦃s₀.KeepsAfter⦄ := by
  mvcgen [stepWith] <;> grind

theorem runWithin_keeps (fuel : Nat) : RunnerKeeps (runWithin fuel) := by
  induction fuel with
  | zero =>
    intro t p subst
    mvcgen [runWithin]
    simp
  | succ fuel ih =>
    intro t p subst
    mvcgen [runWithin]
    case inv1 => exact t.KeepsAfter
    all_goals grind

@[spec] theorem runProgram_keeps (prog : Program) (subst : Array Value) :
    ⦃fun s => ⌜s₀.Keeps s⌝⦄ runProgram prog subst ⦃s₀.KeepsAfter⦄ :=
  runWithin_keeps depthLimit s₀ prog subst

@[spec] theorem callFunction_keeps (name : String) (args : List Value) :
    ⦃fun s => ⌜s₀.Keeps s⌝⦄ callFunction name args ⦃s₀.KeepsAfter⦄ :=
  callFunctionWith_keeps s₀ (runWithin_keeps depthLimit) name args

@[spec] theorem performSet_keeps (name : String) (args : List Value) (new : Value) :
    ⦃fun s => ⌜s₀.Keeps s⌝⦄ performSet name args new ⦃s₀.KeepsAfter⦄ :=
  performSetWith_keeps s₀ (runWithin_keeps depthLimit) name args new

/-! ### Rebuilding -/

@[spec] theorem rebuildFuncAt_keeps (i : Nat) :
    ⦃fun s => ⌜s₀.Keeps s⌝⦄ rebuildFuncAt i ⦃s₀.KeepsAfter⦄ := by
  mvcgen [rebuildFuncAt]
  all_goals grind

@[spec] theorem applyMerges_keeps (name : String) (ds : List Deferred) :
    ⦃fun s => ⌜s₀.Keeps s⌝⦄ applyMerges name ds ⦃s₀.KeepsAfter⦄ := by
  mvcgen [applyMerges]
  case inv1 => exact s₀.KeepsAfter
  all_goals grind

@[spec] theorem rebuildRound_keeps :
    ⦃fun s => ⌜s₀.Keeps s⌝⦄ rebuildRound ⦃s₀.KeepsAfter⦄ := by
  mvcgen [rebuildRound]
  case inv1 => exact s₀.KeepsAfter
  case inv2 => exact s₀.KeepsAfter
  all_goals grind

/-- A rebuild that succeeds also leaves nothing staged: it stops only at a
round that starts without dirty ids. -/
theorem rebuildWithin_keeps (fuel updates : Nat) :
    ⦃fun s => ⌜s₀.Keeps s⌝⦄ rebuildWithin fuel updates
    ⦃post⟨fun _ s => ⌜s₀.Keeps s ∧ s.db.unionFind.staged = #[]⌝,
      fun e s => ⌜e.IsError → s₀.Keeps s⌝⟩⦄ := by
  induction fuel generalizing updates with
  | zero =>
    mvcgen [rebuildWithin]
    simp
  | succ fuel ih =>
    mvcgen [rebuildWithin, ih]
    all_goals grind [UnionFind.advanceRound]

/-- A rebuild with nothing staged starts a round without dirty ids and
stops: all it does is drop the dirty ids of the last round. -/
theorem rebuildWithin_clean (S : Session) (fuel updates : Nat) :
    ⦃fun s => ⌜s = S ∧ S.db.unionFind.staged = #[]⌝⦄ rebuildWithin (fuel + 1) updates
    ⦃post⟨fun n s => ⌜n = updates ∧ s = S.clearRound⌝, fun _ _ => ⌜False⌝⟩⦄ := by
  mvcgen [rebuildWithin]
  all_goals simp_all +zetaDelta [Session.clearRound, UnionFind.advanceRound, UnionFind.hasRecent]

/-- A rebuild keeps the frame and leaves nothing staged when it succeeds,
and it can only fail when something was staged. -/
@[spec] theorem rebuild_spec (S : Session) :
    ⦃fun s => ⌜s = S⌝⦄ rebuild
    ⦃post⟨fun n s => ⌜S.Keeps s ∧ s.db.unionFind.staged = #[] ∧
        (S.db.unionFind.staged = #[] → n = 0 ∧ s = S.clearRound)⌝,
      fun e s => ⌜e.IsError → S.Keeps s ∧ S.db.unionFind.staged ≠ #[]⌝⟩⦄ := by
  by_cases clean : S.db.unionFind.staged = #[]
  · mvcgen [rebuild, rebuildWithin_clean]
    all_goals simp_all [Session.clearRound, UnionFind.advanceRound, Session.keeps_iff]
  · mvcgen [rebuild, rebuildWithin_keeps]
    all_goals grind

/-! ### Queries and schedules -/

@[spec] theorem compileQuery_reads (body : List (Atom Call)) :
    ⦃fun s => ⌜s₀.Reads s⌝⦄ compileQuery body ⦃s₀.ReadsAfter⦄ := by
  mvcgen [compileQuery] <;> grind

@[spec] theorem matchesOf_reads (q : CompiledQuery) (lastRun : Nat) (includeSubsumed : Bool)
    (limit : Nat) :
    ⦃fun s => ⌜s₀.Reads s⌝⦄ matchesOf q lastRun includeSubsumed limit ⦃s₀.ReadsAfter⦄ := by
  mvcgen [matchesOf] <;> grind

@[spec] theorem checkFacts_reads (facts : List Fact) :
    ⦃fun s => ⌜s₀.Reads s⌝⦄ checkFacts facts ⦃s₀.ReadsAfter⦄ := by
  mvcgen [checkFacts] <;> grind

@[spec] theorem holds_keeps (facts : List Fact) :
    ⦃fun s => ⌜s₀.Keeps s⌝⦄ holds facts ⦃s₀.KeepsAfter⦄ := by
  mvcgen [holds] <;> grind

theorem searchRules_keeps (fuel : Nat) (name : String) (report : RunReport)
    (results : Array SearchResult) :
    ⦃fun s => ⌜s₀.Keeps s⌝⦄ searchRules fuel name report results ⦃s₀.KeepsAfter⦄ := by
  induction fuel generalizing s₀ name report results with
  | zero => mvcgen [searchRules]
  | succ fuel ih =>
    mvcgen [searchRules, ih]
    case inv1 => exact s₀.KeepsAfter
    case inv2 => exact s₀.KeepsAfter
    all_goals grind

@[spec] theorem applyRules_keeps (report : RunReport) (results : Array SearchResult) :
    ⦃fun s => ⌜s₀.Keeps s⌝⦄ applyRules report results ⦃s₀.KeepsAfter⦄ := by
  mvcgen [applyRules]
  case inv1 | inv2 | inv3 => exact s₀.KeepsAfter
  all_goals grind

@[spec] theorem stepRules_keeps (ruleset : String) :
    ⦃fun s => ⌜s₀.Keeps s⌝⦄ stepRules ruleset ⦃s₀.KeepsAfter⦄ := by
  mvcgen [stepRules, searchRules_keeps] <;> grind

@[spec] theorem runRules_keeps (config : RunConfig) :
    ⦃fun s => ⌜s₀.Keeps s⌝⦄ runRules config ⦃s₀.KeepsAfter⦄ := by
  mvcgen [runRules] <;> grind

/-- A schedule's body that keeps the frame it starts from. -/
def BodyKeeps (body : Engine RunReport) : Prop :=
  ∀ t : Session, ⦃fun s => ⌜t.Keeps s⌝⦄ body ⦃t.KeepsAfter⦄

theorem repeatRuns_keeps {body : Engine RunReport} (hbody : BodyKeeps body) (n : Nat)
    (report : RunReport) :
    ⦃fun s => ⌜s₀.Keeps s⌝⦄ repeatRuns body n report ⦃s₀.KeepsAfter⦄ := by
  induction n generalizing s₀ report with
  | zero => mvcgen [repeatRuns]
  | succ n ih =>
    have once := hbody s₀
    mvcgen [repeatRuns, once, ih]

theorem saturateRuns_keeps {body : Engine RunReport} (hbody : BodyKeeps body) (limit fuel rounds : Nat)
    (report : RunReport) :
    ⦃fun s => ⌜s₀.Keeps s⌝⦄ saturateRuns body limit fuel rounds report ⦃s₀.KeepsAfter⦄ := by
  induction fuel generalizing s₀ rounds report with
  | zero => mvcgen [saturateRuns]
  | succ fuel ih =>
    have once := hbody s₀
    mvcgen [saturateRuns, once, ih]

theorem seqRuns_keeps {bodies : List (Engine RunReport)} (hbodies : ∀ b ∈ bodies, BodyKeeps b)
    (report : RunReport) :
    ⦃fun s => ⌜s₀.Keeps s⌝⦄ seqRuns bodies report ⦃s₀.KeepsAfter⦄ := by
  induction bodies generalizing s₀ report with
  | nil => mvcgen [seqRuns]
  | cons body rest ih =>
    have once := hbodies body (by simp) s₀
    have later := ih s₀ (fun b mem => hbodies b (List.mem_cons_of_mem body mem))
    mvcgen [seqRuns, once, later]

theorem runSchedule_keeps : (sch : Schedule) → BodyKeeps (runSchedule sch)
  | .run config => fun t => by mvcgen [runSchedule]
  | .repeat n sch => fun t => by
    have runs := repeatRuns_keeps t (runSchedule_keeps sch)
    mvcgen [runSchedule, runs]
  | .saturate sch => fun t => by
    have runs := saturateRuns_keeps t (runSchedule_keeps sch)
    mvcgen [runSchedule, runs]
  | .seq ss => fun t => by
    rw [runSchedule]
    refine seqRuns_keeps t (fun b hb => ?_) _
    -- each body of the sequence runs one of its schedules
    obtain ⟨⟨sch, mem⟩, _, rfl⟩ := List.mem_map.mp hb
    exact runSchedule_keeps sch

@[spec] theorem runSchedule_spec (sch : Schedule) :
    ⦃fun s => ⌜s₀.Keeps s⌝⦄ runSchedule sch ⦃s₀.KeepsAfter⦄ :=
  runSchedule_keeps sch s₀

/-! ### Commands -/

@[spec] theorem declareSort_keeps (name : String) (presort : Option (String × List Expr)) :
    ⦃fun s => ⌜s₀.Keeps s⌝⦄ declareSort name presort ⦃s₀.KeepsAfter⦄ := by
  mvcgen [declareSort]
  all_goals grind [Pool.newTable_grows]

@[spec] theorem declareFunction_fails_early (decl : FunctionDecl) :
    ⦃fun s => ⌜s = s₀⌝⦄ declareFunction decl ⦃s₀.FailsEarly⦄ := by
  mvcgen [declareFunction] <;> grind

@[spec] theorem declareDatatype_keeps (name : String) (variants : List Variant) :
    ⦃fun s => ⌜s₀.Keeps s⌝⦄ declareDatatype name variants ⦃s₀.KeepsAfter⦄ := by
  mvcgen [declareDatatype]
  case inv1 => exact s₀.KeepsAfter
  all_goals grind

@[spec] theorem addRuleset_fails_early (name : String) :
    ⦃fun s => ⌜s = s₀⌝⦄ addRuleset name ⦃s₀.FailsEarly⦄ := by
  mvcgen [addRuleset] <;> grind

@[spec] theorem addCombinedRuleset_fails_early (name : String) (members : List String) :
    ⦃fun s => ⌜s = s₀⌝⦄ addCombinedRuleset name members ⦃s₀.FailsEarly⦄ := by
  mvcgen [addCombinedRuleset] <;> grind

@[spec] theorem addRule_keeps (name : String) (r : Rule) (ruleset : String) :
    ⦃fun s => ⌜s₀.Keeps s⌝⦄ addRule name r ruleset ⦃s₀.KeepsAfter⦄ := by
  mvcgen [addRule] <;> grind

@[spec] theorem evalExpr_keeps (e : Expr) :
    ⦃fun s => ⌜s₀.Keeps s⌝⦄ evalExpr e ⦃s₀.KeepsAfter⦄ := by
  mvcgen [evalExpr] <;> grind

@[spec] theorem evalActions_keeps (as : List Action) :
    ⦃fun s => ⌜s₀.Keeps s⌝⦄ evalActions as ⦃s₀.KeepsAfter⦄ := by
  mvcgen [evalActions] <;> grind

@[spec] theorem declareGlobal_keeps (name : String) (e : Expr) :
    ⦃fun s => ⌜s₀.Keeps s⌝⦄ declareGlobal name e ⦃s₀.KeepsAfter⦄ := by
  mvcgen [declareGlobal] <;> grind

@[spec] theorem setOption_fails_early (name : String) (value : Expr) :
    ⦃fun s => ⌜s = s₀⌝⦄ setOption name value ⦃s₀.FailsEarly⦄ := by
  mvcgen [setOption] <;> grind

@[spec] theorem functionToDag_reads (name : String) (n : Nat) :
    ⦃fun s => ⌜s₀.Reads s⌝⦄ functionToDag name n ⦃s₀.ReadsAfter⦄ := by
  mvcgen [functionToDag]
  case inv1 | inv2 => exact s₀.ReadsAfter
  all_goals grind

@[spec] theorem printFunction_reads (name : String) (n : Nat) :
    ⦃fun s => ⌜s₀.Reads s⌝⦄ printFunction name n ⦃s₀.ReadsAfter⦄ := by
  mvcgen [printFunction] <;> grind

@[spec] theorem printSize_reads (name : Option String) :
    ⦃fun s => ⌜s₀.Reads s⌝⦄ printSize name ⦃s₀.ReadsAfter⦄ := by
  mvcgen [printSize] <;> grind

@[spec] theorem extract_keeps (sort : SortInfo) (v : Value) :
    ⦃fun s => ⌜s₀.Keeps s⌝⦄ extract sort v ⦃s₀.KeepsAfter⦄ := by
  mvcgen [extract] <;> grind

@[spec] theorem extractExpr_keeps (e : Expr) (variants : Nat) :
    ⦃fun s => ⌜s₀.Keeps s⌝⦄ extractExpr e variants ⦃s₀.KeepsAfter⦄ := by
  mvcgen [extractExpr] <;> grind

end Engine

end Saturate
