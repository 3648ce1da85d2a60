import Mathlib
import Saturate.Proofs.Session.Frame
import Saturate.Proofs.Table.Rebuild

/-!
# What actions and rebuilds write

Running actions and rebuilding change the database in two ways only: one
function's table moves by steps at the database's time, or the union-find
changes (`Database.Write`). Nothing else of the database moves: not its
clock, its functions' signatures, its rulesets or the last run times of its
rules. `Session.Acts s t` says that `t` came from `s` by such writes and
kept the frame of `s` (`Session.Keeps`).

The table writes are three, each at the database's time: `Func.put`,
`Func.remove` and `Func.subsume` (`Func.TableChange`). A rebuild of one
function writes its table by steps at that time too (`Func.rebuild_reaches`).

Every computation of the action machine and of a rebuild acts so, on
success and on an error. The statements are `Std.Do` triples, tagged
`@[spec]` above the frame triples they refine, so that each is proved by
`mvcgen` from those of the functions it calls.
-/

open Std.Do

set_option mvcgen.warning false

namespace Saturate

/-! ### Writes -/

/-- A change of a function that rewrites only its table, by steps at `ts`. -/
structure Func.TableChange (ts : Nat) (φ : Func → Func) : Prop where
  frame : ∀ f : Func, { φ f with table := f.table } = f
  moves : ∀ f : Func, f.table.Reaches ts (φ f).table

namespace Func

theorem tableChange_put (args : List Value) (v : Value) (ts : Nat) :
    TableChange ts (·.put args v ts) :=
  ⟨fun _ => rfl, fun f => .single (.put f.table args v false)⟩

theorem tableChange_remove (args : List Value) (ts : Nat) : TableChange ts (·.remove args ts) := by
  constructor
  · intro f
    rfl
  · intro f
    have removed : f.table.Reaches ts (f.table.remove args ts).1 := .single (.remove f.table args)
    simp only [Func.remove]
    split
    · exact removed.rehash
    · exact removed

theorem tableChange_subsume (args : List Value) (ts : Nat) :
    TableChange ts (·.subsume args ts) := by
  constructor
  · intro f
    rfl
  · intro f
    simp only [Func.subsume, Table.subsume]
    split
    · split
      · exact .refl
      · exact .single (.put f.table args _ true)
    · exact .refl

end Func

/-- One write to a database: one function's table moves by steps at the
database's time, or the union-find changes. -/
inductive Database.Write : Database → Database → Prop
  | table (d : Database) (i : Nat) (φ : Func → Func)
      (frame : ∀ f : Func, { φ f with table := f.table } = f)
      (moves : ∀ f : Func, d.funcs[i]? = some f → f.table.Reaches d.timestamp (φ f).table) :
      Write d { d with funcs := d.funcs.modify i φ }
  | unionFind (d : Database) (uf : UnionFind) : Write d { d with unionFind := uf }

/-- Writes to a database, one after another. -/
abbrev Database.Writes : Database → Database → Prop := Relation.ReflTransGen Database.Write

theorem Database.writes_modifyFunc (d : Database) (name : String) {φ : Func → Func}
    (h : Func.TableChange d.timestamp φ) : d.Writes (d.modifyFunc name φ) := by
  unfold Database.modifyFunc
  split
  · exact .single (.table d _ φ h.frame fun f _ => h.moves f)
  · exact .refl

/-- `t` came from `s` by writes to the database and kept the frame of `s`. -/
structure Session.Acts (s t : Session) : Prop where
  keeps : s.Keeps t
  writes : s.db.Writes t.db

namespace Session.Acts

variable {s₀ s t : Session}

@[grind .] theorem refl (s : Session) : s.Acts s := ⟨.refl s, .refl⟩

@[grind →] theorem trans {u : Session} (hst : s.Acts t) (htu : t.Acts u) : s.Acts u :=
  ⟨hst.keeps.trans htu.keeps, hst.writes.trans htu.writes⟩

theorem of_reads (h : s.Reads t) : s.Acts t := ⟨h.keeps, h.db ▸ .refl⟩

attribute [grind →] keeps of_reads

@[grind →] theorem setPool (h : s₀.Acts s) {q : Pool} (grows : s.pool.Grows q) :
    s₀.Acts { s with pool := q } :=
  ⟨h.keeps.trans ⟨rfl, grows⟩, h.writes⟩

@[grind! .] theorem setUnionFind (s : Session) (uf : UnionFind) :
    s.Acts { s with db := { s.db with unionFind := uf } } :=
  ⟨⟨rfl, .refl _⟩, .single (.unionFind s.db uf)⟩

theorem modifyFunc (h : s₀.Acts s) (name : String) {φ : Func → Func}
    (hφ : Func.TableChange s.db.timestamp φ) :
    s₀.Acts { s with db := s.db.modifyFunc name φ } :=
  ⟨⟨h.keeps.scopes, h.keeps.pool⟩, h.writes.trans (s.db.writes_modifyFunc name hφ)⟩

/-- Putting back a function's table rebuilt from the one taken out, with the
union-find the rebuild left. -/
theorem rebuiltAt (h : s₀.Acts s) {i : Nat} {f : Func} (found : s.db.funcs[i]? = some f)
    {t : Table} (reach : f.table.Reaches s.db.timestamp t) {q : Pool} (grows : s.pool.Grows q)
    (uf : UnionFind) :
    s₀.Acts { s with
      pool := q
      db := { s.db with
        funcs := s.db.funcs.modify i fun g => { g with table := t }
        unionFind := uf } } := by
  have table : s.db.Write { s.db with funcs := s.db.funcs.modify i fun g => { g with table := t } } :=
    .table s.db i _ (fun _ => rfl) fun g same => by
      rw [found, Option.some.injEq] at same
      exact same ▸ reach
  exact ⟨h.keeps.trans ⟨rfl, grows⟩, (h.writes.tail table).tail (.unionFind _ uf)⟩

end Session.Acts

/-- Success and every error leave a session acted on from `s₀`. -/
abbrev Session.ActsAfter {α : Type} (s₀ : Session) :
    PostCond α (.except Failure (.arg Session .pure)) :=
  post⟨fun _ s => ⌜s₀.Acts s⌝, fun e s => ⌜e.IsError → s₀.Acts s⌝⟩

namespace Engine

variable (s₀ : Session)

/-! ### The session's primitives -/

attribute [grind →] PoolM.run_grows

/-- A table write at the database's time acts. -/
theorem modifyFunc_acts (name : String) {φ : Func → Func} {ts : Nat} (hφ : Func.TableChange ts φ) :
    ⦃fun s => ⌜s₀.Acts s ∧ s.db.timestamp = ts⌝⦄ modifyFunc name φ ⦃⇓ _ s => ⌜s₀.Acts s⌝⦄ := by
  mvcgen [modifyFunc, modifyDb]
  rename_i s pre _
  obtain ⟨acts, rfl⟩ := pre
  exact acts.modifyFunc name hφ

@[spec 1100] theorem modifyFunc_put_acts (name : String) (args : List Value) (v : Value) (ts : Nat) :
    ⦃fun s => ⌜s₀.Acts s ∧ s.db.timestamp = ts⌝⦄ modifyFunc name (·.put args v ts)
    ⦃⇓ _ s => ⌜s₀.Acts s⌝⦄ :=
  modifyFunc_acts s₀ name (Func.tableChange_put args v ts)

@[spec 1100] theorem modifyFunc_remove_acts (name : String) (args : List Value) (ts : Nat) :
    ⦃fun s => ⌜s₀.Acts s ∧ s.db.timestamp = ts⌝⦄ modifyFunc name (·.remove args ts)
    ⦃⇓ _ s => ⌜s₀.Acts s⌝⦄ :=
  modifyFunc_acts s₀ name (Func.tableChange_remove args ts)

@[spec 1100] theorem modifyFunc_subsume_acts (name : String) (args : List Value) (ts : Nat) :
    ⦃fun s => ⌜s₀.Acts s ∧ s.db.timestamp = ts⌝⦄ modifyFunc name (·.subsume args ts)
    ⦃⇓ _ s => ⌜s₀.Acts s⌝⦄ :=
  modifyFunc_acts s₀ name (Func.tableChange_subsume args ts)

@[spec 1100] theorem canonical_acts (sort : SortInfo) (v : Value) :
    ⦃fun s => ⌜s₀.Acts s⌝⦄ canonical sort v ⦃s₀.ActsAfter⦄ := by
  mvcgen [-canonical_keeps, canonical] <;> grind

@[spec 1100] theorem find_acts (v : Value) :
    ⦃fun s => ⌜s₀.Acts s⌝⦄ find v ⦃s₀.ActsAfter⦄ := by
  mvcgen [-find_keeps, find]

@[spec 1100] theorem withUnionFind_acts {α : Type} (f : UnionFind → Except Failure (UnionFind × α)) :
    ⦃fun s => ⌜s₀.Acts s⌝⦄ withUnionFind f ⦃s₀.ActsAfter⦄ := by
  mvcgen [-withUnionFind_keeps, withUnionFind] <;> grind

@[spec 1100] theorem unionValues_acts (a b : Value) (sort : String) :
    ⦃fun s => ⌜s₀.Acts s⌝⦄ unionValues a b sort ⦃s₀.ActsAfter⦄ := by
  mvcgen [-unionValues_keeps, unionValues]

@[spec 1100] theorem makeClass_acts (sort : String) :
    ⦃fun s => ⌜s₀.Acts s⌝⦄ makeClass sort ⦃s₀.ActsAfter⦄ := by
  mvcgen [-makeClass_keeps, makeClass]

/-! ### Actions -/

theorem mapM_acts {α β : Type} (f : α → Engine β) (xs : List α)
    (step : ∀ x, ⦃fun s => ⌜s₀.Acts s⌝⦄ f x ⦃s₀.ActsAfter⦄) :
    ⦃fun s => ⌜s₀.Acts s⌝⦄ xs.mapM f ⦃s₀.ActsAfter⦄ := by
  induction xs with
  | nil => mvcgen [List.mapM_nil]
  | cons x xs ih =>
    have hx := step x
    rw [List.mapM_cons]
    mvcgen [hx, ih]

@[spec 1100] theorem canonicalInputs_acts (f : Func) (args : List Value) :
    ⦃fun s => ⌜s₀.Acts s⌝⦄ canonicalInputs f args ⦃s₀.ActsAfter⦄ := by
  mvcgen [-canonicalInputs_keeps, canonicalInputs, mapM_acts]

/-- Every run of nested programs acts on the session it starts from. -/
def RunnerActs (run : Runner) : Prop :=
  ∀ (t : Session) (p : Program) (subst : Array Value),
    ⦃fun s => ⌜t.Acts s⌝⦄ run p subst ⦃t.ActsAfter⦄

variable {run : Runner}

@[spec 1100] theorem callFunctionWith_acts (hrun : RunnerActs run) (name : String)
    (args : List Value) :
    ⦃fun s => ⌜s₀.Acts s⌝⦄ callFunctionWith run name args ⦃s₀.ActsAfter⦄ := by
  have nested := hrun s₀
  mvcgen [-callFunctionWith_keeps, -Engine.modifyFunc, callFunctionWith, nested] <;> grind

@[spec 1100] theorem performSetWith_acts (hrun : RunnerActs run) (name : String)
    (args : List Value) (new : Value) :
    ⦃fun s => ⌜s₀.Acts s⌝⦄ performSetWith run name args new ⦃s₀.ActsAfter⦄ := by
  have nested := hrun s₀
  mvcgen [-performSetWith_keeps, -Engine.modifyFunc, performSetWith, nested] <;> grind

@[spec 1100] theorem performChangeWith_acts (hrun : RunnerActs run) (c : Change) (name : String)
    (args : List Value) :
    ⦃fun s => ⌜s₀.Acts s⌝⦄ performChangeWith run c name args ⦃s₀.ActsAfter⦄ := by
  mvcgen [-performChangeWith_keeps, -Engine.modifyFunc, performChangeWith] <;> grind

@[spec 1100] theorem applyPrimWith_acts (hrun : RunnerActs run) (p : Prim) (args : List Value) :
    ⦃fun s => ⌜s₀.Acts s⌝⦄ applyPrimWith run p args ⦃s₀.ActsAfter⦄ := by
  mvcgen [-applyPrimWith_keeps, applyPrimWith] <;> grind

@[spec 1100] theorem stepWith_acts (hrun : RunnerActs run) (subst stack : Array Value) (i : Instr) :
    ⦃fun s => ⌜s₀.Acts s⌝⦄ stepWith run subst stack i ⦃s₀.ActsAfter⦄ := by
  mvcgen [-stepWith_keeps, stepWith] <;> grind

theorem runWithin_acts (fuel : Nat) : RunnerActs (runWithin fuel) := by
  induction fuel with
  | zero =>
    intro t p subst
    mvcgen [runWithin]
    simp
  | succ fuel ih =>
    intro t p subst
    mvcgen [runWithin]
    case inv1 => exact t.ActsAfter
    all_goals grind

@[spec 1100] theorem runProgram_acts (prog : Program) (subst : Array Value) :
    ⦃fun s => ⌜s₀.Acts s⌝⦄ runProgram prog subst ⦃s₀.ActsAfter⦄ :=
  runWithin_acts depthLimit s₀ prog subst

@[spec 1100] theorem callFunction_acts (name : String) (args : List Value) :
    ⦃fun s => ⌜s₀.Acts s⌝⦄ callFunction name args ⦃s₀.ActsAfter⦄ :=
  callFunctionWith_acts s₀ (runWithin_acts depthLimit) name args

@[spec 1100] theorem performSet_acts (name : String) (args : List Value) (new : Value) :
    ⦃fun s => ⌜s₀.Acts s⌝⦄ performSet name args new ⦃s₀.ActsAfter⦄ :=
  performSetWith_acts s₀ (runWithin_acts depthLimit) name args new

/-! ### Rebuilding -/

/-- What a triple over the engine needs: the outcome of every run from a
state that meets its precondition. -/
theorem triple_of_run {α : Type} {m : Engine α} {P : Session → Prop}
    {Q : α → Session → Prop} {E : Failure → Session → Prop}
    (h : ∀ S, P S → match m.run.run S with
      | (.ok a, T) => Q a T
      | (.error e, T) => E e T) :
    ⦃fun s => ⌜P s⌝⦄ m ⦃post⟨fun a s => ⌜Q a s⌝, fun e s => ⌜E e s⌝⟩⦄ := by
  intro S hS
  have outcome := h S hS
  simp only [wp, PredTrans.apply_pushExcept, PredTrans.apply_pushArg, ExceptT.run, StateT.run,
    Id.run] at outcome ⊢
  revert outcome
  rcases m S with ⟨_ | _, T⟩ <;> exact id

private theorem modifyGet_run {β : Type} (f : Session → β × Session) (S : Session) :
    (StateT.modifyGet f : StateT Session Id β).run S = pure (f S) := rfl

/-- A position without a function rebuilds nothing. -/
theorem rebuildFuncAt_run_none (S : Session) (i : Nat) (found : S.db.funcs[i]? = none) :
    (rebuildFuncAt i).run.run S = (.ok (0, []), S) := by
  simp [rebuildFuncAt, found, modifyGet, MonadStateOf.modifyGet, monadLift, MonadLift.monadLift,
    ExceptT.lift, modifyGet_run]
  rfl

/-- The rebuild of the function at `i` puts back the table and the union-find
its run left, whether it succeeds or stops at an error. -/
theorem rebuildFuncAt_run_some (S : Session) (i : Nat) {f : Func} (found : S.db.funcs[i]? = some f)
    {r : Except Failure (Nat × List Deferred)} {st : RebuildState} {q : Pool}
    (run : ((({ f with table := .empty }.rebuild S.db.timestamp).run).run
      ⟨f.table, S.db.unionFind⟩).run S.pool = .ok ((r, st), q)) :
    (rebuildFuncAt i).run.run S = (r, { S with
      pool := q
      db := { S.db with
        funcs := S.db.funcs.modify i fun g => { g with table := st.table }
        unionFind := st.uf } }) := by
  -- the table is taken out and put back at the same position
  have twice : (S.db.funcs.modify i fun g => { g with table := .empty }).modify i
      (fun g => { g with table := st.table }) = S.db.funcs.modify i fun g => { g with table := st.table } := by
    apply Array.ext'
    simp [List.modify_modify_eq, Function.comp_def]
  rcases r with e | v <;>
    simp [rebuildFuncAt, found, modifyGet, MonadStateOf.modifyGet, monadLift, MonadLift.monadLift,
      ExceptT.lift, modifyGet_run, Engine.pool, run, modify, twice] <;> rfl

/-- A fault of the pool during the rebuild of a function ends the session. -/
theorem rebuildFuncAt_run_fault (S : Session) (i : Nat) {f : Func} (found : S.db.funcs[i]? = some f)
    {msg : String}
    (run : ((({ f with table := .empty }.rebuild S.db.timestamp).run).run
      ⟨f.table, S.db.unionFind⟩).run S.pool = .error msg) :
    ((rebuildFuncAt i).run.run S).1 = .error (.fault msg) := by
  simp [rebuildFuncAt, found, modifyGet, MonadStateOf.modifyGet, monadLift, MonadLift.monadLift,
    ExceptT.lift, modifyGet_run, Engine.pool, run]
  rfl

@[spec 1100] theorem rebuildFuncAt_acts (i : Nat) :
    ⦃fun s => ⌜s₀.Acts s⌝⦄ rebuildFuncAt i ⦃s₀.ActsAfter⦄ := by
  apply triple_of_run
  intro S acts
  rcases found : S.db.funcs[i]? with _ | f
  · rw [rebuildFuncAt_run_none S i found]
    exact acts
  · rcases run : ((({ f with table := .empty }.rebuild S.db.timestamp).run).run
        ⟨f.table, S.db.unionFind⟩).run S.pool with msg | ⟨⟨r, st⟩, q⟩
    · have fault := rebuildFuncAt_run_fault S i found run
      revert fault
      rcases (rebuildFuncAt i).run.run S with ⟨_ | _, T⟩ <;> simp +contextual
    · rw [rebuildFuncAt_run_some S i found run]
      have restored := acts.rebuiltAt found (Func.rebuild_run_reaches run) (PoolM.run_grows run) st.uf
      cases r
      · exact fun _ => restored
      · exact restored

@[spec 1100] theorem applyMerges_acts (name : String) (ds : List Deferred) :
    ⦃fun s => ⌜s₀.Acts s⌝⦄ applyMerges name ds ⦃s₀.ActsAfter⦄ := by
  mvcgen [-applyMerges_keeps, -Engine.modifyFunc, applyMerges]
  case inv1 => exact s₀.ActsAfter
  all_goals grind

@[spec 1100] theorem rebuildRound_acts :
    ⦃fun s => ⌜s₀.Acts s⌝⦄ rebuildRound ⦃s₀.ActsAfter⦄ := by
  mvcgen [-rebuildRound_keeps, rebuildRound]
  case inv1 => exact s₀.ActsAfter
  case inv2 => exact s₀.ActsAfter
  all_goals grind

theorem rebuildWithin_acts (fuel updates : Nat) :
    ⦃fun s => ⌜s₀.Acts s⌝⦄ rebuildWithin fuel updates ⦃s₀.ActsAfter⦄ := by
  induction fuel generalizing updates with
  | zero =>
    mvcgen [rebuildWithin]
    simp
  | succ fuel ih =>
    mvcgen [rebuildWithin, ih]
    all_goals grind

@[spec 1100] theorem rebuild_acts :
    ⦃fun s => ⌜s₀.Acts s⌝⦄ rebuild ⦃s₀.ActsAfter⦄ := by
  mvcgen [-rebuild_spec, rebuild, rebuildWithin_acts]

/-! ### Evaluating outside rules -/

@[spec 1100] theorem evalExpr_acts (e : Expr) :
    ⦃fun s => ⌜s₀.Acts s⌝⦄ evalExpr e ⦃s₀.ActsAfter⦄ := by
  mvcgen [-evalExpr_keeps, evalExpr] <;> grind

@[spec 1100] theorem evalActions_acts (as : List Action) :
    ⦃fun s => ⌜s₀.Acts s⌝⦄ evalActions as ⦃s₀.ActsAfter⦄ := by
  mvcgen [-evalActions_keeps, evalActions] <;> grind

end Engine

end Saturate
