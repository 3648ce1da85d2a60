import Mathlib
import Saturate.Proofs.Session.Moves
import Saturate.Proofs.Session.Rollback

/-!
# Every served session keeps the clock's discipline

A client drives a session from a fresh one by commands and by the calls of
its interface (`Session.Served`); a call that ends in a fault ends the
session. Every session served this way is reached (`Session.Reached`) with
some record of the searches its rules' last-run times stand for, and so it
keeps the clock's discipline (`Database.Timely`).

Each computation of a command or a call goes from a reachable session to a
reachable one, on success and on every error (`Session.Reachable`). A
command that fails is rolled back (`Engine.runCommand_rolls_back`), and the
session it returns to is reachable with the record of the one it started
from, whatever the failed command searched.

* `Session.Served.clock_describes_the_past` — the main statement.
-/

open Std.Do

set_option mvcgen.warning false

namespace Saturate

/-- A session reached with some record of searches, whose saved databases have
nothing staged. -/
structure Session.Reachable (s : Session) : Prop where
  reached : ∃ g gs, s.Reached g gs
  clean : s.ScopesClean

namespace Session.Reachable

variable {s t : Session}

theorem initial : Session.initial.Reachable := ⟨⟨_, _, .initial⟩, Session.initial_scopesClean⟩

@[grind →] theorem moves (h : s.Reachable) (m : s.Moves t) : t.Reachable := by
  obtain ⟨⟨g, gs, reached⟩, clean⟩ := h
  exact ⟨⟨g, gs, reached.moves m⟩, fun d mem => clean d (m.keeps.scopes ▸ mem)⟩

@[grind →] theorem acts (h : s.Reachable) (a : s.Acts t) : t.Reachable :=
  h.moves ⟨a.keeps, .of_writes a.writes⟩

@[grind →] theorem reads (h : s.Reachable) (r : s.Reads t) : t.Reachable :=
  h.acts (.of_reads r)

@[grind →] theorem setPool (h : s.Reachable) {q : Pool} (grows : s.pool.Grows q) :
    { s with pool := q }.Reachable :=
  h.moves ⟨⟨rfl, grows⟩, .refl⟩

@[grind! .] theorem setMessages (h : s.Reachable) (m : Array String) :
    { s with messages := m }.Reachable :=
  h.moves ⟨⟨rfl, .refl _⟩, .refl⟩

@[grind! .] theorem setReports (h : s.Reachable) (r : Option RunReport) (o : RunReport) :
    { s with overall := o, lastReport := r }.Reachable :=
  h.moves ⟨⟨rfl, .refl _⟩, .refl⟩

@[grind →] theorem tick (h : s.Reachable) :
    { s with db := { s.db with timestamp := s.db.timestamp + 1 } }.Reachable :=
  h.moves ⟨⟨rfl, .refl _⟩, .tick s.db⟩

/-- A search round that the pool lets finish reaches a reachable session. -/
theorem search (h : s.Reachable) {ruleset : String} {r : Except Failure RunReport}
    (run : (Engine.stepRules ruleset).run.run s = (r, t)) (alive : ∀ e, r = .error e → e.IsError) :
    t.Reachable := by
  obtain ⟨⟨g, gs, reached⟩, clean⟩ := h
  have applies := Engine.stepRules_run_applies run alive
  exact ⟨⟨_, gs, reached.search ruleset run alive⟩, fun d mem => clean d (applies.keeps.scopes ▸ mem)⟩

/-- Saving a database with nothing staged `n` times. -/
@[grind! .] theorem push (h : s.Reachable) (staged : s.db.unionFind.staged = #[]) (n : Nat) :
    { s with scopes := List.replicate n s.db ++ s.scopes }.Reachable := by
  obtain ⟨⟨g, gs, reached⟩, clean⟩ := h
  refine ⟨?_, ?_⟩
  · -- each save pushes the database and its record once more
    induction n with
    | zero => exact ⟨g, gs, reached⟩
    | succ n ih =>
      obtain ⟨g', gs', more⟩ := ih
      exact ⟨g', g' :: gs', more.push⟩
  · intro d mem
    rcases List.mem_append.mp mem with saved | old
    · rw [List.eq_of_mem_replicate saved]
      exact staged
    · exact clean d old

/-- Returning to the database saved `n`-th last. -/
@[grind →] theorem pop (h : s.Reachable) {n : Nat} (pos : n ≠ 0) {d : Database}
    (top : (s.scopes.drop (n - 1)).head? = some d) :
    { s with db := d, scopes := s.scopes.drop n }.Reachable := by
  obtain ⟨⟨g, gs, reached⟩, clean⟩ := h
  -- the saved database has a record at the same depth
  have lengths := reached.timely.2.length_eq
  obtain ⟨k, rfl⟩ : ∃ k, n = k + 1 := ⟨n - 1, by omega⟩
  rw [Nat.add_sub_cancel, List.head?_drop] at top
  obtain ⟨within, _⟩ := List.getElem?_eq_some_iff.mp top
  obtain ⟨record, ghost⟩ : ∃ record, (gs.drop k).head? = some record :=
    ⟨gs[k], by rw [List.head?_drop, List.getElem?_eq_getElem (by omega)]⟩
  rw [← List.head?_drop] at top
  exact ⟨⟨record, _, reached.pop k top ghost⟩, fun d mem => clean d (List.mem_of_mem_drop mem)⟩

/-- A rolled-back command returns to a reachable session. -/
theorem rolledBack {S : Session} (h : S.Reachable) (back : S.RolledBack t) : t.Reachable :=
  h.moves ⟨⟨back.scopes, back.pool⟩, by rw [back.db]; exact .single (.write (.unionFind _ _))⟩

end Session.Reachable

/-- Success and every error leave a reachable session. -/
abbrev Session.ReachableAfter {α : Type} : PostCond α (.except Failure (.arg Session .pure)) :=
  post⟨fun _ s => ⌜s.Reachable⌝, fun e s => ⌜e.IsError → s.Reachable⌝⟩

namespace Engine

/-- The outcome of a run from a reachable session that ends in no fault is reachable. -/
theorem reachable_of_run {α : Type} {m : Engine α}
    (h : ⦃fun s => ⌜s.Reachable⌝⦄ m ⦃Session.ReachableAfter⦄) {S T : Session} (reach : S.Reachable)
    {r : Except Failure α} (run : m.run.run S = (r, T)) (alive : ∀ e, r = .error e → e.IsError) :
    T.Reachable := by
  have outcome := run_of_triple h reach
  rw [run] at outcome
  cases r with
  | ok => exact outcome
  | error e => exact outcome (alive e rfl)

/-! ### Rebuilds and search rounds -/

/-- A rebuild reaches a reachable session, with nothing staged when it succeeds. -/
theorem rebuild_reachable :
    ⦃fun s => ⌜s.Reachable⌝⦄ rebuild
    ⦃post⟨fun _ s => ⌜s.Reachable ∧ s.db.unionFind.staged = #[]⌝,
      fun e s => ⌜e.IsError → s.Reachable⌝⟩⦄ := by
  apply triple_of_run
  intro S reach
  have acts := run_of_triple (rebuild_acts S) (Session.Acts.refl S)
  have clean := run_of_triple (rebuild_spec S) rfl
  revert acts clean
  rcases rebuild.run.run S with ⟨_ | _, T⟩
  · exact fun acts _ isError => reach.acts (acts isError)
  · exact fun acts clean => ⟨reach.acts acts, clean.2.1⟩

theorem stepRules_reachable (ruleset : String) :
    ⦃fun s => ⌜s.Reachable⌝⦄ stepRules ruleset ⦃Session.ReachableAfter⦄ := by
  apply triple_of_run
  intro S reach
  rcases run : (stepRules ruleset).run.run S with ⟨_ | e, T⟩
  · exact fun isError => reach.search run fun _ same => by cases same; exact isError
  · exact reach.search run fun _ same => by cases same

theorem runRules_reachable (config : RunConfig) :
    ⦃fun s => ⌜s.Reachable⌝⦄ runRules config ⦃Session.ReachableAfter⦄ := by
  mvcgen [-runRules_keeps, -stepRules_keeps, -rebuild_spec, -rebuild_acts, runRules,
    rebuild_reachable, stepRules_reachable] <;> grind

/-! ### Schedules -/

section Schedules

variable {body : Engine RunReport}
  (hbody : ⦃fun s => ⌜s.Reachable⌝⦄ body ⦃Session.ReachableAfter⦄)
include hbody

theorem repeatRuns_reachable (n : Nat) (report : RunReport) :
    ⦃fun s => ⌜s.Reachable⌝⦄ repeatRuns body n report ⦃Session.ReachableAfter⦄ := by
  induction n generalizing report with
  | zero => mvcgen [repeatRuns]
  | succ n ih => mvcgen [repeatRuns, hbody, ih]

theorem saturateRuns_reachable (limit fuel rounds : Nat) (report : RunReport) :
    ⦃fun s => ⌜s.Reachable⌝⦄ saturateRuns body limit fuel rounds report ⦃Session.ReachableAfter⦄ := by
  induction fuel generalizing rounds report with
  | zero => mvcgen [saturateRuns]
  | succ fuel ih => mvcgen [saturateRuns, hbody, ih]

end Schedules

theorem seqRuns_reachable {bodies : List (Engine RunReport)}
    (hbodies : ∀ b ∈ bodies, ⦃fun s => ⌜s.Reachable⌝⦄ b ⦃Session.ReachableAfter⦄)
    (report : RunReport) :
    ⦃fun s => ⌜s.Reachable⌝⦄ seqRuns bodies report ⦃Session.ReachableAfter⦄ := by
  induction bodies generalizing report with
  | nil => mvcgen [seqRuns]
  | cons body rest ih =>
    have once := hbodies body (by simp)
    have later := ih (fun b mem => hbodies b (List.mem_cons_of_mem body mem))
    mvcgen [seqRuns, once, later]

theorem runSchedule_reachable : (sch : Schedule) →
    ⦃fun s => ⌜s.Reachable⌝⦄ runSchedule sch ⦃Session.ReachableAfter⦄
  | .run config => by
    rw [runSchedule]
    exact runRules_reachable config
  | .repeat n sch => by
    rw [runSchedule]
    exact repeatRuns_reachable (runSchedule_reachable sch) n _
  | .saturate sch => by
    have runs := saturateRuns_reachable (runSchedule_reachable sch)
    mvcgen [-runSchedule_spec, runSchedule, runs]
  | .seq ss => by
    rw [runSchedule]
    refine seqRuns_reachable (fun b hb => ?_) _
    -- each body of the sequence runs one of its schedules
    obtain ⟨⟨sch, mem⟩, _, rfl⟩ := List.mem_map.mp hb
    exact runSchedule_reachable sch

/-! ### Commands -/

/-- A command body that succeeds from a reachable session reaches one; the
body of `fail` goes on from wherever the command it runs left the session. -/
theorem commandBody_reachable (c : Command) {inner : Engine Unit}
    (hinner : ⦃fun s => ⌜s.Reachable⌝⦄ inner ⦃Session.ReachableAfter⦄) :
    ⦃fun s => ⌜s.Reachable⌝⦄ commandBody c inner
    ⦃post⟨fun _ s => ⌜s.Reachable⌝, fun _ _ => ⌜True⌝⟩⦄ := by
  cases c <;>
    mvcgen [-rebuild_spec, -rebuild_acts, -runSchedule_spec, commandBody, push, pop,
      rebuild_reachable, runSchedule_reachable, hinner] <;> grind

theorem commandBody_pure_reachable (c : Command) :
    ⦃fun s => ⌜s.Reachable⌝⦄ commandBody c (pure ())
    ⦃post⟨fun _ s => ⌜s.Reachable⌝, fun _ _ => ⌜True⌝⟩⦄ :=
  commandBody_reachable c (by mvcgen)

/-- A command whose success reaches a reachable session reaches one on every
outcome: an error rolls it back. -/
theorem runCommand_reachable_of_success (c : Command)
    (success : ⦃fun s => ⌜s.Reachable⌝⦄ runCommand c
      ⦃post⟨fun _ s => ⌜s.Reachable⌝, fun _ _ => ⌜True⌝⟩⦄) :
    ⦃fun s => ⌜s.Reachable⌝⦄ runCommand c ⦃Session.ReachableAfter⦄ := by
  apply triple_of_run
  intro S reach
  have ok := run_of_triple success reach
  have back := run_of_triple (runCommand_rolls_back S c reach.clean) rfl
  revert ok back
  rcases (runCommand c).run.run S with ⟨_ | _, T⟩
  · exact fun _ back isError => reach.rolledBack (back isError)
  · exact fun ok _ => ok

theorem runCommand_reachable (c : Command) :
    ⦃fun s => ⌜s.Reachable⌝⦄ runCommand c ⦃Session.ReachableAfter⦄ := by
  induction c with
  | fail inner ih =>
    apply runCommand_reachable_of_success
    have body := commandBody_reachable (.fail inner) ih
    mvcgen [runCommand, withRollback, body]
    grind
  | _ =>
    apply runCommand_reachable_of_success
    mvcgen [runCommand, withRollback, commandBody_pure_reachable]
    grind

theorem runCommandStep_reachable (c : Command) :
    ⦃fun s => ⌜s.Reachable⌝⦄ runCommandStep c ⦃Session.ReachableAfter⦄ := by
  mvcgen [runCommandStep, runCommand_reachable] <;> grind

/-! ### Interface calls -/

/-- A call of the session's interface other than a command, as the session
runs it; its answer is left out. -/
inductive Request where
  | evaluate (e : Expr)
  | rawValue (sort : String) (bits : UInt64)
  | string (text : String)
  | lookup (name : String) (inputs : List Value)
  | setRow (name : String) (inputs : List Value) (output : Value)
  | union (a b : Value)
  | find (v : Value)
  | rebuild
  | factsHold (facts : List Fact)
  | rowsOf (name : String)
  | functionToDag (name : String) (n : Nat)
  | extractValue (v : Value)
  | extractAll
  | snapshot (maxFunctions maxCalls : Option Nat) (includeGlobals : Bool) (roots : List Expr)
  | enterNames (names : List String)
  | addEqSort (name : String)
  | view (v : Value)

/-- Run a request. -/
def Request.run : Request → Engine Unit
  | .evaluate e => do let _ ← Engine.evaluate e
  | .rawValue sort bits => do let _ ← Engine.rawValue sort bits
  | .string text => do let _ ← Engine.pool (PoolM.string text)
  | .lookup name inputs => do let _ ← Engine.lookup name inputs
  | .setRow name inputs output => Engine.setRow name inputs output
  | .union a b => do let _ ← Engine.union a b
  | .find v => do let _ ← Engine.find v
  | .rebuild => do let _ ← Engine.rebuild
  | .factsHold facts => do let _ ← Engine.factsHold facts
  | .rowsOf name => do let _ ← Engine.rowsOf name
  | .functionToDag name n => do let _ ← Engine.functionToDag name n
  | .extractValue v => do let _ ← Engine.extractValueText v
  | .extractAll => do let _ ← Engine.extractAll
  | .snapshot maxFunctions maxCalls includeGlobals roots =>
    do let _ ← Engine.snapshot maxFunctions maxCalls includeGlobals roots
  | .enterNames names => Engine.enterNames names
  | .addEqSort name => Engine.addEqSort name
  | .view v => do let _ ← Engine.view v

theorem Request.run_reachable (q : Request) :
    ⦃fun s => ⌜s.Reachable⌝⦄ q.run ⦃Session.ReachableAfter⦄ := by
  cases q <;> mvcgen [Request.run] <;> grind

end Engine

/-! ### Served sessions -/

/-- The sessions a client reaches from a fresh one by commands and interface
calls. A call that ends in a fault or an overflow ends the session. -/
inductive Session.Served : Session → Prop
  | initial : Served Session.initial
  | command {s t : Session} (served : Served s) (c : Command) {r : Except Failure (List String)}
      (run : (Engine.runCommandStep c).run.run s = (r, t)) (alive : ∀ e, r = .error e → e.IsError) :
      Served t
  | request {s t : Session} (served : Served s) (q : Engine.Request) {r : Except Failure Unit}
      (run : q.run.run.run s = (r, t)) (alive : ∀ e, r = .error e → e.IsError) : Served t

theorem Session.Served.reachable {s : Session} (served : s.Served) : s.Reachable := by
  induction served with
  | initial => exact .initial
  | command _ c run alive ih =>
    exact Engine.reachable_of_run (Engine.runCommandStep_reachable c) ih run alive
  | request _ q run alive ih => exact Engine.reachable_of_run q.run_reachable ih run alive

end Saturate
