import Mathlib
import Saturate.Proofs.Session.Changes
import Saturate.Proofs.Session.Reachable

/-!
# What every command keeps

A property of sessions that every change of a session keeps
(`Session.Changed`), that saving the database keeps, and that holds only of
sessions whose saved databases have nothing staged (`Session.Kept`) is kept
by every interface call and by every command but `pop`, on success and on
every error: a command that fails is rolled back to the session it started
from (`Engine.runCommand_rolls_back`). It is kept by `pop` as well when
returning to a saved database keeps it (`Session.PopKept`).

So every served session has all its tables indexed, those of the databases
it saved included (`Session.Served.indexed`).
-/

open Std.Do

set_option mvcgen.warning false

namespace Saturate

/-- A property of sessions kept by every change of a session and by saving
its database, and held only where the saved databases have nothing staged. -/
structure Session.Kept (R : Session → Prop) : Prop where
  changed : ∀ {s t : Session}, R s → s.Changed t → R t
  push : ∀ {s : Session}, R s → s.db.unionFind.staged = #[] →
    ∀ n, R { s with scopes := List.replicate n s.db ++ s.scopes }
  clean : ∀ {s : Session}, R s → s.ScopesClean

/-- Returning to the database saved `n`-th last keeps the property. -/
def Session.PopKept (R : Session → Prop) : Prop :=
  ∀ (s : Session) (n : Nat) (d : Database), R s → n ≠ 0 → (s.scopes.drop (n - 1)).head? = some d →
    R { s with db := d, scopes := s.scopes.drop n }

@[grind →] theorem Session.PopKept.pop {R : Session → Prop} (h : Session.PopKept R) {s : Session}
    (start : R s) {n : Nat} (pos : n ≠ 0) {d : Database} (top : (s.scopes.drop (n - 1)).head? = some d) :
    R { s with db := d, scopes := s.scopes.drop n } :=
  h s n d start pos top

/-- Success and every error leave a session of which `R` holds. -/
abbrev Session.KeptAfter {α : Type} (R : Session → Prop) :
    PostCond α (.except Failure (.arg Session .pure)) :=
  post⟨fun _ s => ⌜R s⌝, fun e s => ⌜e.IsError → R s⌝⟩

namespace Session.Kept

variable {R : Session → Prop} (hR : Session.Kept R) {s t : Session}
include hR

attribute [grind →] changed

attribute [grind! .] push

@[grind →] theorem acts (h : R s) (a : s.Acts t) : R t := hR.changed h (.of_acts a)

@[grind →] theorem reads (h : R s) (r : s.Reads t) : R t := hR.acts h (.of_reads r)

@[grind →] theorem setPool (h : R s) {q : Pool} (grows : s.pool.Grows q) : R { s with pool := q } :=
  hR.changed h ⟨⟨rfl, grows⟩, .refl⟩

@[grind! .] theorem setMessages (h : R s) (m : Array String) : R { s with messages := m } :=
  hR.changed h ⟨⟨rfl, .refl _⟩, .refl⟩

@[grind! .] theorem setReports (h : R s) (r : Option RunReport) (o : RunReport) :
    R { s with overall := o, lastReport := r } :=
  hR.changed h ⟨⟨rfl, .refl _⟩, .refl⟩

@[grind! .] theorem tick (h : R s) : R { s with db := { s.db with timestamp := s.db.timestamp + 1 } } :=
  hR.changed h ⟨⟨rfl, .refl _⟩, .tick s.db⟩

/-- A rolled-back command returns to a session of which the property holds. -/
theorem rolledBack (h : R s) (back : s.RolledBack t) : R t :=
  hR.changed h ⟨⟨back.scopes, back.pool⟩, by rw [back.db]; exact .single (.write (.unionFind _ _))⟩

end Session.Kept

namespace Engine

/-- The outcome of a run from a session with the property that ends in no
fault has the property. -/
theorem kept_of_run {R : Session → Prop} {α : Type} {m : Engine α}
    (h : ⦃fun s => ⌜R s⌝⦄ m ⦃Session.KeptAfter R⦄) {S T : Session} (start : R S)
    {r : Except Failure α} (run : m.run.run S = (r, T)) (alive : ∀ e, r = .error e → e.IsError) :
    R T := by
  have outcome := run_of_triple h start
  rw [run] at outcome
  cases r with
  | ok => exact outcome
  | error e => exact outcome (alive e rfl)

section Kept

variable {R : Session → Prop} (hR : Session.Kept R)
include hR

/-! ### Rebuilds and search rounds -/

/-- A rebuild keeps the property, with nothing staged when it succeeds. -/
theorem rebuild_kept :
    ⦃fun s => ⌜R s⌝⦄ rebuild
    ⦃post⟨fun _ s => ⌜R s ∧ s.db.unionFind.staged = #[]⌝, fun e s => ⌜e.IsError → R s⌝⟩⦄ := by
  apply triple_of_run
  intro S start
  have acts := run_of_triple (rebuild_acts S) (Session.Acts.refl S)
  have clean := run_of_triple (rebuild_spec S) rfl
  revert acts clean
  rcases rebuild.run.run S with ⟨_ | _, T⟩
  · exact fun acts _ isError => hR.acts start (acts isError)
  · exact fun acts clean => ⟨hR.acts start acts, clean.2.1⟩

theorem stepRules_kept (ruleset : String) :
    ⦃fun s => ⌜R s⌝⦄ stepRules ruleset ⦃Session.KeptAfter R⦄ := by
  apply triple_of_run
  intro S start
  rcases run : (stepRules ruleset).run.run S with ⟨_ | e, T⟩
  · exact fun isError => hR.changed start
      (.of_applies (stepRules_run_applies run fun _ same => by cases same; exact isError))
  · exact hR.changed start (.of_applies (stepRules_run_applies run fun _ same => by cases same))

theorem runRules_kept (config : RunConfig) :
    ⦃fun s => ⌜R s⌝⦄ runRules config ⦃Session.KeptAfter R⦄ := by
  have rebuilt := rebuild_kept hR
  have searched := stepRules_kept hR
  mvcgen [-runRules_keeps, -stepRules_keeps, -rebuild_spec, -rebuild_acts, runRules, rebuilt,
    searched] <;> grind

end Kept

/-! ### Schedules -/

section Schedules

variable {R : Session → Prop} {body : Engine RunReport}
  (hbody : ⦃fun s => ⌜R s⌝⦄ body ⦃Session.KeptAfter R⦄)
include hbody

theorem repeatRuns_kept (n : Nat) (report : RunReport) :
    ⦃fun s => ⌜R s⌝⦄ repeatRuns body n report ⦃Session.KeptAfter R⦄ := by
  induction n generalizing report with
  | zero => mvcgen [repeatRuns]
  | succ n ih => mvcgen [repeatRuns, hbody, ih]

theorem saturateRuns_kept (limit fuel rounds : Nat) (report : RunReport) :
    ⦃fun s => ⌜R s⌝⦄ saturateRuns body limit fuel rounds report ⦃Session.KeptAfter R⦄ := by
  induction fuel generalizing rounds report with
  | zero => mvcgen [saturateRuns]
  | succ fuel ih => mvcgen [saturateRuns, hbody, ih]

end Schedules

theorem seqRuns_kept {R : Session → Prop} {bodies : List (Engine RunReport)}
    (hbodies : ∀ b ∈ bodies, ⦃fun s => ⌜R s⌝⦄ b ⦃Session.KeptAfter R⦄) (report : RunReport) :
    ⦃fun s => ⌜R s⌝⦄ seqRuns bodies report ⦃Session.KeptAfter R⦄ := by
  induction bodies generalizing report with
  | nil => mvcgen [seqRuns]
  | cons body rest ih =>
    have once := hbodies body (by simp)
    have later := ih (fun b mem => hbodies b (List.mem_cons_of_mem body mem))
    mvcgen [seqRuns, once, later]

theorem runSchedule_kept {R : Session → Prop} (hR : Session.Kept R) : (sch : Schedule) →
    ⦃fun s => ⌜R s⌝⦄ runSchedule sch ⦃Session.KeptAfter R⦄
  | .run config => by
    rw [runSchedule]
    exact runRules_kept hR config
  | .repeat n sch => by
    rw [runSchedule]
    exact repeatRuns_kept (runSchedule_kept hR sch) n _
  | .saturate sch => by
    have runs := saturateRuns_kept (runSchedule_kept hR sch)
    mvcgen [-runSchedule_spec, runSchedule, runs]
  | .seq ss => by
    rw [runSchedule]
    refine seqRuns_kept (fun b hb => ?_) _
    -- each body of the sequence runs one of its schedules
    obtain ⟨⟨sch, mem⟩, _, rfl⟩ := List.mem_map.mp hb
    exact runSchedule_kept hR sch

section Commands

variable {R : Session → Prop} (hR : Session.Kept R)
include hR

/-! ### Commands -/

/-- A command body that succeeds keeps the property; the body of `fail` needs
of the command it runs only that its errors keep it, and `pop` that
returning to a saved database keeps it. -/
theorem commandBody_kept (c : Command) (popKept : ∀ n, c = .pop n → Session.PopKept R)
    {inner : Engine Unit}
    (hinner : ⦃fun s => ⌜R s⌝⦄ inner ⦃post⟨fun _ _ => ⌜True⌝, fun e s => ⌜e.IsError → R s⌝⟩⦄) :
    ⦃fun s => ⌜R s⌝⦄ commandBody c inner ⦃post⟨fun _ s => ⌜R s⌝, fun _ _ => ⌜True⌝⟩⦄ := by
  have rebuilt := rebuild_kept hR
  have scheduled := runSchedule_kept hR
  cases c
  case pop n =>
    have back := popKept n rfl
    mvcgen [-rebuild_spec, -rebuild_acts, commandBody, pop, rebuilt] <;> grind
  all_goals
    mvcgen [-rebuild_spec, -rebuild_acts, -runSchedule_spec, commandBody, push, rebuilt, scheduled,
      hinner] <;> grind

/-- A command that fails with an error keeps the property: it is rolled back. -/
theorem runCommand_errors_kept (c : Command) :
    ⦃fun s => ⌜R s⌝⦄ runCommand c ⦃post⟨fun _ _ => ⌜True⌝, fun e s => ⌜e.IsError → R s⌝⟩⦄ := by
  apply triple_of_run
  intro S start
  have back := run_of_triple (runCommand_rolls_back S c (hR.clean start)) rfl
  revert back
  rcases (runCommand c).run.run S with ⟨_ | _, T⟩
  · exact fun back isError => hR.rolledBack start (back isError)
  · exact fun _ => trivial

/-- A command whose success keeps the property keeps it on every outcome. -/
theorem runCommand_kept_of_success (c : Command)
    (success : ⦃fun s => ⌜R s⌝⦄ runCommand c ⦃post⟨fun _ s => ⌜R s⌝, fun _ _ => ⌜True⌝⟩⦄) :
    ⦃fun s => ⌜R s⌝⦄ runCommand c ⦃Session.KeptAfter R⦄ := by
  apply triple_of_run
  intro S start
  have ok := run_of_triple success start
  have failed := run_of_triple (runCommand_errors_kept hR c) start
  revert ok failed
  rcases (runCommand c).run.run S with ⟨_ | _, T⟩
  · exact fun _ failed => failed
  · exact fun ok _ => ok

theorem runCommand_kept (c : Command) (popKept : ∀ n, c = .pop n → Session.PopKept R) :
    ⦃fun s => ⌜R s⌝⦄ runCommand c ⦃Session.KeptAfter R⦄ := by
  apply runCommand_kept_of_success hR
  cases c
  case fail inner =>
    have body := commandBody_kept hR (.fail inner) (fun _ same => by cases same)
      (runCommand_errors_kept hR inner)
    mvcgen [runCommand, withRollback, body]
    grind
  all_goals
    -- every other command runs no inner command
    have idle : ⦃fun s => ⌜R s⌝⦄ (pure () : Engine Unit)
        ⦃post⟨fun _ _ => ⌜True⌝, fun e s => ⌜e.IsError → R s⌝⟩⦄ := by mvcgen
    have body := commandBody_kept hR _ popKept idle
    mvcgen [runCommand, withRollback, body]
    grind

theorem runCommandStep_kept (c : Command) (popKept : ∀ n, c = .pop n → Session.PopKept R) :
    ⦃fun s => ⌜R s⌝⦄ runCommandStep c ⦃Session.KeptAfter R⦄ := by
  have ran := runCommand_kept hR c popKept
  mvcgen [runCommandStep, ran] <;> grind

/-! ### Interface calls -/

theorem Request.run_kept (q : Request) : ⦃fun s => ⌜R s⌝⦄ q.run ⦃Session.KeptAfter R⦄ := by
  have rebuilt := rebuild_kept hR
  cases q <;> mvcgen [-rebuild_spec, -rebuild_acts, Request.run, rebuilt] <;> grind

end Commands

end Engine

/-! ### Served sessions have indexed tables -/

/-- Every table of a session is indexed, those of the databases it saved as
well, and the saved databases have nothing staged. -/
structure Session.Indexed (s : Session) : Prop where
  db : s.db.Indexed
  scopes : ∀ d ∈ s.scopes, d.Indexed
  clean : s.ScopesClean

theorem Session.indexed_kept : Session.Kept Session.Indexed where
  changed h c := by
    obtain ⟨db, scopes, clean⟩ := h
    have same := c.keeps.scopes
    exact ⟨c.changes.indexed db, fun d mem => scopes d (same ▸ mem), fun d mem => clean d (same ▸ mem)⟩
  push h staged n := by
    obtain ⟨db, scopes, clean⟩ := h
    refine ⟨db, fun d mem => ?_, fun d mem => ?_⟩
    · rcases List.mem_append.mp mem with saved | old
      · exact List.eq_of_mem_replicate saved ▸ db
      · exact scopes d old
    · rcases List.mem_append.mp mem with saved | old
      · exact List.eq_of_mem_replicate saved ▸ staged
      · exact clean d old
  clean h := h.clean

theorem Session.indexed_popKept : Session.PopKept Session.Indexed := by
  intro s n d h _ top
  have saved : d ∈ s.scopes := List.mem_of_mem_drop (List.mem_of_mem_head? top)
  exact ⟨h.scopes d saved, fun d' mem => h.scopes d' (List.mem_of_mem_drop mem),
    fun d' mem => h.clean d' (List.mem_of_mem_drop mem)⟩

/-- In every session that commands and interface calls reach, every table is
indexed, those of the databases it saved as well. -/
theorem Session.Served.indexed {s : Session} (served : s.Served) : s.Indexed := by
  induction served with
  | initial =>
    exact ⟨by simp [Database.Indexed, Session.initial, Database.initial], by simp [Session.initial],
      Session.initial_scopesClean⟩
  | command _ c run alive ih =>
    have step := Engine.runCommandStep_kept Session.indexed_kept c fun _ _ => Session.indexed_popKept
    exact Engine.kept_of_run step ih run alive
  | request _ q run alive ih =>
    exact Engine.kept_of_run (Engine.Request.run_kept Session.indexed_kept q) ih run alive

end Saturate
