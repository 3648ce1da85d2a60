import Mathlib
import Saturate.Proofs.Session.Frame

/-!
# A failed command leaves no trace

A command runs between two rebuilds, and one that fails with an error is
rolled back (`Session.RolledBack`): the session is back at the database it
had, with the scopes it had, and keeps only what the pool gained. The
messages and reports are not part of this.

There are two paths to it. A command that cannot write before it fails
(`Command.isAtomic`) runs without a saved copy when nothing is staged; it
fails before its first write, so it only leaves what its first rebuild did,
which is to drop the dirty ids of the last round. Every other command, and an
atomic one while unions are pending, runs against a copy that is put back on
an error; `fail` puts back the scopes as well, since the command it runs may
push or pop.

The one assumption is that the saved scopes have nothing staged
(`Session.ScopesClean`). It holds of a fresh session and every command keeps
it (`runCommand_scopesClean`), since `push` saves the database right after a
rebuild. Without it, `pop` could return to a database whose final rebuild
fails after the scopes were dropped.

* `Engine.failed_command_rolls_back` — the main statement.
-/

open Std.Do

set_option mvcgen.warning false

namespace Saturate

/-- Every database that `push` saved has nothing staged. -/
def Session.ScopesClean (s : Session) : Prop := ∀ d ∈ s.scopes, d.unionFind.staged = #[]

/-- A saved database that `pop` returns to has nothing staged. -/
theorem Session.ScopesClean.popped {s : Session} (clean : s.ScopesClean) {k : Nat} {d : Database}
    (top : (s.scopes.drop k).head? = some d) : d.unionFind.staged = #[] :=
  clean d (List.mem_of_mem_drop (List.mem_of_mem_head? top))

theorem Session.initial_scopesClean : Session.initial.ScopesClean := by
  simp [Session.ScopesClean, Session.initial]

/-- What a failed command leaves of the session `S` it started from: the
database of `S` but for the dirty ids of the last rebuild round, the scopes
of `S`, and a pool grown from that of `S`. -/
structure Session.RolledBack (S s : Session) : Prop where
  db : s.db = { S.db with unionFind := { S.db.unionFind with recent := s.db.unionFind.recent } }
  scopes : s.scopes = S.scopes
  pool : S.pool.Grows s.pool

/-- Putting the database back after a step that kept the frame rolls back. -/
theorem Session.Keeps.rolledBack {S t : Session} (h : S.Keeps t) :
    S.RolledBack { t with db := S.db } :=
  ⟨rfl, h.scopes, h.pool⟩

/-- Putting the database and the scopes back after a step that grew the pool
rolls back. -/
theorem Session.RolledBack.of_restore {S t : Session} (h : S.pool.Grows t.pool) :
    S.RolledBack { t with db := S.db, scopes := S.scopes } :=
  ⟨rfl, rfl, h⟩

/-- With nothing staged, a step that only read the database after the first
rebuild rolls back. -/
theorem Session.Reads.rolledBack {S s : Session} (clean : S.db.unionFind.staged = #[])
    (h : S.clearRound.Reads s) : S.RolledBack s := by
  obtain ⟨⟨scopes, pool⟩, db⟩ := h
  refine ⟨?_, scopes, pool⟩
  rw [db]
  simp [Session.clearRound, UnionFind.advanceRound, clean]

namespace Engine

variable (S : Session)

/-! ### Command bodies -/

/-- `push` can only fail in its first rebuild: the second one starts from the
union-find the first left clean. -/
theorem commandBody_push_keeps (n : Nat) (inner : Engine Unit) :
    ⦃fun s => ⌜s = S⌝⦄ commandBody (.push n) inner
    ⦃post⟨fun _ _ => ⌜True⌝, fun e s => ⌜e.IsError → S.Keeps s⌝⟩⦄ := by
  mvcgen [commandBody, push] <;> grind

/-- `pop` fails before it drops a scope, or in its first rebuild: the database
it returns to has nothing staged. -/
theorem commandBody_pop_keeps (n : Nat) (inner : Engine Unit) (clean : S.ScopesClean) :
    ⦃fun s => ⌜s = S⌝⦄ commandBody (.pop n) inner
    ⦃post⟨fun _ _ => ⌜True⌝, fun e s => ⌜e.IsError → S.Keeps s⌝⟩⦄ := by
  mvcgen [commandBody, pop]
  all_goals grind [Session.ScopesClean.popped]

/-- On a union-find with nothing staged, an atomic command's body fails only
after its first rebuild and before it writes. -/
theorem commandBody_atomic_reads (c : Command) (atomic : Command.isAtomic c = true)
    (inner : Engine Unit) (clean : S.db.unionFind.staged = #[]) (scopes : S.ScopesClean) :
    ⦃fun s => ⌜s = S⌝⦄ commandBody c inner
    ⦃post⟨fun _ _ => ⌜True⌝, fun e s => ⌜e.IsError → S.clearRound.Reads s⌝⟩⦄ := by
  cases c <;> simp only [Command.isAtomic, Bool.false_eq_true] at atomic <;>
    mvcgen [commandBody, push, pop] <;> grind [Session.ScopesClean.popped]

/-- A body that fails with an error has kept the scopes and grown the pool,
unless it is the body of `fail`. -/
theorem commandBody_error_keeps (c : Command) (notFail : ∀ inner, c ≠ .fail inner)
    (scopes : S.ScopesClean) :
    ⦃fun s => ⌜s = S⌝⦄ commandBody c (pure ())
    ⦃post⟨fun _ _ => ⌜True⌝, fun e s => ⌜e.IsError → S.Keeps s⌝⟩⦄ := by
  cases c
  case push n => exact commandBody_push_keeps S n _
  case pop n => exact commandBody_pop_keeps S n _ scopes
  case fail inner => exact absurd rfl (notFail inner)
  all_goals mvcgen [commandBody] <;> grind

/-- Every body grows the pool, the body of `fail` as far as the command it
runs does. -/
theorem commandBody_grows (c : Command) {inner : Engine Unit}
    (hinner : ∀ p : Pool, ⦃fun s => ⌜p.Grows s.pool⌝⦄ inner
      ⦃post⟨fun _ s => ⌜p.Grows s.pool⌝, fun e s => ⌜e.IsError → p.Grows s.pool⌝⟩⦄)
    (p : Pool) :
    ⦃fun s => ⌜p.Grows s.pool⌝⦄ commandBody c inner
    ⦃post⟨fun _ s => ⌜p.Grows s.pool⌝, fun e s => ⌜e.IsError → p.Grows s.pool⌝⟩⦄ := by
  cases c <;> mvcgen [commandBody, push, pop, hinner] <;> grind

/-! ### Commands -/

theorem runCommand_grows (p : Pool) (c : Command) :
    ⦃fun s => ⌜p.Grows s.pool⌝⦄ runCommand c
    ⦃post⟨fun _ s => ⌜p.Grows s.pool⌝, fun e s => ⌜e.IsError → p.Grows s.pool⌝⟩⦄ := by
  induction c generalizing p with
  | fail inner ih =>
    have body := commandBody_grows (.fail inner) ih
    mvcgen [runCommand, withRollback, body] <;> grind
  | _ => mvcgen [runCommand, withRollback, commandBody, push, pop] <;> grind

/-- A command other than `fail` rolls back on the path its rollback takes. -/
theorem withRollback_rolls_back (c : Command) (notFail : ∀ inner, c ≠ .fail inner)
    (scopes : S.ScopesClean) :
    ⦃fun s => ⌜s = S⌝⦄ withRollback c (commandBody c (pure ()))
    ⦃post⟨fun _ _ => ⌜True⌝, fun e s => ⌜e.IsError → S.RolledBack s⌝⟩⦄ := by
  -- Which path the rollback takes decides what the body must guarantee.
  by_cases fast : Command.isAtomic c = true ∧ S.db.unionFind.staged = #[]
  · have body := commandBody_atomic_reads S c fast.1 (pure ()) fast.2 scopes
    mvcgen [withRollback, body]
    all_goals simp_all +zetaDelta [UnionFind.isDirty] <;>
      grind [Session.Reads.rolledBack, Failure.isError_iff]
  · have body := commandBody_error_keeps S c notFail scopes
    mvcgen [withRollback, body]
    all_goals simp_all +zetaDelta [UnionFind.isDirty] <;>
      grind [Session.Keeps.rolledBack, Failure.isError_iff]

/-- `fail` puts back the database and the scopes, whatever the command it
runs did to them. -/
theorem runCommand_fail_rolls_back (inner : Command) :
    ⦃fun s => ⌜s = S⌝⦄ runCommand (.fail inner)
    ⦃post⟨fun _ _ => ⌜True⌝, fun e s => ⌜e.IsError → S.RolledBack s⌝⟩⦄ := by
  have body := commandBody_grows (.fail inner) (runCommand_grows · inner) S.pool
  mvcgen [runCommand, withRollback, body]
  all_goals simp_all +zetaDelta <;> grind [Session.RolledBack.of_restore, Failure.isError_iff]

theorem runCommand_rolls_back (c : Command) (scopes : S.ScopesClean) :
    ⦃fun s => ⌜s = S⌝⦄ runCommand c
    ⦃post⟨fun _ _ => ⌜True⌝, fun e s => ⌜e.IsError → S.RolledBack s⌝⟩⦄ := by
  cases c with
  | fail inner => exact runCommand_fail_rolls_back S inner
  | _ => exact withRollback_rolls_back S _ (fun _ same => by cases same) scopes

set_option maxRecDepth 20000 in
/-- Popping a fresh session fails, after a rebuild that finds nothing to do. -/
theorem pop_fresh_session : (runCommand (.pop 1)).run.run Session.initial =
    (.error (.error .popTooMuch), Session.initial.clearRound) := rfl

theorem commandBody_scopesClean (c : Command) (notFail : ∀ inner, c ≠ .fail inner) :
    ⦃fun s => ⌜s.ScopesClean⌝⦄ commandBody c (pure ())
    ⦃post⟨fun _ s => ⌜s.ScopesClean⌝, fun e s => ⌜e.IsError → s.ScopesClean⌝⟩⦄ := by
  cases c
  case fail inner => exact absurd rfl (notFail inner)
  all_goals mvcgen [commandBody, push, pop] <;> grind [Session.ScopesClean]

theorem withRollback_scopesClean (c : Command) (notFail : ∀ inner, c ≠ .fail inner) :
    ⦃fun s => ⌜s.ScopesClean⌝⦄ withRollback c (commandBody c (pure ()))
    ⦃post⟨fun _ s => ⌜s.ScopesClean⌝, fun e s => ⌜e.IsError → s.ScopesClean⌝⟩⦄ := by
  have body := commandBody_scopesClean c notFail
  mvcgen [withRollback, body] <;> grind [Session.ScopesClean]

/-- Every command keeps the saved scopes clean, whether it succeeds or fails
with an error. -/
theorem runCommand_scopesClean (c : Command) :
    ⦃fun s => ⌜s.ScopesClean⌝⦄ runCommand c
    ⦃post⟨fun _ s => ⌜s.ScopesClean⌝, fun e s => ⌜e.IsError → s.ScopesClean⌝⟩⦄ := by
  induction c with
  | fail inner ih =>
    mvcgen [runCommand, withRollback, commandBody, ih] <;> grind [Session.ScopesClean]
  | _ => exact withRollback_scopesClean _ fun _ same => by cases same

end Engine

end Saturate
