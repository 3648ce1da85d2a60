import Mathlib
import Saturate.Proofs.Session.Reachable

/-!
# Pop undoes its push

The databases a session saves form a stack. `push` puts copies of the
database on top, `pop` takes databases off the top and returns to the last
one it took, and every other command and interface call leaves the stack
alone. A command that fails is rolled back with the stack it had, and `fail`
puts the stack back whatever the command it runs did with it
(`Engine.runCommand_moves`).

So a client that, after a `push`, never takes the stack below the depth that
`push` left (`Session.Inside`) finds the database it saved where it was, and
the `pop` that removes it returns to the database the `push` completed with:
only the pool, the queued messages and the reports keep what happened in
between.

* `Session.pop_undoes_push` — the main statement.
-/

open Std.Do

set_option mvcgen.warning false

namespace Saturate

/-- The database with the dirty ids of the last rebuild round dropped. -/
def Database.clearRound (d : Database) : Database := { d with unionFind := d.unionFind.advanceRound }

/-- The saved databases after one command: some saved on top of those before,
or some of those before taken off the top. -/
def Scopes.Moved (before after : List Database) : Prop :=
  (∃ saved, after = saved ++ before) ∨ ∃ n, after = before.drop n

namespace Scopes.Moved

theorem refl (l : List Database) : Moved l l := .inl ⟨[], rfl⟩

/-- A stack that kept at least the depth of one of its suffixes after a move
still ends in that suffix: a move that pops takes off only what lies above it. -/
theorem suffix {u before after : List Database} (h : Moved before after) (sub : u <:+ before)
    (deep : u.length ≤ after.length) : u <:+ after := by
  rcases h with ⟨saved, rfl⟩ | ⟨n, rfl⟩
  · exact sub.trans (List.suffix_append saved before)
  · -- both are suffixes of `before`, and the one popped to is not the shorter
    rcases List.suffix_or_suffix_of_suffix sub (List.drop_suffix n before) with shorter | longer
    · exact shorter
    · rw [longer.eq_of_length (Nat.le_antisymm longer.length_le deep)]

end Scopes.Moved

/-- A session in the frame of one with clean saved databases has them too. -/
theorem Session.Keeps.scopesClean {s t : Session} (keeps : s.Keeps t) (clean : s.ScopesClean) :
    t.ScopesClean :=
  fun d mem => clean d (keeps.scopes ▸ mem)

namespace Engine

variable (S : Session)

/-! ### Command bodies

The triples are stated for every session whose frame a command body starts
in, so that they serve the command that runs the body after reading names
into the pool. -/

/-- `push` saves the database its first rebuild left, with nothing staged,
and the second rebuild only drops the dirty ids of the last round. -/
theorem commandBody_push_saves (n : Nat) (inner : Engine Unit) :
    ⦃fun s => ⌜S.Keeps s⌝⦄ commandBody (.push n) inner
    ⦃post⟨fun _ t => ⌜∃ d, d.unionFind.staged = #[] ∧ t.db = d.clearRound ∧
        t.scopes = List.replicate n d ++ S.scopes ∧ S.pool.Grows t.pool⌝,
      fun _ _ => ⌜True⌝⟩⦄ := by
  mvcgen [-rebuild_acts, commandBody, push]
  all_goals grind [Session.clearRound, Database.clearRound]

/-- `pop n` takes `n` databases off the stack and returns to the last of
them; that one has nothing staged, so the second rebuild only drops the dirty
ids of the last round. It succeeds only if there are `n` to take. -/
theorem commandBody_pop_restores (n : Nat) (inner : Engine Unit) (clean : S.ScopesClean) :
    ⦃fun s => ⌜S.Keeps s⌝⦄ commandBody (.pop n) inner
    ⦃post⟨fun _ t => ⌜n ≤ S.scopes.length ∧ t.scopes = S.scopes.drop n ∧ S.pool.Grows t.pool ∧
        ∀ d, (S.scopes.drop (n - 1)).head? = some d → n ≠ 0 → t.db = d.clearRound⌝,
      fun _ _ => ⌜True⌝⟩⦄ := by
  mvcgen [-rebuild_acts, commandBody, pop]
  all_goals grind [Session.clearRound, Database.clearRound, Session.ScopesClean.popped, List.head?_drop]

/-- Every other command body keeps the stack on success: the body of `fail`
succeeds only when the command it runs failed, which kept the stack. -/
theorem commandBody_keeps_scopes (c : Command) (notPush : ∀ n, c ≠ .push n)
    (notPop : ∀ n, c ≠ .pop n) {inner : Engine Unit}
    (hinner : ⦃fun s => ⌜S.Keeps s⌝⦄ inner
      ⦃post⟨fun _ _ => ⌜True⌝, fun e s => ⌜e.IsError → S.Keeps s⌝⟩⦄) :
    ⦃fun s => ⌜S.Keeps s⌝⦄ commandBody c inner
    ⦃post⟨fun _ t => ⌜S.Keeps t⌝, fun _ _ => ⌜True⌝⟩⦄ := by
  cases c
  case push n => exact absurd rfl (notPush n)
  case pop n => exact absurd rfl (notPop n)
  all_goals mvcgen [commandBody, hinner] <;> grind

/-- A run that succeeds does what the body does on success, on either path
of the rollback. -/
theorem withRollback_ok (c : Command) {body : Engine Unit} {Q : Session → Prop}
    (hbody : ⦃fun s => ⌜S.Keeps s⌝⦄ body ⦃post⟨fun _ t => ⌜Q t⌝, fun _ _ => ⌜True⌝⟩⦄) :
    ⦃fun s => ⌜S.Keeps s⌝⦄ withRollback c body ⦃post⟨fun _ t => ⌜Q t⌝, fun _ _ => ⌜True⌝⟩⦄ := by
  mvcgen [withRollback, hbody]
  grind

/-! ### Commands -/

/-- A command that fails with an error keeps the stack of every session whose
frame it started in: it is rolled back to where it started. -/
theorem runCommand_errors_keep (c : Command) (clean : S.ScopesClean) :
    ⦃fun s => ⌜S.Keeps s⌝⦄ runCommand c
    ⦃post⟨fun _ _ => ⌜True⌝, fun e s => ⌜e.IsError → S.Keeps s⌝⟩⦄ := by
  apply triple_of_run
  intro T keeps
  have back := run_of_triple (runCommand_rolls_back T c (keeps.scopesClean clean)) rfl
  revert back
  rcases (runCommand c).run.run T with ⟨_ | _, U⟩
  · exact fun back isError => keeps.trans ⟨(back isError).scopes, (back isError).pool⟩
  · exact fun _ => trivial

theorem runCommand_push_saves (n : Nat) :
    ⦃fun s => ⌜S.Keeps s⌝⦄ runCommand (.push n)
    ⦃post⟨fun _ t => ⌜∃ d, d.unionFind.staged = #[] ∧ t.db = d.clearRound ∧
        t.scopes = List.replicate n d ++ S.scopes ∧ S.pool.Grows t.pool⌝,
      fun _ _ => ⌜True⌝⟩⦄ := by
  rw [runCommand.eq_2 _ fun _ same => by cases same]
  exact withRollback_ok S _ (commandBody_push_saves S n (pure ()))

theorem runCommand_pop_restores (n : Nat) (clean : S.ScopesClean) :
    ⦃fun s => ⌜S.Keeps s⌝⦄ runCommand (.pop n)
    ⦃post⟨fun _ t => ⌜n ≤ S.scopes.length ∧ t.scopes = S.scopes.drop n ∧ S.pool.Grows t.pool ∧
        ∀ d, (S.scopes.drop (n - 1)).head? = some d → n ≠ 0 → t.db = d.clearRound⌝,
      fun _ _ => ⌜True⌝⟩⦄ := by
  rw [runCommand.eq_2 _ fun _ same => by cases same]
  exact withRollback_ok S _ (commandBody_pop_restores S n (pure ()) clean)

/-- A command other than `push` and `pop` keeps the stack on success; `fail`
succeeds only when the command it runs failed and was rolled back. -/
theorem runCommand_keeps_scopes (c : Command) (notPush : ∀ n, c ≠ .push n)
    (notPop : ∀ n, c ≠ .pop n) (clean : S.ScopesClean) :
    ⦃fun s => ⌜S.Keeps s⌝⦄ runCommand c ⦃post⟨fun _ t => ⌜S.Keeps t⌝, fun _ _ => ⌜True⌝⟩⦄ := by
  cases c
  case fail inner =>
    rw [runCommand.eq_1]
    exact withRollback_ok S _ (commandBody_keeps_scopes S (.fail inner)
      (fun _ same => by cases same) (fun _ same => by cases same)
      (runCommand_errors_keep S inner clean))
  all_goals
    rw [runCommand.eq_2 _ fun _ same => by cases same]
    -- every other command runs no inner command
    have idle : ⦃fun s => ⌜S.Keeps s⌝⦄ (pure () : Engine Unit)
        ⦃post⟨fun _ _ => ⌜True⌝, fun e s => ⌜e.IsError → S.Keeps s⌝⟩⦄ := by mvcgen
    exact withRollback_ok S _ (commandBody_keeps_scopes S _ notPush notPop idle)

/-- A command other than `push` and `pop` keeps the stack, whether it
succeeds or fails with an error. -/
theorem runCommand_keeps_all (c : Command) (notPush : ∀ n, c ≠ .push n)
    (notPop : ∀ n, c ≠ .pop n) (clean : S.ScopesClean) :
    ⦃fun s => ⌜S.Keeps s⌝⦄ runCommand c ⦃S.KeepsAfter⦄ := by
  apply triple_of_run
  intro T keeps
  have ok := run_of_triple (runCommand_keeps_scopes S c notPush notPop clean) keeps
  have failed := run_of_triple (runCommand_errors_keep S c clean) keeps
  revert ok failed
  rcases (runCommand c).run.run T with ⟨_ | _, U⟩
  · exact fun _ failed => failed
  · exact fun ok _ => ok

/-- A command that fails with an error is rolled back to the database and the
stack of any session it started in the frame of with that database. -/
theorem runCommand_rolls_back_to (c : Command) (clean : S.ScopesClean) :
    ⦃fun s => ⌜S.Keeps s ∧ s.db = S.db⌝⦄ runCommand c
    ⦃post⟨fun _ _ => ⌜True⌝, fun e t => ⌜e.IsError → S.RolledBack t⌝⟩⦄ := by
  apply triple_of_run
  rintro T ⟨keeps, db⟩
  have back := run_of_triple (runCommand_rolls_back T c (keeps.scopesClean clean)) rfl
  revert back
  rcases (runCommand c).run.run T with ⟨_ | _, U⟩
  · intro back isError
    obtain ⟨backDb, backScopes, backPool⟩ := back isError
    exact ⟨db ▸ backDb, backScopes.trans keeps.scopes, keeps.pool.trans backPool⟩
  · exact fun _ => trivial

/-- A command that succeeds moves the stack: `push` saves on top, `pop` takes
off the top, and every other command leaves it. -/
theorem runCommand_moves_of_success (c : Command) (clean : S.ScopesClean) :
    ⦃fun s => ⌜S.Keeps s⌝⦄ runCommand c
    ⦃post⟨fun _ t => ⌜Scopes.Moved S.scopes t.scopes ∧ S.pool.Grows t.pool⌝,
      fun _ _ => ⌜True⌝⟩⦄ := by
  by_cases pushes : ∃ n, c = .push n
  · obtain ⟨n, rfl⟩ := pushes
    have saves := runCommand_push_saves S n
    mvcgen [saves]
    grind [Scopes.Moved]
  by_cases pops : ∃ n, c = .pop n
  · obtain ⟨n, rfl⟩ := pops
    have restores := runCommand_pop_restores S n clean
    mvcgen [restores]
    grind [Scopes.Moved]
  have keeps := runCommand_keeps_scopes S c (fun n same => pushes ⟨n, same⟩)
    (fun n same => pops ⟨n, same⟩) clean
  mvcgen [keeps]
  grind [Scopes.Moved.refl]

/-- A command moves the stack of every session whose frame it started in when
it succeeds, and keeps it when it fails with an error; either way the saved
databases stay clean. -/
theorem runCommand_moves (c : Command) (clean : S.ScopesClean) :
    ⦃fun s => ⌜S.Keeps s⌝⦄ runCommand c
    ⦃post⟨fun _ t => ⌜Scopes.Moved S.scopes t.scopes ∧ S.pool.Grows t.pool ∧ t.ScopesClean⌝,
      fun e t => ⌜e.IsError → S.Keeps t ∧ t.ScopesClean⌝⟩⦄ := by
  apply triple_of_run
  intro T keeps
  have moved := run_of_triple (runCommand_moves_of_success S c clean) keeps
  have failed := run_of_triple (runCommand_errors_keep S c clean) keeps
  have stays := run_of_triple (runCommand_scopesClean c) (keeps.scopesClean clean)
  revert moved failed stays
  rcases (runCommand c).run.run T with ⟨_ | _, U⟩
  · exact fun _ failed stays isError => ⟨failed isError, stays isError⟩
  · exact fun moved _ stays => ⟨moved.1, moved.2, stays⟩

/-! ### Commands as a client runs them -/

theorem runCommandStep_moves (c : Command) (clean : S.ScopesClean) :
    ⦃fun s => ⌜S.Keeps s⌝⦄ runCommandStep c
    ⦃post⟨fun _ t => ⌜Scopes.Moved S.scopes t.scopes ∧ S.pool.Grows t.pool ∧ t.ScopesClean⌝,
      fun e t => ⌜e.IsError → S.Keeps t ∧ t.ScopesClean⌝⟩⦄ := by
  have ran := runCommand_moves S c clean
  mvcgen [runCommandStep, ran] <;> grind [Session.ScopesClean]

theorem runCommandStep_push_saves (n : Nat) :
    ⦃fun s => ⌜S.Keeps s⌝⦄ runCommandStep (.push n)
    ⦃post⟨fun _ t => ⌜∃ d, d.unionFind.staged = #[] ∧ t.db = d.clearRound ∧
        t.scopes = List.replicate n d ++ S.scopes ∧ S.pool.Grows t.pool⌝,
      fun _ _ => ⌜True⌝⟩⦄ := by
  have ran := runCommand_push_saves S n
  mvcgen [runCommandStep, ran]
  grind

theorem runCommandStep_pop_restores (n : Nat) (clean : S.ScopesClean) :
    ⦃fun s => ⌜S.Keeps s⌝⦄ runCommandStep (.pop n)
    ⦃post⟨fun _ t => ⌜n ≤ S.scopes.length ∧ t.scopes = S.scopes.drop n ∧ S.pool.Grows t.pool ∧
        ∀ d, (S.scopes.drop (n - 1)).head? = some d → n ≠ 0 → t.db = d.clearRound⌝,
      fun _ _ => ⌜True⌝⟩⦄ := by
  have ran := runCommand_pop_restores S n clean
  mvcgen [runCommandStep, ran]
  grind

theorem runCommandStep_keeps_all (c : Command) (notPush : ∀ n, c ≠ .push n)
    (notPop : ∀ n, c ≠ .pop n) (clean : S.ScopesClean) :
    ⦃fun s => ⌜S.Keeps s⌝⦄ runCommandStep c ⦃S.KeepsAfter⦄ := by
  have ran := runCommand_keeps_all S c notPush notPop clean
  mvcgen [runCommandStep, ran] <;> grind

theorem runCommandStep_rolls_back (c : Command) (clean : S.ScopesClean) :
    ⦃fun s => ⌜s = S⌝⦄ runCommandStep c
    ⦃post⟨fun _ _ => ⌜True⌝, fun e t => ⌜e.IsError → S.RolledBack t⌝⟩⦄ := by
  have ran := runCommand_rolls_back_to S c clean
  mvcgen [runCommandStep, ran] <;> grind

/-- An interface call keeps the stack. -/
theorem Request.run_keeps (q : Request) : ⦃fun s => ⌜S.Keeps s⌝⦄ q.run ⦃S.KeepsAfter⦄ := by
  cases q <;> mvcgen [Request.run] <;> grind

end Engine

/-! ### Clients inside a scope -/

/-- The sessions a client reaches from `s₀` by commands and interface calls
without taking the stack below `k` saved databases. A call that ends in a
fault ends the session. -/
inductive Session.Inside (k : Nat) (s₀ : Session) : Session → Prop
  | start : Inside k s₀ s₀
  | command {s t : Session} (prev : Inside k s₀ s) (c : Command) {r : Except Failure (List String)}
      (run : (Engine.runCommandStep c).run.run s = (r, t)) (alive : ∀ e, r = .error e → e.IsError)
      (deep : k ≤ t.scopes.length) : Inside k s₀ t
  | request {s t : Session} (prev : Inside k s₀ s) (q : Engine.Request) {r : Except Failure Unit}
      (run : q.run.run.run s = (r, t)) (alive : ∀ e, r = .error e → e.IsError) : Inside k s₀ t

/-- Inside the scope of its own depth, a client keeps the stack of `s₀` at the
bottom of the stack, keeps what the pool held and keeps the saved databases
clean. -/
theorem Session.Inside.keeps_bottom {s₀ s : Session} (clean : s₀.ScopesClean)
    (inside : s₀.Inside s₀.scopes.length s) :
    s₀.scopes <:+ s.scopes ∧ s₀.pool.Grows s.pool ∧ s.ScopesClean := by
  induction inside with
  | start => exact ⟨List.suffix_refl _, .refl _, clean⟩
  | @command u _ _ c r run alive deep ih =>
    obtain ⟨bottom, grows, cleanS⟩ := ih
    have step := Engine.run_of_triple (Engine.runCommandStep_moves u c cleanS) (Session.Keeps.refl u)
    rw [run] at step
    -- a failed command keeps the stack, a successful one moves it
    rcases r with e | _
    · obtain ⟨keeps, cleanT⟩ := step (alive e rfl)
      exact ⟨keeps.scopes ▸ bottom, grows.trans keeps.pool, cleanT⟩
    · obtain ⟨moved, grown, cleanT⟩ := step
      exact ⟨moved.suffix bottom deep, grows.trans grown, cleanT⟩
  | @request u v _ q r run alive ih =>
    obtain ⟨bottom, grows, cleanS⟩ := ih
    have step := Engine.run_of_triple (Engine.Request.run_keeps u q) (Session.Keeps.refl u)
    rw [run] at step
    have keeps : u.Keeps v := by
      rcases r with e | _
      · exact step (alive e rfl)
      · exact step
    exact ⟨keeps.scopes ▸ bottom, grows.trans keeps.pool, keeps.scopesClean cleanS⟩

/-! ### Pop undoes its push -/

/-- The `pop` that takes off the database a `push` saved returns to the
database the `push` completed with, and to the stack under it. -/
theorem Session.pop_returns_to_push {S₀ S₁ S₂ S₃ : Session} {m₁ m₂ : List String}
    (clean : S₀.ScopesClean)
    (pushed : (Engine.runCommandStep (.push 1)).run.run S₀ = (.ok m₁, S₁))
    (inside : S₁.Inside S₁.scopes.length S₂) (top : S₂.scopes.length = S₁.scopes.length)
    (popped : (Engine.runCommandStep (.pop 1)).run.run S₂ = (.ok m₂, S₃)) :
    S₃.db = S₁.db ∧ S₃.scopes = S₁.scopes.tail ∧ S₁.pool.Grows S₃.pool := by
  -- the push saved a database `d` with nothing staged on the stack of `S₀`
  have saves := Engine.run_of_triple (Engine.runCommandStep_push_saves S₀ 1) (Session.Keeps.refl S₀)
  rw [pushed] at saves
  obtain ⟨d, staged, db₁, scopes₁, -⟩ := saves
  have clean₁ : S₁.ScopesClean := by
    intro d' mem
    rw [scopes₁, List.replicate_one, List.singleton_append, List.mem_cons] at mem
    rcases mem with rfl | old
    · exact staged
    · exact clean d' old
  -- inside the scope the stack of `S₁` stays at the bottom; at its depth it is all of it
  obtain ⟨bottom, grows₂, clean₂⟩ := inside.keeps_bottom clean₁
  have same : S₁.scopes = S₂.scopes := bottom.eq_of_length top.symm
  have restores := Engine.run_of_triple (Engine.runCommandStep_pop_restores S₂ 1 clean₂)
    (Session.Keeps.refl S₂)
  rw [popped] at restores
  obtain ⟨-, scopes₃, grows₃, db₃⟩ := restores
  refine ⟨?_, ?_, grows₂.trans grows₃⟩
  · rw [db₁]
    exact db₃ d (by simp [← same, scopes₁]) one_ne_zero
  · rw [scopes₃, ← same, List.drop_one]

/-- Taking more databases off the stack than it holds fails, and when the
failure is an error it leaves the session as it found it (`Session.RolledBack`). -/
theorem Session.pop_past_the_stack_fails {s t : Session} {n : Nat}
    {r : Except Failure (List String)} (clean : s.ScopesClean) (more : s.scopes.length < n)
    (run : (Engine.runCommandStep (.pop n)).run.run s = (r, t)) :
    (∀ a, r ≠ .ok a) ∧ ∀ e, r = .error e → e.IsError → s.RolledBack t := by
  have restores := Engine.run_of_triple (Engine.runCommandStep_pop_restores s n clean)
    (Session.Keeps.refl s)
  have back := Engine.run_of_triple (Engine.runCommandStep_rolls_back s (.pop n) clean) rfl
  rw [run] at restores back
  rcases r with e | a
  · refine ⟨(fun _ same => by cases same), fun e' same isError => ?_⟩
    cases same
    exact back isError
  · exact absurd restores.1 (Nat.not_le_of_lt more)

/-- `fail` leaves the stack as it was, whatever the command it runs does with
it: a `push` or `pop` that succeeds under it is rolled back with it. -/
theorem Session.fail_keeps_the_stack {s t : Session} {c : Command}
    {r : Except Failure (List String)} (clean : s.ScopesClean)
    (run : (Engine.runCommandStep (.fail c)).run.run s = (r, t))
    (alive : ∀ e, r = .error e → e.IsError) : t.scopes = s.scopes := by
  have keeps := Engine.run_of_triple
    (Engine.runCommandStep_keeps_all s (.fail c) (fun _ same => by cases same)
      (fun _ same => by cases same) clean) (Session.Keeps.refl s)
  rw [run] at keeps
  rcases r with e | _
  · exact (keeps (alive e rfl)).scopes
  · exact keeps.scopes

/-- **Pop undoes exactly its push.** After a `push` completes, a client may run
any commands and interface calls, failing ones, ones under `fail` and nested
`push`es and `pop`s, as long as it never takes the stack below the depth the
`push` left; the `pop` that then takes the saved database off returns to the
database and the stack the `push` completed with, less the saved database.
Only the pool, which only grew, the queued messages and the reports keep
what happened in between. Taking more databases off the stack than it holds
fails and changes nothing, and `fail` leaves the stack as it was. -/
theorem Session.pop_undoes_push :
    (∀ {S₀ S₁ S₂ S₃ : Session} {m₁ m₂ : List String}, S₀.ScopesClean →
      (Engine.runCommandStep (.push 1)).run.run S₀ = (.ok m₁, S₁) →
      S₁.Inside S₁.scopes.length S₂ → S₂.scopes.length = S₁.scopes.length →
      (Engine.runCommandStep (.pop 1)).run.run S₂ = (.ok m₂, S₃) →
      S₃.db = S₁.db ∧ S₃.scopes = S₁.scopes.tail ∧ S₁.pool.Grows S₃.pool) ∧
    (∀ {s t : Session} {n : Nat} {r : Except Failure (List String)}, s.ScopesClean →
      s.scopes.length < n → (Engine.runCommandStep (.pop n)).run.run s = (r, t) →
      (∀ a, r ≠ .ok a) ∧ ∀ e, r = .error e → e.IsError → s.RolledBack t) ∧
    (∀ {s t : Session} {c : Command} {r : Except Failure (List String)}, s.ScopesClean →
      (Engine.runCommandStep (.fail c)).run.run s = (r, t) → (∀ e, r = .error e → e.IsError) →
      t.scopes = s.scopes) :=
  ⟨Session.pop_returns_to_push, Session.pop_past_the_stack_fails, Session.fail_keeps_the_stack⟩

set_option maxRecDepth 20000 in
/-- A fresh session that pushes and pops at once returns to the database the
push completed with. -/
theorem Session.pop_undoes_push_of_fresh_session :
    let S₁ := ((Engine.runCommandStep (.push 1)).run.run Session.initial).2
    let S₃ := ((Engine.runCommandStep (.pop 1)).run.run S₁).2
    Session.initial.ScopesClean ∧
      (Engine.runCommandStep (.push 1)).run.run Session.initial = (.ok [], S₁) ∧
      (Engine.runCommandStep (.pop 1)).run.run S₁ = (.ok [], S₃) ∧
      S₃.db = S₁.db ∧ S₃.scopes = S₁.scopes.tail ∧ S₁.pool.Grows S₃.pool := by
  intro S₁ S₃
  have pushed : (Engine.runCommandStep (.push 1)).run.run Session.initial = (.ok [], S₁) := rfl
  have popped : (Engine.runCommandStep (.pop 1)).run.run S₁ = (.ok [], S₃) := rfl
  exact ⟨Session.initial_scopesClean, pushed, popped,
    Session.pop_undoes_push.1 Session.initial_scopesClean pushed .start rfl popped⟩

end Saturate
