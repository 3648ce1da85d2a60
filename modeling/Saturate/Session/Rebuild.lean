import Saturate.Session.Actions

/-!
Rebuilding: restoring congruence after unions.

A rebuild runs in rounds. A round starts by making the ids that stopped
being roots since the last round its dirty ids; without any, the rebuild is
done. Otherwise every function rewrites its rows that mention a dirty id
(`Func.rebuild`), and then the merges that need a merge expression run, in
the order of the functions. Unions made by a round are dirty in the next.

A rebuild that fails keeps what it did so far; commands roll it back.
-/

namespace Saturate

namespace Engine

/-- Rebuild the function at a position; its effects stay when it fails. The
function's table and the union-find are taken out of the session while the
rebuild changes them, and put back after. -/
def rebuildFuncAt (i : Nat) : Engine (Nat × List Deferred) := do
  let taken ← modifyGet fun s =>
    match s.db.funcs[i]? with
    | none => (none, s)
    | some f =>
      (some ({ f with table := .empty }, s.db.timestamp, RebuildState.mk f.table s.db.unionFind),
        { s with
          db := { s.db with
            funcs := s.db.funcs.modify i fun g => { g with table := .empty }
            unionFind := .empty } })
  match taken with
  | none => pure (0, [])
  | some (f, ts, start) =>
    let (r, st) ← pool (((f.rebuild ts).run).run start)
    modify fun s => { s with
      db := { s.db with
        funcs := s.db.funcs.modify i fun g => { g with table := st.table }
        unionFind := st.uf } }
    match r with
    | .ok v => pure v
    | .error e => throw e

/-- Run the merge expression of a function on the collisions of a round. -/
def applyMerges (name : String) (ds : List Deferred) : Engine Unit := do
  match (← func name).merge with
  | .program p =>
    for d in ds do
      let stack ← runProgram p #[d.old, d.new]
      let merged := stack.back?.getD d.old
      let ts := (← db).timestamp
      modifyFunc name (·.put d.inputs merged ts)
  | _ => pure ()

/-- One round over all functions; the number of rows rewritten. -/
def rebuildRound : Engine Nat := do
  let n := (← db).funcs.size
  let mut updates := 0
  let mut pending : Array (String × List Deferred) := #[]
  for i in [0:n] do
    let (k, ds) ← rebuildFuncAt i
    updates := updates + k
    if !ds.isEmpty then
      let name := (((← db).funcs[i]?).map Func.name).getD ""
      pending := pending.push (name, ds)
  for (name, ds) in pending do
    applyMerges name ds
  pure updates

/-- Rounds until one starts without dirty ids, at most `fuel` of them; a
rebuild that still has dirty ids after that is taken not to terminate. -/
def rebuildWithin : Nat → Nat → Engine Nat
  | 0, _ => throw .overflow
  | fuel + 1, updates => do
    modifyDb fun d => { d with unionFind := d.unionFind.advanceRound }
    if !(← db).unionFind.hasRecent then return updates
    let k ← rebuildRound
    rebuildWithin fuel (updates + k)

/-- Restore congruence; the number of rows rewritten. Every round but the
last follows a union, and a union joins two of the ids there are, so a
terminating rebuild whose merges make few new ids stays within the budget. -/
def rebuild : Engine Nat := do
  rebuildWithin ((← db).unionFind.size + 1001) 0

end Engine

end Saturate
