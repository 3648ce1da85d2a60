import Mathlib
import Saturate.Func
import Saturate.Proofs.Table.Clock

/-!
# A function's rebuild writes at its time

`Func.rebuild f ts` rewrites the rows of `f` that mention an id that stopped
being a root. It removes each such row and writes it back in canonical form,
merging it into a row it collides with, and drops stale entries before and
after. All of these are steps at `ts` (`Table.Step ts`), whether the rebuild
succeeds or stops at a merge conflict: `Func.rebuild_reaches`.

The rebuild runs in `RebuildM`, which adds to the intern pool, so pool
computations get weakest preconditions here first: a pool computation's
precondition is its postcondition at the outcome of its run
(`PoolM.wp_apply`).
-/

open Std.Do

set_option mvcgen.warning false

namespace Saturate

namespace PoolM

/-- A pool computation is read through its run, a state computation over the pool. -/
instance : WP PoolM (.arg Pool (.except String .pure)) where
  wp x := wp (show StateT Pool (ExceptT String Id) _ from x.run)

theorem run_bind_stateT {α β : Type} (x : PoolM α) (f : α → PoolM β) :
    (x >>= f).run = (x.run >>= fun a => (f a).run : StateT Pool (ExceptT String Id) β) := by
  funext p
  rw [run_bind]
  simp only [bind, StateT.bind]
  cases x.run p <;> rfl

instance : WPMonad PoolM (.arg Pool (.except String .pure)) where
  wp_pure a := by
    show wp (show StateT Pool (ExceptT String Id) _ from (pure a : PoolM _).run) = _
    have : (pure a : PoolM _).run = (pure a : StateT Pool (ExceptT String Id) _) := rfl
    rw [this, WPMonad.wp_pure]
  wp_bind x f := by
    show wp (show StateT Pool (ExceptT String Id) _ from (x >>= f).run) = _
    rw [run_bind_stateT, WPMonad.wp_bind]
    rfl

/-- The precondition a pool computation needs: its postcondition at the outcome of its run. -/
theorem wp_apply {α : Type} (m : PoolM α) (Q : PostCond α (.arg Pool (.except String .pure)))
    (p : Pool) :
    wp⟦m⟧ Q p = match m.run p with
      | .ok (a, q) => Q.1 a q
      | .error e => Q.2.1 e := by
  change (WP.wp (show StateT Pool (ExceptT String Id) α from m.run)).apply Q p = _
  simp only [WP.wp, ExceptT.run, Id.run, StateT.run, PredTrans.apply_pushArg,
    PredTrans.apply_pushExcept]
  cases m.run p <;> rfl

/-- What does not mention the pool survives every pool computation. -/
theorem triple_const {α : Type} (m : PoolM α) (P : Prop) :
    ⦃fun _ => ⌜P⌝⦄ m ⦃post⟨fun _ _ => ⌜P⌝, fun _ => ⌜True⌝⟩⦄ := by
  intro p hp
  rw [wp_apply]
  split
  · exact hp
  · exact trivial

end PoolM

namespace RebuildM

/-- What a triple over rebuild computations says of one run from a state
that meets its precondition; a fault of the pool is exempt. -/
theorem run_of_triple {α : Type} {x : RebuildM α} {P : RebuildState → Prop}
    {Q : α → RebuildState → Prop} {E : Failure → RebuildState → Prop}
    (h : ⦃fun st => ⌜P st⌝⦄ x ⦃post⟨fun a st => ⌜Q a st⌝, fun e st => ⌜E e st⌝, fun _ => ⌜True⌝⟩⦄)
    {st st' : RebuildState} {p q : Pool} {r : Except Failure α} (hP : P st)
    (run : (x.run.run st).run p = .ok ((r, st'), q)) :
    match r with
    | .ok a => Q a st'
    | .error e => E e st' := by
  have holds := h st p hP
  simp only [WP.wp, ExceptT.run, StateT.run, PredTrans.apply_pushArg, PredTrans.apply_pushExcept,
    Id.run] at holds
  change (x st).run p = _ at run
  rw [run] at holds
  cases r <;> exact holds

/-- A union changes the union-find and leaves the table alone. -/
theorem union_spec (a b : Value) (sort : String) (t : Table) :
    ⦃fun st => ⌜st.table = t⌝⦄ RebuildM.union a b sort
    ⦃post⟨fun _ st => ⌜st.table = t⌝, fun _ st => ⌜st.table = t⌝, fun _ => ⌜True⌝⟩⦄ := by
  mvcgen [RebuildM.union]
  -- the union-find's answer is matched on after it is taken out of the state
  split
  · mvcgen
  · mvcgen

end RebuildM

namespace Func

/-- Canonicalizing a row reads the union-find and changes no state. -/
theorem canonicalRow_spec (f : Func) (e : Entry) (st₁ : RebuildState) :
    ⦃fun st => ⌜st = st₁⌝⦄ f.canonicalRow e
    ⦃post⟨fun _ st => ⌜st = st₁⌝, fun _ _ => ⌜False⌝, fun _ => ⌜True⌝⟩⦄ := by
  mvcgen [canonicalRow, RebuildM.pool, PoolM.triple_const]

/-- Writing a rebuilt row back is a write at `ts`, on every outcome. -/
theorem mergeRow_reaches (t₀ : Table) (f : Func) (ts : Nat) (inputs : List Value) (out : Value)
    (subsumed : Bool) (ds : List Deferred) :
    ⦃fun st => ⌜t₀.Reaches ts st.table⌝⦄ f.mergeRow ts inputs out subsumed ds
    ⦃post⟨fun _ st => ⌜t₀.Reaches ts st.table⌝, fun _ st => ⌜t₀.Reaches ts st.table⌝,
      fun _ => ⌜True⌝⟩⦄ := by
  mvcgen [mergeRow, RebuildM.union_spec] <;> grind

/-- A function's rebuild changes its table only by steps at `ts`, whether it
succeeds or stops at a merge conflict. -/
theorem rebuild_reaches (f : Func) (ts : Nat) (t₀ : Table) :
    ⦃fun st => ⌜t₀.Reaches ts st.table⌝⦄ f.rebuild ts
    ⦃post⟨fun _ st => ⌜t₀.Reaches ts st.table⌝, fun _ st => ⌜t₀.Reaches ts st.table⌝,
      fun _ => ⌜True⌝⟩⦄ := by
  -- every write of the loop is measured from the same starting table
  have merge := mergeRow_reaches t₀ f ts
  mvcgen [rebuild, canonicalRow_spec, merge]
  case inv1 =>
    exact post⟨fun _ st => ⌜t₀.Reaches ts st.table⌝, fun _ st => ⌜t₀.Reaches ts st.table⌝,
      fun _ => ⌜True⌝⟩
  all_goals grind

/-- A run of a function's rebuild that the pool lets finish leaves a table
reached from the one it started with by steps at `ts`. -/
theorem rebuild_run_reaches {f : Func} {ts : Nat} {start st : RebuildState} {p q : Pool}
    {r : Except Failure (Nat × List Deferred)}
    (run : (((f.rebuild ts).run).run start).run p = .ok ((r, st), q)) :
    start.table.Reaches ts st.table := by
  have reach := RebuildM.run_of_triple (rebuild_reaches f ts start.table)
    (Relation.ReflTransGen.refl) run
  cases r <;> exact reach

end Func

end Saturate
