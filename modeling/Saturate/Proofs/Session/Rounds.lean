import Saturate.Proofs.Session.Limits
import Saturate.Proofs.Session.Writes
import Saturate.Proofs.UnionFind.Depth

/-!
# Rebuild rounds are bounded by the roots

A rebuild runs rounds until one starts without dirty ids. When no function
merges by a merge expression, a round changes the union-find only by the
unions that merge rows whose outputs are e-classes: it makes no id, and each
union that joins two blocks removes one root and stages it. The roots and the
staged ids together keep their number through a round (`UnionFind.Tally`,
`Engine.rebuildRound_tally`), so the next round runs only if this one removed
a root.

* `Engine.rebuild_rounds_le_roots` — a rebuild from a union-find built by
  calls ends within one round more than the roots it starts with.
-/

open Std.Do

set_option mvcgen.warning false

namespace Saturate

namespace Partition

/-- The number of blocks: the ids that are their own root. -/
def blocks (P : Partition) : Nat := ((Finset.range P.size).filter fun x => P.root x = x).card

variable {P : Partition}

/-- Merging two blocks leaves one block fewer: the loser stops being a root. -/
theorem blocks_merge {a b : Nat} (ha : a < P.size) (hb : b < P.size) (apart : P.root a ≠ P.root b) :
    (P.merge a b ha hb).blocks + 1 = P.blocks := by
  have ne := winner_ne_loser (P := P) apart
  have roots : (Finset.range P.size).filter (fun x => (P.merge a b ha hb).root x = x) =
      ((Finset.range P.size).filter fun x => P.root x = x).erase (P.loser a b) := by
    ext x
    rw [Finset.mem_filter, Finset.mem_erase, Finset.mem_filter, Finset.mem_range, merge_root]
    constructor
    · rintro ⟨lt, root⟩
      split at root
      · -- only the winner could stay its own root here, and its root is no loser
        rename_i lost
        rw [← root, winner_root ha hb] at lost
        exact absurd lost ne
      · rename_i kept
        exact ⟨fun same => kept (by rw [root, same]), lt, root⟩
    · rintro ⟨notLoser, lt, root⟩
      refine ⟨lt, ?_⟩
      rw [if_neg (by rwa [root])]
      exact root
  have mem : P.loser a b ∈ (Finset.range P.size).filter fun x => P.root x = x := by
    simp [loser_lt ha hb, loser_root ha hb]
  have pos := Finset.card_pos.mpr ⟨_, mem⟩
  simp only [blocks, merge_size, roots, Finset.card_erase_of_mem mem]
  omega

theorem blocks_pos (nonempty : 0 < P.size) : 0 < P.blocks := by
  refine Finset.card_pos.mpr ⟨P.root 0, ?_⟩
  simp [P.root_lt 0 nonempty, P.root_root 0 nonempty]

end Partition

namespace UnionFind

/-- The number of roots of the forest: the ids that are their own parent. -/
def rootCount (uf : UnionFind) : Nat :=
  ((Finset.range uf.size).filter fun x => uf.parent? x = some x).card

variable {uf : UnionFind} {P : Partition} {rank : Nat → Nat}

theorem Stores.rootCount_eq (h : Stores uf P rank) : uf.rootCount = P.blocks := by
  rw [rootCount, Partition.blocks, h.size_eq]
  congr 1
  apply Finset.filter_congr
  intro x mem
  obtain ⟨p, found, link⟩ := h.link x (Finset.mem_range.mp mem)
  rw [found, Option.some_inj]
  exact link.self_iff

theorem rootCount_le_size (uf : UnionFind) : uf.rootCount ≤ uf.size :=
  (Finset.card_filter_le _ _).trans (Finset.card_range _).le

/-- The union-find stores a partition of `n` ids. -/
def Partitions (n : Nat) (uf : UnionFind) : Prop := ∃ P rank, Stores uf P rank ∧ P.size = n

theorem Partitions.rootCount_pos {n : Nat} (h : uf.Partitions n) (nonempty : 0 < n) :
    0 < uf.rootCount := by
  obtain ⟨P, rank, stores, rfl⟩ := h
  rw [stores.rootCount_eq]
  exact Partition.blocks_pos nonempty

/-- The union-find stores a partition of `n` ids, and its roots and staged
ids number `k` together. -/
def Tally (n k : Nat) (uf : UnionFind) : Prop := uf.Partitions n ∧ uf.rootCount + uf.staged.size = k

/-- A union that runs keeps the tally: it joins two blocks and stages the
loser, or changes no block and stages nothing. -/
theorem Tally.union {n k : Nat} (h : uf.Tally n k) {a b : Nat} {sort : String} {uf' : UnionFind}
    {r : Nat} (run : uf.union a b sort = .ok (uf', r)) : uf'.Tally n k := by
  obtain ⟨⟨P, rank, stores, size⟩, count⟩ := h
  obtain ⟨ha, hb⟩ : a < P.size ∧ b < P.size :=
    stores.knows_of_call (c := .union a b sort) (r := (uf', some r)) (by simp [call, run])
  obtain ⟨uf'', rank', res, stores', -, staged, -⟩ := stores.union ha hb sort
  rw [run, Except.ok.injEq, Prod.mk.injEq] at res
  obtain ⟨rfl, -⟩ := res
  refine ⟨⟨_, rank', stores', size⟩, ?_⟩
  rw [stores'.rootCount_eq, staged, ← count, stores.rootCount_eq]
  by_cases same : P.root a = P.root b
  · rw [if_pos same, Partition.merge_of_root_eq same]
  · rw [if_neg same, Array.size_push, ← Partition.blocks_merge ha hb same]
    omega

/-- Starting a round hands the staged ids over and keeps the roots. -/
theorem Partitions.advanceRound {n : Nat} (h : uf.Partitions n) :
    uf.advanceRound.Tally n uf.rootCount := by
  obtain ⟨P, rank, stores, size⟩ := h
  exact ⟨⟨P, rank, stores.advanceRound, size⟩, rfl⟩

/-- What `fuel` more rounds of a rebuild need of the union-find: it stores a
partition of `n` ids, it stages ids only if there are some, and there are
more rounds left than roots, or one round and nothing staged. -/
structure Budget (n fuel : Nat) (uf : UnionFind) : Prop where
  partitions : uf.Partitions n
  staged_or_ids : uf.staged = #[] ∨ 0 < n
  rounds : uf.rootCount < fuel ∨ uf.staged = #[] ∧ 0 < fuel

/-- A round that starts with something staged leaves a budget of one round
less: it stages what it demotes, so either it demoted a root or it leaves
nothing staged. -/
theorem Budget.next {n fuel : Nat} {uf' : UnionFind} (h : uf.Budget n (fuel + 1))
    (busy : uf.staged ≠ #[]) (tally : uf'.Tally n uf.rootCount) : uf'.Budget n fuel := by
  have ids : 0 < n := h.staged_or_ids.resolve_left busy
  have roots : uf.rootCount < fuel + 1 := h.rounds.resolve_right fun idle => busy idle.1
  have root := h.partitions.rootCount_pos ids
  obtain ⟨partitions, count⟩ := tally
  refine ⟨partitions, Or.inr ids, ?_⟩
  by_cases idle : uf'.staged = #[]
  · exact Or.inr ⟨idle, by omega⟩
  · have pos : 0 < uf'.staged.size := Array.size_pos_iff.mpr idle
    exact Or.inl (by omega)

/-- After a call that runs, the forest stages ids only if it has some: a
union, a find and a chase each need an id, and a new round stages nothing. -/
theorem Stores.call_staged (h : Stores uf P rank) {c : Call}
    {r : UnionFind × Option Nat} (run : uf.call c = some r) :
    ∃ rank', Stores r.1 (P.apply c) rank' ∧ (r.1.staged = #[] ∨ 0 < (P.apply c).size) := by
  have knows := h.knows_of_call run
  obtain ⟨uf', ans, rank', step, stores, -, cleared, -⟩ := h.call knows
  rw [run, Option.some_inj] at step
  subst step
  refine ⟨rank', stores, ?_⟩
  by_cases ids : 0 < P.size
  · exact Or.inr (ids.trans_le (P.apply_size_le c))
  · -- without ids, only making one or starting a round runs
    cases c with
    | makeSet => exact Or.inr (by simp [Partition.apply])
    | clearRecent => exact Or.inl (cleared rfl)
    | union a b sort => exact absurd knows.1 (by omega)
    | find x | findMut x => exact absurd (show x < P.size from knows) (by omega)

theorem Stores.runCalls_staged (h : Stores uf P rank) (idle : uf.staged = #[] ∨ 0 < P.size)
    {cs : List Call} {uf' : UnionFind} (run : uf.runCalls cs = some uf') :
    ∃ P' rank', Stores uf' P' rank' ∧ (uf'.staged = #[] ∨ 0 < P'.size) := by
  induction cs generalizing uf P rank with
  | nil =>
    cases run
    exact ⟨P, rank, h, idle⟩
  | cons c cs ih =>
    rw [UnionFind.runCalls, Option.bind_eq_some_iff] at run
    obtain ⟨r, step, rest⟩ := run
    obtain ⟨rank₁, stores₁, idle₁⟩ := h.call_staged step
    exact ih stores₁ idle₁ rest

/-- A union-find that calls built from the empty one has a budget of one
round more than its roots. -/
theorem budget_of_runCalls {cs : List Call} (run : UnionFind.empty.runCalls cs = some uf) :
    uf.Budget uf.size (uf.rootCount + 1) := by
  obtain ⟨P, rank, stores, idle⟩ := stores_empty.runCalls_staged (Or.inl rfl) run
  exact ⟨⟨P, rank, stores, stores.size_eq.symm⟩, by rwa [stores.size_eq], Or.inl (Nat.lt_succ_self _)⟩

end UnionFind

namespace RebuildM

/-- A union keeps the tally, and fails only with a fault. -/
theorem union_tally (n k : Nat) (a b : Value) (sort : String) :
    ⦃fun st => ⌜st.uf.Tally n k⌝⦄ RebuildM.union a b sort
    ⦃post⟨fun _ st => ⌜st.uf.Tally n k⌝, fun e _ => ⌜e ≠ .overflow⌝, fun _ => ⌜True⌝⟩⦄ := by
  mvcgen [RebuildM.union]
  split
  · mvcgen
    rename_i before _ _ _ _ run _
    exact before.union run
  · mvcgen
    simp

end RebuildM

namespace Func

/-- Writing a rebuilt row back keeps the tally: a merge expression is only
deferred, and a union merge is a union. -/
theorem mergeRow_tally (f : Func) (ts n k : Nat) (inputs : List Value) (out : Value)
    (subsumed : Bool) (ds : List Deferred) :
    ⦃fun st => ⌜st.uf.Tally n k⌝⦄ f.mergeRow ts inputs out subsumed ds
    ⦃post⟨fun _ st => ⌜st.uf.Tally n k⌝, fun e _ => ⌜e ≠ .overflow⌝, fun _ => ⌜True⌝⟩⦄ := by
  have union := RebuildM.union_tally n k
  mvcgen [mergeRow, union]
  simp

/-- A function's rebuild keeps the tally. -/
theorem rebuild_tally (f : Func) (ts n k : Nat) :
    ⦃fun st => ⌜st.uf.Tally n k⌝⦄ f.rebuild ts
    ⦃post⟨fun _ st => ⌜st.uf.Tally n k⌝, fun e _ => ⌜e ≠ .overflow⌝, fun _ => ⌜True⌝⟩⦄ := by
  have merge := mergeRow_tally f ts n k
  mvcgen [rebuild, canonicalRow_spec, merge]
  case inv1 =>
    exact post⟨fun _ st => ⌜st.uf.Tally n k⌝, fun e _ => ⌜e ≠ .overflow⌝, fun _ => ⌜True⌝⟩
  all_goals grind

end Func

/-- No function of the database merges colliding outputs by a merge expression. -/
def Database.NoMergeExprs (d : Database) : Prop := ∀ f ∈ d.funcs, ∀ p, f.merge ≠ .program p

namespace Database.NoMergeExprs

variable {d : Database} (h : d.NoMergeExprs)
include h

theorem func? {name : String} {f : Func} (found : d.func? name = some f) :
    ∀ p, f.merge ≠ .program p := by
  simp only [Database.func?, Option.bind_eq_bind, Option.bind_eq_some_iff] at found
  obtain ⟨i, -, get⟩ := found
  exact h f (Array.mem_of_getElem? get)

/-- Putting back a rebuilt table and union-find merges as before. -/
theorem rebuilt (i : Nat) (t : Table) (uf : UnionFind) :
    { d with funcs := d.funcs.modify i (fun g => { g with table := t }), unionFind := uf }.NoMergeExprs := by
  intro f mem p
  obtain ⟨j, get⟩ := Array.mem_iff_getElem?.mp mem
  rw [Array.getElem?_modify] at get
  split at get
  · obtain ⟨g, found, rfl⟩ := Option.map_eq_some_iff.mp get
    exact h g (Array.mem_of_getElem? found) p
  · exact h f (Array.mem_of_getElem? get) p

end Database.NoMergeExprs

namespace Engine

/-- Rebuilding the function at a position keeps the tally and the merges,
and fails only by an error or a fault. -/
theorem rebuildFuncAt_tally (n k i : Nat) :
    ⦃fun s => ⌜s.db.unionFind.Tally n k ∧ s.db.NoMergeExprs⌝⦄ rebuildFuncAt i
    ⦃post⟨fun _ s => ⌜s.db.unionFind.Tally n k ∧ s.db.NoMergeExprs⌝,
      fun e _ => ⌜e ≠ .overflow⌝⟩⦄ := by
  apply triple_of_run
  rintro S ⟨tally, plain⟩
  rcases found : S.db.funcs[i]? with _ | f
  · rw [rebuildFuncAt_run_none S i found]
    exact ⟨tally, plain⟩
  · rcases run : ((({ f with table := .empty }.rebuild S.db.timestamp).run).run
        ⟨f.table, S.db.unionFind⟩).run S.pool with msg | ⟨⟨r, st⟩, q⟩
    · have fault := rebuildFuncAt_run_fault S i found run
      revert fault
      rcases (rebuildFuncAt i).run.run S with ⟨_ | _, T⟩ <;> simp +contextual
    · rw [rebuildFuncAt_run_some S i found run]
      have after := RebuildM.run_of_triple (Func.rebuild_tally _ S.db.timestamp n k) tally run
      cases r with
      | error e => exact after
      | ok v => exact ⟨after, plain.rebuilt i st.table st.uf⟩

/-- Without merge expressions, running the merges of a round does nothing. -/
theorem applyMerges_tally (n k : Nat) (name : String) (ds : List Deferred) :
    ⦃fun s => ⌜s.db.unionFind.Tally n k ∧ s.db.NoMergeExprs⌝⦄ applyMerges name ds
    ⦃post⟨fun _ s => ⌜s.db.unionFind.Tally n k ∧ s.db.NoMergeExprs⌝,
      fun e _ => ⌜e ≠ .overflow⌝⟩⦄ := by
  mvcgen [-applyMerges_keeps, -applyMerges_acts, applyMerges]
  -- the loop over the merges is only reached for a merge expression
  case inv1 => exact post⟨fun _ _ => ⌜False⌝, fun _ _ => ⌜False⌝⟩
  all_goals grind [Database.NoMergeExprs.func?]

/-- **A rebuild round keeps the tally** when no function has a merge
expression: every union it makes either stages a root it demotes or changes
nothing, and it makes no id. -/
theorem rebuildRound_tally (n k : Nat) :
    ⦃fun s => ⌜s.db.unionFind.Tally n k ∧ s.db.NoMergeExprs⌝⦄ rebuildRound
    ⦃post⟨fun _ s => ⌜s.db.unionFind.Tally n k ∧ s.db.NoMergeExprs⌝,
      fun e _ => ⌜e ≠ .overflow⌝⟩⦄ := by
  have funcAt := rebuildFuncAt_tally n k
  have merges := applyMerges_tally n k
  mvcgen [-rebuildRound_keeps, -rebuildRound_acts, -rebuildFuncAt_keeps, -rebuildFuncAt_acts,
    -applyMerges_keeps, -applyMerges_acts, rebuildRound, funcAt, merges]
  case inv1 =>
    exact post⟨fun _ s => ⌜s.db.unionFind.Tally n k ∧ s.db.NoMergeExprs⌝, fun e _ => ⌜e ≠ .overflow⌝⟩
  case inv2 =>
    exact post⟨fun _ s => ⌜s.db.unionFind.Tally n k ∧ s.db.NoMergeExprs⌝, fun e _ => ⌜e ≠ .overflow⌝⟩
  all_goals grind

/-- One turn of the rebuild loop: it starts a round, and stops there if
nothing was staged, or runs the round and goes on with a round less. -/
theorem rebuildWithin_succ_run (fuel updates : Nat) (S : Session) :
    (rebuildWithin (fuel + 1) updates).run.run S =
      if S.db.unionFind.staged.isEmpty then (.ok updates, S.clearRound)
      else (rebuildRound >>= fun k => rebuildWithin fuel (updates + k)).run.run S.clearRound := by
  have step : (rebuildWithin (fuel + 1) updates).run.run S =
      (if !S.clearRound.db.unionFind.hasRecent then pure updates
        else rebuildRound >>= fun k => rebuildWithin fuel (updates + k) : Engine Nat).run.run S.clearRound :=
    rfl
  -- the round has dirty ids exactly when something was staged
  have recent : S.clearRound.db.unionFind.hasRecent = !S.db.unionFind.staged.isEmpty := rfl
  rw [step, recent, Bool.not_not]
  by_cases staged : S.db.unionFind.staged.isEmpty
  · rw [if_pos staged, if_pos staged]
    rfl
  · rw [if_neg staged, if_neg staged]

/-- **The rebuild loop ends within its budget** when no function has a merge
expression: each round but the last demotes a root, so rounds run out no
sooner than roots do. -/
theorem rebuildWithin_budget (n fuel updates : Nat) :
    ⦃fun s => ⌜s.db.unionFind.Budget n fuel ∧ s.db.NoMergeExprs⌝⦄ rebuildWithin fuel updates
    ⦃post⟨fun _ _ => ⌜True⌝, fun e _ => ⌜e ≠ .overflow⌝⟩⦄ := by
  induction fuel generalizing updates with
  | zero =>
    mvcgen [rebuildWithin]
    -- no budget leaves no round
    rename_i pre
    rcases pre.1.rounds with none | ⟨-, none⟩ <;> omega
  | succ fuel ih =>
    apply triple_of_run
    rintro S ⟨budget, plain⟩
    rw [rebuildWithin_succ_run]
    by_cases idle : S.db.unionFind.staged.isEmpty
    · rw [if_pos idle]
      trivial
    · -- the round starts with the roots of `S` and nothing staged
      have start : S.clearRound.db.unionFind.Tally n S.db.unionFind.rootCount :=
        budget.partitions.advanceRound
      have round := run_of_triple (rebuildRound_tally n _) ⟨start, plain⟩
      rw [if_neg idle, Logged.run_engine_bind]
      rcases ran : rebuildRound.run.run S.clearRound with ⟨_ | k, T⟩
      · rw [ran] at round
        exact round
      · rw [ran] at round
        obtain ⟨tally, plain'⟩ := round
        exact run_of_triple (ih (updates + k)) ⟨budget.next (by simpa using idle) tally, plain'⟩

/-- A rebuild allows a round more than there are ids, and a thousand more. -/
theorem rebuild_run (S : Session) :
    rebuild.run.run S = (rebuildWithin (S.db.unionFind.size + 1001) 0).run.run S := by
  -- unfolding by rewriting: a definitional check would unroll the thousand rounds
  rw [rebuild, Logged.run_engine_bind]
  rfl

/-- A rebuild that ends within its rounds ends the same way with more. -/
theorem rebuildWithin_add (extra : Nat) {fuel updates : Nat} {S : Session}
    (done : ((rebuildWithin fuel updates).run.run S).1 ≠ .error .overflow) :
    (rebuildWithin (fuel + extra) updates).run.run S = (rebuildWithin fuel updates).run.run S := by
  induction fuel generalizing updates S with
  | zero => exact absurd rfl done
  | succ fuel ih =>
    rw [Nat.add_right_comm, rebuildWithin_succ_run, rebuildWithin_succ_run]
    rw [rebuildWithin_succ_run] at done
    by_cases idle : S.db.unionFind.staged.isEmpty
    · rw [if_pos idle, if_pos idle]
    · rw [if_neg idle, Logged.run_engine_bind] at done
      rw [if_neg idle, if_neg idle, Logged.run_engine_bind, Logged.run_engine_bind]
      rcases ran : rebuildRound.run.run S.clearRound with ⟨_ | k, T⟩
      · rfl
      · rw [ran] at done
        exact ih done

/-- **A rebuild ends within one round more than there are roots** when no
function merges by a merge expression and the union-find was built by calls
from the empty one: it runs as `rebuildWithin` with that many rounds, which
does not run out of them. -/
theorem rebuild_rounds_le_roots {s : Session}
    (built : ∃ cs, UnionFind.empty.runCalls cs = some s.db.unionFind) (plain : s.db.NoMergeExprs) :
    ((rebuildWithin (s.db.unionFind.rootCount + 1) 0).run.run s).1 ≠ .error .overflow ∧
      rebuild.run.run s = (rebuildWithin (s.db.unionFind.rootCount + 1) 0).run.run s := by
  obtain ⟨cs, run⟩ := built
  have ends : ((rebuildWithin (s.db.unionFind.rootCount + 1) 0).run.run s).1 ≠ .error .overflow := by
    have outcome := run_of_triple (rebuildWithin_budget _ _ 0)
      ⟨UnionFind.budget_of_runCalls run, plain⟩
    revert outcome
    rcases (rebuildWithin (s.db.unionFind.rootCount + 1) 0).run.run s with ⟨_ | _, T⟩ <;>
      simp +contextual
  refine ⟨ends, ?_⟩
  have more : s.db.unionFind.size + 1001 =
      s.db.unionFind.rootCount + 1 + (s.db.unionFind.size - s.db.unionFind.rootCount + 1000) := by
    have := s.db.unionFind.rootCount_le_size
    omega
  rw [rebuild_run, more]
  exact rebuildWithin_add _ ends

theorem rebuild_after_a_union_within_roots :
    ∃ s : Session, s.db.unionFind.staged ≠ #[] ∧
      (∃ cs, UnionFind.empty.runCalls cs = some s.db.unionFind) ∧ s.db.NoMergeExprs ∧
      ((rebuildWithin (s.db.unionFind.rootCount + 1) 0).run.run s).1 ≠ .error .overflow ∧
      rebuild.run.run s = (rebuildWithin (s.db.unionFind.rootCount + 1) 0).run.run s := by
  let uf := (UnionFind.empty.runCalls [.makeSet, .makeSet, .union 0 1 "T"]).getD .empty
  have built : UnionFind.empty.runCalls [.makeSet, .makeSet, .union 0 1 "T"] = some uf := rfl
  let s : Session := { Session.initial with db := { Database.initial with unionFind := uf } }
  have plain : s.db.NoMergeExprs := fun f mem => absurd mem (by simp [s, Database.initial])
  exact ⟨s, by decide, ⟨_, built⟩, plain, rebuild_rounds_le_roots ⟨_, built⟩ plain⟩

end Engine

end Saturate
