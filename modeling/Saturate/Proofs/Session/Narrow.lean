import Saturate.Proofs.Session.Writes
import Saturate.Proofs.Query.Schedule

/-!
# Rows no wider than their function

Every entry of a function's table has at most as many inputs as the function. A call, a `set`, a
deletion and a subsumption write the canonical inputs of a call, the arguments cut to the
function's inputs (`Engine.canonicalInputs`), and a rebuild writes a row back with its canonical
inputs, cut the same way (`Func.canonicalRow`). So running actions and rebuilding keep every
table within its function's inputs (`Database.Narrow`), provided the index of functions sends
each function's name to it (`Database.NamesIndexed`): a rebuild writes the merges it deferred
back by the function's name.

Nothing here moves a function's name or inputs or the index of functions
(`Database.shape`), so what a later write needs of the arguments it was given
(`Database.ArgsFit`) can be read at the session where the run began.

The statements are triples over the engine, beside those of `Session.Acts`, with nothing said
of failures: a run that fails returns no report.
-/

open Std.Do

set_option mvcgen.warning false

namespace Saturate

/-! ### Tables -/

/-- Every entry of the table, stale ones included, has at most `n` inputs. -/
def Table.Within (n : Nat) (t : Table) : Prop := ∀ e ∈ t.entries.toList, e.inputs.length ≤ n

namespace Table.Within

variable {n : Nat} {t : Table}

theorem empty : Table.empty.Within n := by
  simp [Within, Table.empty]

theorem markStale (h : t.Within n) (i : Nat) : (t.markStale i).Within n := by
  intro e mem
  simp only [Table.markStale, Array.toList_modify] at mem
  rcases List.mem_modify_cases mem with old | ⟨e', at_i, rfl⟩
  · exact h e old
  · exact h e' (List.mem_of_getElem? at_i)

theorem append (h : t.Within n) {inputs : List Value} (fits : inputs.length ≤ n) (out : RowOutput) :
    (t.append inputs out).Within n := by
  intro e mem
  rw [Table.append_entries, List.mem_append, List.mem_singleton] at mem
  rcases mem with old | rfl
  · exact h e old
  · exact fits

theorem put (h : t.Within n) {inputs : List Value} (fits : inputs.length ≤ n) (value : Value)
    (ts : Nat) (subsumed : Bool) : (t.put inputs value ts subsumed).Within n := by
  rcases Table.put_cases t inputs value ts subsumed with same | ⟨sub, written | ⟨i, written⟩⟩
  · rwa [same]
  · rw [written]
    exact h.append fits _
  · rw [written]
    exact (h.markStale i).append fits _

theorem remove (h : t.Within n) (inputs : List Value) (ts : Nat) : (t.remove inputs ts).1.Within n := by
  rcases Table.remove_cases t inputs ts with same | ⟨i, entries, -⟩
  · rwa [same]
  · intro e mem
    rw [entries] at mem
    exact h.markStale i e mem

theorem rehash (h : t.Within n) : t.rehash.Within n := by
  intro e mem
  rw [Table.rehash_entries, Array.toList_filter, List.mem_filter] at mem
  exact h e mem.1

theorem subsume (h : t.Within n) {inputs : List Value} (fits : inputs.length ≤ n) (ts : Nat) :
    (t.subsume inputs ts).1.Within n := by
  unfold Table.subsume
  split
  · split
    · exact h
    · exact h.put fits _ _ _
  · exact h

end Table.Within

/-! ### The rebuild of a function -/

/-- The results of a map are as many as its arguments. -/
theorem PoolM.mapM_length {α β : Type} (f : α → PoolM β) (xs : List α) :
    ⦃fun _ => ⌜True⌝⦄ xs.mapM f ⦃post⟨fun ys _ => ⌜ys.length = xs.length⌝, fun _ => ⌜True⌝⟩⦄ := by
  intro p _
  rw [PoolM.wp_apply]
  split
  · exact PoolM.length_of_mapM ‹_›
  · trivial

namespace Func

/-- The canonical inputs of a row are cut to the function's inputs. -/
theorem canonicalRow_within (f : Func) (e : Entry) (st₁ : RebuildState) :
    ⦃fun st => ⌜st = st₁⌝⦄ f.canonicalRow e
    ⦃post⟨fun r st => ⌜st = st₁ ∧ r.1.length ≤ f.inputs.length⌝, fun _ _ => ⌜False⌝,
      fun _ => ⌜True⌝⟩⦄ := by
  mvcgen [canonicalRow, RebuildM.pool, PoolM.mapM_length]
  rename_i same _ ins _ counted
  -- the output's canonical form changes nothing the postcondition reads
  rw [PoolM.wp_apply]
  split
  · simp [same, counted]
  · trivial

/-- Writing a rebuilt row back keeps the table within `n` inputs, and the merges it defers carry
inputs no wider. -/
theorem mergeRow_within (f : Func) (ts n : Nat) (inputs : List Value) (out : Value) (subsumed : Bool)
    (ds : List Deferred) (fits : inputs.length ≤ n) :
    ⦃fun st => ⌜st.table.Within n ∧ ∀ d ∈ ds, d.inputs.length ≤ n⌝⦄
    f.mergeRow ts inputs out subsumed ds
    ⦃post⟨fun r st => ⌜st.table.Within n ∧ ∀ d ∈ r, d.inputs.length ≤ n⌝,
      fun _ st => ⌜st.table.Within n⌝, fun _ => ⌜True⌝⟩⦄ := by
  mvcgen [mergeRow, RebuildM.union_spec] <;> grind [Table.Within.put]

/-- **A function's rebuild keeps its table within the function's inputs**, and defers merges
with inputs no wider. -/
theorem rebuild_within (f : Func) (ts : Nat) {n : Nat} (fits : f.inputs.length ≤ n) :
    ⦃fun st => ⌜st.table.Within n⌝⦄ f.rebuild ts
    ⦃post⟨fun r st => ⌜st.table.Within n ∧ ∀ d ∈ r.2, d.inputs.length ≤ n⌝,
      fun _ st => ⌜st.table.Within n⌝, fun _ => ⌜True⌝⟩⦄ := by
  -- every write of the loop is bounded by the same `n`
  have merge := mergeRow_within f ts n
  mvcgen [rebuild, canonicalRow_within, merge]
  case inv1 =>
    exact post⟨fun acc st => ⌜st.table.Within n ∧ ∀ d ∈ acc.2.2, d.inputs.length ≤ n⌝,
      fun _ st => ⌜st.table.Within n⌝, fun _ => ⌜True⌝⟩
  all_goals grind [Table.Within.remove, Table.Within.rehash]

/-- A run of a function's rebuild that the pool lets finish leaves the table within the
function's inputs, and on success defers merges with inputs no wider. -/
theorem rebuild_run_within {f : Func} {ts : Nat} {start st : RebuildState} {p q : Pool}
    {r : Except Failure (Nat × List Deferred)} (h : start.table.Within f.inputs.length)
    (run : (((f.rebuild ts).run).run start).run p = .ok ((r, st), q)) :
    st.table.Within f.inputs.length ∧ ∀ v, r = .ok v → ∀ d ∈ v.2, d.inputs.length ≤ f.inputs.length := by
  have within := RebuildM.run_of_triple (rebuild_within f ts (le_refl _)) h run
  cases r with
  | error => exact ⟨within, fun _ ok => by cases ok⟩
  | ok v =>
    refine ⟨within.1, fun v' ok => ?_⟩
    cases ok
    exact within.2

end Func

/-! ### Databases -/

namespace Database

/-- Every table of the database is within its function's inputs. -/
def Narrow (d : Database) : Prop := ∀ f ∈ d.funcs.toList, f.table.Within f.inputs.length

/-- The index of functions sends the name of every function to its place. -/
def NamesIndexed (d : Database) : Prop :=
  ∀ i f, d.funcs[i]? = some f → d.funcIndex.get? f.name = some i

/-- Inputs that a write to the function of a name, if there is one, keeps within its inputs. -/
def ArgsFit (d : Database) (name : String) (args : List Value) : Prop :=
  ∀ f, d.func? name = some f → args.length ≤ f.inputs.length

/-- The index of functions with the name and inputs of each function: what no write moves. -/
def shape (d : Database) : Std.HashMap String Nat × List (String × List SortInfo) :=
  (d.funcIndex, d.funcs.toList.map fun f => (f.name, f.inputs))

theorem func?_eq_some {d : Database} {name : String} {f : Func} :
    d.func? name = some f ↔ ∃ i, d.funcIndex.get? name = some i ∧ d.funcs[i]? = some f := by
  simp [func?, Option.bind_eq_some_iff]

/-- Databases of one shape have functions of the same inputs under every name. -/
theorem inputs_func?_of_shape {d d' : Database} (same : d'.shape = d.shape) (name : String) :
    (d'.func? name).map Func.inputs = (d.func? name).map Func.inputs := by
  have index : d'.funcIndex = d.funcIndex := congrArg Prod.fst same
  have sig : ∀ i : Nat, (d'.funcs[i]?).map (fun f : Func => (f.name, f.inputs)) =
      (d.funcs[i]?).map (fun f : Func => (f.name, f.inputs)) := fun i => by
    have at_i := congrArg (fun l : List (String × List SortInfo) => l[i]?) (congrArg Prod.snd same)
    simpa [shape] using at_i
  simp only [func?, index]
  cases d.funcIndex.get? name with
  | none => rfl
  | some i => simpa [Function.comp_def] using congrArg (Option.map Prod.snd) (sig i)

theorem ArgsFit.of_shape {d d' : Database} (same : d'.shape = d.shape) {name : String}
    {args : List Value} (fit : d.ArgsFit name args) : d'.ArgsFit name args := by
  intro f' found
  have inputs := inputs_func?_of_shape same name
  rw [found] at inputs
  obtain ⟨f, found, eq⟩ := Option.map_eq_some_iff.mp inputs.symm
  exact eq ▸ fit f found

theorem NamesIndexed.of_shape {d d' : Database} (same : d'.shape = d.shape) (h : d.NamesIndexed) :
    d'.NamesIndexed := by
  intro i f' found
  have sig := congrArg (fun l : List (String × List SortInfo) => l[i]?) (congrArg Prod.snd same)
  simp only [shape, List.getElem?_map, Array.getElem?_toList, found] at sig
  obtain ⟨f, found, eq⟩ := Option.map_eq_some_iff.mp sig.symm
  have named : f.name = f'.name := congrArg Prod.fst eq
  have index : d'.funcIndex = d.funcIndex := congrArg Prod.fst same
  rw [index, ← named]
  exact h i f found

/-- Where the index sends each name to its function, the function at a place is the one of its
name. -/
theorem NamesIndexed.func?_name {d : Database} (h : d.NamesIndexed) {i : Nat} {f : Func}
    (found : d.funcs[i]? = some f) : d.func? f.name = some f :=
  func?_eq_some.mpr ⟨i, h i f found, found⟩

/-- A change of functions that keeps their names and inputs keeps the shape. -/
theorem shape_modify (d : Database) (i : Nat) {φ : Func → Func}
    (frame : ∀ f : Func, { φ f with table := f.table } = f) :
    { d with funcs := d.funcs.modify i φ }.shape = d.shape := by
  have sig : ∀ f, ((φ f).name, (φ f).inputs) = (f.name, f.inputs) := fun f => by
    have kept := congrArg (fun g : Func => (g.name, g.inputs)) (frame f)
    exact kept
  simp only [shape, Prod.mk.injEq, true_and]
  apply List.ext_getElem?
  intro j
  simp only [List.getElem?_map, Array.getElem?_toList, Array.getElem?_modify]
  split <;> cases d.funcs[j]? <;> simp [sig]

theorem Write.shape_eq {d d' : Database} (w : d.Write d') : d'.shape = d.shape := by
  cases w with
  | table i φ frame => exact shape_modify d i frame
  | unionFind => rfl

theorem Writes.shape_eq {d d' : Database} (w : d.Writes d') : d'.shape = d.shape := by
  induction w with
  | refl => rfl
  | tail _ step ih => exact step.shape_eq.trans ih

theorem narrow_modify {d : Database} (narrow : d.Narrow) {i : Nat} {φ : Func → Func}
    (h : ∀ f, d.funcs[i]? = some f → (φ f).table.Within (φ f).inputs.length) :
    { d with funcs := d.funcs.modify i φ }.Narrow := by
  intro g mem
  simp only [Array.toList_modify] at mem
  rcases List.mem_modify_cases mem with old | ⟨f, at_i, rfl⟩
  · exact narrow g old
  · exact h f (by rwa [Array.getElem?_toList] at at_i)

/-- A change of the function of a name that keeps its table within its inputs keeps the database
narrow. -/
theorem Narrow.modifyFunc {d : Database} (narrow : d.Narrow) (name : String) {φ : Func → Func}
    (h : ∀ f, d.func? name = some f → (φ f).table.Within (φ f).inputs.length) :
    (d.modifyFunc name φ).Narrow := by
  unfold Database.modifyFunc
  split
  · rename_i i found
    exact narrow_modify narrow fun f at_i => h f (func?_eq_some.mpr ⟨i, found, at_i⟩)
  · exact narrow

end Database

namespace Func

variable {f : Func}

theorem put_within (h : f.table.Within f.inputs.length) {args : List Value}
    (fits : args.length ≤ f.inputs.length) (v : Value) (ts : Nat) :
    (f.put args v ts).table.Within (f.put args v ts).inputs.length :=
  h.put fits v ts false

theorem remove_within (h : f.table.Within f.inputs.length) (args : List Value) (ts : Nat) :
    (f.remove args ts).table.Within (f.remove args ts).inputs.length := by
  simp only [Func.remove]
  split
  · exact (h.remove args ts).rehash
  · exact h.remove args ts

theorem subsume_within (h : f.table.Within f.inputs.length) {args : List Value}
    (fits : args.length ≤ f.inputs.length) (ts : Nat) :
    (f.subsume args ts).table.Within (f.subsume args ts).inputs.length :=
  h.subsume fits ts

end Func

theorem Database.mem_of_func? {d : Database} {name : String} {f : Func} (found : d.func? name = some f) :
    f ∈ d.funcs.toList := by
  obtain ⟨i, -, at_i⟩ := Database.func?_eq_some.mp found
  exact List.mem_of_getElem? (by rwa [Array.getElem?_toList])

/-- Inputs no more than those of the function of a name fit it. -/
theorem Database.argsFit_of_func? {d : Database} {name : String} {f : Func} (found : d.func? name = some f)
    {args : List Value} (fits : args.length ≤ f.inputs.length) : d.ArgsFit name args := by
  intro g found'
  rw [found, Option.some.injEq] at found'
  exact found' ▸ fits

namespace Session.Acts

variable {s₀ s : Session}

theorem shape_eq (h : s₀.Acts s) : s.db.shape = s₀.db.shape :=
  h.writes.shape_eq

/-- Inputs that fit the function of a name in one session that a run reached fit it in every
other. -/
theorem argsFit {t : Session} (h : s₀.Acts s) (h' : s₀.Acts t) {name : String} {args : List Value}
    (fit : s.db.ArgsFit name args) : t.db.ArgsFit name args :=
  fit.of_shape (h'.shape_eq.trans h.shape_eq.symm)

end Session.Acts

/-- Success and every error leave a session acted on from `s₀` whose tables are within their
functions' inputs. -/
abbrev Session.NarrowAfter {α : Type} (s₀ : Session) :
    PostCond α (.except Failure (.arg Session .pure)) :=
  post⟨fun _ s => ⌜s₀.Acts s ∧ s.db.Narrow⌝, fun e s => ⌜e.IsError → s₀.Acts s ∧ s.db.Narrow⌝⟩

namespace Engine

variable (s₀ : Session)

/-! ### Writes of the engine -/

theorem modifyFunc_put_narrow (name : String) (args : List Value) (v : Value) (ts : Nat) :
    ⦃fun s => ⌜s₀.Acts s ∧ s.db.Narrow ∧ s.db.timestamp = ts ∧ s.db.ArgsFit name args⌝⦄
    modifyFunc name (·.put args v ts) ⦃⇓ _ s => ⌜s₀.Acts s ∧ s.db.Narrow⌝⦄ := by
  mvcgen [-modifyFunc_put_acts, modifyFunc, modifyDb]
  rename_i s pre _
  obtain ⟨acts, narrow, rfl, fit⟩ := pre
  refine ⟨acts.modifyFunc name (Func.tableChange_put args v _), narrow.modifyFunc name fun f found => ?_⟩
  exact Func.put_within (narrow f (Database.mem_of_func? found)) (fit f found) v _

theorem modifyFunc_remove_narrow (name : String) (args : List Value) (ts : Nat) :
    ⦃fun s => ⌜s₀.Acts s ∧ s.db.Narrow ∧ s.db.timestamp = ts⌝⦄
    modifyFunc name (·.remove args ts) ⦃⇓ _ s => ⌜s₀.Acts s ∧ s.db.Narrow⌝⦄ := by
  mvcgen [-modifyFunc_remove_acts, modifyFunc, modifyDb]
  rename_i s pre _
  obtain ⟨acts, narrow, rfl⟩ := pre
  refine ⟨acts.modifyFunc name (Func.tableChange_remove args _), narrow.modifyFunc name fun f found => ?_⟩
  exact Func.remove_within (narrow f (Database.mem_of_func? found)) args _

theorem modifyFunc_subsume_narrow (name : String) (args : List Value) (ts : Nat) :
    ⦃fun s => ⌜s₀.Acts s ∧ s.db.Narrow ∧ s.db.timestamp = ts ∧ s.db.ArgsFit name args⌝⦄
    modifyFunc name (·.subsume args ts) ⦃⇓ _ s => ⌜s₀.Acts s ∧ s.db.Narrow⌝⦄ := by
  mvcgen [-modifyFunc_subsume_acts, modifyFunc, modifyDb]
  rename_i s pre _
  obtain ⟨acts, narrow, rfl, fit⟩ := pre
  refine ⟨acts.modifyFunc name (Func.tableChange_subsume args _), narrow.modifyFunc name fun f found => ?_⟩
  exact Func.subsume_within (narrow f (Database.mem_of_func? found)) (fit f found) _

/-! ### Reading and the union-find -/

theorem canonical_narrow (sort : SortInfo) (v : Value) :
    ⦃fun s => ⌜s₀.Acts s ∧ s.db.Narrow⌝⦄ canonical sort v ⦃s₀.NarrowAfter⦄ := by
  mvcgen [-canonical_keeps, -canonical_acts, canonical] <;> grind

theorem find_narrow (v : Value) :
    ⦃fun s => ⌜s₀.Acts s ∧ s.db.Narrow⌝⦄ find v ⦃s₀.NarrowAfter⦄ := by
  mvcgen [-find_keeps, -find_acts, -canonical_keeps, -canonical_acts, find, canonical_narrow]

theorem withUnionFind_narrow {α : Type} (f : UnionFind → Except Failure (UnionFind × α)) :
    ⦃fun s => ⌜s₀.Acts s ∧ s.db.Narrow⌝⦄ withUnionFind f ⦃s₀.NarrowAfter⦄ := by
  mvcgen [-withUnionFind_keeps, -withUnionFind_acts, withUnionFind] <;> grind [Database.Narrow]

theorem unionValues_narrow (a b : Value) (sort : String) :
    ⦃fun s => ⌜s₀.Acts s ∧ s.db.Narrow⌝⦄ unionValues a b sort ⦃s₀.NarrowAfter⦄ := by
  mvcgen [-unionValues_keeps, -unionValues_acts, -withUnionFind_keeps, -withUnionFind_acts, unionValues,
    withUnionFind_narrow]

theorem makeClass_narrow (sort : String) :
    ⦃fun s => ⌜s₀.Acts s ∧ s.db.Narrow⌝⦄ makeClass sort ⦃s₀.NarrowAfter⦄ := by
  mvcgen [-makeClass_keeps, -makeClass_acts, -withUnionFind_keeps, -withUnionFind_acts, makeClass,
    withUnionFind_narrow]

/-! ### Actions -/

theorem mapM_narrow {α β : Type} (f : α → Engine β) (xs : List α)
    (step : ∀ x, ⦃fun s => ⌜s₀.Acts s ∧ s.db.Narrow⌝⦄ f x ⦃s₀.NarrowAfter⦄) :
    ⦃fun s => ⌜s₀.Acts s ∧ s.db.Narrow⌝⦄ xs.mapM f
    ⦃post⟨fun ys s => ⌜(s₀.Acts s ∧ s.db.Narrow) ∧ ys.length = xs.length⌝,
      fun e s => ⌜e.IsError → s₀.Acts s ∧ s.db.Narrow⌝⟩⦄ := by
  induction xs with
  | nil => mvcgen [List.mapM_nil]
  | cons x xs ih =>
    have hx := step x
    rw [List.mapM_cons]
    mvcgen [hx, ih]
    all_goals grind

/-- The canonical inputs of a call are cut to the function's inputs. -/
theorem canonicalInputs_narrow (f : Func) (args : List Value) :
    ⦃fun s => ⌜s₀.Acts s ∧ s.db.Narrow⌝⦄ canonicalInputs f args
    ⦃post⟨fun ins s => ⌜(s₀.Acts s ∧ s.db.Narrow) ∧ ins.length ≤ f.inputs.length⌝,
      fun e s => ⌜e.IsError → s₀.Acts s ∧ s.db.Narrow⌝⟩⦄ := by
  have mapped := mapM_narrow s₀ (fun x : Value × SortInfo => canonical x.2 x.1) (args.zip f.inputs)
    fun x => canonical_narrow s₀ x.2 x.1
  mvcgen [-canonicalInputs_keeps, -canonicalInputs_acts, canonicalInputs, mapped]
  all_goals grind

/-- Every run of nested programs keeps the tables within their functions' inputs. -/
def RunnerNarrow (run : Runner) : Prop :=
  ∀ (t : Session) (p : Program) (subst : Array Value),
    ⦃fun s => ⌜t.Acts s ∧ s.db.Narrow⌝⦄ run p subst ⦃t.NarrowAfter⦄

variable {run : Runner}

theorem callFunctionWith_narrow (hrun : RunnerNarrow run) (name : String) (args : List Value) :
    ⦃fun s => ⌜s₀.Acts s ∧ s.db.Narrow⌝⦄ callFunctionWith run name args ⦃s₀.NarrowAfter⦄ := by
  have nested := hrun s₀
  mvcgen [-callFunctionWith_keeps, -callFunctionWith_acts, -Engine.modifyFunc,
    -canonicalInputs_keeps, -canonicalInputs_acts, -makeClass_keeps, -makeClass_acts,
    -modifyFunc_put_acts, callFunctionWith, nested, canonicalInputs_narrow, makeClass_narrow,
    modifyFunc_put_narrow]
  all_goals grind [Database.argsFit_of_func?, Session.Acts.argsFit]

theorem performSetWith_narrow (hrun : RunnerNarrow run) (name : String) (args : List Value)
    (new : Value) :
    ⦃fun s => ⌜s₀.Acts s ∧ s.db.Narrow⌝⦄ performSetWith run name args new ⦃s₀.NarrowAfter⦄ := by
  have nested := hrun s₀
  mvcgen [-performSetWith_keeps, -performSetWith_acts, -Engine.modifyFunc, -canonicalInputs_keeps,
    -canonicalInputs_acts, -canonical_keeps, -canonical_acts, -unionValues_keeps, -unionValues_acts,
    -modifyFunc_put_acts, performSetWith, nested, canonicalInputs_narrow, canonical_narrow,
    unionValues_narrow, modifyFunc_put_narrow]
  all_goals grind [Database.argsFit_of_func?, Session.Acts.argsFit]

theorem performChangeWith_narrow (hrun : RunnerNarrow run) (c : Change) (name : String)
    (args : List Value) :
    ⦃fun s => ⌜s₀.Acts s ∧ s.db.Narrow⌝⦄ performChangeWith run c name args ⦃s₀.NarrowAfter⦄ := by
  have called := callFunctionWith_narrow s₀ hrun
  mvcgen [-performChangeWith_keeps, -performChangeWith_acts, -Engine.modifyFunc,
    -callFunctionWith_keeps, -callFunctionWith_acts, -canonicalInputs_keeps, -canonicalInputs_acts,
    -modifyFunc_remove_acts, -modifyFunc_subsume_acts, performChangeWith, called,
    canonicalInputs_narrow, modifyFunc_remove_narrow, modifyFunc_subsume_narrow]
  all_goals grind [Database.argsFit_of_func?, Session.Acts.argsFit]

theorem applyPrimWith_narrow (hrun : RunnerNarrow run) (p : Prim) (args : List Value) :
    ⦃fun s => ⌜s₀.Acts s ∧ s.db.Narrow⌝⦄ applyPrimWith run p args ⦃s₀.NarrowAfter⦄ := by
  have called := callFunctionWith_narrow s₀ hrun
  mvcgen [-applyPrimWith_keeps, -applyPrimWith_acts, -callFunctionWith_keeps,
    -callFunctionWith_acts, applyPrimWith, called]
  all_goals grind

theorem stepWith_narrow (hrun : RunnerNarrow run) (subst stack : Array Value) (i : Instr) :
    ⦃fun s => ⌜s₀.Acts s ∧ s.db.Narrow⌝⦄ stepWith run subst stack i ⦃s₀.NarrowAfter⦄ := by
  have called := callFunctionWith_narrow s₀ hrun
  have applied := applyPrimWith_narrow s₀ hrun
  have set := performSetWith_narrow s₀ hrun
  have changed := performChangeWith_narrow s₀ hrun
  mvcgen [-stepWith_keeps, -stepWith_acts, -callFunctionWith_keeps, -callFunctionWith_acts,
    -applyPrimWith_keeps, -applyPrimWith_acts, -performSetWith_keeps, -performSetWith_acts,
    -performChangeWith_keeps, -performChangeWith_acts, -unionValues_keeps, -unionValues_acts,
    stepWith, called, applied, set, changed, unionValues_narrow]
  all_goals grind

theorem runWithin_narrow (fuel : Nat) : RunnerNarrow (runWithin fuel) := by
  induction fuel with
  | zero =>
    intro t p subst
    mvcgen [runWithin]
    simp
  | succ fuel ih =>
    intro t p subst
    have step := stepWith_narrow t ih
    mvcgen [-stepWith_keeps, -stepWith_acts, runWithin, step]
    case inv1 => exact t.NarrowAfter
    all_goals grind

theorem runProgram_narrow (prog : Program) (subst : Array Value) :
    ⦃fun s => ⌜s₀.Acts s ∧ s.db.Narrow⌝⦄ runProgram prog subst ⦃s₀.NarrowAfter⦄ :=
  runWithin_narrow depthLimit s₀ prog subst

/-! ### Rebuilding -/

/-- The rebuild of the function at `i` keeps every table within its function's inputs, and
defers merges with inputs no wider than those of the function at `i`. -/
theorem rebuildFuncAt_narrow (i : Nat) :
    ⦃fun s => ⌜s₀.Acts s ∧ s.db.Narrow⌝⦄ rebuildFuncAt i
    ⦃post⟨fun r s => ⌜(s₀.Acts s ∧ s.db.Narrow) ∧
        ∀ d ∈ r.2, ∃ f, s.db.funcs[i]? = some f ∧ d.inputs.length ≤ f.inputs.length⌝,
      fun e s => ⌜e.IsError → s₀.Acts s ∧ s.db.Narrow⌝⟩⦄ := by
  apply triple_of_run
  rintro S ⟨acts, narrow⟩
  rcases found : S.db.funcs[i]? with _ | f
  · rw [rebuildFuncAt_run_none S i found]
    exact ⟨⟨acts, narrow⟩, by simp⟩
  · rcases run : ((({ f with table := .empty }.rebuild S.db.timestamp).run).run
        ⟨f.table, S.db.unionFind⟩).run S.pool with msg | ⟨⟨r, st⟩, q⟩
    · have fault := rebuildFuncAt_run_fault S i found run
      revert fault
      rcases (rebuildFuncAt i).run.run S with ⟨_ | _, T⟩ <;> simp +contextual
    · rw [rebuildFuncAt_run_some S i found run]
      have restored := acts.rebuiltAt found (Func.rebuild_run_reaches run) (PoolM.run_grows run) st.uf
      have within := Func.rebuild_run_within (narrow f (List.mem_of_getElem? (by
        rwa [Array.getElem?_toList]))) run
      -- the table put back is the only one that moved
      have narrowed : ({ S.db with funcs := S.db.funcs.modify i fun g => { g with table := st.table } }
          : Database).Narrow :=
        Database.narrow_modify narrow fun f' at_i => by
          rw [found, Option.some.injEq] at at_i
          exact at_i ▸ within.1
      have put_back : (S.db.funcs.modify i fun g => { g with table := st.table })[i]? =
          some { f with table := st.table } := by
        simp [Array.getElem?_modify, found]
      cases r with
      | error => exact fun _ => ⟨restored, narrowed⟩
      | ok v => exact ⟨⟨restored, narrowed⟩, fun d mem => ⟨_, put_back, within.2 v rfl d mem⟩⟩

theorem applyMerges_narrow (name : String) (ds : List Deferred) :
    ⦃fun s => ⌜s₀.Acts s ∧ s.db.Narrow ∧ ∀ d ∈ ds, s.db.ArgsFit name d.inputs⌝⦄ applyMerges name ds
    ⦃s₀.NarrowAfter⦄ := by
  mvcgen [-applyMerges_keeps, -applyMerges_acts, -Engine.modifyFunc, -runProgram_keeps,
    -runProgram_acts, -modifyFunc_put_acts, applyMerges, runProgram_narrow, modifyFunc_put_narrow]
  case inv1 => exact s₀.NarrowAfter
  all_goals grind [Session.Acts.argsFit]

end Engine

/-- Inputs no wider than those of the function at `i` fit the function of its name. -/
theorem Database.argsFit_name {d : Database} (names : d.NamesIndexed) {i : Nat} {f : Func}
    (found : d.funcs[i]? = some f) {args : List Value} (fits : args.length ≤ f.inputs.length) :
    d.ArgsFit (((d.funcs[i]?).map Func.name).getD "") args := by
  rw [found]
  exact argsFit_of_func? (names.func?_name found) fits

theorem Database.narrow_unionFind (d : Database) (uf : UnionFind) :
    ({ d with unionFind := uf } : Database).Narrow ↔ d.Narrow := Iff.rfl

theorem Database.namesIndexed_unionFind (d : Database) (uf : UnionFind) :
    ({ d with unionFind := uf } : Database).NamesIndexed ↔ d.NamesIndexed := Iff.rfl

theorem Session.Acts.namesIndexed {s₀ s : Session} (h : s₀.Acts s) (names : s₀.db.NamesIndexed) :
    s.db.NamesIndexed :=
  names.of_shape h.shape_eq

namespace Engine

variable (s₀ : Session)

theorem rebuildRound_narrow :
    ⦃fun s => ⌜s₀.Acts s ∧ s.db.Narrow ∧ s₀.db.NamesIndexed⌝⦄ rebuildRound ⦃s₀.NarrowAfter⦄ := by
  mvcgen [-rebuildRound_keeps, -rebuildRound_acts, -rebuildFuncAt_keeps, -rebuildFuncAt_acts,
    -applyMerges_keeps, -applyMerges_acts, rebuildRound, rebuildFuncAt_narrow, applyMerges_narrow]
  case inv1 =>
    -- the merges deferred so far fit the functions they are named for
    exact post⟨fun acc s => ⌜(s₀.Acts s ∧ s.db.Narrow) ∧
        ∀ name ds, (name, ds) ∈ acc.2.2 → ∀ d ∈ ds, s₀.db.ArgsFit name d.inputs⌝,
      fun e s => ⌜e.IsError → s₀.Acts s ∧ s.db.Narrow⌝⟩
  case inv2 =>
    exact post⟨fun _ s => ⌜s₀.Acts s ∧ s.db.Narrow⌝, fun e s => ⌜e.IsError → s₀.Acts s ∧ s.db.Narrow⌝⟩
  all_goals simp only [SPred.down_pure] at *
  case vc6.step.pre =>
    -- the merges of the current function were deferred by the first loop
    rename_i inv pref cur suff listed _ _ now
    have deferred : cur ∈ pref ++ cur :: suff := by simp
    rw [← listed] at deferred
    refine ⟨.refl _, now.2, fun d mem => ?_⟩
    exact Session.Acts.argsFit (.refl s₀) now.1 (inv.2 cur.1 cur.2 (Array.mem_toList_iff.mp deferred) d mem)
  all_goals grind [Session.Acts.argsFit, Session.Acts.namesIndexed, Database.argsFit_name]

theorem rebuildWithin_narrow (fuel updates : Nat) :
    ⦃fun s => ⌜s₀.Acts s ∧ s.db.Narrow ∧ s₀.db.NamesIndexed⌝⦄ rebuildWithin fuel updates
    ⦃s₀.NarrowAfter⦄ := by
  induction fuel generalizing updates with
  | zero =>
    mvcgen [rebuildWithin]
    simp
  | succ fuel ih =>
    mvcgen [-rebuildRound_keeps, -rebuildRound_acts, rebuildWithin, ih, rebuildRound_narrow]
    all_goals grind [Session.Acts.namesIndexed, Database.narrow_unionFind, Database.namesIndexed_unionFind]

/-- **A rebuild keeps every table within its function's inputs**, where the index of functions
sends each name to its function. -/
theorem rebuild_narrow :
    ⦃fun s => ⌜s₀.Acts s ∧ s.db.Narrow ∧ s₀.db.NamesIndexed⌝⦄ rebuild ⦃s₀.NarrowAfter⦄ := by
  mvcgen [-rebuild_spec, -rebuild_acts, rebuild, rebuildWithin_narrow]

end Engine

end Saturate
