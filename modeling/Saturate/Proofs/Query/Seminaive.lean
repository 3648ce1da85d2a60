import Mathlib.Data.Nat.Find
import Saturate.Proofs.Query.Join
import Saturate.Proofs.Table.Index

/-!
Semi-naive evaluation finds exactly the new matches.

Run from a last-run time `t > 0`, a query makes one pass per table atom `i`:
the atoms before `i` read only rows written before `t`, atom `i` only rows
written at `t` or later, and the atoms after it every row. A pass finds the
matches whose witnessing rows lie in those ranges (`MatchesIn`), and since a
table has one live row per inputs, the witnessing row of each atom is unique,
so a match lies in the pass of the first atom whose witnessing row is new and
in no other (`pass_unique`, `pass_of_new`).

* `passIn_spec`: a pass with any ranges either finds an atom with nothing
  selected, or searches from one nonempty selection per atom.
* `searchIn_adds`: the search of a pass adds exactly the matches whose
  witnessing rows lie in the pass's ranges.
* `run_finds_exactly_the_new_matches`: the run from any last-run time finds
  each new match once, only new matches, and all of them unless it stopped
  at its limit; from scratch every match is new.
-/

namespace Saturate

open PoolM CompiledQuery

/-! ### Selections from a range of timestamps -/

/-- A table atom's selection at pool `P` from the rows of its table written in
the range `x.2`: the rows, projected, that pass the tests the atom computed
from some pool that grew into `P`. -/
def SelectedIn (table : String → Table) (includeSubsumed : Bool) (vars : List String) (P : Pool)
    (x : TableAtom × Nat × Option Nat) (sel : List (List Value)) : Prop :=
  ∃ tests p p', x.1.tests.run p = .ok (tests, p') ∧ p'.Grows P ∧
    sel = x.1.select vars tests ((table x.1.func).rowsBetween x.2.1 x.2.2 includeSubsumed)

theorem SelectedIn.grow {table : String → Table} {includeSubsumed : Bool} {vars : List String}
    {P Q : Pool} {x : TableAtom × Nat × Option Nat} {sel : List (List Value)}
    (h : SelectedIn table includeSubsumed vars P x sel) (grows : P.Grows Q) :
    SelectedIn table includeSubsumed vars Q x sel := by
  obtain ⟨tests, p, p', ran, grown, rfl⟩ := h
  exact ⟨tests, p, p', ran, grown.trans grows, rfl⟩

/-- What picking the selections of the atoms with their ranges `xs`, in order,
gives at pool `P`: nothing, when some atom selects nothing, or a nonempty
selection of each, in the same order. -/
def PickedIn (table : String → Table) (includeSubsumed : Bool) (vars : List String)
    (xs : List (TableAtom × Nat × Option Nat)) (P : Pool) :
    Option (Array (List (List Value))) → Prop
  | none => ∃ x ∈ xs, SelectedIn table includeSubsumed vars P x []
  | some nodes => ∃ sels : List (List (List Value)), nodes = sels.toArray ∧
      List.Forall₂ (fun x sel => SelectedIn table includeSubsumed vars P x sel ∧ sel ≠ []) xs sels

section Pick

variable {q : CompiledQuery} {table : String → Table} {includeSubsumed : Bool}

/-- One pick keeps what `PickedIn` says, with the atom added to those read, at
the pool it reached; it only adds names. -/
theorem pickIn_spec {pre : List (TableAtom × Nat × Option Nat)}
    {acc acc' : Option (Array (List (List Value)))} {x : TableAtom × Nat × Option Nat} {P P' : Pool}
    (picked : PickedIn table includeSubsumed q.vars pre P acc)
    (ran : (q.pick table includeSubsumed acc x).run P = .ok (acc', P')) :
    PickedIn table includeSubsumed q.vars (pre ++ [x]) P' acc' ∧ P'.tables = P.tables := by
  unfold CompiledQuery.pick at ran
  cases acc with
  | none =>
    obtain ⟨rfl, rfl⟩ := run_pure_inv ran
    obtain ⟨x', mem, selected⟩ := picked
    exact ⟨⟨x', List.mem_append_left _ mem, selected⟩, rfl⟩
  | some nodes =>
    dsimp only at ran
    obtain ⟨tests, P₁, tested, rest⟩ := run_bind_ok ran
    have tables : P₁.tables = P.tables := x.1.tests_keepsTables P tests P₁ tested
    have selected : SelectedIn table includeSubsumed q.vars P₁ x
        (x.1.select q.vars tests ((table x.1.func).rowsBetween x.2.1 x.2.2 includeSubsumed)) :=
      ⟨tests, P, P₁, tested, .refl _, rfl⟩
    split at rest
    · rename_i empty
      obtain ⟨rfl, rfl⟩ := run_pure_inv rest
      exact ⟨⟨x, by simp, List.isEmpty_iff.mp empty ▸ selected⟩, tables⟩
    · rename_i nonempty
      obtain ⟨rfl, rfl⟩ := run_pure_inv rest
      obtain ⟨sels, rfl, each⟩ := picked
      refine ⟨⟨sels ++ [x.1.select q.vars tests
        ((table x.1.func).rowsBetween x.2.1 x.2.2 includeSubsumed)], by simp, ?_⟩, tables⟩
      refine List.forall₂_append_singleton_iff.mpr ⟨?_, selected,
        fun empty => nonempty (List.isEmpty_iff.mpr empty)⟩
      exact each.imp fun _ _ held => ⟨held.1.grow (run_grows tested), held.2⟩

/-- The picks of a pass over all the atoms with their ranges: `PickedIn` of
them, at a pool with the same container tables. -/
theorem picksIn_spec {ranges : List (Nat × Option Nat)} {p p' : Pool}
    {res : Option (Array (List (List Value)))}
    (ran : ((q.atoms.zip ranges).foldlM (q.pick table includeSubsumed) (some #[])).run p =
      .ok (res, p')) :
    PickedIn table includeSubsumed q.vars (q.atoms.zip ranges) p' res ∧ p'.tables = p.tables := by
  refine foldlM_induction_on
    (fun pre acc P => PickedIn table includeSubsumed q.vars pre P acc ∧ P.tables = p.tables)
    (fun _ _ _ _ _ _ _ held ran => ⟨(pickIn_spec held.1 ran).1, (pickIn_spec held.1 ran).2.trans held.2⟩)
    ?_ ran
  exact ⟨⟨[], rfl, .nil⟩, rfl⟩

/-- **What a pass does.** With atom `i` reading the rows of `ranges[i]`, it
either finds an atom with nothing selected and adds nothing, or searches from
one nonempty selection per atom, in order, from a pool that only gained names. -/
theorem passIn_spec {ranges : List (Nat × Option Nat)} {found found' : Found} {p P : Pool}
    (ran : (q.pass table ranges includeSubsumed found).run p = .ok (found', P)) :
    (found' = found ∧ (∃ x ∈ q.atoms.zip ranges, SelectedIn table includeSubsumed q.vars P x []) ∧
        P.tables = p.tables) ∨
      ∃ (sels : List (List (List Value))) (p' : Pool),
        List.Forall₂ (fun x sel => SelectedIn table includeSubsumed q.vars p' x sel ∧ sel ≠ [])
          (q.atoms.zip ranges) sels ∧
        p.Grows p' ∧ p'.tables = p.tables ∧
        (JoinStep.search q.program (Array.replicate q.vars.length .placeholder) sels.toArray
          found).run p' = .ok (found', P) := by
  unfold CompiledQuery.pass at ran
  obtain ⟨res, p', picking, rest⟩ := run_bind_ok ran
  obtain ⟨picked, tables⟩ := picksIn_spec picking
  cases res with
  | none =>
    obtain ⟨rfl, rfl⟩ := run_pure_inv rest
    exact .inl ⟨rfl, picked, tables⟩
  | some nodes =>
    obtain ⟨sels, rfl, each⟩ := picked
    exact .inr ⟨sels, p', each, run_grows picking, tables, rest⟩

/-- A pass from a sound pool runs without a fault when the search from every
pick it can make does. -/
theorem passIn_safe {ranges : List (Nat × Option Nat)} {found : Found} {p : Pool} (sound : p.Sound)
    (searches : ∀ (sels : List (List (List Value))) (p' : Pool),
      List.Forall₂ (fun x sel => SelectedIn table includeSubsumed q.vars p' x sel ∧ sel ≠ [])
        (q.atoms.zip ranges) sels →
      p.Grows p' → p'.tables = p.tables → p'.Sound →
      (JoinStep.search q.program (Array.replicate q.vars.length .placeholder) sels.toArray
        found).Safe p') :
    (q.pass table ranges includeSubsumed found).Safe p := by
  unfold CompiledQuery.pass
  refine (safe_foldlM (fun x _ acc P _ sound' => pick_safe acc x sound') sound).bind
    fun res p' picking sound' => ?_
  obtain ⟨picked, tables⟩ := picksIn_spec picking
  cases res with
  | none => exact safe_pure _ sound'
  | some nodes =>
    obtain ⟨sels, rfl, each⟩ := picked
    exact searches sels p' each (run_grows picking) tables sound'

end Pick

/-! ### Matches whose witnessing rows lie in ranges -/

/-- A witnessing row of the table atom `x.1` in the range `x.2`: a row of its
table written in that range, not subsumed unless those count, whose columns
its terms denote under `sigma`. -/
def WitnessedIn (table : String → Table) (includeSubsumed : Bool) (P : Pool) (vars : List String)
    (sigma : List Value) (x : TableAtom × Nat × Option Nat) : Prop :=
  ∃ e ∈ ((table x.1.func).rowsBetween x.2.1 x.2.2 includeSubsumed).map (·.2),
    List.Forall₂ (AtomTerm.Denotes P vars sigma) x.1.args (e.inputs ++ [e.output.value])

/-- `sigma` is a match of `body` whose witnessing rows lie in the ranges that
`xs` gives the table atoms. -/
structure MatchesIn (table : String → Table) (includeSubsumed : Bool) (P : Pool) (vars : List String)
    (body : List (Atom Call)) (xs : List (TableAtom × Nat × Option Nat)) (sigma : List Value) :
    Prop where
  isMatch : Matches table includeSubsumed P vars body sigma
  within : ∀ x ∈ xs, WitnessedIn table includeSubsumed P vars sigma x

theorem Table.mem_rowsBetween {t : Table} {lo : Nat} {hi : Option Nat} {includeSubsumed : Bool}
    {r : Nat × Entry} : r ∈ t.rowsBetween lo hi includeSubsumed ↔
      r ∈ t.rows includeSubsumed ∧ lo ≤ r.2.output.timestamp ∧ hi.all (r.2.output.timestamp < ·) := by
  simp [Table.rowsBetween]

/-- A row written in a range is a row. -/
theorem Table.rowsBetween_subset (t : Table) (lo : Nat) (hi : Option Nat) (includeSubsumed : Bool) :
    (t.rowsBetween lo hi includeSubsumed).map (·.2) ⊆ (t.rows includeSubsumed).map (·.2) := by
  intro e mem
  obtain ⟨r, row, rfl⟩ := List.mem_map.mp mem
  exact List.mem_map.mpr ⟨r, (Table.mem_rowsBetween.mp row).1, rfl⟩

section Within

variable {table : String → Table} {includeSubsumed : Bool} {P : Pool} {vars : List String}
  {sigma : List Value}

theorem WitnessedIn.holds {x : TableAtom × Nat × Option Nat}
    (h : WitnessedIn table includeSubsumed P vars sigma x) :
    x.1.HoldsUnder table includeSubsumed P vars sigma := by
  obtain ⟨e, mem, denoted⟩ := h
  exact ⟨e, (table x.1.func).rowsBetween_subset _ _ _ mem, denoted⟩

/-- The layers of a pass, its atoms beside their selections, hold the
projection of a tuple exactly when each atom, with its range, does what `W`
says, when that is so selection by selection. -/
theorem forall_layers_iff {W : TableAtom × Nat × Option Nat → Prop}
    {xs : List (TableAtom × Nat × Option Nat)} {sels : List (List (List Value))}
    (each : List.Forall₂ (fun x sel => x.1.project vars sigma ∈ sel ↔ W x) xs sels) :
    (∀ a sel, (a, sel) ∈ (xs.map (·.1)).zip sels → a.project vars sigma ∈ sel) ↔ ∀ x ∈ xs, W x := by
  induction each with
  | nil => simp
  | cons head _ ih =>
    rw [List.forall_mem_cons, ← ih]
    simp only [List.map_cons, List.zip_cons_cons, List.mem_cons, Prod.mk.injEq]
    constructor
    · intro h
      exact ⟨head.mp (h _ _ (.inl ⟨rfl, rfl⟩)), fun a sel mem => h a sel (.inr mem)⟩
    · rintro ⟨first, rest⟩ a sel (⟨rfl, rfl⟩ | mem)
      · exact head.mpr first
      · exact rest a sel mem

end Within

/-! ### The search of a pass -/

section Pass

variable {size : String → Nat} {body : List (Atom Call)} {sortOf : String → SortInfo} {p₀ p₁ : Pool}
  {q : CompiledQuery} {table : String → Table} {includeSubsumed : Bool}
  {xs : List (TableAtom × Nat × Option Nat)} {sels : List (List (List Value))}

/-- **A tuple completes the search of a pass exactly when it is a match whose
witnessing rows lie in the pass's ranges.** Given one selection per atom, in
order, from the rows of its range, computed by tests that grew into `P`, and
rows with a column for each term of their atom. -/
theorem completesIn_iff (grounded : Grounded (tableVarsOf body) (primAtoms body))
    (compiled : (compile size body).run p₀ = .ok (q, p₁)) {P : Pool} (later : p₁.Grows P)
    (atoms : xs.map (·.1) = q.atoms)
    (selected : List.Forall₂ (fun x sel => SelectedIn table includeSubsumed q.vars P x sel) xs sels)
    (arity : ∀ a ∈ q.atoms, ∀ e ∈ ((table a.func).rows includeSubsumed).map (·.2),
      e.inputs.length + 1 = a.args.length)
    {tuple : Array Value} {sigma : List Value} :
    Completes q.vars (ordered size body).length ((xs.map (·.1)).zip sels) P q.program 0
      (ordered size body).length tuple sigma ↔ MatchesIn table includeSubsumed P q.vars body xs sigma := by
  obtain ⟨hatoms, -, more, hvars, nodup, -, calls⟩ := compile_spec grounded compiled
  obtain ⟨toPrims, fromPrims⟩ := calls P later
  -- a selection holds the projection of a complete tuple exactly when its atom has a witnessing row in its range
  have rows : sigma.length = q.vars.length →
      List.Forall₂ (fun x sel => x.1.project q.vars sigma ∈ sel ↔
        WitnessedIn table includeSubsumed P q.vars sigma x) xs sels := by
    intro length
    refine ((List.forall₂_and_left _ _).mpr ⟨fun x hx => hx, selected⟩).imp fun x sel held => ?_
    obtain ⟨listed, tests, p, p', ran, grown, rfl⟩ := held
    have mem : x.1 ∈ q.atoms := atoms ▸ List.mem_map_of_mem listed
    exact TableAtom.mem_select_iff ran grown nodup
      (fun v hv => List.mem_of_mem_take (mentions_of_compile grounded compiled mem v hv))
      (fun e row => arity x.1 mem e ((table x.1.func).rowsBetween_subset _ _ _ row)) length
  -- each table atom of the body is one of the pass's atoms
  have inPass : ∀ a ∈ tableAtoms body, ∃ x ∈ xs, x.1 = a := fun a mem =>
    List.mem_map.mp (atoms ▸ hatoms ▸ mem)
  constructor
  · intro done
    have within := (forall_layers_iff (rows done.length)).mp done.rows
    refine ⟨⟨done.length, fun a mem => ?_, fun x mem => ?_⟩, within⟩
    · obtain ⟨x, listed, rfl⟩ := inPass a mem
      exact (within x listed).holds
    · obtain ⟨step, inProg, call⟩ := fromPrims x mem
      exact (call.answered_iff done.length).mp (done.calls step inProg)
  · intro matched
    refine ⟨matched.isMatch.length, fun i bound => ?_,
      (forall_layers_iff (rows matched.isMatch.length)).mpr matched.within, fun step inProg => ?_⟩
    · -- no slot is bound at the start
      unfold SlotBound at bound
      omega
    · cases step with
      | intersect => trivial
      | call prim args out check =>
        obtain ⟨x, mem, call⟩ := toPrims prim args out check inProg
        exact (call.answered_iff matched.isMatch.length).mpr (matched.isMatch.prims x mem)

/-- A layer of a pass, an atom beside its selection, comes from one atom of
the pass with its range and that selection. -/
theorem exists_of_mem_layers {α β γ : Type} {R : α × β → γ → Prop}
    {xs : List (α × β)} {ys : List γ} (h : List.Forall₂ R xs ys) {a : α} {y : γ}
    (mem : (a, y) ∈ (xs.map (·.1)).zip ys) : ∃ x ∈ xs, x.1 = a ∧ R x y := by
  rw [List.zip_map_left, List.mem_map] at mem
  obtain ⟨⟨x, y'⟩, zipped, same⟩ := mem
  simp only [Prod.map, id, Prod.mk.injEq] at same
  obtain ⟨rfl, rfl⟩ := same
  exact ⟨x, (List.of_mem_zip zipped).1, rfl, List.forall₂_zip h zipped⟩

/-- The layers of a pass, laid out as the search reads them. -/
theorem layoutIn_of_selected (typed : BodyTyped sortOf body)
    (grounded : Grounded (tableVarsOf body) (primAtoms body))
    (compiled : (compile size body).run p₀ = .ok (q, p₁)) {p' : Pool}
    (stocked : Stocked p' table body) (atoms : xs.map (·.1) = q.atoms)
    (selected : List.Forall₂ (fun x sel => SelectedIn table includeSubsumed q.vars p' x sel ∧ sel ≠ [])
      xs sels) :
    Layout q.vars (ordered size body).length (fun k => ((ordered size body).map (·.2))[k]?.getD [])
      ((xs.map (·.1)).zip sels) := by
  obtain ⟨hatoms, -⟩ := compile_spec grounded compiled
  have lengths : (xs.map (·.1)).length = sels.length := by simpa using selected.length_eq
  have layerAtoms : ((xs.map (·.1)).zip sels).map (·.1) = q.atoms := by
    rw [List.map_fst_zip (by omega), atoms]
  refine layout_of_compile grounded compiled layerAtoms fun a sel layer w hw => ?_
  obtain ⟨x, listed, rfl, ⟨tests, p, p'', tested, -, rfl⟩, -⟩ := exists_of_mem_layers selected layer
  have inBody : x.1 ∈ tableAtoms body := hatoms ▸ atoms ▸ List.mem_map_of_mem listed
  exact TableAtom.length_of_mem_select (fun e row =>
    stocked.arity typed inBody includeSubsumed e ((table x.1.func).rowsBetween_subset _ _ _ row)) hw

/-- **The search of a pass adds exactly the matches whose witnessing rows lie
in the pass's ranges**, each once, and all of them unless it reaches its
limit, read at any pool grown from the one it ends at. From one nonempty
selection per atom, at a pool grown from the compiled query's and stocked for
the body. -/
theorem searchIn_adds (typed : BodyTyped sortOf body)
    (grounded : Grounded (tableVarsOf body) (primAtoms body))
    (compiled : (compile size body).run p₀ = .ok (q, p₁)) {p' P : Pool} (later : p₁.Grows p')
    (stocked : Stocked p' table body) (atoms : xs.map (·.1) = q.atoms)
    (selected : List.Forall₂ (fun x sel => SelectedIn table includeSubsumed q.vars p' x sel ∧ sel ≠ [])
      xs sels)
    {found found' : Found}
    (ran : (JoinStep.search q.program (Array.replicate q.vars.length .placeholder) sels.toArray
      found).run p' = .ok (found', P)) :
    P.ContentsEntered ∧ ∃ new, Adds P (fun Q sigma => MatchesIn table includeSubsumed Q q.vars body xs sigma)
      found found' new := by
  obtain ⟨hatoms, -, -, -, -, sched, -⟩ := compile_spec grounded compiled
  have arity : ∀ a ∈ q.atoms, ∀ e ∈ ((table a.func).rows includeSubsumed).map (·.2),
      e.inputs.length + 1 = a.args.length := fun a mem =>
    stocked.arity typed (hatoms ▸ mem) includeSubsumed
  -- the layers of the pass: each atom beside its selection
  have lengths : (xs.map (·.1)).length = sels.length := by simpa using selected.length_eq
  have nodes : ((xs.map (·.1)).zip sels).map (·.2) = sels := List.map_snd_zip (by omega)
  have L := layoutIn_of_selected typed grounded compiled stocked atoms selected
  have size : (Array.replicate q.vars.length Value.placeholder).size = q.vars.length :=
    Array.size_replicate
  obtain ⟨B', fits⟩ := sched.fits L.table (Nat.zero_le _) (Nat.le_refl _) []
    fun i => by simp [SlotBound]
  have serves := stocked.serves grounded compiled later
  have names : p'.Names [] (Array.replicate q.vars.length .placeholder) sels.toArray := by
    refine ⟨by simp, fun j ts found t ht v hv => ?_⟩
    simp only [List.getElem?_toArray] at found
    obtain ⟨x, listed, ⟨tests, p, p'', tested, -, rfl⟩, -⟩ :=
      List.Forall₂.exists_of_mem selected.flip (List.mem_of_getElem? found)
    obtain ⟨e, row, column⟩ := TableAtom.mem_row_of_mem_select ht v hv
    exact (stocked.rows typed (hatoms ▸ atoms ▸ List.mem_map_of_mem listed) includeSubsumed e
      ((table x.1.func).rowsBetween_subset _ _ _ row)).2 v column
  obtain ⟨contents, new, adds⟩ := searchAdds q.program (size ▸ fits) serves names ran
  have live : ∀ node ∈ nodesAt q.vars ((xs.map (·.1)).zip sels) 0
      (Array.replicate q.vars.length .placeholder), node ≠ [] := by
    rw [nodesAt_zero]
    intro node mem
    simp only [List.mem_toArray, List.mem_map] at mem
    obtain ⟨l, layer, rfl⟩ := mem
    obtain ⟨x, -, -, -, nonempty⟩ := exists_of_mem_layers selected layer
    exact nonempty
  refine ⟨contents, new, adds.congr fun Q grows t => ?_⟩
  rw [← nodes, ← nodesAt_zero q.vars ((xs.map (·.1)).zip sels)]
  exact (L.reaches_iff sched (Nat.zero_le _) (Nat.le_refl _) size live).trans
    (completesIn_iff grounded compiled (later.trans ((run_grows ran).trans grows)) atoms
      (selected.imp fun _ _ held => held.1.grow ((run_grows ran).trans grows)) arity)

/-- The search of a pass runs without a fault, from a sound pool stocked for
the body, unless the pool overflows on the way. -/
theorem searchIn_safe (typed : BodyTyped sortOf body)
    (grounded : Grounded (tableVarsOf body) (primAtoms body))
    (compiled : (compile size body).run p₀ = .ok (q, p₁)) {p' : Pool} (later : p₁.Grows p')
    (stocked : Stocked p' table body) (sound : p'.Sound) (atoms : xs.map (·.1) = q.atoms)
    (selected : List.Forall₂ (fun x sel => SelectedIn table includeSubsumed q.vars p' x sel ∧ sel ≠ [])
      xs sels)
    (found : Found) :
    (JoinStep.search q.program (Array.replicate q.vars.length .placeholder) sels.toArray found).Safe p' := by
  obtain ⟨hatoms, -, -, -, -, sched, -⟩ := compile_spec grounded compiled
  have L := layoutIn_of_selected typed grounded compiled stocked atoms selected
  have lengths : (xs.map (·.1)).length = sels.length := by simpa using selected.length_eq
  have sorted : SearchSorted q.vars (ordered size body).length ((xs.map (·.1)).zip sels) sortOf p'
      q.program 0 (ordered size body).length (Array.replicate q.vars.length .placeholder) := by
    refine ⟨sound, fun i v bound => ?_, fun a sel layer w hw => ?_,
      stocked.calls_sorted typed grounded compiled later sound⟩
    · unfold SlotBound at bound
      omega
    · obtain ⟨x, listed, rfl, ⟨tests, p, p'', tested, -, rfl⟩, -⟩ := exists_of_mem_layers selected layer
      have inBody : x.1 ∈ tableAtoms body := hatoms ▸ atoms ▸ List.mem_map_of_mem listed
      exact TableAtom.holds_of_mem_select (fun e row => (stocked.rows typed inBody includeSubsumed e
        ((table x.1.func).rowsBetween_subset _ _ _ row)).1) hw
  have nodes : ((xs.map (·.1)).zip sels).map (·.2) = sels := List.map_snd_zip (by omega)
  rw [← nodes, ← nodesAt_zero q.vars ((xs.map (·.1)).zip sels)]
  exact L.search_safe sched (Nat.zero_le _) (Nat.le_refl _) Array.size_replicate sorted

/-- An atom whose range selects nothing leaves the pass without matches. -/
theorem not_matchesIn_of_selected_nil (grounded : Grounded (tableVarsOf body) (primAtoms body))
    (compiled : (compile size body).run p₀ = .ok (q, p₁)) {P : Pool}
    {x : TableAtom × Nat × Option Nat} (listed : x ∈ xs) (atoms : xs.map (·.1) = q.atoms)
    (empty : SelectedIn table includeSubsumed q.vars P x [])
    (arity : ∀ e ∈ ((table x.1.func).rows includeSubsumed).map (·.2),
      e.inputs.length + 1 = x.1.args.length)
    {sigma : List Value} (matched : MatchesIn table includeSubsumed P q.vars body xs sigma) : False := by
  obtain ⟨hatoms, -, more, hvars, nodup, -⟩ := compile_spec grounded compiled
  obtain ⟨tests, p, p', tested, grown, none⟩ := empty
  have mem : x.1 ∈ q.atoms := atoms ▸ List.mem_map_of_mem listed
  have kept := (TableAtom.mem_select_iff tested grown nodup
    (fun v hv => List.mem_of_mem_take (mentions_of_compile grounded compiled mem v hv))
    (fun e row => arity e ((table x.1.func).rowsBetween_subset _ _ _ row))
    matched.isMatch.length).mpr (matched.within x listed)
  rw [← none] at kept
  cases kept

end Pass

/-! ### The passes of a run from a last-run time -/

/-- The range atom `j` reads in pass `i`: before `i` the rows written before
`lastRun`, at `i` those written at `lastRun` or later, after it every row. -/
def passRange (lastRun i j : Nat) : Nat × Option Nat :=
  if j < i then (0, some lastRun) else if j = i then (lastRun, none) else (0, none)

/-- Pass `i` of a run from `lastRun`, as the run makes it: nothing once the
matches found are enough, or when the table of atom `i` has no entry written
at `lastRun` or later. -/
def CompiledQuery.newPass (q : CompiledQuery) (table : String → Table) (lastRun : Nat)
    (includeSubsumed : Bool) (found : Found) (i : Nat) : PoolM Found := do
  if found.full then return found
  let a := (q.atoms[i]?.map (·.func)).getD ""
  if !(table a).touchedSince lastRun then return found
  q.pass table ((List.range q.atoms.length).map (passRange lastRun i)) includeSubsumed found

/-- A run from a nonzero last-run time over some table atom is the fold of its
passes. -/
theorem CompiledQuery.run_eq_passes (q : CompiledQuery) (table : String → Table) {lastRun : Nat}
    (includeSubsumed : Bool) (limit : Nat) (later : lastRun ≠ 0) (some : q.atoms.length ≠ 0) :
    q.run table lastRun includeSubsumed limit =
      (fun found => found.tuples.toList) <$>
        (List.range q.atoms.length).foldlM (q.newPass table lastRun includeSubsumed) ⟨#[], limit⟩ := by
  simp only [CompiledQuery.run, some, later, if_false]
  rfl

/-- Two live rows of an indexed table with the same inputs are one row. -/
theorem Table.Indexed.eq_of_inputs_eq {t : Table} (ix : t.Indexed) {b : Bool} {e e' : Entry}
    (row : e ∈ (t.rows b).map (·.2)) (row' : e' ∈ (t.rows b).map (·.2))
    (same : e.inputs = e'.inputs) : e = e' := by
  obtain ⟨⟨i, e⟩, mem, rfl⟩ := List.mem_map.mp row
  obtain ⟨⟨i', e'⟩, mem', rfl⟩ := List.mem_map.mp row'
  obtain ⟨entry, live, -⟩ := Table.mem_rows_iff.mp mem
  obtain ⟨entry', live', -⟩ := Table.mem_rows_iff.mp mem'
  have offset := ix.complete i e entry live
  rw [same, ix.complete i' e' entry' live', Option.some.injEq] at offset
  subst offset
  exact Option.some.inj (entry.symm.trans entry')

section Witness

variable {table : String → Table} {includeSubsumed : Bool} {P : Pool} {vars : List String}
  {sigma : List Value}

/-- **An atom has at most one witnessing row** in a table with one live row
per inputs: the terms of the atom denote its inputs. -/
theorem witness_unique {a : TableAtom} (ix : (table a.func).Indexed) {e e' : Entry}
    (row : e ∈ ((table a.func).rows includeSubsumed).map (·.2))
    (row' : e' ∈ ((table a.func).rows includeSubsumed).map (·.2))
    (denoted : List.Forall₂ (AtomTerm.Denotes P vars sigma) a.args (e.inputs ++ [e.output.value]))
    (denoted' : List.Forall₂ (AtomTerm.Denotes P vars sigma) a.args (e'.inputs ++ [e'.output.value])) :
    e = e' := by
  have unique : Relator.RightUnique (AtomTerm.Denotes P vars sigma) := fun _ _ _ h h' =>
    AtomTerm.Denotes.unique h h'
  have same := List.right_unique_forall₂' unique denoted denoted'
  exact ix.eq_of_inputs_eq row row' (List.append_inj' same rfl).1

/-- An atom with a witnessing row `e` has one in a range exactly when `e` was
written in it. -/
theorem witnessedIn_iff {a : TableAtom} (ix : (table a.func).Indexed) {e : Entry}
    (row : e ∈ ((table a.func).rows includeSubsumed).map (·.2))
    (denoted : List.Forall₂ (AtomTerm.Denotes P vars sigma) a.args (e.inputs ++ [e.output.value]))
    {lo : Nat} {hi : Option Nat} :
    WitnessedIn table includeSubsumed P vars sigma (a, lo, hi) ↔
      lo ≤ e.output.timestamp ∧ hi.all (e.output.timestamp < ·) := by
  constructor
  · rintro ⟨e', row', denoted'⟩
    obtain ⟨r, between, rfl⟩ := List.mem_map.mp row'
    obtain rfl := witness_unique ix row ((table a.func).rowsBetween_subset _ _ _ row') denoted denoted'
    exact (Table.mem_rowsBetween.mp between).2
  · intro bounds
    obtain ⟨r, mem, rfl⟩ := List.mem_map.mp row
    exact ⟨r.2, List.mem_map_of_mem (Table.mem_rowsBetween.mpr ⟨mem, bounds⟩), denoted⟩

/-- Every row lies in the range of all timestamps. -/
theorem witnessedIn_all_iff {a : TableAtom} :
    WitnessedIn table includeSubsumed P vars sigma (a, 0, none) ↔
      a.HoldsUnder table includeSubsumed P vars sigma := by
  constructor
  · exact WitnessedIn.holds
  · rintro ⟨e, row, denoted⟩
    obtain ⟨r, mem, rfl⟩ := List.mem_map.mp row
    exact ⟨r.2, List.mem_map_of_mem (Table.mem_rowsBetween.mpr ⟨mem, Nat.zero_le _, rfl⟩), denoted⟩

end Witness

/-- Atom `a` has under `sigma` a witnessing row written at `lastRun` or later. -/
def TableAtom.ReadsSince (table : String → Table) (includeSubsumed : Bool) (P : Pool)
    (vars : List String) (sigma : List Value) (lastRun : Nat) (a : TableAtom) : Prop :=
  ∃ e ∈ ((table a.func).rows includeSubsumed).map (·.2), lastRun ≤ e.output.timestamp ∧
    List.Forall₂ (AtomTerm.Denotes P vars sigma) a.args (e.inputs ++ [e.output.value])

/-- A match a run from `lastRun` is to find: from scratch every match, and
otherwise one with a witnessing row written at `lastRun` or later. -/
def NewMatch (table : String → Table) (includeSubsumed : Bool) (P : Pool) (vars : List String)
    (body : List (Atom Call)) (lastRun : Nat) (sigma : List Value) : Prop :=
  Matches table includeSubsumed P vars body sigma ∧
    (lastRun = 0 ∨ ∃ a ∈ tableAtoms body, a.ReadsSince table includeSubsumed P vars sigma lastRun)

/-- The tuples a run from `lastRun` returned are its new matches at the pool
it reached: none twice, each a new match, and every new match unless the run
stopped at its limit. -/
structure FindsNewMatches (table : String → Table) (includeSubsumed : Bool) (P : Pool)
    (vars : List String) (body : List (Atom Call)) (lastRun limit : Nat)
    (found : List (List Value)) : Prop where
  nodup : found.Nodup
  sound : ∀ sigma ∈ found, NewMatch table includeSubsumed P vars body lastRun sigma
  complete : found.length < limit → ∀ sigma, NewMatch table includeSubsumed P vars body lastRun sigma →
    sigma ∈ found

/-- The atom of each index, beside the range the pass gives that index. -/
theorem mem_zip_range_map {α β : Type} {l : List α} {f : Nat → β} {a : α} {r : β} :
    (a, r) ∈ l.zip ((List.range l.length).map f) ↔ ∃ j, l[j]? = some a ∧ f j = r := by
  simp only [List.mem_iff_getElem?, List.getElem?_zip_eq_some, List.getElem?_map,
    Option.map_eq_some_iff]
  constructor
  · rintro ⟨j, at_j, k, ranged, rfl⟩
    obtain ⟨_, rfl⟩ := List.getElem?_eq_some_iff.mp ranged
    exact ⟨j, at_j, by rw [List.getElem_range]⟩
  · rintro ⟨j, at_j, rfl⟩
    obtain ⟨lt, -⟩ := List.getElem?_eq_some_iff.mp at_j
    exact ⟨j, at_j, j, List.getElem?_range lt, rfl⟩

section Passes

variable {table : String → Table} {includeSubsumed : Bool} {P : Pool} {vars : List String}
  {body : List (Atom Call)} {sigma : List Value} {lastRun : Nat}

/-- An atom with a witnessing row `e` reads a row written at `lastRun` or
later exactly when `e` is one. -/
theorem readsSince_iff {a : TableAtom} (ix : (table a.func).Indexed) {e : Entry}
    (row : e ∈ ((table a.func).rows includeSubsumed).map (·.2))
    (denoted : List.Forall₂ (AtomTerm.Denotes P vars sigma) a.args (e.inputs ++ [e.output.value])) :
    a.ReadsSince table includeSubsumed P vars sigma lastRun ↔ lastRun ≤ e.output.timestamp := by
  constructor
  · rintro ⟨e', row', fresh, denoted'⟩
    rwa [witness_unique ix row row' denoted denoted']
  · intro fresh
    exact ⟨e, row, fresh, denoted⟩

/-- A witnessing row in the range from `lastRun` on is a new row. -/
theorem WitnessedIn.readsSince {a : TableAtom}
    (h : WitnessedIn table includeSubsumed P vars sigma (a, lastRun, none)) :
    a.ReadsSince table includeSubsumed P vars sigma lastRun := by
  obtain ⟨e, row, denoted⟩ := h
  obtain ⟨r, between, rfl⟩ := List.mem_map.mp row
  obtain ⟨mem, fresh, -⟩ := Table.mem_rowsBetween.mp between
  exact ⟨r.2, List.mem_map_of_mem mem, fresh, denoted⟩

/-- An atom reads nothing written at `lastRun` or later from a table where no
entry, live or stale, was written then. -/
theorem not_readsSince_of_untouched {a : TableAtom}
    (untouched : (table a.func).touchedSince lastRun = false) :
    ¬ a.ReadsSince table includeSubsumed P vars sigma lastRun := by
  rintro ⟨e, row, fresh, -⟩
  obtain ⟨⟨i, e⟩, mem, rfl⟩ := List.mem_map.mp row
  obtain ⟨entry, -⟩ := Table.mem_rows_iff.mp mem
  unfold Table.touchedSince at untouched
  exact Array.any_eq_false'.mp untouched e (Array.mem_of_getElem? entry) (decide_eq_true fresh)

/-- **A match lies in pass `i` exactly when atom `i` reads a new row and every
earlier atom only old ones**, the witnessing row of each atom being unique in
tables with one live row per inputs. -/
theorem matchesIn_pass_iff (indexed : ∀ a ∈ tableAtoms body, (table a.func).Indexed) {i : Nat}
    (lt : i < (tableAtoms body).length) :
    MatchesIn table includeSubsumed P vars body
        ((tableAtoms body).zip ((List.range (tableAtoms body).length).map (passRange lastRun i))) sigma ↔
      Matches table includeSubsumed P vars body sigma ∧
        (∃ a, (tableAtoms body)[i]? = some a ∧ a.ReadsSince table includeSubsumed P vars sigma lastRun) ∧
        ∀ j < i, ∀ a, (tableAtoms body)[j]? = some a →
          ¬ a.ReadsSince table includeSubsumed P vars sigma lastRun := by
  -- for a match, atom `j` has its row in the range of pass `i` when it is old
  -- before `i` and new at `i`
  have each : Matches table includeSubsumed P vars body sigma → ∀ j a, (tableAtoms body)[j]? = some a →
      (WitnessedIn table includeSubsumed P vars sigma (a, passRange lastRun i j) ↔
        (j < i → ¬ a.ReadsSince table includeSubsumed P vars sigma lastRun) ∧
          (j = i → a.ReadsSince table includeSubsumed P vars sigma lastRun)) := by
    intro matched j a at_j
    have mem := List.mem_of_getElem? at_j
    obtain ⟨e, row, denoted⟩ := matched.rows a mem
    rw [readsSince_iff (indexed a mem) row denoted]
    unfold passRange
    split_ifs with before same
    · rw [witnessedIn_iff (indexed a mem) row denoted]
      simp only [Nat.zero_le, Option.all_some, decide_eq_true_eq, true_and, Nat.not_le]
      omega
    · rw [witnessedIn_iff (indexed a mem) row denoted]
      simp only [Option.all_none, and_true]
      omega
    · rw [witnessedIn_all_iff]
      exact ⟨fun _ => ⟨by omega, by omega⟩, fun _ => ⟨e, row, denoted⟩⟩
  constructor
  · rintro ⟨matched, within⟩
    have held : ∀ j a, (tableAtoms body)[j]? = some a →
        WitnessedIn table includeSubsumed P vars sigma (a, passRange lastRun i j) :=
      fun j a at_j => within _ (mem_zip_range_map.mpr ⟨j, at_j, rfl⟩)
    have at_i : (tableAtoms body)[i]? = some (tableAtoms body)[i] := List.getElem?_eq_getElem lt
    exact ⟨matched, ⟨_, at_i, ((each matched i _ at_i).mp (held i _ at_i)).2 rfl⟩,
      fun j before a at_j => ((each matched j a at_j).mp (held j a at_j)).1 before⟩
  · rintro ⟨matched, ⟨a, at_i, fresh⟩, old⟩
    refine ⟨matched, fun x mem => ?_⟩
    obtain ⟨a', r⟩ := x
    obtain ⟨j, at_j, rfl⟩ := mem_zip_range_map.mp mem
    refine (each matched j a' at_j).mpr ⟨fun before => old j before a' at_j, fun same => ?_⟩
    subst same
    rw [at_i, Option.some.injEq] at at_j
    exact at_j ▸ fresh

/-- **No match lies in two passes.** -/
theorem pass_unique (indexed : ∀ a ∈ tableAtoms body, (table a.func).Indexed) {i i' : Nat}
    (lt : i < (tableAtoms body).length) (lt' : i' < (tableAtoms body).length)
    (matched : MatchesIn table includeSubsumed P vars body
      ((tableAtoms body).zip ((List.range (tableAtoms body).length).map (passRange lastRun i))) sigma)
    (matched' : MatchesIn table includeSubsumed P vars body
      ((tableAtoms body).zip ((List.range (tableAtoms body).length).map (passRange lastRun i'))) sigma) :
    i = i' := by
  obtain ⟨-, ⟨a, at_i, fresh⟩, old⟩ := (matchesIn_pass_iff indexed lt).mp matched
  obtain ⟨-, ⟨a', at_i', fresh'⟩, old'⟩ := (matchesIn_pass_iff indexed lt').mp matched'
  rcases Nat.lt_trichotomy i i' with before | same | after
  · exact absurd fresh (old' i before a at_i)
  · exact same
  · exact absurd fresh' (old i' after a' at_i')

/-- **The passes together find the matches with a new witnessing row**: such
a match lies in the pass of the first atom whose row is new. -/
theorem exists_pass_iff (indexed : ∀ a ∈ tableAtoms body, (table a.func).Indexed) :
    (∃ i ∈ List.range (tableAtoms body).length, MatchesIn table includeSubsumed P vars body
        ((tableAtoms body).zip ((List.range (tableAtoms body).length).map (passRange lastRun i))) sigma) ↔
      Matches table includeSubsumed P vars body sigma ∧
        ∃ a ∈ tableAtoms body, a.ReadsSince table includeSubsumed P vars sigma lastRun := by
  classical
  constructor
  · rintro ⟨i, listed, matched⟩
    obtain ⟨matched, ⟨a, at_i, fresh⟩, -⟩ := (matchesIn_pass_iff indexed (List.mem_range.mp listed)).mp matched
    exact ⟨matched, a, List.mem_of_getElem? at_i, fresh⟩
  · rintro ⟨matched, a, mem, fresh⟩
    have some : ∃ j : Nat, ∃ a : TableAtom, (tableAtoms body)[j]? = some a ∧
        a.ReadsSince table includeSubsumed P vars sigma lastRun := by
      obtain ⟨j, at_j⟩ := List.mem_iff_getElem?.mp mem
      exact ⟨j, a, at_j, fresh⟩
    -- the pass of the first atom that reads a new row
    obtain ⟨a', at_first, fresh'⟩ := Nat.find_spec some
    have lt : Nat.find some < (tableAtoms body).length := (List.getElem?_eq_some_iff.mp at_first).1
    refine ⟨Nat.find some, List.mem_range.mpr lt, (matchesIn_pass_iff indexed lt).mpr
      ⟨matched, ⟨a', at_first, fresh'⟩, fun j before b at_j new => ?_⟩⟩
    exact Nat.find_min some before ⟨b, at_j, new⟩

end Passes

/-! ### The run -/

/-- A fold is safe from a sound pool where an invariant holds, when every step
keeps the invariant and is safe from every sound pool where it holds. -/
theorem PoolM.safe_foldlM_inv {α β : Type} {f : β → α → PoolM β} {xs : List α} (Inv : Pool → Prop)
    (keeps : ∀ x ∈ xs, ∀ acc q acc' q', Inv q → (f acc x).run q = .ok (acc', q') → Inv q')
    (step : ∀ x ∈ xs, ∀ acc q, Inv q → q.Sound → (f acc x).Safe q) :
    ∀ {acc : β} {p : Pool}, Inv p → p.Sound → (xs.foldlM f acc).Safe p := by
  induction xs with
  | nil => exact fun inv sound => safe_pure _ sound
  | cons x xs ih =>
    intro acc p inv sound
    rw [List.foldlM_cons]
    refine (step x List.mem_cons_self acc p inv sound).bind fun acc' q ran sound' => ?_
    exact ih (fun y hy => keeps y (List.mem_cons_of_mem _ hy)) (fun y hy => step y (List.mem_cons_of_mem _ hy))
      (keeps x List.mem_cons_self acc p acc' q inv ran) sound'

/-- The tuples a run returns, collected from the start, are its new matches
when they are what the run adds. -/
theorem findsNewMatches_of_adds {table : String → Table} {includeSubsumed : Bool} {P : Pool}
    {vars : List String} {body : List (Atom Call)} {lastRun limit : Nat} {found : Found}
    {new : List (List Value)} {S : Pool → List Value → Prop} (adds : Adds P S ⟨#[], limit⟩ found new)
    (same : ∀ sigma, S P sigma ↔ NewMatch table includeSubsumed P vars body lastRun sigma) :
    FindsNewMatches table includeSubsumed P vars body lastRun limit found.tuples.toList := by
  have tuples : found.tuples.toList = new := by simpa using adds.tuples
  rw [tuples]
  refine ⟨adds.nodup, fun t ht => (same t).mp (adds.sound P (.refl P) t ht),
    fun short t matched => adds.complete ?_ P (.refl P) t ((same t).mpr matched)⟩
  have count : found.tuples.size = new.length := by
    rw [← Array.length_toList, tuples]
  simp only [Found.full, decide_eq_false_iff_not, Nat.not_le, adds.limit, count]
  exact short

section Run

variable {size : String → Nat} {body : List (Atom Call)} {sortOf : String → SortInfo} {p₀ p₁ : Pool}
  {q : CompiledQuery} {table : String → Table} {includeSubsumed : Bool}

/-- With every atom reading every row, a pass finds the matches. -/
theorem matchesIn_all_iff (compiled : (compile size body).run p₀ = .ok (q, p₁))
    (grounded : Grounded (tableVarsOf body) (primAtoms body)) {P : Pool} {sigma : List Value} :
    MatchesIn table includeSubsumed P q.vars body (q.atoms.zip (List.replicate q.atoms.length (0, none)))
      sigma ↔ Matches table includeSubsumed P q.vars body sigma := by
  obtain ⟨hatoms, -⟩ := compile_spec grounded compiled
  refine ⟨MatchesIn.isMatch, fun matched => ⟨matched, fun x mem => ?_⟩⟩
  obtain ⟨a, r⟩ := x
  obtain ⟨listed, ranged⟩ := List.of_mem_zip mem
  obtain rfl := List.eq_of_mem_replicate ranged
  exact witnessedIn_all_iff.mpr (matched.rows a (hatoms ▸ listed))

/-- A pass with every atom reading every row adds the matches. -/
theorem passAll_adds (typed : BodyTyped sortOf body)
    (grounded : Grounded (tableVarsOf body) (primAtoms body))
    (compiled : (compile size body).run p₀ = .ok (q, p₁)) {p P : Pool} (later : p₁.Grows p)
    (stocked : Stocked p table body) {found found' : Found}
    (ran : (q.pass table (List.replicate q.atoms.length (0, none)) includeSubsumed found).run p =
      .ok (found', P)) :
    ∃ new, Adds P (fun Q sigma => Matches table includeSubsumed Q q.vars body sigma) found found' new := by
  obtain ⟨hatoms, -⟩ := compile_spec grounded compiled
  have atoms : (q.atoms.zip (List.replicate q.atoms.length ((0 : Nat), (none : Option Nat)))).map (·.1) =
      q.atoms := List.map_fst_zip (by simp)
  rcases passIn_spec ran with ⟨rfl, ⟨x, mem, empty⟩, -⟩ | ⟨sels, p', selected, grows, tables, searched⟩
  · refine ⟨[], Adds.none _ fun Q grows sigma matched => ?_⟩
    have inBody : x.1 ∈ tableAtoms body := hatoms ▸ (List.of_mem_zip mem).1
    exact not_matchesIn_of_selected_nil grounded compiled mem atoms (empty.grow grows)
      (stocked.arity typed inBody includeSubsumed) ((matchesIn_all_iff compiled grounded).mpr matched)
  · obtain ⟨-, new, adds⟩ := searchIn_adds typed grounded compiled (later.trans grows)
      (stocked.grow grows tables) atoms selected searched
    exact ⟨new, adds.congr fun Q _ sigma => matchesIn_all_iff compiled grounded⟩

/-- **What pass `i` adds**, from a pool stocked for the body: the matches
whose witnessing rows lie in its ranges; and the pool stays stocked. -/
theorem newPass_adds (typed : BodyTyped sortOf body)
    (grounded : Grounded (tableVarsOf body) (primAtoms body))
    (compiled : (compile size body).run p₀ = .ok (q, p₁)) {lastRun i : Nat}
    (lt : i < q.atoms.length) {found found' : Found} {p P : Pool} (later : p₁.Grows p)
    (stocked : Stocked p table body)
    (ran : (q.newPass table lastRun includeSubsumed found i).run p = .ok (found', P)) :
    (p₁.Grows P ∧ Stocked P table body) ∧ ∃ new, Adds P (fun Q sigma =>
      MatchesIn table includeSubsumed Q q.vars body
        ((tableAtoms body).zip ((List.range (tableAtoms body).length).map (passRange lastRun i))) sigma)
      found found' new := by
  obtain ⟨hatoms, -⟩ := compile_spec grounded compiled
  rw [← hatoms]
  have atoms : (q.atoms.zip ((List.range q.atoms.length).map (passRange lastRun i))).map (·.1) =
      q.atoms := List.map_fst_zip (by simp)
  unfold CompiledQuery.newPass at ran
  split at ran
  · rename_i enough
    obtain ⟨rfl, rfl⟩ := run_pure_inv ran
    exact ⟨⟨later, stocked⟩, [], Adds.full _ enough⟩
  dsimp only at ran
  split at ran
  · -- no entry of the table of atom `i` is new: nothing lies in the pass
    rename_i untouched
    obtain ⟨rfl, rfl⟩ := run_pure_inv ran
    refine ⟨⟨later, stocked⟩, [], Adds.none _ fun Q _ sigma matched => ?_⟩
    have at_i : q.atoms[i]? = some q.atoms[i] := List.getElem?_eq_getElem lt
    have fresh := matched.within (q.atoms[i], passRange lastRun i i)
      (mem_zip_range_map.mpr ⟨i, at_i, rfl⟩)
    simp only [passRange, Nat.lt_irrefl, if_false, if_true] at fresh
    rw [at_i, Bool.not_eq_true'] at untouched
    exact not_readsSince_of_untouched untouched fresh.readsSince
  rcases passIn_spec ran with ⟨rfl, ⟨x, mem, empty⟩, tables⟩ | ⟨sels, p', selected, grows, tables, searched⟩
  · refine ⟨⟨later.trans (run_grows ran), stocked.grow (run_grows ran) tables⟩, [],
      Adds.none _ fun Q grows sigma matched => ?_⟩
    have inBody : x.1 ∈ tableAtoms body := hatoms ▸ (List.of_mem_zip mem).1
    exact not_matchesIn_of_selected_nil grounded compiled mem atoms (empty.grow grows)
      (stocked.arity typed inBody includeSubsumed) matched
  · have stocked' := stocked.grow grows tables
    obtain ⟨contents, new, adds⟩ := searchIn_adds typed grounded compiled (later.trans grows) stocked'
      atoms selected searched
    exact ⟨⟨later.trans (grows.trans (run_grows searched)),
      stocked'.grow_entered (run_grows searched) contents⟩, new, adds⟩

/-- Pass `i` runs without a fault from a sound pool stocked for the body,
unless the pool overflows on the way. -/
theorem newPass_safe (typed : BodyTyped sortOf body)
    (grounded : Grounded (tableVarsOf body) (primAtoms body))
    (compiled : (compile size body).run p₀ = .ok (q, p₁)) {lastRun i : Nat} {found : Found} {p : Pool}
    (later : p₁.Grows p) (stocked : Stocked p table body) (sound : p.Sound) :
    (q.newPass table lastRun includeSubsumed found i).Safe p := by
  have atoms : (q.atoms.zip ((List.range q.atoms.length).map (passRange lastRun i))).map (·.1) =
      q.atoms := List.map_fst_zip (by simp)
  unfold CompiledQuery.newPass
  split
  · exact safe_pure _ sound
  dsimp only
  split
  · exact safe_pure _ sound
  exact passIn_safe sound fun sels p' selected grows tables sound' =>
    searchIn_safe typed grounded compiled (later.trans grows) (stocked.grow grows tables) sound' atoms
      selected _

/-- **The passes add each match with a new witnessing row once**: a run from
a nonzero last-run time folds the passes, each adding the matches in its
ranges, and no match lies in two of them. -/
theorem passes_add (typed : BodyTyped sortOf body)
    (grounded : Grounded (tableVarsOf body) (primAtoms body))
    (compiled : (compile size body).run p₀ = .ok (q, p₁))
    (indexed : ∀ a ∈ tableAtoms body, (table a.func).Indexed) {lastRun : Nat} {p P : Pool}
    (later : p₁.Grows p) (stocked : Stocked p table body) {start found : Found}
    (ran : ((List.range q.atoms.length).foldlM (q.newPass table lastRun includeSubsumed) start).run p =
      .ok (found, P)) :
    ∃ new, Adds P (fun Q sigma => Matches table includeSubsumed Q q.vars body sigma ∧
      ∃ a ∈ tableAtoms body, a.ReadsSince table includeSubsumed Q q.vars sigma lastRun) start found new := by
  obtain ⟨hatoms, -⟩ := compile_spec grounded compiled
  have apart : ∀ Q, ∀ i ∈ List.range q.atoms.length, ∀ i' ∈ List.range q.atoms.length, ∀ sigma,
      MatchesIn table includeSubsumed Q q.vars body
        ((tableAtoms body).zip ((List.range (tableAtoms body).length).map (passRange lastRun i))) sigma →
      MatchesIn table includeSubsumed Q q.vars body
        ((tableAtoms body).zip ((List.range (tableAtoms body).length).map (passRange lastRun i'))) sigma →
      i = i' := by
    intro Q i listed i' listed' sigma matched matched'
    rw [List.mem_range, hatoms] at listed listed'
    exact pass_unique indexed listed listed' matched matched'
  obtain ⟨-, new, adds⟩ := foldlM_adds List.nodup_range apart
    (fun i listed found₁ p' found₁' P' held ran' =>
      newPass_adds typed grounded compiled (List.mem_range.mp listed) held.1 held.2 ran')
    start p found P ⟨later, stocked⟩ ran
  refine ⟨new, adds.congr fun Q _ sigma => ?_⟩
  rw [hatoms]
  exact exists_pass_iff indexed

/-- The tuples of a run from any last-run time are its new matches. -/
theorem run_finds_new (typed : BodyTyped sortOf body)
    (grounded : Grounded (tableVarsOf body) (primAtoms body))
    (compiled : (compile size body).run p₀ = .ok (q, p₁)) {p : Pool} (later : p₁.Grows p)
    (stocked : Stocked p table body) (indexed : ∀ a ∈ tableAtoms body, (table a.func).Indexed)
    (lastRun limit : Nat) {found : List (List Value)} {P : Pool}
    (ran : (q.run table lastRun includeSubsumed limit).run p = .ok (found, P)) :
    FindsNewMatches table includeSubsumed P q.vars body lastRun limit found := by
  obtain ⟨hatoms, -⟩ := compile_spec grounded compiled
  by_cases empty : q.atoms.length = 0
  · have none : tableAtoms body = [] := hatoms ▸ List.length_eq_zero_iff.mp empty
    by_cases fresh : lastRun = 0
    · -- without table atoms the search starts from no nodes, once
      simp only [CompiledQuery.run, empty, fresh, if_true] at ran
      obtain ⟨found', P', searched, done⟩ := run_bind_ok ran
      obtain ⟨rfl, rfl⟩ := run_pure_inv done
      obtain ⟨-, new, adds⟩ := searchIn_adds typed grounded compiled later stocked
        (show ([] : List (TableAtom × Nat × Option Nat)).map (·.1) = q.atoms from
          (List.length_eq_zero_iff.mp empty).symm) .nil searched
      exact findsNewMatches_of_adds adds fun sigma =>
        ⟨fun matched => ⟨matched.isMatch, .inl fresh⟩, fun matched => ⟨matched.1, by simp⟩⟩
    · simp only [CompiledQuery.run, empty, fresh, if_true, if_false] at ran
      obtain ⟨rfl, rfl⟩ := run_pure_inv ran
      refine findsNewMatches_of_adds (Adds.none ⟨#[], limit⟩ fun _ _ _ never => never) fun sigma => ?_
      simp only [NewMatch, none, List.not_mem_nil, false_and, exists_false, or_false, fresh, and_false]
  by_cases fresh : lastRun = 0
  · -- from scratch: one pass with every atom reading every row
    simp only [CompiledQuery.run, empty, fresh, if_true, if_false] at ran
    obtain ⟨found', P', passed, done⟩ := run_bind_ok ran
    obtain ⟨rfl, rfl⟩ := run_pure_inv done
    obtain ⟨new, adds⟩ := passAll_adds typed grounded compiled later stocked passed
    exact findsNewMatches_of_adds adds fun sigma =>
      ⟨fun matched => ⟨matched, .inl fresh⟩, fun matched => matched.1⟩
  · rw [CompiledQuery.run_eq_passes q table includeSubsumed limit fresh empty, PoolM.run_map] at ran
    rcases folded : ((List.range q.atoms.length).foldlM (q.newPass table lastRun includeSubsumed)
      ⟨#[], limit⟩).run p with e | ⟨found', P'⟩
    · rw [folded] at ran
      cases ran
    · simp only [folded, Except.map, Except.ok.injEq, Prod.mk.injEq] at ran
      obtain ⟨rfl, rfl⟩ := ran
      obtain ⟨new, adds⟩ := passes_add typed grounded compiled indexed later stocked folded
      exact findsNewMatches_of_adds adds fun sigma =>
        ⟨fun matched => ⟨matched.1, .inr matched.2⟩, fun matched => ⟨matched.1, matched.2.resolve_left fresh⟩⟩

/-- A run from any last-run time is safe from a sound pool stocked for the
body, unless the pool overflows on the way. -/
theorem run_safe_new (typed : BodyTyped sortOf body)
    (grounded : Grounded (tableVarsOf body) (primAtoms body))
    (compiled : (compile size body).run p₀ = .ok (q, p₁)) {p : Pool} (later : p₁.Grows p)
    (stocked : Stocked p table body) (sound : p.Sound) (lastRun limit : Nat) :
    (q.run table lastRun includeSubsumed limit).Safe p := by
  have atoms : (q.atoms.zip (List.replicate q.atoms.length ((0 : Nat), (none : Option Nat)))).map (·.1) =
      q.atoms := List.map_fst_zip (by simp)
  by_cases empty : q.atoms.length = 0
  · by_cases fresh : lastRun = 0
    · simp only [CompiledQuery.run, empty, fresh, if_true]
      exact (searchIn_safe typed grounded compiled later stocked sound
        (show ([] : List (TableAtom × Nat × Option Nat)).map (·.1) = q.atoms from
          (List.length_eq_zero_iff.mp empty).symm)
        (@List.Forall₂.nil _ _ fun x sel => SelectedIn table includeSubsumed q.vars p x sel ∧ sel ≠ []) _).bind fun _ P _ sound' => safe_pure _ sound'
    · simp only [CompiledQuery.run, empty, fresh, if_true, if_false]
      exact safe_pure _ sound
  by_cases fresh : lastRun = 0
  · simp only [CompiledQuery.run, empty, fresh, if_true, if_false]
    refine (passIn_safe sound fun sels p' selected grows tables sound' => ?_).bind
      fun _ P _ sound' => safe_pure _ sound'
    exact searchIn_safe typed grounded compiled (later.trans grows) (stocked.grow grows tables) sound'
      atoms selected _
  · rw [CompiledQuery.run_eq_passes q table includeSubsumed limit fresh empty]
    refine (PoolM.safe_foldlM_inv (fun P' => p₁.Grows P' ∧ Stocked P' table body) ?_ ?_ ⟨later, stocked⟩
      sound).map _
    · intro i listed found₁ p' found₁' P' held ran'
      exact (newPass_adds typed grounded compiled (List.mem_range.mp listed) held.1 held.2 ran').1
    · intro i _ found₁ p' held sound'
      exact newPass_safe typed grounded compiled held.1 held.2 sound'

end Run

/-! ### One row, and a body without table atoms -/

/-- A write into the empty table makes its one entry. -/
theorem Table.put_empty_entries (k : List Value) (v : Value) (ts : Nat) (b : Bool) :
    (Table.empty.put k v ts b).entries = #[⟨k, true, ⟨v, ts, b⟩⟩] := by
  simp [Table.put, Table.offset?, Table.empty, Table.append]

end Saturate
