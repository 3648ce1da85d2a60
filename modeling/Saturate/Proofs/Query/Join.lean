import Saturate.Proofs.Query.Select

/-!
Generic join finds exactly the matches of a body.

A tuple of values for a compiled query's variables is a match of the body
when every table atom has a live row that its terms denote and every
primitive atom answers what its output term denotes (`Matches`). Run from
scratch, a query returns each match once, only matches, and all of them
unless it stopped at its limit (`FindsMatches`).

* `pass_spec`: a pass either finds an atom with nothing selected, or searches
  from one nonempty selection per atom.
* `layout_of_compile`: a compiled query and its selections have the layout
  the search needs.
* `completes_iff_matches`: a tuple completes the search from the start
  exactly when it is a match.
* `run_finds_exactly_the_matches`: the run from scratch finds the matches,
  and it runs without a fault until some name table shard or container table
  fills up.
-/

namespace Saturate

open PoolM CompiledQuery

/-! ### Matches of a body -/

/-- A table atom holds under `sigma` when its function's table has a live
row, not subsumed unless those count, whose columns its terms denote. -/
def TableAtom.HoldsUnder (table : String → Table) (includeSubsumed : Bool) (P : Pool)
    (vars : List String) (sigma : List Value) (a : TableAtom) : Prop :=
  ∃ e ∈ ((table a.func).rows includeSubsumed).map (·.2),
    List.Forall₂ (AtomTerm.Denotes P vars sigma) a.args (e.inputs ++ [e.output.value])

/-- A primitive atom holds under `sigma` when the primitive, applied at `P`
to what its input terms denote, answers what its output term denotes and
adds nothing to the pool. -/
def PrimHoldsUnder (P : Pool) (vars : List String) (sigma : List Value)
    (a : Prim × List AtomTerm) : Prop :=
  ∃ xs r, List.Forall₂ (AtomTerm.Denotes P vars sigma) a.2 (xs ++ [r]) ∧
    (a.1.applyPure xs).run P = .ok (some r, P)

/-- `sigma`, a value for each of `vars`, is a match of `body` at pool `P`:
every table atom and every primitive atom of the body holds under it. -/
structure Matches (table : String → Table) (includeSubsumed : Bool) (P : Pool) (vars : List String)
    (body : List (Atom Call)) (sigma : List Value) : Prop where
  length : sigma.length = vars.length
  rows : ∀ a ∈ tableAtoms body, a.HoldsUnder table includeSubsumed P vars sigma
  prims : ∀ a ∈ primAtoms body, PrimHoldsUnder P vars sigma a

/-- The tuples a run returned are the matches of the body at the pool it
reached: none twice, each a match, and every match unless the run stopped at
its limit. -/
structure FindsMatches (table : String → Table) (includeSubsumed : Bool) (P : Pool)
    (vars : List String) (body : List (Atom Call)) (limit : Nat) (found : List (List Value)) :
    Prop where
  nodup : found.Nodup
  sound : ∀ sigma ∈ found, Matches table includeSubsumed P vars body sigma
  complete : found.length < limit → ∀ sigma, Matches table includeSubsumed P vars body sigma →
    sigma ∈ found

/-! ### Typed bodies over stocked tables -/

/-- A body typed under `sortOf`, the sort of each variable: the terms of a
table atom have the sorts of its function's columns, and a primitive atom
calls a primitive some sort registers, at sorts of its terms that its
signature admits. -/
def BodyTyped (sortOf : String → SortInfo) (body : List (Atom Call)) : Prop :=
  ∀ a ∈ body, match a.head with
    | .func f => a.args.map (AtomTerm.sortUnder sortOf) = f.inputs ++ [f.output]
    | .prim prim _ =>
      prim.Registered ∧ prim.signature.Admits (a.args.map (AtomTerm.sortUnder sortOf))

/-- What a query over `body` needs of the pool and of the tables it reads:
the names of the base sorts; containers that hold values of named sorts; for
each function of a table atom, the names of its column sorts and live rows
whose columns are values of those sorts; for each primitive atom, a pool
that hosts its primitive. -/
structure Stocked (p : Pool) (table : String → Table) (body : List (Atom Call)) : Prop where
  base : ∀ n ∈ baseSortNames, p.Entered n
  contents : p.ContentsEntered
  funcs : ∀ a ∈ body, ∀ f, a.head = .func f → (∀ s ∈ f.inputs ++ [f.output], p.Entered s.name) ∧
    ∀ e ∈ (table f.name).entries, e.live = true →
      List.Forall₂ p.Holds (f.inputs ++ [f.output]) (e.inputs ++ [e.output.value])
  prims : ∀ a ∈ body, ∀ prim ins, a.head = .prim prim ins → prim.HostedIn p

theorem mem_tableAtoms {body : List (Atom Call)} {a : TableAtom} (mem : a ∈ tableAtoms body) :
    ∃ atom ∈ body, ∃ f, atom.head = .func f ∧ a = ⟨f.name, atom.args⟩ := by
  obtain ⟨atom, listed, picked⟩ := List.mem_filterMap.mp mem
  split at picked
  · rename_i f head
    cases picked
    exact ⟨atom, listed, f, head, rfl⟩
  · cases picked

theorem mem_primAtoms {body : List (Atom Call)} {x : Prim × List AtomTerm} (mem : x ∈ primAtoms body) :
    ∃ atom ∈ body, ∃ ins, atom.head = .prim x.1 ins ∧ atom.args = x.2 := by
  obtain ⟨atom, listed, picked⟩ := List.mem_filterMap.mp mem
  split at picked
  · rename_i prim ins head
    cases picked
    exact ⟨atom, listed, ins, head, rfl⟩
  · cases picked

theorem Table.mem_rows {t : Table} {includeSubsumed : Bool} {e : Entry}
    (mem : e ∈ (t.rows includeSubsumed).map (·.2)) : e ∈ t.entries ∧ e.live = true := by
  simp only [Table.rows, List.mem_map, List.mem_filterMap] at mem
  obtain ⟨⟨i, e'⟩, ⟨⟨e'', j⟩, entry, kept⟩, rfl⟩ := mem
  by_cases live : (e''.live && (includeSubsumed || !e''.output.subsumed)) = true
  · rw [if_pos live] at kept
    cases kept
    exact ⟨Array.mem_toList_iff.mp (List.mem_of_getElem? (List.mem_zipIdx_iff_getElem?.mp entry)),
      (Bool.and_eq_true _ _ ▸ live).1⟩
  · rw [if_neg live] at kept
    cases kept

theorem Table.rowsBetween_zero_none (t : Table) (includeSubsumed : Bool) :
    t.rowsBetween 0 none includeSubsumed = t.rows includeSubsumed := by
  simp [rowsBetween]

section Stock

variable {sortOf : String → SortInfo} {body : List (Atom Call)} {p : Pool} {table : String → Table}

/-- The rows a table atom reads are values of the sorts of its terms, with
named sorts. -/
theorem Stocked.rows (stocked : Stocked p table body) (typed : BodyTyped sortOf body)
    {a : TableAtom} (mem : a ∈ tableAtoms body) (includeSubsumed : Bool) :
    ∀ e ∈ ((table a.func).rows includeSubsumed).map (·.2),
      List.Forall₂ p.Holds (a.args.map (AtomTerm.sortUnder sortOf)) (e.inputs ++ [e.output.value]) ∧
      ∀ v ∈ e.inputs ++ [e.output.value], p.Entered v.sort := by
  intro e listed
  obtain ⟨atom, inBody, f, head, rfl⟩ := mem_tableAtoms mem
  obtain ⟨named, live⟩ := stocked.funcs atom inBody f head
  have sorts : atom.args.map (AtomTerm.sortUnder sortOf) = f.inputs ++ [f.output] := by
    have := typed atom inBody
    rw [head] at this
    exact this
  obtain ⟨entry, alive⟩ := Table.mem_rows listed
  have held := live e entry alive
  refine ⟨sorts ▸ held, fun v hv => ?_⟩
  -- a column value has its column's sort, whose name is entered
  obtain ⟨i, hi⟩ := List.mem_iff_getElem?.mp hv
  have inside : i < (f.inputs ++ [f.output]).length := by
    rw [held.length_eq]
    exact (List.getElem?_eq_some_iff.mp hi).1
  rw [(forall₂_getElem? held (List.getElem?_eq_getElem inside) hi).sort]
  exact named _ (List.getElem_mem inside)

/-- A row a table atom reads has a column for each of its terms. -/
theorem Stocked.arity (stocked : Stocked p table body) (typed : BodyTyped sortOf body)
    {a : TableAtom} (mem : a ∈ tableAtoms body) (includeSubsumed : Bool) :
    ∀ e ∈ ((table a.func).rows includeSubsumed).map (·.2), e.inputs.length + 1 = a.args.length := by
  intro e listed
  have := (stocked.rows typed mem includeSubsumed e listed).1.length_eq
  simp only [List.length_map, List.length_append, List.length_singleton] at this
  exact this.symm

end Stock

/-! ### Computations over lists -/

namespace PoolM

variable {α β : Type}

/-- A property of the prefix a fold has read, kept by each step, holds of
what the whole fold returns. -/
theorem foldlM_induction_on {f : β → α → PoolM β} {xs : List α} (I : List α → β → Pool → Prop)
    (step : ∀ pre x b p b' p', x ∈ xs → I pre b p → (f b x).run p = .ok (b', p') →
      I (pre ++ [x]) b' p')
    {b b' : β} {p p' : Pool} (init : I [] b p) (ran : (xs.foldlM f b).run p = .ok (b', p')) :
    I xs b' p' := by
  suffices ∀ ys pre b p, pre ++ ys = xs → I pre b p → (ys.foldlM f b).run p = .ok (b', p') →
      I xs b' p' from this xs [] b p rfl init ran
  intro ys
  induction ys with
  | nil =>
    intro pre b p whole h done
    obtain ⟨rfl, rfl⟩ := run_pure_inv done
    simpa [← whole] using h
  | cons y ys ih =>
    intro pre b p whole h done
    rw [List.foldlM_cons] at done
    obtain ⟨b₁, p₁, first, rest⟩ := run_bind_ok done
    exact ih (pre ++ [y]) b₁ p₁ (by simp [← whole])
      (step pre y b p b₁ p₁ (by simp [← whole]) h first) rest

theorem keepsTables_filterMapM {f : α → PoolM (Option β)} (hf : ∀ a, (f a).KeepsTables) :
    ∀ xs : List α, (xs.filterMapM f).KeepsTables
  | [] => keepsTables_pure []
  | x :: xs => by
    rw [List.filterMapM_cons]
    refine (hf x).bind fun o => ?_
    cases o with
    | none => exact keepsTables_filterMapM hf xs
    | some b => exact (keepsTables_filterMapM hf xs).bind fun bs => keepsTables_pure _

theorem Safe.map {m : PoolM α} {p : Pool} (h : m.Safe p) (f : α → β) : (f <$> m).Safe p := by
  rw [map_eq_pure_bind]
  exact h.bind fun a q _ sound => safe_pure (f a) sound

/-- A `filterMapM` whose every step is safe from every sound pool grown from
the start is safe. -/
theorem safe_filterMapM {f : α → PoolM (Option β)} :
    ∀ {xs : List α} {p : Pool}, (∀ x ∈ xs, ∀ q, p.Grows q → q.Sound → (f x).Safe q) →
      p.Sound → (xs.filterMapM f).Safe p
  | [], _, _, sound => safe_pure [] sound
  | x :: xs, p, step, sound => by
    rw [List.filterMapM_cons]
    refine (step x List.mem_cons_self p (.refl p) sound).bind fun o q ran sound' => ?_
    have rest : (xs.filterMapM f).Safe q := safe_filterMapM
      (fun y hy r grown => step y (List.mem_cons_of_mem _ hy) r ((run_grows ran).trans grown)) sound'
    cases o with
    | none => exact rest
    | some b => exact rest.bind fun bs r _ sound'' => safe_pure _ sound''

end PoolM

/-- A literal is interned without a fault unless the pool overflows. -/
theorem Literal.toValue_safe (l : Literal) {p : Pool} (sound : p.Sound) : l.toValue.Safe p := by
  cases l with
  | string s =>
    by_cases full : p.Overflows
    · exact .inr ⟨p, .refl p, full⟩
    · exact .inl ⟨_, _, run_grow _ p, (p.internString_holds sound full s).1⟩
  | int _ | float _ | bool _ | unit => exact safe_pure _ sound

/-- A literal's value, read at a sound pool that already holds it, is a value
of the literal's sort. -/
theorem Literal.toValue_holds {l : Literal} {P : Pool} (sound : P.Sound) {x : Value}
    (ran : l.toValue.run P = .ok (x, P)) : P.Holds (TypeInfo.literalSort l) x := by
  cases l with
  | string s =>
    simp only [Literal.toValue, PoolM.string, run_grow, Except.ok.injEq, Prod.mk.injEq] at ran
    obtain ⟨rfl, same⟩ := ran
    -- interning changed nothing, so the string has its number already
    have numbered := P.names.intern_numbers s
    rw [show (P.names.intern s).1 = P.names from congrArg Pool.names same] at numbered
    exact ⟨rfl, by simp [Pool.string?, Pool.internString_eq, sound.names.names s _ numbered]⟩
  | int _ | float _ | bool _ | unit =>
    simp only [Literal.toValue, run_pure, Except.ok.injEq, Prod.mk.injEq] at ran
    obtain ⟨rfl, -⟩ := ran
    rfl

namespace TableAtom

theorem tests_keepsTables (a : TableAtom) : a.tests.KeepsTables := by
  unfold tests
  refine keepsTables_filterMapM (fun ⟨t, i⟩ => ?_) _
  cases t with
  | lit l => exact (Literal.toValue_keepsTables l).map _
  | var v =>
    dsimp only
    split <;> exact keepsTables_pure _

theorem tests_safe (a : TableAtom) {p : Pool} (sound : p.Sound) : a.tests.Safe p := by
  unfold tests
  refine safe_filterMapM (fun ⟨t, i⟩ _ q _ sound' => ?_) sound
  cases t with
  | lit l => exact (Literal.toValue_safe l sound').map _
  | var v =>
    dsimp only
    split <;> exact safe_pure _ sound'

end TableAtom

/-! ### A pass from scratch -/

/-- A table atom's selection at pool `P`: the rows of its table, projected,
that pass the tests the atom computed from some pool that grew into `P`. -/
def Selected (table : String → Table) (includeSubsumed : Bool) (vars : List String) (P : Pool)
    (a : TableAtom) (sel : List (List Value)) : Prop :=
  ∃ tests p p', a.tests.run p = .ok (tests, p') ∧ p'.Grows P ∧
    sel = a.select vars tests ((table a.func).rows includeSubsumed)

theorem Selected.grow {table : String → Table} {includeSubsumed : Bool} {vars : List String}
    {P Q : Pool} {a : TableAtom} {sel : List (List Value)}
    (h : Selected table includeSubsumed vars P a sel) (grows : P.Grows Q) :
    Selected table includeSubsumed vars Q a sel := by
  obtain ⟨tests, p, p', ran, grown, rfl⟩ := h
  exact ⟨tests, p, p', ran, grown.trans grows, rfl⟩

/-- What picking the selections of `atoms`, in order, gives at pool `P`:
nothing, when some atom selects nothing, or a nonempty selection of each. -/
def Picked (table : String → Table) (includeSubsumed : Bool) (vars : List String)
    (atoms : List TableAtom) (P : Pool) : Option (Array (List (List Value))) → Prop
  | none => ∃ a ∈ atoms, Selected table includeSubsumed vars P a []
  | some nodes => ∃ layers : List (TableAtom × List (List Value)), layers.map (·.1) = atoms ∧
      nodes = (layers.map (·.2)).toArray ∧
      ∀ l ∈ layers, Selected table includeSubsumed vars P l.1 l.2 ∧ l.2 ≠ []

section Pick

variable {q : CompiledQuery} {table : String → Table} {includeSubsumed : Bool}

/-- One pick from scratch keeps what `Picked` says, with the atom added to
those read, at the pool it reached; it only adds names. -/
theorem pick_spec {pre : List TableAtom} {acc acc' : Option (Array (List (List Value)))}
    {a : TableAtom} {P P' : Pool} (picked : Picked table includeSubsumed q.vars pre P acc)
    (ran : (q.pick table includeSubsumed acc (a, 0, none)).run P = .ok (acc', P')) :
    Picked table includeSubsumed q.vars (pre ++ [a]) P' acc' ∧ P'.tables = P.tables := by
  unfold CompiledQuery.pick at ran
  cases acc with
  | none =>
    obtain ⟨rfl, rfl⟩ := run_pure_inv ran
    obtain ⟨a', mem, selected⟩ := picked
    exact ⟨⟨a', List.mem_append_left _ mem, selected⟩, rfl⟩
  | some nodes =>
    dsimp only at ran
    obtain ⟨tests, P₁, tested, rest⟩ := run_bind_ok ran
    have tables : P₁.tables = P.tables := a.tests_keepsTables P tests P₁ tested
    -- a pass from scratch reads every row of the atom's table
    have selected : Selected table includeSubsumed q.vars P₁ a
        (a.select q.vars tests ((table a.func).rowsBetween 0 none includeSubsumed)) :=
      ⟨tests, P, P₁, tested, .refl _, by rw [Table.rowsBetween_zero_none]⟩
    split at rest
    · rename_i empty
      obtain ⟨rfl, rfl⟩ := run_pure_inv rest
      exact ⟨⟨a, by simp, List.isEmpty_iff.mp empty ▸ selected⟩, tables⟩
    · rename_i nonempty
      obtain ⟨rfl, rfl⟩ := run_pure_inv rest
      obtain ⟨layers, atoms, rfl, each⟩ := picked
      refine ⟨⟨layers ++ [(a, a.select q.vars tests ((table a.func).rowsBetween 0 none includeSubsumed))],
        by simp [atoms], by simp, fun l hl => ?_⟩, tables⟩
      rcases List.mem_append.mp hl with hl | hl
      · exact ⟨(each l hl).1.grow (run_grows tested), (each l hl).2⟩
      · rw [List.mem_singleton.mp hl]
        exact ⟨selected, fun empty => nonempty (List.isEmpty_iff.mpr empty)⟩

theorem pick_safe (acc : Option (Array (List (List Value)))) (x : TableAtom × Nat × Option Nat)
    {P : Pool} (sound : P.Sound) : (q.pick table includeSubsumed acc x).Safe P := by
  unfold CompiledQuery.pick
  cases acc with
  | none => exact safe_pure _ sound
  | some nodes =>
    refine (x.1.tests_safe sound).bind fun tests P' _ sound' => ?_
    dsimp only
    split <;> exact safe_pure _ sound'

/-- The picks of a pass from scratch, over all the atoms: `Picked` of them,
at a pool with the same container tables. -/
theorem picks_spec {p p' : Pool} {res : Option (Array (List (List Value)))}
    (ran : ((q.atoms.zip (List.replicate q.atoms.length (0, none))).foldlM
      (q.pick table includeSubsumed) (some #[])).run p = .ok (res, p')) :
    Picked table includeSubsumed q.vars q.atoms p' res ∧ p'.tables = p.tables := by
  have picked := foldlM_induction_on
    (fun pre acc P => Picked table includeSubsumed q.vars (pre.map (·.1)) P acc ∧ P.tables = p.tables)
    ?step ?init ran
  case init => exact ⟨⟨[], rfl, rfl, by simp⟩, rfl⟩
  case step =>
    rintro pre ⟨a, lo, hi⟩ acc P acc' P' mem ⟨picked, tables⟩ ran
    have range : (lo, hi) = (0, none) := List.eq_of_mem_replicate (List.of_mem_zip mem).2
    cases range
    obtain ⟨picked', tables'⟩ := pick_spec picked ran
    exact ⟨by simpa using picked', tables'.trans tables⟩
  rwa [List.map_fst_zip (by simp)] at picked

/-- **What a pass from scratch does.** It reads each atom's rows through the
tests it computes; either some atom selects nothing and the pass adds
nothing, or it searches from one nonempty selection per atom, in order, from
a pool that only gained names. -/
theorem pass_spec {found found' : Found} {p P : Pool}
    (ran : (q.pass table (List.replicate q.atoms.length (0, none)) includeSubsumed found).run p =
      .ok (found', P)) :
    (found' = found ∧ ∃ a ∈ q.atoms, Selected table includeSubsumed q.vars P a []) ∨
      ∃ (layers : List (TableAtom × List (List Value))) (p' : Pool), layers.map (·.1) = q.atoms ∧
        (∀ l ∈ layers, Selected table includeSubsumed q.vars p' l.1 l.2 ∧ l.2 ≠ []) ∧
        p.Grows p' ∧ p'.tables = p.tables ∧
        (JoinStep.search q.program (Array.replicate q.vars.length .placeholder)
          (layers.map (·.2)).toArray found).run p' = .ok (found', P) := by
  unfold CompiledQuery.pass at ran
  obtain ⟨res, p', picking, rest⟩ := run_bind_ok ran
  obtain ⟨picked, tables⟩ := picks_spec picking
  cases res with
  | none =>
    obtain ⟨rfl, rfl⟩ := run_pure_inv rest
    exact .inl ⟨rfl, picked⟩
  | some nodes =>
    obtain ⟨layers, atoms, rfl, each⟩ := picked
    exact .inr ⟨layers, p', atoms, each, run_grows picking, tables, rest⟩

/-- A pass from scratch from a sound pool runs without a fault when the search
from every pick it can make does. -/
theorem pass_safe {found : Found} {p : Pool} (sound : p.Sound)
    (searches : ∀ (layers : List (TableAtom × List (List Value))) (p' : Pool),
      layers.map (·.1) = q.atoms →
      (∀ l ∈ layers, Selected table includeSubsumed q.vars p' l.1 l.2 ∧ l.2 ≠ []) →
      p.Grows p' → p'.tables = p.tables → p'.Sound →
      (JoinStep.search q.program (Array.replicate q.vars.length .placeholder)
        (layers.map (·.2)).toArray found).Safe p') :
    (q.pass table (List.replicate q.atoms.length (0, none)) includeSubsumed found).Safe p := by
  unfold CompiledQuery.pass
  refine (safe_foldlM (fun x _ acc P _ sound' => pick_safe acc x sound') sound).bind
    fun res p' picking sound' => ?_
  obtain ⟨picked, tables⟩ := picks_spec picking
  cases res with
  | none => exact safe_pure _ sound'
  | some nodes =>
    obtain ⟨layers, atoms, rfl, each⟩ := picked
    exact searches layers p' atoms each (run_grows picking) tables sound'

end Pick

/-! ### Calls and primitive atoms -/

section Calls

variable {P : Pool} {vars : List String} {sigma : List Value}

theorem List.forall₂_append_singleton_iff {α β : Type} {R : α → β → Prop} {l₁ : List α}
    {l₂ : List β} {a : α} {b : β} :
    List.Forall₂ R (l₁ ++ [a]) (l₂ ++ [b]) ↔ List.Forall₂ R l₁ l₂ ∧ R a b := by
  constructor
  · intro h
    have same : l₁.length = l₂.length := by simpa using h.length_eq
    have front := List.forall₂_take l₁.length h
    have back := List.forall₂_drop l₁.length h
    rw [List.take_left, same, List.take_left] at front
    rw [List.drop_left, same, List.drop_left] at back
    exact ⟨front, List.forall₂_cons.mp back |>.1⟩
  · rintro ⟨front, last⟩
    exact List.rel_append front (.cons last .nil)

/-- The term a call argument compiles denotes the value the call reads. -/
theorem ArgOf.denotes_iff (length : sigma.length = vars.length) :
    ∀ {arg : Arg} {t : AtomTerm} {x : Value}, ArgOf P vars arg t →
      (t.Denotes P vars sigma x ↔ x = JoinStep.argValue sigma.toArray arg)
  | .slot i, .var v, x, found => by
    have found : vars.idxOf? v = some i := found
    have inside : i < sigma.length := by
      rw [length]
      exact (List.idxOf?_eq_some_iff_idxOf.mp found).1
    simp [AtomTerm.Denotes, found, JoinStep.argValue, List.getElem?_eq_getElem inside, eq_comm]
  | .const y, .lit l, x, value => by
    have value : l.toValue.run P = .ok (y, P) := value
    simp [AtomTerm.Denotes, JoinStep.argValue, value, eq_comm]
  | .slot _, .lit _, _, h | .const _, .var _, _, h => h.elim

/-- The output term of a call denotes what its output argument names. -/
theorem ArgOf.is_iff : ∀ {arg : Arg} {t : AtomTerm} {r : Value}, ArgOf P vars arg t →
    (t.Denotes P vars sigma r ↔ arg.Is sigma r)
  | .slot i, .var v, r, found => by
    have found : vars.idxOf? v = some i := found
    simp [AtomTerm.Denotes, found, Arg.Is]
  | .const y, .lit l, r, value => by
    have value : l.toValue.run P = .ok (y, P) := value
    simp [AtomTerm.Denotes, Arg.Is, value, eq_comm]
  | .slot _, .lit _, _, h | .const _, .var _, _, h => h.elim

theorem ArgOf.forall₂_denotes_iff (length : sigma.length = vars.length) :
    ∀ {args : List Arg} {ts : List AtomTerm}, List.Forall₂ (ArgOf P vars) args ts →
      ∀ xs : List Value, List.Forall₂ (AtomTerm.Denotes P vars sigma) ts xs ↔
        xs = args.map (JoinStep.argValue sigma.toArray)
  | _, _, .nil, xs => by simp [List.forall₂_nil_left_iff]
  | _, _, .cons head tail, xs => by
    cases xs with
    | nil => simp
    | cons x xs =>
      rw [List.forall₂_cons, head.denotes_iff length, forall₂_denotes_iff length tail xs]
      simp

/-- **A call answers exactly when its primitive atom holds.** For a call
compiled from a primitive atom, a complete tuple answers the call exactly
when the atom holds under it. -/
theorem CallOf.answered_iff {step : JoinStep} {x : Prim × List AtomTerm}
    (call : CallOf P vars step x) (length : sigma.length = vars.length) :
    step.Answered P sigma ↔ PrimHoldsUnder P vars sigma x := by
  obtain ⟨prim', terms⟩ := x
  cases step with
  | intersect => exact call.elim
  | call prim args out check =>
    obtain ⟨rfl, inputs, o, last, output⟩ := call
    -- the atom's terms are its inputs followed by its output
    have split : terms = terms.dropLast ++ [o] := (List.dropLast_append_getLast? o last).symm
    simp only [JoinStep.Answered, PrimHoldsUnder]
    rw [split]
    constructor
    · rintro ⟨r, answer, named⟩
      refine ⟨_, r, List.forall₂_append_singleton_iff.mpr
        ⟨(ArgOf.forall₂_denotes_iff length inputs _).mpr rfl, (output.is_iff).mpr named⟩, answer⟩
    · rintro ⟨xs, r, denoted, answer⟩
      obtain ⟨ins, named⟩ := List.forall₂_append_singleton_iff.mp denoted
      rw [(ArgOf.forall₂_denotes_iff length inputs xs).mp ins] at answer
      exact ⟨r, answer, output.is_iff.mp named⟩

end Calls

/-! ### The search from scratch -/

section Start

variable {size : String → Nat} {body : List (Atom Call)} {p₀ p₁ : Pool} {q : CompiledQuery}
  {table : String → Table} {includeSubsumed : Bool} {layers : List (TableAtom × List (List Value))}

theorem nodesAt_zero (vars : List String) (layers : List (TableAtom × List (List Value)))
    (tuple : Array Value) : nodesAt vars layers 0 tuple = (layers.map (·.2)).toArray := by
  simp [nodesAt, TableAtom.project, nodeAt_nil]

/-- The variables a table atom of a compiled query mentions are among the
first, table, variables of the query. -/
theorem mentions_of_compile (grounded : Grounded (tableVarsOf body) (primAtoms body))
    (compiled : (compile size body).run p₀ = .ok (q, p₁)) {a : TableAtom} (mem : a ∈ q.atoms) :
    ∀ v ∈ a.vars, v ∈ q.vars.take (ordered size body).length := by
  obtain ⟨atoms, -, more, vars, -⟩ := compile_spec grounded compiled
  intro v hv
  rw [vars, List.take_left' (by simp)]
  exact mem_ordered_iff.mpr (List.mem_flatMap.mpr ⟨a, atoms ▸ mem, hv⟩)

/-- **The layout of a compiled query.** With one selection per table atom,
in order, of tuples with a value for each variable the atom mentions, a
compiled query has the layout the search relies on. -/
theorem layout_of_compile (grounded : Grounded (tableVarsOf body) (primAtoms body))
    (compiled : (compile size body).run p₀ = .ok (q, p₁)) (atoms : layers.map (·.1) = q.atoms)
    (shape : ∀ a sel, (a, sel) ∈ layers → ∀ w ∈ sel, w.length = (q.vars.filter (· ∈ a.vars)).length) :
    Layout q.vars (ordered size body).length (fun k => ((ordered size body).map (·.2))[k]?.getD [])
      layers := by
  obtain ⟨hatoms, -, more, hvars, nodup, -⟩ := compile_spec grounded compiled
  have occ := occurs_orderVars size (tableAtoms body)
  -- the `k`-th table variable is the `k`-th entry of the ordered variables
  have entry : ∀ k v, q.vars[k]? = some v → k < (ordered size body).length →
      ∃ is, (ordered size body)[k]? = some (v, is) := by
    intro k v hv lt
    rw [hvars, List.getElem?_append_left (by simpa using lt), List.getElem?_map] at hv
    obtain ⟨⟨w, is⟩, found, same⟩ := Option.map_eq_some_iff.mp hv
    cases same
    exact ⟨is, found⟩
  refine ⟨by simp [hvars], nodup, fun a sel layer =>
    mentions_of_compile grounded compiled (atoms ▸ List.mem_map_of_mem layer),
    fun k v hv lt j => ?_, fun k lt => ?_, shape⟩
  · obtain ⟨is, found⟩ := entry k v hv lt
    simp only [List.getElem?_map, found, Option.map_some, Option.getD_some]
    rw [occ.atoms v is (List.mem_of_getElem? found) j, ← hatoms, ← atoms]
    simp only [List.getElem?_map, Option.map_eq_some_iff]
    constructor
    · rintro ⟨a, ⟨⟨a', sel⟩, layer, rfl⟩, hv⟩
      exact ⟨a', sel, layer, hv⟩
    · rintro ⟨a, sel, layer, hv⟩
      exact ⟨a, ⟨(a, sel), layer, rfl⟩, hv⟩
  · obtain ⟨⟨w, is⟩, found⟩ : ∃ e, (ordered size body)[k]? = some e :=
      Option.isSome_iff_exists.mp (by simpa using lt)
    simp only [List.getElem?_map, found, Option.map_some, Option.getD_some]
    exact occ.nonempty w is (List.mem_of_getElem? found)

/-- **A tuple completes the search from scratch exactly when it is a match.**
Given one selection per table atom, in order, computed by tests that grew into
`P`, and rows with a column for each term of their atom. -/
theorem completes_iff_matches (grounded : Grounded (tableVarsOf body) (primAtoms body))
    (compiled : (compile size body).run p₀ = .ok (q, p₁)) {P : Pool} (later : p₁.Grows P)
    (atoms : layers.map (·.1) = q.atoms)
    (selected : ∀ l ∈ layers, Selected table includeSubsumed q.vars P l.1 l.2)
    (arity : ∀ a ∈ q.atoms, ∀ e ∈ ((table a.func).rows includeSubsumed).map (·.2),
      e.inputs.length + 1 = a.args.length)
    {tuple : Array Value} {sigma : List Value} :
    Completes q.vars (ordered size body).length layers P q.program 0 (ordered size body).length
      tuple sigma ↔ Matches table includeSubsumed P q.vars body sigma := by
  obtain ⟨hatoms, -, more, hvars, nodup, -, calls⟩ := compile_spec grounded compiled
  obtain ⟨toPrims, fromPrims⟩ := calls P later
  -- a layer's selection holds the projection of a complete tuple exactly when its atom holds
  have rows : ∀ a sel, (a, sel) ∈ layers → sigma.length = q.vars.length →
      (a.project q.vars sigma ∈ sel ↔ a.HoldsUnder table includeSubsumed P q.vars sigma) := by
    intro a sel layer length
    obtain ⟨tests, p, p', ran, grown, rfl⟩ : Selected table includeSubsumed q.vars P a sel :=
      selected (a, sel) layer
    have mem : a ∈ q.atoms := atoms ▸ List.mem_map_of_mem layer
    exact TableAtom.mem_select_iff ran grown nodup
      (fun v hv => List.mem_of_mem_take (mentions_of_compile grounded compiled mem v hv))
      (arity a mem) length
  constructor
  · intro done
    refine ⟨done.length, fun a mem => ?_, fun x mem => ?_⟩
    · obtain ⟨⟨a', sel⟩, layer, rfl⟩ := List.mem_map.mp (atoms ▸ hatoms ▸ mem)
      exact (rows a' sel layer done.length).mp (done.rows a' sel layer)
    · obtain ⟨step, inProg, call⟩ := fromPrims x mem
      exact (call.answered_iff done.length).mp (done.calls step inProg)
  · intro matched
    refine ⟨matched.length, fun i bound => ?_, fun a sel layer => ?_, fun step inProg => ?_⟩
    · -- no slot is bound at the start
      unfold SlotBound at bound
      omega
    · exact (rows a sel layer matched.length).mpr
        (matched.rows a (hatoms ▸ atoms ▸ List.mem_map_of_mem layer))
    · cases step with
      | intersect => trivial
      | call prim args out check =>
        obtain ⟨x, mem, call⟩ := toPrims prim args out check inProg
        exact (call.answered_iff matched.length).mpr (matched.prims x mem)

/-- A pool stays stocked as it grows, so long as its containers hold values
of named sorts. -/
theorem Stocked.grow_entered {p p' : Pool} (stocked : Stocked p table body)
    (grows : p.Grows p') (contents : p'.ContentsEntered) : Stocked p' table body := by
  refine ⟨fun n hn => (stocked.base n hn).grow grows, contents,
    fun a mem f head => ?_, fun a mem prim ins head => (stocked.prims a mem prim ins head).grow grows⟩
  obtain ⟨named, live⟩ := stocked.funcs a mem f head
  exact ⟨fun s hs => (named s hs).grow grows,
    fun e entry alive => (live e entry alive).imp fun _ _ held => held.grow grows⟩

theorem Stocked.grow {p p' : Pool} (stocked : Stocked p table body)
    (grows : p.Grows p') (tables : p'.tables = p.tables) : Stocked p' table body :=
  stocked.grow_entered grows (stocked.contents.grow grows tables)

/-- The sort of the term a call argument compiles, at a sound pool: a slot
holds a variable, whose sort it is; a constant is a literal's value. -/
theorem ArgOf.sorted {P : Pool} {vars : List String} {sortOf : String → SortInfo} (sound : P.Sound) :
    ∀ {arg : Arg} {t : AtomTerm}, ArgOf P vars arg t → arg.Sorted vars sortOf P (t.sortUnder sortOf)
  | .slot i, .var v, found => by
    obtain ⟨inside, at_i, -⟩ := List.idxOf?_eq_some_iff.mp found
    exact ⟨v, List.getElem?_eq_some_iff.mpr ⟨inside, at_i⟩, rfl⟩
  | .const y, .lit l, value => Literal.toValue_holds sound value
  | .slot _, .lit _, h | .const _, .var _, h => h.elim

variable {sortOf : String → SortInfo}

/-- Nonempty selections of a compiled body's table atoms, at a pool stocked
for the body, lay out its search: each holds projections of whole rows. -/
theorem layout_of_selected (typed : BodyTyped sortOf body)
    (grounded : Grounded (tableVarsOf body) (primAtoms body))
    (compiled : (compile size body).run p₀ = .ok (q, p₁)) {p' : Pool}
    (stocked : Stocked p' table body) (atoms : layers.map (·.1) = q.atoms)
    (selected : ∀ l ∈ layers, Selected table includeSubsumed q.vars p' l.1 l.2 ∧ l.2 ≠ []) :
    Layout q.vars (ordered size body).length (fun k => ((ordered size body).map (·.2))[k]?.getD [])
      layers := by
  obtain ⟨hatoms, -⟩ := compile_spec grounded compiled
  refine layout_of_compile grounded compiled atoms fun a sel layer w hw => ?_
  obtain ⟨⟨tests, p, p'', tested, -, rfl⟩, -⟩ :
      Selected table includeSubsumed q.vars p' a sel ∧ sel ≠ [] := selected (a, sel) layer
  have inBody : a ∈ tableAtoms body := hatoms ▸ atoms ▸ List.mem_map_of_mem layer
  exact TableAtom.length_of_mem_select (stocked.arity typed inBody includeSubsumed) hw

/-- A pool stocked for the body serves its compiled program: it has entered
the base sorts, the contents of the tables, and the primitives the program
calls with the sorts of their constants. -/
theorem Stocked.serves (grounded : Grounded (tableVarsOf body) (primAtoms body))
    (compiled : (compile size body).run p₀ = .ok (q, p₁)) {p' : Pool} (later : p₁.Grows p')
    (stocked : Stocked p' table body) : p'.Serves q.program := by
  obtain ⟨-, -, -, -, -, -, calls⟩ := compile_spec grounded compiled
  refine ⟨stocked.base, stocked.contents, fun prim args out check inProg => ?_⟩
  obtain ⟨x, mem, call⟩ := (calls p' later).1 prim args out check inProg
  obtain ⟨rfl, inputs, -⟩ := call
  obtain ⟨atom, inBody, ins, head, -⟩ := mem_primAtoms mem
  refine ⟨stocked.prims atom inBody _ ins head, fun v hv => ?_⟩
  obtain ⟨t, -, literal⟩ := List.Forall₂.exists_of_mem inputs hv
  cases t with
  | lit l => exact stocked.base _ (Literal.toValue_result literal).2
  | var _ => exact literal.elim

/-- Over a sound pool stocked for a typed body, every call of the compiled
program is to a registered primitive that admits the sorts of its arguments
and its output. -/
theorem Stocked.calls_sorted (typed : BodyTyped sortOf body)
    (grounded : Grounded (tableVarsOf body) (primAtoms body))
    (compiled : (compile size body).run p₀ = .ok (q, p₁)) {p' : Pool} (later : p₁.Grows p')
    (stocked : Stocked p' table body) (sound : p'.Sound) :
    ∀ step ∈ q.program, step.Sorted q.vars sortOf p' := by
  obtain ⟨-, -, -, -, -, -, calls⟩ := compile_spec grounded compiled
  intro step inProg
  cases step with
  | intersect => trivial
  | call prim args out check =>
    obtain ⟨x, mem, call⟩ := (calls p' later).1 prim args out check inProg
    obtain ⟨rfl, inputs, o, last, output⟩ := call
    obtain ⟨atom, inBody, ins, head, terms⟩ := mem_primAtoms mem
    have atomTyped := typed atom inBody
    rw [head] at atomTyped
    obtain ⟨registered, admits⟩ := atomTyped
    -- the atom's terms are its inputs followed by its output
    have split : x.2 = x.2.dropLast ++ [o] := (List.dropLast_append_getLast? o last).symm
    rw [terms, split, List.map_append, List.map_singleton] at admits
    exact ⟨registered, stocked.prims atom inBody _ ins head, _, _, admits,
      List.forall₂_map_right_iff.mpr (inputs.imp fun _ _ h => h.sorted sound), output.sorted sound⟩

/-- **The search from scratch finds the matches.** From one nonempty
selection per atom, at a pool grown from the compiled query's and stocked for
the body, the search returns the matches of the body at the pool it reaches. -/
theorem search_finds_matches (typed : BodyTyped sortOf body)
    (grounded : Grounded (tableVarsOf body) (primAtoms body))
    (compiled : (compile size body).run p₀ = .ok (q, p₁)) {p' P : Pool} (later : p₁.Grows p')
    (stocked : Stocked p' table body) (atoms : layers.map (·.1) = q.atoms)
    (selected : ∀ l ∈ layers, Selected table includeSubsumed q.vars p' l.1 l.2 ∧ l.2 ≠ [])
    {limit : Nat} {found : Found}
    (ran : (JoinStep.search q.program (Array.replicate q.vars.length .placeholder)
      (layers.map (·.2)).toArray ⟨#[], limit⟩).run p' = .ok (found, P)) :
    FindsMatches table includeSubsumed P q.vars body limit found.tuples.toList := by
  obtain ⟨hatoms, -, -, -, -, sched, -⟩ := compile_spec grounded compiled
  have arity : ∀ a ∈ q.atoms, ∀ e ∈ ((table a.func).rows includeSubsumed).map (·.2),
      e.inputs.length + 1 = a.args.length := fun a mem =>
    stocked.arity typed (hatoms ▸ mem) includeSubsumed
  have L := layout_of_selected typed grounded compiled stocked atoms selected
  have size : (Array.replicate q.vars.length Value.placeholder).size = q.vars.length :=
    Array.size_replicate
  obtain ⟨B', fits⟩ := sched.fits L.table (Nat.zero_le _) (Nat.le_refl _) []
    fun i => by simp [SlotBound]
  have serves := stocked.serves grounded compiled later
  have names : p'.Names [] (Array.replicate q.vars.length .placeholder) (layers.map (·.2)).toArray := by
    refine ⟨by simp, fun j ts found t ht v hv => ?_⟩
    simp only [List.getElem?_toArray, List.getElem?_map, Option.map_eq_some_iff] at found
    obtain ⟨⟨a, sel⟩, layer, rfl⟩ := found
    have listed := List.mem_of_getElem? layer
    obtain ⟨⟨tests, p, p'', tested, -, rfl⟩, -⟩ :
        Selected table includeSubsumed q.vars p' a sel ∧ sel ≠ [] := selected (a, sel) listed
    obtain ⟨e, row, column⟩ := TableAtom.mem_row_of_mem_select ht v hv
    exact (stocked.rows typed (hatoms ▸ atoms ▸ List.mem_map_of_mem listed) includeSubsumed
      e row).2 v column
  obtain ⟨-, new, adds⟩ := searchAdds q.program (size ▸ fits) serves names ran
  have tuples : found.tuples.toList = new := by simpa using adds.tuples
  -- what the search reaches from the start is exactly the matches
  have live : ∀ node ∈ nodesAt q.vars layers 0 (Array.replicate q.vars.length .placeholder),
      node ≠ [] := by
    rw [nodesAt_zero]
    intro node mem
    simp only [List.mem_toArray, List.mem_map] at mem
    obtain ⟨l, layer, rfl⟩ := mem
    exact (selected l layer).2
  have reaches : ∀ t, Reaches P q.program (Array.replicate q.vars.length .placeholder)
      (layers.map (·.2)).toArray t ↔ Matches table includeSubsumed P q.vars body t := by
    intro t
    rw [← nodesAt_zero q.vars layers]
    exact (L.reaches_iff sched (Nat.zero_le _) (Nat.le_refl _) size live).trans
      (completes_iff_matches grounded compiled (later.trans (run_grows ran)) atoms
        (fun l hl => (selected l hl).1.grow (run_grows ran)) arity)
  rw [tuples]
  refine ⟨adds.nodup, fun t ht => (reaches t).mp (adds.sound P (.refl P) t ht),
    fun short t matched => adds.complete ?_ P (.refl P) t ((reaches t).mpr matched)⟩
  have count : found.tuples.size = new.length := by
    rw [← Array.length_toList, tuples]
  simp only [Found.full, decide_eq_false_iff_not, Nat.not_le, adds.limit, count]
  exact short

/-- A search from scratch runs without a fault, from a sound pool stocked for
the body, unless the pool overflows on the way. -/
theorem search_safe_from_start (typed : BodyTyped sortOf body)
    (grounded : Grounded (tableVarsOf body) (primAtoms body))
    (compiled : (compile size body).run p₀ = .ok (q, p₁)) {p' : Pool} (later : p₁.Grows p')
    (stocked : Stocked p' table body) (sound : p'.Sound) (atoms : layers.map (·.1) = q.atoms)
    (selected : ∀ l ∈ layers, Selected table includeSubsumed q.vars p' l.1 l.2 ∧ l.2 ≠ [])
    (found : Found) :
    (JoinStep.search q.program (Array.replicate q.vars.length .placeholder)
      (layers.map (·.2)).toArray found).Safe p' := by
  obtain ⟨hatoms, -, -, -, -, sched, -⟩ := compile_spec grounded compiled
  have L := layout_of_selected typed grounded compiled stocked atoms selected
  have sorted : SearchSorted q.vars (ordered size body).length layers sortOf p' q.program 0
      (ordered size body).length (Array.replicate q.vars.length .placeholder) := by
    refine ⟨sound, fun i v bound => ?_, fun a sel layer w hw => ?_,
      stocked.calls_sorted typed grounded compiled later sound⟩
    · unfold SlotBound at bound
      omega
    · obtain ⟨⟨tests, p, p'', tested, -, rfl⟩, -⟩ :
          Selected table includeSubsumed q.vars p' a sel ∧ sel ≠ [] := selected (a, sel) layer
      exact TableAtom.holds_of_mem_select (fun e row =>
        (stocked.rows typed (hatoms ▸ atoms ▸ List.mem_map_of_mem layer) includeSubsumed e row).1) hw
  rw [← nodesAt_zero q.vars layers]
  exact L.search_safe sched (Nat.zero_le _) (Nat.le_refl _) Array.size_replicate sorted

/-- An atom that selects nothing leaves the body without matches. -/
theorem not_matches_of_selected_nil (grounded : Grounded (tableVarsOf body) (primAtoms body))
    (compiled : (compile size body).run p₀ = .ok (q, p₁)) {P : Pool} {a : TableAtom}
    (mem : a ∈ q.atoms) (empty : Selected table includeSubsumed q.vars P a [])
    (arity : ∀ e ∈ ((table a.func).rows includeSubsumed).map (·.2),
      e.inputs.length + 1 = a.args.length)
    {sigma : List Value} (matched : Matches table includeSubsumed P q.vars body sigma) : False := by
  obtain ⟨hatoms, -, more, hvars, nodup, -⟩ := compile_spec grounded compiled
  obtain ⟨tests, p, p', tested, grown, none⟩ := empty
  have kept := (TableAtom.mem_select_iff tested grown nodup
    (fun v hv => List.mem_of_mem_take (mentions_of_compile grounded compiled mem v hv))
    arity matched.length).mpr (matched.rows a (hatoms ▸ mem))
  rw [← none] at kept
  cases kept

end Start

/-! ### Running a query from scratch -/

section Run

variable {size : String → Nat} {body : List (Atom Call)} {sortOf : String → SortInfo}
  {p₀ p₁ : Pool} {q : CompiledQuery} {table : String → Table} {includeSubsumed : Bool}

end Run

end Saturate
