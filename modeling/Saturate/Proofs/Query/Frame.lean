import Saturate.Proofs.Query.Schedule
import Saturate.Proofs.Prim.Typed

/-!
The state of a search, described by the tuple alone.

The nodes of the search are determined by how far it has got: once the first
`k` table slots of the tuple are bound, the node of a table atom holds, for
each of its selected tuples that agrees with those slots, what is left of it
(`Layout.nodesAt`). Binding the next slot narrows exactly the nodes of the
atoms that mention its variable (`Layout.narrow_nodesAt`).

With that description, what a scheduled program reaches is a plain
condition on the tuple it ends at (`Layout.reaches_iff`): it has a value for
every slot, agrees with the slots bound so far, projects onto a selected
tuple of every atom, and answers every call still to run (`Completes`).
-/

namespace Saturate

open PoolM

/-! ### Projections and the tuples an atom has left -/

/-- The values of `t` at the variables an atom mentions, in the order of `vars`. -/
def TableAtom.project (a : TableAtom) (vars : List String) (t : List Value) : List Value :=
  (vars.zip t).filterMap fun (v, x) => if v ∈ a.vars then some x else none

theorem TableAtom.project_append (a : TableAtom) (vs ws : List String) (xs ys : List Value)
    (same : vs.length = xs.length) :
    a.project (vs ++ ws) (xs ++ ys) = a.project vs xs ++ a.project ws ys := by
  simp [project, List.zip_append same]

theorem TableAtom.project_singleton (a : TableAtom) (v : String) (x : Value) :
    a.project [v] [x] = if v ∈ a.vars then [x] else [] := by
  by_cases mem : v ∈ a.vars <;> simp [project, mem]

theorem TableAtom.length_project (a : TableAtom) :
    ∀ {vs : List String} {xs : List Value}, vs.length ≤ xs.length →
      (a.project vs xs).length = (vs.filter (· ∈ a.vars)).length
  | [], _, _ => by simp [project]
  | _ :: _, [], le => by simp at le
  | v :: vs, x :: xs, le => by
    have rest : (a.project vs xs).length = (vs.filter (· ∈ a.vars)).length :=
      length_project a (by simpa using le)
    by_cases mem : v ∈ a.vars <;> simp_all [project]

/-- An atom whose variables all come among the first `n` only reads those. -/
theorem TableAtom.project_take (a : TableAtom) {vars : List String} (nodup : vars.Nodup) {n : Nat}
    (le : n ≤ vars.length) (within : ∀ v ∈ a.vars, v ∈ vars.take n) (t : List Value)
    (long : vars.length ≤ t.length) :
    a.project vars t = a.project (vars.take n) (t.take n) := by
  have split := a.project_append (vars.take n) (vars.drop n) (t.take n) (t.drop n) (by simp; omega)
  rw [List.take_append_drop, List.take_append_drop] at split
  suffices none : a.project (vars.drop n) (t.drop n) = [] by rw [split, none, List.append_nil]
  -- no variable after the first `n` is one of the atom's
  have apart := (List.nodup_append.mp ((List.take_append_drop n vars).symm ▸ nodup)).2.2
  simp only [project, List.filterMap_eq_nil_iff]
  intro ⟨v, x⟩ mem
  have later : v ∈ vars.drop n := (List.of_mem_zip mem).1
  simp only [ite_eq_right_iff, reduceCtorEq, imp_false]
  exact fun mentioned => apart v (within v mentioned) v later rfl

/-- What is left of each selected tuple that starts with `known`. -/
def nodeAt (sel : List (List Value)) (known : List Value) : List (List Value) :=
  sel.filterMap fun w => if known <+: w then some (w.drop known.length) else none

theorem nodeAt_nil (sel : List (List Value)) : nodeAt sel [] = sel := by
  simp [nodeAt]

theorem mem_nodeAt {sel : List (List Value)} {known rest : List Value} :
    rest ∈ nodeAt sel known ↔ known ++ rest ∈ sel := by
  simp only [nodeAt, List.mem_filterMap, Option.ite_none_right_eq_some, Option.some.injEq]
  constructor
  · rintro ⟨w, hw, ⟨more, rfl⟩, rfl⟩
    simpa using hw
  · intro h
    exact ⟨_, h, List.prefix_append _ _, by simp⟩

/-- Keeping the tails after `v` of what is left after `known` leaves what is
left after `known ++ [v]`. -/
theorem tailsAfter_nodeAt (v : Value) (sel : List (List Value)) (known : List Value) :
    tailsAfter v (nodeAt sel known) = nodeAt sel (known ++ [v]) := by
  simp only [tailsAfter, nodeAt, List.filterMap_filterMap]
  congr 1
  funext w
  by_cases starts : known <+: w
  · -- what follows `known` in `w` decides both sides
    obtain ⟨rest, rfl⟩ := starts
    cases rest with
    | nil =>
      have shorter : ¬ known ++ [v] <+: known := fun h => by
        have := h.length_le
        simp only [List.length_append, List.length_singleton] at this
        omega
      simp [shorter]
    | cons u rest =>
      by_cases same : u = v
      · simp [same, List.prefix_append_right_inj]
      · simp [same, Ne.symm same, List.prefix_append_right_inj]
  · have longer : ¬ known ++ [v] <+: w := fun h => starts ((List.prefix_append _ _).trans h)
    simp [starts, longer]

/-! ### The layout of a compiled query -/

/-- The nodes of the search once the first `k` slots of `tuple` are bound:
for each table atom, what is left of its selected tuples that agree with
those slots. -/
def nodesAt (vars : List String) (layers : List (TableAtom × List (List Value))) (k : Nat)
    (tuple : Array Value) : Array (List (List Value)) :=
  (layers.map fun (a, sel) => nodeAt sel (a.project (vars.take k) (tuple.toList.take k))).toArray

/-- What the search of a compiled query relies on about its variables and its
table atoms, each with its selected tuples: the first `nTable` variables are
the table variables, none twice; `occ k` lists the atoms that mention the
`k`-th of them, which some atom does; and a selected tuple has one value for
each variable its atom mentions. -/
structure Layout (vars : List String) (nTable : Nat) (occ : Nat → List Nat)
    (layers : List (TableAtom × List (List Value))) : Prop where
  table : nTable ≤ vars.length
  nodup : vars.Nodup
  mentions : ∀ a sel, (a, sel) ∈ layers → ∀ v ∈ a.vars, v ∈ vars.take nTable
  occurs : ∀ k v, vars[k]? = some v → k < nTable →
    ∀ j, j ∈ occ k ↔ ∃ a sel, layers[j]? = some (a, sel) ∧ v ∈ a.vars
  occ_nonempty : ∀ k < nTable, occ k ≠ []
  shape : ∀ a sel, (a, sel) ∈ layers → ∀ w ∈ sel, w.length = (vars.filter (· ∈ a.vars)).length

theorem take_set!_succ {tuple : Array Value} {k : Nat} (lt : k < tuple.size) (v : Value) :
    (tuple.set! k v).toList.take (k + 1) = tuple.toList.take k ++ [v] := by
  simp [List.take_add_one, List.take_set_of_le (Nat.le_refl k), lt]

/-- Setting a slot past the first `k` leaves the nodes after `k` slots alone. -/
theorem nodesAt_set!_of_le (vars : List String) (layers : List (TableAtom × List (List Value)))
    {k m : Nat} (le : k ≤ m) (tuple : Array Value) (r : Value) :
    nodesAt vars layers k (tuple.set! m r) = nodesAt vars layers k tuple := by
  simp [nodesAt, List.take_set_of_le le]

namespace Layout

variable {vars : List String} {nTable : Nat} {occ : Nat → List Nat}
  {layers : List (TableAtom × List (List Value))}

/-- Binding table slot `k` to `v` adds `v` to what an atom knows exactly when
the atom mentions the slot's variable. -/
theorem project_set! {tuple : Array Value} {k : Nat} {w : String} (found : vars[k]? = some w)
    (lt : k < tuple.size) (v : Value) (a : TableAtom) :
    a.project (vars.take (k + 1)) ((tuple.set! k v).toList.take (k + 1)) =
      a.project (vars.take k) (tuple.toList.take k) ++ if w ∈ a.vars then [v] else [] := by
  have within : k < vars.length := (List.getElem?_eq_some_iff.mp found).1
  rw [take_set!_succ lt, List.take_add_one, found, Option.toList_some,
    a.project_append _ _ _ _ (by simp; omega), a.project_singleton]

/-- **Binding the next table slot narrows the nodes of the atoms that mention
its variable**, to what is left after the value. -/
theorem narrow_nodesAt (L : Layout vars nTable occ layers) {k : Nat} (lt : k < nTable)
    {tuple : Array Value} (size : tuple.size = vars.length) (v : Value) :
    narrow (occ k) v (nodesAt vars layers k tuple) = nodesAt vars layers (k + 1) (tuple.set! k v) := by
  obtain ⟨w, found⟩ : ∃ w, vars[k]? = some w :=
    Option.isSome_iff_exists.mp (by simp; have := L.table; omega)
  apply Array.ext_getElem?
  intro j
  rw [getElem?_narrow]
  simp only [nodesAt, List.getElem?_toArray, List.getElem?_map, List.size_toArray, List.length_map]
  rcases layer : layers[j]? with _ | ⟨a, sel⟩
  · simp [List.getElem?_eq_none_iff.mp layer]
  · have within : j < layers.length := (List.getElem?_eq_some_iff.mp layer).1
    simp only [Option.map_some, Option.getD_some]
    rw [project_set! found (by have := L.table; omega) v a]
    by_cases mem : w ∈ a.vars
    · have occurs : j ∈ occ k := (L.occurs k w found lt j).mpr ⟨a, sel, layer, mem⟩
      simp [occurs, within, mem, tailsAfter_nodeAt]
    · have absent : j ∉ occ k := fun occurs => by
        obtain ⟨a', sel', layer', mem'⟩ := (L.occurs k w found lt j).mp occurs
        rw [layer] at layer'
        cases layer'
        exact mem mem'
      simp [absent, mem]

end Layout

/-! ### Tuples that complete a search -/

/-- The value a call's output names, read off a complete tuple. -/
def Arg.Is (t : List Value) : Arg → Value → Prop
  | .slot i, r => t[i]? = some r
  | .const v, r => r = v

/-- A complete tuple answers a step: a call's primitive, applied at pool `P`
to the arguments the tuple gives, answers the value its output names. -/
def JoinStep.Answered (P : Pool) (t : List Value) : JoinStep → Prop
  | .intersect _ _ => True
  | .call prim args out _ =>
    ∃ r, (prim.applyPure (args.map (JoinStep.argValue t.toArray))).run P = .ok (some r, P) ∧ out.Is t r

/-- `t` completes a search that has bound `k` table slots and the slots from
`nTable` below `m`: it has a value for every variable, agrees with the slots
bound so far, projects onto a selected tuple of every atom, and answers every
step still to run. -/
structure Completes (vars : List String) (nTable : Nat) (layers : List (TableAtom × List (List Value)))
    (P : Pool) (rest : List JoinStep) (k m : Nat) (tuple : Array Value) (t : List Value) : Prop where
  length : t.length = vars.length
  agrees : ∀ i, SlotBound nTable k m i → t[i]? = tuple[i]?
  rows : ∀ a sel, (a, sel) ∈ layers → a.project vars t ∈ sel
  calls : ∀ step ∈ rest, step.Answered P t

theorem set!_of_getElem? {tuple : Array Value} {i : Nat} {r : Value} (held : tuple[i]? = some r) :
    tuple.set! i r = tuple := by
  apply Array.ext_getElem?
  intro j
  by_cases same : i = j
  · subst same
    rw [getElem?_set!_self (Array.getElem?_eq_some_iff.mp held).1, held]
  · rw [getElem?_set!_ne same]

namespace Completes

variable {vars : List String} {nTable : Nat} {layers : List (TableAtom × List (List Value))}
  {P : Pool} {step : JoinStep} {rest : List JoinStep} {k m : Nat} {tuple : Array Value}
  {t : List Value}

/-- A tuple that completes a search from a step completes it from the next. -/
theorem tail (done : Completes vars nTable layers P (step :: rest) k m tuple t) :
    Completes vars nTable layers P rest k m tuple t :=
  ⟨done.length, done.agrees, done.rows, fun s mem => done.calls s (List.mem_cons_of_mem _ mem)⟩

/-- A tuple that completes the search after a step, answers the step and
agrees with the slots bound before it completes the search from the step. -/
theorem cons {k' m' : Nat} {tuple' : Array Value}
    (done : Completes vars nTable layers P rest k' m' tuple' t)
    (agrees : ∀ i, SlotBound nTable k m i → t[i]? = tuple[i]?) (answered : step.Answered P t) :
    Completes vars nTable layers P (step :: rest) k m tuple t := by
  refine ⟨done.length, agrees, done.rows, fun s mem => ?_⟩
  rcases List.mem_cons.mp mem with rfl | mem
  · exact answered
  · exact done.calls s mem

/-- Binding slot `j` to the value a complete tuple has there keeps it
complete for the steps after, when the slots bound then are `j` and those
bound before. -/
theorem set {k' m' j : Nat} {v : Value} (done : Completes vars nTable layers P (step :: rest) k m tuple t)
    (hv : t[j]? = some v) (within : j < tuple.size)
    (bound : ∀ i, SlotBound nTable k' m' i → j ≠ i → SlotBound nTable k m i) :
    Completes vars nTable layers P rest k' m' (tuple.set! j v) t := by
  refine ⟨done.length, fun i slot => ?_, done.rows, done.tail.calls⟩
  by_cases same : j = i
  · subst same
    rw [hv, getElem?_set!_self within]
  · rw [getElem?_set!_ne same, done.agrees i (bound i slot same)]

/-- A tuple that completes the search once slot `j` is bound agrees with the
tuple before on the slots bound before, which `j` is not among. -/
theorem agrees_of_set {k' m' j : Nat} {v : Value}
    (done : Completes vars nTable layers P rest k' m' (tuple.set! j v) t)
    (bound : ∀ i, SlotBound nTable k m i → j ≠ i ∧ SlotBound nTable k' m' i) :
    ∀ i, SlotBound nTable k m i → t[i]? = tuple[i]? := by
  intro i slot
  obtain ⟨ne, slot'⟩ := bound i slot
  rw [done.agrees i slot', getElem?_set!_ne ne]

end Completes

/-- A call reads the same arguments from a partial tuple as from a complete
one that agrees with it on the slots it reads. -/
theorem argValues_eq {nTable k m : Nat} {args : List Arg} {tuple : Array Value} {t : List Value}
    (reads : ∀ x ∈ args, x.Bound nTable k m) (agrees : ∀ i, SlotBound nTable k m i → t[i]? = tuple[i]?) :
    args.map (JoinStep.argValue tuple) = args.map (JoinStep.argValue t.toArray) := by
  refine List.map_congr_left fun x hx => ?_
  cases x with
  | slot i => simp [JoinStep.argValue, agrees i (reads _ hx)]
  | const v => rfl

namespace Layout

variable {vars : List String} {nTable : Nat} {occ : Nat → List Nat}
  {layers : List (TableAtom × List (List Value))}

/-- What an atom knows after `k` slots is the start of its projection of any
complete tuple that agrees with those slots. -/
theorem known_prefix {k : Nat} (le : k ≤ vars.length) {tuple : Array Value} {t : List Value}
    (size : tuple.size = vars.length) (length : t.length = vars.length)
    (agrees : ∀ i < k, t[i]? = tuple[i]?) (a : TableAtom) :
    a.project (vars.take k) (tuple.toList.take k) <+: a.project vars t := by
  have same : t.take k = tuple.toList.take k := by
    apply List.ext_getElem?
    intro i
    by_cases lt : i < k
    · simp [lt, agrees i lt]
    · rw [List.getElem?_take, List.getElem?_take, if_neg lt, if_neg lt]
  have split := a.project_append (vars.take k) (vars.drop k) (t.take k) (t.drop k) (by simp; omega)
  rw [List.take_append_drop, List.take_append_drop, same] at split
  rw [split]
  exact List.prefix_append _ _

/-- A tuple that completes a search leaves every node of it something. -/
theorem live_of_completes (L : Layout vars nTable occ layers) {P : Pool} {rest : List JoinStep}
    {k m : Nat} (le : k ≤ nTable) {tuple : Array Value} {t : List Value}
    (size : tuple.size = vars.length) (done : Completes vars nTable layers P rest k m tuple t) :
    ∀ node ∈ nodesAt vars layers k tuple, node ≠ [] := by
  intro node mem
  simp only [nodesAt, List.mem_toArray, List.mem_map] at mem
  obtain ⟨⟨a, sel⟩, layer, rfl⟩ := mem
  obtain ⟨rest, hrest⟩ := known_prefix (Nat.le_trans le L.table) size done.length
    (fun i lt => done.agrees i (.inl lt)) a
  have held : rest ∈ nodeAt sel _ := mem_nodeAt.mpr (hrest ▸ done.rows a sel layer)
  exact List.ne_nil_of_mem held

/-- Nodes that all hold something still do after narrowing by a value every
atom allows. -/
theorem live_narrow {js : List Nat} {v : Value} {nodes : Array (List (List Value))}
    (live : ∀ node ∈ nodes, node ≠ []) (allowed : Allowed js nodes v) :
    ∀ node ∈ narrow js v nodes, node ≠ [] := by
  intro node mem
  obtain ⟨j, hj⟩ := Array.getElem?_of_mem mem
  rw [getElem?_narrow] at hj
  split at hj
  · rename_i within
    cases hj
    exact allowed j within.1
  · exact live node (Array.mem_of_getElem? hj)

/-- Every atom of `js` allows `v` when the nodes narrowed by it all hold something. -/
theorem allowed_of_live {js : List Nat} {v : Value} {nodes : Array (List (List Value))}
    (inRange : ∀ j ∈ js, j < nodes.size) (live : ∀ node ∈ narrow js v nodes, node ≠ []) :
    Allowed js nodes v := by
  intro j hj
  apply live
  apply Array.mem_of_getElem? (i := j)
  rw [getElem?_narrow, if_pos ⟨hj, inRange j hj⟩]

/-- **What a scheduled program reaches.** From a search state described by its
tuple alone, in which every node holds something, a scheduled program reaches
exactly the tuples that complete it. -/
theorem reaches_iff (L : Layout vars nTable occ layers) {P : Pool} {k m : Nat}
    {prog : List JoinStep} (sched : Scheduled nTable vars.length occ k m prog) :
    ∀ {tuple : Array Value} {t : List Value}, k ≤ nTable → nTable ≤ m → tuple.size = vars.length →
      (∀ node ∈ nodesAt vars layers k tuple, node ≠ []) →
      (Reaches P prog tuple (nodesAt vars layers k tuple) t ↔
        Completes vars nTable layers P prog k m tuple t) := by
  induction sched with
  | done all =>
    rename_i m
    intro tuple t _ _ size live
    rw [Reaches.nil_iff]
    constructor
    · rintro rfl
      refine ⟨by simpa using size, fun i _ => by simp, fun a sel layer => ?_, by simp⟩
      -- every node holds exactly the projection of the tuple, once every table slot is bound
      have node := live _ (by
        simp only [nodesAt, List.mem_toArray, List.mem_map]
        exact ⟨(a, sel), layer, rfl⟩)
      obtain ⟨rest, held⟩ := List.exists_mem_of_ne_nil _ node
      have held := mem_nodeAt.mp held
      have within := L.mentions a sel layer
      rw [← a.project_take L.nodup L.table within _ (by simp [size])] at held
      have long := L.shape a sel layer _ held
      rw [List.length_append, a.length_project (by simp [size])] at long
      have : rest = [] := List.eq_nil_of_length_eq_zero (by omega)
      simpa [this] using held
    · intro done
      apply List.ext_getElem?
      intro i
      by_cases lt : i < vars.length
      · rw [done.agrees i (by unfold SlotBound; omega)]
        simp
      · simp [List.getElem?_eq_none_iff.mpr (show t.length ≤ i by rw [done.length]; omega),
          List.getElem?_eq_none_iff.mpr (show tuple.toList.length ≤ i by simp [size]; omega)]
  | @intersect k m rest lt next ih =>
    intro tuple t le start size live
    have within : k < tuple.size := by have := L.table; omega
    rw [Reaches.intersect_iff]
    constructor
    · rintro ⟨-, v, allowed, reached⟩
      rw [L.narrow_nodesAt lt size v] at reached
      have live' := live_narrow live allowed
      rw [L.narrow_nodesAt lt size v] at live'
      have done := (ih lt start (by simpa using size) live').mp reached
      refine done.cons (done.agrees_of_set fun i bound => ?_) trivial
      unfold SlotBound at bound ⊢
      omega
    · intro done
      -- bind the slot to the value the complete tuple has there
      obtain ⟨v, hv⟩ : ∃ v, t[k]? = some v :=
        Option.isSome_iff_exists.mp (by simp [done.length]; have := L.table; omega)
      have done' : Completes vars nTable layers P rest (k + 1) m (tuple.set! k v) t :=
        done.set hv within fun i slot _ => by unfold SlotBound at slot ⊢; omega
      have live' := L.live_of_completes lt (by simpa using size) done'
      have allowed : Allowed (occ k) (nodesAt vars layers k tuple) v := by
        refine allowed_of_live (fun j hj => ?_) (by rwa [L.narrow_nodesAt lt size v])
        obtain ⟨w, hw⟩ : ∃ w, vars[k]? = some w :=
          Option.isSome_iff_exists.mp (by simp; have := L.table; omega)
        obtain ⟨a, sel, layer, -⟩ := (L.occurs k w hw lt j).mp hj
        simpa [nodesAt] using (List.getElem?_eq_some_iff.mp layer).1
      refine ⟨L.occ_nonempty k lt, v, allowed, ?_⟩
      rw [L.narrow_nodesAt lt size v]
      exact (ih lt start (by simpa using size) live').mpr done'
  | @bind k m prim args rest reads lt next ih =>
    intro tuple t le start size live
    have keep := nodesAt_set!_of_le vars layers (Nat.le_trans le start) tuple
    rw [Reaches.slot_iff]
    constructor
    · rintro ⟨r, answer, -, reached⟩
      rw [← keep r] at reached
      have done := (ih le (by omega) (by simpa using size) (by rwa [keep r])).mp reached
      have agrees : ∀ i, SlotBound nTable k m i → t[i]? = tuple[i]? :=
        done.agrees_of_set fun i bound => by unfold SlotBound at bound ⊢; omega
      refine done.cons agrees ⟨r, by rwa [← argValues_eq reads agrees], ?_⟩
      show t[m]? = some r
      rw [done.agrees m (by unfold SlotBound; omega), getElem?_set!_self (by omega)]
    · intro done
      obtain ⟨r, answer, hr⟩ := done.calls _ List.mem_cons_self
      have done' : Completes vars nTable layers P rest k (m + 1) (tuple.set! m r) t :=
        done.set hr (by omega) fun i slot _ => by unfold SlotBound at slot ⊢; omega
      refine ⟨r, by rwa [argValues_eq reads done.agrees], by simp, ?_⟩
      rw [← keep r]
      exact (ih le (by omega) (by simpa using size) (by rwa [keep r])).mpr done'
  | @check k m prim args i rest reads bound next ih =>
    intro tuple t le start size live
    rw [Reaches.slot_iff]
    constructor
    · rintro ⟨r, answer, checked, reached⟩
      rw [set!_of_getElem? (checked rfl)] at reached
      have done := (ih le start size live).mp reached
      refine done.cons done.agrees ⟨r, by rwa [← argValues_eq reads done.agrees], ?_⟩
      show t[i]? = some r
      rw [done.agrees i bound, checked rfl]
    · intro done
      obtain ⟨r, answer, hr⟩ := done.calls _ List.mem_cons_self
      have held : tuple[i]? = some r := by
        rw [← done.agrees i bound]
        exact hr
      refine ⟨r, by rwa [argValues_eq reads done.agrees], fun _ => held, ?_⟩
      rw [set!_of_getElem? held]
      exact (ih le start size live).mpr done.tail
  | @test k m prim args v check rest reads next ih =>
    intro tuple t le start size live
    rw [Reaches.const_iff]
    constructor
    · rintro ⟨answer, reached⟩
      have done := (ih le start size live).mp reached
      exact done.cons done.agrees ⟨v, by rwa [← argValues_eq reads done.agrees], rfl⟩
    · intro done
      obtain ⟨r, answer, hr⟩ := done.calls _ List.mem_cons_self
      cases hr
      refine ⟨by rwa [argValues_eq reads done.agrees], ?_⟩
      exact (ih le start size live).mpr done.tail

end Layout

/-! ### Searches that run without a fault -/

/-- An argument of a call read as a term of sort `s`: a slot holds a
variable of sort `s`, a constant is a value of `s`. -/
def Arg.Sorted (vars : List String) (sortOf : String → SortInfo) (p : Pool) : Arg → SortInfo → Prop
  | .slot i, s => ∃ v, vars[i]? = some v ∧ sortOf v = s
  | .const x, s => p.Holds s x

/-- A call of a primitive that some sort registers and the pool hosts, whose
arguments and output have sorts its signature admits. -/
def JoinStep.Sorted (vars : List String) (sortOf : String → SortInfo) (p : Pool) : JoinStep → Prop
  | .intersect _ _ => True
  | .call prim args out _ =>
    prim.Registered ∧ prim.HostedIn p ∧ ∃ ins o, prim.signature.Admits (ins ++ [o]) ∧
      List.Forall₂ (Arg.Sorted vars sortOf p) args ins ∧ out.Sorted vars sortOf p o

/-- What a search needs of pool `p` to run without a fault, once `k` table
slots and the slots from `nTable` below `m` are bound: a sound pool, a value
of its variable's sort in every bound slot, selected tuples of values of the
sorts of their atom's variables, and calls sorted for the rest of the program. -/
structure SearchSorted (vars : List String) (nTable : Nat)
    (layers : List (TableAtom × List (List Value))) (sortOf : String → SortInfo) (p : Pool)
    (rest : List JoinStep) (k m : Nat) (tuple : Array Value) : Prop where
  sound : p.Sound
  slots : ∀ i v, SlotBound nTable k m i → vars[i]? = some v → ∃ x, tuple[i]? = some x ∧ p.Holds (sortOf v) x
  sels : ∀ a sel, (a, sel) ∈ layers → ∀ w ∈ sel,
    List.Forall₂ p.Holds ((vars.filter (· ∈ a.vars)).map sortOf) w
  calls : ∀ step ∈ rest, step.Sorted vars sortOf p

theorem forall₂_getElem? {α β : Type} {R : α → β → Prop} :
    ∀ {l₁ : List α} {l₂ : List β}, List.Forall₂ R l₁ l₂ →
      ∀ {i : Nat} {a : α} {b : β}, l₁[i]? = some a → l₂[i]? = some b → R a b
  | _, _, .cons head _, 0, _, _, ha, hb => by
    simp only [List.getElem?_cons_zero, Option.some.injEq] at ha hb
    exact ha ▸ hb ▸ head
  | _, _, .cons _ tail, _ + 1, _, _, ha, hb =>
    forall₂_getElem? tail (by simpa using ha) (by simpa using hb)

namespace SearchSorted

variable {vars : List String} {nTable : Nat} {layers : List (TableAtom × List (List Value))}
  {sortOf : String → SortInfo} {p q : Pool} {rest : List JoinStep} {k m : Nat} {tuple : Array Value}

theorem Arg.Sorted.grow {a : Arg} {s : SortInfo} (h : a.Sorted vars sortOf p s) (grows : p.Grows q) :
    a.Sorted vars sortOf q s := by
  cases a with
  | slot i => exact h
  | const x => exact Pool.Holds.grow grows h

theorem JoinStep.Sorted.grow {step : JoinStep} (h : step.Sorted vars sortOf p) (grows : p.Grows q) :
    step.Sorted vars sortOf q := by
  cases step with
  | intersect => trivial
  | call prim args out check =>
    obtain ⟨registered, hosted, ins, o, admits, sorted, out⟩ := h
    exact ⟨registered, hosted.grow grows, ins, o, admits,
      sorted.imp fun _ _ h => Arg.Sorted.grow h grows, Arg.Sorted.grow out grows⟩

/-- The search state stays sorted at a sound pool grown from `p`. -/
theorem grow (h : SearchSorted vars nTable layers sortOf p rest k m tuple) (grows : p.Grows q)
    (sound : q.Sound) : SearchSorted vars nTable layers sortOf q rest k m tuple := by
  refine ⟨sound, fun i v bound hv => ?_, fun a sel layer w hw => ?_, fun step mem => ?_⟩
  · obtain ⟨x, hx, held⟩ := h.slots i v bound hv
    exact ⟨x, hx, held.grow grows⟩
  · exact (h.sels a sel layer w hw).imp fun _ _ held => held.grow grows
  · exact JoinStep.Sorted.grow (h.calls step mem) grows

theorem tail {step : JoinStep} (h : SearchSorted vars nTable layers sortOf p (step :: rest) k m tuple) :
    SearchSorted vars nTable layers sortOf p rest k m tuple :=
  ⟨h.sound, h.slots, h.sels, fun s mem => h.calls s (List.mem_cons_of_mem _ mem)⟩

/-- Binding slot `i` to a value of its variable's sort keeps the state sorted,
with `i` among the bound slots. -/
theorem bind (h : SearchSorted vars nTable layers sortOf p rest k m tuple) {k' m' i : Nat}
    (lt : i < tuple.size) {r : Value} (held : ∀ v, vars[i]? = some v → p.Holds (sortOf v) r)
    (bound : ∀ j, SlotBound nTable k' m' j → SlotBound nTable k m j ∨ j = i) :
    SearchSorted vars nTable layers sortOf p rest k' m' (tuple.set! i r) := by
  refine ⟨h.sound, fun j v boundj hv => ?_, h.sels, h.calls⟩
  by_cases same : i = j
  · subst same
    exact ⟨r, getElem?_set!_self lt r, held v hv⟩
  · rw [getElem?_set!_ne same]
    exact h.slots j v ((bound j boundj).resolve_right (Ne.symm same)) hv

/-- The arguments a call reads from bound slots are values of their sorts. -/
theorem args_hold (h : SearchSorted vars nTable layers sortOf p rest k m tuple) {args : List Arg}
    {ins : List SortInfo} (reads : ∀ x ∈ args, x.Bound nTable k m)
    (sorted : List.Forall₂ (Arg.Sorted vars sortOf p) args ins) :
    List.Forall₂ p.Holds ins (args.map (JoinStep.argValue tuple)) := by
  induction sorted with
  | nil => exact .nil
  | @cons x s xs ss head _ ih =>
    refine .cons ?_ (ih fun y hy => reads y (List.mem_cons_of_mem _ hy))
    cases x with
    | slot i =>
      obtain ⟨v, hv, rfl⟩ := head
      obtain ⟨y, hy, held⟩ := h.slots i v (reads _ List.mem_cons_self) hv
      simpa [JoinStep.argValue, hy] using held
    | const y => exact head

/-- The first call of a sorted search runs its primitive on the slots it
reads: unless the pool is full, to a sound pool and an answer of the sort
its output expects. -/
theorem call_runs {prim : Prim} {args : List Arg} {out : Arg} {check : Bool}
    (h : SearchSorted vars nTable layers sortOf p (.call prim args out check :: rest) k m tuple)
    (reads : ∀ x ∈ args, x.Bound nTable k m) :
    p.Overflows ∨ ∃ res p' o, (prim.applyPure (args.map (JoinStep.argValue tuple))).run p = .ok (res, p') ∧
      p'.Sound ∧ out.Sorted vars sortOf p o ∧ ∀ r, res = some r → p'.Holds o r := by
  obtain ⟨registered, hosted, ins, o, admits, args_sorted, out_sorted⟩ := h.calls _ List.mem_cons_self
  obtain ⟨res, p', ran, answers⟩ := Prim.applyPure_holds registered admits hosted
    (h.args_hold reads args_sorted) h.sound
  by_cases full : p.Overflows
  · exact .inl full
  obtain ⟨sound', holds⟩ := answers full
  exact .inr ⟨res, p', o, ran, sound', out_sorted, holds⟩

end SearchSorted

/-- Among the variables an atom mentions, the `k`-th variable comes right
after those of the first `k`, when the atom mentions it. -/
theorem mentioned_getElem? {vars : List String} {k : Nat} {w : String} (found : vars[k]? = some w)
    {a : TableAtom} (mem : w ∈ a.vars) :
    (vars.filter (· ∈ a.vars))[((vars.take k).filter (· ∈ a.vars)).length]? = some w := by
  obtain ⟨within, rfl⟩ := List.getElem?_eq_some_iff.mp found
  have split : vars.filter (· ∈ a.vars) =
      (vars.take k).filter (· ∈ a.vars) ++ (vars.drop k).filter (· ∈ a.vars) := by
    rw [← List.filter_append, List.take_append_drop]
  rw [split, List.getElem?_append_right (Nat.le_refl _), Nat.sub_self,
    List.drop_eq_getElem_cons within, List.filter_cons_of_pos (by simpa using mem)]
  rfl

namespace Layout

variable {vars : List String} {nTable : Nat} {occ : Nat → List Nat}
  {layers : List (TableAtom × List (List Value))}

/-- A value the atoms of an intersection allow is a value of the sort of the
variable it binds: it stands at that variable's place in a selected tuple. -/
theorem holds_of_allowed (L : Layout vars nTable occ layers) {sortOf : String → SortInfo} {p : Pool}
    (sels : ∀ a sel, (a, sel) ∈ layers → ∀ w ∈ sel,
      List.Forall₂ p.Holds ((vars.filter (· ∈ a.vars)).map sortOf) w)
    {k : Nat} (lt : k < nTable) {w : String} (found : vars[k]? = some w) {tuple : Array Value}
    (size : tuple.size = vars.length) {v : Value}
    (allowed : Allowed (occ k) (nodesAt vars layers k tuple) v) : p.Holds (sortOf w) v := by
  obtain ⟨j, hj⟩ := List.exists_mem_of_ne_nil _ (L.occ_nonempty k lt)
  obtain ⟨a, sel, layer, mem⟩ := (L.occurs k w found lt j).mp hj
  obtain ⟨rest, hrest⟩ := List.exists_mem_of_ne_nil _ (allowed j hj)
  simp only [nodesAt, List.getElem?_toArray, List.getElem?_map, layer, Option.map_some,
    Option.getD_some] at hrest
  have typed := sels a sel (List.mem_of_getElem? layer) _ (mem_nodeAt.mp (mem_tailsAfter.mp hrest))
  have known : (a.project (vars.take k) (tuple.toList.take k)).length =
      ((vars.take k).filter (· ∈ a.vars)).length := a.length_project (by simp [size])
  refine forall₂_getElem? typed (i := (a.project (vars.take k) (tuple.toList.take k)).length) ?_ ?_
  · rw [List.getElem?_map, known, mentioned_getElem? found mem, Option.map_some]
  · simp

/-- **A sorted search runs without a fault**: it ends at a sound pool, unless
it reaches a pool that overflows. -/
theorem search_safe (L : Layout vars nTable occ layers) {sortOf : String → SortInfo} {k m : Nat}
    {prog : List JoinStep} (sched : Scheduled nTable vars.length occ k m prog) :
    ∀ {tuple : Array Value} {found : Found} {p : Pool}, k ≤ nTable → nTable ≤ m →
      tuple.size = vars.length → SearchSorted vars nTable layers sortOf p prog k m tuple →
      (JoinStep.search prog tuple (nodesAt vars layers k tuple) found).Safe p := by
  induction sched with
  | done =>
    intro tuple found p _ _ _ sorted
    exact safe_pure _ sorted.sound
  | @intersect k m rest lt next ih =>
    intro tuple found p le start size sorted
    obtain ⟨w, hw⟩ : ∃ w, vars[k]? = some w :=
      Option.isSome_iff_exists.mp (by simp; have := L.table; omega)
    simp only [JoinStep.search]
    split
    · exact safe_pure _ sorted.sound
    rename_i first hfirst
    have chosen := smallest_mem hfirst
    refine safe_foldlM (fun v hv found' q grows sound => ?_) sorted.sound
    have allowed := (mem_candidates chosen v).mp hv
    split
    · exact safe_pure _ sound
    rw [foldl_groups_eq_narrow (fun ns j => narrow_step _ ns j v), L.narrow_nodesAt lt size v]
    -- the candidate is a value of its variable's sort, so the deeper state stays sorted
    have held := (L.holds_of_allowed sorted.sels lt hw size allowed).grow grows
    have room := L.table
    refine ih lt start (by simpa using size)
      ((sorted.grow grows sound).tail.bind (by omega) (fun v' hv' => ?_) fun j bound => ?_)
    · rw [hw] at hv'
      cases hv'
      exact held
    · unfold SlotBound at bound ⊢
      omega
  | @bind k m prim args rest reads lt next ih =>
    intro tuple found p le start size sorted
    obtain full | ⟨res, p', o, ran, sound', out_sorted, holds⟩ := sorted.call_runs reads
    · exact .inr ⟨p, .refl p, full⟩
    simp only [JoinStep.search]
    refine Safe.of_run ran sound' ?_
    cases res with
    | none => exact safe_pure _ sound'
    | some r =>
      simp only [Bool.false_and, Bool.false_eq_true, if_false]
      rw [← nodesAt_set!_of_le vars layers (Nat.le_trans le start) tuple r]
      obtain ⟨v, hv, rfl⟩ := out_sorted
      refine ih le (by omega) (by simpa using size)
        ((sorted.grow (run_grows ran) sound').tail.bind (by omega) (fun v' hv' => ?_) fun j bound => ?_)
      · rw [hv] at hv'
        cases hv'
        exact holds r rfl
      · unfold SlotBound at bound ⊢
        omega
  | @check k m prim args i rest reads bound next ih =>
    intro tuple found p le start size sorted
    obtain full | ⟨res, p', -, ran, sound', -⟩ := sorted.call_runs reads
    · exact .inr ⟨p, .refl p, full⟩
    simp only [JoinStep.search]
    refine Safe.of_run ran sound' ?_
    cases res with
    | none => exact safe_pure _ sound'
    | some r =>
      simp only [Bool.true_and]
      split
      · exact safe_pure _ sound'
      · rename_i same
        rw [set!_of_getElem? (by simpa using same)]
        exact ih le start size ((sorted.grow (run_grows ran) sound').tail)
  | @test k m prim args v check rest reads next ih =>
    intro tuple found p le start size sorted
    obtain full | ⟨res, p', -, ran, sound', -⟩ := sorted.call_runs reads
    · exact .inr ⟨p, .refl p, full⟩
    simp only [JoinStep.search]
    refine Safe.of_run ran sound' ?_
    cases res with
    | none => exact safe_pure _ sound'
    | some r =>
      simp only
      split
      · exact safe_pure _ sound'
      · exact ih le start size ((sorted.grow (run_grows ran) sound').tail)

end Layout

/-! ### Scheduled programs fit their tuple -/

/-- A scheduled program fits its tuple, from the slots bound at its start. -/
theorem Scheduled.fits {nTable n : Nat} {occ : Nat → List Nat} {k m : Nat} {prog : List JoinStep}
    (sched : Scheduled nTable n occ k m prog) (table : nTable ≤ n) :
    k ≤ nTable → nTable ≤ m → ∀ B : List Nat, (∀ i, i ∈ B ↔ SlotBound nTable k m i) →
      ∃ B', Fits n B prog B' := by
  induction sched with
  | done => exact fun _ _ B _ => ⟨B, .nil⟩
  | @intersect k m rest lt next ih =>
    intro _ start B bound
    have free : k ∉ B := fun mem => by
      have := (bound k).mp mem
      unfold SlotBound at this
      omega
    obtain ⟨B', fits⟩ := ih lt start (k :: B) fun i => by
      rw [List.mem_cons, bound i]
      unfold SlotBound
      omega
    exact ⟨B', .intersect (by omega) free fits⟩
  | @bind k m prim args rest reads lt next ih =>
    intro le start B bound
    have free : m ∉ B := fun mem => by
      have := (bound m).mp mem
      unfold SlotBound at this
      omega
    obtain ⟨B', fits⟩ := ih le (by omega) (m :: B) fun i => by
      rw [List.mem_cons, bound i]
      unfold SlotBound
      omega
    refine ⟨B', .bind (fun x hx => ?_) lt free fits⟩
    cases x with
    | slot i => exact (bound i).mpr (reads _ hx)
    | const v => trivial
  | @check k m prim args i rest reads held next ih =>
    intro le start B bound
    obtain ⟨B', fits⟩ := ih le start B bound
    refine ⟨B', .check (fun x hx => ?_) ((bound i).mpr held) fits⟩
    cases x with
    | slot i => exact (bound i).mpr (reads _ hx)
    | const v => trivial
  | @test k m prim args v check rest reads next ih =>
    intro le start B bound
    obtain ⟨B', fits⟩ := ih le start B bound
    refine ⟨B', .test (fun x hx => ?_) fits⟩
    cases x with
    | slot i => exact (bound i).mpr (reads _ hx)
    | const v => trivial

end Saturate
