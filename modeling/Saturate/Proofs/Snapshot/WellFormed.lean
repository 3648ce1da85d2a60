import Mathlib
import Saturate.Proofs.Snapshot.Invariant
import Saturate.Proofs.Table.Index
import Saturate.Proofs.Session.Narrow

/-!
Snapshots are well formed. A snapshot names its nodes and classes by strings, and its edges by
the names of nodes; `WellFormed` says these names fit together:

* node names, and class names, are distinct;
* every child of a node names a node;
* every node is the node of a kept row, in the class of the row's output, with an edge per
  input; the node of a value of a sort other than an e-class, with an edge per element; or the
  placeholder `[...]`, of infinite cost, of an e-class that no kept row is of;
* an edge to a value names a node in the value's class: for an e-class, a kept row of the class,
  or the placeholder when the limits cut every row of the class;
* every node's class is recorded with the name of its sort;
* each kept row has exactly one node, named by its offset and function.

Classes are named in the pool the build ends with (`ClassIn`): naming the value's class there
gives the name and stores nothing. The main statement is `build_wellFormed`, for a database
whose functions are indexed by name and whose rows are well stored, with or without unions
pending; it is the invariant of the build (`Inv`) read at the end, with every kept row done.
-/

namespace Saturate

open SortInfo PoolM

/-- Every row of every function, subsumed or not, has its output and its inputs well stored in
pool `p`. -/
def Database.RowsStored (d : Database) (p : Pool) : Prop :=
  ∀ f ∈ d.funcs.toList, ∀ i e, (i, e) ∈ f.table.rows true →
    WellStored p d.unionFind [] f.output e.output.value ∧
      ∀ a ∈ e.inputs.zip f.inputs, WellStored p d.unionFind [] a.2 a.1

/-- Functions of one name are one function. -/
theorem Database.NamesIndexed.eq_of_name {d : Database} (h : d.NamesIndexed) {f g : Func}
    (hf : f ∈ d.funcs.toList) (hg : g ∈ d.funcs.toList) (same : f.name = g.name) : f = g := by
  obtain ⟨i, found⟩ := List.mem_iff_getElem?.mp hf
  obtain ⟨j, found'⟩ := List.mem_iff_getElem?.mp hg
  rw [Array.getElem?_toList] at found found'
  have named := h.func?_name found
  rw [same, h.func?_name found'] at named
  exact (Option.some.inj named).symm

namespace Snapshot

section Shape

variable (d : Database) (calls : List (Func × Nat × Entry)) (P : Pool) (snap : Snapshot)

/-- In pool `P`, the class of the value `v` of sort `s` is named `c`: naming it gives `c` and
stores nothing. -/
def ClassIn (s : SortInfo) (v : Value) (c : String) : Prop :=
  (classId d s v).run P = .ok (c, P)

/-- No row of `calls` with an e-class output is of class `c`. -/
def NoneIn (c : String) : Prop :=
  ∀ f i e, (f, i, e) ∈ calls → f.output.isEq = true → ¬ ClassIn d P f.output e.output.value c

/-- An edge of a snapshot to the value `v` of sort `s` names a node of the value's class: for an
e-class, the node of a row of `calls` of that class, or the class's placeholder `[...]` of
infinite cost when no row of `calls` is of it; for any other value, the value's own node. -/
def EdgeTo (s : SortInfo) (v : Value) (ch : String) : Prop :=
  ∃ c, ClassIn d P s v c ∧ ∃ n ∈ snap.nodes, n.id = ch ∧ n.eclass = c ∧
    if s.isEq then
      (∃ f i e, (f, i, e) ∈ calls ∧ f.output.isEq = true ∧ ClassIn d P f.output e.output.value c ∧
        ch = rowNodeId f.name i) ∨
      (ch = "dummy-" ++ c ∧ n.op = "[...]" ∧ n.cost = Binary64.infinityBits false ∧
        NoneIn d calls P c)
    else ch = "primitive-" ++ c

/-- A node of a snapshot: the node of a row of `calls`, in the class of its output, with an edge
per input; the node of a value of a sort other than an e-class, with an edge per element; or the
placeholder of an e-class that no row of `calls` is of. -/
def NodeIn (n : SnapshotNode) : Prop :=
  (∃ f i e, (f, i, e) ∈ calls ∧ n.id = rowNodeId f.name i ∧ n.op = f.name ∧
    ClassIn d P f.output e.output.value n.eclass ∧ n.cost = costBits (f.decl.cost.getD 1) ∧
    n.subsumed = e.output.subsumed ∧
    List.Forall₂ (fun ch a => EdgeTo d calls P snap a.2 a.1 ch) n.children
      (e.inputs.zip f.inputs)) ∨
  (∃ s v l, s.isEq = false ∧ ClassIn d P s v n.eclass ∧ n.id = "primitive-" ++ n.eclass ∧
    n.cost = costBits 1 ∧ n.subsumed = false ∧
    (s.table? = none ∧ l = [] ∨ s.elementsIn P v = some l) ∧
    List.Forall₂ (fun ch a => EdgeTo d calls P snap a.1 a.2 ch) n.children l) ∨
  (n.id = "dummy-" ++ n.eclass ∧ n.op = "[...]" ∧ n.cost = Binary64.infinityBits false ∧
    n.children = [] ∧ n.subsumed = false ∧ NoneIn d calls P n.eclass)

end Shape

/-- A well-formed snapshot of a database, with `P` the pool it was built with. Node and class
names are distinct; every child names a node; every node is a node of a kept row, of a value or
a placeholder, with its edges in the classes of the values it reads; every node's class is
recorded with its sort; and each kept row has exactly one node, in the class of its output. -/
structure WellFormed (d : Database) (config : SnapshotConfig) (P : Pool) (snap : Snapshot) :
    Prop where
  ids_nodup : (snap.nodes.toList.map (·.id)).Nodup
  classes_nodup : (snap.classes.toList.map Prod.fst).Nodup
  closed : ∀ n ∈ snap.nodes, ∀ ch ∈ n.children, ∃ m ∈ snap.nodes, m.id = ch
  nodes : ∀ n ∈ snap.nodes, NodeIn d (keptCalls d config) P snap n
  typed : ∀ n ∈ snap.nodes, ∃ s v, ClassIn d P s v n.eclass ∧ (n.eclass, s.name) ∈ snap.classes
  rows : ∀ f i e, (f, i, e) ∈ keptCalls d config →
    (snap.nodes.toList.map (·.id)).count (rowNodeId f.name i) = 1 ∧
    ∀ n ∈ snap.nodes, n.id = rowNodeId f.name i →
      n.op = f.name ∧ ClassIn d P f.output e.output.value n.eclass

/-! ### The kept rows -/

variable {d : Database} {config : SnapshotConfig}

/-- A kept row is a row of a function of the database, subsumed or not. -/
theorem mem_keptCalls {f : Func} {i : Nat} {e : Entry} (kept : (f, i, e) ∈ keptCalls d config) :
    f ∈ d.funcs.toList ∧ (i, e) ∈ f.table.rows true := by
  simp only [keptCalls, List.mem_flatMap, List.mem_map, Prod.mk.injEq] at kept
  obtain ⟨⟨f', rows⟩, listed, ⟨i', e'⟩, row, rfl, rfl, rfl⟩ := kept
  -- both limits only take a prefix, of the functions and of each function's rows
  have prefixed := by
    split at listed
    · exact List.mem_of_mem_take listed
    · exact listed
  obtain ⟨g, chosen, same⟩ := List.mem_map.mp (List.mem_filter.mp prefixed).1
  simp only [Prod.mk.injEq] at same
  obtain ⟨rfl, rfl⟩ := same
  refine ⟨(List.mem_filter.mp chosen).1, ?_⟩
  split at row
  · exact List.mem_of_mem_take row
  · exact row

/-- Kept rows with one node name are one row: the name gives the function and the offset, the
function is the only one of its name, and the offset gives the entry. -/
theorem keptCalls_distinct (names : d.NamesIndexed) {f f' : Func} {i i' : Nat} {e e' : Entry}
    (kept : (f, i, e) ∈ keptCalls d config) (kept' : (f', i', e') ∈ keptCalls d config)
    (same : rowNodeId f'.name i' = rowNodeId f.name i) : (f', i', e') = (f, i, e) := by
  obtain ⟨named, rfl⟩ := rowNodeId_inj.mp same
  obtain ⟨listed, row⟩ := mem_keptCalls kept
  obtain ⟨listed', row'⟩ := mem_keptCalls kept'
  obtain rfl := names.eq_of_name listed' listed named
  have entry := (Table.mem_rows_iff.mp row).1
  rw [(Table.mem_rows_iff.mp row').1, Option.some_inj] at entry
  rw [entry]

theorem stored_of_kept {p : Pool} (stored : d.RowsStored p) {f : Func} {i : Nat} {e : Entry}
    (kept : (f, i, e) ∈ keptCalls d config) :
    WellStored p d.unionFind [] f.output e.output.value ∧
      ∀ a ∈ e.inputs.zip f.inputs, WellStored p d.unionFind [] a.2 a.1 :=
  stored f (mem_keptCalls kept).1 i e (mem_keptCalls kept).2

/-- Naming a class conserves the pool. -/
theorem classId_conserves (d : Database) (s : SortInfo) (v : Value) : (classId d s v).Conserves :=
  conserves_of_run fun _ _ _ interned ran => by
    obtain ⟨r, canon, -⟩ := run_classId_inv ran
    exact (SortInfo.canonicalize_conserves d.unionFind s v).run interned canon

/-- What a build does: it finds the members of the classes of the kept rows, finds the best rows
for the terms of values, adds the nodes of the kept rows with fuel past every depth, and names the
classes of the roots. -/
theorem run_build_ok {p P : Pool} {snap : Snapshot}
    (built : (build d config).run p = .ok (snap, P)) :
    ∃ members q₁ x q₂ st q₃ roots,
      ((keptCalls d config).foldlM (addMember d) {}).run p = .ok (members, q₁) ∧
      (Extractor.build d).run q₁ = .ok (x, q₂) ∧
      (((keptCalls d config).forM (addRow x d (q₂.itemCount + 2))).run
        ⟨#[], {}, #[], {}, members, .empty⟩).run q₂ = .ok (((), st), q₃) ∧
      (config.roots.mapM fun a => classId d a.1 a.2).run q₃ = .ok (roots, P) ∧
      snap = ⟨st.nodes, roots, st.classes⟩ := by
  simp only [build] at built
  obtain ⟨members, q₁, found, built₁⟩ := PoolM.run_bind_ok built
  obtain ⟨x, q₂, extracted, built₂⟩ := PoolM.run_bind_ok built₁
  obtain ⟨p₂, q₂', got, built₃⟩ := PoolM.run_bind_ok built₂
  rw [PoolM.run_read] at got
  obtain ⟨rfl, rfl⟩ : q₂ = p₂ ∧ q₂ = q₂' := by simpa using got
  obtain ⟨⟨u, st⟩, q₃, added, built₄⟩ := PoolM.run_bind_ok built₃
  obtain ⟨roots, q₄, named, built₅⟩ := PoolM.run_bind_ok built₄
  obtain ⟨rfl, rfl⟩ := PoolM.run_pure_inv built₅
  exact ⟨members, q₁, x, q₂, st, q₃, roots, found, extracted, added, named, rfl⟩

/-! ### The end of a build -/

section Final

variable {calls : List (Func × Nat × Entry)} {P p₀ : Pool} {snap : Snapshot} {st : SnapshotState}
  {s : SortInfo} {v : Value} {c ch : String}

theorem ClassIn.unique {c' : String} (named : ClassIn d P s v c) (named' : ClassIn d P s v c') :
    c = c' := by
  have same := named.symm.trans named'
  simp only [Except.ok.injEq, Prod.mk.injEq] at same
  exact same.1

theorem NoneKeptIn.noneIn (unkept : NoneKeptIn d calls P c) (interned : P.Interned) :
    NoneIn d calls P c := by
  intro f i e kept eq named
  obtain ⟨c', settled, ne⟩ := unkept f i e kept eq
  exact ne (ClassIn.unique (settled.run interned) named)

/-- Every edge names a node. -/
theorem named_of_edges {α : Type} (g : α → SortInfo × Value) :
    ∀ {chs : List String} {l : List α},
      List.Forall₂ (fun ch a => EdgeTo d calls P snap (g a).1 (g a).2 ch) chs l →
      ∀ ch ∈ chs, ∃ m ∈ snap.nodes, m.id = ch
  | _, _, .nil => by simp
  | _, _, .cons edge edges => by
    intro ch mem
    rcases List.mem_cons.mp mem with rfl | mem
    · obtain ⟨c, -, m, listed, named, -⟩ := edge
      exact ⟨m, listed, named⟩
    · exact named_of_edges g edges ch mem

theorem NodeIn.children_named {n : SnapshotNode} (node : NodeIn d calls P snap n) :
    ∀ ch ∈ n.children, ∃ m ∈ snap.nodes, m.id = ch := by
  rcases node with ⟨f, i, e, -, -, -, -, -, -, edges⟩ | ⟨s, v, l, -, -, -, -, -, -, edges⟩ |
      ⟨-, -, -, childless, -⟩
  · exact named_of_edges (fun a : Value × SortInfo => (a.2, a.1)) edges
  · exact named_of_edges id edges
  · simp [childless]

variable (distinct : ∀ f i e, (f, i, e) ∈ calls → ∀ f' i' e', (f', i', e') ∈ calls →
  rowNodeId f'.name i' = rowNodeId f.name i → (f', i', e') = (f, i, e))

include distinct in
/-- A node named by a row of `calls` is that row's node. -/
theorem Inv.rowNode {done : List (Func × Nat × Entry)} (inv : Inv d calls p₀ done st P)
    {f : Func} {i : Nat} {e : Entry} (kept : (f, i, e) ∈ calls) {n : SnapshotNode}
    (mem : n ∈ st.nodes) (named : n.id = rowNodeId f.name i) :
    n.op = f.name ∧ Settled d P f.output e.output.value n.eclass ∧
      n.cost = costBits (f.decl.cost.getD 1) ∧ n.subsumed = e.output.subsumed ∧
      List.Forall₂ (fun ch a => Points d calls st P a.2 a.1 ch) n.children
        (e.inputs.zip f.inputs) := by
  rcases inv.nodes n mem with ⟨f', i', e', kept', named', op, settled, cost, subsumed, edges⟩ |
      ⟨_, _, _, -, -, named', -⟩ | ⟨named', -⟩
  · obtain ⟨rfl, rfl, rfl⟩ : f' = f ∧ i' = i ∧ e' = e := by
      simpa using distinct f i e kept f' i' e' kept' (named'.symm.trans named)
    exact ⟨op, settled, cost, subsumed, edges⟩
  · exact absurd (named.symm.trans named') rowNodeId_ne_primitive
  · exact absurd (named.symm.trans named') rowNodeId_ne_dummy

/-- A node named as a class's placeholder is that class's placeholder. -/
theorem Inv.placeholder {done : List (Func × Nat × Entry)} (inv : Inv d calls p₀ done st P)
    {n : SnapshotNode} (mem : n ∈ st.nodes) (named : n.id = "dummy-" ++ c) :
    n.eclass = c ∧ n.op = "[...]" ∧ n.cost = Binary64.infinityBits false ∧
      NoneKeptIn d calls P c := by
  rcases inv.nodes n mem with ⟨_, _, _, -, named', -⟩ | ⟨_, _, _, -, -, named', -⟩ |
      ⟨named', op, cost, -, -, unkept⟩
  · exact absurd (named'.symm.trans named) rowNodeId_ne_dummy
  · exact absurd (named'.symm.trans named) primitive_ne_dummy
  · have same : n.eclass = c := (String.append_right_inj _).mp (named'.symm.trans named)
    subst same
    exact ⟨rfl, op, cost, unkept⟩

/-- A node named as a value's node is in the value's class. -/
theorem Inv.valueNode {done : List (Func × Nat × Entry)} (inv : Inv d calls p₀ done st P)
    {n : SnapshotNode} (mem : n ∈ st.nodes) (named : n.id = "primitive-" ++ c) : n.eclass = c := by
  rcases inv.nodes n mem with ⟨_, _, _, -, named', -⟩ | ⟨_, _, _, -, -, named', -⟩ | ⟨named', -⟩
  · exact absurd (named'.symm.trans named) rowNodeId_ne_primitive
  · exact (String.append_right_inj _).mp (named'.symm.trans named)
  · exact absurd (named.symm.trans named') primitive_ne_dummy

include distinct in
/-- Once every row of `calls` is done, an edge of the build is an edge of the snapshot: the node
it names is there, in the value's class. -/
theorem Inv.edgeTo (inv : Inv d calls p₀ calls st P) (points : Points d calls st P s v ch)
    (roots : List String) : EdgeTo d calls P ⟨st.nodes, roots, st.classes⟩ s v ch := by
  obtain ⟨c, settled, target⟩ := points
  refine ⟨c, settled.run inv.interned, ?_⟩
  split at target
  · rename_i eq
    rcases target with ⟨f, i, e, kept, outEq, settled', rfl⟩ | ⟨rfl, unkept, listed⟩
    · obtain ⟨n, mem, named⟩ := SnapshotState.mem_ids.mp (inv.done_added f i e kept)
      obtain ⟨-, settledN, -⟩ := inv.rowNode distinct kept mem named
      refine ⟨n, mem, named, settledN.unique settled' inv.interned, ?_⟩
      rw [if_pos eq]
      exact .inl ⟨f, i, e, kept, outEq, settled'.run inv.interned, rfl⟩
    · obtain ⟨n, mem, named⟩ := SnapshotState.mem_ids.mp listed
      obtain ⟨rfl, op, cost, -⟩ := inv.placeholder mem named
      refine ⟨n, mem, named, rfl, ?_⟩
      rw [if_pos eq]
      exact .inr ⟨rfl, op, cost, unkept.noneIn inv.interned⟩
  · rename_i notEq
    obtain ⟨rfl, listed⟩ := target
    obtain ⟨n, mem, named⟩ := SnapshotState.mem_ids.mp listed
    refine ⟨n, mem, named, inv.valueNode mem named, ?_⟩
    rw [if_neg notEq]

include distinct in
/-- Once every row of `calls` is done, every node of the build is a node of the snapshot. -/
theorem Inv.nodeIn (inv : Inv d calls p₀ calls st P) (roots : List String) {n : SnapshotNode}
    (mem : n ∈ st.nodes) : NodeIn d calls P ⟨st.nodes, roots, st.classes⟩ n := by
  have edge := fun {s : SortInfo} {v : Value} {ch : String} (points : Points d calls st P s v ch) =>
    inv.edgeTo distinct points roots
  rcases inv.nodes n mem with ⟨f, i, e, kept, named, op, settled, cost, subsumed, edges⟩ |
      ⟨s, v, l, notEq, settled, named, cost, subsumed, elements, edges⟩ |
      ⟨named, op, cost, childless, subsumed, unkept⟩
  · exact .inl ⟨f, i, e, kept, named, op, settled.run inv.interned, cost, subsumed,
      edges.imp fun _ _ points => edge points⟩
  · exact .inr (.inl ⟨s, v, l, notEq, settled.run inv.interned, named, cost, subsumed, elements,
      edges.imp fun _ _ points => edge points⟩)
  · exact .inr (.inr ⟨named, op, cost, childless, subsumed, unkept.noneIn inv.interned⟩)

end Final

/-- The state a build ends in, with every kept row done, gives a well-formed snapshot. -/
theorem Inv.wellFormed {st : SnapshotState} {p₀ P : Pool}
    (inv : Inv d (keptCalls d config) p₀ (keptCalls d config) st P) (typed : Typed d st P)
    (names : d.NamesIndexed) (roots : List String) :
    WellFormed d config P ⟨st.nodes, roots, st.classes⟩ := by
  have distinct : ∀ f i e, (f, i, e) ∈ keptCalls d config → ∀ f' i' e',
      (f', i', e') ∈ keptCalls d config → rowNodeId f'.name i' = rowNodeId f.name i →
        (f', i', e') = (f, i, e) :=
    fun _ _ _ kept _ _ _ kept' same => keptCalls_distinct names kept kept' same
  have nodes := fun n (mem : n ∈ st.nodes) => inv.nodeIn distinct roots mem
  refine ⟨inv.ids_nodup, inv.classes_nodup, fun n mem => (nodes n mem).children_named, nodes,
    fun n mem => ?_, fun f i e kept => ⟨?_, fun n mem named => ?_⟩⟩
  · obtain ⟨s, v, settled, recorded⟩ := typed n mem
    exact ⟨s, v, settled.run inv.interned, recorded⟩
  · exact List.count_eq_one_of_mem inv.ids_nodup (inv.done_added f i e kept)
  · obtain ⟨op, settled, -⟩ := inv.rowNode distinct kept mem named
    exact ⟨op, settled.run inv.interned⟩

/-- **Snapshots are well formed.** From an interned pool, for a database whose functions are
indexed by name and whose rows are well stored, the snapshot a build returns is well formed in
the pool the build ends with. -/
theorem build_wellFormed {p : Pool} (config : SnapshotConfig) (interned : p.Interned)
    (names : d.NamesIndexed) (stored : d.RowsStored p) :
    match (build d config).run p with
    | .ok (snap, P) => WellFormed d config P snap
    | .error _ => True := by
  cases built : (build d config).run p with
  | error => trivial
  | ok result =>
    obtain ⟨snap, P⟩ := result
    obtain ⟨members, q₁, x, q₂, st, q₃, roots, found, extracted, added, named, rfl⟩ :=
      run_build_ok built
    obtain ⟨membersFor, interned₁, grown₁, names₁⟩ := foldlM_addMember interned
      (fun f i e kept => (stored_of_kept stored kept).1) _ (List.nil_append _)
      ⟨by simp, by simp⟩ interned (.refl p) rfl found
    obtain ⟨interned₂, names₂⟩ := (Extractor.build_conserves d).run interned₁ extracted
    have grows₂ := PoolM.run_grows extracted
    obtain ⟨inv₀, typed₀⟩ := Inv.start (membersFor.grow grows₂ names₂) interned₂
      (grown₁.trans grows₂) (names₂.trans names₁)
    have enough : p.itemCount < q₂.itemCount + 2 := by
      have := Pool.itemCount_le (grown₁.trans grows₂)
      omega
    obtain ⟨inv, typed, -⟩ := forM_addRow x interned
      (fun f i e kept f' i' e' kept' same => keptCalls_distinct names kept kept' same)
      (fun f i e kept => stored_of_kept stored kept) enough _ (List.nil_append _) inv₀ typed₀ added
    obtain ⟨interned₄, names₄⟩ :=
      (mapM_conserves (fun a : SortInfo × Value => classId_conserves d a.1 a.2) config.roots).run
        inv.interned named
    have grows₄ := PoolM.run_grows named
    exact (inv.grow_pool grows₄ interned₄ names₄).wellFormed (typed.grow_pool grows₄ names₄) names
      roots

/-! ### A database with one row -/

/-- The database of one constructor `Succ : E → E` with the one row `Succ 1 = 0`, for the ids
`0` and `1` of `E` in classes of their own. -/
def succRow : Database :=
  { Database.initial with
    unionFind := UnionFind.empty.makeSet.1.makeSet.1
    funcs := #[{ (default : Func) with
      decl := { (default : FunctionDecl) with name := "Succ", inputs := ["E"], output := "E" }
      inputs := [.eq "E"]
      output := .eq "E"
      table := ⟨#[⟨[.ofId "E" 1], true, ⟨.ofId "E" 0, 0, false⟩⟩],
        ({} : Std.HashMap (List Value) Nat).insert [.ofId "E" 1] 0, 0, 1⟩ }]
    funcIndex := ({} : Std.HashMap String Nat).insert "Succ" 0 }

theorem succRow_namesIndexed : succRow.NamesIndexed := by
  intro i f found
  rcases i with _ | i
  · simp only [succRow, List.getElem?_toArray, List.getElem?_cons_zero, Option.some.injEq] at found
    subst found
    simp [succRow, Func.name, Std.HashMap.get?_eq_getElem?]
  · simp [succRow] at found

theorem succRow_rowsStored : succRow.RowsStored {} := by
  intro f mem i e row
  simp only [succRow, List.mem_singleton] at mem
  subst mem
  obtain ⟨entry, -⟩ := Table.mem_rows_iff.mp row
  rcases i with _ | i
  · simp only [List.getElem?_toArray, List.getElem?_cons_zero, Option.some.injEq] at entry
    subst entry
    refine ⟨.eq (r := 0) (by decide), fun a listed => ?_⟩
    simp only [List.zip_cons_cons, List.zip_nil_right, List.mem_singleton] at listed
    subst listed
    exact .eq (r := 1) (by decide)
  · simp at entry

theorem succRow_snapshot_wellFormed :
    Pool.Interned {} ∧ succRow.NamesIndexed ∧ succRow.RowsStored {} ∧
      match (build succRow ⟨none, none, false, []⟩).run {} with
      | .ok (snap, P) => WellFormed succRow ⟨none, none, false, []⟩ P snap
      | .error _ => True :=
  ⟨fun _ _ found => by simp at found, succRow_namesIndexed, succRow_rowsStored,
    build_wellFormed _ (fun _ _ found => by simp at found) succRow_namesIndexed succRow_rowsStored⟩

end Snapshot

end Saturate
