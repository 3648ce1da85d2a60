import Mathlib
import Saturate.Proofs.Snapshot.Steps

/-!
The invariant of building a snapshot. `Inv` says what holds after the nodes of some kept rows
are added: the indexes name exactly the nodes and classes, each once; every node is the node of a
kept row, of a value, or of a placeholder, with edges to the values it reads; the members of each
e-class are its kept rows, or its placeholder when none is kept. Each step of the build keeps it:

* `nodeFor_points`: the edge to a well-stored value, adding the nodes of the values below it;
* `addRow_step` and `forM_addRow`: the node of a kept row, and the loop over all of them;
* `foldlM_addMember` and `Inv.start`: the members found first, and the state the loop starts in.
-/

namespace Saturate

open SortInfo

namespace Snapshot

section Invariant

variable (d : Database) (calls : List (Func × Nat × Entry))

/-- `id` is the node of a kept row with an e-class output in class `c`. -/
def KeptIn (q : Pool) (c id : String) : Prop :=
  ∃ f i e, (f, i, e) ∈ calls ∧ f.output.isEq = true ∧ Settled d q f.output e.output.value c ∧
    id = rowNodeId f.name i

/-- No kept row with an e-class output is of class `c`. -/
def NoneKeptIn (q : Pool) (c : String) : Prop :=
  ∀ f i e, (f, i, e) ∈ calls → f.output.isEq = true →
    ∃ c', Settled d q f.output e.output.value c' ∧ c' ≠ c

/-- An edge to the value `v` of sort `s` names a node of its class: for an e-class, a kept row of
the class, or the class's placeholder when no kept row is of it; for any other value, the
value's node. Nodes of values and placeholders are there already. -/
def Points (st : SnapshotState) (q : Pool) (s : SortInfo) (v : Value) (ch : String) : Prop :=
  ∃ c, Settled d q s v c ∧
    if s.isEq then
      KeptIn d calls q c ch ∨ (ch = "dummy-" ++ c ∧ NoneKeptIn d calls q c ∧ ch ∈ st.ids)
    else ch = "primitive-" ++ c ∧ ch ∈ st.ids

/-- A node of a snapshot being built: the node of a kept row, with an edge per input; the node of
a value of a sort other than an e-class, with an edge per element; or the placeholder of an
e-class that no kept row is of. -/
def NodeOk (st : SnapshotState) (q : Pool) (n : SnapshotNode) : Prop :=
  (∃ f i e, (f, i, e) ∈ calls ∧ n.id = rowNodeId f.name i ∧ n.op = f.name ∧
    Settled d q f.output e.output.value n.eclass ∧ n.cost = costBits (f.decl.cost.getD 1) ∧
    n.subsumed = e.output.subsumed ∧
    List.Forall₂ (fun ch a => Points d calls st q a.2 a.1 ch) n.children (e.inputs.zip f.inputs)) ∨
  (∃ s v l, s.isEq = false ∧ Settled d q s v n.eclass ∧ n.id = "primitive-" ++ n.eclass ∧
    n.cost = costBits 1 ∧ n.subsumed = false ∧
    (s.table? = none ∧ l = [] ∨ s.elementsIn q v = some l) ∧
    List.Forall₂ (fun ch a => Points d calls st q a.1 a.2 ch) n.children l) ∨
  (n.id = "dummy-" ++ n.eclass ∧ n.op = "[...]" ∧ n.cost = Binary64.infinityBits false ∧
    n.children = [] ∧ n.subsumed = false ∧ NoneKeptIn d calls q n.eclass)

/-- A later state of a build: the pool grew with the same names, and the nodes and classes
stayed. -/
structure Extends (st : SnapshotState) (q : Pool) (st' : SnapshotState) (q' : Pool) : Prop where
  pool : q.Grows q'
  names : q'.names = q.names
  nodes : ∀ n ∈ st.nodes, n ∈ st'.nodes
  classes : ∀ x ∈ st.classes, x ∈ st'.classes

variable {d calls}
variable {st st' st'' : SnapshotState} {q q' q'' : Pool} {c id ch : String}

theorem Extends.refl (st : SnapshotState) (q : Pool) : Extends st q st q :=
  ⟨.refl q, rfl, fun _ => id, fun _ => id⟩

/-- A step of the pool alone reaches a later state. -/
theorem Extends.of_pool (grows : q.Grows q') (names : q'.names = q.names) : Extends st q st q' :=
  ⟨grows, names, fun _ => id, fun _ => id⟩

theorem Extends.trans (first : Extends st q st' q') (second : Extends st' q' st'' q'') :
    Extends st q st'' q'' :=
  ⟨first.pool.trans second.pool, second.names.trans first.names,
    fun n mem => second.nodes n (first.nodes n mem),
    fun x mem => second.classes x (first.classes x mem)⟩

theorem Extends.ids (ext : Extends st q st' q') (mem : id ∈ st.ids) : id ∈ st'.ids := by
  obtain ⟨n, listed, rfl⟩ := SnapshotState.mem_ids.mp mem
  exact SnapshotState.mem_ids.mpr ⟨n, ext.nodes n listed, rfl⟩

theorem KeptIn.grow (kept : KeptIn d calls q c id) (grows : q.Grows q')
    (names : q'.names = q.names) : KeptIn d calls q' c id := by
  obtain ⟨f, i, e, mem, eq, settled, rfl⟩ := kept
  exact ⟨f, i, e, mem, eq, settled.grow grows names, rfl⟩

theorem NoneKeptIn.grow (unkept : NoneKeptIn d calls q c) (grows : q.Grows q')
    (names : q'.names = q.names) : NoneKeptIn d calls q' c := fun f i e mem eq => by
  obtain ⟨c', settled, ne⟩ := unkept f i e mem eq
  exact ⟨c', settled.grow grows names, ne⟩

theorem Points.grow {s : SortInfo} {v : Value} (points : Points d calls st q s v ch)
    (ext : Extends st q st' q') : Points d calls st' q' s v ch := by
  obtain ⟨c, settled, target⟩ := points
  refine ⟨c, settled.grow ext.pool ext.names, ?_⟩
  split at target
  · rw [if_pos ‹_›]
    rcases target with kept | ⟨rfl, unkept, mem⟩
    · exact .inl (kept.grow ext.pool ext.names)
    · exact .inr ⟨rfl, unkept.grow ext.pool ext.names, ext.ids mem⟩
  · rw [if_neg ‹_›]
    exact ⟨target.1, ext.ids target.2⟩

/-- A member of the class `c` stays one as the build goes on. -/
theorem member_grow {m : String}
    (member : KeptIn d calls q c m ∨ (m = "dummy-" ++ c ∧ NoneKeptIn d calls q c ∧ m ∈ st.ids))
    (ext : Extends st q st' q') :
    KeptIn d calls q' c m ∨ (m = "dummy-" ++ c ∧ NoneKeptIn d calls q' c ∧ m ∈ st'.ids) :=
  member.imp (fun kept => kept.grow ext.pool ext.names)
    fun h => ⟨h.1, h.2.1.grow ext.pool ext.names, ext.ids h.2.2⟩

theorem NodeOk.grow {n : SnapshotNode} (ok : NodeOk d calls st q n) (interned : q.Interned)
    (ext : Extends st q st' q') : NodeOk d calls st' q' n := by
  rcases ok with ⟨f, i, e, mem, named, op, settled, cost, subsumed, edges⟩ |
      ⟨s, v, l, notEq, settled, named, cost, subsumed, elements, edges⟩ |
      ⟨named, op, cost, children, subsumed, unkept⟩
  · exact .inl ⟨f, i, e, mem, named, op, settled.grow ext.pool ext.names, cost, subsumed,
      edges.imp fun _ _ points => points.grow ext⟩
  · refine .inr (.inl ⟨s, v, l, notEq, settled.grow ext.pool ext.names, named, cost, subsumed,
      ?_, edges.imp fun _ _ points => points.grow ext⟩)
    exact elements.imp id fun found => elementsIn_grow interned ext.pool found
  · exact .inr (.inr ⟨named, op, cost, children, subsumed, unkept.grow ext.pool ext.names⟩)

variable (d calls) (p₀ : Pool)

/-- What building a snapshot from pool `p₀` keeps, after the rows `done`: the pool is interned
with the names of `p₀`; the indexes name exactly the nodes and classes, each once; a class names
its sort; every node is well formed; the members of an e-class are its kept rows, or its
placeholder when none is kept; and the row nodes are those of the rows done. -/
structure Inv (done : List (Func × Nat × Entry)) (st : SnapshotState) (q : Pool) : Prop where
  interned : q.Interned
  grown : p₀.Grows q
  names : q.names = p₀.names
  nodeIndex : ∀ id, st.nodeIndex.contains id = true ↔ id ∈ st.ids
  ids_nodup : st.ids.Nodup
  classIndex : ∀ c, st.classIndex.contains c = true ↔ c ∈ st.classes.toList.map Prod.fst
  classes_nodup : (st.classes.toList.map Prod.fst).Nodup
  named : ∀ c t, (c, t) ∈ st.classes → ∃ b : UInt64, c = t ++ "-" ++ toString b
  nodes : ∀ n ∈ st.nodes, NodeOk d calls st q n
  members : ∀ c ms, st.members[c]? = some ms → ms ≠ [] ∧
    ∀ m ∈ ms, KeptIn d calls q c m ∨ (m = "dummy-" ++ c ∧ NoneKeptIn d calls q c ∧ m ∈ st.ids)
  unmembered : ∀ c, st.members[c]? = none → NoneKeptIn d calls q c
  done_rows : ∀ n ∈ st.nodes, ∀ f i e, (f, i, e) ∈ calls → n.id = rowNodeId f.name i →
    (f, i, e) ∈ done
  done_added : ∀ f i e, (f, i, e) ∈ done → rowNodeId f.name i ∈ st.ids

/-- Every node's class is recorded with the name of the sort of a value in it. -/
def Typed (st : SnapshotState) (q : Pool) : Prop :=
  ∀ n ∈ st.nodes, ∃ s v, Settled d q s v n.eclass ∧ (n.eclass, s.name) ∈ st.classes

variable {d calls p₀} {done : List (Func × Nat × Entry)}

/-- A step of the pool alone keeps the invariant. -/
theorem Inv.grow_pool (inv : Inv d calls p₀ done st q) (grows : q.Grows q') (interned : q'.Interned)
    (names : q'.names = q.names) : Inv d calls p₀ done st q' := by
  have ext : Extends st q st q' := .of_pool grows names
  refine ⟨interned, inv.grown.trans grows, names.trans inv.names, inv.nodeIndex, inv.ids_nodup,
    inv.classIndex, inv.classes_nodup, inv.named,
    fun n mem => (inv.nodes n mem).grow inv.interned ext,
    fun c ms found => ?_, fun c found => (inv.unmembered c found).grow grows names, inv.done_rows,
    inv.done_added⟩
  obtain ⟨ne, each⟩ := inv.members c ms found
  exact ⟨ne, fun m mem => member_grow (each m mem) ext⟩

theorem Typed.grow_pool (typed : Typed d st q) (grows : q.Grows q') (names : q'.names = q.names) :
    Typed d st q' := fun n mem => by
  obtain ⟨s, v, settled, recorded⟩ := typed n mem
  exact ⟨s, v, settled.grow grows names, recorded⟩

/-- The term dag of a state is no part of the invariant. -/
theorem Inv.setDag (inv : Inv d calls p₀ done st q) (dag : TermDag) :
    Inv d calls p₀ done { st with dag := dag } q :=
  ⟨inv.interned, inv.grown, inv.names, inv.nodeIndex, inv.ids_nodup, inv.classIndex,
    inv.classes_nodup, inv.named, inv.nodes, inv.members, inv.unmembered, inv.done_rows,
    inv.done_added⟩

/-- Adding a node keeps the nodes and classes there. -/
theorem extends_withNode (st : SnapshotState) (q : Pool) (n : SnapshotNode) :
    Extends st q (st.withNode n) q :=
  ⟨.refl q, rfl, fun _ => SnapshotState.nodes_sub_withNode, by simp⟩

/-- Recording a class keeps the nodes and classes there. -/
theorem extends_withClass (st : SnapshotState) (q : Pool) (c t : String) :
    Extends st q (st.withClass c t) q :=
  ⟨.refl q, rfl, by simp, fun _ => SnapshotState.classes_sub_withClass⟩

/-- Pushing a key that the index lacks keeps the index exact and the keys distinct. -/
theorem index_insert_fresh {index : Std.HashMap String Unit} {keys : List String} {k : String}
    (exact : ∀ x, index.contains x = true ↔ x ∈ keys) (nodup : keys.Nodup)
    (absent : index.contains k = false) :
    (∀ x, (index.insert k ()).contains x = true ↔ x ∈ keys ++ [k]) ∧ (keys ++ [k]).Nodup := by
  have fresh : k ∉ keys := fun mem => by simp [(exact k).mpr mem] at absent
  refine ⟨fun x => ?_, List.nodup_append.mpr ⟨nodup, List.nodup_singleton _, ?_⟩⟩
  · rw [Std.HashMap.contains_insert, Bool.or_eq_true, exact x, List.mem_append, List.mem_singleton,
      beq_iff_eq, eq_comm, or_comm]
  · intro a mem b listed same
    rw [List.mem_singleton] at listed
    exact fresh (listed ▸ same ▸ mem)

/-- Adding a well-formed node keeps the invariant, with the rows done grown to `done'`. -/
theorem Inv.withNode {done' : List (Func × Nat × Entry)} (inv : Inv d calls p₀ done st q)
    {n : SnapshotNode} (ok : NodeOk d calls st q n)
    (row : ∀ f i e, (f, i, e) ∈ calls → n.id = rowNodeId f.name i → (f, i, e) ∈ done')
    (sub : ∀ r ∈ done, r ∈ done')
    (added : ∀ f i e, (f, i, e) ∈ done' → rowNodeId f.name i ∈ (st.withNode n).ids) :
    Inv d calls p₀ done' (st.withNode n) q := by
  have ext := extends_withNode st q n
  cases present : st.nodeIndex.contains n.id
  · have ids : (st.withNode n).ids = st.ids ++ [n.id] := by
      simp [SnapshotState.withNode_of_absent present, SnapshotState.ids]
    obtain ⟨index, nodup⟩ := index_insert_fresh inv.nodeIndex inv.ids_nodup present
    refine ⟨inv.interned, inv.grown, inv.names, fun id => ?_, ?_, by simpa using inv.classIndex,
      by simpa using inv.classes_nodup, by simpa using inv.named, fun m mem => ?_,
      fun c ms found => ?_, fun c found => ?_, fun m mem f i e listed named => ?_, added⟩
    · rw [ids, SnapshotState.withNode_of_absent present]
      exact index id
    · rw [ids]
      exact nodup
    · rcases SnapshotState.mem_withNode mem with old | rfl
      · exact (inv.nodes m old).grow inv.interned ext
      · exact ok.grow inv.interned ext
    · rw [SnapshotState.members_withNode] at found
      obtain ⟨ne, each⟩ := inv.members c ms found
      exact ⟨ne, fun m mem => member_grow (each m mem) ext⟩
    · rw [SnapshotState.members_withNode] at found
      exact (inv.unmembered c found).grow ext.pool ext.names
    · rcases SnapshotState.mem_withNode mem with old | rfl
      · exact sub _ (inv.done_rows m old f i e listed named)
      · exact row f i e listed named
  · rw [SnapshotState.withNode_of_contains present] at added ⊢
    exact ⟨inv.interned, inv.grown, inv.names, inv.nodeIndex, inv.ids_nodup, inv.classIndex,
      inv.classes_nodup, inv.named, inv.nodes, inv.members, inv.unmembered,
      fun m mem f i e listed named => sub _ (inv.done_rows m mem f i e listed named), added⟩

/-- Recording the class `c` of a sort named `t` keeps the invariant, and the class is there with
that sort: a class names its sort, so a class recorded before has it too. -/
theorem Inv.withClass (inv : Inv d calls p₀ done st q) {c t : String}
    (named : ∃ b : UInt64, c = t ++ "-" ++ toString b) :
    Inv d calls p₀ done (st.withClass c t) q ∧ (c, t) ∈ (st.withClass c t).classes := by
  have ext := extends_withClass st q c t
  cases present : st.classIndex.contains c
  · rw [SnapshotState.withClass_of_absent present] at ext ⊢
    obtain ⟨index, nodup⟩ := index_insert_fresh inv.classIndex inv.classes_nodup present
    have keys : (st.classes.push (c, t)).toList.map Prod.fst =
        st.classes.toList.map Prod.fst ++ [c] := by simp
    refine ⟨⟨inv.interned, inv.grown, inv.names, inv.nodeIndex, inv.ids_nodup, fun c' => ?_, ?_,
      fun c' t' mem => ?_, fun m mem => ?_, fun c' ms found => ?_, fun c' found => ?_,
      inv.done_rows, inv.done_added⟩, by simp⟩
    · rw [keys]
      exact index c'
    · rw [keys]
      exact nodup
    · rcases Array.mem_push.mp mem with old | new
      · exact inv.named c' t' old
      · cases new
        exact named
    · exact (inv.nodes m mem).grow inv.interned ext
    · obtain ⟨ne, each⟩ := inv.members c' ms found
      exact ⟨ne, fun m mem => member_grow (each m mem) ext⟩
    · exact (inv.unmembered c' found).grow ext.pool ext.names
  · rw [SnapshotState.withClass_of_contains present]
    refine ⟨inv, ?_⟩
    obtain ⟨⟨c', t'⟩, mem, rfl⟩ := List.mem_map.mp ((inv.classIndex c).mp present)
    obtain ⟨b', same'⟩ := inv.named c' t' (Array.mem_toList_iff.mp mem)
    obtain ⟨b, same⟩ := named
    obtain ⟨rfl, -⟩ := className_inj (same'.symm.trans same)
    exact Array.mem_toList_iff.mp mem

/-- The classes of the nodes stay recorded as the build goes on, given those of the new nodes. -/
theorem Typed.extend (typed : Typed d st q) (ext : Extends st q st' q')
    (new : ∀ n ∈ st'.nodes, n ∉ st.nodes →
      ∃ s v, Settled d q' s v n.eclass ∧ (n.eclass, s.name) ∈ st'.classes) :
    Typed d st' q' := fun n mem => by
  by_cases old : n ∈ st.nodes
  · obtain ⟨s, v, settled, recorded⟩ := typed n old
    exact ⟨s, v, settled.grow ext.pool ext.names, ext.classes _ recorded⟩
  · exact new n mem old

/-- Setting the members of class `c` to nodes of the class keeps the invariant. -/
theorem Inv.setMembers (inv : Inv d calls p₀ done st q) {ms : List String} (ne : ms ≠ [])
    (each : ∀ m ∈ ms, KeptIn d calls q c m ∨
      (m = "dummy-" ++ c ∧ NoneKeptIn d calls q c ∧ m ∈ st.ids)) :
    Inv d calls p₀ done { st with members := st.members.insert c ms } q := by
  refine ⟨inv.interned, inv.grown, inv.names, inv.nodeIndex, inv.ids_nodup, inv.classIndex,
    inv.classes_nodup, inv.named, inv.nodes, fun c' ms' found => ?_, fun c' found => ?_,
    inv.done_rows, inv.done_added⟩
  · rw [Std.HashMap.getElem?_insert] at found
    split at found
    · rename_i same
      cases (beq_iff_eq.mp same)
      cases found
      exact ⟨ne, each⟩
    · exact inv.members c' ms' found
  · rw [Std.HashMap.getElem?_insert] at found
    split at found
    · cases found
    · exact inv.unmembered c' found

theorem mem_rotate {ms : List String} {m : String} : m ∈ rotate ms ↔ m ∈ ms := by
  cases ms with
  | nil => rfl
  | cons a rest => simp [rotate, or_comm]

theorem rotate_ne_nil {ms : List String} (ne : ms ≠ []) : rotate ms ≠ [] := by
  cases ms with
  | nil => exact absurd rfl ne
  | cons a rest => simp [rotate]

/-- Turning the members of an e-class keeps the invariant, and the next edge takes one of them. -/
theorem Inv.rotateMembers (inv : Inv d calls p₀ done st q) {ms : List String}
    (found : st.members[c]? = some ms) :
    Inv d calls p₀ done { st with members := st.members.insert c (rotate ms) } q ∧
      (rotate ms).head?.getD ("dummy-" ++ c) ∈ ms := by
  obtain ⟨ne, each⟩ := inv.members c ms found
  refine ⟨inv.setMembers (rotate_ne_nil ne) fun m mem => each m (mem_rotate.mp mem), ?_⟩
  obtain ⟨m, rest, listed⟩ := List.exists_cons_of_ne_nil (rotate_ne_nil ne)
  have head : (rotate ms).head?.getD ("dummy-" ++ c) = m := by rw [listed]; rfl
  rw [head]
  exact mem_rotate.mp (by rw [listed]; exact List.mem_cons_self)

/-- After adding a node, a node of its name is there. -/
theorem Inv.id_mem_withNode (inv : Inv d calls p₀ done st q) (n : SnapshotNode) :
    n.id ∈ (st.withNode n).ids := by
  cases present : st.nodeIndex.contains n.id
  · simp [SnapshotState.withNode_of_absent present, SnapshotState.ids]
  · rw [SnapshotState.withNode_of_contains present]
    exact (inv.nodeIndex _).mp present

/-- An edge to an e-class with members takes the next one and turns them. -/
theorem Inv.pickMember (inv : Inv d calls p₀ done st q) {s : SortInfo} {v : Value}
    {ms : List String} (found : st.members[c]? = some ms) (eq : s.isEq = true)
    (settled : Settled d q s v c) :
    Inv d calls p₀ done { st with members := st.members.insert c (rotate ms) } q ∧
      Extends st q { st with members := st.members.insert c (rotate ms) } q ∧
      Points d calls { st with members := st.members.insert c (rotate ms) } q s v
        ((rotate ms).head?.getD ("dummy-" ++ c)) := by
  obtain ⟨inv', taken⟩ := inv.rotateMembers found
  refine ⟨inv', ⟨.refl q, rfl, fun _ => id, fun _ => id⟩, c, settled, ?_⟩
  rw [if_pos eq]
  exact (inv.members c ms found).2 _ taken

/-- An edge to an e-class without members adds the class's placeholder and takes it. -/
theorem Inv.pickPlaceholder (inv : Inv d calls p₀ done st q) {s : SortInfo} {v : Value}
    (absent : st.members[c]? = none) (eq : s.isEq = true) (settled : Settled d q s v c) :
    let st₂ := { st.withNode ⟨"dummy-" ++ c, "[...]", c, Binary64.infinityBits false, [], false⟩
      with members := st.members.insert c ["dummy-" ++ c] }
    Inv d calls p₀ done st₂ q ∧ Extends st q st₂ q ∧ Points d calls st₂ q s v ("dummy-" ++ c) ∧
      ∀ m ∈ st₂.nodes, m ∉ st.nodes → m.eclass = c := by
  intro st₂
  set n : SnapshotNode := ⟨"dummy-" ++ c, "[...]", c, Binary64.infinityBits false, [], false⟩
  have unkept := inv.unmembered c absent
  have inv₁ := inv.withNode (n := n) (.inr (.inr ⟨rfl, rfl, rfl, rfl, rfl, unkept⟩))
    (fun f i e _ named => absurd named.symm rowNodeId_ne_dummy) (fun _ => id)
    (fun f i e mem => (extends_withNode st q _).ids (inv.done_added f i e mem))
  have listed := inv.id_mem_withNode n
  have ext₁ := extends_withNode st q n
  have inv₂ := inv₁.setMembers (c := c) (List.cons_ne_nil ("dummy-" ++ c) [])
    fun m mem => .inr ⟨List.mem_singleton.mp mem, unkept.grow ext₁.pool ext₁.names,
      List.mem_singleton.mp mem ▸ listed⟩
  rw [SnapshotState.members_withNode] at inv₂
  refine ⟨inv₂, ⟨.refl q, rfl, ext₁.nodes, ext₁.classes⟩, ⟨c, settled, ?_⟩, fun m mem fresh => ?_⟩
  · rw [if_pos eq]
    exact .inr ⟨rfl, unkept, listed⟩
  · rcases SnapshotState.mem_withNode mem with old | rfl
    · exact absurd old fresh
    · rfl

/-- Recording the class of the value ends a call of `nodeFor`; the nodes it added are of that
class, so every node's class is recorded after it. -/
theorem Inv.record (inv : Inv d calls p₀ done st' q) {s : SortInfo} {v : Value}
    (typed : Typed d st q) (ext : Extends st q st' q)
    (new : ∀ m ∈ st'.nodes, m ∉ st.nodes → m.eclass = c) (settled : Settled d q s v c)
    (named : ∃ b : UInt64, c = s.name ++ "-" ++ toString b) :
    Inv d calls p₀ done (st'.withClass c s.name) q ∧ Typed d (st'.withClass c s.name) q ∧
      Extends st q (st'.withClass c s.name) q ∧ (c, s.name) ∈ (st'.withClass c s.name).classes := by
  obtain ⟨inv', recorded⟩ := inv.withClass named
  have ext' := ext.trans (extends_withClass st' q c s.name)
  refine ⟨inv', typed.extend ext' fun m mem fresh => ⟨s, v, ?_, ?_⟩, ext', recorded⟩
  · rw [new m (by simpa using mem) fresh]
    exact settled
  · rw [new m (by simpa using mem) fresh]
    exact recorded

/-- A `mapM` of steps that each keep `I`, reach a later state and relate their argument to their
result, keeps `I` and relates every argument to its result at the state it ends in. -/
theorem run_mapM_ok {α β : Type} {f : α → SnapshotM β} {I : SnapshotState → Pool → Prop}
    {R : SnapshotState → Pool → α → β → Prop}
    (stable : ∀ st q st' q' a b, R st q a b → I st q → Extends st q st' q' → R st' q' a b) :
    ∀ {xs : List α}, (∀ a ∈ xs, ∀ st q b st' q', I st q →
        ((f a).run st).run q = .ok ((b, st'), q') → I st' q' ∧ Extends st q st' q' ∧ R st' q' a b) →
      ∀ {st q bs st' q'}, I st q → ((xs.mapM f).run st).run q = .ok ((bs, st'), q') →
        I st' q' ∧ Extends st q st' q' ∧ List.Forall₂ (fun b a => R st' q' a b) bs xs
  | [], _, st, q, bs, st', q', inv, ran => by
    obtain ⟨rfl, rfl, rfl⟩ := run_pure_ok ran
    exact ⟨inv, .refl _ _, .nil⟩
  | x :: xs, step, st, q, bs, st', q', inv, ran => by
    rw [List.mapM_cons] at ran
    obtain ⟨b, st₁, q₁, first, rest⟩ := run_bind_ok ran
    obtain ⟨bs', st₂, q₂, mapped, done⟩ := run_bind_ok rest
    obtain ⟨rfl, rfl, rfl⟩ := run_pure_ok done
    obtain ⟨inv₁, ext₁, related⟩ := step x List.mem_cons_self st q b st₁ q₁ inv first
    obtain ⟨inv₂, ext₂, each⟩ := run_mapM_ok stable (fun a mem => step a (.tail _ mem)) inv₁ mapped
    exact ⟨inv₂, ext₁.trans ext₂, .cons (stable _ _ _ _ _ _ related inv₁ ext₂) each⟩

variable (d calls p₀ done) in
/-- A run from `st` and `q` to `st'` and `q'` of the edges to the values `l` kept the invariant,
reached a later state, and gave the edges `kids`, one per value. -/
abbrev MadeEdges (st : SnapshotState) (q : Pool) (l : List (SortInfo × Value)) (kids : List String)
    (st' : SnapshotState) (q' : Pool) : Prop :=
  Inv d calls p₀ done st' q' ∧ Typed d st' q' ∧ Extends st q st' q' ∧
    List.Forall₂ (fun ch a => Points d calls st' q' a.1 a.2 ch) kids l

variable (d calls p₀ done) in
/-- A run from `st` and `q` to `st'` and `q'` of the edge to the value `v` of sort `s` kept the
invariant, reached a later state, and gave the edge `ch` to the value, whose class it recorded
with the sort's name. -/
abbrev MadeEdge (st : SnapshotState) (q : Pool) (s : SortInfo) (v : Value) (ch : String)
    (st' : SnapshotState) (q' : Pool) : Prop :=
  Inv d calls p₀ done st' q' ∧ Typed d st' q' ∧ Extends st q st' q' ∧
    Points d calls st' q' s v ch ∧ ∃ c, Settled d q' s v c ∧ (c, s.name) ∈ st'.classes

/-- The node of a value that is not there yet: the edges to its elements come first, then its
text, then the node in the value's class, which is recorded with the sort's name. -/
theorem addValueNode_step (x : Extractor) (interned₀ : p₀.Interned) {s : SortInfo} {v : Value}
    {fuel : Nat} {l : List (SortInfo × Value)} {c : String} (notEq : s.isEq = false)
    (elements : s.table? = none ∧ l = [] ∨ s.elementsIn p₀ v = some l)
    (children : ∀ {st q kids st' q'}, Inv d calls p₀ done st q → Typed d st q →
      ((l.mapM fun a => nodeFor x d fuel a.1 a.2).run st).run q = .ok ((kids, st'), q') →
      MadeEdges d calls p₀ done st q l kids st' q')
    (settled : Settled d q s v c) (named : ∃ b : UInt64, c = s.name ++ "-" ++ toString b)
    (inv : Inv d calls p₀ done st q) (typed : Typed d st q) {inner : List (SortInfo × Value)}
    {kids : List String} {op : String} {st₃ st₄ : SnapshotState} {q₂ q₃ : Pool}
    (read : (s.innerValues v).run q = .ok (inner, q₂))
    (mapped : ((inner.mapM fun a => nodeFor x d fuel a.1 a.2).run st).run q₂ =
      .ok ((kids, st₃), q₃))
    (texted : ((primitiveOp x d s v).run st₃).run q₃ = .ok ((op, st₄), q')) :
    MadeEdge d calls p₀ done st q s v ("primitive-" ++ c)
      ((st₄.withNode ⟨"primitive-" ++ c, op, c, costBits 1, kids, false⟩).withClass c s.name)
      q' := by
  obtain ⟨rfl, fromElements, fromNone⟩ := run_innerValues_ok read
  have same : inner = l := by
    rcases elements with ⟨none, rfl⟩ | found
    · exact fromNone none
    · exact fromElements l (elementsIn_grow interned₀ inv.grown found)
  subst same
  obtain ⟨inv₃, typed₃, ext₃, edges⟩ := children inv typed mapped
  obtain ⟨⟨dag, rfl⟩, grows₄, frame⟩ := run_primitiveOp_ok texted
  obtain ⟨interned₄, names₄⟩ := frame inv₃.interned
  have ext₄ : Extends st₃ q₃ { st₃ with dag := dag } q' :=
    ⟨grows₄, names₄, fun _ => id, fun _ => id⟩
  have inv₄ := (inv₃.setDag dag).grow_pool grows₄ interned₄ names₄
  have typed₄ : Typed d { st₃ with dag := dag } q' := typed₃.grow_pool grows₄ names₄
  have settled₄ := settled.grow (ext₃.trans ext₄).pool (ext₃.trans ext₄).names
  have ok : NodeOk d calls { st₃ with dag := dag } q'
      ⟨"primitive-" ++ c, op, c, costBits 1, kids, false⟩ := by
    refine .inr (.inl ⟨s, v, inner, notEq, settled₄, rfl, rfl, rfl, ?_,
      edges.imp fun _ _ points => points.grow ext₄⟩)
    rcases elements with none | found
    · exact .inl none
    · exact .inr (elementsIn_grow interned₀ inv₄.grown found)
  have inv₅ := inv₄.withNode ok (fun f i e _ named => absurd named.symm rowNodeId_ne_primitive)
    (fun _ => id) fun f i e mem => (extends_withNode _ q' _).ids (inv₄.done_added f i e mem)
  obtain ⟨inv', typed', ext', recorded⟩ := inv₅.record typed₄ (extends_withNode _ q' _)
    (fun m mem fresh => by
      rcases SnapshotState.mem_withNode mem with old | rfl
      · exact absurd old fresh
      · rfl) settled₄ named
  refine ⟨inv', typed', ext₃.trans (ext₄.trans ext'), ⟨c, settled₄, ?_⟩, c, settled₄, recorded⟩
  rw [if_neg (by simp [notEq])]
  exact ⟨rfl, by simpa using inv₄.id_mem_withNode _⟩

/-- One call of `nodeFor` with fuel left keeps the invariant, reaches a later state, and gives
an edge to the value, whose class it records with the sort's name, given that the edges to the
value's elements one level down do the same. -/
theorem nodeFor_step (x : Extractor) (interned₀ : p₀.Interned) {s : SortInfo} {v : Value}
    {fuel : Nat} (stored : WellStored p₀ d.unionFind [] s v) {l : List (SortInfo × Value)}
    (elements : s.isEq = false → s.table? = none ∧ l = [] ∨ s.elementsIn p₀ v = some l)
    (children : ∀ {st q kids st' q'}, Inv d calls p₀ done st q → Typed d st q →
      ((l.mapM fun a => nodeFor x d fuel a.1 a.2).run st).run q = .ok ((kids, st'), q') →
      MadeEdges d calls p₀ done st q l kids st' q')
    {ch : String} (inv : Inv d calls p₀ done st q) (typed : Typed d st q)
    (ran : ((nodeFor x d (fuel + 1) s v).run st).run q = .ok ((ch, st'), q')) :
    MadeEdge d calls p₀ done st q s v ch st' q' := by
  obtain ⟨c, q₁, st₂, named, rfl, choice⟩ := run_nodeFor_succ ran
  obtain ⟨settled, grows₁, interned₁, names₁⟩ :=
    classId_settles interned₀ stored inv.grown inv.interned named
  obtain ⟨r, -, text⟩ := run_classId_inv named
  have inv₁ := inv.grow_pool grows₁ interned₁ names₁
  have typed₁ := typed.grow_pool grows₁ names₁
  have ext₁ : Extends st q st q₁ := .of_pool grows₁ names₁
  rcases choice with ⟨eq, rfl, picked⟩ | ⟨notEq, rfl, built⟩
  · rcases picked with ⟨ms, found, rfl, rfl⟩ | ⟨absent, rfl, rfl⟩
    · obtain ⟨inv₂, ext₂, points⟩ := inv₁.pickMember found eq settled
      obtain ⟨inv', typed', ext', recorded⟩ :=
        inv₂.record typed₁ ext₂ (fun m mem fresh => absurd mem fresh) settled ⟨_, text⟩
      exact ⟨inv', typed', ext₁.trans ext', points.grow (extends_withClass _ _ _ _), c, settled,
        recorded⟩
    · obtain ⟨inv₂, ext₂, points, new⟩ := inv₁.pickPlaceholder absent eq settled
      obtain ⟨inv', typed', ext', recorded⟩ := inv₂.record typed₁ ext₂ new settled ⟨_, text⟩
      exact ⟨inv', typed', ext₁.trans ext', points.grow (extends_withClass _ _ _ _), c, settled,
        recorded⟩
  · have notEq' : s.isEq = false := by simpa using notEq
    rcases built with ⟨present, rfl, rfl⟩ |
        ⟨absent, inner, kids, op, st₃, st₄, q₂, q₃, read, mapped, texted, rfl⟩
    · obtain ⟨inv', typed', ext', recorded⟩ :=
        inv₁.record typed₁ (.refl _ _) (fun m mem fresh => absurd mem fresh) settled ⟨_, text⟩
      refine ⟨inv', typed', ext₁.trans ext', ⟨c, settled, ?_⟩, c, settled, recorded⟩
      rw [if_neg (by simp [notEq'])]
      exact ⟨rfl, by simpa using (inv₁.nodeIndex _).mp present⟩
    · obtain ⟨inv', typed', ext', points, recorded⟩ := addValueNode_step x interned₀ notEq'
        (elements notEq') children settled ⟨_, text⟩ inv₁ typed₁ read mapped texted
      exact ⟨inv', typed', ext₁.trans ext', points, recorded⟩

/-- A value with no elements has no edges below it. -/
theorem children_nil (x : Extractor) (fuel : Nat) {st q kids st' q'}
    (inv : Inv d calls p₀ done st q) (typed : Typed d st q)
    (ran : ((([] : List (SortInfo × Value)).mapM fun (a : SortInfo × Value) =>
      nodeFor x d fuel a.1 a.2).run st).run q = .ok ((kids, st'), q')) :
    MadeEdges d calls p₀ done st q [] kids st' q' := by
  rw [List.mapM_nil] at ran
  obtain ⟨rfl, rfl, rfl⟩ := run_pure_ok ran
  exact ⟨inv, typed, .refl _ _, .nil⟩

/-- **Edges to well-stored values.** With fuel past the depth of the containers below it,
`nodeFor` on a well-stored value keeps the invariant, reaches a later state and gives an edge to
the value, whose class it records with the sort's name. The induction follows the containers
down; each level spends one unit of fuel and one stored position. -/
theorem nodeFor_points (x : Extractor) (interned₀ : p₀.Interned) {seen : List (Nat × Nat)}
    {s : SortInfo} {v : Value} (stored : WellStored p₀ d.unionFind seen s v) :
    ∀ (need fuel : Nat), p₀.itemCount ≤ need + seen.length → seen.Nodup →
      (∀ y ∈ seen, y ∈ p₀.positions) → need < fuel →
      ∀ {st q ch st' q'}, Inv d calls p₀ done st q → Typed d st q →
        ((nodeFor x d fuel s v).run st).run q = .ok ((ch, st'), q') →
        MadeEdge d calls p₀ done st q s v ch st' q' := by
  induction stored with
  | eq found =>
    intro need fuel _ _ _ more st q ch st' q' inv typed ran
    obtain ⟨f, rfl⟩ : ∃ f, fuel = f + 1 := ⟨fuel - 1, by omega⟩
    exact nodeFor_step x interned₀ (.eq found) (fun notEq => by simp [SortInfo.isEq] at notEq)
      (children_nil x f) inv typed ran
  | @container seen s v t l table found fresh elems ih =>
    intro need fuel bound nodup inside more st q ch st' q' inv typed ran
    have nodup' : ((t, v.bits.toNat) :: seen).Nodup := List.nodup_cons.mpr ⟨fresh, nodup⟩
    have inside' : ∀ y ∈ (t, v.bits.toNat) :: seen, y ∈ p₀.positions := by
      intro y mem
      rcases List.mem_cons.mp mem with rfl | mem
      · exact mem_positions_of_elementsIn table found
      · exact inside y mem
    -- with this container the positions above are still distinct, so the need is at least one
    have above := Pool.length_le_itemCount nodup' inside'
    simp only [List.length_cons] at above
    obtain ⟨n, rfl⟩ : ∃ n, need = n + 1 := ⟨need - 1, by omega⟩
    obtain ⟨f, rfl⟩ : ∃ f, fuel = f + 1 := ⟨fuel - 1, by omega⟩
    have stored : WellStored p₀ d.unionFind [] s v :=
      (WellStored.container table found fresh elems).of_seen (by simp)
    refine nodeFor_step x interned₀ stored (fun _ => .inr found) (fun inv typed mapped => ?_)
      inv typed ran
    obtain ⟨⟨inv', typed'⟩, ext', edges⟩ := run_mapM_ok
      (I := fun st q => Inv d calls p₀ done st q ∧ Typed d st q)
      (R := fun st q (a : SortInfo × Value) ch => Points d calls st q a.1 a.2 ch)
      (fun _ _ _ _ _ _ points _ ext => points.grow ext)
      (fun a mem _ _ _ _ _ kept ran => by
        obtain ⟨inv, typed⟩ := kept
        obtain ⟨inv', typed', ext', points, -⟩ :=
          ih a mem n f (by simp only [List.length_cons]; omega) nodup' inside' (by omega) inv typed
            ran
        exact ⟨⟨inv', typed'⟩, ext', points⟩)
      ⟨inv, typed⟩ mapped
    exact ⟨inv', typed', ext', edges⟩
  | base container notEq =>
    intro need fuel _ _ _ more st q ch st' q' inv typed ran
    obtain ⟨f, rfl⟩ : ∃ f, fuel = f + 1 := ⟨fuel - 1, by omega⟩
    exact nodeFor_step x interned₀ (.base container notEq) (fun _ => .inl ⟨container, rfl⟩)
      (children_nil x f) inv typed ran

/-- **A kept row's node.** Adding the node of a kept row whose values are well stored, with fuel
past every depth, keeps the invariant with the row done: its output and input edges are made
first, and the row's node goes in the class of its output. Rows of one name are one row. -/
theorem addRow_step (x : Extractor) (interned₀ : p₀.Interned) {f : Func} {i : Nat} {e : Entry}
    (kept : (f, i, e) ∈ calls)
    (distinct : ∀ f' i' e', (f', i', e') ∈ calls → rowNodeId f'.name i' = rowNodeId f.name i →
      (f', i', e') = (f, i, e))
    (output : WellStored p₀ d.unionFind [] f.output e.output.value)
    (inputs : ∀ a ∈ e.inputs.zip f.inputs, WellStored p₀ d.unionFind [] a.2 a.1)
    {fuel : Nat} (enough : p₀.itemCount < fuel) {u : Unit}
    (inv : Inv d calls p₀ done st q) (typed : Typed d st q)
    (ran : ((addRow x d fuel (f, i, e)).run st).run q = .ok ((u, st'), q')) :
    Inv d calls p₀ (done ++ [(f, i, e)]) st' q' ∧ Typed d st' q' ∧ Extends st q st' q' := by
  simp only [addRow] at ran
  obtain ⟨c, st₁, q₁, lifted, rest⟩ := run_bind_ok ran
  obtain ⟨named, same⟩ := run_lift_ok lifted
  subst st₁
  obtain ⟨settled, grows₁, interned₁, names₁⟩ :=
    classId_settles interned₀ output inv.grown inv.interned named
  have ext₁ : Extends st q st q₁ := .of_pool grows₁ names₁
  obtain ⟨ch, st₂, q₂, toOutput, rest⟩ := run_bind_ok rest
  obtain ⟨inv₂, typed₂, ext₂, -, c', settled', recorded⟩ :=
    nodeFor_points x interned₀ output p₀.itemCount fuel (by simp) List.nodup_nil (by simp) enough
      (inv.grow_pool grows₁ interned₁ names₁) (typed.grow_pool grows₁ names₁) toOutput
  have same : c' = c := settled'.unique (settled.grow ext₂.pool ext₂.names) inv₂.interned
  subst same
  obtain ⟨kids, st₃, q₃, mapped, added⟩ := run_bind_ok rest
  obtain ⟨⟨inv₃, typed₃⟩, ext₃, edges⟩ := run_mapM_ok
    (I := fun st q => Inv d calls p₀ done st q ∧ Typed d st q)
    (R := fun st q (a : Value × SortInfo) ch => Points d calls st q a.2 a.1 ch)
    (fun _ _ _ _ _ _ points _ ext => points.grow ext)
    (fun a mem _ _ _ _ _ kept ran => by
      obtain ⟨inv, typed⟩ := kept
      obtain ⟨inv', typed', ext', points, -⟩ := nodeFor_points x interned₀ (inputs a mem)
        p₀.itemCount fuel (by simp) List.nodup_nil (by simp) enough inv typed ran
      exact ⟨⟨inv', typed'⟩, ext', points⟩)
    ⟨inv₂, typed₂⟩ mapped
  obtain ⟨same, same'⟩ := run_addNode_ok added
  subst st' q'
  have settled₃ := settled'.grow ext₃.pool ext₃.names
  set n : SnapshotNode :=
    ⟨rowNodeId f.name i, f.name, c', costBits (f.decl.cost.getD 1), kids, e.output.subsumed⟩
  have ok : NodeOk d calls st₃ q₃ n := .inl ⟨f, i, e, kept, rfl, rfl, settled₃, rfl, rfl, edges⟩
  have inv' : Inv d calls p₀ (done ++ [(f, i, e)]) (st₃.withNode n) q₃ :=
    inv₃.withNode ok
    (fun f' i' e' listed named => by
      rw [distinct f' i' e' listed named.symm]
      exact List.mem_append_right _ List.mem_cons_self)
    (fun _ mem => List.mem_append_left _ mem)
    (fun f' i' e' mem => by
      rcases List.mem_append.mp mem with old | new
      · exact (extends_withNode _ q₃ _).ids (inv₃.done_added f' i' e' old)
      · obtain ⟨rfl, rfl, rfl⟩ : f' = f ∧ i' = i ∧ e' = e := by simpa using new
        exact inv₃.id_mem_withNode _)
  refine ⟨inv', typed₃.extend (extends_withNode _ _ _) fun m mem fresh => ?_,
    ext₁.trans (ext₂.trans (ext₃.trans (extends_withNode _ _ _)))⟩
  rcases SnapshotState.mem_withNode mem with old | rfl
  · exact absurd old fresh
  · exact ⟨f.output, e.output.value, settled₃, by simpa using ext₃.classes _ recorded⟩

/-- **The rows of a build.** Adding the nodes of the kept rows one after another, from a state
that has the rows before them done, keeps the invariant and ends with every kept row done. -/
theorem forM_addRow (x : Extractor) (interned₀ : p₀.Interned)
    (distinct : ∀ f i e, (f, i, e) ∈ calls → ∀ f' i' e', (f', i', e') ∈ calls →
      rowNodeId f'.name i' = rowNodeId f.name i → (f', i', e') = (f, i, e))
    (stored : ∀ f i e, (f, i, e) ∈ calls → WellStored p₀ d.unionFind [] f.output e.output.value ∧
      ∀ a ∈ e.inputs.zip f.inputs, WellStored p₀ d.unionFind [] a.2 a.1)
    {fuel : Nat} (enough : p₀.itemCount < fuel) :
    ∀ (rest : List (Func × Nat × Entry)) {done st q u st' q'}, done ++ rest = calls →
      Inv d calls p₀ done st q → Typed d st q →
      ((rest.forM (addRow x d fuel)).run st).run q = .ok ((u, st'), q') →
      Inv d calls p₀ calls st' q' ∧ Typed d st' q' ∧ Extends st q st' q'
  | [], done, st, q, u, st', q', split, inv, typed, ran => by
    rw [List.forM_eq_forM, List.forM_nil] at ran
    obtain ⟨-, rfl, rfl⟩ := run_pure_ok ran
    rw [List.append_nil] at split
    subst split
    exact ⟨inv, typed, .refl _ _⟩
  | (f, i, e) :: rest, done, st, q, u, st', q', split, inv, typed, ran => by
    rw [List.forM_eq_forM, List.forM_cons] at ran
    obtain ⟨u₁, st₁, q₁, first, more⟩ := run_bind_ok ran
    have kept : (f, i, e) ∈ calls := split ▸ List.mem_append_right _ List.mem_cons_self
    obtain ⟨output, inputs⟩ := stored f i e kept
    obtain ⟨inv₁, typed₁, ext₁⟩ := addRow_step x interned₀ kept (distinct f i e kept) output inputs
      enough inv typed first
    obtain ⟨inv', typed', ext'⟩ := forM_addRow x interned₀ distinct stored enough rest
      (by rw [← split, List.append_assoc, List.singleton_append]) inv₁ typed₁ more
    exact ⟨inv', typed', ext₁.trans ext'⟩

variable (d) in
/-- The members found for the rows `done`: each kept row with an e-class output among them is a
member of its class, and each member is such a row of the class. -/
structure MembersFor (done : List (Func × Nat × Entry)) (members : Std.HashMap String (List String))
    (q : Pool) : Prop where
  found : ∀ f i e, (f, i, e) ∈ done → f.output.isEq = true →
    ∃ c ms, Settled d q f.output e.output.value c ∧ members[c]? = some ms ∧ rowNodeId f.name i ∈ ms
  kept : ∀ c ms, members[c]? = some ms → ms ≠ [] ∧ ∀ m ∈ ms, KeptIn d done q c m

theorem MembersFor.grow {members : Std.HashMap String (List String)}
    (h : MembersFor d done members q) (grows : q.Grows q') (names : q'.names = q.names) :
    MembersFor d done members q' := by
  refine ⟨fun f i e mem eq => ?_, fun c ms found => ?_⟩
  · obtain ⟨c, ms, settled, found, listed⟩ := h.found f i e mem eq
    exact ⟨c, ms, settled.grow grows names, found, listed⟩
  · obtain ⟨ne, each⟩ := h.kept c ms found
    exact ⟨ne, fun m mem => (each m mem).grow grows names⟩

theorem KeptIn.widen {calls' : List (Func × Nat × Entry)} {m : String}
    (kept : KeptIn d calls q c m) (more : ∀ r ∈ calls, r ∈ calls') : KeptIn d calls' q c m := by
  obtain ⟨f, i, e, mem, eq, settled, rfl⟩ := kept
  exact ⟨f, i, e, more _ mem, eq, settled, rfl⟩

/-- A row with an e-class output is entered last among the members of its class. -/
theorem MembersFor.enter {members : Std.HashMap String (List String)}
    (h : MembersFor d done members q)
    {f : Func} {i : Nat} {e : Entry} (eq : f.output.isEq = true)
    (settled : Settled d q f.output e.output.value c) :
    MembersFor d (done ++ [(f, i, e)])
      (members.insert c (members.getD c [] ++ [rowNodeId f.name i])) q := by
  have widen : ∀ c' m, KeptIn d done q c' m → KeptIn d (done ++ [(f, i, e)]) q c' m :=
    fun _ _ kept => kept.widen fun _ => List.mem_append_left _
  refine ⟨fun f' i' e' mem eq' => ?_, fun c' ms found => ?_⟩
  · rcases List.mem_append.mp mem with old | new
    · obtain ⟨c'', ms, settled', found, listed⟩ := h.found f' i' e' old eq'
      by_cases same : c = c''
      · subst same
        exact ⟨c, _, settled', Std.HashMap.getElem?_insert_self,
          by simp [Std.HashMap.getD_eq_getD_getElem?, found, listed]⟩
      · refine ⟨c'', ms, settled', ?_, listed⟩
        rw [Std.HashMap.getElem?_insert, if_neg (by simpa using same)]
        exact found
    · obtain ⟨rfl, rfl, rfl⟩ : f' = f ∧ i' = i ∧ e' = e := by simpa using new
      exact ⟨c, _, settled, Std.HashMap.getElem?_insert_self, by simp⟩
  · rw [Std.HashMap.getElem?_insert] at found
    split at found
    · rename_i same
      cases beq_iff_eq.mp same
      cases found
      refine ⟨by simp, fun m mem => ?_⟩
      rcases List.mem_append.mp mem with old | new
      · cases lookup : members[c]? with
        | none => simp [Std.HashMap.getD_eq_getD_getElem?, lookup] at old
        | some ms =>
          rw [Std.HashMap.getD_eq_getD_getElem?, lookup, Option.getD_some] at old
          exact widen c m ((h.kept c ms lookup).2 m old)
      · rw [List.mem_singleton.mp new]
        exact ⟨f, i, e, List.mem_append_right _ List.mem_cons_self, eq, settled, rfl⟩
    · obtain ⟨ne, each⟩ := h.kept c' ms found
      exact ⟨ne, fun m mem => widen c' m (each m mem)⟩

/-- A row whose output is no e-class enters no class. -/
theorem MembersFor.skip {members : Std.HashMap String (List String)}
    (h : MembersFor d done members q)
    {f : Func} {i : Nat} {e : Entry} (notEq : ¬ f.output.isEq = true) :
    MembersFor d (done ++ [(f, i, e)]) members q := by
  refine ⟨fun f' i' e' mem eq' => ?_, fun c ms found => ?_⟩
  · rcases List.mem_append.mp mem with old | new
    · exact h.found f' i' e' old eq'
    · obtain ⟨rfl, rfl, rfl⟩ : f' = f ∧ i' = i ∧ e' = e := by simpa using new
      exact absurd eq' notEq
  · obtain ⟨ne, each⟩ := h.kept c ms found
    exact ⟨ne, fun m mem => (each m mem).widen fun _ => List.mem_append_left _⟩

/-- Entering one more row in the members of its class. -/
theorem addMember_step (interned₀ : p₀.Interned) {f : Func} {i : Nat} {e : Entry}
    (output : WellStored p₀ d.unionFind [] f.output e.output.value)
    {members members' : Std.HashMap String (List String)}
    (h : MembersFor d done members q) (interned : q.Interned) (grown : p₀.Grows q)
    (ran : (addMember d members (f, i, e)).run q = .ok (members', q')) :
    MembersFor d (done ++ [(f, i, e)]) members' q' ∧ q.Grows q' ∧ q'.Interned ∧
      q'.names = q.names := by
  simp only [addMember] at ran
  split at ran
  · rename_i eq
    obtain ⟨c, q₁, named, entered⟩ := PoolM.run_bind_ok ran
    obtain ⟨rfl, rfl⟩ := PoolM.run_pure_inv entered
    obtain ⟨settled, grows, interned', names⟩ :=
      classId_settles interned₀ output grown interned named
    exact ⟨(h.grow grows names).enter eq settled, grows, interned', names⟩
  · rename_i notEq
    obtain ⟨rfl, rfl⟩ := PoolM.run_pure_inv ran
    exact ⟨h.skip notEq, .refl _, interned, rfl⟩

/-- **The members of the classes.** Entering the kept rows one after another, from members
found for the rows before them, finds the members for all of them. -/
theorem foldlM_addMember (interned₀ : p₀.Interned)
    (output : ∀ f i e, (f, i, e) ∈ calls → WellStored p₀ d.unionFind [] f.output e.output.value) :
    ∀ (rest : List (Func × Nat × Entry)) {done : List (Func × Nat × Entry)}
      {members members' : Std.HashMap String (List String)} {q q' : Pool}, done ++ rest = calls →
      MembersFor d done members q → q.Interned → p₀.Grows q → q.names = p₀.names →
      (rest.foldlM (addMember d) members).run q = .ok (members', q') →
      MembersFor d calls members' q' ∧ q'.Interned ∧ p₀.Grows q' ∧ q'.names = p₀.names
  | [], done, members, members', q, q', split, h, interned, grown, names, ran => by
    obtain ⟨rfl, rfl⟩ := PoolM.run_pure_inv ran
    rw [List.append_nil] at split
    subst split
    exact ⟨h, interned, grown, names⟩
  | (f, i, e) :: rest, done, members, members', q, q', split, h, interned, grown, names, ran => by
    rw [List.foldlM_cons] at ran
    obtain ⟨members₁, q₁, first, more⟩ := PoolM.run_bind_ok ran
    have kept : (f, i, e) ∈ calls := split ▸ List.mem_append_right _ List.mem_cons_self
    obtain ⟨h₁, grows₁, interned₁, names₁⟩ :=
      addMember_step interned₀ (output f i e kept) h interned grown first
    exact foldlM_addMember interned₀ output rest
      (by rw [← split, List.append_assoc, List.singleton_append]) h₁ interned₁ (grown.trans grows₁)
      (names₁.trans names) more

/-- The state a build starts from, with the members of the classes found, meets the invariant
with no row done. -/
theorem Inv.start {members : Std.HashMap String (List String)} (h : MembersFor d calls members q)
    (interned : q.Interned) (grown : p₀.Grows q) (names : q.names = p₀.names) :
    Inv d calls p₀ [] ⟨#[], {}, #[], {}, members, .empty⟩ q ∧
      Typed d ⟨#[], {}, #[], {}, members, .empty⟩ q := by
  refine ⟨⟨interned, grown, names, by simp [SnapshotState.ids], by simp [SnapshotState.ids],
    by simp, by simp, by simp, by simp, fun c ms found => ?_, fun c absent => ?_, by simp, by simp⟩,
    by simp [Typed]⟩
  · obtain ⟨ne, each⟩ := h.kept c ms found
    exact ⟨ne, fun m mem => .inl (each m mem)⟩
  · intro f i e mem eq
    obtain ⟨c', ms, settled, found, -⟩ := h.found f i e mem eq
    refine ⟨c', settled, fun same => ?_⟩
    rw [same] at found
    simp_all

end Invariant

end Snapshot

end Saturate
