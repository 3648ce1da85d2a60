import Mathlib
import Saturate.Proofs.Extract.Frame
import Saturate.Proofs.Snapshot.Names

/-!
The steps of building a snapshot, one lemma per step. A snapshot is built in a state monad over
the pool, so each lemma takes a successful run apart into the runs of its parts: binding, reading
and changing the state, and lifting a pool computation. On top of these, `run_nodeFor_succ` says
what one call of `nodeFor` does, and `Settled` says when naming a value's class has stopped
changing the pool: once a well-stored value's class is named, naming it again in any later pool
with the same names gives the same class and stores nothing (`classId_settles`).
-/

namespace Saturate

open SortInfo

/-- Fewer containers above a well-stored value leave it well stored. -/
theorem SortInfo.WellStored.of_seen {p : Pool} {uf : UnionFind} {seen : List (Nat × Nat)}
    {s : SortInfo} {v : Value} (stored : WellStored p uf seen s v) :
    ∀ {seen' : List (Nat × Nat)}, (∀ x ∈ seen', x ∈ seen) → WellStored p uf seen' s v := by
  induction stored with
  | eq found => exact fun _ => .eq found
  | container table found fresh _ ih =>
    intro seen' sub
    refine .container table found (fun mem => fresh (sub _ mem)) fun a mem => ih a mem ?_
    intro x listed
    rcases List.mem_cons.mp listed with rfl | listed
    · exact List.mem_cons_self
    · exact List.mem_cons_of_mem _ (sub x listed)
  | base container notEq => exact fun _ => .base container notEq

namespace Snapshot

variable {d : Database} {s : SortInfo} {v : Value} {c : String} {p q q' : Pool}

section Run

variable {α β : Type} {st st' : SnapshotState}

theorem run_bind_ok {x : SnapshotM α} {f : α → SnapshotM β} {b : β}
    (ran : ((x >>= f).run st).run q = .ok ((b, st'), q')) :
    ∃ a st₁ q₁, (x.run st).run q = .ok ((a, st₁), q₁) ∧
      ((f a).run st₁).run q₁ = .ok ((b, st'), q') := by
  rw [StateT.run_bind] at ran
  obtain ⟨⟨a, st₁⟩, q₁, first, rest⟩ := PoolM.run_bind_ok ran
  exact ⟨a, st₁, q₁, first, rest⟩

theorem run_pure_ok {a b : α} (ran : ((pure a : SnapshotM α).run st).run q = .ok ((b, st'), q')) :
    b = a ∧ st' = st ∧ q' = q := by
  simp only [StateT.run_pure, PoolM.run_pure, Except.ok.injEq, Prod.mk.injEq] at ran
  exact ⟨ran.1.1.symm, ran.1.2.symm, ran.2.symm⟩

theorem run_lift_ok {m : PoolM α} {a : α}
    (ran : ((liftM m : SnapshotM α).run st).run q = .ok ((a, st'), q')) :
    m.run q = .ok (a, q') ∧ st' = st := by
  simp only [liftM, monadLift, MonadLift.monadLift, StateT.run_lift] at ran
  obtain ⟨a', q₁, first, rest⟩ := PoolM.run_bind_ok ran
  simp only [PoolM.run_pure, Except.ok.injEq, Prod.mk.injEq] at rest
  obtain ⟨⟨rfl, rfl⟩, rfl⟩ := rest
  exact ⟨first, rfl⟩

theorem run_get_ok {a : SnapshotState}
    (ran : ((get : SnapshotM SnapshotState).run st).run q = .ok ((a, st'), q')) :
    a = st ∧ st' = st ∧ q' = q := by
  simp only [StateT.run_get, PoolM.run_pure, Except.ok.injEq, Prod.mk.injEq] at ran
  exact ⟨ran.1.1.symm, ran.1.2.symm, ran.2.symm⟩

theorem run_modify_ok {f : SnapshotState → SnapshotState} {u : PUnit}
    (ran : ((modify f : SnapshotM PUnit).run st).run q = .ok ((u, st'), q')) :
    st' = f st ∧ q' = q := by
  simp only [StateT.run_modify, PoolM.run_pure, Except.ok.injEq, Prod.mk.injEq] at ran
  exact ⟨ran.1.2.symm, ran.2.symm⟩

theorem run_modifyGet_ok {f : SnapshotState → α × SnapshotState} {a : α}
    (ran : ((modifyGet f : SnapshotM α).run st).run q = .ok ((a, st'), q')) :
    a = (f st).1 ∧ st' = (f st).2 ∧ q' = q := by
  simp only [StateT.run_modifyGet, PoolM.run_pure, Except.ok.injEq, Prod.mk.injEq] at ran
  exact ⟨ran.1.1.symm, ran.1.2.symm, ran.2.symm⟩

theorem run_addNode_ok {n : SnapshotNode} {u : Unit}
    (ran : ((addNode n).run st).run q = .ok ((u, st'), q')) : st' = st.withNode n ∧ q' = q :=
  run_modify_ok ran

theorem run_addClass_ok {c t : String} {u : Unit}
    (ran : ((addClass c t).run st).run q = .ok ((u, st'), q')) : st' = st.withClass c t ∧ q' = q :=
  run_modify_ok ran

/-- The text of a value's node changes only the term dag, and the pool as extraction does. -/
theorem run_primitiveOp_ok {x : Extractor} {op : String}
    (ran : ((primitiveOp x d s v).run st).run q = .ok ((op, st'), q')) :
    (∃ dag, st' = { st with dag := dag }) ∧ q.Grows q' ∧
      (q.Interned → q'.Interned ∧ q'.names = q.names) := by
  unfold primitiveOp at ran
  split at ran
  · obtain ⟨-, same, rfl⟩ := run_pure_ok ran
    exact ⟨⟨st.dag, same⟩, .refl _, fun interned => ⟨interned, rfl⟩⟩
  · obtain ⟨dag, st₁, q₁, taken, rest⟩ := run_bind_ok ran
    obtain ⟨rfl, rfl, rfl⟩ := run_modifyGet_ok taken
    obtain ⟨⟨dag', t⟩, st₂, q₂, lifted, rest⟩ := run_bind_ok rest
    obtain ⟨built, rfl⟩ := run_lift_ok lifted
    dsimp only at rest
    obtain ⟨u, st₃, q₃, put, rest⟩ := run_bind_ok rest
    obtain ⟨rfl, rfl⟩ := run_modify_ok put
    obtain ⟨same, rfl⟩ : st' = { st with dag := dag' } ∧ q' = q₃ := by
      split at rest <;> exact (run_pure_ok rest).2
    exact ⟨⟨dag', same⟩, PoolM.run_grows built,
      fun interned => (Extractor.term?_conserves x d s v _).run interned built⟩

end Run

/-- Reading the elements of a value stores nothing and gives its elements: those of a container,
when its contents are of its kind, and none for a sort that is no container. -/
theorem run_innerValues_ok {l : List (SortInfo × Value)}
    (ran : (s.innerValues v).run q = .ok (l, q')) :
    q' = q ∧ (∀ l₀, s.elementsIn q v = some l₀ → l = l₀) ∧ (s.table? = none → l = []) := by
  cases s with
  | set name t e | vec name t e | map name t k w | func name t ins out =>
    simp only [SortInfo.innerValues] at ran
    obtain ⟨c, q₁, loaded, rest⟩ := PoolM.run_bind_ok ran
    obtain ⟨rfl, found⟩ := PoolM.run_load loaded
    split at rest
    all_goals first
      | (simp at rest; done)
      | (obtain ⟨rfl, rfl⟩ := PoolM.run_pure_inv rest
         simp_all [elementsIn, table?])
  | _ =>
    obtain ⟨rfl, rfl⟩ := PoolM.run_pure_inv ran
    simp [elementsIn]

/-- Naming a class canonicalises the value and writes the sort and the bits. -/
theorem run_classId_inv (ran : (classId d s v).run q = .ok (c, q')) :
    ∃ r, (s.canonicalize d.unionFind v).run q = .ok (r, q') ∧
      c = s.name ++ "-" ++ toString r.1.bits := by
  unfold classId at ran
  obtain ⟨r, q₁, canon, named⟩ := PoolM.run_bind_ok ran
  obtain ⟨rfl, rfl⟩ := PoolM.run_pure_inv named
  exact ⟨r, canon, rfl⟩

theorem run_classId {r : Value × Bool}
    (canon : (s.canonicalize d.unionFind v).run q = .ok (r, q')) :
    (classId d s v).run q = .ok (s.name ++ "-" ++ toString r.1.bits, q') := by
  simp [classId, PoolM.run_map, canon, Except.map]

variable (d) in
/-- From pool `q` on, while the names stay, the class of the value `v` of sort `s` is `c`:
naming it gives `c` and stores nothing. -/
def Settled (q : Pool) (s : SortInfo) (v : Value) (c : String) : Prop :=
  ∀ q', q.Grows q' → q'.Interned → q'.names = q.names → (classId d s v).run q' = .ok (c, q')

theorem Settled.grow (settled : Settled d q s v c) (grows : q.Grows q')
    (names : q'.names = q.names) :
    Settled d q' s v c := fun q'' grown interned names' =>
  settled q'' (grows.trans grown) interned (names'.trans names)

theorem Settled.run (settled : Settled d q s v c) (interned : q.Interned) :
    (classId d s v).run q = .ok (c, q) :=
  settled q (.refl q) interned rfl

theorem Settled.unique {c' : String} (settled : Settled d q s v c) (settled' : Settled d q s v c')
    (interned : q.Interned) : c = c' := by
  have same := (settled.run interned).symm.trans (settled'.run interned)
  simp only [Except.ok.injEq, Prod.mk.injEq] at same
  exact same.1

/-- Naming the class of a well-stored value, from an interned pool grown from the one it is
stored in, settles it: the pool reached is interned, has the same names, and gives the class
again without storing anything. -/
theorem classId_settles (interned₀ : p.Interned) (stored : WellStored p d.unionFind [] s v)
    (grows : p.Grows q) (interned : q.Interned) (ran : (classId d s v).run q = .ok (c, q')) :
    Settled d q' s v c ∧ q.Grows q' ∧ q'.Interned ∧ q'.names = q.names := by
  obtain ⟨r, canon, rfl⟩ := run_classId_inv ran
  obtain ⟨r', q₁, canon', interned₁, names₁, again⟩ :=
    canonicalize_replays interned₀ stored q grows interned
  rw [canon] at canon'
  simp only [Except.ok.injEq, Prod.mk.injEq] at canon'
  obtain ⟨rfl, rfl⟩ := canon'
  exact ⟨fun q'' grown interned'' names'' => run_classId (again q'' grown interned'' names''),
    PoolM.run_grows canon, interned₁, names₁⟩

end Snapshot

namespace SnapshotState

/-- The names of the nodes so far. -/
def ids (st : SnapshotState) : List String := st.nodes.toList.map (·.id)

theorem mem_ids {st : SnapshotState} {id : String} : id ∈ st.ids ↔ ∃ n ∈ st.nodes, n.id = id := by
  simp [ids]

variable {st : SnapshotState} {n m : SnapshotNode} {c t : String}

theorem withNode_of_contains (present : st.nodeIndex.contains n.id = true) :
    st.withNode n = st := by
  simp [withNode, present]

theorem withNode_of_absent (absent : st.nodeIndex.contains n.id = false) :
    st.withNode n =
      { st with nodes := st.nodes.push n, nodeIndex := st.nodeIndex.insert n.id () } := by
  simp [withNode, absent]

@[simp] theorem classes_withNode : (st.withNode n).classes = st.classes := by
  unfold withNode; split <;> rfl

@[simp] theorem members_withNode : (st.withNode n).members = st.members := by
  unfold withNode; split <;> rfl

@[simp] theorem classIndex_withNode : (st.withNode n).classIndex = st.classIndex := by
  unfold withNode; split <;> rfl

theorem mem_withNode (mem : m ∈ (st.withNode n).nodes) : m ∈ st.nodes ∨ m = n := by
  unfold withNode at mem
  split at mem
  · exact .inl mem
  · simpa using mem

theorem nodes_sub_withNode (mem : m ∈ st.nodes) : m ∈ (st.withNode n).nodes := by
  unfold withNode
  split
  · exact mem
  · exact Array.mem_push_of_mem _ mem

@[simp] theorem nodes_withClass : (st.withClass c t).nodes = st.nodes := by
  unfold withClass; split <;> rfl

@[simp] theorem members_withClass : (st.withClass c t).members = st.members := by
  unfold withClass; split <;> rfl

@[simp] theorem ids_withClass : (st.withClass c t).ids = st.ids := by
  simp [ids]

theorem withClass_of_contains (present : st.classIndex.contains c = true) :
    st.withClass c t = st := by
  simp [withClass, present]

theorem withClass_of_absent (absent : st.classIndex.contains c = false) :
    st.withClass c t =
      { st with classes := st.classes.push (c, t), classIndex := st.classIndex.insert c () } := by
  simp [withClass, absent]

@[simp] theorem nodeIndex_withClass : (st.withClass c t).nodeIndex = st.nodeIndex := by
  unfold withClass; split <;> rfl

theorem classes_sub_withClass {x : String × String} (mem : x ∈ st.classes) :
    x ∈ (st.withClass c t).classes := by
  unfold withClass
  split
  · exact mem
  · exact Array.mem_push_of_mem _ mem

end SnapshotState

namespace Snapshot

/-- What one call of `nodeFor` does: it names the value's class, picks the node the edge takes,
and records the class with its sort. For an e-class the node is the next member of the class, or
a new placeholder when the class has none; for any other value it is the value's node, built
after the nodes of its elements when it is not there yet. -/
theorem run_nodeFor_succ {x : Extractor} {fuel : Nat} {ch : String} {st st' : SnapshotState}
    (ran : ((nodeFor x d (fuel + 1) s v).run st).run q = .ok ((ch, st'), q')) :
    ∃ c q₁ st₂, (classId d s v).run q = .ok (c, q₁) ∧ st' = st₂.withClass c s.name ∧
      ((s.isEq = true ∧ q' = q₁ ∧
        ((∃ ms, st.members[c]? = some ms ∧
            st₂ = { st with members := st.members.insert c (rotate ms) } ∧
            ch = (rotate ms).head?.getD ("dummy-" ++ c)) ∨
         (st.members[c]? = none ∧ ch = "dummy-" ++ c ∧
            st₂ = { st.withNode ⟨ch, "[...]", c, Binary64.infinityBits false, [], false⟩ with
              members := st.members.insert c [ch] }))) ∨
      (s.isEq = false ∧ ch = "primitive-" ++ c ∧
        ((st.nodeIndex.contains ch = true ∧ st₂ = st ∧ q' = q₁) ∨
         (st.nodeIndex.contains ch = false ∧ ∃ inner children op st₃ st₄ q₂ q₃,
            (s.innerValues v).run q₁ = .ok (inner, q₂) ∧
            ((inner.mapM fun a => nodeFor x d fuel a.1 a.2).run st).run q₂ =
              .ok ((children, st₃), q₃) ∧
            ((primitiveOp x d s v).run st₃).run q₃ = .ok ((op, st₄), q') ∧
            st₂ = st₄.withNode ⟨ch, op, c, costBits 1, children, false⟩)))) := by
  simp only [nodeFor] at ran
  obtain ⟨c, st₁, q₁, lifted, chosen⟩ := run_bind_ok ran
  obtain ⟨named, rfl⟩ := run_lift_ok lifted
  split at chosen
  · obtain ⟨st₀, st₂, q₂, got, picked⟩ := run_bind_ok chosen
    obtain ⟨rfl, rfl, rfl⟩ := run_get_ok got
    split at picked
    · rename_i ms found
      obtain ⟨ms', st₃, q₃, given, turn⟩ := run_bind_ok picked
      obtain ⟨rfl, rfl, rfl⟩ := run_pure_ok given
      obtain ⟨u, st₄, q₄, turned, last⟩ := run_bind_ok turn
      obtain ⟨rfl, rfl⟩ := run_modify_ok turned
      obtain ⟨id, st₅, q₅, given, record⟩ := run_bind_ok last
      obtain ⟨rfl, rfl, rfl⟩ := run_pure_ok given
      obtain ⟨u, st₆, q₆, recorded, last⟩ := run_bind_ok record
      obtain ⟨rfl, rfl⟩ := run_addClass_ok recorded
      obtain ⟨rfl, rfl, rfl⟩ := run_pure_ok last
      rw [Std.HashMap.get?_eq_getElem?] at found
      exact ⟨c, _, _, named, rfl, .inl ⟨‹_›, rfl, .inl ⟨ms', found, rfl, rfl⟩⟩⟩
    · rename_i absent
      obtain ⟨u, st₃, q₃, added, given⟩ := run_bind_ok picked
      obtain ⟨rfl, rfl⟩ := run_addNode_ok added
      obtain ⟨ms', st₄, q₄, given, turn⟩ := run_bind_ok given
      obtain ⟨rfl, rfl, rfl⟩ := run_pure_ok given
      obtain ⟨u, st₅, q₅, turned, last⟩ := run_bind_ok turn
      obtain ⟨rfl, rfl⟩ := run_modify_ok turned
      obtain ⟨id, st₆, q₆, given, record⟩ := run_bind_ok last
      obtain ⟨rfl, rfl, rfl⟩ := run_pure_ok given
      obtain ⟨u, st₇, q₇, recorded, last⟩ := run_bind_ok record
      obtain ⟨rfl, rfl⟩ := run_addClass_ok recorded
      obtain ⟨rfl, rfl, rfl⟩ := run_pure_ok last
      rw [Std.HashMap.get?_eq_getElem?] at absent
      exact ⟨c, _, _, named, rfl, .inl ⟨‹_›, rfl, .inr ⟨absent, rfl, by simp [rotate]⟩⟩⟩
  · rename_i notEq
    obtain ⟨st₀, st₂, q₂, got, built⟩ := run_bind_ok chosen
    obtain ⟨rfl, rfl, rfl⟩ := run_get_ok got
    split at built
    · rename_i absent
      obtain ⟨inner, st₃, q₃, lifted, elements⟩ := run_bind_ok built
      obtain ⟨read, rfl⟩ := run_lift_ok lifted
      obtain ⟨children, st₄, q₄, mapped, texted⟩ := run_bind_ok elements
      obtain ⟨op, st₅, q₅, named', adding⟩ := run_bind_ok texted
      obtain ⟨u, st₆, q₆, added, giving⟩ := run_bind_ok adding
      obtain ⟨rfl, rfl⟩ := run_addNode_ok added
      obtain ⟨id, st₇, q₇, given, record⟩ := run_bind_ok giving
      obtain ⟨rfl, rfl, rfl⟩ := run_pure_ok given
      obtain ⟨u, st₈, q₈, recorded, last⟩ := run_bind_ok record
      obtain ⟨rfl, rfl⟩ := run_addClass_ok recorded
      obtain ⟨rfl, rfl, rfl⟩ := run_pure_ok last
      exact ⟨c, _, _, named, rfl, .inr ⟨by simpa using notEq, rfl, .inr ⟨by simpa using absent,
        inner, children, op, _, _, _, _, read, mapped, named', rfl⟩⟩⟩
    · rename_i present
      obtain ⟨id, st₃, q₃, given, record⟩ := run_bind_ok built
      obtain ⟨rfl, rfl, rfl⟩ := run_pure_ok given
      obtain ⟨u, st₄, q₄, recorded, last⟩ := run_bind_ok record
      obtain ⟨rfl, rfl⟩ := run_addClass_ok recorded
      obtain ⟨rfl, rfl, rfl⟩ := run_pure_ok last
      exact ⟨c, _, _, named, rfl, .inr ⟨by simpa using notEq, rfl, .inl ⟨by simpa using present,
        rfl, rfl⟩⟩⟩

end Snapshot

end Saturate
