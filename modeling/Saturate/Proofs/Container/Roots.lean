import Saturate.Proofs.Container.Canonical
import Saturate.Proofs.Container.Order

/-!
Canonical sets and vectors. Once every id among its elements is replaced by its root, a set or a
vector determines its canonical form. Two sets with the same rooted elements, or two vectors with
the same rooted elements in the same places, canonicalise to one value
(`canonicalize_sets_agree`, `canonicalize_vecs_agree`). The elements are those a set or vector
sort holds: ids of an eq sort, or values with no ids at any depth (`SortInfo.holdsIds`).
-/

namespace Saturate

namespace SortInfo

/-- Whether values of a sort can hold e-class ids, at any depth. -/
def holdsIds : SortInfo → Bool
  | .eq _ => true
  | .set _ _ e | .vec _ _ e => e.holdsIds
  | .map _ _ k w => k.holdsIds || w.holdsIds
  | .func _ _ _ _ => true
  | _ => false

/-- An element of sort `e` with its id replaced by its root; an element of another sort stays. -/
def rootOf (uf : UnionFind) (e : SortInfo) (x : Value) : Value :=
  if e.isEq then (uf.find? x.id).elim x fun r => { x with bits := r.toUInt64 } else x

variable {p q : Pool} {uf : UnionFind}

theorem holdsIds_of_elementsIn {s : SortInfo} {v : Value} {l : List (SortInfo × Value)}
    (free : s.holdsIds = false) (found : s.elementsIn p v = some l) :
    ∀ a ∈ l, a.1.holdsIds = false := by
  intro a mem
  cases s with
  | set _ t e | vec _ t e =>
    simp only [elementsIn] at found
    split at found
    · cases found
      obtain ⟨x, -, rfl⟩ := List.mem_map.mp mem
      exact free
    · cases found
  | map _ t k w =>
    simp only [elementsIn] at found
    split at found
    · cases found
      obtain ⟨b, -, mem⟩ := List.mem_flatMap.mp mem
      simp only [holdsIds, Bool.or_eq_false_iff] at free
      simp only [List.mem_cons, List.not_mem_nil, or_false] at mem
      rcases mem with rfl | rfl
      · exact free.1
      · exact free.2
    · cases found
  | func _ t _ _ => simp [holdsIds] at free
  | _ => simp [elementsIn] at found

/-- A value whose sort holds no ids comes back unchanged, with the pool, at any fuel. -/
theorem run_canonicalizeWithin_of_holdsIds (interned : p.Interned) {seen : List (Nat × Nat)}
    {s : SortInfo} {v : Value} (stored : WellStored p uf seen s v) (free : s.holdsIds = false) :
    ∀ fuel q, p.Grows q → q.Interned →
      (canonicalizeWithin uf fuel s v).run q = .ok ((v, false), q) := by
  induction stored with
  | eq _ => simp [holdsIds] at free
  | container _ found _ _ ih =>
    intro fuel q grows interned_q
    cases fuel with
    | zero => rfl
    | succ f =>
      obtain ⟨m, -, unfolds⟩ :=
        canonicalizeWithin_container interned_q (elementsIn_grow interned grows found) f
      rw [unfolds, PoolM.run_bind, run_mapM_of_each fun a mem =>
        ih a mem (holdsIds_of_elementsIn free found a mem) f q grows interned_q]
      simp
  | base container notEq => exact fun fuel q _ _ => run_canonicalizeWithin_base container notEq q

/-- An element of a set or vector sort comes back as its root, changed exactly when that is new,
with the pool as it was. -/
theorem run_canonicalizeWithin_element (interned : p.Interned) {e : SortInfo}
    (elem : e.isEq = true ∨ e.holdsIds = false) {seen : List (Nat × Nat)} {x : Value}
    (stored : WellStored p uf seen e x) (f : Nat) (q : Pool) (grows : p.Grows q)
    (interned_q : q.Interned) :
    (canonicalizeWithin uf (f + 1) e x).run q =
      .ok ((e.rootOf uf x, decide (e.rootOf uf x ≠ x)), q) := by
  cases e with
  | eq name =>
    obtain ⟨r, found⟩ : ∃ r, uf.find? x.id = some r := by
      cases stored with
      | eq found => exact ⟨_, found⟩
      | container table _ _ _ => simp [table?] at table
      | base _ notEq => simp [isEq] at notEq
    rw [run_canonicalizeWithin_eq found]
    by_cases root : r.toUInt64 = x.bits
    · simp [root, rootOf, isEq, found]
    · have moved : ({ x with bits := r.toUInt64 } : Value) ≠ x := fun same =>
        root (congrArg Value.bits same)
      simp [root, rootOf, isEq, found, moved]
  | _ =>
    rw [run_canonicalizeWithin_of_holdsIds interned stored (elem.resolve_left (by simp [isEq]))
      (f + 1) q grows interned_q]
    simp [rootOf, isEq]

/-- The elements of a set or vector, one after another: their roots, with the pool as it was. -/
theorem run_mapM_elements (interned : p.Interned) {e : SortInfo}
    (elem : e.isEq = true ∨ e.holdsIds = false) {seen : List (Nat × Nat)} {xs : List Value}
    (stored : ∀ x ∈ xs, WellStored p uf seen e x) (f : Nat) (q : Pool) (grows : p.Grows q)
    (interned_q : q.Interned) :
    ((xs.map (e, ·)).mapM fun a => canonicalizeWithin uf (f + 1) a.1 a.2).run q =
      .ok (xs.map fun x => (e.rootOf uf x, decide (e.rootOf uf x ≠ x)), q) := by
  have each : ∀ a ∈ xs.map (e, ·), (canonicalizeWithin uf (f + 1) a.1 a.2).run q =
      .ok ((e.rootOf uf a.2, decide (e.rootOf uf a.2 ≠ a.2)), q) := by
    intro a mem
    obtain ⟨x, inside, rfl⟩ := List.mem_map.mp mem
    exact run_canonicalizeWithin_element interned elem (stored x inside) f q grows interned_q
  rw [run_mapM_of_each each, List.map_map]
  rfl

/-- Elements that each come back as their roots without a change were their roots. -/
theorem map_rootOf_eq_self {e : SortInfo} {xs : List Value}
    (unchanged : (xs.map fun x => (e.rootOf uf x, decide (e.rootOf uf x ≠ x))).any (·.2) = false) :
    xs.map (e.rootOf uf) = xs := by
  simp only [List.any_map, List.any_eq_false, Function.comp, decide_eq_true_eq, not_not] at unchanged
  exact (List.map_congr_left unchanged).trans (List.map_id xs)

/-- The elements of a well-stored container are well stored. -/
theorem WellStored.elements {seen : List (Nat × Nat)} {s : SortInfo} {v : Value}
    {l : List (SortInfo × Value)} (stored : WellStored p uf seen s v)
    (found : s.elementsIn p v = some l) : ∃ seen', ∀ a ∈ l, WellStored p uf seen' a.1 a.2 := by
  cases stored with
  | eq _ => simp [elementsIn] at found
  | container _ found' _ elems =>
    rw [found', Option.some.injEq] at found
    subst found
    exact ⟨_, elems⟩
  | base container _ =>
    obtain ⟨t, table⟩ := table?_of_elementsIn found
    simp [container] at table

/-- The elements of a well-stored set or vector are well stored, of its element sort. -/
theorem WellStored.elements_map {seen : List (Nat × Nat)} {s e : SortInfo} {v : Value}
    {xs : List Value} (stored : WellStored p uf seen s v)
    (found : s.elementsIn p v = some (xs.map (e, ·))) :
    ∃ seen', ∀ x ∈ xs, WellStored p uf seen' e x := by
  obtain ⟨seen', elems⟩ := stored.elements found
  exact ⟨seen', fun x mem => elems (e, x) (List.mem_map_of_mem mem)⟩

section Agree

variable {name : String} {t : Nat} {e : SortInfo} {v : Value} {xs : List Value}

/-- Canonicalising a set of ids, or of values free of ids, stores the set of the roots of its
elements, ascending as the names of the pool place them. -/
theorem canonicalize_set_contents (interned : p.Interned)
    (elem : e.isEq = true ∨ e.holdsIds = false) (tagged : v.sort = name)
    (stored : WellStored p uf [] (.set name t e) v) (loaded : p.load? t v.bits = some (.set xs))
    (ascending : xs.Pairwise fun a b => Value.compare p.names.key a b = .lt)
    (q : Pool) (grows : p.Grows q) (interned_q : q.Interned) (names : q.names = p.names) :
    ∃ u b q', (canonicalize uf (.set name t e) v).run q = .ok ((u, b), q') ∧ q.Grows q' ∧
      q'.Interned ∧ q'.names = p.names ∧
      (q'.Addressable → u.sort = name ∧
        q'.load? t u.bits = some (.set (sortedSet p.names.key (xs.map (e.rootOf uf))))) := by
  have found : (SortInfo.set name t e).elementsIn p v = some (xs.map (e, ·)) := by
    simp [elementsIn, loaded]
  obtain ⟨seen, each⟩ := stored.elements_map found
  have loaded_q := PoolM.Pool.load?_grow loaded grows
  obtain ⟨a, table, -⟩ := Option.bind_eq_some_iff.mp loaded_q
  rw [run_canonicalize, run_canonicalizeWithin_set loaded_q, PoolM.run_bind,
    run_mapM_elements interned elem each _ q grows interned_q]
  dsimp only
  by_cases changed :
      (xs.map fun x => (e.rootOf uf x, decide (e.rootOf uf x ≠ x))).any (·.2) = true
  · -- an element moved to its root, so the set of roots is stored
    let rebuilt := q.store t name (.set (sortedSet p.names.key (xs.map (e.rootOf uf)))) []
    refine ⟨rebuilt.2, true, rebuilt.1, ?_, q.store_grows .., interned_q.store fun _ _ =>
      sortsFit_of_ne (fun _ _ => by simp) _, by simp [rebuilt, names], fun room =>
      ⟨by simp [rebuilt], Pool.load?_store_of_addressable interned_q table room⟩⟩
    rw [if_pos changed]
    simp [PoolM.run_map, PoolM.run_bind, PoolM.run_nameKey, run_store, rebuilt, names,
      Except.map, SortInfo.name, Function.comp_def]
  · -- every element was its root, and the set ascends already
    have unchanged := Bool.eq_false_iff.mpr changed
    refine ⟨v, false, q, by rw [if_neg changed]; rfl, .refl q, interned_q, names,
      fun _ => ⟨tagged, ?_⟩⟩
    rw [map_rootOf_eq_self unchanged, sortedSet_eq_self ascending]
    exact loaded_q

/-- Canonicalising a vector of ids, or of values free of ids, stores the vector of the roots of
its elements. -/
theorem canonicalize_vec_contents (interned : p.Interned)
    (elem : e.isEq = true ∨ e.holdsIds = false) (tagged : v.sort = name)
    (stored : WellStored p uf [] (.vec name t e) v) (loaded : p.load? t v.bits = some (.vec xs))
    (q : Pool) (grows : p.Grows q) (interned_q : q.Interned) :
    ∃ u b q', (canonicalize uf (.vec name t e) v).run q = .ok ((u, b), q') ∧ q.Grows q' ∧
      q'.Interned ∧
      (q'.Addressable → u.sort = name ∧ q'.load? t u.bits = some (.vec (xs.map (e.rootOf uf)))) := by
  have found : (SortInfo.vec name t e).elementsIn p v = some (xs.map (e, ·)) := by
    simp [elementsIn, loaded]
  obtain ⟨seen, each⟩ := stored.elements_map found
  have loaded_q := PoolM.Pool.load?_grow loaded grows
  obtain ⟨a, table, -⟩ := Option.bind_eq_some_iff.mp loaded_q
  rw [run_canonicalize, run_canonicalizeWithin_vec loaded_q, PoolM.run_bind,
    run_mapM_elements interned elem each _ q grows interned_q]
  dsimp only
  by_cases changed :
      (xs.map fun x => (e.rootOf uf x, decide (e.rootOf uf x ≠ x))).any (·.2) = true
  · let rebuilt := q.store t name (.vec (xs.map (e.rootOf uf))) []
    refine ⟨rebuilt.2, true, rebuilt.1, ?_, q.store_grows .., interned_q.store fun _ _ =>
      sortsFit_of_ne (fun _ _ => by simp) _, fun room =>
      ⟨by simp [rebuilt], Pool.load?_store_of_addressable interned_q table room⟩⟩
    rw [if_pos changed]
    simp [PoolM.run_map, run_store, rebuilt, Except.map, SortInfo.name, Function.comp_def]
  · have unchanged := Bool.eq_false_iff.mpr changed
    refine ⟨v, false, q, by rw [if_neg changed]; rfl, .refl q, interned_q,
      fun _ => ⟨tagged, ?_⟩⟩
    rw [map_rootOf_eq_self unchanged]
    exact loaded_q

/-- Two sets with the same elements up to roots canonicalise, one after the other, to one value,
where the pool reached has room. -/
theorem canonicalize_sets_agree (interned : p.Interned)
    (elem : e.isEq = true ∨ e.holdsIds = false) {w : Value} {ws : List Value}
    (tagged_v : v.sort = name) (tagged_w : w.sort = name)
    (stored_v : WellStored p uf [] (.set name t e) v)
    (stored_w : WellStored p uf [] (.set name t e) w)
    (loaded_v : p.load? t v.bits = some (.set xs)) (loaded_w : p.load? t w.bits = some (.set ws))
    (ascending_v : xs.Pairwise fun a b => Value.compare p.names.key a b = .lt)
    (ascending_w : ws.Pairwise fun a b => Value.compare p.names.key a b = .lt)
    (same : ∀ y, y ∈ xs.map (e.rootOf uf) ↔ y ∈ ws.map (e.rootOf uf)) :
    ∃ u₁ u₂ b₁ b₂ q₁ q₂, (canonicalize uf (.set name t e) v).run p = .ok ((u₁, b₁), q₁) ∧
      (canonicalize uf (.set name t e) w).run q₁ = .ok ((u₂, b₂), q₂) ∧ (q₂.Addressable → u₁ = u₂) := by
  obtain ⟨u₁, b₁, q₁, ran₁, grows₁, interned₁, names₁, contents₁⟩ :=
    canonicalize_set_contents interned elem tagged_v stored_v loaded_v ascending_v p (.refl p)
      interned rfl
  obtain ⟨u₂, b₂, q₂, ran₂, grows₂, interned₂, -, contents₂⟩ :=
    canonicalize_set_contents interned elem tagged_w stored_w loaded_w ascending_w q₁ grows₁
      interned₁ names₁
  refine ⟨u₁, u₂, b₁, b₂, q₁, q₂, ran₁, ran₂, fun room => ?_⟩
  obtain ⟨sort₁, loaded₁⟩ := contents₁ (room.of_grows grows₂)
  obtain ⟨sort₂, loaded₂⟩ := contents₂ room
  -- both are stored as one set of roots, which sits at one position
  rw [← sortedSet_eq_of_mem_iff same] at loaded₂
  exact Pool.eq_of_load?_grow grows₂ interned₂ (sort₁.trans sort₂.symm) loaded₁ loaded₂

/-- Two vectors with the same elements up to roots canonicalise, one after the other, to one
value, where the pool reached has room. -/
theorem canonicalize_vecs_agree (interned : p.Interned)
    (elem : e.isEq = true ∨ e.holdsIds = false) {w : Value} {ws : List Value}
    (tagged_v : v.sort = name) (tagged_w : w.sort = name)
    (stored_v : WellStored p uf [] (.vec name t e) v)
    (stored_w : WellStored p uf [] (.vec name t e) w)
    (loaded_v : p.load? t v.bits = some (.vec xs)) (loaded_w : p.load? t w.bits = some (.vec ws))
    (same : xs.map (e.rootOf uf) = ws.map (e.rootOf uf)) :
    ∃ u₁ u₂ b₁ b₂ q₁ q₂, (canonicalize uf (.vec name t e) v).run p = .ok ((u₁, b₁), q₁) ∧
      (canonicalize uf (.vec name t e) w).run q₁ = .ok ((u₂, b₂), q₂) ∧ (q₂.Addressable → u₁ = u₂) := by
  obtain ⟨u₁, b₁, q₁, ran₁, grows₁, interned₁, contents₁⟩ :=
    canonicalize_vec_contents interned elem tagged_v stored_v loaded_v p (.refl p) interned
  obtain ⟨u₂, b₂, q₂, ran₂, grows₂, interned₂, contents₂⟩ :=
    canonicalize_vec_contents interned elem tagged_w stored_w loaded_w q₁ grows₁ interned₁
  refine ⟨u₁, u₂, b₁, b₂, q₁, q₂, ran₁, ran₂, fun room => ?_⟩
  obtain ⟨sort₁, loaded₁⟩ := contents₁ (room.of_grows grows₂)
  obtain ⟨sort₂, loaded₂⟩ := contents₂ room
  rw [← same] at loaded₂
  exact Pool.eq_of_load?_grow grows₂ interned₂ (sort₁.trans sort₂.symm) loaded₁ loaded₂

end Agree

/-! ### The theory of container values -/

/-- Container interning is exact and canonical forms settle. In an interned pool, under a rooted
union-find: a store loads back its contents, and values of one sort are equal exactly when their
contents are; canonicalising a well-stored value reports a change exactly when it changed the
value, gives a canonical value, and a second run changes nothing; and two sets, or two vectors,
whose elements agree up to roots canonicalise to one value. Canonical forms are stated where the
pool reached has room in every table. -/
theorem containers_intern_exactly_and_canonicalize {p : Pool} {uf : UnionFind}
    (interned : p.Interned) (rooted : uf.Rooted) :
    (∀ (s : SortInfo) (t : Nat) (a : InternTable) (c : Contents) (sorts : List SortInfo),
      p.tables[t]? = some a → a.items.size < 2 ^ 64 →
        (PoolM.store s t c sorts >>= PoolM.load t).run p = .ok (c, (p.store t s.name c sorts).1)) ∧
    (∀ (t : Nat) (v w : Value) (c d : Contents), v.sort = w.sort →
      p.load? t v.bits = some c → p.load? t w.bits = some d → (v = w ↔ c = d)) ∧
    (∀ (s : SortInfo) (v : Value), WellStored p uf [] s v →
      ∃ v' changed q, (canonicalize uf s v).run p = .ok ((v', changed), q) ∧
        (q.Addressable → (changed = true ↔ v' ≠ v) ∧ (∃ n, Canonical q uf n s v') ∧
          (canonicalize uf s v').run q = .ok ((v', false), q))) ∧
    (∀ (name : String) (t : Nat) (e : SortInfo) (v w : Value) (xs ws : List Value),
      (e.isEq = true ∨ e.holdsIds = false) → v.sort = name → w.sort = name →
      WellStored p uf [] (.set name t e) v → WellStored p uf [] (.set name t e) w →
      p.load? t v.bits = some (.set xs) → p.load? t w.bits = some (.set ws) →
      xs.Pairwise (fun a b => Value.compare p.names.key a b = .lt) →
      ws.Pairwise (fun a b => Value.compare p.names.key a b = .lt) →
      (∀ y, y ∈ xs.map (e.rootOf uf) ↔ y ∈ ws.map (e.rootOf uf)) →
      ∃ u₁ u₂ b₁ b₂ q₁ q₂, (canonicalize uf (.set name t e) v).run p = .ok ((u₁, b₁), q₁) ∧
        (canonicalize uf (.set name t e) w).run q₁ = .ok ((u₂, b₂), q₂) ∧
        (q₂.Addressable → u₁ = u₂)) ∧
    (∀ (name : String) (t : Nat) (e : SortInfo) (v w : Value) (xs ws : List Value),
      (e.isEq = true ∨ e.holdsIds = false) → v.sort = name → w.sort = name →
      WellStored p uf [] (.vec name t e) v → WellStored p uf [] (.vec name t e) w →
      p.load? t v.bits = some (.vec xs) → p.load? t w.bits = some (.vec ws) →
      xs.map (e.rootOf uf) = ws.map (e.rootOf uf) →
      ∃ u₁ u₂ b₁ b₂ q₁ q₂, (canonicalize uf (.vec name t e) v).run p = .ok ((u₁, b₁), q₁) ∧
        (canonicalize uf (.vec name t e) w).run q₁ = .ok ((u₂, b₂), q₂) ∧
        (q₂.Addressable → u₁ = u₂)) :=
  ⟨fun s _ _ _ _ found room => Pool.load_store interned s found room,
    fun _ _ _ _ _ same hv hw => Pool.value_eq_iff interned same hv hw,
    fun _ _ stored => canonicalize_reports_changes_and_settles interned rooted stored,
    fun _ _ _ _ _ _ _ elem tagged_v tagged_w stored_v stored_w loaded_v loaded_w ascending_v
      ascending_w same => canonicalize_sets_agree interned elem tagged_v tagged_w stored_v stored_w
        loaded_v loaded_w ascending_v ascending_w same,
    fun _ _ _ _ _ _ _ elem tagged_v tagged_w stored_v stored_w loaded_v loaded_w same =>
      canonicalize_vecs_agree interned elem tagged_v tagged_w stored_v stored_w loaded_v loaded_w
        same⟩

end SortInfo

/-- A pool with one container table, still empty. -/
def Pool.oneEmptyTable : Pool := { tables := #[InternTable.empty] }

/-- The ids 0 and 1 in one class, whose root is 0. -/
def UnionFind.twoIdsJoined : UnionFind := ⟨#[0, 0], #[2, 1], 1, #[], #[]⟩

theorem Pool.oneEmptyTable_interned : Pool.oneEmptyTable.Interned := by
  intro t a found
  rcases t with _ | t
  · simp only [Pool.oneEmptyTable, List.getElem?_toArray, List.getElem?_cons_zero,
      Option.some.injEq] at found
    exact found ▸ InternTable.empty_consistent
  · simp [Pool.oneEmptyTable] at found

theorem UnionFind.twoIdsJoined_rooted : UnionFind.twoIdsJoined.Rooted := by
  have known : ∀ x < 2, UnionFind.twoIdsJoined.find? x = some 0 := by decide
  have answers : ∀ x r, UnionFind.twoIdsJoined.find? x = some r → r = 0 := by
    intro x r found
    by_cases small : x < 2
    · rw [known x small, Option.some.injEq] at found
      exact found.symm
    · simp [UnionFind.find?, UnionFind.size, UnionFind.twoIdsJoined, small] at found
  refine ⟨fun x r found => ?_, fun x r found => ?_⟩
  · rw [answers x r found]
    exact known 0 (by decide)
  · rw [answers x r found]
    decide

theorem containers_intern_exactly_with_two_ids :
    Pool.oneEmptyTable.Interned ∧ UnionFind.twoIdsJoined.Rooted ∧
    (∀ (s : SortInfo) (t : Nat) (a : InternTable) (c : Contents) (sorts : List SortInfo),
      Pool.oneEmptyTable.tables[t]? = some a → a.items.size < 2 ^ 64 →
        (PoolM.store s t c sorts >>= PoolM.load t).run Pool.oneEmptyTable =
          .ok (c, (Pool.oneEmptyTable.store t s.name c sorts).1)) ∧
    (∀ (t : Nat) (v w : Value) (c d : Contents), v.sort = w.sort →
      Pool.oneEmptyTable.load? t v.bits = some c → Pool.oneEmptyTable.load? t w.bits = some d →
        (v = w ↔ c = d)) ∧
    (∀ (s : SortInfo) (v : Value),
      SortInfo.WellStored Pool.oneEmptyTable UnionFind.twoIdsJoined [] s v →
      ∃ v' changed q, (SortInfo.canonicalize UnionFind.twoIdsJoined s v).run Pool.oneEmptyTable =
          .ok ((v', changed), q) ∧
        (q.Addressable → (changed = true ↔ v' ≠ v) ∧
          (∃ n, SortInfo.Canonical q UnionFind.twoIdsJoined n s v') ∧
          (SortInfo.canonicalize UnionFind.twoIdsJoined s v').run q = .ok ((v', false), q))) ∧
    (∀ (name : String) (t : Nat) (e : SortInfo) (v w : Value) (xs ws : List Value),
      (e.isEq = true ∨ e.holdsIds = false) → v.sort = name → w.sort = name →
      SortInfo.WellStored Pool.oneEmptyTable UnionFind.twoIdsJoined [] (.set name t e) v →
      SortInfo.WellStored Pool.oneEmptyTable UnionFind.twoIdsJoined [] (.set name t e) w →
      Pool.oneEmptyTable.load? t v.bits = some (.set xs) →
      Pool.oneEmptyTable.load? t w.bits = some (.set ws) →
      xs.Pairwise (fun a b => Value.compare Pool.oneEmptyTable.names.key a b = .lt) →
      ws.Pairwise (fun a b => Value.compare Pool.oneEmptyTable.names.key a b = .lt) →
      (∀ y, y ∈ xs.map (e.rootOf UnionFind.twoIdsJoined) ↔
        y ∈ ws.map (e.rootOf UnionFind.twoIdsJoined)) →
      ∃ u₁ u₂ b₁ b₂ q₁ q₂,
        (SortInfo.canonicalize UnionFind.twoIdsJoined (.set name t e) v).run Pool.oneEmptyTable =
          .ok ((u₁, b₁), q₁) ∧
        (SortInfo.canonicalize UnionFind.twoIdsJoined (.set name t e) w).run q₁ =
          .ok ((u₂, b₂), q₂) ∧
        (q₂.Addressable → u₁ = u₂)) ∧
    (∀ (name : String) (t : Nat) (e : SortInfo) (v w : Value) (xs ws : List Value),
      (e.isEq = true ∨ e.holdsIds = false) → v.sort = name → w.sort = name →
      SortInfo.WellStored Pool.oneEmptyTable UnionFind.twoIdsJoined [] (.vec name t e) v →
      SortInfo.WellStored Pool.oneEmptyTable UnionFind.twoIdsJoined [] (.vec name t e) w →
      Pool.oneEmptyTable.load? t v.bits = some (.vec xs) →
      Pool.oneEmptyTable.load? t w.bits = some (.vec ws) →
      xs.map (e.rootOf UnionFind.twoIdsJoined) = ws.map (e.rootOf UnionFind.twoIdsJoined) →
      ∃ u₁ u₂ b₁ b₂ q₁ q₂,
        (SortInfo.canonicalize UnionFind.twoIdsJoined (.vec name t e) v).run Pool.oneEmptyTable =
          .ok ((u₁, b₁), q₁) ∧
        (SortInfo.canonicalize UnionFind.twoIdsJoined (.vec name t e) w).run q₁ =
          .ok ((u₂, b₂), q₂) ∧
        (q₂.Addressable → u₁ = u₂)) :=
  ⟨Pool.oneEmptyTable_interned, UnionFind.twoIdsJoined_rooted,
    SortInfo.containers_intern_exactly_and_canonicalize Pool.oneEmptyTable_interned
      UnionFind.twoIdsJoined_rooted⟩

end Saturate
