import Mathlib
import Saturate.Proofs.Container.Canonical

/-!
Canonicalising again. Canonicalising a value stores the canonical forms of the containers it
reaches, so a later run finds them stored and gives the same value. Main statements:

* `SortInfo.canonicalizeWithin_conserves`: canonicalising enters no name and keeps the tables
  interning exactly, whatever it is given.
* `SortInfo.replays_of_wellStored`: canonicalising a well-stored value gives one answer for every
  fuel past its depth; run again from an interned pool grown from the one it reached, with the
  same names, it gives that answer and stores nothing.
* `SortInfo.canonicalize_replays`: the same for `canonicalize`, whose fuel grows with the pool.

The names have to stay as they were: a set orders values of different sorts by where the names
of their sorts sort.
-/

namespace Saturate

namespace PoolM

variable {α β : Type}

/-- A pool property that every step of a `mapM` keeps is kept by the whole `mapM`. -/
theorem mapM_keeps_inv (Inv : Pool → Prop) {f : α → PoolM β} :
    ∀ {xs : List α}, (∀ a ∈ xs, ∀ p b q, Inv p → (f a).run p = .ok (b, q) → Inv q) →
      ∀ {p : Pool} {bs : List β} {q : Pool}, Inv p → (xs.mapM f).run p = .ok (bs, q) → Inv q
  | [], _, _, _, _, inv, ran => by
    obtain ⟨-, rfl⟩ := run_pure_inv ran
    exact inv
  | x :: xs, step, _, _, _, inv, ran => by
    rw [List.mapM_cons] at ran
    obtain ⟨b, p₁, first, rest⟩ := run_bind_ok ran
    obtain ⟨bs, p₂, mapped, done⟩ := run_bind_ok rest
    obtain ⟨-, rfl⟩ := run_pure_inv done
    exact mapM_keeps_inv Inv (fun a mem => step a (List.mem_cons_of_mem x mem))
      (step x List.mem_cons_self _ _ _ inv first) mapped

end PoolM

namespace SortInfo

variable {p q : Pool} {uf : UnionFind}

/-! ### Storing a container again, twice -/

/-- A store from a pool where its table exists, and again from any pool grown from the pool it
reached: the second finds the contents stored and gives the same value. -/
theorem store_again {q₁ : Pool} {t : Nat} {a : InternTable} (table : q₁.tables[t]? = some a)
    (s : SortInfo) (c : Contents) (sorts : List SortInfo) :
    (PoolM.store s t c sorts).run q₁ = .ok ((q₁.store t s.name c sorts).2, (q₁.store t s.name c sorts).1) ∧
      ∀ q₃, (q₁.store t s.name c sorts).1.Grows q₃ →
        (PoolM.store s t c sorts).run q₃ = .ok ((q₁.store t s.name c sorts).2, q₃) := by
  refine ⟨run_store .., fun q₃ grows => ?_⟩
  rw [run_store, Pool.store_settles s.name c sorts table grows]

/-- How canonicalising stores a container again, from any interned pool grown from `q₀`, where the
container has the elements `l`: once, keeping the names, and then, from any pool grown from the
one the store reached with the same names, giving the same value and storing nothing. -/
def StoresAgain (q₀ : Pool) (l : List (SortInfo × Value)) (m : List Value → PoolM Value) : Prop :=
  ∀ (ys : List Value) (q₁ : Pool), q₀.Grows q₁ → q₁.Interned → ys.length = l.length →
    ∃ v' q₂, (m ys).run q₁ = .ok (v', q₂) ∧ q₂.Interned ∧ q₂.names = q₁.names ∧
      ∀ q₃, q₂.Grows q₃ → q₃.names = q₂.names → (m ys).run q₃ = .ok (v', q₃)

/-- A store whose contents are made from the pool's order of names stores again. -/
theorem storesAgain_keyed {t : Nat} {a : InternTable} (table : q₀.tables[t]? = some a)
    {l : List (SortInfo × Value)} (s : SortInfo) (mk : (String → Nat) → List Value → Contents)
    (rebuilds : Rebuilds q₀ s l fun ys => (do PoolM.store s t (mk (← PoolM.nameKey) ys) [])) :
    StoresAgain q₀ l fun ys => (do PoolM.store s t (mk (← PoolM.nameKey) ys) []) := by
  intro ys q₁ grows interned same
  obtain ⟨b, table₁, -⟩ := grows.tables t a table
  obtain ⟨stored, again⟩ := store_again table₁ s (mk q₁.names.key ys) []
  obtain ⟨v', q₂, ran, interned₂, -⟩ := rebuilds ys q₁ grows interned same
  have unfolds : ∀ q : Pool, (do PoolM.store s t (mk (← PoolM.nameKey) ys) []).run q =
      (PoolM.store s t (mk q.names.key ys) []).run q := fun q => by
    rw [PoolM.run_bind, PoolM.run_nameKey]
  rw [unfolds, stored] at ran
  obtain ⟨rfl, rfl⟩ := Prod.mk.inj (Except.ok.inj ran)
  refine ⟨_, _, by rw [unfolds, stored], interned₂, Pool.store_names, fun q₃ grown names => ?_⟩
  rw [unfolds, names, Pool.store_names]
  exact again q₃ grown

/-- A store whose contents do not depend on the names stores again. -/
theorem storesAgain_plain {t : Nat} {a : InternTable} (table : q₀.tables[t]? = some a)
    {l : List (SortInfo × Value)} (s : SortInfo) (mk : List Value → Contents) (sorts : List SortInfo)
    (rebuilds : Rebuilds q₀ s l fun ys => PoolM.store s t (mk ys) sorts) :
    StoresAgain q₀ l fun ys => PoolM.store s t (mk ys) sorts := by
  intro ys q₁ grows interned same
  obtain ⟨b, table₁, -⟩ := grows.tables t a table
  obtain ⟨stored, again⟩ := store_again table₁ s (mk ys) sorts
  obtain ⟨v', q₂, ran, interned₂, -⟩ := rebuilds ys q₁ grows interned same
  rw [stored] at ran
  obtain ⟨rfl, rfl⟩ := Prod.mk.inj (Except.ok.inj ran)
  exact ⟨_, _, stored, interned₂, Pool.store_names, fun q₃ grown _ => again q₃ grown⟩

/-- One step of canonicalising a container, from every interned pool grown from `q`: its
elements one after another, then, if one changed, a store that stores again. -/
theorem canonicalizeWithin_unfolds (uf : UnionFind) (interned : q.Interned) {s : SortInfo}
    {v : Value} {l : List (SortInfo × Value)} (found : s.elementsIn q v = some l) :
    ∃ m, StoresAgain q l m ∧ ∀ (fuel : Nat) (q' : Pool), q.Grows q' → q'.Interned →
      (canonicalizeWithin uf (fuel + 1) s v).run q' =
        ((l.mapM fun a => canonicalizeWithin uf fuel a.1 a.2) >>= fun rs =>
          if rs.any (·.2) = true then (fun v' => (v', true)) <$> m (rs.map (·.1))
          else pure (v, false)).run q' := by
  cases s with
  | set name t e =>
    simp only [elementsIn] at found
    split at found
    · rename_i xs loaded
      cases found
      obtain ⟨a, table, -⟩ := Option.bind_eq_some_iff.mp loaded
      exact ⟨fun ys => do PoolM.store (.set name t e) t (.set (sortedSet (← PoolM.nameKey) ys)) [],
        storesAgain_keyed table _ (fun key ys => .set (sortedSet key ys)) (rebuilds_set loaded),
        fun fuel q' grows _ => run_canonicalizeWithin_set (PoolM.Pool.load?_grow loaded grows)⟩
    · cases found
  | vec name t e =>
    simp only [elementsIn] at found
    split at found
    · rename_i xs loaded
      cases found
      obtain ⟨a, table, -⟩ := Option.bind_eq_some_iff.mp loaded
      exact ⟨fun ys => PoolM.store (.vec name t e) t (.vec ys) [],
        storesAgain_plain table _ Contents.vec [] (rebuilds_vec loaded),
        fun fuel q' grows _ => run_canonicalizeWithin_vec (PoolM.Pool.load?_grow loaded grows)⟩
    · cases found
  | map name t k w =>
    simp only [elementsIn] at found
    split at found
    · rename_i xs loaded
      cases found
      obtain ⟨a, table, -⟩ := Option.bind_eq_some_iff.mp loaded
      have again := storesAgain_keyed table (.map name t k w) (fun key ys => .map
        ((canonicalizeWithin.pairUp ys).foldl (fun acc b => insertBinding key b.1 b.2 acc) []))
        (rebuilds_map loaded)
      refine ⟨_, again, fun fuel q' grows _ => ?_⟩
      exact run_canonicalizeWithin_map (PoolM.Pool.load?_grow loaded grows)
    · cases found
  | func name t ins out =>
    simp only [elementsIn] at found
    split at found
    · rename_i f args loaded
      cases found
      obtain ⟨a, table, -⟩ := Option.bind_eq_some_iff.mp loaded
      refine ⟨fun ys => PoolM.store (.func name t ins out) t (.partialApp f ys) (q.argSorts t v.bits),
        storesAgain_plain table _ (Contents.partialApp f) _ (rebuilds_func interned loaded),
        fun fuel q' grows interned' => ?_⟩
      -- the captured sorts are read where the container is, and stay there as the pool grows
      rw [run_canonicalizeWithin_func (PoolM.Pool.load?_grow loaded grows),
        Pool.argSorts_grow interned grows loaded]
    · cases found
  | _ => simp [elementsIn] at found

/-- A container whose contents do not load as its kind cannot be canonicalised. -/
theorem canonicalizeWithin_ne_ok {s : SortInfo} {v : Value} {t : Nat} (table : s.table? = some t)
    (missing : s.elementsIn q v = none) (fuel : Nat) (r : Value × Bool) (q' : Pool) :
    (canonicalizeWithin uf (fuel + 1) s v).run q ≠ .ok (r, q') := by
  intro ran
  cases s <;> simp only [table?, reduceCtorEq, Option.some.injEq] at table
  all_goals
    subst table
    simp only [canonicalizeWithin] at ran
    obtain ⟨c, q₁, loaded, rest⟩ := PoolM.run_bind_ok ran
    obtain ⟨rfl, found⟩ := PoolM.run_load loaded
    cases c <;> simp_all [elementsIn]

/-! ### Canonicalising keeps the names and the interning -/

/-- Canonicalising, whatever it is given, keeps the tables interning exactly and enters no name. -/
theorem canonicalizeWithin_conserves :
    ∀ (fuel : Nat) (s : SortInfo) (v : Value) {p : Pool} {r : Value × Bool} {q : Pool},
      p.Interned → (canonicalizeWithin uf fuel s v).run p = .ok (r, q) → q.Interned ∧ q.names = p.names
  | 0, s, v, p, r, q, interned, ran => by
    obtain ⟨-, rfl⟩ := PoolM.run_pure_inv ran
    exact ⟨interned, rfl⟩
  | fuel + 1, s, v, p, r, q, interned, ran => by
    rcases found : s.elementsIn p v with _ | l
    · rcases table : s.table? with _ | t
      · -- an id or a base value: nothing is stored
        cases notEq : s.isEq
        · rw [run_canonicalizeWithin_base table notEq] at ran
          obtain ⟨-, rfl⟩ := Prod.mk.inj (Except.ok.inj ran)
          exact ⟨interned, rfl⟩
        · cases s <;> simp only [isEq, reduceCtorEq] at notEq
          rcases root : uf.find? v.id with _ | root'
          · simp [canonicalizeWithin, findRoot, root, PoolM.run_bind] at ran
          · rw [run_canonicalizeWithin_eq root] at ran
            obtain ⟨-, rfl⟩ := Prod.mk.inj (Except.ok.inj ran)
            exact ⟨interned, rfl⟩
      · exact absurd ran (canonicalizeWithin_ne_ok table found fuel r q)
    · obtain ⟨m, again, unfolds⟩ := canonicalizeWithin_unfolds uf interned found
      rw [unfolds fuel p (.refl p) interned] at ran
      obtain ⟨rs, p₁, mapped, rest⟩ := PoolM.run_bind_ok ran
      have kept := PoolM.mapM_keeps_inv (fun q => q.Interned ∧ q.names = p.names)
        (fun a _ q₀ b q₁ inv ran₀ => by
          obtain ⟨interned₁, names₁⟩ := canonicalizeWithin_conserves fuel a.1 a.2 inv.1 ran₀
          exact ⟨interned₁, names₁.trans inv.2⟩) ⟨interned, rfl⟩ mapped
      split at rest
      · obtain ⟨v', p₂, stored, interned₂, names₂, -⟩ := again (rs.map (·.1)) p₁
          (PoolM.run_grows mapped) kept.1 (by simp [PoolM.length_of_mapM mapped])
        rw [PoolM.run_map, stored] at rest
        obtain ⟨-, rfl⟩ := Prod.mk.inj (Except.ok.inj rest)
        exact ⟨interned₂, names₂.trans kept.2⟩
      · obtain ⟨-, rfl⟩ := PoolM.run_pure_inv rest
        exact kept

/-! ### Canonicalising a well-stored value again -/

/-- From `q`, canonicalising `v` with any fuel past `need` gives `r` and reaches `q'`. -/
def Gives (uf : UnionFind) (need : Nat) (s : SortInfo) (v : Value) (q : Pool) (r : Value × Bool)
    (q' : Pool) : Prop :=
  ∀ fuel, need < fuel → (canonicalizeWithin uf fuel s v).run q = .ok (r, q')

/-- From every interned pool grown from `p`, canonicalising `v` past fuel `need` gives one answer,
reaching an interned pool with the same names; from any interned pool grown from that one, with
the same names, it gives the answer again and stores nothing. -/
def Replays (p : Pool) (uf : UnionFind) (need : Nat) (s : SortInfo) (v : Value) : Prop :=
  ∀ q, p.Grows q → q.Interned → ∃ r q', Gives uf need s v q r q' ∧ q'.Interned ∧
    q'.names = q.names ∧ ∀ q'', q'.Grows q'' → q''.Interned → q''.names = q'.names →
      Gives uf need s v q'' r q''

theorem replays_eq {need : Nat} {name : String} {v : Value} {r : Nat}
    (found : uf.find? v.id = some r) : Replays p uf need (.eq name) v := by
  intro q _ interned
  -- an id canonicalises to its root from every pool, and stores nothing
  have gives : ∀ q', Gives uf need (.eq name) v q'
      (if r.toUInt64 = v.bits then (v, false) else ({ v with bits := r.toUInt64 }, true)) q' := by
    intro q' fuel more
    obtain ⟨f, rfl⟩ : ∃ f, fuel = f + 1 := ⟨fuel - 1, by omega⟩
    exact run_canonicalizeWithin_eq found q'
  exact ⟨_, q, gives q, interned, rfl, fun q'' _ _ _ => gives q''⟩

theorem replays_base {need : Nat} {s : SortInfo} {v : Value} (container : s.table? = none)
    (notEq : s.isEq = false) : Replays p uf need s v := by
  intro q _ interned
  have gives : ∀ q', Gives uf need s v q' (v, false) q' :=
    fun q' _ _ => run_canonicalizeWithin_base container notEq q'
  exact ⟨_, q, gives q, interned, rfl, fun q'' _ _ _ => gives q''⟩

/-- Canonicalising the elements of a container one after another, each of which replays: one
answer past the fuel, and the same answer again from later pools with the same names. -/
theorem replays_mapM {n : Nat} {l : List (SortInfo × Value)}
    (each : ∀ a ∈ l, Replays p uf n a.1 a.2) (q : Pool) (grows : p.Grows q) (interned : q.Interned) :
    ∃ rs q', (∀ f, n < f → (l.mapM fun a => canonicalizeWithin uf f a.1 a.2).run q = .ok (rs, q')) ∧
      q'.Interned ∧ q'.names = q.names ∧ ∀ q'', q'.Grows q'' → q''.Interned → q''.names = q'.names →
        ∀ f, n < f → (l.mapM fun a => canonicalizeWithin uf f a.1 a.2).run q'' = .ok (rs, q'') := by
  induction l generalizing q with
  | nil => exact ⟨[], q, fun _ _ => rfl, interned, rfl, fun _ _ _ _ _ _ => rfl⟩
  | cons a l ih =>
    obtain ⟨r, q₁, gives, interned₁, names₁, again⟩ := each a List.mem_cons_self q grows interned
    have grows₁ : q.Grows q₁ := PoolM.run_grows (gives (n + 1) (by omega))
    obtain ⟨rs, q₂, rest, interned₂, names₂, again'⟩ :=
      ih (fun b mem => each b (List.mem_cons_of_mem a mem)) q₁ (grows.trans grows₁) interned₁
    have grows₂ : q₁.Grows q₂ := PoolM.run_grows (rest (n + 1) (by omega))
    refine ⟨r :: rs, q₂, fun f more => ?_, interned₂, names₂.trans names₁,
      fun q'' grown interned'' names'' f more => ?_⟩
    · simp [List.mapM_cons, PoolM.run_bind, PoolM.run_map, gives f more, rest f more, Except.map]
    · -- the first element was canonicalised before the rest, at a pool the later one grew from
      have first := again q'' (grows₂.trans grown) interned'' (names''.trans names₂) f more
      simp [List.mapM_cons, PoolM.run_bind, PoolM.run_map, first,
        again' q'' grown interned'' names'' f more, Except.map]

/-- A container replays once its elements do, one level deeper. -/
theorem replays_container (interned : p.Interned) {n : Nat} {s : SortInfo} {v : Value}
    {l : List (SortInfo × Value)} (found : s.elementsIn p v = some l)
    (each : ∀ a ∈ l, Replays p uf n a.1 a.2) : Replays p uf (n + 1) s v := by
  intro q grows interned_q
  obtain ⟨m, again, unfolds⟩ :=
    canonicalizeWithin_unfolds uf interned_q (elementsIn_grow interned grows found)
  obtain ⟨rs, q₁, mapped, interned₁, names₁, mappedAgain⟩ := replays_mapM each q grows interned_q
  have grows₁ : q.Grows q₁ := PoolM.run_grows (mapped (n + 1) (by omega))
  -- the fuel past the container's depth is one more than its elements need
  have shift : ∀ (q' : Pool) (r : Value × Bool) (q'' : Pool), q.Grows q' → q'.Interned →
      (∀ f, n < f → ((l.mapM fun a => canonicalizeWithin uf f a.1 a.2) >>= fun rs =>
        if rs.any (·.2) = true then (fun v' => (v', true)) <$> m (rs.map (·.1))
        else pure (v, false)).run q' = .ok (r, q'')) → Gives uf (n + 1) s v q' r q'' := by
    intro q' r q'' grown interned' h fuel more
    obtain ⟨f, rfl⟩ : ∃ f, fuel = f + 1 := ⟨fuel - 1, by omega⟩
    rw [unfolds f q' grown interned']
    exact h f (by omega)
  by_cases changed : rs.any (·.2) = true
  · obtain ⟨v', q₂, stored, interned₂, names₂, storedAgain⟩ := again (rs.map (·.1)) q₁ grows₁
      interned₁ (by simp [PoolM.length_of_mapM (mapped (n + 1) (by omega))])
    have grows₂ : q₁.Grows q₂ := PoolM.run_grows stored
    refine ⟨(v', true), q₂, shift q _ _ (.refl q) interned_q fun f more => ?_, interned₂,
      names₂.trans names₁, fun q'' grown interned'' names'' =>
        shift q'' _ _ (grows₁.trans (grows₂.trans grown)) interned'' fun f more => ?_⟩
    · simp [PoolM.run_bind, mapped f more, changed, PoolM.run_map, stored, Except.map]
    · -- the elements come back as they were, and the store finds the container stored
      have elems := mappedAgain q'' (grows₂.trans grown) interned'' (names''.trans names₂) f more
      simp [PoolM.run_bind, elems, changed, PoolM.run_map, storedAgain q'' grown names'', Except.map]
  · refine ⟨(v, false), q₁, shift q _ _ (.refl q) interned_q fun f more => ?_, interned₁, names₁,
      fun q'' grown interned'' names'' =>
        shift q'' _ _ (grows₁.trans grown) interned'' fun f more => ?_⟩
    · simp [PoolM.run_bind, mapped f more, changed]
    · simp [PoolM.run_bind, mappedAgain q'' grown interned'' names'' f more, changed]

/-- Canonicalising a well-stored value replays, with a need of fuel that the containers above it
and the stored contents bound. -/
theorem replays_of_wellStored (interned : p.Interned) {seen : List (Nat × Nat)} {s : SortInfo}
    {v : Value} (stored : WellStored p uf seen s v) :
    ∀ need, p.itemCount ≤ need + seen.length → seen.Nodup → (∀ x ∈ seen, x ∈ p.positions) →
      Replays p uf need s v := by
  induction stored with
  | eq found => exact fun _ _ _ _ => replays_eq found
  | @container seen s v t l table found fresh _ ih =>
    intro need bound nodup inside
    have nodup' : ((t, v.bits.toNat) :: seen).Nodup := List.nodup_cons.mpr ⟨fresh, nodup⟩
    have inside' : ∀ x ∈ (t, v.bits.toNat) :: seen, x ∈ p.positions := by
      intro x mem
      rcases List.mem_cons.mp mem with rfl | mem
      · exact mem_positions_of_elementsIn table found
      · exact inside x mem
    -- with this container the positions above are still distinct, so the need is at least one
    have above := Pool.length_le_itemCount nodup' inside'
    simp only [List.length_cons] at above
    obtain ⟨n, rfl⟩ : ∃ n, need = n + 1 := ⟨need - 1, by omega⟩
    exact replays_container interned found fun a mem =>
      ih a mem n (by simp only [List.length_cons]; omega) nodup' inside'
  | base container notEq => exact fun _ _ _ _ => replays_base container notEq

/-- Canonicalising a well-stored value of an interned pool, from any interned pool grown from it,
gives a value and reaches an interned pool with the same names; from any interned pool grown from
that one with the same names, it gives the same value again and stores nothing. -/
theorem canonicalize_replays (interned : p.Interned) {s : SortInfo} {v : Value}
    (stored : WellStored p uf [] s v) (q : Pool) (grows : p.Grows q) (interned_q : q.Interned) :
    ∃ r q', (canonicalize uf s v).run q = .ok (r, q') ∧ q'.Interned ∧ q'.names = q.names ∧
      ∀ q'', q'.Grows q'' → q''.Interned → q''.names = q'.names →
        (canonicalize uf s v).run q'' = .ok (r, q'') := by
  obtain ⟨r, q', gives, interned', names', again⟩ :=
    replays_of_wellStored interned stored p.itemCount (by simp) List.nodup_nil (by simp)
      q grows interned_q
  have more := Pool.itemCount_le grows
  have grows' : q.Grows q' := PoolM.run_grows (gives (p.itemCount + 1) (by omega))
  refine ⟨r, q', by rw [run_canonicalize]; exact gives _ (by omega), interned', names',
    fun q'' grown interned'' names'' => ?_⟩
  have more'' := Pool.itemCount_le (grows'.trans grown)
  rw [run_canonicalize]
  exact again q'' grown interned'' names'' _ (by omega)

end SortInfo

end Saturate
