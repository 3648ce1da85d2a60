import Mathlib.Algebra.BigOperators.Group.Finset.Basic
import Mathlib.Data.Finset.Card
import Saturate.Container
import Saturate.Proofs.Query.Settle

/-!
Exact interning. A container table keeps each content once: its index names every content at
its position and nothing else. Storing then loads back what was stored, and two values of one
container sort are equal exactly when their contents are.

* `InternTable.Consistent`, `Pool.Interned`: the tables intern exactly, and a partial
  application keeps the argument sorts that its function and number of arguments fix. Every
  store that respects those sorts keeps this (`Pool.Interned.store`).
* `Pool.load?_store`: a store loads back its contents, while the table has fewer contents than
  64 bits can count.
* `Pool.value_eq_iff`: values of one sort are equal exactly when their contents are.
* `Pool.positions`: where contents are stored. Distinct positions are no more than
  `Pool.itemCount`, which is how containers are known to nest no deeper than that.
-/

namespace Saturate

namespace InternTable

/-- A table interns exactly: its index names each content at its position and nothing else.
Every content keeps its captured sorts, one for each argument of a partial application, and
partial applications of one function with as many arguments keep the same sorts, since the
function fixes them. -/
structure Consistent (t : InternTable) : Prop where
  index_of_item : ∀ (i : Nat) (c : Contents), t.items[i]? = some c → t.index[c]? = some i
  item_of_index : ∀ (c : Contents) (i : Nat), t.index[c]? = some i → t.items[i]? = some c
  argSorts_size : t.argSorts.size = t.items.size
  argSorts_length : ∀ (i : Nat) (name : String) (xs : List Value),
    t.items[i]? = some (.partialApp name xs) → ∃ sorts, t.argSorts[i]? = some sorts ∧ sorts.length = xs.length
  argSorts_agree : ∀ (i j : Nat) (name : String) (xs ys : List Value),
    t.items[i]? = some (.partialApp name xs) → t.items[j]? = some (.partialApp name ys) →
      xs.length = ys.length → t.argSorts[i]? = t.argSorts[j]?

/-- Storing `c` with `sorts` gives a partial application one sort for each argument, the sorts
the table keeps for the partial applications of the same function with as many arguments. -/
def SortsFit (t : InternTable) (c : Contents) (sorts : List SortInfo) : Prop :=
  ∀ (name : String) (xs : List Value), c = .partialApp name xs →
    sorts.length = xs.length ∧ ∀ (j : Nat) (ys : List Value), t.items[j]? = some (.partialApp name ys) →
      ys.length = xs.length → t.argSorts[j]? = some sorts

theorem empty_consistent : empty.Consistent where
  index_of_item i c h := by simp [empty] at h
  item_of_index c i h := by simp [empty] at h
  argSorts_size := rfl
  argSorts_length i name xs h := by simp [empty] at h
  argSorts_agree i j name xs ys h := by simp [empty] at h

variable {t : InternTable} {c : Contents} {sorts : List SortInfo}

/-- Contents sit at one position only. -/
theorem Consistent.index_unique (h : t.Consistent) {i j : Nat}
    (hi : t.items[i]? = some c) (hj : t.items[j]? = some c) : i = j := by
  have at_i := h.index_of_item i c hi
  rw [h.index_of_item j c hj] at at_i
  exact Option.some.inj at_i.symm

theorem Consistent.store (h : t.Consistent) (fits : t.SortsFit c sorts) :
    (t.store c sorts).1.Consistent := by
  unfold InternTable.store
  split
  · exact h
  · rename_i absent
    simp only [Std.HashMap.get?_eq_getElem?] at absent
    -- the new content goes to the end, where no position was before
    have old : ∀ (i : Nat) (d : Contents), t.items[i]? = some d → i < t.items.size ∧ d ≠ c :=
      fun i d hd => ⟨(Array.getElem?_eq_some_iff.mp hd).1, by
        rintro rfl
        simp [h.index_of_item i d hd] at absent⟩
    refine ⟨fun i d hd => ?_, fun d i hd => ?_, by simp [h.argSorts_size], fun i name xs hi => ?_, ?_⟩
    · rw [Array.getElem?_push] at hd
      split at hd
      · rename_i last
        cases hd
        simp [last]
      · have ne : (c == d) = false := by simpa using (old i d hd).2.symm
        simp [Std.HashMap.getElem?_insert, ne, h.index_of_item i d hd]
    · rw [Std.HashMap.getElem?_insert] at hd
      split at hd
      · rename_i same
        cases eq_of_beq same
        cases hd
        simp
      · have before := h.item_of_index d i hd
        rw [Array.getElem?_push, if_neg (by have := (old i d before).1; omega), before]
    · have sizes := h.argSorts_size
      rw [Array.getElem?_push] at hi
      rw [Array.getElem?_push]
      split at hi
      · cases hi
        exact ⟨sorts, by rw [if_pos (by omega)], (fits name xs rfl).1⟩
      · rw [if_neg (by omega)]
        exact h.argSorts_length i name xs hi
    · intro i j name xs ys hi hj same
      have sizes := h.argSorts_size
      rw [Array.getElem?_push] at hi hj
      rw [Array.getElem?_push, Array.getElem?_push]
      split at hi <;> split at hj
      · simp_all
      · rename_i last _
        cases hi
        rw [if_pos (by omega), if_neg (by omega)]
        exact ((fits name xs rfl).2 j ys hj same.symm).symm
      · rename_i _ last
        cases hj
        rw [if_neg (by omega), if_pos (by omega)]
        exact (fits name ys rfl).2 i xs hi same
      · rw [if_neg (by omega), if_neg (by omega)]
        exact h.argSorts_agree i j name xs ys hi hj same

/-- The position a store gives holds what was stored. -/
theorem Consistent.items_store (h : t.Consistent) :
    (t.store c sorts).1.items[(t.store c sorts).2]? = some c := by
  unfold InternTable.store
  split
  · rename_i i found
    simp only [Std.HashMap.get?_eq_getElem?] at found
    exact h.item_of_index c i found
  · simp

/-- A growing table only gains contents. -/
theorem Grows.size_le {a b : InternTable} (h : a.Grows b) : a.items.size ≤ b.items.size := by
  rcases Nat.eq_zero_or_pos a.items.size with empty | nonempty
  · omega
  · have last := h.items (a.items.size - 1) _ (Array.getElem?_eq_getElem (by omega))
    have := (Array.getElem?_eq_some_iff.mp last).1
    omega

end InternTable

namespace Pool

/-- Every table of the pool interns exactly (`InternTable.Consistent`). -/
def Interned (p : Pool) : Prop :=
  ∀ (t : Nat) (a : InternTable), p.tables[t]? = some a → a.Consistent

/-- Every table of the pool has fewer contents than 64 bits count, so a value's bits name its
position exactly. -/
def Addressable (p : Pool) : Prop :=
  ∀ (t : Nat) (a : InternTable), p.tables[t]? = some a → a.items.size < 2 ^ 64

variable {p q : Pool} {table : Nat} {sort : String} {c : Contents} {sorts : List SortInfo}

theorem Addressable.of_grows (h : q.Addressable) (grows : p.Grows q) : p.Addressable := by
  intro t a ha
  obtain ⟨b, hb, ab⟩ := grows.tables t a ha
  exact lt_of_le_of_lt ab.size_le (h t b hb)

@[simp] theorem store_names : (p.store table sort c sorts).1.names = p.names := by
  unfold Pool.store
  dsimp only
  split <;> rfl

theorem Interned.store (h : p.Interned)
    (fits : ∀ a, p.tables[table]? = some a → a.SortsFit c sorts) :
    (p.store table sort c sorts).1.Interned := by
  unfold Pool.store
  dsimp only
  split
  · exact h
  · intro t a ha
    simp only [Array.getElem?_modify] at ha
    split at ha
    · rename_i same
      subst same
      obtain ⟨b, hb, rfl⟩ := Option.map_eq_some_iff.mp ha
      exact (h _ b hb).store (fits b hb)
    · exact h t a ha

/-- A store loads back its contents while the table has room for them. -/
theorem load?_store (h : p.Interned) {a : InternTable} (found : p.tables[table]? = some a)
    (room : a.items.size < 2 ^ 64) :
    (p.store table sort c sorts).1.load? table (p.store table sort c sorts).2.bits = some c := by
  have exact := h table a found
  unfold Pool.store
  simp only [found, Option.getD_some]
  split
  · rename_i i indexed
    simp only [Std.HashMap.get?_eq_getElem?] at indexed
    have at_i := exact.item_of_index c i indexed
    have bound : i < 2 ^ 64 := lt_trans (Array.getElem?_eq_some_iff.mp at_i).1 room
    simp only [load?, found, Option.bind_some, InternTable.load?, UInt64.toNat_ofNat_of_lt' bound]
    exact at_i
  · rename_i absent
    simp only [Std.HashMap.get?_eq_getElem?] at absent
    simp [load?, Array.getElem?_modify, found, InternTable.load?, InternTable.store, absent,
      UInt64.toNat_ofNat_of_lt' room]

/-- A store loads back its contents once the pool it reaches has room. -/
theorem load?_store_of_addressable (h : p.Interned) {a : InternTable}
    (found : p.tables[table]? = some a) (room : (p.store table sort c sorts).1.Addressable) :
    (p.store table sort c sorts).1.load? table (p.store table sort c sorts).2.bits = some c :=
  load?_store h found (room.of_grows (p.store_grows table sort c sorts) table a found)

/-- A partial application stored with fitting sorts keeps them. -/
theorem argSorts_store (h : p.Interned) {a : InternTable} (found : p.tables[table]? = some a)
    (room : a.items.size < 2 ^ 64) {name : String} {xs : List Value}
    (fits : a.SortsFit (.partialApp name xs) sorts) :
    (p.store table sort (.partialApp name xs) sorts).1.argSorts table
      (p.store table sort (.partialApp name xs) sorts).2.bits = sorts := by
  have exact := h table a found
  unfold Pool.store
  simp only [found, Option.getD_some]
  split
  · rename_i i indexed
    simp only [Std.HashMap.get?_eq_getElem?] at indexed
    have at_i := exact.item_of_index _ i indexed
    have bound : i < 2 ^ 64 := lt_trans (Array.getElem?_eq_some_iff.mp at_i).1 room
    have kept := (fits name xs rfl).2 i xs at_i rfl
    simp [argSorts, found, UInt64.toNat_ofNat_of_lt' bound, kept]
  · rename_i absent
    simp only [Std.HashMap.get?_eq_getElem?] at absent
    have sizes := exact.argSorts_size
    simp only [argSorts, Array.getElem?_modify, found, if_pos,
      UInt64.toNat_ofNat_of_lt' room]
    simp [InternTable.store, absent, ← sizes]

/-- Storing then loading gives back the contents, while the table has room for them. -/
theorem load_store (h : p.Interned) (s : SortInfo) {a : InternTable}
    (found : p.tables[table]? = some a) (room : a.items.size < 2 ^ 64) :
    (PoolM.store s table c sorts >>= PoolM.load table).run p =
      .ok (c, (p.store table s.name c sorts).1) := by
  have loaded : (p.store table s.name c sorts).1.load? table (p.store table s.name c sorts).2.bits =
      some c := load?_store h found room
  simp [PoolM.run_bind, PoolM.store, PoolM.load, loaded]

/-- Two values whose contents sit in one table have one position exactly when their contents
are the same. -/
theorem bits_eq_iff (h : p.Interned) {v w : Value} {d : Contents}
    (hv : p.load? table v.bits = some c) (hw : p.load? table w.bits = some d) :
    v.bits = w.bits ↔ c = d := by
  constructor
  · intro same
    rw [same, hw] at hv
    exact (Option.some.inj hv).symm
  · rintro rfl
    obtain ⟨a, ha, hvc⟩ := Option.bind_eq_some_iff.mp hv
    obtain ⟨b, hb, hwc⟩ := Option.bind_eq_some_iff.mp hw
    rw [ha, Option.some.injEq] at hb
    subst hb
    exact UInt64.toNat_inj.mp ((h table a ha).index_unique hvc hwc)

/-- Values of one sort whose contents sit in one table are equal exactly when their contents
are. -/
theorem value_eq_iff (h : p.Interned) {v w : Value} {d : Contents} (sorts : v.sort = w.sort)
    (hv : p.load? table v.bits = some c) (hw : p.load? table w.bits = some d) :
    v = w ↔ c = d := by
  rw [← bits_eq_iff h hv hw]
  constructor
  · rintro rfl
    rfl
  · intro same
    cases v
    cases w
    simp_all

/-- A value stored before another of its sort, with the same contents in one table, is that
value. -/
theorem eq_of_load?_grow (grows : p.Grows q) (h : q.Interned) {v w : Value}
    (sorts : v.sort = w.sort) (hv : p.load? table v.bits = some c)
    (hw : q.load? table w.bits = some c) : v = w :=
  (value_eq_iff h sorts (PoolM.Pool.load?_grow hv grows) hw).mpr rfl

/-- A pool keeps the sorts a partial application captured as it grows. -/
theorem argSorts_grow (interned : p.Interned) (grows : p.Grows q) {bits : UInt64}
    (found : p.load? table bits = some c) : q.argSorts table bits = p.argSorts table bits := by
  obtain ⟨a, ha, hc⟩ := Option.bind_eq_some_iff.mp found
  have inside := (Array.getElem?_eq_some_iff.mp hc).1
  have kept : bits.toNat < a.argSorts.size := (interned table a ha).argSorts_size ▸ inside
  obtain ⟨b, hb, ab⟩ := grows.tables table a ha
  have held := ab.argSorts _ _ (Array.getElem?_eq_getElem kept)
  simp [Pool.argSorts, ha, hb, held, Array.getElem?_eq_getElem kept]

/-! ### Positions -/

/-- The positions of the stored contents: a table and an index into it. -/
def positions (p : Pool) : Finset (Nat × Nat) :=
  (Finset.range p.tables.size).biUnion fun t =>
    (Finset.range ((p.tables[t]?.map fun a => a.items.size).getD 0)).map
      (Function.Embedding.sectR t Nat)

theorem mem_positions {x : Nat × Nat} :
    x ∈ p.positions ↔ ∃ a, p.tables[x.1]? = some a ∧ x.2 < a.items.size := by
  obtain ⟨t, i⟩ := x
  simp only [positions, Finset.mem_biUnion, Finset.mem_range, Finset.mem_map,
    Function.Embedding.sectR_apply, Prod.mk.injEq]
  constructor
  · rintro ⟨t', bound, i', inside, rfl, rfl⟩
    exact ⟨p.tables[t'], by simp [bound], by simpa [bound] using inside⟩
  · rintro ⟨a, ha, inside⟩
    have bound := (Array.getElem?_eq_some_iff.mp ha).1
    exact ⟨t, bound, i, by simpa [ha] using inside, rfl, rfl⟩

theorem load?_mem_positions {bits : UInt64} (found : p.load? table bits = some c) :
    (table, bits.toNat) ∈ p.positions := by
  obtain ⟨a, ha, hc⟩ := Option.bind_eq_some_iff.mp found
  exact mem_positions.mpr ⟨a, ha, (Array.getElem?_eq_some_iff.mp hc).1⟩

theorem positions_mono (grows : p.Grows q) : p.positions ⊆ q.positions := by
  intro x hx
  obtain ⟨a, ha, inside⟩ := mem_positions.mp hx
  obtain ⟨b, hb, ab⟩ := grows.tables x.1 a ha
  exact mem_positions.mpr ⟨b, hb, lt_of_lt_of_le inside ab.size_le⟩

/-- Counting the contents table by table, from any running total. -/
theorem foldl_itemCount (tables : List InternTable) (k : Nat) :
    tables.foldl (fun n t => n + t.items.size) k =
      k + ∑ t ∈ Finset.range tables.length, (tables[t]?.map fun a => a.items.size).getD 0 := by
  induction tables generalizing k with
  | nil => simp
  | cons a rest ih =>
    rw [List.foldl_cons, ih, List.length_cons, Finset.sum_range_succ']
    simp only [List.getElem?_cons_succ, List.getElem?_cons_zero, Option.map_some,
      Option.getD_some]
    omega

theorem card_positions : p.positions.card = p.itemCount := by
  rw [positions, Finset.card_biUnion]
  · have counted := foldl_itemCount p.tables.toList 0
    rw [Array.foldl_toList] at counted
    simp only [Array.length_toList, Array.getElem?_toList, Nat.zero_add] at counted
    simp only [Finset.card_map, Finset.card_range]
    rw [itemCount, counted]
  · intro t _ t' _ apart
    simp only [Function.onFun]
    rw [Finset.disjoint_left]
    simp only [Finset.mem_map, Function.Embedding.sectR_apply, not_exists, not_and]
    rintro _ ⟨i, _, rfl⟩ i' _ same
    exact apart (Prod.mk.inj same).1.symm

/-- A pool only gains contents as it grows. -/
theorem itemCount_le (grows : p.Grows q) : p.itemCount ≤ q.itemCount := by
  rw [← card_positions, ← card_positions]
  exact Finset.card_le_card (positions_mono grows)

/-- Distinct positions are no more than the contents stored. -/
theorem length_le_itemCount {seen : List (Nat × Nat)} (nodup : seen.Nodup)
    (stored : ∀ x ∈ seen, x ∈ p.positions) : seen.length ≤ p.itemCount := by
  rw [← card_positions, ← List.toFinset_card_of_nodup nodup]
  exact Finset.card_le_card fun x hx => stored x (List.mem_toFinset.mp hx)

end Pool

theorem PoolM.run_load_of {p : Pool} {table : Nat} {v : Value} {c : Contents}
    (found : p.load? table v.bits = some c) : (PoolM.load table v).run p = .ok (c, p) := by
  simp [PoolM.load, PoolM.run_bind, found]

end Saturate
