import Mathlib.Tactic.Tauto
import Saturate.Prim.Apply

/-!
Answers that do not change as the pool grows.

The pool belongs to the whole session and only grows (`Pool.Grows`). A
primitive that runs while a query is searched may intern a string, a
rational or a container, so each call sees a larger pool than the one before
it. This module shows that no answer depends on which of these pools a call
sees.

* `PoolM.Settles m p`: once `m` has run from `p`, it gives the same answer at
  every pool grown from the one it reached, and adds nothing there.
* `Prim.applyPure_settles`: every primitive settles, once the sorts of its
  arguments and of the values inside the containers it reads are entered in
  the table of names (`Pool.Entered`, `Pool.ContentsEntered`). Sets and maps
  order values of different sorts by where their sort names sort, and a name
  keeps its place only once it is entered.
* `Prim.applyPure_namesResult`: a primitive keeps that condition. Its result
  has an entered sort, and the containers it stores hold only such values.
* `Literal.toValue_settled`, `Literal.toValue_result`: the same for literals.
-/

namespace Saturate

/-! ### What interning leaves behind -/

theorem NameTable.intern_numbers (t : NameTable) (s : String) :
    (t.intern s).1.numbers[s]? = some (t.intern s).2 := by
  unfold NameTable.intern
  split
  · rename_i n found
    simpa using found
  · simp

/-- A name that is there already is entered again without a change. -/
theorem NameTable.intern_of_numbers {t : NameTable} {s : String} {n : UInt64}
    (h : t.numbers[s]? = some n) : t.intern s = (t, n) := by
  unfold NameTable.intern
  rw [Std.HashMap.get?_eq_getElem?, h]

namespace Pool

/-- The pool has given the name a number, so where the name sorts no longer
changes as the pool grows. -/
def Entered (p : Pool) (s : String) : Prop := ∃ n, p.names.numbers[s]? = some n

theorem Entered.grow {p q : Pool} {s : String} (h : p.Entered s) (grows : p.Grows q) :
    q.Entered s := by
  obtain ⟨n, hn⟩ := h
  exact ⟨n, grows.names.numbers s n hn⟩

theorem key_of_entered {p q : Pool} {s : String} (h : p.Entered s) (grows : p.Grows q) :
    q.names.key s = p.names.key s := by
  obtain ⟨n, hn⟩ := h
  simp [NameTable.key, Std.HashMap.get?_eq_getElem?, hn, grows.names.numbers s n hn]

theorem internString_entered (p : Pool) (s : String) : (p.internString s).1.Entered s :=
  ⟨_, p.names.intern_numbers s⟩

/-- Interning a string at a pool that already holds it changes nothing. -/
theorem internString_settles {p q : Pool} (s : String) (grows : (p.internString s).1.Grows q) :
    q.internString s = (q, (p.internString s).2) := by
  have held := grows.names.numbers s _ (p.names.intern_numbers s)
  simp [internString, NameTable.intern_of_numbers held]

theorem internRat_indexed (p : Pool) (r : Rat) :
    ∃ i, (p.internRat r).1.rationalIndex[(r.num, r.den)]? = some i ∧
      (p.internRat r).2 = ⟨"Rational", i.toUInt64⟩ := by
  unfold internRat
  split
  · rename_i i found
    exact ⟨i, by simpa [Std.HashMap.get?_eq_getElem?] using found, rfl⟩
  · exact ⟨_, by simp, rfl⟩

theorem internRat_settles {p q : Pool} (r : Rat) (grows : (p.internRat r).1.Grows q) :
    q.internRat r = (q, (p.internRat r).2) := by
  obtain ⟨i, indexed, value⟩ := p.internRat_indexed r
  have held := grows.rationalIndex _ i indexed
  rw [value]
  simp [internRat, Std.HashMap.get?_eq_getElem?, held]

theorem store_indexed (p : Pool) {table : Nat} {a : InternTable} (sort : String) (c : Contents)
    (sorts : List SortInfo) (h : p.tables[table]? = some a) :
    ∃ b i, (p.store table sort c sorts).1.tables[table]? = some b ∧ b.index[c]? = some i ∧
      (p.store table sort c sorts).2 = ⟨sort, i.toUInt64⟩ := by
  unfold store
  simp only [h, Option.getD_some]
  split
  · rename_i i found
    exact ⟨a, i, h, by simpa [Std.HashMap.get?_eq_getElem?] using found, rfl⟩
  · refine ⟨(a.store c sorts).1, a.items.size, by simp [Array.getElem?_modify, h], ?_, rfl⟩
    rename_i absent
    simp only [Std.HashMap.get?_eq_getElem?] at absent
    simp [InternTable.store, absent]

theorem store_settles {p q : Pool} {table : Nat} {a : InternTable} (sort : String) (c : Contents)
    (sorts : List SortInfo) (h : p.tables[table]? = some a)
    (grows : (p.store table sort c sorts).1.Grows q) :
    q.store table sort c sorts = (q, (p.store table sort c sorts).2) := by
  obtain ⟨b, i, hb, indexed, value⟩ := p.store_indexed sort c sorts h
  obtain ⟨b', hb', bb'⟩ := grows.tables table b hb
  have held := bb'.index c i indexed
  rw [value]
  simp [store, hb', Std.HashMap.get?_eq_getElem?, held]

end Pool

/-! ### Computations that settle -/

namespace PoolM

variable {α β : Type}

/-- Once `m` has run from `p`, it gives the same answer at every pool grown
from the one it reached, and adds nothing there. -/
def Settles (m : PoolM α) (p : Pool) : Prop :=
  ∀ a p', m.run p = .ok (a, p') → ∀ q, p'.Grows q → m.run q = .ok (a, q)

/-- A computation that settles from every pool. -/
def Settled (m : PoolM α) : Prop := ∀ p, m.Settles p

theorem settled_pure (a : α) : (pure a : PoolM α).Settled := by
  intro p b p' ran q _
  simp only [run_pure, Except.ok.injEq, Prod.mk.injEq] at ran
  obtain ⟨rfl, rfl⟩ := ran
  rfl

theorem settled_throw (e : String) : (throw e : PoolM α).Settled := by
  intro p a p' ran
  simp at ran

theorem Settles.bind {m : PoolM α} {f : α → PoolM β} {p : Pool} (hm : m.Settles p)
    (hf : ∀ a p', m.run p = .ok (a, p') → (f a).Settles p') : (m >>= f).Settles p := by
  intro b p'' ran q grown
  rw [run_bind] at ran ⊢
  rcases first : m.run p with e | ⟨a, p'⟩
  · rw [first] at ran
    cases ran
  · rw [first] at ran
    rw [hm a p' first q ((run_grows ran).trans grown)]
    exact hf a p' first b p'' ran q grown

theorem Settled.bind {m : PoolM α} {f : α → PoolM β} (hm : m.Settled)
    (hf : ∀ a, (f a).Settled) : (m >>= f).Settled :=
  fun p => (hm p).bind fun a p' _ => hf a p'

theorem Settled.map {m : PoolM α} (hm : m.Settled) (f : α → β) : (f <$> m).Settled := by
  rw [map_eq_pure_bind]
  exact hm.bind fun a => settled_pure (f a)

theorem settled_mapM {f : α → PoolM β} (hf : ∀ a, (f a).Settled) :
    ∀ xs : List α, (xs.mapM f).Settled
  | [] => settled_pure []
  | x :: xs => by
    rw [List.mapM_cons]
    exact (hf x).bind fun b => (settled_mapM hf xs).bind fun bs => settled_pure (b :: bs)

theorem settled_string (s : String) : (string s).Settled := by
  intro p v p' ran q grown
  simp only [string, run_grow, Except.ok.injEq, Prod.mk.injEq] at ran ⊢
  obtain ⟨rfl, rfl⟩ := ran
  rw [Pool.internString_settles s grown]
  exact ⟨rfl, rfl⟩

theorem settled_rat (r : Rat) : (rat r).Settled := by
  intro p v p' ran q grown
  simp only [rat, run_grow, Except.ok.injEq, Prod.mk.injEq] at ran ⊢
  obtain ⟨rfl, rfl⟩ := ran
  rw [Pool.internRat_settles r grown]
  exact ⟨rfl, rfl⟩

theorem settles_store {p : Pool} {table : Nat} {a : InternTable} (sort : SortInfo) (c : Contents)
    (sorts : List SortInfo) (h : p.tables[table]? = some a) :
    (store sort table c sorts).Settles p := by
  intro v p' ran q grown
  simp only [store, run_grow, Except.ok.injEq, Prod.mk.injEq] at ran ⊢
  obtain ⟨rfl, rfl⟩ := ran
  rw [Pool.store_settles sort.name c sorts h grown]
  exact ⟨rfl, rfl⟩

theorem settled_loadString (v : Value) : (loadString v).Settled := by
  intro p s p' ran q grown
  simp only [loadString, run_bind, run_read] at ran ⊢
  split at ran
  · rename_i text found
    simp only [run_pure, Except.ok.injEq, Prod.mk.injEq] at ran
    obtain ⟨rfl, rfl⟩ := ran
    have held : q.string? v.bits = some text := grown.names.names _ _ found
    simp [held]
  · split at ran <;> simp at ran

theorem settled_loadRat (v : Value) : (loadRat v).Settled := by
  intro p r p' ran q grown
  simp only [loadRat, run_bind, run_read] at ran ⊢
  split at ran
  · rename_i value found
    simp only [run_pure, Except.ok.injEq, Prod.mk.injEq] at ran
    obtain ⟨rfl, rfl⟩ := ran
    have held : q.rat? v.bits = some value := grown.rationals _ _ found
    simp [held]
  · simp at ran

theorem Pool.load?_grow {p q : Pool} {table : Nat} {bits : UInt64} {c : Contents}
    (found : p.load? table bits = some c) (grown : p.Grows q) : q.load? table bits = some c := by
  obtain ⟨a, ha, hc⟩ := Option.bind_eq_some_iff.mp found
  obtain ⟨b, hb, ab⟩ := grown.tables table a ha
  exact Option.bind_eq_some_iff.mpr ⟨b, hb, ab.items _ _ hc⟩

theorem settled_load (table : Nat) (v : Value) : (load table v).Settled := by
  intro p c p' ran q grown
  simp only [load, run_bind, run_read] at ran ⊢
  split at ran
  · rename_i found
    simp only [run_pure, Except.ok.injEq, Prod.mk.injEq] at ran
    obtain ⟨rfl, rfl⟩ := ran
    simp [Pool.load?_grow found grown]
  · simp at ran

end PoolM
open PoolM

/-! ### Primitives over base sorts -/

theorem settled_ite {α : Type} {c : Prop} [Decidable c] {a b : PoolM α} (ha : a.Settled) (hb : b.Settled) :
    (if c then a else b).Settled := by
  split
  · exact ha
  · exact hb

theorem IntOp.apply_settled (op : IntOp) (args : List Value) : (op.apply args).Settled := by
  unfold IntOp.apply
  split
  all_goals try exact settled_pure _
  · exact (settled_string _).map _
  · exact (settled_loadString _).bind fun _ => (settled_loadString _).bind fun _ =>
      settled_ite (settled_pure _) (settled_pure _)

theorem FloatOp.apply_settled (op : FloatOp) (args : List Value) : (op.apply args).Settled := by
  unfold FloatOp.apply
  split
  all_goals try exact settled_pure _
  exact (settled_string _).map _

theorem RatOp.apply_settled (op : RatOp) (args : List Value) : (op.apply args).Settled := by
  unfold RatOp.apply
  cases op <;> dsimp only <;> split
  all_goals try exact settled_pure _
  all_goals repeat refine (settled_loadRat _).bind fun _ => ?_
  all_goals try split
  all_goals try exact settled_pure _
  all_goals exact (settled_rat _).map _

theorem StrOp.apply_settled (op : StrOp) (args : List Value) : (op.apply args).Settled := by
  unfold StrOp.apply
  cases op <;> dsimp only
  · exact (settled_mapM settled_loadString args).bind fun _ => (settled_string _).map _
  · split
    · exact (settled_loadString _).bind fun _ => (settled_loadString _).bind fun _ =>
        (settled_loadString _).bind fun _ => (settled_string _).map _
    · exact settled_pure _

/-! ### Containers

A set or a map compares values of different sorts by where their sort names
sort (`Value.compare`). The comparisons a container operation makes are on
its arguments and on values it loads, so they come out the same at a later
pool when those values' sorts are entered. -/

/-- The values inside some contents. -/
def Contents.values : Contents → List Value
  | .set xs | .vec xs | .partialApp _ xs => xs
  | .map xs => xs.flatMap fun (k, v) => [k, v]

/-- Every value inside a stored container has a sort the pool has entered. -/
def Pool.ContentsEntered (p : Pool) : Prop :=
  ∀ table bits c, p.load? table bits = some c → ∀ v ∈ c.values, p.Entered v.sort

theorem Value.compare_congr {key key' : String → Nat} {a b : Value}
    (ha : key a.sort = key' a.sort) (hb : key b.sort = key' b.sort) :
    Value.compare key a b = Value.compare key' a b := by
  simp only [Value.compare, ha, hb]

theorem mem_insertSorted {key : String → Nat} {v x : Value} {xs : List Value}
    (h : v ∈ insertSorted key x xs) : v = x ∨ v ∈ xs := by
  induction xs with
  | nil => simpa [insertSorted] using h
  | cons y ys ih =>
    simp only [insertSorted] at h
    split at h <;> simp at h <;> grind

theorem insertSorted_congr {key key' : String → Nat} {x : Value} {xs : List Value}
    (h : ∀ v ∈ x :: xs, key v.sort = key' v.sort) : insertSorted key x xs = insertSorted key' x xs := by
  induction xs with
  | nil => rfl
  | cons y ys ih =>
    simp only [insertSorted]
    rw [Value.compare_congr (h x (by simp)) (h y (by simp))]
    rw [ih fun v hv => h v (by simp at hv ⊢; tauto)]

/-- Inserting the same values into the same set gives the same set under two
orders that agree on the values' sorts. -/
theorem foldl_insertSorted_congr {key key' : String → Nat} :
    ∀ (ys acc : List Value), (∀ v ∈ ys ++ acc, key v.sort = key' v.sort) →
      ys.foldl (fun acc x => insertSorted key x acc) acc =
        ys.foldl (fun acc x => insertSorted key' x acc) acc
  | [], _, _ => rfl
  | y :: ys, acc, agree => by
    simp only [List.foldl_cons]
    rw [insertSorted_congr fun v hv => agree v (by simp at hv ⊢; tauto)]
    -- the set after inserting `y` holds only `y` and what it held before
    exact foldl_insertSorted_congr ys _ fun v hv => by
      rcases List.mem_append.mp hv with hv | hv
      · exact agree v (by simp [hv])
      · rcases mem_insertSorted hv with rfl | hv <;> exact agree _ (by simp [hv])

theorem sortedSet_congr {key key' : String → Nat} {xs : List Value}
    (h : ∀ v ∈ xs, key v.sort = key' v.sort) : sortedSet key xs = sortedSet key' xs :=
  foldl_insertSorted_congr xs [] (by simpa using h)

theorem PoolM.run_nameKey (p : Pool) : PoolM.nameKey.run p = .ok (p.names.key, p) := rfl

theorem PoolM.run_load {table : Nat} {v : Value} {p p' : Pool} {c : Contents}
    (ran : (load table v).run p = .ok (c, p')) : p' = p ∧ p.load? table v.bits = some c := by
  simp only [load, run_bind, run_read] at ran
  split at ran
  · rename_i found
    simp only [run_pure, Except.ok.injEq, Prod.mk.injEq] at ran
    obtain ⟨rfl, rfl⟩ := ran
    exact ⟨rfl, found⟩
  · simp at ran

theorem loadSet_settled (s : SortInfo) (v : Value) : (loadSet s v).Settled := by
  unfold loadSet
  refine (settled_load _ _).bind fun c => ?_
  split
  · exact settled_pure _
  · exact settled_throw _

theorem run_loadSet {s : SortInfo} {v : Value} {p p' : Pool} {xs : List Value}
    (ran : (loadSet s v).run p = .ok (xs, p')) : p' = p ∧ p.load? s.table v.bits = some (.set xs) := by
  simp only [loadSet, run_bind] at ran
  rcases loaded : (PoolM.load s.table v).run p with e | ⟨c, r⟩
  · simp [loaded] at ran
  · obtain ⟨rfl, found⟩ := PoolM.run_load loaded
    simp only [loaded] at ran
    split at ran
    · simp only [run_pure, Except.ok.injEq, Prod.mk.injEq] at ran
      obtain ⟨rfl, rfl⟩ := ran
      exact ⟨rfl, found⟩
    · simp at ran

theorem settles_storeSome {p : Pool} {a : InternTable} (s : SortInfo) (c : Contents)
    (table : p.tables[s.table]? = some a) : (some <$> PoolM.store s s.table c []).Settles p := by
  rw [map_eq_pure_bind]
  exact (settles_store s c [] table).bind fun v _ _ => settled_pure _ _

theorem SetOp.apply_settles (s : SortInfo) (op : SetOp) (args : List Value) {p : Pool}
    {a : InternTable} (table : p.tables[s.table]? = some a) (known : ∀ v ∈ args, p.Entered v.sort)
    (wf : p.ContentsEntered) : (op.apply s args).Settles p := by
  intro o p' ran q grown
  have reached : p.Grows q := (run_grows ran).trans grown
  -- the order of names at `q` agrees with that at `p` on every name `p` entered
  have agree : ∀ v : Value, p.Entered v.sort → q.names.key v.sort = p.names.key v.sort :=
    fun v h => Pool.key_of_entered h reached
  have loaded : ∀ {w : Value} {xs : List Value} {r : Pool}, (loadSet s w).run p = .ok (xs, r) →
      r = p ∧ ∀ v ∈ xs, p.Entered v.sort := fun ran => by
    obtain ⟨rfl, found⟩ := run_loadSet ran
    exact ⟨rfl, wf _ _ _ found⟩
  have stored : ∀ c, (some <$> PoolM.store s s.table c []).Settles p := fun c => settles_storeSome s c table
  unfold SetOp.apply at ran ⊢
  dsimp only at ran ⊢
  rw [run_bind, PoolM.run_nameKey] at ran ⊢
  dsimp only at ran ⊢
  split at ran
  case h_1 => exact stored _ o p' ran q grown
  case h_2 =>
    rw [sortedSet_congr fun v hv => agree v (known v hv)]
    exact stored _ o p' ran q grown
  case h_3 w x =>
    rw [run_bind] at ran ⊢
    rcases first : (loadSet s w).run p with e | ⟨xs, r⟩
    · simp [first] at ran
    · rw [first] at ran
      obtain ⟨same, elems⟩ := loaded first
      subst r
      rw [loadSet_settled s w p xs p first q reached]
      dsimp only
      rw [insertSorted_congr fun v hv => by
        rcases List.mem_cons.mp hv with rfl | hv
        · exact agree _ (known _ (by simp))
        · exact agree v (elems v hv)]
      exact stored _ o p' ran q grown
  case h_5 w w' =>
    rw [run_bind] at ran ⊢
    rcases first : (loadSet s w').run p with e | ⟨ys, r⟩
    · simp [first] at ran
    · rw [first] at ran
      obtain ⟨same, elems⟩ := loaded first
      subst r
      rw [loadSet_settled s w' p ys p first q reached]
      dsimp only at ran ⊢
      rw [run_bind] at ran ⊢
      rcases second : (loadSet s w).run p with e | ⟨xs, r⟩
      · simp [second] at ran
      · rw [second] at ran
        obtain ⟨same, elems'⟩ := loaded second
        subst r
        rw [loadSet_settled s w p xs p second q reached]
        dsimp only at ran ⊢
        rw [foldl_insertSorted_congr ys xs fun v hv => by
          rcases List.mem_append.mp hv with hv | hv
          · exact agree v (elems v hv)
          · exact agree v (elems' v hv)]
        exact stored _ o p' ran q grown
  -- the other operations do not compare values: they run the same at `q`
  case h_4 w x =>
    refine ((loadSet_settled s w p).bind fun xs r hr => ?_) o p' ran q grown
    rw [(run_loadSet hr).1]
    exact stored _
  case h_9 => exact settled_pure _ p o p' ran q grown
  all_goals exact ((loadSet_settled s _).bind fun _ => settled_pure _) p o p' ran q grown

theorem loadVec_settled (s : SortInfo) (v : Value) : (loadVec s v).Settled := by
  unfold loadVec
  refine (settled_load _ _).bind fun c => ?_
  split
  · exact settled_pure _
  · exact settled_throw _

theorem run_loadVec {s : SortInfo} {v : Value} {p p' : Pool} {xs : List Value}
    (ran : (loadVec s v).run p = .ok (xs, p')) : p' = p ∧ p.load? s.table v.bits = some (.vec xs) := by
  simp only [loadVec, run_bind] at ran
  rcases loaded : (PoolM.load s.table v).run p with e | ⟨c, r⟩
  · simp [loaded] at ran
  · obtain ⟨rfl, found⟩ := PoolM.run_load loaded
    simp only [loaded] at ran
    split at ran
    · simp only [run_pure, Except.ok.injEq, Prod.mk.injEq] at ran
      obtain ⟨rfl, rfl⟩ := ran
      exact ⟨rfl, found⟩
    · simp at ran

theorem loadMap_settled (s : SortInfo) (v : Value) : (loadMap s v).Settled := by
  unfold loadMap
  refine (settled_load _ _).bind fun c => ?_
  split
  · exact settled_pure _
  · exact settled_throw _

theorem run_loadMap {s : SortInfo} {v : Value} {p p' : Pool} {xs : List (Value × Value)}
    (ran : (loadMap s v).run p = .ok (xs, p')) : p' = p ∧ p.load? s.table v.bits = some (.map xs) := by
  simp only [loadMap, run_bind] at ran
  rcases loaded : (PoolM.load s.table v).run p with e | ⟨c, r⟩
  · simp [loaded] at ran
  · obtain ⟨rfl, found⟩ := PoolM.run_load loaded
    simp only [loaded] at ran
    split at ran
    · simp only [run_pure, Except.ok.injEq, Prod.mk.injEq] at ran
      obtain ⟨rfl, rfl⟩ := ran
      exact ⟨rfl, found⟩
    · simp at ran

theorem VecOp.apply_settles (s : SortInfo) (op : VecOp) (args : List Value) {p : Pool}
    {a : InternTable} (table : p.tables[s.table]? = some a) : (op.apply s args).Settles p := by
  have stored : ∀ c, (some <$> PoolM.store s s.table c []).Settles p := fun c => settles_storeSome s c table
  unfold VecOp.apply
  dsimp only
  split
  case h_3 w x =>
    refine (loadVec_settled s w p).bind fun xs r hr => ?_
    rw [(run_loadVec hr).1]
    exact stored _
  case h_1 | h_2 => exact stored _
  case h_4 | h_5 => exact ((loadVec_settled s _).bind fun _ => settled_pure _) p
  case h_6 => exact settled_pure _ p

theorem insertBinding_congr {key key' : String → Nat} {k v : Value} {xs : List (Value × Value)}
    (h : ∀ kv ∈ (k, v) :: xs, key kv.1.sort = key' kv.1.sort) :
    insertBinding key k v xs = insertBinding key' k v xs := by
  induction xs with
  | nil => rfl
  | cons kv rest ih =>
    simp only [insertBinding]
    rw [Value.compare_congr (h (k, v) (by simp)) (h kv (by simp))]
    rw [ih fun w hw => h w (by simp at hw ⊢; tauto)]

theorem MapOp.apply_settles (s : SortInfo) (op : MapOp) (args : List Value) {p : Pool}
    {a : InternTable} (table : p.tables[s.table]? = some a) (known : ∀ v ∈ args, p.Entered v.sort)
    (wf : p.ContentsEntered) : (op.apply s args).Settles p := by
  intro o p' ran q grown
  have reached : p.Grows q := (run_grows ran).trans grown
  have stored : ∀ c, (some <$> PoolM.store s s.table c []).Settles p := fun c => settles_storeSome s c table
  unfold MapOp.apply at ran ⊢
  dsimp only at ran ⊢
  rw [run_bind, PoolM.run_nameKey] at ran ⊢
  dsimp only at ran ⊢
  split at ran
  case h_1 => exact stored _ o p' ran q grown
  case h_2 m k v =>
    rw [run_bind] at ran ⊢
    rcases first : (loadMap s m).run p with e | ⟨xs, r⟩
    · simp [first] at ran
    · rw [first] at ran
      obtain ⟨same, found⟩ := run_loadMap first
      subst r
      rw [loadMap_settled s m p xs p first q reached]
      dsimp only at ran ⊢
      -- the keys compared are the new key and the keys bound before
      rw [insertBinding_congr fun kv hkv => by
        rcases List.mem_cons.mp hkv with rfl | hkv
        · exact Pool.key_of_entered (known _ (by simp)) reached
        · exact Pool.key_of_entered (wf _ _ _ found _
            (by simp [Contents.values]; exact ⟨kv.1, kv.2, hkv, by simp⟩)) reached]
      exact stored _ o p' ran q grown
  case h_6 m k =>
    refine ((loadMap_settled s m p).bind fun xs r hr => ?_) o p' ran q grown
    rw [(run_loadMap hr).1]
    exact stored _
  case h_8 => exact settled_pure _ p o p' ran q grown
  all_goals exact ((loadMap_settled s _).bind fun _ => settled_pure _) p o p' ran q grown

/-- What a primitive over a container sort needs of the pool: the table of
its sort, and its sort's name. -/
def Prim.HostedIn (pool : Pool) : Prim → Prop
  | .set s _ | .vec s _ | .map s _ => (∃ a, pool.tables[s.table]? = some a) ∧ pool.Entered s.name
  | _ => True

theorem Prim.HostedIn.grow {prim : Prim} {p q : Pool} (h : prim.HostedIn p) (grows : p.Grows q) :
    prim.HostedIn q := by
  cases prim
  case set s op | vec s op | map s op =>
    obtain ⟨⟨a, ha⟩, named⟩ := h
    obtain ⟨b, hb, -⟩ := grows.tables _ a ha
    exact ⟨⟨b, hb⟩, named.grow grows⟩
  all_goals trivial

/-- **A primitive gives the same answer at every later pool**, once its
arguments' sorts and the sorts inside the containers it reads are named. -/
theorem Prim.applyPure_settles (p : Prim) (args : List Value) {pool : Pool}
    (hosted : p.HostedIn pool) (known : ∀ v ∈ args, pool.Entered v.sort)
    (wf : pool.ContentsEntered) : (p.applyPure args).Settles pool := by
  cases p
  case notEqual =>
    dsimp only [Prim.applyPure]
    split <;> exact settled_pure _ pool
  case str op => exact op.apply_settled args pool
  case bool op => exact settled_pure _ pool
  case int op => exact op.apply_settled args pool
  case float op => exact op.apply_settled args pool
  case rat op => exact op.apply_settled args pool
  case set s op =>
    obtain ⟨⟨a, ha⟩, -⟩ := hosted
    exact op.apply_settles s args ha known wf
  case vec s op =>
    obtain ⟨⟨a, ha⟩, -⟩ := hosted
    exact op.apply_settles s args ha
  case map s op =>
    obtain ⟨⟨a, ha⟩, -⟩ := hosted
    exact op.apply_settles s args ha known wf
  case fn s op => exact settled_pure _ pool

/-! ### Where results come from -/

/-- The names of the base sorts, which the results of arithmetic carry. -/
def baseSortNames : List String :=
  [SortInfo.unit.name, SortInfo.string.name, SortInfo.bool.name, SortInfo.i64.name,
    SortInfo.f64.name, SortInfo.rational.name]

theorem PoolM.run_map {α β : Type} (f : α → β) (m : PoolM α) (p : Pool) :
    (f <$> m).run p = (m.run p).map fun (a, q) => (f a, q) := by
  rw [map_eq_pure_bind, run_bind]
  rcases m.run p with e | ⟨a, q⟩ <;> rfl

theorem PoolM.run_loadString_pool {v : Value} {p p' : Pool} {s : String}
    (ran : (loadString v).run p = .ok (s, p')) : p' = p := by
  simp only [loadString, run_bind, run_read] at ran
  split at ran
  · simp only [run_pure, Except.ok.injEq, Prod.mk.injEq] at ran
    exact ran.2.symm
  · split at ran <;> simp at ran

theorem PoolM.run_loadString_bind {β : Type} {v : Value} {f : String → PoolM β} {p p' : Pool}
    {b : β} (ran : (loadString v >>= f).run p = .ok (b, p')) : ∃ s, (f s).run p = .ok (b, p') := by
  rw [run_bind] at ran
  rcases first : (loadString v).run p with e | ⟨s, q⟩
  · simp [first] at ran
  · rw [first, PoolM.run_loadString_pool first] at ran
    exact ⟨s, ran⟩

theorem IntOp.apply_result {op : IntOp} {args : List Value} {p p' : Pool} {o : Option Value}
    (ran : (op.apply args).run p = .ok (o, p')) :
    p'.tables = p.tables ∧ ∀ r, o = some r → r.sort ∈ baseSortNames ∨ r ∈ args := by
  unfold IntOp.apply at ran
  split at ran <;>
    repeat obtain ⟨_, ran⟩ := PoolM.run_loadString_bind ran
  all_goals
    try dsimp only at ran
    (try split at ran) <;>
    simp only [run_pure, PoolM.run_map, PoolM.string, run_grow, Except.map, Except.ok.injEq,
      Prod.mk.injEq] at ran <;>
    obtain ⟨rfl, rfl⟩ := ran <;>
    simp [unitIf, checkedInt, baseSortNames, SortInfo.name, Value.ofInt, Value.ofBits64,
      Value.ofBool, Value.unit] <;>
    tauto

theorem FloatOp.apply_result {op : FloatOp} {args : List Value} {p p' : Pool} {o : Option Value}
    (ran : (op.apply args).run p = .ok (o, p')) :
    p'.tables = p.tables ∧ ∀ r, o = some r → r.sort ∈ baseSortNames ∨ r ∈ args := by
  unfold FloatOp.apply at ran
  dsimp only at ran
  split at ran <;>
    simp only [run_pure, PoolM.run_map, PoolM.string, run_grow, Except.map, Except.ok.injEq,
      Prod.mk.injEq] at ran <;>
    obtain ⟨rfl, rfl⟩ := ran <;>
    simp [unitIf, Pool.internString, baseSortNames, SortInfo.name, Value.ofInt, Value.ofFloatBits,
      Value.unit] <;>
    tauto

theorem PoolM.run_loadRat_pool {v : Value} {p p' : Pool} {r : Rat}
    (ran : (loadRat v).run p = .ok (r, p')) : p' = p := by
  simp only [loadRat, run_bind, run_read] at ran
  split at ran
  · simp only [run_pure, Except.ok.injEq, Prod.mk.injEq] at ran
    exact ran.2.symm
  · simp at ran

@[simp] theorem Pool.internRat_tables (p : Pool) (r : Rat) : (p.internRat r).1.tables = p.tables := by
  unfold Pool.internRat
  split <;> rfl

@[simp] theorem Pool.internRat_sort (p : Pool) (r : Rat) : (p.internRat r).2.sort = "Rational" := by
  unfold Pool.internRat
  split <;> rfl

@[simp] theorem Pool.internString_tables (p : Pool) (s : String) :
    (p.internString s).1.tables = p.tables := rfl

@[simp] theorem Pool.internString_sort (p : Pool) (s : String) :
    (p.internString s).2.sort = "String" := rfl

theorem PoolM.run_loadRat_bind {β : Type} {v : Value} {f : Rat → PoolM β} {p p' : Pool} {b : β}
    (ran : (loadRat v >>= f).run p = .ok (b, p')) : ∃ r, (f r).run p = .ok (b, p') := by
  rw [run_bind] at ran
  rcases first : (loadRat v).run p with e | ⟨r, q⟩
  · simp [first] at ran
  · rw [first, PoolM.run_loadRat_pool first] at ran
    exact ⟨r, ran⟩

theorem RatOp.apply_result {op : RatOp} {args : List Value} {p p' : Pool} {o : Option Value}
    (ran : (op.apply args).run p = .ok (o, p')) :
    p'.tables = p.tables ∧ ∀ r, o = some r → r.sort ∈ baseSortNames ∨ r ∈ args := by
  unfold RatOp.apply at ran
  cases op <;> dsimp only at ran <;> split at ran <;>
    repeat obtain ⟨_, ran⟩ := PoolM.run_loadRat_bind ran
  all_goals
    (try split at ran) <;>
    simp only [run_pure, PoolM.run_map, PoolM.rat, run_grow, Except.map, Except.ok.injEq,
      Prod.mk.injEq] at ran <;>
    obtain ⟨rfl, rfl⟩ := ran <;>
    simp [unitIf, checkedInt, baseSortNames, SortInfo.name, Value.ofInt, Value.ofFloatBits,
      Value.unit]

theorem PoolM.run_mapM_loadString_bind {β : Type} {f : List String → PoolM β} {p p' : Pool}
    {b : β} : ∀ {vs : List Value}, (vs.mapM loadString >>= f).run p = .ok (b, p') →
      ∃ ss, (f ss).run p = .ok (b, p')
  | [], ran => ⟨[], by simpa using ran⟩
  | v :: vs, ran => by
    rw [List.mapM_cons, bind_assoc] at ran
    obtain ⟨s, ran⟩ := PoolM.run_loadString_bind ran
    rw [bind_assoc] at ran
    obtain ⟨ss, ran⟩ := PoolM.run_mapM_loadString_bind ran
    exact ⟨s :: ss, by simpa using ran⟩

theorem StrOp.apply_result {op : StrOp} {args : List Value} {p p' : Pool} {o : Option Value}
    (ran : (op.apply args).run p = .ok (o, p')) :
    p'.tables = p.tables ∧ ∀ r, o = some r → r.sort ∈ baseSortNames ∨ r ∈ args := by
  unfold StrOp.apply at ran
  cases op <;> dsimp only at ran
  · obtain ⟨_, ran⟩ := PoolM.run_mapM_loadString_bind ran
    simp only [PoolM.run_map, PoolM.string, run_grow, Except.map, Except.ok.injEq,
      Prod.mk.injEq] at ran
    obtain ⟨rfl, rfl⟩ := ran
    simp [baseSortNames, SortInfo.name]
  · split at ran
    · repeat obtain ⟨_, ran⟩ := PoolM.run_loadString_bind ran
      simp only [PoolM.run_map, PoolM.string, run_grow, Except.map, Except.ok.injEq,
        Prod.mk.injEq] at ran
      obtain ⟨rfl, rfl⟩ := ran
      simp [baseSortNames, SortInfo.name]
    · simp only [run_pure, Except.ok.injEq, Prod.mk.injEq] at ran
      obtain ⟨rfl, rfl⟩ := ran
      simp

/-! ### Results name their sorts -/

theorem Pool.ContentsEntered.grow {p q : Pool} (wf : p.ContentsEntered) (grows : p.Grows q)
    (tables : q.tables = p.tables) : q.ContentsEntered := by
  intro t bits c found v hv
  have found' : p.load? t bits = some c := by simpa [Pool.load?, tables] using found
  exact (wf t bits c found' v hv).grow grows

@[simp] theorem Pool.store_sort (p : Pool) (table : Nat) (sort : String) (c : Contents)
    (sorts : List SortInfo) : (p.store table sort c sorts).2.sort = sort := by
  unfold Pool.store
  dsimp only
  split <;> rfl

theorem Pool.ContentsEntered.store {p : Pool} (wf : p.ContentsEntered) {table : Nat} {sort : String}
    {c : Contents} (sorts : List SortInfo) (known : ∀ v ∈ c.values, p.Entered v.sort) :
    (p.store table sort c sorts).1.ContentsEntered := by
  unfold Pool.store
  dsimp only
  split
  · exact wf
  · rename_i absent
    have grows := Pool.grows_of_modify p table _ fun a => a.store_grows c sorts
    intro t bits c' found v hv
    simp only [Pool.load?, Array.getElem?_modify] at found
    split at found
    · rename_i same
      subst same
      -- the table written holds its old contents and `c` at the end
      obtain ⟨a', ha', hc'⟩ := Option.bind_eq_some_iff.mp found
      obtain ⟨a, ha, rfl⟩ := Option.map_eq_some_iff.mp ha'
      simp only [ha, Option.getD_some] at absent
      simp only [InternTable.store, absent, InternTable.load?, Array.getElem?_push] at hc'
      split at hc'
      · cases hc'
        exact (known v hv).grow grows
      · exact (wf table bits c' (by simp [Pool.load?, ha, InternTable.load?, hc']) v hv).grow grows
    · exact (wf t bits c' found v hv).grow grows

/-- After a primitive ran: every value inside a container still has a named
sort, and so does the result. -/
def Pool.NamesResult (p : Pool) (o : Option Value) : Prop :=
  p.ContentsEntered ∧ ∀ r, o = some r → p.Entered r.sort

theorem Pool.namesResult_pure {p : Pool} {o : Option Value} (wf : p.ContentsEntered)
    (named : ∀ r, o = some r → p.Entered r.sort) : p.NamesResult o := ⟨wf, named⟩

theorem PoolM.run_storeSome {s : SortInfo} {c : Contents} {p p' : Pool} {o : Option Value}
    (ran : (some <$> PoolM.store s s.table c []).run p = .ok (o, p')) :
    p' = (p.store s.table s.name c []).1 ∧ o = some (p.store s.table s.name c []).2 := by
  simp only [PoolM.run_map, store, run_grow, Except.map, Except.ok.injEq, Prod.mk.injEq] at ran
  exact ⟨ran.2.symm, ran.1.symm⟩

theorem Pool.namesResult_storeSome {s : SortInfo} {c : Contents} {p p' : Pool} {o : Option Value}
    (wf : p.ContentsEntered) (named : p.Entered s.name) (known : ∀ v ∈ c.values, p.Entered v.sort)
    (ran : (some <$> PoolM.store s s.table c []).run p = .ok (o, p')) : p'.NamesResult o := by
  obtain ⟨rfl, rfl⟩ := PoolM.run_storeSome ran
  refine ⟨wf.store [] known, fun r hr => ?_⟩
  cases hr
  rw [Pool.store_sort]
  exact named.grow (p.store_grows _ _ _ _)

theorem PoolM.run_pure_inv {α : Type} {a b : α} {p p' : Pool}
    (ran : (pure a : PoolM α).run p = .ok (b, p')) : b = a ∧ p' = p := by
  simp only [run_pure, Except.ok.injEq, Prod.mk.injEq] at ran
  exact ⟨ran.1.symm, ran.2.symm⟩

theorem mem_foldl_insertSorted {key : String → Nat} {v : Value} :
    ∀ {ys acc : List Value}, v ∈ ys.foldl (fun acc x => insertSorted key x acc) acc → v ∈ ys ∨ v ∈ acc
  | [], _, h => .inr h
  | y :: ys, acc, h => by
    rw [List.foldl_cons] at h
    rcases mem_foldl_insertSorted h with hv | hv
    · simp [hv]
    · rcases mem_insertSorted hv with rfl | hv <;> simp [hv]

theorem mem_sortedSet {key : String → Nat} {v : Value} {xs : List Value}
    (h : v ∈ sortedSet key xs) : v ∈ xs := by
  simpa using mem_foldl_insertSorted h

theorem Pool.entered_unitIf {p : Pool} (base : ∀ n ∈ baseSortNames, p.Entered n) {b : Bool} :
    ∀ r, unitIf b = some r → p.Entered r.sort := by
  intro r hr
  simp only [unitIf, Option.ite_none_right_eq_some, Option.some.injEq] at hr
  rw [← hr.2]
  exact base _ (by simp [baseSortNames, SortInfo.name, Value.unit])

theorem Pool.entered_ofInt {p : Pool} (base : ∀ n ∈ baseSortNames, p.Entered n) (i : Int) :
    p.Entered (Value.ofInt i).sort :=
  base _ (by simp [baseSortNames, SortInfo.name, Value.ofInt])

theorem PoolM.run_loadSet_bind {β : Type} {s : SortInfo} {v : Value} {f : List Value → PoolM β}
    {p p' : Pool} {b : β} (ran : (loadSet s v >>= f).run p = .ok (b, p')) :
    ∃ xs, p.load? s.table v.bits = some (.set xs) ∧ (f xs).run p = .ok (b, p') := by
  rw [run_bind] at ran
  rcases first : (loadSet s v).run p with e | ⟨xs, q⟩
  · simp [first] at ran
  · obtain ⟨rfl, found⟩ := run_loadSet first
    rw [first] at ran
    exact ⟨xs, found, ran⟩

theorem PoolM.run_loadVec_bind {β : Type} {s : SortInfo} {v : Value} {f : List Value → PoolM β}
    {p p' : Pool} {b : β} (ran : (loadVec s v >>= f).run p = .ok (b, p')) :
    ∃ xs, p.load? s.table v.bits = some (.vec xs) ∧ (f xs).run p = .ok (b, p') := by
  rw [run_bind] at ran
  rcases first : (loadVec s v).run p with e | ⟨xs, q⟩
  · simp [first] at ran
  · obtain ⟨rfl, found⟩ := run_loadVec first
    rw [first] at ran
    exact ⟨xs, found, ran⟩

theorem PoolM.run_loadMap_bind {β : Type} {s : SortInfo} {v : Value}
    {f : List (Value × Value) → PoolM β} {p p' : Pool} {b : β}
    (ran : (loadMap s v >>= f).run p = .ok (b, p')) :
    ∃ xs, p.load? s.table v.bits = some (.map xs) ∧ (f xs).run p = .ok (b, p') := by
  rw [run_bind] at ran
  rcases first : (loadMap s v).run p with e | ⟨xs, q⟩
  · simp [first] at ran
  · obtain ⟨rfl, found⟩ := run_loadMap first
    rw [first] at ran
    exact ⟨xs, found, ran⟩

theorem mem_values_insertBinding {key : String → Nat} {k v u : Value} {xs : List (Value × Value)}
    (h : u ∈ (Contents.map (insertBinding key k v xs)).values) :
    u = k ∨ u = v ∨ u ∈ (Contents.map xs).values := by
  induction xs with
  | nil => simpa [insertBinding, Contents.values] using h
  | cons kv rest ih =>
    simp only [insertBinding] at h
    simp only [Contents.values] at ih
    split at h <;> simp [Contents.values] at h ih ⊢ <;> grind

theorem mem_values_of_lookup {xs : List (Value × Value)} {k r : Value}
    (h : (xs.find? (·.1 == k)).map (·.2) = some r) : r ∈ (Contents.map xs).values := by
  obtain ⟨kv, found, rfl⟩ := Option.map_eq_some_iff.mp h
  simp only [Contents.values, List.mem_flatMap]
  exact ⟨kv, List.mem_of_find?_eq_some found, by simp⟩

section NamesResult

variable {s : SortInfo} {args : List Value} {p p' : Pool} {o : Option Value}
  (base : ∀ n ∈ baseSortNames, p.Entered n) (named : p.Entered s.name)
  (known : ∀ v ∈ args, p.Entered v.sort) (wf : p.ContentsEntered)
include base named known wf

theorem SetOp.apply_namesResult {op : SetOp} (ran : (op.apply s args).run p = .ok (o, p')) :
    p'.NamesResult o := by
  unfold SetOp.apply at ran
  dsimp only at ran
  rw [run_bind, PoolM.run_nameKey] at ran
  dsimp only at ran
  split at ran
  case h_1 => exact Pool.namesResult_storeSome wf named (by simp [Contents.values]) ran
  case h_2 =>
    refine Pool.namesResult_storeSome wf named (fun v hv => ?_) ran
    exact known v (mem_sortedSet hv)
  case h_3 w x =>
    obtain ⟨xs, found, ran⟩ := PoolM.run_loadSet_bind ran
    refine Pool.namesResult_storeSome wf named (fun v hv => ?_) ran
    rcases mem_insertSorted hv with rfl | hv
    · exact known _ (by simp)
    · exact wf _ _ _ found v hv
  case h_4 w x =>
    obtain ⟨xs, found, ran⟩ := PoolM.run_loadSet_bind ran
    refine Pool.namesResult_storeSome wf named (fun v hv => ?_) ran
    exact wf _ _ _ found v ((List.mem_filter.mp hv).1)
  case h_5 w w' =>
    obtain ⟨ys, found, ran⟩ := PoolM.run_loadSet_bind ran
    obtain ⟨xs, found', ran⟩ := PoolM.run_loadSet_bind ran
    refine Pool.namesResult_storeSome wf named (fun v hv => ?_) ran
    rcases mem_foldl_insertSorted hv with hv | hv
    · exact wf _ _ _ found v hv
    · exact wf _ _ _ found' v hv
  case h_9 =>
    obtain ⟨rfl, rfl⟩ := PoolM.run_pure_inv ran
    exact Pool.namesResult_pure wf (by simp)
  -- membership and length give a unit or an integer and leave the pool as it was
  all_goals
    obtain ⟨xs, found, ran⟩ := PoolM.run_loadSet_bind ran
    obtain ⟨rfl, rfl⟩ := PoolM.run_pure_inv ran
  · exact Pool.namesResult_pure wf (Pool.entered_unitIf base)
  · exact Pool.namesResult_pure wf (Pool.entered_unitIf base)
  · exact Pool.namesResult_pure wf (by simpa using Pool.entered_ofInt base _)

theorem VecOp.apply_namesResult {op : VecOp} (ran : (op.apply s args).run p = .ok (o, p')) :
    p'.NamesResult o := by
  unfold VecOp.apply at ran
  dsimp only at ran
  split at ran
  case h_1 => exact Pool.namesResult_storeSome wf named (by simp [Contents.values]) ran
  case h_2 =>
    refine Pool.namesResult_storeSome wf named (fun v hv => ?_) ran
    exact known v hv
  case h_3 w x =>
    obtain ⟨xs, found, ran⟩ := PoolM.run_loadVec_bind ran
    refine Pool.namesResult_storeSome wf named (fun v hv => ?_) ran
    rcases List.mem_append.mp hv with hv | hv
    · exact wf _ _ _ found v hv
    · exact known _ (by simp_all)
  case h_4 w i =>
    obtain ⟨xs, found, ran⟩ := PoolM.run_loadVec_bind ran
    obtain ⟨rfl, rfl⟩ := PoolM.run_pure_inv ran
    refine Pool.namesResult_pure wf fun r hr => wf _ _ _ found r ?_
    split at hr
    · exact List.mem_of_getElem? hr
    · cases hr
  case h_5 w =>
    obtain ⟨xs, found, ran⟩ := PoolM.run_loadVec_bind ran
    obtain ⟨rfl, rfl⟩ := PoolM.run_pure_inv ran
    exact Pool.namesResult_pure wf (by simpa using Pool.entered_ofInt base _)
  case h_6 =>
    obtain ⟨rfl, rfl⟩ := PoolM.run_pure_inv ran
    exact Pool.namesResult_pure wf (by simp)

theorem MapOp.apply_namesResult {op : MapOp} (ran : (op.apply s args).run p = .ok (o, p')) :
    p'.NamesResult o := by
  unfold MapOp.apply at ran
  dsimp only at ran
  rw [run_bind, PoolM.run_nameKey] at ran
  dsimp only at ran
  split at ran
  case h_1 => exact Pool.namesResult_storeSome wf named (by simp [Contents.values]) ran
  case h_2 m k v =>
    obtain ⟨xs, found, ran⟩ := PoolM.run_loadMap_bind ran
    refine Pool.namesResult_storeSome wf named (fun u hu => ?_) ran
    rcases mem_values_insertBinding hu with rfl | rfl | hu
    · exact known _ (by simp)
    · exact known _ (by simp)
    · exact wf _ _ _ found u hu
  case h_3 m k =>
    obtain ⟨xs, found, ran⟩ := PoolM.run_loadMap_bind ran
    obtain ⟨rfl, rfl⟩ := PoolM.run_pure_inv ran
    exact Pool.namesResult_pure wf fun r hr => wf _ _ _ found r (mem_values_of_lookup hr)
  case h_6 m k =>
    obtain ⟨xs, found, ran⟩ := PoolM.run_loadMap_bind ran
    refine Pool.namesResult_storeSome wf named (fun u hu => ?_) ran
    refine wf _ _ _ found u ?_
    simp only [Contents.values, List.mem_flatMap] at hu ⊢
    obtain ⟨kv, hkv, hu⟩ := hu
    exact ⟨kv, (List.mem_filter.mp hkv).1, hu⟩
  case h_8 =>
    obtain ⟨rfl, rfl⟩ := PoolM.run_pure_inv ran
    exact Pool.namesResult_pure wf (by simp)
  all_goals
    obtain ⟨xs, found, ran⟩ := PoolM.run_loadMap_bind ran
    obtain ⟨rfl, rfl⟩ := PoolM.run_pure_inv ran
  · exact Pool.namesResult_pure wf (Pool.entered_unitIf base)
  · exact Pool.namesResult_pure wf (Pool.entered_unitIf base)
  · exact Pool.namesResult_pure wf (by simpa using Pool.entered_ofInt base _)

end NamesResult

theorem BoolOp.apply_sort {op : BoolOp} {args : List Value} {r : Value}
    (h : op.apply args = some r) : r.sort ∈ baseSortNames := by
  unfold BoolOp.apply at h
  split at h <;> simp only [Option.some.injEq, reduceCtorEq] at h <;>
    simp [← h, Value.ofBool, baseSortNames, SortInfo.name]

/-- A primitive that leaves the tables alone and answers with a base value or
one of its arguments names its result. -/
theorem Pool.namesResult_of_result {p p' : Pool} {args : List Value} {o : Option Value}
    (base : ∀ n ∈ baseSortNames, p.Entered n) (known : ∀ v ∈ args, p.Entered v.sort)
    (wf : p.ContentsEntered) (grows : p.Grows p')
    (result : p'.tables = p.tables ∧ ∀ r, o = some r → r.sort ∈ baseSortNames ∨ r ∈ args) :
    p'.NamesResult o := by
  refine ⟨wf.grow grows result.1, fun r hr => ?_⟩
  rcases result.2 r hr with hr | hr
  · exact (base _ hr).grow grows
  · exact (known r hr).grow grows

/-- **A primitive names the sort of its result**, and keeps every value
inside a container named, once its arguments' sorts are named. -/
theorem Prim.applyPure_namesResult (prim : Prim) (args : List Value) {pool pool' : Pool}
    {o : Option Value} (base : ∀ n ∈ baseSortNames, pool.Entered n) (hosted : prim.HostedIn pool)
    (known : ∀ v ∈ args, pool.Entered v.sort) (wf : pool.ContentsEntered)
    (ran : (prim.applyPure args).run pool = .ok (o, pool')) : pool'.NamesResult o := by
  have grows := run_grows ran
  cases prim
  case notEqual =>
    dsimp only [Prim.applyPure] at ran
    split at ran <;> obtain ⟨rfl, rfl⟩ := PoolM.run_pure_inv ran
    · exact Pool.namesResult_pure wf (Pool.entered_unitIf base)
    · exact Pool.namesResult_pure wf (by simp)
  case bool op =>
    obtain ⟨rfl, rfl⟩ := PoolM.run_pure_inv ran
    exact Pool.namesResult_pure wf fun r hr => base _ (BoolOp.apply_sort hr)
  case fn s op =>
    obtain ⟨rfl, rfl⟩ := PoolM.run_pure_inv ran
    exact Pool.namesResult_pure wf (by simp)
  case str op => exact Pool.namesResult_of_result base known wf grows (StrOp.apply_result ran)
  case int op => exact Pool.namesResult_of_result base known wf grows (IntOp.apply_result ran)
  case float op => exact Pool.namesResult_of_result base known wf grows (FloatOp.apply_result ran)
  case rat op => exact Pool.namesResult_of_result base known wf grows (RatOp.apply_result ran)
  case set s op => exact SetOp.apply_namesResult base hosted.2 known wf ran
  case vec s op => exact VecOp.apply_namesResult base hosted.2 known wf ran
  case map s op => exact MapOp.apply_namesResult base hosted.2 known wf ran

/-! ### Literals -/

theorem Literal.toValue_settled (l : Literal) : l.toValue.Settled := by
  cases l
  case string s => exact settled_string s
  all_goals exact settled_pure _

/-- A literal's value has a base sort, and interning it leaves the tables alone. -/
theorem Literal.toValue_result {l : Literal} {p p' : Pool} {x : Value}
    (ran : l.toValue.run p = .ok (x, p')) : p'.tables = p.tables ∧ x.sort ∈ baseSortNames := by
  cases l <;>
    simp only [Literal.toValue, run_pure, PoolM.string, run_grow, Except.ok.injEq,
      Prod.mk.injEq] at ran <;>
    obtain ⟨rfl, rfl⟩ := ran <;>
    simp [baseSortNames, SortInfo.name, Value.ofInt, Value.ofFloatBits, Value.ofBool, Value.unit]

end Saturate
