import Mathlib.Data.List.Forall2
import Saturate.Proofs.Query.Settle

/-!
Values of a sort, and primitives that do not fault on them.

`Pool.Holds p s v` says that `v` is a value of sort `s` whose contents the
pool holds: a string or rational it has interned, or a set, vector or map
stored in the sort's table whose elements are values of the element sorts.
A primitive reads a string, a rational or a container only through such a
value, so applied to values of the sorts its signature admits it never
faults.

Its answer is again a value of the output sort, as long as the pool can give
it a number. The numbers of names and of containers have a fixed width, so a
name table shard or a container table can fill up (`Pool.Overflows`); short
of that, interning keeps the pool's indexes in agreement with its contents
(`Pool.Sound`).

* `Pool.Holds.grow`: a value of a sort stays one as the pool grows.
* `Pool.internString_holds`, `Pool.internRat_holds`, `Pool.store_holds`: what
  interning gives back is a value of its sort, in a sound pool.
* `Prim.applyPure_holds`: a primitive that a sort registers, applied to
  values of sorts its signature admits, answers without a fault; unless the
  pool overflows, the answer is a value of the output sort.
-/

namespace Saturate

/-! ### Values of a sort -/

namespace Pool

/-- `v` is a value of sort `s` whose contents `p` holds. -/
def Holds (p : Pool) : SortInfo → Value → Prop
  | .string, v => v.sort = "String" ∧ (p.string? v.bits).isSome
  | .rational, v => v.sort = "Rational" ∧ (p.rat? v.bits).isSome
  | .set n t e, v => v.sort = n ∧ ∃ xs, p.load? t v.bits = some (.set xs) ∧ ∀ x ∈ xs, p.Holds e x
  | .vec n t e, v => v.sort = n ∧ ∃ xs, p.load? t v.bits = some (.vec xs) ∧ ∀ x ∈ xs, p.Holds e x
  | .map n t k w, v =>
    v.sort = n ∧ ∃ xs, p.load? t v.bits = some (.map xs) ∧ ∀ b ∈ xs, p.Holds k b.1 ∧ p.Holds w b.2
  | s, v => v.sort = s.name

theorem Holds.sort {p : Pool} {s : SortInfo} {v : Value} (h : p.Holds s v) : v.sort = s.name := by
  cases s <;> simp only [Holds] at h <;> first | exact h | exact h.1

/-- A value of a sort stays one as the pool grows. -/
theorem Holds.grow {p q : Pool} (grows : p.Grows q) : ∀ {s : SortInfo} {v : Value},
    p.Holds s v → q.Holds s v
  | .string, v, ⟨sort, found⟩ => by
    obtain ⟨text, htext⟩ := Option.isSome_iff_exists.mp found
    exact ⟨sort, by simp [string?, grows.names.names _ _ htext]⟩
  | .rational, v, ⟨sort, found⟩ => by
    obtain ⟨r, hr⟩ := Option.isSome_iff_exists.mp found
    exact ⟨sort, by simp [rat?, grows.rationals _ _ hr]⟩
  | .set _ _ e, v, ⟨sort, xs, found, elems⟩ =>
    ⟨sort, xs, PoolM.Pool.load?_grow found grows, fun x hx => Holds.grow grows (elems x hx)⟩
  | .vec _ _ e, v, ⟨sort, xs, found, elems⟩ =>
    ⟨sort, xs, PoolM.Pool.load?_grow found grows, fun x hx => Holds.grow grows (elems x hx)⟩
  | .map _ _ k w, v, ⟨sort, xs, found, elems⟩ =>
    ⟨sort, xs, PoolM.Pool.load?_grow found grows,
      fun b hb => ⟨Holds.grow grows (elems b hb).1, Holds.grow grows (elems b hb).2⟩⟩
  | .unit, _, h | .bool, _, h | .i64, _, h | .f64, _, h | .eq _, _, h | .func .., _, h => h

theorem holds_unit {p : Pool} {v : Value} : p.Holds .unit v ↔ v.sort = "Unit" := Iff.rfl
theorem holds_bool {p : Pool} {v : Value} : p.Holds .bool v ↔ v.sort = "bool" := Iff.rfl
theorem holds_i64 {p : Pool} {v : Value} : p.Holds .i64 v ↔ v.sort = "i64" := Iff.rfl
theorem holds_f64 {p : Pool} {v : Value} : p.Holds .f64 v ↔ v.sort = "f64" := Iff.rfl

end Pool

/-! ### Sound pools -/

/-- Every number the table has given out names its name again, and the table
has its sixteen shards. -/
structure NameTable.Sound (t : NameTable) : Prop where
  shards : t.shards.size = 16
  names : ∀ s n, t.numbers[s]? = some n → t.name? n = some s

theorem shardSpan_eq : shardSpan = 268435456 := rfl

theorem NameTable.number_toNat {k pos : Nat} (hk : k < 16) (room : pos + 1 < shardSpan) :
    (number k pos).toUInt32.toNat = k * shardSpan + pos + 1 := by
  rw [shardSpan_eq] at room ⊢
  simp [number, shardSpan_eq]
  omega

/-- The number a new name gets names it, while its shard has room. -/
theorem NameTable.name?_number {shards : Array (Array String)} (numbers : Std.HashMap String UInt64)
    {k : Nat} (hk : k < 16) (present : k < shards.size)
    (room : (shards[k]?.getD #[]).size + 1 < shardSpan) (s : String) :
    name? ⟨shards.modify k (·.push s), numbers⟩ (number k (shards[k]?.getD #[]).size) = some s := by
  have span : 0 < shardSpan := by rw [shardSpan_eq]; omega
  simp only [name?, number_toNat hk room, Nat.add_eq_zero_iff, Nat.one_ne_zero, and_false,
    if_false, Nat.add_sub_cancel, Nat.mul_comm k shardSpan]
  rw [Nat.mul_add_div span, Nat.div_eq_of_lt (by omega), Nat.add_zero, Nat.mul_add_mod,
    Nat.mod_eq_of_lt (by omega), Array.getElem?_modify]
  rcases shard : shards[k]? with _ | sh
  · simp [Array.getElem?_eq_getElem present] at shard
  · simp [shard] at room ⊢

theorem shardOf_lt (s : String) : shardOf s < 16 := by
  simp only [shardOf, UInt64.toNat_mod]
  exact Nat.mod_lt _ (by decide)

/-- Entering a name keeps a sound table sound while every shard has room, and
the number it gives names the name. -/
theorem NameTable.intern_sound {t : NameTable} (sound : t.Sound)
    (room : ∀ k : Nat, (t.shards[k]?.getD #[]).size + 1 < shardSpan) (s : String) :
    (t.intern s).1.Sound ∧ (t.intern s).1.name? (t.intern s).2 = some s := by
  unfold intern
  split
  · rename_i n found
    exact ⟨sound, sound.names s n (by simpa using found)⟩
  · obtain ⟨shards, numbers⟩ := t
    have present : shardOf s < shards.size := by
      have := sound.shards
      dsimp only at this
      have := shardOf_lt s
      omega
    have named := name?_number numbers (shardOf_lt s) present (room _) s
    refine ⟨⟨by simpa using sound.shards, fun s' n' found => ?_⟩, named⟩
    rw [Std.HashMap.getElem?_insert] at found
    split at found
    · rename_i same
      cases found
      rw [← eq_of_beq same]
      exact named
    · exact name?_extends_push shards numbers _ s _ _ (sound.names s' n' found)

/-- Entering a name adds at most one name to each shard. -/
theorem NameTable.intern_shard_size (t : NameTable) (s : String) (k : Nat) :
    ((t.intern s).1.shards[k]?.getD #[]).size ≤ (t.shards[k]?.getD #[]).size + 1 := by
  unfold intern
  split
  · exact Nat.le_succ _
  · obtain ⟨shards, numbers⟩ := t
    simp only [Array.getElem?_modify]
    split <;> rcases shards[k]? with _ | sh <;> simp

/-- Entering names in order keeps a sound table sound while every shard has
room for all of them. -/
theorem NameTable.internAll_sound : ∀ {t : NameTable} (xs : List String), t.Sound →
    (∀ k : Nat, (t.shards[k]?.getD #[]).size + xs.length < shardSpan) → (t.internAll xs).Sound
  | _, [], sound, _ => sound
  | t, x :: xs, sound, room => by
    have first := (t.intern_sound sound (fun k => by have := room k; simp at this; omega) x).1
    refine internAll_sound (t := (t.intern x).1) xs first fun k => ?_
    have := room k
    have := t.intern_shard_size x k
    simp only [List.length_cons] at *
    omega

/-- A name entered along the way keeps its number. -/
theorem NameTable.internAll_numbers : ∀ {t : NameTable} {xs : List String} {s : String}, s ∈ xs →
    ∃ n, (t.internAll xs).numbers[s]? = some n
  | t, x :: xs, s, mem => by
    rcases List.mem_cons.mp mem with rfl | mem
    · exact ⟨_, ((t.intern s).1.internAll_grows xs).numbers s _ (t.intern_numbers s)⟩
    · exact internAll_numbers (t := (t.intern x).1) mem

/-- The names a session starts with make a sound table. -/
theorem NameTable.initial_sound : NameTable.initial.Sound := by
  refine internAll_sound builtins ⟨by simp [empty], by simp [empty]⟩ fun k => ?_
  -- every shard starts empty, and the names fit in one shard many times over
  have fresh : (empty.shards[k]?.getD #[]).size = 0 := by
    simp only [empty, Array.getElem?_replicate]
    split <;> rfl
  rw [fresh, shardSpan_eq]
  simp [builtins]

namespace Pool

/-- The indexes of a pool agree with what it holds: a name's number names it,
a rational's index is in range, and a container's index holds it. -/
structure Sound (p : Pool) : Prop where
  names : p.names.Sound
  rationals : ∀ (key : Int × Nat) (i : Nat), p.rationalIndex[key]? = some i → i < p.rationals.size
  tables : ∀ (t : Nat) (a : InternTable), p.tables[t]? = some a →
    ∀ (c : Contents) (i : Nat), a.index[c]? = some i → a.items[i]? = some c

/-- The pool a session starts with is sound. -/
theorem sound_initial : ({} : Pool).Sound := by
  -- read the fields off the pool first: its name table is not unfolded
  refine ⟨?_, fun key i found => ?_, fun t a found => ?_⟩ <;> dsimp only at *
  · exact NameTable.initial_sound
  · simp at found
  · simp at found

/-- The pool a session starts with has entered the names it declares. -/
theorem entered_initial {s : String} (mem : s ∈ NameTable.builtins) : ({} : Pool).Entered s := by
  unfold Entered
  dsimp only
  exact NameTable.internAll_numbers mem

/-- Some name shard or container table has no number left to give. -/
def Overflows (p : Pool) : Prop :=
  (∃ k : Nat, shardSpan ≤ (p.names.shards[k]?.getD #[]).size + 1) ∨
    ∃ (t : Nat) (a : InternTable), p.tables[t]? = some a ∧ Nat.pow 2 64 ≤ a.items.size

theorem room_of_not_overflows {p : Pool} (room : ¬ p.Overflows) (k : Nat) :
    (p.names.shards[k]?.getD #[]).size + 1 < shardSpan :=
  Nat.lt_of_not_le fun full => room (.inl ⟨k, full⟩)

theorem items_lt_of_not_overflows {p : Pool} (room : ¬ p.Overflows) {t : Nat} {a : InternTable}
    (found : p.tables[t]? = some a) : a.items.size < Nat.pow 2 64 :=
  Nat.lt_of_not_le fun full => room (.inr ⟨t, a, found, full⟩)

theorem internString_eq (p : Pool) (s : String) :
    p.internString s = ({ p with names := (p.names.intern s).1 }, ⟨"String", (p.names.intern s).2⟩) :=
  rfl

/-- **Interning a string** keeps a pool that has room sound, and gives a
string value. -/
theorem internString_holds {p : Pool} (sound : p.Sound) (room : ¬ p.Overflows) (s : String) :
    (p.internString s).1.Sound ∧ (p.internString s).1.Holds .string (p.internString s).2 := by
  obtain ⟨names, named⟩ := p.names.intern_sound sound.names (room_of_not_overflows room) s
  rw [internString_eq]
  exact ⟨⟨names, sound.rationals, sound.tables⟩, rfl, by simp [string?, named]⟩

/-- **Interning a rational** keeps a sound pool sound, and gives a rational
value. An index past the 64-bit range wraps, but still lands on a rational. -/
theorem internRat_holds {p : Pool} (sound : p.Sound) (r : Rat) :
    (p.internRat r).1.Sound ∧ (p.internRat r).1.Holds .rational (p.internRat r).2 := by
  unfold internRat
  split
  · rename_i i found
    have lt := sound.rationals _ i (by simpa using found)
    refine ⟨sound, rfl, ?_⟩
    simp only [rat?, UInt64.toNat_ofNat', Option.isSome_iff_exists]
    exact ⟨_, Array.getElem?_eq_getElem (Nat.lt_of_le_of_lt (Nat.mod_le _ _) lt)⟩
  · refine ⟨⟨sound.names, fun key i found => ?_, sound.tables⟩, rfl, ?_⟩
    · rw [Std.HashMap.getElem?_insert] at found
      split at found
      · cases found
        simp
      · have := sound.rationals key i found
        simp only [Array.size_push]
        omega
    · simp only [rat?, UInt64.toNat_ofNat', Option.isSome_iff_exists]
      exact ⟨_, Array.getElem?_eq_getElem (by simp; omega)⟩

/-- **Storing contents** in a table that has room keeps a sound pool sound,
and gives a value of the sort that loads them back. -/
theorem store_holds {p : Pool} (sound : p.Sound) {table : Nat} {a : InternTable}
    (found : p.tables[table]? = some a) (room : a.items.size < Nat.pow 2 64) (sort : String)
    (c : Contents) (sorts : List SortInfo) :
    (p.store table sort c sorts).1.Sound ∧
      (p.store table sort c sorts).1.load? table (p.store table sort c sorts).2.bits = some c ∧
      (p.store table sort c sorts).2.sort = sort := by
  unfold store
  simp only [found, Option.getD_some]
  split
  · rename_i i indexed
    have held := sound.tables table a found c i (by simpa using indexed)
    have lt : i < a.items.size := (Array.getElem?_eq_some_iff.mp held).1
    refine ⟨sound, ?_, rfl⟩
    simp only [load?, found, Option.bind_some, InternTable.load?, UInt64.toNat_ofNat']
    rw [Nat.mod_eq_of_lt (by simpa using Nat.lt_trans lt room)]
    exact held
  · rename_i absent
    refine ⟨⟨sound.names, sound.rationals, fun t b held c' i indexed => ?_⟩, ?_, rfl⟩
    · simp only [Array.getElem?_modify] at held
      split at held
      · rename_i same
        subst same
        simp only [found, Option.map_some, Option.some.injEq] at held
        subst held
        simp only [InternTable.store, absent] at indexed ⊢
        rw [Std.HashMap.getElem?_insert] at indexed
        split at indexed
        · rename_i same
          cases indexed
          simp [eq_of_beq same]
        · have old := sound.tables table a found c' i indexed
          have lt := (Array.getElem?_eq_some_iff.mp old).1
          simp [Array.getElem?_push, Nat.ne_of_lt lt, old]
      · exact sound.tables t b held c' i indexed
    · simp only [load?, Array.getElem?_modify, found, Option.map_some,
        InternTable.load?, InternTable.store, absent, UInt64.toNat_ofNat']
      rw [Nat.mod_eq_of_lt (by simpa using room)]
      simp

end Pool

/-! ### Computations that run without a fault -/

namespace PoolM

variable {α β : Type}

/-- `m` runs from `p` without a fault, to an answer and a pool that `post` accepts. -/
def Runs (m : PoolM α) (p : Pool) (post : α → Pool → Prop) : Prop :=
  ∃ a p', m.run p = .ok (a, p') ∧ post a p'

theorem runs_pure (a : α) {p : Pool} {post : α → Pool → Prop} (h : post a p) :
    (pure a : PoolM α).Runs p post :=
  ⟨a, p, rfl, h⟩

theorem Runs.bind {m : PoolM α} {f : α → PoolM β} {p : Pool} {post : β → Pool → Prop}
    (h : m.Runs p fun a q => (f a).Runs q post) : (m >>= f).Runs p post := by
  obtain ⟨a, q, ran, b, r, ran', hb⟩ := h
  exact ⟨b, r, by rw [run_bind, ran]; exact ran', hb⟩

theorem Runs.map {m : PoolM α} {p : Pool} {post : β → Pool → Prop} (f : α → β)
    (h : m.Runs p fun a q => post (f a) q) : (f <$> m).Runs p post := by
  rw [map_eq_pure_bind]
  exact Runs.bind (by obtain ⟨a, q, ran, ha⟩ := h; exact ⟨a, q, ran, runs_pure _ ha⟩)

theorem runs_nameKey {p : Pool} {post : (String → Nat) → Pool → Prop} (h : post p.names.key p) :
    nameKey.Runs p post :=
  ⟨_, p, run_nameKey p, h⟩

theorem runs_loadString_bind {v : Value} {f : String → PoolM β} {p : Pool} {post : β → Pool → Prop}
    (held : p.Holds .string v) (h : ∀ s, (f s).Runs p post) : (loadString v >>= f).Runs p post := by
  obtain ⟨s, found⟩ := Option.isSome_iff_exists.mp held.2
  refine Runs.bind ⟨s, p, ?_, h s⟩
  simp only [loadString, run_bind, run_read, found, run_pure]

theorem runs_loadRat_bind {v : Value} {f : Rat → PoolM β} {p : Pool} {post : β → Pool → Prop}
    (held : p.Holds .rational v) (h : ∀ r, (f r).Runs p post) : (loadRat v >>= f).Runs p post := by
  obtain ⟨r, found⟩ := Option.isSome_iff_exists.mp held.2
  refine Runs.bind ⟨r, p, ?_, h r⟩
  simp only [loadRat, run_bind, run_read, found, run_pure]

theorem runs_mapM_loadString_bind {f : List String → PoolM β} {p : Pool} {post : β → Pool → Prop}
    (h : ∀ ss, (f ss).Runs p post) :
    ∀ {vs : List Value}, (∀ v ∈ vs, p.Holds .string v) → (vs.mapM loadString >>= f).Runs p post
  | [], _ => by simpa using h []
  | v :: vs, held => by
    rw [List.mapM_cons, bind_assoc]
    refine runs_loadString_bind (held v List.mem_cons_self) fun s => ?_
    rw [bind_assoc]
    exact runs_mapM_loadString_bind (fun ss => by simpa using h (s :: ss))
      fun w hw => held w (List.mem_cons_of_mem v hw)

theorem runs_load_bind {table : Nat} {v : Value} {c : Contents} {f : Contents → PoolM β} {p : Pool}
    {post : β → Pool → Prop} (found : p.load? table v.bits = some c) (h : (f c).Runs p post) :
    (load table v >>= f).Runs p post :=
  Runs.bind ⟨c, p, by simp only [load, run_bind, run_read, found, run_pure], h⟩

theorem runs_loadSet_bind {n : String} {t : Nat} {e : SortInfo} {v : Value}
    {f : List Value → PoolM β} {p : Pool} {post : β → Pool → Prop} (held : p.Holds (.set n t e) v)
    (h : ∀ xs, (∀ x ∈ xs, p.Holds e x) → (f xs).Runs p post) :
    (loadSet (.set n t e) v >>= f).Runs p post := by
  obtain ⟨-, xs, found, elems⟩ := held
  rw [loadSet, bind_assoc]
  exact runs_load_bind found (by simpa using h xs elems)

theorem runs_loadVec_bind {n : String} {t : Nat} {e : SortInfo} {v : Value}
    {f : List Value → PoolM β} {p : Pool} {post : β → Pool → Prop} (held : p.Holds (.vec n t e) v)
    (h : ∀ xs, (∀ x ∈ xs, p.Holds e x) → (f xs).Runs p post) :
    (loadVec (.vec n t e) v >>= f).Runs p post := by
  obtain ⟨-, xs, found, elems⟩ := held
  rw [loadVec, bind_assoc]
  exact runs_load_bind found (by simpa using h xs elems)

theorem runs_loadMap_bind {n : String} {t : Nat} {k w : SortInfo} {v : Value}
    {f : List (Value × Value) → PoolM β} {p : Pool} {post : β → Pool → Prop}
    (held : p.Holds (.map n t k w) v)
    (h : ∀ xs, (∀ b ∈ xs, p.Holds k b.1 ∧ p.Holds w b.2) → (f xs).Runs p post) :
    (loadMap (.map n t k w) v >>= f).Runs p post := by
  obtain ⟨-, xs, found, elems⟩ := held
  rw [loadMap, bind_assoc]
  exact runs_load_bind found (by simpa using h xs elems)

/-- Run from `p`, `m` either ends at a sound pool, or on the way reaches a
pool that overflows. -/
def Safe (m : PoolM α) (p : Pool) : Prop :=
  (∃ a q, m.run p = .ok (a, q) ∧ q.Sound) ∨ ∃ Q, p.Grows Q ∧ Q.Overflows

theorem safe_pure (a : α) {p : Pool} (sound : p.Sound) : (pure a : PoolM α).Safe p :=
  .inl ⟨a, p, rfl, sound⟩

theorem Safe.bind {m : PoolM α} {f : α → PoolM β} {p : Pool} (hm : m.Safe p)
    (hf : ∀ a q, m.run p = .ok (a, q) → q.Sound → (f a).Safe q) : (m >>= f).Safe p := by
  rcases hm with ⟨a, q, ran, sound⟩ | ⟨Q, grows, full⟩
  · rcases hf a q ran sound with ⟨b, r, ran', sound'⟩ | ⟨Q, grows, full⟩
    · exact .inl ⟨b, r, by rw [run_bind, ran]; exact ran', sound'⟩
    · exact .inr ⟨Q, (run_grows ran).trans grows, full⟩
  · exact .inr ⟨Q, grows, full⟩

theorem Safe.of_run {m : PoolM α} {f : α → PoolM β} {p q : Pool} {a : α}
    (ran : m.run p = .ok (a, q)) (sound : q.Sound) (h : (f a).Safe q) : (m >>= f).Safe p :=
  Safe.bind (.inl ⟨a, q, ran, sound⟩) fun a' q' ran' _ => by
    rw [ran] at ran'
    cases ran'
    exact h

/-- A fold whose every step is safe from every sound pool grown from the
start is safe. -/
theorem safe_foldlM {f : β → α → PoolM β} {p : Pool} :
    ∀ {xs : List α} {acc : β}, (∀ x ∈ xs, ∀ acc q, p.Grows q → q.Sound → (f acc x).Safe q) →
      p.Sound → (xs.foldlM f acc).Safe p
  | [], acc, _, sound => safe_pure acc sound
  | x :: xs, acc, step, sound => by
    rw [List.foldlM_cons]
    refine (step x List.mem_cons_self acc p (.refl p) sound).bind fun acc' q ran sound' => ?_
    have grows := run_grows ran
    have rest : (xs.foldlM f acc').Safe q := safe_foldlM
      (fun y hy acc r grown => step y (List.mem_cons_of_mem _ hy) acc r (grows.trans grown)) sound'
    rcases rest with done | ⟨Q, grown, full⟩
    · exact .inl done
    · exact .inr ⟨Q, grown, full⟩

end PoolM

open PoolM

/-! ### Signatures -/

/-- Every sort of a list is `all`, or all are one sort when there is no `all`. -/
def Signature.Uniform : Option SortInfo → List SortInfo → Prop
  | some s, xs => ∀ x ∈ xs, x = s
  | none, xs => ∀ x ∈ xs, ∀ y ∈ xs, x = y

/-- The sorts, inputs then output, that a signature admits: what the type
constraints of a primitive ask of its terms. A partial application is typed
by the session, which evaluates it. -/
def Signature.Admits : Signature → List SortInfo → Prop
  | .fixed sorts, ss => ss = sorts
  | .allEqual all len out, ss =>
    (∀ n, len = some n → ss.length = n) ∧
      match out with
      | some o => ∃ ins, ss = ins ++ [o] ∧ Uniform all ins
      | none => Uniform all ss
  | .partialApp _, _ => True

/-- A primitive that some sort registers: the primitives of containers belong
to a container sort of their kind. -/
def Prim.Registered (p : Prim) : Prop := ∃ s : SortInfo, p ∈ s.primitives

theorem Prim.Registered.set {s : SortInfo} {op : SetOp} (h : (Prim.set s op).Registered) :
    ∃ n t e, s = .set n t e := by
  obtain ⟨s', mem⟩ := h
  cases s'
  case set n t e =>
    obtain ⟨_, -, same⟩ := List.mem_map.mp mem
    cases same
    exact ⟨n, t, e, rfl⟩
  all_goals simp [SortInfo.primitives] at mem

theorem Prim.Registered.vec {s : SortInfo} {op : VecOp} (h : (Prim.vec s op).Registered) :
    ∃ n t e, s = .vec n t e := by
  obtain ⟨s', mem⟩ := h
  cases s'
  case vec n t e =>
    obtain ⟨_, -, same⟩ := List.mem_map.mp mem
    cases same
    exact ⟨n, t, e, rfl⟩
  all_goals simp [SortInfo.primitives] at mem

theorem Prim.Registered.map {s : SortInfo} {op : MapOp} (h : (Prim.map s op).Registered) :
    ∃ n t k v, s = .map n t k v := by
  obtain ⟨s', mem⟩ := h
  cases s'
  case map n t k v =>
    obtain ⟨_, -, same⟩ := List.mem_map.mp mem
    cases same
    exact ⟨n, t, k, v, rfl⟩
  all_goals simp [SortInfo.primitives] at mem

theorem eq_of_append_singleton_eq {α : Type} {ins l : List α} {out : α} (h : ins ++ [out] = l) :
    ins = l.dropLast ∧ some out = l.getLast? := by
  subst h
  simp

theorem Signature.admits_fixed {sorts ins : List SortInfo} {out : SortInfo}
    (admits : (Signature.fixed sorts).Admits (ins ++ [out])) :
    ins = sorts.dropLast ∧ some out = sorts.getLast? :=
  eq_of_append_singleton_eq admits

theorem Signature.admits_allEqual_none {s : SortInfo} {len : Option Nat} {out : SortInfo}
    {ins : List SortInfo} (admits : (Signature.allEqual (some s) len none).Admits (ins ++ [out])) :
    out = s ∧ Uniform (some s) ins ∧ ∀ n, len = some n → ins.length + 1 = n := by
  obtain ⟨hlen, uniform⟩ := admits
  refine ⟨uniform out (by simp), fun x hx => uniform x (by simp [hx]), fun n hn => by simpa using hlen n hn⟩

theorem Signature.admits_allEqual {all : Option SortInfo} {len : Option Nat} {o out : SortInfo}
    {ins : List SortInfo} (admits : (Signature.allEqual all len (some o)).Admits (ins ++ [out])) :
    out = o ∧ Uniform all ins ∧ ∀ n, len = some n → ins.length + 1 = n := by
  obtain ⟨hlen, ins', same, uniform⟩ := admits
  obtain ⟨rfl, hout⟩ := List.append_inj' same rfl
  exact ⟨by simpa using hout, uniform, fun n hn => by simpa using hlen n hn⟩

/-- Arguments of sorts that are all `s` are values of `s`. -/
theorem holds_of_uniform {s : SortInfo} {ins : List SortInfo} {args : List Value} {p : Pool}
    (uniform : Signature.Uniform (some s) ins) (held : List.Forall₂ p.Holds ins args) :
    ∀ v ∈ args, p.Holds s v := by
  induction held with
  | nil => simp
  | @cons x v xs vs head _ ih =>
    have hx : x = s := uniform x List.mem_cons_self
    subst hx
    intro w hw
    rcases List.mem_cons.mp hw with rfl | hw
    · exact head
    · exact ih (fun y hy => uniform y (List.mem_cons_of_mem _ hy)) w hw

/-! ### Answers of a primitive -/

/-- What a primitive's answer from `p` should be: unless `p` overflows, the
pool it reaches is sound and the answer is a value of sort `out`. -/
def Pool.Answers (p : Pool) (out : SortInfo) (o : Option Value) (p' : Pool) : Prop :=
  ¬ p.Overflows → p'.Sound ∧ ∀ r, o = some r → p'.Holds out r

theorem Pool.answers_pure {p : Pool} {out : SortInfo} {o : Option Value} (sound : p.Sound)
    (holds : ∀ r, o = some r → p.Holds out r) : (pure o : PoolM (Option Value)).Runs p (p.Answers out) :=
  runs_pure o fun _ => ⟨sound, holds⟩

theorem runs_string {p : Pool} (sound : p.Sound) (s : String) :
    (some <$> PoolM.string s).Runs p (p.Answers .string) := by
  refine Runs.map some ⟨_, _, run_grow _ p, fun room => ?_⟩
  obtain ⟨sound', holds⟩ := p.internString_holds sound room s
  exact ⟨sound', by simpa using holds⟩

theorem runs_rat {p : Pool} (sound : p.Sound) (r : Rat) :
    (some <$> PoolM.rat r).Runs p (p.Answers .rational) := by
  refine Runs.map some ⟨_, _, run_grow _ p, fun _ => ?_⟩
  obtain ⟨sound', holds⟩ := p.internRat_holds sound r
  exact ⟨sound', by simpa using holds⟩

theorem checkedInt_sort {i : Int} {r : Value} (h : checkedInt i = some r) : r.sort = "i64" := by
  simp only [checkedInt, Option.ite_none_right_eq_some, Option.some.injEq] at h
  rw [← h.2]
  rfl

theorem unitIf_sort {b : Bool} {r : Value} (h : unitIf b = some r) : r.sort = "Unit" := by
  simp only [unitIf, Option.ite_none_right_eq_some, Option.some.injEq] at h
  rw [← h.2]
  rfl

/-- Storing contents whose loading back makes a value of `s` answers a value of `s`. -/
theorem runs_store {p : Pool} (sound : p.Sound) {s : SortInfo} {a : InternTable}
    (found : p.tables[s.table]? = some a) (c : Contents)
    (holds : ∀ q v, p.Grows q → v.sort = s.name → q.load? s.table v.bits = some c → q.Holds s v) :
    (some <$> PoolM.store s s.table c []).Runs p (p.Answers s) := by
  refine Runs.map some ⟨_, _, run_grow _ p, fun room => ?_⟩
  obtain ⟨sound', loaded, sort⟩ :=
    p.store_holds sound found (Pool.items_lt_of_not_overflows room found) s.name c []
  exact ⟨sound', fun r hr => by
    cases hr
    exact holds _ _ (p.store_grows _ _ _ _) sort loaded⟩

section Answers

variable {ins : List SortInfo} {out : SortInfo} {args : List Value} {p : Pool}

theorem IntOp.apply_holds {op : IntOp} (admits : (Prim.int op).signature.Admits (ins ++ [out]))
    (held : List.Forall₂ p.Holds ins args) (sound : p.Sound) :
    (op.apply args).Runs p (p.Answers out) := by
  cases op
  case toString =>
    obtain ⟨rfl, hout⟩ := Signature.admits_fixed admits
    cases hout
    rcases held with _ | ⟨-, _ | _⟩
    exact runs_string sound _
  case countMatches =>
    obtain ⟨rfl, uniform, len⟩ := Signature.admits_allEqual admits
    have strings := holds_of_uniform uniform held
    obtain ⟨h, n, rfl⟩ := List.length_eq_two.mp (show args.length = 2 by
      have := held.length_eq
      have := len 3 rfl
      omega)
    simp only [IntOp.apply]
    refine runs_loadString_bind (strings h (by simp)) fun _ => ?_
    refine runs_loadString_bind (strings n (by simp)) fun _ => ?_
    split <;> refine Pool.answers_pure sound fun r hr => ?_
    · cases hr
    · cases hr
      rfl
  -- the rest read the bits of `i64` values and answer at once
  all_goals
    obtain ⟨rfl, hout⟩ := Signature.admits_fixed admits
    simp only [List.getLast?, List.getLast, Option.some.injEq] at hout
    subst hout
    rcases held with _ | ⟨ha, _ | ⟨hb, _ | _⟩⟩
    simp only [IntOp.apply]
    refine Pool.answers_pure sound fun r hr => ?_
    simp only [Pool.holds_i64, Pool.holds_bool, Pool.holds_unit] at *
  all_goals
    (repeat' split at hr) <;> (try cases hr) <;>
      first | rfl | assumption | exact checkedInt_sort hr | exact unitIf_sort hr

theorem FloatOp.apply_holds {op : FloatOp} (admits : (Prim.float op).signature.Admits (ins ++ [out]))
    (held : List.Forall₂ p.Holds ins args) (sound : p.Sound) :
    (op.apply args).Runs p (p.Answers out) := by
  cases op <;> obtain ⟨rfl, hout⟩ := Signature.admits_fixed admits
  case toString =>
    cases hout
    rcases held with _ | ⟨-, _ | _⟩
    exact runs_string sound _
  -- the rest read the bits of their arguments and answer at once
  all_goals
    simp only [List.getLast?, List.getLast, Option.some.injEq] at hout
    subst hout
    rcases held with _ | ⟨ha, _ | ⟨hb, _ | _⟩⟩
    simp only [FloatOp.apply]
    refine Pool.answers_pure sound fun r hr => ?_
    simp only [Pool.holds_i64, Pool.holds_f64, Pool.holds_unit] at *
  all_goals
    (repeat' split at hr) <;> (try cases hr) <;>
      first | rfl | assumption | exact unitIf_sort hr

theorem BoolOp.apply_holds {op : BoolOp} (admits : (Prim.bool op).signature.Admits (ins ++ [out]))
    (held : List.Forall₂ p.Holds ins args) (sound : p.Sound) :
    (pure (op.apply args) : PoolM (Option Value)).Runs p (p.Answers out) := by
  refine Pool.answers_pure sound fun r hr => ?_
  cases op <;> obtain ⟨rfl, hout⟩ := Signature.admits_fixed admits <;>
    simp only [List.getLast?, List.getLast, Option.some.injEq] at hout <;>
    subst hout <;>
    rcases held with _ | ⟨ha, _ | ⟨hb, _ | _⟩⟩ <;>
    simp only [BoolOp.apply, Option.some.injEq] at hr <;>
    rw [← hr] <;>
    rfl

theorem RatOp.apply_holds {op : RatOp} (admits : (Prim.rat op).signature.Admits (ins ++ [out]))
    (held : List.Forall₂ p.Holds ins args) (sound : p.Sound) :
    (op.apply args).Runs p (p.Answers out) := by
  cases op <;> obtain ⟨rfl, hout⟩ := Signature.admits_fixed admits <;>
    simp only [List.getLast?, List.getLast, Option.some.injEq] at hout <;>
    subst hout <;>
    rcases held with _ | ⟨ha, _ | ⟨hb, _ | _⟩⟩ <;>
    simp only [RatOp.apply]
  case make =>
    split
    · exact Pool.answers_pure sound fun r hr => by cases hr
    · exact runs_rat sound _
  -- the rest load their rational arguments first
  case add | sub | mul | min | max =>
    exact runs_loadRat_bind ha fun _ => runs_loadRat_bind hb fun _ => runs_rat sound _
  case neg | abs => exact runs_loadRat_bind ha fun _ => runs_rat sound _
  case div =>
    refine runs_loadRat_bind ha fun _ => runs_loadRat_bind hb fun _ => ?_
    split
    · exact Pool.answers_pure sound fun r hr => by cases hr
    · exact runs_rat sound _
  case lt | gt | le | ge =>
    exact runs_loadRat_bind ha fun _ => runs_loadRat_bind hb fun _ =>
      Pool.answers_pure sound fun r hr => unitIf_sort hr
  case numer | denom =>
    exact runs_loadRat_bind ha fun _ => Pool.answers_pure sound fun r hr => checkedInt_sort hr
  case toFloat =>
    exact runs_loadRat_bind ha fun _ => Pool.answers_pure sound fun r hr => by cases hr; rfl

theorem StrOp.apply_holds {op : StrOp} (admits : (Prim.str op).signature.Admits (ins ++ [out]))
    (held : List.Forall₂ p.Holds ins args) (sound : p.Sound) :
    (op.apply args).Runs p (p.Answers out) := by
  cases op <;> obtain ⟨rfl, uniform, len⟩ := Signature.admits_allEqual_none admits <;>
    have strings := holds_of_uniform uniform held <;> simp only [StrOp.apply]
  case concat => exact runs_mapM_loadString_bind (fun _ => runs_string sound _) strings
  case replace =>
    obtain ⟨a, b, c, rfl⟩ := List.length_eq_three.mp (show args.length = 3 by
      have := held.length_eq
      have := len 4 rfl
      omega)
    exact runs_loadString_bind (strings a (by simp)) fun _ =>
      runs_loadString_bind (strings b (by simp)) fun _ =>
      runs_loadString_bind (strings c (by simp)) fun _ => runs_string sound _

theorem SetOp.apply_holds {n : String} {t : Nat} {e : SortInfo} {op : SetOp}
    (admits : (Prim.set (.set n t e) op).signature.Admits (ins ++ [out]))
    (held : List.Forall₂ p.Holds ins args) (sound : p.Sound) (table : ∃ a, p.tables[t]? = some a) :
    (op.apply (.set n t e) args).Runs p (p.Answers out) := by
  obtain ⟨a, found⟩ := table
  -- a set stored from elements of the element sort is a value of the set sort
  have mk : ∀ xs : List Value, (∀ x ∈ xs, p.Holds e x) →
      (some <$> PoolM.store (.set n t e) t (.set xs) []).Runs p (p.Answers (.set n t e)) :=
    fun xs elems => runs_store (s := .set n t e) sound found _
      fun q v grown sort loaded => ⟨sort, xs, loaded, fun x hx => (elems x hx).grow grown⟩
  unfold SetOp.apply
  refine Runs.bind (runs_nameKey ?_)
  cases op
  case of =>
    obtain ⟨rfl, uniform, -⟩ := Signature.admits_allEqual admits
    exact mk _ fun x hx => holds_of_uniform uniform held x (mem_sortedSet hx)
  all_goals
    obtain ⟨rfl, hout⟩ := Signature.admits_fixed admits
    simp only [List.getLast?, List.getLast, Option.some.injEq] at hout
    subst hout
    rcases held with _ | ⟨ha, _ | ⟨hb, _ | _⟩⟩
    simp only [SortInfo.table]
  case empty => exact mk [] (by simp)
  case insert =>
    exact runs_loadSet_bind ha fun xs elems => mk _ fun x hx => by
      rcases mem_insertSorted hx with rfl | hx
      · exact hb
      · exact elems x hx
  case remove =>
    exact runs_loadSet_bind ha fun xs elems => mk _ fun x hx =>
      elems x (List.mem_of_mem_filter hx)
  case union =>
    exact runs_loadSet_bind hb fun ys elems => runs_loadSet_bind ha fun xs elems' =>
      mk _ fun x hx => by
        rcases mem_foldl_insertSorted hx with hx | hx
        · exact elems x hx
        · exact elems' x hx
  case contains | notContains =>
    exact runs_loadSet_bind ha fun _ _ => Pool.answers_pure sound fun r hr => unitIf_sort hr
  case length =>
    exact runs_loadSet_bind ha fun _ _ => Pool.answers_pure sound fun r hr => by cases hr; rfl

theorem VecOp.apply_holds {n : String} {t : Nat} {e : SortInfo} {op : VecOp}
    (admits : (Prim.vec (.vec n t e) op).signature.Admits (ins ++ [out]))
    (held : List.Forall₂ p.Holds ins args) (sound : p.Sound) (table : ∃ a, p.tables[t]? = some a) :
    (op.apply (.vec n t e) args).Runs p (p.Answers out) := by
  obtain ⟨a, found⟩ := table
  -- a vector stored from elements of the element sort is a value of the vector sort
  have mk : ∀ xs : List Value, (∀ x ∈ xs, p.Holds e x) →
      (some <$> PoolM.store (.vec n t e) t (.vec xs) []).Runs p (p.Answers (.vec n t e)) :=
    fun xs elems => runs_store (s := .vec n t e) sound found _
      fun q v grown sort loaded => ⟨sort, xs, loaded, fun x hx => (elems x hx).grow grown⟩
  unfold VecOp.apply
  cases op
  case of =>
    obtain ⟨rfl, uniform, -⟩ := Signature.admits_allEqual admits
    exact mk _ (holds_of_uniform uniform held)
  all_goals
    obtain ⟨rfl, hout⟩ := Signature.admits_fixed admits
    simp only [List.getLast?, List.getLast, Option.some.injEq] at hout
    subst hout
    rcases held with _ | ⟨ha, _ | ⟨hb, _ | _⟩⟩
    simp only [SortInfo.table]
  case empty => exact mk [] (by simp)
  case push =>
    exact runs_loadVec_bind ha fun xs elems => mk _ fun x hx => by
      rcases List.mem_append.mp hx with hx | hx
      · exact elems x hx
      · rw [List.mem_singleton.mp hx]
        exact hb
  case get =>
    refine runs_loadVec_bind ha fun xs elems => Pool.answers_pure sound fun r hr => ?_
    split at hr
    · exact elems r (List.mem_of_getElem? hr)
    · cases hr
  case length =>
    exact runs_loadVec_bind ha fun _ _ => Pool.answers_pure sound fun r hr => by cases hr; rfl

/-- Inserting a binding whose key and value have some properties into bindings
that have them gives bindings that have them. -/
theorem forall_insertBinding {key : String → Nat} {K V : Value → Prop} {k v : Value} (hk : K k)
    (hv : V v) : ∀ {xs : List (Value × Value)}, (∀ b ∈ xs, K b.1 ∧ V b.2) →
      ∀ b ∈ insertBinding key k v xs, K b.1 ∧ V b.2
  | [], _, b, h => by
    simp only [insertBinding, List.mem_singleton] at h
    subst h
    exact ⟨hk, hv⟩
  | (k', v') :: rest, hxs, b, h => by
    have head := hxs (k', v') List.mem_cons_self
    have tail := fun c hc => hxs c (List.mem_cons_of_mem _ hc)
    simp only [insertBinding] at h
    split at h <;> simp only [List.mem_cons] at h
    · rcases h with rfl | rfl | h
      · exact ⟨hk, hv⟩
      · exact head
      · exact tail b h
    · rcases h with rfl | h
      · exact ⟨head.1, hv⟩
      · exact tail b h
    · rcases h with rfl | h
      · exact head
      · exact forall_insertBinding hk hv tail b h

theorem MapOp.apply_holds {n : String} {t : Nat} {k w : SortInfo} {op : MapOp}
    (admits : (Prim.map (.map n t k w) op).signature.Admits (ins ++ [out]))
    (held : List.Forall₂ p.Holds ins args) (sound : p.Sound) (table : ∃ a, p.tables[t]? = some a) :
    (op.apply (.map n t k w) args).Runs p (p.Answers out) := by
  obtain ⟨a, found⟩ := table
  -- a map stored from bindings of the key and value sorts is a value of the map sort
  have mk : ∀ xs : List (Value × Value), (∀ b ∈ xs, p.Holds k b.1 ∧ p.Holds w b.2) →
      (some <$> PoolM.store (.map n t k w) t (.map xs) []).Runs p (p.Answers (.map n t k w)) :=
    fun xs elems => runs_store (s := .map n t k w) sound found _
      fun q v grown sort loaded =>
        ⟨sort, xs, loaded, fun b hb => ⟨(elems b hb).1.grow grown, (elems b hb).2.grow grown⟩⟩
  unfold MapOp.apply
  refine Runs.bind (runs_nameKey ?_)
  cases op <;> obtain ⟨rfl, hout⟩ := Signature.admits_fixed admits <;>
    simp only [List.getLast?, List.getLast, Option.some.injEq] at hout <;>
    subst hout <;>
    rcases held with _ | ⟨ha, _ | ⟨hb, _ | ⟨hc, _ | _⟩⟩⟩ <;>
    simp only [SortInfo.table]
  case empty => exact mk [] (by simp)
  case insert =>
    exact runs_loadMap_bind ha fun xs elems => mk _ (forall_insertBinding hb hc elems)
  case get =>
    refine runs_loadMap_bind ha fun xs elems => Pool.answers_pure sound fun r hr => ?_
    obtain ⟨b, found, rfl⟩ := Option.map_eq_some_iff.mp hr
    exact (elems b (List.mem_of_find?_eq_some found)).2
  case contains | notContains =>
    exact runs_loadMap_bind ha fun _ _ => Pool.answers_pure sound fun r hr => unitIf_sort hr
  case remove =>
    exact runs_loadMap_bind ha fun xs elems => mk _ fun b hb' => elems b (List.mem_of_mem_filter hb')
  case length =>
    exact runs_loadMap_bind ha fun _ _ => Pool.answers_pure sound fun r hr => by cases hr; rfl

/-- **A primitive does not fault on values of its sorts.** A primitive that a
sort registers, applied to values of input sorts that its signature admits
together with `out`, answers without a fault; unless the pool overflows, the
pool it reaches is sound and the answer is a value of `out`. -/
theorem Prim.applyPure_holds {prim : Prim} (registered : prim.Registered)
    (admits : prim.signature.Admits (ins ++ [out])) (hosted : prim.HostedIn p)
    (held : List.Forall₂ p.Holds ins args) (sound : p.Sound) :
    (prim.applyPure args).Runs p (p.Answers out) := by
  cases prim
  case notEqual =>
    obtain ⟨rfl, -, len⟩ := Signature.admits_allEqual admits
    obtain ⟨a, b, rfl⟩ := List.length_eq_two.mp (show args.length = 2 by
      have := held.length_eq
      have := len 3 rfl
      omega)
    exact Pool.answers_pure sound fun r hr => unitIf_sort hr
  case str op => exact op.apply_holds admits held sound
  case bool op => exact op.apply_holds admits held sound
  case int op => exact op.apply_holds admits held sound
  case float op => exact op.apply_holds admits held sound
  case rat op => exact op.apply_holds admits held sound
  case set s op =>
    obtain ⟨n, t, e, rfl⟩ := registered.set
    exact op.apply_holds admits held sound hosted.1
  case vec s op =>
    obtain ⟨n, t, e, rfl⟩ := registered.vec
    exact op.apply_holds admits held sound hosted.1
  case map s op =>
    obtain ⟨n, t, k, w, rfl⟩ := registered.map
    exact op.apply_holds admits held sound hosted.1
  -- function values are applied by the session, never here
  case fn => exact Pool.answers_pure sound fun r hr => by cases hr

end Answers

end Saturate
