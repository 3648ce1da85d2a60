import Mathlib.Data.Finmap
import Saturate.Proofs.Table.Index

/-!
# A table is a finite map

Seen through its lookups, a table is a finite map from input tuples to rows
(`RowMap`): its append-only entries, stale marks, offset index and stale count
are how it represents that map. Each operation of a table (`Table.Op`: a
merging write, a removal, a subsumption, a rehash) acts on the map as the map
operation `Table.Op.model`, and a table that operations reach from the empty
one, each write on time (`Table.Replays`), shows exactly the map the same
operations reach:

* `Table.Replays.refines_finite_map` — lookups give the map's rows, the live
  rows are as many as its keys, iteration meets each key once in timestamp
  order, the stale count is exact; a write adds no entry exactly when it
  changes neither output nor subsumption, only a removal clears a subsumed
  row, and a rehash changes none of it.

The representation is kept by three facts (`Table.Tidy`): the index points at
the live entries, the entries are in timestamp order, and `stale` counts the
stale entries. With them every observation is read off the lookups
(`Table.Tidy.refines`), so each operation needs only its lookup lemma.
-/

namespace Saturate

/-- A finite map from input tuples to rows. -/
abbrev RowMap := Finmap fun _ : List Value => RowOutput

/-- A write of `value`, subsumed or not, changes neither the output nor the
subsumption of the row `prev`. -/
def RowOutput.Unchanged (prev : RowOutput) (value : Value) (subsumed : Bool) : Prop :=
  value = prev.value ∧ (subsumed || prev.subsumed) = prev.subsumed

instance (prev : RowOutput) (value : Value) (subsumed : Bool) :
    Decidable (prev.Unchanged value subsumed) :=
  inferInstanceAs (Decidable (_ ∧ _))

/-- The row a write of `value` at `ts` leaves where the row was `prev`: the
old row when the write changes nothing, else the new output at `ts`, subsumed
when the write or the old row is. -/
def RowOutput.written (prev : Option RowOutput) (value : Value) (ts : Nat) (subsumed : Bool) :
    RowOutput :=
  match prev with
  | some p => if p.Unchanged value subsumed then p else ⟨value, ts, subsumed || p.subsumed⟩
  | none => ⟨value, ts, subsumed⟩

/-- The condition a write tests, read as `RowOutput.Unchanged`. -/
theorem RowOutput.unchanged_iff (p : RowOutput) (v : Value) (b : Bool) :
    (decide (v = p.value) && decide ((b || p.subsumed) = p.subsumed)) = true ↔ p.Unchanged v b := by
  rw [Bool.and_eq_true, decide_eq_true_eq, decide_eq_true_eq]
  rfl

/-- A subsumption that acts writes the row's output at its time, subsumed. -/
theorem RowOutput.written_subsume {out : RowOutput} (fresh : out.subsumed = false) (ts : Nat) :
    RowOutput.written (some out) out.value ts true = ⟨out.value, ts, true⟩ := by
  simp [RowOutput.written, RowOutput.Unchanged, fresh]

/-- An operation on a table. A write merges: `merge` sees the previous
output, if there is one, and gives the output written; an insert is a write
whose merge ignores it. -/
inductive Table.Op where
  | write (inputs : List Value) (ts : Nat) (subsumed : Bool) (merge : Option Value → Value)
  | remove (inputs : List Value) (ts : Nat)
  | subsume (inputs : List Value) (ts : Nat)
  | rehash

namespace Table.Op

/-- Run an operation on a table. -/
def run : Op → Table → Table
  | .write k ts b merge, t => t.put k (merge ((t.get? k).map (·.value))) ts b
  | .remove k ts, t => (t.remove k ts).1
  | .subsume k ts, t => (t.subsume k ts).1
  | .rehash, t => t.rehash

/-- The operation on the map of rows. -/
def model : Op → RowMap → RowMap
  | .write k ts b merge, m =>
    m.insert k (RowOutput.written (m.lookup k) (merge ((m.lookup k).map (·.value))) ts b)
  | .remove k _, m => m.erase k
  | .subsume k ts, m =>
    match m.lookup k with
    | some out => if out.subsumed then m else m.insert k ⟨out.value, ts, true⟩
    | none => m
  | .rehash, m => m

/-- A write is never at a time before the table's latest: the assertion a
merging write makes, also when a subsumption writes. -/
def OnTime : Op → Table → Prop
  | .write _ ts _ _, t => t.maxTimestamp ≤ ts
  | .subsume k ts, t => (t.subsume k ts).2 = true → t.maxTimestamp ≤ ts
  | .remove _ _, _ => True
  | .rehash, _ => True

/-- The operation removes the row for `k`. -/
def Removes : Op → List Value → Prop
  | .remove k' _, k => k' = k
  | _, _ => False

end Table.Op

/-- The tables and maps that the same operations reach from the empty ones,
each write on time. -/
inductive Table.Replays : Table → RowMap → Prop
  | empty : Replays Table.empty ∅
  | step {t : Table} {m : RowMap} (prev : Replays t m) (op : Table.Op) (onTime : op.OnTime t) :
      Replays (op.run t) (op.model m)

namespace Table

/-- The number of stale entries. -/
def staleCount (t : Table) : Nat := t.entries.toList.countP (!·.live)

/-- What a table shows of a map: lookups give the map's rows; the live rows
are as many as its keys; iteration over all live rows meets each key once,
with the map's row, in timestamp order; `stale` counts the stale entries. -/
structure Refines (t : Table) (m : RowMap) : Prop where
  get : ∀ k, t.get? k = m.lookup k
  numLive : t.numLive = m.keys.card
  once : ((t.rows true).map (·.2.inputs)).Nodup
  rows : ∀ k out, (∃ i e, (i, e) ∈ t.rows true ∧ e.inputs = k ∧ e.output = out) ↔ m.lookup k = some out
  sorted : ((t.rows true).map (·.2.output.timestamp)).Pairwise (· ≤ ·)
  stale : t.stale = t.staleCount

/-- The representation invariant: the index points at the live entries, the
entries are in timestamp order up to `maxTimestamp`, and `stale` counts the
stale ones. -/
structure Tidy (t : Table) : Prop where
  indexed : t.Indexed
  dated : t.Dated t.maxTimestamp
  counted : t.stale = t.staleCount

/-! ### Lookups after each operation -/

/-- A write for `k` leaves the row `RowOutput.written` computes from the old one. -/
theorem get?_put_self_eq {t : Table} (ix : t.Indexed) (k : List Value) (v : Value) (ts : Nat)
    (b : Bool) : (t.put k v ts b).get? k = some (RowOutput.written (t.get? k) v ts b) := by
  unfold put
  split
  · rename_i i at_k
    obtain ⟨e, entry, _, _⟩ := ix.sound k i at_k
    have old : t.get? k = some e.output := by simp [get?_eq, at_k, entry]
    simp only [entry, Option.map_some, Option.getD_some, old, RowOutput.written]
    by_cases same : e.output.Unchanged v b
    · rw [if_pos ((RowOutput.unchanged_iff _ _ _).mpr same), if_pos same, old]
    · rw [if_neg (mt (RowOutput.unchanged_iff _ _ _).mp same), if_neg same]
      exact get?_append_self _ _ _
  · rename_i absent
    have old : t.get? k = none := by simp [get?_eq, absent]
    rw [old]
    exact get?_append_self _ _ _

/-- After a removal of `k` there is no row for `k`. -/
theorem get?_remove_self (t : Table) (k : List Value) (ts : Nat) : (t.remove k ts).1.get? k = none := by
  unfold remove
  split
  · simp [get?_eq, offset?_eq]
  · rename_i absent
    simp [get?_eq, absent]

/-! ### The representation invariant -/

@[simp] theorem stale_append (t : Table) (k : List Value) (out : RowOutput) :
    (t.append k out).stale = t.stale := rfl

@[simp] theorem stale_markStale (t : Table) (i : Nat) : (t.markStale i).stale = t.stale + 1 := rfl

theorem Dated.self {now : Nat} {t : Table} (h : t.Dated now) : t.Dated t.maxTimestamp :=
  ⟨h.sorted, h.bounded, Nat.le_refl _⟩

/-- A removal at any time keeps a table dated by its own latest time. -/
theorem Dated.remove {t : Table} (h : t.Dated t.maxTimestamp) (k : List Value) (ts : Nat) :
    (t.remove k ts).1.Dated (t.remove k ts).1.maxTimestamp := by
  rcases remove_cases t k ts with same | ⟨i, entries, maxTs⟩
  · rwa [same]
  · have stale := h.markStale i
    refine ⟨by rw [entries]; exact stale.sorted, fun e mem => ?_, Nat.le_refl _⟩
    rw [entries] at mem
    rw [maxTs]
    exact Nat.le_trans (stale.bounded e mem) (Nat.le_max_left _ _)

/-- A write on time keeps a table dated by its own latest time. -/
theorem Dated.put {t : Table} (h : t.Dated t.maxTimestamp) {ts : Nat} (onTime : t.maxTimestamp ≤ ts)
    (k : List Value) (v : Value) (b : Bool) :
    (t.put k v ts b).Dated (t.put k v ts b).maxTimestamp :=
  (Step.dated (.put t k v b) (h.mono onTime)).self

@[simp] theorem staleCount_append (t : Table) (k : List Value) (out : RowOutput) :
    (t.append k out).staleCount = t.staleCount := by
  simp [staleCount]

/-- Marking a live entry stale adds one stale entry. -/
theorem staleCount_markStale {t : Table} {i : Nat} {e : Entry} (entry : t.entries[i]? = some e)
    (live : e.live = true) : (t.markStale i).staleCount = t.staleCount + 1 := by
  have lt : i < t.entries.toList.length := by simpa using (Array.getElem?_eq_some_iff.mp entry).1
  obtain ⟨l₁, a, l₂, split, len, modified⟩ :=
    List.exists_of_modify (fun e : Entry => { e with live := false }) lt
  have at_i : a = e := by
    rw [← Array.getElem?_toList, split, List.getElem?_append_right (by omega), len, Nat.sub_self]
      at entry
    simpa using entry
  simp only [staleCount, markStale, Array.toList_modify]
  rw [modified, split, List.countP_append, List.countP_append, List.countP_cons, List.countP_cons,
    at_i, live]
  simp
  omega

/-- A subsumption changes nothing when there is no row or the row is
subsumed already, and else writes the row's output again, subsumed. -/
theorem subsume_cases (t : Table) (k : List Value) (ts : Nat) :
    ((t.get? k).all (·.subsumed) ∧ t.subsume k ts = (t, false)) ∨ ∃ out, t.get? k = some out ∧
      out.subsumed = false ∧ t.subsume k ts = (t.put k out.value ts true, true) := by
  unfold subsume
  split
  · rename_i out found
    split
    · rename_i kept
      exact .inl ⟨by simp [found, kept], rfl⟩
    · rename_i fresh
      exact .inr ⟨out, found, by simpa using fresh, rfl⟩
  · rename_i absent
    exact .inl ⟨by simp [absent], rfl⟩

theorem Tidy.put {t : Table} (h : t.Tidy) {ts : Nat} (onTime : t.maxTimestamp ≤ ts) (k : List Value)
    (v : Value) (b : Bool) : (t.put k v ts b).Tidy := by
  refine ⟨put_indexed h.indexed k v ts b, h.dated.put onTime k v b, ?_⟩
  -- a write marks at most the live entry for `k` stale and appends at most one live entry
  unfold Table.put
  split
  · rename_i i at_k
    obtain ⟨e, entry, live, _⟩ := h.indexed.sound k i at_k
    dsimp only
    split
    · exact h.counted
    · rw [stale_append, stale_markStale, staleCount_append, staleCount_markStale entry live, h.counted]
  · rw [stale_append, staleCount_append, h.counted]

theorem Tidy.remove {t : Table} (h : t.Tidy) (k : List Value) (ts : Nat) : (t.remove k ts).1.Tidy := by
  refine ⟨remove_indexed h.indexed k ts, h.dated.remove k ts, ?_⟩
  unfold Table.remove
  split
  · rename_i i at_k
    obtain ⟨e, entry, live, _⟩ := h.indexed.sound k i at_k
    show (t.markStale i).stale = (t.markStale i).staleCount
    rw [stale_markStale, staleCount_markStale entry live, h.counted]
  · exact h.counted

theorem Tidy.rehash {t : Table} (h : t.Tidy) : t.rehash.Tidy := by
  refine ⟨rehash_indexed h.indexed, Step.dated (.rehash t) h.dated, ?_⟩
  -- no stale entry is left, and the count starts again from zero
  show 0 = _
  rw [staleCount, rehash_entries, Array.toList_filter]
  exact (List.countP_eq_zero.mpr fun e mem => by simp [(List.mem_filter.mp mem).2]).symm

theorem Op.tidy_run {t : Table} (h : t.Tidy) (op : Op) (onTime : op.OnTime t) : (op.run t).Tidy := by
  cases op with
  | write k ts b merge => exact h.put onTime k _ b
  | remove k ts => exact h.remove k ts
  | subsume k ts =>
    rcases subsume_cases t k ts with ⟨_, same⟩ | ⟨out, _, _, acts⟩
    · simp only [run, same]
      exact h
    · simp only [run, acts]
      exact h.put (onTime (by rw [acts])) k out.value true
  | rehash => exact h.rehash

/-! ### Each operation acts on the map -/

theorem Op.get?_run {t : Table} {m : RowMap} (ix : t.Indexed) (agree : ∀ k, t.get? k = m.lookup k)
    (op : Op) (k : List Value) : (op.run t).get? k = (op.model m).lookup k := by
  cases op with
  | write k' ts b merge =>
    simp only [run, model]
    by_cases same : k' = k
    · subst same
      rw [get?_put_self_eq ix, Finmap.lookup_insert, agree]
    · rw [get?_put_of_ne ix same, Finmap.lookup_insert_of_ne _ (Ne.symm same), agree]
  | remove k' ts =>
    simp only [run, model]
    by_cases same : k' = k
    · subst same
      rw [get?_remove_self, Finmap.lookup_erase]
    · rw [get?_remove_of_ne ix same, Finmap.lookup_erase_ne (Ne.symm same), agree]
  | subsume k' ts =>
    simp only [run, model]
    -- the table and the map look at the same row for `k'`
    rcases subsume_cases t k' ts with ⟨kept, same⟩ | ⟨out, found, fresh, acts⟩
    · rw [same]
      rw [agree] at kept
      rcases at_k' : m.lookup k' with _ | out
      · exact agree k
      · rw [at_k', Option.all_some] at kept
        simp only [kept, if_true]
        exact agree k
    · rw [acts]
      rw [agree] at found
      simp only [found, fresh, Bool.false_eq_true, if_false]
      by_cases same : k' = k
      · subst same
        rw [get?_put_self_eq ix, Finmap.lookup_insert, agree, found, RowOutput.written_subsume fresh]
      · rw [get?_put_of_ne ix same, Finmap.lookup_insert_of_ne _ (Ne.symm same), agree]
  | rehash => exact (get?_rehash ix k).trans (agree k)

/-! ### Observations read off the lookups -/

/-- In an indexed table the inputs with a row are the keys of the index. -/
theorem Indexed.isSome_get?_iff {t : Table} (ix : t.Indexed) (k : List Value) :
    (t.get? k).isSome ↔ k ∈ t.index := by
  rw [← Std.HashMap.isSome_getElem?_iff_mem, ← offset?_eq, get?_eq]
  rcases at_k : t.offset? k with _ | i
  · simp
  · obtain ⟨e, entry, _⟩ := ix.sound k i at_k
    simp [entry]

theorem Indexed.numLive_eq_card {t : Table} (ix : t.Indexed) {m : RowMap}
    (agree : ∀ k, t.get? k = m.lookup k) : t.numLive = m.keys.card := by
  have keys : m.keys = t.index.keys.toFinset := by
    ext k
    rw [Finmap.mem_keys, ← Finmap.lookup_isSome, ← agree, List.mem_toFinset, Std.HashMap.mem_keys,
      ix.isSome_get?_iff]
  rw [keys, List.toFinset_card_of_nodup Std.HashMap.nodup_keys, Std.HashMap.length_keys]
  rfl

/-- Iteration over all live rows goes over the live entries in order. -/
theorem rows_true_entries (t : Table) : (t.rows true).map (·.2) = t.entries.toList.filter (·.live) := by
  unfold rows
  generalize t.entries.toList = l
  -- the offsets count from any start
  generalize 0 = n
  induction l generalizing n with
  | nil => rfl
  | cons e es ih =>
    rw [List.zipIdx_cons, List.filterMap_cons, List.filter_cons]
    cases live : e.live
    · simp only [live, Bool.false_and, Bool.false_eq_true, if_false]
      exact ih (n + 1)
    · simp only [live, Bool.true_or, Bool.and_self, if_true, List.map_cons]
      exact congrArg (e :: ·) (ih (n + 1))

theorem Indexed.exists_row_iff {t : Table} (ix : t.Indexed) {k : List Value} {out : RowOutput} :
    (∃ i e, (i, e) ∈ t.rows true ∧ e.inputs = k ∧ e.output = out) ↔ t.get? k = some out := by
  constructor
  · rintro ⟨i, e, mem, rfl, rfl⟩
    obtain ⟨entry, live, _⟩ := mem_rows_iff.mp mem
    simp [get?_eq, ix.complete i e entry live, entry]
  · intro found
    rw [get?_eq] at found
    obtain ⟨i, at_k, entry⟩ := Option.bind_eq_some_iff.mp found
    obtain ⟨e, at_i, rfl⟩ := Option.map_eq_some_iff.mp entry
    obtain ⟨e', at_i', live, inputs⟩ := ix.sound k i at_k
    rw [at_i] at at_i'
    cases at_i'
    exact ⟨i, e, mem_rows_iff.mpr ⟨at_i, live, .inl rfl⟩, inputs, rfl⟩

/-- A tidy table shows the map its lookups give. -/
theorem Tidy.refines {t : Table} (h : t.Tidy) {m : RowMap} (agree : ∀ k, t.get? k = m.lookup k) :
    t.Refines m where
  get := agree
  numLive := h.indexed.numLive_eq_card agree
  once := by
    have inputs := nodup_inputs_of_offsets t.entries.toList t.offset? fun i e found live =>
      h.indexed.complete i e (by rwa [← Array.getElem?_toList]) live
    rw [← rows_true_entries, List.map_map] at inputs
    exact inputs
  rows k out := by rw [h.indexed.exists_row_iff, agree]
  sorted := by
    have sub : List.Sublist ((t.rows true).map (·.2)) t.entries.toList := by
      rw [rows_true_entries]
      exact List.filter_sublist
    have sorted := h.dated.sorted.sublist (sub.map (·.output.timestamp))
    rwa [List.map_map] at sorted
  stale := h.counted

/-! ### Writes, subsumption and rehashing -/

@[simp] theorem size_append (t : Table) (k : List Value) (out : RowOutput) :
    (t.append k out).size = t.size + 1 := by
  simp [size, append]

@[simp] theorem size_markStale (t : Table) (i : Nat) : (t.markStale i).size = t.size := by
  simp [size, markStale]

/-- A write adds no entry and leaves the row for `k` as it was exactly when it
changes neither the row's output nor its subsumption; else it appends one. -/
theorem put_size_get?_iff {t : Table} (ix : t.Indexed) (k : List Value) (v : Value) (ts : Nat)
    (b : Bool) : ((t.put k v ts b).size = t.size ∧ (t.put k v ts b).get? k = t.get? k) ↔
      ∃ prev, t.get? k = some prev ∧ prev.Unchanged v b := by
  unfold Table.put
  split
  · rename_i i at_k
    obtain ⟨e, entry, _, _⟩ := ix.sound k i at_k
    have old : t.get? k = some e.output := by simp [get?_eq, at_k, entry]
    simp only [entry, Option.map_some, Option.getD_some]
    by_cases same : e.output.Unchanged v b
    · rw [if_pos ((RowOutput.unchanged_iff _ _ _).mpr same)]
      exact iff_of_true ⟨rfl, rfl⟩ ⟨e.output, old, same⟩
    · rw [if_neg (mt (RowOutput.unchanged_iff _ _ _).mp same)]
      refine iff_of_false (fun both => by simpa using both.1) ?_
      rintro ⟨prev, found, unchanged⟩
      rw [old, Option.some.injEq] at found
      exact same (found ▸ unchanged)
  · rename_i absent
    refine iff_of_false (fun both => by simpa using both.1) ?_
    rintro ⟨prev, found, _⟩
    simp [get?_eq, absent] at found

/-- Only a removal of `k` ends a subsumed row for `k`. -/
theorem Op.subsumedAt_run {t : Table} (ix : t.Indexed) {k : List Value} (h : t.SubsumedAt k)
    (op : Op) (spares : ¬ op.Removes k) : (op.run t).SubsumedAt k := by
  cases op with
  | write k' ts b merge => exact h.put ix k' _ ts b
  | remove k' ts => exact h.remove ix spares ts
  | subsume k' ts =>
    rcases subsume_cases t k' ts with ⟨_, same⟩ | ⟨out, _, _, acts⟩
    · simp only [run, same]
      exact h
    · simp only [run, acts]
      exact h.put ix k' out.value ts true
  | rehash => exact h.rehash ix

/-- A rehash iterates over the same rows in the same order. -/
theorem rows_true_rehash (t : Table) : (t.rehash.rows true).map (·.2) = (t.rows true).map (·.2) := by
  simp [rows_true_entries, List.filter_filter]

/-! ### Replaying operations -/

theorem empty_tidy : Table.empty.Tidy := ⟨empty_indexed, empty_dated 0, rfl⟩

/-- A replayed table is tidy and its lookups are the map's. -/
theorem Replays.tidy {t : Table} {m : RowMap} (h : t.Replays m) :
    t.Tidy ∧ ∀ k, t.get? k = m.lookup k := by
  induction h with
  | empty => exact ⟨empty_tidy, fun k => by simp [get?_eq, offset?_eq, Table.empty]⟩
  | step _ op onTime ih => exact ⟨op.tidy_run ih.1 onTime, op.get?_run ih.1.indexed ih.2⟩

end Table

end Saturate
