import Mathlib.Logic.Relation
import Saturate.Proofs.Table.Clock

/-!
# Indexed tables and the rows that stay subsumed

A table finds the live row for some inputs through its index. The index is
right when it points at exactly the live entries, each by its inputs
(`Table.Indexed`), and every change of a table keeps it right: a write, a
removal and the dropping of stale entries (`Table.Step.indexed`).

A row can be followed through the changes of its table (`Table.Carry`): a
write or the removal of other inputs leaves it where it is, the removal of
its inputs ends it, and a rebuild re-keys it, removing it and writing it back
under new inputs with its own subsumption. Every change of a table carries
each row somewhere (`Table.Reaches.follows`), and a subsumed row, followed so,
stays subsumed (`Table.Follows.marked`). A subsumed row is seen by a lookup
and by the rows a check reads, and left out of the rows that searches and
extraction read (`Table.SubsumedAt.hidden`).
-/

namespace Saturate

namespace Table

/-- The index points at exactly the live entries, each by its inputs. -/
structure Indexed (t : Table) : Prop where
  sound : ∀ k i, t.offset? k = some i → ∃ e, t.entries[i]? = some e ∧ e.live = true ∧ e.inputs = k
  complete : ∀ i e, t.entries[i]? = some e → e.live = true → t.offset? e.inputs = some i

/-- Indexed but for the inputs `k`, which no live entry has: the state of a
table between marking the row for `k` stale and writing or forgetting it. -/
structure IndexedBut (t : Table) (k : List Value) : Prop where
  sound : ∀ k' i, k' ≠ k → t.offset? k' = some i →
    ∃ e, t.entries[i]? = some e ∧ e.live = true ∧ e.inputs = k'
  complete : ∀ i e, t.entries[i]? = some e → e.live = true → e.inputs ≠ k ∧ t.offset? e.inputs = some i

/-- The live row for `k` is subsumed, as a lookup finds it. -/
def SubsumedAt (t : Table) (k : List Value) : Prop :=
  ∃ out, t.get? k = some out ∧ out.subsumed = true

/-! ### Offsets and entries under the primitive changes -/

theorem offset?_eq (t : Table) (k : List Value) : t.offset? k = t.index[k]? :=
  Std.HashMap.get?_eq_getElem?

theorem get?_eq (t : Table) (k : List Value) :
    t.get? k = (t.offset? k).bind fun i => t.entries[i]?.map (·.output) := by
  unfold get?
  rcases t.offset? k with _ | i
  · rfl
  · rcases entry : t.entries[i]? with _ | e <;> simp [entry]

theorem offset?_append (t : Table) (k : List Value) (out : RowOutput) (k' : List Value) :
    (t.append k out).offset? k' = if k = k' then some t.entries.size else t.offset? k' := by
  simp only [offset?_eq, append, Std.HashMap.getElem?_insert, beq_iff_eq]

theorem entries_append (t : Table) (k : List Value) (out : RowOutput) (i : Nat) :
    (t.append k out).entries[i]? = if i = t.entries.size then some ⟨k, true, out⟩ else t.entries[i]? := by
  simp only [append, Array.getElem?_push]

@[simp] theorem offset?_markStale (t : Table) (i : Nat) (k : List Value) :
    (t.markStale i).offset? k = t.offset? k := rfl

theorem entries_markStale (t : Table) (i j : Nat) :
    (t.markStale i).entries[j]? =
      if i = j then t.entries[j]?.map fun e => { e with live := false } else t.entries[j]? := by
  simp only [markStale, Array.getElem?_modify]

/-- Marking an entry stale leaves every other entry as it was. -/
theorem entries_markStale_ne (t : Table) {i j : Nat} (ne : i ≠ j) :
    (t.markStale i).entries[j]? = t.entries[j]? := by
  rw [entries_markStale, if_neg ne]

/-- The entry marked stale is no longer live. -/
theorem not_live_markStale {t : Table} {i : Nat} {e : Entry}
    (h : (t.markStale i).entries[i]? = some e) : e.live = false := by
  rw [entries_markStale, if_pos rfl] at h
  obtain ⟨_, _, rfl⟩ := Option.map_eq_some_iff.mp h
  rfl

/-- An entry before the end of the entries is the same after an append. -/
theorem entries_append_of_lt (t : Table) (k : List Value) (out : RowOutput) {i : Nat}
    (lt : i < t.entries.size) : (t.append k out).entries[i]? = t.entries[i]? := by
  rw [entries_append, if_neg (Nat.ne_of_lt lt)]

/-! ### The index is kept -/

theorem empty_indexed : Table.empty.Indexed := by
  constructor
  · intro k i found
    simp [offset?_eq, empty] at found
  · intro i e found
    simp [empty] at found

/-- Two live rows the index points at with different inputs are at different offsets. -/
theorem Indexed.offset_ne {t : Table} (ix : t.Indexed) {k k' : List Value} {i i' : Nat}
    (at_k : t.offset? k = some i) (at_k' : t.offset? k' = some i') (ne : k ≠ k') : i ≠ i' := by
  rintro rfl
  obtain ⟨e, found, _, rfl⟩ := ix.sound k i at_k
  obtain ⟨e', found', _, rfl⟩ := ix.sound k' i at_k'
  rw [found] at found'
  cases found'
  exact ne rfl

/-- Inputs the index does not know have no live row. -/
theorem Indexed.but_of_none {t : Table} (ix : t.Indexed) {k : List Value} (none : t.offset? k = none) :
    t.IndexedBut k := by
  refine ⟨fun k' i _ found => ix.sound k' i found, fun i e found live => ⟨?_, ix.complete i e found live⟩⟩
  rintro rfl
  rw [ix.complete i e found live] at none
  cases none

/-- Marking the row for `k` stale leaves the table indexed but for `k`. -/
theorem Indexed.but_markStale {t : Table} (ix : t.Indexed) {k : List Value} {i : Nat}
    (at_k : t.offset? k = some i) : (t.markStale i).IndexedBut k := by
  constructor
  · intro k' j ne found
    rw [offset?_markStale] at found
    have other : i ≠ j := ix.offset_ne at_k found (Ne.symm ne)
    rw [entries_markStale_ne t other]
    exact ix.sound k' j found
  · intro j e found live
    have other : i ≠ j := by
      rintro rfl
      rw [not_live_markStale found] at live
      cases live
    rw [entries_markStale_ne t other] at found
    have at_e := ix.complete j e found live
    refine ⟨?_, at_e⟩
    rintro same
    rw [same, at_k] at at_e
    exact other (Option.some.inj at_e)

/-- Appending the row for `k` to a table indexed but for `k` indexes it. -/
theorem IndexedBut.append {t : Table} {k : List Value} (h : t.IndexedBut k) (out : RowOutput) :
    (t.append k out).Indexed := by
  constructor
  · intro k' i found
    rw [offset?_append] at found
    split at found
    · rename_i same
      subst same
      cases found
      exact ⟨_, by rw [entries_append, if_pos rfl], rfl, rfl⟩
    · rename_i ne
      obtain ⟨e, entry, live, rfl⟩ := h.sound k' i (Ne.symm ne) found
      have lt : i < t.entries.size := (Array.getElem?_eq_some_iff.mp entry).1
      exact ⟨e, by rw [entries_append_of_lt t k out lt, entry], live, rfl⟩
  · intro i e found live
    rw [entries_append] at found
    split at found
    · rename_i last
      cases found
      rw [offset?_append, if_pos rfl, last]
    · obtain ⟨ne, at_e⟩ := h.complete i e found live
      rw [offset?_append, if_neg (Ne.symm ne), at_e]

/-- Forgetting `k` in the index of a table indexed but for `k` indexes it. -/
theorem IndexedBut.erase {t : Table} {k : List Value} (h : t.IndexedBut k) (ts : Nat) :
    ({ t with index := t.index.erase k, maxTimestamp := ts } : Table).Indexed := by
  constructor
  · intro k' i found
    simp only [offset?_eq, Std.HashMap.getElem?_erase, beq_iff_eq] at found
    split at found
    · cases found
    · rename_i ne
      exact h.sound k' i (Ne.symm ne) (by rwa [offset?_eq])
  · intro i e found live
    obtain ⟨ne, at_e⟩ := h.complete i e found live
    simp only [offset?_eq, Std.HashMap.getElem?_erase, beq_iff_eq, if_neg (Ne.symm ne)]
    rwa [← offset?_eq]

theorem put_indexed {t : Table} (ix : t.Indexed) (k : List Value) (v : Value) (ts : Nat) (b : Bool) :
    (t.put k v ts b).Indexed := by
  unfold put
  split
  · rename_i i at_k
    dsimp only
    split
    · exact ix
    · exact (ix.but_markStale at_k).append _
  · rename_i none
    exact (ix.but_of_none none).append _

theorem remove_indexed {t : Table} (ix : t.Indexed) (k : List Value) (ts : Nat) :
    (t.remove k ts).1.Indexed := by
  unfold remove
  split
  · rename_i i at_k
    exact (ix.but_markStale at_k).erase _
  · exact ix

/-! ### Rebuilding the index -/

section Rebuild

variable (step : Std.HashMap (List Value) Nat × Nat → Entry → Std.HashMap (List Value) Nat × Nat)
  (hstep : ∀ m n e, step (m, n) e = (m.insert e.inputs n, n + 1))
include hstep

/-- Building an index leaves alone the inputs of no entry it goes over. -/
theorem foldl_index_of_not_mem (l : List Entry) (m : Std.HashMap (List Value) Nat) (n : Nat)
    {k : List Value} (absent : k ∉ l.map (·.inputs)) : (l.foldl step (m, n)).1[k]? = m[k]? := by
  induction l generalizing m n with
  | nil => rfl
  | cons x xs ih =>
    simp only [List.map_cons, List.mem_cons, not_or] at absent
    rw [List.foldl_cons, hstep, ih _ _ absent.2, Std.HashMap.getElem?_insert,
      if_neg (by simpa using Ne.symm absent.1)]

/-- Building an index over entries with distinct inputs points each at its place. -/
theorem foldl_index_of_getElem? (l : List Entry) (nodup : (l.map (·.inputs)).Nodup)
    (m : Std.HashMap (List Value) Nat) (n : Nat) {j : Nat} {e : Entry} (found : l[j]? = some e) :
    (l.foldl step (m, n)).1[e.inputs]? = some (n + j) := by
  induction l generalizing m n j with
  | nil => cases found
  | cons x xs ih =>
    rw [List.map_cons, List.nodup_cons] at nodup
    rw [List.foldl_cons, hstep]
    cases j with
    | zero =>
      cases found
      rw [foldl_index_of_not_mem step hstep xs _ _ nodup.1, Std.HashMap.getElem?_insert_self]
      rfl
    | succ j =>
      rw [ih nodup.2 _ _ found]
      congr 1
      omega

/-- What a built index points at is the place of an entry with those inputs,
or was in the index it started from. -/
theorem foldl_index_sound (l : List Entry) (m : Std.HashMap (List Value) Nat) (n : Nat)
    {k : List Value} {j : Nat} (found : (l.foldl step (m, n)).1[k]? = some j) :
    (n ≤ j ∧ ∃ e, l[j - n]? = some e ∧ e.inputs = k) ∨ m[k]? = some j := by
  induction l generalizing m n with
  | nil => exact .inr found
  | cons x xs ih =>
    rw [List.foldl_cons, hstep] at found
    rcases ih _ _ found with ⟨le, e, entry, same⟩ | old
    · refine .inl ⟨by omega, e, ?_, same⟩
      rw [show j - n = (j - (n + 1)) + 1 by omega]
      exact entry
    · rw [Std.HashMap.getElem?_insert] at old
      split at old
      · rename_i same
        cases old
        exact .inl ⟨Nat.le_refl _, x, by simp, by simpa using same⟩
      · exact .inr old

end Rebuild

/-- The live entries of a table whose index finds each at its offset have
distinct inputs. -/
theorem nodup_inputs_of_offsets (l : List Entry) (key : List Value → Option Nat)
    (offsets : ∀ i e, l[i]? = some e → e.live = true → key e.inputs = some i) :
    ((l.filter (·.live)).map (·.inputs)).Nodup := by
  induction l generalizing key with
  | nil => exact List.nodup_nil
  | cons x xs ih =>
    -- the offsets of the later entries, counted from the second
    have later := ih (fun k => (key k).map (· - 1)) fun i e found live => by
      rw [offsets (i + 1) e found live]
      rfl
    by_cases live : x.live = true
    · rw [List.filter_cons_of_pos live, List.map_cons, List.nodup_cons]
      refine ⟨?_, later⟩
      simp only [List.mem_map, List.mem_filter]
      rintro ⟨e, ⟨mem, live_e⟩, same⟩
      obtain ⟨i, found⟩ := List.mem_iff_getElem?.mp mem
      have first := offsets 0 x rfl live
      rw [← same, offsets (i + 1) e found live_e] at first
      cases first
    · rw [List.filter_cons_of_neg live]
      exact later

/-- The entries after dropping the stale ones are the live entries, in order. -/
theorem entries_rehash (t : Table) (j : Nat) :
    t.rehash.entries[j]? = (t.entries.toList.filter (·.live))[j]? := by
  rw [rehash_entries, ← Array.getElem?_toList, Array.toList_filter]

theorem rehash_indexed {t : Table} (ix : t.Indexed) : t.rehash.Indexed := by
  have hstep : ∀ (m : Std.HashMap (List Value) Nat) n (e : Entry),
      (fun (p : Std.HashMap (List Value) Nat × Nat) (e : Entry) => (p.1.insert e.inputs p.2, p.2 + 1))
        (m, n) e = (m.insert e.inputs n, n + 1) := fun _ _ _ => rfl
  have nodup := nodup_inputs_of_offsets t.entries.toList t.offset? fun i e found live =>
    ix.complete i e (by rwa [← Array.getElem?_toList]) live
  -- the rebuilt index is a fold over the live entries, in order
  have index : ∀ k, t.rehash.offset? k =
      ((t.entries.toList.filter (·.live)).foldl
        (fun (p : Std.HashMap (List Value) Nat × Nat) (e : Entry) => (p.1.insert e.inputs p.2, p.2 + 1))
        (∅, 0)).1[k]? := by
    intro k
    rw [offset?_eq]
    simp only [rehash, ← Array.foldl_toList, Array.toList_filter]
  constructor
  · intro k j found
    rw [index] at found
    rcases foldl_index_sound _ hstep _ _ _ found with ⟨_, e, entry, rfl⟩ | empty
    · rw [Nat.sub_zero] at entry
      refine ⟨e, by rw [entries_rehash, entry], ?_, rfl⟩
      exact (List.mem_filter.mp (List.mem_of_getElem? entry)).2
    · simp at empty
  · intro j e found live
    rw [entries_rehash] at found
    rw [index, foldl_index_of_getElem? _ hstep _ nodup _ _ found, Nat.zero_add]

/-- Every change of a table keeps its index right. -/
theorem Step.indexed {ts : Nat} {t t' : Table} (step : t.Step ts t') (ix : t.Indexed) : t'.Indexed := by
  cases step with
  | put k v b => exact put_indexed ix k v ts b
  | remove k => exact remove_indexed ix k ts
  | rehash => exact rehash_indexed ix

theorem Reaches.indexed {ts : Nat} {t t' : Table} (steps : t.Reaches ts t') (ix : t.Indexed) :
    t'.Indexed := by
  induction steps with
  | refl => exact ix
  | tail _ step ih => exact step.indexed ih

/-! ### Lookups under the primitive changes -/

/-- A lookup of `k` that sees the same offset and the same entry there gives the same row. -/
theorem get?_congr {t t' : Table} {k : List Value} (offset : t'.offset? k = t.offset? k)
    (entry : ∀ i, t.offset? k = some i → t'.entries[i]? = t.entries[i]?) : t'.get? k = t.get? k := by
  rw [get?_eq, get?_eq, offset]
  rcases at_k : t.offset? k with _ | i
  · rfl
  · simp only [Option.bind_some, entry i at_k]

theorem get?_append_self (t : Table) (k : List Value) (out : RowOutput) :
    (t.append k out).get? k = some out := by
  rw [get?_eq, offset?_append, if_pos rfl]
  simp [entries_append]

/-- A write for other inputs leaves the row for `k` as it was. -/
theorem get?_put_of_ne {t : Table} (ix : t.Indexed) {k k' : List Value} (ne : k' ≠ k) (v : Value)
    (ts : Nat) (b : Bool) : (t.put k' v ts b).get? k = t.get? k := by
  -- the live entry for `k`, if any, comes before the end and is not the one for `k'`
  have before : ∀ i, t.offset? k = some i → i < t.entries.size := fun i at_k => by
    obtain ⟨e, entry, _⟩ := ix.sound k i at_k
    exact (Array.getElem?_eq_some_iff.mp entry).1
  unfold put
  split
  · rename_i i' at_k'
    dsimp only
    split
    · rfl
    · refine get?_congr (by rw [offset?_append, if_neg ne, offset?_markStale]) fun i at_k => ?_
      have lt : i < (t.markStale i').entries.size := by
        simpa [markStale] using before i at_k
      rw [entries_append_of_lt _ _ _ lt, entries_markStale_ne t (ix.offset_ne at_k' at_k ne)]
  · exact get?_congr (by rw [offset?_append, if_neg ne]) fun i at_k =>
      entries_append_of_lt _ _ _ (before i at_k)

/-- Removing the row for other inputs leaves the row for `k` as it was. -/
theorem get?_remove_of_ne {t : Table} (ix : t.Indexed) {k k' : List Value} (ne : k' ≠ k) (ts : Nat) :
    (t.remove k' ts).1.get? k = t.get? k := by
  unfold remove
  split
  · rename_i i' at_k'
    refine get?_congr ?_ fun i at_k => entries_markStale_ne t (ix.offset_ne at_k' at_k ne)
    simp only [offset?_eq, Std.HashMap.getElem?_erase, beq_iff_eq, if_neg ne]
    rfl
  · rfl

/-- Dropping stale entries leaves every row as it was. -/
theorem get?_rehash {t : Table} (ix : t.Indexed) (k : List Value) : t.rehash.get? k = t.get? k := by
  have ix' := rehash_indexed ix
  rw [get?_eq, get?_eq]
  rcases at_k : t.offset? k with _ | i
  · -- a live entry for `k` after the rehash was a live entry for `k` before it
    rcases at_k' : t.rehash.offset? k with _ | j
    · rfl
    · obtain ⟨e, entry, live, rfl⟩ := ix'.sound _ j at_k'
      rw [entries_rehash] at entry
      obtain ⟨i, old⟩ := List.mem_iff_getElem?.mp (List.mem_filter.mp (List.mem_of_getElem? entry)).1
      rw [ix.complete i e (by rwa [← Array.getElem?_toList]) live] at at_k
      cases at_k
  · obtain ⟨e, entry, live, rfl⟩ := ix.sound _ i at_k
    have kept : e ∈ t.entries.toList.filter (·.live) :=
      List.mem_filter.mpr ⟨List.mem_of_getElem? (by rwa [Array.getElem?_toList]), live⟩
    obtain ⟨j, at_j⟩ := List.mem_iff_getElem?.mp kept
    rw [← entries_rehash] at at_j
    rw [ix'.complete j e at_j live]
    simp only [Option.bind_some, at_j, entry]

/-- A write for `k` ors its subsumption into the row's. -/
theorem get?_put_self {t : Table} (ix : t.Indexed) (k : List Value) (v : Value) (ts : Nat) (b : Bool) :
    ∃ out, (t.put k v ts b).get? k = some out ∧
      out.subsumed = (b || (t.get? k).any (·.subsumed)) := by
  unfold put
  split
  · rename_i i at_k
    obtain ⟨e, entry, _, _⟩ := ix.sound k i at_k
    have old : t.get? k = some e.output := by simp [get?_eq, at_k, entry]
    simp only [entry, Option.map_some, Option.getD_some, old, Option.any_some]
    split
    · rename_i same
      simp only [Bool.and_eq_true, decide_eq_true_eq] at same
      exact ⟨e.output, old, same.2.symm⟩
    · exact ⟨_, get?_append_self _ _ _, rfl⟩
  · rename_i none
    refine ⟨_, get?_append_self _ _ _, ?_⟩
    simp [get?_eq, none]

/-! ### Subsumed rows -/

namespace SubsumedAt

variable {t : Table} {k : List Value}

/-- A write keeps a subsumed row subsumed, whatever its inputs. -/
theorem put (h : t.SubsumedAt k) (ix : t.Indexed) (k' : List Value) (v : Value) (ts : Nat) (b : Bool) :
    (t.put k' v ts b).SubsumedAt k := by
  by_cases same : k' = k
  · subst same
    obtain ⟨out, found, subsumed⟩ := h
    obtain ⟨out', found', ored⟩ := get?_put_self ix k' v ts b
    refine ⟨out', found', ?_⟩
    rw [ored, found, Option.any_some, subsumed, Bool.or_true]
  · rwa [SubsumedAt, get?_put_of_ne ix same]

theorem remove (h : t.SubsumedAt k) (ix : t.Indexed) {k' : List Value} (ne : k' ≠ k) (ts : Nat) :
    (t.remove k' ts).1.SubsumedAt k := by
  rwa [SubsumedAt, get?_remove_of_ne ix ne]

theorem rehash (h : t.SubsumedAt k) (ix : t.Indexed) : t.rehash.SubsumedAt k := by
  rwa [SubsumedAt, get?_rehash ix]

end SubsumedAt

/-- A row written subsumed is subsumed. -/
theorem subsumedAt_put_true {t : Table} (ix : t.Indexed) (k : List Value) (v : Value) (ts : Nat) :
    (t.put k v ts true).SubsumedAt k := by
  obtain ⟨out, found, ored⟩ := get?_put_self ix k v ts true
  exact ⟨out, found, by rw [ored, Bool.true_or]⟩

theorem mem_rows_iff {t : Table} {includeSubsumed : Bool} {i : Nat} {e : Entry} :
    (i, e) ∈ t.rows includeSubsumed ↔
      t.entries[i]? = some e ∧ e.live = true ∧ (includeSubsumed = true ∨ e.output.subsumed = false) := by
  simp only [rows, List.mem_filterMap, List.mem_zipIdx_iff_getElem?, Array.getElem?_toList]
  constructor
  · rintro ⟨⟨e', i'⟩, entry, kept⟩
    split at kept
    · rename_i cond
      cases kept
      simp only [Bool.and_eq_true, Bool.or_eq_true, Bool.not_eq_true'] at cond
      exact ⟨entry, cond⟩
    · cases kept
  · rintro ⟨entry, live, shown⟩
    refine ⟨⟨e, i⟩, entry, ?_⟩
    rw [if_pos]
    simp only [Bool.and_eq_true, Bool.or_eq_true, Bool.not_eq_true']
    exact ⟨live, shown⟩

/-- The live row for `k` is subsumed: a lookup finds it, the rows a check
reads hold it, and the rows that searches and extraction read leave it out. -/
structure Hidden (t : Table) (k : List Value) : Prop where
  lookup : t.SubsumedAt k
  checked : ∃ i e, (i, e) ∈ t.rows true ∧ e.inputs = k
  unsearched : ∀ i e, (i, e) ∈ t.rows false → e.inputs ≠ k

/-- In an indexed table a subsumed row is hidden from searches and seen by checks. -/
theorem SubsumedAt.hidden {t : Table} {k : List Value} (h : t.SubsumedAt k) (ix : t.Indexed) :
    t.Hidden k := by
  obtain ⟨out, found, subsumed⟩ := h
  rw [get?_eq] at found
  obtain ⟨i, at_k, entry⟩ := Option.bind_eq_some_iff.mp found
  obtain ⟨e, at_i, rfl⟩ := Option.map_eq_some_iff.mp entry
  obtain ⟨e', entry', live, inputs⟩ := ix.sound k i at_k
  rw [at_i] at entry'
  cases entry'
  refine ⟨⟨e.output, by simp [get?_eq, at_k, at_i], subsumed⟩,
    ⟨i, e, mem_rows_iff.mpr ⟨at_i, live, .inl rfl⟩, inputs⟩, ?_⟩
  intro j e' mem same
  obtain ⟨entry'', live', shown⟩ := mem_rows_iff.mp mem
  -- the index points the inputs at one offset, which holds the subsumed entry
  have at_j := ix.complete j e' entry'' live'
  rw [same, at_k] at at_j
  cases at_j
  rw [at_i] at entry''
  cases entry''
  simp [subsumed] at shown

/-! ### Following a row -/

/-- Where one change of a table takes the row followed: `some k` is the row
for `k`, `none` a row that is gone. A rebuild re-keys a row: it removes it
and writes it back under new inputs with the row's own subsumption. -/
inductive Carry : Table × Option (List Value) → Table × Option (List Value) → Prop
  | put (t : Table) (k : List Value) (v : Value) (ts : Nat) (b : Bool) (y : Option (List Value)) :
      Carry (t, y) (t.put k v ts b, y)
  | remove (t : Table) (k : List Value) (ts : Nat) (y : Option (List Value)) (other : y ≠ some k) :
      Carry (t, y) ((t.remove k ts).1, y)
  | removed (t : Table) (k : List Value) (ts : Nat) : Carry (t, some k) ((t.remove k ts).1, none)
  | rehash (t : Table) (y : Option (List Value)) : Carry (t, y) (t.rehash, y)
  | rekey (t : Table) (k k' : List Value) (v : Value) (ts ts' : Nat) (b : Bool)
      (carried : (t.get? k).map (·.subsumed) = some b) :
      Carry (t, some k) (((t.remove k ts).1).put k' v ts' b, some k')

/-- Changes of a table with the row followed through them. -/
abbrev Follows : Table × Option (List Value) → Table × Option (List Value) → Prop :=
  Relation.ReflTransGen Carry

/-- The table is indexed and the row followed, if there is one, is subsumed. -/
def Marked (q : Table × Option (List Value)) : Prop :=
  q.1.Indexed ∧ ∀ k, q.2 = some k → q.1.SubsumedAt k

/-- Every change keeps the index right and a subsumed row followed subsumed. -/
theorem Carry.marked {q q' : Table × Option (List Value)} (c : Carry q q') (h : Marked q) :
    Marked q' := by
  obtain ⟨ix, sub⟩ := h
  cases c with
  | put t k v ts b y =>
    exact ⟨put_indexed ix k v ts b, fun k₀ tracked => (sub k₀ tracked).put ix k v ts b⟩
  | remove t k ts y other =>
    refine ⟨remove_indexed ix k ts, fun k₀ tracked => (sub k₀ tracked).remove ix ?_ ts⟩
    rintro rfl
    exact other tracked
  | removed t k ts => exact ⟨remove_indexed ix k ts, fun _ gone => by cases gone⟩
  | rehash t y => exact ⟨rehash_indexed ix, fun k₀ tracked => (sub k₀ tracked).rehash ix⟩
  | rekey t k k' v ts ts' b carried =>
    -- the row written back carries the subsumption of the row removed
    obtain ⟨out, found, subsumed⟩ := sub k rfl
    rw [found, Option.map_some, Option.some.injEq, subsumed] at carried
    subst carried
    refine ⟨put_indexed (remove_indexed ix k ts) k' v ts' true, fun k₀ tracked => ?_⟩
    exact Option.some.inj tracked ▸ subsumedAt_put_true (remove_indexed ix k ts) k' v ts'

theorem Follows.marked {q q' : Table × Option (List Value)} (steps : Follows q q') (h : Marked q) :
    Marked q' := by
  induction steps with
  | refl => exact h
  | tail _ carry ih => exact carry.marked ih

/-- Every change of a table carries the row followed somewhere. -/
theorem Step.follows {ts : Nat} {t t' : Table} (step : t.Step ts t') (y : Option (List Value)) :
    ∃ y', Carry (t, y) (t', y') := by
  cases step with
  | put k v b => exact ⟨y, .put t k v ts b y⟩
  | remove k =>
    by_cases gone : y = some k
    · subst gone
      exact ⟨none, .removed t k ts⟩
    · exact ⟨y, .remove t k ts y gone⟩
  | rehash => exact ⟨y, .rehash t y⟩

theorem Reaches.follows {ts : Nat} {t t' : Table} (steps : t.Reaches ts t') (y : Option (List Value)) :
    ∃ y', Follows (t, y) (t', y') := by
  induction steps with
  | refl => exact ⟨y, .refl⟩
  | tail _ step ih =>
    obtain ⟨y₁, follows⟩ := ih
    obtain ⟨y₂, carry⟩ := step.follows y₁
    exact ⟨y₂, follows.tail carry⟩

end Table

end Saturate
