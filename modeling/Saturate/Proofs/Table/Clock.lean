import Mathlib.Logic.Relation
import Saturate.Table

/-!
# Tables against a clock

A table changes in three ways, each at a time `ts`: a write (`Table.put`),
a removal (`Table.remove`) and the dropping of stale entries
(`Table.rehash`). `Table.Step ts` names them. Two facts about such steps
carry the timestamp discipline of the whole database:

* `Table.Dated now` — entries in timestamp order, none later than
  `maxTimestamp`, which is not later than the clock `now` — is kept by every
  step at `now` (`Table.Step.dated`), so a write is never at a time before
  the table's last one;
* a step at `ts` makes no live row older than `ts`: the live rows of the new
  table last written before a time `L ≤ ts` were live rows of the old one
  (`Table.Step.liveBefore_subset`).
-/

namespace Saturate

/-- A change a table takes at time `ts`. -/
inductive Table.Step (ts : Nat) : Table → Table → Prop
  | put (t : Table) (inputs : List Value) (value : Value) (subsumed : Bool) :
      Step ts t (t.put inputs value ts subsumed)
  | remove (t : Table) (inputs : List Value) : Step ts t (t.remove inputs ts).1
  | rehash (t : Table) : Step ts t t.rehash

/-- Some changes at time `ts`, one after another. -/
abbrev Table.Reaches (ts : Nat) : Table → Table → Prop := Relation.ReflTransGen (Table.Step ts)

/-- The live entries of a table last written before `L`. -/
def Table.liveBefore (t : Table) (L : Nat) : List Entry :=
  t.entries.toList.filter fun e => e.live && decide (e.output.timestamp < L)

/-- A table whose entries are in timestamp order and not later than its
`maxTimestamp`, which is not later than the clock `now`. -/
structure Table.Dated (now : Nat) (t : Table) : Prop where
  sorted : (t.entries.toList.map (·.output.timestamp)).Pairwise (· ≤ ·)
  bounded : ∀ e ∈ t.entries.toList, e.output.timestamp ≤ t.maxTimestamp
  notAhead : t.maxTimestamp ≤ now

namespace Table.Reaches

variable {ts : Nat} {t₀ t : Table}

@[grind .] theorem put (h : t₀.Reaches ts t) (inputs : List Value) (value : Value) (sub : Bool) :
    t₀.Reaches ts (t.put inputs value ts sub) :=
  h.tail (.put t inputs value sub)

@[grind .] theorem remove (h : t₀.Reaches ts t) (inputs : List Value) :
    t₀.Reaches ts (t.remove inputs ts).1 :=
  h.tail (.remove t inputs)

@[grind .] theorem rehash (h : t₀.Reaches ts t) : t₀.Reaches ts t.rehash :=
  h.tail (.rehash t)

end Table.Reaches

/-! ### Entries under a change -/

/-- An element of a list changed at one position is an old element or the
change of the element at that position. -/
theorem List.mem_modify_cases {α : Type} {l : List α} {i : Nat} {f : α → α} {x : α}
    (h : x ∈ l.modify i f) : x ∈ l ∨ ∃ y, l[i]? = some y ∧ x = f y := by
  obtain ⟨j, hj, rfl⟩ := List.getElem_of_mem h
  rw [List.getElem_modify]
  have hj' : j < l.length := by simpa using hj
  split
  · rename_i same
    subst same
    exact .inr ⟨l[i], List.getElem?_eq_getElem hj', rfl⟩
  · exact .inl (List.getElem_mem hj')

theorem List.map_modify_of_comp {α β : Type} (l : List α) (i : Nat) (f : α → α) (g : α → β)
    (hg : ∀ x, g (f x) = g x) : (l.modify i f).map g = l.map g := by
  apply List.ext_getElem (by simp)
  intro j _ _
  simp only [List.getElem_map, List.getElem_modify]
  split <;> simp [hg]

namespace Table

/-- Marking an entry stale keeps every timestamp. -/
@[simp] theorem markStale_timestamps (t : Table) (i : Nat) :
    (t.markStale i).entries.toList.map (·.output.timestamp) =
      t.entries.toList.map (·.output.timestamp) := by
  simp only [markStale, Array.toList_modify]
  exact List.map_modify_of_comp _ _ _ _ fun _ => rfl

@[simp] theorem markStale_maxTimestamp (t : Table) (i : Nat) :
    (t.markStale i).maxTimestamp = t.maxTimestamp := rfl

/-- A live entry after marking one stale was live before. -/
theorem mem_of_mem_markStale {t : Table} {i : Nat} {e : Entry}
    (h : e ∈ (t.markStale i).entries.toList) (live : e.live) : e ∈ t.entries.toList := by
  simp only [markStale, Array.toList_modify] at h
  rcases List.mem_modify_cases h with mem | ⟨_, _, rfl⟩
  · exact mem
  · simp at live

@[simp] theorem append_entries (t : Table) (inputs : List Value) (out : RowOutput) :
    (t.append inputs out).entries.toList = t.entries.toList ++ [⟨inputs, true, out⟩] := by
  simp [append]

@[simp] theorem append_maxTimestamp (t : Table) (inputs : List Value) (out : RowOutput) :
    (t.append inputs out).maxTimestamp = out.timestamp := rfl

/-- A write either changes nothing or appends the new row, marking the old
one stale when there is one. -/
theorem put_cases (t : Table) (inputs : List Value) (value : Value) (ts : Nat) (subsumed : Bool) :
    t.put inputs value ts subsumed = t ∨
      ∃ sub, t.put inputs value ts subsumed = t.append inputs ⟨value, ts, sub⟩ ∨
        ∃ i, t.put inputs value ts subsumed = (t.markStale i).append inputs ⟨value, ts, sub⟩ := by
  unfold put
  dsimp only
  split
  · split
    · exact .inl rfl
    · exact .inr ⟨_, .inr ⟨_, rfl⟩⟩
  · exact .inr ⟨_, .inl rfl⟩

/-- A removal marks at most one entry stale and moves `maxTimestamp` up to `ts`. -/
theorem remove_cases (t : Table) (inputs : List Value) (ts : Nat) :
    (t.remove inputs ts).1 = t ∨
      ∃ i, (t.remove inputs ts).1.entries = (t.markStale i).entries ∧
        (t.remove inputs ts).1.maxTimestamp = max t.maxTimestamp ts := by
  unfold remove
  split
  · exact .inr ⟨_, rfl, rfl⟩
  · exact .inl rfl

@[simp] theorem rehash_entries (t : Table) : t.rehash.entries = t.entries.filter (·.live) := rfl

@[simp] theorem rehash_maxTimestamp (t : Table) : t.rehash.maxTimestamp = t.maxTimestamp := rfl

/-! ### Dated tables -/

theorem Dated.mono {now now' : Nat} {t : Table} (h : t.Dated now) (le : now ≤ now') :
    t.Dated now' :=
  ⟨h.sorted, h.bounded, Nat.le_trans h.notAhead le⟩

@[simp] theorem empty_dated (now : Nat) : Table.empty.Dated now :=
  ⟨by simp [empty], by simp [empty], Nat.zero_le _⟩

/-- Appending a row written at the clock keeps a table dated. -/
theorem Dated.append {now : Nat} {t : Table} (h : t.Dated now) (inputs : List Value)
    (value : Value) (sub : Bool) : (t.append inputs ⟨value, now, sub⟩).Dated now := by
  have latest : ∀ e ∈ t.entries.toList, e.output.timestamp ≤ now :=
    fun e mem => Nat.le_trans (h.bounded e mem) h.notAhead
  refine ⟨?_, fun e mem => ?_, Nat.le_refl now⟩
  · simp only [append_entries, List.map_append, List.map_cons, List.map_nil]
    refine List.pairwise_append.mpr ⟨h.sorted, by simp, ?_⟩
    simpa using latest
  · simp only [append_entries, List.mem_append, List.mem_singleton] at mem
    rcases mem with mem | rfl
    · exact latest e mem
    · exact Nat.le_refl now

/-- Marking an entry stale keeps a table dated. -/
theorem Dated.markStale {now : Nat} {t : Table} (h : t.Dated now) (i : Nat) :
    (t.markStale i).Dated now := by
  refine ⟨by simpa using h.sorted, fun e mem => ?_, h.notAhead⟩
  simp only [Table.markStale, Array.toList_modify] at mem
  rcases List.mem_modify_cases mem with old | ⟨y, at_i, rfl⟩
  · exact h.bounded e old
  · exact h.bounded y (List.mem_of_getElem? at_i)

/-- Every step at the clock keeps a table dated. -/
theorem Step.dated {now : Nat} {t t' : Table} (step : t.Step now t') (h : t.Dated now) :
    t'.Dated now := by
  cases step with
  | put inputs value subsumed =>
    rcases put_cases t inputs value now subsumed with same | ⟨sub, fresh | ⟨i, replaced⟩⟩
    · rwa [same]
    · rw [fresh]
      exact h.append inputs value sub
    · rw [replaced]
      exact (h.markStale i).append inputs value sub
  | remove inputs =>
    rcases remove_cases t inputs now with same | ⟨i, entries, maxTs⟩
    · rwa [same]
    · have stale := h.markStale i
      refine ⟨?_, fun e mem => ?_, ?_⟩
      · rw [entries]
        exact stale.sorted
      · rw [entries] at mem
        rw [maxTs]
        exact Nat.le_trans (stale.bounded e mem) (Nat.le_max_left _ _)
      · rw [maxTs]
        exact Nat.max_le.mpr ⟨h.notAhead, Nat.le_refl now⟩
  | rehash =>
    refine ⟨?_, fun e mem => ?_, h.notAhead⟩
    · rw [rehash_entries, Array.toList_filter]
      exact h.sorted.sublist (List.filter_sublist.map _)
    · simp only [rehash_entries, Array.toList_filter, List.mem_filter] at mem
      exact h.bounded e mem.1

theorem Reaches.dated {now : Nat} {t t' : Table} (steps : t.Reaches now t') (h : t.Dated now) :
    t'.Dated now := by
  induction steps with
  | refl => exact h
  | tail _ step ih => exact step.dated ih

/-! ### Rows older than a step -/

theorem mem_liveBefore {t : Table} {L : Nat} {e : Entry} :
    e ∈ t.liveBefore L ↔ e ∈ t.entries.toList ∧ e.live ∧ e.output.timestamp < L := by
  simp [liveBefore]

/-- A later bound sees every row an earlier one sees. -/
theorem liveBefore_mono (t : Table) {L L' : Nat} (le : L ≤ L') :
    t.liveBefore L ⊆ t.liveBefore L' := by
  intro e mem
  obtain ⟨mem, live, older⟩ := mem_liveBefore.mp mem
  exact mem_liveBefore.mpr ⟨mem, live, Nat.lt_of_lt_of_le older le⟩

/-- Marking an entry stale makes no live row. -/
theorem markStale_liveBefore_subset (t : Table) (i L : Nat) :
    (t.markStale i).liveBefore L ⊆ t.liveBefore L := by
  intro e mem
  obtain ⟨mem, live, older⟩ := mem_liveBefore.mp mem
  exact mem_liveBefore.mpr ⟨mem_of_mem_markStale mem live, live, older⟩

/-- Appending a row written at `ts` makes no live row older than `ts`. -/
theorem append_liveBefore {t : Table} {L ts : Nat} (le : L ≤ ts) (inputs : List Value)
    (value : Value) (sub : Bool) :
    (t.append inputs ⟨value, ts, sub⟩).liveBefore L = t.liveBefore L := by
  simp [liveBefore, List.filter_append, Nat.not_lt.mpr le]

/-- A step at `ts` makes no live row older than `ts`. -/
theorem Step.liveBefore_subset {ts L : Nat} {t t' : Table} (step : t.Step ts t') (le : L ≤ ts) :
    t'.liveBefore L ⊆ t.liveBefore L := by
  cases step with
  | put inputs value subsumed =>
    rcases put_cases t inputs value ts subsumed with same | ⟨sub, fresh | ⟨i, replaced⟩⟩
    · rw [same]
      exact fun _ => id
    · rw [fresh, append_liveBefore le]
      exact fun _ => id
    · rw [replaced, append_liveBefore le]
      exact markStale_liveBefore_subset t i L
  | remove inputs =>
    rcases remove_cases t inputs ts with same | ⟨i, entries, _⟩
    · rw [same]
      exact fun _ => id
    · have : (t.remove inputs ts).1.liveBefore L = (t.markStale i).liveBefore L := by
        simp only [liveBefore, entries]
      rw [this]
      exact markStale_liveBefore_subset t i L
  | rehash =>
    intro e mem
    obtain ⟨mem, live, older⟩ := mem_liveBefore.mp mem
    simp only [rehash_entries, Array.toList_filter, List.mem_filter] at mem
    exact mem_liveBefore.mpr ⟨mem.1, live, older⟩

theorem Reaches.liveBefore_subset {ts L : Nat} {t t' : Table} (steps : t.Reaches ts t')
    (le : L ≤ ts) : t'.liveBefore L ⊆ t.liveBefore L := by
  induction steps with
  | refl => exact fun _ => id
  | tail _ step ih => exact List.Subset.trans (step.liveBefore_subset le) ih

end Table

end Saturate
