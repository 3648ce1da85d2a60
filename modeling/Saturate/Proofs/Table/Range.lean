import Saturate.Table.Range
import Saturate.Proofs.Table.Index

/-!
# Timestamp ranges are exact

On a dated table, whose entries, stale ones included, are in timestamp order
and no later than `maxTimestamp`, the search for the first entry not older
than a target is exact: it answers what `List.findIdx?` answers on the
entries (`Dated.firstAtOrAfter?_eq`), also when a removal moved
`maxTimestamp` past every entry. Each offset then splits the entries into
the older ones before it and the rest (`Dated.getD_firstAtOrAfter?_le_iff`),
so:

* `Dated.mem_offsetRange_iff`: the offset range of `[lo, hi)` holds exactly
  the offsets of the entries written in it;
* `Dated.rowsInRange_eq`: the rows read at those offsets are the live rows
  written in `[lo, hi)` that queries read, in offset order.

The search carries `Table.Brackets`: entries before its lower end are older
than the target, entries from its upper end on are not.
-/

namespace Saturate

namespace Table

variable {t : Table} {target : Nat}

/-- What the timestamp searches of a table promise: the first offset not older
than a target, the offsets of each interval of time, and the rows written in it. -/
structure RangesExact (t : Table) : Prop where
  first : ∀ target, t.firstAtOrAfter? target = t.entries.toList.findIdx? (target ≤ ·.output.timestamp)
  offsets : ∀ lo hi i, ((t.offsetRange lo hi).1 ≤ i ∧ i < (t.offsetRange lo hi).2) ↔
    ∃ e, t.entries[i]? = some e ∧ lo ≤ e.output.timestamp ∧ e.output.timestamp < hi
  rows : ∀ lo hi, lo ≤ hi → ∀ includeSubsumed,
    t.rowsInRange lo hi includeSubsumed = t.rowsBetween lo (some hi) includeSubsumed

/-! ### Entries in timestamp order -/

theorem timestampAt?_eq_some {i ts : Nat} (found : t.timestampAt? i = some ts) :
    ∃ e, t.entries[i]? = some e ∧ e.output.timestamp = ts :=
  Option.map_eq_some_iff.mp found

theorem lt_size_of_getElem? {i : Nat} {e : Entry} (found : t.entries[i]? = some e) : i < t.size :=
  (Array.getElem?_eq_some_iff.mp found).1

/-- Of two entries of a dated table, the later one is not older. -/
theorem Dated.timestamp_le {now : Nat} (h : t.Dated now) {i j : Nat} {e e' : Entry} (le : i ≤ j)
    (hi : t.entries[i]? = some e) (hj : t.entries[j]? = some e') :
    e.output.timestamp ≤ e'.output.timestamp := by
  rcases Nat.lt_or_eq_of_le le with lt | rfl
  · obtain ⟨hi', rfl⟩ := Array.getElem?_eq_some_iff.mp hi
    obtain ⟨hj', rfl⟩ := Array.getElem?_eq_some_iff.mp hj
    have ordered := List.pairwise_iff_getElem.mp h.sorted i j (by simpa using hi') (by simpa using hj') lt
    simp only [List.getElem_map, Array.getElem_toList] at ordered
    exact ordered
  · rw [hi, Option.some_inj] at hj
    subst hj
    exact Nat.le_refl _

/-! ### The search -/

/-- What the search knows of `[lo, hi)`: it lies within the entries, the
entries before `lo` are older than `target`, and those from `hi` on are not. -/
structure Brackets (t : Table) (target lo hi : Nat) : Prop where
  le : lo ≤ hi
  le_size : hi ≤ t.size
  older : ∀ i e, i < lo → t.entries[i]? = some e → e.output.timestamp < target
  newer : ∀ i e, hi ≤ i → t.entries[i]? = some e → target ≤ e.output.timestamp

theorem brackets_all (t : Table) (target : Nat) : t.Brackets target 0 t.size := by
  refine ⟨Nat.zero_le _, Nat.le_refl _, fun _ _ lt => absurd lt (Nat.not_lt_zero _), fun i e le found => ?_⟩
  rw [Array.getElem?_eq_none le] at found
  cases found

/-- Each halving keeps what the search knows, so where it stops, the entries
before are older than `target` and the rest are not. -/
theorem Brackets.lowerBound {now lo hi : Nat} (h : t.Dated now) (b : t.Brackets target lo hi) :
    t.Brackets target (t.lowerBound target lo hi) (t.lowerBound target lo hi) := by
  fun_induction t.lowerBound target lo hi with
  | case1 lo hi lt mid ts found older ih =>
    obtain ⟨e, atMid, rfl⟩ := timestampAt?_eq_some found
    refine ih ⟨by omega, b.le_size, fun i e' before entry => ?_, b.newer⟩
    exact Nat.lt_of_le_of_lt (h.timestamp_le (by omega) entry atMid) older
  | case2 lo hi lt mid ts found notOlder ih =>
    obtain ⟨e, atMid, rfl⟩ := timestampAt?_eq_some found
    refine ih ⟨by omega, by have := b.le_size; omega, b.older, fun i e' after entry => ?_⟩
    exact Nat.le_trans (Nat.not_lt.mp notOlder) (h.timestamp_le after atMid entry)
  | case3 lo hi lt mid missing ih =>
    -- the midpoint lies within the entries, so it has a timestamp
    have inside : mid < t.entries.size := by have := b.le_size; simp only [size] at this; omega
    simp [timestampAt?, inside] at missing
  | case4 lo hi stop =>
    have same : hi = lo := by have := b.le; omega
    exact same ▸ b

/-- Where the search stops, the first entry not older than `target` is the
one there, if any. -/
theorem Brackets.findIdx?_eq {r : Nat} (b : t.Brackets target r r) :
    t.entries.toList.findIdx? (target ≤ ·.output.timestamp) = if r < t.size then some r else none := by
  split
  · rename_i inside
    have length : r < t.entries.toList.length := by simpa [size] using inside
    rw [List.findIdx?_eq_some_iff_getElem]
    refine ⟨length, ?_, fun j before => ?_⟩
    · have newer := b.newer r _ (Nat.le_refl r) (Array.getElem?_eq_getElem inside)
      simp only [Array.getElem_toList, decide_eq_true_eq]
      exact newer
    · have older := b.older j _ before (Array.getElem?_eq_getElem (by simp [size] at inside; omega))
      simp only [Array.getElem_toList, decide_eq_true_eq, Nat.not_le]
      exact older
  · rename_i outside
    rw [List.findIdx?_eq_none_iff]
    intro e mem
    obtain ⟨i, lt, rfl⟩ := List.getElem_of_mem mem
    have older := b.older i _ (by have := b.le_size; simp [size] at lt outside ⊢; omega)
      (Array.getElem?_eq_getElem (by simpa using lt))
    simpa using older

/-- **The search is exact.** On a dated table it answers the first offset whose
entry, stale or live, is not older than `target`, and `none` when there is
none, also when `maxTimestamp` is later than every entry. -/
theorem Dated.firstAtOrAfter?_eq (h : t.Dated t.maxTimestamp) (target : Nat) :
    t.firstAtOrAfter? target = t.entries.toList.findIdx? (target ≤ ·.output.timestamp) := by
  unfold firstAtOrAfter?
  split
  · rename_i early
    -- no entry, or every entry is older than `target`
    refine (List.findIdx?_eq_none_iff.mpr fun e mem => ?_).symm
    rcases early with empty | late
    · simp [size] at empty
      simp [empty] at mem
    · have bound := h.bounded e mem
      simp only [decide_eq_false_iff_not, Nat.not_le]
      omega
  · split
    · rename_i first
      -- the first entry is already late enough
      cases atZero : t.entries[0]? with
      | none => simp [minTimestamp?, timestampAt?, atZero] at first
      | some e =>
        simp only [minTimestamp?, timestampAt?, atZero, Option.map_some, Option.any_some,
          decide_eq_true_eq] at first
        obtain ⟨inside, rfl⟩ := Array.getElem?_eq_some_iff.mp atZero
        refine (List.findIdx?_eq_some_iff_getElem.mpr
          ⟨by simpa using inside, ?_, fun j lt => absurd lt (Nat.not_lt_zero _)⟩).symm
        simp only [Array.getElem_toList, decide_eq_true_eq]
        exact first
    · exact ((brackets_all t target).lowerBound h).findIdx?_eq.symm

theorem Dated.firstAtOrAfter?_lt_size (h : t.Dated t.maxTimestamp) {i : Nat}
    (found : t.firstAtOrAfter? target = some i) : i < t.size := by
  rw [h.firstAtOrAfter?_eq] at found
  simpa [size] using (List.findIdx?_eq_some_iff_getElem.mp found).1

/-- The offset the search answers, or the end when it answers none, splits the
entries into the older ones before it and the rest. -/
theorem Dated.getD_firstAtOrAfter?_le_iff (h : t.Dated t.maxTimestamp) (target : Nat) {i : Nat}
    {e : Entry} (found : t.entries[i]? = some e) :
    (t.firstAtOrAfter? target).getD t.size ≤ i ↔ target ≤ e.output.timestamp := by
  have inside := lt_size_of_getElem? found
  rw [h.firstAtOrAfter?_eq]
  cases first : t.entries.toList.findIdx? (target ≤ ·.output.timestamp) with
  | none =>
    have older := List.findIdx?_eq_none_iff.mp first e (Array.mem_toList_iff.mpr (Array.mem_of_getElem? found))
    simp only [decide_eq_false_iff_not, Nat.not_le] at older
    simp only [Option.getD_none]
    omega
  | some r =>
    obtain ⟨length, atR, before⟩ := List.findIdx?_eq_some_iff_getElem.mp first
    simp only [decide_eq_true_eq, Array.getElem_toList] at atR before
    constructor
    · intro after
      exact Nat.le_trans atR (h.timestamp_le after (Array.getElem?_eq_getElem _) found)
    · intro late
      refine Nat.not_lt.mp fun earlier => ?_
      have older := before i earlier
      rw [(Array.getElem?_eq_some_iff.mp found).2] at older
      exact older late

/-! ### Offsets of an interval of time -/

theorem offsetRange_of_some {lo hi s : Nat} (start : t.firstAtOrAfter? lo = some s) :
    t.offsetRange lo hi = (s, (t.firstAtOrAfter? hi).getD t.size) := by
  unfold offsetRange
  rw [start]
  cases t.firstAtOrAfter? hi <;> rfl

theorem offsetRange_of_none {lo hi : Nat} (start : t.firstAtOrAfter? lo = none) :
    t.offsetRange lo hi = (0, 0) := by
  unfold offsetRange
  rw [start]

theorem Dated.getD_firstAtOrAfter?_le_size (h : t.Dated t.maxTimestamp) (target : Nat) :
    (t.firstAtOrAfter? target).getD t.size ≤ t.size := by
  cases found : t.firstAtOrAfter? target with
  | none => exact Nat.le_refl _
  | some i => exact Nat.le_of_lt (h.firstAtOrAfter?_lt_size found)

/-- The offset range holds exactly the offsets of the entries written in
`[lo, hi)`, none when `hi ≤ lo`. -/
theorem Dated.mem_offsetRange_iff (h : t.Dated t.maxTimestamp) (lo hi i : Nat) :
    ((t.offsetRange lo hi).1 ≤ i ∧ i < (t.offsetRange lo hi).2) ↔
      ∃ e, t.entries[i]? = some e ∧ lo ≤ e.output.timestamp ∧ e.output.timestamp < hi := by
  cases start : t.firstAtOrAfter? lo with
  | none =>
    -- every entry is older than `lo`
    rw [offsetRange_of_none start]
    simp only [Nat.not_lt_zero, and_false, false_iff, not_exists, not_and]
    intro e found late
    have := (h.getD_firstAtOrAfter?_le_iff lo found).mpr late
    rw [start, Option.getD_none] at this
    exact absurd (lt_size_of_getElem? found) (Nat.not_lt.mpr this)
  | some s =>
    rw [offsetRange_of_some start]
    cases found : t.entries[i]? with
    | none =>
      have outside : t.size ≤ i := by simpa [size] using Array.getElem?_eq_none_iff.mp found
      have := h.getD_firstAtOrAfter?_le_size hi
      simp only [reduceCtorEq, false_and, exists_false, iff_false, not_and, Nat.not_lt]
      omega
    | some e =>
      have fromLo := h.getD_firstAtOrAfter?_le_iff lo found
      have fromHi := h.getD_firstAtOrAfter?_le_iff hi found
      rw [start, Option.getD_some] at fromLo
      simp only [Option.some.injEq, exists_eq_left']
      rw [fromLo, ← Nat.not_le, fromHi, Nat.not_le]

theorem Dated.offsetRange_le_size (h : t.Dated t.maxTimestamp) (lo hi : Nat) :
    (t.offsetRange lo hi).2 ≤ t.size := by
  cases start : t.firstAtOrAfter? lo with
  | none => simp [offsetRange_of_none start]
  | some s => simpa [offsetRange_of_some start] using h.getD_firstAtOrAfter?_le_size hi

/-- For `lo ≤ hi`, the range starts no later than it stops: an entry not older
than `hi` is not older than `lo`. -/
theorem Dated.offsetRange_ordered (h : t.Dated t.maxTimestamp) {lo hi : Nat} (le : lo ≤ hi) :
    (t.offsetRange lo hi).1 ≤ (t.offsetRange lo hi).2 := by
  cases start : t.firstAtOrAfter? lo with
  | none => simp [offsetRange_of_none start]
  | some s =>
    rw [offsetRange_of_some start]
    cases stop : t.firstAtOrAfter? hi with
    | none => exact Nat.le_of_lt (h.firstAtOrAfter?_lt_size start)
    | some e =>
      obtain ⟨x, found⟩ : ∃ x, t.entries[e]? = some x :=
        ⟨_, Array.getElem?_eq_getElem (h.firstAtOrAfter?_lt_size stop)⟩
      have late := (h.getD_firstAtOrAfter?_le_iff hi found).mp (by rw [stop]; exact Nat.le_refl e)
      have fromLo := (h.getD_firstAtOrAfter?_le_iff lo found).mpr (Nat.le_trans le late)
      rw [start] at fromLo
      exact fromLo

/-! ### Rows of an interval of offsets -/

theorem rows_eq_rowsAt (t : Table) (includeSubsumed : Bool) :
    t.rows includeSubsumed = t.rowsAt 0 t.size includeSubsumed := by
  simp only [rows, rowsAt, size, List.drop_zero, Nat.sub_zero, ← Array.length_toList, List.take_length]

/-- The rows at `[a, c)` are those at `[a, b)` followed by those at `[b, c)`. -/
theorem rowsAt_append (t : Table) {a b c : Nat} (hab : a ≤ b) (hbc : b ≤ c) (hc : c ≤ t.size)
    (includeSubsumed : Bool) :
    t.rowsAt a c includeSubsumed = t.rowsAt a b includeSubsumed ++ t.rowsAt b c includeSubsumed := by
  have slice : (t.entries.toList.drop a).take (c - a) =
      (t.entries.toList.drop a).take (b - a) ++ (t.entries.toList.drop b).take (c - b) := by
    rw [show c - a = (b - a) + (c - b) by omega, List.take_add, List.drop_drop, Nat.add_sub_cancel' hab]
  have length : ((t.entries.toList.drop a).take (b - a)).length = b - a := by
    simp only [size] at hc
    simp
    omega
  rw [rowsAt, slice, List.zipIdx_append, length, Nat.add_sub_cancel' hab, List.filterMap_append]
  rfl

/-- The rows at `[a, b)` have their offsets there. -/
theorem mem_rowsAt {a b : Nat} {includeSubsumed : Bool} {r : Nat × Entry}
    (mem : r ∈ t.rowsAt a b includeSubsumed) : a ≤ r.1 ∧ r.1 < b := by
  obtain ⟨⟨e, i⟩, slice, kept⟩ := List.mem_filterMap.mp mem
  obtain ⟨first, bound, -⟩ := List.mem_zipIdx slice
  dsimp only at kept
  split at kept
  · cases kept
    simp only [List.length_take] at bound
    omega
  · cases kept

/-- The rows at `[start, stop)` are the live rows whose offsets lie there. -/
theorem rowsAt_eq_filter (t : Table) {start stop : Nat} (ordered : start ≤ stop)
    (within : stop ≤ t.size) (includeSubsumed : Bool) :
    t.rowsAt start stop includeSubsumed =
      (t.rows includeSubsumed).filter fun r => start ≤ r.1 && r.1 < stop := by
  rw [rows_eq_rowsAt, rowsAt_append t (Nat.zero_le start) (Nat.le_trans ordered within) (Nat.le_refl _),
    rowsAt_append t ordered within (Nat.le_refl _), List.filter_append, List.filter_append]
  -- offsets before `start` and from `stop` on drop out, the slice's stay
  rw [List.filter_eq_nil_iff.mpr fun r mem => ?_, List.filter_eq_self.mpr fun r mem => ?_,
    List.filter_eq_nil_iff.mpr fun r mem => ?_, List.nil_append, List.append_nil]
  · have := mem_rowsAt mem
    simp only [Bool.and_eq_true, decide_eq_true_eq, not_and, Nat.not_lt]
    omega
  · have := mem_rowsAt mem
    simp only [Bool.and_eq_true, decide_eq_true_eq]
    omega
  · have := mem_rowsAt mem
    simp only [Bool.and_eq_true, decide_eq_true_eq, not_and, Nat.not_lt]
    omega

/-- For `lo ≤ hi`, the rows read at the offsets of `[lo, hi)` are the live rows
written in `[lo, hi)`, as queries read them. -/
theorem Dated.rowsInRange_eq (h : t.Dated t.maxTimestamp) {lo hi : Nat} (le : lo ≤ hi)
    (includeSubsumed : Bool) :
    t.rowsInRange lo hi includeSubsumed = t.rowsBetween lo (some hi) includeSubsumed := by
  rw [rowsInRange, rowsAt_eq_filter t (h.offsetRange_ordered le) (h.offsetRange_le_size lo hi), rowsBetween]
  apply List.filter_congr
  intro r mem
  obtain ⟨i, e⟩ := r
  obtain ⟨found, -⟩ := mem_rows_iff.mp mem
  have offsets := h.mem_offsetRange_iff lo hi i
  simp only [found, Option.some.injEq, exists_eq_left'] at offsets
  rw [Bool.eq_iff_iff]
  simpa using offsets

/-- **Timestamp ranges are exact.** On a table whose entries, stale ones
included, are in timestamp order up to `maxTimestamp`: the search answers the
first offset not older than a target, or `none`, even when `maxTimestamp` is
later than every entry; the offset range of `[lo, hi)` holds exactly the
offsets of the entries written in it; and for `lo ≤ hi` the rows read there are the
live rows written in `[lo, hi)`, in offset order, subsumed ones only when
asked for. -/
theorem Dated.timestamp_ranges_exact (h : t.Dated t.maxTimestamp) : t.RangesExact :=
  ⟨h.firstAtOrAfter?_eq, h.mem_offsetRange_iff, fun _ _ le => h.rowsInRange_eq le⟩

/-- Rows written at times 1 and 2, the second removed at 5, so that
`maxTimestamp` is later than every entry. -/
theorem timestamp_ranges_exact_after_removal :
    ∃ t : Table, t = (((Table.empty.put [⟨"i64", 0⟩] ⟨"i64", 0⟩ 1 false).put [⟨"i64", 1⟩] ⟨"i64", 1⟩ 2
        false).remove [⟨"i64", 1⟩] 5).1 ∧ t.Dated t.maxTimestamp ∧ t.RangesExact := by
  have first := (@Step.put 1 Table.empty [⟨"i64", 0⟩] ⟨"i64", 0⟩ false).dated (empty_dated 1)
  have second := (@Step.put 2 _ [⟨"i64", 1⟩] ⟨"i64", 1⟩ false).dated (first.mono (by decide))
  have removed := (@Step.remove 5 _ [⟨"i64", 1⟩]).dated (second.mono (by decide))
  have dated : Dated _ _ := ⟨removed.sorted, removed.bounded, Nat.le_refl _⟩
  exact ⟨_, rfl, dated, Dated.timestamp_ranges_exact dated⟩

end Table

end Saturate
