import Saturate.Table

/-!
Rows by time, found through offsets.

A table's entries, stale ones included, are in timestamp order, so the
entries written in an interval of time sit at an interval of offsets. Two
binary searches find its ends (`Table.offsetRange`), and the live rows at
those offsets are the rows written in that interval (`Table.rowsInRange`).
Queries read the same rows as `Table.rowsBetween`.

`Table.firstAtOrAfter?` makes two checks before its search: `maxTimestamp`,
which bounds every entry but may be later than all of them after a removal,
and the first entry's timestamp.
-/

namespace Saturate

namespace Table

/-- The timestamp of the entry at an offset, stale or live. -/
def timestampAt? (t : Table) (i : Nat) : Option Nat := t.entries[i]?.map (·.output.timestamp)

/-- The timestamp of the first entry. -/
def minTimestamp? (t : Table) : Option Nat := t.timestampAt? 0

/-- Narrow `[lo, hi)` to the first offset whose entry is not older than
`target`, halving it at each step. -/
def lowerBound (t : Table) (target lo hi : Nat) : Nat :=
  if lo < hi then
    let mid := lo + (hi - lo) / 2
    match t.timestampAt? mid with
    | some ts => if ts < target then t.lowerBound target (mid + 1) hi else t.lowerBound target lo mid
    | none => t.lowerBound target lo mid
  else lo
termination_by hi - lo

/-- The first offset whose entry, stale or live, is not older than `target`;
`none` when every entry is older. -/
def firstAtOrAfter? (t : Table) (target : Nat) : Option Nat :=
  if t.size = 0 ∨ t.maxTimestamp < target then none
  else if t.minTimestamp?.any (target ≤ ·) then some 0
  else
    let lo := t.lowerBound target 0 t.size
    if lo < t.size then some lo else none

/-- The offsets `[start, stop)` of the entries written in `[lo, hi)`: from the
first entry not older than `lo` to the first not older than `hi`, or to the end. -/
def offsetRange (t : Table) (lo hi : Nat) : Nat × Nat :=
  match t.firstAtOrAfter? lo with
  | some start =>
    match t.firstAtOrAfter? hi with
    | some stop => (start, stop)
    | none => (start, t.size)
  | none => (0, 0)

/-- The live rows at the offsets `[start, stop)`, with their offsets;
subsumed rows only when asked for. -/
def rowsAt (t : Table) (start stop : Nat) (includeSubsumed : Bool) : List (Nat × Entry) :=
  (((t.entries.toList.drop start).take (stop - start)).zipIdx start).filterMap fun (e, i) =>
    if e.live && (includeSubsumed || !e.output.subsumed) then some (i, e) else none

/-- The live rows written in `[lo, hi)`, read at their offsets. -/
def rowsInRange (t : Table) (lo hi : Nat) (includeSubsumed : Bool) : List (Nat × Entry) :=
  t.rowsAt (t.offsetRange lo hi).1 (t.offsetRange lo hi).2 includeSubsumed

end Table

end Saturate
