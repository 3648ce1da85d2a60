import Std.Data.HashMap
import Saturate.Value

/-!
The rows of a function: a map from input tuples to outputs that remembers
the order in which rows were written.

Entries are appended and never moved, except by `Table.rehash`. Writing a
new output for existing inputs, or removing a row, marks the old entry
stale and keeps it in place, so positions (offsets) of live entries stay
put between rehashes. Every write happens at a timestamp no smaller than
any before it, so entries are sorted by timestamp and the rows written in
an interval of time are a filter over the entries.

A row's subsumption is sticky: writing a new output keeps it subsumed.
-/

namespace Saturate

/-- The output of a row with the timestamp of its last change. -/
structure RowOutput where
  value : Value
  timestamp : Nat
  subsumed : Bool
  deriving DecidableEq, Repr, Inhabited

/-- One written row; a stale entry was overwritten or removed. -/
structure Entry where
  inputs : List Value
  live : Bool
  output : RowOutput
  deriving Repr, Inhabited

/-- The entries of a function and the offset of the live entry of each input tuple. -/
structure Table where
  entries : Array Entry
  index : Std.HashMap (List Value) Nat
  stale : Nat
  /-- No entry was written or removed at a later timestamp. -/
  maxTimestamp : Nat

namespace Table

instance : Inhabited Table := ⟨⟨#[], {}, 0, 0⟩⟩

/-- The table without rows. -/
def empty : Table := ⟨#[], {}, 0, 0⟩

/-- The number of entries, stale ones included. -/
def size (t : Table) : Nat := t.entries.size

/-- The number of live rows. -/
def numLive (t : Table) : Nat := t.index.size

/-- More than half of the entries are stale. -/
def tooStale (t : Table) : Bool := t.stale > t.entries.size / 2

/-- Drop the stale entries; live entries keep their order and get new offsets. -/
def rehash (t : Table) : Table :=
  let live := t.entries.filter (·.live)
  let index := live.foldl (fun (m, i) e => (m.insert e.inputs i, i + 1))
    ((∅ : Std.HashMap (List Value) Nat), 0)
  { t with entries := live, index := index.1, stale := 0 }

/-- The offset of the live entry for some inputs. -/
def offset? (t : Table) (inputs : List Value) : Option Nat := t.index.get? inputs

/-- The output of the row for some inputs. -/
def get? (t : Table) (inputs : List Value) : Option RowOutput := do
  let i ← t.offset? inputs
  let e ← t.entries[i]?
  pure e.output

/-- The live entry at an offset. -/
def entry? (t : Table) (i : Nat) : Option Entry :=
  match t.entries[i]? with
  | some e => if e.live then some e else none
  | none => none

/-- Mark the entry at an offset stale. -/
def markStale (t : Table) (i : Nat) : Table :=
  { t with entries := t.entries.modify i fun e => { e with live := false }, stale := t.stale + 1 }

/-- Add a live entry at the end and point the index at it. -/
def append (t : Table) (inputs : List Value) (out : RowOutput) : Table :=
  let offset := t.entries.size
  { t with
    entries := t.entries.push ⟨inputs, true, out⟩
    index := t.index.insert inputs offset
    maxTimestamp := out.timestamp }

/-- Write `value` as the output for `inputs` at timestamp `ts`. A row that is
already there keeps its subsumption; when neither its output nor its
subsumption changes, nothing is written. -/
def put (t : Table) (inputs : List Value) (value : Value) (ts : Nat) (subsumed : Bool) : Table :=
  match t.offset? inputs with
  | some i =>
    let prev := (t.entries[i]?.map (·.output)).getD ⟨value, ts, subsumed⟩
    let subsumed := subsumed || prev.subsumed
    if value = prev.value && subsumed = prev.subsumed then t
    else (t.markStale i).append inputs ⟨value, ts, subsumed⟩
  | none => t.append inputs ⟨value, ts, subsumed⟩

/-- Remove the row for `inputs` at timestamp `ts`; the flag says whether there was one. -/
def remove (t : Table) (inputs : List Value) (ts : Nat) : Table × Bool :=
  match t.offset? inputs with
  | some i =>
    let t := t.markStale i
    ({ t with index := t.index.erase inputs, maxTimestamp := max t.maxTimestamp ts }, true)
  | none => (t, false)

/-- Mark the row for `inputs` subsumed; the flag is false when there is no
such row or it was subsumed already. -/
def subsume (t : Table) (inputs : List Value) (ts : Nat) : Table × Bool :=
  match t.get? inputs with
  | some out => if out.subsumed then (t, false) else (t.put inputs out.value ts true, true)
  | none => (t, false)

/-- The live rows with their offsets, in offset order; subsumed rows only
when asked for. -/
def rows (t : Table) (includeSubsumed : Bool) : List (Nat × Entry) :=
  (t.entries.toList.zipIdx).filterMap fun (e, i) =>
    if e.live && (includeSubsumed || !e.output.subsumed) then some (i, e) else none

/-- The live rows last written at a timestamp in `[lo, hi)`. -/
def rowsBetween (t : Table) (lo : Nat) (hi : Option Nat) (includeSubsumed : Bool) :
    List (Nat × Entry) :=
  (t.rows includeSubsumed).filter fun (_, e) =>
    lo ≤ e.output.timestamp && hi.all (e.output.timestamp < ·)

/-- Some entry, stale or live, was written at `ts` or later. -/
def touchedSince (t : Table) (ts : Nat) : Bool :=
  t.entries.any (·.output.timestamp ≥ ts)

end Table

end Saturate
