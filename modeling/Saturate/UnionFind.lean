/-!
The union-find over e-class ids: a parent array with union by size and path
halving. Besides the forest it remembers the ids that stopped being roots,
tagged by the sort of the union: unions stage them, and
`UnionFind.advanceRound` hands the staged ids to the next rebuild round.

Ids are positions in the parent array. The root chase takes as many steps as
there are ids at most, which is its fuel: along a chain of a forest no id
repeats.
-/

namespace Saturate

/-- The union-find state. -/
structure UnionFind where
  parents : Array Nat
  sizes : Array Nat
  unions : Nat
  /-- Ids that stopped being roots before the current rebuild round, with sorts. -/
  recent : Array (String × Nat)
  /-- Ids that stopped being roots since the last round began. -/
  staged : Array (String × Nat)
  deriving Inhabited, Repr

namespace UnionFind

/-- The union-find with no ids. -/
def empty : UnionFind := ⟨#[], #[], 0, #[], #[]⟩

/-- The number of ids ever made. -/
def size (uf : UnionFind) : Nat := uf.parents.size

/-- A fresh singleton class. -/
def makeSet (uf : UnionFind) : UnionFind × Nat :=
  let id := uf.parents.size
  ({ uf with parents := uf.parents.push id, sizes := uf.sizes.push 1 }, id)

/-- The parent of a known id. -/
def parent? (uf : UnionFind) (x : Nat) : Option Nat := uf.parents[x]?

/-- Chase parents from `x` for at most `fuel` steps. -/
def rootWithin (uf : UnionFind) : Nat → Nat → Nat
  | 0, x => x
  | fuel + 1, x =>
    match uf.parent? x with
    | some p => if p = x then x else uf.rootWithin fuel p
    | none => x

/-- The root of a known id, without changing the forest; `none` for an id
that was never made. -/
def find? (uf : UnionFind) (x : Nat) : Option Nat :=
  if x < uf.size then some (uf.rootWithin uf.size x) else none

/-- Path halving from `x`: every id visited is pointed at its grandparent. -/
def halve (uf : UnionFind) : Nat → Nat → UnionFind × Nat
  | 0, x => (uf, x)
  | fuel + 1, x =>
    match uf.parent? x with
    | none => (uf, x)
    | some p =>
      if p = x then (uf, x)
      else
        let g := (uf.parent? p).getD p
        ({ uf with parents := uf.parents.set! x g }).halve fuel g

/-- The root of a known id, halving the path on the way up. -/
def findMut? (uf : UnionFind) (x : Nat) : Option (UnionFind × Nat) :=
  if x < uf.size then some (uf.halve uf.size x) else none

/-- Merge two known roots: the larger class survives and the first root wins
a tie. The loser is staged as dirty for `sort`. -/
def link (uf : UnionFind) (r1 r2 : Nat) (sort : String) : UnionFind × Nat :=
  if r1 = r2 then (uf, r1)
  else
    let s1 := uf.sizes[r1]?.getD 0
    let s2 := uf.sizes[r2]?.getD 0
    let (winner, loser) := if s1 ≥ s2 then (r1, r2) else (r2, r1)
    ({ uf with
        parents := uf.parents.set! loser winner
        sizes := uf.sizes.set! winner (s1 + s2)
        unions := uf.unions + 1
        staged := uf.staged.push (sort, loser) }, winner)

/-- Union the classes of two ids; an error names the first id that was never made. -/
def union (uf : UnionFind) (a b : Nat) (sort : String) : Except Nat (UnionFind × Nat) :=
  match uf.findMut? a with
  | none => .error a
  | some (uf, r1) =>
    match uf.findMut? b with
    | none => .error b
    | some (uf, r2) => .ok (uf.link r1 r2 sort)

/-- Whether a union happened since the current round began. -/
def isDirty (uf : UnionFind) : Bool := !uf.staged.isEmpty

/-- Whether the current round has dirty ids. -/
def hasRecent (uf : UnionFind) : Bool := !uf.recent.isEmpty

/-- Start a rebuild round: the staged ids become the round's dirty ids. -/
def advanceRound (uf : UnionFind) : UnionFind :=
  { uf with recent := uf.staged, staged := #[] }

/-- The dirty ids of a sort in the current round. -/
def dirtyIds (uf : UnionFind) (sort : String) : List Nat :=
  uf.recent.toList.filterMap fun (s, id) => if s = sort then some id else none

end UnionFind

end Saturate
