import Saturate.Prim.Apply
import Saturate.UnionFind

/-!
Values seen through their sorts: the elements one level down in a
container, and the canonical form of a value under a union-find.

The canonical form replaces every e-class id reachable from a value by its
root. A container whose elements change is stored again, so canonicalising
can intern new contents: a set is sorted and loses repeats anew, and of two
map keys that become equal the binding of the larger original key stays.

A container only holds values that existed when it was stored, so nesting
is no deeper than the number of interned contents; that number bounds the
recursion.
-/

namespace Saturate

/-- The number of contents interned in all container tables. -/
def Pool.itemCount (p : Pool) : Nat := p.tables.foldl (fun n t => n + t.items.size) 0

namespace SortInfo

/-- The elements one level down in a container value, with their sorts. -/
def innerValues (s : SortInfo) (v : Value) : PoolM (List (SortInfo × Value)) := do
  match s with
  | .set _ t e | .vec _ t e =>
    match ← PoolM.load t v with
    | .set xs | .vec xs => pure (xs.map (e, ·))
    | _ => throw PoolM.missing
  | .map _ t k w =>
    match ← PoolM.load t v with
    | .map xs => pure (xs.flatMap fun (a, b) => [(k, a), (w, b)])
    | _ => throw PoolM.missing
  | .func _ t _ _ =>
    match ← PoolM.load t v with
    | .partialApp _ args => pure ((← read).argSorts t v.bits |>.zip args)
    | _ => throw PoolM.missing
  | _ => pure []

/-- The root of an e-class id; an id that was never made is a fault. -/
def findRoot (uf : UnionFind) (id : Nat) : PoolM Nat :=
  match uf.find? id with
  | some r => pure r
  | none => throw ("find on unknown id id" ++ toString id)

/-- The canonical form of a value of a sort, with whether it changed, looking
at most `fuel` containers deep. -/
def canonicalizeWithin (uf : UnionFind) : Nat → SortInfo → Value → PoolM (Value × Bool)
  | 0, _, v => pure (v, false)
  | fuel + 1, s, v => do
    let each (sorted : List (SortInfo × Value)) : PoolM (List Value × Bool) := do
      let rs ← sorted.mapM fun (e, x) => canonicalizeWithin uf fuel e x
      pure (rs.map (·.1), rs.any (·.2))
    match s with
    | .eq _ =>
      let r ← findRoot uf v.id
      if r.toUInt64 = v.bits then pure (v, false) else pure ({ v with bits := r.toUInt64 }, true)
    | .set _ t e =>
      match ← PoolM.load t v with
      | .set xs =>
        let (ys, changed) ← each (xs.map (e, ·))
        if changed then pure (← PoolM.store s t (.set (sortedSet (← PoolM.nameKey) ys)) [], true)
        else pure (v, false)
      | _ => throw PoolM.missing
    | .vec _ t e =>
      match ← PoolM.load t v with
      | .vec xs =>
        let (ys, changed) ← each (xs.map (e, ·))
        if changed then pure (← PoolM.store s t (.vec ys) [], true) else pure (v, false)
      | _ => throw PoolM.missing
    | .map _ t k w =>
      match ← PoolM.load t v with
      | .map xs =>
        let (ys, changed) ← each (xs.flatMap fun (a, b) => [(k, a), (w, b)])
        if changed then
          let key ← PoolM.nameKey
          let bindings := (pairUp ys).foldl (fun acc (a, b) => insertBinding key a b acc) []
          pure (← PoolM.store s t (.map bindings) [], true)
        else pure (v, false)
      | _ => throw PoolM.missing
    | .func _ t _ _ =>
      match ← PoolM.load t v with
      | .partialApp name args =>
        let sorts := (← read).argSorts t v.bits
        let (ys, changed) ← each (sorts.zip args)
        if changed then pure (← PoolM.store s t (.partialApp name ys) sorts, true)
        else pure (v, false)
      | _ => throw PoolM.missing
    | _ => pure (v, false)
where
  /-- Consecutive pairs of a list of even length. -/
  pairUp : List Value → List (Value × Value)
    | a :: b :: rest => (a, b) :: pairUp rest
    | _ => []

/-- The canonical form of a value of a sort, with whether it changed. -/
def canonicalize (uf : UnionFind) (s : SortInfo) (v : Value) : PoolM (Value × Bool) := do
  canonicalizeWithin uf ((← read).itemCount + 2) s v

end SortInfo

end Saturate
