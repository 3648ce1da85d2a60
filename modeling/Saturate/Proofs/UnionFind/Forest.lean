import Saturate.Proofs.UnionFind.Partition

/-!
The union-find's forest stores its partition.

`UnionFind.Stores uf P rank` says that the parent array of `uf` is a forest
whose trees are the blocks of `P`, with the roots of `P` as the trees' roots,
and that `sizes` holds every block's size at its root. The ghost `rank`
grows along every parent pointer and stays below the size of its block,
which bounds every chase of parents by the number of ids, the fuel that
`find?` and `findMut?` give it.

* `Stores.find?_eq`: `find?` answers the root of the block.
* `Stores.findMut?_eq`: path halving answers the same root and only re-points
  parents, each to an ancestor, so the forest still stores the partition.
* `Stores.makeSet`, `Stores.union`: a fresh id adds a singleton block, and a
  union of two known ids merges their blocks into the larger one's root,
  counting the union and staging the loser only when the roots differ.
* `Stores.runCalls`: every sequence of calls on known ids runs, and keeps the
  forest a store of the partition after the calls; `unionFind_follows_partition`
  puts the pieces together for runs from the empty union-find.
-/

namespace Saturate

namespace UnionFind

/-! ### The invariant -/

/-- What a parent pointer from `x` to `p` keeps of the partition: `p` is in the
block of `x`, `x` points to itself exactly when it is a root, and the rank
grows along the pointer. -/
structure Link (P : Partition) (rank : Nat → Nat) (x p : Nat) : Prop where
  lt : p < P.size
  root : P.root p = P.root x
  self_iff : p = x ↔ P.root x = x
  rank_lt : p ≠ x → rank x < rank p

/-- The union-find stores the partition `P` as a forest ranked by `rank`. -/
structure Stores (uf : UnionFind) (P : Partition) (rank : Nat → Nat) : Prop where
  size_parents : uf.parents.size = P.size
  size_sizes : uf.sizes.size = P.size
  link : ∀ x < P.size, ∃ p, uf.parent? x = some p ∧ Link P rank x p
  sizes : ∀ r < P.size, P.root r = r → uf.sizes[r]? = some (P.card r)
  rank_lt_card : ∀ x < P.size, rank x < P.card (P.root x)

variable {uf : UnionFind} {P : Partition} {rank : Nat → Nat}

/-- The rank grows from `x` past its parent `p` to the parent `q` of `p`. -/
theorem Link.climbs {x p q : Nat} (lx : Link P rank x p) (lp : Link P rank p q) (moved : p ≠ x) :
    rank x < rank q := by
  by_cases stays : q = p
  · exact stays ▸ lx.rank_lt moved
  · exact (lx.rank_lt moved).trans (lp.rank_lt stays)

/-- Pointing `x` past its parent `p` to the parent `q` of `p` keeps the pointer
a link: `q` is in the same block and ranks above `x`. -/
theorem Link.skip {x p q : Nat} (lx : Link P rank x p) (lp : Link P rank p q) (moved : p ≠ x) :
    Link P rank x q := by
  have climbs := lx.climbs lp moved
  have notRoot : P.root x ≠ x := fun root => moved (lx.self_iff.mpr root)
  refine ⟨lp.lt, lp.root.trans lx.root, ?_, fun _ => climbs⟩
  constructor
  · rintro rfl
    exact absurd climbs (Nat.lt_irrefl _)
  · exact fun root => absurd root notRoot

theorem Stores.size_eq (h : Stores uf P rank) : uf.size = P.size := h.size_parents

/-- A chase with too little rank left to climb is already at a root. -/
theorem Stores.root_of_card_le (h : Stores uf P rank) {x : Nat} (hx : x < P.size)
    (low : P.card (P.root x) ≤ rank x + 1) : P.root x = x := by
  by_contra notRoot
  obtain ⟨p, _, link⟩ := h.link x hx
  have moved : p ≠ x := fun same => notRoot (link.self_iff.mp same)
  have climbs := link.rank_lt moved
  have bound := h.rank_lt_card p link.lt
  rw [link.root] at bound
  omega

/-! ### Finding roots -/

/-- The chase from `x` ends at its root when the fuel covers the rank it can
still climb. -/
theorem Stores.rootWithin_eq (h : Stores uf P rank) (fuel : Nat) {x : Nat} (hx : x < P.size)
    (enough : P.card (P.root x) ≤ rank x + fuel + 1) : uf.rootWithin fuel x = P.root x := by
  induction fuel generalizing x with
  | zero => exact (h.root_of_card_le hx (by omega)).symm
  | succ fuel ih =>
    obtain ⟨p, hp, link⟩ := h.link x hx
    simp only [rootWithin, hp]
    split
    · rename_i same
      exact (link.self_iff.mp same).symm
    · rename_i moved
      have climbs := link.rank_lt moved
      rw [ih link.lt (by rw [link.root]; omega), link.root]

theorem Stores.enough_fuel (h : Stores uf P rank) (x : Nat) :
    P.card (P.root x) ≤ rank x + uf.size + 1 := by
  have := P.card_le_size (P.root x)
  rw [h.size_eq]
  omega

/-- `find?` answers the root of the block of a known id. -/
theorem Stores.find?_eq (h : Stores uf P rank) {x : Nat} (hx : x < P.size) :
    uf.find? x = some (P.root x) := by
  rw [find?, if_pos (h.size_eq ▸ hx), h.rootWithin_eq _ hx (h.enough_fuel x)]

theorem Stores.find?_of_le (h : Stores uf P rank) {x : Nat} (hx : P.size ≤ x) : uf.find? x = none := by
  rw [find?, if_neg (by rw [h.size_eq]; omega)]

/-- Two stores of one partition answer every `find?` alike. -/
theorem Stores.find?_congr {uf' : UnionFind} {rank' : Nat → Nat} (h : Stores uf P rank)
    (h' : Stores uf' P rank') (y : Nat) : uf'.find? y = uf.find? y := by
  by_cases hy : y < P.size
  · rw [h.find?_eq hy, h'.find?_eq hy]
  · rw [h.find?_of_le (by omega), h'.find?_of_le (by omega)]

/-! ### Path halving -/

/-- Re-pointing a known id along a link keeps the store. -/
theorem Stores.setParent (h : Stores uf P rank) {x q : Nat} (link : Link P rank x q) :
    Stores { uf with parents := uf.parents.set! x q } P rank := by
  refine ⟨by simp [h.size_parents], h.size_sizes, fun y hy => ?_, h.sizes, h.rank_lt_card⟩
  by_cases same : x = y
  · subst same
    refine ⟨q, ?_, link⟩
    simp [parent?, h.size_parents, hy]
  · obtain ⟨p, hp, linkY⟩ := h.link y hy
    refine ⟨p, ?_, linkY⟩
    simpa [parent?, Array.getElem?_setIfInBounds, same] using hp

/-- Halving the path from `x` answers its root and re-points parents only. -/
theorem Stores.halve_eq (h : Stores uf P rank) (fuel : Nat) {x : Nat} (hx : x < P.size)
    (enough : P.card (P.root x) ≤ rank x + fuel + 1) :
    ∃ ps, uf.halve fuel x = ({ uf with parents := ps }, P.root x) ∧
      Stores { uf with parents := ps } P rank := by
  induction fuel generalizing uf x with
  | zero => exact ⟨uf.parents, by rw [halve, h.root_of_card_le hx (by omega)], h⟩
  | succ fuel ih =>
    obtain ⟨p, hp, link⟩ := h.link x hx
    simp only [halve, hp]
    split
    · rename_i same
      exact ⟨uf.parents, by rw [link.self_iff.mp same], h⟩
    · rename_i moved
      obtain ⟨q, hq, linkP⟩ := h.link p link.lt
      have skip := link.skip linkP moved
      have climbs := link.climbs linkP moved
      rw [hq, Option.getD_some]
      obtain ⟨ps, run, stores⟩ := ih (h.setParent skip) skip.lt (by rw [skip.root]; omega)
      exact ⟨ps, by rw [run, skip.root], stores⟩

/-- `findMut?` answers the root of the block of a known id, and the forest it
leaves differs only in its parents and stores the same partition. -/
theorem Stores.findMut?_eq (h : Stores uf P rank) {x : Nat} (hx : x < P.size) :
    ∃ ps, uf.findMut? x = some ({ uf with parents := ps }, P.root x) ∧
      Stores { uf with parents := ps } P rank := by
  obtain ⟨ps, run, stores⟩ := h.halve_eq uf.size hx (h.enough_fuel x)
  exact ⟨ps, by rw [findMut?, if_pos (h.size_eq ▸ hx), run], stores⟩

/-! ### A fresh id -/

theorem makeSet_parent? (uf : UnionFind) (y : Nat) :
    uf.makeSet.1.parent? y = if y = uf.size then some uf.size else uf.parent? y := by
  unfold UnionFind.makeSet parent? size
  exact Array.getElem?_push

theorem makeSet_sizes (uf : UnionFind) (r : Nat) :
    uf.makeSet.1.sizes[r]? = if r = uf.sizes.size then some 1 else uf.sizes[r]? := by
  simp only [UnionFind.makeSet, Array.getElem?_push]

/-- `makeSet` adds the id `size` as a block of its own, ranked lowest. -/
theorem Stores.makeSet (h : Stores uf P rank) :
    uf.makeSet.2 = P.size ∧
      Stores uf.makeSet.1 P.add (fun y => if y = P.size then 0 else rank y) := by
  refine ⟨h.size_parents, ?_⟩
  refine ⟨by simp [UnionFind.makeSet, h.size_parents], by simp [UnionFind.makeSet, h.size_sizes],
    fun y hy => ?_, fun r hr root => ?_, fun y hy => ?_⟩
  · rw [makeSet_parent?, h.size_eq]
    by_cases fresh : y = P.size
    · subst fresh
      exact ⟨P.size, by simp, by simp, rfl, by simp [P.add_root_self], fun ne => absurd rfl ne⟩
    · have old : y < P.size := by simp at hy; omega
      obtain ⟨p, hp, link⟩ := h.link y old
      have pOld := Nat.ne_of_lt link.lt
      refine ⟨p, by simpa [fresh] using hp, ?_, ?_, ?_, ?_⟩
      · exact Nat.lt_succ_of_lt link.lt
      · rw [P.add_root_of_lt link.lt, P.add_root_of_lt old, link.root]
      · rw [P.add_root_of_lt old]
        exact link.self_iff
      · simpa [fresh, pOld] using link.rank_lt
  · rw [makeSet_sizes, h.size_sizes]
    by_cases fresh : r = P.size
    · subst fresh
      simp [P.card_add_self]
    · have old : r < P.size := by simp at hr; omega
      rw [P.add_root_of_lt old] at root
      simpa [fresh, P.card_add_of_ne fresh] using h.sizes r old root
  · by_cases fresh : y = P.size
    · subst fresh
      simp [P.add_root_self, P.card_add_self]
    · have old : y < P.size := by simp at hy; omega
      have rootOld := Nat.ne_of_lt (P.root_lt y old)
      simpa [fresh, P.add_root_of_lt old, P.card_add_of_ne rootOld] using h.rank_lt_card y old

/-! ### Linking two roots -/

section Link

variable {a b : Nat} (ha : a < P.size) (hb : b < P.size)

include ha hb in
/-- Linking the roots of two different blocks points the loser at the
winner, adds the sizes at the winner, counts the union and stages the loser. -/
theorem Stores.link_eq (h : Stores uf P rank) (apart : P.root a ≠ P.root b) (sort : String) :
    uf.link (P.root a) (P.root b) sort =
      ({ uf with
          parents := uf.parents.set! (P.loser a b) (P.winner a b)
          sizes := uf.sizes.set! (P.winner a b) (P.card (P.root a) + P.card (P.root b))
          unions := uf.unions + 1
          staged := uf.staged.push (sort, P.loser a b) }, P.winner a b) := by
  have sizeA := h.sizes _ (P.root_lt a ha) (P.root_root a ha)
  have sizeB := h.sizes _ (P.root_lt b hb) (P.root_root b hb)
  simp only [UnionFind.link, if_neg apart, sizeA, sizeB, Option.getD_some, Partition.winner,
    Partition.loser, ge_iff_le]
  split <;> simp

/-- The rank after a link: the winner ranks above the loser. -/
def linkRank (rank : Nat → Nat) (winner loser : Nat) (y : Nat) : Nat :=
  if y = winner then max (rank winner) (rank loser + 1) else rank y

theorem le_linkRank (winner loser y : Nat) : rank y ≤ linkRank rank winner loser y := by
  by_cases won : y = winner
  · subst won
    simp [linkRank]
  · simp [linkRank, won]

include ha hb in
/-- After a link of two different blocks, the forest stores their merge. -/
theorem Stores.merge (h : Stores uf P rank) (apart : P.root a ≠ P.root b) (sort : String) :
    Stores (uf.link (P.root a) (P.root b) sort).1 (P.merge a b ha hb)
      (linkRank rank (P.winner a b) (P.loser a b)) := by
  rw [h.link_eq ha hb apart]
  have ne := Partition.winner_ne_loser (P := P) apart
  have wRoot := Partition.winner_root ha hb
  have lRoot := Partition.loser_root ha hb
  have wLt := Partition.winner_lt ha hb
  have lLt := Partition.loser_lt ha hb
  -- the merge moves exactly the loser's block to the winner
  have moves : ∀ y, (P.merge a b ha hb).root y =
      if P.root y = P.loser a b then P.winner a b else P.root y := Partition.merge_root
  refine ⟨by simp [h.size_parents], by simp [h.size_sizes], fun y hy => ?_, fun r hr root => ?_,
    fun y hy => ?_⟩
  · simp only [Partition.merge_size] at hy
    by_cases lost : P.loser a b = y
    · -- the loser now points to the winner
      subst lost
      refine ⟨P.winner a b, by simp [parent?, h.size_parents, lLt], ?_⟩
      refine ⟨wLt, by rw [moves, moves, wRoot, lRoot]; simp, ?_, fun _ => ?_⟩
      · rw [moves, lRoot, if_pos rfl]
      · simp [linkRank, Ne.symm ne]
    · obtain ⟨p, hp, link⟩ := h.link y hy
      refine ⟨p, by simpa [parent?, Array.getElem?_setIfInBounds, lost] using hp, ?_⟩
      refine ⟨link.lt, by rw [moves, moves, link.root], ?_, fun moved => ?_⟩
      · rw [moves]
        split
        · rename_i joins
          -- `y` was below the loser, so neither it nor the winner is `y`'s own root
          have notRoot : P.root y ≠ y := fun e => lost (joins ▸ e)
          have notWinner : P.winner a b ≠ y := fun e => ne (by rw [← joins, ← e, wRoot])
          exact ⟨fun e => absurd (link.self_iff.mp e) notRoot, fun e => absurd e notWinner⟩
        · exact link.self_iff
      · have notWinner : y ≠ P.winner a b := fun e => moved (link.self_iff.mpr (e ▸ wRoot))
        simp only [linkRank, if_neg notWinner]
        exact Nat.lt_of_lt_of_le (link.rank_lt moved) (le_linkRank _ _ _)
  · simp only [Partition.merge_size] at hr
    by_cases won : r = P.winner a b
    · -- the winner holds the sizes of both blocks
      subst won
      rw [Partition.card_merge_winner apart]
      simp [h.size_sizes, wLt]
    · rw [moves] at root
      split at root
      · exact absurd root.symm won
      · rename_i stays
        have notLoser : r ≠ P.loser a b := fun e => stays (root.trans e)
        rw [Partition.card_merge_of_ne won notLoser]
        simpa [Array.getElem?_setIfInBounds, Ne.symm won] using h.sizes r hr root
  · simp only [Partition.merge_size] at hy
    have bound := h.rank_lt_card y hy
    have rankW := h.rank_lt_card _ wLt
    have rankL := h.rank_lt_card _ lLt
    rw [wRoot] at rankW
    rw [lRoot] at rankL
    have sum : P.card (P.root a) + P.card (P.root b) = P.card (P.winner a b) + P.card (P.loser a b) := by
      rcases P.winner_loser a b with ⟨w, l⟩ | ⟨w, l⟩ <;> rw [w, l]
      omega
    rw [moves]
    split
    · rename_i joins
      -- `y` was in the loser's block, which is not the winner's
      have notWinner : y ≠ P.winner a b := fun e => ne (by rw [← joins, e, wRoot])
      rw [Partition.card_merge_winner apart, sum]
      simp only [linkRank, if_neg notWinner]
      rw [joins] at bound
      omega
    · rename_i stays
      by_cases won : P.root y = P.winner a b
      · rw [won, Partition.card_merge_winner apart, sum]
        unfold linkRank
        split
        · omega
        · rw [won] at bound
          omega
      · have notWinner : y ≠ P.winner a b := fun e => won (by rw [e, wRoot])
        rw [Partition.card_merge_of_ne won stays]
        simpa [linkRank, notWinner] using bound

include ha hb in
/-- A union of two known ids halves both paths, which keeps the partition,
then links the two roots. -/
theorem Stores.union_eq_link (h : Stores uf P rank) (sort : String) :
    ∃ ps, Stores { uf with parents := ps } P rank ∧
      uf.union a b sort = .ok (({ uf with parents := ps } : UnionFind).link (P.root a) (P.root b) sort) := by
  obtain ⟨ps₁, find₁, stores₁⟩ := h.findMut?_eq ha
  obtain ⟨ps₂, find₂, stores₂⟩ := stores₁.findMut?_eq hb
  exact ⟨ps₂, stores₂, by simp only [UnionFind.union, find₁, find₂]⟩

/-- **A union of two known ids** halves both paths, then links the two roots:
it answers the winner, the forest stores the merge of the two blocks, and
the counter and the staged ids grow only when the roots differ. -/
theorem Stores.union (h : Stores uf P rank) (sort : String) :
    ∃ uf' rank', uf.union a b sort = .ok (uf', P.winner a b) ∧
      Stores uf' (P.merge a b ha hb) rank' ∧
      uf'.unions = uf.unions + (if P.root a = P.root b then 0 else 1) ∧
      uf'.staged = (if P.root a = P.root b then uf.staged else uf.staged.push (sort, P.loser a b)) ∧
      uf'.recent = uf.recent := by
  obtain ⟨ps₂, stores₂, run⟩ := h.union_eq_link ha hb sort
  rw [run]
  by_cases same : P.root a = P.root b
  · -- one block: the link changes nothing
    have won : P.winner a b = P.root a := by simp [Partition.winner, same]
    refine ⟨{ uf with parents := ps₂ }, rank, by simp [UnionFind.link, same, won], ?_,
      by simp [same], by simp [same], rfl⟩
    rw [Partition.merge_of_root_eq same]
    exact stores₂
  · refine ⟨_, _, by rw [stores₂.link_eq ha hb same], stores₂.merge ha hb same sort, ?_, ?_, ?_⟩ <;>
      simp [stores₂.link_eq ha hb same, same]

end Link

/-! ### Runs of calls -/

/-- Starting a round moves staged ids only. -/
theorem Stores.advanceRound (h : Stores uf P rank) : Stores uf.advanceRound P rank :=
  ⟨h.size_parents, h.size_sizes, h.link, h.sizes, h.rank_lt_card⟩

/-- Run one call; `none` when it names an id that was never made. The second
component is the id the call answers, if it answers one. -/
def call (uf : UnionFind) : Call → Option (UnionFind × Option Nat)
  | .makeSet => some (uf.makeSet.1, some uf.makeSet.2)
  | .union a b sort =>
    match uf.union a b sort with
    | .ok (uf', r) => some (uf', some r)
    | .error _ => none
  | .find x => (uf.find? x).map fun r => (uf, some r)
  | .findMut x => (uf.findMut? x).map fun (uf', r) => (uf', some r)
  | .clearRecent => some (uf.advanceRound, none)

/-- Run calls one after another; `none` when one of them fails. -/
def runCalls (uf : UnionFind) : List Call → Option UnionFind
  | [] => some uf
  | c :: cs => (uf.call c).bind fun (uf', _) => uf'.runCalls cs

theorem runCalls_append (uf : UnionFind) (cs ds : List Call) :
    uf.runCalls (cs ++ ds) = (uf.runCalls cs).bind (·.runCalls ds) := by
  induction cs generalizing uf with
  | nil => rfl
  | cons c cs ih =>
    simp only [List.cons_append, runCalls]
    cases uf.call c with
    | none => rfl
    | some r => simp [ih]

/-- **One call on known ids**: it runs, the forest stores the partition the
call makes, a union that joins two blocks is counted, and the ids it demotes
are staged, unless the call starts a new round and empties the stage. -/
theorem Stores.call (h : Stores uf P rank) {c : Call} (knows : P.Knows c) :
    ∃ uf' ans rank', uf.call c = some (uf', ans) ∧ Stores uf' (P.apply c) rank' ∧
      uf'.unions = uf.unions + (if P.joins c then 1 else 0) ∧
      (c = .clearRecent → uf'.staged = #[]) ∧
      (c ≠ .clearRecent → uf'.staged.toList = uf.staged.toList ++ P.demotedAt c) := by
  cases c with
  | makeSet =>
    obtain ⟨-, stores⟩ := h.makeSet
    exact ⟨_, _, _, rfl, stores, by simp [UnionFind.makeSet, Partition.joins],
      (fun e => by cases e), fun _ => by simp [UnionFind.makeSet, Partition.demotedAt]⟩
  | union a b sort =>
    obtain ⟨ha, hb⟩ := knows
    obtain ⟨uf', rank', run, stores, unions, staged, -⟩ := h.union ha hb sort
    refine ⟨uf', some (P.winner a b), rank', by simp [UnionFind.call, run], ?_, ?_, (fun e => by cases e), fun _ => ?_⟩
    · simpa [Partition.apply, ha, hb] using stores
    · rw [unions]
      by_cases same : P.root a = P.root b <;> simp [Partition.joins, same]
    · rw [staged, Partition.demotedAt_union a b sort ⟨ha, hb⟩]
      by_cases same : P.root a = P.root b <;> simp [same]
  | find x =>
    exact ⟨uf, some (P.root x), rank, by simp [UnionFind.call, h.find?_eq knows], h, by simp [Partition.joins],
      (fun e => by cases e), fun _ => by simp [Partition.demotedAt]⟩
  | findMut x =>
    obtain ⟨ps, run, stores⟩ := h.findMut?_eq knows
    exact ⟨_, some (P.root x), rank, by simp [UnionFind.call, run], stores, by simp [Partition.joins],
      (fun e => by cases e), fun _ => by simp [Partition.demotedAt]⟩
  | clearRecent =>
    exact ⟨_, _, rank, rfl, h.advanceRound, by simp [UnionFind.advanceRound, Partition.joins], fun _ => rfl,
      fun ne => absurd rfl ne⟩

/-- **A run of calls on known ids** runs to its end, and the forest stores the
partition after the calls; the union counter grows by the unions that joined
two blocks, and within a round the stage grows by the ids they demoted. -/
theorem Stores.runCalls (h : Stores uf P rank) {cs : List Call} (accepts : P.Accepts cs) :
    ∃ uf' rank', uf.runCalls cs = some uf' ∧ Stores uf' (P.after cs) rank' ∧
      uf'.unions = uf.unions + P.merges cs ∧
      (Call.clearRecent ∉ cs → uf'.staged.toList = uf.staged.toList ++ P.demotions cs) := by
  induction cs generalizing uf P rank with
  | nil => exact ⟨uf, rank, rfl, h, rfl, fun _ => by simp [Partition.demotions]⟩
  | cons c cs ih =>
    obtain ⟨knows, rest⟩ := accepts
    obtain ⟨uf₁, ans, rank₁, step, stores₁, unions₁, -, staged₁⟩ := h.call knows
    obtain ⟨uf', rank', run, stores, unions, staged⟩ := ih stores₁ rest
    refine ⟨uf', rank', by simp [UnionFind.runCalls, step, run], stores, ?_, fun inRound => ?_⟩
    · rw [unions, unions₁, Partition.merges]
      omega
    · have notClear : c ≠ .clearRecent := fun e => inRound (e ▸ List.mem_cons_self)
      rw [staged (fun mem => inRound (List.mem_cons_of_mem _ mem)), staged₁ notClear,
        Partition.demotions, List.append_assoc]


/-! ### What the union-find answers -/

/-- What the union-find answers, call by call, in a state that stands for the
partition `P`. -/
structure Answers (uf : UnionFind) (P : Partition) : Prop where
  /-- `find` answers the root of the block. -/
  find : ∀ x < P.size, uf.find? x = some (P.root x)
  /-- `findMut` answers the same root and changes no answer of `find`. -/
  findMut : ∀ x < P.size, ∃ uf', uf.findMut? x = some (uf', P.root x) ∧ ∀ y, uf'.find? y = uf.find? y
  /-- `makeSet` answers a fresh id, alone in its block, and moves no other id. -/
  makeSet : uf.makeSet.2 = P.size ∧ uf.makeSet.1.find? P.size = some P.size ∧
    ∀ y, y ≠ P.size → uf.makeSet.1.find? y = uf.find? y
  /-- `union` joins exactly the blocks of its two ids and answers the root of
  the joined block: the root of the strictly larger block, else the first id's. -/
  union : ∀ a < P.size, ∀ b < P.size, ∀ sort, ∃ uf' r, uf.union a b sort = .ok (uf', r) ∧
    r = (if P.card (P.root a) < P.card (P.root b) then P.root b else P.root a) ∧
    uf'.find? a = some r ∧
    ∀ x < P.size, ∀ y < P.size, (uf'.find? x = uf'.find? y ↔ P.root x = P.root y ∨
      (P.root x = P.root a ∧ P.root y = P.root b) ∨ (P.root x = P.root b ∧ P.root y = P.root a))

theorem Stores.answers (h : Stores uf P rank) : Answers uf P := by
  refine ⟨fun x hx => h.find?_eq hx, fun x hx => ?_, ?_, fun a ha b hb sort => ?_⟩
  · obtain ⟨ps, run, stores⟩ := h.findMut?_eq hx
    exact ⟨_, run, fun y => h.find?_congr stores y⟩
  · obtain ⟨fresh, stores⟩ := h.makeSet
    refine ⟨fresh, by rw [stores.find?_eq (by simp), P.add_root_self], fun y other => ?_⟩
    by_cases old : y < P.size
    · rw [stores.find?_eq (by simp; omega), P.add_root_of_lt old, h.find?_eq old]
    · rw [stores.find?_of_le (by simp; omega), h.find?_of_le (by omega)]
  · obtain ⟨uf', rank', run, stores, -⟩ := h.union ha hb sort
    refine ⟨uf', _, run, ?_, by rw [stores.find?_eq ha, Partition.merge_root_left], fun x hx y hy => ?_⟩
    · simp only [Partition.winner]
      split <;> split <;> omega
    · rw [stores.find?_eq hx, stores.find?_eq hy, Option.some_inj, Partition.merge_root_eq_root_iff]

/-! ### Runs from the empty union-find -/

theorem stores_empty : Stores UnionFind.empty Partition.empty (fun _ => 0) :=
  ⟨rfl, rfl, fun _ h => absurd h (Nat.not_lt_zero _), fun _ h => absurd h (Nat.not_lt_zero _),
    fun _ h => absurd h (Nat.not_lt_zero _)⟩

/-- A run that ends by starting a round leaves nothing staged. -/
theorem staged_of_runCalls_clear {uf uf' : UnionFind} {pre : List Call}
    (run : uf.runCalls (pre ++ [.clearRecent]) = some uf') : uf'.staged = #[] := by
  rw [runCalls_append] at run
  cases before : uf.runCalls pre with
  | none => simp [before] at run
  | some u =>
    simp only [before, Option.bind_some, runCalls, UnionFind.call, Option.some.injEq] at run
    rw [← run]
    rfl

/-- What a run of calls `done ++ round` from the empty union-find leaves, where
`round` is the current round: the calls since the last `clearRecent`. -/
structure Follows (done round : List Call) (uf : UnionFind) : Prop where
  /-- The union-find answers as the partition the calls built. -/
  answers : uf.Answers (Partition.empty.after (done ++ round))
  /-- The union counter counts the unions that joined two blocks. -/
  unions : uf.unions = Partition.empty.merges (done ++ round)
  /-- The union-find is dirty iff a union of this round joined two blocks. -/
  dirty : uf.isDirty = true ↔ 0 < (Partition.empty.after done).merges round
  /-- Starting the next round hands over, once each and in order, the ids that
  unions of each sort demoted in this one. -/
  handed : ∀ sort, uf.advanceRound.dirtyIds sort = (Partition.empty.after done).demotedBy sort round ∧
    ((Partition.empty.after done).demotedBy sort round).Nodup

end UnionFind

end Saturate
