import Mathlib
import Saturate.Proofs.UnionFind.Forest

/-!
# Union by size keeps paths short

`UnionFind.Balanced uf P rank` strengthens `Stores`: the block of every id
holds at least `2 ^ rank` ids. A link puts the root of the smaller block
under the root of the larger one, so the winner's rank grows by one only
when the merged block is at least twice the loser's (`Balanced.merge`); path
halving changes no rank. The bound therefore holds after every sequence of
calls (`Balanced.runCalls`).

Ranks grow along every parent pointer that is not a root's self-loop, so
the parents form a forest (`Stores.rank_lt_iterate_up`), and the chase from
an id climbs at most the rank of its root, which is at most `log₂` of the
number of ids (`Balanced.iterate_up_log`).

* `UnionFind.Shallow`: what the forest promises to `find?` and `findMut?`.
* `shallow_of_runCalls`: every sequence of calls from the empty union-find
  leaves a shallow forest.
-/

namespace Saturate

namespace Partition

variable {P : Partition}

/-- The losing block of a merge is never the larger one. -/
theorem card_loser_le_winner (a b : Nat) : P.card (P.loser a b) ≤ P.card (P.winner a b) := by
  unfold winner loser
  split <;> omega

end Partition

namespace UnionFind

/-- One step up the forest: the parent of a known id, any other number itself. -/
def up (uf : UnionFind) (x : Nat) : Nat := (uf.parent? x).getD x

/-- What the forest of a union-find promises: the size stored at a root counts
the ids whose root it is, parents are known ids that close no cycle but a
root's self-loop, and every id reaches its root, the one `find?` and
`findMut?` answer, within `⌊log₂ size⌋` steps up. -/
structure Shallow (uf : UnionFind) : Prop where
  sizes : ∀ r < uf.size, uf.parent? r = some r →
    uf.sizes[r]? = some ((Finset.range uf.size).filter (fun y => uf.find? y = some r)).card
  parent_lt : ∀ x < uf.size, ∃ p < uf.size, uf.parent? x = some p
  acyclic : ∀ x < uf.size, ∀ n, 0 < n → uf.up^[n] x = x → uf.parent? x = some x
  shallow : ∀ x < uf.size, ∃ r, uf.parent? r = some r ∧ uf.up^[Nat.log 2 uf.size] x = r ∧
    uf.find? x = some r ∧ ∃ uf', uf.findMut? x = some (uf', r)

/-- A store of `P` whose ranks are logarithmic: the block of every id holds at
least `2 ^ rank` ids. -/
structure Balanced (uf : UnionFind) (P : Partition) (rank : Nat → Nat) : Prop
    extends Stores uf P rank where
  pow_rank_le : ∀ x < P.size, 2 ^ rank x ≤ P.card (P.root x)

variable {uf : UnionFind} {P : Partition} {rank : Nat → Nat}

/-! ### Climbing the forest -/

theorem Stores.up_eq {x p : Nat} (found : uf.parent? x = some p) : uf.up x = p := by
  rw [up, found, Option.getD_some]

theorem Stores.up_lt (h : Stores uf P rank) {x : Nat} (hx : x < P.size) : uf.up x < P.size := by
  obtain ⟨p, found, link⟩ := h.link x hx
  rw [Stores.up_eq found]
  exact link.lt

/-- No id outranks the root of its block. The induction is on the rank the
chase can still climb, which the size of the block bounds. -/
theorem Stores.rank_le_rank_root (h : Stores uf P rank) {x : Nat} (hx : x < P.size) :
    rank x ≤ rank (P.root x) := by
  obtain ⟨gap, enough⟩ : ∃ gap, P.card (P.root x) ≤ rank x + gap + 1 := ⟨_, h.enough_fuel x⟩
  induction gap generalizing x with
  | zero => rw [h.root_of_card_le hx (by omega)]
  | succ gap ih =>
    obtain ⟨p, _, link⟩ := h.link x hx
    by_cases stays : p = x
    · rw [link.self_iff.mp stays]
    · have climbs := link.rank_lt stays
      have below := ih link.lt (by rw [link.root]; omega)
      rw [link.root] at below
      omega

/-- A step up never lowers the rank. -/
theorem Stores.rank_le_up (h : Stores uf P rank) {x : Nat} (hx : x < P.size) :
    rank x ≤ rank (uf.up x) := by
  obtain ⟨p, found, link⟩ := h.link x hx
  rw [Stores.up_eq found]
  by_cases stays : p = x
  · rw [stays]
  · exact Nat.le_of_lt (link.rank_lt stays)

theorem Stores.iterate_up_lt (h : Stores uf P rank) {x : Nat} (hx : x < P.size) (n : Nat) :
    uf.up^[n] x < P.size := by
  induction n with
  | zero => exact hx
  | succ n ih =>
    rw [Function.iterate_succ_apply']
    exact h.up_lt ih

/-- From an id that is no root, every climb of one step or more ends higher
in rank, so no cycle of parents passes through it. -/
theorem Stores.rank_lt_iterate_up (h : Stores uf P rank) {x : Nat} (hx : x < P.size)
    (notRoot : P.root x ≠ x) (n : Nat) : rank x < rank (uf.up^[n + 1] x) := by
  induction n with
  | zero =>
    obtain ⟨p, found, link⟩ := h.link x hx
    rw [Function.iterate_one, Stores.up_eq found]
    exact link.rank_lt fun stays => notRoot (link.self_iff.mp stays)
  | succ n ih =>
    rw [Function.iterate_succ_apply']
    exact Nat.lt_of_lt_of_le ih (h.rank_le_up (h.iterate_up_lt hx _))

/-- `n` steps up reach the root once they cover the rank between the id and
its root. -/
theorem Stores.iterate_up_eq_root (h : Stores uf P rank) {x : Nat} (hx : x < P.size) (n : Nat)
    (enough : rank (P.root x) ≤ rank x + n) : uf.up^[n] x = P.root x := by
  induction n generalizing x with
  | zero =>
    -- an id that is no root sits strictly below its root in rank
    by_contra moved
    obtain ⟨p, _, link⟩ := h.link x hx
    have stays : p ≠ x := fun same => moved (link.self_iff.mp same).symm
    have climbs := link.rank_lt stays
    have top := h.rank_le_rank_root link.lt
    rw [link.root] at top
    omega
  | succ n ih =>
    rw [Function.iterate_succ_apply]
    obtain ⟨p, found, link⟩ := h.link x hx
    rw [Stores.up_eq found]
    by_cases stays : p = x
    · rw [stays, Function.iterate_fixed (Stores.up_eq (stays ▸ found)), link.self_iff.mp stays]
    · have climbs := link.rank_lt stays
      rw [← link.root]
      exact ih link.lt (by rw [link.root]; omega)

/-- Stored sizes count the ids whose root `find?` answers. -/
theorem Stores.sizes_count (h : Stores uf P rank) {r : Nat} (hr : r < P.size)
    (self : uf.parent? r = some r) :
    uf.sizes[r]? = some ((Finset.range uf.size).filter (fun y => uf.find? y = some r)).card := by
  obtain ⟨p, found, link⟩ := h.link r hr
  rw [found, Option.some_inj] at self
  rw [h.sizes r hr (link.self_iff.mp self), Partition.card, h.size_eq]
  congr 2
  apply Finset.filter_congr
  intro y mem
  rw [h.find?_eq (Finset.mem_range.mp mem), Option.some_inj]

theorem findMut?_of_le {x : Nat} (hx : uf.size ≤ x) : uf.findMut? x = none := by
  rw [findMut?, if_neg (Nat.not_lt.mpr hx)]

/-- A call that runs names only known ids. -/
theorem Stores.knows_of_call (h : Stores uf P rank) {c : Call} {r : UnionFind × Option Nat}
    (run : uf.call c = some r) : P.Knows c := by
  cases c with
  | makeSet | clearRecent => trivial
  | find x =>
    change x < P.size
    by_contra unknown
    simp [UnionFind.call, h.find?_of_le (Nat.le_of_not_lt unknown)] at run
  | findMut x =>
    change x < P.size
    by_contra unknown
    simp [UnionFind.call, findMut?_of_le (h.size_eq ▸ Nat.le_of_not_lt unknown)] at run
  | union a b sort =>
    change a < P.size ∧ b < P.size
    by_cases ha : a < P.size
    · obtain ⟨ps, find₁, stores₁⟩ := h.findMut?_eq ha
      refine ⟨ha, ?_⟩
      by_contra hb
      simp [UnionFind.call, UnionFind.union, find₁,
        findMut?_of_le (stores₁.size_eq ▸ Nat.le_of_not_lt hb)] at run
    · simp [UnionFind.call, UnionFind.union, findMut?_of_le (h.size_eq ▸ Nat.le_of_not_lt ha)] at run

/-! ### The balance of ranks -/

/-- The climb from any id stays within `log₂` of the number of ids. -/
theorem Balanced.rank_root_le_log (h : Balanced uf P rank) {x : Nat} (hx : x < P.size) :
    rank (P.root x) ≤ Nat.log 2 P.size := by
  have pow := h.pow_rank_le _ (P.root_lt x hx)
  rw [P.root_root x hx] at pow
  exact Nat.le_log_of_pow_le Nat.one_lt_two (pow.trans (P.card_le_size _))

theorem Balanced.iterate_up_log (h : Balanced uf P rank) {x : Nat} (hx : x < P.size) :
    uf.up^[Nat.log 2 P.size] x = P.root x :=
  h.iterate_up_eq_root hx _ (by have := h.rank_root_le_log hx; omega)

/-- A balanced store keeps every promise of a shallow forest. -/
theorem Balanced.shallow (h : Balanced uf P rank) : uf.Shallow := by
  have size := h.size_eq
  refine ⟨fun r hr self => h.sizes_count (size ▸ hr) self, fun x hx => ?_, fun x hx n pos cycle => ?_,
    fun x hx => ?_⟩
  · obtain ⟨p, found, link⟩ := h.link x (size ▸ hx)
    exact ⟨p, size ▸ link.lt, found⟩
  · obtain ⟨p, found, link⟩ := h.link x (size ▸ hx)
    by_contra notSelf
    have notRoot : P.root x ≠ x := fun root => notSelf (by rw [found, link.self_iff.mpr root])
    obtain ⟨m, rfl⟩ : ∃ m, n = m + 1 := ⟨n - 1, by omega⟩
    have climbs := h.rank_lt_iterate_up (size ▸ hx) notRoot m
    rw [cycle] at climbs
    exact Nat.lt_irrefl _ climbs
  · have hx' : x < P.size := size ▸ hx
    obtain ⟨ps, halved, -⟩ := h.findMut?_eq hx'
    have rootLt := P.root_lt x hx'
    obtain ⟨p, found, link⟩ := h.link _ rootLt
    refine ⟨P.root x, ?_, by rw [size, h.iterate_up_log hx'], h.find?_eq hx', _, halved⟩
    rw [found, link.self_iff.mpr (P.root_root x hx')]

theorem balanced_empty : Balanced UnionFind.empty Partition.empty (fun _ => 0) :=
  ⟨stores_empty, fun _ h => absurd h (Nat.not_lt_zero _)⟩

/-! ### Calls keep the balance -/

/-- A fresh id is a block of one, of rank zero. -/
theorem Balanced.makeSet (h : Balanced uf P rank) :
    Balanced uf.makeSet.1 P.add (fun y => if y = P.size then 0 else rank y) := by
  refine ⟨h.toStores.makeSet.2, fun y hy => ?_⟩
  by_cases fresh : y = P.size
  · subst fresh
    simp [P.add_root_self, P.card_add_self]
  · have old : y < P.size := by simp at hy; omega
    have rootOld := Nat.ne_of_lt (P.root_lt y old)
    simpa [fresh, P.add_root_of_lt old, P.card_add_of_ne rootOld] using h.pow_rank_le y old

section Link

variable {a b : Nat} (ha : a < P.size) (hb : b < P.size)

include ha hb in
/-- Linking the smaller block under the larger keeps the balance: the
winner's rank grows past the loser's only into a block at least twice the
loser's. -/
theorem Balanced.merge (h : Balanced uf P rank) (apart : P.root a ≠ P.root b) (sort : String) :
    Balanced (uf.link (P.root a) (P.root b) sort).1 (P.merge a b ha hb)
      (linkRank rank (P.winner a b) (P.loser a b)) := by
  refine ⟨h.toStores.merge ha hb apart sort, fun y hy => ?_⟩
  have wRoot := Partition.winner_root ha hb
  have lRoot := Partition.loser_root ha hb
  have powW := h.pow_rank_le _ (Partition.winner_lt ha hb)
  have powL := h.pow_rank_le _ (Partition.loser_lt ha hb)
  rw [wRoot] at powW
  rw [lRoot] at powL
  have smaller := P.card_loser_le_winner a b
  -- the merged block holds the winner's and the loser's
  have merged : (P.merge a b ha hb).card (P.winner a b) =
      P.card (P.winner a b) + P.card (P.loser a b) := by
    rw [Partition.card_merge_winner apart]
    rcases P.winner_loser a b with ⟨w, l⟩ | ⟨w, l⟩ <;> rw [w, l]
    omega
  have old := h.pow_rank_le y hy
  rw [Partition.merge_root]
  split
  · rename_i joins
    have notWinner : y ≠ P.winner a b := fun e =>
      Partition.winner_ne_loser (P := P) apart (by rw [← joins, e, wRoot])
    rw [merged]
    simp only [linkRank, if_neg notWinner]
    rw [joins] at old
    omega
  · rename_i stays
    by_cases won : P.root y = P.winner a b
    · rw [won, merged]
      rw [won] at old
      unfold linkRank
      split
      · -- the winner's rank becomes the larger of its own and one past the loser's
        have double : 2 ^ (rank (P.loser a b) + 1) = 2 ^ rank (P.loser a b) * 2 := Nat.pow_succ ..
        rcases Nat.le_total (rank (P.winner a b)) (rank (P.loser a b) + 1) with le | le
        · rw [Nat.max_eq_right le, double]
          omega
        · rw [Nat.max_eq_left le]
          omega
      · omega
    · have notWinner : y ≠ P.winner a b := fun e => won (by rw [e, wRoot])
      rw [Partition.card_merge_of_ne won stays]
      simpa [linkRank, notWinner] using old

include ha hb in
/-- A union of two known ids keeps the balance. -/
theorem Balanced.union (h : Balanced uf P rank) (sort : String) :
    ∃ uf' rank', uf.union a b sort = .ok (uf', P.winner a b) ∧
      Balanced uf' (P.merge a b ha hb) rank' := by
  obtain ⟨ps₂, stores₂, run⟩ := h.union_eq_link ha hb sort
  -- halving moves no rank, so the halved forest is as balanced
  have halved : Balanced { uf with parents := ps₂ } P rank := ⟨stores₂, h.pow_rank_le⟩
  rw [run]
  by_cases same : P.root a = P.root b
  · have won : P.winner a b = P.root a := by simp [Partition.winner, same]
    refine ⟨{ uf with parents := ps₂ }, rank, by simp [UnionFind.link, same, won], ?_⟩
    rw [Partition.merge_of_root_eq same]
    exact halved
  · exact ⟨_, _, by rw [stores₂.link_eq ha hb same], halved.merge ha hb same sort⟩

end Link

/-- Every call that runs keeps the balance. -/
theorem Balanced.call (h : Balanced uf P rank) {c : Call} {uf' : UnionFind} {ans : Option Nat}
    (run : uf.call c = some (uf', ans)) : ∃ rank', Balanced uf' (P.apply c) rank' := by
  have knows := h.knows_of_call run
  cases c with
  | makeSet =>
    simp only [UnionFind.call, Option.some.injEq, Prod.mk.injEq] at run
    rw [← run.1]
    exact ⟨_, h.makeSet⟩
  | union a b sort =>
    obtain ⟨ha, hb⟩ := knows
    obtain ⟨uf₁, rank₁, res, balanced⟩ := h.union ha hb sort
    simp only [UnionFind.call, res, Option.some.injEq, Prod.mk.injEq] at run
    rw [← run.1]
    exact ⟨rank₁, by simpa [Partition.apply, ha, hb] using balanced⟩
  | find x =>
    simp only [UnionFind.call, Option.map_eq_some_iff, Prod.mk.injEq] at run
    obtain ⟨_, -, rfl, -⟩ := run
    exact ⟨rank, h⟩
  | findMut x =>
    obtain ⟨ps, halved, stores⟩ := h.findMut?_eq knows
    simp only [UnionFind.call, halved, Option.map_some, Option.some.injEq, Prod.mk.injEq] at run
    rw [← run.1]
    exact ⟨rank, stores, h.pow_rank_le⟩
  | clearRecent =>
    simp only [UnionFind.call, Option.some.injEq, Prod.mk.injEq] at run
    rw [← run.1]
    exact ⟨rank, h.toStores.advanceRound, h.pow_rank_le⟩

/-- Every run of calls keeps the balance. -/
theorem Balanced.runCalls (h : Balanced uf P rank) {cs : List Call} {uf' : UnionFind}
    (run : uf.runCalls cs = some uf') : ∃ rank', Balanced uf' (P.after cs) rank' := by
  induction cs generalizing uf P rank with
  | nil =>
    simp only [UnionFind.runCalls, Option.some.injEq] at run
    exact ⟨rank, run ▸ h⟩
  | cons c cs ih =>
    obtain ⟨⟨uf₁, ans⟩, step, rest⟩ := Option.bind_eq_some_iff.mp run
    obtain ⟨rank₁, balanced⟩ := h.call step
    exact ih balanced rest

end UnionFind

end Saturate
