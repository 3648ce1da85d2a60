import Mathlib.Data.Finset.Card
import Saturate.UnionFind

/-!
What the union-find stands for: a partition of the ids made so far into
blocks, each named by its root.

`Partition` gives every id the root of its block. A fresh id is a block of
its own (`Partition.add`); merging the blocks of two ids names the merged
block by the root of the larger one, by the first id's root on a tie
(`Partition.merge`). The calls a client makes of the union-find
(`UnionFind.Call`) act on the partition through `Partition.apply`.

* `merge_root_eq_root_iff`: a merge joins exactly the blocks of its two ids,
  and `merge_root_left` names the block it makes.
* `card_merge_winner`, `card_merge_of_ne`, `card_add_self`, `card_add_of_ne`:
  how block sizes change.
* `Partition.demotions` lists the ids that stop being roots along a sequence
  of calls, each with the sort of the union that demoted it. No id is listed
  twice (`demotions_nodup`), because an id that stops being a root never
  becomes one again (`root_of_apply_root`), and the unions that merge two
  blocks are exactly those that demote an id (`length_demotions`).
-/

namespace Saturate

/-- A partition of the ids below `size` into blocks: `root x` is the root of
the block of `x`, itself a member of that block. -/
@[ext]
structure Partition where
  size : Nat
  root : Nat → Nat
  root_lt : ∀ x < size, root x < size
  root_root : ∀ x < size, root (root x) = root x

/-- A call a client makes of the union-find. -/
inductive UnionFind.Call where
  | makeSet
  | union (a b : Nat) (sort : String)
  | find (x : Nat)
  | findMut (x : Nat)
  | clearRecent
  deriving DecidableEq, Repr

namespace Partition

variable (P : Partition)

/-- The partition of no ids. -/
def empty : Partition where
  size := 0
  root := id
  root_lt _ h := absurd h (Nat.not_lt_zero _)
  root_root _ h := absurd h (Nat.not_lt_zero _)

/-- The number of ids in the block named `r`. -/
def card (r : Nat) : Nat := ((Finset.range P.size).filter (P.root · = r)).card

/-! ### A fresh id -/

/-- The partition with one more id, `size`, alone in its block. -/
def add : Partition where
  size := P.size + 1
  root x := if x = P.size then x else P.root x
  root_lt x hx := by
    by_cases fresh : x = P.size
    · simp [fresh]
    · have := P.root_lt x (by omega)
      simp only [fresh, if_false]
      omega
  root_root x hx := by
    by_cases fresh : x = P.size
    · simp [fresh]
    · have := P.root_lt x (by omega)
      simp [fresh, Nat.ne_of_lt this, P.root_root x (by omega)]

@[simp] theorem add_size : P.add.size = P.size + 1 := rfl

theorem add_root_self : P.add.root P.size = P.size := by simp [add]

theorem add_root_of_lt {x : Nat} (hx : x < P.size) : P.add.root x = P.root x := by
  simp [add, Nat.ne_of_lt hx]

theorem card_add_of_ne {r : Nat} (ne : r ≠ P.size) : P.add.card r = P.card r := by
  simp only [card, Finset.range_add_one, Finset.filter_insert, add, if_true, ne.symm, if_false]
  congr 1
  apply Finset.filter_congr
  intro x hx
  simp [Nat.ne_of_lt (Finset.mem_range.mp hx)]

theorem card_add_self : P.add.card P.size = 1 := by
  have none : (Finset.range P.size).filter (fun x => P.add.root x = P.size) = ∅ := by
    apply Finset.filter_eq_empty_iff.mpr
    intro x hx
    have lt := Finset.mem_range.mp hx
    rw [add_root_of_lt P lt]
    exact Nat.ne_of_lt (P.root_lt x lt)
  simp only [card, add_size, Finset.range_add_one, Finset.filter_insert, add_root_self, if_true,
    none]
  rfl

/-! ### Merging two blocks -/

/-- The root that names the merge of the blocks of `a` and `b`: the root of
the larger block, the root of `a` on a tie. -/
def winner (a b : Nat) : Nat :=
  if P.card (P.root b) ≤ P.card (P.root a) then P.root a else P.root b

/-- The root whose block joins the winner's. -/
def loser (a b : Nat) : Nat :=
  if P.card (P.root b) ≤ P.card (P.root a) then P.root b else P.root a

theorem winner_loser (a b : Nat) :
    (P.winner a b = P.root a ∧ P.loser a b = P.root b) ∨
      (P.winner a b = P.root b ∧ P.loser a b = P.root a) := by
  unfold winner loser
  split <;> simp

variable {P}

/-- The partition with the blocks of `a` and `b` merged. -/
def merge (a b : Nat) (ha : a < P.size) (hb : b < P.size) : Partition where
  size := P.size
  root x := if P.root x = P.loser a b then P.winner a b else P.root x
  root_lt x hx := by
    have := P.root_lt a ha
    have := P.root_lt b hb
    have := P.root_lt x hx
    rcases P.winner_loser a b with ⟨w, -⟩ | ⟨w, -⟩ <;> split <;> omega
  root_root x hx := by
    have ra := P.root_root a ha
    have rb := P.root_root b hb
    have rx := P.root_root x hx
    rcases P.winner_loser a b with ⟨w, l⟩ | ⟨w, l⟩ <;> simp only [w, l] <;> split <;> grind

variable {a b : Nat} {ha : a < P.size} {hb : b < P.size}

@[simp] theorem merge_size : (P.merge a b ha hb).size = P.size := rfl

theorem merge_root (x : Nat) :
    (P.merge a b ha hb).root x = if P.root x = P.loser a b then P.winner a b else P.root x := rfl

/-- Merging two ids of one block changes nothing. -/
theorem merge_of_root_eq (same : P.root a = P.root b) : P.merge a b ha hb = P := by
  ext x
  · rfl
  · rcases P.winner_loser a b with ⟨w, l⟩ | ⟨w, l⟩ <;> simp only [merge_root, w, l] <;> split <;>
      simp_all

theorem winner_root (ha : a < P.size) (hb : b < P.size) : P.root (P.winner a b) = P.winner a b := by
  rcases P.winner_loser a b with ⟨w, -⟩ | ⟨w, -⟩ <;> rw [w]
  · exact P.root_root a ha
  · exact P.root_root b hb

theorem loser_root (ha : a < P.size) (hb : b < P.size) : P.root (P.loser a b) = P.loser a b := by
  rcases P.winner_loser a b with ⟨-, l⟩ | ⟨-, l⟩ <;> rw [l]
  · exact P.root_root b hb
  · exact P.root_root a ha

theorem winner_lt (ha : a < P.size) (hb : b < P.size) : P.winner a b < P.size := by
  rcases P.winner_loser a b with ⟨w, -⟩ | ⟨w, -⟩ <;> rw [w]
  · exact P.root_lt a ha
  · exact P.root_lt b hb

theorem loser_lt (ha : a < P.size) (hb : b < P.size) : P.loser a b < P.size := by
  rcases P.winner_loser a b with ⟨-, l⟩ | ⟨-, l⟩ <;> rw [l]
  · exact P.root_lt b hb
  · exact P.root_lt a ha

theorem winner_ne_loser (apart : P.root a ≠ P.root b) : P.winner a b ≠ P.loser a b := by
  rcases P.winner_loser a b with ⟨w, l⟩ | ⟨w, l⟩ <;> rw [w, l]
  · exact apart
  · exact Ne.symm apart

/-- The merged block is named by the winner: both ids now have it as root. -/
theorem merge_root_left : (P.merge a b ha hb).root a = P.winner a b := by
  rcases P.winner_loser a b with ⟨w, l⟩ | ⟨w, l⟩ <;> simp [merge_root, w, l]

theorem merge_root_right : (P.merge a b ha hb).root b = P.winner a b := by
  rcases P.winner_loser a b with ⟨w, l⟩ | ⟨w, l⟩ <;> simp [merge_root, w, l]

/-- **A merge joins exactly the blocks of its two ids**: two ids share a block
afterwards iff they did before, or one was in the block of `a` and the other
in the block of `b`. -/
theorem merge_root_eq_root_iff (x y : Nat) :
    (P.merge a b ha hb).root x = (P.merge a b ha hb).root y ↔
      P.root x = P.root y ∨ (P.root x = P.root a ∧ P.root y = P.root b) ∨
        (P.root x = P.root b ∧ P.root y = P.root a) := by
  simp only [merge_root]
  rcases P.winner_loser a b with ⟨w, l⟩ | ⟨w, l⟩ <;> rw [w, l] <;> split <;> split <;> grind

theorem card_merge_winner (apart : P.root a ≠ P.root b) :
    (P.merge a b ha hb).card (P.winner a b) = P.card (P.root a) + P.card (P.root b) := by
  have ne := winner_ne_loser (P := P) apart
  -- the merged block is the winner's block together with the loser's
  have joined : (Finset.range P.size).filter (fun x => (P.merge a b ha hb).root x = P.winner a b) =
      (Finset.range P.size).filter (P.root · = P.loser a b) ∪
        (Finset.range P.size).filter (P.root · = P.winner a b) := by
    rw [← Finset.filter_or]
    apply Finset.filter_congr
    intro x _
    rw [merge_root]
    split <;> simp_all
  have apartBlocks : Disjoint ((Finset.range P.size).filter (P.root · = P.loser a b))
      ((Finset.range P.size).filter (P.root · = P.winner a b)) := by
    rw [Finset.disjoint_filter]
    intro x _ hl hw
    exact ne (hw.symm.trans hl)
  simp only [card, merge_size, joined, Finset.card_union_of_disjoint apartBlocks]
  rcases P.winner_loser a b with ⟨w, l⟩ | ⟨w, l⟩ <;> rw [w, l, Nat.add_comm]

theorem card_merge_of_ne {r : Nat} (nw : r ≠ P.winner a b) (nl : r ≠ P.loser a b) :
    (P.merge a b ha hb).card r = P.card r := by
  simp only [card, merge_size]
  congr 1
  apply Finset.filter_congr
  intro x _
  rw [merge_root]
  split <;> simp_all [Ne.symm nw, Ne.symm nl]

/-! ### Block sizes -/

variable (P) in
theorem card_le_size (r : Nat) : P.card r ≤ P.size := by
  simpa [card] using Finset.card_filter_le (Finset.range P.size) (P.root · = r)

variable (P) in
/-- A root is in its own block. -/
theorem card_pos {r : Nat} (lt : r < P.size) (root : P.root r = r) : 0 < P.card r :=
  Finset.card_pos.mpr ⟨r, Finset.mem_filter.mpr ⟨Finset.mem_range.mpr lt, root⟩⟩

/-! ### Calls -/

variable (P)

/-- Whether a call names only ids of the partition. -/
def Knows : UnionFind.Call → Prop
  | .makeSet | .clearRecent => True
  | .union a b _ => a < P.size ∧ b < P.size
  | .find x | .findMut x => x < P.size

instance : (c : UnionFind.Call) → Decidable (P.Knows c)
  | .makeSet | .clearRecent => isTrue trivial
  | .union a b _ => inferInstanceAs (Decidable (a < P.size ∧ b < P.size))
  | .find x | .findMut x => inferInstanceAs (Decidable (x < P.size))

/-- What a call does to the partition: a fresh id, a merge, or nothing. -/
def apply : UnionFind.Call → Partition
  | .makeSet => P.add
  | .union a b _ => if h : a < P.size ∧ b < P.size then P.merge a b h.1 h.2 else P
  | .find _ | .findMut _ | .clearRecent => P

/-- The partition after a sequence of calls. -/
def after (cs : List UnionFind.Call) : Partition := cs.foldl apply P

/-- Every call of a sequence names ids made before it. -/
def Accepts : Partition → List UnionFind.Call → Prop
  | _, [] => True
  | P, c :: cs => P.Knows c ∧ (P.apply c).Accepts cs

instance instDecidableAccepts : (P : Partition) → (cs : List UnionFind.Call) → Decidable (P.Accepts cs)
  | _, [] => isTrue trivial
  | P, c :: cs =>
    have : Decidable ((P.apply c).Accepts cs) := instDecidableAccepts (P.apply c) cs
    inferInstanceAs (Decidable (P.Knows c ∧ (P.apply c).Accepts cs))

/-- Whether a call is a union of two ids in different blocks. -/
def joins : UnionFind.Call → Bool
  | .union a b _ => P.root a != P.root b
  | _ => false

/-- The number of unions among the calls that join two different blocks. -/
def merges : Partition → List UnionFind.Call → Nat
  | _, [] => 0
  | P, c :: cs => (if P.joins c then 1 else 0) + (P.apply c).merges cs

/-- The roots of `P` that are no roots of `Q`, in increasing order. -/
def demoted (Q : Partition) : List Nat :=
  (List.range P.size).filter fun x => P.root x = x ∧ Q.root x ≠ x

/-- The ids that a call makes stop being roots, each with the sort of the
union. -/
def demotedAt : UnionFind.Call → List (String × Nat)
  | c@(.union _ _ sort) => (P.demoted (P.apply c)).map (sort, ·)
  | _ => []

/-- The ids that stop being roots along a sequence of calls, in order, each
with the sort of the union that demoted it. -/
def demotions : Partition → List UnionFind.Call → List (String × Nat)
  | _, [] => []
  | P, c :: cs => P.demotedAt c ++ (P.apply c).demotions cs

/-- The ids that stop being roots through unions tagged `sort`, in order. -/
def demotedBy (sort : String) (cs : List UnionFind.Call) : List Nat :=
  (P.demotions cs).filterMap fun (s, x) => if s = sort then some x else none

variable {P}

@[simp] theorem after_nil : P.after [] = P := rfl

@[simp] theorem after_cons (c : UnionFind.Call) (cs : List UnionFind.Call) :
    P.after (c :: cs) = (P.apply c).after cs := rfl

theorem after_append (cs ds : List UnionFind.Call) : P.after (cs ++ ds) = (P.after cs).after ds := by
  simp [after, List.foldl_append]

theorem accepts_append {cs ds : List UnionFind.Call} :
    P.Accepts (cs ++ ds) ↔ P.Accepts cs ∧ (P.after cs).Accepts ds := by
  induction cs generalizing P with
  | nil => simp [Accepts]
  | cons c cs ih => simp [Accepts, ih, and_assoc]

theorem merges_append (cs ds : List UnionFind.Call) :
    P.merges (cs ++ ds) = P.merges cs + (P.after cs).merges ds := by
  induction cs generalizing P with
  | nil => simp [merges]
  | cons c cs ih => simp [merges, ih]; omega

theorem demotions_append (cs ds : List UnionFind.Call) :
    P.demotions (cs ++ ds) = P.demotions cs ++ (P.after cs).demotions ds := by
  induction cs generalizing P with
  | nil => simp [demotions]
  | cons c cs ih => simp [demotions, ih]

theorem apply_size_le (c : UnionFind.Call) : P.size ≤ (P.apply c).size := by
  cases c <;> simp only [apply] <;> try split
  all_goals simp

/-- A call never makes an old id a root again. -/
theorem root_of_apply_root {c : UnionFind.Call} {x : Nat} (hx : x < P.size)
    (root : (P.apply c).root x = x) : P.root x = x := by
  cases c with
  | makeSet => rwa [apply, add_root_of_lt P hx] at root
  | union a b _ =>
    simp only [apply] at root
    split at root
    · rw [merge_root] at root
      split at root
      · -- `x` joined the winner's block, which `x` is not the root of
        rename_i known lost
        have := (winner_loser P a b).elim (fun h => h.1 ▸ P.root_root a known.1)
          (fun h => h.1 ▸ P.root_root b known.2)
        rw [← root] at lost
        rw [← root, this]
      · exact root
    · exact root
  | find | findMut | clearRecent => exact root

theorem demoted_self : P.demoted P = [] := by
  simp [demoted]

theorem demoted_add : P.demoted P.add = [] := by
  simp only [demoted, List.filter_eq_nil_iff, List.mem_range, decide_eq_true_eq, not_and,
    Decidable.not_not]
  intro x hx _
  exact add_root_of_lt P hx ▸ ‹_›

/-- A merge of two blocks demotes the loser's root, and only it. -/
theorem demoted_merge :
    P.demoted (P.merge a b ha hb) = if P.root a = P.root b then [] else [P.loser a b] := by
  split
  · rw [merge_of_root_eq ‹_›, demoted_self]
  · rename_i apart
    have ne := winner_ne_loser (P := P) apart
    have lost : ∀ x, (P.root x = x ∧ (P.merge a b ha hb).root x ≠ x) ↔ x = P.loser a b := by
      intro x
      rw [merge_root]
      constructor
      · rintro ⟨root, moved⟩
        split at moved
        · rwa [root] at *
        · exact absurd root moved
      · rintro rfl
        refine ⟨loser_root ha hb, ?_⟩
        simp only [loser_root ha hb, if_true]
        exact ne
    simp only [demoted, lost]
    rw [List.filter_eq, List.count_eq_one_of_mem List.nodup_range
      (List.mem_range.mpr (loser_lt ha hb))]
    rfl

theorem demoted_nodup (Q : Partition) : (P.demoted Q).Nodup := List.nodup_range.filter _

theorem demotedAt_union (a b : Nat) (sort : String) (knows : P.Knows (.union a b sort)) :
    P.demotedAt (.union a b sort) = if P.root a = P.root b then [] else [(sort, P.loser a b)] := by
  have known : a < P.size ∧ b < P.size := knows
  simp only [demotedAt, apply, dif_pos known, demoted_merge]
  split <;> rfl

theorem mem_demotedAt {c : UnionFind.Call} {s : String} {x : Nat} (mem : (s, x) ∈ P.demotedAt c) :
    x ∈ P.demoted (P.apply c) := by
  cases c <;> simp only [demotedAt, List.mem_map, List.not_mem_nil] at mem
  obtain ⟨y, hy, same⟩ := mem
  cases same
  exact hy

theorem demotedAt_nodup (c : UnionFind.Call) : ((P.demotedAt c).map (·.2)).Nodup := by
  cases c <;> simp only [demotedAt, List.map_map, List.map_nil, List.nodup_nil]
  simpa [Function.comp_def] using demoted_nodup _

/-- The unions that join two blocks are exactly the calls that demote an id,
one each. -/
theorem length_demotions {cs : List UnionFind.Call} (accepts : P.Accepts cs) :
    (P.demotions cs).length = P.merges cs := by
  induction cs generalizing P with
  | nil => rfl
  | cons c cs ih =>
    obtain ⟨knows, rest⟩ := accepts
    simp only [demotions, merges, List.length_append, ih rest]
    congr 1
    cases c with
    | union a b sort =>
      rw [demotedAt_union a b sort knows]
      simp only [joins, bne_iff_ne, ne_eq]
      split <;> simp_all
    | _ => simp [demotedAt, joins]

/-- An id that stops being a root later was a root before. -/
theorem root_of_mem_demotions {cs : List UnionFind.Call} {s : String} {x : Nat}
    (mem : (s, x) ∈ P.demotions cs) (hx : x < P.size) : P.root x = x := by
  induction cs generalizing P with
  | nil => simp [demotions] at mem
  | cons c cs ih =>
    simp only [demotions, List.mem_append] at mem
    rcases mem with here | later
    · have := mem_demotedAt here
      simp only [demoted, List.mem_filter, decide_eq_true_eq] at this
      exact this.2.1
    · exact root_of_apply_root hx (ih later (Nat.lt_of_lt_of_le hx (apply_size_le c)))

/-- No id is demoted twice. -/
theorem demotions_nodup (cs : List UnionFind.Call) : ((P.demotions cs).map (·.2)).Nodup := by
  induction cs generalizing P with
  | nil => simp [demotions]
  | cons c cs ih =>
    simp only [demotions, List.map_append, List.nodup_append]
    refine ⟨demotedAt_nodup c, ih, ?_⟩
    -- an id demoted now is no root afterwards, while one demoted later was
    intro x here y later same
    subst same
    obtain ⟨⟨s, x⟩, hx, rfl⟩ := List.mem_map.mp here
    obtain ⟨⟨s', y⟩, hy, rfl⟩ := List.mem_map.mp later
    have demotedNow := mem_demotedAt hx
    simp only [demoted, List.mem_filter, List.mem_range, decide_eq_true_eq] at demotedNow
    exact demotedNow.2.2 (root_of_mem_demotions hy (Nat.lt_of_lt_of_le demotedNow.1 (apply_size_le _)))

theorem demotedBy_nodup (sort : String) (cs : List UnionFind.Call) : (P.demotedBy sort cs).Nodup := by
  apply ((demotions_nodup cs).of_map _).filterMap
  rintro ⟨s, x⟩ ⟨s', x'⟩ y hy hy'
  simp only [Option.mem_def, Option.ite_none_right_eq_some, Option.some.injEq] at hy hy'
  obtain ⟨rfl, rfl⟩ := hy
  obtain ⟨rfl, rfl⟩ := hy'
  rfl

end Partition

end Saturate
