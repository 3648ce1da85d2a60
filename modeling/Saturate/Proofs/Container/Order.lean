import Mathlib.Data.List.Sort
import Saturate.Proofs.Query.Settle

/-!
The order of set elements. `Value.compare` orders values by where the names of their sorts sort,
then by bits, then by the names themselves. For every placing of names this is a total order
under which only equal values tie (`Value.compare_eq_lex`). So `sortedSet` keeps the values of a
list ascending and without repeats, and two lists with the same values give the same set
(`sortedSet_eq_of_mem_iff`); a list already ascending is its own set (`sortedSet_eq_self`).
-/

namespace Saturate

namespace Value

/-- Values compare as the triples of the place of their sort's name, their bits and the name:
within one sort that is their bits alone. -/
theorem compare_eq_lex (key : String → Nat) :
    Value.compare key = compareLex (compareOn fun v : Value => key v.sort)
      (compareLex (compareOn Value.bits) (compareOn Value.sort)) := by
  funext a b
  simp only [Value.compare, compareLex, compareOn]
  split
  · rename_i same
    simp [same, Std.ReflCmp.compare_self]
  · simp [Ordering.then_assoc]

instance (key : String → Nat) : Std.TransCmp (Value.compare key) := by
  rw [compare_eq_lex]
  infer_instance

instance (key : String → Nat) : Std.LawfulEqCmp (Value.compare key) where
  eq_of_compare {a b} h := by
    rw [compare_eq_lex] at h
    simp only [compareLex, compareOn, Ordering.then_eq_eq, Std.LawfulEqOrd.compare_eq_iff_eq] at h
    cases a
    cases b
    simp_all

end Value

variable {key : String → Nat}

theorem mem_insertSorted_iff {x v : Value} {acc : List Value} :
    v ∈ insertSorted key x acc ↔ v = x ∨ v ∈ acc := by
  induction acc with
  | nil => simp [insertSorted]
  | cons y ys ih =>
    simp only [insertSorted]
    split
    · simp
    · -- a value that ties with `y` is `y`
      rename_i same
      obtain rfl := Std.LawfulEqCmp.eq_of_compare same
      simp
    · simp only [List.mem_cons, ih]
      tauto

theorem pairwise_insertSorted {x : Value} {acc : List Value}
    (sorted : acc.Pairwise fun a b => Value.compare key a b = .lt) :
    (insertSorted key x acc).Pairwise fun a b => Value.compare key a b = .lt := by
  induction acc with
  | nil => simp [insertSorted]
  | cons y ys ih =>
    obtain ⟨above, rest⟩ := List.pairwise_cons.mp sorted
    simp only [insertSorted]
    split
    · rename_i before
      refine List.Pairwise.cons (fun z mem => ?_) sorted
      rcases List.mem_cons.mp mem with rfl | mem
      · exact before
      · exact Std.TransCmp.lt_trans before (above z mem)
    · exact sorted
    · rename_i after
      refine List.Pairwise.cons (fun z mem => ?_) (ih rest)
      rcases mem_insertSorted_iff.mp mem with rfl | mem
      · exact Std.OrientedCmp.gt_iff_lt.mp after
      · exact above z mem

theorem mem_foldl_insertSorted_iff {v : Value} {xs acc : List Value} :
    v ∈ xs.foldl (fun acc x => insertSorted key x acc) acc ↔ v ∈ xs ∨ v ∈ acc := by
  induction xs generalizing acc with
  | nil => simp
  | cons x xs ih =>
    rw [List.foldl_cons, ih, mem_insertSorted_iff, List.mem_cons]
    tauto

theorem pairwise_foldl_insertSorted {xs acc : List Value}
    (sorted : acc.Pairwise fun a b => Value.compare key a b = .lt) :
    (xs.foldl (fun acc x => insertSorted key x acc) acc).Pairwise
      fun a b => Value.compare key a b = .lt := by
  induction xs generalizing acc with
  | nil => exact sorted
  | cons x xs ih => exact ih (pairwise_insertSorted sorted)

theorem mem_sortedSet_iff {v : Value} {xs : List Value} : v ∈ sortedSet key xs ↔ v ∈ xs := by
  simp [sortedSet, mem_foldl_insertSorted_iff]

theorem pairwise_sortedSet (xs : List Value) :
    (sortedSet key xs).Pairwise fun a b => Value.compare key a b = .lt :=
  pairwise_foldl_insertSorted List.Pairwise.nil

/-- Two ascending lists of the same values are one list. -/
theorem eq_of_ascending {xs ys : List Value}
    (ascending : xs.Pairwise fun a b => Value.compare key a b = .lt)
    (ascending' : ys.Pairwise fun a b => Value.compare key a b = .lt)
    (same : ∀ v, v ∈ xs ↔ v ∈ ys) : xs = ys := by
  have : Std.Irrefl fun a b : Value => Value.compare key a b = .lt :=
    ⟨fun a h => by simp [Std.ReflCmp.compare_self] at h⟩
  have : Std.Antisymm fun a b : Value => Value.compare key a b = .lt :=
    ⟨fun a b h h' => absurd (Std.OrientedCmp.gt_iff_lt.mpr h') (by simp [h])⟩
  exact List.Pairwise.eq_of_mem_iff ascending ascending' same

/-- A set depends only on the values it is built from. -/
theorem sortedSet_eq_of_mem_iff {xs ys : List Value} (same : ∀ v, v ∈ xs ↔ v ∈ ys) :
    sortedSet key xs = sortedSet key ys :=
  eq_of_ascending (pairwise_sortedSet xs) (pairwise_sortedSet ys) fun v => by
    rw [mem_sortedSet_iff, mem_sortedSet_iff, same]

/-- An ascending list is its own set. -/
theorem sortedSet_eq_self {xs : List Value}
    (ascending : xs.Pairwise fun a b => Value.compare key a b = .lt) : sortedSet key xs = xs :=
  eq_of_ascending (pairwise_sortedSet xs) ascending fun _ => mem_sortedSet_iff

end Saturate
