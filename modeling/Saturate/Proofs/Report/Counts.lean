import Mathlib
import Saturate.Report

/-!
# Counts by rule

A run report counts matches and applications by rule name, in a list of pairs: `addCount` adds to
the pair of a key, or appends one when the key is new. The count of a key is that of its first
pair, zero when it has none (`countOf`), and a report's keys are pairwise different (`Keyed`).

Adding to a key changes its count and no other (`countOf_addCount`), and the union of two
reports adds their counts key by key when the later one is keyed (`countOf_union_matchCounts`).
So a report accounts for the reports of the runs it combines (`RunReport.Accounts`): its
iterations, its iteration reports in order, its counts and its updated flag are theirs put
together (`RunReport.Accounts.union`).
-/

namespace Saturate

/-- The count of a key: that of its first pair, zero when it has none. -/
def countOf (counts : List (String × Nat)) (key : String) : Nat := (counts.lookup key).getD 0

/-- No key has two pairs. -/
def Keyed (counts : List (String × Nat)) : Prop := (counts.map (·.1)).Nodup

/-- The counts of all keys added up. -/
def totalOf (counts : List (String × Nat)) : Nat := (counts.map (·.2)).sum

section Counts

variable {counts : List (String × Nat)} {key : String}

@[simp] theorem countOf_nil (key : String) : countOf [] key = 0 := rfl

theorem countOf_cons (k : String) (n : Nat) (counts : List (String × Nat)) (key : String) :
    countOf ((k, n) :: counts) key = if key = k then n else countOf counts key := by
  by_cases same : key = k
  · simp [countOf, List.lookup, same]
  · have differ : (key == k) = false := by simpa using same
    simp [countOf, List.lookup, differ, same]

theorem lookup_eq_none_of_absent (absent : key ∉ counts.map (·.1)) : counts.lookup key = none := by
  rw [List.lookup_eq_none_iff]
  intro p mem
  have differ : key ≠ p.1 := fun same => absent (List.mem_map.mpr ⟨p, mem, same.symm⟩)
  simpa using differ

theorem countOf_eq_zero (absent : key ∉ counts.map (·.1)) : countOf counts key = 0 := by
  simp [countOf, lookup_eq_none_of_absent absent]

theorem countOf_append_single (absent : key ∉ counts.map (·.1)) (n : Nat) (k : String) :
    countOf (counts ++ [(key, n)]) k = countOf counts k + if k = key then n else 0 := by
  by_cases here : k = key
  · subst here
    simp [countOf, List.lookup_append, lookup_eq_none_of_absent absent]
  · have differ : (k == key) = false := by simpa using here
    have single : [(key, n)].lookup k = none := by
      simp only [List.lookup_cons, differ, List.lookup_nil]
    simp [countOf, List.lookup_append, single, here]

/-- Adding `n` to every pair of `key` adds it to what `key` looks up, and to nothing else. -/
theorem lookup_map_add (key : String) (n : Nat) (k : String) :
    (counts.map fun p => if p.1 == key then (p.1, p.2 + n) else (p.1, p.2)).lookup k =
      (counts.lookup k).map fun m => if k = key then m + n else m := by
  induction counts with
  | nil => rfl
  | cons p rest ih =>
    obtain ⟨k', m⟩ := p
    by_cases here : k = k'
    · subst here
      by_cases at_key : k = key <;> simp [at_key]
    · have differ : (k == k') = false := by simpa using here
      by_cases at_key : k' = key
      · subst at_key
        simpa [List.lookup_cons, differ] using ih
      · simpa [List.lookup_cons, at_key, differ] using ih

/-- **Adding to a key adds to its count and to no other.** -/
theorem countOf_addCount (counts : List (String × Nat)) (key : String) (n : Nat) (k : String) :
    countOf (addCount counts key n) k = countOf counts k + if k = key then n else 0 := by
  unfold addCount
  split
  · rename_i present
    obtain ⟨p, mem, same⟩ := List.any_eq_true.mp present
    have found : (counts.lookup key).isSome := List.lookup_isSome_iff.mpr ⟨p, mem, by simpa using
      (beq_iff_eq.mp same).symm⟩
    have added := @lookup_map_add counts key n k
    by_cases here : k = key
    · subst here
      obtain ⟨m, looked⟩ := Option.isSome_iff_exists.mp found
      simp only [countOf]
      rw [added, looked]
      simp
    · simp only [countOf]
      rw [added]
      cases counts.lookup k <;> simp [here]
  · rename_i absent
    refine countOf_append_single (fun listed => absent ?_) n k
    obtain ⟨p, mem, same⟩ := List.mem_map.mp listed
    exact List.any_eq_true.mpr ⟨p, mem, beq_iff_eq.mpr same⟩

theorem keyed_addCount (keyed : Keyed counts) (key : String) (n : Nat) :
    Keyed (addCount counts key n) := by
  unfold addCount Keyed
  split
  · have keys : (counts.map fun p => if p.1 == key then (p.1, p.2 + n) else (p.1, p.2)).map (·.1) =
        counts.map (·.1) := by
      simp only [List.map_map]
      congr 1
      funext p
      by_cases at_key : p.1 = key <;> simp [at_key]
    rw [keys]
    exact keyed
  · rename_i absent
    rw [List.map_append, List.nodup_append]
    refine ⟨keyed, by simp, ?_⟩
    simp only [List.map_cons, List.map_nil, List.mem_singleton, forall_eq]
    rintro k listed rfl
    obtain ⟨p, mem, same⟩ := List.mem_map.mp listed
    exact absent (List.any_eq_true.mpr ⟨p, mem, beq_iff_eq.mpr same⟩)

end Counts

/-! ### Adding counts one pair at a time -/

theorem countOf_foldl_addCount (b : List (String × Nat)) (keyed : Keyed b) (a : List (String × Nat))
    (key : String) :
    countOf (b.foldl (fun acc p => addCount acc p.1 p.2) a) key = countOf a key + countOf b key := by
  induction b generalizing a with
  | nil => simp
  | cons p rest ih =>
    obtain ⟨k, n⟩ := p
    simp only [Keyed, List.map_cons, List.nodup_cons] at keyed
    rw [List.foldl_cons, ih keyed.2, countOf_addCount, countOf_cons]
    by_cases here : key = k
    · subst here
      rw [countOf_eq_zero keyed.1]
      simp
    · simp [here]

theorem keyed_foldl_addCount (b : List (String × Nat)) {a : List (String × Nat)} (keyed : Keyed a) :
    Keyed (b.foldl (fun acc p => addCount acc p.1 p.2) a) := by
  induction b generalizing a with
  | nil => exact keyed
  | cons p rest ih => exact ih (keyed_addCount keyed p.1 p.2)

/-! ### Reports -/

namespace RunReport

theorem countOf_union_matchCounts (a b : RunReport) (keyed : Keyed b.matchCounts) (key : String) :
    countOf (a.union b).matchCounts key = countOf a.matchCounts key + countOf b.matchCounts key := by
  simp only [union]
  exact countOf_foldl_addCount _ keyed _ key

theorem countOf_union_applyCounts (a b : RunReport) (keyed : Keyed b.applyCounts) (key : String) :
    countOf (a.union b).applyCounts key = countOf a.applyCounts key + countOf b.applyCounts key := by
  simp only [union]
  exact countOf_foldl_addCount _ keyed _ key

theorem keyed_union_matchCounts {a : RunReport} (keyed : Keyed a.matchCounts) (b : RunReport) :
    Keyed (a.union b).matchCounts := by
  simp only [union]
  exact keyed_foldl_addCount _ keyed

theorem keyed_union_applyCounts {a : RunReport} (keyed : Keyed a.applyCounts) (b : RunReport) :
    Keyed (a.union b).applyCounts := by
  simp only [union]
  exact keyed_foldl_addCount _ keyed

/-- A report accounts for the reports `parts` of the runs it combines: its iterations are theirs
added up, its iteration reports are theirs in order, its counts are theirs added key by key, and
it updated the database if one of them did. Its keys are pairwise different. -/
structure Accounts (r : RunReport) (parts : List RunReport) : Prop where
  iterations : r.iterations = (parts.map (·.iterations)).sum
  perIteration : r.perIteration.toList = parts.flatMap (·.perIteration.toList)
  matchCounts : ∀ key, countOf r.matchCounts key = (parts.map (countOf ·.matchCounts key)).sum
  applyCounts : ∀ key, countOf r.applyCounts key = (parts.map (countOf ·.applyCounts key)).sum
  updated : r.updated = parts.any (·.updated)
  keyedMatches : Keyed r.matchCounts
  keyedApplies : Keyed r.applyCounts

namespace Accounts

theorem empty : RunReport.empty.Accounts [] where
  iterations := rfl
  perIteration := rfl
  matchCounts _ := rfl
  applyCounts _ := rfl
  updated := rfl
  keyedMatches := List.nodup_nil
  keyedApplies := List.nodup_nil

/-- A report with keyed counts accounts for itself. -/
theorem single {r : RunReport} (found : Keyed r.matchCounts) (applied : Keyed r.applyCounts) :
    r.Accounts [r] where
  iterations := by simp
  perIteration := by simp
  matchCounts _ := by simp
  applyCounts _ := by simp
  updated := by simp
  keyedMatches := found
  keyedApplies := applied

/-- **The union of two reports accounts for the runs of both, in order.** -/
theorem union {a b : RunReport} {as bs : List RunReport} (ha : a.Accounts as) (hb : b.Accounts bs) :
    (a.union b).Accounts (as ++ bs) where
  iterations := by simp [RunReport.union, ha.iterations, hb.iterations]
  perIteration := by simp [RunReport.union, ha.perIteration, hb.perIteration]
  matchCounts key := by
    rw [countOf_union_matchCounts a b hb.keyedMatches, ha.matchCounts, hb.matchCounts]
    simp
  applyCounts key := by
    rw [countOf_union_applyCounts a b hb.keyedApplies, ha.applyCounts, hb.applyCounts]
    simp
  updated := by simp [RunReport.union, ha.updated, hb.updated]
  keyedMatches := keyed_union_matchCounts ha.keyedMatches b
  keyedApplies := keyed_union_applyCounts ha.keyedApplies b

/-- The stop reason is no part of what a report accounts for. -/
theorem stopReason {r : RunReport} {parts : List RunReport} (h : r.Accounts parts)
    (reason : Option StopReason) : { r with stopReason := reason }.Accounts parts where
  iterations := h.iterations
  perIteration := h.perIteration
  matchCounts := h.matchCounts
  applyCounts := h.applyCounts
  updated := h.updated
  keyedMatches := h.keyedMatches
  keyedApplies := h.keyedApplies

end Accounts

end RunReport

end Saturate
