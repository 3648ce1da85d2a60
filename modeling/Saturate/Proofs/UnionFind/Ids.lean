import Saturate.Proofs.Container.Canonical

/-!
# The e-class a value names

A value carries 64 bits, and an e-class id is 32 bits wide: the id a value of an eq sort names
is its bits modulo 2^32 (`Value.id_eq_mod`). Canonicalising the value looks that id up in the
union-find; an id that was never made is a fault, and a known one gives its root.

* `SortInfo.canonicalize_reads_the_low_bits`: canonicalising a value of an eq sort either
  faults, and then its low 32 bits name no id, or gives the root of the id they name. For bits
  below 2^32 this is the id of the bits themselves.
* `SortInfo.canonicalize_wraps_past_32_bits`: bits from 2^32 on are read modulo 2^32, so the
  bits 2^32 name the first class made instead of faulting.
-/

namespace Saturate

/-- The id of a value is its bits modulo 2^32. -/
theorem Value.id_eq_mod (v : Value) : v.id = v.bits.toNat % 2 ^ 32 := by
  simp [Value.id]

theorem UnionFind.find?_eq_none {uf : UnionFind} {x : Nat} (unknown : uf.size ≤ x) :
    uf.find? x = none := by
  simp only [find?, ite_eq_right_iff, reduceCtorEq, imp_false]
  omega

theorem UnionFind.find?_of_lt {uf : UnionFind} {x : Nat} (known : x < uf.size) :
    uf.find? x = some (uf.rootWithin uf.size x) := by
  simp [find?, known]

namespace SortInfo

variable {uf : UnionFind}

/-- An id the union-find never made is a fault that names it. -/
theorem run_canonicalizeWithin_unknown {fuel : Nat} {name : String} {v : Value}
    (absent : uf.find? v.id = none) (q : Pool) :
    (canonicalizeWithin uf (fuel + 1) (.eq name) v).run q =
      .error ("find on unknown id id" ++ toString v.id) := by
  rw [canonicalizeWithin.eq_2]
  simp only [findRoot, absent, PoolM.run_bind, PoolM.run_throw]

/-- **A value of an eq sort names the class of its low 32 bits.** Canonicalising it either
faults, when its bits modulo 2^32 name no id, or gives, at the same pool, the root of the id
they name, reporting a change when the root's bits differ. -/
theorem canonicalize_reads_the_low_bits (uf : UnionFind) (name : String) (v : Value) (p : Pool) :
    (uf.size ≤ v.bits.toNat % 2 ^ 32 ∧
        (canonicalize uf (.eq name) v).run p =
          .error ("find on unknown id id" ++ toString (v.bits.toNat % 2 ^ 32))) ∨
      (v.bits.toNat % 2 ^ 32 < uf.size ∧ ∃ r, uf.find? (v.bits.toNat % 2 ^ 32) = some r ∧
        (canonicalize uf (.eq name) v).run p =
          .ok ((⟨v.sort, r.toUInt64⟩, !decide (r.toUInt64 = v.bits)), p)) := by
  rw [run_canonicalize, ← Value.id_eq_mod]
  by_cases known : v.id < uf.size
  · -- the root of the id replaces the bits, which stay when they already are the root
    have found := UnionFind.find?_of_lt known
    refine .inr ⟨known, _, found, ?_⟩
    rw [run_canonicalizeWithin_eq found]
    by_cases root : (uf.rootWithin uf.size v.id).toUInt64 = v.bits
    · simp [root]
    · simp [root]
  · exact .inl ⟨by omega, run_canonicalizeWithin_unknown (UnionFind.find?_eq_none (by omega)) p⟩

/-- Bits past 32 wrap around: once one class is made, the value of bits 2^32 canonicalises onto
it, although no id 2^32 was ever made. -/
theorem canonicalize_wraps_past_32_bits :
    (UnionFind.empty.makeSet).1.size ≤ (4294967296 : UInt64).toNat ∧
      (canonicalize (UnionFind.empty.makeSet).1 (.eq "E") ⟨"E", 4294967296⟩).run {} =
        .ok ((⟨"E", 0⟩, true), {}) := by
  have found : (UnionFind.empty.makeSet).1.find? (Value.id ⟨"E", 4294967296⟩) = some 0 := by
    decide
  refine ⟨by decide, ?_⟩
  rw [run_canonicalize, run_canonicalizeWithin_eq found]
  rfl

end SortInfo

end Saturate
