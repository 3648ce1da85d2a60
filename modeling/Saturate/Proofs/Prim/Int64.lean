import Mathlib.Data.Rat.Floor
import Mathlib.Data.Nat.Log
import Saturate.Prim.Apply

/-!
# The `i64` primitives are exact and never fault

Arithmetic on `i64` is checked. `+`, `-` and `*` give the exact integer result when an `i64`
holds it and no result otherwise; `/` and `%` truncate toward zero and have no result for a
zero divisor and for `MIN / -1`, the one quotient of two `i64`s that no `i64` holds; the shifts
take an amount from `0` to `63`, `<<` wrapping modulo `2^64` and `>>` rounding toward minus
infinity; `log2` is the floor logarithm of a positive number. Each of them runs without a fault
and leaves the pool as it was.

An `i64` value carries its integer as 64 bits of two's complement (`Value.toInt`): the
integers those bits stand for are exactly the range `[-2^63, 2^63)` (`Value.toInt_range`),
and `Value.ofInt` writes each of them back (`Value.toInt_ofInt`).

* `IntOp.arithmetic_is_exact` — the main statement.
-/

namespace Saturate

/-- The integers an `i64` holds. -/
def Int64Range (x : Int) : Prop := -2 ^ 63 ≤ x ∧ x < 2 ^ 63

instance (x : Int) : Decidable (Int64Range x) := inferInstanceAs (Decidable (_ ∧ _))

theorem fitsInt64_iff (x : Int) : fitsInt64 x = true ↔ Int64Range x := by
  simp [fitsInt64, Int64Range, Nat.pow_eq]

/-! ### Two's complement -/

namespace Value

/-- The integer of 64 bits is the signed reading of the bit vector. -/
theorem bitsToInt_eq_toInt (bits : UInt64) : bitsToInt bits = bits.toBitVec.toInt := by
  rw [BitVec.toInt_eq_toNat_cond, bitsToInt]
  simp only [UInt64.toNat_toBitVec]
  have := bits.toNat_lt
  split <;> split <;> simp_all <;> omega

theorem toInt_range (v : Value) : Int64Range v.toInt := by
  have := v.bits.toNat_lt
  unfold toInt bitsToInt Int64Range
  split <;> simp only [Nat.pow_eq] at * <;> omega

theorem bitsToInt_intBits {i : Int} (h : Int64Range i) : bitsToInt (intBits i) = i := by
  unfold Int64Range at h
  unfold bitsToInt intBits
  split
  · have toNat : (i.toNat.toUInt64).toNat = i.toNat := by
      rw [Nat.toUInt64_eq, UInt64.toNat_ofNat']
      omega
    simp only [toNat, Nat.pow_eq]
    split <;> omega
  · have toNat : ((Nat.pow 2 64 - i.natAbs).toUInt64).toNat = 2 ^ 64 - i.natAbs := by
      rw [Nat.toUInt64_eq, UInt64.toNat_ofNat', Nat.pow_eq]
      omega
    simp only [toNat, Nat.pow_eq]
    split <;> omega

/-- Every integer an `i64` holds is read back from the bits `ofInt` writes. -/
theorem toInt_ofInt {i : Int} (h : Int64Range i) : (ofInt i).toInt = i :=
  bitsToInt_intBits h

/-- An `i64` reads back as the integer of its bits modulo `2^64`, in the balanced range. -/
theorem toInt_eq_bmod (v : Value) : v.toInt = Int.bmod v.bits.toNat (2 ^ 64) := by
  rw [toInt, bitsToInt_eq_toInt, BitVec.toInt_eq_toNat_bmod, UInt64.toNat_toBitVec]

end Value

/-! ### Quotients and remainders -/

/-- The truncated quotient of two `i64`s is an `i64`, but for `MIN / -1`. -/
theorem tdiv_range_iff {a b : Int} (ha : Int64Range a) (hb : b ≠ 0) :
    Int64Range (a.tdiv b) ↔ ¬ (a = -2 ^ 63 ∧ b = -1) := by
  unfold Int64Range at *
  have shrinks := Int.natAbs_tdiv_le_natAbs a b
  by_cases minusOne : b = -1
  · subst minusOne
    rw [Int.tdiv_neg, Int.tdiv_one]
    omega
  · -- a divisor other than `±1` shrinks the quotient, and `1` keeps it
    have toZero : (a.tdiv b).natAbs ≤ a.natAbs := shrinks
    rcases Int.le_total 0 a with nonneg | nonpos
    · omega
    · by_cases one : b = 1
      · subst one
        rw [Int.tdiv_one]
        omega
      · have half : (a.tdiv b).natAbs ≤ a.natAbs / 2 := by
          rw [Int.natAbs_tdiv]
          exact Nat.div_le_div_left (by omega) (by decide)
        omega

/-- The truncated remainder of an `i64` by a nonzero `i64` is an `i64`: it is smaller than the
divisor. -/
theorem tmod_range {a b : Int} (hb : Int64Range b) (nonzero : b ≠ 0) : Int64Range (a.tmod b) := by
  unfold Int64Range at *
  have size := Int.natAbs_tmod a b
  have below : a.natAbs % b.natAbs < b.natAbs := Nat.mod_lt _ (by omega)
  omega

/-! ### Shifts and logarithms -/

/-- Shifting left by `k` below `64` multiplies by `2^k` modulo `2^64`. -/
theorem Value.toInt_ofBits64_shiftLeft (a b : Value) (small : b.bits.toNat < 64) :
    (Value.ofBits64 (a.bits <<< b.bits)).toInt = (a.toInt * 2 ^ b.bits.toNat).bmod (2 ^ 64) := by
  have mod : b.bits.toNat % 64 = b.bits.toNat := Nat.mod_eq_of_lt small
  rw [Value.toInt_eq_bmod a, Int.bmod_mul_bmod]
  simp only [Value.toInt, Value.ofBits64, Value.bitsToInt_eq_toInt, UInt64.toBitVec_shiftLeft,
    BitVec.shiftLeft_eq', BitVec.toNat_umod, UInt64.toNat_toBitVec, BitVec.toInt_shiftLeft]
  simp [mod, Nat.shiftLeft_eq]

/-- Flooring a division by a positive number keeps an `i64` in range. -/
theorem ediv_range {a d : Int} (ha : Int64Range a) (pos : 0 < d) : Int64Range (a / d) := by
  unfold Int64Range at *
  rcases Int.le_total 0 a with nonneg | nonpos
  · have := Int.ediv_le_self d nonneg
    have := Int.ediv_nonneg nonneg pos.le
    omega
  · have below : a ≤ a / d := (Int.le_ediv_iff_mul_le pos).mpr (by nlinarith)
    have : a / d ≤ 0 := Int.ediv_nonpos_of_nonpos_of_neg nonpos pos
    omega

/-- The floor of `a / 2^k` is the quotient that rounds toward minus infinity. -/
theorem fdiv_two_pow_eq_floor (a : Int) (k : Nat) :
    a.fdiv (Nat.pow 2 k : Int) = ⌊(a : ℚ) / 2 ^ k⌋ := by
  have cast : ((2 : ℚ) ^ k) = ((2 ^ k : Nat) : ℚ) := by push_cast; rfl
  rw [cast, Rat.floor_intCast_div_natCast, Int.fdiv_eq_ediv, Nat.pow_eq]
  simp

/-- The floor logarithm of a positive `i64` is an `i64`. -/
theorem log_range {a : Int} (ha : Int64Range a) (pos : 0 < a) :
    Int64Range (Nat.log 2 a.toNat : Int) := by
  have small : Nat.log 2 a.toNat < 63 :=
    Nat.log_lt_of_lt_pow (by omega) (by unfold Int64Range at ha; omega)
  unfold Int64Range
  omega

/-! ### The operations -/

/-- Applying the `i64` operation `op` to `args` never faults and leaves every pool as it was,
and its result is the `i64` holding `x` when `x` is some integer, and no result when it is
none. -/
def IntOp.Gives (op : IntOp) (args : List Value) (x : Option Int) : Prop :=
  ∀ p, ∃ r, ((Prim.int op).applyPure args).run p = .ok (r, p) ∧
    r.map Value.toInt = x ∧ ∀ v ∈ r, v.sort = "i64"

namespace IntOp

variable {op : IntOp} {args : List Value}

/-- An operation that evaluates to a pure answer gives that answer. -/
theorem gives_of_pure {r : Option Value} {x : Option Int} (eval : (Prim.int op).applyPure args = pure r)
    (reads : r.map Value.toInt = x) (sorted : ∀ v ∈ r, v.sort = "i64") : op.Gives args x :=
  fun p => ⟨r, by rw [eval, PoolM.run_pure], reads, sorted⟩

/-- An operation that gives the `i64` `ofInt x` where `c` holds and nothing otherwise, for an
`x` in range where `c` holds. -/
theorem gives_ofInt_if {c : Prop} [Decidable c] {x : Int} (range : c → Int64Range x)
    (eval : (Prim.int op).applyPure args = pure (if c then some (Value.ofInt x) else none)) :
    op.Gives args (if c then some x else none) := by
  refine gives_of_pure eval ?_ ?_
  · by_cases h : c
    · simp [h, Value.toInt_ofInt (range h)]
    · simp [h]
  · intro v mem
    split at mem
    · cases mem
      rfl
    · cases mem

end IntOp

/-- A checked result is the `i64` of an integer in range, and nothing otherwise. -/
theorem checkedInt_eq (x : Int) :
    checkedInt x = if Int64Range x then some (Value.ofInt x) else none := by
  by_cases h : Int64Range x
  · simp [checkedInt, (fitsInt64_iff x).mpr h, h]
  · simp [checkedInt, Bool.eq_false_iff.mpr fun fits => h ((fitsInt64_iff x).mp fits), h]

namespace IntOp

variable {op : IntOp} {args : List Value}

theorem gives_checkedInt {x : Int} (eval : (Prim.int op).applyPure args = pure (checkedInt x)) :
    op.Gives args (if Int64Range x then some x else none) :=
  gives_ofInt_if id (by rw [eval, checkedInt_eq])

end IntOp

open IntOp

section Operations

variable (a b : Value)

theorem add_gives :
    IntOp.add.Gives [a, b] (if Int64Range (a.toInt + b.toInt) then some (a.toInt + b.toInt) else none) :=
  gives_checkedInt rfl

theorem sub_gives :
    IntOp.sub.Gives [a, b] (if Int64Range (a.toInt - b.toInt) then some (a.toInt - b.toInt) else none) :=
  gives_checkedInt rfl

theorem mul_gives :
    IntOp.mul.Gives [a, b] (if Int64Range (a.toInt * b.toInt) then some (a.toInt * b.toInt) else none) :=
  gives_checkedInt rfl

theorem div_gives :
    IntOp.div.Gives [a, b] (if b.toInt ≠ 0 ∧ ¬ (a.toInt = -2 ^ 63 ∧ b.toInt = -1)
      then some (a.toInt.tdiv b.toInt) else none) := by
  refine gives_ofInt_if (fun h => (tdiv_range_iff a.toInt_range h.1).mpr h.2) ?_
  show (pure (if b.toInt = 0 then none else checkedInt (a.toInt.tdiv b.toInt)) : PoolM _) = _
  congr 1
  by_cases zero : b.toInt = 0
  · simp [zero]
  · rw [if_neg zero, checkedInt_eq]
    by_cases edge : a.toInt = -2 ^ 63 ∧ b.toInt = -1
    · have out : ¬ Int64Range (a.toInt.tdiv b.toInt) := fun fits =>
        (tdiv_range_iff a.toInt_range zero).mp fits edge
      rw [if_neg out, if_neg fun h => h.2 edge]
    · rw [if_pos ((tdiv_range_iff a.toInt_range zero).mpr edge), if_pos ⟨zero, edge⟩]

theorem rem_gives :
    IntOp.rem.Gives [a, b] (if b.toInt ≠ 0 ∧ ¬ (a.toInt = -2 ^ 63 ∧ b.toInt = -1)
      then some (a.toInt.tmod b.toInt) else none) := by
  -- the remainder is refused where the quotient is out of range, and is in range otherwise
  refine gives_ofInt_if (fun h => tmod_range b.toInt_range h.1) ?_
  show (pure (if (b.toInt = 0 || !fitsInt64 (a.toInt.tdiv b.toInt)) = true then none
      else checkedInt (a.toInt.tmod b.toInt)) : PoolM _) = _
  congr 1
  by_cases zero : b.toInt = 0
  · simp [zero]
  · by_cases edge : a.toInt = -2 ^ 63 ∧ b.toInt = -1
    · have out : fitsInt64 (a.toInt.tdiv b.toInt) = false := Bool.eq_false_iff.mpr fun fits =>
        (tdiv_range_iff a.toInt_range zero).mp ((fitsInt64_iff _).mp fits) edge
      rw [if_pos (by simp [out]), if_neg fun h => h.2 edge]
    · have fits : fitsInt64 (a.toInt.tdiv b.toInt) = true :=
        (fitsInt64_iff _).mpr ((tdiv_range_iff a.toInt_range zero).mpr edge)
      rw [if_neg (by simp [zero, fits]), if_pos ⟨zero, edge⟩, checkedInt_eq,
        if_pos (tmod_range b.toInt_range zero)]

/-- The shift amounts that the shifts take. -/
theorem shift_amount_iff (y : Int) : (decide (0 ≤ y) && decide (y < 64)) = true ↔ 0 ≤ y ∧ y ≤ 63 := by
  simp only [Bool.and_eq_true, decide_eq_true_eq]
  omega

theorem shl_gives :
    IntOp.shl.Gives [a, b] (if 0 ≤ b.toInt ∧ b.toInt ≤ 63
      then some ((a.toInt * 2 ^ b.toInt.toNat).bmod (2 ^ 64)) else none) := by
  have eval : (Prim.int .shl).applyPure [a, b] =
      pure (if 0 ≤ b.toInt ∧ b.toInt ≤ 63 then some (.ofBits64 (a.bits <<< b.bits)) else none) := by
    simp only [Prim.applyPure, IntOp.apply, shift_amount_iff]
  refine gives_of_pure eval ?_ ?_
  · by_cases inside : 0 ≤ b.toInt ∧ b.toInt ≤ 63
    · -- a shift amount in range is the plain number of its bits
      have amount : b.bits.toNat = b.toInt.toNat := by
        have := b.bits.toNat_lt
        unfold Value.toInt Value.bitsToInt at inside ⊢
        split at inside <;> simp only [Nat.pow_eq] at * <;> omega
      have small : b.bits.toNat < 64 := by omega
      simp [inside, Value.toInt_ofBits64_shiftLeft a b small, amount]
    · simp [inside]
  · intro v mem
    split at mem
    · cases mem
      rfl
    · cases mem

theorem shr_gives :
    IntOp.shr.Gives [a, b] (if 0 ≤ b.toInt ∧ b.toInt ≤ 63
      then some ⌊(a.toInt : ℚ) / 2 ^ b.toInt.toNat⌋ else none) := by
  have pos : (0 : Int) < (Nat.pow 2 b.toInt.toNat : Int) := by
    rw [Nat.pow_eq]
    positivity
  have range : 0 ≤ b.toInt ∧ b.toInt ≤ 63 →
      Int64Range (a.toInt.fdiv (Nat.pow 2 b.toInt.toNat : Int)) := fun _ => by
    rw [Int.fdiv_eq_ediv_of_nonneg _ pos.le]
    exact ediv_range a.toInt_range pos
  have gives : IntOp.shr.Gives [a, b] (if 0 ≤ b.toInt ∧ b.toInt ≤ 63
      then some (a.toInt.fdiv (Nat.pow 2 b.toInt.toNat : Int)) else none) :=
    gives_ofInt_if range (by simp only [Prim.applyPure, IntOp.apply, shift_amount_iff])
  rwa [fdiv_two_pow_eq_floor] at gives

theorem log2_gives :
    IntOp.log2.Gives [a] (if 0 < a.toInt then some (Nat.log 2 a.toInt.toNat : Int) else none) := by
  refine gives_ofInt_if (fun pos => log_range a.toInt_range pos) ?_
  simp only [Prim.applyPure, IntOp.apply, gt_iff_lt, Nat.log2_eq_log_two]

end Operations

/-- **The `i64` primitives are exact and never fault.** For all `i64` values `a` and `b`, each
of `+ - * / % << >> log2` runs from every pool without a fault, leaves the pool as it was, and
gives an `i64` exactly where the claimed integer is defined: `+`, `-` and `*` their exact result
when an `i64` holds it; `/` and `%` the quotient truncated toward zero and the remainder with
the sign of `a`, unless `b` is zero or the pair is `MIN / -1`; `<<` the product `a * 2^b`
reduced modulo `2^64` into the range, and `>>` the floor of `a / 2^b`, for `b` from `0` to
`63`; and `log2` the floor logarithm of a positive `a`. -/
theorem IntOp.arithmetic_is_exact (a b : Value) :
    IntOp.add.Gives [a, b] (if Int64Range (a.toInt + b.toInt) then some (a.toInt + b.toInt) else none) ∧
    IntOp.sub.Gives [a, b] (if Int64Range (a.toInt - b.toInt) then some (a.toInt - b.toInt) else none) ∧
    IntOp.mul.Gives [a, b] (if Int64Range (a.toInt * b.toInt) then some (a.toInt * b.toInt) else none) ∧
    IntOp.div.Gives [a, b] (if b.toInt ≠ 0 ∧ ¬ (a.toInt = -2 ^ 63 ∧ b.toInt = -1)
      then some (a.toInt.tdiv b.toInt) else none) ∧
    IntOp.rem.Gives [a, b] (if b.toInt ≠ 0 ∧ ¬ (a.toInt = -2 ^ 63 ∧ b.toInt = -1)
      then some (a.toInt.tmod b.toInt) else none) ∧
    IntOp.shl.Gives [a, b] (if 0 ≤ b.toInt ∧ b.toInt ≤ 63
      then some ((a.toInt * 2 ^ b.toInt.toNat).bmod (2 ^ 64)) else none) ∧
    IntOp.shr.Gives [a, b] (if 0 ≤ b.toInt ∧ b.toInt ≤ 63
      then some ⌊(a.toInt : ℚ) / 2 ^ b.toInt.toNat⌋ else none) ∧
    IntOp.log2.Gives [a] (if 0 < a.toInt then some (Nat.log 2 a.toInt.toNat : Int) else none) :=
  ⟨add_gives a b, sub_gives a b, mul_gives a b, div_gives a b, rem_gives a b, shl_gives a b,
    shr_gives a b, log2_gives a⟩

/-- `MIN / -1` has no result, and `-1 << 63` wraps to `MIN`. -/
example (p : Pool) :
    ((Prim.int .div).applyPure [.ofInt (-2 ^ 63), .ofInt (-1)]).run p = .ok (none, p) ∧
    ((Prim.int .shl).applyPure [.ofInt (-1), .ofInt 63]).run p = .ok (some (.ofInt (-2 ^ 63)), p) :=
  ⟨rfl, rfl⟩

end Saturate
