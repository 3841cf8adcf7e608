import Mathlib.Data.Rat.Floor
import SchemaDoc.Number.Basic

/-!
# Exact values

What a number is worth as a rational: an integer is worth itself, and a double what its encoding
says. As a signed integer a number is worth its exact value without the fraction, up to the ends of
the range. An integer that is too great for that is first rounded to a double, but no rounding takes
it back below the power of two that it has reached.
-/

namespace SchemaDoc

/-! ## Whole parts -/

/-- What is left of a number without its fraction. -/
def towardZero (q : ℚ) : ℤ := if q < 0 then ⌈q⌉ else ⌊q⌋

/-- A whole number has no fraction. -/
theorem towardZero_intCast (i : ℤ) : towardZero i = i := by
  unfold towardZero
  split
  · exact Int.ceil_intCast i
  · exact Int.floor_intCast i

private theorem towardZero_neg (q : ℚ) : towardZero (-q) = -towardZero q := by
  unfold towardZero
  rcases lt_trichotomy q 0 with h | rfl | h
  · rw [if_pos h, if_neg (not_lt.mpr (neg_nonneg.mpr h.le)), Int.floor_neg]
  · simp
  · rw [if_pos (neg_lt_zero.mpr h), if_neg (not_lt.mpr h.le), Int.ceil_neg]

private theorem towardZero_div (a b : ℕ) : towardZero ((a : ℚ) / b) = (a / b : ℕ) := by
  have h : ¬(a : ℚ) / b < 0 := not_lt.mpr (by positivity)
  rw [towardZero, if_neg h, Rat.floor_natCast_div_natCast]
  rfl

/-! ## Doubles -/

namespace Double

/-- The magnitude of a rank, which is the encoding: behind the eleven bits of the exponent stand the
bits of the fraction, and one more bit stands in front of them unless the exponent is zero. -/
def magnitude (rank : ℕ) : ℚ :=
  if rank / 2 ^ 52 = 0 then (rank % 2 ^ 52 : ℕ) * 2 ^ (-1074 : ℤ)
  else (2 ^ 52 + rank % 2 ^ 52 : ℕ) * 2 ^ ((rank / 2 ^ 52 : ℕ) - 1075 : ℤ)

/-- The exact value of a double. -/
def value (x : Double) : ℚ := if x.negative then -magnitude x.rank else magnitude x.rank

private theorem binade_eq : binade = 2 ^ 52 := rfl

private theorem one_eq : one = 2 ^ 1074 := by
  unfold one
  generalize 1074 = k
  exact Nat.one_shiftLeft k

private theorem magnitude_eq (rank : ℕ) : magnitude rank = (unitsAt rank : ℚ) / one := by
  have scaled : (one : ℚ) = 2 ^ (1074 : ℤ) := by
    rw [one_eq, Nat.cast_pow, Nat.cast_ofNat]
    exact (zpow_ofNat 2 1074).symm
  rw [magnitude, unitsAt, binade_eq, scaled]
  by_cases h : rank < 2 ^ 52
  · rw [if_pos h, if_pos (Nat.div_eq_of_lt h), Nat.mod_eq_of_lt h, div_eq_mul_inv, ← zpow_neg]
  · have positive : 0 < rank / 2 ^ 52 := Nat.div_pos (Nat.not_lt.mp h) (Nat.two_pow_pos 52)
    rw [if_neg h, if_neg positive.ne', Nat.shiftLeft_eq, Nat.cast_mul, mul_div_assoc, Nat.cast_pow,
      Nat.cast_ofNat, ← zpow_natCast, ← zpow_sub₀ two_ne_zero]
    congr 2
    omega

private theorem unitsAt_add {m : ℕ} (low : binade ≤ m) (high : m ≤ 2 * binade) (shift : ℕ) :
    unitsAt (shift * binade + m) = m <<< shift := by
  unfold unitsAt binade
  unfold binade at low high
  rw [if_neg (by omega), Nat.shiftLeft_eq, Nat.shiftLeft_eq]
  by_cases h : m < 2 * 0x10000000000000
  · have quotient : (shift * 0x10000000000000 + m) / 0x10000000000000 - 1 = shift := by omega
    have rest : 0x10000000000000 + (shift * 0x10000000000000 + m) % 0x10000000000000 = m := by
      omega
    rw [quotient, rest]
  · obtain rfl : m = 2 * 0x10000000000000 := by omega
    have quotient : (shift * 0x10000000000000 + 2 * 0x10000000000000) / 0x10000000000000 - 1 =
        shift + 1 := by omega
    have rest : (shift * 0x10000000000000 + 2 * 0x10000000000000) % 0x10000000000000 = 0 := by omega
    rw [quotient, rest, Nat.pow_succ]
    omega

private theorem le_unitsAt_nearestRank {n : ℕ} (h : 2 * binade ≤ n) :
    2 ^ n.log2 ≤ unitsAt (nearestRank n 1) := by
  have positive : n ≠ 0 := by
    unfold binade at h
    omega
  have log : 53 ≤ n.log2 := (Nat.le_log2 positive).mpr h
  have power : 2 ^ n.log2 = binade * 2 ^ (n.log2 - 52) := by
    rw [binade_eq, ← Nat.pow_add]
    congr 1
    omega
  have low : binade ≤ n / 2 ^ (n.log2 - 52) := by
    apply (Nat.le_div_iff_mul_le (Nat.two_pow_pos _)).mpr
    rw [← power]
    exact Nat.log2_self_le positive
  have high : n / 2 ^ (n.log2 - 52) < 2 * binade := by
    apply (Nat.div_lt_iff_lt_mul (Nat.two_pow_pos _)).mpr
    have : n < 2 ^ (n.log2 + 1) := Nat.lt_log2_self
    rwa [Nat.pow_succ, power, Nat.mul_comm, ← Nat.mul_assoc] at this
  rw [nearestRank]
  simp only [Nat.div_one, if_neg (Nat.not_lt.mpr h), Nat.one_shiftLeft]
  split
  · rw [unitsAt_add (by omega) (by omega), power, Nat.shiftLeft_eq]
    exact Nat.mul_le_mul_right _ (by omega)
  · rw [unitsAt_add low (by omega), power, Nat.shiftLeft_eq]
    exact Nat.mul_le_mul_right _ low

private theorem le_whole_rankOfNat {n k : ℕ} (h : 2 ^ k ≤ n) :
    2 ^ k ≤ unitsAt (rankOfNat n) / one := by
  obtain ⟨e, he, one_eq⟩ : ∃ e, 53 ≤ e ∧ one = 2 ^ e := ⟨1074, by decide, one_eq⟩
  have reached : 2 ^ (k + e) ≤ n * one := by
    rw [Nat.pow_add, one_eq]
    exact Nat.mul_le_mul_right _ h
  have large : 2 * binade ≤ n * one := by
    refine le_trans ?_ reached
    show 2 ^ 53 ≤ _
    exact Nat.pow_le_pow_right (by decide) (by omega)
  have positive : n * one ≠ 0 := by
    unfold binade at large
    omega
  have one_pos : 0 < one := by
    rw [one_eq]
    exact Nat.two_pow_pos e
  apply (Nat.le_div_iff_mul_le one_pos).mpr
  calc 2 ^ k * one = 2 ^ (k + e) := by rw [Nat.pow_add, one_eq]
    _ ≤ 2 ^ (n * one).log2 := Nat.pow_le_pow_right (by decide) ((Nat.le_log2 positive).mpr reached)
    _ ≤ unitsAt (rankOfNat n) := le_unitsAt_nearestRank large

end Double

/-! ## Numbers -/

namespace Number

/-- The exact value of a number. -/
def value : Number → ℚ
  | integer i => i.val
  | double x => x.value

/-- The range of the signed integers is kept. -/
theorem clampInt64_eq (i : ℤ) : clampInt64 i = max (-2 ^ 63) (min i (2 ^ 63 - 1)) := by
  norm_num [clampInt64]

private theorem clampInt64_of_le {i : ℤ} (h : 2 ^ 63 ≤ i) : clampInt64 i = 2 ^ 63 - 1 := by
  rw [clampInt64_eq]
  omega

private theorem clampInt64_of_lt {i : ℤ} (low : -2 ^ 63 ≤ i) (high : i < 2 ^ 63) :
    clampInt64 i = i := by
  rw [clampInt64_eq]
  omega

/-- As a signed integer a number is worth its exact value without the fraction, up to the ends of
the range. -/
theorem toInt64_eq (n : Number) : n.toInt64 = clampInt64 (towardZero n.value) := by
  cases n with
  | integer i =>
    rw [value, towardZero_intCast]
    by_cases h : i.val < 0x8000000000000000
    · have low := i.le_val
      rw [toInt64, if_pos h, clampInt64_of_lt (by omega) (by omega)]
    · have sign : ¬i.val < 0 := by omega
      have reached : 2 ^ 63 ≤ Double.unitsAt (Double.rankOfNat i.val.natAbs) / Double.one := by
        apply Double.le_whole_rankOfNat
        omega
      rw [toInt64, if_neg h, clampInt64_of_le (i := i.val) (by omega)]
      simp only [toSignedRank, decide_eq_false sign, Bool.false_eq_true, if_false]
      apply clampInt64_of_le
      exact_mod_cast reached
  | double x =>
    obtain ⟨negative, rank, rank_lt⟩ := x
    rw [value, Double.value, toInt64]
    simp only [toSignedRank]
    cases negative with
    | false =>
      simp only [Bool.false_eq_true, if_false, Double.magnitude_eq, towardZero_div]
      rfl
    | true =>
      simp only [if_true, Double.magnitude_eq, towardZero_neg, towardZero_div]
      rfl

end Number

end SchemaDoc
