import Mathlib.Algebra.Order.Field.Basic
import Mathlib.Algebra.Order.Ring.Rat
import Mathlib.Data.Rat.Cast.Order
import Mathlib.Tactic.FieldSimp
import Mathlib.Tactic.Linarith
import Mathlib.Tactic.Positivity
import Mathlib.Tactic.Ring
import LoxLexer.Binary64.Rounding

namespace LoxLexer.Binary64

def exponentField (x : Binary64) : Nat := x.magnitude / 2 ^ 52

def fractionField (x : Binary64) : Nat := x.magnitude % 2 ^ 52

/-- The leading bit of a normal significand is not written. -/
def significand (x : Binary64) : Nat :=
  if x.exponentField = 0 then x.fractionField else 2 ^ 52 + x.fractionField

/-- What a finite datum stands for. The least exponent is shared by the subnormals and the lowest
normals. -/
def value (x : Binary64) : ℚ :=
  (if x.negative then -1 else 1) * x.significand * 2 ^ ((max x.exponentField 1 : ℕ) - 1075 : ℤ)

def scale (bits : Nat) : ℚ := units bits / 2 ^ 1074

variable {bits binade m n : Nat} {x y : Binary64}

theorem leadingBit_eq : leadingBit = 2 ^ 52 := by norm_num [leadingBit]

theorem units_of_lt (h : bits < leadingBit) : units bits = bits := if_pos h

theorem units_add (low : leadingBit ≤ m ∨ binade = 0) (high : m ≤ 2 * leadingBit) :
    units (binade * leadingBit + m) = m * 2 ^ binade := by
  have pos : 0 < leadingBit := by decide
  rcases Nat.lt_or_ge m leadingBit with subnormal | normal
  · obtain rfl : binade = 0 := by omega
    rw [Nat.zero_mul, Nat.zero_add, units_of_lt subnormal, Nat.pow_zero, Nat.mul_one]
  · have large : ¬ binade * leadingBit + m < leadingBit := by
      have := Nat.zero_le (binade * leadingBit)
      omega
    obtain ⟨fraction, rfl⟩ := Nat.exists_eq_add_of_le normal
    have sum : binade * leadingBit + (leadingBit + fraction) =
        fraction + (binade + 1) * leadingBit := by ring
    rw [units, if_neg large, Nat.shiftLeft_eq, sum, Nat.add_mul_div_right _ _ pos,
      Nat.add_mul_mod_self_right]
    rcases Nat.lt_or_ge fraction leadingBit with inside | carried
    · rw [Nat.div_eq_of_lt inside, Nat.mod_eq_of_lt inside]
      congr 2
      omega
    · obtain rfl : fraction = leadingBit := by omega
      rw [Nat.div_self pos, Nat.mod_self, show 1 + (binade + 1) - 1 = binade + 1 by omega]
      ring

theorem exists_binade (n : Nat) : ∃ binade m, n = binade * leadingBit + m ∧
    (leadingBit ≤ m ∨ binade = 0) ∧ m < 2 * leadingBit := by
  refine ⟨n / leadingBit - 1, n - (n / leadingBit - 1) * leadingBit, ?_⟩
  simp only [leadingBit]
  omega

theorem units_lt_succ (n : Nat) : units n < units (n + 1) := by
  obtain ⟨binade, m, rfl, low, high⟩ := exists_binade n
  rw [Nat.add_assoc, units_add low (by omega), units_add (by omega) high]
  exact Nat.mul_lt_mul_of_pos_right (Nat.lt_succ_self m) (Nat.two_pow_pos binade)

theorem scale_strictMono : StrictMono scale := by
  apply strictMono_nat_of_lt_succ
  intro n
  rw [scale, scale]
  gcongr
  exact units_lt_succ n

theorem scale_zero : scale 0 = 0 := by
  rw [scale, units_of_lt (by decide), Nat.cast_zero, zero_div]

theorem scale_nonneg (n : Nat) : 0 ≤ scale n := by
  rw [← scale_zero]
  exact scale_strictMono.monotone (Nat.zero_le n)

theorem scale_units (low : leadingBit ≤ m ∨ binade = 0) (high : m ≤ 2 * leadingBit) :
    scale (binade * leadingBit + m) = m * 2 ^ binade / 2 ^ 1074 := by
  rw [scale, units_add low high]
  push_cast
  rfl

theorem magnitude_eq (x : Binary64) :
    x.magnitude = (max x.exponentField 1 - 1) * leadingBit + x.significand := by
  have split := Nat.div_add_mod' x.magnitude (2 ^ 52)
  rw [significand, leadingBit_eq, exponentField, fractionField]
  split <;> omega

theorem significand_bounds (x : Binary64) :
    (leadingBit ≤ x.significand ∨ max x.exponentField 1 - 1 = 0) ∧
      x.significand ≤ 2 * leadingBit := by
  have fraction : x.fractionField < 2 ^ 52 := Nat.mod_lt _ (by decide)
  rw [significand, leadingBit_eq]
  split <;> omega

theorem value_eq (x : Binary64) :
    x.value = (if x.negative then -1 else 1) * scale x.magnitude := by
  obtain ⟨low, high⟩ := x.significand_bounds
  have exponent : ((max x.exponentField 1 : ℕ) - 1075 : ℤ) =
      ((max x.exponentField 1 - 1 : ℕ) : ℤ) - (1074 : ℕ) := by omega
  rw [value, x.magnitude_eq, scale_units low high, exponent, zpow_sub₀ two_ne_zero, zpow_natCast,
    zpow_natCast, mul_assoc, mul_div_assoc]

theorem even_significand_iff (x : Binary64) : Even x.significand ↔ Even x.magnitude := by
  have even : Even leadingBit := by decide
  rw [x.magnitude_eq, Nat.even_add, iff_true_left (even.mul_left _)]

end LoxLexer.Binary64
