import Mathlib.Algebra.Order.Field.Power
import Mathlib.Algebra.Order.Floor.Semifield
import Mathlib.Data.Int.Log
import Mathlib.Data.Rat.Floor
import Mathlib.Tactic.FieldSimp
import Mathlib.Tactic.Linarith
import Mathlib.Tactic.NormNum
import Mathlib.Tactic.Positivity
import Mathlib.Tactic.Ring

/-! Rounding to the nearest, ties to even: of quotients, of rationals to integers, and of
rationals to the doubles. -/

namespace Rounding

def nearestQuotient (n unit : Nat) : Nat :=
  let rest := n % unit
  if unit < 2 * rest ∨ unit = 2 * rest ∧ n / unit % 2 = 1 then n / unit + 1 else n / unit

theorem nearestQuotient_near {unit : Nat} (positive : 0 < unit) (n : Nat) :
    2 * n ≤ unit * (2 * nearestQuotient n unit + 1) ∧
      unit * (2 * nearestQuotient n unit) ≤ 2 * n + unit := by
  have parts := Nat.div_add_mod n unit
  have below := Nat.mod_lt n positive
  have doubled : unit * (2 * (n / unit)) = 2 * (unit * (n / unit)) := by ring
  simp only [nearestQuotient]
  split
  next up =>
    have more : unit * (2 * (n / unit + 1)) = 2 * (unit * (n / unit)) + 2 * unit := by ring
    have most : unit * (2 * (n / unit + 1) + 1) = 2 * (unit * (n / unit)) + 3 * unit := by ring
    omega
  next down =>
    have most : unit * (2 * (n / unit) + 1) = 2 * (unit * (n / unit)) + unit := by ring
    omega

def halfEven (q : ℚ) : Nat :=
  nearestQuotient q.num.toNat q.den

theorem halfEven_near {q : ℚ} (nonneg : 0 ≤ q) :
    q ≤ halfEven q + 1 / 2 ∧ (halfEven q : ℚ) ≤ q + 1 / 2 := by
  have positive : (0 : ℚ) < q.den := by exact_mod_cast q.den_pos
  have whole : ((q.num.toNat : Nat) : ℚ) = q * q.den := by
    have same : ((q.num.toNat : Nat) : Int) = q.num := Int.toNat_of_nonneg (Rat.num_nonneg.mpr nonneg)
    rw [Rat.mul_den_eq_num]
    exact_mod_cast same
  obtain ⟨upper, lower⟩ := nearestQuotient_near q.den_pos q.num.toNat
  have upperRat : 2 * (q * q.den) ≤ q.den * (2 * (halfEven q : ℚ) + 1) := by
    rw [← whole]
    exact_mod_cast upper
  have lowerRat : (q.den : ℚ) * (2 * (halfEven q : ℚ)) ≤ 2 * (q * q.den) + q.den := by
    rw [← whole]
    exact_mod_cast lower
  constructor
  · have scaled : q.den * (2 * q) ≤ q.den * (2 * (halfEven q : ℚ) + 1) := by linarith
    have smaller := le_of_mul_le_mul_left scaled positive
    linarith
  · have scaled : (q.den : ℚ) * (2 * (halfEven q : ℚ)) ≤ q.den * (2 * q + 1) := by linarith
    have smaller := le_of_mul_le_mul_left scaled positive
    linarith

def lastBit (q : ℚ) : Int :=
  max (Int.log 2 q - 52) (-1074)

def double (q : ℚ) : ℚ :=
  halfEven (q / 2 ^ lastBit q) * 2 ^ lastBit q

theorem lastBit_small {q : ℚ} (positive : 0 < q) :
    (2 : ℚ) ^ lastBit q ≤ q * 2 ^ (-52 : Int) + 2 ^ (-1074 : Int) := by
  have least : (0 : ℚ) < 2 ^ (-1074 : Int) := by positivity
  have below := @Int.zpow_log_le_self ℚ _ _ _ _ 2 q (by norm_num) positive
  rcases max_cases (Int.log 2 q - 52) (-1074) with ⟨same, _⟩ | ⟨same, _⟩
  · have scaled : (2 : ℚ) ^ Int.log 2 q * 2 ^ (-52 : Int) ≤ q * 2 ^ (-52 : Int) :=
      mul_le_mul_of_nonneg_right (by exact_mod_cast below) (by positivity)
    rw [lastBit, same, sub_eq_add_neg, zpow_add₀ (by norm_num)]
    exact scaled.trans (le_add_of_nonneg_right least.le)
  · rw [lastBit, same]
    exact le_add_of_nonneg_left (by positivity)

theorem double_near {q : ℚ} (nonneg : 0 ≤ q) :
    q ≤ double q + (q * 2 ^ (-52 : Int) + 2 ^ (-1074 : Int)) / 2 ∧
      double q ≤ q + (q * 2 ^ (-52 : Int) + 2 ^ (-1074 : Int)) / 2 := by
  rcases nonneg.eq_or_lt with zero | positive
  · subst zero
    have rounded : double 0 = 0 := by decide +kernel
    rw [rounded]
    constructor <;> positivity
  · have unit : (0 : ℚ) < 2 ^ lastBit q := by positivity
    obtain ⟨upper, lower⟩ := @halfEven_near (q / 2 ^ lastBit q) (by positivity)
    have small := lastBit_small positive
    have restored : q / 2 ^ lastBit q * 2 ^ lastBit q = q := div_mul_cancel₀ q unit.ne'
    have upperScaled := mul_le_mul_of_nonneg_right upper unit.le
    have lowerScaled := mul_le_mul_of_nonneg_right lower unit.le
    rw [restored, add_mul] at upperScaled
    rw [add_mul, restored] at lowerScaled
    unfold double
    generalize q * 2 ^ (-52 : Int) + 2 ^ (-1074 : Int) = slack at small ⊢
    generalize (halfEven (q / 2 ^ lastBit q) : ℚ) * 2 ^ lastBit q = rounded at upperScaled lowerScaled ⊢
    generalize (2 : ℚ) ^ lastBit q = bit at small upperScaled lowerScaled
    constructor <;> linarith

theorem double_nonneg (q : ℚ) : 0 ≤ double q := by
  unfold double
  positivity

end Rounding
