import FusionPipeline.Library.Rounding
import FusionPipeline.PathReads

/-! The numbers a stage computes with: integers as floats, and numbers compared. -/

namespace FusionPipeline

namespace F64

/-- The float nearest to a number below `2 ^ 1023`. -/
def ofNat (n : Nat) : F64 :=
  if n = 0 then ⟨0⟩
  else
    -- The significand keeps its leading one, which adds one to the exponent's field; so does a
    -- significand that rounds up to the next power of two.
    let significand :=
      if n.log2 ≤ 52 then n * 2 ^ (52 - n.log2) else Rounding.nearestQuotient n (2 ^ (n.log2 - 52))
    ⟨UInt64.ofNat ((n.log2 + 1022) * 2 ^ 52 + significand)⟩

def ofInt (value : Int) : F64 :=
  if value < 0 then ⟨(ofNat value.natAbs).bits ||| 0x8000000000000000⟩ else ofNat value.natAbs

def nan : F64 :=
  ⟨0x7FF8000000000000⟩

def magnitude (value : F64) : UInt64 :=
  value.bits &&& 0x7FFFFFFFFFFFFFFF

def isNan (value : F64) : Bool :=
  0x7FF0000000000000 < value.magnitude

/-- The place among the floats that are not a NaN; both zeros have the same. -/
def rank (value : F64) : Int :=
  if value.bits >>> 63 = 1 then -value.magnitude.toNat else value.magnitude.toNat

def absolute (value : F64) : ℚ :=
  let field := (value.magnitude >>> 52).toNat
  let fraction := (value.magnitude &&& 0xFFFFFFFFFFFFF).toNat
  if field = 0 then fraction * 2 ^ (-1074 : Int) else (2 ^ 52 + fraction) * 2 ^ ((field : Int) - 1075)

theorem absolute_nonneg (value : F64) : 0 ≤ value.absolute := by
  simp only [absolute]
  split
  · positivity
  · positivity

theorem isFinite_of_lt {value : F64} (below : value.bits.toNat < 0x7FF * 2 ^ 52) :
    value.isFinite = true := by
  have field : (value.bits >>> 52 &&& 0x7FF).toNat < 0x7FF := by
    rw [UInt64.toNat_and, UInt64.toNat_shiftRight]
    refine Nat.lt_of_le_of_lt Nat.and_le_left ?_
    rw [Nat.shiftRight_eq_div_pow]
    exact Nat.div_lt_of_lt_mul (by rwa [Nat.mul_comm])
  rw [isFinite, bne_iff_ne]
  intro same
  rw [same] at field
  exact Nat.lt_irrefl _ field

theorem significand_le (n : Nat) :
    (if n.log2 ≤ 52 then n * 2 ^ (52 - n.log2) else Rounding.nearestQuotient n (2 ^ (n.log2 - 52))) ≤
      2 ^ 53 := by
  have below : n < 2 ^ (n.log2 + 1) := Nat.lt_log2_self
  split
  next small =>
    have whole : 2 ^ (n.log2 + 1) * 2 ^ (52 - n.log2) = 2 ^ 53 := by
      rw [← Nat.pow_add]
      congr 1
      omega
    exact whole ▸ Nat.mul_le_mul_right _ below.le
  next large =>
    have whole : 2 ^ (n.log2 - 52) * 2 ^ 53 = 2 ^ (n.log2 + 1) := by
      rw [← Nat.pow_add]
      congr 1
      omega
    have quotient : n / 2 ^ (n.log2 - 52) < 2 ^ 53 := Nat.div_lt_of_lt_mul (whole ▸ below)
    simp only [Rounding.nearestQuotient]
    split <;> omega

theorem ofNat_finite {n : Nat} (bound : n < 2 ^ 64) : (ofNat n).isFinite = true := by
  rw [ofNat]
  split
  · decide
  next positive =>
    have significand := significand_le n
    have exponent : n.log2 < 64 := (Nat.log2_lt positive).mpr bound
    apply isFinite_of_lt
    generalize (if n.log2 ≤ 52 then _ else _) = kept at significand
    change (UInt64.ofNat ((n.log2 + 1022) * 2 ^ 52 + kept)).toNat < 0x7FF * 2 ^ 52
    rw [UInt64.toNat_ofNat_of_lt' (by rw [UInt64.size]; omega)]
    omega

def partialCmp (left right : F64) : Option Ordering :=
  if left.isNan || right.isNan then none else some (compare left.rank right.rank)

end F64

namespace Num

def asF64 : Num → F64
  | int value => .ofInt value
  | float value => value

def partialCmp : Num → Num → Option Ordering
  | int left, int right => some (compare left right)
  | left, right => left.asF64.partialCmp right.asF64

end Num

end FusionPipeline
