import Mathlib.Data.Set.Card

/-! Words mixed in steps that lose nothing: a shift folded in, a product with a unit. -/

namespace Mixing

section Words

variable {width : Nat}

/-- A word with its own upper bits folded in: each bit is read off from the top. -/
theorem xorShift_injective {shift : Nat} (positive : 0 < shift) :
    Function.Injective fun word : BitVec width => word ^^^ (word >>> shift) := by
  intro word other same
  have bits (i : Nat) : (word.getLsbD i ^^ word.getLsbD (shift + i)) =
      (other.getLsbD i ^^ other.getLsbD (shift + i)) := by
    have bit := congrArg (BitVec.getLsbD · i) same
    simpa only [BitVec.getLsbD_xor, BitVec.getLsbD_ushiftRight] using bit
  have fromTop (distance i : Nat) (bound : width ≤ i + distance) :
      word.getLsbD i = other.getLsbD i := by
    induction distance generalizing i with
    | zero => rw [BitVec.getLsbD_of_ge word i bound, BitVec.getLsbD_of_ge other i bound]
    | succ distance ih =>
        have above := ih (shift + i) (by omega)
        have here := bits i
        rw [above] at here
        exact (Bool.xor_left_inj).mp here
  apply BitVec.eq_of_getLsbD_eq
  intro i _
  exact fromTop width i (by omega)

end Words

section Words64

theorem xorShift64_injective {shift : UInt64} (positive : 0 < (shift % 64).toNat) :
    Function.Injective fun word : UInt64 => word ^^^ (word >>> shift) := by
  intro word other same
  have bits := congrArg UInt64.toBitVec same
  simp only [UInt64.toBitVec_xor, UInt64.toBitVec_shiftRight] at bits
  apply UInt64.toBitVec_inj.mp
  exact xorShift_injective positive bits

theorem multiply64_injective {factor inverse : UInt64} (unit : factor * inverse = 1) :
    Function.Injective fun word : UInt64 => word * factor := by
  intro word other same
  have undone := congrArg (· * inverse) same
  simp only [UInt64.mul_assoc, unit, UInt64.mul_one] at undone
  exact undone

theorem xor64_injective (mask : UInt64) : Function.Injective fun word : UInt64 => word ^^^ mask := by
  intro word other same
  have undone := congrArg (· ^^^ mask) same
  simp only [UInt64.xor_assoc, UInt64.xor_self, UInt64.xor_zero] at undone
  exact undone

theorem bijective_of_injective {step : UInt64 → UInt64} (injective : Function.Injective step) :
    Function.Bijective step := by
  have finite : Finite UInt64 := Finite.of_injective UInt64.toFin fun _ _ => UInt64.toFin_inj.mp
  exact Finite.injective_iff_bijective.mp injective

theorem ncard_le {step : UInt64 → UInt64} (bijective : Function.Bijective step) (bound : UInt64) :
    {word | step word ≤ bound}.ncard = bound.toNat + 1 := by
  have numbers : UInt64.toNat '' {word | word ≤ bound} = (Finset.range (bound.toNat + 1) : Set Nat) := by
    ext number
    simp only [Set.mem_image, Set.mem_ofPred_eq, UInt64.le_iff_toNat_le, Finset.coe_range, Set.mem_Iio]
    constructor
    · rintro ⟨word, below, rfl⟩
      omega
    · intro below
      have fits : number < 2 ^ 64 := Nat.lt_of_lt_of_le below bound.toNat_lt
      refine ⟨UInt64.ofNat number, ?_, UInt64.toNat_ofNat_of_lt' fits⟩
      rw [UInt64.toNat_ofNat_of_lt' fits]
      omega
  have counted : {word | step word ≤ bound}.ncard = {word : UInt64 | word ≤ bound}.ncard := by
    have preimage : {word | step word ≤ bound} = Set.preimage step {word | word ≤ bound} := by
      rfl
    rw [preimage]
    refine Set.ncard_preimage_of_injective_subset_range bijective.1 ?_
    rw [bijective.2.range_eq]
    exact Set.subset_univ _
  rw [counted, ← Set.ncard_image_of_injective _ fun _ _ => UInt64.toNat_inj.mp, numbers,
    Set.ncard_coe_finset, Finset.card_range]

end Words64

end Mixing
