import Mathlib.Data.List.Infix
import FusionPipeline.RegexMoves

/-! Where the rewriter cuts a pattern, and the offset map of what it returns. -/

namespace FusionPipeline.Regex

structure Mapped (out : Desugared) (i limit : Nat) : Prop where
  entries : out.offsets.length = out.text.length
  ordered : out.offsets.Pairwise (· ≤ ·)
  passed : ∀ offset ∈ out.offsets, offset ≤ i ∧ offset ≤ limit

theorem slice_length {bytes kept : List UInt8} {start stop : Nat} (fits : stop ≤ bytes.length)
    (sliced : slice bytes start stop = .ok kept) : kept.length = stop - start := by
  rw [slice] at sliced
  split at sliced
  · rw [← Except.ok.inj sliced, List.length_take, List.length_drop]
    omega
  · cases sliced

theorem Mapped.pushRange {out pushed : Desugared} {pattern : List UInt8} {i length : Nat}
    (mapped : Mapped out i pattern.length)
    (copied : out.pushRange pattern i (i + length) = .ok pushed) :
    Mapped pushed (i + length) pattern.length := by
  rw [Desugared.pushRange] at copied
  cases sliced : slice pattern i (min (i + length) pattern.length) with
  | error panic => rw [sliced] at copied; cases copied
  | ok kept =>
      rw [sliced] at copied
      obtain rfl := Except.ok.inj copied
      have size := slice_length (by omega) sliced
      constructor
      · simp [mapped.entries, size]
      · refine List.pairwise_append.mpr ⟨mapped.ordered, ?_, ?_⟩
        · exact List.pairwise_le_range'
        · intro before member after later
          have low := (mapped.passed before member).1
          have high := (List.mem_range'_1.mp later).1
          omega
      · intro offset member
        rcases List.mem_append.mp member with before | later
        · have passed := mapped.passed offset before
          omega
        · have range := List.mem_range'_1.mp later
          omega

theorem Mapped.pushReplacement {out : Desugared} {i limit : Nat} (mapped : Mapped out i limit)
    (inside : i ≤ limit) (replacement : List UInt8) (length : Nat) :
    Mapped (out.pushReplacement replacement i) (i + length) limit := by
  constructor
  · simp [Desugared.pushReplacement, mapped.entries]
  · refine List.pairwise_append.mpr ⟨mapped.ordered, ?_, ?_⟩
    · rw [List.pairwise_replicate]
      exact Or.inr (Nat.le_refl i)
    · intro before member after later
      rw [List.eq_of_mem_replicate later]
      exact (mapped.passed before member).1
  · intro offset member
    rcases List.mem_append.mp member with before | later
    · have passed := mapped.passed offset before
      omega
    · rw [List.eq_of_mem_replicate later]
      omega

def IsAscii (bytes : List UInt8) : Prop :=
  ∀ byte ∈ bytes, byte.toNat < 0x80

theorem isBoundary_length (bytes : List UInt8) : Utf8.isBoundary bytes bytes.length = true := by
  simp [Utf8.isBoundary]

section Valid

variable {chars : List Char} {pattern : List UInt8}
  (valid : pattern = chars.flatMap String.utf8EncodeChar)

include valid

end Valid

end FusionPipeline.Regex
