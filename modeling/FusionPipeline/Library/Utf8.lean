import FusionPipeline.Library.Text

/-! UTF-8 text as bytes: where a character may be cut from the next. -/

namespace Utf8

def bytes (text : String) : List UInt8 :=
  text.toList.flatMap String.utf8EncodeChar

def isContinuation (byte : UInt8) : Bool :=
  decide (0x80 ≤ byte ∧ byte < 0xC0)

def isBoundary (bytes : List UInt8) (index : Nat) : Bool :=
  match bytes[index]? with
  | some byte => !isContinuation byte
  | none => index == bytes.length

theorem isContinuation_iff (byte : UInt8) :
    isContinuation byte = true ↔ 0x80 ≤ byte.toNat ∧ byte.toNat < 0xC0 := by
  simp [isContinuation, UInt8.le_iff_toNat_le, UInt8.lt_iff_toNat_lt]

theorem isContinuation_ofNat (value : Nat) :
    isContinuation (UInt8.ofNat (value % 64 + 0x80)) = true := by
  rw [isContinuation_iff, UInt8.toNat_ofNat_of_lt' (show value % 64 + 0x80 < 2 ^ 8 by omega)]
  omega

theorem encode_cases (char : Char) :
    (∃ byte, String.utf8EncodeChar char = [byte] ∧ byte.toNat < 0x80) ∨
      ∃ first second rest, String.utf8EncodeChar char = first :: second :: rest ∧
        0xC0 ≤ first.toNat ∧ ∀ byte ∈ second :: rest, isContinuation byte = true := by
  have lead (value : Nat) (low : 0xC0 ≤ value) (high : value < 2 ^ 8) :
      0xC0 ≤ (UInt8.ofNat value).toNat := by
    rwa [UInt8.toNat_ofNat_of_lt' high]
  simp only [String.utf8EncodeChar]
  generalize char.val.toNat = value
  split
  next ascii =>
    left
    refine ⟨_, rfl, ?_⟩
    rw [UInt8.toNat_ofNat_of_lt' (show value < 2 ^ 8 by omega)]
    omega
  · right
    split
    · refine ⟨_, _, _, rfl, lead _ (by omega) (by omega), ?_⟩
      simp only [List.forall_mem_cons, isContinuation_ofNat, List.not_mem_nil, false_imp_iff,
        implies_true, and_self]
    · split
      · refine ⟨_, _, _, rfl, lead _ (by omega) (by omega), ?_⟩
        simp only [List.forall_mem_cons, isContinuation_ofNat, List.not_mem_nil, false_imp_iff,
          implies_true, and_self]
      · refine ⟨_, _, _, rfl, lead _ (by omega) (by omega), ?_⟩
        simp only [List.forall_mem_cons, isContinuation_ofNat, List.not_mem_nil, false_imp_iff,
          implies_true, and_self]

theorem utf8EncodeChar_ascii {char : Char} (ascii : char.toNat < 0x80) :
    String.utf8EncodeChar char = [char.toUInt8] := by
  have small : char.val.toNat ≤ 0x7F := by
    rw [Char.toNat] at ascii
    omega
  rw [String.utf8EncodeChar, if_pos small]
  rfl

theorem utf8EncodeChar_wide {char : Char} (wide : 0x80 ≤ char.toNat) :
    ∀ byte ∈ String.utf8EncodeChar char, 0x80 ≤ byte.toNat := by
  intro byte member
  rcases encode_cases char with ⟨only, encoded, ascii⟩ | ⟨first, second, more, encoded, lead, tails⟩
  · have large : ¬ char.val.toNat ≤ 0x7F := by
      rw [Char.toNat] at wide
      omega
    have size := congrArg List.length encoded
    rw [String.utf8EncodeChar, if_neg large] at size
    split at size
    · cases size
    · split at size <;> cases size
  · rw [encoded, List.mem_cons] at member
    rcases member with rfl | member
    · omega
    · exact ((isContinuation_iff byte).mp (tails byte member)).1

theorem toNat_toUInt8 {char : Char} (ascii : char.toNat < 0x80) :
    char.toUInt8.toNat = char.toNat := by
  rw [Char.toUInt8, UInt32.toNat_toUInt8]
  rw [Char.toNat] at ascii ⊢
  omega

theorem ne_of_mem_utf8EncodeChar {char other : Char} (ascii : other.toNat < 0x80)
    (differ : char ≠ other) : ∀ byte ∈ String.utf8EncodeChar char, byte ≠ other.toUInt8 := by
  intro byte member same
  have value := toNat_toUInt8 ascii
  rw [← same] at value
  by_cases narrow : char.toNat < 0x80
  · rw [utf8EncodeChar_ascii narrow, List.mem_singleton] at member
    have first := toNat_toUInt8 narrow
    rw [← member] at first
    apply differ
    rw [← Char.ofNat_toNat char, ← Char.ofNat_toNat other, ← first, value]
  · have wide := utf8EncodeChar_wide (Nat.le_of_not_lt narrow) byte member
    omega

theorem isBoundary_append (before after : List UInt8) (index : Nat) :
    isBoundary (before ++ after) (before.length + index) = isBoundary after index := by
  simp only [isBoundary, List.getElem?_append_right (Nat.le_add_right _ _),
    Nat.add_sub_cancel_left, List.length_append]
  cases after[index]? <;> simp

theorem isBoundary_encode (chars : List Char) :
    isBoundary (chars.flatMap String.utf8EncodeChar) 0 = true := by
  cases chars with
  | nil => rfl
  | cons char rest =>
      rcases encode_cases char with ⟨byte, encoded, ascii⟩ | ⟨first, second, more, encoded, lead, _⟩
      · have plain : isContinuation byte = false := by
          rw [Bool.eq_false_iff, Ne, isContinuation_iff]
          omega
        simp [isBoundary, encoded, plain]
      · have plain : isContinuation first = false := by
          rw [Bool.eq_false_iff, Ne, isContinuation_iff]
          omega
        simp [isBoundary, encoded, plain]

/-- After an ASCII byte the text may be cut; after the first byte of a longer character, not. -/
theorem isBoundary_succ {chars : List Char} {index : Nat} {byte : UInt8}
    (here : (chars.flatMap String.utf8EncodeChar)[index]? = some byte)
    (cut : isBoundary (chars.flatMap String.utf8EncodeChar) index = true) :
    isBoundary (chars.flatMap String.utf8EncodeChar) (index + 1) = decide (byte.toNat < 0x80) := by
  induction chars generalizing index with
  | nil => simp at here
  | cons char rest ih =>
      rw [List.flatMap_cons] at here cut ⊢
      by_cases inside : index < (String.utf8EncodeChar char).length
      · rcases encode_cases char with ⟨only, encoded, ascii⟩ | ⟨first, second, more, encoded, lead, tails⟩
        · rw [encoded, List.length_singleton] at inside
          obtain rfl : index = 0 := by omega
          rw [encoded, List.singleton_append, List.getElem?_cons_zero, Option.some.injEq] at here
          subst here
          rw [encoded, decide_eq_true ascii]
          exact (isBoundary_append [only] _ 0).trans (isBoundary_encode rest)
        · rw [encoded] at here cut inside ⊢
          cases index with
          | zero =>
              rw [List.cons_append, List.getElem?_cons_zero, Option.some.injEq] at here
              subst here
              have long : ¬ first.toNat < 0x80 := by omega
              simp [isBoundary, tails second (by simp), long]
          | succ position =>
              -- A continuation byte is no place to start from.
              rw [List.getElem?_append_left inside, List.getElem?_cons_succ] at here
              have continued := tails byte (List.mem_of_getElem? here)
              simp only [isBoundary, List.getElem?_append_left inside, List.getElem?_cons_succ,
                here, continued] at cut
              exact absurd cut (by decide)
      · obtain ⟨later, rfl⟩ := Nat.exists_eq_add_of_le (Nat.le_of_not_lt inside)
        rw [List.getElem?_append_right (Nat.le_add_right _ _), Nat.add_sub_cancel_left] at here
        rw [isBoundary_append] at cut
        rw [Nat.add_assoc, isBoundary_append]
        exact ih here cut

theorem isBoundary_of_ascii {chars : List Char} {index : Nat} {byte : UInt8}
    (here : (chars.flatMap String.utf8EncodeChar)[index]? = some byte) (ascii : byte.toNat < 0x80) :
    isBoundary (chars.flatMap String.utf8EncodeChar) index = true := by
  have plain : isContinuation byte = false := by
    rw [Bool.eq_false_iff, Ne, isContinuation_iff]
    omega
  simp [isBoundary, here, plain]

end Utf8
