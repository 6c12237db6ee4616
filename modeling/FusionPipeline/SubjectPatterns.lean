import FusionPipeline.Meta
import FusionPipeline.Subject

/-! Which tenants' dead letters a subject pattern captures. -/

namespace FusionPipeline.Subject

section Tokens

structure IsLiteralToken (token : String) : Prop where
  nonempty : token ≠ ""
  literal : ∀ c ∈ token.toList, c ∉ ['.', '*', '>']
  graphic : ∀ c ∈ token.toList, 0x21 ≤ c.toNat ∧ c.toNat ≤ 0x7E ∧
    c.isWhitespace = false ∧ isControl c = false

def escaped (tenant : String) : List Char :=
  (tenant.toList.flatMap String.utf8EncodeChar).flatMap escapeByte

theorem upperHexDigit_injective {digit other : Nat} (digitBound : digit < 16)
    (otherBound : other < 16) (same : upperHexDigit digit = upperHexDigit other) :
    digit = other := by
  have all : ∀ digit < 16, ∀ other < 16,
      upperHexDigit digit = upperHexDigit other → digit = other := by decide
  exact all digit digitBound other otherBound same

theorem escapeByte_graphic (byte : UInt8) : ∀ c ∈ escapeByte byte,
    c ∉ ['.', '*', '>'] ∧ 0x21 ≤ c.toNat ∧ c.toNat ≤ 0x7E ∧
      c.isWhitespace = false ∧ isControl c = false := by
  have all : ∀ value < 256, ∀ c ∈ escapeByte (UInt8.ofNat value),
      c ∉ ['.', '*', '>'] ∧ 0x21 ≤ c.toNat ∧ c.toNat ≤ 0x7E ∧
        c.isWhitespace = false ∧ isControl c = false := by decide +kernel
  have found := all byte.toNat (UInt8.toNat_lt byte)
  rwa [UInt8.ofNat_toNat] at found

theorem escapeByte_ne_nil (byte : UInt8) : escapeByte byte ≠ [] := by
  simp only [escapeByte]
  split <;> simp

/-- A byte written as itself is no percent sign, so three letters are never read as one. -/
theorem escapeByte_start {first second : UInt8} {rest others : List Char}
    (same : escapeByte first ++ rest = escapeByte second ++ others) : first = second := by
  have firstBound := UInt8.toNat_lt first
  have secondBound := UInt8.toNat_lt second
  have plain {byte : UInt8} (itself : isAsciiGraphic byte ∧ Char.ofNat byte.toNat ∉ reserved) :
      Char.ofNat byte.toNat ≠ '%' := by
    intro percent
    exact itself.2 (percent ▸ by decide)
  have letter : ∀ value < 256, (Char.ofNat value).toNat = value := by
    decide +kernel
  simp only [escapeByte] at same
  split at same <;> split at same
  next itself itselfToo =>
    have letters := (List.cons.inj same).1
    apply UInt8.toNat_inj.mp
    rw [← letter _ firstBound, ← letter _ secondBound, letters]
  next itself _ => exact absurd (List.cons.inj same).1 (plain itself)
  next _ itselfToo => exact absurd (List.cons.inj same).1.symm (plain itselfToo)
  next =>
    have letters := (List.cons.inj same).2
    have high := upperHexDigit_injective (by omega) (by omega) (List.cons.inj letters).1
    have low := upperHexDigit_injective (by omega) (by omega)
      (List.cons.inj (List.cons.inj letters).2).1
    apply UInt8.toNat_inj.mp
    omega

theorem escaped_injective : Function.Injective escaped := by
  intro tenant other same
  have bytes := Text.flatMap_injective escapeByte_ne_nil
    (fun first second rest others => escapeByte_start) same
  apply String.toByteArray_inj.mp
  rw [← String.utf8Encode_toList, ← String.utf8Encode_toList, List.utf8Encode, List.utf8Encode,
    bytes]

theorem escaped_graphic (tenant : String) : ∀ c ∈ escaped tenant,
    c ∉ ['.', '*', '>'] ∧ 0x21 ≤ c.toNat ∧ c.toNat ≤ 0x7E ∧
      c.isWhitespace = false ∧ isControl c = false := by
  intro c member
  obtain ⟨byte, _, written⟩ := List.mem_flatMap.mp member
  exact escapeByte_graphic byte c written

end Tokens

section Patterns

variable {pattern subject : List (List Char)} {token other : List Char}

theorem capturesTokens_last : capturesTokens [['>']] (subject ++ [token]) = true := by
  cases subject <;> rfl

theorem capturesTokens_cons {want : List Char} (inner : ¬ (want = ['>'] ∧ pattern = [])) :
    capturesTokens (want :: pattern) (token :: subject) = true ↔
      (want = ['*'] ∨ want = token) ∧ capturesTokens pattern subject = true := by
  rw [capturesTokens, if_neg inner]
  by_cases takes : want = ['*'] ∨ want = token <;> simp [takes]

theorem capturesTokens_single {want : List Char} (inner : ¬ (want = ['>'] ∧ pattern = [])) :
    capturesTokens (want :: pattern) [token] = true ↔
      (want = ['*'] ∨ want = token) ∧ capturesTokens pattern [] = true :=
  capturesTokens_cons inner

theorem capturesTokens_of_probe (probe : capturesTokens pattern (subject ++ [['*']]) = true) :
    capturesTokens pattern (subject ++ [token]) = true := by
  induction pattern generalizing subject with
  | nil => cases subject <;> cases probe
  | cons want pattern ih =>
      by_cases closing : want = ['>'] ∧ pattern = []
      · obtain ⟨rfl, rfl⟩ := closing
        exact capturesTokens_last
      · cases subject with
        | nil =>
            rw [List.nil_append, capturesTokens_single closing] at probe ⊢
            exact ⟨.inl (or_self_iff.mp probe.1), probe.2⟩
        | cons first subject =>
            rw [List.cons_append, capturesTokens_cons closing] at probe ⊢
            exact ⟨probe.1, ih probe.2⟩

theorem capturesTokens_probe (differ : token ≠ other)
    (captured : capturesTokens pattern (subject ++ [token]) = true)
    (capturedToo : capturesTokens pattern (subject ++ [other]) = true) :
    capturesTokens pattern (subject ++ [['*']]) = true := by
  induction pattern generalizing subject with
  | nil => cases subject <;> cases captured
  | cons want pattern ih =>
      by_cases closing : want = ['>'] ∧ pattern = []
      · obtain ⟨rfl, rfl⟩ := closing
        exact capturesTokens_last
      · cases subject with
        | nil =>
            rw [List.nil_append, capturesTokens_single closing] at captured capturedToo ⊢
            refine ⟨.inl ?_, captured.2⟩
            rcases captured.1 with wildcard | itself
            · exact wildcard
            · rcases capturedToo.1 with wildcard | itselfToo
              · exact wildcard
              · exact absurd (itself.symm.trans itselfToo) differ
        | cons first subject =>
            rw [List.cons_append, capturesTokens_cons closing] at captured capturedToo ⊢
            exact ⟨captured.1, ih captured.2 capturedToo.2⟩

end Patterns

theorem toList_deadLetter (dlqPrefix tenant : String) :
    (deadLetter dlqPrefix tenant).toList = dlqPrefix.toList ++ '.' :: escaped tenant := by
  have dot : ".".toList = ['.'] := by decide
  rw [deadLetter, String.toList_append, String.toList_append, dot, String.toList_ofList,
    List.append_assoc, List.singleton_append, escaped]

theorem deadLetter_tokens (dlqPrefix tenant : String) :
    (deadLetter dlqPrefix tenant).toList.splitOn '.' =
      dlqPrefix.toList.splitOn '.' ++ [escaped tenant] := by
  have literal : '.' ∉ escaped tenant :=
    fun member => (escaped_graphic tenant '.' member).1 (by decide)
  rw [toList_deadLetter, List.splitOn_append_cons_self, List.splitOn_eq_singleton literal]

theorem probe_tokens (dlqPrefix : String) :
    (dlqPrefix ++ ".*").toList.splitOn '.' = dlqPrefix.toList.splitOn '.' ++ [['*']] := by
  rw [String.toList_append]
  exact List.splitOn_append_cons_self _ _

theorem deadLetter_literal {dlqPrefix tenant : String} (valid : isValidTenant tenant = true) :
    ∃ token, deadLetter dlqPrefix tenant = dlqPrefix ++ "." ++ token ∧ IsLiteralToken token := by
  refine ⟨String.ofList (escaped tenant), rfl, ⟨?_, ?_, ?_⟩⟩
  · intro empty
    have nothing : escaped tenant = escaped "" := String.ofList_injective empty
    rw [escaped_injective nothing] at valid
    cases valid
  · intro c member
    rw [String.toList_ofList] at member
    exact (escaped_graphic tenant c member).1
  · intro c member
    rw [String.toList_ofList] at member
    exact (escaped_graphic tenant c member).2

theorem deadLetter_injective (dlqPrefix : String) : Function.Injective (deadLetter dlqPrefix) := by
  intro tenant other same
  have texts := congrArg String.toList same
  rw [toList_deadLetter, toList_deadLetter, List.append_cancel_left_eq] at texts
  exact escaped_injective (List.cons.inj texts).2

theorem coversEveryTenant_iff (pattern dlqPrefix : String) :
    coversEveryTenant pattern dlqPrefix = true ↔
      ∀ tenant, isValidTenant tenant = true →
        captures pattern (deadLetter dlqPrefix tenant) = true := by
  simp only [coversEveryTenant, captures, deadLetter_tokens, probe_tokens]
  constructor
  · intro probe tenant _
    exact capturesTokens_of_probe probe
  · intro covered
    have differ : escaped "a" ≠ escaped "b" := by
      intro same
      exact absurd (escaped_injective same) (by decide)
    exact capturesTokens_probe differ (covered "a" (by decide)) (covered "b" (by decide))

/-- Dead letters of a tenant go to one literal token under the prefix, no two tenants share a
subject, and the probe answers for all of them. -/
theorem dead_letter_subjects (dlqPrefix : String) :
    (∀ tenant, isValidTenant tenant = true → ∃ token,
      deadLetter dlqPrefix tenant = dlqPrefix ++ "." ++ token ∧ IsLiteralToken token) ∧
    (∀ tenant other, tenant ≠ other → deadLetter dlqPrefix tenant ≠ deadLetter dlqPrefix other) ∧
    ∀ pattern, coversEveryTenant pattern dlqPrefix = true ↔
      ∀ tenant, isValidTenant tenant = true →
        captures pattern (deadLetter dlqPrefix tenant) = true :=
  ⟨fun _ valid => deadLetter_literal valid,
    fun _ _ differ => (deadLetter_injective dlqPrefix).ne differ,
    fun pattern => coversEveryTenant_iff pattern dlqPrefix⟩

end FusionPipeline.Subject
