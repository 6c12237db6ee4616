import FusionPipeline.LuaRounds

/-! Whole scans: what every scan keeps, and one lexeme of Lua after the other. -/

namespace FusionPipeline.Lua

open Regex (b Panic)
open Loop (lt_of_drop drop_append)

theorem scan_lowers (bytes : List UInt8) :
    Loop.Lowers (fun state : ScanState => state.i < bytes.length) (scanStep bytes)
      fun state => bytes.length - state.i := by
  intro state next going stepped
  have inside : state.i < bytes.length := by simpa using going
  have onward := (scanStep_round inside stepped).onward
  show bytes.length - next.i < bytes.length - state.i
  omega

theorem scan_stops (bytes : List UInt8) (state : ScanState)
    (done : bytes.length - state.i = 0) : decide (state.i < bytes.length) = false := by
  rw [decide_eq_false_iff_not]
  omega

theorem scan_done {bytes : List UInt8} {state : ScanState} (past : bytes.length ≤ state.i) :
    scan bytes state = .ok state := by
  apply Loop.run_done
  rw [decide_eq_false_iff_not]
  omega

theorem scan_step {bytes : List UInt8} {state next : ScanState} (inside : state.i < bytes.length)
    (stepped : scanStep bytes state = .ok next) : scan bytes state = scan bytes next := by
  have unfolded := Loop.run_unfold (scan_lowers bytes) (scan_stops bytes)
    (show bytes.length - state.i ≤ bytes.length by omega)
  rw [if_pos (by simpa using inside), stepped] at unfolded
  exact unfolded

/-- The scan counts a newline byte as a line, and reports names in source order. -/
structure Ordered (bytes : List UInt8) (state : ScanState) : Prop where
  line : state.line = (bytes.take state.i).count (b '\n') + 1
  lines : ∀ name ∈ state.names, name.line = (bytes.take name.start).count (b '\n') + 1
  behind : ∀ name ∈ state.names, name.start < state.i
  order : state.names.Pairwise fun earlier later => earlier.start < later.start

theorem Ordered.round {bytes : List UInt8} {state next : ScanState} (ordered : Ordered bytes state)
    (round : Round bytes state next) : Ordered bytes next := by
  obtain ⟨onward, counted, reported⟩ := round
  have line : next.line = (bytes.take next.i).count (b '\n') + 1 := by
    have split_ : bytes.take next.i =
        bytes.take state.i ++ (bytes.drop state.i).take (next.i - state.i) := by
      rw [← List.take_add, Nat.add_sub_cancel' (Nat.le_of_lt onward)]
    rw [counted, ordered.line, split_, List.count_append]
    omega
  rcases reported with same | ⟨text, more⟩
  · constructor
    · exact line
    · rw [same]
      exact ordered.lines
    · rw [same]
      intro name member
      have before := ordered.behind name member
      omega
    · rw [same]
      exact ordered.order
  · constructor
    · exact line
    · rw [more]
      intro name member
      rcases List.mem_append.mp member with earlier | here
      · exact ordered.lines name earlier
      · rw [List.mem_singleton.mp here]
        exact ordered.line
    · rw [more]
      intro name member
      rcases List.mem_append.mp member with earlier | here
      · have before := ordered.behind name earlier
        omega
      · rw [List.mem_singleton.mp here]
        exact onward
    · rw [more, List.pairwise_append]
      refine ⟨ordered.order, List.pairwise_singleton _ _, ?_⟩
      intro earlier member later here
      rw [List.mem_singleton.mp here]
      exact ordered.behind earlier member

theorem Ordered.scan {bytes : List UInt8} {state final : ScanState} (ordered : Ordered bytes state)
    (ran : scan bytes state = .ok final) : Ordered bytes final := by
  apply Loop.run_invariant _ ordered ran
  intro state next ordered going stepped
  exact ordered.round (scanStep_round (by simpa using going) stepped)

theorem scan_adds {bytes : List UInt8} {state final : ScanState}
    (ran : scan bytes state = .ok final) :
    ∃ later, final.names = state.names ++ later ∧ ∀ name ∈ later, state.i ≤ name.start := by
  have kept := @Loop.run_invariant ScanState Panic (fun state => state.i < bytes.length)
    (scanStep bytes) (fun now => state.i ≤ now.i ∧ ∃ later, now.names = state.names ++ later ∧
      ∀ name ∈ later, state.i ≤ name.start) (by
    rintro now next ⟨ahead, later, names, starts⟩ going stepped
    obtain ⟨onward, _, reported⟩ := scanStep_round (by simpa using going) stepped
    refine ⟨by omega, ?_⟩
    rcases reported with same | ⟨text, more⟩
    · exact ⟨later, by rw [same, names], starts⟩
    · refine ⟨later ++ [⟨text, now.i, now.line⟩], by rw [more, names, List.append_assoc], ?_⟩
      intro name member
      rcases List.mem_append.mp member with earlier | here
      · exact starts name earlier
      · rw [List.mem_singleton.mp here]
        exact ahead) state final bytes.length ⟨Nat.le_refl _, [], by simp, by simp⟩ ran
  exact kept.2

def Lexeme.leaves (lexeme : Lexeme) (previous : Option UInt8) : Option UInt8 :=
  match lexeme.kind with
  | .comment => previous
  | .blank => if lexeme.text = [verticalTab] then some verticalTab else previous
  | .name => some (b 'a')
  | .numeral => some (b '0')
  | .string => if lexeme.text.head? = some (b '[') then some (b ']') else lexeme.text.head?
  | .symbol => lexeme.text.getLast?

def Lexeme.found (lexeme : Lexeme) (previous : Option UInt8) (i line : Nat) (rest : List UInt8) :
    List FreeName :=
  if lexeme.kind = .name ∧ previous ≠ some (b '.') ∧ previous ≠ some (b ':') ∧
      assigned rest = false then
    [⟨lexeme.text, i, line⟩]
  else []

theorem takeWhile_exact {part : UInt8 → Bool} {text rest : List UInt8}
    (all : ∀ byte ∈ text, part byte = true)
    (ends : ∀ byte, rest.head? = some byte → part byte = false) :
    (text ++ rest).takeWhile part = text := by
  rw [List.takeWhile_append_of_pos all]
  cases rest with
  | nil => simp
  | cons byte after => simp [ends byte rfl]

theorem startsName_other {byte : UInt8} (starts : startsName byte = true) :
    isAsciiWhitespace byte = false ∧ byte ≠ b '-' ∧ byte ≠ b '"' ∧ byte ≠ b '\'' ∧ byte ≠ b '[' ∧
      isAsciiDigit byte = false ∧ isNamePart byte = true ∧ byte.toNat < 0x80 := by
  have part : isNamePart byte = true := by
    simp only [startsName, Bool.or_eq_true] at starts
    simp only [isNamePart, isAsciiAlphanumeric, Bool.or_eq_true]
    rcases starts with letter | underscore
    · exact Or.inl (Or.inl letter)
    · exact Or.inr underscore
  have range : 65 ≤ byte.toNat ∧ byte.toNat ≤ 122 ∧ byte.toNat ≠ 91 := by
    simp only [startsName, isAsciiAlphabetic, Bool.or_eq_true, Bool.and_eq_true,
      decide_eq_true_eq, beq_iff_eq, UInt8.le_iff_toNat_le] at starts
    have bounds : (b 'a').toNat = 97 ∧ (b 'z').toNat = 122 ∧ (b 'A').toNat = 65 ∧
      (b 'Z').toNat = 90 := by decide
    rcases starts with (lower | upper) | rfl
    · omega
    · omega
    · decide
  have apart {other : UInt8} (outside : other.toNat < 65 ∨ other.toNat = 91) : byte ≠ other := by
    rintro rfl
    omega
  have blank : isAsciiWhitespace byte = false := by
    simp only [isAsciiWhitespace, Bool.or_eq_false_iff, beq_eq_false_iff_ne]
    exact ⟨⟨⟨⟨apart (by decide), apart (by decide)⟩, apart (by decide)⟩, apart (by decide)⟩,
      apart (by decide)⟩
  have digit : isAsciiDigit byte = false := by
    rw [Bool.eq_false_iff, isAsciiDigit, Ne, Bool.and_eq_true, decide_eq_true_eq,
      decide_eq_true_eq]
    rintro ⟨_, upper⟩
    rw [UInt8.le_iff_toNat_le, show (b '9').toNat = 57 from rfl] at upper
    omega
  exact ⟨blank, apart (by decide), apart (by decide), apart (by decide), apart (by decide), digit,
    part, by omega⟩

section Steps

variable {bytes after : List UInt8} {state : ScanState} {byte : UInt8}

theorem step_other (here : bytes.drop state.i = byte :: after)
    (notBlank : isAsciiWhitespace byte = false) (notComment : byte = b '-' → after[0]? ≠ some (b '-'))
    (notQuote : byte ≠ b '"' ∧ byte ≠ b '\'')
    (notLong : byte = b '[' → longBracket (byte :: after) = none)
    (notDigit : isAsciiDigit byte = false) (notName : startsName byte = false) :
    scanStep bytes state = .ok { state with previous := some byte, i := state.i + 1 } := by
  have notNewline : byte ≠ b '\n' := by
    rintro rfl
    exact absurd notBlank (by decide)
  have noLong : (if byte = b '[' then longBracket (byte :: after) else none) = none := by
    split
    next bracket => exact notLong bracket
    next => rfl
  have notLetter : ¬ (isAsciiAlphabetic byte = true ∨ byte = b '_') := by
    simpa [startsName] using notName
  rw [scanStep, here]
  dsimp only
  rw [if_neg notNewline, if_neg (by rw [notBlank]; decide), if_neg (fun both => notComment both.1 both.2),
    if_neg (by rintro (same | same); exacts [notQuote.1 same, notQuote.2 same]), noLong]
  dsimp only
  rw [if_neg (by rw [notDigit]; decide), if_neg notLetter]

theorem step_blank (here : bytes.drop state.i = byte :: after) (blank : isBlank byte = true) :
    scanStep bytes state = .ok
      { names := state.names, i := state.i + 1
        line := state.line + if byte = b '\n' then 1 else 0
        previous := if [byte] = [verticalTab] then some verticalTab else state.previous } := by
  by_cases tab : byte = verticalTab
  · subst tab
    have notDash : verticalTab ≠ b '-' := by decide
    have notBracket : verticalTab ≠ b '[' := by decide
    rw [step_other here (by decide) (fun same => absurd same notDash) (by decide)
      (fun same => absurd same notBracket) (by decide) (by decide)]
    rfl
  · have space : isAsciiWhitespace byte = true := by
      simpa [isBlank, tab] using blank
    have kept : ¬ [byte] = [verticalTab] := fun same => tab (List.cons.inj same).1
    rw [if_neg kept, scanStep, here]
    dsimp only
    by_cases newline : byte = b '\n'
    · rw [if_pos newline, if_pos newline]
    · rw [if_neg newline, if_neg newline, if_pos space]
      rfl

theorem step_short (here : bytes.drop state.i = b '-' :: b '-' :: after)
    (short : longBracket after = none) :
    scanStep bytes state = .ok { state with
      i := state.i + ((b '-' :: b '-' :: after).takeWhile (· != b '\n')).length } := by
  have dash : ¬ b '-' = b '\n' := by decide
  have notBlank : ¬ isAsciiWhitespace (b '-') = true := by decide
  rw [scanStep, here]
  dsimp only
  rw [if_neg dash, if_neg notBlank, if_pos ⟨rfl, rfl⟩, List.drop_succ_cons, List.drop_zero, short]

theorem step_long (here : bytes.drop state.i = b '-' :: b '-' :: after) {length newlines : Nat}
    (long : longBracket after = some (length, newlines)) :
    scanStep bytes state = .ok { state with
      line := state.line + newlines, i := state.i + 2 + length } := by
  have dash : ¬ b '-' = b '\n' := by decide
  have notBlank : ¬ isAsciiWhitespace (b '-') = true := by decide
  rw [scanStep, here]
  dsimp only
  rw [if_neg dash, if_neg notBlank, if_pos ⟨rfl, rfl⟩, List.drop_succ_cons, List.drop_zero, long]

theorem step_bracket (here : bytes.drop state.i = b '[' :: after) {length newlines : Nat}
    (long : longBracket (b '[' :: after) = some (length, newlines)) :
    scanStep bytes state = .ok { state with
      line := state.line + newlines, i := state.i + length, previous := some (b ']') } := by
  have notNewline : ¬ b '[' = b '\n' := by decide
  have notBlank : ¬ isAsciiWhitespace (b '[') = true := by decide
  have notQuote : ¬ (b '[' = b '"' ∨ b '[' = b '\'') := by decide
  have notDash : ¬ b '[' = b '-' := by decide
  rw [scanStep, here]
  dsimp only
  rw [if_neg notNewline, if_neg notBlank, if_neg (fun both => notDash both.1), if_neg notQuote,
    if_pos rfl, long]

theorem step_quote (here : bytes.drop state.i = byte :: after)
    (quote : byte = b '"' ∨ byte = b '\'') :
    scanStep bytes state = .ok { state with
      line := state.line + (quotedLength byte after).2
      i := state.i + 1 + (quotedLength byte after).1 + 1, previous := some byte } := by
  have notNewline : ¬ byte = b '\n' := by
    rcases quote with rfl | rfl <;> decide
  have notBlank : ¬ isAsciiWhitespace byte = true := by
    rcases quote with rfl | rfl <;> decide
  have notDash : ¬ byte = b '-' := by
    rcases quote with rfl | rfl <;> decide
  rw [scanStep, here]
  dsimp only
  rw [if_neg notNewline, if_neg notBlank, if_neg (fun both => notDash both.1), if_pos quote]

theorem step_digit (here : bytes.drop state.i = byte :: after) (digit : isAsciiDigit byte = true) :
    scanStep bytes state = .ok { state with
      i := state.i + ((byte :: after).takeWhile isNumberPart).length, previous := some (b '0') } := by
  have other {char : UInt8} (no : isAsciiDigit char = false) : ¬ byte = char := by
    rintro rfl
    rw [digit] at no
    cases no
  have notBlank : ¬ isAsciiWhitespace byte = true := by
    simp only [isAsciiWhitespace, Bool.or_eq_true, beq_iff_eq]
    rintro ((((same | same) | same) | same) | same) <;> exact other (by decide) same
  rw [scanStep, here]
  dsimp only
  rw [if_neg (other (by decide)), if_neg notBlank, if_neg (fun both => other (by decide) both.1),
    if_neg (by rintro (same | same) <;> exact other (by decide) same), if_neg (other (by decide))]
  dsimp only
  rw [if_pos digit]

theorem step_name (here : bytes.drop state.i = byte :: after) (starts : startsName byte = true) :
    scanStep bytes state = scanName bytes state := by
  obtain ⟨notBlank, notDash, notDouble, notSingle, notBracket, notDigit, _, _⟩ :=
    startsName_other starts
  have notNewline : ¬ byte = b '\n' := by
    rintro rfl
    exact absurd notBlank (by decide)
  have letter : isAsciiAlphabetic byte = true ∨ byte = b '_' := by
    simpa [startsName] using starts
  rw [scanStep, here]
  dsimp only
  rw [if_neg notNewline, if_neg (by rw [notBlank]; decide), if_neg (fun both => notDash both.1),
    if_neg (by rintro (same | same); exacts [notDouble same, notSingle same]), if_neg notBracket]
  dsimp only
  rw [if_neg (by rw [notDigit]; decide), if_pos letter]

end Steps

end FusionPipeline.Lua
