import FusionPipeline.ConditionLexing
import FusionPipeline.ConditionGrammar

/-! The operators and literals of conditions as tokens, and a path compared with a literal. -/

namespace FusionPipeline

open Regex (b)
open Utf8 (encode size)

variable {Float : Type} {parseFloat : List Char → Option Float}

def CompareOp.symbol : CompareOp → List Char
  | eq => ['=', '=']
  | ne => ['!', '=']
  | lt => ['<']
  | gt => ['>']
  | le => ['<', '=']
  | ge => ['>', '=']
  | match_ => ['=', '~']
  | notMatch => ['!', '~']

theorem next_byte {first second : Char} (ascii : first.toNat < 0x80 ∧ second.toNat < 0x80)
    (before rest : List Char) :
    (encode (before ++ first :: second :: rest))[size before + 1]? = some second.toUInt8 := by
  have one : size before + 1 = size (before ++ [first]) := by
    rw [Utf8.size_append, Utf8.size_cons, Utf8.utf8Size_ascii ascii.1]
    rfl
  have cut : before ++ first :: second :: rest = (before ++ [first]) ++ second :: rest := by simp
  rw [cut, one, byte_at, Utf8.encode_cons_ascii ascii.2, List.head?_cons]

theorem lexToken_op {expr : List Char} {byte : UInt8} {start : Nat} {op : CompareOp} {length : Nat}
    (starts : byte = b '=' ∨ byte = b '!' ∨ byte = b '<' ∨ byte = b '>')
    (isOp : opAt byte (encode expr)[start + 1]? = some (op, length)) :
    lexToken parseFloat expr byte start = .ok (.op op, start + length) := by
  have notParen : byte ≠ b '(' ∧ byte ≠ b ')' := by
    rcases starts with rfl | rfl | rfl | rfl <;> decide
  rw [lexToken, if_neg notParen.1, if_neg notParen.2, if_pos starts, isOp]

theorem scans_op (op : CompareOp) (rest : List Char) :
    Scans parseFloat op.symbol (.op op) (' ' :: rest) := by
  have two {first second : Char} (ascii : first.toNat < 0x80 ∧ second.toNat < 0x80)
      (notSpace : first ≠ ' ' ∧ first ≠ '\t' ∧ first ≠ '\n' ∧ first ≠ '\r')
      (starts : first.toUInt8 = b '=' ∨ first.toUInt8 = b '!' ∨ first.toUInt8 = b '<' ∨
        first.toUInt8 = b '>')
      (isOp : opAt first.toUInt8 (some second.toUInt8) = some (op, 2)) :
      Scans parseFloat [first, second] (.op op) (' ' :: rest) := by
    refine scans_of_lexToken ascii.1 notSpace ?_
    intro before
    rw [lexToken_op starts]
    · rw [Utf8.size_append, Utf8.size_cons, Utf8.size_cons, Utf8.utf8Size_ascii ascii.1,
        Utf8.utf8Size_ascii ascii.2, Utf8.size_nil]
    · rw [List.cons_append, List.cons_append, next_byte ascii]
      exact isOp
  have one {first : Char} (ascii : first.toNat < 0x80)
      (notSpace : first ≠ ' ' ∧ first ≠ '\t' ∧ first ≠ '\n' ∧ first ≠ '\r')
      (starts : first.toUInt8 = b '=' ∨ first.toUInt8 = b '!' ∨ first.toUInt8 = b '<' ∨
        first.toUInt8 = b '>')
      (isOp : opAt first.toUInt8 (some ' '.toUInt8) = some (op, 1)) :
      Scans parseFloat [first] (.op op) (' ' :: rest) := by
    refine scans_of_lexToken ascii notSpace ?_
    intro before
    rw [lexToken_op starts]
    · rw [Utf8.size_append, Utf8.size_cons, Utf8.utf8Size_ascii ascii, Utf8.size_nil]
    · rw [List.singleton_append, next_byte ⟨ascii, by decide⟩]
      exact isOp
  cases op with
  | eq => exact two (by decide) (by decide) (by decide) (by decide)
  | ne => exact two (by decide) (by decide) (by decide) (by decide)
  | lt => exact one (by decide) (by decide) (by decide) (by decide)
  | gt => exact one (by decide) (by decide) (by decide) (by decide)
  | le => exact two (by decide) (by decide) (by decide) (by decide)
  | ge => exact two (by decide) (by decide) (by decide) (by decide)
  | match_ => exact two (by decide) (by decide) (by decide) (by decide)
  | notMatch => exact two (by decide) (by decide) (by decide) (by decide)

theorem scans_paren {paren : Char} {tok : Tok Float}
    (isParen : (paren = '(' ∧ tok = .lParen) ∨ (paren = ')' ∧ tok = .rParen)) (after : List Char) :
    Scans parseFloat [paren] tok after := by
  rcases isParen with ⟨rfl, rfl⟩ | ⟨rfl, rfl⟩
  · refine scans_of_lexToken (by decide) (by decide) ?_
    intro before
    rw [lexToken, if_pos rfl, Utf8.size_append]
    rfl
  · refine scans_of_lexToken (by decide) (by decide) ?_
    intro before
    rw [lexToken, if_neg (by decide), if_pos rfl, Utf8.size_append]
    rfl

def EndsNumber (after : List Char) : Prop :=
  ∀ byte, (encode after).head? = some byte → isNumberByte byte = false

theorem digitsValue_toDigits (value : Nat) : digitsValue (Nat.toDigits 10 value) = some value := by
  have digits : (Nat.toDigits 10 value).all Char.isDigit = true := by
    rw [List.all_eq_true]
    exact fun char member => Nat.isDigit_of_mem_toDigits (by decide) (by decide) member
  have named : (Nat.toDigits 10 value).isEmpty = false := by
    rw [List.isEmpty_eq_false_iff]
    exact Nat.toDigits_ne_nil
  have same := @Nat.ofDigitChars_ten_toDigits value
  rw [Nat.ofDigitChars_eq_foldl] at same
  rw [digitsValue, named, digits, if_neg (by decide)]
  simpa only [Nat.mul_comm] using congrArg some same

theorem parseI128_repr {value : Int} (range : -(2 ^ 127) ≤ value ∧ value < 2 ^ 127) :
    parseI128 value.repr.toList = some value := by
  have inside : (some value).filter (fun value => -(2 ^ 127) ≤ value && value < 2 ^ 127) =
      some value := by
    rw [Option.filter_some, if_pos]
    rw [Bool.and_eq_true, decide_eq_true_eq, decide_eq_true_eq]
    exact range
  rw [← inside]
  cases value with
  | ofNat count =>
      have noSign {sign : Char} (notDigit : sign.isDigit = false) (digits : List Char) :
          Nat.toDigits 10 count ≠ sign :: digits := by
        intro same
        have member : sign ∈ Nat.toDigits 10 count := by
          rw [same]
          exact List.mem_cons_self
        rw [Nat.isDigit_of_mem_toDigits (by decide) (by decide) member] at notDigit
        cases notDigit
      rw [Int.repr, Nat.toList_repr, parseI128]
      · rw [digitsValue_toDigits]
        rfl
      · exact noSign (by decide)
      · exact noSign (by decide)
  | negSucc count =>
      have text : (Int.negSucc count).repr.toList = '-' :: Nat.toDigits 10 (count + 1) := by
        rw [Int.repr, String.toList_append, Nat.toList_repr]
        rfl
      rw [text, parseI128, digitsValue_toDigits]
      rfl

theorem isDigit_ascii {char : Char} (digit : char.isDigit = true) :
    char.toNat < 0x80 ∧ isDigitByte char.toUInt8 = true := by
  simp only [Char.isDigit, Bool.and_eq_true, decide_eq_true_eq, ge_iff_le,
    UInt32.le_iff_toNat_le] at digit
  have ascii : char.toNat < 0x80 := Nat.lt_of_le_of_lt digit.2 (by decide)
  have value := Utf8.toNat_toUInt8 ascii
  refine ⟨ascii, ?_⟩
  simp only [isDigitByte, Bool.and_eq_true, decide_eq_true_eq, UInt8.le_iff_toNat_le, value]
  exact digit

theorem lexToken_number {expr : List Char} {byte : UInt8} {start : Nat}
    (starts : byte = b '-' ∨ isDigitByte byte = true) :
    lexToken parseFloat expr byte start = lexNumber parseFloat expr start := by
  have differs {other : UInt8} (not_ : other ≠ b '-' ∧ isDigitByte other = false) : byte ≠ other := by
    rintro rfl
    rcases starts with same | digit
    · exact not_.1 same
    · rw [digit] at not_
      cases not_.2
  rw [lexToken, if_neg (differs (by decide)), if_neg (differs (by decide)), if_neg, if_neg,
    if_neg (differs (by decide)), if_pos starts]
  · rintro (same | same) <;> exact differs (by decide) same
  · rintro (same | same | same | same) <;> exact differs (by decide) same

theorem scans_number {char : Char} {digits after : List Char} {value : Int}
    (starts : char = '-' ∨ char.isDigit = true) (allDigits : ∀ digit ∈ digits, digit.isDigit = true)
    (isValue : parseI128 (char :: digits) = some value) (ends : EndsNumber after) :
    Scans parseFloat (char :: digits) (.int value) after := by
  have first : char.toNat < 0x80 ∧ (char.toUInt8 = b '-' ∨ isDigitByte char.toUInt8 = true) := by
    rcases starts with rfl | digit
    · exact ⟨by decide, .inl rfl⟩
    · exact ⟨(isDigit_ascii digit).1, .inr (isDigit_ascii digit).2⟩
  have notSpace : char ≠ ' ' ∧ char ≠ '\t' ∧ char ≠ '\n' ∧ char ≠ '\r' := by
    refine ⟨?_, ?_, ?_, ?_⟩ <;> (rintro rfl; exact absurd starts (by decide))
  refine scans_of_lexToken first.1 notSpace ?_
  intro before
  have number (digit : Char) (member : digit ∈ digits) :
      digit.toNat < 0x80 ∧ isNumberByte digit.toUInt8 = true := by
    obtain ⟨ascii, isDigit⟩ := isDigit_ascii (allDigits digit member)
    rw [isNumberByte, isDigit]
    exact ⟨ascii, rfl⟩
  have one : size before + 1 = size (before ++ [char]) := by
    rw [Utf8.size_append, Utf8.size_cons, Utf8.utf8Size_ascii first.1]
    rfl
  have cut : before ++ (char :: digits ++ after) = (before ++ [char]) ++ (digits ++ after) := by simp
  have text := @slice_between ConditionError before (char :: digits) after
  rw [List.append_assoc, ← Utf8.size_append] at text
  have stop : size (before ++ [char]) + (encode digits).length = size (before ++ char :: digits) := by
    rw [show before ++ char :: digits = (before ++ [char]) ++ digits by simp,
      Utf8.size_append (before ++ [char])]
    rfl
  rw [lexToken_number first.2, lexNumber, one, cut, Utf8.drop_encode, takeWhile_encode number ends,
    ← cut, stop, text, Fallible.ok_bind, isValue]
  rfl

theorem scans_int {value : Int} {after : List Char}
    (range : -(2 ^ 127) ≤ value ∧ value < 2 ^ 127) (ends : EndsNumber after) :
    Scans parseFloat value.repr.toList (.int value) after := by
  have isValue := parseI128_repr range
  have digits (count : Nat) : ∀ digit ∈ Nat.toDigits 10 count, digit.isDigit = true :=
    fun digit member => Nat.isDigit_of_mem_toDigits (by decide) (by decide) member
  cases value with
  | ofNat count =>
      rw [Int.repr, Nat.toList_repr] at isValue ⊢
      have all := digits count
      obtain ⟨char, rest, same⟩ := List.exists_cons_of_ne_nil (@Nat.toDigits_ne_nil count 10)
      rw [same] at isValue all ⊢
      obtain ⟨isDigit, others⟩ := List.forall_mem_cons.mp all
      exact scans_number (.inr isDigit) others isValue ends
  | negSucc count =>
      have text : (Int.negSucc count).repr.toList = '-' :: Nat.toDigits 10 (count + 1) := by
        rw [Int.repr, String.toList_append, Nat.toList_repr]
        rfl
      rw [text] at isValue ⊢
      exact scans_number (.inl rfl) (digits (count + 1)) isValue ends

def quoteString (text : List Char) : List Char :=
  replaceChar '"' ['\\', '"'] (replaceChar '\\' ['\\', '\\'] text)

theorem stringChars_plain {quote char : Char} {rest : List Char} (notEscape : char ≠ '\\') :
    stringChars quote (char :: rest) =
      if char = quote then some ([], char.utf8Size)
      else (stringChars quote rest).map fun (out, length) => (char :: out, length + char.utf8Size) := by
  rw [stringChars]
  · exact fun same => absurd same notEscape
  · exact fun escaped more same => absurd same notEscape

theorem stringChars_escape {quote escaped : Char} (isEscaped : escaped = '"' ∨ escaped = '\\')
    (rest : List Char) :
    stringChars quote ('\\' :: escaped :: rest) =
      (stringChars quote rest).map fun (out, length) => (escaped :: out, length + 2) := by
  rcases isEscaped with rfl | rfl <;> (rw [stringChars] <;> first | rfl | decide)

theorem stringChars_quoteString (text after : List Char) :
    stringChars '"' (quoteString text ++ '"' :: after) = some (text, size (quoteString text) + 1) := by
  induction text with
  | nil => rfl
  | cons char text ih =>
      by_cases escape : char = '"' ∨ char = '\\'
      · have first : quoteString (char :: text) = '\\' :: char :: quoteString text := by
          rcases escape with rfl | rfl <;> rfl
        have single : char.utf8Size = 1 := by
          rcases escape with rfl | rfl <;> rfl
        rw [first, List.cons_append, List.cons_append, stringChars_escape escape, ih,
          Utf8.size_cons, Utf8.size_cons, backslash_size, single, Option.map_some]
        refine congrArg (fun length => some (char :: text, length)) ?_
        omega
      · obtain ⟨notQuote, notEscape⟩ := not_or.mp escape
        have first : quoteString (char :: text) = char :: quoteString text := by
          simp [quoteString, replaceChar, notQuote, notEscape]
        rw [first, List.cons_append, stringChars_plain notEscape, if_neg notQuote, ih,
          Utf8.size_cons, Option.map_some]
        refine congrArg (fun length => some (char :: text, length)) ?_
        omega

theorem scans_string (text after : List Char) :
    Scans parseFloat ('"' :: (quoteString text ++ ['"'])) (.str (String.ofList text)) after := by
  refine scans_of_lexToken (by decide) (by decide) ?_
  intro before
  have body (expr : List Char) (start : Nat) : lexToken parseFloat expr '"'.toUInt8 start =
      (lexString expr start).map fun (out, i) => (.str (String.ofList out), i) := by
    rw [lexToken, if_neg (by decide), if_neg (by decide), if_neg (by decide), if_pos (.inl rfl)]
  have read := stringChars_quoteString text after
  have cut : '"' :: (quoteString text ++ ['"']) ++ after =
      '"' :: (quoteString text ++ '"' :: after) := by simp
  rw [body, lexString, cut, sliceFrom_rest, Fallible.ok_bind]
  dsimp only
  rw [read]
  simp only [Utf8.size_append, Utf8.size_cons, quote_size, Utf8.size_nil]
  refine congrArg (fun stop => Except.ok (Tok.str (String.ofList text), stop)) ?_
  omega

theorem endsPath_space (rest : List Char) : EndsPath (' ' :: rest) := by
  have first : (encode (' ' :: rest)).head? = some (b ' ') := by
    rw [Utf8.encode_cons_ascii (by decide), List.head?_cons]
  refine ⟨?_, ?_, ?_, ?_⟩
  · intro byte same
    rw [first] at same
    rw [← Option.some.inj same]
    decide
  · rw [first]
    decide
  · rw [first]
    decide
  · rw [first]
    decide

/-- A path the path parser accepts is one token to the lexer, and compares as itself. -/
theorem Condition.parse_path (parseFloat : List Char → Option Float) {t : String}
    {field : FieldPath} {char : Char} (accepted : FieldPath.parse t = .ok field)
    (first : t.toList.head? = some char) (starts : char = '.' ∨ startsWord char = true)
    (notReserved : t ≠ "not") :
    (∃ tok : Tok Float, (tok = .ident t ∨ tok = .path t) ∧
      lex parseFloat (t ++ " == 1").toList = .ok [⟨tok, 0, t⟩,
        ⟨.op .eq, size t.toList + 1, "=="⟩, ⟨.int 1, size t.toList + 4, "1"⟩]) ∧
    Condition.parse parseFloat (t ++ " == 1") = .ok (.compare field .eq (.int 1)) := by
  have text : (t ++ " == 1").toList = t.toList ++ ' ' :: (['=', '='] ++ ' ' :: (['1'] ++ [])) := by
    rw [String.toList_append]
    rfl
  have named : t.toList ≠ [] := by
    intro empty
    rw [empty] at first
    cases first
  obtain ⟨tok, isPath, scans⟩ := scans_path (FieldPath.parse_ok.mp accepted) first starts
    (endsPath_space (['=', '='] ++ ' ' :: (['1'] ++ [])))
  rw [String.ofList_toList] at isPath
  have one : Scans parseFloat ['1'] (.int 1) [] :=
    @scans_int Float parseFloat 1 [] (by decide) (fun byte ends => nomatch ends)
  have operand : Lexes parseFloat (size t.toList + 4) ['1'] [⟨.int 1, size t.toList + 4, "1"⟩] :=
    Lexes.token (List.cons_ne_nil _ _) one (Lexes.done _)
  have operator : Lexes parseFloat (size t.toList + 1) (['=', '='] ++ ' ' :: ['1'])
      [⟨.op .eq, size t.toList + 1, "=="⟩, ⟨.int 1, size t.toList + 4, "1"⟩] :=
    Lexes.token (List.cons_ne_nil _ _) (scans_op .eq ['1']) (Lexes.space operand)
  have lexed : lex parseFloat (t ++ " == 1").toList = .ok [⟨tok, 0, t⟩,
      ⟨.op .eq, size t.toList + 1, "=="⟩, ⟨.int 1, size t.toList + 4, "1"⟩] := by
    rw [← Nat.zero_add (size t.toList)] at operator
    have path := Lexes.token named scans (Lexes.space operator)
    rw [Nat.zero_add, String.ofList_toList] at path
    rw [text]
    exact lex_lexes path
  refine ⟨⟨tok, isPath, lexed⟩, parse_ok lexed ?_⟩
  refine Derives.orOne (Derives.andOne (Derives.notPrimary ?_ ?_))
  · rcases isPath with rfl | rfl
    · intro same
      exact notReserved (Tok.ident.inj same)
    · intro same
      cases same
  · exact Derives.compare isPath accepted rfl (LiteralToken.int 1) (fun isRegex => nomatch isRegex)

theorem Condition.parse_path_quoted :
    Condition.parse (fun _ => (none : Option Nat)) (".\"a == b\".c" ++ " == 1") =
      .ok (.compare ⟨.record ["a == b", "c"]⟩ .eq (.int 1)) :=
  (Condition.parse_path _ (by decide +kernel) (by decide +kernel) (.inl rfl) (by decide)).2

end FusionPipeline
