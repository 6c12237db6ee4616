import FusionPipeline.LuaRuns

/-! The scan passes Lua's lexemes one by one. -/

namespace FusionPipeline.Lua

open Regex (b Panic)
open Loop (lt_of_drop drop_append)

theorem closeLength_first (level : Nat) (rest : List UInt8) : ∀ body : List UInt8,
    (∀ front, front ++ closing level <+: body ++ closing level → body.length ≤ front.length) →
      closeLength level (body ++ closing level ++ rest) =
        (body.length + (level + 2), body.count (b '\n'))
  | [], _ => by
      have starts : closing level <+: b ']' ::
          (List.replicate level (b '=') ++ [b ']'] ++ rest) := ⟨rest, by simp [closing]⟩
      have closes := (closes_iff level _ _).mpr starts
      show closeLength level (b ']' :: (List.replicate level (b '=') ++ [b ']'] ++ rest)) = _
      rw [closeLength, if_pos closes]
      simp
  | byte :: body, first => by
      have later := closeLength_first level rest body fun front leads => by
        have shifted := first (byte :: front) (by simpa using leads)
        simpa using shifted
      have open_ : ¬ closing level <+: byte :: (body ++ closing level ++ rest) := by
        intro leads
        have inside : closing level <+: byte :: body ++ closing level :=
          List.prefix_of_prefix_length_le leads ⟨rest, by simp⟩ (by simp; omega)
        have none_ := first [] inside
        simp at none_
      rw [List.cons_append, List.cons_append, closeLength, if_neg (fun closes =>
        open_ ((closes_iff level _ _).mp closes)), later]
      dsimp only
      rw [count_cons_newline, List.length_cons, Nat.add_right_comm]

theorem longBracket_opening (level : Nat) (after : List UInt8) :
    longBracket (opening level ++ after) =
      some (level + 2 + (closeLength level after).1, (closeLength level after).2) := by
  have equals : (List.replicate level (b '=') ++ b '[' :: after).takeWhile (· == b '=') =
      List.replicate level (b '=') := by
    apply takeWhile_exact
    · intro byte member
      rw [(List.mem_replicate.mp member).2]
      rfl
    · intro byte first
      rw [← Option.some.inj first]
      rfl
  have shape : opening level ++ after = b '[' :: (List.replicate level (b '=') ++ b '[' :: after) := by
    simp [opening]
  have second : (b '[' :: (List.replicate level (b '=') ++ b '[' :: after))[1 + level]? =
      some (b '[') := by
    rw [Nat.add_comm, List.getElem?_cons_succ, List.getElem?_append_right (by simp)]
    simp
  have body : (b '[' :: (List.replicate level (b '=') ++ b '[' :: after)).drop (2 + level) =
      after := by
    rw [Nat.add_comm, List.drop_succ_cons, List.drop_append]
    simp
  have first : (b '[' :: (List.replicate level (b '=') ++ b '[' :: after))[0]? = some (b '[') := rfl
  rw [shape, longBracket, if_pos first, List.drop_succ_cons, List.drop_zero, equals,
    List.length_replicate, if_pos second, body, Nat.add_comm 2 level]

theorem longBracket_exact {text : List UInt8} (long : LongBracket text) (rest : List UInt8) :
    longBracket (text ++ rest) = some (text.length, text.count (b '\n')) := by
  cases long with
  | intro level body first =>
      rw [List.append_assoc, List.append_assoc, longBracket_opening, ← List.append_assoc,
        closeLength_first level rest body first]
      simp only [List.length_append, List.count_append, opening_length, closing_length,
        opening_sameLine, closing_sameLine, Nat.zero_add, Nat.add_zero, Nat.add_assoc]

theorem longBracket_none {rest : List UInt8} (short : ¬ OpensLong rest) :
    longBracket rest = none := by
  rcases found : longBracket rest with _ | ⟨length, newlines⟩
  · rfl
  · obtain ⟨level, after, whole, _⟩ := longBracket_opens found
    exact absurd ⟨level, after, whole.symm⟩ short

theorem quotedLength_run (quote : UInt8) (rest : List UInt8) : ∀ run : List UInt8,
    (∀ byte ∈ run, byte ≠ quote ∧ byte ≠ b '\\') →
      quotedLength quote (run ++ rest) =
        ((quotedLength quote rest).1 + run.length, (quotedLength quote rest).2 + run.count (b '\n'))
  | [], _ => rfl
  | byte :: run, plain => by
      obtain ⟨notQuote, notEscape⟩ := plain byte List.mem_cons_self
      rw [List.cons_append, quotedLength.eq_def]
      dsimp only
      rw [if_neg notQuote, if_neg notEscape,
        quotedLength_run quote rest run fun byte member => plain byte (List.mem_cons_of_mem _ member)]
      dsimp only
      rw [count_cons_newline, List.length_cons, Nat.add_assoc, Nat.add_assoc]

theorem quotedLength_escape {quote : UInt8} (apart : quote ≠ b '\\') (byte : UInt8)
    {run body rest : List UInt8} (plain : ∀ other ∈ run, other ≠ quote ∧ other ≠ b '\\')
    (inner : quotedLength quote (body ++ quote :: rest) = (body.length, body.count (b '\n'))) :
    quotedLength quote (b '\\' :: byte :: run ++ body ++ quote :: rest) =
      ((b '\\' :: byte :: run ++ body).length, (b '\\' :: byte :: run ++ body).count (b '\n')) := by
  have backslash : b '\\' ≠ b '\n' := by decide
  have start : b '\\' :: byte :: run ++ body ++ quote :: rest =
      b '\\' :: byte :: (run ++ (body ++ quote :: rest)) := by simp
  rw [start, quotedLength.eq_def]
  dsimp only
  rw [if_neg apart.symm, if_pos rfl, quotedLength_run quote _ run plain, inner, List.cons_append,
    List.cons_append, count_cons_newline, count_cons_newline, if_neg backslash, List.count_append,
    List.length_cons, List.length_cons, List.length_append]
  dsimp only
  rw [Nat.add_comm body.length, Nat.add_comm (body.count _)]
  rfl

theorem quotedLength_exact {quote : UInt8} {body : List UInt8}
    (known : quote = b '"' ∨ quote = b '\'') (quoted : Quoted quote body) (rest : List UInt8) :
    quotedLength quote (body ++ quote :: rest) = (body.length, body.count (b '\n')) := by
  have apart : quote ≠ b '\\' := by
    rcases known with rfl | rfl <;> decide
  have plainBlank {byte : UInt8} (blank : isBlank byte = true) : byte ≠ quote ∧ byte ≠ b '\\' := by
    constructor
    · rintro rfl
      rcases known with rfl | rfl <;> exact absurd blank (by decide)
    · rintro rfl
      exact absurd blank (by decide)
  induction quoted with
  | done =>
      rw [List.nil_append, quotedLength.eq_def]
      dsimp only
      rw [if_pos rfl]
      rfl
  | @plain byte body notQuote notEscape sameLine more ih =>
      have run := quotedLength_run quote (body ++ quote :: rest) [byte] (by simp [notQuote, notEscape])
      rw [List.singleton_append] at run
      rw [List.cons_append, run, ih, count_cons_newline, count_cons_newline]
      simp
  | @escape byte body sameLine more ih =>
      exact @quotedLength_escape quote apart byte [] body rest (by simp) ih
  | @line ending body ends more ih =>
      have shapes : ∀ ending ∈ lineBreaks, ∃ byte run, ending = byte :: run ∧
          ∀ other ∈ run, isBlank other = true := by
        intro ending member
        have all : lineBreaks = [[b '\n'], [b '\r'], [b '\r', b '\n'], [b '\n', b '\r']] := by
          decide
        rw [all] at member
        simp only [List.mem_cons, List.not_mem_nil, or_false] at member
        rcases member with rfl | rfl | rfl | rfl
        · exact ⟨_, _, rfl, by decide⟩
        · exact ⟨_, _, rfl, by decide⟩
        · exact ⟨_, _, rfl, by decide⟩
        · exact ⟨_, _, rfl, by decide⟩
      obtain ⟨byte, run, rfl, blank⟩ := shapes ending ends
      exact quotedLength_escape apart byte (fun other member => plainBlank (blank other member)) ih
  | @skip gap body blank more ih =>
      exact quotedLength_escape apart (b 'z') (fun other member => plainBlank (blank other member)) ih

section Passes

variable {bytes : List UInt8} {names : List FreeName} {i line : Nat} {previous : Option UInt8}

theorem scan_number {digit : UInt8} {more rest : List UInt8}
    (here : bytes.drop i = digit :: more ++ rest) (isDigit : isAsciiDigit digit = true)
    (parts : ∀ byte ∈ digit :: more, isNumberPart byte = true)
    (ends : ∀ byte, rest.head? = some byte → isNumberPart byte = false) :
    scan bytes ⟨names, i, line, previous⟩ =
      scan bytes ⟨names, i + (digit :: more).length, line, some (b '0')⟩ := by
  obtain ⟨inside, _, _⟩ := lt_of_drop here
  have stepped := @step_digit bytes (more ++ rest) ⟨names, i, line, previous⟩ digit here isDigit
  have whole := takeWhile_exact parts ends
  rw [List.cons_append] at whole
  rw [scan_step inside stepped, whole]

def isPlain (byte : UInt8) : Bool :=
  !(isAsciiWhitespace byte || byte == b '-' || byte == b '"' || byte == b '\'' || byte == b '[' ||
    isAsciiDigit byte || startsName byte)

theorem scan_plain {rest : List UInt8} : ∀ (text : List UInt8) (i : Nat) (previous : Option UInt8),
    bytes.drop i = text ++ rest → (∀ byte ∈ text, isPlain byte = true) →
      scan bytes ⟨names, i, line, previous⟩ =
        scan bytes ⟨names, i + text.length, line, text.getLast?.or previous⟩
  | [], _, _, _, _ => rfl
  | byte :: text, i, previous, here, plain => by
      obtain ⟨inside, _, atNext⟩ := lt_of_drop here
      have isPlain_ := plain byte List.mem_cons_self
      simp only [isPlain, Bool.not_eq_true', Bool.or_eq_false_iff, beq_eq_false_iff_ne] at isPlain_
      obtain ⟨⟨⟨⟨⟨⟨notBlank, notDash⟩, notDouble⟩, notSingle⟩, notBracket⟩, notDigit⟩, notName⟩ :=
        isPlain_
      have stepped := @step_other bytes (text ++ rest) ⟨names, i, line, previous⟩ byte here notBlank
        (fun same => absurd same notDash) ⟨notDouble, notSingle⟩ (fun same => absurd same notBracket)
        notDigit notName
      rw [scan_step inside stepped]
      dsimp only
      rw [scan_plain text (i + 1) (some byte) atNext fun other member =>
        plain other (List.mem_cons_of_mem _ member), List.length_cons, Nat.add_assoc,
        Nat.add_comm 1]
      congr 2
      cases text with
      | nil => rfl
      | cons second text =>
          rw [List.getLast?_cons_cons]
          cases last : (second :: text).getLast? with
          | none => simp at last
          | some value => rfl

end Passes

structure NumberShape (text point digits scale : List UInt8) : Prop where
  whole : text = point ++ digits ++ scale
  leads : point = [] ∨ point = [b '.']
  starts : ∃ digit more, digits = digit :: more ∧ isAsciiDigit digit = true
  parts : ∀ byte ∈ digits, isNumberPart byte = true
  signed : scale = [] ∨ ∃ sign digit more, scale = sign :: digit :: more ∧
    (sign = b '+' ∨ sign = b '-') ∧ ∀ byte ∈ digit :: more, isAsciiDigit byte = true

theorem isNumberPart_of_digit {byte : UInt8} (digit : isAsciiDigit byte = true) :
    isNumberPart byte = true := by
  simp [isNumberPart, isAsciiAlphanumeric, digit]

theorem isNumberPart_of_hexDigit {byte : UInt8} (digit : isHexDigit byte = true) :
    isNumberPart byte = true := by
  simp only [isHexDigit, Bool.or_eq_true, Bool.and_eq_true, decide_eq_true_eq,
    UInt8.le_iff_toNat_le] at digit
  simp only [isNumberPart, isAsciiAlphanumeric, isAsciiAlphabetic, Bool.or_eq_true,
    Bool.and_eq_true, decide_eq_true_eq, UInt8.le_iff_toNat_le]
  have bounds : (b 'a').toNat = 97 ∧ (b 'f').toNat = 102 ∧ (b 'z').toNat = 122 ∧
    (b 'A').toNat = 65 ∧ (b 'F').toNat = 70 ∧ (b 'Z').toNat = 90 := by decide
  rcases digit with (plain | lower) | upper
  · exact Or.inl (Or.inr plain)
  · exact Or.inl (Or.inl (Or.inl ⟨lower.1, by omega⟩))
  · exact Or.inl (Or.inl (Or.inr ⟨upper.1, by omega⟩))

theorem exponent_shape {marker exponent : List UInt8}
    (letters : ∀ byte ∈ marker, isNumberPart byte = true) (scaled : Exponent marker exponent) :
    ∃ front scale, exponent = front ++ scale ∧ (∀ byte ∈ front, isNumberPart byte = true) ∧
      (scale = [] ∨ ∃ sign digit more, scale = sign :: digit :: more ∧
        (sign = b '+' ∨ sign = b '-') ∧ ∀ byte ∈ digit :: more, isAsciiDigit byte = true) := by
  rcases scaled with rfl | ⟨letter, sign, digits, known, oneSign, nonempty, decimal, rfl⟩
  · exact ⟨[], [], rfl, by simp, Or.inl rfl⟩
  · rw [List.all_eq_true] at decimal
    obtain ⟨digit, more, rfl⟩ := List.exists_cons_of_ne_nil nonempty
    have signed (char : UInt8) (isSign : char = b '+' ∨ char = b '-') :
        ∃ front scale, letter :: [char] ++ digit :: more = front ++ scale ∧
          (∀ byte ∈ front, isNumberPart byte = true) ∧
            (scale = [] ∨ ∃ sign digit more, scale = sign :: digit :: more ∧
              (sign = b '+' ∨ sign = b '-') ∧ ∀ byte ∈ digit :: more, isAsciiDigit byte = true) :=
      ⟨[letter], char :: digit :: more, rfl, by simpa using letters letter known,
        Or.inr ⟨char, digit, more, rfl, isSign, decimal⟩⟩
    simp only [List.mem_cons, List.not_mem_nil, or_false] at oneSign
    rcases oneSign with rfl | rfl | rfl
    · refine ⟨letter :: digit :: more, [], by simp, ?_, Or.inl rfl⟩
      intro byte member
      rcases List.mem_cons.mp member with rfl | inDigits
      · exact letters _ known
      · exact isNumberPart_of_digit (decimal byte inDigits)
    · exact signed _ (Or.inl rfl)
    · exact signed _ (Or.inr rfl)

theorem mantissa_parts {isDigit : UInt8 → Bool} {text : List UInt8}
    (known : ∀ byte, isDigit byte = true → isNumberPart byte = true)
    (mantissa : Mantissa isDigit text) : ∀ byte ∈ text, isNumberPart byte = true := by
  have point : isNumberPart (b '.') = true := by decide
  intro byte member
  cases mantissa with
  | whole digits => exact known byte (digits byte member)
  | point digits =>
      rcases List.mem_append.mp member with before | after
      · exact known byte (digits byte (List.mem_append_left _ before))
      · rcases List.mem_cons.mp after with rfl | inFraction
        · exact point
        · exact known byte (digits byte (List.mem_append_right _ inFraction))
  | fraction digits =>
      rcases List.mem_cons.mp member with rfl | inFraction
      · exact point
      · exact known byte (digits byte inFraction)

theorem numeral_shape {text : List UInt8} (numeral : Numeral text) :
    ∃ point digits scale, NumberShape text point digits scale := by
  cases numeral with
  | @decimal mantissa exponent mantissaDigits scaled =>
      obtain ⟨front, scale, rfl, letters, signed⟩ := exponent_shape (by decide) scaled
      have parts := mantissa_parts (fun _ => isNumberPart_of_digit) mantissaDigits
      have joined : ∀ byte ∈ mantissa ++ front, isNumberPart byte = true := fun byte member =>
        (List.mem_append.mp member).elim (parts byte) (letters byte)
      cases mantissaDigits with
      | @whole digit more digits =>
          exact ⟨[], _, scale, by simp, Or.inl rfl, ⟨digit, more ++ front, rfl,
            digits _ List.mem_cons_self⟩, joined, signed⟩
      | @point digit more fraction digits =>
          exact ⟨[], _, scale, by simp, Or.inl rfl, ⟨digit, more ++ b '.' :: fraction ++ front, rfl,
            digits _ List.mem_cons_self⟩, joined, signed⟩
      | @fraction digit more digits =>
          refine ⟨[b '.'], digit :: more ++ front, scale, by simp, Or.inr rfl,
            ⟨digit, more ++ front, rfl, digits _ List.mem_cons_self⟩, ?_, signed⟩
          exact fun byte member => joined byte (List.mem_cons_of_mem _ member)
  | @hexadecimal letter mantissa exponent marked mantissaDigits scaled =>
      obtain ⟨front, scale, rfl, letters, signed⟩ := exponent_shape (by decide) scaled
      have parts := mantissa_parts (fun _ => isNumberPart_of_hexDigit) mantissaDigits
      have markers : ∀ byte ∈ [b 'x', b 'X'], isNumberPart byte = true := by decide
      refine ⟨[], b '0' :: letter :: (mantissa ++ front), scale, by simp, Or.inl rfl,
        ⟨b '0', letter :: (mantissa ++ front), rfl, by decide⟩, ?_, signed⟩
      intro byte member
      rcases List.mem_cons.mp member with rfl | later
      · decide
      · rcases List.mem_cons.mp later with rfl | inside
        · exact markers _ marked
        · exact (List.mem_append.mp inside).elim (parts byte) (letters byte)

theorem numeral_sameLine {text : List UInt8} (numeral : Numeral text) :
    text.count (b '\n') = 0 := by
  obtain ⟨point, digits, scale, whole, leads, _, parts, signed⟩ := numeral_shape numeral
  rw [List.count_eq_zero, whole]
  intro member
  have notPart : isNumberPart (b '\n') = false := by decide
  have notDigit : isAsciiDigit (b '\n') = false := by decide
  rcases List.mem_append.mp member with front | inScale
  · rcases List.mem_append.mp front with inPoint | inDigits
    · rcases leads with rfl | rfl
      · simp at inPoint
      · exact absurd inPoint (by decide)
    · rw [parts _ inDigits] at notPart
      cases notPart
  · rcases signed with rfl | ⟨sign, digit, more, rfl, isSign, decimal⟩
    · simp at inScale
    · rcases List.mem_cons.mp inScale with same | later
      · rcases isSign with rfl | rfl <;> exact absurd same (by decide)
      · rw [decimal _ later] at notDigit
        cases notDigit

theorem scan_numeral {bytes text rest : List UInt8} {names : List FreeName} {i line : Nat}
    {previous : Option UInt8} (numeral : Numeral text) (here : bytes.drop i = text ++ rest)
    (ends : ∀ byte, rest.head? = some byte → isNamePart byte = false ∧ byte ≠ b '.') :
    scan bytes ⟨names, i, line, previous⟩ =
      scan bytes ⟨names, i + text.length, line, some (b '0')⟩ := by
  obtain ⟨point, digits, scale, rfl, leads, ⟨digit, more, rfl, isDigit⟩, parts, signed⟩ :=
    numeral_shape numeral
  have restEnds : ∀ byte, rest.head? = some byte → isNumberPart byte = false := by
    intro byte first
    obtain ⟨notName, notPoint⟩ := ends byte first
    simp only [isNamePart, Bool.or_eq_false_iff] at notName
    simp [isNumberPart, notName.1, notPoint]
  have pointPlain : ∀ byte ∈ point, isPlain byte = true := by
    rcases leads with rfl | rfl <;> decide
  rw [List.append_assoc, List.append_assoc] at here
  rw [scan_plain point i previous here pointPlain]
  have atDigits := drop_append here
  have scaleEnds : ∀ byte, (scale ++ rest).head? = some byte → isNumberPart byte = false := by
    rcases signed with rfl | ⟨sign, second, tail, rfl, isSign, _⟩
    · exact restEnds
    · intro byte first
      rw [← Option.some.inj first]
      rcases isSign with rfl | rfl <;> decide
  rw [scan_number atDigits isDigit parts scaleEnds]
  have atScale := drop_append atDigits
  rcases signed with rfl | ⟨sign, second, tail, rfl, isSign, decimal⟩
  · rw [List.append_nil, List.length_append, Nat.add_assoc]
  · obtain ⟨inside, _, atSecond⟩ := lt_of_drop atScale
    have secondDigit := decimal second List.mem_cons_self
    have notDash : second ≠ b '-' := by
      rintro rfl
      exact absurd secondDigit (by decide)
    have apart : isAsciiWhitespace sign = false ∧ (sign ≠ b '"' ∧ sign ≠ b '\'') ∧ sign ≠ b '[' ∧
        isAsciiDigit sign = false ∧ startsName sign = false := by
      rcases isSign with rfl | rfl <;> decide
    have stepped := @step_other bytes _ ⟨names, i + point.length + (digit :: more).length, line,
      some (b '0')⟩ sign atScale apart.1 (fun _ => by simpa using notDash) apart.2.1
      (fun same => absurd same apart.2.2.1) apart.2.2.2.1 apart.2.2.2.2
    rw [scan_step inside stepped]
    dsimp only
    rw [scan_number atSecond secondDigit (fun byte member => isNumberPart_of_digit (decimal byte member))
      restEnds]
    simp only [List.length_append, List.length_cons]
    congr 2
    omega

theorem slice_exact {source : String} {text rest : List UInt8} {i : Nat}
    (here : (Utf8.bytes source).drop i = text ++ rest) (nonempty : text ≠ [])
    (ascii : ∀ byte ∈ text, byte.toNat < 0x80) :
    Regex.slice (Utf8.bytes source) i (i + text.length) = .ok text := by
  have start : Utf8.isBoundary (Utf8.bytes source) i = true := by
    obtain ⟨first, more, rfl⟩ := List.exists_cons_of_ne_nil nonempty
    obtain ⟨_, atI, _⟩ := lt_of_drop here
    exact Utf8.isBoundary_of_ascii atI (ascii first List.mem_cons_self)
  have stop : Utf8.isBoundary (Utf8.bytes source) (i + text.length) = true := by
    obtain ⟨front, last, rfl⟩ := (List.eq_nil_or_concat' text).resolve_left nonempty
    rw [List.append_assoc] at here
    obtain ⟨_, atLast, _⟩ := @lt_of_drop _ _ (i + front.length) last rest (drop_append here)
    have lastAscii := ascii last (List.mem_append_right _ (List.mem_singleton.mpr rfl))
    have after := Utf8.isBoundary_succ atLast (Utf8.isBoundary_of_ascii atLast lastAscii)
    rw [decide_eq_true lastAscii] at after
    rw [List.length_append, List.length_singleton, ← Nat.add_assoc]
    exact after
  rw [Regex.slice, if_pos ⟨Nat.le_add_right _ _, start, stop⟩, here, Nat.add_sub_cancel_left,
    List.take_left]

theorem isNamePart_ascii {byte : UInt8} (part : isNamePart byte = true) : byte.toNat < 0x80 := by
  simp only [isNamePart, isAsciiAlphanumeric, isAsciiAlphabetic, isAsciiDigit, Bool.or_eq_true,
    Bool.and_eq_true, decide_eq_true_eq, beq_iff_eq, UInt8.le_iff_toNat_le] at part
  have bounds : (b 'z').toNat = 122 ∧ (b 'Z').toNat = 90 ∧ (b '9').toNat = 57 := by decide
  rcases part with ((lower | upper) | digit) | rfl
  · omega
  · omega
  · omega
  · decide

structure Lexeme.ReturnEnds (lexeme : Lexeme) (rest : List UInt8) : Prop where
  comment : lexeme.kind = .comment
  short : ¬ OpensLong (lexeme.text.drop 2)
  return_ : rest.head? = some (b '\r')
  bare : rest[1]? ≠ some (b '\n')

/-- The scan passes a lexeme: it reports it where it is a free name, and counts its newlines. -/
def Passes (source : String) (lexeme : Lexeme) (rest : List UInt8) : Prop :=
  ∀ names i line previous, (Utf8.bytes source).drop i = lexeme.text ++ rest →
    scan (Utf8.bytes source) ⟨names, i, line, previous⟩ =
      scan (Utf8.bytes source) ⟨names ++ lexeme.found previous i line rest,
        i + lexeme.text.length, line + lexeme.text.count (b '\n'), lexeme.leaves previous⟩

theorem found_other {kind : Kind} (other : kind ≠ .name) (text : List UInt8)
    (previous : Option UInt8) (i line : Nat) (rest : List UInt8) :
    Lexeme.found ⟨kind, text⟩ previous i line rest = [] := by
  rw [Lexeme.found, if_neg (fun all => other all.1)]

section PassesKinds

variable {source : String} {rest : List UInt8}

theorem passes_blank {byte : UInt8} (blank : isBlank byte = true) :
    Passes source ⟨.blank, [byte]⟩ rest := by
  intro names i line previous here
  obtain ⟨inside, _, _⟩ := lt_of_drop here
  have stepped := @step_blank (Utf8.bytes source) rest ⟨names, i, line, previous⟩ byte here blank
  rw [scan_step inside stepped, found_other (by decide), List.append_nil, count_cons_newline]
  simp [Lexeme.leaves]

theorem passes_longComment {text : List UInt8} (long : LongBracket text) :
    Passes source ⟨.comment, b '-' :: b '-' :: text⟩ rest := by
  intro names i line previous here
  obtain ⟨inside, _, _⟩ := lt_of_drop here
  have stepped := @step_long (Utf8.bytes source) (text ++ rest) ⟨names, i, line, previous⟩ here _ _
    (longBracket_exact long rest)
  have dash : b '-' ≠ b '\n' := by decide
  rw [scan_step inside stepped, found_other (by decide), List.append_nil, count_cons_newline,
    count_cons_newline, if_neg dash, List.length_cons, List.length_cons]
  dsimp only [Lexeme.leaves]
  congr 2
  omega

theorem passes_shortComment {body : List UInt8}
    (sameLine : ∀ byte ∈ body, isNewline byte = false)
    (ends : ∀ byte, rest.head? = some byte → isNewline byte = true)
    (short : ¬ OpensLong (body ++ rest))
    (calm : ¬ Lexeme.ReturnEnds ⟨.comment, b '-' :: b '-' :: body⟩ rest) :
    Passes source ⟨.comment, b '-' :: b '-' :: body⟩ rest := by
  intro names i line previous here
  obtain ⟨inside, _, _⟩ := lt_of_drop here
  have stepped := @step_short (Utf8.bytes source) (body ++ rest) ⟨names, i, line, previous⟩ here
    (longBracket_none short)
  have notNewline : ∀ byte ∈ b '-' :: b '-' :: body, (byte != b '\n') = true := by
    intro byte member
    rw [bne_iff_ne]
    rintro rfl
    rcases List.mem_cons.mp member with same | later
    · exact absurd same (by decide)
    · rcases List.mem_cons.mp later with same | inBody
      · exact absurd same (by decide)
      · exact absurd (sameLine _ inBody) (by decide)
  have noCount : (b '-' :: b '-' :: body).count (b '\n') = 0 := by
    rw [List.count_eq_zero]
    intro member
    exact absurd (notNewline _ member) (by decide)
  have after := drop_append here
  dsimp only at after stepped
  rw [found_other (by decide), List.append_nil]
  dsimp only [Lexeme.leaves]
  rw [scan_step inside stepped, noCount]
  rw [show b '-' :: b '-' :: (body ++ rest) = (b '-' :: b '-' :: body) ++ rest from rfl]
  cases rest with
  | nil => rw [takeWhile_exact notNewline (by simp), Nat.add_zero]
  | cons first more =>
      by_cases newline : first = b '\n'
      · rw [takeWhile_exact notNewline (by rintro byte same; rw [← Option.some.inj same, newline]; rfl),
          Nat.add_zero]
      · have return_ : first = b '\r' := by
          have isEnd := ends first rfl
          simpa [isNewline, newline] using isEnd
        have next : more.head? = some (b '\n') := by
          by_contra bare
          refine calm ⟨rfl, ?_, by rw [return_]; rfl, by
            rwa [List.getElem?_cons_succ, ← List.head?_eq_getElem?]⟩
          rintro ⟨level, leads⟩
          exact short ⟨level, List.IsPrefix.trans leads (List.prefix_append _ _)⟩
        -- The carriage return is passed with the comment here, and as a blank by Lua.
        obtain ⟨isInside, _, _⟩ := lt_of_drop after
        have blank := @step_blank (Utf8.bytes source) more ⟨names, i + (b '-' :: b '-' :: body).length,
          line, previous⟩ first after (by rw [return_]; decide)
        have longer : ((b '-' :: b '-' :: body) ++ first :: more).takeWhile (· != b '\n') =
            (b '-' :: b '-' :: body) ++ [first] := by
          rw [List.append_cons]
          apply takeWhile_exact
          · intro byte member
            rcases List.mem_append.mp member with inComment | last
            · exact notNewline byte inComment
            · rw [List.mem_singleton.mp last]
              exact bne_iff_ne.mpr newline
          · intro byte same
            rw [next] at same
            rw [← Option.some.inj same]
            rfl
        have kept : ¬ [first] = [verticalTab] := by
          rw [return_]
          decide
        rw [longer, Nat.add_zero, scan_step isInside blank, if_neg newline, if_neg kept,
          List.length_append, List.length_singleton, Nat.add_assoc]
        rfl

theorem passes_longString {text : List UInt8} (long : LongBracket text) :
    Passes source ⟨.string, text⟩ rest := by
  intro names i line previous here
  have exact_ := longBracket_exact long rest
  cases long with
  | intro level body first =>
      have shape : opening level ++ body ++ closing level ++ rest = b '[' ::
          (List.replicate level (b '=') ++ [b '['] ++ body ++ closing level ++ rest) := by
        simp [opening]
      dsimp only at here
      rw [shape] at here exact_
      obtain ⟨inside, _, _⟩ := lt_of_drop here
      have stepped := @step_bracket (Utf8.bytes source) _ ⟨names, i, line, previous⟩ here _ _ exact_
      rw [scan_step inside stepped, found_other (by decide), List.append_nil]
      rfl

theorem passes_shortString {quote : UInt8} {body : List UInt8}
    (known : quote = b '"' ∨ quote = b '\'') (quoted : Quoted quote body) :
    Passes source ⟨.string, quote :: body ++ [quote]⟩ rest := by
  intro names i line previous here
  have shape : quote :: body ++ [quote] ++ rest = quote :: (body ++ quote :: rest) := by simp
  dsimp only at here
  rw [shape] at here
  obtain ⟨inside, _, _⟩ := lt_of_drop here
  have stepped := @step_quote (Utf8.bytes source) _ ⟨names, i, line, previous⟩ quote here known
  have notNewline : quote ≠ b '\n' := by
    rcases known with rfl | rfl <;> decide
  have notBracket : ¬ some quote = some (b '[') := by
    rcases known with rfl | rfl <;> decide
  rw [scan_step inside stepped, quotedLength_exact known quoted, found_other (by decide),
    List.append_nil, List.count_append, count_cons_newline, count_cons_newline, if_neg notNewline]
  dsimp only [Lexeme.leaves]
  rw [List.cons_append, List.head?_cons, if_neg notBracket, List.length_cons, List.length_append]
  congr 2
  simp
  omega

theorem passes_numeral {text : List UInt8} (numeral : Numeral text)
    (ends : ∀ byte, rest.head? = some byte → isNamePart byte = false ∧ byte ≠ b '.') :
    Passes source ⟨.numeral, text⟩ rest := by
  intro names i line previous here
  rw [scan_numeral numeral here ends, found_other (by decide), List.append_nil,
    numeral_sameLine numeral]
  rfl

theorem passes_name {first : UInt8} {more : List UInt8} (starts : startsName first = true)
    (parts : more.all isNamePart)
    (ends : ∀ byte, rest.head? = some byte → isNamePart byte = false) :
    Passes source ⟨.name, first :: more⟩ rest := by
  intro names i line previous here
  obtain ⟨inside, _, _⟩ := lt_of_drop here
  have all : ∀ byte ∈ first :: more, isNamePart byte = true := by
    intro byte member
    rcases List.mem_cons.mp member with rfl | inMore
    · exact (startsName_other starts).2.2.2.2.2.2.1
    · exact List.all_eq_true.mp parts byte inMore
  have noCount : (first :: more).count (b '\n') = 0 := by
    rw [List.count_eq_zero]
    intro member
    exact absurd (all _ member) (by decide)
  have stepped := @step_name (Utf8.bytes source) (more ++ rest) ⟨names, i, line, previous⟩ first here
    starts
  have atRest := drop_append here
  have sliced := slice_exact here (by simp) (fun byte member => isNamePart_ascii (all byte member))
  dsimp only at here atRest sliced
  rw [noCount]
  dsimp only [Lexeme.leaves]
  rw [scanName, here, takeWhile_exact all ends] at stepped
  dsimp only at stepped
  rw [atRest] at stepped
  split at stepped
  next free =>
    rw [sliced] at stepped
    have isFree : previous ≠ some (b '.') ∧ previous ≠ some (b ':') ∧ assigned rest = false := by
      simpa [and_assoc] using free
    rw [scan_step inside stepped, Lexeme.found, if_pos ⟨rfl, isFree⟩]
    rfl
  next bound =>
    have notFree : ¬ (previous ≠ some (b '.') ∧ previous ≠ some (b ':') ∧ assigned rest = false) := by
      simpa [and_assoc] using bound
    rw [scan_step inside stepped, Lexeme.found, if_neg (fun all => notFree all.2), List.append_nil]
    rfl

theorem passes_plain {text : List UInt8} (nonempty : text ≠ [])
    (plain : ∀ byte ∈ text, isPlain byte = true) : Passes source ⟨.symbol, text⟩ rest := by
  intro names i line previous here
  have noCount : text.count (b '\n') = 0 := by
    rw [List.count_eq_zero]
    intro member
    exact absurd (plain _ member) (by decide)
  rw [scan_plain text i previous here plain, found_other (by decide), List.append_nil, noCount]
  dsimp only [Lexeme.leaves]
  cases last : text.getLast? with
  | none => exact absurd (List.getLast?_eq_none_iff.mp last) nonempty
  | some value => rfl

theorem passes_symbol {byte : UInt8} (single : SingleSymbol byte rest) :
    Passes source ⟨.symbol, [byte]⟩ rest := by
  intro names i line previous here
  obtain ⟨inside, _, _⟩ := lt_of_drop here
  obtain ⟨notBlank, notQuote, ⟨notDigit, _⟩, notName, notComment, notLong, _⟩ := single
  have notSpace : isAsciiWhitespace byte = false := by
    simp only [isBlank, Bool.or_eq_false_iff] at notBlank
    exact notBlank.1
  have notDash : byte = b '-' → rest[0]? ≠ some (b '-') := by
    rintro rfl second
    obtain ⟨more, rfl⟩ : ∃ more, rest = b '-' :: more := by
      cases rest with
      | nil => simp at second
      | cons next more => exact ⟨more, by simpa using second⟩
    exact notComment ⟨more, rfl⟩
  have noBracket : byte = b '[' → longBracket (byte :: rest) = none := by
    intro bracket
    apply longBracket_none
    rintro ⟨level, after, whole⟩
    obtain ⟨notAgain, notEquals⟩ := notLong bracket
    cases level with
    | zero => exact notAgain (by rw [← (List.cons.inj whole).2]; rfl)
    | succ level => exact notEquals (by rw [← (List.cons.inj whole).2]; rfl)
  have stepped := @step_other (Utf8.bytes source) rest ⟨names, i, line, previous⟩ byte here notSpace
    notDash notQuote noBracket notDigit notName
  have notNewline : byte ≠ b '\n' := by
    rintro rfl
    exact absurd notSpace (by decide)
  rw [scan_step inside stepped, found_other (by decide), List.append_nil, count_cons_newline,
    if_neg notNewline]
  rfl

end PassesKinds

/-- The scan passes every lexeme but a short comment that a bare carriage return ends. -/
theorem passes_takes {source : String} {lexeme : Lexeme} {rest : List UInt8}
    (takes : Takes lexeme rest) (calm : ¬ lexeme.ReturnEnds rest) : Passes source lexeme rest := by
  cases takes with
  | blank blank => exact passes_blank blank
  | longComment long => exact passes_longComment long
  | shortComment sameLine ends short => exact passes_shortComment sameLine ends short calm
  | name starts parts ends => exact passes_name starts parts ends
  | numeral numeral ends => exact passes_numeral numeral ends
  | longString long => exact passes_longString long
  | shortString known quoted => exact passes_shortString known quoted
  | longSymbol known longest =>
      have shapes : ∀ text ∈ longSymbols, text ≠ [] ∧ ∀ byte ∈ text, isPlain byte = true := by decide
      exact passes_plain (shapes _ known).1 (shapes _ known).2
  | symbol single => exact passes_symbol single

end FusionPipeline.Lua
