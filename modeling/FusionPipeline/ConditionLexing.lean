import FusionPipeline.PathText
import FusionPipeline.Condition

/-! What the lexer takes as one token: the texts of paths, words, operators and literals. -/

namespace FusionPipeline

open Regex (b)
open Utf8 (encode size)

variable {Float : Type} (parseFloat : List Char → Option Float)

def Scans (text : List Char) (tok : Tok Float) (after : List Char) : Prop :=
  ∀ before tokens, lexRound parseFloat (before ++ (text ++ after)) ⟨tokens, size before⟩ =
    .ok ⟨tokens ++ [⟨tok, size before, String.ofList text⟩], size (before ++ text)⟩

inductive Lexes : Nat → List Char → List (Token Float) → Prop where
  | done (start : Nat) : Lexes start [] []
  | space {start : Nat} {rest : List Char} {tokens : List (Token Float)}
      (more : Lexes (start + 1) rest tokens) : Lexes start (' ' :: rest) tokens
  | token {start : Nat} {text rest : List Char} {tok : Tok Float} {tokens : List (Token Float)}
      (named : text ≠ []) (here : Scans parseFloat text tok rest)
      (more : Lexes (start + size text) rest tokens) :
      Lexes start (text ++ rest) (⟨tok, start, String.ofList text⟩ :: tokens)

variable {parseFloat}

theorem byte_at (before after : List Char) :
    (encode (before ++ after))[size before]? = (encode after).head? := by
  rw [← Utf8.drop_encode before after, List.head?_drop]

theorem size_pos {text : List Char} (named : text ≠ []) : 0 < size text := by
  obtain ⟨char, rest, rfl⟩ := List.exists_cons_of_ne_nil named
  have positive := char.utf8Size_pos
  rw [Utf8.size_cons]
  omega

theorem lexRound_space (before rest : List Char) (tokens : List (Token Float)) :
    lexRound parseFloat (before ++ ' ' :: rest) ⟨tokens, size before⟩ =
      .ok ⟨tokens, size before + 1⟩ := by
  rw [lexRound]
  dsimp only
  rw [byte_at, Utf8.encode_cons_ascii (by decide), List.head?_cons]
  dsimp only
  rw [if_pos (.inl rfl)]

theorem lexFrom_lexes {start : Nat} {text : List Char} {tokens : List (Token Float)}
    (lexes : Lexes parseFloat start text tokens) {expr before : List Char}
    {read : List (Token Float)} {fuel : Nat} (same : expr = before ++ text)
    (here : start = size before) (enough : size text ≤ fuel) :
    Loop.run (fun state : Lexed Float => state.i < size expr) (lexRound parseFloat expr) fuel
        ⟨read, start⟩ = .ok ⟨read ++ tokens, size expr⟩ := by
  induction lexes generalizing before read fuel with
  | done start =>
      rw [List.append_nil] at same
      rw [Loop.run_done, List.append_nil, same, here]
      simp [same, here]
  | @space start rest tokens more ih =>
      rw [Utf8.size_cons, Utf8.utf8Size_ascii (show ' '.toNat < 0x80 by decide)] at enough
      obtain ⟨fuel, rfl⟩ := Nat.exists_eq_succ_of_ne_zero (show fuel ≠ 0 by omega)
      have cut : expr = (before ++ [' ']) ++ rest := by simp [same]
      have inside : start < size expr := by
        rw [same, here, Utf8.size_append, Utf8.size_cons,
          Utf8.utf8Size_ascii (show ' '.toNat < 0x80 by decide)]
        omega
      rw [Loop.run, if_pos (decide_eq_true inside), same, here, lexRound_space, ← same, ← here]
      refine ih cut ?_ (by omega)
      rw [Utf8.size_append, here]
      rfl
  | @token start text rest tok tokens named scans more ih =>
      have positive := size_pos named
      rw [Utf8.size_append] at enough
      obtain ⟨fuel, rfl⟩ := Nat.exists_eq_succ_of_ne_zero (show fuel ≠ 0 by omega)
      have cut : expr = (before ++ text) ++ rest := by simp [same]
      have inside : start < size expr := by
        rw [same, here, Utf8.size_append, Utf8.size_append]
        omega
      rw [Loop.run, if_pos (decide_eq_true inside), same, here, scans before read, ← same]
      have later := @ih (before ++ text) (read ++ [⟨tok, start, String.ofList text⟩]) fuel cut
        (by rw [Utf8.size_append, here]) (by omega)
      rw [List.append_assoc, List.singleton_append, here, ← Utf8.size_append] at later
      exact later

theorem lex_lexes {text : List Char} {tokens : List (Token Float)}
    (lexes : Lexes parseFloat 0 text tokens) : lex parseFloat text = .ok tokens := by
  rw [lex, lexFrom, lexFrom_lexes lexes (List.nil_append text).symm rfl (Nat.le_refl _)]
  rfl

theorem scans_of_lexToken {char : Char} {text after : List Char} {tok : Tok Float}
    (ascii : char.toNat < 0x80)
    (notSpace : char ≠ ' ' ∧ char ≠ '\t' ∧ char ≠ '\n' ∧ char ≠ '\r')
    (takes : ∀ before, lexToken parseFloat (before ++ (char :: text ++ after)) char.toUInt8
      (size before) = .ok (tok, size (before ++ char :: text))) :
    Scans parseFloat (char :: text) tok after := by
  intro before tokens
  have byte {other : Char} (wide : other.toNat < 0x80) (differ : char ≠ other) :
      char.toUInt8 ≠ other.toUInt8 :=
    Utf8.ne_of_mem_utf8EncodeChar wide differ _ (by rw [Utf8.utf8EncodeChar_ascii ascii]; simp)
  have text_ := @slice_between ConditionError before (char :: text) after
  rw [List.append_assoc, ← Utf8.size_append] at text_
  rw [lexRound]
  dsimp only
  rw [byte_at, List.cons_append, Utf8.encode_cons_ascii ascii, List.head?_cons]
  dsimp only
  rw [if_neg, ← List.cons_append, takes before, Fallible.ok_bind]
  · dsimp only
    rw [text_]
    rfl
  · rintro (same | same | same | same)
    · exact byte (by decide) notSpace.1 same
    · exact byte (by decide) notSpace.2.1 same
    · exact byte (by decide) notSpace.2.2.1 same
    · exact byte (by decide) notSpace.2.2.2 same

theorem takeWhile_encode {kind : UInt8 → Bool} {text after : List Char}
    (goes : ∀ char ∈ text, char.toNat < 0x80 ∧ kind char.toUInt8 = true)
    (stops : ∀ byte, (encode after).head? = some byte → kind byte = false) :
    (encode (text ++ after)).takeWhile kind = encode text := by
  induction text with
  | nil =>
      rw [List.nil_append, Utf8.encode_nil]
      cases first : encode after with
      | nil => rfl
      | cons byte rest =>
          rw [List.takeWhile_cons, stops byte (by rw [first]; rfl)]
          rfl
  | cons char text ih =>
      obtain ⟨⟨ascii, here⟩, others⟩ := List.forall_mem_cons.mp goes
      rw [List.cons_append, Utf8.encode_cons_ascii ascii, Utf8.encode_cons_ascii ascii,
        List.takeWhile_cons, here, ih others]
      rfl

theorem segmentChar_ascii {char : Char} (plain : isSegmentChar char = true) :
    char.toNat < 0x80 := by
  simp only [isSegmentChar, Bool.or_eq_true, Bool.and_eq_true, decide_eq_true_eq, beq_iff_eq,
    Char.le_def, UInt32.le_iff_toNat_le] at plain
  rw [Char.toNat]
  rcases plain with (((⟨_, high⟩ | ⟨_, high⟩) | ⟨_, high⟩) | rfl) | rfl
  · exact Nat.lt_of_le_of_lt high (by decide)
  · exact Nat.lt_of_le_of_lt high (by decide)
  · exact Nat.lt_of_le_of_lt high (by decide)
  · decide
  · decide

theorem segmentChar_continues {char : Char} (plain : isSegmentChar char = true) :
    continuesBareSegment char.toUInt8 = true := by
  have others : ∀ other ∈ [' ', '\t', '\n', '\r', '.', '(', ')', '[', ']', '=', '!', '<', '>', '"',
      '\''], isSegmentChar other = false ∧ other.toNat < 0x80 := by decide
  rw [continuesBareSegment, Bool.not_eq_true', Bool.eq_false_iff]
  intro listed
  obtain ⟨other, member, same⟩ := List.mem_map.mp
    (show char.toUInt8 ∈ [' ', '\t', '\n', '\r', '.', '(', ')', '[', ']', '=', '!', '<', '>', '"',
      '\''].map b from List.contains_iff_mem.mp listed)
  obtain ⟨notPlain, ascii⟩ := others other member
  refine @Utf8.ne_of_mem_utf8EncodeChar char other ascii ?_ char.toUInt8 ?_ same.symm
  · rintro rfl
    rw [plain] at notPlain
    cases notPlain
  · rw [Utf8.utf8EncodeChar_ascii (segmentChar_ascii plain)]
    exact List.mem_singleton_self _

def EndsSegment (after : List Char) : Prop :=
  ∀ byte, (encode after).head? = some byte → continuesBareSegment byte = false

structure EndsPath (after : List Char) : Prop where
  segment : EndsSegment after
  dot : (encode after).head? ≠ some (b '.')
  bracket : (encode after).head? ≠ some (b '[')
  quote : (encode after).head? ≠ some (b '"')

theorem bareEnd_text {text after : List Char} (before : List Char)
    (plain : ∀ char ∈ text, isSegmentChar char = true) (ends : EndsSegment after) :
    bareEnd (encode (before ++ (text ++ after))) (size before) = size (before ++ text) := by
  rw [bareEnd, Utf8.drop_encode, takeWhile_encode _ ends, Utf8.size_append]
  · rfl
  · exact fun char member => ⟨segmentChar_ascii (plain char member),
      segmentChar_continues (plain char member)⟩

theorem pathRound_segment {text after : List Char} {segment : String} (before : List Char)
    (start : Nat) (here : SegmentText text segment) (ends : EndsSegment after) :
    pathRound (before ++ '.' :: (text ++ after)) start (size before) =
      .ok (size (before ++ '.' :: text)) := by
  have dot : size before + 1 = size (before ++ ['.']) := by
    rw [Utf8.size_append]
    rfl
  have next : before ++ '.' :: (text ++ after) = (before ++ ['.']) ++ (text ++ after) := by simp
  have whole : before ++ '.' :: text = (before ++ ['.']) ++ text := by simp
  have first := byte_at before ('.' :: (text ++ after))
  rw [Utf8.encode_cons_ascii (by decide), List.head?_cons] at first
  rw [pathRound, if_pos first, dot, next, byte_at, whole]
  cases here with
  | bare named plain =>
      rw [if_neg, bareEnd_text _ plain ends]
      obtain ⟨char, rest, rfl⟩ := List.exists_cons_of_ne_nil named
      have isPlain := plain char List.mem_cons_self
      have ascii := segmentChar_ascii isPlain
      rw [List.cons_append, Utf8.encode_cons_ascii ascii, List.head?_cons, Option.some.injEq]
      refine Utf8.ne_of_mem_utf8EncodeChar (by decide) (segmentChar_plain isPlain).1 _ ?_
      rw [Utf8.utf8EncodeChar_ascii ascii]
      exact List.mem_singleton_self _
  | @quoted body name escaped named =>
      have closes := quotedEnd_quotable (by decide) (by decide) escaped.quotable (before ++ ['.']) after
      have stop : size (before ++ ['.']) + size body + 2 =
          size (before ++ ['.'] ++ '"' :: (body ++ ['"'])) := by
        simp only [Utf8.size_append, Utf8.size_cons, quote_size, Utf8.size_nil]
        omega
      have bare := @bareEnd_text [] after (before ++ ['.'] ++ '"' :: (body ++ ['"']))
        (fun char member => nomatch member) ends
      rw [List.cons_append, List.append_assoc, List.singleton_append,
        Utf8.encode_cons_ascii (by decide), List.head?_cons, if_pos rfl, closes, stop]
      have cut : before ++ ['.'] ++ '"' :: (body ++ '"' :: after) =
          (before ++ ['.'] ++ '"' :: (body ++ ['"'])) ++ ([] ++ after) := by
        simp
      dsimp only
      rw [cut, bare, List.append_nil]

section Paths

variable {after : List Char} (ends : EndsPath after)
include ends

theorem pathRounds_done {expr front : List Char} {start : Nat} (same : expr = front ++ after)
    (fuel : Nat) :
    Loop.run (fun i => (encode expr)[i]? == some (b '.') || (encode expr)[i]? == some (b '['))
      (pathRound expr start) fuel (size front) = .ok (size front) := by
  refine Loop.run_done ?_ fuel
  rw [same, byte_at, Bool.or_eq_false_iff]
  exact ⟨beq_false_of_ne ends.dot, beq_false_of_ne ends.bracket⟩

theorem pathRounds_segments {text : List Char} {segments : List String}
    (isText : SegmentsText text segments) {expr before : List Char} {start fuel : Nat}
    (same : expr = before ++ '.' :: (text ++ after)) (enough : size text < fuel) :
    Loop.run (fun i => (encode expr)[i]? == some (b '.') || (encode expr)[i]? == some (b '['))
      (pathRound expr start) fuel (size before) = .ok (size (before ++ '.' :: text)) := by
  have goes {before rest : List Char} (same : expr = before ++ '.' :: rest) :
      ((encode expr)[size before]? == some (b '.') ||
        (encode expr)[size before]? == some (b '[')) = true := by
    rw [same, byte_at, Utf8.encode_cons_ascii (by decide), List.head?_cons]
    rfl
  induction isText generalizing before fuel with
  | @last text segment here =>
      obtain ⟨fuel, rfl⟩ := Nat.exists_eq_succ_of_ne_zero (show fuel ≠ 0 by omega)
      have cut : expr = (before ++ '.' :: text) ++ after := by simp [same]
      rw [Loop.run, if_pos (goes same)]
      refine Fallible.bind_ok_iff.mpr ⟨_, ?_, pathRounds_done ends cut fuel⟩
      rw [same]
      exact pathRound_segment before start here ends.segment
  | @more text rest segment segments here later ih =>
      obtain ⟨fuel, rfl⟩ := Nat.exists_eq_succ_of_ne_zero (show fuel ≠ 0 by omega)
      rw [Utf8.size_append, Utf8.size_cons,
        Utf8.utf8Size_ascii (show '.'.toNat < 0x80 by decide)] at enough
      have cut : expr = (before ++ '.' :: text) ++ '.' :: (rest ++ after) := by simp [same]
      have whole : before ++ '.' :: (text ++ '.' :: rest) =
          (before ++ '.' :: text) ++ '.' :: rest := by simp
      have dotEnds : EndsSegment ('.' :: (rest ++ after)) := by
        intro byte first
        rw [Utf8.encode_cons_ascii (by decide), List.head?_cons] at first
        rw [← Option.some.inj first]
        decide
      have first := @pathRound_segment text ('.' :: (rest ++ after)) segment before start here dotEnds
      rw [← List.cons_append, ← List.append_assoc, ← cut] at first
      rw [Loop.run, if_pos (goes same), whole]
      exact Fallible.bind_ok_iff.mpr ⟨_, first, ih cut (by omega)⟩

theorem pathRounds_whole {expr before : List Char} {start fuel : Nat}
    (same : expr = before ++ '.' :: after) (enough : 0 < fuel) :
    Loop.run (fun i => (encode expr)[i]? == some (b '.') || (encode expr)[i]? == some (b '['))
      (pathRound expr start) fuel (size before) = .ok (size (before ++ ['.'])) := by
  obtain ⟨fuel, rfl⟩ := Nat.exists_eq_succ_of_ne_zero (Nat.ne_of_gt enough)
  have cut : expr = (before ++ ['.']) ++ after := by simp [same]
  have here : (encode expr)[size before]? = some (b '.') := by
    rw [same, byte_at, Utf8.encode_cons_ascii (by decide), List.head?_cons]
  have dot : size before + 1 = size (before ++ ['.']) := by
    rw [Utf8.size_append]
    rfl
  have bare := @bareEnd_text [] after (before ++ ['.']) (fun char member => nomatch member)
    ends.segment
  rw [List.nil_append, List.append_nil, ← cut] at bare
  rw [Loop.run, if_pos (by rw [here]; rfl)]
  refine Fallible.bind_ok_iff.mpr ⟨_, ?_, pathRounds_done ends cut fuel⟩
  rw [pathRound, if_pos here, if_neg, dot, bare]
  rw [dot, cut, byte_at]
  exact ends.quote

end Paths

theorem lexPath_ok {before text after : List Char} {i : Nat}
    (ran : lexPathRest (before ++ (text ++ after)) (size before) i = .ok (size (before ++ text))) :
    lexPath (before ++ (text ++ after)) (size before) i =
      (.ok (.path (String.ofList text), size (before ++ text)) :
        Except (Fault ConditionError) (Tok Float × Nat)) := by
  have name := @slice_between ConditionError before text after
  rw [List.append_assoc, ← Utf8.size_append] at name
  rw [lexPath, ran, Fallible.ok_bind, name]
  rfl

theorem scans_rooted {text after : List Char} {field : FieldPath}
    (isText : PathText ('.' :: text) field) (ends : EndsPath after) :
    Scans parseFloat ('.' :: text) (.path (String.ofList ('.' :: text))) after := by
  refine scans_of_lexToken (by decide) (by decide) ?_
  intro before
  have body (expr : List Char) (start : Nat) :
      lexToken parseFloat expr '.'.toUInt8 start = lexPath expr start start := by
    rw [lexToken, if_neg (by decide), if_neg (by decide), if_neg (by decide), if_neg (by decide),
      if_pos rfl]
  rw [body]
  refine lexPath_ok ?_
  rw [lexPathRest]
  cases isText with
  | whole =>
      refine pathRounds_whole ends rfl ?_
      rw [Utf8.size_append, List.cons_append, Utf8.size_cons]
      have positive := '.'.utf8Size_pos
      omega
  | rooted isText =>
      refine pathRounds_segments ends isText rfl ?_
      rw [Utf8.size_append, Utf8.size_append, Utf8.size_cons]
      have positive := '.'.utf8Size_pos
      omega
  | bare isText => exact absurd rfl isText.head
  | meta_ isText => exact absurd rfl isText.head

theorem lexToken_word {expr : List Char} {byte : UInt8} {start : Nat}
    (starts : startsBare byte = true) :
    lexToken parseFloat expr byte start =
      if (encode expr)[bareEnd (encode expr) (start + 1)]? = some (b '.') ∨
          (encode expr)[bareEnd (encode expr) (start + 1)]? = some (b '[') then
        lexPath expr start (bareEnd (encode expr) (start + 1))
      else
        (slice expr start (bareEnd (encode expr) (start + 1))).map fun name =>
          (.ident (String.ofList name), bareEnd (encode expr) (start + 1)) := by
  have differs {other : UInt8} (not_ : startsBare other = false) : byte ≠ other := by
    rintro rfl
    rw [starts] at not_
    cases not_
  have notDigit : isDigitByte byte = false := by
    simp only [startsBare, isDigitByte, Bool.or_eq_true, Bool.and_eq_true, decide_eq_true_eq,
      beq_iff_eq, UInt8.le_iff_toNat_le, Bool.and_eq_false_iff, decide_eq_false_iff_not] at starts ⊢
    right
    rcases starts with (⟨low, _⟩ | ⟨low, _⟩) | rfl
    · exact Nat.not_le_of_lt (Nat.lt_of_lt_of_le (by decide) low)
    · exact Nat.not_le_of_lt (Nat.lt_of_lt_of_le (by decide) low)
    · decide
  rw [lexToken, if_neg (differs (by decide)), if_neg (differs (by decide)), if_neg, if_neg,
    if_neg (differs (by decide)), if_neg, if_pos starts]
  · rintro (same | digit)
    · exact differs (by decide) same
    · rw [notDigit] at digit
      cases digit
  · rintro (same | same) <;> exact differs (by decide) same
  · rintro (same | same | same | same) <;> exact differs (by decide) same

section Words

variable {char : Char} {rest : List Char} (starts : startsBare char.toUInt8 = true)
  (plain : ∀ other ∈ char :: rest, isSegmentChar other = true)
include plain

theorem wordEnd {after : List Char} (before : List Char) (ends : EndsSegment after) :
    bareEnd (encode (before ++ (char :: rest ++ after))) (size before + 1) =
      size (before ++ char :: rest) := by
  have one : size before + 1 = size (before ++ [char]) := by
    rw [Utf8.size_append, Utf8.size_cons,
      Utf8.utf8Size_ascii (segmentChar_ascii (plain char List.mem_cons_self))]
    rfl
  have bare := bareEnd_text (before ++ [char])
    (fun other member => plain other (List.mem_cons_of_mem char member)) ends
  rw [List.append_assoc, List.append_assoc, List.singleton_append, List.singleton_append] at bare
  rw [one, List.cons_append, bare]

theorem word_notSpace : char ≠ ' ' ∧ char ≠ '\t' ∧ char ≠ '\n' ∧ char ≠ '\r' := by
  have here := plain char List.mem_cons_self
  refine ⟨?_, ?_, ?_, ?_⟩ <;> (rintro rfl; exact absurd here (by decide))

include starts

theorem scans_word {after : List Char} (ends : EndsPath after) :
    Scans parseFloat (char :: rest) (.ident (String.ofList (char :: rest))) after := by
  refine scans_of_lexToken (segmentChar_ascii (plain char List.mem_cons_self))
    (word_notSpace plain) ?_
  intro before
  have name := @slice_between ConditionError before (char :: rest) after
  rw [List.append_assoc, ← Utf8.size_append] at name
  rw [lexToken_word starts, wordEnd plain before ends.segment, if_neg, name]
  · rfl
  · rw [← List.append_assoc, byte_at]
    rintro (dot | bracket)
    · exact ends.dot dot
    · exact ends.bracket bracket

theorem scans_dotted {more after : List Char} {segments : List String}
    (isText : SegmentsText more segments) (ends : EndsPath after) :
    Scans parseFloat (char :: (rest ++ '.' :: more))
      (.path (String.ofList (char :: (rest ++ '.' :: more)))) after := by
  refine scans_of_lexToken (segmentChar_ascii (plain char List.mem_cons_self))
    (word_notSpace plain) ?_
  intro before
  have cut : before ++ (char :: (rest ++ '.' :: more) ++ after) =
      (before ++ char :: rest) ++ '.' :: (more ++ after) := by
    simp
  have dotEnds : EndsSegment ('.' :: (more ++ after)) := by
    intro byte first
    rw [Utf8.encode_cons_ascii (by decide), List.head?_cons] at first
    rw [← Option.some.inj first]
    decide
  have stop := wordEnd plain before dotEnds
  rw [← List.append_assoc, ← cut] at stop
  rw [lexToken_word starts, stop, if_pos]
  · refine lexPath_ok ?_
    rw [lexPathRest, show before ++ char :: (rest ++ '.' :: more) =
      (before ++ char :: rest) ++ '.' :: more by simp]
    refine pathRounds_segments ends isText cut ?_
    rw [cut, Utf8.size_append _ ('.' :: (more ++ after)), Utf8.size_cons '.', Utf8.size_append more]
    have positive := '.'.utf8Size_pos
    omega
  · rw [cut, byte_at, Utf8.encode_cons_ascii (by decide), List.head?_cons]
    exact .inl rfl

end Words

def startsWord (char : Char) : Bool :=
  char.isAlpha || char == '_'

theorem startsBare_of_startsWord {char : Char} (starts : startsWord char = true) :
    startsBare char.toUInt8 = true := by
  have letters : startsWord char = (decide (char.val ≥ 'A'.val ∧ char.val ≤ 'Z'.val) ||
      decide (char.val ≥ 'a'.val) && decide (char.val ≤ 'z'.val) || char == '_') := by
    rfl
  simp only [letters, Bool.or_eq_true, Bool.and_eq_true, decide_eq_true_eq, beq_iff_eq, ge_iff_le,
    UInt32.le_iff_toNat_le] at starts
  have bound : char.toNat < 0x80 := by
    rw [Char.toNat]
    rcases starts with (⟨_, high⟩ | ⟨_, high⟩) | rfl
    · exact Nat.lt_of_le_of_lt high (by decide)
    · exact Nat.lt_of_le_of_lt high (by decide)
    · decide
  have value := Utf8.toNat_toUInt8 bound
  simp only [startsBare, Bool.or_eq_true, Bool.and_eq_true, decide_eq_true_eq, beq_iff_eq,
    UInt8.le_iff_toNat_le, value]
  rcases starts with (⟨low, high⟩ | ⟨low, high⟩) | rfl
  · exact .inl (.inr ⟨low, high⟩)
  · exact .inl (.inl ⟨low, high⟩)
  · exact .inr rfl

/-- The lexer takes the whole text of a path as one token. -/
theorem scans_path {text after : List Char} {char : Char} {field : FieldPath}
    (isText : PathText text field) (first : text.head? = some char)
    (starts : char = '.' ∨ startsWord char = true) (ends : EndsPath after) :
    ∃ tok : Tok Float, (tok = .ident (String.ofList text) ∨ tok = .path (String.ofList text)) ∧
      Scans parseFloat text tok after := by
  obtain ⟨rest, rfl⟩ := List.head?_eq_some_iff.mp first
  have unrooted {segments : List String} (isText : SegmentsText (char :: rest) segments) :
      ∃ tok : Tok Float,
        (tok = .ident (String.ofList (char :: rest)) ∨
          tok = .path (String.ofList (char :: rest))) ∧ Scans parseFloat (char :: rest) tok after := by
    have starts : startsWord char = true := by
      refine starts.resolve_left ?_
      rintro rfl
      exact isText.head rfl
    generalize same : char :: rest = text at isText
    cases isText with
    | last here =>
        cases here with
        | bare named plain =>
            rw [← same] at plain ⊢
            exact ⟨_, .inl rfl, scans_word (startsBare_of_startsWord starts) plain ends⟩
        | quoted escaped named =>
            obtain ⟨rfl, -⟩ := List.cons.inj same
            exact absurd starts (by decide)
    | @more word later segment segments here later =>
        cases here with
        | bare named plain =>
            obtain ⟨head, others, rfl⟩ := List.exists_cons_of_ne_nil named
            obtain ⟨rfl, rfl⟩ := List.cons.inj same
            exact ⟨_, .inr rfl, scans_dotted (startsBare_of_startsWord starts) plain later ends⟩
        | quoted escaped named =>
            obtain ⟨rfl, -⟩ := List.cons.inj same
            exact absurd starts (by decide)
  by_cases dot : char = '.'
  · subst dot
    exact ⟨_, .inr rfl, scans_rooted isText ends⟩
  · generalize same : char :: rest = text at isText
    cases isText with
    | whole => exact absurd (List.cons.inj same).1 dot
    | rooted isText => exact absurd (List.cons.inj same).1 dot
    | bare isText =>
        rw [← same] at isText ⊢
        exact unrooted isText
    | meta_ isText =>
        rw [← same] at isText ⊢
        exact unrooted isText

end FusionPipeline
