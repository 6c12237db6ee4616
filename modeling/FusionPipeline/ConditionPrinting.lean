import FusionPipeline.ConditionTokens
import FusionPipeline.PathPrinting

/-! Conditions printed with their grammar, and read back. -/

namespace FusionPipeline

open Regex (b)
open Utf8 (encode size)

variable {Float : Type}

def FieldPath.print (path : FieldPath) : List Char :=
  match path.target with
  | .meta_ _ => path.display
  | .record _ => if path.display.head? = some '.' then path.display else '.' :: path.display

section Print

variable (printFloat : Float → List Char)

def Literal.print : Literal Float → List Char
  | null => ['n', 'u', 'l', 'l']
  | bool true => ['t', 'r', 'u', 'e']
  | bool false => ['f', 'a', 'l', 's', 'e']
  | int value => value.repr.toList
  | float value => printFloat value
  | str text => '"' :: (quoteString text.toList ++ ['"'])

/-- The text of an operand: a comparison as it is, any other condition in parentheses. -/
def Condition.enclose (text : List Char) : Condition Float → List Char
  | compare .. => text
  | _ => '(' :: (text ++ [')'])

def Condition.print : Condition Float → List Char
  | compare field op literal => field.print ++ ' ' :: (op.symbol ++ ' ' :: literal.print printFloat)
  | and left right =>
      left.enclose (print left) ++ ' ' :: 'a' :: 'n' :: 'd' :: ' ' :: right.enclose (print right)
  | or left right =>
      left.enclose (print left) ++ ' ' :: 'o' :: 'r' :: ' ' :: right.enclose (print right)
  | not inner => 'n' :: 'o' :: 't' :: ' ' :: inner.enclose (print inner)

end Print

def Literal.Exact : Literal Float → Prop
  | int value => -(2 ^ 127) ≤ value ∧ value < 2 ^ 127
  | float _ => False
  | _ => True

def Condition.Exact : Condition Float → Prop
  | compare _ op literal => literal.Exact ∧ (op.isRegex = true → literal.isStr = true)
  | and left right | or left right => left.Exact ∧ right.Exact
  | not inner => inner.Exact

def Condition.Named : Condition Float → Prop
  | compare field _ _ => field.Named
  | and left right | or left right => left.Named ∧ right.Named
  | not inner => inner.Named

variable {parseFloat : List Char → Option Float}

variable (parseFloat) in
def Lexemes (text : List Char) (toks : List (Tok Float)) : Prop :=
  ∀ start, ∃ tokens, Lexes parseFloat start text tokens ∧ tokens.map Token.tok = toks

theorem Lexemes.done : Lexemes parseFloat [] [] := by
  intro start
  exact ⟨[], Lexes.done start, rfl⟩

theorem Lexemes.space {rest : List Char} {toks : List (Tok Float)} (reads : Lexemes parseFloat rest toks) :
    Lexemes parseFloat (' ' :: rest) toks := by
  intro start
  obtain ⟨tokens, lexes, same⟩ := reads (start + 1)
  exact ⟨tokens, Lexes.space lexes, same⟩

theorem Lexemes.token {text rest : List Char} {tok : Tok Float} {toks : List (Tok Float)}
    (named : text ≠ []) (scans : Scans parseFloat text tok rest) (reads : Lexemes parseFloat rest toks) :
    Lexemes parseFloat (text ++ rest) (tok :: toks) := by
  intro start
  obtain ⟨tokens, lexes, same⟩ := reads (start + size text)
  refine ⟨_, Lexes.token named scans lexes, ?_⟩
  rw [List.map_cons, same]

/-- A text after which a printed condition may stand: none, or one that starts with a space or
a closing parenthesis. -/
def Breaks (rest : List Char) : Prop :=
  ∀ char, rest.head? = some char → char = ' ' ∨ char = ')'

theorem Breaks.byte {rest : List Char} (breaks : Breaks rest) {byte : UInt8}
    (first : (encode rest).head? = some byte) : byte = b ' ' ∨ byte = b ')' := by
  cases rest with
  | nil => cases first
  | cons char rest =>
      rcases breaks char rfl with rfl | rfl
      · rw [Utf8.encode_cons_ascii (by decide), List.head?_cons] at first
        exact .inl (Option.some.inj first).symm
      · rw [Utf8.encode_cons_ascii (by decide), List.head?_cons] at first
        exact .inr (Option.some.inj first).symm

theorem Breaks.path {rest : List Char} (breaks : Breaks rest) : EndsPath rest := by
  refine ⟨?_, ?_, ?_, ?_⟩
  · intro byte first
    rcases breaks.byte first with rfl | rfl <;> decide
  · intro first
    rcases breaks.byte first with same | same <;> exact absurd same (by decide)
  · intro first
    rcases breaks.byte first with same | same <;> exact absurd same (by decide)
  · intro first
    rcases breaks.byte first with same | same <;> exact absurd same (by decide)

theorem Breaks.number {rest : List Char} (breaks : Breaks rest) : EndsNumber rest := by
  intro byte first
  rcases breaks.byte first with rfl | rfl <;> decide

theorem breaks_space (rest : List Char) : Breaks (' ' :: rest) := by
  intro char first
  exact .inl (Option.some.inj first).symm

theorem scans_keyword {word rest : List Char} {char : Char} (starts : startsWord char = true)
    (plain : ∀ other ∈ char :: word, isSegmentChar other = true) (breaks : Breaks rest) :
    Scans parseFloat (char :: word) (.ident (String.ofList (char :: word))) rest :=
  scans_word (startsBare_of_startsWord starts) plain breaks.path

theorem scans_literal {printFloat : Float → List Char} {literal : Literal Float}
    (exact_ : literal.Exact) {rest : List Char} (breaks : Breaks rest) :
    ∃ tok, LiteralToken tok literal ∧ literal.print printFloat ≠ [] ∧
      Scans parseFloat (literal.print printFloat) tok rest := by
  cases literal with
  | null =>
      exact ⟨_, LiteralToken.null, List.cons_ne_nil _ _, scans_keyword (by decide) (by decide) breaks⟩
  | bool value =>
      cases value with
      | true =>
          exact ⟨_, LiteralToken.true_, List.cons_ne_nil _ _,
            scans_keyword (by decide) (by decide) breaks⟩
      | false =>
          exact ⟨_, LiteralToken.false_, List.cons_ne_nil _ _,
            scans_keyword (by decide) (by decide) breaks⟩
  | int value =>
      refine ⟨_, LiteralToken.int value, ?_, scans_int exact_ breaks.number⟩
      intro empty
      have isValue := parseI128_repr exact_
      rw [Literal.print] at empty
      rw [empty] at isValue
      cases isValue
  | float value => exact exact_.elim
  | str text =>
      have scans := @scans_string Float parseFloat text.toList rest
      rw [String.ofList_toList] at scans
      exact ⟨_, LiteralToken.str text, List.cons_ne_nil _ _, scans⟩

theorem pathText_print {field : FieldPath} (named : field.Named) :
    PathText field.print field ∧
      ∃ char, field.print.head? = some char ∧ (char = '.' ∨ char = 'm') := by
  have isText := pathText_display named
  obtain ⟨target⟩ := field
  cases target with
  | meta_ name =>
      refine ⟨isText, 'm', ?_, .inr rfl⟩
      rfl
  | record segments =>
      rw [FieldPath.print]
      dsimp only
      split
      next dotted => exact ⟨isText, '.', dotted, .inl rfl⟩
      next notDotted =>
        refine ⟨?_, '.', rfl, .inl rfl⟩
        generalize FieldPath.display ⟨.record segments⟩ = text at isText notDotted
        cases isText with
        | whole => exact absurd rfl notDotted
        | rooted isText => exact absurd rfl notDotted
        | bare isText notMeta => exact PathText.rooted isText

variable (parseFloat) in
/-- Wherever a condition may end, the text lexes to tokens that derive it. -/
def Written (level : Level) (condition : Condition Float) (text : List Char) : Prop :=
  ∀ rest toks, Breaks rest → Lexemes parseFloat rest toks →
    ∃ used, Lexemes parseFloat (text ++ rest) (used ++ toks) ∧
      ∀ tokens : List (Token Float), tokens.map Token.tok = used → Derives level tokens condition

namespace Written

variable {condition left right : Condition Float} {text before after : List Char}

theorem toAnd (written : Written parseFloat .not condition text) :
    Written parseFloat .and condition text := by
  intro rest toks breaks lexemes
  obtain ⟨used, whole, derives⟩ := written rest toks breaks lexemes
  exact ⟨used, whole, fun tokens same => Derives.andOne (derives tokens same)⟩

theorem toOr (written : Written parseFloat .and condition text) :
    Written parseFloat .or condition text := by
  intro rest toks breaks lexemes
  obtain ⟨used, whole, derives⟩ := written rest toks breaks lexemes
  exact ⟨used, whole, fun tokens same => Derives.orOne (derives tokens same)⟩

theorem compare {printFloat : Float → List Char} {field : FieldPath} {op : CompareOp}
    {literal : Literal Float} (named : field.Named) (exact_ : literal.Exact)
    (pattern : op.isRegex = true → literal.isStr = true) :
    Written parseFloat .not (.compare field op literal)
      (Condition.print printFloat (.compare field op literal)) := by
  intro rest toks breaks lexemes
  obtain ⟨operand, isLiteral, literalNamed, scansLiteral⟩ :=
    @scans_literal _ parseFloat printFloat _ exact_ _ breaks
  have symbolNamed : op.symbol ≠ [] := by
    cases op <;> exact List.cons_ne_nil _ _
  have operator := Lexemes.token symbolNamed (scans_op op (literal.print printFloat ++ rest))
    (Lexemes.space (Lexemes.token literalNamed scansLiteral lexemes))
  obtain ⟨isText, char, first, starts⟩ := pathText_print named
  have startsPath : char = '.' ∨ startsWord char = true := by
    rcases starts with rfl | rfl
    · exact .inl rfl
    · exact .inr (by decide)
  obtain ⟨path, isPath, scansPath⟩ := @scans_path _ parseFloat _ _ _ _ isText first startsPath
    (endsPath_space (op.symbol ++ ' ' :: (literal.print printFloat ++ rest)))
  have pathNamed : field.print ≠ [] := by
    intro empty
    rw [empty] at first
    cases first
  have whole := Lexemes.token pathNamed scansPath (Lexemes.space operator)
  refine ⟨[path, .op op, operand], ?_, ?_⟩
  · rw [Condition.print, List.append_assoc, List.cons_append, List.append_assoc, List.cons_append]
    exact whole
  · intro tokens same
    obtain ⟨token, others, rfl, isToken, two⟩ := List.map_eq_cons_iff.mp same
    obtain ⟨operator, others, rfl, isOp, one⟩ := List.map_eq_cons_iff.mp two
    obtain ⟨last, others, rfl, isLast, none_⟩ := List.map_eq_cons_iff.mp one
    obtain rfl := List.map_eq_nil_iff.mp none_
    rw [← isToken] at isPath
    rw [← isLast] at isLiteral
    refine Derives.notPrimary ?_ (Derives.compare isPath ?_ isOp isLiteral pattern)
    · -- A printed path starts with a dot or is the pipeline's, so it is never the word `not`.
      intro reserved
      rw [reserved] at isPath
      rcases isPath with word | word
      · have text : field.print = ['n', 'o', 't'] := by
          rw [← @String.toList_ofList field.print, ← Tok.ident.inj word]
          rfl
        rw [text] at first
        obtain rfl := Option.some.inj first
        rcases starts with wrong | wrong <;> exact absurd wrong (by decide)
      · cases word
    · rw [FieldPath.parse_ok, String.toList_ofList]
      exact isText

theorem enclosed (written : Written parseFloat .or condition text) :
    Written parseFloat .not condition ('(' :: (text ++ [')'])) := by
  intro rest toks breaks lexemes
  have closing := Lexemes.token (List.cons_ne_nil _ _) (scans_paren (.inr ⟨rfl, rfl⟩) rest) lexemes
  have closes : Breaks ([')'] ++ rest) := by
    intro char first
    exact .inr (Option.some.inj first).symm
  obtain ⟨used, inner, derives⟩ := written _ _ closes closing
  have whole := Lexemes.token (List.cons_ne_nil _ _)
    (scans_paren (.inl ⟨rfl, rfl⟩) (text ++ ([')'] ++ rest))) inner
  refine ⟨.lParen :: (used ++ [.rParen]), ?_, ?_⟩
  · have cut : '(' :: (text ++ [')']) ++ rest = ['('] ++ (text ++ ([')'] ++ rest)) := by simp
    have inside : Tok.lParen :: (used ++ [.rParen]) ++ toks = .lParen :: (used ++ .rParen :: toks) := by
      simp
    rw [cut, inside]
    exact whole
  · intro tokens same
    obtain ⟨opener, others, rfl, opens, more⟩ := List.map_eq_cons_iff.mp same
    obtain ⟨middle, last, rfl, isMiddle, one⟩ := List.map_eq_append_iff.mp more
    obtain ⟨closer, none_, rfl, isCloser, empty⟩ := List.map_eq_cons_iff.mp one
    obtain rfl := List.map_eq_nil_iff.mp empty
    refine Derives.notPrimary ?_ (Derives.group opens (derives middle isMiddle) isCloser)
    rw [opens]
    exact fun wrong => nomatch wrong

theorem joined {level inner : Level} {join : Condition Float → Condition Float → Condition Float}
    {char : Char} {word : List Char} (starts : startsWord char = true)
    (plain : ∀ other ∈ char :: word, isSegmentChar other = true)
    (joins : ∀ {before after : List (Token Float)} {left right : Condition Float} {token : Token Float},
      Derives level before left → token.tok = .ident (String.ofList (char :: word)) →
      Derives inner after right → Derives level (before ++ token :: after) (join left right))
    (first : Written parseFloat level left before) (last : Written parseFloat inner right after) :
    Written parseFloat level (join left right) (before ++ ' ' :: (char :: word ++ ' ' :: after)) := by
  intro rest toks breaks lexemes
  obtain ⟨second, later, derivesLast⟩ := last rest toks breaks lexemes
  have keyword := Lexemes.token (List.cons_ne_nil _ _)
    (scans_keyword starts plain (breaks_space (after ++ rest))) (Lexemes.space later)
  obtain ⟨used, whole, derivesFirst⟩ := first _ _ (breaks_space _) (Lexemes.space keyword)
  refine ⟨used ++ .ident (String.ofList (char :: word)) :: second, ?_, ?_⟩
  · rw [List.append_assoc, List.append_assoc, List.cons_append, List.append_assoc]
    exact whole
  · intro tokens same
    obtain ⟨front, others, rfl, isFront, more⟩ := List.map_eq_append_iff.mp same
    obtain ⟨token, back, rfl, isKeyword, isBack⟩ := List.map_eq_cons_iff.mp more
    exact joins (derivesFirst front isFront) isKeyword (derivesLast back isBack)

theorem negated (written : Written parseFloat .not condition text) :
    Written parseFloat .not (.not condition) ('n' :: 'o' :: 't' :: ' ' :: text) := by
  intro rest toks breaks lexemes
  obtain ⟨used, inner, derives⟩ := written rest toks breaks lexemes
  have keyword := @Lexemes.token _ parseFloat ['n', 'o', 't'] _ _ _ (List.cons_ne_nil _ _)
    (scans_keyword (by decide) (by decide) (breaks_space (text ++ rest))) (Lexemes.space inner)
  refine ⟨.ident "not" :: used, keyword, ?_⟩
  intro tokens same
  obtain ⟨token, others, rfl, isNot, more⟩ := List.map_eq_cons_iff.mp same
  exact Derives.notNot isNot (derives others more)

end Written

theorem written_print {printFloat : Float → List Char} {condition : Condition Float}
    (exact_ : condition.Exact) (named : condition.Named) :
    Written parseFloat .or condition (condition.print printFloat) ∧
      Written parseFloat .not condition (condition.enclose (condition.print printFloat)) := by
  induction condition with
  | compare field op literal =>
      have written :=
        @Written.compare _ parseFloat printFloat field op literal named exact_.1 exact_.2
      exact ⟨written.toAnd.toOr, written⟩
  | and left right ihLeft ihRight =>
      have written := Written.joined (by decide) (by decide) Derives.andMore
        (ihLeft exact_.1 named.1).2.toAnd (ihRight exact_.2 named.2).2
      exact ⟨written.toOr, written.toOr.enclosed⟩
  | or left right ihLeft ihRight =>
      have written := Written.joined (by decide) (by decide) Derives.orMore
        (ihLeft exact_.1 named.1).2.toAnd.toOr (ihRight exact_.2 named.2).2.toAnd
      exact ⟨written, written.enclosed⟩
  | not inner ih =>
      have written := (ih exact_ named).2.negated
      exact ⟨written.toAnd.toOr, written.toAnd.toOr.enclosed⟩

namespace Condition

theorem parse_text (parseFloat : List Char → Option Float) (printFloat : Float → List Char)
    {condition : Condition Float} (exact_ : condition.Exact) (named : condition.Named) :
    parse parseFloat (String.ofList (condition.print printFloat)) = .ok condition := by
  have breaks : Breaks [] := fun char first => nomatch first
  obtain ⟨used, lexemes, derives⟩ :=
    (@written_print _ parseFloat printFloat _ exact_ named).1 [] [] breaks Lexemes.done
  obtain ⟨tokens, lexes, same⟩ := lexemes 0
  rw [List.append_nil] at lexes same
  refine parse_ok ?_ (derives tokens same)
  rw [String.toList_ofList]
  exact lex_lexes lexes

/-- The parser takes the derivations of the grammar and nothing else, each as the tree it
builds, and reads a condition back from its text. -/
theorem parse_print (parseFloat : List Char → Option Float) (printFloat : Float → List Char) :
    (∀ (tokens : List (Token Float)) (condition : Condition Float),
      (∃ shorter, Parser.or tokens = .ok ⟨condition, [], shorter⟩) ↔
        Derives .or tokens condition) ∧
    ∀ condition : Condition Float, condition.Exact → condition.Named →
      parse parseFloat (String.ofList (condition.print printFloat)) = .ok condition :=
  ⟨Parser.or_ok_iff, fun _ exact_ named => parse_text parseFloat printFloat exact_ named⟩

theorem parse_print_nested :
    parse (fun _ => none) (String.ofList ((Condition.and
        (.not (.compare ⟨.record ["and"]⟩ .match_ (.str "\"\\")))
        (.or (.compare ⟨.meta_ .tenant⟩ .ne .null) (.compare ⟨.record ["not", "a b"]⟩ .lt (.int (-7))))
          : Condition Nat).print fun _ => [])) =
      .ok (.and (.not (.compare ⟨.record ["and"]⟩ .match_ (.str "\"\\")))
        (.or (.compare ⟨.meta_ .tenant⟩ .ne .null)
          (.compare ⟨.record ["not", "a b"]⟩ .lt (.int (-7)))) : Condition Nat) :=
  (parse_print _ _).2 _ (by simp [Exact, Literal.Exact, CompareOp.isRegex, Literal.isStr])
    (by simp [Named, FieldPath.Named])

theorem named_of_derives {level : Level} {tokens : List (Token Float)} {condition : Condition Float}
    (derived : Derives level tokens condition) : condition.Named := by
  induction derived with
  | orOne one ih => exact ih
  | orMore first isOr last ihFirst ihLast => exact ⟨ihFirst, ihLast⟩
  | andOne one ih => exact ih
  | andMore first isAnd last ihFirst ihLast => exact ⟨ihFirst, ihLast⟩
  | notNot isNot inner ih => exact ih
  | notPrimary notReserved one ih => exact ih
  | group opens inner closes ih => exact ih
  | compare named isPath isOp isLiteral pattern => exact (FieldPath.parse_ok.mp isPath).named

theorem named_of_parse {parseFloat : List Char → Option Float} {expr : String}
    {condition : Condition Float} (parsed : parse parseFloat expr = .ok condition) :
    condition.Named := by
  rw [parse] at parsed
  split at parsed
  next => cases parsed
  next tokens lexed =>
    split at parsed
    next => cases parsed
    next read =>
      obtain rfl := Except.ok.inj parsed
      exact named_of_derives ((Parser.or_ok_iff _ _).mp ⟨_, read⟩)
    next => cases parsed

/-- A record path with an empty segment has no text, so it is not read back. -/
theorem parse_print_empty_segment :
    ¬ ∀ condition : Condition Nat, condition.Exact →
      parse (fun _ => none) (String.ofList (condition.print fun _ => [])) = .ok condition := by
  intro all
  have read := all (.compare ⟨.record [""]⟩ .eq .null) ⟨trivial, fun isRegex => nomatch isRegex⟩
  exact named_of_parse read (List.mem_singleton_self "")

end Condition

end FusionPipeline
