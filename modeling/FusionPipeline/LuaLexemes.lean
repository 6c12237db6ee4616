import FusionPipeline.LuaScan

/-!
Lua 5.4 source as Lua itself reads it: lexemes with the text that follows them, lines, and the
names a scan for free identifiers has to report.
-/

namespace FusionPipeline.Lua

open Regex (b)

inductive Kind where
  | blank
  | comment
  | name
  | numeral
  | string
  | symbol
  deriving DecidableEq, Repr

structure Lexeme where
  kind : Kind
  text : List UInt8
  deriving DecidableEq, Repr

def isNewline (byte : UInt8) : Bool :=
  byte == b '\n' || byte == b '\r'

def verticalTab : UInt8 :=
  0x0B

def isBlank (byte : UInt8) : Bool :=
  isAsciiWhitespace byte || byte == verticalTab

/-- The line breaks of a text: `\n`, `\r`, and either followed by the other, as one. -/
def breaks : List UInt8 → Nat
  | [] => 0
  | [byte] => if isNewline byte then 1 else 0
  | byte :: next :: rest =>
      if isNewline byte then
        if isNewline next && next != byte then breaks rest + 1 else breaks (next :: rest) + 1
      else breaks (next :: rest)

def bareReturns : List UInt8 → Nat
  | [] => 0
  | [byte] => if byte = b '\r' then 1 else 0
  | byte :: next :: rest =>
      if isNewline byte then
        if isNewline next && next != byte then bareReturns rest
        else bareReturns (next :: rest) + if byte = b '\r' then 1 else 0
      else bareReturns (next :: rest)

def opening (level : Nat) : List UInt8 :=
  b '[' :: List.replicate level (b '=') ++ [b '[']

def closing (level : Nat) : List UInt8 :=
  b ']' :: List.replicate level (b '=') ++ [b ']']

def OpensLong (rest : List UInt8) : Prop :=
  ∃ level, opening level <+: rest

/-- A long bracket runs to the first close of its level. -/
inductive LongBracket : List UInt8 → Prop where
  | intro (level : Nat) (body : List UInt8)
      (first : ∀ front, front ++ closing level <+: body ++ closing level →
        body.length ≤ front.length) :
      LongBracket (opening level ++ body ++ closing level)

def lineBreaks : List (List UInt8) :=
  ["\n", "\r", "\r\n", "\n\r"].map Utf8.bytes

inductive Quoted (quote : UInt8) : List UInt8 → Prop where
  | done : Quoted quote []
  | plain {byte : UInt8} {rest : List UInt8} (notQuote : byte ≠ quote) (notEscape : byte ≠ b '\\')
      (sameLine : isNewline byte = false) (more : Quoted quote rest) : Quoted quote (byte :: rest)
  | escape {byte : UInt8} {rest : List UInt8} (sameLine : isNewline byte = false)
      (more : Quoted quote rest) : Quoted quote (b '\\' :: byte :: rest)
  | line {ending rest : List UInt8} (known : ending ∈ lineBreaks) (more : Quoted quote rest) :
      Quoted quote (b '\\' :: ending ++ rest)
  /-- `\z` skips the blanks after it, line breaks among them. -/
  | skip {gap rest : List UInt8} (blank : ∀ byte ∈ gap, isBlank byte = true)
      (more : Quoted quote rest) : Quoted quote (b '\\' :: b 'z' :: gap ++ rest)

def isHexDigit (byte : UInt8) : Bool :=
  isAsciiDigit byte || (b 'a' ≤ byte && byte ≤ b 'f') || (b 'A' ≤ byte && byte ≤ b 'F')

inductive Mantissa (isDigit : UInt8 → Bool) : List UInt8 → Prop where
  | whole {digit : UInt8} {more : List UInt8} (digits : ∀ byte ∈ digit :: more, isDigit byte = true) :
      Mantissa isDigit (digit :: more)
  | point {digit : UInt8} {more fraction : List UInt8}
      (digits : ∀ byte ∈ digit :: more ++ fraction, isDigit byte = true) :
      Mantissa isDigit (digit :: more ++ b '.' :: fraction)
  | fraction {digit : UInt8} {more : List UInt8}
      (digits : ∀ byte ∈ digit :: more, isDigit byte = true) : Mantissa isDigit (b '.' :: digit :: more)

def Exponent (marker text : List UInt8) : Prop :=
  text = [] ∨ ∃ letter sign digits, letter ∈ marker ∧ sign ∈ [[], [b '+'], [b '-']] ∧
    digits ≠ [] ∧ digits.all isAsciiDigit ∧ text = letter :: sign ++ digits

inductive Numeral : List UInt8 → Prop where
  | decimal {mantissa exponent : List UInt8} (digits : Mantissa isAsciiDigit mantissa)
      (scaled : Exponent [b 'e', b 'E'] exponent) : Numeral (mantissa ++ exponent)
  | hexadecimal {letter : UInt8} {mantissa exponent : List UInt8}
      (marked : letter ∈ [b 'x', b 'X']) (digits : Mantissa isHexDigit mantissa)
      (scaled : Exponent [b 'p', b 'P'] exponent) :
      Numeral (b '0' :: letter :: mantissa ++ exponent)

def longSymbols : List (List UInt8) :=
  ["...", "..", "==", "~=", "<=", ">=", "<<", ">>", "//", "::"].map Utf8.bytes

def keywords : List (List UInt8) :=
  ["and", "break", "do", "else", "elseif", "end", "false", "for", "function", "goto", "if", "in",
    "local", "nil", "not", "or", "repeat", "return", "then", "true", "until", "while"].map Utf8.bytes

def startsName (byte : UInt8) : Bool :=
  isAsciiAlphabetic byte || byte == b '_'

/-- A byte that is a symbol by itself, where no longer one stands. -/
structure SingleSymbol (byte : UInt8) (rest : List UInt8) : Prop where
  notBlank : isBlank byte = false
  notQuote : byte ≠ b '"' ∧ byte ≠ b '\''
  notNumeral : isAsciiDigit byte = false ∧
    (byte = b '.' → ∀ next, rest.head? = some next → isAsciiDigit next = false)
  notName : startsName byte = false
  notComment : ¬ [b '-', b '-'] <+: byte :: rest
  notLong : byte = b '[' → rest.head? ≠ some (b '[') ∧ rest.head? ≠ some (b '=')
  alone : ∀ symbol ∈ longSymbols, ¬ symbol <+: byte :: rest

inductive Takes : Lexeme → List UInt8 → Prop where
  | blank {byte : UInt8} {rest : List UInt8} (blank : isBlank byte = true) :
      Takes ⟨.blank, [byte]⟩ rest
  | longComment {text rest : List UInt8} (long : LongBracket text) :
      Takes ⟨.comment, b '-' :: b '-' :: text⟩ rest
  | shortComment {body rest : List UInt8} (sameLine : ∀ byte ∈ body, isNewline byte = false)
      (ends : ∀ byte, rest.head? = some byte → isNewline byte = true)
      (short : ¬ OpensLong (body ++ rest)) : Takes ⟨.comment, b '-' :: b '-' :: body⟩ rest
  | name {first : UInt8} {more rest : List UInt8} (starts : startsName first = true)
      (parts : more.all isNamePart) (ends : ∀ byte, rest.head? = some byte → isNamePart byte = false) :
      Takes ⟨.name, first :: more⟩ rest
  | numeral {text rest : List UInt8} (numeral : Numeral text)
      (ends : ∀ byte, rest.head? = some byte → isNamePart byte = false ∧ byte ≠ b '.') :
      Takes ⟨.numeral, text⟩ rest
  | longString {text rest : List UInt8} (long : LongBracket text) : Takes ⟨.string, text⟩ rest
  | shortString {quote : UInt8} {body rest : List UInt8} (known : quote = b '"' ∨ quote = b '\'')
      (quoted : Quoted quote body) : Takes ⟨.string, quote :: body ++ [quote]⟩ rest
  | longSymbol {text rest : List UInt8} (known : text ∈ longSymbols)
      (longest : ∀ symbol ∈ longSymbols, symbol <+: text ++ rest → symbol.length ≤ text.length) :
      Takes ⟨.symbol, text⟩ rest
  | symbol {byte : UInt8} {rest : List UInt8} (single : SingleSymbol byte rest) :
      Takes ⟨.symbol, [byte]⟩ rest

inductive Reads : List UInt8 → List Lexeme → List UInt8 → Prop where
  | done {rest : List UInt8} : Reads rest [] rest
  | next {lexeme : Lexeme} {middle rest : List UInt8} {more : List Lexeme}
      (takes : Takes lexeme middle) (reads : Reads middle more rest) :
      Reads (lexeme.text ++ middle) (lexeme :: more) rest

def Lexes (source : List UInt8) (lexemes : List Lexeme) : Prop :=
  Reads source lexemes []

def Lexeme.isToken (lexeme : Lexeme) : Bool :=
  lexeme.kind != .blank && lexeme.kind != .comment

def textOf (lexemes : List Lexeme) : List UInt8 :=
  lexemes.flatMap Lexeme.text

def lastToken (before : List Lexeme) : Option Lexeme :=
  before.reverse.find? Lexeme.isToken

def nextToken (after : List Lexeme) : Option Lexeme :=
  after.find? Lexeme.isToken

def symbol (text : String) : Lexeme :=
  ⟨.symbol, Utf8.bytes text⟩

/-- An identifier that reads a name: no field, no method, and not followed by a single `=`. -/
structure FreeUse (before : List Lexeme) (lexeme : Lexeme) (after : List Lexeme) : Prop where
  isName : lexeme.kind = .name
  notKeyword : lexeme.text ∉ keywords
  notField : lastToken before ≠ some (symbol ".") ∧ lastToken before ≠ some (symbol ":")
  notAssigned : nextToken after ≠ some (symbol "=")

def nameAt (before : List Lexeme) (lexeme : Lexeme) : FreeName :=
  ⟨lexeme.text, (textOf before).length, breaks (textOf before) + 1⟩

end FusionPipeline.Lua
