import FusionPipeline.Path

/-! The condition grammar used by `filter` and `route`: its lexer and its parser. -/

namespace FusionPipeline

open Regex (b)
open Utf8 (encode size)

inductive ConditionError where
  | unexpectedChar (ch : Char) (offset : Nat)
  | unexpectedEnd
  | unexpectedToken (token : String) (offset : Nat)
  | unterminatedString (offset : Nat)
  | invalidNumber (text : String) (offset : Nat)
  | regexNeedsString (offset : Nat)
  | field (offset : Nat) (source : PathError)
  deriving DecidableEq, Repr

def ConditionError.text : ConditionError → String
  | unexpectedChar ch offset =>
      "unexpected character `" ++ String.ofList [ch] ++ "` at offset " ++ toString offset
  | unexpectedEnd => "unexpected end of expression"
  | unexpectedToken token offset =>
      "unexpected `" ++ token ++ "` at offset " ++ toString offset
  | unterminatedString offset =>
      "unterminated string starting at offset " ++ toString offset
  | invalidNumber text offset =>
      "invalid number `" ++ text ++ "` at offset " ++ toString offset
  | regexNeedsString offset =>
      "`=~` and `!~` take a quoted pattern (at offset " ++ toString offset ++ ")"
  | field offset source => source.text ++ " (path at offset " ++ toString offset ++ ")"

inductive CompareOp where
  | eq
  | ne
  | lt
  | gt
  | le
  | ge
  | match_
  | notMatch
  deriving DecidableEq, Repr

def CompareOp.isRegex : CompareOp → Bool
  | match_ | notMatch => true
  | _ => false

inductive Literal (Float : Type) where
  | null
  | bool (value : Bool)
  | int (value : Int)
  | float (value : Float)
  | str (text : String)
  deriving DecidableEq, Repr

def Literal.isStr {Float : Type} : Literal Float → Bool
  | str _ => true
  | _ => false

inductive Condition (Float : Type) where
  | compare (field : FieldPath) (op : CompareOp) (literal : Literal Float)
  | and (left right : Condition Float)
  | or (left right : Condition Float)
  | not (inner : Condition Float)
  deriving DecidableEq, Repr

inductive Tok (Float : Type) where
  | ident (name : String)
  | path (name : String)
  | str (text : String)
  | int (value : Int)
  | float (value : Float)
  | op (op : CompareOp)
  | lParen
  | rParen
  deriving DecidableEq, Repr

structure Token (Float : Type) where
  tok : Tok Float
  offset : Nat
  text : String
  deriving DecidableEq, Repr

def Token.unexpected {Float : Type} (token : Token Float) : ConditionError :=
  .unexpectedToken token.text token.offset

section Lex

variable {Float : Type} (parseFloat : List Char → Option Float)

/-- Bytes that keep a bare segment going in the lexer: wider than the segment charset, so that
a stray character becomes a path error with a hint. -/
def continuesBareSegment (byte : UInt8) : Bool :=
  !([b ' ', b '\t', b '\n', b '\r', b '.', b '(', b ')', b '[', b ']', b '=', b '!', b '<', b '>',
    b '"', b '\''].contains byte)

def bareEnd (bytes : List UInt8) (i : Nat) : Nat :=
  i + ((bytes.drop i).takeWhile continuesBareSegment).length

/-- A round over old bracket syntax: quotes are honoured, an unclosed one runs to the end. -/
def oldBracketRound (expr : List Char) (i : Nat) : Except Empty Nat :=
  let byte := (encode expr)[i]?
  if byte = some (b '"') ∨ byte = some (b '\'') then .ok ((quotedEnd expr i).getD (size expr))
  else .ok (i + 1)

def bracketEnd (expr : List Char) (i : Nat) : Nat :=
  match Loop.run (fun i => i < size expr && (encode expr)[i]? != some (b ']'))
      (oldBracketRound expr) (size expr) i with
  | .ok stop => min (stop + 1) (size expr)

def pathRound (expr : List Char) (start i : Nat) : Except (Fault ConditionError) Nat :=
  let bytes := encode expr
  if bytes[i]? = some (b '.') then
    if bytes[i + 1]? = some (b '"') then
      match quotedEnd expr (i + 1) with
      | some stop => .ok (bareEnd bytes stop)
      | none =>
          match sliceFrom expr start with
          | .ok path => .error (.error (.field start (.unterminatedQuote (String.ofList path))))
          | .error fault => .error fault
    else .ok (bareEnd bytes (i + 1))
  else .ok (bracketEnd expr (i + 1))

def lexPathRest (expr : List Char) (start i : Nat) : Except (Fault ConditionError) Nat :=
  Loop.run (fun i => (encode expr)[i]? == some (b '.') || (encode expr)[i]? == some (b '['))
    (pathRound expr start) (size expr) i

def stringChars (quote : Char) : List Char → Option (List Char × Nat)
  | [] => none
  | '\\' :: [] => none
  | '\\' :: escaped :: rest =>
      let char := match escaped with
        | 'n' => '\n'
        | 't' => '\t'
        | 'r' => '\r'
        | other => other
      (stringChars quote rest).map fun (out, length) =>
        (char :: out, length + 1 + escaped.utf8Size)
  | c :: rest =>
      if c = quote then some ([], c.utf8Size)
      else (stringChars quote rest).map fun (out, length) => (c :: out, length + c.utf8Size)

def lexString (expr : List Char) (start : Nat) :
    Except (Fault ConditionError) (List Char × Nat) := do
  let rest ← sliceFrom expr start
  match rest with
  | [] => throw (.error .unexpectedEnd)
  | quote :: chars =>
      match stringChars quote chars with
      | some (out, length) => return (out, start + quote.utf8Size + length)
      | none => throw (.error (.unterminatedString start))

def opAt (c : UInt8) (next : Option UInt8) : Option (CompareOp × Nat) :=
  if c = b '=' ∧ next = some (b '=') then some (.eq, 2)
  else if c = b '=' ∧ next = some (b '~') then some (.match_, 2)
  else if c = b '!' ∧ next = some (b '=') then some (.ne, 2)
  else if c = b '!' ∧ next = some (b '~') then some (.notMatch, 2)
  else if c = b '<' ∧ next = some (b '=') then some (.le, 2)
  else if c = b '>' ∧ next = some (b '=') then some (.ge, 2)
  else if c = b '<' then some (.lt, 1)
  else if c = b '>' then some (.gt, 1)
  else none

def digitsValue (digits : List Char) : Option Nat :=
  if digits.isEmpty || !digits.all Char.isDigit then none
  else some (digits.foldl (fun value digit => value * 10 + (digit.toNat - '0'.toNat)) 0)

def parseI128 (text : List Char) : Option Int :=
  let value := match text with
    | '-' :: digits => (digitsValue digits).map fun value => -(value : Int)
    | '+' :: digits => (digitsValue digits).map Int.ofNat
    | digits => (digitsValue digits).map Int.ofNat
  value.filter fun value => -(2 ^ 127) ≤ value && value < 2 ^ 127

def isDigitByte (byte : UInt8) : Bool :=
  b '0' ≤ byte && byte ≤ b '9'

def isNumberByte (byte : UInt8) : Bool :=
  isDigitByte byte || [b '.', b 'e', b 'E', b '+', b '-'].contains byte

def startsBare (byte : UInt8) : Bool :=
  (b 'a' ≤ byte && byte ≤ b 'z') || (b 'A' ≤ byte && byte ≤ b 'Z') || byte == b '_'

def lexNumber (expr : List Char) (start : Nat) :
    Except (Fault ConditionError) (Tok Float × Nat) := do
  let i := start + 1 + (((encode expr).drop (start + 1)).takeWhile isNumberByte).length
  let text ← slice expr start i
  match parseI128 text with
  | some n => return (.int n, i)
  | none =>
      match parseFloat text with
      | some f => return (.float f, i)
      | none => throw (.error (.invalidNumber (String.ofList text) start))

def lexPath (expr : List Char) (start i : Nat) :
    Except (Fault ConditionError) (Tok Float × Nat) := do
  let i ← lexPathRest expr start i
  let name ← slice expr start i
  return (.path (String.ofList name), i)

def lexToken (expr : List Char) (c : UInt8) (start : Nat) :
    Except (Fault ConditionError) (Tok Float × Nat) :=
  let bytes := encode expr
  if c = b '(' then .ok (.lParen, start + 1)
  else if c = b ')' then .ok (.rParen, start + 1)
  else if c = b '=' ∨ c = b '!' ∨ c = b '<' ∨ c = b '>' then
    match opAt c bytes[start + 1]? with
    | some (op, length) => .ok (.op op, start + length)
    | none => .error (.error (.unexpectedChar (Char.ofNat c.toNat) start))
  else if c = b '"' ∨ c = b '\'' then
    (lexString expr start).map fun (out, i) => (.str (String.ofList out), i)
  else if c = b '.' then lexPath expr start start
  else if c = b '-' ∨ isDigitByte c then lexNumber parseFloat expr start
  else if startsBare c then
    let i := bareEnd bytes (start + 1)
    if bytes[i]? = some (b '.') ∨ bytes[i]? = some (b '[') then lexPath expr start i
    else (slice expr start i).map fun name => (.ident (String.ofList name), i)
  else
    match sliceFrom expr start with
    | .ok rest => .error (.error (.unexpectedChar (rest.head?.getD '?') start))
    | .error fault => .error fault

structure Lexed (Float : Type) where
  tokens : List (Token Float)
  i : Nat

def lexRound (expr : List Char) (state : Lexed Float) :
    Except (Fault ConditionError) (Lexed Float) :=
  match (encode expr)[state.i]? with
  | none => .ok state
  | some c =>
      if c = b ' ' ∨ c = b '\t' ∨ c = b '\n' ∨ c = b '\r' then .ok { state with i := state.i + 1 }
      else do
        let (tok, i) ← lexToken parseFloat expr c state.i
        let text ← slice expr state.i i
        return ⟨state.tokens ++ [⟨tok, state.i, String.ofList text⟩], i⟩

def lexFrom (expr : List Char) (state : Lexed Float) :
    Except (Fault ConditionError) (Lexed Float) :=
  Loop.run (fun state : Lexed Float => state.i < size expr) (lexRound parseFloat expr)
    (size expr) state

def lex (expr : List Char) : Except (Fault ConditionError) (List (Token Float)) :=
  (lexFrom parseFloat expr ⟨[], 0⟩).map Lexed.tokens

end Lex

structure Parsed (Float Value : Type) (bound : Nat) where
  value : Value
  rest : List (Token Float)
  shorter : rest.length < bound

namespace Parser

variable {Float : Type}

def isKeyword (keyword : String) (token : Token Float) : Bool :=
  match token.tok with
  | .ident name => name == keyword
  | _ => false

def literalOf (token : Token Float) : Option (Literal Float) :=
  match token.tok with
  | .str s => some (.str s)
  | .int n => some (.int n)
  | .float f => some (.float f)
  | .ident name =>
      if name = "true" then some (.bool true)
      else if name = "false" then some (.bool false)
      else if name = "null" then some .null
      else none
  | _ => none

def comparison (field : FieldPath) :
    (tokens : List (Token Float)) →
      Except (Fault ConditionError) (Parsed Float (Condition Float) tokens.length)
  | [] => .error (.error .unexpectedEnd)
  | token :: rest =>
      match token.tok with
      | .op op =>
          match rest with
          | [] => .error (.error .unexpectedEnd)
          | next :: later =>
              match literalOf next with
              | none => .error (.error next.unexpected)
              | some literal =>
                  if op.isRegex && !literal.isStr then
                    .error (.error (.regexNeedsString next.offset))
                  else .ok ⟨.compare field op literal, later, by simp only [List.length_cons]; omega⟩
      | _ => .error (.error token.unexpected)

mutual

def or (tokens : List (Token Float)) :
    Except (Fault ConditionError) (Parsed Float (Condition Float) tokens.length) :=
  match and tokens with
  | .error fault => .error fault
  | .ok ⟨left, rest, shorter⟩ =>
      match orLoop left rest with
      | .error fault => .error fault
      | .ok ⟨value, later, noLonger⟩ => .ok ⟨value, later, by omega⟩
termination_by (tokens.length, 3)

def orLoop (left : Condition Float) (tokens : List (Token Float)) :
    Except (Fault ConditionError) (Parsed Float (Condition Float) (tokens.length + 1)) :=
  match tokens with
  | [] => .ok ⟨left, [], Nat.zero_lt_one⟩
  | token :: rest =>
      if isKeyword "or" token then
        match and rest with
        | .error fault => .error fault
        | .ok ⟨right, later, shorter⟩ =>
            match orLoop (.or left right) later with
            | .error fault => .error fault
            | .ok ⟨value, last, noLonger⟩ =>
                .ok ⟨value, last, by simp only [List.length_cons]; omega⟩
      else .ok ⟨left, token :: rest, Nat.lt_succ_self _⟩
termination_by (tokens.length, 4)

def and (tokens : List (Token Float)) :
    Except (Fault ConditionError) (Parsed Float (Condition Float) tokens.length) :=
  match not tokens with
  | .error fault => .error fault
  | .ok ⟨left, rest, shorter⟩ =>
      match andLoop left rest with
      | .error fault => .error fault
      | .ok ⟨value, later, noLonger⟩ => .ok ⟨value, later, by omega⟩
termination_by (tokens.length, 2)

def andLoop (left : Condition Float) (tokens : List (Token Float)) :
    Except (Fault ConditionError) (Parsed Float (Condition Float) (tokens.length + 1)) :=
  match tokens with
  | [] => .ok ⟨left, [], Nat.zero_lt_one⟩
  | token :: rest =>
      if isKeyword "and" token then
        match not rest with
        | .error fault => .error fault
        | .ok ⟨right, later, shorter⟩ =>
            match andLoop (.and left right) later with
            | .error fault => .error fault
            | .ok ⟨value, last, noLonger⟩ =>
                .ok ⟨value, last, by simp only [List.length_cons]; omega⟩
      else .ok ⟨left, token :: rest, Nat.lt_succ_self _⟩
termination_by (tokens.length, 4)

def not (tokens : List (Token Float)) :
    Except (Fault ConditionError) (Parsed Float (Condition Float) tokens.length) :=
  match tokens with
  | [] => .error (.error .unexpectedEnd)
  | token :: rest =>
      if isKeyword "not" token then
        match not rest with
        | .error fault => .error fault
        | .ok ⟨inner, later, shorter⟩ =>
            .ok ⟨.not inner, later, by simp only [List.length_cons]; omega⟩
      else primary token rest
termination_by (tokens.length, 1)

def primary (token : Token Float) (rest : List (Token Float)) :
    Except (Fault ConditionError) (Parsed Float (Condition Float) (rest.length + 1)) :=
  match token.tok with
  | .lParen =>
      match or rest with
      | .error fault => .error fault
      | .ok ⟨_, [], _⟩ => .error (.error .unexpectedEnd)
      | .ok ⟨inner, closer :: later, shorter⟩ =>
          match closer.tok with
          | .rParen => .ok ⟨inner, later, by simp only [List.length_cons] at shorter; omega⟩
          | _ => .error (.error closer.unexpected)
  | .ident name | .path name =>
      match FieldPath.parse name with
      | .error fault => .error (fault.mapError (ConditionError.field token.offset))
      | .ok field =>
          match comparison field rest with
          | .error fault => .error fault
          | .ok ⟨value, later, shorter⟩ => .ok ⟨value, later, by omega⟩
  | _ => .error (.error token.unexpected)
termination_by (rest.length + 1, 0)

end

end Parser

def Condition.parse {Float : Type} (parseFloat : List Char → Option Float) (expr : String) :
    Except (Fault ConditionError) (Condition Float) :=
  match lex parseFloat expr.toList with
  | .error fault => .error fault
  | .ok tokens =>
      match Parser.or tokens with
      | .error fault => .error fault
      | .ok ⟨condition, [], _⟩ => .ok condition
      | .ok ⟨_, token :: _, _⟩ => .error (.error token.unexpected)

end FusionPipeline
