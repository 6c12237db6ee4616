import FusionPipeline.Library.Loop
import FusionPipeline.Library.TextSlice
import FusionPipeline.RegexScan

/-!
Field paths: the one way every stage names part of a record. Paths are read with byte cursors,
so a slice may in principle start or end inside a character.
-/

namespace FusionPipeline

open Regex (b)
open Utf8 (encode size findOffset)

/-- Why a computation over text stops: a slice that is no slice of it, or an error. -/
inductive Fault (Error : Type) where
  | panic
  | error (error : Error)
  deriving DecidableEq, Repr

variable {Error : Type}

def slice (text : List Char) (start stop : Nat) : Except (Fault Error) (List Char) :=
  match Utf8.slice text start stop with
  | some part => .ok part
  | none => .error .panic

def sliceFrom (text : List Char) (start : Nat) : Except (Fault Error) (List Char) :=
  slice text start (size text)

inductive MetaField where
  | id
  | tenant
  | ingestionTime
  | deliveryCount
  deriving DecidableEq, Repr

def MetaField.all : List MetaField :=
  [id, tenant, ingestionTime, deliveryCount]

def MetaField.asStr : MetaField → String
  | id => "id"
  | tenant => "tenant"
  | ingestionTime => "ingestion_time"
  | deliveryCount => "delivery_count"

def MetaField.parse (name : String) : Option MetaField :=
  all.find? fun field => field.asStr == name

def metaRoot : String :=
  "meta"

inductive PathError where
  | emptySegment (path : String)
  | invalidSegment (segment : String) (ch : Char) (instead : String)
  | unterminatedQuote (path : String)
  | bracketSyntax (instead : String)
  | unknownMetaField (path : String)
  | readOnly (path : String)
  deriving DecidableEq, Repr

def metaFields : String :=
  ", ".intercalate (MetaField.all.map fun field => "`" ++ metaRoot ++ "." ++ field.asStr ++ "`")

def PathError.text : PathError → String
  | emptySegment path =>
      "`" ++ path ++ "` has an empty segment; instead use `<name>.<name>` with one dot between names"
  | invalidSegment segment ch instead =>
      "`" ++ segment ++ "` has `" ++ String.ofList [ch] ++ "`; instead use `" ++ instead ++ "`"
  | unterminatedQuote path =>
      "`" ++ path ++ "` has an unclosed quote; instead close it: `attributes.\"some key\"`"
  | bracketSyntax instead => "brackets are not allowed; instead use `" ++ instead ++ "`"
  | unknownMetaField path =>
      "`" ++ path ++ "` is not a meta field; instead use one of " ++ metaFields ++ ", or `." ++
        metaRoot ++ "...` for a payload key spelled `" ++ metaRoot ++ "`"
  | readOnly path =>
      "`" ++ path ++ "` is the pipeline's and cannot be written or removed; instead copy it into " ++
        "a record field: `copy \x7bfrom: " ++ path ++ ", to: <field>\x7d`"

/-- What a path names: segments walked over the record, none for the whole of it, or a value
of the record's meta. -/
inductive Target where
  | record (segments : List String)
  | meta_ (field : MetaField)
  deriving DecidableEq, Repr

structure FieldPath where
  target : Target
  deriving DecidableEq, Repr

def isSegmentChar (c : Char) : Bool :=
  ('a' ≤ c && c ≤ 'z') || ('A' ≤ c && c ≤ 'Z') || ('0' ≤ c && c ≤ '9') || c == '_' || c == '-'

def replaceChar (char : Char) (replacement text : List Char) : List Char :=
  text.flatMap fun c => if c = char then replacement else [c]

def displaySegment (segment : String) : List Char :=
  if segment.toList ≠ [] ∧ segment.toList.all isSegmentChar then segment.toList
  else
    '"' :: replaceChar '"' ['\\', '"'] (replaceChar '\\' ['\\', '\\'] segment.toList) ++ ['"']

def joinDots (parts : List (List Char)) : List Char :=
  ['.'].intercalate parts

def closeOffset (quote : UInt8) : List UInt8 → Option Nat
  | [] => none
  | byte :: rest =>
      if byte = b '\\' then
        match rest with
        | [] => none
        | _ :: more => (closeOffset quote more).map (· + 2)
      else if byte = quote then some 1
      else (closeOffset quote rest).map (· + 1)

def quotedEnd (text : List Char) (start : Nat) : Option Nat :=
  match (encode text).drop start with
  | [] => none
  | quote :: inner => (closeOffset quote inner).map (start + 1 + ·)

/-- Drops the backslash from every `\x`, for hints built from old bracket text. -/
def unescape : List Char → List Char
  | [] => []
  | '\\' :: [] => []
  | '\\' :: next :: rest => next :: unescape rest
  | c :: rest => c :: unescape rest

def trimDots (text : List Char) : List Char :=
  text.dropWhile (· == '.')

structure Pieces where
  pieces : List (List Char)
  rest : List Char

def dottedPiece (state : Pieces) : Except (Fault Error) Pieces := do
  let rest := state.rest
  if rest.head? = some '"' then
    match quotedEnd rest 0 with
    | some stop =>
        let inner ← slice rest 1 (stop - 1)
        let later ← sliceFrom rest stop
        return ⟨state.pieces ++ [unescape inner], trimDots later⟩
    | none =>
        let inner ← sliceFrom rest 1
        return ⟨state.pieces ++ [unescape inner], []⟩
  else
    let stop := (findOffset (· == '.') rest).getD (size rest)
    let piece ← slice rest 0 stop
    let later ← sliceFrom rest stop
    return ⟨if 0 < stop then state.pieces ++ [piece] else state.pieces, trimDots later⟩

/-- The pieces of dotted text outside brackets, each bare or quoted, the empty ones dropped. -/
def dottedPieces (part : List Char) : Except (Fault Error) (List (List Char)) :=
  (Loop.run (fun state : Pieces => !state.rest.isEmpty) dottedPiece part.length ⟨[], part⟩).map
    Pieces.pieces

structure BracketScan where
  i : Nat
  found : Option (List Char × Nat)

def bracketRound (text : List Char) (state : BracketScan) : Except (Fault Error) BracketScan :=
  match (encode text)[state.i]? with
  | none => .ok state
  | some byte =>
      if byte = b '"' ∨ byte = b '\'' then
        match quotedEnd text state.i with
        | some stop => .ok { state with i := stop }
        | none => .ok { state with found := some (text, size text) }
      else if byte = b ']' then
        (slice text 0 state.i).map fun inner => { state with found := some (inner, state.i + 1) }
      else .ok { state with i := state.i + 1 }

/-- The text inside a bracket that opens just before, and how many bytes it and the closing
`]` take; an unclosed quote or bracket runs to the end. -/
def bracketContents (text : List Char) : Except (Fault Error) (List Char × Nat) :=
  (Loop.run (fun state : BracketScan => state.i < size text && state.found.isNone)
    (bracketRound text) (size text + 1) ⟨0, none⟩).map fun state =>
      state.found.getD (text, size text)

def isWhitespace (c : Char) : Bool :=
  let code := c.toNat
  (9 ≤ code && code ≤ 13) || code == 0x20 || code == 0x85 || code == 0xA0 || code == 0x1680 ||
    (0x2000 ≤ code && code ≤ 0x200A) || code == 0x2028 || code == 0x2029 || code == 0x202F ||
    code == 0x205F || code == 0x3000

def trim (text : List Char) : List Char :=
  ((text.dropWhile isWhitespace).reverse.dropWhile isWhitespace).reverse

/-- What one bracket's contents name: a quoted part is one key, another is split on dots. -/
def bracketPieces (inner : List Char) : List (List Char) :=
  match trim inner with
  | [] => []
  | quote :: body =>
      if quote = '"' ∨ quote = '\'' then
        let key := unescape (if body.getLast? = some quote then body.dropLast else body)
        if key.isEmpty then [] else [key]
      else ((quote :: body).splitOn '.').filter fun piece => !piece.isEmpty

structure Unbracket where
  segments : List (List Char)
  i : Nat

def unbracketRound (path : List Char) (state : Unbracket) : Except (Fault Error) Unbracket := do
  let rest ← sliceFrom path state.i
  match rest with
  | '[' :: inner =>
      let (contents, consumed) ← bracketContents inner
      return ⟨state.segments ++ bracketPieces contents, state.i + 1 + consumed⟩
  | ']' :: _ => return { state with i := state.i + 1 }
  | _ =>
      let stop := (findOffset (fun c => c == '[' || c == ']') rest).getD (size rest)
      let pieces ← dottedPieces (← slice rest 0 stop)
      return ⟨state.segments ++ pieces, state.i + stop⟩

def unbracket (path : List Char) : Except (Fault Error) (List Char) := do
  let state ← Loop.run (fun state : Unbracket => state.i < size path) (unbracketRound path)
    (size path) ⟨[], 0⟩
  let out := state.segments.map fun segment => displaySegment (String.ofList segment)
  return joinDots (if out = [metaRoot.toList] then out ++ ["<field>".toList] else out)

def quotedHint (before : List String) (bad rest : List Char) : String :=
  let out := before.map displaySegment ++ [displaySegment (String.ofList bad)]
  String.ofList (joinDots out ++ rest)

/-- The contents of a quoted segment from its character at `i` on; `\"` and `\\` are the only
escapes. -/
def unquoteChars (path : List Char) (start stop : Nat) :
    Nat → List Char → Except (Fault PathError) (List Char)
  | _, [] => .ok []
  | _, '\\' :: [] => .ok []
  | i, '\\' :: next :: rest =>
      if next = '"' ∨ next = '\\' then
        (unquoteChars path start stop (i + 1 + next.utf8Size) rest).map (next :: ·)
      else do
        let at_ := start + 1 + i
        let segment ← slice path start stop
        let before ← slice path 0 at_
        let after ← sliceFrom path (at_ + 1)
        let instead := before ++ ['\\', '\\'] ++ after
        .error (.error (.invalidSegment (String.ofList segment) next (String.ofList instead)))
  | i, c :: rest => (unquoteChars path start stop (i + c.utf8Size) rest).map (c :: ·)

def unquote (path : List Char) (start : Nat) : Except (Fault PathError) (List Char × Nat) :=
  match quotedEnd path start with
  | none => .error (.error (.unterminatedQuote (String.ofList path)))
  | some stop => do
      let inner ← slice path (start + 1) (stop - 1)
      let out ← unquoteChars path start stop 0 inner
      return (out, stop)

def readSegment (path : List Char) (segments : List String) (i : Nat) :
    Except (Fault PathError) (List Char × Nat) := do
  let rest ← sliceFrom path i
  if rest.head? = some '"' then
    let (segment, stop) ← unquote path i
    if segment.isEmpty then throw (.error (.emptySegment (String.ofList path)))
    return (segment, stop)
  else
    let stop := (findOffset (fun c => c == '.' || c == '[' || c == ']') rest).elim (size path) (i + ·)
    let segment ← slice path i stop
    let later ← sliceFrom path stop
    if segment.isEmpty ∧ later.head? ≠ some '[' ∧ later.head? ≠ some ']' then
      throw (.error (.emptySegment (String.ofList path)))
    match segment.find? fun c => !isSegmentChar c with
    | some ch =>
        throw (.error (.invalidSegment (String.ofList segment) ch
          (quotedHint segments segment later)))
    | none => return (segment, stop)

structure Split where
  segments : List String
  next : Option Nat

def splitRound (path : List Char) (state : Split) : Except (Fault PathError) Split :=
  match state.next with
  | none => .ok state
  | some start => do
      let (segment, i) ← readSegment path state.segments start
      let later ← sliceFrom path i
      match later with
      | [] => return ⟨state.segments ++ [String.ofList segment], none⟩
      | '.' :: _ =>
          if i + 1 = size path then throw (.error (.emptySegment (String.ofList path)))
          return ⟨state.segments ++ [String.ofList segment], some (i + 1)⟩
      | '[' :: _ | ']' :: _ => do
          let instead ← unbracket path
          throw (.error (.bracketSyntax (String.ofList instead)))
      | ch :: _ =>
          -- Text glued to a closing quote.
          let stop := (findOffset (· == '.') later).elim (size path) (i + ·)
          let written ← slice path start stop
          let glued ← slice path i stop
          let rest ← sliceFrom path stop
          throw (.error (.invalidSegment (String.ofList written) ch
            (quotedHint state.segments (segment ++ glued) rest)))

def splitSegments (path : List Char) : Except (Fault PathError) (List String) :=
  (Loop.run (fun state : Split => state.next.isSome) (splitRound path) (size path + 1)
    ⟨[], some 0⟩).map Split.segments

/-- An error that quotes the path quotes the one the author wrote. -/
def PathError.naming (path : String) : PathError → PathError
  | emptySegment _ => emptySegment path
  | unterminatedQuote _ => unterminatedQuote path
  | other => other

def Fault.mapError {Other : Type} (change : Error → Other) : Fault Error → Fault Other
  | panic => panic
  | error e => error (change e)

namespace FieldPath

def whole : FieldPath :=
  ⟨.record []⟩

def ofSegments (path : String) (rooted : Bool) (segments : List String) :
    Except PathError FieldPath :=
  if !rooted && segments.head? == some metaRoot then
    match segments.tail with
    | [field] =>
        match MetaField.parse field with
        | some field => .ok ⟨.meta_ field⟩
        | none => .error (.unknownMetaField path)
    | _ => .error (.unknownMetaField path)
  else .ok ⟨.record segments⟩

def ofText (path : String) (rooted : Bool) (text : List Char) :
    Except (Fault PathError) FieldPath :=
  match splitSegments text with
  | .error fault => .error (fault.mapError (PathError.naming path))
  | .ok segments =>
      match ofSegments path rooted segments with
      | .ok parsed => .ok parsed
      | .error error => .error (.error error)

def stripDot : List Char → List Char × Bool
  | '.' :: rest => (rest, true)
  | text => (text, false)

def parse (path : String) : Except (Fault PathError) FieldPath :=
  let (text, rooted) := stripDot path.toList
  if rooted && text.isEmpty then .ok whole else ofText path rooted text

def display (path : FieldPath) : List Char :=
  match path.target with
  | .meta_ field => metaRoot.toList ++ '.' :: field.asStr.toList
  | .record [] => ['.']
  | .record (first :: rest) =>
      -- A first segment `meta` without the dot would read as the pipeline's own.
      (if first = metaRoot then ['.'] else []) ++ joinDots ((first :: rest).map displaySegment)

end FieldPath

/-- A path proved to name the record, so that a write or a removal through it cannot fail. -/
structure WritePath where
  segments : List String
  deriving DecidableEq, Repr

def FieldPath.writable (path : FieldPath) : Except PathError WritePath :=
  match path.target with
  | .meta_ _ => .error (.readOnly (String.ofList path.display))
  | .record segments => .ok ⟨segments⟩

namespace WritePath

def path (written : WritePath) : FieldPath :=
  ⟨.record written.segments⟩

def child (written : WritePath) (segment : String) : WritePath :=
  ⟨written.segments ++ [segment]⟩

end WritePath

end FusionPipeline
