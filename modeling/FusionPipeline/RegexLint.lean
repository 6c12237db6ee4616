import FusionPipeline.Canary

/-! The lint: three shapes of a pattern's syntax tree that a backtracking engine is slow on. -/

namespace FusionPipeline.Lint

open Canary (Hir)
open Regex (Desugared Panic parseWithFallback)

section Syntax

inductive RepetitionRange where
  | exactly (count : UInt32)
  | atLeast (count : UInt32)
  | bounded (low high : UInt32)
  deriving DecidableEq, Repr

inductive RepetitionKind where
  | zeroOrOne
  | zeroOrMore
  | oneOrMore
  | range (range : RepetitionRange)
  deriving DecidableEq, Repr

/-- A pattern's syntax tree, each node with the byte it starts at. A leaf is a node that matches
exactly one character: a literal, `.` or a class. A group may set flags. -/
inductive Ast (Leaf : Type) where
  | empty (start : Nat)
  | flags (start : Nat)
  | assertion (start : Nat)
  | leaf (start : Nat) (leaf : Leaf)
  | repetition (start : Nat) (kind : RepetitionKind) (ast : Ast Leaf)
  | group (start : Nat) (flagged : Bool) (ast : Ast Leaf)
  | alternation (start : Nat) (asts : List (Ast Leaf))
  | concat (start : Nat) (asts : List (Ast Leaf))

variable {Leaf : Type}

def Ast.start : Ast Leaf → Nat
  | empty start | flags start | assertion start | leaf start _ | repetition start _ _
  | group start _ _ | alternation start _ | concat start _ => start

def minOf : RepetitionKind → UInt32
  | .zeroOrOne | .zeroOrMore => 0
  | .oneOrMore => 1
  | .range (.exactly count) | .range (.atLeast count) | .range (.bounded count _) => count

def maxOf : RepetitionKind → Option UInt32
  | .zeroOrOne => some 1
  | .zeroOrMore | .oneOrMore => none
  | .range (.exactly count) => some count
  | .range (.atLeast _) => none
  | .range (.bounded _ count) => some count

def isUnbounded (kind : RepetitionKind) : Bool :=
  (maxOf kind).isNone

def isVariable (kind : RepetitionKind) : Bool :=
  maxOf kind != some (minOf kind) && maxOf kind != some 1

def unwrapGroups : Ast Leaf → Ast Leaf
  | .group _ _ ast => unwrapGroups ast
  | .concat _ [ast] => unwrapGroups ast
  | other => other

mutual

def containsVariableRepetition : Ast Leaf → Bool
  | .repetition _ kind ast => isVariable kind || containsVariableRepetition ast
  | .group _ _ ast => containsVariableRepetition ast
  | .alternation _ asts => anyContainsVariableRepetition asts
  | .concat _ asts => anyContainsVariableRepetition asts
  | .empty _ | .flags _ | .assertion _ | .leaf _ _ => false

def anyContainsVariableRepetition : List (Ast Leaf) → Bool
  | [] => false
  | ast :: asts => containsVariableRepetition ast || anyContainsVariableRepetition asts

end

mutual

def collectAlternations : Ast Leaf → List (List (Ast Leaf))
  | .alternation _ asts => asts :: collectAllAlternations asts
  | .group _ _ ast => collectAlternations ast
  | .concat _ asts => collectAllAlternations asts
  | .repetition _ _ ast => collectAlternations ast
  | .empty _ | .flags _ | .assertion _ | .leaf _ _ => []

def collectAllAlternations : List (Ast Leaf) → List (List (Ast Leaf))
  | [] => []
  | ast :: asts => collectAlternations ast ++ collectAllAlternations asts

end

mutual

def nullable : Ast Leaf → Bool
  | .empty _ | .flags _ | .assertion _ => true
  | .leaf _ _ => false
  | .group _ _ ast => nullable ast
  | .alternation _ asts => anyNullable asts
  | .concat _ asts => allNullable asts
  | .repetition _ kind ast => minOf kind == 0 || nullable ast

def anyNullable : List (Ast Leaf) → Bool
  | [] => false
  | ast :: asts => nullable ast || anyNullable asts

def allNullable : List (Ast Leaf) → Bool
  | [] => true
  | ast :: asts => nullable ast && allNullable asts

end

end Syntax

section Classes

structure Classes (Class : Type) where
  empty : Class
  union : Class → Class → Class
  intersect : Class → Class → Class
  isEmpty : Class → Bool
  ofRanges : List (Char × Char) → Class

variable {Class : Type}

def Classes.intersectionIsEmpty (classes : Classes Class) (first second : Class) : Bool :=
  classes.isEmpty (classes.intersect first second)

/-- The fixed part a text starts with, a class for each character, and whether it is all of it. -/
structure Shape (Class : Type) where
  front : List Class
  exact : Bool

namespace Shape

/-- One shape after another: nothing is known past one that is not exact. -/
def andThen (part rest : Shape Class) : Shape Class :=
  if part.exact then ⟨part.front ++ rest.front, rest.exact⟩ else part

def unroll (inner : Shape Class) : Nat → Shape Class
  | 0 => ⟨[], true⟩
  | times + 1 => inner.andThen (inner.unroll times)

end Shape

def maxUnroll : Nat := 32

/-- Whether a text of branch `first` is also a text of branch `second` and a restart of the loop. -/
def branchesOverlap (classes : Classes Class) (first second : Shape Class) (restart : Class) : Bool :=
  if (first.front.zip second.front).any fun pair => classes.intersectionIsEmpty pair.1 pair.2 then
    false
  else if !first.exact then true
  else if second.front.length < first.front.length then !second.exact
  else
    match second.front[first.front.length]? with
    | some next => !classes.intersectionIsEmpty next restart
    | none => true

def anyPair {Item : Type} (related : Item → Item → Bool) : List Item → Bool
  | [] => false
  | item :: items => items.any (related item) || anyPair related items

end Classes

inductive RedosRisk where
  | nestedQuantifiers (offset : Nat)
  | overlappingAlternation (offset : Nat)
  | overlappingSuffix (offset : Nat)
  | notParsed
  deriving DecidableEq, Repr

structure Walker (Leaf Class : Type) where
  classes : Classes Class
  fromUtf8Lossy : List UInt8 → String
  translate : Leaf → Option Hir
  offsets : List Nat

namespace Walker

variable {Leaf Class : Type} (walker : Walker Leaf Class)

def hirClasses : Hir → List Class
  | .literal bytes =>
      (walker.fromUtf8Lossy bytes).toList.map fun char => walker.classes.ofRanges [(char, char)]
  | .unicodeClass ranges => [walker.classes.ofRanges ranges]
  | .bytesClass ranges =>
      [walker.classes.ofRanges (ranges.map fun range =>
        (Char.ofNat range.1.toNat, Char.ofNat range.2.toNat))]
  | .empty | .look | .repetition _ | .capture _ | .concat _ | .alternation _ => []

def leafClasses (leaf : Leaf) : List Class :=
  match walker.translate leaf with
  | some hir => walker.hirClasses hir
  | none => []

def originalOffset (start : Nat) : Nat :=
  walker.offsets[start]?.getD start

mutual

def firstSet : Ast Leaf → Class
  | .empty _ | .flags _ | .assertion _ => walker.classes.empty
  | .leaf _ leaf => (walker.leafClasses leaf).head?.getD walker.classes.empty
  | .group _ _ ast => firstSet ast
  | .repetition _ _ ast => firstSet ast
  | .alternation _ asts => firstSetOfAlternation walker.classes.empty asts
  | .concat _ asts => firstSetOfConcat walker.classes.empty asts

def firstSetOfAlternation (found : Class) : List (Ast Leaf) → Class
  | [] => found
  | ast :: asts => firstSetOfAlternation (walker.classes.union found (firstSet ast)) asts

def firstSetOfConcat (found : Class) : List (Ast Leaf) → Class
  | [] => found
  | ast :: asts =>
      if nullable ast then firstSetOfConcat (walker.classes.union found (firstSet ast)) asts
      else walker.classes.union found (firstSet ast)

end

mutual

def shape : Ast Leaf → Shape Class
  | .empty _ | .flags _ | .assertion _ => ⟨[], true⟩
  | .leaf _ leaf => ⟨walker.leafClasses leaf, true⟩
  | .group _ _ ast => shape ast
  | .concat _ asts => shapeOfConcat asts
  | .alternation _ _ => ⟨[], false⟩
  | .repetition _ kind ast =>
      let out := (shape ast).unroll (min (minOf kind).toNat maxUnroll)
      if maxOf kind != some (minOf kind) || maxUnroll < (minOf kind).toNat then
        { out with exact := false }
      else out

def shapeOfConcat : List (Ast Leaf) → Shape Class
  | [] => ⟨[], true⟩
  | ast :: asts => (shape ast).andThen (shapeOfConcat asts)

end

def singleClassUnbounded (ast : Ast Leaf) : Option Class :=
  match unwrapGroups ast with
  | .repetition _ kind body =>
      if isUnbounded kind && (walker.shape body).exact && (walker.shape body).front.length == 1 then
        (walker.shape body).front.head?
      else none
  | _ => none

def alternationOverlaps (asts : List (Ast Leaf)) : Bool :=
  let restart := walker.firstSetOfAlternation walker.classes.empty asts
  anyPair (fun first second =>
    branchesOverlap walker.classes first second restart ||
      branchesOverlap walker.classes second first restart) (asts.map walker.shape)

def hasOverlappingAlternation (body : Ast Leaf) : Bool :=
  (collectAlternations body).any walker.alternationOverlaps

/-- Whether the next unbounded repetition, past what may be empty, takes some of the characters. -/
def suffixOverlaps (class_ : Class) : List (Ast Leaf) → Bool
  | [] => false
  | item :: items =>
      match walker.singleClassUnbounded item with
      | some next => !walker.classes.intersectionIsEmpty class_ next
      | none => nullable item && suffixOverlaps class_ items

def checkOverlappingSuffixes : List (Ast Leaf) → List RedosRisk
  | [] => []
  | item :: items =>
      (match walker.singleClassUnbounded item with
        | some class_ =>
            if walker.suffixOverlaps class_ items then
              [.overlappingSuffix (walker.originalOffset item.start)]
            else []
        | none => []) ++ checkOverlappingSuffixes items

def checkRepetition (start : Nat) (kind : RepetitionKind) (body : Ast Leaf) : List RedosRisk :=
  if isUnbounded kind then
    let offset := walker.originalOffset start
    (if containsVariableRepetition body then [.nestedQuantifiers offset] else []) ++
      (if walker.hasOverlappingAlternation body then [.overlappingAlternation offset] else [])
  else []

mutual

def walk : Ast Leaf → List RedosRisk
  | .repetition start kind body => walker.checkRepetition start kind body ++ walk body
  | .group _ _ ast => walk ast
  | .alternation _ asts => walkAll asts
  | .concat _ asts => walker.checkOverlappingSuffixes asts ++ walkAll asts
  | .empty _ | .flags _ | .assertion _ | .leaf _ _ => []

def walkAll : List (Ast Leaf) → List RedosRisk
  | [] => []
  | ast :: asts => walk ast ++ walkAll asts

end

end Walker

structure Syntax (Leaf Class : Type) where
  parse : List UInt8 → Option (Ast Leaf)
  classes : Classes Class
  fromUtf8Lossy : List UInt8 → String
  translate : List UInt8 → Leaf → Option Hir

def Syntax.walker {Leaf Class : Type} (reader : Syntax Leaf Class) (source : Desugared) :
    Walker Leaf Class :=
  ⟨reader.classes, reader.fromUtf8Lossy, reader.translate source.text, source.offsets⟩

def lint {Leaf Class : Type} (reader : Syntax Leaf Class) (pattern : String) :
    Except Panic (Option (List RedosRisk)) :=
  (parseWithFallback reader.parse pattern).map fun parsed =>
    parsed.map fun (ast, source) => (reader.walker source).walk ast

end FusionPipeline.Lint
