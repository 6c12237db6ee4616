import FusionPipeline.Library.Loop
import FusionPipeline.Library.Utf8

/-!
The byte scanner over regex patterns: the guards a pattern passes before either engine sees
it, and the rewriting of PCRE2-only syntax for the lint and the canary.
-/

namespace FusionPipeline.Regex

abbrev b (char : Char) : UInt8 :=
  char.toUInt8

structure Limits where
  maxPatternLength : Nat
  parensNestLimit : UInt32

inductive CompileError where
  | patternTooLong (len limit offset : Nat)
  | parensTooDeep (limit : UInt32) (offset : Nat)
  deriving DecidableEq, Repr

/-- Inside `[...]` only the closing `]` means anything, and a first `]` is a literal. -/
structure ClassState where
  inClass : Bool
  classStart : Bool
  deriving DecidableEq, Repr

def ClassState.default : ClassState :=
  ⟨false, false⟩

/-- Feeds the byte at `i`: how many bytes belong to class syntax, or none outside a class. -/
def ClassState.step (state : ClassState) (bytes : List UInt8) (i : Nat) :
    ClassState × Option Nat :=
  if state.inClass then
    (⟨!(bytes[i]? == some (b ']') && !state.classStart), false⟩, some 1)
  else if bytes[i]? = some (b '[') then
    (⟨true, true⟩, some (1 + if bytes[i + 1]? = some (b '^') then 1 else 0))
  else (state, none)

def boundaryBefore (bytes : List UInt8) : Nat → Nat
  | 0 => 0
  | offset + 1 =>
      if Utf8.isBoundary bytes (offset + 1) then offset + 1 else boundaryBefore bytes offset

structure GuardState where
  depth : UInt32
  classState : ClassState
  i : Nat

/-- One round of the depth guard; `depth` counts in 32 bits and wraps past them. -/
def guardStep (bytes : List UInt8) (limit : UInt32) (state : GuardState) :
    Except CompileError GuardState :=
  let byte := bytes[state.i]?
  if byte = some (b '\\') then .ok { state with i := state.i + 2 }
  else
    match state.classState.step bytes state.i with
    | (classState, some consumed) => .ok { state with classState, i := state.i + consumed }
    | (classState, none) =>
        if byte = some (b '(') then
          let depth := state.depth + 1
          if limit < depth then .error (.parensTooDeep limit state.i)
          else .ok { depth, classState, i := state.i + 1 }
        else if byte = some (b ')') then
          let depth := if state.depth = 0 then 0 else state.depth - 1
          .ok { depth, classState, i := state.i + 1 }
        else .ok { state with classState, i := state.i + 1 }

def checkDepth (bytes : List UInt8) (limit : UInt32) : Except CompileError GuardState :=
  Loop.run (fun state => state.i < bytes.length) (guardStep bytes limit) bytes.length
    ⟨0, .default, 0⟩

def checkGuards (pattern : String) (limits : Limits) : Except CompileError Unit :=
  let bytes := Utf8.bytes pattern
  if limits.maxPatternLength < bytes.length then
    .error (.patternTooLong bytes.length limits.maxPatternLength
      (boundaryBefore bytes limits.maxPatternLength))
  else (checkDepth bytes limits.parensNestLimit).map fun _ => ()

structure Desugared where
  text : List UInt8
  offsets : List Nat
  deriving DecidableEq, Repr

inductive Panic where
  | slice
  deriving DecidableEq, Repr

def slice (bytes : List UInt8) (start stop : Nat) : Except Panic (List UInt8) :=
  if start ≤ stop ∧ Utf8.isBoundary bytes start ∧ Utf8.isBoundary bytes stop then
    .ok ((bytes.drop start).take (stop - start))
  else .error .slice

namespace Desugared

def pushRange (out : Desugared) (pattern : List UInt8) (start stop : Nat) :
    Except Panic Desugared :=
  let stop := min stop pattern.length
  (slice pattern start stop).map fun kept =>
    ⟨out.text ++ kept, out.offsets ++ List.range' start (stop - start)⟩

def pushReplacement (out : Desugared) (replacement : List UInt8) (position : Nat) : Desugared :=
  ⟨out.text ++ replacement, out.offsets ++ List.replicate replacement.length position⟩

end Desugared

def closerOf (opener : UInt8) : Option UInt8 :=
  if opener = b '{' then some (b '}')
  else if opener = b '<' then some (b '>')
  else if opener = b '\'' then some (b '\'')
  else none

def bracketedLen : List UInt8 → Option Nat
  | [] => none
  | opener :: inner =>
      (closerOf opener).bind fun closer =>
        (inner.findIdx? fun byte => byte == closer).map fun position => position + 2

def escapedReference (rest : List UInt8) : Option Nat :=
  match rest[1]? with
  | none => none
  | some next =>
      if b '1' ≤ next ∧ next ≤ b '9' then some 2
      else if next = b 'g' ∨ next = b 'k' then
        (bracketedLen (rest.drop 2)).map fun length => length + 2
      else none

def openers : List (List UInt8) :=
  ["(?<=", "(?<!", "(?=", "(?!", "(?>"].map Utf8.bytes

def namedReference : List UInt8 :=
  Utf8.bytes "(?P="

def emptyGroup : List UInt8 :=
  Utf8.bytes "(?:)"

def plainGroup : List UInt8 :=
  Utf8.bytes "(?:"

def isQuantifier (byte : UInt8) : Bool :=
  byte == b '*' || byte == b '+' || byte == b '?' || byte == b '}'

structure DesugarState where
  out : Desugared
  classState : ClassState
  afterQuantifier : Bool
  i : Nat

def groupRewrite (rest : List UInt8) : Option (List UInt8 × Nat) :=
  match openers.find? fun opener => opener.isPrefixOf rest with
  | some opener => some (plainGroup, opener.length)
  | none =>
      if namedReference.isPrefixOf rest then
        (rest.findIdx? fun byte => byte == b ')').map fun position => (emptyGroup, position + 1)
      else none

def desugarStep (pattern : List UInt8) (state : DesugarState) : Except Panic DesugarState :=
  let i := state.i
  let rest := pattern.drop i
  let copy := fun (classState : ClassState) (afterQuantifier : Bool) (length : Nat) =>
    (state.out.pushRange pattern i (i + length)).map fun out : Desugared =>
      (⟨out, classState, afterQuantifier, i + length⟩ : DesugarState)
  if pattern[i]? = some (b '\\') ∧ state.classState.inClass then
    copy state.classState state.afterQuantifier 2
  else
    match state.classState.step pattern i with
    | (classState, some consumed) => copy classState false consumed
    | (classState, none) =>
        if pattern[i]? = some (b '\\') then
          match escapedReference rest with
          | some length =>
              .ok ⟨state.out.pushReplacement emptyGroup i, classState, false, i + length⟩
          | none => copy classState false 2
        else if state.afterQuantifier ∧ pattern[i]? = some (b '+') then
          -- A possessive quantifier: the second `+` adds no backtracking.
          .ok { state with classState, afterQuantifier := false, i := i + 1 }
        else
          let afterQuantifier := (pattern[i]?.map isQuantifier).getD false
          match if pattern[i]? = some (b '(') then groupRewrite rest else none with
          | some (replacement, length) =>
              .ok ⟨state.out.pushReplacement replacement i, classState, afterQuantifier, i + length⟩
          | none => copy classState afterQuantifier 1

def desugarPcre2Syntax (pattern : String) : Except Panic Desugared :=
  let bytes := Utf8.bytes pattern
  (Loop.run (fun state => state.i < bytes.length) (desugarStep bytes) bytes.length
    ⟨⟨[], []⟩, .default, false, 0⟩).map fun state =>
      { state.out with offsets := state.out.offsets ++ [bytes.length] }

def parseWithFallback {Tree : Type} (parse : List UInt8 → Option Tree) (pattern : String) :
    Except Panic (Option (Tree × Desugared)) :=
  (desugarPcre2Syntax pattern).map fun desugared =>
    match parse desugared.text with
    | some parsed => some (parsed, desugared)
    | none =>
        let bytes := Utf8.bytes pattern
        (parse bytes).map fun parsed => (parsed, ⟨bytes, List.range (bytes.length + 1)⟩)

end FusionPipeline.Regex
