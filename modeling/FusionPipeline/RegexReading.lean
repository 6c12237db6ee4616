import FusionPipeline.RegexMoves

/-!
A pattern as it reads: classes, escapes, PCRE2-only syntax and the bytes between. Nothing
here scans with a state; a class ends where its text says it does.
-/

namespace FusionPipeline.Regex

inductive Piece where
  /-- PCRE2-only syntax and what it is rewritten to. -/
  | rewrite (replacement text : List UInt8)
  | escape (text : List UInt8)
  | charClass (caret members : List UInt8) (closed : Bool)
  | byte (value : UInt8)
  deriving DecidableEq, Repr

def closing : Bool → List UInt8 → Option Nat
  | _, [] => none
  | true, _ :: after => (closing false after).map (· + 1)
  | false, value :: after =>
      if value = b '\\' then (closing true after).map (· + 1)
      else if value = b ']' then some 0
      else (closing false after).map (· + 1)

def classEnd : List UInt8 → Option Nat
  | [] => none
  | value :: after =>
      if value = b ']' then (closing false after).map (· + 1) else closing false (value :: after)

def caretLength (after : List UInt8) : Nat :=
  if after[0]? = some (b '^') then 1 else 0

def rewriteAt (rest : List UInt8) : Option (List UInt8 × Nat) :=
  if rest[0]? = some (b '\\') then (escapedReference rest).map fun length => (emptyGroup, length)
  else if rest[0]? = some (b '(') then groupRewrite rest
  else none

/-- The pieces of a pattern, where `special` says what is taken as one piece outside a class. -/
def pieces (special : List UInt8 → Option (List UInt8 × Nat)) (rest : List UInt8) : List Piece :=
  match rest with
  | [] => []
  | value :: after =>
      match special (value :: after) with
      | some (replacement, length) =>
          .rewrite replacement ((value :: after).take length) ::
            pieces special (after.drop (length - 1))
      | none =>
          if value = b '\\' then
            .escape ((value :: after).take 2) :: pieces special (after.drop 1)
          else if value = b '[' then
            let caret := caretLength after
            let body := after.drop caret
            match classEnd body with
            | some length =>
                .charClass (after.take caret) (body.take length) true ::
                  pieces special (body.drop (length + 1))
            | none => [.charClass (after.take caret) body false]
          else .byte value :: pieces special after
termination_by rest.length
decreasing_by all_goals simp only [List.length_cons, List.length_drop]; omega

def Piece.marks : Piece → List Bool
  | rewrite _ text => List.replicate text.length false
  | escape text => List.replicate text.length false
  | charClass caret members closed =>
      false :: List.replicate (caret.length + members.length) true ++ if closed then [false] else []
  | byte _ => [false]

def escapes : Bool → List UInt8 → Bool
  | open_, [] => !open_
  | true, _ :: after => escapes false after
  | false, value :: after => value == b '\\' && escapes true after

def Piece.escapesOnly : Piece → Bool
  | charClass _ members true => !members.isEmpty && escapes false members
  | _ => false

inductive Paren where
  | opens
  | closes
  deriving DecidableEq, Repr

def Piece.parens : Piece → List (Option Paren)
  | byte value =>
      [if value = b '(' then some .opens else if value = b ')' then some .closes else none]
  | piece => List.replicate piece.marks.length none

def nest (depth : Nat) : Option Paren → Nat
  | some .opens => depth + 1
  | some .closes => depth - 1
  | none => depth

def depthAfter (before : Nat) (parens : List (Option Paren)) : Nat :=
  parens.foldl nest before

def DeepAt (limit before : Nat) (parens : List (Option Paren)) (offset : Nat) : Prop :=
  parens[offset]? = some (some .opens) ∧ limit < depthAfter before (parens.take (offset + 1))

def FirstDeep (limit before : Nat) (parens : List (Option Paren)) (offset : Nat) : Prop :=
  DeepAt limit before parens offset ∧ ∀ earlier < offset, ¬ DeepAt limit before parens earlier

/-- The text a pattern is rewritten to: classes and escapes verbatim, PCRE2-only syntax
replaced, and the `+` of a possessive quantifier dropped. -/
def rendered : Bool → List Piece → List UInt8
  | _, [] => []
  | _, .rewrite replacement _ :: rest => replacement ++ rendered false rest
  | _, .escape text :: rest => text ++ rendered false rest
  | _, .charClass caret members closed :: rest =>
      b '[' :: caret ++ members ++ (if closed then [b ']'] else []) ++ rendered false rest
  | afterQuantifier, .byte value :: rest =>
      if afterQuantifier ∧ value = b '+' then rendered false rest
      else value :: rendered (isQuantifier value) rest

def ClassState.after (state : ClassState) (value : UInt8) : ClassState :=
  ⟨!(value == b ']' && !state.classStart), false⟩

theorem ClassState.step_member {state : ClassState} (inside : state.inClass = true)
    (value : UInt8) (rest : List UInt8) :
    state.step (value :: rest) 0 = (state.after value, some 1) := by
  simp [ClassState.step, ClassState.after, inside]

/-- The class state inside a class, over the text it walks, with a mark for each byte: whether
the class is still open after it. -/
inductive Walks : ClassState → List UInt8 → List Bool → ClassState → Prop where
  | done (state : ClassState) : Walks state [] [] state
  | escape {state next : ClassState} {text : List UInt8} {marks : List Bool} (value : UInt8)
      (inside : state.inClass = true) (rest : Walks state text marks next) :
      Walks state (b '\\' :: value :: text) (true :: true :: marks) next
  | member {state next : ClassState} {value : UInt8} {text : List UInt8} {marks : List Bool}
      (inside : state.inClass = true) (notBackslash : value ≠ b '\\')
      (rest : Walks (state.after value) text marks next) :
      Walks state (value :: text) ((state.after value).inClass :: marks) next

def Unclosed (state : ClassState) (body : List UInt8) : Prop :=
  ∃ next front last, body = front ++ last ∧ (last = [] ∨ last = [b '\\']) ∧
    next.inClass = true ∧ Walks state front (List.replicate front.length true) next

end FusionPipeline.Regex
