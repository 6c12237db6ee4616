import FusionPipeline.Path
import FusionPipeline.Route

/-! The matches of a compiled pattern: their groups, the iterator over them, and the replacement of
them all. -/

namespace FusionPipeline

open Utf8 (size)

structure Span where
  start : Nat
  stop : Nat
  deriving DecidableEq, Repr

/-- The spans of a match's groups, as an engine reports them. Group 0 is the match. -/
abbrev Spans := List (Option Span)

/-- What a pattern is compiled on: the engine's leftmost match at or after a byte. A backtracking
engine may fail, and spends the budget it is given. -/
inductive Inner where
  | linear (capturesAt : List Char → Nat → Option Spans)
  | backtracking
      (capturesFrom : List Char → Nat → Option Nat → Except MatchError (Option Spans × Option Nat))
      (budget : Option Nat)

structure Regex where
  inner : Inner
  names : List (Option String)
  inputBytes : Nat

structure Captures where
  haystack : List Char
  spans : Spans
  names : List (Option String)

namespace Captures

def span (caps : Captures) (index : Nat) : Option Span :=
  caps.spans[index]?.join

def get (caps : Captures) (index : Nat) : Option (List Char) := do
  let span ← caps.span index
  Utf8.slice caps.haystack span.start span.stop

def name (caps : Captures) (name : String) : Option (List Char) := do
  let index ← caps.names.findIdx? (· == some name)
  caps.get index

def named (caps : Captures) : List (String × List Char) :=
  caps.names.zipIdx.filterMap fun (name, i) => do return (← name, ← caps.get i)

end Captures

/-- Reads PCRE2's name table into names by group number: an entry is a big-endian group number and
a name up to a zero byte. -/
def readNameTable (fromUtf8Lossy : List UInt8 → String) (captureCount : Nat)
    (table : List (List UInt8)) : List (Option String) :=
  table.foldl
    (fun names entry =>
      match entry with
      | high :: low :: nameBytes =>
          names.set (high.toNat * 256 + low.toNat)
            (some (fromUtf8Lossy (nameBytes.takeWhile (· ≠ 0))))
      | _ => names)
    (List.replicate (captureCount + 1) none)

def nextCharBoundary (haystack : List Char) (at_ : Nat) : Nat :=
  match (Utf8.slice haystack at_ (size haystack)).bind List.head? with
  | some c => at_ + c.utf8Size
  | none => at_ + 1

structure CapturesIter where
  start : Nat
  lastEnd : Option Nat
  budget : Option Nat
  checked : Bool
  done : Bool
  deriving DecidableEq

namespace Regex

def checkInput (re : Regex) (haystack : List Char) : Except MatchError Unit :=
  if re.inputBytes < size haystack then .error (.inputTooLarge (size haystack) re.inputBytes)
  else .ok ()

def capturesAt (re : Regex) (haystack : List Char) (start : Nat) (budget : Option Nat) :
    Except MatchError (Option Captures × Option Nat) :=
  match re.inner with
  | .linear capturesAt =>
      .ok ((capturesAt haystack start).map (⟨haystack, ·, re.names⟩), budget)
  | .backtracking capturesFrom _ =>
      (capturesFrom haystack start budget).map fun (found, remaining) =>
        (found.map (⟨haystack, ·, re.names⟩), remaining)

def budget (re : Regex) : Option Nat :=
  match re.inner with
  | .linear _ => none
  | .backtracking _ budget => budget

def captures (re : Regex) (haystack : List Char) : Except MatchError (Option Captures) := do
  re.checkInput haystack
  let (found, _) ← re.capturesAt haystack 0 re.budget
  return found

def capturesIter (re : Regex) : CapturesIter :=
  ⟨0, none, re.budget, false, false⟩

end Regex

namespace CapturesIter

variable (re : Regex) (haystack : List Char)

def search : Nat → CapturesIter → Option (Except MatchError Captures) × CapturesIter
  | 0, iter => (none, iter)
  | fuel + 1, iter =>
      if size haystack < iter.start then (none, { iter with done := true })
      else
        match re.capturesAt haystack iter.start iter.budget with
        | .error e => (some (.error e), { iter with done := true })
        | .ok (none, budget) => (none, { iter with budget, done := true })
        | .ok (some caps, budget) =>
            match caps.span 0 with
            | none => (none, { iter with budget, done := true })
            | some span =>
                if span.start = span.stop ∧ some span.stop = iter.lastEnd then
                  search fuel { iter with budget, start := nextCharBoundary haystack iter.start }
                else
                  (some (.ok caps),
                    { iter with budget, lastEnd := some span.stop, start := span.stop })

def next (iter : CapturesIter) : Option (Except MatchError Captures) × CapturesIter :=
  if iter.done then (none, iter)
  else if iter.checked then search re haystack (size haystack + 2) iter
  else
    match re.checkInput haystack with
    | .error e => (some (.error e), { iter with checked := true, done := true })
    | .ok _ => search re haystack (size haystack + 2) { iter with checked := true }

def items : Nat → CapturesIter → List (Except MatchError Captures)
  | 0, _ => []
  | fuel + 1, iter =>
      match next re haystack iter with
      | (none, _) => []
      | (some item, iter) => item :: items fuel iter

end CapturesIter

structure Rewrite where
  out : Option (List Char)
  copied : Nat

def rewriteStep (haystack replacement : List Char) (state : Rewrite)
    (item : Except MatchError Captures) : Except (Fault MatchError) Rewrite :=
  match item with
  | .error e => .error (.error e)
  | .ok caps =>
      match caps.span 0 with
      | none => .ok state
      | some span => do
          let unmatched ← FusionPipeline.slice haystack state.copied span.start
          return ⟨some (state.out.getD [] ++ unmatched ++ replacement), span.stop⟩

def Regex.replaceAll (re : Regex) (haystack replacement : List Char) :
    Except (Fault MatchError) (Option (List Char)) := do
  let items := CapturesIter.items re haystack (size haystack + 3) re.capturesIter
  let state ← items.foldlM (rewriteStep haystack replacement) ⟨none, 0⟩
  match state.out with
  | none => return none
  | some out =>
      let rest ← sliceFrom haystack state.copied
      return some (out ++ rest)

end FusionPipeline
