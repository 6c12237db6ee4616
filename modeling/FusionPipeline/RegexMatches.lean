import FusionPipeline.PathText
import FusionPipeline.RegexCaptures

/-! The matches the iterator yields, against the engine's leftmost matches, and what replacing them
makes. -/

namespace FusionPipeline

open Utf8 (size Cut)

/-- An engine that finds a match finds it at or after the start, between characters. -/
def Regex.Bounded (re : Regex) (haystack : List Char) : Prop :=
  ∀ start budget caps left, Cut haystack start →
    re.capturesAt haystack start budget = .ok (some caps, left) →
      ∃ span, caps.span 0 = some span ∧ start ≤ span.start ∧ span.start ≤ span.stop ∧
        Cut haystack span.start ∧ Cut haystack span.stop

section Reference

variable (re : Regex) (haystack : List Char)

def charAt (haystack : List Char) (i : Nat) : Option Char :=
  (Utf8.slice haystack i (size haystack)).bind List.head?

/-- The leftmost match after the last one that is not an empty one where that one ended: such a
match is passed over with the character after it. -/
def nextMatch (last : Option Nat) (budget : Option Nat) :
    Except MatchError (Option (Captures × Option Nat)) :=
  match re.capturesAt haystack (last.getD 0) budget with
  | .error e => .error e
  | .ok (none, _) => .ok none
  | .ok (some caps, left) =>
      if last.isSome ∧ caps.span 0 = last.map fun stop => ⟨stop, stop⟩ then
        match charAt haystack (last.getD 0) with
        | none => .ok none
        | some c =>
            (re.capturesAt haystack (last.getD 0 + c.utf8Size) left).map fun (found, left) =>
              found.map (·, left)
      else .ok (some (caps, left))

inductive Matches : Option Nat → Option Nat → List (Except MatchError Captures) → Prop where
  | none_ {last budget : Option Nat} (missed : nextMatch re haystack last budget = .ok none) :
      Matches last budget []
  | failed {last budget : Option Nat} {e : MatchError}
      (fails : nextMatch re haystack last budget = .error e) : Matches last budget [.error e]
  | found {last budget left : Option Nat} {caps : Captures} {span : Span}
      {more : List (Except MatchError Captures)}
      (hit : nextMatch re haystack last budget = .ok (some (caps, left)))
      (spans : caps.span 0 = some span) (later : Matches (some span.stop) left more) :
      Matches last budget (.ok caps :: more)

/-- All a fresh iteration over the text yields: nothing is searched in a text past the limit. -/
def AllMatches (items : List (Except MatchError Captures)) : Prop :=
  match re.checkInput haystack with
  | .error e => items = [.error e]
  | .ok _ => Matches re haystack none re.budget items

inductive Yields : CapturesIter → List (Except MatchError Captures) → Prop where
  | ended {iter : CapturesIter} (last : (CapturesIter.next re haystack iter).1 = none) :
      Yields iter []
  | item {iter later : CapturesIter} {item : Except MatchError Captures}
      {more : List (Except MatchError Captures)}
      (here : CapturesIter.next re haystack iter = (some item, later)) (others : Yields later more) :
      Yields iter (item :: more)

inductive Replaced (replacement : List Char) : Nat → List Span → List Char → Prop where
  | rest {offset : Nat} {text : List Char}
      (unmatched : Utf8.slice haystack offset (size haystack) = some text) :
      Replaced replacement offset [] text
  | span {offset : Nat} {span : Span} {spans : List Span} {before text : List Char}
      (unmatched : Utf8.slice haystack offset span.start = some before)
      (later : Replaced replacement span.stop spans text) :
      Replaced replacement offset (span :: spans) (before ++ replacement ++ text)

def spansOf (items : List (Except MatchError Captures)) : List Span :=
  items.filterMap fun item => item.toOption.bind fun caps => caps.span 0

def firstError (items : List (Except MatchError Captures)) : Option MatchError :=
  items.findSome? fun
    | .error e => some e
    | .ok _ => none

structure Follows (haystack : List Char) (last : Option Nat) (span : Span) : Prop where
  after : last.getD 0 ≤ span.start
  forward : span.start ≤ span.stop
  starts : Cut haystack span.start
  stops : Cut haystack span.stop
  fresh : ∀ stop, last = some stop → stop < span.stop

inductive InOrder (haystack : List Char) : Option Nat → List Span → Prop where
  | nil {last : Option Nat} : InOrder haystack last []
  | cons {last : Option Nat} {span : Span} {spans : List Span}
      (follows : Follows haystack last span) (later : InOrder haystack (some span.stop) spans) :
      InOrder haystack last (span :: spans)

end Reference

section Search

variable {re : Regex} {haystack : List Char}

theorem charAt_rest (before rest : List Char) : charAt (before ++ rest) (size before) = rest.head? := by
  rw [charAt, Utf8.slice_rest, Option.bind_some]

theorem nextCharBoundary_charAt (haystack : List Char) (i : Nat) :
    nextCharBoundary haystack i = (charAt haystack i).elim (i + 1) (i + ·.utf8Size) := by
  rw [nextCharBoundary, charAt]
  cases (Utf8.slice haystack i (size haystack)).bind List.head? <;> rfl

theorem charAt_cut {i : Nat} (cut : Cut haystack i) :
    (charAt haystack i = none ∧ i = size haystack) ∨
      ∃ c, charAt haystack i = some c ∧ Cut haystack (i + c.utf8Size) := by
  obtain ⟨before, rest, rfl, rfl⟩ := cut
  rw [charAt_rest]
  cases rest with
  | nil => exact .inl ⟨rfl, by rw [List.append_nil]⟩
  | cons c rest =>
      refine .inr ⟨c, rfl, before ++ [c], rest, by simp, ?_⟩
      rw [Utf8.size_append, Utf8.size_cons, Utf8.size_nil]
      rfl

def resumed (last budget : Option Nat) : CapturesIter :=
  ⟨last.getD 0, last, budget, true, false⟩

inductive Answers (haystack : List Char) (last : Option Nat) :
    Except MatchError (Option (Captures × Option Nat)) →
      Option (Except MatchError Captures) × CapturesIter → Prop where
  | failed {e : MatchError} {iter : CapturesIter} (done : iter.done = true) :
      Answers haystack last (.error e) (some (.error e), iter)
  | ended {iter : CapturesIter} : Answers haystack last (.ok none) (none, iter)
  | found {caps : Captures} {left : Option Nat} {span : Span} (spans : caps.span 0 = some span)
      (follows : Follows haystack last span) :
      Answers haystack last (.ok (some (caps, left))) (some (.ok caps), resumed (some span.stop) left)

theorem search_past {last : Option Nat} {start : Nat} (bounded : re.Bounded haystack)
    (cut : Cut haystack start) (later : last.getD 0 ≤ start)
    (past : ∀ stop, last = some stop → stop < start) (budget : Option Nat) (fuel : Nat) :
    Answers haystack last
      ((re.capturesAt haystack start budget).map fun (found, left) => found.map (·, left))
      (CapturesIter.search re haystack (fuel + 1) ⟨start, last, budget, true, false⟩) := by
  have inside : ¬ size haystack < start := by
    have le := cut.le
    omega
  rw [CapturesIter.search, if_neg inside]
  dsimp only
  cases found : re.capturesAt haystack start budget with
  | error e => exact Answers.failed rfl
  | ok result =>
      obtain ⟨hit, left⟩ := result
      cases hit with
      | none => exact Answers.ended
      | some caps =>
          obtain ⟨span, spans, after, forward, starts, stops⟩ :=
            bounded start budget caps left cut found
          dsimp only
          rw [spans]
          dsimp only
          rw [if_neg]
          · refine Answers.found spans ⟨by omega, forward, starts, stops, ?_⟩
            intro stop same
            have before := past stop same
            omega
          · rintro ⟨_, same⟩
            have before := past span.stop same.symm
            omega

/-- A call yields the next match of the reference. -/
theorem next_resumed {last : Option Nat} (bounded : re.Bounded haystack)
    (cut : Cut haystack (last.getD 0)) (budget : Option Nat) :
    Answers haystack last (nextMatch re haystack last budget)
      (CapturesIter.next re haystack (resumed last budget)) := by
  have inside : ¬ size haystack < last.getD 0 := by
    have le := cut.le
    omega
  rw [CapturesIter.next, resumed]
  dsimp only
  rw [if_neg (by decide), if_pos rfl, CapturesIter.search, if_neg inside, nextMatch]
  dsimp only
  cases found : re.capturesAt haystack (last.getD 0) budget with
  | error e => exact Answers.failed rfl
  | ok result =>
      obtain ⟨hit, left⟩ := result
      cases hit with
      | none => exact Answers.ended
      | some caps =>
          obtain ⟨span, spans, after, forward, starts, stops⟩ :=
            bounded (last.getD 0) budget caps left cut found
          dsimp only
          rw [spans]
          dsimp only
          by_cases skips : span.start = span.stop ∧ some span.stop = last
          · obtain ⟨empty, same⟩ := skips
            have passed : last.isSome ∧ some span = last.map fun stop => ⟨stop, stop⟩ := by
              obtain ⟨start, stop⟩ := span
              dsimp only at empty same
              rw [← same, empty]
              exact ⟨rfl, rfl⟩
            rw [if_pos passed, if_pos ⟨empty, same⟩, nextCharBoundary_charAt]
            rcases charAt_cut cut with ⟨none_, ends⟩ | ⟨c, here, further⟩
            · rw [none_, Option.elim_none, CapturesIter.search, if_pos (by dsimp only; omega)]
              exact Answers.ended
            · have wide := c.utf8Size_pos
              rw [here, Option.elim_some]
              refine search_past bounded further (Nat.le_add_right _ _) ?_ left (size haystack)
              intro stop held
              rw [held, Option.getD_some]
              omega
          · have hit : ¬ (last.isSome ∧ some span = last.map fun stop => ⟨stop, stop⟩) := by
              rintro ⟨some_, same⟩
              obtain ⟨stop, rfl⟩ := Option.isSome_iff_exists.mp some_
              rw [Option.map_some, Option.some.injEq] at same
              rw [same] at skips
              exact skips ⟨rfl, rfl⟩
            rw [if_neg hit, if_neg skips]
            refine Answers.found spans ⟨after, forward, starts, stops, ?_⟩
            rintro stop rfl
            rw [Option.getD_some] at after
            have apart : stop ≠ span.stop := by
              rintro rfl
              exact skips ⟨by omega, rfl⟩
            omega

def matchesLeft (haystack : List Char) : Option Nat → Nat
  | none => size haystack + 2
  | some stop => size haystack + 1 - stop

theorem Follows.lowers {last : Option Nat} {span : Span} (follows : Follows haystack last span) :
    matchesLeft haystack (some span.stop) < matchesLeft haystack last := by
  have inside := follows.stops.le
  cases last with
  | none =>
      rw [matchesLeft, matchesLeft]
      omega
  | some stop =>
      have further := follows.fresh stop rfl
      rw [matchesLeft, matchesLeft]
      omega

theorem yields_done {iter : CapturesIter} (done : iter.done = true) : Yields re haystack iter [] := by
  apply Yields.ended
  rw [CapturesIter.next, if_pos done]

structure Iterated (re : Regex) (haystack : List Char) (last budget : Option Nat)
    (items : List (Except MatchError Captures)) : Prop where
  yields : Yields re haystack (resumed last budget) items
  matches_ : Matches re haystack last budget items
  short : items.length ≤ matchesLeft haystack last
  inOrder : InOrder haystack last (spansOf items)

theorem iterated (bounded : re.Bounded haystack) (last budget : Option Nat)
    (cut : Cut haystack (last.getD 0)) : ∃ items, Iterated re haystack last budget items := by
  generalize steps : matchesLeft haystack last = left
  induction left using Nat.strong_induction_on generalizing last budget with
  | _ left ih =>
      have positive : 0 < matchesLeft haystack last := by
        cases last with
        | none => exact Nat.succ_pos _
        | some stop =>
            have inside := cut.le
            rw [Option.getD_some] at inside
            rw [matchesLeft]
            omega
      have answered := next_resumed bounded cut budget
      generalize hit : nextMatch re haystack last budget = result at answered
      generalize called : CapturesIter.next re haystack (resumed last budget) = answer at answered
      cases answered with
      | @failed e iter done =>
          exact ⟨[.error e], Yields.item called (yields_done done), Matches.failed hit, positive,
            InOrder.nil⟩
      | ended =>
          refine ⟨[], Yields.ended ?_, Matches.none_ hit, Nat.zero_le _, InOrder.nil⟩
          rw [called]
      | @found caps spent span spans follows =>
          have lower := follows.lowers
          obtain ⟨items, rest⟩ := ih _ (steps ▸ lower) (some span.stop) spent follows.stops rfl
          have split : spansOf (.ok caps :: items) = span :: spansOf items :=
            List.filterMap_cons_some spans
          have short := rest.short
          refine ⟨.ok caps :: items, Yields.item called rest.yields,
            Matches.found hit spans rest.matches_, ?_, ?_⟩
          · rw [List.length_cons]
            omega
          · rw [split]
            exact InOrder.cons follows rest.inOrder

theorem items_yields {iter : CapturesIter} {items : List (Except MatchError Captures)}
    (yields : Yields re haystack iter items) {fuel : Nat} (enough : items.length < fuel) :
    CapturesIter.items re haystack fuel iter = items := by
  induction yields generalizing fuel with
  | @ended iter last =>
      obtain ⟨fuel, rfl⟩ := Nat.exists_eq_succ_of_ne_zero (show fuel ≠ 0 by omega)
      rw [CapturesIter.items]
      generalize CapturesIter.next re haystack iter = called at last
      obtain ⟨item, later⟩ := called
      obtain rfl := last
      rfl
  | @item iter later item more here others ih =>
      rw [List.length_cons] at enough
      obtain ⟨fuel, rfl⟩ := Nat.exists_eq_succ_of_ne_zero (show fuel ≠ 0 by omega)
      rw [CapturesIter.items, here]
      dsimp only
      rw [ih (by omega)]

theorem next_fresh : CapturesIter.next re haystack re.capturesIter =
    match re.checkInput haystack with
    | .error e => (some (.error e), { re.capturesIter with checked := true, done := true })
    | .ok _ => CapturesIter.next re haystack (resumed none re.budget) := by
  rfl

/-- A fresh iteration yields every match of the text, or the error of a text past the limit. -/
theorem capturesIter_yields (bounded : re.Bounded haystack) :
    ∃ items, Yields re haystack re.capturesIter items ∧ AllMatches re haystack items ∧
      InOrder haystack none (spansOf items) ∧ items.length ≤ size haystack + 2 := by
  cases checked : re.checkInput haystack with
  | error e =>
      refine ⟨[.error e], ?_, ?_, InOrder.nil, by simp⟩
      · have first : CapturesIter.next re haystack re.capturesIter =
            (some (.error e), { re.capturesIter with checked := true, done := true }) := by
          rw [next_fresh, checked]
        exact Yields.item first (yields_done rfl)
      · rw [AllMatches, checked]
  | ok passed =>
      obtain ⟨items, found⟩ := iterated bounded none re.budget (Utf8.cut_zero haystack)
      have same : CapturesIter.next re haystack re.capturesIter =
          CapturesIter.next re haystack (resumed none re.budget) := by
        rw [next_fresh, checked]
      refine ⟨items, ?_, ?_, found.inOrder, found.short⟩
      · cases found.yields with
        | ended last =>
            rw [← same] at last
            exact Yields.ended last
        | item here others =>
            rw [← same] at here
            exact Yields.item here others
      · rw [AllMatches, checked]
        exact found.matches_

theorem slice_cut {first second : Nat} (starts : Cut haystack first) (stops : Cut haystack second)
    (order : first ≤ second) : ∃ part, Utf8.slice haystack first second = some part := by
  obtain ⟨before, part, after, rfl, rfl, rfl⟩ := starts.between stops order
  exact ⟨part, Utf8.slice_append before part after⟩

structure Rewritten (haystack replacement : List Char) (last : Option Nat)
    (items : List (Except MatchError Captures)) (out : Option (List Char)) (final : Rewrite) :
    Prop where
  text : ∃ text rest, Replaced haystack replacement (last.getD 0) (spansOf items) text ∧
    Utf8.slice haystack final.copied (size haystack) = some rest ∧
      final.out.getD [] ++ rest = out.getD [] ++ text
  some_ : final.out = none ↔ out = none ∧ items = []

theorem rewriteSteps {items : List (Except MatchError Captures)} {last budget : Option Nat}
    (found : Matches re haystack last budget items) (inOrder : InOrder haystack last (spansOf items))
    (cut : Cut haystack (last.getD 0)) (replacement : List Char) (out : Option (List Char)) :
    (∃ e, firstError items = some e ∧
      items.foldlM (rewriteStep haystack replacement) ⟨out, last.getD 0⟩ = .error (.error e)) ∨
    firstError items = none ∧ ∃ final,
      items.foldlM (rewriteStep haystack replacement) ⟨out, last.getD 0⟩ = .ok final ∧
        Rewritten haystack replacement last items out final := by
  induction found generalizing out with
  | @none_ last budget missed =>
      obtain ⟨rest, unmatched⟩ := slice_cut cut (Utf8.cut_size haystack) cut.le
      refine .inr ⟨rfl, ⟨out, last.getD 0⟩, rfl, ⟨rest, rest, ?_, unmatched, rfl⟩, by simp⟩
      exact Replaced.rest unmatched
  | failed fails => exact .inl ⟨_, rfl, rfl⟩
  | @found last budget left caps span more hit spans later ih =>
      rw [show spansOf (.ok caps :: more) = span :: spansOf more from
        List.filterMap_cons_some spans] at inOrder
      cases inOrder with
      | cons follows others =>
          obtain ⟨before, unmatched⟩ := slice_cut cut follows.starts follows.after
          have step : rewriteStep haystack replacement ⟨out, last.getD 0⟩ (.ok caps) =
              .ok ⟨some (out.getD [] ++ before ++ replacement), span.stop⟩ := by
            rw [rewriteStep]
            dsimp only
            rw [spans]
            dsimp only
            rw [FusionPipeline.slice, unmatched]
            rfl
          have rest := ih others follows.stops (some (out.getD [] ++ before ++ replacement))
          rw [List.foldlM_cons, step, Fallible.ok_bind]
          rcases rest with ⟨e, failed, ran⟩ | ⟨clean, final, ran, written⟩
          · exact .inl ⟨e, failed, ran⟩
          · obtain ⟨text, tail, replaced, sliced, same⟩ := written.text
            refine .inr ⟨clean, final, ran, ⟨before ++ replacement ++ text, tail, ?_, sliced, ?_⟩, ?_⟩
            · rw [show spansOf (.ok caps :: more) = span :: spansOf more from
                List.filterMap_cons_some spans]
              exact Replaced.span unmatched replaced
            · rw [same, Option.getD_some]
              simp only [List.append_assoc]
            · rw [written.some_]
              simp

theorem replaceAll_items {items : List (Except MatchError Captures)}
    (all : AllMatches re haystack items) (inOrder : InOrder haystack none (spansOf items))
    (collected : CapturesIter.items re haystack (size haystack + 3) re.capturesIter = items)
    (replacement : List Char) :
    (∃ e, firstError items = some e ∧ re.replaceAll haystack replacement = .error (.error e)) ∨
    firstError items = none ∧
      ((items = [] ∧ re.replaceAll haystack replacement = .ok none) ∨
        (items ≠ [] ∧ ∃ text, Replaced haystack replacement 0 (spansOf items) text ∧
          re.replaceAll haystack replacement = .ok (some text))) := by
  have steps : (∃ e, firstError items = some e ∧
      items.foldlM (rewriteStep haystack replacement) ⟨none, 0⟩ = .error (.error e)) ∨
      firstError items = none ∧ ∃ final,
        items.foldlM (rewriteStep haystack replacement) ⟨none, 0⟩ = .ok final ∧
          Rewritten haystack replacement none items none final := by
    rw [AllMatches] at all
    split at all
    next e checked =>
      rw [all]
      exact .inl ⟨e, rfl, rfl⟩
    next => exact rewriteSteps all inOrder (Utf8.cut_zero haystack) replacement none
  rcases steps with ⟨e, failed, ran⟩ | ⟨clean, final, ran, written⟩
  · refine .inl ⟨e, failed, ?_⟩
    rw [Regex.replaceAll, collected, ran]
    rfl
  · obtain ⟨text, rest, replaced, sliced, same⟩ := written.text
    refine .inr ⟨clean, ?_⟩
    rw [Regex.replaceAll, collected, ran, Fallible.ok_bind]
    cases out : final.out with
    | none => exact .inl ⟨(written.some_.mp out).2, rfl⟩
    | some front =>
        refine .inr ⟨?_, text, replaced, ?_⟩
        · intro empty
          rw [written.some_.mpr ⟨rfl, empty⟩] at out
          cases out
        · rw [out, Option.getD_some, Option.getD_none, List.nil_append] at same
          dsimp only
          rw [sliceFrom, FusionPipeline.slice, sliced, ← same]
          rfl

theorem replaceAll_noPanic (bounded : re.Bounded haystack) (replacement : List Char) :
    re.replaceAll haystack replacement ≠ .error .panic := by
  obtain ⟨items, yields, all, inOrder, short⟩ := capturesIter_yields bounded
  have collected := items_yields yields (show items.length < size haystack + 3 by omega)
  have result := replaceAll_items all inOrder collected replacement
  rintro panics
  rw [panics] at result
  simp at result

def emptyPattern : Regex :=
  ⟨.linear fun _ start => some [some ⟨start, start⟩], [none], 65536⟩

theorem emptyPattern_bounded (haystack : List Char) : emptyPattern.Bounded haystack := by
  intro start budget caps left cut found
  obtain rfl := Option.some.inj (congrArg Prod.fst (Except.ok.inj found))
  exact ⟨⟨start, start⟩, rfl, Nat.le_refl _, Nat.le_refl _, cut, cut⟩

example : emptyPattern.replaceAll "né".toList "-".toList = .ok (some "-n-é-".toList) := by
  decide +kernel

end Search

end FusionPipeline
