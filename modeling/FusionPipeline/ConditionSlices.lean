import FusionPipeline.PathSlices
import FusionPipeline.ConditionTokens

/-! Every slice the condition lexer takes is a slice of its text, and its loops end. -/

namespace FusionPipeline

open Regex (b)
open Utf8 (encode size Cut)

variable {Float : Type} {parseFloat : List Char → Option Float}

theorem ascii_of_stops {byte : UInt8} (stops : continuesBareSegment byte = false) :
    byte.toNat < 0x80 := by
  have all : ∀ other ∈ [b ' ', b '\t', b '\n', b '\r', b '.', b '(', b ')', b '[', b ']', b '=', b '!',
      b '<', b '>', b '"', b '\''], other.toNat < 0x80 := by decide
  rw [continuesBareSegment, Bool.not_eq_false'] at stops
  exact all byte (List.contains_iff_mem.mp stops)

theorem cut_bareEnd {expr : List Char} {i : Nat} (inside : i ≤ size expr) :
    Cut expr (bareEnd (encode expr) i) ∧ i ≤ bareEnd (encode expr) i :=
  ⟨Utf8.cut_scan (fun _ stops => ascii_of_stops stops) inside, Nat.le_add_right _ _⟩

theorem quotedEnd_le {text : List Char} {i stop : Nat} (closed : quotedEnd text i = some stop) :
    stop ≤ size text := by
  have bound {quote : UInt8} {bytes : List UInt8} {length : Nat}
      (closed : closeOffset quote bytes = some length) : length ≤ bytes.length := by
    fun_induction closeOffset quote bytes generalizing length with
    | case1 => cases closed
    | case2 => cases closed
    | case3 skipped more ih =>
        obtain ⟨earlier, inner, rfl⟩ := Option.map_eq_some_iff.mp closed
        have within := ih inner
        rw [List.length_cons, List.length_cons]
        omega
    | case4 =>
        obtain rfl := Option.some.inj closed
        rw [List.length_cons]
        omega
    | case5 byte rest _ _ ih =>
        obtain ⟨earlier, inner, rfl⟩ := Option.map_eq_some_iff.mp closed
        have within := ih inner
        rw [List.length_cons]
        omega
  rw [quotedEnd] at closed
  split at closed
  · cases closed
  next quote inner here =>
    obtain ⟨length, found, rfl⟩ := Option.map_eq_some_iff.mp closed
    have within := bound found
    have lengths := congrArg List.length here
    rw [List.length_drop, List.length_cons, ← size] at lengths
    omega

theorem bracketEnd_ends (expr : List Char) (i : Nat) :
    Fallible.Ensures (fun _ => True)
      (fun stop => i ≤ stop ∧
        (decide (stop < size expr) && (encode expr)[stop]? != some (b ']')) = false)
      (Loop.run (fun i => i < size expr && (encode expr)[i]? != some (b ']'))
        (oldBracketRound expr) (size expr) i) := by
  refine @Loop.run_ensures _ _ _ _ (fun stop => size expr - stop) (fun stop => i ≤ stop) _
    ?_ ?_ _ _ (Nat.le_refl i) (Nat.sub_le _ _)
  · intro stop after going
    have inside := of_decide_eq_true (Bool.and_eq_true_iff.mp going).1
    have moves {next : Nat} (later : stop < next) :
        i ≤ next ∧ size expr - next < size expr - stop := by
      omega
    rw [oldBracketRound]
    split
    · cases closed : quotedEnd expr stop with
      | none => exact moves inside
      | some next => exact moves (quotedEnd_lt closed)
    · exact moves (Nat.lt_succ_self stop)
  · intro stop _ none_
    rw [Bool.and_eq_false_iff]
    exact .inl (decide_eq_false (by omega))

theorem cut_bracketEnd {expr : List Char} {i : Nat} (inside : i ≤ size expr) :
    Cut expr (bracketEnd expr i) ∧ i ≤ bracketEnd expr i := by
  have ends := bracketEnd_ends expr i
  rw [bracketEnd]
  split
  next stop ran =>
    obtain ⟨after, done⟩ := ends.ok ran
    by_cases past : size expr ≤ stop
    · rw [Nat.min_eq_right (by omega)]
      exact ⟨Utf8.cut_size expr, inside⟩
    · rw [decide_eq_true (by omega), Bool.true_and, bne_eq_false_iff_eq] at done
      have cut := (Utf8.cut_ascii done (by decide)).2
      rw [Nat.min_eq_left (by omega)]
      exact ⟨cut, by omega⟩

theorem pathRound_moves {expr : List Char} {start i next : Nat}
    (going : ((encode expr)[i]? == some (b '.') || (encode expr)[i]? == some (b '[')) = true)
    (moved : pathRound expr start i = .ok next) : Cut expr next ∧ i < next := by
  have inside : i < size expr := by
    by_contra past
    have none_ : (encode expr)[i]? = none := by
      rw [List.getElem?_eq_none_iff, ← size]
      omega
    rw [none_] at going
    cases going
  rw [pathRound] at moved
  split at moved
  next dot =>
    split at moved
    next quote =>
      split at moved
      next stop closed =>
        obtain ⟨cut, later⟩ := @cut_bareEnd expr stop (quotedEnd_le closed)
        have order := quotedEnd_lt closed
        rw [← Except.ok.inj moved]
        exact ⟨cut, by omega⟩
      next => split at moved <;> cases moved
    next =>
      rw [← Except.ok.inj moved]
      exact @cut_bareEnd expr (i + 1) inside
  next =>
    rw [← Except.ok.inj moved]
    exact @cut_bracketEnd expr (i + 1) inside

theorem sliced_pathRound {expr : List Char} {start i : Nat} (cut : Cut expr start)
    (going : ((encode expr)[i]? == some (b '.') || (encode expr)[i]? == some (b '[')) = true) :
    Sliced (fun next => Cut expr next ∧ i < next) (pathRound expr start i) := by
  cases moved : pathRound expr start i with
  | ok next => exact pathRound_moves going moved
  | error fault =>
      rw [pathRound] at moved
      split at moved
      next =>
        split at moved
        next =>
          split at moved
          next => cases moved
          next =>
            obtain ⟨before, rest, rfl, rfl⟩ := cut
            rw [sliceFrom_rest] at moved
            obtain rfl := Except.error.inj moved
            exact Sliced.error _
        next => cases moved
      next => cases moved

theorem pathRounds_ends (expr : List Char) (start i : Nat) :
    Fallible.Ensures (fun _ => False)
      (fun final => True ∧
        ((encode expr)[final]? == some (b '.') || (encode expr)[final]? == some (b '[')) = false)
      (Loop.run (fun i => (encode expr)[i]? == some (b '.') || (encode expr)[i]? == some (b '['))
        (pathRound expr start) (size expr) i) := by
  refine @Loop.run_ensures _ _ _ _ (fun i => size expr - i) (fun _ => True) _ ?_ ?_ _ _ trivial
    (Nat.sub_le _ _)
  · intro next _ going
    cases moved : pathRound expr start next with
    | error fault => exact not_false
    | ok later =>
        obtain ⟨cut, order⟩ := pathRound_moves going moved
        have inside := cut.le
        exact ⟨trivial, by omega⟩
  · intro next _ none_
    have past : (encode expr)[next]? = none := by
      rw [List.getElem?_eq_none_iff, ← size]
      omega
    rw [past]
    rfl

theorem lexPathRest_ends {expr : List Char} {start : Nat} (cut : Cut expr start) (i : Nat)
    (from_ : Cut expr i) :
    Sliced (fun final => (Cut expr final ∧ i ≤ final) ∧
        ((encode expr)[final]? == some (b '.') || (encode expr)[final]? == some (b '[')) = false)
      (Loop.run (fun i => (encode expr)[i]? == some (b '.') || (encode expr)[i]? == some (b '['))
        (pathRound expr start) (size expr) i) := by
  refine @Loop.run_ensures _ _ _ _ (fun i => size expr - i)
    (fun next => Cut expr next ∧ i ≤ next) _ ?_ ?_ _ _ ⟨from_, Nat.le_refl i⟩ (Nat.sub_le _ _)
  · rintro next ⟨_, after⟩ going
    refine (sliced_pathRound cut going).mono ?_
    rintro later ⟨cut, order⟩
    have inside := cut.le
    exact ⟨⟨cut, by omega⟩, by omega⟩
  · rintro next ⟨cut, _⟩ none_
    have past : (encode expr)[next]? = none := by
      rw [List.getElem?_eq_none_iff, ← size]
      omega
    rw [past]
    rfl

abbrev Advances (expr : List Char) (start : Nat)
    (result : Except (Fault ConditionError) (Tok Float × Nat)) : Prop :=
  Sliced (fun taken => Cut expr taken.2 ∧ start < taken.2) result

theorem sliced_lexPath {expr : List Char} {start i : Nat} (cut : Cut expr start)
    (from_ : Cut expr i) (order : start ≤ i)
    (going : start < i ∨ (encode expr)[i]? = some (b '.')) :
    Advances expr start (lexPath expr start i : Except _ (Tok Float × Nat)) := by
  have path : Sliced (fun final => Cut expr final ∧ start < final) (lexPathRest expr start i) := by
    rw [lexPathRest]
    refine (lexPathRest_ends cut i from_).mono ?_
    rintro final ⟨⟨cut, later⟩, done⟩
    refine ⟨cut, ?_⟩
    rcases going with further | dot
    · omega
    · -- The loop does not end at the dot it starts from.
      by_contra here
      obtain rfl : final = i := by omega
      rw [dot] at done
      cases done
  refine Fallible.Ensures.bind path ?_
  rintro final ⟨stop, further⟩
  refine Fallible.Ensures.bind (sliced_slice cut stop (Nat.le_of_lt further)) ?_
  intro name _
  exact ⟨stop, further⟩

theorem ascii_of_number {byte : UInt8} (number : isNumberByte byte = true) : byte.toNat < 0x80 := by
  have all : ∀ other ∈ [b '.', b 'e', b 'E', b '+', b '-'], other.toNat < 0x80 := by decide
  rw [isNumberByte, Bool.or_eq_true] at number
  rcases number with digit | other
  · rw [isDigitByte, Bool.and_eq_true, decide_eq_true_eq, decide_eq_true_eq,
      UInt8.le_iff_toNat_le, UInt8.le_iff_toNat_le] at digit
    exact Nat.lt_of_le_of_lt digit.2 (by decide)
  · exact all byte (List.contains_iff_mem.mp other)

theorem sliced_lexNumber {expr : List Char} {start : Nat} {byte : UInt8} (cut : Cut expr start)
    (here : (encode expr)[start]? = some byte) (ascii : byte.toNat < 0x80) :
    Advances expr start (lexNumber parseFloat expr start) := by
  have stop := Utf8.cut_scan_ascii (fun _ number => ascii_of_number number)
    (Utf8.cut_ascii here ascii).2
  rw [lexNumber]
  refine Fallible.Ensures.bind (sliced_slice cut stop (by omega)) ?_
  intro text _
  have further : start < start + 1 + (((encode expr).drop (start + 1)).takeWhile isNumberByte).length := by
    omega
  cases parseI128 text with
  | some value => exact ⟨stop, further⟩
  | none =>
      cases parseFloat text with
      | some value => exact ⟨stop, further⟩
      | none => exact Sliced.error _

theorem stringChars_used {quote : Char} {chars out : List Char} {length : Nat}
    (read : stringChars quote chars = some (out, length)) :
    ∃ used after, chars = used ++ after ∧ length = size used := by
  induction chars using stringChars.induct quote generalizing out length with
  | case1 => cases read
  | case2 => cases read
  | case3 escaped rest ih =>
      rw [stringChars.eq_def] at read
      dsimp only at read
      obtain ⟨⟨inner, earlier⟩, later, same⟩ := Option.map_eq_some_iff.mp read
      obtain ⟨used, after, rfl, rfl⟩ := ih later
      refine ⟨'\\' :: escaped :: used, after, rfl, ?_⟩
      rw [← (Prod.mk.inj same).2, Utf8.size_cons, Utf8.size_cons, backslash_size]
      omega
  | case4 rest notLast notEscaped =>
      have plain : quote ≠ '\\' := by
        intro escape
        cases rest with
        | nil => exact notLast escape rfl
        | cons next rest => exact notEscaped next rest escape rfl
      rw [stringChars_plain plain, if_pos rfl] at read
      obtain ⟨-, rfl⟩ := Prod.mk.inj (Option.some.inj read)
      exact ⟨[quote], rest, rfl, by rw [Utf8.size_cons, Utf8.size_nil, Nat.add_zero]⟩
  | case5 char rest notLast notEscaped notQuote ih =>
      have plain : char ≠ '\\' := by
        intro escape
        cases rest with
        | nil => exact notLast escape rfl
        | cons next rest => exact notEscaped next rest escape rfl
      rw [stringChars_plain plain, if_neg notQuote] at read
      obtain ⟨⟨inner, earlier⟩, later, same⟩ := Option.map_eq_some_iff.mp read
      obtain ⟨used, after, rfl, rfl⟩ := ih later
      refine ⟨char :: used, after, rfl, ?_⟩
      rw [← (Prod.mk.inj same).2, Utf8.size_cons, Nat.add_comm]

theorem sliced_lexString {expr : List Char} {start : Nat} (cut : Cut expr start) :
    Sliced (fun result => Cut expr result.2 ∧ start < result.2) (lexString expr start) := by
  rw [lexString]
  refine Fallible.Ensures.bind (sliced_sliceFrom cut) ?_
  rintro rest ⟨before, rfl, rfl⟩
  split
  next => exact Sliced.error _
  next quote chars =>
    split
    next out length read =>
      obtain ⟨used, after, rfl, rfl⟩ := stringChars_used read
      have positive := quote.utf8Size_pos
      refine ⟨⟨before ++ quote :: used, after, by simp, ?_⟩, by dsimp only; omega⟩
      rw [Utf8.size_append, Utf8.size_cons, Nat.add_assoc]
    next => exact Sliced.error _

theorem ascii_of_opAt {c : UInt8} {next : Option UInt8} {op : CompareOp} {length : Nat}
    (isOp : opAt c next = some (op, length)) :
    c.toNat < 0x80 ∧ (length = 1 ∨ (length = 2 ∧ ∃ byte, next = some byte ∧ byte.toNat < 0x80)) := by
  have two {first second : UInt8} {other : CompareOp} (same : c = first ∧ next = some second)
      (ascii : first.toNat < 0x80 ∧ second.toNat < 0x80) (found : some (other, 2) = some (op, length)) :
      c.toNat < 0x80 ∧ (length = 1 ∨ (length = 2 ∧ ∃ byte, next = some byte ∧ byte.toNat < 0x80)) := by
    rw [same.1]
    obtain ⟨-, rfl⟩ := Prod.mk.inj (Option.some.inj found)
    exact ⟨ascii.1, .inr ⟨rfl, second, same.2, ascii.2⟩⟩
  have one {first : UInt8} {other : CompareOp} (same : c = first) (ascii : first.toNat < 0x80)
      (found : some (other, 1) = some (op, length)) :
      c.toNat < 0x80 ∧ (length = 1 ∨ (length = 2 ∧ ∃ byte, next = some byte ∧ byte.toNat < 0x80)) := by
    rw [same]
    obtain ⟨-, rfl⟩ := Prod.mk.inj (Option.some.inj found)
    exact ⟨ascii, .inl rfl⟩
  rw [opAt] at isOp
  split at isOp
  next here => exact two here (by decide) isOp
  next =>
  split at isOp
  next here => exact two here (by decide) isOp
  next =>
  split at isOp
  next here => exact two here (by decide) isOp
  next =>
  split at isOp
  next here => exact two here (by decide) isOp
  next =>
  split at isOp
  next here => exact two here (by decide) isOp
  next =>
  split at isOp
  next here => exact two here (by decide) isOp
  next =>
  split at isOp
  next here => exact one here (by decide) isOp
  next =>
  split at isOp
  next here => exact one here (by decide) isOp
  next => cases isOp

theorem sliced_lexToken {expr : List Char} {start : Nat} {c : UInt8} (cut : Cut expr start)
    (here : (encode expr)[start]? = some c) : Advances expr start (lexToken parseFloat expr c start) := by
  have one (ascii : c.toNat < 0x80) : Cut expr (start + 1) := (Utf8.cut_ascii here ascii).2
  have inside : start + 1 ≤ size expr := by
    obtain ⟨bound, _⟩ := List.getElem?_eq_some_iff.mp here
    exact bound
  rw [lexToken]
  split
  next same =>
    rw [same] at one
    exact ⟨one (by decide), Nat.lt_succ_self start⟩
  next =>
  split
  next same =>
    rw [same] at one
    exact ⟨one (by decide), Nat.lt_succ_self start⟩
  next =>
  split
  next =>
    split
    next op length isOp =>
      obtain ⟨ascii, rfl | ⟨rfl, byte, next, narrow⟩⟩ := ascii_of_opAt isOp
      · exact ⟨one ascii, Nat.lt_succ_self start⟩
      · exact ⟨(Utf8.cut_ascii next narrow).2, by dsimp only; omega⟩
    next => exact Sliced.error _
  next =>
  split
  next => exact Fallible.Ensures.map (sliced_lexString cut) (fun _ ends => ends)
  next =>
  split
  next dot =>
    rw [dot] at here
    exact sliced_lexPath cut cut (Nat.le_refl _) (.inr here)
  next =>
  split
  next number =>
    refine sliced_lexNumber cut here (ascii_of_number ?_)
    rw [isNumberByte]
    rcases number with rfl | digit
    · decide
    · rw [digit]
      rfl
  next =>
  split
  next word =>
    obtain ⟨stop, order⟩ := @cut_bareEnd expr (start + 1) inside
    dsimp only
    split
    · exact sliced_lexPath cut stop (by omega) (.inl (by omega))
    · refine Fallible.Ensures.map (sliced_slice cut stop (by omega)) ?_
      intro name _
      exact ⟨stop, by dsimp only; omega⟩
  next =>
    obtain ⟨before, rest, rfl, rfl⟩ := cut
    rw [sliceFrom_rest]
    exact Sliced.error _

theorem sliced_lexRound {expr : List Char} (state : Lexed Float) (cut : Cut expr state.i)
    (going : decide (state.i < size expr) = true) :
    Sliced (fun next : Lexed Float => Cut expr next.i ∧ size expr - next.i < size expr - state.i)
      (lexRound parseFloat expr state) := by
  have inside := of_decide_eq_true going
  rw [lexRound]
  split
  next none_ =>
    rw [List.getElem?_eq_none_iff, ← size] at none_
    omega
  next c here =>
    split
    next space =>
      have ascii : c.toNat < 0x80 := by
        rcases space with rfl | rfl | rfl | rfl <;> decide
      exact ⟨(Utf8.cut_ascii here ascii).2, by dsimp only; omega⟩
    next =>
      refine Fallible.Ensures.bind (sliced_lexToken cut here) ?_
      rintro ⟨tok, i⟩ ⟨stop, further⟩
      refine Fallible.Ensures.bind (sliced_slice cut stop (Nat.le_of_lt further)) ?_
      intro text _
      exact ⟨stop, by dsimp only at further ⊢; omega⟩

theorem lexFrom_ends (expr : List Char) :
    Sliced (fun final : Lexed Float => Cut expr final.i ∧ decide (final.i < size expr) = false)
      (Loop.run (fun state : Lexed Float => state.i < size expr) (lexRound parseFloat expr)
        (size expr) ⟨[], 0⟩) := by
  refine @Loop.run_ensures _ _ _ _ (fun state : Lexed Float => size expr - state.i)
    (fun state => Cut expr state.i) _ (fun state cut going => sliced_lexRound state cut going)
    ?_ _ _ (Utf8.cut_zero expr) (Nat.sub_le _ _)
  intro state _ none_
  exact decide_eq_false (by omega)

namespace Parser

variable {left : Condition Float}

/-- A reader takes tokens off every text shorter than a bound, or fails without a panic. -/
def Quiet (read : List (Token Float) →
    Except (Fault ConditionError) (Condition Float × List (Token Float))) (bound : Nat) : Prop :=
  ∀ tokens, tokens.length < bound →
    Sliced (fun result => result.2.length < tokens.length) (read tokens)

theorem sliced_outcome {Value : Type} {bound : Nat}
    {result : Except (Fault ConditionError) (Parsed Float Value bound)}
    (calm : Sliced (fun _ => True) result) :
    Sliced (fun taken => taken.2.length < bound) (outcome result) := by
  rw [outcome]
  cases result with
  | error fault => exact calm
  | ok parsed => exact parsed.shorter

theorem comparison_quiet (field : FieldPath) (tokens : List (Token Float)) :
    Sliced (fun _ => True) (comparison field tokens) := by
  cases tokens with
  | nil => exact Sliced.error _
  | cons operator rest =>
      rw [comparison]
      split
      next =>
        cases rest with
        | nil => exact Sliced.error _
        | cons operand later =>
            dsimp only
            split
            next => exact Sliced.error _
            next =>
              split
              · exact Sliced.error _
              · exact trivial
      next => exact Sliced.error _

theorem path_quiet (token : Token Float) (rest : List (Token Float)) (name : String)
    (longer : ∀ later : List (Token Float), later.length < rest.length →
      later.length < rest.length + 1) :
    Sliced (fun _ => True)
      (match FieldPath.parse name with
        | .error fault => .error (fault.mapError (ConditionError.field token.offset))
        | .ok field =>
            match comparison field rest with
            | .error fault => .error fault
            | .ok ⟨value, later, shorter⟩ => .ok ⟨value, later, longer later shorter⟩ :
        Except (Fault ConditionError) (Parsed Float (Condition Float) (rest.length + 1))) := by
  split
  next fault failed =>
    have calm := Sliced.fault (sliced_parse name) failed
    cases fault with
    | panic => exact absurd rfl calm
    | error error => exact Sliced.error _
  next field _ =>
    split
    next fault failed => exact Sliced.fault (comparison_quiet field rest) failed
    next => exact trivial

section Loops

variable {keyword : String} {join : Condition Float → Condition Float → Condition Float}
  {operand : List (Token Float) →
    Except (Fault ConditionError) (Condition Float × List (Token Float))}
  {loop : Condition Float → List (Token Float) →
    Except (Fault ConditionError) (Condition Float × List (Token Float))}
  (more : ∀ left token rest, token.tok = .ident keyword →
    loop left (token :: rest) = (operand rest).bind fun (right, later) => loop (join left right) later)
  (ends : ∀ left rest, Ends keyword rest → loop left rest = .ok (left, rest))
  {bound : Nat} (quiet : Quiet operand bound)
include more ends quiet

theorem loop_quiet {tokens : List (Token Float)} (short : tokens.length ≤ bound) :
    Sliced (fun result => result.2.length ≤ tokens.length) (loop left tokens) := by
  induction size : tokens.length using Nat.strongRecOn generalizing tokens left with
  | ind length ih =>
      by_cases goes : ∃ token rest, tokens = token :: rest ∧ token.tok = .ident keyword
      · obtain ⟨token, rest, rfl, isKeyword⟩ := goes
        rw [List.length_cons] at size short
        rw [more left token rest isKeyword]
        refine Fallible.Ensures.bind (quiet rest (by omega)) ?_
        rintro ⟨right, later⟩ shorter
        dsimp only at shorter
        refine (@ih later.length (by omega) (join left right) later (by omega) rfl).mono ?_
        intro result within
        omega
      · have stops : Ends keyword tokens := by
          intro token first isKeyword
          obtain ⟨rest, rfl⟩ := List.head?_eq_some_iff.mp first
          exact goes ⟨token, rest, rfl, isKeyword⟩
        rw [ends left tokens stops]
        exact Nat.le_of_eq size

theorem level_quiet :
    Quiet (fun tokens => (operand tokens).bind fun (left, rest) => loop left rest) bound := by
  intro tokens short
  refine Fallible.Ensures.bind (quiet tokens short) ?_
  rintro ⟨left, rest⟩ shorter
  dsimp only at shorter
  refine (loop_quiet more ends quiet (by omega)).mono ?_
  intro result within
  omega

end Loops

section Readers

variable {bound : Nat}
  (quiet : Quiet (fun tokens : List (Token Float) => outcome (not tokens)) bound)
include quiet

theorem and_quiet : Quiet (fun tokens : List (Token Float) => outcome (and tokens)) bound := by
  have level := level_quiet (fun left token rest isAnd => andLoop_more isAnd rest)
    (fun left rest ends => andLoop_ends ends) quiet
  intro tokens short
  dsimp only
  rw [and_eq]
  exact level tokens short

theorem or_quiet : Quiet (fun tokens : List (Token Float) => outcome (or tokens)) bound := by
  have level := level_quiet (fun left token rest isOr => orLoop_more isOr rest)
    (fun left rest ends => orLoop_ends ends) (and_quiet quiet)
  intro tokens short
  dsimp only
  rw [or_eq]
  exact level tokens short

theorem primary_quiet {token : Token Float} {rest : List (Token Float)} (short : rest.length < bound) :
    Sliced (fun _ => True) (primary token rest) := by
  rw [primary]
  split
  next =>
    have inner := or_quiet quiet rest short
    split
    next fault failed =>
      refine Sliced.fault inner ?_
      dsimp only
      rw [failed]
      rfl
    next => exact Sliced.error _
    next =>
      split
      next => exact trivial
      next => exact Sliced.error _
  next name _ => exact path_quiet token rest name fun _ => Nat.lt_succ_of_lt
  next name _ => exact path_quiet token rest name fun _ => Nat.lt_succ_of_lt
  next => exact Sliced.error _

end Readers

theorem not_quiet (bound : Nat) :
    Quiet (fun tokens : List (Token Float) => outcome (not tokens)) bound := by
  induction bound with
  | zero =>
      intro tokens short
      omega
  | succ bound ih =>
      intro tokens short
      have calm : Sliced (fun _ => True) (not tokens) := by
        cases tokens with
        | nil =>
            rw [not.eq_def]
            exact Sliced.error _
        | cons token rest =>
            rw [List.length_cons] at short
            rw [not]
            split
            next =>
              have inner := ih rest (by omega)
              split
              next fault failed =>
                refine Sliced.fault inner ?_
                dsimp only
                rw [failed]
                rfl
              next => exact trivial
            next => exact primary_quiet ih (by omega)
      exact sliced_outcome calm

end Parser

theorem sliced_conditionParse (parseFloat : List Char → Option Float) (expr : String) :
    Sliced (fun _ => True) (Condition.parse parseFloat expr) := by
  rw [Condition.parse]
  split
  next fault failed =>
    have lexed : Sliced (fun _ => True) (lex parseFloat expr.toList) :=
      Fallible.Ensures.map (lexFrom_ends expr.toList) (fun _ _ => trivial)
    exact Sliced.fault lexed failed
  next tokens _ =>
    have read := Parser.or_quiet (Parser.not_quiet (tokens.length + 1)) tokens (Nat.lt_succ_self _)
    split
    next fault failed =>
      refine Sliced.fault read ?_
      dsimp only
      rw [failed]
      rfl
    next => exact trivial
    next => exact Sliced.error _

def Finishes {State Problem : Type} (more : State → Bool) (step : State → Except Problem State)
    (fuel : Nat) (state : State) : Prop :=
  ∀ final, Loop.run more step fuel state = .ok final → more final = false

theorem finishes_of_ends {State Problem : Type} {bad : Problem → Prop} {more : State → Bool}
    {step : State → Except Problem State} {fuel : Nat} {state : State} {Invariant : State → Prop}
    (ends : Fallible.Ensures bad (fun final => Invariant final ∧ more final = false)
      (Loop.run more step fuel state)) : Finishes more step fuel state :=
  fun _ ran => (ends.ok ran).2

theorem Sliced.noPanic {Value : Type} {post : Value → Prop} {Error : Type}
    {result : Except (Fault Error) Value} (sliced : Sliced post result) :
    result ≠ .error .panic :=
  fun panics => sliced.fault panics rfl

/-- On every text both parsers return, with no slice outside it or inside a character, and each
of their loops ends by its own condition. -/
theorem parsers_return (parseFloat : List Char → Option Float) (text : String) :
    FieldPath.parse text ≠ .error .panic ∧
    Condition.parse parseFloat text ≠ .error .panic ∧
    ∀ chars : List Char,
      Finishes (fun state : Split => state.next.isSome) (splitRound chars) (size chars + 1)
        ⟨[], some 0⟩ ∧
      @Finishes _ (Fault PathError) (fun state : Unbracket => state.i < size chars)
        (unbracketRound chars) (size chars) ⟨[], 0⟩ ∧
      @Finishes _ (Fault PathError) (fun state : BracketScan => state.i < size chars && state.found.isNone)
        (bracketRound chars) (size chars + 1) ⟨0, none⟩ ∧
      @Finishes _ (Fault PathError) (fun state : Pieces => !state.rest.isEmpty) dottedPiece
        chars.length ⟨[], chars⟩ ∧
      Finishes (fun state : Lexed Float => state.i < size chars) (lexRound parseFloat chars)
        (size chars) ⟨[], 0⟩ ∧
      ∀ start i,
        Finishes (fun i => (encode chars)[i]? == some (b '.') || (encode chars)[i]? == some (b '['))
          (pathRound chars start) (size chars) i ∧
        Finishes (fun i => i < size chars && (encode chars)[i]? != some (b ']'))
          (oldBracketRound chars) (size chars) i := by
  refine ⟨(sliced_parse text).noPanic, (sliced_conditionParse parseFloat text).noPanic, ?_⟩
  intro chars
  refine ⟨finishes_of_ends (splitSegments_ends chars),
    @finishes_of_ends _ _ (fun _ => True) _ _ _ _ _ (unbracket_ends chars),
    @finishes_of_ends _ _ (fun _ => True) _ _ _ _ _ (bracketContents_ends chars),
    @finishes_of_ends _ _ (fun _ => True) _ _ _ _ _ (dottedPieces_ends chars),
    finishes_of_ends (lexFrom_ends chars), ?_⟩
  intro start i
  exact ⟨finishes_of_ends (pathRounds_ends chars start i), finishes_of_ends (bracketEnd_ends chars i)⟩

end FusionPipeline
