import FusionPipeline.PathText

/-! Every slice the path parser takes is a slice of its text. -/

namespace FusionPipeline

open Regex (b)
open Utf8 (encode size findOffset Cut)

variable {Value Other : Type}

abbrev Sliced (post : Value → Prop) (result : Except (Fault Error) Value) : Prop :=
  Fallible.Ensures (fun fault => fault = .panic) post result

theorem Sliced.error {post : Value → Prop} (error : Error) :
    Sliced post (.error (.error error) : Except (Fault Error) Value) := by
  intro same
  cases same

theorem Sliced.fault {post : Value → Prop} {result : Except (Fault Error) Value}
    {fault : Fault Error} (sliced : Sliced post result) (failed : result = .error fault) :
    fault ≠ .panic := by
  have noPanic := Fallible.Ensures.error sliced failed
  exact noPanic

variable {bad : Fault Error → Prop}

theorem sliced_slice {text : List Char} {i j : Nat} (first : Cut text i) (second : Cut text j)
    (order : i ≤ j) :
    Fallible.Ensures bad (fun part => ∃ before after, text = before ++ part ++ after ∧ i = size before ∧
      j = size before + size part) (slice text i j : Except (Fault Error) (List Char)) := by
  obtain ⟨before, part, after, rfl, rfl, rfl⟩ := first.between second order
  rw [slice_between]
  exact ⟨before, after, rfl, rfl, rfl⟩

theorem sliced_sliceFrom {text : List Char} {i : Nat} (cut : Cut text i) :
    Fallible.Ensures bad (fun rest => ∃ before, text = before ++ rest ∧ i = size before)
      (sliceFrom text i : Except (Fault Error) (List Char)) := by
  obtain ⟨before, rest, rfl, rfl⟩ := cut
  rw [sliceFrom_rest]
  exact ⟨before, rfl, rfl⟩

theorem dropWhile_length {Item : Type} (kind : Item → Bool) (items : List Item) :
    (items.dropWhile kind).length ≤ items.length := by
  exact (List.dropWhile_suffix kind).length_le

section Hints

theorem sliced_dottedPiece (state : Pieces) (going : (!state.rest.isEmpty) = true) :
    Fallible.Ensures bad (fun next : Pieces => True ∧ next.rest.length < state.rest.length)
      (dottedPiece state : Except (Fault Error) Pieces) := by
  obtain ⟨pieces, rest⟩ := state
  have shorter {used later : List Char} (named : used ≠ []) (same : rest = used ++ later) :
      (trimDots later).length < rest.length := by
    have less := dropWhile_length (· == '.') later
    have positive := List.length_pos_of_ne_nil named
    rw [same, List.length_append, trimDots]
    omega
  rw [dottedPiece]
  dsimp only
  split
  next quoted =>
    obtain ⟨inner, rfl⟩ := List.head?_eq_some_iff.mp quoted
    have opened : Cut ('"' :: inner) 1 := ⟨['"'], inner, rfl, rfl⟩
    split
    next stop closed =>
      obtain ⟨body, after, rfl, _, rfl⟩ :=
        @quotable_of_quotedEnd '"' (by decide) (by decide) [] inner stop closed
      rw [Utf8.size_nil, Nat.zero_add]
      have one : Cut ('"' :: (body ++ '"' :: after)) (size body + 2 - 1) :=
        ⟨'"' :: body, '"' :: after, rfl, by rw [Utf8.size_cons, quote_size]; omega⟩
      have two : Cut ('"' :: (body ++ '"' :: after)) (size body + 2) :=
        ⟨'"' :: (body ++ ['"']), after, by simp, by
          rw [Utf8.size_cons, Utf8.size_append, quote_size]
          exact (by omega : size body + 2 = 1 + (size body + 1))⟩
      refine Fallible.Ensures.bind (sliced_slice opened one (by omega)) ?_
      intro contents _
      refine Fallible.Ensures.bind (sliced_sliceFrom two) ?_
      rintro later ⟨before, same, length⟩
      refine ⟨trivial, shorter ?_ same⟩
      rintro rfl
      rw [Utf8.size_nil] at length
      omega
    next =>
      refine Fallible.Ensures.bind (sliced_sliceFrom opened) ?_
      intro contents _
      exact ⟨trivial, Nat.zero_lt_succ _⟩
  next =>
    have cut := Utf8.cut_findOffset_getD (· == '.') rest
    have nonempty : rest ≠ [] := by
      rintro rfl
      cases going
    obtain ⟨char, more, rfl⟩ := List.exists_cons_of_ne_nil nonempty
    have positive := @Utf8.findOffset_getD_pos (· == '.') char more
    generalize (findOffset (· == '.') (char :: more)).getD (size (char :: more)) = stop
      at cut positive
    refine Fallible.Ensures.bind (sliced_slice (Utf8.cut_zero _) cut (Nat.zero_le _)) ?_
    intro piece _
    refine Fallible.Ensures.bind (sliced_sliceFrom cut) ?_
    rintro later ⟨before, same, rfl⟩
    refine ⟨trivial, ?_⟩
    by_cases named : before = []
    · -- No piece: the text starts with a dot, which is dropped.
      subst named
      obtain rfl : later = char :: more := same.symm
      by_cases dot : char = '.'
      · have less := dropWhile_length (· == '.') more
        rw [trimDots, List.dropWhile_cons_of_pos (by simp [dot]), List.length_cons]
        exact Nat.lt_succ_of_le less
      · exact absurd (positive (by simpa using dot)) (Nat.lt_irrefl 0)
    · exact shorter named same

theorem dottedPieces_ends (part : List Char) :
    Fallible.Ensures bad (fun final : Pieces => True ∧ (!final.rest.isEmpty) = false)
      (Loop.run (fun state : Pieces => !state.rest.isEmpty) dottedPiece part.length ⟨[], part⟩ :
        Except (Fault Error) Pieces) := by
  refine @Loop.run_ensures _ _ _ _ (fun state : Pieces => state.rest.length) (fun _ => True) _
    (fun state _ going => sliced_dottedPiece state going) ?_ _ _ trivial (Nat.le_refl _)
  intro state _ empty
  rw [List.length_eq_zero_iff.mp empty]
  rfl

theorem sliced_dottedPieces (part : List Char) :
    Fallible.Ensures bad (fun _ => True) (dottedPieces part : Except (Fault Error) (List (List Char))) :=
  Fallible.Ensures.map (dottedPieces_ends part) (fun _ _ => trivial)

def BracketScan.Cuts (text : List Char) (state : BracketScan) : Prop :=
  ∀ inner consumed, state.found = some (inner, consumed) → Cut text consumed

def BracketScan.left (text : List Char) (state : BracketScan) : Nat :=
  if state.found.isSome then 0 else size text + 1 - state.i

theorem quotedEnd_lt {text : List Char} {i stop : Nat} (closed : quotedEnd text i = some stop) :
    i < stop := by
  rw [quotedEnd] at closed
  split at closed
  · cases closed
  · obtain ⟨length, _, rfl⟩ := Option.map_eq_some_iff.mp closed
    omega

theorem sliced_bracketRound (text : List Char) (state : BracketScan) (cuts : state.Cuts text)
    (going : (state.i < size text && state.found.isNone) = true) :
    Fallible.Ensures bad (fun next : BracketScan => next.Cuts text ∧ next.left text < state.left text)
      (bracketRound text state : Except (Fault Error) BracketScan) := by
  obtain ⟨i, found⟩ := state
  rw [Bool.and_eq_true, decide_eq_true_eq, Option.isNone_iff_eq_none] at going
  obtain ⟨inside, rfl⟩ := going
  have moves {next : Nat} (later : i < next) :
      (⟨next, none⟩ : BracketScan).Cuts text ∧
        (⟨next, none⟩ : BracketScan).left text < (⟨i, none⟩ : BracketScan).left text := by
    refine ⟨fun inner consumed none_ => (nomatch none_), ?_⟩
    dsimp only [BracketScan.left, Option.isSome]
    rw [if_neg (by decide), if_neg (by decide)]
    dsimp only at inside
    omega
  have stops {inner : List Char} {consumed : Nat} (cut : Cut text consumed) :
      (⟨i, some (inner, consumed)⟩ : BracketScan).Cuts text ∧
        (⟨i, some (inner, consumed)⟩ : BracketScan).left text <
          (⟨i, none⟩ : BracketScan).left text := by
    constructor
    · intro other length same
      obtain ⟨-, rfl⟩ := Prod.mk.inj (Option.some.inj same)
      exact cut
    · dsimp only [BracketScan.left, Option.isSome]
      rw [if_pos rfl, if_neg (by decide)]
      dsimp only at inside
      omega
  rw [bracketRound]
  dsimp only
  obtain ⟨byte, here⟩ : ∃ byte, (encode text)[i]? = some byte :=
    ⟨_, List.getElem?_eq_getElem inside⟩
  rw [here]
  dsimp only
  split
  · split
    next stop closed => exact moves (quotedEnd_lt closed)
    next => exact stops (Utf8.cut_size text)
  · split
    next close =>
      rw [close] at here
      obtain ⟨cut, next⟩ := Utf8.cut_ascii here (by decide)
      refine Fallible.Ensures.map (sliced_slice (Utf8.cut_zero text) cut (Nat.zero_le i)) ?_
      intro inner _
      exact stops next
    next => exact moves (Nat.lt_succ_self i)

theorem bracketContents_ends (text : List Char) :
    Fallible.Ensures bad (fun final : BracketScan =>
        final.Cuts text ∧ (final.i < size text && final.found.isNone) = false)
      (Loop.run (fun state : BracketScan => state.i < size text && state.found.isNone)
        (bracketRound text) (size text + 1) ⟨0, none⟩ : Except (Fault Error) BracketScan) := by
  refine @Loop.run_ensures _ _ _ _ (BracketScan.left text) (BracketScan.Cuts text) _
    (fun state cuts going => sliced_bracketRound text state cuts going) ?_ _ _ ?_ (Nat.le_refl _)
  · intro state _ none_
    rw [BracketScan.left] at none_
    rw [Bool.and_eq_false_iff, decide_eq_false_iff_not]
    split at none_
    next found => exact .inr (by rw [Option.isNone_eq_false_iff]; exact found)
    next => exact .inl (by omega)
  · exact fun inner consumed none_ => nomatch none_

theorem sliced_bracketContents (text : List Char) :
    Fallible.Ensures bad (fun contents => Cut text contents.2)
      (bracketContents text : Except (Fault Error) (List Char × Nat)) := by
  refine Fallible.Ensures.map (bracketContents_ends text) ?_
  rintro ⟨i, found⟩ ⟨cuts, _⟩
  cases found with
  | none => exact Utf8.cut_size text
  | some found => exact cuts found.1 found.2 rfl

theorem sliced_unbracketRound (path : List Char) (state : Unbracket) (cut : Cut path state.i)
    (going : decide (state.i < size path) = true) :
    Fallible.Ensures bad (fun next : Unbracket =>
        Cut path next.i ∧ size path - next.i < size path - state.i)
      (unbracketRound path state : Except (Fault Error) Unbracket) := by
  obtain ⟨segments, i⟩ := state
  have inside := of_decide_eq_true going
  rw [unbracketRound]
  refine Fallible.Ensures.bind (sliced_sliceFrom cut) ?_
  rintro rest ⟨before, rfl, rfl⟩
  have moves {next : Nat} {segments : List (List Char)} (later : 0 < next) (stop : Cut rest next) :
      Cut (before ++ rest) (size before + next) ∧
        size (before ++ rest) - (size before + next) < size (before ++ rest) - size before := by
    refine ⟨Utf8.cut_under stop, ?_⟩
    dsimp only at inside
    omega
  split
  next inner =>
    refine Fallible.Ensures.bind (sliced_bracketContents inner) ?_
    rintro ⟨contents, consumed⟩ stop
    have open_ : '['.utf8Size = 1 := by rfl
    have after := @Utf8.cut_under ['['] inner consumed stop
    rw [Utf8.size_cons, open_, Utf8.size_nil, List.singleton_append] at after
    have moved := @moves (1 + 0 + consumed) (segments ++ bracketPieces contents) (by omega) after
    rw [Nat.add_zero, ← Nat.add_assoc] at moved
    exact moved
  next more =>
    exact @moves 1 segments Nat.zero_lt_one ⟨[']'], more, rfl, rfl⟩
  next notOpen notClose =>
    have nonempty : rest ≠ [] := by
      rintro rfl
      rw [List.append_nil] at inside
      exact Nat.lt_irrefl _ inside
    obtain ⟨char, more, rfl⟩ := List.exists_cons_of_ne_nil nonempty
    have differs : (char == '[' || char == ']') = false := by
      rw [Bool.or_eq_false_iff, beq_eq_false_iff_ne, beq_eq_false_iff_ne]
      constructor
      · rintro rfl
        exact notOpen more rfl
      · rintro rfl
        exact notClose more rfl
    have positive := @Utf8.findOffset_getD_pos (fun c => c == '[' || c == ']') char more differs
    have stop := Utf8.cut_findOffset_getD (fun c => c == '[' || c == ']') (char :: more)
    refine Fallible.Ensures.bind (sliced_slice (Utf8.cut_zero _) stop (Nat.zero_le _)) ?_
    intro part _
    refine Fallible.Ensures.bind (sliced_dottedPieces part) ?_
    intro pieces _
    exact @moves _ (segments ++ pieces) positive stop

theorem unbracket_ends (path : List Char) :
    Fallible.Ensures bad (fun final : Unbracket => Cut path final.i ∧ decide (final.i < size path) = false)
      (Loop.run (fun state : Unbracket => state.i < size path) (unbracketRound path) (size path)
        ⟨[], 0⟩ : Except (Fault Error) Unbracket) := by
  refine @Loop.run_ensures _ _ _ _ (fun state : Unbracket => size path - state.i)
    (fun state => Cut path state.i) _
    (fun state cut going => sliced_unbracketRound path state cut going) ?_ _ _
    (Utf8.cut_zero path) (Nat.le_refl _)
  intro state _ none_
  rw [decide_eq_false_iff_not]
  omega

theorem sliced_unbracket (path : List Char) :
    Fallible.Ensures bad (fun _ => True) (unbracket path : Except (Fault Error) (List Char)) := by
  refine Fallible.Ensures.bind (unbracket_ends path) ?_
  intro final _
  exact trivial

end Hints

section Segments

theorem sliced_unquoteChars {before body after : List Char} {done rest : List Char}
    (quotable : Quotable '"' rest) (same : body = done ++ rest) :
    Sliced (fun _ => True) (unquoteChars (before ++ '"' :: (body ++ '"' :: after)) (size before)
      (size before + size body + 2) (size done) rest) := by
  induction quotable generalizing done with
  | nil =>
      rw [unquoteChars]
      exact trivial
  | @plain char rest notQuote notEscape more ih =>
      have next := @ih (done ++ [char]) (by rw [same]; simp)
      rw [Utf8.size_append, Utf8.size_cons, Utf8.size_nil, Nat.add_zero] at next
      rw [unquoteChars_plain notEscape]
      exact Fallible.Ensures.map next (fun _ _ => trivial)
  | @escape char rest more ih =>
      have next := @ih (done ++ ['\\', char]) (by rw [same]; simp)
      rw [Utf8.size_append, Utf8.size_cons, Utf8.size_cons, Utf8.size_nil, Nat.add_zero,
        backslash_size, ← Nat.add_assoc] at next
      rw [unquoteChars]
      split
      · exact Fallible.Ensures.map next (fun _ _ => trivial)
      · -- The slices of the error: the quoted text, and what stands around the backslash.
        subst same
        have opened : Cut (before ++ '"' :: (done ++ '\\' :: char :: rest ++ '"' :: after))
            (size before) := Utf8.cut_append _ _
        have closed : Cut (before ++ '"' :: (done ++ '\\' :: char :: rest ++ '"' :: after))
            (size before + size (done ++ '\\' :: char :: rest) + 2) := by
          refine ⟨before ++ '"' :: (done ++ '\\' :: char :: rest ++ ['"']), after, by simp, ?_⟩
          simp only [Utf8.size_append, Utf8.size_cons, Utf8.size_nil, quote_size]
          omega
        have escape : Cut (before ++ '"' :: (done ++ '\\' :: char :: rest ++ '"' :: after))
            (size before + 1 + size done) := by
          refine ⟨before ++ '"' :: done, '\\' :: char :: rest ++ '"' :: after, by simp, ?_⟩
          rw [Utf8.size_append, Utf8.size_cons, quote_size, Nat.add_assoc]
        have later : Cut (before ++ '"' :: (done ++ '\\' :: char :: rest ++ '"' :: after))
            (size before + 1 + size done + 1) := by
          refine ⟨before ++ '"' :: (done ++ ['\\']), char :: rest ++ '"' :: after, by simp, ?_⟩
          simp only [Utf8.size_append, Utf8.size_cons, Utf8.size_nil, quote_size, backslash_size]
          omega
        dsimp only
        refine Fallible.Ensures.bind (sliced_slice opened closed (by omega)) ?_
        intro segment _
        refine Fallible.Ensures.bind (sliced_slice (Utf8.cut_zero _) escape (Nat.zero_le _)) ?_
        intro front _
        refine Fallible.Ensures.bind (sliced_sliceFrom later) ?_
        intro back _
        exact Sliced.error _

theorem sliced_unquote (before rest : List Char) :
    Sliced (fun result => Cut (before ++ '"' :: rest) result.2 ∧ size before < result.2)
      (unquote (before ++ '"' :: rest) (size before)) := by
  rw [unquote]
  split
  next => exact Sliced.error _
  next stop closed =>
    obtain ⟨body, after, rfl, quotable, rfl⟩ :=
      quotable_of_quotedEnd (by decide) (by decide) closed
    rw [slice_quoted, Fallible.ok_bind]
    refine Fallible.Ensures.bind
      (@sliced_unquoteChars before body after [] body quotable (List.nil_append _).symm) ?_
    intro out _
    refine ⟨⟨before ++ '"' :: (body ++ ['"']), after, by simp, ?_⟩, by dsimp only; omega⟩
    simp only [Utf8.size_append, Utf8.size_cons, Utf8.size_nil, quote_size]
    omega

theorem sliced_readSegment {path : List Char} {i : Nat} (segments : List String)
    (cut : Cut path i) :
    Sliced (fun result => Cut path result.2 ∧ i ≤ result.2) (readSegment path segments i) := by
  obtain ⟨before, rest, rfl, rfl⟩ := cut
  by_cases quoted : rest.head? = some '"'
  · obtain ⟨inner, rfl⟩ := List.head?_eq_some_iff.mp quoted
    rw [readSegment, sliceFrom_rest, Fallible.ok_bind, if_pos quoted]
    refine Fallible.Ensures.bind (sliced_unquote before inner) ?_
    rintro ⟨segment, stop⟩ ⟨cut, later⟩
    dsimp only
    split
    · exact Sliced.error _
    · exact ⟨cut, Nat.le_of_lt later⟩
  · obtain ⟨text, after, rfl, inside, ends⟩ := bare_split rest
    rw [readSegment_bare quoted inside ends]
    split
    · exact Sliced.error _
    · split
      · exact Sliced.error _
      · refine ⟨⟨before ++ text, after, by simp, rfl⟩, ?_⟩
        rw [Utf8.size_append]
        omega

def Split.Cuts (path : List Char) (state : Split) : Prop :=
  ∀ start, state.next = some start → Cut path start

def Split.left (path : List Char) (state : Split) : Nat :=
  match state.next with
  | none => 0
  | some start => size path + 1 - start

theorem sliced_splitRound (path : List Char) (state : Split) (cuts : state.Cuts path)
    (going : state.next.isSome = true) :
    Sliced (fun next : Split => next.Cuts path ∧ next.left path < state.left path)
      (splitRound path state) := by
  obtain ⟨segments, next⟩ := state
  obtain ⟨start, rfl⟩ := Option.isSome_iff_exists.mp going
  have cut := cuts start rfl
  have inside := cut.le
  rw [splitRound]
  refine Fallible.Ensures.bind (sliced_readSegment segments cut) ?_
  rintro ⟨segment, i⟩ ⟨stop, order⟩
  refine Fallible.Ensures.bind (sliced_sliceFrom stop) ?_
  rintro later ⟨before, rfl, rfl⟩
  dsimp only at order
  split
  next =>
    refine ⟨?_, ?_⟩
    · intro start none_
      cases none_
    dsimp only [Split.left]
    omega
  next more =>
    split
    · exact Sliced.error _
    · have dot : '.'.utf8Size = 1 := by rfl
      constructor
      · intro next same
        obtain rfl := Option.some.inj same
        exact ⟨before ++ ['.'], more, by simp, by
          rw [Utf8.size_append, Utf8.size_cons, dot, Utf8.size_nil]⟩
      · dsimp only [Split.left]
        rw [Utf8.size_append, Utf8.size_cons, dot]
        omega
  next =>
    refine Fallible.Ensures.bind (sliced_unbracket _) ?_
    intro instead _
    exact Sliced.error _
  next =>
    refine Fallible.Ensures.bind (sliced_unbracket _) ?_
    intro instead _
    exact Sliced.error _
  next ch more _ _ _ =>
    have found : (findOffset (· == '.') (ch :: more)).elim (size (before ++ ch :: more))
        (size before + ·) =
        size before + (findOffset (· == '.') (ch :: more)).getD (size (ch :: more)) := by
      cases findOffset (· == '.') (ch :: more) with
      | none => exact Utf8.size_append _ _
      | some offset => rfl
    have end_ := @Utf8.cut_under before _ _ (Utf8.cut_findOffset_getD (· == '.') (ch :: more))
    rw [← found] at end_
    dsimp only
    refine Fallible.Ensures.bind (sliced_slice cut end_ (by omega)) ?_
    intro written _
    refine Fallible.Ensures.bind (sliced_slice stop end_ (by omega)) ?_
    intro glued _
    refine Fallible.Ensures.bind (sliced_sliceFrom end_) ?_
    intro rest _
    exact Sliced.error _

theorem splitSegments_ends (path : List Char) :
    Sliced (fun final : Split => final.Cuts path ∧ final.next.isSome = false)
      (Loop.run (fun state : Split => state.next.isSome) (splitRound path) (size path + 1)
        ⟨[], some 0⟩) := by
  refine @Loop.run_ensures _ _ _ _ (Split.left path) (Split.Cuts path) _
    (fun state cuts going => sliced_splitRound path state cuts going) ?_ _ _ ?_ (Nat.le_refl _)
  · intro state cuts none_
    obtain ⟨segments, next⟩ := state
    cases next with
    | none => rfl
    | some start =>
        have inside := (cuts start rfl).le
        dsimp only [Split.left] at none_
        omega
  · intro start same
    obtain rfl := Option.some.inj same
    exact Utf8.cut_zero path

theorem sliced_splitSegments (path : List Char) : Sliced (fun _ => True) (splitSegments path) :=
  Fallible.Ensures.map (splitSegments_ends path) (fun _ _ => trivial)

theorem sliced_parse (path : String) : Sliced (fun _ => True) (FieldPath.parse path) := by
  rw [FieldPath.parse]
  generalize FieldPath.stripDot path.toList = stripped
  dsimp only
  split
  · exact trivial
  · have split_ := sliced_splitSegments stripped.1
    rw [FieldPath.ofText]
    split
    next fault failed =>
      have noPanic := Sliced.fault split_ failed
      cases fault with
      | panic => exact absurd rfl noPanic
      | error error => exact Sliced.error _
    next segments _ =>
      split
      · exact trivial
      · exact Sliced.error _

end Segments

end FusionPipeline
