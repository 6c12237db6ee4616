import FusionPipeline.PathPrinting
import FusionPipeline.PathSlices

/-! The hints of path errors: what the author wrote, in the form that is accepted. -/

namespace FusionPipeline

open Regex (b)
open Utf8 (encode size findOffset Cut)

def PathError.instead : PathError → Option String
  | invalidSegment _ _ instead | bracketSyntax instead => some instead
  | _ => none

structure Stray (text : List Char) : Prop where
  inside : ∀ char ∈ text, endsBare char = false
  start : text.head? ≠ some '"'
  stray : ∃ char ∈ text, isSegmentChar char = false

/-- Segments joined by dots, well-formed except one stray one, with the segments they name. -/
inductive StrayText : List Char → List String → Prop where
  | last {text : List Char} (stray : Stray text) : StrayText text [String.ofList text]
  | here {text rest : List Char} {segments : List String} (stray : Stray text)
      (isText : SegmentsText rest segments) :
      StrayText (text ++ '.' :: rest) (String.ofList text :: segments)
  | later {text rest : List Char} {segment : String} {segments : List String}
      (here : SegmentText text segment) (isStray : StrayText rest segments) :
      StrayText (text ++ '.' :: rest) (segment :: segments)

inductive KeyText (quote : Char) : List Char → List Char → Prop where
  | nil : KeyText quote [] []
  | plain {char : Char} {body name : List Char} (notQuote : char ≠ quote) (notEscape : char ≠ '\\')
      (more : KeyText quote body name) : KeyText quote (char :: body) (char :: name)
  | escape {char : Char} {body name : List Char} (more : KeyText quote body name) :
      KeyText quote ('\\' :: char :: body) (char :: name)

inductive BracketsText : List Char → List String → Prop where
  | last {quote : Char} {body name : List Char} (isQuote : quote = '"' ∨ quote = '\'')
      (isKey : KeyText quote body name) (named : name ≠ []) :
      BracketsText ('[' :: quote :: (body ++ [quote, ']'])) [String.ofList name]
  | more {quote : Char} {body name rest : List Char} {keys : List String}
      (isQuote : quote = '"' ∨ quote = '\'') (isKey : KeyText quote body name) (named : name ≠ [])
      (later : BracketsText rest keys) :
      BracketsText ('[' :: quote :: (body ++ quote :: ']' :: rest)) (String.ofList name :: keys)

theorem SegmentsText.append {front back : List Char} {first second : List String}
    (before : SegmentsText front first) (after : SegmentsText back second) :
    SegmentsText (front ++ '.' :: back) (first ++ second) := by
  induction before with
  | last here => exact SegmentsText.more here after
  | more here later ih =>
      rw [List.append_assoc, List.cons_append]
      exact SegmentsText.more here ih

section Stray

theorem strayHint {done : List String} {bad rest : List Char} {segments : List String}
    (named : "" ∉ done) (nonempty : bad ≠ [])
    (isRest : (rest = [] ∧ segments = []) ∨
      ∃ later, rest = '.' :: later ∧ SegmentsText later segments) :
    SegmentsText (quotedHint done bad rest).toList (done ++ String.ofList bad :: segments) := by
  have hint : (quotedHint done bad rest).toList =
      joinDots ((done ++ [String.ofList bad]).map displaySegment) ++ rest := by
    rw [quotedHint, String.toList_ofList, List.map_append]
    rfl
  have front : SegmentsText (joinDots ((done ++ [String.ofList bad]).map displaySegment))
      (done ++ [String.ofList bad]) := by
    have all : "" ∉ done ++ [String.ofList bad] := by
      rw [List.mem_append, List.mem_singleton, not_or]
      exact ⟨named, (ofList_ne_empty nonempty).symm⟩
    cases done with
    | nil => exact segmentsText_display all
    | cons first others => exact segmentsText_display all
  rw [hint]
  rcases isRest with ⟨rfl, rfl⟩ | ⟨later, rfl, isText⟩
  · rwa [List.append_nil]
  · have whole := front.append isText
    rwa [List.append_assoc, List.singleton_append] at whole

theorem Stray.nonempty {text : List Char} (stray : Stray text) : text ≠ [] := by
  rintro rfl
  obtain ⟨char, member, _⟩ := stray.stray
  cases member

theorem StrayText.nonempty {text : List Char} {segments : List String}
    (isStray : StrayText text segments) : text ≠ [] := by
  cases isStray with
  | last stray => exact stray.nonempty
  | here stray isText => exact List.append_ne_nil_of_left_ne_nil stray.nonempty _
  | later here isStray => exact List.append_ne_nil_of_left_ne_nil here.ne_nil _

theorem readSegment_stray {before text after : List Char} (segments : List String)
    (stray : Stray text) (ends : ∀ char, after.head? = some char → endsBare char = true) :
    ∃ ch, readSegment (before ++ (text ++ after)) segments (size before) =
      .error (.error (.invalidSegment (String.ofList text) ch (quotedHint segments text after))) := by
  have notQuoted : (text ++ after).head? ≠ some '"' := by
    rw [List.head?_append_of_ne_nil _ stray.nonempty]
    exact stray.start
  rw [readSegment_bare notQuoted stray.inside ends, if_neg]
  · obtain ⟨char, member, notPlain⟩ := stray.stray
    cases found : text.find? fun c => !isSegmentChar c with
    | none =>
        have plain := List.find?_eq_none.mp found char member
        rw [notPlain] at plain
        exact absurd rfl plain
    | some ch => exact ⟨ch, rfl⟩
  · rintro ⟨empty, _⟩
    exact stray.nonempty (List.isEmpty_iff.mp empty)

theorem splitRounds_stray {path rest before : List Char} {done segments : List String} {fuel : Nat}
    (isStray : StrayText rest segments) (same : path = before ++ rest) (named : "" ∉ done)
    (enough : size rest < fuel) :
    ∃ segment ch instead, Loop.run (fun state : Split => state.next.isSome) (splitRound path) fuel
        ⟨done, some (size before)⟩ = .error (.error (.invalidSegment segment ch instead)) ∧
      SegmentsText instead.toList (done ++ segments) := by
  obtain ⟨fuel, rfl⟩ := Nat.exists_eq_succ_of_ne_zero (show fuel ≠ 0 by omega)
  induction isStray generalizing before done fuel with
  | @last text stray =>
      obtain ⟨ch, read⟩ := @readSegment_stray before text [] done stray (fun _ none_ => nomatch none_)
      refine ⟨String.ofList text, ch, _, ?_, strayHint named stray.nonempty (.inl ⟨rfl, rfl⟩)⟩
      rw [List.append_nil, ← same] at read
      rw [Loop.run, if_pos (by rfl), splitRound]
      dsimp only
      rw [read]
      rfl
  | @here text rest segments stray isText =>
      obtain ⟨ch, read⟩ := @readSegment_stray before text ('.' :: rest) done stray
        (fun char first => by rw [← Option.some.inj first]; rfl)
      refine ⟨String.ofList text, ch, _, ?_, strayHint named stray.nonempty (.inr ⟨rest, rfl, isText⟩)⟩
      rw [← same] at read
      rw [Loop.run, if_pos (by rfl), splitRound]
      dsimp only
      rw [read]
      rfl
  | @later text rest segment segments here isStray ih =>
      have first := @splitRound_more before text rest segment done here isStray.nonempty
      rw [← same] at first
      have cut : path = (before ++ text ++ ['.']) ++ rest := by simp [same]
      have extended : "" ∉ done ++ [segment] := by
        rw [List.mem_append, List.mem_singleton, not_or]
        exact ⟨named, here.named.symm⟩
      rw [Utf8.size_append, Utf8.size_cons,
        Utf8.utf8Size_ascii (show '.'.toNat < 0x80 by decide)] at enough
      obtain ⟨fewer, rfl⟩ := Nat.exists_eq_succ_of_ne_zero (show fuel ≠ 0 by omega)
      obtain ⟨written, ch, instead, ran, isText⟩ := ih cut extended fewer (by omega)
      refine ⟨written, ch, instead, ?_, ?_⟩
      · rw [Loop.run, if_pos (by rfl), first]
        exact ran
      · rwa [List.append_assoc, List.singleton_append] at isText

end Stray

section Brackets

theorem splitRounds_bracket {path text after before : List Char} {done dotted : List String}
    {hint : List Char} {fuel : Nat} (isText : SegmentsText text dotted)
    (opens : after.head? = some '[') (same : path = before ++ (text ++ after))
    (isHint : unbracket path = (.ok hint : Except (Fault PathError) (List Char)))
    (enough : size text < fuel) :
    Loop.run (fun state : Split => state.next.isSome) (splitRound path) fuel
      ⟨done, some (size before)⟩ = .error (.error (.bracketSyntax (String.ofList hint))) := by
  obtain ⟨fuel, rfl⟩ := Nat.exists_eq_succ_of_ne_zero (show fuel ≠ 0 by omega)
  induction isText generalizing before done fuel with
  | @last text segment here =>
      have ends : ∀ char, after.head? = some char → endsBare char = true := by
        intro char first
        rw [opens] at first
        rw [← Option.some.inj first]
        rfl
      obtain ⟨inner, rfl⟩ := List.head?_eq_some_iff.mp opens
      have read := @readSegment_text before text ('[' :: inner) segment done here ends
      have later := @sliceFrom_rest PathError (before ++ text) ('[' :: inner)
      rw [← same] at read
      rw [List.append_assoc, ← same] at later
      rw [Loop.run, if_pos (by rfl), splitRound]
      dsimp only
      rw [read, Fallible.ok_bind]
      dsimp only
      rw [later, Fallible.ok_bind, isHint]
      rfl
  | @more text rest segment segments here later ih =>
      have first := @splitRound_more before text (rest ++ after) segment done here
        (List.append_ne_nil_of_left_ne_nil later.ne_nil _)
      have whole : path = before ++ (text ++ '.' :: (rest ++ after)) := by simp [same]
      have cut : path = (before ++ text ++ ['.']) ++ (rest ++ after) := by simp [same]
      rw [← whole] at first
      rw [Utf8.size_append, Utf8.size_cons,
        Utf8.utf8Size_ascii (show '.'.toNat < 0x80 by decide)] at enough
      obtain ⟨fewer, rfl⟩ := Nat.exists_eq_succ_of_ne_zero (show fuel ≠ 0 by omega)
      rw [Loop.run, if_pos (by rfl), first]
      exact ih cut fewer (by omega)

/-- The pieces the hint's scan takes a dotted text apart into. -/
def Dotted (part : List Char) (pieces : List (List Char)) : Prop :=
  ∀ front fuel, part.length ≤ fuel →
    Loop.run (fun state : Pieces => !state.rest.isEmpty) dottedPiece fuel ⟨front, part⟩ =
      (.ok ⟨front ++ pieces, []⟩ : Except (Fault PathError) Pieces)

theorem Dotted.pieces {part : List Char} {pieces : List (List Char)} (dotted : Dotted part pieces) :
    dottedPieces part = (.ok pieces : Except (Fault PathError) (List (List Char))) := by
  rw [dottedPieces, dotted [] part.length (Nat.le_refl _)]
  rfl

theorem Escaped.unescape {body name : List Char} (escaped : Escaped body name) :
    FusionPipeline.unescape body = name := by
  induction escaped with
  | nil => rfl
  | @plain char body name notQuote notEscape more ih =>
      rw [FusionPipeline.unescape, ih]
      · exact fun same => absurd same notEscape
      · exact fun next rest same => absurd same notEscape
  | escape escapes more ih => rw [FusionPipeline.unescape, ih]

structure OnePiece (text piece : List Char) : Prop where
  nonempty : text ≠ []
  head : text.head? ≠ some '.'
  taken : ∀ front after, after = [] ∨ after.head? = some '.' →
    dottedPiece ⟨front, text ++ after⟩ =
      (.ok ⟨front ++ [piece], trimDots after⟩ : Except (Fault PathError) Pieces)

theorem OnePiece.bare {text : List Char} (named : text ≠ []) (start : text.head? ≠ some '"')
    (noDot : ∀ char ∈ text, (char == '.') = false) : OnePiece text text := by
  refine ⟨named, ?_, ?_⟩
  · intro dot
    obtain ⟨rest, rfl⟩ := List.head?_eq_some_iff.mp dot
    exact absurd (noDot '.' List.mem_cons_self) (by decide)
  · intro front after ends
    have notQuoted : (text ++ after).head? ≠ some '"' := by
      rwa [List.head?_append_of_ne_nil _ named]
    have stop : (findOffset (· == '.') (text ++ after)).getD (size (text ++ after)) = size text := by
      rcases ends with rfl | dot
      · rw [List.append_nil, Utf8.findOffset_none noDot, Option.getD_none]
      · obtain ⟨more, rfl⟩ := List.head?_eq_some_iff.mp dot
        rw [Utf8.findOffset_append noDot rfl, Option.getD_some]
    have piece := @slice_between PathError [] text after
    have positive : 0 < size text := by
      obtain ⟨char, rest, rfl⟩ := List.exists_cons_of_ne_nil named
      have wide := char.utf8Size_pos
      rw [Utf8.size_cons]
      omega
    rw [List.nil_append, Utf8.size_nil, Nat.zero_add] at piece
    rw [dottedPiece]
    dsimp only
    rw [if_neg notQuoted, stop, piece, Fallible.ok_bind, sliceFrom_rest, Fallible.ok_bind,
      if_pos positive]
    rfl

theorem OnePiece.quoted {body name : List Char} (escaped : Escaped body name) :
    OnePiece ('"' :: (body ++ ['"'])) name := by
  refine ⟨List.cons_ne_nil _ _, by simp, ?_⟩
  intro front after ends
  have cut : '"' :: (body ++ ['"']) ++ after = '"' :: (body ++ '"' :: after) := by simp
  have closes : quotedEnd ('"' :: (body ++ '"' :: after)) 0 =
      some (size ([] : List Char) + size body + 2) :=
    quotedEnd_quotable (by decide) (by decide) escaped.quotable [] after
  have contents : slice ('"' :: (body ++ '"' :: after)) 1
      (size ([] : List Char) + size body + 2 - 1) =
        (.ok body : Except (Fault PathError) (List Char)) :=
    slice_quoted [] body after
  have later := @sliceFrom_rest PathError ('"' :: (body ++ ['"'])) after
  have stop : size ([] : List Char) + size body + 2 = size ('"' :: (body ++ ['"'])) := by
    simp only [Utf8.size_append, Utf8.size_cons, quote_size, Utf8.size_nil]
    omega
  rw [stop] at closes contents
  rw [cut] at later
  rw [cut, dottedPiece]
  dsimp only
  rw [if_pos (by rw [List.head?_cons]), closes]
  dsimp only
  rw [contents, Fallible.ok_bind, later, Fallible.ok_bind, escaped.unescape]
  rfl

theorem SegmentText.onePiece {text : List Char} {segment : String}
    (here : SegmentText text segment) : OnePiece text segment.toList := by
  cases here with
  | bare named plain =>
      rw [String.toList_ofList]
      refine OnePiece.bare named ?_ ?_
      · intro quoted
        obtain ⟨rest, rfl⟩ := List.head?_eq_some_iff.mp quoted
        exact (segmentChar_plain (plain _ List.mem_cons_self)).1 rfl
      · intro char member
        have inside := (segmentChar_plain (plain char member)).2
        rw [endsBare, Bool.or_eq_false_iff, Bool.or_eq_false_iff] at inside
        exact inside.1.1
  | quoted escaped named =>
      rw [String.toList_ofList]
      exact OnePiece.quoted escaped

theorem Dotted.last {text piece : List Char} (here : OnePiece text piece) : Dotted text [piece] := by
  intro front fuel enough
  obtain ⟨char, rest, same⟩ := List.exists_cons_of_ne_nil here.nonempty
  have round := here.taken front [] (.inl rfl)
  rw [List.append_nil] at round
  rw [same] at round enough ⊢
  obtain ⟨fuel, rfl⟩ := Nat.exists_eq_succ_of_ne_zero
    (show fuel ≠ 0 by rw [List.length_cons] at enough; omega)
  rw [Loop.run, if_pos (by rfl), round]
  exact Loop.run_done (by rfl) fuel

theorem Dotted.more {text part piece : List Char} {pieces : List (List Char)}
    (here : OnePiece text piece) (notDot : part.head? ≠ some '.') (dotted : Dotted part pieces) :
    Dotted (text ++ '.' :: part) (piece :: pieces) := by
  intro front fuel enough
  obtain ⟨char, rest, same⟩ := List.exists_cons_of_ne_nil here.nonempty
  have round := here.taken front ('.' :: part) (.inr rfl)
  have trimmed : trimDots ('.' :: part) = part := by
    rw [trimDots, List.dropWhile_cons_of_pos (by rfl)]
    cases part with
    | nil => rfl
    | cons first part =>
        rw [List.dropWhile_cons_of_neg]
        intro dot
        exact notDot (congrArg some (beq_iff_eq.mp dot))
  rw [trimmed] at round
  rw [List.length_append, List.length_cons] at enough
  obtain ⟨fuel, rfl⟩ := Nat.exists_eq_succ_of_ne_zero (show fuel ≠ 0 by omega)
  have later := dotted (front ++ [piece]) fuel (by omega)
  rw [List.append_assoc, List.singleton_append] at later
  rw [Loop.run, if_pos (by rw [same]; rfl), round]
  exact later

theorem SegmentsText.dotted {text : List Char} {segments : List String}
    (isText : SegmentsText text segments) : Dotted text (segments.map String.toList) := by
  induction isText with
  | last here => exact Dotted.last here.onePiece
  | more here later ih => exact Dotted.more here.onePiece later.head ih

theorem Dotted.unclosed {body : List Char} (quotable : Quotable '"' body) :
    Dotted ('"' :: body) [FusionPipeline.unescape body] := by
  intro front fuel enough
  obtain ⟨fuel, rfl⟩ := Nat.exists_eq_succ_of_ne_zero
    (show fuel ≠ 0 by rw [List.length_cons] at enough; omega)
  have opened : quotedEnd ('"' :: body) 0 = none := by
    rw [quotedEnd, List.drop_zero, Utf8.encode_cons_ascii (by decide)]
    dsimp only
    rw [closeOffset_unclosed (by decide) quotable, Option.map_none]
  have inner := @sliceFrom_rest PathError ['"'] body
  have round : dottedPiece ⟨front, '"' :: body⟩ =
      (.ok ⟨front ++ [FusionPipeline.unescape body], []⟩ : Except (Fault PathError) Pieces) := by
    rw [dottedPiece]
    dsimp only
    rw [if_pos (by rw [List.head?_cons]), opened]
    dsimp only
    have one : size ['"'] = 1 := by rfl
    rw [one, List.singleton_append] at inner
    rw [inner, Fallible.ok_bind]
    rfl
  rw [Loop.run, if_pos (by rfl), round]
  exact Loop.run_done (by rfl) fuel

theorem KeyText.quotable {quote : Char} {body name : List Char} (isKey : KeyText quote body name) :
    Quotable quote body := by
  induction isKey with
  | nil => exact Quotable.nil
  | plain notQuote notEscape more ih => exact Quotable.plain notQuote notEscape ih
  | escape more ih => exact Quotable.escape ih

theorem KeyText.unescape {quote : Char} {body name : List Char} (isKey : KeyText quote body name) :
    FusionPipeline.unescape body = name := by
  induction isKey with
  | nil => rfl
  | @plain char body name notQuote notEscape more ih =>
      rw [FusionPipeline.unescape, ih]
      · exact fun same => absurd same notEscape
      · exact fun next rest same => absurd same notEscape
  | escape more ih => rw [FusionPipeline.unescape, ih]

section Keys

variable {quote : Char} {body name : List Char} (isQuote : quote = '"' ∨ quote = '\'')
  (isKey : KeyText quote body name)
include isQuote

theorem quote_ascii : quote.toNat < 0x80 ∧ quote ≠ '\\' ∧ quote.utf8Size = 1 := by
  rcases isQuote with rfl | rfl <;> decide

theorem bracketContents_key (quotable : Quotable quote body) (rest : List Char) :
    bracketContents (quote :: (body ++ quote :: ']' :: rest)) =
      (.ok (quote :: (body ++ [quote]), size body + 3) :
        Except (Fault PathError) (List Char × Nat)) := by
  obtain ⟨ascii, notEscape, single⟩ := quote_ascii isQuote
  generalize same : quote :: (body ++ quote :: ']' :: rest) = text
  have cut : text = (quote :: (body ++ [quote])) ++ ']' :: rest := by simp [← same]
  have length : size (quote :: (body ++ [quote])) = size body + 2 := by
    simp only [Utf8.size_append, Utf8.size_cons, single, Utf8.size_nil]
    omega
  have closes : quotedEnd text 0 = some (size body + 2) := by
    have ends := quotedEnd_quotable ascii notEscape quotable [] (']' :: rest)
    rw [← same]
    rwa [Utf8.size_nil, Nat.zero_add] at ends
  have first : (encode text)[0]? = some quote.toUInt8 := by
    rw [← same, Utf8.encode_cons_ascii ascii]
    rfl
  have second : (encode text)[size body + 2]? = some (b ']') := by
    rw [cut, ← length, ← List.head?_drop, Utf8.drop_encode, Utf8.encode_cons_ascii (by decide),
      List.head?_cons]
  have inner := @slice_between PathError [] (quote :: (body ++ [quote])) (']' :: rest)
  rw [List.nil_append, ← cut, Utf8.size_nil, Nat.zero_add, length] at inner
  have long : size body + 2 < size text := by
    have positive := ']'.utf8Size_pos
    rw [cut, Utf8.size_append, length, Utf8.size_cons]
    omega
  have start : bracketRound text ⟨0, none⟩ =
      (.ok ⟨size body + 2, none⟩ : Except (Fault PathError) BracketScan) := by
    rw [bracketRound, first]
    dsimp only
    rw [if_pos, closes]
    rcases isQuote with rfl | rfl
    · exact .inl rfl
    · exact .inr rfl
  have finish : bracketRound text ⟨size body + 2, none⟩ =
      (.ok ⟨size body + 2, some (quote :: (body ++ [quote]), size body + 3)⟩ :
        Except (Fault PathError) BracketScan) := by
    rw [bracketRound, second]
    dsimp only
    rw [if_neg (by decide), if_pos rfl, inner]
    rfl
  obtain ⟨fuel, enough⟩ := Nat.exists_eq_add_of_le (show 2 ≤ size text + 1 by omega)
  have ran : Loop.run (fun state : BracketScan => state.i < size text && state.found.isNone)
      (bracketRound text) (fuel + 2) ⟨0, none⟩ =
        (.ok ⟨size body + 2, some (quote :: (body ++ [quote]), size body + 3)⟩ :
          Except (Fault PathError) BracketScan) := by
    rw [Loop.run, if_pos, start, Except.bind, Loop.run, if_pos, finish, Except.bind,
      Loop.run_done (by simp)]
    · simpa using long
    · simp
      omega
  rw [bracketContents, enough, Nat.add_comm 2 fuel, ran]
  rfl

theorem bracketPieces_key (isKey : KeyText quote body name) (named : name ≠ []) :
    bracketPieces (quote :: (body ++ [quote])) = [name] := by
  have solid : isWhitespace quote = false := by
    rcases isQuote with rfl | rfl <;> decide
  have trimmed : trim (quote :: (body ++ [quote])) = quote :: (body ++ [quote]) := by
    rw [trim, List.dropWhile_cons_of_neg (by rw [solid]; decide), ← List.cons_append,
      List.reverse_append, List.reverse_singleton, List.singleton_append,
      List.dropWhile_cons_of_neg (by rw [solid]; decide), List.reverse_cons, List.reverse_reverse]
  rw [bracketPieces, trimmed]
  dsimp only
  rw [if_pos isQuote, if_pos List.getLast?_concat, List.dropLast_concat, isKey.unescape, if_neg]
  intro empty
  exact named (List.isEmpty_iff.mp empty)

theorem unbracketRound_key (isKey : KeyText quote body name) (named : name ≠ [])
    (before rest : List Char) (front : List (List Char)) :
    unbracketRound (before ++ '[' :: quote :: (body ++ quote :: ']' :: rest)) ⟨front, size before⟩ =
      (.ok ⟨front ++ [name], size (before ++ '[' :: quote :: (body ++ [quote, ']']))⟩ :
        Except (Fault PathError) Unbracket) := by
  have stop : size before + 1 + (size body + 3) =
      size (before ++ '[' :: quote :: (body ++ [quote, ']'])) := by
    simp only [Utf8.size_append, Utf8.size_cons, (quote_ascii isQuote).2.2, Utf8.size_nil,
      Utf8.utf8Size_ascii (show '['.toNat < 0x80 by decide),
      Utf8.utf8Size_ascii (show ']'.toNat < 0x80 by decide)]
    omega
  rw [unbracketRound, sliceFrom_rest, Fallible.ok_bind]
  change (bracketContents (quote :: (body ++ quote :: ']' :: rest)) >>= fun found => pure (⟨front ++
    bracketPieces found.1, size before + 1 + found.2⟩ : Unbracket)) = _
  rw [bracketContents_key isQuote isKey.quotable, Fallible.ok_bind, bracketPieces_key isQuote isKey named,
    stop]
  rfl

end Keys

theorem unbracketRounds_keys {path rest before : List Char} {keys : List String}
    {front : List (List Char)} {fuel : Nat} (isText : BracketsText rest keys)
    (same : path = before ++ rest) (enough : size rest ≤ fuel) :
    Loop.run (fun state : Unbracket => state.i < size path) (unbracketRound path) fuel
        ⟨front, size before⟩ =
      (.ok ⟨front ++ keys.map String.toList, size path⟩ : Except (Fault PathError) Unbracket) := by
  have opens (before inner : List Char) : size before < size (before ++ '[' :: inner) := by
    have positive := '['.utf8Size_pos
    rw [Utf8.size_append, Utf8.size_cons]
    omega
  induction isText generalizing before front fuel with
  | @last quote body name isQuote isKey named =>
      have round := unbracketRound_key isQuote isKey named before [] front
      have some_ := opens [] (quote :: (body ++ [quote, ']']))
      rw [← same] at round
      rw [List.nil_append] at some_
      obtain ⟨fuel, rfl⟩ := Nat.exists_eq_succ_of_ne_zero (show fuel ≠ 0 by omega)
      rw [Loop.run, if_pos, round, Except.bind, Loop.run_done, List.map_singleton,
        String.toList_ofList, same]
      · rw [decide_eq_false_iff_not, same]
        exact Nat.lt_irrefl _
      · rw [same, decide_eq_true_iff]
        exact opens before _
  | @more quote body name rest keys isQuote isKey named later ih =>
      have round := unbracketRound_key isQuote isKey named before rest front
      have cut : path = before ++ '[' :: quote :: (body ++ [quote, ']']) ++ rest := by simp [same]
      have length : size ('[' :: quote :: (body ++ quote :: ']' :: rest)) =
          size ('[' :: quote :: (body ++ [quote, ']'])) + size rest := by
        rw [← Utf8.size_append]
        congr 1
        simp
      have some_ := opens [] (quote :: (body ++ [quote, ']']))
      rw [← same] at round
      rw [List.nil_append, Utf8.size_nil] at some_
      obtain ⟨fuel, rfl⟩ := Nat.exists_eq_succ_of_ne_zero (show fuel ≠ 0 by omega)
      have others := @ih _ (front ++ [name]) fuel cut (by omega)
      rw [Loop.run, if_pos, round, Except.bind, others, List.map_cons, String.toList_ofList,
        List.append_assoc, List.singleton_append]
      rw [same, decide_eq_true_iff]
      exact opens before _

end Brackets

end FusionPipeline
