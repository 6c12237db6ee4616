import Mathlib.Data.List.TakeWhile
import FusionPipeline.Path
import FusionPipeline.Library.Fallible

/-! The texts that are paths: segments joined by dots, each bare or quoted. -/

namespace FusionPipeline

open Regex (b)
open Utf8 (encode size findOffset)

/-- What may stand between quotes: each quote in it has a backslash before it. -/
inductive Quotable (quote : Char) : List Char → Prop where
  | nil : Quotable quote []
  | plain {char : Char} {rest : List Char} (notQuote : char ≠ quote) (notEscape : char ≠ '\\')
      (more : Quotable quote rest) : Quotable quote (char :: rest)
  | escape {char : Char} {rest : List Char} (more : Quotable quote rest) :
      Quotable quote ('\\' :: char :: rest)

theorem closeOffset_skip {quote : UInt8} {bytes rest : List UInt8}
    (plain : ∀ byte ∈ bytes, byte ≠ b '\\' ∧ byte ≠ quote) :
    closeOffset quote (bytes ++ rest) = (closeOffset quote rest).map (· + bytes.length) := by
  induction bytes with
  | nil =>
      rw [List.nil_append]
      cases closeOffset quote rest <;> rfl
  | cons byte bytes ih =>
      obtain ⟨⟨notEscape, notQuote⟩, others⟩ := List.forall_mem_cons.mp plain
      rw [List.cons_append, closeOffset.eq_def]
      dsimp only
      rw [if_neg notEscape, if_neg notQuote, ih others, Option.map_map]
      rfl

theorem backslash_size : '\\'.utf8Size = 1 := by
  rfl

section Closing

variable {quote : Char} (ascii : quote.toNat < 0x80) (notEscape : quote ≠ '\\')
include ascii

theorem closeOffset_plain {char : Char} (differs : char ≠ quote) (plain : char ≠ '\\')
    (rest : List Char) :
    closeOffset quote.toUInt8 (encode (char :: rest)) =
      (closeOffset quote.toUInt8 (encode rest)).map (· + char.utf8Size) := by
  rw [encode, List.flatMap_cons, closeOffset_skip, String.length_utf8EncodeChar]
  · rfl
  · intro byte member
    exact ⟨Utf8.ne_of_mem_utf8EncodeChar (by decide) plain byte member,
      Utf8.ne_of_mem_utf8EncodeChar ascii differs byte member⟩

/-- Only the first byte after a backslash is skipped, but the others of a character never close
a quote. -/
theorem closeOffset_escape (char : Char) (rest : List Char) :
    closeOffset quote.toUInt8 (encode ('\\' :: char :: rest)) =
      (closeOffset quote.toUInt8 (encode rest)).map (· + (1 + char.utf8Size)) := by
  have value := Utf8.toNat_toUInt8 ascii
  have size := String.length_utf8EncodeChar char
  rw [Utf8.encode_cons_ascii (by decide), encode, List.flatMap_cons]
  rcases Utf8.encode_cases char with ⟨only, encoded, _⟩ | ⟨first, second, more, encoded, _, tails⟩
  · rw [encoded] at size ⊢
    rw [List.singleton_append, closeOffset.eq_def]
    dsimp only
    rw [if_pos rfl, ← size]
    rfl
  · rw [encoded] at size ⊢
    rw [List.cons_append, closeOffset.eq_def]
    dsimp only
    rw [if_pos rfl, closeOffset_skip, Option.map_map, ← size]
    · congr 1
      funext stop
      simp only [List.length_cons, Function.comp_apply]
      omega
    · intro byte member
      have wide := ((Utf8.isContinuation_iff byte).mp (tails byte member)).1
      constructor
      · rintro rfl
        exact absurd wide (by decide)
      · rintro rfl
        omega

theorem closeOffset_unclosed {body : List Char} (quotable : Quotable quote body) :
    closeOffset quote.toUInt8 (encode body) = none := by
  induction quotable with
  | nil => rfl
  | plain differs plain more ih => rw [closeOffset_plain ascii differs plain, ih, Option.map_none]
  | escape more ih => rw [closeOffset_escape ascii, ih, Option.map_none]

include notEscape

theorem closeOffset_quote (rest : List Char) :
    closeOffset quote.toUInt8 (encode (quote :: rest)) = some 1 := by
  rw [Utf8.encode_cons_ascii ascii, closeOffset.eq_def]
  dsimp only
  rw [if_neg, if_pos rfl]
  intro same
  refine Utf8.ne_of_mem_utf8EncodeChar (by decide) notEscape quote.toUInt8 ?_ same
  rw [Utf8.utf8EncodeChar_ascii ascii]
  exact List.mem_singleton_self _

theorem closeOffset_quotable {body : List Char} (quotable : Quotable quote body)
    (after : List Char) :
    closeOffset quote.toUInt8 (encode (body ++ quote :: after)) = some (size body + 1) := by
  induction quotable with
  | nil => exact closeOffset_quote ascii notEscape after
  | plain differs plain more ih =>
      rw [List.cons_append, closeOffset_plain ascii differs plain, ih, Utf8.size_cons]
      exact congrArg some (by dsimp only; omega)
  | escape more ih =>
      rw [List.cons_append, List.cons_append, closeOffset_escape ascii, ih, Utf8.size_cons,
        Utf8.size_cons, backslash_size, Option.map_some]
      exact congrArg some (by omega)

theorem quotable_of_closeOffset {text : List Char} {stop : Nat}
    (closed : closeOffset quote.toUInt8 (encode text) = some stop) :
    ∃ body after, text = body ++ quote :: after ∧ Quotable quote body ∧ stop = size body + 1 := by
  induction text using unescape.induct generalizing stop with
  | case1 => cases closed
  | case2 =>
      rw [Utf8.encode_cons_ascii (by decide), closeOffset.eq_def] at closed
      dsimp only at closed
      rw [if_pos rfl] at closed
      cases closed
  | case3 next rest ih =>
      rw [closeOffset_escape ascii] at closed
      obtain ⟨earlier, inner, rfl⟩ := Option.map_eq_some_iff.mp closed
      obtain ⟨body, after, rfl, quotable, rfl⟩ := ih inner
      refine ⟨'\\' :: next :: body, after, rfl, Quotable.escape quotable, ?_⟩
      rw [Utf8.size_cons, Utf8.size_cons, backslash_size]
      omega
  | case4 char rest notLast notEscaped ih =>
      by_cases here : char = quote
      · subst here
        rw [closeOffset_quote ascii notEscape] at closed
        obtain rfl := Option.some.inj closed
        exact ⟨[], rest, rfl, Quotable.nil, rfl⟩
      · have plain : char ≠ '\\' := by
          rintro rfl
          cases rest with
          | nil => exact notLast rfl rfl
          | cons next rest => exact notEscaped next rest rfl rfl
        rw [closeOffset_plain ascii here plain] at closed
        obtain ⟨earlier, inner, rfl⟩ := Option.map_eq_some_iff.mp closed
        obtain ⟨body, after, rfl, quotable, rfl⟩ := ih inner
        refine ⟨char :: body, after, rfl, Quotable.plain here plain quotable, ?_⟩
        rw [Utf8.size_cons]
        omega

theorem quotedEnd_quotable {body : List Char} (quotable : Quotable quote body)
    (before after : List Char) :
    quotedEnd (before ++ quote :: (body ++ quote :: after)) (size before) =
      some (size before + size body + 2) := by
  rw [quotedEnd, Utf8.drop_encode, Utf8.encode_cons_ascii ascii]
  dsimp only
  rw [closeOffset_quotable ascii notEscape quotable, Option.map_some]
  exact congrArg some (by omega)

theorem quotable_of_quotedEnd {before rest : List Char} {stop : Nat}
    (closed : quotedEnd (before ++ quote :: rest) (size before) = some stop) :
    ∃ body after, rest = body ++ quote :: after ∧ Quotable quote body ∧
      stop = size before + size body + 2 := by
  rw [quotedEnd, Utf8.drop_encode, Utf8.encode_cons_ascii ascii] at closed
  obtain ⟨length, inner, rfl⟩ := Option.map_eq_some_iff.mp closed
  obtain ⟨body, after, rfl, quotable, rfl⟩ := quotable_of_closeOffset ascii notEscape inner
  exact ⟨body, after, rfl, quotable, by omega⟩

end Closing

inductive Escaped : List Char → List Char → Prop where
  | nil : Escaped [] []
  | plain {char : Char} {body name : List Char} (notQuote : char ≠ '"') (notEscape : char ≠ '\\')
      (more : Escaped body name) : Escaped (char :: body) (char :: name)
  | escape {char : Char} {body name : List Char} (escapes : char = '"' ∨ char = '\\')
      (more : Escaped body name) : Escaped ('\\' :: char :: body) (char :: name)

theorem Escaped.quotable {body name : List Char} (escaped : Escaped body name) :
    Quotable '"' body := by
  induction escaped with
  | nil => exact Quotable.nil
  | plain notQuote notEscape more ih => exact Quotable.plain notQuote notEscape ih
  | escape escapes more ih => exact Quotable.escape ih

theorem unquoteChars_plain {path : List Char} {start stop i : Nat} {char : Char} {rest : List Char}
    (notEscape : char ≠ '\\') :
    unquoteChars path start stop i (char :: rest) =
      (unquoteChars path start stop (i + char.utf8Size) rest).map (char :: ·) := by
  rw [unquoteChars]
  · exact fun same => absurd same notEscape
  · exact fun next more same => absurd same notEscape

theorem unquoteChars_ok {path body name : List Char} {start stop i : Nat}
    (quotable : Quotable '"' body) :
    unquoteChars path start stop i body = .ok name ↔ Escaped body name := by
  induction quotable generalizing i name with
  | nil =>
      rw [unquoteChars, Except.ok.injEq]
      constructor
      · rintro rfl
        exact Escaped.nil
      · rintro ⟨⟩
        rfl
  | @plain char rest notQuote notEscape more ih =>
      rw [unquoteChars_plain notEscape, Fallible.map_ok_iff]
      constructor
      · rintro ⟨name, read, rfl⟩
        exact Escaped.plain notQuote notEscape (ih.mp read)
      · intro escaped
        cases escaped with
        | plain _ _ more => exact ⟨_, ih.mpr more, rfl⟩
        | escape => exact absurd rfl notEscape
  | @escape char rest more ih =>
      rw [unquoteChars]
      by_cases escapes : char = '"' ∨ char = '\\'
      · rw [if_pos escapes, Fallible.map_ok_iff]
        constructor
        · rintro ⟨name, read, rfl⟩
          exact Escaped.escape escapes (ih.mp read)
        · intro escaped
          cases escaped with
          | plain _ notEscape _ => exact absurd rfl notEscape
          | escape _ more => exact ⟨_, ih.mpr more, rfl⟩
      · rw [if_neg escapes]
        constructor
        · intro read
          obtain ⟨segment, _, read⟩ := Fallible.bind_ok_iff.mp read
          obtain ⟨before, _, read⟩ := Fallible.bind_ok_iff.mp read
          obtain ⟨after, _, read⟩ := Fallible.bind_ok_iff.mp read
          cases read
        · intro escaped
          cases escaped with
          | plain _ notEscape _ => exact absurd rfl notEscape
          | escape isEscape _ => exact absurd isEscape escapes

theorem slice_between (before middle after : List Char) :
    slice (before ++ middle ++ after) (size before) (size before + size middle) =
      (.ok middle : Except (Fault Error) (List Char)) := by
  rw [slice, Utf8.slice_append]

theorem sliceFrom_rest (before after : List Char) :
    sliceFrom (before ++ after) (size before) = (.ok after : Except (Fault Error) (List Char)) := by
  rw [sliceFrom, slice, Utf8.slice_rest]

theorem quote_size : '"'.utf8Size = 1 := by
  rfl

theorem slice_quoted (before body after : List Char) :
    slice (before ++ '"' :: (body ++ '"' :: after)) (size before + 1)
      (size before + size body + 2 - 1) = (.ok body : Except (Fault Error) (List Char)) := by
  have cut := @slice_between Error (before ++ ['"']) body ('"' :: after)
  rw [Utf8.size_append, Utf8.size_cons, quote_size] at cut
  rw [List.append_assoc, List.append_assoc, List.singleton_append, Utf8.size_nil, Nat.add_zero] at cut
  rwa [show size before + size body + 2 - 1 = size before + 1 + size body by omega]

theorem unquote_ok {before rest name : List Char} {stop : Nat} :
    unquote (before ++ '"' :: rest) (size before) = .ok (name, stop) ↔
      ∃ body after, rest = body ++ '"' :: after ∧ Escaped body name ∧
        stop = size before + size body + 2 := by
  constructor
  · intro read
    rw [unquote] at read
    split at read
    next => cases read
    next closes closed =>
      obtain ⟨body, after, rfl, quotable, rfl⟩ :=
        quotable_of_quotedEnd (by decide) (by decide) closed
      rw [slice_quoted, Fallible.ok_bind] at read
      obtain ⟨out, isName, same⟩ := Fallible.bind_ok_iff.mp read
      obtain ⟨rfl, rfl⟩ := Prod.mk.inj (Except.ok.inj same)
      exact ⟨body, after, rfl, (unquoteChars_ok quotable).mp isName, rfl⟩
  · rintro ⟨body, after, rfl, escaped, rfl⟩
    rw [unquote, quotedEnd_quotable (by decide) (by decide) escaped.quotable]
    dsimp only
    rw [slice_quoted, Fallible.ok_bind]
    exact Fallible.bind_ok_iff.mpr ⟨name, (unquoteChars_ok escaped.quotable).mpr escaped, rfl⟩

inductive SegmentText : List Char → String → Prop where
  | bare {text : List Char} (named : text ≠ []) (plain : ∀ char ∈ text, isSegmentChar char = true) :
      SegmentText text (String.ofList text)
  | quoted {body name : List Char} (escaped : Escaped body name) (named : name ≠ []) :
      SegmentText ('"' :: (body ++ ['"'])) (String.ofList name)

inductive SegmentsText : List Char → List String → Prop where
  | last {text : List Char} {segment : String} (here : SegmentText text segment) :
      SegmentsText text [segment]
  | more {text rest : List Char} {segment : String} {segments : List String}
      (here : SegmentText text segment) (later : SegmentsText rest segments) :
      SegmentsText (text ++ '.' :: rest) (segment :: segments)

theorem SegmentText.ne_nil {text : List Char} {segment : String} (here : SegmentText text segment) :
    text ≠ [] := by
  cases here with
  | bare named plain => exact named
  | quoted escaped named => exact List.cons_ne_nil _ _

theorem SegmentsText.ne_nil {text : List Char} {segments : List String}
    (here : SegmentsText text segments) : text ≠ [] := by
  cases here with
  | last here => exact here.ne_nil
  | more here later => exact List.append_ne_nil_of_left_ne_nil here.ne_nil _

def endsBare (char : Char) : Bool :=
  char == '.' || char == '[' || char == ']'

theorem segmentChar_plain {char : Char} (plain : isSegmentChar char = true) :
    char ≠ '"' ∧ endsBare char = false := by
  constructor
  · rintro rfl
    exact absurd plain (by decide)
  · rw [Bool.eq_false_iff]
    intro ends
    simp only [endsBare, Bool.or_eq_true, beq_iff_eq] at ends
    rcases ends with (rfl | rfl) | rfl
    · exact absurd plain (by decide)
    · exact absurd plain (by decide)
    · exact absurd plain (by decide)

theorem bareStop {text after : List Char} (before : List Char)
    (inside : ∀ char ∈ text, endsBare char = false)
    (ends : ∀ char, after.head? = some char → endsBare char = true) :
    (findOffset (fun c => c == '.' || c == '[' || c == ']') (text ++ after)).elim
      (size (before ++ (text ++ after))) (size before + ·) = size (before ++ text) := by
  change (findOffset endsBare (text ++ after)).elim _ _ = _
  cases after with
  | nil => rw [List.append_nil, Utf8.findOffset_none inside, Option.elim_none]
  | cons char after =>
      rw [Utf8.findOffset_append inside (ends char rfl), Option.elim_some, Utf8.size_append]

theorem bare_split (rest : List Char) :
    ∃ text after, rest = text ++ after ∧ (∀ char ∈ text, endsBare char = false) ∧
      ∀ char, after.head? = some char → endsBare char = true := by
  refine ⟨rest.takeWhile (!endsBare ·), rest.dropWhile (!endsBare ·),
    (List.takeWhile_append_dropWhile ..).symm, ?_, ?_⟩
  · intro char member
    simpa using List.mem_takeWhile_imp member
  · intro char first
    have stopped := List.head?_dropWhile_not (!endsBare ·) rest
    rw [first] at stopped
    simpa using stopped

theorem readSegment_bare {before text after : List Char} {segments : List String}
    (notQuoted : (text ++ after).head? ≠ some '"')
    (inside : ∀ char ∈ text, endsBare char = false)
    (ends : ∀ char, after.head? = some char → endsBare char = true) :
    readSegment (before ++ (text ++ after)) segments (size before) =
      if text.isEmpty ∧ after.head? ≠ some '[' ∧ after.head? ≠ some ']' then
        .error (.error (.emptySegment (String.ofList (before ++ (text ++ after)))))
      else
        match text.find? fun c => !isSegmentChar c with
        | some ch =>
            .error (.error (.invalidSegment (String.ofList text) ch
              (quotedHint segments text after)))
        | none => .ok (text, size (before ++ text)) := by
  have cut := @slice_between PathError before text after
  have later := @sliceFrom_rest PathError (before ++ text) after
  rw [List.append_assoc, ← Utf8.size_append] at cut
  rw [List.append_assoc] at later
  rw [readSegment, sliceFrom_rest, Fallible.ok_bind, if_neg notQuoted]
  dsimp only
  rw [bareStop before inside ends, cut, Fallible.ok_bind, later, Fallible.ok_bind]
  split
  next => rfl
  next => cases text.find? fun c => !isSegmentChar c <;> rfl

theorem readSegment_text {before text after : List Char} {segment : String}
    (segments : List String) (here : SegmentText text segment)
    (ends : ∀ char, after.head? = some char → endsBare char = true) :
    readSegment (before ++ (text ++ after)) segments (size before) =
      .ok (segment.toList, size (before ++ text)) := by
  cases here with
  | bare named plain =>
      rw [readSegment_bare _ _ ends, if_neg, String.toList_ofList]
      · have allPlain : (text.find? fun c => !isSegmentChar c) = none := by
          rw [List.find?_eq_none]
          intro char member
          rw [plain char member]
          decide
        rw [allPlain]
      · rintro ⟨empty, _⟩
        exact named (List.isEmpty_iff.mp empty)
      · intro quoted
        rw [List.head?_append_of_ne_nil _ named] at quoted
        obtain ⟨rest, rfl⟩ := List.head?_eq_some_iff.mp quoted
        exact (segmentChar_plain (plain _ List.mem_cons_self)).1 rfl
      · exact fun char member => (segmentChar_plain (plain char member)).2
  | @quoted body name escaped named =>
      rw [readSegment, sliceFrom_rest, Fallible.ok_bind, if_pos (by rw [List.cons_append, List.head?_cons])]
      have read : unquote (before ++ ('"' :: (body ++ ['"']) ++ after)) (size before) =
          .ok (name, size before + size body + 2) :=
        unquote_ok.mpr ⟨body, after, by simp, escaped, rfl⟩
      rw [read, Fallible.ok_bind]
      dsimp only
      rw [if_neg, String.toList_ofList]
      · simp only [Utf8.size_append, Utf8.size_cons, quote_size, Utf8.size_nil]
        refine congrArg (fun stop => Except.ok (name, stop)) ?_
        omega
      · exact fun empty => named (List.isEmpty_iff.mp empty)

theorem text_of_readSegment {before rest segment : List Char} {segments : List String} {stop : Nat}
    (read : readSegment (before ++ rest) segments (size before) = .ok (segment, stop)) :
    ∃ text after, rest = text ++ after ∧ stop = size (before ++ text) ∧
      (SegmentText text (String.ofList segment) ∨ after.head? = some '[' ∨ after.head? = some ']') := by
  by_cases quoted : rest.head? = some '"'
  · obtain ⟨inner, rfl⟩ := List.head?_eq_some_iff.mp quoted
    rw [readSegment, sliceFrom_rest, Fallible.ok_bind, if_pos quoted] at read
    obtain ⟨⟨name, closes⟩, isQuoted, goesOn⟩ := Fallible.bind_ok_iff.mp read
    obtain ⟨body, after, rfl, escaped, rfl⟩ := unquote_ok.mp isQuoted
    dsimp only at goesOn
    split at goesOn
    · cases goesOn
    next named =>
      obtain ⟨rfl, rfl⟩ := Prod.mk.inj (Except.ok.inj goesOn)
      refine ⟨'"' :: (body ++ ['"']), after, by simp, ?_, .inl ?_⟩
      · simp only [Utf8.size_append, Utf8.size_cons, quote_size, Utf8.size_nil]
        omega
      · exact SegmentText.quoted escaped (fun empty => named (List.isEmpty_iff.mpr empty))
  · obtain ⟨text, after, rfl, inside, ends⟩ := bare_split rest
    rw [readSegment_bare quoted inside ends] at read
    split at read
    · cases read
    next allowed =>
      split at read
      · cases read
      next allPlain =>
        obtain ⟨rfl, rfl⟩ := Prod.mk.inj (Except.ok.inj read)
        refine ⟨text, after, rfl, rfl, ?_⟩
        by_cases empty : text = []
        · right
          by_contra neither
          obtain ⟨notOpen, notClose⟩ := not_or.mp neither
          exact allowed ⟨List.isEmpty_iff.mpr empty, notOpen, notClose⟩
        · left
          refine SegmentText.bare empty ?_
          intro char member
          simpa using List.find?_eq_none.mp allPlain char member

section Splitting

variable {before text after : List Char} {segment : String} {segments : List String}

theorem splitRound_last (here : SegmentText text segment) :
    splitRound (before ++ text) ⟨segments, some (size before)⟩ =
      .ok ⟨segments ++ [segment], none⟩ := by
  have read := @readSegment_text before text [] segment segments here (fun char first => nomatch first)
  have later := @sliceFrom_rest PathError (before ++ text) []
  rw [List.append_nil] at read later
  rw [splitRound]
  dsimp only
  rw [read, Fallible.ok_bind]
  dsimp only
  rw [later, Fallible.ok_bind, String.ofList_toList]
  rfl

theorem splitRound_more (here : SegmentText text segment) (more : after ≠ []) :
    splitRound (before ++ (text ++ '.' :: after)) ⟨segments, some (size before)⟩ =
      .ok ⟨segments ++ [segment], some (size (before ++ text ++ ['.']))⟩ := by
  have read := @readSegment_text before text ('.' :: after) segment segments here
    (fun char first => by rw [← Option.some.inj first]; rfl)
  have later := @sliceFrom_rest PathError (before ++ text) ('.' :: after)
  rw [List.append_assoc] at later
  rw [splitRound]
  dsimp only
  rw [read, Fallible.ok_bind]
  dsimp only
  rw [later, Fallible.ok_bind, if_neg, String.ofList_toList]
  · rw [Utf8.size_append _ ['.'], Utf8.size_cons, Utf8.size_nil]
    rfl
  · obtain ⟨char, others, rfl⟩ := List.exists_cons_of_ne_nil more
    have positive := char.utf8Size_pos
    rw [← List.append_assoc, Utf8.size_append _ ('.' :: _), Utf8.size_cons, Utf8.size_cons,
      Utf8.utf8Size_ascii (show '.'.toNat < 0x80 by decide)]
    omega

theorem splitRound_cases {rest : List Char} {next : Split}
    (read : splitRound (before ++ rest) ⟨segments, some (size before)⟩ = .ok next) :
    ∃ text segment, SegmentText text segment ∧
      ((rest = text ∧ next = ⟨segments ++ [segment], none⟩) ∨
        ∃ after, after ≠ [] ∧ rest = text ++ '.' :: after ∧
          next = ⟨segments ++ [segment], some (size (before ++ text ++ ['.']))⟩) := by
  rw [splitRound] at read
  dsimp only at read
  obtain ⟨⟨segment, stop⟩, isSegment, goesOn⟩ := Fallible.bind_ok_iff.mp read
  obtain ⟨text, after, rfl, rfl, here⟩ := text_of_readSegment isSegment
  dsimp only at goesOn
  rw [← List.append_assoc, sliceFrom_rest, Fallible.ok_bind] at goesOn
  -- Only a path's end and a dot go on; a dot may not be the last of it.
  split at goesOn
  next =>
    have isText := here.resolve_right (by rintro (first | first) <;> cases first)
    exact ⟨text, _, isText, .inl ⟨List.append_nil _, (Except.ok.inj goesOn).symm⟩⟩
  next _ after =>
    have isText := here.resolve_right (by rintro (first | first) <;> cases first)
    split at goesOn
    · cases goesOn
    next notLast =>
      refine ⟨text, _, isText, .inr ⟨after, ?_, rfl, ?_⟩⟩
      · rintro rfl
        apply notLast
        rw [Utf8.size_append _ ['.']]
        rfl
      · rw [Utf8.size_append _ ['.']]
        exact (Except.ok.inj goesOn).symm
  next =>
    obtain ⟨instead, _, refused⟩ := Fallible.bind_ok_iff.mp goesOn
    cases refused
  next =>
    obtain ⟨instead, _, refused⟩ := Fallible.bind_ok_iff.mp goesOn
    cases refused
  next =>
    obtain ⟨written, _, refused⟩ := Fallible.bind_ok_iff.mp goesOn
    obtain ⟨glued, _, refused⟩ := Fallible.bind_ok_iff.mp refused
    obtain ⟨rest, _, refused⟩ := Fallible.bind_ok_iff.mp refused
    cases refused

/-- The rounds read the segments' texts up to the path's end. -/
theorem splitRounds_iff {path rest : List Char} {final : Split} {fuel : Nat}
    (same : path = before ++ rest) (enough : size rest < fuel) :
    Loop.run (fun state : Split => state.next.isSome) (splitRound path) fuel
        ⟨segments, some (size before)⟩ = .ok final ↔
      ∃ named, SegmentsText rest named ∧ final = ⟨segments ++ named, none⟩ := by
  induction fuel generalizing before rest segments with
  | zero => omega
  | succ fuel ih =>
      rw [Loop.run, if_pos (by rfl)]
      constructor
      · intro ran
        obtain ⟨next, first, goesOn⟩ := Fallible.bind_ok_iff.mp ran
        rw [same] at first
        obtain ⟨text, segment, here, ⟨rfl, rfl⟩ | ⟨after, more, rfl, rfl⟩⟩ := splitRound_cases first
        · rw [Loop.run_done rfl] at goesOn
          exact ⟨[segment], SegmentsText.last here, (Except.ok.inj goesOn).symm⟩
        · rw [Utf8.size_append] at enough
          have cut : path = (before ++ text ++ ['.']) ++ after := by simp [same]
          rw [Utf8.size_cons, Utf8.utf8Size_ascii (show '.'.toNat < 0x80 by decide)] at enough
          obtain ⟨named, later, rfl⟩ := (ih cut (by omega)).mp goesOn
          refine ⟨segment :: named, SegmentsText.more here later, ?_⟩
          rw [List.append_assoc, List.singleton_append]
      · rintro ⟨named, isText, rfl⟩
        cases isText with
        | @last _ segment here =>
            rw [same]
            refine Fallible.bind_ok_iff.mpr ⟨_, splitRound_last here, ?_⟩
            exact Loop.run_done rfl _
        | @more text after segment named here later =>
            have cut : path = (before ++ text ++ ['.']) ++ after := by simp [same]
            rw [Utf8.size_append, Utf8.size_cons,
              Utf8.utf8Size_ascii (show '.'.toNat < 0x80 by decide)] at enough
            have first := @splitRound_more before text after segment segments here later.ne_nil
            rw [← same] at first
            refine Fallible.bind_ok_iff.mpr ⟨_, first, (ih cut (by omega)).mpr ⟨named, later, ?_⟩⟩
            rw [List.append_assoc, List.singleton_append]

end Splitting

theorem splitSegments_ok {path : List Char} {segments : List String} :
    splitSegments path = .ok segments ↔ SegmentsText path segments := by
  have rounds {final : Split} := @splitRounds_iff [] [] path path final (size path + 1) rfl
    (Nat.lt_succ_self _)
  rw [splitSegments, Fallible.map_ok_iff]
  constructor
  · rintro ⟨final, ran, rfl⟩
    obtain ⟨named, isText, rfl⟩ := rounds.mp ran
    exact isText
  · intro isText
    exact ⟨_, rounds.mpr ⟨segments, isText, rfl⟩, rfl⟩

inductive PathText : List Char → FieldPath → Prop where
  | whole : PathText ['.'] FieldPath.whole
  | rooted {text : List Char} {segments : List String} (isText : SegmentsText text segments) :
      PathText ('.' :: text) ⟨.record segments⟩
  | bare {text : List Char} {segments : List String} (isText : SegmentsText text segments)
      (notMeta : segments.head? ≠ some metaRoot) : PathText text ⟨.record segments⟩
  | meta_ {text : List Char} {field : MetaField}
      (isText : SegmentsText text [metaRoot, field.asStr]) : PathText text ⟨.meta_ field⟩

theorem SegmentText.head {text : List Char} {segment : String} (here : SegmentText text segment) :
    text.head? ≠ some '.' := by
  cases here with
  | bare named plain =>
      intro first
      obtain ⟨rest, rfl⟩ := List.head?_eq_some_iff.mp first
      exact absurd (plain '.' List.mem_cons_self) (by decide)
  | quoted escaped named =>
      rw [List.head?_cons]
      decide

theorem SegmentsText.head {text : List Char} {segments : List String}
    (isText : SegmentsText text segments) : text.head? ≠ some '.' := by
  cases isText with
  | last here => exact here.head
  | more here later =>
      rw [List.head?_append_of_ne_nil _ here.ne_nil]
      exact here.head

theorem metaField_parse {name : String} {field : MetaField} :
    MetaField.parse name = some field ↔ name = field.asStr := by
  constructor
  · intro found
    rw [MetaField.parse] at found
    have same := List.find?_some found
    exact (beq_iff_eq.mp same).symm
  · rintro rfl
    cases field <;> decide

theorem ofSegments_ok {path : String} {rooted : Bool} {segments : List String} {field : FieldPath} :
    FieldPath.ofSegments path rooted segments = .ok field ↔
      if rooted = false ∧ segments.head? = some metaRoot then
        ∃ name, segments = [metaRoot, name.asStr] ∧ field = ⟨.meta_ name⟩
      else field = ⟨.record segments⟩ := by
  rw [FieldPath.ofSegments]
  by_cases reserved : rooted = false ∧ segments.head? = some metaRoot
  · obtain ⟨rfl, first⟩ := reserved
    obtain ⟨rest, rfl⟩ := List.head?_eq_some_iff.mp first
    rw [if_pos (by simp), if_pos ⟨rfl, first⟩, List.tail_cons]
    constructor
    · intro parsed
      split at parsed
      next name =>
        split at parsed
        next field isField =>
          obtain rfl := metaField_parse.mp isField
          exact ⟨field, rfl, (Except.ok.inj parsed).symm⟩
        next => cases parsed
      next => cases parsed
    · rintro ⟨name, same, rfl⟩
      obtain ⟨-, rfl⟩ := List.cons.inj same
      dsimp only
      rw [metaField_parse.mpr rfl]
  · rw [if_neg (by simpa using reserved), if_neg reserved, Except.ok.injEq, eq_comm]

namespace FieldPath

theorem ofText_ok {path : String} {rooted : Bool} {text : List Char} {field : FieldPath} :
    ofText path rooted text = .ok field ↔
      ∃ segments, SegmentsText text segments ∧ ofSegments path rooted segments = .ok field := by
  rw [ofText]
  constructor
  · intro parsed
    split at parsed
    next => cases parsed
    next segments isSplit =>
      split at parsed
      next field isField =>
        obtain rfl := Except.ok.inj parsed
        exact ⟨segments, splitSegments_ok.mp isSplit, isField⟩
      next => cases parsed
  · rintro ⟨segments, isText, isField⟩
    rw [splitSegments_ok.mpr isText]
    dsimp only
    rw [isField]

/-- The parser takes exactly the texts of paths. -/
theorem parse_ok {path : String} {field : FieldPath} :
    parse path = .ok field ↔ PathText path.toList field := by
  by_cases dotted : path.toList.head? = some '.'
  · obtain ⟨rest, form⟩ := List.head?_eq_some_iff.mp dotted
    rw [parse, form, stripDot]
    dsimp only
    by_cases empty : rest = []
    · rw [if_pos (by simp [empty]), Except.ok.injEq, empty]
      constructor
      · rintro rfl
        exact PathText.whole
      · intro isText
        cases isText with
        | whole => rfl
        | rooted isText => exact absurd rfl isText.ne_nil
        | bare isText => exact absurd rfl isText.head
        | meta_ isText => exact absurd rfl isText.head
    · rw [if_neg (by simp [empty]), ofText_ok]
      constructor
      · rintro ⟨segments, isText, isField⟩
        rw [ofSegments_ok, if_neg (by simp)] at isField
        rw [isField]
        exact PathText.rooted isText
      · intro isText
        cases isText with
        | whole => exact absurd rfl empty
        | @rooted _ segments isText => exact ⟨segments, isText, ofSegments_ok.mpr (by simp)⟩
        | bare isText => exact absurd rfl isText.head
        | meta_ isText => exact absurd rfl isText.head
  · have unrooted : stripDot path.toList = (path.toList, false) := by
      rw [stripDot.eq_def]
      split
      next form => exact absurd (by rw [form]; rfl) dotted
      next => rfl
    rw [parse, unrooted]
    dsimp only
    rw [if_neg (by simp), ofText_ok]
    constructor
    · rintro ⟨segments, isText, isField⟩
      rw [ofSegments_ok] at isField
      split at isField
      next =>
        obtain ⟨name, rfl, rfl⟩ := isField
        exact PathText.meta_ isText
      next notReserved =>
        rw [isField]
        exact PathText.bare isText (fun first => notReserved ⟨rfl, first⟩)
    · intro isText
      generalize path.toList = text at isText dotted ⊢
      cases isText with
      | whole => exact absurd rfl dotted
      | rooted isText => exact absurd rfl dotted
      | @bare _ segments isText notMeta =>
          refine ⟨segments, isText, ofSegments_ok.mpr ?_⟩
          rw [if_neg (fun reserved => notMeta reserved.2)]
      | @meta_ _ name isText =>
          refine ⟨_, isText, ofSegments_ok.mpr ?_⟩
          rw [if_pos ⟨rfl, rfl⟩]
          exact ⟨name, rfl, rfl⟩

end FieldPath

end FusionPipeline
