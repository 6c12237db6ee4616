import Mathlib.Data.List.Forall2
import FusionPipeline.PathHints

/-! When the hint of a path error names the segments the author wrote. -/

namespace FusionPipeline

open Utf8 (encode size findOffset)

def isBracket (char : Char) : Bool :=
  char == '[' || char == ']'

def Bracketed (name : String) : Prop :=
  ∃ char ∈ name.toList, isBracket char = true

/-- A path text with one mistake that parsing names, its dotted segments, and the keys of the
brackets after them. -/
inductive SlippedText : List Char → List String → List String → Prop where
  | stray {text : List Char} {dotted : List String} (isText : StrayText text dotted) :
      SlippedText text dotted []
  | brackets {text rest : List Char} {dotted keys : List String}
      (isText : SegmentsText text dotted) (areKeys : BracketsText rest keys) :
      SlippedText (text ++ rest) dotted keys

section Scan

theorem unbracketRound_dotted {part after : List Char} {pieces : List (List Char)}
    (named : part ≠ []) (plain : ∀ char ∈ part, isBracket char = false)
    (opens : ∃ char rest, after = char :: rest ∧ isBracket char = true) (dotted : Dotted part pieces) :
    unbracketRound (part ++ after) ⟨[], 0⟩ =
      (.ok ⟨pieces, size part⟩ : Except (Fault PathError) Unbracket) := by
  obtain ⟨bracket, rest, rfl, isBracket_⟩ := opens
  obtain ⟨first, others, same⟩ := List.exists_cons_of_ne_nil named
  have whole := @sliceFrom_rest PathError [] (part ++ bracket :: rest)
  have stop : findOffset (fun c => c == '[' || c == ']') (part ++ bracket :: rest) =
      some (size part) :=
    Utf8.findOffset_append plain isBracket_
  have front := @slice_between PathError [] part (bracket :: rest)
  have firstPlain : first ≠ '[' ∧ first ≠ ']' := by
    have here := plain first (by simp [same])
    rw [isBracket, Bool.or_eq_false_iff] at here
    exact ⟨beq_eq_false_iff_ne.mp here.1, beq_eq_false_iff_ne.mp here.2⟩
  rw [List.nil_append, Utf8.size_nil, Nat.zero_add] at front
  rw [List.nil_append, Utf8.size_nil] at whole
  rw [unbracketRound, whole, Fallible.ok_bind]
  split
  next inner opened => rw [same] at opened; exact absurd (List.cons.inj opened).1 firstPlain.1
  next inner closed => rw [same] at closed; exact absurd (List.cons.inj closed).1 firstPlain.2
  next =>
    rw [stop, Option.getD_some]
    dsimp only
    rw [front, Fallible.ok_bind, dotted.pieces, Fallible.ok_bind, List.nil_append, Nat.zero_add]
    rfl

theorem unbracketRound_appends {path : List Char} {state next : Unbracket}
    (stepped : unbracketRound path state = (.ok next : Except (Fault PathError) Unbracket)) :
    state.segments <+: next.segments := by
  obtain ⟨rest, _, later⟩ := Fallible.bind_ok_iff.mp stepped
  split at later
  · obtain ⟨contents, _, ended⟩ := Fallible.bind_ok_iff.mp later
    obtain rfl := Except.ok.inj ended
    exact List.prefix_append _ _
  · obtain rfl := Except.ok.inj later
    exact List.prefix_refl _
  · obtain ⟨part, _, split_⟩ := Fallible.bind_ok_iff.mp later
    obtain ⟨pieces, _, ended⟩ := Fallible.bind_ok_iff.mp split_
    obtain rfl := Except.ok.inj ended
    exact List.prefix_append _ _

theorem unbracket_begins {path part after : List Char} {pieces : List (List Char)}
    (same : path = part ++ after) (named : part ≠ []) (plain : ∀ char ∈ part, isBracket char = false)
    (opens : ∃ char rest, after = char :: rest ∧ isBracket char = true)
    (dotted : Dotted part pieces) :
    ∃ final : Unbracket, Loop.run (fun state : Unbracket => state.i < size path)
        (unbracketRound path) (size path) ⟨[], 0⟩ =
          (.ok final : Except (Fault PathError) Unbracket) ∧
      pieces <+: final.segments := by
  have ends := @unbracket_ends PathError (fun _ => True) path
  cases ran : Loop.run (fun state : Unbracket => state.i < size path) (unbracketRound path)
      (size path) ⟨[], 0⟩ with
  | error fault => exact absurd trivial (ends.error ran)
  | ok final =>
      refine ⟨final, rfl, ?_⟩
      have positive : 0 < size path := by
        obtain ⟨char, rest, rfl⟩ := List.exists_cons_of_ne_nil named
        have wide := char.utf8Size_pos
        rw [same, Utf8.size_append, Utf8.size_cons]
        omega
      obtain ⟨fuel, enough⟩ := Nat.exists_eq_succ_of_ne_zero (Nat.ne_of_gt positive)
      have first := unbracketRound_dotted named plain opens dotted
      rw [← same] at first
      rw [enough, Loop.run, if_pos (by simp), first] at ran
      refine @Loop.run_invariant _ _ _ _ (fun state => pieces <+: state.segments) ?_ _ _ _ ?_ ran
      · intro state next before going stepped
        exact before.trans (unbracketRound_appends stepped)
      · exact List.prefix_refl _

end Scan

section Names

theorem Dotted.unique {part : List Char} {first second : List (List Char)} (left : Dotted part first)
    (right : Dotted part second) : first = second := by
  have same := left.pieces.symm.trans right.pieces
  exact Except.ok.inj same

theorem onePiece_display (name : List Char) :
    OnePiece (displaySegment (String.ofList name)) name := by
  by_cases named : String.ofList name = ""
  · have empty : name = [] := by
      rw [← @String.toList_ofList name, named]
      rfl
    rw [empty]
    exact OnePiece.quoted Escaped.nil
  · have piece := (segmentText_display named).onePiece
    rwa [String.toList_ofList] at piece

theorem Dotted.join {texts pieces : List (List Char)} (all : List.Forall₂ OnePiece texts pieces)
    (some_ : texts ≠ []) : Dotted (joinDots texts) pieces ∧ (joinDots texts).head? ≠ some '.' := by
  induction all with
  | nil => exact absurd rfl some_
  | @cons text piece texts pieces here others ih =>
      cases others with
      | nil =>
          have single : joinDots [text] = text := by simp [joinDots, List.intercalate]
          rw [single]
          exact ⟨Dotted.last here, here.head⟩
      | cons next others =>
          obtain ⟨dotted, head⟩ := ih (List.cons_ne_nil _ _)
          rw [joinDots_cons]
          refine ⟨Dotted.more here head dotted, ?_⟩
          rw [List.head?_append_of_ne_nil _ here.nonempty]
          exact here.head

theorem onePieces_display (names : List (List Char)) :
    List.Forall₂ OnePiece (names.map fun name => displaySegment (String.ofList name)) names := by
  induction names with
  | nil => exact List.Forall₂.nil
  | cons name names ih => exact List.Forall₂.cons (onePiece_display name) ih

theorem hint_dotted {path hint : List Char} {final : Unbracket} (some_ : final.segments ≠ [])
    (ran : Loop.run (fun state : Unbracket => state.i < size path) (unbracketRound path) (size path)
      ⟨[], 0⟩ = (.ok final : Except (Fault PathError) Unbracket))
    (isHint : unbracket path = (.ok hint : Except (Fault PathError) (List Char))) :
    ∃ pieces, final.segments <+: pieces ∧ Dotted hint pieces ∧ hint.head? ≠ some '.' := by
  have printed := onePieces_display final.segments
  have texts : (final.segments.map fun name => displaySegment (String.ofList name)) ≠ [] := by
    simpa using some_
  rw [unbracket, ran, Fallible.ok_bind] at isHint
  obtain rfl := Except.ok.inj isHint
  split
  next alone =>
    have field : OnePiece "<field>".toList "<field>".toList :=
      OnePiece.bare (by decide) (by decide) (by decide)
    have all := List.rel_append printed (List.Forall₂.cons field List.Forall₂.nil)
    exact ⟨_, List.prefix_append _ _, Dotted.join all (List.append_ne_nil_of_left_ne_nil texts _)⟩
  next => exact ⟨_, List.prefix_refl _, Dotted.join printed texts⟩

theorem Escaped.plain_of {body name : List Char} (escaped : Escaped body name)
    (plain : ∀ char ∈ name, isBracket char = false) : ∀ char ∈ body, isBracket char = false := by
  induction escaped with
  | nil => exact plain
  | @plain char body name notQuote notEscape more ih =>
      rw [List.forall_mem_cons] at plain ⊢
      exact ⟨plain.1, ih plain.2⟩
  | @escape char body name escapes more ih =>
      rw [List.forall_mem_cons] at plain
      rw [List.forall_mem_cons, List.forall_mem_cons]
      exact ⟨by decide, plain.1, ih plain.2⟩

theorem SegmentText.plain_of {text : List Char} {segment : String} (here : SegmentText text segment)
    (plain : ¬ Bracketed segment) : ∀ char ∈ text, isBracket char = false := by
  have name : ∀ char ∈ segment.toList, isBracket char = false := by
    intro char member
    exact Bool.eq_false_iff.mpr fun bracket => plain ⟨char, member, bracket⟩
  cases here with
  | bare named chars => rwa [String.toList_ofList] at name
  | quoted escaped named =>
      rw [String.toList_ofList] at name
      intro char member
      simp only [List.mem_cons, List.mem_append, List.not_mem_nil, or_false] at member
      rcases member with rfl | inside | rfl
      · decide
      · exact escaped.plain_of name char inside
      · decide

theorem SegmentsText.plain_of {text : List Char} {segments : List String}
    (isText : SegmentsText text segments) (plain : ∀ name ∈ segments, ¬ Bracketed name) :
    ∀ char ∈ text, isBracket char = false := by
  induction isText with
  | last here => exact here.plain_of (plain _ List.mem_cons_self)
  | more here later ih =>
      rw [List.forall_mem_cons] at plain
      intro char member
      rcases List.mem_append.mp member with inside | rest
      · exact here.plain_of plain.1 char inside
      · rcases List.mem_cons.mp rest with rfl | rest
        · decide
        · exact ih plain.2 char rest

theorem Escaped.cut {body name : List Char} (escaped : Escaped body name)
    (bracketed : ∃ char ∈ name, isBracket char = true) :
    ∃ front back, body = front ++ back ∧ Quotable '"' front ∧
      (∀ char ∈ front, isBracket char = false) ∧
      (∃ char rest, back = char :: rest ∧ isBracket char = true) ∧
      (FusionPipeline.unescape front).length < name.length := by
  induction escaped with
  | nil =>
      obtain ⟨char, member, _⟩ := bracketed
      cases member
  | @plain char body name notQuote notEscape more ih =>
      by_cases here : isBracket char = true
      · refine ⟨[], char :: body, rfl, Quotable.nil, ?_, ⟨char, body, rfl, here⟩, ?_⟩
        · exact fun none_ member => absurd member List.not_mem_nil
        · exact Nat.succ_pos _
      · obtain ⟨bracket, member, isBracket_⟩ := bracketed
        rcases List.mem_cons.mp member with rfl | later
        · exact absurd isBracket_ here
        obtain ⟨front, back, rfl, quotable, plain, opens, shorter⟩ := ih ⟨bracket, later, isBracket_⟩
        refine ⟨char :: front, back, rfl, Quotable.plain notQuote notEscape quotable, ?_, opens, ?_⟩
        · rw [List.forall_mem_cons]
          exact ⟨Bool.eq_false_iff.mpr here, plain⟩
        · have dropped : FusionPipeline.unescape (char :: front) =
              char :: FusionPipeline.unescape front := by
            rw [FusionPipeline.unescape]
            · exact fun same => absurd same notEscape
            · exact fun next rest same => absurd same notEscape
          rw [dropped, List.length_cons, List.length_cons]
          omega
  | @escape char body name escapes more ih =>
      have notBracket : isBracket char = false := by
        rcases escapes with rfl | rfl <;> decide
      obtain ⟨bracket, member, isBracket_⟩ := bracketed
      rcases List.mem_cons.mp member with rfl | later
      · rw [isBracket_] at notBracket
        cases notBracket
      obtain ⟨front, back, rfl, quotable, plain, opens, shorter⟩ := ih ⟨bracket, later, isBracket_⟩
      refine ⟨'\\' :: char :: front, back, rfl, Quotable.escape quotable, ?_, opens, ?_⟩
      · rw [List.forall_mem_cons, List.forall_mem_cons]
        exact ⟨by decide, notBracket, plain⟩
      · rw [FusionPipeline.unescape, List.length_cons, List.length_cons]
        omega

/-- The text up to its first bracket, as the scan takes it: the names before the one that holds
it, and less than that one. -/
theorem SegmentText.cut {text : List Char} {segment : String} (here : SegmentText text segment)
    (bracketed : Bracketed segment) :
    ∃ part back short, text = part ++ back ∧ part ≠ [] ∧ part.head? ≠ some '.' ∧
      (∀ char ∈ part, isBracket char = false) ∧
      (∃ char rest, back = char :: rest ∧ isBracket char = true) ∧
      Dotted part [short] ∧ short.length < segment.toList.length := by
  obtain ⟨bracket, member, isBracket_⟩ := bracketed
  cases here with
  | bare named chars =>
      rw [String.toList_ofList] at member
      have inside := (segmentChar_plain (chars bracket member)).2
      rw [endsBare, Bool.or_assoc, Bool.or_eq_false_iff] at inside
      rw [isBracket, inside.2] at isBracket_
      cases isBracket_
  | quoted escaped named =>
      rw [String.toList_ofList] at member ⊢
      obtain ⟨front, back, rfl, quotable, plain, ⟨char, rest, rfl, opens⟩, shorter⟩ :=
        escaped.cut ⟨bracket, member, isBracket_⟩
      refine ⟨'"' :: front, char :: (rest ++ ['"']), _, by simp, List.cons_ne_nil _ _, by simp, ?_,
        ⟨char, _, rfl, opens⟩, Dotted.unclosed quotable, shorter⟩
      rw [List.forall_mem_cons]
      exact ⟨by decide, plain⟩

theorem SegmentsText.cut {text : List Char} {segments : List String}
    (isText : SegmentsText text segments) (bracketed : ∃ name ∈ segments, Bracketed name) :
    ∃ part back pieces, text = part ++ back ∧ part ≠ [] ∧ part.head? ≠ some '.' ∧
      (∀ char ∈ part, isBracket char = false) ∧
      (∃ char rest, back = char :: rest ∧ isBracket char = true) ∧
      Dotted part pieces ∧ ∀ more, ¬ pieces <+: segments.map String.toList ++ more := by
  induction isText with
  | @last text segment here =>
      obtain ⟨name, member, bracketed⟩ := bracketed
      obtain rfl := List.mem_singleton.mp member
      obtain ⟨part, back, short, same, named, head, plain, opens, dotted, shorter⟩ := here.cut bracketed
      refine ⟨part, back, _, same, named, head, plain, opens, dotted, ?_⟩
      intro more starts
      rw [List.map_singleton, List.singleton_append, List.cons_prefix_cons] at starts
      rw [starts.1] at shorter
      exact Nat.lt_irrefl _ shorter
  | @more text rest segment segments here later ih =>
      by_cases first : Bracketed segment
      · obtain ⟨part, back, short, rfl, named, head, plain, ⟨char, after, rfl, opens⟩, dotted,
          shorter⟩ := here.cut first
        refine ⟨part, char :: (after ++ '.' :: rest), _, by simp, named, head, plain,
          ⟨char, _, rfl, opens⟩, dotted, ?_⟩
        intro more starts
        rw [List.map_cons, List.cons_append, List.cons_prefix_cons] at starts
        rw [starts.1] at shorter
        exact Nat.lt_irrefl _ shorter
      · obtain ⟨name, member, bracketed⟩ := bracketed
        rcases List.mem_cons.mp member with rfl | member
        · exact absurd bracketed first
        obtain ⟨part, back, pieces, rfl, named, head, plain, opens, dotted, differs⟩ :=
          ih ⟨name, member, bracketed⟩
        refine ⟨text ++ '.' :: part, back, segment.toList :: pieces, by simp,
          List.append_ne_nil_of_left_ne_nil here.ne_nil _, ?_, ?_, opens,
          Dotted.more here.onePiece head dotted, ?_⟩
        · rw [List.head?_append_of_ne_nil _ here.ne_nil]
          exact here.head
        · intro char inside
          rcases List.mem_append.mp inside with inside | inside
          · exact here.plain_of first char inside
          · rcases List.mem_cons.mp inside with rfl | inside
            · decide
            · exact plain char inside
        · intro more starts
          rw [List.map_cons, List.cons_append, List.cons_prefix_cons] at starts
          exact differs more starts.2

end Names

section Hint

theorem SegmentsText.segments_ne_nil {text : List Char} {segments : List String}
    (isText : SegmentsText text segments) : segments ≠ [] := by
  cases isText with
  | last here => exact List.cons_ne_nil _ _
  | more here later => exact List.cons_ne_nil _ _

theorem BracketsText.nonempty {text : List Char} {keys : List String}
    (isText : BracketsText text keys) : keys ≠ [] ∧ text.head? = some '[' ∧ "" ∉ keys := by
  induction isText with
  | last isQuote isKey named =>
      refine ⟨List.cons_ne_nil _ _, rfl, ?_⟩
      rw [List.mem_singleton]
      exact (ofList_ne_empty named).symm
  | more isQuote isKey named later ih =>
      refine ⟨List.cons_ne_nil _ _, rfl, ?_⟩
      rw [List.mem_cons, not_or]
      exact ⟨(ofList_ne_empty named).symm, ih.2.2⟩

theorem parse_undotted {text : List Char} {names : List String} (head : text.head? ≠ some '.') :
    FieldPath.parse (String.ofList text) = .ok ⟨.record names⟩ ↔
      SegmentsText text names ∧ names.head? ≠ some metaRoot := by
  rw [FieldPath.parse_ok, String.toList_ofList]
  constructor
  · intro isText
    cases isText with
    | whole => exact absurd rfl head
    | rooted isText => exact absurd rfl head
    | bare isText notMeta => exact ⟨isText, notMeta⟩
  · rintro ⟨isText, notMeta⟩
    exact PathText.bare isText notMeta

theorem SegmentsText.unique {text : List Char} {first second : List String}
    (left : SegmentsText text first) (right : SegmentsText text second) : first = second := by
  have same := (splitSegments_ok.mpr left).symm.trans (splitSegments_ok.mpr right)
  exact Except.ok.inj same

theorem parse_segmentsText {text : List Char} {segments : List String}
    (isText : SegmentsText text segments) :
    FieldPath.parse (String.ofList text) = .ok ⟨.record segments⟩ ↔
      segments.head? ≠ some metaRoot := by
  rw [parse_undotted isText.head]
  exact and_iff_right isText

def withDot (rooted : Bool) (text : List Char) : String :=
  String.ofList (if rooted then '.' :: text else text)

theorem SlippedText.start {text : List Char} {dotted keys : List String}
    (slipped : SlippedText text dotted keys) : text ≠ [] ∧ text.head? ≠ some '.' := by
  cases slipped with
  | stray isText =>
      refine ⟨isText.nonempty, ?_⟩
      have stray {bad : List Char} (stray : Stray bad) : bad.head? ≠ some '.' := by
        intro first
        obtain ⟨rest, rfl⟩ := List.head?_eq_some_iff.mp first
        exact absurd (stray.inside '.' List.mem_cons_self) (by decide)
      cases isText with
      | last bad => exact stray bad
      | here bad isText =>
          rw [List.head?_append_of_ne_nil _ bad.nonempty]
          exact stray bad
      | later here isStray =>
          rw [List.head?_append_of_ne_nil _ here.ne_nil]
          exact here.head
  | brackets isText areKeys =>
      refine ⟨List.append_ne_nil_of_left_ne_nil isText.ne_nil _, ?_⟩
      rw [List.head?_append_of_ne_nil _ isText.ne_nil]
      exact isText.head

theorem parse_withDot {rooted : Bool} {text : List Char} (named : text ≠ [])
    (head : text.head? ≠ some '.') :
    FieldPath.parse (withDot rooted text) = FieldPath.ofText (withDot rooted text) rooted text := by
  obtain ⟨first, rest, rfl⟩ := List.exists_cons_of_ne_nil named
  have stripped : FieldPath.stripDot (withDot rooted (first :: rest)).toList =
      (first :: rest, rooted) := by
    rw [withDot, String.toList_ofList]
    cases rooted with
    | true => rfl
    | false =>
        rw [if_neg (by decide), FieldPath.stripDot]
        intro after same
        rw [same] at head
        exact head rfl
  rw [FieldPath.parse, stripped]
  exact if_neg (by simp)

theorem instead_iff {rooted : Bool} {text : List Char} {error : PathError} {instead : String}
    {meant : FieldPath} (named : text ≠ []) (head : text.head? ≠ some '.')
    (rejected : splitSegments text = .error (.error error))
    (kept : error.naming (withDot rooted text) = error) (suggests : error.instead = some instead) :
    (∃ error instead, FieldPath.parse (withDot rooted text) = .error (.error error) ∧
        error.instead = some instead ∧ FieldPath.parse instead = .ok meant) ↔
      FieldPath.parse instead = .ok meant := by
  have failed : FieldPath.parse (withDot rooted text) = .error (.error error) := by
    rw [parse_withDot named head, FieldPath.ofText, rejected]
    dsimp only
    rw [Fault.mapError, kept]
  constructor
  · rintro ⟨other, text_, again, same, parsed⟩
    obtain rfl := Fault.error.inj (Except.error.inj (failed.symm.trans again))
    obtain rfl := Option.some.inj (suggests.symm.trans same)
    exact parsed
  · intro parsed
    exact ⟨error, instead, failed, suggests, parsed⟩

theorem splitSegments_stray {text : List Char} {dotted : List String}
    (isText : StrayText text dotted) :
    ∃ segment ch instead, splitSegments text = .error (.error (.invalidSegment segment ch instead)) ∧
      SegmentsText instead.toList dotted := by
  obtain ⟨segment, ch, instead, ran, hint⟩ := @splitRounds_stray text text [] [] dotted _ isText rfl
    List.not_mem_nil (Nat.lt_succ_self _)
  refine ⟨segment, ch, instead, ?_, hint⟩
  rw [splitSegments]
  rw [Utf8.size_nil] at ran
  rw [ran]
  rfl

theorem splitSegments_bracket {text rest hint : List Char} {dotted keys : List String}
    (isText : SegmentsText text dotted) (areKeys : BracketsText rest keys)
    (isHint : unbracket (text ++ rest) = (.ok hint : Except (Fault PathError) (List Char))) :
    splitSegments (text ++ rest) = .error (.error (.bracketSyntax (String.ofList hint))) := by
  have ran := @splitRounds_bracket (text ++ rest) text rest [] [] dotted hint
    (size (text ++ rest) + 1) isText areKeys.nonempty.2.1 rfl isHint
    (by rw [Utf8.size_append]; omega)
  rw [Utf8.size_nil] at ran
  rw [splitSegments, ran]
  rfl

theorem unbracket_keys {text rest : List Char} {dotted keys : List String}
    (isText : SegmentsText text dotted) (areKeys : BracketsText rest keys)
    (plain : ∀ name ∈ dotted, ¬ Bracketed name) :
    ∃ hint, unbracket (text ++ rest) = (.ok hint : Except (Fault PathError) (List Char)) ∧
      SegmentsText hint (dotted ++ keys) := by
  obtain ⟨some_, opens, named⟩ := areKeys.nonempty
  obtain ⟨inner, same⟩ := List.head?_eq_some_iff.mp opens
  have first := unbracketRound_dotted isText.ne_nil (isText.plain_of plain)
    ⟨'[', inner, same, by decide⟩ isText.dotted
  obtain ⟨char, others, cons⟩ := List.exists_cons_of_ne_nil isText.ne_nil
  have wide := char.utf8Size_pos
  have length : size (text ++ rest) = size text + size rest := Utf8.size_append _ _
  have positive : 0 < size text := by
    rw [cons, Utf8.size_cons]
    omega
  obtain ⟨fuel, enough⟩ := Nat.exists_eq_succ_of_ne_zero (show size (text ++ rest) ≠ 0 by omega)
  have later := @unbracketRounds_keys (text ++ rest) rest text keys (dotted.map String.toList) fuel
    areKeys rfl (by omega)
  have ran : Loop.run (fun state : Unbracket => state.i < size (text ++ rest))
      (unbracketRound (text ++ rest)) (size (text ++ rest)) ⟨[], 0⟩ =
        (.ok ⟨(dotted ++ keys).map String.toList, size (text ++ rest)⟩ :
          Except (Fault PathError) Unbracket) := by
    nth_rewrite 3 [enough]
    rw [Loop.run, if_pos (decide_eq_true (show 0 < size (text ++ rest) by omega)), first,
      Except.bind, later, List.map_append]
  have printed : ((dotted ++ keys).map String.toList).map
      (fun name => displaySegment (String.ofList name)) = (dotted ++ keys).map displaySegment := by
    rw [List.map_map]
    refine List.map_congr_left fun name _ => ?_
    rw [Function.comp_apply, String.ofList_toList]
  rw [unbracket, ran, Fallible.ok_bind]
  dsimp only
  rw [printed, if_neg]
  · refine ⟨_, rfl, ?_⟩
    have whole : "" ∉ dotted ++ keys := by
      rw [List.mem_append, not_or]
      exact ⟨isText.named, named⟩
    obtain ⟨head, tail, form⟩ := List.exists_cons_of_ne_nil
      (List.append_ne_nil_of_left_ne_nil isText.segments_ne_nil keys)
    rw [form] at whole ⊢
    exact segmentsText_display whole
  · intro alone
    have count := congrArg List.length alone
    have front := List.length_pos_iff.mpr isText.segments_ne_nil
    have back := List.length_pos_iff.mpr some_
    rw [List.length_map, List.length_append, List.length_singleton] at count
    omega

/-- The hint never names the segments meant when the scan has cut one of them at a bracket. -/
theorem unbracket_cut {text rest : List Char} {dotted keys : List String}
    (isText : SegmentsText text dotted) (cut : ∃ name ∈ dotted, Bracketed name) :
    ∃ hint, unbracket (text ++ rest) = (.ok hint : Except (Fault PathError) (List Char)) ∧
      hint.head? ≠ some '.' ∧ ¬ SegmentsText hint (dotted ++ keys) := by
  obtain ⟨part, back, pieces, rfl, named, _, plain, ⟨bracket, after, rfl, opens⟩, cut_, differs⟩ :=
    isText.cut cut
  obtain ⟨final, ran, begins⟩ := @unbracket_begins (part ++ bracket :: after ++ rest) part
    (bracket :: (after ++ rest)) pieces (by simp) named plain ⟨bracket, _, rfl, opens⟩ cut_
  have total := @sliced_unbracket PathError (fun _ => True) (part ++ bracket :: after ++ rest)
  cases result : unbracket (part ++ bracket :: after ++ rest) with
  | error fault => exact absurd trivial (total.error result)
  | ok hint =>
      refine ⟨hint, rfl, ?_⟩
      have some_ : final.segments ≠ [] := by
        rintro empty
        rw [empty, List.prefix_nil] at begins
        rw [begins] at differs
        exact differs [] List.nil_prefix
      obtain ⟨names, shown, dotted_, head⟩ := hint_dotted some_ ran result
      refine ⟨head, ?_⟩
      intro right
      rw [dotted_.unique right.dotted, List.map_append] at shown
      exact differs _ (begins.trans shown)

/-- A path text with one mistake is rejected, and the suggestion names the path meant exactly when
that path is not a record path into `meta` and, before brackets, no segment holds a bracket. -/
theorem instead_names {rooted : Bool} {text : List Char} {dotted keys : List String}
    (slipped : SlippedText text dotted keys)
    (notMeta : rooted = false → dotted.head? ≠ some metaRoot) :
    (∃ error instead, FieldPath.parse (withDot rooted text) = .error (.error error) ∧
        error.instead = some instead ∧ FieldPath.parse instead = .ok ⟨.record (dotted ++ keys)⟩) ↔
      (rooted = true → dotted.head? ≠ some metaRoot) ∧
        (keys ≠ [] → ∀ name ∈ dotted, ¬ Bracketed name) := by
  obtain ⟨named, head⟩ := slipped.start
  have first : (rooted = true → dotted.head? ≠ some metaRoot) ↔ dotted.head? ≠ some metaRoot := by
    cases rooted with
    | true => exact ⟨fun other => other rfl, fun other _ => other⟩
    | false => exact ⟨fun _ => notMeta rfl, fun other _ => other⟩
  rw [first]
  cases slipped with
  | stray isText =>
      obtain ⟨segment, ch, instead, rejected, hint⟩ := splitSegments_stray isText
      rw [instead_iff named head rejected rfl rfl, List.append_nil]
      have read := parse_segmentsText hint
      rw [String.ofList_toList] at read
      rw [read]
      exact (and_iff_left fun some_ => absurd rfl some_).symm
  | @brackets text rest dotted keys isText areKeys =>
      obtain ⟨some_, _, _⟩ := areKeys.nonempty
      have headed : (dotted ++ keys).head? = dotted.head? :=
        List.head?_append_of_ne_nil _ isText.segments_ne_nil
      by_cases plain : ∀ name ∈ dotted, ¬ Bracketed name
      · obtain ⟨hint, isHint, hintText⟩ := unbracket_keys isText areKeys plain
        have rejected := splitSegments_bracket isText areKeys isHint
        rw [instead_iff named head rejected rfl rfl, parse_segmentsText hintText, headed]
        exact (and_iff_left fun _ => plain).symm
      · have cut : ∃ name ∈ dotted, Bracketed name := by
          simpa only [not_forall, Classical.not_not, exists_prop] using plain
        obtain ⟨hint, isHint, hintHead, wrong⟩ := @unbracket_cut text rest dotted keys isText cut
        have rejected := splitSegments_bracket isText areKeys isHint
        rw [instead_iff named head rejected rfl rfl, parse_undotted hintHead]
        constructor
        · rintro ⟨right, _⟩
          exact absurd right wrong
        · rintro ⟨_, all⟩
          exact absurd (all some_) plain

theorem KeyText.plain_text {quote : Char} {body : List Char}
    (plain : ∀ char ∈ body, char ≠ quote ∧ char ≠ '\\') : KeyText quote body body := by
  induction body with
  | nil => exact KeyText.nil
  | cons char body ih =>
      rw [List.forall_mem_cons] at plain
      exact KeyText.plain plain.1.1 plain.1.2 (ih plain.2)

theorem instead_names_key :
    ∃ error instead, FieldPath.parse (withDot true "attributes[\"http status\"]".toList) =
        .error (.error error) ∧
      error.instead = some instead ∧
        FieldPath.parse instead = .ok ⟨.record (["attributes"] ++ ["http status"])⟩ := by
  have field : SegmentsText "attributes".toList ["attributes"] :=
    SegmentsText.last (@SegmentText.bare "attributes".toList (by decide) (by decide))
  have key : BracketsText "[\"http status\"]".toList ["http status"] :=
    @BracketsText.last '"' _ "http status".toList (.inl rfl) (KeyText.plain_text (by decide)) (by decide)
  refine (@instead_names true _ _ _ (SlippedText.brackets field key) (nomatch ·)).mpr ⟨?_, ?_⟩
  · decide
  · rintro _ name member ⟨char, inside, isBracket_⟩
    obtain rfl := List.mem_singleton.mp member
    have plain : ∀ char ∈ "attributes".toList, isBracket char = false := by decide
    rw [plain char inside] at isBracket_
    cases isBracket_

/-- A payload key spelled `meta`, and a quoted segment with a bracket: the suggestions name other
paths. -/
theorem instead_names_other :
    (SlippedText "meta[\"id\"]".toList ["meta"] ["id"] ∧
      FieldPath.parse ".meta[\"id\"]" = .error (.error (.bracketSyntax "meta.id")) ∧
      FieldPath.parse "meta.id" = .ok ⟨.meta_ .id⟩) ∧
    SlippedText "\"a[b\"[\"c\"]".toList ["a[b"] ["c"] ∧
      FieldPath.parse "\"a[b\"[\"c\"]" =
        .error (.error (.bracketSyntax "a.\"b\\\"[\\\"c\\\"]\"")) ∧
      FieldPath.parse "a.\"b\\\"[\\\"c\\\"]\"" = .ok ⟨.record ["a", "b\"[\"c\"]"]⟩ := by
  have key (name : List Char) (named : name ≠ []) (plain : ∀ char ∈ name, char ≠ '"' ∧ char ≠ '\\') :
      BracketsText ('[' :: '"' :: (name ++ ['"', ']'])) [String.ofList name] :=
    BracketsText.last (.inl rfl) (KeyText.plain_text plain) named
  have meta_ : SegmentsText "meta".toList ["meta"] :=
    SegmentsText.last (@SegmentText.bare "meta".toList (by decide) (by decide))
  have quoted : SegmentsText "\"a[b\"".toList ["a[b"] := by
    refine SegmentsText.last (@SegmentText.quoted "a[b".toList "a[b".toList ?_ (by decide))
    exact Escaped.plain (by decide) (by decide) (Escaped.plain (by decide) (by decide)
      (Escaped.plain (by decide) (by decide) Escaped.nil))
  refine ⟨⟨?_, by decide +kernel, by decide +kernel⟩, ?_, by decide +kernel, by decide +kernel⟩
  · exact SlippedText.brackets meta_ (key ['i', 'd'] (by decide) (by decide))
  · exact SlippedText.brackets quoted (key ['c'] (by decide) (by decide))

end Hint

end FusionPipeline
