import Mathlib.Data.Char
import FusionPipeline.Library.Fallible
import FusionPipeline.LintFindings

/-! What the lint promises of a pattern, for any parser whose trees and classes mean what they say. -/

namespace FusionPipeline.Lint

open Canary (Hir)
open Languages
open Regex (Desugared Panic parseWithFallback)

section Ranges

def rangeClasses : Classes (List (Char × Char)) where
  empty := []
  union first second := first ++ second
  intersect first second :=
    first.flatMap fun one => second.map fun other => (max one.1 other.1, min one.2 other.2)
  isEmpty ranges := ranges.all fun range => range.2 < range.1
  ofRanges ranges := ranges

theorem inRanges_union (first second : List (Char × Char)) (char : Char) :
    InRanges (rangeClasses.union first second) char ↔ InRanges first char ∨ InRanges second char := by
  simp only [InRanges, rangeClasses, List.mem_append, or_and_right, exists_or]

theorem inRanges_intersect (first second : List (Char × Char)) (char : Char) :
    InRanges (rangeClasses.intersect first second) char ↔ InRanges first char ∧ InRanges second char := by
  constructor
  · rintro ⟨range, among, low, high⟩
    obtain ⟨one, inFirst, made⟩ := List.mem_flatMap.mp among
    obtain ⟨other, inSecond, rfl⟩ := List.mem_map.mp made
    obtain ⟨lowOne, lowOther⟩ := max_le_iff.mp low
    obtain ⟨highOne, highOther⟩ := le_min_iff.mp high
    exact ⟨⟨one, inFirst, lowOne, highOne⟩, ⟨other, inSecond, lowOther, highOther⟩⟩
  · rintro ⟨⟨one, inFirst, lowOne, highOne⟩, ⟨other, inSecond, lowOther, highOther⟩⟩
    refine ⟨(max one.1 other.1, min one.2 other.2), ?_, max_le lowOne lowOther,
      le_min highOne highOther⟩
    exact List.mem_flatMap.mpr ⟨one, inFirst, List.mem_map.mpr ⟨other, inSecond, rfl⟩⟩

theorem isEmpty_rangeClasses (ranges : List (Char × Char)) :
    rangeClasses.isEmpty ranges = true ↔ ∀ char, ¬ InRanges ranges char := by
  simp only [rangeClasses, List.all_eq_true, decide_eq_true_eq]
  constructor
  · rintro empty char ⟨range, among, low, high⟩
    exact absurd (low.trans high) (empty range among).not_ge
  · intro none_ range among
    rw [← not_le]
    exact fun order => none_ range.1 ⟨range, among, le_rfl, order⟩

theorem rangeClasses_faithful : Faithful rangeClasses InRanges where
  mem_empty char := by simp [rangeClasses, InRanges]
  mem_union := inRanges_union
  mem_intersect := inRanges_intersect
  isEmpty_iff := isEmpty_rangeClasses
  mem_ofRanges _ _ := Iff.rfl

end Ranges

section Plain

variable {Leaf Class : Type}

inductive OneOf (fromUtf8Lossy : List UInt8 → String) : Hir → (Char → Prop) → Prop where
  | literal {bytes : List UInt8} {char : Char} (decoded : (fromUtf8Lossy bytes).toList = [char]) :
      OneOf fromUtf8Lossy (.literal bytes) (· = char)
  | unicodeClass (ranges : List (Char × Char)) :
      OneOf fromUtf8Lossy (.unicodeClass ranges) (InRanges ranges)
  | bytesClass (ranges : List (UInt8 × UInt8)) :
      OneOf fromUtf8Lossy (.bytesClass ranges) (InRanges (ranges.map fun range =>
        (Char.ofNat range.1.toNat, Char.ofNat range.2.toNat)))

/-- A tree that sets no flags and whose leaves each translate to the tree of the characters they
accept. -/
structure Plain (reader : Syntax Leaf Class) (accepts : Leaf → Char → Prop) (source : Desugared)
    (ast : Ast Leaf) : Prop where
  unflagged : setsFlags ast = false
  translates : ∀ start leaf, PartOf (.leaf start leaf) ast →
    ∃ hir, reader.translate source.text leaf = some hir ∧ OneOf reader.fromUtf8Lossy hir (accepts leaf)

variable {reader : Syntax Leaf Class} {accepts : Leaf → Char → Prop} {mem : Class → Char → Prop}

theorem Plain.reads {source : Desugared} {ast : Ast Leaf} (plain : Plain reader accepts source ast)
    (faithful : Faithful reader.classes mem) : Reads (reader.walker source) accepts mem ast := by
  intro start leaf below
  obtain ⟨hir, translated, one⟩ := plain.translates start leaf below
  have same : (reader.walker source).translate leaf = some hir := translated
  rw [Walker.leafClasses, same]
  generalize accepts leaf = accepted at one
  cases one with
  | @literal bytes only decoded =>
      have row : ((reader.walker source).fromUtf8Lossy bytes).toList = [only] := decoded
      refine ⟨reader.classes.ofRanges [(only, only)], ?_, ?_⟩
      · simp only [Walker.hirClasses, row, List.map_cons, List.map_nil]
        rfl
      · intro char
        rw [faithful.mem_ofRanges, InRanges]
        simp only [List.mem_singleton, exists_eq_left]
        exact ⟨fun within => le_antisymm within.2 within.1, fun alike => ⟨alike.ge, alike.le⟩⟩
  | unicodeClass ranges => exact ⟨_, rfl, faithful.mem_ofRanges _⟩
  | bytesClass ranges => exact ⟨_, rfl, faithful.mem_ofRanges _⟩

theorem lint_walk {pattern : String} {risks : List RedosRisk}
    (linted : lint reader pattern = .ok (some risks)) :
    ∃ ast source, parseWithFallback reader.parse pattern = .ok (some (ast, source)) ∧
      risks = (reader.walker source).walk ast := by
  obtain ⟨parsed, found, mapped⟩ := Fallible.map_ok_iff.mp linted
  obtain ⟨⟨ast, source⟩, rfl, walked⟩ := Option.map_eq_some_iff.mp mapped
  exact ⟨ast, source, found, walked.symm⟩

theorem lint_parsed {pattern : String} {ast : Ast Leaf} {source : Desugared} {risks : List RedosRisk}
    (parsed : parseWithFallback reader.parse pattern = .ok (some (ast, source)))
    (linted : lint reader pattern = .ok (some risks)) : risks = (reader.walker source).walk ast := by
  rw [lint, parsed] at linted
  exact (Option.some.inj (Except.ok.inj linted)).symm

end Plain

section Bracketed

/-- A reader that knows one text, whose leaves are classes in brackets. -/
def bracketed (text : String) (tree : Ast (List (Char × Char))) :
    Syntax (List (Char × Char)) (List (Char × Char)) where
  parse bytes := if bytes = Utf8.bytes text then some tree else none
  classes := rangeClasses
  fromUtf8Lossy bytes := String.ofList (bytes.map fun byte => Char.ofNat byte.toNat)
  translate _ ranges := some (.unicodeClass ranges)

theorem bracketed_plain {text : String} {tree : Ast (List (Char × Char))}
    (unflagged : setsFlags tree = false) (source : Desugared) :
    Plain (bracketed text tree) InRanges source tree where
  unflagged := unflagged
  translates _ ranges _ := ⟨_, rfl, .unicodeClass ranges⟩

def starInPlus : Ast (List (Char × Char)) :=
  .repetition 0 .oneOrMore (.group 0 false (.repetition 1 .zeroOrMore (.leaf 1 [('a', 'b')])))

def eitherStar : Ast (List (Char × Char)) :=
  .repetition 0 .zeroOrMore (.group 0 false (.alternation 1
    [.leaf 1 [('a', 'b')], .concat 6 [.leaf 6 [('c', 'd')], .leaf 10 [('a', 'd')]]]))

def twoStars : Ast (List (Char × Char)) :=
  .concat 0 [.repetition 0 .zeroOrMore (.leaf 0 [('a', 'b')]),
    .repetition 5 .oneOrMore (.leaf 5 [('b', 'c')])]

end Bracketed

section Guarantees

variable {Leaf Class : Type} {reader : Syntax Leaf Class} {accepts : Leaf → Char → Prop}
  {mem : Class → Char → Prop}

/-- Each nested repetition is reported, at its own byte of the pattern; without one, the body of an
unbounded repetition has no texts past some length. -/
theorem lint_nested {pattern : String} {risks : List RedosRisk}
    (linted : lint reader pattern = .ok (some risks)) :
    ∃ ast source, parseWithFallback reader.parse pattern = .ok (some (ast, source)) ∧
      (∀ offset, .nestedQuantifiers offset ∈ risks ↔ ∃ start kind body,
        PartOf (.repetition start kind body) ast ∧ isUnbounded kind = true ∧
          (∃ inner innerKind innerBody, PartOf (.repetition inner innerKind innerBody) body ∧
            isVariable innerKind = true) ∧
          offset = source.offsets[start]?.getD start) ∧
      ((∀ offset, .nestedQuantifiers offset ∉ risks) → ∀ start kind body,
        PartOf (.repetition start kind body) ast → isUnbounded kind = true →
          Bounded (texts accepts body)) := by
  obtain ⟨ast, source, parsed, rfl⟩ := lint_walk linted
  refine ⟨ast, source, parsed, ?_, ?_⟩
  · intro offset
    simp only [nested_iff, containsVariableRepetition_iff]
    rfl
  · intro silent start kind body below unbounded
    apply bounded_of_fixed
    rw [Bool.eq_false_iff]
    intro variable_
    exact silent _ ((nested_iff ast _).mpr ⟨start, kind, body, below, unbounded, variable_, rfl⟩)

theorem lint_nested_star :
    ∃ ast source, parseWithFallback (bracketed "([ab]*)+" starInPlus).parse "([ab]*)+" =
        .ok (some (ast, source)) ∧
      ∃ start kind body, PartOf (.repetition start kind body) ast ∧ isUnbounded kind = true ∧
        0 = source.offsets[start]?.getD start := by
  have linted : lint (bracketed "([ab]*)+" starInPlus) "([ab]*)+" =
      .ok (some [.nestedQuantifiers 0]) := by decide
  obtain ⟨ast, source, parsed, reported, _⟩ := @lint_nested _ _ _ InRanges _ _ linted
  obtain ⟨start, kind, body, below, unbounded, _, place⟩ := (reported 0).mp (List.mem_singleton_self _)
  exact ⟨ast, source, parsed, start, kind, body, below, unbounded, place⟩

/-- No text of the loop over the branches starts with two of them, and where each branch has one
length a text is taken apart in one way only. -/
def Unambiguous (accepts : Leaf → Char → Prop) (branches : List (Ast Leaf)) : Prop :=
  (∀ i j : Fin branches.length, i ≠ j →
    Apart (branching (branch accepts branches) i) (branching (branch accepts branches) j)) ∧
  ∀ width : Fin branches.length → Nat,
    (∀ i, ∀ word ∈ branch accepts branches i, word.length = width i) →
    ∀ pieces others : List (Fin branches.length × List Char),
      (∀ piece ∈ pieces, piece.2 ∈ branch accepts branches piece.1 ∧ piece.2 ≠ []) →
      (∀ piece ∈ others, piece.2 ∈ branch accepts branches piece.1 ∧ piece.2 ≠ []) →
      (pieces.map Prod.snd).flatten = (others.map Prod.snd).flatten → pieces = others

theorem unambiguous_of_quiet {walker : Walker Leaf Class} (faithful : Faithful walker.classes mem)
    {branches : List (Ast Leaf)} (reads : ∀ ast ∈ branches, Reads walker accepts mem ast)
    (quiet : walker.alternationOverlaps branches = false) :
    Unambiguous accepts branches := by
  have apart (i j : Fin branches.length) (differ : i ≠ j) :
      Apart (branching (branch accepts branches) i) (branching (branch accepts branches) j) :=
    apart_of_quiet faithful reads quiet differ
  refine ⟨apart, ?_⟩
  intro width fixed pieces others valid also same
  exact factoring_unique apart fixed valid also same

theorem unambiguous_of_silent {walker : Walker Leaf Class} (faithful : Faithful walker.classes mem)
    {ast : Ast Leaf} (reads : Reads walker accepts mem ast)
    (silent : ∀ offset, .overlappingAlternation offset ∉ walker.walk ast) :
    ∀ start kind body, PartOf (.repetition start kind body) ast → isUnbounded kind = true →
      ∀ place branches, PartOf (.alternation place branches) body → Unambiguous accepts branches := by
  intro start kind body below unbounded place branches inside
  have within : PartOf (.alternation place branches) ast :=
    inside.trans ((PartOf.repetition .self).trans below)
  apply unambiguous_of_quiet faithful (reads.part within).branches
  rw [Bool.eq_false_iff]
  intro overlaps
  exact silent _ ((overlapping_iff ast _).mpr
    ⟨start, kind, body, below, unbounded, overlaps_iff.mpr ⟨place, branches, inside, overlaps⟩, rfl⟩)

/-- Where no alternation of a plain tree is reported, none in the body of an unbounded repetition is
ambiguous. -/
theorem lint_alternation (faithful : Faithful reader.classes mem) {pattern : String} {ast : Ast Leaf}
    {source : Desugared} {risks : List RedosRisk}
    (parsed : parseWithFallback reader.parse pattern = .ok (some (ast, source)))
    (plain : Plain reader accepts source ast) (linted : lint reader pattern = .ok (some risks))
    (silent : ∀ offset, .overlappingAlternation offset ∉ risks) :
    ∀ start kind body, PartOf (.repetition start kind body) ast → isUnbounded kind = true →
      ∀ place branches, PartOf (.alternation place branches) body → Unambiguous accepts branches := by
  obtain rfl := lint_parsed parsed linted
  exact unambiguous_of_silent faithful (plain.reads faithful) silent

theorem lint_alternation_either :
    Unambiguous InRanges
      [.leaf 1 [('a', 'b')], .concat 6 [.leaf 6 [('c', 'd')], .leaf 10 [('a', 'd')]]] := by
  have linted : lint (bracketed "([ab]|[cd][a-d])*" eitherStar) "([ab]|[cd][a-d])*" =
      .ok (some []) := by decide
  have parsed : parseWithFallback (bracketed "([ab]|[cd][a-d])*" eitherStar).parse
      "([ab]|[cd][a-d])*" = .ok (some (eitherStar, _)) := rfl
  exact lint_alternation rangeClasses_faithful parsed (bracketed_plain rfl _) linted (by simp)
    0 .zeroOrMore _ .self rfl 1 _ (.group .self)

/-- A repetition of a plain tree is reported for its suffix exactly when it and the next repetition of
one class take some text apart in two ways. -/
theorem lint_suffix (faithful : Faithful reader.classes mem) {pattern : String} {ast : Ast Leaf}
    {source : Desugared} {risks : List RedosRisk}
    (parsed : parseWithFallback reader.parse pattern = .ok (some (ast, source)))
    (plain : Plain reader accepts source ast) (linted : lint reader pattern = .ok (some risks)) :
    ∀ offset, .overlappingSuffix offset ∈ risks ↔ ∃ start front item items next set,
      PartOf (.concat start (front ++ item :: items)) ast ∧
        ((reader.walker source).singleClassUnbounded item).isSome = true ∧
        Next (reader.walker source) items next set ∧
        ¬ SplitsOnce (texts accepts item) (texts accepts next) ∧
        offset = source.offsets[item.start]?.getD item.start := by
  obtain rfl := lint_parsed parsed linted
  exact suffixes_iff faithful ast (plain.reads faithful)

theorem lint_suffix_stars :
    ∃ start front item items next, PartOf (.concat start (front ++ item :: items)) twoStars ∧
      ¬ SplitsOnce (texts InRanges item) (texts InRanges next) := by
  have linted : lint (bracketed "[ab]*[bc]+" twoStars) "[ab]*[bc]+" =
      .ok (some [.overlappingSuffix 0]) := by decide
  have parsed : parseWithFallback (bracketed "[ab]*[bc]+" twoStars).parse "[ab]*[bc]+" =
      .ok (some (twoStars, _)) := rfl
  have reported := lint_suffix rangeClasses_faithful parsed (bracketed_plain rfl _) linted
  obtain ⟨start, front, item, items, next, _, below, _, _, twice, _⟩ :=
    (reported 0).mp (List.mem_singleton_self _)
  exact ⟨start, front, item, items, next, below, twice⟩

end Guarantees

end FusionPipeline.Lint
