import FusionPipeline.Library.Languages
import FusionPipeline.RegexLint

/-!
What the lint's analyses say about the texts a syntax tree matches. An assertion is read as one that
holds. Flags are not read: what is said of the texts is said of trees that set none.
-/

namespace FusionPipeline.Lint

open Languages

section Meaning

variable {Leaf : Type} (accepts : Leaf → Char → Prop)

mutual

def texts : Ast Leaf → Language Char
  | .empty _ | .flags _ | .assertion _ => 1
  | .leaf _ leaf => {text | ∃ char, text = [char] ∧ accepts leaf char}
  | .group _ _ ast => texts ast
  | .repetition _ kind ast =>
      times (texts ast) (minOf kind).toNat ((maxOf kind).map UInt32.toNat)
  | .alternation _ asts => textsOfAny asts
  | .concat _ asts => textsOfAll asts

def textsOfAny : List (Ast Leaf) → Language Char
  | [] => 0
  | ast :: asts => texts ast + textsOfAny asts

def textsOfAll : List (Ast Leaf) → Language Char
  | [] => 1
  | ast :: asts => texts ast * textsOfAll asts

end

mutual

def setsFlags : Ast Leaf → Bool
  | .empty _ | .assertion _ | .leaf _ _ => false
  | .flags _ => true
  | .group _ flagged ast => flagged || setsFlags ast
  | .repetition _ _ ast => setsFlags ast
  | .alternation _ asts => anySetsFlags asts
  | .concat _ asts => anySetsFlags asts

def anySetsFlags : List (Ast Leaf) → Bool
  | [] => false
  | ast :: asts => setsFlags ast || anySetsFlags asts

end

variable {accepts}

theorem mem_textsOfAny {asts : List (Ast Leaf)} {text : List Char} :
    text ∈ textsOfAny accepts asts ↔ ∃ ast ∈ asts, text ∈ texts accepts ast := by
  induction asts with
  | nil => simp [textsOfAny]
  | cons ast asts ih =>
      rw [textsOfAny, Language.mem_add, ih]
      simp

inductive PartOf (part : Ast Leaf) : Ast Leaf → Prop where
  | self : PartOf part part
  | repetition {start : Nat} {kind : RepetitionKind} {ast : Ast Leaf} (below : PartOf part ast) :
      PartOf part (.repetition start kind ast)
  | group {start : Nat} {flagged : Bool} {ast : Ast Leaf} (below : PartOf part ast) :
      PartOf part (.group start flagged ast)
  | alternation {start : Nat} {ast : Ast Leaf} {asts : List (Ast Leaf)} (among : ast ∈ asts)
      (below : PartOf part ast) : PartOf part (.alternation start asts)
  | concat {start : Nat} {ast : Ast Leaf} {asts : List (Ast Leaf)} (among : ast ∈ asts)
      (below : PartOf part ast) : PartOf part (.concat start asts)

end Meaning

section Findings

variable {Leaf Class : Type} {walker : Walker Leaf Class}

def Walker.check (walker : Walker Leaf Class) : Ast Leaf → List RedosRisk
  | .repetition start kind body => walker.checkRepetition start kind body
  | .concat _ asts => walker.checkOverlappingSuffixes asts
  | _ => []

mutual

theorem mem_walk (ast : Ast Leaf) (risk : RedosRisk) :
    risk ∈ walker.walk ast ↔ ∃ part, PartOf part ast ∧ risk ∈ walker.check part := by
  match ast with
  | .empty _ | .flags _ | .assertion _ | .leaf _ _ =>
      rw [Walker.walk]
      simp only [List.not_mem_nil, false_iff, not_exists, not_and]
      rintro part ⟨⟩ found
      cases found
  | .group start _ ast =>
      rw [Walker.walk, mem_walk ast risk]
      constructor
      · rintro ⟨part, below, found⟩
        exact ⟨part, .group below, found⟩
      · rintro ⟨part, _ | _ | below, found⟩
        · cases found
        · exact ⟨part, below, found⟩
  | .repetition start kind body =>
      rw [Walker.walk, List.mem_append, mem_walk body risk]
      constructor
      · rintro (found | ⟨part, below, found⟩)
        · exact ⟨_, .self, found⟩
        · exact ⟨part, .repetition below, found⟩
      · rintro ⟨part, _ | below, found⟩
        · exact Or.inl found
        · exact Or.inr ⟨part, below, found⟩
  | .alternation start asts =>
      rw [Walker.walk, mem_walkAll asts risk]
      constructor
      · rintro ⟨ast, among, part, below, found⟩
        exact ⟨part, .alternation among below, found⟩
      · rintro ⟨part, below, found⟩
        cases below with
        | self => cases found
        | alternation among below => exact ⟨_, among, part, below, found⟩
  | .concat start asts =>
      rw [Walker.walk, List.mem_append, mem_walkAll asts risk]
      constructor
      · rintro (found | ⟨ast, among, part, below, found⟩)
        · exact ⟨_, .self, found⟩
        · exact ⟨part, .concat among below, found⟩
      · rintro ⟨part, below, found⟩
        cases below with
        | self => exact Or.inl found
        | concat among below => exact Or.inr ⟨_, among, part, below, found⟩

theorem mem_walkAll (asts : List (Ast Leaf)) (risk : RedosRisk) :
    risk ∈ walker.walkAll asts ↔
      ∃ ast ∈ asts, ∃ part, PartOf part ast ∧ risk ∈ walker.check part := by
  match asts with
  | [] => simp [Walker.walkAll]
  | ast :: asts =>
      rw [Walker.walkAll, List.mem_append, mem_walk ast risk, mem_walkAll asts risk]
      simp only [List.mem_cons, exists_eq_or_imp]

end

mutual

theorem mem_collectAlternations (ast : Ast Leaf) (branches : List (Ast Leaf)) :
    branches ∈ collectAlternations ast ↔ ∃ start, PartOf (.alternation start branches) ast := by
  match ast with
  | .empty _ | .flags _ | .assertion _ | .leaf _ _ =>
      rw [collectAlternations]
      simp only [List.not_mem_nil, false_iff, not_exists]
      rintro start ⟨⟩
  | .group start _ ast =>
      rw [collectAlternations, mem_collectAlternations ast branches]
      constructor
      · rintro ⟨first, below⟩
        exact ⟨first, .group below⟩
      · rintro ⟨first, _ | _ | below⟩
        exact ⟨first, below⟩
  | .repetition start kind body =>
      rw [collectAlternations, mem_collectAlternations body branches]
      constructor
      · rintro ⟨first, below⟩
        exact ⟨first, .repetition below⟩
      · rintro ⟨first, _ | below⟩
        exact ⟨first, below⟩
  | .alternation start asts =>
      rw [collectAlternations, List.mem_cons, mem_collectAllAlternations asts branches]
      constructor
      · rintro (rfl | ⟨ast, among, first, below⟩)
        · exact ⟨start, .self⟩
        · exact ⟨first, .alternation among below⟩
      · rintro ⟨first, below⟩
        cases below with
        | self => exact Or.inl rfl
        | alternation among below => exact Or.inr ⟨_, among, first, below⟩
  | .concat start asts =>
      rw [collectAlternations, mem_collectAllAlternations asts branches]
      constructor
      · rintro ⟨ast, among, first, below⟩
        exact ⟨first, .concat among below⟩
      · rintro ⟨first, below⟩
        cases below with
        | concat among below => exact ⟨_, among, first, below⟩

theorem mem_collectAllAlternations (asts : List (Ast Leaf)) (branches : List (Ast Leaf)) :
    branches ∈ collectAllAlternations asts ↔
      ∃ ast ∈ asts, ∃ start, PartOf (.alternation start branches) ast := by
  match asts with
  | [] => simp [collectAllAlternations]
  | ast :: asts =>
      rw [collectAllAlternations, List.mem_append, mem_collectAlternations ast branches,
        mem_collectAllAlternations asts branches]
      simp only [List.mem_cons, exists_eq_or_imp]

end

end Findings

end FusionPipeline.Lint
