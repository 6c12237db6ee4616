import FusionPipeline.LintSoundness

/-! What the findings of the lint, and its silence, mean for a pattern. -/

namespace FusionPipeline.Lint

open Languages

open Regex (Desugared parseWithFallback)

section Nested

variable {Leaf Class : Type} {walker : Walker Leaf Class}

mutual

theorem containsVariableRepetition_iff (ast : Ast Leaf) :
    containsVariableRepetition ast = true ↔
      ∃ start kind body, PartOf (.repetition start kind body) ast ∧ isVariable kind = true := by
  match ast with
  | .empty _ | .flags _ | .assertion _ | .leaf _ _ =>
      rw [containsVariableRepetition]
      simp only [Bool.false_eq_true, false_iff, not_exists, not_and]
      rintro start kind body ⟨⟩
  | .group _ _ ast =>
      rw [containsVariableRepetition, containsVariableRepetition_iff ast]
      constructor
      · rintro ⟨start, kind, body, below, variable_⟩
        exact ⟨start, kind, body, .group below, variable_⟩
      · rintro ⟨start, kind, body, below, variable_⟩
        cases below with
        | group below => exact ⟨start, kind, body, below, variable_⟩
  | .repetition first outer inner =>
      rw [containsVariableRepetition, Bool.or_eq_true, containsVariableRepetition_iff inner]
      constructor
      · rintro (variable_ | ⟨start, kind, body, below, variable_⟩)
        · exact ⟨first, outer, inner, .self, variable_⟩
        · exact ⟨start, kind, body, .repetition below, variable_⟩
      · rintro ⟨start, kind, body, below, variable_⟩
        cases below with
        | self => exact Or.inl variable_
        | repetition below => exact Or.inr ⟨start, kind, body, below, variable_⟩
  | .alternation _ asts =>
      rw [containsVariableRepetition, anyContainsVariableRepetition_iff asts]
      constructor
      · rintro ⟨ast, among, start, kind, body, below, variable_⟩
        exact ⟨start, kind, body, .alternation among below, variable_⟩
      · rintro ⟨start, kind, body, below, variable_⟩
        cases below with
        | alternation among below => exact ⟨_, among, start, kind, body, below, variable_⟩
  | .concat _ asts =>
      rw [containsVariableRepetition, anyContainsVariableRepetition_iff asts]
      constructor
      · rintro ⟨ast, among, start, kind, body, below, variable_⟩
        exact ⟨start, kind, body, .concat among below, variable_⟩
      · rintro ⟨start, kind, body, below, variable_⟩
        cases below with
        | concat among below => exact ⟨_, among, start, kind, body, below, variable_⟩

theorem anyContainsVariableRepetition_iff (asts : List (Ast Leaf)) :
    anyContainsVariableRepetition asts = true ↔ ∃ ast ∈ asts, ∃ start kind body,
      PartOf (.repetition start kind body) ast ∧ isVariable kind = true := by
  match asts with
  | [] => simp [anyContainsVariableRepetition]
  | ast :: asts =>
      rw [anyContainsVariableRepetition, Bool.or_eq_true, containsVariableRepetition_iff ast,
        anyContainsVariableRepetition_iff asts]
      simp only [List.mem_cons, exists_eq_or_imp]

end

theorem not_nested_of_suffixes {asts : List (Ast Leaf)} {risk : RedosRisk}
    (found : risk ∈ walker.checkOverlappingSuffixes asts) : ∃ offset, risk = .overlappingSuffix offset := by
  induction asts with
  | nil => cases found
  | cons item items ih =>
      rw [Walker.checkOverlappingSuffixes, List.mem_append] at found
      rcases found with here | later
      · split at here
        next class_ single =>
          split at here
          next => exact ⟨_, List.mem_singleton.mp here⟩
          next => cases here
        next => cases here
      · exact ih later

theorem nested_iff (ast : Ast Leaf) (offset : Nat) :
    .nestedQuantifiers offset ∈ walker.walk ast ↔
      ∃ start kind body, PartOf (.repetition start kind body) ast ∧ isUnbounded kind = true ∧
        containsVariableRepetition body = true ∧ offset = walker.originalOffset start := by
  constructor
  · intro found
    obtain ⟨part, below, found⟩ := (mem_walk ast _).mp found
    cases part with
    | repetition start kind body =>
        rw [Walker.check, Walker.checkRepetition] at found
        split at found
        next unbounded =>
          refine ⟨start, kind, body, below, unbounded, ?_⟩
          rcases List.mem_append.mp found with here | other
          · split at here
            next variable_ => exact ⟨variable_, RedosRisk.nestedQuantifiers.inj (List.mem_singleton.mp here)⟩
            next => cases here
          · split at other
            next => cases List.mem_singleton.mp other
            next => cases other
        next => cases found
    | concat start asts =>
        obtain ⟨_, other⟩ := not_nested_of_suffixes found
        cases other
    | _ => cases found
  · rintro ⟨start, kind, body, below, unbounded, variable_, rfl⟩
    refine (mem_walk ast _).mpr ⟨_, below, ?_⟩
    rw [Walker.check, Walker.checkRepetition, if_pos unbounded]
    dsimp only
    rw [if_pos variable_]
    exact List.mem_append_left _ (List.mem_singleton_self _)

theorem overlapping_iff (ast : Ast Leaf) (offset : Nat) :
    .overlappingAlternation offset ∈ walker.walk ast ↔
      ∃ start kind body, PartOf (.repetition start kind body) ast ∧ isUnbounded kind = true ∧
        walker.hasOverlappingAlternation body = true ∧ offset = walker.originalOffset start := by
  constructor
  · intro found
    obtain ⟨part, below, found⟩ := (mem_walk ast _).mp found
    cases part with
    | repetition start kind body =>
        rw [Walker.check, Walker.checkRepetition] at found
        split at found
        next unbounded =>
          refine ⟨start, kind, body, below, unbounded, ?_⟩
          rcases List.mem_append.mp found with other | here
          · split at other
            next => cases List.mem_singleton.mp other
            next => cases other
          · split at here
            next overlaps =>
              exact ⟨overlaps, RedosRisk.overlappingAlternation.inj (List.mem_singleton.mp here)⟩
            next => cases here
        next => cases found
    | concat start asts =>
        obtain ⟨_, other⟩ := not_nested_of_suffixes found
        cases other
    | _ => cases found
  · rintro ⟨start, kind, body, below, unbounded, overlaps, rfl⟩
    refine (mem_walk ast _).mpr ⟨_, below, ?_⟩
    rw [Walker.check, Walker.checkRepetition, if_pos unbounded]
    dsimp only
    rw [if_pos overlaps]
    exact List.mem_append_right _ (List.mem_singleton_self _)

theorem overlaps_iff {body : Ast Leaf} : walker.hasOverlappingAlternation body = true ↔
    ∃ start branches, PartOf (.alternation start branches) body ∧
      walker.alternationOverlaps branches = true := by
  rw [Walker.hasOverlappingAlternation, List.any_eq_true]
  constructor
  · rintro ⟨branches, among, overlaps⟩
    obtain ⟨start, below⟩ := (mem_collectAlternations body branches).mp among
    exact ⟨start, branches, below, overlaps⟩
  · rintro ⟨start, branches, below, overlaps⟩
    exact ⟨branches, (mem_collectAlternations body branches).mpr ⟨start, below⟩, overlaps⟩

end Nested

section Suffixes

variable {Leaf Class : Type} {accepts : Leaf → Char → Prop} {walker : Walker Leaf Class}
  {mem : Class → Char → Prop}

theorem texts_unwrapGroups (ast : Ast Leaf) :
    texts accepts (unwrapGroups ast) = texts accepts ast := by
  induction ast using unwrapGroups.induct with
  | case1 start flagged ast ih =>
      rw [unwrapGroups, ih]
      rfl
  | case2 start ast ih =>
      rw [unwrapGroups, ih, texts, textsOfAll, textsOfAll, mul_one]
  | case3 other notGroup notSingle =>
      rw [unwrapGroups]
      · exact notGroup
      · exact notSingle

theorem partOf_unwrapGroups (ast : Ast Leaf) : PartOf (unwrapGroups ast) ast := by
  induction ast using unwrapGroups.induct with
  | case1 start flagged ast ih =>
      rw [unwrapGroups]
      exact .group ih
  | case2 start ast ih =>
      rw [unwrapGroups]
      exact .concat (List.mem_singleton_self ast) ih
  | case3 other notGroup notSingle =>
      rw [unwrapGroups]
      · exact .self
      · exact notGroup
      · exact notSingle

def Next (walker : Walker Leaf Class) (items : List (Ast Leaf)) (next : Ast Leaf) (set : Class) :
    Prop :=
  ∃ between rest, items = between ++ next :: rest ∧ walker.singleClassUnbounded next = some set ∧
    ∀ item ∈ between, walker.singleClassUnbounded item = none ∧ nullable item = true

theorem suffixOverlaps_iff {class_ : Class} {items : List (Ast Leaf)} :
    walker.suffixOverlaps class_ items = true ↔
      ∃ next set, Next walker items next set ∧ walker.classes.intersectionIsEmpty class_ set = false := by
  induction items with
  | nil =>
      rw [Walker.suffixOverlaps]
      simp only [Bool.false_eq_true, false_iff, not_exists, not_and]
      rintro next set ⟨between, rest, whole, _⟩
      cases between <;> cases whole
  | cons item items ih =>
      rw [Walker.suffixOverlaps]
      cases single : walker.singleClassUnbounded item with
      | some found =>
          simp only [Bool.not_eq_true']
          constructor
          · intro overlaps
            exact ⟨item, found, ⟨[], items, rfl, single, by simp⟩, overlaps⟩
          · rintro ⟨next, set, ⟨between, rest, whole, isNext, empties⟩, overlaps⟩
            cases between with
            | nil =>
                obtain ⟨rfl, rfl⟩ := List.cons.inj whole
                obtain rfl := Option.some.inj (single.symm.trans isNext)
                exact overlaps
            | cons first between =>
                obtain ⟨rfl, _⟩ := List.cons.inj whole
                rw [(empties item List.mem_cons_self).1] at single
                cases single
      | none =>
          simp only [Bool.and_eq_true, ih]
          constructor
          · rintro ⟨empty, next, set, ⟨between, rest, rfl, isNext, empties⟩, overlaps⟩
            refine ⟨next, set, ⟨item :: between, rest, rfl, isNext, ?_⟩, overlaps⟩
            rw [List.forall_mem_cons]
            exact ⟨⟨single, empty⟩, empties⟩
          · rintro ⟨next, set, ⟨between, rest, whole, isNext, empties⟩, overlaps⟩
            cases between with
            | nil =>
                obtain ⟨rfl, rfl⟩ := List.cons.inj whole
                rw [single] at isNext
                cases isNext
            | cons first between =>
                obtain ⟨rfl, rfl⟩ := List.cons.inj whole
                rw [List.forall_mem_cons] at empties
                exact ⟨empties.1.2, next, set, ⟨between, rest, rfl, isNext, empties.2⟩, overlaps⟩

theorem checkOverlappingSuffixes_iff {asts : List (Ast Leaf)} {offset : Nat} :
    .overlappingSuffix offset ∈ walker.checkOverlappingSuffixes asts ↔
      ∃ front item items class_, asts = front ++ item :: items ∧
        walker.singleClassUnbounded item = some class_ ∧ walker.suffixOverlaps class_ items = true ∧
        offset = walker.originalOffset item.start := by
  induction asts with
  | nil => simp [Walker.checkOverlappingSuffixes]
  | cons first asts ih =>
      rw [Walker.checkOverlappingSuffixes]
      constructor
      · intro found
        rcases List.mem_append.mp found with here | later
        · split at here
          next class_ single =>
            split at here
            next overlaps =>
              exact ⟨[], first, asts, class_, rfl, single, overlaps,
                RedosRisk.overlappingSuffix.inj (List.mem_singleton.mp here)⟩
            next => cases here
          next => cases here
        · obtain ⟨front, item, items, class_, rfl, single, overlaps, same⟩ := ih.mp later
          exact ⟨first :: front, item, items, class_, rfl, single, overlaps, same⟩
      · rintro ⟨front, item, items, class_, whole, single, overlaps, rfl⟩
        cases front with
        | nil =>
            obtain ⟨rfl, rfl⟩ := List.cons.inj whole
            refine List.mem_append_left _ ?_
            rw [single]
            simp only [overlaps, ↓reduceIte, List.mem_singleton]
        | cons other front =>
            obtain ⟨rfl, rfl⟩ := List.cons.inj whole
            exact List.mem_append_right _ (ih.mpr ⟨front, item, items, class_, rfl, single, overlaps, rfl⟩)

theorem texts_of_single {ast : Ast Leaf} (reads : Reads walker accepts mem ast) {class_ : Class}
    (single : walker.singleClassUnbounded ast = some class_) :
    ∃ low, ∀ text, text ∈ texts accepts ast ↔
      low ≤ text.length ∧ ∀ char ∈ text, mem class_ char := by
  rw [Walker.singleClassUnbounded] at single
  split at single
  next start kind body unwrapped =>
    split at single
    next fixed =>
      simp only [Bool.and_eq_true, beq_iff_eq] at fixed
      obtain ⟨⟨unbounded, exact_⟩, one⟩ := fixed
      obtain ⟨set, row⟩ := List.length_eq_one_iff.mp one
      rw [row] at single
      obtain rfl : set = class_ := Option.some.inj single
      have inBody : Reads walker accepts mem body := by
        apply reads.part
        exact (PartOf.repetition .self).trans (unwrapped ▸ partOf_unwrapGroups ast)
      have letter {word : List Char} : word ∈ texts accepts body ↔
          ∃ char, word = [char] ∧ mem set char := by
        constructor
        · intro member
          obtain ⟨front, rest, rfl, fits, whole⟩ := starts_shape body inBody member
          obtain rfl := whole exact_
          rw [row] at fits
          cases fits with
          | cons belongs fits =>
              cases fits
              exact ⟨_, rfl, belongs⟩
        · rintro ⟨char, rfl, belongs⟩
          apply texts_of_fits body inBody exact_
          rw [row]
          exact .cons belongs .nil
      refine ⟨(minOf kind).toNat, ?_⟩
      intro text
      rw [← texts_unwrapGroups, unwrapped, texts, Option.isNone_iff_eq_none.mp unbounded, mem_times]
      constructor
      · rintro ⟨words, rfl, atLeast, _, inside⟩
        have long : words.flatten.length = words.length := by
          refine length_flatten_of_letters fun word among => ?_
          obtain ⟨_, rfl, _⟩ := letter.mp (inside word among)
          exact List.length_singleton
        refine ⟨long ▸ atLeast, ?_⟩
        intro char among
        obtain ⟨word, member, here⟩ := List.mem_flatten.mp among
        obtain ⟨other, rfl, belongs⟩ := letter.mp (inside word member)
        rwa [List.mem_singleton.mp here]
      · rintro ⟨atLeast, belong⟩
        refine ⟨text.map fun char => [char], ?_, ?_, ?_, ?_⟩
        · rw [← List.flatMap_def, List.flatMap_singleton']
        · rwa [List.length_map]
        · rintro most ⟨⟩
        · intro word member
          obtain ⟨char, among, rfl⟩ := List.mem_map.mp member
          exact letter.mpr ⟨char, rfl, belong char among⟩
    next => cases single
  next => cases single

/-- Two such repetitions in a row split a text in one way only, unless they share a character. -/
theorem splitsOnce_iff (faithful : Faithful walker.classes mem) {item next : Ast Leaf}
    (reads : Reads walker accepts mem item) (alsoReads : Reads walker accepts mem next)
    {class_ set : Class}
    (single : walker.singleClassUnbounded item = some class_)
    (also : walker.singleClassUnbounded next = some set) :
    SplitsOnce (texts accepts item) (texts accepts next) ↔
      walker.classes.intersectionIsEmpty class_ set = true := by
  obtain ⟨low, texts_⟩ := texts_of_single reads single
  obtain ⟨least, nextTexts⟩ := texts_of_single alsoReads also
  rw [intersectionIsEmpty_iff faithful]
  constructor
  · intro once char belongs alsoBelongs
    have run (count : Nat) (enough : low ≤ count) : List.replicate count char ∈ texts accepts item := by
      rw [texts_, List.length_replicate]
      exact ⟨enough, fun other among => (List.eq_of_mem_replicate among) ▸ belongs⟩
    have nextRun (count : Nat) (enough : least ≤ count) :
        List.replicate count char ∈ texts accepts next := by
      rw [nextTexts, List.length_replicate]
      exact ⟨enough, fun other among => (List.eq_of_mem_replicate among) ▸ alsoBelongs⟩
    have same : List.replicate low char ++ List.replicate (least + 1) char =
        List.replicate (low + 1) char ++ List.replicate least char := by
      rw [List.replicate_append_replicate, List.replicate_append_replicate]
      congr 1
      omega
    have alike := (once _ (run low (Nat.le_refl _)) _ (nextRun (least + 1) (by omega)) _
      (run (low + 1) (by omega)) _ (nextRun least (Nat.le_refl _)) same).1
    have long := congrArg List.length alike
    rw [List.length_replicate, List.length_replicate] at long
    omega
  · intro apart
    apply splitsOnce_of_apart (mem class_)
    · intro word member
      exact ((texts_ word).mp member).2
    · intro word member char among belongs
      exact apart char belongs (((nextTexts word).mp member).2 char among)

theorem suffixes_iff (faithful : Faithful walker.classes mem) (ast : Ast Leaf)
    (reads : Reads walker accepts mem ast) (offset : Nat) :
    .overlappingSuffix offset ∈ walker.walk ast ↔
      ∃ start front item items next set, PartOf (.concat start (front ++ item :: items)) ast ∧
        (walker.singleClassUnbounded item).isSome = true ∧ Next walker items next set ∧
        ¬ SplitsOnce (texts accepts item) (texts accepts next) ∧
        offset = walker.originalOffset item.start := by
  have splits {start : Nat} {front items : List (Ast Leaf)} {item next : Ast Leaf}
      {class_ set : Class} (below : PartOf (.concat start (front ++ item :: items)) ast)
      (single : walker.singleClassUnbounded item = some class_) (isNext : Next walker items next set) :
      SplitsOnce (texts accepts item) (texts accepts next) ↔
        walker.classes.intersectionIsEmpty class_ set = true := by
    obtain ⟨between, rest, rfl, also, _⟩ := isNext
    have inItems := (reads.part below).items
    exact splitsOnce_iff faithful (inItems item (by simp)) (inItems next (by simp)) single also
  constructor
  · intro found
    obtain ⟨part, below, found⟩ := (mem_walk ast _).mp found
    cases part with
    | concat start asts =>
        obtain ⟨front, item, items, class_, rfl, single, overlaps, same⟩ :=
          checkOverlappingSuffixes_iff.mp found
        obtain ⟨next, set, isNext, meet⟩ := suffixOverlaps_iff.mp overlaps
        refine ⟨start, front, item, items, next, set, below, by rw [single]; rfl, isNext, ?_, same⟩
        rw [splits below single isNext, meet]
        exact Bool.false_ne_true
    | repetition start kind body =>
        rw [Walker.check, Walker.checkRepetition] at found
        split at found
        next =>
          rcases List.mem_append.mp found with here | here
          · split at here
            next => cases List.mem_singleton.mp here
            next => cases here
          · split at here
            next => cases List.mem_singleton.mp here
            next => cases here
        next => cases found
    | _ => cases found
  · rintro ⟨start, front, item, items, next, set, below, isSingle, isNext, twice, rfl⟩
    obtain ⟨class_, single⟩ := Option.isSome_iff_exists.mp isSingle
    rw [splits below single isNext, Bool.not_eq_true] at twice
    refine (mem_walk ast _).mpr ⟨_, below, checkOverlappingSuffixes_iff.mpr ?_⟩
    exact ⟨front, item, items, class_, rfl, single, suffixOverlaps_iff.mpr ⟨next, set, isNext, twice⟩, rfl⟩

end Suffixes

end FusionPipeline.Lint
