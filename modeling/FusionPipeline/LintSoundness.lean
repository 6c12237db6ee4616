import FusionPipeline.LintMeaning

/-! Each analysis of the lint against the texts of the tree, and from them what its silence means. -/

namespace FusionPipeline.Lint

open Computability Languages

variable {Leaf Class : Type} {accepts : Leaf → Char → Prop}

section Sizes

mutual

theorem nullable_of_nil (ast : Ast Leaf) (member : [] ∈ texts accepts ast) : nullable ast = true := by
  match ast with
  | .empty _ | .flags _ | .assertion _ => rw [nullable]
  | .leaf _ leaf =>
      obtain ⟨char, empty, _⟩ := member
      cases empty
  | .group _ _ ast =>
      rw [nullable]
      exact nullable_of_nil ast member
  | .repetition _ kind body =>
      rw [nullable, Bool.or_eq_true, beq_iff_eq]
      rcases nil_mem_times member with zero | inside
      · exact Or.inl (UInt32.toNat_inj.mp zero)
      · exact Or.inr (nullable_of_nil body inside)
  | .alternation _ asts =>
      rw [nullable]
      exact anyNullable_of_nil asts member
  | .concat _ asts =>
      rw [nullable]
      exact allNullable_of_nil asts member

theorem anyNullable_of_nil (asts : List (Ast Leaf)) (member : [] ∈ textsOfAny accepts asts) :
    anyNullable asts = true := by
  match asts with
  | [] => cases member
  | ast :: asts =>
      rw [anyNullable, Bool.or_eq_true]
      rcases (Language.mem_add _ _ _).mp member with member | member
      · exact Or.inl (nullable_of_nil ast member)
      · exact Or.inr (anyNullable_of_nil asts member)

theorem allNullable_of_nil (asts : List (Ast Leaf)) (member : [] ∈ textsOfAll accepts asts) :
    allNullable asts = true := by
  match asts with
  | [] => rw [allNullable]
  | ast :: asts =>
      obtain ⟨front, inFirst, back, inRest, whole⟩ := Language.mem_mul.mp member
      obtain ⟨rfl, rfl⟩ := List.append_eq_nil_iff.mp whole
      rw [allNullable, Bool.and_eq_true]
      exact ⟨nullable_of_nil ast inFirst, allNullable_of_nil asts inRest⟩

end

theorem bounded_of_kind {kind : RepetitionKind} (fixed : isVariable kind = false)
    {language : Language Char} (bounded : Bounded language) :
    Bounded (times language (minOf kind).toNat ((maxOf kind).map UInt32.toNat)) := by
  cases most : maxOf kind with
  | none => simp [isVariable, most] at fixed
  | some most => exact bounded.times _ _

mutual

/-- Without a repetition of variable length no text is longer than some bound. -/
theorem bounded_of_fixed (ast : Ast Leaf) (fixed : containsVariableRepetition ast = false) :
    Bounded (texts accepts ast) := by
  match ast with
  | .empty _ | .flags _ | .assertion _ =>
      rw [texts]
      exact bounded_one
  | .leaf _ leaf =>
      refine ⟨1, ?_⟩
      rintro text ⟨char, rfl, _⟩
      exact Nat.le_refl 1
  | .group _ _ ast =>
      rw [containsVariableRepetition] at fixed
      rw [texts]
      exact bounded_of_fixed ast fixed
  | .repetition _ kind body =>
      rw [containsVariableRepetition, Bool.or_eq_false_iff] at fixed
      rw [texts]
      exact bounded_of_kind fixed.1 (bounded_of_fixed body fixed.2)
  | .alternation _ asts =>
      rw [containsVariableRepetition] at fixed
      rw [texts]
      exact (bounded_of_allFixed asts fixed).1
  | .concat _ asts =>
      rw [containsVariableRepetition] at fixed
      rw [texts]
      exact (bounded_of_allFixed asts fixed).2

theorem bounded_of_allFixed (asts : List (Ast Leaf))
    (fixed : anyContainsVariableRepetition asts = false) :
    Bounded (textsOfAny accepts asts) ∧ Bounded (textsOfAll accepts asts) := by
  match asts with
  | [] =>
      refine ⟨⟨0, ?_⟩, ?_⟩
      · intro word member
        cases member
      · rw [textsOfAll]
        exact bounded_one
  | ast :: asts =>
      rw [anyContainsVariableRepetition, Bool.or_eq_false_iff] at fixed
      have first : Bounded (texts accepts ast) := bounded_of_fixed ast fixed.1
      obtain ⟨either, inTurn⟩ := bounded_of_allFixed asts fixed.2
      rw [textsOfAny, textsOfAll]
      exact ⟨first.add either, first.mul inTurn⟩

end

end Sizes

section Readings

def InRanges (ranges : List (Char × Char)) (char : Char) : Prop :=
  ∃ range ∈ ranges, range.1 ≤ char ∧ char ≤ range.2

/-- The classes are the sets of characters they stand for. -/
structure Faithful (classes : Classes Class) (mem : Class → Char → Prop) : Prop where
  mem_empty : ∀ char, ¬ mem classes.empty char
  mem_union : ∀ first second char,
    mem (classes.union first second) char ↔ mem first char ∨ mem second char
  mem_intersect : ∀ first second char,
    mem (classes.intersect first second) char ↔ mem first char ∧ mem second char
  isEmpty_iff : ∀ set, classes.isEmpty set = true ↔ ∀ char, ¬ mem set char
  mem_ofRanges : ∀ ranges char, mem (classes.ofRanges ranges) char ↔ InRanges ranges char

/-- Each leaf of the tree is read as the one class of the characters it accepts. -/
def Reads (walker : Walker Leaf Class) (accepts : Leaf → Char → Prop) (mem : Class → Char → Prop)
    (ast : Ast Leaf) : Prop :=
  ∀ start leaf, PartOf (.leaf start leaf) ast →
    ∃ set, walker.leafClasses leaf = [set] ∧ ∀ char, mem set char ↔ accepts leaf char

theorem PartOf.trans {part middle ast : Ast Leaf} (below : PartOf part middle)
    (further : PartOf middle ast) : PartOf part ast := by
  induction further with
  | self => exact below
  | repetition _ ih => exact .repetition ih
  | group _ ih => exact .group ih
  | alternation among _ ih => exact .alternation among ih
  | concat among _ ih => exact .concat among ih

variable {walker : Walker Leaf Class} {mem : Class → Char → Prop}

theorem Reads.part {part ast : Ast Leaf} (reads : Reads walker accepts mem ast)
    (below : PartOf part ast) : Reads walker accepts mem part :=
  fun start leaf inside => reads start leaf (inside.trans below)

theorem Reads.branches {start : Nat} {asts : List (Ast Leaf)}
    (reads : Reads walker accepts mem (.alternation start asts)) :
    ∀ ast ∈ asts, Reads walker accepts mem ast :=
  fun _ among => reads.part (.alternation among .self)

theorem Reads.items {start : Nat} {asts : List (Ast Leaf)}
    (reads : Reads walker accepts mem (.concat start asts)) :
    ∀ ast ∈ asts, Reads walker accepts mem ast :=
  fun _ among => reads.part (.concat among .self)

end Readings

variable {walker : Walker Leaf Class} {mem : Class → Char → Prop}

theorem intersectionIsEmpty_iff (faithful : Faithful walker.classes mem) (first second : Class) :
    walker.classes.intersectionIsEmpty first second = true ↔
      ∀ char, mem first char → ¬ mem second char := by
  rw [Classes.intersectionIsEmpty, faithful.isEmpty_iff]
  simp only [faithful.mem_intersect, not_and]

section FirstSets

mutual

theorem mem_firstSet (faithful : Faithful walker.classes mem) (ast : Ast Leaf)
    (reads : Reads walker accepts mem ast) {char : Char} {rest : List Char}
    (member : char :: rest ∈ texts accepts ast) :
    mem (walker.firstSet ast) char := by
  match ast with
  | .empty _ | .flags _ | .assertion _ => cases (Language.mem_one _).mp member
  | .leaf start leaf =>
      obtain ⟨other, same, accepted⟩ := member
      obtain ⟨rfl, rfl⟩ := List.cons.inj same
      obtain ⟨set, translated, holds⟩ := reads start leaf .self
      rw [Walker.firstSet, translated]
      exact (holds char).mpr accepted
  | .group _ _ ast =>
      rw [Walker.firstSet]
      exact mem_firstSet faithful ast (reads.part (.group .self)) member
  | .repetition _ kind body =>
      rw [Walker.firstSet]
      obtain ⟨more, inside⟩ := cons_mem_times member
      exact mem_firstSet faithful body (reads.part (.repetition .self)) inside
  | .alternation _ asts =>
      rw [Walker.firstSet]
      exact mem_firstSetOfAlternation faithful asts reads.branches _ (Or.inr member)
  | .concat _ asts =>
      rw [Walker.firstSet]
      exact mem_firstSetOfConcat faithful asts reads.items _ (Or.inr member)

theorem mem_firstSetOfAlternation (faithful : Faithful walker.classes mem) (asts : List (Ast Leaf))
    (reads : ∀ ast ∈ asts, Reads walker accepts mem ast) (found : Class) {char : Char}
    {rest : List Char} (either : mem found char ∨ char :: rest ∈ textsOfAny accepts asts) :
    mem (walker.firstSetOfAlternation found asts) char := by
  match asts with
  | [] =>
      rw [Walker.firstSetOfAlternation]
      exact either.resolve_right (Language.notMem_zero _)
  | ast :: asts =>
      rw [List.forall_mem_cons] at reads
      rw [Walker.firstSetOfAlternation]
      refine mem_firstSetOfAlternation faithful asts reads.2 _ (show _ ∨ char :: rest ∈ _ from ?_)
      rw [faithful.mem_union]
      rcases either with held | member
      · exact Or.inl (Or.inl held)
      · rcases (Language.mem_add _ _ _).mp member with member | member
        · exact Or.inl (Or.inr (mem_firstSet faithful ast reads.1 member))
        · exact Or.inr member

theorem mem_firstSetOfConcat (faithful : Faithful walker.classes mem) (asts : List (Ast Leaf))
    (reads : ∀ ast ∈ asts, Reads walker accepts mem ast) (found : Class) {char : Char}
    {rest : List Char} (either : mem found char ∨ char :: rest ∈ textsOfAll accepts asts) :
    mem (walker.firstSetOfConcat found asts) char := by
  match asts with
  | [] =>
      rw [Walker.firstSetOfConcat]
      refine either.resolve_right fun member => ?_
      cases (Language.mem_one _).mp member
  | ast :: asts =>
      rw [List.forall_mem_cons] at reads
      rw [Walker.firstSetOfConcat]
      have here : mem (walker.classes.union found (walker.firstSet ast)) char ∨
          [] ∈ texts accepts ast ∧ char :: rest ∈ textsOfAll accepts asts := by
        rw [faithful.mem_union]
        rcases either with held | member
        · exact Or.inl (Or.inl held)
        · obtain ⟨front, inFirst, back, inRest, whole⟩ := Language.mem_mul.mp member
          cases front with
          | nil => exact Or.inr ⟨inFirst, whole ▸ inRest⟩
          | cons other front =>
              obtain ⟨rfl, _⟩ := List.cons.inj whole
              exact Or.inl (Or.inr (mem_firstSet faithful ast reads.1 inFirst))
      by_cases empty : nullable ast = true
      · rw [if_pos empty]
        exact mem_firstSetOfConcat faithful asts reads.2 _ (here.imp_right And.right)
      · rw [if_neg empty]
        exact here.resolve_right fun later => empty (nullable_of_nil ast later.1)

end

end FirstSets

section Shapes

def Starts (mem : Class → Char → Prop) (shape : Shape Class) (text : List Char) : Prop :=
  ∃ front rest, text = front ++ rest ∧ Fits mem shape.front front ∧ (shape.exact = true → rest = [])

theorem Starts.andThen {part later : Shape Class} {text more : List Char} (starts : Starts mem part text)
    (then_ : Starts mem later more) : Starts mem (part.andThen later) (text ++ more) := by
  obtain ⟨front, rest, rfl, fits, whole⟩ := starts
  rw [Shape.andThen]
  by_cases exact_ : part.exact = true
  · obtain rfl := whole exact_
    obtain ⟨next, last, rfl, fitsNext, ends⟩ := then_
    rw [if_pos exact_, List.append_nil, ← List.append_assoc]
    exact ⟨front ++ next, last, rfl, List.rel_append fits fitsNext, ends⟩
  · rw [if_neg exact_, List.append_assoc]
    exact ⟨front, rest ++ more, rfl, fits, fun isExact => absurd isExact exact_⟩

theorem Starts.unroll {inner : Shape Class} {words : List (List Char)}
    (each : ∀ word ∈ words, Starts mem inner word) :
    Starts mem (inner.unroll words.length) words.flatten := by
  induction words with
  | nil => exact ⟨[], [], rfl, .nil, fun _ => rfl⟩
  | cons word words ih =>
      rw [List.forall_mem_cons] at each
      rw [List.length_cons, Shape.unroll, List.flatten_cons]
      exact each.1.andThen (ih each.2)

theorem Starts.more {shape : Shape Class} {text : List Char} (starts : Starts mem shape text)
    (more : List Char) : Starts mem { shape with exact := false } (text ++ more) := by
  obtain ⟨front, rest, rfl, fits, _⟩ := starts
  refine ⟨front, rest ++ more, by rw [List.append_assoc], fits, ?_⟩
  rintro ⟨⟩

def fixedCount (kind : RepetitionKind) : Bool :=
  !(maxOf kind != some (minOf kind) || decide (maxUnroll < (minOf kind).toNat))

theorem fixedCount_iff (kind : RepetitionKind) :
    fixedCount kind = true ↔ maxOf kind = some (minOf kind) ∧ (minOf kind).toNat ≤ maxUnroll := by
  simp [fixedCount]

theorem shape_repetition (start : Nat) (kind : RepetitionKind) (body : Ast Leaf) :
    walker.shape (.repetition start kind body) =
      ⟨((walker.shape body).unroll (min (minOf kind).toNat maxUnroll)).front,
        ((walker.shape body).unroll (min (minOf kind).toNat maxUnroll)).exact && fixedCount kind⟩ := by
  rw [Walker.shape, fixedCount]
  by_cases free : (maxOf kind != some (minOf kind) || decide (maxUnroll < (minOf kind).toNat)) = true
  · rw [if_pos free]
    simp only [free, Bool.not_true, Bool.and_false]
  · rw [if_neg free]
    rw [Bool.not_eq_true] at free
    simp only [free, Bool.not_false, Bool.and_true]

mutual

theorem starts_shape (ast : Ast Leaf) (reads : Reads walker accepts mem ast) {text : List Char}
    (member : text ∈ texts accepts ast) : Starts mem (walker.shape ast) text := by
  match ast with
  | .empty _ | .flags _ | .assertion _ =>
      obtain rfl := (Language.mem_one _).mp member
      exact ⟨[], [], rfl, .nil, fun _ => rfl⟩
  | .leaf start leaf =>
      obtain ⟨char, rfl, accepted⟩ := member
      obtain ⟨set, translated, holds⟩ := reads start leaf .self
      rw [Walker.shape, translated]
      exact ⟨[char], [], rfl, .cons ((holds char).mpr accepted) .nil, fun _ => rfl⟩
  | .group _ _ ast =>
      rw [Walker.shape]
      exact starts_shape ast (reads.part (.group .self)) member
  | .alternation _ asts =>
      rw [Walker.shape]
      refine ⟨[], text, rfl, .nil, ?_⟩
      rintro ⟨⟩
  | .concat _ asts =>
      rw [Walker.shape]
      exact starts_shapeOfConcat asts reads.items member
  | .repetition start kind body =>
      obtain ⟨words, rfl, atLeast, atMost, inside⟩ := mem_times.mp member
      have each : ∀ word ∈ words, Starts mem (walker.shape body) word := fun word among =>
        starts_shape body (reads.part (.repetition .self)) (inside word among)
      rw [shape_repetition]
      by_cases fixed : fixedCount kind = true
      · -- The count is the one the shape unrolls.
        obtain ⟨most, small⟩ := (fixedCount_iff kind).mp fixed
        have few := atMost (minOf kind).toNat (by rw [most]; rfl)
        have count : min (minOf kind).toNat maxUnroll = words.length := by omega
        rw [fixed, count, Bool.and_true]
        exact Starts.unroll each
      · -- The shape unrolls some of the words and leaves the rest open.
        have split := List.take_append_drop (min (minOf kind).toNat maxUnroll) words
        have count : (words.take (min (minOf kind).toNat maxUnroll)).length =
            min (minOf kind).toNat maxUnroll := by
          rw [List.length_take]
          omega
        have first : Starts mem _ (words.take (min (minOf kind).toNat maxUnroll)).flatten :=
          Starts.unroll fun word among => each word (List.mem_of_mem_take among)
        rw [count] at first
        rw [Bool.not_eq_true] at fixed
        have more := first.more (words.drop (min (minOf kind).toNat maxUnroll)).flatten
        rwa [← List.flatten_append, split, ← Bool.and_false, ← fixed] at more

theorem starts_shapeOfConcat (asts : List (Ast Leaf))
    (reads : ∀ ast ∈ asts, Reads walker accepts mem ast) {text : List Char}
    (member : text ∈ textsOfAll accepts asts) : Starts mem (walker.shapeOfConcat asts) text := by
  match asts with
  | [] =>
      obtain rfl := (Language.mem_one _).mp member
      exact ⟨[], [], rfl, .nil, fun _ => rfl⟩
  | ast :: asts =>
      rw [List.forall_mem_cons] at reads
      obtain ⟨front, inFirst, back, inRest, rfl⟩ := Language.mem_mul.mp member
      rw [Walker.shapeOfConcat]
      exact (starts_shape ast reads.1 inFirst).andThen (starts_shapeOfConcat asts reads.2 inRest)

end

theorem fits_unroll {inner : Shape Class} {count : Nat} {text : List Char}
    (exact_ : (inner.unroll count).exact = true) (fits : Fits mem (inner.unroll count).front text) :
    ∃ words : List (List Char), words.length = count ∧ text = words.flatten ∧
      ∀ word ∈ words, inner.exact = true ∧ Fits mem inner.front word := by
  induction count generalizing text with
  | zero =>
      cases fits
      exact ⟨[], rfl, rfl, by simp⟩
  | succ count ih =>
      rw [Shape.unroll, Shape.andThen] at exact_ fits
      by_cases innerExact : inner.exact = true
      · rw [if_pos innerExact] at exact_ fits
        obtain ⟨front, back, rfl, first, later⟩ := fits.split
        obtain ⟨words, rfl, rfl, each⟩ := ih exact_ later
        refine ⟨front :: words, rfl, rfl, ?_⟩
        rw [List.forall_mem_cons]
        exact ⟨⟨innerExact, first⟩, each⟩
      · rw [if_neg innerExact] at exact_
        exact absurd exact_ innerExact

mutual

theorem texts_of_fits (ast : Ast Leaf) (reads : Reads walker accepts mem ast) {text : List Char}
    (exact_ : (walker.shape ast).exact = true)
    (fits : Fits mem (walker.shape ast).front text) : text ∈ texts accepts ast := by
  match ast with
  | .empty _ | .flags _ | .assertion _ =>
      cases fits
      exact Language.nil_mem_one
  | .leaf start leaf =>
      obtain ⟨set, translated, holds⟩ := reads start leaf .self
      rw [Walker.shape, translated] at fits
      cases fits with
      | cons belongs fits =>
          cases fits
          exact ⟨_, rfl, (holds _).mp belongs⟩
  | .group _ _ ast =>
      rw [Walker.shape] at exact_ fits
      exact texts_of_fits ast (reads.part (.group .self)) exact_ fits
  | .alternation _ asts =>
      rw [Walker.shape] at exact_
      cases exact_
  | .concat _ asts =>
      rw [Walker.shape] at exact_ fits
      exact textsOfAll_of_fits asts reads.items exact_ fits
  | .repetition start kind body =>
      rw [shape_repetition, Bool.and_eq_true] at exact_
      rw [shape_repetition] at fits
      obtain ⟨most, small⟩ := (fixedCount_iff kind).mp exact_.2
      rw [Nat.min_eq_left small] at exact_ fits
      obtain ⟨words, count, rfl, each⟩ := fits_unroll exact_.1 fits
      refine mem_times.mpr ⟨words, rfl, count.ge, ?_, ?_⟩
      · rw [most]
        rintro bound ⟨⟩
        exact count.le
      · intro word among
        exact texts_of_fits body (reads.part (.repetition .self)) (each word among).1
          (each word among).2

theorem textsOfAll_of_fits (asts : List (Ast Leaf))
    (reads : ∀ ast ∈ asts, Reads walker accepts mem ast) {text : List Char}
    (exact_ : (walker.shapeOfConcat asts).exact = true)
    (fits : Fits mem (walker.shapeOfConcat asts).front text) : text ∈ textsOfAll accepts asts := by
  match asts with
  | [] =>
      cases fits
      exact Language.nil_mem_one
  | ast :: asts =>
      rw [List.forall_mem_cons] at reads
      rw [Walker.shapeOfConcat, Shape.andThen] at exact_ fits
      by_cases partExact : (walker.shape ast).exact = true
      · rw [if_pos partExact] at exact_ fits
        obtain ⟨front, back, rfl, first, later⟩ := fits.split
        exact Language.append_mem_mul (texts_of_fits ast reads.1 partExact first)
          (textsOfAll_of_fits asts reads.2 exact_ later)
      · rw [if_neg partExact] at exact_
        exact absurd exact_ partExact

end

end Shapes

section Alternations

theorem anyPair_eq_false {Item : Type} {related : Item → Item → Bool} {items : List Item} :
    anyPair related items = false ↔ items.Pairwise fun first second => related first second = false := by
  induction items with
  | nil => simp [anyPair]
  | cons item items ih =>
      rw [anyPair, Bool.or_eq_false_iff, ih, List.pairwise_cons, List.any_eq_false]
      simp only [Bool.not_eq_true]

/-- Two branches that do not overlap either way start no text together, when what follows them
starts with the restart set. -/
theorem differ_of_quiet (faithful : Faithful walker.classes mem) {first second : Shape Class}
    {restart : Class}
    (quiet : branchesOverlap walker.classes first second restart = false)
    (alsoQuiet : branchesOverlap walker.classes second first restart = false)
    {text other rest more : List Char} (starts : Starts mem first text)
    (alsoStarts : Starts mem second other)
    (restarts : ∀ char, rest.head? = some char → mem restart char)
    (alsoRestarts : ∀ char, more.head? = some char → mem restart char) :
    text ++ rest ≠ other ++ more := by
  obtain ⟨front, open_, rfl, fits, whole⟩ := starts
  obtain ⟨otherFront, otherOpen, rfl, otherFits, otherWhole⟩ := alsoStarts
  rw [branchesOverlap] at quiet alsoQuiet
  split at quiet
  next apart =>
    -- A place where the classes have no character in common.
    obtain ⟨pair, member, empty⟩ := List.any_eq_true.mp apart
    obtain ⟨i, found⟩ := List.mem_iff_getElem?.mp member
    obtain ⟨here, there⟩ := List.getElem?_zip_eq_some.mp found
    rw [List.append_assoc, List.append_assoc]
    exact fits.differ otherFits here there ((intersectionIsEmpty_iff faithful _ _).mp empty) _ _
  next meeting =>
    have alsoMeeting : ¬ ((second.front.zip first.front).any fun pair =>
        walker.classes.intersectionIsEmpty pair.1 pair.2) = true := by
      intro apart
      obtain ⟨pair, member, empty⟩ := List.any_eq_true.mp apart
      obtain ⟨i, found⟩ := List.mem_iff_getElem?.mp member
      obtain ⟨here, there⟩ := List.getElem?_zip_eq_some.mp found
      apply meeting
      refine List.any_eq_true.mpr ⟨pair.swap, ?_, ?_⟩
      · exact List.mem_of_getElem? (List.getElem?_zip_eq_some.mpr ⟨there, here⟩)
      · rw [intersectionIsEmpty_iff faithful] at empty ⊢
        exact fun char held also => empty char also held
    rw [if_neg alsoMeeting] at alsoQuiet
    split at quiet
    next => cases quiet
    next isExact =>
      rw [Bool.not_eq_true, Bool.not_eq_false'] at isExact
      split at alsoQuiet
      next => cases alsoQuiet
      next alsoExact =>
        rw [Bool.not_eq_true, Bool.not_eq_false'] at alsoExact
        obtain rfl := whole isExact
        obtain rfl := otherWhole alsoExact
        rw [List.append_nil, List.append_nil]
        split at quiet
        next shorter =>
          -- The second branch is the shorter one.
          rw [if_neg (by omega)] at alsoQuiet
          split at alsoQuiet
          next next_ goesOn =>
            refine (otherFits.differ_next fits goesOn ?_ _).symm
            intro char starting belongs
            rw [Bool.not_eq_false', intersectionIsEmpty_iff faithful] at alsoQuiet
            exact alsoQuiet char belongs (alsoRestarts char starting)
          next => cases alsoQuiet
        next notShorter =>
          split at quiet
          next next_ goesOn =>
            refine fits.differ_next otherFits goesOn ?_ _
            intro char starting belongs
            rw [Bool.not_eq_false', intersectionIsEmpty_iff faithful] at quiet
            exact quiet char belongs (restarts char starting)
          next => cases quiet

def branch (accepts : Leaf → Char → Prop) (asts : List (Ast Leaf)) (i : Fin asts.length) :
    Language Char :=
  texts accepts asts[i]

theorem restarts_of_kstar (faithful : Faithful walker.classes mem) {asts : List (Ast Leaf)}
    (reads : ∀ ast ∈ asts, Reads walker accepts mem ast) {rest : List Char}
    (onward : rest ∈ (⨆ i, branch accepts asts i)∗) (char : Char) (starting : rest.head? = some char) :
    mem (walker.firstSetOfAlternation walker.classes.empty asts) char := by
  cases rest with
  | nil => cases starting
  | cons first rest =>
      obtain rfl := Option.some.inj starting
      obtain ⟨more, inside⟩ := cons_mem_kstar onward
      obtain ⟨i, member⟩ := Language.mem_iSup.mp inside
      exact mem_firstSetOfAlternation faithful asts reads _
        (Or.inr (mem_textsOfAny.mpr ⟨_, List.getElem_mem i.isLt, member⟩))

/-- No text of the loop starts with two branches of an alternation the lint finds no overlap in. -/
theorem apart_of_quiet (faithful : Faithful walker.classes mem) {asts : List (Ast Leaf)}
    (reads : ∀ ast ∈ asts, Reads walker accepts mem ast) (quiet : walker.alternationOverlaps asts = false)
    {i j : Fin asts.length} (differ : i ≠ j) :
    Apart (branching (branch accepts asts) i) (branching (branch accepts asts) j) := by
  rw [Walker.alternationOverlaps] at quiet
  have pairs := List.pairwise_map.mp (anyPair_eq_false.mp quiet)
  rw [List.pairwise_iff_getElem] at pairs
  have below {i j : Fin asts.length} (order : i < j) :
      Apart (branching (branch accepts asts) i) (branching (branch accepts asts) j) := by
    obtain ⟨one, other⟩ := Bool.or_eq_false_iff.mp (pairs i j i.isLt j.isLt order)
    intro text here there
    obtain ⟨front, inFront, rest, onward, rfl⟩ := Language.mem_mul.mp here
    obtain ⟨otherFront, inOther, more, otherOnward, same⟩ := Language.mem_mul.mp there
    have starts (i : Fin asts.length) {text : List Char} (inside : text ∈ branch accepts asts i) :
        Starts mem (walker.shape asts[i]) text :=
      starts_shape _ (reads _ (List.getElem_mem i.isLt)) inside
    exact differ_of_quiet faithful one other (starts i inFront) (starts j inOther)
      (restarts_of_kstar faithful reads onward) (restarts_of_kstar faithful reads otherOnward)
      same.symm
  rcases lt_or_gt_of_ne differ with order | order
  · exact below order
  · exact fun text here there => below order text there here

end Alternations

end FusionPipeline.Lint
