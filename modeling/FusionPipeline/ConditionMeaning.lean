import FusionPipeline.ConditionMatching

/-! What a condition means: its leaves decided left to right, each pattern's text put to the
engine, until the value is known. -/

namespace FusionPipeline

abbrev Question := String × String

abbrev Asks := List (Question × Except MatchError Bool)

namespace Condition

open Oracle (Answered)

section Meaning

variable (record : Record) (recordMeta : Meta)

def question (field : FieldPath) (op : CompareOp) (literal : Literal F64) : Option Question :=
  match literal, field.read record recordMeta with
  | .str pattern, .str text => if op.isRegex then some (pattern, text) else none
  | _, _ => none

/-- A leaf that asks nothing. A field that is no string does not match, so `!~` holds of it. -/
def settled (field : FieldPath) (op : CompareOp) (literal : Literal F64) : Bool :=
  if op.isRegex && literal.isStr then op == .notMatch
  else (field.read record recordMeta).compare op literal

def verdict (op : CompareOp) (matched : Bool) : Bool :=
  matched != (op == .notMatch)

def truth (held : Question → Bool) : Condition F64 → Bool
  | .compare field op literal =>
      match question record recordMeta field op literal with
      | some asked => verdict op (held asked)
      | none => settled record recordMeta field op literal
  | .and left right => truth held left && truth held right
  | .or left right => truth held left || truth held right
  | .not inner => !truth held inner

/-- The result of a condition with what it took to find it: a side that decides leaves the other
unasked, and an error is the result of all around it. -/
inductive Meaning : Condition F64 → Asks → Except MatchError Bool → Prop
  | asked {field : FieldPath} {op : CompareOp} {literal : Literal F64} {asked : Question}
      (asks : question record recordMeta field op literal = some asked)
      (answer : Except MatchError Bool) :
      Meaning (.compare field op literal) [(asked, answer)] (answer.map (verdict op))
  | settled {field : FieldPath} {op : CompareOp} {literal : Literal F64}
      (asksNothing : question record recordMeta field op literal = none) :
      Meaning (.compare field op literal) [] (.ok (settled record recordMeta field op literal))
  | andDecided {left : Condition F64} {before : Asks} {result : Except MatchError Bool}
      (decided : result ≠ .ok true) (leftMeans : Meaning left before result)
      (right : Condition F64) : Meaning (.and left right) before result
  | andRight {left right : Condition F64} {before after : Asks} {result : Except MatchError Bool}
      (leftMeans : Meaning left before (.ok true)) (rightMeans : Meaning right after result) :
      Meaning (.and left right) (before ++ after) result
  | orDecided {left : Condition F64} {before : Asks} {result : Except MatchError Bool}
      (decided : result ≠ .ok false) (leftMeans : Meaning left before result)
      (right : Condition F64) : Meaning (.or left right) before result
  | orRight {left right : Condition F64} {before after : Asks} {result : Except MatchError Bool}
      (leftMeans : Meaning left before (.ok false)) (rightMeans : Meaning right after result) :
      Meaning (.or left right) (before ++ after) result
  | not {inner : Condition F64} {before : Asks} {result : Except MatchError Bool}
      (innerMeans : Meaning inner before result) : Meaning (.not inner) before (result.map Bool.not)

end Meaning

section Results

variable {record : Record} {recordMeta : Meta}

/-- A condition that has a value got an answer to each of its questions. -/
theorem Meaning.all_ok {condition : Condition F64} {asked : Asks} {result : Except MatchError Bool}
    (means : Meaning record recordMeta condition asked result) {value : Bool}
    (decided : result = .ok value) : ∀ ask ∈ asked, ∃ matched, ask.2 = .ok matched := by
  induction means generalizing value with
  | asked asks answer =>
      obtain ⟨matched, answered, _⟩ := Fallible.map_ok_iff.mp decided
      intro ask member
      rw [List.mem_singleton] at member
      subst member
      exact ⟨matched, answered⟩
  | settled asksNothing =>
      intro ask member
      cases member
  | andDecided _ _ _ ih => exact ih decided
  | andRight _ _ leftIh rightIh =>
      intro ask member
      cases List.mem_append.mp member with
      | inl early => exact leftIh rfl ask early
      | inr late => exact rightIh decided ask late
  | orDecided _ _ _ ih => exact ih decided
  | orRight _ _ leftIh rightIh =>
      intro ask member
      cases List.mem_append.mp member with
      | inl early => exact leftIh rfl ask early
      | inr late => exact rightIh decided ask late
  | not _ ih =>
      obtain ⟨inside, decidedInside, _⟩ := Fallible.map_ok_iff.mp decided
      exact ih decidedInside

def EndsAt (error : MatchError) (asked : Asks) : Prop :=
  ∃ earlier last, asked = earlier ++ [(last, .error error)] ∧
    ∀ ask ∈ earlier, ∃ matched, ask.2 = .ok matched

theorem EndsAt.after {error : MatchError} {before after : Asks} (ends : EndsAt error after)
    (fine : ∀ ask ∈ before, ∃ matched, ask.2 = .ok matched) : EndsAt error (before ++ after) := by
  obtain ⟨earlier, last, rfl, answered⟩ := ends
  refine ⟨before ++ earlier, last, by rw [List.append_assoc], ?_⟩
  intro ask member
  cases List.mem_append.mp member with
  | inl early => exact fine ask early
  | inr late => exact answered ask late

theorem map_error_iff {result : Except MatchError Bool} {change : Bool → Bool} {error : MatchError} :
    result.map change = .error error ↔ result = .error error := by
  cases result with
  | ok value => simp [Except.map]
  | error problem => simp [Except.map]

theorem Meaning.endsAt {condition : Condition F64} {asked : Asks}
    {result : Except MatchError Bool} (means : Meaning record recordMeta condition asked result)
    {error : MatchError} (failed : result = .error error) : EndsAt error asked := by
  induction means with
  | @asked _ _ _ asked asks answer =>
      have refused := map_error_iff.mp failed
      subst refused
      refine ⟨[], asked, rfl, ?_⟩
      intro ask member
      cases member
  | settled asksNothing => cases failed
  | andDecided _ _ _ ih => exact ih failed
  | andRight leftMeans _ _ ih => exact (ih failed).after (leftMeans.all_ok rfl)
  | orDecided _ _ _ ih => exact ih failed
  | orRight leftMeans _ _ ih => exact (ih failed).after (leftMeans.all_ok rfl)
  | not _ ih => exact ih (map_error_iff.mp failed)

/-- A value found is the condition's truth, whatever texts the patterns match that were not
asked for. -/
theorem Meaning.truth {held : Question → Bool} {condition : Condition F64} {asked : Asks}
    {result : Except MatchError Bool} (means : Meaning record recordMeta condition asked result)
    {value : Bool} (decided : result = .ok value)
    (agrees : ∀ ask ∈ asked, ∀ matched, ask.2 = .ok matched → held ask.1 = matched) :
    condition.truth record recordMeta held = value := by
  induction means generalizing value with
  | asked asks answer =>
      obtain ⟨matched, answered, rfl⟩ := Fallible.map_ok_iff.mp decided
      simp only [Condition.truth, asks]
      rw [agrees _ (List.mem_singleton_self _) matched answered]
  | settled asksNothing =>
      simp only [Except.ok.injEq] at decided
      simp only [Condition.truth, asksNothing, decided]
  | @andDecided left before result isDecided _ right ih =>
      have leftTruth := ih decided agrees
      cases value with
      | true => exact absurd decided isDecided
      | false => simp only [Condition.truth, leftTruth, Bool.false_and]
  | andRight _ _ leftIh rightIh =>
      have leftTruth := leftIh rfl fun ask early => agrees ask (List.mem_append_left _ early)
      have rightTruth := rightIh decided fun ask late => agrees ask (List.mem_append_right _ late)
      simp only [Condition.truth, leftTruth, rightTruth, Bool.true_and]
  | @orDecided left before result isDecided _ right ih =>
      have leftTruth := ih decided agrees
      cases value with
      | true => simp only [Condition.truth, leftTruth, Bool.true_or]
      | false => exact absurd decided isDecided
  | orRight _ _ leftIh rightIh =>
      have leftTruth := leftIh rfl fun ask early => agrees ask (List.mem_append_left _ early)
      have rightTruth := rightIh decided fun ask late => agrees ask (List.mem_append_right _ late)
      simp only [Condition.truth, leftTruth, rightTruth, Bool.false_or]
  | not _ ih =>
      obtain ⟨inside, decidedInside, rfl⟩ := Fallible.map_ok_iff.mp decided
      simp only [Condition.truth, ih decidedInside agrees]

end Results

section Evaluating

variable {World : Type} {record : Record} {recordMeta : Meta}
  {regex : String → String → World → Except MatchError Bool × World}
  {reply : Question → World → Option (Except MatchError Bool × World)}

theorem collectPatterns_eq (condition : Condition F64) (out : List String) :
    condition.collectPatterns out = out ++ condition.regexPatterns := by
  unfold regexPatterns
  induction condition generalizing out with
  | compare field op literal =>
      unfold collectPatterns
      split
      · rfl
      · rfl
      · rw [List.append_nil]
  | and left right leftIh rightIh =>
      simp only [collectPatterns]
      rw [rightIh, leftIh, rightIh (left.collectPatterns []), List.append_assoc]
  | or left right leftIh rightIh =>
      simp only [collectPatterns]
      rw [rightIh, leftIh, rightIh (left.collectPatterns []), List.append_assoc]
  | not inner ih => exact ih out

def Replies (regex : String → String → World → Except MatchError Bool × World)
    (reply : Question → World → Option (Except MatchError Bool × World)) (patterns : List String) :
    Prop :=
  ∀ pattern ∈ patterns, ∀ text world, reply (pattern, text) world = some (regex pattern text world)

theorem Replies.left {left right : Condition F64}
    (replies : Replies regex reply ((left.collectPatterns []) ++ right.regexPatterns)) :
    Replies regex reply left.regexPatterns :=
  fun pattern member => replies pattern (List.mem_append_left _ member)

theorem Replies.right {left right : Condition F64}
    (replies : Replies regex reply ((left.collectPatterns []) ++ right.regexPatterns)) :
    Replies regex reply right.regexPatterns :=
  fun pattern member => replies pattern (List.mem_append_right _ member)

@[simp]
theorem verdict_match : verdict .match_ = fun matched => matched := by
  funext matched
  cases matched <;> rfl

@[simp]
theorem verdict_notMatch : verdict .notMatch = fun matched => !matched := by
  funext matched
  cases matched <;> rfl

theorem matchesWith_compare (field : FieldPath) (op : CompareOp) (literal : Literal F64)
    (world : World) :
    matchesWith record recordMeta regex (.compare field op literal) world =
      match question record recordMeta field op literal with
      | some (pattern, text) =>
          ((regex pattern text world).1.map (verdict op), (regex pattern text world).2)
      | none => (.ok (settled record recordMeta field op literal), world) := by
  cases literal with
  | str pattern =>
      cases read : field.read record recordMeta with
      | str text =>
          cases op <;>
            simp [matchesWith, matchesPattern, question, settled, read, CompareOp.isRegex]
      | _ =>
          cases op <;>
            simp [matchesWith, matchesPattern, question, settled, read, CompareOp.isRegex,
              Literal.isStr, Except.map]
  | _ => cases op <;> simp [matchesWith, question, settled, Literal.isStr]

theorem question_asked {field : FieldPath} {op : CompareOp} {literal : Literal F64}
    {asked : Question} (asks : question record recordMeta field op literal = some asked) :
    asked.1 ∈ (Condition.compare field op literal).regexPatterns := by
  unfold question at asks
  split at asks
  next pattern text _ =>
    split at asks
    next isRegex =>
      simp only [Option.some.injEq] at asks
      subst asks
      cases op <;> simp_all [regexPatterns, collectPatterns, CompareOp.isRegex]
    next => cases asks
  next => cases asks

theorem matchesWith_means {condition : Condition F64} {world last : World}
    {result : Except MatchError Bool} (replies : Replies regex reply condition.regexPatterns)
    (ran : condition.matchesWith record recordMeta regex world = (result, last)) :
    ∃ asked, Meaning record recordMeta condition asked result ∧ Answered reply world asked last := by
  induction condition generalizing world last result with
  | compare field op literal =>
      rw [matchesWith_compare] at ran
      cases asks : question record recordMeta field op literal with
      | none =>
          rw [asks] at ran
          cases ran
          exact ⟨[], .settled asks, .done⟩
      | some asked =>
          rw [asks] at ran
          cases ran
          exact ⟨_, .asked asks _, .one (replies asked.1 (question_asked asks) asked.2 world)⟩
  | and left right leftIh rightIh =>
      rw [regexPatterns, collectPatterns, collectPatterns_eq] at replies
      cases leftRan : left.matchesWith record recordMeta regex world with
      | mk leftResult middle =>
          obtain ⟨before, leftMeans, early⟩ := leftIh replies.left leftRan
          simp only [matchesWith, leftRan] at ran
          split at ran
          next same =>
            cases same
            obtain ⟨after, rightMeans, late⟩ := rightIh replies.right ran
            exact ⟨before ++ after, .andRight leftMeans rightMeans, early.append late⟩
          next same =>
            cases same
            cases ran
            exact ⟨before, .andDecided (by simp) leftMeans right, early⟩
          next same =>
            cases same
            cases ran
            exact ⟨before, .andDecided (by simp) leftMeans right, early⟩
  | or left right leftIh rightIh =>
      rw [regexPatterns, collectPatterns, collectPatterns_eq] at replies
      cases leftRan : left.matchesWith record recordMeta regex world with
      | mk leftResult middle =>
          obtain ⟨before, leftMeans, early⟩ := leftIh replies.left leftRan
          simp only [matchesWith, leftRan] at ran
          split at ran
          next same =>
            cases same
            cases ran
            exact ⟨before, .orDecided (by simp) leftMeans right, early⟩
          next same =>
            cases same
            obtain ⟨after, rightMeans, late⟩ := rightIh replies.right ran
            exact ⟨before ++ after, .orRight leftMeans rightMeans, early.append late⟩
          next same =>
            cases same
            cases ran
            exact ⟨before, .orDecided (by simp) leftMeans right, early⟩
  | not inner ih =>
      cases innerRan : inner.matchesWith record recordMeta regex world with
      | mk innerResult after =>
          obtain ⟨asked, innerMeans, answered⟩ := ih replies innerRan
          simp only [matchesWith, innerRan] at ran
          cases ran
          exact ⟨asked, .not innerMeans, answered⟩

theorem matchesWith_of_means {condition : Condition F64} {asked : Asks}
    {result : Except MatchError Bool} (means : Meaning record recordMeta condition asked result)
    (replies : Replies regex reply condition.regexPatterns) {world last : World}
    (answered : Answered reply world asked last) :
    condition.matchesWith record recordMeta regex world = (result, last) := by
  induction means generalizing world last with
  | @asked field op literal asked asks answer =>
      rw [matchesWith_compare, asks]
      cases answered with
      | ask replied rest =>
          cases rest with
          | done =>
              have same := replies asked.1 (question_asked asks) asked.2 world
              rw [replied, Option.some.injEq] at same
              simp only [← same]
  | settled asksNothing =>
      rw [matchesWith_compare, asksNothing]
      cases answered with
      | done => rfl
  | @andDecided left before result decided _ right ih =>
      rw [regexPatterns, collectPatterns, collectPatterns_eq] at replies
      rw [matchesWith, ih replies.left answered]
      cases result with
      | error problem => rfl
      | ok value =>
          cases value with
          | true => exact absurd rfl decided
          | false => rfl
  | andRight _ _ leftIh rightIh =>
      rw [regexPatterns, collectPatterns, collectPatterns_eq] at replies
      obtain ⟨middle, early, late⟩ := answered.split
      rw [matchesWith, leftIh replies.left early]
      exact rightIh replies.right late
  | @orDecided left before result decided _ right ih =>
      rw [regexPatterns, collectPatterns, collectPatterns_eq] at replies
      rw [matchesWith, ih replies.left answered]
      cases result with
      | error problem => rfl
      | ok value =>
          cases value with
          | true => rfl
          | false => exact absurd rfl decided
  | orRight _ _ leftIh rightIh =>
      rw [regexPatterns, collectPatterns, collectPatterns_eq] at replies
      obtain ⟨middle, early, late⟩ := answered.split
      rw [matchesWith, leftIh replies.left early]
      exact rightIh replies.right late
  | not _ ih => rw [matchesWith, ih replies answered]

end Evaluating

namespace Compiled

variable {World Regex : Type} {facade : RegexFacade World Regex} {node : NodeConfig}
  {what source : String} {params : RegexParams} {parseFloat : List Char → Option F64}

/-- One compiled pattern for each name, and no other. -/
structure Loaded (facade : RegexFacade World Regex) (params : RegexParams)
    (patterns : List (String × Regex)) (names : List String) : Prop where
  distinct : (patterns.map Prod.fst).Nodup
  named : ∀ pattern, (Pairs.find pattern patterns).isSome = true ↔ pattern ∈ names
  compiled : ∀ pattern regex, Pairs.find pattern patterns = some regex →
    facade.withOptions params pattern = .ok regex

theorem Loaded.seen {patterns : List (String × Regex)} {names : List String}
    (loaded : Loaded facade params patterns names) {pattern : String}
    (held : (Pairs.find pattern patterns).isSome = true) :
    Loaded facade params patterns (names ++ [pattern]) := by
  refine ⟨loaded.distinct, ?_, loaded.compiled⟩
  intro other
  rw [loaded.named, List.mem_append, List.mem_singleton]
  have listed := (loaded.named pattern).mp held
  constructor
  · exact Or.inl
  · rintro (early | rfl)
    · exact early
    · exact listed

theorem Loaded.add {patterns : List (String × Regex)} {names : List String}
    (loaded : Loaded facade params patterns names) {pattern : String}
    (absent : ¬ (Pairs.find pattern patterns).isSome = true) {regex : Regex}
    (ready : facade.withOptions params pattern = .ok regex) :
    Loaded facade params (patterns ++ [(pattern, regex)]) (names ++ [pattern]) := by
  have none_ : Pairs.find pattern patterns = none := by simpa using absent
  refine ⟨?_, ?_, ?_⟩
  · rw [List.map_append, List.map_singleton, ← List.concat_eq_append]
    exact List.Nodup.concat (Pairs.not_mem_keys none_) loaded.distinct
  · intro other
    rw [Pairs.find_append, Option.isSome_or, Bool.or_eq_true, loaded.named, List.mem_append,
      List.mem_singleton, Pairs.find, Pairs.find]
    split
    next same => simp [same]
    next differs => simp [Ne.symm differs]
  · intro other held found
    rw [Pairs.find_append, Option.or_eq_some_iff] at found
    rcases found with early | ⟨_, late⟩
    · exact loaded.compiled other held early
    · rw [Pairs.find, Pairs.find] at late
      split at late
      next same =>
        cases late
        rw [← same]
        exact ready
      next => cases late

theorem compilePatterns_loaded {patterns final : List (String × Regex)} {names rest : List String}
    (loaded : Loaded facade params patterns names)
    (ran : compilePatterns facade node what params patterns rest = .ok final) :
    Loaded facade params final (names ++ rest) := by
  induction rest generalizing patterns names with
  | nil =>
      cases ran
      rw [List.append_nil]
      exact loaded
  | cons pattern rest ih =>
      rw [List.append_cons]
      rw [compilePatterns] at ran
      split at ran
      next held => exact ih (loaded.seen held) ran
      next absent =>
        split at ran
        next => cases ran
        next regex ready =>
          cases tried : facade.withOptions params pattern with
          | error problem => simp [RegexParams.compile, tried, Except.mapError] at ready
          | ok found =>
              simp only [RegexParams.compile, tried, Except.mapError, Except.ok.injEq] at ready
              subst ready
              exact ih (loaded.add absent tried) ran

theorem compile_loaded {compiled : Compiled Regex}
    (ran : compile facade parseFloat node source what params = .ok compiled) :
    Condition.parse parseFloat source = .ok compiled.condition ∧
      Loaded facade params compiled.patterns compiled.condition.regexPatterns := by
  unfold compile at ran
  split at ran
  next => cases ran
  next condition parsed =>
    split at ran
    next => cases ran
    next patterns ready =>
      cases ran
      have empty : Loaded facade params ([] : List (String × Regex)) [] :=
        ⟨List.nodup_nil, by simp [Pairs.find], by simp [Pairs.find]⟩
      exact ⟨parsed, compilePatterns_loaded empty ready⟩

variable (facade) in
def reply (compiled : Compiled Regex) (asked : Question) (world : World) :
    Option (Except MatchError Bool × World) :=
  (Pairs.find asked.1 compiled.patterns).map fun regex => facade.isMatch regex asked.2 world

theorem Loaded.replies {compiled : Compiled Regex}
    (loaded : Loaded facade params compiled.patterns compiled.condition.regexPatterns)
    (absent : Except MatchError Bool) :
    Replies (compiled.answer facade absent) (compiled.reply facade)
      compiled.condition.regexPatterns := by
  intro pattern member text world
  obtain ⟨regex, found⟩ := Option.isSome_iff_exists.mp ((loaded.named pattern).mpr member)
  simp only [reply, answer, found, Option.map_some]

/-- A condition that compiles has each of its patterns compiled, once, and evaluating it asks no
other: what stands for a missing pattern is never used. The result is what the condition means
left to right, found by asking the engine what that takes and nothing else. -/
theorem compile_matches {compiled : Compiled Regex}
    (ran : compile facade parseFloat node source what params = .ok compiled) :
    Condition.parse parseFloat source = .ok compiled.condition ∧
    Loaded facade params compiled.patterns compiled.condition.regexPatterns ∧
    ∀ (record : Record) (recordMeta : Meta) (world : World),
      (∀ absent, compiled.condition.matchesWith record recordMeta (compiled.answer facade absent) world =
        compiled.matches_ facade record recordMeta world) ∧
      (∀ result last, compiled.matches_ facade record recordMeta world = (result, last) ↔
        ∃ asked, Meaning record recordMeta compiled.condition asked result ∧
          Answered (compiled.reply facade) world asked last) ∧
      ∀ asked result, Meaning record recordMeta compiled.condition asked result →
        (∀ error, result = .error error → EndsAt error asked) ∧
        ∀ value held, result = .ok value →
          (∀ ask ∈ asked, ∀ matched, ask.2 = .ok matched → held ask.1 = matched) →
          compiled.condition.truth record recordMeta held = value := by
  obtain ⟨parsed, loaded⟩ := compile_loaded ran
  refine ⟨parsed, loaded, ?_⟩
  intro record recordMeta world
  have means : ∀ result last, compiled.matches_ facade record recordMeta world = (result, last) ↔
      ∃ asked, Meaning record recordMeta compiled.condition asked result ∧
        Answered (compiled.reply facade) world asked last := by
    intro result last
    constructor
    · exact matchesWith_means (loaded.replies _)
    · rintro ⟨asked, meansResult, answered⟩
      exact matchesWith_of_means meansResult (loaded.replies _) answered
  refine ⟨?_, means, ?_⟩
  · intro absent
    obtain ⟨asked, meansResult, answered⟩ := (means _ _).mp rfl
    exact matchesWith_of_means meansResult (loaded.replies absent) answered
  · intro asked result meansResult
    exact ⟨fun error => meansResult.endsAt, fun value held => meansResult.truth⟩

/-- An engine whose patterns find themselves, the bomb apart, and which counts its calls. -/
def literalText : RegexFacade Nat String where
  withOptions _ pattern := .ok pattern
  engine _ := .linear
  isMatch pattern text calls :=
    (if pattern = "bomb" then .error .matchLimit else .ok (pattern == text), calls + 1)

def calm : Condition F64 :=
  .and (.not (.compare ⟨.record ["level"]⟩ .match_ (.str "debug")))
    (.or (.compare ⟨.meta_ .tenant⟩ .notMatch (.str "debug"))
      (.compare ⟨.record ["level"]⟩ .match_ (.str "bomb")))

def warning : Record :=
  ⟨.object [("level", .string "warn")]⟩

theorem compile_matches_calm :
    ∃ asked, Meaning warning ⟨⟨1⟩, "acme", .clock 0, 1⟩ calm asked (.ok true) ∧
      Answered (reply literalText ⟨calm, [("debug", "debug"), ("bomb", "bomb")]⟩) 0 asked 2 := by
  have parsed : Condition.parse (fun _ => none) (String.ofList (calm.print fun _ => [])) = .ok calm :=
    parse_text _ _ (by simp [calm, Exact, Literal.Exact, CompareOp.isRegex, Literal.isStr])
      (by simp [calm, Named, FieldPath.Named])
  have ran : compile literalText (fun _ => none) ⟨"keep", "filter", ["source"], .null⟩
      (String.ofList (calm.print fun _ => [])) "condition"
      ⟨⟨none, none, none, none, none⟩, .reject⟩ =
        .ok ⟨calm, [("debug", "debug"), ("bomb", "bomb")]⟩ := by
    rw [compile, parsed]
    rfl
  exact (((compile_matches ran).2.2 warning _ 0).2.1 (.ok true) 2).mp (by decide)

theorem compile_noPanic (parseFloat : List Char → Option F64) (node : NodeConfig)
    (source what : String) (params : RegexParams) :
    compile facade parseFloat node source what params ≠ .error .panic := by
  have calm := (sliced_conditionParse parseFloat source).noPanic
  unfold compile
  split
  next fault failed =>
    cases fault with
    | panic => exact absurd failed calm
    | error problem => simp [Fault.mapError]
  next =>
    split
    · simp
    · simp

def conditions (facade : RegexFacade World Regex) (parseFloat : List Char → Option F64)
    (params : Yaml → Except String RegexParams) : Conditions World where
  params
  compile node source what regex :=
    match ran : compile facade parseFloat node source what regex with
    | .ok compiled => .ok ⟨compiled.matches_ facade, compiled.engine facade⟩
    | .error (.error error) => .error error
    | .error .panic => absurd ran (compile_noPanic parseFloat node source what regex)

theorem conditions_compile {params : Yaml → Except String RegexParams} {regex : RegexParams}
    {condition : CompiledCondition World} :
    (conditions facade parseFloat params).compile node source what regex = .ok condition ↔
      ∃ compiled, compile facade parseFloat node source what regex = .ok compiled ∧
        ⟨compiled.matches_ facade, compiled.engine facade⟩ = condition := by
  simp only [conditions]
  split
  next compiled ran => simp [ran]
  next error ran => simp [ran]
  next ran => exact absurd ran (compile_noPanic parseFloat node source what regex)

end Compiled

end Condition

end FusionPipeline
