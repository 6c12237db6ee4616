import FusionPipeline.Condition
import FusionPipeline.Library.Fallible

/-! The grammar of conditions over tokens, and the parser against it. -/

namespace FusionPipeline

variable {Float : Type}

inductive LiteralToken : Tok Float → Literal Float → Prop where
  | str (s : String) : LiteralToken (.str s) (.str s)
  | int (n : Int) : LiteralToken (.int n) (.int n)
  | float (f : Float) : LiteralToken (.float f) (.float f)
  | true_ : LiteralToken (.ident "true") (.bool true)
  | false_ : LiteralToken (.ident "false") (.bool false)
  | null : LiteralToken (.ident "null") .null

inductive Level where
  | or
  | and
  | not
  | primary

/-- The derivations of the grammar with the tree each one builds. `not` is reserved where an
operand starts; `and` and `or` are paths there. -/
inductive Derives : Level → List (Token Float) → Condition Float → Prop where
  | orOne {tokens : List (Token Float)} {condition : Condition Float}
      (one : Derives .and tokens condition) : Derives .or tokens condition
  | orMore {before after : List (Token Float)} {left right : Condition Float} {token : Token Float}
      (first : Derives .or before left) (isOr : token.tok = .ident "or")
      (last : Derives .and after right) :
      Derives .or (before ++ token :: after) (.or left right)
  | andOne {tokens : List (Token Float)} {condition : Condition Float}
      (one : Derives .not tokens condition) : Derives .and tokens condition
  | andMore {before after : List (Token Float)} {left right : Condition Float} {token : Token Float}
      (first : Derives .and before left) (isAnd : token.tok = .ident "and")
      (last : Derives .not after right) :
      Derives .and (before ++ token :: after) (.and left right)
  | notNot {tokens : List (Token Float)} {condition : Condition Float} {token : Token Float}
      (isNot : token.tok = .ident "not") (inner : Derives .not tokens condition) :
      Derives .not (token :: tokens) (.not condition)
  | notPrimary {tokens : List (Token Float)} {condition : Condition Float} {token : Token Float}
      (notReserved : token.tok ≠ .ident "not") (one : Derives .primary (token :: tokens) condition) :
      Derives .not (token :: tokens) condition
  | group {tokens : List (Token Float)} {condition : Condition Float} {opener closer : Token Float}
      (opens : opener.tok = .lParen) (inner : Derives .or tokens condition)
      (closes : closer.tok = .rParen) : Derives .primary (opener :: tokens ++ [closer]) condition
  | compare {path operator operand : Token Float} {name : String} {field : FieldPath}
      {op : CompareOp} {literal : Literal Float} (named : path.tok = .ident name ∨ path.tok = .path name)
      (isPath : FieldPath.parse name = .ok field) (isOp : operator.tok = .op op)
      (isLiteral : LiteralToken operand.tok literal) (pattern : op.isRegex = true → literal.isStr = true) :
      Derives .primary [path, operator, operand] (.compare field op literal)

namespace Parser

theorem isKeyword_iff (keyword : String) (token : Token Float) :
    isKeyword keyword token = true ↔ token.tok = .ident keyword := by
  rw [isKeyword]
  cases token.tok <;> simp

theorem literalOf_iff (token : Token Float) (literal : Literal Float) :
    literalOf token = some literal ↔ LiteralToken token.tok literal := by
  rw [literalOf]
  generalize token.tok = tok
  constructor
  · intro found
    cases tok with
    | str s =>
        rw [← Option.some.inj found]
        exact LiteralToken.str s
    | int n =>
        rw [← Option.some.inj found]
        exact LiteralToken.int n
    | float f =>
        rw [← Option.some.inj found]
        exact LiteralToken.float f
    | ident name =>
        dsimp only at found
        split at found
        next isTrue =>
          rw [isTrue, ← Option.some.inj found]
          exact LiteralToken.true_
        · split at found
          next isFalse =>
            rw [isFalse, ← Option.some.inj found]
            exact LiteralToken.false_
          · split at found
            next isNull =>
              rw [isNull, ← Option.some.inj found]
              exact LiteralToken.null
            · cases found
    | path name => cases found
    | op op => cases found
    | lParen => cases found
    | rParen => cases found
  · intro isLiteral
    cases isLiteral with
    | str s => rfl
    | int n => rfl
    | float f => rfl
    | true_ => rfl
    | false_ => rfl
    | null => rfl

def outcome {Value : Type} {bound : Nat}
    (result : Except (Fault ConditionError) (Parsed Float Value bound)) :
    Except (Fault ConditionError) (Value × List (Token Float)) :=
  result.map fun parsed => (parsed.value, parsed.rest)

theorem outcome_ok {Value : Type} {bound : Nat}
    {result : Except (Fault ConditionError) (Parsed Float Value bound)} {value : Value}
    {rest : List (Token Float)} :
    outcome result = .ok (value, rest) ↔ ∃ shorter, result = .ok ⟨value, rest, shorter⟩ := by
  rw [outcome, Fallible.map_ok_iff]
  constructor
  · rintro ⟨⟨found, later, shorter⟩, rfl, same⟩
    obtain ⟨rfl, rfl⟩ := Prod.mk.inj same
    exact ⟨shorter, rfl⟩
  · rintro ⟨shorter, rfl⟩
    exact ⟨_, rfl, rfl⟩

theorem or_eq (tokens : List (Token Float)) :
    outcome (or tokens) = (outcome (and tokens)).bind fun (left, rest) => outcome (orLoop left rest) := by
  rw [or]
  rcases and tokens with fault | ⟨left, rest, shorter⟩
  · rfl
  · dsimp only [outcome, Except.map, Except.bind]
    rcases orLoop left rest with fault | ⟨value, later, noLonger⟩ <;> rfl

theorem and_eq (tokens : List (Token Float)) :
    outcome (and tokens) =
      (outcome (not tokens)).bind fun (left, rest) => outcome (andLoop left rest) := by
  rw [and]
  rcases not tokens with fault | ⟨left, rest, shorter⟩
  · rfl
  · dsimp only [outcome, Except.map, Except.bind]
    rcases andLoop left rest with fault | ⟨value, later, noLonger⟩ <;> rfl

theorem orLoop_more {left : Condition Float} {token : Token Float} (isOr : token.tok = .ident "or")
    (rest : List (Token Float)) :
    outcome (orLoop left (token :: rest)) =
      (outcome (and rest)).bind fun (right, later) => outcome (orLoop (.or left right) later) := by
  rw [orLoop, if_pos ((isKeyword_iff "or" token).mpr isOr)]
  rcases and rest with fault | ⟨right, later, shorter⟩
  · rfl
  · dsimp only [outcome, Except.map, Except.bind]
    rcases orLoop (.or left right) later with fault | ⟨value, last, noLonger⟩ <;> rfl

theorem andLoop_more {left : Condition Float} {token : Token Float}
    (isAnd : token.tok = .ident "and") (rest : List (Token Float)) :
    outcome (andLoop left (token :: rest)) =
      (outcome (not rest)).bind fun (right, later) => outcome (andLoop (.and left right) later) := by
  rw [andLoop, if_pos ((isKeyword_iff "and" token).mpr isAnd)]
  rcases not rest with fault | ⟨right, later, shorter⟩
  · rfl
  · dsimp only [outcome, Except.map, Except.bind]
    rcases andLoop (.and left right) later with fault | ⟨value, last, noLonger⟩ <;> rfl

def Ends (keyword : String) (rest : List (Token Float)) : Prop :=
  ∀ token, rest.head? = some token → token.tok ≠ .ident keyword

theorem orLoop_ends {left : Condition Float} {rest : List (Token Float)} (ends : Ends "or" rest) :
    outcome (orLoop left rest) = .ok (left, rest) := by
  cases rest with
  | nil =>
      rw [orLoop]
      rfl
  | cons token rest =>
      rw [orLoop, if_neg (fun keyword => ends token rfl ((isKeyword_iff "or" token).mp keyword))]
      rfl

theorem andLoop_ends {left : Condition Float} {rest : List (Token Float)} (ends : Ends "and" rest) :
    outcome (andLoop left rest) = .ok (left, rest) := by
  cases rest with
  | nil =>
      rw [andLoop]
      rfl
  | cons token rest =>
      rw [andLoop, if_neg (fun keyword => ends token rfl ((isKeyword_iff "and" token).mp keyword))]
      rfl

theorem not_keyword {token : Token Float} (isNot : token.tok = .ident "not")
    (rest : List (Token Float)) :
    outcome (not (token :: rest)) =
      (outcome (not rest)).bind fun (inner, later) => .ok (.not inner, later) := by
  rw [not, if_pos ((isKeyword_iff "not" token).mpr isNot)]
  rcases not rest with fault | ⟨inner, later, shorter⟩ <;> rfl

theorem not_primary {token : Token Float} (notReserved : token.tok ≠ .ident "not")
    (rest : List (Token Float)) : outcome (not (token :: rest)) = outcome (primary token rest) := by
  rw [not, if_neg (fun keyword => notReserved ((isKeyword_iff "not" token).mp keyword))]

theorem primary_group {opener : Token Float} (opens : opener.tok = .lParen)
    {rest later : List (Token Float)} {condition : Condition Float} :
    outcome (primary opener rest) = .ok (condition, later) ↔
      ∃ closer : Token Float, closer.tok = .rParen ∧
        outcome (or rest) = .ok (condition, closer :: later) := by
  rw [primary, opens]
  dsimp only
  constructor
  · intro read
    split at read
    · cases read
    · cases read
    next inner closer more shorter isGroup =>
      split at read
      next closes =>
        obtain ⟨rfl, rfl⟩ := Prod.mk.inj (Except.ok.inj read)
        refine ⟨closer, closes, ?_⟩
        rw [isGroup]
        rfl
      next => cases read
  · rintro ⟨closer, closes, isGroup⟩
    obtain ⟨shorter, isGroup⟩ := outcome_ok.mp isGroup
    rw [isGroup]
    dsimp only
    split
    next => rfl
    next other => exact absurd closes other

theorem comparison_ok {field : FieldPath} {tokens later : List (Token Float)}
    {condition : Condition Float} :
    outcome (comparison field tokens) = .ok (condition, later) ↔
      ∃ (operator operand : Token Float) (op : CompareOp) (literal : Literal Float),
        tokens = operator :: operand :: later ∧ operator.tok = .op op ∧
          LiteralToken operand.tok literal ∧ (op.isRegex = true → literal.isStr = true) ∧
          condition = .compare field op literal := by
  constructor
  · intro read
    cases tokens with
    | nil => cases read
    | cons operator rest =>
        rw [comparison] at read
        split at read
        next op isOp =>
          cases rest with
          | nil => cases read
          | cons operand last =>
              dsimp only at read
              split at read
              next => cases read
              next literal isLiteral =>
                split at read
                next => cases read
                next allowed =>
                  obtain ⟨rfl, rfl⟩ := Prod.mk.inj (Except.ok.inj read)
                  refine ⟨operator, operand, op, literal, rfl, isOp,
                    (literalOf_iff operand literal).mp isLiteral, ?_, rfl⟩
                  intro isRegex
                  by_contra notString
                  rw [isRegex, Bool.eq_false_iff.mpr notString] at allowed
                  exact allowed rfl
        next => cases read
  · rintro ⟨operator, operand, op, literal, rfl, isOp, isLiteral, pattern, rfl⟩
    rw [comparison, isOp]
    dsimp only
    rw [(literalOf_iff operand literal).mpr isLiteral]
    dsimp only
    rw [if_neg]
    · rfl
    · intro refused
      obtain ⟨isRegex, notString⟩ := Bool.and_eq_true_iff.mp refused
      rw [pattern isRegex] at notString
      cases notString

theorem primary_path {path : Token Float} {name : String}
    (named : path.tok = .ident name ∨ path.tok = .path name) {rest later : List (Token Float)}
    {condition : Condition Float} :
    outcome (primary path rest) = .ok (condition, later) ↔
      ∃ field, FieldPath.parse name = .ok field ∧
        outcome (comparison field rest) = .ok (condition, later) := by
  cases parsed : FieldPath.parse name with
  | error fault =>
      have failed : outcome (primary path rest) =
          .error (fault.mapError (ConditionError.field path.offset)) := by
        rcases named with named | named
        · rw [primary, named]
          dsimp only
          rw [parsed]
          rfl
        · rw [primary, named]
          dsimp only
          rw [parsed]
          rfl
      rw [failed]
      constructor
      · intro read
        cases read
      · rintro ⟨_, same, _⟩
        cases same
  | ok field =>
      have body : outcome (primary path rest) = outcome (comparison field rest) := by
        rcases named with named | named
        · rw [primary, named]
          dsimp only
          rw [parsed]
          dsimp only
          rcases comparison field rest with fault | ⟨value, more, shorter⟩ <;> rfl
        · rw [primary, named]
          dsimp only
          rw [parsed]
          dsimp only
          rcases comparison field rest with fault | ⟨value, more, shorter⟩ <;> rfl
      rw [body]
      constructor
      · intro read
        exact ⟨field, rfl, read⟩
      · rintro ⟨_, same, read⟩
        obtain rfl := Except.ok.inj same
        exact read

theorem primary_cases {token : Token Float} {rest later : List (Token Float)}
    {condition : Condition Float} (read : outcome (primary token rest) = .ok (condition, later)) :
    token.tok = .lParen ∨ ∃ name, token.tok = .ident name ∨ token.tok = .path name := by
  rw [primary] at read
  split at read
  next opens => exact .inl opens
  next name named => exact .inr ⟨name, .inl named⟩
  next name named => exact .inr ⟨name, .inr named⟩
  next => cases read

section Soundness

def Sound (level : Level)
    (read : List (Token Float) → Except (Fault ConditionError) (Condition Float × List (Token Float)))
    (bound : Nat) : Prop :=
  ∀ tokens condition later, tokens.length < bound → read tokens = .ok (condition, later) →
    ∃ used, tokens = used ++ later ∧ Derives level used condition

variable {level inner : Level} {keyword : String}
  {join : Condition Float → Condition Float → Condition Float}
  {operand : List (Token Float) →
    Except (Fault ConditionError) (Condition Float × List (Token Float))}
  {loop : Condition Float → List (Token Float) →
    Except (Fault ConditionError) (Condition Float × List (Token Float))}
  (more : ∀ left token rest, token.tok = .ident keyword →
    loop left (token :: rest) = (operand rest).bind fun (right, later) => loop (join left right) later)
  (ends : ∀ left rest, Ends keyword rest → loop left rest = .ok (left, rest))
  (joins : ∀ {before after left right token}, Derives level before left →
    token.tok = .ident keyword → Derives inner after right →
    Derives level (before ++ token :: after) (join left right))
include more ends joins

theorem loop_sound {bound : Nat} (sound : Sound inner operand bound) {front : List (Token Float)}
    {left condition : Condition Float} {tokens later : List (Token Float)}
    (short : tokens.length ≤ bound) (derived : Derives level front left)
    (read : loop left tokens = .ok (condition, later)) :
    ∃ used, tokens = used ++ later ∧ Derives level (front ++ used) condition := by
  induction size : tokens.length using Nat.strongRecOn generalizing tokens front left with
  | ind length ih =>
      by_cases goes : ∃ token rest, tokens = token :: rest ∧ token.tok = .ident keyword
      · obtain ⟨token, rest, rfl, isKeyword⟩ := goes
        rw [more left token rest isKeyword] at read
        obtain ⟨⟨right, middle⟩, isOperand, goesOn⟩ := Fallible.bind_ok_iff.mp read
        rw [List.length_cons] at size short
        obtain ⟨second, rfl, derivedRight⟩ := sound rest right middle (by omega) isOperand
        rw [List.length_append] at size short
        obtain ⟨last, rfl, whole⟩ := ih middle.length (by omega) (by omega)
          (joins derived isKeyword derivedRight) goesOn rfl
        refine ⟨token :: second ++ last, by simp, ?_⟩
        rwa [← List.append_assoc]
      · have stops : Ends keyword tokens := by
          intro token first isKeyword
          obtain ⟨rest, rfl⟩ := List.head?_eq_some_iff.mp first
          exact goes ⟨token, rest, rfl, isKeyword⟩
        rw [ends left tokens stops, Except.ok.injEq] at read
        obtain ⟨rfl, rfl⟩ := Prod.mk.inj read
        exact ⟨[], rfl, by rwa [List.append_nil]⟩

theorem level_sound {bound : Nat} (sound : Sound inner operand bound)
    (one : ∀ {tokens : List (Token Float)} {condition : Condition Float},
      Derives inner tokens condition → Derives level tokens condition) :
    Sound level (fun tokens => (operand tokens).bind fun (left, rest) => loop left rest) bound := by
  intro tokens condition later short read
  obtain ⟨⟨left, rest⟩, isOperand, goesOn⟩ := Fallible.bind_ok_iff.mp read
  obtain ⟨front, rfl, derived⟩ := sound tokens left rest short isOperand
  rw [List.length_append] at short
  obtain ⟨used, rfl, whole⟩ := loop_sound more ends joins sound (by omega) (one derived) goesOn
  exact ⟨front ++ used, by rw [List.append_assoc], whole⟩

end Soundness

section Readers

variable {bound : Nat}
  (sound : Sound .not (fun tokens : List (Token Float) => outcome (not tokens)) bound)
include sound

theorem and_sound : Sound .and (fun tokens : List (Token Float) => outcome (and tokens)) bound := by
  have level := level_sound (fun left token rest isAnd => andLoop_more isAnd rest)
    (fun left rest ends => andLoop_ends ends) Derives.andMore sound Derives.andOne
  intro tokens condition later short read
  dsimp only at read
  rw [and_eq] at read
  exact level tokens condition later short read

theorem or_sound : Sound .or (fun tokens : List (Token Float) => outcome (or tokens)) bound := by
  have level := level_sound (fun left token rest isOr => orLoop_more isOr rest)
    (fun left rest ends => orLoop_ends ends) Derives.orMore (and_sound sound) Derives.orOne
  intro tokens condition later short read
  dsimp only at read
  rw [or_eq] at read
  exact level tokens condition later short read

theorem primary_sound {token : Token Float} {rest later : List (Token Float)}
    {condition : Condition Float} (short : rest.length < bound)
    (read : outcome (primary token rest) = .ok (condition, later)) :
    ∃ used, rest = used ++ later ∧ Derives .primary (token :: used) condition := by
  rcases primary_cases read with opens | ⟨name, named⟩
  · obtain ⟨closer, closes, isGroup⟩ := (primary_group opens).mp read
    obtain ⟨used, rfl, inner⟩ := or_sound sound rest condition (closer :: later) short isGroup
    exact ⟨used ++ [closer], by simp, Derives.group opens inner closes⟩
  · obtain ⟨field, isPath, isComparison⟩ := (primary_path named).mp read
    obtain ⟨operator, operand, op, literal, rfl, isOp, isLiteral, pattern, rfl⟩ :=
      comparison_ok.mp isComparison
    exact ⟨[operator, operand], rfl, Derives.compare named isPath isOp isLiteral pattern⟩

end Readers

/-- The readers call each other on fewer tokens only. -/
theorem not_sound (bound : Nat) :
    Sound .not (fun tokens : List (Token Float) => outcome (not tokens)) bound := by
  induction bound with
  | zero =>
      intro tokens condition later short
      omega
  | succ bound ih =>
      intro tokens condition later short read
      dsimp only at read
      cases tokens with
      | nil =>
          rw [not] at read
          cases read
      | cons token rest =>
          rw [List.length_cons] at short
          by_cases isNot : token.tok = .ident "not"
          · rw [not_keyword isNot] at read
            obtain ⟨⟨inner, middle⟩, isOperand, goesOn⟩ := Fallible.bind_ok_iff.mp read
            obtain ⟨rfl, rfl⟩ := Prod.mk.inj (Except.ok.inj goesOn)
            obtain ⟨used, rfl, derived⟩ := ih rest inner middle (by omega) isOperand
            exact ⟨token :: used, rfl, Derives.notNot isNot derived⟩
          · rw [not_primary isNot] at read
            obtain ⟨used, rfl, derived⟩ := primary_sound ih (by omega) read
            exact ⟨token :: used, rfl, Derives.notPrimary isNot derived⟩

/-- What the readers do with the tokens of a derivation and any that follow: the loops get the
rest with the tree built so far. -/
def Takes : Level → List (Token Float) → Condition Float → Prop
  | .or, tokens, condition =>
      ∀ rest, Ends "and" rest → outcome (or (tokens ++ rest)) = outcome (orLoop condition rest)
  | .and, tokens, condition =>
      ∀ rest, outcome (and (tokens ++ rest)) = outcome (andLoop condition rest)
  | .not, tokens, condition => ∀ rest, outcome (not (tokens ++ rest)) = .ok (condition, rest)
  | .primary, tokens, condition =>
      ∃ token more, tokens = token :: more ∧
        ∀ rest, outcome (primary token (more ++ rest)) = .ok (condition, rest)

theorem ends_of_tok {keyword : String} {token : Token Float} {rest : List (Token Float)}
    (other : token.tok ≠ .ident keyword) : Ends keyword (token :: rest) := by
  intro first isFirst
  obtain rfl := Option.some.inj isFirst
  exact other

theorem takes_of_derives {level : Level} {tokens : List (Token Float)} {condition : Condition Float}
    (derived : Derives level tokens condition) : Takes level tokens condition := by
  induction derived with
  | orOne one ih =>
      intro rest ends
      rw [or_eq, ih rest, andLoop_ends ends]
      rfl
  | @orMore before after left right token first isOr last ihFirst ihLast =>
      intro rest ends
      have next : Ends "and" (token :: (after ++ rest)) := by
        refine ends_of_tok ?_
        rw [isOr]
        simp
      rw [List.append_assoc, List.cons_append, ihFirst _ next, orLoop_more isOr, ihLast rest,
        andLoop_ends ends]
      rfl
  | andOne one ih =>
      intro rest
      rw [and_eq, ih rest]
      rfl
  | @andMore before after left right token first isAnd last ihFirst ihLast =>
      intro rest
      rw [List.append_assoc, List.cons_append, ihFirst, andLoop_more isAnd, ihLast rest]
      rfl
  | notNot isNot inner ih =>
      intro rest
      rw [List.cons_append, not_keyword isNot, ih rest]
      rfl
  | notPrimary notReserved one ih =>
      intro rest
      obtain ⟨token, more, same, read⟩ := ih
      obtain ⟨rfl, rfl⟩ := List.cons.inj same
      rw [List.cons_append, not_primary notReserved, read rest]
  | @group tokens condition opener closer opens inner closes ih =>
      refine ⟨opener, tokens ++ [closer], rfl, ?_⟩
      intro rest
      have notAnd : Ends "and" (closer :: rest) := by
        refine ends_of_tok ?_
        rw [closes]
        simp
      have notOr : Ends "or" (closer :: rest) := by
        refine ends_of_tok ?_
        rw [closes]
        simp
      rw [List.append_assoc, List.singleton_append]
      refine (primary_group opens).mpr ⟨closer, closes, ?_⟩
      rw [ih _ notAnd, orLoop_ends notOr]
  | @compare path operator operand name field op literal named isPath isOp isLiteral pattern =>
      refine ⟨path, [operator, operand], rfl, ?_⟩
      intro rest
      refine (primary_path named).mpr ⟨field, isPath, ?_⟩
      exact comparison_ok.mpr ⟨operator, operand, op, literal, rfl, isOp, isLiteral, pattern, rfl⟩

/-- The parser takes all of a token sequence exactly when it derives from the grammar, and the
tree is the derivation's. -/
theorem or_ok_iff (tokens : List (Token Float)) (condition : Condition Float) :
    (∃ shorter, or tokens = .ok ⟨condition, [], shorter⟩) ↔ Derives .or tokens condition := by
  rw [← outcome_ok]
  constructor
  · intro read
    obtain ⟨used, same, derived⟩ :=
      or_sound (not_sound (tokens.length + 1)) tokens condition [] (Nat.lt_succ_self _) read
    rw [List.append_nil] at same
    rwa [same]
  · intro derived
    have noMore (keyword : String) : Ends keyword ([] : List (Token Float)) := by
      intro token first
      cases first
    have read := takes_of_derives derived [] (noMore "and")
    rwa [List.append_nil, orLoop_ends (noMore "or")] at read

end Parser

theorem Condition.parse_ok {parseFloat : List Char → Option Float} {expr : String}
    {tokens : List (Token Float)} {condition : Condition Float}
    (lexed : lex parseFloat expr.toList = .ok tokens) (derives : Derives .or tokens condition) :
    Condition.parse parseFloat expr = .ok condition := by
  obtain ⟨shorter, read⟩ := (Parser.or_ok_iff tokens condition).mpr derives
  rw [parse, lexed]
  dsimp only
  rw [read]

end FusionPipeline
