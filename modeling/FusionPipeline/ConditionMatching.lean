import FusionPipeline.ConditionPrinting
import FusionPipeline.ConditionSlices
import FusionPipeline.Library.Oracle
import FusionPipeline.Numbers
import FusionPipeline.Route

/-! A condition compiled for a stage, and evaluated against a record: the regex engine is asked
for the patterns of the `=~` and `!~` leaves, left to right. -/

namespace FusionPipeline

namespace FieldValue

def order : FieldValue → Literal F64 → Option Ordering
  | .num left, .int right => left.partialCmp (.int right)
  | .num left, .float right => left.partialCmp (.float right)
  | .str left, .str right => some (Ord.compare left right)
  | _, _ => none

def equals : FieldValue → Literal F64 → Bool
  | .null, .null => true
  | .bool left, .bool right => left == right
  | .str left, .str right => left == right
  | .num left, .int right => order (.num left) (.int right) == some .eq
  | .num left, .float right => order (.num left) (.float right) == some .eq
  | _, _ => false

def compare (value : FieldValue) (op : CompareOp) (literal : Literal F64) : Bool :=
  match op with
  | .eq => equals value literal
  | .ne => !equals value literal
  | .lt => (order value literal).any Ordering.isLT
  | .gt => (order value literal).any Ordering.isGT
  | .le => (order value literal).any Ordering.isLE
  | .ge => (order value literal).any Ordering.isGE
  | .match_ => false
  | .notMatch => false

end FieldValue

namespace Condition

def collectPatterns (out : List String) : Condition F64 → List String
  | .compare _ op literal =>
      match op, literal with
      | .match_, .str pattern => out ++ [pattern]
      | .notMatch, .str pattern => out ++ [pattern]
      | _, _ => out
  | .and left right => collectPatterns (collectPatterns out left) right
  | .or left right => collectPatterns (collectPatterns out left) right
  | .not inner => collectPatterns out inner

def regexPatterns (condition : Condition F64) : List String :=
  condition.collectPatterns []

section Matching

variable {World Error : Type} (record : Record) (recordMeta : Meta)
  (regex : String → String → World → Except Error Bool × World)

def matchesPattern (field : FieldPath) (op : CompareOp) (pattern : String) (world : World) :
    Except Error Bool × World :=
  let (matched, world) :=
    match field.read record recordMeta with
    | .str text => regex pattern text world
    | _ => (.ok false, world)
  (matched.map fun matched => if op = .match_ then matched else !matched, world)

def matchesWith : Condition F64 → World → Except Error Bool × World
  | .compare field op literal, world =>
      match op, literal with
      | .match_, .str pattern => matchesPattern record recordMeta regex field op pattern world
      | .notMatch, .str pattern => matchesPattern record recordMeta regex field op pattern world
      | _, _ => (.ok ((field.read record recordMeta).compare op literal), world)
  | .and left right, world =>
      match matchesWith left world with
      | (.ok true, world) => matchesWith right world
      | (.ok false, world) => (.ok false, world)
      | (.error error, world) => (.error error, world)
  | .or left right, world =>
      match matchesWith left world with
      | (.ok true, world) => (.ok true, world)
      | (.ok false, world) => matchesWith right world
      | (.error error, world) => (.error error, world)
  | .not inner, world =>
      let (result, world) := matchesWith inner world
      (result.map Bool.not, world)

end Matching

end Condition

structure RegexFacade (World Regex : Type) where
  withOptions : RegexParams → String → Except String Regex
  engine : Regex → Engine
  isMatch : Regex → String → World → Except MatchError Bool × World

def RegexParams.compile {World Regex : Type} (facade : RegexFacade World Regex)
    (params : RegexParams) (node : NodeConfig) (what pattern : String) : Except ConfigError Regex :=
  (facade.withOptions params pattern).mapError fun error =>
    node.invalidParams (what ++ " `" ++ pattern ++ "`: " ++ error)

namespace Condition

structure Compiled (Regex : Type) where
  condition : Condition F64
  patterns : List (String × Regex)

namespace Compiled

variable {World Regex : Type} (facade : RegexFacade World Regex)

def compilePatterns (node : NodeConfig) (what : String) (params : RegexParams) :
    List (String × Regex) → List String → Except ConfigError (List (String × Regex))
  | patterns, [] => .ok patterns
  | patterns, pattern :: rest =>
      if (Pairs.find pattern patterns).isSome then compilePatterns node what params patterns rest
      else
        match params.compile facade node what pattern with
        | .error error => .error error
        | .ok regex => compilePatterns node what params (patterns ++ [(pattern, regex)]) rest

def compile (parseFloat : List Char → Option F64) (node : NodeConfig) (source what : String)
    (params : RegexParams) : Except (Fault ConfigError) (Compiled Regex) :=
  match Condition.parse parseFloat source with
  | .error fault =>
      .error (fault.mapError fun error =>
        node.invalidParams (what ++ " `" ++ source ++ "`: " ++ error.text))
  | .ok condition =>
      match compilePatterns facade node what params [] condition.regexPatterns with
      | .error error => .error (.error error)
      | .ok patterns => .ok ⟨condition, patterns⟩

def answer (compiled : Compiled Regex) (absent : Except MatchError Bool) (pattern text : String)
    (world : World) : Except MatchError Bool × World :=
  match Pairs.find pattern compiled.patterns with
  | none => (absent, world)
  | some regex => facade.isMatch regex text world

def matches_ (compiled : Compiled Regex) (record : Record) (recordMeta : Meta) (world : World) :
    Except MatchError Bool × World :=
  compiled.condition.matchesWith record recordMeta (compiled.answer facade (.ok false)) world

def engine (compiled : Compiled Regex) : Option Engine :=
  worstEngine (compiled.patterns.map fun (_, regex) => facade.engine regex)

end Compiled

end Condition

end FusionPipeline
