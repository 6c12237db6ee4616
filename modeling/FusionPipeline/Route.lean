import FusionPipeline.Pipeline

/-! The route stage: a record goes down the first label whose condition holds, else the
default. What a compiled condition answers is left to the condition. -/

namespace FusionPipeline

inductive MatchError where
  | matchLimit
  | depthLimit
  | heapLimit
  | workLimit
  | inputTooLarge (length limit : Nat)
  | outOfMemory
  | engine (code : Int) (message : String)
  deriving DecidableEq, Repr

def MatchError.isLimit : MatchError → Bool
  | outOfMemory => false
  | engine _ _ => false
  | _ => true

/-- A tripped limit is a drop; anything else is a stage error. -/
def matchFailure (node : String) : MatchError → StageOutput
  | .matchLimit => .drop .regexLimit
  | .depthLimit => .drop .regexLimit
  | .heapLimit => .drop .regexLimit
  | .workLimit => .drop .regexLimit
  | .inputTooLarge _ _ => .drop .regexLimit
  | _ => .error ⟨"node `" ++ node ++ "`: regex engine failed"⟩

structure LimitsParams where
  match_ : Option UInt32
  depth : Option UInt32
  heapKib : Option UInt32
  work : Option UInt32
  inputBytes : Option UInt64
  deriving DecidableEq, Repr

inductive RedosRiskParam where
  | reject
  | warn
  deriving DecidableEq, Repr

structure RegexParams where
  limits : LimitsParams
  onRedosRisk : RedosRiskParam
  deriving DecidableEq, Repr

inductive Engine where
  | linear
  | backtracking
  deriving DecidableEq, Repr

def Engine.label : Engine → EngineLabel
  | linear => .linear
  | backtracking => .backtracking

def worstEngine (engines : List Engine) : Option Engine :=
  if engines.isEmpty then none
  else if engines.contains .backtracking then some .backtracking
  else some .linear

structure CompiledCondition (World : Type) where
  matches_ : Record → Meta → World → Except MatchError Bool × World
  engine : Option Engine

structure Conditions (World : Type) where
  params : Yaml → Except String RegexParams
  compile : NodeConfig → String → String → RegexParams → Except ConfigError (CompiledCondition World)

structure Rule (World : Type) where
  label : String
  condition : CompiledCondition World

structure Route (World : Type) where
  rules : List (Rule World)
  fallback : Fallback
  engine : Option EngineLabel

namespace Route

variable {World : Type}

def compileRules (conditions : Conditions World) (node : NodeConfig) (regex : RegexParams) :
    List RouteRule → Except ConfigError (List (Rule World))
  | [] => .ok []
  | rule :: rest =>
      match conditions.compile node rule.condition ("route `" ++ rule.label ++ "`") regex with
      | .error error => .error error
      | .ok condition =>
          (compileRules conditions node regex rest).map fun rules => ⟨rule.label, condition⟩ :: rules

def fromNode (deserializer : Deserializer) (conditions : Conditions World) (node : NodeConfig) :
    Except ConfigError (Route World) :=
  match RouteSpec.fromNode deserializer node with
  | .error error => .error error
  | .ok spec =>
      match conditions.params node.params with
      | .error message => .error (node.invalidParams message)
      | .ok regex =>
          (compileRules conditions node regex spec.routes).map fun rules => {
            rules
            fallback := spec.fallback
            engine := (worstEngine (rules.filterMap fun rule => rule.condition.engine)).map
              Engine.label }

def ask (fallback : Fallback) (record : Record) (context : Context) :
    List (Rule World) → World → StageOutput × World
  | [], world =>
      match fallback with
      | .label label => (.routed label record, world)
      | .drop => (.drop .routeDefaultDrop, world)
  | rule :: rules, world =>
      match rule.condition.matches_ record context.recordMeta world with
      | (.ok true, world) => (.routed rule.label record, world)
      | (.ok false, world) => ask fallback record context rules world
      | (.error error, world) => (matchFailure context.nodeId error, world)

def process (route : Route World) (record : Record) (context : Context) (world : World) :
    StageOutput × World :=
  ask route.fallback record context route.rules world

def stage (route : Route World) : Stage World where
  process record context world :=
    let (output, world) := route.process record context world
    (some output, world)
  engineLabel := route.engine

def build (deserializer : Deserializer) (conditions : Conditions World) (node : NodeConfig) :
    Except ConfigError (Stage World) :=
  (fromNode deserializer conditions node).map stage

/-- A rule as its declaration has it: under its label, with its condition compiled. -/
structure Compiles (conditions : Conditions World) (node : NodeConfig) (regex : RegexParams)
    (declared : RouteRule) (rule : Rule World) : Prop where
  label : rule.label = declared.label
  condition : conditions.compile node declared.condition ("route `" ++ declared.label ++ "`") regex =
    .ok rule.condition

theorem compileRules_compiles {conditions : Conditions World} {node : NodeConfig}
    {regex : RegexParams} {specs : List RouteRule} {rules : List (Rule World)}
    (compiled : compileRules conditions node regex specs = .ok rules) :
    List.Forall₂ (Compiles conditions node regex) specs rules := by
  induction specs generalizing rules with
  | nil =>
      simp only [compileRules, Except.ok.injEq] at compiled
      exact compiled ▸ .nil
  | cons spec specs ih =>
      simp only [compileRules] at compiled
      split at compiled
      next => cases compiled
      next condition here =>
        obtain ⟨others, compiledOthers, rfl⟩ := Fallible.map_ok_iff.mp compiled
        exact .cons ⟨rfl, here⟩ (ih compiledOthers)

theorem labels_of_compiles {conditions : Conditions World} {node : NodeConfig} {regex : RegexParams}
    {specs : List RouteRule} {rules : List (Rule World)}
    (each : List.Forall₂ (Compiles conditions node regex) specs rules) :
    rules.map Rule.label = specs.map RouteRule.label := by
  induction each with
  | nil => rfl
  | cons compiles _ ih => rw [List.map_cons, List.map_cons, compiles.label, ih]

theorem fromNode_spec {deserializer : Deserializer} {conditions : Conditions World}
    {node : NodeConfig} {route : Route World}
    (built : fromNode deserializer conditions node = .ok route) :
    ∃ spec regex, RouteSpec.fromNode deserializer node = .ok spec ∧
      conditions.params node.params = .ok regex ∧
      List.Forall₂ (Compiles conditions node regex) spec.routes route.rules ∧
      route.fallback = spec.fallback := by
  simp only [fromNode] at built
  split at built
  next => cases built
  next spec parsed =>
    split at built
    next => cases built
    next regex params =>
      obtain ⟨rules, compiled, rfl⟩ := Fallible.map_ok_iff.mp built
      exact ⟨spec, regex, parsed, params, compileRules_compiles compiled, rfl⟩

def Refused (record : Record) (recordMeta : Meta) : List (Rule World) → World → World → Prop
  | [], world, last => world = last
  | rule :: rules, world, last =>
      ∃ next, rule.condition.matches_ record recordMeta world = (.ok false, next) ∧
        Refused record recordMeta rules next last

/-- What a route answers: the first rule in order that does not refuse decides, by its label
if its condition holds and by its failure if not; the default when every rule refuses. -/
inductive Decides (route : Route World) (record : Record) (context : Context) (world : World) :
    StageOutput → Prop where
  | holds {before after : List (Rule World)} {rule : Rule World} {next last : World}
      (split : route.rules = before ++ rule :: after)
      (refused : Refused record context.recordMeta before world next)
      (holds : rule.condition.matches_ record context.recordMeta next = (.ok true, last)) :
      Decides route record context world (.routed rule.label record)
  | limit {before after : List (Rule World)} {rule : Rule World} {next last : World}
      {error : MatchError} (split : route.rules = before ++ rule :: after)
      (refused : Refused record context.recordMeta before world next)
      (fails : rule.condition.matches_ record context.recordMeta next = (.error error, last))
      (isLimit : error.isLimit = true) :
      Decides route record context world (.drop .regexLimit)
  | failure {before after : List (Rule World)} {rule : Rule World} {next last : World}
      {error : MatchError} (split : route.rules = before ++ rule :: after)
      (refused : Refused record context.recordMeta before world next)
      (fails : rule.condition.matches_ record context.recordMeta next = (.error error, last))
      (notLimit : error.isLimit = false) :
      Decides route record context world
        (.error ⟨"node `" ++ context.nodeId ++ "`: regex engine failed"⟩)
  | label {label : String} {last : World} (isDefault : route.fallback = .label label)
      (refused : Refused record context.recordMeta route.rules world last) :
      Decides route record context world (.routed label record)
  | drop {last : World} (isDefault : route.fallback = .drop)
      (refused : Refused record context.recordMeta route.rules world last) :
      Decides route record context world (.drop .routeDefaultDrop)

section Deciding

variable {route : Route World} {record : Record} {context : Context} {world : World}

theorem ask_refused (fallback : Fallback) {before : List (Rule World)} (rest : List (Rule World))
    {world next : World}
    (refused : Refused record context.recordMeta before world next) :
    ask fallback record context (before ++ rest) world = ask fallback record context rest next := by
  induction before generalizing world with
  | nil =>
      obtain rfl : world = next := refused
      rfl
  | cons rule before ih =>
      obtain ⟨middle, refuses, others⟩ := refused
      rw [List.cons_append, ask, refuses]
      exact ih others

theorem refused_or_first (record : Record) (recordMeta : Meta) (rules : List (Rule World))
    (world : World) :
    (∃ last, Refused record recordMeta rules world last) ∨
    ∃ before rule after next answer last, rules = before ++ rule :: after ∧
      Refused record recordMeta before world next ∧
      rule.condition.matches_ record recordMeta next = (answer, last) ∧ answer ≠ .ok false := by
  induction rules generalizing world with
  | nil => exact .inl ⟨world, rfl⟩
  | cons rule rules ih =>
      rcases asked : rule.condition.matches_ record recordMeta world with ⟨answer, next⟩
      by_cases refuses : answer = .ok false
      · subst refuses
        rcases ih next with
          ⟨last, refused⟩ | ⟨before, first, after, middle, answer, last, split, refused, decides⟩
        · exact .inl ⟨last, next, asked, refused⟩
        · exact .inr ⟨rule :: before, first, after, middle, answer, last, by rw [split, List.cons_append],
            ⟨next, asked, refused⟩, decides⟩
      · exact .inr ⟨[], rule, rules, world, answer, next, rfl, rfl, asked, refuses⟩

theorem matchFailure_eq (node : String) (error : MatchError) :
    matchFailure node error = if error.isLimit then .drop .regexLimit
      else .error ⟨"node `" ++ node ++ "`: regex engine failed"⟩ := by
  cases error <;> rfl

theorem process_decides (route : Route World) (record : Record) (context : Context)
    (world : World) : route.Decides record context world (route.process record context world).1 := by
  rcases refused_or_first record context.recordMeta route.rules world with
    ⟨last, refused⟩ | ⟨before, rule, after, next, answer, last, split, refused, asked, decides⟩
  · have asks := ask_refused route.fallback [] refused
    rw [List.append_nil] at asks
    rw [process, asks]
    cases isDefault : route.fallback with
    | label label => exact .label isDefault refused
    | drop => exact .drop isDefault refused
  · rw [process, split, ask_refused _ _ refused, ask, asked]
    rcases answer with error | holds
    · simp only [matchFailure_eq]
      cases isLimit : error.isLimit with
      | true => exact .limit split refused asked isLimit
      | false => exact .failure split refused asked isLimit
    · cases holds with
      | true => exact .holds split refused asked
      | false => exact absurd rfl decides

theorem decides_iff {output : StageOutput} :
    route.Decides record context world output ↔ (route.process record context world).1 = output := by
  refine ⟨fun decides => ?_, fun same => same ▸ process_decides route record context world⟩
  cases decides with
  | holds split refused holds => rw [process, split, ask_refused _ _ refused, ask, holds]
  | limit split refused fails isLimit =>
      rw [process, split, ask_refused _ _ refused, ask, fails]
      exact (matchFailure_eq _ _).trans (if_pos isLimit)
  | failure split refused fails notLimit =>
      rw [process, split, ask_refused _ _ refused, ask, fails]
      exact (matchFailure_eq _ _).trans (if_neg (Bool.eq_false_iff.mp notLimit))
  | label isDefault refused =>
      have asks := ask_refused route.fallback [] refused
      rw [List.append_nil] at asks
      rw [process, asks, isDefault]
      rfl
  | drop isDefault refused =>
      have asks := ask_refused route.fallback [] refused
      rw [List.append_nil] at asks
      rw [process, asks, isDefault]
      rfl

/-- A route emits its declaration's labels only, `drop` never, and hands the record on as it came. -/
theorem process_routed {deserializer : Deserializer} {conditions : Conditions World}
    {node : NodeConfig} {spec : RouteSpec} (built : fromNode deserializer conditions node = .ok route)
    (parsed : RouteSpec.fromNode deserializer node = .ok spec) {label : String} {routed : Record}
    (emitted : (route.process record context world).1 = .routed label routed) :
    label ∈ spec.labels ∧ label ≠ dropDefault ∧ routed = record := by
  obtain ⟨other, _, parsedToo, _, each, fallback⟩ := fromNode_spec built
  obtain rfl : other = spec := Except.ok.inj (parsedToo.symm.trans parsed)
  have labels := labels_of_compiles each
  have decides := decides_iff.mpr emitted
  suffices declared : label ∈ other.labels ∧ routed = record from
    ⟨declared.1, fun same => RouteSpec.fromNode_labels parsed (same ▸ declared.1), declared.2⟩
  rw [RouteSpec.mem_labels]
  cases decides with
  | holds split _ _ =>
      refine ⟨.inl ?_, rfl⟩
      have member : _ ∈ route.rules.map Rule.label :=
        List.mem_map_of_mem (split ▸ List.mem_append_right _ List.mem_cons_self)
      rw [labels] at member
      exact List.mem_map.mp member
  | label isDefault _ => exact ⟨.inr (fallback ▸ isDefault), rfl⟩

end Deciding

end Route

end FusionPipeline
