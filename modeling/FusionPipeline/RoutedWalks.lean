import FusionPipeline.ConditionMeaning
import FusionPipeline.WalkVisits

/-! Routes inside the graph: every label a route emits is consumed, so its walks never meet a
label without consumer. -/

namespace FusionPipeline

open DepthFirst

section Built

variable {World : Type} {registry : Registry World} {deserializer : Deserializer}

theorem buildAll_get {nodes : List NodeConfig} {built : List (CompiledNode World)}
    (all : registry.buildAll nodes = .ok built) {index : Nat} {node : NodeConfig}
    (found : nodes[index]? = some node) :
    ∃ compiled, built[index]? = some compiled ∧ registry.build node = .ok compiled := by
  induction nodes generalizing built index with
  | nil => simp at found
  | cons head rest ih =>
      simp only [Registry.buildAll] at all
      split at all
      next => cases all
      next first builtFirst =>
        obtain ⟨others, builtOthers, rfl⟩ := Fallible.map_ok_iff.mp all
        cases index with
        | zero =>
            obtain rfl : head = node := by simpa using found
            exact ⟨first, rfl, builtFirst⟩
        | succ index => exact ih builtOthers found

theorem buildAll_of_builds {nodes : List NodeConfig}
    (each : ∀ node ∈ nodes, ∃ built, registry.build node = .ok built) :
    ∃ built, registry.buildAll nodes = .ok built := by
  induction nodes with
  | nil => exact ⟨[], rfl⟩
  | cons node rest ih =>
      obtain ⟨⟨first, here⟩, others⟩ := List.forall_mem_cons.mp each
      obtain ⟨built, there⟩ := ih others
      exact ⟨first :: built, by rw [Registry.buildAll, here, there]; rfl⟩

theorem compile_of_builds {config : Config} {dag : Dag} (named : WellNamed [] config.nodes)
    (accepted : Dag.fromConfig deserializer config = .ok dag)
    (each : ∀ node ∈ config.nodes, ∃ built, registry.build node = .ok built) :
    ∃ pipeline, Pipeline.compile deserializer registry config = .ok pipeline := by
  have describes := fromConfig_describes named accepted
  obtain ⟨nodes, built⟩ := buildAll_of_builds fun node member =>
    each node (describes.permuted.mem_iff.mp member)
  simp only [Pipeline.compile]
  split
  next error failed => cases accepted.symm.trans failed
  next other validated =>
    obtain rfl := Except.ok.inj (accepted.symm.trans validated)
    split
    next error failed => cases built.symm.trans failed
    next => exact ⟨_, rfl⟩

theorem route_notSink {node : NodeConfig} (isRoute : node.kind = routeKind) :
    node.isSink = false := by
  rw [NodeConfig.isSink, isRoute]
  decide

theorem label_consumed {config : Config} {dag : Dag} (named : WellNamed [] config.nodes)
    (accepted : Dag.fromConfig deserializer config = .ok dag) {node : NodeConfig}
    (member : node ∈ config.nodes) (isRoute : node.kind = routeKind) {spec : RouteSpec}
    (parsed : RouteSpec.fromNode deserializer node = .ok spec) {label : String}
    (declared : label ∈ spec.labels) {index : NodeIndex} (found : dag.node? index = some node) :
    (dag.consumers index (some label)).isEmpty = false := by
  have valid := (fromConfig_ok_iff_valid named).mp ⟨dag, accepted⟩
  have describes := fromConfig_describes named accepted
  obtain ⟨consumer, isNode, entry, isEntry, reads⟩ :=
    valid.consumed node member isRoute spec parsed label declared
  have isReader : (consumer, some label) ∈ readers config.nodes node.id :=
    List.mem_flatMap.mpr ⟨consumer, isNode, List.mem_filterMap.mpr ⟨entry, isEntry, by simp [reads]⟩⟩
  have edges := describes.outEdges index node found
  rw [route_notSink isRoute, if_neg Bool.false_ne_true] at edges
  have isEdge : (some consumer, some label) ∈
      (dag.edgesOf index).map fun edge => (dag.node? edge.target, edge.label) := by
    rw [edges]
    exact List.mem_map.mpr ⟨_, isReader, rfl⟩
  obtain ⟨edge, onEdge, same⟩ := List.mem_map.mp isEdge
  rw [Dag.consumers, List.isEmpty_map, List.isEmpty_eq_false_iff_exists_mem]
  exact ⟨edge, List.mem_filter.mpr ⟨onEdge, decide_eq_true (Prod.mk.inj same).2⟩⟩

end Built

section Routed

variable {World : Type} {walker : Walker World} {deserializer : Deserializer}
  {conditions : Conditions World}

theorem attend_routed {route : Route World} {index : NodeIndex} {recordMeta : Meta}
    (bound : index < walker.pipeline.dag.nodes.length)
    (compiled : walker.pipeline.node? index = some (.stage route.stage))
    (consumed : ∀ record context world label routed,
      (route.process record context world).1 = .routed label routed →
        (walker.pipeline.dag.consumers index (some label)).isEmpty = false)
    {count : Nat} {task : Task} {world : World} (at_ : task.index = index) :
    (walker.attend recordMeta count task world).1.outcome ≠ .panicked ∧
      ∀ label, (walker.attend recordMeta count task world).1.outcome ≠ .unrouted label := by
  subst at_
  have node : walker.pipeline.dag.node? task.index = some walker.pipeline.dag.nodes[task.index] :=
    List.getElem?_eq_getElem bound
  simp only [Walker.attend, node, compiled, Walker.judge, Route.stage]
  generalize emitted : (route.process _ _ _).1 = output
  cases output with
  | routed label routed =>
      simp [Outcome.ofStage, consumed _ _ _ _ _ emitted]
  | _ => simp [Outcome.ofStage]

/-- For every route of an accepted config: its rules are its declaration's in order, each with the
condition declared under its label, and the first that does not refuse decides, else the default;
every label it emits has a consumer in the graph; and no walk's visit of it is unrouted or panics. -/
theorem route_decides {registry : Registry World} {yaml : String} {config : Config}
    (loaded : Config.fromYaml deserializer yaml = .ok config)
    (compiled : Pipeline.compile deserializer registry config = .ok walker.pipeline)
    (registered : registry.stages routeKind = some (Route.build deserializer conditions))
    {node : NodeConfig} (member : node ∈ config.nodes) (isRoute : node.kind = routeKind) :
    ∃ (spec : RouteSpec) (regex : RegexParams) (route : Route World) (index : NodeIndex),
      RouteSpec.fromNode deserializer node = .ok spec ∧
      conditions.params node.params = .ok regex ∧
      Route.fromNode deserializer conditions node = .ok route ∧
      List.Forall₂ (Route.Compiles conditions node regex) spec.routes route.rules ∧
      route.fallback = spec.fallback ∧
      walker.pipeline.dag.node? index = some node ∧
      walker.pipeline.node? index = some (.stage route.stage) ∧
      (∀ record context world,
        route.Decides record context world (route.process record context world).1) ∧
      (∀ record context world label routed,
        (route.process record context world).1 = .routed label routed →
          label ∈ spec.labels ∧ label ≠ dropDefault ∧ routed = record ∧
          (walker.pipeline.dag.consumers index (some label)).isEmpty = false ∧
          walker.pipeline.dag.label? index label = some label) ∧
      ∀ recordMeta agenda count world visits last halted,
        Served (walker.service recordMeta) agenda count world visits last halted →
          ∀ visit ∈ visits, visit.task.index = index →
            visit.outcome ≠ .panicked ∧ ∀ label, visit.outcome ≠ .unrouted label := by
  have named := fromYaml_wellNamed loaded
  obtain ⟨accepted, built⟩ := compile_ok compiled
  have describes := fromConfig_describes named accepted
  obtain ⟨index, bound, here⟩ := List.getElem_of_mem (describes.permuted.mem_iff.mpr member)
  have found : walker.pipeline.dag.node? index = some node := by
    rw [Dag.node?, List.getElem?_eq_getElem bound, here]
  obtain ⟨node', compiledHere, builtHere⟩ := buildAll_get built found
  rw [Registry.build, route_notSink isRoute, if_neg Bool.false_ne_true, isRoute, registered] at builtHere
  obtain ⟨stage, builtStage, rfl⟩ := Fallible.map_ok_iff.mp builtHere
  obtain ⟨route, builtRoute, rfl⟩ := Fallible.map_ok_iff.mp builtStage
  obtain ⟨spec, regex, parsed, params, each, fallback⟩ := Route.fromNode_spec builtRoute
  have consumed : ∀ record context world label routed,
      (route.process record context world).1 = .routed label routed →
        (walker.pipeline.dag.consumers index (some label)).isEmpty = false := by
    intro record context world label routed emitted
    have declared := (Route.process_routed builtRoute parsed emitted).1
    exact label_consumed named accepted member isRoute parsed declared found
  refine ⟨spec, regex, route, index, parsed, params, builtRoute, each, fallback, found, compiledHere,
    Route.process_decides route, ?_, ?_⟩
  · intro record context world label other emitted
    obtain ⟨declared, notDrop, same⟩ := Route.process_routed builtRoute parsed emitted
    have here := consumed record context world label other emitted
    exact ⟨declared, notDrop, same, here, label?_of_consumers here⟩
  · intro recordMeta agenda count world visits last halted served
    refine served.invariant (fun _ => True)
      (fun visit => visit.task.index = index →
        visit.outcome ≠ .panicked ∧ ∀ label, visit.outcome ≠ .unrouted label)
      (fun count given world _ => ⟨fun at_ => ?_, fun _ _ => trivial⟩) (fun _ _ => trivial)
    exact attend_routed bound compiledHere consumed
      ((congrArg Task.index (walker.attend_task recordMeta count given world)).symm.trans at_)

end Routed

def splitLinux : Deserializer where
  config _ := .ok {
    name := some "logs"
    workers := none
    source := none
    nodes := [⟨"split", "route", none, .null⟩,
      ⟨"linux", "sink.memory", some (.one "split.linux"), .null⟩,
      ⟨"rest", "sink.memory", some (.one "split.rest"), .null⟩] }
  routeParams _ := .ok ⟨[(.string "linux", .string "message =~ '(.)\\1'")], "rest"⟩

def outOfMemory : Conditions Unit where
  params _ := .ok ⟨⟨none, none, none, none, none⟩, .reject⟩
  compile _ _ _ _ := .ok ⟨fun _ _ world => (.error .outOfMemory, world), some .backtracking⟩

def splitting (deserializer : Deserializer) {World : Type} (conditions : Conditions World) :
    Registry World where
  stages kind := if kind = routeKind then some (Route.build deserializer conditions) else none
  sinks kind :=
    if kind = "sink.memory" then some fun _ => .ok ⟨fun _ world => (some (.ok 1), world)⟩ else none

def splitNode : NodeConfig :=
  ⟨"split", "route", ["source"], .mapping []⟩

theorem splitting_compiles : ∃ config pipeline,
    Config.fromYaml splitLinux "name: logs" = .ok config ∧ splitNode ∈ config.nodes ∧
      Pipeline.compile splitLinux (splitting splitLinux outOfMemory) config = .ok pipeline := by
  obtain ⟨config, loaded, member⟩ : ∃ config,
      Config.fromYaml splitLinux "name: logs" = .ok config ∧ splitNode ∈ config.nodes :=
    ⟨_, rfl, .head _⟩
  have compiles : ((Config.fromYaml splitLinux "name: logs").toOption.any fun config =>
      (Pipeline.compile splitLinux (splitting splitLinux outOfMemory) config).isOk) = true := by
    decide +kernel
  rw [loaded] at compiles
  cases compiled : Pipeline.compile splitLinux (splitting splitLinux outOfMemory) config with
  | error error => simp [compiled, Except.toOption, Except.isOk, Except.toBool] at compiles
  | ok pipeline => exact ⟨config, pipeline, loaded, member, compiled⟩

/-- A condition on one word, on an engine whose patterns match themselves. -/
def mentionsLinux : Condition F64 :=
  .compare ⟨.record ["message"]⟩ .match_ (.str "linux")

def unlimited : RegexParams :=
  ⟨⟨none, none, none, none, none⟩, .reject⟩

def literally : Conditions Nat :=
  Condition.Compiled.conditions Condition.Compiled.literalText (fun _ => none) fun _ => .ok unlimited

def linuxRule : Rule Nat :=
  ⟨"linux", ⟨Condition.Compiled.matches_ Condition.Compiled.literalText
    ⟨mentionsLinux, [("linux", "linux")]⟩, some .linear⟩⟩

def splitPrinted : Deserializer :=
  { splitLinux with
    routeParams := fun _ => .ok ⟨[(.string "linux", .string ".message =~ \"linux\"")], "rest"⟩ }

theorem literally_compiles {regex : RegexParams} {condition : CompiledCondition Nat} :
    literally.compile splitNode ".message =~ \"linux\"" "route `linux`" regex = .ok condition ↔
      linuxRule.condition = condition := by
  have exact_ : mentionsLinux.Exact := by
    simp [mentionsLinux, Condition.Exact, Literal.Exact, CompareOp.isRegex, Literal.isStr]
  have named : mentionsLinux.Named := by simp [mentionsLinux, Condition.Named, FieldPath.Named]
  have parsed : Condition.parse (fun _ => none) ".message =~ \"linux\"" = .ok mentionsLinux :=
    Condition.parse_text (fun _ => none) (fun _ => []) exact_ named
  have ran : Condition.Compiled.compile Condition.Compiled.literalText (fun _ => none) splitNode
      ".message =~ \"linux\"" "route `linux`" regex = .ok ⟨mentionsLinux, [("linux", "linux")]⟩ := by
    rw [Condition.Compiled.compile, parsed]
    rfl
  rw [literally, Condition.Compiled.conditions_compile]
  simp only [ran, Except.ok.injEq, exists_eq_left']
  rfl

def printedRoute : Route Nat :=
  ⟨[linuxRule], .label "rest", some .linear⟩

theorem printedRoute_built : Route.fromNode splitPrinted literally splitNode = .ok printedRoute := by
  have spec : RouteSpec.fromNode splitPrinted splitNode =
      .ok ⟨[⟨"linux", ".message =~ \"linux\""⟩], .label "rest"⟩ := rfl
  have params : literally.params splitNode.params = .ok unlimited := rfl
  have rule : literally.compile splitNode ".message =~ \"linux\"" ("route `" ++ "linux" ++ "`")
      unlimited = .ok linuxRule.condition :=
    literally_compiles.mpr rfl
  have rules : Route.compileRules literally splitNode unlimited
      [⟨"linux", ".message =~ \"linux\""⟩] = .ok [linuxRule] := by
    rw [Route.compileRules, rule]
    rfl
  simp only [Route.fromNode, spec, params, rules]
  rfl

theorem splitPrinted_compiles : ∃ config pipeline,
    Config.fromYaml splitPrinted "name: logs" = .ok config ∧ splitNode ∈ config.nodes ∧
      Pipeline.compile splitPrinted (splitting splitPrinted literally) config = .ok pipeline := by
  obtain ⟨config, loaded, nodes⟩ : ∃ config,
      Config.fromYaml splitPrinted "name: logs" = .ok config ∧ config.nodes =
        [splitNode, ⟨"linux", "sink.memory", ["split.linux"], .mapping []⟩,
          ⟨"rest", "sink.memory", ["split.rest"], .mapping []⟩] :=
    ⟨_, rfl, rfl⟩
  have accepts : ((Config.fromYaml splitPrinted "name: logs").toOption.any fun config =>
      (Dag.fromConfig splitPrinted config).isOk) = true := by
    decide +kernel
  rw [loaded] at accepts
  cases accepted : Dag.fromConfig splitPrinted config with
  | error error => simp [accepted, Except.toOption, Except.isOk, Except.toBool] at accepts
  | ok dag =>
      have builds : ∀ node ∈ config.nodes,
          ∃ built, (splitting splitPrinted literally).build node = .ok built := by
        rw [nodes]
        intro node member
        simp only [List.mem_cons, List.not_mem_nil, or_false] at member
        rcases member with rfl | rfl | rfl
        · refine ⟨.stage printedRoute.stage, ?_⟩
          change ((Route.fromNode splitPrinted literally splitNode).map Route.stage).map _ = _
          rw [printedRoute_built]
          rfl
        · exact ⟨_, rfl⟩
        · exact ⟨_, rfl⟩
      obtain ⟨pipeline, compiled⟩ := compile_of_builds (fromYaml_wellNamed loaded) accepted builds
      exact ⟨config, pipeline, loaded, by rw [nodes]; exact .head _, compiled⟩

theorem route_decides_split : ∃ (config : Config) (pipeline : Pipeline Nat) (spec : RouteSpec)
    (regex : RegexParams) (route : Route Nat) (index : NodeIndex),
    Config.fromYaml splitPrinted "name: logs" = .ok config ∧
      RouteSpec.fromNode splitPrinted splitNode = .ok spec ∧
      spec.routes = [⟨"linux", ".message =~ \"linux\""⟩] ∧
      Route.fromNode splitPrinted literally splitNode = .ok route ∧
      List.Forall₂ (Route.Compiles literally splitNode regex) spec.routes route.rules ∧
      pipeline.node? index = some (.stage route.stage) ∧
      ∀ context, ∃ linux other : Record,
        (route.process linux context 0).1 = .routed "linux" linux ∧
        (pipeline.dag.consumers index (some "linux")).isEmpty = false ∧
        (route.process other context 0).1 = .routed "rest" other ∧
        (pipeline.dag.consumers index (some "rest")).isEmpty = false := by
  obtain ⟨config, pipeline, loaded, member, compiled⟩ := splitPrinted_compiles
  let walker : Walker Nat :=
    ⟨pipeline, ⟨false, ⟨none⟩⟩, ⟨fun world => (0, world), fun world => (0, world)⟩⟩
  have compiles : Pipeline.compile splitPrinted (splitting splitPrinted literally) config =
      .ok walker.pipeline := compiled
  obtain ⟨spec, regex, route, index, parsed, _, built, each, _, _, here, _, routed, _⟩ :=
    route_decides loaded compiles rfl member rfl
  obtain rfl : printedRoute = route := Except.ok.inj (printedRoute_built.symm.trans built)
  obtain rfl : ⟨[⟨"linux", ".message =~ \"linux\""⟩], .label "rest"⟩ = spec := Except.ok.inj parsed
  refine ⟨config, pipeline, _, regex, _, index, loaded, parsed, rfl, built, each, here, ?_⟩
  intro context
  have linux : (printedRoute.process ⟨.object [("message", .string "linux")]⟩ context 0).1 =
      .routed "linux" ⟨.object [("message", .string "linux")]⟩ := rfl
  have other : (printedRoute.process ⟨.object [("message", .string "bsd")]⟩ context 0).1 =
      .routed "rest" ⟨.object [("message", .string "bsd")]⟩ := rfl
  exact ⟨_, _, linux, (routed _ _ _ _ _ linux).2.2.2.1, other, (routed _ _ _ _ _ other).2.2.2.1⟩

/-- When the engine fails on the only rule, the route of an accepted config neither emits its
default label nor drops the record: it answers with an error. -/
theorem route_errs_without_engine : ∃ (config : Config) (dag : Dag) (route : Route Unit),
    Config.fromYaml splitLinux "name: logs" = .ok config ∧ splitNode ∈ config.nodes ∧
      Dag.fromConfig splitLinux config = .ok dag ∧
      Route.fromNode splitLinux outOfMemory splitNode = .ok route ∧
      route.fallback = .label "rest" ∧
      ∃ context, (route.process ⟨.null⟩ context ()).1 =
          .error ⟨"node `split`: regex engine failed"⟩ ∧
        (∀ label record, (route.process ⟨.null⟩ context ()).1 ≠ .routed label record) ∧
        ∀ reason, (route.process ⟨.null⟩ context ()).1 ≠ .drop reason := by
  obtain ⟨config, pipeline, loaded, member, compiled⟩ := splitting_compiles
  let context : Context :=
    ⟨"split", ⟨⟨1⟩, "acme", .reported 0, 1⟩, State.new "logs" "acme" "split" false⟩
  obtain ⟨route, built, fallback, fails⟩ : ∃ route : Route Unit,
      Route.fromNode splitLinux outOfMemory splitNode = .ok route ∧ route.fallback = .label "rest" ∧
        (route.process ⟨.null⟩ context ()).1 = .error ⟨"node `split`: regex engine failed"⟩ :=
    ⟨_, rfl, rfl, rfl⟩
  refine ⟨config, pipeline.dag, route, loaded, member, (compile_ok compiled).1, built, fallback,
    context, fails, ?_, ?_⟩
  all_goals simp [fails]

end FusionPipeline
