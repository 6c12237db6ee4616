import FusionPipeline.DagValid
import FusionPipeline.Metrics

/-! A compiled pipeline: the validated graph with every node built into a stage or a sink.
Stages and sinks act on a world of their own: the state store, what was written, whatever
else decides what they answer. -/

namespace FusionPipeline

/-- A stage: no output when it panics. -/
structure Stage (World : Type) where
  process : Record → Context → World → Option StageOutput × World
  engineLabel : Option EngineLabel := none
  usesState : Bool := false
  onStateError : StateErrorPolicy := .nak

structure SinkError where
  message : String
  deriving DecidableEq, Repr

def SinkError.text (error : SinkError) : String :=
  "sink write failed: " ++ error.message

structure Outgoing where
  recordMeta : Meta
  record : Record

structure Sink (World : Type) where
  write : List Outgoing → World → Option (Except SinkError UInt64) × World

inductive CompiledNode (World : Type) where
  | stage (stage : Stage World)
  | sink (sink : Sink World)

def CompiledNode.engineLabel {World : Type} : CompiledNode World → Option EngineLabel
  | .stage built => built.engineLabel
  | .sink _ => none

structure Registry (World : Type) where
  stages : String → Option (NodeConfig → Except ConfigError (Stage World))
  sinks : String → Option (NodeConfig → Except ConfigError (Sink World))

section Compiling

variable {World : Type}

def Registry.build (registry : Registry World) (node : NodeConfig) :
    Except ConfigError (CompiledNode World) :=
  if node.isSink then
    match registry.sinks node.kind with
    | none => .error (.unknownType node.id node.kind)
    | some factory => (factory node).map .sink
  else
    match registry.stages node.kind with
    | none => .error (.unknownType node.id node.kind)
    | some factory => (factory node).map .stage

def Registry.buildAll (registry : Registry World) :
    List NodeConfig → Except ConfigError (List (CompiledNode World))
  | [] => .ok []
  | node :: rest =>
      match registry.build node with
      | .error error => .error error
      | .ok built => (buildAll registry rest).map fun others => built :: others

theorem buildAll_length {registry : Registry World} {nodes : List NodeConfig}
    {built : List (CompiledNode World)} (ok : registry.buildAll nodes = .ok built) :
    built.length = nodes.length := by
  induction nodes generalizing built with
  | nil =>
      simp only [Registry.buildAll, Except.ok.injEq] at ok
      simp [← ok]
  | cons node rest ih =>
      simp only [Registry.buildAll] at ok
      split at ok
      next => cases ok
      next first _ =>
        obtain ⟨others, builtOthers, rfl⟩ := Fallible.map_ok_iff.mp ok
        simp [ih builtOthers]

/-- Every edge of the graph goes to a later node of it. -/
structure Dag.Forward (dag : Dag) : Prop where
  edges : ∀ i, ∀ edge ∈ dag.edgesOf i, i < edge.target ∧ edge.target < dag.nodes.length
  sources : ∀ i ∈ dag.sourceSuccessors, i < dag.nodes.length

theorem fromConfig_forward {deserializer : Deserializer} {config : Config} {dag : Dag}
    (built : Dag.fromConfig deserializer config = .ok dag) : dag.Forward := by
  obtain ⟨_, _, _, _, _, reachable, progress, visited, rfl⟩ := fromConfig_ok_iff.mp built
  have topological := topological_of_postOrder ((unreachable_none_iff _).mp reachable) visited
  refine ⟨assemble_upward topological, ?_⟩
  intro index member
  obtain ⟨i, _, rfl⟩ := List.mem_map.mp member
  have bound := (List.getElem?_eq_some_iff.mp (topological.at_newIndex i)).1
  simpa [Dag.assemble] using bound

/-- A compiled pipeline, whose graph comes with what validation gave it. -/
structure Pipeline (World : Type) where
  name : String
  dag : Dag
  nodes : List (CompiledNode World)
  workers : Option Nat
  aligned : nodes.length = dag.nodes.length
  forward : dag.Forward

namespace Pipeline

def compile (deserializer : Deserializer) (registry : Registry World) (config : Config) :
    Except ConfigError (Pipeline World) :=
  match validated : Dag.fromConfig deserializer config with
  | .error error => .error error
  | .ok dag =>
      match built : registry.buildAll dag.nodes with
      | .error error => .error error
      | .ok nodes => .ok {
          name := config.name
          dag
          nodes
          workers := config.workers
          aligned := buildAll_length built
          forward := fromConfig_forward validated }

def fromYaml (deserializer : Deserializer) (registry : Registry World) (yaml : String) :
    Except ConfigError (Pipeline World) :=
  match Config.fromYaml deserializer yaml with
  | .error error => .error error
  | .ok config => compile deserializer registry config

def usesState (pipeline : Pipeline World) : Bool :=
  pipeline.nodes.any fun node =>
    match node with
    | .stage stage => stage.usesState
    | .sink _ => false

def node? (pipeline : Pipeline World) (index : NodeIndex) : Option (CompiledNode World) :=
  pipeline.nodes[index]?

end Pipeline

theorem compile_ok {deserializer : Deserializer} {registry : Registry World} {config : Config}
    {pipeline : Pipeline World} (compiled : Pipeline.compile deserializer registry config = .ok pipeline) :
    Dag.fromConfig deserializer config = .ok pipeline.dag ∧
      registry.buildAll pipeline.dag.nodes = .ok pipeline.nodes := by
  simp only [Pipeline.compile] at compiled
  split at compiled
  next => cases compiled
  next dag validated =>
    split at compiled
    next => cases compiled
    next nodes built =>
      obtain rfl := Except.ok.inj compiled
      exact ⟨validated, built⟩

end Compiling

end FusionPipeline
