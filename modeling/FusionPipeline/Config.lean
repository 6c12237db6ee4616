import FusionPipeline.Library.Fallible
import FusionPipeline.Library.Text
import FusionPipeline.Record

/-! The pipeline config: its nodes in file order, with `from` resolved. -/

namespace FusionPipeline

inductive YamlNumber where
  | posInt (value : UInt64)
  | negInt (value : Int64)
  | float (value : F64)
  deriving DecidableEq, Repr

inductive Yaml where
  | null
  | bool (value : Bool)
  | number (value : YamlNumber)
  | string (value : String)
  | sequence (values : List Yaml)
  | mapping (entries : List (Yaml × Yaml))
  | tagged (tag : String) (value : Yaml)
  deriving Inhabited

def Yaml.asStr : Yaml → Option String
  | string value => some value
  | tagged _ value => value.asStr
  | _ => none

def sourceId : String := "source"

def defaultName : String := "pipeline"

inductive ConfigError where
  | yaml (message : String)
  | reservedId (node : String)
  | dottedId (node : String)
  | colonId (node : String)
  | colonName (name : String)
  | duplicateId (node : String)
  | unknownFrom (node target : String)
  | routeNeedsLabel (node route : String)
  | notARoute (node target label : String)
  | unknownRouteLabel (node route label : String)
  | unconsumedRouteLabel (route label : String)
  | cycle (node : String)
  | unreachable (node : String)
  | noSink
  | unknownType (node kind : String)
  | invalidParams (node message : String)
  deriving DecidableEq, Repr

def ConfigError.text : ConfigError → String
  | yaml message => "config is not valid YAML: " ++ message
  | reservedId node => "node id `" ++ node ++ "` is reserved"
  | dottedId node =>
      "node id `" ++ node ++ "` contains a dot; `from` reads `<node>.<label>` so ids cannot"
  | colonId node =>
      "node id `" ++ node ++ "` contains a colon; state keys are " ++
        "`\x7bpipeline\x7d:\x7btenant\x7d:\x7bnode\x7d:...`, so ids cannot"
  | colonName name =>
      "pipeline name `" ++ name ++ "` contains a colon; state keys are " ++
        "`\x7bpipeline\x7d:\x7btenant\x7d:\x7bnode\x7d:...`, so names cannot"
  | duplicateId node => "node id `" ++ node ++ "` is declared more than once"
  | unknownFrom node target =>
      "node `" ++ node ++ "` reads from `" ++ target ++ "`, which does not exist"
  | routeNeedsLabel node route =>
      "node `" ++ node ++ "` reads from route `" ++ route ++ "` without a label; use `" ++ route ++
        ".<label>` (a node with no `from` reads from the node before it)"
  | notARoute node target label =>
      "node `" ++ node ++ "` reads label `" ++ label ++ "` from `" ++ target ++
        "`, which is not a route"
  | unknownRouteLabel node route label =>
      "node `" ++ node ++ "` reads label `" ++ label ++ "` from route `" ++ route ++
        "`, which does not declare it"
  | unconsumedRouteLabel route label =>
      "route `" ++ route ++ "` label `" ++ label ++ "` is never consumed; add a node with `from: " ++
        route ++ "." ++ label ++ "`, remove the rule, or if it is only the default use `default: drop`"
  | cycle node => "node `" ++ node ++ "` is part of a cycle"
  | unreachable node => "node `" ++ node ++ "` is unreachable from `source`"
  | noSink => "pipeline has no sink node"
  | unknownType node kind => "node `" ++ node ++ "` has unknown type `" ++ kind ++ "`"
  | invalidParams node message => "node `" ++ node ++ "`: " ++ message

structure SourceConfig where
  kind : String
  params : Yaml

structure NodeConfig where
  id : String
  kind : String
  from_ : List String
  params : Yaml

def NodeConfig.isSink (node : NodeConfig) : Bool :=
  Text.startsWith "sink." node.kind

def NodeConfig.invalidParams (node : NodeConfig) (message : String) : ConfigError :=
  .invalidParams node.id message

structure Config where
  name : String
  workers : Option Nat
  source : Option SourceConfig
  nodes : List NodeConfig

inductive OneOrMany where
  | one (entry : String)
  | many (entries : List String)

def OneOrMany.entries : OneOrMany → List String
  | one entry => [entry]
  | many entries => entries

structure RawSource where
  kind : String
  params : Yaml

structure RawNode where
  id : String
  kind : String
  from_ : Option OneOrMany
  params : Yaml

structure RawConfig where
  name : Option String
  workers : Option Nat
  source : Option RawSource
  nodes : List RawNode

structure RouteParams where
  routes : List (Yaml × Yaml)
  default_ : String

structure Deserializer where
  config : String → Except String RawConfig
  routeParams : Yaml → Except String RouteParams

/-- A node with no extra keys flattens to null; stages expect a mapping. -/
def normalizeParams : Yaml → Yaml
  | .null => .mapping []
  | params => params

def loadNodes (seen : List String) (previous : String) :
    List RawNode → Except ConfigError (List NodeConfig)
  | [] => .ok []
  | node :: rest =>
      if node.id = sourceId then .error (.reservedId node.id)
      else if Text.contains '.' node.id then .error (.dottedId node.id)
      else if Text.contains ':' node.id then .error (.colonId node.id)
      else if node.id ∈ seen then .error (.duplicateId node.id)
      else
        let from_ := (node.from_.map OneOrMany.entries).getD [previous]
        (loadNodes (node.id :: seen) node.id rest).map fun nodes =>
          ⟨node.id, node.kind, from_, normalizeParams node.params⟩ :: nodes

def Config.fromYaml (deserializer : Deserializer) (yaml : String) : Except ConfigError Config :=
  match deserializer.config yaml with
  | .error message => .error (.yaml message)
  | .ok raw =>
      let name := raw.name.getD defaultName
      if Text.contains ':' name then .error (.colonName name)
      else
        (loadNodes [] sourceId raw.nodes).map fun nodes =>
          { name
            workers := raw.workers
            source := raw.source.map fun source => ⟨source.kind, normalizeParams source.params⟩
            nodes }

/-- What loading promises of the nodes: each id is its own, is not the source's, and holds
no character that would end it in a `from` entry or in a state key. -/
structure WellNamed (seen : List String) (nodes : List NodeConfig) : Prop where
  distinct : (nodes.map NodeConfig.id).Nodup
  unseen : ∀ node ∈ nodes, node.id ∉ seen
  notSource : ∀ node ∈ nodes, node.id ≠ sourceId
  notDotted : ∀ node ∈ nodes, '.' ∉ node.id.toList
  notColon : ∀ node ∈ nodes, ':' ∉ node.id.toList

theorem loadNodes_wellNamed {seen : List String} {previous : String} {raw : List RawNode}
    {nodes : List NodeConfig} (loaded : loadNodes seen previous raw = .ok nodes) :
    WellNamed seen nodes := by
  induction raw generalizing seen previous nodes with
  | nil =>
      simp only [loadNodes, Except.ok.injEq] at loaded
      subst loaded
      constructor <;> simp
  | cons node rest ih =>
      simp only [loadNodes] at loaded
      split at loaded
      next => cases loaded
      next notSource =>
        split at loaded
        next => cases loaded
        next notDotted =>
          split at loaded
          next => cases loaded
          next notColon =>
            split at loaded
            next => cases loaded
            next unseen =>
              obtain ⟨others, loadedOthers, rfl⟩ := Fallible.map_ok_iff.mp loaded
              have named := ih loadedOthers
              refine ⟨?_, ?_, ?_, ?_, ?_⟩
              · refine List.nodup_cons.mpr ⟨?_, named.distinct⟩
                rintro member
                obtain ⟨other, isOther, same⟩ := List.mem_map.mp member
                exact named.unseen other isOther (by simp [same])
              · refine List.forall_mem_cons.mpr ⟨unseen, fun other member => ?_⟩
                exact fun earlier => named.unseen other member (List.mem_cons_of_mem _ earlier)
              · exact List.forall_mem_cons.mpr ⟨notSource, named.notSource⟩
              · exact List.forall_mem_cons.mpr
                  ⟨by simpa [Text.contains] using notDotted, named.notDotted⟩
              · exact List.forall_mem_cons.mpr
                  ⟨by simpa [Text.contains] using notColon, named.notColon⟩

theorem fromYaml_wellNamed {deserializer : Deserializer} {yaml : String} {config : Config}
    (accepted : Config.fromYaml deserializer yaml = .ok config) : WellNamed [] config.nodes := by
  simp only [Config.fromYaml] at accepted
  split at accepted
  next => cases accepted
  next raw _ =>
    split at accepted
    next => cases accepted
    next =>
      obtain ⟨nodes, loaded, rfl⟩ := Fallible.map_ok_iff.mp accepted
      exact loadNodes_wellNamed loaded

end FusionPipeline
