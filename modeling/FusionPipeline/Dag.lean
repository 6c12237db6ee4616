import FusionPipeline.Library.Search
import FusionPipeline.RouteSpec

/-! The validated pipeline graph, and its validation in the loader's order of checks. -/

namespace FusionPipeline

abbrev NodeIndex := Nat

structure Edge (Index : Type) where
  target : Index
  label : Option String
  deriving DecidableEq, Repr

structure Dag where
  nodes : List NodeConfig
  edges : List (List (Edge NodeIndex))
  sourceSuccessors : List NodeIndex
  successorIds : String → Option (List String)

structure FromRef where
  target : String
  label : Option String
  deriving DecidableEq, Repr

/-- The first dot, if any, separates the route from its label. -/
def parseFrom (entry : String) : FromRef :=
  match Text.splitOnce '.' entry with
  | some (target, label) => if label = "" then ⟨entry, none⟩ else ⟨target, some label⟩
  | none => ⟨entry, none⟩

abbrev Position (nodes : List NodeConfig) := Fin nodes.length

def nodeAt {nodes : List NodeConfig} (i : Position nodes) : NodeConfig :=
  nodes[i]

section Validation

variable (nodes : List NodeConfig)

def position (id : String) : Option (Position nodes) :=
  (List.finRange nodes.length).foldl (fun found i => if (nodeAt i).id = id then some i else found) none

def declaredRoutes (deserializer : Deserializer) :
    List (Position nodes) → Except ConfigError (List (Position nodes × RouteSpec))
  | [] => .ok []
  | i :: rest =>
      if (nodeAt i).kind = routeKind then
        match RouteSpec.fromNode deserializer (nodeAt i) with
        | .error error => .error error
        | .ok spec => (declaredRoutes deserializer rest).map fun routes => (i, spec) :: routes
      else declaredRoutes deserializer rest

structure Wiring where
  succ : Position nodes → List (Edge (Position nodes))
  sourceSucc : List (Position nodes)
  consumed : List (Position nodes × String)

def fromEntries : List (Position nodes × String) :=
  (List.finRange nodes.length).flatMap fun i => (nodeAt i).from_.map fun entry => (i, entry)

end Validation

namespace Wiring

variable {nodes : List NodeConfig}

def empty : Wiring nodes :=
  ⟨fun _ => [], [], []⟩

def readSource (wiring : Wiring nodes) (i : Position nodes) : Wiring nodes :=
  { wiring with sourceSucc := wiring.sourceSucc ++ [i] }

def consume (wiring : Wiring nodes) (route : Position nodes) (label : String) : Wiring nodes :=
  { wiring with consumed := wiring.consumed ++ [(route, label)] }

def link (wiring : Wiring nodes) (target : Position nodes) (edge : Edge (Position nodes)) :
    Wiring nodes :=
  if (nodeAt target).isSink then wiring
  else { wiring with succ := Function.update wiring.succ target (wiring.succ target ++ [edge]) }

def next (wiring : Wiring nodes) (i : Position nodes) : List (Position nodes) :=
  (wiring.succ i).map Edge.target

def wireEntry (routes : List (Position nodes × RouteSpec)) (wiring : Wiring nodes)
    (item : Position nodes × String) : Except ConfigError (Wiring nodes) :=
  let (i, entry) := item
  let ref := parseFrom entry
  if ref.target = sourceId then
    match ref.label with
    | some label => .error (.notARoute (nodeAt i).id ref.target label)
    | none => .ok (wiring.readSource i)
  else
    match position nodes ref.target with
    | none => .error (.unknownFrom (nodeAt i).id entry)
    | some target =>
        match routes.lookup target, ref.label with
        | some spec, some label =>
            if label ∈ spec.labels then .ok ((wiring.consume target label).link target ⟨i, some label⟩)
            else .error (.unknownRouteLabel (nodeAt i).id ref.target label)
        | some _, none => .error (.routeNeedsLabel (nodeAt i).id ref.target)
        | none, some label => .error (.notARoute (nodeAt i).id ref.target label)
        | none, none => .ok (wiring.link target ⟨i, none⟩)

def unconsumed (wiring : Wiring nodes) (routes : List (Position nodes × RouteSpec)) :
    Option (Position nodes × String) :=
  routes.findSome? fun (route, spec) =>
    (spec.labels.find? fun label => decide ((route, label) ∉ wiring.consumed)).map fun label =>
      (route, label)

/-- The first node that no record can reach. The stack of the search starts with the
source's successors, the last one on top. -/
def unreachable (wiring : Wiring nodes) : Option (Position nodes) :=
  let reachable := Search.sweep wiring.next wiring.sourceSucc.reverse fun _ => false
  (List.finRange nodes.length).find? fun i => !reachable i

end Wiring

def newIndex {nodes : List NodeConfig} (order : List (Position nodes)) : Position nodes → NodeIndex :=
  order.zipIdx.foldl (fun index moved => Function.update index moved.1 moved.2) fun _ => 0

namespace Dag

def assemble {nodes : List NodeConfig} (wiring : Wiring nodes) (order : List (Position nodes)) :
    Dag :=
  let index := newIndex order
  let ordered := order.map nodeAt
  let edges := order.map fun old =>
    (wiring.succ old).map fun edge => (⟨index edge.target, edge.label⟩ : Edge NodeIndex)
  let sourceSuccessors := wiring.sourceSucc.map index
  let ids := fun list : List NodeIndex => list.filterMap fun i => ordered[i]?.map NodeConfig.id
  let successorIds := (ordered.zip edges).foldl
    (fun map (node, out) => Function.update map node.id (some (ids (out.map Edge.target))))
    fun _ => none
  { nodes := ordered
    edges
    sourceSuccessors
    successorIds := Function.update successorIds sourceId (some (ids sourceSuccessors)) }

/-- Validates `config` and builds the graph. Every node is reachable when the order is
taken, so the search visits all of them. -/
def fromConfig (deserializer : Deserializer) (config : Config) : Except ConfigError Dag :=
  let nodes := config.nodes
  if !nodes.any NodeConfig.isSink then .error .noSink
  else
    match declaredRoutes nodes deserializer (List.finRange nodes.length) with
    | .error error => .error error
    | .ok routes =>
        match (fromEntries nodes).foldlM (Wiring.wireEntry routes) Wiring.empty with
        | .error error => .error error
        | .ok wiring =>
            match wiring.unconsumed routes with
            | some (route, label) => .error (.unconsumedRouteLabel (nodeAt route).id label)
            | none =>
                match wiring.unreachable with
                | some i => .error (.unreachable (nodeAt i).id)
                | none =>
                    match Search.visitAll wiring.next wiring.sourceSucc Search.Progress.fresh with
                    | .error i => .error (.cycle (nodeAt i).id)
                    | .ok progress => .ok (assemble wiring progress.postOrder.reverse)

def node? (dag : Dag) (index : NodeIndex) : Option NodeConfig :=
  dag.nodes[index]?

def edgesOf (dag : Dag) (index : NodeIndex) : List (Edge NodeIndex) :=
  dag.edges[index]?.getD []

def consumers (dag : Dag) (index : NodeIndex) (label : Option String) : List NodeIndex :=
  ((dag.edgesOf index).filter fun edge =>
    match label with
    | none => true
    | some label => edge.label = some label).map Edge.target

def label? (dag : Dag) (index : NodeIndex) (label : String) : Option String :=
  ((dag.edgesOf index).filterMap Edge.label).find? fun declared => declared = label

end Dag

end FusionPipeline
