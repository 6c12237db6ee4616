import FusionPipeline.DagWiring

/-! Which configs the graph accepts, and what an accepted graph looks like. -/

namespace FusionPipeline

def Reads (node : NodeConfig) (target : String) (label : Option String) : Prop :=
  ∃ entry ∈ node.from_, parseFrom entry = ⟨target, label⟩

def Feeds (nodes : List NodeConfig) (upstream downstream : NodeConfig) : Prop :=
  upstream ∈ nodes ∧ downstream ∈ nodes ∧ upstream.isSink = false ∧
    ∃ label, Reads downstream upstream.id label

/-- An entry names the source, or a node: a route with one of its labels, any other
without a label. -/
def EntryValid (deserializer : Deserializer) (nodes : List NodeConfig) (entry : String) : Prop :=
  ((parseFrom entry).target = sourceId ∧ (parseFrom entry).label = none) ∨
    ∃ node ∈ nodes, node.id = (parseFrom entry).target ∧
      if node.kind = routeKind then
        ∃ spec, RouteSpec.fromNode deserializer node = .ok spec ∧
          ∃ label ∈ spec.labels, (parseFrom entry).label = some label
      else (parseFrom entry).label = none

structure Valid (deserializer : Deserializer) (nodes : List NodeConfig) : Prop where
  sink : ∃ node ∈ nodes, node.isSink = true
  routes : ∀ node ∈ nodes, node.kind = routeKind →
    ∃ spec, RouteSpec.fromNode deserializer node = .ok spec
  entries : ∀ node ∈ nodes, ∀ entry ∈ node.from_, EntryValid deserializer nodes entry
  consumed : ∀ node ∈ nodes, node.kind = routeKind →
    ∀ spec, RouteSpec.fromNode deserializer node = .ok spec →
      ∀ label ∈ spec.labels, ∃ consumer ∈ nodes, Reads consumer node.id (some label)
  reachable : ∀ node ∈ nodes, ∃ first ∈ nodes, (∃ label, Reads first sourceId label) ∧
    Relation.ReflTransGen (Feeds nodes) first node
  acyclic : ∀ node, ¬ Relation.TransGen (Feeds nodes) node node

section Graphs

variable {nodes : List NodeConfig} {deserializer : Deserializer}

theorem mem_nodes_iff {node : NodeConfig} : node ∈ nodes ↔ ∃ i : Position nodes, nodeAt i = node := by
  rw [List.mem_iff_getElem]
  exact ⟨fun ⟨i, bound, same⟩ => ⟨⟨i, bound⟩, same⟩, fun ⟨i, same⟩ => ⟨i, i.isLt, same⟩⟩

theorem mem_fromEntries {item : Position nodes × String} :
    item ∈ fromEntries nodes ↔ item.2 ∈ (nodeAt item.1).from_ := by
  simp only [fromEntries, List.mem_flatMap, List.mem_finRange, true_and, List.mem_map]
  constructor
  · rintro ⟨_, _, member, rfl⟩
    exact member
  · intro member
    exact ⟨_, _, member, rfl⟩

def wired (nodes : List NodeConfig) : Wiring nodes :=
  (fromEntries nodes).foldl Wiring.record Wiring.empty

theorem wired_succ (i : Position nodes) : (wired nodes).succ i =
    if (nodeAt i).isSink then [] else (fromEntries nodes).filterMap (Wiring.edgeFrom i) :=
  Wiring.recorded_succ _ i

theorem wired_sourceSucc : (wired nodes).sourceSucc =
    ((fromEntries nodes).filter fun item => (parseFrom item.2).target = sourceId).map Prod.fst :=
  Wiring.recorded_sourceSucc _

theorem arc_iff (named : WellNamed [] nodes) {i j : Position nodes} :
    Search.Arc (wired nodes).next i j ↔ Feeds nodes (nodeAt i) (nodeAt j) := by
  have inNodes : ∀ i : Position nodes, nodeAt i ∈ nodes := fun i => mem_nodes_iff.mpr ⟨i, rfl⟩
  simp only [Search.Arc, Wiring.next, wired_succ, Feeds, inNodes, true_and]
  cases sink : (nodeAt i).isSink with
  | true => simp
  | false =>
      simp only [Bool.false_eq_true, ↓reduceIte, List.mem_map, List.mem_filterMap, true_and]
      constructor
      · rintro ⟨edge, ⟨item, member, made⟩, rfl⟩
        simp only [Wiring.edgeFrom] at made
        split at made
        next names =>
          obtain rfl := Option.some.inj made
          rw [named.position_iff] at names
          refine ⟨(parseFrom item.2).label, item.2, mem_fromEntries.mp member, ?_⟩
          rw [names.2]
        next => cases made
      · rintro ⟨label, entry, member, reads⟩
        refine ⟨⟨j, label⟩, ⟨(j, entry), mem_fromEntries.mpr member, ?_⟩, rfl⟩
        have names : (nodeAt i).id ≠ sourceId ∧ position nodes (nodeAt i).id = some i :=
          ⟨named.notSource _ (inNodes i), named.position_iff.mpr rfl⟩
        simp [Wiring.edgeFrom, reads, names]

theorem mem_sourceSucc {i : Position nodes} :
    i ∈ (wired nodes).sourceSucc ↔ ∃ label, Reads (nodeAt i) sourceId label := by
  rw [wired_sourceSucc, List.mem_map]
  constructor
  · rintro ⟨item, member, rfl⟩
    obtain ⟨isEntry, fromSource⟩ := List.mem_filter.mp member
    refine ⟨(parseFrom item.2).label, item.2, mem_fromEntries.mp isEntry, ?_⟩
    rw [← of_decide_eq_true fromSource]
  · rintro ⟨label, entry, member, reads⟩
    exact ⟨(i, entry), List.mem_filter.mpr ⟨mem_fromEntries.mpr member, by simp [reads]⟩, rfl⟩

theorem feeds_path (named : WellNamed [] nodes) {i : Position nodes} {node : NodeConfig}
    (path : Relation.ReflTransGen (Feeds nodes) (nodeAt i) node) :
    ∃ j : Position nodes, nodeAt j = node ∧
      Relation.ReflTransGen (Search.Arc (wired nodes).next) i j := by
  induction path with
  | refl => exact ⟨i, rfl, .refl⟩
  | tail _ feeds ih =>
      obtain ⟨j, rfl, arcs⟩ := ih
      obtain ⟨k, rfl⟩ := mem_nodes_iff.mp feeds.2.1
      exact ⟨k, rfl, arcs.tail ((arc_iff named).mpr feeds)⟩

theorem WellNamed.nodeAt_injective (named : WellNamed [] nodes) {i j : Position nodes}
    (same : nodeAt i = nodeAt j) : i = j :=
  named.injective (by rw [same])

theorem reached_iff (named : WellNamed [] nodes) {i : Position nodes} :
    Search.ReachedFrom (wired nodes).next (wired nodes).sourceSucc i ↔
      ∃ first ∈ nodes, (∃ label, Reads first sourceId label) ∧
        Relation.ReflTransGen (Feeds nodes) first (nodeAt i) := by
  constructor
  · rintro ⟨start, member, arcs⟩
    refine ⟨nodeAt start, mem_nodes_iff.mpr ⟨start, rfl⟩, mem_sourceSucc.mp member, ?_⟩
    exact arcs.lift nodeAt fun _ _ => (arc_iff named).mp
  · rintro ⟨first, member, reads, path⟩
    obtain ⟨start, rfl⟩ := mem_nodes_iff.mp member
    obtain ⟨j, same, arcs⟩ := feeds_path named path
    exact ⟨start, mem_sourceSucc.mpr reads, named.nodeAt_injective same ▸ arcs⟩

theorem cycle_iff (named : WellNamed [] nodes) :
    (∀ i, ¬ Relation.TransGen (Search.Arc (wired nodes).next) i i) ↔
      ∀ node, ¬ Relation.TransGen (Feeds nodes) node node := by
  constructor
  · intro acyclic node cycle
    obtain ⟨middle, feeds, path⟩ := Relation.TransGen.head'_iff.mp cycle
    obtain ⟨i, rfl⟩ := mem_nodes_iff.mp feeds.1
    obtain ⟨j, rfl⟩ := mem_nodes_iff.mp feeds.2.1
    obtain ⟨k, same, arcs⟩ := feeds_path named path
    obtain rfl := named.nodeAt_injective same
    exact acyclic k (.head' ((arc_iff named).mpr feeds) arcs)
  · intro acyclic i cycle
    exact acyclic (nodeAt i) (cycle.lift nodeAt fun _ _ => (arc_iff named).mp)

theorem accepts_iff (named : WellNamed [] nodes) {routes : List (Position nodes × RouteSpec)}
    (declared : declaredRoutes nodes deserializer (List.finRange nodes.length) = .ok routes)
    (entry : String) :
    Wiring.Accepts routes entry ↔ EntryValid deserializer nodes entry := by
  simp only [Wiring.Accepts, EntryValid]
  refine or_congr_right ?_
  constructor
  · rintro ⟨_, target, found, label⟩
    refine ⟨nodeAt target, mem_nodes_iff.mpr ⟨target, rfl⟩, named.position_iff.mp found, ?_⟩
    rw [declaredRoutes_lookup declared] at label
    by_cases isRoute : (nodeAt target).kind = routeKind
    · rw [if_pos isRoute]
      cases parsed : RouteSpec.fromNode deserializer (nodeAt target) with
      | error error =>
          obtain ⟨spec, parsedSpec⟩ := (declaredRoutes_ok_iff _).mp ⟨routes, declared⟩ target
            (List.mem_finRange target) isRoute
          simp [parsed] at parsedSpec
      | ok spec =>
          simp only [List.mem_finRange, isRoute, and_self, ↓reduceIte, parsed, Except.toOption] at label
          exact ⟨spec, rfl, label⟩
    · simpa [isRoute] using label
  · rintro ⟨node, member, same, label⟩
    obtain ⟨target, rfl⟩ := mem_nodes_iff.mp member
    refine ⟨same ▸ named.notSource _ member, target, named.position_iff.mpr same, ?_⟩
    rw [declaredRoutes_lookup declared]
    by_cases isRoute : (nodeAt target).kind = routeKind
    · rw [if_pos isRoute] at label
      obtain ⟨spec, parsed, label⟩ := label
      simpa [isRoute, parsed, Except.toOption] using label
    · simpa [isRoute] using label

theorem unconsumed_none_iff (named : WellNamed [] nodes) {routes : List (Position nodes × RouteSpec)}
    (declared : declaredRoutes nodes deserializer (List.finRange nodes.length) = .ok routes) :
    (wired nodes).unconsumed routes = none ↔
      ∀ node ∈ nodes, node.kind = routeKind → ∀ spec,
        RouteSpec.fromNode deserializer node = .ok spec →
          ∀ label ∈ spec.labels, ∃ consumer ∈ nodes, Reads consumer node.id (some label) := by
  have consumed_iff : ∀ (i : Position nodes) label, (i, label) ∈ (wired nodes).consumed ↔
      ∃ consumer ∈ nodes, Reads consumer (nodeAt i).id (some label) := by
    intro i label
    rw [wired, Wiring.mem_recorded_consumed]
    constructor
    · rintro ⟨item, member, _, found, label⟩
      refine ⟨nodeAt item.1, mem_nodes_iff.mpr ⟨_, rfl⟩, item.2, mem_fromEntries.mp member, ?_⟩
      rw [named.position_iff.mp found, ← label]
    · rintro ⟨consumer, member, entry, isEntry, reads⟩
      obtain ⟨j, rfl⟩ := mem_nodes_iff.mp member
      refine ⟨(j, entry), mem_fromEntries.mpr isEntry, ?_⟩
      simp only [reads]
      exact ⟨named.notSource _ (mem_nodes_iff.mpr ⟨i, rfl⟩), named.position_iff.mpr rfl, trivial⟩
  simp only [Wiring.unconsumed, List.findSome?_eq_none_iff, Option.map_eq_none_iff,
    List.find?_eq_none, decide_eq_true_eq, not_not, Prod.forall, declaredRoutes_mem declared,
    consumed_iff]
  constructor
  · intro all node member isRoute spec parsed
    obtain ⟨i, rfl⟩ := mem_nodes_iff.mp member
    exact all i spec ⟨List.mem_finRange i, isRoute, parsed⟩
  · rintro all i spec ⟨_, isRoute, parsed⟩
    exact all (nodeAt i) (mem_nodes_iff.mpr ⟨i, rfl⟩) isRoute spec parsed

theorem unreachable_none_iff (wiring : Wiring nodes) :
    wiring.unreachable = none ↔
      ∀ i, Search.ReachedFrom wiring.next wiring.sourceSucc i := by
  simp only [Wiring.unreachable, List.find?_eq_none, List.mem_finRange, forall_const,
    Bool.not_eq_true', Bool.not_eq_false, Search.sweep_iff]
  simp [Search.ReachedFrom]

/-- The one inversion of the validation: the checks it made, in order. -/
theorem fromConfig_ok_iff {config : Config} {dag : Dag} :
    Dag.fromConfig deserializer config = .ok dag ↔
      config.nodes.any NodeConfig.isSink = true ∧
      ∃ routes, declaredRoutes config.nodes deserializer (List.finRange config.nodes.length) = .ok routes ∧
      (∀ item ∈ fromEntries config.nodes, Wiring.Accepts routes item.2) ∧
      (wired config.nodes).unconsumed routes = none ∧
      (wired config.nodes).unreachable = none ∧
      ∃ progress, Search.visitAll (wired config.nodes).next (wired config.nodes).sourceSucc
        Search.Progress.fresh = .ok progress ∧
      dag = Dag.assemble (wired config.nodes) progress.postOrder.reverse := by
  have wiring_iff : ∀ routes wiring,
      (fromEntries config.nodes).foldlM (Wiring.wireEntry routes) Wiring.empty = .ok wiring ↔
        (∀ item ∈ fromEntries config.nodes, Wiring.Accepts routes item.2) ∧
          wiring = wired config.nodes :=
    fun routes wiring => Fallible.foldlM_ok_iff (Wiring.wireEntry_ok_iff routes)
  constructor
  · intro built
    simp only [Dag.fromConfig] at built
    split at built
    next => cases built
    next hasSink =>
      split at built
      next => cases built
      next routes declared =>
        split at built
        next => cases built
        next wiring linked =>
          obtain ⟨accepted, rfl⟩ := (wiring_iff routes wiring).mp linked
          split at built
          next => cases built
          next consumed =>
            split at built
            next => cases built
            next reachable =>
              split at built
              next => cases built
              next progress visited =>
                exact ⟨by simpa using hasSink, routes, declared, accepted, consumed, reachable,
                  progress, visited, (Except.ok.inj built).symm⟩
  · rintro ⟨hasSink, routes, declared, accepted, consumed, reachable, progress, visited, rfl⟩
    have linked := (wiring_iff routes _).mpr ⟨accepted, rfl⟩
    simp [Dag.fromConfig, hasSink, declared, linked, consumed, reachable, visited]

theorem fromConfig_ok_iff_valid {config : Config} (named : WellNamed [] config.nodes) :
    (∃ dag, Dag.fromConfig deserializer config = .ok dag) ↔ Valid deserializer config.nodes := by
  simp only [fromConfig_ok_iff]
  constructor
  · rintro ⟨_, hasSink, routes, declared, accepted, consumed, reachable, progress, visited, -⟩
    have reached := (unreachable_none_iff _).mp reachable
    refine ⟨List.any_eq_true.mp hasSink, ?_, ?_, (unconsumed_none_iff named declared).mp consumed,
      ?_, ?_⟩
    · intro node member isRoute
      obtain ⟨i, rfl⟩ := mem_nodes_iff.mp member
      exact (declaredRoutes_ok_iff _).mp ⟨routes, declared⟩ i (List.mem_finRange i) isRoute
    · intro node member entry isEntry
      obtain ⟨i, rfl⟩ := mem_nodes_iff.mp member
      exact (accepts_iff named declared entry).mp (accepted (i, entry) (mem_fromEntries.mpr isEntry))
    · intro node member
      obtain ⟨i, rfl⟩ := mem_nodes_iff.mp member
      exact (reached_iff named).mp (reached i)
    · refine (cycle_iff named).mp fun i => ?_
      exact (Search.visitAll_ok_iff _).mp ⟨progress, visited⟩ i (reached i)
  · intro valid
    obtain ⟨routes, declared⟩ := (declaredRoutes_ok_iff (List.finRange _)).mpr
      fun i _ isRoute => valid.routes (nodeAt i) (mem_nodes_iff.mpr ⟨i, rfl⟩) isRoute
    have reached : ∀ i, Search.ReachedFrom (wired config.nodes).next (wired config.nodes).sourceSucc i :=
      fun i => (reached_iff named).mpr (valid.reachable _ (mem_nodes_iff.mpr ⟨i, rfl⟩))
    obtain ⟨progress, visited⟩ := (Search.visitAll_ok_iff _).mpr
      fun i _ => (cycle_iff named).mpr valid.acyclic i
    refine ⟨_, List.any_eq_true.mpr valid.sink, routes, declared, ?_,
      (unconsumed_none_iff named declared).mpr valid.consumed, (unreachable_none_iff _).mpr reached,
      progress, visited, rfl⟩
    intro item member
    exact (accepts_iff named declared item.2).mpr
      (valid.entries _ (mem_nodes_iff.mpr ⟨item.1, rfl⟩) item.2 (mem_fromEntries.mp member))

end Graphs

section Orders

variable {nodes : List NodeConfig} {order : List (Position nodes)}

theorem newIndex_eq (nodup : order.Nodup) {old : Position nodes} (member : old ∈ order) :
    newIndex order old = order.idxOf old := by
  suffices shifted : ∀ start (index : Position nodes → NodeIndex),
      (order.zipIdx start).foldl (fun index moved => Function.update index moved.1 moved.2) index old =
        if old ∈ order then start + order.idxOf old else index old by
    rw [newIndex, shifted 0, if_pos member, Nat.zero_add]
  clear member
  induction order with
  | nil => simp
  | cons head order ih =>
      intro start index
      rw [List.zipIdx_cons, List.foldl_cons, ih (List.nodup_cons.mp nodup).2]
      by_cases same : old = head
      · subst same
        simp [(List.nodup_cons.mp nodup).1]
      · rw [List.idxOf_cons_ne _ (Ne.symm same)]
        simp only [List.mem_cons, same, false_or, Function.update_of_ne, ne_eq, not_false_eq_true]
        split <;> simp_all [Nat.add_comm, Nat.add_left_comm]

structure Topological (wiring : Wiring nodes) (order : List (Position nodes)) : Prop where
  nodup : order.Nodup
  complete : ∀ i, i ∈ order
  forward : ∀ before i after, order = before ++ i :: after → ∀ j ∈ wiring.next i, j ∈ after

theorem topological_of_postOrder {wiring : Wiring nodes} {progress : Search.Progress (Position nodes)}
    (reached : ∀ i, Search.ReachedFrom wiring.next wiring.sourceSucc i)
    (visited : Search.visitAll wiring.next wiring.sourceSucc Search.Progress.fresh = .ok progress) :
    Topological wiring progress.postOrder.reverse := by
  obtain ⟨nodup, ordered, only⟩ := Search.visitAll_ok visited
  refine ⟨List.nodup_reverse.mpr nodup, fun i => ?_, ?_⟩
  · exact List.mem_reverse.mpr ((only i).mpr (reached i))
  · intro before i after split j member
    refine List.mem_reverse.mp (ordered after.reverse i before.reverse ?_ j member)
    rw [← List.reverse_reverse progress.postOrder, split]
    simp

namespace Topological

variable {wiring : Wiring nodes} (topological : Topological wiring order)
include topological

theorem perm : (order.map nodeAt).Perm nodes := by
  have positions : order.Perm (List.finRange nodes.length) :=
    (List.perm_ext_iff_of_nodup topological.nodup (List.nodup_finRange _)).mpr fun i =>
      iff_of_true (topological.complete i) (List.mem_finRange i)
  have mapped := positions.map nodeAt
  rwa [map_nodeAt] at mapped

theorem at_newIndex (i : Position nodes) : order[newIndex order i]? = some i := by
  rw [newIndex_eq topological.nodup (topological.complete i)]
  exact List.getElem?_idxOf (topological.complete i)

theorem newIndex_at {i : Position nodes} {index : NodeIndex} (found : order[index]? = some i) :
    newIndex order i = index := by
  obtain ⟨bound, rfl⟩ := List.getElem?_eq_some_iff.mp found
  rw [newIndex_eq topological.nodup (topological.complete _), topological.nodup.idxOf_getElem]

theorem newIndex_lt {i j : Position nodes} (member : j ∈ wiring.next i) :
    newIndex order i < newIndex order j := by
  obtain ⟨before, after, rfl⟩ := List.append_of_mem (topological.complete i)
  have later := topological.forward before i after rfl j member
  obtain ⟨_, notAfter, apart⟩ := List.nodup_append.mp topological.nodup
  have fresh : i ∉ before := fun member => apart i member i List.mem_cons_self rfl
  have different : j ≠ i := by
    rintro rfl
    exact (List.nodup_cons.mp notAfter).1 later
  have notBefore : j ∉ before := fun member => apart j member j (List.mem_cons_of_mem _ later) rfl
  rw [newIndex_eq topological.nodup (topological.complete i),
    newIndex_eq topological.nodup (topological.complete j),
    List.idxOf_append_of_notMem fresh, List.idxOf_append_of_notMem notBefore,
    List.idxOf_cons_self, List.idxOf_cons_ne _ (Ne.symm different)]
  exact Nat.add_lt_add_left (Nat.succ_pos _) _

end Topological

end Orders

/-- What an accepted graph is: the config's nodes in an order that every edge follows, each
node that is no sink with one edge for each entry that reads it. -/
structure Dag.Describes (dag : Dag) (nodes : List NodeConfig) : Prop where
  permuted : dag.nodes.Perm nodes
  upward : ∀ i, ∀ edge ∈ dag.edgesOf i, i < edge.target ∧ edge.target < dag.nodes.length
  outEdges : ∀ i node, dag.node? i = some node →
    (dag.edgesOf i).map (fun edge => (dag.node? edge.target, edge.label)) =
      if node.isSink then [] else (readers nodes node.id).map fun reader => (some reader.1, reader.2)
  sourceEdges : dag.sourceSuccessors.map dag.node? =
    (readers nodes sourceId).map fun reader => some reader.1

section Assembled

variable {nodes : List NodeConfig} {order : List (Position nodes)}

theorem assemble_node? (topological : Topological (wired nodes) order) (i : Position nodes) :
    (Dag.assemble (wired nodes) order).node? (newIndex order i) = some (nodeAt i) := by
  simp [Dag.node?, Dag.assemble, topological.at_newIndex]

theorem assemble_edgesOf (topological : Topological (wired nodes) order) (i : Position nodes) :
    (Dag.assemble (wired nodes) order).edgesOf (newIndex order i) =
      ((wired nodes).succ i).map fun edge => ⟨newIndex order edge.target, edge.label⟩ := by
  simp [Dag.edgesOf, Dag.assemble, topological.at_newIndex]

theorem assemble_upward (topological : Topological (wired nodes) order) :
    ∀ i, ∀ edge ∈ (Dag.assemble (wired nodes) order).edgesOf i,
      i < edge.target ∧ edge.target < (Dag.assemble (wired nodes) order).nodes.length := by
  intro index edge member
  cases found : order[index]? with
  | none => simp [Dag.edgesOf, Dag.assemble, found] at member
  | some i =>
      obtain rfl := topological.newIndex_at found
      rw [assemble_edgesOf topological] at member
      obtain ⟨old, isEdge, rfl⟩ := List.mem_map.mp member
      refine ⟨topological.newIndex_lt (List.mem_map.mpr ⟨old, isEdge, rfl⟩), ?_⟩
      have bound := (List.getElem?_eq_some_iff.mp (topological.at_newIndex old.target)).1
      simpa [Dag.assemble] using bound

theorem assemble_describes (named : WellNamed [] nodes)
    (topological : Topological (wired nodes) order) :
    (Dag.assemble (wired nodes) order).Describes nodes := by
  have positions : ∀ index node, (Dag.assemble (wired nodes) order).node? index = some node →
      ∃ i, newIndex order i = index ∧ nodeAt i = node := by
    intro index node found
    simp only [Dag.node?, Dag.assemble, List.getElem?_map, Option.map_eq_some_iff] at found
    obtain ⟨i, at_, same⟩ := found
    exact ⟨i, topological.newIndex_at at_, same⟩
  refine ⟨topological.perm, assemble_upward topological, ?_, ?_⟩
  · intro index node found
    obtain ⟨i, rfl, rfl⟩ := positions index node found
    rw [assemble_edgesOf topological, List.map_map, wired_succ]
    split
    · rfl
    · rw [← readers_of_succ named i, List.map_map]
      refine List.map_congr_left fun edge _ => ?_
      simp [assemble_node? topological]
  · have sources : (Dag.assemble (wired nodes) order).sourceSuccessors =
        (wired nodes).sourceSucc.map (newIndex order) := rfl
    have named := congrArg (List.map some) (readers_of_source nodes)
    rw [List.map_map, List.map_map] at named
    rw [sources, List.map_map, wired_sourceSucc, List.map_map]
    refine Eq.trans (List.map_congr_left fun item _ => ?_) named
    simp [assemble_node? topological]

end Assembled

theorem fromConfig_describes {deserializer : Deserializer} {config : Config} {dag : Dag}
    (named : WellNamed [] config.nodes)
    (built : Dag.fromConfig deserializer config = .ok dag) : dag.Describes config.nodes := by
  obtain ⟨_, _, _, _, _, reachable, progress, visited, rfl⟩ := fromConfig_ok_iff.mp built
  exact assemble_describes named
    (topological_of_postOrder ((unreachable_none_iff _).mp reachable) visited)

/-- The loader accepts exactly the valid configs, and the graph it makes describes them. -/
theorem fromConfig_accepts {deserializer : Deserializer} {yaml : String} {config : Config}
    (loaded : Config.fromYaml deserializer yaml = .ok config) :
    ((∃ dag, Dag.fromConfig deserializer config = .ok dag) ↔ Valid deserializer config.nodes) ∧
    ∀ dag, Dag.fromConfig deserializer config = .ok dag → dag.Describes config.nodes :=
  have named := fromYaml_wellNamed loaded
  ⟨fromConfig_ok_iff_valid named, fun _ built => fromConfig_describes named built⟩

def keepThenStore : Deserializer where
  config _ := .ok {
    name := some "logs"
    workers := none
    source := none
    nodes := [⟨"keep", "filter", none, .mapping [(.string "condition", .string "severity == 'ERROR'")]⟩,
      ⟨"store", "sink.memory", none, .null⟩] }
  routeParams _ := .error "missing field `routes`"

theorem fromConfig_accepts_keepThenStore :
    ∃ config, Config.fromYaml keepThenStore "name: logs" = .ok config ∧
      config.nodes.map NodeConfig.from_ = [["source"], ["keep"]] ∧
      ((∃ dag, Dag.fromConfig keepThenStore config = .ok dag) ↔ Valid keepThenStore config.nodes) ∧
      ∀ dag, Dag.fromConfig keepThenStore config = .ok dag → dag.Describes config.nodes := by
  obtain ⟨config, loaded, froms⟩ : ∃ config, Config.fromYaml keepThenStore "name: logs" = .ok config ∧
      config.nodes.map NodeConfig.from_ = [["source"], ["keep"]] := ⟨_, rfl, rfl⟩
  exact ⟨config, loaded, froms, fromConfig_accepts loaded⟩

end FusionPipeline
