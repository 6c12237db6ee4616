import FusionPipeline.Dag

/-! What the wiring of a config holds: its routes, its edges and the labels read. -/

namespace FusionPipeline

section Positions

variable {nodes : List NodeConfig} {deserializer : Deserializer}

theorem position_found {id : String} {i : Position nodes} (found : position nodes id = some i) :
    (nodeAt i).id = id := by
  suffices kept : ∀ positions : List (Position nodes), ∀ first : Option (Position nodes),
      (∀ i, first = some i → (nodeAt i).id = id) →
      ∀ i, positions.foldl (fun found i => if (nodeAt i).id = id then some i else found) first = some i →
        (nodeAt i).id = id from kept _ none (by simp) i found
  intro positions
  induction positions with
  | nil => exact fun first given i same => given i same
  | cons head positions ih =>
      intro first given
      refine ih _ fun i same => ?_
      beta_reduce at same
      split at same
      next matched => exact Option.some.inj same ▸ matched
      next => exact given i same

theorem position_exists {i : Position nodes} : ∃ j, position nodes (nodeAt i).id = some j := by
  suffices kept : ∀ positions : List (Position nodes), ∀ first : Option (Position nodes),
      first ≠ none ∨ i ∈ positions → ∃ j, positions.foldl
        (fun found j => if (nodeAt j).id = (nodeAt i).id then some j else found) first = some j from
    kept _ none (Or.inr (List.mem_finRange i))
  intro positions
  induction positions with
  | nil =>
      rintro first (given | member)
      · exact Option.ne_none_iff_exists'.mp given
      · cases member
  | cons head positions ih =>
      rintro first (given | member)
      · refine ih _ (Or.inl ?_)
        beta_reduce
        split
        · simp
        · exact given
      · rcases List.mem_cons.mp member with rfl | later
        · exact ih _ (Or.inl (by simp))
        · exact ih _ (Or.inr later)

theorem WellNamed.injective (named : WellNamed [] nodes) {i j : Position nodes}
    (same : (nodeAt i).id = (nodeAt j).id) : i = j := by
  have bound (position : Position nodes) : position.val < (nodes.map NodeConfig.id).length := by
    simp
  have injective := List.nodup_iff_injective_getElem.mp named.distinct
  have equal : (⟨i, bound i⟩ : Fin (nodes.map NodeConfig.id).length) = ⟨j, bound j⟩ :=
    injective (by simpa [nodeAt] using same)
  exact Fin.ext (by simpa using equal)

theorem WellNamed.position_iff (named : WellNamed [] nodes) {id : String} {i : Position nodes} :
    position nodes id = some i ↔ (nodeAt i).id = id := by
  constructor
  · exact position_found
  · rintro rfl
    obtain ⟨j, found⟩ := position_exists (i := i)
    rw [found, named.injective (position_found found)]

theorem declaredRoutes_ok_iff (positions : List (Position nodes)) :
    (∃ routes, declaredRoutes nodes deserializer positions = .ok routes) ↔
      ∀ i ∈ positions, (nodeAt i).kind = routeKind →
        ∃ spec, RouteSpec.fromNode deserializer (nodeAt i) = .ok spec := by
  induction positions with
  | nil => simp [declaredRoutes]
  | cons head rest ih =>
      rw [List.forall_mem_cons, ← ih, declaredRoutes]
      by_cases isRoute : (nodeAt head).kind = routeKind
      · cases parsed : RouteSpec.fromNode deserializer (nodeAt head) with
        | error error => simp [isRoute]
        | ok spec => simp [isRoute, Fallible.map_ok_iff]
      · simp [isRoute]

theorem declaredRoutes_lookup {positions : List (Position nodes)}
    {routes : List (Position nodes × RouteSpec)}
    (declared : declaredRoutes nodes deserializer positions = .ok routes) (i : Position nodes) :
    routes.lookup i = if i ∈ positions ∧ (nodeAt i).kind = routeKind then
      (RouteSpec.fromNode deserializer (nodeAt i)).toOption else none := by
  induction positions generalizing routes with
  | nil =>
      simp only [declaredRoutes, Except.ok.injEq] at declared
      simp [← declared]
  | cons head rest ih =>
      simp only [declaredRoutes] at declared
      split at declared
      next isRoute =>
        split at declared
        next => cases declared
        next spec parsed =>
          obtain ⟨others, declaredOthers, rfl⟩ := Fallible.map_ok_iff.mp declared
          by_cases same : i = head
          · subst same
            simp [isRoute, parsed, Except.toOption]
          · have different : (i == head) = false := by simpa using same
            rw [List.lookup_cons, ih declaredOthers]
            simp [different, same]
      next notRoute =>
        rw [ih declared]
        by_cases same : i = head
        · subst same
          simp [notRoute]
        · simp [same]

theorem declaredRoutes_mem {positions : List (Position nodes)}
    {routes : List (Position nodes × RouteSpec)}
    (declared : declaredRoutes nodes deserializer positions = .ok routes)
    {i : Position nodes} {spec : RouteSpec} :
    (i, spec) ∈ routes ↔ i ∈ positions ∧ (nodeAt i).kind = routeKind ∧
      RouteSpec.fromNode deserializer (nodeAt i) = .ok spec := by
  induction positions generalizing routes with
  | nil =>
      simp only [declaredRoutes, Except.ok.injEq] at declared
      simp [← declared]
  | cons head rest ih =>
      simp only [declaredRoutes] at declared
      split at declared
      next isRoute =>
        split at declared
        next => cases declared
        next parsedSpec parsed =>
          obtain ⟨others, declaredOthers, rfl⟩ := Fallible.map_ok_iff.mp declared
          rw [List.mem_cons, ih declaredOthers, Prod.mk.injEq, List.mem_cons]
          constructor
          · rintro (⟨rfl, rfl⟩ | ⟨member, rest⟩)
            · exact ⟨Or.inl rfl, isRoute, parsed⟩
            · exact ⟨Or.inr member, rest⟩
          · rintro ⟨rfl | member, rest⟩
            · exact Or.inl ⟨rfl, Except.ok.inj (rest.2.symm.trans parsed)⟩
            · exact Or.inr ⟨member, rest⟩
      next notRoute =>
        rw [ih declared, List.mem_cons]
        constructor
        · exact fun ⟨member, rest⟩ => ⟨Or.inr member, rest⟩
        · rintro ⟨rfl | member, rest⟩
          · exact absurd rest.1 notRoute
          · exact ⟨member, rest⟩

end Positions

namespace Wiring

variable {nodes : List NodeConfig}

/-- An entry the loader accepts: the source without a label, or a node with a label
exactly when it declares routes, and then one of its own. -/
def Accepts (routes : List (Position nodes × RouteSpec)) (entry : String) : Prop :=
  let ref := parseFrom entry
  ref.target = sourceId ∧ ref.label = none ∨
    ref.target ≠ sourceId ∧ ∃ target, position nodes ref.target = some target ∧
      match routes.lookup target with
      | some spec => ∃ label ∈ spec.labels, ref.label = some label
      | none => ref.label = none

def record (wiring : Wiring nodes) (item : Position nodes × String) : Wiring nodes :=
  let ref := parseFrom item.2
  if ref.target = sourceId then wiring.readSource item.1
  else
    match position nodes ref.target with
    | none => wiring
    | some target =>
        (match ref.label with
          | some label => wiring.consume target label
          | none => wiring).link target ⟨item.1, ref.label⟩

theorem wireEntry_ok_iff (routes : List (Position nodes × RouteSpec)) (wiring : Wiring nodes)
    (item : Position nodes × String) (result : Wiring nodes) :
    wireEntry routes wiring item = .ok result ↔
      Accepts routes item.2 ∧ result = wiring.record item := by
  obtain ⟨i, entry⟩ := item
  simp only [wireEntry, Accepts, record]
  by_cases fromSource : (parseFrom entry).target = sourceId
  · cases named : (parseFrom entry).label <;> simp [fromSource, eq_comm]
  · cases found : position nodes (parseFrom entry).target with
    | none => simp [fromSource]
    | some target =>
        cases declared : routes.lookup target with
        | none => cases named : (parseFrom entry).label <;> simp [fromSource, declared, eq_comm]
        | some spec =>
            cases named : (parseFrom entry).label with
            | none => simp [fromSource, declared]
            | some label =>
                by_cases member : label ∈ spec.labels <;>
                  simp [fromSource, declared, member, eq_comm]

def edgeFrom (target : Position nodes) (item : Position nodes × String) :
    Option (Edge (Position nodes)) :=
  let ref := parseFrom item.2
  if ref.target ≠ sourceId ∧ position nodes ref.target = some target then some ⟨item.1, ref.label⟩
  else none

@[simp] theorem link_sourceSucc (wiring : Wiring nodes) (target : Position nodes)
    (edge : Edge (Position nodes)) : (wiring.link target edge).sourceSucc = wiring.sourceSucc := by
  rw [link]
  split <;> rfl

@[simp] theorem link_consumed (wiring : Wiring nodes) (target : Position nodes)
    (edge : Edge (Position nodes)) : (wiring.link target edge).consumed = wiring.consumed := by
  rw [link]
  split <;> rfl

theorem link_succ (wiring : Wiring nodes) (target : Position nodes)
    (edge : Edge (Position nodes)) (i : Position nodes) :
    (wiring.link target edge).succ i = wiring.succ i ++
      if i = target ∧ (nodeAt i).isSink = false then [edge] else [] := by
  rw [link]
  by_cases same : i = target
  · subst same
    cases sink : (nodeAt i).isSink <;> simp
  · split <;> simp [same]

theorem record_succ (wiring : Wiring nodes) (item : Position nodes × String) (i : Position nodes) :
    (wiring.record item).succ i = wiring.succ i ++
      if (nodeAt i).isSink then [] else (edgeFrom i item).toList := by
  simp only [record, edgeFrom]
  by_cases fromSource : (parseFrom item.2).target = sourceId
  · simp [fromSource, readSource]
  · cases found : position nodes (parseFrom item.2).target with
    | none => simp [fromSource]
    | some target =>
        have unchanged : ∀ label : Option String, (match label with
            | some label => wiring.consume target label
            | none => wiring).succ = wiring.succ := by
          intro label
          cases label <;> rfl
        simp only [fromSource, ↓reduceIte, link_succ, unchanged]
        by_cases same : i = target
        · subst same
          cases sink : (nodeAt i).isSink <;> simp [fromSource]
        · simp [same, Ne.symm same]

theorem record_sourceSucc (wiring : Wiring nodes) (item : Position nodes × String) :
    (wiring.record item).sourceSucc = wiring.sourceSucc ++
      if (parseFrom item.2).target = sourceId then [item.1] else [] := by
  simp only [record]
  by_cases fromSource : (parseFrom item.2).target = sourceId
  · simp [fromSource, readSource]
  · cases found : position nodes (parseFrom item.2).target with
    | none => simp [fromSource]
    | some target => cases named : (parseFrom item.2).label <;> simp [fromSource, consume]

theorem record_consumed (wiring : Wiring nodes) (item : Position nodes × String) :
    (wiring.record item).consumed = wiring.consumed ++
      match position nodes (parseFrom item.2).target, (parseFrom item.2).label with
      | some target, some label =>
          if (parseFrom item.2).target = sourceId then [] else [(target, label)]
      | _, _ => [] := by
  simp only [record]
  by_cases fromSource : (parseFrom item.2).target = sourceId
  · rw [if_pos fromSource]
    cases found : position nodes (parseFrom item.2).target <;>
      cases named : (parseFrom item.2).label <;> simp [fromSource, readSource]
  · cases found : position nodes (parseFrom item.2).target with
    | none => simp [fromSource]
    | some target => cases named : (parseFrom item.2).label <;> simp [fromSource, consume]

theorem recorded_succ (items : List (Position nodes × String)) (i : Position nodes) :
    (items.foldl record empty).succ i =
      if (nodeAt i).isSink then [] else items.filterMap (edgeFrom i) := by
  rw [Fallible.foldl_appends (fun wiring : Wiring nodes => wiring.succ i)
    (fun wiring item => record_succ wiring item i)]
  cases sink : (nodeAt i).isSink with
  | true => simp [empty]
  | false => simp [empty, List.filterMap_eq_flatMap_toList]

theorem recorded_sourceSucc (items : List (Position nodes × String)) :
    (items.foldl record empty).sourceSucc =
      (items.filter fun item => (parseFrom item.2).target = sourceId).map Prod.fst := by
  rw [Fallible.foldl_appends _ record_sourceSucc]
  simp only [empty, List.nil_append]
  induction items with
  | nil => rfl
  | cons item items ih =>
      by_cases fromSource : (parseFrom item.2).target = sourceId <;>
        simp [fromSource, List.flatMap_cons, ih]

theorem mem_recorded_consumed {items : List (Position nodes × String)} {i : Position nodes}
    {label : String} :
    (i, label) ∈ (items.foldl record empty).consumed ↔ ∃ item ∈ items,
      (parseFrom item.2).target ≠ sourceId ∧ position nodes (parseFrom item.2).target = some i ∧
        (parseFrom item.2).label = some label := by
  rw [Fallible.foldl_appends _ record_consumed]
  simp only [empty, List.nil_append, List.mem_flatMap]
  refine exists_congr fun item => and_congr_right fun _ => ?_
  cases found : position nodes (parseFrom item.2).target <;>
    cases named : (parseFrom item.2).label <;> simp
  exact fun _ => and_congr eq_comm eq_comm

end Wiring

def readers (nodes : List NodeConfig) (id : String) : List (NodeConfig × Option String) :=
  nodes.flatMap fun consumer => consumer.from_.filterMap fun entry =>
    if (parseFrom entry).target = id then some (consumer, (parseFrom entry).label) else none

theorem map_nodeAt (nodes : List NodeConfig) :
    (List.finRange nodes.length).map nodeAt = nodes :=
  List.map_getElem_finRange nodes

theorem readers_eq (nodes : List NodeConfig) (id : String) :
    readers nodes id = (fromEntries nodes).filterMap fun item =>
      if (parseFrom item.2).target = id then some (nodeAt item.1, (parseFrom item.2).label)
      else none := by
  conv_lhs => rw [readers, ← map_nodeAt nodes, List.flatMap_map]
  rw [fromEntries, List.filterMap_flatMap]
  simp only [List.filterMap_map, Function.comp_def]

theorem readers_of_succ {nodes : List NodeConfig} (named : WellNamed [] nodes)
    (i : Position nodes) :
    ((fromEntries nodes).filterMap (Wiring.edgeFrom i)).map
        (fun edge => (nodeAt edge.target, edge.label)) =
      readers nodes (nodeAt i).id := by
  rw [readers_eq, List.map_filterMap]
  congr 1
  funext item
  have names : (parseFrom item.2).target ≠ sourceId ∧
      position nodes (parseFrom item.2).target = some i ↔
        (parseFrom item.2).target = (nodeAt i).id := by
    rw [named.position_iff, eq_comm (b := (nodeAt i).id)]
    refine and_iff_right_of_imp fun same => ?_
    exact same ▸ named.notSource _ (List.getElem_mem i.isLt)
  by_cases reads : (parseFrom item.2).target = (nodeAt i).id
  · rw [Wiring.edgeFrom, if_pos (names.mpr reads), if_pos reads]
    rfl
  · rw [Wiring.edgeFrom, if_neg (mt names.mp reads), if_neg reads]
    rfl

theorem readers_of_source (nodes : List NodeConfig) :
    ((fromEntries nodes).filter fun item => (parseFrom item.2).target = sourceId).map
        (fun item => nodeAt item.1) =
      (readers nodes sourceId).map Prod.fst := by
  rw [readers_eq, List.map_filterMap, ← List.filterMap_eq_map, List.filterMap_filter]
  congr 1
  funext item
  by_cases fromSource : (parseFrom item.2).target = sourceId <;> simp [fromSource]

end FusionPipeline
