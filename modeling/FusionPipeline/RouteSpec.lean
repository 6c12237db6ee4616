import FusionPipeline.Config

/-! A route node's declaration: labelled conditions in order, and a default. The graph and
the stage both read it here. -/

namespace FusionPipeline

def routeKind : String := "route"

/-- The `default` that drops unmatched records, and no label. -/
def dropDefault : String := "drop"

inductive Fallback where
  | label (label : String)
  | drop
  deriving DecidableEq, Repr

structure RouteRule where
  label : String
  condition : String
  deriving DecidableEq, Repr

structure RouteSpec where
  routes : List RouteRule
  fallback : Fallback
  deriving DecidableEq, Repr

namespace RouteSpec

def rules (node : NodeConfig) : List (Yaml × Yaml) → Except ConfigError (List RouteRule)
  | [] => .ok []
  | (label, condition) :: rest =>
      match label.asStr with
      | none => .error (node.invalidParams "route labels must be strings")
      | some label =>
          if label = dropDefault then
            .error (node.invalidParams
              ("route label `" ++ dropDefault ++ "` is reserved for `default: " ++ dropDefault ++ "`"))
          else
            match condition.asStr with
            | none =>
                .error (node.invalidParams
                  ("route `" ++ label ++ "` must map to a condition string"))
            | some condition => (rules node rest).map fun routes => ⟨label, condition⟩ :: routes

def fromNode (deserializer : Deserializer) (node : NodeConfig) : Except ConfigError RouteSpec :=
  match deserializer.routeParams node.params with
  | .error message => .error (node.invalidParams message)
  | .ok params =>
      if params.routes.isEmpty then
        .error (node.invalidParams "`routes` must name at least one label")
      else
        (rules node params.routes).map fun routes =>
          { routes
            fallback :=
              if params.default_ = dropDefault then .drop else .label params.default_ }

/-- Every label a node may read from: the rules' in order, then the default's if new. -/
def labels (spec : RouteSpec) : List String :=
  spec.routes.map RouteRule.label ++
    match spec.fallback with
    | .label label => if spec.routes.any fun rule => rule.label = label then [] else [label]
    | .drop => []

theorem mem_labels {spec : RouteSpec} {label : String} :
    label ∈ spec.labels ↔
      (∃ rule ∈ spec.routes, rule.label = label) ∨ spec.fallback = .label label := by
  cases fallback : spec.fallback with
  | drop => simp [labels, fallback]
  | label default_ =>
      simp only [labels, fallback, List.mem_append, List.mem_map, Fallback.label.injEq,
        List.any_eq_true, decide_eq_true_eq]
      by_cases declared : ∃ rule ∈ spec.routes, rule.label = default_
      · simp only [declared, ↓reduceIte, List.not_mem_nil, or_false]
        exact ⟨Or.inl, fun either => either.elim id fun same => same ▸ declared⟩
      · simp only [declared, ↓reduceIte, List.mem_singleton, eq_comm (a := label)]

theorem rules_labels {node : NodeConfig} {entries : List (Yaml × Yaml)} {routes : List RouteRule}
    (parsed : rules node entries = .ok routes) : ∀ rule ∈ routes, rule.label ≠ dropDefault := by
  induction entries generalizing routes with
  | nil =>
      simp only [rules, Except.ok.injEq] at parsed
      simp [← parsed]
  | cons entry rest ih =>
      simp only [rules] at parsed
      split at parsed
      next => cases parsed
      next label _ =>
        split at parsed
        next => cases parsed
        next notDrop =>
          split at parsed
          next => cases parsed
          next =>
            obtain ⟨others, parsedOthers, rfl⟩ := Fallible.map_ok_iff.mp parsed
            exact List.forall_mem_cons.mpr ⟨notDrop, ih parsedOthers⟩

theorem fromNode_labels {deserializer : Deserializer} {node : NodeConfig} {spec : RouteSpec}
    (parsed : fromNode deserializer node = .ok spec) : dropDefault ∉ spec.labels := by
  simp only [fromNode] at parsed
  split at parsed
  next => cases parsed
  next params _ =>
    split at parsed
    next => cases parsed
    next =>
      obtain ⟨routes, parsedRules, rfl⟩ := Fallible.map_ok_iff.mp parsed
      rw [mem_labels]
      rintro (⟨rule, member, isDrop⟩ | isDefault)
      · exact rules_labels parsedRules rule member isDrop
      · simp only at isDefault
        split at isDefault
        next => cases isDefault
        next notDrop => exact notDrop (Fallback.label.inj isDefault)

end RouteSpec

end FusionPipeline
