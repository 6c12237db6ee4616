import FusionPipeline.DagValid
import FusionPipeline.StateStore

/-! The keys of two handles meet only when the handles and the stage keys are the same. -/

namespace FusionPipeline

def escapeChar (char : Char) : List Char :=
  if char = ':' then "%3A".toList else if char = '%' then "%25".toList else [char]

theorem escapeSegment_toList (segment : String) :
    (escapeSegment segment).toList = segment.toList.flatMap escapeChar := by
  simp only [escapeSegment, String.toList_ofList]
  rfl

theorem escapeChar_ne_nil (char : Char) : escapeChar char ≠ [] := by
  unfold escapeChar
  split_ifs <;> simp

theorem escapeChar_colon (char : Char) : ':' ∉ escapeChar char := by
  unfold escapeChar
  split_ifs with isColon isPercent
  · decide
  · decide
  · intro member
    exact isColon (List.mem_singleton.mp member).symm

theorem escapeChar_prefixFree (first second : Char) (rest others : List Char)
    (same : escapeChar first ++ rest = escapeChar second ++ others) : first = second := by
  unfold escapeChar at same
  split_ifs at same with firstColon secondColon secondPercent firstPercent secondColon secondPercent
    secondColon secondPercent
  · rw [firstColon, secondColon]
  · simp at same
  · simp only [String.reduceToList, List.cons_append, List.cons.injEq] at same
    exact absurd same.1.symm secondPercent
  · simp at same
  · rw [firstPercent, secondPercent]
  · simp only [String.reduceToList, List.cons_append, List.cons.injEq] at same
    exact absurd same.1.symm secondPercent
  · simp only [String.reduceToList, List.cons_append, List.cons.injEq] at same
    exact absurd same.1 firstPercent
  · simp only [String.reduceToList, List.cons_append, List.cons.injEq] at same
    exact absurd same.1 firstPercent
  · simpa using (List.cons.inj same).1

theorem escapeSegment_injective {segment other : String}
    (same : escapeSegment segment = escapeSegment other) : segment = other := by
  have lists := congrArg String.toList same
  rw [escapeSegment_toList, escapeSegment_toList] at lists
  exact String.toList_inj.mp (Text.flatMap_injective escapeChar_ne_nil escapeChar_prefixFree lists)

theorem escapeSegment_colon (segment : String) : ':' ∉ (escapeSegment segment).toList := by
  rw [escapeSegment_toList, List.mem_flatMap]
  rintro ⟨char, _, member⟩
  exact escapeChar_colon char member

theorem key_toList (pipeline tenant node key : String) (declared : Bool) :
    ((State.new pipeline tenant node declared).key key).toList =
      pipeline.toList ++ ':' :: ((escapeSegment tenant).toList ++ ':' ::
        (node.toList ++ ':' :: key.toList)) := by
  simp [State.key, State.new]

theorem key_inj {pipeline other node otherNode : String} (tenant otherTenant key otherKey : String)
    (declared otherDeclared : Bool) (named : ':' ∉ pipeline.toList) (namedToo : ':' ∉ other.toList)
    (plain : ':' ∉ node.toList) (plainToo : ':' ∉ otherNode.toList) :
    (State.new pipeline tenant node declared).key key =
        (State.new other otherTenant otherNode otherDeclared).key otherKey ↔
      pipeline = other ∧ tenant = otherTenant ∧ node = otherNode ∧ key = otherKey := by
  rw [← String.toList_inj, key_toList, key_toList, Text.separated_inj named namedToo,
    Text.separated_inj (escapeSegment_colon tenant) (escapeSegment_colon otherTenant),
    Text.separated_inj plain plainToo, String.toList_inj, String.toList_inj, String.toList_inj,
    String.toList_inj]
  have escaped : escapeSegment tenant = escapeSegment otherTenant ↔ tenant = otherTenant :=
    ⟨escapeSegment_injective, congrArg escapeSegment⟩
  rw [escaped]

theorem fromYaml_name {deserializer : Deserializer} {yaml : String} {config : Config}
    (accepted : Config.fromYaml deserializer yaml = .ok config) : ':' ∉ config.name.toList := by
  simp only [Config.fromYaml] at accepted
  split at accepted
  next => cases accepted
  next raw _ =>
    split at accepted
    next => cases accepted
    next notColon =>
      obtain ⟨nodes, loaded, rfl⟩ := Fallible.map_ok_iff.mp accepted
      simpa [Text.contains] using notColon

/-- The handles of nodes of accepted configs give the same key only for the same pipeline,
tenant, node and stage key; an operation through one neither changes nor reads a key of
another's. -/
theorem state_keys_isolated {deserializer otherDeserializer : Deserializer}
    {yaml otherYaml : String} {config other : Config} {node otherNode : NodeConfig}
    (loaded : Config.fromYaml deserializer yaml = .ok config)
    (loadedToo : Config.fromYaml otherDeserializer otherYaml = .ok other)
    (member : node ∈ config.nodes) (memberToo : otherNode ∈ other.nodes)
    (tenant otherTenant : String) (declared otherDeclared : Bool) :
    let state := State.new config.name tenant node.id declared
    let otherState := State.new other.name otherTenant otherNode.id otherDeclared
    (∀ key otherKey, state.key key = otherState.key otherKey ↔
      config.name = other.name ∧ tenant = otherTenant ∧ node.id = otherNode.id ∧ key = otherKey) ∧
    (¬ (config.name = other.name ∧ tenant = otherTenant ∧ node.id = otherNode.id) →
      ∀ (request : StoreOp) (ending : Ending) (store : Store),
        (∀ key, ((state.operate request).perform (Store.answering ending) store).2 (otherState.key key) =
          store (otherState.key key)) ∧
        ∀ changed : Store, (∀ name, (∀ key, name ≠ otherState.key key) → changed name = store name) →
          ((state.operate request).perform (Store.answering ending) changed).1 =
            ((state.operate request).perform (Store.answering ending) store).1) := by
  intro state otherState
  have injective : ∀ key otherKey, state.key key = otherState.key otherKey ↔
      config.name = other.name ∧ tenant = otherTenant ∧ node.id = otherNode.id ∧ key = otherKey :=
    fun key otherKey => key_inj tenant otherTenant key otherKey declared otherDeclared
      (fromYaml_name loaded) (fromYaml_name loadedToo)
      ((fromYaml_wellNamed loaded).notColon node member)
      ((fromYaml_wellNamed loadedToo).notColon otherNode memberToo)
  refine ⟨injective, fun apart request ending store => ?_⟩
  have foreign : ∀ key, otherState.key key ≠ state.key request.key := by
    intro key same
    obtain ⟨sameName, sameTenant, sameNode, _⟩ := (injective _ _).mp same.symm
    exact apart ⟨sameName, sameTenant, sameNode⟩
  have only := state.operate_only request
  refine ⟨fun key => perform_other only (foreign key) ending store, fun changed agrees => ?_⟩
  exact perform_reads only ending (agrees _ fun key => (foreign key).symm)

theorem state_keys_isolated_tenants : ∃ config node,
    Config.fromYaml keepThenStore "name: logs" = .ok config ∧ node ∈ config.nodes ∧
      (∀ key otherKey, (State.new config.name "a:b" node.id true).key key ≠
        (State.new config.name "a%3Ab" node.id true).key otherKey) ∧
      ∀ key (store : Store),
        (((State.new config.name "a:b" node.id true).operate (.del "seen")).perform
          (Store.answering .answers) store).2 ((State.new config.name "a%3Ab" node.id true).key key) =
            store ((State.new config.name "a%3Ab" node.id true).key key) := by
  obtain ⟨config, loaded, node, member⟩ : ∃ config,
      Config.fromYaml keepThenStore "name: logs" = .ok config ∧ ∃ node, node ∈ config.nodes :=
    ⟨_, rfl, _, .head _⟩
  have isolated := state_keys_isolated loaded loaded member member "a:b" "a%3Ab" true true
  have apart : "a:b" ≠ "a%3Ab" := by decide
  refine ⟨config, node, loaded, member, fun key otherKey same => ?_, fun key store => ?_⟩
  · exact apart ((isolated.1 key otherKey).mp same).2.1
  · exact (isolated.2 (fun same => apart same.2.1) (.del "seen") .answers store).1 key

end FusionPipeline
