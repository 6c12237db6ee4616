import FusionPipeline.Handling

/-! What the counters add up to: every visit counts in once and out, dropped or errored once,
every record handed on counts in at each consumer, and nothing else counts at a node. -/

namespace FusionPipeline

open DepthFirst

def Effect.counts (metric : CounterMetric) (node : String) : Effect → Nat
  | measured (.count counted labels by_) =>
      if counted = metric ∧ labels.stage = some node then by_ else 0
  | _ => 0

def tally (metric : CounterMetric) (node : String) (effects : List Effect) : Nat :=
  (effects.map (Effect.counts metric node)).sum

section Tallies

variable {metric : CounterMetric} {node : String}

@[simp] theorem counts_count (counted : CounterMetric) (labels : Labels) (by_ : Nat) :
    (Effect.measured (.count counted labels by_)).counts metric node =
      if counted = metric ∧ labels.stage = some node then by_ else 0 := rfl

@[simp] theorem counts_emitted (event : Event) : (Effect.emitted event).counts metric node = 0 := rfl

@[simp] theorem tally_nil : tally metric node [] = 0 := rfl

@[simp] theorem tally_cons (effect : Effect) (effects : List Effect) :
    tally metric node (effect :: effects) = effect.counts metric node + tally metric node effects := by
  simp [tally]

@[simp] theorem tally_append (first second : List Effect) :
    tally metric node (first ++ second) = tally metric node first + tally metric node second := by
  simp [tally]

theorem tally_flatMap {Item : Type} (items : List Item) (leaves : Item → List Effect) :
    tally metric node (items.flatMap leaves) =
      (items.map fun item => tally metric node (leaves item)).sum := by
  induction items with
  | nil => rfl
  | cons item items ih => rw [List.flatMap_cons, tally_append, ih, List.map_cons, List.sum_cons]

theorem counts_aside {effect : Effect} (aside : effect.aside = true) :
    effect.counts metric node = 0 := by
  unfold Effect.counts
  split
  next counted labels by_ =>
    refine if_neg fun both => ?_
    simp [Effect.aside, both.2] at aside
  next => rfl

theorem tally_aside {effects : List Effect} (aside : ∀ effect ∈ effects, effect.aside = true) :
    tally metric node effects = 0 := by
  induction effects with
  | nil => rfl
  | cons effect effects ih =>
      obtain ⟨first, others⟩ := List.forall_mem_cons.mp aside
      rw [tally_cons, counts_aside first, ih others]

theorem tally_exported (traces : List RecordTrace) :
    tally metric node (traces.map Effect.exported) = 0 := by
  induction traces with
  | nil => rfl
  | cons trace traces ih => rw [List.map_cons, tally_cons, ih]; rfl

end Tallies

def Outcome.tally (metric : CounterMetric) (outcome : Outcome) : Nat :=
  match metric, outcome with
  | .recordsIn, _ => 1
  | .recordsOut, written _ => 1
  | .recordsOut, handedOn _ _ records => records.length
  | .recordsOut, unrouted _ => 1
  | .recordsDropped, dropped _ => 1
  | .recordsErrored, outcome => if outcome.failure?.isSome then 1 else 0
  | .sinkPublishErrors, refused _ => 1
  | .bytesOut, written bytes => bytes.toNat
  | _, _ => 0

section Visits

variable {World : Type} {walker : Walker World} {recordMeta : Meta}

theorem leaves_tally (metric : CounterMetric) (node : String) (visit : Visit) :
    tally metric node (walker.leaves recordMeta visit) =
      if visit.node = node then visit.outcome.tally metric else 0 := by
  have labelled : ∀ tenant, (visit.labels tenant).stage = some visit.node := fun _ => rfl
  have called : visit.called.counts metric node = 0 := by
    rw [Visit.called]
    split <;> rfl
  have took : ∀ tenant, (Effect.measured (visit.took tenant)).counts metric node = 0 := by
    intro tenant
    simp only [Visit.took]
    split <;> rfl
  by_cases same : visit.node = node
  · subst same
    cases outcome : visit.outcome <;> cases metric <;>
      simp [Walker.leaves, Visit.worked, Walker.failing, outcome, Outcome.halts, Outcome.counts,
        Outcome.failure?, Outcome.tally, called, took, labelled, Visit.at_,
        Metrics.recordsIn, Metrics.recordsOut, Metrics.bytesOut, Metrics.dropped,
        Metrics.sinkPublishError, Metrics.errored, Labels.withReason]
  · cases outcome : visit.outcome <;>
      simp [Walker.leaves, Visit.worked, Walker.failing, outcome, Outcome.halts, Outcome.counts,
        Outcome.failure?, called, took, labelled, Visit.at_, same,
        Metrics.recordsIn, Metrics.recordsOut, Metrics.bytesOut, Metrics.dropped,
        Metrics.sinkPublishError, Metrics.errored, Labels.withReason]

end Visits

def Visit.Leaves {World : Type} (walker : Walker World) (recordMeta : Meta) (visit : Visit)
    (out dropped errored : Nat) : Prop :=
  tally .recordsOut visit.node (walker.leaves recordMeta visit) = out ∧
    tally .recordsDropped visit.node (walker.leaves recordMeta visit) = dropped ∧
    tally .recordsErrored visit.node (walker.leaves recordMeta visit) = errored

def Passage.Calm {World : Type} (passage : Passage World) : Prop :=
  ∀ visit ∈ passage.visits, visit.outcome ≠ .panicked ∧ ∀ label, visit.outcome ≠ .unrouted label

theorem Passage.Handles.calm {World : Type} {walker : Walker World} {envelope : Envelope}
    {spans : TraceBuffer} {world : World} {handled : Walker.Handled World} {passage : Passage World}
    (handles : passage.Handles walker envelope spans world handled)
    (acked : Effect.acked ∈ handled.effects) : passage.Calm := by
  have settles : Effect.acked ∈ handled.effects.filter Effect.settles :=
    List.mem_filter.mpr ⟨acked, rfl⟩
  rw [handles.settles, List.mem_singleton] at settles
  intro visit member
  have intact := intact_of_acked settles.symm visit member
  refine ⟨fun panicked => ?_, fun label unrouted => ?_⟩
  · rw [panicked] at intact
    cases intact
  · rw [unrouted] at intact
    cases intact

/-- One envelope as a worker handled it, with the walk of its record if it resolved. -/
structure Handling (World : Type) where
  envelope : Envelope
  spans : TraceBuffer
  world : World
  handled : Walker.Handled World
  passage : Option (Passage World)

namespace Handling

variable {World : Type}

/-- Without a walk, the arrival was rejected and nothing called. -/
structure Genuine (walker : Walker World) (fuel : Nat) (handling : Handling World) : Prop where
  ran : walker.handle fuel handling.envelope handling.spans handling.world = some handling.handled
  walked : ∀ passage, handling.passage = some passage →
    passage.Handles walker handling.envelope handling.spans handling.world handling.handled
  rejected : handling.passage = none → handling.handled.effects.filter Effect.calls = [] ∧
    ∃ rejected entered, walker.resolve handling.envelope.arrival
      (walker.begin_ handling.spans handling.world).2 = (.error rejected, entered)

def leaves (walker : Walker World) (handling : Handling World) : List Effect :=
  handling.passage.elim [] (Passage.leaves walker)

structure Balanced (walker : Walker World) (handling : Handling World) : Prop where
  nodes : ∀ metric node, node ≠ sourceId →
    tally metric node handling.handled.effects = tally metric node (handling.leaves walker)
  sourceIn : tally .recordsIn sourceId handling.handled.effects = 1
  sourceOut : tally .recordsOut sourceId handling.handled.effects =
    if handling.passage.isSome then 1 else 0
  sourceDropped : tally .recordsDropped sourceId handling.handled.effects =
    if handling.passage.isSome then 0 else 1

def InTurn : TraceBuffer → World → List (Handling World) → Prop
  | _, _, [] => True
  | spans, world, handling :: rest =>
      handling.spans = spans ∧ handling.world = world ∧
        InTurn handling.handled.spans handling.handled.world rest

end Handling

section Ledgers

variable {World : Type} {walker : Walker World}

theorem arrives_tally (arrival : Arrival) (resolved : Except Rejected Meta)
    (metric : CounterMetric) (node : String) :
    tally metric node (walker.arrives arrival resolved) =
      if .recordsIn = metric ∧ sourceId = node then 1 else 0 := by
  obtain ⟨after, aside, arrives⟩ := arrives_leaves walker arrival resolved
  rw [arrives, tally_cons, tally_aside aside]
  simp [Metrics.recordsIn, Labels.new]

theorem reject_tally (delivery : UInt64) (rejected : Rejected) (metric : CounterMetric)
    (node : String) : tally metric node (Walker.reject delivery rejected) =
      if .recordsDropped = metric ∧ sourceId = node then 1 else 0 := by
  obtain ⟨reason, tenant⟩ := rejected
  cases reason <;>
    simp [Walker.reject, Metrics.dropped, Metrics.sourceNak, Labels.new, Labels.withReason,
      Labels.forTenant, Effect.counts]

theorem source_balanced {handlings : List (Handling World)}
    (each : ∀ handling ∈ handlings, handling.Balanced walker) :
    (handlings.map fun handling => tally .recordsIn sourceId handling.handled.effects).sum =
        handlings.length ∧
      (handlings.map fun handling => tally .recordsOut sourceId handling.handled.effects).sum =
        handlings.countP (fun handling => handling.passage.isSome) ∧
      (handlings.map fun handling => tally .recordsDropped sourceId handling.handled.effects).sum =
        handlings.countP (fun handling => ¬ handling.passage.isSome) := by
  induction handlings with
  | nil => exact ⟨rfl, rfl, rfl⟩
  | cons handling handlings ih =>
      obtain ⟨balanced, others⟩ := List.forall_mem_cons.mp each
      obtain ⟨came, left, lost⟩ := ih others
      simp only [List.map_cons, List.sum_cons, balanced.sourceIn, balanced.sourceOut,
        balanced.sourceDropped, came, left, lost, List.countP_cons, List.length_cons]
      cases handling.passage <;> simp [Nat.add_comm]

variable (named : ∀ config ∈ walker.pipeline.dag.nodes, config.id ≠ sourceId)
include named

theorem passage_at_source {passage : Passage World} (served : passage.Served walker)
    (metric : CounterMetric) : tally metric sourceId (passage.leaves walker) = 0 := by
  rw [Passage.leaves, tally_flatMap, List.sum_eq_zero_iff]
  intro count member
  obtain ⟨visit, visited, rfl⟩ := List.mem_map.mp member
  obtain ⟨config, found, same⟩ := Option.map_eq_some_iff.mp
    (served_genuine served entry_bound visit visited).node
  rw [leaves_tally, if_neg (same ▸ named config (List.mem_of_getElem? found))]

theorem handle_balanced {fuel : Nat} {spans : TraceBuffer}
    (enough : walker.pipeline.dag.nodes.length ≤ fuel)
    (traces : spans.tracing = walker.signals.tracing) (envelope : Envelope) (world : World) :
    ∃ handled passage, handled.spans.tracing = walker.signals.tracing ∧
      Handling.Genuine walker fuel ⟨envelope, spans, world, handled, passage⟩ ∧
      Handling.Balanced walker ⟨envelope, spans, world, handled, passage⟩ := by
  rcases resolves : walker.resolve envelope.arrival (walker.begin_ spans world).2 with
    ⟨rejected | recordMeta, entered⟩
  · refine ⟨⟨walker.arrives envelope.arrival (.error rejected) ++
        Walker.reject envelope.arrival.deliveryCount rejected, (walker.begin_ spans world).1, entered⟩,
      none, (begin_ready traces world).1.traces, ⟨?_, by simp, fun _ => ⟨?_, rejected, entered, resolves⟩⟩,
      ?_, ?_, ?_, ?_⟩
    · simp only [Walker.handle, resolves]
    · obtain ⟨after, aside, arrives⟩ := arrives_leaves walker envelope.arrival (.error rejected)
      obtain ⟨reason, tenant⟩ := rejected
      rw [List.filter_append, arrives, List.filter_cons_of_neg (by simp [Effect.calls]),
        filter_aside calls_ignores aside]
      cases reason <;> rfl
    · intro metric node notSource
      simp [arrives_tally, reject_tally, notSource.symm, Handling.leaves]
    all_goals simp [arrives_tally, reject_tally]
  · obtain ⟨handled, passage, now, before, handles, walks, rfl, tracing, aside, effects⟩ :=
      handle_passage enough traces resolves
    have tallies : ∀ metric node, tally metric node handled.effects =
        (if .recordsIn = metric ∧ sourceId = node then 1 else 0) +
          (if .recordsOut = metric ∧ sourceId = node then 1 else 0) +
          tally metric node (passage.leaves walker) := by
      intro metric node
      rw [effects]
      simp only [tally_append, arrives_tally, tally_exported, tally_aside aside]
      cases passage.visits.findSome? (Visit.failure? passage.recordMeta) <;>
        simp [Metrics.recordsOut, Labels.new, settlement, Effect.counts, Passage.leaves]
    have atSource := passage_at_source named walks.served
    refine ⟨handled, some passage, tracing, ⟨handles, ?_, by simp⟩, ?_, ?_, ?_, ?_⟩
    · rintro other same
      obtain rfl := Option.some.inj same
      exact walks
    · intro metric node notSource
      simp [tallies, notSource.symm, Handling.leaves]
    all_goals simp [tallies, atSource]

theorem handleAll_balanced {fuel : Nat} (enough : walker.pipeline.dag.nodes.length ≤ fuel)
    (envelopes : List Envelope) (spans : TraceBuffer)
    (traces : spans.tracing = walker.signals.tracing) (world : World) :
    ∃ handled handlings, walker.handleAll fuel envelopes spans world = some handled ∧
      handlings.map Handling.envelope = envelopes ∧ Handling.InTurn spans world handlings ∧
      handled.effects = handlings.flatMap (fun handling => handling.handled.effects) ∧
      ∀ handling ∈ handlings, handling.Genuine walker fuel ∧ handling.Balanced walker := by
  induction envelopes generalizing spans world with
  | nil => exact ⟨_, [], rfl, rfl, trivial, rfl, by simp⟩
  | cons envelope envelopes ih =>
      obtain ⟨first, passage, tracing, genuine, balanced⟩ :=
        handle_balanced named enough traces envelope world
      obtain ⟨rest, handlings, continues, sameEnvelopes, inTurn, effects, each⟩ :=
        ih first.spans tracing first.world
      refine ⟨_, ⟨envelope, spans, world, first, passage⟩ :: handlings,
        by simp only [Walker.handleAll, genuine.ran, continues]; rfl, congrArg _ sameEnvelopes,
        ⟨rfl, rfl, inTurn⟩, congrArg _ effects, List.forall_mem_cons.mpr ⟨⟨genuine, balanced⟩, each⟩⟩

omit named

/-- What a visit does to the counters: in once at its node, and out by the records it hands on
(one, or the length of a split), dropped by one, or errored by one. -/
structure Visit.Accounted (walker : Walker World) (recordMeta : Meta) (visit : Visit) : Prop where
  came : tally .recordsIn visit.node (walker.leaves recordMeta visit) = 1
  went : match visit.outcome with
    | .written _ => Visit.Leaves walker recordMeta visit 1 0 0
    | .handedOn result _ records => Visit.Leaves walker recordMeta visit records.length 0 0 ∧
        (records.length = 1 ∨ result = .split records.length)
    | .dropped _ => Visit.Leaves walker recordMeta visit 0 1 0
    | .refused _ => Visit.Leaves walker recordMeta visit 0 0 1
    | .failed _ _ => Visit.Leaves walker recordMeta visit 0 0 1
    | .unrouted _ => False
    | .panicked => False
  elsewhere : ∀ metric node, node ≠ visit.node →
    tally metric node (walker.leaves recordMeta visit) = 0

theorem visit_accounted {recordMeta : Meta} {visit : Visit}
    (genuine : visit.Genuine walker.pipeline.dag) (unpanicked : visit.outcome ≠ .panicked)
    (routed : ∀ label, visit.outcome ≠ .unrouted label) :
    visit.Accounted walker recordMeta := by
  have here : ∀ metric, tally metric visit.node (walker.leaves recordMeta visit) =
      visit.outcome.tally metric := fun metric => by rw [leaves_tally, if_pos rfl]
  have count := genuine.outcome.count
  refine ⟨here _, ?_, fun metric node other => by rw [leaves_tally, if_neg (Ne.symm other)]⟩
  simp only [Visit.Leaves, here]
  cases outcome : visit.outcome with
  | written bytes => exact ⟨rfl, rfl, rfl⟩
  | handedOn result targets records =>
      rw [outcome] at count
      exact ⟨⟨rfl, rfl, rfl⟩, count⟩
  | dropped reason => exact ⟨rfl, rfl, rfl⟩
  | refused error => exact ⟨rfl, rfl, rfl⟩
  | failed kind error => exact ⟨rfl, rfl, rfl⟩
  | unrouted label => exact routed label outcome
  | panicked => exact unpanicked outcome

theorem visits_in (recordMeta : Meta) (node : String) (visits : List Visit) :
    tally .recordsIn node (visits.flatMap (walker.leaves recordMeta)) =
      visits.countP fun visit => decide (visit.node = node) := by
  induction visits with
  | nil => rfl
  | cons visit visits ih =>
      rw [List.flatMap_cons, tally_append, leaves_tally, ih, List.countP_cons, Nat.add_comm]
      simp [Outcome.tally]

theorem branches_countP (visit : Visit) (chosen : NodeIndex → Bool) :
    visit.branches.countP (fun task => chosen task.index) =
      visit.outcome.records.length * visit.outcome.targets.countP chosen := by
  rw [Visit.branches]
  induction visit.outcome.records with
  | nil => simp
  | cons record records ih =>
      rw [List.flatMap_cons, List.countP_append, ih, List.countP_map, List.length_cons,
        Nat.add_mul, Nat.one_mul, Nat.add_comm]
      rfl

def Dag.names (dag : Dag) (node : String) (index : NodeIndex) : Bool :=
  decide ((dag.node? index).map NodeConfig.id = some node)

/-- What counts in at a node: the record if the source hands it there, and each record handed
on by a visit, once for each consumer that is the node. -/
theorem passage_conserves {passage : Passage World} (served : passage.Served walker)
    (calm : passage.Calm) (node : String) :
    tally .recordsIn node (passage.leaves walker) =
      walker.pipeline.dag.sourceSuccessors.countP (walker.pipeline.dag.names node) +
        (passage.visits.map fun visit => visit.outcome.records.length *
          (walker.pipeline.dag.consumers visit.task.index visit.outcome.label?).countP
            (walker.pipeline.dag.names node)).sum := by
  have genuine := served_genuine served entry_bound
  have goesOn : passage.halted = false := by
    refine Bool.eq_false_iff.mpr fun halted => ?_
    obtain ⟨visit, member, halts⟩ := (DepthFirst.Served.halts_iff served).mp halted
    have unpanicked := (calm visit member).1
    cases outcome : visit.outcome <;> simp_all [Walker.service, Outcome.halts]
  have visited : tally .recordsIn node (passage.leaves walker) =
      (passage.visits.map Visit.task).countP fun task => walker.pipeline.dag.names node task.index := by
    rw [Passage.leaves, visits_in, List.countP_map]
    refine List.countP_congr fun visit member => ?_
    simp only [Dag.names, Function.comp_apply, (genuine visit member).node, Option.some.injEq]
  have perm : (passage.visits.map Visit.task).Perm
      (walker.entry passage.record ++ passage.visits.flatMap Visit.branches) :=
    DepthFirst.Served.tasks_perm served goesOn
  rw [visited, perm.countP_eq, List.countP_append, Walker.entry, List.countP_map, List.countP_flatMap]
  refine congrArg _ (congrArg List.sum (List.map_congr_left fun visit member => ?_))
  rw [Function.comp_apply, branches_countP]
  rcases (genuine visit member).outcome.targets with ⟨none, _⟩ | consumers
  · rw [none, List.length_nil, Nat.zero_mul, Nat.zero_mul]
  · rw [consumers]

def Walker.started (walker : Walker World) (world : World) : TraceBuffer × World :=
  let (started, world) := walker.clock.instant world
  let (startedAt, world) := walker.clock.system world
  (.new walker.signals.tracing started startedAt, world)

/-- Over a worker's whole run, each envelope handled where the one before left off, and its record
walked if it resolved: at the source, records in are records out and dropped; at each node, the
counters are what the visits of the walks leave; and in every calm walk each visit counts in once
and out once, and each record handed on counts in at each of its consumers. -/
theorem work_accounted {deserializer : Deserializer} {registry : Registry World} {yaml : String}
    {config : Config} {fuel : Nat} (loaded : Config.fromYaml deserializer yaml = .ok config)
    (compiled : Pipeline.compile deserializer registry config = .ok walker.pipeline)
    (enough : walker.pipeline.dag.nodes.length ≤ fuel) (envelopes : List Envelope) (world : World) :
    ∃ (handled : Walker.Handled World) (handlings : List (Handling World)),
      walker.work fuel envelopes world = some handled ∧
      handlings.map Handling.envelope = envelopes ∧
      Handling.InTurn (walker.started world).1 (walker.started world).2 handlings ∧
      handled.effects = handlings.flatMap (fun handling => handling.handled.effects) ∧
      (∀ handling ∈ handlings, handling.Genuine walker fuel ∧ handling.Balanced walker) ∧
      tally .recordsIn sourceId handled.effects = envelopes.length ∧
      tally .recordsIn sourceId handled.effects =
        tally .recordsOut sourceId handled.effects + tally .recordsDropped sourceId handled.effects ∧
      tally .recordsOut sourceId handled.effects =
        handlings.countP (fun handling => handling.passage.isSome) ∧
      (∀ metric, ∀ node ∈ config.nodes, tally metric node.id handled.effects =
        (handlings.map fun handling => tally metric node.id (handling.leaves walker)).sum) ∧
      ∀ handling ∈ handlings, ∀ passage, handling.passage = some passage → passage.Calm →
        (∀ visit ∈ passage.visits, visit.Accounted walker passage.recordMeta) ∧
        ∀ node ∈ config.nodes, tally .recordsIn node.id (handling.leaves walker) =
          walker.pipeline.dag.sourceSuccessors.countP (walker.pipeline.dag.names node.id) +
            (passage.visits.map fun visit => visit.outcome.records.length *
              (walker.pipeline.dag.consumers visit.task.index visit.outcome.label?).countP
                (walker.pipeline.dag.names node.id)).sum := by
  have wellNamed := fromYaml_wellNamed loaded
  have describes := fromConfig_describes wellNamed (compile_ok compiled).1
  have named : ∀ config ∈ walker.pipeline.dag.nodes, config.id ≠ sourceId := fun config member =>
    wellNamed.notSource config (describes.permuted.mem_iff.mp member)
  obtain ⟨handled, handlings, runs, sameEnvelopes, inTurn, effects, each⟩ :=
    handleAll_balanced named enough envelopes (walker.started world).1 rfl (walker.started world).2
  have tallies : ∀ metric node, tally metric node handled.effects =
      (handlings.map fun handling => tally metric node handling.handled.effects).sum := by
    intro metric node
    rw [effects, tally_flatMap]
  have source := source_balanced fun handling member => (each handling member).2
  refine ⟨handled, handlings, runs, sameEnvelopes, inTurn, effects, each, ?_, ?_, ?_, ?_, ?_⟩
  · rw [tallies, source.1, ← sameEnvelopes, List.length_map]
  · rw [tallies, tallies, tallies, source.1, source.2.1, source.2.2, List.length_eq_countP_add_countP]
  · rw [tallies, source.2.1]
  · intro metric node member
    rw [tallies]
    refine congrArg List.sum (List.map_congr_left fun handling handled => ?_)
    exact (each handling handled).2.nodes metric node.id (wellNamed.notSource node member)
  · intro handling member passage walked calm
    have served := ((each handling member).1.walked passage walked).served
    have leaves : handling.leaves walker = passage.leaves walker := by
      rw [Handling.leaves, walked]
      rfl
    refine ⟨fun visit visited => ?_, fun node _ => ?_⟩
    · exact visit_accounted (served_genuine served entry_bound visit visited)
        (calm visit visited).1 (calm visit visited).2
    · rw [leaves]
      exact passage_conserves served calm node.id

def namelessEnvelope : Envelope :=
  { sampleEnvelope with arrival := { sampleEnvelope.arrival with recordId := none } }

def Effect.acks : Effect → Bool
  | acked => true
  | _ => false

def storedOnce (pipeline : Pipeline (List Record)) : Bool :=
  ((storingWalker pipeline).handle 2 sampleEnvelope (.new true 0 0) []).any fun handled =>
    handled.effects.any Effect.acks && (handled.effects.filter Effect.calls).length == 2

theorem storing_works : ∃ config pipeline, Config.fromYaml keepThenStore "name: logs" = .ok config ∧
    Pipeline.compile keepThenStore storing config = .ok pipeline ∧ pipeline.dag.nodes.length = 2 ∧
    storedOnce pipeline = true := by
  obtain ⟨config, pipeline, loaded, compiled, count⟩ := storing_compiles
  have works : ((Config.fromYaml keepThenStore "name: logs").toOption.any fun config =>
      (Pipeline.compile keepThenStore storing config).toOption.any storedOnce) = true := by
    decide +kernel
  rw [loaded] at works
  simp only [Except.toOption, Option.any_some, compiled] at works
  exact ⟨config, pipeline, loaded, compiled, count, works⟩

/-- Two envelopes of which one has no id: one walk, whose visits count as they should. -/
theorem work_accounted_stored : ∃ (config : Config) (pipeline : Pipeline (List Record))
    (handled : Walker.Handled (List Record)) (first second : Handling (List Record))
    (passage : Passage (List Record)),
    Config.fromYaml keepThenStore "name: logs" = .ok config ∧
      (storingWalker pipeline).work 2 [sampleEnvelope, namelessEnvelope] [] = some handled ∧
      handled.effects = first.handled.effects ++ second.handled.effects ∧
      first.passage = some passage ∧
      passage.Handles (storingWalker pipeline) sampleEnvelope (.new true 0 0) [] first.handled ∧
      passage.recordMeta = sampleMeta ∧ passage.visits.length = 2 ∧
      (∀ visit ∈ passage.visits, visit.Accounted (storingWalker pipeline) passage.recordMeta) ∧
      second.envelope = namelessEnvelope ∧ second.passage = none ∧
      tally .recordsIn sourceId handled.effects = 2 ∧
      tally .recordsOut sourceId handled.effects = 1 ∧
      ∀ metric, ∀ node ∈ config.nodes, tally metric node.id handled.effects =
        tally metric node.id (passage.leaves (storingWalker pipeline)) := by
  obtain ⟨config, pipeline, loaded, compiled, count, works⟩ := storing_works
  have compiles : Pipeline.compile keepThenStore storing config =
      .ok (storingWalker pipeline).pipeline := compiled
  obtain ⟨handled, handlings, runs, envelopes, inTurn, effects, each, came, _, out, nodes, calm⟩ :=
    work_accounted loaded compiles count.le [sampleEnvelope, namelessEnvelope] []
  obtain ⟨⟨_, spans, world, once, walk⟩, rest, rfl, isFirst, envelopes⟩ := List.map_eq_cons_iff.mp envelopes
  obtain ⟨⟨_, spansToo, worldToo, again, more⟩, done, rfl, isSecond, ended⟩ :=
    List.map_eq_cons_iff.mp envelopes
  obtain rfl := List.map_eq_nil_iff.mp ended
  obtain rfl : sampleEnvelope = _ := isFirst.symm
  obtain rfl : namelessEnvelope = _ := isSecond.symm
  obtain ⟨rfl, rfl, rfl, rfl, -⟩ := inTurn
  rw [List.forall_mem_cons, List.forall_mem_singleton] at each
  obtain ⟨⟨genuine, balanced⟩, genuineToo, balancedToo⟩ := each
  have walked : walk.isSome = true := by
    cases walk with
    | some passage => rfl
    | none =>
        obtain ⟨_, rejected, entered, rejects⟩ := genuine.rejected rfl
        cases rejects
  have turnedDown : more = none := by
    cases more with
    | none => rfl
    | some passage => cases (genuineToo.walked passage rfl).resolves
  subst turnedDown
  obtain ⟨passage, rfl⟩ := Option.isSome_iff_exists.mp walked
  have handles := genuine.walked passage rfl
  have ran : (storingWalker pipeline).handle 2 sampleEnvelope (.new true 0 0) [] = some once := genuine.ran
  rw [storedOnce, ran, Option.any_some, Bool.and_eq_true, List.any_eq_true] at works
  obtain ⟨⟨effect, member, acks⟩, calls⟩ := works
  have acked : Effect.acked ∈ once.effects := by
    cases effect with
    | acked => exact member
    | _ => cases acks
  have resolved : Except.ok sampleMeta = Except.ok passage.recordMeta :=
    congrArg Prod.fst handles.resolves
  have visits := congrArg List.length handles.calls
  rw [List.length_map, eq_of_beq calls] at visits
  have both : handled.effects = once.effects ++ again.effects := by simpa using effects
  refine ⟨config, pipeline, handled, _, ⟨namelessEnvelope, once.spans, once.world, again, none⟩, passage,
    loaded, runs, both, rfl, handles, (Except.ok.inj resolved).symm, visits.symm,
    (calm _ (.head _) passage rfl (handles.calm acked)).1, rfl, rfl, came, out,
    fun metric node member => ?_⟩
  rw [nodes metric node member]
  simp [Handling.leaves]

end Ledgers

end FusionPipeline
