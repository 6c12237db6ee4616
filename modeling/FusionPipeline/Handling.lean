import FusionPipeline.WalkVisits

/-! One envelope handled: what is done before the walk, its visits, and the settlement. -/

namespace FusionPipeline

open DepthFirst

namespace Effect

def settles : Effect → Bool
  | acked => true
  | nakked _ _ => true
  | _ => false

def calls : Effect → Bool
  | processed _ _ => true
  | attempted _ _ => true
  | _ => false

def write? : Effect → Option (NodeIndex × Record)
  | attempted index record => some (index, record)
  | _ => none

def aside : Effect → Bool
  | emitted _ => true
  | measured (.count _ labels _) => labels.stage.isNone
  | measured (.observe _ _ _) => true
  | _ => false

/-- What is picked from a log that is neither a measurement nor a log line. -/
structure Ignores {Picked : Type} (pick : Effect → Option Picked) : Prop where
  measured : ∀ measurement, pick (.measured measurement) = none
  emitted : ∀ event, pick (.emitted event) = none

theorem Ignores.aside {Picked : Type} {pick : Effect → Option Picked} (ignores : Ignores pick)
    {effect : Effect} (isAside : effect.aside = true) : pick effect = none := by
  cases effect with
  | measured measurement => exact ignores.measured measurement
  | emitted event => exact ignores.emitted event
  | _ => cases isAside

theorem Ignores.nothing {Picked : Type} {pick : Effect → Option Picked} (ignores : Ignores pick)
    {effects : List Effect} (aside : ∀ effect ∈ effects, effect.aside = true) :
    effects.filterMap pick = [] :=
  List.filterMap_eq_nil_iff.mpr fun effect member => ignores.aside (aside effect member)

end Effect

section Handling

variable {World : Type} {walker : Walker World} {recordMeta : Meta}

theorem begin_ready {spans : TraceBuffer} (traces : spans.tracing = walker.signals.tracing)
    (world : World) :
    (walker.begin_ spans world).1.Ready walker.signals.tracing ∧
      (walker.begin_ spans world).1.opened = 0 ∧
      (walker.signals.tracing = true → (walker.begin_ spans world).1.drafts = []) := by
  cases traced : walker.signals.tracing with
  | false =>
      rw [traced] at traces
      simp only [Walker.begin_, traces, Bool.false_eq_true, ↓reduceIte, TraceBuffer.begin_]
      exact ⟨⟨rfl, by simp, by simp⟩, trivial, by simp⟩
  | true =>
      rw [traced] at traces
      simp only [Walker.begin_, traces, ↓reduceIte, TraceBuffer.begin_]
      exact ⟨⟨rfl, by simp, by simp⟩, trivial, by simp⟩

theorem entry_bound {record : Record} :
    ∀ task ∈ walker.entry record, task.index < walker.pipeline.dag.nodes.length := by
  intro task member
  obtain ⟨index, isFirst, rfl⟩ := List.mem_map.mp member
  exact walker.pipeline.forward.sources index isFirst

theorem arrives_leaves (walker : Walker World) (arrival : Arrival) (resolved : Except Rejected Meta) :
    ∃ after, (∀ effect ∈ after, effect.aside = true) ∧ walker.arrives arrival resolved =
      .measured (Metrics.recordsIn (Labels.new (Walker.tenantOf resolved) sourceId)) :: after := by
  refine ⟨_, ?_, rfl⟩
  intro effect member
  rcases List.mem_append.mp member with sized | redelivered
  · cases size : arrival.bytes with
    | none =>
        rw [size] at sized
        cases sized
    | some bytes =>
        rw [size] at sized
        rw [List.mem_singleton.mp sized]
        rfl
  · split at redelivered
    · rcases List.mem_cons.mp redelivered with rfl | event
      · rfl
      · rw [List.mem_singleton.mp event]
        rfl
    · cases redelivered

/-- With fuel for every node, a resolved envelope is walked by the visits of the graph from
its first nodes, and settled on what they left. -/
theorem handle_walks {fuel : Nat} {envelope : Envelope} {spans : TraceBuffer}
    {world entered : World} (enough : walker.pipeline.dag.nodes.length ≤ fuel)
    (traces : spans.tracing = walker.signals.tracing)
    (resolves : walker.resolve envelope.arrival (walker.begin_ spans world).2 =
      (.ok recordMeta, entered)) :
    ∃ visits last halted walk,
      Served (walker.service recordMeta) (walker.entry envelope.record) 0 entered visits last halted ∧
      Shows walker recordMeta
        (walker.entering envelope.arrival recordMeta (walker.begin_ spans world).1 entered)
        visits last walk ∧
      walker.handle fuel envelope spans world = some (walker.conclude recordMeta walk) := by
  obtain ⟨ready, opened, _⟩ := begin_ready traces world
  have nodes : ∀ target ∈ walker.pipeline.dag.sourceSuccessors, ∀ walk : Walk World,
      walk.spans.Ready walker.signals.tracing →
        Walks walker recordMeta [⟨target, envelope.record, none⟩] walk
          (walker.runNode recordMeta fuel target envelope.record none walk) :=
    fun target member walk ready =>
      runNode_walks ⟨target, envelope.record, none⟩ (walker.pipeline.forward.sources target member)
        (Nat.le_add_left_of_le enough) ready
  have walks : Walks walker recordMeta (walker.entry envelope.record)
      (walker.entering envelope.arrival recordMeta (walker.begin_ spans world).1 entered) _ :=
    fanOut_walks nodes ready
  obtain ⟨visits, last, halted, served, flow, shows_⟩ := walks
  simp only [Walker.handle, resolves]
  generalize Walker.fanOut _ _ _ _ _ = result at flow shows_ ⊢
  obtain ⟨after, ended⟩ := result
  have first : (walker.entering envelope.arrival recordMeta (walker.begin_ spans world).1
    entered).spans.opened = 0 := opened
  rw [first] at served
  cases halted with
  | true =>
      obtain rfl : ended = .panicked := flow
      exact ⟨visits, last, true, _, served, shows_, rfl⟩
  | false =>
      obtain rfl : ended = .returned := flow
      exact ⟨visits, last, false, _, served, shows_, rfl⟩

theorem exportTrace_leaves (walker : Walker World) (recordMeta : Meta) (walk : Walk World) :
    ∃ now, (walker.exportTrace recordMeta walk).failure = walk.failure ∧
      (walker.exportTrace recordMeta walk).effects = walk.effects ++
        if walker.signals.keeps (TraceKey.ofMeta recordMeta) walk.failure.isSome
            recordMeta.deliveryCount then
          [.exported (walk.spans.finish (TraceKey.ofMeta recordMeta) recordMeta
            (if walk.failure.isSome then .nak else .ack) now).1]
        else [] := by
  refine ⟨(walker.clock.instant walk.world).1, ?_⟩
  simp only [Walker.exportTrace]
  split
  · exact ⟨rfl, rfl⟩
  · exact ⟨rfl, (List.append_nil _).symm⟩

def settlement : Option Failure → Effect
  | some failure => .nakked none failure
  | none => .acked

theorem settle_leaves (walker : Walker World) (recordMeta : Meta) (walk : Walk World) :
    ∃ before, (∀ effect ∈ before, effect.aside = true) ∧
      (walker.settle recordMeta walk).effects =
        walk.effects ++ before ++ [settlement walk.failure] := by
  cases failed : walk.failure with
  | some failure =>
      simp only [Walker.settle, failed]
      generalize Walker.nakEvent _ _ _ _ = event
      exact ⟨[.measured (Metrics.sourceNak recordMeta.tenant), .emitted event],
        by simp [Effect.aside, Metrics.sourceNak, Labels.forTenant],
        by simp [Walk.measure, Walk.leave, settlement]⟩
  | none =>
      simp only [Walker.settle, failed]
      cases recordMeta.ingestionTime with
      | clock nanos => exact ⟨[], by simp, by simp [Walk.leave, settlement]⟩
      | reported nanos =>
          simp only
          split
          next elapsed _ =>
            exact ⟨[.measured (Metrics.endToEnd recordMeta.tenant elapsed)],
              by simp [Effect.aside, Metrics.endToEnd], by simp [Walk.measure, Walk.leave, settlement]⟩
          next => exact ⟨[], by simp, by simp [Walk.leave, settlement]⟩

theorem conclude_tracing (walk : Walk World) :
    (walker.conclude recordMeta walk).spans.tracing = walk.spans.tracing := by
  have settled : ∀ walk : Walk World, (walker.settle recordMeta walk).spans = walk.spans := by
    intro walk
    rw [Walker.settle]
    split
    · rfl
    · cases recordMeta.ingestionTime with
      | clock nanos => rfl
      | reported nanos =>
          simp only
          split <;> rfl
  simp only [Walker.conclude, settled, Walker.exportTrace]
  split <;> rfl

def Walker.traces (walker : Walker World) (recordMeta : Meta) (begun : TraceBuffer)
    (visits : List Visit) (now : Instant) : List RecordTrace :=
  let key := TraceKey.ofMeta recordMeta
  let failed := (visits.findSome? (Visit.failure? recordMeta)).isSome
  if walker.signals.keeps key failed recordMeta.deliveryCount then
    [((begun.drafted visits).finish key recordMeta (if failed then .nak else .ack) now).1]
  else []

/-- All that handling a resolved envelope leaves, in order. -/
theorem handle_leaves {fuel : Nat} {envelope : Envelope} {spans : TraceBuffer}
    {world entered : World} (enough : walker.pipeline.dag.nodes.length ≤ fuel)
    (traces : spans.tracing = walker.signals.tracing)
    (resolves : walker.resolve envelope.arrival (walker.begin_ spans world).2 =
      (.ok recordMeta, entered)) :
    ∃ visits last halted handled now before,
      Served (walker.service recordMeta) (walker.entry envelope.record) 0 entered visits last halted ∧
      walker.handle fuel envelope spans world = some handled ∧
      handled.spans.tracing = walker.signals.tracing ∧
      (∀ effect ∈ before, effect.aside = true) ∧
      handled.effects = walker.arrives envelope.arrival (.ok recordMeta) ++
        [.measured (Metrics.recordsOut (Labels.new recordMeta.tenant sourceId) 1)] ++
        visits.flatMap (walker.leaves recordMeta) ++
        (walker.traces recordMeta (walker.begin_ spans world).1 visits now).map .exported ++
        before ++ [settlement (visits.findSome? (Visit.failure? recordMeta))] := by
  obtain ⟨visits, last, halted, walk, served, shows_, handled⟩ :=
    handle_walks enough traces resolves
  obtain ⟨now, sameFailure, exported⟩ := exportTrace_leaves walker recordMeta walk
  obtain ⟨before, aside, settled⟩ := settle_leaves walker recordMeta
    (walker.exportTrace recordMeta walk)
  have failure : walk.failure = visits.findSome? (Visit.failure? recordMeta) := shows_.failure
  refine ⟨visits, last, halted, _, now, before, served, handled, ?_, aside, ?_⟩
  · rw [conclude_tracing, shows_.spans]
    exact (begin_ready traces world).1.traces
  simp only [Walker.conclude]
  rw [settled, exported, sameFailure, shows_.effects, shows_.spans, failure]
  simp only [Walker.traces, Walker.entering]
  split <;> simp

end Handling

section Picking

variable {World : Type} {walker : Walker World} {recordMeta : Meta} {Picked : Type}
  {pick : Effect → Option Picked}

theorem leaves_picks (ignores : Effect.Ignores pick) (visit : Visit) :
    (walker.leaves recordMeta visit).filterMap pick = (pick visit.called).toList := by
  have failing : (walker.failing recordMeta visit).filterMap pick = [] := by
    rw [Walker.failing]
    split <;> simp [ignores.measured, ignores.emitted]
  have counts : ((visit.outcome.counts (visit.labels recordMeta.tenant)).map Effect.measured).filterMap
      pick = [] := by
    simp [ignores.measured]
  rw [Walker.leaves, Visit.worked, List.filterMap_append, List.filterMap_append, failing, counts]
  cases picked : pick visit.called <;> cases visit.outcome.halts <;> simp [ignores.measured, picked]

/-- Beside telemetry, handling an envelope leaves the calls of its visits, the trace, and the
settlement. -/
theorem log_picks (ignores : Effect.Ignores pick) {arrival : Arrival} {before : List Effect}
    (aside : ∀ effect ∈ before, effect.aside = true) (visits : List Visit)
    (traces : List RecordTrace) (failure : Option Failure) :
    (walker.arrives arrival (.ok recordMeta) ++
        [Effect.measured (Metrics.recordsOut (Labels.new recordMeta.tenant sourceId) 1)] ++
        visits.flatMap (walker.leaves recordMeta) ++ traces.map Effect.exported ++
        before ++ [settlement failure]).filterMap pick =
      visits.filterMap (fun visit => pick visit.called) ++
        traces.filterMap (fun trace => pick (.exported trace)) ++ (pick (settlement failure)).toList := by
  obtain ⟨after, asideArrival, arrives⟩ := arrives_leaves walker arrival (.ok recordMeta)
  have walked : (visits.flatMap (walker.leaves recordMeta)).filterMap pick =
      visits.filterMap fun visit => pick visit.called := by
    induction visits with
    | nil => rfl
    | cons visit visits ih =>
        rw [List.flatMap_cons, List.filterMap_append, leaves_picks ignores, ih, List.filterMap_cons]
        cases pick visit.called <;> rfl
  rw [arrives]
  simp only [List.filterMap_append, List.filterMap_cons, List.filterMap_nil, ignores.measured,
    ignores.nothing asideArrival, ignores.nothing aside, walked, List.filterMap_map, List.nil_append,
    List.append_assoc, Function.comp_def]
  cases pick (settlement failure) <;> rfl

end Picking

theorem filter_aside {kind : Effect → Bool} (ignores : Effect.Ignores (Option.guard kind))
    {effects : List Effect} (aside : ∀ effect ∈ effects, effect.aside = true) :
    effects.filter kind = [] := by
  rw [← List.filterMap_eq_filter]
  exact ignores.nothing aside

theorem settles_ignores : Effect.Ignores (Option.guard Effect.settles) :=
  ⟨fun _ => rfl, fun _ => rfl⟩

theorem calls_ignores : Effect.Ignores (Option.guard Effect.calls) :=
  ⟨fun _ => rfl, fun _ => rfl⟩

section Logs

variable {World : Type} {walker : Walker World} {recordMeta : Meta} {arrival : Arrival}
  {before : List Effect}

theorem log_settles (aside : ∀ effect ∈ before, effect.aside = true) (visits : List Visit)
    (traces : List RecordTrace) (failure : Option Failure) :
    (walker.arrives arrival (.ok recordMeta) ++
        [Effect.measured (Metrics.recordsOut (Labels.new recordMeta.tenant sourceId) 1)] ++
        visits.flatMap (walker.leaves recordMeta) ++ traces.map Effect.exported ++
        before ++ [settlement failure]).filter Effect.settles = [settlement failure] := by
  have called (visit : Visit) : Option.guard Effect.settles visit.called = none := by
    rw [Visit.called]
    split <;> rfl
  rw [← List.filterMap_eq_filter, log_picks settles_ignores aside]
  simp only [called]
  cases failure <;> simp [Option.guard, settlement, Effect.settles]

theorem log_calls (aside : ∀ effect ∈ before, effect.aside = true) (visits : List Visit)
    (traces : List RecordTrace) (failure : Option Failure) :
    (walker.arrives arrival (.ok recordMeta) ++
        [Effect.measured (Metrics.recordsOut (Labels.new recordMeta.tenant sourceId) 1)] ++
        visits.flatMap (walker.leaves recordMeta) ++ traces.map Effect.exported ++
        before ++ [settlement failure]).filter Effect.calls = visits.map Visit.called := by
  have called (visit : Visit) : Option.guard Effect.calls visit.called = some visit.called := by
    rw [Visit.called]
    split <;> rfl
  rw [← List.filterMap_eq_filter, log_picks calls_ignores aside]
  simp only [called]
  cases failure <;> simp [Option.guard, settlement, Effect.calls]

end Logs

theorem no_failure_iff (recordMeta : Meta) (visits : List Visit) :
    visits.findSome? (Visit.failure? recordMeta) = none ↔
      ∀ visit ∈ visits, visit.outcome.failure? = none := by
  simp [List.findSome?_eq_none_iff, Visit.failure?]

theorem intact_of_acked {recordMeta : Meta} {visits : List Visit}
    (acked : settlement (visits.findSome? (Visit.failure? recordMeta)) = .acked) :
    ∀ visit ∈ visits, visit.outcome.failure? = none := by
  rw [← no_failure_iff recordMeta]
  cases failed : visits.findSome? (Visit.failure? recordMeta) with
  | some failure =>
      rw [failed] at acked
      cases acked
  | none => rfl

/-- The walk of one resolved record. -/
structure Passage (World : Type) where
  recordMeta : Meta
  record : Record
  before : World
  visits : List Visit
  after : World
  halted : Bool

namespace Passage

variable {World : Type}

def Served (walker : Walker World) (passage : Passage World) : Prop :=
  DepthFirst.Served (walker.service passage.recordMeta) (walker.entry passage.record) 0
    passage.before passage.visits passage.after passage.halted

def leaves (walker : Walker World) (passage : Passage World) : List Effect :=
  passage.visits.flatMap (walker.leaves passage.recordMeta)

/-- The walk that handled the envelope: of its record as it resolved, each call being a visit's. -/
structure Handles (walker : Walker World) (envelope : Envelope) (spans : TraceBuffer) (world : World)
    (handled : Walker.Handled World) (passage : Passage World) : Prop where
  resolves : walker.resolve envelope.arrival (walker.begin_ spans world).2 =
    (.ok passage.recordMeta, passage.before)
  record : passage.record = envelope.record
  served : passage.Served walker
  calls : handled.effects.filter Effect.calls = passage.visits.map Visit.called
  settles : handled.effects.filter Effect.settles =
    [settlement (passage.visits.findSome? (Visit.failure? passage.recordMeta))]

end Passage

theorem handle_passage {World : Type} {walker : Walker World} {recordMeta : Meta} {fuel : Nat}
    {envelope : Envelope} {spans : TraceBuffer} {world entered : World}
    (enough : walker.pipeline.dag.nodes.length ≤ fuel)
    (traces : spans.tracing = walker.signals.tracing)
    (resolves : walker.resolve envelope.arrival (walker.begin_ spans world).2 =
      (.ok recordMeta, entered)) :
    ∃ (handled : Walker.Handled World) (passage : Passage World) (now : Instant) (before : List Effect),
      walker.handle fuel envelope spans world = some handled ∧
      passage.Handles walker envelope spans world handled ∧ passage.recordMeta = recordMeta ∧
      handled.spans.tracing = walker.signals.tracing ∧
      (∀ effect ∈ before, effect.aside = true) ∧
      handled.effects = walker.arrives envelope.arrival (.ok passage.recordMeta) ++
        [.measured (Metrics.recordsOut (Labels.new passage.recordMeta.tenant sourceId) 1)] ++
        passage.leaves walker ++
        (walker.traces passage.recordMeta (walker.begin_ spans world).1 passage.visits now).map .exported ++
        before ++ [settlement (passage.visits.findSome? (Visit.failure? passage.recordMeta))] := by
  obtain ⟨visits, last, halted, handled, now, before, served, handles, tracing, aside, effects⟩ :=
    handle_leaves enough traces resolves
  refine ⟨handled, ⟨recordMeta, envelope.record, entered, visits, last, halted⟩, now, before, handles,
    ⟨resolves, rfl, served, ?_, ?_⟩, rfl, tracing, aside, effects⟩
  · rw [effects, log_calls aside]
  · rw [effects, log_settles aside]

def storing : Registry (List Record) where
  stages kind :=
    if kind = "filter" then
      some fun _ => .ok { process := fun record _ stored => (some (.pass record), stored) }
    else none
  sinks kind :=
    if kind = "sink.memory" then
      some fun _ => .ok {
        write := fun batch stored => (some (.ok 1), stored ++ batch.map Outgoing.record) }
    else none

def storingWalker (pipeline : Pipeline (List Record)) : Walker (List Record) where
  pipeline
  signals := ⟨true, ⟨some 0⟩⟩
  clock := ⟨fun world => (0, world), fun world => (0, world)⟩

def sampleEnvelope : Envelope where
  record := ⟨.null⟩
  arrival := ⟨some ⟨1⟩, .unnamed, some "acme", some (.reported 0), 1, none⟩

def sampleMeta : Meta :=
  ⟨⟨1⟩, "acme", .reported 0, 1⟩

theorem sample_resolves (pipeline : Pipeline (List Record)) (stored : List Record) :
    (storingWalker pipeline).resolve sampleEnvelope.arrival stored = (.ok sampleMeta, stored) := by
  rfl

theorem storing_compiles : ∃ config pipeline,
    Config.fromYaml keepThenStore "name: logs" = .ok config ∧
      Pipeline.compile keepThenStore storing config = .ok pipeline ∧
      pipeline.dag.nodes.length = 2 := by
  obtain ⟨config, loaded, nodes⟩ : ∃ config,
      Config.fromYaml keepThenStore "name: logs" = .ok config ∧ config.nodes.length = 2 :=
    ⟨_, rfl, rfl⟩
  have compiles : ((Config.fromYaml keepThenStore "name: logs").toOption.any fun config =>
      (Pipeline.compile keepThenStore storing config).isOk) = true := by
    decide +kernel
  rw [loaded] at compiles
  cases compiled : Pipeline.compile keepThenStore storing config with
  | error error => simp [compiled, Except.toOption, Except.isOk, Except.toBool] at compiles
  | ok pipeline =>
      refine ⟨config, pipeline, loaded, compiled, ?_⟩
      rw [← nodes]
      exact (fromConfig_describes (fromYaml_wellNamed loaded) (compile_ok compiled).1).permuted.length_eq

end FusionPipeline
