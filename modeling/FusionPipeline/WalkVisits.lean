import FusionPipeline.Visits

/-! The engine's recursion makes exactly the visits of the depth-first service, and leaves
what they leave. -/

namespace FusionPipeline

open DepthFirst

section Spans

variable {buffer : TraceBuffer}

structure TraceBuffer.Ready (buffer : TraceBuffer) (tracing : Bool) : Prop where
  traces : buffer.tracing = tracing
  counted : tracing = true → buffer.drafts.length = buffer.opened
  closed : tracing = true → ∀ draft ∈ buffer.drafts, draft.result ≠ none

theorem modify_length {Item : Type} (items : List Item) (item : Item) (change : Item → Item) :
    (items ++ [item]).modify items.length change = items ++ [change item] := by
  simp [List.modify_eq_take_drop]

theorem drafted_nil : buffer.drafted [] = buffer := by
  simp [TraceBuffer.drafted]

theorem drafted_append (visits more : List Visit) :
    (buffer.drafted visits).drafted more = buffer.drafted (visits ++ more) := by
  by_cases tracing : buffer.tracing <;> simp [TraceBuffer.drafted, tracing, Nat.add_assoc]

theorem TraceBuffer.Ready.drafted {tracing : Bool} (ready : buffer.Ready tracing)
    (visits : List Visit) : (buffer.drafted visits).Ready tracing := by
  refine ⟨ready.traces, fun traced => ?_, fun traced draft member => ?_⟩
  · simp [TraceBuffer.drafted, ready.traces, traced, ready.counted traced]
  · simp only [TraceBuffer.drafted, ready.traces, traced, ↓reduceIte, List.mem_append,
      List.mem_map] at member
    rcases member with old | ⟨visit, _, rfl⟩
    · exact ready.closed traced draft old
    · simp [Visit.draft]

theorem open_close {tracing : Bool} (ready : buffer.Ready tracing) {visit : Visit} :
    (buffer.open_ visit.node visit.task.parent visit.started).2.close buffer.opened visit.ended
      visit.outcome.result = buffer.drafted [visit] := by
  cases tracing with
  | false => simp [TraceBuffer.open_, TraceBuffer.close, TraceBuffer.drafted, ready.traces]
  | true =>
      simp [TraceBuffer.open_, TraceBuffer.close, TraceBuffer.drafted, ready.traces,
        ← ready.counted rfl, modify_length, Visit.draft]

theorem failOpen_ready {tracing : Bool} (ready : buffer.Ready tracing) (ended : Instant)
    (kind : FailureKind) (error : String) : buffer.failOpen ended kind error = buffer := by
  cases tracing with
  | false => simp [TraceBuffer.failOpen, ready.traces]
  | true =>
      have closed : buffer.drafts.map (fun draft =>
          if draft.result = none then { draft with end_ := ended, result := some (.error kind error) }
          else draft) = buffer.drafts :=
        (List.map_congr_left fun draft member => if_neg (ready.closed rfl draft member)).trans
          (List.map_id _)
      simp only [TraceBuffer.failOpen, ready.traces, ↓reduceIte, closed]
      exact congrArg (fun tracing => { buffer with tracing }) ready.traces.symm

end Spans

section Walking

variable {World : Type} {walker : Walker World} {recordMeta : Meta}

structure Shows (walker : Walker World) (recordMeta : Meta) (before : Walk World)
    (visits : List Visit) (world : World) (after : Walk World) : Prop where
  world : after.world = world
  effects : after.effects = before.effects ++ visits.flatMap (walker.leaves recordMeta)
  failure : after.failure = before.failure.or (visits.findSome? (Visit.failure? recordMeta))
  spans : after.spans = before.spans.drafted visits

namespace Shows

variable {before middle after : Walk World} {visits more : List Visit} {world last : World}

theorem nothing (walk : Walk World) : Shows walker recordMeta walk [] walk.world walk :=
  ⟨rfl, by simp, by simp, drafted_nil.symm⟩

theorem trans (first : Shows walker recordMeta before visits world middle)
    (second : Shows walker recordMeta middle more last after) :
    Shows walker recordMeta before (visits ++ more) last after := by
  refine ⟨second.world, ?_, ?_, ?_⟩
  · rw [second.effects, first.effects, List.append_assoc, List.flatMap_append]
  · rw [second.failure, first.failure, Option.or_assoc, List.findSome?_append]
  · rw [second.spans, first.spans, drafted_append]

end Shows

def Visit.onward (visit : Visit) : Onward :=
  match visit.outcome with
  | .handedOn _ targets records => .handed visit.number targets records
  | .panicked => .panicked
  | _ => .ended

theorem onward_cases (visit : Visit) :
    (visit.onward = .panicked ∧ visit.outcome.halts = true) ∨
    (visit.onward = .ended ∧ visit.outcome.halts = false ∧ visit.branches = []) ∨
    (visit.onward = .handed visit.number visit.outcome.targets visit.outcome.records ∧
      visit.outcome.halts = false) := by
  cases outcome : visit.outcome <;>
    simp [Visit.onward, Visit.branches, Outcome.halts, Outcome.targets, Outcome.records, outcome]

theorem label?_of_consumers {dag : Dag} {index : NodeIndex} {label : String}
    (consumed : (dag.consumers index (some label)).isEmpty = false) :
    dag.label? index label = some label := by
  simp only [Dag.consumers, List.isEmpty_map, List.isEmpty_eq_false_iff_exists_mem,
    List.mem_filter, decide_eq_true_eq] at consumed
  obtain ⟨edge, member, labelled⟩ := consumed
  have declared : label ∈ (dag.edgesOf index).filterMap Edge.label :=
    List.mem_filterMap.mpr ⟨edge, member, labelled⟩
  rw [Dag.label?]
  cases found : ((dag.edgesOf index).filterMap Edge.label).find? fun other => decide (other = label) with
  | none => simpa using List.find?_eq_none.mp found label declared
  | some other => simpa using List.find?_some found

/-- How a node's part of the walk matches a visit. A panic shows once it is contained. -/
def Makes (walker : Walker World) (recordMeta : Meta) (walk : Walk World) (visit : Visit)
    (world : World) (result : Walk World × Onward) : Prop :=
  result.2 = visit.onward ∧
    Shows walker recordMeta walk [visit] world
      (if visit.outcome.halts then walker.contain recordMeta result.1 else result.1)

def Walk.reached (walk : Walk World) (recordMeta : Meta) (visit : Visit) (world : World)
    (effects : List Effect) : Walk World where
  world
  effects := walk.effects ++ effects
  at_ := some (visit.at_ recordMeta.tenant)
  failure := walk.failure
  spans := (walk.spans.open_ visit.node visit.task.parent visit.started).2

section Reached

variable {walk : Walk World} {visit : Visit} {world : World} {effects : List Effect}

@[simp] theorem reached_measure (measurement : Measurement) :
    (walk.reached recordMeta visit world effects).measure measurement =
      walk.reached recordMeta visit world (effects ++ [.measured measurement]) := by
  simp [Walk.reached, Walk.measure, Walk.leave]

@[simp] theorem reached_now :
    walker.now (walk.reached recordMeta visit world effects) =
      ((walker.clock.instant world).1,
        walk.reached recordMeta visit (walker.clock.instant world).2 effects) := rfl

@[simp] theorem reached_world : (walk.reached recordMeta visit world effects).world = world := rfl

@[simp] theorem reached_call (effect : Effect) (next : World) :
    { (walk.reached recordMeta visit world effects).leave effect with world := next } =
      walk.reached recordMeta visit next (effects ++ [effect]) := by
  simp [Walk.reached, Walk.leave]

theorem close_untraced (untraced : walk.spans.tracing = false) (span : Nat) (ended : Instant)
    (result : SpanResult) : (walk.reached recordMeta visit world effects).close span ended result =
      walk.reached recordMeta visit world effects := by
  simp [Walk.close, Walk.reached, TraceBuffer.open_, TraceBuffer.close, untraced]

theorem close_makes (ready : walk.spans.Ready walker.signals.tracing)
    (intact : visit.outcome.failure? = none) {result : SpanResult}
    (closed : visit.outcome.result = result) {next : Onward} (onward : next = visit.onward)
    (worked : effects = visit.worked recordMeta.tenant) :
    Makes walker recordMeta walk visit world
      ((walk.reached recordMeta visit world effects).close walk.spans.opened visit.ended result,
        next) := by
  subst closed
  have goesOn : visit.outcome.halts = false := by
    cases outcome : visit.outcome <;> simp_all [Outcome.failure?, Outcome.halts]
  refine ⟨onward, ?_⟩
  rw [goesOn]
  refine ⟨rfl, ?_, ?_, open_close ready⟩
  · simp [Walk.close, Walk.reached, worked, Walker.leaves, Walker.failing, intact]
  · simp [Walk.close, Walk.reached, Visit.failure?, intact]

theorem fail_shows (world : World) (ready : walk.spans.Ready walker.signals.tracing)
    (numbered : visit.number = walk.spans.opened) {kind : FailureKind} {error : String}
    (failed : visit.outcome.failure? = some (kind, error))
    (worked : effects = visit.worked recordMeta.tenant) :
    Shows walker recordMeta walk [visit] world
      (walker.fail recordMeta (walk.reached recordMeta visit world effects)
        (visit.at_ recordMeta.tenant) visit.ended kind error) := by
  have result : visit.outcome.result = .error kind error := by
    cases outcome : visit.outcome <;> simp_all [Outcome.failure?, Outcome.result]
  refine ⟨rfl, ?_, ?_, ?_⟩
  · simp [Walker.fail, Visit.at_, Walk.close, Walk.leave, Walk.reached, worked, Walker.leaves,
      Walker.failing, failed, Walk.measure]
  · simp [Walker.fail, Visit.at_, Walk.close, Walk.leave, Walk.reached, Walk.measure,
      Visit.failure?, failed, Visit.labels, Labels.new, Labels.withEngine]
  · rw [← open_close ready, result]
    simp [Walker.fail, Visit.at_, Walk.close, Walk.leave, Walk.reached, Walk.measure, numbered]

theorem fail_makes (ready : walk.spans.Ready walker.signals.tracing)
    (numbered : visit.number = walk.spans.opened) {kind : FailureKind} {error : String}
    (failed : visit.outcome.failure? = some (kind, error)) (goesOn : visit.outcome.halts = false)
    (worked : effects = visit.worked recordMeta.tenant) :
    Makes walker recordMeta walk visit world
      (walker.fail recordMeta (walk.reached recordMeta visit world effects)
        (visit.at_ recordMeta.tenant) visit.ended kind error, .ended) := by
  refine ⟨?_, ?_⟩
  · cases outcome : visit.outcome <;>
      simp_all [Outcome.failure?, Outcome.halts, Visit.onward]
  · rw [goesOn]
    exact fail_shows world ready numbered failed worked

theorem panic_makes (ready : walk.spans.Ready walker.signals.tracing)
    (numbered : visit.number = walk.spans.opened) (panicked : visit.outcome = .panicked)
    {last : World} (ends : walker.clock.instant world = (visit.ended, last))
    (worked : effects = visit.worked recordMeta.tenant) :
    Makes walker recordMeta walk visit last
      (walk.reached recordMeta visit world effects, .panicked) := by
  have failure : visit.outcome.failure? = some (.panic, panickedText) := by
    rw [panicked]
    rfl
  have failed := fail_shows last ready numbered failure worked
  have contained : walker.contain recordMeta (walk.reached recordMeta visit world effects) =
      { walker.fail recordMeta (walk.reached recordMeta visit last effects)
          (visit.at_ recordMeta.tenant) visit.ended .panic panickedText with
        spans := (walker.fail recordMeta (walk.reached recordMeta visit last effects)
          (visit.at_ recordMeta.tenant) visit.ended .panic panickedText).spans.failOpen visit.ended
            .panic panickedText } := by
    rw [Walker.contain, reached_now, ends]
    rfl
  refine ⟨by rw [Visit.onward, panicked], ?_⟩
  rw [panicked, Outcome.halts, if_pos rfl, contained]
  refine ⟨failed.world, failed.effects, failed.failure, ?_⟩
  rw [failed.spans]
  exact failOpen_ready (ready.drafted [visit]) _ _ _

end Reached

theorem enter_reached {walk : Walk World} {visit : Visit} {begun : World}
    (starts : walker.clock.instant walk.world = (visit.started, begun))
    (numbered : visit.number = walk.spans.opened) :
    walker.enter visit.node (visit.labels recordMeta.tenant) visit.task.parent
        (walk.measure (Metrics.recordsIn (visit.labels recordMeta.tenant))) =
      (visit.at_ recordMeta.tenant, walk.spans.opened, visit.started,
        walk.reached recordMeta visit begun
          [.measured (Metrics.recordsIn (visit.labels recordMeta.tenant))]) := by
  have opens : (walk.spans.open_ visit.node visit.task.parent visit.started).1 =
      walk.spans.opened := by
    simp only [TraceBuffer.open_]
    split <;> rfl
  simp [Walker.enter, Walker.now, Walk.measure, Walk.leave, starts, opens, Walk.reached,
    Visit.at_, numbered]

section Nodes

variable {walk : Walk World} {visit : Visit} {begun called last : World}

theorem worked_sink (isSink : visit.isSink = true) {outcome : Outcome}
    (judged : visit.outcome = outcome) (tenant : String) :
    visit.worked tenant =
      [.measured (Metrics.recordsIn (visit.labels tenant)),
        .attempted visit.task.index visit.task.record] ++
      (if outcome.halts then [] else
        [.measured (Metrics.sinkPublishDuration (visit.labels tenant) ⟨visit.ended - visit.started⟩)]) ++
      (outcome.counts (visit.labels tenant)).map .measured := by
  rw [Visit.worked, judged, Visit.called, Visit.took, isSink]
  rfl

theorem worked_stage (isStage : visit.isSink = false) {outcome : Outcome}
    (judged : visit.outcome = outcome) (tenant : String) :
    visit.worked tenant =
      [.measured (Metrics.recordsIn (visit.labels tenant)),
        .processed visit.task.index visit.task.record] ++
      (if outcome.halts then [] else
        [.measured (Metrics.stageDuration (visit.labels tenant) ⟨visit.ended - visit.started⟩)]) ++
      (outcome.counts (visit.labels tenant)).map .measured := by
  rw [Visit.worked, judged, Visit.called, Visit.took, isStage]
  rfl

theorem runSink_makes {sink : Sink World} {written : Option (Except SinkError UInt64)}
    (ready : walk.spans.Ready walker.signals.tracing)
    (starts : walker.clock.instant walk.world = (visit.started, begun))
    (writes : sink.write [⟨recordMeta, visit.task.record⟩] begun = (written, called))
    (ends : walker.clock.instant called = (visit.ended, last))
    (numbered : visit.number = walk.spans.opened) (isSink : visit.isSink = true)
    (judged : visit.outcome = .ofSink written) :
    Makes walker recordMeta walk visit last
      (walker.runSink recordMeta sink visit.task.index visit.node (visit.labels recordMeta.tenant)
        visit.task.record visit.task.parent
        (walk.measure (Metrics.recordsIn (visit.labels recordMeta.tenant)))) := by
  simp only [Walker.runSink, enter_reached starts numbered, reached_world, writes, reached_call,
    reached_now, ends, reached_measure]
  rcases written with _ | error | bytes
  · refine panic_makes ready numbered judged ends ?_
    rw [worked_sink isSink judged]
    rfl
  · refine fail_makes ready numbered (by rw [judged]; rfl) (by rw [judged]; rfl) ?_
    rw [worked_sink isSink judged]
    rfl
  · refine close_makes ready (by rw [judged]; rfl) (by rw [judged]; rfl)
      (by simp [Visit.onward, judged, Outcome.ofSink]) ?_
    rw [worked_sink isSink judged]
    rfl

theorem runStage_makes {stage : Stage World} {output : Option StageOutput}
    (ready : walk.spans.Ready walker.signals.tracing)
    (starts : walker.clock.instant walk.world = (visit.started, begun))
    (processes : stage.process visit.task.record ⟨visit.node, recordMeta,
      State.new walker.pipeline.name recordMeta.tenant visit.node stage.usesState⟩ begun =
        (output, called))
    (ends : walker.clock.instant called = (visit.ended, last))
    (numbered : visit.number = walk.spans.opened) (isStage : visit.isSink = false)
    (judged : visit.outcome =
      .ofStage walker.pipeline.dag visit.task.index stage.onStateError output) :
    Makes walker recordMeta walk visit last
      (walker.runStage recordMeta stage visit.task.index visit.node
        (visit.labels recordMeta.tenant) visit.task.record visit.task.parent
        (walk.measure (Metrics.recordsIn (visit.labels recordMeta.tenant)))) := by
  simp only [Walker.runStage, enter_reached starts numbered, reached_world, processes, reached_call,
    reached_now, ends, reached_measure]
  cases output with
  | none =>
      refine panic_makes ready numbered judged ends ?_
      rw [worked_stage isStage judged]
      rfl
  | some output =>
      cases output with
      | pass record =>
          refine close_makes ready (by rw [judged]; rfl) (by rw [judged]; rfl)
            (by simp [Visit.onward, judged, Outcome.ofStage, numbered]) ?_
          rw [worked_stage isStage judged]
          rfl
      | drop reason =>
          refine close_makes ready (by rw [judged]; rfl) (by rw [judged]; rfl)
            (by simp [Visit.onward, judged, Outcome.ofStage]) ?_
          rw [worked_stage isStage judged]
          rfl
      | split records =>
          refine close_makes ready (by rw [judged]; rfl) (by rw [judged]; rfl)
            (by simp [Visit.onward, judged, Outcome.ofStage, numbered]) ?_
          rw [worked_stage isStage judged]
          rfl
      | error error =>
          refine fail_makes ready numbered (by rw [judged]; rfl) (by rw [judged]; rfl) ?_
          rw [worked_stage isStage judged]
          rfl
      | stateError record error =>
          cases policy : stage.onStateError with
          | pass =>
              rw [policy] at judged
              refine close_makes ready (by rw [judged]; rfl) (by rw [judged]; rfl)
                (by simp [Visit.onward, judged, Outcome.ofStage, numbered]) ?_
              rw [worked_stage isStage judged]
              rfl
          | nak =>
              rw [policy] at judged
              refine fail_makes ready numbered (by rw [judged]; rfl) (by rw [judged]; rfl) ?_
              rw [worked_stage isStage judged]
              rfl
      | routed label record =>
          cases consumed : (walker.pipeline.dag.consumers visit.task.index (some label)).isEmpty with
          | true =>
              simp only [Outcome.ofStage, consumed, ↓reduceIte] at judged ⊢
              refine fail_makes ready numbered (by rw [judged]; rfl) (by rw [judged]; rfl) ?_
              rw [worked_stage isStage judged]
              rfl
          | false =>
              simp only [Outcome.ofStage, consumed, Bool.false_eq_true, ↓reduceIte] at judged ⊢
              cases traced : walker.signals.tracing with
              | true =>
                  simp only [↓reduceIte, label?_of_consumers consumed]
                  refine close_makes ready (by rw [judged]; rfl) (by rw [judged]; rfl)
                    (by simp [Visit.onward, judged, numbered]) ?_
                  rw [worked_stage isStage judged]
                  rfl
              | false =>
                  rw [traced] at ready
                  rw [if_neg Bool.false_ne_true,
                    ← close_untraced ready.traces walk.spans.opened visit.ended (.routed label)]
                  refine close_makes (traced ▸ ready) (by rw [judged]; rfl) (by rw [judged]; rfl)
                    (by simp [Visit.onward, judged, numbered]) ?_
                  rw [worked_stage isStage judged]
                  rfl

/-- A node's part of a walk makes the visit that serving its task gives. -/
theorem visit_makes {task : Task} (ready : walk.spans.Ready walker.signals.tracing)
    (bound : task.index < walker.pipeline.dag.nodes.length)
    (serves : walker.attend recordMeta walk.spans.opened task walk.world = (visit, last)) :
    Makes walker recordMeta walk visit last
      (walker.visit recordMeta task.index task.record task.parent walk) := by
  have builtBound : task.index < walker.pipeline.nodes.length := by
    rw [walker.pipeline.aligned]
    exact bound
  have node : walker.pipeline.dag.node? task.index = some walker.pipeline.dag.nodes[task.index] :=
    List.getElem?_eq_getElem bound
  have compiled : walker.pipeline.node? task.index = some walker.pipeline.nodes[task.index] :=
    List.getElem?_eq_getElem builtBound
  simp only [Walker.visit, Walker.attend, node, compiled] at serves ⊢
  cases kind : walker.pipeline.nodes[task.index] with
  | sink sink =>
      simp only [kind, Walker.judge, Prod.mk.injEq] at serves ⊢
      obtain ⟨rfl, rfl⟩ := serves
      exact runSink_makes ready rfl rfl rfl rfl rfl rfl
  | stage stage =>
      simp only [kind, Walker.judge, Prod.mk.injEq] at serves ⊢
      obtain ⟨rfl, rfl⟩ := serves
      exact runStage_makes ready rfl rfl rfl rfl rfl rfl

end Nodes

def Walks (walker : Walker World) (recordMeta : Meta) (agenda : List Task) (walk : Walk World)
    (result : Walk World × Flow) : Prop :=
  ∃ visits last halted,
    Served (walker.service recordMeta) agenda walk.spans.opened walk.world visits last halted ∧
      result.2 = (if halted then .panicked else .returned) ∧
      Shows walker recordMeta walk visits last
        (if halted then walker.contain recordMeta result.1 else result.1)

section Runs

variable {walk : Walk World} {agenda others : List Task}

theorem Walks.nothing : Walks walker recordMeta [] walk (walk, .returned) :=
  ⟨[], walk.world, false, .idle _ _, rfl, Shows.nothing walk⟩

theorem Walks.left {at_ : Option At} {result : Walk World × Flow}
    (walks : Walks walker recordMeta agenda { walk with at_ } result) :
    Walks walker recordMeta agenda walk result := by
  obtain ⟨visits, last, halted, served, flow, shows_⟩ := walks
  exact ⟨visits, last, halted, served, flow,
    shows_.world, shows_.effects, shows_.failure, shows_.spans⟩

theorem Walks.andThen {result : Walk World × Flow} {next : Walk World → Walk World × Flow}
    (ready : walk.spans.Ready walker.signals.tracing)
    (first : Walks walker recordMeta agenda walk result)
    (second : ∀ walk : Walk World, walk.spans.Ready walker.signals.tracing →
      Walks walker recordMeta others walk (next walk)) :
    Walks walker recordMeta (agenda ++ others) walk (Walker.andThen result next) := by
  obtain ⟨visits, last, halted, served, flow, shows_⟩ := first
  obtain ⟨middle, ended⟩ := result
  cases halted with
  | true =>
      obtain rfl : ended = .panicked := flow
      exact ⟨visits, last, true, served.append_halted others, rfl, shows_⟩
  | false =>
      obtain rfl : ended = .returned := flow
      replace shows_ : Shows walker recordMeta walk visits last middle := shows_
      obtain ⟨more, final, halted, continued, flow, continues⟩ :=
        second middle (shows_.spans ▸ ready.drafted visits)
      rw [shows_.world, shows_.spans] at continued
      exact ⟨visits ++ more, final, halted, served.append continued, flow, shows_.trans continues⟩

theorem fanOut_walks {run : NodeIndex → Record → Option Nat → Walk World → Walk World × Flow}
    {record : Record} {parent : Option Nat} {targets : List NodeIndex}
    (runs : ∀ target ∈ targets, ∀ walk : Walk World, walk.spans.Ready walker.signals.tracing →
      Walks walker recordMeta [⟨target, record, parent⟩] walk (run target record parent walk))
    (ready : walk.spans.Ready walker.signals.tracing) :
    Walks walker recordMeta (targets.map fun target => ⟨target, record, parent⟩) walk
      (Walker.fanOut run record parent targets walk) := by
  induction targets generalizing walk with
  | nil => exact Walks.nothing
  | cons target targets ih =>
      refine Walks.andThen ready (runs target List.mem_cons_self walk ready) fun walk ready => ?_
      have rest : Walks walker recordMeta (targets.map fun target => ⟨target, record, parent⟩)
          { walk with at_ := none } _ :=
        ih (fun other member => runs other (List.mem_cons_of_mem _ member)) ready
      exact Walks.left rest

theorem fanOutEach_walks {run : NodeIndex → Record → Option Nat → Walk World → Walk World × Flow}
    {parent : Option Nat} {targets : List NodeIndex} {records : List Record}
    (runs : ∀ target ∈ targets, ∀ record, ∀ walk : Walk World,
      walk.spans.Ready walker.signals.tracing →
        Walks walker recordMeta [⟨target, record, parent⟩] walk (run target record parent walk))
    (ready : walk.spans.Ready walker.signals.tracing) :
    Walks walker recordMeta
      (records.flatMap fun record => targets.map fun target => ⟨target, record, parent⟩) walk
      (Walker.fanOutEach run targets parent records walk) := by
  induction records generalizing walk with
  | nil => exact Walks.nothing
  | cons record records ih =>
      exact Walks.andThen ready
        (fanOut_walks (fun target member => runs target member record) ready)
        fun walk ready => ih ready

/-- Records are handed to later nodes only. -/
theorem attend_forward {task : Task} {number : Nat} {world last : World} {visit : Visit}
    (serves : walker.attend recordMeta number task world = (visit, last)) :
    ∀ target ∈ visit.outcome.targets,
      task.index < target ∧ target < walker.pipeline.dag.nodes.length := by
  intro target member
  have genuine := walker.attend_genuine recordMeta number task world
  rw [serves] at genuine
  rcases genuine.targets with ⟨_, none⟩ | consumers
  · rw [none] at member
    cases member
  · rw [consumers] at member
    obtain ⟨edge, isEdge, rfl⟩ := List.mem_map.mp member
    exact walker.pipeline.forward.edges _ edge (List.mem_filter.mp isEdge).1

structure Visit.Genuine (dag : Dag) (visit : Visit) : Prop where
  node : (dag.node? visit.task.index).map NodeConfig.id = some visit.node
  outcome : visit.outcome.Genuine dag visit.task.index

theorem attend_visit {number : Nat} {task : Task} {world : World}
    (bound : task.index < walker.pipeline.dag.nodes.length) :
    (walker.attend recordMeta number task world).1.Genuine walker.pipeline.dag := by
  have outcome := walker.attend_genuine recordMeta number task world
  have builtBound : task.index < walker.pipeline.nodes.length := by
    rw [walker.pipeline.aligned]
    exact bound
  refine ⟨?_, by rwa [walker.attend_task]⟩
  rw [walker.attend_task]
  simp [Walker.attend, Dag.node?, Pipeline.node?, bound, builtBound]

theorem served_genuine {agenda : List Task} {count : Nat} {world last : World}
    {visits : List Visit} {halted : Bool}
    (served : Served (walker.service recordMeta) agenda count world visits last halted)
    (bounded : ∀ task ∈ agenda, task.index < walker.pipeline.dag.nodes.length) :
    ∀ visit ∈ visits, visit.Genuine walker.pipeline.dag := by
  refine served.invariant (fun task => task.index < walker.pipeline.dag.nodes.length) _
    (fun count given world bound => ⟨attend_visit bound, fun task member => ?_⟩) bounded
  obtain ⟨record, _, onTarget⟩ := List.mem_flatMap.mp member
  obtain ⟨target, isTarget, rfl⟩ := List.mem_map.mp onTarget
  exact (attend_forward rfl target isTarget).2

theorem later_enough {count index target fuel : Nat} (enough : count ≤ index + (fuel + 1))
    (later : index < target) : count ≤ target + fuel := by
  omega

/-- With fuel for the nodes from its own on, a node's whole branch is served. -/
theorem runNode_walks {fuel : Nat} (task : Task)
    (bound : task.index < walker.pipeline.dag.nodes.length)
    (enough : walker.pipeline.dag.nodes.length ≤ task.index + fuel)
    (ready : walk.spans.Ready walker.signals.tracing) :
    Walks walker recordMeta [task] walk
      (walker.runNode recordMeta fuel task.index task.record task.parent walk) := by
  induction fuel generalizing task walk with
  | zero => exact absurd enough (Nat.not_le_of_lt bound)
  | succ fuel ih =>
      cases served : walker.attend recordMeta walk.spans.opened task walk.world with
      | mk visit last =>
          obtain ⟨onward, shows_⟩ := visit_makes ready bound served
          have forward := attend_forward served
          have numbered := DepthFirst.number_of_serves (walker.service recordMeta) served
          rw [Walker.runNode]
          generalize walker.visit recordMeta task.index task.record task.parent walk = made at onward shows_ ⊢
          obtain ⟨after, next⟩ := made
          rcases onward_cases visit with ⟨panicked, halts⟩ | ⟨ended, goesOn, none⟩ | ⟨handed, goesOn⟩
          · obtain rfl : next = .panicked := Eq.trans onward panicked
            rw [halts] at shows_
            exact ⟨[visit], last, true, .halted served halts, rfl, shows_⟩
          · obtain rfl : next = .ended := Eq.trans onward ended
            rw [goesOn] at shows_
            refine ⟨[visit], last, false, .branch served goesOn ?_, rfl, shows_⟩
            rw [show (walker.service recordMeta).branches visit = [] from none]
            exact .idle _ _
          · obtain rfl : next = .handed visit.number visit.outcome.targets visit.outcome.records :=
              Eq.trans onward handed
            rw [goesOn] at shows_
            replace shows_ : Shows walker recordMeta walk [visit] last after := shows_
            have nodes : ∀ target ∈ visit.outcome.targets, ∀ record, ∀ walk : Walk World,
                walk.spans.Ready walker.signals.tracing →
                  Walks walker recordMeta [⟨target, record, some visit.number⟩] walk
                    (walker.runNode recordMeta fuel target record (some visit.number) walk) :=
              fun target member record walk ready =>
                ih ⟨target, record, some visit.number⟩ (forward target member).2
                  (later_enough enough (forward target member).1) ready
            have handsOn : Walks walker recordMeta (visit.outcome.records.flatMap fun record =>
                visit.outcome.targets.map fun target => ⟨target, record, some visit.number⟩) after _ :=
              fanOutEach_walks nodes (shows_.spans ▸ ready.drafted [visit])
            obtain ⟨visits, final, halted, continued, flow, continues⟩ := handsOn
            rw [shows_.world, shows_.spans] at continued
            exact ⟨visit :: visits, final, halted, .branch served goesOn continued, flow,
              shows_.trans continues⟩

end Runs

end Walking

end FusionPipeline
