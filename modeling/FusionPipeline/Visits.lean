import FusionPipeline.Library.DepthFirst
import FusionPipeline.Engine

/-! What a walk is for: its visits, depth first, and what each of them leaves behind. -/

namespace FusionPipeline

structure Task where
  index : NodeIndex
  record : Record
  parent : Option Nat

inductive Outcome where
  | written (bytes : UInt64)
  | handedOn (result : SpanResult) (targets : List NodeIndex) (records : List Record)
  | dropped (reason : DropReason)
  | refused (error : SinkError)
  | unrouted (label : String)
  | failed (kind : FailureKind) (error : String)
  | panicked

structure Visit where
  task : Task
  number : Nat
  node : String
  engine : Option EngineLabel
  isSink : Bool
  started : Instant
  ended : Instant
  outcome : Outcome

namespace Outcome

def failure? : Outcome → Option (FailureKind × String)
  | refused error => some (.sinkError, error.text)
  | unrouted label => some (.stageError, noConsumer label)
  | failed kind error => some (kind, error)
  | panicked => some (.panic, panickedText)
  | _ => none

def result : Outcome → SpanResult
  | written _ => .written
  | handedOn result _ _ => result
  | dropped reason => .drop reason
  | refused error => .error .sinkError error.text
  | unrouted label => .error .stageError (noConsumer label)
  | failed kind error => .error kind error
  | panicked => .error .panic panickedText

def halts : Outcome → Bool
  | panicked => true
  | _ => false

def records : Outcome → List Record
  | handedOn _ _ records => records
  | _ => []

def targets : Outcome → List NodeIndex
  | handedOn _ targets _ => targets
  | _ => []

def ofSink : Option (Except SinkError UInt64) → Outcome
  | none => .panicked
  | some (.ok bytes) => .written bytes
  | some (.error error) => .refused error

def ofStage (dag : Dag) (index : NodeIndex) (policy : StateErrorPolicy) :
    Option StageOutput → Outcome
  | none => .panicked
  | some (.pass record) => .handedOn .pass (dag.consumers index none) [record]
  | some (.stateError record error) =>
      match policy with
      | .pass => .handedOn .stateErrorPass (dag.consumers index none) [record]
      | .nak => .failed .stateError error.text
  | some (.split records) => .handedOn (.split records.length) (dag.consumers index none) records
  | some (.drop reason) => .dropped reason
  | some (.routed label record) =>
      if (dag.consumers index (some label)).isEmpty then .unrouted label
      else .handedOn (.routed label) (dag.consumers index (some label)) [record]
  | some (.error error) => .failed .stageError error.message

def label? : Outcome → Option String
  | handedOn (.routed label) _ _ => some label
  | _ => none

def Single : Outcome → Prop
  | handedOn result _ records => records.length = 1 ∨ result = .split records.length
  | _ => True

/-- An outcome that follows from the graph: records go to the consumers of the node, of the
label if they are routed, and only a failure ends a span as one. -/
structure Genuine (dag : Dag) (index : NodeIndex) (outcome : Outcome) : Prop where
  targets : (outcome.records = [] ∧ outcome.targets = []) ∨
    outcome.targets = dag.consumers index outcome.label?
  count : outcome.Single
  result : outcome.result.isError = outcome.failure?.isSome
  closed : outcome.result ≠ .error .panic neverClosed

theorem panicked_genuine {dag : Dag} {index : NodeIndex} : panicked.Genuine dag index :=
  ⟨.inl ⟨rfl, rfl⟩, trivial, rfl, by decide⟩

theorem ofSink_genuine {dag : Dag} {index : NodeIndex} {written : Option (Except SinkError UInt64)} :
    (ofSink written).Genuine dag index := by
  rcases written with _ | error | bytes
  · exact panicked_genuine
  · exact ⟨.inl ⟨rfl, rfl⟩, trivial, rfl, by simp [ofSink, Outcome.result]⟩
  · exact ⟨.inl ⟨rfl, rfl⟩, trivial, rfl, by simp [ofSink, Outcome.result]⟩

theorem ofStage_genuine {dag : Dag} {index : NodeIndex} {policy : StateErrorPolicy}
    {output : Option StageOutput} : (ofStage dag index policy output).Genuine dag index := by
  cases output with
  | none => exact panicked_genuine
  | some output =>
      cases output with
      | pass record => exact ⟨.inr rfl, .inl rfl, rfl, by simp [ofStage, Outcome.result]⟩
      | split records => exact ⟨.inr rfl, .inr rfl, rfl, by simp [ofStage, Outcome.result]⟩
      | drop reason => exact ⟨.inl ⟨rfl, rfl⟩, trivial, rfl, by simp [ofStage, Outcome.result]⟩
      | error error => exact ⟨.inl ⟨rfl, rfl⟩, trivial, rfl, by simp [ofStage, Outcome.result]⟩
      | stateError record error =>
          cases policy with
          | pass => exact ⟨.inr rfl, .inl rfl, rfl, by simp [ofStage, Outcome.result]⟩
          | nak => exact ⟨.inl ⟨rfl, rfl⟩, trivial, rfl, by simp [ofStage, Outcome.result]⟩
      | routed label record =>
          cases consumed : (dag.consumers index (some label)).isEmpty with
          | true =>
              simp only [ofStage, consumed, ↓reduceIte]
              exact ⟨.inl ⟨rfl, rfl⟩, trivial, rfl, by simp [Outcome.result]⟩
          | false =>
              simp only [ofStage, consumed, Bool.false_eq_true, ↓reduceIte]
              exact ⟨.inr rfl, .inl rfl, rfl, by simp [Outcome.result]⟩

def counts (labels : Labels) : Outcome → List Measurement
  | written bytes => [Metrics.recordsOut labels 1, Metrics.bytesOut labels bytes]
  | handedOn _ _ records => [Metrics.recordsOut labels records.length]
  | dropped reason => [Metrics.dropped labels reason]
  | refused _ => [Metrics.sinkPublishError labels]
  | unrouted _ => [Metrics.recordsOut labels 1]
  | failed _ _ => []
  | panicked => []

end Outcome

namespace Visit

def labels (visit : Visit) (tenant : String) : Labels :=
  (Labels.new tenant visit.node).withEngine visit.engine

def branches (visit : Visit) : List Task :=
  visit.outcome.records.flatMap fun record =>
    visit.outcome.targets.map fun target => ⟨target, record, some visit.number⟩

def draft (visit : Visit) : Draft :=
  ⟨visit.node, visit.task.parent, visit.started, some visit.outcome.result, visit.ended⟩

def write? (visit : Visit) : Option (NodeIndex × Record) :=
  if visit.isSink then some (visit.task.index, visit.task.record) else none

def called (visit : Visit) : Effect :=
  if visit.isSink then .attempted visit.task.index visit.task.record
  else .processed visit.task.index visit.task.record

def took (visit : Visit) (tenant : String) : Measurement :=
  let elapsed : Duration := ⟨visit.ended - visit.started⟩
  if visit.isSink then Metrics.sinkPublishDuration (visit.labels tenant) elapsed
  else Metrics.stageDuration (visit.labels tenant) elapsed

def worked (visit : Visit) (tenant : String) : List Effect :=
  let labels := visit.labels tenant
  let took := if visit.outcome.halts then [] else [Effect.measured (visit.took tenant)]
  [.measured (Metrics.recordsIn labels), visit.called] ++ took ++
    (visit.outcome.counts labels).map .measured

def at_ (visit : Visit) (tenant : String) : At :=
  ⟨visit.labels tenant, some visit.number⟩

def failure? (recordMeta : Meta) (visit : Visit) : Option Failure :=
  visit.outcome.failure?.map fun (kind, error) =>
    ⟨visit.node, some recordMeta.recordId, kind, error⟩

end Visit

namespace TraceBuffer

def drafted (buffer : TraceBuffer) (visits : List Visit) : TraceBuffer :=
  { buffer with
    opened := buffer.opened + visits.length
    drafts := if buffer.tracing then buffer.drafts ++ visits.map Visit.draft else buffer.drafts }

end TraceBuffer

section Walking

variable {World : Type}

namespace Walker

variable (walker : Walker World) (recordMeta : Meta)

def judge (node : String) (compiled : CompiledNode World) (task : Task) (world : World) :
    Outcome × World :=
  match compiled with
  | .sink sink =>
      let (written, world) := sink.write [⟨recordMeta, task.record⟩] world
      (.ofSink written, world)
  | .stage stage =>
      let state := State.new walker.pipeline.name recordMeta.tenant node stage.usesState
      let (output, world) := stage.process task.record ⟨node, recordMeta, state⟩ world
      (.ofStage walker.pipeline.dag task.index stage.onStateError output, world)

def attend (number : Nat) (task : Task) (world : World) : Visit × World :=
  match walker.pipeline.dag.node? task.index, walker.pipeline.node? task.index with
  | some config, some compiled =>
      let (started, world) := walker.clock.instant world
      let (outcome, world) := walker.judge recordMeta config.id compiled task world
      let (ended, world) := walker.clock.instant world
      let isSink := match compiled with
        | .sink _ => true
        | .stage _ => false
      (⟨task, number, config.id, compiled.engineLabel, isSink, started, ended, outcome⟩, world)
  | _, _ => (⟨task, number, "", none, false, 0, 0, .panicked⟩, world)

theorem attend_task (number : Nat) (task : Task) (world : World) :
    (walker.attend recordMeta number task world).1.task = task := by
  unfold attend
  split <;> rfl

theorem attend_number (number : Nat) (task : Task) (world : World) :
    (walker.attend recordMeta number task world).1.number = number := by
  unfold attend
  split <;> rfl

theorem attend_genuine (number : Nat) (task : Task) (world : World) :
    (walker.attend recordMeta number task world).1.outcome.Genuine walker.pipeline.dag task.index := by
  simp only [attend]
  split
  next config compiled _ _ =>
    cases compiled with
    | sink sink => exact Outcome.ofSink_genuine
    | stage stage => exact Outcome.ofStage_genuine
  next => exact Outcome.panicked_genuine

def service : DepthFirst.Service Task Visit World where
  serve := walker.attend recordMeta
  task := Visit.task
  number := Visit.number
  branches := Visit.branches
  halts visit := visit.outcome.halts
  task_serve := walker.attend_task recordMeta
  number_serve := walker.attend_number recordMeta

def entry (record : Record) : List Task :=
  walker.pipeline.dag.sourceSuccessors.map fun index => ⟨index, record, none⟩

def failing (visit : Visit) : List Effect :=
  match visit.outcome.failure? with
  | none => []
  | some (kind, error) =>
      let at_ := visit.at_ recordMeta.tenant
      [.measured (Metrics.errored at_.labels), .emitted (walker.failureEvent recordMeta at_ kind error)]

def leaves (visit : Visit) : List Effect :=
  visit.worked recordMeta.tenant ++ walker.failing recordMeta visit

end Walker

end Walking

end FusionPipeline
