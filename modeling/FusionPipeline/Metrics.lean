import FusionPipeline.Config
import FusionPipeline.Stage

/-! What a walk leaves for the outside to see: counts and durations under their labels,
events, and the failure a nak carries. -/

namespace FusionPipeline

inductive EngineLabel where
  | linear
  | backtracking
  deriving DecidableEq, Repr

inductive FailureKind where
  | stageError
  | stateError
  | sinkError
  | panic
  | missingId
  | undecodable
  deriving DecidableEq, Repr

def FailureKind.asStr : FailureKind → String
  | stageError => "stage_error"
  | stateError => "state_error"
  | sinkError => "sink_error"
  | panic => "panic"
  | missingId => "missing_id"
  | undecodable => "undecodable"

structure Failure where
  node : String
  recordId : Option RecordId
  kind : FailureKind
  error : String
  deriving DecidableEq, Repr

def Failure.atSource (kind : FailureKind) (error : String) : Failure :=
  ⟨sourceId, none, kind, error⟩

inductive CounterMetric where
  | recordsIn
  | recordsOut
  | recordsDropped
  | recordsErrored
  | sourceNaks
  | sourceRedeliveries
  | sourceInvalidHeaders
  | dlq
  | dlqPublishErrors
  | sinkPublishErrors
  | bytesIn
  | bytesOut
  deriving DecidableEq, Repr

inductive HistogramMetric where
  | stageDuration
  | dlqPublishDuration
  | sinkPublishDuration
  | endToEnd
  deriving DecidableEq, Repr

inductive Reason where
  | drop (reason : DropReason)
  | failure (kind : FailureKind)
  deriving DecidableEq, Repr

structure Labels where
  tenant : String
  stage : Option String
  engine : Option EngineLabel := none
  reason : Option Reason := none
  deriving DecidableEq, Repr

namespace Labels

def new (tenant stage : String) : Labels :=
  { tenant, stage := some stage }

def forTenant (tenant : String) : Labels :=
  { tenant, stage := none }

def withEngine (labels : Labels) (engine : Option EngineLabel) : Labels :=
  { labels with engine }

def withReason (labels : Labels) (reason : DropReason) : Labels :=
  { labels with reason := some (.drop reason) }

def withFailure (labels : Labels) (kind : FailureKind) : Labels :=
  { labels with reason := some (.failure kind) }

end Labels

inductive Measurement where
  | count (metric : CounterMetric) (labels : Labels) (by_ : Nat)
  | observe (metric : HistogramMetric) (labels : Labels) (elapsed : Duration)
  deriving DecidableEq, Repr

namespace Metrics

def recordsIn (labels : Labels) : Measurement :=
  .count .recordsIn labels 1

def recordsOut (labels : Labels) (count : Nat) : Measurement :=
  .count .recordsOut labels count

def dropped (labels : Labels) (reason : DropReason) : Measurement :=
  .count .recordsDropped (labels.withReason reason) 1

def errored (labels : Labels) : Measurement :=
  .count .recordsErrored labels 1

def stageDuration (labels : Labels) (elapsed : Duration) : Measurement :=
  .observe .stageDuration labels elapsed

def sinkPublishDuration (labels : Labels) (elapsed : Duration) : Measurement :=
  .observe .sinkPublishDuration labels elapsed

def sinkPublishError (labels : Labels) : Measurement :=
  .count .sinkPublishErrors labels 1

def sourceNak (tenant : String) : Measurement :=
  .count .sourceNaks (Labels.forTenant tenant) 1

def sourceRedelivery (tenant : String) : Measurement :=
  .count .sourceRedeliveries (Labels.forTenant tenant) 1

def sourceInvalidHeader (tenant : String) : Measurement :=
  .count .sourceInvalidHeaders (Labels.forTenant tenant) 1

def deadLettered (tenant stage : String) (kind : FailureKind) : Measurement :=
  .count .dlq ((Labels.new tenant stage).withFailure kind) 1

def dlqPublishError (tenant : String) : Measurement :=
  .count .dlqPublishErrors (Labels.forTenant tenant) 1

def dlqPublishDuration (tenant : String) (elapsed : Duration) : Measurement :=
  .observe .dlqPublishDuration (Labels.forTenant tenant) elapsed

def bytesIn (tenant : String) (bytes : UInt64) : Measurement :=
  .count .bytesIn (Labels.forTenant tenant) bytes.toNat

def bytesOut (labels : Labels) (bytes : UInt64) : Measurement :=
  .count .bytesOut labels bytes.toNat

def endToEnd (tenant : String) (elapsed : Duration) : Measurement :=
  .observe .endToEnd (Labels.forTenant tenant) elapsed

end Metrics

end FusionPipeline
