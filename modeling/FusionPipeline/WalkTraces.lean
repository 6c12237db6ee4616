import FusionPipeline.Handling

/-! The trace of a walk: one closed span for each visit, under the span its record came from. -/

namespace FusionPipeline

open DepthFirst

section Traces

variable {World : Type} {walker : Walker World} {recordMeta : Meta}

/-- Delivered a second time, so that its trace is kept. -/
def redelivered : Envelope :=
  { sampleEnvelope with arrival := { sampleEnvelope.arrival with deliveryCount := 2 } }

end Traces

end FusionPipeline
