import FusionPipeline.Pipeline
import FusionPipeline.Trace

/-! The engine's walk of one record through the graph, and the settlement of its message.
Recursion runs on fuel. A panic unwinds as it does where panics are caught. -/

namespace FusionPipeline

/-- What the engine does that others see, in order. -/
inductive Effect where
  | measured (measurement : Measurement)
  | emitted (event : Event)
  | processed (index : NodeIndex) (record : Record)
  | attempted (index : NodeIndex) (record : Record)
  | exported (trace : RecordTrace)
  | acked
  | nakked (delay : Option Duration) (failure : Failure)
  deriving Repr

structure Clock (World : Type) where
  instant : World → Instant × World
  system : World → SystemTime × World

structure Envelope where
  record : Record
  arrival : Arrival

structure At where
  labels : Labels
  span : Option Nat
  deriving DecidableEq, Repr

structure Walk (World : Type) where
  world : World
  effects : List Effect
  at_ : Option At
  failure : Option Failure
  spans : TraceBuffer

structure Walker (World : Type) where
  pipeline : Pipeline World
  signals : Signals
  clock : Clock World

inductive Flow where
  | returned
  | panicked
  | exhausted
  deriving DecidableEq, Repr

inductive Onward where
  | ended
  | handed (span : Nat) (targets : List NodeIndex) (records : List Record)
  | panicked

def panickedText : String := "stage or sink panicked"

def noConsumer (label : String) : String :=
  "no consumer for route label `" ++ label ++ "`"

def sinceUnixNanos (nanos : UInt64) (system : SystemTime) : Option Duration :=
  let now := unixNanosNow system
  if nanos ≤ now then some ⟨(now - nanos).toNat⟩ else none

section Walking

variable {World : Type}

namespace Walk

def leave (walk : Walk World) (effect : Effect) : Walk World :=
  { walk with effects := walk.effects ++ [effect] }

def measure (walk : Walk World) (measurement : Measurement) : Walk World :=
  walk.leave (.measured measurement)

def close (walk : Walk World) (span : Nat) (ended : Instant) (result : SpanResult) : Walk World :=
  { walk with spans := walk.spans.close span ended result }

end Walk

namespace Walker

variable (walker : Walker World)

def now (walk : Walk World) : Instant × Walk World :=
  let (instant, world) := walker.clock.instant walk.world
  (instant, { walk with world })

section Record

variable (recordMeta : Meta)

def failureEvent (at_ : At) (kind : FailureKind) (error : String) : Event :=
  let key := TraceKey.ofMeta recordMeta
  let delivery := recordMeta.deliveryCount
  { Event.new .stageError recordMeta.tenant (at_.labels.stage.getD sourceId) delivery with
    recordId := some recordMeta.recordId
    failure := some kind
    message := error
    trace :=
      if walker.signals.tracing then
        match at_.span with
        | none => some (key.deliveryContext delivery)
        | some span => some (TraceBuffer.context key delivery span)
      else none }

def fail (walk : Walk World) (at_ : At) (ended : Instant) (kind : FailureKind) (error : String) :
    Walk World :=
  let walk := walk.measure (Metrics.errored at_.labels)
  let walk := walk.leave (.emitted (walker.failureEvent recordMeta at_ kind error))
  let failure : Failure :=
    ⟨at_.labels.stage.getD sourceId, some recordMeta.recordId, kind, error⟩
  let walk := { walk with failure := walk.failure.or (some failure) }
  match at_.span with
  | some span => walk.close span ended (.error kind error)
  | none => walk

/-- Open the span of the node that starts, which a panic is charged to from now on. -/
def enter (node : String) (labels : Labels) (parent : Option Nat) (walk : Walk World) :
    At × Nat × Instant × Walk World :=
  let (started, walk) := walker.now walk
  let (span, spans) := walk.spans.open_ node parent started
  let at_ : At := ⟨labels, some span⟩
  (at_, span, started, { walk with spans, at_ := some at_ })

def runSink (sink : Sink World) (index : NodeIndex) (node : String) (labels : Labels)
    (record : Record) (parent : Option Nat) (walk : Walk World) : Walk World × Onward :=
  let (at_, span, started, walk) := walker.enter node labels parent walk
  let (written, world) := sink.write [⟨recordMeta, record⟩] walk.world
  let walk := { walk.leave (.attempted index record) with world }
  match written with
  | none => (walk, .panicked)
  | some written =>
      let (ended, walk) := walker.now walk
      let walk := walk.measure (Metrics.sinkPublishDuration labels ⟨ended - started⟩)
      match written with
      | .ok bytes =>
          let walk := walk.measure (Metrics.recordsOut labels 1)
          let walk := walk.measure (Metrics.bytesOut labels bytes)
          (walk.close span ended .written, .ended)
      | .error error =>
          let walk := walk.measure (Metrics.sinkPublishError labels)
          (walker.fail recordMeta walk at_ ended .sinkError error.text, .ended)

def runStage (stage : Stage World) (index : NodeIndex) (node : String) (labels : Labels)
    (record : Record) (parent : Option Nat) (walk : Walk World) : Walk World × Onward :=
  let state := State.new walker.pipeline.name recordMeta.tenant node stage.usesState
  let context : Context := ⟨node, recordMeta, state⟩
  let (at_, span, started, walk) := walker.enter node labels parent walk
  let (output, world) := stage.process record context walk.world
  let walk := { walk.leave (.processed index record) with world }
  match output with
  | none => (walk, .panicked)
  | some output =>
      let (ended, walk) := walker.now walk
      let walk := walk.measure (Metrics.stageDuration labels ⟨ended - started⟩)
      let consumers := walker.pipeline.dag.consumers index
      match output with
      | .pass record =>
          let walk := walk.measure (Metrics.recordsOut labels 1)
          (walk.close span ended .pass, .handed span (consumers none) [record])
      | .stateError record error =>
          match stage.onStateError with
          | .pass =>
              let walk := walk.measure (Metrics.recordsOut labels 1)
              (walk.close span ended .stateErrorPass, .handed span (consumers none) [record])
          | .nak => (walker.fail recordMeta walk at_ ended .stateError error.text, .ended)
      | .split records =>
          let walk := walk.measure (Metrics.recordsOut labels records.length)
          (walk.close span ended (.split records.length), .handed span (consumers none) records)
      | .drop reason =>
          let walk := walk.measure (Metrics.dropped labels reason)
          (walk.close span ended (.drop reason), .ended)
      | .routed label record =>
          let walk := walk.measure (Metrics.recordsOut labels 1)
          let targets := consumers (some label)
          if targets.isEmpty then
            (walker.fail recordMeta walk at_ ended .stageError (noConsumer label), .ended)
          else if walker.signals.tracing then
            match walker.pipeline.dag.label? index label with
            | none => (walk, .panicked)
            | some declared =>
                (walk.close span ended (.routed declared), .handed span targets [record])
          else (walk, .handed span targets [record])
      | .error error => (walker.fail recordMeta walk at_ ended .stageError error.message, .ended)

def visit (index : NodeIndex) (record : Record) (parent : Option Nat) (walk : Walk World) :
    Walk World × Onward :=
  match walker.pipeline.dag.node? index, walker.pipeline.node? index with
  | some config, some node =>
      let labels := (Labels.new recordMeta.tenant config.id).withEngine node.engineLabel
      let walk := walk.measure (Metrics.recordsIn labels)
      match node with
      | .sink sink => walker.runSink recordMeta sink index config.id labels record parent walk
      | .stage stage => walker.runStage recordMeta stage index config.id labels record parent walk
  | _, _ => (walk, .panicked)

end Record

def andThen (result : Walk World × Flow) (next : Walk World → Walk World × Flow) :
    Walk World × Flow :=
  match result with
  | (walk, .returned) => next walk
  | stopped => stopped

def fanOut (run : NodeIndex → Record → Option Nat → Walk World → Walk World × Flow)
    (record : Record) (parent : Option Nat) :
    List NodeIndex → Walk World → Walk World × Flow
  | [], walk => (walk, .returned)
  | target :: targets, walk =>
      andThen (run target record parent walk) fun walk =>
        fanOut run record parent targets { walk with at_ := none }

def fanOutEach (run : NodeIndex → Record → Option Nat → Walk World → Walk World × Flow)
    (targets : List NodeIndex) (parent : Option Nat) :
    List Record → Walk World → Walk World × Flow
  | [], walk => (walk, .returned)
  | record :: records, walk =>
      andThen (fanOut run record parent targets walk) (fanOutEach run targets parent records)

def runNode (recordMeta : Meta) :
    Nat → NodeIndex → Record → Option Nat → Walk World → Walk World × Flow
  | 0, _, _, _, walk => (walk, .exhausted)
  | fuel + 1, index, record, parent, walk =>
      match walker.visit recordMeta index record parent walk with
      | (walk, .ended) => (walk, .returned)
      | (walk, .panicked) => (walk, .panicked)
      | (walk, .handed span targets records) =>
          fanOutEach (runNode recordMeta fuel) targets (some span) records walk

structure Handled (World : Type) where
  effects : List Effect
  spans : TraceBuffer
  world : World

def begin_ (spans : TraceBuffer) (world : World) : TraceBuffer × World :=
  if spans.tracing then
    let (started, world) := walker.clock.instant world
    let (startedAt, world) := walker.clock.system world
    (spans.begin_ started startedAt, world)
  else (spans.begin_ spans.started spans.startedAt, world)

/-- Resolve the arrival; the clock is read only for a record walked without a time. -/
def resolve (arrival : Arrival) (world : World) : Except Rejected Meta × World :=
  if arrival.isLog && arrival.recordId.isSome && arrival.ingestionTime.isNone then
    let (now, world) := walker.clock.system world
    (Meta.resolve now arrival, world)
  else (Meta.resolve 0 arrival, world)

def tenantOf : Except Rejected Meta → String
  | .ok recordMeta => recordMeta.tenant
  | .error rejected => rejected.tenant

def arrives (arrival : Arrival) (resolved : Except Rejected Meta) : List Effect :=
  let tenant := tenantOf resolved
  let delivery := arrival.deliveryCount
  let counted := [Effect.measured (Metrics.recordsIn (Labels.new tenant sourceId))]
  let sized := match arrival.bytes with
    | some bytes => [Effect.measured (Metrics.bytesIn tenant bytes)]
    | none => []
  let redelivered :=
    if 1 < delivery then
      let event := { Event.new .redelivery tenant sourceId delivery with
        recordId := resolved.toOption.map Meta.recordId
        trace := match resolved with
          | .ok recordMeta =>
              if walker.signals.tracing then
                some ((TraceKey.ofMeta recordMeta).deliveryContext delivery)
              else none
          | .error _ => none }
      [Effect.measured (Metrics.sourceRedelivery tenant), .emitted event]
    else []
  counted ++ sized ++ redelivered

def nakEvent (tenant : String) (delivery : UInt64) (failure : Failure)
    (trace : Option TraceContext) : Event :=
  { Event.ofFailure .nak tenant failure delivery with trace }

/-- A message without an id is dropped and nakked, one that is no log dropped and acked. -/
def reject (delivery : UInt64) (rejected : Rejected) : List Effect :=
  let source := Labels.new rejected.tenant sourceId
  match rejected.reason with
  | .missingId =>
      let failure := Failure.atSource .missingId "the message has no record id"
      [.measured (Metrics.dropped source .missingId),
        .measured (Metrics.sourceNak rejected.tenant),
        .emitted (nakEvent rejected.tenant delivery failure none),
        .nakked none failure]
  | .notLog => [.measured (Metrics.dropped source .invalidRecord), .acked]

def contain (recordMeta : Meta) (walk : Walk World) : Walk World :=
  let at_ := walk.at_.getD ⟨Labels.new recordMeta.tenant sourceId, none⟩
  let (panicked, walk) := walker.now walk
  let walk := walker.fail recordMeta walk at_ panicked .panic panickedText
  { walk with spans := walk.spans.failOpen panicked .panic panickedText }

def exportTrace (recordMeta : Meta) (walk : Walk World) : Walk World :=
  let key := TraceKey.ofMeta recordMeta
  let settlement := if walk.failure.isSome then Settlement.nak else .ack
  if walker.signals.keeps key walk.failure.isSome recordMeta.deliveryCount then
    let (now, walk) := walker.now walk
    let (trace, spans) := walk.spans.finish key recordMeta settlement now
    { walk.leave (.exported trace) with spans }
  else walk

def settle (recordMeta : Meta) (walk : Walk World) : Walk World :=
  let tenant := recordMeta.tenant
  let delivery := recordMeta.deliveryCount
  match walk.failure with
  | some failure =>
      let walk := walk.measure (Metrics.sourceNak tenant)
      let trace :=
        if walker.signals.tracing then some ((TraceKey.ofMeta recordMeta).deliveryContext delivery)
        else none
      let walk := walk.leave (.emitted (nakEvent tenant delivery failure trace))
      walk.leave (.nakked none failure)
  | none =>
      let walk := match recordMeta.ingestionTime with
        | .reported nanos =>
            let (system, world) := walker.clock.system walk.world
            let walk := { walk with world }
            match sinceUnixNanos nanos system with
            | some elapsed => walk.measure (Metrics.endToEnd tenant elapsed)
            | none => walk
        | .clock _ => walk
      walk.leave .acked

def entering (arrival : Arrival) (recordMeta : Meta) (spans : TraceBuffer) (world : World) :
    Walk World where
  world
  effects := walker.arrives arrival (.ok recordMeta) ++
    [.measured (Metrics.recordsOut (Labels.new recordMeta.tenant sourceId) 1)]
  at_ := none
  failure := none
  spans

def conclude (recordMeta : Meta) (walk : Walk World) : Handled World :=
  let walk := walker.settle recordMeta (walker.exportTrace recordMeta walk)
  ⟨walk.effects, walk.spans, walk.world⟩

def handle (fuel : Nat) (envelope : Envelope) (spans : TraceBuffer) (world : World) :
    Option (Handled World) :=
  let (spans, world) := walker.begin_ spans world
  match walker.resolve envelope.arrival world with
  | (.error rejected, world) =>
      some {
        effects := walker.arrives envelope.arrival (.error rejected) ++
          reject envelope.arrival.deliveryCount rejected
        spans
        world }
  | (.ok recordMeta, world) =>
      let walk := walker.entering envelope.arrival recordMeta spans world
      match fanOut (walker.runNode recordMeta fuel) envelope.record none
          walker.pipeline.dag.sourceSuccessors walk with
      | (walk, .returned) => some (walker.conclude recordMeta walk)
      | (walk, .panicked) => some (walker.conclude recordMeta (walker.contain recordMeta walk))
      | (_, .exhausted) => none

def handleAll (fuel : Nat) : List Envelope → TraceBuffer → World → Option (Handled World)
  | [], spans, world => some ⟨[], spans, world⟩
  | envelope :: envelopes, spans, world =>
      match walker.handle fuel envelope spans world with
      | none => none
      | some first =>
          match handleAll fuel envelopes first.spans first.world with
          | none => none
          | some rest => some { rest with effects := first.effects ++ rest.effects }

def work (fuel : Nat) (envelopes : List Envelope) (world : World) : Option (Handled World) :=
  let (started, world) := walker.clock.instant world
  let (startedAt, world) := walker.clock.system world
  walker.handleAll fuel envelopes (.new walker.signals.tracing started startedAt) world

end Walker

end Walking

end FusionPipeline
