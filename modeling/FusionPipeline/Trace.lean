import FusionPipeline.Metrics

/-! Record traces: ids that follow from the record, and the span drafts of one walk. -/

namespace FusionPipeline

def fnv1a64 (bytes : ByteArray) : UInt64 :=
  bytes.toList.foldl (fun hash byte => (hash ^^^ byte.toUInt64) * 0x100000001b3) 0xcbf29ce484222325

/-- The splitmix64 finalizer. -/
def mix (value : UInt64) : UInt64 :=
  let value := (value ^^^ (value >>> 30)) * 0xbf58476d1ce4e5b9
  let value := (value ^^^ (value >>> 27)) * 0x94d049bb133111eb
  value ^^^ (value >>> 31)

def traceSalt : UInt64 := 0x74726163655f6964

def spanSalt : UInt64 := 0x7370616e5f696421

structure TraceId where
  value : BitVec 128
  deriving DecidableEq, Repr

structure SpanId where
  value : UInt64
  deriving DecidableEq, Repr

structure TraceContext where
  traceId : TraceId
  spanId : SpanId
  deriving DecidableEq, Repr

structure TraceKey where
  key : UInt64
  recordId : UInt64
  deriving DecidableEq, Repr

namespace TraceKey

def new (recordId : RecordId) (tenant : String) : TraceKey where
  key := mix (recordId.value ^^^ fnv1a64 tenant.toUTF8 ^^^ traceSalt)
  recordId := recordId.value

def ofMeta (recordMeta : Meta) : TraceKey :=
  new recordMeta.recordId recordMeta.tenant

def traceId (key : TraceKey) : TraceId :=
  let id := (key.key.toBitVec.setWidth 128 <<< 64) ||| key.recordId.toBitVec.setWidth 128
  ⟨if id = 0 then 1 else id⟩

/-- The id of the span visited `visit`-th in a delivery; visit 0 is the delivery's own. -/
def spanId (key : TraceKey) (deliveryCount : UInt64) (visit : UInt32) : SpanId :=
  let position := mix ((deliveryCount <<< 32) ^^^ visit.toUInt64 ^^^ spanSalt)
  let id := mix (key.key ^^^ position)
  ⟨if id = 0 then 1 else id⟩

def deliverySpanId (key : TraceKey) (deliveryCount : UInt64) : SpanId :=
  key.spanId deliveryCount 0

def deliveryContext (key : TraceKey) (deliveryCount : UInt64) : TraceContext :=
  ⟨key.traceId, key.deliverySpanId deliveryCount⟩

end TraceKey

structure TraceSampling where
  threshold : Option UInt64
  deriving DecidableEq, Repr

def TraceSampling.keeps (sampling : TraceSampling) (key : TraceKey) : Bool :=
  sampling.threshold.any fun threshold => decide (key.key ≤ threshold)

inductive EventKind where
  | stageError
  | nak
  | redelivery
  | deadLetter
  | deadLetterFailed
  deriving DecidableEq, Repr

structure Event where
  kind : EventKind
  recordId : Option RecordId
  tenant : String
  node : String
  failure : Option FailureKind
  deliveryCount : UInt64
  streamSequence : Option UInt64
  message : String
  trace : Option TraceContext
  deriving DecidableEq, Repr

def Event.new (kind : EventKind) (tenant node : String) (deliveryCount : UInt64) : Event where
  kind
  recordId := none
  tenant
  node
  failure := none
  deliveryCount
  streamSequence := none
  message := ""
  trace := none

def Event.ofFailure (kind : EventKind) (tenant : String) (failure : Failure)
    (deliveryCount : UInt64) : Event :=
  { Event.new kind tenant failure.node deliveryCount with
    recordId := failure.recordId
    failure := some failure.kind
    message := failure.error }

inductive Settlement where
  | ack
  | nak
  deriving DecidableEq, Repr

inductive SpanResult where
  | pass
  | routed (label : String)
  | split (records : Nat)
  | drop (reason : DropReason)
  | stateErrorPass
  | written
  | error (failure : FailureKind) (error : String)
  deriving DecidableEq, Repr

def SpanResult.isError : SpanResult → Bool
  | error _ _ => true
  | _ => false

abbrev Instant := Nat

abbrev SystemTime := Int

structure NodeSpan where
  spanId : SpanId
  parentSpanId : SpanId
  node : String
  start : SystemTime
  end_ : SystemTime
  result : SpanResult
  deriving DecidableEq, Repr

structure RecordTrace where
  traceId : TraceId
  spanId : SpanId
  recordId : RecordId
  tenant : String
  deliveryCount : UInt64
  settlement : Settlement
  start : SystemTime
  end_ : SystemTime
  spans : List NodeSpan
  deriving DecidableEq, Repr

structure Draft where
  node : String
  parent : Option Nat
  start : Instant
  result : Option SpanResult
  end_ : Instant
  deriving DecidableEq, Repr

/-- A worker's span drafts. When nothing traces, its handles are only counters. -/
structure TraceBuffer where
  tracing : Bool
  started : Instant
  startedAt : SystemTime
  drafts : List Draft
  opened : Nat
  deriving DecidableEq, Repr

def visitOf (handle : Nat) : UInt32 :=
  UInt32.ofNat (min (handle + 1) (2 ^ 32 - 1))

def neverClosed : String := "span was never closed"

namespace TraceBuffer

def new (tracing : Bool) (started : Instant) (startedAt : SystemTime) : TraceBuffer where
  tracing
  started
  startedAt
  drafts := []
  opened := 0

def begin_ (buffer : TraceBuffer) (started : Instant) (startedAt : SystemTime) : TraceBuffer :=
  if buffer.tracing then { buffer with opened := 0, drafts := [], started, startedAt }
  else { buffer with opened := 0 }

def open_ (buffer : TraceBuffer) (node : String) (parent : Option Nat) (start : Instant) :
    Nat × TraceBuffer :=
  let handle := buffer.opened
  let buffer := { buffer with opened := buffer.opened + 1 }
  if buffer.tracing then
    (handle, { buffer with drafts := buffer.drafts ++ [⟨node, parent, start, none, start⟩] })
  else (handle, buffer)

def close (buffer : TraceBuffer) (handle : Nat) (end_ : Instant) (result : SpanResult) :
    TraceBuffer :=
  if buffer.tracing then
    { buffer with drafts := buffer.drafts.modify handle fun draft =>
        { draft with end_, result := some result } }
  else buffer

/-- Close every span still open as failed: a panic unwound past them. -/
def failOpen (buffer : TraceBuffer) (end_ : Instant) (failure : FailureKind) (error : String) :
    TraceBuffer :=
  if buffer.tracing then
    { buffer with drafts := buffer.drafts.map fun draft =>
        if draft.result = none then { draft with end_, result := some (.error failure error) }
        else draft }
  else buffer

def context (key : TraceKey) (deliveryCount : UInt64) (handle : Nat) : TraceContext :=
  ⟨key.traceId, key.spanId deliveryCount (visitOf handle)⟩

/-- The span of one draft; one still open shows as a failure. -/
def nodeSpan (buffer : TraceBuffer) (key : TraceKey) (deliveryCount : UInt64) (now : Instant)
    (draft : Draft) (handle : Nat) : NodeSpan :=
  let at_ := fun instant : Instant => buffer.startedAt + ((instant - buffer.started : Nat) : Int)
  let closed := match draft.result with
    | some result => (result, draft.end_)
    | none => (.error .panic neverClosed, now)
  { spanId := key.spanId deliveryCount (visitOf handle)
    parentSpanId := match draft.parent with
      | some parent => key.spanId deliveryCount (visitOf parent)
      | none => key.deliverySpanId deliveryCount
    node := draft.node
    start := at_ draft.start
    end_ := at_ closed.2
    result := closed.1 }

def finish (buffer : TraceBuffer) (key : TraceKey) (recordMeta : Meta) (settlement : Settlement)
    (now : Instant) : RecordTrace × TraceBuffer :=
  let delivery := recordMeta.deliveryCount
  let at_ := fun instant : Instant => buffer.startedAt + ((instant - buffer.started : Nat) : Int)
  ({ traceId := key.traceId
     spanId := key.deliverySpanId delivery
     recordId := recordMeta.recordId
     tenant := recordMeta.tenant
     deliveryCount := delivery
     settlement
     start := buffer.startedAt
     end_ := at_ now
     spans := buffer.drafts.mapIdx fun handle draft => buffer.nodeSpan key delivery now draft handle },
   { buffer with drafts := [] })

end TraceBuffer

structure Signals where
  tracing : Bool
  sampling : TraceSampling
  deriving DecidableEq, Repr

def Signals.keeps (signals : Signals) (key : TraceKey) (failed : Bool) (deliveryCount : UInt64) :
    Bool :=
  signals.tracing && (failed || decide (1 < deliveryCount) || signals.sampling.keeps key)

end FusionPipeline
