import FusionPipeline.Engine
import FusionPipeline.Headers
import FusionPipeline.Library.Protocol

/-! The JetStream source: what it makes of a delivered message, and how it settles one that
failed. Every call to the outside is one the process may stop before or after. -/

namespace FusionPipeline.Nats

open Interleaving

def maxNakDelay : Duration :=
  ⟨30 * 1000000000⟩

def nakDelay (delivered : UInt64) : Duration :=
  let exponent := min (min (delivered.toNat - 1) (2 ^ 32 - 1)) 5
  ⟨min (2 ^ exponent * 1000000000) maxNakDelay.nanos⟩

def unsignedOf (value : Int) : Option UInt64 :=
  if 0 ≤ value ∧ value < 2 ^ 64 then some (UInt64.ofNat value.toNat) else none

def isFinalDelivery (delivered limit : UInt64) : Bool :=
  decide (limit ≤ delivered)

def deadLetterRetries : List Duration :=
  [⟨250 * 1000000⟩, ⟨500 * 1000000⟩, ⟨1000 * 1000000⟩]

structure Message where
  subject : String
  headers : Option HeaderMap
  payload : ByteArray

structure ClientError where
  text : String
  deriving DecidableEq, Repr

structure Info where
  stream : String
  streamSequence : UInt64
  delivered : Int64
  published : Int

structure Position where
  stream : String
  streamSequence : UInt64
  delivered : UInt64
  deriving DecidableEq, Repr

structure Incoming where
  message : Message
  reply : Option String
  info : Except ClientError Info

structure Delivery where
  message : Message
  arrival : Arrival
  tenant : String
  reply : Option String
  position : Option Position

structure Letter where
  subject : String
  headers : HeaderMap
  payload : ByteArray

inductive AckKind where
  | ack
  | nak (delay : Option Duration)
  | term
  deriving DecidableEq, Repr

/-- How the engine lets go of an envelope: it settles it, or its intake was closed. -/
inductive Handed where
  | closed
  | acked
  | nakked (delay : Option Duration) (failure : Failure)

inductive Call where
  | send (envelope : Envelope)
  | now
  | publish (letter : Letter)
  | pubAck (letter : Letter)
  | sleep (pause : Duration)
  | measure (measurement : Measurement)
  | emit (event : Event)
  | report (line : String)
  | settle (kind : AckKind)
  | answer (reply body : String)

abbrev Call.Reply : Call → Type
  | send _ => Handed
  | now => Instant
  | publish _ => Except ClientError Unit
  | pubAck _ => Except ClientError Unit
  | sleep _ => Unit
  | measure _ => Unit
  | emit _ => Unit
  | report _ => Unit
  | settle _ => Except ClientError Unit
  | answer _ _ => Except ClientError Unit

abbrev SourceProgram : Type → Type :=
  Program Call Call.Reply

abbrev History :=
  List (Exchange Call Call.Reply)

abbrev send (envelope : Envelope) : SourceProgram Handed :=
  Program.ask (Call.send envelope)

abbrev now : SourceProgram Instant :=
  Program.ask Call.now

abbrev sleep (pause : Duration) : SourceProgram Unit :=
  Program.ask (Call.sleep pause)

abbrev measure (measurement : Measurement) : SourceProgram Unit :=
  Program.ask (Call.measure measurement)

abbrev emit (event : Event) : SourceProgram Unit :=
  Program.ask (Call.emit event)

abbrev report (line : String) : SourceProgram Unit :=
  Program.ask (Call.report line)

abbrev ackWith (kind : AckKind) : SourceProgram (Except ClientError Unit) :=
  Program.ask (Call.settle kind)

abbrev sendLetter (letter : Letter) : SourceProgram (Except ClientError Unit) :=
  Program.ask (Call.publish letter)

abbrev awaitPubAck (letter : Letter) : SourceProgram (Except ClientError Unit) :=
  Program.ask (Call.pubAck letter)

abbrev answer (reply body : String) : SourceProgram (Except ClientError Unit) :=
  Program.ask (Call.answer reply body)

def settle (kind : AckKind) : SourceProgram Unit := do
  match ← ackWith kind with
  | .ok () => pure ()
  | .error error => report ("nats source: could not settle message: " ++ error.text)

def attempt (letter : Letter) : SourceProgram (Except ClientError Unit) := do
  match ← sendLetter letter with
  | .ok () => awaitPubAck letter
  | .error error => pure (.error error)

def publishLetter (letter : Letter) : List Duration → SourceProgram (Except ClientError Unit)
  | [] => attempt letter
  | pause :: pauses => do
      match ← attempt letter with
      | .ok () => pure (.ok ())
      | .error _ => do
          sleep pause
          publishLetter letter pauses

structure DeadLetters where
  dlqPrefix : String
  limit : UInt64
  signals : Signals

namespace DeadLetters

variable (deadLetters : DeadLetters)

def log (kind : EventKind) (delivery : Delivery) (position : Position) (failure : Failure)
    (message : String) : Event :=
  { Event.ofFailure kind delivery.tenant failure position.delivered with
    streamSequence := some position.streamSequence
    message
    trace := (failure.recordId.filter fun _ => deadLetters.signals.tracing).map fun id =>
      (TraceKey.new id delivery.tenant).deliveryContext position.delivered }

def letter (delivery : Delivery) (position : Position) (failure : Failure) : Letter where
  subject := Subject.deadLetter deadLetters.dlqPrefix delivery.tenant
  headers := Headers.forDeadLetter {
    stream := position.stream
    streamSequence := position.streamSequence
    subject := delivery.message.subject
    headers := delivery.message.headers
    arrival := delivery.arrival
    failure }
  payload := delivery.message.payload

def publish (delivery : Delivery) (position : Position) (failure : Failure) :
    SourceProgram (Except ClientError Unit) :=
  publishLetter (deadLetters.letter delivery position failure) deadLetterRetries

def finalPosition (delivery : Delivery) : Option Position :=
  delivery.position.filter fun position => isFinalDelivery position.delivered deadLetters.limit

def leftInStream (delivery : Delivery) (position : Position) (failure : Failure)
    (error : ClientError) : String :=
  "could not dead-letter message " ++ toString position.streamSequence.toNat ++ " of stream `" ++
    position.stream ++ "` (`" ++ delivery.message.subject ++ "`), left in the stream: " ++
    error.text ++ "; it failed with: " ++ failure.error

end DeadLetters

def terminateBody (failure : Failure) : String :=
  "+TERM dlq " ++ failure.node ++ ": " ++ failure.kind.asStr

/-- The client's own terminate carries no reason, so the reply is written by hand. -/
def terminate (delivery : Delivery) (failure : Failure) : SourceProgram Unit :=
  match delivery.reply with
  | none => settle .term
  | some reply => do
      match ← answer reply (terminateBody failure) with
      | .ok () => pure ()
      | .error error =>
          report ("nats source: could not terminate a dead-lettered message: " ++ error.text)

def DeadLetters.settleFailure (deadLetters : DeadLetters) (delivery : Delivery)
    (delay : Option Duration) (failure : Failure) : SourceProgram Unit :=
  match deadLetters.finalPosition delivery with
  | none =>
      let delivered := (delivery.position.map Position.delivered).getD 1
      settle (.nak (some (delay.getD (nakDelay delivered))))
  | some position => do
      let started ← now
      let published ← deadLetters.publish delivery position failure
      let ended ← now
      measure (Metrics.dlqPublishDuration delivery.tenant ⟨ended - started⟩)
      match published with
      | .ok () => do
          measure (Metrics.deadLettered delivery.tenant failure.node failure.kind)
          emit (deadLetters.log .deadLetter delivery position failure failure.error)
          terminate delivery failure
      | .error error => do
          emit (deadLetters.log .deadLetterFailed delivery position failure
            (DeadLetters.leftInStream delivery position failure error))
          measure (Metrics.dlqPublishError delivery.tenant)
          settle (.nak none)

inductive Codec where
  | json
  | text
  deriving DecidableEq, Repr

structure NatsSource where
  tenantPrefix : String
  codec : Codec
  parseJson : ByteArray → Except String Json
  utf8Error : ByteArray → String
  deadLetters : DeadLetters

namespace NatsSource

variable (source : NatsSource)

def decode (payload : ByteArray) : Except String Record :=
  match source.codec with
  | .json =>
      match source.parseJson payload with
      | .ok value => .ok ⟨value⟩
      | .error error => .error ("payload is not JSON: " ++ error)
  | .text =>
      match String.fromUTF8? payload with
      | some text => .ok ⟨.string text⟩
      | none => .error ("payload is not UTF-8: " ++ source.utf8Error payload)

def positionOf (info : Info) : Option Position :=
  (unsignedOf info.delivered.toInt).map fun delivered =>
    ⟨info.stream, info.streamSequence, delivered⟩

def infoOf (incoming : Incoming) : Option Info :=
  incoming.info.toOption

def received (incoming : Incoming) : Headers.Received where
  subject := incoming.message.subject
  headers := incoming.message.headers
  published := (infoOf incoming).bind fun info => unsignedOf info.published
  delivered := (((infoOf incoming).bind positionOf).map Position.delivered).getD 1
  bytes := UInt64.ofNat incoming.message.payload.size

def deliveryOf (incoming : Incoming) : Delivery :=
  let arrival := (Headers.arrival source.tenantPrefix (received incoming)).1
  { message := incoming.message
    arrival
    tenant := Meta.tenantOf arrival
    reply := incoming.reply
    position := (infoOf incoming).bind positionOf }

def reportInvalidHeaders (subject tenant : String) :
    List Headers.InvalidHeader → SourceProgram Unit
  | [] => pure ()
  | problem :: rest => do
      let outcome :=
        if problem.refusesMessage then "not walked: an unreadable" else "ignored a"
      report ("nats source: " ++ outcome ++ " pipeline header on `" ++ subject ++
        "`: " ++ problem.text)
      measure (Metrics.sourceInvalidHeader tenant)
      reportInvalidHeaders subject tenant rest

def countBytes (delivery : Delivery) : SourceProgram Unit :=
  match delivery.arrival.bytes with
  | some bytes => measure (Metrics.bytesIn delivery.tenant bytes)
  | none => pure ()

def countRedelivery (delivery : Delivery) : SourceProgram Unit :=
  if 1 < delivery.arrival.deliveryCount then measure (Metrics.sourceRedelivery delivery.tenant)
  else pure ()

/-- A payload that is no record: counted as the engine counts one, then settled here. -/
def rejectUndecodable (delivery : Delivery) (error : String) : SourceProgram Unit := do
  countBytes delivery
  countRedelivery delivery
  report ("nats source: nak of undecodable message on `" ++ delivery.message.subject ++
    "` (delivery " ++ toString delivery.arrival.deliveryCount.toNat ++ "): " ++ error)
  measure (Metrics.sourceNak delivery.tenant)
  source.deadLetters.settleFailure delivery none (.atSource .undecodable error)

def letGo (delivery : Delivery) : Handed → SourceProgram Unit
  | .closed => pure ()
  | .acked => settle .ack
  | .nakked delay failure => source.deadLetters.settleFailure delivery delay failure

def reportUnreadable (incoming : Incoming) : SourceProgram Unit :=
  match incoming.info with
  | .ok _ => pure ()
  | .error error =>
      report ("nats source: no message info on `" ++ incoming.message.subject ++
        "`, so this delivery is not taken for the final one: " ++ error.text)

def receive (incoming : Incoming) : SourceProgram Unit := do
  reportUnreadable incoming
  let delivery := source.deliveryOf incoming
  let invalid := (Headers.arrival source.tenantPrefix (received incoming)).2
  reportInvalidHeaders incoming.message.subject delivery.tenant invalid
  let decoded :=
    if delivery.arrival.isLog then source.decode incoming.message.payload else .ok default
  match decoded with
  | .error error => source.rejectUndecodable delivery error
  | .ok record => do
      let handed ← send ⟨record, delivery.arrival⟩
      source.letGo delivery handed

end NatsSource

end FusionPipeline.Nats
