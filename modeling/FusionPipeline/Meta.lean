import Mathlib.Algebra.Group.Nat.Defs
import FusionPipeline.Record

/-! What a source says about a message, and the pipeline's own view of its record. -/

namespace FusionPipeline

inductive TimeKind where
  | reported
  | clock
  deriving DecidableEq, Repr

def TimeKind.all : List TimeKind :=
  [reported, clock]

def TimeKind.asStr : TimeKind → String
  | reported => "reported"
  | clock => "clock"

def TimeKind.parse (name : String) : Option TimeKind :=
  all.find? fun kind => kind.asStr == name

inductive IngestionTime where
  | reported (nanos : UInt64)
  | clock (nanos : UInt64)
  deriving DecidableEq, Repr

def IngestionTime.new (kind : TimeKind) (nanos : UInt64) : IngestionTime :=
  match kind with
  | .reported => reported nanos
  | .clock => clock nanos

def IngestionTime.unixNanos : IngestionTime → UInt64
  | reported nanos => nanos
  | clock nanos => nanos

def IngestionTime.kind : IngestionTime → TimeKind
  | reported _ => .reported
  | clock _ => .clock

inductive ArrivalKind where
  | unnamed
  | named (kind : Kind)
  | unreadable
  deriving DecidableEq, Repr

structure Arrival where
  recordId : Option RecordId
  kind : ArrivalKind
  tenant : Option String
  ingestionTime : Option IngestionTime
  deliveryCount : UInt64
  bytes : Option UInt64
  deriving DecidableEq, Repr

def Arrival.isLog (arrival : Arrival) : Bool :=
  match arrival.kind with
  | .unnamed => true
  | .named .log => true
  | _ => false

structure Meta where
  recordId : RecordId
  tenant : String
  ingestionTime : IngestionTime
  deliveryCount : UInt64
  deriving DecidableEq, Repr

inductive Rejection where
  | missingId
  | notLog
  deriving DecidableEq, Repr

structure Rejected where
  reason : Rejection
  tenant : String
  deriving DecidableEq, Repr

def unknownTenant : String := "unknown"

def isControl (char : Char) : Bool :=
  char.toNat < 0x20 || (0x7F ≤ char.toNat && char.toNat ≤ 0x9F)

def isValidTenant (tenant : String) : Bool :=
  !tenant.isEmpty && !tenant.toList.any isControl

def Meta.tenantOf (arrival : Arrival) : String :=
  (arrival.tenant.filter isValidTenant).getD unknownTenant

/-- The worker clock, in nanoseconds around the Unix epoch, as the record's time: zero
before the epoch and the largest `u64` past it. -/
def unixNanosNow (system : Int) : UInt64 :=
  UInt64.ofNat (min system.toNat (2 ^ 64 - 1))

/-- `now` is the worker clock, read only when the arrival gives no time. -/
def Meta.resolve (now : Int) (arrival : Arrival) : Except Rejected Meta :=
  let tenant := Meta.tenantOf arrival
  if !arrival.isLog then
    .error ⟨.notLog, tenant⟩
  else
    match arrival.recordId with
    | none => .error ⟨.missingId, tenant⟩
    | some recordId =>
        .ok {
          recordId
          tenant
          ingestionTime := arrival.ingestionTime.getD (.clock (unixNanosNow now))
          deliveryCount := arrival.deliveryCount }

theorem tenantOf_isValid (arrival : Arrival) : isValidTenant (Meta.tenantOf arrival) = true := by
  rw [Meta.tenantOf]
  cases found : arrival.tenant.filter isValidTenant with
  | none => decide
  | some tenant => exact (Option.filter_eq_some_iff.mp found).2

end FusionPipeline
