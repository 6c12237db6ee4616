import Mathlib.Data.List.Basic

/-! The record every stage operates on, any JSON value, and the record id beside it. -/

namespace FusionPipeline

structure F64 where
  bits : UInt64
  deriving DecidableEq, Repr

/-- Neither an infinity nor a NaN: the exponent is not all ones. -/
def F64.isFinite (value : F64) : Bool :=
  (value.bits >>> 52) &&& 0x7FF != 0x7FF

/-- A JSON number as `serde_json` keeps it: only a negative integer is a `negInt`, and no
number is an infinity or a NaN. -/
inductive Number where
  | posInt (value : UInt64)
  | negInt (value : Int64) (negative : value < 0)
  | float (value : F64) (finite : value.isFinite = true)
  deriving DecidableEq, Repr

inductive Json where
  | null
  | bool (value : Bool)
  | number (value : Number)
  | string (value : String)
  | array (items : List Json)
  | object (map : List (String × Json))
  deriving Inhabited, Repr

structure Record where
  value : Json
  deriving Repr

instance : Inhabited Record := ⟨⟨.null⟩⟩

structure RecordId where
  value : UInt64
  deriving DecidableEq, Repr

def RecordId.text (id : RecordId) : String :=
  toString id.value.toNat

inductive Kind where
  | log
  | metric
  | span
  deriving DecidableEq, Repr

def Kind.all : List Kind :=
  [log, metric, span]

def Kind.asStr : Kind → String
  | log => "log"
  | metric => "metric"
  | span => "span"

def Kind.parse (name : String) : Option Kind :=
  all.find? fun kind => kind.asStr == name

end FusionPipeline
