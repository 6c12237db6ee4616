import FusionPipeline.Library.KeyedPairs
import FusionPipeline.Condition
import FusionPipeline.Meta

/-! What a path reads, writes and removes: the walks over a record. -/

namespace FusionPipeline

inductive Num where
  | int (value : Int)
  | float (value : F64)
  deriving DecidableEq, Repr

namespace Number

def asI64 : Number → Option Int64
  | posInt value => if value.toNat < 2 ^ 63 then some (Int64.ofNat value.toNat) else none
  | negInt value _ => some value
  | float _ _ => none

def asU64 : Number → Option UInt64
  | posInt value => some value
  | _ => none

def asF64 : Number → Option F64
  | float value _ => some value
  | _ => none

end Number

def Num.fromValue : Json → Option Num
  | .number n =>
      match n.asI64 with
      | some i => some (.int i.toInt)
      | none =>
          match n.asU64 with
          | some u => some (.int u.toNat)
          | none => n.asF64.map Num.float
  | _ => none

/-- A value as read from a record. A path that matches nothing reads as `null`, the same as a JSON
`null`. -/
inductive FieldValue where
  | null
  | bool (value : Bool)
  | num (value : Num)
  | str (value : String)
  | json (value : Json)

def FieldValue.fromJson : Json → FieldValue
  | .null => null
  | .bool value => bool value
  | .number n => (Num.fromValue (.number n)).elim null num
  | .string value => str value
  | .array items => json (.array items)
  | .object map => json (.object map)

namespace Path

/-- The list position a segment names: digits with no leading zero, that a `usize` holds. -/
def position (segment : String) : Option Nat :=
  if segment.isEmpty || !segment.toList.all Char.isDigit then none
  else if 1 < segment.toList.length && segment.toList.head? == some '0' then none
  else (digitsValue segment.toList).filter (· < 2 ^ 64)

def child (current : Json) (segment : String) : Option Json :=
  match current with
  | .object map => Pairs.find segment map
  | .array items => (position segment).bind fun i => items[i]?
  | _ => none

def readAt (value : Json) (segments : List String) : Option Json :=
  segments.foldlM child value

/-- The value with the slot a segment names changed, the slot made to exist first: an existing list
position is itself, and anything else becomes a key of an object, replacing whatever was in the
way. -/
def slot (current : Json) (segment : String) (change : Json → Json) : Json :=
  let at_ :=
    match current with
    | .array items => (position segment).filter (· < items.length)
    | _ => none
  match current, at_ with
  | .array items, some i => .array (items.modify i change)
  | current, _ =>
      let map :=
        match current with
        | .object map => map
        | _ => []
      .object (Pairs.put segment (change ((Pairs.find segment map).getD .null)) map)

def writeAt (record : Json) (segments : List String) (value : Json) : Json :=
  match segments with
  | [] => value
  | segment :: rest => slot record segment fun current => writeAt current rest value

def removeSlot (current : Json) (segment : String) : Option Json × Json :=
  match current with
  | .object map => (Pairs.find segment map, .object (Pairs.erase segment map))
  | .array items =>
      match (position segment).filter (· < items.length) with
      | some i => (items[i]?, .array (items.eraseIdx i))
      | none => (none, current)
  | _ => (none, current)

def removeAt (record : Json) (segments : List String) : Option Json × Json :=
  match segments with
  | [] => (some record, .null)
  | [last] => removeSlot record last
  | segment :: rest =>
      match record with
      | .object map =>
          match Pairs.find segment map with
          | none => (none, record)
          | some current =>
              let (removed, left) := removeAt current rest
              (removed, .object (Pairs.modify (fun _ => left) segment map))
      | .array items =>
          match position segment with
          | none => (none, record)
          | some i =>
              match items[i]? with
              | none => (none, record)
              | some current =>
                  let (removed, left) := removeAt current rest
                  (removed, .array (items.set i left))
      | _ => (none, record)

end Path

open FusionPipeline.Path (readAt writeAt removeAt)

inductive MetaValue where
  | str (value : String)
  | u64 (value : UInt64)

def Meta.get (recordMeta : Meta) : MetaField → MetaValue
  | .id => .u64 recordMeta.recordId.value
  | .tenant => .str recordMeta.tenant
  | .ingestionTime => .u64 recordMeta.ingestionTime.unixNanos
  | .deliveryCount => .u64 recordMeta.deliveryCount

def FieldPath.read (path : FieldPath) (record : Record) (recordMeta : Meta) : FieldValue :=
  match path.target with
  | .meta_ field =>
      match recordMeta.get field with
      | .str text => .str text
      | .u64 n => .num (.int n.toNat)
  | .record segments => (readAt record.value segments).elim .null FieldValue.fromJson

namespace WritePath

def read (written : WritePath) (record : Record) : FieldValue :=
  (readAt record.value written.segments).elim .null FieldValue.fromJson

def write (written : WritePath) (record : Record) (value : Json) : Record :=
  ⟨writeAt record.value written.segments value⟩

def remove (written : WritePath) (record : Record) : Option Json × Record :=
  let (removed, left) := removeAt record.value written.segments
  (removed, ⟨left⟩)

end WritePath

end FusionPipeline
