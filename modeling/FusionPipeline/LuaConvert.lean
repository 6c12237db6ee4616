import FusionPipeline.Edit
import FusionPipeline.LuaTables

/-! The record as a Lua value and the way back, every string value under the output cap. -/

namespace FusionPipeline.Lua

structure OutputError where
  message : String
  deriving DecidableEq, Repr

inductive Stop where
  | outOfFuel
  | refused (error : OutputError)
  deriving DecidableEq, Repr

def refuse {Result : Type} (message : String) : Except Stop Result :=
  .error (.refused ⟨message⟩)

def typeName : Value → String
  | .nil => "nil"
  | .boolean _ => "a boolean"
  | .integer _ => "an integer"
  | .number _ => "a number"
  | .string _ => "a string"
  | .table _ => "a table"
  | .function _ => "a function"
  | .thread _ => "a coroutine"
  | .userData _ => "userdata"
  | .lightUserData _ => "userdata"
  | .other _ => "an unknown value"

def isList (table : Table) : Bool :=
  table.metatable == some .list

def RecordMark.shape (table : Table) : Option Shape :=
  match table.metatable with
  | some (.record shape) => some shape
  | _ => none

variable (machine : Machine) (heap : Heap)

/-- The shape of a table that is not a record table: marked as a list, or holding positions, it
is a list. -/
def Shape.ofTable (address : Nat) : Shape :=
  if isList (heap.at address) ∨ 0 < machine.rawLen address (heap.at address).entries then list
  else object

section ListLen

structure Listed where
  count : Nat
  last : Nat
  deriving DecidableEq, Repr

def listEntry (field : String) (listed : Listed) (entry : Entry) : Except Stop Listed :=
  match entry.1.position with
  | some position => .ok ⟨listed.count + 1, max listed.last position⟩
  | none =>
      refuse ("`" ++ field ++ "` is a list, and its key " ++
        (machine.toText entry.1).getD (typeName entry.1) ++ " is not a position in it")

def listLen (address : Nat) (field : String) : Except Stop Nat := do
  let listed ← (machine.visited address (heap.at address).entries).foldlM (listEntry machine field)
    ⟨0, 0⟩
  if listed.count ≠ listed.last then
    refuse ("`" ++ field ++ "` is a list with a `nil` below position " ++ toString listed.last ++
      "; write `json.null` for a null")
  else return listed.last

end ListLen

section Reader

def maxDepth : Nat := 128

structure Reader where
  used : Nat
  cap : Nat
  depth : Nat
  deriving DecidableEq, Repr

def Reader.new (cap : Nat) : Reader :=
  ⟨0, cap, 0⟩

def Reader.take (reader : Reader) (bytes : Nat) (field : String) : Except Stop Reader :=
  let used := reader.used + bytes
  if reader.cap < used then
    refuse ("`" ++ field ++ "`: the returned record exceeds `limits.output_kib` (" ++
      toString reader.cap ++ " bytes)")
  else .ok { reader with used }

/-- Only a successful read steps back out. -/
def Reader.enter (reader : Reader) (field : String) : Except Stop Reader :=
  let depth := reader.depth + 1
  if maxDepth < depth then
    refuse ("`" ++ field ++ "` nests deeper than " ++ toString maxDepth ++
      " tables, or contains itself")
  else .ok { reader with depth }

def Reader.leave (reader : Reader) : Reader :=
  { reader with depth := reader.depth - 1 }

abbrev Read := Reader → Value → String → Except Stop (Json × Reader)

variable (asJson : Read)

def readEntries (field : String) : List Entry → List (String × Json) → Reader →
    Except Stop (List (String × Json) × Reader)
  | [], map, reader => .ok (map, reader)
  | entry :: rest, map, reader =>
      match entry.1 with
      | .string bytes =>
          match String.fromUTF8? bytes with
          | some key => do
              let read ← asJson reader entry.2 (field ++ "." ++ key)
              readEntries field rest (Pairs.put key read.1 map) read.2
          | none => refuse ("a `" ++ field ++ "` key is not valid UTF-8")
      | key => refuse ("`" ++ field ++ "` key " ++ typeName key ++ " is not a string")

def Reader.entries (reader : Reader) (address : Nat) (field : String) :
    Except Stop (List (String × Json) × Reader) := do
  let inside ← reader.enter field
  let read ← readEntries asJson field (machine.visited address (heap.at address).entries) [] inside
  return (read.1, read.2.leave)

def readItems (table : Table) (field : String) : List Nat → List Json → Reader →
    Except Stop (List Json × Reader)
  | [], items, reader => .ok (items, reader)
  | i :: rest, items, reader => do
      let read ← asJson reader (table.rawGet (.integer (Int64.ofNat i)))
        (field ++ "[" ++ toString i ++ "]")
      readItems table field rest (items ++ [read.1]) read.2

def Reader.items (reader : Reader) (address : Nat) (field : String) :
    Except Stop (List Json × Reader) := do
  let inside ← reader.enter field
  let len ← listLen machine heap address field
  let read ← readItems asJson (heap.at address) field (List.range' 1 len) [] inside
  return (read.1, read.2.leave)

def Reader.json : Nat → Read
  | 0, _, _, _ => .error .outOfFuel
  | fuel + 1, reader, value, field =>
      match value with
      | .nil => .ok (.null, reader)
      | .lightUserData pointer =>
          if pointer = 0 then .ok (.null, reader)
          else refuse ("`" ++ field ++ "` is " ++ typeName value ++ ", which has no JSON form")
      | .boolean b => .ok (.bool b, reader)
      | .integer i => .ok (.number (.ofI64 i), reader)
      | .number f =>
          match Number.ofF64 f with
          | some n => .ok (.number n, reader)
          | none => refuse ("`" ++ field ++ "` is not a finite number")
      | .string bytes => do
          let charged ← reader.take bytes.size field
          match String.fromUTF8? bytes with
          | some text => .ok (.string text, charged)
          | none => refuse ("`" ++ field ++ "` is not valid UTF-8")
      | .table address =>
          match (RecordMark.shape (heap.at address)).getD (Shape.ofTable machine heap address) with
          | .list => do
              let read ← Reader.items machine heap (Reader.json fuel) reader address field
              return (.array read.1, read.2)
          | .object => do
              let read ← Reader.entries machine heap (Reader.json fuel) reader address field
              return (.object read.1, read.2)
      | _ => refuse ("`" ++ field ++ "` is " ++ typeName value ++ ", which has no JSON form")

def fromLua (fuel : Nat) (value : Value) (outputBytes : Nat) : Except Stop Record := do
  let read ← Reader.json machine heap fuel (.new outputBytes) value "the returned record"
  return ⟨read.1⟩

end Reader

end FusionPipeline.Lua
