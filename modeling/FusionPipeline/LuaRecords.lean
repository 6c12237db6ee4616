import FusionPipeline.LuaConvert
import FusionPipeline.Numbers

/-! The record as a script gets it, the copy a script makes of it, and what a run takes back. -/

namespace FusionPipeline.Lua

section Heap

theorem rawSet_distinct {entries : List Entry} (distinct : (entries.map Prod.fst).Nodup)
    (key value : Value) :
    ((if value = .nil then Pairs.erase key entries
      else if (Pairs.find key entries).isSome then Pairs.modify (fun _ => value) key entries
      else entries ++ [(key, value)]).map Prod.fst).Nodup := by
  split
  · exact distinct.sublist ((Pairs.erase_sublist key entries).map Prod.fst)
  · split
    · rwa [Pairs.keys_modify]
    next absent =>
      have fresh := Pairs.not_mem_keys (Option.not_isSome_iff_eq_none.mp absent)
      rw [List.map_append, List.nodup_append]
      refine ⟨distinct, List.nodup_singleton _, fun held inEntries new isKey => ?_⟩
      obtain rfl := List.mem_singleton.mp isKey
      rintro rfl
      exact fresh inEntries

theorem rawSet_present {entries : List Entry} (present : ∀ entry ∈ entries, entry.2 ≠ .nil)
    (key value : Value) :
    ∀ entry ∈ (if value = .nil then Pairs.erase key entries
      else if (Pairs.find key entries).isSome then Pairs.modify (fun _ => value) key entries
      else entries ++ [(key, value)]), entry.2 ≠ .nil := by
  intro entry member
  split at member
  · exact present entry (Pairs.mem_of_mem_erase member)
  next some_ =>
    split at member
    · rcases Pairs.mem_modify member with held | ⟨_, rfl⟩
      · exact present entry held
      · exact some_
    · rcases List.mem_append.mp member with held | new
      · exact present entry held
      · obtain rfl := List.mem_singleton.mp new
        exact some_

/-- A value under a key; `nil` is what removes one. -/
def Table.rawSet (table : Table) (key value : Value) : Table where
  entries :=
    if value = .nil then Pairs.erase key table.entries
    else if (Pairs.find key table.entries).isSome then
      Pairs.modify (fun _ => value) key table.entries
    else table.entries ++ [(key, value)]
  metatable := table.metatable
  distinct := rawSet_distinct table.distinct key value
  present := rawSet_present table.present key value

def Heap.size (heap : Heap) : Nat :=
  heap.tables.length

def Heap.create (heap : Heap) : Nat × Heap :=
  (heap.size, ⟨heap.tables ++ [.empty none]⟩)

def Heap.modify (heap : Heap) (address : Nat) (change : Table → Table) : Heap :=
  ⟨heap.tables.modify address change⟩

def Heap.rawSet (heap : Heap) (address : Nat) (key value : Value) : Heap :=
  heap.modify address fun table => table.rawSet key value

def Heap.setMetatable (heap : Heap) (address : Nat) (metatable : Metatable) : Heap :=
  heap.modify address fun table => { table with metatable := some metatable }

def ListMark.mark (heap : Heap) (address : Nat) : Heap :=
  heap.setMetatable address .list

def RecordMark.mark (heap : Heap) (address : Nat) (shape : Shape) : Heap :=
  heap.setMetatable address (.record shape)

end Heap

section ToLua

def unsigned (n : UInt64) : Value :=
  if n.toNat < 2 ^ 63 then .integer (Int64.ofNat n.toNat) else .number (.ofNat n.toNat)

def numberToLua (n : Number) : Value :=
  match n.asI64 with
  | some i => .integer i
  | none =>
      match n.asU64 with
      | some u => unsigned u
      | none => .number (n.asF64.getD F64.nan)

mutual
def jsonToLua (heap : Heap) : Json → Value × Heap
  | .null => (.null, heap)
  | .bool b => (.boolean b, heap)
  | .number n => (numberToLua n, heap)
  | .string s => (.string s.toByteArray, heap)
  | .array items =>
      let t := heap.create
      (.table t.1, ListMark.mark (itemsToTable t.1 1 t.2 items) t.1)
  | .object map =>
      let t := heap.create
      (.table t.1, mapToTable t.1 t.2 map)

def itemsToTable (t position : Nat) (heap : Heap) : List Json → Heap
  | [] => heap
  | item :: rest =>
      let value := jsonToLua heap item
      itemsToTable t (position + 1)
        (value.2.rawSet t (.integer (Int64.ofNat position)) value.1) rest

def mapToTable (t : Nat) (heap : Heap) : List (String × Json) → Heap
  | [] => heap
  | (key, value) :: rest =>
      let value := jsonToLua heap value
      mapToTable t (value.2.rawSet t (.string key.toByteArray) value.1) rest
end

/-- What the script gets. The caller marks a table as the record. -/
def toLua (heap : Heap) (record : Record) : Value × Heap :=
  jsonToLua heap record.value

def Shape.of : Json → Shape
  | .array _ => list
  | _ => object

end ToLua

inductive Stopped where
  | outOfFuel
  | runtime
  | output (error : OutputError)
  deriving DecidableEq, Repr

def Stop.stopped : Stop → Stopped
  | outOfFuel => .outOfFuel
  | refused error => .output error

section Copy

structure Copying where
  heap : Heap
  seen : List (Nat × Nat)

abbrev Deep := Value → Copying → Except Stopped (Value × Copying)

def copyEntries (deep : Deep) (out : Nat) : List Entry → Copying → Except Stopped Copying
  | [], state => .ok state
  | entry :: rest, state => do
      let key ← deep entry.1 state
      let value ← deep entry.2 key.2
      copyEntries deep out rest
        { value.2 with heap := value.2.heap.rawSet out key.1 value.1 }

variable (machine : Machine)

def copyMark (heap : Heap) (from_ to_ : Nat) : Heap :=
  if isList (heap.at from_) then ListMark.mark heap to_ else heap

def deep : Nat → Deep
  | 0, _, _ => .error .outOfFuel
  | fuel + 1, value, state =>
      match value with
      | .table address =>
          match Pairs.find address state.seen with
          | some done => .ok (.table done, state)
          | none => do
              let out := state.heap.create
              let marked := copyMark out.2 address out.1
              let copied ← copyEntries (deep fuel) out.1
                (machine.visited address (marked.at address).entries)
                ⟨marked, (address, out.1) :: state.seen⟩
              return (.table out.1, copied)
      | scalar => .ok (scalar, state)

def finish (heap : Heap) (from_ to_ : Nat) : Heap :=
  match RecordMark.shape (heap.at from_) with
  | some shape => RecordMark.mark heap to_ shape
  | none => heap

def copy (fuel : Nat) (address : Nat) (heap : Heap) : Except Stopped (Value × Heap) := do
  let copied ← deep machine fuel (.table address) ⟨heap, []⟩
  match copied.1 with
  | .table to_ => return (copied.1, finish copied.2.heap address to_)
  | _ => .error .runtime

end Copy

section Run

abbrev Script.Body := Value → Heap → Except Stopped (Value × Heap)

def returnRecord : Script.Body :=
  fun record heap => .ok (record, heap)

/-- `return record:copy()`, of a record that holds no function. The method is looked up in the
record before its metatable, so a field of that name hides it. -/
def returnCopy (machine : Machine) (fuel : Nat) : Script.Body :=
  fun record heap =>
    match record with
    | .table address =>
        match (heap.at address).rawGet (.string "copy".toByteArray),
          RecordMark.shape (heap.at address) with
        | .nil, some _ => copy machine fuel address heap
        | _, _ => .error .runtime
    | _ => .error .runtime

inductive Returned where
  | record (record : Record)
  | drop
  | split (records : List Record)

variable (machine : Machine) (fuel outputBytes : Nat)

def splitEntry (heap : Heap) : Value → Except Stop Record
  | .table item => fromLua machine heap fuel (.table item) outputBytes
  | _ => refuse "every entry of a returned list must be a record table"

def returned (record : Record) (heap : Heap) (value : Value) : Except Stop Returned :=
  match value with
  | .nil => .ok .drop
  | .table t =>
      let returnedRecord := (RecordMark.shape (heap.at t)).isSome
      if returnedRecord ∨ Shape.ofTable machine heap t = .object then
        if ¬ returnedRecord ∧ (heap.at t).entries.isEmpty then
          refuse "an empty table is neither a record nor a list"
        else (fromLua machine heap fuel (.table t) outputBytes).map .record
      else do
        let len ← listLen machine heap t "the returned list"
        if len = 0 then
          refuse "an empty list splits the record into nothing; return nil to drop it"
        else
          let records ← (List.range' 1 len).mapM fun i =>
            splitEntry machine fuel outputBytes heap
              ((heap.at t).rawGet (.integer (Int64.ofNat i)))
          return .split records
  | .boolean b =>
      match record.value with
      | .bool _ => (fromLua machine heap fuel (.boolean b) outputBytes).map .record
      | _ => refuse "`process` returned a boolean; return nil to drop the record"
  | other => (fromLua machine heap fuel other outputBytes).map .record

/-- The record's table carries the record mark, in the flavour of the record's shape. -/
def argument (heap : Heap) (record : Record) : Value × Heap :=
  let value := toLua heap record
  match value.1 with
  | .table table => (value.1, RecordMark.mark value.2 table (.of record.value))
  | scalar => (scalar, value.2)

def run (process : Script.Body) (heap : Heap) (record : Record) : Except Stopped Returned := do
  let value := argument heap record
  let result ← process value.1 value.2
  (returned machine fuel outputBytes record result.2 result.1).mapError Stop.stopped

end Run

end FusionPipeline.Lua
