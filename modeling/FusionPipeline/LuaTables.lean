import Mathlib
import FusionPipeline.Record

/-! The values of a Lua VM, and its tables on the heap they share. -/

namespace FusionPipeline.Lua

inductive Value where
  | nil
  | boolean (value : Bool)
  | lightUserData (pointer : UInt64)
  | integer (value : Int64)
  | number (value : F64)
  | string (bytes : ByteArray)
  | table (address : Nat)
  | function (address : Nat)
  | thread (address : Nat)
  | userData (address : Nat)
  | other (address : Nat)
  deriving DecidableEq

def Value.null : Value :=
  lightUserData 0

inductive Shape where
  | object
  | list
  deriving DecidableEq, Repr

/-- The metatables a VM tells apart: the list mark, the two record marks, and any other. -/
inductive Metatable where
  | list
  | record (shape : Shape)
  | other (address : Nat)
  deriving DecidableEq

abbrev Entry := Value × Value

structure Table where
  entries : List Entry
  metatable : Option Metatable
  distinct : (entries.map Prod.fst).Nodup
  present : ∀ entry ∈ entries, entry.2 ≠ .nil

def Table.empty (metatable : Option Metatable) : Table :=
  ⟨[], metatable, List.nodup_nil, fun _ member => absurd member List.not_mem_nil⟩

def Table.rawGet (table : Table) (key : Value) : Value :=
  ((table.entries.find? (·.1 == key)).map Prod.snd).getD .nil

def Value.position : Value → Option Nat
  | integer index => if 0 < index then some index.toInt.toNat else none
  | _ => none

def positions (entries : List Entry) : List Nat :=
  entries.filterMap fun entry => entry.1.position

/-- A border: there is a position at it, unless it is zero, and none right after it. -/
def IsBorder (entries : List Entry) (length : Nat) : Prop :=
  (length = 0 ∨ length ∈ positions entries) ∧ length + 1 ∉ positions entries

structure Heap where
  tables : List Table

def Heap.at (heap : Heap) (address : Nat) : Table :=
  heap.tables.getD address (.empty none)

/-- What is up to the VM: the order `next` visits a table's entries in, the border `#` finds,
and the text of a value. -/
structure Machine where
  visited : Nat → List Entry → List Entry
  rawLen : Nat → List Entry → Nat
  toText : Value → Option String
  visited_perm : ∀ address entries, (visited address entries).Perm entries
  rawLen_border : ∀ address entries, IsBorder entries (rawLen address entries)

theorem exists_border (entries : List Entry) : ∃ length, length + 1 ∉ positions entries := by
  refine ⟨(positions entries).sum, fun member => ?_⟩
  have bound := List.le_sum_of_mem member
  omega

def Machine.plain : Machine where
  visited _ entries := entries
  rawLen _ entries := Nat.find (exists_border entries)
  toText _ := none
  visited_perm _ _ := List.Perm.refl _
  rawLen_border _ entries := by
    refine ⟨?_, Nat.find_spec (exists_border entries)⟩
    cases found : Nat.find (exists_border entries) with
    | zero => exact .inl rfl
    | succ before =>
        have earlier : before < Nat.find (exists_border entries) := by omega
        exact .inr (not_not.mp (Nat.find_min (exists_border entries) earlier))

theorem Table.rawGet_eq {table : Table} {entry : Entry} (member : entry ∈ table.entries) :
    table.rawGet entry.1 = entry.2 := by
  have distinct := table.distinct
  rw [Table.rawGet]
  generalize table.entries = entries at member distinct
  induction entries with
  | nil => cases member
  | cons first rest ih =>
      rw [List.map_cons, List.nodup_cons] at distinct
      by_cases same : first.1 = entry.1
      · rcases List.mem_cons.mp member with rfl | later
        · rw [List.find?_cons_of_pos (by simp), Option.map_some, Option.getD_some]
        · exact absurd (same ▸ List.mem_map_of_mem later) distinct.1
      · rw [List.find?_cons_of_neg (by simpa using same)]
        rcases List.mem_cons.mp member with rfl | later
        · exact absurd rfl same
        · exact ih later distinct.2

end FusionPipeline.Lua
