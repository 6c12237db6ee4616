import FusionPipeline.LuaReading
import FusionPipeline.LuaRecords

/-! JSON spelled in tables: what `to_lua` makes of a record, in tables nothing else has. -/

namespace FusionPipeline

/-- What decoding builds: lists that fit a `Vec`, and objects by their keys in order. -/
inductive Json.Decoded : Json → Prop where
  | null : Decoded null
  | bool (b : Bool) : Decoded (bool b)
  | number (n : Number) : Decoded (number n)
  | string (s : String) : Decoded (string s)
  | array (items : List Json) (short : items.length < 2 ^ 63)
      (each : ∀ item ∈ items, Decoded item) : Decoded (array items)
  | object (map : List (String × Json)) (ascending : Pairs.Ascending map)
      (each : ∀ field ∈ map, Decoded field.2) : Decoded (object map)

namespace Lua

section Heap

variable {heap before after : Heap} {address other : Nat} {change : Table → Table}

@[simp] theorem Heap.size_modify : (heap.modify address change).size = heap.size :=
  List.length_modify ..

@[simp] theorem Heap.size_create : heap.create.2.size = heap.size + 1 :=
  List.length_append

theorem Heap.at_modify (bound : address < heap.size) :
    (heap.modify address change).at address = change (heap.at address) := by
  have found : heap.tables[address]? = some (heap.at address) := by
    rw [Heap.at, List.getD_eq_getElem?_getD, List.getElem?_eq_getElem bound, Option.getD_some]
  rw [Heap.at, Heap.modify, List.getD_eq_getElem?_getD, List.getElem?_modify_eq, found]
  rfl

theorem Heap.at_modify_other (differs : other ≠ address) :
    (heap.modify address change).at other = heap.at other := by
  have same := List.getElem?_modify_ne change heap.tables differs.symm
  rw [Heap.at, Heap.at, List.getD_eq_getElem?_getD, List.getD_eq_getElem?_getD]
  exact congrArg (fun found => found.getD (.empty none)) same

theorem Heap.at_create (bound : address < heap.size) : heap.create.2.at address = heap.at address :=
  List.getD_append _ _ _ _ bound

theorem Heap.at_create_new : heap.create.2.at heap.size = .empty none := by
  rw [Heap.at, Heap.create, Heap.size, List.getD_append_right _ _ _ _ (Nat.le_refl _), Nat.sub_self]
  rfl

structure Grows (before after : Heap) : Prop where
  size : before.size ≤ after.size
  same : ∀ address < before.size, after.at address = before.at address

theorem Grows.refl (heap : Heap) : Grows heap heap :=
  ⟨Nat.le_refl _, fun _ _ => rfl⟩

theorem Grows.trans {last : Heap} (first : Grows before after) (second : Grows after last) :
    Grows before last := by
  refine ⟨first.size.trans second.size, fun address bound => ?_⟩
  rw [second.same address (bound.trans_le first.size), first.same address bound]

theorem Grows.create (heap : Heap) : Grows heap heap.create.2 :=
  ⟨by rw [Heap.size_create]; omega, fun _ bound => Heap.at_create bound⟩

theorem Grows.modify (grows : Grows before after) (new : before.size ≤ address) :
    Grows before (after.modify address change) := by
  refine ⟨by rw [Heap.size_modify]; exact grows.size, fun other bound => ?_⟩
  rw [Heap.at_modify_other (by omega), grows.same other bound]

theorem Table.entries_rawSet (table : Table) (key value : Value) :
    (table.rawSet key value).entries =
      if value = .nil then Pairs.erase key table.entries
      else if (Pairs.find key table.entries).isSome then
        Pairs.modify (fun _ => value) key table.entries
      else table.entries ++ [(key, value)] :=
  rfl

theorem rawSet_fresh {table : Table} {key value : Value} (some_ : value ≠ .nil)
    (fresh : key ∉ table.entries.map Prod.fst) :
    (table.rawSet key value).entries = table.entries ++ [(key, value)] := by
  have absent : Pairs.find key table.entries = none :=
    Pairs.find_eq_none fun entry member same => fresh (same ▸ List.mem_map_of_mem member)
  rw [Table.entries_rawSet, if_neg some_, absent, Option.isSome_none, if_neg Bool.false_ne_true]

end Heap

section Spells

def scalarToLua : Json → Option Value
  | .null => some .null
  | .bool b => some (.boolean b)
  | .number n => some (numberToLua n)
  | .string s => some (.string s.toByteArray)
  | _ => none

def heldBy : Json → List (Value × Json)
  | .array items => (items.zipIdx 1).map fun item => (.integer (Int64.ofNat item.2), item.1)
  | .object map => map.map fun field => (.string field.1.toByteArray, field.2)
  | _ => []

def markOf : Json → Option Metatable
  | .array _ => some .list
  | _ => none

/-- An entry of a table, the JSON its value stands for and the tables that takes. -/
structure Cell where
  key : Value
  value : Value
  json : Json
  footprint : List Nat

def Cell.entry (cell : Cell) : Entry :=
  (cell.key, cell.value)

def Cell.held (cell : Cell) : Value × Json :=
  (cell.key, cell.json)

def footprints (cells : List Cell) : List Nat :=
  cells.flatMap Cell.footprint

/-- A table that holds a list or an object cell by cell, no table used twice. -/
structure Layout (heap : Heap) (address : Nat) (cells : List Cell) (mark : Option Metatable)
    (json : Json) : Prop where
  container : scalarToLua json = none
  marked : (heap.at address).metatable = mark
  entries : (heap.at address).entries.Perm (cells.map Cell.entry)
  held : (cells.map Cell.held).Perm (heldBy json)
  apart : (address :: footprints cells).Nodup

/-- A value that spells JSON, and the tables it takes. -/
inductive Spells (heap : Heap) : Value → Json → List Nat → Prop where
  | scalar (value : Value) (json : Json) (is : scalarToLua json = some value) :
      Spells heap value json []
  | table (address : Nat) (cells : List Cell) (json : Json)
      (layout : Layout heap address cells (markOf json) json)
      (each : ∀ cell ∈ cells, Spells heap cell.value cell.json cell.footprint) :
      Spells heap (.table address) json (address :: footprints cells)

variable {heap before after : Heap} {address : Nat} {cells : List Cell} {mark : Option Metatable}
  {value : Value} {json : Json} {footprint : List Nat}

theorem mem_footprints {cell : Cell} (member : cell ∈ cells) {address : Nat}
    (inside : address ∈ cell.footprint) : address ∈ footprints cells :=
  List.mem_flatMap.mpr ⟨cell, member, inside⟩

theorem Layout.frame (layout : Layout before address cells mark json)
    (same : after.at address = before.at address) : Layout after address cells mark json :=
  ⟨layout.container, by rw [same, layout.marked], by rw [same]; exact layout.entries, layout.held,
    layout.apart⟩

/-- Only the tables it takes matter to a value. -/
theorem Spells.frame (spells : Spells before value json footprint)
    (same : ∀ address ∈ footprint, after.at address = before.at address) :
    Spells after value json footprint := by
  induction spells with
  | scalar value json is => exact .scalar value json is
  | table address cells json layout each ih =>
      refine .table address cells json (layout.frame (same address List.mem_cons_self)) ?_
      intro cell member
      exact ih cell member fun inner inside =>
        same inner (List.mem_cons_of_mem _ (mem_footprints member inside))

theorem numberToLua_cases (n : Number) :
    (∃ i, numberToLua n = .integer i) ∨ ∃ f, numberToLua n = .number f := by
  rw [numberToLua]
  split
  next i _ => exact .inl ⟨i, rfl⟩
  next =>
    split
    next u _ =>
      rw [unsigned]
      split
      · exact .inl ⟨_, rfl⟩
      · exact .inr ⟨_, rfl⟩
    next => exact .inr ⟨_, rfl⟩

theorem scalarToLua_plain (is : scalarToLua json = some value) :
    value ≠ .nil ∧ ∀ address, value ≠ .table address := by
  cases json with
  | number n =>
      obtain rfl := Option.some.inj is
      rcases numberToLua_cases n with ⟨i, same⟩ | ⟨f, same⟩
      · rw [same]
        exact ⟨Value.noConfusion, fun _ => Value.noConfusion⟩
      · rw [same]
        exact ⟨Value.noConfusion, fun _ => Value.noConfusion⟩
  | array items => cases is
  | object map => cases is
  | _ =>
      obtain rfl := Option.some.inj is
      exact ⟨Value.noConfusion, fun _ => Value.noConfusion⟩

theorem Spells.ne_nil (spells : Spells heap value json footprint) : value ≠ .nil := by
  cases spells with
  | scalar value json is => exact (scalarToLua_plain is).1
  | table address cells json layout each => exact Value.noConfusion

theorem Spells.nodup (spells : Spells heap value json footprint) : footprint.Nodup := by
  cases spells with
  | scalar value json is => exact List.nodup_nil
  | table address cells json layout each => exact layout.apart

structure Spelled (before : Heap) (value : Value) (json : Json) (after : Heap) : Prop where
  grows : Grows before after
  spells : ∃ footprint, Spells after value json footprint ∧
    ∀ address ∈ footprint, before.size ≤ address ∧ address < after.size

theorem spelled_scalar (is : scalarToLua json = some value) (heap : Heap) :
    Spelled heap value json heap :=
  ⟨.refl heap, [], .scalar value json is, by simp⟩

end Spells

section Filling

structure Filling (base : Heap) (t : Nat) (mark : Option Metatable) (heap : Heap)
    (cells : List Cell) : Prop where
  grows : Grows base heap
  new : base.size ≤ t
  bound : t < heap.size
  marked : (heap.at t).metatable = mark
  entries : (heap.at t).entries = cells.map Cell.entry
  each : ∀ cell ∈ cells, Spells heap cell.value cell.json cell.footprint
  inside : ∀ address ∈ footprints cells, t < address ∧ address < heap.size
  apart : (footprints cells).Nodup

variable {base heap after : Heap} {t : Nat} {mark : Option Metatable} {cells : List Cell}
  {key value : Value} {json : Json}

theorem filling_create (heap : Heap) : Filling heap heap.size none heap.create.2 [] where
  grows := .create heap
  new := Nat.le_refl _
  bound := by rw [Heap.size_create]; omega
  marked := by rw [Heap.at_create_new]; rfl
  entries := by rw [Heap.at_create_new]; rfl
  each := by simp
  inside := by simp [footprints]
  apart := List.nodup_nil

theorem Filling.each_modify (filling : Filling base t mark heap cells) (change : Table → Table) :
    ∀ cell ∈ cells, Spells (heap.modify t change) cell.value cell.json cell.footprint := by
  intro cell member
  refine (filling.each cell member).frame fun address inside => ?_
  have later := filling.inside address (mem_footprints member inside)
  exact Heap.at_modify_other (by omega)

theorem Filling.setMetatable (filling : Filling base t mark heap cells) (metatable : Metatable) :
    Filling base t (some metatable) (heap.setMetatable t metatable) cells where
  grows := filling.grows.modify filling.new
  new := filling.new
  bound := by rw [Heap.setMetatable, Heap.size_modify]; exact filling.bound
  marked := by rw [Heap.setMetatable, Heap.at_modify filling.bound]
  entries := by rw [Heap.setMetatable, Heap.at_modify filling.bound]; exact filling.entries
  each := filling.each_modify _
  inside := by rw [Heap.setMetatable, Heap.size_modify]; exact filling.inside
  apart := filling.apart

theorem Filling.grow (filling : Filling base t mark heap cells) (grows : Grows heap after) :
    Filling base t mark after cells where
  grows := filling.grows.trans grows
  new := filling.new
  bound := filling.bound.trans_le grows.size
  marked := by rw [grows.same t filling.bound]; exact filling.marked
  entries := by rw [grows.same t filling.bound]; exact filling.entries
  each cell member := (filling.each cell member).frame fun address inside =>
    grows.same address (filling.inside address (mem_footprints member inside)).2
  inside address member :=
    ⟨(filling.inside address member).1, (filling.inside address member).2.trans_le grows.size⟩
  apart := filling.apart

theorem Filling.rawSet (filling : Filling base t mark heap cells)
    (spelled : Spelled heap value json after) (fresh : key ∉ cells.map Cell.key) :
    ∃ cell, cell.held = (key, json) ∧
      Filling base t mark (after.rawSet t key value) (cells ++ [cell]) := by
  obtain ⟨grows, footprint, spells, made⟩ := spelled
  have grown := filling.grow grows
  have some_ := spells.ne_nil
  have absent : key ∉ (after.at t).entries.map Prod.fst := by
    rw [grown.entries, List.map_map]
    exact fresh
  have all : footprints (cells ++ [⟨key, value, json, footprint⟩]) = footprints cells ++ footprint := by
    simp [footprints]
  refine ⟨⟨key, value, json, footprint⟩, rfl, ?_⟩
  exact {
    grows := grown.grows.modify filling.new
    new := filling.new
    bound := by rw [Heap.rawSet, Heap.size_modify]; exact grown.bound
    marked := by rw [Heap.rawSet, Heap.at_modify grown.bound]; exact grown.marked
    entries := by
      rw [Heap.rawSet, Heap.at_modify grown.bound, rawSet_fresh some_ absent, grown.entries,
        List.map_append]
      rfl
    each := by
      intro cell member
      rcases List.mem_append.mp member with old | new
      · exact grown.each_modify _ cell old
      · obtain rfl := List.mem_singleton.mp new
        refine spells.frame fun address inside => ?_
        have bound := filling.bound
        have later := made address inside
        exact Heap.at_modify_other (by omega)
    inside := by
      intro address member
      rw [Heap.rawSet, Heap.size_modify]
      rw [all] at member
      rcases List.mem_append.mp member with old | new
      · exact grown.inside address old
      · have bound := filling.bound
        have later := made address new
        omega
    apart := by
      rw [all, List.nodup_append]
      refine ⟨filling.apart, spells.nodup, fun address old other new => ?_⟩
      have before := filling.inside address old
      have later := made other new
      omega }

theorem Filling.layout (filling : Filling base t mark heap cells) (container : scalarToLua json = none)
    (held : (cells.map Cell.held).Perm (heldBy json)) : Layout heap t cells mark json where
  container := container
  marked := filling.marked
  entries := .of_eq filling.entries
  held := held
  apart := by
    refine List.nodup_cons.mpr ⟨fun inside => ?_, filling.apart⟩
    have later := filling.inside t inside
    omega

theorem Filling.spelled (filling : Filling base t (markOf json) heap cells)
    (container : scalarToLua json = none) (held : (cells.map Cell.held).Perm (heldBy json)) :
    Spelled base (.table t) json heap := by
  refine ⟨filling.grows, _, .table t cells json (filling.layout container held) filling.each, ?_⟩
  intro address member
  have new := filling.new
  rcases List.mem_cons.mp member with rfl | inner
  · exact ⟨new, filling.bound⟩
  · have later := filling.inside address inner
    omega

end Filling

section ToLua

variable {base heap : Heap} {t : Nat} {mark : Option Metatable} {cells : List Cell}

def Encodes (json : Json) : Prop :=
  ∀ heap, Spelled heap (jsonToLua heap json).1 json (jsonToLua heap json).2

theorem itemsToTable_fills {items : List Json} (each : ∀ item ∈ items, Encodes item)
    {position : Nat} (filling : Filling base t mark heap cells)
    (distinct : (cells.map Cell.key ++
      (items.zipIdx position).map fun item => Value.integer (Int64.ofNat item.2)).Nodup) :
    ∃ more, Filling base t mark (itemsToTable t position heap items) (cells ++ more) ∧
      more.map Cell.held =
        (items.zipIdx position).map fun item => (.integer (Int64.ofNat item.2), item.1) := by
  induction items generalizing position heap cells with
  | nil => exact ⟨[], by rw [List.append_nil]; exact filling, rfl⟩
  | cons item items ih =>
      rw [List.zipIdx_cons, List.map_cons] at distinct
      have fresh := (List.nodup_cons.mp (List.nodup_middle.mp distinct)).1
      obtain ⟨cell, held, filled⟩ := filling.rawSet (each item List.mem_cons_self heap)
        fun member => fresh (List.mem_append_left _ member)
      have key : cell.key = .integer (Int64.ofNat position) := (Prod.ext_iff.mp held).1
      obtain ⟨more, all, rest⟩ := ih (fun other member => each other (List.mem_cons_of_mem _ member))
        filled (by rwa [List.map_append, List.map_singleton, key, ← List.append_cons])
      refine ⟨cell :: more, ?_, ?_⟩
      · rw [itemsToTable, List.append_cons]
        exact all
      · rw [List.map_cons, held, rest, List.zipIdx_cons, List.map_cons]

theorem mapToTable_fills {map : List (String × Json)} (each : ∀ field ∈ map, Encodes field.2)
    (filling : Filling base t mark heap cells)
    (distinct : (cells.map Cell.key ++
      map.map fun field => Value.string field.1.toByteArray).Nodup) :
    ∃ more, Filling base t mark (mapToTable t heap map) (cells ++ more) ∧
      more.map Cell.held = map.map fun field => (.string field.1.toByteArray, field.2) := by
  induction map generalizing heap cells with
  | nil => exact ⟨[], by rw [List.append_nil]; exact filling, rfl⟩
  | cons field map ih =>
      obtain ⟨name, value⟩ := field
      rw [List.map_cons] at distinct
      have fresh := (List.nodup_cons.mp (List.nodup_middle.mp distinct)).1
      obtain ⟨cell, held, filled⟩ := filling.rawSet (each _ List.mem_cons_self heap)
        fun member => fresh (List.mem_append_left _ member)
      have key : cell.key = .string name.toByteArray := (Prod.ext_iff.mp held).1
      obtain ⟨more, all, rest⟩ := ih (fun other member => each other (List.mem_cons_of_mem _ member))
        filled (by rwa [List.map_append, List.map_singleton, key, ← List.append_cons])
      refine ⟨cell :: more, ?_, ?_⟩
      · rw [mapToTable, List.append_cons]
        exact all
      · rw [List.map_cons, held, rest, List.map_cons]

theorem positions_distinct {items : List Json} (short : items.length < 2 ^ 63) :
    ((items.zipIdx 1).map fun item => Value.integer (Int64.ofNat item.2)).Nodup := by
  have places : ((items.zipIdx 1).map fun item => Value.integer (Int64.ofNat item.2)) =
      (List.range' 1 items.length).map fun place => Value.integer (Int64.ofNat place) := by
    rw [← List.zipIdx_map_snd, List.map_map]
    rfl
  rw [places]
  refine List.Nodup.map_on ?_ List.nodup_range'
  intro one first two second same
  have equal := congrArg Int64.toInt (Value.integer.inj same)
  rw [List.mem_range'_1] at first second
  rw [Int64.toInt_ofNat_of_lt (by omega), Int64.toInt_ofNat_of_lt (by omega)] at equal
  omega

theorem names_distinct {map : List (String × Json)} (ascending : Pairs.Ascending map) :
    (map.map fun field => Value.string field.1.toByteArray).Nodup := by
  refine List.pairwise_map.mpr (ascending.imp ?_)
  intro first second before same
  have equal := String.toByteArray_inj.mp (Value.string.inj same)
  rw [equal] at before
  exact absurd before (Std.Irrefl.irrefl _)

theorem jsonToLua_spelled {json : Json} (decoded : json.Decoded) : Encodes json := by
  induction decoded with
  | null | bool | number | string =>
      intro heap
      exact spelled_scalar rfl heap
  | array items short each ih =>
      intro heap
      obtain ⟨cells, filling, held⟩ := itemsToTable_fills ih (filling_create heap)
        (positions_distinct short)
      rw [List.nil_append] at filling
      exact (filling.setMetatable .list).spelled rfl (.of_eq held)
  | object map ascending each ih =>
      intro heap
      obtain ⟨cells, filling, held⟩ := mapToTable_fills ih (filling_create heap)
        (names_distinct ascending)
      rw [List.nil_append] at filling
      exact filling.spelled rfl (.of_eq held)

end ToLua

end Lua

end FusionPipeline
