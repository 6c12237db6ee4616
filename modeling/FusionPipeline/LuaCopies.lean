import FusionPipeline.LuaSpelling

/-! The copy of a record: new tables that spell the same, whatever the order of the visits. -/

namespace FusionPipeline.Lua

section Held

variable {json : Json} {held : Value × Json}

theorem heldBy_key (member : held ∈ heldBy json) (address : Nat) : held.1 ≠ .table address := by
  cases json with
  | array items =>
      obtain ⟨item, _, rfl⟩ := List.mem_map.mp member
      exact Value.noConfusion
  | object map =>
      obtain ⟨field, _, rfl⟩ := List.mem_map.mp member
      exact Value.noConfusion
  | _ => cases member

theorem heldBy_nesting (member : held ∈ heldBy json) : held.2.nesting < json.nesting := by
  cases json with
  | array items =>
      obtain ⟨item, inItems, rfl⟩ := List.mem_map.mp member
      have bound := nestingItems_le.mp (Nat.le_refl _) item.1 (List.fst_mem_of_mem_zipIdx inItems)
      rw [Json.nesting]
      simp only
      omega
  | object map =>
      obtain ⟨field, inMap, rfl⟩ := List.mem_map.mp member
      have bound := nestingFields_le.mp (Nat.le_refl _) field inMap
      rw [Json.nesting]
      simp only
      omega
  | _ => cases member

end Held

section Loop

def Stands (heap : Heap) (footprint : List Nat) (base : Heap) : Prop :=
  ∀ address ∈ footprint, address < base.size ∧ base.at address = heap.at address

theorem Stands.grow {heap base after : Heap} {footprint : List Nat}
    (stands : Stands heap footprint base) (grows : Grows base after) : Stands heap footprint after := by
  intro address member
  obtain ⟨bound, same⟩ := stands address member
  exact ⟨bound.trans_le grows.size, (grows.same address bound).trans same⟩

def Unseen (footprint : List Nat) (state : Copying) : Prop :=
  ∀ address ∈ footprint, Pairs.find address state.seen = none

def MeetsOnly (footprint : List Nat) (before after : Copying) : Prop :=
  ∀ address, address ∉ footprint → Pairs.find address after.seen = Pairs.find address before.seen

theorem Unseen.apart {footprint others : List Nat} {before after : Copying}
    (unseen : Unseen footprint before) (meets : MeetsOnly others before after)
    (apart : ∀ address ∈ footprint, address ∉ others) : Unseen footprint after := by
  intro address member
  rw [meets address (apart address member), unseen address member]

/-- Wherever its tables stand unmet, a value's copy spells the same JSON. -/
def Copies (machine : Machine) (heap : Heap) (value : Value) (json : Json)
    (footprint : List Nat) : Prop :=
  ∀ fuel state, json.nesting < fuel → Stands heap footprint state.heap → Unseen footprint state →
    ∃ result, deep machine fuel value state = .ok result ∧
      Spelled state.heap result.1 json result.2.heap ∧ MeetsOnly footprint state result.2

variable {machine : Machine} {heap base : Heap} {fuel : Nat} {value : Value} {json : Json}
  {footprint : List Nat} {cells : List Cell} {mark : Option Metatable}

theorem deep_scalar (scalar : ∀ address, value ≠ .table address) (state : Copying) :
    deep machine (fuel + 1) value state = .ok (value, state) := by
  cases value with
  | table address => exact absurd rfl (scalar address)
  | _ => rfl

theorem copyEntries_fills {todo done : List Cell} {state : Copying} {out : Nat}
    (each : ∀ cell ∈ todo, Copies machine heap cell.value cell.json cell.footprint)
    (keys : ∀ cell ∈ todo, ∀ address, cell.key ≠ .table address)
    (enough : ∀ cell ∈ todo, cell.json.nesting < fuel) (apart : (footprints todo).Nodup)
    (stands : Stands heap (footprints todo) base) (unseen : Unseen (footprints todo) state)
    (filling : Filling base out mark state.heap done)
    (distinct : (done.map Cell.key ++ todo.map Cell.key).Nodup) :
    ∃ after more, copyEntries (deep machine fuel) out (todo.map Cell.entry) state = .ok after ∧
      Filling base out mark after.heap (done ++ more) ∧ more.map Cell.held = todo.map Cell.held ∧
      MeetsOnly (footprints todo) state after := by
  induction todo generalizing state done with
  | nil => exact ⟨state, [], rfl, by rwa [List.append_nil], rfl, fun _ _ => rfl⟩
  | cons cell todo ih =>
      have split_ : footprints (cell :: todo) = cell.footprint ++ footprints todo := List.flatMap_cons ..
      rw [split_] at apart stands unseen
      obtain ⟨_, apartLater, between⟩ := List.nodup_append.mp apart
      rw [List.map_cons] at distinct
      have fresh := (List.nodup_cons.mp (List.nodup_middle.mp distinct)).1
      have shallow := enough cell List.mem_cons_self
      obtain ⟨result, copied, spelled, meets⟩ := each cell List.mem_cons_self fuel state shallow
        (Stands.grow (fun address member => stands address (List.mem_append_left _ member)) filling.grows)
        fun address member => unseen address (List.mem_append_left _ member)
      obtain ⟨new, held, filled⟩ := filling.rawSet spelled fun member =>
        fresh (List.mem_append_left _ member)
      have key : new.key = cell.key := (Prod.ext_iff.mp held).1
      have unseenLater : Unseen (footprints todo) result.2 :=
        Unseen.apart (fun address member => unseen address (List.mem_append_right _ member)) meets
          fun address later inside => between address inside address later rfl
      obtain ⟨after, more, rest, all, same, meetsLater⟩ := @ih (done ++ [new])
        { result.2 with heap := result.2.heap.rawSet out cell.key result.1 }
        (fun other member => each other (List.mem_cons_of_mem _ member))
        (fun other member => keys other (List.mem_cons_of_mem _ member))
        (fun other member => enough other (List.mem_cons_of_mem _ member)) apartLater
        (fun address member => stands address (List.mem_append_right _ member)) unseenLater filled
        (by rwa [List.map_append, List.map_singleton, key, ← List.append_cons])
      refine ⟨after, new :: more, ?_, ?_, ?_, ?_⟩
      · obtain ⟨fuel, rfl⟩ := Nat.exists_eq_add_of_lt shallow
        rw [List.map_cons, copyEntries, Cell.entry, deep_scalar (keys cell List.mem_cons_self),
          Fallible.ok_bind, copied, Fallible.ok_bind]
        exact rest
      · rw [List.append_cons]
        exact all
      · rw [List.map_cons, List.map_cons, held, same]
        rfl
      · intro address outside
        rw [split_, List.mem_append, not_or] at outside
        exact (meetsLater address outside.2).trans (meets address outside.1)

end Loop

section Deep

variable {machine : Machine} {heap : Heap} {fuel address : Nat} {value : Value} {json : Json}
  {footprint : List Nat} {cells : List Cell} {mark : Option Metatable}

def copiedMark (mark : Option Metatable) : Option Metatable :=
  if mark = some .list then some .list else none

theorem copiedMark_markOf (json : Json) : copiedMark (markOf json) = markOf json := by
  cases json <;> rfl

theorem copyMark_fills (base : Heap) (bound : address < base.size) :
    Filling base base.size (copiedMark (base.at address).metatable)
      (copyMark base.create.2 address base.size) [] := by
  rw [copyMark, isList, Heap.at_create bound, copiedMark]
  by_cases marked : (base.at address).metatable = some .list
  · rw [if_pos marked, if_pos (beq_iff_eq.mpr marked)]
    exact (filling_create base).setMetatable .list
  · rw [if_neg marked, if_neg fun same => marked (beq_iff_eq.mp same)]
    exact filling_create base

/-- A table's copy is a new table filled with copies of its values. -/
theorem deep_fills (layout : Layout heap address cells mark json)
    (each : ∀ cell ∈ cells, Copies machine heap cell.value cell.json cell.footprint)
    {state : Copying} (enough : json.nesting < fuel)
    (stands : Stands heap (address :: footprints cells) state.heap)
    (unseen : Unseen (address :: footprints cells) state) :
    ∃ after copies, deep machine fuel (.table address) state = .ok (.table state.heap.size, after) ∧
      Filling state.heap state.heap.size (copiedMark mark) after.heap copies ∧
      (copies.map Cell.held).Perm (heldBy json) ∧
      MeetsOnly (address :: footprints cells) state after := by
  obtain ⟨bound, same⟩ := stands address List.mem_cons_self
  have filling := copyMark_fills state.heap bound
  rw [same, layout.marked] at filling
  have kept : (copyMark state.heap.create.2 address state.heap.size).at address = heap.at address := by
    rw [filling.grows.same address bound, same]
  have visited := machine.visited_perm address (heap.at address).entries
  obtain ⟨order, visits, perm⟩ := order_of_perm (visited.trans layout.entries)
  have held : (order.map Cell.held).Perm (heldBy json) := (perm.map _).trans layout.held
  have inHeld : ∀ cell ∈ order, cell.held ∈ heldBy json :=
    fun cell member => held.mem_iff.mp (List.mem_map_of_mem member)
  have takes : (footprints order).Perm (footprints cells) := perm.flatMap_right _
  have distinct : (order.map Cell.key).Nodup := by
    have keys := (visited.map Prod.fst).nodup_iff.mpr (heap.at address).distinct
    rwa [visits, List.map_map] at keys
  have apart := List.nodup_cons.mp layout.apart
  obtain ⟨depth, rfl⟩ : ∃ depth, fuel = depth + 1 := ⟨fuel - 1, by omega⟩
  obtain ⟨after, copies, copied, filled, copiesHeld, meets⟩ := @copyEntries_fills machine heap
    state.heap depth (copiedMark mark) order []
    ⟨copyMark state.heap.create.2 address state.heap.size, (address, state.heap.size) :: state.seen⟩
    state.heap.size (fun cell member => each cell (perm.mem_iff.mp member))
    (fun cell member => heldBy_key (inHeld cell member))
    (fun cell member => by
      have below := heldBy_nesting (inHeld cell member)
      exact Nat.lt_of_lt_of_le below (Nat.lt_succ_iff.mp enough))
    (takes.nodup_iff.mpr apart.2)
    (fun inner inside => stands inner (List.mem_cons_of_mem _ (takes.mem_iff.mp inside)))
    (fun inner inside => by
      have inCells := takes.mem_iff.mp inside
      have differs : address ≠ inner := by
        rintro rfl
        exact apart.1 inCells
      rw [Pairs.find, if_neg differs]
      exact unseen inner (List.mem_cons_of_mem _ inCells))
    filling distinct
  refine ⟨after, copies, ?_, filled, copiesHeld ▸ held, ?_⟩
  · have unmet := unseen address List.mem_cons_self
    rw [← visits] at copied
    simp only [deep, unmet]
    rw [show state.heap.create.1 = state.heap.size from rfl, kept, copied]
    rfl
  · intro other outside
    rw [List.mem_cons, not_or] at outside
    rw [meets other fun inside => outside.2 (takes.mem_iff.mp inside), Pairs.find,
      if_neg (Ne.symm outside.1)]

theorem Spells.copies (spells : Spells heap value json footprint) :
    Copies machine heap value json footprint := by
  induction spells with
  | scalar value json is =>
      intro fuel state enough stands unseen
      obtain ⟨depth, rfl⟩ : ∃ depth, fuel = depth + 1 := ⟨fuel - 1, by omega⟩
      exact ⟨_, deep_scalar (scalarToLua_plain is).2 state, spelled_scalar is _, fun _ _ => rfl⟩
  | table address cells json layout each ih =>
      intro fuel state enough stands unseen
      obtain ⟨after, copies, copied, filling, held, meets⟩ :=
        deep_fills layout ih enough stands unseen
      rw [copiedMark_markOf] at filling
      exact ⟨_, copied, filling.spelled layout.container held, meets⟩

end Deep

section Records

/-- A table that carries the record mark and holds the record, in tables nothing else has. -/
structure IsRecord (heap : Heap) (address : Nat) (json : Json) (cells : List Cell) : Prop where
  layout : Layout heap address cells (some (.record (.of json))) json
  each : ∀ cell ∈ cells, Spells heap cell.value cell.json cell.footprint
  bound : ∀ inner ∈ address :: footprints cells, inner < heap.size

variable {heap : Heap} {fuel address : Nat} {json : Json} {cells : List Cell}
  {mark : Option Metatable}

theorem Layout.record (layout : Layout heap address cells mark json)
    (each : ∀ cell ∈ cells, Spells heap cell.value cell.json cell.footprint)
    (bound : ∀ inner ∈ address :: footprints cells, inner < heap.size) :
    IsRecord (RecordMark.mark heap address (.of json)) address json cells := by
  have here := bound address List.mem_cons_self
  refine ⟨⟨layout.container, ?_, ?_, layout.held, layout.apart⟩, fun cell member => ?_, ?_⟩
  · rw [RecordMark.mark, Heap.setMetatable, Heap.at_modify here]
  · rw [RecordMark.mark, Heap.setMetatable, Heap.at_modify here]
    exact layout.entries
  · refine (each cell member).frame fun inner inside => Heap.at_modify_other ?_
    rintro rfl
    exact (List.nodup_cons.mp layout.apart).1 (mem_footprints member inside)
  · rw [RecordMark.mark, Heap.setMetatable, Heap.size_modify]
    exact bound

theorem IsRecord.shape (record : IsRecord heap address json cells) :
    RecordMark.shape (heap.at address) = some (.of json) := by
  rw [RecordMark.shape, record.layout.marked]

theorem copy_record (machine : Machine) (record : IsRecord heap address json cells)
    (enough : json.nesting < fuel) :
    ∃ after copies, copy machine fuel address heap = .ok (.table heap.size, after) ∧
      IsRecord after heap.size json copies := by
  obtain ⟨after, copies, copied, filling, held, _⟩ := @deep_fills machine heap fuel address json cells
    (some (.record (.of json))) record.layout (fun cell member => (record.each cell member).copies)
    ⟨heap, []⟩ enough (fun inner inside => ⟨record.bound inner inside, rfl⟩) (fun _ _ => rfl)
  have layout := filling.layout record.layout.container held
  have same := filling.grows.same address (record.bound address List.mem_cons_self)
  refine ⟨_, copies, ?_, layout.record filling.each ?_⟩
  · rw [copy, copied, Fallible.ok_bind]
    simp only [finish, same, record.shape]
    rfl
  · intro inner member
    rcases List.mem_cons.mp member with rfl | inside
    · exact filling.bound
    · exact (filling.inside inner inside).2

theorem argument_scalar {record : Record} {value : Value}
    (scalar : scalarToLua record.value = some value) (heap : Heap) :
    argument heap record = (value, heap) := by
  have plain := scalarToLua_plain scalar
  have encoded : toLua heap record = (value, heap) := by
    rw [toLua]
    generalize record.value = json at scalar
    cases json with
    | array items => cases scalar
    | object map => cases scalar
    | _ =>
        obtain rfl := Option.some.inj scalar
        rfl
  rw [argument, encoded]
  cases value with
  | table address => exact absurd rfl (plain.2 address)
  | _ => rfl

theorem argument_record {record : Record} (decoded : record.value.Decoded)
    (container : scalarToLua record.value = none) (heap : Heap) :
    ∃ address cells, (argument heap record).1 = .table address ∧
      IsRecord (argument heap record).2 address record.value cells := by
  obtain ⟨_, footprint, spells, made⟩ := jsonToLua_spelled decoded heap
  rw [argument, toLua]
  generalize jsonToLua heap record.value = encoded at spells made
  obtain ⟨value, after⟩ := encoded
  cases spells with
  | scalar value json is => cases is.symm.trans container
  | table address cells json layout each =>
      exact ⟨address, cells, rfl, layout.record each fun inner member => (made inner member).2⟩

end Records

end FusionPipeline.Lua
