import FusionPipeline.LuaAccepting
import FusionPipeline.LuaCopies

/-! What a script hands back of a record it returns, or copies and returns. -/

namespace FusionPipeline

section Crossed

/-- A number as it comes back: an integer too large for Lua's as the float nearest to it. -/
def Number.crossed : Number → Number
  | posInt value =>
      if value.toNat < 2 ^ 63 then posInt value
      else float (.ofNat value.toNat) (F64.ofNat_finite value.toNat_lt)
  | n => n

mutual
def Json.crossed : Json → Json
  | .number n => .number n.crossed
  | .array items => .array (crossedItems items)
  | .object map => .object (crossedFields map)
  | json => json

def crossedItems : List Json → List Json
  | [] => []
  | item :: rest => item.crossed :: crossedItems rest

def crossedFields : List (String × Json) → List (String × Json)
  | [] => []
  | (key, value) :: rest => (key, value.crossed) :: crossedFields rest
end

mutual
def Json.numbers : Json → List Number
  | .number n => [n]
  | .array items => numbersItems items
  | .object map => numbersFields map
  | _ => []

def numbersItems : List Json → List Number
  | [] => []
  | item :: rest => item.numbers ++ numbersItems rest

def numbersFields : List (String × Json) → List Number
  | [] => []
  | (_, value) :: rest => value.numbers ++ numbersFields rest
end

theorem crossedItems_eq (items : List Json) : crossedItems items = items.map Json.crossed := by
  induction items with
  | nil => rfl
  | cons item rest ih => rw [crossedItems, ih, List.map_cons]

theorem crossedFields_eq (map : List (String × Json)) :
    crossedFields map = map.map fun field => (field.1, field.2.crossed) := by
  induction map with
  | nil => rfl
  | cons field rest ih => rw [crossedFields, ih, List.map_cons]

theorem mem_numbersItems {items : List Json} {n : Number} :
    n ∈ numbersItems items ↔ ∃ item ∈ items, n ∈ item.numbers := by
  induction items with
  | nil => simp [numbersItems]
  | cons item rest ih => simp [numbersItems, ih]

theorem mem_numbersFields {map : List (String × Json)} {n : Number} :
    n ∈ numbersFields map ↔ ∃ field ∈ map, n ∈ field.2.numbers := by
  induction map with
  | nil => simp [numbersFields]
  | cons field rest ih => simp [numbersFields, ih]

theorem nestingItems_crossed {items : List Json}
    (each : ∀ item ∈ items, item.crossed.nesting = item.nesting) :
    nestingItems (crossedItems items) = nestingItems items := by
  induction items with
  | nil => rfl
  | cons item rest ih =>
      rw [crossedItems, nestingItems, nestingItems, each item List.mem_cons_self,
        ih fun other member => each other (List.mem_cons_of_mem _ member)]

theorem nestingFields_crossed {map : List (String × Json)}
    (each : ∀ field ∈ map, field.2.crossed.nesting = field.2.nesting) :
    nestingFields (crossedFields map) = nestingFields map := by
  induction map with
  | nil => rfl
  | cons field rest ih =>
      rw [crossedFields, nestingFields, nestingFields, each field List.mem_cons_self,
        ih fun other member => each other (List.mem_cons_of_mem _ member)]

theorem map_eq_self_iff {Item : Type} {change : Item → Item} {items : List Item} :
    items.map change = items ↔ ∀ item ∈ items, change item = item := by
  nth_rewrite 2 [← List.map_id items]
  exact List.map_inj_left

theorem Number.crossed_eq_iff (n : Number) :
    n.crossed = n ↔ ∀ value, n = posInt value → value.toNat < 2 ^ 63 := by
  cases n with
  | posInt value =>
      rw [crossed]
      constructor
      · rintro same other equal
        obtain rfl := Number.posInt.inj equal
        by_contra large
        rw [if_neg large] at same
        cases same
      · intro small
        exact if_pos (small value rfl)
  | negInt value negative => simp [crossed]
  | float value finite => simp [crossed]

theorem Json.crossed_eq_iff {json : Json} (decoded : json.Decoded) :
    json.crossed = json ↔ ∀ n ∈ json.numbers, n.crossed = n := by
  induction decoded with
  | null | bool | string => simp [crossed, numbers]
  | number n => simp [crossed, numbers]
  | array items short each ih =>
      rw [crossed, crossedItems_eq, Json.array.injEq, numbers]
      simp only [mem_numbersItems]
      constructor
      · rintro same n ⟨item, member, inItem⟩
        exact (ih item member).mp (map_eq_self_iff.mp same item member) n inItem
      · intro exact_
        refine map_eq_self_iff.mpr fun item member => (ih item member).mpr fun n inItem => ?_
        exact exact_ n ⟨item, member, inItem⟩
  | object map ascending each ih =>
      rw [crossed, crossedFields_eq, Json.object.injEq, numbers]
      simp only [mem_numbersFields]
      constructor
      · rintro same n ⟨field, member, inField⟩
        have kept := map_eq_self_iff.mp same field member
        exact (ih field member).mp (Prod.ext_iff.mp kept).2 n inField
      · intro exact_
        refine map_eq_self_iff.mpr fun field member => Prod.ext rfl ?_
        exact (ih field member).mpr fun n inField => exact_ n ⟨field, member, inField⟩

theorem Json.crossed_nesting {json : Json} (decoded : json.Decoded) :
    json.crossed.nesting = json.nesting := by
  induction decoded with
  | null | bool | number | string => rfl
  | array items short each ih =>
      rw [crossed, nesting, nesting, nestingItems_crossed ih]
  | object map ascending each ih =>
      rw [crossed, nesting, nesting, nestingFields_crossed ih]

theorem Json.crossed_bytes {json : Json} (decoded : json.Decoded) {ofText ofKey : ByteArray → Nat} :
    json.crossed.bytes ofText ofKey = json.bytes ofText ofKey := by
  induction decoded with
  | null | bool | number | string => rfl
  | array items short each ih =>
      rw [crossed, crossedItems_eq, bytes, bytes, bytesItems_eq, bytesItems_eq, List.map_map]
      exact congrArg List.sum (List.map_congr_left ih)
  | object map ascending each ih =>
      rw [crossed, crossedFields_eq, bytes, bytes, bytesFields_eq, bytesFields_eq, List.map_map]
      refine congrArg List.sum (List.map_congr_left fun field member => ?_)
      exact congrArg (ofKey field.1.toByteArray + ·) (ih field member)

end Crossed

namespace Lua

section Reads

variable {machine : Machine} {heap : Heap} {address : Nat} {value : Value} {json : Json}
  {footprint : List Nat} {cells : List Cell} {mark : Option Metatable}

theorem numberToLua_reads (n : Number) :
    ReadsAs machine heap (numberToLua n) (.number n.crossed) := by
  cases n with
  | posInt value =>
      by_cases small : value.toNat < 2 ^ 63
      · simp only [numberToLua, Number.asI64, Number.crossed, if_pos small]
        exact Number.ofI64_ofNat small ▸ .integer _
      · simp only [numberToLua, Number.asI64, Number.asU64, unsigned, Number.crossed, if_neg small]
        exact .number _ _
  | negInt value negative =>
      have back : Number.ofI64 value = .negInt value negative := by
        rw [Number.ofI64, dif_pos negative]
      change ReadsAs machine heap (.integer value) (.number (.negInt value negative))
      exact back ▸ .integer value
  | float value finite => exact .number value finite

theorem heldBy_decoded (decoded : json.Decoded) {held : Value × Json} (member : held ∈ heldBy json) :
    held.2.Decoded := by
  cases decoded with
  | array items short each =>
      obtain ⟨item, inItems, rfl⟩ := List.mem_map.mp member
      exact each item.1 (List.fst_mem_of_mem_zipIdx inItems)
  | object map ascending each =>
      obtain ⟨field, inMap, rfl⟩ := List.mem_map.mp member
      exact each field inMap
  | _ => cases member

theorem Layout.shapeAt (layout : Layout heap address cells mark json)
    (carries : mark = markOf json ∨ mark = some (.record (.of json))) :
    shapeAt machine heap address = .of json := by
  rw [Lua.shapeAt, RecordMark.shape, layout.marked]
  rcases carries with rfl | rfl
  · cases json with
    | array items =>
        have list : isList (heap.at address) = true := beq_iff_eq.mpr layout.marked
        rw [markOf, Option.getD_none, Shape.ofTable, if_pos (.inl list)]
        rfl
    | object map =>
        have list : ¬ isList (heap.at address) = true := by
          rw [isList, layout.marked]
          exact Bool.false_ne_true
        have none_ : positions (heap.at address).entries = [] := by
          refine List.filterMap_eq_nil_iff.mpr fun entry member => ?_
          obtain ⟨cell, inCells, rfl⟩ := List.mem_map.mp (layout.entries.mem_iff.mp member)
          obtain ⟨field, _, same⟩ :=
            List.mem_map.mp (layout.held.mem_iff.mp (List.mem_map_of_mem inCells))
          have key : cell.key = .string field.1.toByteArray := (Prod.ext_iff.mp same).1.symm
          rw [Cell.entry, key]
          rfl
        have length : ¬ 0 < machine.rawLen address (heap.at address).entries := by
          have border := (machine.rawLen_border address (heap.at address).entries).1
          rw [none_] at border
          rcases border with zero | member
          · omega
          · cases member
        change Shape.ofTable machine heap address = .object
        rw [Shape.ofTable, if_neg (not_or.mpr ⟨list, length⟩)]
    | _ => cases layout.container
  · rfl

theorem position_ofNat {place : Nat} (positive : 0 < place) (small : place < 2 ^ 63) :
    (Value.integer (Int64.ofNat place)).position = some place := by
  have same : (Int64.ofNat place).toInt = place := Int64.toInt_ofNat_of_lt small
  have above : 0 < Int64.ofNat place := by
    rw [Int64.lt_iff_toInt_lt, same]
    exact Int.natCast_pos.mpr positive
  rw [Value.position, if_pos above, same, Int.toNat_natCast]

theorem Layout.reads_list {items : List Json} (short : items.length < 2 ^ 63)
    (layout : Layout heap address cells mark (.array items))
    (carries : mark = markOf (.array items) ∨ mark = some (.record .list))
    (each : ∀ cell ∈ cells, ReadsAs machine heap cell.value cell.json.crossed) :
    ReadsAs machine heap (.table address) (Json.array items).crossed := by
  obtain ⟨order, ordered, perm⟩ := order_of_perm layout.held.symm
  have size : items.length = order.length := by
    simpa [heldBy] using congrArg List.length ordered
  have at_ : ∀ i (inItems : i < items.length) (inOrder : i < order.length),
      order[i].key = .integer (Int64.ofNat (1 + i)) ∧ order[i].json = items[i] := by
    intro i inItems inOrder
    have same := List.ext_getElem_iff.mp ordered |>.2 i
      (by simpa [heldBy] using inItems) (by simpa using inOrder)
    simp only [heldBy, List.getElem_map, List.getElem_zipIdx, Cell.held, Prod.mk.injEq] at same
    exact ⟨same.1.symm, same.2.symm⟩
  have crossed : (Json.array items).crossed =
      .array ((order.map fun cell => (cell.value, cell.json.crossed)).map Prod.snd) := by
    rw [Json.crossed, crossedItems_eq, List.map_map]
    refine congrArg Json.array (List.ext_getElem (by simp [size]) fun i inItems inOrder => ?_)
    rw [List.length_map] at inItems
    simp [(at_ i inItems (size ▸ inItems)).2]
  rw [crossed]
  refine .list address _ (layout.shapeAt carries) ?_ ?_
  · refine ((layout.entries.trans (perm.symm.map _)).map _).trans (.of_eq ?_)
    refine List.ext_getElem (by simp) fun i inOrder _ => ?_
    simp only [List.length_map] at inOrder
    have inItems : i < items.length := size ▸ inOrder
    have key := (at_ i inItems inOrder).1
    simp only [List.getElem_map, List.getElem_zipIdx, Cell.entry, key,
      position_ofNat (Nat.add_pos_left Nat.one_pos i) (by omega : 1 + i < 2 ^ 63)]
    rw [Nat.zero_add, Nat.add_comm]
  · intro item member
    obtain ⟨cell, inOrder, rfl⟩ := List.mem_map.mp member
    exact each cell (perm.mem_iff.mp inOrder)

def nameOf : Value → String
  | .string bytes => (String.fromUTF8? bytes).getD ""
  | _ => ""

theorem nameOf_string (name : String) : nameOf (.string name.toByteArray) = name := by
  rw [nameOf, Text.fromUTF8_toByteArray, Option.getD_some]

theorem Layout.reads_object {map : List (String × Json)} (ascending : Pairs.Ascending map)
    (layout : Layout heap address cells mark (.object map))
    (carries : mark = markOf (.object map) ∨ mark = some (.record .object))
    (each : ∀ cell ∈ cells, ReadsAs machine heap cell.value cell.json.crossed) :
    ReadsAs machine heap (.table address) (Json.object map).crossed := by
  obtain ⟨order, ordered, perm⟩ := order_of_perm layout.held.symm
  have named : ∀ cell ∈ order, cell.key = .string (nameOf cell.key).toByteArray := by
    intro cell member
    obtain ⟨field, _, same⟩ := List.mem_map.mp (ordered ▸ List.mem_map_of_mem member)
    have key : cell.key = .string field.1.toByteArray := (Prod.ext_iff.mp same).1.symm
    rw [key, nameOf_string]
  have fields : map = order.map fun cell => (nameOf cell.key, cell.json) := by
    have names := congrArg (List.map fun held => (nameOf held.1, held.2)) ordered
    rw [heldBy, List.map_map, List.map_map] at names
    have kept : map.map ((fun held : Value × Json => (nameOf held.1, held.2)) ∘
        fun field : String × Json => (.string field.1.toByteArray, field.2)) = map :=
      map_eq_self_iff.mpr fun field _ => Prod.ext (nameOf_string field.1) rfl
    rw [← kept]
    exact names
  have crossed : crossedFields map = order.map fun cell => (nameOf cell.key, cell.json.crossed) := by
    rw [crossedFields_eq]
    nth_rewrite 1 [fields]
    rw [List.map_map]
    rfl
  rw [Json.crossed]
  refine .object address (order.map fun cell => (nameOf cell.key, cell.value, cell.json.crossed)) _
    (layout.shapeAt carries) ?_ ?_ ?_ ?_
  · refine (layout.entries.trans (perm.symm.map _)).trans (.of_eq ?_)
    rw [List.map_map]
    exact List.map_congr_left fun cell member => Prod.ext (named cell member) rfl
  · rw [crossed, List.map_map]
    exact .refl _
  · rw [crossedFields_eq]
    exact List.pairwise_map.mpr ascending
  · intro field member
    obtain ⟨cell, inOrder, rfl⟩ := List.mem_map.mp member
    exact each cell (perm.mem_iff.mp inOrder)

theorem Layout.reads (layout : Layout heap address cells mark json) (decoded : json.Decoded)
    (carries : mark = markOf json ∨ mark = some (.record (.of json)))
    (each : ∀ cell ∈ cells, ReadsAs machine heap cell.value cell.json.crossed) :
    ReadsAs machine heap (.table address) json.crossed := by
  cases decoded with
  | array items short _ => exact layout.reads_list short carries each
  | object map ascending _ => exact layout.reads_object ascending carries each
  | _ => cases layout.container

theorem Spells.reads (machine : Machine) (spells : Spells heap value json footprint)
    (decoded : json.Decoded) :
    ReadsAs machine heap value json.crossed := by
  induction spells with
  | scalar value json is =>
      cases json with
      | null =>
          obtain rfl := Option.some.inj is
          exact .null
      | bool b =>
          obtain rfl := Option.some.inj is
          exact .boolean b
      | number n =>
          obtain rfl := Option.some.inj is
          exact numberToLua_reads n
      | string s =>
          obtain rfl := Option.some.inj is
          exact .string s
      | array items => cases is
      | object map => cases is
  | table address cells json layout each ih =>
      refine layout.reads decoded (.inl rfl) fun cell member => ih cell member ?_
      exact heldBy_decoded decoded (layout.held.mem_iff.mp (List.mem_map_of_mem member))

theorem IsRecord.reads (machine : Machine) (record : IsRecord heap address json cells)
    (decoded : json.Decoded) : ReadsAs machine heap (.table address) json.crossed := by
  refine record.layout.reads decoded (.inr rfl) fun cell member =>
    (record.each cell member).reads machine ?_
  exact heldBy_decoded decoded (record.layout.held.mem_iff.mp (List.mem_map_of_mem member))

end Reads

section Runs

/-- Whether `record:copy` is the method: a scalar has none, and a field of that name hides it. -/
def hasCopy : Json → Bool
  | .array _ => true
  | .object map => (Pairs.find "copy" map).isNone
  | _ => false

variable {machine : Machine} {heap : Heap} {fuel outputBytes address : Nat} {value : Value}
  {json : Json} {cells : List Cell} {record : Record}

theorem fromLua_crossed (reads : ReadsAs machine heap value json.crossed) (decoded : json.Decoded)
    (enough : maxDepth < fuel) (nested : json.nesting ≤ maxDepth)
    (within : json.textBytes ≤ outputBytes) :
    fromLua machine heap fuel value outputBytes = .ok ⟨json.crossed⟩ := by
  refine fromLua_ok enough reads ?_ ?_
  · rwa [Json.crossed_nesting decoded]
  · rwa [Json.textBytes, Json.crossed_bytes decoded]

theorem IsRecord.returned (isRecord : IsRecord heap address json cells) (decoded : json.Decoded)
    (enough : maxDepth < fuel) (nested : json.nesting ≤ maxDepth)
    (within : json.textBytes ≤ outputBytes) (record : Record) :
    returned machine fuel outputBytes record heap (.table address) = .ok (.record ⟨json.crossed⟩) := by
  have read := fromLua_crossed (isRecord.reads machine decoded) decoded enough nested within
  simp [Lua.returned, isRecord.shape, read, Except.map]

theorem returned_scalar (scalar : scalarToLua record.value = some value)
    (decoded : record.value.Decoded) (enough : maxDepth < fuel)
    (nested : record.value.nesting ≤ maxDepth) (within : record.value.textBytes ≤ outputBytes) :
    returned machine fuel outputBytes record heap value = .ok (.record ⟨record.value.crossed⟩) := by
  have spells : Spells heap value record.value [] := .scalar value record.value scalar
  have read := fromLua_crossed (spells.reads machine decoded) decoded enough nested within
  have plain := scalarToLua_plain scalar
  cases value with
  | nil => exact absurd rfl plain.1
  | table address => exact absurd rfl (plain.2 address)
  | boolean b =>
      obtain ⟨json⟩ := record
      obtain rfl : json = .bool b := by
        cases json with
        | bool other =>
            cases scalar
            rfl
        | number n =>
            rcases numberToLua_cases n with ⟨i, same⟩ | ⟨f, same⟩
            · cases same.symm.trans (Option.some.inj scalar)
            · cases same.symm.trans (Option.some.inj scalar)
        | _ => cases scalar
      simp [returned, read, Except.map]
  | _ => simp [returned, read, Except.map]

theorem rawGet_absent {table : Table} {key : Value}
    (absent : ∀ entry ∈ table.entries, entry.1 ≠ key) : table.rawGet key = .nil := by
  have none_ : table.entries.find? (fun entry => entry.1 == key) = none :=
    List.find?_eq_none.mpr fun entry member same => absent entry member (beq_iff_eq.mp same)
  rw [Table.rawGet, none_]
  rfl

theorem IsRecord.method (isRecord : IsRecord heap address json cells) (has : hasCopy json = true) :
    (heap.at address).rawGet (.string "copy".toByteArray) = .nil := by
  refine rawGet_absent fun entry member same => ?_
  obtain ⟨cell, inCells, rfl⟩ := List.mem_map.mp (isRecord.layout.entries.mem_iff.mp member)
  have held := isRecord.layout.held.mem_iff.mp (List.mem_map_of_mem inCells)
  cases json with
  | array items =>
      obtain ⟨item, _, is⟩ := List.mem_map.mp held
      cases (Prod.ext_iff.mp is).1.trans same
  | object map =>
      obtain ⟨field, inMap, is⟩ := List.mem_map.mp held
      have text := Value.string.inj ((Prod.ext_iff.mp is).1.trans same)
      have name : field.1 = "copy" := String.toByteArray_inj.mp text
      exact Pairs.not_mem_keys (Option.isNone_iff_eq_none.mp has) (name ▸ List.mem_map_of_mem inMap)
  | _ => cases has

/-- A record that is returned, or copied and returned, comes back with its numbers as Lua keeps
them: as it was, unless it holds an integer of 2^63 or more. -/
theorem run_hands_back (machine : Machine) (heap : Heap) (decoded : record.value.Decoded)
    (nested : record.value.nesting ≤ maxDepth) (within : record.value.textBytes ≤ outputBytes)
    (enough : maxDepth < fuel) :
    run machine fuel outputBytes returnRecord heap record =
        .ok (.record ⟨record.value.crossed⟩) ∧
      (hasCopy record.value = true →
        run machine fuel outputBytes (returnCopy machine fuel) heap record =
          .ok (.record ⟨record.value.crossed⟩)) ∧
      (record.value.crossed = record.value ↔
        ∀ value, .posInt value ∈ record.value.numbers → value.toNat < 2 ^ 63) := by
  have kept : record.value.crossed = record.value ↔
      ∀ value, .posInt value ∈ record.value.numbers → value.toNat < 2 ^ 63 := by
    rw [Json.crossed_eq_iff decoded]
    constructor
    · intro same value member
      exact (Number.crossed_eq_iff _).mp (same _ member) value rfl
    · intro small n member
      refine (Number.crossed_eq_iff n).mpr ?_
      rintro value rfl
      exact small value member
  cases scalar : scalarToLua record.value with
  | some value =>
      have back := @returned_scalar machine heap fuel outputBytes value record scalar decoded enough
        nested within
      refine ⟨?_, fun has => ?_, kept⟩
      · rw [run, argument_scalar scalar, returnRecord, Fallible.ok_bind, back]
        rfl
      · generalize record.value = json at has scalar
        cases json with
        | array items => cases scalar
        | object map => cases scalar
        | _ => cases has
  | none =>
      obtain ⟨address, cells, value, isRecord⟩ := argument_record decoded scalar heap
      refine ⟨?_, fun has => ?_, kept⟩
      · rw [run, returnRecord, Fallible.ok_bind, value,
          isRecord.returned decoded enough nested within]
        rfl
      · obtain ⟨after, copies, copied, copyIsRecord⟩ :=
          copy_record machine isRecord (nested.trans_lt enough)
        have called : returnCopy machine fuel (.table address) (argument heap record).2 =
            .ok (.table (argument heap record).2.size, after) := by
          rw [← copied]
          simp only [returnCopy, isRecord.method has, isRecord.shape]
        rw [run, value, called, Fallible.ok_bind,
          copyIsRecord.returned decoded enough nested within]
        rfl

def emptied : Record :=
  ⟨.object [("a", .array [.number (.posInt 1), .object [], .array [], .null]), ("b", .string "x")]⟩

theorem emptied_decoded : emptied.value.Decoded := by
  refine .object _ (List.pairwise_pair.mpr (by decide)) ?_
  simp only [List.forall_mem_cons]
  refine ⟨.array _ (by decide) ?_, .string "x", by simp⟩
  simp only [List.forall_mem_cons]
  exact ⟨.number _, .object [] .nil (by simp), .array [] (by decide) (by simp), .null, by simp⟩

theorem run_hands_back_emptied :
    run Machine.plain 129 1 returnRecord ⟨[]⟩ emptied = .ok (.record emptied) ∧
      run Machine.plain 129 1 (returnCopy Machine.plain 129) ⟨[]⟩ emptied = .ok (.record emptied) := by
  have back := @run_hands_back 129 1 emptied Machine.plain ⟨[]⟩ emptied_decoded (by decide) (by decide)
    (by decide)
  exact ⟨back.1, back.2.1 (by decide)⟩

def tooLarge : Record :=
  ⟨.number (.posInt 0x8000000000000000)⟩

def plainText : Record :=
  ⟨.string "text"⟩

def copyField : Record :=
  ⟨.object [("copy", .null)]⟩

/-- The integer comes back as a float, and neither of the others is copied. -/
theorem run_hands_back_otherwise :
    (tooLarge.value.Decoded ∧ tooLarge.value.nesting ≤ maxDepth ∧ tooLarge.value.textBytes ≤ 4 ∧
      run Machine.plain 129 4 returnRecord ⟨[]⟩ tooLarge =
        .ok (.record ⟨.number (.float ⟨0x43E0000000000000⟩ rfl)⟩) ∧
      Json.number (.float ⟨0x43E0000000000000⟩ rfl) ≠ tooLarge.value) ∧
    (plainText.value.Decoded ∧ plainText.value.nesting ≤ maxDepth ∧
      plainText.value.textBytes ≤ 4 ∧
      run Machine.plain 129 4 (returnCopy Machine.plain 129) ⟨[]⟩ plainText = .error .runtime) ∧
    (copyField.value.Decoded ∧ copyField.value.nesting ≤ maxDepth ∧
      copyField.value.textBytes ≤ 4 ∧
      run Machine.plain 129 4 (returnCopy Machine.plain 129) ⟨[]⟩ copyField = .error .runtime) := by
  refine ⟨⟨.number _, by decide, by decide, rfl, ?_⟩, ⟨.string _, by decide, by decide, rfl⟩,
    ⟨.object _ (List.pairwise_singleton _ _) ?_, by decide, by decide, rfl⟩⟩
  · intro same
    cases same
  · simp only [List.forall_mem_cons]
    exact ⟨.null, by simp⟩

end Runs

end Lua

end FusionPipeline
