import FusionPipeline.LuaReading

/-! What `from_lua` accepts: every value that is JSON, within the depth and the cap. -/

namespace FusionPipeline.Lua

variable {machine : Machine} {heap : Heap}

section Lists

theorem listEntry_ok {field : String} {before entries : List Entry} {listed : Listed}
    (listing : Listing before listed)
    (positions : ∀ entry ∈ entries, ∃ position, entry.1.position = some position) :
    ∃ after, entries.foldlM (listEntry machine field) listed = .ok after ∧
      Listing (before ++ entries) after := by
  induction entries generalizing before listed with
  | nil => exact ⟨listed, rfl, (List.append_nil before).symm ▸ listing⟩
  | cons entry entries ih =>
      obtain ⟨position, found⟩ := positions entry List.mem_cons_self
      obtain ⟨after, folded, all⟩ := ih (listing.snoc found)
        fun other member => positions other (List.mem_cons_of_mem _ member)
      refine ⟨after, ?_, List.append_cons _ _ _ ▸ all⟩
      rw [List.foldlM_cons, listEntry, found]
      exact folded

theorem listLen_ok {address : Nat} {items : List (Value × Json)} (field : String)
    (positions : ((heap.at address).entries.map fun entry => (entry.1.position, entry.2)).Perm
      (items.zipIdx.map fun item => (some (item.2 + 1), item.1.1))) :
    listLen machine heap address field = .ok items.length := by
  have visited := machine.visited_perm address (heap.at address).entries
  have place : ∀ entry ∈ machine.visited address (heap.at address).entries,
      ∃ i < items.length, entry.1.position = some (i + 1) := by
    intro entry member
    obtain ⟨item, held, same⟩ := List.mem_map.mp
      (positions.mem_iff.mp (List.mem_map_of_mem (visited.mem_iff.mp member)))
    have bound := List.snd_lt_of_mem_zipIdx held
    exact ⟨item.2, by omega, (Prod.ext_iff.mp same).1.symm⟩
  have isPosition : ∀ entry ∈ machine.visited address (heap.at address).entries,
      ∃ position, entry.1.position = some position := by
    intro entry member
    obtain ⟨i, _, found⟩ := place entry member
    exact ⟨i + 1, found⟩
  obtain ⟨listed, folded, listing⟩ :=
    @listEntry_ok machine field [] _ _ listing_nil isPosition
  have sizes : (machine.visited address (heap.at address).entries).length = items.length := by
    rw [visited.length_eq, ← List.length_map, positions.length_eq, List.length_map,
      List.length_zipIdx]
  have last : listed.last = items.length := by
    apply Nat.le_antisymm
    · rcases listing.last with zero | ⟨entry, member, is⟩
      · omega
      · obtain ⟨i, bound, found⟩ := place entry member
        have equal := Option.some.inj (is.symm.trans found)
        omega
    · by_contra short
      have bound : items.length - 1 < items.length := by omega
      have held : (some (items.length - 1 + 1), items[items.length - 1].1) ∈
          (heap.at address).entries.map fun entry => (entry.1.position, entry.2) := by
        refine positions.mem_iff.mpr
          (List.mem_map.mpr ⟨(items[items.length - 1], items.length - 1), ?_, rfl⟩)
        exact List.mk_mem_zipIdx_iff_getElem?.mpr (List.getElem?_eq_getElem bound)
      obtain ⟨entry, member, same⟩ := List.mem_map.mp held
      obtain ⟨position, is, within⟩ := listing.position entry (visited.mem_iff.mpr member)
      have equal := Option.some.inj (is.symm.trans (Prod.ext_iff.mp same).1)
      omega
  rw [listLen, folded, Fallible.ok_bind, listing.count, List.nil_append, sizes, last]
  exact if_neg fun differ => differ rfl

end Lists

section Loops

def Reader.charge (reader : Reader) (bytes : Nat) : Reader :=
  { reader with used := reader.used + bytes }

theorem Reader.charge_charge (reader : Reader) (bytes more : Nat) :
    (reader.charge bytes).charge more = reader.charge (bytes + more) := by
  rw [charge, charge, charge, Nat.add_assoc]

/-- The value is read as the JSON wherever there is depth and cap left for it. -/
def Complete (machine : Machine) (heap : Heap) (value : Value) (json : Json) : Prop :=
  ∀ fuel reader field, maxDepth < fuel + reader.depth → reader.depth + json.nesting ≤ maxDepth →
    reader.used + json.textBytes ≤ reader.cap →
      Reader.json machine heap fuel reader value field =
        .ok (json, reader.charge json.textBytes)

theorem readItems_ok {table : Table} {places : List Nat} {items : List Json}
    (each : List.Forall₂ (fun place item =>
      Complete machine heap (table.rawGet (.integer (Int64.ofNat place))) item) places items)
    {fuel : Nat} {reader : Reader} {field : String} {start : List Json}
    (enough : maxDepth < fuel + reader.depth)
    (nested : reader.depth + nestingItems items ≤ maxDepth)
    (within : reader.used + bytesItems ByteArray.size (fun _ => 0) items ≤ reader.cap) :
    readItems (Reader.json machine heap fuel) table field places start reader =
      .ok (start ++ items, reader.charge (bytesItems ByteArray.size (fun _ => 0) items)) := by
  induction each generalizing start reader with
  | nil =>
      rw [readItems, List.append_nil]
      rfl
  | @cons place item places items complete each ih =>
      rw [nestingItems] at nested
      rw [bytesItems, ← Nat.add_assoc] at within
      have first : item.textBytes = item.bytes ByteArray.size fun _ => 0 := rfl
      rw [readItems, complete fuel reader _ enough (by omega) (by omega), Fallible.ok_bind, ih]
      · rw [bytesItems, List.append_cons start item items, Reader.charge_charge]
        rfl
      · exact enough
      · exact (Nat.add_le_add_left (Nat.le_max_right _ _) _).trans nested
      · exact within

theorem readEntries_ok {fields : List (String × Value × Json)}
    (each : ∀ field ∈ fields, Complete machine heap field.2.1 field.2.2)
    {fuel : Nat} {reader : Reader} {field : String} {map : List (String × Json)}
    (distinct : (fields.map Prod.fst).Nodup)
    (fresh : ∀ field ∈ fields, ∀ held ∈ map, held.1 ≠ field.1)
    (ascending : Pairs.Ascending map)
    (enough : maxDepth < fuel + reader.depth)
    (nested : reader.depth +
      nestingFields (fields.map fun field => (field.1, field.2.2)) ≤ maxDepth)
    (within : reader.used + bytesFields ByteArray.size (fun _ => 0)
      (fields.map fun field => (field.1, field.2.2)) ≤ reader.cap) :
    ∃ all, readEntries (Reader.json machine heap fuel) field
        (fields.map fun field => (.string field.1.toByteArray, field.2.1)) map reader =
      .ok (all, reader.charge (bytesFields ByteArray.size (fun _ => 0)
        (fields.map fun field => (field.1, field.2.2)))) ∧
      all.Perm (map ++ fields.map fun field => (field.1, field.2.2)) ∧ Pairs.Ascending all := by
  induction fields generalizing map reader with
  | nil => exact ⟨map, rfl, by simp, ascending⟩
  | cons first fields ih =>
      rw [List.map_cons, List.nodup_cons] at distinct
      rw [List.map_cons, nestingFields] at nested
      rw [List.map_cons, bytesFields, Nat.zero_add, ← Nat.add_assoc] at within
      have absent := fresh first List.mem_cons_self
      have put := Pairs.put_perm first.2.2 absent
      have read := each first List.mem_cons_self fuel reader (field ++ "." ++ first.1) enough
        ((Nat.add_le_add_left (Nat.le_max_left _ _) _).trans nested)
        ((Nat.le_add_right _ _).trans within)
      obtain ⟨all, rest, perm, sorted⟩ := @ih
        (fun other member => each other (List.mem_cons_of_mem _ member))
        (reader.charge first.2.2.textBytes) _ distinct.2 (by
          intro other member held inPut same
          rcases List.mem_cons.mp (put.mem_iff.mp inPut) with rfl | inMap
          · exact distinct.1 (same ▸ List.mem_map_of_mem member)
          · exact fresh other (List.mem_cons_of_mem _ member) held inMap same)
        (Pairs.put_ascending first.2.2 absent ascending) enough
        ((Nat.add_le_add_left (Nat.le_max_right _ _) _).trans nested) within
      refine ⟨all, ?_, ?_, sorted⟩
      · rw [Reader.charge_charge] at rest
        rw [List.map_cons, List.map_cons, readEntries, bytesFields, Nat.zero_add]
        simp only [Text.fromUTF8_toByteArray, read, Fallible.ok_bind]
        exact rest
      · exact perm.trans ((put.append_right _).trans List.perm_middle.symm)

end Loops

section Complete

theorem listed_values {address : Nat} {items : List (Value × Json)}
    {relation : Value → Json → Prop}
    (positions : ((heap.at address).entries.map fun entry => (entry.1.position, entry.2)).Perm
      (items.zipIdx.map fun item => (some (item.2 + 1), item.1.1)))
    (each : ∀ item ∈ items, relation item.1 item.2) :
    List.Forall₂ (fun place item =>
      relation ((heap.at address).rawGet (.integer (Int64.ofNat place))) item)
      (List.range' 1 items.length) (items.map Prod.snd) := by
  refine List.forall₂_iff_get.mpr ⟨by simp, fun i bound _ => ?_⟩
  have size : i < items.length := by rwa [List.length_range'] at bound
  have held : (some (i + 1), items[i].1) ∈
      (heap.at address).entries.map fun entry => (entry.1.position, entry.2) := by
    refine positions.mem_iff.mpr (List.mem_map.mpr ⟨(items[i], i), ?_, rfl⟩)
    exact List.mk_mem_zipIdx_iff_getElem?.mpr (List.getElem?_eq_getElem size)
  obtain ⟨entry, member, same⟩ := List.mem_map.mp held
  have key := (position_eq_some (Prod.ext_iff.mp same).1).1
  have value : entry.2 = items[i].1 := (Prod.ext_iff.mp same).2
  have found := (heap.at address).rawGet_eq member
  have is := each items[i] (List.getElem_mem size)
  rw [key, value] at found
  have place : (List.range' 1 items.length)[i] = i + 1 := by
    rw [List.getElem_range', Nat.one_mul, Nat.add_comm]
  simp only [List.get_eq_getElem, List.getElem_map, place, found]
  exact is

theorem ReadsAs.complete {value : Value} {json : Json} (reads : ReadsAs machine heap value json) :
    Complete machine heap value json := by
  induction reads with
  | nil | null | boolean | integer =>
      intro fuel reader field enough nested within
      obtain _ | fuel := fuel
      · omega
      · rfl
  | number f finite =>
      intro fuel reader field enough nested within
      obtain _ | fuel := fuel
      · omega
      · simp only [Reader.json, Number.ofF64, dif_pos finite]
        rfl
  | string text =>
      intro fuel reader field enough nested within
      obtain _ | fuel := fuel
      · omega
      · have fits : ¬ reader.cap < reader.used + text.toByteArray.size := Nat.not_lt.mpr within
        simp only [Reader.json, Reader.take, if_neg fits, Fallible.ok_bind,
          Text.fromUTF8_toByteArray]
        rfl
  | list address items shape positions each ih =>
      intro fuel reader field enough nested within
      rw [Json.nesting] at nested
      obtain _ | fuel := fuel
      · omega
      have shallow : ¬ maxDepth < reader.depth + 1 := by omega
      have read := @readItems_ok machine heap _ _ _ (listed_values positions ih) fuel
        { reader with depth := reader.depth + 1 } field [] (by simp only; omega)
        (by simp only; omega) within
      rw [shapeAt] at shape
      simp only [Reader.json, shape, Reader.items, Reader.enter, if_neg shallow, Fallible.ok_bind,
        listLen_ok field positions, read]
      rfl
  | object address fields map shape keys held ascending each ih =>
      intro fuel reader field enough nested within
      rw [Json.nesting] at nested
      obtain _ | fuel := fuel
      · omega
      have shallow : ¬ maxDepth < reader.depth + 1 := by omega
      have visited := machine.visited_perm address (heap.at address).entries
      -- The order of the visits is an order of the fields.
      obtain ⟨order, visits, same⟩ := order_of_perm (visited.trans keys)
      have pairs := same.map fun field : String × Value × Json => (field.1, field.2.2)
      have distinct : (order.map Prod.fst).Nodup := by
        have names := (heap.at address).distinct
        rw [((keys.map Prod.fst).nodup_iff), List.map_map] at names
        refine (same.map Prod.fst).nodup_iff.mpr ?_
        exact List.Nodup.of_map (fun name : String => Value.string name.toByteArray)
          (by rwa [List.map_map])
      have bytes : bytesFields ByteArray.size (fun _ => 0)
          (order.map fun field => (field.1, field.2.2)) =
            bytesFields ByteArray.size (fun _ => 0) map := by
        rw [bytesFields_eq, bytesFields_eq, ((pairs.trans held.symm).map _).sum_nat]
      have inner : reader.depth + 1 +
          nestingFields (order.map fun field => (field.1, field.2.2)) ≤ maxDepth := by
        have bound := nestingFields_perm (pairs.trans held.symm)
        omega
      obtain ⟨all, read, perm, sorted⟩ := @readEntries_ok machine heap _
        (fun field member => ih field (same.mem_iff.mp member)) fuel
        { reader with depth := reader.depth + 1 } field [] distinct (by simp)
        List.Pairwise.nil (by simp only; omega) inner (by rw [bytes]; exact within)
      have equal : all = map := Pairs.ascending_unique
        (perm.trans (pairs.trans held.symm)) sorted ascending
      rw [shapeAt] at shape
      simp only [Reader.json, shape, Reader.entries, Reader.enter, if_neg shallow,
        Fallible.ok_bind, visits, read, bytes, equal]
      rfl

theorem fromLua_ok {fuel : Nat} (enough : maxDepth < fuel) {value : Value} {json : Json}
    {outputBytes : Nat} (reads : ReadsAs machine heap value json)
    (nested : json.nesting ≤ maxDepth) (within : json.textBytes ≤ outputBytes) :
    fromLua machine heap fuel value outputBytes = .ok ⟨json⟩ := by
  rw [fromLua, reads.complete fuel (.new outputBytes) _ enough (by simpa [Reader.new] using nested)
    (by simpa [Reader.new] using within), Fallible.ok_bind]
  rfl

/-- Exactly what `from_lua` accepts, and as what. -/
theorem fromLua_eq_ok_iff {fuel : Nat} (enough : maxDepth < fuel) {value : Value} {record : Record}
    {outputBytes : Nat} :
    fromLua machine heap fuel value outputBytes = .ok record ↔
      ReadsAs machine heap value record.value ∧ record.value.textBytes ≤ outputBytes ∧
        record.value.nesting ≤ maxDepth := by
  constructor
  · exact fun accepted => (fromLua_settles enough value outputBytes).ok accepted
  · rintro ⟨reads, within, nested⟩
    exact fromLua_ok enough reads nested within

end Complete

section Claims

/-- Reading ends on every value, whatever its tables hold of each other, and what it accepts holds
every entry of every table it read. -/
theorem from_lua_keeps (machine : Machine) (heap : Heap) (value : Value) (outputBytes : Nat) :
    ∃ result, result ≠ .error .outOfFuel ∧
      (∀ fuel, maxDepth < fuel → fromLua machine heap fuel value outputBytes = result) ∧
      ∀ record, result = .ok record →
        ReadsAs machine heap value record.value ∧ record.value.nesting ≤ 128 := by
  have settles := @fromLua_settles machine heap _ (Nat.lt_succ_self maxDepth) value outputBytes
  refine ⟨_, fun cut => settles.error cut rfl, fun fuel enough => fromLua_fuel enough _ _, ?_⟩
  intro record accepted
  have spec := settles.ok accepted
  exact ⟨spec.1, spec.2.2⟩

/-- The cap counts string values only: it holds of keys and values together where the keys fit
in what the values leave, and under every cap where no key has a byte. -/
theorem output_cap {machine : Machine} {heap : Heap} {fuel : Nat} (enough : maxDepth < fuel)
    {value : Value} {outputBytes : Nat} {record : Record}
    (accepted : fromLua machine heap fuel value outputBytes = .ok record) :
    (record.value.allBytes ≤ outputBytes ↔
      value.keyBytes heap ≤ outputBytes - value.textBytes heap) ∧
    ((∀ cap other, fromLua machine heap fuel value cap = .ok other → other.value.allBytes ≤ cap) ↔
      value.keyBytes heap = 0) := by
  obtain ⟨reads, within, nested⟩ := (fromLua_eq_ok_iff enough).mp accepted
  have texts : value.textBytes heap = record.value.textBytes := reads.bytes nested
  have keys : value.keyBytes heap = record.value.keyBytes := reads.bytes nested
  rw [texts, keys]
  refine ⟨by rw [Json.allBytes]; omega, fun every => ?_, fun none_ cap other accepts => ?_⟩
  · -- The least cap it is accepted under leaves nothing for keys.
    have least := every record.value.textBytes record
      ((fromLua_eq_ok_iff enough).mpr ⟨reads, Nat.le_refl _, nested⟩)
    rw [Json.allBytes] at least
    omega
  · obtain ⟨otherReads, otherWithin, otherNested⟩ := (fromLua_eq_ok_iff enough).mp accepts
    have otherKeys : value.keyBytes heap = other.value.keyBytes := otherReads.bytes otherNested
    rw [Json.allBytes]
    omega

def keyedEntries : List Entry :=
  [(.string "a".toByteArray, .boolean true)]

theorem keyed_distinct : (keyedEntries.map Prod.fst).Nodup :=
  List.nodup_singleton _

theorem keyed_present : ∀ entry ∈ keyedEntries, entry.2 ≠ .nil := by
  intro entry member
  obtain rfl := List.mem_singleton.mp member
  exact Value.noConfusion

def keyedHeap : Heap :=
  ⟨[⟨keyedEntries, some (.record .object), keyed_distinct, keyed_present⟩]⟩

theorem keyed_accepted :
    fromLua Machine.plain keyedHeap 129 (.table 0) 0 = .ok ⟨.object [("a", .bool true)]⟩ := by
  refine fromLua_ok (by decide) ?_ (by decide) (by decide)
  refine .object 0 [("a", .boolean true, .bool true)] _ rfl (.refl _) (.refl _)
    (List.pairwise_singleton _ _) ?_
  intro field member
  obtain rfl := List.mem_singleton.mp member
  exact .boolean true

theorem output_cap_keyed :
    ((Json.object [("a", .bool true)]).allBytes ≤ 0 ↔
      (Value.table 0).keyBytes keyedHeap ≤ 0 - (Value.table 0).textBytes keyedHeap) ∧
    ((∀ cap other, fromLua Machine.plain keyedHeap 129 (.table 0) cap = .ok other →
      other.value.allBytes ≤ cap) ↔ (Value.table 0).keyBytes keyedHeap = 0) :=
  output_cap (by decide) keyed_accepted

theorem output_cap_exceeded :
    ¬ ∀ (machine : Machine) (heap : Heap) (fuel : Nat) (value : Value) (outputBytes : Nat)
      (record : Record), maxDepth < fuel →
        fromLua machine heap fuel value outputBytes = .ok record →
          record.value.allBytes ≤ outputBytes := by
  intro within
  have bound := within Machine.plain keyedHeap 129 (.table 0) 0 _ (by decide) keyed_accepted
  exact absurd bound (by decide)

end Claims

end FusionPipeline.Lua
