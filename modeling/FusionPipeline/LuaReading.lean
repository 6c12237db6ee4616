import FusionPipeline.LuaConvert
import FusionPipeline.Library.Fallible

/-! What `from_lua` reads: every entry of every table, within the depth and the cap. -/

namespace FusionPipeline

section Measures

mutual
def Json.nesting : Json → Nat
  | .array items => 1 + nestingItems items
  | .object map => 1 + nestingFields map
  | _ => 0

def nestingItems : List Json → Nat
  | [] => 0
  | item :: rest => max item.nesting (nestingItems rest)

def nestingFields : List (String × Json) → Nat
  | [] => 0
  | (_, value) :: rest => max value.nesting (nestingFields rest)
end

mutual
/-- The bytes of the strings in a value, as much as counted of a text and of a key. -/
def Json.bytes (ofText ofKey : ByteArray → Nat) : Json → Nat
  | .string text => ofText text.toByteArray
  | .array items => bytesItems ofText ofKey items
  | .object map => bytesFields ofText ofKey map
  | _ => 0

def bytesItems (ofText ofKey : ByteArray → Nat) : List Json → Nat
  | [] => 0
  | item :: rest => item.bytes ofText ofKey + bytesItems ofText ofKey rest

def bytesFields (ofText ofKey : ByteArray → Nat) : List (String × Json) → Nat
  | [] => 0
  | (key, value) :: rest =>
      ofKey key.toByteArray + value.bytes ofText ofKey + bytesFields ofText ofKey rest
end

def Json.textBytes : Json → Nat :=
  Json.bytes ByteArray.size fun _ => 0

def Json.keyBytes : Json → Nat :=
  Json.bytes (fun _ => 0) ByteArray.size

def Json.allBytes (json : Json) : Nat :=
  json.textBytes + json.keyBytes

variable {ofText ofKey : ByteArray → Nat}

theorem nestingItems_le {items : List Json} {bound : Nat} :
    nestingItems items ≤ bound ↔ ∀ item ∈ items, item.nesting ≤ bound := by
  induction items with
  | nil => simp [nestingItems]
  | cons item rest ih => simp [nestingItems, ih]

theorem nestingFields_le {map : List (String × Json)} {bound : Nat} :
    nestingFields map ≤ bound ↔ ∀ field ∈ map, field.2.nesting ≤ bound := by
  induction map with
  | nil => simp [nestingFields]
  | cons field rest ih => simp [nestingFields, ih]

theorem nestingFields_perm {map other : List (String × Json)} (perm : map.Perm other) :
    nestingFields map = nestingFields other := by
  apply Nat.le_antisymm
  · exact nestingFields_le.mpr fun field member =>
      nestingFields_le.mp (Nat.le_refl _) field (perm.mem_iff.mp member)
  · exact nestingFields_le.mpr fun field member =>
      nestingFields_le.mp (Nat.le_refl _) field (perm.mem_iff.mpr member)

theorem bytesItems_eq (items : List Json) :
    bytesItems ofText ofKey items = (items.map (Json.bytes ofText ofKey)).sum := by
  induction items with
  | nil => rfl
  | cons item rest ih => rw [bytesItems, ih, List.map_cons, List.sum_cons]

theorem bytesFields_eq (map : List (String × Json)) :
    bytesFields ofText ofKey map =
      (map.map fun field => ofKey field.1.toByteArray + field.2.bytes ofText ofKey).sum := by
  induction map with
  | nil => rfl
  | cons field rest ih => rw [bytesFields, ih, List.map_cons, List.sum_cons]

end Measures

namespace Lua

section Order

theorem order_of_perm {Item Image : Type} {image : Item → Image} {images : List Image}
    {items : List Item} (perm : images.Perm (items.map image)) :
    ∃ order : List Item, images = order.map image ∧ order.Perm items :=
  (congrFun₂ (List.eq_map_comp_perm image) images items).mpr perm

end Order

section Values

def Value.bytes (heap : Heap) (ofText ofKey : ByteArray → Nat) : Nat → Value → Nat
  | _, .string bytes => ofText bytes
  | depth + 1, .table address =>
      ((heap.at address).entries.map fun entry =>
        keyPart entry.1 + Value.bytes heap ofText ofKey depth entry.2).sum
  | _, _ => 0
where
  keyPart : Value → Nat
    | .string bytes => ofKey bytes
    | _ => 0

def Value.textBytes (heap : Heap) : Value → Nat :=
  Value.bytes heap ByteArray.size (fun _ => 0) maxDepth

def Value.keyBytes (heap : Heap) : Value → Nat :=
  Value.bytes heap (fun _ => 0) ByteArray.size maxDepth

/-- Which shape a table is read as: the one it carries, else the one it looks like. -/
def shapeAt (machine : Machine) (heap : Heap) (address : Nat) : Shape :=
  (RecordMark.shape (heap.at address)).getD (Shape.ofTable machine heap address)

/-- A Lua value and the JSON it is read as: one entry for every entry of each of its tables, at
the same positions or under the same keys. -/
inductive ReadsAs (machine : Machine) (heap : Heap) : Value → Json → Prop where
  | nil : ReadsAs machine heap .nil .null
  | null : ReadsAs machine heap .null .null
  | boolean (b : Bool) : ReadsAs machine heap (.boolean b) (.bool b)
  | integer (i : Int64) : ReadsAs machine heap (.integer i) (.number (.ofI64 i))
  | number (f : F64) (finite : f.isFinite = true) :
      ReadsAs machine heap (.number f) (.number (.float f finite))
  | string (text : String) : ReadsAs machine heap (.string text.toByteArray) (.string text)
  | list (address : Nat) (items : List (Value × Json))
      (shape : shapeAt machine heap address = .list)
      (positions : ((heap.at address).entries.map fun entry => (entry.1.position, entry.2)).Perm
        (items.zipIdx.map fun item => (some (item.2 + 1), item.1.1)))
      (each : ∀ item ∈ items, ReadsAs machine heap item.1 item.2) :
      ReadsAs machine heap (.table address) (.array (items.map Prod.snd))
  | object (address : Nat) (fields : List (String × Value × Json)) (map : List (String × Json))
      (shape : shapeAt machine heap address = .object)
      (keys : (heap.at address).entries.Perm
        (fields.map fun field => (.string field.1.toByteArray, field.2.1)))
      (held : map.Perm (fields.map fun field => (field.1, field.2.2)))
      (ascending : Pairs.Ascending map)
      (each : ∀ field ∈ fields, ReadsAs machine heap field.2.1 field.2.2) :
      ReadsAs machine heap (.table address) (.object map)

variable {machine : Machine} {heap : Heap} {ofText ofKey : ByteArray → Nat}

theorem keyPart_position {key : Value} {position : Nat} (found : key.position = some position) :
    Value.bytes.keyPart ofKey key = 0 := by
  cases key with
  | integer index => rfl
  | _ => cases found

theorem ReadsAs.bytes {value : Value} {json : Json} (reads : ReadsAs machine heap value json)
    {depth : Nat} (nested : json.nesting ≤ depth) :
    value.bytes heap ofText ofKey depth = json.bytes ofText ofKey := by
  induction reads generalizing depth with
  | nil | null | boolean | integer | number => cases depth <;> rfl
  | string text => cases depth <;> rfl
  | list address items shape positions each ih =>
      obtain _ | depth := depth
      · rw [Json.nesting] at nested
        omega
      have inner : ∀ item ∈ items, item.2.nesting ≤ depth := by
        rw [Json.nesting, Nat.add_comm, Nat.add_le_add_iff_right, nestingItems_le] at nested
        exact fun item member => nested item.2 (List.mem_map_of_mem member)
      have each : items.map (fun item => item.1.bytes heap ofText ofKey depth) =
          items.map fun item => item.2.bytes ofText ofKey :=
        List.map_congr_left fun item member => ih item member (inner item member)
      have noKey : ∀ entry ∈ (heap.at address).entries,
          Value.bytes.keyPart ofKey entry.1 + entry.2.bytes heap ofText ofKey depth =
            entry.2.bytes heap ofText ofKey depth := by
        intro entry member
        obtain ⟨item, _, same⟩ := List.mem_map.mp (positions.mem_iff.mp (List.mem_map_of_mem member))
        rw [keyPart_position (Prod.ext_iff.mp same).1.symm, Nat.zero_add]
      have values := (positions.map fun entry => entry.2.bytes heap ofText ofKey depth).sum_nat
      rw [List.map_map, List.map_map] at values
      rw [Value.bytes, List.map_congr_left noKey, Json.bytes, bytesItems_eq, List.map_map]
      calc ((heap.at address).entries.map fun entry => entry.2.bytes heap ofText ofKey depth).sum
          = ((items.zipIdx.map Prod.fst).map
              fun item => item.1.bytes heap ofText ofKey depth).sum := by
            rw [List.map_map]
            exact values
        _ = _ := by
            rw [List.zipIdx_map_fst, each]
            rfl
  | object address fields map shape keys held ascending each ih =>
      obtain _ | depth := depth
      · rw [Json.nesting] at nested
        omega
      have inner : ∀ field ∈ fields, field.2.2.nesting ≤ depth := by
        rw [Json.nesting, Nat.add_comm, Nat.add_le_add_iff_right, nestingFields_le] at nested
        exact fun field member =>
          nested (field.1, field.2.2) (held.mem_iff.mpr (List.mem_map_of_mem member))
      rw [Value.bytes, (keys.map _).sum_nat, Json.bytes, bytesFields_eq, (held.map _).sum_nat,
        List.map_map, List.map_map]
      refine congrArg List.sum (List.map_congr_left fun field member => ?_)
      exact congrArg (ofKey field.1.toByteArray + ·) (ih field member (inner field member))

end Values

section Positions

/-- A computation is not cut short, and what it gives has the property. -/
abbrev Settles {Result : Type} (post : Result → Prop) (result : Except Stop Result) : Prop :=
  Fallible.Ensures (· = Stop.outOfFuel) post result

theorem settles_refuse {Result : Type} {post : Result → Prop} (message : String) :
    Settles post (refuse message) := by
  intro cut
  cases cut

theorem settles_ok {Result : Type} {post : Result → Prop} {value : Result} (holds : post value) :
    Settles post (.ok value) :=
  holds

theorem position_eq_some {key : Value} {position : Nat} (found : key.position = some position) :
    key = .integer (Int64.ofNat position) ∧ 0 < position := by
  cases key with
  | integer index =>
      rw [Value.position] at found
      split at found
      next positive =>
        obtain rfl := Option.some.inj found
        have above : 0 < index.toInt := Int64.lt_iff_toInt_lt.mp positive
        refine ⟨?_, by omega⟩
        rw [← Int64.ofInt_eq_ofNat, Int.toNat_of_nonneg (by omega), Int64.ofInt_toInt]
      · cases found
  | _ => cases found

structure Listing (entries : List Entry) (listed : Listed) : Prop where
  count : listed.count = entries.length
  position : ∀ entry ∈ entries, ∃ position, entry.1.position = some position ∧ position ≤ listed.last
  last : listed.last = 0 ∨ ∃ entry ∈ entries, entry.1.position = some listed.last

theorem listing_nil : Listing [] ⟨0, 0⟩ :=
  ⟨rfl, fun _ member => absurd member List.not_mem_nil, .inl rfl⟩

theorem Listing.snoc {entries : List Entry} {listed : Listed} (listing : Listing entries listed)
    {entry : Entry} {position : Nat} (found : entry.1.position = some position) :
    Listing (entries ++ [entry]) ⟨listed.count + 1, max listed.last position⟩ := by
  refine ⟨?_, ?_, ?_⟩
  · rw [List.length_append, List.length_singleton, listing.count]
  · intro other member
    rcases List.mem_append.mp member with earlier | last
    · obtain ⟨place, is, bound⟩ := listing.position other earlier
      exact ⟨place, is, bound.trans (Nat.le_max_left _ _)⟩
    · obtain rfl := List.mem_singleton.mp last
      exact ⟨position, found, Nat.le_max_right _ _⟩
  · rcases Nat.le_total listed.last position with below | above
    · rw [Nat.max_eq_right below]
      exact .inr ⟨entry, List.mem_append_right _ List.mem_cons_self, found⟩
    · rw [Nat.max_eq_left above]
      rcases listing.last with zero | ⟨other, member, is⟩
      · exact .inl zero
      · exact .inr ⟨other, List.mem_append_left _ member, is⟩

variable {machine : Machine} {heap : Heap}

theorem listEntry_fold {field : String} {before entries : List Entry} {listed : Listed}
    (listing : Listing before listed) :
    Settles (Listing (before ++ entries)) (entries.foldlM (listEntry machine field) listed) := by
  induction entries generalizing before listed with
  | nil =>
      rw [List.append_nil]
      exact settles_ok listing
  | cons entry entries ih =>
      rw [List.foldlM_cons, List.append_cons]
      have taken : Settles (Listing (before ++ [entry])) (listEntry machine field listed entry) := by
        rw [listEntry]
        cases found : entry.1.position with
        | none => exact settles_refuse _
        | some position => exact settles_ok (listing.snoc found)
      exact taken.bind fun next => ih

def placed (table : Table) (length : Nat) : List (Option Nat × Value) :=
  (List.range' 1 length).map fun position =>
    (some position, table.rawGet (.integer (Int64.ofNat position)))

theorem listing_perm {table : Table} {length : Nat}
    (listing : Listing table.entries ⟨length, length⟩) :
    (table.entries.map fun entry => (entry.1.position, entry.2)).Perm (placed table length) := by
  have key : ∀ entry ∈ table.entries, ∃ position, entry.1.position = some position ∧
      entry.1 = .integer (Int64.ofNat position) ∧ position ∈ List.range' 1 length := by
    intro entry member
    obtain ⟨position, found, bound⟩ := listing.position entry member
    have is := position_eq_some found
    exact ⟨position, found, is.1, List.mem_range'_1.mpr ⟨is.2, Nat.lt_one_add_iff.mpr bound⟩⟩
  have places : (table.entries.map fun entry => entry.1.position.getD 0).Nodup := by
    have same : (table.entries.map fun entry => entry.1.position.getD 0).map
        (fun position => Value.integer (Int64.ofNat position)) = table.entries.map Prod.fst := by
      rw [List.map_map]
      refine List.map_congr_left fun entry member => ?_
      obtain ⟨position, found, is, _⟩ := key entry member
      rw [Function.comp, found, is, Option.getD_some]
    exact List.Nodup.of_map _ (same ▸ table.distinct)
  have within : (table.entries.map fun entry => entry.1.position.getD 0) ⊆ List.range' 1 length := by
    intro place member
    obtain ⟨entry, held, rfl⟩ := List.mem_map.mp member
    obtain ⟨position, found, _, inside⟩ := key entry held
    rwa [found, Option.getD_some]
  have all := (List.subperm_of_subset places within).perm_of_length_le (by
    rw [List.length_map, List.length_range', ← listing.count])
  refine List.Perm.trans (List.Perm.of_eq ?_) (all.map _)
  rw [List.map_map]
  refine List.map_congr_left fun entry member => ?_
  obtain ⟨position, found, is, _⟩ := key entry member
  rw [Function.comp, found, Option.getD_some, ← is, table.rawGet_eq member]

theorem listLen_settles {address : Nat} {field : String} :
    Settles (fun length => ((heap.at address).entries.map fun entry =>
      (entry.1.position, entry.2)).Perm (placed (heap.at address) length))
      (listLen machine heap address field) := by
  have visited := machine.visited_perm address (heap.at address).entries
  refine (listEntry_fold listing_nil).bind ?_
  intro listed listing
  rw [List.nil_append] at listing
  split
  · exact settles_refuse _
  next ends =>
    have all : Listing (heap.at address).entries ⟨listed.last, listed.last⟩ := by
      refine ⟨?_, fun entry member => listing.position entry (visited.mem_iff.mpr member), ?_⟩
      · rw [← visited.length_eq, ← listing.count]
        exact (not_not.mp ends).symm
      · rcases listing.last with zero | ⟨entry, member, is⟩
        · exact .inl zero
        · exact .inr ⟨entry, visited.mem_iff.mp member, is⟩
    exact settles_ok (listing_perm all)

end Positions

section Loops

structure Advance (reader after : Reader) (bytes nesting : Nat) : Prop where
  depth : after.depth = reader.depth
  cap : after.cap = reader.cap
  used : after.used = reader.used + bytes
  charged : reader.used ≤ reader.cap → after.used ≤ after.cap
  nested : reader.depth ≤ maxDepth → reader.depth + nesting ≤ maxDepth

theorem Advance.refl (reader : Reader) : Advance reader reader 0 0 :=
  ⟨rfl, rfl, rfl, id, id⟩

theorem Advance.trans {reader middle after : Reader} {bytes more nesting deeper : Nat}
    (first : Advance reader middle bytes nesting) (second : Advance middle after more deeper) :
    Advance reader after (bytes + more) (max nesting deeper) := by
  refine ⟨second.depth.trans first.depth, second.cap.trans first.cap, ?_, ?_, ?_⟩
  · rw [second.used, first.used, Nat.add_assoc]
  · exact fun within => second.charged (first.charged within)
  · intro within
    have shallow := first.nested within
    have deep := second.nested (by rw [first.depth]; exact within)
    rw [first.depth] at deep
    omega

theorem Advance.around {reader after : Reader} {bytes nesting : Nat} (within : reader.depth < maxDepth)
    (inner : Advance { reader with depth := reader.depth + 1 } after bytes nesting) :
    Advance reader after.leave bytes (1 + nesting) := by
  refine ⟨?_, inner.cap, inner.used, inner.charged, fun _ => ?_⟩
  · exact (congrArg (· - 1) inner.depth).trans (Nat.add_sub_cancel _ _)
  · have deep := inner.nested within
    simp only at deep
    omega

def ReadsAt (machine : Machine) (heap : Heap) (depth : Nat) (asJson : Read) : Prop :=
  ∀ reader value field, reader.depth = depth →
    Settles (fun read => ReadsAs machine heap value read.1 ∧
      Advance reader read.2 read.1.textBytes read.1.nesting) (asJson reader value field)

variable {machine : Machine} {heap : Heap} {depth : Nat} {asJson : Read} {field : String}

theorem readItems_settles (sound : ReadsAt machine heap depth asJson) {table : Table} {places : List Nat}
    {items : List Json} {reader : Reader} (at_ : reader.depth = depth) :
    Settles (fun read => ∃ more, read.1 = items ++ more ∧
      List.Forall₂ (fun place item =>
        ReadsAs machine heap (table.rawGet (.integer (Int64.ofNat place))) item) places more ∧
      Advance reader read.2 (bytesItems ByteArray.size (fun _ => 0) more) (nestingItems more))
      (readItems asJson table field places items reader) := by
  induction places generalizing items reader with
  | nil => exact settles_ok ⟨[], (List.append_nil _).symm, .nil, .refl reader⟩
  | cons place places ih =>
      rw [readItems]
      refine (sound reader _ _ at_).bind ?_
      rintro ⟨item, middle⟩ ⟨reads, first⟩
      refine (@ih (items ++ [item]) middle (first.depth.trans at_)).mono ?_
      rintro ⟨all, after⟩ ⟨more, rfl, each, second⟩
      exact ⟨item :: more, by simp, .cons reads each, first.trans second⟩

theorem readEntries_settles (sound : ReadsAt machine heap depth asJson) {entries : List Entry}
    {map : List (String × Json)} {reader : Reader} (at_ : reader.depth = depth)
    (distinct : (entries.map Prod.fst).Nodup)
    (fresh : ∀ entry ∈ entries, ∀ held ∈ map, entry.1 ≠ .string held.1.toByteArray)
    (ascending : Pairs.Ascending map) :
    Settles (fun read => ∃ fields : List (String × Value × Json),
      entries = fields.map (fun field => (.string field.1.toByteArray, field.2.1)) ∧
      read.1.Perm (map ++ fields.map fun field => (field.1, field.2.2)) ∧
      Pairs.Ascending read.1 ∧
      (∀ field ∈ fields, ReadsAs machine heap field.2.1 field.2.2) ∧
      Advance reader read.2
        (bytesFields ByteArray.size (fun _ => 0) (fields.map fun field => (field.1, field.2.2)))
        (nestingFields (fields.map fun field => (field.1, field.2.2))))
      (readEntries asJson field entries map reader) := by
  induction entries generalizing map reader with
  | nil => exact settles_ok ⟨[], rfl, by simp, ascending, by simp, .refl reader⟩
  | cons entry entries ih =>
      obtain ⟨key, value⟩ := entry
      rw [List.map_cons, List.nodup_cons] at distinct
      rw [readEntries]
      cases key with
      | string bytes =>
          simp only
          cases decoded : String.fromUTF8? bytes with
          | none => exact settles_refuse _
          | some name =>
              obtain rfl := Text.eq_toByteArray_of_fromUTF8 decoded
              refine (sound reader _ _ at_).bind ?_
              rintro ⟨item, middle⟩ ⟨reads, first⟩
              have absent : ∀ held ∈ map, held.1 ≠ name := by
                rintro held member rfl
                exact fresh _ List.mem_cons_self held member rfl
              have put := Pairs.put_perm item absent
              refine (ih (first.depth.trans at_) distinct.2 ?_
                (Pairs.put_ascending item absent ascending)).mono ?_
              · intro entry member held inPut same
                rcases List.mem_cons.mp (put.mem_iff.mp inPut) with rfl | inMap
                · have inKeys : entry.1 ∈ entries.map Prod.fst := List.mem_map_of_mem member
                  rw [same] at inKeys
                  exact distinct.1 inKeys
                · exact fresh entry (List.mem_cons_of_mem _ member) held inMap same
              · rintro ⟨all, after⟩ ⟨fields, rfl, held, sorted, each, second⟩
                refine ⟨(name, value, item) :: fields, rfl, ?_, sorted, ?_, ?_⟩
                · exact held.trans ((put.append_right _).trans List.perm_middle.symm)
                · exact List.forall_mem_cons.mpr ⟨reads, each⟩
                · rw [List.map_cons, bytesFields, nestingFields, Nat.zero_add]
                  exact first.trans second
      | _ => exact settles_refuse _

end Loops

section Reading

variable {machine : Machine} {heap : Heap}

theorem enter_settles (reader : Reader) (field : String) :
    Settles (fun inside => reader.depth < maxDepth ∧
      inside = { reader with depth := reader.depth + 1 }) (reader.enter field) := by
  simp only [Reader.enter]
  split
  · exact settles_refuse _
  next shallow => exact settles_ok ⟨Nat.not_lt.mp shallow, rfl⟩

theorem take_settles (reader : Reader) (bytes : Nat) (field : String) :
    Settles (fun charged => Advance reader charged bytes 0) (reader.take bytes field) := by
  simp only [Reader.take]
  split
  · exact settles_refuse _
  next within => exact settles_ok ⟨rfl, rfl, rfl, fun _ => Nat.not_lt.mp within, id⟩

theorem reads_list {address length : Nat} {items : List Json}
    (shape : shapeAt machine heap address = .list)
    (all : ((heap.at address).entries.map fun entry => (entry.1.position, entry.2)).Perm
      (placed (heap.at address) length))
    (each : List.Forall₂ (fun place item =>
      ReadsAs machine heap ((heap.at address).rawGet (.integer (Int64.ofNat place))) item)
      (List.range' 1 length) items) :
    ReadsAs machine heap (.table address) (.array items) := by
  have sizes : length = items.length := by
    rw [← each.length_eq, List.length_range']
  let values := (List.range' 1 length).map fun place =>
    (heap.at address).rawGet (.integer (Int64.ofNat place))
  have valued : values.length = items.length := by
    rw [List.length_map, List.length_range', sizes]
  rw [← List.map_snd_zip (Nat.le_of_eq valued.symm)]
  refine .list address (values.zip items) shape (all.trans (List.Perm.of_eq ?_)) ?_
  · refine List.ext_getElem ?_ fun i bound _ => ?_
    · simp [placed, values, sizes]
    · simp [placed, values, Nat.add_comm 1 i]
  · intro item member
    obtain ⟨i, bound, rfl⟩ := List.mem_iff_getElem.mp member
    rw [List.length_zip] at bound
    have found := (List.forall₂_iff_get.mp each).2 i (by
      rw [List.length_range']
      omega) (by omega)
    simpa [values] using found

theorem items_settles {asJson : Read} {reader : Reader}
    (sound : reader.depth < maxDepth → ReadsAt machine heap (reader.depth + 1) asJson)
    (address : Nat) (field : String) (shape : shapeAt machine heap address = .list) :
    Settles (fun read => ReadsAs machine heap (.table address) (.array read.1) ∧
      Advance reader read.2 (Json.array read.1).textBytes (Json.array read.1).nesting)
      (Reader.items machine heap asJson reader address field) := by
  refine (enter_settles reader field).bind ?_
  rintro _ ⟨within, rfl⟩
  refine listLen_settles.bind ?_
  intro length all
  refine (readItems_settles (sound within) rfl).bind ?_
  rintro ⟨items, after⟩ ⟨more, same, each, inner⟩
  obtain rfl : items = more := same
  exact settles_ok ⟨reads_list shape all each, Advance.around within inner⟩

theorem entries_settles {asJson : Read} {reader : Reader}
    (sound : reader.depth < maxDepth → ReadsAt machine heap (reader.depth + 1) asJson)
    (address : Nat) (field : String) (shape : shapeAt machine heap address = .object) :
    Settles (fun read => ReadsAs machine heap (.table address) (.object read.1) ∧
      Advance reader read.2 (Json.object read.1).textBytes (Json.object read.1).nesting)
      (Reader.entries machine heap asJson reader address field) := by
  have visited := machine.visited_perm address (heap.at address).entries
  refine (enter_settles reader field).bind ?_
  rintro _ ⟨within, rfl⟩
  refine (readEntries_settles (sound within) rfl
    ((visited.map Prod.fst).nodup_iff.mpr (heap.at address).distinct) (by simp) List.Pairwise.nil).bind ?_
  rintro ⟨map, after⟩ ⟨fields, keys, held, ascending, each, inner⟩
  have perm : map.Perm (fields.map fun field => (field.1, field.2.2)) := held
  refine settles_ok
    ⟨.object address fields map shape (visited.symm.trans (.of_eq keys)) perm ascending each, ?_⟩
  have bytes : bytesFields ByteArray.size (fun _ => 0)
      (fields.map fun field => (field.1, field.2.2)) = bytesFields ByteArray.size (fun _ => 0) map := by
    rw [bytesFields_eq, bytesFields_eq, (perm.map _).sum_nat]
  rw [bytes, nestingFields_perm perm.symm] at inner
  exact Advance.around within inner

/-- With fuel for the tables it may still enter, a value is read to the end. -/
theorem json_settles {fuel depth : Nat} (inside : depth ≤ maxDepth)
    (enough : maxDepth < fuel + depth) : ReadsAt machine heap depth (Reader.json machine heap fuel) := by
  induction fuel generalizing depth with
  | zero => omega
  | succ fuel ih =>
      rintro reader value field rfl
      have deeper : reader.depth < maxDepth →
          ReadsAt machine heap (reader.depth + 1) (Reader.json machine heap fuel) :=
        fun within => ih within (by omega)
      cases value with
      | nil => exact settles_ok ⟨.nil, .refl reader⟩
      | boolean b => exact settles_ok ⟨.boolean b, .refl reader⟩
      | integer i => exact settles_ok ⟨.integer i, .refl reader⟩
      | lightUserData pointer =>
          rw [Reader.json]
          split
          next zero =>
            subst zero
            exact settles_ok ⟨.null, .refl reader⟩
          · exact settles_refuse _
      | number f =>
          by_cases finite : f.isFinite = true
          · simp only [Reader.json, Number.ofF64, dif_pos finite]
            exact settles_ok ⟨.number f finite, .refl reader⟩
          · simp only [Reader.json, Number.ofF64, dif_neg finite]
            exact settles_refuse _
      | string bytes =>
          rw [Reader.json]
          refine (take_settles reader bytes.size field).bind fun charged advance => ?_
          cases decoded : String.fromUTF8? bytes with
          | none => exact settles_refuse _
          | some text =>
              obtain rfl := Text.eq_toByteArray_of_fromUTF8 decoded
              exact settles_ok ⟨.string text, advance⟩
      | table address =>
          simp only [Reader.json]
          split
          next shape => exact (items_settles deeper address field shape).bind fun read => settles_ok
          next shape =>
            exact (entries_settles deeper address field shape).bind fun read => settles_ok
      | _ => exact settles_refuse _

def AgreeAt (depth : Nat) (asJson other : Read) : Prop :=
  ∀ reader value field, reader.depth = depth → asJson reader value field = other reader value field

theorem readItems_congr {depth : Nat} {asJson other : Read} (sound : ReadsAt machine heap depth asJson)
    (agree : AgreeAt depth asJson other) {table : Table} {field : String} {places : List Nat}
    {items : List Json} {reader : Reader} (at_ : reader.depth = depth) :
    readItems asJson table field places items reader =
      readItems other table field places items reader := by
  induction places generalizing items reader with
  | nil => rfl
  | cons place places ih =>
      rw [readItems, readItems, ← agree reader _ _ at_]
      exact (sound reader _ _ at_).bind_congr fun read spec => ih (spec.2.depth.trans at_)

theorem readEntries_congr {depth : Nat} {asJson other : Read} (sound : ReadsAt machine heap depth asJson)
    (agree : AgreeAt depth asJson other) {field : String} {entries : List Entry}
    {map : List (String × Json)} {reader : Reader} (at_ : reader.depth = depth) :
    readEntries asJson field entries map reader = readEntries other field entries map reader := by
  induction entries generalizing map reader with
  | nil => rfl
  | cons entry entries ih =>
      obtain ⟨key, value⟩ := entry
      rw [readEntries, readEntries]
      cases key with
      | string bytes =>
          simp only
          cases decoded : String.fromUTF8? bytes with
          | none => rfl
          | some name =>
              simp only [← agree reader _ _ at_]
              exact (sound reader _ _ at_).bind_congr fun read spec => ih (spec.2.depth.trans at_)
      | _ => rfl

theorem items_congr {asJson other : Read} {reader : Reader}
    (inner : reader.depth < maxDepth →
      ReadsAt machine heap (reader.depth + 1) asJson ∧ AgreeAt (reader.depth + 1) asJson other)
    (address : Nat) (field : String) :
    Reader.items machine heap asJson reader address field =
      Reader.items machine heap other reader address field := by
  refine (enter_settles reader field).bind_congr ?_
  rintro _ ⟨within, rfl⟩
  refine listLen_settles.bind_congr fun length _ => ?_
  rw [readItems_congr (inner within).1 (inner within).2 rfl]

theorem entries_congr {asJson other : Read} {reader : Reader}
    (inner : reader.depth < maxDepth →
      ReadsAt machine heap (reader.depth + 1) asJson ∧ AgreeAt (reader.depth + 1) asJson other)
    (address : Nat) (field : String) :
    Reader.entries machine heap asJson reader address field =
      Reader.entries machine heap other reader address field := by
  refine (enter_settles reader field).bind_congr ?_
  rintro _ ⟨within, rfl⟩
  rw [readEntries_congr (inner within).1 (inner within).2 rfl]

theorem json_more {fuel depth : Nat} (inside : depth ≤ maxDepth) (enough : maxDepth < fuel + depth) :
    AgreeAt depth (Reader.json machine heap fuel) (Reader.json machine heap (fuel + 1)) := by
  induction fuel generalizing depth with
  | zero => omega
  | succ fuel ih =>
      rintro reader value field rfl
      have inner : reader.depth < maxDepth →
          ReadsAt machine heap (reader.depth + 1) (Reader.json machine heap fuel) ∧
            AgreeAt (reader.depth + 1) (Reader.json machine heap fuel)
              (Reader.json machine heap (fuel + 1)) :=
        fun within => ⟨json_settles within (by omega), ih within (by omega)⟩
      cases value with
      | table address =>
          rw [Reader.json, Reader.json, items_congr inner, entries_congr inner]
      | _ => rfl

theorem fromLua_fuel {fuel : Nat} (enough : maxDepth < fuel) (value : Value) (outputBytes : Nat) :
    fromLua machine heap fuel value outputBytes =
      fromLua machine heap (maxDepth + 1) value outputBytes := by
  induction fuel, enough using Nat.le_induction with
  | base => rfl
  | succ fuel enough ih =>
      rw [← ih, fromLua, fromLua, ← json_more (Nat.zero_le _) enough (.new outputBytes) _ _ rfl]

theorem fromLua_settles {fuel : Nat} (enough : maxDepth < fuel) (value : Value)
    (outputBytes : Nat) :
    Settles (fun record => ReadsAs machine heap value record.value ∧
      record.value.textBytes ≤ outputBytes ∧ record.value.nesting ≤ maxDepth)
      (fromLua machine heap fuel value outputBytes) := by
  refine (json_settles (Nat.zero_le _) enough (.new outputBytes) value _ rfl).bind ?_
  rintro ⟨json, after⟩ ⟨reads, advance⟩
  have charged := advance.charged (Nat.zero_le _)
  rw [advance.cap, advance.used, Reader.new, Nat.zero_add] at charged
  have nested := advance.nested (Nat.zero_le _)
  rw [Reader.new, Nat.zero_add] at nested
  exact settles_ok ⟨reads, charged, nested⟩

end Reading

end Lua

end FusionPipeline
