import FusionPipeline.Library.Walk
import FusionPipeline.PathReads

/-! The laws of reading, writing and removing along a path. -/

namespace FusionPipeline.Path

section Position

theorem digit_digitChar {digit : Char} (isDigit : digit.isDigit = true) :
    ∃ value < 10, digit = value.digitChar ∧ digit.toNat - '0'.toNat = value := by
  rw [Char.isDigit, Bool.and_eq_true, decide_eq_true_eq, decide_eq_true_eq] at isDigit
  have low : 48 ≤ digit.toNat := UInt32.le_iff_toNat_le.mp isDigit.1
  have high : digit.toNat ≤ 57 := UInt32.le_iff_toNat_le.mp isDigit.2
  have small : digit.toNat - '0'.toNat < 10 := by
    change digit.toNat - 48 < 10
    omega
  refine ⟨_, small, ?_, rfl⟩
  apply Char.toNat_inj.mp
  rw [Nat.toNat_digitChar_of_lt_ten small]
  change digit.toNat = 48 + (digit.toNat - 48)
  omega

theorem toDigits_foldl {digits : List Char} (areDigits : ∀ digit ∈ digits, digit.isDigit = true)
    {value : Nat} (positive : 0 < value) :
    Nat.toDigits 10 value ++ digits = Nat.toDigits 10
      (digits.foldl (fun value digit => value * 10 + (digit.toNat - '0'.toNat)) value) := by
  induction digits generalizing value with
  | nil => rw [List.append_nil, List.foldl_nil]
  | cons digit digits ih =>
      rw [List.forall_mem_cons] at areDigits
      obtain ⟨last, small, same, counts⟩ := digit_digitChar areDigits.1
      have longer : 0 < 10 * value + last := by omega
      have grown := ih areDigits.2 longer
      rw [← Nat.toDigits_append_toDigits (by decide) positive small,
        Nat.toDigits_of_lt_base small, List.append_assoc, List.singleton_append] at grown
      rw [List.foldl_cons, counts, same, grown, Nat.mul_comm]

theorem position_text {segment : String} {i : Nat} (named : position segment = some i) :
    segment.toList = Nat.toDigits 10 i := by
  rw [position] at named
  split at named
  next => cases named
  next some_ =>
    split at named
    next => cases named
    next canonical =>
      obtain ⟨read, _⟩ := Option.filter_eq_some_iff.mp named
      rw [digitsValue] at read
      split at read
      next => cases read
      next digits =>
        rw [Bool.or_eq_true, not_or, Bool.not_eq_true, Bool.not_eq_true, Bool.not_eq_false'] at digits
        obtain rfl := Option.some.inj read
        have areDigits := List.all_eq_true.mp digits.2
        cases text : segment.toList with
        | nil => rw [text] at digits; cases digits.1
        | cons first rest =>
            rw [text, List.forall_mem_cons] at areDigits
            obtain ⟨value, small, same, counts⟩ := digit_digitChar areDigits.1
            rw [List.foldl_cons, counts, Nat.zero_mul, Nat.zero_add]
            cases rest with
            | nil => rw [List.foldl_nil, Nat.toDigits_of_lt_base small, same]
            | cons second rest =>
                have positive : 0 < value := by
                  apply Nat.pos_of_ne_zero
                  rintro rfl
                  apply canonical
                  rw [text, same]
                  rfl
                rw [← toDigits_foldl areDigits.2 positive, Nat.toDigits_of_lt_base small, same]
                rfl

theorem position_injective {segment other : String} {i : Nat} (named : position segment = some i)
    (also : position other = some i) : segment = other := by
  rw [← String.toList_inj, position_text named, position_text also]

end Position

section Slots

def Keeps (value : Json) (segment : String) : Prop :=
  ∀ items, value = .array items → ∃ i, position segment = some i ∧ i < items.length

def store (value : Json) (segment : String) (part : Json) : Json :=
  slot value segment fun _ => part

theorem slot_array {items : List Json} {segment : String} {i : Nat}
    (named : position segment = some i) (inside : i < items.length) (change : Json → Json) :
    slot (.array items) segment change = .array (items.modify i change) := by
  have at_ : (some i).filter (· < items.length) = some i := by
    rw [Option.filter_some, if_pos (decide_eq_true inside)]
  simp only [slot, named, at_]

theorem slot_object (map : List (String × Json)) (segment : String) (change : Json → Json) :
    slot (.object map) segment change =
      .object (Pairs.put segment (change ((Pairs.find segment map).getD .null)) map) := by
  rfl

theorem slot_other {value : Json} {segment : String} (notObject : ∀ map, value ≠ .object map)
    (missing : child value segment = none) (change : Json → Json) :
    slot value segment change = .object [(segment, change .null)] := by
  cases value with
  | array items =>
      have out : (position segment).filter (· < items.length) = none := by
        rw [Option.filter_eq_none_iff]
        intro i named inside
        have part : items[i]? = none := by
          rw [child, named, Option.bind_some] at missing
          exact missing
        rw [List.getElem?_eq_none_iff] at part
        rw [decide_eq_true_eq] at inside
        omega
      simp only [slot, out]
      rfl
  | object map => exact absurd rfl (notObject map)
  | null => rfl
  | bool value => rfl
  | number value => rfl
  | string value => rfl

theorem slot_cases (value : Json) (segment : String) :
    (∃ items i, value = .array items ∧ position segment = some i ∧ i < items.length) ∨
    (∃ map, value = .object map) ∨
    ((∀ map, value ≠ .object map) ∧ child value segment = none) := by
  cases value with
  | array items =>
      cases named : position segment with
      | none => exact .inr (.inr ⟨fun _ same => (nomatch same), by rw [child, named, Option.bind_none]⟩)
      | some i =>
          by_cases inside : i < items.length
          · exact .inl ⟨items, i, rfl, rfl, inside⟩
          · refine .inr (.inr ⟨fun _ same => (nomatch same), ?_⟩)
            rw [child, named, Option.bind_some, List.getElem?_eq_none_iff]
            omega
  | object map => exact .inr (.inl ⟨map, rfl⟩)
  | null => exact .inr (.inr ⟨fun _ same => (nomatch same), rfl⟩)
  | bool value => exact .inr (.inr ⟨fun _ same => (nomatch same), rfl⟩)
  | number value => exact .inr (.inr ⟨fun _ same => (nomatch same), rfl⟩)
  | string value => exact .inr (.inr ⟨fun _ same => (nomatch same), rfl⟩)

theorem child_array {items : List Json} {segment : String} {i : Nat}
    (named : position segment = some i) : child (.array items) segment = items[i]? := by
  rw [child, named, Option.bind_some]

theorem store_array {items : List Json} {segment : String} {i : Nat}
    (named : position segment = some i) (inside : i < items.length) (part : Json) :
    store (.array items) segment part = .array (items.set i part) := by
  rw [store, slot_array named inside, List.modify_eq_set]

theorem store_object (map : List (String × Json)) (segment : String) (part : Json) :
    store (.object map) segment part = .object (Pairs.put segment part map) := by
  rfl

/-- A slot changed is a slot stored: what it held, or a `null` made for it. -/
theorem slot_store (value : Json) (segment : String) (change : Json → Json) :
    slot value segment change = store value segment (change ((child value segment).getD .null)) := by
  rcases slot_cases value segment with ⟨items, i, rfl, named, inside⟩ | ⟨map, rfl⟩ | ⟨notObject, missing⟩
  · rw [slot_array named inside, store_array named inside, child_array named,
      List.modify_eq_set]
    rfl
  · rw [slot_object, store, slot_object]
    rfl
  · rw [slot_other notObject missing, store, slot_other notObject missing, missing, Option.getD_none]

theorem child_store (value : Json) (segment : String) (part : Json) :
    child (store value segment part) segment = some part := by
  rcases slot_cases value segment with ⟨items, i, rfl, named, inside⟩ | ⟨map, rfl⟩ | ⟨notObject, missing⟩
  · rw [store_array named inside, child_array named, List.getElem?_set_self inside]
  · exact Pairs.find_put part
  · rw [store, slot_other notObject missing, child, Pairs.find, if_pos rfl]

theorem store_store (value : Json) (segment : String) (part other : Json) :
    store (store value segment part) segment other = store value segment other := by
  rcases slot_cases value segment with ⟨items, i, rfl, named, inside⟩ | ⟨map, rfl⟩ | ⟨notObject, missing⟩
  · rw [store_array named inside, store_array named (by rwa [List.length_set]),
      store_array named inside, List.set_set]
  · exact congrArg Json.object (Pairs.put_put part other)
  · rw [store, store, slot_other notObject missing, store, slot_other notObject missing]
    simp [slot_object, Pairs.put, Pairs.find, Pairs.modify]

theorem store_child {value : Json} {segment : String} {part : Json}
    (found : child value segment = some part) : store value segment part = value := by
  rcases slot_cases value segment with ⟨items, i, rfl, named, inside⟩ | ⟨map, rfl⟩ | ⟨notObject, missing⟩
  · rw [child_array named, List.getElem?_eq_getElem inside] at found
    obtain rfl := Option.some.inj found
    rw [store_array named inside, List.set_getElem_self]
  · exact congrArg Json.object (Pairs.put_same found)
  · rw [missing] at found
    cases found

theorem inside_of_child {items : List Json} {segment : String}
    (held : (child (.array items) segment).isSome) :
    ∃ i, position segment = some i ∧ i < items.length := by
  cases named : position segment with
  | none =>
      rw [child, named] at held
      cases held
  | some i =>
      rw [child_array named] at held
      obtain ⟨part, found⟩ := Option.isSome_iff_exists.mp held
      obtain ⟨inside, _⟩ := List.getElem?_eq_some_iff.mp found
      exact ⟨i, rfl, inside⟩

theorem child_other {value : Json} {segment other : String} (part : Json)
    (keeps : Keeps value segment) (differs : other ≠ segment) :
    child (store value segment part) other = child value other := by
  rcases slot_cases value segment with ⟨items, i, rfl, named, inside⟩ | ⟨map, rfl⟩ | ⟨notObject, missing⟩
  · rw [store_array named inside, child, child]
    cases also : position other with
    | none => rfl
    | some j =>
        have apart : i ≠ j := by
          rintro rfl
          exact differs (position_injective also named)
        rw [Option.bind_some, Option.bind_some, List.getElem?_set_ne apart]
  · exact Pairs.find_put_other part differs
  · have single : child (store value segment part) other = none := by
      rw [store, slot_other notObject missing, child, Pairs.find, if_neg (Ne.symm differs)]
      rfl
    rw [single]
    cases value with
    | array items =>
        obtain ⟨i, named, inside⟩ := keeps items rfl
        rw [child_array named, List.getElem?_eq_getElem inside] at missing
        cases missing
    | object map => exact absurd rfl (notObject map)
    | null => rfl
    | bool value => rfl
    | number value => rfl
    | string value => rfl

theorem store_comm {value : Json} {segment other : String} (part more : Json)
    (differs : segment ≠ other) (held : (child value segment).isSome)
    (also : (child value other).isSome) :
    store (store value segment part) other more = store (store value other more) segment part := by
  rcases slot_cases value segment with ⟨items, i, rfl, named, inside⟩ | ⟨map, rfl⟩ | ⟨notObject, missing⟩
  · obtain ⟨j, also, within⟩ := inside_of_child also
    have apart : i ≠ j := by
      rintro rfl
      exact differs (position_injective named also)
    rw [store_array named inside, store_array also within,
      store_array also (by rwa [List.length_set]),
      store_array named (by rwa [List.length_set]), List.set_comm _ _ apart]
  · have first : (Pairs.find segment map).isSome := held
    have second : (Pairs.find other map).isSome := also
    have kept : (Pairs.find segment (Pairs.put other more map)).isSome := by
      rwa [Pairs.find_put_other more differs]
    have kept' : (Pairs.find other (Pairs.put segment part map)).isSome := by
      rwa [Pairs.find_put_other part (Ne.symm differs)]
    rw [store_object, store_object, store_object, store_object, Pairs.put_held kept,
      Pairs.put_held kept', Pairs.put_held first, Pairs.put_held second,
      Pairs.modify_comm _ _ differs]
  · rw [missing] at held
    cases held

theorem lawful : Walk.Lawful child store .null Keeps where
  child_store := child_store
  store_store := store_store
  store_child _ _ _ := store_child
  child_other _ _ _ part := child_other part
  store_comm _ _ _ part more := store_comm part more
  child_keeps _ _ held _ same := inside_of_child (same ▸ held)
  child_blank _ := rfl

theorem keeps_null (segment : String) : Keeps .null segment := by
  rintro items same
  cases same

end Slots

section Laws

theorem readAt_walk (value : Json) (segments : List String) :
    readAt value segments = Walk.read child value segments := by
  induction segments generalizing value with
  | nil => rfl
  | cons segment rest ih =>
      rw [readAt, List.foldlM_cons, Walk.read]
      cases child value segment with
      | none => rfl
      | some part => exact ih part

theorem writeAt_walk (record : Json) (segments : List String) (value : Json) :
    writeAt record segments value = Walk.write child store .null record segments value := by
  induction segments generalizing record with
  | nil => rfl
  | cons segment rest ih => rw [writeAt, slot_store, ih, Walk.write]

/-- The walk of the path meets no list that lacks the position the next segment names. -/
def WalkKeeps (record : Json) (segments : List String) : Prop :=
  ∀ front segment back items, segments = front ++ segment :: back →
    readAt record front = some (.array items) → ∃ i, position segment = some i ∧ i < items.length

/-- What a write stores is read back, a second write replaces the first, and, where no list is
replaced, paths apart from the written one read as before. -/
theorem write_laws (record : Record) (p : WritePath) (v w : Json) :
    readAt (p.write record v).value p.segments = some v ∧
    p.write (p.write record v) w = p.write record w ∧
    (WalkKeeps record.value p.segments → ∀ q : List String,
      ¬ p.segments <+: q → ¬ q <+: p.segments →
        readAt (p.write record v).value q = readAt record.value q) ∧
    ∀ segment other i, position segment = some i → position other = some i → segment = other := by
  refine ⟨?_, ?_, ?_, fun _ _ _ => position_injective⟩
  · rw [WritePath.write, readAt_walk, writeAt_walk]
    exact Walk.read_write lawful record.value v p.segments
  · rw [WritePath.write, WritePath.write, WritePath.write, writeAt_walk, writeAt_walk, writeAt_walk]
    exact congrArg Record.mk (Walk.write_write lawful record.value v w p.segments)
  · intro keeps q under above
    rw [WritePath.write, readAt_walk, readAt_walk, writeAt_walk]
    refine Walk.read_other lawful keeps_null v ?_ under above
    intro front segment back inner same _ reached items isArray
    rw [isArray, ← readAt_walk] at reached
    exact keeps front segment back items same reached

def listed : Record :=
  ⟨.object [("a", .array [.bool true, .object [("b", .null)]]), ("c", .bool false)]⟩

theorem write_laws_listed :
    readAt (WritePath.write ⟨["a", "1", "b"]⟩ listed (.bool true)).value ["a", "0"] = some (.bool true) := by
  have keeps : WalkKeeps listed.value ["a", "1", "b"] := by
    intro front segment back items whole reached
    rcases front with _ | ⟨first, _ | ⟨second, _ | ⟨third, front⟩⟩⟩
    · cases reached
    · obtain ⟨rfl, inner⟩ := List.cons.inj whole
      obtain ⟨rfl, _⟩ := List.cons.inj inner
      obtain rfl : [.bool true, .object [("b", .null)]] = items :=
        Json.array.inj (Option.some.inj reached)
      exact ⟨1, by decide, by decide⟩
    · obtain ⟨rfl, inner⟩ := List.cons.inj whole
      obtain ⟨rfl, _⟩ := List.cons.inj inner
      cases reached
    · simp at whole
  have kept := (write_laws listed ⟨["a", "1", "b"]⟩ (.bool true) .null).2.2.1 keeps ["a", "0"]
    (by decide) (by decide)
  exact kept

end Laws

section Remove

theorem removeSlot_fst (current : Json) (segment : String) :
    (removeSlot current segment).1 = child current segment := by
  cases current with
  | array items =>
      rw [removeSlot, child]
      cases named : position segment with
      | none => rfl
      | some i =>
          rw [Option.bind_some, Option.filter_some]
          by_cases inside : i < items.length
          · rw [if_pos (decide_eq_true inside)]
          · rw [if_neg (by simpa using inside), eq_comm, List.getElem?_eq_none_iff]
            omega
  | object map => rfl
  | null => rfl
  | bool value => rfl
  | number value => rfl
  | string value => rfl

theorem removeSlot_absent {current : Json} {segment : String} (absent : child current segment = none) :
    (removeSlot current segment).2 = current := by
  cases current with
  | array items =>
      rw [removeSlot]
      split
      next i found =>
        obtain ⟨named, inside⟩ := Option.filter_eq_some_iff.mp found
        rw [child_array named, List.getElem?_eq_getElem (of_decide_eq_true inside)] at absent
        cases absent
      next => rfl
  | object map => exact congrArg Json.object (Pairs.erase_absent absent)
  | null => rfl
  | bool value => rfl
  | number value => rfl
  | string value => rfl

theorem removeAt_cons (record : Json) (segment : String) {rest : List String} (more : rest ≠ []) :
    removeAt record (segment :: rest) =
      (child record segment).elim (none, record) fun current =>
        ((removeAt current rest).1, store record segment (removeAt current rest).2) := by
  obtain ⟨next, later, rfl⟩ := List.exists_cons_of_ne_nil more
  cases record with
  | array items =>
      cases named : position segment with
      | none => simp only [removeAt, child, named, Option.bind_none, Option.elim_none]
      | some i =>
          cases found : items[i]? with
          | none => simp only [removeAt, child, named, found, Option.bind_some, Option.elim_none]
          | some current =>
              obtain ⟨inside, _⟩ := List.getElem?_eq_some_iff.mp found
              simp only [removeAt, child_array named, named, found, Option.elim_some,
                store_array named inside]
  | object map =>
      cases found : Pairs.find segment map with
      | none => simp only [removeAt, child, found, Option.elim_none]
      | some current =>
          have held : (Pairs.find segment map).isSome := Option.isSome_iff_exists.mpr ⟨_, found⟩
          simp only [removeAt, child, found, Option.elim_some, store_object, Pairs.put_held held]
  | null => rfl
  | bool value => rfl
  | number value => rfl
  | string value => rfl

theorem removeAt_last (record : Json) (front : List String) (last : String) :
    removeAt record (front ++ [last]) =
      (readAt record front).elim (none, record) fun inner =>
        (child inner last, writeAt record front (removeSlot inner last).2) := by
  rw [readAt_walk]
  induction front generalizing record with
  | nil => exact Prod.ext (removeSlot_fst record last) rfl
  | cons segment front ih =>
      rw [List.cons_append, removeAt_cons _ _ (List.append_ne_nil_of_right_ne_nil _ (List.cons_ne_nil _ _)),
        Walk.read]
      cases found : child record segment with
      | none => rfl
      | some current =>
          rw [Option.elim_some, Option.bind_some, ih]
          cases Walk.read child current front with
          | none =>
              rw [Option.elim_none, Option.elim_none]
              exact congrArg _ (lawful.store_child record segment current found)
          | some inner =>
              rw [Option.elim_some, Option.elim_some, writeAt, slot_store, found, Option.getD_some]

theorem removeAt_fst (record : Json) (segments : List String) :
    (removeAt record segments).1 = readAt record segments := by
  rcases List.eq_nil_or_concat' segments with rfl | ⟨front, last, rfl⟩
  · rfl
  · rw [removeAt_last, readAt_walk, readAt_walk, Walk.read_append]
    cases Walk.read child record front with
    | none => rfl
    | some inner =>
        rw [Option.elim_some, Option.bind_some, Walk.read]
        cases child inner last <;> rfl

theorem removeAt_absent {record : Json} {segments : List String}
    (absent : readAt record segments = none) : (removeAt record segments).2 = record := by
  rcases List.eq_nil_or_concat' segments with rfl | ⟨front, last, rfl⟩
  · cases absent
  · rw [readAt_walk, Walk.read_append] at absent
    rw [removeAt_last]
    cases reached : readAt record front with
    | none => rfl
    | some inner =>
        rw [readAt_walk] at reached
        rw [reached, Option.bind_some, Walk.read] at absent
        have missing : child inner last = none := by
          cases found : child inner last with
          | none => rfl
          | some part => rw [found] at absent; cases absent
        rw [Option.elim_some, removeSlot_absent missing, writeAt_walk]
        exact Walk.write_read lawful reached

theorem removeAt_append {record inner : Json} {front rest : List String}
    (reached : readAt record front = some inner) (more : rest ≠ []) :
    (removeAt record (front ++ rest)).2 = writeAt record front (removeAt inner rest).2 := by
  obtain ⟨back, last, rfl⟩ := (List.eq_nil_or_concat' rest).resolve_left more
  rw [readAt_walk] at reached
  rw [← List.append_assoc, removeAt_last, removeAt_last, readAt_walk, readAt_walk, Walk.read_append,
    reached, Option.bind_some, writeAt_walk]
  cases Walk.read child inner back with
  | none => exact (Walk.write_read lawful reached).symm
  | some held =>
      rw [Option.elim_some, Option.elim_some, writeAt_walk, writeAt_walk, Walk.write_append _ reached]

/-- How a record reads once one slot of one of its values is gone. -/
structure SlotGone (record left : Json) (front : List String) (last : String) : Prop where
  apart : ∀ q, ¬ front <+: q → ¬ q <+: front → readAt left q = readAt record q
  object : ∀ map, readAt record front = some (.object map) →
    readAt left front = some (.object (Pairs.erase last map)) ∧
    ∀ key rest, key ≠ last → readAt left (front ++ key :: rest) = readAt record (front ++ key :: rest)
  list : ∀ items, readAt record front = some (.array items) →
    ∃ i, position last = some i ∧ i < items.length ∧
      readAt left front = some (.array (items.eraseIdx i)) ∧
      (∀ segment rest, (∀ j, position segment = some j → j < i) →
        readAt left (front ++ segment :: rest) = readAt record (front ++ segment :: rest)) ∧
      ∀ segment next j rest, position segment = some j → position next = some (j + 1) → i ≤ j →
        readAt left (front ++ segment :: rest) = readAt record (front ++ next :: rest)
  held : (∃ map, readAt record front = some (.object map)) ∨
    ∃ items, readAt record front = some (.array items)
  above : ∀ outer under value, front = outer ++ under → readAt record outer = some value →
    ∃ reduced, readAt left front = some reduced ∧ readAt left outer = some (writeAt value under reduced)

theorem slotGone {record inner : Json} {front : List String} {last : String}
    (reached : readAt record front = some inner) (held : (child inner last).isSome) :
    SlotGone record (writeAt record front (removeSlot inner last).2) front last := by
  have walked := reached
  rw [readAt_walk] at walked
  have read : readAt (writeAt record front (removeSlot inner last).2) front =
      some (removeSlot inner last).2 := by
    rw [readAt_walk, writeAt_walk]
    exact Walk.read_write lawful record _ front
  have under (segment : String) (rest : List String) :
      readAt (writeAt record front (removeSlot inner last).2) (front ++ segment :: rest) =
        (child (removeSlot inner last).2 segment).bind (Walk.read child · rest) := by
    rw [readAt_walk, writeAt_walk, Walk.read_under lawful, Walk.read]
  have before (segment : String) (rest : List String) :
      readAt record (front ++ segment :: rest) = (child inner segment).bind (Walk.read child · rest) := by
    rw [readAt_walk, Walk.read_append, walked, Option.bind_some, Walk.read]
  constructor
  case apart =>
    intro q notUnder notAbove
    rw [readAt_walk, readAt_walk, writeAt_walk]
    refine Walk.read_other lawful keeps_null _ (Walk.clear_of_read lawful ?_ q) notUnder notAbove
    rw [walked, Option.isSome_some]
  case object =>
    rintro map isObject
    obtain rfl := Option.some.inj (reached.symm.trans isObject)
    refine ⟨read, ?_⟩
    intro key rest differs
    rw [under, before]
    exact congrArg (Option.bind · _) (Pairs.find_erase_other differs)
  case list =>
    rintro items isArray
    obtain rfl := Option.some.inj (reached.symm.trans isArray)
    obtain ⟨i, named, inside⟩ := lawful.child_keeps _ _ held items rfl
    have reduced : (removeSlot (.array items) last).2 = .array (items.eraseIdx i) := by
      rw [removeSlot, named, Option.filter_some, if_pos (decide_eq_true inside)]
    rw [reduced] at read under ⊢
    refine ⟨i, named, inside, read, ?_, ?_⟩
    · intro segment rest earlier
      rw [under, before]
      cases names : position segment with
      | none => rw [child, child, names, Option.bind_none]; rfl
      | some j =>
          rw [child_array names, child_array names,
            List.getElem?_eraseIdx_of_lt (earlier j names)]
    · intro segment next j rest names names' later
      rw [under, before, child_array names, child_array names',
        List.getElem?_eraseIdx_of_ge later]
  case held =>
    cases inner with
    | array items => exact .inr ⟨items, reached⟩
    | object map => exact .inl ⟨map, reached⟩
    | null => cases held
    | bool value => cases held
    | number value => cases held
    | string value => cases held
  case above =>
    rintro outer below value rfl found
    refine ⟨_, read, ?_⟩
    rw [readAt_walk] at found
    rw [readAt_walk, writeAt_walk, writeAt_walk, Walk.write_append _ found]
    exact Walk.read_write lawful record _ outer

/-- A removal returns what its path reads, changes nothing when that is nothing, leaves `null` for
the whole record, and otherwise takes one slot of one value away. -/
theorem remove_laws (record : Record) (p : WritePath) :
    (p.remove record).1 = readAt record.value p.segments ∧
    ((p.remove record).1 = none → (p.remove record).2 = record) ∧
    (p.segments = [] → (p.remove record).2 = ⟨.null⟩) ∧
    ∀ front last, p.segments = front ++ [last] → (p.remove record).1.isSome →
      SlotGone record.value (p.remove record).2.value front last := by
  have taken : (p.remove record).1 = readAt record.value p.segments :=
    removeAt_fst record.value p.segments
  refine ⟨taken, ?_, ?_, ?_⟩
  · intro absent
    rw [taken] at absent
    exact congrArg Record.mk (removeAt_absent absent)
  · intro whole
    rw [WritePath.remove, whole]
    rfl
  · intro front last same some_
    have cut := removeAt_last record.value front last
    rw [WritePath.remove, same, cut] at some_ ⊢
    cases reached : readAt record.value front with
    | none =>
        rw [reached, Option.elim_none] at some_
        cases some_
    | some inner =>
        rw [reached, Option.elim_some] at some_
        rw [Option.elim_some]
        exact slotGone reached some_

/-- A path that ends above the removed slot does not pass through it and reads a value without it. -/
theorem remove_laws_above :
    ¬ ∀ (record : Record) (p : WritePath) (front : List String) (last : String) map,
      p.segments = front ++ [last] → (p.remove record).1.isSome →
      readAt record.value front = some (.object map) → ∀ q, ¬ p.segments <+: q →
        readAt (p.remove record).2.value q = readAt record.value q := by
  intro all
  have same := all ⟨.object [("a", .object [("b", .null)])]⟩ ⟨["a", "b"]⟩ ["a"] "b" [("b", .null)]
    rfl rfl rfl ["a"] (by decide)
  have before : readAt (.object [("a", .object [("b", .null)])]) ["a"] =
      some (.object [("b", .null)]) := by rfl
  have after : readAt (WritePath.remove ⟨["a", "b"]⟩
      ⟨.object [("a", .object [("b", .null)])]⟩).2.value ["a"] = some (.object []) := by rfl
  rw [before, after] at same
  cases same

end Remove

end FusionPipeline.Path
