import FusionPipeline.Edit
import FusionPipeline.PathLaws

/-! What `copy` and `rename` leave behind. -/

namespace FusionPipeline

open FusionPipeline.Path (readAt writeAt removeAt readAt_walk writeAt_walk)

section Owned

def present : Option Json → Option Json
  | some .null => none
  | held => held

theorem fromValue_unsigned (value : UInt64) :
    Num.fromValue (.number (.posInt value)) = some (.int value.toNat) := by
  by_cases small : value.toNat < 2 ^ 63
  · have same : (Int64.ofNat value.toNat).toInt = value.toNat := Int64.toInt_ofNat_of_lt small
    rw [Num.fromValue, Number.asI64, if_pos small, ← same]
  · rw [Num.fromValue, Number.asI64, if_neg small, Number.asU64]

theorem owned_unsigned (value : UInt64) :
    owned (.num (.int value.toNat)) = some (.number (.posInt value)) := by
  have wide : value.toNat < 2 ^ 64 := value.toNat_lt
  rw [owned]
  by_cases small : value.toNat < 2 ^ 63
  · have same : (Int64.ofNat value.toNat).toInt = value.toNat := Int64.toInt_ofNat_of_lt small
    have fits : -2 ^ 63 ≤ (value.toNat : Int) ∧ (value.toNat : Int) < 2 ^ 63 := by omega
    rw [if_pos fits, ← same, Int64.ofInt_toInt, Number.ofI64_ofNat small]
  · have large : ¬ (-2 ^ 63 ≤ (value.toNat : Int) ∧ (value.toNat : Int) < 2 ^ 63) := by omega
    have fits : 0 ≤ (value.toNat : Int) ∧ (value.toNat : Int) < 2 ^ 64 := by omega
    rw [if_neg large, if_pos fits, Int.toNat_natCast, UInt64.ofNat_toNat]

theorem owned_number (number : Number) :
    owned (.fromJson (.number number)) = some (.number number) := by
  cases number with
  | posInt value =>
      rw [FieldValue.fromJson, fromValue_unsigned, Option.elim_some, owned_unsigned]
  | negInt value negative =>
      have low := value.le_toInt
      have high := value.toInt_lt
      have read : Num.fromValue (.number (.negInt value negative)) = some (.int value.toInt) := by rfl
      rw [FieldValue.fromJson, read, Option.elim_some, owned, if_pos ⟨low, high⟩, Int64.ofInt_toInt,
        Number.ofI64, dif_pos negative]
  | float value finite =>
      have read : Num.fromValue (.number (.float value finite)) = some (.float value) := by rfl
      rw [FieldValue.fromJson, read, Option.elim_some, owned, Number.ofF64, dif_pos finite,
        Option.map_some]

theorem owned_fromJson (held : Option Json) :
    owned (held.elim .null FieldValue.fromJson) = present held := by
  cases held with
  | none => rfl
  | some value => cases value with
    | number number => exact owned_number number
    | _ => rfl

end Owned

def FieldPath.holds (path : FieldPath) (record : Record) (recordMeta : Meta) : Option Json :=
  match path.target with
  | .record segments => readAt record.value segments
  | .meta_ field =>
      match recordMeta.get field with
      | .str text => some (.string text)
      | .u64 value => some (.number (.posInt value))

theorem owned_path (path : FieldPath) (record : Record) (recordMeta : Meta) :
    owned (path.read record recordMeta) = present (path.holds record recordMeta) := by
  rw [FieldPath.read, FieldPath.holds]
  cases path.target with
  | record segments => exact owned_fromJson _
  | meta_ field =>
      cases held : recordMeta.get field with
      | str text => simp only [held, owned, present]
      | u64 value => simp only [held, owned_unsigned, present]

theorem owned_write (path : WritePath) (record : Record) :
    owned (path.read record) = present (readAt record.value path.segments) :=
  owned_fromJson _

section Object

variable {map : List (String × Json)} {one two : String} (back more : List String) (value : Json)

theorem write_remove_object (ascending : Pairs.Ascending map) (differs : one ≠ two) :
    writeAt (removeAt (.object map) (one :: back)).2 (two :: more) value =
      (removeAt (writeAt (.object map) (two :: more) value) (one :: back)).2 := by
  have writes (map : List (String × Json)) : writeAt (.object map) (two :: more) value =
      .object (Pairs.put two (writeAt ((Pairs.find two map).getD .null) more value) map) := by
    rfl
  have trans : IsTrans String (· < ·) := ⟨fun _ _ _ => String.lt_trans⟩
  rw [writes]
  cases back with
  | nil =>
      have removes (map : List (String × Json)) :
          (removeAt (.object map) [one]).2 = .object (Pairs.erase one map) := by
        rfl
      rw [removes, removes, writes, Pairs.find_erase_other (Ne.symm differs),
        Pairs.erase_put ascending (Ne.symm differs)]
  | cons next later =>
      have child_find (map : List (String × Json)) :
          Path.child (.object map) one = Pairs.find one map := by
        rfl
      rw [Path.removeAt_cons _ _ (List.cons_ne_nil next later),
        Path.removeAt_cons _ _ (List.cons_ne_nil next later), child_find, child_find,
        Pairs.find_put_other _ differs]
      cases found : Pairs.find one map with
      | none => rw [Option.elim_none, Option.elim_none, writes]
      | some current =>
          have held : (Pairs.find one map).isSome := Option.isSome_iff_exists.mpr ⟨_, found⟩
          have held' (new : Json) : (Pairs.find one (Pairs.put two new map)).isSome := by
            rwa [Pairs.find_put_other _ differs]
          rw [Option.elim_some, Option.elim_some, Path.store_object, Path.store_object, writes,
            Pairs.find_put_other _ (Ne.symm differs), Pairs.put_held held, Pairs.put_held (held' _),
            Pairs.modify_put _ (Ne.symm differs)]

end Object

structure Moves (source : Option Json) (record : Record) (to_ : WritePath)
    (outcome : Except Unapplied Unit × Record) : Prop where
  unapplied : (∃ why, outcome.1 = .error why) ↔ source = none ∨ source = some .null
  unchanged : (∃ why, outcome.1 = .error why) → outcome.2 = record
  holds : outcome.1 = .ok () → ∃ value, source = some value ∧
    readAt outcome.2.value to_.segments = some value

section Apply

variable (sha256Hex : List Char → String) (writers : Writers)

theorem present_none {held : Option Json} (none_ : present held = none) :
    held = none ∨ held = some .null := by
  cases held with
  | none => exact .inl rfl
  | some value => cases value with
    | null => exact .inr rfl
    | _ => cases none_

theorem present_some {held : Option Json} {value : Json} (some_ : present held = some value) :
    held = some value ∧ value ≠ .null := by
  cases held with
  | none => cases some_
  | some held => cases held with
    | null => cases some_
    | _ =>
        obtain rfl := Option.some.inj some_
        exact ⟨rfl, fun same => Json.noConfusion same⟩

theorem moves_written {source : Option Json} {value : Json} (some_ : present source = some value)
    (record left : Record) (to_ : WritePath) :
    Moves source record to_ (.ok (), to_.write left value) := by
  obtain ⟨rfl, notNull⟩ := present_some some_
  constructor
  case unapplied =>
    constructor
    · rintro ⟨why, failed⟩
      cases failed
    · rintro (same | same)
      · cases same
      · exact absurd (Option.some.inj same) notNull
  case unchanged =>
    rintro ⟨why, failed⟩
    cases failed
  case holds =>
    intro _
    refine ⟨value, rfl, ?_⟩
    rw [WritePath.write, readAt_walk, writeAt_walk]
    exact Walk.read_write Path.lawful _ _ _

theorem moves_unapplied {source : Option Json} (none_ : present source = none) (record : Record)
    (to_ : WritePath) (why : Unapplied) : Moves source record to_ (.error why, record) where
  unapplied := ⟨fun _ => present_none none_, fun _ => ⟨why, rfl⟩⟩
  unchanged _ := rfl
  holds applied := by cases applied

theorem moves_copy (from_ : Labelled FieldPath) (to_ : WritePath) (record : Record)
    (recordMeta : Meta) :
    Moves (from_.path.holds record recordMeta) record to_
      (Op.apply sha256Hex writers (.copy from_ to_) record recordMeta) := by
  rw [Op.apply, owned_path]
  cases held : present (from_.path.holds record recordMeta) with
  | none => exact moves_unapplied held record to_ _
  | some value => exact moves_written held record record to_

theorem moves_rename (from_ : Labelled WritePath) (to_ : WritePath) (record : Record)
    (recordMeta : Meta) :
    Moves (readAt record.value from_.path.segments) record to_
      (Op.apply sha256Hex writers (.rename from_ to_) record recordMeta) := by
  rw [Op.apply, owned_write]
  cases held : present (readAt record.value from_.path.segments) with
  | none => exact moves_unapplied held record to_ _
  | some value => exact moves_written held record _ to_

def PartAtObject (record : Record) (path other : WritePath) : Prop :=
  ∃ front one two back more map, path.segments = front ++ one :: back ∧
    other.segments = front ++ two :: more ∧ one ≠ two ∧
      readAt record.value front = some (.object map) ∧ Pairs.Ascending map

theorem write_remove_apart {record : Record} {path other : WritePath}
    (parts : PartAtObject record path other) (value : Json) :
    other.write (path.remove record).2 value = (path.remove (other.write record value)).2 := by
  obtain ⟨front, one, two, back, more, map, here, there, differs, reached, ascending⟩ := parts
  have removed := Path.removeAt_append reached (List.cons_ne_nil one back)
  have walked := reached
  rw [readAt_walk] at walked
  have wrote : writeAt record.value (front ++ two :: more) value =
      writeAt record.value front (writeAt (.object map) (two :: more) value) := by
    simp only [writeAt_walk]
    exact Walk.write_append value walked (two :: more)
  have under (new : Json) : readAt (writeAt record.value front new) front = some new := by
    rw [readAt_walk, writeAt_walk]
    exact Walk.read_write Path.lawful _ _ _
  have again (new last : Json) :
      writeAt (writeAt record.value front new) front last = writeAt record.value front last := by
    simp only [writeAt_walk]
    exact Walk.write_write Path.lawful _ _ _ _
  have through (new : Json) : writeAt (writeAt record.value front new) (front ++ two :: more) value =
      writeAt record.value front (writeAt new (two :: more) value) := by
    have read := under new
    rw [readAt_walk] at read
    rw [← again new (writeAt new (two :: more) value)]
    simp only [writeAt_walk] at read ⊢
    exact Walk.write_append value read (two :: more)
  have last := Path.removeAt_append (under (writeAt (.object map) (two :: more) value))
    (List.cons_ne_nil one back)
  rw [WritePath.write, WritePath.write, WritePath.remove, WritePath.remove, here, there]
  refine congrArg Record.mk ?_
  change writeAt (removeAt record.value (front ++ one :: back)).2 (front ++ two :: more) value =
    (removeAt (writeAt record.value (front ++ two :: more) value) (front ++ one :: back)).2
  rw [removed, through, wrote, last, again, write_remove_object back more value ascending differs]

/-- A copy and an applied rename leave at their target what the source held; an unapplied one
leaves the record alone. A rename between paths that part at an object is the copy and then the
removal of its source, unless the source holds a `null`. -/
theorem apply_moves (record : Record) (recordMeta : Meta) (to_ : WritePath) :
    (∀ from_ : Labelled FieldPath, Moves (from_.path.holds record recordMeta) record to_
      (Op.apply sha256Hex writers (.copy from_ to_) record recordMeta)) ∧
    ∀ from_ : Labelled WritePath,
      Moves (readAt record.value from_.path.segments) record to_
        (Op.apply sha256Hex writers (.rename from_ to_) record recordMeta) ∧
      (PartAtObject record from_.path to_ →
        readAt record.value from_.path.segments ≠ some .null →
          (Op.apply sha256Hex writers (.rename from_ to_) record recordMeta).2 =
            (Op.apply sha256Hex writers (.delete [from_.path])
              (Op.apply sha256Hex writers (.copy (.ofField from_.path.path) to_) record recordMeta).2
              recordMeta).2) := by
  refine ⟨fun from_ => moves_copy sha256Hex writers from_ to_ record recordMeta, ?_⟩
  intro from_
  refine ⟨moves_rename sha256Hex writers from_ to_ record recordMeta, ?_⟩
  intro parts notNull
  have holds : FieldPath.holds from_.path.path record recordMeta =
      readAt record.value from_.path.segments := by
    rfl
  simp only [Op.apply, Labelled.ofField, owned_path, owned_write, holds, List.foldl_cons, List.foldl_nil]
  cases held : present (readAt record.value from_.path.segments) with
  | none =>
      have absent := (present_none held).resolve_right notNull
      exact congrArg Record.mk (Path.removeAt_absent absent).symm
  | some value => exact write_remove_apart parts value

end Apply

def nested : Record :=
  ⟨.object [("a", .object [("x", .bool true)])]⟩

def applied (op : Op) (record : Record) : Except Unapplied Unit × Record :=
  op.apply (fun _ => "") ⟨fun _ => [], fun _ => none, fun _ => none⟩ record ⟨⟨0⟩, "t", .clock 0, 1⟩

theorem apply_moves_sibling :
    let renamed := applied (.rename (.ofWrite ⟨["a", "x"]⟩) ⟨["a", "y"]⟩) nested
    let copied := applied (.copy (.ofField ⟨.record ["a", "x"]⟩) ⟨["a", "y"]⟩) nested
    renamed.2 = (applied (.delete [⟨["a", "x"]⟩]) copied.2).2 ∧
      readAt copied.2.value ["a", "y"] = some (.bool true) ∧
      readAt renamed.2.value ["a", "y"] = some (.bool true) := by
  obtain ⟨copies, renames⟩ := apply_moves (fun _ => "") ⟨fun _ => [], fun _ => none, fun _ => none⟩
    nested ⟨⟨0⟩, "t", .clock 0, 1⟩ ⟨["a", "y"]⟩
  obtain ⟨moves, apart⟩ := renames (.ofWrite ⟨["a", "x"]⟩)
  have source : readAt nested.value ["a", "x"] = some (.bool true) := by rfl
  obtain ⟨value, held, stored⟩ := (copies (.ofField ⟨.record ["a", "x"]⟩)).holds rfl
  obtain rfl := Option.some.inj (source.symm.trans held)
  obtain ⟨value, held, alsoStored⟩ := moves.holds rfl
  obtain rfl := Option.some.inj (source.symm.trans held)
  refine ⟨apart ?_ ?_, stored, alsoStored⟩
  · exact ⟨["a"], "x", "y", [], [], [("x", .bool true)], rfl, rfl, by decide, rfl,
      List.pairwise_singleton _ _⟩
  · intro null
    cases source.symm.trans null

/-- A `null` stays where it is in a rename, which does not apply, and goes with a removal. -/
theorem apply_moves_null :
    ¬ ∀ (sha256Hex : List Char → String) (writers : Writers) (record : Record) (recordMeta : Meta)
      (from_ : Labelled WritePath) (to_ : WritePath), PartAtObject record from_.path to_ →
        (Op.apply sha256Hex writers (.rename from_ to_) record recordMeta).2 =
          (Op.apply sha256Hex writers (.delete [from_.path])
            (Op.apply sha256Hex writers (.copy (.ofField from_.path.path) to_) record recordMeta).2
            recordMeta).2 := by
  intro all
  have parts : PartAtObject ⟨.object [("a", .null)]⟩ ⟨["a"]⟩ ⟨["b"]⟩ :=
    ⟨[], "a", "b", [], [], [("a", .null)], rfl, rfl, by decide, rfl, List.pairwise_singleton _ _⟩
  have same := all (fun _ => "") ⟨fun _ => [], fun _ => none, fun _ => none⟩ ⟨.object [("a", .null)]⟩
    ⟨⟨0⟩, "t", .clock 0, 1⟩ (.ofWrite ⟨["a"]⟩) ⟨["b"]⟩ parts
  have kept : Record.mk (.object [("a", .null)]) = Record.mk (.object []) := same
  simp at kept

end FusionPipeline
