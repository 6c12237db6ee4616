import FusionPipeline.KeyHash
import FusionPipeline.Library.JsonText

/-! The canonical text of key fields says what each of them reads. -/

namespace FusionPipeline

/-- What the writers are relied on for, at the values read: JSON text of the value's kind, distinct
for distinct values. The text of a float is no integer's. -/
structure Writers.Faithful (writers : Writers) (isRead : FieldValue → Prop) : Prop where
  float : ∀ value, isRead (.num (.float value)) → ∃ sign whole fraction exponent,
    JsonText.IsNumber (writers.float value) sign whole fraction exponent ∧
      (fraction ≠ [] ∨ exponent ≠ [])
  float_injective : ∀ value other, isRead (.num (.float value)) → isRead (.num (.float other)) →
    writers.float value = writers.float other → value = other
  string : ∀ value, isRead (.str value) → ∃ text, writers.string value = some text ∧
    JsonText.IsString text
  string_injective : ∀ value other, isRead (.str value) → isRead (.str other) →
    writers.string value = writers.string other → value = other
  value : ∀ value, isRead (.json value) → ∃ text, writers.value value = some text ∧
    JsonText.Derives .value text ∧ (text.head? = some '[' ∨ text.head? = some '\x7b')
  value_injective : ∀ value other, isRead (.json value) → isRead (.json other) →
    writers.value value = writers.value other → value = other

section Values

inductive Shape where
  | null
  | true_
  | false_
  | string
  | container
  | number
  deriving DecidableEq

def shapeOf (c : Char) : Shape :=
  if c = 'n' then .null
  else if c = 't' then .true_
  else if c = 'f' then .false_
  else if c = '"' then .string
  else if c = '[' ∨ c = '\x7b' then .container
  else .number

def FieldValue.shape : FieldValue → Shape
  | .null => .null
  | .bool value => if value then .true_ else .false_
  | .num _ => .number
  | .str _ => .string
  | .json _ => .container

theorem shapeOf_digit {c : Char} (isDigit : c.isDigit = true) : shapeOf c = .number := by
  have differs {other : Char} (not : other.isDigit = false) : c ≠ other := by
    rintro rfl
    rw [isDigit] at not
    cases not
  rw [shapeOf, if_neg (differs rfl), if_neg (differs rfl), if_neg (differs rfl), if_neg (differs rfl),
    if_neg (not_or.mpr ⟨differs rfl, differs rfl⟩)]

theorem int_text (value : Int) :
    ∃ sign digits, (toString value).toList = sign ++ digits ∧ (sign = [] ∨ sign = ['-']) ∧
      JsonText.Digits digits := by
  have digits (n : Nat) : JsonText.Digits (Nat.repr n).toList := by
    rw [Nat.toList_repr]
    exact ⟨Nat.toDigits_ne_nil, fun c member => Nat.isDigit_of_mem_toDigits (by omega) (by omega) member⟩
  cases value with
  | ofNat n => exact ⟨[], (Nat.repr n).toList, rfl, .inl rfl, digits n⟩
  | negSucc n =>
      refine ⟨['-'], (Nat.repr n.succ).toList, ?_, .inr rfl, digits n.succ⟩
      exact String.toList_append

theorem int_text_injective {value other : Int}
    (same : (toString value).toList = (toString other).toList) : value = other := by
  have signed (n : Nat) (m : Int) : (toString (Int.negSucc n)).toList ≠ (Nat.repr m.toNat).toList := by
    intro equal
    have minus : '-' ∈ (Nat.repr m.toNat).toList := by
      rw [← equal]
      exact String.toList_append ▸ List.mem_cons_self
    cases Text.mem_repr_isDigit minus
  cases value with
  | ofNat n => cases other with
    | ofNat m => rw [Text.repr_injective (String.toList_inj.mp same)]
    | negSucc m => exact absurd same.symm (signed m n)
  | negSucc n => cases other with
    | ofNat m => exact absurd same (signed n m)
    | negSucc m =>
        have texts : ("-" ++ Nat.repr n.succ).toList = ("-" ++ Nat.repr m.succ).toList := same
        rw [String.toList_append, String.toList_append, List.append_cancel_left_eq] at texts
        have numbers := Text.repr_injective (String.toList_inj.mp texts)
        rw [Nat.succ.inj numbers]

theorem number_lead {sign digits rest : List Char} (isSign : sign = [] ∨ sign = ['-'])
    (are : JsonText.Digits digits) :
    ∃ c, (sign ++ digits ++ rest).head? = some c ∧ shapeOf c = .number := by
  obtain ⟨first, others, rfl⟩ := List.exists_cons_of_ne_nil are.1
  rcases isSign with rfl | rfl
  · exact ⟨first, rfl, shapeOf_digit (are.2 first List.mem_cons_self)⟩
  · exact ⟨'-', rfl, rfl⟩

variable {writers : Writers} {isRead : FieldValue → Prop} (faithful : writers.Faithful isRead)
include faithful

theorem writeCanonical_lead {value : FieldValue} (held : isRead value) :
    ∃ c, (writeCanonical writers value).head? = some c ∧ shapeOf c = value.shape := by
  cases value with
  | null => exact ⟨'n', rfl, rfl⟩
  | bool value => cases value with
    | true => exact ⟨'t', rfl, rfl⟩
    | false => exact ⟨'f', rfl, rfl⟩
  | num value => cases value with
    | int value =>
        obtain ⟨sign, digits, same, isSign, are⟩ := int_text value
        rw [writeCanonical, same, ← List.append_nil (sign ++ digits)]
        exact number_lead isSign are
    | float value =>
        obtain ⟨sign, whole, fraction, exponent, number, _⟩ := faithful.float value held
        rw [writeCanonical, number.same, List.append_assoc]
        exact number_lead number.sign number.whole.1
  | str value =>
      obtain ⟨text, written, rest, rfl, _⟩ := faithful.string value held
      exact ⟨'"', by rw [writeCanonical, written]; rfl, rfl⟩
  | json value =>
      obtain ⟨text, written, _, lead⟩ := faithful.value value held
      rw [writeCanonical, written, Option.getD_some]
      rcases lead with lead | lead
      · exact ⟨_, lead, rfl⟩
      · exact ⟨_, lead, rfl⟩

theorem writeCanonical_through {value : FieldValue} (held : isRead value) :
    JsonText.Through 0 (writeCanonical writers value) := by
  have literal {text : List Char} (member : text ∈ ["null".toList, "true".toList, "false".toList]) :
      JsonText.Through 0 text :=
    JsonText.through_derives (.literal member)
  cases value with
  | null => exact literal (by simp [writeCanonical])
  | bool value => cases value with
    | true => exact literal (by simp [writeCanonical])
    | false => exact literal (by simp [writeCanonical])
  | num value => cases value with
    | int value =>
        obtain ⟨sign, digits, same, isSign, are⟩ := int_text value
        rw [writeCanonical, same]
        refine JsonText.through_neutral ?_ 0
        intro c member
        rcases List.mem_append.mp member with inSign | inDigits
        · rcases isSign with rfl | rfl
          · cases inSign
          · obtain rfl := List.mem_singleton.mp inSign
            decide
        · exact JsonText.neutral_digit (are.2 c inDigits)
    | float value =>
        obtain ⟨sign, whole, fraction, exponent, number, _⟩ := faithful.float value held
        exact JsonText.through_number number
  | str value =>
      obtain ⟨text, written, isString⟩ := faithful.string value held
      rw [writeCanonical, written]
      exact JsonText.through_string isString
  | json value =>
      obtain ⟨text, written, derives, _⟩ := faithful.value value held
      rw [writeCanonical, written]
      exact JsonText.through_derives derives

omit faithful in
theorem int_ne_number {value : Int} {text sign whole fraction exponent : List Char}
    (number : JsonText.IsNumber text sign whole fraction exponent)
    (more : fraction ≠ [] ∨ exponent ≠ []) : (toString value).toList ≠ text := by
  obtain ⟨sign', digits, same, isSign, are⟩ := int_text value
  rw [same, number.same]
  intro equal
  have plain {c : Char} (member : c ∈ sign ++ whole ++ fraction ++ exponent) :
      c = '-' ∨ c.isDigit = true := by
    rw [← equal] at member
    rcases List.mem_append.mp member with inSign | inDigits
    · rcases isSign with rfl | rfl
      · cases inSign
      · exact .inl (List.mem_singleton.mp inSign)
    · exact .inr (are.2 c inDigits)
  rcases more with some_ | some_
  · obtain ⟨_, rfl, _⟩ := number.fraction.resolve_left some_
    have dot : '.' = '-' ∨ '.'.isDigit = true := plain (by simp)
    revert dot
    decide
  · obtain ⟨e, _, _, rfl, isE, _⟩ := number.exponent.resolve_left some_
    have mark : e = '-' ∨ e.isDigit = true := plain (by simp)
    revert mark
    rcases isE with rfl | rfl <;> decide

theorem writeCanonical_injective {value other : FieldValue} (held : isRead value)
    (held' : isRead other) (same : writeCanonical writers value = writeCanonical writers other) :
    value = other := by
  obtain ⟨c, lead, shape⟩ := writeCanonical_lead faithful held
  obtain ⟨d, lead', shape'⟩ := writeCanonical_lead faithful held'
  rw [same, lead'] at lead
  obtain rfl := Option.some.inj lead
  rw [shape'] at shape
  cases value with
  | null =>
      cases other with
      | null => rfl
      | bool other => cases other <;> cases shape
      | _ => cases shape
  | bool value =>
      cases other with
      | bool other =>
          cases value <;> cases other
          · rfl
          · cases shape
          · cases shape
          · rfl
      | _ => cases value <;> cases shape
  | num value =>
      cases other with
      | num other =>
          cases value with
          | int value =>
              cases other with
              | int other => rw [int_text_injective same]
              | float other =>
                  obtain ⟨_, _, _, _, number, more⟩ := faithful.float other held'
                  exact absurd same (int_ne_number number more)
          | float value =>
              cases other with
              | int other =>
                  obtain ⟨_, _, _, _, number, more⟩ := faithful.float value held
                  exact absurd same.symm (int_ne_number number more)
              | float other => rw [faithful.float_injective value other held held' same]
      | bool other => cases other <;> cases shape
      | _ => cases shape
  | str value =>
      cases other with
      | str other =>
          obtain ⟨text, written, _⟩ := faithful.string value held
          obtain ⟨text', written', _⟩ := faithful.string other held'
          rw [writeCanonical, writeCanonical, written, written'] at same
          have equal : writers.string value = writers.string other := by
            rw [written, written']
            exact congrArg some same
          rw [faithful.string_injective value other held held' equal]
      | bool other => cases other <;> cases shape
      | _ => cases shape
  | json value =>
      cases other with
      | json other =>
          obtain ⟨text, written, _⟩ := faithful.value value held
          obtain ⟨text', written', _⟩ := faithful.value other held'
          rw [writeCanonical, writeCanonical, written, written'] at same
          have equal : writers.value value = writers.value other := by
            rw [written, written']
            exact congrArg some same
          rw [faithful.value_injective value other held held' equal]
      | bool other => cases other <;> cases shape
      | _ => cases shape

end Values

def ReadIn (fields : List FieldPath) (record other : Record) (recordMeta otherMeta : Meta)
    (value : FieldValue) : Prop :=
  ∃ path ∈ fields, value = path.read record recordMeta ∨ value = path.read other otherMeta

/-- Two records have one canonical text when every path reads the same in both, and only then. -/
theorem canonical_injective (writers : Writers) (fields : List FieldPath) (record other : Record)
    (recordMeta otherMeta : Meta)
    (faithful : writers.Faithful (ReadIn fields record other recordMeta otherMeta)) :
    canonical writers fields record recordMeta = canonical writers fields other otherMeta ↔
      ∀ path ∈ fields, path.read record recordMeta = path.read other otherMeta := by
  have one {path : FieldPath} (member : path ∈ fields) :
      ReadIn fields record other recordMeta otherMeta (path.read record recordMeta) :=
    ⟨path, member, .inl rfl⟩
  have two {path : FieldPath} (member : path ∈ fields) :
      ReadIn fields record other recordMeta otherMeta (path.read other otherMeta) :=
    ⟨path, member, .inr rfl⟩
  constructor
  · intro same path member
    have texts := JsonText.separated_unique (by rw [List.length_map, List.length_map])
      (List.forall_mem_map.mpr fun path member => writeCanonical_through faithful (one member))
      (List.forall_mem_map.mpr fun path member => writeCanonical_through faithful (two member))
      (List.cons.inj same).2
    have text := List.map_inj_left.mp texts path member
    exact writeCanonical_injective faithful (one member) (two member) text
  · intro same
    have texts : (fields.map fun path => writeCanonical writers (path.read record recordMeta)) =
        fields.map fun path => writeCanonical writers (path.read other otherMeta) := by
      refine List.map_congr_left fun path member => ?_
      rw [same path member]
    rw [canonical, canonical, texts]

def quoting : Writers where
  float _ := []
  string text := some ('"' :: (text.toList.flatMap fun c =>
    if c = '"' ∨ c = '\\' then ['\\', c] else [c]) ++ ['"'])
  value _ := none

def keyed (map : List (String × Json)) : Record :=
  ⟨.object map⟩

theorem quoting_isString {text : String} (plain : ∀ c ∈ text.toList, ' ' ≤ c) :
    ∃ written, quoting.string text = some written ∧ JsonText.IsString written := by
  refine ⟨_, rfl, _, rfl, ?_⟩
  generalize text.toList = chars at plain
  induction chars with
  | nil => exact .close
  | cons c rest ih =>
      rw [List.forall_mem_cons] at plain
      rw [List.flatMap_cons]
      split
      next special =>
        refine JsonText.Quoted.escape ?_ (ih plain.2)
        rcases special with rfl | rfl <;> decide
      next ordinary =>
        rw [not_or] at ordinary
        exact JsonText.Quoted.plain plain.1 ordinary.1 ordinary.2 (ih plain.2)

def keyedMeta : Meta :=
  ⟨⟨0⟩, "t", .clock 0, 1⟩

/-- A quote and a comma inside a string are no end of it. -/
theorem canonical_injective_quoted :
    canonical quoting [⟨.record ["a"]⟩, ⟨.record ["b"]⟩] (keyed [("a", .string "1\",\"2")]) keyedMeta ≠
      canonical quoting [⟨.record ["a"]⟩, ⟨.record ["b"]⟩]
        (keyed [("a", .string "1"), ("b", .string "2")]) keyedMeta := by
  have values {value : FieldValue}
      (held : ReadIn [⟨.record ["a"]⟩, ⟨.record ["b"]⟩] (keyed [("a", .string "1\",\"2")])
        (keyed [("a", .string "1"), ("b", .string "2")]) keyedMeta keyedMeta value) :
      value = .null ∨ ∃ text ∈ ["1\",\"2", "1", "2"], value = .str text := by
    obtain ⟨path, member, same⟩ := held
    simp only [List.mem_cons, List.not_mem_nil, or_false] at member
    rcases member with rfl | rfl <;> rcases same with rfl | rfl
    · exact .inr ⟨"1\",\"2", by simp, rfl⟩
    · exact .inr ⟨"1", by simp, rfl⟩
    · exact .inl rfl
    · exact .inr ⟨"2", by simp, rfl⟩
  have strings {text : String} (held : ReadIn [⟨.record ["a"]⟩, ⟨.record ["b"]⟩]
        (keyed [("a", .string "1\",\"2")]) (keyed [("a", .string "1"), ("b", .string "2")])
        keyedMeta keyedMeta (.str text)) : text ∈ ["1\",\"2", "1", "2"] := by
    rcases values held with same | ⟨_, member, same⟩
    · cases same
    · rwa [FieldValue.str.inj same]
  have faithful : quoting.Faithful (ReadIn [⟨.record ["a"]⟩, ⟨.record ["b"]⟩]
      (keyed [("a", .string "1\",\"2")]) (keyed [("a", .string "1"), ("b", .string "2")])
      keyedMeta keyedMeta) := by
    constructor
    case float =>
      intro value held
      rcases values held with same | ⟨_, _, same⟩ <;> cases same
    case float_injective =>
      intro value _ held
      rcases values held with same | ⟨_, _, same⟩ <;> cases same
    case string =>
      intro text held
      apply quoting_isString
      have printable : ∀ text ∈ ["1\",\"2", "1", "2"], ∀ c ∈ text.toList, ' ' ≤ c := by decide +kernel
      exact printable text (strings held)
    case string_injective =>
      intro text other held held' same
      have apart : ∀ text ∈ ["1\",\"2", "1", "2"], ∀ other ∈ ["1\",\"2", "1", "2"],
          quoting.string text = quoting.string other → text = other := by decide +kernel
      exact apart text (strings held) other (strings held') same
    case value =>
      intro value held
      rcases values held with same | ⟨_, _, same⟩ <;> cases same
    case value_injective =>
      intro value _ held
      rcases values held with same | ⟨_, _, same⟩ <;> cases same
  intro same
  have reads := (canonical_injective quoting _ _ _ keyedMeta keyedMeta faithful).mp same
    ⟨.record ["a"]⟩ List.mem_cons_self
  have texts : FieldValue.str "1\",\"2" = FieldValue.str "1" := reads
  simp at texts

end FusionPipeline
