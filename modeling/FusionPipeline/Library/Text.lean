import Mathlib.Data.List.Basic
import Mathlib.Data.Nat.Digits.Defs

/-!
Strings as sequences of characters: splitting at a separator, prefixes, decimal text and
its UTF-8 bytes, each with the law that undoes it.
-/

namespace Text

/-- What is asked of every member of a list is decided along the list, not over all characters. -/
instance (priority := 2000) decidableBAll {α : Type} (p : α → Prop) [DecidablePred p]
    (items : List α) : Decidable (∀ item ∈ items, p item) :=
  List.decidableBAll p items

def splitOnceChars (separator : Char) : List Char → Option (List Char × List Char)
  | [] => none
  | char :: rest =>
      if char = separator then some ([], rest)
      else (splitOnceChars separator rest).map fun parts => (char :: parts.1, parts.2)

def splitOnce (separator : Char) (text : String) : Option (String × String) :=
  (splitOnceChars separator text.toList).map fun parts =>
    (String.ofList parts.1, String.ofList parts.2)

def contains (char : Char) (text : String) : Bool :=
  text.toList.contains char

def startsWith (start text : String) : Bool :=
  start.toList.isPrefixOf text.toList

theorem splitOnceChars_some_iff (separator : Char) (text before after : List Char) :
    splitOnceChars separator text = some (before, after) ↔
      text = before ++ separator :: after ∧ separator ∉ before := by
  induction text generalizing before with
  | nil => simp [splitOnceChars]
  | cons char rest ih =>
      by_cases same : char = separator
      · subst same
        cases before with
        | nil => simp [splitOnceChars, eq_comm]
        | cons first before =>
            simp only [splitOnceChars, ↓reduceIte, Option.some.injEq, Prod.mk.injEq, reduceCtorEq,
              false_and, List.cons_append, List.cons.injEq, List.mem_cons, not_or, false_iff]
            rintro ⟨⟨equal, _⟩, different, _⟩
            exact different equal
      · cases before with
        | nil => simp [splitOnceChars, same]
        | cons first before =>
            simp only [splitOnceChars, same, ↓reduceIte, Option.map_eq_some_iff, Prod.mk.injEq,
              List.cons.injEq, Prod.exists, List.cons_append, List.mem_cons, not_or]
            constructor
            · rintro ⟨left, right, found, ⟨rfl, rfl⟩, rfl⟩
              obtain ⟨equal, absent⟩ := (ih left).mp found
              exact ⟨⟨rfl, equal⟩, Ne.symm same, absent⟩
            · rintro ⟨⟨rfl, equal⟩, _, absent⟩
              exact ⟨before, after, (ih before).mpr ⟨equal, absent⟩, ⟨rfl, rfl⟩, rfl⟩

theorem splitOnce_some_iff (separator : Char) (text before after : String) :
    splitOnce separator text = some (before, after) ↔
      text.toList = before.toList ++ separator :: after.toList ∧ separator ∉ before.toList := by
  rw [← splitOnceChars_some_iff]
  simp only [splitOnce, Option.map_eq_some_iff, Prod.mk.injEq, Prod.exists]
  constructor
  · rintro ⟨left, right, found, rfl, rfl⟩
    simpa using found
  · intro found
    exact ⟨before.toList, after.toList, found, by simp, by simp⟩

/-- What stands before the first separator, and after it, is read off the whole. -/
theorem separated_inj {separator : Char} {before other after rest : List Char}
    (absent : separator ∉ before) (absentToo : separator ∉ other) :
    before ++ separator :: after = other ++ separator :: rest ↔ before = other ∧ after = rest := by
  constructor
  · intro same
    have found := (splitOnceChars_some_iff separator _ before after).mpr ⟨rfl, absent⟩
    have foundToo := (splitOnceChars_some_iff separator _ other rest).mpr ⟨same, absentToo⟩
    rw [found] at foundToo
    simpa using foundToo
  · rintro ⟨rfl, rfl⟩
    rfl

/-- A code in which no code word starts another is read back one way only. -/
theorem flatMap_injective {Symbol Letter : Type} {code : Symbol → List Letter}
    (nonempty : ∀ symbol, code symbol ≠ [])
    (prefixFree : ∀ first second rest others,
      code first ++ rest = code second ++ others → first = second)
    {left right : List Symbol} (same : left.flatMap code = right.flatMap code) : left = right := by
  induction left generalizing right with
  | nil =>
      cases right with
      | nil => rfl
      | cons second right =>
          rw [List.flatMap_nil, List.flatMap_cons, List.nil_eq, List.append_eq_nil_iff] at same
          exact absurd same.1 (nonempty second)
  | cons first left ih =>
      cases right with
      | nil =>
          rw [List.flatMap_nil, List.flatMap_cons, List.append_eq_nil_iff] at same
          exact absurd same.1 (nonempty first)
      | cons second right =>
          rw [List.flatMap_cons, List.flatMap_cons] at same
          obtain rfl := prefixFree first second _ _ same
          rw [ih (List.append_cancel_left same)]

/-- Decimal text of an unsigned number below `limit`: an optional `+`, then digits only. -/
def parseUnsigned (limit : Nat) (text : String) : Option Nat :=
  let digits := if text.toList.head? = some '+' then text.toList.tail else text.toList
  if digits ≠ [] ∧ digits.all Char.isDigit then
    let value := Nat.ofDigitChars 10 digits 0
    if value < limit then some value else none
  else none

def parseU64 (text : String) : Option UInt64 :=
  (parseUnsigned (2 ^ 64) text).map UInt64.ofNat

def parseI64 (text : String) : Option Int64 :=
  if text.toList.head? = some '-' then
    match parseUnsigned (2 ^ 63 + 1) (String.ofList text.toList.tail) with
    | some value => if text.toList.tail.head? = some '+' then none else some (Int64.ofInt (-(value : Int)))
    | none => none
  else (parseUnsigned (2 ^ 63) text).map fun value : Nat => Int64.ofInt value

def hexPadded (width value : Nat) : String :=
  String.ofList (List.leftpad width '0' (Nat.toDigits 16 value))

theorem mem_repr_isDigit {value : Nat} {char : Char} (member : char ∈ value.repr.toList) :
    char.isDigit = true := by
  rw [Nat.toList_repr] at member
  exact Nat.isDigit_of_mem_toDigits (by omega) (by omega) member

theorem not_mem_repr {value : Nat} {char : Char} (notDigit : char.isDigit = false) :
    char ∉ value.repr.toList := by
  intro member
  rw [mem_repr_isDigit member] at notDigit
  simp at notDigit

theorem repr_injective {value other : Nat} (same : value.repr = other.repr) : value = other := by
  have read (n : Nat) : Nat.ofDigitChars 10 n.repr.toList 0 = n := by
    rw [Nat.toList_repr]
    exact Nat.ofDigitChars_toDigits (by omega) (by omega)
  rw [← read value, same, read other]

theorem parseUnsigned_repr {limit value : Nat} (bound : value < limit) :
    parseUnsigned limit value.repr = some value := by
  have noSign : value.repr.toList.head? ≠ some '+' := by
    intro head
    exact not_mem_repr (by decide) (List.mem_of_mem_head? head)
  have allDigits : value.repr.toList.all Char.isDigit = true :=
    List.all_eq_true.mpr fun char member => mem_repr_isDigit member
  have nonempty : value.repr.toList ≠ [] := by
    simp [Nat.toList_repr, Nat.toDigits_ne_nil]
  have read : Nat.ofDigitChars 10 value.repr.toList 0 = value := by
    rw [Nat.toList_repr]
    exact Nat.ofDigitChars_toDigits (by omega) (by omega)
  simp only [parseUnsigned, noSign, ↓reduceIte, nonempty, allDigits, ne_eq, not_false_eq_true,
    and_self, read, bound]

@[simp] theorem parseU64_repr (value : UInt64) : parseU64 value.toNat.repr = some value := by
  have parsed := parseUnsigned_repr value.toNat_lt
  rw [parseU64, parsed]
  simp

theorem parseI64_repr {value : Nat} (bound : value < 2 ^ 63) :
    parseI64 value.repr = some (Int64.ofInt value) := by
  have noSign : value.repr.toList.head? ≠ some '-' := by
    intro head
    exact not_mem_repr (by decide) (List.mem_of_mem_head? head)
  rw [parseI64, if_neg noSign, parseUnsigned_repr bound, Option.map_some]

theorem parseI64_negSucc {value : Nat} (bound : value + 1 ≤ 2 ^ 63) :
    parseI64 ("-" ++ (value + 1).repr) = some (Int64.ofInt (-(value + 1 : Nat))) := by
  have chars : ("-" ++ (value + 1).repr).toList = '-' :: (value + 1).repr.toList := by
    rw [String.toList_append]
    rfl
  have noSign : (value + 1).repr.toList.head? ≠ some '+' := by
    intro head
    exact not_mem_repr (by decide) (List.mem_of_mem_head? head)
  have digits : parseUnsigned (2 ^ 63 + 1) (value + 1).repr = some (value + 1) :=
    parseUnsigned_repr (by omega)
  rw [parseI64, chars, List.head?_cons, if_pos rfl, List.tail_cons, String.ofList_toList, digits]
  simp only [if_neg noSign]

theorem parseI64_toString (count : Int64) : parseI64 (toString count.toInt) = some count := by
  have below := Int64.toInt_lt count
  have above := Int64.le_toInt count
  have back : Int64.ofInt count.toInt = count := Int64.ofInt_toInt count
  generalize count.toInt = value at below above back
  subst back
  cases value with
  | ofNat value =>
      rw [Int.ofNat_eq_natCast] at below
      exact parseI64_repr (by omega)
  | negSucc value => exact parseI64_negSucc (by omega)
@[simp] theorem fromUTF8_toByteArray (text : String) :
    String.fromUTF8? text.toByteArray = some text := by
  have valid : text.toByteArray.IsValidUTF8 := text.isValidUTF8
  simp only [String.fromUTF8?]
  split
  next => rfl
  next invalid => exact absurd valid invalid

theorem eq_toByteArray_of_fromUTF8 {bytes : ByteArray} {text : String}
    (decoded : String.fromUTF8? bytes = some text) : bytes = text.toByteArray := by
  simp only [String.fromUTF8?] at decoded
  split at decoded
  next =>
    obtain rfl := Option.some.inj decoded
    rfl
  · cases decoded

end Text
