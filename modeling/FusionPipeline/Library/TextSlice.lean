import FusionPipeline.Library.Utf8

/-! Text addressed by byte offsets: its bytes, and the slices a string allows. -/

namespace Utf8

def encode (text : List Char) : List UInt8 :=
  text.flatMap String.utf8EncodeChar

def size (text : List Char) : Nat :=
  (encode text).length

def dropBytes : List Char → Nat → Option (List Char)
  | text, 0 => some text
  | [], _ + 1 => none
  | char :: rest, offset + 1 =>
      if char.utf8Size ≤ offset + 1 then dropBytes rest (offset + 1 - char.utf8Size) else none

def takeBytes : List Char → Nat → Option (List Char)
  | _, 0 => some []
  | [], _ + 1 => none
  | char :: rest, offset + 1 =>
      if char.utf8Size ≤ offset + 1 then
        (takeBytes rest (offset + 1 - char.utf8Size)).map (char :: ·)
      else none

def slice (text : List Char) (start stop : Nat) : Option (List Char) :=
  if start ≤ stop then (dropBytes text start).bind fun rest => takeBytes rest (stop - start)
  else none

def findOffset (kind : Char → Bool) : List Char → Option Nat
  | [] => none
  | char :: rest => if kind char then some 0 else (findOffset kind rest).map (· + char.utf8Size)

@[simp] theorem encode_nil : encode [] = [] := by
  rfl

@[simp] theorem encode_append (before after : List Char) :
    encode (before ++ after) = encode before ++ encode after := by
  exact List.flatMap_append

@[simp] theorem size_nil : size [] = 0 := by
  rfl

@[simp] theorem size_cons (char : Char) (rest : List Char) :
    size (char :: rest) = char.utf8Size + size rest := by
  rw [size, encode, List.flatMap_cons, List.length_append, String.length_utf8EncodeChar]
  rfl

@[simp] theorem size_append (before after : List Char) :
    size (before ++ after) = size before + size after := by
  rw [size, encode_append, List.length_append]
  rfl

theorem dropBytes_append (before after : List Char) :
    dropBytes (before ++ after) (size before) = some after := by
  induction before with
  | nil =>
      rw [List.nil_append, size_nil]
      cases after <;> rfl
  | cons char before ih =>
      have positive := char.utf8Size_pos
      rw [List.cons_append, size_cons]
      obtain ⟨fewer, same⟩ := Nat.exists_eq_succ_of_ne_zero
        (show char.utf8Size + size before ≠ 0 by omega)
      rw [same, dropBytes, if_pos (by omega)]
      rwa [show fewer + 1 - char.utf8Size = size before by omega]

theorem takeBytes_append (before after : List Char) :
    takeBytes (before ++ after) (size before) = some before := by
  induction before with
  | nil =>
      rw [List.nil_append, size_nil]
      cases after <;> rfl
  | cons char before ih =>
      have positive := char.utf8Size_pos
      rw [List.cons_append, size_cons]
      obtain ⟨fewer, same⟩ := Nat.exists_eq_succ_of_ne_zero
        (show char.utf8Size + size before ≠ 0 by omega)
      rw [same, takeBytes, if_pos (by omega), show fewer + 1 - char.utf8Size = size before by omega,
        ih]
      rfl

theorem slice_append (before middle after : List Char) :
    slice (before ++ middle ++ after) (size before) (size before + size middle) = some middle := by
  rw [slice, if_pos (Nat.le_add_right _ _), List.append_assoc, dropBytes_append,
    Nat.add_sub_cancel_left]
  exact takeBytes_append middle after

theorem slice_rest (before after : List Char) :
    slice (before ++ after) (size before) (size (before ++ after)) = some after := by
  have whole := slice_append before after []
  rwa [List.append_nil, ← size_append] at whole

theorem drop_encode (before after : List Char) :
    (encode (before ++ after)).drop (size before) = encode after := by
  rw [encode_append, size, List.drop_left]

theorem encode_cons_ascii {char : Char} (ascii : char.toNat < 0x80) (rest : List Char) :
    encode (char :: rest) = char.toUInt8 :: encode rest := by
  rw [encode, List.flatMap_cons, utf8EncodeChar_ascii ascii]
  rfl

theorem utf8Size_ascii {char : Char} (ascii : char.toNat < 0x80) : char.utf8Size = 1 := by
  rw [← String.length_utf8EncodeChar, utf8EncodeChar_ascii ascii]
  rfl

theorem findOffset_append {kind : Char → Bool} {before after : List Char} {char : Char}
    (none_ : ∀ other ∈ before, kind other = false) (here : kind char = true) :
    findOffset kind (before ++ char :: after) = some (size before) := by
  induction before with
  | nil => rw [List.nil_append, findOffset, if_pos here, size_nil]
  | cons other before ih =>
      obtain ⟨first, rest⟩ := List.forall_mem_cons.mp none_
      rw [List.cons_append, findOffset, if_neg (by rw [first]; decide), ih rest, size_cons,
        Nat.add_comm]
      rfl

theorem findOffset_none {kind : Char → Bool} {text : List Char}
    (none_ : ∀ other ∈ text, kind other = false) : findOffset kind text = none := by
  induction text with
  | nil => rfl
  | cons other text ih =>
      obtain ⟨first, rest⟩ := List.forall_mem_cons.mp none_
      rw [findOffset, if_neg (by rw [first]; decide), ih rest]
      rfl

section Cuts

def Cut (text : List Char) (i : Nat) : Prop :=
  ∃ before after, text = before ++ after ∧ i = size before

theorem cut_zero (text : List Char) : Cut text 0 :=
  ⟨[], text, rfl, rfl⟩

theorem cut_size (text : List Char) : Cut text (size text) :=
  ⟨text, [], (List.append_nil text).symm, rfl⟩

theorem cut_append (before after : List Char) : Cut (before ++ after) (size before) :=
  ⟨before, after, rfl, rfl⟩

theorem Cut.le {text : List Char} {i : Nat} (cut : Cut text i) : i ≤ size text := by
  obtain ⟨before, after, rfl, rfl⟩ := cut
  rw [size_append]
  omega

theorem Cut.between {text : List Char} {i j : Nat} (first : Cut text i) (second : Cut text j)
    (order : i ≤ j) :
    ∃ before middle after, text = before ++ middle ++ after ∧ i = size before ∧
      j = size before + size middle := by
  obtain ⟨before, rest, rfl, rfl⟩ := first
  obtain ⟨longer, after, same, rfl⟩ := second
  rcases List.append_eq_append_iff.mp same with ⟨middle, rfl, rfl⟩ | ⟨surplus, rfl, rfl⟩
  · exact ⟨before, middle, after, by rw [List.append_assoc], rfl, size_append _ _⟩
  · rw [size_append] at order
    have none_ : surplus = [] := by
      cases surplus with
      | nil => rfl
      | cons char surplus =>
          have positive := char.utf8Size_pos
          rw [size_cons] at order
          omega
    subst none_
    exact ⟨longer, [], rest, by simp, by simp, by simp⟩

theorem cut_ascii {text : List Char} {i : Nat} {byte : UInt8}
    (here : (encode text)[i]? = some byte) (ascii : byte.toNat < 0x80) :
    Cut text i ∧ Cut text (i + 1) := by
  induction text generalizing i with
  | nil => cases here
  | cons char text ih =>
      have split : encode (char :: text) = String.utf8EncodeChar char ++ encode text := by
        rw [encode, List.flatMap_cons]
        rfl
      rw [split] at here
      by_cases inside : i < char.utf8Size
      · rw [List.getElem?_append_left (by rwa [String.length_utf8EncodeChar])] at here
        by_cases narrow : char.toNat < 0x80
        · rw [utf8Size_ascii narrow] at inside
          obtain rfl : i = 0 := by omega
          refine ⟨cut_zero _, [char], text, rfl, ?_⟩
          rw [size_cons, utf8Size_ascii narrow]
          rfl
        · have wide := utf8EncodeChar_wide (Nat.le_of_not_lt narrow) byte (List.mem_of_getElem? here)
          omega
      · obtain ⟨later, rfl⟩ := Nat.exists_eq_add_of_le (Nat.le_of_not_lt inside)
        rw [List.getElem?_append_right (by rw [String.length_utf8EncodeChar]; omega),
          String.length_utf8EncodeChar, Nat.add_sub_cancel_left] at here
        obtain ⟨⟨before, after, same, rfl⟩, ⟨longer, rest, other, next⟩⟩ := ih here
        refine ⟨⟨char :: before, after, by rw [same]; rfl, by rw [size_cons]⟩,
          ⟨char :: longer, rest, by rw [other]; rfl, ?_⟩⟩
        rw [size_cons, ← next]
        omega

theorem takeWhile_ends (kind : UInt8 → Bool) (bytes : List UInt8) :
    (bytes.takeWhile kind).length = bytes.length ∨
      ∃ byte, bytes[(bytes.takeWhile kind).length]? = some byte ∧ kind byte = false := by
  induction bytes with
  | nil => exact .inl rfl
  | cons byte bytes ih =>
      rw [List.takeWhile_cons]
      split
      next goes =>
        rcases ih with whole | ⟨other, here, stops⟩
        · exact .inl (by rw [List.length_cons, List.length_cons, whole])
        · exact .inr ⟨other, by rw [List.length_cons, List.getElem?_cons_succ, here], stops⟩
      next stops => exact .inr ⟨byte, rfl, Bool.eq_false_iff.mpr stops⟩

/-- A scan that only ASCII bytes end, ends between characters. -/
theorem cut_scan {text : List Char} {i : Nat} {kind : UInt8 → Bool}
    (narrow : ∀ byte, kind byte = false → byte.toNat < 0x80) (inside : i ≤ size text) :
    Cut text (i + (((encode text).drop i).takeWhile kind).length) := by
  rcases takeWhile_ends kind ((encode text).drop i) with whole | ⟨byte, here, stops⟩
  · have stop : i + (size text - i) = size text := Nat.add_sub_cancel' inside
    rw [whole, List.length_drop, ← size, stop]
    exact cut_size text
  · rw [List.getElem?_drop] at here
    exact (cut_ascii here (narrow byte stops)).1

theorem cut_scan_ascii {text : List Char} {i : Nat} {kind : UInt8 → Bool}
    (narrow : ∀ byte, kind byte = true → byte.toNat < 0x80) (cut : Cut text i) :
    Cut text (i + (((encode text).drop i).takeWhile kind).length) := by
  generalize same : (encode text).drop i = bytes
  induction bytes generalizing i with
  | nil => exact cut
  | cons byte bytes ih =>
      rw [List.takeWhile_cons]
      split
      next goes =>
        have here : (encode text)[i]? = some byte := by
          rw [← List.head?_drop, same]
          rfl
        have later := ih (cut_ascii here (narrow byte goes)).2
          (by rw [← List.tail_drop, same]; rfl)
        rwa [List.length_cons, Nat.add_comm _ 1, ← Nat.add_assoc]
      next => exact cut

theorem cut_findOffset {kind : Char → Bool} {text : List Char} {offset : Nat}
    (found : findOffset kind text = some offset) : Cut text offset := by
  induction text generalizing offset with
  | nil => cases found
  | cons char text ih =>
      rw [findOffset] at found
      split at found
      · obtain rfl := Option.some.inj found
        exact cut_zero _
      · obtain ⟨earlier, later, rfl⟩ := Option.map_eq_some_iff.mp found
        obtain ⟨before, after, rfl, rfl⟩ := ih later
        exact ⟨char :: before, after, rfl, by rw [size_cons, Nat.add_comm]⟩

theorem cut_findOffset_getD (kind : Char → Bool) (text : List Char) :
    Cut text ((findOffset kind text).getD (size text)) := by
  cases found : findOffset kind text with
  | none => exact cut_size text
  | some offset => exact cut_findOffset found

theorem findOffset_getD_pos {kind : Char → Bool} {char : Char} {rest : List Char}
    (differs : kind char = false) :
    0 < (findOffset kind (char :: rest)).getD (size (char :: rest)) := by
  have positive := char.utf8Size_pos
  rw [findOffset, if_neg (by rw [differs]; decide)]
  cases findOffset kind rest with
  | none =>
      rw [Option.map_none, Option.getD_none, size_cons]
      omega
  | some offset =>
      rw [Option.map_some, Option.getD_some]
      omega

theorem cut_under {before rest : List Char} {i : Nat} (cut : Cut rest i) :
    Cut (before ++ rest) (size before + i) := by
  obtain ⟨middle, after, rfl, rfl⟩ := cut
  exact ⟨before ++ middle, after, by rw [List.append_assoc], by rw [size_append]⟩

end Cuts

end Utf8
