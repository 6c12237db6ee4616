import FusionPipeline.Library.Text

/-!
The text of JSON values, and that it is self-delimiting: followed by a comma or a closing bracket, a
text is told from what comes after it.
-/

namespace JsonText

section Grammar

def isSpace (c : Char) : Bool :=
  c == ' ' || c == '\t' || c == '\n' || c == '\r'

def isHex (c : Char) : Bool :=
  c.isDigit || ('a' ≤ c && c ≤ 'f') || ('A' ≤ c && c ≤ 'F')

def Spaces (text : List Char) : Prop :=
  ∀ c ∈ text, isSpace c = true

def Digits (text : List Char) : Prop :=
  text ≠ [] ∧ ∀ c ∈ text, c.isDigit = true

inductive Quoted : List Char → Prop
  | close : Quoted ['"']
  | plain {c rest} : ' ' ≤ c → c ≠ '"' → c ≠ '\\' → Quoted rest → Quoted (c :: rest)
  | escape {c rest} : c ∈ ['"', '\\', '/', 'b', 'f', 'n', 'r', 't'] → Quoted rest →
      Quoted ('\\' :: c :: rest)
  | unicode {hex rest} : hex.length = 4 → (∀ c ∈ hex, isHex c = true) → Quoted rest →
      Quoted ('\\' :: 'u' :: (hex ++ rest))

def IsString (text : List Char) : Prop :=
  ∃ rest, text = '"' :: rest ∧ Quoted rest

structure IsNumber (text sign whole fraction exponent : List Char) : Prop where
  same : text = sign ++ whole ++ fraction ++ exponent
  sign : sign = [] ∨ sign = ['-']
  whole : Digits whole ∧ (whole = ['0'] ∨ whole.head? ≠ some '0')
  fraction : fraction = [] ∨ ∃ digits, fraction = '.' :: digits ∧ Digits digits
  exponent : exponent = [] ∨ ∃ e sign digits, exponent = e :: (sign ++ digits) ∧
    (e = 'e' ∨ e = 'E') ∧ (sign = [] ∨ sign = ['+'] ∨ sign = ['-']) ∧ Digits digits

/-- What a text is: a value, the elements of an array or the members of an object. -/
inductive Part where
  | value
  | elements
  | members

inductive Derives : Part → List Char → Prop
  | literal {text} : text ∈ ["null".toList, "true".toList, "false".toList] → Derives .value text
  | number {text sign whole fraction exponent} :
      IsNumber text sign whole fraction exponent → Derives .value text
  | string {text} : IsString text → Derives .value text
  | emptyArray {spaces} : Spaces spaces → Derives .value ('[' :: (spaces ++ [']']))
  | array {inner} : Derives .elements inner → Derives .value ('[' :: (inner ++ [']']))
  | emptyObject {spaces} : Spaces spaces → Derives .value ('{' :: (spaces ++ ['}']))
  | object {inner} : Derives .members inner → Derives .value ('{' :: (inner ++ ['}']))
  | last {before text after} : Spaces before → Derives .value text → Spaces after →
      Derives .elements (before ++ text ++ after)
  | element {before text after rest} : Spaces before → Derives .value text → Spaces after →
      Derives .elements rest → Derives .elements (before ++ text ++ after ++ ',' :: rest)
  | lastMember {before key between colon text after} : Spaces before → IsString key →
      Spaces between → Spaces colon → Derives .value text → Spaces after →
        Derives .members (before ++ key ++ between ++ ':' :: (colon ++ text ++ after))
  | member {before key between colon text after rest} : Spaces before → IsString key →
      Spaces between → Spaces colon → Derives .value text → Spaces after → Derives .members rest →
        Derives .members (before ++ key ++ between ++ ':' :: (colon ++ text ++ after ++ ',' :: rest))

end Grammar

section Scan

inductive Scan where
  | plain (depth : Nat)
  | quoted (depth : Nat)
  | escaped (depth : Nat)

/-- A scan stops at a comma or a closing bracket that no open bracket or string holds. -/
def step : Scan → Char → Option Scan
  | .plain depth, c =>
      if c = '"' then some (.quoted depth)
      else if c = '[' ∨ c = '{' then some (.plain (depth + 1))
      else if c = ']' ∨ c = '}' then if depth = 0 then none else some (.plain (depth - 1))
      else if c = ',' ∧ depth = 0 then none
      else some (.plain depth)
  | .quoted depth, c =>
      if c = '"' then some (.plain depth)
      else if c = '\\' then some (.escaped depth)
      else some (.quoted depth)
  | .escaped depth, _ => some (.quoted depth)

def scan : Scan → List Char → Option Scan
  | state, [] => some state
  | state, c :: rest => (step state c).bind fun state => scan state rest

def Through (depth : Nat) (text : List Char) : Prop :=
  ∀ inside, depth ≤ inside → scan (.plain inside) text = some (.plain inside)

theorem scan_append (state : Scan) (front back : List Char) :
    scan state (front ++ back) = (scan state front).bind fun state => scan state back := by
  induction front generalizing state with
  | nil => rfl
  | cons c front ih =>
      rw [List.cons_append, scan, scan]
      cases step state c with
      | none => rfl
      | some next => exact ih next

theorem Through.append {depth : Nat} {front back : List Char} (first : Through depth front)
    (second : Through depth back) : Through depth (front ++ back) := by
  intro inside more
  rw [scan_append, first inside more, Option.bind_some, second inside more]

theorem Through.deeper {depth : Nat} {text : List Char} (through : Through depth text) :
    Through (depth + 1) text := by
  intro inside more
  exact through inside (by omega)

def Neutral (c : Char) : Prop :=
  c ∉ ['"', '[', '{', ']', '}', ',']

instance (c : Char) : Decidable (Neutral c) :=
  inferInstanceAs (Decidable (c ∉ _))

theorem step_neutral {c : Char} (neutral : Neutral c) (depth : Nat) :
    step (.plain depth) c = some (.plain depth) := by
  simp only [Neutral, List.mem_cons, List.not_mem_nil, or_false, not_or] at neutral
  obtain ⟨notQuote, notOpen, notOpen', notClose, notClose', notComma⟩ := neutral
  simp only [step, notQuote, notOpen, notOpen', notClose, notClose', notComma, or_self, if_false,
    false_and]

theorem through_neutral {text : List Char} (neutral : ∀ c ∈ text, Neutral c) (depth : Nat) :
    Through depth text := by
  intro inside more
  induction text with
  | nil => rfl
  | cons c rest ih =>
      rw [List.forall_mem_cons] at neutral
      rw [scan, step_neutral neutral.1, Option.bind_some, ih neutral.2]

theorem neutral_digit {c : Char} (isDigit : c.isDigit = true) : Neutral c := by
  intro member
  simp only [List.mem_cons, List.not_mem_nil, or_false] at member
  rcases member with rfl | rfl | rfl | rfl | rfl | rfl <;> cases isDigit

theorem neutral_space {c : Char} (space : isSpace c = true) : Neutral c := by
  intro member
  simp only [List.mem_cons, List.not_mem_nil, or_false] at member
  rcases member with rfl | rfl | rfl | rfl | rfl | rfl <;> cases space

theorem scan_hex {hex : List Char} (areHex : ∀ c ∈ hex, isHex c = true) (depth : Nat) :
    scan (.quoted depth) hex = some (.quoted depth) := by
  induction hex with
  | nil => rfl
  | cons c rest ih =>
      rw [List.forall_mem_cons] at areHex
      have notQuote : c ≠ '"' := by
        rintro rfl
        cases areHex.1
      have notEscape : c ≠ '\\' := by
        rintro rfl
        cases areHex.1
      rw [scan, step, if_neg notQuote, if_neg notEscape, Option.bind_some, ih areHex.2]

theorem scan_quoted {text : List Char} (quoted : Quoted text) (depth : Nat) :
    scan (.quoted depth) text = some (.plain depth) := by
  induction quoted with
  | close => rfl
  | plain _ notQuote notEscape _ ih =>
      rw [scan, step, if_neg notQuote, if_neg notEscape, Option.bind_some, ih]
  | escape _ _ ih => exact ih
  | @unicode hex rest _ areHex _ ih =>
      change scan (.quoted depth) (hex ++ rest) = _
      rw [scan_append, scan_hex areHex, Option.bind_some, ih]

theorem through_string {text : List Char} (isString : IsString text) : Through 0 text := by
  obtain ⟨rest, rfl, quoted⟩ := isString
  intro inside _
  exact scan_quoted quoted inside

theorem through_number {text sign whole fraction exponent : List Char}
    (number : IsNumber text sign whole fraction exponent) : Through 0 text := by
  rw [number.same]
  have digits {text : List Char} (are : Digits text) : Through 0 text :=
    through_neutral (fun c member => neutral_digit (are.2 c member)) 0
  have one {c : Char} (neutral : Neutral c) : Through 0 [c] :=
    through_neutral (by rintro _ (_ | ⟨_, ⟨⟩⟩); exact neutral) 0
  refine ((Through.append ?_ ?_).append ?_).append ?_
  · rcases number.sign with rfl | rfl
    · intro _ _; rfl
    · exact one (by decide)
  · exact digits number.whole.1
  · rcases number.fraction with rfl | ⟨text, rfl, are⟩
    · intro _ _; rfl
    · exact (one (by decide)).append (digits are)
  · rcases number.exponent with rfl | ⟨e, sign, text, rfl, isE, isSign, are⟩
    · intro _ _; rfl
    · rw [← List.singleton_append]
      refine Through.append (one ?_) (Through.append ?_ (digits are))
      · rcases isE with rfl | rfl <;> decide
      · rcases isSign with rfl | rfl | rfl
        · intro _ _; rfl
        · exact one (by decide)
        · exact one (by decide)

theorem through_spaces {text : List Char} (spaces : Spaces text) (depth : Nat) : Through depth text :=
  through_neutral (fun c member => neutral_space (spaces c member)) depth

theorem through_brackets {inner : List Char} {open_ close : Char}
    (opens : open_ = '[' ∨ open_ = '{') (closes : close = ']' ∨ close = '}')
    (through : Through 1 inner) : Through 0 (open_ :: (inner ++ [close])) := by
  intro inside _
  have opened : step (.plain inside) open_ = some (.plain (inside + 1)) := by
    rcases opens with rfl | rfl <;> rfl
  have closed : step (.plain (inside + 1)) close = some (.plain inside) := by
    rcases closes with rfl | rfl <;> rfl
  rw [scan, opened, Option.bind_some, scan_append, through (inside + 1) (by omega), Option.bind_some,
    scan, closed, Option.bind_some, scan]

theorem through_comma : Through 1 [','] := by
  intro inside more
  have held : inside ≠ 0 := by omega
  simp [scan, step, held]

theorem through_derives {part : Part} {text : List Char} (derives : Derives part text) :
    match part with
    | .value => Through 0 text
    | .elements => Through 1 text
    | .members => Through 1 text := by
  induction derives with
  | literal member =>
      refine through_neutral ?_ 0
      simp only [List.mem_cons, List.not_mem_nil, or_false] at member
      rcases member with rfl | rfl | rfl <;> decide
  | number isNumber => exact through_number isNumber
  | string isString => exact through_string isString
  | emptyArray spaces => exact through_brackets (.inl rfl) (.inl rfl) (through_spaces spaces 1)
  | array _ ih => exact through_brackets (.inl rfl) (.inl rfl) ih
  | emptyObject spaces => exact through_brackets (.inr rfl) (.inr rfl) (through_spaces spaces 1)
  | object _ ih => exact through_brackets (.inr rfl) (.inr rfl) ih
  | last before _ after ih =>
      exact ((through_spaces before 1).append ih.deeper).append (through_spaces after 1)
  | element before _ after _ value rest =>
      have first := ((through_spaces before 1).append value.deeper).append (through_spaces after 1)
      exact first.append (through_comma.append rest)
  | lastMember before key between colon _ after value =>
      have name := ((through_spaces before 1).append (through_string key).deeper).append
        (through_spaces between 1)
      have held := ((through_spaces colon 1).append value.deeper).append (through_spaces after 1)
      have colons : Through 1 [':'] := through_neutral (by decide) 1
      exact name.append (colons.append held)
  | member before key between colon _ after _ value rest =>
      have name := ((through_spaces before 1).append (through_string key).deeper).append
        (through_spaces between 1)
      have held := ((through_spaces colon 1).append value.deeper).append (through_spaces after 1)
      have colons : Through 1 [':'] := through_neutral (by decide) 1
      exact name.append (colons.append (held.append (through_comma.append rest)))

end Scan

section Delimited

def Ends (c : Char) : Prop :=
  c = ',' ∨ c = ']' ∨ c = '}'

theorem step_ends {c : Char} (ends : Ends c) : step (.plain 0) c = none := by
  rcases ends with rfl | rfl | rfl <;> rfl

theorem scan_unique {state : Scan} {one two after more : List Char} {c d : Char}
    (first : scan state one = some (.plain 0)) (second : scan state two = some (.plain 0))
    (ends : Ends c) (ends' : Ends d) (same : one ++ c :: after = two ++ d :: more) : one = two := by
  induction one generalizing state two with
  | nil =>
      obtain rfl := Option.some.inj first
      cases two with
      | nil => rfl
      | cons e two =>
          obtain ⟨rfl, _⟩ := List.cons.inj same
          rw [scan, step_ends ends] at second
          cases second
  | cons e one ih =>
      cases two with
      | nil =>
          obtain rfl := Option.some.inj second
          obtain ⟨rfl, _⟩ := List.cons.inj same
          rw [scan, step_ends ends'] at first
          cases first
      | cons f two =>
          obtain ⟨rfl, later⟩ := List.cons.inj same
          obtain ⟨next, stepped, scanned⟩ := Option.bind_eq_some_iff.mp first
          obtain ⟨_, stepped', scanned'⟩ := Option.bind_eq_some_iff.mp second
          obtain rfl := Option.some.inj (stepped.symm.trans stepped')
          rw [ih scanned scanned' later]

/-- Texts listed with commas between them and a bracket after them are told apart. -/
theorem separated_unique {ones twos : List (List Char)} (length : ones.length = twos.length)
    (through : ∀ text ∈ ones, Through 0 text) (through' : ∀ text ∈ twos, Through 0 text)
    (same : [','].intercalate ones ++ [']'] = [','].intercalate twos ++ [']']) : ones = twos := by
  induction ones generalizing twos with
  | nil =>
      exact (List.eq_nil_of_length_eq_zero length.symm).symm
  | cons one ones ih =>
      obtain ⟨two, twos, rfl⟩ := List.exists_cons_of_length_eq_add_one length.symm
      rw [List.forall_mem_cons] at through through'
      rw [List.length_cons, List.length_cons, Nat.add_right_cancel_iff] at length
      have first := through.1 0 (Nat.le_refl 0)
      have second := through'.1 0 (Nat.le_refl 0)
      cases ones with
      | nil =>
          obtain rfl := List.eq_nil_of_length_eq_zero length.symm
          rw [List.intercalate_singleton, List.intercalate_singleton, List.append_cancel_right_eq] at same
          rw [same]
      | cons next ones =>
          obtain ⟨next', twos, rfl⟩ := List.exists_cons_of_length_eq_add_one length.symm
          rw [List.intercalate_cons_cons, List.intercalate_cons_cons, List.append_assoc,
            List.append_assoc, List.append_assoc, List.append_assoc] at same
          obtain rfl := scan_unique first second (.inl rfl) (.inl rfl) same
          rw [List.append_cancel_left_eq, List.append_cancel_left_eq] at same
          rw [ih length through.2 through'.2 same]

end Delimited

end JsonText
