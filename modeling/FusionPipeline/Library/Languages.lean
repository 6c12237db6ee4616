import Mathlib

/-!
Languages of words: repetition between two counts, words of bounded length, words that fit a row of
sets, and which concatenations can be taken apart in one way only.
-/

namespace Languages

open Computability

variable {Symbol Class Index : Type}

section Times

def times (language : Language Symbol) (low : Nat) (high : Option Nat) : Language Symbol :=
  {text | ∃ words : List (List Symbol), text = words.flatten ∧ low ≤ words.length ∧
    (∀ most ∈ high, words.length ≤ most) ∧ ∀ word ∈ words, word ∈ language}

variable {language other : Language Symbol} {low : Nat} {high : Option Nat} {text : List Symbol}

theorem mem_times : text ∈ times language low high ↔
    ∃ words : List (List Symbol), text = words.flatten ∧ low ≤ words.length ∧
      (∀ most ∈ high, words.length ≤ most) ∧ ∀ word ∈ words, word ∈ language := by
  rfl

theorem cons_flatten {symbol : Symbol} {rest : List Symbol} {words : List (List Symbol)}
    (whole : symbol :: rest = words.flatten) :
    ∃ word ∈ words, ∃ more, word = symbol :: more := by
  induction words with
  | nil => cases whole
  | cons word words ih =>
      cases word with
      | nil =>
          obtain ⟨word, member, more, same⟩ := ih whole
          exact ⟨word, List.mem_cons_of_mem _ member, more, same⟩
      | cons first more =>
          rw [List.flatten_cons, List.cons_append, List.cons.injEq] at whole
          exact ⟨_, List.mem_cons_self, more, by rw [whole.1]⟩

theorem cons_mem_kstar {symbol : Symbol} {rest : List Symbol} (member : symbol :: rest ∈ language∗) :
    ∃ more, symbol :: more ∈ language := by
  obtain ⟨words, whole, inside⟩ := Language.mem_kstar.mp member
  obtain ⟨word, among, more, rfl⟩ := cons_flatten whole
  exact ⟨more, inside _ among⟩

theorem cons_mem_times {symbol : Symbol} {rest : List Symbol}
    (member : symbol :: rest ∈ times language low high) : ∃ more, symbol :: more ∈ language := by
  obtain ⟨words, whole, _, _, inside⟩ := mem_times.mp member
  obtain ⟨word, among, more, rfl⟩ := cons_flatten whole
  exact ⟨more, inside _ among⟩

theorem nil_mem_times (member : [] ∈ times language low high) : low = 0 ∨ [] ∈ language := by
  obtain ⟨words, whole, atLeast, _, inside⟩ := mem_times.mp member
  cases words with
  | nil => exact Or.inl (Nat.le_zero.mp atLeast)
  | cons word words =>
      rw [List.flatten_cons] at whole
      obtain rfl : word = [] := (List.append_eq_nil_iff.mp whole.symm).1
      exact Or.inr (inside _ List.mem_cons_self)

end Times

section Bounded

variable {first second language : Language Symbol}

def Bounded (language : Language Symbol) : Prop :=
  ∃ bound, ∀ word ∈ language, word.length ≤ bound

theorem bounded_one : Bounded (1 : Language Symbol) := by
  refine ⟨0, ?_⟩
  intro word member
  rw [(Language.mem_one word).mp member, List.length_nil]

theorem Bounded.add (bounded : Bounded first) (also : Bounded second) : Bounded (first + second) := by
  obtain ⟨bound, short⟩ := bounded
  obtain ⟨limit, alsoShort⟩ := also
  refine ⟨max bound limit, ?_⟩
  intro word member
  rcases (Language.mem_add _ _ _).mp member with member | member
  · exact le_max_of_le_left (short word member)
  · exact le_max_of_le_right (alsoShort word member)

theorem Bounded.mul (bounded : Bounded first) (also : Bounded second) : Bounded (first * second) := by
  obtain ⟨bound, short⟩ := bounded
  obtain ⟨limit, alsoShort⟩ := also
  refine ⟨bound + limit, ?_⟩
  intro word member
  obtain ⟨front, inFirst, back, inSecond, rfl⟩ := Language.mem_mul.mp member
  rw [List.length_append]
  exact Nat.add_le_add (short front inFirst) (alsoShort back inSecond)

theorem length_flatten_le {words : List (List Symbol)} {bound : Nat}
    (short : ∀ word ∈ words, word.length ≤ bound) : words.flatten.length ≤ words.length * bound := by
  induction words with
  | nil => simp
  | cons word words ih =>
      rw [List.forall_mem_cons] at short
      rw [List.flatten_cons, List.length_append, List.length_cons, Nat.succ_mul, Nat.add_comm]
      exact Nat.add_le_add (ih short.2) short.1

theorem length_flatten_of_letters {words : List (List Symbol)}
    (letters : ∀ word ∈ words, word.length = 1) : words.flatten.length = words.length := by
  induction words with
  | nil => rfl
  | cons word words ih =>
      rw [List.forall_mem_cons] at letters
      rw [List.flatten_cons, List.length_append, List.length_cons, letters.1, ih letters.2, Nat.add_comm]

theorem Bounded.times (bounded : Bounded language) (low most : Nat) :
    Bounded (times language low (some most)) := by
  obtain ⟨bound, short⟩ := bounded
  refine ⟨most * bound, ?_⟩
  intro word member
  obtain ⟨words, rfl, _, few, inside⟩ := mem_times.mp member
  exact (length_flatten_le fun word among => short word (inside word among)).trans
    (Nat.mul_le_mul_right _ (few most rfl))

end Bounded

section Fitting

abbrev Fits (mem : Class → Symbol → Prop) (row : List Class) (word : List Symbol) : Prop :=
  List.Forall₂ mem row word

variable {mem : Class → Symbol → Prop} {row other : List Class} {word also : List Symbol}

theorem Fits.split {more : List Class} (fits : Fits mem (row ++ more) word) :
    ∃ front back, word = front ++ back ∧ Fits mem row front ∧ Fits mem more back := by
  induction row generalizing word with
  | nil => exact ⟨[], word, rfl, .nil, fits⟩
  | cons set row ih =>
      cases fits with
      | cons belongs fits =>
          obtain ⟨front, back, rfl, first, second⟩ := ih fits
          exact ⟨_ :: front, back, rfl, .cons belongs first, second⟩

theorem Fits.differ {i : Nat} {set otherSet : Class} (fits : Fits mem row word)
    (alsoFits : Fits mem other also) (here : row[i]? = some set) (there : other[i]? = some otherSet)
    (apart : ∀ symbol, mem set symbol → ¬ mem otherSet symbol) (rest more : List Symbol) :
    word ++ rest ≠ also ++ more := by
  intro same
  obtain ⟨inside, rfl⟩ := List.getElem?_eq_some_iff.mp here
  obtain ⟨alsoInside, rfl⟩ := List.getElem?_eq_some_iff.mp there
  have inWord : i < word.length := fits.length_eq ▸ inside
  have inAlso : i < also.length := alsoFits.length_eq ▸ alsoInside
  have symbol : (word ++ rest)[i]? = (also ++ more)[i]? := by rw [same]
  rw [List.getElem?_append_left inWord, List.getElem?_append_left inAlso,
    List.getElem?_eq_getElem inWord, List.getElem?_eq_getElem inAlso, Option.some.injEq] at symbol
  apply apart word[i]
  · exact (List.forall₂_iff_get.mp fits).2 i inside inWord
  · rw [symbol]
    exact (List.forall₂_iff_get.mp alsoFits).2 i alsoInside inAlso

/-- A word that ends where the other goes on, with a set that nothing after the word starts with. -/
theorem Fits.differ_next {next : Class} (fits : Fits mem row word) (alsoFits : Fits mem other also)
    (goesOn : other[row.length]? = some next) {rest : List Symbol}
    (apart : ∀ symbol, rest.head? = some symbol → ¬ mem next symbol) (more : List Symbol) :
    word ++ rest ≠ also ++ more := by
  intro same
  obtain ⟨inside, rfl⟩ := List.getElem?_eq_some_iff.mp goesOn
  have inAlso : word.length < also.length := by rwa [← fits.length_eq, ← alsoFits.length_eq]
  have symbol : (word ++ rest)[word.length]? = (also ++ more)[word.length]? := by rw [same]
  rw [List.getElem?_append_right (Nat.le_refl _), Nat.sub_self, List.getElem?_append_left inAlso,
    List.getElem?_eq_getElem inAlso, ← List.head?_eq_getElem?] at symbol
  have belongs := (List.forall₂_iff_get.mp alsoFits).2 row.length inside
    (by rwa [← alsoFits.length_eq])
  apply apart _ symbol
  simpa only [List.get_eq_getElem, fits.length_eq] using belongs

end Fitting

def Apart (first second : Language Symbol) : Prop :=
  ∀ word ∈ first, word ∉ second

section Splitting

/-- A word of both, one after the other, is taken apart in one way only. -/
def SplitsOnce (first second : Language Symbol) : Prop :=
  ∀ front ∈ first, ∀ back ∈ second, ∀ otherFront ∈ first, ∀ otherBack ∈ second,
    front ++ back = otherFront ++ otherBack → front = otherFront ∧ back = otherBack

variable {first second : Language Symbol}

theorem splitsOnce_of_apart (inFirst : Symbol → Prop)
    (holds : ∀ word ∈ first, ∀ symbol ∈ word, inFirst symbol)
    (fails : ∀ word ∈ second, ∀ symbol ∈ word, ¬ inFirst symbol) : SplitsOnce first second := by
  intro front isFirst back isSecond otherFront otherFirst otherBack otherSecond same
  have shorter {one two more rest : List Symbol} (cut : two = one ++ more)
      (onward : more ++ rest ∈ second) (whole : two ∈ first) : more = [] := by
    cases more with
    | nil => rfl
    | cons symbol more =>
        have good := holds two whole symbol (by simp [cut])
        exact absurd good (fails _ onward symbol (by simp))
  rcases List.append_eq_append_iff.mp same with ⟨more, cut, rest⟩ | ⟨more, cut, rest⟩
  · obtain rfl := shorter cut (rest ▸ isSecond) otherFirst
    exact ⟨by rw [cut, List.append_nil], by rw [rest, List.nil_append]⟩
  · obtain rfl := shorter cut (rest ▸ otherSecond) isFirst
    exact ⟨by rw [cut, List.append_nil], by rw [rest, List.nil_append]⟩

end Splitting

section Factoring

variable {branch : Index → Language Symbol}

/-- What a loop over the branches does on a text that starts with a word of one of them. -/
def branching (branch : Index → Language Symbol) (index : Index) : Language Symbol :=
  branch index * (⨆ other, branch other)∗

/-- Where no text starts with two branches and each has one length, a text of the loop is taken
apart in one way only. -/
theorem factoring_unique (apart : ∀ index other, index ≠ other →
      Apart (branching branch index) (branching branch other))
    {width : Index → Nat} (fixed : ∀ index, ∀ word ∈ branch index, word.length = width index)
    {pieces others : List (Index × List Symbol)}
    (valid : ∀ piece ∈ pieces, piece.2 ∈ branch piece.1 ∧ piece.2 ≠ [])
    (also : ∀ piece ∈ others, piece.2 ∈ branch piece.1 ∧ piece.2 ≠ [])
    (same : (pieces.map Prod.snd).flatten = (others.map Prod.snd).flatten) : pieces = others := by
  have onward {rest : List (Index × List Symbol)}
      (valid : ∀ piece ∈ rest, piece.2 ∈ branch piece.1 ∧ piece.2 ≠ []) :
      (rest.map Prod.snd).flatten ∈ (⨆ other, branch other)∗ := by
    apply Language.join_mem_kstar
    intro word member
    obtain ⟨piece, among, rfl⟩ := List.mem_map.mp member
    exact Language.mem_iSup.mpr ⟨piece.1, (valid piece among).1⟩
  induction pieces generalizing others with
  | nil =>
      cases others with
      | nil => rfl
      | cons other others =>
          rw [List.map_cons, List.flatten_cons, List.map_nil, List.flatten_nil] at same
          have empty := (List.append_eq_nil_iff.mp same.symm).1
          exact absurd empty (also other List.mem_cons_self).2
  | cons piece pieces ih =>
      rw [List.forall_mem_cons] at valid
      cases others with
      | nil =>
          rw [List.map_cons, List.flatten_cons, List.map_nil, List.flatten_nil] at same
          exact absurd (List.append_eq_nil_iff.mp same).1 valid.1.2
      | cons other others =>
          rw [List.forall_mem_cons] at also
          rw [List.map_cons, List.map_cons, List.flatten_cons, List.flatten_cons] at same
          have alike : piece.1 = other.1 := by
            by_contra differ
            have here : piece.2 ++ (pieces.map Prod.snd).flatten ∈ branching branch piece.1 :=
              Language.append_mem_mul valid.1.1 (onward valid.2)
            have there : piece.2 ++ (pieces.map Prod.snd).flatten ∈ branching branch other.1 := by
              rw [same]
              exact Language.append_mem_mul also.1.1 (onward also.2)
            exact apart _ _ differ _ here there
          have long : piece.2.length = other.2.length := by
            rw [fixed _ _ valid.1.1, fixed _ _ also.1.1, alike]
          obtain ⟨word, rest⟩ := List.append_inj same long
          rw [Prod.ext alike word, ih valid.2 also.2 rest]

end Factoring

end Languages
