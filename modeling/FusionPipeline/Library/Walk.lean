import Mathlib.Data.List.Basic

/-!
Values with parts named by segments, read and written along a path of segments. A write makes the
path exist: a missing part starts as the blank value.
-/

namespace Walk

variable {Value Segment : Type}

section Walking

variable (child : Value → Segment → Option Value) (store : Value → Segment → Value → Value)
  (blank : Value)

def read : Value → List Segment → Option Value
  | value, [] => some value
  | value, segment :: rest => (child value segment).bind fun part => read part rest

def write : Value → List Segment → Value → Value
  | _, [], new => new
  | value, segment :: rest, new =>
      store value segment (write ((child value segment).getD blank) rest new)

/-- What storing a part does to the parts of a value; it may take the others away where the value
does not keep them. -/
structure Lawful (keeps : Value → Segment → Prop) : Prop where
  child_store : ∀ value segment part, child (store value segment part) segment = some part
  store_store : ∀ value segment part other,
    store (store value segment part) segment other = store value segment other
  store_child : ∀ value segment part, child value segment = some part →
    store value segment part = value
  child_other : ∀ value segment other part, keeps value segment → other ≠ segment →
    child (store value segment part) other = child value other
  store_comm : ∀ value segment other part more, segment ≠ other →
    (child value segment).isSome → (child value other).isSome →
      store (store value segment part) other more = store (store value other more) segment part
  child_keeps : ∀ value segment, (child value segment).isSome → keeps value segment
  child_blank : ∀ segment, child blank segment = none

end Walking

variable {child : Value → Segment → Option Value} {store : Value → Segment → Value → Value}
  {blank : Value} {keeps : Value → Segment → Prop}

variable (child keeps) in
/-- Every value on the way along the path, as long as the other path goes the same way, keeps its
other parts. -/
def Clear (value : Value) (path other : List Segment) : Prop :=
  ∀ front segment back inner, path = front ++ segment :: back → front <+: other →
    read child value front = some inner → keeps inner segment

theorem read_append (value : Value) (front back : List Segment) :
    read child value (front ++ back) =
      (read child value front).bind fun inner => read child inner back := by
  induction front generalizing value with
  | nil => rfl
  | cons segment front ih =>
      rw [List.cons_append, read, read]
      cases child value segment with
      | none => rfl
      | some part => exact ih part

theorem read_blank (lawful : Lawful child store blank keeps) {path : List Segment}
    (named : path ≠ []) : read child blank path = none := by
  obtain ⟨segment, rest, rfl⟩ := List.exists_cons_of_ne_nil named
  rw [read, lawful.child_blank, Option.bind_none]

theorem Clear.tail {value part : Value} {segment : Segment} {rest other : List Segment}
    (clear : Clear child keeps value (segment :: rest) (segment :: other))
    (found : child value segment = some part) : Clear child keeps part rest other := by
  intro front next back inner same ahead reached
  apply clear (segment :: front) next back inner
  · rw [same, List.cons_append]
  · rwa [List.cons_prefix_cons, and_iff_right rfl]
  · rw [read, found]
    exact reached

theorem clear_blank (lawful : Lawful child store blank keeps) (keeping : ∀ segment, keeps blank segment)
    (path other : List Segment) : Clear child keeps blank path other := by
  intro front segment back inner same _ reached
  cases front with
  | nil =>
      obtain rfl := Option.some.inj reached
      exact keeping segment
  | cons next front =>
      rw [read_blank lawful (List.cons_ne_nil _ _)] at reached
      cases reached

theorem clear_of_read (lawful : Lawful child store blank keeps) {value : Value}
    {path : List Segment} (reached : (read child value path).isSome) (other : List Segment) :
    Clear child keeps value path other := by
  intro front segment back inner same _ found
  rw [same, read_append, found, Option.bind_some, read] at reached
  apply lawful.child_keeps
  cases step : child inner segment with
  | none =>
      rw [step] at reached
      cases reached
  | some part => rfl

theorem write_append {value inner : Value} (new : Value) {front : List Segment}
    (reached : read child value front = some inner) (back : List Segment) :
    write child store blank value (front ++ back) new =
      write child store blank value front (write child store blank inner back new) := by
  induction front generalizing value with
  | nil =>
      obtain rfl := Option.some.inj reached
      rfl
  | cons segment front ih =>
      obtain ⟨part, found, later⟩ := Option.bind_eq_some_iff.mp reached
      rw [List.cons_append, write, write, found, Option.getD_some, ih later]

section Laws

variable (lawful : Lawful child store blank keeps)
include lawful

theorem read_write (value new : Value) (path : List Segment) :
    read child (write child store blank value path new) path = some new := by
  induction path generalizing value with
  | nil => rfl
  | cons segment rest ih => rw [write, read, lawful.child_store, Option.bind_some, ih]

theorem write_write (value first second : Value) (path : List Segment) :
    write child store blank (write child store blank value path first) path second =
      write child store blank value path second := by
  induction path generalizing value with
  | nil => rfl
  | cons segment rest ih =>
      rw [write, write, lawful.child_store, Option.getD_some, lawful.store_store, ih, write]

theorem write_read {value part : Value} {path : List Segment}
    (reached : read child value path = some part) : write child store blank value path part = value := by
  induction path generalizing value with
  | nil => exact (Option.some.inj reached).symm
  | cons segment rest ih =>
      obtain ⟨inner, found, later⟩ := Option.bind_eq_some_iff.mp reached
      rw [write, found, Option.getD_some, ih later, lawful.store_child value segment inner found]

theorem read_under (value new : Value) (path rest : List Segment) :
    read child (write child store blank value path new) (path ++ rest) = read child new rest := by
  rw [read_append, read_write lawful, Option.bind_some]

theorem read_above (value new : Value) (front back : List Segment) :
    read child (write child store blank value (front ++ back) new) front =
      some (write child store blank ((read child value front).getD blank) back new) := by
  induction front generalizing value with
  | nil => rfl
  | cons segment front ih =>
      rw [List.cons_append, write, read, lawful.child_store, Option.bind_some, ih, read]
      cases child value segment with
      | some part => rfl
      | none =>
          rw [Option.getD_none, Option.bind_none, Option.getD_none]
          cases front with
          | nil => rfl
          | cons next front =>
              rw [read_blank lawful (List.cons_ne_nil next front), Option.getD_none]

/-- A path that neither leads through the written one nor ends on the way there reads as before. -/
theorem read_other (keeping : ∀ segment, keeps blank segment) {value : Value} (new : Value)
    {path other : List Segment} (clear : Clear child keeps value path other) (under : ¬ path <+: other)
    (above : ¬ other <+: path) :
    read child (write child store blank value path new) other = read child value other := by
  induction path generalizing value other with
  | nil => exact absurd List.nil_prefix under
  | cons segment rest ih =>
      cases other with
      | nil => exact absurd List.nil_prefix above
      | cons next other =>
          rw [write, read, read]
          by_cases same : next = segment
          · subst same
            rw [List.cons_prefix_cons, and_iff_right rfl] at under above
            rw [lawful.child_store, Option.bind_some]
            cases found : child value next with
            | none =>
                have named : other ≠ [] := by
                  rintro rfl
                  exact above List.nil_prefix
                rw [Option.getD_none, ih (clear_blank lawful keeping rest other) under above,
                  read_blank lawful named, Option.bind_none]
            | some part =>
                rw [Option.getD_some, ih (clear.tail found) under above, Option.bind_some]
          · have free := clear [] segment rest value rfl List.nil_prefix rfl
            rw [lawful.child_other value segment next _ free same]

/-- Writes at two places that exist, neither inside the other, may be done in either order. -/
theorem write_comm {value : Value} (first second : Value) {path other : List Segment}
    (reached : (read child value path).isSome) (also : (read child value other).isSome)
    (under : ¬ path <+: other) (above : ¬ other <+: path) :
    write child store blank (write child store blank value path first) other second =
      write child store blank (write child store blank value other second) path first := by
  induction path generalizing value other with
  | nil => exact absurd List.nil_prefix under
  | cons segment rest ih =>
      cases other with
      | nil => exact absurd List.nil_prefix above
      | cons next other =>
          obtain ⟨end_, walked⟩ := Option.isSome_iff_exists.mp reached
          obtain ⟨part, found, later⟩ := Option.bind_eq_some_iff.mp walked
          obtain ⟨end', walked'⟩ := Option.isSome_iff_exists.mp also
          obtain ⟨part', found', later'⟩ := Option.bind_eq_some_iff.mp walked'
          by_cases same : next = segment
          · subst same
            obtain rfl := Option.some.inj (found.symm.trans found')
            rw [List.cons_prefix_cons, and_iff_right rfl] at under above
            have inner := ih (Option.isSome_iff_exists.mpr ⟨_, later⟩)
              (Option.isSome_iff_exists.mpr ⟨_, later'⟩) under above
            rw [write, write, lawful.child_store, Option.getD_some, lawful.store_store, found,
              Option.getD_some, inner, write, write, lawful.child_store, Option.getD_some,
              lawful.store_store, found, Option.getD_some]
          · have keeps_ : keeps value segment :=
              lawful.child_keeps value segment (Option.isSome_iff_exists.mpr ⟨_, found⟩)
            have keeps' : keeps value next :=
              lawful.child_keeps value next (Option.isSome_iff_exists.mpr ⟨_, found'⟩)
            simp only [write]
            rw [lawful.child_other value segment next _ keeps_ same,
              lawful.child_other value next segment _ keeps' (Ne.symm same)]
            exact lawful.store_comm value segment next _ _ (Ne.symm same)
              (Option.isSome_iff_exists.mpr ⟨_, found⟩) (Option.isSome_iff_exists.mpr ⟨_, found'⟩)

end Laws

end Walk
