import Mathlib.Data.List.Basic

/-!
Items applied to a state one after another, where those that are valid for it may be applied in any
order and any number of times.
-/

namespace Commuting

variable {State Item : Type}

/-- Valid items stay valid, may change places, and do nothing the second time. -/
structure Lawful (apply : State → Item → State) (Valid : State → Item → Prop) : Prop where
  keeps : ∀ state item other, Valid state item → Valid state other → Valid (apply state item) other
  comm : ∀ state item other, Valid state item → Valid state other →
    apply (apply state item) other = apply (apply state other) item
  again : ∀ state item, Valid state item → apply (apply state item) item = apply state item

variable {apply : State → Item → State} {Valid : State → Item → Prop}
  (lawful : Lawful apply Valid)
include lawful

theorem foldl_apply {state : State} {items : List Item} {item : Item}
    (valid : ∀ other ∈ items, Valid state other) (here : Valid state item) :
    items.foldl apply (apply state item) = apply (items.foldl apply state) item := by
  induction items generalizing state with
  | nil => rfl
  | cons first rest ih =>
      rw [List.forall_mem_cons] at valid
      rw [List.foldl_cons, List.foldl_cons, lawful.comm state item first here valid.1]
      apply ih
      · intro other member
        exact lawful.keeps state first other valid.1 (valid.2 other member)
      · exact lawful.keeps state first item valid.1 here

theorem foldl_member {state : State} {items : List Item} {item : Item}
    (valid : ∀ other ∈ items, Valid state other) (member : item ∈ items) :
    items.foldl apply (apply state item) = items.foldl apply state := by
  induction items generalizing state with
  | nil => cases member
  | cons first rest ih =>
      have here := valid item member
      rw [List.forall_mem_cons] at valid
      have later : ∀ other ∈ rest, Valid (apply state first) other := fun other member =>
        lawful.keeps state first other valid.1 (valid.2 other member)
      rw [List.foldl_cons, List.foldl_cons]
      rcases List.mem_cons.mp member with rfl | inRest
      · rw [lawful.again state item here]
      · rw [lawful.comm state item first here valid.1, ih later inRest]

/-- Items applied before others that include them change nothing. -/
theorem foldl_subset {state : State} {items others : List Item}
    (valid : ∀ other ∈ others, Valid state other) (subset : items ⊆ others) :
    others.foldl apply (items.foldl apply state) = others.foldl apply state := by
  induction items generalizing state with
  | nil => rfl
  | cons first rest ih =>
      obtain ⟨member, inOthers⟩ := List.cons_subset.mp subset
      have here := valid first member
      have later : ∀ other ∈ others, Valid (apply state first) other := fun other inside =>
        lawful.keeps state first other here (valid other inside)
      rw [List.foldl_cons, ih later inOthers, foldl_member lawful valid member]

theorem foldl_swap {state : State} {items others : List Item}
    (valid : ∀ item ∈ items, Valid state item) (also : ∀ other ∈ others, Valid state other) :
    others.foldl apply (items.foldl apply state) = items.foldl apply (others.foldl apply state) := by
  induction items generalizing state with
  | nil => rfl
  | cons first rest ih =>
      rw [List.forall_mem_cons] at valid
      have later {item : Item} (held : Valid state item) : Valid (apply state first) item :=
        lawful.keeps state first item valid.1 held
      rw [List.foldl_cons, List.foldl_cons, ih (fun item member => later (valid.2 item member))
        (fun other member => later (also other member)), foldl_apply lawful also valid.1]

/-- The state depends on which items there are, not on their order or number. -/
theorem foldl_same {state : State} {items others : List Item}
    (valid : ∀ item ∈ items, Valid state item) (same : ∀ item, item ∈ items ↔ item ∈ others) :
    items.foldl apply state = others.foldl apply state := by
  have also : ∀ other ∈ others, Valid state other := fun other member =>
    valid other ((same other).mpr member)
  calc
    items.foldl apply state = items.foldl apply (others.foldl apply state) :=
      (foldl_subset lawful valid fun other => (same other).mpr).symm
    _ = others.foldl apply (items.foldl apply state) := (foldl_swap lawful valid also).symm
    _ = others.foldl apply state := foldl_subset lawful also fun item => (same item).mp

end Commuting
