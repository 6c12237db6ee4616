/-! Computations that may fail: when they succeed, and folds of them. -/

namespace Fallible

variable {Error First Second State Item : Type}

theorem ok_bind (value : First) (then_ : First → Except Error Second) :
    ((.ok value : Except Error First) >>= then_) = then_ value := by
  rfl

theorem bind_ok_iff {first : Except Error First} {then_ : First → Except Error Second}
    {value : Second} :
    (first >>= then_) = .ok value ↔ ∃ middle, first = .ok middle ∧ then_ middle = .ok value := by
  cases first with
  | error error => simp [bind, Except.bind]
  | ok middle => simp [bind, Except.bind]

theorem map_ok_iff {first : Except Error First} {change : First → Second} {value : Second} :
    first.map change = .ok value ↔ ∃ middle, first = .ok middle ∧ change middle = value := by
  cases first with
  | error error => simp [Except.map]
  | ok middle => simp [Except.map]

section Ensures

variable {bad : Error → Prop}

variable (bad) in
/-- A result has a property, or the error is none of the bad ones. -/
def Ensures (post : First → Prop) : Except Error First → Prop
  | .ok value => post value
  | .error error => ¬ bad error

theorem Ensures.mono {post weaker : First → Prop} {result : Except Error First}
    (ensured : Ensures bad post result) (implies : ∀ value, post value → weaker value) :
    Ensures bad weaker result := by
  cases result with
  | ok value => exact implies value ensured
  | error error => exact ensured

theorem Ensures.bind {post : First → Prop} {final : Second → Prop} {first : Except Error First}
    {then_ : First → Except Error Second} (ensured : Ensures bad post first)
    (goesOn : ∀ value, post value → Ensures bad final (then_ value)) :
    Ensures bad final (first >>= then_) := by
  cases first with
  | ok value => exact goesOn value ensured
  | error error => exact ensured

theorem Ensures.bind_congr {post : First → Prop} {first : Except Error First}
    {then_ other : First → Except Error Second} (ensured : Ensures bad post first)
    (same : ∀ value, post value → then_ value = other value) :
    (first >>= then_) = (first >>= other) := by
  cases first with
  | ok value => exact same value ensured
  | error error => rfl

theorem Ensures.map {post : First → Prop} {final : Second → Prop} {first : Except Error First}
    {change : First → Second} (ensured : Ensures bad post first)
    (changed : ∀ value, post value → final (change value)) :
    Ensures bad final (first.map change) := by
  cases first with
  | ok value => exact changed value ensured
  | error error => exact ensured

theorem Ensures.ok {post : First → Prop} {result : Except Error First} {value : First}
    (ensured : Ensures bad post result) (same : result = .ok value) : post value := by
  rw [same] at ensured
  exact ensured

theorem Ensures.error {post : First → Prop} {result : Except Error First} {error : Error}
    (ensured : Ensures bad post result) (same : result = .error error) : ¬ bad error := by
  rw [same] at ensured
  exact ensured

end Ensures

theorem foldlM_ok_iff {step : State → Item → Except Error State} {good : Item → Prop}
    {add : State → Item → State}
    (spec : ∀ state item next, step state item = .ok next ↔ good item ∧ next = add state item)
    {items : List Item} {state result : State} :
    items.foldlM step state = .ok result ↔
      (∀ item ∈ items, good item) ∧ result = items.foldl add state := by
  induction items generalizing state with
  | nil => simp [pure, Except.pure, eq_comm]
  | cons item items ih =>
      rw [List.foldlM_cons, bind_ok_iff]
      simp only [spec, ih, List.mem_cons, forall_eq_or_imp, List.foldl_cons]
      constructor
      · rintro ⟨_, ⟨isGood, rfl⟩, others, equal⟩
        exact ⟨⟨isGood, others⟩, equal⟩
      · rintro ⟨⟨isGood, others⟩, equal⟩
        exact ⟨_, ⟨isGood, rfl⟩, others, equal⟩

theorem foldl_appends (part : State → List First) {step : State → Item → State}
    {grow : Item → List First} (grows : ∀ state item, part (step state item) = part state ++ grow item)
    (items : List Item) (state : State) :
    part (items.foldl step state) = part state ++ items.flatMap grow := by
  induction items generalizing state with
  | nil => simp
  | cons item items ih => rw [List.foldl_cons, ih, grows, List.flatMap_cons, List.append_assoc]

end Fallible
