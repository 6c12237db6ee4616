/-! A queue in the order its entries are due, of which one a slot leaves once it is due. It is known
by the slots its entries are due in. -/

namespace Draining

/-- No more entries than `most` wait, and each that is due leaves before `most` slots have passed,
however many go before it. -/
structure Soon (most now : Nat) (due : List Nat) : Prop where
  waiting : due.length ≤ most
  leaves : ∀ (ahead slot : Nat), due[ahead]? = some slot → slot ≤ now → now + ahead < slot + most

variable {most now slot : Nat} {due : List Nat}

theorem Soon.head (soon : Soon most now (slot :: due)) (isDue : slot ≤ now) : now < slot + most := by
  have left := soon.leaves 0 slot rfl isDue
  omega

theorem Soon.drain (soon : Soon most now (slot :: due)) : Soon most (now + 1) due := by
  have length := soon.waiting
  rw [List.length_cons] at length
  constructor
  · omega
  · intro ahead other listed isDue
    by_cases late : other ≤ now
    · have left := soon.leaves (ahead + 1) other listed late
      omega
    · have inside := (List.getElem?_eq_some_iff.mp listed).1
      omega

theorem Soon.quiet (early : ∀ slot ∈ due, now < slot) (waiting : due.length ≤ most) :
    Soon most (now + 1) due := by
  refine ⟨waiting, ?_⟩
  intro ahead other listed isDue
  obtain ⟨inside, same⟩ := List.getElem?_eq_some_iff.mp listed
  have notYet := early other (List.mem_of_getElem? listed)
  omega

end Draining
