/-! Questions put one after another to something that keeps a state and need not know all
the answers. -/

namespace Oracle

variable {World Question Answer : Type} {reply : Question → World → Option (Answer × World)}
  {world last : World} {first second : List (Question × Answer)}

/-- Each question gets its answer in the state the ones before it left. -/
inductive Answered (reply : Question → World → Option (Answer × World)) :
    World → List (Question × Answer) → World → Prop
  | done {world : World} : Answered reply world [] world
  | ask {world later last : World} {question : Question} {answer : Answer}
      {asks : List (Question × Answer)} (replied : reply question world = some (answer, later))
      (rest : Answered reply later asks last) : Answered reply world ((question, answer) :: asks) last

theorem Answered.one {question : Question} {answer : Answer}
    (replied : reply question world = some (answer, last)) :
    Answered reply world [(question, answer)] last :=
  .ask replied .done

theorem Answered.append {middle : World} (before : Answered reply world first middle)
    (after : Answered reply middle second last) : Answered reply world (first ++ second) last := by
  induction before with
  | done => exact after
  | ask replied _ ih => exact .ask replied (ih after)

theorem Answered.split (answered : Answered reply world (first ++ second) last) :
    ∃ middle, Answered reply world first middle ∧ Answered reply middle second last := by
  induction first generalizing world with
  | nil => exact ⟨world, .done, answered⟩
  | cons ask first ih =>
      rw [List.cons_append] at answered
      cases answered with
      | ask replied rest =>
          obtain ⟨middle, before, after⟩ := ih rest
          exact ⟨middle, .ask replied before, after⟩

end Oracle
