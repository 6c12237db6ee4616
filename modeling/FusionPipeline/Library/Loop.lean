import Mathlib.Data.List.Basic
import FusionPipeline.Library.Fallible

/-!
A `while` loop as a function: at most `fuel` rounds of a step that may fault. Where every
round lowers a measure, that much fuel is enough, and the loop then satisfies the equation
its source text states.
-/

namespace Loop

variable {State Fault : Type} (more : State → Bool) (step : State → Except Fault State)

def run : Nat → State → Except Fault State
  | 0, state => .ok state
  | fuel + 1, state => if more state then (step state).bind (run fuel) else .ok state

def Lowers (measure : State → Nat) : Prop :=
  ∀ state next, more state = true → step state = .ok next → measure next < measure state

variable {more step} {measure : State → Nat}

theorem run_done {state : State} (done : more state = false) (fuel : Nat) :
    run more step fuel state = .ok state := by
  cases fuel with
  | zero => rfl
  | succ fuel => simp [run, done]

/-- Fuel past the measure changes nothing. -/
theorem run_succ (lowers : Lowers more step measure)
    (stops : ∀ state, measure state = 0 → more state = false) {state : State} {fuel : Nat}
    (enough : measure state ≤ fuel) :
    run more step (fuel + 1) state = run more step fuel state := by
  induction fuel generalizing state with
  | zero =>
      have done := stops state (by omega)
      rw [run_done done, run_done done]
  | succ fuel ih =>
      rw [run, run]
      split
      next going =>
        cases stepped : step state with
        | error fault => rfl
        | ok next =>
            have lower := lowers state next going stepped
            exact ih (by omega)
      next => rfl

theorem run_unfold (lowers : Lowers more step measure)
    (stops : ∀ state, measure state = 0 → more state = false) {state : State} {fuel : Nat}
    (enough : measure state ≤ fuel) :
    run more step fuel state =
      if more state then (step state).bind (run more step fuel) else .ok state := by
  rw [← run_succ lowers stops enough, run]

theorem run_invariant {Invariant : State → Prop}
    (preserved : ∀ state next, Invariant state → more state = true → step state = .ok next →
      Invariant next)
    {state final : State} {fuel : Nat} (initially : Invariant state)
    (ran : run more step fuel state = .ok final) : Invariant final := by
  induction fuel generalizing state with
  | zero =>
      rw [run, Except.ok.injEq] at ran
      exact ran ▸ initially
  | succ fuel ih =>
      rw [run] at ran
      split at ran
      next going =>
        cases stepped : step state with
        | error fault => rw [stepped] at ran; cases ran
        | ok next =>
            rw [stepped] at ran
            exact ih (preserved state next initially going stepped) ran
      next =>
        rw [Except.ok.injEq] at ran
        exact ran ▸ initially

/-- A loop whose rounds keep an invariant, lower a measure and raise no bad fault ends by its own
condition, and raises none. -/
theorem run_ensures {Invariant : State → Prop} {bad : Fault → Prop}
    (round : ∀ state, Invariant state → more state = true →
      Fallible.Ensures bad (fun next => Invariant next ∧ measure next < measure state) (step state))
    (stops : ∀ state, Invariant state → measure state = 0 → more state = false)
    {state : State} {fuel : Nat} (initially : Invariant state) (enough : measure state ≤ fuel) :
    Fallible.Ensures bad (fun final => Invariant final ∧ more final = false)
      (run more step fuel state) := by
  induction fuel generalizing state with
  | zero => exact ⟨initially, stops state initially (by omega)⟩
  | succ fuel ih =>
      rw [run]
      split
      next going =>
        refine Fallible.Ensures.bind (round state initially going) ?_
        rintro next ⟨kept, lower⟩
        exact ih kept (by omega)
      next done => exact ⟨initially, Bool.eq_false_iff.mpr done⟩

variable (more step) in
/-- The states a loop stands in before each round, and the last one. -/
def trace : Nat → State → List State
  | 0, state => [state]
  | fuel + 1, state =>
      if more state then
        match step state with
        | .ok next => state :: trace fuel next
        | .error _ => [state]
      else [state]

theorem trace_head (fuel : Nat) (state : State) :
    ∃ later, trace more step fuel state = state :: later := by
  cases fuel with
  | zero => exact ⟨[], rfl⟩
  | succ fuel =>
      rw [trace]
      split
      · split
        · exact ⟨_, rfl⟩
        · exact ⟨[], rfl⟩
      · exact ⟨[], rfl⟩

theorem trace_done {state : State} (done : more state = false) (fuel : Nat) :
    trace more step fuel state = [state] := by
  cases fuel with
  | zero => rfl
  | succ fuel => simp [trace, done]

theorem trace_succ (lowers : Lowers more step measure)
    (stops : ∀ state, measure state = 0 → more state = false) {state : State} {fuel : Nat}
    (enough : measure state ≤ fuel) :
    trace more step (fuel + 1) state = trace more step fuel state := by
  induction fuel generalizing state with
  | zero =>
      have done := stops state (by omega)
      rw [trace_done done, trace_done done]
  | succ fuel ih =>
      rw [trace, trace]
      split
      next going =>
        cases stepped : step state with
        | error fault => rfl
        | ok next =>
            have lower := lowers state next going stepped
            exact congrArg (state :: ·) (ih (by omega))
      next => rfl

theorem trace_unfold (lowers : Lowers more step measure)
    (stops : ∀ state, measure state = 0 → more state = false) {state next : State} {fuel : Nat}
    (enough : measure state ≤ fuel) (going : more state = true) (stepped : step state = .ok next) :
    trace more step fuel state = state :: trace more step fuel next := by
  rw [← trace_succ lowers stops enough, trace, if_pos going, stepped]

section Cursor

variable {Item : Type} {items : List Item}

theorem lt_of_drop {i : Nat} {value : Item} {rest : List Item}
    (here : items.drop i = value :: rest) :
    i < items.length ∧ items[i]? = some value ∧ items.drop (i + 1) = rest := by
  have inside : i < items.length := by
    by_contra past
    rw [List.drop_eq_nil_of_le (by omega)] at here
    cases here
  have first : (items.drop i)[0]? = some value := by rw [here]; rfl
  refine ⟨inside, by simpa using first, ?_⟩
  rw [← List.drop_drop, here]
  rfl

theorem drop_append {i : Nat} {text more : List Item} (here : items.drop i = text ++ more) :
    items.drop (i + text.length) = more := by
  rw [← List.drop_drop, here, List.drop_left]

end Cursor

end Loop
