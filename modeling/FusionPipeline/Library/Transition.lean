import Mathlib.Data.List.Basic

/-!
Runs of a partial step function over a list of events, and the rules that carry a
property of states along a run.
-/

namespace Transition

def run {State Event : Type} (step : State → Event → Option State) :
    State → List Event → Option State
  | state, [] => some state
  | state, event :: events => (step state event).bind fun next => run step next events

def Throughout {State Event : Type} (step : State → Event → Option State)
    (condition : State → Event → Prop) : State → List Event → Prop
  | _, [] => True
  | state, event :: events =>
      condition state event ∧ ∀ next, step state event = some next →
        Throughout step condition next events

section Runs

variable {State Event : Type} {step : State → Event → Option State}

@[simp] theorem run_nil (state : State) : run step state [] = some state := rfl

theorem run_cons_iff {state last : State} {event : Event} {events : List Event} :
    run step state (event :: events) = some last ↔
      ∃ next, step state event = some next ∧ run step next events = some last := by
  simp [run, Option.bind_eq_some_iff]

theorem run_append_iff {state last : State} {first second : List Event} :
    run step state (first ++ second) = some last ↔
      ∃ middle, run step state first = some middle ∧ run step middle second = some last := by
  induction first generalizing state with
  | nil => simp
  | cons event first ih =>
      simp only [List.cons_append, run_cons_iff, ih]
      constructor
      · rintro ⟨next, stepped, middle, toMiddle, toLast⟩
        exact ⟨middle, ⟨next, stepped, toMiddle⟩, toLast⟩
      · rintro ⟨middle, ⟨next, stepped, toMiddle⟩, toLast⟩
        exact ⟨next, stepped, middle, toMiddle, toLast⟩

/-- The invariant rule: what every step keeps, every run keeps. -/
theorem run_keeps {holds : State → Prop} {state last : State} {events : List Event}
    (kept : ∀ state event next, holds state → step state event = some next → holds next)
    (ran : run step state events = some last) (initially : holds state) : holds last := by
  induction events generalizing state with
  | nil =>
      simp only [run_nil, Option.some.injEq] at ran
      exact ran ▸ initially
  | cons event events ih =>
      obtain ⟨next, stepped, rest⟩ := run_cons_iff.mp ran
      exact ih rest (kept state event next initially stepped)

/-- The simulation rule: where a step of the one is a run of the other, a whole run of the one is one
run of the other, cut event by event, and the two are related at every cut. -/
theorem run_simulated {Other Happening : Type} {move : Other → Happening → Option Other}
    (related : State → Other → Prop)
    (simulated : ∀ state event next other, related state other → step state event = some next →
      ∃ happened following, run move other happened = some following ∧ related next following)
    {state last : State} {events : List Event} (ran : run step state events = some last)
    {other : Other} (initially : related state other) :
    ∃ happened : List (List Happening), happened.length = events.length ∧
      ∀ first second, events = first ++ second → ∃ middle between,
        run step state first = some middle ∧
        run move other (happened.take first.length).flatten = some between ∧
        related middle between := by
  induction events generalizing state other with
  | nil =>
      refine ⟨[], rfl, fun first second split => ?_⟩
      obtain ⟨rfl, -⟩ := List.append_eq_nil_iff.mp split.symm
      exact ⟨state, other, rfl, rfl, initially⟩
  | cons event events ih =>
      obtain ⟨next, stepped, rest⟩ := run_cons_iff.mp ran
      obtain ⟨here, following, moved, related⟩ := simulated state event next other initially stepped
      obtain ⟨happened, sameLength, cuts⟩ := ih rest related
      refine ⟨here :: happened, congrArg Nat.succ sameLength, fun first second split => ?_⟩
      cases first with
      | nil => exact ⟨state, other, rfl, rfl, initially⟩
      | cons head first =>
          obtain ⟨rfl, tail⟩ := List.cons.inj split
          obtain ⟨middle, between, toMiddle, toBetween, relatedThere⟩ := cuts first second tail
          refine ⟨middle, between, run_cons_iff.mpr ⟨next, stepped, toMiddle⟩, ?_, relatedThere⟩
          rw [List.length_cons, List.take_succ_cons, List.flatten_cons]
          exact run_append_iff.mpr ⟨following, moved, toBetween⟩

/-- Where every step lowers a measure, it bounds the length of a run. -/
theorem run_lowers (measure : State → Nat) {lowering : Event → Prop} {state last : State}
    {events : List Event}
    (lowers : ∀ state event next, lowering event → step state event = some next →
      measure next < measure state)
    (only : ∀ event ∈ events, lowering event) (ran : run step state events = some last) :
    events.length + measure last ≤ measure state := by
  induction events generalizing state with
  | nil =>
      obtain rfl := Option.some.inj ran
      simp
  | cons event events ih =>
      obtain ⟨next, stepped, rest⟩ := run_cons_iff.mp ran
      rw [List.forall_mem_cons] at only
      have less := lowers state event next only.1 stepped
      have later := ih only.2 rest
      rw [List.length_cons]
      omega

/-- Where some step can always lower a measure until a state is done, a run of such steps gets there. -/
theorem run_reaches (measure : State → Nat) (lowering : Event → Prop) (holds done : State → Prop)
    (onward : ∀ state, holds state → ¬ done state → ∃ event next, lowering event ∧
      step state event = some next ∧ holds next ∧ measure next < measure state)
    {state : State} (initially : holds state) :
    ∃ events last, (∀ event ∈ events, lowering event) ∧ run step state events = some last ∧
      done last := by
  induction left : measure state using Nat.strongRecOn generalizing state with
  | ind bound ih =>
      by_cases finished : done state
      · exact ⟨[], state, by simp, rfl, finished⟩
      · obtain ⟨event, next, lowers, stepped, kept, less⟩ := onward state initially finished
        obtain ⟨events, last, only, ran, ends⟩ := ih (measure next) (left ▸ less) kept rfl
        exact ⟨event :: events, last, List.forall_mem_cons.mpr ⟨lowers, only⟩,
          run_cons_iff.mpr ⟨next, stepped, ran⟩, ends⟩

/-- The invariant rule for the runs whose steps all meet a condition. -/
theorem run_keeps_throughout (holds : State → Prop) {condition : State → Event → Prop}
    {state last : State} {events : List Event}
    (kept : ∀ state event next, holds state → condition state event →
      step state event = some next → holds next)
    (ran : run step state events = some last)
    (throughout : Throughout step condition state events)
    (initially : holds state) : holds last := by
  induction events generalizing state with
  | nil =>
      simp only [run_nil, Option.some.injEq] at ran
      exact ran ▸ initially
  | cons event events ih =>
      obtain ⟨next, stepped, rest⟩ := run_cons_iff.mp ran
      exact ih rest (throughout.2 next stepped)
        (kept state event next initially throughout.1 stepped)

theorem Throughout.append {condition : State → Event → Prop} {state middle : State}
    {first second : List Event} (ran : run step state first = some middle)
    (before : Throughout step condition state first)
    (after : Throughout step condition middle second) :
    Throughout step condition state (first ++ second) := by
  induction first generalizing state with
  | nil =>
      simp only [run_nil, Option.some.injEq] at ran
      exact ran ▸ after
  | cons event first ih =>
      obtain ⟨next, stepped, rest⟩ := run_cons_iff.mp ran
      refine ⟨before.1, fun other same => ?_⟩
      obtain rfl : next = other := by simpa [stepped] using same
      exact ih rest (before.2 next stepped)

theorem Throughout.of_forall {condition : Event → Prop} {events : List Event}
    (all : ∀ event ∈ events, condition event) (state : State) :
    Throughout step (fun _ event => condition event) state events := by
  induction events generalizing state with
  | nil => trivial
  | cons event events ih =>
      exact ⟨all event List.mem_cons_self,
        fun next _ => ih (fun later member => all later (List.mem_cons_of_mem _ member)) next⟩

end Runs

end Transition
