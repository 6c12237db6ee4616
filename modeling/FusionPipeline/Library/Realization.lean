import FusionPipeline.Library.Simulation

/-!
Programs in the place of single calls: each runs any number of calls on the one object, of which one
takes the step of the other object, or none where it gives up.
-/

namespace Interleaving

variable {Shared Abstract Input Request Call Operation Result Ended Choice Chosen Drift Change : Type}
  {Reply : Call → Type} {Answer : Operation → Type}

/-- How the programs are read as single calls: the object, the tasks, and the results that answer one
or say that it was given up. -/
structure Reading (Shared Abstract Input Request Result Ended Chosen : Type) where
  view : Shared → Abstract
  label : Input → Request
  same : Result → Ended → Prop
  gaveUp : Result → Prop
  chosen : Chosen

variable (concrete : Machine Shared Input Call Reply Result Choice Drift)
  (abstract_ : Machine Abstract Request Operation Answer Ended Chosen Change)
  (reading : Reading Shared Abstract Input Request Result Ended Chosen)

/-- A program's calls leave the object as it is seen, up to the one that takes the step of `operation`
and ends the program with its answer. -/
def Implements (operation : Operation) (finish : Answer operation → Ended) :
    Program Call Reply Result → Prop
  | .done result => reading.gaveUp result
  | .call request resume =>
      ∀ shared choice,
        let next := concrete.answer shared request choice
        let answered := abstract_.answer (reading.view shared) operation reading.chosen
        (reading.view next.1 = reading.view shared ∧ Implements operation finish (resume next.2)) ∨
        (reading.view next.1 = answered.1 ∧ ∃ result, resume next.2 = .done result ∧
          reading.same result (finish answered.2))

structure Realizes : Prop where
  starts : ∀ input, ∃ operation finish,
    abstract_.start (reading.label input) = .call operation (fun reply => .done (finish reply)) ∧
      Implements concrete abstract_ reading operation finish (concrete.start input)
  drifts : ∀ shared change, ∃ changes,
    List.foldl abstract_.drift (reading.view shared) changes =
      reading.view (concrete.drift shared change)

/-- How far a task is: before its step, after it, or cut off. -/
inductive Keeps :
    Option (Program Call Reply Result) → Option (Program Operation Answer Ended) → Prop
  | before (program : Program Call Reply Result) (operation : Operation)
      (finish : Answer operation → Ended)
      (implements : Implements concrete abstract_ reading operation finish program) :
      Keeps (some program) (some (.call operation fun reply => .done (finish reply)))
  | after (result : Result) (ended : Ended) (agrees : reading.same result ended) :
      Keeps (some (.done result)) (some (.done ended))
  | cut : Keeps none none

structure Matches (pool : Pool Shared Input Call Reply Result Choice)
    (other : Pool Abstract Request Operation Answer Ended Chosen) : Prop where
  shared : other.shared = reading.view pool.shared
  inputs : other.tasks.map Task.input = pool.tasks.map fun task => reading.label task.input
  tasks : ∀ (index : Nat) (task : Task Input Call Reply Result)
    (mirror : Task Request Operation Answer Ended), pool.tasks[index]? = some task →
      other.tasks[index]? = some mirror →
        Keeps concrete abstract_ reading task.program mirror.program

section Steps

variable {concrete abstract_ reading}
  {pool next : Pool Shared Input Call Reply Result Choice}
  {other : Pool Abstract Request Operation Answer Ended Chosen}

theorem matches_initial (shared : Shared) : Matches concrete abstract_ reading
    (Pool.initial shared) (Pool.initial (reading.view shared)) := by
  constructor <;> simp [Pool.initial]

theorem Matches.length (matched : Matches concrete abstract_ reading pool other) :
    other.tasks.length = pool.tasks.length := by
  simpa using congrArg List.length matched.inputs

/-- A task moves on both sides, or only where nothing is seen of it. -/
theorem Matches.moves (matched : Matches concrete abstract_ reading pool other)
    {index : Nat} {input : Input} {request : Call} {resume : Reply request → Program Call Reply Result}
    (found : pool.tasks[index]? = some ⟨input, some (.call request resume)⟩) (choice : Choice) :
    let entry := concrete.entry pool.shared index input request resume choice
    ∃ events following, abstract_.run other events = some following ∧
      Matches concrete abstract_ reading
        { shared := entry.after
          tasks := pool.tasks.set index ⟨input, some (resume entry.reply)⟩
          log := pool.log ++ [entry] } following := by
  intro entry
  obtain ⟨bound, holds⟩ := List.getElem?_eq_some_iff.mp found
  have otherBound : index < other.tasks.length := by rw [matched.length]; exact bound
  obtain ⟨mirror, mirrored⟩ : ∃ mirror, other.tasks[index]? = some mirror :=
    ⟨_, List.getElem?_eq_getElem otherBound⟩
  have inputsKept : (pool.tasks.set index ⟨input, some (resume entry.reply)⟩).map
      (fun task => reading.label task.input) =
        pool.tasks.map fun task => reading.label task.input := by
    refine List.ext_getElem? fun position => ?_
    rw [List.map_set, List.getElem?_set]
    split
    next equal =>
      subst equal
      simp [bound, holds]
    next => rfl
  have keeps := matched.tasks index _ mirror found mirrored
  generalize programs : mirror.program = mirrorProgram at keeps
  cases keeps with
  | before program operation finish implements =>
      rcases implements pool.shared choice with ⟨seen, goesOn⟩ | ⟨stepped, result, ended, agrees⟩
      · refine ⟨[], other, rfl, matched.shared.trans seen.symm, matched.inputs.trans inputsKept.symm,
          ?_⟩
        intro position task twin at_ twinAt
        by_cases moved : index = position
        · subst moved
          rw [List.getElem?_set_self bound] at at_
          obtain rfl := Option.some.inj at_
          obtain rfl := Option.some.inj (mirrored.symm.trans twinAt)
          rw [programs]
          exact .before _ operation finish goesOn
        · rw [List.getElem?_set_ne moved] at at_
          exact matched.tasks position task twin at_ twinAt
      · obtain ⟨mirrorInput, mirrorProgram⟩ := mirror
        simp only at programs
        subst programs
        have moved : abstract_.step other (.advance index reading.chosen) = _ :=
          step_advance mirrored reading.chosen
        refine ⟨[.advance index reading.chosen], _, Transition.run_cons_iff.mpr ⟨_, moved, rfl⟩,
          ?_, ?_, ?_⟩
        · simp only [Machine.entry, matched.shared]
          exact stepped.symm
        · refine Eq.trans ?_ (matched.inputs.trans inputsKept.symm)
          refine List.ext_getElem? fun position => ?_
          rw [List.map_set, List.getElem?_set]
          split
          next equal =>
            subst equal
            rw [List.getElem?_map, mirrored, if_pos (by simpa using otherBound), Option.map_some]
          next => rfl
        · intro position task twin at_ twinAt
          by_cases moved : index = position
          · subst moved
            rw [List.getElem?_set_self bound] at at_
            rw [List.getElem?_set_self otherBound] at twinAt
            obtain rfl := Option.some.inj at_
            obtain rfl := Option.some.inj twinAt
            change Keeps _ _ _ (some (resume (concrete.answer pool.shared request choice).2)) _
            rw [ended]
            simp only [Machine.entry, matched.shared]
            exact .after result _ agrees
          · rw [List.getElem?_set_ne moved] at at_ twinAt
            exact matched.tasks position task twin at_ twinAt

theorem Matches.step {event : Event Input Choice Drift}
    (realizes : Realizes concrete abstract_ reading)
    (matched : Matches concrete abstract_ reading pool other)
    (stepped : concrete.step pool event = some next) :
    ∃ events following, abstract_.run other events = some following ∧
      Matches concrete abstract_ reading next following := by
  cases event with
  | spawn input =>
      obtain rfl := Option.some.inj stepped
      obtain ⟨operation, finish, starts, implements⟩ := realizes.starts input
      refine ⟨[.spawn (reading.label input)], _, rfl, matched.shared, ?_, ?_⟩
      · simp only [List.map_append, matched.inputs, List.map_cons, List.map_nil]
      · intro index task mirror found mirrored
        have sameLength := matched.length
        rcases Nat.lt_trichotomy index pool.tasks.length with earlier | last | beyond
        · rw [List.getElem?_append_left earlier] at found
          rw [List.getElem?_append_left (by omega)] at mirrored
          exact matched.tasks index task mirror found mirrored
        · subst last
          rw [List.getElem?_concat_length] at found
          rw [← sameLength, List.getElem?_concat_length] at mirrored
          obtain rfl := Option.some.inj found
          obtain rfl := Option.some.inj mirrored
          simp only [starts]
          exact .before _ operation finish implements
        · rw [List.getElem?_eq_none (by simp; omega)] at found
          cases found
  | advance index choice =>
      obtain ⟨input, request, resume, found, rfl⟩ := advance_cases stepped
      exact matched.moves found choice
  | drift change =>
      obtain rfl := Option.some.inj stepped
      obtain ⟨changes, shared⟩ := realizes.drifts pool.shared change
      rw [← matched.shared] at shared
      exact ⟨changes.map .drift, _, run_drifts changes other, shared, matched.inputs, matched.tasks⟩
  | crash =>
      obtain rfl := Option.some.inj stepped
      refine ⟨[.crash], _, rfl, matched.shared, ?_, ?_⟩
      · simpa [List.map_map, Function.comp_def] using matched.inputs
      · intro index task mirror found mirrored
        rw [List.getElem?_map] at found mirrored
        obtain ⟨_, _, rfl⟩ := Option.map_eq_some_iff.mp found
        obtain ⟨_, _, rfl⟩ := Option.map_eq_some_iff.mp mirrored
        exact .cut

/-- The rule for objects built on others: every run of the programs is a run of single calls. -/
theorem Matches.run {events : List (Event Input Choice Drift)}
    (realizes : Realizes concrete abstract_ reading)
    (matched : Matches concrete abstract_ reading pool other)
    (ran : concrete.run pool events = some next) :
    ∃ happened following, abstract_.run other happened = some following ∧
      Matches concrete abstract_ reading next following := by
  induction events generalizing pool other with
  | nil =>
      obtain rfl := Option.some.inj ran
      exact ⟨[], other, rfl, matched⟩
  | cons event events ih =>
      obtain ⟨middle, stepped, rest⟩ := Transition.run_cons_iff.mp ran
      obtain ⟨first, between, went, matchedThen⟩ := matched.step realizes stepped
      obtain ⟨later, following, ended, finally_⟩ := ih matchedThen rest
      exact ⟨first ++ later, following, Transition.run_append_iff.mpr ⟨between, went, ended⟩, finally_⟩

end Steps

end Interleaving
