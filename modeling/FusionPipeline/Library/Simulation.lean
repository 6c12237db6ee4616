import FusionPipeline.Library.Interleaving

/-!
One shared object in the place of another: where each answer and each change of the one is an answer
and changes of the other, so is every run over it, and no task can tell them apart.
-/

namespace Interleaving

variable {Shared Abstract Input Call Result Choice Drift Chosen Change : Type} {Reply : Call → Type}

def Entry.seen (entry : Entry Shared Input Call Reply Result Choice) :
    Nat × Input × (Σ request : Call, Reply request) × Option Result :=
  (entry.task, entry.input, ⟨entry.request, entry.reply⟩, entry.result)

structure Simulates (concrete : Machine Shared Input Call Reply Result Choice Drift)
    (abstract_ : Machine Abstract Input Call Reply Result Chosen Change)
    (view : Shared → Abstract) : Prop where
  start : ∀ input, abstract_.start input = concrete.start input
  answers : ∀ shared request choice, ∃ chosen changes,
    (abstract_.answer (view shared) request chosen).2 = (concrete.answer shared request choice).2 ∧
    List.foldl abstract_.drift (abstract_.answer (view shared) request chosen).1 changes =
      view (concrete.answer shared request choice).1
  drifts : ∀ shared change, ∃ changes,
    List.foldl abstract_.drift (view shared) changes = view (concrete.drift shared change)

structure Alike (view : Shared → Abstract) (pool : Pool Shared Input Call Reply Result Choice)
    (other : Pool Abstract Input Call Reply Result Chosen) : Prop where
  shared : other.shared = view pool.shared
  tasks : other.tasks = pool.tasks
  log : other.log.map Entry.seen = pool.log.map Entry.seen

variable {concrete : Machine Shared Input Call Reply Result Choice Drift}
  {abstract_ : Machine Abstract Input Call Reply Result Chosen Change} {view : Shared → Abstract}
  {pool next : Pool Shared Input Call Reply Result Choice}
  {other : Pool Abstract Input Call Reply Result Chosen}

theorem run_drifts (changes : List Change) (other : Pool Abstract Input Call Reply Result Chosen) :
    abstract_.run other (changes.map .drift) =
      some { other with shared := List.foldl abstract_.drift other.shared changes } := by
  induction changes generalizing other with
  | nil => rfl
  | cons change changes ih =>
      rw [List.map_cons, List.foldl_cons]
      exact Transition.run_cons_iff.mpr ⟨_, rfl, ih _⟩

theorem Simulates.step {event : Event Input Choice Drift}
    (simulates : Simulates concrete abstract_ view) (alike : Alike view pool other)
    (stepped : concrete.step pool event = some next) :
    ∃ events following, abstract_.run other events = some following ∧ Alike view next following := by
  cases event with
  | spawn input =>
      obtain rfl := Option.some.inj stepped
      refine ⟨[.spawn input], _, rfl, alike.shared, ?_, alike.log⟩
      simp only [alike.tasks, simulates.start]
  | advance index choice =>
      obtain ⟨input, request, resume, found, rfl⟩ := advance_cases stepped
      obtain ⟨chosen, changes, reply, shared⟩ := simulates.answers pool.shared request choice
      rw [← alike.tasks] at found
      rw [← alike.shared] at reply shared
      have moved : abstract_.step other (.advance index chosen) = _ := step_advance found chosen
      refine ⟨.advance index chosen :: changes.map .drift, _,
        Transition.run_cons_iff.mpr ⟨_, moved, run_drifts changes _⟩, shared, ?_, ?_⟩
      · simp only [Machine.entry, alike.tasks, reply]
      · simp only [List.map_append, List.map_cons, List.map_nil, alike.log, Entry.seen, Machine.entry,
          reply]
  | drift change =>
      obtain rfl := Option.some.inj stepped
      obtain ⟨changes, shared⟩ := simulates.drifts pool.shared change
      rw [← alike.shared] at shared
      exact ⟨changes.map .drift, _, run_drifts changes _, shared, alike.tasks, alike.log⟩
  | crash =>
      obtain rfl := Option.some.inj stepped
      refine ⟨[.crash], _, rfl, alike.shared, ?_, alike.log⟩
      simp only [alike.tasks]

/-- The rule for refinements: every run over the one object is a run over the other. -/
theorem Simulates.run {events : List (Event Input Choice Drift)}
    (simulates : Simulates concrete abstract_ view) (alike : Alike view pool other)
    (ran : concrete.run pool events = some next) :
    ∃ happened following, abstract_.run other happened = some following ∧
      Alike view next following := by
  induction events generalizing pool other with
  | nil =>
      obtain rfl := Option.some.inj ran
      exact ⟨[], other, rfl, alike⟩
  | cons event events ih =>
      obtain ⟨middle, stepped, rest⟩ := Transition.run_cons_iff.mp ran
      obtain ⟨first, between, went, alikeThen⟩ := simulates.step alike stepped
      obtain ⟨later, following, ended, finally_⟩ := ih alikeThen rest
      exact ⟨first ++ later, following, Transition.run_append_iff.mpr ⟨between, went, ended⟩, finally_⟩

end Interleaving
