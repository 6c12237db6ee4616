import FusionPipeline.Library.Transition

/-!
Sequential programs over atomic calls, and any number of them interleaved over one
shared object. A task makes one call at a time; between two calls of a task every other
task may move, the object may change by itself, and all tasks may be cut off at once.
The pool keeps a log with one entry for each call answered, oldest first.
-/

namespace Interleaving

/-- A program that ends with a result, or makes a call and goes on with its answer. -/
inductive Program (Call : Type) (Reply : Call → Type) (Result : Type) where
  | done (result : Result)
  | call (request : Call) (resume : Reply request → Program Call Reply Result)

namespace Program

variable {Call Result : Type} {Reply : Call → Type}

def result? : Program Call Reply Result → Option Result
  | done result => some result
  | call _ _ => none

def bind {Next : Type} : Program Call Reply Result → (Result → Program Call Reply Next) →
    Program Call Reply Next
  | done result, next => next result
  | call request resume, next => call request fun reply => (resume reply).bind next

end Program

/-- What the tasks share and how it answers: `start` is the program a task runs on its
input, `answer` one atomic call under a choice the object makes, `drift` a change the
object makes by itself. -/
structure Machine (Shared Input Call : Type) (Reply : Call → Type) (Result Choice Drift : Type) where
  start : Input → Program Call Reply Result
  answer : Shared → (request : Call) → Choice → Shared × Reply request
  drift : Shared → Drift → Shared

structure Task (Input Call : Type) (Reply : Call → Type) (Result : Type) where
  input : Input
  program : Option (Program Call Reply Result)

structure Entry (Shared Input Call : Type) (Reply : Call → Type) (Result Choice : Type) where
  task : Nat
  input : Input
  request : Call
  choice : Choice
  before : Shared
  after : Shared
  reply : Reply request
  result : Option Result

structure Pool (Shared Input Call : Type) (Reply : Call → Type) (Result Choice : Type) where
  shared : Shared
  tasks : List (Task Input Call Reply Result)
  log : List (Entry Shared Input Call Reply Result Choice)

inductive Event (Input Choice Drift : Type) where
  | spawn (input : Input)
  | advance (task : Nat) (choice : Choice)
  | drift (change : Drift)
  | crash

section Steps

variable {Shared Input Call Result Choice Drift : Type} {Reply : Call → Type}

def Pool.initial (shared : Shared) : Pool Shared Input Call Reply Result Choice :=
  ⟨shared, [], []⟩

def Machine.entry (machine : Machine Shared Input Call Reply Result Choice Drift)
    (shared : Shared) (index : Nat) (input : Input) (request : Call)
    (resume : Reply request → Program Call Reply Result) (choice : Choice) :
    Entry Shared Input Call Reply Result Choice :=
  let answered := machine.answer shared request choice
  { task := index
    input
    request
    choice
    before := shared
    after := answered.1
    reply := answered.2
    result := (resume answered.2).result? }

def Machine.step (machine : Machine Shared Input Call Reply Result Choice Drift)
    (pool : Pool Shared Input Call Reply Result Choice) :
    Event Input Choice Drift → Option (Pool Shared Input Call Reply Result Choice)
  | .spawn input =>
      some { pool with tasks := pool.tasks ++ [⟨input, some (machine.start input)⟩] }
  | .advance index choice =>
      match pool.tasks[index]? with
      | some ⟨input, some (.call request resume)⟩ =>
          let entry := machine.entry pool.shared index input request resume choice
          some {
            shared := entry.after
            tasks := pool.tasks.set index ⟨input, some (resume entry.reply)⟩
            log := pool.log ++ [entry] }
      | _ => none
  | .drift change => some { pool with shared := machine.drift pool.shared change }
  | .crash => some { pool with tasks := pool.tasks.map fun task => { task with program := none } }

def Machine.run (machine : Machine Shared Input Call Reply Result Choice Drift) :
    Pool Shared Input Call Reply Result Choice → List (Event Input Choice Drift) →
      Option (Pool Shared Input Call Reply Result Choice) :=
  Transition.run machine.step

variable {machine : Machine Shared Input Call Reply Result Choice Drift}
variable {pool next : Pool Shared Input Call Reply Result Choice}

theorem step_advance {index : Nat} {input : Input} {request : Call}
    {resume : Reply request → Program Call Reply Result}
    (found : pool.tasks[index]? = some ⟨input, some (.call request resume)⟩) (choice : Choice) :
    let entry := machine.entry pool.shared index input request resume choice
    machine.step pool (.advance index choice) = some {
      shared := entry.after
      tasks := pool.tasks.set index ⟨input, some (resume entry.reply)⟩
      log := pool.log ++ [entry] } := by
  simp [Machine.step, found]

/-- The one inversion of an advance: which task moved, and everything it changed. -/
theorem advance_cases {index : Nat} {choice : Choice}
    (stepped : machine.step pool (.advance index choice) = some next) :
    ∃ input request resume,
      pool.tasks[index]? = some ⟨input, some (.call request resume)⟩ ∧
      let entry := machine.entry pool.shared index input request resume choice
      next = {
        shared := entry.after
        tasks := pool.tasks.set index ⟨input, some (resume entry.reply)⟩
        log := pool.log ++ [entry] } := by
  simp only [Machine.step] at stepped
  split at stepped
  next input request resume found =>
    exact ⟨input, request, resume, found, by simpa using stepped.symm⟩
  next => simp at stepped

/-- A call leaves one entry; every other step leaves the log as it is, and only a drift
changes the shared object. -/
theorem step_log {event : Event Input Choice Drift}
    (stepped : machine.step pool event = some next) :
    (next.log = pool.log ∧ (next.shared = pool.shared ∨
      ∃ change, event = .drift change ∧ next.shared = machine.drift pool.shared change)) ∨
    ∃ index choice input request resume, event = .advance index choice ∧
      pool.tasks[index]? = some ⟨input, some (.call request resume)⟩ ∧
      next.log = pool.log ++ [machine.entry pool.shared index input request resume choice] ∧
      next.shared = (machine.entry pool.shared index input request resume choice).after := by
  cases event with
  | spawn input =>
      simp only [Machine.step, Option.some.injEq] at stepped
      exact Or.inl (by simp [← stepped])
  | advance index choice =>
      obtain ⟨input, request, resume, found, equal⟩ := advance_cases stepped
      exact Or.inr ⟨index, choice, input, request, resume, rfl, found,
        by rw [equal], by rw [equal]⟩
  | drift change =>
      simp only [Machine.step, Option.some.injEq] at stepped
      exact Or.inl ⟨by rw [← stepped], Or.inr ⟨change, rfl, by rw [← stepped]⟩⟩
  | crash =>
      simp only [Machine.step, Option.some.injEq] at stepped
      exact Or.inl (by simp [← stepped])

inductive Path : Program Call Reply Result →
    List (Entry Shared Input Call Reply Result Choice) → Program Call Reply Result → Prop
  | nil (program : Program Call Reply Result) : Path program [] program
  | cons {entry : Entry Shared Input Call Reply Result Choice}
      {rest : List (Entry Shared Input Call Reply Result Choice)}
      {resume : Reply entry.request → Program Call Reply Result} {last : Program Call Reply Result}
      (ended : entry.result = (resume entry.reply).result?)
      (tail : Path (resume entry.reply) rest last) :
      Path (.call entry.request resume) (entry :: rest) last

theorem Path.concat {first : Program Call Reply Result}
    {entries : List (Entry Shared Input Call Reply Result Choice)}
    {entry : Entry Shared Input Call Reply Result Choice}
    {resume : Reply entry.request → Program Call Reply Result}
    (path : Path first entries (.call entry.request resume))
    (ended : entry.result = (resume entry.reply).result?) :
    Path first (entries ++ [entry]) (resume entry.reply) := by
  generalize equal : Program.call entry.request resume = last at path
  induction path with
  | nil program =>
      subst equal
      exact .cons ended (.nil _)
  | cons headEnded _ ih => exact .cons headEnded (ih equal)

theorem Path.done_cases {result : Result} {last : Program Call Reply Result}
    {entries : List (Entry Shared Input Call Reply Result Choice)}
    (path : Path (.done result) entries last) : entries = [] ∧ last = .done result := by
  cases path with
  | nil => exact ⟨rfl, rfl⟩

theorem Path.call_cases {request : Call} {resume : Reply request → Program Call Reply Result}
    {last : Program Call Reply Result}
    {entries : List (Entry Shared Input Call Reply Result Choice)}
    (path : Path (.call request resume) entries last) :
    (entries = [] ∧ last = .call request resume) ∨
      ∃ task input choice before after reply rest,
        entries = ⟨task, input, request, choice, before, after, reply,
          (resume reply).result?⟩ :: rest ∧
        Path (resume reply) rest last := by
  generalize equal : Program.call request resume = first at path
  cases path with
  | nil => exact Or.inl ⟨rfl, rfl⟩
  | @cons entry rest resumed last ended tail =>
      obtain ⟨task, input, requested, choice, before, after, reply, result⟩ := entry
      simp only [Program.call.injEq] at equal
      obtain ⟨sameRequest, sameResume⟩ := equal
      subst sameRequest
      obtain rfl := eq_of_heq sameResume
      simp only at ended
      subst ended
      exact Or.inr ⟨task, input, choice, before, after, reply, rest, rfl, tail⟩

theorem Path.ended {first : Program Call Reply Result} {result : Result}
    {entries : List (Entry Shared Input Call Reply Result Choice)}
    (path : Path first entries (.done result)) (calls : first ≠ .done result) :
    ∃ entry ∈ entries, entry.result = some result := by
  generalize equal : Program.done result = last at path calls
  induction path with
  | nil program => exact absurd rfl calls
  | @cons entry rest resume last headEnded tail ih =>
      by_cases ends : resume entry.reply = last
      · exact ⟨entry, List.mem_cons_self, by rw [headEnded, ends, ← equal]; rfl⟩
      · obtain ⟨later, member, ended⟩ := ih equal ends
        exact ⟨later, List.mem_cons_of_mem _ member, ended⟩

def Pool.entriesOf (pool : Pool Shared Input Call Reply Result Choice) (index : Nat) :
    List (Entry Shared Input Call Reply Result Choice) :=
  pool.log.filter fun entry => decide (entry.task = index)

structure Tracked (machine : Machine Shared Input Call Reply Result Choice Drift)
    (pool : Pool Shared Input Call Reply Result Choice) : Prop where
  owned : ∀ entry ∈ pool.log, ∃ task, pool.tasks[entry.task]? = some task ∧
    task.input = entry.input
  answered : ∀ entry ∈ pool.log,
    machine.answer entry.before entry.request entry.choice = (entry.after, entry.reply)
  followed : ∀ index task, pool.tasks[index]? = some task → ∃ program,
    Path (machine.start task.input) (pool.entriesOf index) program ∧
      (task.program = some program ∨ task.program = none)

theorem tracked_initial (shared : Shared) : Tracked machine (Pool.initial shared) := by
  constructor <;> simp [Pool.initial]

theorem tracked_spawn (tracked : Tracked machine pool) (input : Input) :
    Tracked machine { pool with tasks := pool.tasks ++ [⟨input, some (machine.start input)⟩] } := by
  constructor
  · intro entry member
    obtain ⟨task, found, same⟩ := tracked.owned entry member
    have bound := (List.getElem?_eq_some_iff.mp found).1
    exact ⟨task, by rw [List.getElem?_append_left bound]; exact found, same⟩
  · exact tracked.answered
  · intro index task found
    by_cases bound : index < pool.tasks.length
    · rw [List.getElem?_append_left bound] at found
      exact tracked.followed index task found
    · rw [List.getElem?_append_right (by omega), List.getElem?_singleton] at found
      split at found
      next first =>
        simp only [Option.some.injEq] at found
        subst task
        refine ⟨_, ?_, Or.inl rfl⟩
        have fresh : Pool.entriesOf
            { pool with tasks := pool.tasks ++ [⟨input, some (machine.start input)⟩] } index = [] := by
          simp only [Pool.entriesOf, List.filter_eq_nil_iff, decide_eq_true_eq]
          intro entry member same
          obtain ⟨task, found, _⟩ := tracked.owned entry member
          have below := (List.getElem?_eq_some_iff.mp found).1
          omega
        rw [fresh]
        exact .nil _
      next => simp at found

theorem tracked_advance {index : Nat} {choice : Choice} {input : Input} {request : Call}
    {resume : Reply request → Program Call Reply Result}
    (tracked : Tracked machine pool)
    (found : pool.tasks[index]? = some ⟨input, some (.call request resume)⟩) :
    let entry := machine.entry pool.shared index input request resume choice
    Tracked machine {
      shared := entry.after
      tasks := pool.tasks.set index ⟨input, some (resume entry.reply)⟩
      log := pool.log ++ [entry] } := by
  intro entry
  have bound := (List.getElem?_eq_some_iff.mp found).1
  constructor
  · intro old member
    rcases List.mem_append.mp member with earlier | last
    · obtain ⟨task, at_, same⟩ := tracked.owned old earlier
      by_cases moved : index = old.task
      · subst moved
        refine ⟨_, List.getElem?_set_self bound, ?_⟩
        rw [found, Option.some.injEq] at at_
        rw [← same, ← at_]
      · exact ⟨task, by rw [List.getElem?_set_ne moved]; exact at_, same⟩
    · rw [List.mem_singleton] at last
      subst old
      exact ⟨_, List.getElem?_set_self bound, rfl⟩
  · intro old member
    rcases List.mem_append.mp member with earlier | last
    · exact tracked.answered old earlier
    · rw [List.mem_singleton] at last
      subst old
      rfl
  · intro other task at_
    by_cases moved : index = other
    · subst moved
      rw [List.getElem?_set_self bound, Option.some.injEq] at at_
      subst task
      obtain ⟨program, path, left⟩ := tracked.followed index _ found
      simp only [Option.some.injEq, reduceCtorEq, or_false] at left
      subst program
      refine ⟨_, ?_, Or.inl rfl⟩
      have own : Pool.entriesOf ⟨entry.after, pool.tasks.set index ⟨input, some (resume entry.reply)⟩,
          pool.log ++ [entry]⟩ index = pool.entriesOf index ++ [entry] := by
        simp [Pool.entriesOf, List.filter_append, entry, Machine.entry]
      rw [own]
      exact @Path.concat _ _ _ _ _ _ _ _ entry resume path rfl
    · rw [List.getElem?_set_ne moved] at at_
      have others : Pool.entriesOf ⟨entry.after, pool.tasks.set index ⟨input, some (resume entry.reply)⟩,
          pool.log ++ [entry]⟩ other = pool.entriesOf other := by
        simp [Pool.entriesOf, List.filter_append, entry, Machine.entry, moved]
      rw [others]
      exact tracked.followed other task at_

theorem tracked_step {event : Event Input Choice Drift} (tracked : Tracked machine pool)
    (stepped : machine.step pool event = some next) : Tracked machine next := by
  cases event with
  | spawn input =>
      simp only [Machine.step, Option.some.injEq] at stepped
      exact stepped ▸ tracked_spawn tracked input
  | advance index choice =>
      obtain ⟨input, request, resume, found, equal⟩ := advance_cases stepped
      exact equal ▸ tracked_advance tracked found
  | drift change =>
      simp only [Machine.step, Option.some.injEq] at stepped
      subst next
      exact ⟨tracked.owned, tracked.answered, tracked.followed⟩
  | crash =>
      simp only [Machine.step, Option.some.injEq] at stepped
      subst next
      constructor
      · intro entry member
        obtain ⟨task, found, same⟩ := tracked.owned entry member
        exact ⟨{ task with program := none }, by simp [found], same⟩
      · exact tracked.answered
      · intro index task found
        simp only [List.getElem?_map, Option.map_eq_some_iff] at found
        obtain ⟨old, found, equal⟩ := found
        subst task
        obtain ⟨program, path, _⟩ := tracked.followed index old found
        exact ⟨program, path, Or.inr rfl⟩

theorem run_tracked {shared : Shared} {events : List (Event Input Choice Drift)}
    (ran : machine.run (Pool.initial shared) events = some pool) : Tracked machine pool :=
  Transition.run_keeps (fun _ _ _ tracked stepped => tracked_step tracked stepped) ran
    (tracked_initial shared)

theorem Tracked.path_of_mem (tracked : Tracked machine pool)
    {entry : Entry Shared Input Call Reply Result Choice} (member : entry ∈ pool.log) :
    ∃ program, Path (machine.start entry.input) (pool.entriesOf entry.task) program ∧
      ∀ other ∈ pool.entriesOf entry.task, other.input = entry.input := by
  obtain ⟨task, found, same⟩ := tracked.owned entry member
  obtain ⟨program, path, _⟩ := tracked.followed entry.task task found
  refine ⟨program, same ▸ path, ?_⟩
  intro other otherMember
  obtain ⟨inLog, sameTask⟩ := List.mem_filter.mp otherMember
  obtain ⟨otherTask, otherFound, otherSame⟩ := tracked.owned other inLog
  rw [of_decide_eq_true sameTask, found, Option.some.injEq] at otherFound
  rw [← otherSame, ← otherFound, same]

theorem Tracked.ended {index : Nat} {input : Input} {result : Result}
    (tracked : Tracked machine pool)
    (found : pool.tasks[index]? = some ⟨input, some (.done result)⟩)
    (calls : machine.start input ≠ .done result) :
    ∃ entry ∈ pool.log, entry.task = index ∧ entry.result = some result := by
  obtain ⟨program, path, left⟩ := tracked.followed index _ found
  simp only [Option.some.injEq, reduceCtorEq, or_false] at left
  subst program
  obtain ⟨entry, member, ended⟩ := path.ended calls
  obtain ⟨inLog, sameTask⟩ := List.mem_filter.mp member
  exact ⟨entry, inLog, of_decide_eq_true sameTask, ended⟩

section Histories

variable {shared : Shared} {events : List (Event Input Choice Drift)}
variable {good : Entry Shared Input Call Reply Result Choice → Prop}
variable {holds : Shared → List (Entry Shared Input Call Reply Result Choice) → Prop}

/-- What holds of the shared object and the entries so far: `holds` when the log ends
here, and at each entry for the object it found and the entries before it. -/
def Pool.AllAlong (pool : Pool Shared Input Call Reply Result Choice)
    (holds : Shared → List (Entry Shared Input Call Reply Result Choice) → Prop) : Prop :=
  holds pool.shared pool.log ∧
    ∀ earlier entry later, pool.log = earlier ++ entry :: later → holds entry.before earlier

/-- The rule for histories: what drifts and entries keep holds all along the log. The
entries may be taken as `good` when all of the final log are. -/
theorem run_history (allowed : Event Input Choice Drift → Prop)
    (ran : machine.run (Pool.initial shared) events = some pool)
    (only : ∀ event ∈ events, allowed event)
    (all : ∀ entry ∈ pool.log, good entry)
    (initially : holds shared [])
    (drifted : ∀ shared log change, allowed (.drift change) → holds shared log →
      holds (machine.drift shared change) log)
    (answered : ∀ log entry index, allowed (.advance index entry.choice) → good entry →
      holds entry.before log → holds entry.after (log ++ [entry])) :
    pool.AllAlong holds := by
  suffices kept : (∀ entry ∈ pool.log, good entry) → pool.AllAlong holds from kept all
  refine Transition.run_keeps_throughout
    (fun pool => (∀ entry ∈ pool.log, good entry) → pool.AllAlong holds)
    ?_ ran (Transition.Throughout.of_forall only _) ?_
  · intro pool event next ih permitted stepped all
    rcases step_log stepped with ⟨sameLog, unchanged | ⟨change, equal, drift⟩⟩ |
      ⟨index, choice, input, request, resume, equal, _, logged, after⟩
    · rw [sameLog] at all
      simpa only [Pool.AllAlong, sameLog, unchanged] using ih all
    · rw [sameLog] at all
      subst equal
      rw [Pool.AllAlong, sameLog, drift]
      exact ⟨drifted _ _ change permitted (ih all).1, (ih all).2⟩
    · subst equal
      rw [logged] at all
      obtain ⟨here, before⟩ := ih fun entry member => all entry (List.mem_append_left _ member)
      rw [Pool.AllAlong, logged, after]
      refine ⟨answered _ _ index permitted (all _ (by simp)) here, ?_⟩
      intro earlier entry later split
      rcases List.eq_nil_or_concat later with rfl | ⟨rest, last, rfl⟩
      · obtain ⟨rfl, same⟩ := List.append_inj' split rfl
        obtain rfl := List.cons.inj same |>.1
        exact here
      · rw [List.concat_eq_append, ← List.cons_append, ← List.append_assoc] at split
        exact before earlier entry rest (List.append_inj' split rfl).1
  · intro _
    exact ⟨initially, by simp [Pool.initial]⟩

end Histories

end Steps

end Interleaving
