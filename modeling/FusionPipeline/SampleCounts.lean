import FusionPipeline.Sample

/-! `every_nth` over all interleavings: the share of one tenant's deliveries is exact. -/

namespace FusionPipeline.Sample

open Interleaving

structure Delivery (pipeline tenant node : String) where
  record : Record
  context : Context
  handle : context.state = State.new pipeline tenant node true

section Runs

variable {sample : Sample} {pipeline tenant node : String}

def workers (sample : Sample) (pipeline tenant node : String) :
    Machine Store (Delivery pipeline tenant node) StoreOp StoreOp.Reply StageOutput Ending
      (Store → Store) where
  start delivery := sample.process delivery.record delivery.context
  answer store request ending := store.answer request ending
  drift store change := change store

abbrev SamplePool (pipeline tenant node : String) :=
  Pool Store (Delivery pipeline tenant node) StoreOp StoreOp.Reply StageOutput Ending

abbrev SampleEntry (pipeline tenant node : String) :=
  Entry Store (Delivery pipeline tenant node) StoreOp StoreOp.Reply StageOutput Ending

def tenantCount (pipeline tenant node : String) : String :=
  (State.new pipeline tenant node true).key countKey

def Undisturbed (pipeline tenant node : String) :
    Interleaving.Event (Delivery pipeline tenant node) Ending (Store → Store) → Prop
  | .advance _ ending => ending = .answers
  | .drift change => ∀ store,
      change store (tenantCount pipeline tenant node) = store (tenantCount pipeline tenant node)
  | _ => True

def passed (entry : SampleEntry pipeline tenant node) : Bool :=
  match entry.result with
  | some (.pass _) => true
  | _ => false

def settled (nth : Nth) (record : Record) (reply : Except StateError Int64) : StageOutput :=
  match reply with
  | .ok count => verdict record (decide ((count - 1).toInt % nth.n.toInt = 0))
  | .error error => .stateError record error

theorem process_eq {nth : Nth} {policy : StateErrorPolicy} (mode : sample.mode = .everyNth nth policy)
    (delivery : Delivery pipeline tenant node) :
    sample.process delivery.record delivery.context =
      .call (.incr (tenantCount pipeline tenant node) 1 countTtl) fun reply =>
        .done (settled nth delivery.record reply) := by
  obtain ⟨record, ⟨nodeId, recordMeta, state⟩, handle⟩ := delivery
  simp only at handle
  subst handle
  simp only [process, mode]
  refine congrArg (Program.call _) (funext fun reply => ?_)
  cases reply <;> rfl

theorem entries_one {nth : Nth} {policy : StateErrorPolicy} (mode : sample.mode = .everyNth nth policy)
    {events : List (Interleaving.Event (Delivery pipeline tenant node) Ending (Store → Store))}
    {pool : SamplePool pipeline tenant node} {store : Store}
    (ran : (workers sample pipeline tenant node).run (Pool.initial store) events = some pool)
    {entry : SampleEntry pipeline tenant node} (member : entry ∈ pool.log) :
    pool.entriesOf entry.task = [entry] ∧ ∃ task input choice before,
      entry = (workers sample pipeline tenant node).entry before task input
        (.incr (tenantCount pipeline tenant node) 1 countTtl)
        (fun reply => .done (settled nth input.record reply)) choice := by
  have tracked := run_tracked ran
  obtain ⟨program, path, _⟩ := tracked.path_of_mem member
  have answered := tracked.answered entry member
  have own : entry ∈ pool.entriesOf entry.task :=
    List.mem_filter.mpr ⟨member, decide_eq_true rfl⟩
  have start : (workers sample pipeline tenant node).start entry.input = _ :=
    process_eq mode entry.input
  rw [start] at path
  rcases path.call_cases with ⟨none, _⟩ | ⟨task, input, choice, before, after, reply, rest, all, tail⟩
  · rw [none] at own
    cases own
  · obtain ⟨rfl, _⟩ := tail.done_cases
    rw [all, List.mem_singleton] at own
    rw [all, ← own]
    have sameInput : entry.input = input := by rw [own]
    rw [sameInput] at own
    refine ⟨rfl, task, input, choice, before, ?_⟩
    rw [own] at answered
    replace answered : (workers sample pipeline tenant node).answer before _ choice =
      (after, reply) := answered
    rw [own, Machine.entry, answered]

def size (nth : Nth) : Nat :=
  nth.n.toInt.toNat

theorem size_pos (nth : Nth) : 1 ≤ size nth := by
  have positive := nth.positive
  rw [size]
  omega

theorem size_toInt (nth : Nth) : nth.n.toInt = (size nth : Int) := by
  have positive := nth.positive
  rw [size]
  omega

def share (nth : Nth) (count : Nat) : Nat :=
  (count + size nth - 1) / size nth

theorem share_zero (nth : Nth) : share nth 0 = 0 := by
  have atLeast := size_pos nth
  exact Nat.div_eq_of_lt (by omega)

theorem share_succ (nth : Nth) (count : Nat) :
    share nth (count + 1) = share nth count + if count % size nth = 0 then 1 else 0 := by
  have atLeast := size_pos nth
  have shift : count + 1 + size nth - 1 = (count + size nth - 1) + 1 := by omega
  have back : count + size nth - 1 + 1 = count + size nth := by omega
  rw [share, share, shift]
  split
  next first =>
    refine Nat.succ_div_of_mod_eq_zero ?_
    rw [back, Nat.add_mod_right, first]
  next later =>
    refine Nat.succ_div_of_mod_ne_zero ?_
    rwa [back, Nat.add_mod_right]

theorem countOf_countBytes {count : Nat} (bound : count < 2 ^ 63) (key : String) :
    countOf key (some (countBytes (Int64.ofInt count))) = .ok (Int64.ofInt count) := by
  have value : (Int64.ofInt count).toInt = count := by
    rw [Int64.toInt_ofInt_of_le] <;> omega
  have text : toString (count : Int) = count.repr := rfl
  simp [countOf, countBytes, value, text, Text.parseI64_repr bound]

theorem checkedAdd_one {count : Nat} (bound : count + 1 < 2 ^ 63) :
    checkedAdd (Int64.ofInt count) 1 = some (Int64.ofInt (count + 1 : Nat)) := by
  have value : (Int64.ofInt count).toInt = count := by
    rw [Int64.toInt_ofInt_of_le] <;> omega
  have one : (1 : Int64).toInt = 1 := rfl
  rw [checkedAdd, value, one, if_pos (by omega)]
  rfl

def held : Nat → Option Value
  | 0 => none
  | count + 1 => some (countBytes (Int64.ofInt (count + 1 : Nat)))

theorem incr_held {count : Nat} (bound : count + 1 < 2 ^ 63) (key : String) (ttl : Duration) :
    (StoreOp.incr key 1 ttl).apply (held count) =
      (held (count + 1), .ok (Int64.ofInt (count + 1 : Nat))) := by
  have read : countOf key (held count) = .ok (Int64.ofInt count) := by
    cases count with
    | zero => rfl
    | succ count => exact countOf_countBytes (by omega) key
  rw [StoreOp.apply, read]
  simp only [checkedAdd_one bound]
  rfl

theorem settled_held (nth : Nth) (record : Record) {count : Nat} (bound : count + 1 < 2 ^ 63) :
    settled nth record (.ok (Int64.ofInt (count + 1 : Nat))) =
      verdict record (decide (count % size nth = 0)) := by
  have previous : Int64.ofInt (count + 1 : Nat) - 1 = Int64.ofInt count := by
    rw [show (1 : Int64) = Int64.ofInt 1 from rfl, ← Int64.ofInt_sub]
    simp
  have value : (Int64.ofInt count).toInt = count := by
    rw [Int64.toInt_ofInt_of_le] <;> omega
  have same : (count : Int) % nth.n.toInt = 0 ↔ count % size nth = 0 := by
    rw [size_toInt]
    omega
  simp only [settled, previous, value, same]

structure Counted (nth : Nth) (store : Store) (log : List (SampleEntry pipeline tenant node)) :
    Prop where
  held : store (tenantCount pipeline tenant node) = held log.length
  kept : (log.filter passed).length = share nth log.length
  settled : ∀ entry ∈ log, entry.result = some (.pass entry.input.record) ∨
    entry.result = some (.drop .sample)

theorem counted_incr {nth : Nth} {store : Store} {log : List (SampleEntry pipeline tenant node)}
    (counted : Counted nth store log) (few : log.length + 1 < 2 ^ 63) (task : Nat)
    (input : Delivery pipeline tenant node) :
    let entry := (workers sample pipeline tenant node).entry store task input
      (.incr (tenantCount pipeline tenant node) 1 countTtl)
      (fun reply => .done (Sample.settled nth input.record reply)) .answers
    Counted nth entry.after (log ++ [entry]) := by
  intro entry
  have applied := incr_held few (tenantCount pipeline tenant node) countTtl
  rw [← counted.held] at applied
  have after : entry.after (tenantCount pipeline tenant node) = Sample.held (log.length + 1) := by
    simp [entry, Machine.entry, workers, Store.answer, StoreOp.key, applied]
  have result : entry.result =
      some (verdict input.record (decide (log.length % size nth = 0))) := by
    rw [← settled_held nth input.record few]
    simp [entry, Machine.entry, workers, Store.answer, StoreOp.key, applied, Program.result?]
  have isPassed : passed entry = decide (log.length % size nth = 0) := by
    rw [passed, result]
    by_cases first : log.length % size nth = 0
    · simp only [verdict, first, decide_true, ↓reduceIte]
    · simp only [verdict, first, decide_false, Bool.false_eq_true, ↓reduceIte]
  constructor
  · rw [after, List.length_append, List.length_singleton]
  · rw [List.filter_append, List.length_append, counted.kept, List.length_append,
      List.length_singleton, share_succ, List.filter_singleton, isPassed]
    by_cases first : log.length % size nth = 0 <;> simp [first]
  · intro other member
    rcases List.mem_append.mp member with earlier | last
    · exact counted.settled other earlier
    · rw [List.mem_singleton.mp last, result]
      by_cases first : log.length % size nth = 0
      · exact Or.inl (by simp [verdict, first]; rfl)
      · exact Or.inr (by simp [verdict, first])

/-- At every point of a run, exactly the first of each `n` deliveries of the tenant was
passed, and every other one dropped; each delivery is counted once. -/
theorem every_nth_exact {nth : Nth} {policy : StateErrorPolicy}
    (mode : sample.mode = .everyNth nth policy)
    {events : List (Interleaving.Event (Delivery pipeline tenant node) Ending (Store → Store))}
    {pool : SamplePool pipeline tenant node} {store : Store}
    (absent : store (tenantCount pipeline tenant node) = none)
    (ran : (workers sample pipeline tenant node).run (Pool.initial store) events = some pool)
    (undisturbed : ∀ event ∈ events, Undisturbed pipeline tenant node event)
    (few : pool.log.length < 2 ^ 63) :
    (pool.log.filter passed).length = share nth pool.log.length ∧
      (∀ entry ∈ pool.log, entry.result = some (.pass entry.input.record) ∨
        entry.result = some (.drop .sample)) ∧
      ∀ entry ∈ pool.log, pool.entriesOf entry.task = [entry] := by
  have once : ∀ entry ∈ pool.log, _ := fun entry member => entries_one mode ran member
  have along : pool.AllAlong fun store log =>
      log.length < 2 ^ 63 → Counted nth store log := by
    refine run_history (Undisturbed pipeline tenant node) ran undisturbed
      (fun entry member => (once entry member).2) ?_ ?_ ?_
    · intro _
      exact ⟨absent, (share_zero nth).symm, by simp⟩
    · intro store log change keeps counted few
      have before := counted few
      exact ⟨(keeps store).trans before.held, before.kept, before.settled⟩
    · rintro log entry index answers ⟨task, input, choice, before, rfl⟩ counted few
      obtain rfl : choice = .answers := answers
      rw [List.length_append, List.length_singleton] at few
      exact counted_incr (counted (by omega)) few task input
  have counted := along.1 few
  exact ⟨counted.kept, counted.settled, fun entry member => (once entry member).1⟩

end Runs

def oneInThree : Nth :=
  ⟨3, by decide⟩

def sampleDelivery : Delivery "logs" "acme" "thin" where
  record := ⟨.null⟩
  context := ⟨"thin", ⟨⟨1⟩, "acme", .reported 0, 1⟩, State.new "logs" "acme" "thin" true⟩
  handle := rfl

theorem every_nth_exact_two :
    ∃ (events : List (Interleaving.Event (Delivery "logs" "acme" "thin") Ending (Store → Store)))
      (pool : SamplePool "logs" "acme" "thin"),
      (workers ⟨.everyNth oneInThree .pass⟩ "logs" "acme" "thin").run (Pool.initial Store.empty)
        events = some pool ∧
      pool.log.map Entry.task = [1, 0] ∧ (pool.log.filter passed).length = 1 := by
  let events : List (Interleaving.Event (Delivery "logs" "acme" "thin") Ending (Store → Store)) :=
    [.spawn sampleDelivery, .spawn sampleDelivery, .advance 1 .answers, .advance 0 .answers]
  obtain ⟨pool, ran, tasks⟩ : ∃ pool : SamplePool "logs" "acme" "thin",
      (workers ⟨.everyNth oneInThree .pass⟩ "logs" "acme" "thin").run (Pool.initial Store.empty)
        events = some pool ∧ pool.log.map Entry.task = [1, 0] :=
    ⟨_, rfl, rfl⟩
  have undisturbed : ∀ event ∈ events, Undisturbed "logs" "acme" "thin" event := by
    simp [events, Undisturbed]
  have length : pool.log.length = 2 := by
    simpa using congrArg List.length tasks
  have exact_ := (every_nth_exact rfl rfl ran undisturbed (by rw [length]; decide)).1
  rw [length] at exact_
  exact ⟨events, pool, ran, tasks, exact_⟩

end FusionPipeline.Sample
