import FusionPipeline.Dedupe

/-! Deliveries that share one state key, interleaved store call by store call. -/

namespace FusionPipeline.Dedupe

open Interleaving

/-- One record reaching the stage: its key is the shared one, and its handle was built for
a stage that declares its use of state. -/
structure Delivery (dedupe : Dedupe) (key : String) where
  record : Record
  context : Context
  declared : context.state.declared = dedupe.usesState
  sameKey : context.state.key (dedupe.stateKey record context.recordMeta) = key

section Runs

variable {dedupe : Dedupe} {key : String}

def Delivery.incoming (delivery : Delivery dedupe key) : Holder :=
  ⟨delivery.context.recordMeta.recordId, delivery.context.recordMeta.ingestionTime.unixNanos⟩

/-- Any number of workers running the stage on deliveries that share `key`. The key may
expire by itself, and a call may fail before or after it took effect. -/
def workers (dedupe : Dedupe) (key : String) :
    Machine (Option Value) (Delivery dedupe key) StoreCall StoreCall.Reply StageOutput Ending Unit where
  start delivery := dedupe.process delivery.record delivery.context
  answer cell request ending := request.answer cell ending
  drift _ _ := none

abbrev KeyPool (dedupe : Dedupe) (key : String) :=
  Pool (Option Value) (Delivery dedupe key) StoreCall StoreCall.Reply StageOutput Ending

abbrev KeyEntry (dedupe : Dedupe) (key : String) :=
  Entry (Option Value) (Delivery dedupe key) StoreCall StoreCall.Reply StageOutput Ending

abbrev KeyEvent (dedupe : Dedupe) (key : String) :=
  Event (Delivery dedupe key) Ending Unit

def unclaimed (dedupe : Dedupe) (key : String) : KeyPool dedupe key :=
  Pool.initial none

def wrote (entry : KeyEntry dedupe key) : Bool :=
  entry.choice.reaches && entry.request.writes entry.before

structure Judged (entry : KeyEntry dedupe key) : Prop where
  offers : entry.request.value = entry.input.incoming.toBytes
  takesOver : ∀ name expected value ttl, entry.request = .compareAndSet name expected value ttl →
    entry.input.incoming.againstValue expected dedupe.window.duration = .windowOver
  failed : ∀ error, entry.reply = .error error →
    entry.result = some (.stateError entry.input.record error)
  written : entry.reply = .ok none → entry.result = some (.pass entry.input.record)
  refused : ∀ current, entry.reply = .ok (some current) →
    entry.result = none ∨ entry.result = some (.pass entry.input.record) ∨
    entry.result = some ((entry.input.incoming.againstValue current
      dedupe.window.duration).settle entry.input.record)

theorem process_eq (delivery : Delivery dedupe key) :
    dedupe.process delivery.record delivery.context =
      .call (.setNx key delivery.incoming.toBytes dedupe.window.duration) fun claimed =>
        match claimed with
        | .error error => .done (.stateError delivery.record error)
        | .ok none => .done (.pass delivery.record)
        | .ok (some existing) =>
            dedupe.takeover delivery.context.state
              (dedupe.stateKey delivery.record delivery.context.recordMeta)
              delivery.incoming delivery.record takeoverAttempts existing := by
  obtain ⟨record, context, declared, sameKey⟩ := delivery
  subst sameKey
  simp only [usesState] at declared
  simp only [process, State.setNx, State.timed, declared, ↓reduceIte, Program.bind]
  refine congrArg (Program.call _) (funext fun claimed => ?_)
  rcases claimed with error | _ | existing <;> rfl

theorem takeover_eq (delivery : Delivery dedupe key) (attempts : Nat) (holder : Value)
    (isOver : delivery.incoming.againstValue holder dedupe.window.duration = .windowOver) :
    dedupe.takeover delivery.context.state
        (dedupe.stateKey delivery.record delivery.context.recordMeta)
        delivery.incoming delivery.record (attempts + 1) holder =
      .call (.compareAndSet key holder delivery.incoming.toBytes dedupe.window.duration) fun taken =>
        match taken with
        | .ok none => .done (.pass delivery.record)
        | .ok (some current) =>
            dedupe.takeover delivery.context.state
              (dedupe.stateKey delivery.record delivery.context.recordMeta)
              delivery.incoming delivery.record attempts current
        | .error error => .done (.stateError delivery.record error) := by
  obtain ⟨record, context, declared, sameKey⟩ := delivery
  subst sameKey
  simp only [usesState] at declared
  simp only [takeover, isOver, ne_eq, not_true_eq_false, ↓reduceIte, State.compareAndSet,
    State.timed, declared, Program.bind]
  refine congrArg (Program.call _) (funext fun taken => ?_)
  rcases taken with error | _ | current <;> rfl

theorem takeover_settled (delivery : Delivery dedupe key) (attempts : Nat) (holder : Value)
    (settled : delivery.incoming.againstValue holder dedupe.window.duration ≠ .windowOver) :
    dedupe.takeover delivery.context.state
        (dedupe.stateKey delivery.record delivery.context.recordMeta)
        delivery.incoming delivery.record (attempts + 1) holder =
      .done ((delivery.incoming.againstValue holder dedupe.window.duration).settle
        delivery.record) := by
  simp [takeover, settled]

theorem takeover_result (delivery : Delivery dedupe key) (attempts : Nat) (holder : Value) :
    let result := (dedupe.takeover delivery.context.state
      (dedupe.stateKey delivery.record delivery.context.recordMeta)
      delivery.incoming delivery.record attempts holder).result?
    result = none ∨ result = some (.pass delivery.record) ∨
      result = some ((delivery.incoming.againstValue holder dedupe.window.duration).settle
        delivery.record) := by
  cases attempts with
  | zero => exact Or.inr (Or.inl rfl)
  | succ attempts =>
      by_cases isOver : delivery.incoming.againstValue holder dedupe.window.duration = .windowOver
      · rw [takeover_eq delivery attempts holder isOver]
        exact Or.inl rfl
      · rw [takeover_settled delivery attempts holder isOver]
        exact Or.inr (Or.inr rfl)

theorem takeover_judged (delivery : Delivery dedupe key) (attempts : Nat) (holder : Value)
    {entries : List (KeyEntry dedupe key)} {last : StoreProgram StageOutput}
    (path : Path (dedupe.takeover delivery.context.state
      (dedupe.stateKey delivery.record delivery.context.recordMeta)
      delivery.incoming delivery.record attempts holder) entries last)
    (own : ∀ entry ∈ entries, entry.input = delivery) :
    ∀ entry ∈ entries, Judged entry := by
  induction attempts generalizing holder entries with
  | zero =>
      obtain ⟨empty, _⟩ := Path.done_cases path
      simp [empty]
  | succ attempts ih =>
      by_cases isOver : delivery.incoming.againstValue holder dedupe.window.duration = .windowOver
      · rw [takeover_eq delivery attempts holder isOver] at path
        rcases Path.call_cases path with ⟨empty, _⟩ |
          ⟨task, input, choice, before, after, reply, rest, equal, tail⟩
        · simp [empty]
        · subst equal
          have sameInput := own _ List.mem_cons_self
          simp only at sameInput
          subst sameInput
          intro entry member
          rcases List.mem_cons.mp member with first | later
          · subst first
            constructor
            · rfl
            · rintro name expected value ttl same
              simp only [StoreCall.compareAndSet.injEq] at same
              rw [← same.2.1]
              exact isOver
            · rintro error rfl
              rfl
            · rintro rfl
              rfl
            · rintro current rfl
              exact takeover_result input attempts current
          · have others : ∀ entry ∈ rest, entry.input = input :=
              fun entry member => own entry (List.mem_cons_of_mem _ member)
            cases reply with
            | error error =>
                obtain ⟨empty, _⟩ := Path.done_cases tail
                simp [empty] at later
            | ok taken =>
                cases taken with
                | none =>
                    obtain ⟨empty, _⟩ := Path.done_cases tail
                    simp [empty] at later
                | some current => exact ih current tail others entry later
      · rw [takeover_settled delivery attempts holder isOver] at path
        obtain ⟨empty, _⟩ := Path.done_cases path
        simp [empty]

theorem process_judged (delivery : Delivery dedupe key)
    {entries : List (KeyEntry dedupe key)} {last : StoreProgram StageOutput}
    (path : Path (dedupe.process delivery.record delivery.context) entries last)
    (own : ∀ entry ∈ entries, entry.input = delivery) :
    ∀ entry ∈ entries, Judged entry := by
  rw [process_eq delivery] at path
  rcases Path.call_cases path with ⟨empty, _⟩ |
    ⟨task, input, choice, before, after, reply, rest, equal, tail⟩
  · simp [empty]
  · subst equal
    have sameInput := own _ List.mem_cons_self
    simp only at sameInput
    subst sameInput
    intro entry member
    rcases List.mem_cons.mp member with first | later
    · subst first
      constructor
      · rfl
      · rintro name expected value ttl same
        simp at same
      · rintro error rfl
        rfl
      · rintro rfl
        rfl
      · rintro current rfl
        exact takeover_result input takeoverAttempts current
    · have others : ∀ entry ∈ rest, entry.input = input :=
        fun entry member => own entry (List.mem_cons_of_mem _ member)
      cases reply with
      | error error =>
          obtain ⟨empty, _⟩ := Path.done_cases tail
          simp [empty] at later
      | ok claimed =>
          cases claimed with
          | none =>
              obtain ⟨empty, _⟩ := Path.done_cases tail
              simp [empty] at later
          | some existing =>
              exact takeover_judged input takeoverAttempts existing tail others entry later

variable {pool : KeyPool dedupe key} {events : List (KeyEvent dedupe key)}

structure Sound (entry : KeyEntry dedupe key) : Prop extends Judged entry where
  leaves : entry.after = if wrote entry then some entry.input.incoming.toBytes else entry.before
  claimed : entry.reply = .ok none → entry.choice = .answers ∧ wrote entry = true
  current : ∀ value, entry.reply = .ok (some value) →
    entry.before = some value ∧ entry.request.writes entry.before = false

theorem run_sound (ran : (workers dedupe key).run (unclaimed dedupe key) events = some pool) :
    ∀ entry ∈ pool.log, Sound entry := by
  intro entry member
  have tracked := run_tracked ran
  obtain ⟨program, path, own⟩ := tracked.path_of_mem member
  have judged := process_judged entry.input path own entry
    (List.mem_filter.mpr ⟨member, decide_eq_true rfl⟩)
  have answered : entry.request.answer entry.before entry.choice = (entry.after, entry.reply) :=
    tracked.answered entry member
  refine ⟨judged, ?_, ?_, ?_⟩
  · have after := answer_after entry.before entry.request entry.choice
    rw [answered] at after
    simpa [wrote, judged.offers] using after
  · intro claimed
    obtain ⟨ending, writes⟩ := answer_none (by rw [answered]; exact claimed)
    exact ⟨ending, by simp [wrote, ending, writes, Ending.reaches]⟩
  · intro value refused
    obtain ⟨before, writes⟩ := answer_some (by rw [answered]; exact refused)
    exact ⟨before, writes⟩

theorem Sound.unwritten {entry : KeyEntry dedupe key} {value : Value} (sound : Sound entry)
    (refused : entry.reply = .ok (some value)) : wrote entry = false := by
  simp [wrote, (sound.current value refused).2]

theorem Sound.wrote_result {entry : KeyEntry dedupe key} (sound : Sound entry)
    (written : wrote entry = true) :
    entry.result = some (.pass entry.input.record) ∨
      ∃ error, entry.result = some (.stateError entry.input.record error) := by
  match reply : entry.reply with
  | .error error => exact Or.inr ⟨error, sound.failed error reply⟩
  | .ok none => exact Or.inl (sound.written reply)
  | .ok (some value) =>
      simp [sound.unwritten reply] at written

theorem Sound.drop_judged {entry : KeyEntry dedupe key} {reason : DropReason} (sound : Sound entry)
    (dropped : entry.result = some (.drop reason)) :
    reason = .dedupe ∧ ∃ value, entry.before = some value ∧
      entry.input.incoming.againstValue value dedupe.window.duration = .repeated := by
  match reply : entry.reply with
  | .error error =>
      rw [sound.failed error reply] at dropped
      cases dropped
  | .ok none =>
      rw [sound.written reply] at dropped
      cases dropped
  | .ok (some value) =>
      rcases sound.refused value reply with open_ | passed | settled
      · rw [open_] at dropped
        cases dropped
      · rw [passed] at dropped
        cases dropped
      · rw [settled, Option.some.injEq, settle_drop_iff] at dropped
        exact ⟨dropped.2, value, (sound.current value reply).1, dropped.1⟩

def writes (log : List (KeyEntry dedupe key)) : List (KeyEntry dedupe key) :=
  log.filter wrote

def holder? (log : List (KeyEntry dedupe key)) : Option Holder :=
  (writes log).getLast?.map fun entry => entry.input.incoming

theorem holder?_concat (log : List (KeyEntry dedupe key)) (entry : KeyEntry dedupe key) :
    holder? (log ++ [entry]) = if wrote entry then some entry.input.incoming else holder? log := by
  by_cases written : wrote entry = true <;> simp [holder?, writes, List.filter_append, written]

theorem run_held (ran : (workers dedupe key).run (unclaimed dedupe key) events = some pool) :
    pool.AllAlong fun cell log => ∀ value, cell = some value →
      (holder? log).map Holder.toBytes = some value := by
  refine run_history (fun _ => True) ran (fun _ _ => trivial) (run_sound ran) ?_ ?_ ?_
  · intro value held
    cases held
  · intro cell log change _ _ value held
    cases held
  · intro log entry index _ sound before value held
    rw [sound.leaves] at held
    rw [holder?_concat]
    split at held
    next written => simpa [written] using held
    next unwritten => simpa [unwritten] using before value held

theorem holder?_mem {log : List (KeyEntry dedupe key)} {holder : Holder}
    (held : holder? log = some holder) :
    ∃ entry ∈ log, wrote entry = true ∧ entry.input.incoming = holder := by
  obtain ⟨entry, last, same⟩ := Option.map_eq_some_iff.mp held
  obtain ⟨member, written⟩ := List.mem_filter.mp (List.mem_of_getLast? last)
  exact ⟨entry, member, written, same⟩

theorem drop_holder (ran : (workers dedupe key).run (unclaimed dedupe key) events = some pool)
    {earlier later : List (KeyEntry dedupe key)} {entry : KeyEntry dedupe key}
    (split : pool.log = earlier ++ entry :: later) {reason : DropReason}
    (dropped : entry.result = some (.drop reason)) :
    reason = .dedupe ∧ ∃ holder, holder? earlier = some holder ∧
      entry.input.incoming.against holder dedupe.window.duration = .repeated := by
  have sound := run_sound ran entry (by simp [split])
  obtain ⟨reasoned, value, before, judged⟩ := sound.drop_judged dropped
  obtain ⟨holder, held, bytes⟩ :=
    Option.map_eq_some_iff.mp ((run_held ran).2 earlier entry later split value before)
  subst bytes
  rw [againstValue_toBytes] at judged
  exact ⟨reasoned, holder, held, judged⟩

def visit (pool : KeyPool dedupe key) (delivery : Delivery dedupe key) :
    List (KeyEvent dedupe key) :=
  [.spawn delivery, .advance pool.tasks.length .answers]

theorem visit_ran (pool : KeyPool dedupe key) (delivery : Delivery dedupe key) :
    ∃ resume : StoreCall.Reply (.setNx key delivery.incoming.toBytes dedupe.window.duration) →
        StoreProgram StageOutput,
      dedupe.process delivery.record delivery.context = .call _ resume ∧
      let entry := (workers dedupe key).entry pool.shared pool.tasks.length delivery _ resume .answers
      (workers dedupe key).run pool (visit pool delivery) = some {
        shared := entry.after
        tasks := pool.tasks ++ [⟨delivery, some (resume entry.reply)⟩]
        log := pool.log ++ [entry] } := by
  refine ⟨_, process_eq delivery, ?_⟩
  have started : (workers dedupe key).start delivery = _ := process_eq delivery
  simp [visit, Machine.run, Transition.run, Machine.step, started]

theorem visit_free (pool : KeyPool dedupe key) (delivery : Delivery dedupe key)
    (free : pool.shared = none) :
    ∃ next entry, (workers dedupe key).run pool (visit pool delivery) = some next ∧
      next.shared = some delivery.incoming.toBytes ∧ next.log = pool.log ++ [entry] ∧
      next.tasks.length = pool.tasks.length + 1 ∧ entry.input = delivery ∧ wrote entry = true ∧
      entry.result = some (.pass delivery.record) := by
  obtain ⟨resume, started, ran⟩ := visit_ran pool delivery
  rw [process_eq delivery] at started
  simp only [Program.call.injEq, heq_eq_eq, true_and] at started
  subst started
  refine ⟨_, _, ran, ?_, rfl, by simp, rfl, ?_, ?_⟩
  · simp [Machine.entry, workers, free, Ending.reaches, StoreCall.value]
  · simp [wrote, Machine.entry, free, Ending.reaches]
  · simp [Machine.entry, workers, free, StoreCall.answer, StoreCall.apply, Program.result?]

theorem visit_held {pool : KeyPool dedupe key} (delivery : Delivery dedupe key) {holder : Holder}
    (held : pool.shared = some holder.toBytes)
    (settled : delivery.incoming.against holder dedupe.window.duration ≠ .windowOver) :
    ∃ next entry, (workers dedupe key).run pool (visit pool delivery) = some next ∧
      next.shared = pool.shared ∧ next.log = pool.log ++ [entry] ∧
      next.tasks.length = pool.tasks.length + 1 ∧ entry.input = delivery ∧ wrote entry = false ∧
      entry.result = some ((delivery.incoming.against holder dedupe.window.duration).settle
        delivery.record) := by
  obtain ⟨resume, started, ran⟩ := visit_ran pool delivery
  rw [process_eq delivery] at started
  simp only [Program.call.injEq, heq_eq_eq, true_and] at started
  subst started
  rw [← againstValue_toBytes] at settled
  refine ⟨_, _, ran, ?_, rfl, by simp, rfl, ?_, ?_⟩
  · simp [Machine.entry, workers, held, StoreCall.writes]
  · simp [wrote, Machine.entry, held, StoreCall.writes]
  · rw [← againstValue_toBytes]
    simp only [Machine.entry, workers, held, StoreCall.answer, StoreCall.apply, StoreCall.writes,
      Option.isNone_some, Bool.false_eq_true, ↓reduceIte, takeoverAttempts]
    rw [takeover_settled delivery 1 _ settled]
    rfl

theorem visit_over {pool : KeyPool dedupe key} (delivery : Delivery dedupe key) {holder : Holder}
    (held : pool.shared = some holder.toBytes)
    (isOver : delivery.incoming.against holder dedupe.window.duration = .windowOver) :
    ∃ next refused taken, (workers dedupe key).run pool
        (visit pool delivery ++ [.advance pool.tasks.length .answers]) = some next ∧
      next.log = pool.log ++ [refused, taken] ∧ wrote refused = false ∧ wrote taken = true ∧
      taken.input = delivery := by
  obtain ⟨resume, started, ran⟩ := visit_ran pool delivery
  rw [process_eq delivery] at started
  simp only [Program.call.injEq, heq_eq_eq, true_and] at started
  subst started
  rw [← againstValue_toBytes] at isOver
  obtain ⟨resume, takes⟩ : ∃ resume, dedupe.takeover delivery.context.state
      (dedupe.stateKey delivery.record delivery.context.recordMeta) delivery.incoming
      delivery.record takeoverAttempts holder.toBytes = .call (.compareAndSet key holder.toBytes
        delivery.incoming.toBytes dedupe.window.duration) resume :=
    ⟨_, takeover_eq delivery 1 holder.toBytes isOver⟩
  obtain ⟨claimed, refused, ran, shared, logged, tasks, unwritten⟩ :
      ∃ claimed refused, (workers dedupe key).run pool (visit pool delivery) = some claimed ∧
        claimed.shared = some holder.toBytes ∧ claimed.log = pool.log ++ [refused] ∧
        claimed.tasks[pool.tasks.length]? = some ⟨delivery, some (.call (.compareAndSet key
          holder.toBytes delivery.incoming.toBytes dedupe.window.duration) resume)⟩ ∧
        wrote refused = false := by
    refine ⟨_, _, ran, ?_, rfl, ?_, ?_⟩
    · simp [Machine.entry, workers, held, StoreCall.writes]
    · simp only [Machine.entry, workers, held, StoreCall.answer, StoreCall.apply, StoreCall.writes,
        Option.isNone_some, Bool.false_eq_true, ↓reduceIte, List.getElem?_concat_length,
        takes]
    · simp [wrote, Machine.entry, held, StoreCall.writes]
  have took := @step_advance _ _ _ _ _ _ _ (workers dedupe key) _ _ _ _ _ tasks Ending.answers
  refine ⟨_, refused, (workers dedupe key).entry claimed.shared pool.tasks.length delivery
      _ resume .answers,
    Transition.run_append_iff.mpr ⟨claimed, ran,
      Transition.run_cons_iff.mpr ⟨_, took, Transition.run_nil _⟩⟩, ?_, unwritten, ?_, rfl⟩
  · simp [logged]
  · simp [wrote, Machine.entry, shared, Ending.reaches, StoreCall.writes]

/-- No record is dropped without another record that wrote its key before, lies inside
the window before it, and was not dropped itself. -/
theorem drop_justified
    (ran : (workers dedupe key).run (unclaimed dedupe key) events = some pool)
    {earlier later : List (KeyEntry dedupe key)} {entry : KeyEntry dedupe key}
    (split : pool.log = earlier ++ entry :: later) {reason : DropReason}
    (dropped : entry.result = some (.drop reason)) :
    reason = .dedupe ∧ ∃ holder ∈ earlier, wrote holder = true ∧
      holder.input.incoming.id ≠ entry.input.incoming.id ∧
      holder.input.incoming.ingestionTime.toNat ≤ entry.input.incoming.ingestionTime.toNat ∧
      entry.input.incoming.ingestionTime.toNat <
        holder.input.incoming.ingestionTime.toNat + dedupe.window.duration.nanos ∧
      (holder.result = some (.pass holder.input.record) ∨
        ∃ error, holder.result = some (.stateError holder.input.record error)) := by
  obtain ⟨reasoned, _, held, judged⟩ := drop_holder ran split dropped
  obtain ⟨holder, member, written, rfl⟩ := holder?_mem held
  obtain ⟨different, notBefore, inside⟩ := (against_repeated_iff _ _ _).mp judged
  have sound := run_sound ran holder (by simp [split, member])
  have saturated := windowNanos_toNat dedupe.window.duration
  exact ⟨reasoned, holder, member, written, fun same => different same.symm, notBefore,
    by omega, sound.wrote_result written⟩

def tenSeconds : Dedupe where
  hashKeyFields _ _ := 0
  window := ⟨⟨10000000000⟩, by decide⟩
  onStateError := .pass

def tenSecondsKey : String :=
  (State.new "logs" "acme" "dedupe_body" true).key ("dedupe:" ++ Text.hexPadded 16 0)

def ingestedAt (id seconds : UInt64) : Delivery tenSeconds tenSecondsKey where
  record := ⟨.null⟩
  context := {
    nodeId := "dedupe_body"
    recordMeta := ⟨⟨id⟩, "acme", .reported (seconds * 1000000000), 1⟩
    state := State.new "logs" "acme" "dedupe_body" true }
  declared := rfl
  sameKey := rfl

theorem drop_justified_five_seconds_later :
    ∃ (events : List (KeyEvent tenSeconds tenSecondsKey)) (pool : KeyPool tenSeconds tenSecondsKey)
      (earlier : List (KeyEntry tenSeconds tenSecondsKey)) (entry : KeyEntry tenSeconds tenSecondsKey),
      (workers tenSeconds tenSecondsKey).run (unclaimed tenSeconds tenSecondsKey) events = some pool ∧
      pool.log = earlier ++ [entry] ∧ entry.input = ingestedAt 2 105 ∧
      entry.result = some (.drop .dedupe) ∧
      ∃ holder ∈ earlier, wrote holder = true ∧
        holder.input.incoming.id ≠ entry.input.incoming.id ∧
        holder.input.incoming.ingestionTime.toNat ≤ entry.input.incoming.ingestionTime.toNat ∧
        entry.input.incoming.ingestionTime.toNat <
          holder.input.incoming.ingestionTime.toNat + tenSeconds.window.duration.nanos ∧
        (holder.result = some (.pass holder.input.record) ∨
          ∃ error, holder.result = some (.stateError holder.input.record error)) := by
  obtain ⟨first, _, claims, held, _⟩ := visit_free (unclaimed tenSeconds tenSecondsKey)
    (ingestedAt 1 100) rfl
  have verdict : (ingestedAt 2 105).incoming.against (ingestedAt 1 100).incoming
      tenSeconds.window.duration = .repeated := by decide
  obtain ⟨second, entry, meets, _, logged, _, same, _, dropped⟩ :=
    visit_held (ingestedAt 2 105) held (by rw [verdict]; decide)
  rw [verdict] at dropped
  have ran := Transition.run_append_iff.mpr ⟨first, claims, meets⟩
  exact ⟨_, second, first.log, entry, ran, logged, same, dropped,
    (drop_justified ran logged dropped).2⟩

end Runs

end FusionPipeline.Dedupe
