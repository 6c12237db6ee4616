import FusionPipeline.Handling
import FusionPipeline.Library.Channel

/-!
The threads of the engine: the source, the workers, and the bounded intake between them, from start to
join. What the world is when a worker handles an envelope is left open, so the others may have
done anything to it.
-/

namespace FusionPipeline

open Channel (Kept Receiver)

section Threads

inductive SourceError where
  | engineClosed
  | other (text : String)
  deriving DecidableEq, Repr

inductive SourceOutcome where
  | returned (result : Except SourceError Unit)
  | panicked

inductive EngineError where
  | spawn (thread : String) (source : String)
  | source (error : SourceError)
  | state (index : Nat) (source : StateError)
  | sourcePanicked
  | workerPanicked (index : Nat)
  deriving DecidableEq, Repr

def intakeDepthPerWorker : Nat := 64

abbrev Intake := Channel.State Envelope (List Effect)

def Intake.send (intake : Intake) (envelope : Envelope) : Option (Except SourceError Intake) :=
  if intake.connected then (Channel.step intake (.send envelope)).map .ok
  else some (.error .engineClosed)

structure RunningEngine where
  source : Option SourceOutcome
  intake : Intake
  spans : List TraceBuffer

structure Host where
  openStore : Nat → Except StateError Unit
  spawnWorker : Nat → Except String Unit
  spawnSource : Except String Unit
  clocks : Nat → Instant × SystemTime

inductive EngineEvent (World : Type) where
  | send (envelope : Envelope)
  | ends (outcome : SourceOutcome)
  | take (index : Nat)
  | finish (index : Nat) (world : World)
  | die (index : Nat)
  | leave (index : Nat)

namespace RunningEngine

variable {World : Type} (walker : Walker World)

def openStores (workerCount : Nat) (host : Host) : Except EngineError Unit :=
  if walker.pipeline.usesState then
    (List.range workerCount).forM fun index => (host.openStore index).mapError (.state index)
  else .ok ()

def start (workerCount : Nat) (host : Host) : Except EngineError RunningEngine := do
  let workerCount := max workerCount 1
  openStores walker workerCount host
  (List.range workerCount).forM fun index => (host.spawnWorker index).mapError (.spawn "worker")
  host.spawnSource.mapError (.spawn "source")
  return {
    source := none
    intake := .new (workerCount * intakeDepthPerWorker) workerCount
    spans := (List.range workerCount).map fun index =>
      .new walker.signals.tracing (host.clocks index).1 (host.clocks index).2 }

def step (fuel : Nat) (engine : RunningEngine) : EngineEvent World → Option RunningEngine
  | .send envelope =>
      match engine.source, engine.intake.send envelope with
      | none, some (.ok intake) => some { engine with intake }
      | none, some (.error _) => some engine
      | _, _ => none
  | .ends outcome =>
      match engine.source with
      | none =>
          (Channel.step engine.intake .close).map fun intake =>
            { engine with source := some outcome, intake }
      | some _ => none
  | .take index =>
      (Channel.step engine.intake (.take index)).map fun intake => { engine with intake }
  | .finish index world =>
      match engine.intake.receivers[index]?, engine.spans[index]? with
      | some (.busy envelope), some spans =>
          match walker.handle fuel envelope spans world with
          | none => none
          | some handled =>
              (Channel.step engine.intake (.finish index handled.effects)).map fun intake =>
                { engine with intake, spans := engine.spans.set index handled.spans }
      | _, _ => none
  | .die index =>
      (Channel.step engine.intake (.die index)).map fun intake => { engine with intake }
  | .leave index =>
      (Channel.step engine.intake (.leave index)).map fun intake => { engine with intake }

def firstPanic (engine : RunningEngine) : Option Nat :=
  engine.intake.receivers.findIdx? fun
    | .died _ => true
    | .waiting => false
    | .busy _ => false
    | .ended => false

/-- What `join` returns, once the threads it waits for have ended. -/
def join (engine : RunningEngine) : Option (Except EngineError Unit) :=
  match engine.source with
  | none => none
  | some .panicked => some (.error .sourcePanicked)
  | some (.returned result) =>
      if engine.intake.connected then none
      else
        match result, engine.firstPanic with
        | .error error, _ => some (.error (.source error))
        | .ok (), some index => some (.error (.workerPanicked index))
        | .ok (), none => some (.ok ())

end RunningEngine

end Threads

section Handles

variable {World : Type} {walker : Walker World} {fuel : Nat}

def Walker.Handles (walker : Walker World) (fuel : Nat) (envelope : Envelope) (effects : List Effect) :
    Prop :=
  ∃ spans world handled, spans.tracing = walker.signals.tracing ∧
    walker.handle fuel envelope spans world = some handled ∧ handled.effects = effects

theorem reject_settles (delivery : UInt64) (rejected : Rejected) :
    ∃ effect, (Walker.reject delivery rejected).filter Effect.settles = [effect] := by
  obtain ⟨reason, tenant⟩ := rejected
  cases reason with
  | missingId => exact ⟨_, rfl⟩
  | notLog => exact ⟨_, rfl⟩

/-- Every envelope is handled to its end, and settled once. -/
theorem handle_total (enough : walker.pipeline.dag.nodes.length ≤ fuel) (envelope : Envelope)
    {spans : TraceBuffer} (traces : spans.tracing = walker.signals.tracing) (world : World) :
    ∃ handled, walker.handle fuel envelope spans world = some handled ∧
      handled.spans.tracing = walker.signals.tracing ∧
      ∃ effect, handled.effects.filter Effect.settles = [effect] := by
  have ready := begin_ready traces world
  rcases resolved : walker.resolve envelope.arrival (walker.begin_ spans world).2 with
    ⟨rejected | recordMeta, entered⟩
  · obtain ⟨after, aside, arrives⟩ := arrives_leaves walker envelope.arrival (.error rejected)
    obtain ⟨effect, settles⟩ := reject_settles envelope.arrival.deliveryCount rejected
    refine ⟨⟨walker.arrives envelope.arrival (.error rejected) ++
      Walker.reject envelope.arrival.deliveryCount rejected, (walker.begin_ spans world).1, entered⟩,
      ?_, ready.1.traces, effect, ?_⟩
    · rw [Walker.handle]
      simp only [resolved]
    · rw [List.filter_append, arrives, settles, List.filter_cons_of_neg (by simp [Effect.settles]),
        filter_aside settles_ignores aside, List.nil_append]
  · obtain ⟨visits, last, halted, handled, now, before, _, handles, traced, aside, effects⟩ :=
      handle_leaves enough traces resolved
    refine ⟨handled, handles, traced, settlement (visits.findSome? (Visit.failure? recordMeta)), ?_⟩
    rw [effects, log_settles aside]

theorem Walker.Handles.settles_once (enough : walker.pipeline.dag.nodes.length ≤ fuel)
    {envelope : Envelope} {effects : List Effect} (handles : walker.Handles fuel envelope effects) :
    ∃ effect, effects.filter Effect.settles = [effect] := by
  obtain ⟨spans, world, handled, traces, ran, rfl⟩ := handles
  obtain ⟨other, same, _, once⟩ := handle_total enough envelope traces world
  obtain rfl := Option.some.inj (ran.symm.trans same)
  exact once

end Handles

section Sample

def givingHost : Host where
  openStore _ := .ok ()
  spawnWorker _ := .ok ()
  spawnSource := .ok ()
  clocks _ := (0, 0)

def deliverOne : List (EngineEvent (List Record)) :=
  [.send sampleEnvelope, .take 0, .finish 0 [], .ends (.returned (.ok ())), .leave 0]

theorem storing_starts (pipeline : Pipeline (List Record)) :
    RunningEngine.start (storingWalker pipeline) 0 givingHost =
      .ok ⟨none, .new 64 1, [.new true 0 0]⟩ := by
  have opens : RunningEngine.openStores (storingWalker pipeline) 1 givingHost = .ok () := by
    rw [RunningEngine.openStores]
    split <;> rfl
  rw [RunningEngine.start]
  exact Fallible.bind_ok_iff.mpr ⟨(), opens, rfl⟩

theorem storing_delivers {pipeline : Pipeline (List Record)} (nodes : pipeline.dag.nodes.length = 2) :
    ∃ last, Transition.run (RunningEngine.step (storingWalker pipeline) 2)
        ⟨none, .new 64 1, [.new true 0 0]⟩ deliverOne = some last ∧ last.join = some (.ok ()) := by
  have enough : (storingWalker pipeline).pipeline.dag.nodes.length ≤ 2 := nodes.le
  have traces : (TraceBuffer.new true 0 0).tracing = (storingWalker pipeline).signals.tracing := rfl
  obtain ⟨handled, ran, _⟩ := handle_total enough sampleEnvelope traces []
  have finishes : RunningEngine.step (storingWalker pipeline) 2
      ⟨none, ⟨64, false, [], [.busy sampleEnvelope], [sampleEnvelope], [sampleEnvelope], []⟩,
        [.new true 0 0]⟩ (.finish 0 []) =
      some ⟨none, ⟨64, false, [], [.waiting], [sampleEnvelope], [sampleEnvelope],
        [(sampleEnvelope, handled.effects)]⟩, [handled.spans]⟩ := by
    simp only [RunningEngine.step, List.getElem?_cons_zero, ran]
    rfl
  refine ⟨⟨some (.returned (.ok ())), ⟨64, true, [], [.ended], [sampleEnvelope], [sampleEnvelope],
    [(sampleEnvelope, handled.effects)]⟩, [handled.spans]⟩, ?_, rfl⟩
  refine Transition.run_cons_iff.mpr ⟨_, rfl, Transition.run_cons_iff.mpr ⟨_, rfl, ?_⟩⟩
  exact Transition.run_cons_iff.mpr ⟨_, finishes, rfl⟩

end Sample

section Running

variable {World : Type} {walker : Walker World} {fuel : Nat} {engine next last : RunningEngine}
  {event : EngineEvent World} {events : List (EngineEvent World)}

structure RunningEngine.Sound (walker : Walker World) (fuel count : Nat) (engine : RunningEngine) : Prop where
  intake : Kept engine.intake
  capacity : engine.intake.capacity = count * intakeDepthPerWorker
  workers : engine.intake.receivers.length = count
  buffers : engine.spans.length = count
  closed : engine.intake.closed = engine.source.isSome
  traces : ∀ spans ∈ engine.spans, spans.tracing = walker.signals.tracing
  handled : ∀ entry ∈ engine.intake.handled, walker.Handles fuel entry.1 entry.2

theorem start_sound {workerCount : Nat} {host : Host}
    (started : RunningEngine.start walker workerCount host = .ok engine) :
    engine.Sound walker fuel (max workerCount 1) := by
  obtain ⟨_, _, opened⟩ := Fallible.bind_ok_iff.mp started
  obtain ⟨_, _, spawned⟩ := Fallible.bind_ok_iff.mp opened
  obtain ⟨_, _, running⟩ := Fallible.bind_ok_iff.mp spawned
  obtain rfl := Except.ok.inj running
  refine ⟨Channel.kept_new _ _, rfl, List.length_replicate, ?_, rfl, ?_, ?_⟩
  · rw [List.length_map, List.length_range]
  · intro spans member
    obtain ⟨index, _, rfl⟩ := List.mem_map.mp member
    rfl
  · rintro entry ⟨⟩

/-- What a step of the engine does: nothing, for a send that is refused, one quiet step of the intake,
the end of the source, or the end of an envelope. -/
theorem step_cases (stepped : RunningEngine.step walker fuel engine event = some next) :
    next = engine ∨
    (∃ moved intake, Channel.step engine.intake moved = some intake ∧ moved.quiet = true ∧
      next = { engine with intake }) ∨
    (∃ outcome intake, engine.source = none ∧ Channel.step engine.intake .close = some intake ∧
      next = { engine with source := some outcome, intake }) ∨
    ∃ index envelope spans world handled intake,
      engine.intake.receivers[index]? = some (.busy envelope) ∧ engine.spans[index]? = some spans ∧
      walker.handle fuel envelope spans world = some handled ∧
      Channel.step engine.intake (.finish index handled.effects) = some intake ∧
      next = { engine with intake, spans := engine.spans.set index handled.spans } := by
  cases event with
  | send envelope =>
      rw [RunningEngine.step] at stepped
      split at stepped
      next intake running sent =>
        obtain rfl := Option.some.inj stepped
        rw [Intake.send] at sent
        split at sent
        next =>
          obtain ⟨moved, taken, same⟩ := Option.map_eq_some_iff.mp sent
          obtain rfl := Except.ok.inj same
          exact Or.inr (Or.inl ⟨_, _, taken, rfl, rfl⟩)
        next => cases sent
      next => exact Or.inl (Option.some.inj stepped).symm
      next => cases stepped
  | ends outcome =>
      rw [RunningEngine.step] at stepped
      split at stepped
      next running =>
        obtain ⟨intake, closes, rfl⟩ := Option.map_eq_some_iff.mp stepped
        exact Or.inr (Or.inr (Or.inl ⟨_, _, running, closes, rfl⟩))
      next => cases stepped
  | take index =>
      obtain ⟨intake, moved, rfl⟩ := Option.map_eq_some_iff.mp stepped
      exact Or.inr (Or.inl ⟨_, _, moved, rfl, rfl⟩)
  | die index =>
      obtain ⟨intake, moved, rfl⟩ := Option.map_eq_some_iff.mp stepped
      exact Or.inr (Or.inl ⟨_, _, moved, rfl, rfl⟩)
  | leave index =>
      obtain ⟨intake, moved, rfl⟩ := Option.map_eq_some_iff.mp stepped
      exact Or.inr (Or.inl ⟨_, _, moved, rfl, rfl⟩)
  | finish index world =>
      rw [RunningEngine.step] at stepped
      split at stepped
      next envelope spans busy buffer =>
        split at stepped
        next => cases stepped
        next handled ran =>
          obtain ⟨intake, moved, rfl⟩ := Option.map_eq_some_iff.mp stepped
          exact Or.inr (Or.inr (Or.inr ⟨index, envelope, spans, world, handled, intake, busy, buffer,
            ran, moved, rfl⟩))
      next => cases stepped

theorem sound_step {count : Nat} (enough : walker.pipeline.dag.nodes.length ≤ fuel)
    (sound : engine.Sound walker fuel count)
    (stepped : RunningEngine.step walker fuel engine event = some next) : next.Sound walker fuel count := by
  rcases step_cases stepped with rfl | ⟨moved, intake, went, quiet, rfl⟩ |
    ⟨outcome, intake, running, closes, rfl⟩ |
    ⟨index, envelope, spans, world, handled, intake, busy, buffer, ran, went, rfl⟩
  · exact sound
  · obtain ⟨capacity, workers⟩ := Channel.step_frame went
    obtain ⟨closed, same⟩ := Channel.step_quiet quiet went
    refine ⟨Channel.kept_step sound.intake went, capacity.trans sound.capacity,
      workers.trans sound.workers, sound.buffers, closed.trans sound.closed, sound.traces, ?_⟩
    rw [same]
    exact sound.handled
  · obtain ⟨_, rfl⟩ := Channel.close_iff.mp closes
    exact ⟨Channel.kept_step sound.intake closes, sound.capacity, sound.workers, sound.buffers, rfl,
      sound.traces, sound.handled⟩
  · have kept := Channel.kept_step sound.intake went
    obtain ⟨item, held, rfl⟩ := Channel.finish_iff.mp went
    obtain rfl : envelope = item := by simpa [busy] using held
    have traced := sound.traces spans (List.mem_of_getElem? buffer)
    obtain ⟨other, same, onward, _⟩ := handle_total enough envelope traced world
    obtain rfl := Option.some.inj (ran.symm.trans same)
    refine ⟨kept, sound.capacity, ?_, ?_, sound.closed, ?_, ?_⟩
    · exact List.length_set.trans sound.workers
    · exact List.length_set.trans sound.buffers
    · intro others member
      rcases List.mem_or_eq_of_mem_set member with before | rfl
      · exact sound.traces others before
      · exact onward
    · intro entry member
      rcases List.mem_append.mp member with before | new
      · exact sound.handled entry before
      · obtain rfl := List.mem_singleton.mp new
        exact ⟨spans, world, handled, traced, ran, rfl⟩

theorem run_sound {workerCount : Nat} {host : Host}
    (enough : walker.pipeline.dag.nodes.length ≤ fuel)
    (started : RunningEngine.start walker workerCount host = .ok engine)
    (ran : Transition.run (RunningEngine.step walker fuel) engine events = some last) :
    last.Sound walker fuel (max workerCount 1) :=
  Transition.run_keeps (fun _ _ _ sound stepped => sound_step enough sound stepped) ran
    (start_sound started)

theorem firstPanic_none : engine.firstPanic = none ↔
    ∀ receiver ∈ engine.intake.receivers, ∀ envelope, receiver ≠ .died envelope := by
  rw [RunningEngine.firstPanic, List.findIdx?_eq_none_iff]
  constructor
  · rintro none_ receiver member envelope rfl
    cases none_ _ member
  · intro lives receiver member
    cases receiver with
    | died envelope => exact absurd rfl (lives _ member envelope)
    | _ => rfl

theorem join_stopped {result : Except EngineError Unit} (joined : engine.join = some result)
    (sane : result ≠ .error .sourcePanicked) : engine.intake.connected = false := by
  rw [RunningEngine.join] at joined
  split at joined
  next => cases joined
  next => exact absurd (Option.some.inj joined).symm sane
  next =>
    split at joined
    next => cases joined
    next stopped => exact Bool.eq_false_iff.mpr stopped

theorem join_ok_iff : engine.join = some (.ok ()) ↔
    engine.source = some (.returned (.ok ())) ∧
      ∀ receiver ∈ engine.intake.receivers, receiver = .ended := by
  constructor
  · intro joined
    have stopped := join_stopped joined (by simp)
    rw [RunningEngine.join] at joined
    split at joined
    next => cases joined
    next => cases joined
    next result ended =>
      rw [if_neg (by simp [stopped])] at joined
      split at joined
      next => cases joined
      next => cases joined
      next lives =>
        refine ⟨ended, ?_⟩
        intro receiver member
        have silent := List.any_eq_false.mp stopped receiver member
        cases receiver with
        | ended => rfl
        | waiting => exact absurd rfl silent
        | busy envelope => exact absurd rfl silent
        | died envelope => exact absurd rfl (firstPanic_none.mp lives _ member envelope)
  · rintro ⟨ended, all⟩
    have stopped : engine.intake.connected = false :=
      List.any_eq_false.mpr fun receiver member => by simp [all receiver member, Receiver.listens]
    have lives : engine.firstPanic = none :=
      firstPanic_none.mpr fun receiver member envelope same => by
        rw [all receiver member] at same
        cases same
    simp [RunningEngine.join, ended, stopped, lives]

theorem RunningEngine.Sound.all_handled {count : Nat} (sound : engine.Sound walker fuel count)
    (some_ : 0 < count) (stopped : engine.intake.connected = false)
    (lives : ∀ receiver ∈ engine.intake.receivers, ∀ envelope, receiver ≠ .died envelope) :
    engine.intake.sent.Perm (engine.intake.handled.map Prod.fst) := by
  obtain ⟨account, left⟩ := sound.intake.stopped stopped
  obtain ⟨first, member⟩ : ∃ receiver, receiver ∈ engine.intake.receivers :=
    List.exists_mem_of_length_pos (by rw [sound.workers]; exact some_)
  have queued : engine.intake.queue = [] := by
    by_contra waiting
    obtain ⟨envelope, died⟩ := left waiting first member
    exact lives first member envelope died
  have free : engine.intake.inHand = [] := by
    refine List.filterMap_eq_nil_iff.mpr fun receiver member => ?_
    have silent := List.any_eq_false.mp stopped receiver member
    cases receiver with
    | waiting => rfl
    | ended => rfl
    | busy envelope => exact absurd rfl silent
    | died envelope => exact absurd rfl (lives _ member envelope)
  rwa [queued, free, List.append_nil, List.append_nil] at account

/-- In every run of the engine the intake keeps its bound and its order, each envelope that was sent is
handled once, in one hand, or queued, and each that was handled was settled once. When `join`
returns with no worker dead, all that was sent has been handled. -/
theorem engine_accounts {workerCount : Nat} {host : Host}
    (enough : walker.pipeline.dag.nodes.length ≤ fuel)
    (started : RunningEngine.start walker workerCount host = .ok engine)
    (ran : Transition.run (RunningEngine.step walker fuel) engine events = some last) :
    last.intake.queue.length ≤ max workerCount 1 * intakeDepthPerWorker ∧
      last.intake.sent = last.intake.taken ++ last.intake.queue ∧
      last.intake.sent.Perm
        (last.intake.handled.map Prod.fst ++ last.intake.inHand ++ last.intake.queue) ∧
      (∀ entry ∈ last.intake.handled, walker.Handles fuel entry.1 entry.2 ∧
        ∃ effect, entry.2.filter Effect.settles = [effect]) ∧
      (∀ result, last.join = some result → result ≠ .error .sourcePanicked →
        (∀ receiver ∈ last.intake.receivers, ∀ envelope, receiver ≠ .died envelope) →
          last.intake.sent.Perm (last.intake.handled.map Prod.fst)) ∧
      (last.join = some (.ok ()) → last.source = some (.returned (.ok ())) ∧
        last.intake.sent.Perm (last.intake.handled.map Prod.fst)) := by
  have sound := run_sound enough started ran
  have workers : 0 < max workerCount 1 := by omega
  refine ⟨sound.capacity ▸ sound.intake.bounded, sound.intake.inOrder, ?_, ?_, ?_, ?_⟩
  · rw [sound.intake.inOrder]
    exact sound.intake.accounted.append_right _
  · intro entry member
    have handles := sound.handled entry member
    exact ⟨handles, handles.settles_once enough⟩
  · intro result joined sane lives
    exact sound.all_handled workers (join_stopped joined sane) lives
  · intro joined
    obtain ⟨ended, all⟩ := join_ok_iff.mp joined
    refine ⟨ended, sound.all_handled workers (join_stopped joined (by simp)) ?_⟩
    intro receiver member envelope died
    rw [all receiver member] at died
    cases died

theorem engine_accounts_storing : ∃ config pipeline last,
    Config.fromYaml keepThenStore "name: logs" = .ok config ∧
      Pipeline.compile keepThenStore storing config = .ok pipeline ∧
      Transition.run (RunningEngine.step (storingWalker pipeline) 2)
        ⟨none, .new 64 1, [.new true 0 0]⟩ deliverOne = some last ∧
      last.intake.sent.Perm (last.intake.handled.map Prod.fst) := by
  obtain ⟨config, pipeline, loaded, compiled, count⟩ := storing_compiles
  obtain ⟨last, ran, joined⟩ := storing_delivers count
  obtain ⟨_, _, _, _, _, all⟩ := engine_accounts count.le (storing_starts pipeline) ran
  exact ⟨config, pipeline, last, loaded, compiled, ran, (all joined).2⟩

/-- A worker goes on: it takes, it ends what it has in hand, or it leaves. -/
def EngineEvent.works : EngineEvent World → Bool
  | .send _ => false
  | .ends _ => false
  | .take _ => true
  | .finish _ _ => true
  | .die _ => false
  | .leave _ => true

def EngineEvent.ofWorker : EngineEvent World → Bool
  | .die _ => true
  | event => event.works

theorem ofWorker_of_works (works : event.works = true) : event.ofWorker = true := by
  cases event <;> first | exact works | rfl

theorem ofWorker_lowers (ofWorker : event.ofWorker = true)
    (stepped : RunningEngine.step walker fuel engine event = some next) :
    next.source = engine.source ∧ next.intake.effort < engine.intake.effort := by
  cases event with
  | send envelope => cases ofWorker
  | ends outcome => cases ofWorker
  | take index =>
      obtain ⟨intake, moved, rfl⟩ := Option.map_eq_some_iff.mp stepped
      exact ⟨rfl, Channel.step_effort rfl moved⟩
  | die index =>
      obtain ⟨intake, moved, rfl⟩ := Option.map_eq_some_iff.mp stepped
      exact ⟨rfl, Channel.step_effort rfl moved⟩
  | leave index =>
      obtain ⟨intake, moved, rfl⟩ := Option.map_eq_some_iff.mp stepped
      exact ⟨rfl, Channel.step_effort rfl moved⟩
  | finish index world =>
      rw [RunningEngine.step] at stepped
      split at stepped
      next =>
        split at stepped
        next => cases stepped
        next =>
          obtain ⟨intake, moved, rfl⟩ := Option.map_eq_some_iff.mp stepped
          exact ⟨rfl, Channel.step_effort rfl moved⟩
      next => cases stepped

theorem RunningEngine.Sound.goes_on {count : Nat} (sound : engine.Sound walker fuel count)
    (enough : walker.pipeline.dag.nodes.length ≤ fuel) (world : World)
    (connected : engine.intake.connected = true)
    (ready : engine.intake.queue ≠ [] ∨ engine.intake.closed = true) :
    ∃ (event : EngineEvent World) (next : RunningEngine), event.works = true ∧
      RunningEngine.step walker fuel engine event = some next := by
  obtain ⟨index, ⟨envelope, busy⟩ | ⟨waiting, ⟨empty, closed⟩ | ⟨envelope, queue, queued⟩⟩⟩ :=
    Channel.connected_cases connected ready
  · have bound := (List.getElem?_eq_some_iff.mp busy).1
    rw [sound.workers, ← sound.buffers] at bound
    have buffer := List.getElem?_eq_getElem bound
    obtain ⟨handled, ran, _⟩ := handle_total enough envelope
      (sound.traces _ (List.getElem_mem bound)) world
    obtain ⟨intake, moved⟩ : ∃ intake,
        Channel.step engine.intake (.finish index handled.effects) = some intake :=
      ⟨_, Channel.finish_iff.mpr ⟨envelope, busy, rfl⟩⟩
    refine ⟨.finish index world,
      { engine with intake, spans := engine.spans.set index handled.spans }, rfl, ?_⟩
    simp only [RunningEngine.step, busy, buffer, ran, moved, Option.map_some]
  · have moved := Channel.leave_iff.mpr ⟨waiting, empty, closed, rfl⟩
    exact ⟨.leave index, _, rfl, by rw [RunningEngine.step, moved, Option.map_some]⟩
  · have moved := Channel.take_iff.mpr ⟨envelope, queue, waiting, queued, rfl⟩
    exact ⟨.take index, _, rfl, by rw [RunningEngine.step, moved, Option.map_some]⟩

theorem join_of_stopped (ended : engine.source.isSome = true) (stopped : engine.intake.connected = false) :
    engine.join.isSome = true := by
  obtain ⟨outcome, ended⟩ := Option.isSome_iff_exists.mp ended
  rw [RunningEngine.join, ended]
  cases outcome with
  | panicked => rfl
  | returned result =>
      simp only [stopped, Bool.false_eq_true, ↓reduceIte]
      split <;> rfl

/-- Once the source has ended, the workers can go on to the end: each step leaves them less to do. -/
theorem RunningEngine.Sound.drains {count : Nat} (sound : engine.Sound walker fuel count)
    (enough : walker.pipeline.dag.nodes.length ≤ fuel) (world : World)
    (ended : engine.source.isSome = true) :
    ∃ (more : List (EngineEvent World)) (final : RunningEngine),
      (∀ event ∈ more, event.works = true) ∧
      Transition.run (RunningEngine.step walker fuel) engine more = some final ∧
      final.join.isSome = true := by
  refine Transition.run_reaches (fun engine : RunningEngine => engine.intake.effort)
    (fun event : EngineEvent World => event.works = true)
    (fun engine => engine.Sound walker fuel count ∧ engine.source.isSome = true)
    (fun engine => engine.join.isSome = true) ?_ ⟨sound, ended⟩
  rintro engine ⟨sound, ended⟩ waits
  have connected : engine.intake.connected = true := by
    rw [← Bool.not_eq_false]
    exact fun stopped => waits (join_of_stopped ended stopped)
  obtain ⟨event, next, works, stepped⟩ :=
    sound.goes_on enough world connected (Or.inr (sound.closed.trans ended))
  obtain ⟨same, less⟩ := ofWorker_lowers (ofWorker_of_works works) stepped
  exact ⟨event, next, works, stepped, ⟨sound_step enough sound stepped, same ▸ ended⟩, less⟩

/-- A source that waits to send is waiting for workers that can go on, and is refused only when all of
them died. Once it has ended, the workers can go on until none receives, and then `join` returns;
however they are scheduled, and whichever die, they make a bounded number of steps. -/
theorem engine_drains {workerCount : Nat} {host : Host} (world : World)
    (enough : walker.pipeline.dag.nodes.length ≤ fuel)
    (started : RunningEngine.start walker workerCount host = .ok engine)
    (ran : Transition.run (RunningEngine.step walker fuel) engine events = some last) :
    (∀ envelope, last.source = none → last.intake.send envelope = none →
      ∃ (event : EngineEvent World) (next : RunningEngine), event.works = true ∧
        RunningEngine.step walker fuel last event = some next) ∧
    (∀ envelope error, last.source = none → last.intake.send envelope = some (.error error) →
      ∀ receiver ∈ last.intake.receivers, ∃ lost, receiver = .died lost) ∧
    (last.source.isSome = true → last.intake.connected = true →
      ∃ (event : EngineEvent World) (next : RunningEngine), event.works = true ∧
        RunningEngine.step walker fuel last event = some next) ∧
    (last.source.isSome = true → last.intake.connected = false → last.join.isSome = true) ∧
    (last.source.isSome = true → ∃ (more : List (EngineEvent World)) (final : RunningEngine),
      (∀ event ∈ more, event.works = true) ∧
      Transition.run (RunningEngine.step walker fuel) last more = some final ∧
      final.join.isSome = true) ∧
    ∀ (more : List (EngineEvent World)) (final : RunningEngine),
      (∀ event ∈ more, event.ofWorker = true) →
      Transition.run (RunningEngine.step walker fuel) last more = some final →
        more.length + final.intake.effort ≤ last.intake.effort := by
  have sound := run_sound enough started ran
  have workers : 0 < max workerCount 1 := by omega
  refine ⟨?_, ?_, ?_, join_of_stopped, ?_, ?_⟩
  · intro envelope running blocked
    rw [Intake.send] at blocked
    split at blocked
    next connected =>
      refine sound.goes_on enough world connected (Or.inl ?_)
      intro empty
      have opened := sound.closed
      rw [running] at opened
      have room : last.intake.queue.length < last.intake.capacity := by
        rw [empty, sound.capacity]
        exact Nat.mul_pos workers (by decide)
      rw [Channel.send_iff.mpr ⟨opened, room, connected, rfl⟩] at blocked
      cases blocked
    next => cases blocked
  · intro envelope error running refused receiver member
    rw [Intake.send] at refused
    split at refused
    next =>
      obtain ⟨_, _, same⟩ := Option.map_eq_some_iff.mp refused
      cases same
    next silent =>
      have deaf := List.any_eq_false.mp (Bool.eq_false_iff.mpr silent) receiver member
      cases receiver with
      | waiting => exact absurd rfl deaf
      | busy lost => exact absurd rfl deaf
      | ended =>
          have closed := (sound.intake.drained member).1
          rw [sound.closed, running] at closed
          cases closed
      | died lost => exact ⟨lost, rfl⟩
  · intro ended connected
    exact sound.goes_on enough world connected (Or.inr (sound.closed.trans ended))
  · exact fun ended => sound.drains enough world ended
  · intro more final ofWorker went
    exact Transition.run_lowers (fun engine => engine.intake.effort)
      (fun _ _ _ ofWorker stepped => (ofWorker_lowers ofWorker stepped).2) ofWorker went

/-- A source that fills the intake before any worker takes: it has to wait, for a worker that can take;
and one that ends with an envelope queued, after which four steps are left. -/
theorem engine_drains_storing : ∃ config pipeline full last,
    Config.fromYaml keepThenStore "name: logs" = .ok config ∧
      Pipeline.compile keepThenStore storing config = .ok pipeline ∧
      Transition.run (RunningEngine.step (storingWalker pipeline) 2)
        ⟨none, .new 64 1, [.new true 0 0]⟩ (List.replicate 64 (.send sampleEnvelope)) = some full ∧
      full.intake.send sampleEnvelope = none ∧
      (∃ (event : EngineEvent (List Record)) (next : RunningEngine), event.works = true ∧
        RunningEngine.step (storingWalker pipeline) 2 full event = some next) ∧
      Transition.run (RunningEngine.step (storingWalker pipeline) 2)
        ⟨none, .new 64 1, [.new true 0 0]⟩ [.send sampleEnvelope, .ends (.returned (.ok ()))] =
          some last ∧
      (∃ (more : List (EngineEvent (List Record))) (final : RunningEngine),
        (∀ event ∈ more, event.works = true) ∧
        Transition.run (RunningEngine.step (storingWalker pipeline) 2) last more = some final ∧
        final.join.isSome = true) ∧
      ∀ (more : List (EngineEvent (List Record))) (final : RunningEngine),
        (∀ event ∈ more, event.ofWorker = true) →
        Transition.run (RunningEngine.step (storingWalker pipeline) 2) last more = some final →
          more.length ≤ 4 := by
  obtain ⟨config, pipeline, loaded, compiled, count⟩ := storing_compiles
  obtain ⟨full, filled, running, blocked⟩ : ∃ full,
      Transition.run (RunningEngine.step (storingWalker pipeline) 2)
        ⟨none, .new 64 1, [.new true 0 0]⟩ (List.replicate 64 (.send sampleEnvelope)) = some full ∧
      full.source = none ∧ full.intake.send sampleEnvelope = none :=
    ⟨_, rfl, rfl, rfl⟩
  obtain ⟨last, ran, ended, left⟩ : ∃ last,
      Transition.run (RunningEngine.step (storingWalker pipeline) 2)
        ⟨none, .new 64 1, [.new true 0 0]⟩ [.send sampleEnvelope, .ends (.returned (.ok ()))] =
          some last ∧
      last.source.isSome = true ∧ last.intake.effort = 4 :=
    ⟨_, rfl, rfl, rfl⟩
  obtain ⟨waits, _⟩ := engine_drains [] count.le (storing_starts pipeline) filled
  obtain ⟨_, _, _, _, drains, bounded⟩ := engine_drains [] count.le (storing_starts pipeline) ran
  refine ⟨config, pipeline, full, last, loaded, compiled, filled, blocked,
    waits sampleEnvelope running blocked, ran, drains ended, fun more final ofWorker went => ?_⟩
  have bound := bounded more final ofWorker went
  omega

end Running

end FusionPipeline
