import FusionPipeline.NatsSink
import FusionPipeline.EngineThreads
import FusionPipeline.Settling

/-! Nothing is lost between two streams: a message is acked when every record its walk made
is stored downstream or was dropped by a stage, and terminated when its dead letter is. -/

namespace FusionPipeline.Nats

open Interleaving DepthFirst

def handedOf (effects : List Effect) : Handed :=
  match effects.find? Effect.settles with
  | some .acked => .acked
  | some (.nakked delay failure) => .nakked delay failure
  | _ => .closed

section Serving

variable {World Choice : Type}

/-- The calls of a process: a send is answered by the walk of its envelope, with the buffer
of the worker that takes it, if one does; every other call goes outside. -/
def serving (walker : Walker World) (fuel : Nat) (workers : Choice → Option TraceBuffer)
    (outside : World → (request : Call) → Choice → World × request.Reply) (world : World) :
    (request : Call) → Choice → World × request.Reply
  | .send envelope, choice =>
      match (workers choice).bind fun spans => walker.handle fuel envelope spans world with
      | some handled => (handled.world, handedOf handled.effects)
      | none => (world, .closed)
  | request, choice => outside world request choice

end Serving

def NatsSource.recordOf (source : NatsSource) (incoming : Incoming) : Except String Record :=
  if (source.deliveryOf incoming).arrival.isLog then source.decode incoming.message.payload
  else .ok default

section Durability

variable {World : Type}

/-- A graph whose sinks are JetStream sinks over `client`, and whose parts lose no letter. The
world they act on may move by itself in each of their calls. -/
structure Durable (walker : Walker World) (sinks : NodeIndex → NatsSink)
    (client : World → (request : Call) → World × request.Reply) (stored : World → Letter → Prop) :
    Prop where
  instant : ∀ world letter, stored world letter → stored (walker.clock.instant world).2 letter
  system : ∀ world letter, stored world letter → stored (walker.clock.system world).2 letter
  stages : ∀ index stage, walker.pipeline.node? index = some (.stage stage) →
    ∀ record context world letter, stored world letter →
      stored (stage.process record context world).2 letter
  sinks : ∀ index sink, walker.pipeline.node? index = some (.sink sink) →
    sink = (sinks index).connected client
  client : KeepsLetters client stored

def Accounts (sinks : NodeIndex → NatsSink) (recordMeta : Meta) (stored : Letter → Prop)
    (visit : Visit) : Prop :=
  match visit.outcome with
  | .written bytes => ∃ letter,
      (sinks visit.task.index).letter ⟨recordMeta, visit.task.record⟩ = .ok letter ∧
        bytes = UInt64.ofNat letter.payload.size ∧ stored letter
  | .handedOn _ _ _ => True
  | .dropped _ => True
  | _ => False

/-- Where an envelope is that was acked when it was handled so: it was no log, or it was walked
whole, each record it was made into being served at every node it was handed to, and each visit
accounts for its record. -/
inductive Accounted (walker : Walker World) (sinks : NodeIndex → NatsSink) (stored : Letter → Prop)
    (envelope : Envelope) (spans : TraceBuffer) (world : World) (handled : Walker.Handled World) : Prop
  | ignored {tenant : String} {entered : World}
      (rejects : walker.resolve envelope.arrival (walker.begin_ spans world).2 =
        (.error ⟨.notLog, tenant⟩, entered))
  | walked {passage : Passage World} (handles : passage.Handles walker envelope spans world handled)
      (unbroken : passage.halted = false)
      (whole : (passage.visits.map Visit.task).Perm
        (walker.entry envelope.record ++ passage.visits.flatMap Visit.branches))
      (each : ∀ visit ∈ passage.visits, Accounts sinks passage.recordMeta stored visit)

variable {walker : Walker World} {sinks : NodeIndex → NatsSink} {recordMeta : Meta}
  {client : World → (request : Call) → World × request.Reply} {stored : World → Letter → Prop}
  {envelope : Envelope} {spans : TraceBuffer} {world : World}

theorem Accounts.mono {before after : Letter → Prop} (kept : ∀ letter, before letter → after letter)
    {visit : Visit} (accounts : Accounts sinks recordMeta before visit) :
    Accounts sinks recordMeta after visit := by
  rw [Accounts] at accounts ⊢
  split at accounts
  next =>
    obtain ⟨letter, encoded, sized, held⟩ := accounts
    exact ⟨letter, encoded, sized, kept letter held⟩
  next => trivial
  next => trivial
  next => exact accounts.elim

theorem Accounted.mono {before after : Letter → Prop}
    (kept : ∀ letter, before letter → after letter)
    {handled : Walker.Handled World}
    (accounted : Accounted walker sinks before envelope spans world handled) :
    Accounted walker sinks after envelope spans world handled := by
  cases accounted with
  | ignored rejects => exact .ignored rejects
  | walked handles unbroken whole each =>
      exact .walked handles unbroken whole fun visit member => (each visit member).mono kept

theorem letter_of_written {sink : NatsSink} {outgoing : Outgoing} {after : World} {bytes : UInt64}
    (keeps : KeepsLetters client stored)
    (wrote : (sink.connected client).write [outgoing] world = (some (.ok bytes), after)) :
    ∃ letter, sink.letter outgoing = .ok letter ∧ bytes = UInt64.ofNat letter.payload.size ∧
      stored after letter := by
  obtain ⟨whole, counted, held⟩ := write_stores keeps wrote
  cases encoded : sink.letter outgoing with
  | error error => simp [NatsSink.letters, encoded] at whole
  | ok letter =>
      simp only [NatsSink.letters, encoded, List.mem_singleton, forall_eq] at counted held
      refine ⟨letter, rfl, ?_, held⟩
      rw [counted, NatsSink.payloadBytes, List.foldl_cons, List.foldl_nil, UInt64.zero_add]

theorem ofStage_not_written {dag : Dag} {index : NodeIndex} {policy : StateErrorPolicy}
    {output : Option StageOutput} {bytes : UInt64} :
    Outcome.ofStage dag index policy output ≠ .written bytes := by
  cases output with
  | none => simp [Outcome.ofStage]
  | some output =>
      cases output with
      | stateError record error => cases policy <;> simp [Outcome.ofStage]
      | routed label record =>
          rw [Outcome.ofStage]
          split <;> simp
      | _ => simp [Outcome.ofStage]

def WritesStored (sinks : NodeIndex → NatsSink) (recordMeta : Meta) (stored : Letter → Prop)
    (visit : Visit) : Prop :=
  ∀ bytes, visit.outcome = .written bytes → ∃ letter,
    (sinks visit.task.index).letter ⟨recordMeta, visit.task.record⟩ = .ok letter ∧
      bytes = UInt64.ofNat letter.payload.size ∧ stored letter

namespace Durable

variable (durable : Durable walker sinks client stored)

include durable

theorem judge_keeps {index : NodeIndex} {compiled : CompiledNode World} (task : Task)
    (here : walker.pipeline.node? index = some compiled) (node : String) {letter : Letter}
    (held : stored world letter) :
    stored (walker.judge recordMeta node compiled task world).2 letter := by
  cases compiled with
  | sink sink =>
      obtain rfl := durable.sinks index sink here
      exact write_keeps durable.client held
  | stage stage => exact durable.stages index stage here _ _ _ _ held

theorem attend_keeps (number : Nat) (task : Task) {letter : Letter} (held : stored world letter) :
    stored (walker.attend recordMeta number task world).2 letter := by
  rw [Walker.attend]
  split
  next config compiled _ here =>
    exact durable.instant _ _ (durable.judge_keeps task here _ (durable.instant _ _ held))
  next => exact held

theorem judge_writes {index : NodeIndex} {compiled : CompiledNode World} {task : Task}
    (here : walker.pipeline.node? index = some compiled) (node : String) {bytes : UInt64}
    (written : (walker.judge recordMeta node compiled task world).1 = .written bytes) :
    ∃ letter, (sinks index).letter ⟨recordMeta, task.record⟩ = .ok letter ∧
      bytes = UInt64.ofNat letter.payload.size ∧
      stored (walker.judge recordMeta node compiled task world).2 letter := by
  cases compiled with
  | stage stage => exact absurd written ofStage_not_written
  | sink sink =>
      obtain rfl := durable.sinks index sink here
      obtain ⟨result, after, wrote⟩ : ∃ result after,
          ((sinks index).connected client).write [⟨recordMeta, task.record⟩] world = (result, after) :=
        ⟨_, _, rfl⟩
      have judged : walker.judge recordMeta node (.sink ((sinks index).connected client)) task world =
          (.ofSink result, after) := by
        exact congrArg (fun answer => (Outcome.ofSink answer.1, answer.2)) wrote
      rw [judged] at written ⊢
      rcases result with _ | error | count
      · cases written
      · cases written
      · obtain rfl := Outcome.written.inj written
        exact letter_of_written durable.client wrote

theorem attend_writes (number : Nat) (task : Task) (world : World) :
    WritesStored sinks recordMeta (stored (walker.attend recordMeta number task world).2)
      (walker.attend recordMeta number task world).1 := by
  intro bytes written
  rw [walker.attend_task]
  rw [Walker.attend] at written ⊢
  split at written
  next config compiled found here =>
    obtain ⟨letter, encoded, sized, held⟩ := durable.judge_writes here _ written
    exact ⟨letter, encoded, sized, durable.instant _ _ held⟩
  next => cases written

theorem begin_keeps {letter : Letter} (held : stored world letter) :
    stored (walker.begin_ spans world).2 letter := by
  rw [Walker.begin_]
  split
  · exact durable.system _ _ (durable.instant _ _ held)
  · exact held

theorem resolve_keeps (arrival : Arrival) {letter : Letter} (held : stored world letter) :
    stored (walker.resolve arrival world).2 letter := by
  rw [Walker.resolve]
  split
  · exact durable.system _ _ held
  · exact held

theorem conclude_keeps {walk : Walk World} {letter : Letter} (held : stored walk.world letter) :
    stored (walker.conclude recordMeta walk).world letter := by
  have exported : stored (walker.exportTrace recordMeta walk).world letter := by
    simp only [Walker.exportTrace]
    split
    · exact durable.instant _ _ held
    · exact held
  simp only [Walker.conclude]
  generalize walker.exportTrace recordMeta walk = traced at exported ⊢
  rw [Walker.settle]
  split
  next => exact exported
  next =>
    cases recordMeta.ingestionTime with
    | clock nanos => exact exported
    | reported nanos =>
        dsimp only
        split
        · exact durable.system _ _ exported
        · exact durable.system _ _ exported

end Durable

theorem handedOf_settles {effects : List Effect} {effect : Effect}
    (settles : effects.filter Effect.settles = [effect]) (acked : handedOf effects = .acked) :
    effect = .acked := by
  rw [handedOf, ← List.head?_filter, settles] at acked
  cases effect with
  | acked => rfl
  | _ => cases acked

theorem not_halts {outcome : Outcome} (intact : outcome.failure? = none) :
    outcome.halts ≠ true := by
  cases outcome with
  | panicked => cases intact
  | _ => simp [Outcome.halts]

theorem WritesStored.accounts {visit : Visit} {held : Letter → Prop}
    (writes : WritesStored sinks recordMeta held visit) (intact : visit.outcome.failure? = none) :
    Accounts sinks recordMeta held visit := by
  rw [Accounts]
  cases outcome : visit.outcome with
  | written bytes => exact writes bytes outcome
  | handedOn => trivial
  | dropped => trivial
  | refused => rw [outcome] at intact; cases intact
  | unrouted => rw [outcome] at intact; cases intact
  | failed => rw [outcome] at intact; cases intact
  | panicked => rw [outcome] at intact; cases intact

theorem Durable.handle_accounts (durable : Durable walker sinks client stored) {fuel : Nat}
    {handled : Walker.Handled World} (enough : walker.pipeline.dag.nodes.length ≤ fuel)
    (traces : spans.tracing = walker.signals.tracing)
    (ran : walker.handle fuel envelope spans world = some handled) :
    (∀ letter, stored world letter → stored handled.world letter) ∧
      (handedOf handled.effects = .acked →
        Accounted walker sinks (stored handled.world) envelope spans world handled) := by
  have entering (letter : Letter) (held : stored world letter) :
      stored (walker.resolve envelope.arrival (walker.begin_ spans world).2).2 letter :=
    durable.resolve_keeps _ (durable.begin_keeps held)
  rcases resolves : walker.resolve envelope.arrival (walker.begin_ spans world).2 with
    ⟨rejected | recordMeta, entered⟩
  · rw [resolves] at entering
    simp only [Walker.handle, resolves, Option.some.injEq] at ran
    obtain rfl := ran
    refine ⟨entering, fun acked => ?_⟩
    obtain ⟨reason, tenant⟩ := rejected
    cases reason with
    | notLog => exact .ignored resolves
    | missingId =>
        -- its one settlement is a nak
        obtain ⟨after, aside, arrives⟩ :=
          arrives_leaves walker envelope.arrival (.error ⟨.missingId, tenant⟩)
        rw [handedOf, ← List.head?_filter, List.filter_append, arrives,
          List.filter_cons_of_neg (by simp [Effect.settles]), filter_aside settles_ignores aside] at acked
        cases acked
  · obtain ⟨visits, last, halted, walk, served, shows_, handles⟩ := handle_walks enough traces resolves
    obtain ⟨_, passage, _, _, handlesToo, walks, rfl, _⟩ := handle_passage enough traces resolves
    obtain rfl := Option.some.inj (ran.symm.trans handlesToo)
    have concluded := Option.some.inj (ran.symm.trans handles)
    have entered_ := congrArg Prod.snd (walks.resolves.symm.trans resolves)
    have again := walks.served
    rw [Passage.Served, walks.record, show passage.before = entered from entered_] at again
    obtain ⟨rfl, rfl, rfl⟩ := served.unique again
    rw [resolves] at entering
    have onward (letter : Letter) (held : stored passage.after letter) : stored handled.world letter := by
      rw [concluded]
      refine durable.conclude_keeps ?_
      rwa [shows_.world]
    have kept (letter : Letter) (held : stored world letter) : stored passage.after letter := by
      refine served.keeps (stored · letter) (fun number task world held => ?_) (entering letter held)
      exact durable.attend_keeps number task held
    refine ⟨fun letter held => onward letter (kept letter held), fun acked => ?_⟩
    have writes : ∀ visit ∈ passage.visits,
        WritesStored sinks passage.recordMeta (stored passage.after) visit :=
      served.lasting (fun world => WritesStored sinks passage.recordMeta (stored world))
        durable.attend_writes fun visit number task world writes bytes written => by
          obtain ⟨letter, encoded, sized, held⟩ := writes bytes written
          exact ⟨letter, encoded, sized, durable.attend_keeps number task held⟩
    have intact := intact_of_acked (handedOf_settles walks.settles acked)
    have whole : passage.halted = false := by
      rw [Bool.eq_false_iff]
      intro halts
      obtain ⟨visit, member, panics⟩ := served.halts_iff.mp halts
      exact not_halts (intact visit member) panics
    exact .walked walks whole (served.tasks_perm whole) fun visit member =>
      ((writes visit member).accounts (intact visit member)).mono onward

end Durability

section Acks

variable {source : NatsSource} {incoming : Incoming} {history : History}

def NotAck (request : Call) : Prop :=
  request ≠ .settle .ack

def MayAck (source : NatsSource) (incoming : Incoming) (history : History) (request : Call) : Prop :=
  request = .settle .ack → ∃ record, source.recordOf incoming = .ok record ∧
    (⟨.send ⟨record, (source.deliveryOf incoming).arrival⟩, .acked⟩ :
      Exchange Call Call.Reply) ∈ history

theorem NotAck.may {request : Call} (other : NotAck request) : MayAck source incoming history request :=
  fun same => absurd same other

theorem settle_only {kind : AckKind} (other : kind ≠ .ack) : (settle kind).Only NotAck := by
  have notAck : NotAck (.settle kind) := fun same => other (Call.settle.inj same)
  refine (Program.only_ask notAck).bind fun reply => ?_
  cases reply with
  | ok done => exact Program.only_pure ()
  | error error => exact Program.only_ask (by simp [NotAck])

theorem attempt_only (letter : Letter) : (attempt letter).Only NotAck := by
  refine (Program.only_ask (by simp [NotAck])).bind fun reply => ?_
  cases reply with
  | ok done => exact Program.only_ask (by simp [NotAck])
  | error error => exact Program.only_pure _

theorem publishLetter_only (letter : Letter) (pauses : List Duration) :
    (publishLetter letter pauses).Only NotAck := by
  induction pauses with
  | nil => exact attempt_only letter
  | cons pause pauses ih =>
      refine (attempt_only letter).bind fun reply => ?_
      cases reply with
      | ok done => exact Program.only_pure _
      | error error => exact (Program.only_ask (by simp [NotAck])).bind fun _ => ih

theorem terminate_only (delivery : Delivery) (failure : Failure) :
    (terminate delivery failure).Only NotAck := by
  rw [terminate]
  split
  next => exact settle_only (by simp)
  next =>
    refine (Program.only_ask (by simp [NotAck])).bind fun reply => ?_
    cases reply with
    | ok done => exact Program.only_pure ()
    | error error => exact Program.only_ask (by simp [NotAck])

theorem settleFailure_only (deadLetters : DeadLetters) (delivery : Delivery) (delay : Option Duration)
    (failure : Failure) : (deadLetters.settleFailure delivery delay failure).Only NotAck := by
  rw [DeadLetters.settleFailure]
  split
  next => exact settle_only (by simp)
  next position _ =>
    refine (Program.only_ask (by simp [NotAck])).bind fun started => ?_
    refine (publishLetter_only _ _).bind fun published => ?_
    refine (Program.only_ask (by simp [NotAck])).bind fun ended => ?_
    refine (Program.only_ask (by simp [NotAck])).bind fun measured => ?_
    refine (?_ : Program.Only NotAck _)
    cases published with
    | ok stored =>
        refine (Program.only_ask (by simp [NotAck])).bind fun counted => ?_
        exact (Program.only_ask (by simp [NotAck])).bind fun logged => terminate_only _ _
    | error error =>
        refine (Program.only_ask (by simp [NotAck])).bind fun logged => ?_
        exact (Program.only_ask (by simp [NotAck])).bind fun counted => settle_only (by simp)

theorem reportUnreadable_only (incoming : Incoming) :
    (NatsSource.reportUnreadable incoming).Only NotAck := by
  rw [NatsSource.reportUnreadable]
  split
  next => exact Program.only_pure ()
  next => exact Program.only_ask (by simp [NotAck])

theorem reportInvalidHeaders_only (subject tenant : String) (invalid : List Headers.InvalidHeader) :
    (NatsSource.reportInvalidHeaders subject tenant invalid).Only NotAck := by
  induction invalid with
  | nil => exact Program.only_pure ()
  | cons problem rest ih =>
      refine (Program.only_ask (by simp [NotAck])).bind fun reported => ?_
      exact (Program.only_ask (by simp [NotAck])).bind fun counted => ih

theorem rejectUndecodable_only (delivery : Delivery) (error : String) :
    (source.rejectUndecodable delivery error).Only NotAck := by
  have bytes : (NatsSource.countBytes delivery).Only NotAck := by
    rw [NatsSource.countBytes]
    split
    next => exact Program.only_ask (by simp [NotAck])
    next => exact Program.only_pure ()
  have redelivered : (NatsSource.countRedelivery delivery).Only NotAck := by
    rw [NatsSource.countRedelivery]
    split
    next => exact Program.only_ask (by simp [NotAck])
    next => exact Program.only_pure ()
  refine bytes.bind fun _ => redelivered.bind fun _ => ?_
  refine (Program.only_ask (by simp [NotAck])).bind fun reported => ?_
  exact (Program.only_ask (by simp [NotAck])).bind fun counted => settleFailure_only _ _ _ _

theorem receive_acks (source : NatsSource) (incoming : Incoming) :
    (source.receive incoming).Obeys (MayAck source incoming) (fun _ _ => True) [] := by
  have passes (history : History) (request : Call) (other : NotAck request) :
      MayAck source incoming history request := other.may
  refine ((reportUnreadable_only incoming).obeys passes []).bind fun history _ _ => ?_
  refine ((reportInvalidHeaders_only _ _ _).obeys passes history).bind fun history _ _ => ?_
  dsimp only
  split
  next error _ => exact (rejectUndecodable_only _ error).obeys passes history
  next record decoded =>
    refine Program.obeys_ask (passes _ _ (by simp [NotAck])) fun handed => ?_
    cases handed with
    | closed => exact Program.obeys_pure trivial
    | nakked delay failure => exact (settleFailure_only _ _ delay failure).obeys passes _
    | acked =>
        refine Program.obeys_ask
          (fun _ => ⟨record, decoded, List.mem_append_right _ (List.mem_singleton_self _)⟩)
          fun reply => ?_
        cases reply with
        | ok done => exact Program.obeys_pure trivial
        | error error => exact (Program.only_ask (by simp [NotAck])).obeys passes _

end Acks

section Runs

variable {World Choice Drift : Type} {walker : Walker World} {fuel : Nat}
  {workers : Choice → Option TraceBuffer} {sinks : NodeIndex → NatsSink}
  {client : World → (request : Call) → World × request.Reply}
  {outside : World → (request : Call) → Choice → World × request.Reply}
  {drift : World → Drift → World} {stored : World → Letter → Prop}

structure Process (walker : Walker World) (fuel : Nat) (workers : Choice → Option TraceBuffer)
    (sinks : NodeIndex → NatsSink) (client : World → (request : Call) → World × request.Reply)
    (outside : World → (request : Call) → Choice → World × request.Reply)
    (drift : World → Drift → World) (stored : World → Letter → Prop) : Prop where
  durable : Durable walker sinks client stored
  enough : walker.pipeline.dag.nodes.length ≤ fuel
  traces : ∀ choice spans, workers choice = some spans → spans.tracing = walker.signals.tracing
  server : StoresLetters outside drift stored

theorem serving_send (world : World) (envelope : Envelope) (choice : Choice) :
    serving walker fuel workers outside world (.send envelope) choice = (world, .closed) ∨
      ∃ spans handled, workers choice = some spans ∧
        walker.handle fuel envelope spans world = some handled ∧
        serving walker fuel workers outside world (.send envelope) choice =
          (handled.world, handedOf handled.effects) := by
  rw [serving]
  split
  next handled ran =>
    obtain ⟨spans, taken, ran⟩ := Option.bind_eq_some_iff.mp ran
    exact Or.inr ⟨spans, handled, taken, ran, rfl⟩
  next => exact Or.inl rfl

theorem Process.serves (process : Process walker fuel workers sinks client outside drift stored) :
    StoresLetters (serving walker fuel workers outside) drift stored := by
  refine ⟨fun world letter choice acked => process.server.acked world letter choice acked, ?_,
    process.server.drifted⟩
  intro world request choice letter held
  cases request with
  | send envelope =>
      rcases serving_send world envelope choice with same | ⟨spans, handled, taken, ran, same⟩
      · rwa [same]
      · rw [same]
        have traces := process.traces choice spans taken
        exact (process.durable.handle_accounts process.enough traces ran).1 letter held
  | _ => exact process.server.kept world _ choice letter held

variable {source : NatsSource} {world : World}
  {events : List (Interleaving.Event Incoming Choice Drift)}
  {pool : Pool World Incoming Call Call.Reply Unit Choice}

/-- The ack of a send is the answer of the worker that handled its envelope there and then, and
that handling accounts for the envelope. -/
def Answered (walker : Walker World) (fuel : Nat) (workers : Choice → Option TraceBuffer)
    (sinks : NodeIndex → NatsSink) (stored : Letter → Prop)
    (sent : Entry World Incoming Call Call.Reply Unit Choice) (envelope : Envelope) : Prop :=
  ∃ spans handled, workers sent.choice = some spans ∧
    walker.handle fuel envelope spans sent.before = some handled ∧ handled.world = sent.after ∧
    handedOf handled.effects = .acked ∧
    Accounted walker sinks stored envelope spans sent.before handled

theorem Answered.mono {before after : Letter → Prop} (keeps : ∀ letter, before letter → after letter)
    {sent : Entry World Incoming Call Call.Reply Unit Choice} {envelope : Envelope}
    (answered : Answered walker fuel workers sinks before sent envelope) :
    Answered walker fuel workers sinks after sent envelope := by
  obtain ⟨spans, handled, taken, ran, left, acks, accounted⟩ := answered
  exact ⟨spans, handled, taken, ran, left, acks, accounted.mono keeps⟩

theorem run_accounts (process : Process walker fuel workers sinks client outside drift stored)
    (ran : (source.deliveries (serving walker fuel workers outside) drift).run
      (Pool.initial world) events = some pool) :
    pool.AllAlong fun world log => ∀ entry ∈ log, ∀ envelope,
      entry.exchange = ⟨.send envelope, .acked⟩ →
        Answered walker fuel workers sinks (stored world) entry envelope := by
  have answered := (run_tracked ran).answered
  refine run_history (fun _ => True) ran (fun _ _ => trivial) answered ?_ ?_ ?_
  · simp
  · intro world log change _ before entry member envelope acked
    exact (before entry member envelope acked).mono (process.server.drifted world change)
  · intro log entry index _ answers before other member envelope acked
    obtain ⟨task, input, request, choice, found, after, reply, result⟩ := entry
    replace answers : serving walker fuel workers outside found request choice = (after, reply) :=
      answers
    rcases List.mem_append.mp member with earlier | last
    · have still := (before other earlier envelope acked).mono
        (process.serves.kept found request choice)
      rwa [answers] at still
    · obtain rfl := List.mem_singleton.mp last
      simp only [Entry.exchange, Exchange.mk.injEq] at acked
      obtain ⟨rfl, sameReply⟩ := acked
      obtain rfl := eq_of_heq sameReply
      rcases serving_send found envelope choice with same | ⟨spans, handled, taken, handles, same⟩
      · cases answers.symm.trans same
      · obtain ⟨rfl, acks⟩ := Prod.mk.inj (answers.symm.trans same)
        have traces := process.traces choice spans taken
        exact ⟨spans, handled, taken, handles, rfl, acks.symm,
          (process.durable.handle_accounts process.enough traces handles).2 acks.symm⟩

/-- Over every run of any deliveries, whatever is cut off: a message is acked only once the engine
acked the envelope made of it, and every record of the walk that gave this answer was dropped by a
stage, handed on, or is stored downstream; one is terminated only once its dead letter is stored. -/
theorem settled_stored (process : Process walker fuel workers sinks client outside drift stored)
    (ran : (source.deliveries (serving walker fuel workers outside) drift).run
      (Pool.initial world) events = some pool) :
    ∀ earlier entry later, pool.log = earlier ++ entry :: later →
      (entry.request = .settle .ack → ∃ record, source.recordOf entry.input = .ok record ∧
        ∃ sent ∈ earlier, sent.task = entry.task ∧
          sent.exchange = ⟨.send ⟨record, (source.deliveryOf entry.input).arrival⟩, .acked⟩ ∧
          Answered walker fuel workers sinks (stored entry.before) sent
            ⟨record, (source.deliveryOf entry.input).arrival⟩) ∧
      (entry.request.terminates = true → ∃ position failure,
        (source.deliveryOf entry.input).position = some position ∧
        source.deadLetters.limit ≤ position.delivered ∧
        stored entry.before
          (source.deadLetters.letter (source.deliveryOf entry.input) position failure)) := by
  intro earlier entry later split
  have member : entry ∈ pool.log := by simp [split]
  refine ⟨fun acks => ?_, fun terminates => terminated_stored process.serves ran member terminates⟩
  obtain ⟨record, decoded, acked⟩ := (run_tracked ran).obeys (receive_acks source) split acks
  obtain ⟨sent, own, sends⟩ := List.mem_map.mp acked
  obtain ⟨before, sameTask⟩ := List.mem_filter.mp own
  refine ⟨record, decoded, sent, before, of_decide_eq_true sameTask, sends, ?_⟩
  exact (run_accounts process ran).2 earlier entry later split sent before _ sends

end Runs

section Sample

def nullSink : NatsSink where
  stream := "PROCESSED"
  subject := "processed.logs"
  encoding := .json
  toJson _ := .ok "null"

def publishing : Pipeline (List Letter) where
  name := "logs"
  dag := ⟨[⟨"store", "sink.nats", ["source"], .null⟩], [[]], [0], fun _ => none⟩
  nodes := [.sink (nullSink.connected (storingClient .closed))]
  workers := none
  aligned := rfl
  forward := by
    refine ⟨fun index edge member => ?_, by simp⟩
    cases index <;> simp [Dag.edgesOf] at member

def publishingWalker : Walker (List Letter) where
  pipeline := publishing
  signals := ⟨false, ⟨none⟩⟩
  clock := ⟨fun world => (0, world), fun world => (0, world)⟩

theorem publishing_durable :
    Durable publishingWalker (fun _ => nullSink) (storingClient .closed) fun letters letter =>
      letter ∈ letters := by
  refine ⟨fun _ _ held => held, fun _ _ held => held, ?_, ?_, storingClient_keeps .closed⟩
  · intro index stage here
    cases index <;> cases here
  · intro index sink here
    cases index with
    | zero => exact (CompiledNode.sink.inj (Option.some.inj here)).symm
    | succ index => cases here

theorem publishing_process :
    Process publishingWalker 1 (fun _ : Unit => some (.new false 0 0)) (fun _ => nullSink)
      (storingClient .closed) storingServer (fun letters (_ : Unit) => letters) fun letters letter =>
        letter ∈ letters where
  durable := publishing_durable
  enough := Nat.le_refl 1
  traces _ _ taken := by
    obtain rfl := Option.some.inj taken
    rfl
  server := storingServer_stores

def firstDelivery : Incoming where
  message := ⟨"logs.acme.app", some (HeaderMap.empty.insert Headers.recordIdName "7"), ByteArray.empty⟩
  reply := some "ack"
  info := .ok ⟨"LOGS", 7, 1, 0⟩

theorem settled_stored_first :
    ∃ (pool : Pool (List Letter) Incoming Call Call.Reply Unit Unit)
      (entry : Entry (List Letter) Incoming Call Call.Reply Unit Unit),
      (sampleSource.deliveries (serving publishingWalker 1 (fun _ => some (.new false 0 0))
        storingServer) fun letters (_ : Unit) => letters).run (Pool.initial [])
          [.spawn firstDelivery, .advance 0 (), .advance 0 ()] = some pool ∧
      entry ∈ pool.log ∧ entry.request = .settle .ack ∧
      entry.before.map Letter.subject = ["processed.logs"] ∧
      ∃ record, sampleSource.recordOf entry.input = .ok record ∧ ∃ sent ∈ pool.log,
        Answered publishingWalker 1 (fun _ => some (.new false 0 0)) (fun _ => nullSink)
          (· ∈ entry.before) sent ⟨record, (sampleSource.deliveryOf entry.input).arrival⟩ := by
  obtain ⟨pool, ran, sent, entry, split, acks, published⟩ : ∃ pool,
      (sampleSource.deliveries (serving publishingWalker 1 (fun _ => some (.new false 0 0))
        storingServer) fun letters (_ : Unit) => letters).run (Pool.initial [])
          [.spawn firstDelivery, .advance 0 (), .advance 0 ()] = some pool ∧
      ∃ sent entry, pool.log = [sent] ++ entry :: [] ∧ entry.request = .settle .ack ∧
        entry.before.map Letter.subject = ["processed.logs"] :=
    ⟨_, rfl, _, _, rfl, rfl, rfl⟩
  obtain ⟨record, decoded, other, member, _, _, answered⟩ :=
    (settled_stored publishing_process ran [sent] entry [] split).1 acks
  refine ⟨pool, entry, ran, by simp [split], acks, published, record, decoded, other, ?_, answered⟩
  rw [split]
  exact List.mem_append_left _ member

end Sample

end FusionPipeline.Nats
