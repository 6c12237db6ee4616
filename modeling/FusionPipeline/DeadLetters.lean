import FusionPipeline.NatsSource

/-! A failed delivery is settled once, and terminated only when its dead letter is stored. -/

namespace FusionPipeline.Nats

open Interleaving

namespace Call

def settles : Call → Bool
  | settle _ => true
  | answer _ _ => true
  | _ => false

def terminates : Call → Bool
  | settle .term => true
  | answer _ _ => true
  | _ => false

def publishes : Call → Bool
  | publish _ => true
  | _ => false

def countsDeadLetter : Call → Bool
  | measure (.count .dlq _ _) => true
  | _ => false

end Call

def calls (kind : Call → Bool) (history : History) : Nat :=
  history.countP fun exchange => kind exchange.request

def Acknowledged (its : Option Letter) (history : History) : Prop :=
  ∃ letter, its = some letter ∧ (⟨.pubAck letter, .ok ()⟩ : Exchange Call Call.Reply) ∈ history

section Histories

variable {kind : Call → Bool} {its : Option Letter} {history : History} {request : Call}

theorem calls_concat (reply : request.Reply) :
    calls kind (history ++ [⟨request, reply⟩]) =
      calls kind history + if kind request then 1 else 0 := by
  simp [calls, List.countP_append, List.countP_cons]

theorem acknowledged_other (other : ∀ letter, request ≠ .pubAck letter) (reply : request.Reply) :
    Acknowledged its (history ++ [⟨request, reply⟩]) ↔ Acknowledged its history := by
  constructor
  · rintro ⟨letter, isIts, member⟩
    rcases List.mem_append.mp member with before | here
    · exact ⟨letter, isIts, before⟩
    · have same := congrArg Exchange.request (List.mem_singleton.mp here)
      exact absurd same.symm (other letter)
  · rintro ⟨letter, isIts, member⟩
    exact ⟨letter, isIts, List.mem_append_left _ member⟩

theorem acknowledged_ok (history : History) (letter : Letter) :
    Acknowledged (some letter) (history ++ [⟨.pubAck letter, .ok ()⟩]) :=
  ⟨letter, rfl, by simp⟩

theorem acknowledged_error {letter : Letter} {error : ClientError} :
    Acknowledged its (history ++ [⟨.pubAck letter, .error error⟩]) ↔ Acknowledged its history := by
  constructor
  · rintro ⟨other, isIts, member⟩
    rcases List.mem_append.mp member with before | here
    · exact ⟨other, isIts, before⟩
    · have same := List.mem_singleton.mp here
      simp only [Exchange.mk.injEq] at same
      obtain ⟨sameCall, sameReply⟩ := same
      cases sameCall
      simp at sameReply
  · rintro ⟨other, isIts, member⟩
    exact ⟨other, isIts, List.mem_append_left _ member⟩

theorem calls_le {limit : Nat}
    (each : ∀ earlier exchange later, history = earlier ++ exchange :: later →
      kind exchange.request = true → calls kind earlier ≤ limit) :
    calls kind history ≤ limit + 1 := by
  induction history using List.reverseRecOn with
  | nil => simp [calls]
  | append_singleton earlier exchange ih =>
      rw [calls_concat]
      split
      next isKind =>
        have bound := each earlier exchange [] rfl isKind
        omega
      next =>
        exact ih fun first other later split =>
          each first other (later ++ [exchange]) (by simp [split])

end Histories

def DeadLetters.itsLetter (deadLetters : DeadLetters) (delivery : Delivery) (failure : Failure) :
    Option Letter :=
  (deadLetters.finalPosition delivery).map fun position =>
    deadLetters.letter delivery position failure

theorem itsLetter_some {deadLetters : DeadLetters} {delivery : Delivery} {failure : Failure}
    {letter : Letter} (isIts : deadLetters.itsLetter delivery failure = some letter) :
    ∃ position, delivery.position = some position ∧ deadLetters.limit ≤ position.delivered ∧
      letter = deadLetters.letter delivery position failure := by
  obtain ⟨position, final, rfl⟩ := Option.map_eq_some_iff.mp isIts
  obtain ⟨known, reached⟩ := Option.filter_eq_some_iff.mp final
  exact ⟨position, known, by simpa [isFinalDelivery] using reached, rfl⟩

section Settling

variable (its : Option Letter)

/-- When a settlement may make a call, given the calls before it. -/
def MaySettle (history : History) : Call → Prop
  | .publish letter => its = some letter ∧ ¬ Acknowledged its history ∧
      calls Call.publishes history ≤ deadLetterRetries.length
  | .pubAck letter => its = some letter
  | .settle .ack => False
  | .settle (.nak _) => calls Call.settles history = 0 ∧ ¬ Acknowledged its history
  | .settle .term => calls Call.settles history = 0 ∧ Acknowledged its history
  | .answer _ _ => calls Call.settles history = 0 ∧ Acknowledged its history
  | .measure (.count .dlq _ _) =>
      calls Call.countsDeadLetter history = 0 ∧ Acknowledged its history
  | _ => True

structure Settled (history : History) : Prop where
  once : calls Call.settles history = 1
  counted : calls Call.countsDeadLetter history = 1 ↔ Acknowledged its history
  terminated : calls Call.terminates history = 1 ↔ Acknowledged its history

structure Trying (history : History) (tries : Nat) : Prop where
  publishes : calls Call.publishes history ≤ tries
  settles : calls Call.settles history = 0
  terminates : calls Call.terminates history = 0
  counts : calls Call.countsDeadLetter history = 0

variable {its} {history : History}

theorem Trying.aside {tries : Nat} (trying : Trying history tries) {request : Call}
    (settles : request.settles = false) (terminates : request.terminates = false)
    (publishes : request.publishes = false) (counts : request.countsDeadLetter = false)
    (reply : request.Reply) : Trying (history ++ [⟨request, reply⟩]) tries := by
  constructor
  · simpa [calls_concat, publishes] using trying.publishes
  · simpa [calls_concat, settles] using trying.settles
  · simpa [calls_concat, terminates] using trying.terminates
  · simpa [calls_concat, counts] using trying.counts

theorem Trying.publish {tries : Nat} (trying : Trying history tries) (letter : Letter)
    (reply : (Call.publish letter).Reply) :
    Trying (history ++ [⟨.publish letter, reply⟩]) (tries + 1) := by
  constructor
  · simpa [calls_concat, Call.publishes] using trying.publishes
  · simpa [calls_concat, Call.settles] using trying.settles
  · simpa [calls_concat, Call.terminates] using trying.terminates
  · simpa [calls_concat, Call.countsDeadLetter] using trying.counts

theorem attempt_obeys {letter : Letter} {tries : Nat}
    (isIts : its = some letter) (trying : Trying history tries)
    (left : tries ≤ deadLetterRetries.length) (not : ¬ Acknowledged its history) :
    (attempt letter).Obeys (MaySettle its)
      (fun history result => Trying history (tries + 1) ∧ (result = .ok () ↔ Acknowledged its history))
      history := by
  have bound := le_trans trying.publishes left
  refine Program.obeys_ask ⟨isIts, not, bound⟩ fun reply => ?_
  have published := trying.publish letter reply
  have still : ¬ Acknowledged its (history ++ [⟨.publish letter, reply⟩]) := by
    rwa [acknowledged_other (by simp)]
  cases reply with
  | error error => exact Program.obeys_pure ⟨published, by simpa using still⟩
  | ok sent =>
      refine ⟨isIts, fun reply => ⟨published.aside rfl rfl rfl rfl reply, ?_⟩⟩
      cases reply with
      | ok stored => subst isIts; exact iff_of_true rfl (acknowledged_ok _ letter)
      | error error =>
          rw [acknowledged_error]
          simpa using still

theorem publishLetter_obeys {letter : Letter} {tries : Nat} (pauses : List Duration)
    (isIts : its = some letter) (trying : Trying history tries)
    (left : tries + pauses.length ≤ deadLetterRetries.length) (not : ¬ Acknowledged its history) :
    (publishLetter letter pauses).Obeys (MaySettle its)
      (fun history result => (∃ tries, Trying history tries) ∧
        (result = .ok () ↔ Acknowledged its history)) history := by
  induction pauses generalizing history tries with
  | nil =>
      refine (attempt_obeys isIts trying left not).weaken (fun _ _ may => may) ?_
      intro history result ends
      exact ⟨⟨_, ends.1⟩, ends.2⟩
  | cons pause pauses ih =>
      simp only [List.length_cons] at left
      refine (attempt_obeys isIts trying (by omega) not).bind fun history result ends => ?_
      obtain ⟨tried, outcome⟩ := ends
      cases result with
      | ok sent => exact Program.obeys_pure ⟨⟨_, tried⟩, outcome⟩
      | error error =>
          refine Program.obeys_ask trivial fun reply => ?_
          refine ih (tried.aside rfl rfl rfl rfl reply) (by omega) ?_
          rw [acknowledged_other (by simp)]
          simpa using outcome

theorem settled_by {request : Call} (settles : calls Call.settles history = 0)
    (terminates : calls Call.terminates history = 0)
    (counted : calls Call.countsDeadLetter history = 1 ↔ Acknowledged its history)
    (isSettlement : request.settles = true)
    (fits : request.terminates = true ↔ Acknowledged its history) (reply : request.Reply) :
    Settled its (history ++ [⟨request, reply⟩]) := by
  have notPubAck : ∀ letter, request ≠ .pubAck letter := by
    rintro letter rfl
    cases isSettlement
  have notCount : request.countsDeadLetter = false := by
    cases request <;> first | rfl | cases isSettlement
  constructor
  · simp [calls_concat, settles, isSettlement]
  · simpa [calls_concat, notCount, acknowledged_other notPubAck] using counted
  · simp [calls_concat, terminates, acknowledged_other notPubAck, ← fits]

theorem Settled.report (settled : Settled its history) (line : String) :
    Settled its (history ++ [⟨.report line, ()⟩]) := by
  have other : ∀ letter, Call.report line ≠ .pubAck letter := by simp
  constructor
  · simpa [calls_concat, Call.settles] using settled.once
  · simpa [calls_concat, Call.countsDeadLetter, acknowledged_other other] using settled.counted
  · simpa [calls_concat, Call.terminates, acknowledged_other other] using settled.terminated

theorem report_obeys {reply : Except ClientError Unit} {line : ClientError → String}
    (settled : Settled its history) :
    (match reply with
      | .ok () => pure ()
      | .error error => report (line error) : SourceProgram Unit).Obeys
      (MaySettle its) (fun history _ => Settled its history) history := by
  cases reply with
  | ok done => exact Program.obeys_pure settled
  | error error => exact ⟨trivial, fun _ => settled.report _⟩

structure Ready (its : Option Letter) (history : History) : Prop where
  settles : calls Call.settles history = 0
  terminates : calls Call.terminates history = 0
  counted : calls Call.countsDeadLetter history = 1 ↔ Acknowledged its history

theorem Trying.ready {tries : Nat} (trying : Trying history tries)
    (not : ¬ Acknowledged its history) : Ready its history where
  settles := trying.settles
  terminates := trying.terminates
  counted := iff_of_false (by rw [trying.counts]; exact Nat.zero_ne_one) not

theorem nak_obeys (ready : Ready its history) (not : ¬ Acknowledged its history) (delay : Option Duration) :
    (settle (.nak delay)).Obeys (MaySettle its)
      (fun history _ => Settled its history) history := by
  refine Program.obeys_ask ⟨ready.settles, not⟩ fun reply => ?_
  have fits : (Call.settle (.nak delay)).terminates = true ↔ Acknowledged its history :=
    iff_of_false (by simp [Call.terminates]) not
  exact report_obeys (settled_by ready.settles ready.terminates ready.counted rfl fits reply)

theorem terminate_obeys (delivery : Delivery) (failure : Failure) (ready : Ready its history)
    (acknowledged : Acknowledged its history) :
    (terminate delivery failure).Obeys (MaySettle its)
      (fun history _ => Settled its history) history := by
  rw [terminate]
  split
  next =>
    refine Program.obeys_ask ⟨ready.settles, acknowledged⟩ fun reply => ?_
    have fits : (Call.settle .term).terminates = true ↔ Acknowledged its history :=
      iff_of_true rfl acknowledged
    exact report_obeys (settled_by ready.settles ready.terminates ready.counted rfl fits reply)
  next subject _ =>
    refine Program.obeys_ask ⟨ready.settles, acknowledged⟩ fun reply => ?_
    have fits : (Call.answer subject (terminateBody failure)).terminates = true ↔
        Acknowledged its history :=
      iff_of_true rfl acknowledged
    exact report_obeys (settled_by ready.settles ready.terminates ready.counted rfl fits reply)

theorem stored_obeys {tries : Nat} (trying : Trying history tries)
    (acknowledged : Acknowledged its history) (delivery : Delivery) (failure : Failure)
    (event : Event) :
    (do measure (Metrics.deadLettered delivery.tenant failure.node failure.kind)
        emit event
        terminate delivery failure : SourceProgram Unit).Obeys (MaySettle its)
      (fun history _ => Settled its history) history := by
  refine Program.obeys_ask ⟨trying.counts, acknowledged⟩ fun counted => ?_
  refine Program.obeys_ask trivial fun logged => ?_
  have still : Acknowledged its (history ++ [⟨.measure _, counted⟩] ++ [⟨.emit event, logged⟩]) := by
    rw [acknowledged_other (by simp), acknowledged_other (by simp)]
    exact acknowledged
  refine terminate_obeys delivery failure ⟨?_, ?_, ?_⟩ still
  · rw [calls_concat, calls_concat, trying.settles]
    rfl
  · rw [calls_concat, calls_concat, trying.terminates]
    rfl
  · rw [calls_concat, calls_concat, trying.counts]
    exact iff_of_true rfl still

theorem refused_obeys {tries : Nat} (trying : Trying history tries)
    (refused : ¬ Acknowledged its history) (tenant : String) (event : Event) :
    (do emit event
        measure (Metrics.dlqPublishError tenant)
        settle (.nak none) : SourceProgram Unit).Obeys (MaySettle its)
      (fun history _ => Settled its history) history := by
  refine Program.obeys_ask trivial fun logged => ?_
  refine Program.obeys_ask trivial fun counted => ?_
  have left := (trying.aside rfl rfl rfl rfl logged).aside rfl rfl rfl rfl counted
  have still : ¬ Acknowledged its
      (history ++ [⟨.emit event, logged⟩] ++ [⟨.measure _, counted⟩]) := by
    rw [acknowledged_other (by simp), acknowledged_other (by simp)]
    exact refused
  exact nak_obeys (left.ready still) still none

theorem settleFailure_obeys (deadLetters : DeadLetters) (delivery : Delivery) (failure : Failure)
    (same : deadLetters.itsLetter delivery failure = its) (trying : Trying history 0)
    (not : ¬ Acknowledged its history) (delay : Option Duration) :
    (deadLetters.settleFailure delivery delay failure).Obeys (MaySettle its)
      (fun history _ => Settled its history) history := by
  rw [DeadLetters.settleFailure]
  split
  next =>
    exact nak_obeys (trying.ready not) not _
  next position final =>
    have isIts : its = some (deadLetters.letter delivery position failure) := by
      rw [← same, DeadLetters.itsLetter, final, Option.map_some]
    refine Program.obeys_ask trivial fun started => ?_
    have begun := trying.aside rfl rfl rfl rfl started
    have still : ¬ Acknowledged its (history ++ [⟨.now, started⟩]) := by
      rwa [acknowledged_other (by simp)]
    refine (publishLetter_obeys deadLetterRetries isIts begun (by simp) still).bind ?_
    rintro tried result ⟨⟨tries, tryingOn⟩, outcome⟩
    refine Program.obeys_ask trivial fun ended => ?_
    refine Program.obeys_ask trivial fun measured => ?_
    have timed := (tryingOn.aside rfl rfl rfl rfl ended).aside rfl rfl rfl rfl measured
    have kept : Acknowledged its (tried ++ [⟨.now, ended⟩] ++ [⟨.measure _, measured⟩]) ↔
        Acknowledged its tried := by
      rw [acknowledged_other (by simp), acknowledged_other (by simp)]
    cases result with
    | ok stored => exact stored_obeys timed (kept.mpr (outcome.mp rfl)) delivery failure _
    | error error =>
        have refused : ¬ Acknowledged its tried := by simpa using outcome
        exact refused_obeys timed (mt kept.mp refused) delivery.tenant _

theorem nakked {made : History}
    (each : ∀ earlier exchange later, made = earlier ++ exchange :: later →
      MaySettle its earlier exchange.request)
    (once : calls Call.settles made = 1) (not : ¬ Acknowledged its made) :
    ∃ delay reply, (⟨.settle (.nak delay), reply⟩ : Exchange Call Call.Reply) ∈ made := by
  obtain ⟨⟨request, reply⟩, member, settles⟩ :=
    List.countP_pos_iff.mp (show 0 < calls Call.settles made by rw [once]; exact Nat.one_pos)
  obtain ⟨earlier, later, split⟩ := List.append_of_mem member
  have may := each earlier _ later split
  have none : ¬ Acknowledged its earlier := by
    rintro ⟨letter, isIts, came⟩
    exact not ⟨letter, isIts, split ▸ List.mem_append_left _ came⟩
  cases request with
  | settle kind =>
      cases kind with
      | ack => exact may.elim
      | nak delay => exact ⟨delay, reply, member⟩
      | term => exact absurd may.2 none
  | answer subject body => exact absurd may.2 none
  | _ => cases settles

end Settling

section Receiving

variable {source : NatsSource} {incoming : Incoming} {history : History}

/-- What every call of a message's whole handling keeps to: one settlement, and a terminate
only after the `PubAck` of a dead letter of that message. -/
def MayReceive (source : NatsSource) (incoming : Incoming) (history : History) (request : Call) :
    Prop :=
  (request.settles = true → calls Call.settles history = 0) ∧
    (request.terminates = true → ∃ failure, Acknowledged
      (source.deadLetters.itsLetter (source.deliveryOf incoming) failure) history)

theorem mayReceive_aside {request : Call} (settles : request.settles = false)
    (terminates : request.terminates = false) : MayReceive source incoming history request := by
  simp [MayReceive, settles, terminates]

theorem MaySettle.receive {failure : Failure} {request : Call}
    (may : MaySettle (source.deadLetters.itsLetter (source.deliveryOf incoming) failure) history
      request) : MayReceive source incoming history request := by
  cases request with
  | settle kind =>
      cases kind with
      | ack => exact may.elim
      | nak delay => exact ⟨fun _ => may.1, fun terminates => by cases terminates⟩
      | term => exact ⟨fun _ => may.1, fun _ => ⟨failure, may.2⟩⟩
  | answer subject body => exact ⟨fun _ => may.1, fun _ => ⟨failure, may.2⟩⟩
  | _ => exact mayReceive_aside rfl rfl

structure Quiet (history : History) : Prop where
  trying : Trying history 0
  none : ∀ its, ¬ Acknowledged its history

theorem Quiet.aside (quiet : Quiet history) {request : Call} (settles : request.settles = false)
    (terminates : request.terminates = false) (publishes : request.publishes = false)
    (counts : request.countsDeadLetter = false) (other : ∀ letter, request ≠ .pubAck letter)
    (reply : request.Reply) : Quiet (history ++ [⟨request, reply⟩]) where
  trying := quiet.trying.aside settles terminates publishes counts reply
  none its := by
    rw [acknowledged_other other]
    exact quiet.none its

theorem settleFailure_receives (quiet : Quiet history) (delay : Option Duration)
    (failure : Failure) :
    (source.deadLetters.settleFailure (source.deliveryOf incoming) delay failure).Obeys
      (MayReceive source incoming) (fun _ _ => True) history := by
  have obeys := settleFailure_obeys source.deadLetters (source.deliveryOf incoming) failure rfl
    quiet.trying (quiet.none _) delay
  exact obeys.weaken (fun _ _ may => may.receive) fun _ _ _ => trivial

theorem report_receives (quiet : Quiet history) (line : String) :
    (report line).Obeys (MayReceive source incoming) (fun history _ => Quiet history) history :=
  ⟨mayReceive_aside rfl rfl, fun reply => quiet.aside rfl rfl rfl rfl (by simp) reply⟩

theorem reportInvalidHeaders_receives (quiet : Quiet history) (subject tenant : String)
    (invalid : List Headers.InvalidHeader) :
    (NatsSource.reportInvalidHeaders subject tenant invalid).Obeys (MayReceive source incoming)
      (fun history _ => Quiet history) history := by
  induction invalid generalizing history with
  | nil => exact Program.obeys_pure quiet
  | cons problem rest ih =>
      refine (report_receives quiet _).bind fun history _ quiet => ?_
      refine Program.obeys_ask (mayReceive_aside rfl rfl) fun reply => ?_
      exact ih (quiet.aside rfl rfl rfl rfl (by simp) reply)

theorem rejectUndecodable_receives (quiet : Quiet history) (error : String) :
    (source.rejectUndecodable (source.deliveryOf incoming) error).Obeys
      (MayReceive source incoming) (fun _ _ => True) history := by
  have counted (measurement : Measurement) (plain : (Call.measure measurement).countsDeadLetter = false)
      {history : History} (quiet : Quiet history) : (measure measurement).Obeys
        (MayReceive source incoming) (fun history _ => Quiet history) history :=
    ⟨mayReceive_aside rfl rfl, fun reply => quiet.aside rfl rfl rfl plain (by simp) reply⟩
  have bytes : (NatsSource.countBytes (source.deliveryOf incoming)).Obeys
      (MayReceive source incoming) (fun history _ => Quiet history) history := by
    rw [NatsSource.countBytes]
    split
    next => exact counted _ rfl quiet
    next => exact Program.obeys_pure quiet
  refine bytes.bind fun history _ quiet => ?_
  have redelivered : (NatsSource.countRedelivery (source.deliveryOf incoming)).Obeys
      (MayReceive source incoming) (fun history _ => Quiet history) history := by
    rw [NatsSource.countRedelivery]
    split
    next => exact counted _ rfl quiet
    next => exact Program.obeys_pure quiet
  refine redelivered.bind fun history _ quiet => ?_
  refine (report_receives quiet _).bind fun history _ quiet => ?_
  refine (counted _ rfl quiet).bind fun history _ quiet => ?_
  exact settleFailure_receives quiet none _

theorem letGo_receives (quiet : Quiet history) (handed : Handed) :
    (source.letGo (source.deliveryOf incoming) handed).Obeys (MayReceive source incoming)
      (fun _ _ => True) history := by
  cases handed with
  | closed => exact Program.obeys_pure trivial
  | acked =>
      have may : MayReceive source incoming history (.settle .ack) :=
        ⟨fun _ => quiet.trying.settles, fun terminates => by cases terminates⟩
      refine Program.obeys_ask may fun reply => ?_
      cases reply with
      | ok done => exact Program.obeys_pure trivial
      | error error => exact ⟨mayReceive_aside rfl rfl, fun _ => trivial⟩
  | nakked delay failure => exact settleFailure_receives quiet delay failure

theorem receive_obeys (source : NatsSource) (incoming : Incoming) :
    (source.receive incoming).Obeys (MayReceive source incoming) (fun _ _ => True) [] := by
  have nothing : Quiet [] :=
    ⟨⟨Nat.zero_le _, rfl, rfl, rfl⟩, fun its ⟨_, _, member⟩ => by cases member⟩
  have info : (NatsSource.reportUnreadable incoming).Obeys (MayReceive source incoming)
      (fun history _ => Quiet history) [] := by
    rw [NatsSource.reportUnreadable]
    split
    next => exact Program.obeys_pure nothing
    next => exact report_receives nothing _
  refine info.bind fun history _ quiet => ?_
  refine (reportInvalidHeaders_receives quiet _ _ _).bind fun history _ quiet => ?_
  dsimp only
  split
  next error _ => exact rejectUndecodable_receives quiet error
  next record _ =>
    refine Program.obeys_ask (mayReceive_aside rfl rfl) fun handed => ?_
    exact letGo_receives (quiet.aside rfl rfl rfl rfl (by simp) handed) handed

end Receiving

section Runs

variable {World Choice Drift : Type} {source : NatsSource}
variable {answer : World → (request : Call) → Choice → World × request.Reply}
variable {drift : World → Drift → World} {stored : World → Letter → Prop}

def NatsSource.deliveries (source : NatsSource)
    (answer : World → (request : Call) → Choice → World × request.Reply)
    (drift : World → Drift → World) :
    Machine World Incoming Call Call.Reply Unit Choice Drift where
  start := source.receive
  answer
  drift

/-- What the source relies on: a `PubAck` means that the letter is stored, and a letter
that was stored once stays one that was. -/
structure StoresLetters (answer : World → (request : Call) → Choice → World × request.Reply)
    (drift : World → Drift → World) (stored : World → Letter → Prop) : Prop where
  acked : ∀ world letter choice, (answer world (.pubAck letter) choice).2 = .ok () →
    stored (answer world (.pubAck letter) choice).1 letter
  kept : ∀ world request choice letter, stored world letter →
    stored (answer world request choice).1 letter
  drifted : ∀ world change letter, stored world letter → stored (drift world change) letter

variable {world : World} {events : List (Interleaving.Event Incoming Choice Drift)}
variable {pool : Pool World Incoming Call Call.Reply Unit Choice}

theorem run_stores (queue : StoresLetters answer drift stored)
    (ran : (source.deliveries answer drift).run (Pool.initial world) events = some pool) :
    pool.AllAlong fun world log => ∀ entry ∈ log, ∀ letter,
      entry.exchange = ⟨.pubAck letter, .ok ()⟩ → stored world letter := by
  have answered := (run_tracked ran).answered
  refine run_history (fun _ => True) ran (fun _ _ => trivial) answered ?_ ?_ ?_
  · simp
  · intro world log change _ before entry member letter acked
    exact queue.drifted _ _ _ (before entry member letter acked)
  · intro log entry index _ answers before other member letter acked
    obtain ⟨task, input, request, choice, found, after, reply, result⟩ := entry
    replace answers : answer found request choice = (after, reply) := answers
    have leaves : (answer found request choice).1 = after := by rw [answers]
    rcases List.mem_append.mp member with earlier | last
    · have held := queue.kept found request choice letter (before other earlier letter acked)
      rwa [leaves] at held
    · rw [List.mem_singleton.mp last] at acked
      simp only [Entry.exchange, Exchange.mk.injEq] at acked
      obtain ⟨rfl, sameReply⟩ := acked
      have held := queue.acked found letter choice (by rw [answers]; exact eq_of_heq sameReply)
      rwa [leaves] at held

theorem entry_receives
    (ran : (source.deliveries answer drift).run (Pool.initial world) events = some pool)
    {earlier later : List (Entry World Incoming Call Call.Reply Unit Choice)}
    {entry : Entry World Incoming Call Call.Reply Unit Choice}
    (split : pool.log = earlier ++ entry :: later) :
    MayReceive source entry.input
      ((earlier.filter fun other => decide (other.task = entry.task)).map Entry.exchange)
      entry.request := by
  obtain ⟨program, path, _⟩ := (run_tracked ran).path_of_mem (show entry ∈ pool.log by simp [split])
  have kept := (path.reaches.obeys (receive_obeys source entry.input)).2
  have own : (pool.entriesOf entry.task).map Entry.exchange =
      (earlier.filter fun other => decide (other.task = entry.task)).map Entry.exchange ++
        entry.exchange ::
          (later.filter fun other => decide (other.task = entry.task)).map Entry.exchange := by
    simp [Pool.entriesOf, split, List.filter_append]
  have may := kept _ _ _ own
  rw [List.nil_append] at may
  exact may

theorem task_settles_once
    (ran : (source.deliveries answer drift).run (Pool.initial world) events = some pool)
    {index : Nat} {task : Interleaving.Task Incoming Call Call.Reply Unit}
    (found : pool.tasks[index]? = some task) :
    calls Call.settles ((pool.entriesOf index).map Entry.exchange) ≤ 1 := by
  obtain ⟨program, path, _⟩ := (run_tracked ran).followed index task found
  have kept := (path.reaches.obeys (receive_obeys source task.input)).2
  refine calls_le fun earlier exchange later split settles => ?_
  have may := kept earlier exchange later split
  rw [List.nil_append] at may
  exact (may.1 settles).le

theorem terminated_stored (queue : StoresLetters answer drift stored)
    (ran : (source.deliveries answer drift).run (Pool.initial world) events = some pool)
    {entry : Entry World Incoming Call Call.Reply Unit Choice} (member : entry ∈ pool.log)
    (terminates : entry.request.terminates = true) :
    ∃ position failure, (source.deliveryOf entry.input).position = some position ∧
      source.deadLetters.limit ≤ position.delivered ∧
      stored entry.before
        (source.deadLetters.letter (source.deliveryOf entry.input) position failure) := by
  obtain ⟨earlier, later, split⟩ := List.append_of_mem member
  obtain ⟨failure, letter, isIts, came⟩ := (entry_receives ran split).2 terminates
  obtain ⟨other, inTask, acked⟩ := List.mem_map.mp came
  have before := (run_stores queue ran).2 earlier entry later split other
    (List.mem_filter.mp inTask).1 letter acked
  obtain ⟨position, known, reached, rfl⟩ := itsLetter_some isIts
  exact ⟨position, failure, known, reached, before⟩

/-- Every path of a settlement, cut off anywhere, settles at most once and keeps to the
rule at each call; every whole one settles once, with a terminate exactly when the `PubAck`
came. -/
theorem settleFailure_safe {deadLetters : DeadLetters} {delivery : Delivery}
    {delay : Option Duration} {failure : Failure} {made : History} {last : SourceProgram Unit}
    (reached : (deadLetters.settleFailure delivery delay failure).Reaches made last) :
    calls Call.settles made ≤ 1 ∧ calls Call.publishes made ≤ 1 + deadLetterRetries.length ∧
      calls Call.countsDeadLetter made ≤ 1 ∧
      (∀ earlier exchange later, made = earlier ++ exchange :: later →
        MaySettle (deadLetters.itsLetter delivery failure) earlier exchange.request) ∧
      ∀ result, last = .done result →
        Settled (deadLetters.itsLetter delivery failure) made := by
  have nothing : Trying [] 0 := ⟨Nat.zero_le _, rfl, rfl, rfl⟩
  have none : ¬ Acknowledged (deadLetters.itsLetter delivery failure) [] :=
    fun ⟨_, _, member⟩ => by cases member
  have obeys := settleFailure_obeys deadLetters delivery failure rfl nothing none delay
  obtain ⟨ends, each⟩ := reached.obeys obeys
  simp only [List.nil_append] at ends each
  refine ⟨?_, ?_, ?_, each, ?_⟩
  · refine calls_le fun earlier exchange later split settles => ?_
    have may := each earlier exchange later split
    obtain ⟨request, reply⟩ := exchange
    cases request with
    | settle kind =>
        cases kind with
        | ack => exact may.elim
        | nak delay => exact may.1.le
        | term => exact may.1.le
    | answer subject body => exact may.1.le
    | _ => cases settles
  · rw [Nat.add_comm]
    refine calls_le fun earlier exchange later split publishes => ?_
    have may := each earlier exchange later split
    obtain ⟨request, reply⟩ := exchange
    cases request with
    | publish letter => exact may.2.2
    | _ => cases publishes
  · refine calls_le fun earlier exchange later split counts => ?_
    have may := each earlier exchange later split
    obtain ⟨request, reply⟩ := exchange
    cases request with
    | measure measurement =>
        cases measurement with
        | count metric labels =>
            cases metric with
            | dlq => exact may.1.le
            | _ => cases counts
        | observe => cases counts
    | _ => cases counts
  · rintro result rfl
    exact ends

/-- A failed delivery is settled once: terminated when its dead letter, tried at most four
times on its last delivery only, was acknowledged, else nakked. Over every run of any
deliveries, whatever is cut off, no message is terminated without its dead letter stored. -/
theorem dead_letter_before_terminate (queue : StoresLetters answer drift stored)
    (ran : (source.deliveries answer drift).run (Pool.initial world) events = some pool) :
    (∀ (deadLetters : DeadLetters) (delivery : Delivery) (delay : Option Duration)
      (failure : Failure) (made : History) (last : SourceProgram Unit),
      (deadLetters.settleFailure delivery delay failure).Reaches made last →
        calls Call.settles made ≤ 1 ∧ calls Call.publishes made ≤ 1 + deadLetterRetries.length ∧
        calls Call.countsDeadLetter made ≤ 1 ∧
        (∀ earlier exchange later, made = earlier ++ exchange :: later →
          MaySettle (deadLetters.itsLetter delivery failure) earlier exchange.request) ∧
        (∀ letter reply, (⟨.publish letter, reply⟩ : Exchange Call Call.Reply) ∈ made →
          ∃ position, delivery.position = some position ∧
            deadLetters.limit ≤ position.delivered ∧
            letter = deadLetters.letter delivery position failure) ∧
        (∀ result, last = .done result →
          Settled (deadLetters.itsLetter delivery failure) made ∧
          (¬ Acknowledged (deadLetters.itsLetter delivery failure) made →
            ∃ delay reply, (⟨.settle (.nak delay), reply⟩ : Exchange Call Call.Reply) ∈ made)) ∧
        ((∀ request : Call, request.Reply) → ∃ more, last.Reaches more (.done ()))) ∧
    (∀ index task, pool.tasks[index]? = some task →
      calls Call.settles ((pool.entriesOf index).map Entry.exchange) ≤ 1) ∧
    ∀ entry ∈ pool.log, entry.request.terminates = true →
      ∃ position failure, (source.deliveryOf entry.input).position = some position ∧
        source.deadLetters.limit ≤ position.delivered ∧
        stored entry.before
          (source.deadLetters.letter (source.deliveryOf entry.input) position failure) := by
  refine ⟨?_, fun index task found => task_settles_once ran found,
    fun entry member terminates => terminated_stored queue ran member terminates⟩
  intro deadLetters delivery delay failure made last reached
  obtain ⟨settles, publishes, counts, each, whole⟩ := settleFailure_safe reached
  refine ⟨settles, publishes, counts, each, ?_, ?_, ?_⟩
  · intro letter reply member
    obtain ⟨earlier, later, split⟩ := List.append_of_mem member
    exact itsLetter_some (each earlier _ later split).1
  · intro result ended
    have settled := whole result ended
    exact ⟨settled, nakked each settled.once⟩
  · intro reply
    obtain ⟨more, result, ends⟩ := Program.reaches_done last reply
    exact ⟨more, ends⟩

end Runs

/-- A server that stores every letter whose ack it is asked for, beside an engine that answers
every send alike. -/
def storingClient (handed : Handed) (letters : List Letter) : (request : Call) → List Letter × request.Reply
  | .send _ => (letters, handed)
  | .now => (letters, 0)
  | .publish _ => (letters, .ok ())
  | .pubAck letter => (letters ++ [letter], .ok ())
  | .sleep _ => (letters, ())
  | .measure _ => (letters, ())
  | .emit _ => (letters, ())
  | .report _ => (letters, ())
  | .settle _ => (letters, .ok ())
  | .answer _ _ => (letters, .ok ())

theorem storingClient_kept {handed : Handed} {letters : List Letter} (request : Call) {letter : Letter}
    (member : letter ∈ letters) : letter ∈ (storingClient handed letters request).1 := by
  cases request <;> first | exact member | exact List.mem_append_left _ member

theorem storingClient_acked (handed : Handed) (letters : List Letter) (letter : Letter) :
    letter ∈ (storingClient handed letters (.pubAck letter)).1 :=
  List.mem_append_right _ (List.mem_singleton.mpr rfl)

def storingServer (letters : List Letter) (request : Call) (_ : Unit) : List Letter × request.Reply :=
  storingClient (.nakked none (.atSource .stageError "refused")) letters request

theorem storingServer_stores :
    StoresLetters storingServer (fun letters (_ : Unit) => letters) fun letters letter =>
      letter ∈ letters where
  acked letters letter _ _ := storingClient_acked _ letters letter
  kept _ request _ _ member := storingClient_kept request member
  drifted _ _ _ member := member

def sampleSource : NatsSource where
  tenantPrefix := "logs"
  codec := .json
  parseJson _ := .ok .null
  utf8Error _ := ""
  deadLetters := ⟨"dlq", 5, ⟨false, ⟨none⟩⟩⟩

def fifthDelivery : Incoming where
  message := ⟨"logs.acme.app", none, ByteArray.empty⟩
  reply := some "ack"
  info := .ok ⟨"LOGS", 7, 5, 0⟩

theorem dead_letter_before_terminate_fifth :
    ∃ (pool : Pool (List Letter) Incoming Call Call.Reply Unit Unit)
      (entry : Entry (List Letter) Incoming Call Call.Reply Unit Unit),
      (sampleSource.deliveries storingServer fun letters (_ : Unit) => letters).run
        (Pool.initial []) (.spawn fifthDelivery :: List.replicate 9 (.advance 0 ())) = some pool ∧
      entry ∈ pool.log ∧ entry.request.terminates = true ∧
      ∃ position failure, (sampleSource.deliveryOf entry.input).position = some position ∧
        sampleSource.deadLetters.limit ≤ position.delivered ∧
        sampleSource.deadLetters.letter (sampleSource.deliveryOf entry.input) position failure ∈
          entry.before := by
  obtain ⟨pool, ran, entry, last, terminates⟩ : ∃ pool,
      (sampleSource.deliveries storingServer fun letters (_ : Unit) => letters).run
        (Pool.initial []) (.spawn fifthDelivery :: List.replicate 9 (.advance 0 ())) = some pool ∧
      ∃ entry, pool.log.getLast? = some entry ∧ entry.request.terminates = true :=
    ⟨_, rfl, _, rfl, rfl⟩
  have member := List.mem_of_getLast? last
  obtain ⟨_, _, stored⟩ := dead_letter_before_terminate storingServer_stores ran
  exact ⟨pool, entry, ran, member, terminates, stored entry member terminates⟩

end FusionPipeline.Nats
