import FusionPipeline.DeadLetters

/-! The JetStream sink: a batch is published whole, then every `PubAck` of it is awaited. -/

namespace FusionPipeline.Nats

open Interleaving

inductive Encoding where
  | json
  | text
  deriving DecidableEq, Repr

def Encoding.encode (encoding : Encoding) (toJson : Json → Except String String) (record : Record) :
    Except String ByteArray :=
  match encoding, record.value with
  | .text, .string line => .ok line.toUTF8
  | _, value => (toJson value).map String.toUTF8

inductive WriteError where
  | serialize (error : String)
  | publish (subject stream : String) (source : ClientError)
  deriving DecidableEq, Repr

def WriteError.text : WriteError → String
  | serialize error => "record could not be serialized: " ++ error
  | publish subject stream source =>
      "publish to `" ++ subject ++ "` (stream `" ++ stream ++ "`) was not acknowledged: " ++ source.text

/-- A sink node. `toJson` is the text of a value, or why it has none. -/
structure NatsSink where
  stream : String
  subject : String
  encoding : Encoding
  toJson : Json → Except String String

namespace NatsSink

variable (sink : NatsSink)

def letter (outgoing : Outgoing) : Except String Letter :=
  (sink.encoding.encode sink.toJson outgoing.record).map fun payload =>
    ⟨sink.subject, Headers.forMeta outgoing.recordMeta, payload⟩

def publishError (source : ClientError) : WriteError :=
  .publish sink.subject sink.stream source

def sendAll : List Outgoing → List Letter → UInt64 →
    SourceProgram (Except WriteError (List Letter × UInt64))
  | [], acks, bytes => pure (.ok (acks, bytes))
  | outgoing :: batch, acks, bytes =>
      match sink.letter outgoing with
      | .error error => pure (.error (.serialize error))
      | .ok letter => do
          match ← sendLetter letter with
          | .error error => pure (.error (sink.publishError error))
          | .ok () => sendAll batch (acks ++ [letter]) (bytes + UInt64.ofNat letter.payload.size)

def awaitAll : List Letter → SourceProgram (Except WriteError Unit)
  | [] => pure (.ok ())
  | letter :: acks => do
      match ← awaitPubAck letter with
      | .error error => pure (.error (sink.publishError error))
      | .ok () => awaitAll acks

def publishAll (batch : List Outgoing) : SourceProgram (Except WriteError UInt64) := do
  match ← sink.sendAll batch [] 0 with
  | .error error => pure (.error error)
  | .ok (acks, bytes) => do
      match ← sink.awaitAll acks with
      | .error error => pure (.error error)
      | .ok () => pure (.ok bytes)

def connected {World : Type} (client : World → (request : Call) → World × request.Reply) : Sink World where
  write batch world :=
    let (written, world) := (sink.publishAll batch).perform client world
    (some (written.mapError fun error => ⟨error.text⟩), world)

def letters : List Outgoing → List Letter
  | [] => []
  | outgoing :: batch =>
      match sink.letter outgoing with
      | .error _ => []
      | .ok letter => letter :: letters batch

def payloadBytes (letters : List Letter) : UInt64 :=
  letters.foldl (fun bytes letter => bytes + UInt64.ofNat letter.payload.size) 0

/-- The calls of a batch when nothing is refused: all publishes, then all acks. -/
def plan (batch : List Outgoing) : List Call :=
  (sink.letters batch).map .publish ++
    if (sink.letters batch).length = batch.length then (sink.letters batch).map .pubAck else []

end NatsSink

def acknowledged? : Exchange Call Call.Reply → Option Letter
  | ⟨.pubAck letter, .ok ()⟩ => some letter
  | _ => none

def acknowledged (made : History) : List Letter :=
  made.filterMap acknowledged?

def refusal? : Exchange Call Call.Reply → Option ClientError
  | ⟨.publish _, .error error⟩ => some error
  | ⟨.pubAck _, .error error⟩ => some error
  | _ => none

def Ends (sink : NatsSink) (batch : List Outgoing) (made : History) :
    Except WriteError UInt64 → Prop
  | .ok bytes =>
      (sink.letters batch).length = batch.length ∧ acknowledged made = sink.letters batch ∧
        bytes = NatsSink.payloadBytes (sink.letters batch)
  | .error (.serialize error) =>
      (∃ outgoing, batch[(sink.letters batch).length]? = some outgoing ∧
        sink.letter outgoing = .error error) ∧
      made.map Exchange.request = (sink.letters batch).map .publish
  | .error (.publish subject stream source) =>
      subject = sink.subject ∧ stream = sink.stream ∧
        (acknowledged made).length < batch.length ∧
        made.getLast?.bind refusal? = some source

section Batches

variable {sink : NatsSink} {batch rest : List Outgoing} {acks acked left : List Letter}
  {history : History} {bytes : UInt64}

theorem acknowledged_concat (exchange : Exchange Call Call.Reply) :
    acknowledged (history ++ [exchange]) = acknowledged history ++ (acknowledged? exchange).toList := by
  rw [acknowledged, List.filterMap_append, List.filterMap_cons]
  cases acknowledged? exchange <;> rfl

theorem mem_acknowledged {letter : Letter} :
    letter ∈ acknowledged history ↔
      (⟨.pubAck letter, .ok ()⟩ : Exchange Call Call.Reply) ∈ history := by
  rw [acknowledged, List.mem_filterMap]
  constructor
  · rintro ⟨⟨request, reply⟩, member, same⟩
    cases request with
    | pubAck other =>
        cases reply with
        | ok stored =>
            obtain rfl := Option.some.inj same
            exact member
        | error error => cases same
    | _ => cases same
  · exact fun member => ⟨_, member, rfl⟩

theorem payloadBytes_concat (letter : Letter) :
    NatsSink.payloadBytes (acks ++ [letter]) =
      NatsSink.payloadBytes acks + UInt64.ofNat letter.payload.size := by
  rw [NatsSink.payloadBytes, List.foldl_append]
  rfl

theorem letters_le (sink : NatsSink) (batch : List Outgoing) :
    (sink.letters batch).length ≤ batch.length := by
  induction batch with
  | nil => exact Nat.le_refl 0
  | cons outgoing batch ih =>
      rw [NatsSink.letters]
      split
      next => exact Nat.zero_le _
      next => exact Nat.succ_le_succ ih

def Next (sink : NatsSink) (batch : List Outgoing) (history : History) (request : Call) : Prop :=
  history.map Exchange.request ++ [request] <+: sink.plan batch

structure Sending (sink : NatsSink) (batch rest : List Outgoing) (acks : List Letter)
    (history : History) : Prop where
  letters : sink.letters batch = acks ++ sink.letters rest
  left : batch.drop acks.length = rest
  sent : history.map Exchange.request = acks.map .publish
  none : acknowledged history = []

theorem Sending.next {outgoing : Outgoing} {letter : Letter}
    (sending : Sending sink batch (outgoing :: rest) acks history)
    (encoded : sink.letter outgoing = .ok letter) : Next sink batch history (.publish letter) := by
  have letters : sink.letters batch = acks ++ letter :: sink.letters rest := by
    rw [sending.letters, NatsSink.letters, encoded]
  rw [Next, NatsSink.plan, sending.sent, letters, List.map_append, List.map_cons]
  simp only [List.append_assoc, List.cons_append, List.prefix_append_right_inj]
  exact ⟨_, rfl⟩

theorem Sending.step {outgoing : Outgoing} {letter : Letter}
    (sending : Sending sink batch (outgoing :: rest) acks history)
    (encoded : sink.letter outgoing = .ok letter) (reply : (Call.publish letter).Reply) :
    Sending sink batch rest (acks ++ [letter]) (history ++ [⟨.publish letter, reply⟩]) := by
  refine ⟨?_, ?_, ?_, ?_⟩
  · rw [sending.letters, NatsSink.letters, encoded, List.append_assoc]
    rfl
  · rw [List.length_append, List.length_singleton, ← List.drop_drop, sending.left]
    rfl
  · rw [List.map_append, List.map_append, sending.sent]
    rfl
  · rw [acknowledged_concat, sending.none]
    rfl

theorem Sending.some_left {outgoing : Outgoing}
    (sending : Sending sink batch (outgoing :: rest) acks history) :
    batch[acks.length]? = some outgoing := by
  have first := congrArg List.head? sending.left
  rwa [List.head?_drop, List.head?_cons] at first

theorem sendAll_obeys (sending : Sending sink batch rest acks history)
    (counted : bytes = NatsSink.payloadBytes acks) :
    (sink.sendAll rest acks bytes).Obeys (Next sink batch)
      (fun history result => match result with
        | .ok (acks, bytes) => Sending sink batch [] acks history ∧ bytes = NatsSink.payloadBytes acks
        | .error error => Ends sink batch history (.error error)) history := by
  induction rest generalizing acks bytes history with
  | nil => exact Program.obeys_pure ⟨sending, counted⟩
  | cons outgoing rest ih =>
      have here := sending.some_left
      rw [NatsSink.sendAll]
      split
      next error failed =>
        refine Program.obeys_pure ?_
        have letters : sink.letters batch = acks := by
          rw [sending.letters, NatsSink.letters, failed, List.append_nil]
        exact ⟨⟨outgoing, letters ▸ here, failed⟩, letters ▸ sending.sent⟩
      next letter encoded =>
        refine Program.obeys_ask (sending.next encoded) fun reply => ?_
        have sent := sending.step encoded reply
        cases reply with
        | ok done =>
            refine ih sent ?_
            rw [payloadBytes_concat, counted]
        | error error =>
            refine Program.obeys_pure ⟨rfl, rfl, ?_, ?_⟩
            · rw [sent.none]
              exact Nat.zero_lt_of_lt (List.getElem?_eq_some_iff.mp here).1
            · rw [List.getLast?_concat]
              rfl

structure Awaiting (sink : NatsSink) (batch : List Outgoing) (acked left : List Letter)
    (history : History) : Prop where
  letters : sink.letters batch = acked ++ left
  whole : (sink.letters batch).length = batch.length
  made : history.map Exchange.request = (sink.letters batch).map .publish ++ acked.map .pubAck
  came : acknowledged history = acked

theorem Sending.awaiting (sending : Sending sink batch [] acks history) :
    Awaiting sink batch [] acks history := by
  have letters : sink.letters batch = acks := by
    rw [sending.letters, NatsSink.letters, List.append_nil]
  refine ⟨letters, ?_, ?_, sending.none⟩
  · have enough := List.drop_eq_nil_iff.mp sending.left
    have few := letters_le sink batch
    rw [letters] at few ⊢
    exact le_antisymm few enough
  · rw [letters, sending.sent, List.map_nil, List.append_nil]

theorem Awaiting.next {letter : Letter} (awaiting : Awaiting sink batch acked (letter :: left) history) :
    Next sink batch history (.pubAck letter) := by
  rw [Next, NatsSink.plan, if_pos awaiting.whole, awaiting.made, List.append_assoc,
    List.prefix_append_right_inj]
  refine ⟨left.map .pubAck, ?_⟩
  rw [awaiting.letters, List.map_append, List.map_cons, List.append_assoc]
  rfl

theorem awaitAll_obeys (awaiting : Awaiting sink batch acked left history) :
    (sink.awaitAll left).Obeys (Next sink batch)
      (fun history result => match result with
        | .ok () => Awaiting sink batch (sink.letters batch) [] history
        | .error error => Ends sink batch history (.error error)) history := by
  induction left generalizing acked history with
  | nil =>
      refine Program.obeys_pure ?_
      have all : acked = sink.letters batch := by rw [awaiting.letters, List.append_nil]
      exact all ▸ awaiting
  | cons letter left ih =>
      refine Program.obeys_ask awaiting.next fun reply => ?_
      cases reply with
      | ok done =>
          have more : Awaiting sink batch (acked ++ [letter]) left
              (history ++ [⟨.pubAck letter, .ok done⟩]) := by
            refine ⟨?_, awaiting.whole, ?_, ?_⟩
            · rw [awaiting.letters, List.append_assoc]
              rfl
            · rw [List.map_append, List.map_append, awaiting.made, List.append_assoc]
              rfl
            · rw [acknowledged_concat, awaiting.came]
              rfl
          exact ih more
      | error error =>
          refine Program.obeys_pure ⟨rfl, rfl, ?_, ?_⟩
          · have count := congrArg List.length awaiting.letters
            rw [awaiting.whole, List.length_append, List.length_cons] at count
            rw [acknowledged_concat, awaiting.came, List.length_append]
            have nothing : (acknowledged? ⟨.pubAck letter, .error error⟩).toList = [] := rfl
            rw [nothing, List.length_nil]
            omega
          · rw [List.getLast?_concat]
            rfl

/-- A batch follows its plan call by call, and ends as its calls tell. -/
theorem publishAll_obeys (sink : NatsSink) (batch : List Outgoing) :
    (sink.publishAll batch).Obeys (Next sink batch) (Ends sink batch) [] := by
  have start : Sending sink batch batch [] [] := ⟨rfl, rfl, rfl, rfl⟩
  refine (sendAll_obeys start rfl).bind fun history result sent => ?_
  rcases result with error | ⟨acks, bytes⟩
  · exact Program.obeys_pure sent
  · obtain ⟨sending, counted⟩ := sent
    have letters : sink.letters batch = acks := sending.awaiting.letters
    refine (awaitAll_obeys sending.awaiting).bind fun history result awaited => ?_
    cases result with
    | error error => exact Program.obeys_pure awaited
    | ok done =>
        exact Program.obeys_pure ⟨awaited.whole, awaited.came, by rw [counted, letters]⟩

theorem Ends.acked_iff {made : History} {result : Except WriteError UInt64}
    (ends : Ends sink batch made result) :
    result.isOk = true ↔ (acknowledged made).length = batch.length := by
  rcases result with error | bytes
  · refine iff_of_false (by simp [Except.isOk, Except.toBool]) ?_
    cases error with
    | serialize error =>
        obtain ⟨⟨outgoing, here, _⟩, sent⟩ := ends
        have none : acknowledged made = [] := List.filterMap_eq_nil_iff.mpr fun exchange member => by
          have isPublish : exchange.request ∈ made.map Exchange.request := List.mem_map_of_mem member
          rw [sent] at isPublish
          obtain ⟨letter, _, same⟩ := List.mem_map.mp isPublish
          obtain ⟨request, reply⟩ := exchange
          obtain rfl : Call.publish letter = request := same
          rfl
        rw [none]
        exact (Nat.zero_lt_of_lt (List.getElem?_eq_some_iff.mp here).1).ne
    | publish subject stream source => exact ends.2.2.1.ne
  · exact iff_of_true rfl (by rw [ends.2.1, ends.1])

theorem requests_planned {made : History} {last : SourceProgram (Except WriteError UInt64)}
    (reached : (sink.publishAll batch).Reaches made last) :
    made.map Exchange.request <+: sink.plan batch := by
  obtain ⟨_, each⟩ := reached.obeys (publishAll_obeys sink batch)
  rcases List.eq_nil_or_concat made with rfl | ⟨earlier, exchange, rfl⟩
  · exact List.nil_prefix
  · have next := each earlier exchange [] List.concat_eq_append
    rw [Next, List.nil_append] at next
    simpa [List.concat_eq_append] using next

end Batches

section Storing

variable {World : Type} {client : World → (request : Call) → World × request.Reply}
  {stored : World → Letter → Prop} {sink : NatsSink} {batch : List Outgoing} {world after : World}

/-- A server a sink may rely on: a `PubAck` means that the letter is stored, and no call
loses one that is. -/
structure KeepsLetters (client : World → (request : Call) → World × request.Reply)
    (stored : World → Letter → Prop) : Prop where
  acked : ∀ world letter, (client world (.pubAck letter)).2 = .ok () →
    stored (client world (.pubAck letter)).1 letter
  kept : ∀ world request letter, stored world letter → stored (client world request).1 letter

structure Holding (stored : World → Letter → Prop) (world after : World) (history : History) :
    Prop where
  before : ∀ letter, stored world letter → stored after letter
  acked : ∀ letter ∈ acknowledged history, stored after letter

theorem perform_stores {Result : Type} (keeps : KeepsLetters client stored)
    (program : SourceProgram Result) (world : World) :
    (∀ letter, stored world letter → stored (program.perform client world).2 letter) ∧
      ∃ made, program.Reaches made (.done (program.perform client world).1) ∧
        ∀ letter ∈ acknowledged made, stored (program.perform client world).2 letter := by
  have answered : ∀ found history request, Holding stored world found history →
      Holding stored world (client found request).1
        (history ++ [⟨request, (client found request).2⟩]) := by
    intro found history request holding
    refine ⟨fun letter held => keeps.kept _ _ _ (holding.before letter held), fun letter member => ?_⟩
    rw [acknowledged_concat] at member
    rcases List.mem_append.mp member with earlier | here
    · exact keeps.kept _ _ _ (holding.acked letter earlier)
    · have exchanged : (⟨.pubAck letter, .ok ()⟩ : Exchange Call Call.Reply) ∈
          [⟨request, (client found request).2⟩] := by
        refine mem_acknowledged.mp ?_
        rwa [← List.nil_append [_], acknowledged_concat]
      simp only [List.mem_singleton, Exchange.mk.injEq] at exchanged
      obtain ⟨rfl, sameReply⟩ := exchanged
      exact keeps.acked found letter (eq_of_heq sameReply).symm
  have nothing : Holding stored world world [] := ⟨fun _ held => held, by simp [acknowledged]⟩
  obtain ⟨made, reached, holding⟩ := Program.perform_history answered program nothing
  exact ⟨holding.before, made, reached, by simpa using holding.acked⟩

theorem write_stores (keeps : KeepsLetters client stored) {bytes : UInt64}
    (wrote : (sink.connected client).write batch world = (some (.ok bytes), after)) :
    (sink.letters batch).length = batch.length ∧
      bytes = NatsSink.payloadBytes (sink.letters batch) ∧
      ∀ letter ∈ sink.letters batch, stored after letter := by
  obtain ⟨_, made, reached, acked⟩ := perform_stores keeps (sink.publishAll batch) world
  simp only [NatsSink.connected, Prod.mk.injEq, Option.some.injEq] at wrote
  obtain ⟨written, rfl⟩ := wrote
  cases result : ((sink.publishAll batch).perform client world).1 with
  | error error =>
      rw [result] at written
      cases written
  | ok count =>
      rw [result] at written reached
      obtain rfl := Except.ok.inj written
      obtain ⟨whole, came, counted⟩ := (reached.obeys (publishAll_obeys sink batch)).1
      rw [List.nil_append] at came
      exact ⟨whole, counted, came ▸ acked⟩

theorem write_keeps (keeps : KeepsLetters client stored) {letter : Letter}
    (held : stored world letter) : stored ((sink.connected client).write batch world).2 letter :=
  (perform_stores keeps (sink.publishAll batch) world).1 letter held

/-- Whatever is answered, and cut off anywhere, a write sends every publish of its batch once
and in order before it awaits any ack. It succeeds when every ack came, with the bytes of all
payloads; over a server that stores what it acknowledges, every record is then stored. -/
theorem write_all_or_nothing (keeps : KeepsLetters client stored) (sink : NatsSink)
    (batch : List Outgoing) :
    (∀ made last, (sink.publishAll batch).Reaches made last →
      made.map Exchange.request <+: sink.plan batch ∧
        ∀ result, last = .done result → Ends sink batch made result ∧
          (result.isOk = true ↔ (acknowledged made).length = batch.length)) ∧
    ∀ world, ∃ written after, (sink.connected client).write batch world = (some written, after) ∧
      (∀ letter, stored world letter → stored after letter) ∧
      ∀ bytes, written = .ok bytes → (sink.letters batch).length = batch.length ∧
        bytes = NatsSink.payloadBytes (sink.letters batch) ∧
        ∀ letter ∈ sink.letters batch, stored after letter := by
  refine ⟨fun made last reached => ⟨requests_planned reached, ?_⟩, fun world => ?_⟩
  · rintro result rfl
    have ends := (reached.obeys (publishAll_obeys sink batch)).1
    rw [List.nil_append] at ends
    exact ⟨ends, ends.acked_iff⟩
  · refine ⟨_, _, rfl, (perform_stores keeps (sink.publishAll batch) world).1, ?_⟩
    intro bytes ok
    exact write_stores keeps (Prod.ext (congrArg some ok) rfl)

end Storing

section Sample

theorem storingClient_keeps (handed : Handed) :
    KeepsLetters (storingClient handed) fun letters letter => letter ∈ letters where
  acked letters letter _ := storingClient_acked handed letters letter
  kept _ request _ member := storingClient_kept request member

def textSink : NatsSink where
  stream := "PROCESSED"
  subject := "processed.logs"
  encoding := .text
  toJson _ := .error "no JSON form"

def twoLines : List Outgoing :=
  [⟨⟨⟨1⟩, "acme", .reported 0, 1⟩, ⟨.string "ok"⟩⟩, ⟨⟨⟨2⟩, "acme", .reported 0, 1⟩, ⟨.string "late"⟩⟩]

theorem write_all_or_nothing_lines : ∃ made after,
    (textSink.publishAll twoLines).Reaches made (.done (.ok 6)) ∧
      made.map Exchange.request <+: textSink.plan twoLines ∧ (textSink.plan twoLines).length = 4 ∧
      Ends textSink twoLines made (.ok 6) ∧ (acknowledged made).length = 2 ∧
      (textSink.connected (storingClient .closed)).write twoLines [] = (some (.ok 6), after) ∧
      after.map Letter.payload = ["ok".toUTF8, "late".toUTF8] ∧
      ∀ letter ∈ textSink.letters twoLines, letter ∈ after := by
  have keeps := storingClient_keeps .closed
  obtain ⟨paths, writes⟩ := write_all_or_nothing keeps textSink twoLines
  obtain ⟨_, made, ran, _⟩ := perform_stores keeps (textSink.publishAll twoLines) []
  have reached : (textSink.publishAll twoLines).Reaches made (.done (.ok 6)) := ran
  obtain ⟨planned, ends⟩ := paths made _ reached
  obtain ⟨asPlanned, acked⟩ := ends _ rfl
  obtain ⟨written, after, wrote, _, stores⟩ := writes []
  obtain ⟨rfl, rfl⟩ : written = .ok 6 ∧ after = textSink.letters twoLines := by
    have ran : (textSink.connected (storingClient .closed)).write twoLines [] =
        (some (.ok 6), textSink.letters twoLines) := rfl
    rw [ran] at wrote
    simp only [Prod.mk.injEq, Option.some.injEq] at wrote
    exact ⟨wrote.1.symm, wrote.2.symm⟩
  exact ⟨made, _, reached, planned, rfl, asPlanned, acked.mp rfl, wrote, rfl, (stores 6 rfl).2.2⟩

end Sample

end FusionPipeline.Nats
