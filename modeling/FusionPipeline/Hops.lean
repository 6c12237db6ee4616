import Mathlib.Data.String.Basic
import FusionPipeline.HeaderReads

/-! What survives a hop: the record a sink publishes or a dead letter keeps, as the next
source reads it. -/

namespace FusionPipeline.Headers

theorem parseValue_timeKind (kind : TimeKind) : parseValue kind.asStr = some kind.asStr := by
  cases kind <;> decide

theorem parseValue_kind (kind : Kind) : parseValue kind.asStr = some kind.asStr := by
  cases kind <;> decide

theorem writeMeta_getAll_other (headers : HeaderMap) {recordId : Option RecordId}
    {tenant : String} {time : Option IngestionTime} {name : String}
    (other : name ∉ [recordIdName, tenantName, ingestionTimeName, ingestionTimeKindName])
    (valid : isValidTenant tenant = true) :
    (writeMeta headers recordId tenant time).getAll name = headers.getAll name := by
  have tenantParses := parseValue_of_isValidTenant valid
  have idParses (id : RecordId) : parseValue id.text = some id.text := parseValue_repr _
  have nanosParses (nanos : Nat) : parseValue (toString nanos) = some (toString nanos) :=
    parseValue_repr nanos
  simp only [List.mem_cons, List.not_mem_nil, or_false, not_or] at other
  cases recordId <;> cases time <;>
    simp only [writeMeta, getAll_insert, tenantParses, idParses, nanosParses, parseValue_timeKind,
      other, if_false]

theorem writeMeta_carries {headers : HeaderMap}
    (fresh : ∀ name ∈ [recordIdName, recordKindName, tenantName, ingestionTimeName,
      ingestionTimeKindName], headers.getAll name = [])
    {recordId : Option RecordId} {tenant : String} {time : Option IngestionTime}
    (valid : isValidTenant tenant = true) :
    Carries (writeMeta headers recordId tenant time) recordId none tenant time := by
  have tenantParses := parseValue_of_isValidTenant valid
  have idParses (id : RecordId) : parseValue id.text = some id.text := parseValue_repr _
  have nanosParses (nanos : Nat) : parseValue nanos.repr = some nanos.repr :=
    parseValue_repr nanos
  constructor
  case kinds =>
    rw [writeMeta_getAll_other headers (by decide) valid, fresh recordKindName (by simp)]
    rfl
  all_goals
    -- Names are told apart as texts, so the map is read at the texts too.
    simp only [List.forall_mem_cons, recordIdName, recordKindName, tenantName,
      ingestionTimeName, ingestionTimeKindName] at fresh
    cases recordId <;> cases time <;>
      simp [writeMeta, getAll_insert, tenantParses, idParses, nanosParses, parseValue_timeKind,
        fresh, recordIdName, tenantName, ingestionTimeName, ingestionTimeKindName]

theorem Carries.insert_kind {headers : HeaderMap} {recordId : Option RecordId}
    {kind : Option Kind} {tenant : String} {time : Option IngestionTime}
    (carries : Carries headers recordId kind tenant time) (named : Kind) :
    Carries (insert headers recordKindName named.asStr) recordId (some named) tenant time := by
  have values := @getAll_insert headers recordKindName _ (parseValue_kind named)
  obtain ⟨ids, _, tenants, times, timeKinds⟩ := carries
  constructor
  case kinds => simp [values]
  all_goals
    rw [values, if_neg (by decide)]
    assumption

theorem Carries.insert_other {headers : HeaderMap} {recordId : Option RecordId}
    {kind : Option Kind} {tenant : String} {time : Option IngestionTime}
    (carries : Carries headers recordId kind tenant time) {name : String}
    (other : name ∉ [recordIdName, recordKindName, tenantName, ingestionTimeName,
      ingestionTimeKindName]) (value : String) :
    Carries (insert headers name value) recordId kind tenant time := by
  simp only [List.mem_cons, List.not_mem_nil, or_false, not_or] at other
  obtain ⟨notId, notKind, notTenant, notTime, notTimeKind⟩ := other
  obtain ⟨ids, kinds, tenants, times, timeKinds⟩ := carries
  constructor
  · rw [getAll_insert_other (Ne.symm notId), ids]
  · rw [getAll_insert_other (Ne.symm notKind), kinds]
  · rw [getAll_insert_other (Ne.symm notTenant), tenants]
  · rw [getAll_insert_other (Ne.symm notTime), times]
  · rw [getAll_insert_other (Ne.symm notTimeKind), timeKinds]

theorem forMeta_carries {recordMeta : Meta} (valid : isValidTenant recordMeta.tenant = true) :
    Carries (forMeta recordMeta) (some recordMeta.recordId) none recordMeta.tenant
      (some recordMeta.ingestionTime) := by
  apply writeMeta_carries _ valid
  intro name _
  exact HeaderMap.getAll_empty name

/-- A record's `Meta` crosses a hop unchanged but for the delivery count, which the
transport counts anew; its own publish time never replaces the first one. -/
theorem hop_round_trip {recordMeta : Meta} (valid : isValidTenant recordMeta.tenant = true)
    {tenantPrefix : String} {received : Received}
    (carried : received.headers = some (forMeta recordMeta))
    (unnamed : Subject.tenantFromSubject received.subject tenantPrefix = none) (now : Int) :
    let (arrived, invalid) := arrival tenantPrefix received
    invalid = [] ∧
      arrived.recordId = some recordMeta.recordId ∧
      arrived.tenant = some recordMeta.tenant ∧
      arrived.ingestionTime = some recordMeta.ingestionTime ∧
      arrived.kind = .unnamed ∧
      Meta.resolve now arrived = .ok { recordMeta with deliveryCount := received.delivered } := by
  rw [arrival_of_carries (forMeta_carries valid) valid carried unnamed]
  have kept : (some recordMeta.tenant).filter isValidTenant = some recordMeta.tenant :=
    Option.filter_eq_some_iff.mpr ⟨rfl, valid⟩
  refine ⟨rfl, rfl, rfl, rfl, rfl, ?_⟩
  simp [Meta.resolve, Meta.tenantOf, Arrival.isLog, kept]

theorem hop_round_trip_clock :
    let recordMeta : Meta := ⟨⟨7⟩, "a.b", .clock 0, 3⟩
    let received : Received := ⟨"processed.logs", some (forMeta recordMeta), some 9, 1, 12⟩
    Meta.resolve 5 (arrival "logs" received).1 = .ok ⟨⟨7⟩, "a.b", .clock 0, 1⟩ := by
  intro recordMeta received
  have crossed := @hop_round_trip recordMeta (by decide) "logs" received rfl (by decide) 5
  exact crossed.2.2.2.2.2

theorem appendAll_getAll (name : String) (values : List String) (kept : HeaderMap)
    (other : String) :
    (values.foldl (fun kept value => kept.append name value) kept).getAll other =
      if other = name then kept.getAll name ++ values else kept.getAll other := by
  induction values generalizing kept with
  | nil => by_cases same : other = name <;> simp [same]
  | cons value rest ih =>
      rw [List.foldl_cons, ih]
      by_cases same : other = name
      · simp [same, HeaderMap.getAll_append]
      · simp [same, HeaderMap.getAll_append]

theorem appendAll_names (name : String) (values : List String) (kept : HeaderMap)
    {other : String}
    (present : other ∈ (values.foldl (fun kept value => kept.append name value) kept).entries.map
      Prod.fst) :
    other = name ∨ other ∈ kept.entries.map Prod.fst := by
  induction values generalizing kept with
  | nil => exact Or.inr present
  | cons value rest ih =>
      rcases ih (kept.append name value) present with same | before
      · exact Or.inl same
      · rw [HeaderMap.append, HeaderMap.update, HeaderMap.updated_names] at before
        split at before
        · exact Or.inr before
        · rw [List.mem_append, List.mem_singleton] at before
          exact before.symm

theorem keep_getAll {entries : List (String × List String)}
    (distinct : (entries.map Prod.fst).Nodup) (kept : HeaderMap) (name : String) :
    (entries.foldl (fun kept entry =>
      if isReserved entry.1 then kept
      else entry.2.foldl (fun kept value => kept.append entry.1 value) kept) kept).getAll name =
      kept.getAll name ++ if isReserved name then [] else (entries.lookup name).getD [] := by
  induction entries generalizing kept with
  | nil => simp
  | cons entry rest ih =>
      obtain ⟨first, values⟩ := entry
      rw [List.map_cons, List.nodup_cons] at distinct
      rw [List.foldl_cons, ih distinct.2, List.lookup_cons]
      by_cases same : name = first
      · subst same
        have absent : rest.lookup name = none := by
          rw [List.lookup_eq_none_iff]
          intro entry member
          have named : entry.1 ∈ rest.map Prod.fst := List.mem_map_of_mem member
          rw [bne_iff_ne]
          exact fun equal => distinct.1 (equal ▸ named)
        by_cases reserved : isReserved name
        · simp [reserved]
        · simp [reserved, absent, appendAll_getAll]
      · have apart : (name == first) = false := beq_eq_false_iff_ne.mpr same
        rw [apart]
        by_cases reserved : isReserved first
        · simp [reserved]
        · simp [reserved, appendAll_getAll, same]

theorem producersOwn_getAll (headers : Option HeaderMap) (name : String) :
    (producersOwn headers).getAll name =
      if isReserved name then [] else (headers.map fun sent => sent.getAll name).getD [] := by
  cases headers with
  | none => simp [producersOwn]
  | some sent =>
      have kept := keep_getAll sent.distinct .empty name
      rw [HeaderMap.getAll_empty, List.nil_append] at kept
      exact kept

theorem producersOwn_names {headers : Option HeaderMap} {name : String}
    (present : name ∈ (producersOwn headers).entries.map Prod.fst) : isReserved name = false := by
  have kept_names (entries : List (String × List String)) (kept : HeaderMap)
      (clear : ∀ other ∈ kept.entries.map Prod.fst, isReserved other = false) :
      ∀ other ∈ (entries.foldl (fun kept entry =>
        if isReserved entry.1 then kept
        else entry.2.foldl (fun kept value => kept.append entry.1 value) kept) kept).entries.map
          Prod.fst, isReserved other = false := by
    induction entries generalizing kept with
    | nil => exact clear
    | cons entry rest ih =>
        rw [List.foldl_cons]
        apply ih
        intro other member
        split at member
        · exact clear other member
        next open_ =>
          rcases appendAll_names entry.1 entry.2 kept member with rfl | before
          · simpa using open_
          · exact clear other before
  exact kept_names _ .empty (by simp [HeaderMap.empty]) name present

theorem insert_names {headers : HeaderMap} {name value other : String}
    (present : other ∈ (insert headers name value).entries.map Prod.fst) :
    other = name ∨ other ∈ headers.entries.map Prod.fst := by
  cases parsed : parseValue value with
  | none =>
      rw [insert, parsed] at present
      exact Or.inr present
  | some kept =>
      rw [insert, parsed] at present
      simp only [HeaderMap.insert, HeaderMap.update, HeaderMap.updated_names] at present
      split at present
      · exact Or.inr present
      · rw [List.mem_append, List.mem_singleton] at present
        exact present.symm

theorem writeMeta_names {headers : HeaderMap} {recordId : Option RecordId} {tenant : String}
    {time : Option IngestionTime} {name : String}
    (present : name ∈ (writeMeta headers recordId tenant time).entries.map Prod.fst) :
    name ∈ [recordIdName, tenantName, ingestionTimeName, ingestionTimeKindName] ∨
      name ∈ headers.entries.map Prod.fst := by
  cases recordId <;> cases time <;> simp only [writeMeta] at present <;>
    grind [→ insert_names]

theorem lineFrom_clean (length : Nat) (text : List Char) :
    ∀ char ∈ lineFrom length text, isControl char = false := by
  induction text generalizing length with
  | nil => simp [lineFrom]
  | cons char rest ih =>
      have plain : isControl (if isControl char then ' ' else char) = false := by
        split
        · decide
        next plain => simpa using plain
      rw [lineFrom]
      generalize (if isControl char then ' ' else char) = shown at plain ⊢
      split
      · simp
      · intro other member
        rcases List.mem_cons.mp member with rfl | later
        · exact plain
        · exact ih _ other later

theorem lineFrom_size (length : Nat) (text : List Char) (within : length ≤ reasonCap) :
    length + String.utf8Len (lineFrom length text) ≤ reasonCap := by
  induction text generalizing length with
  | nil => simpa [lineFrom, String.utf8Len] using within
  | cons char rest ih =>
      rw [lineFrom]
      generalize (if isControl char then ' ' else char) = shown
      split
      · simpa [String.utf8Len] using within
      next fits =>
        have longer := ih _ (Nat.le_of_not_lt fits)
        simp only [String.utf8Len]
        omega

theorem headerLine_clean (text : String) :
    ∀ char ∈ (headerLine text).toList, isControl char = false := by
  simpa [headerLine] using lineFrom_clean 0 text.toList

theorem headerLine_size (text : String) : (headerLine text).utf8ByteSize ≤ reasonCap := by
  have bounded := lineFrom_size 0 text.toList (by decide)
  rw [headerLine, String.utf8ByteSize_ofList]
  omega

def namedKind : ArrivalKind → Option Kind
  | .named kind => some kind
  | _ => none

theorem forDeadLetter_carries (letter : DeadLetter) :
    Carries (forDeadLetter letter) letter.arrival.recordId
      (namedKind letter.arrival.kind) (Meta.tenantOf letter.arrival)
      letter.arrival.ingestionTime := by
  have written : Carries (writeMeta (producersOwn letter.headers) letter.arrival.recordId
      (Meta.tenantOf letter.arrival) letter.arrival.ingestionTime) letter.arrival.recordId none
      (Meta.tenantOf letter.arrival) letter.arrival.ingestionTime := by
    apply writeMeta_carries _ (tenantOf_isValid letter.arrival)
    intro name member
    have reserved : isReserved name = true := by
      revert name
      decide
    rw [producersOwn_getAll, reserved, if_pos rfl]
  rw [forDeadLetter]
  apply Carries.insert_other _ (by decide)
  apply Carries.insert_other _ (by decide)
  apply Carries.insert_other _ (by decide)
  cases named : letter.arrival.kind with
  | unnamed => exact written
  | unreadable => exact written
  | named kind => exact written.insert_kind kind

theorem forDeadLetter_getAll_producer (letter : DeadLetter) {name : String}
    (own : isReserved name = false) :
    (forDeadLetter letter).getAll name =
      (letter.headers.map fun sent => sent.getAll name).getD [] := by
  have apart (reserved : String) (taken : isReserved reserved = true) : name ≠ reserved := by
    rintro rfl
    rw [own] at taken
    exact absurd taken (by decide)
  have kept (headers : HeaderMap) (reserved value : String)
      (taken : isReserved reserved = true) :
      (insert headers reserved value).getAll name = headers.getAll name :=
    getAll_insert_other (apart reserved taken)
  have written : (writeMeta (producersOwn letter.headers) letter.arrival.recordId
      (Meta.tenantOf letter.arrival) letter.arrival.ingestionTime).getAll name =
      (letter.headers.map fun sent => sent.getAll name).getD [] := by
    rw [writeMeta_getAll_other _ _ (tenantOf_isValid letter.arrival), producersOwn_getAll, own]
    · rfl
    · intro member
      have every : ∀ name ∈ [recordIdName, tenantName, ingestionTimeName, ingestionTimeKindName],
          isReserved name = true := by decide
      exact apart name (every name member) rfl
  rw [forDeadLetter, kept _ _ _ (by decide), kept _ _ _ (by decide), kept _ _ _ (by decide)]
  cases letter.arrival.kind with
  | unnamed => exact written
  | unreadable => exact written
  | named kind =>
      dsimp only
      rw [kept _ _ _ (by decide)]
      exact written

theorem forDeadLetter_names {letter : DeadLetter} {name : String}
    (present : name ∈ (forDeadLetter letter).entries.map Prod.fst) :
    name ∈ [recordIdName, recordKindName, tenantName, ingestionTimeName, ingestionTimeKindName,
      dlqReasonName, dlqSubjectName, msgIdName] ∨ isReserved name = false := by
  simp only [List.mem_cons, List.not_mem_nil, or_false]
  rw [forDeadLetter] at present
  rcases insert_names present with rfl | present
  · simp
  rcases insert_names present with rfl | present
  · simp
  rcases insert_names present with rfl | present
  · simp
  have written (here : name ∈ (writeMeta (producersOwn letter.headers) letter.arrival.recordId
      (Meta.tenantOf letter.arrival) letter.arrival.ingestionTime).entries.map Prod.fst) :
      name ∈ [recordIdName, tenantName, ingestionTimeName, ingestionTimeKindName] ∨
        isReserved name = false := by
    rcases writeMeta_names here with listed | own
    · exact Or.inl listed
    · exact Or.inr (producersOwn_names own)
  cases named : letter.arrival.kind with
  | unnamed => rw [named] at present; have := written present; grind
  | unreadable => rw [named] at present; have := written present; grind
  | named kind =>
      rw [named] at present
      rcases insert_names present with rfl | present
      · simp
      · have := written present
        grind

def startsInAnyCase (start name : String) : Bool :=
  Text.startsWith start (String.ofList (name.toList.map Char.toLower))

theorem isReserved_iff (name : String) :
    isReserved name = (startsInAnyCase pipelinePrefix name || startsInAnyCase natsPrefix name) := by
  rfl

/-- A replayed dead letter is the record that was given up on: same id, tenant and time,
still a log, with the producer's own headers and nothing JetStream would refuse. -/
theorem dead_letter_replays {tenantPrefix replayPrefix stream : String} {received replay : Received}
    (streamSequence : UInt64) (failure : Failure)
    (logged : (arrival tenantPrefix received).1.isLog = true)
    (oneLine : ∀ char ∈ stream.toList, char ≠ '\r' ∧ char ≠ '\n')
    (carried : replay.headers = some (forDeadLetter {
      stream, streamSequence, subject := received.subject, headers := received.headers,
      arrival := (arrival tenantPrefix received).1, failure }))
    (unnamed : Subject.tenantFromSubject replay.subject replayPrefix = none) :
    let original := (arrival tenantPrefix received).1
    let letter := forDeadLetter {
      stream, streamSequence, subject := received.subject, headers := received.headers,
      arrival := original, failure }
    let (replayed, invalid) := arrival replayPrefix replay
    (invalid = [] ∧
      replayed.recordId = original.recordId ∧
      replayed.isLog = true ∧
      Meta.tenantOf replayed = Meta.tenantOf original ∧
      ∀ time, original.ingestionTime = some time → replayed.ingestionTime = some time) ∧
    (∀ name, startsInAnyCase pipelinePrefix name = false → startsInAnyCase natsPrefix name = false →
      letter.getAll name = (received.headers.map fun sent => sent.getAll name).getD []) ∧
    ((∀ name ∈ letter.entries.map Prod.fst, startsInAnyCase natsPrefix name = true →
        name = msgIdName) ∧
      letter.getAll msgIdName = [stream ++ ":" ++ toString streamSequence.toNat]) ∧
    ∃ reason, letter.getAll dlqReasonName = [reason] ∧
      (∀ char ∈ reason.toList, isControl char = false) ∧ reason.utf8ByteSize ≤ 1024 := by
  generalize givenUp : (arrival tenantPrefix received).1 = original at logged carried ⊢
  have carries := forDeadLetter_carries {
    stream, streamSequence, subject := received.subject, headers := received.headers,
    arrival := original, failure }
  rw [arrival_of_carries carries (tenantOf_isValid original) carried unnamed]
  refine ⟨⟨rfl, rfl, ?_, ?_, ?_⟩, ?_, ⟨?_, ?_⟩, ?_⟩
  · cases kind : original.kind with
    | unnamed => simp [namedKind, Arrival.isLog]
    | unreadable => simp [Arrival.isLog, kind] at logged
    | named kind_ =>
        rw [Arrival.isLog, kind] at logged
        cases kind_ <;> simp_all [namedKind, Arrival.isLog]
  · have valid := tenantOf_isValid original
    have kept : (some (Meta.tenantOf original)).filter isValidTenant =
        some (Meta.tenantOf original) := Option.filter_eq_some_iff.mpr ⟨rfl, valid⟩
    rw [Meta.tenantOf, kept, Option.getD_some]
  · rintro time given
    simp [given]
  · intro name notPipeline notNats
    apply forDeadLetter_getAll_producer
    rw [isReserved_iff, notPipeline, notNats, Bool.or_false]
  · intro name present nats
    rcases forDeadLetter_names present with listed | own
    · have every : ∀ name ∈ [recordIdName, recordKindName, tenantName, ingestionTimeName,
          ingestionTimeKindName, dlqReasonName, dlqSubjectName, msgIdName],
          startsInAnyCase natsPrefix name = true → name = msgIdName := by decide
      exact every name listed nats
    · rw [isReserved_iff, nats, Bool.or_true] at own
      exact absurd own (by decide)
  · have parses : parseValue (stream ++ ":" ++ toString streamSequence.toNat) =
        some (stream ++ ":" ++ toString streamSequence.toNat) := by
      apply parseValue_of_forall
      intro char member
      rw [String.toList_append, String.toList_append, List.mem_append, List.mem_append] at member
      rcases member with (inStream | colon) | digit
      · exact oneLine char inStream
      · rw [show (":" : String).toList = [':'] from rfl, List.mem_singleton] at colon
        subst colon
        decide
      · constructor <;> rintro rfl <;> exact Text.not_mem_repr (by decide) digit
    rw [forDeadLetter, getAll_insert parses, if_pos rfl]
  · refine ⟨headerLine (failure.node ++ ": " ++ failure.error), ?_, headerLine_clean _,
      headerLine_size _⟩
    rw [forDeadLetter, getAll_insert_other (by decide), getAll_insert_other (by decide),
      getAll_insert (parseValue_of_noControl (headerLine_clean _)), if_pos rfl]

theorem dead_letter_replays_log :
    let sent := (((HeaderMap.empty.insert recordIdName "7").insert "fusion-record-kind" "metric").append
      "Trace" "a").append "Trace" "b"
    let received : Received := ⟨"logs.acme.app", some sent, some 5, 3, 10⟩
    let letter := forDeadLetter {
      stream := "LOGS", streamSequence := 9, subject := received.subject
      headers := received.headers, arrival := (arrival "logs" received).1
      failure := ⟨"parse", none, .stageError, "bad\nline"⟩ }
    (arrival "logs" ⟨"dlq.acme", some letter, some 8, 1, 10⟩).1.recordId = some ⟨7⟩ ∧
      letter.getAll "Trace" = ["a", "b"] := by
  intro sent received letter
  have replayed := @dead_letter_replays "logs" "logs" "LOGS" received
    ⟨"dlq.acme", some letter, some 8, 1, 10⟩ 9 ⟨"parse", none, .stageError, "bad\nline"⟩
    (by decide) (by decide) rfl (by decide)
  exact ⟨replayed.1.2.1, replayed.2.1 "Trace" (by decide) (by decide)⟩

end FusionPipeline.Headers
