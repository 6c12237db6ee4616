import FusionPipeline.Metrics
import FusionPipeline.Subject

/-! Pipeline headers: what a sink or a dead letter writes beside a record, and the arrival
a source reads back. -/

namespace FusionPipeline

structure HeaderMap where
  entries : List (String × List String)
  distinct : (entries.map Prod.fst).Nodup
  deriving DecidableEq, Repr

namespace HeaderMap

def empty : HeaderMap where
  entries := []
  distinct := List.nodup_nil

def updated (name : String) (update : List String → List String) :
    List (String × List String) → List (String × List String)
  | [] => [(name, update [])]
  | (other, values) :: rest =>
      if other = name then (other, update values) :: rest
      else (other, values) :: updated name update rest

theorem updated_names (name : String) (update : List String → List String)
    (entries : List (String × List String)) :
    (updated name update entries).map Prod.fst =
      if name ∈ entries.map Prod.fst then entries.map Prod.fst else entries.map Prod.fst ++ [name] := by
  induction entries with
  | nil => simp [updated]
  | cons entry rest ih =>
      obtain ⟨other, values⟩ := entry
      by_cases same : other = name
      · simp [updated, same]
      · have different : ¬ name = other := fun equal => same equal.symm
        simp only [updated, same, ↓reduceIte, List.map_cons, ih, List.mem_cons, different, false_or]
        split <;> simp

def update (headers : HeaderMap) (name : String) (update : List String → List String) :
    HeaderMap where
  entries := updated name update headers.entries
  distinct := by
    rw [updated_names]
    split
    · exact headers.distinct
    next fresh =>
      refine List.nodup_append.mpr ⟨headers.distinct, by simp, ?_⟩
      intro other member added here
      rw [List.mem_singleton] at here
      exact fun same => fresh (here ▸ same ▸ member)

def insert (headers : HeaderMap) (name value : String) : HeaderMap :=
  headers.update name fun _ => [value]

def append (headers : HeaderMap) (name value : String) : HeaderMap :=
  headers.update name fun values => values ++ [value]

def getAll (headers : HeaderMap) (name : String) : List String :=
  (headers.entries.lookup name).getD []

end HeaderMap

namespace Headers

def recordIdName : String := "Fusion-Record-Id"
def recordKindName : String := "Fusion-Record-Kind"
def tenantName : String := "Fusion-Tenant"
def ingestionTimeName : String := "Fusion-Ingestion-Time"
def ingestionTimeKindName : String := "Fusion-Ingestion-Time-Kind"
def dlqReasonName : String := "Fusion-Dlq-Reason"
def dlqSubjectName : String := "Fusion-Dlq-Subject"
def msgIdName : String := "Nats-Msg-Id"

def reasonCap : Nat := 1024

def pipelinePrefix : String := "fusion-"
def natsPrefix : String := "nats-"

def parseValue (value : String) : Option String :=
  if value.toList.any fun char => char = '\r' || char = '\n' then none else some value

/-- A value that cannot be a header is left out. -/
def insert (headers : HeaderMap) (name value : String) : HeaderMap :=
  match parseValue value with
  | some value => headers.insert name value
  | none => headers

def writeMeta (headers : HeaderMap) (recordId : Option RecordId) (tenant : String)
    (ingestionTime : Option IngestionTime) : HeaderMap :=
  let headers := match recordId with
    | some recordId => insert headers recordIdName recordId.text
    | none => headers
  let headers := insert headers tenantName tenant
  match ingestionTime with
  | some time =>
      insert (insert headers ingestionTimeName (toString time.unixNanos.toNat))
        ingestionTimeKindName time.kind.asStr
  | none => headers

def forMeta (recordMeta : Meta) : HeaderMap :=
  writeMeta .empty (some recordMeta.recordId) recordMeta.tenant (some recordMeta.ingestionTime)

structure DeadLetter where
  stream : String
  streamSequence : UInt64
  subject : String
  headers : Option HeaderMap
  arrival : Arrival
  failure : Failure

/-- Names the pipeline or the server reads: a dead letter keeps no producer's own. -/
def isReserved (name : String) : Bool :=
  let lower := String.ofList (name.toList.map Char.toLower)
  Text.startsWith pipelinePrefix lower || Text.startsWith natsPrefix lower

def producersOwn (headers : Option HeaderMap) : HeaderMap :=
  ((headers.map HeaderMap.entries).getD []).foldl (fun kept entry =>
    if isReserved entry.1 then kept
    else entry.2.foldl (fun kept value => kept.append entry.1 value) kept) .empty

/-- Every control character a space, cut where the next character would pass the cap. -/
def lineFrom (length : Nat) : List Char → List Char
  | [] => []
  | char :: rest =>
      let char := if isControl char then ' ' else char
      if reasonCap < length + char.utf8Size then []
      else char :: lineFrom (length + char.utf8Size) rest

def headerLine (text : String) : String :=
  String.ofList (lineFrom 0 text.toList)

def forDeadLetter (letter : DeadLetter) : HeaderMap :=
  let arrival := letter.arrival
  let headers := writeMeta (producersOwn letter.headers) arrival.recordId (Meta.tenantOf arrival)
    arrival.ingestionTime
  let headers := match arrival.kind with
    | .named kind => insert headers recordKindName kind.asStr
    | _ => headers
  let headers := insert headers dlqReasonName
    (headerLine (letter.failure.node ++ ": " ++ letter.failure.error))
  let headers := insert headers dlqSubjectName letter.subject
  insert headers msgIdName (letter.stream ++ ":" ++ toString letter.streamSequence.toNat)

inductive InvalidHeader where
  | recordId (value : String)
  | recordKind (value : String)
  | tenant
  | repeated (name : String)
  | time (value : String)
  | kind (value : String)
  | unpaired (name : String)
  deriving DecidableEq, Repr

def InvalidHeader.refusesMessage : InvalidHeader → Bool
  | recordKind _ => true
  | repeated name => name == recordKindName
  | _ => false

def InvalidHeader.text : InvalidHeader → String
  | recordId value => "`" ++ recordIdName ++ "` is `" ++ value ++ "`, not a decimal integer"
  | recordKind value =>
      "`" ++ recordKindName ++ "` is `" ++ value ++ "`, not `log`, `metric` or `span`"
  | tenant => "`" ++ tenantName ++ "` is empty or holds a control character"
  | repeated name => "`" ++ name ++ "` is present more than once"
  | time value =>
      "`" ++ ingestionTimeName ++ "` is `" ++ value ++ "`, not nanoseconds as a decimal integer"
  | kind value => "`" ++ ingestionTimeKindName ++ "` is `" ++ value ++ "`, not `reported` or `clock`"
  | unpaired name =>
      "`" ++ ingestionTimeName ++ "` and `" ++ ingestionTimeKindName ++
        "` come together; only `" ++ name ++ "` is present"

structure Received where
  subject : String
  headers : Option HeaderMap
  published : Option UInt64
  delivered : UInt64
  bytes : UInt64

/-- The one value of a header; one given more than once is refused. -/
def header (headers : Option HeaderMap) (name : String) : Except InvalidHeader (Option String) :=
  match headers with
  | none => .ok none
  | some headers =>
      match headers.getAll name with
      | [] => .ok none
      | [value] => .ok (some value)
      | _ => .error (.repeated name)

def isDecimal (text : String) : Bool :=
  !text.isEmpty && text.toList.all fun char => decide ('0' ≤ char ∧ char ≤ '9')

def parseDecimal (text : String) : Option UInt64 :=
  (Text.parseU64 text).filter fun _ => isDecimal text

section Reading

variable {Value : Type}

def parseHeader (read : Except InvalidHeader (Option String))
    (parse : String → Except InvalidHeader Value) : Except InvalidHeader (Option Value) :=
  match read with
  | .error problem => .error problem
  | .ok none => .ok none
  | .ok (some text) => (parse text).map some

def parseOrReport (read : Except InvalidHeader (Option String))
    (parse : String → Except InvalidHeader Value) : Option Value × List InvalidHeader :=
  match parseHeader read parse with
  | .ok value => (value, [])
  | .error problem => (none, [problem])

def orInvalid (problem : InvalidHeader) : Option Value → Except InvalidHeader Value
  | some value => .ok value
  | none => .error problem

end Reading

def headerTenant (headers : Option HeaderMap) : Option String × List InvalidHeader :=
  parseOrReport (header headers tenantName) fun tenant =>
    if isValidTenant tenant then .ok tenant else .error .tenant

def problemOf {Value : Type} : Except InvalidHeader Value → List InvalidHeader
  | .ok _ => []
  | .error problem => [problem]

def ingestionTime (time kind : Except InvalidHeader (Option String)) :
    Option IngestionTime × List InvalidHeader :=
  let time := parseHeader time fun text => orInvalid (.time text) (parseDecimal text)
  let kind := parseHeader kind fun text => orInvalid (.kind text) (TimeKind.parse text)
  match time, kind with
  | .ok (some nanos), .ok (some kind) => (some (.new kind nanos), [])
  | .ok none, .ok none => (none, [])
  | .ok (some _), .ok none => (none, [.unpaired ingestionTimeName])
  | .ok none, .ok (some _) => (none, [.unpaired ingestionTimeKindName])
  | time, kind => (none, problemOf time ++ problemOf kind)

/-- The arrival of a received message, and its pipeline headers that do not parse. The
tenant header is read only when the subject names no valid tenant. -/
def arrival (tenantPrefix : String) (received : Received) : Arrival × List InvalidHeader :=
  let headers := received.headers
  let (recordId, invalidId) := parseOrReport (header headers recordIdName) fun text =>
    orInvalid (.recordId text) ((parseDecimal text).map RecordId.mk)
  let (kind, invalidKind) :=
    match parseHeader (header headers recordKindName) fun text =>
        orInvalid (.recordKind text) (Kind.parse text) with
    | .ok none => (ArrivalKind.unnamed, [])
    | .ok (some kind) => (ArrivalKind.named kind, [])
    | .error problem => (ArrivalKind.unreadable, [problem])
  let (tenant, invalidTenant) :=
    match (Subject.tenantFromSubject received.subject tenantPrefix).filter isValidTenant with
    | some tenant => (some tenant, [])
    | none => headerTenant headers
  let (headerTime, invalidTime) :=
    ingestionTime (header headers ingestionTimeName) (header headers ingestionTimeKindName)
  ({ recordId
     kind
     tenant
     ingestionTime := headerTime.or (received.published.map IngestionTime.reported)
     deliveryCount := received.delivered
     bytes := some received.bytes },
   invalidId ++ invalidKind ++ invalidTenant ++ invalidTime)

end Headers

end FusionPipeline
