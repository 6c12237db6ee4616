import FusionPipeline.Headers

/-! Reading back what was written: the values of a header map under each name, and the
arrival of a message whose pipeline headers all parse. -/

namespace FusionPipeline

namespace HeaderMap

theorem lookup_updated (name other : String) (update : List String → List String)
    (entries : List (String × List String)) :
    (updated name update entries).lookup other =
      if other = name then some (update ((entries.lookup name).getD []))
      else entries.lookup other := by
  induction entries with
  | nil => by_cases same : other = name <;> simp [updated, same]
  | cons entry rest ih =>
      obtain ⟨first, values⟩ := entry
      by_cases here : first = name
      · subst here
        by_cases same : other = first
        · simp [updated, same]
        · have missed : (other == first) = false := beq_eq_false_iff_ne.mpr same
          simp [updated, List.lookup_cons, same, missed]
      · have missed : (name == first) = false := by
          rw [beq_eq_false_iff_ne]
          exact fun equal => here equal.symm
        simp only [updated, here, ↓reduceIte, List.lookup_cons, ih, missed]
        by_cases same : other = name
        · simp [same, missed]
        · simp [same]

@[simp] theorem getAll_empty (name : String) : HeaderMap.empty.getAll name = [] := by
  rfl

theorem getAll_insert (headers : HeaderMap) (name value other : String) :
    (headers.insert name value).getAll other =
      if other = name then [value] else headers.getAll other := by
  simp only [getAll, insert, update, lookup_updated]
  split <;> rfl

theorem getAll_append (headers : HeaderMap) (name value other : String) :
    (headers.append name value).getAll other =
      if other = name then headers.getAll name ++ [value] else headers.getAll other := by
  simp only [getAll, append, update, lookup_updated]
  split <;> rfl

end HeaderMap

namespace Headers

theorem parseValue_of_forall {value : String}
    (clean : ∀ char ∈ value.toList, char ≠ '\r' ∧ char ≠ '\n') : parseValue value = some value := by
  have none_breaks : (value.toList.any fun char => char = '\r' || char = '\n') = false := by
    rw [List.any_eq_false]
    intro char member
    have apart := clean char member
    simp [apart.1, apart.2]
  simp [parseValue, none_breaks]

theorem parseValue_of_noControl {value : String}
    (clean : ∀ char ∈ value.toList, isControl char = false) : parseValue value = some value := by
  apply parseValue_of_forall
  intro char member
  have plain := clean char member
  constructor
  · rintro rfl
    exact absurd plain (by decide)
  · rintro rfl
    exact absurd plain (by decide)

theorem parseValue_repr (value : Nat) : parseValue value.repr = some value.repr := by
  apply parseValue_of_forall
  intro char member
  constructor
  · rintro rfl
    exact Text.not_mem_repr (by decide) member
  · rintro rfl
    exact Text.not_mem_repr (by decide) member

theorem parseValue_of_isValidTenant {tenant : String} (valid : isValidTenant tenant = true) :
    parseValue tenant = some tenant := by
  apply parseValue_of_noControl
  simp only [isValidTenant, Bool.and_eq_true, Bool.not_eq_true'] at valid
  intro char member
  have plain := (List.any_eq_false.mp valid.2) char member
  simpa using plain

theorem getAll_insert {headers : HeaderMap} {name value : String}
    (parses : parseValue value = some value) (other : String) :
    (insert headers name value).getAll other =
      if other = name then [value] else headers.getAll other := by
  rw [insert, parses]
  exact HeaderMap.getAll_insert headers name value other

theorem getAll_insert_other {headers : HeaderMap} {name value other : String}
    (apart : other ≠ name) : (insert headers name value).getAll other = headers.getAll other := by
  cases parsed : parseValue value with
  | none => rw [insert, parsed]
  | some kept =>
      rw [insert, parsed, HeaderMap.getAll_insert, if_neg apart]

theorem isDecimal_repr (value : Nat) : isDecimal value.repr = true := by
  have nonempty : value.repr ≠ "" := by
    intro equal
    have digits : value.repr.toList = [] := by rw [equal]; rfl
    simp [Nat.toList_repr, Nat.toDigits_ne_nil] at digits
  have digits : ∀ char ∈ value.repr.toList, '0' ≤ char ∧ char ≤ '9' := by
    intro char member
    have digit := Text.mem_repr_isDigit member
    simp only [Char.isDigit, Bool.and_eq_true, decide_eq_true_eq] at digit
    exact digit
  simp only [isDecimal, Bool.and_eq_true, Bool.not_eq_true', List.all_eq_true, decide_eq_true_eq]
  exact ⟨by simp [nonempty], digits⟩

theorem parseDecimal_repr (value : UInt64) :
    parseDecimal value.toNat.repr = some value := by
  simp [parseDecimal, isDecimal_repr]

theorem parse_asStr (kind : Kind) : Kind.parse kind.asStr = some kind := by
  cases kind <;> decide

theorem parse_asStr_time (kind : TimeKind) : TimeKind.parse kind.asStr = some kind := by
  cases kind <;> decide

/-- A header map says what a record's `Meta` holds, each pipeline header at most once. -/
structure Carries (headers : HeaderMap) (recordId : Option RecordId) (kind : Option Kind)
    (tenant : String) (time : Option IngestionTime) : Prop where
  recordIds : headers.getAll recordIdName = (recordId.map RecordId.text).toList
  kinds : headers.getAll recordKindName = (kind.map Kind.asStr).toList
  tenants : headers.getAll tenantName = [tenant]
  times : headers.getAll ingestionTimeName =
    (time.map fun time => toString time.unixNanos.toNat).toList
  timeKinds : headers.getAll ingestionTimeKindName =
    (time.map fun time => time.kind.asStr).toList

theorem header_of_toList {headers : HeaderMap} {name : String} {value : Option String}
    (values : headers.getAll name = value.toList) :
    header (some headers) name = .ok value := by
  cases value with
  | none => simp [header, values]
  | some value => simp [header, values]

theorem new_kind_unixNanos (time : IngestionTime) :
    IngestionTime.new time.kind time.unixNanos = time := by
  cases time <;> rfl

theorem ingestionTime_of_texts (time : Option IngestionTime) :
    ingestionTime (.ok (time.map fun time => toString time.unixNanos.toNat))
      (.ok (time.map fun time => time.kind.asStr)) = (time, []) := by
  cases time with
  | none => rfl
  | some time =>
      have nanos : parseDecimal time.unixNanos.toNat.repr = some time.unixNanos :=
        parseDecimal_repr time.unixNanos
      have kind := parse_asStr_time time.kind
      simp [ingestionTime, parseHeader, orInvalid, nanos, kind, Except.map, new_kind_unixNanos]

/-- What a message carries, its arrival gives back, when the subject names no tenant. -/
theorem arrival_of_carries {headers : HeaderMap} {recordId : Option RecordId}
    {kind : Option Kind} {tenant : String} {time : Option IngestionTime}
    (carries : Carries headers recordId kind tenant time) (valid : isValidTenant tenant = true)
    {tenantPrefix : String} {received : Received} (carried : received.headers = some headers)
    (unnamed : Subject.tenantFromSubject received.subject tenantPrefix = none) :
    arrival tenantPrefix received =
      ({ recordId
         kind := (kind.map ArrivalKind.named).getD .unnamed
         tenant := some tenant
         ingestionTime := time.or (received.published.map IngestionTime.reported)
         deliveryCount := received.delivered
         bytes := some received.bytes }, []) := by
  have ids := header_of_toList carries.recordIds
  have kinds := header_of_toList carries.kinds
  have tenants : header (some headers) tenantName = .ok (some tenant) :=
    header_of_toList carries.tenants
  have times := header_of_toList carries.times
  have timeKinds := header_of_toList carries.timeKinds
  have readId : parseOrReport (.ok (recordId.map RecordId.text)) (fun text =>
      orInvalid (.recordId text) ((parseDecimal text).map RecordId.mk)) = (recordId, []) := by
    cases recordId with
    | none => rfl
    | some id =>
        have parsed : parseDecimal id.text = some id.value := parseDecimal_repr id.value
        simp [parseOrReport, parseHeader, orInvalid, parsed, Except.map]
  have readTenant : headerTenant (some headers) = (some tenant, []) := by
    simp [headerTenant, parseOrReport, parseHeader, tenants, valid, Except.map]
  simp only [arrival, carried, unnamed, ids, kinds, times, timeKinds, readId, readTenant,
    ingestionTime_of_texts, Option.filter_none, List.nil_append, List.append_nil]
  cases kind with
  | none => rfl
  | some kind =>
      simp [parseHeader, orInvalid, parse_asStr, Except.map]

end Headers

end FusionPipeline
