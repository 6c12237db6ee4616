import FusionPipeline.HeaderReads

/-! A pipeline header that does not parse is ignored: the arrival is the one of a message
that never carried it. -/

namespace FusionPipeline

namespace HeaderMap

def without (headers : HeaderMap) (names : List String) : HeaderMap where
  entries := headers.entries.filter fun entry => entry.1 ∉ names
  distinct := (List.filter_sublist.map Prod.fst).nodup headers.distinct

theorem getAll_without (headers : HeaderMap) (names : List String) (name : String) :
    (headers.without names).getAll name = if name ∈ names then [] else headers.getAll name := by
  obtain ⟨entries, distinct⟩ := headers
  simp only [getAll, without]
  clear distinct
  induction entries with
  | nil => simp
  | cons entry rest ih =>
      obtain ⟨first, values⟩ := entry
      by_cases dropped : first ∈ names
      · by_cases same : name = first
        · simp_all
        · have apart : (name == first) = false := beq_eq_false_iff_ne.mpr same
          simp [dropped, List.lookup_cons, apart, ← ih]
      · by_cases same : name = first
        · simp [same, dropped]
        · have apart : (name == first) = false := beq_eq_false_iff_ne.mpr same
          simp [dropped, List.lookup_cons, apart, ← ih]

end HeaderMap

namespace Headers

def InvalidHeader.name : InvalidHeader → String
  | recordId _ => recordIdName
  | recordKind _ => recordKindName
  | tenant => tenantName
  | repeated name => name
  | time _ => ingestionTimeName
  | kind _ => ingestionTimeKindName
  | unpaired name => name

theorem header_without (headers : Option HeaderMap) (names : List String) (name : String) :
    header (headers.map fun sent => sent.without names) name =
      if name ∈ names then .ok none else header headers name := by
  cases headers with
  | none => simp [header]
  | some sent =>
      by_cases dropped : name ∈ names <;> simp [header, HeaderMap.getAll_without, dropped]

section Reports

variable {Value : Type} {parse : String → Except InvalidHeader Value} {name : String}

theorem parseHeader_error {headers : Option HeaderMap} {problem : InvalidHeader}
    (failed : parseHeader (header headers name) parse = .error problem) :
    problem = .repeated name ∨ ∃ text, parse text = .error problem := by
  cases headers with
  | none => simp [parseHeader, header] at failed
  | some sent =>
      rcases values : sent.getAll name with _ | ⟨value, _ | ⟨second, rest⟩⟩
      · simp [parseHeader, header, values] at failed
      · simp only [parseHeader, header, values] at failed
        cases parsed : parse value with
        | ok read => simp [parsed, Except.map] at failed
        | error why =>
            simp only [parsed, Except.map, Except.error.injEq] at failed
            exact Or.inr ⟨value, failed ▸ parsed⟩
      · simp only [parseHeader, header, values, Except.error.injEq] at failed
        exact Or.inl failed.symm

theorem parseHeader_error_name {headers : Option HeaderMap} {problem : InvalidHeader}
    (parseNames : ∀ text problem, parse text = .error problem → problem.name = name)
    (failed : parseHeader (header headers name) parse = .error problem) : problem.name = name := by
  rcases parseHeader_error failed with rfl | ⟨text, unparsed⟩
  · rfl
  · exact parseNames text problem unparsed

theorem parseOrReport_reports {headers : Option HeaderMap}
    (parseNames : ∀ text problem, parse text = .error problem → problem.name = name) :
    (parseOrReport (header headers name) parse).2.map InvalidHeader.name = [] ∨
      (parseOrReport (header headers name) parse).2.map InvalidHeader.name = [name] ∧
        (parseOrReport (header headers name) parse).1 = none := by
  rcases read : parseHeader (header headers name) parse with problem | value
  · right
    simp [parseOrReport, read, parseHeader_error_name parseNames read]
  · left
    simp [parseOrReport, read]

theorem parseOrReport_error {headers : Option HeaderMap} {problem : InvalidHeader}
    (reported : problem ∈ (parseOrReport (header headers name) parse).2) :
    problem = .repeated name ∨ ∃ text, parse text = .error problem := by
  rw [parseOrReport] at reported
  rcases read : parseHeader (header headers name) parse with why | value
  · rw [read, List.mem_singleton] at reported
    exact parseHeader_error (reported ▸ read)
  · rw [read] at reported
    exact absurd reported List.not_mem_nil

theorem parseOrReport_without {headers : Option HeaderMap} {names : List String}
    (parseNames : ∀ text problem, parse text = .error problem → problem.name = name)
    (reported : name ∈ names →
      name ∈ (parseOrReport (header headers name) parse).2.map InvalidHeader.name) :
    (parseOrReport (header (headers.map fun sent => sent.without names) name) parse).1 =
      (parseOrReport (header headers name) parse).1 := by
  rw [header_without]
  by_cases dropped : name ∈ names
  · rw [if_pos dropped]
    rcases parseOrReport_reports parseNames with none_ | ⟨_, absent⟩
    · have here := reported dropped
      rw [none_] at here
      exact absurd here List.not_mem_nil
    · exact absent.symm
  · rw [if_neg dropped]

end Reports

def readId (headers : Option HeaderMap) : Option RecordId × List InvalidHeader :=
  parseOrReport (header headers recordIdName) fun text =>
    orInvalid (.recordId text) ((parseDecimal text).map RecordId.mk)

def readKind (headers : Option HeaderMap) : ArrivalKind × List InvalidHeader :=
  match parseHeader (header headers recordKindName) fun text =>
      orInvalid (.recordKind text) (Kind.parse text) with
  | .ok none => (.unnamed, [])
  | .ok (some kind) => (.named kind, [])
  | .error problem => (.unreadable, [problem])

def readTenant (tenantPrefix subject : String) (headers : Option HeaderMap) :
    Option String × List InvalidHeader :=
  match (Subject.tenantFromSubject subject tenantPrefix).filter isValidTenant with
  | some tenant => (some tenant, [])
  | none => headerTenant headers

def readTime (headers : Option HeaderMap) : Option IngestionTime × List InvalidHeader :=
  ingestionTime (header headers ingestionTimeName) (header headers ingestionTimeKindName)

theorem arrival_eq (tenantPrefix : String) (received : Received) :
    arrival tenantPrefix received =
      ({ recordId := (readId received.headers).1
         kind := (readKind received.headers).1
         tenant := (readTenant tenantPrefix received.subject received.headers).1
         ingestionTime :=
           (readTime received.headers).1.or (received.published.map IngestionTime.reported)
         deliveryCount := received.delivered
         bytes := some received.bytes },
       (readId received.headers).2 ++ (readKind received.headers).2 ++
         (readTenant tenantPrefix received.subject received.headers).2 ++
         (readTime received.headers).2) := by
  rfl

theorem orInvalid_error {Value : Type} {problem reported : InvalidHeader} {value : Option Value}
    (failed : orInvalid problem value = .error reported) : reported = problem := by
  cases value with
  | none => exact (Except.error.inj failed).symm
  | some value => simp [orInvalid] at failed

theorem readId_reports (headers : Option HeaderMap) :
    (readId headers).2.map InvalidHeader.name = [] ∨
      (readId headers).2.map InvalidHeader.name = [recordIdName] ∧ (readId headers).1 = none := by
  apply parseOrReport_reports
  intro text problem failed
  rw [orInvalid_error failed]
  rfl

theorem headerTenant_names (text : String) (problem : InvalidHeader)
    (failed : (if isValidTenant text then .ok text else .error .tenant :
      Except InvalidHeader String) = .error problem) : problem.name = tenantName := by
  split at failed
  · exact absurd failed (by simp)
  · rw [← Except.error.inj failed]
    rfl

theorem readTenant_reports (tenantPrefix subject : String) (headers : Option HeaderMap) :
    (readTenant tenantPrefix subject headers).2.map InvalidHeader.name = [] ∨
      (readTenant tenantPrefix subject headers).2.map InvalidHeader.name = [tenantName] := by
  rw [readTenant]
  split
  · exact Or.inl rfl
  · exact (parseOrReport_reports headerTenant_names).imp_right And.left

theorem readId_keeps {headers : Option HeaderMap} {problem : InvalidHeader}
    (reported : problem ∈ (readId headers).2) :
    problem.refusesMessage = false ∧ problem.name ≠ recordKindName := by
  rcases parseOrReport_error reported with rfl | ⟨text, failed⟩
  · decide
  · rw [orInvalid_error failed]
    exact ⟨rfl, by simp only [InvalidHeader.name]; decide⟩

theorem readTenant_keeps {tenantPrefix subject : String} {headers : Option HeaderMap}
    {problem : InvalidHeader} (reported : problem ∈ (readTenant tenantPrefix subject headers).2) :
    problem.refusesMessage = false ∧ problem.name ≠ recordKindName := by
  rw [readTenant] at reported
  split at reported
  · exact absurd reported List.not_mem_nil
  · rcases parseOrReport_error reported with rfl | ⟨text, failed⟩
    · decide
    · split at failed
      · exact absurd failed (by simp)
      · rw [← Except.error.inj failed]
        decide

theorem readKind_reports (headers : Option HeaderMap) :
    (∃ problem, readKind headers = (.unreadable, [problem]) ∧ problem.name = recordKindName ∧
        problem.refusesMessage = true) ∨
      (readKind headers).2 = [] ∧ (readKind headers).1 ≠ .unreadable := by
  rcases read : parseHeader (header headers recordKindName) fun text =>
      orInvalid (.recordKind text) (Kind.parse text) with problem | value
  · left
    refine ⟨problem, by rw [readKind, read], ?_⟩
    rcases parseHeader_error read with rfl | ⟨text, unparsed⟩
    · exact ⟨rfl, by decide⟩
    · rw [orInvalid_error unparsed]
      exact ⟨rfl, rfl⟩
  · right
    rw [readKind, read]
    cases value <;> simp

theorem readTime_reports (headers : Option HeaderMap) :
    ((readTime headers).2 = [] ∨ (readTime headers).1 = none) ∧
      ((readTime headers).2.map InvalidHeader.name).Sublist
        [ingestionTimeName, ingestionTimeKindName] ∧
      ∀ problem ∈ (readTime headers).2,
        problem.refusesMessage = false ∧ problem.name ≠ recordKindName := by
  have apart : ingestionTimeName ≠ recordKindName ∧ ingestionTimeKindName ≠ recordKindName := by
    decide
  have timeErrors : ∀ problem, parseHeader (header headers ingestionTimeName) (fun text =>
      orInvalid (.time text) (parseDecimal text)) = .error problem →
      problem.name = ingestionTimeName ∧ problem.refusesMessage = false := by
    intro problem failed
    rcases parseHeader_error failed with rfl | ⟨text, unparsed⟩
    · exact ⟨rfl, by decide⟩
    · rw [orInvalid_error unparsed]
      exact ⟨rfl, rfl⟩
  have kindErrors : ∀ problem, parseHeader (header headers ingestionTimeKindName) (fun text =>
      orInvalid (.kind text) (TimeKind.parse text)) = .error problem →
      problem.name = ingestionTimeKindName ∧ problem.refusesMessage = false := by
    intro problem failed
    rcases parseHeader_error failed with rfl | ⟨text, unparsed⟩
    · exact ⟨rfl, by decide⟩
    · rw [orInvalid_error unparsed]
      exact ⟨rfl, rfl⟩
  rw [readTime, ingestionTime]
  generalize parseHeader (header headers ingestionTimeName) (fun text =>
    orInvalid (.time text) (parseDecimal text)) = time at timeErrors
  generalize parseHeader (header headers ingestionTimeKindName) (fun text =>
    orInvalid (.kind text) (TimeKind.parse text)) = kind at kindErrors
  rcases time with timeProblem | (_ | nanos) <;> rcases kind with kindProblem | (_ | kind)
  case error.error =>
    obtain ⟨timeName, timeKept⟩ := timeErrors timeProblem rfl
    obtain ⟨kindName, kindKept⟩ := kindErrors kindProblem rfl
    simp [problemOf, timeName, timeKept, kindName, kindKept, apart]
  case error.ok.none =>
    obtain ⟨timeName, timeKept⟩ := timeErrors timeProblem rfl
    simp [problemOf, timeName, timeKept, apart]
  case error.ok.some =>
    obtain ⟨timeName, timeKept⟩ := timeErrors timeProblem rfl
    simp [problemOf, timeName, timeKept, apart]
  case ok.none.error =>
    obtain ⟨kindName, kindKept⟩ := kindErrors kindProblem rfl
    simp [problemOf, kindName, kindKept, apart]
  case ok.some.error =>
    obtain ⟨kindName, kindKept⟩ := kindErrors kindProblem rfl
    simp [problemOf, kindName, kindKept, apart]
  all_goals simp [InvalidHeader.name, InvalidHeader.refusesMessage, apart]

theorem ingestionTime_absent (time kind : Except InvalidHeader (Option String))
    (absent : time = .ok none ∨ kind = .ok none) : (ingestionTime time kind).1 = none := by
  rw [ingestionTime]
  rcases absent with rfl | rfl
  · generalize parseHeader kind (fun text => orInvalid (.kind text) (TimeKind.parse text)) = kind
    rcases kind with problem | (_ | kind) <;> rfl
  · generalize parseHeader time (fun text => orInvalid (.time text) (parseDecimal text)) = time
    rcases time with problem | (_ | nanos) <;> rfl

theorem readTime_without {headers : Option HeaderMap} {names : List String}
    (reported : ∀ name ∈ [ingestionTimeName, ingestionTimeKindName], name ∈ names →
      name ∈ (readTime headers).2.map InvalidHeader.name) :
    (readTime (headers.map fun sent => sent.without names)).1 = (readTime headers).1 := by
  by_cases dropped : ∃ name ∈ [ingestionTimeName, ingestionTimeKindName], name ∈ names
  · obtain ⟨name, paired, deleted⟩ := dropped
    have noTime : (readTime headers).1 = none := by
      rcases (readTime_reports headers).1 with quiet | absent
      · have here := reported name paired deleted
        rw [quiet] at here
        exact absurd here List.not_mem_nil
      · exact absent
    rw [noTime, readTime, header_without, header_without]
    apply ingestionTime_absent
    rw [List.mem_cons, List.mem_singleton] at paired
    rcases paired with rfl | rfl
    · exact Or.inl (if_pos deleted)
    · exact Or.inr (if_pos deleted)
  · have kept : ingestionTimeName ∉ names ∧ ingestionTimeKindName ∉ names := by
      constructor <;> intro deleted <;> exact dropped ⟨_, by simp, deleted⟩
    rw [readTime, readTime, header_without, header_without, if_neg kept.1, if_neg kept.2]

theorem arrival_reports (tenantPrefix : String) (received : Received) :
    let names := (arrival tenantPrefix received).2.map InvalidHeader.name
    names.Nodup ∧
      (recordIdName ∈ names → recordIdName ∈ (readId received.headers).2.map InvalidHeader.name) ∧
      (recordKindName ∈ names →
        recordKindName ∈ (readKind received.headers).2.map InvalidHeader.name) ∧
      (tenantName ∈ names → tenantName ∈
        (readTenant tenantPrefix received.subject received.headers).2.map InvalidHeader.name) ∧
      ∀ name ∈ [ingestionTimeName, ingestionTimeKindName], name ∈ names →
        name ∈ (readTime received.headers).2.map InvalidHeader.name := by
  have ids : ((readId received.headers).2.map InvalidHeader.name).Sublist [recordIdName] := by
    rcases readId_reports received.headers with quiet | ⟨named, _⟩
    · simp [quiet]
    · simp [named]
  have kinds : ((readKind received.headers).2.map InvalidHeader.name).Sublist [recordKindName] := by
    rcases readKind_reports received.headers with ⟨problem, read, named, _⟩ | ⟨quiet, _⟩
    · simp [read, named]
    · simp [quiet]
  have tenants : ((readTenant tenantPrefix received.subject received.headers).2.map
      InvalidHeader.name).Sublist [tenantName] := by
    rcases readTenant_reports tenantPrefix received.subject received.headers with quiet | named
    · simp [quiet]
    · simp [named]
  have times := (readTime_reports received.headers).2.1
  simp only [arrival_eq, List.map_append]
  have distinct : [recordIdName, recordKindName, tenantName, ingestionTimeName,
    ingestionTimeKindName].Nodup := by decide
  refine ⟨(((ids.append kinds).append tenants).append times).nodup distinct, ?_⟩
  have inIds := ids.subset
  have inKinds := kinds.subset
  have inTenants := tenants.subset
  have inTimes := times.subset
  simp only [List.nodup_cons, List.mem_cons, List.not_mem_nil, or_false, not_or] at distinct
  simp only [List.subset_def, List.mem_cons, List.not_mem_nil, or_false] at inIds inKinds inTenants inTimes
  simp only [List.mem_append, List.mem_cons, List.not_mem_nil, or_false]
  -- A name found in another header's reports would be two of the distinct names at once.
  refine ⟨?_, ?_, ?_, ?_⟩
  · intro member
    grind
  · intro member
    grind
  · intro member
    grind
  · intro name paired member
    grind

/-- Ignoring a pipeline header is all that reporting it does, the record kind apart: each is
reported once, and the arrival is the one of the message without the reported headers. -/
theorem reported_headers_ignored (tenantPrefix : String) (received : Received) :
    let arrived := (arrival tenantPrefix received).1
    let invalid := (arrival tenantPrefix received).2
    let names := invalid.map InvalidHeader.name
    let cleaned := (arrival tenantPrefix
      { received with headers := received.headers.map fun sent => sent.without names }).1
    names.Nodup ∧
      cleaned = { arrived with kind := cleaned.kind } ∧
      (arrived.kind = .unreadable ↔ recordKindName ∈ names) ∧
      (recordKindName ∉ names → cleaned.kind = arrived.kind) ∧
      ∀ problem ∈ invalid, problem.refusesMessage = true ↔ problem.name = recordKindName := by
  intro arrived invalid names cleaned
  obtain ⟨once, ownId, ownKind, ownTenant, ownTime⟩ := arrival_reports tenantPrefix received
  have sameId : (readId (received.headers.map fun sent => sent.without names)).1 =
      (readId received.headers).1 := by
    apply parseOrReport_without _ ownId
    intro text problem failed
    rw [orInvalid_error failed]
    rfl
  have sameTenant : (readTenant tenantPrefix received.subject
      (received.headers.map fun sent => sent.without names)).1 =
      (readTenant tenantPrefix received.subject received.headers).1 := by
    rw [readTenant] at ownTenant ⊢
    rw [readTenant]
    split
    · rfl
    next unnamed =>
      rw [unnamed] at ownTenant
      exact parseOrReport_without headerTenant_names ownTenant
  have sameTime : (readTime (received.headers.map fun sent => sent.without names)).1 =
      (readTime received.headers).1 := readTime_without ownTime
  refine ⟨once, ?_, ?_, ?_, ?_⟩
  · simp only [cleaned, arrived, arrival_eq, sameId, sameTenant, sameTime]
  · have unreadable : recordKindName ∈ names ↔
        recordKindName ∈ (readKind received.headers).2.map InvalidHeader.name := by
      refine ⟨ownKind, fun own => ?_⟩
      simp only [names, invalid, arrival_eq, List.map_append, List.mem_append]
      exact Or.inl (Or.inl (Or.inr own))
    rw [unreadable]
    simp only [arrived, arrival_eq]
    rcases readKind_reports received.headers with ⟨problem, read, named, _⟩ | ⟨quiet, readable⟩
    · simp [read, named]
    · simp [quiet, readable]
  · intro kept
    simp only [cleaned, arrived, arrival_eq, readKind, header_without, if_neg kept]
  · intro problem reported
    have keeps (kept : problem.refusesMessage = false ∧ problem.name ≠ recordKindName) :
        problem.refusesMessage = true ↔ problem.name = recordKindName := by
      simp [kept.1, kept.2]
    simp only [invalid, arrival_eq, List.mem_append] at reported
    rcases reported with ((inId | inKind) | inTenant) | inTime
    · exact keeps (readId_keeps inId)
    · rcases readKind_reports received.headers with ⟨why, read, named, refuses⟩ | ⟨quiet, _⟩
      · rw [read, List.mem_singleton] at inKind
        rw [inKind]
        exact ⟨fun _ => named, fun _ => refuses⟩
      · rw [quiet] at inKind
        exact absurd inKind List.not_mem_nil
    · exact keeps (readTenant_keeps inTenant)
    · exact keeps ((readTime_reports received.headers).2.2 problem inTime)

end Headers

end FusionPipeline
