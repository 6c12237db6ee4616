import FusionPipeline.Library.Commuting
import FusionPipeline.PathLaws
import FusionPipeline.RegexMatches
import FusionPipeline.RegexStages

/-! Redaction is all or nothing, and exact. -/

namespace FusionPipeline

open FusionPipeline.Path (readAt writeAt child readAt_walk writeAt_walk)

def Holds (record : Record) (path : List String) (text : String) : Prop :=
  readAt record.value path = some (.string text)

section Strings

theorem fromJson_str {value : Json} {text : String} :
    FieldValue.fromJson value = .str text ↔ value = .string text := by
  cases value with
  | number n =>
      rw [FieldValue.fromJson]
      cases Num.fromValue (.number n) with
      | none => exact ⟨fun same => (nomatch same), fun same => (nomatch same)⟩
      | some num => exact ⟨fun same => (nomatch same), fun same => (nomatch same)⟩
  | string value => simp [FieldValue.fromJson]
  | _ => exact ⟨fun same => (nomatch same), fun same => (nomatch same)⟩

theorem read_str {record : Record} {path : WritePath} {text : String} :
    path.read record = .str text ↔ Holds record path.segments text := by
  rw [WritePath.read, Holds]
  cases readAt record.value path.segments with
  | none => exact ⟨fun same => (nomatch same), fun same => (nomatch same)⟩
  | some value => rw [Option.elim_some, fromJson_str, Option.some.injEq]

theorem Holds.under {record : Record} {path rest : List String} {text : String}
    (held : Holds record path text) (more : rest ≠ []) : readAt record.value (path ++ rest) = none := by
  obtain ⟨segment, rest, rfl⟩ := List.exists_cons_of_ne_nil more
  rw [Holds, readAt_walk] at held
  rw [readAt_walk, Walk.read_append, held]
  rfl

theorem Holds.apart {record : Record} {path other : List String} {text more : String}
    (held : Holds record path text) (also : Holds record other more) (differs : path ≠ other) :
    ¬ path <+: other := by
  rintro ⟨rest, rfl⟩
  cases rest with
  | nil => exact differs (List.append_nil path).symm
  | cons segment rest =>
      rw [Holds, held.under (List.cons_ne_nil segment rest)] at also
      cases also

theorem holds_write (record : Record) (written : WritePath × List Char) :
    Holds (writeString record written) written.1.segments (String.ofList written.2) := by
  rw [Holds, writeString, WritePath.write, readAt_walk, writeAt_walk]
  exact Walk.read_write Path.lawful record.value _ written.1.segments

theorem read_writeString {record : Record} {written : WritePath × List Char} {text : String}
    (held : Holds record written.1.segments text) {q : List String}
    (above : ¬ q <+: written.1.segments) :
    readAt (writeString record written).value q = readAt record.value q := by
  by_cases under : written.1.segments <+: q
  · obtain ⟨rest, rfl⟩ := under
    have more : rest ≠ [] := by
      rintro rfl
      rw [List.append_nil] at above
      exact above (List.prefix_refl _)
    rw [held.under more, (holds_write record written).under more]
  · rw [writeString, WritePath.write, readAt_walk, readAt_walk, writeAt_walk]
    refine Walk.read_other Path.lawful Path.keeps_null _ (Walk.clear_of_read Path.lawful ?_ q) under above
    rw [← readAt_walk, held, Option.isSome_some]

def Rewrites (meant : WritePath → List Char) (record : Record) (written : WritePath × List Char) :
    Prop :=
  (∃ text, Holds record written.1.segments text) ∧ written.2 = meant written.1

theorem rewrites_lawful (meant : WritePath → List Char) :
    Commuting.Lawful writeString (Rewrites meant) where
  keeps record first second := by
    rintro ⟨⟨text, held⟩, same⟩ ⟨⟨other, also⟩, same'⟩
    refine ⟨?_, same'⟩
    by_cases path : first.1 = second.1
    · rw [← path]
      exact ⟨_, holds_write record first⟩
    · refine ⟨other, ?_⟩
      rw [Holds, read_writeString held]
      · exact also
      · exact also.apart held fun same => path (congrArg WritePath.mk same.symm)
  comm record first second := by
    rintro ⟨⟨text, held⟩, same⟩ ⟨⟨other, also⟩, same'⟩
    by_cases path : first.1 = second.1
    · have equal : first = second := Prod.ext path (by rw [same, same', path])
      rw [equal]
    · have apart : first.1.segments ≠ second.1.segments := fun same => path (congrArg WritePath.mk same)
      simp only [writeString, WritePath.write, writeAt_walk]
      refine congrArg Record.mk (Walk.write_comm Path.lawful _ _ ?_ ?_ (held.apart also apart)
        (also.apart held apart.symm))
      · rw [← readAt_walk, held, Option.isSome_some]
      · rw [← readAt_walk, also, Option.isSome_some]
  again record written _ := by
    simp only [writeString, WritePath.write, writeAt_walk]
    exact congrArg Record.mk (Walk.write_write Path.lawful _ _ _ _)

theorem read_writeStrings {meant : WritePath → List Char} {record : Record}
    {writes : List (WritePath × List Char)} (valid : ∀ written ∈ writes, Rewrites meant record written)
    {q : List String} (above : ∀ written ∈ writes, ¬ q <+: written.1.segments) :
    readAt (writeStrings record writes).value q = readAt record.value q := by
  induction writes generalizing record with
  | nil => rfl
  | cons written rest ih =>
      rw [List.forall_mem_cons] at valid above
      obtain ⟨⟨text, held⟩, same⟩ := valid.1
      rw [writeStrings, List.foldl_cons]
      refine (ih ?_ above.2).trans (read_writeString held above.1)
      intro other member
      exact (rewrites_lawful meant).keeps record written other valid.1 (valid.2 other member)

theorem holds_writeStrings {meant : WritePath → List Char} {record : Record}
    {writes : List (WritePath × List Char)} (valid : ∀ written ∈ writes, Rewrites meant record written)
    {written : WritePath × List Char} (member : written ∈ writes) :
    Holds (writeStrings record writes) written.1.segments (String.ofList written.2) := by
  have last := Commuting.foldl_apply (rewrites_lawful meant) valid (valid written member)
  rw [Commuting.foldl_member (rewrites_lawful meant) valid member] at last
  rw [writeStrings, last]
  exact holds_write _ written

end Strings

namespace Redact

def Clean (redact : Redact) (record : Record) : Prop :=
  ∀ path ∈ redact.fields, ∀ text, Holds record path.segments text →
    ∃ masked, redact.regex.replaceAll text.toList redact.replace = .ok masked

/-- What the stage means to write at a path. -/
def Masks (redact : Redact) (record : Record) (path : WritePath) (masked : List Char) : Prop :=
  ∃ text, Holds record path.segments text ∧
    redact.regex.replaceAll text.toList redact.replace = .ok (some masked)

theorem Masks.iff_ok {redact : Redact} {record : Record} {path : WritePath} {text : String}
    {result : Option (List Char)} (held : Holds record path.segments text)
    (replaced : redact.regex.replaceAll text.toList redact.replace = .ok result) (masked : List Char) :
    redact.Masks record path masked ↔ result = some masked := by
  constructor
  · rintro ⟨other, also, same⟩
    obtain rfl := Json.string.inj (Option.some.inj (held.symm.trans also))
    exact Except.ok.inj (replaced.symm.trans same)
  · rintro rfl
    exact ⟨text, held, replaced⟩

/-- The scan lists what is to be written, or stops at a match call that fails. -/
theorem rewrites_cases (redact : Redact) (record : Record) (fields : List WritePath) :
    (∃ writes, redact.rewrites record fields = .ok writes ∧
      ∀ written, written ∈ writes ↔ written.1 ∈ fields ∧ redact.Masks record written.1 written.2) ∨
    ∃ fault path text, redact.rewrites record fields = .error fault ∧ path ∈ fields ∧
      Holds record path.segments text ∧
        redact.regex.replaceAll text.toList redact.replace = .error fault := by
  induction fields with
  | nil => exact .inl ⟨[], rfl, by simp⟩
  | cons path rest ih =>
      have wider {fault : Fault MatchError} {result : Except (Fault MatchError) (List (WritePath × List Char))}
          (same : result = .error fault) (later : ∃ path text, path ∈ rest ∧
            Holds record path.segments text ∧
              redact.regex.replaceAll text.toList redact.replace = .error fault) :
          ∃ fault other text, result = .error fault ∧ other ∈ path :: rest ∧
            Holds record other.segments text ∧
              redact.regex.replaceAll text.toList redact.replace = .error fault := by
        obtain ⟨other, text, member, held, failed⟩ := later
        exact ⟨fault, other, text, same, List.mem_cons_of_mem _ member, held, failed⟩
      rw [rewrites]
      split
      next text read =>
        have held := read_str.mp read
        cases replaced : redact.regex.replaceAll text.toList redact.replace with
        | error fault => exact .inr ⟨fault, path, text, rfl, List.mem_cons_self, held, replaced⟩
        | ok result =>
            have masks := Masks.iff_ok held replaced
            cases result with
            | none =>
                rcases ih with ⟨writes, ran, listed⟩ | ⟨fault, other, more, failed, later⟩
                · refine .inl ⟨writes, ran, ?_⟩
                  rintro ⟨other, masked⟩
                  rw [listed, List.mem_cons]
                  constructor
                  · rintro ⟨member, masked⟩
                    exact ⟨.inr member, masked⟩
                  · rintro ⟨rfl | member, isMasked⟩
                    · cases (masks masked).mp isMasked
                    · exact ⟨member, isMasked⟩
                · exact .inr (wider failed ⟨other, more, later⟩)
            | some here =>
                rcases ih with ⟨writes, ran, listed⟩ | ⟨fault, other, more, failed, later⟩
                · refine .inl ⟨(path, here) :: writes, by dsimp only; rw [ran]; rfl, ?_⟩
                  rintro ⟨other, masked⟩
                  rw [List.mem_cons, listed, List.mem_cons, Prod.mk.injEq]
                  constructor
                  · rintro (⟨rfl, rfl⟩ | ⟨member, isMasked⟩)
                    · exact ⟨.inl rfl, (masks _).mpr rfl⟩
                    · exact ⟨.inr member, isMasked⟩
                  · rintro ⟨rfl | member, isMasked⟩
                    · exact .inl ⟨rfl, (Option.some.inj ((masks masked).mp isMasked)).symm⟩
                    · exact .inr ⟨member, isMasked⟩
                · exact .inr (wider (by dsimp only; rw [failed]; rfl) ⟨other, more, later⟩)
      next notText =>
        have noText (text : String) : ¬ Holds record path.segments text := fun held =>
          notText text (read_str.mpr held)
        rcases ih with ⟨writes, ran, listed⟩ | ⟨fault, other, more, failed, later⟩
        · refine .inl ⟨writes, ran, ?_⟩
          rintro ⟨other, masked⟩
          rw [listed, List.mem_cons]
          constructor
          · rintro ⟨member, isMasked⟩
            exact ⟨.inr member, isMasked⟩
          · rintro ⟨rfl | member, isMasked⟩
            · obtain ⟨text, held, _⟩ := isMasked
              exact absurd held (noText text)
            · exact ⟨member, isMasked⟩
        · exact .inr (wider failed ⟨other, more, later⟩)

theorem rewrites_clean {redact : Redact} {record : Record} {fields : List WritePath}
    {writes : List (WritePath × List Char)} (ran : redact.rewrites record fields = .ok writes) :
    ∀ path ∈ fields, ∀ text, Holds record path.segments text →
      ∃ masked, redact.regex.replaceAll text.toList redact.replace = .ok masked := by
  induction fields generalizing writes with
  | nil => exact fun path member => absurd member List.not_mem_nil
  | cons path rest ih =>
      rw [rewrites] at ran
      rw [List.forall_mem_cons]
      split at ran
      next text read =>
        have held := read_str.mp read
        cases replaced : redact.regex.replaceAll text.toList redact.replace with
        | error fault =>
            rw [replaced] at ran
            cases ran
        | ok result =>
            refine ⟨fun other also => ⟨result, ?_⟩, ?_⟩
            · obtain rfl := Json.string.inj (Option.some.inj (held.symm.trans also))
              exact replaced
            · rw [replaced] at ran
              cases result with
              | none => exact ih ran
              | some masked =>
                  obtain ⟨later, found, _⟩ := Fallible.map_ok_iff.mp ran
                  exact ih found
      next notText => exact ⟨fun text held => absurd (read_str.mpr held) (notText text), ih ran⟩

def meant (redact : Redact) (record : Record) (path : WritePath) : List Char :=
  match path.read record with
  | .str text => (redact.regex.replaceAll text.toList redact.replace).toOption.join.getD []
  | _ => []

theorem Masks.rewrites {redact : Redact} {record : Record} {written : WritePath × List Char}
    (masks : redact.Masks record written.1 written.2) :
    Rewrites (redact.meant record) record written := by
  obtain ⟨text, held, replaced⟩ := masks
  refine ⟨⟨text, held⟩, ?_⟩
  rw [meant, read_str.mpr held]
  dsimp only
  rw [replaced]
  rfl

def Lists (redact : Redact) (record : Record) (writes : List (WritePath × List Char)) : Prop :=
  ∀ written, written ∈ writes ↔ written.1 ∈ redact.fields ∧ redact.Masks record written.1 written.2

theorem Lists.valid {redact : Redact} {record : Record} {writes : List (WritePath × List Char)}
    (lists : redact.Lists record writes) :
    ∀ written ∈ writes, Rewrites (redact.meant record) record written := fun written member =>
  ((lists written).mp member).2.rewrites

theorem Clean.scan {redact : Redact} {record : Record} (clean : redact.Clean record) :
    ∃ writes, redact.rewrites record redact.fields = .ok writes ∧ redact.Lists record writes := by
  rcases redact.rewrites_cases record redact.fields with
    ⟨writes, ran, listed⟩ | ⟨fault, path, text, _, member, held, failed⟩
  · exact ⟨writes, ran, listed⟩
  · obtain ⟨masked, replaced⟩ := clean path member text held
    rw [failed] at replaced
    cases replaced

theorem process_ok {redact : Redact} {record : Record} {writes : List (WritePath × List Char)}
    (ran : redact.rewrites record redact.fields = .ok writes) (context : Context) :
    redact.process record context =
      .ok (.pass (writeStrings record writes), writeStrings record writes) := by
  rw [process, ran]
  dsimp only
  split
  next empty => rw [List.isEmpty_iff.mp empty, writeStrings, List.foldl_nil]
  next => rfl

/-- Where no match call fails, the strings listed are rewritten and nothing else is, whatever the
order of the fields; where one fails, nothing is written. -/
theorem process_exact (redact : Redact) (record : Record) (context : Context)
    (bounded : ∀ haystack, redact.regex.Bounded haystack) :
    (redact.Clean record → ∃ writes after,
      redact.process record context = .ok (.pass after, after) ∧
      redact.Lists record writes ∧ after = writeStrings record writes ∧
      (∀ path ∈ redact.fields, ∀ text result, Holds record path.segments text →
        redact.regex.replaceAll text.toList redact.replace = .ok result →
          Holds after path.segments (result.elim text String.ofList)) ∧
      (∀ q, (∀ path ∈ redact.fields, ∀ text, Holds record path.segments text →
        ¬ q <+: path.segments) → readAt after.value q = readAt record.value q) ∧
      ∀ fields, (∀ path, path ∈ fields ↔ path ∈ redact.fields) →
        { redact with fields }.process record context = .ok (.pass after, after)) ∧
    (¬ redact.Clean record →
      ∃ error, redact.process record context = .ok (matchFailure context.nodeId error, record)) := by
  constructor
  · intro clean
    obtain ⟨writes, ran, lists⟩ := clean.scan
    refine ⟨writes, _, process_ok ran context, lists, rfl, ?_, ?_, ?_⟩
    · intro path member text result held replaced
      have masks := Masks.iff_ok held replaced
      cases result with
      | none =>
          rw [Option.elim_none, Holds, read_writeStrings lists.valid]
          · exact held
          · rintro ⟨other, masked⟩ written
            obtain ⟨_, isMasked⟩ := (lists _).mp written
            obtain ⟨more, also, _⟩ := id isMasked
            refine held.apart also ?_
            intro same
            obtain rfl : path = other := congrArg WritePath.mk same
            cases (masks masked).mp isMasked
      | some masked =>
          exact holds_writeStrings lists.valid ((lists (path, masked)).mpr ⟨member, (masks masked).mpr rfl⟩)
    · intro q above
      refine read_writeStrings lists.valid ?_
      intro written member
      obtain ⟨inFields, text, held, _⟩ := (lists written).mp member
      exact above written.1 inFields text held
    · intro fields same
      have alsoClean : { redact with fields }.Clean record := fun path member =>
        clean path ((same path).mp member)
      obtain ⟨others, ran', lists'⟩ := alsoClean.scan
      have result := process_ok ran' context
      have equal : writeStrings record writes = writeStrings record others :=
        Commuting.foldl_same (rewrites_lawful (redact.meant record)) lists.valid fun written => by
          rw [lists, lists', same]
          rfl
      rw [equal]
      exact result
  · intro fails
    rcases redact.rewrites_cases record redact.fields with
      ⟨writes, ran, _⟩ | ⟨fault, path, text, ran, member, held, failed⟩
    · exact absurd (rewrites_clean ran) fails
    · cases fault with
      | panic => exact absurd failed (replaceAll_noPanic (bounded _) _)
      | error error =>
          refine ⟨error, ?_⟩
          rw [process, ran]

def marking : Redact :=
  ⟨[⟨["body", "msg"]⟩], emptyPattern, ['-']⟩

def marked (text : String) : Record :=
  ⟨.object [("body", .object [("msg", .string text)])]⟩

theorem marking_clean : marking.Clean (marked "a") := by
  intro path member text held
  obtain rfl := List.mem_singleton.mp member
  have same : Holds (marked "a") ["body", "msg"] "a" := by rfl
  obtain rfl := Json.string.inj (Option.some.inj (held.symm.trans same))
  exact ⟨some "-a-".toList, by decide +kernel⟩

def firstContext : Context :=
  ⟨"n", ⟨⟨0⟩, "t", .clock 0, 1⟩, ⟨"", "", false⟩⟩

/-- The same with `body.msg` listed twice, and `body.host`, which the record lacks. -/
def markingTwice : Redact :=
  { marking with fields := [⟨["body", "msg"]⟩, ⟨["body", "host"]⟩, ⟨["body", "msg"]⟩] }

theorem held_markingTwice {path : WritePath} {text : String} (member : path ∈ markingTwice.fields)
    (held : Holds (marked "a") path.segments text) : path = ⟨["body", "msg"]⟩ ∧ text = "a" := by
  have one : path = ⟨["body", "msg"]⟩ ∨ path = ⟨["body", "host"]⟩ := by
    simpa [markingTwice, or_comm, or_left_comm] using member
  rcases one with rfl | rfl
  · have same : Holds (marked "a") ["body", "msg"] "a" := by rfl
    exact ⟨rfl, Json.string.inj (Option.some.inj (held.symm.trans same))⟩
  · have none_ : readAt (marked "a").value ["body", "host"] = none := by rfl
    cases none_.symm.trans held

theorem process_exact_marking : ∃ after,
    markingTwice.process (marked "a") firstContext = .ok (.pass after, after) ∧
      { markingTwice with fields := [⟨["body", "host"]⟩, ⟨["body", "msg"]⟩] }.process (marked "a")
        firstContext = .ok (.pass after, after) ∧
      Holds after ["body", "msg"] "-a-" ∧
      readAt after.value ["body", "host"] = readAt (marked "a").value ["body", "host"] := by
  have replaced : emptyPattern.replaceAll "a".toList ['-'] = .ok (some "-a-".toList) := by
    decide +kernel
  have clean : markingTwice.Clean (marked "a") := by
    intro path member text held
    obtain ⟨_, rfl⟩ := held_markingTwice member held
    exact ⟨_, replaced⟩
  obtain ⟨writes, after, ran, _, _, masked, apart, reordered⟩ :=
    (process_exact markingTwice (marked "a") firstContext fun haystack =>
      emptyPattern_bounded haystack).1 clean
  refine ⟨after, ran, reordered _ ?_, ?_, ?_⟩
  · simp [markingTwice, or_comm, or_left_comm]
  · exact masked ⟨["body", "msg"]⟩ List.mem_cons_self "a" (some "-a-".toList) rfl replaced
  · apply apart
    intro path member text held under
    rw [(held_markingTwice member held).1] at under
    exact absurd under (by decide)

/-- A path above a listed one is none of the listed ones and reads the rewritten string. -/
theorem process_exact_above :
    ¬ ∀ (redact : Redact) (record after : Record) (context : Context), redact.Clean record →
      redact.process record context = .ok (.pass after, after) →
        ∀ q : List String, (∀ path ∈ redact.fields, path.segments ≠ q) →
          readAt after.value q = readAt record.value q := by
  intro all
  have replaced : emptyPattern.replaceAll "a".toList ['-'] = .ok (some "-a-".toList) := by
    decide +kernel
  have scan : marking.rewrites (marked "a") marking.fields = .ok [(⟨["body", "msg"]⟩, "-a-".toList)] := by
    have read : WritePath.read ⟨["body", "msg"]⟩ (marked "a") = .str "a" := by rfl
    rw [marking, rewrites, read]
    dsimp only
    rw [replaced]
    rfl
  have same := all marking (marked "a") _ firstContext marking_clean (process_ok scan _) ["body"] (by decide)
  have before : readAt (marked "a").value ["body"] = some (.object [("msg", .string "a")]) := by rfl
  have after : readAt (writeStrings (marked "a") [(⟨["body", "msg"]⟩, "-a-".toList)]).value ["body"] =
      some (.object [("msg", .string "-a-")]) := by rfl
  rw [before, after] at same
  simp at same

end Redact

end FusionPipeline
