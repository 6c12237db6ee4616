import FusionPipeline.Redaction

/-! What an extraction writes: the named groups of a match under one path. -/

namespace FusionPipeline

open FusionPipeline.Path (child store readAt writeAt readAt_walk writeAt_walk)

def Regex.NamesGroups (re : Regex) : Prop :=
  ∀ name, some name ∈ re.names → Path.position name = none

section Names

theorem child_named {inner : Json} {name : String} (notPosition : Path.position name = none) :
    ∃ map, (∀ part, store inner name part = .object (Pairs.put name part map)) ∧
      ∀ other, Path.position other = none → child inner other = Pairs.find other map := by
  cases inner with
  | object map => exact ⟨map, fun part => rfl, fun other _ => rfl⟩
  | array items =>
      have missing : child (.array items) name = none := by rw [child, notPosition, Option.bind_none]
      refine ⟨[], ?_, ?_⟩
      · intro part
        rw [store, Path.slot_other (fun _ same => Json.noConfusion same) missing]
        rfl
      · intro other none_
        rw [child, none_, Option.bind_none]
        rfl
  | null => exact ⟨[], fun part => rfl, fun other _ => rfl⟩
  | bool value => exact ⟨[], fun part => rfl, fun other _ => rfl⟩
  | number value => exact ⟨[], fun part => rfl, fun other _ => rfl⟩
  | string value => exact ⟨[], fun part => rfl, fun other _ => rfl⟩

variable {record : Record} {into : WritePath} {name : String} (notPosition : Path.position name = none)
include notPosition

theorem read_sibling {other : String} (alsoNot : Path.position other = none) (differs : other ≠ name)
    (text : List Char) :
    readAt (writeString record (into.child name, text)).value (into.segments ++ [other]) =
      readAt record.value (into.segments ++ [other]) := by
  have above := Walk.read_above Path.lawful record.value (.string (String.ofList text))
    into.segments [name]
  rw [writeString, WritePath.write, WritePath.child, readAt_walk, readAt_walk, writeAt_walk,
    Walk.read_append, Walk.read_append, above]
  generalize Walk.read child record.value into.segments = reached
  obtain ⟨map, stores, finds⟩ := @child_named (reached.getD .null) name notPosition
  have after : child (.object (Pairs.put name (.string (String.ofList text)) map)) other =
      Pairs.find other map := Pairs.find_put_other _ differs
  rw [Option.bind_some, Walk.write, Walk.write, stores, Walk.read, after, ← finds other alsoNot]
  cases reached with
  | none => rfl
  | some inner => rfl

theorem write_name_object (text : List Char) :
    ∃ map, readAt (writeString record (into.child name, text)).value into.segments =
      some (.object map) := by
  have above := Walk.read_above Path.lawful record.value (.string (String.ofList text))
    into.segments [name]
  obtain ⟨map, stores, _⟩ := @child_named
    ((Walk.read child record.value into.segments).getD .null) name notPosition
  refine ⟨Pairs.put name (.string (String.ofList text)) map, ?_⟩
  rw [writeString, WritePath.write, WritePath.child, readAt_walk, writeAt_walk, above, Walk.write,
    Walk.write, stores]

end Names

section Entries

variable {into : WritePath} {entries : List (String × List Char)}

def WritePath.entry (into : WritePath) (entry : String × List Char) : WritePath × List Char :=
  (into.child entry.1, entry.2)

theorem read_unwritten {record : Record} (names : ∀ entry ∈ entries, Path.position entry.1 = none)
    {other : String} (notPosition : Path.position other = none)
    (absent : ∀ entry ∈ entries, other ≠ entry.1) :
    readAt (writeStrings record (entries.map into.entry)).value (into.segments ++ [other]) =
      readAt record.value (into.segments ++ [other]) := by
  induction entries generalizing record with
  | nil => rfl
  | cons entry rest ih =>
      rw [List.forall_mem_cons] at names absent
      rw [List.map_cons, writeStrings, List.foldl_cons]
      refine (ih names.2 absent.2).trans ?_
      exact read_sibling names.1 notPosition absent.1 entry.2

theorem read_written {record : Record} (names : ∀ entry ∈ entries, Path.position entry.1 = none)
    (same : ∀ entry ∈ entries, ∀ other ∈ entries, entry.1 = other.1 → entry.2 = other.2)
    {entry : String × List Char} (member : entry ∈ entries) :
    readAt (writeStrings record (entries.map into.entry)).value (into.segments ++ [entry.1]) =
      some (.string (String.ofList entry.2)) := by
  induction entries generalizing record with
  | nil => cases member
  | cons first rest ih =>
      rw [List.forall_mem_cons] at names
      rw [List.map_cons, writeStrings, List.foldl_cons]
      by_cases again : entry ∈ rest
      · refine ih names.2 ?_ again
        intro one inRest two inRest' equal
        exact same one (List.mem_cons_of_mem _ inRest) two (List.mem_cons_of_mem _ inRest') equal
      · obtain rfl := (List.mem_cons.mp member).resolve_right again
        have last : ∀ other ∈ rest, entry.1 ≠ other.1 := by
          intro other inRest equal
          have texts := same entry member other (List.mem_cons_of_mem _ inRest) equal
          exact again (Prod.ext equal texts ▸ inRest)
        refine (read_unwritten names.2 names.1 last).trans ?_
        exact holds_write record (into.entry entry)

/-- The walk of the path, as long as it goes with the other one, meets no list that lacks the
position the next segment names. -/
def Path.Spares (record : Json) (path other : List String) : Prop :=
  ∀ front segment back items, path = front ++ segment :: back → front <+: other →
    readAt record front = some (.array items) →
      ∃ i, Path.position segment = some i ∧ i < items.length

theorem Path.Spares.clear {record : Json} {path other : List String}
    (spares : Path.Spares record path other) : Walk.Clear child Path.Keeps record path other := by
  intro front segment back inner same ahead reached items isArray
  rw [isArray, ← readAt_walk] at reached
  exact spares front segment back items same ahead reached

/-- A name under an object replaces nothing on the way. -/
theorem clear_of_object {record : Json} {path : List String} {map : List (String × Json)}
    (reached : readAt record path = some (.object map)) (name : String) (other : List String) :
    Walk.Clear child Path.Keeps record (path ++ [name]) other := by
  intro front segment back inner same ahead found
  rw [readAt_walk] at reached
  rcases List.eq_nil_or_concat' back with rfl | ⟨back, last, rfl⟩
  · obtain ⟨rfl, _⟩ := List.append_inj' same rfl
    rw [found] at reached
    obtain rfl := Option.some.inj reached
    rintro items isArray
    cases isArray
  · rw [← List.cons_append, ← List.append_assoc] at same
    obtain ⟨rfl, _⟩ := List.append_inj' same rfl
    refine Walk.clear_of_read Path.lawful ?_ other front segment back inner rfl ahead found
    rw [reached, Option.isSome_some]

theorem read_apart_object {record : Record} (names : ∀ entry ∈ entries, Path.position entry.1 = none)
    {map : List (String × Json)} (reached : readAt record.value into.segments = some (.object map))
    {q : List String} (under : ∀ entry ∈ entries, ¬ into.segments ++ [entry.1] <+: q)
    (above : ∀ entry ∈ entries, ¬ q <+: into.segments ++ [entry.1]) :
    readAt (writeStrings record (entries.map into.entry)).value q = readAt record.value q := by
  induction entries generalizing record map with
  | nil => rfl
  | cons entry rest ih =>
      rw [List.forall_mem_cons] at names under above
      obtain ⟨map', reached'⟩ := @write_name_object record into _ names.1 entry.2
      rw [List.map_cons, writeStrings, List.foldl_cons]
      refine (ih names.2 reached' under.2 above.2).trans ?_
      rw [writeString, WritePath.write, readAt_walk, readAt_walk, writeAt_walk]
      exact Walk.read_other Path.lawful Path.keeps_null _ (clear_of_object reached entry.1 q)
        under.1 above.1

theorem read_apart {record : Record} (names : ∀ entry ∈ entries, Path.position entry.1 = none)
    {q : List String} (under : ∀ entry ∈ entries, ¬ into.segments ++ [entry.1] <+: q)
    (above : ∀ entry ∈ entries, ¬ q <+: into.segments ++ [entry.1])
    (spares : ∀ entry ∈ entries, Path.Spares record.value (into.segments ++ [entry.1]) q) :
    readAt (writeStrings record (entries.map into.entry)).value q = readAt record.value q := by
  cases entries with
  | nil => rfl
  | cons entry rest =>
      rw [List.forall_mem_cons] at names under above spares
      obtain ⟨map, reached⟩ := @write_name_object record into _ names.1 entry.2
      rw [List.map_cons, writeStrings, List.foldl_cons]
      refine (read_apart_object names.2 reached under.2 above.2).trans ?_
      rw [writeString, WritePath.write, readAt_walk, readAt_walk, writeAt_walk]
      exact Walk.read_other Path.lawful Path.keeps_null _ spares.1.clear under.1 above.1

end Entries

namespace Captures

theorem mem_named {caps : Captures} {name : String} {text : List Char} :
    (name, text) ∈ caps.named ↔
      ∃ i, caps.names[i]? = some (some name) ∧ caps.get i = some text := by
  rw [named, List.mem_filterMap]
  constructor
  · rintro ⟨⟨listed, i⟩, member, listed_⟩
    obtain ⟨first, rfl, rest⟩ := Option.bind_eq_some_iff.mp listed_
    obtain ⟨second, found, same⟩ := Option.bind_eq_some_iff.mp rest
    obtain ⟨rfl, rfl⟩ := Prod.mk.inj (Option.some.inj same)
    exact ⟨i, List.mem_zipIdx_iff_getElem?.mp member, found⟩
  · rintro ⟨i, isName, found⟩
    refine ⟨(some name, i), List.mem_zipIdx_iff_getElem?.mpr isName, ?_⟩
    simp [found]

def FirstTakesPart (caps : Captures) (name : String) : Prop :=
  ∃ i, caps.names[i]? = some (some name) ∧ (∀ j < i, caps.names[j]? ≠ some (some name)) ∧
    (caps.get i).isSome

theorem name_some {caps : Captures} {name : String} {text : List Char} :
    caps.name name = some text ↔
      ∃ i, caps.names[i]? = some (some name) ∧ (∀ j < i, caps.names[j]? ≠ some (some name)) ∧
        caps.get i = some text := by
  rw [Captures.name]
  constructor
  · intro found
    obtain ⟨i, first, got⟩ := Option.bind_eq_some_iff.mp found
    obtain ⟨inside, isName, before⟩ := List.findIdx?_eq_some_iff_getElem.mp first
    refine ⟨i, ?_, ?_, got⟩
    · rw [List.getElem?_eq_getElem inside, eq_of_beq isName]
    · intro j earlier also
      obtain ⟨inside', same⟩ := List.getElem?_eq_some_iff.mp also
      exact before j earlier (beq_iff_eq.mpr same)
  · rintro ⟨i, isName, before, got⟩
    obtain ⟨inside, same⟩ := List.getElem?_eq_some_iff.mp isName
    refine Option.bind_eq_some_iff.mpr ⟨i, List.findIdx?_eq_some_iff_getElem.mpr ⟨inside, ?_, ?_⟩, got⟩
    · exact beq_iff_eq.mpr same
    · intro j earlier also
      refine before j earlier ?_
      rw [List.getElem?_eq_getElem (Nat.lt_trans earlier inside), eq_of_beq also]

theorem firstTakesPart_iff {caps : Captures} {name : String} :
    caps.FirstTakesPart name ↔ ∃ text, caps.name name = some text := by
  simp only [name_some, FirstTakesPart, Option.isSome_iff_exists]
  constructor
  · rintro ⟨i, isName, before, text, got⟩
    exact ⟨text, i, isName, before, got⟩
  · rintro ⟨text, i, isName, before, got⟩
    exact ⟨i, isName, before, text, got⟩

def ReadsAt (caps : Captures) (record : Record) (into : WritePath) (name : String) : Prop :=
  ∃ text, (name, text) ∈ caps.named ∧
    readAt record.value (into.segments ++ [name]) = some (.string (String.ofList text))

end Captures

theorem captures_names {re : Regex} {haystack : List Char} {caps : Captures}
    (found : re.captures haystack = .ok (some caps)) : caps.names = re.names := by
  rw [Regex.captures, Regex.checkInput] at found
  split at found
  next => cases found
  next =>
    have searched {rest : Option Nat}
        (ran : re.capturesAt haystack 0 re.budget = .ok (some caps, rest)) : caps.names = re.names := by
      rw [Regex.capturesAt] at ran
      split at ran
      next =>
        obtain ⟨mapped, _⟩ := Prod.mk.inj (Except.ok.inj ran)
        obtain ⟨spans, _, rfl⟩ := Option.map_eq_some_iff.mp mapped
        rfl
      next capturesFrom _ _ =>
        cases answer : capturesFrom haystack 0 re.budget with
        | error error =>
            rw [answer] at ran
            cases ran
        | ok answer =>
            rw [answer] at ran
            obtain ⟨mapped, _⟩ := Prod.mk.inj (Except.ok.inj ran)
            obtain ⟨spans, _, rfl⟩ := Option.map_eq_some_iff.mp mapped
            rfl
    cases ran : re.capturesAt haystack 0 re.budget with
    | error error =>
        rw [ran] at found
        cases found
    | ok answer =>
        obtain ⟨some_, rest⟩ := answer
        rw [ran] at found
        obtain rfl := Except.ok.inj found
        exact searched ran

namespace Extract

def taken (regex : Regex) (caps : Captures) : List (String × List Char) :=
  (regex.names.filterMap id).filterMap fun name => (caps.name name).map (name, ·)

theorem extracted_taken {extract : Extract} {into : WritePath}
    (loaded : extract.targets = targetsOf extract.regex into) (caps : Captures) :
    extract.extracted caps = (taken extract.regex caps).map into.entry := by
  rw [extracted, loaded, targetsOf, taken, List.filterMap_map, List.map_filterMap]
  refine List.filterMap_congr fun name _ => ?_
  rw [Function.comp_apply, Option.map_map]
  rfl

theorem mem_taken {regex : Regex} {caps : Captures} {name : String} {text : List Char} :
    (name, text) ∈ taken regex caps ↔ some name ∈ regex.names ∧ caps.name name = some text := by
  rw [taken, List.mem_filterMap]
  constructor
  · rintro ⟨other, listed, found⟩
    obtain ⟨text', got, same⟩ := Option.map_eq_some_iff.mp found
    obtain ⟨rfl, rfl⟩ := Prod.mk.inj same
    obtain ⟨_, isName, rfl⟩ := List.mem_filterMap.mp listed
    exact ⟨isName, got⟩
  · rintro ⟨isName, got⟩
    exact ⟨name, List.mem_filterMap.mpr ⟨_, isName, rfl⟩, by rw [got, Option.map_some]⟩

/-- Every named group that took part is written when the first group of its name took part, and
reads as wanted otherwise only when the record had such a text there. The other paths read as
before. -/
theorem process_names (extract : Extract) (into : WritePath) (record : Record) (context : Context)
    {haystack : String} {caps : Captures}
    (loaded : extract.targets = targetsOf extract.regex into) (names : extract.regex.NamesGroups)
    (isText : extract.field.read record context.recordMeta = .str haystack)
    (found : extract.regex.captures haystack.toList = .ok (some caps)) :
    ∃ after, extract.process record context = .pass after ∧
      ((∀ name text, (name, text) ∈ caps.named → caps.ReadsAt after into name) ↔
        ∀ name text, (name, text) ∈ caps.named →
          caps.FirstTakesPart name ∨ caps.ReadsAt record into name) ∧
      ∀ q : List String,
        (∀ written ∈ extract.extracted caps, ¬ written.1.segments <+: q ∧
          ¬ q <+: written.1.segments ∧ Path.Spares record.value written.1.segments q) →
        readAt after.value q = readAt record.value q := by
  have positions : ∀ entry ∈ taken extract.regex caps, Path.position entry.1 = none := by
    rintro ⟨name, text⟩ member
    exact names name (mem_taken.mp member).1
  have same : ∀ entry ∈ taken extract.regex caps, ∀ other ∈ taken extract.regex caps,
      entry.1 = other.1 → entry.2 = other.2 := by
    rintro ⟨name, text⟩ member ⟨other, more⟩ member' equal
    obtain rfl : name = other := equal
    obtain ⟨_, first⟩ := mem_taken.mp member
    obtain ⟨_, second⟩ := mem_taken.mp member'
    exact Option.some.inj (first.symm.trans second)
  have listed {name : String} {text : List Char} (member : (name, text) ∈ caps.named) :
      some name ∈ extract.regex.names := by
    obtain ⟨i, isName, _⟩ := Captures.mem_named.mp member
    rw [← captures_names found]
    exact List.mem_of_getElem? isName
  have written {name : String} {text : List Char} (isName : some name ∈ extract.regex.names)
      (got : caps.name name = some text) :
      caps.ReadsAt (writeStrings record ((taken extract.regex caps).map into.entry)) into name := by
    obtain ⟨i, first, _, took⟩ := Captures.name_some.mp got
    refine ⟨text, Captures.mem_named.mpr ⟨i, first, took⟩, ?_⟩
    exact read_written positions same (mem_taken.mpr ⟨isName, got⟩)
  have unwritten {name : String} {text : List Char} (member : (name, text) ∈ caps.named)
      (got : caps.name name = none) :
      readAt (writeStrings record ((taken extract.regex caps).map into.entry)).value
          (into.segments ++ [name]) = readAt record.value (into.segments ++ [name]) := by
    apply read_unwritten positions (names name (listed member))
    rintro ⟨taken, text⟩ inTaken rfl
    obtain ⟨_, some_⟩ := mem_taken.mp inTaken
    rw [got] at some_
    cases some_
  refine ⟨writeStrings record (extract.extracted caps), ?_, ?_, ?_⟩
  · rw [process, isText]
    dsimp only
    rw [found]
  · rw [extracted_taken loaded]
    constructor
    · intro reads name text member
      cases got : caps.name name with
      | some first => exact .inl (Captures.firstTakesPart_iff.mpr ⟨first, got⟩)
      | none =>
          obtain ⟨other, also, read⟩ := reads name text member
          rw [unwritten member got] at read
          exact .inr ⟨other, also, read⟩
    · intro holds name text member
      cases got : caps.name name with
      | some first => exact written (listed member) got
      | none =>
          rcases holds name text member with first | ⟨other, also, read⟩
          · obtain ⟨text, some_⟩ := Captures.firstTakesPart_iff.mp first
            exact written (listed member) some_
          · rw [← unwritten member got] at read
            exact ⟨other, also, read⟩
  · intro q apart
    rw [extracted_taken loaded] at apart ⊢
    have each {entry : String × List Char} (member : entry ∈ taken extract.regex caps) :=
      apart (into.entry entry) (List.mem_map_of_mem member)
    refine read_apart positions (fun entry member => ?_) (fun entry member => ?_)
      (fun entry member => ?_)
    · exact (each member).1
    · exact (each member).2.1
    · exact (each member).2.2

/-- Finds the first `a` or `b`, as the pattern `(?J)(?:(?<n>a)|(?<n>b))` does: group 1 is an `a`,
group 2 a `b`. -/
def letterFrom : List Char → Nat → Nat → Option Spans
  | [], _, _ => none
  | c :: rest, at_, start =>
      let here : Span := ⟨at_, at_ + c.utf8Size⟩
      if start ≤ at_ ∧ c = 'a' then some [some here, some here, none]
      else if start ≤ at_ ∧ c = 'b' then some [some here, none, some here]
      else letterFrom rest (at_ + c.utf8Size) start

def letter : Regex where
  inner := .backtracking (fun haystack start budget => .ok (letterFrom haystack 0 start, budget)) none
  names := readNameTable (fun bytes => String.ofList (bytes.map fun byte => Char.ofNat byte.toNat)) 2
    [[0, 1, 110, 0], [0, 2, 110, 0]]
  inputBytes := 65536

def letterInto : Extract :=
  ⟨⟨.record ["msg"]⟩, letter, targetsOf letter ⟨["out"]⟩⟩

def message (text : String) : Record :=
  ⟨.object [("msg", .string text)]⟩

theorem letter_namesGroups : letter.NamesGroups := by
  intro name member
  have names : letter.names = [none, some "n", some "n"] := by decide +kernel
  rw [names] at member
  simp only [List.mem_cons, Option.some.injEq, List.not_mem_nil, or_false, or_self, reduceCtorEq,
    false_or] at member
  subst member
  decide +kernel

def letterA : Captures :=
  ⟨['a'], [some ⟨0, 1⟩, some ⟨0, 1⟩, none], letter.names⟩

def letterB : Captures :=
  ⟨['b'], [some ⟨0, 1⟩, none, some ⟨0, 1⟩], letter.names⟩

/-- On `a` the first group of the name takes part. -/
theorem process_names_letter : ∃ after,
    letterInto.process (message "a") Redact.firstContext = .pass after ∧
      letterA.ReadsAt after ⟨["out"]⟩ "n" := by
  obtain ⟨after, ran, reads, _⟩ := @process_names letterInto ⟨["out"]⟩ (message "a")
    Redact.firstContext "a" letterA rfl letter_namesGroups rfl rfl
  refine ⟨after, ran, reads.mpr ?_ "n" ['a'] (by decide +kernel)⟩
  intro name text member
  have named : letterA.named = [("n", ['a'])] := by decide +kernel
  rw [named, List.mem_singleton] at member
  obtain ⟨rfl, rfl⟩ := Prod.mk.inj member
  refine .inl ⟨1, by decide +kernel, ?_, by decide +kernel⟩
  intro j earlier
  obtain rfl : j = 0 := by omega
  decide +kernel

/-- On `b` the first group of the name takes no part, and nothing is written. -/
theorem process_names_second :
    ¬ ∀ (extract : Extract) (into : WritePath) (record after : Record) (context : Context)
      (haystack : String) (caps : Captures), extract.targets = targetsOf extract.regex into →
        extract.regex.NamesGroups → extract.field.read record context.recordMeta = .str haystack →
          extract.regex.captures haystack.toList = .ok (some caps) →
            extract.process record context = .pass after →
              ∀ name text, (name, text) ∈ caps.named → caps.ReadsAt after into name := by
  intro all
  obtain ⟨text, _, reads⟩ := all letterInto ⟨["out"]⟩ (message "b") (message "b")
    Redact.firstContext "b" letterB rfl letter_namesGroups rfl rfl rfl
    "n" ['b'] (by decide +kernel)
  cases reads

end Extract

end FusionPipeline
