import Mathlib.Data.Finset.Insert
import FusionPipeline.Library.Tally
import FusionPipeline.Library.Text
import FusionPipeline.Numbers
import FusionPipeline.Stage

/-! The verifier's verdict: what the producer expects of its messages, against what the sinks wrote
and what the dead-letter stream holds after a run. -/

namespace FusionPipeline

/-- Equality of JSON numbers: floats as numbers, so that both zeros are the same. -/
def Number.same : Number → Number → Bool
  | .posInt left, .posInt right => left == right
  | .negInt left _, .negInt right _ => left == right
  | .float left _, .float right _ => left.partialCmp right == some .eq
  | _, _ => false

mutual

def Json.same : Json → Json → Bool
  | .null, .null => true
  | .bool left, .bool right => left == right
  | .number left, .number right => left.same right
  | .string left, .string right => left == right
  | .array left, .array right => Json.sameItems left right
  | .object left, .object right => Json.sameFields left right
  | _, _ => false

def Json.sameItems : List Json → List Json → Bool
  | [], [] => true
  | left :: lefts, right :: rights => left.same right && Json.sameItems lefts rights
  | _, _ => false

def Json.sameFields : List (String × Json) → List (String × Json) → Bool
  | [], [] => true
  | (key, left) :: lefts, (other, right) :: rights =>
      key == other && left.same right && Json.sameFields lefts rights
  | _, _ => false

end

def Json.asStr : Json → Option String
  | .string text => some text
  | _ => none

def Json.asU64 : Json → Option UInt64
  | .number n => n.asU64
  | _ => none

namespace Harness

def mainSubject : String := "processed.loghub.main"

structure LogSet where
  name : String
  columns : List String

def logSets : List LogSet := [
  ⟨"Linux", ["Month", "Date", "Time", "Level", "Component", "PID", "Content"]⟩,
  ⟨"OpenSSH", ["Date", "Day", "Time", "Component", "Pid", "Content"]⟩,
  ⟨"Apache", ["Time", "Level", "Content"]⟩,
  ⟨"Mac", ["Month", "Date", "Time", "User", "Component", "PID", "Address", "Content"]⟩]

/-- A pandas float `N.0` is the integer `N`, and `Content` loses its trailing whitespace. -/
def normalise (column cell : String) : String :=
  let trimmed :=
    if column = "Content" then (cell.toList.reverse.dropWhile isWhitespace).reverse else cell.toList
  match trimmed.reverse with
  | '0' :: '.' :: digits =>
      if !digits.isEmpty && digits.all Char.isDigit then String.ofList digits.reverse
      else String.ofList trimmed
  | _ => String.ofList trimmed

abbrev Attributes := List (String × Json)

/-- What an `edit` node writes into a record's attributes: fixed values, and copies by target. -/
structure Edits where
  set : List (String × String)
  copied : List (String × String)
  deriving DecidableEq, Repr

/-- Each attribute set has its value, each copied one equals its source, both absent together. -/
def Edits.writtenIn (edits : Edits) (attributes : Attributes) : Bool :=
  (edits.set.all fun (name, value) =>
    (Pairs.find name attributes).bind Json.asStr == some value) &&
  edits.copied.all fun (target, source) =>
    match Pairs.find target attributes, Pairs.find source attributes with
    | none, none => true
    | some copy, some original => copy.same original
    | _, _ => false

structure LuaWrites where
  lengths : List (String × String)
  deriving DecidableEq, Repr

/-- Each length is an integer equal to that of its string source, both absent together. -/
def LuaWrites.writtenIn (writes : LuaWrites) (attributes : Attributes) : Bool :=
  writes.lengths.all fun (target, source) =>
    let expected := ((Pairs.find source attributes).bind Json.asStr).map fun text =>
      UInt64.ofNat text.utf8ByteSize
    (Pairs.find target attributes).map Json.asU64 == expected.map some

/-- The ids the producer sent for one line in one cycle. -/
structure Group where
  set : String
  lineId : UInt64
  cycle : UInt64
  deriving DecidableEq, Repr

def Group.before (left right : Group) : Bool :=
  left.set < right.set ||
    left.set == right.set && (left.lineId < right.lineId ||
      left.lineId == right.lineId && left.cycle < right.cycle)

instance : LT Group := ⟨fun left right => left.before right = true⟩

instance : DecidableLT Group := fun left right => inferInstanceAs (Decidable (left.before right = true))

structure Expectation where
  id : UInt64
  set : String
  tenant : String
  lineId : UInt64
  cycle : UInt64
  subjects : List String
  drop : Option DropReason
  attributes : List (String × String)
  edits : Edits
  lua : LuaWrites
  deriving DecidableEq, Repr

def Expectation.describe (e : Expectation) : String :=
  "id " ++ toString e.id.toNat ++ " (" ++ e.set ++ " LineId " ++ toString e.lineId.toNat ++ ")"

def Expectation.dedupeSubject (e : Expectation) : Option String :=
  e.subjects.head?

def Expectation.group (e : Expectation) : Group :=
  ⟨e.set, e.lineId, e.cycle⟩

structure Written where
  subject : String
  recordId : Option String
  tenant : Option String
  attributes : Attributes

structure DeadLetter where
  recordId : Option String

inductive Finding where
  | missing
  | unexpected
  | deadLettered
  | editMismatch
  | luaMismatch
  deriving DecidableEq, Repr

def shown : Nat := 20

structure SetReport where
  checked : Nat
  mismatched : Nat
  mismatchedLines : Finset UInt64

/-- The counts of a report that no record's attributes have a part in. -/
structure Totals where
  published : Nat
  received : Nat
  expected : Nat
  missing : Nat
  unexpected : Nat
  extraCopies : Nat
  deadLettered : Nat
  duplicatesPlanned : Nat
  duplicatesDropped : Nat
  sampledOut : Nat
  repeatedOnEverySubject : Nat
  deriving DecidableEq, Repr

def Totals.zero : Totals :=
  ⟨0, 0, 0, 0, 0, 0, 0, 0, 0, 0, 0⟩

structure Report extends Totals where
  editMismatch : Nat
  luaMismatch : Nat
  sets : List (String × SetReport)
  examples : Finding → List String

def Report.empty : Report :=
  { Totals.zero with editMismatch := 0, luaMismatch := 0, sets := [], examples := fun _ => [] }

def Report.example_ (report : Report) (finding : Finding) (text : String) : Report :=
  { report with
    examples := fun other =>
      if other = finding ∧ (report.examples other).length < shown then report.examples other ++ [text]
      else report.examples other }

def Report.modifySet (report : Report) (name : String) (change : SetReport → SetReport) : Report :=
  { report with
    sets := Pairs.put name (change ((Pairs.find name report.sets).getD ⟨0, 0, ∅⟩)) report.sets }

def parseId (text : Option String) : Option UInt64 :=
  (text.filter fun t => !t.isEmpty && t.toList.all Char.isDigit).bind Text.parseU64

structure Rendering where
  debug : Option String → String
  json : Json → String

section Judge

variable (rendering : Rendering)

/-- The attributes hold the CSV's value, or nothing, for each of the set's columns. -/
def extractionMatches (e : Expectation) (attributes : Attributes) : Bool :=
  let columns := ((logSets.find? fun set => set.name == e.set).map LogSet.columns).getD []
  columns.all fun column =>
    let got := (Pairs.find column attributes).map fun value =>
      match value with
      | .string text => normalise column text
      | other => normalise column (rendering.json other)
    got == Pairs.find column e.attributes

structure Pass where
  report : Report
  copies : List ((UInt64 × String) × Nat)
  /-- Copies per group and subject, every copy counted. -/
  copiesPerGroup : List ((Group × String) × Nat)
  reached : List ((Group × String) × Nat)
  compared : List Group

def Report.compare (report : Report) (e : Expectation) (attributes : Attributes) : Report :=
  let extracted := extractionMatches rendering e attributes
  let report := report.modifySet e.set fun set =>
    if extracted then { set with checked := set.checked + 1 }
    else ⟨set.checked + 1, set.mismatched + 1, insert e.lineId set.mismatchedLines⟩
  let report :=
    if e.edits.writtenIn attributes then report
    else { report with editMismatch := report.editMismatch + 1 }.example_ .editMismatch e.describe
  if e.lua.writtenIn attributes then report
  else { report with luaMismatch := report.luaMismatch + 1 }.example_ .luaMismatch e.describe

def Pass.addUnexpected (pass : Pass) (text : String) : Pass :=
  { pass with
    report := { pass.report with unexpected := pass.report.unexpected + 1 }.example_ .unexpected text }

def Pass.addExtra (pass : Pass) : Pass :=
  { pass with report := { pass.report with extraCopies := pass.report.extraCopies + 1 } }

def Pass.compareOnce (pass : Pass) (e : Expectation) (w : Written) : Pass :=
  if w.subject = mainSubject ∧ e.group ∉ pass.compared then
    { pass with
      compared := e.group :: pass.compared
      report := pass.report.compare rendering e w.attributes }
  else pass

def Pass.reach (pass : Pass) (e : Expectation) (w : Written) : Pass :=
  let pass := { pass with reached := Tally.bump (e.group, w.subject) pass.reached }
  let pass :=
    if 1 < (Pairs.find (e.group, w.subject) pass.reached).getD 0 then pass.addExtra else pass
  pass.compareOnce rendering e w

def Pass.arrive (pass : Pass) (e : Expectation) (w : Written) : Pass :=
  let pass := { pass with
    copiesPerGroup := Tally.bump (e.group, w.subject) pass.copiesPerGroup
    copies := Tally.bump (e.id, w.subject) pass.copies }
  if 1 < (Pairs.find (e.id, w.subject) pass.copies).getD 0 then pass.addExtra
  else pass.reach rendering e w

def Pass.observe (byId : UInt64 → Option Expectation) (pass : Pass) (w : Written) : Pass :=
  match (parseId w.recordId).bind byId with
  | none =>
      pass.addUnexpected
        (rendering.debug w.recordId ++ " on " ++ w.subject ++ ": no published record id")
  | some e =>
      if !e.subjects.contains w.subject || w.tenant != some e.tenant then
        pass.addUnexpected
          (e.describe ++ " on " ++ w.subject ++ " under tenant " ++ rendering.debug w.tenant)
      else pass.arrive rendering e w

/-- A group's first expectation, how many ids it has, and how many were planned drops. -/
structure Members where
  first : Expectation
  size : Nat
  planned : Nat

def addMember (groups : List (Group × Members)) (e : Expectation) : List (Group × Members) :=
  let members := (Pairs.find e.group groups).getD ⟨e, 0, 0⟩
  Pairs.put e.group
    ⟨members.first, members.size + 1, if e.drop.isSome then members.planned + 1 else members.planned⟩
    groups

def Report.missed (e : Expectation) (report : Report) (subject : String) : Report :=
  { report with missing := report.missing + 1 }.example_ .missing
    (e.set ++ " LineId " ++ toString e.lineId.toNat ++ " cycle " ++ toString e.cycle.toNat ++
      " never reached " ++ subject)

def Pass.judgeGroup (pass : Pass) (report : Report) (entry : Group × Members) : Report :=
  let (group, ⟨e, size, planned⟩) := entry
  let report := { report with expected := report.expected + e.subjects.length }
  let report := e.subjects.foldl
    (fun report subject =>
      if (Pairs.find (group, subject) pass.reached).isSome then report else report.missed e subject)
    report
  let report :=
    if e.subjects.contains mainSubject then report
    else { report with sampledOut := report.sampledOut + 1 }
  let report :=
    if 1 < e.subjects.length ∧
        e.subjects.all fun subject => (Pairs.find (group, subject) pass.copiesPerGroup).any (1 < ·) then
      { report with repeatedOnEverySubject := report.repeatedOnEverySubject + 1 }
    else report
  match e.dedupeSubject with
  | none => report
  | some first =>
      -- One copy is meant to arrive; every other copy that did not arrive is a drop.
      let reachedFirst := max ((Pairs.find (group, first) pass.reached).getD 0) 1
      { report with
        duplicatesPlanned := report.duplicatesPlanned + planned
        duplicatesDropped := report.duplicatesDropped + min (size - reachedFirst) planned }

def Report.judgeLetter (byId : UInt64 → Option Expectation) (report : Report)
    (letter : DeadLetter) : Report :=
  match (parseId letter.recordId).bind byId with
  | some e =>
      { report with deadLettered := report.deadLettered + 1 }.example_ .deadLettered e.describe
  | none =>
      { report with unexpected := report.unexpected + 1 }.example_ .unexpected
        ("dead letter " ++ rendering.debug letter.recordId ++ ": no published record id")

def byId (expectations : List Expectation) (id : UInt64) : Option Expectation :=
  expectations.reverse.find? fun e => e.id == id

def judgeWhere (expectations : List Expectation) (written : List Written) (dead : List DeadLetter)
    (counted : Option String → Bool) : Report :=
  let start : Report := expectations.foldl (fun report e => report.modifySet e.set id)
    { Report.empty with published := expectations.length }
  let pass := (written.filter fun w => counted w.recordId).foldl
    (Pass.observe rendering (byId expectations)) ⟨start, [], [], [], []⟩
  let report := { pass.report with received := pass.copies.length }
  let report := (expectations.foldl addMember []).foldl pass.judgeGroup report
  (dead.filter fun letter => counted letter.recordId).foldl
    (Report.judgeLetter rendering (byId expectations)) report

def judge (expectations : List Expectation) (written : List Written) (dead : List DeadLetter) :
    Report :=
  judgeWhere rendering expectations written dead fun _ => true

end Judge

end Harness

end FusionPipeline
