import FusionPipeline.LintGuarantees
import FusionPipeline.Route

/-!
How a pattern is loaded: the guards, the engine it runs on, and the checks for slow patterns, whose
findings a policy rejects or keeps as warnings.
-/

namespace FusionPipeline.Loading

open Canary (CanaryConfig Hir InputShape Probe firstTrip literals probes)
open Fallible (bind_ok_iff map_ok_iff)
open Lint (RedosRisk Syntax lint)
open Regex (Panic checkGuards parseWithFallback)

section Load

inductive EngineChoice where
  | auto
  | linear
  | backtracking
  deriving DecidableEq, Repr

structure Limits extends Regex.Limits where
  matchLimit : UInt32
  depthLimit : UInt32
  heapLimitKib : UInt32
  workLimit : Option UInt32
  inputBytes : Nat

inductive RedosPolicy where
  | reject
  | warn
  deriving DecidableEq, Repr

structure Options where
  limits : Limits
  engine : EngineChoice
  onRedosRisk : RedosPolicy
  lint : Bool
  canary : Option CanaryConfig

structure CanaryTrip where
  inputLen : Nat
  inputShape : InputShape
  anchored : Bool
  matchLimit : UInt32
  workLimit : Option Nat
  error : MatchError
  deriving DecidableEq, Repr

inductive CompileError where
  | syntaxError (engine : Engine) (code : Option Int) (message : String) (offset : Nat)
  | guard (error : Regex.CompileError)
  | compiledTooBig (limit : Nat)
  | redosRisk (risks : List RedosRisk)
  | canaryTripped (trip : CanaryTrip)
  | outOfMemory
  | internal (code : Int) (message : String)
  deriving DecidableEq, Repr

inductive LinearError where
  | syntaxError (message : String)
  | compiledTooBig (limit : Nat)
  | other (message : String)

/-- The two engines and the parsers: what a pattern is compiled and checked with. -/
structure Engines (Linear Backtracking Leaf Class : Type) where
  linear : String → Except LinearError Linear
  linearNames : Linear → List (Option String)
  syntaxOffset : String → Option Nat
  backtracking : String → Limits → Except CompileError Backtracking
  backtrackingNames : Backtracking → Except CompileError (List (Option String))
  probe : Backtracking → Probe → Except MatchError Bool
  printed : MatchError → String
  reader : Syntax Leaf Class
  parseHir : List UInt8 → Option Hir
  isAlphanumeric : Char → Bool

inductive Inner (Linear Backtracking : Type) where
  | linear (re : Linear)
  | backtracking (re : Backtracking)

structure Loaded (Linear Backtracking : Type) where
  pattern : String
  inner : Inner Linear Backtracking
  names : List (Option String)
  inputBytes : Nat
  warnings : List RedosRisk
  canaryWarning : Option CanaryTrip

variable {Linear Backtracking Leaf Class : Type}
  (engines : Engines Linear Backtracking Leaf Class)

def linearError (pattern : String) : LinearError → CompileError
  | .syntaxError message =>
      .syntaxError .linear none message ((engines.syntaxOffset pattern).getD 0)
  | .compiledTooBig limit => .compiledTooBig limit
  | .other message => .syntaxError .linear none message 0

def compileInner (pattern : String) (options : Options) :
    Except CompileError (Inner Linear Backtracking) :=
  let backtracking := (engines.backtracking pattern options.limits).map Inner.backtracking
  match options.engine with
  | .auto =>
      match engines.linear pattern with
      | .ok re => .ok (.linear re)
      | .error _ => backtracking
  | .linear => ((engines.linear pattern).mapError (linearError engines pattern)).map Inner.linear
  | .backtracking => backtracking

/-- The findings of the lint. Where it cannot parse and nothing else looks, that is one. -/
def lintRisks (pattern : String) (options : Options) : Except Panic (List RedosRisk) :=
  if options.lint then
    (lint engines.reader pattern).map fun found =>
      match found with
      | some risks => risks
      | none => if options.canary.isNone then [.notParsed] else []
  else .ok []

/-- One input of the canary: a limit that trips is the verdict, anything else that fails an error. -/
def probeOnce (re : Backtracking) (limits : Limits) (probe : Probe) :
    Except CompileError (Option CanaryTrip) :=
  let trip := fun error : MatchError =>
    .ok (some ⟨Utf8.size probe.input, probe.shape, probe.anchored, limits.matchLimit,
      probe.workLimit, error⟩)
  match engines.probe re probe with
  | .ok _ => .ok none
  | .error .matchLimit => trip .matchLimit
  | .error .depthLimit => trip .depthLimit
  | .error .heapLimit => trip .heapLimit
  | .error .workLimit => trip .workLimit
  | .error .outOfMemory => .error .outOfMemory
  | .error (.engine code message) => .error (.internal code message)
  | .error (.inputTooLarge length limit) =>
      .error (.internal 0
        ("unexpected canary error: " ++ engines.printed (.inputTooLarge length limit)))

/-- The limits the canary compiles under: a work limit, so that work is counted at all. -/
def counted (limits : Limits) : Limits :=
  { limits with workLimit := some 0xFFFFFFFF }

def runCanary (pattern : String) (config : CanaryConfig) (limits : Limits) :
    Except Panic (Except CompileError (Option CanaryTrip)) :=
  (literals engines.reader.fromUtf8Lossy engines.isAlphanumeric engines.parseHir pattern).map
    fun known => do
      let re ← engines.backtracking pattern (counted limits)
      firstTrip (probeOnce engines re limits) (probes config limits.inputBytes known)

def canaryTrip (pattern : String) (options : Options) (inner : Inner Linear Backtracking) :
    Except Panic (Except CompileError (Option CanaryTrip)) :=
  match options.canary, inner with
  | some config, .backtracking _ => runCanary engines pattern config options.limits
  | some _, .linear _ => .ok (.ok none)
  | none, _ => .ok (.ok none)

def namesOf : Inner Linear Backtracking → Except CompileError (List (Option String))
  | .linear re => .ok (engines.linearNames re)
  | .backtracking re => engines.backtrackingNames re

def keptRisks (policy : RedosPolicy) (risks : List RedosRisk) :
    Except CompileError (List RedosRisk) :=
  match policy with
  | .reject => if risks.isEmpty then .ok risks else .error (.redosRisk risks)
  | .warn => .ok risks

def keptTrip (policy : RedosPolicy) (trip : Option CanaryTrip) :
    Except CompileError (Option CanaryTrip) :=
  match trip, policy with
  | none, _ => .ok none
  | some trip, .reject => .error (.canaryTripped trip)
  | some trip, .warn => .ok (some trip)

def withOptions (pattern : String) (options : Options) :
    Except Panic (Except CompileError (Loaded Linear Backtracking)) :=
  match checkGuards pattern options.limits.toLimits with
  | .error error => .ok (.error (.guard error))
  | .ok () =>
      match compileInner engines pattern options with
      | .error error => .ok (.error error)
      | .ok inner => do
          let risks ← lintRisks engines pattern options
          match keptRisks options.onRedosRisk risks with
          | .error error => return .error error
          | .ok warnings =>
              let ran ← canaryTrip engines pattern options inner
              return do
                let trip ← keptTrip options.onRedosRisk (← ran)
                let names ← namesOf engines inner
                return ⟨pattern, inner, names, options.limits.inputBytes, warnings, trip⟩

end Load

section Accepted

open Languages
open Lint (Ast Faithful Next PartOf Plain Unambiguous Walker isUnbounded texts)

variable {Linear Backtracking Leaf Class : Type} {engines : Engines Linear Backtracking Leaf Class}
  {pattern : String} {options : Options} {re : Loaded Linear Backtracking}

theorem keptRisks_iff {policy : RedosPolicy} {risks kept : List RedosRisk} :
    keptRisks policy risks = .ok kept ↔ kept = risks ∧ (policy = .reject → risks = []) := by
  cases policy with
  | reject =>
      cases risks with
      | nil => simp [keptRisks, eq_comm]
      | cons risk risks => simp [keptRisks]
  | warn => simp [keptRisks, eq_comm]

theorem keptTrip_iff {policy : RedosPolicy} {trip kept : Option CanaryTrip} :
    keptTrip policy trip = .ok kept ↔ kept = trip ∧ (policy = .reject → trip = none) := by
  cases trip with
  | none => simp [keptTrip, eq_comm]
  | some trip => cases policy <;> simp [keptTrip, eq_comm]

/-- A pattern loads when it passes the guards, compiles, and the policy takes what the checks find. -/
theorem withOptions_ok_iff : withOptions engines pattern options = .ok (.ok re) ↔
    checkGuards pattern options.limits.toLimits = .ok () ∧
      compileInner engines pattern options = .ok re.inner ∧
      lintRisks engines pattern options = .ok re.warnings ∧
      canaryTrip engines pattern options re.inner = .ok (.ok re.canaryWarning) ∧
      namesOf engines re.inner = .ok re.names ∧
      (options.onRedosRisk = .reject → re.warnings = [] ∧ re.canaryWarning = none) ∧
      re.pattern = pattern ∧ re.inputBytes = options.limits.inputBytes := by
  rw [withOptions]
  cases guarded : checkGuards pattern options.limits.toLimits with
  | error error => simp
  | ok _ =>
      cases compiled : compileInner engines pattern options with
      | error error => simp
      | ok inner =>
          simp only [bind_ok_iff]
          constructor
          · rintro ⟨risks, linted, went⟩
            cases kept : keptRisks options.onRedosRisk risks with
            | error error =>
                rw [kept] at went
                cases went
            | ok warnings =>
                rw [kept] at went
                obtain ⟨rfl, clean⟩ := keptRisks_iff.mp kept
                obtain ⟨ran, tripped, ended⟩ := bind_ok_iff.mp went
                obtain ⟨trip, rfl, judged⟩ := bind_ok_iff.mp (Except.ok.inj ended)
                obtain ⟨warning, keptOne, loaded⟩ := bind_ok_iff.mp judged
                obtain ⟨names, named, built⟩ := bind_ok_iff.mp loaded
                obtain rfl := Except.ok.inj built
                obtain ⟨rfl, quiet⟩ := keptTrip_iff.mp keptOne
                exact ⟨trivial, rfl, linted, tripped, named,
                  fun rejects => ⟨clean rejects, quiet rejects⟩, rfl, rfl⟩
          · rintro ⟨_, same, linted, tripped, named, clean, rfl, size⟩
            obtain rfl := Except.ok.inj same
            refine ⟨re.warnings, linted, ?_⟩
            rw [keptRisks_iff.mpr ⟨rfl, fun rejects => (clean rejects).1⟩]
            simp only [tripped, named, Fallible.ok_bind,
              keptTrip_iff.mpr ⟨rfl, fun rejects => (clean rejects).2⟩, ← size]
            rfl

theorem firstTrip_none {Failure Trip : Type} {probe : Probe → Except Failure (Option Trip)}
    {made : List Probe} :
    firstTrip probe made = .ok none ↔ ∀ input ∈ made, probe input = .ok none := by
  induction made with
  | nil => simp [firstTrip]
  | cons input made ih =>
      rw [firstTrip, bind_ok_iff, List.forall_mem_cons, ← ih]
      constructor
      · rintro ⟨trip, probed, later⟩
        cases trip with
        | none => exact ⟨probed, later⟩
        | some trip => cases later
      · rintro ⟨probed, later⟩
        exact ⟨none, probed, later⟩

theorem probeOnce_none {compiled : Backtracking} {limits : Limits} {probe : Probe} :
    probeOnce engines compiled limits probe = .ok none ↔
      ∃ found, engines.probe compiled probe = .ok found := by
  rw [probeOnce]
  split <;> simp_all

theorem runCanary_none {config : CanaryConfig} {limits : Limits} :
    runCanary engines pattern config limits = .ok (.ok none) ↔
      ∃ known compiled, literals engines.reader.fromUtf8Lossy engines.isAlphanumeric
          engines.parseHir pattern = .ok known ∧
        engines.backtracking pattern (counted limits) = .ok compiled ∧
        ∀ probe ∈ probes config limits.inputBytes known,
          ∃ found, engines.probe compiled probe = .ok found := by
  simp only [runCanary, map_ok_iff, bind_ok_iff, firstTrip_none, probeOnce_none]
  constructor
  · rintro ⟨known, read, compiled, ready, quiet⟩
    exact ⟨known, compiled, read, ready, quiet⟩
  · rintro ⟨known, compiled, read, ready, quiet⟩
    exact ⟨known, read, compiled, ready, quiet⟩

/-- What the lint stands for on a tree: bounded bodies, branches that do not overlap, neighbours
that split once. -/
structure Tame (walker : Walker Leaf Class) (accepts : Leaf → Char → Prop) (ast : Ast Leaf) : Prop where
  bounded : ∀ start kind body, PartOf (.repetition start kind body) ast → isUnbounded kind = true →
    Bounded (texts accepts body)
  unambiguous : ∀ start kind body, PartOf (.repetition start kind body) ast → isUnbounded kind = true →
    ∀ place branches, PartOf (.alternation place branches) body → Unambiguous accepts branches
  splitsOnce : ∀ start front item items next set, PartOf (.concat start (front ++ item :: items)) ast →
    (walker.singleClassUnbounded item).isSome = true → Next walker items next set →
      SplitsOnce (texts accepts item) (texts accepts next)

theorem tame_of_clean {walker : Walker Leaf Class} {accepts : Leaf → Char → Prop}
    {mem : Class → Char → Prop} (faithful : Faithful walker.classes mem) {ast : Ast Leaf}
    (reads : Lint.Reads walker accepts mem ast) (clean : walker.walk ast = []) :
    Tame walker accepts ast := by
  have silent (risk : RedosRisk) : risk ∉ walker.walk ast := by
    rw [clean]
    exact List.not_mem_nil
  refine ⟨?_, Lint.unambiguous_of_silent faithful reads fun _ => silent _, ?_⟩
  · intro start kind body below unbounded
    apply Lint.bounded_of_fixed
    rw [Bool.eq_false_iff]
    intro variable_
    exact silent _ ((Lint.nested_iff ast _).mpr ⟨start, kind, body, below, unbounded, variable_, rfl⟩)
  · intro start front item items next set below single isNext
    by_contra twice
    exact silent _ ((Lint.suffixes_iff faithful ast reads _).mpr
      ⟨start, front, item, items, next, set, below, single, isNext, twice, rfl⟩)

theorem parsed_of_notLinted {reader : Syntax Leaf Class} (linted : lint reader pattern = .ok none) :
    parseWithFallback reader.parse pattern = .ok none := by
  obtain ⟨parsed, found, nothing⟩ := map_ok_iff.mp linted
  rw [found, Option.map_eq_none_iff.mp nothing]

/-- A pattern the policy takes is within the length limit, and the lint finds nothing in it and it is
tame when it is plain, or the lint cannot read it and a canary is configured; on the backtracking engine
no input of the canary trips a limit. -/
theorem load_checked {accepts : Leaf → Char → Prop} {mem : Class → Char → Prop}
    (faithful : Faithful engines.reader.classes mem)
    (loaded : withOptions engines pattern options = .ok (.ok re))
    (rejects : options.onRedosRisk = .reject) (linted : options.lint = true) :
    (Utf8.bytes pattern).length ≤ options.limits.maxPatternLength ∧
      ((∃ ast source, parseWithFallback engines.reader.parse pattern = .ok (some (ast, source)) ∧
          lint engines.reader pattern = .ok (some []) ∧
          (Plain engines.reader accepts source ast → Tame (engines.reader.walker source) accepts ast)) ∨
        parseWithFallback engines.reader.parse pattern = .ok none ∧ options.canary.isSome = true) ∧
      ∀ config compiled, options.canary = some config → re.inner = .backtracking compiled →
        ∃ known checked, literals engines.reader.fromUtf8Lossy engines.isAlphanumeric
            engines.parseHir pattern = .ok known ∧
          engines.backtracking pattern (counted options.limits) = .ok checked ∧
          ∀ probe ∈ probes config options.limits.inputBytes known,
            ∃ found, engines.probe checked probe = .ok found := by
  obtain ⟨guarded, _, risks, tripped, _, clean, _, _⟩ := withOptions_ok_iff.mp loaded
  obtain ⟨noWarnings, noTrip⟩ := clean rejects
  refine ⟨?_, ?_, ?_⟩
  · by_contra long
    rw [Regex.checkGuards, if_pos (Nat.lt_of_not_le long)] at guarded
    cases guarded
  · rw [lintRisks, if_pos linted, noWarnings] at risks
    obtain ⟨found, ran, none_⟩ := map_ok_iff.mp risks
    cases found with
    | some found =>
        obtain rfl : found = [] := none_
        obtain ⟨ast, source, parsed, clean⟩ := Lint.lint_walk ran
        refine Or.inl ⟨ast, source, parsed, ran, ?_⟩
        intro plain
        exact tame_of_clean faithful (plain.reads faithful) clean.symm
    | none =>
        refine Or.inr ⟨parsed_of_notLinted ran, ?_⟩
        cases configured : options.canary with
        | none => simp [configured] at none_
        | some config => rfl
  · intro config compiled configured onBacktracking
    simp only [canaryTrip, configured, onBacktracking, noTrip] at tripped
    exact runCanary_none.mp tripped

def lookahead : Ast (List (Char × Char)) :=
  .concat 0 [.group 0 false (.leaf 3 [('a', 'b')]), .repetition 8 .oneOrMore (.leaf 8 [('a', 'b')])]

def quietEngines : Engines Unit Unit (List (Char × Char)) (List (Char × Char)) where
  linear _ := .error (.syntaxError "look-around is not supported")
  linearNames _ := []
  syntaxOffset _ := some 0
  backtracking _ _ := .ok ()
  backtrackingNames _ := .ok [none]
  probe _ _ := .ok false
  printed _ := ""
  reader := Lint.bracketed "(?:[ab])[ab]+" lookahead
  parseHir _ := none
  isAlphanumeric := Char.isAlphanum

def checkedOptions : Options :=
  ⟨⟨⟨8192, 250⟩, 1000000, 1000000, 20000, some 10000000, 65536⟩, .auto, .reject, true,
    some ⟨64, [1024]⟩⟩

theorem load_checked_lookahead :
    ∃ source, parseWithFallback quietEngines.reader.parse "(?=[ab])[ab]+" =
        .ok (some (lookahead, source)) ∧
      Tame (quietEngines.reader.walker source) Lint.InRanges lookahead := by
  have loaded : withOptions quietEngines "(?=[ab])[ab]+" checkedOptions =
      .ok (.ok ⟨"(?=[ab])[ab]+", .backtracking (), [none], 65536, [], none⟩) := by
    refine withOptions_ok_iff.mpr ⟨by decide, rfl, by decide, ?_, rfl, by simp, rfl, rfl⟩
    exact runCanary_none.mpr ⟨⟨['a', 'b'], ['a', 'b', 'a', 'b']⟩, (), by decide, rfl,
      fun probe _ => ⟨false, rfl⟩⟩
  have read : parseWithFallback quietEngines.reader.parse "(?=[ab])[ab]+" =
      .ok (some (lookahead, _)) := rfl
  obtain ⟨_, ⟨ast, source, parsed, _, tame⟩ | ⟨unread, _⟩, _⟩ :=
    @load_checked _ _ _ _ _ _ _ _ Lint.InRanges _ Lint.rangeClasses_faithful loaded rfl rfl
  · obtain ⟨rfl, rfl⟩ := Prod.mk.inj (Option.some.inj (Except.ok.inj (read.symm.trans parsed)))
    exact ⟨_, parsed, tame (Lint.bracketed_plain rfl _)⟩
  · rw [read] at unread
    cases unread

end Accepted

end FusionPipeline.Loading
