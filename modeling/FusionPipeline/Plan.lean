import FusionPipeline.Library.KeyedPairs
import FusionPipeline.Numbers

/-! The producer's plan: every message it will send, decided before the first is sent. A double is
known by its value here, and a duration by its nanoseconds. -/

namespace FusionPipeline.Harness

open Rounding (double halfEven)

def dupLag : Nat := 500000000

/-- What `plan` adds to the dedupe window and `dupLag` before a body may come back. -/
def repeatMargin : Nat := 1000000000

/-- Record ids are `base | i`, so a plan holds fewer than this many messages. -/
def maxCount : Nat := 2 ^ 22

/-- From here on a number of seconds is too large for a duration. -/
def secondsLimit : Nat := 2 ^ 64

/-- `Duration::from_secs_f64`; there is none for a number that is too large. -/
def durationOf (seconds : ℚ) : Option Nat :=
  if seconds < secondsLimit then some (halfEven (seconds * 1000000000)) else none

structure PlanConfig where
  rate : F64
  count : Nat
  dupPercent : Nat
  seed : UInt64
  dedupeWindow : Nat

structure Planned where
  id : UInt64
  set : Nat
  line : Nat
  cycle : Nat
  /-- For a deliberate duplicate, the id of its original. -/
  dupOf : Option UInt64
  at_ : Nat
  deriving DecidableEq, Repr

inductive PlanError where
  | invalidFlag (message : String)
  | rateTooHigh (repeat_ needed : Nat)
  deriving DecidableEq, Repr

structure Due where
  slot : Nat
  original : Nat
  deriving DecidableEq, Repr

def Due.before (left right : Due) : Bool :=
  left.slot < right.slot || left.slot == right.slot && left.original < right.original

instance : LT Due := ⟨fun left right => left.before right = true⟩

instance : DecidableLT Due := fun left right => inferInstanceAs (Decidable (left.before right = true))

structure Planner (Rng : Type) where
  rng : Rng
  sentPerSet : List Nat
  originals : Nat
  due : List (Due × Planned)
  messages : List Planned

section Slots

variable {Rng : Type} (next : Rng → UInt64 × Rng)

def unitOf (word : UInt64) : ℚ :=
  (word >>> 11).toNat / 2 ^ 53

def draw (half : Nat) (dupChance : ℚ) (waiting : Nat) (rng : Rng) : Option Nat × Rng :=
  if 0 < half ∧ waiting < half then
    let (chance, rng) := next rng
    if unitOf chance < dupChance then
      let (distance, rng) := next rng
      (some (1 + distance.toNat % half), rng)
    else (none, rng)
  else (none, rng)

def sendOriginal (lens : List Nat) (half : Nat) (dupChance : ℚ) (id : UInt64) (at_ i : Nat)
    (state : Planner Rng) : Planner Rng :=
  let set := state.originals % lens.length
  let len := lens.getD set 0
  let sent := state.sentPerSet.getD set 0
  let original : Planned := ⟨id, set, sent % len, sent / len, none, at_⟩
  let (after, rng) := draw next half dupChance state.due.length state.rng
  { rng
    sentPerSet := state.sentPerSet.set set (sent + 1)
    originals := state.originals + 1
    due :=
      match after with
      | some after => Pairs.put ⟨i + after, i⟩ original state.due
      | none => state.due
    messages := state.messages ++ [original] }

def slot (rate : ℚ) (lens : List Nat) (half : Nat) (dupChance : ℚ) (base : UInt64)
    (state : Planner Rng) (i : Nat) : Except (Fault PlanError) (Planner Rng) :=
  let id := base ||| UInt64.ofNat i
  match durationOf (double (i / rate)) with
  | none => .error .panic
  | some at_ =>
      match state.due with
      | [] => .ok (sendOriginal next lens half dupChance id at_ i state)
      | (key, original) :: rest =>
          if key.slot ≤ i then
            .ok { state with
              due := rest
              messages := state.messages ++ [{ original with id, dupOf := some original.id, at_ }] }
          else .ok (sendOriginal next lens half dupChance id at_ i state)

def invalid {Value : Type} (message : String) : Except (Fault PlanError) Value :=
  .error (.error (.invalidFlag message))

/-- How many slots behind its original a duplicate may be due, and how many may wait. -/
def halfLag (rate : ℚ) : Nat :=
  min (double (1 / 2 * rate)).floor.toNat (2 ^ 64 - 1) / 2

def repeatAfter (rate share : ℚ) (shortest sets : Nat) : Option Nat :=
  let originalsPerSecond := double (rate * double (1 - share))
  if originalsPerSecond = 0 then none
  else durationOf (double (double (double shortest * double sets) / originalsPerSecond))

/-- The plan over sets with so many lines each, with record ids `base | i`, by any generator. -/
def planWith (config : PlanConfig) (lens : List Nat) (base : UInt64) (rng : Rng) :
    Except (Fault PlanError) (List Planned) :=
  if !(config.rate.isFinite && 0 < config.rate.rank) then invalid "--rate must be a positive number"
  else if 50 < config.dupPercent then invalid "--dup-percent must be from 0 to 50"
  else if maxCount ≤ config.count then invalid ("--count must be below " ++ toString maxCount)
  else
    match lens.min? with
    | none => invalid "--datasets names no set"
    | some shortest =>
        if shortest = 0 then invalid "a set has no lines"
        else
          let rate := config.rate.absolute
          let share := double (config.dupPercent / 100)
          let needed := config.dedupeWindow + dupLag + repeatMargin
          match repeatAfter rate share shortest lens.length with
          | none => .error .panic
          | some repeat_ =>
              if secondsLimit * 1000000000 ≤ needed then .error .panic
              else if repeat_ < needed then .error (.error (.rateTooHigh repeat_ needed))
              else
                -- A duplicate is due at most `half` slots after its original and waits behind
                -- fewer than `half` others.
                let half := halfLag rate
                if 0 < share ∧ half = 0 then
                  invalid "--rate is too low to send a duplicate within 500ms; use at least 4"
                else
                  ((List.range config.count).foldlM
                    (slot next rate lens half (double (share / double (1 - share))) base)
                    ⟨rng, List.replicate lens.length 0, 0, [], []⟩).map Planner.messages

end Slots

def splitMix64 (state : UInt64) : UInt64 × UInt64 :=
  let state := state + 0x9e3779b97f4a7c15
  let z := (state ^^^ (state >>> 30)) * 0xbf58476d1ce4e5b9
  let z := (z ^^^ (z >>> 27)) * 0x94d049bb133111eb
  (z ^^^ (z >>> 31), state)

def plan (config : PlanConfig) (lens : List Nat) (base : UInt64) :
    Except (Fault PlanError) (List Planned) :=
  planWith splitMix64 config lens base config.seed

end FusionPipeline.Harness
