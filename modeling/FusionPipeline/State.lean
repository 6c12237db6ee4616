import FusionPipeline.Library.Interleaving
import FusionPipeline.Library.Text

/-! The state store contract: its calls, what each does to one key in one atomic step,
and the handle through which a stage makes them. -/

namespace FusionPipeline

open Interleaving

structure StateError where
  message : String
  deriving DecidableEq, Repr

def StateError.text (error : StateError) : String :=
  "state store: " ++ error.message

inductive StateErrorPolicy where
  | pass
  | nak
  deriving DecidableEq, Repr

abbrev Value := ByteArray

instance (priority := 2000) decidableEqValue : DecidableEq Value :=
  ByteArray.instDecidableEq

structure Duration where
  nanos : Nat
  deriving DecidableEq, Repr

inductive StoreCall where
  | setNx (key : String) (value : Value) (ttl : Duration)
  | compareAndSet (key : String) (expected value : Value) (ttl : Duration)

/-- Nothing when the call wrote, the value already there when it did not. -/
abbrev StoreCall.Reply (_ : StoreCall) : Type :=
  Except StateError (Option Value)

def StoreCall.key : StoreCall → String
  | setNx key _ _ => key
  | compareAndSet key _ _ _ => key

def StoreCall.value : StoreCall → Value
  | setNx _ value _ => value
  | compareAndSet _ _ value _ => value

/-- Whether a call writes to a key that holds `cell`: a claim when it holds nothing, a
takeover also when it holds the expected value. -/
def StoreCall.writes (cell : Option Value) : StoreCall → Bool
  | setNx _ _ _ => cell.isNone
  | compareAndSet _ expected _ _ => decide (cell = none ∨ cell = some expected)

@[simp] theorem writes_none (request : StoreCall) : request.writes none = true := by
  cases request <;> simp [StoreCall.writes]

def StoreCall.apply (cell : Option Value) (request : StoreCall) : Option Value × Option Value :=
  if request.writes cell then (some request.value, none) else (cell, cell)

/-- How a call ends: the store may fail it before or after it took effect. -/
inductive Ending where
  | answers
  | failsBefore (error : StateError)
  | failsAfter (error : StateError)
  deriving DecidableEq

def Ending.reaches : Ending → Bool
  | failsBefore _ => false
  | _ => true

def StoreCall.answer (cell : Option Value) (request : StoreCall) :
    Ending → Option Value × request.Reply
  | .answers => ((request.apply cell).1, .ok (request.apply cell).2)
  | .failsBefore error => (cell, .error error)
  | .failsAfter error => ((request.apply cell).1, .error error)

@[simp] theorem answer_after (cell : Option Value) (request : StoreCall) (ending : Ending) :
    (request.answer cell ending).1 =
      if ending.reaches ∧ request.writes cell then some request.value else cell := by
  cases ending <;> by_cases writes : request.writes cell <;>
    simp [StoreCall.answer, Ending.reaches, StoreCall.apply, writes]

theorem answer_none {cell : Option Value} {request : StoreCall} {ending : Ending}
    (claimed : (request.answer cell ending).2 = .ok none) :
    ending = .answers ∧ request.writes cell = true := by
  cases ending with
  | answers =>
      simp only [StoreCall.answer, StoreCall.apply, Except.ok.injEq] at claimed
      split at claimed
      next writes => exact ⟨rfl, writes⟩
      next notWrites =>
        simp only at claimed
        subst claimed
        exact absurd (writes_none request) notWrites
  | failsBefore error => simp [StoreCall.answer] at claimed
  | failsAfter error => simp [StoreCall.answer] at claimed

theorem answer_some {cell : Option Value} {request : StoreCall} {ending : Ending} {current : Value}
    (refused : (request.answer cell ending).2 = .ok (some current)) :
    cell = some current ∧ request.writes cell = false := by
  cases ending with
  | answers =>
      simp only [StoreCall.answer, StoreCall.apply, Except.ok.injEq] at refused
      split at refused
      next => simp at refused
      next notWrites => exact ⟨refused, by simpa using notWrites⟩
  | failsBefore error => simp [StoreCall.answer] at refused
  | failsAfter error => simp [StoreCall.answer] at refused

def escapeSegment (segment : String) : String :=
  String.ofList (segment.toList.flatMap fun char =>
    if char = ':' then "%3A".toList else if char = '%' then "%25".toList else [char])

/-- A stage's handle on the store for one record. `declared` is whether its stage said it
uses state. -/
structure State where
  keyPrefix : String
  node : String
  declared : Bool
  deriving DecidableEq, Repr

def State.new (pipeline tenant node : String) (declared : Bool) : State where
  keyPrefix := pipeline ++ ":" ++ escapeSegment tenant ++ ":" ++ node ++ ":"
  node
  declared

def State.key (state : State) (key : String) : String :=
  state.keyPrefix ++ key

abbrev StoreProgram := Program StoreCall StoreCall.Reply

/-- One call through the handle, refused before the store for an undeclared stage. -/
def State.timed (state : State) (request : StoreCall) :
    StoreProgram (Except StateError (Option Value)) :=
  if state.declared then .call request .done
  else .done (.error
    ⟨"node `" ++ state.node ++ "` used the state store without declaring `uses_state`"⟩)

def State.setNx (state : State) (key : String) (value : Value) (ttl : Duration) :
    StoreProgram (Except StateError (Option Value)) :=
  state.timed (.setNx (state.key key) value ttl)

def State.compareAndSet (state : State) (key : String) (expected value : Value) (ttl : Duration) :
    StoreProgram (Except StateError (Option Value)) :=
  state.timed (.compareAndSet (state.key key) expected value ttl)

end FusionPipeline
