import FusionPipeline.Config
import FusionPipeline.Library.Protocol
import FusionPipeline.State

/-! Every operation of the state store, on the store as a whole, and the handle's own. -/

namespace FusionPipeline

open Interleaving

inductive StoreOp where
  | call (request : StoreCall)
  | set (key : String) (value : Value) (ttl : Duration)
  | get (key : String)
  | incr (key : String) (by_ : Int64) (ttl : Duration)
  | del (key : String)

namespace StoreOp

def key : StoreOp → String
  | call request => request.key
  | set key _ _ => key
  | get key => key
  | incr key _ _ => key
  | del key => key

abbrev Answer : StoreOp → Type
  | call _ => Option Value
  | set _ _ _ => Unit
  | get _ => Option Value
  | incr _ _ _ => Int64
  | del _ => Unit

abbrev Reply (request : StoreOp) : Type :=
  Except StateError request.Answer

end StoreOp

def countBytes (count : Int64) : Value :=
  (toString count.toInt).toUTF8

def countOf (key : String) : Option Value → Except StateError Int64
  | none => .ok 0
  | some value =>
      match (String.fromUTF8? value).bind Text.parseI64 with
      | some count => .ok count
      | none => .error ⟨"key `" ++ key ++ "` is not an integer"⟩

def checkedAdd (left right : Int64) : Option Int64 :=
  let sum := left.toInt + right.toInt
  if -2 ^ 63 ≤ sum ∧ sum < 2 ^ 63 then some (Int64.ofInt sum) else none

def StoreOp.apply (cell : Option Value) : (request : StoreOp) → Option Value × request.Reply
  | .call request => ((request.apply cell).1, .ok (request.apply cell).2)
  | .set _ value _ => (some value, .ok ())
  | .get _ => (cell, .ok cell)
  | .incr key by_ _ =>
      match countOf key cell with
      | .error error => (cell, .error error)
      | .ok current =>
          match checkedAdd current by_ with
          | none => (cell, .error ⟨"key `" ++ key ++ "` would overflow"⟩)
          | some next => (some (countBytes next), .ok next)
  | .del _ => (none, .ok ())

abbrev Store := String → Option Value

def Store.empty : Store :=
  fun _ => none

def Store.answer (store : Store) (request : StoreOp) : Ending → Store × request.Reply
  | .answers =>
      (Function.update store request.key (request.apply (store request.key)).1,
        (request.apply (store request.key)).2)
  | .failsBefore error => (store, .error error)
  | .failsAfter error =>
      (Function.update store request.key (request.apply (store request.key)).1, .error error)

theorem answer_other {key : String} {request : StoreOp} (other : key ≠ request.key) (store : Store)
    (ending : Ending) : (store.answer request ending).1 key = store key := by
  cases ending <;> simp [Store.answer, Function.update_of_ne other]

theorem answer_reads {request : StoreOp} {store others : Store}
    (same : store request.key = others request.key) (ending : Ending) :
    (store.answer request ending).2 = (others.answer request ending).2 ∧
      (store.answer request ending).1 request.key = (others.answer request ending).1 request.key := by
  cases ending <;> simp [Store.answer, same]

def onStore {Result : Type} : StoreProgram Result → Program StoreOp StoreOp.Reply Result
  | .done result => .done result
  | .call request resume => .call (.call request) fun reply => onStore (resume reply)

namespace State

/-- One operation through the handle, refused before the store for an undeclared stage. -/
def timedOp (state : State) (request : StoreOp) : Program StoreOp StoreOp.Reply request.Reply :=
  if state.declared then .call request .done
  else .done (.error
    ⟨"node `" ++ state.node ++ "` used the state store without declaring `uses_state`"⟩)

def set (state : State) (key : String) (value : Value) (ttl : Duration) :
    Program StoreOp StoreOp.Reply (Except StateError Unit) :=
  state.timedOp (.set (state.key key) value ttl)

def get (state : State) (key : String) :
    Program StoreOp StoreOp.Reply (Except StateError (Option Value)) :=
  state.timedOp (.get (state.key key))

def incr (state : State) (key : String) (by_ : Int64) (ttl : Duration) :
    Program StoreOp StoreOp.Reply (Except StateError Int64) :=
  state.timedOp (.incr (state.key key) by_ ttl)

def del (state : State) (key : String) :
    Program StoreOp StoreOp.Reply (Except StateError Unit) :=
  state.timedOp (.del (state.key key))

/-- What a stage does through the handle, the request naming the stage's own key. -/
def operate (state : State) : (request : StoreOp) → Program StoreOp StoreOp.Reply request.Reply
  | .call (.setNx key value ttl) => onStore (state.setNx key value ttl)
  | .call (.compareAndSet key expected value ttl) =>
      onStore (state.compareAndSet key expected value ttl)
  | .set key value ttl => state.set key value ttl
  | .get key => state.get key
  | .incr key by_ ttl => state.incr key by_ ttl
  | .del key => state.del key

theorem timedOp_only (state : State) (request : StoreOp) :
    (state.timedOp request).Only fun sent => sent.key = request.key := by
  rw [timedOp]
  split
  · exact ⟨rfl, fun _ => trivial⟩
  · trivial

theorem timed_only (state : State) (request : StoreCall) :
    (onStore (state.timed request)).Only fun sent => sent.key = request.key := by
  rw [timed]
  split
  · exact ⟨rfl, fun _ => trivial⟩
  · trivial

theorem operate_only (state : State) (request : StoreOp) :
    (state.operate request).Only fun sent => sent.key = state.key request.key := by
  cases request with
  | call request =>
      cases request with
      | setNx key value ttl => exact state.timed_only (.setNx (state.key key) value ttl)
      | compareAndSet key expected value ttl =>
          exact state.timed_only (.compareAndSet (state.key key) expected value ttl)
  | set key value ttl => exact state.timedOp_only (.set (state.key key) value ttl)
  | get key => exact state.timedOp_only (.get (state.key key))
  | incr key by_ ttl => exact state.timedOp_only (.incr (state.key key) by_ ttl)
  | del key => exact state.timedOp_only (.del (state.key key))

end State

section Performing

variable {Result : Type} {program : Program StoreOp StoreOp.Reply Result} {own : String}

def Store.answering (ending : Ending) (store : Store) (request : StoreOp) : Store × request.Reply :=
  store.answer request ending

theorem perform_other (only : program.Only fun sent => sent.key = own) {name : String}
    (other : name ≠ own) (ending : Ending) (store : Store) :
    (program.perform (Store.answering ending) store).2 name = store name := by
  induction program generalizing store with
  | done result => rfl
  | call request resume ih =>
      obtain ⟨rfl, later⟩ := only
      rw [Program.perform, ih _ (later _)]
      exact answer_other other store ending

theorem perform_reads (only : program.Only fun sent => sent.key = own) (ending : Ending)
    {store changed : Store} (same : changed own = store own) :
    (program.perform (Store.answering ending) changed).1 =
      (program.perform (Store.answering ending) store).1 := by
  induction program generalizing store changed with
  | done result => rfl
  | call request resume ih =>
      obtain ⟨rfl, later⟩ := only
      obtain ⟨reply, cell⟩ := answer_reads same ending
      rw [Program.perform, Program.perform, Store.answering, Store.answering, reply]
      exact ih _ (later _) cell

end Performing

end FusionPipeline
