import FusionPipeline.RedisServer

/-! A server that keeps the documentation: it holds the values, and expires one when it is told to. -/

namespace FusionPipeline.Dragonfly

open Interleaving

namespace Reference

def name (key : Value) : String :=
  (String.fromUTF8? key).getD ""

def refused (store : Store) : Store × Reply :=
  (store, .error (.server "ERR syntax error"))

def claim (store : Store) (key : String) (value : Value) : Store × Reply :=
  (Function.update store key (some ((store key).getD value)), .ok (bulk (store key)))

def compareAndSet (store : Store) (key : String) (expected value : Value) : Store × Reply :=
  if store key = none ∨ store key = some expected then
    (Function.update store key (some value), .ok .nil)
  else (store, .ok (bulk (store key)))

def incrBy (store : Store) (key : String) (by_ : Value) : Store × Reply :=
  let held := (store key).getD (countBytes 0)
  match countOf key (some held), Text.parseI64 (name by_) with
  | .ok current, some by_ =>
      match checkedAdd current by_ with
      | some next =>
          if countBytes current = held then
            (Function.update store key (some (countBytes next)), .ok (.array [.int next, .int 1]))
          else refused store
      | none => refused store
  | _, _ => refused store

def command (store : Store) : List Value → Store × Reply
  | [verb, key] =>
      if verb = arg "GET" then (store, .ok (bulk (store (name key))))
      else if verb = arg "DEL" then
        (Function.update store (name key) none, .ok (.int (if (store (name key)).isSome then 1 else 0)))
      else refused store
  | [verb, key, value, px, _] =>
      if verb = arg "SET" ∧ px = arg "PX" then
        (Function.update store (name key) (some value), .ok (.status "OK"))
      else refused store
  | [verb, script, _, key, value, _] =>
      if verb = arg "EVAL" ∧ script = arg claimScript then claim store (name key) value
      else refused store
  | [verb, second, third, fourth, fifth, sixth, seventh] =>
      if verb = arg "SET" ∧ fourth = arg "NX" ∧ fifth = arg "PX" ∧ seventh = arg "GET" then
        claim store (name second) third
      else if verb = arg "EVAL" ∧ second = arg compareAndSetScript then
        compareAndSet store (name fourth) fifth sixth
      else refused store
  | _ => refused store

def execute (store : Store) : Request → Store × Reply
  | .command args => command store args
  | .transaction [[verb, key, by_], [expire, _, _]] =>
      if verb = arg "INCRBY" ∧ expire = arg "PEXPIRE" then incrBy store (name key) by_
      else refused store
  | .transaction _ => refused store

end Reference

def reference : Server Store Unit String where
  execute store request _ := Reference.execute store request
  drift := Store.expire

/-- A client library that reads the replies it is asked to, and no others. -/
def plainClient : Client where
  bytes
    | .nil => .ok none
    | .bulk bytes => .ok (some bytes)
    | _ => .error (.unexpected "response was not bytes")
  string
    | .status text => .ok text
    | _ => .error (.unexpected "response was not a string")
  integer
    | .int value => .ok value
    | _ => .error (.unexpected "response was not an integer")
  integers
    | .array [.int first, .int second] => .ok (first, second)
    | _ => .error (.unexpected "response was not two integers")

theorem plainClient_documented : plainClient.Documented where
  nil := rfl
  bulk _ := rfl
  status _ := rfl
  int _ := rfl
  ints _ _ := rfl

theorem name_arg (key : String) : Reference.name (arg key) = key := by
  rw [Reference.name, arg, String.toUTF8_eq_toByteArray, Text.fromUTF8_toByteArray, Option.getD_some]

theorem refused_refuses (store : Store) : Refuses id store (Reference.refused store) :=
  ⟨rfl, _, rfl⟩

theorem execute_get (store : Store) (key : String) :
    reference.execute store (.command [arg "GET", arg key]) () = (store, .ok (bulk (store key))) := by
  simp only [reference, Reference.execute, Reference.command, if_true, name_arg]

theorem execute_set (store : Store) (key : String) (value millis : Value) :
    reference.execute store (.command [arg "SET", arg key, value, arg "PX", millis]) () =
      (Function.update store key (some value), .ok (.status "OK")) := by
  simp only [reference, Reference.execute, Reference.command, true_and, if_true, name_arg]

theorem run_claim (store : Store) (key : String) (value millis : Value) :
    Script.claim.run reference (arg key) [value, millis] none store [(), ()] =
      some (Reference.claim store key value) := by
  have got := execute_get store key
  have put := execute_set store key value millis
  cases held : store key with
  | none =>
      rw [held] at got
      simp [Script.claim, Script.run, Script.command, Expr.eval, Test.eval, got, put, bulk,
        Reference.claim, held]
  | some holder =>
      have kept : Function.update store key (some holder) = store :=
        Function.update_eq_self_iff.mpr held.symm
      rw [held] at got
      simp [Script.claim, Script.run, Script.command, Expr.eval, Test.eval, got, bulk,
        Reference.claim, held, kept]

theorem run_compareAndSet (store : Store) (key : String) (expected value millis : Value) :
    Script.compareAndSet.run reference (arg key) [expected, value, millis] none store [(), ()] =
      some (Reference.compareAndSet store key expected value) := by
  have got := execute_get store key
  have put := execute_set store key value millis
  cases held : store key with
  | none =>
      rw [held] at got
      simp [Script.compareAndSet, Script.run, Script.command, Expr.eval, Test.eval, got, put, bulk,
        Reference.compareAndSet, held]
  | some holder =>
      rw [held] at got
      by_cases same : holder = expected
      · simp [Script.compareAndSet, Script.run, Script.command, Expr.eval, Test.eval, got, put, bulk,
          Reference.compareAndSet, held, same]
      · simp [Script.compareAndSet, Script.run, Script.command, Expr.eval, Test.eval, got, bulk,
          Reference.compareAndSet, held, same]

theorem scripts_differ : arg claimScript ≠ arg compareAndSetScript := by
  intro same
  have texts := congrArg Reference.name same
  rw [name_arg, name_arg] at texts
  exact absurd texts (by simp [claimScript, compareAndSetScript])

theorem eval_claim (store : Store) (key : String) (args : List Value) :
    reference.execute store
        (.command (arg "EVAL" :: arg claimScript :: arg "1" :: arg key :: args)) () =
      match args with
      | [value, _] => Reference.claim store key value
      | _ => Reference.refused store := by
  have notSet : arg "EVAL" ≠ arg "SET" := by decide
  rcases args with _ | ⟨first, _ | ⟨second, _ | ⟨third, _ | ⟨fourth, rest⟩⟩⟩⟩ <;>
    simp only [reference, Reference.execute, Reference.command, notSet, scripts_differ, false_and, and_false,
      and_self, if_true, if_false, name_arg]

theorem eval_compareAndSet (store : Store) (key : String) (args : List Value) :
    reference.execute store
        (.command (arg "EVAL" :: arg compareAndSetScript :: arg "1" :: arg key :: args)) () =
      match args with
      | [expected, value, _] => Reference.compareAndSet store key expected value
      | _ => Reference.refused store := by
  have notSet : arg "EVAL" ≠ arg "SET" := by decide
  rcases args with _ | ⟨first, _ | ⟨second, _ | ⟨third, _ | ⟨fourth, rest⟩⟩⟩⟩ <;>
    simp only [reference, Reference.execute, Reference.command, notSet, scripts_differ.symm, false_and, and_false,
      and_self, if_true, if_false, name_arg]

theorem incrBy_documented (store : Store) (key : String) (by_ : Int64) :
    let outcome := Reference.incrBy store key (arg (toString by_.toInt))
    Refuses id store outcome ∨ ∃ current next expired,
      (store key).getD (countBytes 0) = countBytes current ∧
        current.toInt + by_.toInt = next.toInt ∧
        Sets id store key (some (countBytes next)) (· = .array [.int next, .int expired]) outcome := by
  simp only [Reference.incrBy, name_arg, Text.parseI64_toString]
  cases countOf key (some ((store key).getD (countBytes 0))) with
  | error error => exact Or.inl (refused_refuses store)
  | ok current =>
      simp only
      cases sum : checkedAdd current by_ with
      | none => exact Or.inl (refused_refuses store)
      | some next =>
          simp only
          split
          next canonical =>
            refine Or.inr ⟨current, next, 1, canonical.symm, ?_, rfl, _, rfl, rfl⟩
            simp only [checkedAdd] at sum
            split at sum
            next bounds =>
              obtain rfl := Option.some.inj sum
              exact (Int64.toInt_ofInt_of_le bounds.1 bounds.2).symm
            next => cases sum
          next => exact Or.inl (refused_refuses store)

theorem reference_documented : Documented reference id where
  setNxGet store key value millis _ _ := by
    refine Or.inr ?_
    simp only [reference, Reference.execute, Reference.command, true_and, if_true, name_arg,
      Reference.claim]
    exact ⟨rfl, _, rfl, rfl⟩
  setPx store key value millis _ _ := by
    refine Or.inr ?_
    rw [execute_set]
    exact ⟨rfl, _, rfl, rfl⟩
  get store key _ := by
    refine Or.inr ?_
    rw [execute_get]
    exact ⟨(Function.update_eq_self _ _).symm, _, rfl, rfl⟩
  del store key _ := by
    refine Or.inr ?_
    have differs : arg "DEL" ≠ arg "GET" := by decide
    simp only [reference, Reference.execute, Reference.command, if_neg differs, if_true, name_arg]
    exact ⟨rfl, _, rfl, _, rfl⟩
  incrBy store key by_ millis _ _ := by
    simp only [reference, Reference.execute, true_and, if_true, name_arg]
    exact incrBy_documented store key by_
  eval store script known key args _ := by
    rcases List.mem_cons.mp known with rfl | known
    · rw [Script.claim_text, eval_claim]
      split
      next value millis => exact Or.inr ⟨[(), ()], _, run_claim store key value millis, Or.inl rfl⟩
      next => exact Or.inl (refused_refuses store)
    · obtain rfl := List.mem_singleton.mp known
      rw [Script.compareAndSet_text, eval_compareAndSet]
      split
      next expected value millis =>
        exact Or.inr ⟨[(), ()], _, run_compareAndSet store key expected value millis, Or.inl rfl⟩
      next => exact Or.inl (refused_refuses store)
  drift store key := ⟨[key], rfl⟩

end FusionPipeline.Dragonfly
