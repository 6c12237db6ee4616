import FusionPipeline.Library.SortedMap
import FusionPipeline.StoreContract
import Mathlib.Data.String.Basic

/-! The state store of the tests: one map behind a lock, on a clock that only the test moves. -/

namespace FusionPipeline.Memory

open Interleaving

structure Entry where
  value : Value
  expiresAt : Duration

structure StateData where
  entries : SortedMap String Entry
  now : Duration
  failing : Bool

def injectedStateFailure : String :=
  "memory state store is set to fail"

namespace StateData

def new : StateData where
  entries := .empty
  now := ⟨0⟩
  failing := false

/-- The entry of a key, which is removed instead when its time is over. -/
def live (data : StateData) (key : String) : StateData × Option Entry :=
  let data :=
    if (data.entries.get key).any fun entry => decide (entry.expiresAt.nanos ≤ data.now.nanos) then
      { data with entries := data.entries.remove key }
    else data
  (data, data.entries.get key)

def write (data : StateData) (key : String) (value : Value) (ttl : Duration) : StateData :=
  let expiresAt : Duration := ⟨data.now.nanos + ttl.nanos⟩
  { data with entries := data.entries.insert key ⟨value, expiresAt⟩ }

def check (data : StateData) : Except StateError Unit :=
  if data.failing then .error ⟨injectedStateFailure⟩ else .ok ()

def advance (data : StateData) (by_ : Duration) : StateData :=
  { data with now := ⟨data.now.nanos + by_.nanos⟩ }

def failAll (data : StateData) (failing : Bool) : StateData :=
  { data with failing }

def keys (data : StateData) : StateData × List String :=
  let data :=
    { data with entries :=
        data.entries.retain fun entry => decide (data.now.nanos < entry.expiresAt.nanos) }
  (data, data.entries.keys)

def setNx (data : StateData) (key : String) (value : Value) (ttl : Duration) :
    StateData × Except StateError (Option Value) :=
  match data.check with
  | .error error => (data, .error error)
  | .ok () =>
      match data.live key with
      | (data, some existing) => (data, .ok (some existing.value))
      | (data, none) => (data.write key value ttl, .ok none)

def set (data : StateData) (key : String) (value : Value) (ttl : Duration) :
    StateData × Except StateError Unit :=
  match data.check with
  | .error error => (data, .error error)
  | .ok () => (data.write key value ttl, .ok ())

def compareAndSet (data : StateData) (key : String) (expected value : Value) (ttl : Duration) :
    StateData × Except StateError (Option Value) :=
  match data.check with
  | .error error => (data, .error error)
  | .ok () =>
      match data.live key with
      | (data, some current) =>
          if current.value ≠ expected then (data, .ok (some current.value))
          else (data.write key value ttl, .ok none)
      | (data, none) => (data.write key value ttl, .ok none)

def get (data : StateData) (key : String) : StateData × Except StateError (Option Value) :=
  match data.check with
  | .error error => (data, .error error)
  | .ok () =>
      let (data, entry) := data.live key
      (data, .ok (entry.map Entry.value))

def incr (data : StateData) (key : String) (by_ : Int64) (ttl : Duration) :
    StateData × Except StateError Int64 :=
  match data.check with
  | .error error => (data, .error error)
  | .ok () =>
      let (data, entry) := data.live key
      match countOf key (entry.map Entry.value) with
      | .error error => (data, .error error)
      | .ok current =>
          match checkedAdd current by_ with
          | none => (data, .error ⟨"key `" ++ key ++ "` would overflow"⟩)
          | some next => (data.write key (countBytes next) ttl, .ok next)

def del (data : StateData) (key : String) : StateData × Except StateError Unit :=
  match data.check with
  | .error error => (data, .error error)
  | .ok () => ({ data with entries := data.entries.remove key }, .ok ())

def answer (data : StateData) : (request : StoreOp) → StateData × request.Reply
  | .call (.setNx key value ttl) => data.setNx key value ttl
  | .call (.compareAndSet key expected value ttl) => data.compareAndSet key expected value ttl
  | .set key value ttl => data.set key value ttl
  | .get key => data.get key
  | .incr key by_ ttl => data.incr key by_ ttl
  | .del key => data.del key

def alive (now : Duration) (entry : Entry) : Bool :=
  decide (now.nanos < entry.expiresAt.nanos)

def lasting (data : StateData) (key : String) : Option Entry :=
  (data.entries.get key).filter (alive data.now)

def view (data : StateData) : Store :=
  fun key => (data.lasting key).map Entry.value

def fresh (now : Duration) (value : Value) (ttl : Duration) : Option Entry :=
  (some ⟨value, ⟨now.nanos + ttl.nanos⟩⟩).filter (alive now)

def timed (now : Duration) (cell : Option Entry) : StoreOp → Option Entry
  | .call request =>
      if request.writes (cell.map Entry.value) then fresh now request.value request.ttl else cell
  | .set _ value ttl => fresh now value ttl
  | .get _ => cell
  | .incr key by_ ttl =>
      match ((StoreOp.incr key by_ ttl).apply (cell.map Entry.value)).2 with
      | .error _ => cell
      | .ok next => fresh now (countBytes next) ttl
  | .del _ => none

variable {data : StateData} {key other : String} {value : Value} {ttl : Duration}

theorem live_cases (data : StateData) (key : String) :
    ∃ after, data.live key = (after, data.lasting key) ∧ after.lasting = data.lasting ∧
      after.now = data.now ∧ after.failing = data.failing := by
  cases held : data.entries.get key with
  | none =>
      refine ⟨data, ?_, rfl, rfl, rfl⟩
      simp [live, lasting, held]
  | some entry =>
      by_cases lapsed : entry.expiresAt.nanos ≤ data.now.nanos
      · refine ⟨{ data with entries := data.entries.remove key }, ?_, ?_, rfl, rfl⟩
        · simp [live, lasting, held, lapsed, SortedMap.get_remove, Option.filter_some, alive]
        · funext other
          simp only [lasting, SortedMap.get_remove]
          split
          next same => simp [same, held, Option.filter_some, alive, lapsed]
          next => rfl
      · refine ⟨data, ?_, rfl, rfl, rfl⟩
        simp [live, lasting, held, lapsed, Option.filter_some, alive, Nat.lt_of_not_le lapsed]

theorem write_lasting (data : StateData) (key : String) (value : Value) (ttl : Duration) :
    (data.write key value ttl).lasting = Function.update data.lasting key (fresh data.now value ttl) := by
  funext other
  simp only [write, lasting, SortedMap.get_insert]
  by_cases same : other = key
  · simp [same, fresh]
  · simp [same, lasting]

/-- What one operation of a working store does, in one statement for all of them. -/
structure Answers (data : StateData) (request : StoreOp)
    (answered : StateData × request.Reply) : Prop where
  reply : answered.2 = (request.apply (data.view request.key)).2
  lasting : answered.1.lasting =
    Function.update data.lasting request.key (timed data.now (data.lasting request.key) request)
  now : answered.1.now = data.now
  failing : answered.1.failing = data.failing

theorem Answers.looked {request : StoreOp} {after : StateData} {reply : request.Reply}
    (answers : reply = (request.apply (data.view request.key)).2)
    (stays : timed data.now (data.lasting request.key) request = data.lasting request.key)
    (same : after.lasting = data.lasting) (now : after.now = data.now)
    (failing : after.failing = data.failing) : Answers data request (after, reply) where
  reply := answers
  lasting := by rw [stays, Function.update_eq_self, same]
  now
  failing

theorem Answers.wrote {request : StoreOp} {after : StateData} {reply : request.Reply}
    {value : Value} {ttl : Duration} (answers : reply = (request.apply (data.view request.key)).2)
    (writes : timed data.now (data.lasting request.key) request = fresh data.now value ttl)
    (same : after.lasting = data.lasting) (now : after.now = data.now)
    (failing : after.failing = data.failing) :
    Answers data request (after.write request.key value ttl, reply) where
  reply := answers
  lasting := by rw [write_lasting, writes, same, now]
  now
  failing

theorem setNx_spec (working : data.failing = false) (key : String) (value : Value) (ttl : Duration) :
    Answers data (.call (.setNx key value ttl)) (data.setNx key value ttl) := by
  obtain ⟨after, found, same, now, failing⟩ := data.live_cases key
  simp only [setNx, check, working, Bool.false_eq_true, if_false, found]
  cases held : data.lasting key with
  | none =>
      refine Answers.wrote ?_ ?_ same now failing
      · simp [StoreOp.apply, StoreOp.key, StoreCall.key, StoreCall.apply, view, held]
      · simp [timed, StoreOp.key, StoreCall.key, held, StoreCall.value, StoreCall.ttl]
  | some existing =>
      refine Answers.looked ?_ ?_ same now failing
      · simp [StoreOp.apply, StoreOp.key, StoreCall.key, StoreCall.apply, StoreCall.writes, view, held]
      · simp [timed, StoreOp.key, StoreCall.key, StoreCall.writes, held]

theorem compareAndSet_spec (working : data.failing = false) (key : String) (expected value : Value)
    (ttl : Duration) : Answers data (.call (.compareAndSet key expected value ttl))
      (data.compareAndSet key expected value ttl) := by
  obtain ⟨after, found, same, now, failing⟩ := data.live_cases key
  simp only [compareAndSet, check, working, Bool.false_eq_true, if_false, found]
  cases held : data.lasting key with
  | none =>
      refine Answers.wrote ?_ ?_ same now failing
      · simp [StoreOp.apply, StoreOp.key, StoreCall.key, StoreCall.apply, view, held]
      · simp [timed, StoreOp.key, StoreCall.key, held, StoreCall.value, StoreCall.ttl]
  | some current =>
      by_cases differs : current.value ≠ expected
      · simp only [if_pos differs]
        refine Answers.looked ?_ ?_ same now failing
        · simp [StoreOp.apply, StoreOp.key, StoreCall.key, StoreCall.apply, StoreCall.writes, view,
            held, differs]
        · simp [timed, StoreOp.key, StoreCall.key, StoreCall.writes, held, differs]
      · simp only [if_neg differs]
        rw [not_not] at differs
        refine Answers.wrote ?_ ?_ same now failing
        · simp [StoreOp.apply, StoreOp.key, StoreCall.key, StoreCall.apply, StoreCall.writes, view,
            held, differs]
        · simp [timed, StoreOp.key, StoreCall.key, StoreCall.writes, held, differs, StoreCall.value,
            StoreCall.ttl]

theorem incr_spec (working : data.failing = false) (key : String) (by_ : Int64) (ttl : Duration) :
    Answers data (.incr key by_ ttl) (data.incr key by_ ttl) := by
  obtain ⟨after, found, same, now, failing⟩ := data.live_cases key
  simp only [incr, check, working, Bool.false_eq_true, if_false, found]
  have read : data.view key = (data.lasting key).map Entry.value := rfl
  cases count : countOf key ((data.lasting key).map Entry.value) with
  | error error =>
      refine Answers.looked ?_ ?_ same now failing
      · simp [StoreOp.apply, StoreOp.key, read, count]
      · simp [timed, StoreOp.apply, StoreOp.key, count]
  | ok current =>
      cases sum : checkedAdd current by_ with
      | none =>
          simp only [sum]
          refine Answers.looked ?_ ?_ same now failing
          · simp [StoreOp.apply, StoreOp.key, read, count, sum]
          · simp [timed, StoreOp.apply, StoreOp.key, count, sum]
      | some next =>
          simp only [sum]
          refine Answers.wrote ?_ ?_ same now failing
          · simp [StoreOp.apply, StoreOp.key, read, count, sum]
          · simp [timed, StoreOp.apply, StoreOp.key, count, sum]

theorem answer_spec (working : data.failing = false) (request : StoreOp) :
    Answers data request (data.answer request) := by
  have passes : data.check = .ok () := by simp [check, working]
  cases request with
  | call request =>
      cases request with
      | setNx key value ttl => exact setNx_spec working key value ttl
      | compareAndSet key expected value ttl =>
          exact compareAndSet_spec working key expected value ttl
  | set key value ttl =>
      simp only [answer, set, passes]
      exact Answers.wrote rfl rfl rfl rfl rfl
  | get key =>
      obtain ⟨after, found, same, now, failing⟩ := data.live_cases key
      simp only [answer, get, passes, found]
      exact Answers.looked rfl rfl same now failing
  | incr key by_ ttl => exact incr_spec working key by_ ttl
  | del key =>
      simp only [answer, del, passes]
      refine ⟨rfl, ?_, rfl, rfl⟩
      funext other
      by_cases same : other = key
      · simp [lasting, SortedMap.get_remove, same, timed, StoreOp.key]
      · simp [lasting, SortedMap.get_remove, same, StoreOp.key]

theorem answer_failing (failing : data.failing = true) (request : StoreOp) :
    data.answer request = (data, .error ⟨injectedStateFailure⟩) := by
  rcases request with (_ | _) | _ | _ | _ | _ <;>
    simp [answer, setNx, compareAndSet, set, get, incr, del, check, failing]

theorem fresh_cases (now : Duration) (value : Value) (ttl : Duration) :
    fresh now value ttl = none ∨ (fresh now value ttl).map Entry.value = some value := by
  by_cases lapsed : 0 < ttl.nanos <;> simp [fresh, Option.filter_some, alive, lapsed]

theorem timed_value (now : Duration) (cell : Option Entry) (request : StoreOp) :
    timed now cell request = none ∨
      (timed now cell request).map Entry.value = (request.apply (cell.map Entry.value)).1 := by
  cases request with
  | call request =>
      by_cases writes : request.writes (cell.map Entry.value)
      · simpa [timed, StoreOp.apply, StoreCall.apply, writes] using
          fresh_cases now request.value request.ttl
      · simp [timed, StoreOp.apply, StoreCall.apply, writes]
  | set key value ttl => exact fresh_cases now value ttl
  | get key => exact Or.inr rfl
  | incr key by_ ttl =>
      cases count : countOf key (cell.map Entry.value) with
      | error error => simp [timed, StoreOp.apply, count]
      | ok current =>
          cases sum : checkedAdd current by_ with
          | none => simp [timed, StoreOp.apply, count, sum]
          | some next =>
              simpa [timed, StoreOp.apply, count, sum] using fresh_cases now (countBytes next) ttl
  | del key => exact Or.inl rfl

theorem filter_advance (data : StateData) (by_ : Duration) (cell : Option Entry) :
    (cell.filter (alive data.now)).filter (alive (data.advance by_).now) =
      cell.filter (alive (data.advance by_).now) := by
  cases cell with
  | none => rfl
  | some entry =>
      by_cases lives : alive data.now entry
      · rw [Option.filter_some, if_pos lives]
      · have lapsed : ¬ alive (data.advance by_).now entry := by
          rw [alive, decide_eq_true_eq] at lives ⊢
          exact fun later => lives (Nat.lt_of_le_of_lt (Nat.le_add_right _ _) later)
        simp [Option.filter_some, lives, lapsed]

theorem lasting_advance (data : StateData) (by_ : Duration) (key : String) :
    (data.advance by_).lasting key = (data.lasting key).filter (alive (data.advance by_).now) :=
  (filter_advance data by_ _).symm

end StateData

inductive Change where
  | advance (by_ : Duration)
  | failAll (failing : Bool)

section Machines

open StateData

variable {Call Input Result : Type} {operation : Call → StoreOp}
  {start : Input → Program Call (fun request => (operation request).Reply) Result}

def memoryStateStore (operation : Call → StoreOp)
    (start : Input → Program Call (fun request => (operation request).Reply) Result) :
    Machine StateData Input Call (fun request => (operation request).Reply) Result Unit Change where
  start
  answer data request _ := data.answer (operation request)
  drift data
    | .advance by_ => data.advance by_
    | .failAll failing => data.failAll failing

theorem answer_contract (data : StateData) (request : StoreOp) :
    ∃ ending keys, (data.view.answer request ending).2 = (data.answer request).2 ∧
      List.foldl Store.expire (data.view.answer request ending).1 keys = (data.answer request).1.view := by
  by_cases failing : data.failing
  · rw [answer_failing failing]
    exact ⟨.failsBefore ⟨injectedStateFailure⟩, [], rfl, rfl⟩
  · obtain ⟨reply, lasting, _, _⟩ := answer_spec (Bool.not_eq_true _ ▸ failing) request
    have seen : (data.answer request).1.view = Function.update data.view request.key
        ((timed data.now (data.lasting request.key) request).map Entry.value) := by
      funext key
      rw [view, lasting]
      by_cases same : key = request.key
      · simp [same]
      · simp [same, view]
    rcases timed_value data.now (data.lasting request.key) request with lapsed | value
    · refine ⟨.answers, [request.key], reply.symm, ?_⟩
      rw [seen, lapsed, List.foldl_cons, List.foldl_nil, Store.expire, Store.answer,
        Function.update_idem, Option.map_none]
    · exact ⟨.answers, [], reply.symm, by rw [seen, value]; rfl⟩

theorem advance_contract (data : StateData) (by_ : Duration) :
    ∃ keys, List.foldl Store.expire data.view keys = (data.advance by_).view := by
  let gone := fun key => ((data.advance by_).view key).isNone
  refine ⟨data.entries.keys.filter gone, funext fun key => ?_⟩
  have later : (data.advance by_).view key =
      ((data.lasting key).filter (alive (data.advance by_).now)).map Entry.value := by
    rw [view, lasting_advance]
  simp only [foldl_expire, List.mem_filter, gone, later]
  cases held : data.lasting key with
  | none => simp [view, held]
  | some entry =>
      have stored : key ∈ data.entries.keys := by
        rw [SortedMap.mem_keys]
        rw [lasting, Option.filter_eq_some_iff] at held
        rw [held.1, Option.isSome_some]
      by_cases lives : alive (data.advance by_).now entry
      · simp [view, held, Option.filter_some, lives]
      · simp [Option.filter_some, lives, stored]

theorem memory_simulates (operation : Call → StoreOp)
    (start : Input → Program Call (fun request => (operation request).Reply) Result) :
    Simulates (memoryStateStore operation start) (contract operation start) view where
  start _ := rfl
  answers data request _ := answer_contract data (operation request)
  drifts data change := by
    cases change with
    | advance by_ => exact advance_contract data by_
    | failAll failing => exact ⟨[], rfl⟩

/-- Tasks of any programs, interleaved in any order over the in-memory store on a clock that moves
and failures that come and go, are answered as the contract of the state stores allows. -/
theorem memory_refines {data : StateData}
    {events : List (Event Input Unit Change)}
    {pool : Pool StateData Input Call (fun request => (operation request).Reply) Result Unit}
    (ran : (memoryStateStore operation start).run (Pool.initial data) events = some pool) :
    ∃ happened other, (contract operation start).run (Pool.initial data.view) happened = some other ∧
      Alike view pool other :=
  (memory_simulates operation start).run ⟨rfl, rfl, rfl⟩ ran

def once (request : StoreOp) : Program StoreOp StoreOp.Reply Unit :=
  .call request fun _ => .done ()

/-- A value read back after its five nanoseconds. -/
def readTooLate : List (Event StoreOp Unit Change) :=
  [.spawn (.set "seen" "1".toUTF8 ⟨5⟩), .advance 0 (), .drift (.advance ⟨7⟩), .spawn (.get "seen"),
    .advance 1 ()]

theorem memory_refines_too_late : ∃ pool, (memoryStateStore id once).run (Pool.initial .new)
      readTooLate = some pool ∧
    ∃ happened other, (contract id once).run (Pool.initial StateData.new.view) happened = some other ∧
      Alike view pool other := by
  obtain ⟨pool, ran⟩ : ∃ pool,
      (memoryStateStore id once).run (Pool.initial .new) readTooLate = some pool := ⟨_, rfl⟩
  exact ⟨pool, ran, memory_refines ran⟩

def leaves (now : Duration) : (request : StoreOp) → request.Reply → Option (Option Entry)
  | .call request, .ok none => some (some ⟨request.value, ⟨now.nanos + request.ttl.nanos⟩⟩)
  | .set _ value ttl, .ok _ => some (some ⟨value, ⟨now.nanos + ttl.nanos⟩⟩)
  | .incr _ _ ttl, .ok next => some (some ⟨countBytes next, ⟨now.nanos + ttl.nanos⟩⟩)
  | .del _, .ok _ => some none
  | _, _ => none

abbrev Log (operation : Call → StoreOp) (Input Result : Type) :=
  List (Interleaving.Entry StateData Input Call (fun request => (operation request).Reply) Result Unit)

/-- The last thing the answers of the log left in a key. -/
def lastLeft (operation : Call → StoreOp) (key : String) (log : Log operation Input Result) :
    Option Entry :=
  log.foldl (fun left entry =>
    if (operation entry.request).key = key then
      (leaves entry.before.now (operation entry.request) entry.reply).getD left
    else left) none

theorem timed_leaves (now : Duration) (left : Option Entry) (request : StoreOp) :
    timed now (left.filter (alive now)) request =
      ((leaves now request (request.apply ((left.filter (alive now)).map Entry.value)).2).getD
        left).filter (alive now) := by
  cases request with
  | call request =>
      by_cases writes : request.writes ((left.filter (alive now)).map Entry.value)
      · simp [timed, StoreOp.apply, StoreCall.apply, writes, leaves, fresh]
      · cases held : left.filter (alive now) with
        | none => simp [held] at writes
        | some entry =>
            rw [held, Option.map_some] at writes
            simp [timed, StoreOp.apply, StoreCall.apply, writes, leaves, held]
  | set key value ttl => rfl
  | get key => rfl
  | incr key by_ ttl =>
      simp only [timed]
      cases ((StoreOp.incr key by_ ttl).apply ((left.filter (alive now)).map Entry.value)).2 <;> rfl
  | del key => rfl

def Remembered (operation : Call → StoreOp) (data : StateData) (log : Log operation Input Result) :
    Prop :=
  ∀ key, data.lasting key = (lastLeft operation key log).filter (alive data.now)

theorem lastLeft_concat (operation : Call → StoreOp) (key : String) (log : Log operation Input Result)
    (entry : Interleaving.Entry StateData Input Call (fun request => (operation request).Reply) Result
      Unit) :
    lastLeft operation key (log ++ [entry]) =
      if (operation entry.request).key = key then
        (leaves entry.before.now (operation entry.request) entry.reply).getD
          (lastLeft operation key log)
      else lastLeft operation key log := by
  rw [lastLeft, List.foldl_append]
  rfl

theorem Remembered.advance {data : StateData} {log : Log operation Input Result}
    (remembered : Remembered operation data log) (by_ : Duration) :
    Remembered operation (data.advance by_) log := by
  intro key
  rw [lasting_advance, remembered key, filter_advance]

theorem Remembered.answered {log : Log operation Input Result}
    {entry : Interleaving.Entry StateData Input Call (fun request => (operation request).Reply) Result
      Unit}
    (remembered : Remembered operation entry.before log)
    (answered : entry.before.answer (operation entry.request) = (entry.after, entry.reply)) :
    Remembered operation entry.after (log ++ [entry]) := by
  intro key
  rw [lastLeft_concat]
  by_cases failing : entry.before.failing
  · rw [answer_failing failing, Prod.mk.injEq] at answered
    obtain ⟨same, reply⟩ := answered
    have nothing : leaves entry.before.now (operation entry.request) entry.reply = none := by
      rw [← reply]
      rcases operation entry.request with (_ | _) | _ | _ | _ | _ <;> rfl
    rw [nothing, Option.getD_none, ite_self, ← same]
    exact remembered key
  · obtain ⟨reply, lasting, now, _⟩ :=
      answer_spec (Bool.not_eq_true _ ▸ failing) (operation entry.request)
    rw [answered] at reply lasting now
    simp only at reply lasting now
    rw [lasting, now]
    split
    next same =>
      subst same
      rw [reply, view, Function.update_self, remembered, timed_leaves]
    next differs => rw [Function.update_of_ne (Ne.symm differs), remembered key]

theorem run_remembered
    {events : List (Event Input Unit Change)}
    {pool : Pool StateData Input Call (fun request => (operation request).Reply) Result Unit}
    (ran : (memoryStateStore operation start).run (Pool.initial .new) events = some pool) :
    pool.AllAlong (Remembered operation) := by
  have tracked := run_tracked ran
  refine run_history (fun _ => True) ran (fun _ _ => trivial) tracked.answered (fun _ => rfl) ?_ ?_
  · intro data log change _ remembered
    cases change with
    | advance by_ => exact remembered.advance by_
    | failAll failing => exact remembered
  · intro log entry _ _ answered remembered
    exact remembered.answered answered

/-- Every answer is the contract's on what was last left in its key, if that still lasts; a store set
to fail does nothing. The listed keys are those that hold something, in order. -/
theorem memory_history {events : List (Event Input Unit Change)}
    {pool : Pool StateData Input Call (fun request => (operation request).Reply) Result Unit}
    (ran : (memoryStateStore operation start).run (Pool.initial .new) events = some pool) :
    (∀ earlier entry later, pool.log = earlier ++ entry :: later →
      let request := operation entry.request
      let held := (lastLeft operation request.key earlier).filter (alive entry.before.now)
      (entry.before.failing = false →
        entry.reply = (request.apply (held.map Entry.value)).2) ∧
      (entry.before.failing = true →
        entry.reply = .error ⟨injectedStateFailure⟩ ∧ entry.after = entry.before)) ∧
    pool.shared.keys.2.Pairwise (· < ·) ∧
    ∀ key, key ∈ pool.shared.keys.2 ↔
      ((lastLeft operation key pool.log).filter (alive pool.shared.now)).isSome := by
  obtain ⟨atEnd, along⟩ := run_remembered ran
  refine ⟨fun earlier entry later split => ?_, SortedMap.keys_sorted, fun key => ?_⟩
  · have answered := (run_tracked ran).answered entry (by simp [split])
    have remembered := along earlier entry later split (operation entry.request).key
    change entry.before.answer (operation entry.request) = (entry.after, entry.reply) at answered
    refine ⟨fun working => ?_, fun failing => ?_⟩
    · have reply := (answer_spec working (operation entry.request)).reply
      rw [answered, view, remembered] at reply
      exact reply
    · rw [answer_failing failing, Prod.mk.injEq] at answered
      exact ⟨answered.2.symm, answered.1.symm⟩
  · rw [← atEnd key, keys, SortedMap.mem_keys, SortedMap.get_retain]
    rfl

theorem memory_history_too_late : ∃ pool, (memoryStateStore id once).run (Pool.initial .new)
      readTooLate = some pool ∧ pool.shared.keys.2 = [] ∧
    ∀ key, key ∈ pool.shared.keys.2 ↔
      ((lastLeft id key pool.log).filter (alive pool.shared.now)).isSome := by
  obtain ⟨pool, ran, none⟩ : ∃ pool, (memoryStateStore id once).run (Pool.initial .new)
      readTooLate = some pool ∧ pool.shared.keys.2 = [] := ⟨_, rfl, rfl⟩
  exact ⟨pool, ran, none, (memory_history ran).2.2⟩

end Machines

end FusionPipeline.Memory
