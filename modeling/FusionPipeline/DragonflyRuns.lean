import FusionPipeline.Library.Realization
import FusionPipeline.RedisReference

/-! The workers' stores against the contract: every operation takes effect at once, or not at all. -/

namespace FusionPipeline.Dragonfly

open Interleaving RequestReply DragonflyStore

def eachOnce : Machine Store StoreOp StoreOp StoreOp.Reply ((request : StoreOp) × request.Reply) Ending
    String :=
  contract id fun request => .call request fun reply => .done ⟨request, reply⟩

section Operations

variable {State Choice Drift : Type} {server : Server State Choice Drift} {view : State → Store}
  {client : Client} {url : String}

/-- The stores as the contract sees them: an error says nothing of an operation. -/
def asContract (view : State → Store) : Reading State Store (Bool × StoreOp) StoreOp Returned
    ((request : StoreOp) × request.Reply) Ending where
  view
  label := Prod.snd
  same returned ended := returned.outcome = ended
  gaveUp returned := ∃ request error, returned.outcome = ⟨request, .error error⟩
  chosen := .answers

def Serves (server : Server State Choice Drift) (view : State → Store) (client : Client) (url : String)
    (request : StoreOp) (op : Op request.Answer) : Prop :=
  Implements (stores server client url).atomic eachOnce (asContract view) request (Sigma.mk request)
    (op.bind fun result => .done (finished url request result.1 result.2))

theorem serves_error (claimWithSetGet : Bool) (request : StoreOp) (err : RedisError) :
    Serves server view client url request (.done (claimWithSetGet, .error err)) :=
  ⟨request, _, rfl⟩

/-- The rule for one command: refused, it goes on from there; answered, it was the operation. -/
theorem serves_call {request : StoreOp} {sent : Request} {resume : Reply → Op request.Answer}
    (answered : ∀ state choice, let outcome := server.execute state sent choice
      Refuses view state outcome ∨ ∃ claimWithSetGet value,
        view outcome.1 =
          Function.update (view state) request.key (request.apply (view state request.key)).1 ∧
        (request.apply (view state request.key)).2 = .ok value ∧
        resume outcome.2 = .done (claimWithSetGet, .ok value))
    (refused : ∀ text, Serves server view client url request (resume (.error (.server text)))) :
    Serves server view client url request (.call sent resume) := by
  intro state choice
  rcases answered state choice with ⟨same, text, error⟩ | ⟨flag, value, after, reply, ended⟩
  · refine Or.inl ⟨same, ?_⟩
    change Implements _ _ _ _ _ ((resume (server.execute state sent choice).2).bind _)
    rw [error]
    exact refused text
  · refine Or.inr ⟨after, finished url request flag (.ok value), ?_, ?_⟩
    · change (resume (server.execute state sent choice).2).bind _ = _
      rw [ended]
      rfl
    · exact congrArg (Sigma.mk request) reply.symm

theorem ttlMillis_pos (ttl : Duration) : 0 < ttlMillis ttl := by
  have least : ∀ millis : Int64, 0 < max millis 1 := by
    intro millis
    change 0 < if millis ≤ 1 then 1 else millis
    split
    · decide
    · next more => exact Int64.lt_trans (by decide) (Int64.not_le.mp more)
  exact least _

theorem countOf_text (key : String) (count : Int64) :
    countOf key (some (countBytes count)) = .ok count := by
  simp only [countOf, countBytes]
  rw [String.toUTF8_eq_toByteArray, Text.fromUTF8_toByteArray, Option.bind_some,
    Text.parseI64_toString]

theorem apply_incr (cell : Option Value) (key : String) (by_ : Int64) (ttl : Duration)
    {current next : Int64} (held : cell.getD (countBytes 0) = countBytes current)
    (sum : current.toInt + by_.toInt = next.toInt) :
    (StoreOp.incr key by_ ttl).apply cell = (some (countBytes next), .ok next) := by
  have read : countOf key cell = .ok current := by
    cases cell with
    | none =>
        have zero := congrArg (fun value => countOf key (some value)) held
        simp only [Option.getD_none, countOf_text, Except.ok.injEq] at zero
        rw [← zero]
        rfl
    | some value =>
        rw [Option.getD_some] at held
        rw [held, countOf_text]
  have added : checkedAdd current by_ = some next := by
    have bounds := And.intro (Int64.le_toInt next) (Int64.toInt_lt next)
    simp only [checkedAdd, sum]
    rw [if_pos bounds, Int64.ofInt_toInt]
  simp only [StoreOp.apply, read, added]

theorem apply_setNx (cell : Option Value) (key : String) (value : Value) (ttl : Duration) :
    (StoreCall.setNx key value ttl).apply cell = (some (cell.getD value), cell) := by
  cases cell <;> rfl

theorem existingFrom_bulk (documented : client.Documented) (cell : Option Value) :
    existingFrom client (bulk cell) = .ok cell := by
  cases cell with
  | none => rfl
  | some bytes => exact documented.bulk bytes

variable (serverDocumented : Documented server view) (clientDocumented : client.Documented)

include serverDocumented clientDocumented

theorem get_serves (claimWithSetGet : Bool) (key : String) :
    Serves server view client url (.get key) (get client claimWithSetGet key) := by
  refine serves_call (fun state choice => ?_) fun text => serves_error _ _ _
  rcases serverDocumented.get state key choice with refuses | ⟨after, value, reply, rfl⟩
  · exact Or.inl refuses
  · refine Or.inr ⟨claimWithSetGet, view state key, after, rfl, ?_⟩
    have read : client.bytes (bulk (view state key)) = .ok (view state key) := by
      cases view state key with
      | none => exact clientDocumented.nil
      | some bytes => exact clientDocumented.bulk bytes
    rw [reply]
    exact congrArg (fun result => Program.done (claimWithSetGet, result)) read

theorem set_serves (claimWithSetGet : Bool) (key : String) (value : Value) (ttl : Duration) :
    Serves server view client url (.set key value ttl) (set client claimWithSetGet key value ttl) := by
  refine serves_call (fun state choice => ?_) fun text => serves_error _ _ _
  rcases serverDocumented.setPx state key value (ttlMillis ttl) choice (ttlMillis_pos ttl) with
    refuses | ⟨after, _, reply, rfl⟩
  · exact Or.inl refuses
  · refine Or.inr ⟨claimWithSetGet, (), after, rfl, ?_⟩
    rw [reply]
    exact congrArg (fun result : Except RedisError String =>
      Program.done (claimWithSetGet, result.map fun _ => ())) (clientDocumented.status "OK")

theorem del_serves (claimWithSetGet : Bool) (key : String) :
    Serves server view client url (.del key) (del client claimWithSetGet key) := by
  refine serves_call (fun state choice => ?_) fun text => serves_error _ _ _
  rcases serverDocumented.del state key choice with refuses | ⟨after, _, reply, count, rfl⟩
  · exact Or.inl refuses
  · refine Or.inr ⟨claimWithSetGet, (), after, rfl, ?_⟩
    rw [reply]
    exact congrArg (fun result : Except RedisError Int64 =>
      Program.done (claimWithSetGet, result.map fun _ => ())) (clientDocumented.int count)

theorem incr_serves (claimWithSetGet : Bool) (key : String) (by_ : Int64) (ttl : Duration) :
    Serves server view client url (.incr key by_ ttl) (incr client claimWithSetGet key by_ ttl) := by
  refine serves_call (fun state choice => ?_) fun text => serves_error _ _ _
  rcases serverDocumented.incrBy state key by_ (ttlMillis ttl) choice (ttlMillis_pos ttl) with
    refuses | ⟨current, next, expired, held, sum, after, _, reply, rfl⟩
  · exact Or.inl refuses
  · have applied := apply_incr (view state key) key by_ ttl held sum
    refine Or.inr ⟨claimWithSetGet, next, ?_, ?_, ?_⟩
    · rw [after]
      exact congrArg (fun applied => Function.update (view state) key (Prod.fst applied)) applied.symm
    · exact congrArg Prod.snd applied
    · rw [reply]
      exact congrArg (fun result : Except RedisError (Int64 × Int64) =>
        Program.done (claimWithSetGet, result.map Prod.fst)) (clientDocumented.ints next expired)

omit clientDocumented

theorem run_get {next : Script} {key : String} {args : List Value} {held : Option Value} {state : State}
    {choices : List Choice} {outcome : State × Reply}
    (ran : (Script.bind [.quoted "GET", .key] next).run server (arg key) args held state choices =
      some outcome) :
    Refuses view state outcome ∨ ∃ middle rest, view middle = view state ∧
      next.run server (arg key) args (view state key) middle rest = some outcome := by
  cases choices with
  | nil => cases ran
  | cons choice rest =>
      have command : Script.command (arg key) args held [.quoted "GET", .key] =
          some (.command [arg "GET", arg key]) := rfl
      simp only [Script.run, command, Option.bind_eq_bind, Option.bind_some] at ran
      have means := serverDocumented.get state key choice
      generalize server.execute state (.command [arg "GET", arg key]) choice = got at ran means
      obtain ⟨middle, reply⟩ := got
      rcases means with ⟨same, text, error⟩ | ⟨after, value, answered, rfl⟩
      · simp only at error
        subst error
        obtain rfl := Option.some.inj ran
        exact Or.inl ⟨same, text, rfl⟩
      · simp only at answered
        subst answered
        have same : view middle = view state := after.trans (Function.update_eq_self _ _)
        refine Or.inr ⟨middle, rest, same, ?_⟩
        cases found : view state key with
        | none => simpa only [found, bulk] using ran
        | some bytes => simpa only [found, bulk] using ran

theorem run_set {next : Script} {key : String} {args : List Value} {held : Option Value} {state : State}
    {choices : List Choice} {outcome : State × Reply} {first second : Nat} {value : Value}
    (ttl : Duration) (given : args[first]? = some value)
    (lasts : args[second]? = some (arg (toString (ttlMillis ttl).toInt)))
    (ran : (Script.call [.quoted "SET", .key, .arg first, .quoted "PX", .arg second] next).run server
      (arg key) args held state choices = some outcome) :
    Refuses view state outcome ∨ ∃ after rest,
      view after = Function.update (view state) key (some value) ∧
        next.run server (arg key) args held after rest = some outcome := by
  cases choices with
  | nil => cases ran
  | cons choice rest =>
      let sent := Request.command
        [arg "SET", arg key, value, arg "PX", arg (toString (ttlMillis ttl).toInt)]
      have command : Script.command (arg key) args held
          [.quoted "SET", .key, .arg first, .quoted "PX", .arg second] = some sent := by
        simp [Script.command, Expr.eval, given, lasts, sent]
      simp only [Script.run, command, Option.bind_eq_bind, Option.bind_some] at ran
      have means := serverDocumented.setPx state key value (ttlMillis ttl) choice (ttlMillis_pos ttl)
      change Refuses view state (server.execute state sent choice) ∨
        Sets view state key (some value) (· = .status "OK") (server.execute state sent choice) at means
      generalize server.execute state sent choice = got at ran means
      obtain ⟨after, reply⟩ := got
      rcases means with ⟨same, text, error⟩ | ⟨updated, _, answered, rfl⟩
      · simp only at error
        subst error
        obtain rfl := Option.some.inj ran
        exact Or.inl ⟨same, text, rfl⟩
      · simp only at answered
        subst answered
        exact Or.inr ⟨after, rest, updated, ran⟩

/-- A script's run is the operation, or refused by one of its commands. -/
def Means (server : Server State Choice Drift) (view : State → Store) (request : StoreCall)
    (script : Script) (args : List Value) : Prop :=
  ∀ state choices outcome, script.run server (arg request.key) args none state choices = some outcome →
    Refuses view state outcome ∨
      view outcome.1 =
          Function.update (view state) request.key (request.apply (view state request.key)).1 ∧
        outcome.2 = .ok (bulk (request.apply (view state request.key)).2)

theorem claim_means (key : String) (value : Value) (ttl : Duration) :
    Means server view (.setNx key value ttl) .claim [value, arg (toString (ttlMillis ttl).toInt)] := by
  intro state choices outcome ran
  simp only [StoreCall.key] at ran ⊢
  rcases run_get serverDocumented ran with refuses | ⟨middle, rest, same, branch⟩
  · exact Or.inl refuses
  · cases found : view state key with
    | none =>
        rw [found, Script.run] at branch
        simp only [Test.eval, Expr.eval, Option.isSome_none, Bool.false_eq_true, if_false] at branch
        rcases run_set serverDocumented ttl rfl rfl branch with
          ⟨kept, text, error⟩ | ⟨after, later, updated, returned⟩
        · exact Or.inl ⟨kept.trans same, text, error⟩
        · obtain rfl := Option.some.inj returned
          exact Or.inr ⟨by rw [updated, same]; rfl, rfl⟩
    | some holder =>
        rw [found, Script.run] at branch
        simp only [Test.eval, Expr.eval, Option.isSome_some, if_true] at branch
        obtain rfl := Option.some.inj branch
        refine Or.inr ⟨same.trans ?_, rfl⟩
        exact (Function.update_eq_self_iff.mpr found.symm).symm

theorem compareAndSet_means (key : String) (expected value : Value) (ttl : Duration) :
    Means server view (.compareAndSet key expected value ttl) .compareAndSet
      [expected, value, arg (toString (ttlMillis ttl).toInt)] := by
  intro state choices outcome ran
  simp only [StoreCall.key] at ran ⊢
  rcases run_get serverDocumented ran with refuses | ⟨middle, rest, same, branch⟩
  · exact Or.inl refuses
  · have tested : Test.eval (arg key) [expected, value, arg (toString (ttlMillis ttl).toInt)]
        (view state key) (.either (.equal .variable_ .false_) (.equal .variable_ (.arg 0))) =
          (StoreCall.compareAndSet key expected value ttl).writes (view state key) := by
      rw [Bool.eq_iff_iff, Test.eval, Bool.or_eq_true, StoreCall.writes, decide_eq_true_iff]
      exact or_congr decide_eq_true_iff decide_eq_true_iff
    rw [Script.run, tested] at branch
    rw [StoreCall.apply]
    split at branch
    next writes =>
      rw [if_pos writes]
      rcases run_set serverDocumented ttl rfl rfl branch with
        ⟨kept, text, error⟩ | ⟨after, later, updated, returned⟩
      · exact Or.inl ⟨kept.trans same, text, error⟩
      · obtain rfl := Option.some.inj returned
        exact Or.inr ⟨by rw [updated, same]; rfl, rfl⟩
    next notWrites =>
      rw [if_neg notWrites]
      cases found : view state key with
      | none => simp [found] at notWrites
      | some holder =>
          rw [found] at branch
          obtain rfl := Option.some.inj branch
          refine Or.inr ⟨same.trans ?_, rfl⟩
          exact (Function.update_eq_self_iff.mpr found.symm).symm

include clientDocumented

theorem eval_serves {request : StoreCall} {script : Script} {args : List Value}
    (known : script ∈ [Script.claim, Script.compareAndSet])
    (means : Means server view request script args) (claimWithSetGet : Bool) :
    Serves server view client url (.call request) (.call (.command
      (arg "EVAL" :: arg script.text :: arg "1" :: arg request.key :: args)) fun reply =>
        .done (claimWithSetGet, reply >>= existingFrom client)) := by
  refine serves_call (fun state choice => ?_) fun text => serves_error _ _ _
  rcases serverDocumented.eval state script known request.key args choice with
    refuses | ⟨choices, reply, ran, told⟩
  · exact Or.inl refuses
  · rcases means state choices _ ran with ⟨same, text, error⟩ | ⟨after, answered⟩
    · refine Or.inl ⟨same, ?_⟩
      rcases told with equal | ⟨_, other⟩
      · exact ⟨text, equal.trans error⟩
      · exact other
    · simp only at answered
      subst answered
      rcases told with equal | ⟨⟨_, bad⟩, _⟩
      · refine Or.inr ⟨claimWithSetGet, (request.apply (view state request.key)).2, after, rfl, ?_⟩
        rw [equal]
        exact congrArg (fun result => Program.done (claimWithSetGet, result))
          (existingFrom_bulk clientDocumented _)
      · cases bad

theorem compareAndSet_serves (claimWithSetGet : Bool) (key : String) (expected value : Value)
    (ttl : Duration) : Serves server view client url (.call (.compareAndSet key expected value ttl))
      (compareAndSet client claimWithSetGet key expected value ttl) := by
  rw [compareAndSet, ← Script.compareAndSet_text]
  exact eval_serves serverDocumented clientDocumented (.tail _ (.head _))
    (compareAndSet_means serverDocumented key expected value ttl) claimWithSetGet

/-- Both spellings of the claim are the claim, also where the first is tried in vain. -/
theorem setNx_serves (claimWithSetGet : Bool) (key : String) (value : Value) (ttl : Duration) :
    Serves server view client url (.call (.setNx key value ttl))
      (setNx client claimWithSetGet key value ttl) := by
  have eval : ∀ flag, Serves server view client url (.call (.setNx key value ttl)) (.call (.command
      [arg "EVAL", arg claimScript, arg "1", arg key, value, arg (toString (ttlMillis ttl).toInt)])
        fun reply => .done (flag, reply >>= existingFrom client)) := by
    intro flag
    rw [← Script.claim_text]
    exact eval_serves serverDocumented clientDocumented (.head _)
      (claim_means serverDocumented key value ttl) flag
  rw [setNx]
  cases claimWithSetGet with
  | false => exact eval false
  | true =>
      refine serves_call (fun state choice => ?_) fun text => ?_
      · rcases serverDocumented.setNxGet state key value (ttlMillis ttl) choice (ttlMillis_pos ttl) with
          refuses | ⟨after, _, reply, rfl⟩
        · exact Or.inl refuses
        · refine Or.inr ⟨true, view state key, ?_, ?_, ?_⟩
          · simp only [after, StoreOp.apply, StoreOp.key, StoreCall.key, apply_setNx]
          · simp only [StoreOp.apply, StoreOp.key, StoreCall.key, apply_setNx]
          · rw [reply]
            exact congrArg (fun result => Program.done (true, result))
              (existingFrom_bulk clientDocumented _)
      · simp only
        split
        · exact eval false
        · exact serves_error _ _ _

theorem op_serves (claimWithSetGet : Bool) (request : StoreOp) :
    Serves server view client url request (op client claimWithSetGet request) := by
  cases request with
  | call request =>
      cases request with
      | setNx key value ttl =>
          exact setNx_serves serverDocumented clientDocumented claimWithSetGet key value ttl
      | compareAndSet key expected value ttl =>
          exact compareAndSet_serves serverDocumented clientDocumented claimWithSetGet key expected
            value ttl
  | set key value ttl =>
      exact set_serves serverDocumented clientDocumented claimWithSetGet key value ttl
  | get key => exact get_serves serverDocumented clientDocumented claimWithSetGet key
  | incr key by_ ttl =>
      exact incr_serves serverDocumented clientDocumented claimWithSetGet key by_ ttl
  | del key => exact del_serves serverDocumented clientDocumented claimWithSetGet key

theorem stores_realize :
    Realizes (stores server client url).atomic eachOnce (asContract view) where
  starts := fun ⟨claimWithSetGet, request⟩ =>
    ⟨request, Sigma.mk request, rfl,
      op_serves serverDocumented clientDocumented claimWithSetGet request⟩
  drifts := serverDocumented.drift

end Operations

section Connections

variable {State Choice Drift : Type} {server : Server State Choice Drift} {view : State → Store}
  {client : Client} {url : String}

def Heeds {Answer : Type} : Op Answer → Prop
  | .done _ => True
  | .call _ resume =>
      (∀ text, ∃ claimWithSetGet,
        resume (.error (.connection text)) = .done (claimWithSetGet, .error (.connection text))) ∧
      ∀ reply, Heeds (resume reply)

theorem op_heeds (claimWithSetGet : Bool) (request : StoreOp) :
    Heeds (op client claimWithSetGet request) := by
  have once : ∀ {Answer : Type} (sent : Request) (flag : Bool)
      (decode : Reply → Except RedisError Answer),
        (∀ text, decode (.error (.connection text)) = .error (.connection text)) →
          Heeds (.call sent fun reply => .done (flag, decode reply)) :=
    fun sent flag decode kept =>
      ⟨fun text => ⟨flag, congrArg (fun result => Program.done (flag, result)) (kept text)⟩,
        fun _ => trivial⟩
  cases request with
  | call request =>
      cases request with
      | setNx key value ttl =>
          rw [op, setNx]
          cases claimWithSetGet with
          | false => exact once _ _ _ fun _ => rfl
          | true =>
              refine ⟨fun text => ⟨true, rfl⟩, fun reply => ?_⟩
              cases reply with
              | ok reply => trivial
              | error err =>
                  simp only
                  split
                  · exact once _ _ _ fun _ => rfl
                  · trivial
      | compareAndSet key expected value ttl => exact once _ _ _ fun _ => rfl
  | set key value ttl => exact once _ _ _ fun _ => rfl
  | get key => exact once _ _ _ fun _ => rfl
  | incr key by_ ttl => exact once _ _ _ fun _ => rfl
  | del key => exact once _ _ _ fun _ => rfl

theorem Heeds.careful {request : StoreOp} {op : Op request.Answer} (heeds : Heeds op) :
    (stores server client url).Careful
      (op.bind fun result => .done (finished url request result.1 result.2)) := by
  induction op with
  | done result => trivial
  | call sent resume ih =>
      refine ⟨fun text => ?_, fun reply => ih reply (heeds.2 reply)⟩
      obtain ⟨claimWithSetGet, ended⟩ := heeds.1 text
      refine ⟨finished url request claimWithSetGet (.error (.connection text)), ?_, rfl⟩
      change (resume (.error (.connection text))).bind _ = _
      rw [ended]
      rfl

theorem stores_sound : (stores server client url).Sound where
  careful claimWithSetGet request := (op_heeds claimWithSetGet request).careful
  refused _ _ _ := rfl

structure Agrees (view : State → Store) (world : World State Bool StoreOp Request Reply Returned)
    (pool : Pool Store StoreOp StoreOp StoreOp.Reply ((request : StoreOp) × request.Reply) Ending) :
    Prop where
  shared : pool.shared = view world.server
  requests : pool.tasks.map Task.input = world.calls.map fun call => call.input.2
  answered : ∀ (number : Nat) (call : Call Bool StoreOp Returned) (returned : Returned)
    (answer : returned.request.Answer), world.calls[number]? = some call →
      call.returned = some returned → returned.result = .ok answer →
        pool.tasks[number]? = some ⟨call.input.2, some (.done ⟨returned.request, .ok answer⟩)⟩

theorem agrees_of_related {world : World State Bool StoreOp Request Reply Returned}
    {pool : Pool State (Bool × StoreOp) Request (fun _ => Reply) Returned Choice}
    {other : Pool Store StoreOp StoreOp StoreOp.Reply ((request : StoreOp) × request.Reply) Ending}
    (related : Related (stores server client url) world pool)
    (matched : Interleaving.Matches (stores server client url).atomic eachOnce (asContract view)
      pool other) :
    Agrees view world other where
  shared := by
    rw [matched.shared, related.shared]
    rfl
  requests := by
    have labels := congrArg (List.map Prod.snd) related.inputs
    rw [List.map_map, List.map_map] at labels
    exact matched.inputs.trans labels
  answered := by
    intro number call returned answer called ended ok
    have keeps : (stores server client url).drops returned = false := by
      simp only [stores, Returned.dropped, ok]
    have task := related.returned number call returned called ended keeps
    obtain ⟨mirror, mirrored⟩ : ∃ mirror, other.tasks[number]? = some mirror := by
      have bound := (List.getElem?_eq_some_iff.mp task).1
      exact ⟨_, List.getElem?_eq_getElem (by rw [matched.length]; exact bound)⟩
    have sameInput : mirror.input = call.input.2 := by
      have inputs := congrArg (fun inputs => inputs[number]?) matched.inputs
      simpa [mirrored, task, asContract] using inputs
    have told : returned.outcome = ⟨returned.request, .ok answer⟩ := by
      rw [Returned.outcome, ok]
      rfl
    have far := matched.tasks number _ mirror task mirrored
    obtain ⟨input, program⟩ := mirror
    simp only at far sameInput
    cases far with
    | before _ operation finish gaveUp =>
        obtain ⟨request, error, outcome⟩ := gaveUp
        rw [told] at outcome
        cases outcome
    | after _ reply agrees =>
        obtain rfl : returned.outcome = reply := agrees
        rw [mirrored, sameInput, told]

/-- Where a run of the contract is that goes along with the workers'. -/
def Linearizes (server : Server State Choice Drift) (view : State → Store) (client : Client)
    (url : String) (world : World State Bool StoreOp Request Reply Returned)
    (other : Pool Store StoreOp StoreOp StoreOp.Reply ((request : StoreOp) × request.Reply) Ending) :
    Prop :=
  ∃ pool, Related (stores server client url) world pool ∧
    Interleaving.Matches (stores server client url).atomic eachOnce (asContract view) pool other

section Linearizing

variable {world next : World State Bool StoreOp Request Reply Returned}
  {other : Pool Store StoreOp StoreOp StoreOp.Reply ((request : StoreOp) × request.Reply) Ending}

theorem Linearizes.agrees (linearizes : Linearizes server view client url world other) :
    Agrees view world other := by
  obtain ⟨pool, related, matched⟩ := linearizes
  exact agrees_of_related related matched

theorem Linearizes.step
    (realizes : Realizes (stores server client url).atomic eachOnce (asContract view))
    (linearizes : Linearizes server view client url world other)
    {event : RequestReply.Event StoreOp Choice Drift String}
    (stepped : (stores server client url).step world event = some next) :
    ∃ happened following, eachOnce.run other happened = some following ∧
      Linearizes server view client url next following := by
  obtain ⟨pool, related, matched⟩ := linearizes
  obtain ⟨_, final, reached, relatedThen⟩ := related.step stores_sound stepped
  obtain ⟨happened, following, went, matchedThen⟩ := matched.run realizes reached
  exact ⟨happened, following, went, final, relatedThen, matchedThen⟩

end Linearizing

/-- Any number of workers, a server that answers as documented, and connections that break anywhere:
one run of the contract goes along with the whole run of the workers, and at every point of it each
operation answered so far took effect exactly as the contract has it, once and between its call and
its return; one that failed did so at most once. -/
theorem dragonfly_linearizable (serverDocumented : Documented server view)
    (clientDocumented : client.Documented) {initial : State} {evalClaim : Bool}
    {events : List (RequestReply.Event StoreOp Choice Drift String)}
    {world : World State Bool StoreOp Request Reply Returned}
    (ran : (stores server client url).run (unopened initial evalClaim) events = some world) :
    ∃ happened : List (List (Interleaving.Event StoreOp Ending String)),
      happened.length = events.length ∧
      ∀ first second, events = first ++ second → ∃ middle before,
        (stores server client url).run (unopened initial evalClaim) first = some middle ∧
        eachOnce.run (Pool.initial (view initial)) (happened.take first.length).flatten =
          some before ∧
        Agrees view middle before := by
  have realizes : Realizes (stores server client url).atomic eachOnce (asContract view) :=
    stores_realize serverDocumented clientDocumented
  obtain ⟨happened, sameLength, cuts⟩ := Transition.run_simulated (Linearizes server view client url)
    (fun _ _ _ _ linearizes stepped => linearizes.step realizes stepped) ran
    ⟨_, related_initial _ _, matches_initial initial⟩
  refine ⟨happened, sameLength, fun first second split => ?_⟩
  obtain ⟨middle, before, toMiddle, toBefore, linearizes⟩ := cuts first second split
  exact ⟨middle, before, toMiddle, toBefore, linearizes.agrees⟩

/-- Two workers claim one key: the second loses its connection before it reads the answer. -/
def claims : List (RequestReply.Event StoreOp Unit String String) :=
  [.connect 0, .connect 1, .start 0 (.call (.setNx "seen" (arg "a") ⟨10000000000⟩)), .execute 0 (),
    .receive 0, .start 1 (.call (.setNx "seen" (arg "b") ⟨10000000000⟩)),
    .fail 1 "timed out"]

/-- It reconnects and asks for the holder; only then is its claim read off the old connection. -/
def asks : List (RequestReply.Event StoreOp Unit String String) :=
  [.connect 1, .start 1 (.get "seen"), .execute 1 (), .execute 2 (), .receive 1]

def storeUrl : String :=
  "redis://127.0.0.1:6379"

theorem dragonfly_linearizable_reconnected : ∃ world,
    ∃ happened : List (List (Interleaving.Event StoreOp Ending String)),
    (stores reference plainClient storeUrl).run (unopened Store.empty false) (claims ++ asks) =
      some world ∧
    happened.length = 12 ∧
    (∃ middle before, (stores reference plainClient storeUrl).run (unopened Store.empty false) claims =
        some middle ∧
      eachOnce.run (Pool.initial Store.empty) (happened.take 7).flatten = some before ∧
      Agrees id middle before ∧ before.shared "seen" = some (arg "a")) ∧
    ∃ after, eachOnce.run (Pool.initial Store.empty) happened.flatten = some after ∧
      Agrees id world after := by
  obtain ⟨world, ran⟩ : ∃ world, (stores reference plainClient storeUrl).run
      (unopened Store.empty false) (claims ++ asks) = some world := ⟨_, rfl⟩
  obtain ⟨happened, count, cuts⟩ :=
    dragonfly_linearizable reference_documented plainClient_documented ran
  obtain ⟨middle, before, toMiddle, toBefore, agrees⟩ := cuts claims asks rfl
  obtain ⟨last, after, toLast, toAfter, agreesLast⟩ := cuts (claims ++ asks) [] (by simp)
  obtain rfl := Option.some.inj (ran.symm.trans toLast)
  refine ⟨world, happened, ran, count, ⟨middle, before, toMiddle, toBefore, agrees, ?_⟩, after, ?_,
    agreesLast⟩
  · obtain rfl := Option.some.inj toMiddle
    rw [agrees.shared]
    rfl
  · rwa [List.take_of_length_le count.le] at toAfter

/-- No connection is shared, and each, a dropped one too, carries at most one message. An idle one
carries nothing, one in use nothing but its worker's last command or the reply to it; no command is
twice on its way. -/
theorem dragonfly_own_replies {initial : State} {evalClaim : Bool}
    {events : List (RequestReply.Event StoreOp Choice Drift String)}
    {world : World State Bool StoreOp Request Reply Returned}
    (ran : (stores server client url).run (unopened initial evalClaim) events = some world) :
    (∀ first second line, (world.clients first).slot = some line →
      (world.clients second).slot = some line → first = second) ∧
    (∀ line, (world.lines line).requests.length + (world.lines line).replies.length ≤ 1) ∧
    (∀ index line, (world.clients index).slot = some line → (world.clients index).doing = none →
      (world.lines line).Quiet) ∧
    (∀ index line waiting, (world.clients index).slot = some line →
      (world.clients index).doing = some waiting →
        (∀ sent ∈ (world.lines line).requests, sent = (waiting.number, waiting.request)) ∧
        ∀ reply ∈ (world.lines line).replies, reply.1 = waiting.number) ∧
    ∀ line other number request again, (number, request) ∈ (world.lines line).requests →
      (number, again) ∈ (world.lines other).requests → line = other := by
  obtain ⟨_, pool, _, related⟩ := run_related stores_sound (related_initial _ _) ran
  refine ⟨related.slots, related.single, fun index line slot doing => related.idle index line doing slot,
    ?_, ?_⟩
  · intro index line waiting slot doing
    obtain ⟨held, call, heldSlot, waits⟩ := related.waits index waiting doing
    obtain rfl := Option.some.inj (slot.symm.trans heldSlot)
    cases waits.underway with
    | sent requests replies _ => simp [requests, replies]
    | answered reply requests replies _ => simp [requests, replies]
    | lost quiet => simp [quiet.1, quiet.2]
  · intro line other number request again member memberToo
    obtain ⟨call, _, called, home, _⟩ := related.sent line number request member
    obtain ⟨callToo, _, calledToo, homeToo, _⟩ := related.sent other number again memberToo
    obtain rfl := Option.some.inj (called.symm.trans calledToo)
    exact Option.some.inj (home.symm.trans homeToo)

theorem dragonfly_own_replies_reconnected : ∃ middle world,
    (stores reference plainClient storeUrl).run (unopened Store.empty false) (claims.take 4) =
      some middle ∧
    (∃ line waiting, (middle.clients 0).slot = some line ∧ (middle.clients 0).doing = some waiting ∧
      (middle.lines line).replies.length = 1 ∧
      ∀ reply ∈ (middle.lines line).replies, reply.1 = waiting.number) ∧
    (stores reference plainClient storeUrl).run (unopened Store.empty false) (claims ++ asks) =
      some world ∧
    (∀ line, (world.lines line).requests.length + (world.lines line).replies.length ≤ 1) ∧
    (∃ line, (world.clients 1).slot = some line ∧ (world.lines line).Quiet) ∧
    ∀ first second line, (world.clients first).slot = some line →
      (world.clients second).slot = some line → first = second := by
  obtain ⟨middle, began, line, waiting, slot, doing, waits⟩ : ∃ middle,
      (stores reference plainClient storeUrl).run (unopened Store.empty false) (claims.take 4) =
        some middle ∧ ∃ line waiting, (middle.clients 0).slot = some line ∧
      (middle.clients 0).doing = some waiting ∧ (middle.lines line).replies.length = 1 :=
    ⟨_, rfl, _, _, rfl, rfl, rfl⟩
  obtain ⟨world, ran, idle, held, done⟩ : ∃ world, (stores reference plainClient storeUrl).run
      (unopened Store.empty false) (claims ++ asks) = some world ∧
      ∃ line, (world.clients 1).slot = some line ∧ (world.clients 1).doing = none :=
    ⟨_, rfl, _, rfl, rfl⟩
  obtain ⟨_, _, _, used, _⟩ := dragonfly_own_replies began
  obtain ⟨apart, single, quiet, _, _⟩ := dragonfly_own_replies ran
  exact ⟨middle, world, began, ⟨line, waiting, slot, doing, waits, (used 0 line waiting slot doing).2⟩,
    ran, single, ⟨idle, held, quiet 1 idle held done⟩, apart⟩

end Connections

end FusionPipeline.Dragonfly
