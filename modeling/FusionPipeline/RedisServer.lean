import FusionPipeline.Dragonfly
import FusionPipeline.StoreContract

/-! What the server's documentation says of the commands the stores send, its scripts included. -/

namespace FusionPipeline.Dragonfly

open Interleaving

inductive Expr where
  | variable_
  | key
  | arg (index : Nat)
  | quoted (literal : String)
  | false_
  deriving DecidableEq

inductive Test where
  | holds (expr : Expr)
  | equal (left right : Expr)
  | either (left right : Test)

inductive Script where
  | bind (parts : List Expr) (next : Script)
  | call (parts : List Expr) (next : Script)
  | branch (test : Test) (body next : Script)
  | return_ (expr : Expr)

namespace Expr

def text : Expr → String
  | variable_ => "v"
  | key => "KEYS[1]"
  | arg index => "ARGV[" ++ toString (index + 1) ++ "]"
  | quoted literal => "'" ++ literal ++ "'"
  | false_ => "false"

def eval (key : Value) (args : List Value) (held : Option Value) : Expr → Option Value
  | .variable_ => held
  | .key => some key
  | .arg index => args[index]?
  | .quoted literal => some (Dragonfly.arg literal)
  | .false_ => none

end Expr

namespace Test

def text : Test → String
  | holds expr => expr.text
  | equal left right => left.text ++ " == " ++ right.text
  | either left right => left.text ++ " or " ++ right.text

def eval (key : Value) (args : List Value) (held : Option Value) : Test → Bool
  | holds expr => (expr.eval key args held).isSome
  | equal left right => decide (left.eval key args held = right.eval key args held)
  | either left right => left.eval key args held || right.eval key args held

end Test

namespace Script

def callText (parts : List Expr) : String :=
  "redis.call(" ++ String.intercalate ", " (parts.map Expr.text) ++ ") "

def text : Script → String
  | bind parts next => "local v = " ++ callText parts ++ next.text
  | call parts next => callText parts ++ next.text
  | branch test body next => "if " ++ test.text ++ " then " ++ body.text ++ " end " ++ next.text
  | return_ expr => "return " ++ expr.text

section Runs

variable {State Choice Drift : Type} (server : Server State Choice Drift) (key : Value)
  (args : List Value)

def command (held : Option Value) (parts : List Expr) : Option Request :=
  (parts.mapM (Expr.eval key args held)).map .command

def run (held : Option Value) (state : State) : Script → List Choice → Option (State × Reply)
  | bind parts next, choice :: choices => do
      match server.execute state (← command key args held parts) choice with
      | (after, .ok .nil) => run none after next choices
      | (after, .ok (.bulk value)) => run (some value) after next choices
      | (_, .ok _) => none
      | (after, .error err) => some (after, .error err)
  | call parts next, choice :: choices => do
      match server.execute state (← command key args held parts) choice with
      | (after, .ok _) => run held after next choices
      | (after, .error err) => some (after, .error err)
  | branch test body next, choices =>
      if test.eval key args held then run held state body choices
      else run held state next choices
  | return_ expr, _ =>
      match expr.eval key args held with
      | none => some (state, .ok .nil)
      | some value => some (state, .ok (.bulk value))
  | _, [] => none

end Runs

/-- `claimScript` and `compareAndSetScript` as the server reads them. -/
def claim : Script :=
  .bind [.quoted "GET", .key] <|
    .branch (.holds .variable_) (.return_ .variable_) <|
      .call [.quoted "SET", .key, .arg 0, .quoted "PX", .arg 1] (.return_ .false_)

def compareAndSet : Script :=
  .bind [.quoted "GET", .key] <|
    .branch (.either (.equal .variable_ .false_) (.equal .variable_ (.arg 0)))
      (.call [.quoted "SET", .key, .arg 1, .quoted "PX", .arg 2] (.return_ .false_))
      (.return_ .variable_)

theorem claim_text : claim.text = claimScript := by decide

set_option maxRecDepth 2048 in
theorem compareAndSet_text : compareAndSet.text = compareAndSetScript := by decide

end Script

section Documented

variable {State Choice Drift : Type}

/-- The server answers with an error and leaves the values as they are: it does not know the syntax,
is loading or out of memory, the value has another type. -/
def Refuses (view : State → Store) (state : State) (outcome : State × Reply) : Prop :=
  view outcome.1 = view state ∧ ∃ text, outcome.2 = .error (.server text)

def Sets (view : State → Store) (state : State) (key : String) (cell : Option Value)
    (reply : RedisValue → Prop) (outcome : State × Reply) : Prop :=
  view outcome.1 = Function.update (view state) key cell ∧ ∃ value, outcome.2 = .ok value ∧ reply value

def bulk : Option Value → RedisValue
  | none => .nil
  | some bytes => .bulk bytes

/-- The documented meaning of the commands, `view` being the unexpired values. -/
structure Documented (server : Server State Choice Drift) (view : State → Store) : Prop where
  setNxGet : ∀ state (key : String) value (millis : Int64) choice, 0 < millis →
    let outcome := server.execute state (.command
      [arg "SET", arg key, value, arg "NX", arg "PX", arg (toString millis.toInt), arg "GET"]) choice
    Refuses view state outcome ∨
      Sets view state key (some ((view state key).getD value)) (· = bulk (view state key)) outcome
  setPx : ∀ state (key : String) value (millis : Int64) choice, 0 < millis →
    let outcome := server.execute state (.command
      [arg "SET", arg key, value, arg "PX", arg (toString millis.toInt)]) choice
    Refuses view state outcome ∨ Sets view state key (some value) (· = .status "OK") outcome
  get : ∀ state (key : String) choice,
    let outcome := server.execute state (.command [arg "GET", arg key]) choice
    Refuses view state outcome ∨
      Sets view state key (view state key) (· = bulk (view state key)) outcome
  del : ∀ state (key : String) choice,
    let outcome := server.execute state (.command [arg "DEL", arg key]) choice
    Refuses view state outcome ∨
      Sets view state key none (fun reply => ∃ count, reply = .int count) outcome
  incrBy : ∀ state (key : String) (by_ millis : Int64) choice, 0 < millis →
    let outcome := server.execute state (.transaction
      [[arg "INCRBY", arg key, arg (toString by_.toInt)],
        [arg "PEXPIRE", arg key, arg (toString millis.toInt)]]) choice
    Refuses view state outcome ∨ ∃ current next expired,
      (view state key).getD (countBytes 0) = countBytes current ∧
        current.toInt + by_.toInt = next.toInt ∧
        Sets view state key (some (countBytes next)) (· = .array [.int next, .int expired]) outcome
  eval : ∀ state, ∀ script ∈ [Script.claim, Script.compareAndSet], ∀ (key : String) args choice,
    let outcome := server.execute state (.command
      (arg "EVAL" :: arg script.text :: arg "1" :: arg key :: args)) choice
    Refuses view state outcome ∨ ∃ choices reply,
      script.run server (arg key) args none state choices = some (outcome.1, reply) ∧
        (outcome.2 = reply ∨
          (∃ err, reply = .error err) ∧ ∃ text, outcome.2 = .error (.server text))
  drift : ∀ state change, ∃ keys,
    List.foldl Store.expire (view state) keys = view (server.drift state change)

/-- The documented conversions of the client library. -/
structure Client.Documented (client : Client) : Prop where
  nil : client.bytes .nil = .ok none
  bulk : ∀ bytes, client.bytes (.bulk bytes) = .ok (some bytes)
  status : ∀ text, client.string (.status text) = .ok text
  int : ∀ value, client.integer (.int value) = .ok value
  ints : ∀ first second, client.integers (.array [.int first, .int second]) = .ok (first, second)

end Documented

end FusionPipeline.Dragonfly
