import FusionPipeline.Library.RequestReply
import FusionPipeline.StateStore
import Mathlib.Data.List.Infix

/-! The state store over the Redis protocol: one connection for each worker. -/

namespace FusionPipeline.Dragonfly

open Interleaving

inductive RedisValue where
  | nil
  | bulk (bytes : Value)
  | status (text : String)
  | int (value : Int64)
  | array (items : List RedisValue)

inductive RedisError where
  | server (text : String)
  | connection (text : String)
  | unexpected (text : String)

def RedisError.text : RedisError → String
  | server text => text
  | connection text => text
  | unexpected text => text

abbrev Reply := Except RedisError RedisValue

/-- What is sent at once and answered with one reply. -/
inductive Request where
  | command (args : List Value)
  | transaction (commands : List (List Value))

structure Client where
  bytes : RedisValue → Except RedisError (Option Value)
  string : RedisValue → Except RedisError String
  integer : RedisValue → Except RedisError Int64
  integers : RedisValue → Except RedisError (Int64 × Int64)

def arg (text : String) : Value :=
  text.toUTF8

/-- The claim as one `EVAL`, for servers that refuse `SET ... NX ... GET`. -/
def claimScript : String :=
  "local v = redis.call('GET', KEYS[1]) if v then return v end redis.call('SET', KEYS[1], ARGV[1], 'PX', ARGV[2]) return false"

def compareAndSetScript : String :=
  "local v = redis.call('GET', KEYS[1]) if v == false or v == ARGV[1] then redis.call('SET', KEYS[1], ARGV[2], 'PX', ARGV[3]) return false end return v"

def ttlMillis (ttl : Duration) : Int64 :=
  let millis := ttl.nanos / 1000000
  max (if millis < 2 ^ 63 then Int64.ofNat millis else Int64.maxValue) 1

/-- Whether the server refuses the command's syntax rather than failing to run it. -/
def refusedSyntax : RedisError → Bool
  | .server text => decide ("syntax".toList <:+: text.toList.map Char.toLower)
  | _ => false

/-- Whether a reply may still be in flight, which would answer the next command. -/
def isConnectionFault : RedisError → Bool
  | .connection _ => true
  | _ => false

def existingFrom (client : Client) : RedisValue → Except RedisError (Option Value)
  | .nil => .ok none
  | other => client.bytes other

abbrev Op (Answer : Type) := Program Request (fun _ => Reply) (Bool × Except RedisError Answer)

namespace DragonflyStore

section Operations

variable (client : Client) (claimWithSetGet : Bool)

def setNx (key : String) (value : Value) (ttl : Duration) : Op (Option Value) :=
  let millis := arg (toString (ttlMillis ttl).toInt)
  let eval (claimWithSetGet : Bool) : Op (Option Value) :=
    .call (.command [arg "EVAL", arg claimScript, arg "1", arg key, value, millis]) fun reply =>
      .done (claimWithSetGet, reply >>= existingFrom client)
  if claimWithSetGet then
    .call (.command [arg "SET", arg key, value, arg "NX", arg "PX", millis, arg "GET"]) fun
      | .ok reply => .done (claimWithSetGet, existingFrom client reply)
      | .error err => if refusedSyntax err then eval false else .done (claimWithSetGet, .error err)
  else eval claimWithSetGet

def set (key : String) (value : Value) (ttl : Duration) : Op Unit :=
  let millis := arg (toString (ttlMillis ttl).toInt)
  .call (.command [arg "SET", arg key, value, arg "PX", millis]) fun reply =>
    .done (claimWithSetGet, (reply >>= client.string).map fun _ => ())

def compareAndSet (key : String) (expected value : Value) (ttl : Duration) : Op (Option Value) :=
  let millis := arg (toString (ttlMillis ttl).toInt)
  .call (.command [arg "EVAL", arg compareAndSetScript, arg "1", arg key, expected, value, millis])
    fun reply => .done (claimWithSetGet, reply >>= existingFrom client)

def get (key : String) : Op (Option Value) :=
  .call (.command [arg "GET", arg key]) fun reply => .done (claimWithSetGet, reply >>= client.bytes)

def incr (key : String) (by_ : Int64) (ttl : Duration) : Op Int64 :=
  let millis := arg (toString (ttlMillis ttl).toInt)
  .call (.transaction [[arg "INCRBY", arg key, arg (toString by_.toInt)],
      [arg "PEXPIRE", arg key, millis]]) fun reply =>
    .done (claimWithSetGet, (reply >>= client.integers).map Prod.fst)

def del (key : String) : Op Unit :=
  .call (.command [arg "DEL", arg key]) fun reply =>
    .done (claimWithSetGet, (reply >>= client.integer).map fun _ => ())

def op : (request : StoreOp) → Op request.Answer
  | .call (.setNx key value ttl) => setNx client claimWithSetGet key value ttl
  | .call (.compareAndSet key expected value ttl) =>
      compareAndSet client claimWithSetGet key expected value ttl
  | .set key value ttl => set client claimWithSetGet key value ttl
  | .get key => get client claimWithSetGet key
  | .incr key by_ ttl => incr client claimWithSetGet key by_ ttl
  | .del key => del client claimWithSetGet key

end Operations

structure Failed where
  error : StateError
  dropped : Bool

structure Returned where
  claimWithSetGet : Bool
  request : StoreOp
  result : Except Failed request.Answer

def Returned.outcome (returned : Returned) : (request : StoreOp) × request.Reply :=
  ⟨returned.request, returned.result.mapError Failed.error⟩

def Returned.dropped (returned : Returned) : Bool :=
  match returned.result with
  | .ok _ => false
  | .error failed => failed.dropped

def finished (url : String) (request : StoreOp) (claimWithSetGet : Bool) :
    Except RedisError request.Answer → Returned
  | .ok value => ⟨claimWithSetGet, request, .ok value⟩
  | .error err =>
      ⟨claimWithSetGet, request,
        .error ⟨⟨"state store at " ++ url ++ ": " ++ err.text⟩, isConnectionFault err⟩⟩

def withConnection (client : Client) (url : String) (claimWithSetGet : Bool) (request : StoreOp) :
    Program Request (fun _ => Reply) Returned :=
  (op client claimWithSetGet request).bind fun result => .done (finished url request result.1 result.2)

end DragonflyStore

structure Server (State Choice Drift : Type) where
  execute : State → Request → Choice → State × Reply
  drift : State → Drift → State

open DragonflyStore RequestReply

def stores {State Choice Drift : Type} (server : Server State Choice Drift) (client : Client)
    (url : String) : System State Bool StoreOp Request Reply Returned Choice Drift String where
  start := withConnection client url
  answer := server.execute
  drift := server.drift
  failed text := .error (.connection text)
  unreachable text claimWithSetGet request :=
    ⟨claimWithSetGet, request,
      .error ⟨⟨"could not connect to the state store at " ++ url ++ ": " ++ text⟩, true⟩⟩
  drops := Returned.dropped
  remember _ returned := returned.claimWithSetGet

def unopened {State : Type} (server : State) (evalClaim : Bool) :
    World State Bool StoreOp Request Reply Returned :=
  World.initial server fun _ => !evalClaim

end FusionPipeline.Dragonfly
