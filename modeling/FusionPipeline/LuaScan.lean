import FusionPipeline.RegexScan
import FusionPipeline.Config
import FusionPipeline.State

/-!
The scan of a script's source for the names it uses as free identifiers, and the load of a
`lua` node that refuses a forbidden one.
-/

namespace FusionPipeline.Lua

open Regex (b Panic)

structure FreeName where
  text : List UInt8
  start : Nat
  line : Nat
  deriving DecidableEq, Repr

def isAsciiWhitespace (byte : UInt8) : Bool :=
  byte == b ' ' || byte == b '\t' || byte == b '\n' || byte == b '\r' || byte == 0x0C

def isAsciiDigit (byte : UInt8) : Bool :=
  b '0' ≤ byte && byte ≤ b '9'

def isAsciiAlphabetic (byte : UInt8) : Bool :=
  (b 'a' ≤ byte && byte ≤ b 'z') || (b 'A' ≤ byte && byte ≤ b 'Z')

def isAsciiAlphanumeric (byte : UInt8) : Bool :=
  isAsciiAlphabetic byte || isAsciiDigit byte

def isNumberPart (byte : UInt8) : Bool :=
  isAsciiAlphanumeric byte || byte == b '.'

def isNamePart (byte : UInt8) : Bool :=
  isAsciiAlphanumeric byte || byte == b '_'

def assigned (rest : List UInt8) : Bool :=
  let after := rest.dropWhile fun byte => isAsciiWhitespace byte && byte != b '\n'
  after[0]? == some (b '=') && after[1]? != some (b '=')

/-- How many bytes the close of a long bracket takes up, with what is before it, and the
newlines among them; to the end where there is none. -/
def closeLength (level : Nat) : List UInt8 → Nat × Nat
  | [] => (0, 0)
  | byte :: rest =>
      if byte = b ']' ∧ (rest.take level).all (· == b '=') ∧ rest[level]? = some (b ']') then
        (level + 2, 0)
      else
        let (length, newlines) := closeLength level rest
        (length + 1, newlines + if byte = b '\n' then 1 else 0)

def longBracket (rest : List UInt8) : Option (Nat × Nat) :=
  if rest[0]? = some (b '[') then
    let level := ((rest.drop 1).takeWhile (· == b '=')).length
    if rest[1 + level]? = some (b '[') then
      let (length, newlines) := closeLength level (rest.drop (2 + level))
      some (2 + level + length, newlines)
    else none
  else none

def quotedLength (quote : UInt8) : List UInt8 → Nat × Nat
  | [] => (0, 0)
  | byte :: rest =>
      if byte = quote then (0, 0)
      else if byte = b '\\' then
        match rest with
        | [] => (2, 0)
        | escaped :: more =>
            let (length, newlines) := quotedLength quote more
            (length + 2, newlines + if escaped = b '\n' then 1 else 0)
      else
        let (length, newlines) := quotedLength quote rest
        (length + 1, newlines + if byte = b '\n' then 1 else 0)

structure ScanState where
  names : List FreeName
  i : Nat
  line : Nat
  /-- The last byte that was not whitespace or a comment. -/
  previous : Option UInt8

def scanName (bytes : List UInt8) (state : ScanState) : Except Panic ScanState :=
  let stop := state.i + ((bytes.drop state.i).takeWhile isNamePart).length
  let field := state.previous == some (b '.') || state.previous == some (b ':')
  if !field && !assigned (bytes.drop stop) then
    (Regex.slice bytes state.i stop).map fun text =>
      { names := state.names ++ [⟨text, state.i, state.line⟩], i := stop, line := state.line,
        previous := some (b 'a') }
  else .ok { state with i := stop, previous := some (b 'a') }

def scanStep (bytes : List UInt8) (state : ScanState) : Except Panic ScanState :=
  match bytes.drop state.i with
  | [] => .ok state
  | byte :: after =>
      if byte = b '\n' then .ok { state with line := state.line + 1, i := state.i + 1 }
      else if isAsciiWhitespace byte then .ok { state with i := state.i + 1 }
      else if byte = b '-' ∧ after[0]? = some (b '-') then
        match longBracket (after.drop 1) with
        | some (length, newlines) =>
            .ok { state with line := state.line + newlines, i := state.i + 2 + length }
        | none =>
            let length := ((byte :: after).takeWhile (· != b '\n')).length
            .ok { state with i := state.i + length }
      else if byte = b '"' ∨ byte = b '\'' then
        let (length, newlines) := quotedLength byte after
        .ok { state with
          line := state.line + newlines, i := state.i + 1 + length + 1, previous := some byte }
      else
        match if byte = b '[' then longBracket (byte :: after) else none with
        | some (length, newlines) =>
            .ok { state with
              line := state.line + newlines, i := state.i + length, previous := some (b ']') }
        | none =>
            if isAsciiDigit byte then
              let length := ((byte :: after).takeWhile isNumberPart).length
              .ok { state with i := state.i + length, previous := some (b '0') }
            else if isAsciiAlphabetic byte ∨ byte = b '_' then scanName bytes state
            else .ok { state with previous := some byte, i := state.i + 1 }

def scan (bytes : List UInt8) (state : ScanState) : Except Panic ScanState :=
  Loop.run (fun state => state.i < bytes.length) (scanStep bytes) bytes.length state

def freeNames (source : String) : Except Panic (List FreeName) :=
  (scan (Utf8.bytes source) ⟨[], 0, 1, none⟩).map ScanState.names

def forbidden : List String :=
  ["os", "io", "package", "require", "load", "loadfile", "dofile", "loadstring", "debug", "print"]

def insteadOf (name : String) : Option String :=
  if name = "print" then some "log.info" else none

structure Script where
  chunkName : String
  source : String
  node : String
  instructions : Nat
  memoryBytes : Nat
  outputBytes : Nat

def Script.displayName (script : Script) : String :=
  String.ofList (script.chunkName.toList.dropWhile fun char => char == '@' || char == '=')

structure Limits where
  instructions : Nat
  memoryKib : Nat
  outputKib : Nat

inductive OnError where
  | pass
  | drop
  | nak
  deriving DecidableEq, Repr

structure Params where
  script : Option String
  source : Option String
  limits : Limits
  onError : OnError
  onStateError : Option StateErrorPolicy

def minMemoryKib : Nat :=
  64

def atLeast (node : NodeConfig) (name : String) (value min : Nat) : Except ConfigError Unit :=
  if value < min then
    .error (node.invalidParams ("`limits." ++ name ++ "` must be at least " ++ toString min))
  else .ok ()

structure Stage where
  script : Script
  onError : OnError
  onStateError : StateErrorPolicy
  usesState : Bool

def readSource (node : NodeConfig) (readToString : String → Except String String)
    (params : Params) : Except ConfigError (String × String) :=
  match params.script, params.source with
  | some path, none =>
      match readToString path with
      | .ok source => .ok ("@" ++ path, source)
      | .error e =>
          .error (node.invalidParams ("`script`: cannot read `" ++ path ++ "`: " ++ e))
  | none, some source => .ok ("=" ++ node.id, source)
  | none, none =>
      .error (node.invalidParams
        "give `script` (a file path) or `source` (the script inline)")
  | some _, some _ =>
      .error (node.invalidParams "`script` and `source` are alternatives; give one")

def checkNames (node : NodeConfig) (script : Script) : Bool → List FreeName → Except ConfigError Bool
  | usesState, [] => .ok usesState
  | usesState, name :: rest =>
      match forbidden.find? fun word => Utf8.bytes word == name.text with
      | some word =>
          let instead := match insteadOf word with
            | none => ""
            | some instead => "; use " ++ instead
          .error (node.invalidParams (script.displayName ++ ":" ++ toString name.line ++ ": `" ++
            word ++ "` is not available in the sandbox" ++ instead))
      | none => checkNames node script (usesState || name.text == Utf8.bytes "state") rest

section Load

/- The deserializer of a node's parameters, the file system, and the first run of a script in
a throwaway sandbox with the description of what went wrong in it. -/
variable (parseParams : NodeConfig → Except ConfigError Params)
  (readToString : String → Except String String) (newVm : Script → Except String Unit)

def readScript (node : NodeConfig) : Except ConfigError (Params × Script) := do
  let params ← parseParams node
  let (chunkName, source) ← readSource node readToString params
  atLeast node "instructions" params.limits.instructions 1
  atLeast node "memory_kib" params.limits.memoryKib minMemoryKib
  atLeast node "output_kib" params.limits.outputKib 1
  -- The byte counts are machine words and wrap.
  let script : Script :=
    { chunkName, source, node := node.id, instructions := params.limits.instructions
      memoryBytes := params.limits.memoryKib * 1024 % 2 ^ 64
      outputBytes := params.limits.outputKib * 1024 % 2 ^ 64 }
  return (params, script)

def checkScript (node : NodeConfig) (params : Params) (script : Script) (names : List FreeName) :
    Except ConfigError Stage := do
  let usesState ← checkNames node script false names
  if params.onStateError.isSome && !usesState then
    throw (node.invalidParams "`on_state_error` is given but the script never uses `state`")
  match newVm script with
  | .error message => throw (node.invalidParams message)
  | .ok () =>
      let onStateError := params.onStateError.getD .nak
      return { script, onError := params.onError, onStateError, usesState }

def fromNode (node : NodeConfig) : Except Panic (Except ConfigError Stage) :=
  match readScript parseParams readToString node with
  | .error error => .ok (.error error)
  | .ok (params, script) =>
      (freeNames script.source).map fun names => checkScript newVm node params script names

end Load

end FusionPipeline.Lua
