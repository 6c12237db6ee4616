import FusionPipeline.KeyHash

/-! The `edit` stage: plain field edits, an ordered list of ops run on one record. -/

namespace FusionPipeline

inductive EditOp where
  | set
  | rename
  | copy
  | hash
  | delete
  deriving DecidableEq, Repr

namespace EditOp

def all : List EditOp :=
  [set, rename, copy, hash, delete]

def asStr : EditOp → String
  | set => "set"
  | rename => "rename"
  | copy => "copy"
  | hash => "hash"
  | delete => "delete"

def oneOf : String :=
  "`set`, `rename`, `copy`, `hash` or `delete`"

def parse (name : String) : Option EditOp :=
  all.find? fun op => op.asStr == name

end EditOp

inductive EditCause where
  | absent
  | type
  deriving DecidableEq, Repr

inductive OnUnapplied where
  | skip
  | drop
  deriving DecidableEq, Repr

structure SetParams where
  field : String
  value : Json

structure MoveParams where
  from_ : String
  to_ : String

structure HashParams where
  field : String

structure DeleteParams where
  fields : List String

structure EditParams where
  set : Json → Except String SetParams
  move : Json → Except String MoveParams
  hash : Json → Except String HashParams
  delete : Json → Except String DeleteParams

structure EditNode where
  ops : List (List (String × Json))
  onUnapplied : OnUnapplied

structure Labelled (Path : Type) where
  path : Path
  label : String

structure Unapplied where
  field : String
  cause : EditCause
  deriving DecidableEq

def Labelled.unapplied {Path : Type} (labelled : Labelled Path) (cause : EditCause) : Unapplied :=
  ⟨labelled.label, cause⟩

def Labelled.ofField (path : FieldPath) : Labelled FieldPath :=
  ⟨path, String.ofList path.display⟩

def Labelled.ofWrite (written : WritePath) : Labelled WritePath :=
  ⟨written, String.ofList written.path.display⟩

inductive Op where
  | set (field : WritePath) (value : Json)
  | rename (from_ : Labelled WritePath) (to_ : WritePath)
  | copy (from_ : Labelled FieldPath) (to_ : WritePath)
  | hash (field : Labelled WritePath)
  | delete (fields : List WritePath)

structure Edit where
  ops : List Op
  onUnapplied : OnUnapplied

section Load

structure Edit.At where
  node : NodeConfig
  index : Nat
  kind : Option EditOp

namespace Edit.At

def error (at_ : Edit.At) (message : String) : Fault ConfigError :=
  match at_.kind with
  | some kind =>
      .error (at_.node.invalidParams
        ("op " ++ toString at_.index ++ " (`" ++ kind.asStr ++ "`): " ++ message))
  | none => .error (at_.node.invalidParams ("op " ++ toString at_.index ++ ": " ++ message))

def path (at_ : Edit.At) (key text : String) : Except (Fault ConfigError) FieldPath :=
  match FieldPath.parse text with
  | .ok path => .ok path
  | .error (.error e) => .error (at_.error ("`" ++ key ++ "`: " ++ e.text))
  | .error .panic => .error .panic

def writable (at_ : Edit.At) (key : String) (path : FieldPath) : Except (Fault ConfigError) WritePath :=
  path.writable.mapError fun e => at_.error ("`" ++ key ++ "`: " ++ e.text)

def target (at_ : Edit.At) (key text : String) : Except (Fault ConfigError) WritePath := do
  let path ← at_.path key text
  at_.writable key path

def params {Params : Type} (at_ : Edit.At) (read : Except String Params) :
    Except (Fault ConfigError) Params :=
  read.mapError at_.error

end Edit.At

def parseMove (at_ : Edit.At) (kind : EditOp) (p : MoveParams) : Except (Fault ConfigError) Op := do
  let to_ ← at_.target "to" p.to_
  let from_ ← at_.path "from" p.from_
  if from_ = to_.path then throw (at_.error "`from` and `to` are the same field")
  if kind = .rename then
    let from_ ← at_.writable "from" from_
    return .rename (.ofWrite from_) to_
  else
    return .copy (.ofField from_) to_

def parseOp (params : EditParams) (node : NodeConfig) (index : Nat)
    (entry : List (String × Json)) : Except (Fault ConfigError) Op :=
  let at_ : Edit.At := ⟨node, index, none⟩
  match entry with
  | [(name, body)] =>
      match EditOp.parse name with
      | none => .error (at_.error ("unknown op `" ++ name ++ "`; use " ++ EditOp.oneOf))
      | some kind =>
          let at_ := { at_ with kind := some kind }
          match kind with
          | .set => do
              let p ← at_.params (params.set body)
              match p.value with
              | .array _ => throw (at_.error "`value` must be a string, number, bool or null")
              | .object _ => throw (at_.error "`value` must be a string, number, bool or null")
              | value => return .set (← at_.target "field" p.field) value
          | .rename => do parseMove at_ kind (← at_.params (params.move body))
          | .copy => do parseMove at_ kind (← at_.params (params.move body))
          | .hash => do
              let p ← at_.params (params.hash body)
              return .hash (.ofWrite (← at_.target "field" p.field))
          | .delete => do
              let p ← at_.params (params.delete body)
              if p.fields.isEmpty then throw (at_.error "`fields` needs at least one field path")
              return .delete (← p.fields.mapM (at_.target "fields"))
  | _ => .error (at_.error ("one op per entry, one of " ++ EditOp.oneOf))

def Edit.fromNode (params : EditParams) (node : NodeConfig)
    (parsed : Except ConfigError EditNode) : Except (Fault ConfigError) Edit := do
  let read ← (parsed.mapError Fault.error : Except (Fault ConfigError) EditNode)
  if read.ops.isEmpty then throw (.error (node.invalidParams "`ops` needs at least one op"))
  let ops ← read.ops.zipIdx.mapM fun (entry, index) => parseOp params node index entry
  return ⟨ops, read.onUnapplied⟩

end Load

section Apply

def Number.ofI64 (value : Int64) : Number :=
  if negative : value < 0 then .negInt value negative else .posInt value.toUInt64

theorem Number.ofI64_ofNat {value : UInt64} (small : value.toNat < 2 ^ 63) :
    ofI64 (Int64.ofNat value.toNat) = posInt value := by
  have same : (Int64.ofNat value.toNat).toInt = value.toNat := Int64.toInt_ofNat_of_lt small
  have positive : ¬ Int64.ofNat value.toNat < 0 := by
    rw [Int64.lt_iff_toInt_lt, same]
    exact Int.not_lt.mpr (Int.natCast_nonneg _)
  rw [ofI64, dif_neg positive, Int64.toUInt64_ofNat', UInt64.ofNat_toNat]

def Number.ofF64 (value : F64) : Option Number :=
  if finite : value.isFinite = true then some (.float value finite) else none

/-- A read value as an owned JSON value, none when it read as null or cannot be one. -/
def owned : FieldValue → Option Json
  | .null => none
  | .bool value => some (.bool value)
  | .str value => some (.string value)
  | .num (.int value) =>
      if -2 ^ 63 ≤ value ∧ value < 2 ^ 63 then some (.number (.ofI64 (Int64.ofInt value)))
      else if 0 ≤ value ∧ value < 2 ^ 64 then some (.number (.posInt (UInt64.ofNat value.toNat)))
      else none
  | .num (.float value) => (Number.ofF64 value).map .number
  | .json value => some value

variable (sha256Hex : List Char → String) (writers : Writers)

def Op.apply (op : Op) (record : Record) (recordMeta : Meta) : Except Unapplied Unit × Record :=
  match op with
  | .set field value => (.ok (), field.write record value)
  | .rename from_ to_ =>
      match owned (from_.path.read record) with
      | none => (.error (from_.unapplied .absent), record)
      | some value =>
          let (_, record) := from_.path.remove record
          (.ok (), to_.write record value)
  | .copy from_ to_ =>
      match owned (from_.path.read record recordMeta) with
      | none => (.error (from_.unapplied .absent), record)
      | some value => (.ok (), to_.write record value)
  | .hash field =>
      match field.path.read record with
      | .null => (.error (field.unapplied .absent), record)
      | .str text => (.ok (), field.path.write record (.string (sha256Hex text.toList)))
      | .json _ => (.error (field.unapplied .type), record)
      | value =>
          (.ok (), field.path.write record (.string (sha256Hex (writeCanonical writers value))))
  | .delete fields => (.ok (), fields.foldl (fun record field => (field.remove record).2) record)

/-- The ops in order, to the first unapplied one where the node drops. -/
def Edit.run (onUnapplied : OnUnapplied) (recordMeta : Meta) : List Op → Record → StageOutput
  | [], record => .pass record
  | op :: rest, record =>
      match op.apply sha256Hex writers record recordMeta with
      | (.ok _, record) => Edit.run onUnapplied recordMeta rest record
      | (.error _, record) =>
          if onUnapplied = .drop then .drop .editUnapplied
          else Edit.run onUnapplied recordMeta rest record

def Edit.process (edit : Edit) (record : Record) (context : Context) : StageOutput :=
  Edit.run sha256Hex writers edit.onUnapplied context.recordMeta edit.ops record

end Apply

end FusionPipeline
