import FusionPipeline.PathReads
import FusionPipeline.Trace

/-! Key fields: the paths a stage groups records by, and one hash of their values. -/

namespace FusionPipeline

/-- The libraries' writers: a float as its debug text, a string and a value as JSON text, if they
give one. -/
structure Writers where
  float : F64 → List Char
  string : String → Option (List Char)
  value : Json → Option (List Char)

def writeCanonical (writers : Writers) : FieldValue → List Char
  | .null => "null".toList
  | .bool value => if value then "true".toList else "false".toList
  | .num (.int value) => (toString value).toList
  | .num (.float value) => writers.float value
  | .str value => (writers.string value).getD []
  | .json value => (writers.value value).getD []

def canonical (writers : Writers) (fields : List FieldPath) (record : Record) (recordMeta : Meta) :
    List Char :=
  let texts := fields.map fun path => writeCanonical writers (path.read record recordMeta)
  '[' :: ([','].intercalate texts ++ [']'])

def hashKeyFields (writers : Writers) (fields : List FieldPath) (record : Record)
    (recordMeta : Meta) : UInt64 :=
  fnv1a64 (String.ofList (canonical writers fields record recordMeta)).toUTF8

end FusionPipeline
