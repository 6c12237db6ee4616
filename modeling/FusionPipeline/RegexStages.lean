import FusionPipeline.PathReads
import FusionPipeline.RegexCaptures

/-! The stages that write what a pattern finds back into the record: `redact` and `extract`. -/

namespace FusionPipeline

def writeString (record : Record) (written : WritePath × List Char) : Record :=
  written.1.write record (.string (String.ofList written.2))

def writeStrings (record : Record) (writes : List (WritePath × List Char)) : Record :=
  writes.foldl writeString record

structure Redact where
  fields : List WritePath
  regex : Regex
  replace : List Char

namespace Redact

def rewrites (redact : Redact) (record : Record) :
    List WritePath → Except (Fault MatchError) (List (WritePath × List Char))
  | [] => .ok []
  | path :: rest =>
      match path.read record with
      | .str text =>
          match redact.regex.replaceAll text.toList redact.replace with
          | .ok (some masked) => (redact.rewrites record rest).map ((path, masked) :: ·)
          | .ok none => redact.rewrites record rest
          | .error fault => .error fault
      | _ => redact.rewrites record rest

def process (redact : Redact) (record : Record) (context : Context) :
    Except Regex.Panic (StageOutput × Record) :=
  match redact.rewrites record redact.fields with
  | .error .panic => .error .slice
  | .error (.error error) => .ok (matchFailure context.nodeId error, record)
  | .ok rewrites =>
      if rewrites.isEmpty then .ok (.pass record, record)
      else
        let record := writeStrings record rewrites
        .ok (.pass record, record)

end Redact

structure Extract where
  field : FieldPath
  regex : Regex
  targets : List (String × WritePath)

namespace Extract

def targetsOf (regex : Regex) (into : WritePath) : List (String × WritePath) :=
  (regex.names.filterMap id).map fun name => (name, into.child name)

def extracted (extract : Extract) (caps : Captures) : List (WritePath × List Char) :=
  extract.targets.filterMap fun (name, path) => (caps.name name).map (path, ·)

def process (extract : Extract) (record : Record) (context : Context) : StageOutput :=
  match extract.field.read record context.recordMeta with
  | .str haystack =>
      match extract.regex.captures haystack.toList with
      | .ok (some caps) => .pass (writeStrings record (extract.extracted caps))
      | .ok none => .pass record
      | .error error => matchFailure context.nodeId error
  | _ => .pass record

end Extract

end FusionPipeline
