import FusionPipeline.Meta
import FusionPipeline.State

/-! The stage contract: one record in, one output out. -/

namespace FusionPipeline

inductive DropReason where
  | filter
  | routeDefaultDrop
  | sample
  | dedupe
  | luaDrop
  | luaError
  | regexLimit
  | stateError
  | invalidRecord
  | missingId
  | editUnapplied
  deriving DecidableEq, Repr

structure StageError where
  message : String
  deriving DecidableEq, Repr

inductive StageOutput where
  | pass (record : Record)
  | drop (reason : DropReason)
  | routed (label : String) (record : Record)
  | split (records : List Record)
  | error (error : StageError)
  | stateError (record : Record) (error : StateError)

structure Context where
  nodeId : String
  recordMeta : Meta
  state : State

end FusionPipeline
