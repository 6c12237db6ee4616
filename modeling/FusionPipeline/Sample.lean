import FusionPipeline.KeyHash
import FusionPipeline.Stage
import FusionPipeline.StateStore

/-! `sample`: keep a share of the records, drop the rest. -/

namespace FusionPipeline

open Interleaving

structure Share where
  threshold : UInt64
  deriving DecidableEq, Repr

def Share.keeps (share : Share) (hash : UInt64) : Bool :=
  decide (hash ≤ share.threshold)

/-- One in how many is kept, as the store counts: at least one. -/
structure Nth where
  n : Int64
  positive : 1 ≤ n.toInt

inductive SampleMode where
  | random (share : Share) (salt : UInt64)
  | everyNth (nth : Nth) (onStateError : StateErrorPolicy)
  | consistent (share : Share) (writers : Writers) (key : List FieldPath)

structure Sample where
  mode : SampleMode

namespace Sample

def countKey : String := "sample:count"

def countTtl : Duration :=
  ⟨24 * 60 * 60 * 1000000000⟩

def verdict (record : Record) (keep : Bool) : StageOutput :=
  if keep then .pass record else .drop .sample

def process (sample : Sample) (record : Record) (context : Context) :
    Program StoreOp StoreOp.Reply StageOutput :=
  match sample.mode with
  | .random share salt =>
      .done (verdict record (share.keeps (mix (context.recordMeta.recordId.value ^^^ salt))))
  | .everyNth nth _ =>
      (context.state.incr countKey 1 countTtl).bind fun counted =>
        match counted with
        | .ok count => .done (verdict record (decide ((count - 1).toInt % nth.n.toInt = 0)))
        | .error error => .done (.stateError record error)
  | .consistent share writers key =>
      .done (verdict record (share.keeps (mix (hashKeyFields writers key record context.recordMeta))))

def usesState (sample : Sample) : Bool :=
  match sample.mode with
  | .everyNth _ _ => true
  | _ => false

def onStateError (sample : Sample) : StateErrorPolicy :=
  match sample.mode with
  | .everyNth _ onStateError => onStateError
  | _ => .pass

end Sample

end FusionPipeline
