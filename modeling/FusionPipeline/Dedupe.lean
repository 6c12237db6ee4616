import FusionPipeline.Stage

/-! `dedupe`: suppress repeats of a record, keyed on chosen fields, inside a window. -/

namespace FusionPipeline

open Interleaving

structure Holder where
  id : RecordId
  ingestionTime : UInt64
  deriving DecidableEq, Repr

inductive Verdict where
  | sameRecord
  | olderThanHolder
  | repeated
  | windowOver
  | unreadable
  deriving DecidableEq, Repr

def Verdict.settle (verdict : Verdict) (record : Record) : StageOutput :=
  match verdict with
  | .repeated => .drop .dedupe
  | .sameRecord | .olderThanHolder | .unreadable | .windowOver => .pass record

structure Window where
  duration : Duration
  positive : 1000000 ≤ duration.nanos

def windowNanos (window : Duration) : UInt64 :=
  UInt64.ofNat (min window.nanos (2 ^ 64 - 1))

namespace Holder

def text (holder : Holder) : String :=
  holder.id.text ++ " " ++ toString holder.ingestionTime.toNat

def toBytes (holder : Holder) : Value :=
  holder.text.toUTF8

def parse (value : Value) : Option Holder := do
  let text ← String.fromUTF8? value
  let (id, ingestionTime) ← Text.splitOnce ' ' text
  let id ← Text.parseU64 id
  let ingestionTime ← Text.parseU64 ingestionTime
  return ⟨⟨id⟩, ingestionTime⟩

def against (incoming holder : Holder) (window : Duration) : Verdict :=
  if incoming.id = holder.id then .sameRecord
  else if incoming.ingestionTime < holder.ingestionTime then .olderThanHolder
  else if incoming.ingestionTime - holder.ingestionTime < windowNanos window then .repeated
  else .windowOver

def againstValue (incoming : Holder) (value : Value) (window : Duration) : Verdict :=
  match parse value with
  | none => .unreadable
  | some holder => incoming.against holder window

end Holder

structure Dedupe where
  hashKeyFields : Record → Meta → UInt64
  window : Window
  onStateError : StateErrorPolicy

def takeoverAttempts : Nat := 2

namespace Dedupe

def stateKey (dedupe : Dedupe) (record : Record) (recordMeta : Meta) : String :=
  "dedupe:" ++ Text.hexPadded 16 (dedupe.hashKeyFields record recordMeta).toNat

def usesState (_ : Dedupe) : Bool := true

def takeover (dedupe : Dedupe) (state : State) (key : String) (incoming : Holder)
    (record : Record) : Nat → Value → StoreProgram StageOutput
  | 0, _ => .done (Verdict.windowOver.settle record)
  | attempts + 1, holder =>
      let verdict := incoming.againstValue holder dedupe.window.duration
      if verdict ≠ .windowOver then .done (verdict.settle record)
      else
        (state.compareAndSet key holder incoming.toBytes dedupe.window.duration).bind fun taken =>
          match taken with
          | .ok none => .done (.pass record)
          | .ok (some current) => takeover dedupe state key incoming record attempts current
          | .error error => .done (.stateError record error)

def process (dedupe : Dedupe) (record : Record) (context : Context) : StoreProgram StageOutput :=
  let incoming : Holder :=
    ⟨context.recordMeta.recordId, context.recordMeta.ingestionTime.unixNanos⟩
  let key := dedupe.stateKey record context.recordMeta
  (context.state.setNx key incoming.toBytes dedupe.window.duration).bind fun claimed =>
    match claimed with
    | .error error => .done (.stateError record error)
    | .ok none => .done (.pass record)
    | .ok (some existing) =>
        dedupe.takeover context.state key incoming record takeoverAttempts existing

end Dedupe

theorem holder_text_split (holder : Holder) :
    Text.splitOnce ' ' holder.text =
      some (holder.id.text, toString holder.ingestionTime.toNat) := by
  rw [Text.splitOnce_some_iff]
  refine ⟨?_, ?_⟩
  · simp [Holder.text, String.toList_append]
  · exact Text.not_mem_repr (by decide)

theorem parse_toBytes (holder : Holder) : Holder.parse holder.toBytes = some holder := by
  simp [Holder.parse, Holder.toBytes, holder_text_split, RecordId.text]

theorem againstValue_toBytes (incoming holder : Holder) (window : Duration) :
    incoming.againstValue holder.toBytes window = incoming.against holder window := by
  simp [Holder.againstValue, parse_toBytes]

theorem windowNanos_toNat (window : Duration) :
    (windowNanos window).toNat = min window.nanos (2 ^ 64 - 1) := by
  rw [windowNanos, UInt64.toNat_ofNat_of_lt' (by simp [UInt64.size])]

theorem windowNanos_pos (window : Window) : 0 < (windowNanos window.duration).toNat := by
  have positive := window.positive
  rw [windowNanos_toNat]
  omega

theorem against_repeated_iff (incoming holder : Holder) (window : Duration) :
    incoming.against holder window = .repeated ↔
      incoming.id ≠ holder.id ∧
      holder.ingestionTime.toNat ≤ incoming.ingestionTime.toNat ∧
      incoming.ingestionTime.toNat < holder.ingestionTime.toNat + (windowNanos window).toNat := by
  simp only [Holder.against, UInt64.lt_iff_toNat_lt]
  split
  next same => simp [same]
  next different =>
    split
    next older => simp; omega
    next notOlder =>
      have difference : (incoming.ingestionTime - holder.ingestionTime).toNat =
          incoming.ingestionTime.toNat - holder.ingestionTime.toNat :=
        UInt64.toNat_sub_of_le _ _ (UInt64.le_iff_toNat_le.mpr (by omega))
      rw [difference]
      split
      next inside => simp [different]; omega
      next outside => simp; omega

theorem against_windowOver_iff (incoming holder : Holder) (window : Duration) :
    incoming.against holder window = .windowOver ↔
      incoming.id ≠ holder.id ∧
      holder.ingestionTime.toNat + (windowNanos window).toNat ≤ incoming.ingestionTime.toNat := by
  simp only [Holder.against, UInt64.lt_iff_toNat_lt]
  split
  next same => simp [same]
  next different =>
    split
    next older => simp; omega
    next notOlder =>
      have difference : (incoming.ingestionTime - holder.ingestionTime).toNat =
          incoming.ingestionTime.toNat - holder.ingestionTime.toNat :=
        UInt64.toNat_sub_of_le _ _ (UInt64.le_iff_toNat_le.mpr (by omega))
      rw [difference]
      split
      next inside => simp; omega
      next outside => simp [different]; omega

theorem settle_drop_iff (verdict : Verdict) (record : Record) (reason : DropReason) :
    verdict.settle record = .drop reason ↔ verdict = .repeated ∧ reason = .dedupe := by
  cases verdict <;> simp [Verdict.settle, eq_comm]

end FusionPipeline
