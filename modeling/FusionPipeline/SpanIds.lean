import FusionPipeline.HashMixing

/-! Span ids do not collide: what a trace's ids tell apart. -/

namespace FusionPipeline

namespace TraceKey

/-- The id of a span before zero, which no span may have, is taken to one. -/
def unmapped (key : TraceKey) (deliveryCount : UInt64) (visit : UInt32) : UInt64 :=
  mix (key.key ^^^ mix ((deliveryCount <<< 32) ^^^ visit.toUInt64 ^^^ spanSalt))

theorem spanId_unmapped (key : TraceKey) (deliveryCount : UInt64) (visit : UInt32) :
    key.spanId deliveryCount visit =
      ⟨if key.unmapped deliveryCount visit = 0 then 1 else key.unmapped deliveryCount visit⟩ := by
  rfl

theorem position_halves {deliveryCount : UInt64} (small : deliveryCount.toNat < 2 ^ 32)
    (visit : UInt32) :
    ((deliveryCount <<< 32) ^^^ visit.toUInt64).toNat / 2 ^ 32 = deliveryCount.toNat ∧
      ((deliveryCount <<< 32) ^^^ visit.toUInt64).toNat % 2 ^ 32 = visit.toNat := by
  have low : visit.toNat < 2 ^ 32 := visit.toNat_lt
  have shifted : (deliveryCount <<< 32).toNat = deliveryCount.toNat * 2 ^ 32 := by
    rw [UInt64.toNat_shiftLeft, Nat.shiftLeft_eq]
    change deliveryCount.toNat * 2 ^ 32 % 2 ^ 64 = _
    exact Nat.mod_eq_of_lt (by omega)
  rw [UInt64.toNat_xor, shifted, UInt32.toNat_toUInt64]
  constructor
  · rw [Nat.xor_div_two_pow, Nat.mul_div_cancel _ (by decide), Nat.div_eq_of_lt low, Nat.xor_zero]
  · rw [Nat.xor_mod_two_pow, Nat.mul_mod_left, Nat.mod_eq_of_lt low, Nat.zero_xor]

theorem unmapped_injective (key : TraceKey) {deliveryCount other : UInt64} {visit more : UInt32}
    (small : deliveryCount.toNat < 2 ^ 32) (small' : other.toNat < 2 ^ 32)
    (same : key.unmapped deliveryCount visit = key.unmapped other more) :
    deliveryCount = other ∧ visit = more := by
  have keyed : Function.Injective fun word : UInt64 => key.key ^^^ word := by
    intro word other same
    have swapped : word ^^^ key.key = other ^^^ key.key := by
      rw [UInt64.xor_comm word, UInt64.xor_comm other]
      exact same
    exact Mixing.xor64_injective key.key swapped
  have positions := Mixing.xor64_injective spanSalt (mix_injective (keyed (mix_injective same)))
  obtain ⟨upper, lower⟩ := position_halves small visit
  obtain ⟨upper', lower'⟩ := position_halves small' more
  rw [positions] at upper lower
  exact ⟨UInt64.toNat_inj.mp (upper.symm.trans upper'), UInt32.toNat_inj.mp (lower.symm.trans lower')⟩

/-- The one clash: one of the two ids is zero, taken to one, and the other is one. -/
def Remapped (key : TraceKey) (deliveryCount : UInt64) (visit : UInt32) (other : UInt64)
    (more : UInt32) : Prop :=
  (key.unmapped deliveryCount visit = 0 ∧ key.unmapped other more = 1) ∨
    (key.unmapped deliveryCount visit = 1 ∧ key.unmapped other more = 0)

theorem spanId_ne_zero (key : TraceKey) (deliveryCount : UInt64) (visit : UInt32) :
    (key.spanId deliveryCount visit).value ≠ 0 := by
  rw [spanId_unmapped]
  dsimp only
  split
  next => decide
  next differs => exact differs

theorem spanId_unique (key : TraceKey) {deliveryCount other : UInt64} {visit more : UInt32}
    (small : deliveryCount.toNat < 2 ^ 32) (small' : other.toNat < 2 ^ 32)
    (same : key.spanId deliveryCount visit = key.spanId other more) :
    (deliveryCount = other ∧ visit = more) ∨ key.Remapped deliveryCount visit other more := by
  rw [spanId_unmapped, spanId_unmapped] at same
  have ids := SpanId.mk.inj same
  by_cases zero : key.unmapped deliveryCount visit = 0
  · by_cases zero' : key.unmapped other more = 0
    · exact .inl (key.unmapped_injective small small' (zero.trans zero'.symm))
    · rw [if_pos zero, if_neg zero'] at ids
      exact .inr (.inl ⟨zero, ids.symm⟩)
  · by_cases zero' : key.unmapped other more = 0
    · rw [if_neg zero, if_pos zero'] at ids
      exact .inr (.inr ⟨ids, zero'⟩)
    · rw [if_neg zero, if_neg zero'] at ids
      exact .inl (key.unmapped_injective small small' ids)

end TraceKey

def RecordTrace.spanAt (trace : RecordTrace) : Option Nat → Option SpanId
  | none => some trace.spanId
  | some handle => trace.spans[handle]?.map NodeSpan.spanId

def visitAt (place : Option Nat) : UInt32 :=
  place.elim 0 visitOf

/-- A span that its visit tells from all others: no later one than the visits can count. -/
def Counted (place : Option Nat) : Prop :=
  ∀ handle, place = some handle → handle + 1 < 2 ^ 32

theorem visitOf_toNat {handle : Nat} (counted : handle + 1 < 2 ^ 32) :
    (visitOf handle).toNat = handle + 1 := by
  have least : min (handle + 1) (2 ^ 32 - 1) = handle + 1 := by omega
  rw [visitOf, least]
  exact UInt32.toNat_ofNat_of_lt' counted

theorem visitAt_injective {place other : Option Nat} (counted : Counted place)
    (counted' : Counted other) (same : visitAt place = visitAt other) : place = other := by
  have numbers := congrArg UInt32.toNat same
  cases place with
  | none => cases other with
    | none => rfl
    | some other =>
        rw [visitAt, visitAt, Option.elim_none, Option.elim_some, visitOf_toNat (counted' other rfl)] at numbers
        cases numbers
  | some handle => cases other with
    | none =>
        rw [visitAt, visitAt, Option.elim_some, Option.elim_none, visitOf_toNat (counted handle rfl)] at numbers
        cases numbers
    | some other =>
        rw [visitAt, visitAt, Option.elim_some, Option.elim_some, visitOf_toNat (counted handle rfl),
          visitOf_toNat (counted' other rfl)] at numbers
        rw [Nat.add_right_cancel numbers]

namespace TraceBuffer

variable (buffer : TraceBuffer) (key : TraceKey) (recordMeta : Meta) (settlement : Settlement)
  (now : Instant)

theorem finish_spanAt {place : Option Nat} {id : SpanId}
    (found : (buffer.finish key recordMeta settlement now).1.spanAt place = some id) :
    id = key.spanId recordMeta.deliveryCount (visitAt place) := by
  cases place with
  | none => exact (Option.some.inj found).symm
  | some handle =>
      obtain ⟨span, at_, rfl⟩ := Option.map_eq_some_iff.mp found
      rw [finish, List.getElem?_mapIdx] at at_
      obtain ⟨draft, _, rfl⟩ := Option.map_eq_some_iff.mp at_
      rfl

theorem finish_parent {handle : Nat} {span : NodeSpan} {draft : Draft}
    (found : (buffer.finish key recordMeta settlement now).1.spans[handle]? = some span)
    (drafted : buffer.drafts[handle]? = some draft) :
    span.parentSpanId = key.spanId recordMeta.deliveryCount (visitAt draft.parent) := by
  rw [finish, List.getElem?_mapIdx, drafted] at found
  obtain rfl := Option.some.inj found
  obtain ⟨node, parent, start, result, end_⟩ := draft
  cases parent with
  | none => rfl
  | some parent => rfl

end TraceBuffer

/-- Span ids are never zero, and below the counts of deliveries and visits they tell the spans of a
record's traces apart, but for one pair. A parent id is the id of the parent's span, and of no other. -/
theorem span_ids (key : TraceKey) :
    (∀ (deliveryCount other : UInt64) (visit more : UInt32), deliveryCount.toNat < 2 ^ 32 →
      other.toNat < 2 ^ 32 → (deliveryCount, visit) ≠ (other, more) →
        (key.spanId deliveryCount visit).value ≠ 0 ∧ (key.spanId other more).value ≠ 0 ∧
          (key.spanId deliveryCount visit = key.spanId other more →
            key.Remapped deliveryCount visit other more)) ∧
    (∀ (buffer later : TraceBuffer) (recordMeta laterMeta : Meta) (settlement again : Settlement)
      (now then_ : Instant) (place other : Option Nat) (id : SpanId),
      recordMeta.deliveryCount.toNat < 2 ^ 32 → laterMeta.deliveryCount.toNat < 2 ^ 32 →
        Counted place → Counted other →
          (buffer.finish key recordMeta settlement now).1.spanAt place = some id →
            (later.finish key laterMeta again then_).1.spanAt other = some id →
              (recordMeta.deliveryCount = laterMeta.deliveryCount ∧ place = other) ∨
                key.Remapped recordMeta.deliveryCount (visitAt place) laterMeta.deliveryCount
                  (visitAt other)) ∧
    ∀ (buffer : TraceBuffer) (recordMeta : Meta) (settlement : Settlement) (now : Instant)
      (handle : Nat) (span : NodeSpan) (draft : Draft),
      (buffer.finish key recordMeta settlement now).1.spans[handle]? = some span →
        buffer.drafts[handle]? = some draft →
          (∀ id, (buffer.finish key recordMeta settlement now).1.spanAt draft.parent = some id →
            id = span.parentSpanId) ∧
          ∀ (later : TraceBuffer) (laterMeta : Meta) (again : Settlement) (then_ : Instant)
            (place : Option Nat), recordMeta.deliveryCount.toNat < 2 ^ 32 →
              laterMeta.deliveryCount.toNat < 2 ^ 32 → Counted draft.parent → Counted place →
                (later.finish key laterMeta again then_).1.spanAt place = some span.parentSpanId →
                  (recordMeta.deliveryCount = laterMeta.deliveryCount ∧ draft.parent = place) ∨
                    key.Remapped recordMeta.deliveryCount (visitAt draft.parent)
                      laterMeta.deliveryCount (visitAt place) := by
  refine ⟨?_, ?_, ?_⟩
  · intro deliveryCount other visit more small small' differ
    refine ⟨key.spanId_ne_zero deliveryCount visit, key.spanId_ne_zero other more, ?_⟩
    intro same
    apply (key.spanId_unique small small' same).resolve_left
    rintro ⟨rfl, rfl⟩
    exact differ rfl
  · intro buffer later recordMeta laterMeta settlement again now then_ place other id small small'
      counted counted' found found'
    have first := buffer.finish_spanAt key recordMeta settlement now found
    have second := later.finish_spanAt key laterMeta again then_ found'
    refine (key.spanId_unique small small' (first.symm.trans second)).imp_left ?_
    rintro ⟨delivery, visits⟩
    exact ⟨delivery, visitAt_injective counted counted' visits⟩
  · intro buffer recordMeta settlement now handle span draft found drafted
    have first := buffer.finish_parent key recordMeta settlement now found drafted
    refine ⟨fun id named => (buffer.finish_spanAt key recordMeta settlement now named).trans first.symm, ?_⟩
    intro later laterMeta again then_ place small small' counted counted' named
    have second := later.finish_spanAt key laterMeta again then_ named
    refine (key.spanId_unique small small' (first.symm.trans second)).imp_left ?_
    rintro ⟨delivery, visits⟩
    exact ⟨delivery, visitAt_injective counted counted' visits⟩

/-- Past the visits that a `u32` counts, two nodes of one walk share a span id. -/
theorem span_ids_uncounted :
    ¬ ∀ (key : TraceKey) (buffer : TraceBuffer) (recordMeta : Meta) (settlement : Settlement)
      (now : Instant) (place other : Option Nat) (id : SpanId),
      recordMeta.deliveryCount.toNat < 2 ^ 32 →
        (buffer.finish key recordMeta settlement now).1.spanAt place = some id →
          (buffer.finish key recordMeta settlement now).1.spanAt other = some id → place ≠ other →
            key.Remapped recordMeta.deliveryCount (visitAt place) recordMeta.deliveryCount
              (visitAt other) := by
  intro all
  let draft : Draft := ⟨"n", none, 0, some .pass, 0⟩
  let buffer : TraceBuffer := ⟨true, 0, 0, List.replicate (2 ^ 32) draft, 2 ^ 32⟩
  let recordMeta : Meta := ⟨⟨0⟩, "t", .clock 0, 1⟩
  have spans {handle : Nat} (inside : handle < 2 ^ 32) :
      (buffer.finish ⟨0, 0⟩ recordMeta .ack 0).1.spanAt (some handle) =
        some (TraceKey.spanId ⟨0, 0⟩ 1 (visitOf handle)) := by
    rw [RecordTrace.spanAt, TraceBuffer.finish, List.getElem?_mapIdx, List.getElem?_replicate,
      if_pos inside]
    rfl
  have last : visitOf (2 ^ 32 - 2) = visitOf (2 ^ 32 - 1) := by decide
  have apart : some (2 ^ 32 - 2) ≠ some (2 ^ 32 - 1) := by
    intro same
    have numbers := Option.some.inj same
    omega
  have first := @spans (2 ^ 32 - 2) (by omega)
  have second := @spans (2 ^ 32 - 1) (by omega)
  rw [last] at first
  have clash := all ⟨0, 0⟩ buffer recordMeta .ack 0 (some (2 ^ 32 - 2)) (some (2 ^ 32 - 1)) _ (by decide)
    first second apart
  rw [visitAt, visitAt, Option.elim_some, Option.elim_some, last] at clash
  rcases clash with ⟨zero, one⟩ | ⟨one, zero⟩
  · rw [zero] at one
    cases one
  · rw [zero] at one
    cases one

end FusionPipeline
