import FusionPipeline.Library.Mixing
import FusionPipeline.Sample

/-! The mixer loses nothing, so a share of the hashes is a share of the record ids. -/

namespace FusionPipeline

theorem mix_injective : Function.Injective mix := by
  have first := @Mixing.xorShift64_injective 30 (by decide)
  have second := @Mixing.multiply64_injective 0xbf58476d1ce4e5b9 0x96de1b173f119089 rfl
  have third := @Mixing.xorShift64_injective 27 (by decide)
  have fourth := @Mixing.multiply64_injective 0x94d049bb133111eb 0x319642b2d24d8ec3 rfl
  have last := @Mixing.xorShift64_injective 31 (by decide)
  exact last.comp (fourth.comp (third.comp (second.comp first)))

theorem mix_bijective : Function.Bijective mix :=
  Mixing.bijective_of_injective mix_injective

theorem mix_zero : mix 0 = 0 := by
  decide

theorem keeps_mono {low high : Share} (wider : low.threshold ≤ high.threshold) {hash : UInt64}
    (kept : low.keeps hash = true) : high.keeps hash = true := by
  rw [Share.keeps, decide_eq_true_eq] at kept ⊢
  exact UInt64.le_trans kept wider

namespace Sample

theorem verdict_pass {record : Record} {keep : Bool} :
    verdict record keep = .pass record ↔ keep = true := by
  cases keep with
  | true => exact ⟨fun _ => rfl, fun _ => rfl⟩
  | false => exact ⟨fun same => StageOutput.noConfusion same, fun same => Bool.noConfusion same⟩

theorem random_pass {share : Share} {salt : UInt64} {record : Record} {context : Context} :
    process ⟨.random share salt⟩ record context = .done (.pass record) ↔
      share.keeps (mix (context.recordMeta.recordId.value ^^^ salt)) = true := by
  change Interleaving.Program.done _ = Interleaving.Program.done _ ↔ _
  rw [Interleaving.Program.done.injEq, verdict_pass]

theorem random_ncard (share : Share) (salt : UInt64) (record : Record) (context : Context) :
    {id : RecordId | process ⟨.random share salt⟩ record
      { context with recordMeta := { context.recordMeta with recordId := id } } =
        .done (.pass record)}.ncard = share.threshold.toNat + 1 := by
  have kept : {id : RecordId | process ⟨.random share salt⟩ record
      { context with recordMeta := { context.recordMeta with recordId := id } } =
        .done (.pass record)} =
      RecordId.mk '' {word | mix (word ^^^ salt) ≤ share.threshold} := by
    ext id
    rw [Set.mem_ofPred_eq, random_pass, Share.keeps, decide_eq_true_eq]
    constructor
    · intro below
      exact ⟨id.value, below, rfl⟩
    · rintro ⟨word, below, rfl⟩
      exact below
  have salted : Function.Bijective fun word : UInt64 => mix (word ^^^ salt) :=
    Mixing.bijective_of_injective (mix_injective.comp (Mixing.xor64_injective salt))
  have injective : Function.Injective RecordId.mk := fun _ _ same => RecordId.mk.inj same
  rw [kept, Set.ncard_image_of_injective _ injective, Mixing.ncard_le salted]

/-- The mixer is a bijection that keeps zero, so a random share keeps its exact count of record ids,
and a wider share keeps what a narrower one does. -/
theorem random_shares :
    Function.Bijective mix ∧ mix 0 = 0 ∧
    (∀ (share : Share) (salt : UInt64) (record : Record) (context : Context),
      {id : RecordId | process ⟨.random share salt⟩ record
        { context with recordMeta := { context.recordMeta with recordId := id } } =
          .done (.pass record)}.ncard = share.threshold.toNat + 1) ∧
    ∀ (low high : Share) (salt : UInt64) (record : Record) (context : Context),
      low.threshold ≤ high.threshold →
        process ⟨.random low salt⟩ record context = .done (.pass record) →
          process ⟨.random high salt⟩ record context = .done (.pass record) := by
  refine ⟨mix_bijective, mix_zero, random_ncard, ?_⟩
  intro low high salt record context wider kept
  rw [random_pass] at kept ⊢
  exact keeps_mono wider kept

end Sample

end FusionPipeline
