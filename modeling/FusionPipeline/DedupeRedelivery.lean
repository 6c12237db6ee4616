import FusionPipeline.DedupeRuns

/-! Redelivery: when a record that passed the stage passes it again. -/

namespace FusionPipeline.Dedupe

open Interleaving

section Redelivery

variable {dedupe : Dedupe} {key : String}
variable {pool next : KeyPool dedupe key} {events : List (KeyEvent dedupe key)}

/-- Once a delivery of a record wrote the key and was passed, no delivery of that record
is dropped. -/
def StableUnderRedelivery (pool : KeyPool dedupe key) : Prop :=
  ∀ earlier first between again later reason,
    pool.log = earlier ++ first :: (between ++ again :: later) →
    wrote first = true → first.result = some (.pass first.input.record) →
    again.input.incoming = first.input.incoming →
    again.result ≠ some (.drop reason)

/-- Some delivery passed that wrote the key and would repeat a record of `holder`. -/
def Exposed (log : List (KeyEntry dedupe key)) (holder : Holder) : Prop :=
  ∃ passed ∈ log, wrote passed = true ∧ passed.result = some (.pass passed.input.record) ∧
    passed.input.incoming.against holder dedupe.window.duration = .repeated

/-- The step does not write the key for a record that another record, passed while it held
the key, would repeat. -/
def Undisturbed (pool : KeyPool dedupe key) : KeyEvent dedupe key → Prop
  | .advance index ending =>
      ∀ delivery request resume, pool.tasks[index]? = some ⟨delivery, some (.call request resume)⟩ →
        ending.reaches = true → request.writes pool.shared = true →
        ¬ Exposed pool.log delivery.incoming
  | _ => True

theorem undisturbed_writes
    (ran : (workers dedupe key).run (unclaimed dedupe key) events = some pool)
    (undisturbed : Transition.Throughout (workers dedupe key).step Undisturbed
      (unclaimed dedupe key) events) :
    ∀ earlier entry later, pool.log = earlier ++ entry :: later → wrote entry = true →
      ¬ Exposed earlier entry.input.incoming := by
  refine Transition.run_keeps_throughout
    (fun pool : KeyPool dedupe key => ∀ earlier entry later,
      pool.log = earlier ++ entry :: later → wrote entry = true →
        ¬ Exposed earlier entry.input.incoming)
    ?_ ran undisturbed (by simp [unclaimed, Pool.initial])
  intro pool event next ih quiet stepped earlier entry later split written
  rcases step_log stepped with ⟨sameLog, _⟩ |
    ⟨index, ending, delivery, request, resume, rfl, found, logged, _⟩
  · exact ih earlier entry later (sameLog ▸ split) written
  · rw [logged] at split
    rcases List.eq_nil_or_concat later with rfl | ⟨rest, last, rfl⟩
    · obtain ⟨rfl, same⟩ := List.append_inj' split rfl
      obtain rfl := (List.cons.inj same).1
      simp only [wrote, Machine.entry, Bool.and_eq_true] at written
      exact quiet delivery request resume found written.1 written.2
    · rw [List.concat_eq_append, ← List.cons_append, ← List.append_assoc] at split
      exact ih earlier entry rest (List.append_inj' split rfl).1 written

theorem undisturbed_stable
    (ran : (workers dedupe key).run (unclaimed dedupe key) events = some pool)
    (undisturbed : Transition.Throughout (workers dedupe key).step Undisturbed
      (unclaimed dedupe key) events) :
    StableUnderRedelivery pool := by
  intro earlier first between again later reason split written passed same dropped
  have regrouped : pool.log = (earlier ++ first :: between) ++ again :: later := by simp [split]
  obtain ⟨_, holder, held, judged⟩ := drop_holder ran regrouped dropped
  obtain ⟨source, last, rfl⟩ := Option.map_eq_some_iff.mp held
  rw [writes, List.filter_append, List.filter_cons_of_pos written,
    List.getLast?_append_of_ne_nil _ (by simp)] at last
  -- The holder is the first delivery itself, or it wrote after the first delivery passed.
  rcases List.mem_cons.mp (List.mem_of_getLast? last) with rfl | member
  · rw [same] at judged
    exact (against_repeated_iff _ _ _).mp judged |>.1 rfl
  · obtain ⟨inBetween, sourceWrote⟩ := List.mem_filter.mp member
    obtain ⟨before, after, rfl⟩ := List.append_of_mem inBetween
    refine undisturbed_writes ran undisturbed (earlier ++ first :: before) source
      (after ++ again :: later) (by simp [split]) sourceWrote ?_
    exact ⟨first, by simp, written, passed, same ▸ judged⟩

theorem disturbed_drops {event : KeyEvent dedupe key}
    (ran : (workers dedupe key).run (unclaimed dedupe key) events = some pool)
    (stepped : (workers dedupe key).step pool event = some next)
    (disturbed : ¬ Undisturbed pool event) :
    ∃ more last, (workers dedupe key).run next more = some last ∧ ¬ StableUnderRedelivery last := by
  cases event with
  | advance index ending =>
      simp only [Undisturbed, not_forall, not_not] at disturbed
      obtain ⟨delivery, request, resume, found, reaches, writes, passed, member, written,
        ended, repeated⟩ := disturbed
      obtain ⟨input, called, resumed, at_, equal⟩ := advance_cases stepped
      rw [found, Option.some.injEq, Task.mk.injEq] at at_
      obtain ⟨rfl, sameProgram⟩ := at_
      simp only [Option.some.injEq, Program.call.injEq] at sameProgram
      obtain ⟨rfl, sameResume⟩ := sameProgram
      obtain rfl := eq_of_heq sameResume
      have ranOn := Transition.run_append_iff.mpr
        ⟨pool, ran, Transition.run_cons_iff.mpr ⟨next, stepped, Transition.run_nil next⟩⟩
      obtain ⟨writing, grown, after⟩ : ∃ writing, next.log = pool.log ++ [writing] ∧
          next.shared = (if wrote writing then some writing.input.incoming.toBytes
            else writing.before) ∧ writing.input = delivery ∧ wrote writing = true := by
        have sound := run_sound ranOn
        rw [equal] at sound ⊢
        refine ⟨_, rfl, (sound _ (List.mem_append_right _ List.mem_cons_self)).leaves, rfl, ?_⟩
        simp [wrote, Machine.entry, reaches, writes]
      obtain ⟨held, sameDelivery, wroteKey⟩ := after
      rw [wroteKey, sameDelivery] at held
      obtain ⟨last, again, more, _, logged, _, same, _, dropped⟩ :=
        visit_held passed.input held (by rw [repeated]; decide)
      rw [repeated] at dropped
      obtain ⟨before, after, split⟩ := List.append_of_mem member
      refine ⟨_, last, more, fun stable => ?_⟩
      refine stable before passed (after ++ [writing]) again [] .dedupe ?_ written ended
        (by rw [same]) dropped
      simp [logged, grown, split]
  | spawn input => exact absurd trivial disturbed
  | drift change => exact absurd trivial disturbed
  | crash => exact absurd trivial disturbed

/-- Redelivery is stable in every run no step of which writes the key for a record exposed
then, and any step that does leaves a run that is not stable one redelivery later. -/
theorem stable_while_undisturbed
    (ran : (workers dedupe key).run (unclaimed dedupe key) events = some pool) :
    (Transition.Throughout (workers dedupe key).step Undisturbed (unclaimed dedupe key) events →
      StableUnderRedelivery pool) ∧
    ∀ event next, (workers dedupe key).step pool event = some next → ¬ Undisturbed pool event →
      ∃ more last, (workers dedupe key).run next more = some last ∧ ¬ StableUnderRedelivery last :=
  ⟨undisturbed_stable ran, fun _ _ stepped disturbed => disturbed_drops ran stepped disturbed⟩

theorem visit_undisturbed {delivery : Delivery dedupe key}
    (quiet : pool.shared = none → ¬ Exposed pool.log delivery.incoming) :
    Transition.Throughout (workers dedupe key).step Undisturbed pool (visit pool delivery) := by
  refine ⟨trivial, fun spawned stepped => ⟨?_, fun _ _ => trivial⟩⟩
  simp only [Machine.step, Option.some.injEq] at stepped
  subst stepped
  intro input request resume found _ writes
  rw [List.getElem?_append_right (by omega), Nat.sub_self, List.getElem?_cons_zero,
    Option.some.injEq, Task.mk.injEq] at found
  obtain ⟨rfl, started⟩ := found
  have claim : (workers dedupe key).start delivery = _ := process_eq delivery
  rw [claim, Option.some.injEq, Program.call.injEq] at started
  obtain ⟨rfl, _⟩ := started
  exact quiet (Option.isNone_iff_eq_none.mp writes)

theorem stable_while_undisturbed_redelivered_at_once :
    ∃ events pool, (workers tenSeconds tenSecondsKey).run (unclaimed tenSeconds tenSecondsKey)
        events = some pool ∧
      (pool.log.map fun entry => entry.input) = [ingestedAt 1 100, ingestedAt 1 100] ∧
      StableUnderRedelivery pool := by
  obtain ⟨claimed, first, ran, held, logged, _, same, _, _⟩ :=
    visit_free (unclaimed tenSeconds tenSecondsKey) (ingestedAt 1 100) rfl
  obtain ⟨last, again, ranAgain, _, loggedAgain, _, sameAgain, _, _⟩ :=
    visit_held (ingestedAt 1 100) held (by decide)
  have ranBoth := Transition.run_append_iff.mpr ⟨claimed, ran, ranAgain⟩
  refine ⟨_, last, ranBoth, ?_, (stable_while_undisturbed ranBoth).1 ?_⟩
  · simp [loggedAgain, logged, unclaimed, Pool.initial, same, sameAgain]
  · refine Transition.Throughout.append ran (visit_undisturbed fun _ exposed => ?_)
      (visit_undisturbed fun free => ?_)
    · obtain ⟨passed, member, _⟩ := exposed
      simp [unclaimed, Pool.initial] at member
    · simp [held] at free

/-- The record 1 claims the key and passes, its key expires, the older record 2 claims it,
and the record 1 comes back. -/
def olderClaimsBetween : List (KeyEvent tenSeconds tenSecondsKey) :=
  [.spawn (ingestedAt 1 100), .advance 0 .answers, .drift (),
    .spawn (ingestedAt 2 95), .advance 1 .answers,
    .spawn (ingestedAt 1 100), .advance 2 .answers]

theorem redelivered_after_older_claim_dropped :
    ∃ pool, (workers tenSeconds tenSecondsKey).run (unclaimed tenSeconds tenSecondsKey)
        olderClaimsBetween = some pool ∧ ¬ StableUnderRedelivery pool := by
  obtain ⟨claimed, first, ran, _, logged, length, same, written, passed⟩ :=
    visit_free (unclaimed tenSeconds tenSecondsKey) (ingestedAt 1 100) rfl
  obtain ⟨older, second, ranOlder, held, loggedOlder, lengthOlder, _, _, _⟩ :=
    visit_free { claimed with shared := none } (ingestedAt 2 95) rfl
  have verdict : (ingestedAt 1 100).incoming.against (ingestedAt 2 95).incoming
      tenSeconds.window.duration = .repeated := by decide
  obtain ⟨last, again, ranAgain, _, loggedAgain, _, sameAgain, _, dropped⟩ :=
    visit_held (ingestedAt 1 100) held (by rw [verdict]; decide)
  rw [verdict] at dropped
  have events : olderClaimsBetween = visit (unclaimed tenSeconds tenSecondsKey) (ingestedAt 1 100) ++
      ([.drift ()] ++ (visit { claimed with shared := none } (ingestedAt 2 95) ++
        visit older (ingestedAt 1 100))) := by
    simp [olderClaimsBetween, visit, length, lengthOlder, unclaimed, Pool.initial]
  refine ⟨last, ?_, fun stable => ?_⟩
  · rw [events]
    exact Transition.run_append_iff.mpr ⟨claimed, ran, Transition.run_append_iff.mpr
      ⟨{ claimed with shared := none }, rfl, Transition.run_append_iff.mpr
        ⟨older, ranOlder, ranAgain⟩⟩⟩
  · refine stable [] first [second] again [] .dedupe ?_ written (by rw [same]; exact passed)
      (by rw [same, sameAgain]) dropped
    simp [loggedAgain, loggedOlder, logged, unclaimed, Pool.initial]

end Redelivery

end FusionPipeline.Dedupe
