import FusionPipeline.Handling

/-! Every message is settled exactly once: acked when no branch failed, nakked with the
first failure otherwise. -/

namespace FusionPipeline

open DepthFirst

section Settling

variable {World : Type} {walker : Walker World} {recordMeta : Meta}

theorem halted_last {agenda : List Task} {count : Nat} {world last : World} {visits : List Visit}
    {halted : Bool}
    (served : Served (walker.service recordMeta) agenda count world visits last halted) :
    halted = true ↔ ∃ visit, visits.getLast? = some visit ∧ visit.outcome = .panicked := by
  rw [served.halts_iff]
  constructor
  · rintro ⟨visit, member, halts⟩
    obtain ⟨before, after, rfl⟩ := List.append_of_mem member
    obtain rfl := served.halts_last rfl halts
    refine ⟨visit, by simp, ?_⟩
    cases outcome : visit.outcome <;> simp_all [Walker.service, Outcome.halts]
  · rintro ⟨visit, isLast, panicked⟩
    refine ⟨visit, List.mem_of_getLast? isLast, ?_⟩
    simp [Walker.service, panicked, Outcome.halts]

/-- For every resolved envelope, whatever the stages and sinks answer: the walk ends, its
visits are those of the graph depth first in file order, it attempts exactly their writes,
and the message is settled once, acked if no visit failed and else nakked with the first
failure. A panic is the last visit. -/
theorem handle_settles_once {deserializer : Deserializer} {registry : Registry World}
    {yaml : String} {config : Config} {fuel : Nat} {envelope : Envelope} {spans : TraceBuffer}
    {world entered : World} (loaded : Config.fromYaml deserializer yaml = .ok config)
    (compiled : Pipeline.compile deserializer registry config = .ok walker.pipeline)
    (enough : walker.pipeline.dag.nodes.length ≤ fuel)
    (traces : spans.tracing = walker.signals.tracing)
    (resolves : walker.resolve envelope.arrival (walker.begin_ spans world).2 =
      (.ok recordMeta, entered)) :
    walker.pipeline.dag.Describes config.nodes ∧
    ∃ visits last halted handled,
      walker.handle fuel envelope spans world = some handled ∧
      Served (walker.service recordMeta) (walker.entry envelope.record) 0 entered visits last halted ∧
      (halted = false →
        (visits.map Visit.task).Perm (walker.entry envelope.record ++ visits.flatMap Visit.branches)) ∧
      (halted = true ↔ ∃ visit, visits.getLast? = some visit ∧ visit.outcome = .panicked) ∧
      handled.effects.filterMap Effect.write? = visits.filterMap Visit.write? ∧
      handled.effects.filter Effect.settles =
        [settlement (visits.findSome? (Visit.failure? recordMeta))] ∧
      (Effect.acked ∈ handled.effects ↔ ∀ visit ∈ visits, visit.outcome.failure? = none) := by
  refine ⟨fromConfig_describes (fromYaml_wellNamed loaded) (compile_ok compiled).1, ?_⟩
  obtain ⟨visits, last, halted, handled, now, before, served, handles, _, aside, effects⟩ :=
    handle_leaves enough traces resolves
  have settles : handled.effects.filter Effect.settles =
      [settlement (visits.findSome? (Visit.failure? recordMeta))] := by
    rw [effects, log_settles aside]
  have writes : handled.effects.filterMap Effect.write? = visits.filterMap Visit.write? := by
    have ignores : Effect.Ignores Effect.write? := ⟨fun _ => rfl, fun _ => rfl⟩
    have called : (fun visit : Visit => visit.called.write?) = Visit.write? := by
      funext visit
      rw [Visit.called, Visit.write?]
      split <;> rfl
    rw [effects, log_picks ignores aside, called]
    cases visits.findSome? (Visit.failure? recordMeta) <;> simp [Effect.write?, settlement]
  refine ⟨visits, last, halted, handled, handles, served, served.tasks_perm, halted_last served,
    writes, settles, ?_⟩
  have acked : Effect.acked ∈ handled.effects ↔
      Effect.acked ∈ handled.effects.filter Effect.settles := by
    simp [Effect.settles]
  rw [acked, settles, List.mem_singleton, ← no_failure_iff recordMeta]
  cases visits.findSome? (Visit.failure? recordMeta) <;> simp [settlement]

theorem handle_settles_once_stored : ∃ config pipeline visits last halted handled,
    Config.fromYaml keepThenStore "name: logs" = .ok config ∧
      Pipeline.compile keepThenStore storing config = .ok pipeline ∧
      pipeline.dag.Describes config.nodes ∧
      (storingWalker pipeline).handle 2 sampleEnvelope (.new true 0 0) [] = some handled ∧
      Served ((storingWalker pipeline).service sampleMeta)
        ((storingWalker pipeline).entry sampleEnvelope.record) 0 [] visits last halted ∧
      handled.effects.filterMap Effect.write? = visits.filterMap Visit.write? ∧
      handled.effects.filter Effect.settles =
        [settlement (visits.findSome? (Visit.failure? sampleMeta))] := by
  obtain ⟨config, pipeline, loaded, compiled, count⟩ := storing_compiles
  have resolves : (storingWalker pipeline).resolve sampleEnvelope.arrival
      ((storingWalker pipeline).begin_ (.new true 0 0) []).2 = (.ok sampleMeta, []) :=
    sample_resolves pipeline []
  obtain ⟨describes, visits, last, halted, handled, handles, served, _, _, writes, settles, _⟩ :=
    handle_settles_once loaded compiled count.le rfl resolves
  exact ⟨config, pipeline, visits, last, halted, handled, loaded, compiled, describes, handles,
    served, writes, settles⟩

end Settling

end FusionPipeline
