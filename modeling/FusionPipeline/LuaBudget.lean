import Mathlib.Data.Nat.Basic

/-!
The instruction budget of a script: the hook that counts in steps, and the runs of one VM under
it.
-/

namespace FusionPipeline.Lua

variable {Returned Failure : Type}

/-- The budget is checked at this granularity, or at the budget itself when that is smaller. -/
def hookEvery : Nat := 1000

structure Vm where
  instructions : Nat
  used : Nat
  phase : Nat
  deriving DecidableEq, Repr

def Vm.every (vm : Vm) : Nat :=
  max 1 (min vm.instructions hookEvery)

def Vm.tick (vm : Vm) : Bool × Vm :=
  if vm.phase + 1 = vm.every then
    let used := vm.used + vm.every
    (decide (vm.instructions < used), { vm with used, phase := 0 })
  else (false, { vm with phase := vm.phase + 1 })

structure Execution where
  executed : Nat
  tripped : Bool
  vm : Vm
  deriving DecidableEq, Repr

def Vm.execute (vm : Vm) : Nat → Execution
  | 0 => ⟨0, false, vm⟩
  | wanted + 1 =>
      if vm.tick.1 then ⟨1, true, vm.tick.2⟩
      else
        let rest := vm.tick.2.execute wanted
        { rest with executed := rest.executed + 1 }

structure Process (Returned Failure : Type) where
  wanted : Nat
  result : Except Failure Returned

inductive LuaError (Failure : Type) where
  | instructions
  | failed (failure : Failure)
  deriving DecidableEq

structure Ran (Returned Failure : Type) where
  executed : Nat
  outcome : Except (LuaError Failure) Returned

def Vm.outcome (execution : Execution) (result : Except Failure Returned) :
    Except (LuaError Failure) Returned :=
  if execution.tripped then .error .instructions
  else
    match result with
    | .error failure => .error (.failed failure)
    | .ok returned =>
        if execution.vm.instructions < execution.vm.used then .error .instructions
        else .ok returned

def Vm.run (vm : Vm) (process : Process Returned Failure) : Ran Returned Failure × Vm :=
  let execution := { vm with used := 0 }.execute process.wanted
  (⟨execution.executed, Vm.outcome execution process.result⟩, execution.vm)

def Vm.new (instructions : Nat) (topLevel : Process Unit Failure) :
    Except (LuaError Failure) Vm :=
  let execution := (Vm.mk instructions 0 0).execute topLevel.wanted
  if execution.tripped then .error .instructions
  else
    match topLevel.result with
    | .error failure => .error (.failed failure)
    | .ok () => .ok execution.vm

def Vm.runs (vm : Vm) : List (Process Returned Failure) → Vm
  | [] => vm
  | process :: later => (vm.run process).2.runs later

section Executing

def Vm.limit (vm : Vm) : Nat :=
  ((vm.instructions - vm.used) / vm.every + 1) * vm.every - vm.phase

structure Vm.Going (vm : Vm) : Prop where
  used : vm.used ≤ vm.instructions
  phase : vm.phase < vm.every

theorem Vm.every_pos (vm : Vm) : 0 < vm.every :=
  Nat.le_max_left _ _

theorem Vm.limit_pos {vm : Vm} (going : vm.Going) : 0 < vm.limit := by
  have phase := going.phase
  have whole : vm.every ≤ ((vm.instructions - vm.used) / vm.every + 1) * vm.every :=
    Nat.le_mul_of_pos_left _ (Nat.succ_pos _)
  rw [Vm.limit]
  omega

theorem Vm.tick_spec {vm : Vm} (going : vm.Going) :
    vm.tick.2.instructions = vm.instructions ∧ vm.tick.2.phase < vm.every ∧
      (vm.tick.1 = true → vm.limit = 1) ∧
      (vm.tick.1 = false → vm.tick.2.Going ∧ vm.limit = vm.tick.2.limit + 1) := by
  have positive := vm.every_pos
  have phase := going.phase
  have used := going.used
  by_cases fires : vm.phase + 1 = vm.every
  · by_cases above : vm.instructions < vm.used + vm.every
    · have first : (vm.instructions - vm.used) / vm.every = 0 := Nat.div_eq_of_lt (by omega)
      simp only [tick, if_pos fires, above, decide_true, limit, first]
      exact ⟨trivial, positive, fun _ => by omega, nofun⟩
    · have rest : (vm.instructions - vm.used) / vm.every =
          (vm.instructions - (vm.used + vm.every)) / vm.every + 1 := by
        rw [Nat.div_eq_sub_div positive (by omega), Nat.sub_sub]
      simp only [tick, if_pos fires, above, decide_false]
      refine ⟨trivial, positive, nofun, fun _ => ⟨⟨Nat.not_lt.mp above, positive⟩, ?_⟩⟩
      rw [limit, limit, rest]
      simp only [every] at *
      rw [Nat.succ_mul]
      omega
  · simp only [tick, if_neg fires]
    have next : vm.phase + 1 < vm.every := by omega
    have whole : vm.every ≤ ((vm.instructions - vm.used) / vm.every + 1) * vm.every :=
      Nat.le_mul_of_pos_left _ (Nat.succ_pos _)
    refine ⟨trivial, next, nofun, fun _ => ⟨⟨used, next⟩, ?_⟩⟩
    rw [limit, limit]
    simp only [every] at *
    omega

/-- A run is executed to its end, or stopped at the limit where that comes first. -/
theorem Vm.execute_spec {vm : Vm} (going : vm.Going) (wanted : Nat) :
    (vm.execute wanted).executed = min wanted vm.limit ∧
      (vm.execute wanted).tripped = decide (vm.limit ≤ wanted) ∧
      (vm.execute wanted).vm.instructions = vm.instructions ∧
      (vm.execute wanted).vm.phase < vm.every ∧
      (wanted < vm.limit → (vm.execute wanted).vm.used ≤ vm.instructions) := by
  induction wanted generalizing vm with
  | zero =>
      have ahead := limit_pos going
      rw [execute]
      exact ⟨(Nat.zero_min _).symm, (decide_eq_false (by omega)).symm, rfl, going.phase,
        fun _ => going.used⟩
  | succ wanted ih =>
      obtain ⟨budget, phase, stops, goesOn⟩ := tick_spec going
      rw [execute]
      cases tripped : vm.tick.1 with
      | true =>
          have limit := stops tripped
          rw [if_pos rfl, limit]
          exact ⟨(Nat.min_eq_right (Nat.succ_pos _)).symm, (decide_eq_true (Nat.succ_pos _)).symm,
            budget, phase, fun less => absurd less (by omega)⟩
      | false =>
          obtain ⟨later, limit⟩ := goesOn tripped
          obtain ⟨executed, stopped, kept, within, used⟩ := ih later
          have every : vm.tick.2.every = vm.every := by rw [Vm.every, Vm.every, budget]
          rw [if_neg Bool.false_ne_true, limit]
          simp only [executed, stopped, kept, budget]
          refine ⟨(Nat.add_min_add_right _ _ _).symm, ?_, trivial, every ▸ within, fun less => ?_⟩
          · exact decide_eq_decide.mpr Nat.add_le_add_iff_right.symm
          · exact budget ▸ used (Nat.lt_of_add_lt_add_right less)

theorem Vm.limit_fresh (vm : Vm) :
    Vm.limit { vm with used := 0 } = (vm.instructions / vm.every + 1) * vm.every - vm.phase :=
  rfl

end Executing

section Runs

structure Vm.Ready (instructions : Nat) (vm : Vm) : Prop where
  budget : vm.instructions = instructions
  phase : vm.phase < vm.every

theorem Vm.Ready.going {instructions : Nat} {vm : Vm} (ready : vm.Ready instructions) :
    Vm.Going { vm with used := 0 } :=
  ⟨Nat.zero_le _, ready.phase⟩

theorem Vm.run_ready {instructions : Nat} {vm : Vm} (ready : vm.Ready instructions)
    (process : Process Returned Failure) : (vm.run process).2.Ready instructions := by
  obtain ⟨_, _, budget, phase, _⟩ := execute_spec ready.going process.wanted
  have every : (vm.run process).2.every = vm.every := by
    rw [run, Vm.every, Vm.every, budget]
  exact ⟨budget.trans ready.budget, every ▸ phase⟩

theorem Vm.new_ready {instructions : Nat} {topLevel : Process Unit Failure} {vm : Vm}
    (built : Vm.new instructions topLevel = .ok vm) : vm.Ready instructions := by
  have going : (Vm.mk instructions 0 0).Going := ⟨Nat.zero_le _, every_pos _⟩
  obtain ⟨_, _, budget, phase, _⟩ := execute_spec going topLevel.wanted
  simp only [Vm.new] at built
  split at built
  · cases built
  · split at built
    · cases built
    · obtain rfl := Except.ok.inj built
      refine ⟨budget, ?_⟩
      rw [Vm.every, budget]
      exact phase

theorem Vm.runs_ready {instructions : Nat} {vm : Vm} (ready : vm.Ready instructions)
    (earlier : List (Process Returned Failure)) : (vm.runs earlier).Ready instructions := by
  induction earlier generalizing vm with
  | nil => exact ready
  | cons process later ih => exact ih (run_ready ready process)

structure KeepsBudget (instructions : Nat) (ran : Ran Returned Failure) : Prop where
  returned : ∀ returned, ran.outcome = .ok returned →
    if instructions ≤ hookEvery then ran.executed ≤ instructions
    else ran.executed < instructions + hookEvery
  stopped : ran.executed ≤ instructions → ran.outcome ≠ .error .instructions

/-- When it does: a small budget is not outlived before the hook fires a second time, and a large
one is not cut short by what the hook counted of earlier runs. -/
def InTime (instructions phase : Nat) (process : Process Returned Failure) : Prop :=
  if instructions ≤ hookEvery then
    process.wanted ≤ instructions ∨ 2 * instructions ≤ phase + process.wanted ∨
      ∀ returned, process.result ≠ .ok returned
  else
    phase + min process.wanted instructions < (instructions / hookEvery + 1) * hookEvery

theorem Vm.outcome_run {instructions : Nat} {vm : Vm} (ready : vm.Ready instructions)
    (process : Process Returned Failure) :
    (vm.run process).1.executed = min process.wanted (Vm.limit { vm with used := 0 }) ∧
      (vm.run process).1.outcome =
        if Vm.limit { vm with used := 0 } ≤ process.wanted then .error .instructions
        else process.result.mapError .failed := by
  obtain ⟨executed, tripped, budget, _, used⟩ := execute_spec ready.going process.wanted
  refine ⟨executed, ?_⟩
  simp only [run, Vm.outcome, tripped, decide_eq_true_eq]
  split
  · rfl
  next before =>
    have within := used (Nat.not_le.mp before)
    cases process.result with
    | error failure => rfl
    | ok returned => exact if_neg (by rw [budget]; exact Nat.not_lt.mpr within)

theorem Vm.run_stopped_iff {instructions : Nat} {vm : Vm} (ready : vm.Ready instructions)
    (process : Process Returned Failure) :
    (vm.run process).1.outcome = .error .instructions ↔
      Vm.limit { vm with used := 0 } ≤ process.wanted := by
  rw [(outcome_run ready process).2]
  split
  next reached => exact iff_of_true rfl reached
  next before =>
    refine iff_of_false (fun same => ?_) before
    cases result : process.result <;> rw [result] at same <;> cases same

theorem Vm.run_returned_iff {instructions : Nat} {vm : Vm} (ready : vm.Ready instructions)
    (process : Process Returned Failure) (returned : Returned) :
    (vm.run process).1.outcome = .ok returned ↔
      process.wanted < Vm.limit { vm with used := 0 } ∧ process.result = .ok returned := by
  rw [(outcome_run ready process).2]
  split
  next reached =>
    refine iff_of_false (fun same => ?_) fun both => absurd both.1 (by omega)
    cases same
  next before =>
    have ahead := Nat.not_le.mp before
    cases process.result with
    | error failure =>
        refine iff_of_false (fun same => ?_) fun both => ?_
        · cases same
        · cases both.2
    | ok other =>
        constructor
        · exact fun same => ⟨ahead, congrArg _ (Except.ok.inj same)⟩
        · exact fun both => congrArg _ (Except.ok.inj both.2)

theorem Vm.keepsBudget_small {instructions : Nat} (small : instructions ≤ hookEvery) {vm : Vm}
    (ready : vm.Ready instructions) (phase : vm.phase < instructions)
    (limit : Vm.limit { vm with used := 0 } = 2 * instructions - vm.phase)
    (process : Process Returned Failure) :
    KeepsBudget instructions (vm.run process).1 ↔ InTime instructions vm.phase process := by
  have executed := (outcome_run ready process).1
  rw [InTime, if_pos small]
  constructor
  · intro keeps
    by_contra late
    simp only [not_or, not_forall, not_not] at late
    obtain ⟨more, early, returned, result⟩ := late
    have kept := keeps.returned returned
      ((run_returned_iff ready process returned).mpr ⟨by omega, result⟩)
    rw [if_pos small] at kept
    omega
  · intro inTime
    refine ⟨fun returned same => ?_, fun within stopped => ?_⟩
    · obtain ⟨ahead, result⟩ := (run_returned_iff ready process returned).mp same
      rw [if_pos small]
      rcases inTime with short | long | fails
      · omega
      · omega
      · exact absurd result (fails returned)
    · have reached := (run_stopped_iff ready process).mp stopped
      omega

theorem Vm.keepsBudget_large {instructions : Nat} (large : ¬ instructions ≤ hookEvery) {vm : Vm}
    (ready : vm.Ready instructions) (limit : Vm.limit { vm with used := 0 } =
      (instructions / hookEvery + 1) * hookEvery - vm.phase)
    (process : Process Returned Failure) :
    KeepsBudget instructions (vm.run process).1 ↔ InTime instructions vm.phase process := by
  have executed := (outcome_run ready process).1
  have above : instructions < (instructions / hookEvery + 1) * hookEvery := by
    rw [hookEvery]
    omega
  have near : (instructions / hookEvery + 1) * hookEvery ≤ instructions + hookEvery := by
    rw [hookEvery]
    omega
  rw [InTime, if_neg large]
  constructor
  · intro keeps
    by_contra late
    exact keeps.stopped (by omega) ((run_stopped_iff ready process).mpr (by omega))
  · intro inTime
    refine ⟨fun returned same => ?_, fun within stopped => ?_⟩
    · obtain ⟨ahead, _⟩ := (run_returned_iff ready process returned).mp same
      rw [if_neg large]
      omega
    · have reached := (run_stopped_iff ready process).mp stopped
      omega

/-- Exactly which runs keep the budget, on a VM that has run any others. -/
theorem instruction_budget {instructions : Nat} (positive : 1 ≤ instructions)
    {topLevel : Process Unit Failure} {vm : Vm} (built : Vm.new instructions topLevel = .ok vm)
    (earlier : List (Process Returned Failure)) (process : Process Returned Failure) :
    KeepsBudget instructions ((vm.runs earlier).run process).1 ↔
      InTime instructions (vm.runs earlier).phase process := by
  have ready := Vm.runs_ready (Vm.new_ready built) earlier
  have phase := ready.phase
  have limit : Vm.limit { vm.runs earlier with used := 0 } =
      (instructions / (vm.runs earlier).every + 1) * (vm.runs earlier).every -
        (vm.runs earlier).phase := by
    rw [Vm.limit_fresh, ready.budget]
  by_cases small : instructions ≤ hookEvery
  · have every : (vm.runs earlier).every = instructions := by
      rw [Vm.every, ready.budget]
      omega
    rw [every, Nat.div_self positive] at limit
    exact Vm.keepsBudget_small small ready (every ▸ phase) limit process
  · have every : (vm.runs earlier).every = hookEvery := by
      rw [Vm.every, ready.budget, Nat.min_eq_right (by omega)]
      rfl
    rw [every] at limit
    exact Vm.keepsBudget_large small ready limit process

def outlasting : Process Unit Unit :=
  ⟨15, .ok ()⟩

theorem instruction_budget_ten :
    KeepsBudget 10 (((Vm.mk 10 0 0).runs [outlasting]).run outlasting).1 ↔
      InTime 10 ((Vm.mk 10 0 0).runs [outlasting]).phase outlasting :=
  @instruction_budget Unit Unit 10 (by decide) ⟨0, .ok ()⟩ ⟨10, 0, 0⟩ rfl [outlasting] outlasting

theorem instruction_budget_outlasted :
    ¬ ∀ (instructions : Nat) (topLevel : Process Unit Unit) (vm : Vm)
      (earlier : List (Process Unit Unit)) (process : Process Unit Unit), 1 ≤ instructions →
        Vm.new instructions topLevel = .ok vm →
          KeepsBudget instructions ((vm.runs earlier).run process).1 := by
  intro keeps
  have kept := keeps 10 ⟨0, .ok ()⟩ ⟨10, 0, 0⟩ [] outlasting (by decide) rfl
  exact absurd (kept.returned () rfl) (by decide)

end Runs

end FusionPipeline.Lua
