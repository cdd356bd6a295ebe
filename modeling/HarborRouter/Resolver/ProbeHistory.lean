import HarborRouter.CircuitBreaker.History
import HarborRouter.Resolver.ParallelLookup

/-!
# What the probes of a project say about its circuit

The completed probes of all fan-outs, in any order and mixed with the questions the fan-outs ask first, as the circuit
breaker records them.

* `Failed`, `Ignored` : which probes count as failures, and which count as nothing;
* `record_eq_execute` : a completed probe is a call of the circuit breaker, or none;
* `opens_after_failures` : a circuit opens only when the last probes, those that count as nothing set aside, all failed.
-/

namespace HarborRouter
open Lib CircuitBreaker

/-- What fan-outs do with the circuit breaker: they ask whether a project is available, and its probe completes. -/
inductive ProbeStep
  | ask (now : Nat) (project : Text)
  | done (now : Nat) (c : Completion)

namespace ProbeStep

def apply (b : CircuitBreaker) : ProbeStep → CircuitBreaker
  | .ask now project => (b.isAvailable now project).2
  | .done now c => b.record now c

def applyAll (b : CircuitBreaker) (steps : List ProbeStep) : CircuitBreaker := steps.foldl apply b

def event : ProbeStep → Option Event
  | .ask now project => some ⟨now, project, .isAvailable⟩
  | .done now c =>
      match c.recorded with
      | .success => some ⟨now, c.project, .recordSuccess⟩
      | .failure => some ⟨now, c.project, .recordFailure⟩
      | .nothing => none

/-- The completed probes of the project, the latest first. -/
def completed (p : Text) (steps : List ProbeStep) : List Completion :=
  (steps.filterMap fun step => match step with
    | .ask _ _ => none
    | .done _ c => if c.project = p then some c else none).reverse

def BuildError (e : Text) : Prop :=
  "builder error".toList <:+: e ∨ "invalid URL".toList <:+: e ∨ "relative URL without a base".toList <:+: e

instance (e : Text) : Decidable (BuildError e) := inferInstanceAs (Decidable (_ ∨ _ ∨ _))

/-- The probe was answered 4xx, or its request could not be built. -/
def Ignored (c : Completion) : Prop :=
  (∃ r, c.result = .ok r ∧ 400 ≤ r.status ∧ r.status < 500) ∨ ∃ e, c.result = .error e ∧ BuildError e

/-- The probe was answered with a status that is neither 200 nor 4xx, timed out, or ended in another error. -/
inductive Failed (c : Completion) : Prop
  | status (r : ResolveResult) (hr : c.result = .ok r) (h200 : r.status ≠ 200) (h4 : r.status < 400 ∨ 500 ≤ r.status)
  | timeout (h : c.answer = .elapsed)
  | transport (e : Text) (he : c.result = .error e) (hbuild : ¬ BuildError e)

theorem shouldRecordTransportFailure_iff {e : Text} : shouldRecordTransportFailure e = true ↔ ¬ BuildError e := by
  rw [shouldRecordTransportFailure, BuildError, ← Text.contains_iff, ← Text.contains_iff, ← Text.contains_iff]
  simp [and_assoc]

/-- What is not recorded is what is ignored. -/
theorem recorded_eq_nothing_iff {c : Completion} : c.recorded = .nothing ↔ Ignored c := by
  unfold Completion.recorded Ignored
  cases c.result with
  | ok r =>
      by_cases h200 : r.status = 200
      · simp [h200]
      · simp [h200, isClientErrorStatus]
  | error e =>
      by_cases hbuild : BuildError e
      · simp [hbuild, shouldRecordTransportFailure_iff]
      · simp [hbuild, shouldRecordTransportFailure_iff]

theorem failed_of_recorded {c : Completion} (h : c.recorded = .failure) : Failed c := by
  unfold Completion.recorded at h
  cases hr : c.result with
  | ok r =>
      rw [hr] at h
      dsimp only at h
      split_ifs at h with h200 h4
      rw [isClientErrorStatus, Bool.and_eq_true, decide_eq_true_eq, decide_eq_true_eq] at h4
      exact .status r hr h200 (by omega)
  | error e =>
      rw [hr] at h
      dsimp only at h
      split_ifs at h with hrecord
      exact .transport e hr (shouldRecordTransportFailure_iff.mp hrecord)

instance : DecidablePred Ignored := fun _ => decidable_of_iff _ recorded_eq_nothing_iff

/-- The completed probes that count, the latest first. -/
def counted (p : Text) (steps : List ProbeStep) : List Completion := (completed p steps).filter fun c => ¬ Ignored c

def countedStep (p : Text) : ProbeStep → Option Completion
  | .ask _ _ => none
  | .done _ c => if c.project = p ∧ ¬ Ignored c then some c else none

theorem counted_eq (p : Text) (steps : List ProbeStep) :
    counted p steps = (steps.filterMap (countedStep p)).reverse := by
  rw [counted, completed, List.filter_reverse, List.filter_filterMap]
  congr 2
  funext step
  cases step with
  | ask now project => rfl
  | done now c => by_cases hp : c.project = p <;> by_cases hc : Ignored c <;> simp [countedStep, hp, hc]

theorem record_eq_execute (b : CircuitBreaker) (step : ProbeStep) :
    step.apply b = (step.event.toList).foldl execute b := by
  cases step with
  | ask now project => rfl
  | done now c =>
      cases h : c.recorded <;> simp [apply, CircuitBreaker.record, event, h, execute]

theorem applyAll_eq_executeAll (b : CircuitBreaker) (steps : List ProbeStep) :
    applyAll b steps = b.executeAll (steps.filterMap event) := by
  induction steps generalizing b with
  | nil => rfl
  | cons step steps ih =>
      show applyAll (step.apply b) steps = _
      rw [ih, record_eq_execute]
      cases h : step.event with
      | none => rw [List.filterMap_cons_none h]; rfl
      | some e => rw [List.filterMap_cons_some h]; rfl

/-- A probe that counts is a failure of the history exactly when it was recorded as one. -/
theorem outcome_event (p : Text) (step : ProbeStep) :
    (step.event.bind (Event.outcome p)).map Outcome.isFailure =
      (step.countedStep p).map fun c => decide (c.recorded = .failure) := by
  cases step with
  | ask now project => simp [event, countedStep, Event.outcome]
  | done now c =>
      by_cases hp : c.project = p <;> cases hr : c.recorded <;>
        simp [event, countedStep, Event.outcome, Outcome.isFailure, hp, hr, ← recorded_eq_nothing_iff]

theorem outcomes_event (p : Text) (steps : List ProbeStep) :
    (outcomes p (steps.filterMap event)).map Outcome.isFailure =
      (counted p steps).map fun c => decide (c.recorded = .failure) := by
  rw [outcomes, counted_eq, List.filterMap_filterMap, List.map_reverse, List.map_reverse, List.map_filterMap,
    List.map_filterMap]
  congr 2
  funext step
  exact outcome_event p step

theorem failuresSince_event (p : Text) (steps : List ProbeStep) :
    failuresSince (outcomes p (steps.filterMap event)) =
      ((counted p steps).takeWhile fun c => decide (c.recorded = .failure)).length := by
  have h := congrArg (fun bs : List Bool => (bs.takeWhile id).length) (outcomes_event p steps)
  simp only [List.takeWhile_map, List.length_map, Function.id_comp] at h
  exact h

/-- When the circuit of a project goes from closed to open, the last `threshold` probes of it, at least one, all
failed, once those answered 4xx and those whose request could not be built are set aside. -/
theorem opens_after_failures (threshold timeoutSecs : Nat) (p : Text) (steps : List ProbeStep) (step : ProbeStep)
    (hclosed : ((applyAll (new threshold timeoutSecs) steps).projects p).state = .closed)
    (hopened : ((applyAll (new threshold timeoutSecs) (steps ++ [step])).projects p).state = .opened) :
    max threshold 1 ≤ (counted p (steps ++ [step])).length ∧
      ∀ c ∈ (counted p (steps ++ [step])).take (max threshold 1), Failed c := by
  have hrun : max threshold 1 ≤ failuresSince (outcomes p ((steps ++ [step]).filterMap event)) := by
    rw [applyAll_eq_executeAll] at hclosed hopened
    rw [List.filterMap_append] at hopened ⊢
    cases h : step.event with
    | none =>
        rw [List.filterMap_cons_none h, List.filterMap_nil, List.append_nil, hclosed] at hopened
        cases hopened
    | some e =>
        rw [List.filterMap_cons_some h, List.filterMap_nil] at hopened ⊢
        exact threshold_le_failuresSince threshold timeoutSecs p _ e hclosed hopened
  rw [failuresSince_event] at hrun
  obtain ⟨rest, hrest⟩ := List.takeWhile_prefix (l := counted p (steps ++ [step]))
    fun c => decide (c.recorded = .failure)
  constructor
  · refine hrun.trans ?_
    exact (List.takeWhile_sublist _).length_le
  · intro c hc
    rw [← hrest, List.take_append_of_le_length hrun] at hc
    have hfailed := List.mem_takeWhile_imp (List.mem_of_mem_take hc)
    exact failed_of_recorded (of_decide_eq_true hfailed)

/-- A 503 and a timeout open a circuit of threshold two, with a 404 of the project and a 200 of another in between. -/
theorem opens_after_failures_twice :
    let steps : List ProbeStep := [.ask 0 "dockerhub".toList,
      .done 0 ⟨"dockerhub".toList, .reply (.response 503 [] []), 0⟩,
      .done 1 ⟨"dockerhub".toList, .reply (.response 404 [] []), 0⟩,
      .done 1 ⟨"ghcr".toList, .reply (.response 200 [] []), 0⟩, .ask 2 "dockerhub".toList]
    let late : ProbeStep := .done 3 ⟨"dockerhub".toList, .elapsed, 0⟩
    2 ≤ (counted "dockerhub".toList (steps ++ [late])).length ∧
      ∀ c ∈ (counted "dockerhub".toList (steps ++ [late])).take 2, Failed c := by
  intro steps late
  exact opens_after_failures 2 30 "dockerhub".toList steps late (by decide) (by decide)

/-- A 404 between two 503 neither counts nor starts the count again. -/
theorem opens_across_not_found : ¬ ∀ (threshold timeoutSecs : Nat) (p : Text) (steps : List ProbeStep)
    (step : ProbeStep), ((applyAll (new threshold timeoutSecs) steps).projects p).state = .closed →
      ((applyAll (new threshold timeoutSecs) (steps ++ [step])).projects p).state = .opened →
      ∀ c ∈ (completed p (steps ++ [step])).take (max threshold 1), Failed c := by
  intro h
  let probe (status : Nat) : ProbeStep := .done 0 ⟨"dockerhub".toList, .reply (.response status [] []), 0⟩
  have h404 := h 2 30 "dockerhub".toList [probe 503, probe 404] (probe 503) (by decide) (by decide)
    ⟨"dockerhub".toList, .reply (.response 404 [] []), 0⟩ (by decide)
  rcases h404 with ⟨r, hr, -, h4⟩ | h | ⟨e, he, -⟩
  · cases hr
    exact absurd h4 (by decide)
  · cases h
  · cases he

end ProbeStep
end HarborRouter
