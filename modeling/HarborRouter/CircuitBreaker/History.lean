import HarborRouter.CircuitBreaker
import Mathlib.Data.List.Induction

/-!
# The circuit breaker and its history

Calls executed one after another, each at a moment of the clock, against what the recorded outcomes of a project say
by themselves: how many failures since the last success, and when the last failure was.

* `Tracks` : how the three states, the counter and the last failure follow from the history;
* `threshold_le_failuresSince` : a closed circuit opens at the end of a run of failures only;
* `isAvailable_iff_history` : an answer is a function of the history of the project alone.
-/

namespace HarborRouter
open Lib

inductive Call
  | isAvailable
  | recordSuccess
  | recordFailure
  deriving DecidableEq, Repr

/-- A call about a project, at a moment in epoch seconds. -/
structure Event where
  now : Nat
  project : Text
  call : Call
  deriving DecidableEq

inductive Outcome
  | success
  | failure (now : Nat)
  deriving DecidableEq, Repr

def Outcome.isFailure : Outcome → Bool
  | .success => false
  | .failure _ => true

def Outcome.failedAt : Outcome → Option Nat
  | .success => none
  | .failure now => some now

def Event.outcome (p : Text) (e : Event) : Option Outcome :=
  if e.project = p then
    match e.call with
    | .isAvailable => none
    | .recordSuccess => some .success
    | .recordFailure => some (.failure e.now)
  else none

def outcomes (p : Text) (es : List Event) : List Outcome := (es.filterMap (Event.outcome p)).reverse

/-- The number of failures since the last success. -/
def failuresSince (os : List Outcome) : Nat := (os.takeWhile Outcome.isFailure).length

def lastFailure (os : List Outcome) : Option Nat := os.findSome? Outcome.failedAt

@[simp] theorem failuresSince_nil : failuresSince [] = 0 := rfl

@[simp] theorem failuresSince_success (os : List Outcome) : failuresSince (.success :: os) = 0 := rfl

@[simp] theorem failuresSince_failure (now : Nat) (os : List Outcome) :
    failuresSince (.failure now :: os) = failuresSince os + 1 := rfl

@[simp] theorem lastFailure_success (os : List Outcome) : lastFailure (.success :: os) = lastFailure os := rfl

@[simp] theorem lastFailure_failure (now : Nat) (os : List Outcome) :
    lastFailure (.failure now :: os) = some now := rfl

theorem failuresSince_le_countP (os : List Outcome) : failuresSince os ≤ os.countP Outcome.isFailure := by
  unfold failuresSince
  rw [← List.countP_eq_length.mpr fun _ ho => List.mem_takeWhile_imp ho]
  exact (List.takeWhile_sublist _).countP_le

theorem lastFailure_isSome {os : List Outcome} (h : 0 < failuresSince os) : (lastFailure os).isSome := by
  cases os with
  | nil => exact absurd h (Nat.lt_irrefl 0)
  | cons o os =>
      cases o with
      | success => exact absurd h (Nat.lt_irrefl 0)
      | failure now => rfl

theorem outcomes_concat (p : Text) (es : List Event) (e : Event) :
    outcomes p (es ++ [e]) = (e.outcome p).toList ++ outcomes p es := by
  unfold outcomes
  rw [List.filterMap_append, List.reverse_append]
  cases h : e.outcome p with
  | none => rw [List.filterMap_cons_none h]; rfl
  | some o => rw [List.filterMap_cons_some h]; rfl

namespace CircuitBreaker

def execute (b : CircuitBreaker) (e : Event) : CircuitBreaker :=
  match e.call with
  | .isAvailable => (b.isAvailable e.now e.project).2
  | .recordSuccess => b.recordSuccess e.project
  | .recordFailure => b.recordFailure e.now e.project

def executeAll (b : CircuitBreaker) (es : List Event) : CircuitBreaker := es.foldl execute b

theorem executeAll_concat (b : CircuitBreaker) (es : List Event) (e : Event) :
    b.executeAll (es ++ [e]) = (b.executeAll es).execute e := by
  unfold executeAll
  rw [List.foldl_append, List.foldl_cons, List.foldl_nil]

/-! ## Frames -/

section Frame
variable (b : CircuitBreaker) (e : Event)

@[simp] theorem threshold_setHealth (p : Text) (h : ProjectHealth) : (b.setHealth p h).threshold = b.threshold := rfl
@[simp] theorem timeoutSecs_setHealth (p : Text) (h : ProjectHealth) :
    (b.setHealth p h).timeoutSecs = b.timeoutSecs := rfl
@[simp] theorem projects_setHealth (p : Text) (h : ProjectHealth) :
    (b.setHealth p h).projects = Function.update b.projects p h := rfl

theorem execute_eq_setHealth : ∃ h, b.execute e = b.setHealth e.project h := by
  have hsame : b = b.setHealth e.project (b.projects e.project) := by
    unfold setHealth
    rw [Function.update_eq_self]
  unfold execute
  split
  · obtain h | ⟨-, h⟩ := isAvailable_snd b e.now e.project
    · exact ⟨_, h.trans hsame⟩
    · exact ⟨_, h⟩
  · exact ⟨_, rfl⟩
  · exact ⟨_, rfl⟩

@[simp] theorem threshold_execute : (b.execute e).threshold = b.threshold := by
  obtain ⟨h, he⟩ := b.execute_eq_setHealth e
  rw [he, threshold_setHealth]

@[simp] theorem timeoutSecs_execute : (b.execute e).timeoutSecs = b.timeoutSecs := by
  obtain ⟨h, he⟩ := b.execute_eq_setHealth e
  rw [he, timeoutSecs_setHealth]

theorem projects_execute_of_ne {p : Text} (hp : p ≠ e.project) : (b.execute e).projects p = b.projects p := by
  obtain ⟨h, he⟩ := b.execute_eq_setHealth e
  rw [he, projects_setHealth, Function.update_of_ne hp]

end Frame

/-! ## What the history says about the health -/

/-- The counter and the closed state of a project after the outcomes `os`. -/
structure Counted (b : CircuitBreaker) (p : Text) (os : List Outcome) : Prop where
  counter : (b.projects p).consecutiveFailures = failuresSince os
  closed : (b.projects p).state = .closed ↔ failuresSince os < b.threshold

/-- The health of a project after the outcomes `os`, no later than `now`. -/
structure Tracks (b : CircuitBreaker) (p : Text) (os : List Outcome) (now : Nat) : Prop extends Counted b p os where
  last : ∀ t, lastFailure os = some t → (b.projects p).lastFailureEpoch = t ∧ t ≤ now
  halfOpen : (b.projects p).state = .halfOpen → b.timeoutSecs ≤ now - (b.projects p).lastFailureEpoch

variable {b : CircuitBreaker} {p : Text} {os : List Outcome} {now : Nat}

theorem counted_new (threshold timeoutSecs : Nat) (p : Text) : (new threshold timeoutSecs).Counted p [] where
  counter := rfl
  closed := iff_of_true rfl (Nat.lt_of_lt_of_le Nat.one_pos (Nat.le_max_right threshold 1))

theorem tracks_new (threshold timeoutSecs : Nat) (p : Text) : (new threshold timeoutSecs).Tracks p [] 0 where
  toCounted := counted_new threshold timeoutSecs p
  last := nofun
  halfOpen := nofun

theorem Counted.of_eq {b' : CircuitBreaker} (h : b.Counted p os) (hp : b'.projects p = b.projects p)
    (ht : b'.threshold = b.threshold) : b'.Counted p os := by
  constructor
  · rw [hp]; exact h.counter
  · rw [hp, ht]; exact h.closed

theorem Tracks.of_eq {b' : CircuitBreaker} (h : b.Tracks p os now) (hp : b'.projects p = b.projects p)
    (ht : b'.threshold = b.threshold) (hs : b'.timeoutSecs = b.timeoutSecs) : b'.Tracks p os now := by
  refine ⟨h.toCounted.of_eq hp ht, ?_, ?_⟩
  · rw [hp]; exact h.last
  · rw [hp, hs]; exact h.halfOpen

theorem Tracks.mono (h : b.Tracks p os now) {later : Nat} (hle : now ≤ later) : b.Tracks p os later where
  toCounted := h.toCounted
  last t ht := ⟨(h.last t ht).1, (h.last t ht).2.trans hle⟩
  halfOpen hs := (h.halfOpen hs).trans (Nat.sub_le_sub_right hle _)

/-- Asking never closes a circuit, and opens none. -/
theorem Counted.isAvailable (h : b.Counted p os) (t : Nat) : (b.isAvailable t p).2.Counted p os := by
  cases hs : (b.projects p).state with
  | closed => simpa only [CircuitBreaker.isAvailable, hs] using h
  | halfOpen => simpa only [CircuitBreaker.isAvailable, hs] using h
  | opened =>
      have hopen : ¬ failuresSince os < b.threshold := by
        rw [← h.closed, hs]
        decide
      simp only [CircuitBreaker.isAvailable, hs]
      split
      · constructor
        · simpa using h.counter
        · simpa using hopen
      · exact h

theorem counted_recordSuccess (os : List Outcome) (ht : 0 < b.threshold) :
    (b.recordSuccess p).Counted p (.success :: os) := by
  unfold CircuitBreaker.recordSuccess
  constructor
  · simp
  · simpa using ht

theorem Counted.recordFailure (h : b.Counted p os) (hfew : failuresSince os + 1 < UInt32.size) (t : Nat) :
    (b.recordFailure t p).Counted p (.failure t :: os) := by
  have hmod : (failuresSince os + 1) % UInt32.size = failuresSince os + 1 := Nat.mod_eq_of_lt hfew
  unfold CircuitBreaker.recordFailure
  dsimp only
  rw [h.counter, hmod]
  constructor
  · simp
  · by_cases hopen : b.threshold ≤ failuresSince os + 1
    · simp [if_pos hopen]
      omega
    · have hclosed : failuresSince os < b.threshold := by omega
      simp [if_neg hopen, h.closed, hclosed]
      omega

theorem Counted.execute (h : b.Counted p os) (ht : 0 < b.threshold) {e : Event}
    (hfew : failuresSince ((e.outcome p).toList ++ os) < UInt32.size) :
    (b.execute e).Counted p ((e.outcome p).toList ++ os) := by
  by_cases hp : e.project = p
  · obtain ⟨t, q, call⟩ := e
    dsimp only at hp
    subst hp
    cases call with
    | isAvailable => simpa [Event.outcome, CircuitBreaker.execute] using h.isAvailable t
    | recordSuccess => simpa [Event.outcome, CircuitBreaker.execute] using counted_recordSuccess os ht
    | recordFailure =>
        have hfew : failuresSince os + 1 < UInt32.size := by simpa [Event.outcome] using hfew
        simpa [Event.outcome, CircuitBreaker.execute] using h.recordFailure hfew t
  · have hnone : e.outcome p = none := if_neg hp
    rw [hnone]
    exact h.of_eq (projects_execute_of_ne b e (Ne.symm hp)) (threshold_execute b e)

/-- Asking changes the state at most, and only once the timeout has passed. -/
theorem Tracks.isAvailable (h : b.Tracks p os now) : (b.isAvailable now p).2.Tracks p os now := by
  cases hs : (b.projects p).state with
  | closed => simpa only [CircuitBreaker.isAvailable, hs] using h
  | halfOpen => simpa only [CircuitBreaker.isAvailable, hs] using h
  | opened =>
      have hcounted := h.toCounted.isAvailable now
      by_cases ht : b.timeoutSecs ≤ now - (b.projects p).lastFailureEpoch
      · simp only [CircuitBreaker.isAvailable, hs, if_pos ht] at hcounted ⊢
        exact ⟨hcounted, by simpa using h.last, by simpa using ht⟩
      · simpa only [CircuitBreaker.isAvailable, hs, if_neg ht] using h

theorem Tracks.recordSuccess (h : b.Tracks p os now) (ht : 0 < b.threshold) :
    (b.recordSuccess p).Tracks p (.success :: os) now := by
  refine ⟨counted_recordSuccess os ht, ?_, ?_⟩
  · simpa [CircuitBreaker.recordSuccess] using h.last
  · simp [CircuitBreaker.recordSuccess]

theorem Tracks.recordFailure (h : b.Tracks p os now) (hfew : failuresSince os + 1 < UInt32.size) :
    (b.recordFailure now p).Tracks p (.failure now :: os) now := by
  have hcounted := h.toCounted.recordFailure hfew now
  refine ⟨hcounted, ?_, ?_⟩
  · simp [CircuitBreaker.recordFailure]
  · intro hhalf
    by_cases hopen : b.threshold ≤ failuresSince os + 1
    · simp [CircuitBreaker.recordFailure, h.counter, Nat.mod_eq_of_lt hfew, if_pos hopen] at hhalf
    · have hclosed : ((b.recordFailure now p).projects p).state = .closed :=
        hcounted.closed.mpr (Nat.lt_of_not_le hopen)
      rw [hclosed] at hhalf
      cases hhalf

theorem Tracks.execute (h : b.Tracks p os now) (ht : 0 < b.threshold) {e : Event} (hnow : now ≤ e.now)
    (hfew : failuresSince ((e.outcome p).toList ++ os) < UInt32.size) :
    (b.execute e).Tracks p ((e.outcome p).toList ++ os) e.now := by
  have h := h.mono hnow
  by_cases hp : e.project = p
  · obtain ⟨t, q, call⟩ := e
    dsimp only at hp
    subst hp
    cases call with
    | isAvailable => simpa [Event.outcome, CircuitBreaker.execute] using h.isAvailable
    | recordSuccess => simpa [Event.outcome, CircuitBreaker.execute] using h.recordSuccess ht
    | recordFailure =>
        have hfew : failuresSince os + 1 < UInt32.size := by simpa [Event.outcome] using hfew
        simpa [Event.outcome, CircuitBreaker.execute] using h.recordFailure hfew
  · have hnone : e.outcome p = none := if_neg hp
    rw [hnone]
    exact h.of_eq (projects_execute_of_ne b e (Ne.symm hp)) (threshold_execute b e) (timeoutSecs_execute b e)

theorem Tracks.answer (h : b.Tracks p os now) (ht : 0 < b.threshold) {t : Nat} (hnow : now ≤ t) :
    (b.isAvailable t p).1 = true ↔
      failuresSince os < b.threshold ∨ ∃ last, lastFailure os = some last ∧ last + b.timeoutSecs ≤ t := by
  have hlast : ¬ failuresSince os < b.threshold → ∃ last, lastFailure os = some last ∧ last ≤ now ∧
      (b.projects p).lastFailureEpoch = last := by
    intro hopen
    have hsome : (lastFailure os).isSome := lastFailure_isSome (by omega)
    obtain ⟨last, hl⟩ := Option.isSome_iff_exists.mp hsome
    exact ⟨last, hl, (h.last last hl).2, (h.last last hl).1⟩
  cases hs : (b.projects p).state with
  | closed =>
      have hclosed := h.closed.mp hs
      simp only [CircuitBreaker.isAvailable, hs, true_iff]
      exact .inl hclosed
  | opened =>
      have hopen : ¬ failuresSince os < b.threshold := by rw [← h.closed, hs]; decide
      obtain ⟨last, hl, hle, heq⟩ := hlast hopen
      simp only [CircuitBreaker.isAvailable, hs, heq, hopen, false_or, hl, Option.some.injEq, exists_eq_left']
      split <;> simp <;> omega
  | halfOpen =>
      have hopen : ¬ failuresSince os < b.threshold := by rw [← h.closed, hs]; decide
      obtain ⟨last, hl, hle, heq⟩ := hlast hopen
      have hpassed := h.halfOpen hs
      simp only [CircuitBreaker.isAvailable, hs, true_iff]
      rw [heq] at hpassed
      exact .inr ⟨last, hl, by omega⟩

/-! ## Runs -/

theorem threshold_executeAll (threshold timeoutSecs : Nat) (es : List Event) :
    ((new threshold timeoutSecs).executeAll es).threshold = max threshold 1 := by
  induction es using List.reverseRecOn with
  | nil => rfl
  | append_singleton es e ih => rw [executeAll_concat, threshold_execute, ih]

theorem timeoutSecs_executeAll (threshold timeoutSecs : Nat) (es : List Event) :
    ((new threshold timeoutSecs).executeAll es).timeoutSecs = timeoutSecs := by
  induction es using List.reverseRecOn with
  | nil => rfl
  | append_singleton es e ih => rw [executeAll_concat, timeoutSecs_execute, ih]

theorem tracks_executeAll (threshold timeoutSecs : Nat) (p : Text) {es : List Event}
    (hclock : es.Pairwise fun a b => a.now ≤ b.now) {now : Nat} (hnow : ∀ e ∈ es, e.now ≤ now)
    (hfew : (outcomes p es).countP Outcome.isFailure < UInt32.size) :
    ((new threshold timeoutSecs).executeAll es).Tracks p (outcomes p es) now := by
  induction es using List.reverseRecOn generalizing now with
  | nil => exact (tracks_new threshold timeoutSecs p).mono (Nat.zero_le now)
  | append_singleton es e ih =>
      obtain ⟨hes, -, hlater⟩ := List.pairwise_append.mp hclock
      have hcount := failuresSince_le_countP (outcomes p (es ++ [e]))
      rw [outcomes_concat] at hfew hcount ⊢
      rw [executeAll_concat]
      have htracks := ih hes (fun a ha => hlater a ha e List.mem_cons_self)
        (by rw [List.countP_append] at hfew; omega)
      have hstep := htracks.execute (by rw [threshold_executeAll]; omega) (Nat.le_refl e.now) (by omega)
      exact hstep.mono (hnow e (by simp))

theorem counted_executeAll (threshold timeoutSecs : Nat) (p : Text) {es : List Event}
    (hfew : (outcomes p es).countP Outcome.isFailure < UInt32.size) :
    ((new threshold timeoutSecs).executeAll es).Counted p (outcomes p es) := by
  induction es using List.reverseRecOn with
  | nil => exact counted_new threshold timeoutSecs p
  | append_singleton es e ih =>
      have hcount := failuresSince_le_countP (outcomes p (es ++ [e]))
      rw [outcomes_concat] at hfew hcount ⊢
      rw [executeAll_concat]
      have hes := ih (by rw [List.countP_append] at hfew; omega)
      exact hes.execute (by rw [threshold_executeAll]; omega) (by omega)

/-! ## Opening -/

theorem health_isAvailable (b : CircuitBreaker) (now : Nat) (p : Text) :
    ((b.isAvailable now p).2.projects p).consecutiveFailures = (b.projects p).consecutiveFailures ∧
      ((b.projects p).state = .closed → ((b.isAvailable now p).2.projects p).state = .closed) := by
  cases hs : (b.projects p).state with
  | closed => simp only [isAvailable, hs, implies_true, and_self]
  | halfOpen => exact ⟨by simp only [isAvailable, hs], fun hc => by cases hc⟩
  | opened =>
      refine ⟨?_, fun hc => by cases hc⟩
      simp only [isAvailable, hs]
      split
      · simp
      · rfl

/-- The counter may have wrapped around, so it counts too few failures at most. -/
theorem counter_execute_le (h : (b.projects p).consecutiveFailures ≤ failuresSince os) (e : Event) :
    ((b.execute e).projects p).consecutiveFailures ≤ failuresSince ((e.outcome p).toList ++ os) := by
  by_cases hp : e.project = p
  · obtain ⟨t, q, call⟩ := e
    dsimp only at hp
    subst hp
    cases call with
    | isAvailable => simpa [Event.outcome, execute, health_isAvailable] using h
    | recordSuccess => simp [Event.outcome, execute, recordSuccess]
    | recordFailure =>
        have hmod := Nat.mod_le ((b.projects q).consecutiveFailures + 1) UInt32.size
        simp [Event.outcome, execute, recordFailure]
        omega
  · have hnone : e.outcome p = none := if_neg hp
    rw [hnone, projects_execute_of_ne b e (Ne.symm hp)]
    exact h

theorem counter_executeAll_le (threshold timeoutSecs : Nat) (p : Text) (es : List Event) :
    (((new threshold timeoutSecs).executeAll es).projects p).consecutiveFailures ≤
      failuresSince (outcomes p es) := by
  induction es using List.reverseRecOn with
  | nil => exact Nat.le_refl 0
  | append_singleton es e ih =>
      rw [executeAll_concat, outcomes_concat]
      exact counter_execute_le ih e

/-- Only a failure opens a closed circuit, and only once the counter has reached the threshold. -/
theorem threshold_le_of_opens {e : Event} (hclosed : (b.projects p).state = .closed)
    (hopened : ((b.execute e).projects p).state = .opened) :
    b.threshold ≤ ((b.execute e).projects p).consecutiveFailures := by
  by_cases hp : e.project = p
  · obtain ⟨t, q, call⟩ := e
    dsimp only at hp
    subst hp
    cases call with
    | isAvailable =>
        rw [execute, (health_isAvailable b t q).2 hclosed] at hopened
        cases hopened
    | recordSuccess => simp [execute, recordSuccess] at hopened
    | recordFailure =>
        simp only [execute, recordFailure, projects_setHealth, Function.update_self, hclosed] at hopened ⊢
        by_contra hlt
        rw [if_neg hlt] at hopened
        cases hopened
  · rw [projects_execute_of_ne b e (Ne.symm hp), hclosed] at hopened
    cases hopened

/-- A circuit opens on a run of failures at least as long as the threshold. -/
theorem threshold_le_failuresSince (threshold timeoutSecs : Nat) (p : Text) (es : List Event) (e : Event)
    (hclosed : (((new threshold timeoutSecs).executeAll es).projects p).state = .closed)
    (hopened : (((new threshold timeoutSecs).executeAll (es ++ [e])).projects p).state = .opened) :
    max threshold 1 ≤ failuresSince (outcomes p (es ++ [e])) := by
  refine le_trans ?_ (counter_executeAll_le threshold timeoutSecs p (es ++ [e]))
  rw [executeAll_concat] at hopened ⊢
  rw [← threshold_executeAll threshold timeoutSecs es]
  exact threshold_le_of_opens hclosed hopened

/-! ## Answers -/

/-- The calls that record an outcome of the project. -/
def relevant (p : Text) (es : List Event) : List Event := es.filter fun e => (e.outcome p).isSome

theorem outcomes_relevant (p : Text) (es : List Event) : outcomes p (relevant p es) = outcomes p es := by
  unfold outcomes relevant
  congr 1
  rw [List.filterMap_filter]
  congr 1
  funext e
  cases e.outcome p <;> rfl

/-- After any calls along a clock that does not run backwards, a project is available exactly when its failures since
its last success are fewer than the threshold or its last failure is `timeout_secs` ago; asking, and calls about other
projects, could as well not have happened. -/
theorem isAvailable_iff_history (threshold timeoutSecs : Nat) (es : List Event) (t : Nat) (p : Text)
    (hclock : es.Pairwise fun a b => a.now ≤ b.now) (hnow : ∀ e ∈ es, e.now ≤ t)
    (hfew : (outcomes p es).countP Outcome.isFailure < UInt32.size) :
    ((((new threshold timeoutSecs).executeAll es).isAvailable t p).1 = true ↔
      failuresSince (outcomes p es) < max threshold 1 ∨
        ∃ last, lastFailure (outcomes p es) = some last ∧ last + timeoutSecs ≤ t) ∧
    (((new threshold timeoutSecs).executeAll es).isAvailable t p).1 =
      (((new threshold timeoutSecs).executeAll (relevant p es)).isAvailable t p).1 := by
  have hanswer : ∀ es : List Event, es.Pairwise (fun a b => a.now ≤ b.now) → (∀ e ∈ es, e.now ≤ t) →
      (outcomes p es).countP Outcome.isFailure < UInt32.size →
      ((((new threshold timeoutSecs).executeAll es).isAvailable t p).1 = true ↔
        failuresSince (outcomes p es) < max threshold 1 ∨
          ∃ last, lastFailure (outcomes p es) = some last ∧ last + timeoutSecs ≤ t) := by
    intro es hclock hnow hfew
    have htracks := tracks_executeAll threshold timeoutSecs p hclock hnow hfew
    rw [htracks.answer (by rw [threshold_executeAll]; omega) (Nat.le_refl t), threshold_executeAll,
      timeoutSecs_executeAll]
  refine ⟨hanswer es hclock hnow hfew, ?_⟩
  have hsub : (relevant p es).Sublist es := List.filter_sublist
  rw [Bool.eq_iff_iff, hanswer es hclock hnow hfew, hanswer (relevant p es) (hclock.sublist hsub)
    (fun e he => hnow e (hsub.subset he)) (by rw [outcomes_relevant]; exact hfew), outcomes_relevant]

/-- Two failures open a circuit of threshold two; ten seconds after the second it is still open, thirty seconds after
it is not. -/
theorem isAvailable_iff_history_twice :
    let es : List Event := [⟨0, "dockerhub".toList, .recordFailure⟩, ⟨5, "dockerhub".toList, .isAvailable⟩,
      ⟨7, "ghcr".toList, .recordFailure⟩, ⟨10, "dockerhub".toList, .recordFailure⟩]
    (((new 2 30).executeAll es).isAvailable 20 "dockerhub".toList).1 = false ∧
      (((new 2 30).executeAll es).isAvailable 40 "dockerhub".toList).1 = true := by
  intro es
  constructor
  · rw [← Bool.not_eq_true, (isAvailable_iff_history 2 30 es 20 "dockerhub".toList (by decide) (by decide)
      (by decide)).1]
    decide
  · rw [(isAvailable_iff_history 2 30 es 40 "dockerhub".toList (by decide) (by decide) (by decide)).1]
    decide

end CircuitBreaker
end HarborRouter
