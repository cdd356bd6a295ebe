import HarborRouter.CircuitBreaker.History
import HarborRouter.Lib.Machine
import HarborRouter.Lib.Maps

/-!
# The circuit breaker, one atomic operation at a time

Any number of calls about one project, interleaved at their loads, stores, `fetch_add`s and `compare_exchange`s.
`Pc` is where a call stands; a call begins with its first atomic operation.

* `alone_eq_execute` : a call that nothing interrupts is the call of `CircuitBreaker`;
* `Balanced` : a state and a counter that disagree are about to be put right by a call in progress;
* `balanced_step`, `unbalanced_run` : exactly the guarded operations keep it, and what breaks it is not repaired;
* `agrees_at_rest` : runs of guarded operations come to rest where a sequential run would.
-/

namespace HarborRouter
open Lib CircuitBreaker

/-- Where a call stands: the atomic operation it does next, with the local variables it needs. -/
inductive Pc
  | idle
  | availableLast
  | availableHalfOpen
  | successLoad
  | successClose (current : HealthState)
  | failureStore (failures : Nat)
  | failureLoad
  | failureOpen (current : HealthState)
  | failureGauge
  deriving DecidableEq

namespace Pc

def enter (h : ProjectHealth) : Call → ProjectHealth × Pc
  | .isAvailable => (h, if h.state = .opened then .availableLast else .idle)
  | .recordSuccess => ({ h with consecutiveFailures := 0 }, .successLoad)
  | .recordFailure =>
      let failures := (h.consecutiveFailures + 1) % UInt32.size
      ({ h with consecutiveFailures := failures }, .failureStore failures)

/-- The head of the loop `while current != STATE_CLOSED`. -/
def closeLoop (current : HealthState) : Pc := if current = .closed then .idle else .successClose current

/-- The head of the loop `while current != STATE_OPEN`. -/
def openLoop (current : HealthState) : Pc := if current = .opened then .failureGauge else .failureOpen current

/-- The next atomic operation of a call, at a moment `now` of its clock. -/
def advance (threshold timeoutSecs now : Nat) (h : ProjectHealth) : Pc → ProjectHealth × Pc
  | .idle => (h, .idle)
  | .availableLast => (h, if timeoutSecs ≤ now - h.lastFailureEpoch then .availableHalfOpen else .idle)
  | .availableHalfOpen => (if h.state = .opened then { h with state := .halfOpen } else h, .idle)
  | .successLoad => (h, closeLoop h.state)
  | .successClose current =>
      if h.state = current then ({ h with state := .closed }, .idle) else (h, closeLoop h.state)
  | .failureStore failures =>
      ({ h with lastFailureEpoch := now }, if threshold ≤ failures then .failureLoad else .failureGauge)
  | .failureLoad => (h, openLoop h.state)
  | .failureOpen current =>
      if h.state = current then ({ h with state := .opened }, .failureGauge) else (h, openLoop h.state)
  | .failureGauge => (h, .idle)

/-- The atomic operations of a call, together, are the call executed at once. -/
theorem alone_eq_execute (b : CircuitBreaker) (now : Nat) (p : Text) (call : Call) :
    (fun x : ProjectHealth × Pc => advance b.threshold b.timeoutSecs now x.1 x.2)^[4]
        (enter (b.projects p) call) = ((b.execute ⟨now, p, call⟩).projects p, .idle) := by
  cases call with
  | isAvailable =>
      by_cases ht : b.timeoutSecs ≤ now - (b.projects p).lastFailureEpoch <;> cases hs : (b.projects p).state <;>
        simp [enter, advance, execute, CircuitBreaker.isAvailable, hs, ht]
  | recordSuccess =>
      cases hs : (b.projects p).state <;>
        simp [enter, advance, closeLoop, execute, CircuitBreaker.recordSuccess, hs]
  | recordFailure =>
      by_cases ht : b.threshold ≤ ((b.projects p).consecutiveFailures + 1) % UInt32.size <;>
        cases hs : (b.projects p).state <;>
        simp [enter, advance, openLoop, execute, CircuitBreaker.recordFailure, hs, ht]

/-- The call has counted a failure that reached the threshold, and has not yet seen the circuit open. -/
def Opening (threshold : Nat) : Pc → Prop
  | .failureStore failures => threshold ≤ failures
  | .failureLoad | .failureOpen _ => True
  | _ => False

/-- The call has reset the counter, and has not yet seen the circuit closed. -/
def Closing : Pc → Prop
  | .successLoad | .successClose _ => True
  | _ => False

@[simp] theorem opening_closeLoop (threshold : Nat) (current : HealthState) :
    ¬ (closeLoop current).Opening threshold := by
  unfold closeLoop
  split <;> exact not_false

@[simp] theorem closing_closeLoop (current : HealthState) : (closeLoop current).Closing ↔ current ≠ .closed := by
  unfold closeLoop
  split <;> simp_all [Closing]

@[simp] theorem opening_openLoop (threshold : Nat) (current : HealthState) :
    (openLoop current).Opening threshold ↔ current ≠ .opened := by
  unfold openLoop
  split <;> simp_all [Opening]

@[simp] theorem closing_openLoop (current : HealthState) : ¬ (openLoop current).Closing := by
  unfold openLoop
  split <;> exact not_false

section Advance
variable {threshold timeoutSecs now : Nat} {h : ProjectHealth} {pc : Pc}

theorem counter_advance :
    (advance threshold timeoutSecs now h pc).1.consecutiveFailures = h.consecutiveFailures := by
  cases pc <;> simp only [advance] <;> split <;> rfl

theorem opening_advance (ho : (advance threshold timeoutSecs now h pc).2.Opening threshold) :
    pc.Opening threshold := by
  cases pc with
  | idle | availableHalfOpen | failureGauge => exact ho
  | availableLast => simp only [advance] at ho; split at ho <;> exact ho
  | successLoad => exact absurd ho (opening_closeLoop threshold h.state)
  | successClose current =>
      simp only [advance] at ho
      split at ho
      · exact ho
      · exact absurd ho (opening_closeLoop threshold h.state)
  | failureStore failures =>
      show threshold ≤ failures
      by_contra hlt
      rw [advance, if_neg hlt] at ho
      exact ho
  | failureLoad | failureOpen => trivial

theorem closing_advance (hc : (advance threshold timeoutSecs now h pc).2.Closing) : pc.Closing := by
  cases pc with
  | idle | availableHalfOpen | failureGauge => exact hc
  | availableLast | failureStore => simp only [advance] at hc; split at hc <;> exact hc
  | successLoad | successClose => trivial
  | failureLoad => exact absurd hc (closing_openLoop h.state)
  | failureOpen current =>
      simp only [advance] at hc
      split at hc
      · exact hc
      · exact absurd hc (closing_openLoop h.state)

theorem opened_of_opening (ho : pc.Opening threshold)
    (hdone : ¬ (advance threshold timeoutSecs now h pc).2.Opening threshold) :
    (advance threshold timeoutSecs now h pc).1.state = .opened := by
  cases pc with
  | idle | availableLast | availableHalfOpen | successLoad | successClose | failureGauge => exact ho.elim
  | failureStore failures =>
      have hreached : threshold ≤ failures := ho
      rw [advance, if_pos hreached] at hdone
      exact absurd trivial hdone
  | failureLoad =>
      by_contra hopen
      exact hdone ((opening_openLoop threshold h.state).mpr hopen)
  | failureOpen current =>
      by_cases hcas : h.state = current
      · rw [advance, if_pos hcas]
      · rw [advance, if_neg hcas] at hdone ⊢
        by_contra hopen
        exact hdone ((opening_openLoop threshold h.state).mpr hopen)

theorem closed_of_closing (hc : pc.Closing) (hdone : ¬ (advance threshold timeoutSecs now h pc).2.Closing) :
    (advance threshold timeoutSecs now h pc).1.state = .closed := by
  cases pc with
  | idle | availableLast | availableHalfOpen | failureStore | failureLoad | failureOpen | failureGauge =>
      exact hc.elim
  | successLoad =>
      by_contra hclosed
      exact hdone ((closing_closeLoop h.state).mpr hclosed)
  | successClose current =>
      by_cases hcas : h.state = current
      · rw [advance, if_pos hcas]
      · rw [advance, if_neg hcas] at hdone ⊢
        by_contra hclosed
        exact hdone ((closing_closeLoop h.state).mpr hclosed)

/-- Only the `compare_exchange` of a failure takes the state away from closed. -/
theorem opens_advance (hs : h.state = .closed) (ht : (advance threshold timeoutSecs now h pc).1.state ≠ .closed) :
    pc = .failureOpen .closed := by
  cases pc with
  | failureOpen current =>
      by_cases hcas : h.state = current
      · rw [← hcas, hs]
      · rw [advance, if_neg hcas] at ht
        exact absurd hs ht
  | availableHalfOpen =>
      have hopen : h.state ≠ .opened := by rw [hs]; exact nofun
      rw [advance, if_neg hopen] at ht
      exact absurd hs ht
  | successClose current =>
      simp only [advance] at ht
      split at ht
      · exact absurd rfl ht
      · exact absurd hs ht
  | idle | availableLast | successLoad | failureStore | failureLoad | failureGauge => exact absurd hs ht

theorem closes_advance (hs : h.state ≠ .closed) (ht : (advance threshold timeoutSecs now h pc).1.state = .closed) :
    pc = .successClose h.state := by
  cases pc with
  | successClose current =>
      by_cases hcas : h.state = current
      · rw [hcas]
      · rw [advance, if_neg hcas] at ht
        exact absurd ht hs
  | availableHalfOpen =>
      simp only [advance] at ht
      split at ht
      · cases ht
      · exact absurd ht hs
  | failureOpen current =>
      simp only [advance] at ht
      split at ht
      · cases ht
      · exact absurd ht hs
  | idle | availableLast | successLoad | failureStore | failureLoad | failureGauge => exact absurd ht hs

end Advance
end Pc

/-! ## Interleavings -/

namespace Atomic
open Pc

/-- The health of the project, where every caller stands, and the calls begun so far. -/
structure State where
  health : ProjectHealth
  pc : Nat → Pc
  calls : List Event

/-- A caller begins a call with its first atomic operation, or does its next one. -/
inductive Label
  | begin (i : Nat) (call : Call) (now : Nat)
  | next (i : Nat) (now : Nat)
  deriving DecidableEq

def Label.begins : Label → Bool
  | .begin _ _ _ => true
  | .next _ _ => false

variable (project : Text) (threshold timeoutSecs : Nat)

def step (s : State) : Label → Option State
  | .begin i call now =>
      if s.pc i = .idle then
        let (health, pc) := enter s.health call
        some ⟨health, Function.update s.pc i pc, s.calls ++ [⟨now, project, call⟩]⟩
      else none
  | .next i now =>
      if s.pc i = .idle then none
      else
        let (health, pc) := advance (max threshold 1) timeoutSecs now s.health (s.pc i)
        some { s with health := health, pc := Function.update s.pc i pc }

def init : State := ⟨.default, fun _ => .idle, []⟩

def machine : Machine State Label := ⟨init, step project threshold timeoutSecs⟩

def AtRest (s : State) : Prop := ∀ i, s.pc i = .idle

/-- The circuit is closed exactly when the counter is below the threshold. -/
def Consistent (s : State) : Prop := s.health.state = .closed ↔ s.health.consecutiveFailures < max threshold 1

instance (s : State) : Decidable (Consistent threshold s) := inferInstanceAs (Decidable (_ ↔ _))

/-- Executing the calls one after another, in the order in which they began, leaves the same counter and the same
closed or not closed circuit. -/
def Sequential (s : State) : Prop :=
  let h := ((new threshold timeoutSecs).executeAll s.calls).projects project
  h.consecutiveFailures = s.health.consecutiveFailures ∧ (h.state = .closed ↔ s.health.state = .closed)

/-- The `compare_exchange` of a failure opens a closed circuit only when the counter has reached the threshold, or a
success is between its store and its close; that of a success closes a circuit only when the counter is below the
threshold, or a failure that reached the threshold is still to open it. -/
def InTurn (s : State) : Label → Prop
  | .begin _ _ _ => True
  | .next i _ =>
      (s.pc i = .failureOpen .closed → s.health.state = .closed →
        max threshold 1 ≤ s.health.consecutiveFailures ∨ ∃ j, (s.pc j).Closing) ∧
      (s.pc i = .successClose s.health.state → s.health.state ≠ .closed →
        s.health.consecutiveFailures < max threshold 1 ∨ ∃ j, (s.pc j).Opening (max threshold 1))

/-- A circuit that disagrees with its counter is about to be put right. -/
structure Balanced (s : State) : Prop where
  opening : s.health.state = .closed → max threshold 1 ≤ s.health.consecutiveFailures →
    ∃ i, (s.pc i).Opening (max threshold 1)
  closing : s.health.state ≠ .closed → s.health.consecutiveFailures < max threshold 1 → ∃ i, (s.pc i).Closing

variable {project threshold timeoutSecs} {s t : State}

theorem balanced_init (threshold : Nat) : Balanced threshold init where
  opening _ hle := by
    have hzero : max threshold 1 ≤ 0 := hle
    omega
  closing hne := absurd rfl hne

/-- At rest, nothing is about to be put right. -/
theorem balanced_iff_consistent (hrest : AtRest s) : Balanced threshold s ↔ Consistent threshold s := by
  have hopening : ¬ ∃ i, (s.pc i).Opening (max threshold 1) := by
    intro ⟨i, hi⟩
    rw [hrest i] at hi
    exact hi
  have hclosing : ¬ ∃ i, (s.pc i).Closing := by
    intro ⟨i, hi⟩
    rw [hrest i] at hi
    exact hi
  unfold Consistent
  constructor
  · intro h
    constructor
    · intro hs
      by_contra hle
      exact hopening (h.opening hs (Nat.le_of_not_lt hle))
    · intro hlt
      by_contra hs
      exact hclosing (h.closing hs hlt)
  · intro h
    exact ⟨fun hs hle => absurd (h.mp hs) (Nat.not_lt.mpr hle), fun hs hlt => absurd (h.mpr hlt) hs⟩

theorem step_cases {l : Label} (h : step project threshold timeoutSecs s l = some t) :
    (∃ i call now, l = .begin i call now ∧ s.pc i = .idle ∧
      t = ⟨(enter s.health call).1, Function.update s.pc i (enter s.health call).2,
        s.calls ++ [⟨now, project, call⟩]⟩) ∨
    (∃ i now, l = .next i now ∧
      t = { s with
        health := (advance (max threshold 1) timeoutSecs now s.health (s.pc i)).1
        pc := Function.update s.pc i (advance (max threshold 1) timeoutSecs now s.health (s.pc i)).2 }) := by
  cases l with
  | begin i call now =>
      by_cases hi : s.pc i = .idle
      · rw [step, if_pos hi] at h
        exact .inl ⟨i, call, now, rfl, hi, (Option.some.inj h).symm⟩
      · rw [step, if_neg hi] at h
        cases h
  | next i now =>
      by_cases hi : s.pc i = .idle
      · rw [step, if_pos hi] at h
        cases h
      · rw [step, if_neg hi] at h
        exact .inr ⟨i, now, rfl, (Option.some.inj h).symm⟩

theorem balanced_begin (h : Balanced threshold s) {i : Nat} (hi : s.pc i = .idle) {call : Call}
    (hfew : call = .recordFailure → s.health.consecutiveFailures + 1 < UInt32.size) (calls : List Event) :
    Balanced threshold ⟨(enter s.health call).1, Function.update s.pc i (enter s.health call).2, calls⟩ := by
  have hidle : ¬ (s.pc i).Closing ∧ ¬ (s.pc i).Opening (max threshold 1) := by
    rw [hi]
    exact ⟨not_false, not_false⟩
  cases call with
  | isAvailable =>
      constructor
      · intro hs hle
        exact exists_update (h.opening hs hle) fun ho => absurd ho hidle.2
      · intro hs hlt
        exact exists_update (h.closing hs hlt) fun hc => absurd hc hidle.1
  | recordSuccess =>
      constructor
      · intro _ hle
        have hzero : max threshold 1 ≤ 0 := hle
        omega
      · intro _ _
        exact exists_update_self s.pc i trivial
  | recordFailure =>
      have hcount : (s.health.consecutiveFailures + 1) % UInt32.size = s.health.consecutiveFailures + 1 :=
        Nat.mod_eq_of_lt (hfew rfl)
      constructor
      · intro _ hle
        exact exists_update_self s.pc i hle
      · intro hs hlt
        have hlt : (s.health.consecutiveFailures + 1) % UInt32.size < max threshold 1 := hlt
        exact exists_update (h.closing hs (by omega)) fun hc => absurd hc hidle.1

/-- A `compare_exchange` keeps the balance exactly when it is in turn; the other operations always do. -/
theorem balanced_next (h : Balanced threshold s) (i now : Nat) :
    Balanced threshold { s with
      health := (advance (max threshold 1) timeoutSecs now s.health (s.pc i)).1
      pc := Function.update s.pc i (advance (max threshold 1) timeoutSecs now s.health (s.pc i)).2 } ↔
      InTurn threshold s (.next i now) := by
  have hcounter : (advance (max threshold 1) timeoutSecs now s.health (s.pc i)).1.consecutiveFailures =
      s.health.consecutiveFailures := counter_advance
  constructor
  · intro ht
    constructor
    · intro hpc hs
      by_contra hno
      rw [not_or, Nat.not_le] at hno
      have hopened : (advance (max threshold 1) timeoutSecs now s.health (s.pc i)).1.state ≠ .closed := by
        rw [hpc, advance, if_pos hs]
        exact nofun
      refine absurd (ht.closing hopened (by rw [hcounter]; exact hno.1)) ?_
      refine not_exists_update hno.2 fun hc => ?_
      exact hno.2 ⟨i, closing_advance hc⟩
    · intro hpc hs
      by_contra hno
      rw [not_or, Nat.not_lt] at hno
      have hclosed : (advance (max threshold 1) timeoutSecs now s.health (s.pc i)).1.state = .closed := by
        rw [hpc, advance, if_pos rfl]
      refine absurd (ht.opening hclosed (by rw [hcounter]; exact hno.1)) ?_
      refine not_exists_update hno.2 fun ho => ?_
      exact hno.2 ⟨i, opening_advance ho⟩
  · intro hturn
    constructor
    · intro ht hle
      have hle : max threshold 1 ≤ s.health.consecutiveFailures := by rw [← hcounter]; exact hle
      have hopening : ∃ j, (s.pc j).Opening (max threshold 1) := by
        by_cases hs : s.health.state = .closed
        · exact h.opening hs hle
        · exact (hturn.2 (closes_advance hs ht) hs).resolve_left (Nat.not_lt.mpr hle)
      refine exists_update hopening fun ho => ?_
      by_contra hdone
      rw [opened_of_opening ho hdone] at ht
      cases ht
    · intro ht hlt
      have hlt : s.health.consecutiveFailures < max threshold 1 := by rw [← hcounter]; exact hlt
      have hclosing : ∃ j, (s.pc j).Closing := by
        by_cases hs : s.health.state = .closed
        · exact (hturn.1 (opens_advance hs ht) hs).resolve_left (Nat.not_le.mpr hlt)
        · exact h.closing hs hlt
      refine exists_update hclosing fun hc => ?_
      by_contra hdone
      exact ht (closed_of_closing hc hdone)

/-- The counter counts the failures since the last reset. -/
def Counting (project : Text) (s : State) : Prop :=
  s.health.consecutiveFailures = failuresSince (outcomes project s.calls)

/-- Fewer than 2³² failures have begun. -/
def Few (project : Text) (s : State) : Prop := (outcomes project s.calls).countP Outcome.isFailure < UInt32.size

instance : Decidable (Few project s) := inferInstanceAs (Decidable (_ < _))

theorem outcomes_begin (calls : List Event) (now : Nat) (call : Call) :
    outcomes project (calls ++ [⟨now, project, call⟩]) =
      match call with
      | .isAvailable => outcomes project calls
      | .recordSuccess => .success :: outcomes project calls
      | .recordFailure => .failure now :: outcomes project calls := by
  rw [outcomes_concat]
  cases call <;> simp [Event.outcome]

theorem Few.before {l : Label} (hfew : Few project t) (ht : step project threshold timeoutSecs s l = some t) :
    Few project s := by
  obtain ⟨i, call, now, rfl, hi, rfl⟩ | ⟨i, now, rfl, rfl⟩ := step_cases ht
  · have hfew : (outcomes project (s.calls ++ [⟨now, project, call⟩])).countP Outcome.isFailure < UInt32.size := hfew
    rw [outcomes_concat, List.countP_append] at hfew
    unfold Few
    omega
  · exact hfew

/-- A failure that begins does not make the counter wrap around. -/
theorem Few.room {i now : Nat} {call : Call} (hcounting : Counting project s) (hfew : Few project t)
    (ht : step project threshold timeoutSecs s (.begin i call now) = some t) (hcall : call = .recordFailure) :
    s.health.consecutiveFailures + 1 < UInt32.size := by
  subst hcall
  obtain ⟨i, call, now, hl, hi, rfl⟩ | ⟨i, now, hl, rfl⟩ := step_cases ht
  · cases hl
    have hcount := failuresSince_le_countP (outcomes project (s.calls ++ [⟨now, project, .recordFailure⟩]))
    rw [outcomes_begin, failuresSince_failure] at hcount
    unfold Few at hfew
    rw [outcomes_begin] at hfew
    rw [hcounting]
    exact Nat.lt_of_le_of_lt hcount hfew
  · cases hl

theorem counting_step (hcounting : Counting project s) {l : Label} (hfew : Few project t)
    (ht : step project threshold timeoutSecs s l = some t) : Counting project t := by
  have hstep := ht
  obtain ⟨i, call, now, rfl, hi, rfl⟩ | ⟨i, now, rfl, rfl⟩ := step_cases ht
  · show (enter s.health call).1.consecutiveFailures = failuresSince (outcomes project (s.calls ++ [_]))
    rw [outcomes_begin]
    cases call with
    | isAvailable => exact hcounting
    | recordSuccess => rfl
    | recordFailure =>
        have hroom := Few.room hcounting hfew hstep rfl
        show (s.health.consecutiveFailures + 1) % UInt32.size = _
        rw [Nat.mod_eq_of_lt hroom, failuresSince_failure, hcounting]
  · show (advance _ _ _ _ _).1.consecutiveFailures = _
    rw [counter_advance]
    exact hcounting

theorem balanced_step (h : Balanced threshold s) (hcounting : Counting project s) {l : Label}
    (ht : step project threshold timeoutSecs s l = some t) (hfew : Few project t) :
    Balanced threshold t ↔ InTurn threshold s l := by
  have hstep := ht
  obtain ⟨i, call, now, rfl, hi, rfl⟩ | ⟨i, now, rfl, rfl⟩ := step_cases ht
  · exact iff_of_true (balanced_begin h hi (Few.room hcounting hfew hstep) _) trivial
  · exact balanced_next h i now

/-- What is out of balance stays so, until another call begins. -/
theorem unbalanced_step (h : ¬ Balanced threshold s) {l : Label} (hl : l.begins = false)
    (ht : step project threshold timeoutSecs s l = some t) : ¬ Balanced threshold t := by
  obtain ⟨i, call, now, rfl, hi, rfl⟩ | ⟨i, now, rfl, rfl⟩ := step_cases ht
  · cases hl
  · intro hbalanced
    have hcounter : (advance (max threshold 1) timeoutSecs now s.health (s.pc i)).1.consecutiveFailures =
        s.health.consecutiveFailures := counter_advance
    apply h
    constructor
    · intro hs hle
      by_contra hno
      have hstays : (advance (max threshold 1) timeoutSecs now s.health (s.pc i)).1.state = .closed := by
        by_contra hne
        exact hno ⟨i, by rw [opens_advance hs hne]; trivial⟩
      refine absurd (hbalanced.opening hstays (by rw [hcounter]; exact hle)) ?_
      exact not_exists_update hno fun ho => hno ⟨i, opening_advance ho⟩
    · intro hs hlt
      by_contra hno
      have hstays : (advance (max threshold 1) timeoutSecs now s.health (s.pc i)).1.state ≠ .closed := by
        intro hclosed
        exact hno ⟨i, by rw [closes_advance hs hclosed]; trivial⟩
      refine absurd (hbalanced.closing hstays (by rw [hcounter]; exact hlt)) ?_
      exact not_exists_update hno fun hc => hno ⟨i, closing_advance hc⟩

theorem unbalanced_run (h : ¬ Balanced threshold s) {ls : List Label} (hls : ∀ l ∈ ls, l.begins = false)
    (ht : (machine project threshold timeoutSecs).run s ls = some t) : ¬ Balanced threshold t :=
  Machine.run_rule_on (I := fun s => ¬ Balanced threshold s) (fun _ _ _ hl h ht => unbalanced_step h hl ht) hls h ht

theorem balanced_run {ls : List Label} (hrun : (machine project threshold timeoutSecs).run init ls = some s)
    (hturn : (machine project threshold timeoutSecs).Guarded (InTurn threshold) init ls) (hfew : Few project s) :
    Balanced threshold s ∧ Counting project s := by
  induction ls using List.reverseRecOn generalizing s with
  | nil =>
      cases hrun
      exact ⟨balanced_init threshold, rfl⟩
  | append_singleton ls l ih =>
      obtain ⟨u, hu, hs⟩ := (Machine.run_concat _).mp hrun
      obtain ⟨hls, hl⟩ := hturn.concat hu hs
      obtain ⟨hbalanced, hcounting⟩ := ih hu hls (hfew.before hs)
      exact ⟨(balanced_step hbalanced hcounting hs hfew).mpr hl, counting_step hcounting hfew hs⟩

theorem sequential_of_consistent (hcounting : Counting project s) (hfew : Few project s)
    (h : Consistent threshold s) : Sequential project threshold timeoutSecs s := by
  have hcounted := counted_executeAll threshold timeoutSecs project hfew
  constructor
  · rw [hcounted.counter, hcounting]
  · rw [hcounted.closed, threshold_executeAll, ← hcounting]
    exact h.symm

/-- In a run of operations in turn, with fewer than 2³² failures, whenever no call is in progress the circuit is closed
exactly when the counter is below the threshold, as executing the calls in the order in which they began leaves it.
After an operation out of turn, once the calls in progress have finished it is not, unless another call begins. -/
theorem agrees_at_rest (project : Text) (threshold timeoutSecs : Nat) (ls : List Label) (s : State)
    (hrun : (machine project threshold timeoutSecs).run init ls = some s) (hfew : Few project s)
    (hturn : (machine project threshold timeoutSecs).Guarded (InTurn threshold) init ls) :
    (AtRest s → Consistent threshold s ∧ Sequential project threshold timeoutSecs s) ∧
      ∀ l t, (machine project threshold timeoutSecs).step s l = some t → ¬ InTurn threshold s l →
        ∀ ms u, (∀ m ∈ ms, m.begins = false) → (machine project threshold timeoutSecs).run t ms = some u →
          AtRest u → ¬ Consistent threshold u := by
  obtain ⟨hbalanced, hcounting⟩ := balanced_run hrun hturn hfew
  constructor
  · intro hrest
    have hconsistent := (balanced_iff_consistent hrest).mp hbalanced
    exact ⟨hconsistent, sequential_of_consistent hcounting hfew hconsistent⟩
  · intro l t ht hout ms u hms hu hrest
    rw [← balanced_iff_consistent hrest]
    refine unbalanced_run ?_ hms hu
    obtain ⟨i, call, now, rfl, -, -⟩ | ⟨i, now, rfl, rfl⟩ := step_cases ht
    · exact absurd trivial hout
    · rw [balanced_next hbalanced]
      exact hout

/-- A success resets the counter after a failure has reached the threshold, and closes the circuit that the failure then
opens. -/
def crossingSuccess : List Label :=
  [.begin 0 .recordFailure 7, .begin 1 .recordSuccess 7, .next 0 7, .next 0 7, .next 0 7, .next 1 7, .next 1 7,
    .next 0 7]

theorem agrees_at_rest_crossing :
    ∃ s, (machine [] 1 30).run init crossingSuccess = some s ∧ Consistent 1 s ∧ Sequential [] 1 30 s := by
  refine ⟨_, rfl, (agrees_at_rest [] 1 30 crossingSuccess _ rfl (by decide) ?_).1 ?_⟩
  · refine (Machine.guarded_cons rfl).mpr ⟨trivial, ?_⟩
    refine (Machine.guarded_cons rfl).mpr ⟨trivial, ?_⟩
    -- the success has not seen the circuit yet when the failure opens it
    iterate 3 refine (Machine.guarded_cons rfl).mpr ⟨⟨fun _ _ => .inr ⟨1, trivial⟩, fun _ _ => .inl (by decide)⟩, ?_⟩
    iterate 3 refine (Machine.guarded_cons rfl).mpr ⟨⟨fun hpc _ => absurd hpc (by decide),
      fun _ _ => .inl (by decide)⟩, ?_⟩
    trivial
  · intro i
    simp only [Function.update_apply]
    split_ifs <;> rfl

/-- A failure reaches the threshold, a success resets the counter and finds the circuit closed, then the failure opens
it: an open circuit without failures. -/
def overtakenFailure : List Label :=
  [.begin 0 .recordFailure 7, .begin 1 .recordSuccess 7, .next 1 7, .next 0 7, .next 0 7, .next 0 7, .next 0 7]

theorem rests_inconsistent : ¬ ∀ (project : Text) (threshold timeoutSecs : Nat) (ls : List Label) (s : State),
    (machine project threshold timeoutSecs).run init ls = some s → Few project s → AtRest s →
      Consistent threshold s := by
  intro h
  have hconsistent := h [] 1 30 overtakenFailure _ rfl (by decide) (by
    intro i
    simp only [Function.update_apply]
    split_ifs <;> rfl)
  exact absurd hconsistent (by decide)

end Atomic
end HarborRouter
