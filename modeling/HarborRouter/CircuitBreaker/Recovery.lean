import HarborRouter.CircuitBreaker.Atomic

/-!
# Who is refused, and for how long

What the lock-free circuit breaker promises in every interleaving, whatever its clock reads and with no condition on
the order of the atomic operations.

* `refused_after_failures` : nobody is refused without a full count of failures, nor once the timeout has passed;
* `heals` : one success closes the circuit, when no failure comes in between.
-/

namespace HarborRouter.Atomic
open Lib CircuitBreaker Pc

/-- What `is_available` returns, when the operation is its last. -/
def answer (timeoutSecs : Nat) (s : State) : Label → Option Bool
  | .begin _ .isAvailable _ => if s.health.state = .opened then none else some true
  | .begin _ _ _ => none
  | .next i now =>
      match s.pc i with
      | .availableLast => if timeoutSecs ≤ now - s.health.lastFailureEpoch then none else some false
      | .availableHalfOpen => some true
      | _ => none

section Refused
variable {project : Text} {threshold timeoutSecs : Nat}

def Refusing : Pc → Prop
  | .availableLast | .availableHalfOpen => True
  | _ => False

/-- The call has counted a failure that reached the threshold, and has stored its clock. -/
def Stamped : Pc → Prop
  | .failureLoad | .failureOpen _ => True
  | _ => False

/-- The circuit is not closed, or was seen open, or is about to be opened. -/
def Alarmed (threshold : Nat) (h : ProjectHealth) (pc : Pc) : Prop :=
  h.state ≠ .closed ∨ pc.Opening threshold ∨ Refusing pc

def Dated (h : ProjectHealth) (pc : Pc) : Prop := h.state ≠ .closed ∨ Stamped pc ∨ Refusing pc

section Advance
variable {now : Nat} {h : ProjectHealth} {pc : Pc}

theorem refusing_closeLoop (current : HealthState) : ¬ Refusing (closeLoop current) := by
  unfold closeLoop
  split <;> exact not_false

theorem refusing_openLoop (current : HealthState) : ¬ Refusing (openLoop current) := by
  unfold openLoop
  split <;> exact not_false

theorem stamped_closeLoop (current : HealthState) : ¬ Stamped (closeLoop current) := by
  unfold closeLoop
  split <;> exact not_false

theorem refusing_advance (hr : Refusing (advance threshold timeoutSecs now h pc).2) : Refusing pc := by
  cases pc with
  | availableLast | availableHalfOpen => trivial
  | idle | failureGauge => exact hr
  | successLoad => exact absurd hr (refusing_closeLoop h.state)
  | failureLoad => exact absurd hr (refusing_openLoop h.state)
  | failureStore failures =>
      simp only [advance] at hr
      split at hr <;> exact hr
  | successClose current =>
      simp only [advance] at hr
      split at hr
      · exact hr
      · exact absurd hr (refusing_closeLoop h.state)
  | failureOpen current =>
      simp only [advance] at hr
      split at hr
      · exact hr
      · exact absurd hr (refusing_openLoop h.state)

theorem stamped_advance (hs : Stamped (advance threshold timeoutSecs now h pc).2) :
    Stamped pc ∨ ∃ failures, pc = .failureStore failures := by
  cases pc with
  | failureLoad | failureOpen => exact .inl trivial
  | failureStore failures => exact .inr ⟨failures, rfl⟩
  | idle | failureGauge | availableHalfOpen => exact hs.elim
  | availableLast =>
      simp only [advance] at hs
      split at hs <;> exact hs.elim
  | successLoad => exact absurd hs (stamped_closeLoop h.state)
  | successClose current =>
      simp only [advance] at hs
      split at hs
      · exact hs.elim
      · exact absurd hs (stamped_closeLoop h.state)

theorem alarmed_advance (ha : Alarmed threshold (advance threshold timeoutSecs now h pc).1
    (advance threshold timeoutSecs now h pc).2) : Alarmed threshold h pc := by
  rcases ha with hstate | hopening | hrefusing
  · by_cases hs : h.state = .closed
    · rw [opens_advance hs hstate]
      exact .inr (.inl trivial)
    · exact .inl hs
  · exact .inr (.inl (opening_advance hopening))
  · exact .inr (.inr (refusing_advance hrefusing))

theorem dated_advance (hd : Dated (advance threshold timeoutSecs now h pc).1
    (advance threshold timeoutSecs now h pc).2) : Dated h pc ∨ ∃ failures, pc = .failureStore failures := by
  rcases hd with hstate | hstamped | hrefusing
  · by_cases hs : h.state = .closed
    · rw [opens_advance hs hstate]
      exact .inl (.inr (.inl trivial))
    · exact .inl (.inl hs)
  · exact (stamped_advance hstamped).imp_left fun h => .inr (.inl h)
  · exact .inl (.inr (.inr (refusing_advance hrefusing)))

theorem lastFailure_advance (hpc : ∀ failures, pc ≠ .failureStore failures) :
    (advance threshold timeoutSecs now h pc).1.lastFailureEpoch = h.lastFailureEpoch := by
  cases pc with
  | failureStore failures => exact absurd rfl (hpc failures)
  | idle | availableLast | successLoad | failureLoad | failureGauge => rfl
  | availableHalfOpen | successClose | failureOpen =>
      simp only [advance]
      split <;> rfl

end Advance

section Enter
variable {h : ProjectHealth} {call : Call}

@[simp] theorem state_enter : (enter h call).1.state = h.state := by
  cases call <;> rfl

@[simp] theorem lastFailure_enter : (enter h call).1.lastFailureEpoch = h.lastFailureEpoch := by
  cases call <;> rfl

theorem refusing_enter (hr : Refusing (enter h call).2) : h.state = .opened := by
  cases call with
  | isAvailable =>
      simp only [enter] at hr
      split at hr
      · assumption
      · exact hr.elim
  | recordSuccess | recordFailure => exact hr.elim

/-- A call that begins counts a failure that reaches the threshold, or finds the circuit not closed. -/
theorem alarmed_enter (ha : Alarmed threshold (enter h call).1 (enter h call).2) : h.state ≠ .closed ∨
    call = .recordFailure ∧ threshold ≤ (enter h call).1.consecutiveFailures := by
  rcases ha with hstate | hopening | hrefusing
  · rw [state_enter] at hstate
    exact .inl hstate
  · cases call with
    | isAvailable =>
        simp only [enter] at hopening
        split at hopening <;> exact hopening.elim
    | recordSuccess => exact hopening.elim
    | recordFailure => exact .inr ⟨rfl, hopening⟩
  · rw [refusing_enter hrefusing]
    exact .inl (by simp)

theorem dated_enter (hd : Dated (enter h call).1 (enter h call).2) : h.state ≠ .closed := by
  rcases hd with hstate | hstamped | hrefusing
  · rwa [state_enter] at hstate
  · cases call with
    | isAvailable =>
        simp only [enter] at hstamped
        split at hstamped <;> exact hstamped.elim
    | recordSuccess | recordFailure => exact hstamped.elim
  · rw [refusing_enter hrefusing]
    simp

end Enter

/-! ## What has been recorded -/

/-- At some moment the last calls to report anything were failures, as many as the threshold. -/
def Reached (project : Text) (threshold : Nat) (calls : List Event) : Prop :=
  ∃ es, es <+: calls ∧ max threshold 1 ≤ failuresSince (outcomes project es)

/-- A failure has stored the reading `time` of its clock. -/
def Stored (project : Text) (threshold timeoutSecs : Nat) (ls : List Label) (time : Nat) : Prop :=
  ∃ ms j u failures, ms ++ [.next j time] <+: ls ∧ (machine project threshold timeoutSecs).run init ms = some u ∧
    u.pc j = .failureStore failures

theorem Reached.concat {calls : List Event} (h : Reached project threshold calls) (e : Event) :
    Reached project threshold (calls ++ [e]) := by
  obtain ⟨es, hes, hcount⟩ := h
  exact ⟨es, hes.trans (List.prefix_append ..), hcount⟩

theorem Stored.concat {ls : List Label} {time : Nat} (h : Stored project threshold timeoutSecs ls time) (l : Label) :
    Stored project threshold timeoutSecs (ls ++ [l]) time := by
  obtain ⟨ms, j, u, failures, hms, hu, hpc⟩ := h
  exact ⟨ms, j, u, failures, hms.trans (List.prefix_append ..), hu, hpc⟩

structure Recorded (project : Text) (threshold timeoutSecs : Nat) (ls : List Label) (s : State) : Prop where
  counter : s.health.consecutiveFailures ≤ failuresSince (outcomes project s.calls)
  reached : ∀ i, Alarmed (max threshold 1) s.health (s.pc i) → Reached project threshold s.calls
  dated : ∀ i, Dated s.health (s.pc i) → Stored project threshold timeoutSecs ls s.health.lastFailureEpoch

theorem recorded_init : Recorded project threshold timeoutSecs [] init where
  counter := Nat.le_refl _
  reached _ h := by simp [Alarmed, Opening, Refusing, init, ProjectHealth.default] at h
  dated _ h := by simp [Dated, Stamped, Refusing, init, ProjectHealth.default] at h

/-- The counter is what has been counted, as long as it does not wrap around. -/
theorem counter_begin {s : State} (hs : s.health.consecutiveFailures ≤ failuresSince (outcomes project s.calls))
    (now : Nat) (call : Call) : (enter s.health call).1.consecutiveFailures ≤
      failuresSince (outcomes project (s.calls ++ [⟨now, project, call⟩])) := by
  rw [outcomes_begin]
  cases call with
  | isAvailable => exact hs
  | recordSuccess => exact Nat.zero_le _
  | recordFailure => exact (Nat.mod_le ..).trans (Nat.succ_le_succ hs)

theorem Recorded.begin {ls : List Label} {s : State} (hs : Recorded project threshold timeoutSecs ls s) (i now : Nat)
    (call : Call) : Recorded project threshold timeoutSecs (ls ++ [.begin i call now])
      ⟨(enter s.health call).1, Function.update s.pc i (enter s.health call).2, s.calls ++ [⟨now, project, call⟩]⟩ := by
  have hcounter := counter_begin hs.counter now call
  refine ⟨hcounter, fun j hj => ?_, fun j hj => ?_⟩
  · dsimp only at hj ⊢
    by_cases hji : j = i
    · subst hji
      rw [Function.update_self] at hj
      rcases alarmed_enter hj with hstate | ⟨-, hcount⟩
      · exact (hs.reached j (.inl hstate)).concat _
      · exact ⟨_, List.prefix_refl _, hcount.trans hcounter⟩
    · rw [Function.update_of_ne hji, Alarmed, state_enter] at hj
      exact (hs.reached j hj).concat _
  · dsimp only at hj ⊢
    rw [lastFailure_enter]
    refine Stored.concat ?_ _
    by_cases hji : j = i
    · subst hji
      rw [Function.update_self] at hj
      exact hs.dated j (.inl (dated_enter hj))
    · rw [Function.update_of_ne hji, Dated, state_enter] at hj
      exact hs.dated j hj

theorem Recorded.next {ls : List Label} {s : State} (hs : Recorded project threshold timeoutSecs ls s) (i now : Nat)
    (hrun : (machine project threshold timeoutSecs).run init ls = some s) :
    Recorded project threshold timeoutSecs (ls ++ [.next i now]) { s with
      health := (advance (max threshold 1) timeoutSecs now s.health (s.pc i)).1
      pc := Function.update s.pc i (advance (max threshold 1) timeoutSecs now s.health (s.pc i)).2 } := by
  refine ⟨?_, fun j hj => ?_, fun j hj => ?_⟩
  · show (advance _ _ _ _ _).1.consecutiveFailures ≤ _
    rw [counter_advance]
    exact hs.counter
  · dsimp only at hj ⊢
    by_cases hji : j = i
    · subst hji
      rw [Function.update_self] at hj
      exact hs.reached j (alarmed_advance hj)
    · rw [Function.update_of_ne hji] at hj
      rcases hj with hstate | hpc
      · exact hs.reached i (alarmed_advance (.inl hstate))
      · exact hs.reached j (.inr hpc)
  · dsimp only at hj ⊢
    by_cases hstore : ∃ failures, s.pc i = .failureStore failures
    · obtain ⟨failures, hpc⟩ := hstore
      rw [hpc]
      exact ⟨ls, i, s, failures, List.prefix_refl _, hrun, hpc⟩
    · rw [lastFailure_advance fun failures hpc => hstore ⟨failures, hpc⟩]
      refine Stored.concat ?_ _
      by_cases hji : j = i
      · subst hji
        rw [Function.update_self] at hj
        exact hs.dated j ((dated_advance hj).resolve_right hstore)
      · rw [Function.update_of_ne hji] at hj
        rcases hj with hstate | hpc
        · exact hs.dated i ((dated_advance (.inl hstate)).resolve_right hstore)
        · exact hs.dated j (.inr hpc)

theorem recorded_run {ls : List Label} {s : State}
    (hrun : (machine project threshold timeoutSecs).run init ls = some s) :
    Recorded project threshold timeoutSecs ls s := by
  induction ls using List.reverseRecOn generalizing s with
  | nil =>
      cases hrun
      exact recorded_init
  | append_singleton ls l ih =>
      obtain ⟨u, hu, hs⟩ := (Machine.run_concat _).mp hrun
      obtain ⟨i, call, now, rfl, -, rfl⟩ | ⟨i, now, rfl, rfl⟩ := step_cases hs
      · exact (ih hu).begin i now call
      · exact (ih hu).next i now hu

end Refused

/-- In every interleaving, `is_available` returns false only when failures have been counted up to the threshold with
no success between them, and less than the timeout after the reading of its clock that the last failure has stored. -/
theorem refused_after_failures (project : Text) (threshold timeoutSecs : Nat) (ls : List Label) (s : State) (l : Label)
    (hrun : (machine project threshold timeoutSecs).run init ls = some s)
    (hanswer : answer timeoutSecs s l = some false) :
    ∃ i now, l = .next i now ∧ Reached project threshold s.calls ∧
      Stored project threshold timeoutSecs ls s.health.lastFailureEpoch ∧
        now - s.health.lastFailureEpoch < timeoutSecs := by
  have hs : Recorded project threshold timeoutSecs ls s := recorded_run hrun
  cases l with
  | begin i call now =>
      cases call with
      | isAvailable =>
          simp only [answer] at hanswer
          split at hanswer <;> simp at hanswer
      | recordSuccess | recordFailure => simp [answer] at hanswer
  | next i now =>
      simp only [answer] at hanswer
      split at hanswer
      · rename_i hpc
        have hrefusing : Refusing (s.pc i) := by
          rw [hpc]
          trivial
        split at hanswer
        · simp at hanswer
        · rename_i htime
          exact ⟨i, now, rfl, hs.reached i (.inr (.inr hrefusing)), hs.dated i (.inr (.inr hrefusing)),
            Nat.lt_of_not_le htime⟩
      · simp at hanswer
      · simp at hanswer

/-- Two failures open the circuit, and a call is refused 29 seconds later. -/
def twoFailures : List Label :=
  [.begin 0 .recordFailure 7, .next 0 7, .next 0 7, .begin 0 .recordFailure 9, .next 0 9, .next 0 9, .next 0 9,
    .next 0 9, .begin 1 .isAvailable 37]

theorem refused_after_failures_two : ∃ s, (machine [] 2 30).run init twoFailures = some s ∧
    Reached [] 2 s.calls ∧ Stored [] 2 30 twoFailures 9 := by
  refine ⟨_, rfl, ?_⟩
  obtain ⟨_, _, -, hreached, hstored, -⟩ := refused_after_failures [] 2 30 twoFailures _ (.next 1 38) rfl rfl
  exact ⟨hreached, hstored⟩

/-! ## Recovery -/

def Failing : Pc → Prop
  | .failureStore _ | .failureLoad | .failureOpen _ => True
  | _ => False

def Label.own (i : Nat) : Label → Bool
  | .begin _ _ _ => false
  | .next j _ => i = j

def Label.Fails : Label → Prop
  | .begin _ .recordFailure _ => True
  | _ => False

/-- Without failures the state only goes down. -/
def rank : HealthState → Nat
  | .closed => 0
  | .halfOpen => 1
  | .opened => 2

section Heals
variable {project : Text} {threshold timeoutSecs now : Nat} {h : ProjectHealth} {pc : Pc}

theorem failing_enter {call : Call} (hcall : call ≠ .recordFailure) : ¬ Failing (enter h call).2 := by
  cases call with
  | isAvailable =>
      simp only [enter]
      split <;> exact not_false
  | recordSuccess => exact not_false
  | recordFailure => exact absurd rfl hcall

theorem failing_closeLoop (current : HealthState) : ¬ Failing (closeLoop current) := by
  unfold closeLoop
  split <;> exact not_false

theorem failing_advance (hf : Failing (advance threshold timeoutSecs now h pc).2) : Failing pc := by
  cases pc with
  | failureStore | failureLoad | failureOpen => trivial
  | idle | availableHalfOpen | failureGauge => exact hf
  | successLoad => exact absurd hf (failing_closeLoop h.state)
  | availableLast =>
      simp only [advance] at hf
      split at hf <;> exact hf
  | successClose current =>
      simp only [advance] at hf
      split at hf
      · exact hf
      · exact absurd hf (failing_closeLoop h.state)

theorem rank_injective : ∀ {a b : HealthState}, rank a = rank b → a = b := by
  intro a b h
  cases a <;> cases b <;> simp_all [rank]

theorem rank_advance (hf : ¬ Failing pc) : rank (advance threshold timeoutSecs now h pc).1.state ≤ rank h.state := by
  cases pc with
  | failureStore | failureLoad | failureOpen => exact absurd trivial hf
  | idle | availableLast | successLoad | failureGauge => exact Nat.le_refl _
  | availableHalfOpen =>
      simp only [advance]
      split
      · rename_i hs
        rw [hs]
        exact Nat.le_succ 1
      · exact Nat.le_refl _
  | successClose current =>
      simp only [advance]
      split
      · exact Nat.zero_le _
      · exact Nat.le_refl _

/-- The call `i` has reset the counter, and has taken `k` steps since. -/
structure Healing (i k : Nat) (s : State) : Prop where
  quiet : ∀ j, ¬ Failing (s.pc j)
  counter : s.health.consecutiveFailures = 0
  closing : s.health.state = .closed ∨ s.pc i = .successLoad ∧ k = 0 ∨
    ∃ current, s.pc i = .successClose current ∧ rank s.health.state ≤ rank current ∧ rank current + k ≤ 3

variable {i k j : Nat} {s : State}

theorem Healing.begin (hs : Healing i k s) (hj : s.pc j = .idle) {call : Call} (hcall : call ≠ .recordFailure)
    (calls : List Event) :
    Healing i k ⟨(enter s.health call).1, Function.update s.pc j (enter s.health call).2, calls⟩ := by
  refine ⟨fun m => ?_, ?_, ?_⟩
  · dsimp only
    by_cases hm : m = j
    · rw [hm, Function.update_self]
      exact failing_enter hcall
    · rw [Function.update_of_ne hm]
      exact hs.quiet m
  · cases call with
    | isAvailable => exact hs.counter
    | recordSuccess => rfl
    | recordFailure => exact absurd rfl hcall
  · dsimp only
    rw [state_enter]
    by_cases hi : i = j
    · subst hi
      refine .inl (hs.closing.resolve_right ?_)
      simp [hj]
    · rw [Function.update_of_ne hi]
      exact hs.closing

theorem quiet_next (hs : Healing i k s) (m : Nat) :
    ¬ Failing (Function.update s.pc j (advance (max threshold 1) timeoutSecs now s.health (s.pc j)).2 m) := by
  by_cases hm : m = j
  · rw [hm, Function.update_self]
    exact fun hf => hs.quiet j (failing_advance hf)
  · rw [Function.update_of_ne hm]
    exact hs.quiet m

theorem closed_next (hs : Healing i k s) (hclosed : s.health.state = .closed) :
    (advance (max threshold 1) timeoutSecs now s.health (s.pc j)).1.state = .closed := by
  have hrank : rank (advance (max threshold 1) timeoutSecs now s.health (s.pc j)).1.state ≤ rank s.health.state :=
    rank_advance (hs.quiet j)
  rw [hclosed] at hrank
  exact rank_injective (Nat.le_zero.mp hrank)

theorem Healing.other (hs : Healing i k s) (hj : i ≠ j) : Healing i k { s with
    health := (advance (max threshold 1) timeoutSecs now s.health (s.pc j)).1
    pc := Function.update s.pc j (advance (max threshold 1) timeoutSecs now s.health (s.pc j)).2 } := by
  refine ⟨quiet_next hs, counter_advance.trans hs.counter, ?_⟩
  dsimp only
  rw [Function.update_of_ne hj]
  rcases hs.closing with hclosed | hload | ⟨current, hpc, hrank, hk⟩
  · exact .inl (closed_next hs hclosed)
  · exact .inr (.inl hload)
  · exact .inr (.inr ⟨current, hpc, (rank_advance (hs.quiet j)).trans hrank, hk⟩)

/-- Its own: a `compare_exchange` that fails has found the state further down. -/
theorem Healing.own (hs : Healing i k s) : Healing i (k + 1) { s with
    health := (advance (max threshold 1) timeoutSecs now s.health (s.pc i)).1
    pc := Function.update s.pc i (advance (max threshold 1) timeoutSecs now s.health (s.pc i)).2 } := by
  refine ⟨quiet_next hs, counter_advance.trans hs.counter, ?_⟩
  dsimp only
  rw [Function.update_self]
  rcases hs.closing with hclosed | ⟨hpc, rfl⟩ | ⟨current, hpc, hrank, hk⟩
  · exact .inl (closed_next hs hclosed)
  · rw [hpc, advance, closeLoop]
    by_cases hclosed : s.health.state = .closed
    · exact .inl hclosed
    · rw [if_neg hclosed]
      refine .inr (.inr ⟨s.health.state, rfl, Nat.le_refl _, ?_⟩)
      cases s.health.state <;> decide
  · rw [hpc, advance, closeLoop]
    by_cases hcas : s.health.state = current
    · rw [if_pos hcas]
      exact .inl rfl
    · rw [if_neg hcas]
      by_cases hclosed : s.health.state = .closed
      · exact .inl hclosed
      · rw [if_neg hclosed]
        have hne : rank s.health.state ≠ rank current := fun he => hcas (rank_injective he)
        exact .inr (.inr ⟨s.health.state, rfl, Nat.le_refl _, by omega⟩)

theorem healing_run {ls : List Label} {t : State} (hs : Healing i k s) (hls : ∀ l ∈ ls, ¬ l.Fails)
    (hrun : (machine project threshold timeoutSecs).run s ls = some t) : Healing i (k + ls.countP (Label.own i)) t := by
  refine Machine.run_count (D := fun l => ¬ Label.Fails l) (p := Label.own i) (I := fun k u => Healing i k u)
    (N := k + ls.countP (Label.own i)) ?_ ?_ hls hs hrun (Nat.le_refl _)
  · intro k u l v hl hown hu hv
    obtain ⟨j, call, now, rfl, hj, rfl⟩ | ⟨j, now, rfl, rfl⟩ := step_cases hv
    · refine hu.begin hj ?_ _
      rintro rfl
      exact hl trivial
    · exact hu.other (by simpa [Label.own] using hown)
  · intro k u l v _ hown _ hu hv
    obtain ⟨j, call, now, rfl, -, rfl⟩ | ⟨j, now, rfl, rfl⟩ := step_cases hv
    · cases hown
    · obtain rfl : i = j := by simpa [Label.own] using hown
      exact hu.own

theorem Healing.closed (hs : Healing i k s) (hk : 3 ≤ k) : s.health.state = .closed := by
  rcases hs.closing with hclosed | ⟨-, hzero⟩ | ⟨current, -, hrank, hsteps⟩
  · exact hclosed
  · omega
  · have hzero : rank s.health.state = 0 := by omega
    exact rank_injective hzero

theorem healing_begin {t : State} (hquiet : ∀ j, ¬ Failing (s.pc j))
    (h : step project threshold timeoutSecs s (.begin i .recordSuccess now) = some t) : Healing i 0 t := by
  obtain ⟨j, call, _, hl, -, rfl⟩ | ⟨j, _, hl, -⟩ := step_cases h
  · cases hl
    refine ⟨fun m => ?_, rfl, .inr (.inl ⟨Function.update_self .., rfl⟩)⟩
    dsimp only
    by_cases hm : m = i
    · rw [hm, Function.update_self]
      exact not_false
    · rw [Function.update_of_ne hm]
      exact hquiet m
  · cases hl

end Heals

/-- One success heals, when no failure is in progress and none begins: it closes the circuit within three operations of
its own, whatever the others do in between, and the circuit stays closed with nothing counted. -/
theorem heals (project : Text) (threshold timeoutSecs i now : Nat) (s t : State) (ls : List Label)
    (hquiet : ∀ j, ¬ Failing (s.pc j)) (hls : ∀ l ∈ ls, ¬ l.Fails)
    (hrun : (machine project threshold timeoutSecs).run s (.begin i .recordSuccess now :: ls) = some t) :
    t.health.consecutiveFailures = 0 ∧
    (t.health.state = .closed ∨ ls.countP (Label.own i) < 3 ∧
      ∀ now, ((machine project threshold timeoutSecs).step t (.next i now)).isSome = true) ∧
    (t.health.state = .closed → ∀ ms u, (∀ l ∈ ms, ¬ l.Fails) →
      (machine project threshold timeoutSecs).run t ms = some u →
        u.health.state = .closed ∧ ∀ j now, answer timeoutSecs u (.begin j .isAvailable now) = some true) := by
  rw [Machine.run_cons, Option.bind_eq_some_iff] at hrun
  obtain ⟨u, hu, hrun⟩ := hrun
  have hbegin : step project threshold timeoutSecs s (.begin i .recordSuccess now) = some u := hu
  have ht : Healing i (0 + ls.countP (Label.own i)) t := healing_run (healing_begin hquiet hbegin) hls hrun
  rw [Nat.zero_add] at ht
  refine ⟨ht.counter, ?_, fun hclosed ms v hms hv => ?_⟩
  · by_cases hclosed : t.health.state = .closed
    · exact .inl hclosed
    · refine .inr ⟨Nat.lt_of_not_le fun hsteps => hclosed (ht.closed hsteps), fun now => ?_⟩
      have hpc : t.pc i ≠ .idle := by
        rcases ht.closing.resolve_left hclosed with ⟨hpc, -⟩ | ⟨current, hpc, -, -⟩
        · simp [hpc]
        · simp [hpc]
      show (step project threshold timeoutSecs t (.next i now)).isSome = true
      rw [step, if_neg hpc]
      rfl
  · have hstart : Healing i 3 t := ⟨ht.quiet, ht.counter, .inl hclosed⟩
    have hstate : v.health.state = .closed := (healing_run hstart hms hv).closed (Nat.le_add_right ..)
    refine ⟨hstate, fun j now => ?_⟩
    simp [answer, hstate]

def shut : State := ⟨⟨2, 9, .opened⟩, fun _ => .idle, []⟩

/-- A call finds the circuit open and half-opens it while a success closes it. -/
def overtakenSuccess : List Label :=
  [.next 0 50, .begin 1 .isAvailable 50, .next 1 50, .next 1 50, .next 0 50, .next 0 50]

theorem heals_overtaken : ∃ t, (machine [] 2 30).run shut (.begin 0 .recordSuccess 50 :: overtakenSuccess) = some t ∧
    t.health.state = .closed := by
  refine ⟨_, rfl, ?_⟩
  have hls : ∀ l ∈ overtakenSuccess, ¬ l.Fails := by
    simp [overtakenSuccess, Label.Fails]
  have hclosed := (heals [] 2 30 0 50 shut _ overtakenSuccess (fun _ => not_false) hls rfl).2.1
  exact hclosed.resolve_right fun h => absurd h.1 (by decide)

end HarborRouter.Atomic
