import HarborRouter.Config
import HarborRouter.Resolver.Fetch

/-!
# The retry loop

`fetch_manifest_with_retry` with its waits and its panics, over the outcomes of the fetches. The wait after a fetch is
`retry_base_delay * 2u32.pow(attempt)`: the power is an `u32`, and the product is a `Duration` of 64-bit seconds.

* `retryLoop_eq` : what the loop does while the waits fit;
* `retryLoop_result` : its result is that of `fetchManifestWithRetry`;
* `retries_on_schedule_iff` : which runs keep to the schedule in every build.
-/

namespace HarborRouter
open Lib Text

abbrev FetchOutcome := Except Text ResolveResult

/-- The reason label of `retries_total`. -/
def classifyRetryReason (msg : Text) : Text :=
  if contains "timeout".toList msg || contains "timed out".toList msg then "timeout".toList
  else "connection".toList

def retryReason : FetchOutcome → Text
  | .ok _ => "server_error".toList
  | .error e => classifyRetryReason e

/-- A fetch that is made again: the wait after it, and the reason that is counted. -/
structure Retry where
  delay : Nat
  reason : Text
  deriving DecidableEq

structure Retried where
  fetches : Nat
  retries : List Retry
  result : FetchOutcome
  deriving DecidableEq

def Retried.prepend (retry : Retry) (run : Retried) : Retried :=
  ⟨run.fetches + 1, retry :: run.retries, run.result⟩

/-- `self.retry_base_delay * 2u32.pow(attempt)`; multiplying a duration panics in every build. -/
def retryDelay (b : Build) (baseDelay attempt : Nat) : Except Panic Nat := do
  let factor ← b.fit UInt32.size (2 ^ attempt)
  if baseDelay * factor / 1000 < UInt64.size then return baseDelay * factor else throw .overflow

variable {b : Build} {outcome : Nat → FetchOutcome} {maxAttempts baseDelay left attempt : Nat}

/-- The loop from attempt number `attempt` on; attempts are numbered below a `u32`, where `attempt + 1` fits. -/
def retryLoop (b : Build) (maxAttempts baseDelay : Nat) (outcome : Nat → FetchOutcome) :
    Nat → Nat → Except Panic Retried
  | 0, _ => .error .unreachable
  | left + 1, attempt =>
      match outcome attempt with
      | .ok result =>
          if isRetryableStatus result.status && attempt + 1 < maxAttempts then do
            let delay ← retryDelay b baseDelay attempt
            let run ← retryLoop b maxAttempts baseDelay outcome left (attempt + 1)
            return run.prepend ⟨delay, "server_error".toList⟩
          else return ⟨1, [], .ok result⟩
      | .error e =>
          if isRetryableError e && attempt + 1 < maxAttempts then do
            let delay ← retryDelay b baseDelay attempt
            let run ← retryLoop b maxAttempts baseDelay outcome left (attempt + 1)
            return run.prepend ⟨delay, classifyRetryReason e⟩
          else return ⟨1, [], .error e⟩

/-- `self.retry_max_attempts.max(1)` -/
def RetryConfig.attempts (cfg : RetryConfig) : Nat := max cfg.retryMaxAttempts 1

/-- `fetch_manifest_with_retry`, over what its fetches give. -/
def RetryConfig.retry (cfg : RetryConfig) (b : Build) (outcome : Nat → FetchOutcome) : Except Panic Retried :=
  retryLoop b cfg.attempts cfg.retryBaseDelay outcome cfg.attempts 0

/-! ## One attempt -/

theorem retryLoop_retry (hretry : retryable (outcome attempt) = true) (hmore : attempt + 1 < maxAttempts) :
    retryLoop b maxAttempts baseDelay outcome (left + 1) attempt = (do
      let delay ← retryDelay b baseDelay attempt
      let run ← retryLoop b maxAttempts baseDelay outcome left (attempt + 1)
      return run.prepend ⟨delay, retryReason (outcome attempt)⟩) := by
  rw [retryLoop]
  cases hout : outcome attempt with
  | ok result =>
      rw [hout] at hretry
      exact if_pos (Bool.and_eq_true _ _ ▸ ⟨hretry, decide_eq_true hmore⟩)
  | error e =>
      rw [hout] at hretry
      exact if_pos (Bool.and_eq_true _ _ ▸ ⟨hretry, decide_eq_true hmore⟩)

/-- Otherwise its outcome is the result. -/
theorem retryLoop_stop (h : ¬ (retryable (outcome attempt) = true ∧ attempt + 1 < maxAttempts)) :
    retryLoop b maxAttempts baseDelay outcome (left + 1) attempt = .ok ⟨1, [], outcome attempt⟩ := by
  rw [retryLoop]
  cases hout : outcome attempt with
  | ok result =>
      rw [hout] at h
      exact if_neg (by rwa [Bool.and_eq_true, decide_eq_true_iff])
  | error e =>
      rw [hout] at h
      exact if_neg (by rwa [Bool.and_eq_true, decide_eq_true_iff])

/-- What a wait fits in: the power in 32 bits, and the seconds in 64. -/
def DelayFits (baseDelay attempt : Nat) : Prop := attempt < 32 ∧ baseDelay * 2 ^ attempt / 1000 < UInt64.size

theorem DelayFits.mono {a b : Nat} (h : DelayFits baseDelay b) (hab : a ≤ b) : DelayFits baseDelay a := by
  refine ⟨hab.trans_lt h.1, lt_of_le_of_lt ?_ h.2⟩
  exact Nat.div_le_div_right (Nat.mul_le_mul_left _ (Nat.pow_le_pow_right (by decide) hab))

theorem pow_lt_size (h : attempt < 32) : 2 ^ attempt < UInt32.size := Nat.pow_lt_pow_right (by decide) h

theorem retryDelay_of_fits (h : DelayFits baseDelay attempt) :
    retryDelay b baseDelay attempt = .ok (baseDelay * 2 ^ attempt) := by
  rw [retryDelay, Build.fit_of_lt (pow_lt_size h.1)]
  exact if_pos h.2

theorem retryDelay_checked (h : ¬ DelayFits baseDelay attempt) :
    retryDelay .checked baseDelay attempt = .error .overflow := by
  rw [retryDelay]
  by_cases hpow : attempt < 32
  · rw [Build.fit_of_lt (pow_lt_size hpow)]
    exact if_neg fun hlt => h ⟨hpow, hlt⟩
  · have hover : UInt32.size ≤ 2 ^ attempt := Nat.pow_le_pow_right (n := 2) (by decide) (Nat.le_of_not_lt hpow)
    rw [Build.checked_fit_of_le hover]
    rfl

/-! ## The loop -/

/-- The attempts made again, of the `left` ones from number `attempt` on: as many as are retryable in a row. -/
def retriesFrom (outcome : Nat → FetchOutcome) : Nat → Nat → Nat
  | 0, _ => 0
  | left + 1, attempt => if retryable (outcome attempt) then retriesFrom outcome left (attempt + 1) + 1 else 0

theorem retriesFrom_le : retriesFrom outcome left attempt ≤ left := by
  induction left generalizing attempt with
  | zero => exact Nat.le_refl 0
  | succ left ih =>
      rw [retriesFrom]
      split
      · exact Nat.succ_le_succ ih
      · exact Nat.zero_le _

theorem retryable_of_lt {k : Nat} (h : k < retriesFrom outcome left attempt) :
    retryable (outcome (attempt + k)) = true := by
  induction left generalizing attempt k with
  | zero => exact absurd h (Nat.not_lt_zero k)
  | succ left ih =>
      rw [retriesFrom] at h
      split at h
      · rename_i hretry
        cases k with
        | zero => exact hretry
        | succ k =>
            have := ih (Nat.lt_of_succ_lt_succ h)
            rwa [Nat.add_right_comm] at this
      · exact absurd h (Nat.not_lt_zero k)

theorem retriesFrom_stops (outcome : Nat → FetchOutcome) (left attempt : Nat) :
    retriesFrom outcome left attempt = left ∨
      retryable (outcome (attempt + retriesFrom outcome left attempt)) = false := by
  induction left generalizing attempt with
  | zero => exact .inl rfl
  | succ left ih =>
      rw [retriesFrom]
      split
      · refine (ih (attempt + 1)).imp (congrArg _) fun h => ?_
        rwa [Nat.add_right_comm] at h
      · rename_i hretry
        exact .inr (Bool.eq_false_iff.mpr hretry)

/-- The retries of a run: what each fetch waits for, and why. -/
def schedule (baseDelay : Nat) (outcome : Nat → FetchOutcome) (attempt n : Nat) : List Retry :=
  (List.range' attempt n).map fun k => ⟨baseDelay * 2 ^ k, retryReason (outcome k)⟩

/-- While the waits fit, the loop makes one fetch more than it has retries. -/
theorem retryLoop_eq (hleft : attempt + left + 1 = maxAttempts)
    (hfits : ∀ k < retriesFrom outcome left attempt, DelayFits baseDelay (attempt + k)) :
    retryLoop b maxAttempts baseDelay outcome (left + 1) attempt =
      .ok ⟨retriesFrom outcome left attempt + 1, schedule baseDelay outcome attempt (retriesFrom outcome left attempt),
        outcome (attempt + retriesFrom outcome left attempt)⟩ := by
  induction left generalizing attempt with
  | zero => exact retryLoop_stop fun h => absurd h.2 (by omega)
  | succ left ih =>
      by_cases hretry : retryable (outcome attempt) = true
      · have hcount : retriesFrom outcome (left + 1) attempt = retriesFrom outcome left (attempt + 1) + 1 := by
          rw [retriesFrom, if_pos hretry]
        rw [hcount] at hfits ⊢
        have hrest := @ih (attempt + 1) (by omega) fun k hk => by
          have := hfits (k + 1) (Nat.succ_lt_succ hk)
          rwa [← Nat.add_assoc, Nat.add_right_comm] at this
        have hfirst : DelayFits baseDelay attempt := hfits 0 (Nat.succ_pos _)
        rw [retryLoop_retry hretry (by omega), retryDelay_of_fits hfirst, hrest]
        show Except.ok (Retried.prepend _ _) = _
        rw [Retried.prepend, Nat.add_assoc attempt 1, Nat.add_comm 1]
        rfl
      · have hcount : retriesFrom outcome (left + 1) attempt = 0 := by rw [retriesFrom, if_neg hretry]
        rw [hcount]
        exact retryLoop_stop fun h => hretry h.1

/-- Where a wait does not fit, a checked build panics. -/
theorem retryLoop_checked (hleft : attempt + left + 1 = maxAttempts)
    (h : ∃ k < retriesFrom outcome left attempt, ¬ DelayFits baseDelay (attempt + k)) :
    retryLoop .checked maxAttempts baseDelay outcome (left + 1) attempt = .error .overflow := by
  induction left generalizing attempt with
  | zero =>
      obtain ⟨k, hk, -⟩ := h
      exact absurd hk (Nat.not_lt_zero k)
  | succ left ih =>
      obtain ⟨k, hk, hover⟩ := h
      by_cases hretry : retryable (outcome attempt) = true
      · rw [retryLoop_retry hretry (by omega)]
        by_cases hfits : DelayFits baseDelay attempt
        · rw [retriesFrom, if_pos hretry] at hk
          cases k with
          | zero => exact absurd hfits hover
          | succ k =>
              rw [← Nat.add_assoc, Nat.add_right_comm] at hover
              rw [retryDelay_of_fits hfits, ih (by omega) ⟨k, Nat.lt_of_succ_lt_succ hk, hover⟩]
              rfl
        · rw [retryDelay_checked hfits]
          rfl
      · rw [retriesFrom, if_neg hretry] at hk
        exact absurd hk (Nat.not_lt_zero k)

theorem retryLoop_result {project : Text} {reply : Nat → Reply} {run : Retried}
    (hleft : attempt + left + 1 = maxAttempts)
    (h : retryLoop b maxAttempts baseDelay (fun k => fetchManifest project (reply k)) (left + 1) attempt = .ok run) :
    run.result = retryFrom project reply left attempt := by
  induction left generalizing attempt run with
  | zero =>
      rw [retryLoop_stop fun h => absurd h.2 (by omega)] at h
      cases h
      rfl
  | succ left ih =>
      by_cases hretry : retryable (fetchManifest project (reply attempt)) = true
      · rw [retryLoop_retry hretry (by omega)] at h
        rw [retryFrom, if_pos hretry]
        obtain ⟨delay, -, h⟩ := bind_ok_iff.mp h
        obtain ⟨rest, hrest, h⟩ := bind_ok_iff.mp h
        have hresult := ih (by omega) hrest
        cases h
        exact hresult
      · rw [retryLoop_stop fun h => hretry h.1] at h
        cases h
        rw [retryFrom, if_neg hretry]

namespace RetryConfig

variable {cfg : RetryConfig}

theorem attempts_eq (cfg : RetryConfig) : 0 + (cfg.attempts - 1) + 1 = cfg.attempts := by
  have : 1 ≤ cfg.attempts := Nat.le_max_right ..
  omega

theorem retry_eq_loop (cfg : RetryConfig) (b : Build) (outcome : Nat → FetchOutcome) :
    cfg.retry b outcome = retryLoop b cfg.attempts cfg.retryBaseDelay outcome (cfg.attempts - 1 + 1) 0 := by
  have hleft : cfg.attempts - 1 + 1 = cfg.attempts := by
    have := cfg.attempts_eq
    omega
  rw [hleft]
  rfl

theorem retry_result {project : Text} {reply : Nat → Reply} {run : Retried}
    (h : cfg.retry b (fun k => fetchManifest project (reply k)) = .ok run) :
    run.result = fetchManifestWithRetry cfg.retryMaxAttempts project reply :=
  retryLoop_result cfg.attempts_eq (cfg.retry_eq_loop b _ ▸ h)

/-- How many fetches are made again: the retryable ones in a row, the last attempt left aside. -/
def retries (cfg : RetryConfig) (outcome : Nat → FetchOutcome) : Nat := retriesFrom outcome (cfg.attempts - 1) 0

end RetryConfig

/-! ## The schedule -/

/-- The 1-based position of the first outcome that is not retryable. -/
def FirstFinal (outcome : Nat → FetchOutcome) (i : Nat) : Prop :=
  0 < i ∧ retryable (outcome (i - 1)) = false ∧ ∀ k, k + 1 < i → retryable (outcome k) = true

structure OnSchedule (cfg : RetryConfig) (outcome : Nat → FetchOutcome) (run : Retried) : Prop where
  fetches_first : ∀ i, FirstFinal outcome i → run.fetches = min i cfg.attempts
  fetches_all : (∀ k, retryable (outcome k) = true) → run.fetches = cfg.attempts
  result : run.result = outcome (run.fetches - 1)
  waits : run.retries.map Retry.delay = (List.range (run.fetches - 1)).map fun k => cfg.retryBaseDelay * 2 ^ k

theorem fetches_of_firstFinal {cfg : RetryConfig} {i : Nat} (h : FirstFinal outcome i) :
    cfg.retries outcome + 1 = min i cfg.attempts := by
  obtain ⟨hpos, hfinal, hbefore⟩ := h
  have hattempts := cfg.attempts_eq
  have hle : cfg.retries outcome ≤ cfg.attempts - 1 := retriesFrom_le
  have hnot : ¬ i - 1 < cfg.retries outcome := by
    intro hlt
    have hretry := retryable_of_lt hlt
    rw [Nat.zero_add, hfinal] at hretry
    cases hretry
  rcases retriesFrom_stops outcome (cfg.attempts - 1) 0 with hall | hstop
  · have hall : cfg.retries outcome = cfg.attempts - 1 := hall
    omega
  · have hstop : retryable (outcome (cfg.retries outcome)) = false := Nat.zero_add (cfg.retries outcome) ▸ hstop
    have hlast : ¬ cfg.retries outcome + 1 < i := fun hlt => by
      rw [hbefore _ hlt] at hstop
      cases hstop
    omega

theorem fetches_of_all {cfg : RetryConfig} (h : ∀ k, retryable (outcome k) = true) :
    cfg.retries outcome + 1 = cfg.attempts := by
  have hattempts := cfg.attempts_eq
  rcases retriesFrom_stops outcome (cfg.attempts - 1) 0 with hall | hstop
  · have hall : cfg.retries outcome = cfg.attempts - 1 := hall
    omega
  · rw [h] at hstop
    cases hstop

/-- The schedule is kept, in every build, exactly when nothing is retried or the last wait fits. -/
theorem retries_on_schedule_iff (cfg : RetryConfig) (outcome : Nat → FetchOutcome) :
    (∃ run, (∀ b, cfg.retry b outcome = .ok run) ∧ OnSchedule cfg outcome run) ↔
      cfg.retries outcome = 0 ∨ DelayFits cfg.retryBaseDelay (cfg.retries outcome - 1) := by
  constructor
  · rintro ⟨run, hrun, -⟩
    by_contra hover
    obtain ⟨hpos, hover⟩ := not_or.mp hover
    have hpanic : cfg.retry .checked outcome = .error .overflow := by
      rw [cfg.retry_eq_loop]
      refine retryLoop_checked cfg.attempts_eq ⟨cfg.retries outcome - 1, ?_, by rwa [Nat.zero_add]⟩
      exact Nat.sub_one_lt hpos
    cases hpanic.symm.trans (hrun .checked)
  · intro hlast
    have hfits : ∀ k < cfg.retries outcome, DelayFits cfg.retryBaseDelay (0 + k) := by
      intro k hk
      rw [Nat.zero_add]
      rcases hlast with hzero | hlast
      · omega
      · exact hlast.mono (by omega)
    refine ⟨_, fun b => (cfg.retry_eq_loop b outcome).trans (retryLoop_eq cfg.attempts_eq hfits), ?_⟩
    refine ⟨fun i hi => fetches_of_firstFinal hi, fetches_of_all, ?_, ?_⟩
    · show outcome (0 + cfg.retries outcome) = outcome (cfg.retries outcome + 1 - 1)
      rw [Nat.zero_add, Nat.add_sub_cancel]
    · show (schedule cfg.retryBaseDelay outcome 0 (cfg.retries outcome)).map Retry.delay = _
      rw [schedule, List.map_map, List.range_eq_range']
      rfl

/-- RETRY_MAX_ATTEMPTS=34, and the default base delay. -/
def manyAttempts : RetryConfig := ⟨34, 150, by decide, by decide⟩

theorem load_manyAttempts (b : Build) :
    RetryConfig.load b (fun key => if key = "RETRY_MAX_ATTEMPTS".toList then some "34".toList else none) =
      .ok manyAttempts := rfl

def unavailable : FetchOutcome := .ok ⟨"dockerhub".toList, 503, [], []⟩

theorem manyAttempts_overflow :
    manyAttempts.retry .checked (fun _ => unavailable) = .error .overflow ∧
      ((manyAttempts.retry .release fun _ => unavailable).map fun run => run.retries.map Retry.delay) =
        .ok ((List.range 32).map (150 * 2 ^ ·) ++ [0]) := by decide +kernel

end HarborRouter
