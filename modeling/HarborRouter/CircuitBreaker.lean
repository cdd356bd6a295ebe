import HarborRouter.Lib.Text
import Mathlib.Logic.Function.Basic

/-!
# The circuit breaker

`circuit_breaker.rs` with its calls executed one after another. A project without an entry has the default health.

* `available_eq_filter` : asking one project does not change what the others are told.
-/

namespace HarborRouter
open Lib

inductive HealthState
  | closed
  | opened
  | halfOpen
  deriving DecidableEq, Repr

structure ProjectHealth where
  consecutiveFailures : Nat
  lastFailureEpoch : Nat
  state : HealthState
  deriving DecidableEq

def ProjectHealth.default : ProjectHealth := ⟨0, 0, .closed⟩

structure CircuitBreaker where
  projects : Text → ProjectHealth
  threshold : Nat
  timeoutSecs : Nat

namespace CircuitBreaker

def new (threshold timeoutSecs : Nat) : CircuitBreaker := ⟨fun _ => .default, max threshold 1, timeoutSecs⟩

def setHealth (b : CircuitBreaker) (project : Text) (h : ProjectHealth) : CircuitBreaker :=
  { b with projects := Function.update b.projects project h }

/-- The answer, and the breaker after asking: an open circuit whose timeout has passed becomes half-open. -/
def isAvailable (b : CircuitBreaker) (now : Nat) (project : Text) : Bool × CircuitBreaker :=
  let health := b.projects project
  match health.state with
  | .closed => (true, b)
  | .opened =>
      if b.timeoutSecs ≤ now - health.lastFailureEpoch then
        (true, b.setHealth project { health with state := .halfOpen })
      else (false, b)
  | .halfOpen => (true, b)

def recordSuccess (b : CircuitBreaker) (project : Text) : CircuitBreaker :=
  b.setHealth project { b.projects project with consecutiveFailures := 0, state := .closed }

/-- The failure counter is a `u32` and wraps around. -/
def recordFailure (b : CircuitBreaker) (now : Nat) (project : Text) : CircuitBreaker :=
  let health := b.projects project
  let failures := (health.consecutiveFailures + 1) % UInt32.size
  b.setHealth project
    { consecutiveFailures := failures
      lastFailureEpoch := now
      state := if b.threshold ≤ failures then .opened else health.state }

def available (b : CircuitBreaker) (now : Nat) : List Text → List Text × CircuitBreaker
  | [] => ([], b)
  | p :: ps =>
      let (yes, b') := b.isAvailable now p
      let (rest, b'') := b'.available now ps
      (if yes then p :: rest else rest, b'')

/-- Asking leaves the breaker alone, or half-opens a circuit whose timeout has passed. -/
theorem isAvailable_snd (b : CircuitBreaker) (now : Nat) (p : Text) :
    (b.isAvailable now p).2 = b ∨ (b.isAvailable now p).1 = true ∧
      (b.isAvailable now p).2 = b.setHealth p { b.projects p with state := .halfOpen } := by
  cases hs : (b.projects p).state with
  | closed => exact .inl (by simp only [isAvailable, hs])
  | halfOpen => exact .inl (by simp only [isAvailable, hs])
  | opened =>
      by_cases ht : b.timeoutSecs ≤ now - (b.projects p).lastFailureEpoch
      · exact .inr (by simp only [isAvailable, hs, if_pos ht, and_self])
      · exact .inl (by simp only [isAvailable, hs, if_neg ht])

/-- Asking changes no later answer. -/
theorem isAvailable_after (b : CircuitBreaker) (now : Nat) (p q : Text) :
    ((b.isAvailable now p).2.isAvailable now q).1 = (b.isAvailable now q).1 := by
  rcases isAvailable_snd b now p with h | ⟨hyes, h⟩
  · rw [h]
  · by_cases hq : q = p
    · subst hq
      rw [h, hyes]
      simp only [isAvailable, setHealth, Function.update_self]
    · rw [h]
      simp only [isAvailable, setHealth, Function.update_of_ne hq]
      split <;> (try split) <;> rfl

/-- The circuit of the project is open, and its timeout has not passed. -/
def Shut (b : CircuitBreaker) (now : Nat) (p : Text) : Prop :=
  (b.projects p).state = .opened ∧ now - (b.projects p).lastFailureEpoch < b.timeoutSecs

theorem isAvailable_eq_false_iff {b : CircuitBreaker} {now : Nat} {p : Text} :
    (b.isAvailable now p).1 = false ↔ b.Shut now p := by
  unfold Shut
  rw [← Nat.not_le]
  cases hs : (b.projects p).state with
  | closed => simp [isAvailable, hs]
  | halfOpen => simp [isAvailable, hs]
  | opened =>
      by_cases ht : b.timeoutSecs ≤ now - (b.projects p).lastFailureEpoch
      · simp [isAvailable, hs, ht]
      · simp [isAvailable, hs, ht]

/-- A project that is available stays so while nothing is recorded. -/
theorem isAvailable_later {b : CircuitBreaker} {now later : Nat} {p : Text} (h : (b.isAvailable now p).1 = true)
    (hle : now ≤ later) : (b.isAvailable later p).1 = true := by
  by_contra hlater
  obtain ⟨hs, ht⟩ := isAvailable_eq_false_iff.mp (by simpa using hlater)
  rw [isAvailable_eq_false_iff.mpr ⟨hs, by omega⟩] at h
  cases h

theorem available_eq_filter (b : CircuitBreaker) (now : Nat) (ps : List Text) :
    (b.available now ps).1 = ps.filter fun p => (b.isAvailable now p).1 := by
  induction ps generalizing b with
  | nil => rfl
  | cons p ps ih =>
      have hrest : ps.filter (fun q => ((b.isAvailable now p).2.isAvailable now q).1) =
          ps.filter fun q => (b.isAvailable now q).1 :=
        List.filter_congr fun q _ => isAvailable_after b now p q
      rw [available, List.filter_cons]
      dsimp only
      rw [ih, hrest]

end CircuitBreaker
end HarborRouter
