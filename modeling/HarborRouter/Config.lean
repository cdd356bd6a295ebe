import HarborRouter.Lib.Binary64
import HarborRouter.Lib.Panic

/-!
# Configuration

Durations and counts from the environment. `parse_go_duration` reads component after component, a number and a unit,
and adds up milliseconds in a `u64`.

* `scanFrom_eq` : the total is the sum of what `readComponents` reads, as far as it fits;
* `parseGoDuration_accepts_iff` : when there is a result, and which;
* `parseGoDuration_builds_iff` : the builds agree exactly on what fits.
-/

namespace HarborRouter
open Lib Text Binary64

/-! ## Durations -/

inductive DurationUnit
  | ms
  | s
  | m
  | h
  deriving DecidableEq

namespace DurationUnit

/-- `n as u64`, after the multiplication; the cast saturates. -/
def millis (n : Float.Model) : DurationUnit → Nat
  | .ms => n.toUInt64.toNat
  | .s => (n * whole 1000).toUInt64.toNat
  | .m => (n * whole 60000).toUInt64.toNat
  | .h => (n * whole 3600000).toUInt64.toNat

end DurationUnit

/-- Digits, including '.'. -/
def isNumberChar (c : Char) : Bool := c.isDigit || c == '.'

/-- "ms" is a two-character unit. -/
def parseUnit : Text → Option (DurationUnit × Text)
  | 'm' :: 's' :: rest => some (.ms, rest)
  | 's' :: rest => some (.s, rest)
  | 'm' :: rest => some (.m, rest)
  | 'h' :: rest => some (.h, rest)
  | _ => none

/-- One turn of the loop: the milliseconds of a component, and the characters after it. -/
def scanComponent (chars : Text) : Option (Nat × Text) :=
  let number := chars.takeWhile isNumberChar
  if number = [] then none
  else do
    let n ← parseF64 number
    let (unit, rest) ← parseUnit (chars.dropWhile isNumberChar)
    return (unit.millis n, rest)

theorem parseUnit_length {s rest : Text} {unit : DurationUnit} (h : parseUnit s = some (unit, rest)) :
    rest.length < s.length := by
  unfold parseUnit at h
  split at h <;> cases h <;> simp only [List.length_cons] <;> omega

theorem scanComponent_some {chars rest : Text} {ms : Nat} (h : scanComponent chars = some (ms, rest)) :
    ∃ n unit, parseF64 (chars.takeWhile isNumberChar) = some n ∧
      parseUnit (chars.dropWhile isNumberChar) = some (unit, rest) ∧ ms = unit.millis n := by
  rw [scanComponent] at h
  dsimp only at h
  split at h
  · cases h
  · obtain ⟨n, hn, h⟩ := Option.bind_eq_some_iff.mp h
    obtain ⟨⟨unit, rest'⟩, hunit, h⟩ := Option.bind_eq_some_iff.mp h
    cases h
    exact ⟨n, unit, hn, hunit, rfl⟩

theorem scanComponent_length {chars rest : Text} {ms : Nat} (h : scanComponent chars = some (ms, rest)) :
    rest.length < chars.length := by
  obtain ⟨n, unit, -, hunit, -⟩ := scanComponent_some h
  exact (parseUnit_length hunit).trans_le (List.dropWhile_suffix isNumberChar).length_le

/-- The loop of `parse_go_duration`. -/
def scanFrom (b : Build) (totalMs : Nat) (chars : Text) : Except Panic (Option Nat) :=
  if chars = [] then .ok (some totalMs)
  else match _h : scanComponent chars with
    | none => .ok none
    | some (ms, rest) => do
        let totalMs ← b.fit UInt64.size (totalMs + ms)
        scanFrom b totalMs rest
  termination_by chars.length
  decreasing_by exact scanComponent_length _h

/-- `parse_go_duration`, in milliseconds. -/
def parseGoDuration (b : Build) (s : Text) : Except Panic (Option Nat) :=
  if s = [] then .ok none else scanFrom b 0 s

/-! ## What the loop reads -/

/-- The milliseconds of the components the loop reads, and the characters it stops at. -/
def readComponents (chars : Text) : List Nat × Text :=
  match _h : scanComponent chars with
  | none => ([], chars)
  | some (ms, rest) => (ms :: (readComponents rest).1, (readComponents rest).2)
  termination_by chars.length
  decreasing_by all_goals exact scanComponent_length _h

def componentsTotal (s : Text) : Nat := (readComponents s).1.sum

/-- `total_ms += ms`, for each of them. -/
def addAll (b : Build) : Nat → List Nat → Except Panic Nat
  | total, [] => .ok total
  | total, ms :: l => do
      let total ← b.fit UInt64.size (total + ms)
      addAll b total l

theorem readComponents_none {chars : Text} (h : scanComponent chars = none) :
    readComponents chars = ([], chars) := by
  rw [readComponents]
  split
  · rfl
  · rename_i hsome
    cases h.symm.trans hsome

theorem readComponents_some {chars rest : Text} {ms : Nat} (h : scanComponent chars = some (ms, rest)) :
    readComponents chars = (ms :: (readComponents rest).1, (readComponents rest).2) := by
  rw [readComponents]
  split
  · rename_i hnone
    cases h.symm.trans hnone
  · rename_i hsome
    cases h.symm.trans hsome
    rfl

theorem scanFrom_none {b : Build} {total : Nat} {chars : Text} (hne : chars ≠ []) (h : scanComponent chars = none) :
    scanFrom b total chars = .ok none := by
  rw [scanFrom, if_neg hne]
  split
  · rfl
  · rename_i hsome
    cases h.symm.trans hsome

theorem scanFrom_some {b : Build} {total ms : Nat} {chars rest : Text} (hne : chars ≠ [])
    (h : scanComponent chars = some (ms, rest)) :
    scanFrom b total chars = (b.fit UInt64.size (total + ms)).bind fun total => scanFrom b total rest := by
  rw [scanFrom, if_neg hne]
  split
  · rename_i hnone
    cases h.symm.trans hnone
  · rename_i hsome
    cases h.symm.trans hsome
    rfl

/-- The loop adds up what it reads, and then decides on what is left. -/
theorem scanFrom_eq (b : Build) (total : Nat) (chars : Text) :
    scanFrom b total chars =
      (addAll b total (readComponents chars).1).map fun t =>
        if (readComponents chars).2 = [] then some t else none := by
  induction hlen : chars.length using Nat.strong_induction_on generalizing total chars with
  | h len ih =>
      by_cases hne : chars = []
      · subst hne
        have hread : readComponents [] = ([], []) := readComponents_none rfl
        rw [scanFrom, if_pos rfl, hread]
        rfl
      · cases hscan : scanComponent chars with
        | none =>
            rw [scanFrom_none hne hscan, readComponents_none hscan]
            exact congrArg Except.ok (if_neg hne).symm
        | some p =>
            obtain ⟨ms, rest⟩ := p
            have hlt := scanComponent_length hscan
            rw [scanFrom_some hne hscan, readComponents_some hscan]
            show _ = Except.map _ ((b.fit UInt64.size (total + ms)).bind fun t => addAll b t (readComponents rest).1)
            cases b.fit UInt64.size (total + ms) with
            | error p => rfl
            | ok t => exact ih rest.length (hlen ▸ hlt) t rest rfl

theorem addAll_of_lt {b : Build} {total : Nat} {l : List Nat} (h : total + l.sum < UInt64.size) :
    addAll b total l = .ok (total + l.sum) := by
  induction l generalizing total with
  | nil => rfl
  | cons ms l ih =>
      rw [List.sum_cons, ← Nat.add_assoc] at h ⊢
      have hfit : b.fit UInt64.size (total + ms) = .ok (total + ms) := Build.fit_of_lt (by omega)
      rw [addAll, hfit]
      exact ih h

theorem addAll_checked {total : Nat} {l : List Nat} (htotal : total < UInt64.size)
    (h : UInt64.size ≤ total + l.sum) : addAll .checked total l = .error .overflow := by
  induction l generalizing total with
  | nil => exact absurd h (Nat.not_le.mpr htotal)
  | cons ms l ih =>
      rw [List.sum_cons, ← Nat.add_assoc] at h
      rw [addAll]
      by_cases hfits : total + ms < UInt64.size
      · rw [Build.fit_of_lt hfits]
        exact ih hfits h
      · rw [Build.checked_fit_of_le (Nat.le_of_not_lt hfits)]
        rfl

theorem addAll_release (total : Nat) (l : List Nat) : ∃ t, addAll .release total l = .ok t := by
  induction l generalizing total with
  | nil => exact ⟨total, rfl⟩
  | cons ms l ih =>
      rw [addAll]
      by_cases hfits : total + ms < UInt64.size
      · rw [Build.fit_of_lt hfits]
        exact ih _
      · rw [Build.fit, if_neg hfits]
        exact ih _

theorem addAll_lt {b : Build} {total t : Nat} {l : List Nat} (htotal : total < UInt64.size)
    (h : addAll b total l = .ok t) : t < UInt64.size := by
  induction l generalizing total with
  | nil =>
      cases h
      exact htotal
  | cons ms l ih =>
      obtain ⟨t', hfit, hrest⟩ := bind_ok_iff.mp h
      exact ih (Build.fit_lt hfit (by decide)) hrest

/-! ## The result -/

theorem parseGoDuration_eq (b : Build) {s : Text} (hne : s ≠ []) :
    parseGoDuration b s =
      (addAll b 0 (readComponents s).1).map fun t => if (readComponents s).2 = [] then some t else none := by
  rw [parseGoDuration, if_neg hne, scanFrom_eq]

theorem parseGoDuration_of_lt (b : Build) {s : Text} (hne : s ≠ []) (h : componentsTotal s < UInt64.size) :
    parseGoDuration b s = .ok (if (readComponents s).2 = [] then some (componentsTotal s) else none) := by
  have hadd : addAll b 0 (readComponents s).1 = .ok (0 + componentsTotal s) := addAll_of_lt (by rwa [Nat.zero_add])
  rw [parseGoDuration_eq b hne, hadd, Nat.zero_add]
  rfl

theorem parseGoDuration_checked {s : Text} (hne : s ≠ []) (h : UInt64.size ≤ componentsTotal s) :
    parseGoDuration .checked s = .error .overflow := by
  rw [parseGoDuration_eq _ hne, addAll_checked (by decide) (by rwa [Nat.zero_add])]
  rfl

theorem componentsTotal_nil : componentsTotal [] = 0 := by
  have hread : readComponents [] = ([], []) := readComponents_none rfl
  rw [componentsTotal, hread]
  rfl

/-- The builds agree exactly on the strings whose total fits. -/
theorem parseGoDuration_builds_iff (s : Text) :
    (∃ r, ∀ b, parseGoDuration b s = .ok r) ↔ componentsTotal s < UInt64.size := by
  by_cases hne : s = []
  · subst hne
    rw [componentsTotal_nil]
    exact iff_of_true ⟨none, fun _ => rfl⟩ (by decide)
  constructor
  · rintro ⟨r, hr⟩
    by_contra hover
    cases (parseGoDuration_checked hne (Nat.le_of_not_lt hover)).symm.trans (hr .checked)
  · intro h
    exact ⟨_, fun b => parseGoDuration_of_lt b hne h⟩

theorem parseGoDuration_accepts_iff {b : Build} {s : Text} {d : Nat} : parseGoDuration b s = .ok (some d) ↔
    s ≠ [] ∧ (readComponents s).2 = [] ∧ addAll b 0 (readComponents s).1 = .ok d := by
  by_cases hne : s = []
  · refine iff_of_false (fun h => ?_) fun h => h.1 hne
    rw [parseGoDuration, if_pos hne] at h
    cases h
  · rw [parseGoDuration_eq b hne, map_ok_iff]
    constructor
    · rintro ⟨t, hadd, hsome⟩
      by_cases hall : (readComponents s).2 = []
      · rw [if_pos hall] at hsome
        cases hsome
        exact ⟨hne, hall, hadd⟩
      · rw [if_neg hall] at hsome
        cases hsome
    · rintro ⟨-, hall, hadd⟩
      exact ⟨d, hadd, if_pos hall⟩

theorem parseGoDuration_lt {b : Build} {s : Text} {d : Nat} (h : parseGoDuration b s = .ok (some d)) :
    d < UInt64.size := by
  obtain ⟨-, -, hadd⟩ := parseGoDuration_accepts_iff.mp h
  exact addAll_lt (by decide) hadd

/-! ## The environment -/

/-- `std::env::var`. -/
abbrev Env := Text → Option Text

def envDuration (b : Build) (env : Env) (key : Text) (default : Nat) : Except Panic Nat :=
  match env key with
  | none | some [] => .ok default
  | some v => (parseGoDuration b v).map (·.getD default)

def envU32 (env : Env) (key : Text) (default : Nat) : Nat :=
  match env key with
  | none | some [] => default
  | some v => (parseU32 v).getD default

theorem envDuration_lt {b : Build} {env : Env} {key : Text} {default d : Nat} (hdefault : default < UInt64.size)
    (h : envDuration b env key default = .ok d) : d < UInt64.size := by
  rw [envDuration] at h
  split at h
  · cases h
    exact hdefault
  · cases h
    exact hdefault
  · obtain ⟨r, hparse, rfl⟩ := map_ok_iff.mp h
    cases r with
    | none => exact hdefault
    | some d => exact parseGoDuration_lt hparse

theorem envU32_lt (env : Env) (key : Text) {default : Nat} (hdefault : default < UInt32.size) :
    envU32 env key default < UInt32.size := by
  rw [envU32]
  split
  · exact hdefault
  · exact hdefault
  · rename_i v _ _
    cases hparse : parseU32 v with
    | none => exact hdefault
    | some n => exact parseU32_lt hparse

/-- What `Config` holds for the retries; durations are in milliseconds. -/
structure RetryConfig where
  retryMaxAttempts : Nat
  retryBaseDelay : Nat
  maxAttempts_lt : retryMaxAttempts < UInt32.size
  baseDelay_lt : retryBaseDelay < UInt64.size

def RetryConfig.load (b : Build) (env : Env) : Except Panic RetryConfig :=
  match h : envDuration b env "RETRY_BASE_DELAY".toList 150 with
  | .error p => .error p
  | .ok baseDelay => .ok
      { retryMaxAttempts := envU32 env "RETRY_MAX_ATTEMPTS".toList 2
        retryBaseDelay := baseDelay
        maxAttempts_lt := envU32_lt env _ (by decide)
        baseDelay_lt := envDuration_lt (by decide) h }

end HarborRouter
