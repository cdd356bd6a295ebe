import Mathlib.Tactic.Common

/-!
# Panics and fixed widths

What ends a process in place of a result, and what becomes of an unsigned integer that does not fit its width: a build
with overflow checks panics, a release build wraps around.

* `bind_ok_iff`, `map_ok_iff` : a computation that panics has no result;
* `fit_of_lt`, `checked_fit_of_le` : what fits is exact in every build, and nothing else passes a checked one.
-/

namespace Lib

inductive Panic
  /-- attempt to add, or to multiply, with overflow -/
  | overflow
  /-- byte index is not a char boundary -/
  | charBoundary
  /-- internal error: entered unreachable code -/
  | unreachable
  deriving DecidableEq

section
variable {ε α β : Type} {x : Except ε α} {r : β}

theorem bind_ok_iff {f : α → Except ε β} : (x >>= f) = .ok r ↔ ∃ a, x = .ok a ∧ f a = .ok r := by
  cases x with
  | error e =>
      refine iff_of_false (fun h => by cases h) ?_
      rintro ⟨a, h, -⟩
      cases h
  | ok a =>
      refine ⟨fun h => ⟨a, rfl, h⟩, ?_⟩
      rintro ⟨a', h, hf⟩
      cases h
      exact hf

theorem exists_bind_ok {f : α → Except ε β} {a : α} (hx : x = .ok a) (h : ∃ r, f a = .ok r) :
    ∃ r, (x >>= f) = .ok r := by
  rw [hx]
  exact h

theorem map_ok_iff {f : α → β} : x.map f = .ok r ↔ ∃ a, x = .ok a ∧ f a = r := by
  cases x with
  | error e =>
      refine iff_of_false (fun h => by cases h) ?_
      rintro ⟨a, h, -⟩
      cases h
  | ok a =>
      refine ⟨fun h => ⟨a, rfl, Except.ok.inj h⟩, ?_⟩
      rintro ⟨a', h, hf⟩
      cases h
      exact congrArg Except.ok hf

end

inductive Build
  | checked
  | release
  deriving DecidableEq

namespace Build

/-- An integer of a type with `size` values. -/
def fit (b : Build) (size n : Nat) : Except Panic Nat :=
  if n < size then .ok n
  else match b with
    | .checked => .error .overflow
    | .release => .ok (n % size)

variable {b : Build} {size n m : Nat}

theorem fit_of_lt (h : n < size) : b.fit size n = .ok n := if_pos h

theorem checked_fit_of_le (h : size ≤ n) : checked.fit size n = .error .overflow := if_neg (Nat.not_lt.mpr h)

theorem fit_lt (h : b.fit size n = .ok m) (hsize : 0 < size) : m < size := by
  unfold fit at h
  split at h
  · cases h
    assumption
  · cases b with
    | checked => cases h
    | release =>
        cases h
        exact Nat.mod_lt n hsize

end Build
end Lib
