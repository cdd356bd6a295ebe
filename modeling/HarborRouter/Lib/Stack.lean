import Mathlib.Data.List.Infix
import Mathlib.Tactic.Common

/-!
# Stacks with a floor

A script of pushes, pops and no-ops run on a stack; popping the empty stack leaves it empty. A script is `balanced`
over a depth if it never pops below it. `floor_kept_iff`: a script keeps a floor with a top that it never pushes
itself exactly when it is balanced over that floor.
-/

namespace Lib.Stack
variable {α : Type*}

inductive Op (α : Type*)
  | push (a : α)
  | pop
  | skip
  deriving DecidableEq

def Op.apply : Op α → List α → List α
  | .push a, s => a :: s
  | .pop, s => s.tail
  | .skip, s => s

def run : List (Op α) → List α → List α
  | [], s => s
  | o :: os, s => run os (o.apply s)

/-- The script, started with `d` elements above the floor, never pops the floor. -/
def balanced : Nat → List (Op α) → Bool
  | _, [] => true
  | d, .push _ :: os => balanced (d + 1) os
  | 0, .pop :: _ => false
  | d + 1, .pop :: os => balanced d os
  | d, .skip :: os => balanced d os

theorem run_append (os ps : List (Op α)) (s : List α) : run (os ++ ps) s = run ps (run os s) := by
  induction os generalizing s with
  | nil => rfl
  | cons o os ih => exact ih _

theorem run_pushes (xs s : List α) : run (xs.map .push) s = xs.reverse ++ s := by
  induction xs generalizing s with
  | nil => rfl
  | cons x xs ih =>
      rw [List.reverse_cons, List.append_assoc]
      exact ih (x :: s)

/-- What a script leaves is pushed by it, above what is left of the stack it started with. -/
theorem run_eq (os : List (Op α)) (s : List α) :
    ∃ ys zs, run os s = ys ++ zs ∧ zs <:+ s ∧ ∀ y ∈ ys, .push y ∈ os := by
  suffices h : ∀ xs, ∃ ys zs, run os (xs ++ s) = ys ++ zs ∧ zs <:+ s ∧ ∀ y ∈ ys, .push y ∈ os ∨ y ∈ xs by
    obtain ⟨ys, zs, h1, h2, h3⟩ := h []
    exact ⟨ys, zs, h1, h2, fun y hy => (h3 y hy).resolve_right (List.not_mem_nil)⟩
  induction os generalizing s with
  | nil => exact fun xs => ⟨xs, s, rfl, List.suffix_rfl, fun y hy => .inr hy⟩
  | cons o os ih =>
      intro xs
      cases o with
      | push a =>
          obtain ⟨ys, zs, h1, h2, h3⟩ := ih s (a :: xs)
          refine ⟨ys, zs, h1, h2, fun y hy => ?_⟩
          rcases h3 y hy with h | h
          · exact .inl (List.mem_cons_of_mem _ h)
          · rcases List.mem_cons.mp h with rfl | h
            · exact .inl List.mem_cons_self
            · exact .inr h
      | pop =>
          cases xs with
          | nil =>
              obtain ⟨ys, zs, h1, h2, h3⟩ := ih s.tail []
              exact ⟨ys, zs, h1, h2.trans (List.tail_suffix s),
                fun y hy => .inl (List.mem_cons_of_mem _ ((h3 y hy).resolve_right List.not_mem_nil))⟩
          | cons x xs =>
              obtain ⟨ys, zs, h1, h2, h3⟩ := ih s xs
              exact ⟨ys, zs, h1, h2, fun y hy => (h3 y hy).imp (List.mem_cons_of_mem _) (List.mem_cons_of_mem _)⟩
      | skip =>
          obtain ⟨ys, zs, h1, h2, h3⟩ := ih s xs
          exact ⟨ys, zs, h1, h2, fun y hy => (h3 y hy).imp_left (List.mem_cons_of_mem _)⟩

theorem balanced_succ {d : Nat} {os : List (Op α)} (h : balanced d os = true) : balanced (d + 1) os = true := by
  induction os generalizing d with
  | nil => rfl
  | cons o os ih =>
      cases o with
      | push a => exact ih (d := d + 1) h
      | pop =>
          cases d with
          | zero => cases h
          | succ d => exact ih (d := d) h
      | skip =>
          simp only [balanced] at h ⊢
          exact ih h

theorem balanced_of_zero {os : List (Op α)} (h : balanced 0 os = true) : ∀ d, balanced d os = true
  | 0 => h
  | d + 1 => balanced_succ (balanced_of_zero h d)

/-- A tail that is balanced by itself does not matter. -/
theorem balanced_append {os ps : List (Op α)} (h : balanced 0 ps = true) (d : Nat) :
    balanced d (os ++ ps) = balanced d os := by
  induction os generalizing d with
  | nil => exact balanced_of_zero h d
  | cons o os ih =>
      cases o with
      | push a => exact ih (d + 1)
      | pop =>
          cases d with
          | zero => rfl
          | succ d => exact ih d
      | skip => simpa only [List.cons_append, balanced] using ih d

/-- A balanced script keeps the floor. -/
theorem floor_suffix {os : List (Op α)} {floor : List α} (xs : List α) (h : balanced xs.length os = true) :
    floor <:+ run os (xs ++ floor) := by
  induction os generalizing xs with
  | nil => exact List.suffix_append xs floor
  | cons o os ih =>
      cases o with
      | push a => exact ih (a :: xs) h
      | pop =>
          cases xs with
          | nil => cases h
          | cons x xs => exact ih xs h
      | skip =>
          simp only [balanced] at h
          exact ih xs h

/-- A script that pops its floor loses it, if it does not push its top back. -/
theorem floor_lost {os : List (Op α)} {floor : List α} {p : α} (xs : List α) (h : balanced xs.length os = false)
    (hp : .push p ∉ os) : ¬ p :: floor <:+ run os (xs ++ p :: floor) := by
  induction os generalizing xs with
  | nil => cases h
  | cons o os ih =>
      have hp' : .push p ∉ os := fun hm => hp (List.mem_cons_of_mem _ hm)
      cases o with
      | push a => exact ih (a :: xs) h hp'
      | pop =>
          cases xs with
          | nil =>
              obtain ⟨ys, zs, h1, h2, h3⟩ := run_eq os floor
              intro hs
              change p :: floor <:+ run os floor at hs
              rw [h1] at hs
              -- `zs` is shorter than the floor with its top, so the top would be a pushed element
              rcases List.suffix_or_suffix_of_suffix hs (List.suffix_append ys zs) with hz | hz
              · exact absurd (hz.trans h2).length_le (Nat.not_succ_le_self _)
              · obtain ⟨ws, hw⟩ := hs
                obtain ⟨us, hu⟩ := hz
                cases us with
                | nil =>
                    have hlen := h2.length_le
                    rw [show zs = p :: floor from hu] at hlen
                    exact absurd hlen (Nat.not_succ_le_self _)
                | cons u us =>
                    rw [List.cons_append, List.cons.injEq] at hu
                    obtain ⟨rfl, hu⟩ := hu
                    rw [← hu, ← List.cons_append, ← List.append_assoc, List.append_cancel_right_eq] at hw
                    exact hp' (h3 u (hw ▸ List.mem_append_right _ List.mem_cons_self))
          | cons x xs => exact ih xs h hp'
      | skip =>
          simp only [balanced] at h
          exact ih xs h hp'

/-- A script keeps a floor whose top it never pushes exactly when it is balanced over it. -/
theorem floor_kept_iff {os : List (Op α)} {floor : List α} {p : α} (hp : .push p ∉ os) :
    p :: floor <:+ run os (p :: floor) ↔ balanced 0 os = true := by
  constructor
  · intro h
    by_contra hb
    exact floor_lost [] (by simpa using hb) hp h
  · exact fun h => floor_suffix [] h

end Lib.Stack
