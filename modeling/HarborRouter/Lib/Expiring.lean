import Mathlib.Logic.Function.Basic
import Mathlib.Tactic.Common

/-!
# Stores whose entries expire

A store keeps for a key a value, when it was stored and for how long it may be read. An entry is read until its
time has passed, and not after.

* `Holds` : what is true of every entry, and what the operations do to it;
* `get_iff`, `get_earlier` : what a store answers, and that waiting adds no answer.
-/

namespace Lib

structure Expiring (V : Type*) where
  value : V
  stored : Nat
  ttl : Nat

namespace Expiring
variable {V : Type*} (e : Expiring V)

/-- The last moment the entry can be read. -/
def expiry : Nat := e.stored + e.ttl

def Live (now : Nat) : Prop := now ≤ e.expiry

instance (now : Nat) : Decidable (e.Live now) := inferInstanceAs (Decidable (now ≤ e.expiry))

end Expiring

structure Store (K V : Type*) where
  entry : K → Option (Expiring V)

namespace Store
variable {K V : Type*}

def empty : Store K V := ⟨fun _ => none⟩

def get (s : Store K V) (now : Nat) (k : K) : Option V :=
  (s.entry k).bind fun e => if e.Live now then some e.value else none

/-- `P` is true of every entry, expired or not. -/
def Holds (s : Store K V) (P : K → Expiring V → Prop) : Prop := ∀ k e, s.entry k = some e → P k e

theorem holds_empty {P : K → Expiring V → Prop} : (empty : Store K V).Holds P := by
  intro k e h
  cases h

theorem Holds.mono {s : Store K V} {P Q : K → Expiring V → Prop} (h : s.Holds P) (hPQ : ∀ k e, P k e → Q k e) :
    s.Holds Q := fun k e he => hPQ k e (h k e he)

theorem get_iff {s : Store K V} {now : Nat} {k : K} {v : V} :
    s.get now k = some v ↔ ∃ e, s.entry k = some e ∧ e.Live now ∧ e.value = v := by
  unfold get
  rw [Option.bind_eq_some_iff]
  apply exists_congr
  intro e
  apply and_congr_right
  intro _
  by_cases hl : e.Live now
  · simp [hl]
  · simp [hl]

theorem get_earlier {s : Store K V} {now later : Nat} {k : K} {v : V} (h : s.get later k = some v)
    (hle : now ≤ later) : s.get now k = some v := by
  obtain ⟨e, he, hlive, hv⟩ := get_iff.mp h
  exact get_iff.mpr ⟨e, he, Nat.le_trans hle hlive, hv⟩

variable [DecidableEq K]

def insert (s : Store K V) (now : Nat) (k : K) (v : V) (ttl : Nat) : Store K V :=
  ⟨Function.update s.entry k (some ⟨v, now, ttl⟩)⟩

def remove (s : Store K V) (k : K) : Store K V := ⟨Function.update s.entry k none⟩

section Frame
variable (s : Store K V) (now ttl : Nat) (k : K) (v : V)

@[simp] theorem entry_insert_self : (s.insert now k v ttl).entry k = some ⟨v, now, ttl⟩ :=
  Function.update_self ..

@[simp] theorem entry_remove_self : (s.remove k).entry k = none := Function.update_self ..

variable {k}

theorem entry_insert_of_ne {j : K} (h : j ≠ k) : (s.insert now k v ttl).entry j = s.entry j :=
  Function.update_of_ne h ..

theorem entry_remove_of_ne {j : K} (h : j ≠ k) : (s.remove k).entry j = s.entry j := Function.update_of_ne h ..

theorem get_insert_self : (s.insert now k v ttl).get now k = some v :=
  get_iff.mpr ⟨_, entry_insert_self .., Nat.le_add_right now ttl, rfl⟩

theorem get_insert_of_ne (t : Nat) {j : K} (h : j ≠ k) : (s.insert now k v ttl).get t j = s.get t j := by
  unfold get
  rw [entry_insert_of_ne _ _ _ _ h]

theorem get_remove_self (t : Nat) : (s.remove k).get t k = none := by
  unfold get
  rw [entry_remove_self, Option.bind_none]

theorem get_remove_of_ne (t : Nat) {j : K} (h : j ≠ k) : (s.remove k).get t j = s.get t j := by
  unfold get
  rw [entry_remove_of_ne _ h]

end Frame

theorem holds_insert {s : Store K V} {now ttl : Nat} {k : K} {v : V} {P : K → Expiring V → Prop} :
    (s.insert now k v ttl).Holds P ↔ P k ⟨v, now, ttl⟩ ∧ s.Holds fun j e => j ≠ k → P j e := by
  constructor
  · intro h
    refine ⟨h k _ (entry_insert_self ..), ?_⟩
    intro j e he hj
    exact h j e (by rw [entry_insert_of_ne _ _ _ _ hj]; exact he)
  · rintro ⟨hk, hs⟩ j e he
    by_cases hj : j = k
    · subst hj
      rw [entry_insert_self] at he
      cases he
      exact hk
    · rw [entry_insert_of_ne _ _ _ _ hj] at he
      exact hs j e he hj

theorem holds_remove {s : Store K V} {k : K} {P : K → Expiring V → Prop} :
    (s.remove k).Holds P ↔ s.Holds fun j e => j ≠ k → P j e := by
  constructor
  · intro h j e he hj
    exact h j e (by rw [entry_remove_of_ne _ hj]; exact he)
  · intro h j e he
    by_cases hj : j = k
    · subst hj
      rw [entry_remove_self] at he
      cases he
    · rw [entry_remove_of_ne _ hj] at he
      exact h j e he hj

/-! ## A part of the keys -/

def restrict (s : Store K V) (P : K → Prop) [DecidablePred P] : Store K V := ⟨fun k => if P k then s.entry k else none⟩

section Restrict
variable (s : Store K V) (P : K → Prop) [DecidablePred P] (now ttl : Nat) {k : K} (v : V)

omit [DecidableEq K] in
@[simp] theorem restrict_empty : (empty : Store K V).restrict P = empty := by
  unfold restrict empty
  simp only [ite_self]

variable {P}

omit [DecidableEq K] in
theorem get_restrict (t : Nat) (h : P k) : (s.restrict P).get t k = s.get t k := by
  unfold get
  show Option.bind (if P k then s.entry k else none) _ = _
  rw [if_pos h]

/-- A store that differs from another one at the key `k` at most. -/
theorem restrict_update (x : Option (Expiring V)) (h : P k) :
    (Store.mk (Function.update s.entry k x)).restrict P = ⟨Function.update (s.restrict P).entry k x⟩ := by
  apply congrArg Store.mk
  funext j
  by_cases hj : j = k
  · subst hj
    show (if P j then Function.update s.entry j x j else none) = Function.update (s.restrict P).entry j x j
    rw [if_pos h, Function.update_self, Function.update_self]
  · show (if P j then Function.update s.entry k x j else none) = Function.update (s.restrict P).entry k x j
    rw [Function.update_of_ne hj, Function.update_of_ne hj]
    rfl

theorem restrict_update_of_not (x : Option (Expiring V)) (h : ¬ P k) :
    (Store.mk (Function.update s.entry k x)).restrict P = s.restrict P := by
  apply congrArg Store.mk
  funext j
  by_cases hj : j = k
  · subst hj
    show (if P j then Function.update s.entry j x j else none) = if P j then s.entry j else none
    rw [if_neg h, if_neg h]
  · show (if P j then Function.update s.entry k x j else none) = if P j then s.entry j else none
    rw [Function.update_of_ne hj]

theorem restrict_insert (h : P k) : (s.insert now k v ttl).restrict P = (s.restrict P).insert now k v ttl :=
  restrict_update s _ h

theorem restrict_insert_of_not (h : ¬ P k) : (s.insert now k v ttl).restrict P = s.restrict P :=
  restrict_update_of_not s _ h

theorem restrict_remove (h : P k) : (s.remove k).restrict P = (s.restrict P).remove k := restrict_update s _ h

theorem restrict_remove_of_not (h : ¬ P k) : (s.remove k).restrict P = s.restrict P :=
  restrict_update_of_not s _ h

end Restrict
end Store
end Lib
