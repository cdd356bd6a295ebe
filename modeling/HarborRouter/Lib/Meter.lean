import HarborRouter.Lib.Machine
import Mathlib.Algebra.BigOperators.Group.Finset.Piecewise
import Mathlib.Algebra.BigOperators.Ring.Finset
import Mathlib.Algebra.Group.Hom.Basic
import Mathlib.Algebra.Group.Pi.Lemmas
import Mathlib.Algebra.Order.BigOperators.Group.Finset
import Mathlib.Algebra.Order.Ring.Int
import Mathlib.Algebra.Ring.Int.Defs
import Mathlib.Tactic.Abel

/-!
# Meters

Parties hold amounts, all but finitely many of them nothing. A meter shows the total as long as every step moves it by
as much as the holding of the party that takes the step.

* `Tally.move` : what the step of one party does to the total;
* `Reachable.tally` : the meter of a machine, in every state it reaches.
-/

namespace Lib

/-- All but finitely many parties hold nothing, and together they hold `total`. -/
def Tally {I G : Type*} [AddCommGroup G] (held : I → G) (total : G) : Prop :=
  ∃ F : Finset I, (∀ i ∉ F, held i = 0) ∧ ∑ i ∈ F, held i = total

namespace Tally
variable {I G : Type*} [AddCommGroup G] {held : I → G} {total : G}

theorem zero (h : ∀ i, held i = 0) : Tally held 0 := ⟨∅, fun i _ => h i, Finset.sum_empty⟩

/-- The total does not depend on which of the idle parties are counted in. -/
theorem sum_eq (h : Tally held total) {F : Finset I} (hF : ∀ i ∉ F, held i = 0) : ∑ i ∈ F, held i = total := by
  classical
  obtain ⟨E, hE, rfl⟩ := h
  calc ∑ i ∈ F, held i = ∑ i ∈ F ∪ E, held i :=
        Finset.sum_subset Finset.subset_union_left fun i _ hi => hF i hi
    _ = ∑ i ∈ E, held i :=
        (Finset.sum_subset Finset.subset_union_right fun i _ hi => hE i hi).symm

theorem eq_zero (h : Tally held total) (hnone : ∀ i, held i = 0) : total = 0 :=
  (h.sum_eq (F := ∅) fun i _ => hnone i).symm.trans Finset.sum_empty

theorem move (h : Tally held total) (held' : I → G) (i : I) (hother : ∀ j, j ≠ i → held' j = held j) :
    Tally held' (total + (held' i - held i)) := by
  classical
  obtain ⟨F, hF, rfl⟩ := h
  refine ⟨insert i F, fun j hj => ?_, ?_⟩
  · have hji : j ≠ i := fun e => hj (e ▸ Finset.mem_insert_self i F)
    rw [hother j hji]
    exact hF j fun hmem => hj (Finset.mem_insert_of_mem hmem)
  · have hsum : ∑ j ∈ insert i F, held j = ∑ j ∈ F, held j :=
      sum_eq ⟨F, hF, rfl⟩ fun j hj => hF j fun hmem => hj (Finset.mem_insert_of_mem hmem)
    have hi : i ∈ insert i F := Finset.mem_insert_self i F
    have hrest : ∑ j ∈ (insert i F).erase i, held' j = ∑ j ∈ (insert i F).erase i, held j :=
      Finset.sum_congr rfl fun j hj => hother j (Finset.ne_of_mem_erase hj)
    rw [← Finset.add_sum_erase _ held' hi, hrest, ← hsum, ← Finset.add_sum_erase _ held hi]
    abel

theorem stay {held' : I → G} (h : Tally held total) (hsame : ∀ j, held' j = held j) : Tally held' total := by
  rwa [funext hsame]

theorem nonneg {held : I → ℤ} {total : ℤ} (h : Tally held total) (hheld : ∀ i, 0 ≤ held i) : 0 ≤ total := by
  obtain ⟨F, -, rfl⟩ := h
  exact Finset.sum_nonneg fun i _ => hheld i

theorem card {p : I → Bool} {n : ℤ} (h : Tally (fun i => (p i).toInt) n) :
    ∃ F : Finset I, (∀ i, i ∈ F ↔ p i = true) ∧ n = F.card := by
  obtain ⟨F, hF, rfl⟩ := h
  refine ⟨F.filter fun i => p i = true, fun i => ?_, ?_⟩
  · rw [Finset.mem_filter, and_iff_right_iff_imp]
    intro hi
    by_contra hmem
    have hzero : (p i).toInt = 0 := hF i hmem
    rw [hi] at hzero
    cases hzero
  · have hsum : ∀ i ∈ F, (p i).toInt = if p i = true then 1 else 0 := fun i _ => by cases p i <;> rfl
    rw [Finset.sum_congr rfl hsum, Finset.sum_boole]

end Tally

/-! ## Machines with a meter -/

namespace Machine
variable {S L I G : Type*} [AddCommGroup G] (M : Machine S L) (delta : S → L → G)

def metered : Machine (S × G) L where
  init := (M.init, 0)
  step s l := (M.step s.1 l).map fun t => (t, s.2 + delta s.1 l)

variable {M delta}

theorem metered_step {s t : S × G} {l : L} (h : (M.metered delta).step s l = some t) :
    M.step s.1 l = some t.1 ∧ t.2 = s.2 + delta s.1 l := by
  obtain ⟨u, hu, rfl⟩ := Option.map_eq_some_iff.mp h
  exact ⟨hu, rfl⟩

theorem Reachable.unmetered {s : S × G} (hs : (M.metered delta).Reachable s) : M.Reachable s.1 := by
  apply hs.rule (I := fun s => M.Reachable s.1)
  · exact ⟨[], rfl⟩
  · intro s l t h ht
    exact h.step (metered_step ht).1

/-- A meter shows what the parties hold, if every step moves one party at most, and the meter, or what is read off it,
by as much. -/
theorem Reachable.tally {H : Type*} [AddCommGroup H] (read : G →+ H) (held : S → I → H)
    (hinit : ∀ i, held M.init i = 0)
    (hstep : ∀ s l t, M.Reachable s → M.step s l = some t → (∀ j, held t j = held s j) ∧ read (delta s l) = 0 ∨
      ∃ i, (∀ j, j ≠ i → held t j = held s j) ∧ held t i - held s i = read (delta s l))
    {s : S × G} (hs : (M.metered delta).Reachable s) : Tally (held s.1) (read s.2) := by
  suffices h : M.Reachable s.1 ∧ Tally (held s.1) (read s.2) from h.2
  apply hs.rule (I := fun s => M.Reachable s.1 ∧ Tally (held s.1) (read s.2))
  · refine ⟨⟨[], rfl⟩, ?_⟩
    show Tally (held M.init) (read 0)
    rw [map_zero]
    exact Tally.zero hinit
  · rintro s l t ⟨hreach, h⟩ ht
    obtain ⟨hmove, hmeter⟩ := metered_step ht
    refine ⟨hreach.step hmove, ?_⟩
    rw [hmeter, map_add]
    obtain ⟨hsame, hzero⟩ | ⟨i, hother, hi⟩ := hstep s.1 l t.1 hreach hmove
    · rw [hzero, add_zero]
      exact h.stay hsame
    · rw [← hi]
      exact h.move _ i hother

end Machine
end Lib
