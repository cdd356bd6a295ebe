import Mathlib.Data.List.Sort
import Mathlib.Tactic.Common

/-!
# Rankings: the first places of a stable sort

A list without repetitions, sorted by a total preorder that may tie; ties stand as they stood in the list.

* `Ahead` : who is sorted before whom;
* `mem_take_insertionSort_iff` : an entry is among the first `n` when fewer than `n` are ahead of it.
-/

namespace Lib
variable {α : Type*} (r : α → α → Prop) (l : List α)

/-- `y` is sorted before `x`: it precedes it strictly, or ties with it and stood before it. -/
def Ahead (y x : α) : Prop := y ≠ x ∧ r y x ∧ (¬ r x y ∨ [y, x].Sublist l)

instance [DecidableEq α] [DecidableRel r] (y x : α) : Decidable (Ahead r l y x) :=
  inferInstanceAs (Decidable (_ ∧ _ ∧ (_ ∨ _)))

variable {r l} {x y : α}

theorem not_pair_sublist_of_pair_sublist (hl : l.Nodup) (h : [x, y].Sublist l) : ¬ [y, x].Sublist l := by
  induction l with
  | nil => cases h
  | cons a l ih =>
      rw [List.nodup_cons] at hl
      intro h'
      cases h with
      | cons _ h =>
          cases h' with
          | cons _ h' => exact ih hl.2 h h'
          | cons_cons _ h' => exact hl.1 (h.subset (by simp))
      | cons_cons _ h =>
          cases h' with
          | cons _ h' => exact hl.1 (h'.subset (by simp))
          | cons_cons _ h' => exact hl.1 (List.singleton_sublist.mp h)

theorem pair_sublist_of_mem (hx : x ∈ l) (hy : y ∈ l) (hne : x ≠ y) : [x, y].Sublist l ∨ [y, x].Sublist l := by
  induction l with
  | nil => cases hx
  | cons a l ih =>
      rcases List.mem_cons.mp hx with rfl | hxl
      · have hyl : y ∈ l := (List.mem_cons.mp hy).resolve_left hne.symm
        exact .inl ((List.singleton_sublist.mpr hyl).cons_cons _)
      · rcases List.mem_cons.mp hy with rfl | hyl
        · exact .inr ((List.singleton_sublist.mpr hxl).cons_cons _)
        · exact (ih hxl hyl).imp (fun h => h.cons _) fun h => h.cons _

variable [DecidableRel r] [Std.Total r] [IsTrans α r]

theorem pair_sublist_insertionSort_iff (hl : l.Nodup) (hx : x ∈ l) (hy : y ∈ l) (hne : y ≠ x) :
    [y, x].Sublist (l.insertionSort r) ↔ Ahead r l y x := by
  have hnodup : (l.insertionSort r).Nodup := (List.perm_insertionSort r l).nodup_iff.mpr hl
  constructor
  · intro h
    have hr : r y x := List.pairwise_pair.mp ((List.pairwise_insertionSort r l).sublist h)
    refine ⟨hne, hr, ?_⟩
    by_contra hno
    rw [not_or, not_not] at hno
    have hbefore : [x, y].Sublist l := (pair_sublist_of_mem hx hy hne.symm).resolve_right hno.2
    exact not_pair_sublist_of_pair_sublist hnodup h (List.pair_sublist_insertionSort hno.1 hbefore)
  · rintro ⟨-, hr, hstrict | hbefore⟩
    · have hmem : ∀ {z}, z ∈ l → z ∈ l.insertionSort r := fun hz => (List.mem_insertionSort r).mpr hz
      refine (pair_sublist_of_mem (hmem hy) (hmem hx) hne).resolve_right fun h => hstrict ?_
      exact List.pairwise_pair.mp ((List.pairwise_insertionSort r l).sublist h)
    · exact List.pair_sublist_insertionSort hr hbefore

/-- The first `n` places: those with fewer than `n` entries ahead of them. -/
theorem mem_take_insertionSort_iff [DecidableEq α] (hl : l.Nodup) (hx : x ∈ l) (n : Nat) :
    x ∈ (l.insertionSort r).take n ↔ (l.filter fun y => Ahead r l y x).length < n := by
  have hperm := List.perm_insertionSort r l
  have hnodup : (l.insertionSort r).Nodup := hperm.nodup_iff.mpr hl
  obtain ⟨before, after, hsplit⟩ := List.append_of_mem (hperm.mem_iff.mpr hx)
  -- those sorted before `x` are those ahead of it
  have hbefore : (l.filter fun y => Ahead r l y x).Perm before := by
    rw [hsplit] at hnodup
    refine (List.perm_ext_iff_of_nodup (hl.filter _) hnodup.of_append_left).mpr fun y => ?_
    rw [List.mem_filter, decide_eq_true_eq]
    constructor
    · rintro ⟨hy, hahead⟩
      have hpair := (pair_sublist_insertionSort_iff hl hx hy hahead.1).mpr hahead
      have hmem : y ∈ before ++ x :: after := hsplit ▸ hperm.mem_iff.mpr hy
      rcases List.mem_append.mp hmem with hmem | hmem
      · exact hmem
      · have hafter := (List.mem_cons.mp hmem).resolve_left hahead.1
        have hlate : [x, y].Sublist (l.insertionSort r) := by
          rw [hsplit]
          exact ((List.singleton_sublist.mpr hafter).cons_cons x).trans (List.sublist_append_right ..)
        rw [hsplit] at hpair hlate
        exact absurd hpair (not_pair_sublist_of_pair_sublist hnodup hlate)
    · intro hy
      have hyl : y ∈ l := hperm.mem_iff.mp (by rw [hsplit]; exact List.mem_append_left _ hy)
      have hne : y ≠ x := by
        rintro rfl
        exact (List.nodup_append.mp hnodup).2.2 y hy y List.mem_cons_self rfl
      refine ⟨hyl, (pair_sublist_insertionSort_iff hl hx hyl hne).mp ?_⟩
      rw [hsplit]
      exact (List.singleton_sublist.mpr hy).append (List.singleton_sublist.mpr List.mem_cons_self)
  rw [hbefore.length_eq, hsplit]
  constructor
  · intro h
    by_contra hle
    rw [List.take_append_of_le_length (Nat.le_of_not_lt hle)] at h
    rw [hsplit] at hnodup
    exact (List.nodup_append.mp hnodup).2.2 x (List.mem_of_mem_take h) x List.mem_cons_self rfl
  · intro hlt
    obtain ⟨k, rfl⟩ := Nat.exists_eq_add_of_lt hlt
    rw [List.take_append, Nat.add_assoc, Nat.add_sub_cancel_left, List.take_succ_cons]
    exact List.mem_append_right _ List.mem_cons_self

end Lib
