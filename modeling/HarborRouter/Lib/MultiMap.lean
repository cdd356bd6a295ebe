import Mathlib.Data.List.Basic
import Mathlib.Tactic.Common

/-!
# Multimaps

A multimap is the list of its entries. Inserting replaces the values of a key.

* `values_insertAll` : of the entries that are inserted one by one, the last of each key stays.
-/

namespace Lib.MultiMap

variable {κ ν : Type} [DecidableEq κ]

def values (m : List (κ × ν)) (k : κ) : List ν := (m.filter (·.1 = k)).map Prod.snd

def insert (m : List (κ × ν)) (k : κ) (v : ν) : List (κ × ν) :=
  if m.any fun h => h.1 = k then m.map fun h => if h.1 = k then (k, v) else h else m ++ [(k, v)]

def insertAll (m src : List (κ × ν)) : List (κ × ν) := src.foldl (fun m h => insert m h.1 h.2) m

def Single (m : List (κ × ν)) : Prop := ∀ k, (values m k).length ≤ 1

variable {m src : List (κ × ν)} {k k' : κ} {v : ν}

theorem values_cons (h : κ × ν) (m : List (κ × ν)) (k : κ) :
    values (h :: m) k = if h.1 = k then h.2 :: values m k else values m k := by
  rw [values, List.filter_cons]
  simp only [decide_eq_true_iff]
  split <;> rfl

theorem values_append (m n : List (κ × ν)) (k : κ) : values (m ++ n) k = values m k ++ values n k := by
  rw [values, List.filter_append, List.map_append]
  rfl

theorem values_replace (m : List (κ × ν)) (k k' : κ) (v : ν) :
    values (m.map fun h => if h.1 = k then (k, v) else h) k' =
      if k' = k then List.replicate (values m k).length v else values m k' := by
  induction m with
  | nil => split <;> rfl
  | cons h m ih =>
      rw [List.map_cons, values_cons, ih, values_cons, values_cons]
      by_cases hk : h.1 = k
      · rw [if_pos hk, if_pos hk]
        by_cases hk' : k' = k
        · rw [if_pos hk'.symm, if_pos hk', if_pos hk']
          rfl
        · rw [if_neg (Ne.symm hk'), if_neg hk', if_neg hk', if_neg fun h' => hk' (h'.symm.trans hk)]
      · rw [if_neg hk, if_neg hk]
        by_cases hk' : k' = k
        · rw [if_pos hk', if_pos hk', if_neg fun h' => hk (h'.trans hk')]
        · rw [if_neg hk', if_neg hk']

theorem any_iff_values_ne : (m.any fun h => h.1 = k) = true ↔ values m k ≠ [] := by
  rw [values, ne_eq, List.map_eq_nil_iff, List.filter_eq_nil_iff, List.any_eq_true]
  simp only [decide_eq_true_iff, not_forall, not_not, exists_prop]

theorem values_insert_self (hm : Single m) : values (insert m k v) k = [v] := by
  rw [insert]
  split
  · rename_i hany
    have hone : (values m k).length = 1 :=
      Nat.le_antisymm (hm k) (List.length_pos_of_ne_nil (any_iff_values_ne.mp hany))
    rw [values_replace, if_pos rfl, hone]
    rfl
  · rename_i hany
    have hnone : values m k = [] := not_not.mp (mt any_iff_values_ne.mpr hany)
    rw [values_append, hnone, values_cons, if_pos rfl]
    rfl

theorem values_insert_of_ne (h : k' ≠ k) : values (insert m k v) k' = values m k' := by
  rw [insert]
  split
  · rw [values_replace, if_neg h]
  · rw [values_append, values_cons, if_neg h.symm]
    exact List.append_nil _

theorem Single.insert (hm : Single m) (k : κ) (v : ν) : Single (insert m k v) := by
  intro k'
  by_cases h : k' = k
  · subst h
    rw [values_insert_self hm]
    exact Nat.le_refl 1
  · rw [values_insert_of_ne h]
    exact hm k'

/-- The last value of each key stays. -/
theorem values_insertAll (hm : Single m) (src : List (κ × ν)) (k : κ) :
    values (insertAll m src) k = match (values src k).getLast? with
      | some v => [v]
      | none => values m k := by
  induction src generalizing m with
  | nil => rfl
  | cons h src ih =>
      have hstep := ih (hm.insert h.1 h.2)
      rw [values_cons]
      refine hstep.trans ?_
      by_cases hk : h.1 = k
      · subst hk
        rw [if_pos rfl, List.getLast?_cons, values_insert_self hm]
        cases (values src h.1).getLast? <;> rfl
      · rw [if_neg hk, values_insert_of_ne (Ne.symm hk)]

theorem values_filter (p : κ → Bool) (src : List (κ × ν)) (k : κ) :
    values (src.filter fun h => p h.1) k = if p k then values src k else [] := by
  induction src with
  | nil => split <;> rfl
  | cons h src ih =>
      have hskip : h.1 ≠ k → values (h :: src) k = values src k := fun hk => by rw [values_cons, if_neg hk]
      rw [List.filter_cons]
      split
      · rename_i hp
        rw [values_cons, ih]
        split
        · rename_i hk
          subst hk
          rw [if_pos hp, if_pos hp, values_cons, if_pos rfl]
        · rename_i hk
          rw [hskip hk]
      · rename_i hp
        rw [ih]
        split
        · rename_i hpk
          exact (hskip fun hk => hp (hk ▸ hpk)).symm
        · rfl

end Lib.MultiMap
