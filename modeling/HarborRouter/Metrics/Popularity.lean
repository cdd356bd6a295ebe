import Mathlib.Data.Finset.Card
import HarborRouter.Lib.Machine
import HarborRouter.Lib.Ranking
import HarborRouter.Resolver.CacheKey

/-!
# Popularity tracking

The two maps from images to their numbers of requests, and the eviction that follows every insertion. A map is
iterated in any order, so what an eviction collects is a choice; a counter wraps around.

* `record_cases` : what one call does;
* `record_bounded` : calls one after another keep the map within its capacity.
-/

namespace HarborRouter
open Lib Text

def maxTrackedImages : Nat := 10000

def minRequestsForTopN : Nat := 10

@[ext] structure Counts where
  keys : Finset Text
  count : Text → Nat

namespace Counts

def empty : Counts := ⟨∅, fun _ => 0⟩

/-- `entry(key).and_modify(|count| *count += 1).or_insert(1)`. -/
def touch (m : Counts) (key : Text) : Counts :=
  ⟨insert key m.keys, Function.update m.count key (if key ∈ m.keys then (m.count key + 1) % UInt64.size else 1)⟩

def remove (m : Counts) (key : Text) : Counts := { m with keys := m.keys.erase key }

def removeAll (m : Counts) (ks : List Text) : Counts := ks.foldl remove m

def rare (m : Counts) : Finset Text := m.keys.filter fun k => m.count k ≤ 1

/-- What an eviction collects in some order of iteration: a tenth of the capacity, of the entries with count at most
one. -/
def Collects (m : Counts) (ks : List Text) : Prop :=
  ks.Nodup ∧ ks.toFinset ⊆ m.rare ∧ ks.length = min (maxTrackedImages / 10) m.rare.card

instance (m : Counts) (ks : List Text) : Decidable (m.Collects ks) := inferInstanceAs (Decidable (_ ∧ _ ∧ _))

def Over (m : Counts) : Prop := maxTrackedImages < m.keys.card

instance (m : Counts) : Decidable m.Over := inferInstanceAs (Decidable (_ < _))

/-- `maybe_evict_manifest_entries` and `maybe_evict_blob_entries`, collecting `ks`. -/
def maybeEvict (m : Counts) (ks : List Text) : Option Counts :=
  if m.Over then if m.Collects ks then some (m.removeAll ks) else none
  else if ks = [] then some m else none

/-- A call that records a request, collecting `ks` if it evicts. -/
def record (m : Counts) (key : Text) (ks : List Text) : Option Counts := (m.touch key).maybeEvict ks

def recordManifestRequest (m : Counts) (image reference : Text) (ks : List Text) : Option Counts :=
  m.record (cacheKey image reference) ks

def recordBlobRequest (m : Counts) (image : Text) (ks : List Text) : Option Counts := m.record image ks

def IsOrder (m : Counts) (order : List Text) : Prop := order.Nodup ∧ order.toFinset = m.keys

instance (m : Counts) (order : List Text) : Decidable (m.IsOrder order) := inferInstanceAs (Decidable (_ ∧ _))

/-- The entries requested often enough, the most requested first, as the map is iterated in `order`. -/
def topImages (m : Counts) (order : List Text) (n : Nat) : List (Text × Nat) :=
  (((order.filter fun k => minRequestsForTopN ≤ m.count k).map fun k => (k, m.count k)).insertionSort
    fun a b => b.2 ≤ a.2).take n

def topManifestImages (m : Counts) (order : List Text) (n : Nat) : List (Text × Nat) := m.topImages order n

def topBlobImages (m : Counts) (order : List Text) (n : Nat) : List (Text × Nat) := m.topImages order n

variable {m m' : Counts} {key k : Text} {ks : List Text}

@[simp] theorem keys_touch : (m.touch key).keys = insert key m.keys := rfl

theorem count_touch_of_mem (h : key ∈ m.keys) : (m.touch key).count key = (m.count key + 1) % UInt64.size := by
  simp [touch, h]

theorem count_touch_of_notMem (h : key ∉ m.keys) : (m.touch key).count key = 1 := by
  simp [touch, h]

theorem count_touch_of_ne (h : k ≠ key) : (m.touch key).count k = m.count k := Function.update_of_ne h ..

@[simp] theorem count_removeAll : (m.removeAll ks).count = m.count := by
  induction ks generalizing m with
  | nil => rfl
  | cons k ks ih => exact ih

@[simp] theorem keys_removeAll : (m.removeAll ks).keys = m.keys \ ks.toFinset := by
  induction ks generalizing m with
  | nil => simp [removeAll]
  | cons k ks ih =>
      show (removeAll (m.remove k) ks).keys = _
      rw [ih, List.toFinset_cons, remove, ← Finset.sdiff_singleton_eq_erase, sdiff_sdiff_left,
        Finset.sup_eq_union, Finset.insert_eq]

theorem mem_rare : k ∈ m.rare ↔ k ∈ m.keys ∧ m.count k ≤ 1 := Finset.mem_filter

theorem Collects.subset (h : m.Collects ks) (hk : k ∈ ks) : k ∈ m.keys ∧ m.count k ≤ 1 :=
  mem_rare.mp (h.2.1 (List.mem_toFinset.mpr hk))

theorem Collects.card_removeAll (h : m.Collects ks) : (m.removeAll ks).keys.card = m.keys.card - ks.length := by
  have hsub : ks.toFinset ⊆ m.keys := h.2.1.trans (Finset.filter_subset ..)
  rw [keys_removeAll, Finset.card_sdiff_of_subset hsub, List.toFinset_card_of_nodup h.1]

/-- What one call does: it counts, and when the map is over its capacity it removes what it collects. -/
theorem record_cases (h : m.record key ks = some m') :
    ¬ (m.touch key).Over ∧ ks = [] ∧ m' = m.touch key ∨
      (m.touch key).Over ∧ (m.touch key).Collects ks ∧ m' = (m.touch key).removeAll ks := by
  unfold record maybeEvict at h
  split_ifs at h with hover hcollects hnil
  · exact .inr ⟨hover, hcollects, (Option.some.inj h).symm⟩
  · exact .inl ⟨hover, hnil, (Option.some.inj h).symm⟩

/-- A tracked key is counted, and nothing is evicted. -/
theorem touch_of_mem (h : key ∈ m.keys) : (m.touch key).keys = m.keys := Finset.insert_eq_of_mem h

theorem card_touch_le : (m.touch key).keys.card ≤ m.keys.card + 1 := Finset.card_insert_le ..

/-- A new key can be collected itself, so an eviction collects something. -/
theorem Collects.ne_nil (hnew : key ∉ m.keys) (h : (m.touch key).Collects ks) : ks ≠ [] := by
  have hrare : key ∈ (m.touch key).rare :=
    mem_rare.mpr ⟨Finset.mem_insert_self .., (count_touch_of_notMem hnew).le⟩
  have hpos : 0 < (m.touch key).rare.card := Finset.card_pos.mpr ⟨key, hrare⟩
  have hlength := h.2.2
  rintro rfl
  rw [List.length_nil] at hlength
  have hten : 0 < maxTrackedImages / 10 := by decide
  omega

/-- One call after another, the map stays within its capacity. -/
theorem record_bounded (hm : ¬ m.Over) (h : m.record key ks = some m') : ¬ m'.Over := by
  obtain ⟨hover, -, rfl⟩ | ⟨hover, hcollects, rfl⟩ := record_cases h
  · exact hover
  · have hnew : key ∉ m.keys := by
      intro hkey
      rw [Over, touch_of_mem hkey] at hover
      exact hm hover
    have hpos : 0 < ks.length := List.length_pos_iff.mpr (hcollects.ne_nil hnew)
    have hcard : (m.touch key).keys.card ≤ m.keys.card + 1 := card_touch_le
    unfold Over at hm ⊢
    rw [hcollects.card_removeAll]
    omega

end Counts
end HarborRouter
