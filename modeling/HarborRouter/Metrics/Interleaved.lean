import HarborRouter.Metrics.TopImages
import HarborRouter.Lib.Maps

/-!
# Popularity tracking, one map operation at a time

Any number of calls on the two maps, interleaved at their insertions, length checks, collections and removals.
`Progress` is where a call stands; a call that has nothing left to remove has returned.

* `run_record` : a call that nothing interrupts is the call of `Popularity`;
* `Covered` : a map over its capacity is still to be looked at, or enough of its entries are about to go;
* `Relieved` : what a call that collects must find, so that any order of iteration relieves the map enough;
* `covered_step`, `uncovered_step` : guarded operations keep it covered, and only another call repairs it;
* `bounded_at_rest` : runs of guarded operations come to rest within the capacity.
-/

namespace HarborRouter
open Lib Counts

namespace Tracker

/-- Where a call stands: before its length check, before its collection, or removing what it collected. -/
inductive Progress
  | checking
  | collecting
  | evicting (left : List Text)
  deriving DecidableEq

/-- One of the maps, and where every caller of it stands. -/
structure State where
  counts : Counts
  progress : Nat → Progress

inductive Label
  | count (i : Nat) (key : Text)
  | check (i : Nat)
  | collect (i : Nat) (ks : List Text)
  | remove (i : Nat)
  deriving DecidableEq

def Label.counts : Label → Bool
  | .count _ _ => true
  | _ => false

def step (s : State) : Label → Option State
  | .count i key =>
      if s.progress i = .evicting [] then some ⟨s.counts.touch key, Function.update s.progress i .checking⟩ else none
  | .check i =>
      if s.progress i = .checking then
        some { s with progress := Function.update s.progress i (if s.counts.Over then .collecting else .evicting []) }
      else none
  | .collect i ks =>
      if s.progress i = .collecting ∧ s.counts.Collects ks then
        some { s with progress := Function.update s.progress i (.evicting ks) }
      else none
  | .remove i =>
      match s.progress i with
      | .evicting (k :: ks) => some ⟨s.counts.remove k, Function.update s.progress i (.evicting ks)⟩
      | _ => none

def init : State := ⟨.empty, fun _ => .evicting []⟩

def machine : Machine State Label := ⟨init, step⟩

theorem step_machine (s : State) (l : Label) : machine.step s l = step s l := rfl

def AtRest (s : State) : Prop := ∀ i, s.progress i = .evicting []

/-- The call has inserted its key and not yet collected. -/
def Progress.Undecided : Progress → Prop
  | .checking | .collecting => True
  | .evicting _ => False

def Spared (s : State) (k : Text) : Prop := ∀ i ks, s.progress i = .evicting ks → k ∉ ks

open scoped Classical in
/-- The entries that stay when the calls in progress have removed what they collected. -/
noncomputable def spared (s : State) : Finset Text := s.counts.keys.filter (Spared s)

/-- A map over its capacity is still to be looked at, or enough of its entries are about to go. -/
def Covered (s : State) : Prop := (∃ i, (s.progress i).Undecided) ∨ (spared s).card ≤ maxTrackedImages

/-- How many spared entries a collection is bound to take: at worst it first takes the rare ones that other calls are
about to remove. -/
noncomputable def relief (s : State) : Nat :=
  min (maxTrackedImages / 10) s.counts.rare.card - (s.counts.rare \ spared s).card

/-- Another call has yet to collect, or the spared entries exceed the capacity by no more than a collection takes. -/
def Relieved (s : State) (i : Nat) : Prop :=
  (∃ j, j ≠ i ∧ (s.progress j).Undecided) ∨ (spared s).card ≤ maxTrackedImages + relief s

def Suffices (s : State) : Label → Prop
  | .collect i _ => Relieved s i
  | _ => True

variable {s t : State} {i : Nat} {k key : Text} {ks : List Text}

theorem mem_spared : k ∈ spared s ↔ k ∈ s.counts.keys ∧ Spared s k := by
  classical exact Finset.mem_filter

theorem spared_subset (s : State) : spared s ⊆ s.counts.keys := fun _ hk => (mem_spared.mp hk).1

theorem step_cases {l : Label} (h : step s l = some t) :
    (∃ i key, l = .count i key ∧ s.progress i = .evicting [] ∧
      t = ⟨s.counts.touch key, Function.update s.progress i .checking⟩) ∨
    (∃ i, l = .check i ∧ s.progress i = .checking ∧
      t = { s with progress := Function.update s.progress i (if s.counts.Over then .collecting else .evicting []) }) ∨
    (∃ i ks, l = .collect i ks ∧ s.progress i = .collecting ∧ s.counts.Collects ks ∧
      t = { s with progress := Function.update s.progress i (.evicting ks) }) ∨
    (∃ i k ks, l = .remove i ∧ s.progress i = .evicting (k :: ks) ∧
      t = ⟨s.counts.remove k, Function.update s.progress i (.evicting ks)⟩) := by
  cases l with
  | count i key =>
      by_cases hi : s.progress i = .evicting []
      · rw [step, if_pos hi] at h
        exact .inl ⟨i, key, rfl, hi, (Option.some.inj h).symm⟩
      · rw [step, if_neg hi] at h
        cases h
  | check i =>
      by_cases hi : s.progress i = .checking
      · rw [step, if_pos hi] at h
        exact .inr (.inl ⟨i, rfl, hi, (Option.some.inj h).symm⟩)
      · rw [step, if_neg hi] at h
        cases h
  | collect i ks =>
      by_cases hi : s.progress i = .collecting ∧ s.counts.Collects ks
      · rw [step, if_pos hi] at h
        exact .inr (.inr (.inl ⟨i, ks, rfl, hi.1, hi.2, (Option.some.inj h).symm⟩))
      · rw [step, if_neg hi] at h
        cases h
  | remove i =>
      simp only [step] at h
      split at h
      · rename_i k ks hi
        exact .inr (.inr (.inr ⟨i, k, ks, rfl, hi, (Option.some.inj h).symm⟩))
      · cases h

/-- No caller but `i` is about to remove the entry. -/
def SparedByOthers (s : State) (i : Nat) (k : Text) : Prop :=
  ∀ j ls, j ≠ i → s.progress j = .evicting ls → k ∉ ls

theorem spared_iff (i : Nat) : Spared s k ↔ (∀ ls, s.progress i = .evicting ls → k ∉ ls) ∧ SparedByOthers s i k := by
  constructor
  · intro h
    exact ⟨h i, fun j ls _ => h j ls⟩
  · rintro ⟨hi, hothers⟩ j ls hj
    by_cases hji : j = i
    · exact hi ls (hji ▸ hj)
    · exact hothers j ls hji hj

theorem spared_update {m : Counts} :
    Spared ⟨m, Function.update s.progress i (.evicting ks)⟩ k ↔ k ∉ ks ∧ SparedByOthers s i k := by
  rw [spared_iff i]
  refine and_congr ⟨fun h => h ks (Function.update_self ..), fun h ls hls => ?_⟩ ?_
  · cases (Function.update_self ..).symm.trans hls
    exact h
  · exact forall₃_congr fun j ls hne => by rw [← Function.update_of_ne hne (.evicting ks) s.progress]

/-- A caller that collects spares what it does not collect. -/
theorem spared_collect (hi : s.progress i = .collecting) :
    spared { s with progress := Function.update s.progress i (.evicting ks) } = spared s \ ks.toFinset := by
  ext k
  rw [Finset.mem_sdiff, mem_spared, mem_spared, List.mem_toFinset, spared_update, spared_iff i, hi]
  simp only [reduceCtorEq, false_implies, implies_true, true_and]
  tauto

/-- A removal spares what was spared. -/
theorem spared_remove (hi : s.progress i = .evicting (k :: ks)) :
    spared ⟨s.counts.remove k, Function.update s.progress i (.evicting ks)⟩ = spared s := by
  ext j
  rw [mem_spared, mem_spared, spared_update, spared_iff i, hi]
  have hmem : j ∈ (s.counts.remove k).keys ↔ j ≠ k ∧ j ∈ s.counts.keys := Finset.mem_erase
  have hlist : (∀ ls, Progress.evicting (k :: ks) = .evicting ls → j ∉ ls) ↔ j ≠ k ∧ j ∉ ks := by
    simp [not_or]
  rw [hmem, hlist]
  tauto

/-- What is taken out of `R` leaves as much of `S` as if all that is not in `S` were taken first, or less. -/
theorem card_sdiff_of_subset {S R C : Finset Text} (hC : C ⊆ R) : (S \ C).card + (C.card - (R \ S).card) ≤ S.card := by
  have hS : (S \ C).card + (S ∩ C).card = S.card := Finset.card_sdiff_add_card_inter S C
  have hsplit : (C \ S).card + (C ∩ S).card = C.card := Finset.card_sdiff_add_card_inter C S
  have hle : (C \ S).card ≤ (R \ S).card := Finset.card_le_card (Finset.sdiff_subset_sdiff hC subset_rfl)
  rw [Finset.inter_comm] at hsplit
  omega

theorem exists_card_sdiff {S R : Finset Text} {n : Nat} (hn : n ≤ R.card) :
    ∃ C ⊆ R, C.card = n ∧ (S \ C).card + (n - (R \ S).card) = S.card := by
  by_cases h : (R \ S).card ≤ n
  · obtain ⟨C, hsub, hC, rfl⟩ := Finset.exists_subsuperset_card_eq Finset.sdiff_subset h hn
    have hsame : C \ S = R \ S := Finset.Subset.antisymm (Finset.sdiff_subset_sdiff hC subset_rfl) fun k hk =>
      Finset.mem_sdiff.mpr ⟨hsub hk, (Finset.mem_sdiff.mp hk).2⟩
    have hS : (S \ C).card + (S ∩ C).card = S.card := Finset.card_sdiff_add_card_inter S C
    have hsplit : (C \ S).card + (C ∩ S).card = C.card := Finset.card_sdiff_add_card_inter C S
    rw [hsame, Finset.inter_comm] at hsplit
    exact ⟨C, hC, rfl, by omega⟩
  · obtain ⟨C, hC, rfl⟩ := Finset.exists_subset_card_eq (Nat.le_of_not_le h)
    have hdisjoint : Disjoint S C := Finset.disjoint_of_subset_right hC Finset.disjoint_sdiff
    refine ⟨C, hC.trans Finset.sdiff_subset, rfl, ?_⟩
    rw [Finset.sdiff_eq_self_of_disjoint hdisjoint]
    omega

/-- A relieved collection leaves the map covered, in whatever order it iterates. -/
theorem card_spared_sdiff_le (hcollects : s.counts.Collects ks) :
    (spared s \ ks.toFinset).card + relief s ≤ (spared s).card := by
  obtain ⟨hnodup, hrare, hlength⟩ := hcollects
  rw [relief, ← hlength, ← List.toFinset_card_of_nodup hnodup]
  exact card_sdiff_of_subset hrare

/-- In some order of iteration a collection takes no more than it must. -/
theorem exists_collects (s : State) :
    ∃ ks, s.counts.Collects ks ∧ (spared s \ ks.toFinset).card + relief s = (spared s).card := by
  obtain ⟨C, hC, hcard, hworst⟩ := exists_card_sdiff (S := spared s)
    (Nat.min_le_right (maxTrackedImages / 10) s.counts.rare.card)
  refine ⟨C.toList, ⟨C.nodup_toList, ?_, ?_⟩, ?_⟩
  · rw [Finset.toList_toFinset]
    exact hC
  · rw [Finset.length_toList, hcard]
  · rw [Finset.toList_toFinset]
    exact hworst

/-- After a collection, other calls have yet to collect, or what is spared and was not collected stays. -/
theorem covered_collect (hi : s.progress i = .collecting) :
    Covered { s with progress := Function.update s.progress i (.evicting ks) } ↔
      (∃ j, j ≠ i ∧ (s.progress j).Undecided) ∨ (spared s \ ks.toFinset).card ≤ maxTrackedImages := by
  show (∃ j, _) ∨ _ ↔ _
  rw [spared_collect hi, exists_update_iff]
  exact or_congr_left (or_iff_right not_false)

theorem covered_step (h : Covered s) {l : Label} (hl : Suffices s l) (ht : step s l = some t) : Covered t := by
  obtain ⟨i, key, rfl, hi, rfl⟩ | ⟨i, rfl, hi, rfl⟩ | ⟨i, ks, rfl, hi, hcollects, rfl⟩ | ⟨i, k, ks, rfl, hi, rfl⟩ :=
    step_cases ht
  · exact .inl (exists_update_self _ i trivial)
  · by_cases hover : s.counts.Over
    · rw [if_pos hover]
      exact .inl (exists_update_self _ i trivial)
    · exact .inr ((Finset.card_le_card (spared_subset _)).trans (Nat.le_of_not_lt hover))
  · refine (covered_collect hi).mpr (hl.imp_right fun hcard => ?_)
    have hle := card_spared_sdiff_le hcollects
    omega
  · rcases h with h | h
    · refine .inl (exists_update h fun hu => ?_)
      rw [hi] at hu
      exact hu
    · exact .inr (by rw [spared_remove hi]; exact h)

theorem uncovered_of_not_relieved (hi : s.progress i = .collecting) (h : ¬ Relieved s i) :
    ∃ ks t, step s (.collect i ks) = some t ∧ ¬ Covered t := by
  obtain ⟨ks, hcollects, hworst⟩ := exists_collects s
  refine ⟨ks, _, if_pos ⟨hi, hcollects⟩, fun hcovered => h ?_⟩
  refine ((covered_collect hi).mp hcovered).imp_right fun hle => ?_
  omega

/-- What is not covered stays so until another call counts. -/
theorem uncovered_step (h : ¬ Covered s) {l : Label} (hl : l.counts = false) (ht : step s l = some t) :
    ¬ Covered t := by
  have hnone : ∀ j, ¬ (s.progress j).Undecided := fun j hj => h (.inl ⟨j, hj⟩)
  obtain ⟨i, key, rfl, hi, rfl⟩ | ⟨i, rfl, hi, rfl⟩ | ⟨i, ks, rfl, hi, -, rfl⟩ | ⟨i, k, ks, rfl, hi, rfl⟩ :=
    step_cases ht
  · cases hl
  · exact absurd (by rw [hi]; trivial) (hnone i)
  · exact absurd (by rw [hi]; trivial) (hnone i)
  · rintro (hu | hcard)
    · obtain hu | ⟨j, -, hj⟩ := exists_update_iff.mp hu
      · exact hu
      · exact hnone j hj
    · exact h (.inr (by rw [← spared_remove hi]; exact hcard))

theorem covered_iff_of_rest (hrest : AtRest s) : Covered s ↔ s.counts.keys.card ≤ maxTrackedImages := by
  have hnone : ¬ ∃ i, (s.progress i).Undecided := by
    rintro ⟨i, hi⟩
    rw [hrest i] at hi
    exact hi
  have hall : spared s = s.counts.keys := by
    refine Finset.Subset.antisymm (spared_subset s) fun k hk => mem_spared.mpr ⟨hk, fun i ks hi => ?_⟩
    rw [hrest i] at hi
    cases hi
    exact List.not_mem_nil
  rw [Covered, hall]
  exact or_iff_right hnone

theorem covered_init : Covered init := (covered_iff_of_rest fun _ => rfl).mpr (Nat.zero_le _)

/-! ## A call alone -/

def calls (m : Counts) (i : Nat) (key : Text) (ks : List Text) : List Label :=
  if (m.touch key).Over then [.count i key, .check i, .collect i ks] ++ List.replicate ks.length (.remove i)
  else [.count i key, .check i]

theorem step_count (hi : s.progress i = .evicting []) :
    machine.step s (.count i key) = some ⟨s.counts.touch key, Function.update s.progress i .checking⟩ := if_pos hi

theorem step_check (hi : s.progress i = .checking) (hover : s.counts.Over) :
    machine.step s (.check i) = some { s with progress := Function.update s.progress i .collecting } := by
  rw [step_machine, step, if_pos hi, if_pos hover]

theorem step_check_of_room (hi : s.progress i = .checking) (hroom : ¬ s.counts.Over) :
    machine.step s (.check i) = some { s with progress := Function.update s.progress i (.evicting []) } := by
  rw [step_machine, step, if_pos hi, if_neg hroom]

theorem step_collect (hi : s.progress i = .collecting) (hcollects : s.counts.Collects ks) :
    machine.step s (.collect i ks) = some { s with progress := Function.update s.progress i (.evicting ks) } :=
  if_pos ⟨hi, hcollects⟩

theorem step_remove (hi : s.progress i = .evicting (k :: ks)) :
    machine.step s (.remove i) = some ⟨s.counts.remove k, Function.update s.progress i (.evicting ks)⟩ := by
  simp only [step_machine, step, hi]

theorem run_removes (hi : s.progress i = .evicting ks) : machine.run s (List.replicate ks.length (.remove i)) =
    some ⟨s.counts.removeAll ks, Function.update s.progress i (.evicting [])⟩ := by
  induction ks generalizing s with
  | nil =>
      rw [← hi, Function.update_eq_self]
      rfl
  | cons k ks ih =>
      rw [List.length_cons, List.replicate_succ, Machine.run_cons_some _ (step_remove hi), ih (Function.update_self ..),
        Function.update_idem]
      rfl

/-- The operations of a call, together, are the call executed at once. -/
theorem run_record {m : Counts} (hi : s.progress i = .evicting []) (h : s.counts.record key ks = some m) :
    machine.run s (calls s.counts i key ks) = some { s with counts := m } := by
  have hrest : ∀ p, Function.update (Function.update s.progress i p) i (.evicting []) = s.progress := by
    intro p
    rw [Function.update_idem, ← hi, Function.update_eq_self]
  have hself : ∀ p, Function.update s.progress i p i = p := fun p => Function.update_self ..
  obtain ⟨hroom, -, rfl⟩ | ⟨hover, hcollects, rfl⟩ := record_cases h
  · rw [calls, if_neg hroom, Machine.run_cons_some _ (step_count hi),
      Machine.run_cons_some _ (step_check_of_room (hself _) hroom), hrest]
    rfl
  · rw [calls, if_pos hover, List.cons_append, Machine.run_cons_some _ (step_count hi), List.cons_append,
      Machine.run_cons_some _ (step_check (hself _) hover), Function.update_idem, List.cons_append,
      Machine.run_cons_some _ (step_collect (s := ⟨s.counts.touch key, _⟩) (hself _) hcollects),
      Function.update_idem, List.nil_append, run_removes (hself _), hrest]

theorem guarded_of_removes (i n : Nat) (s : State) : machine.Guarded Suffices s (List.replicate n (.remove i)) := by
  induction n generalizing s with
  | zero => trivial
  | succ n ih => exact fun t _ => ⟨trivial, ih t⟩

/-- A call that nothing interrupts is relieved: the key that took the map over its capacity has been requested once. -/
theorem guarded_calls {m : Counts} (hrest : AtRest s) (hroom : ¬ s.counts.Over) (h : s.counts.record key ks = some m) :
    machine.Guarded Suffices s (calls s.counts i key ks) := by
  have hself : ∀ p, Function.update s.progress i p i = p := fun p => Function.update_self ..
  obtain ⟨hunder, -, -⟩ | ⟨hover, hcollects, -⟩ := record_cases h
  · rw [calls, if_neg hunder, Machine.guarded_cons (step_count (hrest i)),
      Machine.guarded_cons (step_check_of_room (hself _) hunder)]
    exact ⟨trivial, trivial, trivial⟩
  · rw [calls, if_pos hover, List.cons_append, Machine.guarded_cons (step_count (hrest i)), List.cons_append,
      Machine.guarded_cons (step_check (hself _) hover), Function.update_idem, List.cons_append,
      Machine.guarded_cons (step_collect (s := ⟨s.counts.touch key, _⟩) (hself _) hcollects)]
    refine ⟨trivial, trivial, .inr ?_, guarded_of_removes ..⟩
    have hnew : key ∉ s.counts.keys := fun hkey => hroom (by rwa [Over, touch_of_mem hkey] at hover)
    let u : State := ⟨s.counts.touch key, Function.update s.progress i .collecting⟩
    have hnobody : ∀ k, Spared u k := fun k j ls hj => by
      by_cases hji : j = i
      · subst hji
        cases (hself _).symm.trans hj
      · have hj : Function.update s.progress i .collecting j = .evicting ls := hj
        rw [Function.update_of_ne hji, hrest j] at hj
        cases hj
        exact List.not_mem_nil
    have hrare : u.counts.rare \ spared u = ∅ := Finset.sdiff_eq_empty_iff_subset.mpr fun k hk =>
      mem_spared.mpr ⟨(mem_rare.mp hk).1, hnobody k⟩
    have hpos : 0 < ks.length := List.length_pos_iff.mpr (hcollects.ne_nil hnew)
    have hrelief : relief u = ks.length := by
      rw [relief, hrare, Finset.card_empty, Nat.sub_zero, hcollects.2.2]
    have hcard : (spared u).card ≤ s.counts.keys.card + 1 :=
      (Finset.card_le_card (spared_subset u)).trans card_touch_le
    have hfull : s.counts.keys.card ≤ maxTrackedImages := Nat.le_of_not_lt hroom
    show (spared u).card ≤ maxTrackedImages + relief u
    omega

theorem run_history {rs : List ManifestRequest} {m : Counts} (h : popularity.run .empty rs = some m) :
    ∃ ls, machine.run init ls = some { init with counts := m } ∧ machine.Guarded Suffices init ls := by
  induction rs using List.reverseRecOn generalizing m with
  | nil =>
      cases h
      exact ⟨[], rfl, trivial⟩
  | append_singleton rs r ih =>
      obtain ⟨u, hu, h⟩ := (Machine.run_concat _).mp h
      obtain ⟨ls, hls, hguard⟩ := ih hu
      refine ⟨ls ++ calls u 0 r.key r.collected, ?_, hguard.append hls ?_⟩
      · rw [Machine.run_append, hls, Option.bind_some]
        exact run_record (s := { init with counts := u }) rfl h
      · exact guarded_calls (s := { init with counts := u }) (fun _ => rfl) (popularity_bounded hu) h

/-! ## Two calls that overlap -/

theorem progress_init {f : Nat → Progress} (h0 : f 0 = .evicting []) (h1 : f 1 = .evicting [])
    (h2 : ∀ j, f (j + 2) = .evicting []) : f = init.progress := by
  funext j
  rcases j with _ | _ | j
  · exact h0
  · exact h1
  · exact h2 j

/-- A new image and one that is tracked, both counted before either call looks for what to evict. -/
def crossing (new old : Text) : List Label :=
  [.count 0 new, .count 1 old, .check 0, .check 1, .collect 0 [new], .collect 1 [new], .remove 0, .remove 1]

section Crossing
variable {m : Counts} {new old : Text} (hbarred : m.Barred new) (hold : old ∈ m.keys)
include hbarred hold

theorem over_crossing : ((m.touch new).touch old).Over := by
  rw [Over, touch_of_mem (Finset.mem_insert_of_mem hold)]
  exact hbarred.2.1

theorem collects_crossing (htwo : m.count old = 2) : ((m.touch new).touch old).Collects [new] := by
  have hne : old ≠ new := fun he => hbarred.1 (he ▸ hold)
  have hmem : old ∈ (m.touch new).keys := Finset.mem_insert_of_mem hold
  refine collects_of_rare ?_
  rw [← rare_of_barred hbarred]
  ext k
  rw [mem_rare, mem_rare, touch_of_mem hmem]
  by_cases hk : k = old
  · subst hk
    have hthree : ((m.touch new).touch k).count k = 3 := by
      rw [count_touch_of_mem hmem, count_touch_of_ne hne, htwo]
      rfl
    rw [hthree, count_touch_of_ne hne, htwo]
    simp
  · rw [count_touch_of_ne hk]

theorem run_crossing (htwo : m.count old = 2) : machine.run { init with counts := m } (crossing new old) =
    some { init with counts := (((m.touch new).touch old).remove new).remove new } := by
  have hover := over_crossing hbarred hold
  have hcollects := collects_crossing hbarred hold htwo
  refine (Machine.run_cons_some _ (step_count rfl) _).trans ?_
  refine (Machine.run_cons_some _ (step_count rfl) _).trans ?_
  refine (Machine.run_cons_some _ (step_check rfl hover) _).trans ?_
  refine (Machine.run_cons_some _ (step_check rfl hover) _).trans ?_
  refine (Machine.run_cons_some _ (step_collect (s := ⟨_, _⟩) rfl hcollects) _).trans ?_
  refine (Machine.run_cons_some _ (step_collect (s := ⟨_, _⟩) rfl hcollects) _).trans ?_
  refine (Machine.run_cons_some _ (step_remove (s := ⟨_, _⟩) rfl) _).trans ?_
  refine (Machine.run_cons_some _ (step_remove (s := ⟨_, _⟩) rfl) _).trans ?_
  exact congrArg (fun f => some (State.mk _ f)) (progress_init rfl rfl fun _ => rfl)

/-- The first call leaves the map to the second, which finds that the first is about to remove enough. -/
theorem guarded_crossing (htwo : m.count old = 2) (hroom : ¬ m.Over) :
    machine.Guarded Suffices { init with counts := m } (crossing new old) := by
  have hover := over_crossing hbarred hold
  have hcollects := collects_crossing hbarred hold htwo
  refine (Machine.guarded_cons (step_count rfl)).mpr ⟨trivial, ?_⟩
  refine (Machine.guarded_cons (step_count rfl)).mpr ⟨trivial, ?_⟩
  refine (Machine.guarded_cons (step_check rfl hover)).mpr ⟨trivial, ?_⟩
  refine (Machine.guarded_cons (step_check rfl hover)).mpr ⟨trivial, ?_⟩
  refine (Machine.guarded_cons (step_collect (s := ⟨_, _⟩) rfl hcollects)).mpr ⟨.inl ⟨1, by decide, trivial⟩, ?_⟩
  refine (Machine.guarded_cons (step_collect (s := ⟨_, _⟩) rfl hcollects)).mpr
    ⟨.inr ?_, fun _ _ => ⟨trivial, fun _ _ => ⟨trivial, trivial⟩⟩⟩
  refine Nat.le_add_right_of_le ((Finset.card_le_card fun k hk => ?_).trans (Nat.le_of_not_lt hroom))
  obtain ⟨hk, hspared⟩ := mem_spared.mp hk
  have hk : k ∈ insert old (insert new m.keys) := hk
  rw [Finset.insert_eq_of_mem (Finset.mem_insert_of_mem hold)] at hk
  refine (Finset.mem_insert.mp hk).resolve_left ?_
  rintro rfl
  exact hspared 0 [k] rfl List.mem_cons_self

end Crossing

end Tracker

/-! ## The two maps -/

inductive Tracked
  | manifests
  | blobs
  deriving DecidableEq

namespace Tracked
open Tracker

def step (s : Tracked → State) (l : Tracked × Label) : Option (Tracked → State) :=
  (Tracker.step (s l.1) l.2).map (Function.update s l.1)

/-- The calls on both maps. -/
def machine : Machine (Tracked → State) (Tracked × Label) := ⟨fun _ => Tracker.init, step⟩

variable {s t : Tracked → State}

theorem step_cases {k : Tracked} {l : Label} (h : step s (k, l) = some t) :
    Tracker.step (s k) l = some (t k) ∧ ∀ j, j ≠ k → t j = s j := by
  obtain ⟨u, hu, rfl⟩ := Option.map_eq_some_iff.mp h
  exact ⟨by rw [Function.update_self]; exact hu, fun j hj => Function.update_of_ne hj ..⟩

def Sufficient (s : Tracked → State) (l : Tracked × Label) : Prop := Suffices (s l.1) l.2

theorem covered_step (h : ∀ k, Covered (s k)) {l : Tracked × Label} (hl : Sufficient s l) (ht : step s l = some t) :
    ∀ k, Covered (t k) := by
  obtain ⟨k, l⟩ := l
  obtain ⟨hk, hother⟩ := step_cases ht
  intro j
  by_cases hj : j = k
  · subst hj
    exact Tracker.covered_step (h j) hl hk
  · rw [hother j hj]
    exact h j

theorem uncovered_run {k : Tracked} {ls : List (Tracked × Label)} (hls : ∀ l ∈ ls, l.1 = k → l.2.counts = false)
    (h : ¬ Covered (s k)) (hrun : machine.run s ls = some t) : ¬ Covered (t k) := by
  refine Machine.run_rule_on (M := machine) (D := fun l => l.1 = k → l.2.counts = false)
    (I := fun s => ¬ Covered (s k)) ?_ hls h hrun
  rintro s ⟨j, l⟩ t hl hs ht
  obtain ⟨hj, hother⟩ := step_cases ht
  by_cases hjk : k = j
  · subst hjk
    exact uncovered_step hs (hl rfl) hj
  · rw [hother k hjk]
    exact hs

theorem run_map (k : Tracked) {ls : List Label} {t : State} (h : Tracker.machine.run (s k) ls = some t) :
    machine.run s (ls.map (k, ·)) = some (Function.update s k t) := by
  induction ls generalizing s with
  | nil =>
      cases h
      rw [Function.update_eq_self]
      rfl
  | cons l ls ih =>
      rw [Machine.run_cons, Option.bind_eq_some_iff] at h
      obtain ⟨u, hu, h⟩ := h
      have hstep : machine.step s (k, l) = some (Function.update s k u) := by
        show (Tracker.step (s k) l).map _ = _
        rw [show Tracker.step (s k) l = some u from hu]
        rfl
      rw [List.map_cons, Machine.run_cons_some _ hstep, ih (by rw [Function.update_self]; exact h),
        Function.update_idem]

theorem guarded_map (k : Tracked) {ls : List Label} (h : Tracker.machine.Guarded Suffices (s k) ls) :
    machine.Guarded Sufficient s (ls.map (k, ·)) := by
  induction ls generalizing s with
  | nil => trivial
  | cons l ls ih =>
      intro t ht
      obtain ⟨hl, hls⟩ := h (t k) (step_cases ht).1
      exact ⟨hl, ih hls⟩

/-- In a run in which every call that collects is relieved, whenever no call is in progress each map is within its
capacity. Where a call is not relieved, some order of iteration makes it collect too little: once the calls in progress
have finished the map is over its capacity, unless a further call counts. -/
theorem bounded_at_rest (ls : List (Tracked × Label)) (s : Tracked → State)
    (hrun : machine.run machine.init ls = some s) (hguard : machine.Guarded Sufficient machine.init ls) :
    (∀ k, AtRest (s k) → (s k).counts.keys.card ≤ maxTrackedImages) ∧
      ∀ k i, (s k).progress i = .collecting → ¬ Relieved (s k) i →
        ∃ ks t, machine.step s (k, .collect i ks) = some t ∧
          ∀ ms u, (∀ m ∈ ms, m.1 = k → m.2.counts = false) → machine.run t ms = some u → AtRest (u k) →
            maxTrackedImages < (u k).counts.keys.card := by
  have hcovered : ∀ k, Covered (s k) :=
    hguard.run_rule (I := fun s => ∀ k, Covered (s k)) (fun s _ t h hl ht => covered_step (s := s) (t := t) h hl ht)
      (fun _ => covered_init) hrun
  refine ⟨fun k hrest => (covered_iff_of_rest hrest).mp (hcovered k), fun k i hi hnot => ?_⟩
  obtain ⟨ks, v, hstep, hlost⟩ := uncovered_of_not_relieved hi hnot
  have ht : machine.step s (k, .collect i ks) = some (Function.update s k v) := by
    show (Tracker.step (s k) _).map _ = _
    rw [hstep]
    rfl
  refine ⟨ks, _, ht, fun ms u hms hu hrest => Nat.lt_of_not_le fun hle => ?_⟩
  have hlost : ¬ Covered (Function.update s k v k) := by rwa [Function.update_self]
  exact uncovered_run hms hlost hu ((covered_iff_of_rest hrest).mpr hle)

theorem bounded_at_rest_crossing : ∃ ls s new, machine.run machine.init ls = some s ∧
    (.manifests, .collect 0 [new]) ∈ ls ∧ (.manifests, .collect 1 [new]) ∈ ls ∧
      (s .manifests).counts.keys.card ≤ maxTrackedImages := by
  obtain ⟨m, hm, hkeys, htwo, hbarred⟩ := exists_full
  have hold : (filler 0).key ∈ m.keys := by
    rw [hkeys]
    exact Finset.mem_image_of_mem _ (Finset.mem_range.mpr (by decide))
  obtain ⟨ls, hls, hguard⟩ := run_history hm
  let all := (ls ++ crossing evicted.key (filler 0).key).map (Tracked.manifests, ·)
  have hrun : machine.run machine.init all = _ := run_map (s := machine.init) .manifests (t := _) (by
    rw [Machine.run_append, show machine.init .manifests = Tracker.init from rfl, hls, Option.bind_some]
    exact run_crossing hbarred hold (htwo _ hold))
  have hall : machine.Guarded Sufficient machine.init all := guarded_map .manifests
    (hguard.append hls (guarded_crossing hbarred hold (htwo _ hold) (popularity_bounded hm)))
  have hmem : ∀ l ∈ crossing evicted.key (filler 0).key, (Tracked.manifests, l) ∈ all := fun l hl =>
    List.mem_map_of_mem (List.mem_append_right ls hl)
  refine ⟨all, _, evicted.key, hrun, hmem _ (by simp [crossing]), hmem _ (by simp [crossing]), ?_⟩
  refine (bounded_at_rest all _ hrun hall).1 .manifests ?_
  rw [Function.update_self]
  exact fun _ => rfl

def overlapping (key : Text) : List Label :=
  [.count 0 key, .count 1 key, .check 0, .check 1, .collect 0 [], .collect 1 []]

/-- When the map is full of images requested twice, two overlapping requests of another leave it over its capacity. -/
theorem run_overlapping {m : Counts} {key : Text} (hkey : key ∉ m.keys) (hover : (m.touch key).Over)
    (htwo : ∀ k ∈ m.keys, m.count k = 2) :
    Tracker.machine.run { Tracker.init with counts := m } (overlapping key) =
      some { Tracker.init with counts := (m.touch key).touch key } := by
  have hmem : key ∈ (m.touch key).keys := Finset.mem_insert_self ..
  have hover' : ((m.touch key).touch key).Over := by
    rw [Over, touch_of_mem hmem]
    exact hover
  have hrare : ((m.touch key).touch key).rare = ∅ := by
    refine Finset.eq_empty_of_forall_notMem fun k hk => ?_
    obtain ⟨hk, hle⟩ := mem_rare.mp hk
    by_cases hk' : k = key
    · subst hk'
      rw [count_touch_of_mem hmem, count_touch_of_notMem hkey] at hle
      exact absurd hle (by decide)
    · rw [count_touch_of_ne hk', count_touch_of_ne hk'] at hle
      rw [keys_touch, keys_touch, Finset.mem_insert, Finset.mem_insert] at hk
      have := htwo k ((hk.resolve_left hk').resolve_left hk')
      omega
  have hcollects : ((m.touch key).touch key).Collects [] := by
    refine ⟨List.nodup_nil, Finset.empty_subset _, ?_⟩
    rw [hrare]
    rfl
  refine (Machine.run_cons_some _ (step_count rfl) _).trans ?_
  refine (Machine.run_cons_some _ (step_count rfl) _).trans ?_
  refine (Machine.run_cons_some _ (step_check rfl hover') _).trans ?_
  refine (Machine.run_cons_some _ (step_check rfl hover') _).trans ?_
  refine (Machine.run_cons_some _ (step_collect (s := ⟨_, _⟩) rfl hcollects) _).trans ?_
  refine (Machine.run_cons_some _ (step_collect (s := ⟨_, _⟩) rfl hcollects) _).trans ?_
  exact congrArg (fun f => some (State.mk _ f)) (progress_init rfl rfl fun _ => rfl)

theorem rests_over : ¬ ∀ (ls : List (Tracked × Label)) (s : Tracked → State),
    machine.run machine.init ls = some s → (∀ k, AtRest (s k)) → ∀ k, (s k).counts.keys.card ≤ maxTrackedImages := by
  intro h
  obtain ⟨m, hm, -, htwo, hnew, hover, -⟩ := exists_full
  obtain ⟨ls, hls, -⟩ := run_history hm
  have hrun := run_map (s := machine.init) .manifests (t := _) (by
    rw [Machine.run_append, show machine.init .manifests = Tracker.init from rfl, hls, Option.bind_some]
    exact run_overlapping hnew hover htwo)
  have hle := h _ _ hrun (fun k => ?_) .manifests
  · rw [Function.update_self] at hle
    have hmem : evicted.key ∈ (m.touch evicted.key).keys := Finset.mem_insert_self ..
    rw [touch_of_mem hmem] at hle
    exact absurd hover (Nat.not_lt.mpr hle)
  · cases k <;> exact fun _ => rfl

end Tracked
end HarborRouter
