import HarborRouter.Metrics.Popularity

/-!
# The most popular images

Manifest requests recorded one after another, and the keys listed at the end. An eviction may remove the very key that
was just recorded; at capacity, with every other key requested twice, it removes no other.

* `mem_topImages_iff` : which keys are listed, by the counters;
* `tally_block` : what a block of requests of one key leaves in its counter;
* `mem_topManifestImages_iff` : which keys a block of requests gets listed;
* `counts_of_few` : while no more keys than the capacity are requested, every request is counted.
-/

namespace HarborRouter
open Lib Text

/-- A recorded manifest request, and what it collects if it evicts. -/
structure ManifestRequest where
  image : Text
  reference : Text
  collected : List Text
  deriving DecidableEq

def ManifestRequest.key (r : ManifestRequest) : Text := cacheKey r.image r.reference

/-- The request is one that the handler of manifests records. -/
def ManifestRequest.Handled (r : ManifestRequest) : Prop :=
  ∃ path image, parsePath path = .ok (image, .manifests, r.reference) ∧ r.image = normalizeDockerLibraryImage image

theorem ManifestRequest.Handled.slash {r : ManifestRequest} (h : r.Handled) : '/' ∈ r.image := by
  obtain ⟨path, image, -, himage⟩ := h
  rw [himage]
  exact slash_mem_normalize image

def popularity : Machine Counts ManifestRequest :=
  ⟨.empty, fun m r => m.recordManifestRequest r.image r.reference r.collected⟩

namespace Counts
variable {m m' : Counts} {key k j : Text} {ks order : List Text} {n : Nat}

/-! ## The listed keys -/

/-- `j` is listed before `key`, counted `value` times: it has more requests, or as many and is met first. -/
def Leads (m : Counts) (order : List Text) (key : Text) (value : Nat) (j : Text) : Prop :=
  j ≠ key ∧ (value < m.count j ∨ m.count j = value ∧ [j, key].Sublist order)

instance (m : Counts) (order : List Text) (key : Text) (value : Nat) (j : Text) :
    Decidable (m.Leads order key value j) := inferInstanceAs (Decidable (_ ∧ (_ ∨ _ ∧ _)))

def ahead (m : Counts) (order : List Text) (key : Text) (value : Nat) : Finset Text :=
  m.keys.filter fun j => m.Leads order key value j

theorem keys_topImages (m : Counts) (order : List Text) (n : Nat) : (m.topImages order n).map Prod.fst =
    ((order.filter fun k => minRequestsForTopN ≤ m.count k).insertionSort fun a b => m.count b ≤ m.count a).take n := by
  have hsort := List.map_insertionSort (fun a b => m.count b ≤ m.count a) (fun a b : Text × Nat => b.2 ≤ a.2)
    (fun k => (k, m.count k)) (order.filter fun k => minRequestsForTopN ≤ m.count k) fun _ _ _ _ => Iff.rfl
  rw [topImages, ← hsort, List.map_take, List.map_map]
  simp [Function.comp_def]

theorem nodup_topImages (horder : m.IsOrder order) (n : Nat) : ((m.topImages order n).map Prod.fst).Nodup := by
  rw [keys_topImages]
  exact ((List.perm_insertionSort _ _).nodup_iff.mpr (horder.1.filter _)).sublist (List.take_sublist ..)

/-- The listed keys are those requested often enough, with fewer than `n` listed before them. -/
theorem mem_topImages_iff (horder : m.IsOrder order) : key ∈ (m.topImages order n).map Prod.fst ↔
    (key ∈ m.keys ∧ minRequestsForTopN ≤ m.count key) ∧ (m.ahead order key (m.count key)).card < n := by
  obtain ⟨hnodup, hkeys⟩ := horder
  have hmem : ∀ j, j ∈ order ↔ j ∈ m.keys := fun j => by rw [← hkeys, List.mem_toFinset]
  have hfiltered : ∀ j, j ∈ order.filter (fun k => minRequestsForTopN ≤ m.count k) ↔
      j ∈ m.keys ∧ minRequestsForTopN ≤ m.count j := fun j => by
    rw [List.mem_filter, hmem, decide_eq_true_eq]
  have htotal : Std.Total fun a b : Text => m.count b ≤ m.count a := ⟨fun a b => Nat.le_total ..⟩
  have htrans : IsTrans Text fun a b => m.count b ≤ m.count a := ⟨fun a b c hab hbc => Nat.le_trans hbc hab⟩
  rw [keys_topImages]
  by_cases hkey : key ∈ order.filter fun k => minRequestsForTopN ≤ m.count k
  · rw [mem_take_insertionSort_iff (hnodup.filter _) hkey, ← hfiltered, and_iff_right hkey]
    have hset : ((order.filter fun k => minRequestsForTopN ≤ m.count k).filter fun j =>
        Ahead (fun a b => m.count b ≤ m.count a)
          (order.filter fun k => minRequestsForTopN ≤ m.count k) j key).toFinset =
        m.ahead order key (m.count key) := by
      ext j
      rw [ahead, List.mem_toFinset, List.mem_filter, hfiltered, Finset.mem_filter, decide_eq_true_eq]
      have hoften := ((hfiltered key).mp hkey).2
      constructor
      · rintro ⟨⟨hj, -⟩, hne, hle, hstrict | hfirst⟩
        · exact ⟨hj, hne, .inl (Nat.lt_of_not_le hstrict)⟩
        · rcases Nat.lt_or_eq_of_le hle with hlt | heq
          · exact ⟨hj, hne, .inl hlt⟩
          · exact ⟨hj, hne, .inr ⟨heq.symm, hfirst.trans List.filter_sublist⟩⟩
      · rintro ⟨hj, hne, hlt | ⟨heq, hfirst⟩⟩
        · exact ⟨⟨hj, hoften.trans hlt.le⟩, hne, hlt.le, .inl (Nat.not_le.mpr hlt)⟩
        · refine ⟨⟨hj, heq ▸ hoften⟩, hne, heq.ge, .inr ?_⟩
          have := hfirst.filter fun k => decide (minRequestsForTopN ≤ m.count k)
          simpa [heq, hoften] using this
    rw [← hset, List.toFinset_card_of_nodup ((hnodup.filter _).filter _)]
  · refine iff_of_false (fun h => hkey ?_) fun h => hkey ((hfiltered key).mpr h.1)
    exact (List.mem_insertionSort _).mp (List.mem_of_mem_take h)

/-! ## A block of requests of one key -/

/-- The map is full of keys requested twice, and the key is not among them. -/
def Barred (m : Counts) (key : Text) : Prop :=
  key ∉ m.keys ∧ (m.touch key).Over ∧ ∀ k ∈ m.keys, 1 < m.count k

instance (m : Counts) (key : Text) : Decidable (m.Barred key) := inferInstanceAs (Decidable (_ ∧ _ ∧ _))

def tally (m : Counts) (key : Text) : Nat := if key ∈ m.keys then m.count key else 0

/-- What `n` requests of the key in a row leave in its counter, where the first of them collects `first`. -/
def kept (m : Counts) (key : Text) (first : List Text) (n : Nat) : Nat :=
  if key ∈ m.keys then (m.count key + n) % UInt64.size
  else if m.Barred key then 0
  else if key ∈ first then (n - 1) % UInt64.size
  else n % UInt64.size

def Small (m : Counts) : Prop := ∀ k, m.count k < UInt64.size

theorem record_small (hm : m.Small) (h : m.record key ks = some m') : m'.Small := by
  have htouch : (m.touch key).Small := by
    intro k
    by_cases hk : k = key
    · subst hk
      by_cases hmem : k ∈ m.keys
      · rw [count_touch_of_mem hmem]
        exact Nat.mod_lt _ (by decide)
      · rw [count_touch_of_notMem hmem]
        decide
    · rw [count_touch_of_ne hk]
      exact hm k
  obtain ⟨-, -, rfl⟩ | ⟨-, -, rfl⟩ := record_cases h
  · exact htouch
  · intro k
    rw [count_removeAll]
    exact htouch k

/-- Requests of one key leave the counters of the others alone, and evict none requested twice. -/
structure Spares (m m' : Counts) (key : Text) : Prop where
  count : ∀ j, j ≠ key → m'.count j = m.count j
  subset : ∀ j, j ≠ key → j ∈ m'.keys → j ∈ m.keys
  stays : ∀ j, j ≠ key → j ∈ m.keys → 1 < m.count j → j ∈ m'.keys

theorem record_spares (h : m.record key ks = some m') : Spares m m' key := by
  obtain ⟨-, -, rfl⟩ | ⟨-, hcollects, rfl⟩ := record_cases h
  · exact ⟨fun j hj => count_touch_of_ne hj, fun j hj hmem => (Finset.mem_insert.mp hmem).resolve_left hj,
      fun j _ hmem _ => Finset.mem_insert_of_mem hmem⟩
  · refine ⟨fun j hj => ?_, fun j hj hmem => ?_, fun j hj hmem hcount => ?_⟩
    · rw [count_removeAll, count_touch_of_ne hj]
    · rw [keys_removeAll, Finset.mem_sdiff] at hmem
      exact (Finset.mem_insert.mp hmem.1).resolve_left hj
    · rw [keys_removeAll, Finset.mem_sdiff, List.mem_toFinset]
      refine ⟨Finset.mem_insert_of_mem hmem, fun hk => ?_⟩
      have hle := (hcollects.subset hk).2
      rw [count_touch_of_ne hj] at hle
      omega

theorem Spares.trans {m'' : Counts} (h : Spares m m' key) (h' : Spares m' m'' key) : Spares m m'' key where
  count j hj := (h'.count j hj).trans (h.count j hj)
  subset j hj hmem := h.subset j hj (h'.subset j hj hmem)
  stays j hj hmem hcount := h'.stays j hj (h.stays j hj hmem hcount) (by rw [h.count j hj]; exact hcount)

theorem record_tracked (hm : ¬ m.Over) (hkey : key ∈ m.keys) (h : m.record key ks = some m') :
    key ∈ m'.keys ∧ m'.count key = (m.count key + 1) % UInt64.size := by
  obtain ⟨-, -, rfl⟩ | ⟨hover, -, -⟩ := record_cases h
  · exact ⟨Finset.mem_insert_self .., count_touch_of_mem hkey⟩
  · rw [Over, touch_of_mem hkey] at hover
    exact absurd hover hm

theorem record_barred (hm : m.Barred key) (h : m.record key ks = some m') : m'.Barred key := by
  obtain ⟨hnew, hover, htwice⟩ := hm
  obtain ⟨hno, -, -⟩ | ⟨-, hcollects, rfl⟩ := record_cases h
  · exact absurd hover hno
  · have hall : ∀ k ∈ ks, k = key := by
      intro k hk
      by_contra hne
      obtain ⟨hmem, hle⟩ := hcollects.subset hk
      have hlt := htwice k ((Finset.mem_insert.mp hmem).resolve_left hne)
      rw [count_touch_of_ne hne] at hle
      omega
    have hset : ks.toFinset = {key} := by
      obtain ⟨k, hk⟩ := List.exists_mem_of_ne_nil _ (hcollects.ne_nil hnew)
      have hkey : key ∈ ks := hall k hk ▸ hk
      refine Finset.eq_singleton_iff_unique_mem.mpr ⟨List.mem_toFinset.mpr hkey, fun j hj => ?_⟩
      exact hall j (List.mem_toFinset.mp hj)
    have hkeys : ((m.touch key).removeAll ks).keys = m.keys := by
      rw [keys_removeAll, hset, keys_touch, Finset.sdiff_singleton_eq_erase, Finset.erase_insert hnew]
    refine ⟨hkeys ▸ hnew, ?_, fun k hk => ?_⟩
    · unfold Over
      rw [keys_touch, hkeys]
      exact hover
    · rw [hkeys] at hk
      have hne : k ≠ key := fun he => hnew (he ▸ hk)
      rw [count_removeAll, count_touch_of_ne hne]
      exact htwice k hk

/-- What becomes of a key that is not tracked and not barred: it is tracked, or it is evicted with others and leaves
room. -/
theorem record_new (hm : ¬ m.Over) (hnew : key ∉ m.keys) (hbarred : ¬ m.Barred key)
    (h : m.record key ks = some m') : ¬ m'.Over ∧ (key ∉ ks → key ∈ m'.keys ∧ m'.count key = 1) ∧
      (key ∈ ks → key ∉ m'.keys ∧ ¬ (m'.touch key).Over) := by
  refine ⟨record_bounded hm h, ?_⟩
  obtain ⟨-, rfl, rfl⟩ | ⟨hover, hcollects, rfl⟩ := record_cases h
  · exact ⟨fun _ => ⟨Finset.mem_insert_self .., count_touch_of_notMem hnew⟩, fun hk => absurd hk List.not_mem_nil⟩
  · refine ⟨fun hk => ?_, fun hk => ?_⟩
    · rw [keys_removeAll, count_removeAll, Finset.mem_sdiff, List.mem_toFinset]
      exact ⟨⟨Finset.mem_insert_self .., hk⟩, count_touch_of_notMem hnew⟩
    · refine ⟨fun hmem => ?_, ?_⟩
      · rw [keys_removeAll, Finset.mem_sdiff, List.mem_toFinset] at hmem
        exact hmem.2 hk
      · -- another entry is rare, and an eviction that leaves one of two rare entries would collect it too
        obtain ⟨other, hother, hrare⟩ : ∃ k ∈ m.keys, m.count k ≤ 1 := by
          by_contra hno
          exact hbarred ⟨hnew, hover, fun k hk => Nat.lt_of_not_le fun hle => hno ⟨k, hk, hle⟩⟩
        have hne : key ≠ other := fun he => hnew (he ▸ hother)
        have hpair : ({key, other} : Finset Text) ⊆ (m.touch key).rare := by
          intro k hk
          rcases Finset.mem_insert.mp hk with rfl | hk
          · exact mem_rare.mpr ⟨Finset.mem_insert_self .., (count_touch_of_notMem hnew).le⟩
          · rw [Finset.mem_singleton.mp hk]
            refine mem_rare.mpr ⟨Finset.mem_insert_of_mem hother, ?_⟩
            rw [count_touch_of_ne hne.symm]
            exact hrare
        have htwo := Finset.card_le_card hpair
        rw [Finset.card_pair hne] at htwo
        have hlength := hcollects.2.2
        have hten : 2 ≤ maxTrackedImages / 10 := by decide
        have hcard : (m.touch key).keys.card ≤ m.keys.card + 1 := card_touch_le
        have hcard' : (((m.touch key).removeAll ks).touch key).keys.card ≤ ((m.touch key).removeAll ks).keys.card + 1 :=
          card_touch_le
        rw [hcollects.card_removeAll] at hcard'
        unfold Over at hm ⊢
        omega

end Counts

open Counts
variable {m m' before after : Counts} {key : Text} {rs block : List ManifestRequest} {order : List Text} {n : Nat}

theorem popularity_bounded (h : popularity.run .empty rs = some m) : ¬ m.Over :=
  Machine.run_rule (M := popularity) (I := fun m => ¬ m.Over) (fun _ _ _ hm h => record_bounded hm h) (by decide) h

theorem popularity_small (h : popularity.run .empty rs = some m) : m.Small :=
  Machine.run_rule (M := popularity) (I := Small) (fun _ _ _ hm h => record_small hm h) (fun _ => Nat.two_pow_pos 64) h

/-- Only requested keys are tracked. -/
theorem popularity_requested (h : popularity.run .empty rs = some m) : ∀ k ∈ m.keys, ∃ r ∈ rs, r.key = k := by
  induction rs using List.reverseRecOn generalizing m with
  | nil =>
      cases h
      exact fun k hk => absurd hk (Finset.notMem_empty k)
  | append_singleton rs r ih =>
      obtain ⟨u, hu, h⟩ := (Machine.run_concat _).mp h
      intro k hk
      by_cases hkr : k = r.key
      · exact ⟨r, List.mem_append_right _ List.mem_cons_self, hkr.symm⟩
      · obtain ⟨q, hq, hqk⟩ := ih hu k ((record_spares h).subset k hkr hk)
        exact ⟨q, List.mem_append_left _ hq, hqk⟩

theorem block_spares (hblock : ∀ r ∈ block, r.key = key) (h : popularity.run m block = some m') : Spares m m' key := by
  refine Machine.run_rule_on (M := popularity) (D := fun r => r.key = key) (I := fun m' => Spares m m' key) ?_ hblock
    ⟨fun _ _ => rfl, fun _ _ h => h, fun _ _ h _ => h⟩ h
  rintro s r t rfl hs ht
  exact hs.trans (record_spares ht)

theorem block_tracked (hm : ¬ m.Over) (hsmall : m.Small) (hkey : key ∈ m.keys) (hblock : ∀ r ∈ block, r.key = key)
    (h : popularity.run m block = some m') :
    key ∈ m'.keys ∧ m'.count key = (m.count key + block.length) % UInt64.size := by
  induction block generalizing m with
  | nil =>
      cases h
      exact ⟨hkey, (Nat.mod_eq_of_lt (hsmall key)).symm⟩
  | cons r block ih =>
      rw [Machine.run_cons, Option.bind_eq_some_iff] at h
      obtain ⟨u, hu, h⟩ := h
      obtain ⟨hr, hblock⟩ := List.forall_mem_cons.mp hblock
      have hu : m.record r.key r.collected = some u := hu
      rw [hr] at hu
      obtain ⟨hmem, hcount⟩ := record_tracked hm hkey hu
      obtain ⟨hmem', hcount'⟩ := ih (record_bounded hm hu) (record_small hsmall hu) hmem hblock h
      refine ⟨hmem', ?_⟩
      rw [hcount', hcount, Nat.mod_add_mod, List.length_cons, Nat.add_assoc, Nat.add_comm 1]

theorem block_barred (hm : m.Barred key) (hblock : ∀ r ∈ block, r.key = key)
    (h : popularity.run m block = some m') : m'.Barred key := by
  refine Machine.run_rule_on (M := popularity) (D := fun r => r.key = key) (I := fun m => m.Barred key) ?_ hblock hm h
  rintro s r t rfl hs ht
  exact record_barred hs ht

theorem tally_block (hm : ¬ m.Over) (hsmall : m.Small) {r : ManifestRequest} (hblock : ∀ q ∈ r :: block, q.key = key)
    (h : popularity.run m (r :: block) = some m') : m'.tally key = m.kept key r.collected (r :: block).length := by
  by_cases hkey : key ∈ m.keys
  · obtain ⟨hmem, hcount⟩ := block_tracked hm hsmall hkey hblock h
    rw [tally, kept, if_pos hmem, if_pos hkey, hcount]
  by_cases hbarred : m.Barred key
  · rw [tally, kept, if_neg hkey, if_pos hbarred, if_neg (block_barred hbarred hblock h).1]
  rw [Machine.run_cons, Option.bind_eq_some_iff] at h
  obtain ⟨u, hu, h⟩ := h
  obtain ⟨hr, hblock⟩ := List.forall_mem_cons.mp hblock
  have hu : m.record r.key r.collected = some u := hu
  rw [hr] at hu
  obtain ⟨hover, hspared, hevicted⟩ := record_new hm hkey hbarred hu
  have hsmall := record_small hsmall hu
  rw [kept, if_neg hkey, if_neg hbarred, List.length_cons]
  by_cases hr : key ∈ r.collected
  · obtain ⟨hnew, hroom⟩ := hevicted hr
    rw [if_pos hr, Nat.add_sub_cancel]
    cases block with
    | nil =>
        cases h
        rw [tally, if_neg hnew]
        rfl
    | cons q block =>
        -- now there is room: the key is tracked from here on
        rw [Machine.run_cons, Option.bind_eq_some_iff] at h
        obtain ⟨v, hv, h⟩ := h
        obtain ⟨hq, hblock⟩ := List.forall_mem_cons.mp hblock
        have hv : u.record q.key q.collected = some v := hv
        rw [hq] at hv
        obtain ⟨-, -, rfl⟩ | ⟨hno, -, -⟩ := record_cases hv
        · obtain ⟨hmem, hcount⟩ := block_tracked (record_bounded hover hv) (record_small hsmall hv)
            (Finset.mem_insert_self ..) hblock h
          rw [tally, if_pos hmem, hcount, count_touch_of_notMem hnew, List.length_cons, Nat.add_comm]
        · exact absurd hno hroom
  · obtain ⟨hmem, hone⟩ := hspared hr
    obtain ⟨hmem', hcount⟩ := block_tracked hover hsmall hmem hblock h
    rw [if_neg hr, tally, if_pos hmem', hcount, hone, Nat.add_comm]

/-- A key is listed after a block of its own requests exactly when it is left with a counter that is large enough, and
fewer than `n` keys that were tracked before have counters as large. -/
theorem mem_topManifestImages_iff (rs block : List ManifestRequest) (r : ManifestRequest) (before after : Counts)
    (key : Text) (order : List Text) (n : Nat) (hbefore : popularity.run .empty rs = some before)
    (hblock : ∀ q ∈ r :: block, q.key = key) (hafter : popularity.run before (r :: block) = some after)
    (horder : after.IsOrder order) : key ∈ (after.topManifestImages order n).map Prod.fst ↔
      minRequestsForTopN ≤ before.kept key r.collected (r :: block).length ∧
        (before.ahead order key (before.kept key r.collected (r :: block).length)).card < n := by
  have htally := tally_block (popularity_bounded hbefore) (popularity_small hbefore) hblock hafter
  have hspares := block_spares hblock hafter
  have hten : 1 < minRequestsForTopN := by decide
  rw [← htally, topManifestImages, mem_topImages_iff horder]
  by_cases hkey : key ∈ after.keys
  · rw [tally, if_pos hkey, and_iff_right hkey]
    refine and_congr_right fun hoften => ?_
    have hset : after.ahead order key (after.count key) = before.ahead order key (after.count key) := by
      ext j
      rw [ahead, ahead, Finset.mem_filter, Finset.mem_filter]
      constructor
      · rintro ⟨hj, hne, hlead⟩
        rw [hspares.count j hne] at hlead
        exact ⟨hspares.subset j hne hj, hne, hlead⟩
      · rintro ⟨hj, hne, hlead⟩
        have hmany : 1 < before.count j := by omega
        refine ⟨hspares.stays j hne hj hmany, hne, ?_⟩
        rw [hspares.count j hne]
        exact hlead
    rw [hset]
  · rw [tally, if_neg hkey]
    exact iff_of_false (fun h => hkey h.1.1) fun h => absurd h.1 (by decide)

/-- Twelve requests of one manifest, then ten of each of two tags. -/
def earlier : List ManifestRequest :=
  List.replicate 12 ⟨"library/redis".toList, "7".toList, []⟩ ++
    List.replicate 10 ⟨"library/nginx".toList, "1".toList, []⟩

def later : List ManifestRequest := List.replicate 10 ⟨"library/nginx".toList, "2".toList, []⟩

/-- The tags are as popular as each other; which of them is listed depends on the order of iteration. -/
theorem mem_topManifestImages_iff_ties : ∃ before after, popularity.run .empty earlier = some before ∧
    popularity.run before later = some after ∧
    "library/nginx:2".toList ∈ (after.topManifestImages
      ["library/nginx:2".toList, "library/nginx:1".toList, "library/redis:7".toList] 2).map Prod.fst ∧
    "library/nginx:2".toList ∉ (after.topManifestImages
      ["library/redis:7".toList, "library/nginx:1".toList, "library/nginx:2".toList] 2).map Prod.fst := by
  refine ⟨_, _, rfl, rfl, ?_, ?_⟩
  · rw [mem_topManifestImages_iff earlier later.tail ⟨"library/nginx".toList, "2".toList, []⟩ _ _
      "library/nginx:2".toList _ 2 rfl (by decide) rfl (by decide)]
    exact ⟨by decide, by decide⟩
  · rw [mem_topManifestImages_iff earlier later.tail ⟨"library/nginx".toList, "2".toList, []⟩ _ _
      "library/nginx:2".toList _ 2 rfl (by decide) rfl (by decide)]
    exact fun h => absurd h.2 (by decide)

/-! ## Histories without evictions -/

/-- While no more keys than the capacity are requested, every request is counted. -/
theorem counts_of_few (h : popularity.run .empty rs = some m)
    (hfew : (rs.map ManifestRequest.key).toFinset.card ≤ maxTrackedImages) (hlength : rs.length < UInt64.size) :
    m.keys = (rs.map ManifestRequest.key).toFinset ∧
      ∀ k ∈ m.keys, m.count k = (rs.map ManifestRequest.key).count k := by
  induction rs using List.reverseRecOn generalizing m with
  | nil =>
      cases h
      exact ⟨rfl, fun k hk => absurd hk (Finset.notMem_empty k)⟩
  | append_singleton rs r ih =>
      obtain ⟨u, hu, h⟩ := (Machine.run_concat _).mp h
      have hkeys : ((rs ++ [r]).map ManifestRequest.key).toFinset =
          insert r.key (rs.map ManifestRequest.key).toFinset := by
        rw [List.map_append, List.toFinset_append, Finset.union_comm]
        rfl
      rw [hkeys] at hfew ⊢
      rw [List.length_append, List.length_singleton] at hlength
      obtain ⟨hsame, hcount⟩ := ih hu ((Finset.card_le_card (Finset.subset_insert ..)).trans hfew) (by omega)
      have hroom : ¬ (u.touch r.key).Over := by
        rw [Over, keys_touch, hsame]
        exact Nat.not_lt.mpr hfew
      have h : u.record r.key r.collected = some m := h
      obtain ⟨-, -, rfl⟩ | ⟨hover, -, -⟩ := record_cases h
      · refine ⟨by rw [keys_touch, hsame], fun k hk => ?_⟩
        rw [List.map_append, List.count_append, List.map_singleton, List.count_singleton]
        by_cases hk' : k = r.key
        · subst hk'
          rw [beq_self_eq_true, if_pos rfl]
          by_cases hmem : r.key ∈ u.keys
          · have hle : (rs.map ManifestRequest.key).count r.key ≤ rs.length :=
              List.count_le_length.trans_eq (List.length_map _)
            rw [count_touch_of_mem hmem, hcount _ hmem]
            exact Nat.mod_eq_of_lt (by omega)
          · have hnone : r.key ∉ rs.map ManifestRequest.key := by
              rwa [← List.mem_toFinset, ← hsame]
            rw [count_touch_of_notMem hmem, List.count_eq_zero.mpr hnone]
        · rw [count_touch_of_ne hk', if_neg (by simpa using Ne.symm hk')]
          exact hcount k ((Finset.mem_insert.mp hk).resolve_left hk')
      · exact absurd hover hroom

/-! ## A key that is never listed -/

def filler (i : Nat) : ManifestRequest := ⟨"library/".toList ++ List.replicate (i + 1) 'a', "latest".toList, []⟩

def fill : Nat → List ManifestRequest
  | 0 => []
  | n + 1 => fill n ++ [filler n, filler n]

theorem length_filler : ∃ c, ∀ i, (filler i).key.length = i + c := by
  have hlength : ∀ (p q r : Text) (i : Nat), (p ++ List.replicate (i + 1) 'a' ++ q ++ r).length =
      i + (p.length + 1 + q.length + r.length) := by
    intro p q r i
    simp only [List.length_append, List.length_replicate]
    omega
  exact ⟨_, fun i => hlength _ _ _ i⟩

theorem filler_injective : Function.Injective fun i => (filler i).key := by
  intro i j h
  obtain ⟨c, hc⟩ := length_filler
  have hlength := congrArg List.length h
  dsimp only at hlength
  rw [hc, hc] at hlength
  omega

theorem card_fillers (n : Nat) : ((Finset.range n).image fun i => (filler i).key).card = n := by
  rw [Finset.card_image_of_injective _ filler_injective, Finset.card_range]

theorem record_of_room {m : Counts} {key : Text} (h : ¬ (m.touch key).Over) :
    m.record key [] = some (m.touch key) := by
  rw [record, maybeEvict, if_neg h, if_pos rfl]

theorem run_fill (hn : n ≤ maxTrackedImages) : ∃ m, popularity.run .empty (fill n) = some m ∧
    m.keys = (Finset.range n).image (fun i => (filler i).key) ∧ ∀ k ∈ m.keys, m.count k = 2 := by
  induction n with
  | zero => exact ⟨.empty, rfl, rfl, fun k hk => absurd hk (Finset.notMem_empty k)⟩
  | succ n ih =>
      obtain ⟨m, hm, hkeys, hcount⟩ := ih (Nat.le_of_succ_le hn)
      have hnew : (filler n).key ∉ m.keys := by
        rw [hkeys, Finset.mem_image]
        rintro ⟨i, hi, he⟩
        exact absurd (filler_injective he) (Finset.mem_range.mp hi).ne
      have hall : (m.touch (filler n).key).keys = (Finset.range (n + 1)).image (fun i => (filler i).key) := by
        rw [keys_touch, hkeys, Finset.range_add_one, Finset.image_insert]
      have hroom : ¬ (m.touch (filler n).key).Over := by
        rw [Over, hall, card_fillers]
        exact Nat.not_lt.mpr hn
      have hmem : (filler n).key ∈ (m.touch (filler n).key).keys := Finset.mem_insert_self ..
      have hroom' : ¬ ((m.touch (filler n).key).touch (filler n).key).Over := by
        rw [Over, touch_of_mem hmem]
        exact hroom
      refine ⟨_, ?_, (touch_of_mem hmem).trans hall, fun k hk => ?_⟩
      · rw [fill, Machine.run_append, hm, Option.bind_some]
        rw [Machine.run_cons_some _ (record_of_room hroom), Machine.run_cons_some _ (record_of_room hroom')]
        rfl
      · by_cases hk' : k = (filler n).key
        · subst hk'
          rw [count_touch_of_mem hmem, count_touch_of_notMem hnew]
          rfl
        · rw [count_touch_of_ne hk', count_touch_of_ne hk']
          rw [keys_touch, keys_touch, Finset.mem_insert, Finset.mem_insert] at hk
          exact hcount k ((hk.resolve_left hk').resolve_left hk')

/-- The request of a new image, which is evicted at once. -/
def evicted : ManifestRequest := ⟨"grafana/grafana".toList, "latest".toList, ["grafana/grafana:latest".toList]⟩

theorem evicted_ne_filler (i : Nat) : (filler i).key ≠ evicted.key := by
  intro h
  have hhead : some 'l' = some 'g' := congrArg List.head? h
  exact absurd hhead (by decide)

/-- A barred key is the only one that its own request could evict. -/
theorem rare_of_barred {m : Counts} {key : Text} (hm : m.Barred key) : (m.touch key).rare = {key} := by
  obtain ⟨hnew, -, htwice⟩ := hm
  ext k
  rw [mem_rare, Finset.mem_singleton, keys_touch, Finset.mem_insert]
  constructor
  · rintro ⟨hk, hle⟩
    by_contra hne
    rw [count_touch_of_ne hne] at hle
    have := htwice k (hk.resolve_left hne)
    omega
  · rintro rfl
    exact ⟨.inl rfl, (count_touch_of_notMem hnew).le⟩

theorem collects_of_rare {m : Counts} {key : Text} (h : m.rare = {key}) : m.Collects [key] := by
  refine ⟨List.nodup_singleton key, ?_, ?_⟩
  · rw [h]
    exact subset_rfl
  · rw [h]
    rfl

/-- A barred key can be recorded any number of times. -/
theorem run_barred (hm : m.Barred evicted.key) (n : Nat) :
    ∃ m', popularity.run m (List.replicate n evicted) = some m' ∧ m'.Barred evicted.key := by
  induction n generalizing m with
  | zero => exact ⟨m, rfl, hm⟩
  | succ n ih =>
      have hcollects : (m.touch evicted.key).Collects evicted.collected := collects_of_rare (rare_of_barred hm)
      have hstep : popularity.step m evicted = some ((m.touch evicted.key).removeAll evicted.collected) := by
        show m.record evicted.key evicted.collected = _
        rw [record, maybeEvict, if_pos hm.2.1, if_pos hcollects]
      obtain ⟨m', hm', hbarred'⟩ := ih (record_barred hm hstep)
      exact ⟨m', by rw [List.replicate_succ, Machine.run_cons_some _ hstep]; exact hm', hbarred'⟩

theorem exists_full : ∃ m, popularity.run .empty (fill maxTrackedImages) = some m ∧
    m.keys = (Finset.range maxTrackedImages).image (fun i => (filler i).key) ∧ (∀ k ∈ m.keys, m.count k = 2) ∧
      m.Barred evicted.key := by
  obtain ⟨m, hm, hkeys, htwo⟩ := run_fill (Nat.le_refl maxTrackedImages)
  have hnew : evicted.key ∉ m.keys := by
    rw [hkeys, Finset.mem_image]
    rintro ⟨i, -, he⟩
    exact evicted_ne_filler i he
  have hover : (m.touch evicted.key).Over := by
    rw [Over, keys_touch, Finset.card_insert_of_notMem hnew, hkeys, card_fillers]
    exact Nat.lt_succ_self _
  exact ⟨m, hm, hkeys, htwo, hnew, hover, fun k hk => by rw [htwo k hk]; decide⟩

theorem keys_fill (n : Nat) :
    ((fill n).map ManifestRequest.key).toFinset = (Finset.range n).image fun i => (filler i).key := by
  induction n with
  | zero => rfl
  | succ n ih =>
      rw [fill, List.map_append, List.toFinset_append, ih, Finset.range_add_one, Finset.image_insert, Finset.union_comm]
      simp

theorem length_fill (n : Nat) : (fill n).length = 2 * n := by
  induction n with
  | zero => rfl
  | succ n ih =>
      rw [fill, List.length_append, ih]
      rfl

/-- When every one of as many images as the map holds has been requested twice, a new image is requested ten times and
is not listed. -/
theorem popular_not_listed : ¬ ∀ (rs block : List ManifestRequest) (m : Counts) (key : Text) (order : List Text)
    (n : Nat), popularity.run .empty (rs ++ block) = some m → m.IsOrder order → 1 ≤ n → (∀ r ∈ block, r.key = key) →
      minRequestsForTopN ≤ block.length →
      (((rs ++ block).map ManifestRequest.key).toFinset.filter fun j => j ≠ key ∧
        ((rs ++ block).map ManifestRequest.key).count key ≤
          ((rs ++ block).map ManifestRequest.key).count j).card ≤ n - 1 →
      key ∈ (m.topManifestImages order n).map Prod.fst := by
  intro h
  obtain ⟨full, hfull, hkeys, htwo, hbarred⟩ := exists_full
  obtain ⟨m, hm, hgone, -⟩ := run_barred hbarred 10
  have hrun : popularity.run .empty (fill maxTrackedImages ++ List.replicate 10 evicted) = some m := by
    rw [Machine.run_append, hfull]
    exact hm
  have horder : m.IsOrder m.keys.toList := ⟨m.keys.nodup_toList, m.keys.toList_toFinset⟩
  refine hgone ((mem_topImages_iff horder).mp (h _ _ m evicted.key _ 1 hrun horder (Nat.le_refl 1)
    (fun r hr => congrArg ManifestRequest.key (List.eq_of_mem_replicate hr)) (by simp [minRequestsForTopN]) ?_)).1.1
  -- no other image is requested as often
  rw [Nat.sub_self, Nat.le_zero, Finset.card_eq_zero, Finset.filter_eq_empty_iff]
  rintro j hj ⟨hne, hle⟩
  have hblock : ∀ k, ((List.replicate 10 evicted).map ManifestRequest.key).count k =
      if evicted.key = k then 10 else 0 := by
    intro k
    rw [List.map_replicate, List.count_replicate]
    simp
  obtain ⟨hsame, hcount⟩ := counts_of_few hfull (by rw [keys_fill, card_fillers]) (by rw [length_fill]; decide)
  rw [List.map_append, List.count_append, List.count_append, hblock, hblock, if_pos rfl, if_neg hne.symm] at hle
  rw [List.map_append, List.toFinset_append, Finset.mem_union, ← hsame, List.map_replicate] at hj
  have hj : j ∈ full.keys := hj.resolve_right fun hj =>
    hne (List.eq_of_mem_replicate (List.mem_toFinset.mp hj))
  rw [← hcount j hj, htwo j hj] at hle
  omega

end HarborRouter
