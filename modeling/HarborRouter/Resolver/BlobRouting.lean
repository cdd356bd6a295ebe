import HarborRouter.Lib.Maps
import HarborRouter.Resolver.Provenance
import Mathlib.Data.Set.Finite.Basic

/-!
# Which project blobs are routed to

`cached_project` reads the entries that `resolve_manifest` and the refreshes write, and treats every value as a
project: also the negative sentinel, which the other two readers of these entries recognise.

* `RoutesServed` : what `cached_project` returns answered 200 for the image before;
* `served_stored_iff` : a project that served the image is read back as one exactly when its name is `Routable`;
* `routes_served_iff_safe` : a schedule keeps to that exactly when no step of it writes a miss, or a name that is not;
* `sentinel_routed` : one miss is enough to route a blob to the project `__NEGATIVE__`.
-/

namespace HarborRouter.Manifest
open Lib Text

variable {cfg : Config}

/-- The image that a handler passes for a name without `:`. -/
def Ordinary (image : Text) : Prop := ∃ name, ':' ∉ name ∧ image = normalizeDockerLibraryImage name

/-- `p` is no sentinel, and has answered 200 for the image. -/
def Served (served : List (Text × Text)) (p image : Text) : Prop :=
  p ≠ negativeCacheSentinel ∧ (p, image) ∈ served

/-- `cached_project` returns only projects that served the image. -/
def RoutesServed (s : State cfg) : Prop :=
  ∀ image reference p, Ordinary image → cachedProject s.cache image reference = some p → Served s.served p image

/-- The name is legible and no sentinel, or happens to be misread as that of a project that served the image. -/
structure Routable (served : List (Text × Text)) (name : Text) (time : Option Nat) (image : Text) : Prop where
  legible : Legible name time → name ≠ negativeCacheSentinel
  misread : ¬ Legible name time → Served served (misread name time) image

/-- The step writes no miss, and only names that route. -/
def Safe (s : State cfg) : Label cfg → Prop
  | .store i now => ∀ c l, s.stage i = .storing c l →
      ∃ r, l.result = .ok r ∧ Routable s.served r.project (writeTime cfg now) c.image
  | .storeImage i => ∀ c l r, s.stage i = .storingImage c l → l.result = .ok r → r.project ≠ negativeCacheSentinel
  | .refreshStore j now => ∀ c l r, s.task j = .storing c l → l.result = .ok r →
      Routable s.served r.project (some now) c.image
  | .refreshStoreImage j => ∀ c l r, s.task j = .storingImage c l → l.result = .ok r →
      r.project ≠ negativeCacheSentinel
  | _ => True

theorem served_iff_of_mem {served : List (Text × Text)} {p image : Text} (h : (p, image) ∈ served) :
    Served served p image ↔ p ≠ negativeCacheSentinel := and_iff_left h

theorem Served.mono {served served' : List (Text × Text)} (h : served ⊆ served') {p image : Text}
    (hs : Served served p image) : Served served' p image := ⟨hs.1, h hs.2⟩

/-! ## Values -/

theorem served_stored_iff {served : List (Text × Text)} {name image : Text} (time : Option Nat)
    (hserved : (name, image) ∈ served) :
    Served served (decodeCacheValue (stored name time)).1 image ↔ Routable served name time image := by
  by_cases h : Legible name time
  · rw [decode_of_legible h]
    exact ⟨fun hs => ⟨fun _ => hs.1, fun hn => absurd h hn⟩, fun hr => ⟨hr.legible h, hserved⟩⟩
  · rw [decode_of_not_legible h]
    exact ⟨fun hs => ⟨fun hl => absurd hl h, fun _ => hs⟩, fun hr => hr.misread h⟩

/-! ## Keys of ordinary images -/

theorem Ordinary.slash {image : Text} (h : Ordinary image) : '/' ∈ image := by
  obtain ⟨name, -, rfl⟩ := h
  exact slash_mem_normalize name

theorem Ordinary.noColon {image : Text} (h : Ordinary image) : ':' ∉ image := by
  obtain ⟨name, hname, rfl⟩ := h
  exact fun hm => hname (mem_normalize hm (by decide))

theorem cacheKey_injective {a b x y : Text} (ha : Ordinary a) (hb : Ordinary b) (h : cacheKey a x = cacheKey b y) :
    a = b ∧ x = y := by
  rw [CacheLookup.cacheKey_eq, CacheLookup.cacheKey_eq] at h
  rcases Text.cut_eq_cut h with h | ⟨s, rfl, -⟩ | ⟨s, rfl, -⟩
  · exact h
  · exact absurd (by simp) ha.noColon
  · exact absurd (by simp) hb.noColon

theorem cacheKey_ne_imageKey {a b x : Text} (ha : Ordinary a) : cacheKey a x ≠ imageKey b := by
  intro h
  rw [CacheLookup.cacheKey_eq] at h
  obtain ⟨part, rfl, -⟩ := CacheLookup.manifest_meets CacheLookup.img_noSlash ha.slash h
  exact absurd (by simp) ha.noColon

/-! ## Sound caches -/

/-- Every entry of an ordinary image is read as a project that served it. -/
structure Sound (s : State cfg) : Prop where
  manifest : ∀ image reference entry, Ordinary image → s.cache (cacheKey image reference) = some entry →
    Served s.served (decodeCacheValue entry.value).1 image
  image : ∀ image entry, Ordinary image → s.cache (imageKey image) = some entry →
    Served s.served entry.value image

def Bounded (s : State cfg) : Prop := {key | s.cache key ≠ none}.Finite

theorem Bounded.update {s u : State cfg} (hs : Bounded s) {key : Text} {entry : Option Entry}
    (h : u.cache = Function.update s.cache key entry) : Bounded u := by
  refine (hs.insert key).subset fun k hk => ?_
  rw [Set.mem_ofPred_eq, h] at hk
  rcases (Function.pred_update (fun _ x => x ≠ none) ..).mp hk with ⟨hkey, -⟩ | ⟨-, hk⟩
  · exact .inl hkey
  · exact .inr hk

theorem Bounded.exists_uncached {s : State cfg} (hs : Bounded s) {image : Text} (himage : Ordinary image) :
    ∃ reference, s.cache (cacheKey image reference) = none := by
  by_contra hall
  rw [not_exists] at hall
  have hinj : Function.Injective fun n : Nat => cacheKey image (List.replicate n 'a') := fun n m h => by
    have := congrArg List.length (cacheKey_injective himage himage h).2
    simpa using this
  exact Set.infinite_of_injective_forall_mem hinj (fun n => hall (List.replicate n 'a')) hs

theorem routesServed_iff {s : State cfg} (hs : Bounded s) : RoutesServed s ↔ Sound s := by
  constructor
  · intro h
    refine ⟨fun image reference entry himage he => ?_, fun image entry himage he => ?_⟩
    · exact h image reference _ himage (by rw [cachedProject, he])
    · obtain ⟨reference, hnone⟩ := hs.exists_uncached himage
      exact h image reference _ himage (by rw [cachedProject, hnone, he]; rfl)
  · intro h image reference p himage hp
    unfold cachedProject at hp
    split at hp
    · cases hp
      exact h.manifest image reference _ himage ‹_›
    · obtain ⟨entry, he, rfl⟩ := Option.map_eq_some_iff.mp hp
      exact h.image image entry himage he

section Write
variable {s u : State cfg} (hs : Sound s)
include hs

theorem Sound.grow (hcache : u.cache = s.cache) (hserved : s.served ⊆ u.served) : Sound u := by
  refine ⟨fun image reference entry himage h => ?_, fun image entry himage h => ?_⟩ <;> rw [hcache] at h
  · exact (hs.manifest image reference entry himage h).mono hserved
  · exact (hs.image image entry himage h).mono hserved

theorem Sound.erase {key : Text} (hcache : u.cache = Function.update s.cache key none) (hserved : u.served = s.served) :
    Sound u := by
  have hsome : ∀ k entry, u.cache k = some entry → s.cache k = some entry := fun k entry h => by
    rw [hcache] at h
    exact of_erase_eq_some h
  refine ⟨fun image reference entry himage h => ?_, fun image entry himage h => ?_⟩ <;> rw [hserved]
  · exact hs.manifest image reference entry himage (hsome _ _ h)
  · exact hs.image image entry himage (hsome _ _ h)

/-- A write of a manifest entry keeps the cache sound exactly when its value is read back as a project that served
the image. -/
theorem Sound.write_iff {image reference : Text} {entry : Entry} (himage : Ordinary image)
    (hcache : u.cache = Function.update s.cache (cacheKey image reference) (some entry))
    (hserved : u.served = s.served) : Sound u ↔ Served s.served (decodeCacheValue entry.value).1 image := by
  constructor
  · intro h
    rw [← hserved]
    exact h.manifest image reference entry himage (by rw [hcache, Function.update_self])
  · intro h
    refine ⟨fun image' reference' entry' himage' he => ?_, fun image' entry' himage' he => ?_⟩ <;>
      rw [hcache] at he <;> rw [hserved]
    · rcases insert_eq_some_iff.mp he with ⟨hk, rfl⟩ | ⟨-, he⟩
      · obtain ⟨rfl, rfl⟩ := cacheKey_injective himage' himage hk
        exact h
      · exact hs.manifest image' reference' entry' himage' he
    · rw [Function.update_of_ne (cacheKey_ne_imageKey himage).symm] at he
      exact hs.image image' entry' himage' he

theorem Sound.writeImage_iff {image : Text} {entry : Entry} (himage : Ordinary image)
    (hcache : u.cache = Function.update s.cache (imageKey image) (some entry)) (hserved : u.served = s.served) :
    Sound u ↔ Served s.served entry.value image := by
  constructor
  · intro h
    rw [← hserved]
    exact h.image image entry himage (by rw [hcache, Function.update_self])
  · intro h
    refine ⟨fun image' reference' entry' himage' he => ?_, fun image' entry' himage' he => ?_⟩ <;>
      rw [hcache] at he <;> rw [hserved]
    · rw [Function.update_of_ne (cacheKey_ne_imageKey himage')] at he
      exact hs.manifest image' reference' entry' himage' he
    · rcases insert_eq_some_iff.mp he with ⟨hk, rfl⟩ | ⟨-, he⟩
      · obtain rfl : image' = image := List.append_cancel_left hk
        exact h
      · exact hs.image image' entry' himage' he

end Write

/-! ## Runs -/

theorem bounded_step {s t : State cfg} {l : Label cfg} (hs : Bounded s) (h : step s l = some t) : Bounded t := by
  rcases cache_step h with ⟨-, hc | ⟨key, hc⟩⟩ | ⟨key, value, ttl, -, hc⟩
  · rw [Bounded, hc]
    exact hs
  · exact hs.update hc
  · exact hs.update hc

section Winner
variable {s : State cfg} {c : Call} {l : Lookup cfg} {r : ResolveResult} (ht : Traced (fun c => Ordinary c.image) s)
include ht

/-- The winner of a lookup that a call of an ordinary image holds has served that image. -/
theorem Traced.winner_served {i : CallId} (hi : (s.stage i).Holds c l) (hc : Ordinary c.image)
    (hr : l.result = .ok r) : (r.project, c.image) ∈ s.served := by
  have hm := ht.holds i c l hi
  rw [← (cacheKey_injective hm.call hc hm.key).1]
  exact hm.winner r hr

theorem Traced.refresh_winner_served {j : TaskId} (hj : (s.task j).Holds c l) (hr : l.result = .ok r) :
    (r.project, c.image) ∈ s.served := by
  obtain ⟨rfl, hm⟩ := ht.taskHolds j c l hj
  exact hm.winner r hr

end Winner

section SafeWrite
variable {s : State cfg} {i : CallId} {j : TaskId} {c : Call} {l : Lookup cfg} {r : ResolveResult} {now : Nat}

theorem not_safe_store {e : Text} (hi : s.stage i = .storing c l) (hr : l.result = .error e) :
    ¬ Safe s (.store i now) := by
  intro h
  obtain ⟨r, hok, -⟩ := h c l hi
  rw [hr] at hok
  cases hok

theorem safe_store_iff (hi : s.stage i = .storing c l) (hr : l.result = .ok r) :
    Safe s (.store i now) ↔ Routable s.served r.project (writeTime cfg now) c.image := by
  constructor
  · intro h
    obtain ⟨r', hr', hroutable⟩ := h c l hi
    rw [hr] at hr'
    cases hr'
    exact hroutable
  · intro h c' l' hi'
    rw [hi] at hi'
    cases hi'
    exact ⟨r, hr, h⟩

theorem safe_storeImage_iff (hi : s.stage i = .storingImage c l) (hr : l.result = .ok r) :
    Safe s (.storeImage i) ↔ r.project ≠ negativeCacheSentinel := by
  refine ⟨fun h => h c l r hi hr, fun h c' l' r' hi' hr' => ?_⟩
  rw [hi] at hi'
  cases hi'
  rw [hr] at hr'
  cases hr'
  exact h

theorem safe_refreshStore_iff (hj : s.task j = .storing c l) (hr : l.result = .ok r) :
    Safe s (.refreshStore j now) ↔ Routable s.served r.project (some now) c.image := by
  refine ⟨fun h => h c l r hj hr, fun h c' l' r' hj' hr' => ?_⟩
  rw [hj] at hj'
  cases hj'
  rw [hr] at hr'
  cases hr'
  exact h

theorem safe_refreshStoreImage_iff (hj : s.task j = .storingImage c l) (hr : l.result = .ok r) :
    Safe s (.refreshStoreImage j) ↔ r.project ≠ negativeCacheSentinel := by
  refine ⟨fun h => h c l r hj hr, fun h c' l' r' hj' hr' => ?_⟩
  rw [hj] at hj'
  cases hj'
  rw [hr] at hr'
  cases hr'
  exact h

end SafeWrite

theorem sound_step_iff {s t : State cfg} {l : Label cfg} (ht : Traced (fun c => Ordinary c.image) s) (hs : Sound s)
    (h : step s l = some t) : Sound t ↔ Safe s l := by
  obtain ⟨u, hu, rfl⟩ := step_cases h
  suffices h' : Sound u ↔ Safe s l from
    ⟨fun hv => h'.mp ⟨hv.manifest, hv.image⟩, fun hv => ⟨(h'.mpr hv).manifest, (h'.mpr hv).image⟩⟩
  cases hu with
  | store i now c l st hi hst =>
      have hc : Ordinary c.image := ht.call i c (by rw [hi]; rfl)
      refine Iff.trans (hs.write_iff hc (by exact rfl) (by exact rfl)) ?_
      cases hr : l.result with
      | error e => exact iff_of_false (fun hv => absurd rfl hv.1) (not_safe_store hi hr)
      | ok r =>
          have hmem := ht.winner_served (by rw [hi]; exact ⟨rfl, rfl⟩) hc hr
          rw [value_entryOf, safe_store_iff hi hr]
          exact served_stored_iff _ hmem
  | storeImage i c l r hi hr =>
      have hc : Ordinary c.image := ht.call i c (by rw [hi]; rfl)
      have hmem := ht.winner_served (by rw [hi]; exact ⟨rfl, rfl⟩) hc hr
      rw [safe_storeImage_iff hi hr]
      exact (hs.writeImage_iff hc (by exact rfl) (by exact rfl)).trans (served_iff_of_mem hmem)
  | refreshStore j now c l r hj hr =>
      have hc : Ordinary c.image := ht.task j c (by rw [hj]; rfl)
      have hmem := ht.refresh_winner_served (by rw [hj]; exact ⟨rfl, rfl⟩) hr
      rw [safe_refreshStore_iff hj hr]
      exact (hs.write_iff hc (by exact rfl) (by exact rfl)).trans (served_stored_iff (some now) hmem)
  | refreshStoreImage j c l r hj hr =>
      have hc : Ordinary c.image := ht.task j c (by rw [hj]; rfl)
      have hmem := ht.refresh_winner_served (by rw [hj]; exact ⟨rfl, rfl⟩) hr
      rw [safe_refreshStoreImage_iff hj hr]
      exact (hs.writeImage_iff hc (by exact rfl) (by exact rfl)).trans (served_iff_of_mem hmem)
  | evict i c observed hi => exact iff_of_true (hs.erase rfl rfl) trivial
  | expire key => exact iff_of_true (hs.erase rfl rfl) trivial
  | served i reply c project stale r hi hr h200 t ht =>
      subst ht
      cases stale <;> exact iff_of_true (hs.grow rfl (List.subset_append_left ..)) trivial
  | looked | refreshed => exact iff_of_true (hs.grow rfl (List.subset_append_left ..)) trivial
  | _ => exact iff_of_true (hs.grow rfl (List.Subset.refl _)) trivial

/-- In every schedule whose calls are for images without `:`, blobs are routed to projects that served the image
exactly as long as no miss is written, and no name that is read back as another. -/
theorem routes_served_iff_safe (ls : List (Label cfg)) (hcalls : ∀ l ∈ ls, Admits (fun c => Ordinary c.image) l) :
    (machine cfg).Always RoutesServed init ls ↔ (machine cfg).Guarded Safe init ls := by
  let I : State cfg → Prop := fun s => Staged s ∧ Traced (fun c => Ordinary c.image) s ∧ Bounded s
  have hI : ∀ (s : State cfg) l t, Admits (fun c => Ordinary c.image) l → I s → step s l = some t → I t :=
    fun s l t hl hs h => ⟨staged_step hs.1 h, traced_step hl hs.1 hs.2.1 h, bounded_step hs.2.2 h⟩
  have hempty : Bounded (init : State cfg) := by
    have : {key | (init : State cfg).cache key ≠ none} = ∅ := by
      ext key
      simp [init]
    rw [Bounded, this]
    exact Set.finite_empty
  refine Machine.always_iff_guarded_on (I := I) hI (fun s l t hl hs hP h => ?_) hcalls
    ⟨staged_init, traced_init, hempty⟩ ((routesServed_iff hempty).mpr ⟨nofun, nofun⟩)
  rw [routesServed_iff (hI s l t hl hs h).2.2]
  exact sound_step_iff hs.2.1 ((routesServed_iff hs.2.2).mp hP) h

theorem routes_served_iff_safe_nginx :
    ∃ (ls : List (Label .default)) (s : State .default), (machine .default).Always RoutesServed init ls ∧
      (machine .default).run init ls = some s ∧ s.cache "library/nginx:1.27".toList = some ⟨"a|7".toList, some 360000⟩ ∧
        cachedProject s.cache "library/nginx".toList "1.27".toList = some "a".toList := by
  let ls : List (Label .default) := [.call 0 ⟨"library/nginx".toList, "1.27".toList, []⟩, .get 0 0, .enter 0,
    .looked 0 (oneProject 200), .fly 0 .send, .fly 0 .remove, .land 0, .store 0 7, .storeImage 0]
  let s := ((machine .default).run init ls).get rfl
  have hcalls : ∀ l ∈ ls, Admits (fun c => Ordinary c.image) l := fun l hl i c hc => by
    subst hc
    simp only [ls, List.mem_cons, List.not_mem_nil, or_false, Label.call.injEq, reduceCtorEq] at hl
    rw [hl.2]
    exact ⟨"nginx".toList, by decide, rfl⟩
  refine ⟨ls, s, (routes_served_iff_safe ls hcalls).mpr ?_, rfl, by decide +kernel, by decide +kernel⟩
  iterate 7 refine (Machine.guarded_cons rfl).mpr ⟨trivial, ?_⟩
  refine (Machine.guarded_cons rfl).mpr ⟨fun c l hi => ?_, ?_⟩
  on_goal 2 => refine (Machine.guarded_cons rfl).mpr ⟨fun c l r hi hr => ?_, trivial⟩
  · cases hi
    exact ⟨⟨"a".toList, 200, [], []⟩, rfl, fun _ => by decide, fun h => absurd ⟨by decide, by decide⟩ h⟩
  · cases hi
    cases hr
    decide

/-- One request for a missing tag, and `cached_project` routes its blobs to the project `__NEGATIVE__`. -/
theorem sentinel_routed : ∃ (ls : List (Label .default)) (s : State .default),
    (∀ l ∈ ls, Admits (fun c => Ordinary c.image) l) ∧ (machine .default).run init ls = some s ∧
      cachedProject s.cache "library/nginx".toList "none".toList = some negativeCacheSentinel ∧ ¬ RoutesServed s := by
  let c : Call := ⟨"library/nginx".toList, "none".toList, []⟩
  let ls : List (Label .default) := [.call 0 c, .get 0 0, .enter 0, .looked 0 (oneProject 404), .fly 0 .send,
    .fly 0 .remove, .land 0, .store 0 0]
  let s := ((machine .default).run init ls).get rfl
  have hordinary : Ordinary c.image := ⟨"nginx".toList, by decide, rfl⟩
  have hrouted : cachedProject s.cache "library/nginx".toList "none".toList = some negativeCacheSentinel := rfl
  refine ⟨ls, s, fun l hl i c' hc' => ?_, rfl, hrouted, fun h => ?_⟩
  · subst hc'
    simp only [ls, List.mem_cons, List.not_mem_nil, or_false, Label.call.injEq, reduceCtorEq] at hl
    rw [hl.2]
    exact hordinary
  · exact (h _ _ _ hordinary hrouted).1 rfl

end HarborRouter.Manifest
