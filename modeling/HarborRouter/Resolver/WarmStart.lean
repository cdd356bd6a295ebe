import HarborRouter.Metrics.TopImages
import HarborRouter.Resolver.Warmup

/-!
# What a warmed pod answers

A pod persists its hot entries, and another starts with nothing else in its cache. The image of a mapping is what
stands before the first `:` of its key, and the mappings of one image are written in the order of iteration.

* `warmed_image`, `warmed_colon` : what warming leaves under the key of an image;
* `warm_reproduces_iff` : when the warmed pod routes a request as the persisting one.
-/

namespace HarborRouter.Manifest
open Lib Text

variable {cfg : Config}

/-- The caches answer alike for the manifest and for the image. -/
def SameRouting (a b : Cache) (image reference : Text) : Prop :=
  cachedProject a image reference = cachedProject b image reference ∧
    (a (imageKey image)).map Entry.value = (b (imageKey image)).map Entry.value

/-- The cache of a pod that starts: nothing but the persisted entries. -/
def onlyWarmup (cache : Cache) : Cache := fun key => if key = warmupCacheKey then cache key else none

/-- The popularity state of a pod that has handled the requests, and an order of iteration. -/
structure Popular (rs : List ManifestRequest) where
  counts : Counts
  order : List Text
  handled : ∀ r ∈ rs, r.Handled
  run : popularity.run .empty rs = some counts
  isOrder : counts.IsOrder order

def Popular.mappings {rs : List ManifestRequest} (pod : Popular rs) (topN : Nat) (cache : Cache) : Mappings :=
  hotMappings cache (pod.counts.topManifestImages pod.order topN)

/-- What the persisting pod has cached is what warming writes, for a request whose project was persisted. -/
structure Reproducible (cfg : Config) (now : Nat) (mappings : Mappings) (cache : Cache) (image project : Text) :
    Prop where
  /-- The warmed value is read back. -/
  readBack : cfg.staleWhileRevalidate ≠ 0 → '|' ∉ project
  /-- The image entry holds the project of every mapping that is taken for one of the image. -/
  ofImage : ':' ∉ image → ∀ mapping ∈ mappings.entries, firstPart ':' mapping.1 = image →
    (cache (imageKey image)).map Entry.value = some mapping.2
  /-- No mapping is taken for one of an image with a `:`; its entry can only be the manifest entry of that key. -/
  colon : ':' ∈ image → ∀ value, (cache (imageKey image)).map Entry.value = some value ↔
    ∃ p, (imageKey image, p) ∈ mappings.entries ∧ value = (warmedEntry cfg now p).value

section Warm
variable {rs : List ManifestRequest} {mappings : Mappings} {cache : Cache} {now : Nat} {iteration : List (Text × Text)}
variable {image reference project : Text}

def Slashed (mappings : Mappings) : Prop :=
  ∀ mapping ∈ mappings.entries, isSafeProjectName mapping.2 = true ∧
    ∃ image reference, '/' ∈ image ∧ mapping.1 = cacheKey image reference

theorem Popular.slashed (pod : Popular rs) (topN : Nat) (cache : Cache) : Slashed (pod.mappings topN cache) := by
  intro mapping hm
  obtain ⟨htop, hhot⟩ := mem_hotMappings.mp hm
  obtain ⟨-, -, -, -, hsafe⟩ := hotEntry_eq_some.mp hhot
  obtain ⟨r, hr, hkey⟩ := popularity_requested pod.run _ ((Counts.mem_topImages_iff pod.isOrder).mp htop).1.1
  exact ⟨hsafe, r.image, r.reference, (pod.handled r hr).slash, hkey.symm⟩

theorem imageKey_ne_warmupCacheKey (image : Text) : imageKey image ≠ warmupCacheKey := by
  intro h
  have hhead : some 'i' = some 'w' := congrArg List.head? h
  exact absurd hhead (by decide)

/-- The entry of an image holds the project of one of the mappings that are taken for it, if there is one. -/
theorem warmed_image (hslashed : Slashed mappings) (hperm : iteration.Perm mappings.entries) (hcolon : ':' ∉ image)
    {mapping : Text × Text} (hm : mapping ∈ mappings.entries) (hfirst : firstPart ':' mapping.1 = image) :
    ∃ other ∈ mappings.entries, firstPart ':' other.1 = image ∧
      write cache (iteration.flatMap (warmWrites cfg now)) (imageKey image) = some ⟨other.2, none⟩ := by
  rcases foldl_update_cases cache (iteration.flatMap (warmWrites cfg now)) (imageKey image) with
    ⟨w, hw, hkey, hwrite⟩ | ⟨hnone, -⟩
  · obtain ⟨other, hother, rfl | rfl⟩ := mem_writes hw
    · obtain ⟨-, i, r, hslash, hi⟩ := hslashed other (hperm.mem_iff.mp hother)
      exact absurd (hi.symm.trans hkey) (cacheKey_ne_imageKey_of_noColon hslash hcolon)
    · exact ⟨other, hperm.mem_iff.mp hother, List.append_cancel_left hkey, hwrite⟩
  · refine absurd ?_ (hnone (imageKey (firstPart ':' mapping.1), some ⟨mapping.2, none⟩) ?_)
    · rw [hfirst]
    · exact List.mem_flatMap.mpr ⟨_, hperm.mem_iff.mpr hm, mem_warmWrites.mpr ⟨(hslashed _ hm).1, .inr rfl⟩⟩

/-- The mapping that is iterated last decides. -/
theorem warmed_image_last {mapping : Text × Text} (hsafe : isSafeProjectName mapping.2 = true) :
    write cache ((iteration ++ [mapping]).flatMap (warmWrites cfg now)) (imageKey (firstPart ':' mapping.1)) =
      some ⟨mapping.2, none⟩ := by
  have hlast : warmWrites cfg now mapping = [(mapping.1, some (warmedEntry cfg now mapping.2)),
      (imageKey (firstPart ':' mapping.1), some ⟨mapping.2, none⟩)] := if_pos hsafe
  rw [write, List.flatMap_append, List.flatMap_singleton, hlast, List.foldl_append]
  exact Function.update_self ..

/-- The entry of an image with a `:` is written for a mapping with its very key only. -/
theorem warmed_colon (hslashed : Slashed mappings) (hperm : iteration.Perm mappings.entries) (hcolon : ':' ∈ image)
    (hempty : cache (imageKey image) = none) (value : Text) :
    (write cache (iteration.flatMap (warmWrites cfg now)) (imageKey image)).map Entry.value = some value ↔
      ∃ p, (imageKey image, p) ∈ mappings.entries ∧ value = (warmedEntry cfg now p).value := by
  rcases foldl_update_cases cache (iteration.flatMap (warmWrites cfg now)) (imageKey image) with
    ⟨w, hw, hkey, hwrite⟩ | ⟨hnone, hwrite⟩
  · obtain ⟨⟨key, p⟩, hmapping, rfl | rfl⟩ := mem_writes hw
    · cases hkey
      have hmem := hperm.mem_iff.mp hmapping
      rw [write, hwrite, Option.map_some, Option.some.injEq]
      constructor
      · rintro rfl
        exact ⟨p, hmem, rfl⟩
      · rintro ⟨q, hq, rfl⟩
        rw [mappings.unique hq hmem]
    · have hfirst : firstPart ':' key = image := List.append_cancel_left hkey
      exact absurd hcolon (hfirst ▸ notMem_firstPart ':' key)
  · rw [write, hwrite, hempty]
    refine iff_of_false (by simp) ?_
    rintro ⟨p, hp, -⟩
    refine hnone (imageKey image, some (warmedEntry cfg now p)) ?_ rfl
    exact List.mem_flatMap.mpr ⟨_, hperm.mem_iff.mpr hp, mem_warmWrites.mpr ⟨(hslashed _ hp).1, .inl rfl⟩⟩

/-- The warmed manifest is read back as the project that was persisted. -/
theorem decode_warmedEntry_iff (htime : now < UInt64.size) {value : Text} :
    (decodeCacheValue (warmedEntry cfg now (decodeCacheValue value).1).value).1 = (decodeCacheValue value).1 ↔
      (cfg.staleWhileRevalidate ≠ 0 → '|' ∉ (decodeCacheValue value).1) := by
  rw [warmedEntry]
  by_cases hswr : cfg.staleWhileRevalidate = 0
  · rw [if_pos hswr]
    exact iff_of_true (decode_decode value) fun h => absurd hswr h
  · rw [if_neg hswr, decode_encode_iff htime]
    exact ⟨fun h _ => h, fun h => h hswr⟩

theorem onlyWarmup_imageKey (cache : Cache) (image : Text) : onlyWarmup cache (imageKey image) = none :=
  if_neg (imageKey_ne_warmupCacheKey image)

theorem warm_iff {json : Json Mappings} (hjson : json.Faithful HashMap.Same) {topN : Nat} {top : List (Text × Nat)}
    (htop : topN = 0 → top = []) (hsome : (hotMappings cache top).entries ≠ []) {warmed : Cache} :
    warmCacheFromRedis cfg json now iteration (onlyWarmup (persistHotEntries json topN top cache)) = some warmed ↔
      iteration.Perm (hotMappings cache top).entries ∧
        write (onlyWarmup (persistHotEntries json topN top cache)) (iteration.flatMap (warmWrites cfg now)) =
          warmed := by
  have hne : top ≠ [] := by
    rintro rfl
    exact hsome rfl
  obtain ⟨text, read, htext, hread, hsame⟩ := hjson (hotMappings cache top)
  have hpersist : persistHotEntries json topN top cache =
      Function.update cache warmupCacheKey (some ⟨text, some 3600000⟩) := by
    rw [persistHotEntries, if_neg fun h => hne (htop h), if_neg hne]
    dsimp only
    rw [if_neg hsome, htext]
  have hentry : onlyWarmup (persistHotEntries json topN top cache) warmupCacheKey = some ⟨text, some 3600000⟩ := by
    rw [onlyWarmup, if_pos rfl, hpersist, Function.update_self]
  rw [warmCacheFromRedis, hentry, Option.bind_some]
  dsimp only
  rw [hread]
  dsimp only
  constructor
  · intro h
    split at h
    · rename_i hperm
      exact ⟨hperm.trans hsame, Option.some.inj h⟩
    · cases h
  · rintro ⟨hperm, rfl⟩
    rw [if_pos (hperm.trans hsame.symm)]

/-- The warmed pod routes a persisted request alike in every order of iteration exactly when it is reproducible. -/
theorem sameRouting_write_iff (hslashed : Slashed mappings) (htime : now < UInt64.size) {start : Cache}
    (hstart : ∀ image, start (imageKey image) = none) (hslash : '/' ∈ image)
    (hm : (cacheKey image reference, project) ∈ mappings.entries)
    (hhot : hotEntry cache (cacheKey image reference) = some project) :
    (∀ iteration : List (Text × Text), iteration.Perm mappings.entries →
      SameRouting (write start (iteration.flatMap (warmWrites cfg now))) cache image reference) ↔
      Reproducible cfg now mappings cache image project := by
  obtain ⟨entry, hentry, rfl, -, -⟩ := hotEntry_eq_some.mp hhot
  have hcached : cachedProject cache image reference = some (decodeCacheValue entry.value).1 := by
    rw [cachedProject, hentry]
  have hwarmed : ∀ iteration : List (Text × Text), iteration.Perm mappings.entries →
      cachedProject (write start (iteration.flatMap (warmWrites cfg now))) image reference =
        some (decodeCacheValue (warmedEntry cfg now (decodeCacheValue entry.value).1).value).1 := by
    intro iteration hperm
    rw [cachedProject, warmed_manifest hperm hslash hm (hslashed _ hm).1]
  constructor
  · intro h
    refine ⟨?_, fun hcolon mapping hmapping hfirst => ?_, fun hcolon value => ?_⟩
    · have hsame := (h _ (List.Perm.refl _)).1
      rw [hwarmed _ (List.Perm.refl _), hcached, Option.some.injEq] at hsame
      exact (decode_warmedEntry_iff htime).mp hsame
    · -- iterated last, the mapping decides
      have hperm : (mappings.entries.erase mapping ++ [mapping]).Perm mappings.entries :=
        (List.perm_append_singleton ..).trans (List.perm_cons_erase hmapping).symm
      have hsame := (h _ hperm).2
      rw [← hfirst, warmed_image_last (hslashed _ hmapping).1, hfirst] at hsame
      exact hsame.symm
    · rw [← (h _ (List.Perm.refl _)).2]
      exact warmed_colon hslashed (List.Perm.refl _) hcolon (hstart image) value
  · rintro ⟨hread, hofImage, hcolon⟩ iteration hperm
    refine ⟨?_, ?_⟩
    · rw [hwarmed _ hperm, hcached, Option.some.injEq]
      exact (decode_warmedEntry_iff htime).mpr hread
    · by_cases himage : ':' ∈ image
      · refine Option.ext fun value => ?_
        rw [warmed_colon hslashed hperm himage (hstart image), hcolon himage]
      · have hfirst : firstPart ':' (cacheKey image reference) = image := by
          rw [CacheLookup.cacheKey_eq]
          exact firstPart_append himage
        obtain ⟨other, hother, hotherFirst, hwrite⟩ := warmed_image hslashed hperm himage hm hfirst
        rw [hwrite, hofImage himage other hother hotherFirst]
        rfl

/-- When warming reproduces the routing of the persisting pod, for every persisted request and in every order of
iteration. -/
theorem warm_reproduces_iff (cfg : Config) (json : Json Mappings) (topN now : Nat) (rs : List ManifestRequest)
    (pod : Popular rs) (cache : Cache) (hjson : json.Faithful HashMap.Same) (htime : now < UInt64.size) :
    (∀ iteration warmed, warmCacheFromRedis cfg json now iteration (onlyWarmup
        (persistHotEntries json topN (pod.counts.topManifestImages pod.order topN) cache)) = some warmed →
      ∀ r ∈ rs, ∀ project, (r.key, project) ∈ (pod.mappings topN cache).entries →
        SameRouting warmed cache r.image r.reference) ↔
      ∀ r ∈ rs, ∀ project, (r.key, project) ∈ (pod.mappings topN cache).entries →
        Reproducible cfg now (pod.mappings topN cache) cache r.image project := by
  have htop : topN = 0 → pod.counts.topManifestImages pod.order topN = [] := by
    rintro rfl
    rw [Counts.topManifestImages, Counts.topImages, List.take_zero]
  have hslashed := pod.slashed topN cache
  have hempty := onlyWarmup_imageKey
    (persistHotEntries json topN (pod.counts.topManifestImages pod.order topN) cache)
  constructor
  · intro h r hr project hm
    refine (sameRouting_write_iff hslashed htime hempty (pod.handled r hr).slash hm
      (mem_hotMappings.mp hm).2).mp fun iteration hperm => ?_
    exact h iteration _ ((warm_iff hjson htop (List.ne_nil_of_mem hm)).mpr ⟨hperm, rfl⟩) r hr project hm
  · intro h iteration warmed hwarm r hr project hm
    obtain ⟨hperm, rfl⟩ := (warm_iff hjson htop (List.ne_nil_of_mem hm)).mp hwarm
    exact (sameRouting_write_iff hslashed htime hempty (pod.handled r hr).slash hm
      (mem_hotMappings.mp hm).2).mpr (h r hr project hm) iteration hperm

end Warm

/-- Ten requests of each of two tags of an image and of one of another. -/
def threeTags : List ManifestRequest :=
  [⟨"library/nginx".toList, "1".toList, []⟩, ⟨"library/nginx".toList, "2".toList, []⟩,
    ⟨"library/redis".toList, "7".toList, []⟩].flatMap (List.replicate 10)

def threeTagsPod : Popular threeTags where
  counts := (popularity.run .empty threeTags).get rfl
  order := ["library/redis:7".toList, "library/nginx:1".toList, "library/nginx:2".toList]
  handled r hr := by
    simp only [threeTags, List.flatMap_cons, List.flatMap_nil, List.append_nil, List.mem_append,
      List.mem_replicate] at hr
    rcases hr with ⟨-, rfl⟩ | ⟨-, rfl⟩ | ⟨-, rfl⟩
    · exact ⟨"nginx/manifests/1".toList, "nginx".toList, by decide, by decide⟩
    · exact ⟨"nginx/manifests/2".toList, "nginx".toList, by decide, by decide⟩
    · exact ⟨"redis/manifests/7".toList, "redis".toList, by decide, by decide⟩
  run := (Option.some_get _).symm
  isOrder := by decide

/-- The manifests and their images as `resolve_manifest` caches them. -/
def threeTagsCache : Cache := fun key =>
  if key = "library/nginx:1".toList then some ⟨"dockerhub|1700000000".toList, some 360000⟩
  else if key = "library/nginx:2".toList then some ⟨"dockerhub|1700000030".toList, some 360000⟩
  else if key = "img:library/nginx".toList then some ⟨"dockerhub".toList, none⟩
  else if key = "library/redis:7".toList then some ⟨"ghcr|1700000010".toList, some 360000⟩
  else if key = "img:library/redis".toList then some ⟨"ghcr".toList, none⟩
  else none

/-- The images are routed to one project each, and a pod that warms a minute later routes them to it. -/
theorem warm_reproduces_iff_threeTags :
    (threeTagsPod.mappings 5 threeTagsCache).entries.length = 3 ∧
    ∀ iteration warmed, warmCacheFromRedis .default Json.object 1700000060 iteration (onlyWarmup
        (persistHotEntries Json.object 5 (threeTagsPod.counts.topManifestImages threeTagsPod.order 5)
          threeTagsCache)) = some warmed →
      ∀ r ∈ threeTags, ∀ project, (r.key, project) ∈ (threeTagsPod.mappings 5 threeTagsCache).entries →
        SameRouting warmed threeTagsCache r.image r.reference := by
  refine ⟨by decide, (warm_reproduces_iff .default Json.object 5 1700000060 threeTags threeTagsPod threeTagsCache
    Json.object_faithful (by decide)).mpr fun r hr project hm => ?_⟩
  have hbar : ∀ m ∈ (threeTagsPod.mappings 5 threeTagsCache).entries, '|' ∉ m.2 := by decide
  have hrouted : ∀ r ∈ threeTags, ':' ∉ r.image ∧ ∀ m ∈ (threeTagsPod.mappings 5 threeTagsCache).entries,
      firstPart ':' m.1 = r.image → (threeTagsCache (imageKey r.image)).map Entry.value = some m.2 := by
    decide +kernel
  exact ⟨fun _ => hbar _ hm, fun _ => (hrouted r hr).2, fun hcolon => absurd hcolon (hrouted r hr).1⟩

/-- Ten requests of each of two tags of one image. -/
def twoTags : List ManifestRequest :=
  List.replicate 10 ⟨"library/nginx".toList, "1".toList, []⟩ ++
    List.replicate 10 ⟨"library/nginx".toList, "2".toList, []⟩

def twoTagsPod : Popular twoTags where
  counts := (popularity.run .empty twoTags).get rfl
  order := ["library/nginx:1".toList, "library/nginx:2".toList]
  handled r hr := by
    rcases List.mem_append.mp hr with hr | hr
    · rw [List.eq_of_mem_replicate hr]
      exact ⟨"nginx/manifests/1".toList, "nginx".toList, by decide, by decide⟩
    · rw [List.eq_of_mem_replicate hr]
      exact ⟨"nginx/manifests/2".toList, "nginx".toList, by decide, by decide⟩
  run := (Option.some_get _).symm
  isOrder := by decide

/-- The tags are served by different projects; the second was resolved last. -/
def twoTagsCache : Cache := fun key =>
  if key = "library/nginx:1".toList then some ⟨"a|1700000000".toList, some 360000⟩
  else if key = "library/nginx:2".toList then some ⟨"b|1700000000".toList, some 360000⟩
  else if key = "img:library/nginx".toList then some ⟨"b".toList, none⟩
  else none

/-- Iterated with its first tag last, the image is routed to the project of the first tag. -/
theorem iteration_decides : ¬ ∀ (cfg : Config) (json : Json Mappings) (topN now : Nat) (rs : List ManifestRequest)
    (pod : Popular rs) (cache : Cache), json.Faithful HashMap.Same → now < UInt64.size → ∀ iteration warmed,
      warmCacheFromRedis cfg json now iteration (onlyWarmup
        (persistHotEntries json topN (pod.counts.topManifestImages pod.order topN) cache)) = some warmed →
      ∀ r ∈ rs, ∀ project, (r.key, project) ∈ (pod.mappings topN cache).entries →
        SameRouting warmed cache r.image r.reference := by
  intro h
  have hsame := h .default Json.object 5 1700000060 twoTags twoTagsPod twoTagsCache Json.object_faithful (by decide)
    [("library/nginx:2".toList, "b".toList), ("library/nginx:1".toList, "a".toList)] _
    ((warm_iff Json.object_faithful (by decide) (by decide)).mpr ⟨by decide, rfl⟩)
    ⟨"library/nginx".toList, "1".toList, []⟩ (by decide) "a".toList (by decide)
  exact absurd hsame.2 (by decide)

end HarborRouter.Manifest
