import HarborRouter.Lib.Json
import HarborRouter.Metrics.Popularity
import HarborRouter.Resolver.OneCall

/-!
# Persisting hot entries and warming the cache

`persist_hot_entries` stores the projects of the most requested manifests as one JSON entry of the shared cache, and
`warm_cache_from_redis` writes them back as a resolver would. The warmed value carries the time of the warming: the
one that was read is not stored.

* `mem_hotMappings` : what is persisted;
* `warmed_manifest` : what warming leaves under the key of a manifest;
* `readsBack_iff` : which project names every reader reads back from what any writer stores.
-/

namespace HarborRouter.Manifest
open Lib Text

variable {cfg : Config}

def warmupCacheKey : Text := "warmup:mappings".toList

abbrev Mappings := HashMap Text Text

/-- The project that `persist_hot_entries` finds for a key. -/
def hotEntry (cache : Cache) (key : Text) : Option Text :=
  (cache key).bind fun entry =>
    let project := (decodeCacheValue entry.value).1
    if project ≠ negativeCacheSentinel ∧ isSafeProjectName project = true then some project else none

def hotMappings (cache : Cache) (top : List (Text × Nat)) : Mappings :=
  top.foldl (fun mappings e => match hotEntry cache e.1 with
    | some project => mappings.insert e.1 project
    | none => mappings) .empty

/-- `top` is what `top_manifest_images(cache_warmup_top_n)` returned. -/
def persistHotEntries (json : Json Mappings) (cacheWarmupTopN : Nat) (top : List (Text × Nat)) (cache : Cache) :
    Cache :=
  if cacheWarmupTopN = 0 then cache
  else if top = [] then cache
  else
    let mappings := hotMappings cache top
    if mappings.entries = [] then cache
    else match json.toString mappings with
      | some text => Function.update cache warmupCacheKey (some ⟨text, some 3600000⟩)
      | none => cache

def warmedEntry (cfg : Config) (now : Nat) (project : Text) : Entry where
  value := if cfg.staleWhileRevalidate = 0 then project else encodeCacheValue project now
  ttl := some (cfg.cacheTtl + cfg.staleWhileRevalidate)

/-- The entries that are written for a mapping. The image is what stands before the first `:` of the key. -/
def warmWrites (cfg : Config) (now : Nat) (mapping : Text × Text) : List (Text × Option Entry) :=
  if isSafeProjectName mapping.2 then
    [(mapping.1, some (warmedEntry cfg now mapping.2)), (imageKey (firstPart ':' mapping.1), some ⟨mapping.2, none⟩)]
  else []

/-- Warming, where the mappings are iterated as `order`. -/
def warmCacheFromRedis (cfg : Config) (json : Json Mappings) (now : Nat) (order : List (Text × Text))
    (cache : Cache) : Option Cache :=
  match (cache warmupCacheKey).bind fun entry => json.fromStr entry.value with
  | some mappings =>
      if order.Perm mappings.entries then some (write cache (order.flatMap (warmWrites cfg now))) else none
  | none => if order = [] then some cache else none

theorem warmCacheFromRedis_cases {cfg : Config} {json : Json Mappings} {now : Nat} {order : List (Text × Text)}
    {cache warmed : Cache} (h : warmCacheFromRedis cfg json now order cache = some warmed) :
    (∃ mappings : Mappings, order.Perm mappings.entries) ∧
      warmed = write cache (order.flatMap (warmWrites cfg now)) := by
  rw [warmCacheFromRedis] at h
  split at h
  · rename_i mappings _
    split at h
    · rename_i hperm
      exact ⟨⟨mappings, hperm⟩, (Option.some.inj h).symm⟩
    · cases h
  · split at h
    · rename_i hnil
      subst hnil
      exact ⟨⟨.empty, List.Perm.refl _⟩, (Option.some.inj h).symm⟩
    · cases h

theorem persistHotEntries_of_ne (json : Json Mappings) (topN : Nat) (top : List (Text × Nat)) (cache : Cache)
    {key : Text} (h : key ≠ warmupCacheKey) : persistHotEntries json topN top cache key = cache key := by
  rw [persistHotEntries]
  dsimp only
  split
  · rfl
  · split
    · rfl
    · split
      · rfl
      · cases json.toString (hotMappings cache top) with
        | some text => exact Function.update_of_ne h ..
        | none => rfl

theorem hotEntry_eq_some {cache : Cache} {key project : Text} : hotEntry cache key = some project ↔
    ∃ entry, cache key = some entry ∧ (decodeCacheValue entry.value).1 = project ∧
      project ≠ negativeCacheSentinel ∧ isSafeProjectName project = true := by
  rw [hotEntry, Option.bind_eq_some_iff]
  refine exists_congr fun entry => and_congr_right fun _ => ?_
  dsimp only
  split
  · rename_i h
    rw [Option.some.injEq]
    exact ⟨fun he => ⟨he, he ▸ h⟩, fun he => he.1⟩
  · rename_i h
    refine iff_of_false nofun ?_
    rintro ⟨rfl, hsafe⟩
    exact h hsafe

theorem mem_hotMappings {cache : Cache} {top : List (Text × Nat)} {key project : Text} :
    (key, project) ∈ (hotMappings cache top).entries ↔ key ∈ top.map Prod.fst ∧ hotEntry cache key = some project := by
  unfold hotMappings
  induction top using List.reverseRecOn with
  | nil => exact iff_of_false List.not_mem_nil fun h => List.not_mem_nil h.1
  | append_singleton top e ih =>
      rw [List.foldl_concat, List.map_append, List.mem_append, List.map_singleton, List.mem_singleton]
      cases he : hotEntry cache e.1 with
      | none =>
          dsimp only
          rw [ih]
          constructor
          · rintro ⟨hkey, hp⟩
            exact ⟨.inl hkey, hp⟩
          · rintro ⟨hkey | rfl, hp⟩
            · exact ⟨hkey, hp⟩
            · rw [he] at hp
              cases hp
      | some p =>
          dsimp only
          rw [HashMap.mem_insert, ih]
          constructor
          · rintro (⟨rfl, rfl⟩ | ⟨-, hkey, hp⟩)
            · exact ⟨.inr rfl, he⟩
            · exact ⟨.inl hkey, hp⟩
          · rintro ⟨hkey, hp⟩
            by_cases hke : key = e.1
            · subst hke
              rw [he] at hp
              cases hp
              exact .inl ⟨rfl, rfl⟩
            · exact .inr ⟨hke, hkey.resolve_right hke, hp⟩

theorem mem_warmWrites {now : Nat} {mapping : Text × Text} {w : Text × Option Entry} :
    w ∈ warmWrites cfg now mapping ↔ isSafeProjectName mapping.2 = true ∧
      (w = (mapping.1, some (warmedEntry cfg now mapping.2)) ∨
        w = (imageKey (firstPart ':' mapping.1), some ⟨mapping.2, none⟩)) := by
  unfold warmWrites
  split
  · rename_i h
    simp [h]
  · rename_i h
    simp [h]

section Warm
variable {mappings : Mappings} {cache : Cache} {now : Nat} {iteration : List (Text × Text)}
variable {image reference project : Text}

theorem cacheKey_ne_imageKey_of_noColon (hslash : '/' ∈ image) {other : Text} (hother : ':' ∉ other) :
    cacheKey image reference ≠ imageKey other := by
  intro h
  rw [CacheLookup.cacheKey_eq] at h
  obtain ⟨part, -, rfl⟩ := CacheLookup.manifest_meets CacheLookup.img_noSlash hslash h
  exact hother (by simp)

theorem mem_writes {w : Text × Option Entry} (h : w ∈ iteration.flatMap (warmWrites cfg now)) :
    ∃ mapping ∈ iteration, w = (mapping.1, some (warmedEntry cfg now mapping.2)) ∨
      w = (imageKey (firstPart ':' mapping.1), some ⟨mapping.2, none⟩) := by
  obtain ⟨mapping, hmapping, hw⟩ := List.mem_flatMap.mp h
  exact ⟨mapping, hmapping, (mem_warmWrites.mp hw).2⟩

/-- A persisted manifest is warmed with its project. -/
theorem warmed_manifest (hperm : iteration.Perm mappings.entries) (hslash : '/' ∈ image)
    (hm : (cacheKey image reference, project) ∈ mappings.entries) (hsafe : isSafeProjectName project = true) :
    write cache (iteration.flatMap (warmWrites cfg now)) (cacheKey image reference) =
      some (warmedEntry cfg now project) := by
  rcases foldl_update_cases cache (iteration.flatMap (warmWrites cfg now)) (cacheKey image reference) with
    ⟨w, hw, hkey, hwrite⟩ | ⟨hnone, -⟩
  · obtain ⟨mapping, hmapping, rfl | rfl⟩ := mem_writes hw
    · have hmem := hperm.mem_iff.mp hmapping
      obtain ⟨key, p⟩ := mapping
      cases hkey
      rw [mappings.unique hm hmem]
      exact hwrite
    · exact absurd hkey.symm (cacheKey_ne_imageKey_of_noColon hslash (notMem_firstPart ':' _))
  · refine absurd rfl (hnone (cacheKey image reference, some (warmedEntry cfg now project)) ?_)
    exact List.mem_flatMap.mpr ⟨_, hperm.mem_iff.mpr hm, mem_warmWrites.mpr ⟨hsafe, .inl rfl⟩⟩

end Warm

/-! ## Round trips -/

/-- The values that are written for a project at the time `timestamp`; a refresh is spawned with stale-while-revalidate
only, and warming skips unsafe names. -/
inductive Writes (cfg : Config) (project : Text) (timestamp : Nat) : Entry → Prop
  | resolve (r : ResolveResult) (h : r.project = project) : Writes cfg project timestamp (entryOf cfg timestamp (.ok r))
  | refresh (h : cfg.staleWhileRevalidate ≠ 0) : Writes cfg project timestamp
      ⟨encodeCacheValue project timestamp, some (cfg.cacheTtl + cfg.staleWhileRevalidate)⟩
  | warm (h : isSafeProjectName project = true) : Writes cfg project timestamp (warmedEntry cfg timestamp project)

/-- Every reader reads the entry as the project, and `resolve_manifest` as the timestamp too. -/
structure ReadsBack (cfg : Config) (project : Text) (timestamp : Option Nat) (entry : Entry) : Prop where
  resolve : readEntry cfg entry = (project, timestamp)
  cached : ∀ cache image reference, cache (cacheKey image reference) = some entry →
    cachedProject cache image reference = some project
  persist : ∀ cache key, cache key = some entry → hotEntry cache key = some project

theorem Writes.value {project : Text} {timestamp : Nat} {entry : Entry} (h : Writes cfg project timestamp entry) :
    entry.value = if cfg.staleWhileRevalidate = 0 then project else encodeCacheValue project timestamp := by
  cases h with
  | resolve r h =>
      rw [entryOf]
      split <;> simp [h]
  | refresh h => rw [if_neg h]
  | warm h => rfl

theorem readsBack_iff_decode {project : Text} {timestamp : Option Nat} {entry : Entry}
    (hsafe : isSafeProjectName project = true) (hne : project ≠ negativeCacheSentinel) :
    ReadsBack cfg project timestamp entry ↔
      readEntry cfg entry = (project, timestamp) ∧ (decodeCacheValue entry.value).1 = project := by
  constructor
  · intro h
    refine ⟨h.resolve, ?_⟩
    have := h.cached (fun _ => some entry) [] [] rfl
    exact Option.some.inj this
  · rintro ⟨hresolve, hdecode⟩
    refine ⟨hresolve, fun cache image reference he => ?_, fun cache key he => ?_⟩
    · rw [cachedProject, he]
      exact congrArg some hdecode
    · exact hotEntry_eq_some.mpr ⟨entry, he, hdecode, hne, hsafe⟩

/-- Which project names round-trip through every writer and every reader: with stale-while-revalidate those without a
`|`, without it those that do not look like an encoded value. -/
theorem readsBack_iff (cfg : Config) (project : Text) (timestamp : Nat) (hsafe : isSafeProjectName project = true)
    (hne : project ≠ negativeCacheSentinel) (htime : timestamp < UInt64.size) :
    (∀ entry, Writes cfg project timestamp entry →
      ReadsBack cfg project (if cfg.staleWhileRevalidate = 0 then none else some timestamp) entry) ↔
      if cfg.staleWhileRevalidate = 0 then ¬ Stamped project else '|' ∉ project := by
  by_cases hswr : cfg.staleWhileRevalidate = 0
  · rw [if_pos hswr, if_pos hswr, ← decode_self_iff]
    constructor
    · intro h
      have hwarm := (readsBack_iff_decode hsafe hne).mp (h _ (.warm hsafe))
      rw [(Writes.warm hsafe).value, if_pos hswr] at hwarm
      exact hwarm.2
    · intro hself entry hentry
      rw [readsBack_iff_decode hsafe hne, readEntry, if_pos hswr, hentry.value, if_pos hswr]
      exact ⟨rfl, hself⟩
  · rw [if_neg hswr, if_neg hswr]
    constructor
    · intro h
      have hwarm := (readsBack_iff_decode hsafe hne).mp (h _ (.warm hsafe))
      rw [(Writes.warm hsafe).value, if_neg hswr] at hwarm
      exact (decode_encode_iff htime).mp hwarm.2
    · intro hbar entry hentry
      rw [readsBack_iff_decode hsafe hne, readEntry, if_neg hswr, hentry.value, if_neg hswr, decode_encode hbar htime]
      exact ⟨rfl, rfl⟩

theorem readsBack_iff_dockerhub :
    (∀ entry, Writes .default "dockerhub".toList 1700000000 entry →
      ReadsBack .default "dockerhub".toList (some 1700000000) entry) ↔ '|' ∉ "dockerhub".toList :=
  readsBack_iff .default "dockerhub".toList 1700000000 (by decide) (by decide) (by decide)

/-- The safe name `a|b` is read back as `a|b|1700000000`. -/
theorem bar_not_readBack : ¬ ∀ (cfg : Config) (project : Text) (timestamp : Nat), isSafeProjectName project = true →
    project ≠ negativeCacheSentinel → timestamp < UInt64.size → ∀ entry, Writes cfg project timestamp entry →
      ReadsBack cfg project (if cfg.staleWhileRevalidate = 0 then none else some timestamp) entry := by
  intro h
  have hback := h .default "a|b".toList 1700000000 (by decide) (by decide) (by decide) _ (.warm (by decide))
  exact absurd hback.resolve (by decide)

end HarborRouter.Manifest
