import HarborRouter.Discovery
import HarborRouter.Lib.SharedStore
import HarborRouter.Metrics.Interleaved
import HarborRouter.Proxy.Requests
import HarborRouter.Resolver.Provenance
import HarborRouter.Resolver.Warmup

/-!
# The pods of a deployment

Everything that one pod does between two awaits, over a cache that all pods share: its calls of `resolve_manifest` and
their refreshes, its calls of `resolve_tags`, its blobs, the popularity of the manifests it has answered, the warming
and persisting of hot entries, and discovery.

* `cache_of_step` : what a call of `resolve_manifest` writes, as a list;
* `fleet` : any number of pods.
-/

namespace HarborRouter.Fleet
open Lib Text Manifest

abbrev PodId := Nat

/-- The functions that write to the cache. -/
inductive Writer
  | resolveManifest
  | refresh
  | resolveTags
  | handleBlob
  | warmCacheFromRedis
  | persistHotEntries
  | persistToCache
  deriving DecidableEq

abbrev CacheWrite := Write Writer Text Entry

/-! ## `resolve_manifest` -/

section Calls
variable {cfg : Config}

def written (s : Manifest.State cfg) : Manifest.Label cfg → List CacheWrite
  | .evict i =>
      match s.stage i with
      | .evicting c _ => [⟨.resolveManifest, c.key, none⟩]
      | _ => []
  | .store i now =>
      match s.stage i with
      | .storing c l => [⟨.resolveManifest, c.key, some (entryOf cfg now l.result)⟩]
      | _ => []
  | .storeImage i =>
      match s.stage i with
      | .storingImage c l =>
          match l.result with
          | .ok r => [⟨.resolveManifest, imageKey c.image, some ⟨r.project, none⟩⟩]
          | .error _ => []
      | _ => []
  | .refreshStore j now =>
      match s.task j with
      | .storing c l =>
          match l.result with
          | .ok r => [⟨.refresh, c.key,
              some ⟨encodeCacheValue r.project now, some (cfg.cacheTtl + cfg.staleWhileRevalidate)⟩⟩]
          | .error _ => []
      | _ => []
  | .refreshStoreImage j =>
      match s.task j with
      | .storingImage c l =>
          match l.result with
          | .ok r => [⟨.refresh, imageKey c.image, some ⟨r.project, none⟩⟩]
          | .error _ => []
      | _ => []
  | _ => []

/-- The step is neither the start of a call nor the end of a lifetime. -/
def internal : Manifest.Label cfg → Bool
  | .call .. | .expire _ => false
  | _ => true

/-- The writes of a step are all that it does to the cache. -/
theorem cache_of_step {s t : Manifest.State cfg} {l : Manifest.Label cfg} (hl : internal l = true)
    (h : Manifest.step s l = some t) : t.cache = SharedStore.apply s.cache (written s l) := by
  obtain ⟨u, hu, rfl⟩ := Manifest.step_cases h
  cases hu with
  | evict i c observed hi =>
      rw [written, hi]
      rfl
  | store i now c l st hi hst =>
      rw [written, hi]
      rfl
  | storeImage i c l r hi hr =>
      simp only [written, hi, hr]
      rfl
  | refreshStore j now c l r hj hr =>
      simp only [written, hj, hr]
      rfl
  | refreshStoreImage j c l r hj hr =>
      simp only [written, hj, hr]
      rfl
  | expire key => cases hl
  | served i reply c project stale r hi hr h200 t ht =>
      subst ht
      cases stale <;> rfl
  | _ => rfl

end Calls

/-! ## `resolve_tags` -/

inductive TagsStage
  | absent
  | reading (image : Text)
  /-- awaits the tags from the cached project -/
  | fetching (image project : Text)
  | evicting (image : Text)
  /-- awaits the fan-out -/
  | looking (image : Text)
  | storing (image project : Text)
  | over

inductive TagsAction (cfg : Config)
  | get
  | fetched (reply : Reply)
  | evict
  | looked (f : TagsFanout cfg.maxFanout)
  | store
  | drop

def TagsStage.step (cfg : Config) (stage : TagsStage) (cache : Cache) :
    TagsAction cfg → Option (TagsStage × List CacheWrite)
  | .get =>
      match stage with
      | .reading image =>
          match cache (tagsKey image) with
          | some entry =>
              some (if isSafeProjectName entry.value then .fetching image entry.value else .looking image, [])
          | none => some (.looking image, [])
      | _ => none
  | .fetched reply =>
      match stage with
      | .fetching image project =>
          match fetchTags project reply with
          | .ok r => some (if r.status = 200 then .over else .evicting image, [])
          | .error _ => some (.evicting image, [])
      | _ => none
  | .evict =>
      match stage with
      | .evicting image => some (.looking image, [⟨.resolveTags, tagsKey image, none⟩])
      | _ => none
  | .looked f =>
      match stage with
      | .looking image =>
          match f.lookup image with
          | .ok r => some (.storing image r.project, [])
          | .error _ => some (.over, [])
      | _ => none
  | .store =>
      match stage with
      | .storing image project => some (.over, [⟨.resolveTags, tagsKey image, some ⟨project, some cfg.cacheTtl⟩⟩])
      | _ => none
  | .drop =>
      match stage with
      | .absent => none
      | _ => some (.over, [])

/-! ## `start_cache_warming` -/

inductive Warming
  | starting
  /-- has read the mappings and is about to write the rest of what they come to -/
  | writing (pending : List (Text × Option Entry))
  /-- awaits the ticker -/
  | waiting
  /-- has listed the top keys, and reads their entries one after another -/
  | reading (top : List (Text × Nat)) (mappings : Mappings)
  | stopped

inductive WarmingAction
  | get (now : Nat) (order : List (Text × Text))
  | set
  | tick (order : List Text)
  | read
  | persist
  | shutdown

/-- Until the ticker when there is nothing to write. -/
def Warming.ofPending : List (Text × Option Entry) → Warming
  | [] => .waiting
  | pending => .writing pending

/-- `counts` is what the pod has counted; maps are iterated as the action says. -/
def Warming.step (cfg : Config) (json : Json Mappings) (cacheWarmupTopN : Nat) (counts : Counts) (stage : Warming)
    (cache : Cache) : WarmingAction → Option (Warming × List CacheWrite)
  | .get now order =>
      match stage with
      | .starting =>
          match (cache warmupCacheKey).bind fun entry => json.fromStr entry.value with
          | some mappings =>
              if order.Perm mappings.entries then some (.ofPending (order.flatMap (warmWrites cfg now)), []) else none
          | none => some (.waiting, [])
      | _ => none
  | .set =>
      match stage with
      | .writing ((key, entry) :: pending) => some (.ofPending pending, [⟨.warmCacheFromRedis, key, entry⟩])
      | _ => none
  | .tick order =>
      match stage with
      | .waiting =>
          if cacheWarmupTopN = 0 then some (.waiting, [])
          else if counts.IsOrder order then
            let top := counts.topManifestImages order cacheWarmupTopN
            some (if top = [] then .waiting else .reading top .empty, [])
          else none
      | _ => none
  | .read =>
      match stage with
      | .reading ((key, _) :: top) mappings =>
          some (.reading top (match hotEntry cache key with
            | some project => mappings.insert key project
            | none => mappings), [])
      | _ => none
  | .persist =>
      match stage with
      | .reading [] mappings =>
          some (.waiting,
            if mappings.entries = [] then []
            else match json.toString mappings with
              | some text => [⟨.persistHotEntries, warmupCacheKey, some ⟨text, some 3600000⟩⟩]
              | none => [])
      | _ => none
  | .shutdown =>
      match stage with
      | .waiting => some (.stopped, [])
      | _ => none

/-! ## A pod -/

structure Settings where
  cfg : Config
  cacheWarmupTopN : Nat
  harborUrl : Text
  mappings : Json Mappings
  projects : Json (List Text)
  unmarshal : Text → Option (List Discovery.HarborProject)

/-- The cache inside `calls` is that of the last step; every step is taken with the shared one in its place. -/
structure Pod (cfg : Config) where
  calls : Manifest.State cfg
  tags : CallId → TagsStage
  popularity : Tracker.State
  /-- The answers that have been counted. -/
  recorded : CallId → Bool
  warming : Warming
  discoverer : Discovery.Discoverer

def Pod.new (cfg : Config) : Pod cfg where
  calls := Manifest.init
  tags _ := .absent
  popularity := Tracker.init
  recorded _ := false
  warming := .starting
  discoverer := .new true

inductive Action (cfg : Config)
  | request (i : CallId) (path : Text) (accept : List Text)
  | blob (path : Text) (u : BlobUpstream)
  | resolve (l : Manifest.Label cfg)
  | respond (i : CallId)
  | popularity (l : Tracker.Label)
  | tags (i : CallId) (a : TagsAction cfg)
  | warming (a : WarmingAction)
  | discovery (a : Discovery.Action)

variable (e : Settings)

def Pod.step (pod : Pod e.cfg) (cache : Cache) : Action e.cfg → Option (Pod e.cfg × List CacheWrite)
  | .request i path accept =>
      match parsePath path with
      | .ok (image, .manifests, reference) =>
          let c : Manifest.Call := ⟨normalizeDockerLibraryImage image, reference, accept⟩
          (Manifest.step { pod.calls with cache := cache } (.call i c)).map fun calls =>
            ({ pod with calls := calls }, [])
      | .ok (image, .tags, _) =>
          match pod.tags i with
          | .absent =>
              some ({ pod with
                tags := Function.update pod.tags i (.reading (normalizeDockerLibraryImage image)) }, [])
          | _ => none
      | _ => none
  | .blob path u =>
      match parsePath path with
      | .ok (image, .blobs, digest) =>
          some (pod, (u.trace cache (normalizeDockerLibraryImage image) digest).writes.map fun w =>
            ⟨.handleBlob, w.1, w.2⟩)
      | _ => none
  | .resolve l =>
      if internal l then
        (Manifest.step { pod.calls with cache := cache } l).map fun calls =>
          ({ pod with calls := calls }, written pod.calls l)
      else none
  | .respond i =>
      match pod.calls.stage i with
      | .answered c a =>
          match a.result c, pod.recorded i with
          | .ok _, false =>
              (Tracker.step pod.popularity (.count i c.key)).map fun popularity =>
                ({ pod with popularity := popularity, recorded := Function.update pod.recorded i true }, [])
          | _, _ => none
      | _ => none
  | .popularity l =>
      if l.counts then none
      else (Tracker.step pod.popularity l).map fun popularity => ({ pod with popularity := popularity }, [])
  | .tags i a =>
      ((pod.tags i).step e.cfg cache a).map fun r => ({ pod with tags := Function.update pod.tags i r.1 }, r.2)
  | .warming a =>
      (pod.warming.step e.cfg e.mappings e.cacheWarmupTopN pod.popularity.counts cache a).map fun r =>
        ({ pod with warming := r.1 }, r.2)
  | .discovery a =>
      (pod.discoverer.step e.harborUrl e.projects e.unmarshal
          ((cache Discovery.discoveryCacheKey).map Entry.value) a).map fun d =>
        ({ pod with discoverer := d },
          match a, pod.discoverer.persistToCache e.projects with
          | .persist true, some text => [⟨.persistToCache, Discovery.discoveryCacheKey, some ⟨text, none⟩⟩]
          | _, _ => [])

/-- Any number of pods over one shared cache. -/
def fleet : SharedStore PodId (Pod e.cfg) (Action e.cfg) Writer Text Entry := ⟨fun _ => .new e.cfg, Pod.step e⟩

end HarborRouter.Fleet
