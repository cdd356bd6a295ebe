import HarborRouter.Fleet.Pod

/-!
# Control entries

Discovery and warming keep their lists in the cache that holds the entries of requests, under keys that no request
comes near: what a request writes has a `/` in its key, since every image has one, and the keys that warming writes
come back from requests, through the popularity of the pod that persisted them.

* `Lawful` : what each writer writes;
* `sound_step` : a pod that finds only lawful entries writes nothing else;
* `control_entries_kept` : who has written the control entries.
-/

namespace HarborRouter.Fleet
open Lib Text Manifest
open Discovery (discoveryCacheKey)

/-- The key is none of a control entry. -/
def DataKey (key : Text) : Prop := '/' ∈ key ∨ "img:".toList <+: key

instance (key : Text) : Decidable (DataKey key) := inferInstanceAs (Decidable (_ ∨ _))

def Requested (mappings : Mappings) : Prop := ∀ m ∈ mappings.entries, '/' ∈ m.1

/-- What a writer may write. -/
def Lawful (json : Json Mappings) (w : CacheWrite) : Prop :=
  match w.writer with
  | .persistToCache => w.key = discoveryCacheKey
  | .persistHotEntries => w.key = warmupCacheKey ∧
      ∃ mappings text ttl, Requested mappings ∧ json.toString mappings = some text ∧ w.value = some ⟨text, ttl⟩
  | _ => DataKey w.key

def TagsStage.About (image : Text) : TagsStage → Prop
  | .reading image' | .fetching image' _ | .evicting image' | .looking image' | .storing image' _ => image' = image
  | .absent | .over => False

def Warming.Sound : Warming → Prop
  | .writing pending => ∀ w ∈ pending, DataKey w.1
  | .reading top mappings => (∀ k ∈ top, '/' ∈ k.1) ∧ Requested mappings
  | _ => True

/-- The images and the keys that the pod works on have a `/`. -/
structure Pod.Sound {cfg : Config} (pod : Pod cfg) : Prop where
  staged : Staged pod.calls
  traced : Traced (fun c => '/' ∈ c.image) pod.calls
  tags : ∀ i image, (pod.tags i).About image → '/' ∈ image
  popularity : ∀ key ∈ pod.popularity.counts.keys, '/' ∈ key
  warming : pod.warming.Sound

/-! ## Keys -/

section Keys
variable {image reference : Text}

theorem dataKey_cacheKey (h : '/' ∈ image) : DataKey (cacheKey image reference) := by
  rw [CacheLookup.cacheKey_eq]
  exact .inl (List.mem_append_left _ h)

theorem dataKey_imageKey (image : Text) : DataKey (imageKey image) := .inr (List.prefix_append ..)

theorem dataKey_tagsKey (h : '/' ∈ image) : DataKey (tagsKey image) := .inl (List.mem_append_right _ h)

theorem not_dataKey_discovery : ¬ DataKey discoveryCacheKey := by decide

theorem not_dataKey_warmup : ¬ DataKey warmupCacheKey := by decide

theorem warmup_ne_discovery : warmupCacheKey ≠ discoveryCacheKey := by decide

end Keys

/-! ## Steps -/

section Calls
variable {cfg : Config} {s t : Manifest.State cfg} {l : Manifest.Label cfg}

theorem staged_setCache (hs : Staged s) (cache : Cache) : Staged { s with cache := cache } := hs.congr rfl rfl

theorem traced_setCache {D : Manifest.Call → Prop} (hs : Traced D s) (cache : Cache) :
    Traced D { s with cache := cache } :=
  ⟨hs.flight, hs.call, hs.holds, hs.task, hs.taskHolds⟩

/-- A call, or a refresh, writes under keys of its own image. -/
theorem lawful_written (json : Json Mappings) (hs : Traced (fun c => '/' ∈ c.image) s) {w : CacheWrite}
    (hw : w ∈ written s l) : Lawful json w := by
  cases l with
  | evict i =>
      simp only [written] at hw
      split at hw
      · rename_i c observed hi
        cases List.mem_singleton.mp hw
        exact dataKey_cacheKey (hs.call i c (by rw [hi]; rfl))
      · cases hw
  | store i now =>
      simp only [written] at hw
      split at hw
      · rename_i c l hi
        cases List.mem_singleton.mp hw
        exact dataKey_cacheKey (hs.call i c (by rw [hi]; rfl))
      · cases hw
  | storeImage i =>
      simp only [written] at hw
      split at hw
      · split at hw
        · cases List.mem_singleton.mp hw
          exact dataKey_imageKey _
        · cases hw
      · cases hw
  | refreshStore j now =>
      simp only [written] at hw
      split at hw
      · rename_i c l hj
        split at hw
        · cases List.mem_singleton.mp hw
          exact dataKey_cacheKey (hs.task j c (by rw [hj]; rfl))
        · cases hw
      · cases hw
  | refreshStoreImage j =>
      simp only [written] at hw
      split at hw
      · split at hw
        · cases List.mem_singleton.mp hw
          exact dataKey_imageKey _
        · cases hw
      · cases hw
  | _ => cases hw

end Calls

theorem tags_step {cfg : Config} {cache : Cache} {stage : TagsStage} {a : TagsAction cfg}
    {r : TagsStage × List CacheWrite} (json : Json Mappings) (hs : ∀ image, stage.About image → '/' ∈ image)
    (h : stage.step cfg cache a = some r) :
    (∀ image, r.1.About image → '/' ∈ image) ∧ ∀ w ∈ r.2, Lawful json w := by
  cases a with
  | get =>
      simp only [TagsStage.step] at h
      split at h
      · rename_i image
        have himage : '/' ∈ image := hs image rfl
        split at h
        · cases h
          refine ⟨fun image' h' => ?_, nofun⟩
          dsimp only at h'
          split at h' <;> exact h' ▸ himage
        · cases h
          exact ⟨fun image' h' => h' ▸ himage, nofun⟩
      · cases h
  | fetched reply =>
      simp only [TagsStage.step] at h
      split at h
      · rename_i image project
        have himage : '/' ∈ image := hs image rfl
        split at h
        · cases h
          refine ⟨fun image' h' => ?_, nofun⟩
          dsimp only at h'
          split at h'
          · exact h'.elim
          · exact h' ▸ himage
        · cases h
          exact ⟨fun image' h' => h' ▸ himage, nofun⟩
      · cases h
  | evict =>
      simp only [TagsStage.step] at h
      split at h
      · rename_i image
        cases h
        refine ⟨fun image' h' => h' ▸ hs image rfl, fun w hw => ?_⟩
        cases List.mem_singleton.mp hw
        exact dataKey_tagsKey (hs image rfl)
      · cases h
  | looked f =>
      simp only [TagsStage.step] at h
      split at h
      · rename_i image
        split at h
        · cases h
          exact ⟨fun image' h' => h' ▸ hs image rfl, nofun⟩
        · cases h
          exact ⟨fun _ h' => h'.elim, nofun⟩
      · cases h
  | store =>
      simp only [TagsStage.step] at h
      split at h
      · rename_i image project
        cases h
        refine ⟨fun _ h' => h'.elim, fun w hw => ?_⟩
        cases List.mem_singleton.mp hw
        exact dataKey_tagsKey (hs image rfl)
      · cases h
  | drop =>
      simp only [TagsStage.step] at h
      split at h
      · cases h
      · cases h
        exact ⟨fun _ h' => h'.elim, nofun⟩

/-- A step of the counters adds no key but the one that it counts. -/
theorem keys_of_tracker_step {s t : Tracker.State} {l : Tracker.Label} (h : Tracker.step s l = some t) {key : Text}
    (hkey : key ∈ t.counts.keys) : key ∈ s.counts.keys ∨ ∃ i, l = .count i key := by
  obtain ⟨i, k, rfl, -, rfl⟩ | ⟨i, rfl, -, rfl⟩ | ⟨i, ks, rfl, -, -, rfl⟩ | ⟨i, k, ks, rfl, -, rfl⟩ :=
    Tracker.step_cases h
  · rcases Finset.mem_insert.mp hkey with rfl | hkey
    · exact .inr ⟨i, rfl⟩
    · exact .inl hkey
  · exact .inl hkey
  · exact .inl hkey
  · exact .inl (Finset.mem_of_mem_erase hkey)

section Warming
variable {cfg : Config} {json : Json Mappings} {cache : Cache} {counts : Counts} {topN : Nat}
variable {stage : Warming} {a : WarmingAction} {r : Warming × List CacheWrite}

/-- What is read under the key of the mappings is what was persisted, up to the order of iteration. -/
theorem requested_of_warmup (hjson : json.Faithful HashMap.Same) (hcache : SharedStore.Holds (Lawful json) cache)
    {mappings : Mappings}
    (h : ((cache warmupCacheKey).bind fun entry => json.fromStr entry.value) = some mappings) : Requested mappings := by
  obtain ⟨entry, hentry, hread⟩ := Option.bind_eq_some_iff.mp h
  obtain ⟨⟨writer, key, value⟩, hlawful, rfl, rfl⟩ := hcache _ _ hentry
  cases writer with
  | persistHotEntries =>
      obtain ⟨-, persisted, text, ttl, hrequested, htext, hvalue⟩ := hlawful
      cases hvalue
      obtain ⟨text', read, htext', hread', hsame⟩ := hjson persisted
      cases htext.symm.trans htext'
      cases hread.symm.trans hread'
      exact fun m hm => hrequested m (hsame.mem_iff.mp hm)
  | persistToCache => exact absurd hlawful warmup_ne_discovery
  | _ => exact absurd hlawful not_dataKey_warmup

theorem sound_ofPending {pending : List (Text × Option Entry)} (h : ∀ w ∈ pending, DataKey w.1) :
    (Warming.ofPending pending).Sound := by
  cases pending with
  | nil => trivial
  | cons w pending => exact h

/-- Warming writes under the keys that were persisted, and under those of images. -/
theorem dataKey_warmWrites {now : Nat} {m : Text × Text} (hm : '/' ∈ m.1) {w : Text × Option Entry}
    (hw : w ∈ warmWrites cfg now m) : DataKey w.1 := by
  obtain ⟨-, rfl | rfl⟩ := mem_warmWrites.mp hw
  · exact .inl hm
  · exact dataKey_imageKey _

theorem mem_keys_of_top {order : List Text} (horder : counts.IsOrder order) {n : Nat} {k : Text × Nat}
    (hk : k ∈ counts.topManifestImages order n) : k.1 ∈ counts.keys :=
  ((Counts.mem_topImages_iff horder).mp (List.mem_map_of_mem hk)).1.1

/-- The warming task of a pod persists keys that it has counted, and warms keys that were persisted. -/
theorem warming_step (hjson : json.Faithful HashMap.Same) (hcache : SharedStore.Holds (Lawful json) cache)
    (hcounts : ∀ key ∈ counts.keys, '/' ∈ key) (hs : stage.Sound)
    (h : stage.step cfg json topN counts cache a = some r) : r.1.Sound ∧ ∀ w ∈ r.2, Lawful json w := by
  cases a with
  | get now order =>
      simp only [Warming.step] at h
      split at h
      · split at h
        · rename_i mappings hread
          split at h
          · rename_i hperm
            cases h
            refine ⟨sound_ofPending fun w hw => ?_, nofun⟩
            obtain ⟨m, hm, hw⟩ := List.mem_flatMap.mp hw
            exact dataKey_warmWrites (requested_of_warmup hjson hcache hread m (hperm.mem_iff.mp hm)) hw
          · cases h
        · cases h
          exact ⟨trivial, nofun⟩
      · cases h
  | set =>
      simp only [Warming.step] at h
      split at h
      · rename_i key entry pending
        cases h
        refine ⟨sound_ofPending fun w hw => hs w (List.mem_cons_of_mem _ hw), fun w hw => ?_⟩
        cases List.mem_singleton.mp hw
        exact hs (key, entry) List.mem_cons_self
      · cases h
  | tick order =>
      simp only [Warming.step] at h
      split at h
      · split at h
        · cases h
          exact ⟨trivial, nofun⟩
        · split at h
          · rename_i horder
            cases h
            refine ⟨?_, nofun⟩
            dsimp only
            split
            · trivial
            · exact ⟨fun k hk => hcounts _ (mem_keys_of_top horder hk), fun m hm => absurd hm List.not_mem_nil⟩
          · cases h
      · cases h
  | read =>
      simp only [Warming.step] at h
      split at h
      · rename_i key n top mappings
        cases h
        refine ⟨⟨fun k hk => hs.1 k (List.mem_cons_of_mem _ hk), ?_⟩, nofun⟩
        split
        · rename_i project _
          rintro ⟨k, p⟩ hm
          rcases HashMap.mem_insert.mp hm with ⟨rfl, -⟩ | ⟨-, hm⟩
          · exact hs.1 (k, n) List.mem_cons_self
          · exact hs.2 _ hm
        · exact hs.2
      · cases h
  | persist =>
      simp only [Warming.step] at h
      split at h
      · rename_i mappings
        cases h
        refine ⟨trivial, fun w hw => ?_⟩
        dsimp only at hw
        split at hw
        · cases hw
        · split at hw
          · rename_i text htext
            cases List.mem_singleton.mp hw
            exact ⟨rfl, mappings, text, _, hs.2, htext, rfl⟩
          · cases hw
      · cases h
  | shutdown =>
      simp only [Warming.step] at h
      split at h
      · cases h
        exact ⟨trivial, nofun⟩
      · cases h

end Warming

/-! ## Pods -/

section Pods
variable {e : Settings} {pod : Pod e.cfg} {cache : Cache} {a : Action e.cfg} {r : Pod e.cfg × List CacheWrite}

theorem Pod.sound_new (cfg : Config) : (Pod.new cfg).Sound where
  staged := staged_init
  traced := traced_init
  tags _ _ h := h.elim
  popularity _ h := absurd h (Finset.notMem_empty _)
  warming := trivial

/-- A pod that finds only lawful entries writes nothing else. -/
theorem sound_step (hjson : e.mappings.Faithful HashMap.Same) (hs : pod.Sound)
    (hcache : SharedStore.Holds (Lawful e.mappings) cache) (h : pod.step e cache a = some r) :
    r.1.Sound ∧ ∀ w ∈ r.2, Lawful e.mappings w := by
  have hstaged := staged_setCache hs.staged cache
  have htraced := traced_setCache hs.traced cache
  cases a with
  | request i path accept =>
      simp only [Pod.step] at h
      split at h
      · rename_i image reference _
        obtain ⟨calls, hcalls, rfl⟩ := Option.map_eq_some_iff.mp h
        have hadmits : Admits (fun c => '/' ∈ c.image)
            (.call i ⟨normalizeDockerLibraryImage image, reference, accept⟩ : Manifest.Label e.cfg) := by
          rintro j c ⟨⟩
          exact slash_mem_normalize image
        exact ⟨⟨staged_step hstaged hcalls, traced_step hadmits hstaged htraced hcalls, hs.tags, hs.popularity,
          hs.warming⟩, nofun⟩
      · rename_i image _ _
        split at h
        · cases h
          refine ⟨⟨hs.staged, hs.traced, ?_, hs.popularity, hs.warming⟩, nofun⟩
          show ∀ j image', (Function.update pod.tags i _ j).About image' → '/' ∈ image'
          rw [Function.forall_update_iff pod.tags fun _ x => ∀ image', x.About image' → '/' ∈ image']
          exact ⟨fun image' h => h ▸ slash_mem_normalize image, fun j _ => hs.tags j⟩
        · cases h
      · cases h
  | blob path u =>
      simp only [Pod.step] at h
      split at h
      · rename_i image digest _
        cases h
        refine ⟨hs, fun w hw => ?_⟩
        obtain ⟨v, hv, -⟩ := List.mem_map.mp hw
        rw [BlobUpstream.trace_writes] at hv
        cases hv
      · cases h
  | resolve l =>
      simp only [Pod.step] at h
      split at h
      · rename_i hl
        obtain ⟨calls, hcalls, rfl⟩ := Option.map_eq_some_iff.mp h
        have hadmits : Admits (fun c => '/' ∈ c.image) l := by
          rintro j c rfl
          cases hl
        exact ⟨⟨staged_step hstaged hcalls, traced_step hadmits hstaged htraced hcalls, hs.tags, hs.popularity,
          hs.warming⟩, fun w hw => lawful_written e.mappings hs.traced hw⟩
      · cases h
  | respond i =>
      simp only [Pod.step] at h
      split at h
      · rename_i c source hi
        have hc : '/' ∈ c.image := hs.traced.call i c (by rw [hi]; rfl)
        split at h
        · obtain ⟨popularity, hcount, rfl⟩ := Option.map_eq_some_iff.mp h
          refine ⟨⟨hs.staged, hs.traced, hs.tags, fun key hkey => ?_, hs.warming⟩, nofun⟩
          rcases keys_of_tracker_step hcount hkey with hkey | ⟨j, hj⟩
          · exact hs.popularity key hkey
          · cases hj
            exact List.mem_append_left _ (List.mem_append_left _ hc)
        · cases h
      · cases h
  | popularity l =>
      simp only [Pod.step] at h
      split at h
      · cases h
      · rename_i hl
        obtain ⟨popularity, hstep, rfl⟩ := Option.map_eq_some_iff.mp h
        refine ⟨⟨hs.staged, hs.traced, hs.tags, fun key hkey => ?_, hs.warming⟩, nofun⟩
        rcases keys_of_tracker_step hstep hkey with hkey | ⟨j, rfl⟩
        · exact hs.popularity key hkey
        · exact absurd rfl hl
  | tags i a =>
      obtain ⟨stage, hstage, rfl⟩ := Option.map_eq_some_iff.mp h
      obtain ⟨habout, hwrites⟩ := tags_step e.mappings (hs.tags i) hstage
      refine ⟨⟨hs.staged, hs.traced, ?_, hs.popularity, hs.warming⟩, hwrites⟩
      show ∀ j image, (Function.update pod.tags i stage.1 j).About image → '/' ∈ image
      rw [Function.forall_update_iff pod.tags fun _ x => ∀ image, x.About image → '/' ∈ image]
      exact ⟨habout, fun j _ => hs.tags j⟩
  | warming a =>
      obtain ⟨stage, hstage, rfl⟩ := Option.map_eq_some_iff.mp h
      obtain ⟨hsound, hwrites⟩ := warming_step hjson hcache hs.popularity hs.warming hstage
      exact ⟨⟨hs.staged, hs.traced, hs.tags, hs.popularity, hsound⟩, hwrites⟩
  | discovery a =>
      obtain ⟨d, hd, rfl⟩ := Option.map_eq_some_iff.mp h
      refine ⟨⟨hs.staged, hs.traced, hs.tags, hs.popularity, hs.warming⟩, fun w hw => ?_⟩
      dsimp only at hw
      split at hw
      · cases List.mem_singleton.mp hw
        exact rfl
      · cases hw

end Pods

/-! ## The control entries -/

/-- What the cache holds was written by one of the writers of the log, and the control entries only by their own. -/
structure Separated {cfg : Config} (s : SharedStore.State PodId (Pod cfg) Writer Text Entry) : Prop where
  entries : ∀ key entry, s.store key = some entry → ∃ w ∈ s.log, w.key = key ∧ w.value = some entry
  discovery : ∀ w ∈ s.log, w.key = discoveryCacheKey → w.writer = .persistToCache
  warmup : ∀ w ∈ s.log, w.key = warmupCacheKey → w.writer = .persistHotEntries

theorem Lawful.discovery {json : Json Mappings} {w : CacheWrite} (hw : Lawful json w)
    (h : w.key = discoveryCacheKey) : w.writer = .persistToCache := by
  obtain ⟨writer, key, value⟩ := w
  obtain rfl : key = discoveryCacheKey := h
  cases writer with
  | persistToCache => rfl
  | persistHotEntries => exact absurd hw.1.symm warmup_ne_discovery
  | _ => exact absurd hw not_dataKey_discovery

theorem Lawful.warmup {json : Json Mappings} {w : CacheWrite} (hw : Lawful json w) (h : w.key = warmupCacheKey) :
    w.writer = .persistHotEntries := by
  obtain ⟨writer, key, value⟩ := w
  obtain rfl : key = warmupCacheKey := h
  cases writer with
  | persistHotEntries => rfl
  | persistToCache => exact absurd hw warmup_ne_discovery
  | _ => exact absurd hw not_dataKey_warmup

/-- The keys of accepted requests are data keys. -/
theorem dataKey_of_accepted {a : CacheLookup} (h : CacheLookup.Accepted a) : DataKey a.key := by
  have hslash := h.slash
  cases a with
  | manifest image reference => exact dataKey_cacheKey hslash
  | image image => exact dataKey_imageKey image
  | tags image => exact dataKey_tagsKey hslash

/-- Requests cannot overwrite the control entries: in every run of any number of pods only discovery and the persisting
of hot entries write there, and no lookup of an accepted request has such a key. -/
theorem control_entries_kept (e : Settings) (s : SharedStore.State PodId (Pod e.cfg) Writer Text Entry)
    (hjson : e.mappings.Faithful HashMap.Same) (hs : (fleet e).machine.Reachable s) :
    Separated s ∧ ∀ a, CacheLookup.Accepted a → a.key ≠ discoveryCacheKey ∧ a.key ≠ warmupCacheKey := by
  have hsecured : SharedStore.Secured (Lawful e.mappings) Pod.Sound s :=
    SharedStore.reachable_secured (fun _ => Pod.sound_new e.cfg)
      (fun pod cache a r hpod hcache h => sound_step hjson hpod hcache h) hs
  refine ⟨⟨hsecured.store, fun w hw => (hsecured.log w hw).discovery, fun w hw => (hsecured.log w hw).warmup⟩,
    fun a ha => ⟨fun h => ?_, fun h => ?_⟩⟩
  · exact not_dataKey_discovery (h ▸ dataKey_of_accepted ha)
  · exact not_dataKey_warmup (h ▸ dataKey_of_accepted ha)

/-- The default settings, over JSON as `Lib.Json` writes it. -/
def deployed : Settings :=
  ⟨.default, 5, "http://harbor-core".toList, Json.object, Json.strings, Discovery.unmarshalPages⟩

/-- A request that finds nothing in the cache, from its lookup to the popularity of the manifest. -/
def firstPull : List (Action .default) :=
  [.request 0 "nginx/manifests/latest".toList [], .resolve (.get 0 1700000000), .resolve (.enter 0),
    .resolve (.looked 0 (oneProject 200)), .resolve (.fly 0 .send), .resolve (.fly 0 .remove), .resolve (.land 0),
    .resolve (.store 0 1700000000), .resolve (.storeImage 0), .respond 0, .popularity (.check 0)]

/-- A request for the manifest that is served from the cache. -/
def nextPull (i : CallId) : List (Action .default) :=
  [.request i "nginx/manifests/latest".toList [], .resolve (.get i 1700000030),
    .resolve (.fetched i fun _ => .response 200 [] []), .respond i, .popularity (.check i)]

/-- A pod discovers the projects, serves ten requests and persists its hot entries. -/
def firstPod : List (Action .default) :=
  [.discovery (.get true), .discovery .seed, .discovery (.fetched Discovery.oneProjectApi), .discovery (.persist true),
    .discovery .store, .warming (.get 1700000000 [])] ++ firstPull ++ (List.range' 1 9).flatMap nextPull ++
  [.warming (.tick ["library/nginx:latest".toList]), .warming .read, .warming .persist]

/-- A pod starts from what it finds in the cache. -/
def secondPod : List (Action .default) :=
  [.discovery (.get true), .discovery .seed, .warming (.get 1700000060 [("library/nginx:latest".toList, "a".toList)]),
    .warming .set, .warming .set]

def handedOver : SharedStore.State PodId (Pod .default) Writer Text Entry :=
  ((fleet deployed).machine.run (fleet deployed).machine.init (firstPod.map (.act 0) ++ secondPod.map (.act 1))).get
    (by decide +kernel)

theorem control_entries_kept_handedOver :
    handedOver.log.map Write.writer = [.persistToCache, .resolveManifest, .resolveManifest, .persistHotEntries,
        .warmCacheFromRedis, .warmCacheFromRedis] ∧
      Separated handedOver ∧ ∀ a, CacheLookup.Accepted a → a.key ≠ discoveryCacheKey ∧ a.key ≠ warmupCacheKey :=
  ⟨by decide +kernel, control_entries_kept deployed handedOver Json.object_faithful ⟨_, (Option.some_get _).symm⟩⟩

end HarborRouter.Fleet
