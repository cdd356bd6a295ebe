import HarborRouter.Metrics.TopImages
import HarborRouter.Resolver.Provenance
import HarborRouter.Resolver.Warmup

/-!
# When cached projects were confirmed

Any number of pods over one shared cache and one clock: their calls of `resolve_manifest` and refreshes, where a
lookup and the writes that follow it are one instant, their persisting of hot entries and their warming. A timestamp
in the cache is that of the write; persisting drops it and warming writes another.

* `FreshnessSound` : every timestamp in the cache is covered by an answer 200 of its project for its key;
* `sound_step` : a step keeps it exactly when it is `Backed`;
* `always_sound_iff` : so does a whole run.
-/

namespace HarborRouter.Manifest
open Lib Text

variable {cfg : Config}

structure Confirmation where
  project : Text
  key : Text
  time : Nat
  deriving DecidableEq

abbrev PodId := Nat

namespace Freshness

/-- `refreshing` are the refreshes that calls have spawned, `counts` the popularity state of every pod; `confirmed` is
read by no step. -/
structure State (cfg : Config) where
  cache : Cache
  now : Nat
  stage : CallId → Stage cfg
  refreshing : CallId → Option Call
  counts : PodId → Counts
  confirmed : List Confirmation

inductive Label (cfg : Config)
  | request (i : CallId) (path : Text) (accept : List Text)
  | fetched (i : CallId) (reply : Nat → Reply)
  | evict (i : CallId)
  | settle (i : CallId) (e : Singleflight.FlightEnd (Lookup cfg))
  | drop (i : CallId)
  | refresh (i : CallId) (f : Fanout cfg.maxFanout)
  | respond (i : CallId) (pod : PodId) (collected : List Text)
  | persist (pod : PodId) (order : List Text)
  | warm (order : List (Text × Text))
  | restart (pod : PodId)
  | expire (key : Text)
  | wait (d : Nat)

def storeWrites (cfg : Config) (now : Nat) (c : Call) : Except Text ResolveResult → List (Text × Option Entry)
  | .ok r => [(c.key, some (entryOf cfg now (.ok r))), (imageKey c.image, some ⟨r.project, none⟩)]
  | .error e => if isAllProjectsNon200 e then [(c.key, some (entryOf cfg now (.error e)))] else []

theorem settle_eq_storeWrites (w : World cfg) (c : Call) (result : Except Text ResolveResult) :
    w.settle c result = storeWrites cfg w.stored c result := by
  cases result <;> rfl

def refreshWrites (cfg : Config) (now : Nat) (c : Call) : Except Text ResolveResult → List (Text × Option Entry)
  | .ok r => [(c.key, some ⟨encodeCacheValue r.project now, some (cfg.cacheTtl + cfg.staleWhileRevalidate)⟩),
      (imageKey c.image, some ⟨r.project, none⟩)]
  | .error _ => []

/-- The lookup whose result a flight ends with. -/
def flown : Singleflight.FlightEnd (Lookup cfg) → Option (Lookup cfg)
  | .received l => some l
  | _ => none

namespace State
variable (s : State cfg)

def setStage (i : CallId) (st : Stage cfg) : State cfg := { s with stage := Function.update s.stage i st }

def confirm (key : Text) (projects : List Text) : State cfg :=
  { s with confirmed := s.confirmed ++ projects.map fun p => ⟨p, key, s.now⟩ }

def writes (ws : List (Text × Option Entry)) : State cfg := { s with cache := write s.cache ws }

end State

variable (cfg) (json : Json Mappings) (cacheWarmupTopN : Nat)

def step (s : State cfg) : Label cfg → Option (State cfg)
  | .request i path accept =>
      match s.stage i, parsePath path with
      | .absent, .ok (image, .manifests, reference) =>
          let c : Call := ⟨normalizeDockerLibraryImage image, reference, accept⟩
          some (s.setStage i (afterGet c s.now (s.cache c.key)))
      | _, _ => none
  | .fetched i reply =>
      match s.stage i with
      | .fetching c project stale =>
          match fetchManifestWithRetry cfg.retryMaxAttempts project reply with
          | .ok r =>
              if r.status = 200 then
                let t := (s.confirm c.key [project]).setStage i (.answered c (.cached r))
                some (if stale then { t with refreshing := Function.update t.refreshing i (some c) } else t)
              else some (s.setStage i (.evicting c 0))
          | .error _ => some (s.setStage i (.evicting c 0))
      | _ => none
  | .evict i =>
      match s.stage i with
      | .evicting c _ => some ((s.writes [(c.key, none)]).setStage i (.flying c))
      | _ => none
  | .settle i e =>
      match s.stage i with
      | .flying c =>
          match flown e with
          | some l =>
              if l.call.key = c.key then
                some (((s.confirm c.key (servers l.call l.fanout)).writes
                  (storeWrites cfg s.now c (outcome e))).setStage i (.answered c (.flight e)))
              else none
          | none => some ((s.writes (storeWrites cfg s.now c (outcome e))).setStage i (.answered c (.flight e)))
      | _ => none
  | .drop i => some (s.setStage i .cancelled)
  | .refresh i f =>
      match s.refreshing i with
      | some c =>
          let t := (s.confirm c.key (servers c f)).writes
            (refreshWrites cfg s.now c (f.parallelLookup c.image c.reference c.accept))
          some { t with refreshing := Function.update t.refreshing i none }
      | none => none
  | .respond i pod collected =>
      match s.stage i with
      | .answered c a =>
          match a.result c with
          | .ok _ =>
              ((s.counts pod).recordManifestRequest c.image c.reference collected).map fun m =>
                { s.setStage i .absent with counts := Function.update s.counts pod m }
          | .error _ => some (s.setStage i .absent)
      | _ => none
  | .persist pod order =>
      if (s.counts pod).IsOrder order then
        some { s with
          cache := persistHotEntries json cacheWarmupTopN
            ((s.counts pod).topManifestImages order cacheWarmupTopN) s.cache }
      else none
  | .warm order => (warmCacheFromRedis cfg json s.now order s.cache).map fun cache => { s with cache := cache }
  | .restart pod => some { s with counts := Function.update s.counts pod .empty }
  | .expire key => some (s.writes [(key, none)])
  | .wait d => if s.now + d < UInt64.size then some { s with now := s.now + d } else none

def init (start : Nat) : State cfg := ⟨fun _ => none, start, fun _ => .absent, fun _ => none, fun _ => .empty, []⟩

def machine (start : Nat) : Machine (State cfg) (Label cfg) := ⟨init cfg start, step cfg json cacheWarmupTopN⟩

variable {cfg json cacheWarmupTopN}

/-- The key of a manifest that a client can ask for. -/
def ManifestKey (key : Text) : Prop :=
  ∃ image reference, CacheLookup.Accepted (.manifest image reference) ∧ key = cacheKey image reference

/-- The entry is a miss, or it is read with a timestamp and its project has answered 200 since. -/
def Confirmed (cfg : Config) (log : List Confirmation) (key : Text) (entry : Entry) : Prop :=
  entry.value = negativeCacheSentinel ∨ ∃ ts, (readEntry cfg entry).2 = some ts ∧
    ∃ t, ts ≤ t ∧ ⟨(readEntry cfg entry).1, key, t⟩ ∈ log

/-- Every manifest entry is confirmed, and one that is taken for fresh was confirmed less than `cache_ttl` ago. -/
structure FreshnessSound (s : State cfg) : Prop where
  confirmed : ∀ key entry, ManifestKey key → s.cache key = some entry → Confirmed cfg s.confirmed key entry
  timely : ∀ key entry, ManifestKey key → s.cache key = some entry → entry.value ≠ negativeCacheSentinel →
    isStale cfg s.now (readEntry cfg entry).2 = false →
      ∃ t, s.now ≤ t + cfg.cacheTtl / 1000 ∧ ⟨(readEntry cfg entry).1, key, t⟩ ∈ s.confirmed

/-- The project is written with its timestamp under the key of the call, and alone under that of its image. Without a
`|` it is read back as it is, and what is written alone never carries a timestamp, so that under the key of a manifest
it could only be a miss. -/
def StoresBacked (c : Call) (project : Text) : Prop :=
  '|' ∉ project ∧ (ManifestKey (imageKey c.image) → project = negativeCacheSentinel)

/-- What the step writes is read back with its timestamp, and what is warmed was confirmed in that very second. -/
def Backed (s : State cfg) : Label cfg → Prop
  | .settle i e => ∀ c r, s.stage i = .flying c → outcome e = .ok r → StoresBacked c r.project
  | .refresh i f => ∀ c r, s.refreshing i = some c → f.parallelLookup c.image c.reference c.accept = .ok r →
      StoresBacked c r.project
  | .warm order => ∀ mapping ∈ order, isSafeProjectName mapping.2 = true → ManifestKey mapping.1 →
      '|' ∉ mapping.2 ∧ ⟨mapping.2, mapping.1, s.now⟩ ∈ s.confirmed
  | _ => True

structure Timed (s : State cfg) : Prop where
  clock : s.now < UInt64.size
  confirmed : ∀ x ∈ s.confirmed, x.time ≤ s.now
  call : ∀ i c, (s.stage i).About c → CacheLookup.Accepted (.manifest c.image c.reference)
  refresh : ∀ i c, s.refreshing i = some c → CacheLookup.Accepted (.manifest c.image c.reference)

/-! ## Keys and entries -/

section Entries
variable {log : List Confirmation} {key project : Text} {now : Nat} {c : Call}

theorem manifestKey_call (hc : CacheLookup.Accepted (.manifest c.image c.reference)) : ManifestKey c.key :=
  ⟨c.image, c.reference, hc, rfl⟩

theorem not_manifestKey_warmup : ¬ ManifestKey warmupCacheKey := by
  rintro ⟨image, reference, hc, h⟩
  have hslash : '/' ∈ warmupCacheKey := by
    rw [h, CacheLookup.cacheKey_eq]
    exact List.mem_append_left _ hc.slash
  exact absurd hslash (by decide)

theorem cacheKey_ne_own_imageKey {image reference : Text} (hslash : '/' ∈ image) :
    cacheKey image reference ≠ imageKey image := by
  intro h
  rw [CacheLookup.cacheKey_eq] at h
  -- the image would go on with `:` for ever
  induction hn : image.length using Nat.strong_induction_on generalizing image with
  | _ n ih =>
      obtain ⟨part, rfl, hpart⟩ := CacheLookup.manifest_meets CacheLookup.img_noSlash hslash h
      have hslash' : '/' ∈ part := by
        rcases List.mem_append.mp hslash with hm | hm
        · exact absurd hm CacheLookup.img_noSlash
        · exact (List.mem_cons.mp hm).resolve_left (by decide)
      refine ih part.length ?_ hslash' hpart.symm rfl
      rw [← hn, List.length_append, List.length_cons]
      omega

theorem Confirmed.mono {log' : List Confirmation} {entry : Entry} (hsub : log ⊆ log')
    (h : Confirmed cfg log key entry) : Confirmed cfg log' key entry :=
  h.imp_right fun ⟨ts, hts, t, ht, hm⟩ => ⟨ts, hts, t, ht, hsub hm⟩

theorem confirmed_encode_iff (hswr : cfg.staleWhileRevalidate ≠ 0) (hnow : now < UInt64.size) {ttl : Option Nat} :
    Confirmed cfg log key ⟨encodeCacheValue project now, ttl⟩ ↔
      '|' ∉ project ∧ ∃ t, now ≤ t ∧ ⟨project, key, t⟩ ∈ log := by
  rw [Confirmed, or_iff_right (encode_ne_sentinel project now), readEntry, if_neg hswr]
  by_cases hbar : '|' ∈ project
  · rw [decode_encode_of_bar hbar]
    exact iff_of_false (by simp) fun h => h.1 hbar
  · rw [decode_encode hbar hnow, and_iff_right hbar]
    simp

theorem confirmed_bare_iff (hbar : '|' ∉ project) :
    Confirmed cfg log key ⟨project, none⟩ ↔ project = negativeCacheSentinel := by
  have hread : (readEntry cfg ⟨project, none⟩).2 = none := by
    unfold readEntry
    split
    · rfl
    · rw [decode_raw hbar]
  rw [Confirmed, hread]
  simp

/-- Nothing was confirmed in the future, so what was confirmed since `now` was confirmed at `now`. -/
theorem exists_confirmed_iff (htime : ∀ x ∈ log, x.time ≤ now) :
    (∃ t, now ≤ t ∧ ⟨project, key, t⟩ ∈ log) ↔ ⟨project, key, now⟩ ∈ log := by
  constructor
  · rintro ⟨t, hle, hm⟩
    have hge : t ≤ now := htime _ hm
    rwa [Nat.le_antisymm hle hge]
  · exact fun hm => ⟨now, Nat.le_refl now, hm⟩

theorem timely_of_confirmed (hswr : cfg.staleWhileRevalidate ≠ 0) {entry : Entry} (h : Confirmed cfg log key entry)
    (hne : entry.value ≠ negativeCacheSentinel) (hstale : isStale cfg now (readEntry cfg entry).2 = false) :
    ∃ t, now ≤ t + cfg.cacheTtl / 1000 ∧ ⟨(readEntry cfg entry).1, key, t⟩ ∈ log := by
  obtain ⟨ts, hts, t, hle, hm⟩ := h.resolve_left hne
  have hfresh : ¬ cfg.cacheTtl / 1000 < now - ts := by
    intro hlt
    rw [isStale, hts] at hstale
    simp [hswr, hlt] at hstale
  exact ⟨t, by omega, hm⟩

end Entries

/-! ## Steps -/

def AllConfirmed (s : State cfg) : Prop :=
  ∀ key entry, ManifestKey key → s.cache key = some entry → Confirmed cfg s.confirmed key entry

variable {s t : State cfg} {l : Label cfg}

theorem sound_iff (hswr : cfg.staleWhileRevalidate ≠ 0) : FreshnessSound s ↔ AllConfirmed s :=
  ⟨fun h => h.confirmed, fun h => ⟨h, fun _ _ hkey he hne hstale =>
    timely_of_confirmed hswr (h _ _ hkey he) hne hstale⟩⟩

inductive Stepped (json : Json Mappings) (topN : Nat) (s : State cfg) : Label cfg → State cfg → Prop
  | request (i : CallId) (path : Text) (accept : List Text) (c : Call)
      (hc : CacheLookup.Accepted (.manifest c.image c.reference)) :
      Stepped json topN s (.request i path accept) (s.setStage i (afterGet c s.now (s.cache c.key)))
  | answered (i : CallId) (reply : Nat → Reply) (c : Call) (project : Text) (stale : Bool) (r : ResolveResult)
      (task : CallId → Option Call) (hi : s.stage i = .fetching c project stale)
      (htask : task = if stale then Function.update s.refreshing i (some c) else s.refreshing) :
      Stepped json topN s (.fetched i reply)
        { (s.confirm c.key [project]).setStage i (.answered c (.cached r)) with refreshing := task }
  | failed (i : CallId) (reply : Nat → Reply) (c : Call) (project : Text) (stale : Bool)
      (hi : s.stage i = .fetching c project stale) :
      Stepped json topN s (.fetched i reply) (s.setStage i (.evicting c 0))
  | evict (i : CallId) (c : Call) (observed : Nat) (hi : s.stage i = .evicting c observed) :
      Stepped json topN s (.evict i) ((s.writes [(c.key, none)]).setStage i (.flying c))
  | received (i : CallId) (e : Singleflight.FlightEnd (Lookup cfg)) (c : Call) (l : Lookup cfg)
      (hi : s.stage i = .flying c) (hl : flown e = some l) (hkey : l.call.key = c.key) :
      Stepped json topN s (.settle i e) (((s.confirm c.key (servers l.call l.fanout)).writes
        (storeWrites cfg s.now c (outcome e))).setStage i (.answered c (.flight e)))
  | lost (i : CallId) (e : Singleflight.FlightEnd (Lookup cfg)) (c : Call) (hi : s.stage i = .flying c)
      (hl : flown e = none) :
      Stepped json topN s (.settle i e)
        ((s.writes (storeWrites cfg s.now c (outcome e))).setStage i (.answered c (.flight e)))
  | drop (i : CallId) : Stepped json topN s (.drop i) (s.setStage i .cancelled)
  | refresh (i : CallId) (f : Fanout cfg.maxFanout) (c : Call) (hi : s.refreshing i = some c) :
      Stepped json topN s (.refresh i f) { (s.confirm c.key (servers c f)).writes
        (refreshWrites cfg s.now c (f.parallelLookup c.image c.reference c.accept)) with
        refreshing := Function.update s.refreshing i none }
  | respond (i : CallId) (pod : PodId) (collected : List Text) (counts : PodId → Counts) :
      Stepped json topN s (.respond i pod collected) { s.setStage i .absent with counts := counts }
  | persist (pod : PodId) (order : List Text) :
      Stepped json topN s (.persist pod order) { s with
        cache := persistHotEntries json topN ((s.counts pod).topManifestImages order topN) s.cache }
  | warm (order : List (Text × Text)) (mappings : Mappings) (hperm : order.Perm mappings.entries) :
      Stepped json topN s (.warm order) { s with cache := write s.cache (order.flatMap (warmWrites cfg s.now)) }
  | restart (pod : PodId) : Stepped json topN s (.restart pod)
      { s with counts := Function.update s.counts pod .empty }
  | expire (key : Text) : Stepped json topN s (.expire key) (s.writes [(key, none)])
  | wait (d : Nat) (hclock : s.now + d < UInt64.size) : Stepped json topN s (.wait d) { s with now := s.now + d }

theorem stepped_of_step {json : Json Mappings} {topN : Nat} (h : step cfg json topN s l = some t) :
    Stepped json topN s l t := by
  cases l with
  | request i path accept =>
      simp only [step] at h
      split at h
      · rename_i image reference _ hpath
        cases h
        exact .request i path accept ⟨normalizeDockerLibraryImage image, reference, accept⟩
          (.manifest (by decide) hpath)
      · cases h
  | fetched i reply =>
      simp only [step] at h
      split at h
      · rename_i c project stale hi
        split at h
        · rename_i r _
          split at h
          · cases h
            cases stale with
            | true => exact .answered i reply c project true r _ hi rfl
            | false => exact .answered i reply c project false r _ hi rfl
          · cases h
            exact .failed i reply c project stale hi
        · cases h
          exact .failed i reply c project stale hi
      · cases h
  | evict i =>
      simp only [step] at h
      split at h
      · rename_i c observed hi
        cases h
        exact .evict i c observed hi
      · cases h
  | settle i e =>
      simp only [step] at h
      split at h
      · rename_i c hi
        split at h
        · rename_i l hl
          split at h
          · rename_i hkey
            cases h
            exact .received i e c l hi hl hkey
          · cases h
        · rename_i hl
          cases h
          exact .lost i e c hi hl
      · cases h
  | drop i =>
      cases h
      exact .drop i
  | refresh i f =>
      simp only [step] at h
      split at h
      · rename_i c hi
        cases h
        exact .refresh i f c hi
      · cases h
  | respond i pod collected =>
      simp only [step] at h
      split at h
      · split at h
        · obtain ⟨m, -, rfl⟩ := Option.map_eq_some_iff.mp h
          exact .respond i pod collected _
        · cases h
          exact .respond i pod collected s.counts
      · cases h
  | persist pod order =>
      simp only [step] at h
      split at h
      · cases h
        exact .persist pod order
      · cases h
  | warm order =>
      obtain ⟨cache, hwarm, rfl⟩ := Option.map_eq_some_iff.mp h
      obtain ⟨⟨mappings, hperm⟩, rfl⟩ := warmCacheFromRedis_cases hwarm
      exact .warm order mappings hperm
  | restart pod =>
      cases h
      exact .restart pod
  | expire key =>
      cases h
      exact .expire key
  | wait d =>
      simp only [step] at h
      split at h
      · rename_i hclock
        cases h
        exact .wait d hclock
      · cases h

/-- The step writes nothing under manifest keys but misses, and forgets no confirmation. -/
structure Calm (s t : State cfg) : Prop where
  cache : ∀ key entry, ManifestKey key → t.cache key = some entry →
    s.cache key = some entry ∨ entry.value = negativeCacheSentinel
  log : s.confirmed ⊆ t.confirmed

theorem Calm.of_eq (hcache : t.cache = s.cache) (hlog : s.confirmed ⊆ t.confirmed) : Calm s t :=
  ⟨fun _ _ _ he => .inl (hcache ▸ he), hlog⟩

theorem Calm.of_update {key : Text} {entry : Option Entry} (hcache : t.cache = Function.update s.cache key entry)
    (hlog : s.confirmed ⊆ t.confirmed) (hentry : ∀ e, entry = some e → e.value = negativeCacheSentinel) :
    Calm s t := by
  refine ⟨fun k e _ he => ?_, hlog⟩
  rw [hcache] at he
  by_cases hk : k = key
  · subst hk
    rw [Function.update_self] at he
    exact .inr (hentry e he)
  · rw [Function.update_of_ne hk] at he
    exact .inl he

theorem Calm.allConfirmed (h : Calm s t) (hs : AllConfirmed s) : AllConfirmed t := by
  intro key entry hkey he
  rcases h.cache key entry hkey he with he | hne
  · exact (hs key entry hkey he).mono h.log
  · exact .inl hne

inductive Effect (s t : State cfg) (l : Label cfg) : Prop
  | calm (h : Calm s t) (hbacked : Backed s l)
  | stores (c : Call) (project : Text) (ttl : Option Nat) (projects : List Text)
      (hc : CacheLookup.Accepted (.manifest c.image c.reference)) (hp : project ∈ projects)
      (hcache : t.cache = write s.cache [(c.key, some ⟨encodeCacheValue project s.now, ttl⟩),
        (imageKey c.image, some ⟨project, none⟩)])
      (hlog : t.confirmed = s.confirmed ++ projects.map fun p => ⟨p, c.key, s.now⟩)
      (hbacked : Backed s l ↔ StoresBacked c project)
  | warms (order : List (Text × Text)) (mappings : Mappings) (hl : l = .warm order)
      (hperm : order.Perm mappings.entries)
      (hcache : t.cache = write s.cache (order.flatMap (warmWrites cfg s.now))) (hlog : t.confirmed = s.confirmed)

theorem calm_persist (json : Json Mappings) (topN : Nat) (top : List (Text × Nat)) (hcache : t.cache =
    persistHotEntries json topN top s.cache) (hlog : t.confirmed = s.confirmed) : Calm s t := by
  refine ⟨fun key entry hkey he => .inl ?_, by rw [hlog]; exact List.Subset.refl _⟩
  have hne : key ≠ warmupCacheKey := fun h => not_manifestKey_warmup (h ▸ hkey)
  rwa [hcache, persistHotEntries_of_ne _ _ _ _ hne] at he

theorem calm_storeWrites_error (c : Call) (e : Text)
    (hcache : t.cache = write s.cache (storeWrites cfg s.now c (.error e))) (hlog : s.confirmed ⊆ t.confirmed) :
    Calm s t := by
  unfold storeWrites at hcache
  dsimp only at hcache
  split at hcache
  · refine Calm.of_update hcache hlog fun entry he => ?_
    cases he
    rfl
  · exact Calm.of_eq hcache hlog

/-- With stale-while-revalidate a call stores what a refresh stores. -/
theorem storeWrites_ok (hswr : cfg.staleWhileRevalidate ≠ 0) (now : Nat) (c : Call) (r : ResolveResult) :
    storeWrites cfg now c (.ok r) = refreshWrites cfg now c (.ok r) := by
  rw [storeWrites, refreshWrites, entryOf, if_neg hswr]

theorem outcome_of_lost {e : Singleflight.FlightEnd (Lookup cfg)} (hl : flown e = none) :
    ∃ err, outcome e = .error err := by
  cases e with
  | received l => cases hl
  | timedOut | leaderDropped | emptyResult => exact ⟨_, rfl⟩

theorem outcome_of_received {e : Singleflight.FlightEnd (Lookup cfg)} {l : Lookup cfg} (hl : flown e = some l) :
    outcome e = l.result := by
  cases e <;> cases hl
  rfl

theorem backed_settle {i : CallId} {e : Singleflight.FlightEnd (Lookup cfg)} {c : Call} {r : ResolveResult}
    (hi : s.stage i = .flying c) (hr : outcome e = .ok r) :
    Backed s (.settle i e) ↔ StoresBacked c r.project := by
  refine ⟨fun h => h c r hi hr, ?_⟩
  rintro h c' r' hi' hr'
  rw [hi] at hi'
  rw [hr] at hr'
  cases hi'
  cases hr'
  exact h

theorem backed_settle_error {i : CallId} {e : Singleflight.FlightEnd (Lookup cfg)} {err : Text}
    (herr : outcome e = .error err) : Backed s (.settle i e) := by
  intro c r _ hr
  rw [herr] at hr
  cases hr

theorem backed_refresh {i : CallId} {f : Fanout cfg.maxFanout} {c : Call} {r : ResolveResult}
    (hi : s.refreshing i = some c) (hr : f.parallelLookup c.image c.reference c.accept = .ok r) :
    Backed s (.refresh i f) ↔ StoresBacked c r.project := by
  refine ⟨fun h => h c r hi hr, ?_⟩
  rintro h c' r' hi' hr'
  rw [hi] at hi'
  cases hi'
  rw [hr] at hr'
  cases hr'
  exact h

theorem effect_of_step (hswr : cfg.staleWhileRevalidate ≠ 0) {json : Json Mappings} {topN : Nat} (hs : Timed s)
    (h : step cfg json topN s l = some t) : Effect s t l := by
  cases stepped_of_step h with
  | request | failed | drop | respond | restart | wait => exact .calm (.of_eq rfl (List.Subset.refl _)) trivial
  | answered i reply c project stale r task hi =>
      exact .calm (.of_eq rfl (List.subset_append_left ..)) trivial
  | evict i c observed hi => exact .calm (.of_update rfl (List.Subset.refl _) nofun) trivial
  | expire key => exact .calm (.of_update rfl (List.Subset.refl _) nofun) trivial
  | received i e c l hi hl hkey =>
      cases hresult : outcome e with
      | error err =>
          exact .calm (calm_storeWrites_error c err (by rw [← hresult]; rfl) (List.subset_append_left ..))
            (backed_settle_error hresult)
      | ok r =>
          have hfound : l.result = .ok r := (outcome_of_received hl).symm.trans hresult
          refine .stores c r.project (some (cfg.cacheTtl + cfg.staleWhileRevalidate)) (servers l.call l.fanout)
            (hs.call i c (by rw [hi]; rfl)) (project_mem_servers hfound) ?_ rfl (backed_settle hi hresult)
          rw [storeWrites_ok hswr]
          rfl
  | lost i e c hi hl =>
      obtain ⟨err, hresult⟩ := outcome_of_lost hl
      exact .calm (calm_storeWrites_error c err (by rw [← hresult]; rfl) (List.Subset.refl _))
        (backed_settle_error hresult)
  | refresh i f c hi =>
      cases hresult : f.parallelLookup c.image c.reference c.accept with
      | error err =>
          refine .calm (.of_eq rfl (List.subset_append_left ..)) ?_
          intro c' r hi' hr
          rw [hi] at hi'
          cases hi'
          rw [hresult] at hr
          cases hr
      | ok r =>
          exact .stores c r.project (some (cfg.cacheTtl + cfg.staleWhileRevalidate)) (servers c f)
            (hs.refresh i c hi) (project_mem_servers hresult) rfl rfl (backed_refresh hi hresult)
  | persist pod order => exact .calm (calm_persist json topN _ rfl rfl) trivial
  | warm order mappings hperm => exact .warms order mappings rfl hperm rfl rfl

theorem allConfirmed_stores (hswr : cfg.staleWhileRevalidate ≠ 0) (htimed : Timed s) (hs : AllConfirmed s) {c : Call}
    {project : Text} {ttl : Option Nat} {projects : List Text}
    (hc : CacheLookup.Accepted (.manifest c.image c.reference)) (hp : project ∈ projects)
    (hcache : t.cache = write s.cache [(c.key, some ⟨encodeCacheValue project s.now, ttl⟩),
      (imageKey c.image, some ⟨project, none⟩)])
    (hlog : t.confirmed = s.confirmed ++ projects.map fun p => ⟨p, c.key, s.now⟩) :
    AllConfirmed t ↔ StoresBacked c project := by
  have hne : c.key ≠ imageKey c.image := cacheKey_ne_own_imageKey hc.slash
  have hself : t.cache (imageKey c.image) = some ⟨project, none⟩ := by
    rw [hcache]
    exact Function.update_self ..
  have hkey : t.cache c.key = some ⟨encodeCacheValue project s.now, ttl⟩ := by
    rw [hcache]
    exact (Function.update_of_ne hne ..).trans (Function.update_self ..)
  have hother : ∀ key, key ≠ c.key → key ≠ imageKey c.image → t.cache key = s.cache key := by
    intro key h1 h2
    rw [hcache]
    exact (Function.update_of_ne h2 ..).trans (Function.update_of_ne h1 ..)
  have hthis : Confirmed cfg t.confirmed c.key ⟨encodeCacheValue project s.now, ttl⟩ ↔ '|' ∉ project := by
    rw [confirmed_encode_iff hswr htimed.clock]
    refine and_iff_left ⟨s.now, Nat.le_refl _, ?_⟩
    rw [hlog]
    exact List.mem_append_right _ (List.mem_map.mpr ⟨project, hp, rfl⟩)
  constructor
  · intro h
    have hbar := hthis.mp (h _ _ (manifestKey_call hc) hkey)
    exact ⟨hbar, fun hm => (confirmed_bare_iff hbar).mp (h _ _ hm hself)⟩
  · rintro ⟨hbar, hbacked⟩ key entry hm he
    by_cases h1 : key = imageKey c.image
    · subst h1
      rw [hself] at he
      cases he
      exact (confirmed_bare_iff hbar).mpr (hbacked hm)
    · by_cases h2 : key = c.key
      · subst h2
        rw [hkey] at he
        cases he
        exact hthis.mpr hbar
      · rw [hother key h2 h1] at he
        refine (hs key entry hm he).mono ?_
        rw [hlog]
        exact List.subset_append_left ..

theorem allConfirmed_warms (hswr : cfg.staleWhileRevalidate ≠ 0) (htimed : Timed s) (hs : AllConfirmed s)
    {order : List (Text × Text)} {mappings : Mappings} (hperm : order.Perm mappings.entries)
    (hcache : t.cache = write s.cache (order.flatMap (warmWrites cfg s.now))) (hlog : t.confirmed = s.confirmed) :
    AllConfirmed t ↔ Backed s (.warm order) := by
  have hwarmed : ∀ project key, Confirmed cfg s.confirmed key (warmedEntry cfg s.now project) ↔
      '|' ∉ project ∧ ⟨project, key, s.now⟩ ∈ s.confirmed := by
    intro project key
    rw [warmedEntry, if_neg hswr, confirmed_encode_iff hswr htimed.clock, exists_confirmed_iff htimed.confirmed]
  constructor
  · intro h mapping hm hsafe hkey
    obtain ⟨image, reference, hc, he⟩ := hkey
    obtain ⟨key, project⟩ := mapping
    obtain rfl : key = cacheKey image reference := he
    have hentry : write s.cache (order.flatMap (warmWrites cfg s.now)) (cacheKey image reference) =
        some (warmedEntry cfg s.now project) :=
      warmed_manifest hperm hc.slash (hperm.mem_iff.mp hm) hsafe
    refine (hwarmed project _).mp ?_
    rw [← hlog]
    exact h _ _ ⟨image, reference, hc, rfl⟩ (by rw [hcache]; exact hentry)
  · intro h key entry hkey he
    rw [hcache] at he
    rw [hlog]
    rcases foldl_update_cases s.cache (order.flatMap (warmWrites cfg s.now)) key with
      ⟨w, hw, hwkey, hwrite⟩ | ⟨-, hwrite⟩
    · obtain ⟨mapping, hm, hw⟩ := List.mem_flatMap.mp hw
      obtain ⟨hsafe, rfl | rfl⟩ := mem_warmWrites.mp hw
      · obtain rfl : mapping.1 = key := hwkey
        cases (hwrite.symm.trans he)
        exact (hwarmed _ _).mpr (h mapping hm hsafe hkey)
      · obtain ⟨image, reference, hc, rfl⟩ := hkey
        exact absurd hwkey.symm (cacheKey_ne_imageKey_of_noColon hc.slash (notMem_firstPart ':' _))
    · exact hs key entry hkey (hwrite.symm.trans he)

theorem sound_step (hswr : cfg.staleWhileRevalidate ≠ 0) {json : Json Mappings} {topN : Nat} (htimed : Timed s)
    (hs : AllConfirmed s) (h : step cfg json topN s l = some t) : AllConfirmed t ↔ Backed s l := by
  cases effect_of_step hswr htimed h with
  | calm hcalm hbacked => exact iff_of_true (hcalm.allConfirmed hs) hbacked
  | stores c project ttl projects hc hp hcache hlog hbacked =>
      rw [hbacked]
      exact allConfirmed_stores hswr htimed hs hc hp hcache hlog
  | warms order mappings hl hperm hcache hlog =>
      rw [hl]
      exact allConfirmed_warms hswr htimed hs hperm hcache hlog

/-! ## Runs -/

theorem timed_init {start : Nat} (hstart : start < UInt64.size) : Timed (init cfg start) where
  clock := hstart
  confirmed _ hx := absurd hx List.not_mem_nil
  call _ _ h := h.elim
  refresh _ _ h := nomatch h

theorem Timed.confirm (hs : Timed s) (key : Text) (projects : List Text) : Timed (s.confirm key projects) := by
  refine ⟨hs.clock, fun x hx => ?_, hs.call, hs.refresh⟩
  rcases List.mem_append.mp hx with hx | hx
  · exact hs.confirmed x hx
  · obtain ⟨p, -, rfl⟩ := List.mem_map.mp hx
    exact Nat.le_refl s.now

theorem Timed.writes (hs : Timed s) (ws : List (Text × Option Entry)) : Timed (s.writes ws) :=
  ⟨hs.clock, hs.confirmed, hs.call, hs.refresh⟩

theorem Timed.setStage (hs : Timed s) {i : CallId} {st : Stage cfg}
    (hst : ∀ c, st.About c → CacheLookup.Accepted (.manifest c.image c.reference)) : Timed (s.setStage i st) := by
  refine ⟨hs.clock, hs.confirmed, ?_, hs.refresh⟩
  show ∀ j c, (Function.update s.stage i st j).About c → _
  rw [Function.forall_update_iff s.stage fun _ x => ∀ c, x.About c →
    CacheLookup.Accepted (.manifest c.image c.reference)]
  exact ⟨hst, fun j _ => hs.call j⟩

theorem Timed.goOn (hs : Timed s) {i : CallId} {c : Call} {st : Stage cfg}
    (hc : CacheLookup.Accepted (.manifest c.image c.reference)) (hst : ∀ c', st.About c' → c = c') :
    Timed (s.setStage i st) :=
  hs.setStage fun c' h => hst c' h ▸ hc

theorem Timed.setRefreshing (hs : Timed s) {i : CallId} {task : Option Call}
    (htask : ∀ c, task = some c → CacheLookup.Accepted (.manifest c.image c.reference)) :
    Timed { s with refreshing := Function.update s.refreshing i task } := by
  refine ⟨hs.clock, hs.confirmed, hs.call, ?_⟩
  show ∀ j c, Function.update s.refreshing i task j = some c → _
  rw [Function.forall_update_iff s.refreshing fun _ x => ∀ c, x = some c →
    CacheLookup.Accepted (.manifest c.image c.reference)]
  exact ⟨htask, fun j _ => hs.refresh j⟩

theorem timed_step {json : Json Mappings} {topN : Nat} (hs : Timed s) (h : step cfg json topN s l = some t) :
    Timed t := by
  cases stepped_of_step h with
  | request i path accept c hc => exact hs.goOn hc fun _ => afterGet_about
  | answered i reply c project stale r task hi htask =>
      have hc := hs.call i c (by rw [hi]; rfl)
      have hanswered : Timed ((s.confirm c.key [project]).setStage i (.answered c (.cached r))) :=
        (hs.confirm c.key [project]).goOn hc fun _ => id
      subst htask
      cases stale with
      | true => exact hanswered.setRefreshing fun c' hc' => by cases hc'; exact hc
      | false => exact hanswered
  | failed i reply c project stale hi => exact hs.goOn (hs.call i c (by rw [hi]; rfl)) fun _ => id
  | evict i c observed hi => exact (hs.writes _).goOn (hs.call i c (by rw [hi]; rfl)) fun _ => id
  | received i e c l hi => exact ((hs.confirm _ _).writes _).goOn (hs.call i c (by rw [hi]; rfl)) fun _ => id
  | lost i e c hi => exact (hs.writes _).goOn (hs.call i c (by rw [hi]; rfl)) fun _ => id
  | drop i => exact hs.setStage fun _ => False.elim
  | refresh i f c hi => exact ((hs.confirm _ _).writes _).setRefreshing nofun
  | respond i pod collected counts =>
      have hover : Timed (s.setStage i .absent) := hs.setStage fun _ => False.elim
      exact ⟨hover.clock, hover.confirmed, hover.call, hover.refresh⟩
  | persist | warm | restart => exact ⟨hs.clock, hs.confirmed, hs.call, hs.refresh⟩
  | expire key => exact hs.writes _
  | wait d hclock => exact ⟨hclock, fun x hx => (hs.confirmed x hx).trans (Nat.le_add_right ..), hs.call, hs.refresh⟩

/-- Every entry is confirmed throughout exactly when every step is backed. -/
theorem always_sound_iff (cfg : Config) (json : Json Mappings) (cacheWarmupTopN start : Nat) (ls : List (Label cfg))
    (hswr : cfg.staleWhileRevalidate ≠ 0) (hstart : start < UInt64.size) :
    (machine cfg json cacheWarmupTopN start).Always FreshnessSound (init cfg start) ls ↔
      (machine cfg json cacheWarmupTopN start).Guarded Backed (init cfg start) ls := by
  refine Machine.always_iff_guarded (I := Timed) (fun s l t hs h => timed_step hs h) (fun s l t htimed hs h => ?_)
    (timed_init hstart) ((sound_iff hswr).mpr fun _ _ _ he => nomatch he)
  rw [sound_iff hswr] at hs ⊢
  exact sound_step hswr htimed hs h

/-- A fan-out, an answer to every other request, and a pod that warms its cache a minute after the last of them. -/
def restarted : List (Label .default) :=
  [.request 0 "nginx/manifests/latest".toList [],
    .settle 0 (.received ⟨⟨"library/nginx".toList, "latest".toList, []⟩, oneProject 200, 0⟩), .respond 0 0 []] ++
  (List.replicate 9 [.request 0 "nginx/manifests/latest".toList [], .fetched 0 fun _ => .response 200 [] [],
    .respond 0 0 []]).flatten ++
  [.persist 0 ["library/nginx:latest".toList], .wait 60, .warm [("library/nginx:latest".toList, "a".toList)]]

theorem isSome_restarted :
    ((machine .default Json.object 5 1700000000).run (init .default 1700000000) restarted).isSome = true := by
  decide +kernel

theorem always_sound_iff_restarted :
    (machine .default Json.object 5 1700000000).Always FreshnessSound (init .default 1700000000) restarted ↔
      (machine .default Json.object 5 1700000000).Guarded Backed (init .default 1700000000) restarted :=
  always_sound_iff .default Json.object 5 1700000000 restarted (by decide) (by decide)

/-- The warmed entry carries the time of the warming, and its project has not answered since. -/
theorem restarted_unconfirmed : ¬ ∀ (cfg : Config) (json : Json Mappings) (cacheWarmupTopN start : Nat)
    (ls : List (Label cfg)), json.Faithful HashMap.Same → cfg.staleWhileRevalidate ≠ 0 → start < UInt64.size →
      (machine cfg json cacheWarmupTopN start).Always FreshnessSound (init cfg start) ls := by
  intro h
  let last := ((machine .default Json.object 5 1700000000).run (init .default 1700000000) restarted).get
    isSome_restarted
  have hsound : FreshnessSound last :=
    (h .default Json.object 5 1700000000 restarted Json.object_faithful (by decide) (by decide)).last
      (Option.some_get _).symm
  have hcache : last.cache "library/nginx:latest".toList = some ⟨"a|1700000060".toList, some 360000⟩ := by
    decide +kernel
  have hparse : parsePath "nginx/manifests/latest".toList = .ok ("nginx".toList, .manifests, "latest".toList) := by
    decide
  have hkey : ManifestKey "library/nginx:latest".toList :=
    ⟨"library/nginx".toList, "latest".toList, .manifest (by decide) hparse, rfl⟩
  have hbefore : ∀ x ∈ last.confirmed, x.time ≤ 1700000000 := by decide +kernel
  obtain ⟨ts, hts, t, hle, hm⟩ := (hsound.confirmed _ _ hkey hcache).resolve_left (by decide)
  have hlast := hbefore _ hm
  obtain rfl : 1700000060 = ts := Option.some.inj hts
  exact absurd (hle.trans hlast) (by decide)

end Freshness
end HarborRouter.Manifest
