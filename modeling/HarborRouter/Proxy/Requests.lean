import HarborRouter.CircuitBreaker.History
import HarborRouter.Proxy.Blob
import HarborRouter.Resolver.Tags
import Mathlib.Data.Finset.Card

/-!
# What client requests ask of the upstream

A client request for a manifest, a tag list or a blob, the projects it asks because the cache names them, and its
fan-outs. Only the fan-outs for manifests ask the circuit breaker, and those for blobs are not limited.

* `avoids_iff` : when a request leaves a project with an open circuit alone;
* `spares_iff_skips` : the same along a run of requests;
* `limited_iff` : when the fan-outs of a request keep to `max_fanout`.
-/

namespace HarborRouter
open Lib Text Manifest

namespace BlobUpstream
variable (u : BlobUpstream)

def gets (project : Text) : List Text := if isSafeProjectName project then [project] else []

def probed : List Text := u.discovered.filter isSafeProjectName

/-- What `handle_blob` answers, and what it asks of the upstream. -/
def trace (cache : Cache) (image digest : Text) : Trace Response (List Text) :=
  match cachedProject cache image digest with
  | some project => ⟨u.proxyBlob project, [], gets project, []⟩
  | none =>
      match u.probeBlobProject image digest with
      | .ok project => ⟨u.proxyBlob project, [], gets project, [u.probed]⟩
      | .error _ => ⟨errorResponse 404 "BLOB_UNKNOWN".toList "requested blob not found".toList, [], [], [u.probed]⟩

theorem trace_result (cache : Cache) (image digest : Text) :
    (u.trace cache image digest).result = u.handleBlob cache image digest := by
  unfold trace handleBlob
  cases cachedProject cache image digest with
  | some project => rfl
  | none =>
      dsimp only
      cases u.probeBlobProject image digest <;> rfl

theorem trace_writes (cache : Cache) (image digest : Text) : (u.trace cache image digest).writes = [] := by
  unfold trace
  cases cachedProject cache image digest with
  | some project => rfl
  | none =>
      dsimp only
      cases u.probeBlobProject image digest <;> rfl

/-- Without a cached project, and only then, the discovered projects are probed. -/
theorem trace_fanouts (cache : Cache) (image digest : Text) : (u.trace cache image digest).fanouts =
    match cachedProject cache image digest with
    | some _ => []
    | none => [u.probed] := by
  unfold trace
  cases cachedProject cache image digest with
  | some project => rfl
  | none =>
      dsimp only
      cases u.probeBlobProject image digest <;> rfl

variable {u}

theorem mem_gets {project p : Text} : p ∈ gets project ↔ isSafeProjectName project = true ∧ p = project := by
  unfold gets
  split
  · rename_i hsafe
    rw [List.mem_singleton]
    exact ⟨fun h => ⟨hsafe, h⟩, And.right⟩
  · rename_i hunsafe
    exact ⟨fun h => absurd h List.not_mem_nil, fun h => absurd h.1 hunsafe⟩

/-- The project that the probe finds is one of those it asked. -/
theorem mem_probed_of_ok {image digest p : Text} (h : u.probeBlobProject image digest = .ok p) : p ∈ u.probed := by
  unfold probeBlobProject at h
  split at h
  · cases h
  · split at h
    · rename_i project reply hfind
      cases h
      exact u.complete.mem_iff.mp (List.mem_map.mpr ⟨_, List.mem_of_find?_eq_some hfind, rfl⟩)
    · cases h

end BlobUpstream

/-- A client request, and what the outside world does during it. -/
inductive Request (cfg : Config)
  | manifest (c : Manifest.Call) (w : World cfg)
  | tags (image : Text) (w : TagsWorld cfg)
  | blob (image digest : Text) (u : BlobUpstream)

namespace Request
variable {cfg : Config}

/-- The projects that are asked because a cache entry names them, or because they have the blob. -/
def asked (cache : Cache) : Request cfg → List Text
  | .manifest c w => (w.resolveManifest cache c).asked
  | .tags image w => (w.resolveTags cache image).asked
  | .blob image digest u => (u.trace cache image digest).asked

def fanouts (cache : Cache) : Request cfg → List (List Text)
  | .manifest c w => (w.resolveManifest cache c).fanouts.map Fanout.probed
  | .tags image w => (w.resolveTags cache image).fanouts.map TagsFanout.probed
  | .blob image digest u => (u.trace cache image digest).fanouts

/-- The projects that some request of the upstream goes to. -/
def contacts (cache : Cache) (r : Request cfg) : List Text := r.asked cache ++ (r.fanouts cache).flatten

def writes (cache : Cache) : Request cfg → List (Text × Option Entry)
  | .manifest c w => (w.resolveManifest cache c).writes
  | .tags image w => (w.resolveTags cache image).writes
  | .blob image digest u => (u.trace cache image digest).writes

def lookups (cache : Cache) : Request cfg → List (Fanout cfg.maxFanout)
  | .manifest c w => (w.resolveManifest cache c).fanouts
  | .tags _ _ | .blob _ _ _ => []

/-- The circuit breaker after the request: only the fan-outs for manifests are recorded. -/
def breakerAfter (cache : Cache) (breaker : CircuitBreaker) : Request cfg → CircuitBreaker
  | .manifest c w => (w.resolveManifest cache c).fanouts.foldl (fun _ f => f.breakerAfter c.accept) breaker
  | .tags _ _ | .blob _ _ _ => breaker

end Request

/-! ## The fan-out limit -/

namespace Request
variable {cfg : Config}

/-- Each fan-out of the request asks at most `max_fanout` distinct projects. -/
def Limited (cache : Cache) (r : Request cfg) : Prop := ∀ ps ∈ r.fanouts cache, ps.toFinset.card ≤ cfg.maxFanout

/-- A request for a blob without a cached project finds at most `max_fanout` distinct projects with safe names. -/
def FewProjects (cache : Cache) : Request cfg → Prop
  | .manifest _ _ | .tags _ _ => True
  | .blob image digest u =>
      cachedProject cache image digest = none → (u.discovered.filter isSafeProjectName).toFinset.card ≤ cfg.maxFanout

/-- Which requests keep to the limit: those for manifests and tag lists do, and the probes for a blob exactly when
there are no more projects anyway. -/
theorem limited_iff (cfg : Config) (cache : Cache) (r : Request cfg) : r.Limited cache ↔ r.FewProjects cache := by
  cases r with
  | manifest c w =>
      refine iff_of_true (fun ps hps => ?_) trivial
      obtain ⟨f, -, rfl⟩ := List.mem_map.mp hps
      exact (List.toFinset_card_le _).trans f.length_probed_le
  | tags image w =>
      refine iff_of_true (fun ps hps => ?_) trivial
      obtain ⟨f, -, rfl⟩ := List.mem_map.mp hps
      exact (List.toFinset_card_le _).trans f.length_probed_le
  | blob image digest u =>
      unfold Limited FewProjects
      show (∀ ps ∈ (u.trace cache image digest).fanouts, ps.toFinset.card ≤ cfg.maxFanout) ↔ _
      rw [u.trace_fanouts]
      cases hcached : cachedProject cache image digest with
      | some project => simp [hcached]
      | none => simp [hcached, BlobUpstream.probed]

theorem probe_exceeds_limit : ¬ ∀ (cfg : Config) (cache : Cache) (r : Request cfg), r.Limited cache := by
  intro h
  have hlimited := h { Config.default with maxFanout := 1 } (fun _ => none)
    (.blob "library/x".toList "sha256:0".toList BlobUpstream.inOther) _ (List.mem_singleton_self _)
  revert hlimited
  decide

end Request

/-! ## Open circuits -/

namespace Request
variable {cfg : Config}

/-- The circuit of the project is open when a fan-out of the request asks for it. -/
def ShutDuring (cache : Cache) (p : Text) (r : Request cfg) : Prop := ∀ f ∈ r.lookups cache, f.breaker.Shut f.now p

/-- The cache does not name the project; and where the request falls through to a fan-out that asks no circuit
breaker, that is not among those it may ask either. -/
def Skips (cache : Cache) (p : Text) : Request cfg → Prop
  | .manifest c _ => ∀ entry, cache c.key = some entry → (readEntry cfg entry).1 = p →
      p = negativeCacheSentinel ∨ isSafeProjectName p = false
  | .tags image w => (∀ entry, cache (tagsKey image) = some entry → entry.value = p → isSafeProjectName p = false) ∧
      ((∀ entry r, cache (tagsKey image) = some entry → ¬ w.answers entry.value r) →
        p ∉ tagsCandidates cfg.maxFanout w.fanout.discovered)
  | .blob image digest u =>
      match cachedProject cache image digest with
      | some project => project = p → isSafeProjectName p = false
      | none => p ∈ u.discovered → isSafeProjectName p = false

section Avoids
variable {cache : Cache} {p : Text}

theorem notMem_contacts {r : Request cfg} :
    p ∉ r.contacts cache ↔ p ∉ r.asked cache ∧ ∀ ps ∈ r.fanouts cache, p ∉ ps := by
  unfold contacts
  rw [List.mem_append, List.mem_flatten, not_or, not_exists]
  simp only [not_and]

theorem manifest_avoids_iff (c : Manifest.Call) (w : World cfg) (h : (manifest c w).ShutDuring cache p) :
    p ∉ (manifest c w).contacts cache ↔ (manifest c w).Skips cache p := by
  have hfanouts : ∀ ps ∈ (manifest c w).fanouts cache, p ∉ ps := by
    intro ps hps
    obtain ⟨f, hf, rfl⟩ := List.mem_map.mp hps
    exact Fanout.notMem_probed (h f hf)
  have hasked : p ∉ (manifest c w).asked cache ↔ (manifest c w).Skips cache p := by
    refine (not_congr mem_asked_manifest).trans ?_
    unfold Skips
    simp only [not_exists, not_and, Bool.not_eq_true, or_iff_not_imp_left]
  rw [notMem_contacts, hasked]
  exact and_iff_left hfanouts

theorem tags_avoids_iff (image : Text) (w : TagsWorld cfg) :
    p ∉ (tags image w).contacts cache ↔ (tags image w).Skips cache p := by
  have hasked : p ∉ (tags image w).asked cache ↔
      ∀ entry, cache (tagsKey image) = some entry → entry.value = p → isSafeProjectName p = false := by
    refine (not_congr mem_asked_tags).trans ?_
    simp only [not_exists, not_and, Bool.not_eq_true]
  rw [notMem_contacts, hasked]
  refine and_congr_right fun _ => ?_
  obtain ⟨hf, entry, r, he, hr⟩ | ⟨hf, hnone⟩ := fanouts_tags w cache image
  · simp only [fanouts, hf, List.map_nil, List.not_mem_nil, false_implies, implies_true, true_iff]
    exact fun hnone => absurd hr (hnone entry r he)
  · simp only [fanouts, hf, List.map_cons, List.map_nil, List.mem_singleton, forall_eq]
    exact ⟨fun hp _ => hp, fun hp => hp hnone⟩

theorem blob_avoids_iff (image digest : Text) (u : BlobUpstream) :
    p ∉ (blob image digest u : Request cfg).contacts cache ↔ (blob image digest u : Request cfg).Skips cache p := by
  have hprobed : p ∉ u.probed ↔ (p ∈ u.discovered → isSafeProjectName p = false) := by
    rw [BlobUpstream.probed, List.mem_filter, not_and, Bool.not_eq_true]
  rw [notMem_contacts]
  unfold asked fanouts Skips BlobUpstream.trace
  cases hcached : cachedProject cache image digest with
  | some project =>
      simp only [hcached, BlobUpstream.mem_gets, not_and, List.not_mem_nil, false_implies, implies_true, and_true]
      exact ⟨fun h hp => by simpa [hp] using h, fun h hsafe hp => by simp_all⟩
  | none =>
      cases hfound : u.probeBlobProject image digest with
      | error e =>
          simp only [hcached, hfound, List.not_mem_nil, not_false_eq_true, List.mem_singleton, forall_eq, true_and]
          exact hprobed
      | ok project =>
          simp only [hcached, hfound, List.mem_singleton, forall_eq]
          rw [← hprobed]
          refine and_iff_right_of_imp fun hp hget => hp ?_
          obtain ⟨-, rfl⟩ := BlobUpstream.mem_gets.mp hget
          exact BlobUpstream.mem_probed_of_ok hfound

theorem avoids_iff {r : Request cfg} (h : r.ShutDuring cache p) : p ∉ r.contacts cache ↔ r.Skips cache p := by
  cases r with
  | manifest c w => exact manifest_avoids_iff c w h
  | tags image w => exact tags_avoids_iff image w
  | blob image digest u => exact blob_avoids_iff image digest u

end Avoids
end Request

structure AppState where
  cache : Cache
  breaker : CircuitBreaker

namespace AppState
variable {cfg : Config}

inductive Label (cfg : Config)
  | request (now : Nat) (r : Request cfg)
  /-- an entry expires, or another replica changes it -/
  | entry (key : Text) (entry : Option Entry)
  /-- a call of the circuit breaker by a request still in progress -/
  | call (e : Event)

def start (threshold timeoutSecs : Nat) : AppState := ⟨fun _ => none, .new threshold timeoutSecs⟩

def step (s : AppState) : Label cfg → Option AppState
  | .request _ r => some ⟨write s.cache (r.writes s.cache), r.breakerAfter s.cache s.breaker⟩
  | .entry key entry => some { s with cache := Function.update s.cache key entry }
  | .call e => some { s with breaker := s.breaker.execute e }

def machine (cfg : Config) (threshold timeoutSecs : Nat) : Machine AppState (Label cfg) :=
  ⟨start threshold timeoutSecs, step⟩

/-- A request does not ask a project whose circuit is open from its start to its last fan-out. -/
def Spares (s : AppState) : Label cfg → Prop
  | .request now r => ∀ p, s.breaker.Shut now p → r.ShutDuring s.cache p → p ∉ r.contacts s.cache
  | _ => True

/-- Every such project is skipped by the cache, and by the fan-outs that ask no circuit breaker. -/
def SkipsShut (s : AppState) : Label cfg → Prop
  | .request now r => ∀ p, s.breaker.Shut now p → r.ShutDuring s.cache p → r.Skips s.cache p
  | _ => True

/-- Nothing changes the circuit breaker between the start of a request and its fan-outs. -/
def Undisturbed (s : AppState) : Label cfg → Prop
  | .request now r => ∀ f ∈ r.lookups s.cache, f.breaker = s.breaker ∧ now ≤ f.now
  | _ => True

/-- Open circuits are respected exactly where they are skipped anyway, from every state and along every run of
requests. -/
theorem spares_iff_skips (cfg : Config) (threshold timeoutSecs : Nat) (s : AppState) (ls : List (Label cfg)) :
    (machine cfg threshold timeoutSecs).Guarded Spares s ls ↔
      (machine cfg threshold timeoutSecs).Guarded SkipsShut s ls := by
  refine Machine.guarded_congr fun s l => ?_
  cases l with
  | request now r =>
      refine forall_congr' fun p => forall_congr' fun _ => ?_
      exact forall_congr' fun hduring => Request.avoids_iff hduring
  | entry key entry => exact Iff.rfl
  | call e => exact Iff.rfl

theorem candidates_one {b : CircuitBreaker} (h : (b.isAvailable 0 "a".toList).1 = true) :
    (candidates Config.default.maxFanout ["a".toList] b 0).1 = ["a".toList] := by
  show (b.available 0 ["a".toList]).1 = _
  rw [CircuitBreaker.available_eq_filter, List.filter_cons, if_pos h, List.filter_nil]

def probeOne (status : Nat) (b : CircuitBreaker) (h : (b.isAvailable 0 "a".toList).1 = true) :
    Fanout Config.default.maxFanout where
  discovered := ["a".toList]
  breaker := b
  now := 0
  completions := [⟨"a".toList, .reply (.response status [] []), 1⟩]
  safe := (oneProject status).safe
  complete := List.Perm.of_eq (candidates_one h).symm
  sorted := List.pairwise_singleton ..

def leading (f : Fanout Config.default.maxFanout) : World .default where
  now := 1
  reply _ _ := .response 200 [] []
  joined := none
  fanout := f
  stored := 0
  refresh := f
  refreshed := 0

def found : Fanout Config.default.maxFanout := probeOne 200 (.new 1 30) rfl
def failed : Fanout Config.default.maxFanout := probeOne 503 (found.breakerAfter []) rfl

def pull (image : Text) (f : Fanout Config.default.maxFanout) : Request .default :=
  .manifest ⟨image, "latest".toList, []⟩ (leading f)

/-- A manifest is cached from project `a`, a lookup of another image opens the circuit of `a`, and the next request
for the manifest is sent to `a` all the same. -/
theorem open_circuit_asked : ¬ ∀ (cfg : Config) (threshold timeoutSecs : Nat) (ls : List (Label cfg)),
    (machine cfg threshold timeoutSecs).Guarded Undisturbed (start threshold timeoutSecs) ls →
      (machine cfg threshold timeoutSecs).Guarded Spares (start threshold timeoutSecs) ls := by
  intro h
  let nginx : Text := "library/nginx".toList
  let redis : Text := "library/redis".toList
  let requests : List (Label .default) :=
    [.request 0 (pull nginx found), .request 0 (pull redis failed), .request 1 (pull nginx failed)]
  let s : AppState := ((machine .default 1 30).run (start 1 30) (requests.take 2)).get rfl
  have hlookups : (pull nginx failed).lookups s.cache = [] := rfl
  have hundisturbed : (machine .default 1 30).Guarded Undisturbed (start 1 30) requests := by
    rintro _ ⟨⟩
    refine ⟨fun f hf => ?_, ?_⟩
    · rw [List.mem_singleton.mp hf]
      exact ⟨rfl, by decide⟩
    rintro _ ⟨⟩
    refine ⟨fun f hf => ?_, ?_⟩
    · rw [List.mem_singleton.mp hf]
      exact ⟨rfl, by decide⟩
    rintro _ ⟨⟩
    refine ⟨fun f hf => ?_, trivial⟩
    have hf : f ∈ (pull nginx failed).lookups s.cache := hf
    rw [hlookups] at hf
    cases hf
  have hspares : Spares s (.request 1 (pull nginx failed)) :=
    (((h .default 1 30 requests hundisturbed _ rfl).2 _ rfl).2 _ rfl).1
  refine hspares "a".toList ⟨rfl, by decide⟩ (fun f hf => ?_) ?_
  · rw [hlookups] at hf
    cases hf
  · show "a".toList ∈ ["a".toList]
    exact List.mem_singleton_self _

end AppState
end HarborRouter
