import HarborRouter.Lib.Maps
import HarborRouter.Resolver.Manifest

/-!
# Blobs

`handle_blob`: a blob is fetched from the cached project of its image, or, when none is cached, from the first
project that answers a HEAD probe. A cached project is taken at its word: whatever it answers is passed on, where
the manifest and the tag path would evict the entry and look further.

* `agrees_iff` : when the cached path delivers a blob that probing finds;
* `blob_agrees_iff` : along a schedule it does so exactly as long as every entry written for the blob names a project
  that serves it;
* `blob_hidden_by_other_tag` : a pull of another tag is enough to lose a blob that a probe would find.
-/

namespace HarborRouter
open Lib Text

/-! ## Responses -/

inductive Payload
  | errors (code message : Text)
  | stream (bytes : List UInt8)
  deriving DecidableEq

structure Response where
  status : Nat
  headers : List (Text × Text)
  payload : Payload
  deriving DecidableEq

def errorResponse (status : Nat) (code message : Text) : Response :=
  ⟨status, [("content-type".toList, "application/json".toList)], .errors code message⟩

def allowedResponseHeaders : List Text :=
  ["content-type".toList, "content-length".toList, "docker-content-digest".toList,
    "docker-distribution-api-version".toList, "etag".toList, "accept-ranges".toList, "content-range".toList,
    "location".toList, "cache-control".toList, "x-content-type-options".toList, "www-authenticate".toList]

/-- `HeaderMap::insert`: the last value of a name stays. -/
def insertHeader (headers : List (Text × Text)) (name value : Text) : List (Text × Text) :=
  if headers.any fun h => h.1 = name then headers.map fun h => if h.1 = name then (name, value) else h
  else headers ++ [(name, value)]

def copyHeaders (src : List (Text × Text)) : List (Text × Text) :=
  src.foldl (fun dst h => if allowedResponseHeaders.contains h.1 then insertHeader dst h.1 h.2 else dst) []

/-! ## The upstream during one request -/

inductive Sent
  | failed (e : Text)
  | response (status : Nat) (headers : List (Text × Text)) (body : List UInt8)
  deriving DecidableEq

/-- 200 and 307 mean that the blob is present. -/
def isPresent (status : Nat) : Bool := status = 200 || status = 307

def Sent.present : Sent → Bool
  | .failed _ => false
  | .response status _ _ => isPresent status

/-- What the projects answer for one blob: the HEAD probes in the order in which they complete, without an answer
where the probe timed out, and the GET of each project. -/
structure BlobUpstream where
  discovered : List Text
  heads : List (Text × Option Sent)
  get : Text → Sent
  safe : ∀ p ∈ discovered, isSafeProjectName p = true
  complete : (heads.map Prod.fst).Perm (discovered.filter isSafeProjectName)

namespace BlobUpstream
variable (u : BlobUpstream)

def probeBlobProject (image digest : Text) : Except Text Text :=
  if u.discovered = [] then .error noProjects
  else
    match u.heads.find? fun h => h.2.any Sent.present with
    | some (project, _) => .ok project
    | none => .error ("blob ".toList ++ image ++ "/".toList ++ digest ++ " not found in any project".toList)

def proxyBlob (project : Text) : Response :=
  if !isSafeProjectName project then
    errorResponse 500 "BLOB_UNKNOWN".toList "internal routing error".toList
  else
    match u.get project with
    | .failed _ => errorResponse 502 "BLOB_UNKNOWN".toList "upstream error".toList
    | .response status headers body =>
        ⟨if 100 ≤ status ∧ status < 1000 then status else 502, copyHeaders headers, .stream body⟩

def handleBlob (cache : Manifest.Cache) (image digest : Text) : Response :=
  match Manifest.cachedProject cache image digest with
  | some project => u.proxyBlob project
  | none =>
      match u.probeBlobProject image digest with
      | .ok project => u.proxyBlob project
      | .error _ => errorResponse 404 "BLOB_UNKNOWN".toList "requested blob not found".toList

def serves (project : Text) : Bool := isSafeProjectName project && (u.get project).present

/-- The probe finds a project that delivers the blob. -/
def Finds (image digest : Text) : Prop := ∃ p, u.probeBlobProject image digest = .ok p ∧ u.serves p = true

/-- What a probe would find is delivered from the cached project, too. -/
def Agrees (cache : Manifest.Cache) (image digest : Text) : Prop :=
  u.Finds image digest → isPresent (u.handleBlob cache image digest).status = true

variable {u} {cache : Manifest.Cache} {image digest : Text}

theorem present_proxyBlob (p : Text) : isPresent (u.proxyBlob p).status = u.serves p := by
  unfold proxyBlob serves
  cases isSafeProjectName p with
  | false => rfl
  | true =>
      rw [Bool.not_true, if_neg Bool.false_ne_true, Bool.true_and]
      cases u.get p with
      | failed e => rfl
      | response status headers body =>
          change isPresent (if 100 ≤ status ∧ status < 1000 then status else 502) = isPresent status
          split
          · rfl
          · have : status ≠ 200 ∧ status ≠ 307 := by omega
            simp [isPresent, this]

/-- The cached path agrees with the probe if the cached project serves the blob, and otherwise only where no project is
cached or the probe finds nothing that is served. -/
theorem agrees_iff : u.Agrees cache image digest ↔
    ¬ u.Finds image digest ∨ ∀ p, Manifest.cachedProject cache image digest = some p → u.serves p = true := by
  unfold Agrees handleBlob
  cases hc : Manifest.cachedProject cache image digest with
  | some p =>
      dsimp only
      rw [present_proxyBlob, imp_iff_not_or]
      simp
  | none =>
      refine iff_of_true (fun ⟨p, hp, hs⟩ => ?_) (.inr nofun)
      rw [hp]
      dsimp only
      rw [present_proxyBlob, hs]

end BlobUpstream

/-! ## Caches along a schedule -/

namespace BlobUpstream
open Manifest

variable {cfg : Config} (u : BlobUpstream) (image digest : Text)

/-- Both entries that the blob may be routed by name a project that serves it. -/
structure Routed (cache : Cache) : Prop where
  exact : ∀ entry, cache (cacheKey image digest) = some entry → u.serves (decodeCacheValue entry.value).1 = true
  image : ∀ entry, cache (imageKey image) = some entry → u.serves entry.value = true

/-- If the step writes one of the two entries, it names a project that serves the blob. -/
def Routes (s : State cfg) (l : Label cfg) : Prop := ∀ key value, writes s l = some (key, value) →
  (key = cacheKey image digest → u.serves (decodeCacheValue value).1 = true) ∧
    (key = imageKey image → u.serves value = true)

/-- The cached path agrees with the probe, whatever entries have expired by the time of the request. -/
def AlwaysAgrees (s : State cfg) : Prop :=
  ∀ (keys : List Text) t, (machine cfg).run s (keys.map .expire) = some t → u.Agrees t.cache image digest

variable {u image digest}

theorem Routed.erase {cache : Cache} (h : u.Routed image digest cache) (key : Text) :
    u.Routed image digest (Function.update cache key none) := by
  refine ⟨fun entry he => ?_, fun entry he => ?_⟩
  · exact h.exact entry (of_erase_eq_some he)
  · exact h.image entry (of_erase_eq_some he)

theorem Routed.agrees {cache : Cache} (h : u.Routed image digest cache) : u.Agrees cache image digest := by
  refine agrees_iff.mpr (.inr fun p hp => ?_)
  unfold cachedProject at hp
  split at hp
  · cases hp
    exact h.exact _ ‹_›
  · obtain ⟨entry, he, rfl⟩ := Option.map_eq_some_iff.mp hp
    exact h.image entry he

theorem Routed.expire {s t : State cfg} {keys : List Text} (h : u.Routed image digest s.cache)
    (hrun : (machine cfg).run s (keys.map .expire) = some t) : u.Routed image digest t.cache := by
  induction keys generalizing s with
  | nil => cases hrun; exact h
  | cons key keys ih =>
      obtain ⟨m, hm, hrun⟩ := Option.bind_eq_some_iff.mp hrun
      cases hm
      exact ih (h.erase key) hrun

/-- The two entries of a blob have different keys: an image with a `/` is not `img:` over and over. -/
theorem cacheKey_ne_imageKey_self {image digest : Text} (hslash : '/' ∈ image) :
    cacheKey image digest ≠ imageKey image := by
  rw [CacheLookup.cacheKey_eq]
  intro h
  obtain ⟨part, himage, hpart⟩ := CacheLookup.manifest_meets CacheLookup.img_noSlash hslash h
  -- what follows the first `img:` has a `/`, and the same equation holds of it
  have hslash' : '/' ∈ part := by
    rw [himage] at hslash
    exact (List.mem_append.mp hslash).elim (fun hm => absurd hm CacheLookup.img_noSlash)
      fun hm => (List.mem_cons.mp hm).resolve_left (by decide)
  have hlt : part.length < image.length := by
    rw [himage, List.length_append, List.length_cons]
    omega
  refine @cacheKey_ne_imageKey_self part digest hslash' ?_
  rw [CacheLookup.cacheKey_eq, ← hpart, himage]
  rfl
termination_by image.length

theorem alwaysAgrees_iff {s : State cfg} (hslash : '/' ∈ image) (hfinds : u.Finds image digest) :
    u.AlwaysAgrees image digest s ↔ u.Routed image digest s.cache := by
  constructor
  · intro h
    refine ⟨fun entry he => ?_, fun entry he => ?_⟩
    · refine (agrees_iff.mp (h [] s rfl)).resolve_left (not_not_intro hfinds) _ ?_
      rw [cachedProject, he]
    · refine (agrees_iff.mp (h [cacheKey image digest] _ rfl)).resolve_left (not_not_intro hfinds) _ ?_
      have hexact : Function.update s.cache (cacheKey image digest) none (cacheKey image digest) = none :=
        Function.update_self ..
      have himage : Function.update s.cache (cacheKey image digest) none (imageKey image) = some entry := by
        rw [Function.update_of_ne (cacheKey_ne_imageKey_self hslash).symm, he]
      change cachedProject (Function.update s.cache (cacheKey image digest) none) image digest = _
      rw [cachedProject, hexact, himage]
      rfl
  · intro h keys t hrun
    exact (h.expire hrun).agrees

/-- A step keeps the blob routed exactly when what it writes does. -/
theorem routed_step_iff {s t : State cfg} {l : Label cfg} (hs : u.Routed image digest s.cache)
    (h : step s l = some t) : u.Routed image digest t.cache ↔ u.Routes image digest s l := by
  rcases cache_step h with ⟨hw, hc⟩ | ⟨key, value, ttl, hw, hc⟩
  · refine iff_of_true ?_ fun key value he => by rw [hw] at he; cases he
    rcases hc with hc | ⟨key, hc⟩ <;> rw [hc]
    · exact hs
    · exact hs.erase key
  · rw [hc]
    constructor
    · intro ht key' value' he
      rw [hw] at he
      cases he
      refine ⟨?_, ?_⟩
      · rintro rfl
        exact ht.exact ⟨value, ttl⟩ (Function.update_self ..)
      · rintro rfl
        exact ht.image ⟨value, ttl⟩ (Function.update_self ..)
    · intro hr
      obtain ⟨hexact, himage⟩ := hr key value hw
      refine ⟨fun entry he => ?_, fun entry he => ?_⟩
      · rcases insert_eq_some_iff.mp he with ⟨hk, rfl⟩ | ⟨-, he⟩
        · exact hexact hk.symm
        · exact hs.exact entry he
      · rcases insert_eq_some_iff.mp he with ⟨hk, rfl⟩ | ⟨-, he⟩
        · exact himage hk.symm
        · exact hs.image entry he

/-- A blob that the probe finds is delivered throughout a schedule exactly when every entry written for it names a
project that serves it, whatever entries have expired by the time of the request. -/
theorem blob_agrees_iff (u : BlobUpstream) (name digest : Text) (ls : List (Label cfg)) :
    (machine cfg).Always (u.AlwaysAgrees (normalizeDockerLibraryImage name) digest) init ls ↔
      ¬ u.Finds (normalizeDockerLibraryImage name) digest ∨
        (machine cfg).Guarded (u.Routes (normalizeDockerLibraryImage name) digest) init ls := by
  have hslash := slash_mem_normalize name
  generalize normalizeDockerLibraryImage name = image at *
  by_cases hfinds : u.Finds image digest
  · have hrouted : (machine cfg).Always (u.AlwaysAgrees image digest) init ls ↔
        (machine cfg).Always (fun s => u.Routed image digest s.cache) init ls :=
      ⟨Machine.Always.mono fun s => (alwaysAgrees_iff hslash hfinds).mp,
        Machine.Always.mono fun s => (alwaysAgrees_iff hslash hfinds).mpr⟩
    rw [hrouted, or_iff_right (not_not_intro hfinds)]
    exact Machine.always_iff_guarded (I := fun _ => True) (fun _ _ _ _ _ => trivial)
      (fun s l t _ hs h => routed_step_iff hs h) trivial ⟨nofun, nofun⟩
  · have hvoid : ∀ s : State cfg, u.AlwaysAgrees image digest s := fun s keys t _ hf => absurd hf hfinds
    exact iff_of_true (Machine.always_of_forall hvoid ls init) (.inl hfinds)

/-! ## A blob in another project -/

def inOther : BlobUpstream where
  discovered := ["a".toList, "b".toList]
  heads := [("a".toList, some (.response 404 [] [])), ("b".toList, some (.response 200 [] []))]
  get p := if p = "b".toList then .response 200 [] [] else .response 404 [] []
  safe := twoProjects_safe
  complete := .refl _

/-- After a pull of `one` from project `a`, a blob of the same image that only `b` has is answered with 404, although
the probe finds it. -/
theorem blob_hidden_by_other_tag : ∃ (s : State .default) (u : BlobUpstream) (digest : Text),
    (machine .default).Reachable s ∧ u.Finds (normalizeDockerLibraryImage "x".toList) digest ∧
      (u.handleBlob s.cache (normalizeDockerLibraryImage "x".toList) digest).status = 404 := by
  let ls : List (Label .default) := [.call 0 ⟨"library/x".toList, "one".toList, []⟩, .get 0 0, .enter 0,
    .looked 0 (oneProject 200), .fly 0 .send, .fly 0 .remove, .land 0, .store 0 0, .storeImage 0]
  let s := ((machine .default).run init ls).get rfl
  exact ⟨s, inOther, "sha256:0".toList, ⟨ls, rfl⟩, ⟨"b".toList, rfl, by decide⟩, rfl⟩

end BlobUpstream
end HarborRouter
