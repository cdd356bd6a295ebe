import HarborRouter.Lib.UrlPath
import HarborRouter.Proxy.Path

/-!
# Upstream URLs

The URL texts that `fetch_manifest`, `fetch_tags`, `proxy_blob` and `probe_blob_project` build, and the paths a URL
parser makes of them. The validators read the raw text, so an image may spell a double-dot segment with `%2e`.

* `Confined` : the request stays below `/v2/<project>/`;
* `confined_iff_contained` : which accepted paths are confined.
-/

namespace HarborRouter
open Lib Text UrlPath Stack

/-! ## The URLs -/

/-- A `HARBOR_URL`: a scheme, an authority and the segments of a base path. -/
structure HarborUrl where
  scheme : Text
  authority : Text
  base : List Text
  scheme_ok : ':' ∉ scheme
  authority_ne : authority ≠ []
  authority_ok : Clean authority
  base_ok : ∀ seg ∈ base, Clean seg

def HarborUrl.text (harbor : HarborUrl) : Text :=
  harbor.scheme ++ "://".toList ++ harbor.authority ++ serialize harbor.base

def harborCore : HarborUrl where
  scheme := "http".toList
  authority := "harbor-core:80".toList
  base := []
  scheme_ok := by decide
  authority_ne := by decide
  authority_ok := by decide
  base_ok := nofun

/-- The path of `HARBOR_URL`, as the parser settles it. -/
def HarborUrl.basePath (harbor : HarborUrl) : Text := serialize (settle harbor.base).reverse

def upstreamUrl (harborUrl project image rest : Text) : Text :=
  harborUrl ++ "/v2/".toList ++ project ++ "/".toList ++ image ++ rest

def fetchManifestUrl (harborUrl project image reference : Text) : Text :=
  upstreamUrl harborUrl project image ("/manifests/".toList ++ reference)

def fetchTagsUrl (harborUrl project image : Text) : Text :=
  upstreamUrl harborUrl project image "/tags/list".toList

def proxyBlobUrl (harborUrl project image digest : Text) : Text :=
  upstreamUrl harborUrl project image ("/blobs/".toList ++ digest)

def probeBlobUrl (harborUrl project image digest : Text) : Text :=
  upstreamUrl harborUrl project image ("/blobs/".toList ++ digest)

def PathKind.urls (harborUrl project image reference : Text) : PathKind → List Text
  | .manifests => [fetchManifestUrl harborUrl project image reference]
  | .blobs => [proxyBlobUrl harborUrl project image reference, probeBlobUrl harborUrl project image reference]
  | .tags => [fetchTagsUrl harborUrl project image]

/-! ## Projects -/

/-- The characters of a project name: lowercase letters, digits, `-` and `_`. -/
def isProjectChar (c : Char) : Bool :=
  (97 ≤ c.toNat && c.toNat ≤ 122) || (48 ≤ c.toNat && c.toNat ≤ 57) || c == '-' || c == '_'

def IsProject (project : Text) : Prop := project ≠ [] ∧ ∀ c ∈ project, isProjectChar c = true

instance (project : Text) : Decidable (IsProject project) :=
  decidable_of_iff (project ≠ [] ∧ project.all isProjectChar = true) (by simp [IsProject])

theorem isProjectChar_cases {c : Char} (h : isProjectChar c = true) :
    (97 ≤ c.toNat ∧ c.toNat ≤ 122) ∨ (48 ≤ c.toNat ∧ c.toNat ≤ 57) ∨ c = '-' ∨ c = '_' := by
  simpa [isProjectChar, or_assoc] using h

theorem isProjectChar_ne {c d : Char} (h : isProjectChar c = true) (hd : isProjectChar d = false) : c ≠ d := by
  rintro rfl
  rw [h] at hd
  cases hd

theorem isProjectChar_clean {c : Char} (h : isProjectChar c = true) :
    isSeparator c = false ∧ endsPath c = false := by
  simp only [isSeparator, endsPath, Bool.or_eq_false_iff, beq_eq_false_iff_ne]
  exact ⟨⟨isProjectChar_ne h (by decide), isProjectChar_ne h (by decide)⟩,
    isProjectChar_ne h (by decide), isProjectChar_ne h (by decide)⟩

theorem isProjectChar_plain {c : Char} (h : isProjectChar c = true) :
    mustEncode c = false ∧ c.toLower ≠ '.' ∧ c.toLower ≠ '%' := by
  have hrange : (0x20 ≤ c.toNat ∧ c.toNat < 0x41) ∨ (0x5A < c.toNat ∧ c.toNat < 0x7B) := by
    rcases isProjectChar_cases h with hc | hc | rfl | rfl
    · omega
    · omega
    · decide
    · decide
  have hlower : c.toLower = c := by
    have : ¬ (c.val ≥ 65 ∧ c.val ≤ 90) := by
      rintro ⟨h1, h2⟩
      have h1 : 65 ≤ c.toNat := h1
      have h2 : c.toNat ≤ 90 := h2
      omega
    exact dif_neg this
  have hall : (" \"#<>?^`".toList.all fun d => !isProjectChar d) = true := by decide
  have hset : ∀ d ∈ " \"#<>?^`".toList, isProjectChar d = false := by
    simpa only [List.all_eq_true, Bool.not_eq_true'] using hall
  refine ⟨?_, ?_⟩
  · have hmem : c ∉ " \"#<>?^`".toList := fun hm => isProjectChar_ne h (hset c hm) rfl
    simp only [mustEncode, Bool.or_eq_false_iff, decide_eq_false_iff_not, beq_eq_false_iff_ne]
    exact ⟨⟨⟨⟨by omega, by omega⟩, hmem⟩, by omega⟩, by omega⟩
  · rw [hlower]
    exact ⟨isProjectChar_ne h (by decide), isProjectChar_ne h (by decide)⟩

theorem IsProject.plain {project : Text} (h : IsProject project) : Plain project :=
  plain_of_forall (fun c hc => (isProjectChar_plain (h.2 c hc)).1) fun c hc => (isProjectChar_plain (h.2 c hc)).2

theorem IsProject.clean {project : Text} (h : IsProject project) : Clean project :=
  fun c hc => isProjectChar_clean (h.2 c hc)

/-! ## Confinement -/

/-- Every request for the image stays below the base path and the project. -/
def Confined (harbor : HarborUrl) (project image : Text) (kind : PathKind) (reference : Text) : Prop :=
  ∀ url ∈ kind.urls harbor.text project image reference,
    harbor.basePath ++ "/v2/".toList ++ project ++ "/".toList <+: urlPath url

/-- No prefix of the image's segments has more double-dot segments than ordinary ones. -/
def Contained (image : Text) : Prop := balanced 0 ((segments (pathPart image)).map segmentOp) = true

instance (image : Text) : Decidable (Contained image) := inferInstanceAs (Decidable (_ = _))

theorem afterAuthority_text (harbor : HarborUrl) (rest : Text) :
    afterAuthority (harbor.text ++ '/' :: rest) = serialize harbor.base ++ '/' :: rest := by
  obtain ⟨a, as, ha⟩ := List.exists_cons_of_ne_nil harbor.authority_ne
  have hscheme : ∀ c ∈ harbor.scheme, decide (c ≠ ':') = true := fun c hc => by
    rw [decide_eq_true_iff]
    rintro rfl
    exact harbor.scheme_ok hc
  have hsep : isSeparator a = false := (harbor.authority_ok a (ha ▸ List.mem_cons_self)).1
  have hauthority : ∀ c ∈ harbor.authority, (!isSeparator c && !endsPath c) = true := fun c hc => by
    rw [(harbor.authority_ok c hc).1, (harbor.authority_ok c hc).2]; rfl
  obtain ⟨t, ht⟩ : ∃ t, serialize harbor.base ++ '/' :: rest = '/' :: t := by
    rcases serialize_head harbor.base with h | ⟨t, h⟩ <;> rw [h] <;> exact ⟨_, rfl⟩
  have hslashes : ("//".toList ++ (harbor.authority ++ '/' :: t)).dropWhile isSeparator =
      harbor.authority ++ '/' :: t := by
    rw [List.dropWhile_append_of_pos (List.all_eq_true.mp rfl), ha, List.cons_append, List.dropWhile_cons, hsep]
    rfl
  have htext : harbor.text ++ '/' :: rest =
      harbor.scheme ++ ':' :: ("//".toList ++ (harbor.authority ++ '/' :: t)) := by
    simp [HarborUrl.text, ← ht]
  rw [afterAuthority, htext, List.dropWhile_append_of_pos hscheme, ht,
    List.dropWhile_cons_of_neg (by decide), List.tail_cons, hslashes, List.dropWhile_append_of_pos hauthority]
  rfl

theorem urlPath_upstreamUrl (harbor : HarborUrl) (project image rest : Text) :
    urlPath (upstreamUrl harbor.text project image rest) =
      path (serialize (harbor.base ++ ["v2".toList, project]) ++ '/' :: (image ++ rest)) := by
  have : upstreamUrl harbor.text project image rest =
      harbor.text ++ '/' :: ("v2/".toList ++ project ++ '/' :: (image ++ rest)) := by
    simp [upstreamUrl]
  rw [this, urlPath, afterAuthority_text]
  congr 1
  simp [serialize]

theorem settle_project (harbor : HarborUrl) {project : Text} (h : IsProject project) :
    settle (harbor.base ++ ["v2".toList, project]) = project :: "v2".toList :: settle harbor.base := by
  have hv2 : Plain "v2".toList := rfl
  rw [List.append_cons, settle_plain h.plain, settle_plain hv2]

theorem projectPath_eq (harbor : HarborUrl) {project : Text} (h : IsProject project) :
    harbor.basePath ++ "/v2/".toList ++ project ++ "/".toList =
      serialize (settle (harbor.base ++ ["v2".toList, project])).reverse ++ ['/'] := by
  rw [settle_project harbor h]
  simp [HarborUrl.basePath, serialize]

theorem root_clean (harbor : HarborUrl) {project : Text} (h : IsProject project) :
    ∀ seg ∈ harbor.base ++ ["v2".toList, project], Clean seg := by
  intro seg hseg
  rcases List.mem_append.mp hseg with hseg | hseg
  · exact harbor.base_ok seg hseg
  · rcases List.mem_cons.mp hseg with rfl | hseg
    · decide
    · rw [List.mem_singleton.mp hseg]
      exact h.clean

/-- What follows the image in a URL neither leaves a root by itself nor rescues an image that does. -/
theorem balanced_image {rest : Text} (hrest : balanced 0 ((segments (pathPart rest)).map segmentOp) = true)
    (image : Text) :
    balanced 0 ((segments (pathPart (image ++ '/' :: rest))).map segmentOp) = true ↔ Contained image := by
  unfold Contained
  by_cases hend : ∃ c ∈ image, endsPath c = true
  · rw [pathPart_append_of_ended hend]
  · have hclean : ∀ c ∈ image, endsPath c = false := fun c hc => by
      by_contra he
      exact hend ⟨c, hc, by simpa using he⟩
    have hself : pathPart image = image := by simpa [pathPart] using pathPart_append hclean []
    rw [pathPart_append hclean, hself]
    change balanced 0 ((segments (image ++ '/' :: pathPart rest)).map segmentOp) = true ↔ _
    rw [segments_append, List.map_append, balanced_append hrest]

/-- An endpoint and a reference are pushed over the image, or the reference pops its endpoint. -/
theorem balanced_endpoint {endpoint reference : Text} (hend : Clean endpoint) (hplain : Plain endpoint)
    (href : ∀ c ∈ reference, isSeparator c = false) :
    balanced 0 ((segments (pathPart (endpoint ++ '/' :: reference))).map segmentOp) = true := by
  rw [pathPart_append fun c hc => (hend c hc).2]
  change balanced 0 ((segments (endpoint ++ '/' :: pathPart reference)).map segmentOp) = true
  have hpath : ∀ c ∈ pathPart reference, isSeparator c = false :=
    fun c hc => href c ((List.takeWhile_prefix _).subset hc)
  rw [segments_append, segments_of_clean fun c hc => (hend c hc).1, segments_of_clean hpath]
  change balanced 0 [segmentOp endpoint, segmentOp (pathPart reference)] = true
  rw [hplain]
  cases segmentOp (pathPart reference) <;> rfl

def PathKind.suffix (reference : Text) : PathKind → Text
  | .manifests => "manifests".toList ++ '/' :: reference
  | .blobs => "blobs".toList ++ '/' :: reference
  | .tags => "tags".toList ++ '/' :: "list".toList

theorem mem_urls {harborUrl project image reference url : Text} {kind : PathKind} :
    url ∈ kind.urls harborUrl project image reference ↔
      url = upstreamUrl harborUrl project image ('/' :: kind.suffix reference) := by
  have hmanifests : "/manifests/".toList ++ reference = '/' :: PathKind.suffix reference .manifests := rfl
  have hblobs : "/blobs/".toList ++ reference = '/' :: PathKind.suffix reference .blobs := rfl
  have htags : "/tags/list".toList = '/' :: PathKind.suffix reference .tags := rfl
  cases kind with
  | manifests => rw [PathKind.urls, List.mem_singleton, fetchManifestUrl, hmanifests]
  | blobs =>
      simp only [PathKind.urls, proxyBlobUrl, probeBlobUrl, hblobs, List.mem_cons, List.not_mem_nil, or_false, or_self]
  | tags => rw [PathKind.urls, List.mem_singleton, fetchTagsUrl, htags]

theorem balanced_suffix {reference : Text} (h : isSafeReference reference = true) (kind : PathKind) :
    balanced 0 ((segments (pathPart (kind.suffix reference))).map segmentOp) = true := by
  have hsafe := isSafeReference_iff.mp h
  have href : ∀ c ∈ reference, isSeparator c = false := fun c hc => by
    rw [isSeparator, Bool.or_eq_false_iff, beq_eq_false_iff_ne, beq_eq_false_iff_ne]
    exact ⟨fun he => hsafe.2.1 (he ▸ hc), fun he => hsafe.2.2.1 (he ▸ hc)⟩
  cases kind with
  | manifests => exact balanced_endpoint (by decide) rfl href
  | blobs => exact balanced_endpoint (by decide) rfl href
  | tags =>
      have hlist : Clean "list".toList := by decide
      exact balanced_endpoint (by decide) rfl fun c hc => (hlist c hc).1

theorem confined_iff {harbor : HarborUrl} {project image reference : Text} {kind : PathKind}
    (hproject : IsProject project) : Confined harbor project image kind reference ↔
      serialize (settle (harbor.base ++ ["v2".toList, project])).reverse ++ ['/'] <+:
        path (serialize (harbor.base ++ ["v2".toList, project]) ++ '/' :: (image ++ '/' :: kind.suffix reference)) := by
  rw [← projectPath_eq harbor hproject, ← urlPath_upstreamUrl]
  exact ⟨fun h => h _ (mem_urls.mpr rfl), fun h url hurl => by rwa [mem_urls.mp hurl]⟩

/-- An accepted path stays below every project exactly when its image is contained: whatever its kind and its
reference, only double-dot spellings in the image lead out. -/
theorem confined_iff_contained (harbor : HarborUrl) (path image reference : Text) (kind : PathKind)
    (h : parsePath path = .ok (image, kind, reference)) :
    (∀ project, IsProject project → Confined harbor project (normalizeDockerLibraryImage image) kind reference) ↔
      Contained (normalizeDockerLibraryImage image) := by
  have hsuffix := balanced_suffix (parsePath_ok h).2.2.1 kind
  constructor
  · intro hall
    obtain ⟨n, hn, hfresh⟩ := exists_unpushed
      (script (segments (pathPart (normalizeDockerLibraryImage image ++ '/' :: kind.suffix reference))))
    have hproject : IsProject (List.replicate n 'a') :=
      ⟨by simpa using Nat.ne_of_gt hn, fun c hc => by rw [List.eq_of_mem_replicate hc]; rfl⟩
    exact (balanced_image hsuffix _).mp (leaves_root (root_clean harbor hproject) _ (settle_project harbor hproject)
      hfresh ((confined_iff hproject).mp (hall _ hproject)))
  · intro hcontained project hproject
    exact (confined_iff hproject).mpr (stays_below (root_clean harbor hproject) _
      ((balanced_image hsuffix _).mpr hcontained))

theorem confined_iff_contained_nginx :
    (∀ project, IsProject project → Confined harborCore project "library/nginx".toList .manifests "1.27".toList) ↔
      Contained "library/nginx".toList :=
  confined_iff_contained harborCore "nginx/manifests/1.27".toList "nginx".toList "1.27".toList .manifests (by decide)

/-- `%2e%2e/secret/app` is accepted, and requested from the project `secret`. -/
theorem percent_dots_leave_project :
    ¬ ∀ path image kind reference, parsePath path = .ok (image, kind, reference) → ∀ harbor project,
      IsProject project → Confined harbor project (normalizeDockerLibraryImage image) kind reference := by
  intro h
  have hconfined := h "%2e%2e/secret/app/manifests/latest".toList "%2e%2e/secret/app".toList .manifests
    "latest".toList (by decide) harborCore "dockerhub".toList (by decide)
  have hpath : urlPath (fetchManifestUrl harborCore.text "dockerhub".toList
      (normalizeDockerLibraryImage "%2e%2e/secret/app".toList) "latest".toList) =
        "/v2/secret/app/manifests/latest".toList := by decide
  have := hconfined _ (List.mem_singleton.mpr rfl)
  rw [hpath] at this
  exact absurd this (by decide)

end HarborRouter
