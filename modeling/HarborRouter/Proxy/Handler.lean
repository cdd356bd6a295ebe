import HarborRouter.Proxy.Grammar
import HarborRouter.Proxy.Headers
import HarborRouter.Proxy.Requests
import HarborRouter.Resolver.Url

/-!
# `registry_handler`

A request below `/v2/<proxy_project>/` is refused, or becomes one call of the resolver or of the blob proxy, and what
comes of that is answered. Whatever the cache holds, and whatever the upstream does meanwhile:

* `requested_asks` : a client who sent credentials has the URLs of its path requested, and no others;
* `answered_or_relayed` : it gets one of the router's own answers, or what a project replied to its request.
-/

namespace HarborRouter
open Lib Text UrlPath MultiMap Manifest

/-! ## Answers -/

def unauthorized : Response := errorResponse 403 "UNAUTHORIZED".toList "authentication required".toList
def unsupported (e : Text) : Response := errorResponse 400 "UNSUPPORTED".toList e
def manifestUnknown : Response := errorResponse 404 "MANIFEST_UNKNOWN".toList "requested manifest not found".toList
def nameUnknown : Response := errorResponse 404 "NAME_UNKNOWN".toList "requested tag list not found".toList
def blobUnknown : Response := errorResponse 404 "BLOB_UNKNOWN".toList "requested blob not found".toList
def misrouted : Response := errorResponse 500 "BLOB_UNKNOWN".toList "internal routing error".toList
def upstreamFailed : Response := errorResponse 502 "BLOB_UNKNOWN".toList "upstream error".toList

def handleManifest : Except Text ResolveResult → Response
  | .error _ => manifestUnknown
  | .ok r => buildResponse r.status r.headers r.body

def handleTags : Except Text ResolveResult → Response
  | .error _ => nameUnknown
  | .ok r => buildResponse r.status r.headers r.body

/-! ## Requests -/

/-- The path and the headers of a request; the names of headers are in lower case. -/
structure HttpRequest where
  path : Text
  headers : List (Text × Text)

/-- The first `Authorization` header, if it is text; what it says is not looked at. -/
def HttpRequest.auth (req : HttpRequest) : Option Text :=
  (values req.headers "authorization".toList).head?.bind headerToStr

def HttpRequest.accept (req : HttpRequest) : List Text :=
  (values req.headers "accept".toList).filterMap headerToStr

structure Surroundings (cfg : Config) where
  manifest : World cfg
  tags : TagsWorld cfg
  blob : BlobUpstream

variable {cfg : Config}

def Surroundings.request (w : Surroundings cfg) (accept : List Text) (image reference : Text) :
    PathKind → Request cfg
  | .manifests => .manifest ⟨image, reference, accept⟩ w.manifest
  | .blobs => .blob image reference w.blob
  | .tags => .tags image w.tags

/-- `registry_handler` up to the call it makes; `none` is the panic of `remainder`. -/
def dispatch (proxyProject : Text) (w : Surroundings cfg) (req : HttpRequest) :
    Option (Except Response (Request cfg)) :=
  (remainder proxyProject req.path).map fun rest =>
    match req.auth with
    | none => .error unauthorized
    | some _ =>
        match parsePath rest with
        | .error e => .error (unsupported e)
        | .ok (image, kind, reference) =>
            .ok (w.request req.accept (normalizeDockerLibraryImage image) reference kind)

def Request.answer (cache : Cache) : Request cfg → Response
  | .manifest c w => handleManifest (w.resolveManifest cache c).result
  | .tags image w => handleTags (w.resolveTags cache image).result
  | .blob image digest u => u.handleBlob cache image digest

def registryHandler (proxyProject : Text) (cache : Cache) (w : Surroundings cfg) (req : HttpRequest) :
    Option Response :=
  (dispatch proxyProject w req).map fun
    | .error response => response
    | .ok r => r.answer cache

def Request.urls (harborUrl : Text) (cache : Cache) (r : Request cfg) : List Text :=
  (r.contacts cache).flatMap fun p =>
    match r with
    | .manifest c _ => PathKind.manifests.urls harborUrl p c.image c.reference
    | .tags image _ => PathKind.tags.urls harborUrl p image "list".toList
    | .blob image digest _ => PathKind.blobs.urls harborUrl p image digest

def requested (harborUrl proxyProject : Text) (cache : Cache) (w : Surroundings cfg) (req : HttpRequest) : List Text :=
  match dispatch proxyProject w req with
  | some (.ok r) => r.urls harborUrl cache
  | _ => []

/-! ## Which requests are made -/

/-- A path that starts with a slash is refused: no image does. -/
theorem parsePath_slash (rest : Text) : ∃ e, parsePath ('/' :: rest) = .error e := by
  cases h : parsePath ('/' :: rest) with
  | error e => exact ⟨e, rfl⟩
  | ok parts =>
      obtain ⟨image, kind, reference⟩ := parts
      obtain ⟨hpath, himage, -⟩ := parsePath_ok h
      obtain ⟨hne, -, -, -, hhead, -⟩ := isSafeImageName_iff.mp himage
      obtain ⟨c, cs, rfl⟩ := List.exists_cons_of_ne_nil hne
      refine absurd ?_ hhead
      rw [List.cons_append, List.cons_append] at hpath
      rw [List.head?_cons, (List.cons_eq_cons.mp hpath).1]

theorem remainder_bare (proxyProject : Text) :
    remainder proxyProject (routePrefix proxyProject) = some (routePrefix proxyProject) := by
  have hlen : byteLen (routePrefix proxyProject) = 4 + byteLen proxyProject + 1 := by
    show byteLen ("/v2/".toList ++ proxyProject ++ "/".toList) = _
    rw [byteLen_append, byteLen_append]
    rfl
  rw [remainder, hlen, if_neg (Nat.lt_irrefl _)]

section Dispatch
variable {proxyProject rest : Text} {w : Surroundings cfg} {req : HttpRequest}

/-- A routed request is never cut inside a character: the remainder is what follows the route, or else nothing that
parses. -/
theorem dispatch_route (h : req.path = routePrefix proxyProject ++ rest) (hauth : req.auth ≠ none) :
    (∃ e, parsePath rest = .error e ∧ ∃ e', dispatch proxyProject w req = some (.error (unsupported e'))) ∨
    ∃ image kind reference, parsePath rest = .ok (image, kind, reference) ∧ dispatch proxyProject w req =
      some (.ok (w.request req.accept (normalizeDockerLibraryImage image) reference kind)) := by
  obtain ⟨value, hvalue⟩ := Option.ne_none_iff_exists'.mp hauth
  unfold dispatch
  rw [h, hvalue]
  by_cases hrest : rest = []
  · obtain ⟨e, he⟩ := parsePath_slash ("v2/".toList ++ proxyProject ++ "/".toList)
    have he : parsePath (routePrefix proxyProject) = .error e := he
    left
    rw [hrest, List.append_nil, remainder_bare]
    exact ⟨unknownKind, by decide, e, by rw [Option.map_some, he]⟩
  · rw [remainder_route proxyProject hrest, Option.map_some]
    cases hparse : parsePath rest with
    | error e => exact .inl ⟨e, rfl, e, rfl⟩
    | ok parts =>
        obtain ⟨image, kind, reference⟩ := parts
        exact .inr ⟨image, kind, reference, rfl, rfl⟩

theorem dispatch_unauthorized (h : req.path = routePrefix proxyProject ++ rest) (hauth : req.auth = none) :
    dispatch proxyProject w req = some (.error unauthorized) := by
  unfold dispatch
  rw [h, hauth]
  by_cases hrest : rest = []
  · rw [hrest, List.append_nil, remainder_bare]
    rfl
  · rw [remainder_route proxyProject hrest]
    rfl

end Dispatch

/-! ## Where the requests go -/

theorem Fanout.safe_of_probed {maxFanout : Nat} {f : Fanout maxFanout} {p : Text} (h : p ∈ f.probed) :
    isSafeProjectName p = true := by
  unfold Fanout.probed candidates at h
  rw [CircuitBreaker.available_eq_filter] at h
  have hmem := (List.mem_filter.mp h).1
  split at hmem
  · exact f.safe p ((List.take_subset _ _) hmem)
  · exact f.safe p hmem

section Blob
variable {u : BlobUpstream} {cache : Cache} {image digest : Text}

theorem BlobUpstream.safe_of_asked {p : Text} (h : p ∈ (u.trace cache image digest).asked) :
    isSafeProjectName p = true := by
  unfold BlobUpstream.trace at h
  split at h
  · exact (BlobUpstream.mem_gets.mp h).2 ▸ (BlobUpstream.mem_gets.mp h).1
  · split at h
    · exact (BlobUpstream.mem_gets.mp h).2 ▸ (BlobUpstream.mem_gets.mp h).1
    · cases h

theorem BlobUpstream.mem_fanouts {ps : List Text} (h : ps ∈ (u.trace cache image digest).fanouts) : ps = u.probed := by
  rw [u.trace_fanouts] at h
  split at h
  · cases h
  · exact List.mem_singleton.mp h

end Blob

/-- A project that is asked has a safe name, whatever the cache holds. -/
theorem Request.safe_of_contacts {cache : Cache} {r : Request cfg} {p : Text} (h : p ∈ r.contacts cache) :
    isSafeProjectName p = true := by
  rcases List.mem_append.mp h with hasked | hfanned
  · cases r with
    | manifest c w =>
        obtain ⟨_, -, -, -, hsafe⟩ := mem_asked_manifest.mp hasked
        exact hsafe
    | tags image w =>
        obtain ⟨_, -, -, hsafe⟩ := mem_asked_tags.mp hasked
        exact hsafe
    | blob image digest u => exact BlobUpstream.safe_of_asked hasked
  · obtain ⟨ps, hps, hp⟩ := List.mem_flatten.mp hfanned
    cases r with
    | manifest c w =>
        obtain ⟨f, -, rfl⟩ := List.mem_map.mp hps
        exact Fanout.safe_of_probed hp
    | tags image w =>
        obtain ⟨f, -, rfl⟩ := List.mem_map.mp hps
        exact (List.mem_filter.mp hp).2
    | blob image digest u =>
        rw [BlobUpstream.mem_fanouts hps] at hp
        exact (List.mem_filter.mp hp).2

/-- Each project is asked for the image and the reference of the path, at the endpoint of its kind. -/
theorem mem_urls_request {w : Surroundings cfg} {accept : List Text} {image reference harborUrl url : Text}
    {kind : PathKind} {cache : Cache} (h : url ∈ (w.request accept image reference kind).urls harborUrl cache) :
    ∃ p ∈ (w.request accept image reference kind).contacts cache,
      url = upstreamUrl harborUrl p image ('/' :: kind.suffix reference) := by
  obtain ⟨p, hp, hurl⟩ := List.mem_flatMap.mp h
  refine ⟨p, hp, ?_⟩
  cases kind with
  | manifests => exact mem_urls.mp hurl
  | blobs => exact mem_urls.mp hurl
  | tags => exact mem_urls.mp hurl

/-- The request is for the image and the reference of a well-formed path, in a project with a safe name; and if this
is a plain name and the image spells no way out, the request stays below the project. -/
structure Asks (harbor : HarborUrl) (rest url : Text) : Prop where
  parts : ∃ image kind reference p, rest = kind.render image reference ∧ WellFormed image kind reference ∧
    isSafeProjectName p = true ∧
    url = upstreamUrl harbor.text p (normalizeDockerLibraryImage image) ('/' :: kind.suffix reference) ∧
    (IsProject p → Contained (normalizeDockerLibraryImage image) →
      harbor.basePath ++ "/v2/".toList ++ p ++ "/".toList <+: urlPath url)

/-- Where a client can send the router: whatever the cache holds and the upstream answers, a URL is requested on behalf
of a client only if the client sent credentials along with a path of the grammar, and for what the path says. -/
theorem requested_asks (harbor : HarborUrl) (proxyProject rest : Text) (cache : Cache) (w : Surroundings cfg)
    (req : HttpRequest) (hpath : req.path = routePrefix proxyProject ++ rest) {url : Text}
    (hurl : url ∈ requested harbor.text proxyProject cache w req) : req.auth ≠ none ∧ Asks harbor rest url := by
  unfold requested at hurl
  by_cases hauth : req.auth = none
  · rw [dispatch_unauthorized hpath hauth] at hurl
    cases hurl
  refine ⟨hauth, ?_⟩
  obtain ⟨_, -, e, hdispatch⟩ | ⟨image, kind, reference, hparse, hdispatch⟩ := dispatch_route (w := w) hpath hauth
  · rw [hdispatch] at hurl
    cases hurl
  rw [hdispatch] at hurl
  obtain ⟨p, hp, hurl⟩ := mem_urls_request hurl
  obtain ⟨hrest, hformed⟩ := render_of_parsePath hparse
  refine ⟨image, kind, reference, p, hrest, hformed, Request.safe_of_contacts hp, hurl, fun hproject hcontained => ?_⟩
  have hsuffix := balanced_suffix (parsePath_ok hparse).2.2.1 kind
  have hconfined : Confined harbor p (normalizeDockerLibraryImage image) kind reference :=
    (confined_iff hproject).mpr (stays_below (root_clean harbor hproject) _
      ((balanced_image hsuffix _).mpr hcontained))
  exact hconfined url (mem_urls.mpr hurl)

def oneUp : Surroundings .default where
  manifest := AppState.leading AppState.found
  tags := ⟨fun _ => .response 200 [] [], ⟨["a".toList], [⟨"a".toList, .reply (.response 200 [] []), 1⟩], .refl _⟩⟩
  blob :=
    { discovered := ["a".toList]
      heads := [("a".toList, some (.response 200 [] []))]
      get := fun _ => .response 200 [] []
      safe := AppState.found.safe
      complete := .refl _ }

def pullNginx : HttpRequest where
  path := "/v2/hub/nginx/manifests/latest".toList
  headers := [("authorization".toList, "Basic Zm9v".toList)]

theorem requested_asks_nginx : "http://harbor-core:80/v2/a/library/nginx/manifests/latest".toList ∈
      requested harborCore.text "hub".toList (fun _ => none) oneUp pullNginx ∧
    pullNginx.auth ≠ none ∧ Asks harborCore "nginx/manifests/latest".toList
      "http://harbor-core:80/v2/a/library/nginx/manifests/latest".toList := by
  have hurl : "http://harbor-core:80/v2/a/library/nginx/manifests/latest".toList ∈
      requested harborCore.text "hub".toList (fun _ => none) oneUp pullNginx := List.mem_singleton.mpr rfl
  exact ⟨hurl, requested_asks harborCore "hub".toList "nginx/manifests/latest".toList (fun _ => none) oneUp pullNginx
    rfl hurl⟩

/-! ## What is answered -/

/-- The answers of the router's own. What went wrong inside is not told. -/
def ownAnswers : List Response :=
  [unauthorized, manifestUnknown, nameUnknown, blobUnknown, misrouted, upstreamFailed] ++
    [missingPart, missingImage, unsafeImage, unsafeReference, unknownKind].map unsupported

/-- The replies to the requests for a manifest or a tag list: of the project that the cache entry names, to one of the
attempts; and of the projects that a fan-out probes, its own or that of the flight it joins. -/
inductive Heard (cache : Cache) : Request cfg → Text → Reply → Prop
  | cached {c : Manifest.Call} {w : World cfg} {entry : Entry} (attempt : Nat) (he : cache c.key = some entry) :
      Heard cache (.manifest c w) (readEntry cfg entry).1 (w.reply (readEntry cfg entry).1 attempt)
  | probed {c : Manifest.Call} {w : World cfg} {d : Completion} {reply : Reply} (hj : w.joined = none)
      (hd : d ∈ w.fanout.completions) (hreply : d.answer = .reply reply) : Heard cache (.manifest c w) d.project reply
  | joined {c : Manifest.Call} {w : World cfg} {l : Lookup cfg} {d : Completion} {reply : Reply}
      (hj : w.joined = some (.received l)) (hd : d ∈ l.fanout.completions) (hreply : d.answer = .reply reply) :
      Heard cache (.manifest c w) d.project reply
  | cachedTags {image : Text} {w : TagsWorld cfg} {entry : Entry} (he : cache (tagsKey image) = some entry) :
      Heard cache (.tags image w) entry.value (w.reply entry.value)
  | probedTags {image : Text} {w : TagsWorld cfg} {d : Completion} {reply : Reply} (hd : d ∈ w.fanout.completions)
      (hreply : d.answer = .reply reply) : Heard cache (.tags image w) d.project reply

/-- The reply of a project with a safe name, its headers filtered: a 200 to a request for a manifest or a tag list, or
whatever it replies for a blob. -/
inductive Relayed (cache : Cache) (r : Request cfg) : Response → Prop
  | resolved (p : Text) (headers : List (Text × Text)) (body : List UInt8) (hsafe : isSafeProjectName p = true)
      (hheard : Heard cache r p (.response 200 headers body)) : Relayed cache r ⟨200, copyHeaders headers, .stream body⟩
  | blob (image digest : Text) (u : BlobUpstream) (p : Text) (status : Nat) (headers : List (Text × Text))
      (body : List UInt8) (hr : r = .blob image digest u) (hsafe : isSafeProjectName p = true)
      (hget : u.get p = .response status headers body) :
      Relayed cache r ⟨if 100 ≤ status ∧ status < 1000 then status else 502, copyHeaders headers, .stream body⟩

def Filtered (headers : List (Text × Text)) : Prop :=
  Single headers ∧ ∀ name, values headers name ≠ [] → name ∈ allowedResponseHeaders

theorem filtered_copyHeaders (src : List (Text × Text)) : Filtered (copyHeaders src) := by
  refine ⟨fun name => ?_, fun name hname => ?_⟩
  · rw [values_copyHeaders]
    split
    · cases (values src name).getLast? <;> simp
    · exact Nat.zero_le 1
  · rw [values_copyHeaders] at hname
    split at hname
    · exact List.contains_iff_mem.mp ‹_›
    · exact absurd rfl hname

theorem filtered_errorResponse (status : Nat) (code message : Text) :
    Filtered (errorResponse status code message).headers := by
  have hvalues : ∀ name, values (errorResponse status code message).headers name =
      if "content-type".toList = name then ["application/json".toList] else [] := by
    intro name
    exact values_cons ..
  refine ⟨fun name => ?_, fun name hname => ?_⟩
  · rw [hvalues]
    split <;> simp
  · rw [hvalues] at hname
    split at hname
    · rename_i heq
      rw [← heq]
      exact List.mem_cons_self
    · exact absurd rfl hname

theorem Relayed.filtered {cache : Cache} {r : Request cfg} {response : Response} (h : Relayed cache r response) :
    Filtered response.headers := by
  cases h with
  | resolved p headers => exact filtered_copyHeaders headers
  | blob image digest u p status headers => exact filtered_copyHeaders headers

theorem filtered_ownAnswers {response : Response} (h : response ∈ ownAnswers) : Filtered response.headers := by
  simp only [ownAnswers, List.mem_append, List.mem_cons, List.not_mem_nil, or_false, List.mem_map] at h
  rcases h with (rfl | rfl | rfl | rfl | rfl | rfl) | ⟨e, -, rfl⟩ <;> exact filtered_errorResponse ..

theorem parsePath_error {path e : Text} (h : parsePath path = .error e) :
    e ∈ [missingPart, missingImage, unsafeImage, unsafeReference, unknownKind] := by
  have hsplit : ∀ {sep : Text} {kind : PathKind} {idx : Nat}, splitAt path sep kind idx = .error e →
      e ∈ [missingPart, missingImage, unsafeImage, unsafeReference, unknownKind] := by
    intro sep kind idx hs
    unfold splitAt at hs
    dsimp only at hs
    split at hs
    · cases hs; simp
    split at hs
    · cases hs; simp
    split at hs
    · cases hs; simp
    · cases hs
  unfold parsePath at h
  split at h
  · split at h
    · cases h; simp
    split at h
    · cases h; simp
    · cases h
  · split at h
    · exact hsplit h
    · split at h
      · exact hsplit h
      · cases h; simp

/-- The result is the 200 of a project with a safe name to a request of the call. -/
structure Resolved (cache : Cache) (request : Request cfg) (r : ResolveResult) : Prop where
  ok : r.status = 200
  safe : isSafeProjectName r.project = true
  heard : Heard cache request r.project (.response r.status r.headers r.body)

theorem Resolved.relayed {cache : Cache} {request : Request cfg} {r : ResolveResult} (h : Resolved cache request r) :
    Relayed cache request (buildResponse r.status r.headers r.body) := by
  obtain ⟨project, status, headers, body⟩ := r
  obtain ⟨rfl, hsafe, hheard⟩ := h
  exact .resolved project headers body hsafe hheard

theorem resolved_of_probe {cache : Cache} {request : Request cfg} {ds : List Completion} {r : ResolveResult}
    (hheard : ∀ d reply, d ∈ ds → d.answer = .reply reply → Heard cache request d.project reply)
    (h : ∃ d ∈ ds, d.result = .ok r ∧ r.status = 200) : Resolved cache request r := by
  obtain ⟨d, hd, hr, hstatus⟩ := h
  obtain ⟨hproject, hsafe⟩ := Completion.result_ok hr
  refine ⟨hstatus, hproject ▸ hsafe, ?_⟩
  rw [hproject]
  exact hheard d _ hd (Completion.answer_of_result_ok hr)

theorem Fanout.exists_of_parallelLookup_ok {maxFanout : Nat} {f : Fanout maxFanout} {image reference : Text}
    {accept : List Text} {r : ResolveResult} (h : f.parallelLookup image reference accept = .ok r) :
    ∃ d ∈ f.completions, d.result = .ok r ∧ r.status = 200 := by
  obtain ⟨d, hd, hr, hstatus, -⟩ := Fanout.parallelLookup_ok h
  exact ⟨d, Fanout.ended_subset hd, hr, hstatus⟩

/-- Also where the call joins the flight of another one. -/
theorem Manifest.resolved_of_flown {w : World cfg} {cache : Cache} {c : Manifest.Call} {r : ResolveResult}
    (h : w.flown c = .ok r) : Resolved cache (.manifest c w) r := by
  unfold World.flown at h
  split at h
  · exact resolved_of_probe (fun d reply => .probed ‹_›) (Fanout.exists_of_parallelLookup_ok h)
  · rename_i e hjoined
    cases e with
    | received l => exact resolved_of_probe (fun d reply => .joined hjoined) (Fanout.exists_of_parallelLookup_ok h)
    | timedOut => cases h
    | leaderDropped => cases h
    | emptyResult => cases h

theorem Manifest.resolveManifest_ok {w : World cfg} {cache : Cache} {c : Manifest.Call} {r : ResolveResult}
    (h : (w.resolveManifest cache c).result = .ok r) : Resolved cache (.manifest c w) r := by
  have hgoes := resolveManifest_cases w cache c
  generalize w.resolveManifest cache c = trace at hgoes h
  cases hgoes with
  | missed he => exact resolved_of_flown h
  | negative entry he hs => cases h
  | evicted entry project he hp hs hr => exact resolved_of_flown h
  | hit entry project r' he hp hs hr =>
      cases h
      subst hp
      obtain ⟨hproject, hsafe⟩ := retry_ok hr.1
      obtain ⟨attempt, hreply⟩ := reply_of_retry_ok hr.1
      refine ⟨hr.2, hproject ▸ hsafe, ?_⟩
      rw [hproject, ← hreply]
      exact .cached attempt he

theorem Manifest.resolveTags_ok {w : TagsWorld cfg} {cache : Cache} {image : Text} {r : ResolveResult}
    (h : (w.resolveTags cache image).result = .ok r) : Resolved cache (.tags image w) r := by
  have hgoes := resolveTags_cases w cache image
  generalize w.resolveTags cache image = trace at hgoes h
  cases hgoes with
  | missed he => exact resolved_of_probe (fun d reply => .probedTags) (TagsFanout.lookup_ok h)
  | evicted entry he hsafe hr => exact resolved_of_probe (fun d reply => .probedTags) (TagsFanout.lookup_ok h)
  | hit entry r' he hsafe hr =>
      cases h
      refine ⟨hr.2, (fetchManifest_ok hr.1).1 ▸ hsafe, ?_⟩
      rw [(fetchManifest_ok hr.1).1, ← reply_of_fetch_ok hr.1]
      exact .cachedTags he

theorem proxyBlob_answers (cache : Cache) (image digest : Text) (u : BlobUpstream) (p : Text) :
    u.proxyBlob p ∈ ownAnswers ∨ Relayed cache (.blob image digest u : Request cfg) (u.proxyBlob p) := by
  unfold BlobUpstream.proxyBlob
  cases hsafe : isSafeProjectName p with
  | false => exact .inl (by simp [ownAnswers, misrouted])
  | true =>
      cases hget : u.get p with
      | failed e => exact .inl (by simp [ownAnswers, upstreamFailed])
      | response status headers body => exact .inr (.blob image digest u p status headers body rfl hsafe hget)

theorem Request.answer_cases (cache : Cache) (r : Request cfg) :
    r.answer cache ∈ ownAnswers ∨ Relayed cache r (r.answer cache) := by
  cases r with
  | manifest c w =>
      show handleManifest (w.resolveManifest cache c).result ∈ _ ∨
        Relayed _ _ (handleManifest (w.resolveManifest cache c).result)
      cases hr : (w.resolveManifest cache c).result with
      | error e => exact .inl (by simp [ownAnswers, handleManifest])
      | ok r => exact .inr (resolveManifest_ok hr).relayed
  | tags image w =>
      show handleTags (w.resolveTags cache image).result ∈ _ ∨
        Relayed _ _ (handleTags (w.resolveTags cache image).result)
      cases hr : (w.resolveTags cache image).result with
      | error e => exact .inl (by simp [ownAnswers, handleTags])
      | ok r => exact .inr (resolveTags_ok hr).relayed
  | blob image digest u =>
      show u.handleBlob cache image digest ∈ _ ∨ Relayed _ _ (u.handleBlob cache image digest)
      unfold BlobUpstream.handleBlob
      split
      · exact proxyBlob_answers cache image digest u _
      · split
        · exact proxyBlob_answers cache image digest u _
        · exact .inl (by simp [ownAnswers, blobUnknown])

/-- A client gets to see one of eleven fixed answers, whatever went wrong, or what a project with a safe name replied to
a request of the call that was made for the client, its headers filtered. -/
theorem answered_or_relayed (proxyProject : Text) (cache : Cache) (w : Surroundings cfg) (req : HttpRequest)
    {response : Response} (h : registryHandler proxyProject cache w req = some response) :
    (response ∈ ownAnswers ∨
      ∃ r, dispatch proxyProject w req = some (.ok r) ∧ Relayed cache r response) ∧ Filtered response.headers := by
  suffices hcases : response ∈ ownAnswers ∨
      ∃ r, dispatch proxyProject w req = some (.ok r) ∧ Relayed cache r response from
    ⟨hcases, hcases.elim filtered_ownAnswers fun ⟨_, _, hrelayed⟩ => hrelayed.filtered⟩
  obtain ⟨outcome, hdispatch, hanswer⟩ := Option.map_eq_some_iff.mp h
  cases outcome with
  | ok r =>
      subst hanswer
      exact (r.answer_cases cache).imp_right fun hrelayed => ⟨r, hdispatch, hrelayed⟩
  | error refusal =>
      obtain rfl : refusal = response := hanswer
      obtain ⟨rest, -, hrefused⟩ := Option.map_eq_some_iff.mp hdispatch
      left
      cases hauth : req.auth with
      | none =>
          rw [hauth] at hrefused
          cases hrefused
          simp [ownAnswers]
      | some value =>
          rw [hauth] at hrefused
          cases hparse : parsePath rest with
          | error e =>
              rw [hparse] at hrefused
              cases hrefused
              exact List.mem_append_right _ (List.mem_map_of_mem (parsePath_error hparse))
          | ok parts =>
              rw [hparse] at hrefused
              cases hrefused

theorem answered_or_relayed_nginx : ∃ response,
    registryHandler "hub".toList (fun _ => none) oneUp pullNginx = some response ∧ response ∉ ownAnswers ∧
      ((response ∈ ownAnswers ∨ ∃ r, dispatch "hub".toList oneUp pullNginx = some (.ok r) ∧
        Relayed (fun _ => none) r response) ∧ Filtered response.headers) :=
  ⟨_, rfl, by decide, answered_or_relayed "hub".toList (fun _ => none) oneUp pullNginx rfl⟩

end HarborRouter
