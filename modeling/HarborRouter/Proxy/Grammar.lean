import HarborRouter.Proxy.Path

/-!
# The grammar of request paths

A path is an image, the separator of its kind and a reference. `parse_path` looks for the separators one kind after
the other, each at its last occurrence; an image may contain the separator of another kind.

* `render_injective` : a path has one decomposition at most;
* `parsePath_sound` : what is accepted is such a path, and the handler parses what follows its prefix;
* `parsePath_render_iff` : which paths parse back.
-/

namespace HarborRouter
open Lib Text

/-- The path of an image and a reference; a tag list has no reference of its own. -/
def PathKind.render (image reference : Text) : PathKind → Text
  | .manifests => image ++ "/manifests/".toList ++ reference
  | .blobs => image ++ "/blobs/".toList ++ reference
  | .tags => image ++ "/tags/list".toList

def PathKind.parsed (reference : Text) : PathKind → Text
  | .manifests | .blobs => reference
  | .tags => "list".toList

structure WellFormed (image : Text) (kind : PathKind) (reference : Text) : Prop where
  image_ne : image ≠ []
  image_dots : ¬ "..".toList <:+: image
  image_backslash : '\\' ∉ image
  image_control : ∀ c ∈ image, isControl c = false
  image_head : image.head? ≠ some '/'
  image_last : image.getLast? ≠ some '/'
  reference_ne : reference ≠ []
  reference_slash : '/' ∉ reference
  reference_dots : ¬ "..".toList <:+: reference
  reference_backslash : '\\' ∉ reference
  reference_control : ∀ c ∈ reference, isControl c = false
  tags : kind = .tags → reference = "list".toList

theorem wellFormed_of_safe {image reference : Text} {kind : PathKind} (himage : isSafeImageName image = true)
    (href : isSafeReference reference = true) (htags : kind = .tags → reference = "list".toList) :
    WellFormed image kind reference := by
  obtain ⟨h1, h2, h3, h4, h5, h6, -⟩ := isSafeImageName_iff.mp himage
  obtain ⟨r1, r2, r3, r4, r5, -⟩ := isSafeReference_iff.mp href
  exact ⟨h1, h2, h3, h4, h5, h6, r1, r2, r4, r3, r5, htags⟩

/-! ## One decomposition -/

/-- The last two components of a path: the endpoint of its kind, and the reference. -/
def PathKind.endpoint : PathKind → Text
  | .manifests => "manifests".toList
  | .blobs => "blobs".toList
  | .tags => "tags".toList

theorem render_eq (image reference : Text) (kind : PathKind) :
    kind.render image reference = image ++ ('/' :: kind.endpoint ++ '/' :: kind.parsed reference) := by
  cases kind with
  | manifests => exact List.append_assoc ..
  | blobs => exact List.append_assoc ..
  | tags => rfl

theorem slash_notMem_endpoint (kind : PathKind) : '/' ∉ kind.endpoint := by
  cases kind <;> decide

theorem endpoint_injective {k l : PathKind} (h : k.endpoint = l.endpoint) : k = l := by
  have hlength := congrArg List.length h
  cases k <;> cases l <;> first | rfl | exact absurd hlength (by decide)

theorem parsed_eq {kind : PathKind} {reference : Text} (h : kind = .tags → reference = "list".toList) :
    kind.parsed reference = reference := by
  cases kind with
  | tags => exact (h rfl).symm
  | _ => rfl

/-- A path has one decomposition: its last component is the reference, the one before it names the kind. -/
theorem render_injective {image image' reference reference' : Text} {kind kind' : PathKind}
    (href : '/' ∉ kind.parsed reference) (href' : '/' ∉ kind'.parsed reference')
    (h : kind.render image reference = kind'.render image' reference') :
    image = image' ∧ kind = kind' ∧ kind.parsed reference = kind'.parsed reference' := by
  rw [render_eq, render_eq, ← List.append_assoc, ← List.append_assoc] at h
  obtain ⟨hinit, hreference⟩ := last_cut_eq href href' h
  obtain ⟨himage, hendpoint⟩ := last_cut_eq (slash_notMem_endpoint kind) (slash_notMem_endpoint kind') hinit
  exact ⟨himage, endpoint_injective hendpoint, hreference⟩

/-! ## The handler -/

/-- The prefix of the route `/v2/<proxy_project>/*`. -/
def routePrefix (proxyProject : Text) : Text := "/v2/".toList ++ proxyProject ++ "/".toList

/-- The part of a request path that `registry_handler` parses; `none` is the panic of a slice inside a character. -/
def remainder (proxyProject path : Text) : Option Text :=
  let prefixLen := 4 + byteLen proxyProject + 1
  if prefixLen < byteLen path then sliceFrom path prefixLen else some path

theorem remainder_route {rest : Text} (proxyProject : Text) (h : rest ≠ []) :
    remainder proxyProject (routePrefix proxyProject ++ rest) = some rest := by
  have hlen : 4 + byteLen proxyProject + 1 = byteLen (routePrefix proxyProject) := by
    show _ = byteLen ("/v2/".toList ++ proxyProject ++ "/".toList)
    rw [byteLen_append, byteLen_append]
    rfl
  have hpos := byteLen_pos h
  have hlong : byteLen (routePrefix proxyProject) < byteLen (routePrefix proxyProject ++ rest) := by
    rw [byteLen_append]
    omega
  rw [remainder, hlen, if_pos hlong, sliceFrom_append]

/-! ## What is accepted -/

theorem render_of_parsePath {path image reference : Text} {kind : PathKind}
    (h : parsePath path = .ok (image, kind, reference)) :
    path = kind.render image reference ∧ WellFormed image kind reference := by
  obtain ⟨hpath, himage, href, htags⟩ := parsePath_ok h
  refine ⟨?_, wellFormed_of_safe himage href htags⟩
  rw [hpath]
  cases kind with
  | manifests => rfl
  | blobs => rfl
  | tags =>
      rw [htags rfl]
      exact List.append_assoc ..

/-- `parse_path` accepts its grammar only: an accepted path is the rendering of what is returned, which is well formed,
and of no other well-formed parts; and the handler parses exactly what follows the prefix of its route. -/
theorem parsePath_sound :
    (∀ path image kind reference, parsePath path = .ok (image, kind, reference) →
      path = kind.render image reference ∧ WellFormed image kind reference ∧
        ∀ image' kind' reference', WellFormed image' kind' reference' → kind'.render image' reference' = path →
          image' = image ∧ kind' = kind ∧ reference' = reference) ∧
    ∀ proxyProject rest, rest ≠ [] → remainder proxyProject (routePrefix proxyProject ++ rest) = some rest := by
  refine ⟨fun path image kind reference h => ?_, fun proxyProject rest hrest => remainder_route proxyProject hrest⟩
  obtain ⟨hpath, hformed⟩ := render_of_parsePath h
  refine ⟨hpath, hformed, fun image' kind' reference' hformed' hrender => ?_⟩
  have hself := parsed_eq hformed.tags
  have hself' := parsed_eq hformed'.tags
  have := render_injective (by rw [hself']; exact hformed'.reference_slash)
    (by rw [hself]; exact hformed.reference_slash) (hrender.trans hpath)
  rwa [hself, hself'] at this

/-! ## What parses back -/

section Render
variable {image reference : Text}

theorem count_slash_le (href : '/' ∉ reference) (endpoint : Text) (hend : '/' ∉ endpoint) {j : Nat}
    (hj : image.length < j) : (List.drop j (image ++ ('/' :: endpoint ++ '/' :: reference))).count '/' ≤ 1 := by
  have hdrop : List.drop j (image ++ ('/' :: endpoint ++ '/' :: reference)) =
      List.drop (j - image.length - 1) (endpoint ++ '/' :: reference) := by
    rw [List.drop_append, List.drop_of_length_le (Nat.le_of_lt hj), List.nil_append]
    obtain ⟨k, hk⟩ := Nat.exists_eq_add_of_lt hj
    rw [show j - image.length = k + 1 by omega]
    rfl
  rw [hdrop]
  refine ((List.drop_sublist _ _).count_le _).trans ?_
  rw [List.count_append, List.count_cons_self, List.count_eq_zero.mpr hend, List.count_eq_zero.mpr href]

theorem rfind_separator (href : '/' ∉ reference) (endpoint : Text) (hend : '/' ∉ endpoint) :
    rfind ('/' :: endpoint ++ ['/']) (image ++ ('/' :: endpoint ++ '/' :: reference)) = some image.length := by
  refine rfind_of_last (by simp) ?_ fun j hj hpre => ?_
  · rw [List.drop_left]
    exact ⟨reference, by simp⟩
  · -- the separator has two slashes, and only one is left
    have htwo : ('/' :: endpoint ++ ['/']).count '/' = 2 := by
      simp [List.count_eq_zero.mpr hend]
    have := (hpre.sublist.count_le '/').trans (count_slash_le href endpoint hend hj)
    omega

theorem stripSuffix_none {endpoint : Text} (hend : '/' ∉ endpoint) (htags : endpoint ≠ "tags".toList)
    (href : '/' ∉ reference) :
    stripSuffix "/tags/list".toList (image ++ ('/' :: endpoint ++ '/' :: reference)) = none := by
  cases h : stripSuffix "/tags/list".toList (image ++ ('/' :: endpoint ++ '/' :: reference)) with
  | none => rfl
  | some a =>
      have hsplit : image ++ '/' :: endpoint ++ '/' :: reference =
          a ++ '/' :: "tags".toList ++ '/' :: "list".toList := by
        rw [List.append_assoc, stripSuffix_eq_some.mp h, List.append_assoc]
        rfl
      obtain ⟨hinit, -⟩ := last_cut_eq href (by decide) hsplit
      exact absurd (last_cut_eq hend (by decide) hinit).2 htags

/-- A separator in a path stands in the image, or is that of the path. -/
theorem infix_path_iff (endpoint other : Text) (hend : '/' ∉ endpoint) (hother : '/' ∉ other) (hne : endpoint ≠ other)
    (href : '/' ∉ reference) : '/' :: other ++ ['/'] <:+: image ++ ('/' :: endpoint ++ '/' :: reference) ↔
      '/' :: other ++ ['/'] <:+: image ++ ['/'] := by
  constructor
  · rintro ⟨x, y, h⟩
    have hcut : x ++ '/' :: other ++ '/' :: y = image ++ '/' :: endpoint ++ '/' :: reference := by
      rw [List.append_assoc image, ← h]
      simp
    rcases cut_eq_cut hcut with ⟨hinit, -⟩ | ⟨s, -, rfl⟩ | ⟨s, hinit, -⟩
    · exact absurd (last_cut_eq hother hend hinit).2.symm hne
    · exact absurd (by simp) href
    · rcases cut_eq_cut hinit with ⟨rfl, -⟩ | ⟨t, rfl, -⟩ | ⟨t, -, rfl⟩
      · exact ⟨x, [], by simp⟩
      · exact ⟨x, t ++ ['/'], by simp⟩
      · exact absurd (by simp) hend
  · intro h
    refine h.trans ⟨[], endpoint ++ '/' :: reference, ?_⟩
    simp

theorem splitAt_render {sep : Text} (kind : PathKind) (himage : isSafeImageName image = true)
    (href : isSafeReference reference = true) :
    splitAt (image ++ sep ++ reference) sep kind image.length = .ok (image, kind, reference) := by
  have hne : ¬ (image = [] ∨ reference = []) := by
    rintro (rfl | rfl)
    · exact absurd himage (by decide)
    · exact absurd href (by decide)
  have himg : (image ++ sep ++ reference).take image.length = image := by rw [List.append_assoc, List.take_left]
  have hrest : (image ++ sep ++ reference).drop (image.length + sep.length) = reference := by
    rw [← List.length_append, List.drop_left]
  rw [splitAt, himg, hrest, himage, href]
  simp [hne]

theorem parsePath_tags (himage : isSafeImageName image = true) :
    parsePath (PathKind.tags.render image reference) = .ok (image, .tags, "list".toList) := by
  have hne : image ≠ [] := by
    rintro rfl
    exact absurd himage (by decide)
  have hstrip : stripSuffix "/tags/list".toList (PathKind.tags.render image reference) = some image :=
    stripSuffix_eq_some.mpr rfl
  rw [parsePath, hstrip]
  simp [hne, himage]

theorem parsePath_manifests (himage : isSafeImageName image = true) (href : isSafeReference reference = true) :
    parsePath (PathKind.manifests.render image reference) = .ok (image, .manifests, reference) := by
  have hslash := (isSafeReference_iff.mp href).2.1
  have hstrip : stripSuffix "/tags/list".toList (PathKind.manifests.render image reference) = none := by
    rw [render_eq]
    exact stripSuffix_none (by decide) (by decide) hslash
  have hfind : rfind "/manifests/".toList (PathKind.manifests.render image reference) = some image.length := by
    rw [render_eq]
    exact rfind_separator hslash "manifests".toList (by decide)
  rw [parsePath, hstrip]
  dsimp only
  rw [hfind]
  exact splitAt_render .manifests himage href

/-- The path of a blob parses back exactly when its image does not contain the separator of a manifest. -/
theorem parsePath_blobs_iff (himage : isSafeImageName image = true) (href : isSafeReference reference = true) :
    parsePath (PathKind.blobs.render image reference) = .ok (image, .blobs, reference) ↔
      ¬ "/manifests/".toList <:+: image ++ ['/'] := by
  have hslash := (isSafeReference_iff.mp href).2.1
  have hstrip : stripSuffix "/tags/list".toList (PathKind.blobs.render image reference) = none := by
    rw [render_eq]
    exact stripSuffix_none (by decide) (by decide) hslash
  have hinfix : "/manifests/".toList <:+: PathKind.blobs.render image reference ↔
      "/manifests/".toList <:+: image ++ ['/'] := by
    rw [render_eq]
    exact infix_path_iff "blobs".toList "manifests".toList (by decide) (by decide) (by decide) hslash
  rw [parsePath, hstrip, ← hinfix, ← rfind_eq_none]
  dsimp only
  constructor
  · intro h
    cases hm : rfind "/manifests/".toList (PathKind.blobs.render image reference) with
    | none => rfl
    | some idx =>
        rw [hm] at h
        obtain ⟨-, hkind, -⟩ := splitAt_ok (by decide) hm h
        cases hkind
  · intro hm
    have hfind : rfind "/blobs/".toList (PathKind.blobs.render image reference) = some image.length := by
      rw [render_eq]
      exact rfind_separator hslash "blobs".toList (by decide)
    rw [hm]
    dsimp only
    rw [hfind]
    exact splitAt_render .blobs himage href

/-- Which request paths parse back: all but those of blobs whose image contains the separator of a manifest. -/
theorem parsePath_render_iff (image reference : Text) (kind : PathKind) (himage : isSafeImageName image = true)
    (href : isSafeReference reference = true) :
    parsePath (kind.render image reference) = .ok (image, kind, kind.parsed reference) ↔
      (kind = .blobs → ¬ "/manifests/".toList <:+: image ++ ['/']) := by
  cases kind with
  | manifests => exact iff_of_true (parsePath_manifests himage href) nofun
  | blobs => exact (parsePath_blobs_iff himage href).trans ⟨fun h _ => h, fun h => h rfl⟩
  | tags => exact iff_of_true (parsePath_tags himage) nofun

theorem parsePath_render_iff_nginx :
    parsePath (PathKind.blobs.render "library/nginx".toList "sha256:0".toList) =
        .ok ("library/nginx".toList, .blobs, PathKind.blobs.parsed "sha256:0".toList) ↔
      (PathKind.blobs = .blobs → ¬ "/manifests/".toList <:+: "library/nginx".toList ++ ['/']) :=
  parsePath_render_iff "library/nginx".toList "sha256:0".toList .blobs (by decide) (by decide)

/-- A blob of the image `a/manifests/b` is taken for a manifest with a slash in its reference. -/
theorem manifests_component_unparsed : ¬ ∀ (image reference : Text) (kind : PathKind), isSafeImageName image = true →
    isSafeReference reference = true →
      parsePath (kind.render image reference) = .ok (image, kind, kind.parsed reference) := by
  intro h
  have hparsed := h "a/manifests/b".toList "sha256:0".toList .blobs (by decide) (by decide)
  have herror : parsePath (PathKind.blobs.render "a/manifests/b".toList "sha256:0".toList) =
      .error unsafeReference := by
    decide
  rw [herror] at hparsed
  cases hparsed

end Render

end HarborRouter
