import HarborRouter.Resolver.Url

/-!
# The project in an upstream URL

`is_safe_project_name` is the last check of a project name that comes from the shared cache. It looks at the raw
name: a URL parser also ends the path at `?` and `#` and drops segments that are dots, however they are spelled.

* `Addressed` : a request goes to the endpoint of the image in the project, and nothing else;
* `addressed_iff` : which safe names are addressed.
-/

namespace HarborRouter
open Lib Text UrlPath Stack

/-- The characters of images and references that no URL parser changes. -/
def isNameChar (c : Char) : Bool := c.isAlphanum || c == '-' || c == '_'

/-- Components of letters, digits, `-` and `_` between single slashes. -/
structure IsImage (image : Text) : Prop where
  chars : ∀ c ∈ image, isNameChar c = true ∨ c = '/'
  components : [] ∉ segments image

def IsReference (reference : Text) : Prop := ∀ c ∈ reference, isNameChar c = true ∨ c = ':'

instance (image : Text) : Decidable (IsImage image) :=
  decidable_of_iff ((image.all fun c => isNameChar c || c = '/') = true ∧ [] ∉ segments image)
    ⟨fun h => ⟨by simpa using h.1, h.2⟩, fun h => ⟨by simpa using h.chars, h.components⟩⟩

instance (reference : Text) : Decidable (IsReference reference) :=
  decidable_of_iff ((reference.all fun c => isNameChar c || c = ':') = true) (by simp [IsReference])

/-- `<base>/v2/<project>/<image>/` and the endpoint, the project percent-encoded. -/
def HarborUrl.endpointPath (harbor : HarborUrl) (project image reference : Text) (kind : PathKind) : Text :=
  harbor.basePath ++ "/v2/".toList ++ encode project ++ '/' :: (image ++ '/' :: kind.suffix reference)

/-- Every request for the image goes to its endpoint below the project, which is one segment of the path, and has
neither a query nor a fragment. -/
structure Addressed (harbor : HarborUrl) (project image reference : Text) (kind : PathKind) : Prop where
  segment : '/' ∉ encode project
  path : ∀ url ∈ kind.urls harbor.text project image reference,
    urlPath url = harbor.endpointPath project image reference kind
  bare : ∀ url ∈ kind.urls harbor.text project image reference, ∀ c ∈ afterAuthority url, endsPath c = false

/-- The name neither ends the path nor is a dot segment. -/
def Addressable (project : Text) : Prop :=
  (∀ c ∈ project, endsPath c = false) ∧ isSingleDot project = false ∧ isDoubleDot project = false

instance (project : Text) : Decidable (Addressable project) := inferInstanceAs (Decidable (_ ∧ _ ∧ _))

/-! ## Characters that stay as they are -/

/-- What the parser does to a character: nothing. -/
def isKept (c : Char) : Bool :=
  !mustEncode c && c.toLower != '.' && c.toLower != '%' && c != '\\' && !endsPath c

theorem isNameChar_ascii {c : Char} (h : isNameChar c = true) : c.toNat < 128 := by
  have hcases : c.isAlphanum = true ∨ c = '-' ∨ c = '_' := by simpa [isNameChar, or_assoc] using h
  rcases hcases with h | rfl | rfl
  · delta Char.isAlphanum Char.isAlpha Char.isUpper Char.isLower Char.isDigit at h
    simp only [Bool.or_eq_true, Bool.and_eq_true, decide_eq_true_eq, UInt32.le_iff_toNat_le, ge_iff_le] at h
    change ((65 ≤ c.toNat ∧ c.toNat ≤ 90) ∨ 97 ≤ c.toNat ∧ c.toNat ≤ 122) ∨ 48 ≤ c.toNat ∧ c.toNat ≤ 57 at h
    omega
  · decide
  · decide

theorem isKept_of_isNameChar {c : Char} (h : isNameChar c = true) : isKept c = true := by
  have hall : ∀ n < 128, isNameChar (Char.ofNat n) = true → isKept (Char.ofNat n) = true := by decide
  have := hall c.toNat (isNameChar_ascii h)
  rw [Char.ofNat_toNat] at this
  exact this h

theorem isKept_iff {c : Char} : isKept c = true ↔
    mustEncode c = false ∧ c.toLower ≠ '.' ∧ c.toLower ≠ '%' ∧ c ≠ '\\' ∧ endsPath c = false := by
  simp only [isKept, Bool.and_eq_true, Bool.not_eq_true', bne_iff_ne, and_assoc]

def Kept (s : Text) : Prop := ∀ c ∈ s, isKept c = true

theorem Kept.append {a b : Text} (ha : Kept a) (hb : Kept b) : Kept (a ++ b) := fun c hc =>
  (List.mem_append.mp hc).elim (ha c) (hb c)

theorem Kept.cons {c : Char} {s : Text} (hc : isKept c = true) (hs : Kept s) : Kept (c :: s) :=
  List.forall_mem_cons.mpr ⟨hc, hs⟩

theorem IsImage.kept {image : Text} (h : IsImage image) : Kept image := by
  intro c hc
  rcases h.chars c hc with hc | rfl
  · exact isKept_of_isNameChar hc
  · rfl

theorem IsReference.kept {reference : Text} (h : IsReference reference) : Kept reference := by
  intro c hc
  rcases h c hc with hc | rfl
  · exact isKept_of_isNameChar hc
  · rfl

theorem kept_suffix {reference : Text} (h : Kept reference) (kind : PathKind) : Kept (kind.suffix reference) := by
  have hkept : ∀ s : Text, (s.all isKept) = true → Kept s := fun s hs => List.all_eq_true.mp hs
  cases kind with
  | manifests => exact (hkept "manifests".toList (by decide)).append (h.cons rfl)
  | blobs => exact (hkept "blobs".toList (by decide)).append (h.cons rfl)
  | tags => exact hkept "tags/list".toList (by decide)

/-! ## Paths -/

theorem run_kept {s : Text} (h : Kept s) (floor : List Text) :
    serialize (run (script (segments (pathPart s))) floor).reverse = serialize floor.reverse ++ '/' :: s := by
  have hback : '\\' ∉ s := fun hm => (isKept_iff.mp (h _ hm)).2.2.2.1 rfl
  have hend : ∀ c ∈ s, endsPath c = false := fun c hc => (isKept_iff.mp (h c hc)).2.2.2.2
  have hself : pathPart s = s := by simpa [pathPart] using pathPart_append hend []
  have hchars : ∀ seg ∈ segments s, ∀ c ∈ seg, c ∈ s := by
    intro seg hseg c hc
    have hm : c ∈ serialize (segments s) := List.mem_flatMap.mpr ⟨seg, hseg, List.mem_cons_of_mem _ hc⟩
    rw [serialize_segments hback] at hm
    refine (List.mem_cons.mp hm).resolve_left ?_
    rintro rfl
    exact absurd (clean_of_mem_segments hseg _ hc) (by decide)
  have hplain : ∀ seg ∈ segments s, Plain seg := fun seg hseg =>
    plain_of_forall (fun c hc => (isKept_iff.mp (h c (hchars seg hseg c hc))).1) fun c hc =>
      ⟨(isKept_iff.mp (h c (hchars seg hseg c hc))).2.1, (isKept_iff.mp (h c (hchars seg hseg c hc))).2.2.1⟩
  rw [hself, script_plain hplain, run_pushes, List.reverse_append, List.reverse_reverse, ← serialize_segments hback]
  exact List.flatMap_append

section Project
variable {harbor : HarborUrl} {project image reference : Text} {kind : PathKind}

theorem clean_project (hsafe : isSafeProjectName project = true) (hend : ∀ c ∈ project, endsPath c = false) :
    Clean project := by
  have h := isSafeProjectName_iff.mp hsafe
  refine fun c hc => ⟨?_, hend c hc⟩
  rw [isSeparator, Bool.or_eq_false_iff, beq_eq_false_iff_ne, beq_eq_false_iff_ne]
  exact ⟨fun he => h.2.1 (he ▸ hc), fun he => h.2.2.1 (he ▸ hc)⟩

theorem urlPath_project (hproject : Clean project) (himage : Kept image) (href : Kept reference) {url : Text}
    (hurl : url ∈ kind.urls harbor.text project image reference) : urlPath url =
      serialize (settle (harbor.base ++ ["v2".toList, project])).reverse ++ '/' ::
        (image ++ '/' :: kind.suffix reference) := by
  have hroot : ∀ seg ∈ harbor.base ++ ["v2".toList, project], Clean seg := by
    simp only [List.forall_mem_append, List.forall_mem_cons, List.not_mem_nil, false_implies, implies_true, and_true]
    exact ⟨harbor.base_ok, by decide, hproject⟩
  have hrest : Kept (image ++ '/' :: kind.suffix reference) := himage.append ((kept_suffix href kind).cons rfl)
  rw [mem_urls.mp hurl, urlPath_upstreamUrl, path_below hroot, run_kept hrest]

theorem settle_v2 (harbor : HarborUrl) (project : Text) :
    settle (harbor.base ++ ["v2".toList, project]) = (segmentOp project).apply ("v2".toList :: settle harbor.base) := by
  have hv2 : Plain "v2".toList := rfl
  rw [List.append_cons, settle, List.map_append, run_append, ← settle, settle_plain hv2]
  rfl

theorem afterAuthority_urls {url : Text} (hurl : url ∈ kind.urls harbor.text project image reference) :
    afterAuthority url = serialize harbor.base ++ '/' :: ("v2/".toList ++ project ++ '/' ::
      (image ++ '/' :: kind.suffix reference)) := by
  rw [mem_urls.mp hurl, ← afterAuthority_text]
  simp [upstreamUrl]

/-- Which safe project names are addressed by the requests for them, whatever the image, the reference and the
endpoint. -/
theorem addressed_iff (harbor : HarborUrl) (project image reference : Text) (kind : PathKind)
    (hsafe : isSafeProjectName project = true) (himage : IsImage image) (href : IsReference reference) :
    Addressed harbor project image reference kind ↔ Addressable project := by
  obtain ⟨url, hurl⟩ : ∃ url, url ∈ kind.urls harbor.text project image reference := ⟨_, mem_urls.mpr rfl⟩
  have hslash : '/' ∉ encode project := slash_notMem_encode (isSafeProjectName_iff.mp hsafe).2.1
  constructor
  · intro h
    have hend : ∀ c ∈ project, endsPath c = false := fun c hc =>
      h.bare url hurl c (by rw [afterAuthority_urls hurl]; simp [hc])
    have hpath := h.path url hurl
    rw [urlPath_project (clean_project hsafe hend) himage.kept href.kept hurl, HarborUrl.endpointPath,
      List.append_cancel_right_eq, settle_v2] at hpath
    -- with a dot segment for a project the path would be shorter
    have hlength := congrArg List.length hpath
    refine ⟨hend, ?_, ?_⟩
    · by_contra hdot
      rw [Bool.not_eq_false] at hdot
      rw [segmentOp, isDoubleDot_of_isSingleDot hdot, if_neg Bool.false_ne_true, if_pos hdot] at hlength
      simp [Op.apply, HarborUrl.basePath, serialize] at hlength
    · by_contra hdot
      rw [Bool.not_eq_false] at hdot
      rw [segmentOp, if_pos hdot] at hlength
      simp [Op.apply, HarborUrl.basePath, serialize] at hlength
  · rintro ⟨hend, hsingle, hdouble⟩
    have hproject := clean_project hsafe hend
    refine ⟨hslash, fun url hurl => ?_, fun url hurl c hc => ?_⟩
    · rw [urlPath_project hproject himage.kept href.kept hurl, settle_v2, segmentOp, hdouble, hsingle]
      simp [Op.apply, HarborUrl.endpointPath, HarborUrl.basePath, serialize]
    · rw [afterAuthority_urls hurl] at hc
      have hbase : ∀ c ∈ serialize harbor.base, endsPath c = false := by
        intro c hc
        obtain ⟨seg, hseg, hc⟩ := List.mem_flatMap.mp hc
        rcases List.mem_cons.mp hc with rfl | hc
        · rfl
        · exact (harbor.base_ok seg hseg c hc).2
      have hv2 : ∀ c ∈ "v2/".toList, endsPath c = false := by
        have hall : ("v2/".toList.all fun c => !endsPath c) = true := by decide
        simpa using hall
      have hkept : ∀ {s : Text}, Kept s → ∀ c ∈ s, endsPath c = false := fun hs c hc =>
        (isKept_iff.mp (hs c hc)).2.2.2.2
      simp only [List.mem_append, List.mem_cons] at hc
      rcases hc with hc | rfl | (hc | hc) | rfl | hc | rfl | hc
      · exact hbase c hc
      · rfl
      · exact hv2 c hc
      · exact hend c hc
      · rfl
      · exact hkept himage.kept c hc
      · rfl
      · exact hkept (kept_suffix href.kept kind) c hc

end Project

theorem addressed_iff_dockerhub :
    Addressed harborCore "dockerhub".toList "library/nginx".toList "latest".toList .manifests ↔
      Addressable "dockerhub".toList :=
  addressed_iff harborCore "dockerhub".toList "library/nginx".toList "latest".toList .manifests (by decide)
    (by decide) (by decide)

/-- A cached project `%2e%2e` is safe, and the manifest is requested outside `/v2/`. -/
theorem dots_leave_endpoint : ¬ ∀ (harbor : HarborUrl) (project image reference : Text) (kind : PathKind),
    isSafeProjectName project = true → IsImage image → IsReference reference →
      Addressed harbor project image reference kind := by
  intro h
  have haddressed := h harborCore "%2e%2e".toList "library/nginx".toList "latest".toList .manifests (by decide)
    (by decide) (by decide)
  have hpath : urlPath (fetchManifestUrl harborCore.text "%2e%2e".toList "library/nginx".toList "latest".toList) =
      "/library/nginx/manifests/latest".toList := by decide
  have := haddressed.path _ (List.mem_singleton.mpr rfl)
  rw [hpath] at this
  exact absurd this (by decide)

end HarborRouter
