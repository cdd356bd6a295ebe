import HarborRouter.Lib.Exposition
import HarborRouter.Metrics.TopImages

/-!
# The metrics page

`render` appends to what the encoder of the metrics crate writes: the top images of the two popularity maps, and how
many images each of them tracks. The images are names that clients chose.

* `escapeLabelValue_labelValue` : the three replacements write a label value that stands for the image;
* `lines_render` : the lines of the page;
* `render_injection_free` : each of the top images has its one sample line, and nothing else is a sample of its family.
-/

namespace HarborRouter.Metrics
open Lib Text Exposition

/-! ## Label values -/

def escapeLabelValue (s : Text) : Text :=
  replace '\n' "\\n".toList (replace '"' "\\\"".toList (replace '\\' "\\\\".toList s))

theorem escapeLabelValue_append (a b : Text) :
    escapeLabelValue (a ++ b) = escapeLabelValue a ++ escapeLabelValue b := by
  rw [escapeLabelValue, replace_append, replace_append, replace_append]
  rfl

theorem escapeLabelValue_char (c : Char) :
    (∃ d, unescapeChar d = some c ∧ escapeLabelValue [c] = ['\\', d]) ∨
      (c ≠ '\\' ∧ c ≠ '"' ∧ c ≠ '\n') ∧ escapeLabelValue [c] = [c] := by
  by_cases hslash : c = '\\'
  · subst hslash
    exact .inl ⟨'\\', rfl, rfl⟩
  by_cases hquote : c = '"'
  · subst hquote
    exact .inl ⟨'"', rfl, rfl⟩
  by_cases hline : c = '\n'
  · subst hline
    exact .inl ⟨'n', rfl, rfl⟩
  refine .inr ⟨⟨hslash, hquote, hline⟩, ?_⟩
  rw [escapeLabelValue, replace_singleton_of_ne hslash, replace_singleton_of_ne hquote, replace_singleton_of_ne hline]

/-- The three replacements write a label value that stands for the text. -/
theorem escapeLabelValue_labelValue (s : Text) : LabelValue (escapeLabelValue s) s := by
  induction s with
  | nil => exact .nil
  | cons c s ih =>
      rw [← List.singleton_append, escapeLabelValue_append]
      rcases escapeLabelValue_char c with ⟨d, hd, hescape⟩ | ⟨⟨hslash, hquote, hline⟩, hescape⟩
      · rw [hescape]
        exact .escape hd ih
      · rw [hescape]
        exact .char hslash hquote hline ih

-- the other way round, the backslash before a quote would be doubled
example : unescape (replace '\\' "\\\\".toList (replace '"' "\\\"".toList ['"'])) = some ['\\', '"'] := by decide

theorem escapeLabelValue_injective : Function.Injective escapeLabelValue := by
  intro s t h
  have hs := (escapeLabelValue_labelValue s).unescape_eq
  rw [h, (escapeLabelValue_labelValue t).unescape_eq] at hs
  exact (Option.some.inj hs).symm

/-! ## The page -/

def topNImages : Nat := 100

/-- What one iteration over a map meets: each key once, with the count it has then. -/
structure Iteration where
  counts : Counts
  order : List Text
  isOrder : counts.IsOrder order

def registeredFamilies : List Text :=
  ["harbor_router_requests_total", "harbor_router_request_duration_seconds", "harbor_router_inflight_requests",
    "harbor_router_response_bytes_total", "harbor_router_rate_limit_rejected_total",
    "harbor_router_resolve_duration_seconds", "harbor_router_tags_resolve_duration_seconds",
    "harbor_router_cache_lookups_total", "harbor_router_negative_cache_hits_total",
    "harbor_router_cache_stale_serves_total", "harbor_router_singleflight_dedup_total",
    "harbor_router_singleflight_inflight", "harbor_router_singleflight_wait_duration_seconds",
    "harbor_router_upstream_requests_total", "harbor_router_upstream_project_duration_seconds",
    "harbor_router_upstream_connection_errors_total", "harbor_router_blob_proxy_duration_seconds",
    "harbor_router_blob_probe_total", "harbor_router_fanout_size", "harbor_router_discovered_projects",
    "harbor_router_discovery_errors_total", "harbor_router_discovery_last_success_timestamp_seconds",
    "harbor_router_discovery_duration_seconds", "harbor_router_circuit_breaker_state",
    "harbor_router_circuit_breaker_transitions_total", "harbor_router_retries_total",
    "harbor_router_redis_operations_total", "harbor_router_redis_fallback_total",
    "harbor_router_redis_reconnections_total", "harbor_router_cache_entries", "harbor_router_build_info",
    "harbor_router_image_requests_total"].map String.toList

def topManifestImagesFamily : Text := "harbor_router_top_manifest_images".toList

def topBlobImagesFamily : Text := "harbor_router_top_blob_images".toList

def trackedImagesFamily : Text := "harbor_router_tracked_images_total".toList

def helpLine (family help : Text) : Text := "# HELP ".toList ++ family ++ " ".toList ++ help

def typeLine (family : Text) : Text := "# TYPE ".toList ++ family ++ " gauge".toList

def header (family help : Text) : Text := '\n' :: helpLine family help ++ '\n' :: typeLine family ++ ['\n']

def gaugeLine (family label value : Text) (n : Nat) : Text :=
  family ++ "\x7b".toList ++ label ++ "=\"".toList ++ value ++ "\"\x7d ".toList ++ decimal n

def topLine (family : Text) (e : Text × Nat) : Text := gaugeLine family "image".toList (escapeLabelValue e.1) e.2

def pushTop (family buf : Text) (top : List (Text × Nat)) : Text :=
  top.foldl (fun buf e => buf ++ (topLine family e ++ ['\n'])) buf

/-- `render`, where the encoder writes `encoded`, and the maps have these lengths when it asks for them. -/
def render {ε : Type} (encoded : Except ε Text) (manifests blobs : Iteration) (manifestCount blobCount : Nat) :
    Except ε Text := do
  let buf ← encoded
  let buf := buf ++ header topManifestImagesFamily "Top requested images by manifest pulls".toList
  let buf := pushTop topManifestImagesFamily buf (manifests.counts.topManifestImages manifests.order topNImages)
  let buf := buf ++ header topBlobImagesFamily "Top requested images by blob pulls".toList
  let buf := pushTop topBlobImagesFamily buf (blobs.counts.topBlobImages blobs.order topNImages)
  let buf := buf ++ header trackedImagesFamily "Number of unique images being tracked".toList
  let buf := buf ++ (gaugeLine trackedImagesFamily "type".toList "manifest".toList manifestCount ++ ['\n'])
  let buf := buf ++ (gaugeLine trackedImagesFamily "type".toList "blob".toList blobCount ++ ['\n'])
  .ok buf

/-! ## Its lines -/

def topSample (family : Text) (e : Text × Nat) : Sample := ⟨family, [("image".toList, e.1)], decimal e.2, none⟩

def familyLines (family help : Text) (samples : List Text) : List Text :=
  helpLine family help :: typeLine family :: samples

def pageLines (manifests blobs : List (Text × Nat)) (manifestCount blobCount : Nat) : List Text :=
  familyLines topManifestImagesFamily "Top requested images by manifest pulls".toList
      (manifests.map (topLine topManifestImagesFamily)) ++
    [] :: familyLines topBlobImagesFamily "Top requested images by blob pulls".toList
      (blobs.map (topLine topBlobImagesFamily)) ++
    [] :: familyLines trackedImagesFamily "Number of unique images being tracked".toList
      [gaugeLine trackedImagesFamily "type".toList "manifest".toList manifestCount,
        gaugeLine trackedImagesFamily "type".toList "blob".toList blobCount]

theorem isName_topManifestImages : isName isNameChar topManifestImagesFamily = true := by decide

theorem isName_topBlobImages : isName isNameChar topBlobImagesFamily = true := by decide

theorem isName_trackedImages : isName isNameChar trackedImagesFamily = true := by decide

theorem isName_image : isName isLabelChar "image".toList = true := by decide

theorem isName_type : isName isLabelChar "type".toList = true := by decide

theorem labelValue_manifest : LabelValue "manifest".toList "manifest".toList := .of_plain (by decide)

theorem labelValue_blob : LabelValue "blob".toList "blob".toList := .of_plain (by decide)

section Lines
variable {ε : Type} {family help label value s l text : Text} {top tm tb : List (Text × Nat)} {n mc bc : Nat}

theorem gaugeLine_eq : gaugeLine family label value n =
    family ++ '\x7b' :: (label ++ '=' :: '"' :: (value ++ '"' :: '\x7d' :: ' ' :: decimal n)) := by
  have hopen : "\x7b".toList = ['\x7b'] := rfl
  have hequals : "=\"".toList = ['=', '"'] := rfl
  have hclose : "\"\x7d ".toList = ['"', '\x7d', ' '] := rfl
  rw [gaugeLine, hopen, hequals, hclose]
  simp only [List.append_assoc, List.cons_append, List.nil_append]

theorem header_eq : header family help = '\n' :: unlines (familyLines family help []) := by
  simp only [header, familyLines, unlines, List.flatMap_cons, List.flatMap_nil, List.append_assoc, List.cons_append,
    List.nil_append, List.append_nil]

theorem pushTop_eq (buf : Text) : pushTop family buf top = buf ++ unlines (top.map (topLine family)) := by
  induction top generalizing buf with
  | nil => exact (List.append_nil buf).symm
  | cons e top ih =>
      show pushTop family (buf ++ (topLine family e ++ ['\n'])) top = _
      rw [ih, List.append_assoc]
      rfl

theorem readSample_gaugeLine (hfamily : isName isNameChar family = true) (hlabel : isName isLabelChar label = true)
    (hv : LabelValue value s) :
    readSample (gaugeLine family label value n) = some ⟨family, [(label, s)], decimal n, none⟩ := by
  rw [gaugeLine_eq]
  refine readSample_labelled hfamily hlabel hv Nat.toDigits_ne_nil fun d hd => isBlank_of_isNameChar ?_
  rw [isNameChar, isLabelChar, Char.isAlphanum, decimal_isDigit hd]
  simp

theorem newline_notMem_gaugeLine (hfamily : isName isNameChar family = true)
    (hlabel : isName isLabelChar label = true) (hv : LabelValue value s) :
    '\n' ∉ gaugeLine family label value n := by
  have hname : '\n' ∉ family := notMem_of_isName hfamily (by decide)
  have hlabel : '\n' ∉ label := notMem_of_isName hlabel (by decide)
  have hvalue : '\n' ∉ value := hv.newline_notMem
  have hdecimal : '\n' ∉ decimal n := fun h => absurd (decimal_isDigit h) (by decide)
  rw [gaugeLine_eq]
  simp [hname, hlabel, hvalue, hdecimal]

theorem readSample_topLine (hfamily : isName isNameChar family = true) (e : Text × Nat) :
    readSample (topLine family e) = some (topSample family e) :=
  readSample_gaugeLine hfamily isName_image (escapeLabelValue_labelValue e.1)

theorem render_eq {encoded : Except ε Text} {manifests blobs : Iteration}
    (h : render encoded manifests blobs mc bc = .ok text) : ∃ g, encoded = .ok g ∧
      text = g ++ '\n' :: unlines (pageLines (manifests.counts.topManifestImages manifests.order topNImages)
        (blobs.counts.topBlobImages blobs.order topNImages) mc bc) := by
  cases encoded with
  | error e => cases h
  | ok g =>
      refine ⟨g, rfl, (Except.ok.inj h).symm.trans ?_⟩
      simp only [pushTop_eq, header_eq, pageLines, familyLines, unlines, List.flatMap_append, List.flatMap_cons,
        List.flatMap_nil, List.append_assoc, List.cons_append, List.nil_append, List.append_nil]

def Regular (l : Text) : Prop := '\n' ∉ l ∧ (isComment l = true ∨ (readSample l).isSome)

theorem regular_gaugeLine (hfamily : isName isNameChar family = true) (hlabel : isName isLabelChar label = true)
    (hv : LabelValue value s) : Regular (gaugeLine family label value n) := by
  refine ⟨newline_notMem_gaugeLine hfamily hlabel hv, .inr ?_⟩
  rw [readSample_gaugeLine hfamily hlabel hv]
  rfl

theorem regular_topLines (hfamily : isName isNameChar family = true) : ∀ l ∈ top.map (topLine family), Regular l := by
  intro l hl
  obtain ⟨e, -, rfl⟩ := List.mem_map.mp hl
  exact regular_gaugeLine hfamily isName_image (escapeLabelValue_labelValue e.1)

theorem isComment_helpLine (family help : Text) : isComment (helpLine family help) = true := rfl

theorem isComment_typeLine (family : Text) : isComment (typeLine family) = true := rfl

theorem regular_familyLines {samples : List Text} (hfamily : isName isNameChar family = true) (hhelp : '\n' ∉ help)
    (hsamples : ∀ l ∈ samples, Regular l) : ∀ l ∈ familyLines family help samples, Regular l := by
  have hname : '\n' ∉ family := notMem_of_isName hfamily (by decide)
  have hhelpLine : '\n' ∉ helpLine family help :=
    List.not_mem_append (List.not_mem_append (List.not_mem_append (by decide) hname) (by decide)) hhelp
  have htypeLine : '\n' ∉ typeLine family :=
    List.not_mem_append (List.not_mem_append (by decide) hname) (by decide)
  refine List.forall_mem_cons.mpr ⟨⟨hhelpLine, .inl ?_⟩, List.forall_mem_cons.mpr ⟨⟨htypeLine, .inl ?_⟩, hsamples⟩⟩
  · exact isComment_helpLine family help
  · exact isComment_typeLine family

theorem regular_pageLines : ∀ l ∈ pageLines tm tb mc bc, Regular l := by
  have hempty : Regular [] := ⟨List.not_mem_nil, .inl rfl⟩
  have hmanifest := regular_gaugeLine (n := mc) isName_trackedImages isName_type labelValue_manifest
  have hblob := regular_gaugeLine (n := bc) isName_trackedImages isName_type labelValue_blob
  refine List.forall_mem_append.mpr ⟨List.forall_mem_append.mpr ⟨?_, List.forall_mem_cons.mpr ⟨hempty, ?_⟩⟩,
    List.forall_mem_cons.mpr ⟨hempty, ?_⟩⟩
  · exact regular_familyLines isName_topManifestImages (by decide) (regular_topLines isName_topManifestImages)
  · exact regular_familyLines isName_topBlobImages (by decide) (regular_topLines isName_topBlobImages)
  · refine regular_familyLines isName_trackedImages (by decide) (List.forall_mem_cons.mpr ⟨hmanifest, ?_⟩)
    exact List.forall_mem_singleton.mpr hblob

theorem lines_render {encoded : Except ε Text} {manifests blobs : Iteration}
    (h : render encoded manifests blobs mc bc = .ok text) : ∃ g, encoded = .ok g ∧
      lines text = lines g ++ (pageLines (manifests.counts.topManifestImages manifests.order topNImages)
        (blobs.counts.topBlobImages blobs.order topNImages) mc bc ++ [[]]) := by
  obtain ⟨g, hg, rfl⟩ := render_eq h
  refine ⟨g, hg, ?_⟩
  rw [lines_append, ← List.append_nil (unlines _), lines_unlines fun l hl => (regular_pageLines l hl).1]
  rfl

theorem render_isExposition {encoded : Except ε Text} {manifests blobs : Iteration}
    (h : render encoded manifests blobs mc bc = .ok text) (hencoded : ∀ g, encoded = .ok g → IsExposition g) :
    IsExposition text := by
  obtain ⟨g, hg, hlines⟩ := lines_render h
  intro l hl
  rw [hlines, List.mem_append, List.mem_append, List.mem_singleton] at hl
  rcases hl with hl | hl | rfl
  · exact hencoded g hg l hl
  · exact (regular_pageLines l hl).2
  · exact .inl rfl

/-! ## The samples of a family -/

theorem filter_familyLines (name : Text) (samples : List Text) :
    (familyLines family help samples).filter (isSampleOf name) = samples.filter (isSampleOf name) := by
  rw [familyLines, filter_comment_cons name (isComment_helpLine family help),
    filter_comment_cons name (isComment_typeLine family)]

theorem isSampleOf_gaugeLine (name : Text) (hfamily : isName isNameChar family = true)
    (hlabel : isName isLabelChar label = true) (hv : LabelValue value s) :
    isSampleOf name (gaugeLine family label value n) = decide (family = name) := by
  rw [isSampleOf, readSample_gaugeLine hfamily hlabel hv]
  rfl

theorem filter_topLines (name : Text) (hfamily : isName isNameChar family = true) (top : List (Text × Nat)) :
    (top.map (topLine family)).filter (isSampleOf name) = if family = name then top.map (topLine family) else [] := by
  have hline : ∀ l ∈ top.map (topLine family), isSampleOf name l = decide (family = name) := by
    intro l hl
    obtain ⟨e, -, rfl⟩ := List.mem_map.mp hl
    exact isSampleOf_gaugeLine name hfamily isName_image (escapeLabelValue_labelValue e.1)
  rw [List.filter_congr hline]
  by_cases hname : family = name
  · rw [if_pos hname, decide_eq_true hname, List.filter_true]
  · rw [if_neg hname, decide_eq_false hname, List.filter_false]

theorem filter_pageLines (name : Text) (hname : name ≠ trackedImagesFamily) :
    (pageLines tm tb mc bc).filter (isSampleOf name) =
      (if topManifestImagesFamily = name then tm.map (topLine topManifestImagesFamily) else []) ++
        if topBlobImagesFamily = name then tb.map (topLine topBlobImagesFamily) else [] := by
  have hempty : ∀ ls : List Text, ([] :: ls).filter (isSampleOf name) = ls.filter (isSampleOf name) :=
    filter_comment_cons name rfl
  have htracked : ∀ {kind n}, LabelValue kind kind →
      isSampleOf name (gaugeLine trackedImagesFamily "type".toList kind n) = false := fun hkind =>
    (isSampleOf_gaugeLine name isName_trackedImages isName_type hkind).trans (decide_eq_false hname.symm)
  rw [pageLines, List.filter_append, List.filter_append, hempty, hempty, filter_familyLines, filter_familyLines,
    filter_familyLines, filter_topLines name isName_topManifestImages, filter_topLines name isName_topBlobImages]
  rw [List.filter_cons_of_neg (Bool.eq_false_iff.mp (htracked labelValue_manifest)),
    List.filter_cons_of_neg (Bool.eq_false_iff.mp (htracked labelValue_blob)), List.filter_nil, List.append_nil]

theorem sampleLines_render {encoded : Except ε Text} {manifests blobs : Iteration} {name : Text}
    (h : render encoded manifests blobs mc bc = .ok text) (hname : name ≠ trackedImagesFamily)
    (hencoded : ∀ g, encoded = .ok g → sampleLines g name = []) :
    sampleLines text name =
      (if topManifestImagesFamily = name then
          (manifests.counts.topManifestImages manifests.order topNImages).map (topLine topManifestImagesFamily)
        else []) ++
        if topBlobImagesFamily = name then
          (blobs.counts.topBlobImages blobs.order topNImages).map (topLine topBlobImagesFamily)
        else [] := by
  obtain ⟨g, hg, hlines⟩ := lines_render h
  have hend : [[]].filter (isSampleOf name) = [] := filter_comment_cons name rfl []
  rw [sampleLines, hlines, List.filter_append, List.filter_append, hend, filter_pageLines name hname, List.append_nil]
  exact congrArg (· ++ _) (hencoded g hg)

end Lines

/-! ## One line for each image -/

/-- The encoder writes samples of the registered families, some under a suffix of their own, and of the process. -/
def Encodes (text : Text) : Prop :=
  ∀ l ∈ lines text, ∀ s ∈ readSample l, ∃ family ∈ "process_".toList :: registeredFamilies, family <+: s.name

instance (text : Text) : Decidable (Encodes text) :=
  inferInstanceAs (Decidable (∀ l ∈ lines text, ∀ s ∈ readSample l, ∃ family ∈ _, family <+: s.name))

/-- No name of another family begins the name of the top images. -/
theorem top_not_encoded : ∀ family ∈ "process_".toList :: registeredFamilies,
    ¬ family <+: topManifestImagesFamily ∧ ¬ family <+: topBlobImagesFamily := by
  simp only [registeredFamilies, List.map_cons, List.map_nil, List.forall_mem_cons]
  and_intros
  all_goals first
    | exact not_prefix_toList rfl rfl (by decide)
    | exact List.forall_mem_nil _

/-- Each of the images has one sample line of the family, with its count, and the family has no other. -/
structure OneLineEach (text family : Text) (top : List (Text × Nat)) : Prop where
  samples : (sampleLines text family).map readSample = top.map fun e => some (topSample family e)
  once : ∀ e ∈ top, (sampleLines text family).countP
    (fun l => (readSample l).any (·.labels = [("image".toList, e.1)])) = 1

theorem sampleLines_of_encodes {text name : Text} (h : Encodes text)
    (hname : ∀ family ∈ "process_".toList :: registeredFamilies, ¬ family <+: name) : sampleLines text name = [] := by
  refine List.filter_eq_nil_iff.mpr fun l hl hsample => ?_
  rw [isSampleOf, Option.any_eq_true] at hsample
  obtain ⟨s, hs, hsname⟩ := hsample
  obtain ⟨family, hfamily, hpre⟩ := h l hl s hs
  rw [of_decide_eq_true hsname] at hpre
  exact hname family hfamily hpre

theorem oneLineEach_of_map {text family : Text} {top : List (Text × Nat)} (hfamily : isName isNameChar family = true)
    (hnodup : (top.map Prod.fst).Nodup) (h : sampleLines text family = top.map (topLine family)) :
    OneLineEach text family top := by
  have hread : ∀ e, readSample (topLine family e) = some (topSample family e) := readSample_topLine hfamily
  refine ⟨?_, fun e he => ?_⟩
  · rw [h, List.map_map]
    exact List.map_congr_left fun e _ => hread e
  · have hcount : (fun l => (readSample l).any (·.labels = [("image".toList, e.1)])) ∘ topLine family =
        (· == e.1) ∘ Prod.fst := by
      funext e'
      rw [Function.comp_apply, hread, Function.comp_apply, Bool.eq_iff_iff]
      simp [topSample]
    rw [h, List.countP_map, hcount, ← List.countP_map]
    exact List.count_eq_one_of_mem hnodup (List.mem_map_of_mem he)

/-- The escaped label is read back, on one line and up to its own quote; so different images have different labels, and
each of the top images has one sample line on the page. -/
theorem render_injection_free :
    (∀ s, unescape (escapeLabelValue s) = some s ∧ '\n' ∉ escapeLabelValue s ∧ QuotesEscaped (escapeLabelValue s)) ∧
    Function.Injective escapeLabelValue ∧
    ∀ {ε : Type} (encoded : Except ε Text) (manifests blobs : Iteration) (manifestCount blobCount : Nat) (text : Text),
      (∀ g, encoded = .ok g → Encodes g) → render encoded manifests blobs manifestCount blobCount = .ok text →
      OneLineEach text topManifestImagesFamily
        (manifests.counts.topManifestImages manifests.order topNImages) ∧
      OneLineEach text topBlobImagesFamily (blobs.counts.topBlobImages blobs.order topNImages) := by
  have hmanifests := fun family h => (top_not_encoded family h).1
  have hblobs := fun family h => (top_not_encoded family h).2
  refine ⟨fun s => ?_, escapeLabelValue_injective, fun encoded manifests blobs mc bc text hencodes h => ⟨?_, ?_⟩⟩
  · have hvalue := escapeLabelValue_labelValue s
    exact ⟨hvalue.unescape_eq, hvalue.newline_notMem, hvalue.quotesEscaped⟩
  · refine oneLineEach_of_map isName_topManifestImages (Counts.nodup_topImages manifests.isOrder topNImages) ?_
    rw [sampleLines_render h (by decide) fun g hg => sampleLines_of_encodes (hencodes g hg) hmanifests, if_pos rfl,
      if_neg (by decide), List.append_nil]
  · refine oneLineEach_of_map isName_topBlobImages (Counts.nodup_topImages blobs.isOrder topNImages) ?_
    rw [sampleLines_render h (by decide) fun g hg => sampleLines_of_encodes (hencodes g hg) hblobs, if_pos rfl,
      if_neg (by decide), List.nil_append]

def encodedThreads : Text := "# TYPE process_threads gauge\nprocess_threads 9\n".toList

/-- A map with one image, requested ten times, that has quotes in its name. -/
def quotedImage : Iteration := ⟨⟨{"nginx:\"1\"".toList}, fun _ => 10⟩, ["nginx:\"1\"".toList], by decide⟩

theorem render_injection_free_quoted :
    ∃ text, render (.ok encodedThreads : Except Unit Text) quotedImage ⟨.empty, [], by decide⟩ 1 0 = .ok text ∧
      OneLineEach text topManifestImagesFamily [("nginx:\"1\"".toList, 10)] := by
  have hencodes : Encodes encodedThreads := by decide
  exact ⟨_, rfl, (render_injection_free.2.2 (.ok encodedThreads : Except Unit Text) quotedImage
    ⟨.empty, [], by decide⟩ 1 0 _ (fun _ hg => Except.ok.inj hg ▸ hencodes) rfl).1⟩

end HarborRouter.Metrics
