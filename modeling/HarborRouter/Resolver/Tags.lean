import HarborRouter.Resolver.OneCall

/-!
# Tag lists

`resolve_tags`: the project of the tag entry is asked first, and all discovered projects when it does not answer 200.
Unlike `resolve_manifest` it joins no flight, asks no circuit breaker and retries nothing, and the first 200 wins.

* `resolveTags_cases` : the three ways a call can go;
* `TagsFanout.lookup_ok` : what a fan-out returns is one of the 200 answers.
-/

namespace HarborRouter.Manifest
open Lib Text

variable {cfg : Config}

/-- `fetch_tags` differs from `fetch_manifest` in the request it sends only. -/
def fetchTags (project : Text) (reply : Reply) : Except Text ResolveResult := fetchManifest project reply

def tagsCandidates (maxFanout : Nat) (discovered : List Text) : List Text :=
  (if maxFanout < discovered.length then discovered.take maxFanout else discovered).filter isSafeProjectName

def noneSafe : Text := "no available proxy-cache projects".toList
def allFailedForTags (e : Text) : Text := "all projects failed for tags, last error: ".toList ++ e
def tagsNotFound (image : Text) : Text :=
  "tags for image ".toList ++ image ++ " not found in any proxy-cache project".toList

/-- What the fan-out of one call finds: the discovered projects, and the completions of all probes in order. -/
structure TagsFanout (maxFanout : Nat) where
  discovered : List Text
  completions : List Completion
  complete : (completions.map Completion.project).Perm (tagsCandidates maxFanout discovered)

/-- The loop over the completions, with its variable `last_err`. -/
def tagsLoop (image : Text) : Option Text → List Completion → Except Text ResolveResult
  | lastErr, [] =>
      match lastErr with
      | some e => .error (allFailedForTags e)
      | none => .error (tagsNotFound image)
  | lastErr, c :: cs =>
      match c.result with
      | .ok r => if r.status = 200 then .ok r else tagsLoop image lastErr cs
      | .error e => tagsLoop image (some e) cs

namespace TagsFanout
variable {maxFanout : Nat} (f : TagsFanout maxFanout)

def probed : List Text := tagsCandidates maxFanout f.discovered

def lookup (image : Text) : Except Text ResolveResult :=
  if f.discovered = [] then .error noProjects
  else if f.probed = [] then .error noneSafe
  else tagsLoop image none f.completions

end TagsFanout

/-- What the outside world does during one call: the reply of a cached project, and the fan-out. -/
structure TagsWorld (cfg : Config) where
  reply : Text → Reply
  fanout : TagsFanout cfg.maxFanout

namespace TagsWorld
variable (w : TagsWorld cfg)

def miss (image : Text) : Trace (Except Text ResolveResult) (TagsFanout cfg.maxFanout) where
  result := w.fanout.lookup image
  writes := match w.fanout.lookup image with
    | .ok r => [(tagsKey image, some ⟨r.project, some cfg.cacheTtl⟩)]
    | .error _ => []
  asked := []
  fanouts := [w.fanout]

def evict (image project : Text) : Trace (Except Text ResolveResult) (TagsFanout cfg.maxFanout) :=
  { w.miss image with writes := (tagsKey image, none) :: (w.miss image).writes, asked := [project] }

def resolveTags (cache : Cache) (image : Text) : Trace (Except Text ResolveResult) (TagsFanout cfg.maxFanout) :=
  match cache (tagsKey image) with
  | some entry =>
      let project := entry.value
      if isSafeProjectName project then
        match fetchTags project (w.reply project) with
        | .ok r => if r.status = 200 then ⟨.ok r, [], [project], []⟩ else w.evict image project
        | .error _ => w.evict image project
      else w.miss image
  | none => w.miss image

def answers (project : Text) (r : ResolveResult) : Prop := fetchTags project (w.reply project) = .ok r ∧ r.status = 200

end TagsWorld

inductive GoesTags (w : TagsWorld cfg) (cache : Cache) (image : Text) :
    Trace (Except Text ResolveResult) (TagsFanout cfg.maxFanout) → Prop
  | missed (he : ∀ entry, cache (tagsKey image) = some entry → isSafeProjectName entry.value = false) :
      GoesTags w cache image (w.miss image)
  | hit (entry : Entry) (r : ResolveResult) (he : cache (tagsKey image) = some entry)
      (hsafe : isSafeProjectName entry.value = true) (hr : w.answers entry.value r) :
      GoesTags w cache image ⟨.ok r, [], [entry.value], []⟩
  | evicted (entry : Entry) (he : cache (tagsKey image) = some entry) (hsafe : isSafeProjectName entry.value = true)
      (hr : ∀ r, ¬ w.answers entry.value r) : GoesTags w cache image (w.evict image entry.value)

theorem resolveTags_cases (w : TagsWorld cfg) (cache : Cache) (image : Text) :
    GoesTags w cache image (w.resolveTags cache image) := by
  unfold TagsWorld.resolveTags
  cases he : cache (tagsKey image) with
  | none =>
      refine .missed fun entry h => ?_
      rw [he] at h
      cases h
  | some entry =>
      dsimp only
      split
      · rename_i hsafe
        cases hr : fetchTags entry.value (w.reply entry.value) with
        | error e =>
            refine .evicted entry he hsafe fun r h => ?_
            rw [h.1] at hr
            cases hr
        | ok r =>
            dsimp only
            split
            · exact .hit entry r he hsafe ⟨hr, ‹_›⟩
            · rename_i hstatus
              refine .evicted entry he hsafe fun r' h => ?_
              rw [h.1] at hr
              cases hr
              exact hstatus h.2
      · rename_i hunsafe
        refine .missed fun entry' h => ?_
        rw [he] at h
        cases h
        simpa using hunsafe

theorem mem_asked_tags {w : TagsWorld cfg} {cache : Cache} {image p : Text} :
    p ∈ (w.resolveTags cache image).asked ↔ ∃ entry, cache (tagsKey image) = some entry ∧ entry.value = p ∧
      isSafeProjectName p = true := by
  have hgoes := resolveTags_cases w cache image
  generalize w.resolveTags cache image = trace at hgoes ⊢
  cases hgoes with
  | missed he =>
      refine iff_of_false List.not_mem_nil ?_
      rintro ⟨entry, hentry, rfl, hsafe⟩
      rw [he entry hentry] at hsafe
      cases hsafe
  | hit entry r he hsafe hr =>
      simp only [he, Option.some.injEq, exists_eq_left', List.mem_singleton]
      exact ⟨fun hp => ⟨hp.symm, hp ▸ hsafe⟩, fun hp => hp.1.symm⟩
  | evicted entry he hsafe hr =>
      simp only [he, Option.some.injEq, exists_eq_left', TagsWorld.evict, List.mem_singleton]
      exact ⟨fun hp => ⟨hp.symm, hp ▸ hsafe⟩, fun hp => hp.1.symm⟩

/-- A call fans out exactly when the project of its entry does not answer 200. -/
theorem fanouts_tags (w : TagsWorld cfg) (cache : Cache) (image : Text) : (w.resolveTags cache image).fanouts = [] ∧
      (∃ entry r, cache (tagsKey image) = some entry ∧ w.answers entry.value r) ∨
    (w.resolveTags cache image).fanouts = [w.fanout] ∧
      ∀ entry r, cache (tagsKey image) = some entry → ¬ w.answers entry.value r := by
  have hgoes := resolveTags_cases w cache image
  generalize w.resolveTags cache image = trace at hgoes ⊢
  cases hgoes with
  | missed he =>
      refine .inr ⟨rfl, fun entry r hentry hr => ?_⟩
      have hsafe := (fetchManifest_ok hr.1).2
      rw [he entry hentry] at hsafe
      cases hsafe
  | hit entry r he hsafe hr => exact .inl ⟨rfl, entry, r, he, hr⟩
  | evicted entry he hsafe hr =>
      refine .inr ⟨rfl, fun entry' r hentry => ?_⟩
      rw [he] at hentry
      cases hentry
      exact hr r

/-! ## The fan-out -/

section Loop
variable {image : Text} {lastErr : Option Text} {cs : List Completion}

theorem tagsLoop_of_found (h : ∃ c ∈ cs, c.found = true) : ∃ r, tagsLoop image lastErr cs = .ok r := by
  induction cs generalizing lastErr with
  | nil =>
      obtain ⟨c, hc, -⟩ := h
      cases hc
  | cons c cs ih =>
      by_cases hc : c.found = true
      · obtain ⟨r, hr, hs⟩ := Completion.found_iff.mp hc
        exact ⟨r, by simp only [tagsLoop, hr, hs, if_true]⟩
      · have hrest : ∃ d ∈ cs, d.found = true := by
          obtain ⟨d, hd, hdf⟩ := h
          refine ⟨d, (List.mem_cons.mp hd).resolve_left ?_, hdf⟩
          rintro rfl
          exact hc hdf
        unfold tagsLoop
        split
        · split
          · rename_i r _ hs
            exact ⟨r, rfl⟩
          · exact ih hrest
        · exact ih hrest

theorem tagsLoop_ok {r : ResolveResult} (h : tagsLoop image lastErr cs = .ok r) :
    ∃ c ∈ cs, c.result = .ok r ∧ r.status = 200 := by
  induction cs generalizing lastErr with
  | nil =>
      unfold tagsLoop at h
      cases lastErr <;> cases h
  | cons c cs ih =>
      unfold tagsLoop at h
      split at h
      · split at h
        · cases h
          exact ⟨c, List.mem_cons_self, ‹_›, ‹_›⟩
        · obtain ⟨d, hd, hdr⟩ := ih h
          exact ⟨d, List.mem_cons_of_mem c hd, hdr⟩
      · obtain ⟨d, hd, hdr⟩ := ih h
        exact ⟨d, List.mem_cons_of_mem c hd, hdr⟩

end Loop

namespace TagsFanout
variable {maxFanout : Nat} {f : TagsFanout maxFanout} {image : Text}

theorem mem_probed {p : Text} : p ∈ f.probed ↔ ∃ c ∈ f.completions, c.project = p := by
  rw [probed, ← f.complete.mem_iff, List.mem_map]

theorem length_probed_le (f : TagsFanout maxFanout) : f.probed.length ≤ maxFanout := by
  unfold probed tagsCandidates
  refine (List.length_filter_le _ _).trans ?_
  split
  · exact List.length_take_le _ _
  · omega

/-- The fan-out succeeds exactly when some probe is answered 200. -/
theorem lookup_ok_iff : (∃ r, f.lookup image = .ok r) ↔ ∃ c ∈ f.completions, c.found = true := by
  unfold lookup
  constructor
  · rintro ⟨r, h⟩
    split at h
    · cases h
    · split at h
      · cases h
      · obtain ⟨c, hc, hr, hs⟩ := tagsLoop_ok h
        exact ⟨c, hc, Completion.found_iff.mpr ⟨r, hr, hs⟩⟩
  · rintro ⟨c, hc, hfound⟩
    have hasked : f.probed ≠ [] := List.ne_nil_of_mem (mem_probed.mpr ⟨c, hc, rfl⟩)
    have hdiscovered : f.discovered ≠ [] := by
      intro hnil
      apply hasked
      rw [probed, tagsCandidates, hnil, List.take_nil, ite_self]
      rfl
    rw [if_neg hdiscovered, if_neg hasked]
    exact tagsLoop_of_found ⟨c, hc, hfound⟩

theorem lookup_ok {r : ResolveResult} (h : f.lookup image = .ok r) :
    ∃ c ∈ f.completions, c.result = .ok r ∧ r.status = 200 := by
  unfold lookup at h
  split at h
  · cases h
  · split at h
    · cases h
    · exact tagsLoop_ok h

end TagsFanout

end HarborRouter.Manifest
