import HarborRouter.Resolver.Tags

/-!
# Wrong cache entries

A cache entry can name a project that does not have the image, or no project at all. Both resolvers then fall
through to the fan-out an empty cache would have led to, so long as the entry is not taken for a miss.

* `Alike` : two fan-outs at which the upstream answers alike;
* `wrong_entry_hides_nothing` : a call succeeds with any other entry whenever it does without;
* `sentinel_with_time_hides` : with a timestamp the sentinel is read back as itself.
-/

namespace HarborRouter
open Lib Text

theorem found_of_answered {answer : Text → Answer} {cs ds : List Completion}
    (hcs : ∀ c ∈ cs, c.answer = answer c.project) (hds : ∀ d ∈ ds, d.answer = answer d.project)
    (hprojects : ∀ c ∈ cs, ∃ d ∈ ds, d.project = c.project) (hfound : ∃ c ∈ cs, c.found = true) :
    ∃ d ∈ ds, d.found = true := by
  obtain ⟨c, hc, hfound⟩ := hfound
  obtain ⟨d, hd, hdc⟩ := hprojects c hc
  have hanswer : d.answer = c.answer := by rw [hds d hd, hcs c hc, hdc]
  refine ⟨d, hd, ?_⟩
  rw [← hfound]
  unfold Completion.found Completion.result
  rw [hdc, hanswer]

/-- What the probes answer in two fan-outs over one list of projects and one breaker, the second not earlier than the
first. -/
structure Fanout.Alike {maxFanout : Nat} (answer : Text → Answer) (f₀ f : Fanout maxFanout) : Prop where
  discovered : f.discovered = f₀.discovered
  breaker : f.breaker = f₀.breaker
  later : f₀.now ≤ f.now
  first : ∀ c ∈ f₀.completions, c.answer = answer c.project
  second : ∀ c ∈ f.completions, c.answer = answer c.project

/-- What the earlier fan-out asks, the later one asks, too. -/
theorem Fanout.Alike.probed_subset {maxFanout : Nat} {answer : Text → Answer} {f₀ f : Fanout maxFanout}
    (h : Alike answer f₀ f) : f₀.probed ⊆ f.probed := by
  intro p hp
  unfold probed candidates at hp ⊢
  rw [CircuitBreaker.available_eq_filter, List.mem_filter] at hp ⊢
  rw [h.discovered, h.breaker]
  exact ⟨hp.1, CircuitBreaker.isAvailable_later hp.2 h.later⟩

theorem Fanout.Alike.succeeds {maxFanout : Nat} {answer : Text → Answer} {f₀ f : Fanout maxFanout}
    (h : Alike answer f₀ f) {image reference : Text} {accept : List Text}
    (hok : ∃ r, f₀.parallelLookup image reference accept = .ok r) :
    ∃ r, f.parallelLookup image reference accept = .ok r := by
  apply parallelLookup_ok_iff.mpr
  apply found_of_answered h.first h.second _ (parallelLookup_ok_iff.mp hok)
  intro c hc
  exact mem_probed.mp (h.probed_subset (mem_probed.mpr ⟨c, hc, rfl⟩))

namespace Manifest

variable {cfg : Config}

/-- What the probes answer in two fan-outs for tags over one list of projects. -/
structure TagsFanout.Alike {maxFanout : Nat} (answer : Text → Answer) (f₀ f : TagsFanout maxFanout) : Prop where
  discovered : f.discovered = f₀.discovered
  first : ∀ c ∈ f₀.completions, c.answer = answer c.project
  second : ∀ c ∈ f.completions, c.answer = answer c.project

theorem TagsFanout.Alike.succeeds {maxFanout : Nat} {answer : Text → Answer} {f₀ f : TagsFanout maxFanout}
    (h : Alike answer f₀ f) {image : Text} (hok : ∃ r, f₀.lookup image = .ok r) : ∃ r, f.lookup image = .ok r := by
  apply lookup_ok_iff.mpr
  apply found_of_answered h.first h.second _ (lookup_ok_iff.mp hok)
  intro c hc
  have hprobed : c.project ∈ f₀.probed := mem_probed.mpr ⟨c, hc, rfl⟩
  unfold probed at hprobed
  rw [← h.discovered] at hprobed
  exact mem_probed.mp hprobed

def emptyCache : Cache := fun _ => none

def Succeeds (result : Except Text ResolveResult) : Prop := ∃ r, result = .ok r

/-- The call is not served from the entry of its key. -/
def FallsThrough (w : World cfg) (cache : Cache) (c : Call) : Prop :=
  ∀ entry r, cache c.key = some entry → ¬ w.answers (readEntry cfg entry).1 r

/-- The writes of a call that fell through: its entry goes, and the two entries of the result's project come. -/
def WritesResult (w : World cfg) (c : Call) (r : ResolveResult) (writes : List (Text × Option Entry)) : Prop :=
  ∃ evicted, (evicted = [] ∨ evicted = [(c.key, none)]) ∧ writes = evicted ++
    [(c.key, some (entryOf cfg w.stored (.ok r))), (imageKey c.image, some ⟨r.project, none⟩)]

section Calls
variable {w₀ w : World cfg} {cache : Cache} {c : Call} {answer : Text → Answer}

theorem resolveManifest_empty (w : World cfg) (c : Call) : w.resolveManifest emptyCache c = w.miss c := rfl

theorem miss_result (hw : w.joined = none) (c : Call) :
    (w.miss c).result = w.fanout.parallelLookup c.image c.reference c.accept := by
  unfold World.miss World.flown
  rw [hw]

theorem succeeds_of_empty (h₀ : w₀.joined = none) (h : w.joined = none)
    (halike : Fanout.Alike answer w₀.fanout w.fanout)
    (hentry : ∀ entry, cache c.key = some entry → (readEntry cfg entry).1 ≠ negativeCacheSentinel)
    (hok : Succeeds (w₀.resolveManifest emptyCache c).result) : Succeeds (w.resolveManifest cache c).result := by
  have hmiss : Succeeds (w.miss c).result := by
    rw [resolveManifest_empty, miss_result h₀] at hok
    rw [miss_result h]
    exact halike.succeeds hok
  have hgoes := resolveManifest_cases w cache c
  generalize w.resolveManifest cache c = trace at hgoes ⊢
  cases hgoes with
  | missed he => exact hmiss
  | negative entry he hs => exact absurd hs (hentry entry he)
  | hit entry project r he hp hs hr => exact ⟨r, rfl⟩
  | evicted entry project he hp hs hr => exact hmiss

theorem status_of_ok (h : w.joined = none) {r : ResolveResult} (hok : (w.resolveManifest cache c).result = .ok r) :
    r.status = 200 := by
  have hmiss : (w.miss c).result = .ok r → r.status = 200 := by
    intro hr
    rw [miss_result h] at hr
    obtain ⟨d, -, -, h200, -⟩ := Fanout.parallelLookup_ok hr
    exact h200
  have hgoes := resolveManifest_cases w cache c
  generalize w.resolveManifest cache c = trace at hgoes hok
  cases hgoes with
  | missed he => exact hmiss hok
  | negative entry he hs => cases hok
  | hit entry project r' he hp hs hr => cases hok; exact hr.2
  | evicted entry project he hp hs hr => exact hmiss hok

theorem writes_of_fallsThrough (hfalls : FallsThrough w cache c) {r : ResolveResult}
    (hok : (w.resolveManifest cache c).result = .ok r) :
    WritesResult w c r (w.resolveManifest cache c).writes := by
  have hmiss : (w.miss c).result = .ok r → (w.miss c).writes =
      [(c.key, some (entryOf cfg w.stored (.ok r))), (imageKey c.image, some ⟨r.project, none⟩)] := by
    intro hr
    show w.settle c (w.miss c).result = _
    rw [hr, World.settle]
  have hgoes := resolveManifest_cases w cache c
  generalize w.resolveManifest cache c = trace at hgoes hok ⊢
  cases hgoes with
  | missed he => exact ⟨[], .inl rfl, hmiss hok⟩
  | negative entry he hs => cases hok
  | hit entry project r' he hp hs hr =>
      subst hp
      exact absurd hr (hfalls entry r' he)
  | evicted entry project he hp hs hr => exact ⟨[(c.key, none)], .inr rfl, congrArg (List.cons _) (hmiss hok)⟩

end Calls

theorem tags_succeed_of_empty {v₀ v : TagsWorld cfg} {cache : Cache} {image : Text} {answer : Text → Answer}
    (halike : TagsFanout.Alike answer v₀.fanout v.fanout) (hok : Succeeds (v₀.resolveTags emptyCache image).result) :
    Succeeds (v.resolveTags cache image).result := by
  have hmiss : Succeeds (v.miss image).result := halike.succeeds hok
  have hgoes := resolveTags_cases v cache image
  generalize v.resolveTags cache image = trace at hgoes ⊢
  cases hgoes with
  | missed he => exact hmiss
  | hit entry r he hsafe hr => exact ⟨r, rfl⟩
  | evicted entry he hsafe hr => exact hmiss

/-- Let the upstream answer alike with the cache and without. Whatever entry is stored for a manifest, unless it is
read as the sentinel, `resolve_manifest` succeeds whenever it would without any, with a status of 200, and after a
fall-through it writes the project it returns. With any entry for its tags `resolve_tags` succeeds whenever it would
without any. -/
theorem wrong_entry_hides_nothing (cfg : Config) (cache : Cache) :
    (∀ (answer : Text → Answer) (w₀ w : World cfg) (c : Call), w₀.joined = none → w.joined = none →
      Fanout.Alike answer w₀.fanout w.fanout →
      (∀ entry, cache c.key = some entry → (readEntry cfg entry).1 ≠ negativeCacheSentinel) →
      (Succeeds (w₀.resolveManifest emptyCache c).result → Succeeds (w.resolveManifest cache c).result) ∧
      ∀ r, (w.resolveManifest cache c).result = .ok r →
        r.status = 200 ∧ (FallsThrough w cache c → WritesResult w c r (w.resolveManifest cache c).writes)) ∧
    ∀ (answer : Text → Answer) (w₀ w : TagsWorld cfg) (image : Text), TagsFanout.Alike answer w₀.fanout w.fanout →
      Succeeds (w₀.resolveTags emptyCache image).result → Succeeds (w.resolveTags cache image).result := by
  constructor
  · intro answer w₀ w c h₀ h halike hentry
    refine ⟨succeeds_of_empty h₀ h halike hentry, fun r hok => ⟨status_of_ok h hok, fun hfalls => ?_⟩⟩
    exact writes_of_fallsThrough hfalls hok
  · intro answer w₀ w image halike hok
    exact tags_succeed_of_empty halike hok

/-- A call of its own: the project of its fan-out answers with the status, that of a cache entry with 404. -/
def oneWorld (status : Nat) : World .default where
  now := 0
  reply _ _ := .response 404 [] []
  joined := none
  fanout := oneProject status
  stored := 0
  refresh := oneProject status
  refreshed := 0

theorem oneProject_alike (status : Nat) :
    Fanout.Alike (fun _ => .reply (.response status [] [])) (oneProject status) (oneProject status) where
  discovered := rfl
  breaker := rfl
  later := Nat.le_refl _
  first c hc := by rw [List.mem_singleton.mp hc]
  second c hc := by rw [List.mem_singleton.mp hc]

def oneEntry (value : Text) : Cache :=
  fun key => if key = "library/nginx:latest".toList then some ⟨value, none⟩ else none

def nginx : Call := ⟨"library/nginx".toList, "latest".toList, []⟩

theorem oneEntry_nginx (value : Text) : oneEntry value nginx.key = some ⟨value, none⟩ := rfl

/-- Project `b` has it no longer, and the project of the fan-out has. -/
theorem wrong_entry_hides_nothing_nginx :
    ∃ r, ((oneWorld 200).resolveManifest (oneEntry "b|0".toList) nginx).result = .ok r ∧ r.status = 200 ∧
      WritesResult (oneWorld 200) nginx r ((oneWorld 200).resolveManifest (oneEntry "b|0".toList) nginx).writes := by
  obtain ⟨hsucceeds, hwrites⟩ := (wrong_entry_hides_nothing .default (oneEntry "b|0".toList)).1
    (fun _ => .reply (.response 200 [] [])) (oneWorld 200) (oneWorld 200) nginx rfl rfl (oneProject_alike 200) (by
      intro entry he
      rw [oneEntry_nginx] at he
      cases he
      decide)
  have hempty : ((oneWorld 200).resolveManifest emptyCache nginx).result = .ok ⟨"a".toList, 200, [], []⟩ := rfl
  obtain ⟨r, hr⟩ := hsucceeds ⟨_, hempty⟩
  have hfalls : FallsThrough (oneWorld 200) (oneEntry "b|0".toList) nginx := by
    rintro entry r' he ⟨hfetch, h200⟩
    rw [oneEntry_nginx] at he
    cases he
    have hreply : (⟨"b".toList, 404, [], []⟩ : ResolveResult) = r' := Except.ok.inj hfetch
    rw [← hreply] at h200
    cases h200
  exact ⟨r, hr, (hwrites r hr).1, (hwrites r hr).2 hfalls⟩

/-- The sentinel with a timestamp, which is not the sentinel, hides an image that a project has. -/
theorem sentinel_with_time_hides : ¬ ∀ (cfg : Config) (cache : Cache) (answer : Text → Answer) (w₀ w : World cfg)
    (c : Call), w₀.joined = none → w.joined = none → Fanout.Alike answer w₀.fanout w.fanout →
      (∀ entry, cache c.key = some entry → entry.value ≠ negativeCacheSentinel) →
      Succeeds (w₀.resolveManifest emptyCache c).result → Succeeds (w.resolveManifest cache c).result := by
  intro h
  have hentry : ∀ entry, oneEntry "__NEGATIVE__|5".toList nginx.key = some entry →
      entry.value ≠ negativeCacheSentinel := by
    intro entry he
    rw [oneEntry_nginx] at he
    cases he
    decide
  obtain ⟨r, hr⟩ := h .default _ _ (oneWorld 200) (oneWorld 200) nginx rfl rfl (oneProject_alike 200) hentry
    ⟨⟨"a".toList, 200, [], []⟩, rfl⟩
  cases hr

end Manifest
end HarborRouter
