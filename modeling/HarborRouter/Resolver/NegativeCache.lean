import HarborRouter.Resolver.Liveness

/-!
# What is cached as a miss

The error path of `resolve_manifest` recognises a miss by the text of the error, which `parallel_lookup` produces
after the breaker filter and whatever the breaker recorded. So some fan-outs end in a cached miss although a project
was skipped, or although a project failed.

* `storesNegative_iff` : who stores the sentinel, in a reachable state;
* `miss_means_all_probed_iff` : the fan-outs that are cached as a miss only if every project was probed;
* `failure_not_cached_iff` : the fan-outs whose recorded failures keep them from being cached as a miss.
-/

namespace HarborRouter.Manifest
open Lib

variable {cfg : Config}

/-- The next step of call `i` stores the negative sentinel, from the lookup `l`. -/
def StoresNegative (s : State cfg) (i : CallId) (l : Lookup cfg) : Prop :=
  ∃ c now t, s.stage i = .storing c l ∧ step s (.store i now) = some t ∧
    t.cache c.key = some ⟨negativeCacheSentinel, some cfg.negativeCacheTtl⟩

/-- A call is about to write only results and misses. -/
def Needed (s : State cfg) : Prop :=
  ∀ i c l, s.stage i = .storing c l → (∃ r, l.result = .ok r) ∨ cachedMiss l.result = true

theorem needed_init : Needed (init : State cfg) := fun _ _ _ h => nomatch h

theorem Needed.move {s u : State cfg} {i : CallId} {st : Stage cfg} (hs : Needed s)
    (hstage : u.stage = Function.update s.stage i st)
    (hst : ∀ c l, st = .storing c l → (∃ r, l.result = .ok r) ∨ cachedMiss l.result = true) : Needed u := by
  unfold Needed
  rw [hstage, Function.forall_update_iff s.stage fun _ x =>
    ∀ c l, x = .storing c l → (∃ r, l.result = .ok r) ∨ cachedMiss l.result = true]
  exact ⟨hst, fun j _ => hs j⟩

theorem afterFlight_needed {c c' : Call} {e : Singleflight.FlightEnd (Lookup cfg)} {l : Lookup cfg}
    (h : afterFlight c e = .storing c' l) : (∃ r, l.result = .ok r) ∨ cachedMiss l.result = true := by
  cases e with
  | received l' =>
      rw [afterFlight] at h
      split at h
      · cases h; exact .inl ⟨_, ‹_›⟩
      · rename_i e he
        split at h <;> cases h
        exact .inr (by rw [he]; assumption)
  | _ => cases h

theorem afterGet_not_storing (c : Call) (now : Nat) (entry : Option Entry) (c' : Call) (l : Lookup cfg) :
    afterGet c now entry ≠ .storing c' l := fun h =>
  afterGet_not_holds c now entry c' l (h ▸ ⟨rfl, rfl⟩)

theorem needed_step {s t : State cfg} {l : Label cfg} (hs : Needed s) (h : step s l = some t) : Needed t := by
  obtain ⟨u, hu, rfl⟩ := step_cases h
  suffices Needed u from this
  cases hu with
  | get i now c hi => exact hs.move rfl fun c' l h => absurd h (afterGet_not_storing c now _ c' l)
  | served i reply c project stale r hi hr h200 t ht =>
      subst ht
      cases stale <;> exact hs.move rfl nofun
  | land i c e hi he => exact hs.move rfl fun c' l h => afterFlight_needed h
  | store i now c l st hi hst =>
      refine hs.move rfl ?_
      rcases hst with rfl | rfl <;> nofun
  | call | outdated | evict | storeImage | drop | dropFlight => exact hs.move rfl nofun
  | enter | looked | fly | refreshed | refreshStore | refreshStoreImage | expire => exact hs

theorem needed_reachable {s : State cfg} (h : (machine cfg).Reachable s) : Needed s :=
  h.rule (I := Needed) needed_init fun _ _ _ hs ht => needed_step hs ht

/-- Who stores the sentinel: the calls that are about to write a lookup that ended in a cached miss. -/
theorem storesNegative_iff {s : State cfg} (hs : (machine cfg).Reachable s) {i : CallId} {l : Lookup cfg} :
    StoresNegative s i l ↔ (∃ c, s.stage i = .storing c l) ∧ cachedMiss l.result = true := by
  constructor
  · rintro ⟨c, now, t, hc, ht, hentry⟩
    refine ⟨⟨c, hc⟩, ?_⟩
    rcases needed_reachable hs i c l hc with ⟨r, hr⟩ | hmiss
    · simp only [step, move, hc, hr, Option.map_some, Option.some.injEq] at ht
      subst ht
      simp only [State.advance, State.setStage, State.update, Function.update_self, Option.some.injEq,
        entryOf] at hentry
      split at hentry
      · cases (congrArg Entry.ttl hentry : (none : Option Nat) = some cfg.negativeCacheTtl)
      · exact absurd (congrArg Entry.value hentry) (encode_ne_sentinel r.project now)
    · exact hmiss
  · rintro ⟨⟨c, hc⟩, hmiss⟩
    cases hr : l.result with
    | ok r => rw [hr] at hmiss; cases hmiss
    | error e =>
        refine ⟨c, 0, ((s.update c.key (some (entryOf cfg 0 l.result)) l.observed).setStage i
          (.answered c (.flight (.received l)))).advance, hc, by simp only [step, move, hc, hr, Option.map_some], ?_⟩
        simp only [State.advance, State.setStage, State.update, Function.update_self, hr, entryOf]

/-- Every fan-out can be that of a first call, which then stores what its result asks for. -/
theorem reachable_storing (c : Call) (f : Fanout cfg.maxFanout)
    (h : cachedMiss (f.parallelLookup c.image c.reference c.accept) = true) :
    ∃ s, (machine cfg).Reachable s ∧ s.stage 0 = .storing c ⟨c, f, 3⟩ := by
  let s : State cfg := ((machine cfg).run init [.call 0 c, .get 0 0, .enter 0]).get rfl
  have hs : (machine cfg).run init [.call 0 c, .get 0 0, .enter 0] = some s := rfl
  obtain ⟨t, ht, -, hled, hfly⟩ := @leading_clears cfg s 0 c.key 0 c rfl rfl f
  have hreach : (machine cfg).Reachable t := Machine.Reachable.run ⟨_, hs⟩ ht
  have hland : (machine cfg).step t (.land 0) = some (t.setStage 0 (afterFlight c (.received ⟨c, f, 3⟩))).advance := by
    simp only [machine, step, move, hfly, hled, flightEnd]
    rfl
  refine ⟨_, hreach.step hland, ?_⟩
  have hresult : (⟨c, f, 3⟩ : Lookup cfg).result = f.parallelLookup c.image c.reference c.accept := rfl
  simp only [State.advance, State.setStage, Function.update_self, afterFlight, hresult]
  cases hr : f.parallelLookup c.image c.reference c.accept with
  | ok r => simp [hr, cachedMiss] at h
  | error e => rw [hr] at h; exact if_pos h

/-! ## Skipped projects -/

theorem Fanout.ended_of_probed {f : Fanout cfg.maxFanout} (hmiss : f.Misses) {accept : List Text} {p : Text} :
    (∃ d ∈ f.ended accept, d.project = p) ↔ p ∈ f.probed := by
  rw [Fanout.ended_of_not_found hmiss.none_found, Fanout.mem_probed]

/-- A miss means that every project was probed exactly for the fan-outs whose projects are all available, and those
that no cached miss comes from: nothing was asked, some project answered 200, or the last error is not a miss by its
text. -/
theorem miss_means_all_probed_iff (f : Fanout cfg.maxFanout) (c : Call) (hmax : f.discovered.length ≤ cfg.maxFanout) :
    (∀ s, (machine cfg).Reachable s → ∀ i n, StoresNegative s i ⟨c, f, n⟩ →
      ∀ p ∈ f.discovered, ∃ d ∈ f.ended c.accept, d.project = p) ↔
    (∀ p ∈ f.discovered, (f.breaker.isAvailable f.now p).1 = true) ∨ ¬ f.Misses := by
  have hprobed : f.probed = f.discovered.filter fun p => (f.breaker.isAvailable f.now p).1 := by
    rw [Fanout.probed, candidates, if_neg (Nat.not_lt.mpr hmax), CircuitBreaker.available_eq_filter]
  constructor
  · intro h
    by_cases hmiss : f.Misses
    · refine .inl fun p hp => ?_
      obtain ⟨s, hs, hst⟩ := reachable_storing c f (Fanout.cachedMiss_iff.mpr hmiss)
      have hstore := (storesNegative_iff hs).mpr ⟨⟨c, hst⟩, Fanout.cachedMiss_iff.mpr hmiss⟩
      have := (Fanout.ended_of_probed hmiss).mp (h s hs 0 3 hstore p hp)
      rw [hprobed, List.mem_filter] at this
      exact this.2
    · exact .inr hmiss
  · intro h s hs i n hstore p hp
    have hmiss : f.Misses := Fanout.cachedMiss_iff.mp ((storesNegative_iff hs).mp hstore).2
    have hall := h.resolve_right (not_not_intro hmiss)
    rw [Fanout.ended_of_probed hmiss, hprobed, List.mem_filter]
    exact ⟨hp, hall p hp⟩

/-- Two projects, the circuit of the first one open; the second one answers 404. -/
def skipping : Fanout Config.default.maxFanout where
  discovered := ["a".toList, "b".toList]
  breaker := (CircuitBreaker.new 1 30).recordFailure 100 "a".toList
  now := 100
  completions := [⟨"b".toList, .reply (.response 404 [] []), 0⟩]
  safe := twoProjects_safe
  complete := .refl _
  sorted := List.pairwise_singleton ..

theorem skipping_misses : skipping.Misses where
  asked := by decide
  none_found := by decide
  last_error := nofun

theorem miss_means_all_probed_skipping :
    (∀ s, (machine .default).Reachable s → ∀ i n, StoresNegative s i ⟨⟨"x/y".toList, "z".toList, []⟩, skipping, n⟩ →
      ∀ p ∈ skipping.discovered, ∃ d ∈ skipping.ended [], d.project = p) ↔
    (∀ p ∈ skipping.discovered, (skipping.breaker.isAvailable skipping.now p).1 = true) ∨ ¬ skipping.Misses :=
  miss_means_all_probed_iff skipping ⟨"x/y".toList, "z".toList, []⟩ (by decide)

/-- The image is stored as missing although its first project was never asked. -/
theorem skipped_project_cached_as_miss : ¬ ∀ (f : Fanout Config.default.maxFanout) (c : Call),
    f.discovered.length ≤ 50 → ∀ s, (machine .default).Reachable s → ∀ i n, StoresNegative s i ⟨c, f, n⟩ →
      ∀ p ∈ f.discovered, ∃ d ∈ f.ended c.accept, d.project = p := by
  intro h
  let c : Call := ⟨"x/y".toList, "z".toList, []⟩
  obtain ⟨s, hs, hst⟩ := reachable_storing c skipping (Fanout.cachedMiss_iff.mpr skipping_misses)
  have hstore : StoresNegative s 0 ⟨c, skipping, 3⟩ :=
    (storesNegative_iff hs).mpr ⟨⟨c, hst⟩, Fanout.cachedMiss_iff.mpr skipping_misses⟩
  exact absurd (h skipping c (by decide) s hs 0 3 hstore) (by decide)

/-! ## Failing projects -/

/-- Recorded failures keep a lookup from being cached as a miss exactly for the fan-outs without a recorded failure,
and those that no cached miss comes from. -/
theorem failure_not_cached_iff (f : Fanout cfg.maxFanout) (c : Call) :
    (∀ s, (machine cfg).Reachable s → ∀ i n, (∃ d ∈ f.ended c.accept, d.recorded = .failure) →
      ¬ StoresNegative s i ⟨c, f, n⟩) ↔
    (∀ d ∈ f.completions, d.recorded ≠ .failure) ∨ ¬ f.Misses := by
  constructor
  · intro h
    by_cases hmiss : f.Misses
    · refine .inl fun d hd hfail => ?_
      obtain ⟨s, hs, hst⟩ := reachable_storing c f (Fanout.cachedMiss_iff.mpr hmiss)
      refine h s hs 0 3 ⟨d, ?_, hfail⟩ ((storesNegative_iff hs).mpr ⟨⟨c, hst⟩, Fanout.cachedMiss_iff.mpr hmiss⟩)
      rw [Fanout.ended_of_not_found hmiss.none_found]
      exact hd
    · exact .inr hmiss
  · rintro h s hs i n ⟨d, hd, hfail⟩ hstore
    have hmiss : f.Misses := Fanout.cachedMiss_iff.mp ((storesNegative_iff hs).mp hstore).2
    rw [Fanout.ended_of_not_found hmiss.none_found] at hd
    exact h.resolve_right (not_not_intro hmiss) d hd hfail

theorem unavailable_misses : (oneProject 503).Misses where
  asked := by decide
  none_found := by decide
  last_error := nofun

/-- The breaker counts the 503 as a failure, and the image is stored as missing. -/
theorem failing_project_cached_as_miss : ¬ ∀ (f : Fanout Config.default.maxFanout) (c : Call) s,
    (machine .default).Reachable s → ∀ i n, (∃ d ∈ f.ended c.accept, d.recorded = .failure) →
      ¬ StoresNegative s i ⟨c, f, n⟩ := by
  intro h
  let c : Call := ⟨"x/y".toList, "z".toList, []⟩
  obtain ⟨s, hs, hst⟩ := reachable_storing c (oneProject 503) (Fanout.cachedMiss_iff.mpr unavailable_misses)
  have hstore : StoresNegative s 0 ⟨c, oneProject 503, 3⟩ :=
    (storesNegative_iff hs).mpr ⟨⟨c, hst⟩, Fanout.cachedMiss_iff.mpr unavailable_misses⟩
  exact h (oneProject 503) c s hs 0 3 (by decide) hstore

end HarborRouter.Manifest
