import HarborRouter.Resolver.OneCall

/-!
# Content types and other callers

The flights and the cache are keyed without the `Accept` list, so a call may be answered by a fan-out that
negotiated for another list, or from a project that another call chose.

* `Landed` : an answer is what the flight of the call returned, unless the call has not flown;
* `HitBy` : an answer from the cache is the cached project's own 200;
* `negotiated_by_leader` : a fan-out negotiates for its leader, and so for every follower whose list accepts the
  same content types;
* `follower_gets_leaders_type` : a follower with another list is left with a content type that it does not accept.
-/

namespace HarborRouter.Manifest
open Lib

variable {cfg : Config}

def Stage.Returned (e : Singleflight.FlightEnd (Lookup cfg)) : Stage cfg → Prop
  | .storing _ l | .storingImage _ l => e = .received l
  | .answered _ (.flight e') => e' = e
  | _ => False

def Stage.Direct : Stage cfg → Prop
  | .answered _ .negative | .answered _ (.cached _) => True
  | _ => False

structure Landed (s : State cfg) : Prop where
  returned : ∀ i e, (s.stage i).Returned e → flightEnd (s.flight.phase i) = some e
  direct : ∀ i, (s.stage i).Direct → s.flight.phase i = .outside

theorem landed_init : Landed (init : State cfg) := ⟨fun _ _ h => h.elim, fun _ h => h.elim⟩

theorem Landed.congr {s t : State cfg} (hs : Landed s) (hstage : t.stage = s.stage) (hflight : t.flight = s.flight) :
    Landed t := by
  refine ⟨?_, ?_⟩ <;> rw [hstage, hflight]
  · exact hs.returned
  · exact hs.direct

theorem Landed.move {s t : State cfg} {i : CallId} {st : Stage cfg} (hs : Landed s)
    (hstage : t.stage = Function.update s.stage i st) (hflight : t.flight = s.flight)
    (hreturned : ∀ e, st.Returned e → flightEnd (s.flight.phase i) = some e)
    (hdirect : st.Direct → s.flight.phase i = .outside) : Landed t := by
  refine ⟨?_, ?_⟩ <;> rw [hstage]
  · rw [hflight,
      Function.forall_update_iff s.stage fun j x => ∀ e, x.Returned e → flightEnd (s.flight.phase j) = some e]
    exact ⟨hreturned, fun j _ => hs.returned j⟩
  · rw [hflight, Function.forall_update_iff s.stage fun j x => x.Direct → s.flight.phase j = .outside]
    exact ⟨hdirect, fun j _ => hs.direct j⟩

theorem Landed.move_early {s t : State cfg} {i : CallId} {st : Stage cfg} (hs : Landed s) (hst : Staged s)
    (h : (s.stage i).Early) (hstage : t.stage = Function.update s.stage i st) (hflight : t.flight = s.flight)
    (hreturned : ∀ e, ¬ st.Returned e) : Landed t :=
  hs.move hstage hflight (fun e he => absurd he (hreturned e)) fun _ => hst.early i h

theorem Landed.fly {s t : State cfg} {i : CallId} {a : Singleflight.Action Text (Lookup cfg)} {c : Call}
    (hs : Landed s) (hc : s.stage i = .flying c) (hstep : Singleflight.step s.flight ⟨i, a⟩ = some t.flight)
    (hstage : t.stage = s.stage) : Landed t := by
  obtain ⟨p, hp, -⟩ := (Singleflight.step_cases hstep).phase_update
  refine ⟨fun j e h => ?_, fun j h => ?_⟩ <;> rw [hstage] at h
  · have hj : j ≠ i := by
      rintro rfl
      rw [hc] at h
      exact h
    rw [hp, Function.update_of_ne hj]
    exact hs.returned j e h
  · have hj : j ≠ i := by
      rintro rfl
      rw [hc] at h
      exact h
    rw [hp, Function.update_of_ne hj]
    exact hs.direct j h

theorem returned_afterFlight {c : Call} {e e' : Singleflight.FlightEnd (Lookup cfg)}
    (h : (afterFlight c e).Returned e') : e' = e := by
  rcases afterFlight_cases c e with ⟨l, rfl, hst⟩ | hst <;> rw [hst] at h
  · exact h
  · exact h.symm

theorem afterFlight_not_direct (c : Call) (e : Singleflight.FlightEnd (Lookup cfg)) : ¬ (afterFlight c e).Direct := by
  rcases afterFlight_cases c e with ⟨l, -, hst⟩ | hst <;> rw [hst] <;> exact id

theorem landed_step {s t : State cfg} {l : Label cfg} (hst : Staged s) (hs : Landed s) (h : step s l = some t) :
    Landed t := by
  obtain ⟨u, hu, rfl⟩ := step_cases h
  suffices Landed u from this.congr rfl rfl
  cases hu with
  | call i c hi => exact hs.move_early hst (by rw [hi]; trivial) rfl rfl fun _ => id
  | get i now c hi =>
      have hearly : (s.stage i).Early := by rw [hi]; trivial
      refine hs.move_early hst hearly rfl rfl ?_
      rcases afterGet_cases cfg c now (s.cache c.key) with he | he | ⟨project, stale, he⟩ <;> rw [he] <;>
        exact fun _ => id
  | served i reply c project stale r hi hr h200 t ht =>
      have hanswered : Landed t := by
        subst ht
        exact hs.move_early hst (by rw [hi]; trivial) rfl rfl fun _ => id
      cases stale with
      | false => exact hanswered
      | true => exact hanswered.congr rfl rfl
  | outdated i reply c project stale hi =>
      exact hs.move_early hst (by rw [hi]; trivial) rfl rfl fun _ => id
  | evict i c observed hi => exact hs.move_early hst (by rw [hi]; trivial) rfl rfl fun _ => id
  | enter i c fl hi hf => exact hs.fly hi hf rfl
  | looked i f c fl hi hf => exact hs.fly hi hf rfl
  | fly i a c fl hi ha hf => exact hs.fly hi hf rfl
  | land i c e hi he =>
      refine hs.move rfl rfl (fun e' h => ?_) fun h => absurd h (afterFlight_not_direct c e)
      rw [returned_afterFlight h]
      exact he
  | store i now c l st hi hst =>
      have hl : flightEnd (s.flight.phase i) = some (.received l) := hs.returned i _ (by rw [hi]; rfl)
      rcases hst with rfl | rfl <;> refine hs.move rfl rfl (fun e h => ?_) fun h => h.elim
      · rw [h]
        exact hl
      · rw [← h]
        exact hl
  | storeImage i c l r hi hr =>
      refine hs.move rfl rfl (fun e h => ?_) fun h => h.elim
      rw [← h]
      exact hs.returned i _ (by rw [hi]; rfl)
  | drop i hi => exact hs.move rfl rfl (fun _ h => h.elim) fun h => h.elim
  | dropFlight i c fl hi hf =>
      have hmid : Landed (s.setFlight fl) := hs.fly hi hf rfl
      exact hmid.move rfl rfl (fun _ h => h.elim) fun h => h.elim
  | refreshed j f c t hj ht => exact hs.congr rfl rfl
  | refreshStore j now c l r hj hr => exact hs.congr rfl rfl
  | refreshStoreImage j c l r hj hr => exact hs.congr rfl rfl
  | expire key => exact hs.congr rfl rfl

theorem landed_reachable {s : State cfg} (h : (machine cfg).Reachable s) : Landed s :=
  (h.rule (I := fun s => Staged s ∧ Landed s) ⟨staged_init, landed_init⟩
    fun _ _ _ hs ht => ⟨staged_step hs.1 ht, landed_step hs.1 hs.2 ht⟩).2

/-- A call that led its flight and has its answer was answered with what it found. -/
theorem Landed.leader {s : State cfg} (hs : Landed s) {i : CallId} {c : Call} {a : Source cfg}
    (hi : s.stage i = .answered c a) {k : Text} {f : FlightId} {l : Lookup cfg}
    (hp : s.flight.phase i = .led k f l) : a = .flight (.received l) := by
  have hdirect := hs.direct i
  have hreturned := hs.returned i
  rw [hi, hp] at hdirect hreturned
  cases a with
  | negative => exact absurd (hdirect trivial) nofun
  | cached r => exact absurd (hdirect trivial) nofun
  | flight e =>
      cases hreturned e rfl
      rfl

/-! ## Answers from the cache -/

/-- In the schedule the call reads an entry of its key, which names the project. -/
def ReadAs (ls : List (Label cfg)) (i : CallId) (c : Call) (project : Text) : Prop :=
  ∃ before now after s entry, ls = before ++ .get i now :: after ∧ (machine cfg).run init before = some s ∧
    s.cache c.key = some entry ∧ (readEntry cfg entry).1 = project ∧ project ≠ negativeCacheSentinel

/-- The answer is what the project that the call read from its entry replied to one of its attempts, with 200. -/
structure HitBy (ls : List (Label cfg)) (i : CallId) (c : Call) (r : ResolveResult) : Prop where
  read : ReadAs ls i c r.project
  replied : ∃ reply attempt, .fetched i reply ∈ ls ∧ reply attempt = .response r.status r.headers r.body ∧
    fetchManifestWithRetry cfg.retryMaxAttempts r.project reply = .ok r
  ok : r.status = 200

theorem ReadAs.snoc {ls : List (Label cfg)} {i : CallId} {c : Call} {project : Text} (h : ReadAs ls i c project)
    (l : Label cfg) : ReadAs (ls ++ [l]) i c project := by
  obtain ⟨before, now, after, s, entry, rfl, hrest⟩ := h
  exact ⟨before, now, after ++ [l], s, entry, by rw [List.append_assoc, List.cons_append], hrest⟩

theorem HitBy.snoc {ls : List (Label cfg)} {i : CallId} {c : Call} {r : ResolveResult} (h : HitBy ls i c r)
    (l : Label cfg) : HitBy (ls ++ [l]) i c r := by
  obtain ⟨hread, ⟨reply, attempt, hmem, hrest⟩, hok⟩ := h
  exact ⟨hread.snoc l, ⟨reply, attempt, List.mem_append_left _ hmem, hrest⟩, hok⟩

theorem routed_run {ls : List (Label cfg)} {s : State cfg} (hrun : (machine cfg).run init ls = some s) (i : CallId)
    (c : Call) : (∀ project stale, s.stage i = .fetching c project stale → ReadAs ls i c project) ∧
      ∀ r, s.stage i = .answered c (.cached r) → HitBy ls i c r := by
  induction ls using List.reverseRecOn generalizing s with
  | nil =>
      cases hrun
      exact ⟨nofun, nofun⟩
  | append_singleton ls l ih =>
      obtain ⟨u, hu, hstep⟩ := (Machine.run_concat _).mp hrun
      obtain ⟨hfetching, hcached⟩ := ih hu
      obtain hsame | hnot | ⟨now, c', rfl, hget⟩ | ⟨reply, c', project, stale, r, rfl, hi, hr, h200, hserved⟩ :=
        routed_step hstep i
      · rw [hsame]
        exact ⟨fun project stale hi => (hfetching project stale hi).snoc l, fun r hi => (hcached r hi).snoc l⟩
      · exact ⟨fun project stale hi => absurd (by rw [hi]; trivial) hnot,
          fun r hi => absurd (by rw [hi]; trivial) hnot⟩
      · rw [hget]
        cases hentry : u.cache c'.key with
        | none => exact ⟨nofun, nofun⟩
        | some entry =>
            rw [afterGet_some]
            split
            · exact ⟨nofun, nofun⟩
            · rename_i hne
              refine ⟨fun project stale hi => ?_, nofun⟩
              cases hi
              exact ⟨ls, now, [], u, entry, rfl, hu, hentry, rfl, hne⟩
      · rw [hserved]
        refine ⟨nofun, fun r' he => ?_⟩
        cases he
        obtain ⟨attempt, hattempt⟩ := reply_of_retry_ok hr
        obtain ⟨rfl, -⟩ := retry_ok hr
        exact ⟨(hfetching _ _ hi).snoc _, ⟨reply, attempt, List.mem_append_right _ List.mem_cons_self, hattempt, hr⟩,
          h200⟩

/-! ## What a fan-out negotiates -/

/-- Some probed project answered 200 with a content type on the list, and no later than every other. -/
def Lookup.Offers (l : Lookup cfg) (accept : List Text) : Prop :=
  ∃ d ∈ l.fanout.completions, d.wins accept = true ∧ ∀ d' ∈ l.fanout.completions, d.time ≤ d'.time

def SameTypes (accept accept' : List Text) : Prop := ∀ r, accepts accept r = accepts accept' r

theorem SameTypes.wins {accept accept' : List Text} (h : SameTypes accept accept') (d : Completion) :
    d.wins accept = d.wins accept' := by
  unfold Completion.wins
  cases d.result with
  | ok r => dsimp only; rw [h r]
  | error e => rfl

theorem SameTypes.negotiated {l : Lookup cfg} {accept : List Text} (h : SameTypes l.call.accept accept)
    (ho : l.Offers accept) : ∃ r, l.result = .ok r ∧ r.status = 200 ∧ accepts accept r = true := by
  obtain ⟨d, hd, hw, hfirst⟩ := ho
  have hleader : d.wins l.call.accept = true := by rw [h.wins d]; exact hw
  obtain ⟨r, hr, h200, hacc⟩ := Fanout.parallelLookup_accepts hd hleader hfirst
  refine ⟨r, hr, h200, ?_⟩
  rw [← h r]
  exact hacc

/-! ## Two lists on one flight -/

/-- Two projects with the same image in two types, which answer together. -/
def twoTypes : Fanout Config.default.maxFanout where
  discovered := ["a".toList, "b".toList]
  breaker := CircuitBreaker.new 5 30
  now := 100
  completions := [⟨"a".toList, .reply (.response 200 [("content-type".toList, "t/one".toList)] []), 0⟩,
    ⟨"b".toList, .reply (.response 200 [("content-type".toList, "t/two".toList)] []), 0⟩]
  safe := twoProjects_safe
  complete := .refl _
  sorted := .cons (fun d hd => by rw [List.mem_singleton.mp hd]) (List.pairwise_singleton ..)

theorem twoTypes_first : ∀ d ∈ twoTypes.completions, ∀ d' ∈ twoTypes.completions, d.time ≤ d'.time := by decide

/-- Call 0 leads, call 1 follows, and both are answered. -/
def shared (leader follower : Call) : List (Label .default) :=
  [.call 0 leader, .call 1 follower, .get 0 0, .get 1 0, .enter 0, .enter 1, .fly 1 .subscribe, .fly 1 .borrow,
    .looked 0 twoTypes, .fly 0 .send, .fly 0 .remove, .land 0, .store 0 0, .storeImage 0, .fly 1 .wake, .fly 1 .read,
    .land 1, .store 1 0, .storeImage 1]

def ask (accept : List Text) : Call := ⟨"x/y".toList, "z".toList, accept⟩

theorem SameTypes.of_perm {accept accept' : List Text} (h : accept.Perm accept') : SameTypes accept accept' := by
  intro r
  have hnil : accept = [] ↔ accept' = [] := ⟨fun he => (he ▸ h).nil_eq.symm, fun he => (he ▸ h).eq_nil⟩
  simp only [accepts, contentTypeMatches, h.any_eq, hnil]

/-- Along every run, a call that led its flight is answered with what `parallel_lookup` returns for its own arguments.
A call that got the outcome of a fan-out got that of a fan-out for its key, and has a content type of its own list if
one was offered and the leader's list accepts the same types. A call that was answered from the cache got the 200 of
the cached project. -/
theorem negotiated_by_leader {ls : List (Label cfg)} {s : State cfg} (hrun : (machine cfg).run init ls = some s)
    {i : CallId} {c : Call} {a : Source cfg} (hi : s.stage i = .answered c a) :
    (∀ k f l, s.flight.phase i = .led k f l →
      a.result c = l.fanout.parallelLookup c.image c.reference c.accept) ∧
    (∀ l, a = .flight (.received l) → l.call.key = c.key ∧
      (SameTypes l.call.accept c.accept → l.Offers c.accept →
        ∃ r, a.result c = .ok r ∧ r.status = 200 ∧ accepts c.accept r = true)) ∧
    ∀ r, a = .cached r → a.result c = .ok r ∧ HitBy ls i c r := by
  have h : (machine cfg).Reachable s := ⟨ls, hrun⟩
  have hland := landed_reachable h
  refine ⟨fun k f l hp => ?_, ?_, ?_⟩
  · have hcall : l.call = c := (staged_reachable h).leader i c l (by rw [hi]; rfl) (by rw [hp]; rfl)
    rw [hland.leader hi hp, ← hcall]
    rfl
  · rintro l rfl
    exact ⟨((traced_reachable h).holds i c l (by rw [hi]; exact ⟨rfl, rfl⟩)).key, SameTypes.negotiated⟩
  · rintro r rfl
    exact ⟨rfl, (routed_run hrun i c).2 r hi⟩

/-- A leader, a follower that names the same types in another order, and a call that finds the entry they left. -/
theorem negotiated_by_leader_shared : ∃ (ls : List (Label .default)) (s : State .default) (l : Lookup .default)
    (c c' : Call) (hit : ResolveResult), (machine .default).run init ls = some s ∧ c.accept ≠ c'.accept ∧
      s.stage 0 = .answered c (.flight (.received l)) ∧ s.stage 1 = .answered c' (.flight (.received l)) ∧
      s.stage 2 = .answered c (.cached hit) ∧
      (Source.flight (.received l)).result c = l.fanout.parallelLookup c.image c.reference c.accept ∧
      (∃ r, (Source.flight (.received l)).result c' = .ok r ∧ r.status = 200 ∧ accepts c'.accept r = true) ∧
      HitBy ls 2 c hit := by
  let c : Call := ask ["t/two".toList, "t/three".toList]
  let c' : Call := ask ["t/three".toList, "t/two".toList]
  let ls : List (Label .default) := shared c c' ++
    [.call 2 c, .get 2 0, .fetched 2 fun _ => .response 200 [("content-type".toList, "t/one".toList)] []]
  let s := ((machine .default).run init ls).get rfl
  have hrun : (machine .default).run init ls = some s := rfl
  have h0 : s.stage 0 = .answered c (.flight (.received ⟨c, twoTypes, 8⟩)) := rfl
  have h1 : s.stage 1 = .answered c' (.flight (.received ⟨c, twoTypes, 8⟩)) := rfl
  have h2 : s.stage 2 = .answered c (.cached ⟨"b".toList, 200, [("content-type".toList, "t/one".toList)], []⟩) := rfl
  obtain ⟨hleader, -, -⟩ := negotiated_by_leader hrun h0
  obtain ⟨-, hfollower, -⟩ := negotiated_by_leader hrun h1
  obtain ⟨-, -, hcached⟩ := negotiated_by_leader hrun h2
  have hoffers : (Lookup.mk c twoTypes 8).Offers c'.accept :=
    ⟨_, List.mem_cons_of_mem _ List.mem_cons_self, by decide, twoTypes_first _ (by decide)⟩
  exact ⟨ls, s, _, c, c', _, hrun, by decide, h0, h1, h2, hleader _ _ _ rfl,
    (hfollower _ rfl).2 (SameTypes.of_perm (.swap ..)) hoffers, (hcached _ rfl).2⟩

/-- A project answered 200 with the type that the follower asked for, no later than any other, and the follower is
answered with another type. -/
theorem follower_gets_leaders_type : ∃ (s : State .default) (i : CallId) (c : Call) (l : Lookup .default)
    (r : ResolveResult), (machine .default).Reachable s ∧ s.stage i = .answered c (.flight (.received l)) ∧
      l.Offers c.accept ∧ (Source.flight (.received l)).result c = .ok r ∧ accepts c.accept r = false := by
  let s := ((machine .default).run init (shared (ask []) (ask ["t/two".toList]))).get rfl
  have hs : (machine .default).Reachable s := ⟨shared (ask []) (ask ["t/two".toList]), rfl⟩
  have hi : s.stage 1 = .answered (ask ["t/two".toList]) (.flight (.received ⟨ask [], twoTypes, 8⟩)) := rfl
  exact ⟨s, 1, _, _, _, hs, hi,
    ⟨_, List.mem_cons_of_mem _ List.mem_cons_self, by decide, twoTypes_first _ (by decide)⟩, rfl, by decide⟩

end HarborRouter.Manifest
