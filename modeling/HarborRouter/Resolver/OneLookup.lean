import HarborRouter.Resolver.Provenance

/-!
# One fan-out per key

The fan-outs of a manifest key in progress: those of the leaders of `singleflight`, and those of the background
refreshes, which do not go through `singleflight`.

* `Leads`, `Refreshes` : the steps that start a fan-out, a call that becomes a leader and a stale hit;
* `lookups_step` : how the fan-outs in progress change;
* `alone_iff` : two leaders exclude each other, since a leader owns the flight of its key;
* `atMostOne_iff_alone` : never two of one key exactly when no refresh meets another fan-out of its key.
-/

namespace HarborRouter.Singleflight
open State

variable {K R : Type} [DecidableEq K]

/-- A call becomes the leader of a key without a flight, or no call becomes a leader. -/
theorem leading_step {s t : State K R} {l : Label K R} (h : step s l = some t) :
    (∃ k, l.act = .enter k ∧ s.phase l.call = .outside ∧ s.flights k = none ∧
      t.phase = Function.update s.phase l.call (.leading k s.next)) ∨
    (∀ k, l.act = .enter k → s.flights k ≠ none) ∧
      ∀ j k f, t.phase j = .leading k f → s.phase j = .leading k f := by
  have hupdate : ∀ (i j : CallId) (p : Phase K R) (k : K) (f : FlightId), (∀ k f, p ≠ .leading k f) →
      Function.update s.phase i p j = .leading k f → s.phase j = .leading k f := by
    intro i j p k f hp hj
    rcases (Function.pred_update (fun _ x => x = Phase.leading k f) ..).mp hj with ⟨-, hj⟩ | ⟨-, hj⟩
    · exact absurd hj (hp k f)
    · exact hj
  have hstep := step_cases h
  obtain ⟨i, a⟩ := l
  dsimp only at hstep
  cases hstep with
  | lead k hp hk => exact .inl ⟨k, rfl, hp, hk, rfl⟩
  | join k f hp hk =>
      refine .inr ⟨fun k' hk' => ?_, fun j k' f' => hupdate i j (.joined k f) k' f' nofun⟩
      cases hk'
      rw [hk]
      exact Option.some_ne_none f
  | remove k f r hp =>
      refine .inr ⟨nofun, fun j k' f' hj => ?_⟩
      rw [phase_leave, phase_removeKey] at hj
      exact hupdate i j (.led k f r) k' f' nofun hj
  | _ => exact .inr ⟨nofun, fun j k' f' => hupdate i j _ k' f' (by intro _ _ h; cases h)⟩

end HarborRouter.Singleflight

namespace HarborRouter.Manifest
open Lib Text

variable {cfg : Config}

/-- Who runs `parallel_lookup`: a call as a leader, or a background refresh. -/
abbrev Party := CallId ⊕ TaskId

def LooksUp (s : State cfg) (key : Text) : Party → Prop
  | .inl i => ∃ f, s.flight.phase i = .leading key f
  | .inr j => ∃ c, s.task j = .looking c ∧ c.key = key

/-- At most one `parallel_lookup` for each key is in progress. -/
def AtMostOne (s : State cfg) : Prop := ∀ key a b, LooksUp s key a → LooksUp s key b → a = b

/-- A call finds no flight of the key, and becomes its leader. -/
def Leads (s : State cfg) (l : Label cfg) (key : Text) : Prop :=
  ∃ i c, l = .enter i ∧ s.stage i = .flying c ∧ s.flight.phase i = .outside ∧ s.flight.flights c.key = none ∧
    c.key = key

/-- A stale entry of the key is served, which spawns a refresh. -/
def Refreshes (s : State cfg) (l : Label cfg) (key : Text) : Prop :=
  ∃ i reply c project r, l = .fetched i reply ∧ s.stage i = .fetching c project true ∧
    fetchManifestWithRetry cfg.retryMaxAttempts project reply = .ok r ∧ r.status = 200 ∧ c.key = key

def Starts (s : State cfg) (l : Label cfg) (key : Text) : Prop := Leads s l key ∨ Refreshes s l key

/-- No refresh meets another fan-out of its key: it is spawned while there is none, and no call becomes the leader of
the key while the refresh runs. -/
structure Alone (s : State cfg) (l : Label cfg) : Prop where
  refresh : ∀ key, Refreshes s l key → ∀ a, ¬ LooksUp s key a
  lead : ∀ key, Leads s l key → ∀ j, ¬ LooksUp s key (.inr j)

/-- Tasks are numbered as they are spawned. -/
def Numbered (s : State cfg) : Prop := ∀ j, s.tasks ≤ j → s.task j = .absent

theorem numbered_step {s t : State cfg} {l : Label cfg} (hs : Numbered s) (h : step s l = some t) : Numbered t := by
  have hset : ∀ (j : TaskId) (x : Task cfg), s.task j ≠ .absent → ∀ k, s.tasks ≤ k →
      Function.update s.task j x k = .absent := by
    intro j x hj k hk
    have hkj : k ≠ j := by
      rintro rfl
      exact hj (hs k hk)
    rw [Function.update_of_ne hkj]
    exact hs k hk
  obtain ⟨u, hu, rfl⟩ := step_cases h
  cases hu with
  | served i reply c project stale r hi hr h200 t ht =>
      subst ht
      cases stale with
      | false => exact hs
      | true =>
          intro k hk
          have hk : s.tasks < k := hk
          show Function.update s.task s.tasks (.looking c) k = .absent
          rw [Function.update_of_ne (Nat.ne_of_gt hk)]
          exact hs k (Nat.le_of_lt hk)
  | refreshed j f c x hj hx => exact hset j x (by rw [hj]; exact nofun)
  | refreshStore j now c l r hj hr => exact hset j _ (by rw [hj]; exact nofun)
  | refreshStoreImage j c l r hj hr => exact hset j _ (by rw [hj]; exact nofun)
  | _ => exact hs

/-! ## Steps -/

structure Quiet (s : State cfg) (l : Label cfg) (t : State cfg) : Prop where
  none : ∀ key, ¬ Starts s l key
  fewer : ∀ key a, LooksUp t key a → LooksUp s key a

structure Begins (s : State cfg) (l : Label cfg) (key : Text) (a : Party) (t : State cfg) : Prop where
  starts : ∀ key', Starts s l key' ↔ key' = key
  idle : ∀ key', ¬ LooksUp s key' a
  now : ∀ key' b, LooksUp t key' b ↔ (b = a ∧ key' = key) ∨ LooksUp s key' b

theorem quiet_of_tasks {s t : State cfg} {l : Label cfg} (hnone : ∀ key, ¬ Starts s l key)
    (hflight : t.flight.phase = s.flight.phase) (htask : ∀ j c, t.task j = .looking c → s.task j = .looking c) :
    Quiet s l t := by
  refine ⟨hnone, fun key a ha => ?_⟩
  cases a with
  | inl i =>
      obtain ⟨f, hf⟩ := ha
      exact ⟨f, by rw [← hflight]; exact hf⟩
  | inr j =>
      obtain ⟨c, hj, hc⟩ := ha
      exact ⟨c, htask j c hj, hc⟩

theorem quiet_of_flight {s t : State cfg} {l : Label cfg} (hnone : ∀ key, ¬ Starts s l key)
    (hflight : ∀ i key f, t.flight.phase i = .leading key f → s.flight.phase i = .leading key f)
    (htask : t.task = s.task) : Quiet s l t := by
  refine ⟨hnone, fun key a ha => ?_⟩
  cases a with
  | inl i =>
      obtain ⟨f, hf⟩ := ha
      exact ⟨f, hflight i key f hf⟩
  | inr j =>
      obtain ⟨c, hj, hc⟩ := ha
      exact ⟨c, by rw [← htask]; exact hj, hc⟩

theorem not_starts {s : State cfg} {l : Label cfg} (henter : ∀ i, l ≠ .enter i)
    (hfetched : ∀ i reply, l ≠ .fetched i reply) (key : Text) : ¬ Starts s l key := by
  rintro (⟨i, c, hl, -⟩ | ⟨i, reply, c, project, r, hl, -⟩)
  · exact henter i hl
  · exact hfetched i reply hl

theorem stage_of_starts {s t : State cfg} {i : CallId} {reply : Nat → Reply} {key : Text}
    (h : step s (.fetched i reply) = some t) (hstarts : Starts s (.fetched i reply) key) :
    ∃ c r, t.stage i = .answered c (.cached r) := by
  obtain ⟨_, _, hl, -⟩ | ⟨j, reply', c, project, r, hl, hi, hr, h200, -⟩ := hstarts
  · cases hl
  · cases hl
    simp only [step, move, hi, hr, h200, if_true, Option.map_some, Option.some.injEq] at h
    subst h
    exact ⟨c, r, Function.update_self ..⟩

theorem begins_refresh {s : State cfg} (hs : Numbered s) {i : CallId} {reply : Nat → Reply} {c : Call}
    {project : Text} {r : ResolveResult} (hi : s.stage i = .fetching c project true)
    (hr : fetchManifestWithRetry cfg.retryMaxAttempts project reply = .ok r) (h200 : r.status = 200) (t : State cfg)
    (hflight : t.flight = s.flight) (htask : t.task = Function.update s.task s.tasks (.looking c)) :
    Begins s (.fetched i reply) c.key (.inr s.tasks) t := by
  have habsent : s.task s.tasks = .absent := hs s.tasks (Nat.le_refl _)
  refine ⟨fun key => ⟨?_, ?_⟩, ?_, fun key b => ?_⟩
  · rintro (⟨_, _, hl, -⟩ | ⟨_, _, c', _, _, hl, hi', -, -, hkey⟩)
    · cases hl
    · cases hl
      rw [hi] at hi'
      cases hi'
      exact hkey.symm
  · intro hkey
    exact .inr ⟨i, reply, c, project, r, rfl, hi, hr, h200, hkey.symm⟩
  · rintro key ⟨c', hc', -⟩
    rw [habsent] at hc'
    cases hc'
  · cases b with
    | inl j => simp only [LooksUp, hflight, reduceCtorEq, false_and, false_or]
    | inr j =>
        simp only [LooksUp, htask, Sum.inr.injEq]
        by_cases hj : j = s.tasks
        · subst hj
          simp only [Function.update_self, Task.looking.injEq, habsent, reduceCtorEq, false_and, exists_false, or_false,
            true_and, exists_eq_left', eq_comm]
        · simp only [Function.update_of_ne hj, hj, false_and, false_or]

theorem begins_flight {s : State cfg} {i : CallId} {c : Call} {f : FlightId} (hi : s.stage i = .flying c)
    (hout : s.flight.phase i = .outside) (hnone : s.flight.flights c.key = none) (t : State cfg)
    (hphase : t.flight.phase = Function.update s.flight.phase i (.leading c.key f)) (htask : t.task = s.task) :
    Begins s (.enter i) c.key (.inl i) t := by
  refine ⟨fun key => ⟨?_, ?_⟩, ?_, fun key b => ?_⟩
  · rintro (⟨_, c', hl, hi', -, -, hkey⟩ | ⟨_, _, _, _, _, hl, -⟩)
    · cases hl
      rw [hi] at hi'
      cases hi'
      exact hkey.symm
    · cases hl
  · intro hkey
    exact .inl ⟨i, c, rfl, hi, hout, hnone, hkey.symm⟩
  · rintro key ⟨g, hg⟩
    rw [hout] at hg
    cases hg
  · cases b with
    | inr j => simp only [LooksUp, htask, reduceCtorEq, false_and, false_or]
    | inl j =>
        simp only [LooksUp, hphase, Sum.inl.injEq]
        by_cases hj : j = i
        · subst hj
          simp only [Function.update_self, Singleflight.Phase.leading.injEq, exists_and_left, exists_eq', and_true,
            hout, reduceCtorEq, exists_false, or_false, true_and, eq_comm]
        · simp only [Function.update_of_ne hj, hj, false_and, false_or]

theorem lookups_step {s t : State cfg} {l : Label cfg} (hs : Numbered s) (h : step s l = some t) :
    Quiet s l t ∨ ∃ key a, Begins s l key a t := by
  have hset : ∀ (j : TaskId) (x : Task cfg), (∀ c, x ≠ .looking c) → ∀ k c,
      Function.update s.task j x k = .looking c → s.task k = .looking c := by
    intro j x hx k c hk
    by_cases hkj : k = j
    · subst hkj
      rw [Function.update_self] at hk
      exact absurd hk (hx c)
    · rwa [Function.update_of_ne hkj] at hk
  have hstep := h
  obtain ⟨u, hu, rfl⟩ := step_cases h
  cases hu with
  | served i reply c project stale r hi hr h200 t ht =>
      subst ht
      cases stale with
      | false =>
          refine .inl (quiet_of_tasks ?_ rfl fun _ _ hj => hj)
          rintro key (⟨_, _, hl, -⟩ | ⟨_, _, _, _, _, hl, hi', -⟩)
          · cases hl
          · cases hl
            rw [hi] at hi'
            cases hi'
      | true => exact .inr ⟨c.key, _, begins_refresh hs hi hr h200 _ rfl rfl⟩
  | outdated i reply c project stale hi =>
      refine .inl (quiet_of_tasks (fun key hstarts => ?_) rfl fun _ _ hj => hj)
      obtain ⟨c', r, hstage⟩ := stage_of_starts hstep hstarts
      have hevicting : (Function.update s.stage i (.evicting c s.tick)) i = .answered c' (.cached r) := hstage
      rw [Function.update_self] at hevicting
      cases hevicting
  | enter i c fl hi hf =>
      obtain ⟨k, hk, hout, hnone, hphase⟩ | ⟨hjoins, hfewer⟩ := Singleflight.leading_step hf
      · cases hk
        exact .inr ⟨c.key, _, begins_flight hi hout hnone _ hphase rfl⟩
      · refine .inl (quiet_of_flight ?_ (fun j k f => hfewer j k f) rfl)
        rintro key (⟨_, c', hl, hi', -, hnone, -⟩ | ⟨_, _, _, _, _, hl, -⟩)
        · cases hl
          rw [hi] at hi'
          cases hi'
          exact hjoins c.key rfl hnone
        · cases hl
  | looked i f c fl hi hf =>
      obtain ⟨k, hk, -⟩ | ⟨-, hfewer⟩ := Singleflight.leading_step hf
      · cases hk
      · exact .inl (quiet_of_flight (not_starts nofun nofun) (fun j k f => hfewer j k f) rfl)
  | fly i a c fl hi ha hf =>
      obtain ⟨k, hk, -⟩ | ⟨-, hfewer⟩ := Singleflight.leading_step hf
      · cases hk
        cases ha
      · exact .inl (quiet_of_flight (not_starts nofun nofun) (fun j k f => hfewer j k f) rfl)
  | dropFlight i c fl hi hf =>
      obtain ⟨k, hk, -⟩ | ⟨-, hfewer⟩ := Singleflight.leading_step hf
      · cases hk
      · exact .inl (quiet_of_flight (not_starts nofun nofun) (fun j k f => hfewer j k f) rfl)
  | refreshed j f c x hj hx =>
      refine .inl (quiet_of_tasks (not_starts nofun nofun) rfl (hset j x fun c' he => ?_))
      obtain rfl | rfl := hx <;> cases he
  | refreshStore j now c l r hj hr =>
      exact .inl (quiet_of_tasks (not_starts nofun nofun) rfl (hset j _ fun _ he => by cases he))
  | refreshStoreImage j c l r hj hr =>
      exact .inl (quiet_of_tasks (not_starts nofun nofun) rfl (hset j _ fun _ he => by cases he))
  | _ => exact .inl (quiet_of_tasks (not_starts nofun nofun) rfl fun _ _ hj => hj)

/-- A call that becomes a leader finds no other one: a leader's flight is in the map. -/
theorem alone_iff {s : State cfg} {l : Label cfg} (ho : Singleflight.Owned s.flight) :
    Alone s l ↔ ∀ key, Starts s l key → ∀ a, ¬ LooksUp s key a := by
  constructor
  · rintro h key (hlead | hrefresh) a ha
    · cases a with
      | inr j => exact h.lead key hlead j ha
      | inl i =>
          obtain ⟨f, hf⟩ := ha
          obtain ⟨_, c, -, -, -, hnone, rfl⟩ := hlead
          have hentry : s.flight.flights c.key = some f := ho.entry i c.key f (by rw [hf]; exact ⟨rfl, rfl⟩)
          rw [hnone] at hentry
          cases hentry
    · exact h.refresh key hrefresh a ha
  · intro h
    exact ⟨fun key hrefresh => h key (.inr hrefresh), fun key hlead j => h key (.inl hlead) (.inr j)⟩

theorem atMostOne_step {s t : State cfg} {l : Label cfg} (hs : Numbered s) (ho : Singleflight.Owned s.flight)
    (hone : AtMostOne s) (h : step s l = some t) : AtMostOne t ↔ Alone s l := by
  rw [alone_iff ho]
  obtain hquiet | ⟨key, a, hbegins⟩ := lookups_step hs h
  · refine iff_of_true (fun key a b ha hb => ?_) fun key hstarts => absurd hstarts (hquiet.none key)
    exact hone key a b (hquiet.fewer key a ha) (hquiet.fewer key b hb)
  · constructor
    · intro ht key' hstarts b hb
      obtain rfl := (hbegins.starts key').mp hstarts
      have hba : b = a := ht key' b a ((hbegins.now key' b).mpr (.inr hb)) ((hbegins.now key' a).mpr (.inl ⟨rfl, rfl⟩))
      subst hba
      exact hbegins.idle key' hb
    · intro halone key' b b' hb hb'
      have hfree := halone key ((hbegins.starts key).mpr rfl)
      obtain ⟨rfl, rfl⟩ | hb := (hbegins.now key' b).mp hb <;> obtain ⟨rfl, hkey⟩ | hb' := (hbegins.now key' b').mp hb'
      · rfl
      · exact absurd hb' (hfree b')
      · subst hkey
        exact absurd hb (hfree b)
      · exact hone key' b b' hb hb'

def start (cache : Cache) : State cfg := { init with cache := cache }

/-- Whatever the cache holds, along every schedule of calls, drops, refreshes and expirations, never two fan-outs of
one key are in progress exactly when no refresh meets another fan-out of its key. -/
theorem atMostOne_iff_alone (cfg : Config) (cache : Cache) (ls : List (Label cfg)) :
    (machine cfg).Always AtMostOne (start cache) ls ↔ (machine cfg).Guarded Alone (start cache) ls := by
  apply Machine.always_iff_guarded (I := fun s => Numbered s ∧ Singleflight.Owned s.flight)
  · exact fun s l t hs ht => ⟨numbered_step hs.1 ht, owned_step hs.2 ht⟩
  · exact fun s l t hs hone ht => atMostOne_step hs.1 hs.2 hone ht
  · exact ⟨fun _ _ => rfl, Singleflight.owned_init⟩
  · rintro key a b ha -
    cases a with
    | inl i =>
        obtain ⟨f, hf⟩ := ha
        cases hf
    | inr j =>
        obtain ⟨c, hc, -⟩ := ha
        cases hc

/-- Two requests for one stale entry, each served from it, start two refreshes. -/
theorem two_stale_hits : ¬ ∀ (cfg : Config) (cache : Cache) (ls : List (Label cfg)),
    (machine cfg).Always AtMostOne (start cache) ls := by
  intro h
  let c : Call := ⟨"nginx".toList, "latest".toList, []⟩
  let ok : Nat → Reply := fun _ => .response 200 [] []
  let ls : List (Label .default) :=
    [.call 0 c, .call 1 c, .get 0 301, .get 1 301, .fetched 0 ok, .fetched 1 ok]
  let stale : Cache := fun key => if key = c.key then some ⟨"dockerhub|0".toList, some 360000⟩ else none
  have hrun : (machine .default).run (start stale) ls = some (((machine .default).run (start stale) ls).get rfl) := rfl
  have hone := (h .default stale ls).last hrun
  cases hone c.key (.inr 0) (.inr 1) ⟨c, rfl, rfl⟩ ⟨c, rfl, rfl⟩

end HarborRouter.Manifest
