import HarborRouter.Resolver.OneLookup

/-!
# One call of `resolve_manifest`, from its start to its answer

What one call answers, writes to the cache and sends upstream, as a function of the cache and of what the outside
world does meanwhile. The project of a cache entry is asked whatever its circuit breaker says, which guards the
fan-outs only.

* `resolveManifest_cases` : the four ways a call can go;
* `run_alone` : a call that has its key to itself goes the same way in the machine.
-/

namespace HarborRouter.Singleflight

variable {K R : Type} [DecidableEq K]

theorem lead_alone {s : State K R} {i : CallId} {k : K} (r : R) (hp : s.phase i = .outside)
    (hk : s.flights k = none) : ∃ s₁ s₂ s₃ s₄, step s ⟨i, .enter k⟩ = some s₁ ∧ step s₁ ⟨i, .looked r⟩ = some s₂ ∧
      step s₂ ⟨i, .send⟩ = some s₃ ∧ step s₃ ⟨i, .remove⟩ = some s₄ ∧ s₄.phase i = .led k s.next r := by
  let s₁ := s.lead i k
  let s₂ := s₁.setPhase i (.publishing k s.next r)
  let s₃ := (s₂.setChan s.next ((s₂.chan s.next).send (some r))).setPhase i (.removing k s.next r)
  let s₄ := (s₃.removeKey k).leave i s.next (.led k s.next r)
  have hleading : s₁.phase i = .leading k s.next := Function.update_self ..
  have hpublishing : s₂.phase i = .publishing k s.next r := Function.update_self ..
  have hremoving : s₃.phase i = .removing k s.next r := Function.update_self ..
  refine ⟨s₁, s₂, s₃, s₄, ?_, ?_, ?_, ?_, Function.update_self ..⟩
  · simp only [step, hp, hk, s₁]
  · simp only [step, hleading, s₂]
  · simp only [step, hpublishing, s₃]
  · simp only [step, hremoving, s₄]

end HarborRouter.Singleflight

namespace HarborRouter.Manifest
open Lib Text

variable {cfg : Config}

/-- What a call answers, what it writes to the cache, the projects it asks by name, once for each request, and its
fan-outs. The refresh that a call spawns counts as a part of it. -/
structure Trace (R F : Type) where
  result : R
  writes : List (Text × Option Entry)
  asked : List Text
  fanouts : List F

def write (cache : Cache) (writes : List (Text × Option Entry)) : Cache :=
  writes.foldl (fun m w => Function.update m w.1 w.2) cache

/-! ## Requests to a cached project -/

/-- The number of attempts that the retries make, from number `attempt` on. -/
def attemptsFrom (project : Text) (reply : Nat → Reply) : Nat → Nat → Nat
  | 0, _ => 1
  | left + 1, attempt =>
      if retryable (fetchManifest project (reply attempt)) then attemptsFrom project reply left (attempt + 1) + 1 else 1

/-- The requests that `fetch_manifest_with_retry` sends: none to an unsafe name, else one for each attempt. -/
def fetches (retryMaxAttempts : Nat) (project : Text) (reply : Nat → Reply) : List Text :=
  if isSafeProjectName project then List.replicate (attemptsFrom project reply (max retryMaxAttempts 1 - 1) 0) project
  else []

theorem attemptsFrom_pos (project : Text) (reply : Nat → Reply) (left attempt : Nat) :
    0 < attemptsFrom project reply left attempt := by
  unfold attemptsFrom
  split
  · exact Nat.one_pos
  · split
    · exact Nat.succ_pos _
    · exact Nat.one_pos

theorem attemptsFrom_le (project : Text) (reply : Nat → Reply) (left attempt : Nat) :
    attemptsFrom project reply left attempt ≤ left + 1 := by
  induction left generalizing attempt with
  | zero => exact Nat.le_refl 1
  | succ left ih =>
      unfold attemptsFrom
      split
      · exact Nat.succ_le_succ (ih (attempt + 1))
      · omega

/-- A project that is fetched from is asked, if its name is safe, and at most as often as is allowed. -/
theorem length_fetches_le (retryMaxAttempts : Nat) (project : Text) (reply : Nat → Reply) :
    (fetches retryMaxAttempts project reply).length ≤ max retryMaxAttempts 1 := by
  unfold fetches
  split
  · rw [List.length_replicate]
    have := attemptsFrom_le project reply (max retryMaxAttempts 1 - 1) 0
    omega
  · exact Nat.zero_le _

theorem mem_fetches {retryMaxAttempts : Nat} {project p : Text} {reply : Nat → Reply} :
    p ∈ fetches retryMaxAttempts project reply ↔ isSafeProjectName project = true ∧ p = project := by
  have hpos := attemptsFrom_pos project reply (max retryMaxAttempts 1 - 1) 0
  unfold fetches
  split
  · rename_i hsafe
    rw [List.mem_replicate]
    exact ⟨fun h => ⟨hsafe, h.2⟩, fun h => ⟨Nat.ne_of_gt hpos, h.2⟩⟩
  · rename_i hunsafe
    exact ⟨fun h => absurd h List.not_mem_nil, fun h => absurd h.1 hunsafe⟩

/-! ## The call -/

/-- What the outside world does during one call: the clock when the cache is read, the replies of a cached project,
the end of the flight that the call joins, or else the fan-out it leads, and the clock when its result is stored; and
the fan-out and the clock of the background refresh. -/
structure World (cfg : Config) where
  now : Nat
  reply : Text → Nat → Reply
  joined : Option (Singleflight.FlightEnd (Lookup cfg))
  fanout : Fanout cfg.maxFanout
  stored : Nat
  refresh : Fanout cfg.maxFanout
  refreshed : Nat

def readEntry (cfg : Config) (entry : Entry) : Text × Option Nat :=
  if cfg.staleWhileRevalidate = 0 then (entry.value, none) else decodeCacheValue entry.value

/-- The entry is older than `cache_ttl`. -/
def isStale (cfg : Config) (now : Nat) (timestamp : Option Nat) : Bool :=
  cfg.staleWhileRevalidate ≠ 0 && timestamp.any fun ts => cfg.cacheTtl / 1000 < now - ts

namespace World
variable (w : World cfg)

def flown (c : Call) : Except Text ResolveResult :=
  match w.joined with
  | none => w.fanout.parallelLookup c.image c.reference c.accept
  | some e => outcome e

def settle (c : Call) : Except Text ResolveResult → List (Text × Option Entry)
  | .ok r => [(c.key, some (entryOf cfg w.stored (.ok r))), (imageKey c.image, some ⟨r.project, none⟩)]
  | .error e => if isAllProjectsNon200 e then [(c.key, some (entryOf cfg w.stored (.error e)))] else []

/-- The part of a call from `singleflight` on. -/
def miss (c : Call) : Trace (Except Text ResolveResult) (Fanout cfg.maxFanout) where
  result := w.flown c
  writes := w.settle c (w.flown c)
  asked := []
  fanouts := match w.joined with
    | none => [w.fanout]
    | some _ => []

def refreshWrites (c : Call) : List (Text × Option Entry) :=
  match w.refresh.parallelLookup c.image c.reference c.accept with
  | .ok r =>
      [(c.key, some ⟨encodeCacheValue r.project w.refreshed, some (cfg.cacheTtl + cfg.staleWhileRevalidate)⟩),
        (imageKey c.image, some ⟨r.project, none⟩)]
  | .error _ => []

/-- A call that the cached project answered, and the refresh it spawns when the entry was stale. -/
def hit (c : Call) (asked : List Text) (stale : Bool) (r : ResolveResult) :
    Trace (Except Text ResolveResult) (Fanout cfg.maxFanout) where
  result := .ok r
  writes := if stale then w.refreshWrites c else []
  asked := asked
  fanouts := if stale then [w.refresh] else []

def evict (c : Call) (asked : List Text) : Trace (Except Text ResolveResult) (Fanout cfg.maxFanout) :=
  { w.miss c with writes := (c.key, none) :: (w.miss c).writes, asked := asked }

def resolveManifest (cache : Cache) (c : Call) : Trace (Except Text ResolveResult) (Fanout cfg.maxFanout) :=
  match cache c.key with
  | none => w.miss c
  | some entry =>
      let project := (readEntry cfg entry).1
      let stale := isStale cfg w.now (readEntry cfg entry).2
      if project = negativeCacheSentinel then ⟨.error (notFound c.image c.reference), [], [], []⟩
      else
        let asked := fetches cfg.retryMaxAttempts project (w.reply project)
        match fetchManifestWithRetry cfg.retryMaxAttempts project (w.reply project) with
        | .ok r => if r.status = 200 then w.hit c asked stale r else w.evict c asked
        | .error _ => w.evict c asked

def answers (project : Text) (r : ResolveResult) : Prop :=
  fetchManifestWithRetry cfg.retryMaxAttempts project (w.reply project) = .ok r ∧ r.status = 200

end World

inductive Goes (w : World cfg) (cache : Cache) (c : Call) :
    Trace (Except Text ResolveResult) (Fanout cfg.maxFanout) → Prop
  | missed (he : cache c.key = none) : Goes w cache c (w.miss c)
  | negative (entry : Entry) (he : cache c.key = some entry) (hs : (readEntry cfg entry).1 = negativeCacheSentinel) :
      Goes w cache c ⟨.error (notFound c.image c.reference), [], [], []⟩
  | hit (entry : Entry) (project : Text) (r : ResolveResult) (he : cache c.key = some entry)
      (hp : (readEntry cfg entry).1 = project) (hs : project ≠ negativeCacheSentinel) (hr : w.answers project r) :
      Goes w cache c (w.hit c (fetches cfg.retryMaxAttempts project (w.reply project))
        (isStale cfg w.now (readEntry cfg entry).2) r)
  | evicted (entry : Entry) (project : Text) (he : cache c.key = some entry) (hp : (readEntry cfg entry).1 = project)
      (hs : project ≠ negativeCacheSentinel) (hr : ∀ r, ¬ w.answers project r) :
      Goes w cache c (w.evict c (fetches cfg.retryMaxAttempts project (w.reply project)))

theorem resolveManifest_cases (w : World cfg) (cache : Cache) (c : Call) :
    Goes w cache c (w.resolveManifest cache c) := by
  unfold World.resolveManifest
  cases he : cache c.key with
  | none => exact .missed he
  | some entry =>
      dsimp only
      split
      · exact .negative entry he ‹_›
      · rename_i hs
        generalize hp : (readEntry cfg entry).1 = project at hs ⊢
        cases hr : fetchManifestWithRetry cfg.retryMaxAttempts project (w.reply project) with
        | error e =>
            refine .evicted entry project he hp hs fun r h => ?_
            rw [h.1] at hr
            cases hr
        | ok r =>
            dsimp only
            split
            · exact .hit entry project r he hp hs ⟨hr, ‹_›⟩
            · rename_i hstatus
              refine .evicted entry project he hp hs fun r' h => ?_
              rw [h.1] at hr
              cases hr
              exact hstatus h.2

/-- A call asks the project its entry is read as, unless that is the sentinel. -/
theorem mem_asked_manifest {w : World cfg} {cache : Cache} {c : Call} {p : Text} :
    p ∈ (w.resolveManifest cache c).asked ↔ ∃ entry, cache c.key = some entry ∧ (readEntry cfg entry).1 = p ∧
      p ≠ negativeCacheSentinel ∧ isSafeProjectName p = true := by
  have hgoes := resolveManifest_cases w cache c
  generalize w.resolveManifest cache c = trace at hgoes ⊢
  have hasked : ∀ {project : Text}, project ≠ negativeCacheSentinel →
      (p ∈ fetches cfg.retryMaxAttempts project (w.reply project) ↔
        project = p ∧ p ≠ negativeCacheSentinel ∧ isSafeProjectName p = true) := by
    intro project hs
    rw [mem_fetches]
    constructor
    · rintro ⟨hsafe, rfl⟩
      exact ⟨rfl, hs, hsafe⟩
    · rintro ⟨rfl, -, hsafe⟩
      exact ⟨hsafe, rfl⟩
  cases hgoes with
  | missed he => simp [he, World.miss]
  | negative entry he hs =>
      simp only [he, Option.some.injEq, exists_eq_left', hs, List.not_mem_nil, false_iff, not_and]
      exact fun hp hne => absurd hp.symm hne
  | hit entry project r he hp hs hr =>
      simp only [he, Option.some.injEq, exists_eq_left', hp]
      exact hasked hs
  | evicted entry project he hp hs hr =>
      simp only [he, Option.some.injEq, exists_eq_left', hp]
      exact hasked hs

/-! ## In the machine -/

def Label.fanout : Label cfg → Option (Fanout cfg.maxFanout)
  | .looked _ f | .refreshed _ f => some f
  | _ => none

theorem afterGet_some (c : Call) (now : Nat) (entry : Entry) : (afterGet c now (some entry) : Stage cfg) =
    if (readEntry cfg entry).1 = negativeCacheSentinel then .answered c .negative
    else .fetching c (readEntry cfg entry).1 (isStale cfg now (readEntry cfg entry).2) := rfl

def flightLabels (i : CallId) (f : Fanout cfg.maxFanout) : List (Label cfg) :=
  [.enter i, .looked i f, .fly i .send, .fly i .remove, .land i]

section Flying
variable {s : State cfg} {i : CallId} {c : Call} {fl : Singleflight.State Text (Lookup cfg)}

theorem step_enter (hi : s.stage i = .flying c) (h : Singleflight.step s.flight ⟨i, .enter c.key⟩ = some fl) :
    (machine cfg).step s (.enter i) = some (s.setFlight fl).advance := by
  simp only [machine, step, move, hi, h, Option.map_some]

theorem step_looked {f : Fanout cfg.maxFanout} (hi : s.stage i = .flying c)
    (h : Singleflight.step s.flight ⟨i, .looked ⟨c, f, s.tick⟩⟩ = some fl) :
    (machine cfg).step s (.looked i f) = some ((s.setFlight fl).serve c.image (servers c f)).advance := by
  simp only [machine, step, move, hi, h, Option.map_some]

theorem step_fly {a : Singleflight.Action Text (Lookup cfg)} (hi : s.stage i = .flying c) (ha : inner a = true)
    (h : Singleflight.step s.flight ⟨i, a⟩ = some fl) :
    (machine cfg).step s (.fly i a) = some (s.setFlight fl).advance := by
  simp only [machine, step, move, hi, ha, if_true, h, Option.map_some]

theorem step_land {e : Singleflight.FlightEnd (Lookup cfg)} (hi : s.stage i = .flying c)
    (h : flightEnd (s.flight.phase i) = some e) :
    (machine cfg).step s (.land i) = some (s.setStage i (afterFlight c e)).advance := by
  simp only [machine, step, move, hi, h, Option.map_some]

/-- A call of a key without a flight leads one, and comes home with what its own fan-out found. -/
theorem run_flight (f : Fanout cfg.maxFanout) (hi : s.stage i = .flying c) (hout : s.flight.phase i = .outside)
    (hnone : s.flight.flights c.key = none) :
    ∃ t l, (machine cfg).run s (flightLabels i f) = some t ∧ t.stage i = afterFlight c (.received l) ∧
      t.cache = s.cache ∧ l.call = c ∧ l.fanout = f := by
  let l : Lookup cfg := ⟨c, f, s.tick + 1⟩
  obtain ⟨s₁, s₂, s₃, s₄, h₁, h₂, h₃, h₄, hled⟩ := Singleflight.lead_alone l hout hnone
  let t₁ : State cfg := (s.setFlight s₁).advance
  let t₂ : State cfg := ((t₁.setFlight s₂).serve c.image (servers c f)).advance
  let t₃ : State cfg := (t₂.setFlight s₃).advance
  let t₄ : State cfg := (t₃.setFlight s₄).advance
  have henter : (machine cfg).step s (.enter i) = some t₁ := step_enter hi h₁
  have hlooked : (machine cfg).step t₁ (.looked i f) = some t₂ := step_looked hi h₂
  have hsend : (machine cfg).step t₂ (.fly i .send) = some t₃ := step_fly hi rfl h₃
  have hremove : (machine cfg).step t₃ (.fly i .remove) = some t₄ := step_fly hi rfl h₄
  let t₅ : State cfg := (t₄.setStage i (afterFlight c (.received l))).advance
  have hphase : flightEnd (t₄.flight.phase i) = some (.received l) := by
    show flightEnd (s₄.phase i) = _
    rw [hled]
    rfl
  have hland : (machine cfg).step t₄ (.land i) = some t₅ := step_land hi hphase
  refine ⟨t₅, l, ?_, Function.update_self .., rfl, rfl, rfl⟩
  rw [flightLabels, Machine.run_cons_some _ henter, Machine.run_cons_some _ hlooked, Machine.run_cons_some _ hsend,
    Machine.run_cons_some _ hremove, Machine.run_cons_some _ hland]
  rfl

end Flying

/-- From `s` the machine can go on until the call has answered, with these writes to the cache and these fan-outs. -/
def Plays (s : State cfg) (i : CallId) (c : Call) (result : Except Text ResolveResult)
    (writes : List (Text × Option Entry)) (fanouts : List (Fanout cfg.maxFanout)) : Prop :=
  ∃ ls t a, (machine cfg).run s ls = some t ∧ t.stage i = .answered c a ∧ a.result c = result ∧
    t.cache = write s.cache writes ∧ ls.filterMap Label.fanout = fanouts

section Plays
variable {s t : State cfg} {i : CallId} {c : Call} {result : Except Text ResolveResult}
  {writes : List (Text × Option Entry)} {fanouts : List (Fanout cfg.maxFanout)}

theorem plays_answered {a : Source cfg} (hi : s.stage i = .answered c a) : Plays s i c (a.result c) [] [] :=
  ⟨[], s, a, rfl, hi, rfl, rfl, rfl⟩

theorem Plays.after {ls : List (Label cfg)} (before : List (Text × Option Entry))
    (h : Plays t i c result writes fanouts) (hrun : (machine cfg).run s ls = some t)
    (hcache : t.cache = write s.cache before) :
    Plays s i c result (before ++ writes) (ls.filterMap Label.fanout ++ fanouts) := by
  obtain ⟨ms, u, a, hms, hstage, hresult, hu, hfanouts⟩ := h
  refine ⟨ls ++ ms, u, a, ?_, hstage, hresult, ?_, ?_⟩
  · rw [Machine.run_append, hrun]
    exact hms
  · rw [hu, hcache, write, write, write, List.foldl_append]
  · rw [List.filterMap_append, hfanouts]

theorem Plays.step {l : Label cfg} (before : List (Text × Option Entry)) (h : Plays t i c result writes fanouts)
    (hstep : step s l = some t) (hl : l.fanout = none) (hcache : t.cache = write s.cache before) :
    Plays s i c result (before ++ writes) fanouts := by
  have hrun : (machine cfg).run s [l] = some t := Machine.run_cons_some _ hstep []
  have h := h.after before hrun hcache
  rwa [List.filterMap_cons_none hl] at h

theorem plays_settle (w : World cfg) {l : Lookup cfg} (hi : s.stage i = afterFlight l.call (.received l)) :
    Plays s i l.call l.result (w.settle l.call l.result) [] := by
  let a : Source cfg := .flight (.received l)
  show Plays s i l.call (a.result l.call) _ []
  cases hr : l.result with
  | error e =>
      simp only [afterFlight, hr] at hi
      by_cases hmiss : isAllProjectsNon200 e = true
      · rw [if_pos hmiss] at hi
        let t : State cfg := ((s.update l.call.key (some (entryOf cfg w.stored (.error e)))
          l.observed).setStage i (.answered l.call a)).advance
        have hstep : step s (.store i w.stored) = some t := by
          simp only [step, move, hi, hr, Option.map_some, t, a]
        have ht : t.stage i = .answered l.call a := Function.update_self ..
        simp only [World.settle, if_pos hmiss]
        exact (plays_answered ht).step [_] hstep rfl rfl
      · rw [if_neg hmiss] at hi
        simp only [World.settle, if_neg hmiss]
        exact plays_answered hi
  | ok r =>
      simp only [afterFlight, hr] at hi
      let t : State cfg := ((s.update l.call.key (some (entryOf cfg w.stored (.ok r)))
        l.observed).setStage i (.storingImage l.call l)).advance
      let u : State cfg := ((t.setEntry (imageKey l.call.image) (some ⟨r.project, none⟩)).setStage i
        (.answered l.call a)).advance
      have ht : t.stage i = .storingImage l.call l := Function.update_self ..
      have hu : u.stage i = .answered l.call a := Function.update_self ..
      have hstore : step s (.store i w.stored) = some t := by
        simp only [step, move, hi, hr, Option.map_some, t]
      have himage : step t (.storeImage i) = some u := by
        simp only [step, move, ht, hr, Option.map_some, u, a]
      exact ((plays_answered hu).step [(imageKey l.call.image, some ⟨r.project, none⟩)] himage rfl rfl).step
        [(l.call.key, some (entryOf cfg w.stored (.ok r)))] hstore rfl rfl

/-- A call that nobody joins, and that joins nobody, from `singleflight` on. -/
theorem plays_miss (w : World cfg) (hw : w.joined = none) (hi : s.stage i = .flying c)
    (hout : s.flight.phase i = .outside) (hnone : s.flight.flights c.key = none) :
    Plays s i c (w.miss c).result (w.miss c).writes (w.miss c).fanouts := by
  obtain ⟨t, l, hrun, ht, hcache, rfl, hl⟩ := run_flight w.fanout hi hout hnone
  have hresult : l.result = w.flown l.call := by
    unfold World.flown Lookup.result
    rw [hw, hl]
  have hfanouts : (w.miss l.call).fanouts = [w.fanout] := by
    unfold World.miss
    rw [hw]
  have h := (plays_settle w ht).after [] hrun hcache
  rw [hresult] at h
  rw [hfanouts]
  exact h

theorem run_refresh {j : TaskId} (w : World cfg) (hj : s.task j = .looking c) :
    ∃ ls t, (machine cfg).run s ls = some t ∧ t.stage = s.stage ∧ t.cache = write s.cache (w.refreshWrites c) ∧
      ls.filterMap Label.fanout = [w.refresh] := by
  let l : Lookup cfg := ⟨c, w.refresh, s.tick⟩
  cases hr : l.result with
  | error e =>
      let t : State cfg := ((s.serve c.image (servers c w.refresh)).setTask j .done).advance
      have hstep : (machine cfg).step s (.refreshed j w.refresh) = some t := by
        simp only [machine, step, move, hj, hr, Option.map_some, t, l]
      have hwrites : w.refreshWrites c = [] := by
        unfold World.refreshWrites
        rw [show w.refresh.parallelLookup c.image c.reference c.accept = .error e from hr]
      rw [hwrites]
      exact ⟨[.refreshed j w.refresh], t, Machine.run_cons_some _ hstep [], rfl, rfl, rfl⟩
  | ok r =>
      let t₁ : State cfg := ((s.serve c.image (servers c w.refresh)).setTask j (.storing c l)).advance
      let t₂ : State cfg := ((t₁.update c.key (some ⟨encodeCacheValue r.project w.refreshed,
        some (cfg.cacheTtl + cfg.staleWhileRevalidate)⟩) l.observed).setTask j (.storingImage c l)).advance
      let t₃ : State cfg := ((t₂.setEntry (imageKey c.image) (some ⟨r.project, none⟩)).setTask j .done).advance
      have h₁ : t₁.task j = .storing c l := Function.update_self ..
      have h₂ : t₂.task j = .storingImage c l := Function.update_self ..
      have hlooked : (machine cfg).step s (.refreshed j w.refresh) = some t₁ := by
        simp only [machine, step, move, hj, hr, Option.map_some, t₁, l]
      have hstore : (machine cfg).step t₁ (.refreshStore j w.refreshed) = some t₂ := by
        simp only [machine, step, move, h₁, hr, Option.map_some, t₂]
      have himage : (machine cfg).step t₂ (.refreshStoreImage j) = some t₃ := by
        simp only [machine, step, move, h₂, hr, Option.map_some, t₃]
      have hwrites : w.refreshWrites c = [(c.key, some ⟨encodeCacheValue r.project w.refreshed,
          some (cfg.cacheTtl + cfg.staleWhileRevalidate)⟩), (imageKey c.image, some ⟨r.project, none⟩)] := by
        unfold World.refreshWrites
        rw [show w.refresh.parallelLookup c.image c.reference c.accept = .ok r from hr]
      rw [hwrites]
      refine ⟨[.refreshed j w.refresh, .refreshStore j w.refreshed, .refreshStoreImage j], t₃, ?_, rfl, rfl, rfl⟩
      rw [Machine.run_cons_some _ hlooked, Machine.run_cons_some _ hstore, Machine.run_cons_some _ himage]
      rfl

theorem plays_hit (w : World cfg) {project : Text} {stale : Bool} {r : ResolveResult} (asked : List Text)
    (hi : s.stage i = .fetching c project stale) (hr : w.answers project r) :
    Plays s i c (w.hit c asked stale r).result (w.hit c asked stale r).writes (w.hit c asked stale r).fanouts := by
  let t : State cfg := (s.serve c.image [project]).setStage i (.answered c (.cached r))
  let u : State cfg := (if stale then t.spawn c else t).advance
  have hfetched : step s (.fetched i (w.reply project)) = some u := by
    simp only [step, move, hi, hr.1, hr.2, if_true, Option.map_some, u, t]
  have ht : t.stage i = .answered c (.cached r) := Function.update_self ..
  cases stale with
  | false =>
      have hu : u.stage i = .answered c (.cached r) := ht
      exact (plays_answered hu).step [] hfetched rfl rfl
  | true =>
      have htask : u.task s.tasks = .looking c := Function.update_self ..
      obtain ⟨ls, v, hrun, hstage, hcache, hfanouts⟩ := run_refresh w htask
      have hv : v.stage i = .answered c (.cached r) := by
        rw [hstage]
        exact ht
      have hplays := (plays_answered hv).after _ hrun hcache
      rw [hfanouts, List.append_nil] at hplays
      exact hplays.step [] hfetched rfl rfl

theorem plays_evict (w : World cfg) (hw : w.joined = none) {project : Text} {stale : Bool} (asked : List Text)
    (hi : s.stage i = .fetching c project stale) (hr : ∀ r, ¬ w.answers project r)
    (hout : s.flight.phase i = .outside) (hnone : s.flight.flights c.key = none) :
    Plays s i c (w.evict c asked).result (w.evict c asked).writes (w.evict c asked).fanouts := by
  let t : State cfg := (s.setStage i (.evicting c s.tick)).advance
  let u : State cfg := ((t.update c.key none s.tick).setStage i (.flying c)).advance
  have hfetched : step s (.fetched i (w.reply project)) = some t := by
    simp only [step, move, hi]
    split
    · rename_i r hok
      rw [if_neg fun h200 => hr r ⟨hok, h200⟩]
      rfl
    · rfl
  have ht : t.stage i = .evicting c s.tick := Function.update_self ..
  have hevict : step t (.evict i) = some u := by
    simp only [step, move, ht, Option.map_some, u]
  have hu : u.stage i = .flying c := Function.update_self ..
  exact ((plays_miss w hw hu hout hnone).step [(c.key, none)] hevict rfl rfl).step [] hfetched rfl rfl

/-- A call that has its key to itself goes in the machine as it does on its own, with the same answer, the same writes
and the same fan-outs. -/
theorem run_alone (w : World cfg) (hw : w.joined = none) (hi : s.stage i = .absent)
    (hout : s.flight.phase i = .outside) (hnone : s.flight.flights c.key = none) :
    Plays s i c (w.resolveManifest s.cache c).result (w.resolveManifest s.cache c).writes
      (w.resolveManifest s.cache c).fanouts := by
  let t : State cfg := (s.setStage i (.reading c)).advance
  let u : State cfg := (t.setStage i (afterGet c w.now (s.cache c.key))).advance
  have hcall : step s (.call i c) = some t := by
    simp only [step, move, hi, Option.map_some, t]
  have ht : t.stage i = .reading c := Function.update_self ..
  have hget : step t (.get i w.now) = some u := by
    simp only [step, move, ht, Option.map_some, u]
    rfl
  have hu : u.stage i = afterGet c w.now (s.cache c.key) := Function.update_self ..
  suffices h : Plays u i c (w.resolveManifest s.cache c).result (w.resolveManifest s.cache c).writes
      (w.resolveManifest s.cache c).fanouts from (h.step [] hget rfl rfl).step [] hcall rfl rfl
  have hgoes := resolveManifest_cases w s.cache c
  generalize w.resolveManifest s.cache c = trace at hgoes ⊢
  cases hgoes with
  | missed he =>
      rw [he] at hu
      exact plays_miss w hw hu hout hnone
  | negative entry he hs =>
      rw [he, afterGet_some, if_pos hs] at hu
      exact plays_answered hu
  | hit entry project r he hp hs hr =>
      subst hp
      rw [he, afterGet_some, if_neg hs] at hu
      exact plays_hit w _ hu hr
  | evicted entry project he hp hs hr =>
      subst hp
      rw [he, afterGet_some, if_neg hs] at hu
      exact plays_evict w hw _ hu hr hout hnone

end Plays

end HarborRouter.Manifest
