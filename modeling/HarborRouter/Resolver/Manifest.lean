import HarborRouter.Resolver.CacheKey
import HarborRouter.Resolver.CacheValue
import HarborRouter.Resolver.Outcomes
import HarborRouter.Resolver.ParallelLookup

/-!
# `resolve_manifest`, one await at a time

The calls of `resolve_manifest` and the background refreshes they spawn, over one cache and one `singleflight`
machine. A step of a call is what it does between two awaits; what the outside world answers (replies, fan-outs,
clock readings) is in the label. Cache entries may also expire.

`State` carries three history variables that no step reads: `tick` counts the steps, `served` lists the projects
that answered 200 for an image, and `updates` lists the updates of manifest entries that took effect, each with
the tick at which the upstream observation it derives from was made.
-/

namespace HarborRouter
open Lib Text

/-- The resolver's settings; durations are in milliseconds. -/
structure Config where
  maxFanout : Nat
  retryMaxAttempts : Nat
  cacheTtl : Nat
  staleWhileRevalidate : Nat
  negativeCacheTtl : Nat

/-- The settings of an environment that sets none. -/
def Config.default : Config where
  maxFanout := 50
  retryMaxAttempts := 2
  cacheTtl := 300000
  staleWhileRevalidate := 60000
  negativeCacheTtl := 30000

namespace Manifest

/-- A cache entry; without a `ttl` the cache's default applies. -/
structure Entry where
  value : Text
  ttl : Option Nat
  deriving DecidableEq

abbrev Cache := Text → Option Entry

structure Call where
  image : Text
  reference : Text
  accept : List Text
  deriving DecidableEq

def Call.key (c : Call) : Text := cacheKey c.image c.reference

variable {cfg : Config}

/-- A fan-out, the call it was run for, and the tick at which it returned. -/
structure Lookup (cfg : Config) where
  call : Call
  fanout : Fanout cfg.maxFanout
  observed : Nat

def Lookup.result (l : Lookup cfg) : Except Text ResolveResult :=
  l.fanout.parallelLookup l.call.image l.call.reference l.call.accept

def outcome : Singleflight.FlightEnd (Lookup cfg) → Except Text ResolveResult
  | .received l => l.result
  | .timedOut => .error "singleflight: follower timed out waiting for leader".toList
  | .leaderDropped => .error "singleflight: leader dropped channel".toList
  | .emptyResult => .error "singleflight: leader sent empty result".toList

inductive Source (cfg : Config)
  | negative
  | cached (r : ResolveResult)
  | flight (e : Singleflight.FlightEnd (Lookup cfg))

def Source.result (c : Call) : Source cfg → Except Text ResolveResult
  | .negative => .error (notFound c.image c.reference)
  | .cached r => .ok r
  | .flight e => outcome e

inductive Stage (cfg : Config)
  | absent
  /-- about to read the cache -/
  | reading (c : Call)
  /-- awaits the manifest from the cached project -/
  | fetching (c : Call) (project : Text) (stale : Bool)
  /-- about to evict the entry, for what was observed at `observed` -/
  | evicting (c : Call) (observed : Nat)
  /-- in `singleflight` -/
  | flying (c : Call)
  /-- about to write the manifest entry -/
  | storing (c : Call) (l : Lookup cfg)
  /-- about to write the image entry -/
  | storingImage (c : Call) (l : Lookup cfg)
  | answered (c : Call) (a : Source cfg)
  | cancelled

/-- The call awaits the cache or an upstream, outside `singleflight`. -/
def Stage.awaits : Stage cfg → Bool
  | .reading _ | .fetching .. | .evicting .. | .storing .. | .storingImage .. => true
  | _ => false

inductive Task (cfg : Config)
  | absent
  | looking (c : Call)
  | storing (c : Call) (l : Lookup cfg)
  | storingImage (c : Call) (l : Lookup cfg)
  | done

abbrev TaskId := Nat

/-- An update of the entry `key`, from an observation made at tick `observed`. -/
structure Update where
  key : Text
  observed : Nat
  deriving DecidableEq

structure State (cfg : Config) where
  flight : Singleflight.State Text (Lookup cfg)
  cache : Cache
  stage : CallId → Stage cfg
  task : TaskId → Task cfg
  tasks : TaskId
  tick : Nat
  served : List (Text × Text)
  updates : List Update

def init : State cfg where
  flight := Singleflight.init
  cache _ := none
  stage _ := .absent
  task _ := .absent
  tasks := 0
  tick := 0
  served := []
  updates := []

inductive Label (cfg : Config)
  | call (i : CallId) (c : Call)
  | get (i : CallId) (now : Nat)
  | fetched (i : CallId) (reply : Nat → Reply)
  | evict (i : CallId)
  | enter (i : CallId)
  | looked (i : CallId) (f : Fanout cfg.maxFanout)
  | fly (i : CallId) (a : Singleflight.Action Text (Lookup cfg))
  | land (i : CallId)
  | store (i : CallId) (now : Nat)
  | storeImage (i : CallId)
  | drop (i : CallId)
  | refreshed (j : TaskId) (f : Fanout cfg.maxFanout)
  | refreshStore (j : TaskId) (now : Nat)
  | refreshStoreImage (j : TaskId)
  | expire (key : Text)

namespace State
variable (s : State cfg)

def setStage (i : CallId) (st : Stage cfg) : State cfg := { s with stage := Function.update s.stage i st }

def setTask (j : TaskId) (t : Task cfg) : State cfg := { s with task := Function.update s.task j t }

def setFlight (fl : Singleflight.State Text (Lookup cfg)) : State cfg := { s with flight := fl }

def update (key : Text) (entry : Option Entry) (observed : Nat) : State cfg :=
  { s with cache := Function.update s.cache key entry, updates := s.updates ++ [⟨key, observed⟩] }

def setEntry (key : Text) (entry : Option Entry) : State cfg :=
  { s with cache := Function.update s.cache key entry }

def serve (image : Text) (projects : List Text) : State cfg :=
  { s with served := s.served ++ projects.map fun p => (p, image) }

/-- `tokio::spawn` of a background refresh. -/
def spawn (c : Call) : State cfg :=
  { s with task := Function.update s.task s.tasks (.looking c), tasks := s.tasks + 1 }

def advance : State cfg := { s with tick := s.tick + 1 }

end State

/-! ## Steps -/

def afterGet (c : Call) (now : Nat) : Option Entry → Stage cfg
  | none => .flying c
  | some entry =>
      let (project, timestamp) :=
        if cfg.staleWhileRevalidate = 0 then (entry.value, none) else decodeCacheValue entry.value
      if project = negativeCacheSentinel then .answered c .negative
      else .fetching c project
        (cfg.staleWhileRevalidate ≠ 0 && timestamp.any fun ts => cfg.cacheTtl / 1000 < now - ts)

/-- What a call does with the outcome of its flight. Only a fan-out ends in a text that is taken for a miss. -/
def afterFlight (c : Call) : Singleflight.FlightEnd (Lookup cfg) → Stage cfg
  | .received l =>
      match l.result with
      | .ok _ => .storing c l
      | .error e => if isAllProjectsNon200 e then .storing c l else .answered c (.flight (.received l))
  | e => .answered c (.flight e)

def entryOf (cfg : Config) (now : Nat) : Except Text ResolveResult → Entry
  | .ok r =>
      if cfg.staleWhileRevalidate = 0 then ⟨r.project, none⟩
      else ⟨encodeCacheValue r.project now, some (cfg.cacheTtl + cfg.staleWhileRevalidate)⟩
  | .error _ => ⟨negativeCacheSentinel, some cfg.negativeCacheTtl⟩

def writeTime (cfg : Config) (now : Nat) : Option Nat := if cfg.staleWhileRevalidate = 0 then none else some now

theorem value_entryOf (now : Nat) (r : ResolveResult) :
    (entryOf cfg now (.ok r)).value = stored r.project (writeTime cfg now) := by
  by_cases h : cfg.staleWhileRevalidate = 0
  · simp only [entryOf, writeTime, if_pos h, stored]
  · simp only [entryOf, writeTime, if_neg h, stored]

def flightEnd {K R : Type} : Singleflight.Phase K R → Option (Singleflight.FlightEnd R)
  | .led _ _ r => some (.received r)
  | .followed _ _ e => some e
  | _ => none

/-- The steps of `singleflight` after `enter`, other than the end of the lookup and a drop. -/
def inner {K R : Type} : Singleflight.Action K R → Bool
  | .send | .remove | .subscribe | .borrow | .wake | .close | .time | .read => true
  | _ => false

/-- The projects that answered 200 in a lookup for the call. -/
def servers (c : Call) (f : Fanout cfg.maxFanout) : List Text :=
  ((f.ended c.accept).filter Completion.found).map Completion.project

/-- A step, but for the tick. -/
def move (s : State cfg) : Label cfg → Option (State cfg)
  | .call i c =>
      match s.stage i with
      | .absent => some (s.setStage i (.reading c))
      | _ => none
  | .get i now =>
      match s.stage i with
      | .reading c => some (s.setStage i (afterGet c now (s.cache c.key)))
      | _ => none
  | .fetched i reply =>
      match s.stage i with
      | .fetching c project stale =>
          match fetchManifestWithRetry cfg.retryMaxAttempts project reply with
          | .ok r =>
              if r.status = 200 then
                let t := (s.serve c.image [project]).setStage i (.answered c (.cached r))
                some (if stale then t.spawn c else t)
              else some (s.setStage i (.evicting c s.tick))
          | .error _ => some (s.setStage i (.evicting c s.tick))
      | _ => none
  | .evict i =>
      match s.stage i with
      | .evicting c observed => some ((s.update c.key none observed).setStage i (.flying c))
      | _ => none
  | .enter i =>
      match s.stage i with
      | .flying c => (Singleflight.step s.flight ⟨i, .enter c.key⟩).map s.setFlight
      | _ => none
  | .looked i f =>
      match s.stage i with
      | .flying c =>
          (Singleflight.step s.flight ⟨i, .looked ⟨c, f, s.tick⟩⟩).map fun fl =>
            (s.setFlight fl).serve c.image (servers c f)
      | _ => none
  | .fly i a =>
      match s.stage i with
      | .flying _ => if inner a then (Singleflight.step s.flight ⟨i, a⟩).map s.setFlight else none
      | _ => none
  | .land i =>
      match s.stage i, flightEnd (s.flight.phase i) with
      | .flying c, some e => some (s.setStage i (afterFlight c e))
      | _, _ => none
  | .store i now =>
      match s.stage i with
      | .storing c l =>
          some ((s.update c.key (some (entryOf cfg now l.result)) l.observed).setStage i
            (match l.result with
              | .ok _ => .storingImage c l
              | .error _ => .answered c (.flight (.received l))))
      | _ => none
  | .storeImage i =>
      match s.stage i with
      | .storingImage c l =>
          match l.result with
          | .ok r =>
              some ((s.setEntry (imageKey c.image) (some ⟨r.project, none⟩)).setStage i
                (.answered c (.flight (.received l))))
          | .error _ => none
      | _ => none
  | .drop i =>
      match s.stage i with
      | .flying _ => (Singleflight.step s.flight ⟨i, .drop⟩).map fun fl => (s.setFlight fl).setStage i .cancelled
      | st => if st.awaits then some (s.setStage i .cancelled) else none
  | .refreshed j f =>
      match s.task j with
      | .looking c =>
          let l : Lookup cfg := ⟨c, f, s.tick⟩
          some ((s.serve c.image (servers c f)).setTask j
            (match l.result with
              | .ok _ => .storing c l
              | .error _ => .done))
      | _ => none
  | .refreshStore j now =>
      match s.task j with
      | .storing c l =>
          match l.result with
          | .ok r =>
              some ((s.update c.key (some ⟨encodeCacheValue r.project now,
                some (cfg.cacheTtl + cfg.staleWhileRevalidate)⟩) l.observed).setTask j (.storingImage c l))
          | .error _ => none
      | _ => none
  | .refreshStoreImage j =>
      match s.task j with
      | .storingImage c l =>
          match l.result with
          | .ok r => some ((s.setEntry (imageKey c.image) (some ⟨r.project, none⟩)).setTask j .done)
          | .error _ => none
      | _ => none
  | .expire key => some (s.setEntry key none)

def step (s : State cfg) (l : Label cfg) : Option (State cfg) := (move s l).map State.advance

/-- The calls of `resolve_manifest` and the background refreshes, interleaved. -/
def machine (cfg : Config) : Machine (State cfg) (Label cfg) := ⟨init, step⟩

/-! ## The steps, one by one -/

inductive Moved (s : State cfg) : Label cfg → State cfg → Prop
  | call (i : CallId) (c : Call) (hs : s.stage i = .absent) : Moved s (.call i c) (s.setStage i (.reading c))
  | get (i : CallId) (now : Nat) (c : Call) (hs : s.stage i = .reading c) :
      Moved s (.get i now) (s.setStage i (afterGet c now (s.cache c.key)))
  | served (i : CallId) (reply : Nat → Reply) (c : Call) (project : Text) (stale : Bool) (r : ResolveResult)
      (hs : s.stage i = .fetching c project stale)
      (hr : fetchManifestWithRetry cfg.retryMaxAttempts project reply = .ok r) (h200 : r.status = 200)
      (t : State cfg) (ht : t = (s.serve c.image [project]).setStage i (.answered c (.cached r))) :
      Moved s (.fetched i reply) (if stale then t.spawn c else t)
  | outdated (i : CallId) (reply : Nat → Reply) (c : Call) (project : Text) (stale : Bool)
      (hs : s.stage i = .fetching c project stale) : Moved s (.fetched i reply) (s.setStage i (.evicting c s.tick))
  | evict (i : CallId) (c : Call) (observed : Nat) (hs : s.stage i = .evicting c observed) :
      Moved s (.evict i) ((s.update c.key none observed).setStage i (.flying c))
  | enter (i : CallId) (c : Call) (fl : Singleflight.State Text (Lookup cfg)) (hs : s.stage i = .flying c)
      (hf : Singleflight.step s.flight ⟨i, .enter c.key⟩ = some fl) : Moved s (.enter i) (s.setFlight fl)
  | looked (i : CallId) (f : Fanout cfg.maxFanout) (c : Call) (fl : Singleflight.State Text (Lookup cfg))
      (hs : s.stage i = .flying c) (hf : Singleflight.step s.flight ⟨i, .looked ⟨c, f, s.tick⟩⟩ = some fl) :
      Moved s (.looked i f) ((s.setFlight fl).serve c.image (servers c f))
  | fly (i : CallId) (a : Singleflight.Action Text (Lookup cfg)) (c : Call)
      (fl : Singleflight.State Text (Lookup cfg)) (hs : s.stage i = .flying c) (ha : inner a = true)
      (hf : Singleflight.step s.flight ⟨i, a⟩ = some fl) : Moved s (.fly i a) (s.setFlight fl)
  | land (i : CallId) (c : Call) (e : Singleflight.FlightEnd (Lookup cfg)) (hs : s.stage i = .flying c)
      (he : flightEnd (s.flight.phase i) = some e) : Moved s (.land i) (s.setStage i (afterFlight c e))
  | store (i : CallId) (now : Nat) (c : Call) (l : Lookup cfg) (st : Stage cfg) (hs : s.stage i = .storing c l)
      (hst : st = .storingImage c l ∨ st = .answered c (.flight (.received l))) :
      Moved s (.store i now) ((s.update c.key (some (entryOf cfg now l.result)) l.observed).setStage i st)
  | storeImage (i : CallId) (c : Call) (l : Lookup cfg) (r : ResolveResult) (hs : s.stage i = .storingImage c l)
      (hr : l.result = .ok r) : Moved s (.storeImage i)
        ((s.setEntry (imageKey c.image) (some ⟨r.project, none⟩)).setStage i (.answered c (.flight (.received l))))
  | drop (i : CallId) (hs : (s.stage i).awaits = true) : Moved s (.drop i) (s.setStage i .cancelled)
  | dropFlight (i : CallId) (c : Call) (fl : Singleflight.State Text (Lookup cfg)) (hs : s.stage i = .flying c)
      (hf : Singleflight.step s.flight ⟨i, .drop⟩ = some fl) :
      Moved s (.drop i) ((s.setFlight fl).setStage i .cancelled)
  | refreshed (j : TaskId) (f : Fanout cfg.maxFanout) (c : Call) (t : Task cfg) (hs : s.task j = .looking c)
      (ht : t = .storing c ⟨c, f, s.tick⟩ ∨ t = .done) :
      Moved s (.refreshed j f) ((s.serve c.image (servers c f)).setTask j t)
  | refreshStore (j : TaskId) (now : Nat) (c : Call) (l : Lookup cfg) (r : ResolveResult)
      (hs : s.task j = .storing c l) (hr : l.result = .ok r) : Moved s (.refreshStore j now)
        ((s.update c.key (some ⟨encodeCacheValue r.project now,
          some (cfg.cacheTtl + cfg.staleWhileRevalidate)⟩) l.observed).setTask j (.storingImage c l))
  | refreshStoreImage (j : TaskId) (c : Call) (l : Lookup cfg) (r : ResolveResult)
      (hs : s.task j = .storingImage c l) (hr : l.result = .ok r) : Moved s (.refreshStoreImage j)
        ((s.setEntry (imageKey c.image) (some ⟨r.project, none⟩)).setTask j .done)
  | expire (key : Text) : Moved s (.expire key) (s.setEntry key none)

theorem moved_of_move {s u : State cfg} {l : Label cfg} (h : move s l = some u) : Moved s l u := by
  cases l with
  | call i c =>
      rw [move] at h
      split at h <;> cases h
      exact .call _ _ ‹_›
  | get i now =>
      rw [move] at h
      split at h <;> cases h
      exact .get _ _ _ ‹_›
  | fetched i reply =>
      rw [move] at h
      split at h
      · split at h
        · split at h <;> cases h
          · exact .served _ _ _ _ _ _ ‹_› ‹_› ‹_› _ rfl
          · exact .outdated _ _ _ _ _ ‹_›
        · cases h
          exact .outdated _ _ _ _ _ ‹_›
      · cases h
  | evict i =>
      rw [move] at h
      split at h <;> cases h
      exact .evict _ _ _ ‹_›
  | enter i =>
      rw [move] at h
      split at h
      · obtain ⟨fl, hf, rfl⟩ := Option.map_eq_some_iff.mp h
        exact .enter _ _ _ ‹_› hf
      · cases h
  | looked i f =>
      rw [move] at h
      split at h
      · obtain ⟨fl, hf, rfl⟩ := Option.map_eq_some_iff.mp h
        exact .looked _ _ _ _ ‹_› hf
      · cases h
  | fly i a =>
      rw [move] at h
      split at h
      · split at h
        · obtain ⟨fl, hf, rfl⟩ := Option.map_eq_some_iff.mp h
          exact .fly _ _ _ _ ‹_› ‹_› hf
        · cases h
      · cases h
  | land i =>
      rw [move] at h
      split at h <;> cases h
      exact .land _ _ _ ‹_› ‹_›
  | store i now =>
      rw [move] at h
      split at h <;> cases h
      refine .store _ _ _ _ _ ‹_› ?_
      split
      · exact .inl rfl
      · exact .inr rfl
  | storeImage i =>
      rw [move] at h
      split at h
      · split at h <;> cases h
        exact .storeImage _ _ _ _ ‹_› ‹_›
      · cases h
  | drop i =>
      rw [move] at h
      split at h
      · obtain ⟨fl, hf, rfl⟩ := Option.map_eq_some_iff.mp h
        exact .dropFlight _ _ _ ‹_› hf
      · split at h <;> cases h
        exact .drop _ ‹_›
  | refreshed j f =>
      rw [move] at h
      split at h <;> cases h
      refine .refreshed _ _ _ _ ‹_› ?_
      split
      · exact .inl rfl
      · exact .inr rfl
  | refreshStore j now =>
      rw [move] at h
      split at h
      · split at h <;> cases h
        exact .refreshStore _ _ _ _ _ ‹_› ‹_›
      · cases h
  | refreshStoreImage j =>
      rw [move] at h
      split at h
      · split at h <;> cases h
        exact .refreshStoreImage _ _ _ _ ‹_› ‹_›
      · cases h
  | expire key =>
      cases h
      exact .expire key

theorem step_cases {s t : State cfg} {l : Label cfg} (h : step s l = some t) :
    ∃ u, Moved s l u ∧ t = u.advance := by
  obtain ⟨u, hu, rfl⟩ := Option.map_eq_some_iff.mp h
  exact ⟨u, moved_of_move hu, rfl⟩

/-! ## What is written to the cache -/

def writes (s : State cfg) : Label cfg → Option (Text × Text)
  | .store i now =>
      match s.stage i with
      | .storing c l => some (c.key, (entryOf cfg now l.result).value)
      | _ => none
  | .storeImage i =>
      match s.stage i with
      | .storingImage c l => l.result.toOption.map fun r => (imageKey c.image, r.project)
      | _ => none
  | .refreshStore j now =>
      match s.task j with
      | .storing c l => l.result.toOption.map fun r => (c.key, encodeCacheValue r.project now)
      | _ => none
  | .refreshStoreImage j =>
      match s.task j with
      | .storingImage c l => l.result.toOption.map fun r => (imageKey c.image, r.project)
      | _ => none
  | _ => none

/-- A step leaves the cache alone, removes an entry, or writes one. -/
theorem cache_step {s t : State cfg} {l : Label cfg} (h : step s l = some t) :
    (writes s l = none ∧ (t.cache = s.cache ∨ ∃ key, t.cache = Function.update s.cache key none)) ∨
      ∃ key value ttl, writes s l = some (key, value) ∧ t.cache = Function.update s.cache key (some ⟨value, ttl⟩) := by
  obtain ⟨u, hu, rfl⟩ := step_cases h
  cases hu with
  | store i now c l st hi hst => exact .inr ⟨_, (entryOf cfg now l.result).value, _, by simp only [writes, hi], rfl⟩
  | storeImage i c l r hi hr => exact .inr ⟨_, _, _, by simp only [writes, hi, hr]; rfl, rfl⟩
  | refreshStore j now c l r hj hr => exact .inr ⟨_, _, _, by simp only [writes, hj, hr]; rfl, rfl⟩
  | refreshStoreImage j c l r hj hr => exact .inr ⟨_, _, _, by simp only [writes, hj, hr]; rfl, rfl⟩
  | evict i c observed hi => exact .inl ⟨rfl, .inr ⟨_, rfl⟩⟩
  | expire key => exact .inl ⟨rfl, .inr ⟨_, rfl⟩⟩
  | served i reply c project stale r hi hr h200 t ht =>
      subst ht
      cases stale <;> exact .inl ⟨rfl, .inl rfl⟩
  | _ => exact .inl ⟨rfl, .inl rfl⟩

/-! ## The calls of `singleflight` inside -/

def flightLabel (s : State cfg) : Label cfg → Option (Singleflight.Label Text (Lookup cfg))
  | .enter i =>
      match s.stage i with
      | .flying c => some ⟨i, .enter c.key⟩
      | _ => none
  | .looked i f =>
      match s.stage i with
      | .flying c => some ⟨i, .looked ⟨c, f, s.tick⟩⟩
      | _ => none
  | .fly i a => if inner a then some ⟨i, a⟩ else none
  | .drop i =>
      match s.stage i with
      | .flying _ => some ⟨i, .drop⟩
      | _ => none
  | _ => none

theorem moved_flight {s u : State cfg} {l : Label cfg} (h : Moved s l u) :
    (flightLabel s l = none ∧ u.flight = s.flight) ∨
      ∃ l', flightLabel s l = some l' ∧ Singleflight.step s.flight l' = some u.flight := by
  cases h with
  | enter i c fl hs hf => exact .inr ⟨_, by simp only [flightLabel, hs], hf⟩
  | looked i f c fl hs hf => exact .inr ⟨_, by simp only [flightLabel, hs], hf⟩
  | fly i a c fl hs ha hf => exact .inr ⟨_, if_pos ha, hf⟩
  | dropFlight i c fl hs hf => exact .inr ⟨_, by simp only [flightLabel, hs], hf⟩
  | drop i hs =>
      refine .inl ⟨?_, rfl⟩
      rw [flightLabel]
      split
      · rename_i hfly
        rw [hfly] at hs
        cases hs
      · rfl
  | served i reply c project stale r hs hr h200 t ht =>
      subst ht
      refine .inl ⟨rfl, ?_⟩
      split <;> rfl
  | _ => exact .inl ⟨rfl, rfl⟩

/-- `singleflight` inside `resolve_manifest`. -/
def flights : (machine cfg).Projection (Singleflight.machine Text (Lookup cfg)) where
  state := State.flight
  label := flightLabel
  init := rfl
  stay s l t ht hl := by
    obtain ⟨u, hu, rfl⟩ := step_cases ht
    rcases moved_flight hu with ⟨-, h⟩ | ⟨l', hl', -⟩
    · exact h
    · rw [hl] at hl'; cases hl'
  move s l t l' ht hl := by
    obtain ⟨u, hu, rfl⟩ := step_cases ht
    rcases moved_flight hu with ⟨hnone, -⟩ | ⟨m, hm, h⟩
    · rw [hl] at hnone; cases hnone
    · rw [hl] at hm; cases hm; exact h

/-- `cached_project`: the project of the manifest entry, else that of the image entry. -/
def cachedProject (cache : Cache) (image reference : Text) : Option Text :=
  match cache (cacheKey image reference) with
  | some entry => some (decodeCacheValue entry.value).1
  | none => (cache (imageKey image)).map Entry.value

/-- A fan-out over one project, which answers with the status at once. -/
def oneProject (status : Nat) : Fanout Config.default.maxFanout where
  discovered := ["a".toList]
  breaker := CircuitBreaker.new 5 30
  now := 100
  completions := [⟨"a".toList, .reply (.response status [] []), 0⟩]
  safe := by decide
  complete := .refl _
  sorted := List.pairwise_singleton ..

/-- A leader and its follower, a hit on the stale entry that they stored with the refresh of it, and its expiry. -/
def sharedThenStale : List (Label .default) :=
  let c : Call := ⟨"library/nginx".toList, "latest".toList, []⟩
  [.call 0 c, .get 0 0, .enter 0, .call 1 c, .get 1 0, .enter 1, .fly 1 .subscribe, .fly 1 .borrow,
    .looked 0 (oneProject 200), .fly 0 .send, .fly 0 .remove, .fly 1 .wake, .fly 1 .read, .land 0, .land 1, .store 0 0,
    .storeImage 0, .store 1 0, .storeImage 1, .call 2 c, .get 2 320, .fetched 2 fun _ => .response 200 [] [],
    .refreshed 0 (oneProject 200), .refreshStore 0 320, .refreshStoreImage 0, .expire c.key]

theorem twoProjects_safe : ∀ p ∈ ["a".toList, "b".toList], isSafeProjectName p = true := by decide

end Manifest
end HarborRouter
