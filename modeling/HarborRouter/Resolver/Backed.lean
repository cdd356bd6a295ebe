import HarborRouter.Cache.Genuine
import HarborRouter.Fleet.ControlEntries
import HarborRouter.Resolver.NegativeCache

/-!
# The resolver over its cache backend

The calls of `resolve_manifest` and their refreshes over a cache backend with a clock, where the machine of the calls
has entries that may expire at any time. What a call reads is what `get` answers; what a step writes is asked of the
backend with the lifetime that the source gives it.

* `Backing` : a backend that makes nothing up, built with the settings of the resolver;
* `Carried` : what is true of every lookup is true of whatever is about to be written;
* `negative_recent`, `routed_recent` : whether a call is answered from the cache or sent to a project, a lookup for its
  key came to that, not longer ago than the backend keeps its entry.
-/

namespace HarborRouter.Backed
open Lib Text Manifest

/-- Milliseconds, in the unit of the backends. -/
def millis (d : Nat) : Nat := d * 1000000

/-! ## The machine -/

structure State (cfg : Config) (S : Type) where
  /-- The cache inside is that of the last step; every step is taken with the backend in its place. -/
  calls : Manifest.State cfg
  backend : CacheBackend.State S
  /-- The lookups that have ended, and when. -/
  ended : List (Lookup cfg × Nat)
  /-- What has been put into the backend. -/
  puts : List (Text × Put)

inductive Label (cfg : Config) (C : Type)
  | act (l : Manifest.Label cfg) (c : C)
  | wait (d : Nat)
  | evict (key : Text)

section Machine
variable {cfg : Config} {S C : Type} (B : CacheBackend S Put C)

def visible (b : CacheBackend.State S) (c : C) : Cache := fun key =>
  (B.get b.cache b.now key c).map fun put => ⟨put.value, none⟩

def asked (c : C) (w : Fleet.CacheWrite) : CacheBackend.Label C :=
  match w.value with
  | none => .delete w.key c
  | some ⟨value, none⟩ => .set w.key value c
  | some ⟨value, some ttl⟩ => .setWithTtl w.key value (millis ttl) c

/-- The lifetime that a write asks for. -/
def lifetime (cfg : Config) (entry : Entry) : Nat := (entry.ttl.map millis).getD (millis cfg.cacheTtl)

def put (cfg : Config) (now : Nat) (w : Fleet.CacheWrite) : Option (Text × Put) :=
  w.value.map fun entry => (w.key, ⟨entry.value, lifetime cfg entry, now⟩)

def lookedUp (s : Manifest.State cfg) : Manifest.Label cfg → Option (Lookup cfg)
  | .looked i f =>
      match s.stage i with
      | .flying c => some ⟨c, f, s.tick⟩
      | _ => none
  | .refreshed j f =>
      match s.task j with
      | .looking c => some ⟨c, f, s.tick⟩
      | _ => none
  | _ => none

def step (s : State cfg S) : Label cfg C → Option (State cfg S)
  | .act (.expire _) _ => none
  | .act l c =>
      (Manifest.step { s.calls with cache := visible B s.backend c } l).map fun calls =>
        { calls := calls
          backend := (Fleet.written s.calls l).foldl (fun b w => B.step b (asked c w)) s.backend
          ended := s.ended ++ (lookedUp s.calls l).toList.map fun found => (found, s.backend.now)
          puts := s.puts ++ (Fleet.written s.calls l).filterMap (put cfg s.backend.now) }
  | .wait d => some { s with backend := B.step s.backend (.wait d) }
  | .evict key => some { s with backend := B.step s.backend (.evict key) }

def machine (cfg : Config) : Machine (State cfg S) (Label cfg C) :=
  ⟨⟨Manifest.init, B.machine.init, [], []⟩, step B⟩

end Machine

/-- A backend that has the resolver's lifetime for its default, and answers what was put within `limit`. -/
structure Backing (cfg : Config) (S C : Type) where
  backend : CacheBackend S Put C
  ttl : backend.defaultTtl = millis cfg.cacheTtl
  limit : Nat → Nat
  monotone : Monotone limit
  genuine : backend.Genuine limit

def Backing.moka (cfg : Config) : Backing cfg (Store Text Put) Unit :=
  ⟨mokaCache Put (millis cfg.cacheTtl), rfl, fun d => d, monotone_id, MokaCache.genuine _⟩

def Backing.redis (cfg : Config) (keyPrefix : Text) : Backing cfg (Stores Put) Command :=
  ⟨redisCache Put (millis cfg.cacheTtl) keyPrefix, rfl, fun d => max (max d second) (millis cfg.cacheTtl),
    fun _ _ h => max_le_max_right _ (max_le_max_right _ h), RedisCache.genuine _ keyPrefix⟩

def Backing.steadyRedis (cfg : Config) (keyPrefix : Text) : Backing cfg (Stores Put) Unit :=
  ⟨HarborRouter.steadyRedis (millis cfg.cacheTtl) keyPrefix, rfl, fun d => max d second,
    fun _ _ h => max_le_max_right _ h, RedisCache.genuine_steady _ keyPrefix⟩

/-! ## Steps -/

section Steps
variable {cfg : Config} {S C : Type} {B : CacheBackend S Put C} {s t : State cfg S}

inductive Stepped (B : CacheBackend S Put C) (s : State cfg S) : Label cfg C → State cfg S → Prop
  | act (l : Manifest.Label cfg) (c : C) (calls : Manifest.State cfg)
      (hcalls : Manifest.step { s.calls with cache := visible B s.backend c } l = some calls) :
      Stepped B s (.act l c)
        ⟨calls, (Fleet.written s.calls l).foldl (fun b w => B.step b (asked c w)) s.backend,
          s.ended ++ (lookedUp s.calls l).toList.map fun found => (found, s.backend.now),
          s.puts ++ (Fleet.written s.calls l).filterMap (put cfg s.backend.now)⟩
  | wait (d : Nat) : Stepped B s (.wait d) { s with backend := B.step s.backend (.wait d) }
  | evict (key : Text) : Stepped B s (.evict key) { s with backend := B.step s.backend (.evict key) }

theorem step_cases {l : Label cfg C} (h : step B s l = some t) : Stepped B s l t := by
  cases l with
  | act l c =>
      have hmap : (Manifest.step { s.calls with cache := visible B s.backend c } l).map (fun calls =>
          (⟨calls, (Fleet.written s.calls l).foldl (fun b w => B.step b (asked c w)) s.backend,
            s.ended ++ (lookedUp s.calls l).toList.map fun found => (found, s.backend.now),
            s.puts ++ (Fleet.written s.calls l).filterMap (put cfg s.backend.now)⟩ : State cfg S)) = some t := by
        cases l with
        | expire key => cases h
        | _ => exact h
      obtain ⟨calls, hcalls, rfl⟩ := Option.map_eq_some_iff.mp hmap
      exact .act l c calls hcalls
  | wait d =>
      cases h
      exact .wait d
  | evict key =>
      cases h
      exact .evict key

theorem step_asked (httl : B.defaultTtl = millis cfg.cacheTtl) {P : Text → Put → Prop} (b : CacheBackend.State S)
    (c : C) (w : Fleet.CacheWrite) (hP : ∀ p, put cfg b.now w = some p → P p.1 p.2) :
    (B.step b (asked c w)).now = b.now ∧ B.Puts P b (asked c w) := by
  unfold asked
  unfold put at hP
  match hw : w.value with
  | none => exact ⟨rfl, trivial⟩
  | some ⟨value, none⟩ =>
      rw [hw] at hP
      have hput : P w.key ⟨value, millis cfg.cacheTtl, b.now⟩ := hP _ rfl
      rw [← httl] at hput
      exact ⟨rfl, hput⟩
  | some ⟨value, some ttl⟩ =>
      rw [hw] at hP
      exact ⟨rfl, hP _ rfl⟩

/-- The backend has come this far by calls of its own, all of whose puts satisfy `P`. -/
def Fed (B : CacheBackend S Put C) (P : Text → Put → Prop) (b : CacheBackend.State S) : Prop :=
  ∃ ls, B.machine.Guarded (B.Puts P) B.machine.init ls ∧ B.machine.run B.machine.init ls = some b

theorem Fed.step {P : Text → Put → Prop} {b : CacheBackend.State S} (h : Fed B P b) {l : CacheBackend.Label C}
    (hl : B.Puts P b l) : Fed B P (B.step b l) := by
  obtain ⟨ls, hguarded, hrun⟩ := h
  refine ⟨ls ++ [l], hguarded.snoc hrun fun _ _ => hl, ?_⟩
  exact B.machine.run_concat.mpr ⟨b, hrun, rfl⟩

theorem Fed.mono {P P' : Text → Put → Prop} {b : CacheBackend.State S} (h : Fed B P b)
    (hP : ∀ key p, P key p → P' key p) : Fed B P' b := by
  obtain ⟨ls, hguarded, hrun⟩ := h
  refine ⟨ls, hguarded.mono fun s l hl => ?_, hrun⟩
  cases l with
  | set key value c => exact hP _ _ hl
  | setWithTtl key value ttl c => exact hP _ _ hl
  | _ => trivial

/-- The writes of a step take no time. -/
theorem Fed.foldl (httl : B.defaultTtl = millis cfg.cacheTtl) {P : Text → Put → Prop} (c : C) :
    ∀ (ws : List Fleet.CacheWrite) (b : CacheBackend.State S),
      (∀ p ∈ ws.filterMap (put cfg b.now), P p.1 p.2) → Fed B P b →
      (ws.foldl (fun b w => B.step b (asked c w)) b).now = b.now ∧
        Fed B P (ws.foldl (fun b w => B.step b (asked c w)) b)
  | [], b, _, hb => ⟨rfl, hb⟩
  | w :: ws, b, hP, hb => by
      obtain ⟨hnow, hputs⟩ := step_asked (B := B) httl b c w fun p hp =>
        hP p (List.mem_filterMap.mpr ⟨w, List.mem_cons_self, hp⟩)
      have hrest := Fed.foldl httl c ws (B.step b (asked c w))
        (fun p hp => by
          rw [hnow] at hp
          obtain ⟨w', hw', hp⟩ := List.mem_filterMap.mp hp
          exact hP p (List.mem_filterMap.mpr ⟨w', List.mem_cons_of_mem w hw', hp⟩))
        (hb.step hputs)
      rw [hnow] at hrest
      exact hrest

end Steps

/-! ## What is carried from a lookup to a write -/

section Carried
variable {cfg : Config} {Q : Text → Lookup cfg → Prop}

/-- The lookups that flights carry, and those that calls and refreshes hold, satisfy `Q` with their key. -/
structure Carried (Q : Text → Lookup cfg → Prop) (s : Manifest.State cfg) : Prop where
  flight : Singleflight.Carries Q s.flight
  holds : ∀ i c l, (s.stage i).Holds c l → Q c.key l
  task : ∀ j c l, (s.task j).Holds c l → Q c.key l

variable {s t : Manifest.State cfg}

theorem carried_init : Carried Q (Manifest.init : Manifest.State cfg) where
  flight := Singleflight.carries_init
  holds _ _ _ h := h.elim
  task _ _ _ h := h.elim

theorem Carried.mono {Q' : Text → Lookup cfg → Prop} (hQ : ∀ k l, Q k l → Q' k l) (hs : Carried Q s) : Carried Q' s :=
  ⟨hs.flight.mono hQ, fun i c l h => hQ _ l (hs.holds i c l h), fun j c l h => hQ _ l (hs.task j c l h)⟩

theorem Carried.congr (hs : Carried Q s) (hflight : t.flight = s.flight) (hstage : t.stage = s.stage)
    (htask : t.task = s.task) : Carried Q t := by
  refine ⟨?_, ?_, ?_⟩
  · rw [hflight]
    exact hs.flight
  · rw [hstage]
    exact hs.holds
  · rw [htask]
    exact hs.task

theorem Carried.setFlight (hs : Carried Q s) {fl : Singleflight.State Text (Lookup cfg)}
    (h : Singleflight.Carries Q fl) : Carried Q (s.setFlight fl) := ⟨h, hs.holds, hs.task⟩

theorem Carried.setStage (hs : Carried Q s) {i : CallId} {st : Stage cfg} (h : ∀ c l, st.Holds c l → Q c.key l) :
    Carried Q (s.setStage i st) := by
  refine ⟨hs.flight, ?_, hs.task⟩
  show ∀ j c l, (Function.update s.stage i st j).Holds c l → Q c.key l
  rw [Function.forall_update_iff s.stage fun _ x => ∀ c l, x.Holds c l → Q c.key l]
  exact ⟨h, fun j _ => hs.holds j⟩

theorem Carried.setTask (hs : Carried Q s) {j : TaskId} {tk : Task cfg} (h : ∀ c l, tk.Holds c l → Q c.key l) :
    Carried Q (s.setTask j tk) := by
  refine ⟨hs.flight, hs.holds, ?_⟩
  show ∀ j' c l, (Function.update s.task j tk j').Holds c l → Q c.key l
  rw [Function.forall_update_iff s.task fun _ x => ∀ c l, x.Holds c l → Q c.key l]
  exact ⟨h, fun j' _ => hs.task j'⟩

/-- A step carries on what is true of every lookup, if it is true of the one that the step ends. -/
theorem carried_step {l : Manifest.Label cfg} (hst : Staged s) (hs : Carried Q s)
    (hl : ∀ found, lookedUp s l = some found → Q found.call.key found) (h : Manifest.step s l = some t) :
    Carried Q t := by
  obtain ⟨u, hu, rfl⟩ := Manifest.step_cases h
  suffices Carried Q u from this.congr rfl rfl rfl
  cases hu with
  | call i c hi => exact hs.setStage fun _ _ h => h.elim
  | get i now c hi => exact hs.setStage fun c' l h => absurd h (afterGet_not_holds c now _ c' l)
  | served i reply c project stale r hi hr h200 t ht =>
      have hanswered : Carried Q t := by
        rw [ht]
        exact (hs.congr (t := s.serve c.image [project]) rfl rfl rfl).setStage fun _ _ h => h.elim
      cases stale with
      | false => exact hanswered
      | true =>
          have hspawn : Carried Q (t.setTask t.tasks (.looking c)) := hanswered.setTask fun _ _ h => h.elim
          exact hspawn.congr rfl rfl rfl
  | outdated i reply c project stale hi => exact hs.setStage fun _ _ h => h.elim
  | evict i c observed hi => exact (hs.congr rfl rfl rfl : Carried Q (s.update _ _ _)).setStage fun _ _ h => h.elim
  | enter i c fl hi hf => exact hs.setFlight (Singleflight.carries_step hs.flight (.of_ne (by rintro _ ⟨⟩)) hf)
  | looked i f c fl hi hf =>
      have hfound := hl ⟨c, f, s.tick⟩ (by simp only [lookedUp, hi])
      refine (hs.setFlight (Singleflight.carries_step hs.flight ?_ hf)).congr rfl rfl rfl
      rintro l k g ⟨⟩ hp
      have hkey : k = c.key := hst.key i c hi k g (by dsimp only at hp; rw [hp]; exact ⟨rfl, rfl⟩)
      rw [hkey]
      exact hfound
  | fly i a c fl hi ha hf =>
      refine hs.setFlight (Singleflight.carries_step hs.flight (.of_ne ?_) hf)
      rintro l rfl
      cases ha
  | land i c e hi he =>
      refine hs.setStage fun c' l h => ?_
      obtain ⟨rfl, rfl⟩ := holds_afterFlight h
      obtain ⟨k, f, hon, hhas⟩ := has_of_flightEnd he
      obtain ⟨keyOf, hby⟩ := hs.flight
      rw [← hst.key i c hi k f hon]
      exact hby.held i k f l hon hhas
  | store i now c l st hi hst' =>
      have hQ : Q c.key l := hs.holds i c l (by rw [hi]; exact ⟨rfl, rfl⟩)
      have hs : Carried Q (s.update c.key (some (entryOf cfg now l.result)) l.observed) := hs.congr rfl rfl rfl
      refine hs.setStage fun c' l' h => ?_
      rcases hst' with rfl | rfl
      · exact h.1 ▸ h.2 ▸ hQ
      · exact h.1 ▸ h.2 ▸ hQ
  | storeImage i c l r hi hr =>
      have hQ : Q c.key l := hs.holds i c l (by rw [hi]; exact ⟨rfl, rfl⟩)
      have hs : Carried Q (s.setEntry (imageKey c.image) (some ⟨r.project, none⟩)) := hs.congr rfl rfl rfl
      exact hs.setStage fun c' l' h => h.1 ▸ h.2 ▸ hQ
  | drop i hi => exact hs.setStage fun _ _ h => h.elim
  | dropFlight i c fl hi hf =>
      exact (hs.setFlight (Singleflight.carries_step hs.flight (.of_ne (by rintro _ ⟨⟩)) hf)).setStage
        fun _ _ h => h.elim
  | refreshed j f c tk hj htk =>
      have hfound := hl ⟨c, f, s.tick⟩ (by simp only [lookedUp, hj])
      have hs : Carried Q (s.serve c.image (servers c f)) := hs.congr rfl rfl rfl
      refine hs.setTask fun c' l' h => ?_
      rcases htk with rfl | rfl
      · exact h.1 ▸ h.2 ▸ hfound
      · exact h.elim
  | refreshStore j now c l r hj hr =>
      have hQ : Q c.key l := hs.task j c l (by rw [hj]; exact ⟨rfl, rfl⟩)
      have hs : Carried Q (s.update c.key (some ⟨encodeCacheValue r.project now,
        some (cfg.cacheTtl + cfg.staleWhileRevalidate)⟩) l.observed) := hs.congr rfl rfl rfl
      exact hs.setTask fun c' l' h => h.1 ▸ h.2 ▸ hQ
  | refreshStoreImage j c l r hj hr =>
      exact (hs.congr rfl rfl rfl : Carried Q (s.setEntry _ _)).setTask fun _ _ h => h.elim
  | expire key => exact hs.congr rfl rfl rfl

end Carried

/-! ## Where entries come from -/

section Sourced
variable {cfg : Config}

variable (cfg) in
/-- The value is one of those written for the project: with a time only under stale-while-revalidate. -/
def Spells (value project : Text) (time : Option Nat) : Prop :=
  value = stored project time ∧ (cfg.staleWhileRevalidate = 0 → time = none)

def Concerns (key : Text) (l : Lookup cfg) : Prop :=
  l.call.key = key ∨ ∃ c : Manifest.Call, c.key = l.call.key ∧ imageKey c.image = key

/-- The write followed a lookup of the log: one that missed, for this key, or one that found a project. -/
inductive Sourced (ended : List (Lookup cfg × Nat)) (key : Text) (put : Put) : Prop
  | missed (l : Lookup cfg) (m : Nat) (hl : (l, m) ∈ ended) (hm : m ≤ put.written) (hkey : l.call.key = key)
      (hmiss : l.fanout.Misses) (hvalue : put.value = negativeCacheSentinel)
      (httl : put.ttl = millis cfg.negativeCacheTtl)
  | found (l : Lookup cfg) (m : Nat) (r : ResolveResult) (hl : (l, m) ∈ ended) (hm : m ≤ put.written)
      (time : Option Nat) (hkey : Concerns key l) (hr : l.result = .ok r) (hvalue : Spells cfg put.value r.project time)
      (httl : put.ttl ≤ millis (cfg.cacheTtl + cfg.staleWhileRevalidate))

theorem Sourced.mono {ended ended' : List (Lookup cfg × Nat)} {key : Text} {put : Put} (h : Sourced ended key put)
    (hsub : ended ⊆ ended') : Sourced ended' key put := by
  cases h with
  | missed l m hl hm hkey hmiss hvalue httl => exact .missed l m (hsub hl) hm hkey hmiss hvalue httl
  | found l m r hl hm time hkey hr hvalue httl => exact .found l m r (hsub hl) hm time hkey hr hvalue httl

def Logged (ended : List (Lookup cfg × Nat)) (now : Nat) (key : Text) (l : Lookup cfg) : Prop :=
  l.call.key = key ∧ ∃ m, (l, m) ∈ ended ∧ m ≤ now

variable {s : Manifest.State cfg} {ended : List (Lookup cfg × Nat)} {now : Nat}

theorem lifetime_default_le (value : Text) :
    lifetime cfg ⟨value, none⟩ ≤ millis (cfg.cacheTtl + cfg.staleWhileRevalidate) :=
  Nat.mul_le_mul_right _ (Nat.le_add_right _ _)

theorem lifetime_long_le (value : Text) :
    lifetime cfg ⟨value, some (cfg.cacheTtl + cfg.staleWhileRevalidate)⟩ ≤
      millis (cfg.cacheTtl + cfg.staleWhileRevalidate) := by
  unfold lifetime
  rw [Option.map_some, Option.getD_some]

theorem entryOf_found (cfg : Config) (clock : Nat) (r : ResolveResult) :
    Spells cfg (entryOf cfg clock (.ok r)).value r.project (writeTime cfg clock) ∧
      lifetime cfg (entryOf cfg clock (.ok r)) ≤ millis (cfg.cacheTtl + cfg.staleWhileRevalidate) := by
  refine ⟨⟨value_entryOf clock r, fun hswr => if_pos hswr⟩, ?_⟩
  unfold entryOf
  dsimp only
  split
  · exact lifetime_default_le r.project
  · exact lifetime_long_le _

theorem sourced_found {own key : Text} {l : Lookup cfg} {r : ResolveResult} {entry : Entry} (time : Option Nat)
    (hl : Logged ended now own l) (hkey : Concerns key l) (hr : l.result = .ok r)
    (hvalue : Spells cfg entry.value r.project time)
    (httl : lifetime cfg entry ≤ millis (cfg.cacheTtl + cfg.staleWhileRevalidate)) :
    Sourced ended key ⟨entry.value, lifetime cfg entry, now⟩ := by
  obtain ⟨-, m, hlog, hm⟩ := hl
  exact .found l m r hlog hm time hkey hr hvalue httl

section
variable {c : Manifest.Call} {l : Lookup cfg} (hl : Logged ended now c.key l)
include hl

/-- What `resolve_manifest` stores of a lookup: the project, or the miss. -/
theorem sourced_entryOf (clock : Nat) (hneeded : (∃ r, l.result = .ok r) ∨ cachedMiss l.result = true) :
    Sourced ended c.key ⟨(entryOf cfg clock l.result).value, lifetime cfg (entryOf cfg clock l.result), now⟩ := by
  rcases hneeded with ⟨r, hr⟩ | hmiss
  · rw [hr]
    obtain ⟨hvalue, httl⟩ := entryOf_found cfg clock r
    exact sourced_found _ hl (.inl hl.1) hr hvalue httl
  · cases hr : l.result with
    | ok r =>
        rw [hr] at hmiss
        cases hmiss
    | error e =>
        obtain ⟨hkey, m, hlog, hm⟩ := hl
        exact .missed l m hlog hm hkey (Fanout.cachedMiss_iff.mp hmiss) rfl rfl

/-- The entry of the image carries no time. -/
theorem sourced_image {r : ResolveResult} (hr : l.result = .ok r) :
    Sourced ended (imageKey c.image) ⟨r.project, lifetime cfg ⟨r.project, none⟩, now⟩ :=
  sourced_found none hl (.inr ⟨c, hl.1.symm, rfl⟩) hr ⟨rfl, fun _ => rfl⟩ (lifetime_default_le r.project)

end

/-- What a step writes follows a lookup of the log. -/
theorem sourced_written {l : Manifest.Label cfg} (hneeded : Needed s) (hunrefreshed : Unrefreshed s)
    (hs : Carried (Logged ended now) s) {w : Fleet.CacheWrite} (hw : w ∈ Fleet.written s l) {entry : Entry}
    (hentry : w.value = some entry) :
    Sourced ended w.key ⟨entry.value, lifetime cfg entry, now⟩ := by
  cases l with
  | evict i =>
      simp only [Fleet.written] at hw
      split at hw
      · cases List.mem_singleton.mp hw
        cases hentry
      · cases hw
  | store i clock =>
      simp only [Fleet.written] at hw
      split at hw
      · rename_i c l hi
        cases List.mem_singleton.mp hw
        cases hentry
        exact sourced_entryOf (hs.holds i c l (by rw [hi]; exact ⟨rfl, rfl⟩)) clock (hneeded i c l hi)
      · cases hw
  | storeImage i =>
      simp only [Fleet.written] at hw
      split at hw
      · rename_i c l hi
        split at hw
        · rename_i r hr
          cases List.mem_singleton.mp hw
          cases hentry
          exact sourced_image (hs.holds i c l (by rw [hi]; exact ⟨rfl, rfl⟩)) hr
        · cases hw
      · cases hw
  | refreshStore j clock =>
      simp only [Fleet.written] at hw
      split at hw
      · rename_i c l hj
        split at hw
        · rename_i r hr
          cases List.mem_singleton.mp hw
          cases hentry
          have hlogged := hs.task j c l (by rw [hj]; exact ⟨rfl, rfl⟩)
          refine sourced_found (some clock) hlogged (.inl hlogged.1) hr ⟨rfl, fun hswr => ?_⟩ (lifetime_long_le _)
          rw [(hunrefreshed hswr).2 j] at hj
          cases hj
        · cases hw
      · cases hw
  | refreshStoreImage j =>
      simp only [Fleet.written] at hw
      split at hw
      · rename_i c l hj
        split at hw
        · rename_i r hr
          cases List.mem_singleton.mp hw
          cases hentry
          exact sourced_image (hs.task j c l (by rw [hj]; exact ⟨rfl, rfl⟩)) hr
        · cases hw
      · cases hw
  | _ => cases hw

end Sourced

/-! ## The invariant -/

section Recorded
variable {cfg : Config} {S C : Type} {B : CacheBackend S Put C} {s t : State cfg S}

/-- Everything that was put was written by now, after a lookup of the log; the backend holds nothing else. -/
structure Recorded (B : CacheBackend S Put C) (s : State cfg S) : Prop where
  staged : Staged s.calls
  needed : Needed s.calls
  unrefreshed : Unrefreshed s.calls
  carried : Carried (Logged s.ended s.backend.now) s.calls
  sourced : ∀ p ∈ s.puts, p.2.written ≤ s.backend.now ∧ Sourced s.ended p.1 p.2
  fed : Fed B (fun key put => (key, put) ∈ s.puts) s.backend

theorem sourced_puts {l : Manifest.Label cfg} (hs : Recorded B s) {p : Text × Put}
    (hp : p ∈ (Fleet.written s.calls l).filterMap (put cfg s.backend.now)) :
    p.2.written = s.backend.now ∧ Sourced s.ended p.1 p.2 := by
  obtain ⟨w, hw, hput⟩ := List.mem_filterMap.mp hp
  obtain ⟨entry, hentry, rfl⟩ := Option.map_eq_some_iff.mp hput
  exact ⟨rfl, sourced_written hs.needed hs.unrefreshed hs.carried hw hentry⟩

theorem recorded_init : Recorded B (machine B cfg).init where
  staged := staged_init
  needed := needed_init
  unrefreshed := unrefreshed_init
  carried := carried_init
  sourced _ hp := nomatch hp
  fed := ⟨[], trivial, rfl⟩

theorem recorded_step (httl : B.defaultTtl = millis cfg.cacheTtl) {l : Label cfg C} (hs : Recorded B s)
    (h : step B s l = some t) : Recorded B t := by
  cases step_cases h with
  | act l c calls hcalls =>
      have hsub : s.ended ⊆ s.ended ++ (lookedUp s.calls l).toList.map fun found => (found, s.backend.now) :=
        List.subset_append_left ..
      have hstaged : Staged { s.calls with cache := visible B s.backend c } := Fleet.staged_setCache hs.staged _
      have hcarried : Carried (Logged (s.ended ++ (lookedUp s.calls l).toList.map fun found =>
          (found, s.backend.now)) s.backend.now) { s.calls with cache := visible B s.backend c } := by
        refine (hs.carried.mono fun k found h => ⟨h.1, ?_⟩).congr rfl rfl rfl
        obtain ⟨m, hm, hle⟩ := h.2
        exact ⟨m, hsub hm, hle⟩
      obtain ⟨hnow, hfed⟩ := Fed.foldl (P := fun key put =>
          (key, put) ∈ s.puts ++ (Fleet.written s.calls l).filterMap (Backed.put cfg s.backend.now)) httl c
        (Fleet.written s.calls l) s.backend (fun p hp => List.mem_append_right _ hp)
        (hs.fed.mono fun _ _ hp => List.mem_append_left _ hp)
      have hneeded : Needed { s.calls with cache := visible B s.backend c } := hs.needed
      have hunrefreshed : Unrefreshed { s.calls with cache := visible B s.backend c } := hs.unrefreshed
      refine ⟨staged_step hstaged hcalls, needed_step hneeded hcalls, unrefreshed_step hunrefreshed hcalls, ?_,
        fun p hp => ?_, hfed⟩
      · dsimp only
        rw [hnow]
        refine carried_step hstaged hcarried (fun found hfound => ⟨rfl, s.backend.now, ?_, Nat.le_refl _⟩) hcalls
        have hfound : lookedUp s.calls l = some found := hfound
        rw [hfound]
        exact List.mem_append_right _ (List.mem_singleton_self _)
      · dsimp only
        rw [hnow]
        rcases List.mem_append.mp hp with hp | hp
        · obtain ⟨hle, hsourced⟩ := hs.sourced p hp
          exact ⟨hle, hsourced.mono hsub⟩
        · obtain ⟨hwritten, hsourced⟩ := sourced_puts hs hp
          exact ⟨Nat.le_of_eq hwritten, hsourced.mono hsub⟩
  | wait d =>
      have hlater : s.backend.now ≤ (B.step s.backend (.wait d)).now := Nat.le_add_right s.backend.now d
      refine ⟨hs.staged, hs.needed, hs.unrefreshed, hs.carried.mono fun k found h => ⟨h.1, ?_⟩, fun p hp => ?_,
        hs.fed.step (l := .wait d) trivial⟩
      · obtain ⟨m, hm, hle⟩ := h.2
        exact ⟨m, hm, hle.trans hlater⟩
      · obtain ⟨hle, hsourced⟩ := hs.sourced p hp
        exact ⟨hle.trans hlater, hsourced⟩
  | evict key =>
      exact ⟨hs.staged, hs.needed, hs.unrefreshed, hs.carried, hs.sourced, hs.fed.step (l := .evict key) trivial⟩

end Recorded

/-! ## Decisions -/

section Decisions
variable {cfg : Config} {S C : Type} {s t : State cfg S}

theorem recorded_reachable (b : Backing cfg S C) (hs : (machine b.backend cfg).Reachable s) : Recorded b.backend s :=
  hs.rule (I := Recorded b.backend) recorded_init fun _ _ _ hs h => recorded_step b.ttl hs h

/-- What a call reads was put under its key, not too long ago and after a lookup. -/
theorem visible_sourced (b : Backing cfg S C) (hs : (machine b.backend cfg).Reachable s) {c : C} {key : Text}
    {entry : Entry} (h : visible b.backend s.backend c key = some entry) : ∃ put, (key, put) ∈ s.puts ∧
      put.value = entry.value ∧ put.written ≤ s.backend.now ∧ s.backend.now ≤ put.written + b.limit put.ttl ∧
      Sourced s.ended key put := by
  obtain ⟨put, hget, rfl⟩ := Option.map_eq_some_iff.mp h
  have hrecorded := recorded_reachable b hs
  obtain ⟨ls, hputs, hrun⟩ := hrecorded.fed
  obtain ⟨hput, hlimit⟩ := b.genuine _ ls s.backend hputs hrun key c put hget
  obtain ⟨hwritten, hsourced⟩ := hrecorded.sourced (key, put) hput
  exact ⟨put, hput, rfl, hwritten, hlimit, hsourced⟩

/-- A lookup for the key missed, and that was written not longer ago than a negative entry is kept. -/
def RecentlyMissed (b : Backing cfg S C) (s : State cfg S) (key : Text) : Prop :=
  ∃ l m put, (l, m) ∈ s.ended ∧ l.call.key = key ∧ l.fanout.Misses ∧ (key, put) ∈ s.puts ∧
    put.value = negativeCacheSentinel ∧ m ≤ put.written ∧ put.written ≤ s.backend.now ∧
    s.backend.now ≤ put.written + b.limit (millis cfg.negativeCacheTtl)

/-- A lookup found the project, or one whose name is misread as this, and that was written not longer ago than a
positive entry is kept. -/
def RecentlyFound (b : Backing cfg S C) (s : State cfg S) (key project : Text) : Prop :=
  ∃ l m r put time, (l, m) ∈ s.ended ∧ Concerns key l ∧ l.result = .ok r ∧ (key, put) ∈ s.puts ∧
    put.value = stored r.project time ∧
    (project = r.project ∨ ¬ Legible r.project time ∧ project = misread r.project time) ∧
    m ≤ put.written ∧ put.written ≤ s.backend.now ∧
    s.backend.now ≤ put.written + b.limit (millis (cfg.cacheTtl + cfg.staleWhileRevalidate))

/-- The name of a project that has been found is taken for the sentinel. -/
def Masked (s : State cfg S) : Prop :=
  ∃ l m r, (l, m) ∈ s.ended ∧ l.result = .ok r ∧ (decodeCacheValue r.project).1 = negativeCacheSentinel

theorem readEntry_sentinel (cfg : Config) (ttl : Option Nat) :
    (readEntry cfg ⟨negativeCacheSentinel, ttl⟩).1 = negativeCacheSentinel := by
  unfold readEntry
  split
  · rfl
  · dsimp only
    rw [decodeCacheValue, if_pos rfl]

/-- Only such a name is read as the sentinel. -/
theorem masked_of_spells {value project : Text} {time : Option Nat} (hvalue : Spells cfg value project time)
    (h : (readEntry cfg ⟨value, none⟩).1 = negativeCacheSentinel) :
    (decodeCacheValue project).1 = negativeCacheSentinel := by
  obtain ⟨rfl, htime⟩ := hvalue
  unfold readEntry at h
  split at h
  · rename_i hswr
    rw [htime hswr] at h
    have h : project = negativeCacheSentinel := h
    rw [h, decodeCacheValue, if_pos rfl]
  · have h : (decodeCacheValue (stored project time)).1 = negativeCacheSentinel := h
    cases time with
    | none => exact h
    | some n =>
        by_cases hlegible : Legible project (some n)
        · rw [decode_of_legible hlegible] at h
          rw [h, decodeCacheValue, if_pos rfl]
        · rw [decode_of_not_legible hlegible] at h
          exact absurd (by rw [← h]; simp [misread]) bar_notMem_sentinel

/-- An entry is read as the project it was written for, or as what its name is misread as. -/
theorem readEntry_of_spells {value project : Text} {time : Option Nat} (hvalue : Spells cfg value project time) :
    (readEntry cfg ⟨value, none⟩).1 = project ∨
      ¬ Legible project time ∧ (readEntry cfg ⟨value, none⟩).1 = misread project time := by
  obtain ⟨rfl, htime⟩ := hvalue
  unfold readEntry
  split
  · rename_i hswr
    rw [htime hswr]
    exact .inl rfl
  · by_cases hlegible : Legible project time
    · exact .inl (decode_of_legible hlegible)
    · exact .inr ⟨hlegible, decode_of_not_legible hlegible⟩

theorem stage_of_get {b : Backing cfg S C} {i : CallId} {clock : Nat} {u : C} {c : Manifest.Call}
    (hi : s.calls.stage i = .reading c) (h : step b.backend s (.act (.get i clock) u) = some t) :
    t.calls.stage i = afterGet c clock (visible b.backend s.backend u c.key) := by
  obtain ⟨calls, hcalls, rfl⟩ := Option.map_eq_some_iff.mp h
  obtain ⟨v, hv, rfl⟩ := Manifest.step_cases hcalls
  cases hv with
  | get _ _ c' hc' =>
      have hc' : s.calls.stage i = .reading c' := hc'
      rw [hi] at hc'
      cases hc'
      exact Function.update_self ..

/-- A call that is answered from a negative entry follows a lookup for its key in which no project had the image, not
longer ago than the backend keeps a negative entry; or some project is named like the sentinel. -/
theorem negative_recent (b : Backing cfg S C) (hs : (machine b.backend cfg).Reachable s) {i : CallId} {clock : Nat}
    {u : C} {c : Manifest.Call} (hi : s.calls.stage i = .reading c)
    (h : step b.backend s (.act (.get i clock) u) = some t) (ht : t.calls.stage i = .answered c .negative) :
    RecentlyMissed b s c.key ∨ Masked s := by
  rw [stage_of_get hi h] at ht
  cases hvisible : visible b.backend s.backend u c.key with
  | none =>
      rw [hvisible] at ht
      cases ht
  | some entry =>
      obtain ⟨put, hput, hvalue, hwritten, hlimit, hsourced⟩ := visible_sourced b hs hvisible
      have hread : (readEntry cfg ⟨put.value, none⟩).1 = negativeCacheSentinel := by
        rw [hvisible, afterGet_some] at ht
        split at ht
        · rename_i hread
          rw [hvalue]
          exact hread
        · cases ht
      cases hsourced with
      | missed l m hl hm hkey hmiss hneg httl =>
          rw [httl] at hlimit
          exact .inl ⟨l, m, put, hl, hkey, hmiss, hput, hneg, hm, hwritten, hlimit⟩
      | found l m r hl hm time hkey hr hspells httl =>
          exact .inr ⟨l, m, r, hl, hr, masked_of_spells hspells hread⟩

/-- The project that a call is sent to by a cache entry was found by a lookup, not longer ago than the backend keeps a
positive entry; or it is what the name of such a project is misread as. -/
theorem routed_recent (b : Backing cfg S C) (hs : (machine b.backend cfg).Reachable s) {i : CallId} {clock : Nat}
    {u : C} {c : Manifest.Call} (hi : s.calls.stage i = .reading c)
    (h : step b.backend s (.act (.get i clock) u) = some t) {project : Text} {stale : Bool}
    (ht : t.calls.stage i = .fetching c project stale) : RecentlyFound b s c.key project := by
  rw [stage_of_get hi h] at ht
  cases hvisible : visible b.backend s.backend u c.key with
  | none =>
      rw [hvisible] at ht
      cases ht
  | some entry =>
      obtain ⟨put, hput, hvalue, hwritten, hlimit, hsourced⟩ := visible_sourced b hs hvisible
      obtain ⟨hsentinel, hread⟩ : (readEntry cfg ⟨put.value, none⟩).1 ≠ negativeCacheSentinel ∧
          (readEntry cfg ⟨put.value, none⟩).1 = project := by
        rw [hvisible, afterGet_some] at ht
        rw [hvalue]
        split at ht
        · cases ht
        · rename_i hne
          cases ht
          exact ⟨hne, rfl⟩
      cases hsourced with
      | missed l m hl hm hkey hmiss hneg httl =>
          rw [hneg, readEntry_sentinel] at hsentinel
          exact absurd rfl hsentinel
      | found l m r hl hm time hkey hr hspells httl =>
          have hlonger := b.monotone httl
          have hproject := readEntry_of_spells hspells
          rw [hread] at hproject
          exact ⟨l, m, r, put, time, hl, hkey, hr, hput, hspells.1, hproject, hm, hwritten,
            hlimit.trans (Nat.add_le_add_left hlonger _)⟩

end Decisions

/-! ## A pull after another -/

def pull : Manifest.Call := ⟨"library/nginx".toList, "latest".toList, []⟩

/-- One call asks the only project, which answers with the status, and stores what came of it; another call begins. -/
def pulledTwice (status : Nat) : List (Label .default Unit) :=
  let calls : List (Manifest.Label .default) :=
    [.call 0 pull, .get 0 0, .enter 0, .looked 0 (oneProject status), .fly 0 .send, .fly 0 .remove, .land 0] ++
      (if status = 200 then [.store 0 0, .storeImage 0] else [.store 0 0]) ++ [.call 1 pull]
  calls.map (.act · ())

theorem negative_recent_missing : ∃ s t, (machine (Backing.moka .default).backend .default).run
      (machine (Backing.moka .default).backend .default).init (pulledTwice 404) = some s ∧
    step (Backing.moka .default).backend s (.act (.get 1 0) ()) = some t ∧
    t.calls.stage 1 = .answered pull .negative ∧ (RecentlyMissed (.moka .default) s pull.key ∨ Masked s) := by
  let s := ((machine (Backing.moka .default).backend .default).run
    (machine (Backing.moka .default).backend .default).init (pulledTwice 404)).get rfl
  let t := (step (Backing.moka .default).backend s (.act (.get 1 0) ())).get rfl
  have hs : (machine (Backing.moka .default).backend .default).Reachable s := ⟨pulledTwice 404, rfl⟩
  have ht : step (Backing.moka .default).backend s (.act (.get 1 0) ()) = some t := rfl
  exact ⟨s, t, rfl, rfl, rfl, negative_recent (.moka .default) hs rfl ht rfl⟩

theorem routed_recent_found : ∃ s t, (machine (Backing.moka .default).backend .default).run
      (machine (Backing.moka .default).backend .default).init (pulledTwice 200) = some s ∧
    step (Backing.moka .default).backend s (.act (.get 1 0) ()) = some t ∧
    t.calls.stage 1 = .fetching pull "a".toList false ∧ RecentlyFound (.moka .default) s pull.key "a".toList := by
  let s := ((machine (Backing.moka .default).backend .default).run
    (machine (Backing.moka .default).backend .default).init (pulledTwice 200)).get rfl
  let t := (step (Backing.moka .default).backend s (.act (.get 1 0) ())).get rfl
  have hs : (machine (Backing.moka .default).backend .default).Reachable s := ⟨pulledTwice 200, rfl⟩
  have ht : step (Backing.moka .default).backend s (.act (.get 1 0) ()) = some t := rfl
  exact ⟨s, t, rfl, rfl, rfl, routed_recent (.moka .default) hs rfl ht rfl⟩

end HarborRouter.Backed
