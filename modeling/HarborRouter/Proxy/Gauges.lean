import HarborRouter.Lib.Meter
import HarborRouter.Resolver.Provenance

/-!
# The gauges of requests in progress

`registry_handler` counts a request up when it begins and down when its `InflightGuard` is dropped, with the response
or with the future of a client that has gone. `singleflight` counts its leaders up and down around `parallel_lookup`
without a guard.

* `gauges_exact` : in every interleaving the first gauge shows the requests in progress, and the second the leaders
  and one more for every leader that was ever dropped.
-/

namespace HarborRouter.Gauges
open Lib Manifest

variable {cfg : Config}

structure State (cfg : Config) where
  calls : Manifest.State cfg
  guard : CallId → Bool

inductive Label (cfg : Config)
  | resolve (l : Manifest.Label cfg)
  /-- the handler returns the response -/
  | respond (i : CallId)

/-- A request has a guard from its beginning until its future is dropped. -/
def guardAfter (guard : CallId → Bool) : Manifest.Label cfg → CallId → Bool
  | .call i _ => Function.update guard i true
  | .drop i => Function.update guard i false
  | _ => guard

def step (s : State cfg) : Label cfg → Option (State cfg)
  | .resolve l => (Manifest.step s.calls l).map fun calls => ⟨calls, guardAfter s.guard l⟩
  | .respond i =>
      match s.calls.stage i, s.guard i with
      | .answered _ _, true => some { s with guard := Function.update s.guard i false }
      | _, _ => none

def machine (cfg : Config) : Machine (State cfg) (Label cfg) := ⟨⟨Manifest.init, fun _ => false⟩, step⟩

/-- `droppedLeaders` is no gauge of the source: it counts the leaders whose future was dropped. -/
inductive Gauge
  | inflightRequests
  | singleflightInflight
  | droppedLeaders

/-- The call awaits `parallel_lookup` as a leader. -/
def leads {K R : Type} : Singleflight.Phase K R → Bool
  | .leading _ _ => true
  | _ => false

def moves (s : State cfg) (l : Label cfg) : Gauge → ℤ
  | .inflightRequests =>
      match l with
      | .resolve (.call _ _) => 1
      | .resolve (.drop i) => if s.guard i then -1 else 0
      | .respond _ => -1
      | _ => 0
  | .singleflightInflight =>
      match l with
      | .resolve (.enter i) =>
          match s.calls.stage i with
          | .flying c => if s.calls.flight.flights c.key = none then 1 else 0
          | _ => 0
      | .resolve (.looked _ _) => -1
      | _ => 0
  | .droppedLeaders =>
      match l with
      | .resolve (.drop i) => (leads (s.calls.flight.phase i)).toInt
      | _ => 0

abbrev metered (cfg : Config) : Machine (State cfg × (Gauge → ℤ)) (Label cfg) := (machine cfg).metered moves

def Running : Stage cfg → Prop
  | .absent | .answered _ _ | .cancelled => False
  | _ => True

/-- A request has a guard while its call is under way, and until its response is returned. -/
def Fits : Stage cfg → Bool → Prop
  | .absent, g | .cancelled, g => g = false
  | .answered _ _, _ => True
  | _, g => g = true

variable {s t : State cfg}

theorem step_cases {l : Label cfg} (h : step s l = some t) :
    (∃ m, l = .resolve m ∧ Manifest.step s.calls m = some t.calls ∧ t.guard = guardAfter s.guard m) ∨
      ∃ i c a, l = .respond i ∧ s.calls.stage i = .answered c a ∧ s.guard i = true ∧
        t = { s with guard := Function.update s.guard i false } := by
  cases l with
  | resolve m =>
      obtain ⟨calls, hcalls, rfl⟩ := Option.map_eq_some_iff.mp h
      exact .inl ⟨m, rfl, hcalls, rfl⟩
  | respond i =>
      rw [step] at h
      split at h <;> cases h
      exact .inr ⟨i, _, _, rfl, ‹_›, ‹_›, rfl⟩

/-! ## Requests -/

/-- What a step does to the stages: a call begins, is dropped, or goes on. -/
inductive Staging (u : Manifest.State cfg) (l : Manifest.Label cfg) (v : Manifest.State cfg) : Prop
  | same (hl : ∀ i, l ≠ .drop i ∧ ∀ c, l ≠ .call i c) (h : v.stage = u.stage)
  | begun (i : CallId) (c : Manifest.Call) (hl : l = .call i c) (hi : u.stage i = .absent)
      (h : v.stage = Function.update u.stage i (.reading c))
  | dropped (i : CallId) (hl : l = .drop i) (hi : Running (u.stage i))
      (h : v.stage = Function.update u.stage i .cancelled)
  | moved (i : CallId) (st : Stage cfg) (hl : ∀ i, l ≠ .drop i ∧ ∀ c, l ≠ .call i c) (hi : Running (u.stage i))
      (hst : Fits st true) (h : v.stage = Function.update u.stage i st)

theorem staging {u v : Manifest.State cfg} {l : Manifest.Label cfg} (h : Manifest.step u l = some v) :
    Staging u l v := by
  obtain ⟨w, hw, rfl⟩ := Manifest.step_cases h
  cases hw with
  | call i c hs => exact .begun i c rfl hs rfl
  | get i now c hs =>
      refine .moved i _ (fun _ => ⟨nofun, nofun⟩) (by rw [hs]; trivial) ?_ rfl
      rcases afterGet_cases cfg c now (u.cache c.key) with hst | hst | ⟨project, stale, hst⟩ <;> rw [hst] <;>
        first | rfl | trivial
  | served i reply c project stale r hs hr h200 t ht =>
      refine .moved i (.answered c (.cached r)) (fun _ => ⟨nofun, nofun⟩) (by rw [hs]; trivial) trivial ?_
      subst ht
      cases stale <;> rfl
  | outdated i reply c project stale hs =>
      exact .moved i (.evicting c u.tick) (fun _ => ⟨nofun, nofun⟩) (by rw [hs]; trivial) rfl rfl
  | evict i c observed hs => exact .moved i (.flying c) (fun _ => ⟨nofun, nofun⟩) (by rw [hs]; trivial) rfl rfl
  | land i c e hs he =>
      refine .moved i _ (fun _ => ⟨nofun, nofun⟩) (by rw [hs]; trivial) ?_ rfl
      rcases afterFlight_cases c e with ⟨l, -, hst⟩ | hst <;> rw [hst] <;> first | rfl | trivial
  | store i now c l st hs hst =>
      refine .moved i st (fun _ => ⟨nofun, nofun⟩) (by rw [hs]; trivial) ?_ rfl
      rcases hst with rfl | rfl <;> first | rfl | trivial
  | storeImage i c l r hs hr =>
      exact .moved i (.answered c (.flight (.received l))) (fun _ => ⟨nofun, nofun⟩) (by rw [hs]; trivial) trivial rfl
  | drop i hs =>
      refine .dropped i rfl ?_ rfl
      cases hstage : u.stage i <;> rw [hstage] at hs <;> trivial
  | dropFlight i c fl hs hf => exact .dropped i rfl (by rw [hs]; trivial) rfl
  | _ => exact .same (fun _ => ⟨nofun, nofun⟩) rfl

theorem fits_of_running {st : Stage cfg} {g : Bool} (hst : Running st) : Fits st g ↔ g = true := by
  cases st <;> first | exact hst.elim | exact Iff.rfl

theorem guardAfter_of_ne {guard : CallId → Bool} {l : Manifest.Label cfg} (hl : ∀ i, l ≠ .drop i ∧ ∀ c, l ≠ .call i c) :
    guardAfter guard l = guard := by
  cases l with
  | call i c => exact absurd rfl ((hl i).2 c)
  | drop i => exact absurd rfl (hl i).1
  | _ => rfl

def Guarded (s : State cfg) : Prop := ∀ i, Fits (s.calls.stage i) (s.guard i)

theorem Guarded.update (h : Guarded s) {i : CallId} {st : Stage cfg} {g : Bool} (hg : Fits st g)
    (hstage : t.calls.stage = Function.update s.calls.stage i st) (hguard : t.guard = Function.update s.guard i g) :
    Guarded t := by
  intro j
  rw [hstage, hguard]
  by_cases hj : j = i
  · subst hj
    rw [Function.update_self, Function.update_self]
    exact hg
  · rw [Function.update_of_ne hj, Function.update_of_ne hj]
    exact h j

theorem guarded_step (h : Guarded s) {l : Label cfg} (ht : step s l = some t) : Guarded t := by
  obtain ⟨m, rfl, hcalls, hguard⟩ | ⟨i, c, a, rfl, hi, hg, rfl⟩ := step_cases ht
  · cases staging hcalls with
    | same hl hstage =>
        rw [guardAfter_of_ne hl] at hguard
        intro j
        rw [hstage, hguard]
        exact h j
    | begun i c hl hi hstage =>
        subst hl
        exact h.update (by rfl) hstage hguard
    | dropped i hl hi hstage =>
        subst hl
        exact h.update (by rfl) hstage hguard
    | moved i st hl hi hst hstage =>
        rw [guardAfter_of_ne hl, ← Function.update_eq_self i s.guard] at hguard
        refine h.update ?_ hstage hguard
        rw [(fits_of_running hi).mp (h i)]
        exact hst
  · have hfits : Fits (.answered c a : Stage cfg) false := trivial
    refine h.update hfits ?_ rfl
    rw [← hi]
    exact (Function.update_eq_self ..).symm

theorem inflight_of_ne {m : Manifest.Label cfg} (hl : ∀ i, m ≠ .drop i ∧ ∀ c, m ≠ .call i c) :
    moves s (.resolve m) .inflightRequests = 0 := by
  cases m with
  | call i c => exact absurd rfl ((hl i).2 c)
  | drop i => exact absurd rfl (hl i).1
  | _ => rfl

/-- A request is counted up where its guard is made, and down where it is dropped. -/
theorem inflight_step (h : Guarded s) {l : Label cfg} (ht : step s l = some t) :
    (∀ j, (t.guard j).toInt = (s.guard j).toInt) ∧ moves s l .inflightRequests = 0 ∨
      ∃ i, (∀ j, j ≠ i → (t.guard j).toInt = (s.guard j).toInt) ∧
        (t.guard i).toInt - (s.guard i).toInt = moves s l .inflightRequests := by
  have hother : ∀ (i : CallId) (g : Bool), t.guard = Function.update s.guard i g →
      ∀ j, j ≠ i → (t.guard j).toInt = (s.guard j).toInt := by
    intro i g hguard j hj
    rw [hguard, Function.update_of_ne hj]
  obtain ⟨m, rfl, hcalls, hguard⟩ | ⟨i, c, a, rfl, hi, hg, rfl⟩ := step_cases ht
  · cases staging hcalls with
    | begun i c hl hi hstage =>
        subst hl
        refine .inr ⟨i, hother i true hguard, ?_⟩
        have hbefore : s.guard i = false := by
          have hfits := h i
          rw [hi] at hfits
          exact hfits
        rw [hguard, hbefore, guardAfter, Function.update_self]
        rfl
    | dropped i hl hi hstage =>
        subst hl
        refine .inr ⟨i, hother i false hguard, ?_⟩
        have hbefore : s.guard i = true := (fits_of_running hi).mp (h i)
        rw [hguard, moves, hbefore, guardAfter, Function.update_self]
        rfl
    | same hl hstage =>
        rw [guardAfter_of_ne hl] at hguard
        exact .inl ⟨fun j => by rw [hguard], inflight_of_ne hl⟩
    | moved i st hl hi hst hstage =>
        rw [guardAfter_of_ne hl] at hguard
        exact .inl ⟨fun j => by rw [hguard], inflight_of_ne hl⟩
  · refine .inr ⟨i, hother i false rfl, ?_⟩
    show (Function.update s.guard i false i).toInt - (s.guard i).toInt = -1
    rw [Function.update_self, hg]
    rfl

/-! ## Leaders -/

/-- The leaders, less those of them that are dropped, move as the gauge does. -/
theorem singleflight_step {fl fl' : Singleflight.State Text (Lookup cfg)} {i : CallId}
    {a : Singleflight.Action Text (Lookup cfg)} (h : Singleflight.step fl ⟨i, a⟩ = some fl') :
    (∀ j, j ≠ i → leads (fl'.phase j) = leads (fl.phase j)) ∧
      (leads (fl'.phase i)).toInt - (leads (fl.phase i)).toInt =
        match a with
        | .enter k => if fl.flights k = none then 1 else 0
        | .looked _ => -1
        | .drop => -(leads (fl.phase i)).toInt
        | _ => 0 := by
  have hstep := Singleflight.step_cases h
  obtain ⟨p, hp, -⟩ := hstep.phase_update
  dsimp only at hstep hp
  refine ⟨fun j hj => by rw [hp, Function.update_of_ne hj], ?_⟩
  cases hstep with
  | lead k hout hk => simp [hout, hk, leads]
  | join k f hout hk => simp [hout, hk, leads]
  | looked k f r hlead => simp [hlead, leads]
  | send k f r hpub => simp [hpub, leads]
  | remove k f r hrem => simp [hrem, leads]
  | subscribe k f hjoined => simp [hjoined, leads]
  | found k f r hsub hv => simp [hsub, leads]
  | wait k f hsub hv => simp [hsub, leads]
  | wake k f seen hwait hc => simp [hwait, leads]
  | close k f seen hwait hc => simp [hwait, leads]
  | time k f seen hwait hc => simp [hwait, leads]
  | read k f r hwoken hv => simp [hwoken, leads]
  | readEmpty k f hwoken hv => simp [hwoken, leads]
  | dropLeader k f hlead => simp [hlead, leads]
  | dropFollower k f seen hwait => simp [hwait, leads]

/-- What the gauge of `singleflight` shows beyond the dropped leaders. -/
def beyondDropped : (Gauge → ℤ) →+ ℤ :=
  Pi.evalAddMonoidHom (fun _ => ℤ) .singleflightInflight - Pi.evalAddMonoidHom (fun _ => ℤ) .droppedLeaders

theorem beyondDropped_apply (g : Gauge → ℤ) : beyondDropped g = g .singleflightInflight - g .droppedLeaders := rfl

theorem leads_eq_false {u : Manifest.State cfg} (hu : Manifest.Staged u) {i : CallId}
    (hi : ∀ c, u.stage i ≠ .flying c) : leads (u.flight.phase i) = false := by
  cases hp : u.flight.phase i with
  | leading k f =>
      obtain ⟨c, hc⟩ := hu.running i k f (by rw [hp]; exact ⟨rfl, rfl⟩)
      exact absurd hc (hi c)
  | _ => rfl

/-- A leader is counted up where it is made, and down where its lookup returns. -/
theorem leading_step (h : Manifest.Staged s.calls) {l : Label cfg} (ht : step s l = some t) :
    (∀ j, (leads (t.calls.flight.phase j)).toInt = (leads (s.calls.flight.phase j)).toInt) ∧
        beyondDropped (moves s l) = 0 ∨
      ∃ i, (∀ j, j ≠ i → (leads (t.calls.flight.phase j)).toInt = (leads (s.calls.flight.phase j)).toInt) ∧
        (leads (t.calls.flight.phase i)).toInt - (leads (s.calls.flight.phase i)).toInt =
          beyondDropped (moves s l) := by
  obtain ⟨m, rfl, hcalls, -⟩ | ⟨i, c, a, rfl, hi, hg, rfl⟩ := step_cases ht
  · obtain ⟨u, hu, htu⟩ := Manifest.step_cases hcalls
    have hflight : t.calls.flight = u.flight := by rw [htu]; rfl
    rw [hflight, beyondDropped_apply]
    cases hu with
    | enter i c fl hs hf =>
        obtain ⟨hother, hi⟩ := singleflight_step hf
        refine .inr ⟨i, fun j hj => congrArg Bool.toInt (hother j hj), hi.trans ?_⟩
        simp only [moves, hs, sub_zero]
    | looked i f c fl hs hf =>
        obtain ⟨hother, hi⟩ := singleflight_step hf
        exact .inr ⟨i, fun j hj => congrArg Bool.toInt (hother j hj), hi⟩
    | dropFlight i c fl hs hf =>
        obtain ⟨hother, hi⟩ := singleflight_step hf
        refine .inr ⟨i, fun j hj => congrArg Bool.toInt (hother j hj), hi.trans ?_⟩
        exact (zero_sub _).symm
    | fly i a c fl hs ha hf =>
        obtain ⟨hother, hi⟩ := singleflight_step hf
        refine .inr ⟨i, fun j hj => congrArg Bool.toInt (hother j hj), hi.trans ?_⟩
        cases a <;> first | rfl | cases ha
    | drop i hs =>
        have hidle : leads (s.calls.flight.phase i) = false := by
          refine leads_eq_false h fun c hc => ?_
          rw [hc] at hs
          cases hs
        refine .inl ⟨fun j => rfl, ?_⟩
        show 0 - (leads (s.calls.flight.phase i)).toInt = 0
        rw [hidle]
        rfl
    | served i reply c project stale r hs hr h200 w hw =>
        subst hw
        refine .inl ⟨fun j => ?_, rfl⟩
        cases stale <;> rfl
    | _ => exact .inl ⟨fun j => rfl, rfl⟩
  · exact .inl ⟨fun j => rfl, rfl⟩

theorem sound_reachable (hs : (machine cfg).Reachable s) : Guarded s ∧ Manifest.Staged s.calls := by
  apply hs.rule (I := fun s => Guarded s ∧ Manifest.Staged s.calls)
  · exact ⟨fun _ => rfl, staged_init⟩
  · rintro s l t ⟨hguarded, hstaged⟩ ht
    refine ⟨guarded_step hguarded ht, ?_⟩
    obtain ⟨m, rfl, hcalls, -⟩ | ⟨i, c, a, rfl, hi, hg, rfl⟩ := step_cases ht
    · exact staged_step hstaged hcalls
    · exact hstaged

theorem guards_counted {s : State cfg × (Gauge → ℤ)} (hs : (metered cfg).Reachable s) :
    ∃ F : Finset CallId, (∀ i, i ∈ F ↔ s.1.guard i = true) ∧ s.2 .inflightRequests = F.card := by
  have hguards : Tally (fun i => (s.1.guard i).toInt) (s.2 .inflightRequests) :=
    hs.tally (Pi.evalAddMonoidHom (fun _ => ℤ) .inflightRequests) (fun s i => (s.guard i).toInt) (fun _ => rfl)
      fun s l t hreach ht => inflight_step (sound_reachable hreach).1 ht
  exact hguards.card

theorem leaders_counted {s : State cfg × (Gauge → ℤ)} (hs : (metered cfg).Reachable s) :
    ∃ F : Finset CallId, (∀ i, i ∈ F ↔ leads (s.1.calls.flight.phase i) = true) ∧
      s.2 .singleflightInflight = F.card + s.2 .droppedLeaders := by
  have hleaders : Tally (fun i => (leads (s.1.calls.flight.phase i)).toInt)
      (s.2 .singleflightInflight - s.2 .droppedLeaders) :=
    hs.tally beyondDropped (fun s i => (leads (s.calls.flight.phase i)).toInt) (fun _ => rfl)
      fun s l t hreach ht => leading_step (sound_reachable hreach).2 ht
  obtain ⟨F, hF, hcard⟩ := hleaders.card
  exact ⟨F, hF, by omega⟩

/-- In every interleaving of requests, with any of them dropped wherever they wait, the gauge of requests is the number
of guards, which are held by the requests under way and those about to be answered; and the gauge of `singleflight` is
the number of leaders that await their lookup, and of all that were ever dropped. -/
theorem gauges_exact (cfg : Config) {s : State cfg × (Gauge → ℤ)} (hs : (metered cfg).Reachable s) :
    (∃ F : Finset CallId, (∀ i, i ∈ F ↔ s.1.guard i = true) ∧ s.2 .inflightRequests = F.card) ∧
      (∀ i, Fits (s.1.calls.stage i) (s.1.guard i)) ∧
      ∃ F : Finset CallId, (∀ i, i ∈ F ↔ leads (s.1.calls.flight.phase i) = true) ∧
        s.2 .singleflightInflight = F.card + s.2 .droppedLeaders :=
  ⟨guards_counted hs, (sound_reachable hs.unmetered).1, leaders_counted hs⟩

/-- A client leaves while its request leads a flight; then two more ask for another image. -/
def leaderLeaves : List (Label .default) :=
  let c : Manifest.Call := ⟨"library/redis".toList, "7".toList, []⟩
  [.resolve (.call 0 ⟨"library/nginx".toList, "latest".toList, []⟩), .resolve (.get 0 0), .resolve (.enter 0),
    .resolve (.drop 0), .resolve (.call 1 c), .resolve (.get 1 0), .resolve (.enter 1), .resolve (.call 2 c),
    .resolve (.get 2 0), .resolve (.enter 2)]

theorem gauges_exact_leaderLeaves : ∃ s, (metered .default).run (metered .default).init leaderLeaves = some s ∧
    s.2 .inflightRequests = 2 ∧ s.2 .singleflightInflight = 2 ∧
    (∃ F : Finset CallId, (∀ i, i ∈ F ↔ s.1.guard i = true) ∧ s.2 .inflightRequests = F.card) ∧
    ∃ F : Finset CallId, (∀ i, i ∈ F ↔ leads (s.1.calls.flight.phase i) = true) ∧
      s.2 .singleflightInflight = F.card + s.2 .droppedLeaders := by
  obtain ⟨hguards, -, hleaders⟩ := gauges_exact .default ⟨leaderLeaves, rfl⟩
  exact ⟨_, rfl, rfl, rfl, hguards, hleaders⟩

theorem droppedLeaders_mono {s t : State cfg × (Gauge → ℤ)} {ls : List (Label cfg)}
    (h : (metered cfg).run s ls = some t) : s.2 .droppedLeaders ≤ t.2 .droppedLeaders := by
  refine Machine.run_rule (M := metered cfg) (I := fun u => s.2 .droppedLeaders ≤ u.2 .droppedLeaders) ?_ le_rfl h
  intro u l v hle hv
  have hmoves : 0 ≤ moves u.1 l .droppedLeaders := by
    unfold moves
    dsimp only
    split
    · cases leads _ <;> decide
    · exact le_rfl
  have hmeter : v.2 .droppedLeaders = u.2 .droppedLeaders + moves u.1 l .droppedLeaders :=
    congrFun (Machine.metered_step hv).2 _
  omega

/-- Once a leader was dropped the gauge of `singleflight` shows more than the leaders that await their lookup, in every
later state. -/
theorem leaders_overcounted (cfg : Config) {s t : State cfg × (Gauge → ℤ)} (i : CallId) (ls : List (Label cfg))
    (hs : (metered cfg).Reachable s) (hlead : leads (s.1.calls.flight.phase i) = true)
    (hrun : (metered cfg).run s (.resolve (.drop i) :: ls) = some t) :
    ∃ F : Finset CallId, (∀ j, j ∈ F ↔ leads (t.1.calls.flight.phase j) = true) ∧
      (F.card : ℤ) < t.2 .singleflightInflight := by
  obtain ⟨u, hu, hrest⟩ := Option.bind_eq_some_iff.mp hrun
  have hcount : u.2 .droppedLeaders = s.2 .droppedLeaders + (leads (s.1.calls.flight.phase i)).toInt :=
    congrFun (Machine.metered_step hu).2 .droppedLeaders
  have hstart : 0 ≤ s.2 .droppedLeaders := by
    obtain ⟨ks, hks⟩ := hs
    exact droppedLeaders_mono hks
  have hend := droppedLeaders_mono hrest
  obtain ⟨F, hF, hcard⟩ := leaders_counted (hs.run hrun)
  rw [hlead] at hcount
  have hone : true.toInt = 1 := rfl
  exact ⟨F, hF, by omega⟩

theorem leaders_overcounted_leaderLeaves :
    ∃ t, (metered .default).run (metered .default).init leaderLeaves = some t ∧
      ∃ F : Finset CallId, (∀ j, j ∈ F ↔ leads (t.1.calls.flight.phase j) = true) ∧
        (F.card : ℤ) < t.2 .singleflightInflight :=
  ⟨_, rfl, leaders_overcounted .default 0 (leaderLeaves.drop 4) ⟨leaderLeaves.take 3, rfl⟩ rfl rfl⟩

end HarborRouter.Gauges
