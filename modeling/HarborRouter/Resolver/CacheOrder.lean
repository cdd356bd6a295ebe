import HarborRouter.Resolver.Provenance
import HarborRouter.Resolver.Wakeup

/-!
# In which order observations reach the cache

Calls and refreshes write and delete cache entries some time after the observation they rely on, and nothing orders
these updates: `delayed_miss_overwrites` is a run in which a miss replaces a newer mapping. What holds is that only
what was on its way already can come late.

* `Due` : what a call may still return from `singleflight`;
* `Owes` : the updates of an entry that are on their way, by the tick of their observation;
* `late_update_was_owed` : an update that lands after one from a later observation was on its way when that later
  observation was made.
-/

namespace HarborRouter
open Lib

/-! ## Outcomes on their way -/

namespace Singleflight
open State

variable {K R : Type}

/-- The call has found `r` as the leader of flight `f`. -/
def Phase.Found (f : FlightId) (r : R) : Phase K R → Prop
  | .publishing _ f' r' | .removing _ f' r' | .led _ f' r' => f' = f ∧ r' = r
  | _ => False

/-- The call is going to return with the outcome of flight `f`. -/
def Phase.Awaits (f : FlightId) : Phase K R → Prop
  | .publishing _ f' _ | .removing _ f' _ | .joined _ f' | .subscribed _ f' | .waiting _ f' _ | .woken _ f' => f' = f
  | _ => False

def Phase.Got (r : R) : Phase K R → Prop
  | .led _ _ r' => r' = r
  | .followed _ _ e => e = .received r
  | _ => False

theorem Phase.Found.leaderOf {f : FlightId} {r : R} {p : Phase K R} (h : p.Found f r) : p.LeaderOf f := by
  cases p <;> first | exact h.1 | exact h.elim

theorem Phase.Sent.found {f : FlightId} {r : R} {p : Phase K R} (h : p.Sent f r) : p.Found f r := by
  cases p <;> first | exact h | exact h.elim

def Known (s : State K R) (f : FlightId) (r : R) : Prop := ∃ i, (s.phase i).Found f r

/-- Call `i` has returned with `r`, or may still do so. -/
def Due (s : State K R) (i : CallId) (r : R) : Prop :=
  (s.phase i).Got r ∨ ∃ f, (s.phase i).Awaits f ∧ Known s f r

/-- A flight with the outcome `r` is still in the map, for other calls to join. -/
def Open (s : State K R) (k : K) (r : R) : Prop := ∃ f, s.flights k = some f ∧ Known s f r

variable [DecidableEq K]

theorem Stepped.flights_old {s t : State K R} {i : CallId} {a : Action K R} (h : Stepped s i a t) {k : K}
    {f : FlightId} (hf : t.flights k = some f) : s.flights k = some f ∨ f = s.next := by
  cases h with
  | lead k' hp hk =>
      rw [flights_lead] at hf
      rcases insert_eq_some_iff.mp hf with ⟨-, rfl⟩ | ⟨-, hf⟩
      · exact .inr rfl
      · exact .inl hf
  | remove k' f' r hp =>
      rw [flights_leave, flights_removeKey] at hf
      exact .inl (of_erase_eq_some hf)
  | _ => exact .inl hf

/-- What a step makes of the phase of its call, as far as outcomes go. -/
theorem Stepped.outcome_update {s t : State K R} {i : CallId} {a : Action K R} (hs : Wired s) (h : Stepped s i a t) :
    ∃ p, t.phase = Function.update s.phase i p ∧
      (∀ f r, p.Found f r → (s.phase i).Found f r ∨ a = .looked r) ∧
      (∀ f, p.Awaits f → (s.phase i).Awaits f ∨ (∃ k, s.phase i = .leading k f) ∨
        ∃ k, a = .enter k ∧ s.flights k = some f) ∧
      ∀ r, p.Got r → Due s i r := by
  have hchan : ∀ f r, (s.phase i).Awaits f → (s.chan f).value = some r → Due s i r := fun f r ha hv => by
    obtain ⟨x, hx⟩ := hs.sent f r hv
    exact .inr ⟨f, ha, x, hx.found⟩
  cases h with
  | lead k hp hk => exact ⟨_, rfl, fun _ _ h => h.elim, fun _ h => h.elim, fun _ h => h.elim⟩
  | join k f hp hk =>
      refine ⟨_, rfl, fun _ _ h => h.elim, fun f' h => ?_, fun _ h => h.elim⟩
      cases h
      exact .inr (.inr ⟨k, rfl, hk⟩)
  | looked k f r hp =>
      refine ⟨_, rfl, fun _ _ h => .inr (by rw [h.2]), fun f' h => .inr (.inl ⟨k, ?_⟩), fun _ h => h.elim⟩
      cases h
      exact hp
  | send k f r hp =>
      exact ⟨_, rfl, fun _ _ h => .inl (by rw [hp]; exact h), fun _ h => .inl (by rw [hp]; exact h), fun _ h => h.elim⟩
  | remove k f r hp =>
      refine ⟨.led k f r, by simp, fun _ _ h => .inl (by rw [hp]; exact h), fun _ h => h.elim, fun r' h => ?_⟩
      cases h
      exact .inr ⟨f, by rw [hp]; rfl, i, by rw [hp]; exact ⟨rfl, rfl⟩⟩
  | subscribe k f hp =>
      exact ⟨_, rfl, fun _ _ h => h.elim, fun _ h => .inl (by rw [hp]; exact h), fun _ h => h.elim⟩
  | found k f r hp hv =>
      refine ⟨_, rfl, fun _ _ h => h.elim, fun _ h => h.elim, fun r' h => ?_⟩
      cases h
      exact hchan f r (by rw [hp]; rfl) hv
  | wait k f hp hv =>
      exact ⟨_, rfl, fun _ _ h => h.elim, fun _ h => .inl (by rw [hp]; exact h), fun _ h => h.elim⟩
  | wake k f n hp hc =>
      exact ⟨_, rfl, fun _ _ h => h.elim, fun _ h => .inl (by rw [hp]; exact h), fun _ h => h.elim⟩
  | read k f r hp hv =>
      refine ⟨_, rfl, fun _ _ h => h.elim, fun _ h => h.elim, fun r' h => ?_⟩
      cases h
      exact hchan f r (by rw [hp]; rfl) hv
  | close k f n hp hc => exact ⟨_, rfl, fun _ _ h => h.elim, fun _ h => h.elim, fun _ h => nomatch h⟩
  | time k f n hp hc => exact ⟨_, rfl, fun _ _ h => h.elim, fun _ h => h.elim, fun _ h => nomatch h⟩
  | readEmpty k f hp hv => exact ⟨_, rfl, fun _ _ h => h.elim, fun _ h => h.elim, fun _ h => nomatch h⟩
  | dropLeader k f hp => exact ⟨_, rfl, fun _ _ h => h.elim, fun _ h => h.elim, fun _ h => h.elim⟩
  | dropFollower k f n hp => exact ⟨_, rfl, fun _ _ h => h.elim, fun _ h => h.elim, fun _ h => h.elim⟩

section Step
variable {s t : State K R} {i : CallId} {a : Action K R} {r : R} (hs : Wired s) (h : Stepped s i a t)
include hs h

theorem known_before {f : FlightId} (hk : Known t f r) : Known s f r ∨ a = .looked r := by
  obtain ⟨p, hp, hfound, -⟩ := h.outcome_update hs
  obtain ⟨x, hx⟩ := hk
  rw [hp, phase_update_iff (Phase.Found f r)] at hx
  rcases hx with ⟨rfl, hx⟩ | ⟨-, hx⟩
  · exact (hfound f r hx).imp_left fun h => ⟨x, h⟩
  · exact .inl ⟨x, hx⟩

theorem due_before {j : CallId} (hd : Due t j r) :
    Due s j r ∨ a = .looked r ∨ (j = i ∧ ∃ k, a = .enter k ∧ Open s k r) := by
  obtain ⟨p, hp, -, hawaits, hgot⟩ := h.outcome_update hs
  unfold Due at hd
  rw [hp, phase_update_iff (Phase.Got r)] at hd
  rcases hd with (⟨rfl, hd⟩ | ⟨-, hd⟩) | ⟨f, ha, hk⟩
  · exact .inl (hgot r hd)
  · exact .inl (.inl hd)
  · rcases known_before hs h hk with hk | hl
    · rw [phase_update_iff (Phase.Awaits f)] at ha
      rcases ha with ⟨rfl, ha⟩ | ⟨-, ha⟩
      · rcases hawaits f ha with ha | ⟨k, hlead⟩ | ⟨k, hk', hf⟩
        · exact .inl (.inr ⟨f, ha, hk⟩)
        · -- the one leader of the flight is the call itself, and has found nothing yet
          obtain ⟨x, hx⟩ := hk
          cases hs.oneLeader x j f hx.leaderOf (by rw [hlead]; rfl)
          rw [hlead] at hx
          exact hx.elim
        · exact .inr (.inr ⟨rfl, k, hk', f, hf, hk⟩)
      · exact .inl (.inr ⟨f, ha, hk⟩)
    · exact .inr (.inl hl)

/-- An open flight was open, or its outcome has just been looked up. -/
theorem open_before {k : K} (ho : Open t k r) : Open s k r ∨ a = .looked r := by
  obtain ⟨f, hf, hk⟩ := ho
  rcases known_before hs h hk with hk | hl
  · rcases h.flights_old hf with hf | rfl
    · exact .inl ⟨f, hf, hk⟩
    · obtain ⟨x, hx⟩ := hk
      exact absurd (hs.leaderKnown x _ hx.leaderOf) (Nat.lt_irrefl _)
  · exact .inr hl

end Step
end Singleflight

/-! ## Updates on their way -/

namespace Manifest

variable {cfg : Config}

/-- An update of the entry `k`, from an observation made at tick `o`, is on its way. -/
inductive Owes (s : State cfg) (k : Text) (o : Nat) : Prop
  /-- a call is about to evict the entry -/
  | evicting (i : CallId) (c : Call) (hi : s.stage i = .evicting c o) (hk : c.key = k)
  /-- a call is about to write the entry -/
  | storing (i : CallId) (c : Call) (l : Lookup cfg) (hi : s.stage i = .storing c l) (hk : c.key = k)
      (ho : l.observed = o)
  /-- a call has got or may get the outcome of a fan-out from its flight -/
  | flying (i : CallId) (c : Call) (l : Lookup cfg) (hi : s.stage i = .flying c) (hk : c.key = k)
      (hd : Singleflight.Due s.flight i l) (ho : l.observed = o)
  /-- the flight of the key can still be joined after its fan-out has returned -/
  | listed (l : Lookup cfg) (hf : Singleflight.Open s.flight k l) (ho : l.observed = o)
  /-- a refresh is about to write the entry -/
  | refreshing (j : TaskId) (c : Call) (l : Lookup cfg) (hj : s.task j = .storing c l) (hk : c.key = k)
      (ho : l.observed = o)

section Owed
variable {s u : State cfg} {k : Text} {o : Nat}

theorem Owes.congr (h : Owes u k o) (hstage : u.stage = s.stage) (hflight : u.flight = s.flight)
    (htask : u.task = s.task) : Owes s k o := by
  cases h with
  | evicting i c hi hk => exact .evicting i c (by rw [← hstage]; exact hi) hk
  | storing i c l hi hk ho => exact .storing i c l (by rw [← hstage]; exact hi) hk ho
  | flying i c l hi hk hd ho => exact .flying i c l (by rw [← hstage]; exact hi) hk (by rw [← hflight]; exact hd) ho
  | listed l hf ho => exact .listed l (by rw [← hflight]; exact hf) ho
  | refreshing j c l hj hk ho => exact .refreshing j c l (by rw [← htask]; exact hj) hk ho

theorem Owes.move {i : CallId} {st : Stage cfg} (h : Owes u k o) (hstage : u.stage = Function.update s.stage i st)
    (hflight : u.flight = s.flight) (htask : u.task = s.task) (hevict : ∀ c n, st = .evicting c n → n = s.tick)
    (hstore : ∀ c l, st = .storing c l → Owes s c.key l.observed)
    (hfly : ∀ c, st = .flying c → s.flight.phase i = .outside) : Owes s k o ∨ o = s.tick := by
  have hnew : ∀ j x, u.stage j = x → (j = i ∧ st = x) ∨ s.stage j = x := fun j x hx => by
    rw [hstage] at hx
    exact ((Function.pred_update (fun _ y => y = x) ..).mp hx).imp_right And.right
  cases h with
  | evicting j c hj hk =>
      rcases hnew j _ hj with ⟨rfl, hst⟩ | hj
      · exact .inr (hevict c o hst)
      · exact .inl (.evicting j c hj hk)
  | storing j c l hj hk ho =>
      rcases hnew j _ hj with ⟨rfl, hst⟩ | hj
      · rw [← hk, ← ho]
        exact .inl (hstore c l hst)
      · exact .inl (.storing j c l hj hk ho)
  | flying j c l hj hk hd ho =>
      rw [hflight] at hd
      rcases hnew j _ hj with ⟨rfl, hst⟩ | hj
      · -- a call that has not entered has nothing to come
        rcases hd with hd | ⟨f, hd, -⟩ <;> rw [hfly c hst] at hd <;> exact hd.elim
      · exact .inl (.flying j c l hj hk hd ho)
  | listed l hf ho => exact .inl (.listed l (by rw [← hflight]; exact hf) ho)
  | refreshing j c l hj hk ho => exact .inl (.refreshing j c l (by rw [← htask]; exact hj) hk ho)

theorem Owes.fly {i : CallId} {a : Singleflight.Action Text (Lookup cfg)} {c : Call} (h : Owes u k o)
    (hs : Singleflight.Wired s.flight) (hi : s.stage i = .flying c)
    (hstep : Singleflight.step s.flight ⟨i, a⟩ = some u.flight) (hstage : u.stage = s.stage) (htask : u.task = s.task)
    (henter : ∀ k', a = .enter k' → k' = c.key) (hlooked : ∀ l, a = .looked l → l.observed = s.tick) :
    Owes s k o ∨ o = s.tick := by
  have hstepped := Singleflight.step_cases hstep
  cases h with
  | evicting j c' hj hk => exact .inl (.evicting j c' (by rw [← hstage]; exact hj) hk)
  | storing j c' l hj hk ho => exact .inl (.storing j c' l (by rw [← hstage]; exact hj) hk ho)
  | flying j c' l hj hk hd ho =>
      rw [hstage] at hj
      rcases Singleflight.due_before hs hstepped hd with hd | hl | ⟨rfl, k', he, hopen⟩
      · exact .inl (.flying j c' l hj hk hd ho)
      · exact .inr (ho.symm.trans (hlooked l hl))
      · dsimp only at hi he
        rw [hj] at hi
        cases hi
        rw [henter k' he, hk] at hopen
        exact .inl (.listed l hopen ho)
  | listed l hf ho =>
      rcases Singleflight.open_before hs hstepped hf with hf | hl
      · exact .inl (.listed l hf ho)
      · exact .inr (ho.symm.trans (hlooked l hl))
  | refreshing j c' l hj hk ho => exact .inl (.refreshing j c' l (by rw [← htask]; exact hj) hk ho)

theorem Owes.moveTask {j : TaskId} {tk : Task cfg} (h : Owes u k o) (hstage : u.stage = s.stage)
    (hflight : u.flight = s.flight) (htask : u.task = Function.update s.task j tk)
    (hstore : ∀ c l, tk = .storing c l → l.observed = s.tick) : Owes s k o ∨ o = s.tick := by
  cases h with
  | evicting i c hi hk => exact .inl (.evicting i c (by rw [← hstage]; exact hi) hk)
  | storing i c l hi hk ho => exact .inl (.storing i c l (by rw [← hstage]; exact hi) hk ho)
  | flying i c l hi hk hd ho =>
      exact .inl (.flying i c l (by rw [← hstage]; exact hi) hk (by rw [← hflight]; exact hd) ho)
  | listed l hf ho => exact .inl (.listed l (by rw [← hflight]; exact hf) ho)
  | refreshing j' c l hj hk ho =>
      rw [htask] at hj
      rcases (Function.pred_update (fun _ x => x = Task.storing c l) ..).mp hj with ⟨-, htk⟩ | ⟨-, hj⟩
      · exact .inr (ho.symm.trans (hstore c l htk))
      · exact .inl (.refreshing j' c l hj hk ho)

end Owed

theorem got_of_flightEnd {p : Singleflight.Phase Text (Lookup cfg)} {l : Lookup cfg}
    (h : flightEnd p = some (.received l)) : p.Got l := by
  cases p <;> cases h <;> rfl

/-- Every update on its way was on its way before, or has just been observed. -/
theorem owes_before {s t : State cfg} {l : Label cfg} (hst : Staged s) (hs : Singleflight.Wired s.flight)
    (h : step s l = some t) {k : Text} {o : Nat} (ho : Owes t k o) : Owes s k o ∨ o = s.tick := by
  obtain ⟨u, hu, rfl⟩ := step_cases h
  replace ho : Owes u k o := ho.congr rfl rfl rfl
  cases hu with
  | call i c hi => exact ho.move rfl rfl rfl nofun nofun nofun
  | get i now c hi =>
      have hout := hst.early i (by rw [hi]; trivial)
      rcases afterGet_cases cfg c now (s.cache c.key) with he | he | ⟨project, stale, he⟩ <;> rw [he] at ho
      · exact ho.move rfl rfl rfl nofun nofun fun _ _ => hout
      · exact ho.move rfl rfl rfl nofun nofun nofun
      · exact ho.move rfl rfl rfl nofun nofun nofun
  | served i reply c project stale r hi hr h200 t ht =>
      have hanswered : Owes t k o → Owes s k o ∨ o = s.tick := fun ho => by
        subst ht
        exact ho.move rfl rfl rfl nofun nofun nofun
      cases stale with
      | false => exact hanswered ho
      | true =>
          have htick : t.tick = s.tick := by rw [ht]; rfl
          rcases ho.moveTask (s := t) rfl rfl rfl nofun with ho | ho
          · exact hanswered ho
          · exact .inr (ho.trans htick)
  | outdated i reply c project stale hi =>
      exact ho.move rfl rfl rfl (fun _ _ h => by cases h; rfl) nofun nofun
  | evict i c observed hi =>
      exact ho.move rfl rfl rfl nofun nofun fun _ _ => hst.early i (by rw [hi]; trivial)
  | enter i c fl hi hf => exact ho.fly hs hi hf rfl rfl (fun k' h => by cases h; rfl) nofun
  | looked i f c fl hi hf => exact ho.fly hs hi hf rfl rfl nofun fun l h => by cases h; rfl
  | fly i a c fl hi ha hf =>
      refine ho.fly hs hi hf rfl rfl ?_ ?_
      · rintro k' rfl; cases ha
      · rintro l rfl; cases ha
  | land i c e hi he =>
      rcases afterFlight_cases c e with ⟨l, rfl, hst'⟩ | hst' <;> rw [hst'] at ho
      · refine ho.move rfl rfl rfl nofun (fun c' l' h => ?_) nofun
        cases h
        exact .flying i c l hi rfl (.inl (got_of_flightEnd he)) rfl
      · exact ho.move rfl rfl rfl nofun nofun nofun
  | store i now c l st hi hst' =>
      rcases hst' with rfl | rfl
      · exact ho.move rfl rfl rfl nofun nofun nofun
      · exact ho.move rfl rfl rfl nofun nofun nofun
  | storeImage i c l r hi hr => exact ho.move rfl rfl rfl nofun nofun nofun
  | drop i hi => exact ho.move rfl rfl rfl nofun nofun nofun
  | dropFlight i c fl hi hf =>
      rcases ho.move (s := s.setFlight fl) rfl rfl rfl nofun nofun nofun with ho | ho
      · exact ho.fly hs hi hf rfl rfl nofun nofun
      · exact .inr ho
  | refreshed j f c t hj ht =>
      rcases ht with rfl | rfl
      · exact ho.moveTask rfl rfl rfl fun c' l h => by cases h; rfl
      · exact ho.moveTask rfl rfl rfl nofun
  | refreshStore j now c l r hj hr => exact ho.moveTask rfl rfl rfl nofun
  | refreshStoreImage j c l r hj hr => exact ho.moveTask rfl rfl rfl nofun
  | expire key => exact .inl (ho.congr rfl rfl rfl)

theorem wired_reachable {s : State cfg} (h : (machine cfg).Reachable s) : Singleflight.Wired s.flight :=
  h.rule (I := fun s => Singleflight.Wired s.flight) Singleflight.wired_init fun s l t hs ht =>
    flights.keeps (fun _ _ _ hw hstep => Singleflight.wired_step hw hstep) s l t hs ht

/-- Every update of a manifest entry was on its way. -/
theorem updates_owed {s t : State cfg} {l : Label cfg} (h : step s l = some t) :
    t.updates = s.updates ∨ ∃ e, t.updates = s.updates ++ [e] ∧ Owes s e.key e.observed := by
  obtain ⟨u, hu, rfl⟩ := step_cases h
  cases hu with
  | evict i c observed hi => exact .inr ⟨⟨c.key, observed⟩, rfl, .evicting i c hi rfl⟩
  | store i now c l st hi hst => exact .inr ⟨⟨c.key, l.observed⟩, rfl, .storing i c l hi rfl rfl⟩
  | refreshStore j now c l r hj hr => exact .inr ⟨⟨c.key, l.observed⟩, rfl, .refreshing j c l hj rfl rfl⟩
  | served i reply c project stale r hi hr h200 t ht =>
      subst ht
      cases stale <;> exact .inl rfl
  | _ => exact .inl rfl

theorem tick_step {s t : State cfg} {l : Label cfg} (h : step s l = some t) : t.tick = s.tick + 1 := by
  obtain ⟨u, hu, rfl⟩ := step_cases h
  suffices u.tick = s.tick from congrArg (· + 1) this
  cases hu with
  | served i reply c project stale r hi hr h200 t ht =>
      subst ht
      cases stale <;> rfl
  | _ => rfl

theorem tick_run {s t : State cfg} {ls : List (Label cfg)} (h : (machine cfg).run s ls = some t) :
    t.tick = s.tick + ls.length := by
  induction ls generalizing s with
  | nil => cases h; rfl
  | cons l ls ih =>
      obtain ⟨m, hm, h⟩ := Option.bind_eq_some_iff.mp h
      rw [ih h, tick_step hm, List.length_cons, Nat.add_assoc, Nat.add_comm 1]

/-- What is on its way, and what has landed, was observed before. -/
structure Past (s : State cfg) : Prop where
  owed : ∀ k o, Owes s k o → o < s.tick
  landed : ∀ e ∈ s.updates, e.observed < s.tick

theorem past_init : Past (init : State cfg) where
  owed k o h := by
    cases h with
    | evicting i c hi hk => cases hi
    | storing i c l hi hk ho => cases hi
    | flying i c l hi hk hd ho => cases hi
    | listed l hf ho =>
        obtain ⟨f, hf, -⟩ := hf
        cases hf
    | refreshing j c l hj hk ho => cases hj
  landed e he := nomatch he

theorem past_reachable {s : State cfg} (h : (machine cfg).Reachable s) : Past s := by
  obtain ⟨ls, h⟩ := h
  induction ls using List.reverseRecOn generalizing s with
  | nil => cases h; exact past_init
  | append_singleton ls l ih =>
      obtain ⟨m, hm, hstep⟩ := (machine cfg).run_concat.mp h
      have hpast := ih hm
      have htick := tick_step hstep
      have hreach : (machine cfg).Reachable m := ⟨ls, hm⟩
      constructor
      · intro k o ho
        rcases owes_before (staged_reachable hreach) (wired_reachable hreach) hstep ho with ho | rfl
        · have := hpast.owed k o ho
          omega
        · omega
      · intro e he
        rcases updates_owed hstep with hu | ⟨e', hu, howes⟩ <;> rw [hu] at he
        · have := hpast.landed e he
          omega
        · rcases List.mem_append.mp he with he | he
          · have := hpast.landed e he
            omega
          · rw [List.mem_singleton.mp he]
            have := hpast.owed _ _ howes
            omega

theorem owes_before_run {s t : State cfg} {ls : List (Label cfg)} (hs : (machine cfg).Reachable s)
    (h : (machine cfg).run s ls = some t) {k : Text} {o : Nat} (ho : Owes t k o) (hlt : o < s.tick) : Owes s k o := by
  induction ls generalizing s with
  | nil => cases h; exact ho
  | cons l ls ih =>
      obtain ⟨m, hm, h⟩ := Option.bind_eq_some_iff.mp h
      have htick := tick_step hm
      rcases owes_before (staged_reachable hs) (wired_reachable hs) hm (ih (hs.step hm) h (by omega)) with ho | ho
      · exact ho
      · omega

/-- In every run, an update of an entry that lands after one from a later observation was on its way when that later
observation was made. -/
theorem late_update_was_owed {s t : State cfg} {ls : List (Label cfg)} {l : Label cfg}
    (hrun : (machine cfg).run init ls = some s) (hstep : step s l = some t) {e e' : Update}
    (hlands : t.updates = s.updates ++ [e]) (hlanded : e' ∈ s.updates) (hkey : e'.key = e.key)
    (hlater : e.observed < e'.observed) : ∃ before after s', ls = before ++ after ∧
      (machine cfg).run init before = some s' ∧ s'.tick = e'.observed ∧ Owes s' e'.key e.observed := by
  have hreach : (machine cfg).Reachable s := ⟨ls, hrun⟩
  have howes : Owes s e.key e.observed := by
    rcases updates_owed hstep with hu | ⟨d, hu, howes⟩ <;> rw [hlands] at hu
    · exact absurd hu (by simp)
    · cases List.append_cancel_left hu
      exact howes
  have hlt : e'.observed < ls.length := by
    have := (past_reachable hreach).landed e' hlanded
    rw [tick_run hrun] at this
    exact (Nat.zero_add ls.length) ▸ this
  rw [← List.take_append_drop e'.observed ls, Machine.run_append] at hrun
  obtain ⟨s', hs', hrest⟩ := Option.bind_eq_some_iff.mp hrun
  have htick : s'.tick = e'.observed := by
    rw [tick_run hs', List.length_take, Nat.min_eq_left (Nat.le_of_lt hlt)]
    exact Nat.zero_add _
  refine ⟨_, _, s', (List.take_append_drop e'.observed ls).symm, hs', htick, ?_⟩
  rw [hkey]
  exact owes_before_run ⟨_, hs'⟩ hrest howes (htick ▸ hlater)

/-! ## A miss that lands late -/

def pull : Call := ⟨"x/y".toList, "z".toList, []⟩

/-- Call 0 finds a miss and is slow to write it; then the image is pushed, and call 1 finds it and writes its
project. -/
def overtaken : List (Label .default) :=
  [.call 0 pull, .get 0 0, .enter 0, .looked 0 (oneProject 404), .fly 0 .send, .fly 0 .remove, .land 0,
    .call 1 pull, .get 1 0, .enter 1, .looked 1 (oneProject 200), .fly 1 .send, .fly 1 .remove, .land 1, .store 1 0]

theorem late_update_was_owed_overtaken : ∃ before after s', overtaken = before ++ after ∧
    (machine .default).run init before = some s' ∧ s'.tick = 10 ∧ Owes s' pull.key 3 := by
  let s := ((machine .default).run init overtaken).get rfl
  let t := (step s (.store 0 0)).get rfl
  have hrun : (machine .default).run init overtaken = some s := rfl
  have hstep : step s (.store 0 0) = some t := rfl
  have hlands : t.updates = s.updates ++ [⟨pull.key, 3⟩] := rfl
  have hlanded : ⟨pull.key, 10⟩ ∈ s.updates := List.mem_singleton.mpr rfl
  exact late_update_was_owed hrun hstep hlands hlanded rfl (by decide)

/-- A delayed miss replaces a newer mapping. -/
theorem delayed_miss_overwrites : ∃ (ls : List (Label .default)) (l : Label .default) (s t : State .default)
    (e e' : Update), (machine .default).run init ls = some s ∧ step s l = some t ∧ t.updates = s.updates ++ [e] ∧
      e' ∈ s.updates ∧ e'.key = e.key ∧ e.observed < e'.observed ∧
      cachedProject s.cache pull.image pull.reference = some "a".toList ∧
      cachedProject t.cache pull.image pull.reference = some negativeCacheSentinel := by
  let s := ((machine .default).run init overtaken).get rfl
  let t := (step s (.store 0 0)).get rfl
  exact ⟨overtaken, .store 0 0, s, t, ⟨pull.key, 3⟩, ⟨pull.key, 10⟩, rfl, rfl, rfl, List.mem_singleton.mpr rfl, rfl,
    by decide, rfl, rfl⟩

end Manifest
end HarborRouter
