import HarborRouter.Lib.Maps
import HarborRouter.Resolver.Singleflight

/-!
# Who owns a flight

`Owned` is the unconditional invariant: a running leader's flight is in the map under its key and is led by nobody
else. Whether every flight in the map has a running leader (`Live`) depends on the schedule.

* `Handover` : what a step does to the flights and their leaders;
* `owned_step` : ownership is kept;
* `live_step_iff` : a step keeps all flights live exactly when it does not drop a leader that awaits its lookup;
* `orphan_step` : a flight without a leader stays.
-/

namespace HarborRouter.Singleflight
open Lib State

variable {K R : Type}

/-! ## Leaders -/

/-- The call runs as the leader of flight `f` of key `k`, and has not removed it yet. -/
def Phase.Leads (k : K) (f : FlightId) : Phase K R → Prop
  | .leading k' f' => k' = k ∧ f' = f
  | .publishing k' f' _ => k' = k ∧ f' = f
  | .removing k' f' _ => k' = k ∧ f' = f
  | _ => False

/-- A running leader's flight is in the map under its key, and nobody else leads it. -/
structure Owned (s : State K R) : Prop where
  fresh : ∀ k f, s.flights k = some f → f < s.next
  entry : ∀ i k f, (s.phase i).Leads k f → s.flights k = some f
  unique : ∀ i j k k' f, (s.phase i).Leads k f → (s.phase j).Leads k' f → i = j

theorem leads_update_iff {phase : CallId → Phase K R} {i j : CallId} {p : Phase K R} {k : K} {f : FlightId} :
    (Function.update phase i p j).Leads k f ↔ j = i ∧ p.Leads k f ∨ j ≠ i ∧ (phase j).Leads k f :=
  Function.pred_update (fun _ (q : Phase K R) => q.Leads k f) ..

theorem leads_update {s : State K R} {i : CallId} {p : Phase K R}
    (h : ∀ k f, p.Leads k f ↔ (s.phase i).Leads k f) (j : CallId) (k : K) (f : FlightId) :
    (Function.update s.phase i p j).Leads k f ↔ (s.phase j).Leads k f := by
  by_cases hj : j = i
  · subst hj; rw [Function.update_self]; exact h k f
  · rw [Function.update_of_ne hj]

theorem leads_of_update {phase : CallId → Phase K R} {i j : CallId} {p : Phase K R} {k : K} {f : FlightId}
    (hp : ¬ p.Leads k f) (h : (Function.update phase i p j).Leads k f) : j ≠ i ∧ (phase j).Leads k f :=
  (leads_update_iff.mp h).resolve_left fun h => hp h.2

theorem owned_init : Owned (init : State K R) := by
  constructor <;> intros <;> simp_all [init, Phase.Leads]

variable [DecidableEq K]

/-- What a step does to the map and to the leaders: it starts a flight, a leader removes its own, a leader is
dropped, or nothing changes. -/
inductive Handover (s : State K R) (i : CallId) (a : Action K R) (t : State K R) : Prop
  | starts (k : K) (ho : s.phase i = .outside) (hk : s.flights k = none)
      (hf : t.flights = Function.update s.flights k (some s.next)) (hn : t.next = s.next + 1)
      (hp : t.phase = Function.update s.phase i (.leading k s.next))
  | removes (k : K) (f : FlightId) (r : R) (hs : s.phase i = .removing k f r)
      (hf : t.flights = Function.update s.flights k none) (hn : t.next = s.next)
      (hp : t.phase = Function.update s.phase i (.led k f r))
  | drops (k : K) (f : FlightId) (ha : a = .drop) (hs : s.phase i = .leading k f) (hf : t.flights = s.flights)
      (hn : t.next = s.next) (hp : t.phase = Function.update s.phase i .cancelled)
  | keeps (hf : t.flights = s.flights) (hn : t.next = s.next)
      (hl : ∀ j k f, (t.phase j).Leads k f ↔ (s.phase j).Leads k f)
      (hd : a = .drop → ∀ k f, s.phase i ≠ .leading k f)

theorem Stepped.handover {s t : State K R} {i : CallId} {a : Action K R} (h : Stepped s i a t) :
    Handover s i a t := by
  cases h with
  | lead k hp hk => exact .starts k hp hk rfl rfl rfl
  | remove k f r hp => exact .removes k f r hp (by simp) (by simp) (by simp)
  | dropLeader k f hp => exact .drops k f rfl hp rfl rfl rfl
  | _ =>
      refine .keeps rfl rfl (fun j k f => leads_update (fun k f => ?_) j k f) fun ha => ?_
      · simp_all [Phase.Leads]
      · first
          | (cases ha; done)
          | (rw [‹s.phase i = _›]; simp)

theorem owned_step {s t : State K R} {l : Label K R} (hs : Owned s) (h : step s l = some t) : Owned t := by
  cases (step_cases h).handover with
  | starts k hout hk hf hn hp =>
      have hnew : ∀ j k' f', (t.phase j).Leads k' f' →
          (j = l.call ∧ k' = k ∧ f' = s.next) ∨ (s.phase j).Leads k' f' ∧ k' ≠ k ∧ f' < s.next := by
        intro j k' f' hl
        rw [hp] at hl
        rcases leads_update_iff.mp hl with ⟨rfl, rfl, rfl⟩ | ⟨-, hl⟩
        · exact .inl ⟨rfl, rfl, rfl⟩
        · have he := hs.entry j k' f' hl
          refine .inr ⟨hl, ?_, hs.fresh k' f' he⟩
          rintro rfl
          rw [hk] at he
          cases he
      refine ⟨fun k' f' h' => ?_, fun j k' f' hl => ?_, fun j j' k' k'' f' hl hl' => ?_⟩
      · rw [hn]
        rw [hf] at h'
        rcases insert_eq_some_iff.mp h' with ⟨-, rfl⟩ | ⟨-, h'⟩
        · exact Nat.lt_succ_self _
        · exact Nat.lt_succ_of_lt (hs.fresh k' f' h')
      · rw [hf]
        rcases hnew j k' f' hl with ⟨-, rfl, rfl⟩ | ⟨hl, hkk, -⟩
        · exact Function.update_self ..
        · rw [Function.update_of_ne hkk]
          exact hs.entry j k' f' hl
      · rcases hnew j k' f' hl with ⟨rfl, -, he⟩ | ⟨hl, -, hlt⟩ <;>
          rcases hnew j' k'' f' hl' with ⟨rfl, -, he'⟩ | ⟨hl', -, hlt'⟩
        · rfl
        · exact absurd he (Nat.ne_of_lt hlt')
        · exact absurd he' (Nat.ne_of_lt hlt)
        · exact hs.unique j j' k' k'' f' hl hl'
  | removes k f r hsi hf hn hp =>
      have hold : ∀ j k' f', (t.phase j).Leads k' f' → (s.phase j).Leads k' f' ∧ j ≠ l.call := by
        intro j k' f' hl
        rw [hp] at hl
        exact (leads_of_update id hl).symm
      have hlead : (s.phase l.call).Leads k f := by rw [hsi]; exact ⟨rfl, rfl⟩
      refine ⟨fun k' f' h' => ?_, fun j k' f' hl => ?_, fun j j' k' k'' f' hl hl' =>
        hs.unique j j' k' k'' f' (hold _ _ _ hl).1 (hold _ _ _ hl').1⟩
      · rw [hn]
        rw [hf] at h'
        exact hs.fresh k' f' (of_erase_eq_some h')
      · obtain ⟨hl, hj⟩ := hold j k' f' hl
        have he := hs.entry j k' f' hl
        have hkk : k' ≠ k := by
          rintro rfl
          -- another leader of the same key would lead the same flight
          rw [hs.entry _ _ _ hlead] at he
          cases he
          exact hj (hs.unique j l.call k' k' f hl hlead)
        rw [hf, Function.update_of_ne hkk]
        exact he
  | drops k f ha hsi hf hn hp =>
      have hold : ∀ j k' f', (t.phase j).Leads k' f' → (s.phase j).Leads k' f' := by
        intro j k' f' hl
        rw [hp] at hl
        exact (leads_of_update id hl).2
      refine ⟨fun k' f' h' => ?_, fun j k' f' hl => ?_, fun j j' k' k'' f' hl hl' =>
        hs.unique j j' k' k'' f' (hold _ _ _ hl) (hold _ _ _ hl')⟩
      · rw [hn]; rw [hf] at h'; exact hs.fresh k' f' h'
      · rw [hf]; exact hs.entry j k' f' (hold _ _ _ hl)
  | keeps hf hn hl _ =>
      refine ⟨fun k' f' h' => ?_, fun j k' f' h' => ?_, fun j j' k' k'' f' h' h'' => ?_⟩
      · rw [hn]; rw [hf] at h'; exact hs.fresh k' f' h'
      · rw [hf]; exact hs.entry j k' f' ((hl _ _ _).mp h')
      · exact hs.unique j j' k' k'' f' ((hl _ _ _).mp h') ((hl _ _ _).mp h'')

/-! ## Live flights -/

/-- Every flight in the map has a running leader. -/
def Live (s : State K R) : Prop := ∀ k f, s.flights k = some f → ∃ i, (s.phase i).Leads k f

/-- The future of a call that awaits `parallel_lookup` as a leader is dropped. -/
def DropsLeader (s : State K R) (l : Label K R) : Prop := l.act = .drop ∧ ∃ k f, s.phase l.call = .leading k f

/-- A step keeps every flight live unless it drops a leader. -/
theorem live_step_iff {s t : State K R} {l : Label K R} (ho : Owned s) (hs : Live s) (h : step s l = some t) :
    Live t ↔ ¬ DropsLeader s l := by
  cases (step_cases h).handover with
  | starts k hout hk hf hn hp =>
      refine ⟨fun _ ⟨_, k', f', hd⟩ => (by rw [hout] at hd; cases hd), fun _ k' f' h' => ?_⟩
      rw [hf] at h'
      rcases insert_eq_some_iff.mp h' with ⟨rfl, rfl⟩ | ⟨-, h'⟩
      · exact ⟨l.call, by rw [hp, Function.update_self]; exact ⟨rfl, rfl⟩⟩
      · obtain ⟨i, hi⟩ := hs k' f' h'
        refine ⟨i, ?_⟩
        rw [hp, Function.update_of_ne (by rintro rfl; rw [hout] at hi; exact hi)]
        exact hi
  | removes k f r hsi hf hn hp =>
      refine ⟨fun _ ⟨_, k', f', hd⟩ => (by rw [hsi] at hd; cases hd), fun _ k' f' h' => ?_⟩
      rw [hf] at h'
      obtain ⟨hkk, h'⟩ := erase_eq_some_iff.mp h'
      obtain ⟨i, hi⟩ := hs k' f' h'
      refine ⟨i, ?_⟩
      rw [hp, Function.update_of_ne (by rintro rfl; rw [hsi] at hi; exact hkk hi.1.symm)]
      exact hi
  | drops k f ha hsi hf hn hp =>
      refine ⟨fun ht => ?_, fun hd => absurd ⟨ha, k, f, hsi⟩ hd⟩
      have hlead : (s.phase l.call).Leads k f := by rw [hsi]; exact ⟨rfl, rfl⟩
      obtain ⟨j, hj⟩ := ht k f (by rw [hf]; exact ho.entry _ _ _ hlead)
      rw [hp] at hj
      obtain ⟨hji, hj⟩ := leads_of_update id hj
      exact absurd (ho.unique _ _ _ _ _ hj hlead) hji
  | keeps hf hn hl hd =>
      refine ⟨fun _ ⟨ha, k', f', hp⟩ => hd ha k' f' hp, fun _ k' f' h' => ?_⟩
      rw [hf] at h'
      obtain ⟨i, hi⟩ := hs k' f' h'
      exact ⟨i, (hl _ _ _).mpr hi⟩

/-! ## Leaders clear their keys, orphans stay -/

theorem removing_clears {s : State K R} {i : CallId} {k : K} {f : FlightId} {r : R}
    (h : s.phase i = .removing k f r) :
    ∃ t, step s ⟨i, .remove⟩ = some t ∧ t.flights k = none ∧ t.phase i = .led k f r :=
  ⟨(s.removeKey k).leave i f (.led k f r), by simp only [step, h], by simp, by simp⟩

theorem publishing_steps {s : State K R} {i : CallId} {k : K} {f : FlightId} {r : R}
    (h : s.phase i = .publishing k f r) : ∃ t, step s ⟨i, .send⟩ = some t ∧ t.phase i = .removing k f r :=
  ⟨(s.setChan f ((s.chan f).send (some r))).setPhase i (.removing k f r), by simp only [step, h], by simp⟩

theorem leading_steps {s : State K R} {i : CallId} {k : K} {f : FlightId} (h : s.phase i = .leading k f) (r : R) :
    ∃ t, step s ⟨i, .looked r⟩ = some t ∧ t.phase i = .publishing k f r :=
  ⟨s.setPhase i (.publishing k f r), by simp only [step, h], by simp⟩

/-- The flight of key `k` is in the map, and no call leads it. -/
def Orphan (k : K) (f : FlightId) (s : State K R) : Prop :=
  s.flights k = some f ∧ ∀ i, ¬ (s.phase i).Leads k f

/-- An orphan is there for ever: only its own leader would remove it. -/
theorem orphan_step {s t : State K R} {l : Label K R} {k : K} {f : FlightId} (ho : Owned s) (hs : Orphan k f s)
    (h : step s l = some t) : Orphan k f t := by
  obtain ⟨hk, hno⟩ := hs
  cases (step_cases h).handover with
  | starts k' hout hk' hf hn hp =>
      have hkk : k ≠ k' := by rintro rfl; rw [hk] at hk'; cases hk'
      refine ⟨by rw [hf, Function.update_of_ne hkk]; exact hk, fun i hi => ?_⟩
      rw [hp] at hi
      have hnew : ¬ (Phase.leading k' s.next : Phase K R).Leads k f := fun h => hkk h.1.symm
      exact hno i (leads_of_update hnew hi).2
  | removes k' f' r hs' hf hn hp =>
      have hlead : (s.phase l.call).Leads k' f' := by rw [hs']; exact ⟨rfl, rfl⟩
      have hkk : k ≠ k' := by
        rintro rfl
        have := ho.entry _ _ _ hlead
        rw [hk] at this
        cases this
        exact hno _ hlead
      refine ⟨by rw [hf, Function.update_of_ne hkk]; exact hk, fun i hi => ?_⟩
      rw [hp] at hi
      exact hno i (leads_of_update id hi).2
  | drops k' f' ha hs' hf hn hp =>
      refine ⟨by rw [hf]; exact hk, fun i hi => ?_⟩
      rw [hp] at hi
      exact hno i (leads_of_update id hi).2
  | keeps hf hn hl hd => exact ⟨by rw [hf]; exact hk, fun i hi => hno i ((hl _ _ _).mp hi)⟩

end HarborRouter.Singleflight
