import HarborRouter.Resolver.Provenance

/-!
# Live leaders

The handler's future is dropped when the client disconnects, and with it the call of `resolve_manifest`, at whichever
await it stands. The flight that the call leads stays in the map.

* `Live` : every flight in the map belongs to a running leader, whose own steps publish and remove it;
* `live_iff_leaders_undropped` : a schedule keeps all flights live exactly when it drops no leader;
* `dropped_leader_strands_key` : one disconnect strands a key for ever.
-/

namespace HarborRouter.Manifest
open Lib

variable {cfg : Config}

/-- Whatever its fan-out finds, the call's own steps lead to a state without a flight of the key. -/
def Clears (s : State cfg) (i : CallId) (key : Text) : Prop :=
  ∀ f : Fanout cfg.maxFanout, ∃ ls t, ls ⊆ [.looked i f, .fly i .send, .fly i .remove] ∧
    (machine cfg).run s ls = some t ∧ t.flight.flights key = none

/-- Every flight in the map is led by a running call that clears its key. -/
def Live (s : State cfg) : Prop :=
  ∀ key f, s.flight.flights key = some f → ∃ i, (s.flight.phase i).Leads key f ∧ Clears s i key

def DropsLeader (s : State cfg) (l : Label cfg) : Prop :=
  ∃ i key f, l = .drop i ∧ s.flight.phase i = .leading key f

section Clears
variable {s : State cfg} {i : CallId} {key : Text} {g : FlightId} {l : Lookup cfg} {c : Call}

def Cleared (i : CallId) (key : Text) (g : FlightId) (l : Lookup cfg) (c : Call) (t : State cfg) : Prop :=
  t.flight.flights key = none ∧ t.flight.phase i = .led key g l ∧ t.stage i = .flying c

theorem removing_clears (hc : s.stage i = .flying c) (hp : s.flight.phase i = .removing key g l) :
    ∃ t, (machine cfg).run s [.fly i .remove] = some t ∧ Cleared i key g l c t := by
  obtain ⟨fl, hfl, hnone, hled⟩ := Singleflight.removing_clears hp
  have hstep : (machine cfg).step s (.fly i .remove) = some (s.setFlight fl).advance := by
    simp [machine, step, move, hc, inner, hfl]
  exact ⟨_, Machine.run_cons_some _ hstep [], hnone, hled, hc⟩

theorem publishing_clears (hc : s.stage i = .flying c) (hp : s.flight.phase i = .publishing key g l) :
    ∃ t, (machine cfg).run s [.fly i .send, .fly i .remove] = some t ∧ Cleared i key g l c t := by
  obtain ⟨fl, hfl, hp'⟩ := Singleflight.publishing_steps hp
  have hstep : (machine cfg).step s (.fly i .send) = some (s.setFlight fl).advance := by
    simp [machine, step, move, hc, inner, hfl]
  obtain ⟨t, ht, hcleared⟩ := removing_clears (s := (s.setFlight fl).advance) hc hp'
  exact ⟨t, (Machine.run_cons_some _ hstep _).trans ht, hcleared⟩

theorem leading_clears (hc : s.stage i = .flying c) (hp : s.flight.phase i = .leading key g)
    (f : Fanout cfg.maxFanout) : ∃ t, (machine cfg).run s [.looked i f, .fly i .send, .fly i .remove] = some t ∧
      Cleared i key g ⟨c, f, s.tick⟩ c t := by
  obtain ⟨fl, hfl, hp'⟩ := Singleflight.leading_steps hp ⟨c, f, s.tick⟩
  let u : State cfg := ((s.setFlight fl).serve c.image (servers c f)).advance
  have hstep : (machine cfg).step s (.looked i f) = some u := by
    simp [machine, step, move, hc, hfl, u]
  obtain ⟨t, ht, hcleared⟩ := publishing_clears (s := u) hc hp'
  exact ⟨t, (Machine.run_cons_some _ hstep _).trans ht, hcleared⟩

theorem leads_clears (hs : Staged s) (h : (s.flight.phase i).Leads key g) : Clears s i key := by
  obtain ⟨c, hc⟩ := hs.running i key g h
  intro f
  cases hp : s.flight.phase i with
  | leading k g' =>
      rw [hp] at h
      obtain ⟨rfl, rfl⟩ := h
      obtain ⟨t, ht, hcleared⟩ := leading_clears hc hp f
      exact ⟨_, t, List.Subset.refl _, ht, hcleared.1⟩
  | publishing k g' r =>
      rw [hp] at h
      obtain ⟨rfl, rfl⟩ := h
      obtain ⟨t, ht, hcleared⟩ := publishing_clears hc hp
      exact ⟨_, t, by simp, ht, hcleared.1⟩
  | removing k g' r =>
      rw [hp] at h
      obtain ⟨rfl, rfl⟩ := h
      obtain ⟨t, ht, hcleared⟩ := removing_clears hc hp
      exact ⟨_, t, by simp, ht, hcleared.1⟩
  | _ => rw [hp] at h; exact h.elim

end Clears

theorem live_iff {s : State cfg} (hs : Staged s) : Live s ↔ Singleflight.Live s.flight := by
  constructor
  · intro h key f hf
    obtain ⟨i, hi, -⟩ := h key f hf
    exact ⟨i, hi⟩
  · intro h key f hf
    obtain ⟨i, hi⟩ := h key f hf
    exact ⟨i, hi, leads_clears hs hi⟩

/-- A step drops a leader here exactly when its step of `singleflight` does. -/
theorem dropsLeader_iff {s : State cfg} (hs : Staged s) {l : Label cfg}
    {l' : Singleflight.Label Text (Lookup cfg)} (hl : flightLabel s l = some l') :
    Singleflight.DropsLeader s.flight l' ↔ DropsLeader s l := by
  constructor
  · rintro ⟨hact, key, f, hp⟩
    cases l with
    | drop i =>
        rw [flightLabel] at hl
        split at hl <;> cases hl
        exact ⟨i, key, f, rfl, hp⟩
    | fly i a =>
        rw [flightLabel] at hl
        split at hl
        · rename_i hin
          cases hl
          dsimp only at hact
          rw [hact] at hin
          cases hin
        · cases hl
    | enter i => rw [flightLabel] at hl; split at hl <;> cases hl; cases hact
    | looked i g => rw [flightLabel] at hl; split at hl <;> cases hl; cases hact
    | _ => cases hl
  · rintro ⟨i, key, f, rfl, hp⟩
    obtain ⟨c, hc⟩ := hs.running i key f (by rw [hp]; exact ⟨rfl, rfl⟩)
    simp only [flightLabel, hc, Option.some.injEq] at hl
    subst hl
    exact ⟨rfl, key, f, hp⟩

theorem live_step_iff {s t : State cfg} {l : Label cfg} (ho : Singleflight.Owned s.flight) (hs : Staged s)
    (hlive : Live s) (h : step s l = some t) : Live t ↔ ¬ DropsLeader s l := by
  rw [live_iff (staged_step hs h)]
  rw [live_iff hs] at hlive
  obtain ⟨u, hu, rfl⟩ := step_cases h
  rcases moved_flight hu with ⟨hl, hstay⟩ | ⟨l', hl, hmove⟩
  · change Singleflight.Live u.flight ↔ _
    rw [hstay]
    refine ⟨fun _ hd => ?_, fun _ => hlive⟩
    obtain ⟨i, key, f, rfl, hp⟩ := hd
    -- a leader flies, so dropping it is a step of `singleflight`
    obtain ⟨c, hc⟩ := hs.running i key f (by rw [hp]; exact ⟨rfl, rfl⟩)
    simp only [flightLabel, hc] at hl
    cases hl
  · change Singleflight.Live u.flight ↔ _
    rw [Singleflight.live_step_iff ho hlive hmove, dropsLeader_iff hs hl]

/-- Every flight keeps a running leader exactly as long as no leader is dropped, whatever calls, disconnects and
refreshes do in between. -/
theorem live_iff_leaders_undropped (ls : List (Label cfg)) :
    (machine cfg).Always Live init ls ↔ (machine cfg).Guarded (fun s l => ¬ DropsLeader s l) init ls :=
  Machine.always_iff_guarded (I := fun s => Singleflight.Owned s.flight ∧ Staged s)
    (fun _ _ _ hs h => ⟨owned_step hs.1 h, staged_step hs.2 h⟩)
    (fun _ _ _ hs hlive h => live_step_iff hs.1 hs.2 hlive h)
    ⟨Singleflight.owned_init, staged_init⟩ nofun

/-- A flight without a leader is there for ever, and every later request of its key follows nobody. -/
theorem orphan_run {s t : State cfg} {ls : List (Label cfg)} {key : Text} {f : FlightId}
    (hs : (machine cfg).Reachable s) (ho : Singleflight.Orphan key f s.flight) (h : (machine cfg).run s ls = some t) :
    Singleflight.Orphan key f t.flight := by
  let I : Singleflight.State Text (Lookup cfg) → Prop := fun fl => Singleflight.Owned fl ∧ Singleflight.Orphan key f fl
  have hI : ∀ fl l fl', I fl → Singleflight.step fl l = some fl' → I fl' := fun _ _ _ hI hstep =>
    ⟨Singleflight.owned_step hI.1 hstep, Singleflight.orphan_step hI.1 hI.2 hstep⟩
  exact (Machine.run_rule (I := fun s : State cfg => I s.flight) (flights.keeps hI) ⟨owned_reachable hs, ho⟩ h).2

/-- A client asks for `a/b:c` and disconnects during the fan-out: the flight stays, and no run ever removes it. -/
theorem dropped_leader_strands_key : ∃ (ls : List (Label .default)) (s : State .default),
    (machine .default).run init ls = some s ∧ ¬ Live s ∧
      ∀ ms t, (machine .default).run s ms = some t → Singleflight.Orphan "a/b:c".toList 0 t.flight := by
  let c : Call := ⟨"a/b".toList, "c".toList, []⟩
  let ls : List (Label .default) := [.call 0 c, .get 0 0, .enter 0, .drop 0]
  let s := ((machine .default).run init ls).get rfl
  have hs : (machine .default).run init ls = some s := rfl
  have horphan : Singleflight.Orphan "a/b:c".toList 0 s.flight := by
    refine ⟨rfl, fun i => ?_⟩
    cases i with
    | zero => exact id
    | succ i => exact id
  refine ⟨ls, s, hs, fun hlive => ?_, fun ms t hrun => ?_⟩
  · obtain ⟨i, hi, -⟩ := hlive _ _ horphan.1
    exact horphan.2 i hi
  · exact orphan_run ⟨ls, hs⟩ horphan hrun

end HarborRouter.Manifest
