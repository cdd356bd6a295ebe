import HarborRouter.Resolver.Flights

/-!
# Where outcomes come from

Every outcome a call of `singleflight` holds or returns was found by a leader of the same key. `Carries Q` says that
all outcomes around satisfy `Q`; a step keeps it if what a leader looks up satisfies `Q` for its key.
-/

namespace HarborRouter.Singleflight
open Lib State

variable {K R : Type}

namespace Phase

/-- The call is, or was, on flight `f` of key `k`. -/
def On (k : K) (f : FlightId) : Phase K R → Prop
  | .leading k' f' | .joined k' f' | .subscribed k' f' | .woken k' f' => k' = k ∧ f' = f
  | .publishing k' f' _ | .removing k' f' _ | .led k' f' _ => k' = k ∧ f' = f
  | .waiting k' f' _ => k' = k ∧ f' = f
  | .followed k' f' _ => k' = k ∧ f' = f
  | .outside | .cancelled => False

def Has (r : R) : Phase K R → Prop
  | .publishing _ _ r' | .removing _ _ r' | .led _ _ r' => r' = r
  | .followed _ _ e => e = .received r
  | _ => False

/-- The call has found `r` as the leader of a flight. -/
def Led (r : R) : Phase K R → Prop
  | .publishing _ _ r' | .removing _ _ r' | .led _ _ r' => r' = r
  | _ => False

end Phase

/-- The flights have the keys `keyOf`, and the outcomes around satisfy `Q`. -/
structure CarriesBy (Q : K → R → Prop) (keyOf : FlightId → K) (s : State K R) : Prop where
  listed : ∀ k f, s.flights k = some f → keyOf f = k ∧ f < s.next
  named : ∀ i k f, (s.phase i).On k f → keyOf f = k ∧ f < s.next
  held : ∀ i k f r, (s.phase i).On k f → (s.phase i).Has r → Q k r
  stored : ∀ f r, (s.chan f).value = some r → Q (keyOf f) r

def Carries (Q : K → R → Prop) (s : State K R) : Prop := ∃ keyOf, CarriesBy Q keyOf s

/-- The leader's lookup of a step satisfies `Q`. -/
def Looks (Q : K → R → Prop) (s : State K R) (l : Label K R) : Prop :=
  ∀ r k f, l.act = .looked r → s.phase l.call = .leading k f → Q k r

variable {Q : K → R → Prop} {keyOf : FlightId → K}

theorem Looks.of_ne {s : State K R} {l : Label K R} (h : ∀ r, l.act ≠ .looked r) : Looks Q s l :=
  fun r _ _ ha => absurd ha (h r)

theorem carries_init [Inhabited K] : Carries Q (init : State K R) :=
  ⟨fun _ => default, nofun, fun _ _ _ h => h.elim, fun _ _ _ _ h => h.elim, nofun⟩

theorem Carries.mono {Q' : K → R → Prop} (hQ : ∀ k r, Q k r → Q' k r) {s : State K R} (h : Carries Q s) :
    Carries Q' s := by
  obtain ⟨keyOf, hs⟩ := h
  exact ⟨keyOf, hs.listed, hs.named, fun i k f r hon hr => hQ k r (hs.held i k f r hon hr),
    fun f r hv => hQ _ r (hs.stored f r hv)⟩

/-- One call moves, no flight starts and no channel stores a value. -/
theorem CarriesBy.move {s t : State K R} {i : CallId} {p : Phase K R} (hs : CarriesBy Q keyOf s)
    (hp : t.phase = Function.update s.phase i p) (hf : ∀ k f, t.flights k = some f → s.flights k = some f)
    (hn : t.next = s.next) (hv : ∀ f, (t.chan f).value = (s.chan f).value)
    (hon : ∀ k f, p.On k f → (s.phase i).On k f ∨ s.flights k = some f)
    (hhas : ∀ k f r, p.On k f → p.Has r →
      ((s.phase i).On k f ∧ (s.phase i).Has r) ∨ (s.chan f).value = some r ∨ Q k r) :
    CarriesBy Q keyOf t := by
  have hnamed : ∀ k f, p.On k f → keyOf f = k ∧ f < s.next := fun k f h =>
    (hon k f h).elim (hs.named i k f) (hs.listed k f)
  refine ⟨fun k f h => ?_, ?_, ?_, fun f r h => ?_⟩
  · rw [hn]
    exact hs.listed k f (hf k f h)
  · rw [hp, hn, Function.forall_update_iff s.phase fun _ x => ∀ k f, x.On k f → keyOf f = k ∧ f < s.next]
    exact ⟨hnamed, fun j _ => hs.named j⟩
  · rw [hp, Function.forall_update_iff s.phase fun _ x => ∀ k f r, x.On k f → x.Has r → Q k r]
    refine ⟨fun k f r h hr => ?_, fun j _ => hs.held j⟩
    rcases hhas k f r h hr with h' | h' | h'
    · exact hs.held i k f r h'.1 h'.2
    · rw [← (hnamed k f h).1]
      exact hs.stored f r h'
    · exact h'
  · rw [hv] at h
    exact hs.stored f r h

theorem CarriesBy.send {s : State K R} (hs : CarriesBy Q keyOf s) {i : CallId} {k : K} {f : FlightId} {r : R}
    (hp : s.phase i = .publishing k f r) :
    CarriesBy Q keyOf ((s.setChan f ((s.chan f).send (some r))).setPhase i (.removing k f r)) := by
  have hon : (s.phase i).On k f := by rw [hp]; exact ⟨rfl, rfl⟩
  have hhas : (s.phase i).Has r := by rw [hp]; rfl
  refine ⟨hs.listed, ?_, ?_, fun g r' h => ?_⟩
  · exact (Function.forall_update_iff s.phase fun _ x => ∀ k' f', x.On k' f' → keyOf f' = k' ∧ f' < s.next).mpr
      ⟨fun k' f' h => hs.named i k' f' (by rw [hp]; exact h), fun j _ => hs.named j⟩
  · exact (Function.forall_update_iff s.phase fun _ x => ∀ k' f' r', x.On k' f' → x.Has r' → Q k' r').mpr
      ⟨fun k' f' r' h hr => hs.held i k' f' r' (by rw [hp]; exact h) (by rw [hp]; exact hr), fun j _ => hs.held j⟩
  · simp only [chan_setPhase, chan_setChan] at h
    by_cases hg : g = f
    · subst hg
      rw [Function.update_self] at h
      by_cases hr : (s.chan g).receivers = ∅
      · rw [Watch.send_of_no_receiver hr] at h; exact hs.stored g r' h
      · rw [Watch.value_send hr] at h
        cases h
        rw [(hs.named i k g hon).1]
        exact hs.held i k g r hon hhas
    · rw [Function.update_of_ne hg] at h; exact hs.stored g r' h

variable [DecidableEq K]

theorem Stepped.phase_update {s t : State K R} {i : CallId} {a : Action K R} (h : Stepped s i a t) :
    ∃ p, t.phase = Function.update s.phase i p ∧
      (∀ k f, p.On k f → (s.phase i).On k f ∨ a = .enter k) ∧
      (∀ r, p.Led r → (s.phase i).Led r ∨ a = .looked r) ∧ (a = .drop → p = .cancelled) := by
  cases h with
  | lead k hp hk => exact ⟨_, rfl, fun _ _ h => .inr (by rw [h.1]), fun _ h => h.elim, nofun⟩
  | join k f hp hk => exact ⟨_, rfl, fun _ _ h => .inr (by rw [h.1]), fun _ h => h.elim, nofun⟩
  | looked k f r hp => exact ⟨_, rfl, fun _ _ h => .inl (by rw [hp]; exact h), fun _ h => .inr (by rw [← h]), nofun⟩
  | send k f r hp =>
      exact ⟨_, rfl, fun _ _ h => .inl (by rw [hp]; exact h), fun _ h => .inl (by rw [hp]; exact h), nofun⟩
  | remove k f r hp =>
      exact ⟨.led k f r, by simp, fun _ _ h => .inl (by rw [hp]; exact h), fun _ h => .inl (by rw [hp]; exact h), nofun⟩
  | dropLeader k f hp => exact ⟨_, rfl, fun _ _ h => h.elim, fun _ h => h.elim, fun _ => rfl⟩
  | dropFollower k f n hp => exact ⟨_, rfl, fun _ _ h => h.elim, fun _ h => h.elim, fun _ => rfl⟩
  | _ => exact ⟨_, rfl, fun _ _ h => .inl (by rw [‹s.phase i = _›]; exact h), fun _ h => h.elim, nofun⟩

theorem CarriesBy.lead {s : State K R} (hs : CarriesBy Q keyOf s) (i : CallId) (k : K) :
    CarriesBy Q (Function.update keyOf s.next k) (s.lead i k) := by
  have hold : ∀ f, f < s.next → Function.update keyOf s.next k f = keyOf f := fun f hf =>
    Function.update_of_ne (Nat.ne_of_lt hf) ..
  refine ⟨fun k' f h => ?_, ?_, ?_, fun f r h => ?_⟩
  · rw [flights_lead] at h
    by_cases hk : k' = k
    · subst hk
      rw [Function.update_self] at h
      cases h
      exact ⟨Function.update_self .., Nat.lt_succ_self _⟩
    · rw [Function.update_of_ne hk] at h
      obtain ⟨hkey, hlt⟩ := hs.listed k' f h
      exact ⟨(hold f hlt).trans hkey, Nat.lt_succ_of_lt hlt⟩
  · refine (Function.forall_update_iff s.phase fun _ x =>
      ∀ k' f, x.On k' f → Function.update keyOf s.next k f = k' ∧ f < s.next + 1).mpr
        ⟨fun k' f h => ?_, fun j _ k' f h => ?_⟩
    · obtain ⟨rfl, rfl⟩ := h
      exact ⟨Function.update_self .., Nat.lt_succ_self _⟩
    · obtain ⟨hkey, hlt⟩ := hs.named j k' f h
      exact ⟨(hold f hlt).trans hkey, Nat.lt_succ_of_lt hlt⟩
  · exact (Function.forall_update_iff s.phase fun _ x => ∀ k' f r, x.On k' f → x.Has r → Q k' r).mpr
      ⟨fun k' f r _ hr => hr.elim, fun j _ => hs.held j⟩
  · by_cases hf : f = s.next
    · subst hf
      simp [State.lead] at h
    · simp only [State.lead, Function.update_of_ne hf] at h ⊢
      exact hs.stored f r h

theorem carries_step {s t : State K R} {l : Label K R} (hs : Carries Q s) (hl : Looks Q s l)
    (h : step s l = some t) : Carries Q t := by
  obtain ⟨keyOf, hs⟩ := hs
  obtain ⟨i, a⟩ := l
  have hstep := step_cases h
  dsimp only at hstep
  cases hstep with
  | lead k hp hk => exact ⟨_, hs.lead i k⟩
  | join k f hp hk =>
      refine ⟨keyOf, hs.move rfl (fun _ _ h => h) rfl (by simp) (fun k' f' h => ?_) fun _ _ _ _ h => h.elim⟩
      obtain ⟨rfl, rfl⟩ := h
      exact .inr hk
  | looked k f r hp =>
      refine ⟨keyOf, hs.move rfl (fun _ _ h => h) rfl (by simp) (fun k' f' h => .inl (by rw [hp]; exact h)) ?_⟩
      rintro k' f' r' ⟨rfl, rfl⟩ rfl
      exact .inr (.inr (hl r k f rfl hp))
  | send k f r hp => exact ⟨keyOf, hs.send hp⟩
  | remove k f r hp =>
      refine ⟨keyOf, hs.move (i := i) (p := .led k f r) (by simp) (fun k' f' h => ?_) (by simp) (by simp)
        (fun k' f' h => .inl (by rw [hp]; exact h))
        fun k' f' r' h hr => .inl ⟨by rw [hp]; exact h, by rw [hp]; exact hr⟩⟩
      rw [flights_leave, flights_removeKey] at h
      exact of_erase_eq_some h
  | subscribe k f hp =>
      refine ⟨keyOf, hs.move rfl (fun _ _ h => h) rfl (fun g => ?_) (fun k' f' h => .inl (by rw [hp]; exact h))
        fun _ _ _ _ h => h.elim⟩
      by_cases hg : g = f <;> simp [hg]
  | found k f r hp hv =>
      refine ⟨keyOf, hs.move rfl (fun _ _ h => h) rfl (by simp) (fun k' f' h => .inl (by rw [hp]; exact h)) ?_⟩
      rintro k' f' r' ⟨rfl, rfl⟩ hr
      cases hr
      exact .inr (.inl hv)
  | wait k f hp hv =>
      exact ⟨keyOf, hs.move rfl (fun _ _ h => h) rfl (by simp) (fun k' f' h => .inl (by rw [hp]; exact h))
        fun _ _ _ _ h => h.elim⟩
  | wake k f n hp hc =>
      exact ⟨keyOf, hs.move rfl (fun _ _ h => h) rfl (by simp) (fun k' f' h => .inl (by rw [hp]; exact h))
        fun _ _ _ _ h => h.elim⟩
  | close k f n hp hc =>
      exact ⟨keyOf, hs.move rfl (fun _ _ h => h) rfl (by simp) (fun k' f' h => .inl (by rw [hp]; exact h))
        fun _ _ _ _ h => nomatch h⟩
  | time k f n hp hc =>
      exact ⟨keyOf, hs.move rfl (fun _ _ h => h) rfl (by simp) (fun k' f' h => .inl (by rw [hp]; exact h))
        fun _ _ _ _ h => nomatch h⟩
  | read k f r hp hv =>
      refine ⟨keyOf, hs.move rfl (fun _ _ h => h) rfl (by simp) (fun k' f' h => .inl (by rw [hp]; exact h)) ?_⟩
      rintro k' f' r' ⟨rfl, rfl⟩ hr
      cases hr
      exact .inr (.inl hv)
  | readEmpty k f hp hv =>
      exact ⟨keyOf, hs.move rfl (fun _ _ h => h) rfl (by simp) (fun k' f' h => .inl (by rw [hp]; exact h))
        fun _ _ _ _ h => nomatch h⟩
  | dropLeader k f hp =>
      exact ⟨keyOf, hs.move rfl (fun _ _ h => h) rfl (by simp) (fun _ _ h => h.elim) fun _ _ _ h => h.elim⟩
  | dropFollower k f n hp =>
      exact ⟨keyOf, hs.move rfl (fun _ _ h => h) rfl (by simp) (fun _ _ h => h.elim) fun _ _ _ h => h.elim⟩

end HarborRouter.Singleflight
