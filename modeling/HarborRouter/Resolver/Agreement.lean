import HarborRouter.Resolver.Wakeup

/-!
# Leaders and followers agree

`Heeded` is the followers' half of the unconditional invariant: a follower holds a sender of its channel as long as it
runs, one that is woken finds a value, and what it returns with is what its leader has sent, or a time-out.

* `heeded_step` : every step keeps it, so no follower ever finds its channel closed or empty;
* `flights_step` : what leaves the map is taken out by its leader;
* `followers_agree` : leadership, agreement and an empty map at rest, for calls that are not cancelled.
-/

namespace HarborRouter.Singleflight
open Lib State

variable {K R : Type}

def Phase.Running : Phase K R → Prop
  | .outside | .led .. | .followed .. | .cancelled => False
  | _ => True

theorem Phase.Leads.running {k : K} {f : FlightId} {p : Phase K R} (h : p.Leads k f) : p.Running := by
  cases p <;> first | exact trivial | exact h.elim

/-! ## Senders -/

section Senders
variable {s : State K R} {i j : CallId} {f g : FlightId} {p : Phase K R} {k : K}

theorem call_mem_senders_leave (hj : j ≠ i) :
    Holder.call j ∈ ((s.leave i f p).chan g).senders ↔ Holder.call j ∈ (s.chan g).senders := by
  rw [chan_leave]
  split
  · rename_i hg
    subst hg
    simp [Watch.dropSender, Watch.dropReceiver, hj]
  · rfl

theorem call_mem_senders_removeKey [DecidableEq K] :
    Holder.call j ∈ ((s.removeKey k).chan g).senders ↔ Holder.call j ∈ (s.chan g).senders := by
  rw [chan_removeKey]
  split <;> simp [Watch.dropSender]

theorem call_mem_senders_join (h : Holder.call j ∈ (s.chan g).senders) :
    Holder.call j ∈ ((s.join i k f).chan g).senders := by
  rw [chan_join]
  split
  · rename_i hg
    subst hg
    exact Finset.mem_insert_of_mem h
  · exact h

theorem senders_setChan {w : Watch Holder CallId (Option R)} (h : w.senders = (s.chan f).senders) :
    ((s.setChan f w).chan g).senders = (s.chan g).senders := by
  by_cases hg : g = f
  · subst hg
    rw [chan_setChan, Function.update_self, h]
  · rw [chan_setChan, Function.update_of_ne hg]

/-- A channel with a sender is not closed. -/
theorem changed_ne_closed {S V : Type} [DecidableEq S] {w : Watch S CallId V} {seen : Nat} {a : S}
    (h : a ∈ w.senders) : w.changed seen ≠ .closed := by
  unfold Watch.changed
  split
  · exact nofun
  · rw [if_neg (Finset.ne_empty_of_mem h)]
    exact nofun

end Senders

/-! ## The followers' half of the invariant -/

structure Heeded (s : State K R) : Prop where
  held : ∀ j f, (s.phase j).Holds f → Holder.call j ∈ (s.chan f).senders
  woken : ∀ j k f, s.phase j = .woken k f → (s.chan f).value ≠ none
  returned : ∀ j k f e, s.phase j = .followed k f e →
    e = .timedOut ∨ ∃ r, e = .received r ∧ ∃ i, (s.phase i).Sent f r

theorem heeded_init : Heeded (init : State K R) := by
  constructor <;> intros <;> simp_all [init, Phase.Holds]

/-- One call moves: enough to look at its new phase, at the other followers' senders and at the values. -/
theorem Heeded.move {s t : State K R} {i : CallId} {p : Phase K R} (h : Heeded s) (hw : Wired s)
    (hp : t.phase = Function.update s.phase i p)
    (hsenders : ∀ j f, j ≠ i → f < s.next → Holder.call j ∈ (s.chan f).senders → Holder.call j ∈ (t.chan f).senders)
    (hvalue : ∀ f, f < s.next → (s.chan f).value ≠ none → (t.chan f).value ≠ none)
    (hsent : ∀ f r, (s.phase i).Sent f r → p.Sent f r)
    (hheld : ∀ f, p.Holds f → Holder.call i ∈ (t.chan f).senders)
    (hwoken : ∀ k f, p = .woken k f → (t.chan f).value ≠ none)
    (hreturned : ∀ k f e, p = .followed k f e → e = .timedOut ∨ ∃ r, e = .received r ∧ ∃ j, (s.phase j).Sent f r) :
    Heeded t := by
  have hstays : ∀ f r, (∃ j, (s.phase j).Sent f r) → ∃ j, (t.phase j).Sent f r := by
    intro f r ⟨j, hj⟩
    refine ⟨j, ?_⟩
    rw [hp, phase_update_iff (Phase.Sent f r)]
    by_cases hji : j = i
    · subst hji; exact .inl ⟨rfl, hsent f r hj⟩
    · exact .inr ⟨hji, hj⟩
  have hreceived : ∀ (f : FlightId) (e : FlightEnd R),
      (e = .timedOut ∨ ∃ r, e = .received r ∧ ∃ j, (s.phase j).Sent f r) →
      e = .timedOut ∨ ∃ r, e = .received r ∧ ∃ j, (t.phase j).Sent f r := by
    rintro f e (he | ⟨r, he, hr⟩)
    · exact .inl he
    · exact .inr ⟨r, he, hstays f r hr⟩
  refine ⟨fun j f hj => ?_, fun j k f hj => ?_, fun j k f e hj => ?_⟩
  · rw [hp, phase_update_iff (Phase.Holds f)] at hj
    rcases hj with ⟨rfl, hj⟩ | ⟨hji, hj⟩
    · exact hheld f hj
    · exact hsenders j f hji (hw.holderKnown j f hj) (h.held j f hj)
  · rw [hp, phase_update_iff (fun x => x = .woken k f)] at hj
    rcases hj with ⟨-, hj⟩ | ⟨-, hj⟩
    · exact hwoken k f hj
    · exact hvalue f (hw.holderKnown j f (by rw [hj]; rfl)) (h.woken j k f hj)
  · rw [hp, phase_update_iff (fun x => x = .followed k f e)] at hj
    rcases hj with ⟨-, hj⟩ | ⟨-, hj⟩
    · exact hreceived f e (hreturned k f e hj)
    · exact hreceived f e (h.returned j k f e hj)

theorem Heeded.leave {s : State K R} {i : CallId} {f : FlightId} {p : Phase K R} (h : Heeded s) (hw : Wired s)
    (hsent : ∀ g r, ¬ (s.phase i).Sent g r) (hheld : ∀ g, ¬ p.Holds g)
    (hreturned : ∀ k g e, p = .followed k g e → e = .timedOut ∨ ∃ r, e = .received r ∧ ∃ j, (s.phase j).Sent g r) :
    Heeded (s.leave i f p) := by
  refine h.move hw rfl (fun j g hj _ hm => (call_mem_senders_leave hj).mpr hm) (fun g _ hv => ?_)
    (fun g r hs => absurd hs (hsent g r)) (fun g hg => absurd hg (hheld g)) (fun k g hp => ?_) hreturned
  · rw [value_leave]; exact hv
  · subst hp; exact absurd rfl (hheld g)

variable [DecidableEq K]

theorem heeded_step {s t : State K R} {l : Label K R} (hw : Wired s) (hs : Heeded s) (h : step s l = some t) :
    Heeded t := by
  obtain ⟨i, a⟩ := l
  have hstep := step_cases h
  dsimp only at hstep
  cases hstep with
  | lead k hp hk =>
      have hold : ∀ g, g < s.next → (s.lead i k).chan g = s.chan g := fun g hg => by
        simp [Nat.ne_of_lt hg]
      refine hs.move hw rfl (fun j g _ hg hm => ?_) (fun g hg hv => ?_) (fun g r h => ?_) (fun _ h => h.elim)
        (fun _ _ h => by cases h) (fun _ _ _ h => by cases h)
      · rw [hold g hg]; exact hm
      · rw [hold g hg]; exact hv
      · rw [hp] at h; exact h.elim
  | join k f hp hk =>
      refine hs.move hw rfl (fun j g _ _ hm => call_mem_senders_join hm) (fun g _ hv => ?_) (fun g r h => ?_)
        (fun g h => ?_)
        (fun _ _ h => by cases h) (fun _ _ _ h => by cases h)
      · rw [value_join]; exact hv
      · rw [hp] at h; exact h.elim
      · cases h
        rw [chan_join, if_pos rfl]
        exact Finset.mem_insert_self ..
  | looked k f r hp =>
      refine hs.move hw rfl (fun _ _ _ _ hm => hm) (fun _ _ hv => hv) (fun g r h => ?_) (fun _ h => h.elim)
        (fun _ _ h => by cases h) (fun _ _ _ h => by cases h)
      rw [hp] at h; exact h.elim
  | send k f r hp =>
      refine hs.move hw rfl (fun j g _ _ hm => ?_) (fun g _ hv => ?_) (fun g r h => ?_) (fun _ h => h.elim)
        (fun _ _ h => by cases h) (fun _ _ _ h => by cases h)
      · rw [chan_setPhase, senders_setChan (Watch.senders_send _ _)]
        exact hm
      · rw [chan_setPhase, chan_setChan]
        by_cases hg : g = f
        · subst hg
          rw [Function.update_self]
          by_cases hr : (s.chan g).receivers = ∅
          · rw [Watch.send_of_no_receiver hr]; exact hv
          · rw [Watch.value_send hr]; exact Option.some_ne_none r
        · rw [Function.update_of_ne hg]; exact hv
      · rw [hp] at h; exact h.elim
  | remove k f r hp =>
      refine hs.move hw (i := i) (p := .led k f r) (by simp) (fun j g hj _ hm => ?_) (fun g _ hv => ?_)
        (fun g r h => ?_) (fun _ h => h.elim)
        (fun _ _ h => by cases h) (fun _ _ _ h => by cases h)
      · exact (call_mem_senders_leave hj).mpr (call_mem_senders_removeKey.mpr hm)
      · simpa using hv
      · rw [hp] at h; exact h
  | subscribe k f hp =>
      have hsenders : ∀ g, ((s.setChan f ((s.chan f).subscribe i)).chan g).senders = (s.chan g).senders :=
        fun g => senders_setChan rfl
      refine hs.move hw rfl (fun j g _ _ hm => ?_) (fun g _ hv => ?_) (fun g r h => ?_) (fun g h => ?_)
        (fun _ _ h => by cases h) (fun _ _ _ h => by cases h)
      · rw [chan_setPhase, hsenders]; exact hm
      · by_cases hg : g = f
        · subst hg; simpa using hv
        · simpa [hg] using hv
      · rw [hp] at h; exact h.elim
      · rw [chan_setPhase, hsenders]
        exact hs.held i g (by rw [hp]; exact h)
  | wait k f hp hv =>
      refine hs.move hw rfl (fun _ _ _ _ hm => hm) (fun _ _ hv => hv) (fun g r h => ?_) (fun g h => ?_)
        (fun _ _ h => by cases h) (fun _ _ _ h => by cases h)
      · rw [hp] at h; exact h.elim
      · exact hs.held i g (by rw [hp]; exact h)
  | wake k f n hp hc =>
      refine hs.move hw rfl (fun _ _ _ _ hm => hm) (fun _ _ hv => hv) (fun g r h => ?_) (fun g h => ?_)
        (fun k' g h => ?_) (fun _ _ _ h => by cases h)
      · rw [hp] at h; exact h.elim
      · exact hs.held i g (by rw [hp]; exact h)
      · -- the version moved away from the one of an empty channel
        cases h
        rw [Watch.changed_eq_ready, hw.seen i k f n hp] at hc
        exact fun hv => hc ((hw.stored f).mp hv)
  | found k f r hp hv =>
      refine hs.leave hw (by rw [hp]; exact fun _ _ => id) (fun _ => id) fun k' g e h => ?_
      cases h
      exact .inr ⟨r, rfl, hw.sent f r hv⟩
  | close k f n hp hc =>
      exact absurd hc (changed_ne_closed (hs.held i f (by rw [hp]; rfl)))
  | time k f n hp hc =>
      refine hs.leave hw (by rw [hp]; exact fun _ _ => id) (fun _ => id) fun k' g e h => ?_
      cases h
      exact .inl rfl
  | read k f r hp hv =>
      refine hs.leave hw (by rw [hp]; exact fun _ _ => id) (fun _ => id) fun k' g e h => ?_
      cases h
      exact .inr ⟨r, rfl, hw.sent f r hv⟩
  | readEmpty k f hp hv => exact absurd hv (hs.woken i k f hp)
  | dropLeader k f hp => exact hs.leave hw (by rw [hp]; exact fun _ _ => id) (fun _ => id) fun _ _ _ h => by cases h
  | dropFollower k f n hp => exact hs.leave hw (by rw [hp]; exact fun _ _ => id) (fun _ => id) fun _ _ _ h => by cases h

/-! ## The map -/

/-- Only its leader takes a flight out of the map. -/
theorem flights_step {s t : State K R} {l : Label K R} {k : K} {f : FlightId} (ho : Owned s)
    (h : step s l = some t) (hf : s.flights k = some f) (ht : t.flights k ≠ some f) : (s.phase l.call).Leads k f := by
  cases (step_cases h).handover with
  | starts k' hout hk hf' hn hp =>
      have hkk : k ≠ k' := by rintro rfl; rw [hf] at hk; cases hk
      rw [hf', Function.update_of_ne hkk] at ht
      exact absurd hf ht
  | removes k' f' r hs hf' hn hp =>
      have hlead : (s.phase l.call).Leads k' f' := by rw [hs]; exact ⟨rfl, rfl⟩
      by_cases hkk : k = k'
      · subst hkk
        have he := ho.entry _ _ _ hlead
        rw [hf] at he
        cases he
        exact hlead
      · rw [hf', Function.update_of_ne hkk] at ht
        exact absurd hf ht
  | drops k' f' ha hs hf' hn hp => rw [hf'] at ht; exact absurd hf ht
  | keeps hf' hn hl hd => rw [hf'] at ht; exact absurd hf ht

/-- Without cancellations every flight in the map has a running leader. -/
theorem live_run {ls : List (Label K R)} {s : State K R} (hdrop : ∀ l ∈ ls, l.act ≠ .drop)
    (hrun : (machine K R).run init ls = some s) : Live s := by
  refine (Machine.run_rule_on (I := fun s : State K R => Owned s ∧ Live s) (fun s l t hl hs ht => ?_) hdrop
    ⟨owned_init, nofun⟩ hrun).2
  exact ⟨owned_step hs.1 ht, (live_step_iff hs.1 hs.2 ht).mpr fun hd => hl hd.1⟩

/-- In every state of every interleaving of calls that are not cancelled: a key has one leader at most; a follower that
returned other than by its time-out returned what the one leader of its flight has sent, and returns itself; what a
step takes out of the map is the flight its call leads; and when no call runs the map is empty. -/
theorem followers_agree (ls : List (Label K R)) (s : State K R) (hdrop : ∀ l ∈ ls, l.act ≠ .drop)
    (hrun : (machine K R).run init ls = some s) :
    (∀ i j k f g, (s.phase i).Leads k f → (s.phase j).Leads k g → i = j) ∧
    (∀ j k f e, s.phase j = .followed k f e → e ≠ .timedOut →
      ∃ i r, (s.phase i).Sent f r ∧ e = .received r ∧ ∀ i', (s.phase i').LeaderOf f → i' = i) ∧
    (∀ l t k f, step s l = some t → s.flights k = some f → t.flights k ≠ some f → (s.phase l.call).Leads k f) ∧
    ((∀ i, ¬ (s.phase i).Running) → ∀ k, s.flights k = none) := by
  obtain ⟨hw, hheeded⟩ : Wired s ∧ Heeded s :=
    Machine.run_rule (M := machine K R) (I := fun s => Wired s ∧ Heeded s)
      (fun _ _ _ hs ht => ⟨wired_step hs.1 ht, heeded_step hs.1 hs.2 ht⟩) ⟨wired_init, heeded_init⟩ hrun
  refine ⟨fun i j k f g hi hj => ?_, fun j k f e hj he => ?_, fun l t k f => flights_step hw.owned, fun hrest k => ?_⟩
  · have hfg := hw.owned.entry i k f hi
    rw [hw.owned.entry j k g hj] at hfg
    cases hfg
    exact hw.owned.unique i j k k f hi hj
  · obtain ⟨r, hr, i, hi⟩ := (hheeded.returned j k f e hj).resolve_left he
    exact ⟨i, r, hi, hr, fun i' hi' => hw.oneLeader i' i f hi' hi.leaderOf⟩
  · by_contra hne
    obtain ⟨f, hf⟩ := Option.ne_none_iff_exists'.mp hne
    obtain ⟨i, hi⟩ := live_run hdrop hrun k f hf
    exact hrest i hi.running

theorem followers_agree_twice :
    let ls : List (Label Nat Nat) := [⟨0, .enter 7⟩, ⟨1, .enter 7⟩, ⟨1, .subscribe⟩, ⟨1, .borrow⟩, ⟨0, .looked 42⟩,
      ⟨0, .send⟩, ⟨1, .wake⟩, ⟨0, .remove⟩, ⟨1, .read⟩]
    ∃ s, (machine Nat Nat).run init ls = some s ∧
      ∃ i r, (s.phase i).Sent 0 r ∧ .received 42 = FlightEnd.received r ∧ ∀ i', (s.phase i').LeaderOf 0 → i' = i := by
  intro ls
  have hls : (machine Nat Nat).run init ls = some (((machine Nat Nat).run init ls).get rfl) := rfl
  exact ⟨_, hls, (followers_agree ls _ (by decide) hls).2.1 1 7 0 (.received 42) rfl (by decide)⟩

end HarborRouter.Singleflight
