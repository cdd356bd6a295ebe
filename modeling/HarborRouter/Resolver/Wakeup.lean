import HarborRouter.Resolver.Flights

/-!
# Lost wake-ups

A flight's channel starts without a receiver, a follower clones the sender when it looks the key up and subscribes
only later, and a `send` that finds no receiver drops the value. `Wired` ties the phases to the channels and holds
of every reachable state; `Heard` says that the followers of a leader that has sent find its outcome. `Heard` is
kept by exactly the steps that are `Timely`: a leader sends while somebody listens (or nobody holds its sender),
and nobody joins a flight whose outcome was dropped.
-/

namespace HarborRouter.Singleflight
open Lib State

variable {K R : Type}

namespace Phase

/-- The call leads flight `f`, or has led it. -/
def LeaderOf (f : FlightId) : Phase K R → Prop
  | .leading _ f' | .publishing _ f' _ | .removing _ f' _ | .led _ f' _ => f' = f
  | _ => False

def Unsent (f : FlightId) : Phase K R → Prop
  | .leading _ f' | .publishing _ f' _ => f' = f
  | _ => False

def Sent (f : FlightId) (r : R) : Phase K R → Prop
  | .removing _ f' r' | .led _ f' r' => f' = f ∧ r' = r
  | _ => False

/-- The call runs as a follower of flight `f`, with its own clone of the sender. -/
def Holds (f : FlightId) : Phase K R → Prop
  | .joined _ f' | .subscribed _ f' | .waiting _ f' _ | .woken _ f' => f' = f
  | _ => False

def Listens (f : FlightId) : Phase K R → Prop
  | .subscribed _ f' | .waiting _ f' _ | .woken _ f' => f' = f
  | _ => False

theorem Sent.leaderOf {f : FlightId} {r : R} {p : Phase K R} (h : p.Sent f r) : p.LeaderOf f := by
  cases p <;> first | exact h.1 | exact h.elim

theorem Unsent.leaderOf {f : FlightId} {p : Phase K R} (h : p.Unsent f) : p.LeaderOf f := by
  cases p <;> first | exact h | exact h.elim

theorem Listens.holds {f : FlightId} {p : Phase K R} (h : p.Listens f) : p.Holds f := by
  cases p <;> first | exact h | exact h.elim

end Phase

/-- What a leader has sent is one outcome. -/
theorem Phase.Sent.unique {K R : Type} {f : FlightId} {r r' : R} {p : Phase K R} (h : p.Sent f r)
    (h' : p.Sent f r') : r = r' := by
  cases p <;> first | exact h.2.symm.trans h'.2 | exact h.elim

/-! ## Phases and channels agree -/

/-- The channels are as the phases say. -/
structure Wired (s : State K R) : Prop where
  owned : Owned s
  leaderKnown : ∀ i f, (s.phase i).LeaderOf f → f < s.next
  holderKnown : ∀ i f, (s.phase i).Holds f → f < s.next
  oneLeader : ∀ i j f, (s.phase i).LeaderOf f → (s.phase j).LeaderOf f → i = j
  silent : ∀ i f, (s.phase i).Unsent f → (s.chan f).value = none
  stored : ∀ f, (s.chan f).value = none ↔ (s.chan f).version = 0
  sent : ∀ f r, (s.chan f).value = some r → ∃ i, (s.phase i).Sent f r
  listeners : ∀ i f, i ∈ (s.chan f).receivers ↔ (s.phase i).Listens f
  seen : ∀ i k f n, s.phase i = .waiting k f n → n = 0

theorem wired_init : Wired (init : State K R) where
  owned := owned_init
  leaderKnown _ _ h := h.elim
  holderKnown _ _ h := h.elim
  oneLeader _ _ _ h := h.elim
  silent _ _ h := h.elim
  stored _ := ⟨fun _ => rfl, fun _ => rfl⟩
  sent _ _ h := nomatch h
  listeners _ _ := ⟨fun h => absurd h (Finset.notMem_empty _), fun h => h.elim⟩
  seen _ _ _ _ h := nomatch h

/-- What a phase update says about every call, one predicate on phases at a time. -/
theorem phase_update_iff {s : State K R} {i j : CallId} {p : Phase K R} (Q : Phase K R → Prop) :
    Q (Function.update s.phase i p j) ↔ (j = i ∧ Q p) ∨ (j ≠ i ∧ Q (s.phase j)) := by
  by_cases hj : j = i
  · subst hj; simp
  · simp [hj]

/-- One call moves and no channel stores a value: enough to look at the new phase. -/
theorem Wired.move {s t : State K R} {i : CallId} {p : Phase K R} (hs : Wired s) (ho : Owned t)
    (hp : t.phase = Function.update s.phase i p) (hn : t.next = s.next)
    (hv : ∀ f, (t.chan f).value = (s.chan f).value) (hver : ∀ f, (t.chan f).version = (s.chan f).version)
    (hl : ∀ f, p.LeaderOf f → (s.phase i).LeaderOf f) (hh : ∀ f, p.Holds f → f < s.next)
    (hu : ∀ f, p.Unsent f → (s.phase i).Unsent f) (hsent : ∀ f r, (s.phase i).Sent f r → p.Sent f r)
    (hr : ∀ j f, j ∈ (t.chan f).receivers ↔ (j = i ∧ p.Listens f) ∨ (j ≠ i ∧ j ∈ (s.chan f).receivers))
    (hseen : ∀ k f n, p = .waiting k f n → n = 0) : Wired t := by
  have hL : ∀ j f, (t.phase j).LeaderOf f → (s.phase j).LeaderOf f := by
    intro j f h
    rw [hp, phase_update_iff (Phase.LeaderOf f)] at h
    rcases h with ⟨rfl, h⟩ | ⟨-, h⟩
    · exact hl f h
    · exact h
  refine ⟨ho, fun j f h => ?_, fun j f h => ?_, fun j j' f h h' => hs.oneLeader j j' f (hL j f h) (hL j' f h'),
    fun j f h => ?_, fun f => ?_, fun f r h => ?_, fun j f => ?_, fun j k f n h => ?_⟩
  · rw [hn]; exact hs.leaderKnown j f (hL j f h)
  · rw [hp, phase_update_iff (Phase.Holds f)] at h
    rw [hn]
    rcases h with ⟨-, h⟩ | ⟨-, h⟩
    · exact hh f h
    · exact hs.holderKnown j f h
  · rw [hp, phase_update_iff (Phase.Unsent f)] at h
    rw [hv]
    rcases h with ⟨rfl, h⟩ | ⟨-, h⟩
    · exact hs.silent _ f (hu f h)
    · exact hs.silent j f h
  · rw [hv, hver]; exact hs.stored f
  · rw [hv] at h
    obtain ⟨j, hj⟩ := hs.sent f r h
    refine ⟨j, ?_⟩
    rw [hp, phase_update_iff (Phase.Sent f r)]
    by_cases hji : j = i
    · subst hji; exact .inl ⟨rfl, hsent f r hj⟩
    · exact .inr ⟨hji, hj⟩
  · rw [hr, hp, phase_update_iff (Phase.Listens f), hs.listeners]
  · rw [hp, phase_update_iff (fun p => p = .waiting k f n)] at h
    rcases h with ⟨-, h⟩ | ⟨-, h⟩
    · exact hseen k f n h
    · exact hs.seen j k f n h

theorem Wired.receivers_keep {s : State K R} (hs : Wired s) {i : CallId} {p : Phase K R}
    (h : ∀ f, p.Listens f ↔ (s.phase i).Listens f) (j : CallId) (f : FlightId) :
    j ∈ (s.chan f).receivers ↔ (j = i ∧ p.Listens f) ∨ (j ≠ i ∧ j ∈ (s.chan f).receivers) := by
  rw [h, ← hs.listeners]
  by_cases hj : j = i
  · subst hj; simp
  · simp [hj]

theorem Wired.receivers_leave {s : State K R} (hs : Wired s) {i : CallId} {g : FlightId} {p : Phase K R}
    (h : ∀ f, (s.phase i).Listens f → f = g) (hp : ∀ f, ¬ p.Listens f) (j : CallId) (f : FlightId) :
    j ∈ ((s.leave i g p).chan f).receivers ↔ (j = i ∧ p.Listens f) ∨ (j ≠ i ∧ j ∈ (s.chan f).receivers) := by
  rw [Singleflight.receivers_leave]
  split
  · simp [hp]
  · rename_i hf
    by_cases hj : j = i
    · subst hj
      have hnl : ¬ (s.phase j).Listens f := fun hl => hf (h f hl)
      simp [hp, hs.listeners, hnl]
    · simp [hj]

theorem Wired.leave {s : State K R} (hs : Wired s) {i : CallId} {f : FlightId} {p : Phase K R}
    (ho : Owned (s.leave i f p)) (hf : ∀ g, (s.phase i).Listens g → g = f) (hs' : ∀ g r, ¬ (s.phase i).Sent g r)
    (hl : ∀ g, ¬ p.LeaderOf g) (hh : ∀ g, ¬ p.Holds g) : Wired (s.leave i f p) :=
  hs.move ho rfl rfl (by simp) (by simp) (fun g h => absurd h (hl g)) (fun g h => absurd h (hh g))
    (fun g h => absurd h.leaderOf (hl g)) (fun g r h => absurd h (hs' g r))
    (hs.receivers_leave hf fun g h => hh g h.holds) fun k g n h => by
      subst h; exact absurd rfl (hh g)

theorem Wired.of_send {s : State K R} (hs : Wired s) {i : CallId} {k : K} {f : FlightId} {r : R}
    (ho : Owned ((s.setChan f ((s.chan f).send (some r))).setPhase i (.removing k f r)))
    (hp : s.phase i = .publishing k f r) :
    Wired ((s.setChan f ((s.chan f).send (some r))).setPhase i (.removing k f r)) := by
  have hlead : (s.phase i).LeaderOf f := by rw [hp]; rfl
  have hnone : (s.chan f).value = none := hs.silent i f (by rw [hp]; rfl)
  have hq : ∀ (Q : Phase K R → Prop) j, Q (Function.update s.phase i (.removing k f r) j) ↔
      (j = i ∧ Q (.removing k f r)) ∨ (j ≠ i ∧ Q (s.phase j)) := fun Q j => phase_update_iff Q
  have hold : ∀ j g, (Function.update s.phase i (.removing k f r) j).LeaderOf g → (s.phase j).LeaderOf g := by
    intro j g hl
    rw [hq (Phase.LeaderOf g)] at hl
    rcases hl with ⟨rfl, rfl⟩ | ⟨-, hl⟩
    · exact hlead
    · exact hl
  refine ⟨ho, fun j g hl => hs.leaderKnown j g (hold j g hl), fun j g hl => ?_,
    fun j j' g hl hl' => hs.oneLeader j j' g (hold j g hl) (hold j' g hl'), fun j g hl => ?_, fun g => ?_,
    fun g r' hv => ?_, fun j g => ?_, fun j k' g n hw => ?_⟩
  · simp only [phase_setPhase, phase_setChan] at hl
    rw [hq (Phase.Holds g)] at hl
    rcases hl with ⟨-, hl⟩ | ⟨-, hl⟩
    · exact hl.elim
    · exact hs.holderKnown j g hl
  · simp only [phase_setPhase, phase_setChan] at hl
    rw [hq (Phase.Unsent g)] at hl
    rcases hl with ⟨-, hl⟩ | ⟨hj, hl⟩
    · exact hl.elim
    · -- another flight: the sender is the only leader of its own
      have hg : g ≠ f := by
        rintro rfl
        exact hj (hs.oneLeader j i g hl.leaderOf hlead)
      simpa [hg] using hs.silent j g hl
  · by_cases hg : g = f
    · subst hg
      by_cases hr : (s.chan g).receivers = ∅
      · simpa [Watch.send_of_no_receiver hr] using hs.stored g
      · simp [Watch.value_send hr, Watch.version_send hr]
    · simpa [hg] using hs.stored g
  · simp only [phase_setPhase, phase_setChan, chan_setPhase, chan_setChan] at hv ⊢
    by_cases hg : g = f
    · subst hg
      rw [Function.update_self] at hv
      by_cases hr : (s.chan g).receivers = ∅
      · rw [Watch.send_of_no_receiver hr, hnone] at hv; cases hv
      · rw [Watch.value_send hr] at hv
        cases hv
        exact ⟨i, by rw [Function.update_self]; exact ⟨rfl, rfl⟩⟩
    · rw [Function.update_of_ne hg] at hv
      obtain ⟨j, hj⟩ := hs.sent g r' hv
      refine ⟨j, (hq (Phase.Sent g r') j).mpr (.inr ⟨?_, hj⟩)⟩
      rintro rfl
      rw [hp] at hj
      exact hj
  · simp only [phase_setPhase, phase_setChan, chan_setPhase, chan_setChan]
    rw [hq (Phase.Listens g)]
    have hrec : j ∈ (Function.update s.chan f ((s.chan f).send (some r)) g).receivers ↔
        j ∈ (s.chan g).receivers := by
      by_cases hg : g = f
      · subst hg; simp
      · simp [hg]
    rw [hrec, hs.listeners]
    by_cases hj : j = i
    · subst hj; simp [hp, Phase.Listens]
    · simp [hj]
  · simp only [phase_setPhase, phase_setChan] at hw
    rw [hq (fun p => p = .waiting k' g n)] at hw
    rcases hw with ⟨-, hw⟩ | ⟨-, hw⟩
    · cases hw
    · exact hs.seen j k' g n hw

section Steps
variable [DecidableEq K]

/-- A call that starts a flight takes a number that no call has. -/
theorem Wired.of_lead {s : State K R} (hs : Wired s) {i : CallId} {k : K} (ho : Owned (s.lead i k))
    (hp : s.phase i = .outside) : Wired (s.lead i k) := by
  have hnew : ∀ j f, j ≠ i → (s.phase j).LeaderOf f ∨ (s.phase j).Holds f → f ≠ s.next := by
    rintro j f - (hl | hl) rfl
    · exact absurd (hs.leaderKnown j _ hl) (Nat.lt_irrefl _)
    · exact absurd (hs.holderKnown j _ hl) (Nat.lt_irrefl _)
  have hq : ∀ (Q : Phase K R → Prop) j, Q ((s.lead i k).phase j) ↔
      (j = i ∧ Q (.leading k s.next)) ∨ (j ≠ i ∧ Q (s.phase j)) := fun Q j => by
    rw [phase_lead, phase_update_iff Q]
  refine ⟨ho, fun j f hl => ?_, fun j f hl => ?_, fun j j' f hl hl' => ?_, fun j f hl => ?_, fun f => ?_,
    fun f r hv => ?_, fun j f => ?_, fun j k' f n hw => ?_⟩
  · rw [hq (Phase.LeaderOf f)] at hl
    rcases hl with ⟨-, rfl⟩ | ⟨-, hl⟩
    · exact Nat.lt_succ_self _
    · exact Nat.lt_succ_of_lt (hs.leaderKnown j f hl)
  · rw [hq (Phase.Holds f)] at hl
    rcases hl with ⟨-, hl⟩ | ⟨-, hl⟩
    · exact hl.elim
    · exact Nat.lt_succ_of_lt (hs.holderKnown j f hl)
  · rw [hq (Phase.LeaderOf f)] at hl hl'
    rcases hl with ⟨rfl, he⟩ | ⟨hj, hl⟩ <;> rcases hl' with ⟨rfl, he'⟩ | ⟨hj', hl'⟩
    · rfl
    · exact absurd he.symm (hnew j' f hj' (.inl hl'))
    · exact absurd he'.symm (hnew j f hj (.inl hl))
    · exact hs.oneLeader j j' f hl hl'
  · rw [hq (Phase.Unsent f)] at hl
    rcases hl with ⟨-, rfl⟩ | ⟨hj, hl⟩
    · simp
    · have hf := hnew j f hj (.inl hl.leaderOf)
      simpa [hf] using hs.silent j f hl
  · by_cases hf : f = s.next
    · subst hf; simp
    · simpa [hf] using hs.stored f
  · by_cases hf : f = s.next
    · subst hf; simp at hv
    · obtain ⟨j, hj⟩ := hs.sent f r (by simpa [hf] using hv)
      refine ⟨j, ?_⟩
      rw [hq (Phase.Sent f r)]
      exact .inr ⟨by rintro rfl; rw [hp] at hj; exact hj, hj⟩
  · rw [hq (Phase.Listens f)]
    by_cases hf : f = s.next
    · subst hf
      have hnl : j ≠ i → ¬ (s.phase j).Listens s.next := fun hj hl => hnew j _ hj (.inr hl.holds) rfl
      simpa [Phase.Listens] using hnl
    · have : (s.lead i k).chan f = s.chan f := by simp [hf]
      rw [this, hs.listeners]
      by_cases hj : j = i
      · subst hj; simp [hp, Phase.Listens]
      · simp [hj]
  · rw [hq (fun p => p = .waiting k' f n)] at hw
    rcases hw with ⟨-, hw⟩ | ⟨-, hw⟩
    · cases hw
    · exact hs.seen j k' f n hw

theorem wired_step {s t : State K R} {l : Label K R} (hs : Wired s) (h : step s l = some t) : Wired t := by
  have ho := owned_step hs.owned h
  obtain ⟨i, a⟩ := l
  have hstep := step_cases h
  dsimp only at hstep
  cases hstep with
  | lead k hp hk => exact hs.of_lead ho hp
  | send k f r hp => exact hs.of_send ho hp
  | join k f hp hk =>
      refine hs.move ho (i := i) rfl rfl (by simp) (by simp) (fun g h => h.elim) (fun g h => ?_)
        (fun g h => h.elim) (fun g r h => by rw [hp] at h; exact h.elim) (fun j g => ?_) (fun _ _ _ h => nomatch h)
      · cases h; exact hs.owned.fresh k f hk
      · rw [receivers_join]
        exact hs.receivers_keep (fun g => by rw [hp]; exact Iff.rfl) j g
  | looked k f r hp =>
      exact hs.move ho (i := i) rfl rfl (by simp) (by simp) (fun g h => by rw [hp]; exact h)
        (fun g h => h.elim) (fun g h => by rw [hp]; exact h) (fun g r h => by rw [hp] at h; exact h.elim)
        (hs.receivers_keep (fun g => by rw [hp]; exact Iff.rfl)) (fun _ _ _ h => nomatch h)
  | remove k f r hp =>
      refine hs.move ho (i := i) (p := .led k f r) (by simp) (by simp) (by simp) (by simp)
        (fun g h => by rw [hp]; exact h) (fun g h => h.elim) (fun g h => h.elim)
        (fun g r h => by rw [hp] at h; exact h) (fun j g => ?_) (fun _ _ _ h => nomatch h)
      rw [← hs.receivers_leave (g := f) (p := .led k f r) (fun g h => by rw [hp] at h; exact h.elim)
        (fun _ h => h)]
      simp
  | subscribe k f hp =>
      refine hs.move ho (i := i) rfl rfl (fun g => ?_) (fun g => ?_) (fun g h => h.elim)
        (fun g h => hs.holderKnown i g (by rw [hp]; exact h)) (fun g h => h.elim)
        (fun g r h => by rw [hp] at h; exact h.elim) (fun j g => ?_) (fun _ _ _ h => nomatch h)
      · by_cases hg : g = f <;> simp [hg]
      · by_cases hg : g = f <;> simp [hg]
      · by_cases hg : g = f
        · subst hg
          by_cases hj : j = i <;> simp [hj, Phase.Listens]
        · by_cases hj : j = i
          · subst hj
            simp [hg, hs.listeners, hp, Phase.Listens, Ne.symm hg]
          · simp [hg, hj]
  | wait k f hp hv =>
      exact hs.move ho (i := i) rfl rfl (by simp) (by simp) (fun g h => h.elim)
        (fun g h => hs.holderKnown i g (by rw [hp]; exact h)) (fun g h => h.elim)
        (fun g r h => by rw [hp] at h; exact h.elim) (hs.receivers_keep (fun g => by rw [hp]; exact Iff.rfl))
        (fun _ _ _ h => by cases h; exact (hs.stored f).mp hv)
  | wake k f n hp hc =>
      exact hs.move ho (i := i) rfl rfl (by simp) (by simp) (fun g h => h.elim)
        (fun g h => hs.holderKnown i g (by rw [hp]; exact h)) (fun g h => h.elim)
        (fun g r h => by rw [hp] at h; exact h.elim) (hs.receivers_keep (fun g => by rw [hp]; exact Iff.rfl))
        (fun _ _ _ h => nomatch h)
  | dropLeader k f hp =>
      exact hs.leave ho (by rw [hp]; exact fun _ h => h.elim) (by rw [hp]; exact fun _ _ => id)
        (fun _ => id) (fun _ => id)
  | found _ f _ hp | close _ f _ hp | time _ f _ hp | read _ f _ hp | readEmpty _ f hp | dropFollower _ f _ hp =>
      exact hs.leave ho (by rw [hp]; exact fun _ h => h.symm) (by rw [hp]; exact fun _ _ => id)
        (fun _ => id) (fun _ => id)

end Steps

/-! ## Wake-ups -/

/-- The followers of a leader that has sent find its outcome in the channel. -/
def Heard (s : State K R) : Prop :=
  ∀ i j f r, (s.phase i).Sent f r → (s.phase j).Holds f → (s.chan f).value = some r

/-- Once its leader has sent, the followers of a flight find the outcome, and those that wait have a change to
wake them. -/
structure NoLostWakeup (s : State K R) : Prop where
  heard : Heard s
  ready : ∀ i j k f r n, (s.phase i).Sent f r → s.phase j = .waiting k f n → (s.chan f).changed n = .ready

theorem Wired.noLostWakeup_iff {s : State K R} (hs : Wired s) : NoLostWakeup s ↔ Heard s := by
  refine ⟨NoLostWakeup.heard, fun h => ⟨h, fun i j k f r n hi hj => ?_⟩⟩
  have hv := h i j f r hi (by rw [hj]; rfl)
  rw [Watch.changed_eq_ready, hs.seen j k f n hj]
  intro h0
  rw [(hs.stored f).mpr h0] at hv
  cases hv

/-- The leader sends while a receiver is alive or no follower holds its sender; nobody joins a flight whose leader
has sent and whose channel is still empty. -/
structure Timely (s : State K R) (l : Label K R) : Prop where
  send : ∀ k f r, l.act = .send → s.phase l.call = .publishing k f r →
    (s.chan f).receivers ≠ ∅ ∨ ∀ j, ¬ (s.phase j).Holds f
  join : ∀ k f i r, l.act = .enter k → s.phase l.call = .outside → s.flights k = some f →
    (s.phase i).Sent f r → (s.chan f).value ≠ none

/-- A step after which no more calls have sent or hold a sender keeps `Heard`. -/
theorem Heard.of_fewer {s t : State K R} {i : CallId} {p : Phase K R} (h : Heard s)
    (hp : t.phase = Function.update s.phase i p) (hv : ∀ f, (t.chan f).value = (s.chan f).value)
    (hsent : ∀ f r, p.Sent f r → (s.phase i).Sent f r) (hh : ∀ f, p.Holds f → (s.phase i).Holds f) : Heard t := by
  intro a b f r ha hb
  rw [hp, phase_update_iff (Phase.Sent f r)] at ha
  rw [hp, phase_update_iff (Phase.Holds f)] at hb
  have ha' : (s.phase a).Sent f r := by
    rcases ha with ⟨rfl, ha⟩ | ⟨-, ha⟩
    · exact hsent f r ha
    · exact ha
  have hb' : (s.phase b).Holds f := by
    rcases hb with ⟨rfl, hb⟩ | ⟨-, hb⟩
    · exact hh f hb
    · exact hb
  rw [hv]
  exact h a b f r ha' hb'

theorem Timely.of_act {s : State K R} {l : Label K R} (hsend : l.act ≠ .send) (henter : ∀ k, l.act ≠ .enter k) :
    Timely s l :=
  ⟨fun _ _ _ h => absurd h hsend, fun k _ _ _ h => absurd h (henter k)⟩

theorem heard_other_iff {s t : State K R} {i : CallId} {a : Action K R} {p : Phase K R} (hs : Heard s)
    (hsend : a ≠ .send) (henter : ∀ k, a ≠ .enter k) (hp : t.phase = Function.update s.phase i p)
    (hv : ∀ f, (t.chan f).value = (s.chan f).value) (hsent : ∀ f r, p.Sent f r → (s.phase i).Sent f r)
    (hh : ∀ f, p.Holds f → (s.phase i).Holds f) : Heard t ↔ Timely s ⟨i, a⟩ :=
  iff_of_true (hs.of_fewer hp hv hsent hh) (.of_act hsend henter)

theorem heard_init : Heard (init : State K R) := fun _ _ _ _ h => h.elim

variable [DecidableEq K]

theorem heard_step_iff {s t : State K R} {l : Label K R} (hw : Wired s) (hs : Heard s) (h : step s l = some t) :
    Heard t ↔ Timely s l := by
  obtain ⟨i, a⟩ := l
  have hstep := step_cases h
  dsimp only at hstep
  cases hstep with
  | send k f r hp =>
      have hlead : (s.phase i).LeaderOf f := by rw [hp]; rfl
      have hnone : (s.chan f).value = none := hw.silent i f (by rw [hp]; rfl)
      constructor
      · intro ht
        refine ⟨fun k' f' r' _ hp' => ?_, fun _ _ _ _ ha => nomatch ha⟩
        dsimp only at hp'
        rw [hp] at hp'
        cases hp'
        by_contra hcon
        rw [not_or, not_not, not_forall_not] at hcon
        obtain ⟨hr, j, hj⟩ := hcon
        -- the value was dropped although `j` holds the sender
        have hji : j ≠ i := by rintro rfl; rw [hp] at hj; exact hj
        have := ht i j f r (by simp [Phase.Sent]) (by simpa [hji] using hj)
        simp [Watch.send_of_no_receiver hr, hnone] at this
      · intro hT x y g r' hx hy
        simp only [phase_setPhase, phase_setChan, chan_setPhase, chan_setChan] at hx hy ⊢
        rw [phase_update_iff (Phase.Sent g r')] at hx
        rw [phase_update_iff (Phase.Holds g)] at hy
        rcases hy with ⟨-, hy⟩ | ⟨-, hy⟩
        · exact hy.elim
        rcases hx with ⟨-, rfl, rfl⟩ | ⟨hxi, hx⟩
        · rw [Function.update_self]
          rcases hT.send k f r rfl hp with hr | hnobody
          · exact Watch.value_send hr _
          · exact absurd hy (hnobody y)
        · have hg : g ≠ f := by
            rintro rfl
            exact hxi (hw.oneLeader x i g hx.leaderOf hlead)
          rw [Function.update_of_ne hg]
          exact hs x y g r' hx hy
  | join k f hp hk =>
      have hq : ∀ (Q : Phase K R → Prop) j, Q ((s.join i k f).phase j) ↔
          (j = i ∧ Q (.joined k f)) ∨ (j ≠ i ∧ Q (s.phase j)) := fun Q j => by rw [phase_join, phase_update_iff Q]
      constructor
      · intro ht
        refine ⟨fun _ _ _ ha => (nomatch ha), fun k' f' x r ha _ hk' hx => ?_⟩
        cases ha
        rw [hk] at hk'
        cases hk'
        have hxi : x ≠ i := by rintro rfl; rw [hp] at hx; exact hx
        have := ht x i f r ((hq (Phase.Sent f r) x).mpr (.inr ⟨hxi, hx⟩))
          ((hq (Phase.Holds f) i).mpr (.inl ⟨rfl, rfl⟩))
        rw [value_join] at this
        rw [this]
        exact Option.some_ne_none r
      · intro hT x y g r hx hy
        rw [hq (Phase.Sent g r)] at hx
        rw [hq (Phase.Holds g)] at hy
        rw [value_join]
        rcases hx with ⟨-, hx⟩ | ⟨-, hx⟩
        · exact hx.elim
        rcases hy with ⟨-, rfl⟩ | ⟨-, hy⟩
        · -- the joined flight's channel is not empty, so it holds what its one leader sent
          obtain ⟨r', hr'⟩ := Option.ne_none_iff_exists'.mp (hT.join k f x r rfl hp hk hx)
          obtain ⟨x', hx'⟩ := hw.sent f r' hr'
          cases hw.oneLeader x x' f hx.leaderOf hx'.leaderOf
          rw [hr', hx.unique hx']
        · exact hs x y g r hx hy
  | lead k hp hk =>
      have hq : ∀ (Q : Phase K R → Prop) j, Q ((s.lead i k).phase j) ↔
          (j = i ∧ Q (.leading k s.next)) ∨ (j ≠ i ∧ Q (s.phase j)) := fun Q j => by rw [phase_lead, phase_update_iff Q]
      refine iff_of_true (fun x y g r hx hy => ?_)
        ⟨fun _ _ _ ha => (nomatch ha), fun k' f _ _ ha _ hf _ => by cases ha; rw [hk] at hf; cases hf⟩
      rw [hq (Phase.Sent g r)] at hx
      rw [hq (Phase.Holds g)] at hy
      rcases hx with ⟨-, hx⟩ | ⟨-, hx⟩
      · exact hx.elim
      rcases hy with ⟨-, hy⟩ | ⟨-, hy⟩
      · exact hy.elim
      have hg : g ≠ s.next := Nat.ne_of_lt (hw.leaderKnown x g hx.leaderOf)
      simpa [hg] using hs x y g r hx hy
  | looked k f r hp => exact heard_other_iff hs nofun nofun rfl (by simp) (fun _ _ h => h.elim) fun _ h => h.elim
  | remove k f r hp =>
      exact heard_other_iff hs nofun nofun (p := .led k f r) (by simp) (by simp)
        (fun _ _ h => by rw [hp]; exact h) fun _ h => h.elim
  | subscribe k f hp =>
      refine heard_other_iff hs nofun nofun rfl (fun g => ?_) (fun _ _ h => h.elim) fun _ h => by rw [hp]; exact h
      by_cases hg : g = f <;> simp [hg]
  | wait k f hp hv =>
      exact heard_other_iff hs nofun nofun rfl (by simp) (fun _ _ h => h.elim) fun _ h => by rw [hp]; exact h
  | wake k f n hp hc =>
      exact heard_other_iff hs nofun nofun rfl (by simp) (fun _ _ h => h.elim) fun _ h => by rw [hp]; exact h
  | found | close | time | read | readEmpty | dropLeader | dropFollower =>
      exact heard_other_iff hs nofun nofun rfl (by simp) (fun _ _ h => h.elim) fun _ h => h.elim

/-- Which schedules lose no wake-up: along any schedule of leaders, followers, time-outs and drops, every follower that
holds the sender of a flight whose leader has sent observes the outcome exactly when every step is timely. -/
theorem no_lost_wakeup_iff_timely (ls : List (Label K R)) :
    (machine K R).Always NoLostWakeup init ls ↔ (machine K R).Guarded Timely init ls := by
  refine Machine.always_iff_guarded (I := Wired) (fun s l t hs ht => wired_step hs ht) (fun s l t hs hP ht => ?_)
    wired_init (wired_init.noLostWakeup_iff.mpr heard_init)
  rw [(wired_step hs ht).noLostWakeup_iff]
  exact heard_step_iff hs hP.heard ht

/-- A follower looks the key up, the leader sends before anybody has subscribed and returns, and the follower
subscribes to an empty channel that nobody will ever fill. No future is dropped. -/
theorem late_subscriber_never_woken : ∃ (ls : List (Label Nat Nat)) (s : State Nat Nat),
    (∀ l ∈ ls, l.act ≠ .drop) ∧ (machine Nat Nat).run init ls = some s ∧ s.phase 0 = .led 7 0 42 ∧
      s.phase 1 = .waiting 7 0 0 ∧ (s.chan 0).changed 0 = .pending ∧ ¬ NoLostWakeup s := by
  let ls : List (Label Nat Nat) := [⟨0, .enter 7⟩, ⟨1, .enter 7⟩, ⟨0, .looked 42⟩, ⟨0, .send⟩, ⟨0, .remove⟩,
    ⟨1, .subscribe⟩, ⟨1, .borrow⟩]
  have hls : (machine Nat Nat).run init ls = some (((machine Nat Nat).run init ls).get rfl) := rfl
  refine ⟨ls, ((machine Nat Nat).run init ls).get rfl, by decide, hls, rfl, rfl, by decide, fun h => ?_⟩
  exact absurd (h.ready 0 1 7 0 42 0 ⟨rfl, rfl⟩ rfl) (by decide)

end HarborRouter.Singleflight
