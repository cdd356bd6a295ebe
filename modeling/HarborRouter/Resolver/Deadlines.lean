import HarborRouter.Resolver.ParallelLookup
import HarborRouter.Resolver.Wakeup

/-!
# Which followers time out

`singleflight` with a clock: a leader's lookup takes no longer than the timeout of its probes, a follower waits five
seconds longer than that. Time passes while no leader is late.

* `lookup_within` : when a fan-out returns;
* `timed_out_only_if` : a follower times out only behind a leader that was dropped, or whose outcome was.
-/

namespace HarborRouter

/-! ## How long a fan-out takes -/

/-- When the loop returns: at a completion that wins, at the deadline of the fallback, or after the last completion. -/
def lookupEnds (accept : List Lib.Text) : Progress → Nat → List Completion → Nat
  | _, last, [] => last
  | p, _, c :: cs =>
      if p.expired c.time then (p.fallback.map Prod.snd).getD c.time
      else if c.wins accept then c.time
      else lookupEnds accept (p.take c) c.time cs

/-- A fan-out whose probes all end within the timeout, as `tokio::time::timeout` has them, ends within it. -/
theorem lookup_within {accept : List Lib.Text} {timeout : Nat} :
    ∀ {cs : List Completion} {p : Progress} {last : Nat}, last ≤ timeout → (∀ c ∈ cs, c.time ≤ timeout) →
      lookupEnds accept p last cs ≤ timeout
  | [], _, _, hlast, _ => hlast
  | c :: cs, p, last, hlast, hcs => by
      rw [List.forall_mem_cons] at hcs
      unfold lookupEnds
      split
      · rename_i hexpired
        -- the deadline was before this completion
        unfold Progress.expired at hexpired
        cases hf : p.fallback with
        | none => exact hcs.1
        | some f =>
            rw [hf] at hexpired
            have hlt : f.2 < c.time := of_decide_eq_true hexpired
            show f.2 ≤ timeout
            omega
      · split
        · exact hcs.1
        · exact lookup_within hcs.1 hcs.2

namespace Deadlines
open Lib Singleflight

/-- `self.timeout + Duration::from_secs(5)`, in milliseconds. -/
def followerTimeout (timeout : Nat) : Nat := timeout + 5000

/-- `started` says when a flight began, `since` when a follower began to wait. -/
structure State (K R : Type) where
  base : Singleflight.State K R
  now : Nat
  started : FlightId → Nat
  since : CallId → Nat

inductive Label (K R : Type)
  | act (l : Singleflight.Label K R)
  | wait (d : Nat)

variable {K R : Type} {s t : State K R} {timeout slack : Nat}

def State.setBase (s : State K R) (t : Singleflight.State K R) : State K R := { s with base := t }

section Steps
variable [DecidableEq K]

/-- A follower begins to wait where it borrows, and times out once its time is over. -/
def step (timeout : Nat) (s : State K R) : Label K R → Option (State K R)
  | .act ⟨i, .time⟩ =>
      if s.since i + followerTimeout timeout ≤ s.now then (Singleflight.step s.base ⟨i, .time⟩).map s.setBase else none
  | .act ⟨i, .borrow⟩ =>
      (Singleflight.step s.base ⟨i, .borrow⟩).map fun t => { s.setBase t with since := Function.update s.since i s.now }
  | .act ⟨i, .enter k⟩ =>
      -- the number of the next flight is noted whether or not it begins here
      (Singleflight.step s.base ⟨i, .enter k⟩).map fun t =>
        { s.setBase t with started := Function.update s.started s.base.next s.now }
  | .act l => (Singleflight.step s.base l).map s.setBase
  | .wait d => some { s with now := s.now + d }

def init : State K R := ⟨Singleflight.init, 0, fun _ => 0, fun _ => 0⟩

def machine (K R : Type) [DecidableEq K] (timeout : Nat) : Machine (State K R) (Label K R) := ⟨init, step timeout⟩

/-- A leader sends no later than `slack` after its lookup has to have returned. -/
def Prompt (timeout slack : Nat) (s : State K R) : Label K R → Prop
  | .act _ => True
  | .wait d => ∀ i f, (s.base.phase i).Unsent f → s.now + d ≤ s.started f + timeout + slack

def Abandoned (s : Singleflight.State K R) (f : FlightId) : Prop := ∀ i, ¬ (s.phase i).LeaderOf f

/-- The leader has sent when nobody listened. -/
def Unheard (s : Singleflight.State K R) (f : FlightId) : Prop := ∃ i r, (s.phase i).Sent f r ∧ (s.chan f).value = none

inductive Ticked (timeout : Nat) (s : State K R) : Label K R → State K R → Prop
  | time (i : CallId) (u : Singleflight.State K R) (hu : Singleflight.step s.base ⟨i, .time⟩ = some u)
      (hlate : s.since i + followerTimeout timeout ≤ s.now) : Ticked timeout s (.act ⟨i, .time⟩) (s.setBase u)
  | borrow (i : CallId) (u : Singleflight.State K R) (hu : Singleflight.step s.base ⟨i, .borrow⟩ = some u) :
      Ticked timeout s (.act ⟨i, .borrow⟩) { s.setBase u with since := Function.update s.since i s.now }
  | enter (i : CallId) (k : K) (u : Singleflight.State K R) (hu : Singleflight.step s.base ⟨i, .enter k⟩ = some u) :
      Ticked timeout s (.act ⟨i, .enter k⟩) { s.setBase u with started := Function.update s.started s.base.next s.now }
  | other (l : Singleflight.Label K R) (u : Singleflight.State K R) (hu : Singleflight.step s.base l = some u)
      (htime : l.act ≠ .time) (hborrow : l.act ≠ .borrow) (henter : ∀ k, l.act ≠ .enter k) :
      Ticked timeout s (.act l) (s.setBase u)
  | wait (d : Nat) : Ticked timeout s (.wait d) { s with now := s.now + d }

theorem step_cases {l : Label K R} (h : step timeout s l = some t) : Ticked timeout s l t := by
  cases l with
  | wait d => cases h; exact .wait d
  | act l =>
      obtain ⟨i, a⟩ := l
      cases a with
      | time =>
          rw [step] at h
          split at h
          · obtain ⟨u, hu, rfl⟩ := Option.map_eq_some_iff.mp h
            exact .time i u hu ‹_›
          · cases h
      | borrow =>
          obtain ⟨u, hu, rfl⟩ := Option.map_eq_some_iff.mp h
          exact .borrow i u hu
      | enter k =>
          obtain ⟨u, hu, rfl⟩ := Option.map_eq_some_iff.mp h
          exact .enter i k u hu
      | _ =>
          obtain ⟨u, hu, rfl⟩ := Option.map_eq_some_iff.mp h
          exact .other _ u hu nofun nofun nofun

/-! ## One step of `singleflight` -/

/-- What a step of call `i`, which is in phase `p` after it, does to leaders, outcomes and followers. -/
structure Moves (s : Singleflight.State K R) (i : CallId) (a : Action K R) (p : Phase K R)
    (t : Singleflight.State K R) : Prop where
  phase : t.phase = Function.update s.phase i p
  next : t.next = s.next ∨ t.next = s.next + 1 ∧ ∃ k, a = .enter k
  leader : ∀ f, p.LeaderOf f → (s.phase i).LeaderOf f ∨ f = s.next
  unsent : ∀ f, p.Unsent f → (s.phase i).Unsent f ∨ f = s.next ∧ ∃ k, a = .enter k
  sent : ∀ f r, (s.phase i).Sent f r → p.Sent f r
  value : ∀ f, f < s.next → (t.chan f).value = (s.chan f).value ∨ (s.phase i).Unsent f
  waits : ∀ k f n, p = .waiting k f n → a = .borrow
  timed : ∀ k f, p = .followed k f .timedOut →
    a = .time ∧ ∃ n, s.phase i = .waiting k f n ∧ (s.chan f).changed n = .pending

theorem moves_of_stepped {s t : Singleflight.State K R} {i : CallId} {a : Action K R} (h : Stepped s i a t) :
    ∃ p, Moves s i a p t := by
  cases h with
  | lead k hp hk =>
      refine ⟨.leading k s.next, rfl, .inr ⟨rfl, k, rfl⟩, fun f h => .inr h.symm, fun f h => .inr ⟨h.symm, k, rfl⟩, ?_,
        fun f hf => .inl ?_, nofun, nofun⟩
      · intro f r h
        rw [hp] at h
        exact h.elim
      · rw [chan_lead, Function.update_of_ne (Nat.ne_of_lt hf)]
  | join k f hp hk =>
      refine ⟨.joined k f, rfl, .inl rfl, fun _ h => h.elim, fun _ h => h.elim, ?_, fun g _ => .inl (by simp), nofun,
        nofun⟩
      intro g r h
      rw [hp] at h
      exact h.elim
  | looked k f r hp =>
      refine ⟨.publishing k f r, rfl, .inl rfl, fun g h => .inl (by rw [hp]; exact h),
        fun g h => .inl (by rw [hp]; exact h), ?_, fun g _ => .inl rfl, nofun, nofun⟩
      intro g r' h
      rw [hp] at h
      exact h.elim
  | send k f r hp =>
      refine ⟨.removing k f r, rfl, .inl rfl, fun g h => .inl (by rw [hp]; exact h), fun _ h => h.elim, ?_,
        fun g _ => ?_, nofun, nofun⟩
      · intro g r' h
        rw [hp] at h
        exact h.elim
      · by_cases hg : g = f
        · subst hg
          exact .inr (by rw [hp]; rfl)
        · exact .inl (by simp [hg])
  | remove k f r hp =>
      refine ⟨.led k f r, by simp, .inl (by simp), fun g h => .inl (by rw [hp]; exact h), fun _ h => h.elim, ?_,
        fun g _ => .inl (by simp), nofun, nofun⟩
      intro g r' h
      rw [hp] at h
      exact h
  | subscribe k f hp =>
      refine ⟨.subscribed k f, rfl, .inl rfl, fun _ h => h.elim, fun _ h => h.elim, ?_, fun g _ => .inl ?_, nofun,
        nofun⟩
      · intro g r h
        rw [hp] at h
        exact h.elim
      · by_cases hg : g = f <;> simp [hg]
  | wait k f hp hv =>
      refine ⟨.waiting k f (s.chan f).version, rfl, .inl rfl, fun _ h => h.elim, fun _ h => h.elim, ?_,
        fun g _ => .inl rfl, fun _ _ _ _ => rfl, nofun⟩
      intro g r h
      rw [hp] at h
      exact h.elim
  | wake k f n hp hc =>
      refine ⟨.woken k f, rfl, .inl rfl, fun _ h => h.elim, fun _ h => h.elim, ?_, fun g _ => .inl rfl, nofun, nofun⟩
      intro g r h
      rw [hp] at h
      exact h.elim
  | time k f n hp hc =>
      refine ⟨.followed k f .timedOut, rfl, .inl rfl, fun _ h => h.elim, fun _ h => h.elim, ?_,
        fun g _ => .inl (by simp), nofun, ?_⟩
      · intro g r h
        rw [hp] at h
        exact h.elim
      · intro k' f' he
        cases he
        exact ⟨rfl, n, hp, hc⟩
  | _ =>
      refine ⟨_, rfl, .inl rfl, fun _ h => h.elim, fun _ h => h.elim, ?_, fun g _ => .inl (by simp), nofun, nofun⟩
      intro g r h
      rw [‹s.phase i = _›] at h
      exact h.elim

end Steps

theorem Moves.mono {s t : Singleflight.State K R} {i : CallId} {a : Action K R} {p : Phase K R} (h : Moves s i a p t) :
    s.next ≤ t.next := by
  obtain hn | ⟨hn, -⟩ := h.next
  · exact Nat.le_of_eq hn.symm
  · exact hn ▸ Nat.le_succ s.next

theorem Moves.fresh {s t : Singleflight.State K R} {i : CallId} {a : Action K R} {p : Phase K R} (h : Moves s i a p t)
    {f : FlightId} (hf : f < t.next) : f < s.next ∨ f = s.next ∧ ∃ k, a = .enter k := by
  obtain hn | ⟨hn, henter⟩ := h.next
  · exact .inl (hn ▸ hf)
  · rw [hn] at hf
    exact (Nat.lt_succ_iff_lt_or_eq.mp hf).imp id fun he => ⟨he, henter⟩

/-! ## The clock and the phases -/

/-- No leader is late, no follower waits longer than its flight exists, and who timed out was left alone. -/
structure Clocked (timeout slack : Nat) (s : State K R) : Prop where
  wired : Wired s.base
  begun : ∀ f, f < s.base.next → s.started f ≤ s.now
  prompt : ∀ i f, (s.base.phase i).Unsent f → s.now ≤ s.started f + timeout + slack
  waits : ∀ i k f n, s.base.phase i = .waiting k f n → s.started f ≤ s.since i
  left : ∀ i k f, s.base.phase i = .followed k f .timedOut → f < s.base.next ∧ (Abandoned s.base f ∨ Unheard s.base f)

theorem clocked_init : Clocked timeout slack (init : State K R) where
  wired := wired_init
  begun _ _ := Nat.le_refl _
  prompt _ _ h := h.elim
  waits _ _ _ _ h := nomatch h
  left _ _ _ h := nomatch h

theorem unsent_or_sent {f : FlightId} {p : Phase K R} (h : p.LeaderOf f) : p.Unsent f ∨ ∃ r, p.Sent f r := by
  cases p with
  | leading k g => exact .inl h
  | publishing k g r => exact .inl h
  | removing k g r => exact .inr ⟨r, h, rfl⟩
  | led k g r => exact .inr ⟨r, h, rfl⟩
  | _ => exact h.elim

theorem not_sent_of_unsent {f : FlightId} {p : Phase K R} {r : R} (h : p.Unsent f) : ¬ p.Sent f r := by
  cases p <;> first | exact h.elim | exact id

theorem left_alone_step {s t : Singleflight.State K R} {i : CallId} {a : Action K R} {p : Phase K R} (hs : Wired s)
    (hm : Moves s i a p t) {f : FlightId} (hf : f < s.next) (h : Abandoned s f ∨ Unheard s f) :
    Abandoned t f ∨ Unheard t f := by
  obtain h | ⟨j, r, hsent, hvalue⟩ := h
  · refine .inl fun j hj => ?_
    rw [hm.phase, phase_update_iff (Phase.LeaderOf f)] at hj
    obtain ⟨-, hp⟩ | ⟨-, hj⟩ := hj
    · obtain hp | rfl := hm.leader f hp
      · exact h i hp
      · exact Nat.lt_irrefl _ hf
    · exact h j hj
  · refine .inr ⟨j, r, ?_, ?_⟩
    · rw [hm.phase, phase_update_iff (Phase.Sent f r)]
      by_cases hj : j = i
      · subst hj
        exact .inl ⟨rfl, hm.sent f r hsent⟩
      · exact .inr ⟨hj, hsent⟩
    · obtain hsame | hunsent := hm.value f hf
      · rw [hsame, hvalue]
      · -- a flight has one leader, and it has sent
        have hij := hs.oneLeader i j f hunsent.leaderOf hsent.leaderOf
        subst hij
        exact absurd hsent (not_sent_of_unsent hunsent)

/-- A follower that times out has waited longer than its leader can take. -/
theorem Clocked.timed_out (h : Clocked timeout slack s) (hslack : slack < 5000) {i : CallId} {k : K} {f : FlightId}
    {n : Nat} (hp : s.base.phase i = .waiting k f n) (hpending : (s.base.chan f).changed n = .pending)
    (hlate : s.since i + followerTimeout timeout ≤ s.now) : Abandoned s.base f ∨ Unheard s.base f := by
  by_cases hleader : ∃ j, (s.base.phase j).LeaderOf f
  · obtain ⟨j, hj⟩ := hleader
    obtain hunsent | ⟨r, hsent⟩ := unsent_or_sent hj
    · have hstart := h.waits i k f n hp
      have hprompt := h.prompt j f hunsent
      unfold followerTimeout at hlate
      omega
    · refine .inr ⟨j, r, hsent, (h.wired.stored f).mpr ?_⟩
      have hseen := h.wired.seen i k f n hp
      by_contra hversion
      have hready : (s.base.chan f).changed n = .ready := Watch.changed_eq_ready.mpr (by rwa [hseen])
      rw [hready] at hpending
      cases hpending
  · exact .inl (not_exists.mp hleader)

variable [DecidableEq K]

theorem Clocked.act (h : Clocked timeout slack s) (hslack : slack < 5000) {i : CallId} {a : Action K R}
    (hu : Singleflight.step s.base ⟨i, a⟩ = some t.base)
    (htime : a = .time → s.since i + followerTimeout timeout ≤ s.now)
    (hstarted : ∀ f, f < s.base.next → t.started f = s.started f)
    (hnew : (∃ k, a = .enter k) → t.started s.base.next = s.now)
    (hsince : ∀ j, j ≠ i → t.since j = s.since j) (hborrow : a = .borrow → t.since i = s.now)
    (hnow : t.now = s.now) : Clocked timeout slack t := by
  obtain ⟨p, hm⟩ := moves_of_stepped (Singleflight.step_cases hu)
  have hwired : Wired t.base := wired_step h.wired hu
  have hphase : ∀ Q : Phase K R → Prop, ∀ j, Q (t.base.phase j) ↔ j = i ∧ Q p ∨ j ≠ i ∧ Q (s.base.phase j) := by
    intro Q j
    rw [hm.phase]
    exact phase_update_iff Q
  refine ⟨hwired, fun f hf => ?_, fun j f hj => ?_, fun j k f n hj => ?_, fun j k f hj => ?_⟩
  · rw [hnow]
    obtain hlt | ⟨rfl, henter⟩ := hm.fresh hf
    · rw [hstarted f hlt]
      exact h.begun f hlt
    · rw [hnew henter]
  · rw [hnow]
    obtain ⟨-, hp⟩ | ⟨-, hj⟩ := (hphase (Phase.Unsent f) j).mp hj
    · obtain hp | ⟨rfl, henter⟩ := hm.unsent f hp
      · rw [hstarted f (h.wired.leaderKnown i f hp.leaderOf)]
        exact h.prompt i f hp
      · rw [hnew henter]
        omega
    · rw [hstarted f (h.wired.leaderKnown j f hj.leaderOf)]
      exact h.prompt j f hj
  · obtain ⟨rfl, hp⟩ | ⟨hji, hj⟩ := (hphase (fun q => q = .waiting k f n) j).mp hj
    · have ha := hm.waits k f n hp
      have hf : f < t.base.next := hwired.holderKnown j f (by rw [hj]; rfl)
      obtain hlt | ⟨-, k', hk'⟩ := hm.fresh hf
      · rw [hstarted f hlt, hborrow ha]
        exact h.begun f hlt
      · rw [ha] at hk'
        cases hk'
    · rw [hstarted f (h.wired.holderKnown j f (by rw [hj]; rfl)), hsince j hji]
      exact h.waits j k f n hj
  · obtain ⟨rfl, hp⟩ | ⟨hji, hj⟩ := (hphase (fun q => q = .followed k f .timedOut) j).mp hj
    · obtain ⟨ha, n, hwaiting, hpending⟩ := hm.timed k f hp
      have hf : f < s.base.next := h.wired.holderKnown j f (by rw [hwaiting]; rfl)
      exact ⟨hf.trans_le hm.mono, left_alone_step h.wired hm hf (h.timed_out hslack hwaiting hpending (htime ha))⟩
    · obtain ⟨hf, halone⟩ := h.left j k f hj
      exact ⟨hf.trans_le hm.mono, left_alone_step h.wired hm hf halone⟩

theorem clocked_step (hslack : slack < 5000) (h : Clocked timeout slack s) {l : Label K R}
    (hl : Prompt timeout slack s l)
    (ht : step timeout s l = some t) : Clocked timeout slack t := by
  cases step_cases ht with
  | time i u hu hlate =>
      exact h.act hslack hu (fun _ => hlate) (fun _ _ => rfl) nofun (fun _ _ => rfl) nofun rfl
  | borrow i u hu =>
      exact h.act hslack hu nofun (fun _ _ => rfl) nofun (fun j hj => Function.update_of_ne hj ..)
        (fun _ => Function.update_self ..) rfl
  | enter i k u hu =>
      exact h.act hslack hu nofun (fun f hf => Function.update_of_ne (Nat.ne_of_lt hf) ..)
        (fun _ => Function.update_self ..) (fun _ _ => rfl) nofun rfl
  | other l u hu htime hborrow henter =>
      exact h.act hslack hu (fun ha => absurd ha htime) (fun _ _ => rfl) (fun ⟨k, hk⟩ => absurd hk (henter k))
        (fun _ _ => rfl) (fun ha => absurd ha hborrow) rfl
  | wait d =>
      exact ⟨h.wired, fun f hf => (h.begun f hf).trans (Nat.le_add_right _ d), hl, h.waits, h.left⟩

variable (K R)

/-- In every run, with any calls dropped at any await, in which no leader sends later than five seconds after its
lookup has to have returned: a follower that timed out followed a leader that was dropped, or one that has sent when
nobody listened. -/
theorem timed_out_only_if (timeout slack : Nat) (hslack : slack < 5000) (ls : List (Label K R)) {s : State K R}
    (hrun : (machine K R timeout).run (machine K R timeout).init ls = some s)
    (hprompt : (machine K R timeout).Guarded (Prompt timeout slack) (machine K R timeout).init ls)
    (i : CallId) (k : K) (f : FlightId) (h : s.base.phase i = .followed k f .timedOut) :
    Abandoned s.base f ∨ Unheard s.base f :=
  ((hprompt.run_rule (fun _ _ _ hs hl ht => clocked_step hslack hs hl ht) clocked_init hrun).left i k f h).2

/-- The leader is dropped, and its follower waits for fifteen seconds. -/
def leaderGone : List (Label Unit Nat) :=
  [.act ⟨0, .enter ()⟩, .act ⟨1, .enter ()⟩, .act ⟨1, .subscribe⟩, .act ⟨1, .borrow⟩, .act ⟨0, .drop⟩, .wait 15000]

def waited : State Unit Nat := ((machine Unit Nat 10000).run (machine Unit Nat 10000).init leaderGone).get rfl

theorem timed_out_leaderGone :
    let u := waited.setBase (waited.base.leave 1 0 (.followed () 0 .timedOut))
    (machine Unit Nat 10000).run (machine Unit Nat 10000).init (leaderGone ++ [.act ⟨1, .time⟩]) = some u ∧
      (Abandoned u.base 0 ∨ Unheard u.base 0) := by
  have hsince : waited.since 1 = 0 := rfl
  have hnow : waited.now = 0 + 15000 := rfl
  have hlate : waited.since 1 + followerTimeout 10000 ≤ waited.now := by
    rw [hsince, hnow]
    unfold followerTimeout
    omega
  have hstep : (machine Unit Nat 10000).step waited (.act ⟨1, .time⟩) =
      some (waited.setBase (waited.base.leave 1 0 (.followed () 0 .timedOut))) := by
    simp only [machine, step, if_pos hlate]
    rfl
  have hwaited : (machine Unit Nat 10000).run (machine Unit Nat 10000).init leaderGone = some waited :=
    (Option.some_get _).symm
  have hrun := (machine Unit Nat 10000).run_concat.mpr ⟨waited, hwaited, hstep⟩
  refine ⟨hrun, timed_out_only_if Unit Nat 10000 0 (by decide) _ hrun ?_ 1 () 0 rfl⟩
  iterate 5
    rintro _ ⟨⟩
    refine ⟨trivial, ?_⟩
  rintro _ ⟨⟩
  refine ⟨?_, fun _ _ => ⟨trivial, trivial⟩⟩
  intro i f h
  match i with
  | 0 => exact h.elim
  | 1 => exact h.elim
  | _ + 2 => exact h.elim

end Deadlines
end HarborRouter
