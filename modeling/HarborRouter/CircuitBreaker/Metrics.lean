import HarborRouter.CircuitBreaker.Atomic
import HarborRouter.Lib.Meter

/-!
# What the metrics say about a circuit

The calls of the circuit breaker about one project, interleaved as in `Atomic`, now with what they do to the metrics:
after its last atomic operation on the health a call counts a transition, or sets the gauge, or both, one at a time.

* `transitions_balance` : once every transition has been counted, the counters alone tell the state of the circuit;
* `gauge_shown_iff` : the gauge follows the state exactly when no call sets it to what the state no longer is;
* `gauge_of_sequential` : calls that do not overlap leave it right.
-/

namespace HarborRouter
open Lib CircuitBreaker

/-- `state_name`, the label of a state. -/
def stateName : HealthState → Text
  | .closed => "closed".toList
  | .opened => "open".toList
  | .halfOpen => "half_open".toList

/-- Transitions with the same labels are the same. -/
theorem stateName_injective : Function.Injective stateName := by
  intro a b h
  cases a <;> cases b <;> first | rfl | exact absurd h (by decide)

namespace Metered
open Pc Atomic

/-- What a call does to the metrics of the project. -/
inductive MetricOp
  /-- `circuit_breaker_transitions_total`, from one state to another -/
  | count (source target : HealthState)
  /-- `circuit_breaker_state` -/
  | set (state : HealthState)
  deriving DecidableEq

def metricsAfter (h : ProjectHealth) : Pc → List MetricOp
  | .availableHalfOpen => if h.state = .opened then [.set .halfOpen, .count .opened .halfOpen] else []
  | .successLoad => if h.state = .closed then [.set .closed] else []
  | .successClose current =>
      if h.state = current then [.count current .closed, .set .closed]
      else if h.state = .closed then [.set .closed] else []
  | .failureOpen current => if h.state = current then [.count current .opened] else []
  | .failureGauge => [.set h.state]
  | .idle | .availableLast | .failureStore _ | .failureLoad => []

/-- `pending` is what each caller has still to do to the metrics; the gauge has no series before it is set. -/
structure State where
  base : Atomic.State
  pending : Nat → List MetricOp
  transitions : HealthState → HealthState → Nat
  gauge : Option HealthState

def State.act (s : State) : MetricOp → State
  | .count source target =>
      -- the series of a transition is the one with the names of its states for labels
      { s with transitions := fun a b =>
          s.transitions a b + if stateName a = stateName source ∧ stateName b = stateName target then 1 else 0 }
  | .set state => { s with gauge := some state }

def State.pop (s : State) (i : Nat) (rest : List MetricOp) : State :=
  { s with pending := Function.update s.pending i rest }

inductive Label
  /-- an atomic operation on the health -/
  | health (l : Atomic.Label)
  | metric (i : Nat)

def caller : Atomic.Label → Nat
  | .begin i _ _ | .next i _ => i

variable (project : Text) (threshold timeoutSecs : Nat)

def leaves (s : Atomic.State) : Atomic.Label → List MetricOp
  | .begin _ _ _ => []
  | .next i _ => metricsAfter s.health (s.pc i)

def step (s : State) : Label → Option State
  | .health l =>
      if s.pending (caller l) = [] then
        (Atomic.step project threshold timeoutSecs s.base l).map fun base =>
          { s with base := base, pending := Function.update s.pending (caller l) (leaves s.base l) }
      else none
  | .metric i =>
      match s.pending i with
      | [] => none
      | op :: rest => some ((s.act op).pop i rest)

def init : State := ⟨Atomic.init, fun _ => [], fun _ _ => 0, none⟩

def machine : Machine State Label := ⟨init, step project threshold timeoutSecs⟩

variable {project threshold timeoutSecs} {s t : State}

theorem step_cases {l : Label} (h : step project threshold timeoutSecs s l = some t) :
    (∃ m base, l = .health m ∧ s.pending (caller m) = [] ∧
      Atomic.step project threshold timeoutSecs s.base m = some base ∧
      t = { s with base := base, pending := Function.update s.pending (caller m) (leaves s.base m) }) ∨
    ∃ i op rest, l = .metric i ∧ s.pending i = op :: rest ∧ t = (s.act op).pop i rest := by
  cases l with
  | health m =>
      by_cases hp : s.pending (caller m) = []
      · rw [step, if_pos hp] at h
        obtain ⟨base, hbase, rfl⟩ := Option.map_eq_some_iff.mp h
        exact .inl ⟨m, base, rfl, hp, hbase, rfl⟩
      · rw [step, if_neg hp] at h
        cases h
  | metric i =>
      rw [step] at h
      split at h <;> cases h
      exact .inr ⟨i, _, _, rfl, ‹_›, rfl⟩

def health : (machine project threshold timeoutSecs).Projection (Atomic.machine project threshold timeoutSecs) where
  state := State.base
  label _ l :=
    match l with
    | .health m => some m
    | .metric _ => none
  init := rfl
  stay s l t ht hl := by
    obtain ⟨m, base, rfl, -, -, -⟩ | ⟨i, op, rest, rfl, -, rfl⟩ := step_cases ht
    · cases hl
    · cases op <;> rfl
  move s l t m ht hl := by
    obtain ⟨m', base, rfl, -, hbase, rfl⟩ | ⟨i, op, rest, rfl, -, rfl⟩ := step_cases ht
    · cases hl
      exact hbase
    · cases hl

/-! ## The transitions -/

def unit (a : HealthState) : HealthState → ℤ := fun x => if x = a then 1 else 0

/-- How much the operation adds to the arrivals in each state, less the departures. -/
def MetricOp.net : MetricOp → HealthState → ℤ
  | .count source target => unit target - unit source
  | .set _ => 0

def owed (ops : List MetricOp) : HealthState → ℤ := (ops.map MetricOp.net).sum

/-- Arrivals less departures, as they have been counted. -/
def net (transitions : HealthState → HealthState → Nat) (x : HealthState) : ℤ :=
  (transitions .closed x + transitions .opened x + transitions .halfOpen x) -
    (transitions x .closed + transitions x .opened + transitions x .halfOpen)

theorem transitions_count (source target : HealthState) :
    (s.act (.count source target)).transitions =
      fun a b => s.transitions a b + if a = source ∧ b = target then 1 else 0 := by
  simp only [State.act, stateName_injective.eq_iff]

theorem net_act (op : MetricOp) : net (s.act op).transitions = net s.transitions + op.net := by
  cases op with
  | set state => exact (add_zero _).symm
  | count source target =>
      funext x
      show net (s.act (.count source target)).transitions x = net s.transitions x + (unit target x - unit source x)
      rw [transitions_count]
      unfold net unit
      cases source <;> cases target <;> cases x <;> simp <;> omega

/-- What an operation leaves to count is how it moves the state. -/
theorem owed_metricsAfter (threshold timeoutSecs now : Nat) (h : ProjectHealth) (pc : Pc) :
    owed (metricsAfter h pc) = unit (advance threshold timeoutSecs now h pc).1.state - unit h.state := by
  cases pc with
  | idle | availableLast | successLoad | failureStore | failureLoad | failureGauge =>
      unfold metricsAfter owed
      simp only [advance, sub_self]
      try split
      all_goals simp [MetricOp.net]
  | availableHalfOpen =>
      by_cases hs : h.state = .opened
      · simp [metricsAfter, owed, MetricOp.net, advance, hs]
      · simp [metricsAfter, owed, advance, hs]
  | successClose current =>
      by_cases hs : h.state = current
      · simp [metricsAfter, owed, MetricOp.net, advance, hs]
      · rw [metricsAfter, advance, if_neg hs, if_neg hs, sub_self]
        split <;> simp [owed, MetricOp.net]
  | failureOpen current =>
      by_cases hs : h.state = current <;> simp [metricsAfter, owed, MetricOp.net, advance, hs]

theorem state_enter (h : ProjectHealth) (call : Call) : (enter h call).1.state = h.state := by
  cases call <;> rfl

/-- What an atomic operation leaves to count is how it moves the circuit. -/
theorem owed_leaves {b b' : Atomic.State} {l : Atomic.Label}
    (h : Atomic.step project threshold timeoutSecs b l = some b') :
    owed (leaves b l) = unit b'.health.state - unit b.health.state := by
  obtain ⟨i, call, now, rfl, -, rfl⟩ | ⟨i, now, rfl, rfl⟩ := Atomic.step_cases h
  · show owed [] = unit (enter b.health call).1.state - unit b.health.state
    rw [state_enter, sub_self]
    rfl
  · exact owed_metricsAfter _ _ _ _ _

/-- The transitions still to be counted, with those that have been, lead from closed to where the circuit is. -/
def Accounted (s : State) : Prop :=
  Tally (fun i => owed (s.pending i)) (unit s.base.health.state - unit .closed - net s.transitions)

theorem accounted_step (h : Accounted s) {l : Label} (ht : step project threshold timeoutSecs s l = some t) :
    Accounted t := by
  obtain ⟨m, base, rfl, hp, hbase, rfl⟩ | ⟨i, op, rest, rfl, hp, rfl⟩ := step_cases ht
  · have hmove := h.move (fun i => owed (Function.update s.pending (caller m) (leaves s.base m) i)) (caller m)
      fun j hj => by rw [Function.update_of_ne hj]
    rw [Function.update_self, hp, owed_leaves hbase, show owed [] = 0 from rfl, sub_zero] at hmove
    have htotal : unit s.base.health.state - unit .closed - net s.transitions +
        (unit base.health.state - unit s.base.health.state) =
          unit base.health.state - unit .closed - net s.transitions := by abel
    rw [htotal] at hmove
    exact hmove
  · have hmove := h.move (fun j => owed (Function.update s.pending i rest j)) i
      fun j hj => by rw [Function.update_of_ne hj]
    rw [Function.update_self, hp, show owed (op :: rest) = op.net + owed rest from rfl] at hmove
    have htotal : unit s.base.health.state - unit .closed - net s.transitions + (owed rest - (op.net + owed rest)) =
        unit s.base.health.state - unit .closed - net (s.act op).transitions := by rw [net_act]; abel
    rw [htotal] at hmove
    unfold Accounted
    cases op <;> exact hmove

/-- The call will not take a circuit to the state that it is in already. -/
def Sound : Pc → Prop
  | .successClose current => current ≠ .closed
  | .failureOpen current => current ≠ .opened
  | _ => True

def Edge (source target : HealthState) : Prop := source ≠ target ∧ ¬ (source = .closed ∧ target = .halfOpen)

/-- Only transitions that there are have been counted, or ever will be. -/
structure Proper (s : State) : Prop where
  pc : ∀ i, Sound (s.base.pc i)
  pending : ∀ i source target, .count source target ∈ s.pending i → Edge source target
  transitions : ∀ source target, ¬ Edge source target → s.transitions source target = 0

theorem sound_closeLoop (current : HealthState) : Sound (closeLoop current) := by
  unfold closeLoop
  split
  · trivial
  · assumption

theorem sound_openLoop (current : HealthState) : Sound (openLoop current) := by
  unfold openLoop
  split
  · trivial
  · assumption

theorem sound_enter (h : ProjectHealth) (call : Call) : Sound (enter h call).2 := by
  cases call with
  | isAvailable =>
      show Sound (if h.state = .opened then .availableLast else .idle)
      split <;> trivial
  | recordSuccess => trivial
  | recordFailure => trivial

theorem sound_advance (threshold timeoutSecs now : Nat) (h : ProjectHealth) (pc : Pc) :
    Sound (advance threshold timeoutSecs now h pc).2 := by
  cases pc with
  | idle | availableHalfOpen | failureGauge => trivial
  | availableLast | failureStore => simp only [advance]; split <;> trivial
  | successLoad => exact sound_closeLoop h.state
  | failureLoad => exact sound_openLoop h.state
  | successClose current =>
      simp only [advance]
      split
      · trivial
      · exact sound_closeLoop h.state
  | failureOpen current =>
      simp only [advance]
      split
      · trivial
      · exact sound_openLoop h.state

theorem edge_of_mem_metricsAfter {h : ProjectHealth} {pc : Pc} (hpc : Sound pc) {source target : HealthState}
    (hmem : .count source target ∈ metricsAfter h pc) : Edge source target := by
  cases pc with
  | idle | availableLast | failureStore | failureLoad => cases hmem
  | failureGauge => simp [metricsAfter] at hmem
  | availableHalfOpen =>
      simp only [metricsAfter] at hmem
      split at hmem
      · simp only [List.mem_cons, reduceCtorEq, MetricOp.count.injEq, List.not_mem_nil, or_false, false_or] at hmem
        rw [hmem.1, hmem.2]
        exact ⟨nofun, nofun⟩
      · cases hmem
  | successLoad =>
      simp only [metricsAfter] at hmem
      split at hmem <;> simp at hmem
  | successClose current =>
      have hcurrent : current ≠ .closed := hpc
      simp only [metricsAfter] at hmem
      split at hmem
      · simp only [List.mem_cons, reduceCtorEq, MetricOp.count.injEq, List.not_mem_nil, or_false] at hmem
        rw [hmem.1, hmem.2]
        exact ⟨hcurrent, fun h => nomatch h.2⟩
      · split at hmem <;> simp at hmem
  | failureOpen current =>
      have hcurrent : current ≠ .opened := hpc
      simp only [metricsAfter] at hmem
      split at hmem
      · simp only [List.mem_cons, MetricOp.count.injEq, List.not_mem_nil, or_false] at hmem
        rw [hmem.1, hmem.2]
        exact ⟨hcurrent, fun h => nomatch h.2⟩
      · cases hmem

theorem proper_health (h : Proper s) {m : Atomic.Label} {base : Atomic.State}
    (hbase : Atomic.step project threshold timeoutSecs s.base m = some base) :
    Proper { s with base := base, pending := Function.update s.pending (caller m) (leaves s.base m) } := by
  refine ⟨?_, ?_, h.transitions⟩
  · obtain ⟨i, call, now, rfl, -, rfl⟩ | ⟨i, now, rfl, rfl⟩ := Atomic.step_cases hbase
    · exact (Function.forall_update_iff s.base.pc fun _ pc => Sound pc).mpr ⟨sound_enter _ _, fun j _ => h.pc j⟩
    · exact (Function.forall_update_iff s.base.pc fun _ pc => Sound pc).mpr ⟨sound_advance _ _ _ _ _, fun j _ => h.pc j⟩
  · refine (Function.forall_update_iff s.pending fun _ ops =>
      ∀ source target, .count source target ∈ ops → Edge source target).mpr ⟨?_, fun j _ => h.pending j⟩
    cases m with
    | begin i call now => exact fun _ _ hmem => absurd hmem List.not_mem_nil
    | next i now => exact fun _ _ hmem => edge_of_mem_metricsAfter (h.pc i) hmem

theorem proper_step (h : Proper s) {l : Label} (ht : step project threshold timeoutSecs s l = some t) : Proper t := by
  obtain ⟨m, base, rfl, hp, hbase, rfl⟩ | ⟨i, op, rest, rfl, hp, rfl⟩ := step_cases ht
  · exact proper_health h hbase
  · have hrest : ∀ j source target, .count source target ∈ Function.update s.pending i rest j → Edge source target := by
      refine (Function.forall_update_iff s.pending fun _ ops =>
        ∀ source target, .count source target ∈ ops → Edge source target).mpr ⟨?_, fun j _ => h.pending j⟩
      exact fun source target hmem => h.pending i source target (hp ▸ List.mem_cons_of_mem op hmem)
    cases op with
    | set state => exact ⟨h.pc, hrest, h.transitions⟩
    | count a b =>
        refine ⟨h.pc, hrest, fun source target hedge => ?_⟩
        show (s.act (.count a b)).transitions source target = 0
        rw [transitions_count]
        show s.transitions source target + (if source = a ∧ target = b then 1 else 0) = 0
        rw [h.transitions source target hedge, if_neg]
        rintro ⟨rfl, rfl⟩
        exact hedge (h.pending i _ _ (hp ▸ List.mem_cons_self))

structure Balance (transitions : HealthState → HealthState → Nat) (state : HealthState) : Prop where
  closed : transitions .opened .closed + transitions .halfOpen .closed + 1 =
    transitions .closed .opened + if state = .closed then 1 else 0
  opened : transitions .closed .opened + transitions .halfOpen .opened =
    transitions .opened .halfOpen + transitions .opened .closed + if state = .opened then 1 else 0
  halfOpen : transitions .opened .halfOpen =
    transitions .halfOpen .closed + transitions .halfOpen .opened + if state = .halfOpen then 1 else 0
  others : ∀ source target, ¬ Edge source target → transitions source target = 0

theorem owed_eq_zero {ops : List MetricOp} (h : ∀ source target, .count source target ∉ ops) : owed ops = 0 := by
  refine List.sum_eq_zero fun v hv => ?_
  obtain ⟨op, hop, rfl⟩ := List.mem_map.mp hv
  cases op with
  | set state => rfl
  | count source target => exact absurd hop (h source target)

/-- In every interleaving, once each transition has been counted, the circuit has been entered and left as often as the
counters say, so that they determine its state. -/
theorem transitions_balance (project : Text) (threshold timeoutSecs : Nat) {s : State}
    (hs : (machine project threshold timeoutSecs).Reachable s)
    (hcounted : ∀ i source target, .count source target ∉ s.pending i) :
    Balance s.transitions s.base.health.state := by
  have haccounted : Accounted s := by
    refine hs.rule (I := Accounted) ?_ fun s l t h ht => accounted_step h ht
    have hzero : unit .closed - unit .closed - net init.transitions = 0 := by
      funext x
      simp [net, init]
    show Tally _ (unit .closed - unit .closed - net init.transitions)
    rw [hzero]
    exact Tally.zero fun i => rfl
  have hproper : Proper s := by
    refine hs.rule (I := Proper) ?_ fun s l t h ht => proper_step h ht
    exact ⟨fun _ => trivial, fun _ _ _ hmem => absurd hmem List.not_mem_nil, fun _ _ _ => rfl⟩
  have hbalance : unit s.base.health.state - unit .closed - net s.transitions = 0 :=
    haccounted.eq_zero fun i => owed_eq_zero (hcounted i)
  have hnone : s.transitions .closed .halfOpen = 0 := hproper.transitions _ _ fun h => h.2 ⟨rfl, rfl⟩
  have hat : ∀ x, unit s.base.health.state x - unit .closed x - net s.transitions x = 0 := congrFun hbalance
  have hclosed := hat .closed
  have hopened := hat .opened
  have hhalf := hat .halfOpen
  unfold unit net at hclosed hopened hhalf
  rw [hnone] at hclosed hhalf
  refine ⟨?_, ?_, ?_, hproper.transitions⟩
  · cases hstate : s.base.health.state <;> rw [hstate] at hclosed <;> simp at hclosed ⊢ <;> omega
  · cases hstate : s.base.health.state <;> rw [hstate] at hopened <;> simp at hopened ⊢ <;> omega
  · cases hstate : s.base.health.state <;> rw [hstate] at hhalf <;> simp at hhalf ⊢ <;> omega

/-- A failure that opens the circuit, with what it does to the metrics. -/
def openingFailure : List Label :=
  [.health (.begin 0 .recordFailure 7), .health (.next 0 7), .health (.next 0 7), .health (.next 0 7), .metric 0,
    .health (.next 0 7), .metric 0]

/-- The timeout over, a caller is let through to probe. -/
def probing : List Label :=
  [.health (.begin 2 .isAvailable 40), .health (.next 2 40), .health (.next 2 40), .metric 2, .metric 2]

/-- A success that saw the circuit closed has yet to set the gauge when the circuit has opened and is being probed. -/
def lateSuccess : List Label :=
  [.health (.begin 1 .recordSuccess 7), .health (.next 1 7)] ++ openingFailure ++ probing

theorem transitions_balance_lateSuccess : ∃ s, (machine [] 1 30).run init lateSuccess = some s ∧
    s.pending 1 = [.set .closed] ∧ Balance s.transitions .halfOpen := by
  refine ⟨_, rfl, rfl, transitions_balance [] 1 30 ⟨lateSuccess, rfl⟩ fun i source target => ?_⟩
  match i with
  | 1 => exact List.not_mem_cons_of_ne_of_not_mem nofun List.not_mem_nil
  | 0 | 2 | _ + 3 => exact List.not_mem_nil

/-! ## The gauge -/

/-- The call sets the gauge before it returns. -/
def Recording : Pc → Prop
  | .idle | .availableLast | .availableHalfOpen => False
  | _ => True

def Owes (s : State) (i : Nat) : Prop := Recording (s.base.pc i) ∨ ∃ v, .set v ∈ s.pending i

/-- The gauge shows the state of the circuit, or is about to be set; without a series it is taken for 0, closed. -/
def Shown (s : State) : Prop := s.gauge.getD .closed = s.base.health.state ∨ ∃ i, Owes s i

def Quiet (s : State) : Prop := ∀ i, s.base.pc i = .idle ∧ s.pending i = []

/-- A call sets the gauge to the state of the circuit, or another is still to set it. -/
def Timely (s : State) : Label → Prop
  | .health _ => True
  | .metric i => ∀ v rest, s.pending i = .set v :: rest → v = s.base.health.state ∨ ∃ j, Owes (s.pop i rest) j

theorem recording_advance {threshold timeoutSecs now : Nat} {h : ProjectHealth} {pc : Pc} (hpc : Recording pc) :
    Recording (advance threshold timeoutSecs now h pc).2 ∨ ∃ v, .set v ∈ metricsAfter h pc := by
  cases pc with
  | idle | availableLast | availableHalfOpen => exact hpc.elim
  | failureGauge => exact .inr ⟨_, List.mem_cons_self⟩
  | failureStore =>
      simp only [advance]
      split <;> exact .inl trivial
  | failureLoad =>
      simp only [advance, openLoop]
      split <;> exact .inl trivial
  | failureOpen current =>
      simp only [advance, openLoop]
      split
      · exact .inl trivial
      · split <;> exact .inl trivial
  | successLoad =>
      simp only [advance, closeLoop, metricsAfter]
      split
      · exact .inr ⟨_, List.mem_cons_self⟩
      · exact .inl trivial
  | successClose current =>
      simp only [advance, closeLoop, metricsAfter]
      split
      · exact .inr ⟨_, List.mem_cons_of_mem _ List.mem_cons_self⟩
      · split
        · exact .inr ⟨_, List.mem_cons_self⟩
        · exact .inl trivial

/-- Whoever moves the circuit sets the gauge afterwards. -/
theorem owes_of_moved {threshold timeoutSecs now : Nat} {h : ProjectHealth} {pc : Pc}
    (hmoved : (advance threshold timeoutSecs now h pc).1.state ≠ h.state) :
    Recording (advance threshold timeoutSecs now h pc).2 ∨ ∃ v, .set v ∈ metricsAfter h pc := by
  cases pc with
  | idle | availableLast => exact absurd rfl hmoved
  | availableHalfOpen =>
      by_cases hs : h.state = .opened
      · exact .inr ⟨_, by rw [metricsAfter, if_pos hs]; exact List.mem_cons_self⟩
      · rw [advance, if_neg hs] at hmoved
        exact absurd rfl hmoved
  | successLoad | successClose | failureStore | failureLoad | failureOpen | failureGauge =>
      exact recording_advance trivial

theorem shown_health (h : Shown s) {m : Atomic.Label} (hp : s.pending (caller m) = []) {base : Atomic.State}
    (hbase : Atomic.step project threshold timeoutSecs s.base m = some base) :
    Shown { s with base := base, pending := Function.update s.pending (caller m) (leaves s.base m) } := by
  obtain ⟨i, call, now, rfl, hidle, rfl⟩ | ⟨i, now, rfl, rfl⟩ := Atomic.step_cases hbase
  · -- a call that begins is not yet about to set the gauge, and moves no circuit
    refine h.imp (fun hshown => ?_) ?_
    · show s.gauge.getD .closed = (enter s.base.health call).1.state
      rw [state_enter]
      exact hshown
    · rintro ⟨j, hj⟩
      have hji : j ≠ i := by
        rintro rfl
        obtain hpc | ⟨v, hv⟩ := hj
        · rw [hidle] at hpc
          exact hpc
        · rw [show s.pending j = [] from hp] at hv
          cases hv
      refine ⟨j, hj.imp (fun hpc => ?_) fun hv => ?_⟩
      · show Recording (Function.update s.base.pc i _ j)
        rwa [Function.update_of_ne hji]
      · show ∃ v, .set v ∈ Function.update s.pending i _ j
        rwa [Function.update_of_ne hji]
  · have howes : (Recording (advance (max threshold 1) timeoutSecs now s.base.health (s.base.pc i)).2 ∨
        ∃ v, .set v ∈ metricsAfter s.base.health (s.base.pc i)) → ∃ j, Owes
        { s with
          base := { s.base with
            health := (advance (max threshold 1) timeoutSecs now s.base.health (s.base.pc i)).1
            pc := Function.update s.base.pc i
              (advance (max threshold 1) timeoutSecs now s.base.health (s.base.pc i)).2 }
          pending := Function.update s.pending i (metricsAfter s.base.health (s.base.pc i)) } j := by
      intro hi
      refine ⟨i, hi.imp (fun hpc => ?_) fun hv => ?_⟩
      · show Recording (Function.update s.base.pc i _ i)
        rwa [Function.update_self]
      · show ∃ v, .set v ∈ Function.update s.pending i _ i
        rwa [Function.update_self]
    obtain hshown | ⟨j, hj⟩ := h
    · by_cases hmoved : (advance (max threshold 1) timeoutSecs now s.base.health (s.base.pc i)).1.state =
          s.base.health.state
      · exact .inl (hshown.trans hmoved.symm)
      · exact .inr (howes (owes_of_moved hmoved))
    · by_cases hji : j = i
      · subst hji
        obtain hpc | ⟨v, hv⟩ := hj
        · exact .inr (howes (recording_advance hpc))
        · rw [show s.pending j = [] from hp] at hv
          cases hv
      · refine .inr ⟨j, hj.imp (fun hpc => ?_) fun hv => ?_⟩
        · show Recording (Function.update s.base.pc i _ j)
          rwa [Function.update_of_ne hji]
        · show ∃ v, .set v ∈ Function.update s.pending i _ j
          rwa [Function.update_of_ne hji]

theorem shown_step (h : Shown s) {l : Label} (ht : step project threshold timeoutSecs s l = some t) :
    Shown t ↔ Timely s l := by
  obtain ⟨m, base, rfl, hp, hbase, rfl⟩ | ⟨i, op, rest, rfl, hp, rfl⟩ := step_cases ht
  · exact iff_of_true (shown_health h hp hbase) trivial
  · cases op with
    | set v =>
        constructor
        · intro hshown v' rest' hp'
          rw [hp] at hp'
          cases hp'
          exact hshown
        · intro htimely
          exact htimely v rest hp
    | count source target =>
        refine iff_of_true (h.imp_right ?_) fun v rest' hp' => ?_
        · rintro ⟨j, hj⟩
          refine ⟨j, hj.imp_right fun ⟨v, hv⟩ => ⟨v, ?_⟩⟩
          show .set v ∈ Function.update s.pending i rest j
          by_cases hji : j = i
          · subst hji
            rw [Function.update_self]
            rw [hp] at hv
            exact (List.mem_cons.mp hv).resolve_left nofun
          · rwa [Function.update_of_ne hji]
        · rw [hp] at hp'
          cases hp'

theorem shown_iff_of_quiet (hquiet : Quiet s) : Shown s ↔ s.gauge.getD .closed = s.base.health.state := by
  refine or_iff_left ?_
  rintro ⟨i, hpc | ⟨v, hv⟩⟩
  · rw [(hquiet i).1] at hpc
    exact hpc
  · rw [(hquiet i).2] at hv
    cases hv

/-- The gauge follows the circuit throughout an interleaving exactly when no call sets it to what the state no longer
is, with no other call left to set it; and when no call is in progress, to follow is to be equal. -/
theorem gauge_shown_iff (project : Text) (threshold timeoutSecs : Nat) (ls : List Label) :
    ((machine project threshold timeoutSecs).Always Shown init ls ↔
      (machine project threshold timeoutSecs).Guarded Timely init ls) ∧
      ∀ s, Quiet s → (Shown s ↔ s.gauge.getD .closed = s.base.health.state) := by
  constructor
  · apply Machine.always_iff_guarded (I := fun _ => True)
    · exact fun _ _ _ _ _ => trivial
    · exact fun s l t _ h ht => shown_step h ht
    · trivial
    · exact .inl rfl
  · exact fun s hquiet => shown_iff_of_quiet hquiet

/-- A success finds the circuit closed, a failure opens it and sets the gauge, then the success sets it to closed. -/
def overtakenGauge : List Label :=
  [.health (.begin 1 .recordSuccess 7), .health (.next 1 7)] ++ openingFailure ++ [.metric 1]

theorem gauge_left_behind : ∃ s, (machine [] 1 30).run init overtakenGauge = some s ∧ Quiet s ∧
    s.gauge = some .closed ∧ s.base.health.state = .opened := by
  refine ⟨_, rfl, fun i => ?_, rfl, rfl⟩
  match i with
  | 0 | 1 | _ + 2 => exact ⟨rfl, rfl⟩

def Alone (s : State) : Label → Prop
  | .health (.begin _ _ _) => Quiet s
  | _ => True

/-- One caller at most is under way, and what it will set the gauge to is the state. -/
structure Solo (s : State) (i : Nat) : Prop where
  others : ∀ j ≠ i, s.base.pc j = .idle ∧ s.pending j = []
  timely : ∀ v, .set v ∈ s.pending i → v = s.base.health.state

theorem eq_state_of_mem_metricsAfter {threshold timeoutSecs now : Nat} {h : ProjectHealth} {pc : Pc} {v : HealthState}
    (hmem : .set v ∈ metricsAfter h pc) : v = (advance threshold timeoutSecs now h pc).1.state := by
  cases pc with
  | idle | availableLast | failureStore | failureLoad => cases hmem
  | failureGauge => simpa [metricsAfter, advance] using hmem
  | availableHalfOpen =>
      by_cases hs : h.state = .opened <;> simp [metricsAfter, advance, hs] at hmem ⊢
      exact hmem
  | successLoad =>
      by_cases hs : h.state = .closed <;> simp [metricsAfter, advance, hs] at hmem ⊢
      exact hmem
  | successClose current =>
      by_cases hs : h.state = current
      · rw [metricsAfter, if_pos hs] at hmem
        rw [advance, if_pos hs]
        simpa using hmem
      · rw [metricsAfter, if_neg hs] at hmem
        rw [advance, if_neg hs]
        split at hmem
        · rename_i hclosed
          rw [hclosed]
          simpa using hmem
        · cases hmem
  | failureOpen current =>
      by_cases hs : h.state = current <;> simp [metricsAfter, hs] at hmem

theorem solo_step (h : ∃ i, Solo s i) {l : Label} (halone : Alone s l)
    (ht : step project threshold timeoutSecs s l = some t) : ∃ i, Solo t i := by
  obtain ⟨k, hk⟩ := h
  obtain ⟨m, base, rfl, hp, hbase, rfl⟩ | ⟨i, op, rest, rfl, hp, rfl⟩ := step_cases ht
  · obtain ⟨i, call, now, rfl, hidle, rfl⟩ | ⟨i, now, rfl, rfl⟩ := Atomic.step_cases hbase
    · have hquiet : Quiet s := halone
      refine ⟨i, ?_, fun v hv => ?_⟩
      · intro j hj
        show Function.update s.base.pc i _ j = .idle ∧ Function.update s.pending i _ j = []
        rw [Function.update_of_ne hj, Function.update_of_ne hj]
        exact hquiet j
      · have hv : .set v ∈ Function.update s.pending i [] i := hv
        rw [Function.update_self] at hv
        cases hv
    · have hik : i = k := by
        by_contra hne
        rw [Atomic.step, if_pos (hk.others i hne).1] at hbase
        cases hbase
      subst hik
      refine ⟨i, ?_, fun v hv => ?_⟩
      · intro j hj
        show Function.update s.base.pc i _ j = .idle ∧ Function.update s.pending i _ j = []
        rw [Function.update_of_ne hj, Function.update_of_ne hj]
        exact hk.others j hj
      · have hv : .set v ∈ Function.update s.pending i (metricsAfter s.base.health (s.base.pc i)) i := hv
        rw [Function.update_self] at hv
        exact eq_state_of_mem_metricsAfter hv
  · have hik : i = k := by
      by_contra hne
      rw [(hk.others i hne).2] at hp
      cases hp
    subst hik
    refine ⟨i, fun j hj => ?_, fun v hv => ?_⟩
    · have hother : Function.update s.pending i rest j = s.pending j := Function.update_of_ne hj ..
      cases op <;> exact ⟨(hk.others j hj).1, hother.trans (hk.others j hj).2⟩
    · have hv : .set v ∈ Function.update s.pending i rest i := by cases op <;> exact hv
      rw [Function.update_self] at hv
      have hstate := hk.timely v (hp ▸ List.mem_cons_of_mem op hv)
      cases op <;> exact hstate

theorem timely_of_solo {i : Nat} (h : Solo s i) (l : Label) : Timely s l := by
  cases l with
  | health m => trivial
  | metric j =>
      intro v rest hp
      by_cases hj : j = i
      · subst hj
        exact .inl (h.timely v (hp ▸ List.mem_cons_self))
      · rw [(h.others j hj).2] at hp
        cases hp

/-- Calls that do not overlap leave the gauge at the state of the circuit. -/
theorem gauge_of_sequential (project : Text) (threshold timeoutSecs : Nat) (ls : List Label) (s : State)
    (hrun : (machine project threshold timeoutSecs).run init ls = some s)
    (halone : (machine project threshold timeoutSecs).Guarded Alone init ls) (hquiet : Quiet s) :
    s.gauge.getD .closed = s.base.health.state := by
  have hshown : Shown s ∧ ∃ i, Solo s i := by
    refine halone.run_rule (I := fun s => Shown s ∧ ∃ i, Solo s i) ?_ ⟨.inl rfl, 0, ?_, ?_⟩ hrun
    · rintro s l t ⟨h, i, hi⟩ hl ht
      exact ⟨(shown_step h ht).mpr (timely_of_solo hi l), solo_step ⟨i, hi⟩ hl ht⟩
    · exact fun _ _ => ⟨rfl, rfl⟩
    · exact fun v hv => absurd hv List.not_mem_nil
  exact (shown_iff_of_quiet hquiet).mp hshown.1

theorem gauge_of_probing : ∃ s, (machine [] 1 30).run init (openingFailure ++ probing) = some s ∧
    s.base.health.state = .halfOpen ∧ s.gauge.getD .closed = s.base.health.state := by
  refine ⟨_, rfl, rfl, gauge_of_sequential [] 1 30 (openingFailure ++ probing) _ rfl ?_ fun i => ?_⟩
  · -- two of the labels begin a call
    refine (Machine.guarded_cons rfl).mpr ⟨fun i => ⟨rfl, rfl⟩, ?_⟩
    iterate 6 refine (Machine.guarded_cons rfl).mpr ⟨trivial, ?_⟩
    refine (Machine.guarded_cons rfl).mpr ⟨fun i => by cases i <;> exact ⟨rfl, rfl⟩, ?_⟩
    iterate 4 refine (Machine.guarded_cons rfl).mpr ⟨trivial, ?_⟩
    trivial
  · match i with
    | 0 | 1 | 2 | _ + 3 => exact ⟨rfl, rfl⟩

end Metered
end HarborRouter
