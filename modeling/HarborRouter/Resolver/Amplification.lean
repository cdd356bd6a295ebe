import HarborRouter.Resolver.OneCall
import HarborRouter.Resolver.Progress

/-!
# How many requests a client can cause

`max_fanout` is there so that one request of a client is not turned into any number of requests upstream. The requests
of a run are paid for by its calls: each has the attempts of one fetch and one lookup to spend, on a hit and the refresh
of a stale entry, or on a hit that failed and the lookup after it.

* `requests_bounded` : what all calls and refreshes send together, in every interleaving.
-/

namespace HarborRouter

def Singleflight.Phase.mayLook {K R : Type} : Singleflight.Phase K R → Bool
  | .outside | .leading .. => true
  | _ => false

namespace Manifest
open Lib

variable {cfg : Config}

def attempts (cfg : Config) : Nat := max cfg.retryMaxAttempts 1

/-- The requests that a step sends. How many a dropped call has sent is not known; all it may have are counted. -/
def sends (s : State cfg) : Label cfg → Nat
  | .fetched i reply =>
      match s.stage i with
      | .fetching _ project _ => (fetches cfg.retryMaxAttempts project reply).length
      | _ => 0
  | .looked _ f | .refreshed _ f => f.probed.length
  | .drop i =>
      match s.stage i, s.flight.phase i with
      | .fetching .., _ => attempts cfg
      | .flying _, .leading .. => cfg.maxFanout
      | _, _ => 0
  | _ => 0

/-! ## What is left to spend -/

def Stage.budget (p : Singleflight.Phase Text (Lookup cfg)) : Stage cfg → Nat
  | .reading _ | .fetching .. => attempts cfg + cfg.maxFanout
  | .evicting .. => cfg.maxFanout
  | .flying _ => if p.mayLook then cfg.maxFanout else 0
  | .absent | .storing .. | .storingImage .. | .answered .. | .cancelled => 0

def Task.budget : Task cfg → Nat
  | .looking _ => cfg.maxFanout
  | .absent | .storing .. | .storingImage .. | .done => 0

def callBudget (s : State cfg) (i : CallId) : Nat := (s.stage i).budget (s.flight.phase i)

def taskBudget (s : State cfg) (j : TaskId) : Nat := (s.task j).budget

/-- One call and one refresh pay for the step, out of what they had and what a new call is given. -/
def Paid (s : State cfg) (l : Label cfg) (t : State cfg) : Prop :=
  ∃ i j, (∀ k, k ≠ i → callBudget t k = callBudget s k) ∧ (∀ k, k ≠ j → taskBudget t k = taskBudget s k) ∧
    callBudget t i + taskBudget t j + sends s l ≤
      callBudget s i + taskBudget s j + (attempts cfg + cfg.maxFanout) * l.starts.toNat

theorem budget_flying_le (c : Call) (p : Singleflight.Phase Text (Lookup cfg)) :
    (Stage.flying c : Stage cfg).budget p ≤ cfg.maxFanout := by
  show (if p.mayLook then cfg.maxFanout else 0) ≤ _
  split <;> omega

/-! ## Steps -/

section Steps
variable {s t : State cfg} {l : Label cfg}

theorem callBudget_congr {i : CallId} (hstage : t.stage i = s.stage i) (hphase : t.flight.phase i = s.flight.phase i) :
    callBudget t i = callBudget s i := by
  unfold callBudget
  rw [hstage, hphase]

theorem Paid.ofStage {i : CallId} (st : Stage cfg) (hstage : t.stage = Function.update s.stage i st)
    (hflight : t.flight = s.flight) (htask : t.task = s.task)
    (hi : st.budget (s.flight.phase i) + sends s l ≤
      (s.stage i).budget (s.flight.phase i) + (attempts cfg + cfg.maxFanout) * l.starts.toNat) : Paid s l t := by
  have htasks : ∀ k, taskBudget t k = taskBudget s k := fun k => by rw [taskBudget, taskBudget, htask]
  have hcall : callBudget t i = st.budget (s.flight.phase i) := by
    rw [callBudget, hstage, Function.update_self, hflight]
  refine ⟨i, 0, fun k hk => callBudget_congr ?_ (by rw [hflight]), fun k _ => htasks k, ?_⟩
  · rw [hstage, Function.update_of_ne hk]
  · rw [hcall, htasks]
    unfold callBudget
    omega

/-- A call moves in `singleflight`; the lookup of a leader is paid for when it ends. -/
theorem Paid.ofFlight {i : CallId} {c : Call} {a : Singleflight.Action Text (Lookup cfg)}
    {fl : Singleflight.State Text (Lookup cfg)} (hi : s.stage i = .flying c)
    (hf : Singleflight.step s.flight ⟨i, a⟩ = some fl) (hstage : t.stage = s.stage) (hflight : t.flight = fl)
    (htask : t.task = s.task)
    (hsends : sends s l + (if (fl.phase i).mayLook then cfg.maxFanout else 0) ≤
      if (s.flight.phase i).mayLook then cfg.maxFanout else 0) : Paid s l t := by
  obtain ⟨p, hp, -⟩ := (Singleflight.step_cases hf).phase_update
  have htasks : ∀ k, taskBudget t k = taskBudget s k := fun k => by rw [taskBudget, taskBudget, htask]
  have hbefore : callBudget s i = if (s.flight.phase i).mayLook then cfg.maxFanout else 0 := by rw [callBudget, hi]; rfl
  have hafter : callBudget t i = if (fl.phase i).mayLook then cfg.maxFanout else 0 := by
    rw [callBudget, hstage, hi, hflight]
    rfl
  refine ⟨i, 0, fun k hk => callBudget_congr (by rw [hstage]) ?_, fun k _ => htasks k, ?_⟩
  · rw [hflight, hp, Function.update_of_ne hk]
  · rw [hbefore, hafter, htasks]
    omega

theorem Paid.ofTask {j : TaskId} (tk : Task cfg) (hstage : t.stage = s.stage) (hflight : t.flight = s.flight)
    (htask : t.task = Function.update s.task j tk) (hj : tk.budget + sends s l ≤ (s.task j).budget) : Paid s l t := by
  have hcalls : ∀ k, callBudget t k = callBudget s k := fun k => callBudget_congr (by rw [hstage]) (by rw [hflight])
  refine ⟨0, j, fun k _ => hcalls k, fun k hk => ?_, ?_⟩
  · rw [taskBudget, htask, Function.update_of_ne hk, taskBudget]
  · have hnow : taskBudget t j = tk.budget := by rw [taskBudget, htask, Function.update_self]
    rw [hcalls, hnow]
    unfold taskBudget
    omega

theorem mayLook_step {i : CallId} {a : Singleflight.Action Text (Lookup cfg)}
    {fl : Singleflight.State Text (Lookup cfg)} (hf : Singleflight.step s.flight ⟨i, a⟩ = some fl)
    (h : (fl.phase i).mayLook = true) : (s.flight.phase i).mayLook = true := by
  have hstep := Singleflight.step_cases hf
  dsimp only at hstep
  cases hstep with
  | lead k hp hk => rw [hp]; rfl
  | join k f hp hk => rw [hp]; rfl
  | looked k f r hp => rw [hp]; rfl
  | dropLeader k f hp => rw [hp]; rfl
  | _ => simp [Singleflight.Phase.mayLook] at h

theorem paid_moved {u : State cfg} (h : Moved s l u) : Paid s l u := by
  cases h with
  | call i c hs =>
      refine .ofStage (.reading c) rfl rfl rfl ?_
      simp only [sends, Label.starts, Stage.budget, Bool.toNat_true]
      omega
  | get i now c hs =>
      refine .ofStage _ rfl rfl rfl ?_
      have hfly := budget_flying_le c (s.flight.phase i)
      rcases afterGet_cases cfg c now (s.cache c.key) with hst | hst | ⟨project, stale, hst⟩ <;>
        rw [hst, hs] <;> simp only [Stage.budget, sends] at hfly ⊢ <;> omega
  | served i reply c project stale r hs hr h200 t ht =>
      have hfetches : (fetches cfg.retryMaxAttempts project reply).length ≤ attempts cfg := length_fetches_le ..
      have hsends : sends s (.fetched i reply) = (fetches cfg.retryMaxAttempts project reply).length := by
        simp only [sends, hs]
      cases stale with
      | false =>
          refine .ofStage (.answered c (.cached r)) (by rw [ht]; rfl) (by rw [ht]; rfl) (by rw [ht]; rfl) ?_
          rw [hsends, hs]
          simp only [Stage.budget]
          omega
      | true =>
          -- the refresh takes over what the call has not spent
          have hbefore : callBudget s i = attempts cfg + cfg.maxFanout := by rw [callBudget, hs]; rfl
          have hafter : callBudget (t.spawn c) i = 0 := by
            rw [callBudget, ht]
            show (Function.update s.stage i (.answered c (.cached r)) i).budget _ = 0
            rw [Function.update_self]
            rfl
          refine ⟨i, t.tasks, fun k hk => callBudget_congr ?_ (by rw [ht]; rfl), fun k hk => ?_, ?_⟩
          · rw [ht]
            exact Function.update_of_ne hk ..
          · rw [ht] at hk ⊢
            exact congrArg Task.budget (Function.update_of_ne hk ..)
          · have htask : taskBudget (t.spawn c) t.tasks = cfg.maxFanout := by
              show (Function.update t.task t.tasks (.looking c) t.tasks).budget = _
              rw [Function.update_self]
              rfl
            rw [if_pos rfl, hafter, htask, hsends, hbefore]
            omega
  | outdated i reply c project stale hs =>
      have hfetches : (fetches cfg.retryMaxAttempts project reply).length ≤ attempts cfg := length_fetches_le ..
      refine .ofStage (.evicting c s.tick) rfl rfl rfl ?_
      simp only [sends, hs, Stage.budget]
      omega
  | evict i c observed hs =>
      refine .ofStage (.flying c) rfl rfl rfl ?_
      have hfly := budget_flying_le c (s.flight.phase i)
      rw [hs]
      simp only [sends, Stage.budget] at hfly ⊢
      omega
  | enter i c fl hs hf =>
      refine .ofFlight hs hf rfl rfl rfl ?_
      have hlook := mayLook_step hf
      simp only [sends]
      split <;> split <;> simp_all
  | looked i f c fl hs hf =>
      have hprobed := f.length_probed_le
      have hstep := Singleflight.step_cases hf
      refine .ofFlight hs hf rfl rfl rfl ?_
      cases hstep with
      | looked k g _ hp =>
          have hafter : ((s.flight.setPhase i (.publishing k g ⟨c, f, s.tick⟩)).phase i).mayLook = false := by
            simp [Singleflight.Phase.mayLook]
          rw [hafter, hp]
          exact hprobed
  | fly i a c fl hs ha hf =>
      refine .ofFlight hs hf rfl rfl rfl ?_
      have hlook := mayLook_step hf
      simp only [sends]
      split <;> split <;> simp_all
  | land i c e hs he =>
      refine .ofStage _ rfl rfl rfl ?_
      rcases afterFlight_cases c e with ⟨l, -, hst⟩ | hst <;> rw [hst] <;> simp only [Stage.budget, sends] <;> omega
  | store i now c l st hs hst =>
      refine .ofStage st rfl rfl rfl ?_
      rcases hst with rfl | rfl <;> simp only [Stage.budget, sends] <;> omega
  | storeImage i c l r hs hr =>
      refine .ofStage _ rfl rfl rfl ?_
      simp only [Stage.budget, sends]
      omega
  | drop i hs =>
      refine .ofStage .cancelled rfl rfl rfl ?_
      cases hstage : s.stage i with
      | flying c =>
          rw [hstage] at hs
          cases hs
      | fetching c project stale =>
          simp only [sends, hstage, Stage.budget]
          omega
      | _ => simp only [sends, hstage, Stage.budget, Nat.zero_add, Nat.zero_le]
  | dropFlight i c fl hs hf =>
      have hbefore : callBudget s i = if (s.flight.phase i).mayLook then cfg.maxFanout else 0 := by
        rw [callBudget, hs]
        rfl
      have hafter : callBudget ((s.setFlight fl).setStage i .cancelled) i = 0 := by
        show (Function.update s.stage i .cancelled i).budget _ = 0
        rw [Function.update_self]
        rfl
      have hsends : sends s (.drop i) ≤ if (s.flight.phase i).mayLook then cfg.maxFanout else 0 := by
        simp only [sends, hs]
        cases s.flight.phase i <;> simp [Singleflight.Phase.mayLook]
      obtain ⟨p, hp, -⟩ := (Singleflight.step_cases hf).phase_update
      refine ⟨i, 0, fun k hk => callBudget_congr (Function.update_of_ne hk ..) ?_, fun _ _ => rfl, ?_⟩
      · show fl.phase k = s.flight.phase k
        rw [hp, Function.update_of_ne hk]
      · rw [hbefore, hafter]
        show 0 + taskBudget s 0 + _ ≤ _
        omega
  | refreshed j f c t hs ht =>
      have hprobed := f.length_probed_le
      refine .ofTask t rfl rfl rfl ?_
      rw [hs]
      rcases ht with rfl | rfl <;> simp only [Task.budget, sends] <;> omega
  | refreshStore j now c l r hs hr =>
      refine .ofTask _ rfl rfl rfl ?_
      simp only [Task.budget, sends]
      omega
  | refreshStoreImage j c l r hs hr =>
      refine .ofTask .done rfl rfl rfl ?_
      simp only [Task.budget, sends]
      omega
  | expire key => exact ⟨0, 0, fun _ _ => rfl, fun _ _ => rfl, Nat.le_add_right ..⟩

theorem paid_step (h : step s l = some t) : Paid s l t := by
  obtain ⟨u, hu, rfl⟩ := step_cases h
  obtain ⟨i, j, hcall, htask, hpaid⟩ := paid_moved hu
  exact ⟨i, j, hcall, htask, hpaid⟩

/-! ## Runs -/

/-- What all calls and refreshes may still send is `n` together. -/
def Budget (s : State cfg) (n : ℤ) : Prop :=
  ∃ a b, Tally (fun i => (callBudget s i : ℤ)) a ∧ Tally (fun j => (taskBudget s j : ℤ)) b ∧ n = a + b

theorem budget_step {n : ℤ} (h : Budget s n) (ht : step s l = some t) :
    ∃ m, Budget t m ∧ m + sends s l ≤ n + (attempts cfg + cfg.maxFanout : Nat) * l.starts.toNat + false.toNat := by
  obtain ⟨a, b, ha, hb, rfl⟩ := h
  obtain ⟨i, j, hcall, htask, hpaid⟩ := paid_step ht
  refine ⟨_, ⟨_, _, ha.move (fun k => (callBudget t k : ℤ)) i fun k hk => congrArg Nat.cast (hcall k hk),
    hb.move (fun k => (taskBudget t k : ℤ)) j fun k hk => congrArg Nat.cast (htask k hk), rfl⟩, ?_⟩
  have hpaid : (callBudget t i + taskBudget t j + sends s l : ℤ) ≤
      callBudget s i + taskBudget s j + (attempts cfg + cfg.maxFanout : Nat) * l.starts.toNat := by
    exact_mod_cast hpaid
  rw [Bool.toNat_false]
  omega

end Steps

/-- In every interleaving, with any calls dropped, the requests that all calls and refreshes send upstream are at most
the attempts of one fetch and `max_fanout` for every call. -/
theorem requests_bounded (cfg : Config) (ls : List (Label cfg)) (s : State cfg)
    (h : (machine cfg).run (machine cfg).init ls = some s) :
    (machine cfg).cost sends (machine cfg).init ls ≤ (attempts cfg + cfg.maxFanout) * ls.countP Label.starts := by
  have hinit : Budget (machine cfg).init 0 := ⟨0, 0, Tally.zero fun _ => rfl, Tally.zero fun _ => rfl, rfl⟩
  obtain ⟨m, ⟨a, b, ha, hb, rfl⟩, hle⟩ := Machine.run_cost_le (c := sends) (P := Budget)
    (a := attempts cfg + cfg.maxFanout) (p := Label.starts) (q := fun _ => false)
    (fun s l t n hs ht => budget_step hs ht) hinit h
  have hcalls := ha.nonneg fun i => Int.natCast_nonneg (callBudget s i)
  have htasks := hb.nonneg fun j => Int.natCast_nonneg (taskBudget s j)
  have hnone : ls.countP (fun _ => false) = 0 := by simp
  rw [hnone] at hle
  push_cast at hle
  have hcost : ((machine cfg).cost sends (machine cfg).init ls : ℤ) ≤
      (attempts cfg + cfg.maxFanout) * ls.countP Label.starts := by omega
  exact_mod_cast hcost

/-- The leader, the stale hit and the refresh ask one project each. -/
theorem requests_bounded_sharedThenStale : (machine .default).cost sends (machine .default).init sharedThenStale = 3 ∧
    (machine .default).cost sends (machine .default).init sharedThenStale ≤
      (attempts .default + Config.default.maxFanout) * sharedThenStale.countP Label.starts :=
  ⟨rfl, requests_bounded .default sharedThenStale _ rfl⟩

end Manifest
end HarborRouter
