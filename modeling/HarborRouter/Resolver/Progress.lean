import HarborRouter.Lib.Meter
import HarborRouter.Resolver.Provenance

/-!
# Every call comes to an end

How many awaits a call of `resolve_manifest` has left at most, and a refresh: the leader's way through `singleflight`
and the follower's are straight, and nothing is tried again but within one await.

* `run_bounded` : a run has no more steps than its calls and expired entries account for;
* `call_returns` : whatever all others do not do, a call can go on by itself until it is answered.
-/

namespace HarborRouter

def Singleflight.Phase.left {K R : Type} : Singleflight.Phase K R → Nat
  | .outside => 5
  | .leading .. => 3
  | .publishing .. => 2
  | .removing .. => 1
  | .joined .. => 4
  | .subscribed .. => 3
  | .waiting .. => 2
  | .woken .. => 1
  | .led .. | .followed .. | .cancelled => 0

namespace Manifest
open Lib

variable {cfg : Config}

/-- The steps that are left at most to a call that has begun and is in phase `p` of `singleflight`. -/
def Stage.left (p : Singleflight.Phase Text (Lookup cfg)) : Stage cfg → Nat
  | .absent | .answered .. | .cancelled => 0
  | .reading _ => 11
  | .fetching .. => 10
  | .evicting .. => 9
  | .flying _ => 3 + p.left
  | .storing .. => 2
  | .storingImage .. => 1

def Task.left : Task cfg → Nat
  | .absent | .done => 0
  | .looking _ => 3
  | .storing .. => 2
  | .storingImage .. => 1

def callLeft (s : State cfg) (i : CallId) : Nat := (s.stage i).left (s.flight.phase i)

def taskLeft (s : State cfg) (j : TaskId) : Nat := (s.task j).left

def Label.starts : Label cfg → Bool
  | .call .. => true
  | _ => false

def Label.caller : Label cfg → Option CallId
  | .call i _ | .get i _ | .fetched i _ | .evict i | .enter i | .looked i _ | .fly i _ | .land i => some i
  | .store i _ | .storeImage i | .drop i => some i
  | .refreshed .. | .refreshStore .. | .refreshStoreImage _ | .expire _ => none

def Label.expires : Label cfg → Bool
  | .expire _ => true
  | _ => false

/-! ## What a step leaves -/

/-- A step of a call lowers what it has left by one at least, to `n`, unless it starts the call; a refresh is started
by a call that is answered at the same time. -/
inductive Worked (s : State cfg) (l : Label cfg) (t : State cfg) : Prop
  | started (i : CallId) (hl : l.starts = true) (hi : callLeft s i = 0) (hi' : callLeft t i = 11)
      (hcall : ∀ j, j ≠ i → callLeft t j = callLeft s j) (htask : ∀ j, taskLeft t j = taskLeft s j)
  | called (i : CallId) (hl : l.caller = some i) (hi : callLeft t i < callLeft s i)
      (hcall : ∀ j, j ≠ i → callLeft t j = callLeft s j) (htask : ∀ j, taskLeft t j = taskLeft s j)
  | spawned (i : CallId) (j : TaskId) (hl : l.caller = some i) (hi : callLeft s i = 10) (hi' : callLeft t i = 0)
      (hcall : ∀ j, j ≠ i → callLeft t j = callLeft s j) (hj : taskLeft t j ≤ taskLeft s j + 3)
      (htask : ∀ k, k ≠ j → taskLeft t k = taskLeft s k)
  | refreshed (j : TaskId) (hl : l.caller = none) (hj : taskLeft t j < taskLeft s j)
      (htask : ∀ k, k ≠ j → taskLeft t k = taskLeft s k) (hcall : ∀ i, callLeft t i = callLeft s i)
  | expired (hl : l.expires = true) (hcall : ∀ i, callLeft t i = callLeft s i)
      (htask : ∀ j, taskLeft t j = taskLeft s j)

theorem callLeft_congr {s t : State cfg} {i : CallId} (hstage : t.stage i = s.stage i)
    (hphase : t.flight.phase i = s.flight.phase i) : callLeft t i = callLeft s i := by
  unfold callLeft
  rw [hstage, hphase]

theorem taskLeft_congr {s t : State cfg} {j : TaskId} (htask : t.task j = s.task j) : taskLeft t j = taskLeft s j := by
  unfold taskLeft
  rw [htask]

theorem Worked.ofStage {s t : State cfg} {l : Label cfg} {i : CallId} {st : Stage cfg} (hl : l.caller = some i)
    (hstage : t.stage = Function.update s.stage i st) (hflight : t.flight = s.flight) (htask : t.task = s.task)
    (hi : st.left (s.flight.phase i) < (s.stage i).left (s.flight.phase i)) : Worked s l t := by
  refine .called i hl ?_ (fun j hj => callLeft_congr ?_ ?_) fun j => taskLeft_congr ?_
  · unfold callLeft
    rw [hstage, Function.update_self, hflight]
    exact hi
  · rw [hstage, Function.update_of_ne hj]
  · rw [hflight]
  · rw [htask]

theorem Worked.ofFlight {s t : State cfg} {l : Label cfg} {i : CallId} {a : Singleflight.Action Text (Lookup cfg)}
    {c : Call} {fl : Singleflight.State Text (Lookup cfg)} (hl : l.caller = some i) (hi : s.stage i = .flying c)
    (hf : Singleflight.step s.flight ⟨i, a⟩ = some fl) (hstage : t.stage = s.stage) (hflight : t.flight = fl)
    (htask : t.task = s.task) : Worked s l t := by
  have hstep := Singleflight.step_cases hf
  obtain ⟨p, hp, -⟩ := hstep.phase_update
  have hleft : (fl.phase i).left < (s.flight.phase i).left := by
    cases hstep with
    | remove k f r hphase => simp [hphase, Singleflight.Phase.left]
    | _ => simp [‹s.flight.phase i = _›, Singleflight.Phase.left]
  refine .called i hl ?_ (fun j hj => callLeft_congr ?_ ?_) fun j => taskLeft_congr ?_
  · unfold callLeft
    rw [hstage, hi, hflight]
    exact Nat.add_lt_add_left hleft 3
  · rw [hstage]
  · rw [hflight, hp, Function.update_of_ne hj]
  · rw [htask]

theorem Worked.ofTask {s t : State cfg} {l : Label cfg} {j : TaskId} {tk : Task cfg} (hl : l.caller = none)
    (hstage : t.stage = s.stage)
    (hflight : t.flight = s.flight) (htask : t.task = Function.update s.task j tk)
    (hj : tk.left < (s.task j).left) : Worked s l t := by
  refine .refreshed j hl ?_ (fun k hk => taskLeft_congr ?_) fun i => callLeft_congr ?_ ?_
  · unfold taskLeft
    rw [htask, Function.update_self]
    exact hj
  · rw [htask, Function.update_of_ne hk]
  · rw [hstage]
  · rw [hflight]

theorem left_le (p : Singleflight.Phase Text (Lookup cfg)) : p.left ≤ 5 := by
  cases p <;> simp [Singleflight.Phase.left]

theorem left_pos {st : Stage cfg} (h : st.awaits = true) (p : Singleflight.Phase Text (Lookup cfg)) :
    0 < st.left p := by
  cases st <;> simp [Stage.awaits, Stage.left] at h ⊢

theorem worked_moved {s u : State cfg} {l : Label cfg} (h : Moved s l u) : Worked s l u := by
  have hphase : ∀ i, (s.flight.phase i).left ≤ 5 := fun i => left_le _
  cases h with
  | call i c hs =>
      refine .started i rfl (by rw [callLeft, hs]; rfl) ?_ (fun j hj => callLeft_congr ?_ rfl) fun _ => rfl
      · show (Function.update s.stage i (.reading c) i).left _ = 11
        rw [Function.update_self]
        rfl
      · exact Function.update_of_ne hj ..
  | get i now c hs =>
      refine .ofStage rfl rfl rfl rfl ?_
      have := hphase i
      rcases afterGet_cases cfg c now (s.cache c.key) with hst | hst | ⟨project, stale, hst⟩ <;>
        simp only [hst, hs, Stage.left] <;> omega
  | served i reply c project stale r hs hr h200 t ht =>
      have hi : callLeft s i = 10 := by rw [callLeft, hs]; rfl
      have hi' : callLeft t i = 0 := by
        subst ht
        show (Function.update s.stage i (.answered c (.cached r)) i).left _ = 0
        rw [Function.update_self]
        rfl
      have hcall : ∀ j, j ≠ i → callLeft t j = callLeft s j := fun j hj => callLeft_congr
        (by subst ht; exact Function.update_of_ne hj ..) (by subst ht; rfl)
      have htask : ∀ j, t.task j = s.task j := fun j => by subst ht; rfl
      cases stale with
      | false => exact .called i rfl (by show callLeft t i < _; omega) hcall fun j => taskLeft_congr (htask j)
      | true =>
          refine .spawned i t.tasks rfl hi hi' hcall ?_ fun k hk => taskLeft_congr ?_
          · show (Function.update t.task t.tasks (.looking c) t.tasks).left ≤ _
            rw [Function.update_self]
            exact Nat.le_add_left ..
          · exact (Function.update_of_ne hk ..).trans (htask k)
  | outdated i reply c project stale hs =>
      refine .ofStage rfl rfl rfl rfl ?_
      simp only [hs, Stage.left]
      omega
  | evict i c observed hs =>
      refine .ofStage rfl rfl rfl rfl ?_
      have := hphase i
      simp only [hs, Stage.left]
      omega
  | enter i c fl hs hf => exact .ofFlight rfl hs hf rfl rfl rfl
  | looked i f c fl hs hf => exact .ofFlight rfl hs hf rfl rfl rfl
  | fly i a c fl hs ha hf => exact .ofFlight rfl hs hf rfl rfl rfl
  | land i c e hs he =>
      refine .ofStage rfl rfl rfl rfl ?_
      rcases afterFlight_cases c e with ⟨l, -, hst⟩ | hst <;> simp only [hst, hs, Stage.left] <;> omega
  | store i now c l st hs hst =>
      refine .ofStage rfl rfl rfl rfl ?_
      rcases hst with rfl | rfl <;> simp only [hs, Stage.left] <;> omega
  | storeImage i c l r hs hr =>
      refine .ofStage rfl rfl rfl rfl ?_
      simp only [hs, Stage.left]
      omega
  | drop i hs => exact .ofStage rfl rfl rfl rfl (left_pos hs _)
  | dropFlight i c fl hs hf =>
      obtain ⟨p, hp, -⟩ := (Singleflight.step_cases hf).phase_update
      refine .called i rfl ?_ (fun j hj => callLeft_congr ?_ ?_) fun _ => rfl
      · show (Function.update s.stage i .cancelled i).left _ < (s.stage i).left _
        rw [Function.update_self, hs]
        simp only [Stage.left]
        omega
      · exact Function.update_of_ne hj ..
      · show fl.phase j = s.flight.phase j
        rw [hp, Function.update_of_ne hj]
  | refreshed j f c t hs ht =>
      refine .ofTask rfl rfl rfl rfl ?_
      rcases ht with rfl | rfl <;> simp only [hs, Task.left] <;> omega
  | refreshStore j now c l r hs hr =>
      refine .ofTask rfl rfl rfl rfl ?_
      simp only [hs, Task.left]
      omega
  | refreshStoreImage j c l r hs hr =>
      refine .ofTask rfl rfl rfl rfl ?_
      simp only [hs, Task.left]
      omega
  | expire key => exact .expired rfl (fun _ => rfl) fun _ => rfl

theorem worked_step {s t : State cfg} {l : Label cfg} (h : step s l = some t) : Worked s l t := by
  obtain ⟨u, hu, rfl⟩ := step_cases h
  -- the tick is no part of what is left
  cases worked_moved hu with
  | started i hl hi hi' hcall htask => exact .started i hl hi hi' hcall htask
  | called i hl hi hcall htask => exact .called i hl hi hcall htask
  | spawned i j hl hi hi' hcall hj htask => exact .spawned i j hl hi hi' hcall hj htask
  | refreshed j hl hj htask hcall => exact .refreshed j hl hj htask hcall
  | expired hl hcall htask => exact .expired hl hcall htask

/-! ## How long a run is -/

/-- What all calls and refreshes have left is `n` together. -/
def Left (s : State cfg) (n : ℤ) : Prop :=
  ∃ a b, Tally (fun i => (callLeft s i : ℤ)) a ∧ Tally (fun j => (taskLeft s j : ℤ)) b ∧ n = a + b

theorem left_init : Left (init : State cfg) 0 := ⟨0, 0, Tally.zero fun _ => rfl, Tally.zero fun _ => rfl, rfl⟩

theorem left_nonneg {s : State cfg} {n : ℤ} (h : Left s n) : 0 ≤ n := by
  obtain ⟨a, b, ha, hb, rfl⟩ := h
  have hcalls := ha.nonneg fun i => Int.natCast_nonneg (callLeft s i)
  have htasks := hb.nonneg fun j => Int.natCast_nonneg (taskLeft s j)
  omega

theorem left_step {s t : State cfg} {l : Label cfg} {n : ℤ} (h : Left s n) (ht : step s l = some t) :
    ∃ m, Left t m ∧ m + 1 ≤ n + 12 * l.starts.toNat + l.expires.toNat := by
  obtain ⟨a, b, ha, hb, rfl⟩ := h
  have hcalls : ∀ i, (∀ j, j ≠ i → callLeft t j = callLeft s j) →
      Tally (fun i => (callLeft t i : ℤ)) (a + (callLeft t i - callLeft s i)) := fun i hcall =>
    ha.move (fun i => (callLeft t i : ℤ)) i fun j hj => congrArg Nat.cast (hcall j hj)
  have htasks : ∀ j, (∀ k, k ≠ j → taskLeft t k = taskLeft s k) →
      Tally (fun j => (taskLeft t j : ℤ)) (b + (taskLeft t j - taskLeft s j)) := fun j htask =>
    hb.move (fun j => (taskLeft t j : ℤ)) j fun k hk => congrArg Nat.cast (htask k hk)
  have hsame : (∀ j, taskLeft t j = taskLeft s j) → Tally (fun j => (taskLeft t j : ℤ)) b := fun htask =>
    hb.stay fun j => congrArg Nat.cast (htask j)
  cases worked_step ht with
  | started i hl hi hi' hcall htask =>
      refine ⟨_, ⟨_, _, hcalls i hcall, hsame htask, rfl⟩, ?_⟩
      rw [hl, hi, hi', Bool.toNat_true]
      omega
  | called i hl hi hcall htask =>
      refine ⟨_, ⟨_, _, hcalls i hcall, hsame htask, rfl⟩, ?_⟩
      omega
  | spawned i j hl hi hi' hcall hj htask =>
      refine ⟨_, ⟨_, _, hcalls i hcall, htasks j htask, rfl⟩, ?_⟩
      omega
  | refreshed j hl hj htask hcall =>
      refine ⟨_, ⟨_, _, ha.stay fun i => congrArg Nat.cast (hcall i), htasks j htask, rfl⟩, ?_⟩
      omega
  | expired hl hcall htask =>
      refine ⟨_, ⟨_, _, ha.stay fun i => congrArg Nat.cast (hcall i), hsame htask, rfl⟩, ?_⟩
      rw [hl, Bool.toNat_true]
      omega

/-- In every interleaving a call accounts for twelve steps at most, those of the refresh it may have started included,
and every other step is the expiry of an entry. -/
theorem run_bounded (cfg : Config) (ls : List (Label cfg)) (s : State cfg)
    (h : (machine cfg).run (machine cfg).init ls = some s) :
    ls.length ≤ 12 * ls.countP Label.starts + ls.countP Label.expires := by
  obtain ⟨m, hm, hle⟩ := Machine.run_length_le (P := Left) (a := 12) (p := Label.starts) (q := Label.expires)
    (fun s l t n hs ht => left_step hs ht) left_init h
  have := left_nonneg hm
  omega

theorem run_bounded_sharedThenStale :
    sharedThenStale.length ≤ 12 * sharedThenStale.countP Label.starts + sharedThenStale.countP Label.expires :=
  run_bounded .default sharedThenStale _ rfl

/-! ## How a call returns -/

/-- What the outside world has for a call: a clock, the replies of a cached project, the lookup of a leader. -/
structure Offer (cfg : Config) where
  now : Nat
  reply : Nat → Reply
  fanout : Fanout cfg.maxFanout

def polled {K R : Type} : Watch.Poll → Singleflight.Action K R
  | .ready => .wake
  | .closed => .close
  | .pending => .time

def turnIn (s : State cfg) (i : CallId) (o : Offer cfg) : Singleflight.Phase Text (Lookup cfg) → Label cfg
  | .outside => .enter i
  | .leading .. => .looked i o.fanout
  | .publishing .. => .fly i .send
  | .removing .. => .fly i .remove
  | .joined .. => .fly i .subscribe
  | .subscribed .. => .fly i .borrow
  | .waiting _ f seen => .fly i (polled ((s.flight.chan f).changed seen))
  | .woken .. => .fly i .read
  | .led .. | .followed .. | .cancelled => .land i

/-- The next step of a call that nobody drops. -/
def turn (s : State cfg) (i : CallId) (o : Offer cfg) : Option (Label cfg) :=
  match s.stage i with
  | .reading _ => some (.get i o.now)
  | .fetching .. => some (.fetched i o.reply)
  | .evicting .. => some (.evict i)
  | .flying _ => some (turnIn s i o (s.flight.phase i))
  | .storing .. => some (.store i o.now)
  | .storingImage .. => some (.storeImage i)
  | .absent | .answered .. | .cancelled => none

/-- What a call at a stage relies on: it was not dropped in `singleflight`, and it stores the image of a result. -/
structure Able (s : State cfg) : Prop where
  flying : ∀ i c, s.stage i = .flying c → s.flight.phase i ≠ .cancelled
  storing : ∀ i c l, s.stage i = .storingImage c l → ∃ r, l.result = .ok r

theorem able_init : Able (init : State cfg) where
  flying _ _ h := nomatch h
  storing _ _ _ h := nomatch h

theorem Able.move {s t : State cfg} (h : Able s) {i : CallId} {st : Stage cfg}
    (hstage : t.stage = Function.update s.stage i st)
    (hphase : ∀ j, j ≠ i → t.flight.phase j = s.flight.phase j)
    (hflying : ∀ c, st = .flying c → t.flight.phase i ≠ .cancelled)
    (hstoring : ∀ c l, st = .storingImage c l → ∃ r, l.result = .ok r) : Able t := by
  constructor
  · intro j c hj
    by_cases hji : j = i
    · subst hji
      rw [hstage, Function.update_self] at hj
      exact hflying c hj
    · rw [hstage, Function.update_of_ne hji] at hj
      rw [hphase j hji]
      exact h.flying j c hj
  · intro j c l hj
    by_cases hji : j = i
    · subst hji
      rw [hstage, Function.update_self] at hj
      exact hstoring c l hj
    · rw [hstage, Function.update_of_ne hji] at hj
      exact h.storing j c l hj

theorem Able.congr {s t : State cfg} (h : Able s) (hstage : t.stage = s.stage) (hflight : t.flight = s.flight) :
    Able t := by
  constructor
  · rw [hstage, hflight]
    exact h.flying
  · rw [hstage]
    exact h.storing

theorem not_cancelled {K R : Type} [DecidableEq K] {s t : Singleflight.State K R} {i : CallId}
    {a : Singleflight.Action K R} (h : Singleflight.Stepped s i a t) (ha : a ≠ .drop) : t.phase i ≠ .cancelled := by
  cases h with
  | dropLeader k f hp => exact absurd rfl ha
  | dropFollower k f seen hp => exact absurd rfl ha
  | _ => simp

theorem Able.fly {s t : State cfg} (h : Able s) {i : CallId} {c : Call} {a : Singleflight.Action Text (Lookup cfg)}
    {fl : Singleflight.State Text (Lookup cfg)} (hi : s.stage i = .flying c)
    (hf : Singleflight.step s.flight ⟨i, a⟩ = some fl) (ha : a ≠ .drop) (hstage : t.stage = s.stage)
    (hflight : t.flight = fl) : Able t := by
  have hstep := Singleflight.step_cases hf
  obtain ⟨p, hp, -⟩ := hstep.phase_update
  refine h.move (hstage.trans (Function.update_eq_self i s.stage).symm) (fun j hj => ?_) (fun _ _ => ?_) ?_
  · rw [hflight, hp, Function.update_of_ne hj]
  · rw [hflight]
    exact not_cancelled hstep ha
  · rw [hi]
    nofun

/-- The image entry is written for a result only. -/
theorem storesImage {s u : State cfg} {i : CallId} {now : Nat} (h : move s (.store i now) = some u) {c : Call}
    {l : Lookup cfg} (hu : u.stage i = .storingImage c l) : ∃ r, l.result = .ok r := by
  rw [Manifest.move] at h
  split at h
  · rename_i c' l' hi
    cases h
    change Function.update s.stage i _ i = _ at hu
    rw [Function.update_self] at hu
    split at hu
    · cases hu
      exact ⟨_, ‹_›⟩
    · cases hu
  · cases h

theorem able_step {s t : State cfg} {l : Label cfg} (hst : Staged s) (h : Able s) (ht : step s l = some t) :
    Able t := by
  obtain ⟨u, hu, rfl⟩ := Option.map_eq_some_iff.mp ht
  suffices hable : Able u from hable.congr rfl rfl
  cases moved_of_move hu with
  | call i c hs => exact h.move rfl (fun _ _ => rfl) nofun nofun
  | get i now c hs =>
      have hout : s.flight.phase i = .outside := hst.early i (by rw [hs]; trivial)
      refine h.move rfl (fun _ _ => rfl) (fun _ _ => ?_) ?_
      · show s.flight.phase i ≠ .cancelled
        rw [hout]
        nofun
      · rcases afterGet_cases cfg c now (s.cache c.key) with hst | hst | ⟨project, stale, hst⟩ <;> rw [hst] <;> nofun
  | served i reply c project stale r hs hr h200 t he =>
      subst he
      cases stale <;> exact h.move rfl (fun _ _ => rfl) nofun nofun
  | outdated i reply c project stale hs => exact h.move rfl (fun _ _ => rfl) nofun nofun
  | evict i c observed hs =>
      have hout : s.flight.phase i = .outside := hst.early i (by rw [hs]; trivial)
      refine h.move rfl (fun _ _ => rfl) (fun _ _ => ?_) nofun
      show s.flight.phase i ≠ .cancelled
      rw [hout]
      nofun
  | enter i c fl hs hf => exact h.fly hs hf nofun rfl rfl
  | looked i f c fl hs hf => exact h.fly hs hf nofun rfl rfl
  | fly i a c fl hs ha hf =>
      refine h.fly hs hf ?_ rfl rfl
      intro he
      subst he
      cases ha
  | land i c e hs he =>
      refine h.move rfl (fun _ _ => rfl) ?_ ?_ <;>
        rcases afterFlight_cases c e with ⟨l, -, hst⟩ | hst <;> rw [hst] <;> nofun
  | store i now c l st hs hst' =>
      refine h.move rfl (fun _ _ => rfl) ?_ fun c' l' he => storesImage hu (c := c') ?_
      · rcases hst' with rfl | rfl <;> nofun
      · exact he ▸ Function.update_self ..
  | storeImage i c l r hs hr => exact h.move rfl (fun _ _ => rfl) nofun nofun
  | drop i hs => exact h.move rfl (fun _ _ => rfl) nofun nofun
  | dropFlight i c fl hs hf =>
      obtain ⟨p, hp, -⟩ := (Singleflight.step_cases hf).phase_update
      refine h.move rfl (fun j hj => ?_) nofun nofun
      show fl.phase j = s.flight.phase j
      rw [hp, Function.update_of_ne hj]
  | refreshed j f c t hs ht => exact h.congr rfl rfl
  | refreshStore j now c l r hs hr => exact h.congr rfl rfl
  | refreshStoreImage j c l r hs hr => exact h.congr rfl rfl
  | expire key => exact h.congr rfl rfl

def Stage.Begun : Stage cfg → Prop
  | .absent | .cancelled => False
  | _ => True

def Takes (s : State cfg) (i : CallId) (o : Offer cfg) : Prop :=
  ∃ l t, turn s i o = some l ∧ step s l = some t ∧ (t.stage i).Begun

theorem takes_of_flight {s : State cfg} {i : CallId} {o : Offer cfg} {c : Call} {l : Label cfg} {u : State cfg}
    (hi : s.stage i = .flying c) (hl : turnIn s i o (s.flight.phase i) = l) (hu : move s l = some u)
    (hstage : u.stage = s.stage) : Takes s i o := by
  refine ⟨l, u.advance, ?_, by rw [step, hu]; rfl, ?_⟩
  · rw [turn, hi]
    exact congrArg some hl
  · show (u.stage i).Begun
    rw [hstage, hi]
    trivial

theorem takes_fly {s : State cfg} {i : CallId} {o : Offer cfg} {c : Call}
    {a : Singleflight.Action Text (Lookup cfg)} (hi : s.stage i = .flying c)
    (hl : turnIn s i o (s.flight.phase i) = .fly i a) (ha : inner a = true)
    (hf : ∃ fl, Singleflight.step s.flight ⟨i, a⟩ = some fl) : Takes s i o := by
  obtain ⟨fl, hf⟩ := hf
  exact takes_of_flight hi hl (u := s.setFlight fl) (by simp only [Manifest.move, hi, ha, hf]; rfl) rfl

theorem takes_stage {s : State cfg} {i : CallId} {o : Offer cfg} {l : Label cfg} {u : State cfg} (st : Stage cfg)
    (hl : turn s i o = some l) (hu : move s l = some u) (hstage : u.stage = Function.update s.stage i st)
    (hst : st.Begun) : Takes s i o := by
  refine ⟨l, u.advance, hl, by rw [step, hu]; rfl, ?_⟩
  show (u.stage i).Begun
  rw [hstage, Function.update_self]
  exact hst

theorem takes_waiting {s : State cfg} {i : CallId} {o : Offer cfg} {c : Call} {k : Text} {f : FlightId} {seen : Nat}
    (hi : s.stage i = .flying c) (hp : s.flight.phase i = .waiting k f seen) : Takes s i o := by
  cases hc : (s.flight.chan f).changed seen with
  | ready => exact takes_fly hi (a := .wake) (by simp only [turnIn, hp, hc, polled]) rfl ⟨_, by
      simp only [Singleflight.step, hp, hc, if_true]; rfl⟩
  | closed => exact takes_fly hi (a := .close) (by simp only [turnIn, hp, hc, polled]) rfl ⟨_, by
      simp only [Singleflight.step, hp, hc, if_true]; rfl⟩
  | pending => exact takes_fly hi (a := .time) (by simp only [turnIn, hp, hc, polled]) rfl ⟨_, by
      simp only [Singleflight.step, hp, hc, if_true]; rfl⟩

/-- A call that flies: its phase says what is next. -/
theorem takes_flying {s : State cfg} {i : CallId} {c : Call} (h : Able s) (hi : s.stage i = .flying c) (o : Offer cfg) :
    Takes s i o := by
  cases hp : s.flight.phase i with
  | outside =>
      have hf : ∃ fl, Singleflight.step s.flight ⟨i, .enter c.key⟩ = some fl := by
        cases hk : s.flight.flights c.key with
        | none => exact ⟨_, by simp only [Singleflight.step, hp, hk]; rfl⟩
        | some f => exact ⟨_, by simp only [Singleflight.step, hp, hk]; rfl⟩
      obtain ⟨fl, hf⟩ := hf
      exact takes_of_flight hi (by rw [hp]; rfl) (l := .enter i) (u := s.setFlight fl)
        (by simp only [Manifest.move, hi, hf]; rfl) rfl
  | leading k f =>
      have hf : Singleflight.step s.flight ⟨i, .looked ⟨c, o.fanout, s.tick⟩⟩ =
          some (s.flight.setPhase i (.publishing k f ⟨c, o.fanout, s.tick⟩)) := by
        simp only [Singleflight.step, hp]
      have hu : Manifest.move s (.looked i o.fanout) = some ((s.setFlight (s.flight.setPhase i
          (.publishing k f ⟨c, o.fanout, s.tick⟩))).serve c.image (servers c o.fanout)) := by
        simp only [Manifest.move, hi, hf]
        rfl
      exact takes_of_flight hi (by rw [hp]; rfl) hu rfl
  | publishing k f r =>
      exact takes_fly hi (a := .send) (by rw [hp]; rfl) rfl ⟨_, by simp only [Singleflight.step, hp]; rfl⟩
  | removing k f r =>
      exact takes_fly hi (a := .remove) (by rw [hp]; rfl) rfl ⟨_, by simp only [Singleflight.step, hp]; rfl⟩
  | joined k f =>
      exact takes_fly hi (a := .subscribe) (by rw [hp]; rfl) rfl ⟨_, by simp only [Singleflight.step, hp]; rfl⟩
  | subscribed k f =>
      refine takes_fly hi (a := .borrow) (by rw [hp]; rfl) rfl ?_
      cases hv : (s.flight.chan f).value with
      | none => exact ⟨_, by simp only [Singleflight.step, hp, hv]; rfl⟩
      | some r => exact ⟨_, by simp only [Singleflight.step, hp, hv]; rfl⟩
  | waiting k f seen => exact takes_waiting hi hp
  | woken k f =>
      refine takes_fly hi (a := .read) (by rw [hp]; rfl) rfl ?_
      cases hv : (s.flight.chan f).value with
      | none => exact ⟨_, by simp only [Singleflight.step, hp, hv]; rfl⟩
      | some r => exact ⟨_, by simp only [Singleflight.step, hp, hv]; rfl⟩
  | led k f r =>
      refine takes_stage (afterFlight c (.received r)) (l := .land i) (by simp only [turn, hi, hp, turnIn])
        (by simp only [Manifest.move, hi, hp, flightEnd]; rfl) rfl ?_
      rcases afterFlight_cases c (.received r) with ⟨l, -, hst⟩ | hst <;> rw [hst] <;> trivial
  | followed k f e =>
      refine takes_stage (afterFlight c e) (l := .land i) (by simp only [turn, hi, hp, turnIn])
        (by simp only [Manifest.move, hi, hp, flightEnd]; rfl) rfl ?_
      rcases afterFlight_cases c e with ⟨l, -, hst⟩ | hst <;> rw [hst] <;> trivial
  | cancelled => exact absurd hp (h.flying i c hi)

theorem takes_of_begun {s : State cfg} {i : CallId} (h : Able s) (hi : (s.stage i).Begun) (hleft : callLeft s i ≠ 0)
    (o : Offer cfg) : Takes s i o := by
  unfold callLeft at hleft
  cases hst : s.stage i with
  | absent => rw [hst] at hi; exact hi.elim
  | cancelled => rw [hst] at hi; exact hi.elim
  | answered c a => rw [hst] at hleft; exact absurd rfl hleft
  | reading c =>
      refine takes_stage _ (l := .get i o.now) (by rw [turn, hst]) (by simp only [Manifest.move, hst]; rfl) rfl ?_
      rcases afterGet_cases cfg c o.now (s.cache c.key) with h | h | ⟨project, stale, h⟩ <;> rw [h] <;> trivial
  | fetching c project stale =>
      have hl : turn s i o = some (.fetched i o.reply) := by rw [turn, hst]
      cases hr : fetchManifestWithRetry cfg.retryMaxAttempts project o.reply with
      | error e => exact takes_stage (.evicting c s.tick) hl (by simp only [Manifest.move, hst, hr]; rfl) rfl trivial
      | ok r =>
          have hst' : (Stage.answered c (.cached r) : Stage cfg).Begun := trivial
          by_cases h200 : r.status = 200
          · cases stale with
            | false => exact takes_stage _ hl (by simp only [Manifest.move, hst, hr, h200, if_true]; rfl) rfl hst'
            | true => exact takes_stage _ hl (by simp only [Manifest.move, hst, hr, h200, if_true]; rfl) rfl hst'
          · have hu : Manifest.move s (.fetched i o.reply) = some (s.setStage i (.evicting c s.tick)) := by
              simp only [Manifest.move, hst, hr, h200, if_false]
            exact takes_stage (.evicting c s.tick) hl hu rfl trivial
  | evicting c observed =>
      exact takes_stage (.flying c) (l := .evict i) (by rw [turn, hst]) (by simp only [Manifest.move, hst]; rfl) rfl
        trivial
  | flying c => exact takes_flying h hst o
  | storing c l =>
      have hl : turn s i o = some (.store i o.now) := by rw [turn, hst]
      cases hr : l.result with
      | ok r => exact takes_stage (.storingImage c l) hl (by simp only [Manifest.move, hst, hr]; rfl) rfl trivial
      | error e =>
          have hst' : (Stage.answered c (.flight (.received l)) : Stage cfg).Begun := trivial
          exact takes_stage _ hl (by simp only [Manifest.move, hst, hr]; rfl) rfl hst'
  | storingImage c l =>
      obtain ⟨r, hr⟩ := h.storing i c l hst
      have hst' : (Stage.answered c (.flight (.received l)) : Stage cfg).Begun := trivial
      exact takes_stage _ (l := .storeImage i) (by rw [turn, hst]) (by simp only [Manifest.move, hst, hr]; rfl) rfl hst'

theorem turn_caller {s : State cfg} {i : CallId} {o : Offer cfg} {l : Label cfg} (h : turn s i o = some l) :
    l.caller = some i ∧ l.starts = false := by
  unfold turn at h
  split at h <;> cases h
  case h_4 =>
    unfold turnIn
    split <;> exact ⟨rfl, rfl⟩
  all_goals exact ⟨rfl, rfl⟩

theorem callLeft_lt {s t : State cfg} {l : Label cfg} {i : CallId} (hl : l.caller = some i) (hs : l.starts = false)
    (h : step s l = some t) : callLeft t i < callLeft s i := by
  cases worked_step h with
  | started j hl' _ _ _ _ => rw [hs] at hl'; cases hl'
  | called j hl' hj _ _ =>
      rw [hl] at hl'
      cases hl'
      exact hj
  | spawned j k hl' hj hj' _ _ _ =>
      rw [hl] at hl'
      cases hl'
      omega
  | refreshed j hl' _ _ _ => rw [hl] at hl'; cases hl'
  | expired hl' _ _ =>
      unfold Label.expires at hl'
      split at hl'
      · cases hl
      · cases hl'

theorem answered_of_left {st : Stage cfg} {p : Singleflight.Phase Text (Lookup cfg)} (h : st.Begun)
    (hleft : st.left p = 0) :
    ∃ c a, st = .answered c a := by
  cases st with
  | absent => exact h.elim
  | cancelled => exact h.elim
  | answered c a => exact ⟨c, a, rfl⟩
  | flying c => simp [Stage.left] at hleft
  | _ => cases hleft

/-- From every state of every interleaving, and whatever the outside world offers at each step, a call that has begun
and was not dropped goes on by itself to its answer, in eleven steps or fewer, while all other calls, the leader of its
flight among them, stand still for ever. -/
theorem call_returns (cfg : Config) {s : State cfg} (hs : (machine cfg).Reachable s) (i : CallId)
    (hi : (s.stage i).Begun) (offer : State cfg → Offer cfg) :
    ∃ ls t, (machine cfg).Guarded (fun s l => turn s i (offer s) = some l) s ls ∧ ls.length ≤ 11 ∧
      (machine cfg).run s ls = some t ∧ ∃ c a, t.stage i = .answered c a := by
  have hable : Staged s ∧ Able s := hs.rule (I := fun s => Staged s ∧ Able s) ⟨staged_init, able_init⟩
    fun _ _ _ h ht => ⟨staged_step h.1 ht, able_step h.1 h.2 ht⟩
  have hnext : ∀ s : State cfg, (Staged s ∧ Able s ∧ (s.stage i).Begun) → callLeft s i ≠ 0 → ∃ l t,
      turn s i (offer s) = some l ∧ step s l = some t ∧ (Staged t ∧ Able t ∧ (t.stage i).Begun) ∧
        callLeft t i < callLeft s i := by
    intro s ⟨hstaged, hs, hi⟩ hleft
    obtain ⟨l, t, hl, ht, hbegun⟩ := takes_of_begun hs hi hleft (offer s)
    obtain ⟨hcaller, hstarts⟩ := turn_caller hl
    exact ⟨l, t, hl, ht, ⟨staged_step hstaged ht, able_step hstaged hs ht, hbegun⟩, callLeft_lt hcaller hstarts ht⟩
  obtain ⟨ls, t, hturns, hlen, hrun, ⟨-, -, ht⟩, hzero⟩ :=
    Machine.exists_run_to_zero (M := machine cfg) hnext ⟨hable.1, hable.2, hi⟩
  refine ⟨ls, t, hturns, hlen.trans ?_, hrun, answered_of_left ht hzero⟩
  have := left_le (s.flight.phase i)
  show (s.stage i).left (s.flight.phase i) ≤ 11
  cases s.stage i <;> simp only [Stage.left] <;> omega

/-- A call waits behind a leader that stands still. -/
def behindLeader : List (Label .default) :=
  let c : Call := ⟨"library/x".toList, "1".toList, []⟩
  [.call 0 c, .get 0 0, .enter 0, .call 1 c, .get 1 0, .enter 1, .fly 1 .subscribe, .fly 1 .borrow]

theorem call_returns_behindLeader : ∃ s, (machine .default).run (machine .default).init behindLeader = some s ∧
    ∃ ls t, ls.length ≤ 11 ∧ (machine .default).run s ls = some t ∧ ∃ c a, t.stage 1 = .answered c a := by
  refine ⟨_, rfl, ?_⟩
  obtain ⟨ls, t, -, hlen, hrun, ht⟩ := call_returns .default ⟨behindLeader, rfl⟩ 1 trivial
    fun _ => ⟨0, fun _ => .response 200 [] [], oneProject 200⟩
  exact ⟨ls, t, hlen, hrun, ht⟩

end Manifest
end HarborRouter
