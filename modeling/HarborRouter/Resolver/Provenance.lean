import HarborRouter.Resolver.Manifest

/-!
# What calls and flights know of each other

Two invariants of every reachable state. `Staged` ties the stage of a call to its phase in `singleflight`: a call
flies under its own key, and what it has found as a leader was looked up with its own arguments. `Traced` follows
the lookups: whatever a call or a refresh is about to write was found by a fan-out for its key, and the winner of
that fan-out answered 200 for the image it was run for.
-/

namespace HarborRouter.Manifest
open Lib

variable {cfg : Config}

/-- The call has not entered `singleflight` yet. -/
def Stage.Early : Stage cfg → Prop
  | .absent | .reading _ | .fetching .. | .evicting .. => True
  | _ => False

def Stage.About (c : Call) : Stage cfg → Prop
  | .reading c' | .fetching c' _ _ | .evicting c' _ | .flying c' => c' = c
  | .storing c' _ | .storingImage c' _ | .answered c' _ => c' = c
  | .absent | .cancelled => False

def Stage.Holds (c : Call) (l : Lookup cfg) : Stage cfg → Prop
  | .storing c' l' | .storingImage c' l' | .answered c' (.flight (.received l')) => c' = c ∧ l' = l
  | _ => False

def Task.About (c : Call) : Task cfg → Prop
  | .looking c' | .storing c' _ | .storingImage c' _ => c' = c
  | .absent | .done => False

def Task.Holds (c : Call) (l : Lookup cfg) : Task cfg → Prop
  | .storing c' l' | .storingImage c' l' => c' = c ∧ l' = l
  | _ => False

/-! ## Stages and phases -/

structure Staged (s : State cfg) : Prop where
  early : ∀ i, (s.stage i).Early → s.flight.phase i = .outside
  key : ∀ i c, s.stage i = .flying c → ∀ k f, (s.flight.phase i).On k f → k = c.key
  running : ∀ i k f, (s.flight.phase i).Leads k f → ∃ c, s.stage i = .flying c
  leader : ∀ i c l, (s.stage i).About c → (s.flight.phase i).Led l → l.call = c

theorem staged_init : Staged (init : State cfg) where
  early _ _ := rfl
  key _ _ h := nomatch h
  running _ _ _ h := h.elim
  leader _ _ _ h := h.elim

theorem Staged.congr {s t : State cfg} (hs : Staged s) (hstage : t.stage = s.stage) (hflight : t.flight = s.flight) :
    Staged t := by
  refine ⟨?_, ?_, ?_, ?_⟩ <;> rw [hstage, hflight]
  · exact hs.early
  · exact hs.key
  · exact hs.running
  · exact hs.leader

theorem Staged.move {s t : State cfg} {i : CallId} {st : Stage cfg} (hs : Staged s)
    (hstage : t.stage = Function.update s.stage i st) (hflight : t.flight = s.flight)
    (hearly : st.Early → s.flight.phase i = .outside)
    (hkey : ∀ c, st = .flying c → ∀ k f, (s.flight.phase i).On k f → k = c.key)
    (hrun : ∀ k f, ¬ (s.flight.phase i).Leads k f)
    (hlead : ∀ c l, st.About c → (s.flight.phase i).Led l → l.call = c) : Staged t := by
  refine ⟨?_, ?_, ?_, ?_⟩ <;> rw [hstage, hflight]
  · rw [Function.forall_update_iff s.stage fun j x => x.Early → s.flight.phase j = .outside]
    exact ⟨hearly, fun j _ => hs.early j⟩
  · rw [Function.forall_update_iff s.stage fun j x => ∀ c, x = .flying c → ∀ k f, (s.flight.phase j).On k f → k = c.key]
    exact ⟨hkey, fun j _ => hs.key j⟩
  · rw [Function.forall_update_iff s.stage fun j x => ∀ k f, (s.flight.phase j).Leads k f → ∃ c, x = .flying c]
    exact ⟨fun k f h => absurd h (hrun k f), fun j _ => hs.running j⟩
  · rw [Function.forall_update_iff s.stage fun j x => ∀ c l, x.About c → (s.flight.phase j).Led l → l.call = c]
    exact ⟨hlead, fun j _ => hs.leader j⟩

theorem Staged.move_early {s t : State cfg} {i : CallId} {st : Stage cfg} (hs : Staged s) (h : (s.stage i).Early)
    (hstage : t.stage = Function.update s.stage i st) (hflight : t.flight = s.flight) : Staged t := by
  have hout := hs.early i h
  refine hs.move hstage hflight (fun _ => hout) ?_ ?_ ?_
  · intro c _ k f hon; rw [hout] at hon; exact hon.elim
  · intro k f hl; rw [hout] at hl; exact hl
  · intro c l _ hl; rw [hout] at hl; exact hl.elim

theorem Staged.move_late {s t : State cfg} {i : CallId} {st : Stage cfg} {c : Call} (hs : Staged s)
    (hc : (s.stage i).About c) (hstage : t.stage = Function.update s.stage i st) (hflight : t.flight = s.flight)
    (hrun : ∀ k f, ¬ (s.flight.phase i).Leads k f) (hearly : ¬ st.Early) (hfly : ∀ c, st ≠ .flying c)
    (hfor : ∀ c', st.About c' → c' = c) : Staged t := by
  refine hs.move hstage hflight (fun h => absurd h hearly) (fun c h => absurd h (hfly c)) hrun ?_
  intro c' l hc' hl
  rw [hfor c' hc']
  exact hs.leader i c l hc hl

theorem Staged.fly {s t : State cfg} {i : CallId} {a : Singleflight.Action Text (Lookup cfg)} {c : Call}
    (hs : Staged s) (hc : s.stage i = .flying c) (hstep : Singleflight.step s.flight ⟨i, a⟩ = some t.flight)
    (hstage : t.stage = s.stage) (henter : ∀ k, a = .enter k → k = c.key)
    (hlooked : ∀ l, a = .looked l → l.call = c) : Staged t := by
  obtain ⟨p, hp, hon, hled, -⟩ := (Singleflight.step_cases hstep).phase_update
  dsimp only at hp hon hled
  have hother : ∀ j, j ≠ i → t.flight.phase j = s.flight.phase j := fun j hj => by
    rw [hp, Function.update_of_ne hj]
  have hself : t.flight.phase i = p := by rw [hp, Function.update_self]
  refine ⟨fun j h => ?_, fun j c' h => ?_, fun j k f h => ?_, fun j c' l h hl => ?_⟩ <;>
    by_cases hj : j = i <;> (try subst hj) <;> rw [hstage] at *
  · rw [hc] at h; exact h.elim
  · rw [hother j hj]; exact hs.early j h
  · intro k f hk
    rw [hc] at h
    cases h
    rw [hself] at hk
    exact (hon k f hk).elim (hs.key j c hc k f) (henter k)
  · rw [hother j hj]; exact hs.key j c' h
  · exact ⟨c, hc⟩
  · rw [hother j hj] at h; exact hs.running j k f h
  · rw [hself] at hl
    rw [hc] at h
    cases h
    exact (hled l hl).elim (hs.leader j c l (by rw [hc]; rfl)) (hlooked l)
  · rw [hother j hj] at hl; exact hs.leader j c' l h hl

theorem afterFlight_cases (c : Call) (e : Singleflight.FlightEnd (Lookup cfg)) :
    (∃ l, e = .received l ∧ afterFlight c e = .storing c l) ∨ afterFlight c e = .answered c (.flight e) := by
  cases e with
  | received l =>
      rw [afterFlight]
      split
      · exact .inl ⟨l, rfl, rfl⟩
      · split
        · exact .inl ⟨l, rfl, rfl⟩
        · exact .inr rfl
  | timedOut => exact .inr rfl
  | leaderDropped => exact .inr rfl
  | emptyResult => exact .inr rfl

theorem not_leads_of_flightEnd {K R : Type} {p : Singleflight.Phase K R} {e : Singleflight.FlightEnd R}
    (h : flightEnd p = some e) (k : K) (f : FlightId) : ¬ p.Leads k f := by
  intro hl
  cases p <;> first | exact hl.elim | cases h

theorem staged_step {s t : State cfg} {l : Label cfg} (hs : Staged s) (h : step s l = some t) : Staged t := by
  obtain ⟨u, hu, rfl⟩ := step_cases h
  suffices Staged u from this.congr rfl rfl
  -- only a call that flies leads a flight
  have hidle : ∀ i, (∀ c, s.stage i ≠ .flying c) → ∀ k f, ¬ (s.flight.phase i).Leads k f := by
    intro i hst k f hl
    obtain ⟨c, hc⟩ := hs.running i k f hl
    exact hst c hc
  cases hu with
  | call i c hst => exact hs.move_early (by rw [hst]; trivial) rfl rfl
  | get i now c hst => exact hs.move_early (by rw [hst]; trivial) rfl rfl
  | served i reply c project stale r hst hr h200 t ht =>
      have hearly : (s.stage i).Early := by rw [hst]; trivial
      subst ht
      cases stale <;> exact hs.move_early hearly rfl rfl
  | outdated i reply c project stale hst => exact hs.move_early (by rw [hst]; trivial) rfl rfl
  | evict i c observed hst => exact hs.move_early (by rw [hst]; trivial) rfl rfl
  | enter i c fl hst hf => exact hs.fly hst hf rfl (fun k hk => by cases hk; rfl) nofun
  | looked i f c fl hst hf => exact hs.fly hst hf rfl nofun fun l hl => by cases hl; rfl
  | fly i a c fl hst ha hf =>
      refine hs.fly hst hf rfl ?_ ?_
      · rintro k rfl; cases ha
      · rintro l rfl; cases ha
  | land i c e hst he =>
      have hfor : (s.stage i).About c := by rw [hst]; rfl
      have hrun := not_leads_of_flightEnd he
      rcases afterFlight_cases c e with ⟨l, -, hst'⟩ | hst' <;> rw [hst']
      · exact hs.move_late hfor rfl rfl hrun id nofun fun c' h => h.symm
      · exact hs.move_late hfor rfl rfl hrun id nofun fun c' h => h.symm
  | store i now c l st hst hst' =>
      have hfor : (s.stage i).About c := by rw [hst]; rfl
      have hrun := hidle i (by rw [hst]; nofun)
      rcases hst' with rfl | rfl
      · exact hs.move_late hfor rfl rfl hrun id nofun fun c' h => h.symm
      · exact hs.move_late hfor rfl rfl hrun id nofun fun c' h => h.symm
  | storeImage i c l r hst hr =>
      exact hs.move_late (by rw [hst]; rfl) rfl rfl (hidle i (by rw [hst]; nofun)) id nofun fun c' h => h.symm
  | drop i hst =>
      exact hs.move rfl rfl (fun h => h.elim) nofun (hidle i fun c hc => by rw [hc] at hst; cases hst)
        fun _ _ h => h.elim
  | dropFlight i c fl hst hf =>
      have hmid : Staged (s.setFlight fl) := hs.fly hst hf rfl nofun nofun
      obtain ⟨p, hp, -, -, hdrop⟩ := (Singleflight.step_cases hf).phase_update
      dsimp only at hp hdrop
      have hself : fl.phase i = .cancelled := by rw [hp, Function.update_self, hdrop rfl]
      refine hmid.move rfl rfl (fun h => h.elim) nofun ?_ fun _ _ h => h.elim
      intro k f hl
      change (fl.phase i).Leads k f at hl
      rw [hself] at hl
      exact hl
  | refreshed j f c t hst ht => exact hs.congr rfl rfl
  | refreshStore j now c l r hst hr => exact hs.congr rfl rfl
  | refreshStoreImage j c l r hst hr => exact hs.congr rfl rfl
  | expire key => exact hs.congr rfl rfl

/-! ## Lookups -/

/-- The lookup was run for a call of `D` with the key `k`, and its winner answered 200 for that call's image. -/
structure Made (D : Call → Prop) (served : List (Text × Text)) (k : Text) (l : Lookup cfg) : Prop where
  call : D l.call
  key : l.call.key = k
  winner : ∀ r, l.result = .ok r → (r.project, l.call.image) ∈ served

theorem Made.mono {D : Call → Prop} {served served' : List (Text × Text)} (h : served ⊆ served') {k : Text}
    {l : Lookup cfg} (hm : Made D served k l) : Made D served' k l := ⟨hm.call, hm.key, fun r hr => h (hm.winner r hr)⟩

structure Traced (D : Call → Prop) (s : State cfg) : Prop where
  flight : Singleflight.Carries (Made D s.served) s.flight
  call : ∀ i c, (s.stage i).About c → D c
  holds : ∀ i c l, (s.stage i).Holds c l → Made D s.served c.key l
  task : ∀ j c, (s.task j).About c → D c
  taskHolds : ∀ j c l, (s.task j).Holds c l → l.call = c ∧ Made D s.served c.key l

/-- The label starts a call of `D`, or none. -/
def Admits (D : Call → Prop) (l : Label cfg) : Prop := ∀ i c, l = .call i c → D c

variable {D : Call → Prop}

theorem traced_init : Traced D (init : State cfg) where
  flight := Singleflight.carries_init
  call _ _ h := h.elim
  holds _ _ _ h := h.elim
  task _ _ h := h.elim
  taskHolds _ _ _ h := h.elim

theorem project_mem_servers {c : Call} {f : Fanout cfg.maxFanout} {r : ResolveResult}
    (h : f.parallelLookup c.image c.reference c.accept = .ok r) : r.project ∈ servers c f := by
  obtain ⟨d, hd, hdr, h200, hp, -⟩ := Fanout.parallelLookup_ok h
  exact List.mem_map.mpr ⟨d, List.mem_filter.mpr ⟨hd, Completion.found_iff.mpr ⟨r, hdr, h200⟩⟩, hp.symm⟩

theorem made_of_servers {c : Call} (hc : D c) (f : Fanout cfg.maxFanout) (n : Nat) (served : List (Text × Text)) :
    Made D (served ++ (servers c f).map fun p => (p, c.image)) c.key ⟨c, f, n⟩ :=
  ⟨hc, rfl, fun r hr =>
    List.mem_append_right _ (List.mem_map.mpr ⟨r.project, project_mem_servers hr, rfl⟩)⟩

theorem Traced.move {s u : State cfg} {i : CallId} {st : Stage cfg} (hs : Traced D s) (hserved : u.served = s.served)
    (hflight : Singleflight.Carries (Made D s.served) u.flight) (htask : u.task = s.task)
    (hstage : u.stage = Function.update s.stage i st) (hst : ∀ c, st.About c → D c)
    (hholds : ∀ c l, st.Holds c l → Made D s.served c.key l) : Traced D u := by
  refine ⟨by rw [hserved]; exact hflight, ?_, ?_, ?_, ?_⟩
  · rw [hstage, Function.forall_update_iff s.stage fun _ x => ∀ c, x.About c → D c]
    exact ⟨hst, fun j _ => hs.call j⟩
  · rw [hstage, hserved, Function.forall_update_iff s.stage fun _ x => ∀ c l, x.Holds c l → Made D s.served c.key l]
    exact ⟨hholds, fun j _ => hs.holds j⟩
  · rw [htask]; exact hs.task
  · rw [htask, hserved]; exact hs.taskHolds

theorem Traced.moveTask {s u : State cfg} {j : TaskId} {tk : Task cfg} (hs : Traced D s)
    (hserved : u.served = s.served) (hflight : u.flight = s.flight) (hstage : u.stage = s.stage)
    (htask : u.task = Function.update s.task j tk) (htk : ∀ c, tk.About c → D c)
    (hholds : ∀ c l, tk.Holds c l → l.call = c ∧ Made D s.served c.key l) : Traced D u := by
  refine ⟨by rw [hserved, hflight]; exact hs.flight, ?_, ?_, ?_, ?_⟩
  · rw [hstage]; exact hs.call
  · rw [hstage, hserved]; exact hs.holds
  · rw [htask, Function.forall_update_iff s.task fun _ x => ∀ c, x.About c → D c]
    exact ⟨htk, fun j' _ => hs.task j'⟩
  · rw [htask, hserved,
      Function.forall_update_iff s.task fun _ x => ∀ c l, x.Holds c l → l.call = c ∧ Made D s.served c.key l]
    exact ⟨hholds, fun j' _ => hs.taskHolds j'⟩

theorem Traced.serve {s : State cfg} (hs : Traced D s) (image : Text) (projects : List Text) :
    Traced D (s.serve image projects) := by
  have hgrow : s.served ⊆ (s.serve image projects).served := List.subset_append_left ..
  exact ⟨hs.flight.mono fun k l => Made.mono hgrow, hs.call, fun i c l h => (hs.holds i c l h).mono hgrow, hs.task,
    fun j c l h => ⟨(hs.taskHolds j c l h).1, (hs.taskHolds j c l h).2.mono hgrow⟩⟩

theorem Traced.setFlight {s : State cfg} (hs : Traced D s) {fl : Singleflight.State Text (Lookup cfg)}
    (h : Singleflight.Carries (Made D s.served) fl) : Traced D (s.setFlight fl) :=
  ⟨h, hs.call, hs.holds, hs.task, hs.taskHolds⟩

theorem has_of_flightEnd {K R : Type} {p : Singleflight.Phase K R} {r : R} (h : flightEnd p = some (.received r)) :
    ∃ k f, p.On k f ∧ p.Has r := by
  cases p with
  | led k f r' => cases h; exact ⟨k, f, ⟨rfl, rfl⟩, rfl⟩
  | followed k f e => cases h; exact ⟨k, f, ⟨rfl, rfl⟩, rfl⟩
  | _ => cases h

theorem afterGet_cases (cfg : Config) (c : Call) (now : Nat) (entry : Option Entry) :
    (afterGet c now entry : Stage cfg) = .flying c ∨ (afterGet c now entry : Stage cfg) = .answered c .negative ∨
      ∃ project stale, (afterGet c now entry : Stage cfg) = .fetching c project stale := by
  unfold afterGet
  split
  · exact .inl rfl
  · dsimp only
    generalize (if cfg.staleWhileRevalidate = 0 then _ else _ : Text × Option Nat) = decoded
    split
    · exact .inr (.inl rfl)
    · exact .inr (.inr ⟨_, _, rfl⟩)

theorem stale_of_afterGet {c c' : Call} {now : Nat} {entry : Option Entry} {project : Text}
    (h : (afterGet c now entry : Stage cfg) = .fetching c' project true) : cfg.staleWhileRevalidate ≠ 0 := by
  unfold afterGet at h
  split at h
  · cases h
  · dsimp only at h
    generalize (if cfg.staleWhileRevalidate = 0 then _ else _ : Text × Option Nat) = decoded at h
    split at h
    · cases h
    · injection h with _ _ hstale
      rw [Bool.and_eq_true, decide_eq_true_eq] at hstale
      exact hstale.1

theorem afterGet_about {c c' : Call} {now : Nat} {entry : Option Entry}
    (h : (afterGet c now entry : Stage cfg).About c') : c = c' := by
  rcases afterGet_cases cfg c now entry with hst | hst | ⟨project, stale, hst⟩ <;> rw [hst] at h <;> exact h

theorem afterGet_not_holds (c : Call) (now : Nat) (entry : Option Entry) (c' : Call) (l : Lookup cfg) :
    ¬ (afterGet c now entry).Holds c' l := by
  rcases afterGet_cases cfg c now entry with hst | hst | ⟨project, stale, hst⟩ <;> rw [hst] <;> exact id

theorem afterFlight_about {c c' : Call} {e : Singleflight.FlightEnd (Lookup cfg)} (h : (afterFlight c e).About c') :
    c = c' := by
  rcases afterFlight_cases c e with ⟨l, -, he⟩ | he <;> rw [he] at h <;> exact h

theorem holds_afterFlight {c c' : Call} {e : Singleflight.FlightEnd (Lookup cfg)} {l : Lookup cfg}
    (h : (afterFlight c e).Holds c' l) : c = c' ∧ e = .received l := by
  rcases afterFlight_cases c e with ⟨l', rfl, he⟩ | he
  · rw [he] at h
    obtain ⟨rfl, rfl⟩ := h
    exact ⟨rfl, rfl⟩
  · rw [he] at h
    cases e with
    | received l' => obtain ⟨rfl, rfl⟩ := h; exact ⟨rfl, rfl⟩
    | _ => exact h.elim

/-- What a call brings home from its flight was made for its key. -/
theorem Traced.landed {s : State cfg} (hs : Traced D s) (hst : Staged s) {i : CallId} {c : Call} {l : Lookup cfg}
    (hi : s.stage i = .flying c) (he : flightEnd (s.flight.phase i) = some (.received l)) :
    Made D s.served c.key l := by
  obtain ⟨k, f, hon, hhas⟩ := has_of_flightEnd he
  obtain ⟨keyOf, hby⟩ := hs.flight
  rw [← hst.key i c hi k f hon]
  exact hby.held i k f l hon hhas

theorem traced_step {s t : State cfg} {l : Label cfg} (hl : Admits D l) (hst : Staged s) (hs : Traced D s)
    (h : step s l = some t) : Traced D t := by
  obtain ⟨u, hu, rfl⟩ := step_cases h
  suffices h' : Traced D u from ⟨h'.flight, h'.call, h'.holds, h'.task, h'.taskHolds⟩
  cases hu with
  | call i c hi => exact hs.move rfl hs.flight rfl rfl (fun c' h => h ▸ hl i c rfl) fun _ _ h => h.elim
  | get i now c hi =>
      have hc : D c := hs.call i c (by rw [hi]; rfl)
      exact hs.move rfl hs.flight rfl rfl (fun c' h => afterGet_about h ▸ hc)
        fun c' l h => absurd h (afterGet_not_holds c now _ c' l)
  | served i reply c project stale r hi hr h200 t ht =>
      have hc : D c := hs.call i c (by rw [hi]; rfl)
      have hanswered : Traced D t := by
        subst ht
        have := hs.serve c.image [project]
        exact this.move rfl this.flight rfl rfl (fun c' h => h ▸ hc) fun _ _ h => h.elim
      cases stale with
      | false => exact hanswered
      | true => exact hanswered.moveTask rfl rfl rfl rfl (fun c' h => h ▸ hc) fun _ _ h => h.elim
  | outdated i reply c project stale hi =>
      have hc : D c := hs.call i c (by rw [hi]; rfl)
      exact hs.move rfl hs.flight rfl rfl (fun c' h => h ▸ hc) fun _ _ h => h.elim
  | evict i c observed hi =>
      have hc : D c := hs.call i c (by rw [hi]; rfl)
      exact hs.move rfl hs.flight rfl rfl (fun c' h => h ▸ hc) fun _ _ h => h.elim
  | enter i c fl hi hf => exact hs.setFlight (Singleflight.carries_step hs.flight (.of_ne (by rintro _ ⟨⟩)) hf)
  | looked i f c fl hi hf =>
      have hserved := hs.serve c.image (servers c f)
      refine hserved.setFlight (Singleflight.carries_step hserved.flight ?_ hf)
      rintro l k g ⟨⟩ hp
      rw [hst.key i c hi k g (by dsimp only at hp; rw [State.serve] at hp; rw [hp]; exact ⟨rfl, rfl⟩)]
      exact made_of_servers (hs.call i c (by rw [hi]; rfl)) f s.tick s.served
  | fly i a c fl hi ha hf =>
      refine hs.setFlight (Singleflight.carries_step hs.flight (.of_ne ?_) hf)
      rintro l rfl
      cases ha
  | land i c e hi he =>
      have hc : D c := hs.call i c (by rw [hi]; rfl)
      refine hs.move rfl hs.flight rfl rfl (fun c' h => afterFlight_about h ▸ hc) fun c' l h => ?_
      obtain ⟨rfl, rfl⟩ := holds_afterFlight h
      exact hs.landed hst hi he
  | store i now c l st hi hst' =>
      have hc : D c := hs.call i c (by rw [hi]; rfl)
      have hm := hs.holds i c l (by rw [hi]; exact ⟨rfl, rfl⟩)
      rcases hst' with rfl | rfl
      · exact hs.move rfl hs.flight rfl rfl (fun c' h => h ▸ hc) fun c' l' h => h.1 ▸ h.2 ▸ hm
      · exact hs.move rfl hs.flight rfl rfl (fun c' h => h ▸ hc) fun c' l' h => h.1 ▸ h.2 ▸ hm
  | storeImage i c l r hi hr =>
      have hc : D c := hs.call i c (by rw [hi]; rfl)
      have hm := hs.holds i c l (by rw [hi]; exact ⟨rfl, rfl⟩)
      exact hs.move rfl hs.flight rfl rfl (fun c' h => h ▸ hc) fun c' l' h => h.1 ▸ h.2 ▸ hm
  | drop i hi => exact hs.move rfl hs.flight rfl rfl (fun _ h => h.elim) fun _ _ h => h.elim
  | dropFlight i c fl hi hf =>
      exact hs.move rfl (Singleflight.carries_step hs.flight (.of_ne (by rintro _ ⟨⟩)) hf) rfl rfl (fun _ h => h.elim)
        fun _ _ h => h.elim
  | refreshed j f c t hj ht =>
      have hc : D c := hs.task j c (by rw [hj]; rfl)
      have hserved := hs.serve c.image (servers c f)
      rcases ht with rfl | rfl
      · refine hserved.moveTask rfl rfl rfl rfl (fun c' h => h ▸ hc) fun c' l h => ?_
        obtain ⟨rfl, rfl⟩ := h
        exact ⟨rfl, made_of_servers hc f s.tick s.served⟩
      · exact hserved.moveTask rfl rfl rfl rfl (fun _ h => h.elim) fun _ _ h => h.elim
  | refreshStore j now c l r hj hr =>
      have hc : D c := hs.task j c (by rw [hj]; rfl)
      have hm := hs.taskHolds j c l (by rw [hj]; exact ⟨rfl, rfl⟩)
      exact hs.moveTask rfl rfl rfl rfl (fun c' h => h ▸ hc) fun c' l' h => h.1 ▸ h.2 ▸ hm
  | refreshStoreImage j c l r hj hr =>
      exact hs.moveTask rfl rfl rfl rfl (fun _ h => h.elim) fun _ _ h => h.elim
  | expire key => exact ⟨hs.flight, hs.call, hs.holds, hs.task, hs.taskHolds⟩

/-! ## Routing -/

/-- The call was sent to the cached project, or has its answer from it. -/
def Stage.Routed : Stage cfg → Prop
  | .fetching .. | .answered _ (.cached _) => True
  | _ => False

/-- Calls are routed by reading their entries, and answered from the cache by a 200 of the project they read. -/
theorem routed_step {s t : State cfg} {l : Label cfg} (h : step s l = some t) (j : CallId) :
    t.stage j = s.stage j ∨ ¬ (t.stage j).Routed ∨
    (∃ now c, l = .get j now ∧ t.stage j = afterGet c now (s.cache c.key)) ∨
    ∃ reply c project stale r, l = .fetched j reply ∧ s.stage j = .fetching c project stale ∧
      fetchManifestWithRetry cfg.retryMaxAttempts project reply = .ok r ∧ r.status = 200 ∧
        t.stage j = .answered c (.cached r) := by
  have hupdate : ∀ (i : CallId) (st : Stage cfg), ¬ st.Routed →
      Function.update s.stage i st j = s.stage j ∨ ¬ (Function.update s.stage i st j).Routed := by
    intro i st hst
    by_cases hj : j = i
    · subst hj
      rw [Function.update_self]
      exact .inr hst
    · exact .inl (Function.update_of_ne hj ..)
  obtain ⟨u, hu, rfl⟩ := step_cases h
  cases hu with
  | get i now c hi =>
      by_cases hj : j = i
      · subst hj
        exact .inr (.inr (.inl ⟨now, c, rfl, Function.update_self ..⟩))
      · exact .inl (Function.update_of_ne hj ..)
  | served i reply c project stale r hi hr h200 t ht =>
      have hstage : (State.advance (if stale then t.spawn c else t)).stage =
          Function.update s.stage i (.answered c (.cached r)) := by
        subst ht
        cases stale <;> rfl
      rw [hstage]
      by_cases hj : j = i
      · subst hj
        exact .inr (.inr (.inr ⟨reply, c, project, stale, r, rfl, hi, hr, h200, Function.update_self ..⟩))
      · exact .inl (Function.update_of_ne hj ..)
  | call i c hi => exact (hupdate i _ id).imp_right .inl
  | outdated i reply c project stale hi => exact (hupdate i _ id).imp_right .inl
  | evict i c observed hi => exact (hupdate i _ id).imp_right .inl
  | land i c e hi he =>
      refine (hupdate i _ ?_).imp_right .inl
      rcases afterFlight_cases c e with ⟨l, -, hst⟩ | hst <;> rw [hst] <;> exact id
  | store i now c l st hi hst => exact (hupdate i st (by rcases hst with rfl | rfl <;> exact id)).imp_right .inl
  | storeImage i c l r hi hr => exact (hupdate i _ id).imp_right .inl
  | drop i hi => exact (hupdate i _ id).imp_right .inl
  | dropFlight i c fl hi hf => exact (hupdate i _ id).imp_right .inl
  | _ => exact .inl rfl

theorem task_step {s t : State cfg} {l : Label cfg} (h : step s l = some t) (j : TaskId) :
    t.task j = s.task j ∨ s.task j ≠ .absent ∨ ∃ i c project, s.stage i = .fetching c project true := by
  have hupdate : ∀ (k : TaskId) (tk : Task cfg), s.task k ≠ .absent →
      Function.update s.task k tk j = s.task j ∨ s.task j ≠ .absent := by
    intro k tk hk
    by_cases hj : j = k
    · subst hj
      exact .inr hk
    · exact .inl (Function.update_of_ne hj ..)
  obtain ⟨u, hu, rfl⟩ := step_cases h
  cases hu with
  | served i reply c project stale r hi hr h200 t ht =>
      cases stale with
      | true => exact .inr (.inr ⟨i, c, project, hi⟩)
      | false =>
          subst ht
          exact .inl rfl
  | refreshed k f c tk hk htk => exact (hupdate k tk (by rw [hk]; exact nofun)).imp_right .inl
  | refreshStore k now c l r hk hr => exact (hupdate k _ (by rw [hk]; exact nofun)).imp_right .inl
  | refreshStoreImage k c l r hk hr => exact (hupdate k _ (by rw [hk]; exact nofun)).imp_right .inl
  | _ => exact .inl rfl

def Unrefreshed (s : State cfg) : Prop :=
  cfg.staleWhileRevalidate = 0 → (∀ i c project, s.stage i ≠ .fetching c project true) ∧ ∀ j, s.task j = .absent

theorem unrefreshed_init : Unrefreshed (init : State cfg) := fun _ => ⟨nofun, fun _ => rfl⟩

theorem unrefreshed_step {s t : State cfg} {l : Label cfg} (hs : Unrefreshed s) (h : step s l = some t) :
    Unrefreshed t := by
  intro hswr
  obtain ⟨hstage, htask⟩ := hs hswr
  refine ⟨fun i c project hi => ?_, fun j => ?_⟩
  · obtain hsame | hnot | ⟨now, c', -, hget⟩ | ⟨reply, c', p, stale, r, -, -, -, -, hserved⟩ := routed_step h i
    · exact hstage i c project (hsame ▸ hi)
    · exact hnot (by rw [hi]; trivial)
    · exact absurd hswr (stale_of_afterGet (hget ▸ hi))
    · rw [hserved] at hi
      cases hi
  · obtain hsame | hbusy | ⟨i, c, project, hi⟩ := task_step h j
    · rw [hsame]
      exact htask j
    · exact absurd (htask j) hbusy
    · exact absurd hi (hstage i c project)

/-! ## Reachable states -/

theorem owned_step {s t : State cfg} {l : Label cfg} (hs : Singleflight.Owned s.flight) (h : step s l = some t) :
    Singleflight.Owned t.flight :=
  flights.keeps (fun _ _ _ ho hstep => Singleflight.owned_step ho hstep) s l t hs h

theorem owned_reachable {s : State cfg} (h : (machine cfg).Reachable s) : Singleflight.Owned s.flight :=
  h.rule (I := fun s => Singleflight.Owned s.flight) Singleflight.owned_init fun _ _ _ hs ht => owned_step hs ht

theorem staged_reachable {s : State cfg} (h : (machine cfg).Reachable s) : Staged s :=
  h.rule (I := Staged) staged_init fun _ _ _ hs ht => staged_step hs ht

theorem traced_reachable {s : State cfg} (h : (machine cfg).Reachable s) : Traced (fun _ => True) s :=
  (h.rule (I := fun s => Staged s ∧ Traced (fun _ => True) s) ⟨staged_init, traced_init⟩
    fun _ _ _ hs h => ⟨staged_step hs.1 h, traced_step (fun _ _ _ => trivial) hs.1 hs.2 h⟩).2

end HarborRouter.Manifest
