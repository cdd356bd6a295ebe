import HarborRouter.Discovery.Pages

/-!
# Health and readiness

`/healthz` and `/readyz` answer from the list that the discoverer shows: a pod without a project takes no traffic.

* `stays_ready` : what takes a ready pod out of service, and that no failure does;
* `refreshed_in_order` : where a refresh stands after any number of its steps, and that it brings the pod back.
-/

namespace HarborRouter.Discovery
open Lib Text

/-- `GET /healthz`, the status and the body. -/
def healthHandler (d : Discoverer) : Nat × Text :=
  if d.projects = [] then
    (503, "\x7b\"status\":\"unhealthy\",\"reason\":\"no proxy-cache projects discovered\"\x7d".toList)
  else (200, "\x7b\"status\":\"healthy\",\"projects\":".toList ++ decimal d.projects.length ++ "\x7d".toList)

/-- `GET /readyz` -/
def readyHandler (d : Discoverer) : Nat × Text :=
  if d.projects = [] then (503, "\x7b\"ready\":false\x7d".toList)
  else (200, "\x7b\"ready\":true,\"projects\":".toList ++ decimal d.projects.length ++ "\x7d".toList)

def Discoverer.Ready (d : Discoverer) : Prop := (readyHandler d).1 = 200 ∧ (healthHandler d).1 = 200

theorem Discoverer.ready_iff {d : Discoverer} : d.Ready ↔ d.projects ≠ [] := by
  unfold Ready readyHandler healthHandler
  by_cases h : d.projects = []
  · simp [h]
  · simp [h]

/-! ## Out of service -/

/-- The last page of a list, without a project to add. -/
def Blank (unmarshal : Text → Option (List HarborProject)) (reply : PageReply) : Prop :=
  fetchPage unmarshal [] reply = .ok ([], true)

def Stage.Empty (st : Stage) : Prop := st = .persisting [] ∨ st = .storing []

def Clears {Pod : Type} (p : Pod) (s : State Pod) (l : Label Pod) : Prop :=
  l = .act p .store ∧ (s.pod p).stage = .storing []

section
variable {harborUrl : Text} {json : Json (List Text)} {unmarshal : Text → Option (List HarborProject)}
variable {d d' : Discoverer} {entry : Option Text} {a : Action}

theorem fetchPage_nil {result : List Text} {reply : PageReply} {last : Bool}
    (h : fetchPage unmarshal result reply = .ok ([], last)) :
    result = [] ∧ fetchPage unmarshal [] reply = .ok ([], last) := by
  obtain ⟨projects, hnames, -⟩ := fetchPage_ok h
  have hresult : result = [] := (List.append_eq_nil_iff.mp hnames.symm).1
  rw [hresult] at h
  exact ⟨hresult, h⟩

theorem Discoverer.ready_step (hd : d.Ready) (h : d.step harborUrl json unmarshal entry a = some d') :
    d'.Ready ↔ ¬ (a = .store ∧ d.stage = .storing []) := by
  rw [ready_iff] at hd ⊢
  cases moved_of_step h with
  | seed text hstage =>
      have hseeded : seedFromCache json d.projects text ≠ [] := by
        rcases @seedFromCache_cases json d.projects text with hsame | ⟨_, -, hne⟩
        · rw [hsame]
          exact hd
        · exact hne
      simp [hseeded]
  | store projects hstage => simp [hstage]
  | get | failed | fetched | persist | tick | shutdown => simp [hd]

/-- The names of a refresh come with its last page. -/
theorem Discoverer.last_page {api : Text → PageReply} {names : List Text}
    (h : d.step harborUrl json unmarshal entry (.fetched api) = some d') (hd' : d'.stage = .persisting names) :
    ∃ page result, fetchPage unmarshal result (api (projectsUrl harborUrl page)) = .ok (names, true) := by
  simp only [step] at h
  split at h
  · rename_i page result _
    cases h
    dsimp only at hd'
    split at hd'
    · rename_i hpage
      cases hd'
      exact ⟨page, result, hpage⟩
    · cases hd'
    · cases hd'
  · cases h

/-- A refresh is not about to show the empty list, unless a blank page ended it. -/
theorem Discoverer.nonempty_step (hd : ¬ d.stage.Empty)
    (ha : ∀ api page, a = .fetched api → ¬ Blank unmarshal (api (projectsUrl harborUrl page)))
    (h : d.step harborUrl json unmarshal entry a = some d') : ¬ d'.stage.Empty := by
  unfold Stage.Empty at hd ⊢
  cases moved_of_step h with
  | get reached st hstage hst =>
      rw [hst]
      split <;> simp
  | fetched api page result projects st hstage hst =>
      rintro (hnil | hnil)
      · obtain ⟨page, result, hpage⟩ := last_page h hnil
        exact ha api page rfl (fetchPage_nil hpage).2
      · rcases hst with rfl | rfl <;> cases hnil
  | persist reached projects hstage =>
      rw [hstage] at hd
      simpa using hd
  | seed | failed | store | tick | shutdown => simp

variable {Pod : Type} [DecidableEq Pod] {hasCache : Pod → Bool} {start : Option Text}

theorem ready_of_step {p : Pod} {s t : State Pod} {l : Label Pod} (hs : (s.pod p).Ready)
    (h : step harborUrl json unmarshal s l = some t) : (t.pod p).Ready ↔ ¬ Clears p s l := by
  unfold Clears
  rcases pod_of_step h p with he | ⟨a, rfl, ha⟩
  · rw [he]
    refine iff_of_true hs ?_
    rintro ⟨rfl, hstage⟩
    have hstore := own_step h
    rw [he] at hstore
    simp only [Discoverer.step, hstage, Option.some.injEq] at hstore
    have hwaiting : (s.pod p).stage = .waiting := by rw [← hstore]
    rw [hstage] at hwaiting
    cases hwaiting
  · rw [Discoverer.ready_step hs ha]
    simp

end

/-- What takes a ready pod out of service is a refresh that shows the empty list, and nothing else; and no refresh does
so unless Harbor has answered with a last page without a project: not one that fails, nor the cache. -/
theorem stays_ready {Pod : Type} [DecidableEq Pod] (harborUrl : Text) (json : Json (List Text))
    (unmarshal : Text → Option (List HarborProject)) (hasCache : Pod → Bool) (start : Option Text) (p : Pod)
    (s : State Pod) (ls : List (Label Pod)) (hs : (s.pod p).Ready) :
    ((machine harborUrl json unmarshal hasCache start).Always (fun u => (u.pod p).Ready) s ls ↔
      (machine harborUrl json unmarshal hasCache start).Guarded (fun u l => ¬ Clears p u l) s ls) ∧
    (¬ (s.pod p).stage.Empty →
      (∀ api page, .act p (.fetched api) ∈ ls → ¬ Blank unmarshal (api (projectsUrl harborUrl page))) →
        (machine harborUrl json unmarshal hasCache start).Always (fun u => (u.pod p).Ready) s ls) := by
  have hiff : (machine harborUrl json unmarshal hasCache start).Always (fun u => (u.pod p).Ready) s ls ↔
      (machine harborUrl json unmarshal hasCache start).Guarded (fun u l => ¬ Clears p u l) s ls :=
    Machine.always_iff_guarded (I := fun _ => True) (fun _ _ _ _ _ => trivial)
      (fun u l v _ hu hv => ready_of_step hu hv) trivial hs
  refine ⟨hiff, fun hempty hfetched => ?_⟩
  refine Machine.Always.mono (P := fun u : State Pod => (u.pod p).Ready ∧ ¬ (u.pod p).stage.Empty)
    (fun u hu => hu.1) ?_
  refine Machine.always_of_rule (D := fun l => ∀ api page, l = .act p (.fetched api) →
    ¬ Blank unmarshal (api (projectsUrl harborUrl page))) (fun u l v hl hu hv => ?_)
    (fun l hl api page he => hfetched api page (he ▸ hl)) ⟨hs, hempty⟩
  have hclears : ¬ Clears p u l := fun h => hu.2 (.inr h.2)
  refine ⟨(ready_of_step hu.1 hv).mpr hclears, ?_⟩
  rcases pod_of_step hv p with he | ⟨a, rfl, ha⟩
  · rw [he]
    exact hu.2
  · exact Discoverer.nonempty_step hu.2 (fun api page he => hl api page (congrArg (Label.act p) he)) ha

def shown : State Unit := ⟨fun _ => ⟨["dockerhub".toList], false, .waiting⟩, none⟩

/-- An outage of Harbor takes the pod out of service as little as an answer that is refused; an empty list does. -/
theorem stays_ready_outage :
    let M : Machine (State Unit) (Label Unit) :=
      machine "http://harbor-core".toList Json.strings unmarshalPages (fun _ => false) none
    M.Always (fun u => (u.pod ()).Ready) shown [.act () .tick, .act () (.fetched fun _ => .failed), .act () .tick,
        .act () (.fetched fun _ => .response 502 none)] ∧
      ¬ M.Always (fun u => (u.pod ()).Ready) shown [.act () .tick,
        .act () (.fetched fun _ => .response 200 (some "[]".toList)), .act () (.persist true), .act () .store] := by
  have hready : (shown.pod ()).Ready := Discoverer.ready_iff.mpr (by simp [shown])
  constructor
  · refine (stays_ready "http://harbor-core".toList Json.strings unmarshalPages (fun _ => false) none () shown _
      hready).2 (by simp [Stage.Empty, shown]) fun api page hapi => ?_
    simp only [List.mem_cons, Label.act.injEq, Action.fetched.injEq, true_and, reduceCtorEq, and_false, false_or,
      List.not_mem_nil, or_false] at hapi
    rcases hapi with rfl | rfl <;> simp [Blank, fetchPage]
  · rw [(stays_ready "http://harbor-core".toList Json.strings unmarshalPages (fun _ => false) none () shown _ hready).1]
    intro h
    have htick := ((Machine.guarded_cons rfl).mp h).2
    have hpage := ((Machine.guarded_cons rfl).mp htick).2
    have hpersist := ((Machine.guarded_cons rfl).mp hpage).2
    exact ((Machine.guarded_cons rfl).mp hpersist).1 ⟨rfl, rfl⟩

/-! ## Back in service -/

section
variable {harborUrl : Text} {json : Json (List Text)} {unmarshal : Text → Option (List HarborProject)}
variable {api : Text → PageReply} {entry : Option Text} {projects : List HarborProject} {d d' : Discoverer} {a : Action}

def pagesOf (projects : List HarborProject) : Nat := projects.length / pageSize + 1

/-- A waiting discoverer, `k` steps later, when Harbor serves the list. -/
def Discoverer.refreshed (projects : List HarborProject) (d : Discoverer) : Nat → Discoverer
  | 0 => d
  | k + 1 =>
      if k < pagesOf projects then
        { d with stage := .fetching (k + 1) (proxyCacheNames (projects.take (k * pageSize))) }
      else if k = pagesOf projects then { d with stage := .persisting (proxyCacheNames projects) }
      else if k = pagesOf projects + 1 then { d with stage := .storing (proxyCacheNames projects) }
      else { d with projects := proxyCacheNames projects, stage := .waiting }

def refreshSteps (projects : List HarborProject) : Nat := pagesOf projects + 3

def Label.own {Pod : Type} [DecidableEq Pod] (p : Pod) : Label Pod → Bool
  | .act q _ => q = p
  | .overwrite _ => false

theorem length_lt_pagesOf (projects : List HarborProject) {k : Nat} (hk : k < pagesOf projects) :
    (pageOf projects (k + 1)).length < pageSize ↔ k + 1 = pagesOf projects := by
  have hsize : pageSize = 100 := rfl
  rw [length_pageOf]
  unfold pagesOf at hk ⊢
  rw [hsize] at hk ⊢
  omega

theorem take_pagesOf (projects : List HarborProject) : projects.take (pagesOf projects * pageSize) = projects := by
  refine List.take_of_length_le ?_
  have hsize : pageSize = 100 := rfl
  unfold pagesOf
  rw [hsize]
  omega

theorem Discoverer.refreshed_fetching {k : Nat} (hk : k < pagesOf projects) :
    d.refreshed projects (k + 1) =
      { d with stage := .fetching (k + 1) (proxyCacheNames (projects.take (k * pageSize))) } := if_pos hk

theorem Discoverer.refreshed_persisting :
    d.refreshed projects (pagesOf projects + 1) = { d with stage := .persisting (proxyCacheNames projects) } := by
  simp [refreshed]

theorem Discoverer.refreshed_storing :
    d.refreshed projects (pagesOf projects + 2) = { d with stage := .storing (proxyCacheNames projects) } := by
  simp [refreshed]

theorem Discoverer.refreshed_waiting : d.refreshed projects (refreshSteps projects) =
    { d with projects := proxyCacheNames projects, stage := .waiting } := by
  simp [refreshed, refreshSteps]

theorem Discoverer.refreshed_page (hapi : Serves harborUrl unmarshal api projects)
    (hlength : projects.length < pageSize * (2 ^ 32 - 1)) {k : Nat} (hk : k < pagesOf projects) :
    (d.refreshed projects (k + 1)).step harborUrl json unmarshal entry (.fetched api) =
      some (d.refreshed projects (k + 2)) := by
  have hfits : pagesOf projects < UInt32.size := by
    have hsize : pageSize = 100 := rfl
    have hwidth : UInt32.size = 2 ^ 32 := rfl
    unfold pagesOf
    rw [hsize] at hlength ⊢
    omega
  have hlast : (pageOf projects (k + 1)).length < pageSize ↔ k + 1 = pagesOf projects := length_lt_pagesOf projects hk
  rw [refreshed_fetching hk, step_page hapi (by omega) rfl]
  by_cases heq : k + 1 = pagesOf projects
  · rw [if_pos (hlast.mpr heq), heq, take_pagesOf, show k + 2 = pagesOf projects + 1 by omega, refreshed_persisting]
  · rw [if_neg (mt hlast.mp heq), Nat.mod_eq_of_lt (by omega), refreshed_fetching (k := k + 1) (by omega)]

theorem refresh_cases {k : Nat} (hk : k < refreshSteps projects) : k = 0 ∨ (∃ j, k = j + 1 ∧ j < pagesOf projects) ∨
    k = pagesOf projects + 1 ∨ k = pagesOf projects + 2 := by
  unfold refreshSteps at hk
  by_cases hzero : k = 0
  · exact .inl hzero
  · by_cases hfew : k - 1 < pagesOf projects
    · exact .inr (.inl ⟨k - 1, by omega, hfew⟩)
    · omega

/-- One step of a refresh: no stage leaves a choice. -/
theorem Discoverer.refreshed_step (hapi : Serves harborUrl unmarshal api projects)
    (hlength : projects.length < pageSize * (2 ^ 32 - 1)) (hd : d.stage = .waiting) {k : Nat}
    (hk : k < refreshSteps projects) (hshutdown : a ≠ .shutdown) (hfetched : ∀ api', a = .fetched api' → api' = api)
    (h : (d.refreshed projects k).step harborUrl json unmarshal entry a = some d') :
    d' = d.refreshed projects (k + 1) := by
  rcases refresh_cases hk with rfl | ⟨j, rfl, hj⟩ | rfl | rfl
  · rw [refreshed_fetching (Nat.succ_pos _), Nat.zero_mul, List.take_zero]
    cases moved_of_step h with
    | tick => rfl
    | shutdown => exact absurd rfl hshutdown
    | get _ _ hstage | seed _ hstage | failed _ _ _ hstage | fetched _ _ _ _ _ hstage | persist _ _ hstage
      | store _ hstage => cases hd.symm.trans hstage
  · cases a with
    | fetched api' =>
        rw [hfetched api' rfl, refreshed_page hapi hlength hj, Option.some.injEq] at h
        exact h.symm
    | get | seed | persist | store | tick | shutdown =>
        rw [refreshed_fetching hj] at h
        cases h
  · rw [refreshed_persisting] at h
    rw [refreshed_storing]
    cases a with
    | persist reached =>
        cases h
        rfl
    | get | seed | fetched | store | tick | shutdown => cases h
  · rw [refreshed_storing] at h
    refine Eq.trans ?_ refreshed_waiting.symm
    cases a with
    | store =>
        cases h
        rfl
    | get | seed | fetched | persist | tick | shutdown => cases h

theorem Discoverer.refreshed_enabled (hapi : Serves harborUrl unmarshal api projects)
    (hlength : projects.length < pageSize * (2 ^ 32 - 1)) (hd : d.stage = .waiting) {k : Nat}
    (hk : k < refreshSteps projects) : ∃ a, a ≠ .shutdown ∧ (∀ api', a = .fetched api' → api' = api) ∧
      (d.refreshed projects k).step harborUrl json unmarshal entry a = some (d.refreshed projects (k + 1)) := by
  rcases refresh_cases hk with rfl | ⟨j, rfl, hj⟩ | rfl | rfl
  · refine ⟨.tick, by simp, by simp, ?_⟩
    rw [refreshed_fetching (Nat.succ_pos _), Nat.zero_mul, List.take_zero, refreshed, step, hd]
    rfl
  · exact ⟨.fetched api, by simp, by simp, refreshed_page hapi hlength hj⟩
  · refine ⟨.persist true, by simp, by simp, ?_⟩
    rw [refreshed_persisting, refreshed_storing]
    rfl
  · refine ⟨.store, by simp, by simp, ?_⟩
    rw [refreshed_storing]
    exact congrArg some refreshed_waiting.symm

/-- The old list is shown until the last step. -/
theorem Discoverer.refreshed_projects {k : Nat} (hk : k < refreshSteps projects) :
    (d.refreshed projects k).projects = d.projects := by
  rcases refresh_cases hk with rfl | ⟨j, rfl, hj⟩ | rfl | rfl
  · rfl
  · rw [refreshed_fetching hj]
  · rw [refreshed_persisting]
  · rw [refreshed_storing]

end

/-- When Harbor serves a list of projects to a waiting discoverer that is not shut down, its steps go through the pages,
the cache and the list in order, whatever the other pods do in between and whether the cache can be reached or not;
until the last of them the old list is shown, and then the names of all proxy-cache projects. -/
theorem refreshed_in_order {Pod : Type} [DecidableEq Pod] (harborUrl : Text) (json : Json (List Text))
    (unmarshal : Text → Option (List HarborProject)) (hasCache : Pod → Bool) (start : Option Text) (p : Pod)
    (api : Text → PageReply) (projects : List HarborProject) (s t : State Pod) (ls : List (Label Pod))
    (hapi : Serves harborUrl unmarshal api projects) (hlength : projects.length < pageSize * (2 ^ 32 - 1))
    (hs : (s.pod p).stage = .waiting)
    (hls : ∀ a, .act p a ∈ ls → a ≠ .shutdown ∧ ∀ api', a = .fetched api' → api' = api)
    (ht : (machine harborUrl json unmarshal hasCache start).run s ls = some t)
    (hcount : ls.countP (Label.own p) ≤ refreshSteps projects) :
    t.pod p = (s.pod p).refreshed projects (ls.countP (Label.own p)) ∧
    (ls.countP (Label.own p) < refreshSteps projects → (t.pod p).projects = (s.pod p).projects ∧
      ∃ a u, a ≠ .shutdown ∧ (∀ api', a = .fetched api' → api' = api) ∧
        (machine harborUrl json unmarshal hasCache start).step t (.act p a) = some u) ∧
    (ls.countP (Label.own p) = refreshSteps projects → (t.pod p).stage = .waiting ∧
      ((t.pod p).Ready ↔ ∃ q ∈ projects, q.registryId.isSome = true ∧ isSafeProjectName q.name = true)) := by
  have hrun : t.pod p = (s.pod p).refreshed projects (0 + ls.countP (Label.own p)) := by
    refine Machine.run_count (D := fun l => ∀ a, l = .act p a → a ≠ .shutdown ∧ ∀ api', a = .fetched api' → api' = api)
      (p := Label.own p) (N := refreshSteps projects)
      (I := fun k u => u.pod p = (s.pod p).refreshed projects k) ?_ ?_
      (fun l hl a he => hls a (he ▸ hl)) rfl ht ((Nat.zero_add _).trans_le hcount)
    · intro k u l v _ hl hu hv
      rcases pod_of_step hv p with he | ⟨a, rfl, -⟩
      · rw [he, hu]
      · simp [Label.own] at hl
    · intro k u l v hD hl hk hu hv
      cases l with
      | overwrite entry => cases hl
      | act q a =>
          obtain rfl : q = p := by simpa [Label.own] using hl
          have hstep := own_step hv
          rw [hu] at hstep
          obtain ⟨hshutdown, hfetched⟩ := hD a rfl
          exact Discoverer.refreshed_step hapi hlength hs hk hshutdown hfetched hstep
  rw [Nat.zero_add] at hrun
  refine ⟨hrun, fun hlt => ?_, fun heq => ?_⟩
  · obtain ⟨a, hshutdown, hfetched, henabled⟩ : ∃ a, a ≠ .shutdown ∧ (∀ api', a = .fetched api' → api' = api) ∧
        ((s.pod p).refreshed projects (ls.countP (Label.own p))).step harborUrl json unmarshal t.entry a =
          some ((s.pod p).refreshed projects (ls.countP (Label.own p) + 1)) :=
      Discoverer.refreshed_enabled hapi hlength hs hlt
    refine ⟨by rw [hrun, Discoverer.refreshed_projects hlt], a, ?_⟩
    rw [← hrun] at henabled
    exact ⟨_, hshutdown, hfetched, Option.map_eq_some_iff.mpr ⟨_, henabled, rfl⟩⟩
  · rw [heq, Discoverer.refreshed_waiting] at hrun
    refine ⟨by rw [hrun], ?_⟩
    rw [Discoverer.ready_iff, hrun]
    constructor
    · intro hne
      obtain ⟨n, hn⟩ := List.exists_mem_of_ne_nil _ hne
      obtain ⟨q, hq, hregistry, hsafe, -⟩ := mem_proxyCacheNames.mp hn
      exact ⟨q, hq, hregistry, hsafe⟩
    · rintro ⟨q, hq, hregistry, hsafe⟩
      exact List.ne_nil_of_mem (mem_proxyCacheNames.mpr ⟨q, hq, hregistry, hsafe, rfl⟩)

/-- Two pods that have found nothing; one of them refreshes its list while the other starts. -/
def starting : State Bool := ⟨fun p => if p then .new true else ⟨[], true, .waiting⟩, none⟩

def oneRefresh : List (Label Bool) := [.act false .tick, .act true (.get false),
  .act false (.fetched oneProjectApi), .overwrite none, .act false (.persist true), .act true .seed, .act false .store]

theorem refreshed_in_order_one : ∃ t, (machine "http://harbor-core".toList Json.strings unmarshalPages (fun _ => true)
    none).run starting oneRefresh = some t ∧ (t.pod false).Ready := by
  have hclients : ∀ a, Label.act false a ∈ oneRefresh →
      a ≠ .shutdown ∧ ∀ api', a = .fetched api' → api' = oneProjectApi := by
    simp [oneRefresh]
  refine ⟨_, rfl, ?_⟩
  have hready := (refreshed_in_order "http://harbor-core".toList Json.strings unmarshalPages (fun _ => true) none false
    oneProjectApi [dockerhub] starting _ oneRefresh oneProjectApi_serves (by decide) rfl hclients rfl (by decide)).2.2
    (by decide)
  exact hready.2.mpr ⟨dockerhub, List.mem_singleton_self _, rfl, by decide⟩

end HarborRouter.Discovery
