import HarborRouter.Lib.Json
import HarborRouter.Lib.Machine
import HarborRouter.Proxy.Path

/-!
# Discovery of the proxy-cache projects

The discoverers of any number of pods, one await at a time, over one shared cache entry: each seeds its list from the
entry and then refreshes it from Harbor again and again, page by page. The entry may be changed by anybody else, to
anything; the cache may be out of reach whenever it is used.

* `Discoverer.Harmless` : the names that a discoverer shows, or is about to write or show, are safe;
* `run_fetching` : until the last page has arrived, a refresh changes nothing;
* `projects_safe_and_atomic` : the list is safe, and is changed as a whole or not at all.
-/

namespace HarborRouter.Discovery
open Lib Text

def discoveryCacheKey : Text := "discovery:projects".toList

/-- An item of a page of Harbor's projects; a proxy-cache project has a `registry_id` that is not null. -/
structure HarborProject where
  name : Text
  registryId : Option Text
  deriving DecidableEq

/-- What Harbor answers; the body may fail to arrive. -/
inductive PageReply
  | failed
  | response (status : Nat) (body : Option Text)

inductive FetchError
  /-- execute discovery request -/
  | execute
  /-- harbor API auth failed -/
  | auth (status : Nat)
  | unexpectedStatus (status : Nat) (body : Text)
  /-- unmarshal projects response -/
  | unmarshal

def pageSize : Nat := 100

def projectsUrl (harborUrl : Text) (page : Nat) : Text :=
  harborUrl ++ "/api/v2.0/projects?page=".toList ++ decimal page ++ "&page_size=".toList ++ decimal pageSize ++
    "&with_detail=true".toList

/-- The names that a page adds. -/
def proxyCacheNames (projects : List HarborProject) : List Text :=
  (projects.filter fun p => p.registryId.isSome && isSafeProjectName p.name).map HarborProject.name

/-- One turn of the loop of `fetch_proxy_cache_projects`: the names so far, and whether this was the last page. -/
def fetchPage (unmarshal : Text → Option (List HarborProject)) (result : List Text) :
    PageReply → Except FetchError (List Text × Bool)
  | .failed => .error .execute
  | .response status body =>
      if status = 401 ∨ status = 403 then .error (.auth status)
      else if ¬ (200 ≤ status ∧ status < 300) then .error (.unexpectedStatus status (body.getD []))
      else match body.bind unmarshal with
        | some projects => .ok (result ++ proxyCacheNames projects, decide (projects.length < pageSize))
        | none => .error .unmarshal

/-- What `seed_from_cache` makes of the list, from the text that it read. -/
def seedFromCache (json : Json (List Text)) (projects : List Text) : Option Text → List Text
  | some text =>
      match json.fromStr text with
      | some names =>
          let safe := names.filter fun n => isSafeProjectName n
          if names = [] then projects else if safe = [] then projects else safe
      | none => projects
  | none => projects

inductive Stage
  /-- about to read the cache -/
  | starting
  /-- has read the cache -/
  | seeding (text : Option Text)
  /-- awaits a page -/
  | fetching (page : Nat) (result : List Text)
  /-- about to write the cache -/
  | persisting (projects : List Text)
  /-- about to show the list -/
  | storing (projects : List Text)
  /-- awaits the ticker -/
  | waiting
  | stopped

def Stage.Fetching : Stage → Prop
  | .fetching .. => True
  | _ => False

def Stage.names : Stage → List Text
  | .fetching _ names | .persisting names | .storing names => names
  | _ => []

/-- `projects` is what `get_projects` returns. -/
structure Discoverer where
  projects : List Text
  hasCache : Bool
  stage : Stage

def Discoverer.new (hasCache : Bool) : Discoverer := ⟨[], hasCache, .starting⟩

/-- What a discoverer does between two awaits; the cache may be out of reach. -/
inductive Action
  | get (reached : Bool)
  | seed
  | fetched (api : Text → PageReply)
  | persist (reached : Bool)
  | store
  | tick
  | shutdown

section Steps
variable (harborUrl : Text) (json : Json (List Text)) (unmarshal : Text → Option (List HarborProject))

def Discoverer.step (d : Discoverer) (entry : Option Text) : Action → Option Discoverer
  | .get reached =>
      match d.stage with
      | .starting =>
          some { d with
            stage := if d.hasCache then .seeding (if reached then entry else none) else .fetching 1 [] }
      | _ => none
  | .seed =>
      match d.stage with
      | .seeding text => some { d with projects := seedFromCache json d.projects text, stage := .fetching 1 [] }
      | _ => none
  | .fetched api =>
      match d.stage with
      | .fetching page result =>
          some { d with
            stage := match fetchPage unmarshal result (api (projectsUrl harborUrl page)) with
              | .ok (result, true) => .persisting result
              | .ok (result, false) => .fetching ((page + 1) % UInt32.size) result
              | .error _ => .waiting }
      | _ => none
  | .persist _ =>
      match d.stage with
      | .persisting projects => some { d with stage := .storing projects }
      | _ => none
  | .store =>
      match d.stage with
      | .storing projects => some { d with projects := projects, stage := .waiting }
      | _ => none
  | .tick =>
      match d.stage with
      | .waiting => some { d with stage := .fetching 1 [] }
      | _ => none
  | .shutdown =>
      match d.stage with
      | .waiting => some { d with stage := .stopped }
      | _ => none

def Discoverer.persistToCache (d : Discoverer) : Option Text :=
  match d.stage with
  | .persisting projects => if d.hasCache then json.toString projects else none
  | _ => none

structure State (Pod : Type) where
  pod : Pod → Discoverer
  entry : Option Text

/-- `overwrite` is an entry that expires, or is set by somebody else. -/
inductive Label (Pod : Type)
  | act (p : Pod) (a : Action)
  | overwrite (entry : Option Text)

variable {Pod : Type} [DecidableEq Pod]

def step (s : State Pod) : Label Pod → Option (State Pod)
  | .act p a => ((s.pod p).step harborUrl json unmarshal s.entry a).map fun d =>
      ⟨Function.update s.pod p d,
        match a with
        | .persist true => ((s.pod p).persistToCache json).or s.entry
        | _ => s.entry⟩
  | .overwrite entry => some { s with entry := entry }

variable (hasCache : Pod → Bool) (entry : Option Text)

def init : State Pod := ⟨fun p => .new (hasCache p), entry⟩

def machine : Machine (State Pod) (Label Pod) := ⟨init hasCache entry, step harborUrl json unmarshal⟩

end Steps

def Label.Writes {Pod : Type} : Label Pod → Prop
  | .act _ (.persist reached) => reached = true
  | .act _ _ => False
  | .overwrite _ => True

/-! ## Steps -/

section Spec
variable {harborUrl : Text} {json : Json (List Text)} {unmarshal : Text → Option (List HarborProject)}
variable {d d' : Discoverer} {entry : Option Text} {a : Action}

theorem mem_proxyCacheNames {projects : List HarborProject} {n : Text} : n ∈ proxyCacheNames projects ↔
    ∃ p ∈ projects, p.registryId.isSome = true ∧ isSafeProjectName p.name = true ∧ p.name = n := by
  simp [proxyCacheNames, and_assoc]

/-- A page is refused, or its safe names are added. -/
theorem fetchPage_ok {result names : List Text} {reply : PageReply} {last : Bool}
    (h : fetchPage unmarshal result reply = .ok (names, last)) :
    ∃ projects, names = result ++ proxyCacheNames projects ∧ last = decide (projects.length < pageSize) := by
  cases reply with
  | failed => cases h
  | response status body =>
      simp only [fetchPage] at h
      split at h
      · cases h
      · split at h
        · cases h
        · split at h
          · rename_i projects _
            cases h
            exact ⟨projects, rfl, rfl⟩
          · cases h

inductive Discoverer.Moved (harborUrl : Text) (json : Json (List Text))
    (unmarshal : Text → Option (List HarborProject)) (d : Discoverer) (entry : Option Text) :
    Action → Discoverer → Prop
  | get (reached : Bool) (st : Stage) (hd : d.stage = .starting)
      (hst : st = if d.hasCache then .seeding (if reached then entry else none) else .fetching 1 []) :
      Moved harborUrl json unmarshal d entry (.get reached) { d with stage := st }
  | seed (text : Option Text) (hd : d.stage = .seeding text) : Moved harborUrl json unmarshal d entry .seed
      { d with projects := seedFromCache json d.projects text, stage := .fetching 1 [] }
  | failed (api : Text → PageReply) (page : Nat) (result : List Text) (hd : d.stage = .fetching page result) :
      Moved harborUrl json unmarshal d entry (.fetched api) { d with stage := .waiting }
  | fetched (api : Text → PageReply) (page : Nat) (result : List Text) (projects : List HarborProject) (st : Stage)
      (hd : d.stage = .fetching page result)
      (hst : st = .persisting (result ++ proxyCacheNames projects) ∨
        st = .fetching ((page + 1) % UInt32.size) (result ++ proxyCacheNames projects)) :
      Moved harborUrl json unmarshal d entry (.fetched api) { d with stage := st }
  | persist (reached : Bool) (projects : List Text) (hd : d.stage = .persisting projects) :
      Moved harborUrl json unmarshal d entry (.persist reached) { d with stage := .storing projects }
  | store (projects : List Text) (hd : d.stage = .storing projects) :
      Moved harborUrl json unmarshal d entry .store { d with projects := projects, stage := .waiting }
  | tick (hd : d.stage = .waiting) : Moved harborUrl json unmarshal d entry .tick { d with stage := .fetching 1 [] }
  | shutdown (hd : d.stage = .waiting) : Moved harborUrl json unmarshal d entry .shutdown { d with stage := .stopped }

theorem Discoverer.moved_of_step (h : d.step harborUrl json unmarshal entry a = some d') :
    d.Moved harborUrl json unmarshal entry a d' := by
  cases a with
  | get reached =>
      simp only [step] at h
      split at h <;> cases h
      exact .get reached _ ‹_› rfl
  | seed =>
      simp only [step] at h
      split at h <;> cases h
      exact .seed _ ‹_›
  | fetched api =>
      simp only [step] at h
      split at h
      · rename_i page result hd
        cases h
        split
        · rename_i hpage
          obtain ⟨projects, rfl, -⟩ := fetchPage_ok hpage
          exact .fetched api page result projects _ hd (.inl rfl)
        · rename_i hpage
          obtain ⟨projects, rfl, -⟩ := fetchPage_ok hpage
          exact .fetched api page result projects _ hd (.inr rfl)
        · exact .failed api page result hd
      · cases h
  | persist reached =>
      simp only [step] at h
      split at h <;> cases h
      exact .persist reached _ ‹_›
  | store =>
      simp only [step] at h
      split at h <;> cases h
      exact .store _ ‹_›
  | tick =>
      simp only [step] at h
      split at h <;> cases h
      exact .tick ‹_›
  | shutdown =>
      simp only [step] at h
      split at h <;> cases h
      exact .shutdown ‹_›

/-- The names are safe, those that are shown and those that are about to be. -/
structure Discoverer.Harmless (d : Discoverer) : Prop where
  projects : ∀ n ∈ d.projects, isSafeProjectName n = true
  names : ∀ n ∈ d.stage.names, isSafeProjectName n = true

/-- Seeding keeps the list, or shows the safe names of another, if there are any. -/
theorem seedFromCache_cases (projects : List Text) (text : Option Text) : seedFromCache json projects text = projects ∨
    ∃ names : List Text, seedFromCache json projects text = names.filter (fun n => isSafeProjectName n) ∧
      seedFromCache json projects text ≠ [] := by
  unfold seedFromCache
  split
  · split
    · rename_i names _
      dsimp only
      split
      · exact .inl rfl
      · split
        · exact .inl rfl
        · rename_i hne
          exact .inr ⟨names, rfl, hne⟩
    · exact .inl rfl
  · exact .inl rfl

theorem seedFromCache_safe {projects : List Text} {text : Option Text}
    (h : ∀ n ∈ projects, isSafeProjectName n = true) :
    ∀ n ∈ seedFromCache json projects text, isSafeProjectName n = true := by
  rcases @seedFromCache_cases json projects text with hsame | ⟨names, hnames, -⟩
  · rw [hsame]
    exact h
  · rw [hnames]
    exact fun n hn => (List.mem_filter.mp hn).2

/-- A list of safe names that was written is seeded as it is. -/
theorem seedFromCache_written {projects names : List Text} {text : Text} (hread : json.fromStr text = some names)
    (hsafe : ∀ n ∈ names, isSafeProjectName n = true) (hne : names ≠ []) :
    seedFromCache json projects (some text) = names := by
  have hfilter : names.filter (fun n => isSafeProjectName n) = names := List.filter_eq_self.mpr hsafe
  rw [seedFromCache, hread]
  dsimp only
  rw [hfilter, if_neg hne, if_neg hne]

theorem Discoverer.harmless_new (hasCache : Bool) : (Discoverer.new hasCache).Harmless :=
  ⟨fun _ hn => absurd hn List.not_mem_nil, fun _ hn => absurd hn List.not_mem_nil⟩

theorem Discoverer.harmless_step (hd : d.Harmless) (h : d.step harborUrl json unmarshal entry a = some d') :
    d'.Harmless := by
  have hnil : ∀ n ∈ ([] : List Text), isSafeProjectName n = true := fun _ hn => absurd hn List.not_mem_nil
  cases moved_of_step h with
  | get reached st hstage hst =>
      refine ⟨hd.projects, ?_⟩
      rw [hst]
      split <;> exact hnil
  | seed text hstage => exact ⟨seedFromCache_safe hd.projects, hnil⟩
  | failed api page result hstage => exact ⟨hd.projects, hnil⟩
  | fetched api page result projects st hstage hst =>
      have hadded : ∀ n ∈ result ++ proxyCacheNames projects, isSafeProjectName n = true := by
        intro n hn
        rcases List.mem_append.mp hn with hn | hn
        · exact hd.names n (by rw [hstage]; exact hn)
        · obtain ⟨p, -, -, hsafe, rfl⟩ := mem_proxyCacheNames.mp hn
          exact hsafe
      refine ⟨hd.projects, ?_⟩
      rcases hst with rfl | rfl <;> exact hadded
  | persist reached projects hstage => exact ⟨hd.projects, fun n hn => hd.names n (by rw [hstage]; exact hn)⟩
  | store projects hstage => exact ⟨fun n hn => hd.names n (by rw [hstage]; exact hn), hnil⟩
  | tick hstage => exact ⟨hd.projects, hnil⟩
  | shutdown hstage => exact ⟨hd.projects, hnil⟩

/-- While pages are awaited the list stays as it is. -/
theorem Discoverer.fetching_step (hd : d.stage.Fetching) (h : d.step harborUrl json unmarshal entry a = some d') :
    d'.projects = d.projects ∧ ∀ reached, a ≠ .persist reached := by
  cases moved_of_step h with
  | failed | fetched => exact ⟨rfl, nofun⟩
  | get _ _ hstage | seed _ hstage | persist _ _ hstage | store _ hstage | tick hstage | shutdown hstage =>
      rw [hstage] at hd
      exact hd.elim

/-- The list has been seeded, or there was no cache to seed it from. -/
def Stage.Begun : Stage → Prop
  | .starting | .seeding _ => False
  | _ => True

theorem Discoverer.begun_step (hd : d.stage.Begun ∨ ∃ text, d.stage = .seeding text)
    (h : d.step harborUrl json unmarshal entry a = some d') : d'.stage.Begun := by
  cases moved_of_step h with
  | get reached st hstage hst =>
      rw [hstage] at hd
      obtain hd | ⟨text, hd⟩ := hd
      · exact hd.elim
      · cases hd
  | fetched _ _ _ _ _ _ hst => rcases hst with rfl | rfl <;> trivial
  | seed | failed | persist | store | tick | shutdown => trivial

/-! ## Runs -/

variable {Pod : Type} [DecidableEq Pod] {s t : State Pod} {l : Label Pod} {p : Pod}

theorem own_step {a : Action} (h : step harborUrl json unmarshal s (.act p a) = some t) :
    (s.pod p).step harborUrl json unmarshal s.entry a = some (t.pod p) := by
  obtain ⟨d, hd, rfl⟩ := Option.map_eq_some_iff.mp h
  have hself : Function.update s.pod p d p = d := Function.update_self ..
  exact hd.trans (congrArg some hself.symm)

/-- A discoverer stands still, or takes the step itself. -/
theorem pod_of_step (h : step harborUrl json unmarshal s l = some t) (p : Pod) : t.pod p = s.pod p ∨
    ∃ a, l = .act p a ∧ (s.pod p).step harborUrl json unmarshal s.entry a = some (t.pod p) := by
  cases l with
  | act q a =>
      by_cases hp : p = q
      · subst hp
        exact .inr ⟨a, rfl, own_step h⟩
      · obtain ⟨d, hd, rfl⟩ := Option.map_eq_some_iff.mp h
        exact .inl (Function.update_of_ne hp ..)
  | overwrite entry =>
      cases h
      exact .inl rfl

theorem entry_of_step (h : step harborUrl json unmarshal s l = some t) (hl : ¬ l.Writes) : t.entry = s.entry := by
  cases l with
  | act q a =>
      obtain ⟨d, hd, rfl⟩ := Option.map_eq_some_iff.mp h
      cases a with
      | persist reached =>
          cases reached with
          | true => exact absurd rfl hl
          | false => rfl
      | _ => rfl
  | overwrite entry => exact absurd trivial hl

variable {hasCache : Pod → Bool} {start : Option Text}

theorem harmless_of_reachable (hs : (machine harborUrl json unmarshal hasCache start).Reachable s) (p : Pod) :
    (s.pod p).Harmless := by
  refine Machine.Reachable.rule (I := fun s : State Pod => ∀ p, (s.pod p).Harmless)
    (fun p => Discoverer.harmless_new (hasCache p)) (fun s l t hs ht p => ?_) hs p
  rcases pod_of_step ht p with he | ⟨a, -, ha⟩
  · rw [he]
    exact hs p
  · exact Discoverer.harmless_step (hs p) ha

/-- Until the last page has arrived a refresh changes neither the list nor the entry. -/
theorem run_fetching : ∀ {ls : List (Label Pod)} {s t : State Pod},
    (machine harborUrl json unmarshal hasCache start).Always (fun u => (u.pod p).stage.Fetching) s ls →
    (machine harborUrl json unmarshal hasCache start).run s ls = some t →
      (t.pod p).projects = (s.pod p).projects ∧
        (t.entry = s.entry ∨ ∃ l ∈ ls, l.Writes ∧ ∀ reached, l ≠ .act p (.persist reached))
  | [], s, t, _, h => by
      cases h
      exact ⟨rfl, .inl rfl⟩
  | l :: ls, s, t, hf, h => by
      rw [Machine.run_cons, Option.bind_eq_some_iff] at h
      obtain ⟨u, hu, h⟩ := h
      obtain ⟨hprojects, hentry⟩ := run_fetching (hf.2 u hu) h
      constructor
      · rcases pod_of_step hu p with he | ⟨a, -, ha⟩
        · rw [hprojects, he]
        · rw [hprojects, (Discoverer.fetching_step hf.1 ha).1]
      · rcases hentry with hentry | ⟨m, hm, hwrites⟩
        · by_cases hl : l.Writes
          · refine .inr ⟨l, List.mem_cons_self, hl, ?_⟩
            rintro reached rfl
            exact (Discoverer.fetching_step hf.1 (own_step hu)).2 reached rfl
          · exact .inl (hentry.trans (entry_of_step hu hl))
        · exact .inr ⟨m, List.mem_cons_of_mem l hm, hwrites⟩

/-- What one pod persists another seeds: nobody writes the entry in between, and a pod reads it only once. -/
theorem seeded_of_persisted (hjson : json.Faithful Eq) {q : Pod} {names : List Text} {before after : List (Label Pod)}
    (hq : (s.pod q).stage = .persisting names) (hcache : (s.pod q).hasCache = true) (hne : names ≠ [])
    (hsafe : ∀ n ∈ names, isSafeProjectName n = true) (hbefore : ∀ l ∈ before, ¬ l.Writes)
    (h : (machine harborUrl json unmarshal hasCache start).run s
      (.act q (.persist true) :: (before ++ .act p (.get true) :: (after ++ [.act p .seed]))) = some t) :
    (t.pod p).projects = names := by
  obtain ⟨text, _, hwrite, hread, rfl⟩ := hjson names
  rw [Machine.run_cons, Option.bind_eq_some_iff] at h
  obtain ⟨s₁, h₁, h⟩ := h
  rw [Machine.run_append, Option.bind_eq_some_iff] at h
  obtain ⟨s₂, h₂, h⟩ := h
  rw [Machine.run_cons, Option.bind_eq_some_iff] at h
  obtain ⟨s₃, h₃, h⟩ := h
  obtain ⟨s₄, h₄, h₅⟩ := (Machine.run_concat _).mp h
  have hentry₁ : s₁.entry = some text := by
    obtain ⟨d, -, rfl⟩ := Option.map_eq_some_iff.mp h₁
    show ((s.pod q).persistToCache json).or s.entry = _
    rw [Discoverer.persistToCache, hq]
    dsimp only
    rw [if_pos hcache, hwrite, Option.some_or]
  have hentry₂ : s₂.entry = some text := by
    refine Machine.run_rule_on (D := fun l => ¬ l.Writes) (I := fun u : State Pod => u.entry = some text)
      (fun u l v hl hu hv => ?_) hbefore hentry₁ h₂
    exact (entry_of_step hv hl).trans hu
  have hseeding₃ : (s₃.pod p).stage = .seeding (some text) ∨ (s₃.pod p).stage.Begun := by
    have hget := own_step h₃
    simp only [Discoverer.step] at hget
    split at hget
    · rw [Option.some.injEq] at hget
      rw [← hget]
      dsimp only
      split
      · exact .inl (congrArg Stage.seeding hentry₂)
      · exact .inr trivial
    · cases hget
  have hseeding₄ : (s₄.pod p).stage = .seeding (some text) ∨ (s₄.pod p).stage.Begun := by
    refine Machine.run_rule (I := fun u : State Pod => (u.pod p).stage = .seeding (some text) ∨ (u.pod p).stage.Begun)
      (fun u l v hu hv => ?_) hseeding₃ h₄
    rcases pod_of_step hv p with he | ⟨a, -, ha⟩
    · rw [he]
      exact hu
    · exact .inr (Discoverer.begun_step (hu.symm.imp_right fun h => ⟨_, h⟩) ha)
  have hseed := own_step h₅
  generalize t.pod p = d at hseed ⊢
  cases Discoverer.moved_of_step hseed with
  | seed read hstage =>
      rw [hstage] at hseeding₄
      cases hseeding₄.resolve_right id
      exact seedFromCache_written hread hsafe hne

/-- What is promised of the lists in the state `s`. -/
structure Dependable (M : Machine (State Pod) (Label Pod)) (s : State Pod) : Prop where
  safe : ∀ p, ∀ n ∈ (s.pod p).projects, isSafeProjectName n = true
  /-- A refresh that awaits its pages since `s` and then fails has changed nothing. -/
  atomic : ∀ p ls u api t, M.Always (fun u => (u.pod p).stage.Fetching) s ls → M.run s ls = some u →
    M.step u (.act p (.fetched api)) = some t → (t.pod p).stage = .waiting →
      (t.pod p).projects = (s.pod p).projects ∧
        (t.entry = s.entry ∨ ∃ l ∈ ls, l.Writes ∧ ∀ reached, l ≠ .act p (.persist reached))
  seeds : ∀ p t, M.step s (.act p .seed) = some t →
    (t.pod p).projects = (s.pod p).projects ∨ (t.pod p).projects ≠ []
  /-- A list that `q` persists in `s` is what `p` seeds, if nobody else writes before it reads. -/
  shared : ∀ q p names before after t, (s.pod q).stage = .persisting names → (s.pod q).hasCache = true → names ≠ [] →
    (∀ l ∈ before, ¬ l.Writes) →
      M.run s (.act q (.persist true) :: (before ++ .act p (.get true) :: (after ++ [.act p .seed]))) = some t →
        (t.pod p).projects = names

end Spec

/-- The lists are safe, and are changed as a whole or not at all, in every run. -/
theorem projects_safe_and_atomic {Pod : Type} [DecidableEq Pod] (harborUrl : Text) (json : Json (List Text))
    (unmarshal : Text → Option (List HarborProject)) (hasCache : Pod → Bool) (entry : Option Text) (s : State Pod)
    (hjson : json.Faithful Eq) (hs : (machine harborUrl json unmarshal hasCache entry).Reachable s) :
    Dependable (machine harborUrl json unmarshal hasCache entry) s where
  safe p := (harmless_of_reachable hs p).projects
  atomic p ls u api t hfetching hu ht _ := by
    obtain ⟨hprojects, hentry⟩ := run_fetching hfetching hu
    have hpage : (u.pod p).stage.Fetching := hfetching.last hu
    have hlast : t.entry = u.entry := entry_of_step (l := .act p (.fetched api)) ht id
    rw [(Discoverer.fetching_step hpage (own_step ht)).1, hlast]
    exact ⟨hprojects, hentry⟩
  seeds p t ht := by
    have hseed := own_step ht
    generalize t.pod p = d at hseed ⊢
    cases Discoverer.moved_of_step hseed with
    | seed text => exact (seedFromCache_cases _ text).imp_right fun ⟨_, _, hne⟩ => hne
  shared q p names before after t hq hcache hne hbefore ht := by
    refine seeded_of_persisted hjson hq hcache hne (fun n hn => ?_) hbefore ht
    exact (harmless_of_reachable hs q).names n (by rw [hq]; exact hn)

def dockerhub : HarborProject := ⟨"dockerhub".toList, some "1".toList⟩

def dockerhubPage : Text := "[\x7b\"name\":\"dockerhub\",\"registry_id\":1\x7d]".toList

/-- A Harbor with one project. -/
def oneProjectApi (url : Text) : PageReply :=
  .response 200 (some (if url = projectsUrl "http://harbor-core".toList 1 then dockerhubPage else "[]".toList))

def unmarshalPages (body : Text) : Option (List HarborProject) :=
  if body = dockerhubPage then some [dockerhub] else if body = "[]".toList then some [] else none

def twoPods : Machine (State Bool) (Label Bool) :=
  machine "http://harbor-core".toList Json.strings unmarshalPages (fun _ => true) none

/-- One pod has found the project but could not persist it, and has found it again; the other is starting. -/
def found : State Bool :=
  (twoPods.run twoPods.init [.act false (.get true), .act false .seed, .act false (.fetched oneProjectApi),
    .act false (.persist false), .act false .store, .act false .tick, .act false (.fetched oneProjectApi)]).get rfl

/-- Now it persists the project, and the other pod reads it. -/
def handedOn : State Bool :=
  (twoPods.run found [.act false (.persist true), .act true (.get true), .act true .seed]).get rfl

theorem projects_safe_and_atomic_found :
    Dependable twoPods found ∧ (handedOn.pod true).projects = ["dockerhub".toList] := by
  have h : Dependable twoPods found :=
    projects_safe_and_atomic _ _ _ _ _ found Json.strings_faithful ⟨_, (Option.some_get _).symm⟩
  refine ⟨h, ?_⟩
  exact h.shared false true ["dockerhub".toList] [] [] handedOn rfl rfl (by decide) nofun (Option.some_get _).symm

end HarborRouter.Discovery
