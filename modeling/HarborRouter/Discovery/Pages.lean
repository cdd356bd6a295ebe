import HarborRouter.Discovery
import Mathlib.Algebra.Order.Ring.Nat

/-!
# Paging through the projects

`fetch_proxy_cache_projects` against an API that serves a fixed list of projects page by page: it asks for the pages
in order, and stops at the first that is not full. A list of full pages ends with an empty one.

* `Cached` : which projects are to be found, and `proxyCacheNames_eq` : which are;
* `fetches_full` : the refresh goes on over the full pages, with the names of all before;
* `fetches_all` : after one request more it has the names of the whole list.
-/

namespace HarborRouter.Discovery
open Lib Text

def pageOf (projects : List HarborProject) (k : Nat) : List HarborProject :=
  (projects.drop ((k - 1) * pageSize)).take pageSize

/-- The API answers every page of the list. -/
def Serves (harborUrl : Text) (unmarshal : Text → Option (List HarborProject)) (api : Text → PageReply)
    (projects : List HarborProject) : Prop :=
  ∀ k, 0 < k → k < UInt32.size → ∃ status body, api (projectsUrl harborUrl k) = .response status (some body) ∧
    (200 ≤ status ∧ status < 300) ∧ unmarshal body = some (pageOf projects k)

/-- The project has a registry and a safe name: one that is not empty, without `/`, `\\`, `..` and control characters,
and not surrounded by blanks. -/
def Cached (p : HarborProject) : Prop :=
  p.registryId ≠ none ∧ p.name ≠ [] ∧ '/' ∉ p.name ∧ '\\' ∉ p.name ∧ ¬ "..".toList <:+: p.name ∧
    (∀ c ∈ p.name, isControl c = false) ∧ p.name = trim p.name

theorem cached_iff {p : HarborProject} : Cached p ↔ (p.registryId.isSome && isSafeProjectName p.name) = true := by
  rw [Bool.and_eq_true, isSafeProjectName_iff, Option.isSome_iff_ne_none]
  rfl

instance : DecidablePred Cached := fun _ => decidable_of_iff _ cached_iff.symm

theorem proxyCacheNames_eq (projects : List HarborProject) :
    proxyCacheNames projects = (projects.filter fun p => Cached p).map HarborProject.name := by
  rw [proxyCacheNames]
  congr 2
  funext p
  rw [Bool.eq_iff_iff, decide_eq_true_iff, cached_iff]

section
variable {harborUrl : Text} {json : Json (List Text)} {unmarshal : Text → Option (List HarborProject)}
variable {api : Text → PageReply} {entry : Option Text} {projects : List HarborProject} {d : Discoverer}

variable (harborUrl json unmarshal api entry) in
/-- A discoverer after its next `n` requests. -/
def Discoverer.fetches : Nat → Discoverer → Option Discoverer
  | 0, d => some d
  | n + 1, d => (fetches n d).bind fun d => d.step harborUrl json unmarshal entry (.fetched api)

/-! ## One page -/

theorem length_pageOf (projects : List HarborProject) (k : Nat) :
    (pageOf projects (k + 1)).length = min pageSize (projects.length - k * pageSize) := by
  rw [pageOf, List.length_take, List.length_drop, Nat.add_sub_cancel]

theorem proxyCacheNames_append (a b : List HarborProject) :
    proxyCacheNames (a ++ b) = proxyCacheNames a ++ proxyCacheNames b := by
  rw [proxyCacheNames, List.filter_append, List.map_append]
  rfl

theorem take_pageOf (projects : List HarborProject) (k : Nat) :
    projects.take ((k + 1) * pageSize) = projects.take (k * pageSize) ++ pageOf projects (k + 1) := by
  rw [Nat.add_mul, Nat.one_mul, List.take_add, pageOf, Nat.add_sub_cancel]

theorem fetchPage_serves (hapi : Serves harborUrl unmarshal api projects) {k : Nat} (hk : k + 1 < UInt32.size)
    (result : List Text) : fetchPage unmarshal result (api (projectsUrl harborUrl (k + 1))) =
      .ok (result ++ proxyCacheNames (pageOf projects (k + 1)),
        decide ((pageOf projects (k + 1)).length < pageSize)) := by
  obtain ⟨status, body, hreply, hstatus, hbody⟩ := hapi (k + 1) (Nat.succ_pos k) hk
  have hauth : ¬ (status = 401 ∨ status = 403) := by omega
  rw [hreply]
  simp only [fetchPage, if_neg hauth, if_neg (not_not.mpr hstatus), Option.bind_some, hbody]

theorem step_page (hapi : Serves harborUrl unmarshal api projects) {k : Nat} (hk : k + 1 < UInt32.size)
    (hd : d.stage = .fetching (k + 1) (proxyCacheNames (projects.take (k * pageSize)))) :
    d.step harborUrl json unmarshal entry (.fetched api) = some { d with
      stage := if (pageOf projects (k + 1)).length < pageSize
        then .persisting (proxyCacheNames (projects.take ((k + 1) * pageSize)))
        else .fetching ((k + 2) % UInt32.size) (proxyCacheNames (projects.take ((k + 1) * pageSize))) } := by
  rw [Discoverer.step, hd, take_pageOf, proxyCacheNames_append]
  dsimp only
  rw [fetchPage_serves hapi hk]
  by_cases hlast : (pageOf projects (k + 1)).length < pageSize
  · rw [decide_eq_true hlast, if_pos hlast]
  · rw [decide_eq_false hlast, if_neg hlast]

/-! ## All pages -/

theorem fetches_full (hapi : Serves harborUrl unmarshal api projects)
    (hlength : projects.length < pageSize * (2 ^ 32 - 1)) (hd : d.stage = .fetching 1 []) {k : Nat}
    (hk : k ≤ projects.length / pageSize) :
    d.fetches harborUrl json unmarshal api entry k =
      some { d with stage := .fetching (k + 1) (proxyCacheNames (projects.take (k * pageSize))) } := by
  have hsize : pageSize = 100 := rfl
  have hwidth : UInt32.size = 2 ^ 32 := rfl
  rw [hsize] at hlength
  induction k with
  | zero =>
      rw [Nat.zero_mul, Discoverer.fetches, List.take_zero]
      have hstart : d = { d with stage := .fetching 1 [] } := by rw [← hd]
      exact congrArg some hstart
  | succ k ih =>
      have hfew : k + 1 ≤ projects.length / 100 := hk
      have hfull : ¬ (pageOf projects (k + 1)).length < pageSize := by
        rw [length_pageOf, hsize]
        omega
      have hpage : (k + 2) % UInt32.size = k + 2 := Nat.mod_eq_of_lt (by omega)
      rw [Discoverer.fetches, ih (Nat.le_of_succ_le hk), Option.bind_some, step_page hapi (by omega) rfl, if_neg hfull,
        hpage]

/-! ## Two pages -/

theorem projectsUrl_injective (harborUrl : Text) {j k : Nat} (hj : j < UInt64.size) (hk : k < UInt64.size)
    (h : projectsUrl harborUrl j = projectsUrl harborUrl k) : j = k := by
  have hdecimal : decimal j = decimal k := by
    simp only [projectsUrl, List.append_assoc, List.append_cancel_left_eq] at h
    exact List.append_cancel_right h
  have hparsed := parseU64_decimal hj
  rw [hdecimal, parseU64_decimal hk] at hparsed
  exact (Option.some.inj hparsed).symm

/-- A page in JSON, of names that need no escapes. -/
def renderPage (projects : List HarborProject) : Text :=
  let renderProject (p : HarborProject) : Text := "\x7b\"name\":\"".toList ++ p.name ++ "\"".toList ++
    (p.registryId.elim [] fun id => ",\"registry_id\":".toList ++ id) ++ "\x7d".toList
  "[".toList ++ ",".toList.intercalate (projects.map renderProject) ++ "]".toList

/-- A project of its own, one whose name is not safe, and 99 proxy caches. -/
def manyProjects : List HarborProject :=
  [⟨"team".toList, none⟩, ⟨"a/b".toList, some "2".toList⟩] ++ List.replicate 98 dockerhub ++
    [⟨"quay".toList, some "3".toList⟩]

def manyProjectsApi (url : Text) : PageReply :=
  .response 200 (some (if url = projectsUrl "http://harbor-core".toList 1 then renderPage (pageOf manyProjects 1)
    else if url = projectsUrl "http://harbor-core".toList 2 then renderPage (pageOf manyProjects 2)
    else renderPage []))

def unmarshalMany (body : Text) : Option (List HarborProject) :=
  [pageOf manyProjects 1, pageOf manyProjects 2, []].find? fun page => renderPage page = body

theorem manyProjectsApi_serves :
    Serves "http://harbor-core".toList unmarshalMany manyProjectsApi manyProjects := by
  have hurl : ∀ j k : Nat, j < UInt32.size → k < UInt32.size → j ≠ k →
      projectsUrl "http://harbor-core".toList j ≠ projectsUrl "http://harbor-core".toList k :=
    fun j k hj hk hne h => hne (projectsUrl_injective _ (hj.trans (by decide)) (hk.trans (by decide)) h)
  intro k hpos hk
  by_cases hfirst : k = 1
  · subst hfirst
    refine ⟨200, renderPage (pageOf manyProjects 1), ?_, by decide, by decide +kernel⟩
    rw [manyProjectsApi, if_pos rfl]
  by_cases hsecond : k = 2
  · subst hsecond
    refine ⟨200, renderPage (pageOf manyProjects 2), ?_, by decide, by decide +kernel⟩
    rw [manyProjectsApi, if_neg (hurl 2 1 hk (by decide) hfirst), if_pos rfl]
  · have hempty : pageOf manyProjects k = [] := by
      have hlength : manyProjects.length = 101 := rfl
      rw [pageOf, List.drop_of_length_le, List.take_nil]
      show _ ≤ (k - 1) * 100
      omega
    refine ⟨200, renderPage [], ?_, by decide, ?_⟩
    · rw [manyProjectsApi, if_neg (hurl k 1 hk (by decide) hfirst), if_neg (hurl k 2 hk (by decide) hsecond)]
    · rw [hempty]
      decide +kernel

/-! ## The whole list -/

/-- The last page is the first that is not full: after as many requests as there are full pages, and one more, the
refresh has the names of the projects of the list that are `Cached`, in order and with multiplicity. -/
theorem fetches_all (hapi : Serves harborUrl unmarshal api projects)
    (hlength : projects.length < pageSize * (2 ^ 32 - 1)) (hd : d.stage = .fetching 1 []) :
    (∀ k ≤ projects.length / pageSize, d.fetches harborUrl json unmarshal api entry k = some { d with
      stage := .fetching (k + 1)
        (((projects.take (k * pageSize)).filter fun p => Cached p).map HarborProject.name) }) ∧
    d.fetches harborUrl json unmarshal api entry (projects.length / pageSize + 1) = some { d with
      stage := .persisting ((projects.filter fun p => Cached p).map HarborProject.name) } := by
  have hsize : pageSize = 100 := rfl
  have hwidth : UInt32.size = 2 ^ 32 := rfl
  refine ⟨fun k hk => ?_, ?_⟩
  · rw [fetches_full hapi hlength hd hk, proxyCacheNames_eq]
  · have hlast : (pageOf projects (projects.length / pageSize + 1)).length < pageSize := by
      rw [length_pageOf, hsize]
      omega
    have hall : projects.take ((projects.length / pageSize + 1) * pageSize) = projects := by
      refine List.take_of_length_le ?_
      rw [hsize]
      omega
    have hfits : projects.length / pageSize + 1 < UInt32.size := by
      rw [hsize] at hlength ⊢
      omega
    rw [Discoverer.fetches, fetches_full hapi hlength hd (Nat.le_refl _), Option.bind_some, step_page hapi hfits rfl,
      if_pos hlast, hall, proxyCacheNames_eq projects]

end

theorem fetches_all_many :
    Discoverer.fetches "http://harbor-core".toList Json.strings unmarshalMany manyProjectsApi none 2
        ⟨[], false, .fetching 1 []⟩ =
      some ⟨[], false, .persisting (List.replicate 98 "dockerhub".toList ++ ["quay".toList])⟩ :=
  (fetches_all manyProjectsApi_serves (by decide) rfl).2

/-! ## One short page -/

theorem oneProjectApi_serves :
    Serves "http://harbor-core".toList unmarshalPages oneProjectApi [dockerhub] := by
  intro k hpos hk
  by_cases hfirst : k = 1
  · subst hfirst
    refine ⟨200, dockerhubPage, ?_, by decide, rfl⟩
    rw [oneProjectApi, if_pos rfl]
  · have hurl : projectsUrl "http://harbor-core".toList k ≠ projectsUrl "http://harbor-core".toList 1 := fun h =>
      hfirst (projectsUrl_injective _ (hk.trans (by decide)) (by decide) h)
    have hempty : pageOf [dockerhub] k = [] := by
      rw [pageOf, List.drop_of_length_le, List.take_nil]
      show 1 ≤ (k - 1) * 100
      omega
    refine ⟨200, "[]".toList, ?_, by decide, ?_⟩
    · rw [oneProjectApi, if_neg hurl]
    · rw [hempty]
      rfl

end HarborRouter.Discovery
