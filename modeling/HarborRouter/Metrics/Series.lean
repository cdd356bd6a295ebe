import HarborRouter.Lib.Machine
import HarborRouter.Proxy.Logging
import Mathlib.Data.Finset.Prod
import Mathlib.Data.Set.Finite.Basic

/-!
# The series of the request counters

A label tuple is created when it is first used, and stays. Requests create those of the middleware, whatever they are
answered, and the manifests and blobs that are delivered those of `image_requests_total`.

* `touched_mem` : which series one request can create;
* `series_bounded_iff` : their number is bounded exactly when the methods are.
-/

namespace HarborRouter
open Lib Text

def isTokenChar (c : Char) : Bool := c.isAlphanum || "!#$%&'*+-.^_`|~".toList.contains c

/-- A request method; extension methods are any tokens. -/
@[ext] structure Method where
  token : Text
  token_ne : token ≠ []
  token_chars : token.all isTokenChar = true

namespace Series

/-- What makes the process use a label tuple. -/
inductive Event
  | request (method : Method) (path : Text) (response : Response)
  | recordManifestRequest (image reference : Text)
  | recordBlobRequest (image : Text)

def touched : Event → Except Panic (List Series)
  | .request method path response => (loggingMiddleware method.token path response).map Logged.series
  | .recordManifestRequest _ _ => .ok [.imageRequestsTotal "manifest".toList]
  | .recordBlobRequest _ => .ok [.imageRequestsTotal "blob".toList]

/-- The series that exist; a panic aborts the process. -/
def machine : Machine (Finset Series) Event where
  init := ∅
  step s e := match touched e with
    | .ok series => some (s ∪ series.toFinset)
    | .error _ => none

def Event.MethodIn (methods : Set Method) : Event → Prop
  | .request method _ _ => method ∈ methods
  | _ => True

/-! ## Labels -/

def reqTypes : Finset Text :=
  {"tags".toList, "manifest".toList, "blob".toList, "v2check".toList, "health".toList, "other".toList}

def statusClasses : Finset Text := {"2xx".toList, "3xx".toList, "4xx".toList, "5xx".toList}

theorem reqType_mem (path : Text) : reqType path ∈ reqTypes := by
  unfold reqType
  repeat' split
  all_goals decide

theorem statusClass_mem (status : Nat) : statusClass status ∈ statusClasses := by
  unfold statusClass
  repeat' split
  all_goals decide

def seriesOf (tokens : Finset Text) : Finset Series :=
  ((tokens ×ˢ reqTypes ×ˢ statusClasses).image fun l => .requestsTotal l.1 l.2.1 l.2.2) ∪
    ((tokens ×ˢ reqTypes ×ˢ statusClasses).image fun l => .requestDuration l.1 l.2.1 l.2.2) ∪
    reqTypes.image .responseBytesTotal ∪ {.imageRequestsTotal "manifest".toList, .imageRequestsTotal "blob".toList}

variable {methods : Set Method} {tokens : Finset Text}

/-- What one event touches: every label but the method is one of a few. -/
theorem touched_mem (htokens : ∀ m ∈ methods, m.token ∈ tokens) {e : Event} (he : e.MethodIn methods)
    {series : List Series} (h : touched e = .ok series) : ∀ x ∈ series, x ∈ seriesOf tokens := by
  cases e with
  | request method path response =>
      obtain ⟨logged, hlogged, rfl⟩ := map_ok_iff.mp h
      obtain ⟨field, -, hlogged⟩ := bind_ok_iff.mp hlogged
      cases hlogged
      have hlabels : (method.token, reqType field, statusClass response.status) ∈
          tokens ×ˢ reqTypes ×ˢ statusClasses :=
        Finset.mk_mem_product (htokens method he) (Finset.mk_mem_product (reqType_mem _) (statusClass_mem _))
      intro x hx
      rw [seriesOf, Finset.mem_union, Finset.mem_union, Finset.mem_union]
      rcases List.mem_append.mp hx with hx | hx
      · rcases List.mem_pair.mp hx with rfl | rfl
        · exact .inl (.inl (.inl (Finset.mem_image.mpr ⟨_, hlabels, rfl⟩)))
        · exact .inl (.inl (.inr (Finset.mem_image.mpr ⟨_, hlabels, rfl⟩)))
      · split at hx
        · obtain rfl := List.mem_singleton.mp hx
          exact .inl (.inr (Finset.mem_image_of_mem _ (reqType_mem _)))
        · cases hx
  | recordManifestRequest image reference =>
      cases h
      intro x hx
      obtain rfl := List.mem_singleton.mp hx
      exact Finset.mem_union_right _ (Finset.mem_insert_self _ _)
  | recordBlobRequest image =>
      cases h
      intro x hx
      obtain rfl := List.mem_singleton.mp hx
      exact Finset.mem_union_right _ (Finset.mem_insert_of_mem (Finset.mem_singleton_self _))

theorem step_subset (htokens : ∀ m ∈ methods, m.token ∈ tokens) {s t : Finset Series} {e : Event}
    (he : e.MethodIn methods) (hs : s ⊆ seriesOf tokens) (h : machine.step s e = some t) : t ⊆ seriesOf tokens := by
  change (match touched e with | .ok series => some (s ∪ series.toFinset) | .error _ => none) = some t at h
  cases htouched : touched e with
  | error p =>
      rw [htouched] at h
      cases h
  | ok series =>
      rw [htouched] at h
      cases h
      exact Finset.union_subset hs fun x hx => touched_mem htokens he htouched x (List.mem_toFinset.mp hx)

theorem run_subset (htokens : ∀ m ∈ methods, m.token ∈ tokens) {ls : List Event} {s : Finset Series}
    (hls : ∀ e ∈ ls, e.MethodIn methods) (h : machine.run ∅ ls = some s) : s ⊆ seriesOf tokens :=
  Machine.run_rule_on (D := Event.MethodIn methods) (I := (· ⊆ seriesOf tokens))
    (fun _ _ _ he hs hstep => step_subset htokens he hs hstep) hls (Finset.empty_subset _) h

/-! ## Methods without bound -/

/-- A request that the router refuses with 405. -/
def refused (method : Method) : Event :=
  .request method "/v2/".toList ⟨405, [("allow".toList, "GET,HEAD".toList)], .stream []⟩

def refusedSeries (method : Method) : Series := .requestsTotal method.token "v2check".toList "4xx".toList

theorem touched_refused (method : Method) :
    ∃ series, touched (refused method) = .ok (refusedSeries method :: series) := by
  have hpath : sanitizeLogField "/v2/".toList = .ok "/v2/".toList := by decide
  rw [refused, touched, loggingMiddleware, hpath]
  exact ⟨_, rfl⟩

/-- Requests that are refused leave a series for each method. -/
theorem run_refused (ms : List Method) (s : Finset Series) :
    ∃ t, machine.run s (ms.map refused) = some t ∧ s ⊆ t ∧ ∀ m ∈ ms, refusedSeries m ∈ t := by
  induction ms generalizing s with
  | nil => exact ⟨s, rfl, Finset.Subset.refl s, nofun⟩
  | cons m ms ih =>
      obtain ⟨series, hseries⟩ := touched_refused m
      have hstep : machine.step s (refused m) = some (s ∪ (refusedSeries m :: series).toFinset) := by
        change (match touched (refused m) with | .ok l => some (s ∪ l.toFinset) | .error _ => none) = _
        rw [hseries]
      obtain ⟨t, hrun, hsub, hmem⟩ := ih (s ∪ (refusedSeries m :: series).toFinset)
      refine ⟨t, (machine.run_cons_some hstep _).trans hrun, Finset.subset_union_left.trans hsub, ?_⟩
      intro m' hm'
      rcases List.mem_cons.mp hm' with rfl | hm'
      · exact hsub (Finset.mem_union_right _ (List.mem_toFinset.mpr List.mem_cons_self))
      · exact hmem m' hm'

theorem exists_run_card (hmethods : methods.Infinite) (n : Nat) : ∃ ls : List Event,
    (∀ e ∈ ls, e.MethodIn methods) ∧ ∃ s, machine.run ∅ ls = some s ∧ n < s.card := by
  obtain ⟨ms, hms, hcard⟩ := hmethods.exists_subset_card_eq (n + 1)
  obtain ⟨s, hrun, -, hmem⟩ := run_refused ms.toList ∅
  refine ⟨ms.toList.map refused, fun e he => ?_, s, hrun, ?_⟩
  · obtain ⟨m, hm, rfl⟩ := List.mem_map.mp he
    exact hms (Finset.mem_toList.mp hm)
  · have hinjective : Function.Injective refusedSeries := fun a b h => Method.ext (Series.requestsTotal.inj h).1
    have himage : ms.map ⟨refusedSeries, hinjective⟩ ⊆ s := by
      intro x hx
      obtain ⟨m, hm, rfl⟩ := Finset.mem_map.mp hx
      exact hmem m (Finset.mem_toList.mpr hm)
    have hle := Finset.card_le_card himage
    rw [Finset.card_map, hcard] at hle
    exact hle

/-- The number of series is bounded along all runs exactly when the methods are finitely many. -/
theorem series_bounded_iff (methods : Set Method) :
    (∃ n, ∀ ls : List Event, (∀ e ∈ ls, e.MethodIn methods) → ∀ s, machine.run ∅ ls = some s → s.card ≤ n) ↔
      methods.Finite := by
  constructor
  · rintro ⟨n, hn⟩
    by_contra hinfinite
    obtain ⟨ls, hls, s, hrun, hcard⟩ := exists_run_card hinfinite n
    exact absurd (hn ls hls s hrun) (Nat.not_le.mpr hcard)
  · intro hfinite
    refine ⟨(seriesOf (hfinite.toFinset.image Method.token)).card, fun ls hls s hrun => ?_⟩
    refine Finset.card_le_card (run_subset (fun m hm => ?_) hls hrun)
    exact Finset.mem_image_of_mem _ (hfinite.mem_toFinset.mpr hm)

/-- The method `AAA…`. -/
def extension (n : Nat) : Method := ⟨List.replicate (n + 1) 'A', by simp, by simp; decide⟩

theorem series_unbounded :
    ¬ ∃ n, ∀ (ls : List Event) (s : Finset Series), machine.run ∅ ls = some s → s.card ≤ n := by
  rintro ⟨n, hn⟩
  have hinjective : Function.Injective extension := fun a b h => by
    have hlength := congrArg (fun m : Method => m.token.length) h
    simpa [extension] using hlength
  have hinfinite : (Set.univ : Set Method).Infinite :=
    Set.infinite_univ_iff.mpr (Infinite.of_injective extension hinjective)
  obtain ⟨ls, -, s, hrun, hcard⟩ := exists_run_card hinfinite n
  exact absurd (hn ls s hrun) (Nat.not_le.mpr hcard)

end Series
end HarborRouter
