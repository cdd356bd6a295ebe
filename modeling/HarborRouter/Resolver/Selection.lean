import HarborRouter.Resolver.ParallelLookup
import HarborRouter.Resolver.Manifest

/-!
# Which answer a fan-out selects

The loop of `parallel_lookup` over every order and timing of the completions: it waits for a 200 that the client
accepts, and once another 200 is there, no longer than the grace period after it.

* `lookupLoop_fallback` : with a fallback, until its deadline;
* `lookupLoop_selects` : from the start;
* `parallelLookup_selects` : the answer of a fan-out.
-/

namespace HarborRouter
open Lib Text

/-- A 200 with a content type the client does not accept. -/
def Completion.mismatched (accept : List Text) (c : Completion) : Bool := c.found && !c.wins accept

/-- The completion comes before every mismatched 200, or at most 200 ms after the first of them; completions are in
order of time. -/
def InTime (accept : List Text) (cs : List Completion) (w : Completion) : Prop :=
  ∀ m, cs.find? (Completion.mismatched accept) = some m → w.time ≤ m.time + 200

section
variable {image reference : Text} {accept : List Text} {p : Progress} {cs : List Completion} {c w : Completion}

theorem Progress.take_fallback {x : ResolveResult × Nat} (h : p.fallback = some x) (c : Completion) :
    (p.take c).fallback = some x := by
  by_cases hc : c.found = true
  · obtain ⟨r, hr, hs⟩ := Completion.found_iff.mp hc
    rw [take_of_found hr hs, h]
    rfl
  · rw [take_of_not_found (by simpa using hc)]
    exact h

theorem Progress.expired_some {x : ResolveResult × Nat} (h : p.fallback = some x) (now : Nat) :
    p.expired now = decide (x.2 < now) := by
  rw [expired, h]
  rfl

theorem Progress.finish_some {x : ResolveResult × Nat} (h : p.fallback = some x) :
    p.finish image reference = .ok x.1 := by
  rw [finish, h]

/-- With a fallback, the first acceptable 200 is selected up to the deadline, and the fallback after it. -/
theorem lookupLoop_fallback {r : ResolveResult} {deadline : Nat} (hp : p.fallback = some (r, deadline))
    (hsorted : cs.Pairwise fun a b => a.time ≤ b.time) :
    (∀ w, cs.find? (Completion.wins accept) = some w → w.time ≤ deadline →
      lookupLoop image reference accept p cs = w.result) ∧
    ((∀ w, cs.find? (Completion.wins accept) = some w → deadline < w.time) →
      lookupLoop image reference accept p cs = .ok r) := by
  induction cs generalizing p with
  | nil => exact ⟨nofun, fun _ => Progress.finish_some hp⟩
  | cons c cs ih =>
      rw [lookupLoop, Progress.expired_some hp]
      by_cases hlate : deadline < c.time
      · rw [if_pos (decide_eq_true hlate)]
        refine ⟨fun w hw htime => ?_, fun _ => Progress.finish_some hp⟩
        have hafter : c.time ≤ w.time := by
          rcases List.mem_cons.mp (List.mem_of_find?_eq_some hw) with rfl | hmem
          · exact Nat.le_refl _
          · exact List.rel_of_pairwise_cons hsorted hmem
        omega
      · rw [if_neg (by rwa [decide_eq_true_iff])]
        cases hwins : c.wins accept with
        | true =>
            rw [List.find?_cons_of_pos hwins, if_pos rfl]
            refine ⟨fun w hw _ => by cases hw; rfl, fun h => absurd (h c rfl) hlate⟩
        | false =>
            rw [List.find?_cons_of_neg (Bool.eq_false_iff.mp hwins), if_neg Bool.false_ne_true]
            exact ih (Progress.take_fallback hp c) hsorted.of_cons

theorem lookupLoop_selects (hp : p.fallback = none) (hsorted : cs.Pairwise fun a b => a.time ≤ b.time) :
    (∀ w, cs.find? (Completion.wins accept) = some w → InTime accept cs w →
      lookupLoop image reference accept p cs = w.result) ∧
    ∀ c, cs.find? Completion.found = some c →
      (∀ w, cs.find? (Completion.wins accept) = some w → ¬ InTime accept cs w) →
      lookupLoop image reference accept p cs = c.result := by
  induction cs generalizing p with
  | nil => exact ⟨nofun, nofun⟩
  | cons c cs ih =>
      rw [lookupLoop, Progress.not_expired_of_none hp, if_neg Bool.false_ne_true]
      cases hwins : c.wins accept with
      | true =>
          have hfound := Completion.found_of_wins hwins
          rw [List.find?_cons_of_pos hwins, List.find?_cons_of_pos hfound, if_pos rfl]
          refine ⟨fun w hw _ => by cases hw; rfl, fun d hd _ => by cases hd; rfl⟩
      | false =>
          rw [List.find?_cons_of_neg (Bool.eq_false_iff.mp hwins), if_neg Bool.false_ne_true]
          cases hfound : c.found with
          | true =>
              obtain ⟨r, hr, hs⟩ := Completion.found_iff.mp hfound
              have hmismatched : c.mismatched accept = true := by
                rw [Completion.mismatched, hfound, hwins]
                rfl
              have htime : ∀ w, InTime accept (c :: cs) w ↔ w.time ≤ c.time + fallbackGrace := by
                intro w
                rw [InTime, List.find?_cons_of_pos hmismatched]
                exact ⟨fun h => h c rfl, fun h m hm => by cases hm; exact h⟩
              have hfallback : (p.take c).fallback = some (r, c.time + fallbackGrace) := by
                rw [Progress.take_of_found hr hs, hp]
                rfl
              obtain ⟨hpos, hneg⟩ := @lookupLoop_fallback image reference accept _ cs r _ hfallback hsorted.of_cons
              rw [List.find?_cons_of_pos hfound]
              refine ⟨fun w hw hin => hpos w hw ((htime w).mp hin), fun d hd hout => ?_⟩
              cases hd
              rw [hr]
              exact hneg fun w hw => Nat.lt_of_not_le fun hle => hout w hw ((htime w).mpr hle)
          | false =>
              have hmismatched : c.mismatched accept = false := by
                rw [Completion.mismatched, hfound]
                rfl
              have hskip : ∀ w, InTime accept (c :: cs) w ↔ InTime accept cs w := by
                intro w
                rw [InTime, List.find?_cons_of_neg (Bool.eq_false_iff.mp hmismatched)]
                rfl
              have htake : (p.take c).fallback = none := by
                rw [Progress.take_of_not_found hfound]
                exact hp
              obtain ⟨hpos, hneg⟩ := ih htake hsorted.of_cons
              rw [List.find?_cons_of_neg (Bool.eq_false_iff.mp hfound)]
              exact ⟨fun w hw hin => hpos w hw ((hskip w).mp hin),
                fun d hd hout => hneg d hd fun w hw hin => hout w hw ((hskip w).mpr hin)⟩

end

/-- A fan-out succeeds exactly when some probe completed with 200. It returns the first acceptable 200 if that one is
in time, and otherwise the first 200. -/
theorem Fanout.parallelLookup_selects {maxFanout : Nat} (f : Fanout maxFanout) (image reference : Text)
    (accept : List Text) (hprobed : f.probed ≠ []) :
    ((∃ r, f.parallelLookup image reference accept = .ok r) ↔ ∃ c ∈ f.completions, c.found = true) ∧
      (∀ w, f.completions.find? (Completion.wins accept) = some w → InTime accept f.completions w →
        f.parallelLookup image reference accept = w.result) ∧
      ∀ c, f.completions.find? Completion.found = some c →
        (∀ w, f.completions.find? (Completion.wins accept) = some w → ¬ InTime accept f.completions w) →
        f.parallelLookup image reference accept = c.result := by
  have hsucceeds : (∃ r, f.parallelLookup image reference accept = .ok r) ↔ ∃ c ∈ f.completions, c.found = true := by
    constructor
    · rintro ⟨r, hr⟩
      by_contra hnone
      have hall : ∀ c ∈ f.completions, c.found = false := fun c hc => by
        by_contra hfound
        exact hnone ⟨c, hc, by simpa using hfound⟩
      rw [parallelLookup_not_found hprobed hall] at hr
      cases hr
    · intro hfound
      rw [parallelLookup_eq hprobed]
      exact lookupLoop_of_found (.inr hfound)
  rw [parallelLookup_eq hprobed] at hsucceeds ⊢
  exact ⟨hsucceeds, lookupLoop_selects rfl f.sorted⟩

/-- A page from `a`, and 150 ms later a manifest from `b`. -/
def pageFirst : Fanout 50 where
  discovered := ["a".toList, "b".toList]
  breaker := CircuitBreaker.new 5 30
  now := 100
  completions :=
    [⟨"a".toList, .reply (.response 200 [("content-type".toList, "text/html".toList)] []), 0⟩,
      ⟨"b".toList, .reply (.response 200 [("content-type".toList, "application/json".toList)] []), 150⟩]
  safe := Manifest.twoProjects_safe
  complete := .refl _
  sorted := by decide

theorem pageFirst_selects : pageFirst.parallelLookup "x".toList "latest".toList ["application/json".toList] =
    .ok ⟨"b".toList, 200, [("content-type".toList, "application/json".toList)], []⟩ :=
  (pageFirst.parallelLookup_selects "x".toList "latest".toList ["application/json".toList] (by decide)).2.1 _ rfl
    fun m hm => by
      cases hm
      decide

end HarborRouter
