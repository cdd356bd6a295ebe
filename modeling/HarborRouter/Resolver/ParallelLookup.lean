import HarborRouter.CircuitBreaker
import HarborRouter.Resolver.ContentType
import HarborRouter.Resolver.Fetch

/-!
# The fan-out

`parallel_lookup`: the probes of all available projects, taken in the order in which they complete. A 200 whose
content type the client accepts wins at once; the first other 200 is kept as a fallback for a grace period; if
nothing answered 200 the last error is reported, and without an error the image is not found.

* `Fanout` : the inputs of one fan-out, well formed by construction;
* `parallelLookup_ok` : what is returned is one of the 200 answers it took;
* `cachedMiss_iff` : exactly which fan-outs end in an error that is cached as a miss;
* `parallelLookup_accepts` : an acceptable answer that is not later than any other wins.
-/

namespace HarborRouter
open Lib Text

/-! ## Probes -/

/-- How a probe ends: the client's reply, or the timeout of the probe. -/
inductive Answer
  | reply (r : Reply)
  | elapsed
  deriving DecidableEq

/-- The completion of the probe of one project, at a time in milliseconds. -/
structure Completion where
  project : Text
  answer : Answer
  time : Nat
  deriving DecidableEq

def timeoutProbing (project : Text) : Text := "timeout probing ".toList ++ project

def Completion.result (c : Completion) : Except Text ResolveResult :=
  match c.answer with
  | .reply r => fetchManifest c.project r
  | .elapsed => .error (timeoutProbing c.project)

def Completion.found (c : Completion) : Bool :=
  match c.result with
  | .ok r => r.status == 200
  | .error _ => false

def Completion.error (c : Completion) : Option Text :=
  match c.result with
  | .ok _ => none
  | .error e => some e

def accepts (accept : List Text) (r : ResolveResult) : Bool :=
  accept = [] || contentTypeMatches r.contentType accept

/-- The project answered 200 with a content type the client accepts. -/
def Completion.wins (accept : List Text) (c : Completion) : Bool :=
  match c.result with
  | .ok r => r.status == 200 && accepts accept r
  | .error _ => false

/-! ## What the circuit breaker records -/

inductive Recorded
  | success
  | failure
  | nothing
  deriving DecidableEq

def isClientErrorStatus (status : Nat) : Bool := 400 ≤ status && status < 500

def shouldRecordTransportFailure (msg : Text) : Bool :=
  !(contains "builder error".toList msg || contains "invalid URL".toList msg ||
    contains "relative URL without a base".toList msg)

def Completion.recorded (c : Completion) : Recorded :=
  match c.result with
  | .ok r => if r.status = 200 then .success else if isClientErrorStatus r.status then .nothing else .failure
  | .error e => if shouldRecordTransportFailure e then .failure else .nothing

def CircuitBreaker.record (b : CircuitBreaker) (now : Nat) (c : Completion) : CircuitBreaker :=
  match c.recorded with
  | .success => b.recordSuccess c.project
  | .failure => b.recordFailure now c.project
  | .nothing => b

/-! ## The fan-out -/

/-- The projects a fan-out may ask, and the breaker after asking it. -/
def candidates (maxFanout : Nat) (discovered : List Text) (breaker : CircuitBreaker) (now : Nat) :
    List Text × CircuitBreaker :=
  breaker.available now (if maxFanout < discovered.length then discovered.take maxFanout else discovered)

/-- What one fan-out finds: the discovered projects, the breaker's state and clock, and the completions of all
probes in order. -/
structure Fanout (maxFanout : Nat) where
  discovered : List Text
  breaker : CircuitBreaker
  now : Nat
  completions : List Completion
  safe : ∀ p ∈ discovered, isSafeProjectName p = true
  complete : (completions.map Completion.project).Perm (candidates maxFanout discovered breaker now).1
  sorted : completions.Pairwise fun a b => a.time ≤ b.time

def fallbackGrace : Nat := 200

def noProjects : Text := "no proxy-cache projects discovered".toList
def noneAvailable : Text := "no available proxy-cache projects (all circuits open)".toList
def allFailed (e : Text) : Text := "all projects failed, last error: ".toList ++ e
def notFoundPhrase : Text := "not found in any proxy-cache project".toList
def notFound (image reference : Text) : Text :=
  "image ".toList ++ image ++ ":".toList ++ reference ++ " ".toList ++ notFoundPhrase

/-- The loop's variables: `last_err`, and `fallback` with its `grace_deadline`. -/
structure Progress where
  lastErr : Option Text
  fallback : Option (ResolveResult × Nat)

def Progress.start : Progress := ⟨none, none⟩

def Progress.expired (p : Progress) (now : Nat) : Bool := p.fallback.any fun f => f.2 < now

def Progress.take (p : Progress) (c : Completion) : Progress :=
  match c.result with
  | .ok r =>
      if r.status = 200 then { p with fallback := p.fallback.or (some (r, c.time + fallbackGrace)) } else p
  | .error e => { p with lastErr := some e }

def Progress.finish (image reference : Text) (p : Progress) : Except Text ResolveResult :=
  match p.fallback with
  | some (r, _) => .ok r
  | none =>
      match p.lastErr with
      | some e => .error (allFailed e)
      | none => .error (notFound image reference)

def lookupLoop (image reference : Text) (accept : List Text) :
    Progress → List Completion → Except Text ResolveResult
  | p, [] => p.finish image reference
  | p, c :: cs =>
      if p.expired c.time then p.finish image reference
      else if c.wins accept then c.result
      else lookupLoop image reference accept (p.take c) cs

/-- The completions the loop takes before it returns. -/
def taken (accept : List Text) : Progress → List Completion → List Completion
  | _, [] => []
  | p, c :: cs =>
      if p.expired c.time then [] else if c.wins accept then [c] else c :: taken accept (p.take c) cs

namespace Fanout
variable {maxFanout : Nat} (f : Fanout maxFanout)

def probed : List Text := (candidates maxFanout f.discovered f.breaker f.now).1

def parallelLookup (image reference : Text) (accept : List Text) : Except Text ResolveResult :=
  if f.discovered = [] then .error noProjects
  else if f.probed = [] then .error noneAvailable
  else lookupLoop image reference accept .start f.completions

/-- The probes that ended before the lookup returned; the others are cancelled. -/
def ended (accept : List Text) : List Completion := taken accept .start f.completions

/-- The breaker after the lookup: the half-opened circuits, and what the ended probes recorded. -/
def breakerAfter (accept : List Text) : CircuitBreaker :=
  (f.ended accept).foldl (fun b c => b.record (c.time / 1000) c) (candidates maxFanout f.discovered f.breaker f.now).2

def lastError : Option Text := (f.completions.filterMap Completion.error).getLast?

end Fanout

/-- `is_all_projects_non_200`: the miss is recognised by the text of the error. -/
def isAllProjectsNon200 (msg : Text) : Bool := contains notFoundPhrase msg

/-- The result is an error that is cached as a miss. -/
def cachedMiss : Except Text ResolveResult → Bool
  | .ok _ => false
  | .error e => isAllProjectsNon200 e

/-! ## Single completions -/

namespace Completion
variable {c : Completion} {accept : List Text}

theorem found_iff : c.found = true ↔ ∃ r, c.result = .ok r ∧ r.status = 200 := by
  unfold found
  cases c.result with
  | ok r => simp
  | error e => simp

theorem wins_iff : c.wins accept = true ↔ ∃ r, c.result = .ok r ∧ r.status = 200 ∧ accepts accept r = true := by
  unfold wins
  cases c.result with
  | ok r => simp
  | error e => simp

theorem found_of_wins (h : c.wins accept = true) : c.found = true := by
  obtain ⟨r, hr, hs, -⟩ := wins_iff.mp h
  exact found_iff.mpr ⟨r, hr, hs⟩

theorem result_ok {r : ResolveResult} (h : c.result = .ok r) :
    r.project = c.project ∧ isSafeProjectName c.project = true := by
  unfold result at h
  split at h
  · exact fetchManifest_ok h
  · cases h

theorem answer_of_result_ok {r : ResolveResult} (h : c.result = .ok r) :
    c.answer = .reply (.response r.status r.headers r.body) := by
  unfold result at h
  split at h
  · rename_i reply hreply
    rw [hreply, reply_of_fetch_ok h]
  · cases h

end Completion

namespace Progress
variable {p : Progress} {c : Completion}

theorem take_of_not_found (h : c.found = false) : p.take c = { p with lastErr := c.error.or p.lastErr } := by
  unfold take
  cases hr : c.result with
  | ok r =>
      have hs : r.status ≠ 200 := fun hs => by
        rw [Completion.found_iff.mpr ⟨r, hr, hs⟩] at h
        cases h
      simp only [hs, if_false, Completion.error, hr, Option.none_or]
  | error e => simp only [Completion.error, hr, Option.some_or]

theorem take_of_found {r : ResolveResult} (hr : c.result = .ok r) (hs : r.status = 200) :
    p.take c = { p with fallback := p.fallback.or (some (r, c.time + fallbackGrace)) } := by
  simp only [take, hr, hs, if_true]

theorem not_expired_of_none (h : p.fallback = none) (now : Nat) : p.expired now = false := by
  rw [expired, h]; rfl

end Progress

/-! ## Lookups without a 200 -/

section NotFound
variable {image reference : Text} {accept : List Text} {p : Progress} {cs : List Completion}

theorem wins_of_not_found {c : Completion} (h : c.found = false) : c.wins accept = false := by
  by_contra hw
  rw [Completion.found_of_wins (by simpa using hw)] at h
  cases h

theorem lookupLoop_of_not_found (hp : p.fallback = none) (h : ∀ c ∈ cs, c.found = false) :
    lookupLoop image reference accept p cs =
      Progress.finish image reference ⟨(cs.filterMap Completion.error).getLast?.or p.lastErr, none⟩ := by
  induction cs generalizing p with
  | nil => rw [lookupLoop]; congr 1; cases p; cases hp; rfl
  | cons c cs ih =>
      have hc := h c List.mem_cons_self
      rw [lookupLoop, Progress.not_expired_of_none hp, wins_of_not_found hc, if_neg Bool.false_ne_true,
        if_neg Bool.false_ne_true, Progress.take_of_not_found hc,
        ih (p := ⟨c.error.or p.lastErr, p.fallback⟩) hp fun d hd => h d (List.mem_cons_of_mem c hd)]
      congr 2
      cases he : c.error with
      | none => simp [he]
      | some e =>
          rw [List.filterMap_cons, he, List.getLast?_cons]
          cases (cs.filterMap Completion.error).getLast? <;> rfl

theorem taken_of_not_found (hp : p.fallback = none) (h : ∀ c ∈ cs, c.found = false) : taken accept p cs = cs := by
  induction cs generalizing p with
  | nil => rfl
  | cons c cs ih =>
      have hc := h c List.mem_cons_self
      rw [taken, Progress.not_expired_of_none hp, wins_of_not_found hc, if_neg Bool.false_ne_true,
        if_neg Bool.false_ne_true, Progress.take_of_not_found hc,
        ih (p := ⟨c.error.or p.lastErr, p.fallback⟩) hp fun d hd => h d (List.mem_cons_of_mem c hd)]

end NotFound

/-! ## Lookups with a 200 -/

section Found
variable {image reference : Text} {accept : List Text} {p : Progress} {cs : List Completion}

/-- Once a fallback is there, or a 200 to come, the lookup succeeds. -/
theorem lookupLoop_of_found (h : p.fallback ≠ none ∨ ∃ c ∈ cs, c.found = true) :
    ∃ r, lookupLoop image reference accept p cs = .ok r := by
  have hfinish : ∀ q : Progress, q.fallback ≠ none → ∃ r, q.finish image reference = .ok r := fun q hq => by
    obtain ⟨f, hf⟩ := Option.ne_none_iff_exists'.mp hq
    exact ⟨f.1, by rw [Progress.finish, hf]⟩
  induction cs generalizing p with
  | nil => exact hfinish p (h.resolve_right fun ⟨_, hm, _⟩ => nomatch hm)
  | cons c cs ih =>
      rw [lookupLoop]
      split
      · rename_i hexp
        refine hfinish p fun hn => ?_
        rw [Progress.not_expired_of_none hn] at hexp
        cases hexp
      · split
        · rename_i hw
          obtain ⟨r, hr, -⟩ := Completion.wins_iff.mp hw
          exact ⟨r, hr⟩
        · refine ih ?_
          by_cases hc : c.found = true
          · obtain ⟨r, hr, hs⟩ := Completion.found_iff.mp hc
            rw [Progress.take_of_found hr hs]
            exact .inl (by simp)
          · rw [Progress.take_of_not_found (by simpa using hc)]
            refine h.imp_right fun ⟨d, hd, hdf⟩ => ⟨d, (List.mem_cons.mp hd).resolve_left ?_, hdf⟩
            rintro rfl
            exact hc hdf

/-- What is returned is a 200 that was taken, or the fallback. -/
theorem lookupLoop_ok {r : ResolveResult} (h : lookupLoop image reference accept p cs = .ok r) :
    (∃ c ∈ taken accept p cs, c.result = .ok r ∧ r.status = 200) ∨ ∃ d, p.fallback = some (r, d) := by
  have hfinish : ∀ q : Progress, q.finish image reference = .ok r → ∃ d, q.fallback = some (r, d) := fun q hq => by
    unfold Progress.finish at hq
    split at hq
    · cases hq; exact ⟨_, ‹_›⟩
    · split at hq <;> cases hq
  induction cs generalizing p with
  | nil => exact .inr (hfinish p h)
  | cons c cs ih =>
      rw [lookupLoop] at h
      rw [taken]
      split at h
      · exact .inr (hfinish p h)
      · rename_i hexp
        rw [if_neg hexp]
        split at h
        · rename_i hw
          rw [if_pos hw]
          obtain ⟨r', hr, hs, -⟩ := Completion.wins_iff.mp hw
          rw [hr] at h
          cases h
          exact .inl ⟨c, List.mem_singleton_self c, hr, hs⟩
        · rename_i hw
          rw [if_neg hw]
          rcases ih h with ⟨d, hd, hdr⟩ | ⟨d, hd⟩
          · exact .inl ⟨d, List.mem_cons_of_mem c hd, hdr⟩
          · by_cases hc : c.found = true
            · obtain ⟨r', hr, hs⟩ := Completion.found_iff.mp hc
              rw [Progress.take_of_found hr hs] at hd
              cases hf : p.fallback with
              | some f =>
                  rw [hf] at hd
                  exact .inr ⟨d, by simpa using hd⟩
              | none =>
                  rw [hf, Option.none_or] at hd
                  cases hd
                  exact .inl ⟨c, List.mem_cons_self, hr, hs⟩
            · rw [Progress.take_of_not_found (by simpa using hc)] at hd
              exact .inr ⟨d, hd⟩

/-- A winning completion that is not later than any other, and not past the grace period, makes the lookup return
an acceptable result. -/
theorem lookupLoop_accepts {c : Completion} (hc : c ∈ cs) (hw : c.wins accept = true)
    (hfirst : ∀ d ∈ cs, c.time ≤ d.time) (hsorted : cs.Pairwise fun a b => a.time ≤ b.time)
    (hgrace : ∀ f, p.fallback = some f → c.time ≤ f.2) :
    ∃ r, lookupLoop image reference accept p cs = .ok r ∧ r.status = 200 ∧ accepts accept r = true := by
  induction cs generalizing p with
  | nil => cases hc
  | cons d cs ih =>
      have htime : d.time = c.time := by
        have := hfirst d List.mem_cons_self
        rcases List.mem_cons.mp hc with rfl | hm
        · rfl
        · have := List.rel_of_pairwise_cons hsorted hm
          omega
      have hexp : p.expired d.time = false := by
        unfold Progress.expired
        cases hf : p.fallback with
        | none => rfl
        | some f =>
            have := hgrace f hf
            simp only [Option.any_some, decide_eq_false_iff_not]
            omega
      rw [lookupLoop, hexp, if_neg Bool.false_ne_true]
      by_cases hdw : d.wins accept = true
      · rw [if_pos hdw]
        exact Completion.wins_iff.mp hdw
      · rw [if_neg hdw]
        have hm : c ∈ cs := (List.mem_cons.mp hc).resolve_left fun he => hdw (he ▸ hw)
        refine ih hm (fun d' hd' => hfirst d' (List.mem_cons_of_mem d hd')) hsorted.of_cons fun f hf => ?_
        by_cases hdf : d.found = true
        · obtain ⟨r, hr, hs⟩ := Completion.found_iff.mp hdf
          rw [Progress.take_of_found hr hs] at hf
          cases hpf : p.fallback with
          | some g =>
              rw [hpf, Option.some_or] at hf
              cases hf
              exact hgrace f hpf
          | none =>
              rw [hpf, Option.none_or] at hf
              cases hf
              change c.time ≤ d.time + fallbackGrace
              omega
        · rw [Progress.take_of_not_found (by simpa using hdf)] at hf
          exact hgrace f hf

end Found

/-! ## Whole fan-outs -/

theorem isAllProjectsNon200_allFailed (e : Text) : isAllProjectsNon200 (allFailed e) = isAllProjectsNon200 e := by
  have hn : 'n' ∉ "all projects failed, last error: ".toList := by decide
  exact contains_append_of_notMem hn

theorem isAllProjectsNon200_notFound (image reference : Text) :
    isAllProjectsNon200 (notFound image reference) = true := by
  have h : ∀ a : Text, isAllProjectsNon200 (a ++ notFoundPhrase) = true := fun a =>
    contains_iff.mpr (List.suffix_append a notFoundPhrase).isInfix
  exact h _

namespace Fanout
variable {maxFanout : Nat} {f : Fanout maxFanout} {image reference : Text} {accept : List Text}

theorem mem_probed {p : Text} : p ∈ f.probed ↔ ∃ c ∈ f.completions, c.project = p := by
  rw [probed, ← f.complete.mem_iff, List.mem_map]

theorem length_probed_le (f : Fanout maxFanout) : f.probed.length ≤ maxFanout := by
  unfold probed candidates
  rw [CircuitBreaker.available_eq_filter]
  refine (List.length_filter_le _ _).trans ?_
  split
  · exact List.length_take_le _ _
  · omega

/-- Projects with an open circuit are left out. -/
theorem notMem_probed {p : Text} (h : f.breaker.Shut f.now p) : p ∉ f.probed := by
  intro hp
  unfold probed candidates at hp
  rw [CircuitBreaker.available_eq_filter, List.mem_filter, CircuitBreaker.isAvailable_eq_false_iff.mpr h] at hp
  exact Bool.false_ne_true hp.2

theorem discovered_ne_nil (h : f.probed ≠ []) : f.discovered ≠ [] := by
  intro hd
  apply h
  rw [probed, candidates, hd, List.take_nil, ite_self]
  rfl

/-- Some project is asked, none answers 200, and no error is left that is told apart from a miss. -/
structure Misses (f : Fanout maxFanout) : Prop where
  asked : f.probed ≠ []
  none_found : ∀ c ∈ f.completions, c.found = false
  last_error : ∀ e, f.lastError = some e → isAllProjectsNon200 e = true

theorem parallelLookup_eq (h : f.probed ≠ []) : f.parallelLookup image reference accept =
    lookupLoop image reference accept .start f.completions := by
  rw [parallelLookup, if_neg (discovered_ne_nil h), if_neg h]

theorem parallelLookup_not_found (h : f.probed ≠ []) (hnone : ∀ c ∈ f.completions, c.found = false) :
    f.parallelLookup image reference accept =
      .error (match f.lastError with | some e => allFailed e | none => notFound image reference) := by
  rw [parallelLookup_eq h, lookupLoop_of_not_found rfl hnone, lastError]
  cases (f.completions.filterMap Completion.error).getLast? <;> rfl

/-- Which fan-outs end in a cached miss. -/
theorem cachedMiss_iff : cachedMiss (f.parallelLookup image reference accept) = true ↔ f.Misses := by
  by_cases hasked : f.probed = []
  · refine ⟨fun h => ?_, fun h => absurd hasked h.asked⟩
    rw [parallelLookup, if_pos hasked] at h
    split at h
    · exact absurd h (by decide)
    · exact absurd h (by decide)
  by_cases hnone : ∀ c ∈ f.completions, c.found = false
  · rw [parallelLookup_not_found hasked hnone]
    constructor
    · refine fun h => ⟨hasked, hnone, fun e he => ?_⟩
      rw [he] at h
      rwa [← isAllProjectsNon200_allFailed]
    · intro h
      cases he : f.lastError with
      | some e => exact (isAllProjectsNon200_allFailed e).trans (h.last_error e he)
      | none => exact isAllProjectsNon200_notFound image reference
  · refine ⟨fun h => ?_, fun h => absurd h.none_found hnone⟩
    have hfound : ∃ c ∈ f.completions, c.found = true := by
      simpa only [not_forall, Bool.not_eq_false, exists_prop] using hnone
    obtain ⟨r, hr⟩ := @lookupLoop_of_found image reference accept .start _ (.inr hfound)
    rw [parallelLookup_eq hasked, hr] at h
    cases h

theorem parallelLookup_ok {r : ResolveResult} (h : f.parallelLookup image reference accept = .ok r) :
    ∃ c ∈ f.ended accept, c.result = .ok r ∧ r.status = 200 ∧ r.project = c.project ∧
      isSafeProjectName r.project = true := by
  have hasked : f.probed ≠ [] := fun hp => by
    rw [parallelLookup, if_pos hp] at h
    split at h <;> cases h
  rw [parallelLookup_eq hasked] at h
  rcases lookupLoop_ok h with ⟨c, hc, hr, hs⟩ | ⟨d, hd⟩
  · obtain ⟨hp, hsafe⟩ := Completion.result_ok hr
    exact ⟨c, hc, hr, hs, hp, hp ▸ hsafe⟩
  · cases hd

/-- A lookup succeeds exactly when some probe is answered 200, in whatever order the probes complete. -/
theorem parallelLookup_ok_iff : (∃ r, f.parallelLookup image reference accept = .ok r) ↔
    ∃ c ∈ f.completions, c.found = true := by
  constructor
  · rintro ⟨r, h⟩
    by_contra hnone
    have hnone : ∀ c ∈ f.completions, c.found = false := by
      simpa only [not_exists, not_and, Bool.not_eq_true] using hnone
    by_cases hasked : f.probed = []
    · rw [parallelLookup, if_pos hasked] at h
      split at h <;> cases h
    · rw [parallelLookup_not_found hasked hnone] at h
      cases h
  · rintro ⟨c, hc, hfound⟩
    rw [parallelLookup_eq (List.ne_nil_of_mem (mem_probed.mpr ⟨c, hc, rfl⟩))]
    exact lookupLoop_of_found (.inr ⟨c, hc, hfound⟩)

theorem ended_subset : f.ended accept ⊆ f.completions := by
  suffices h : ∀ cs p, taken accept p cs ⊆ cs from h _ _
  intro cs
  induction cs with
  | nil => exact fun _ => List.Subset.refl _
  | cons c cs ih =>
      intro p
      rw [taken]
      split
      · exact List.nil_subset _
      · split
        · exact List.cons_subset_cons c (List.nil_subset cs)
        · exact List.cons_subset_cons c (ih _)

/-- In a lookup without a 200 every probe ends. -/
theorem ended_of_not_found (h : ∀ c ∈ f.completions, c.found = false) : f.ended accept = f.completions :=
  taken_of_not_found rfl h

/-- An acceptable answer that is not later than any other makes the lookup return an acceptable one. -/
theorem parallelLookup_accepts {c : Completion} (hc : c ∈ f.completions) (hw : c.wins accept = true)
    (hfirst : ∀ d ∈ f.completions, c.time ≤ d.time) :
    ∃ r, f.parallelLookup image reference accept = .ok r ∧ r.status = 200 ∧ accepts accept r = true := by
  have hasked : f.probed ≠ [] := List.ne_nil_of_mem (mem_probed.mpr ⟨c, hc, rfl⟩)
  rw [parallelLookup_eq hasked]
  exact lookupLoop_accepts hc hw hfirst f.sorted nofun

end Fanout
end HarborRouter
