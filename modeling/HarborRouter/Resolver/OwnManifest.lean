import HarborRouter.Resolver.OneCall
import HarborRouter.Resolver.Provenance

/-!
# Whose manifest a call is answered with

A flight is named by the key of its leader's call, and hands its outcome to every call with that key.

* `run_follower` : of two calls with one key, one can be answered with what the other has looked up;
* `own_manifest_iff` : so calls are given their own manifests exactly when no two of their images overlap.
-/

namespace HarborRouter.Manifest
open Lib CacheLookup

variable {cfg : Config}

theorem safe_one : ∀ p ∈ ["a".toList], isSafeProjectName p = true := by decide

theorem candidates_one_of_pos {maxFanout : Nat} (h : 0 < maxFanout) :
    (candidates maxFanout ["a".toList] (.new 1 30) 0).1 = ["a".toList] := by
  rw [candidates, if_neg (show ¬ maxFanout < ["a".toList].length from Nat.not_lt.mpr h),
    CircuitBreaker.available_eq_filter]
  rfl

theorem perm_one {maxFanout : Nat} (h : 0 < maxFanout) :
    ["a".toList].Perm (candidates maxFanout ["a".toList] (.new 1 30) 0).1 :=
  .of_eq (candidates_one_of_pos h).symm

def foundAtOnce : List Completion := [⟨"a".toList, .reply (.response 200 [] []), 0⟩]

theorem sorted_foundAtOnce : foundAtOnce.Pairwise fun a b => a.time ≤ b.time := List.pairwise_singleton ..

def oneFound (h : 0 < cfg.maxFanout) : Fanout cfg.maxFanout where
  discovered := ["a".toList]
  breaker := .new 1 30
  now := 0
  completions := foundAtOnce
  safe := safe_one
  complete := perm_one h
  sorted := sorted_foundAtOnce

/-- Two calls begin, and the first leads a flight. -/
def leadingPair (c c' : Call) : List (Label cfg) := [.call 0 c, .get 0 0, .call 1 c', .get 1 0, .enter 0]

/-- The second joins it and waits; the first looks up and sends. -/
def followingPair (f : Fanout cfg.maxFanout) : List (Label cfg) :=
  [.fly 1 .subscribe, .fly 1 .borrow, .looked 0 f, .fly 0 .send, .fly 1 .wake, .fly 1 .read, .land 1]

/-- A follower comes home with what its leader has looked up. -/
theorem run_follower {c c' : Call} (hkey : c'.key = c.key) (f : Fanout cfg.maxFanout) :
    ∃ t l, (machine cfg).run init (leadingPair c c' ++ .enter 1 :: followingPair f) = some t ∧
      t.stage 1 = afterFlight c' (.received l) ∧ l.call = c ∧ l.fanout = f := by
  let s : State cfg := ((machine cfg).run init (leadingPair c c')).get rfl
  have hs : (machine cfg).run init (leadingPair c c') = some s := rfl
  have hflight : s.flight.flights c'.key = some 0 := by
    rw [hkey]
    exact Function.update_self ..
  have hjoin : Singleflight.step s.flight ⟨1, .enter c'.key⟩ = some (s.flight.join 1 c'.key 0) := by
    have hphase : s.flight.phase 1 = .outside := rfl
    simp only [Singleflight.step, hphase, hflight]
  have henter : (machine cfg).step s (.enter 1) = some (s.setFlight (s.flight.join 1 c'.key 0)).advance :=
    step_enter (i := 1) (c := c') rfl hjoin
  let t : State cfg :=
    ((machine cfg).run (s.setFlight (s.flight.join 1 c'.key 0)).advance (followingPair f)).get rfl
  have ht : (machine cfg).run (s.setFlight (s.flight.join 1 c'.key 0)).advance (followingPair f) = some t := rfl
  refine ⟨t, ⟨c, f, 8⟩, ?_, rfl, rfl, rfl⟩
  rw [Machine.run_append, hs, Option.bind_some, Machine.run_cons_some _ henter, ht]

theorem run_settled {s : State cfg} {i : CallId} {c : Call} {l : Lookup cfg} {r : ResolveResult}
    (hi : s.stage i = afterFlight c (.received l)) (hr : l.result = .ok r) :
    ∃ t, (machine cfg).run s [.store i 0, .storeImage i] = some t ∧
      t.stage i = .answered c (.flight (.received l)) := by
  simp only [afterFlight, hr] at hi
  let u : State cfg := ((s.update c.key (some (entryOf cfg 0 l.result)) l.observed).setStage i
    (.storingImage c l)).advance
  let t : State cfg := ((u.setEntry (imageKey c.image) (some ⟨r.project, none⟩)).setStage i
    (.answered c (.flight (.received l)))).advance
  have hu : u.stage i = .storingImage c l := Function.update_self ..
  have hstore : (machine cfg).step s (.store i 0) = some u := by
    simp only [machine, step, move, hi, hr, Option.map_some, u]
  have himage : (machine cfg).step u (.storeImage i) = some t := by
    simp only [machine, step, move, hu, hr, Option.map_some, t]
  refine ⟨t, ?_, Function.update_self ..⟩
  rw [Machine.run_cons_some _ hstore, Machine.run_cons_some _ himage]
  rfl

theorem admits_pair {D : Call → Prop} {c c' : Call} (hc : D c) (hc' : D c') (f : Fanout cfg.maxFanout) :
    ∀ l ∈ leadingPair c c' ++ .enter 1 :: followingPair f ++ [.store 1 0, .storeImage 1], Admits D l := by
  simp [leadingPair, followingPair, Admits, hc, hc']

/-- Calls are given their own manifests by the flights they are in, in every interleaving of accepted calls, exactly
when no two of these calls overlap. -/
theorem own_manifest_iff (cfg : Config) (hfanout : 0 < cfg.maxFanout) (D : Call → Prop)
    (haccepted : ∀ c, D c → Accepted (.manifest c.image c.reference)) :
    (∀ ls s, (∀ l ∈ ls, Admits D l) → (machine cfg).run init ls = some s → ∀ i c l r,
      s.stage i = .answered c (.flight (.received l)) → l.result = .ok r →
        l.call.image = c.image ∧ l.call.reference = c.reference) ↔
      ∀ a b, D a → D b → ¬ Overlaps (.manifest a.image a.reference) (.manifest b.image b.reference) := by
  constructor
  · intro h a b ha hb hoverlaps
    have hkey : b.key = a.key := by
      rcases hoverlaps with hextends | hextends
      · exact hextends.key_eq.symm
      · exact hextends.key_eq
    obtain ⟨t, l, ht, hstage, rfl, hf⟩ := run_follower hkey (oneFound hfanout)
    obtain ⟨r, hr⟩ : ∃ r, l.result = .ok r := by
      rw [Lookup.result, hf]
      exact Fanout.parallelLookup_ok_iff.mpr ⟨_, List.mem_singleton_self _, rfl⟩
    obtain ⟨u, hu, hanswered⟩ := run_settled hstage hr
    have hrun : (machine cfg).run init (leadingPair l.call b ++ .enter 1 :: followingPair (oneFound hfanout) ++
        [.store 1 0, .storeImage 1]) = some u := by
      rw [Machine.run_append, ht]
      exact hu
    obtain ⟨himage, hreference⟩ := h _ u (admits_pair ha hb _) hrun 1 b l r hanswered hr
    rw [himage, hreference] at hoverlaps
    exact hoverlaps.elim (fun h => h.ne rfl) fun h => h.ne rfl
  · intro hno ls s hls hrun i c l r hi _
    obtain ⟨-, htraced⟩ := Machine.run_rule_on (I := fun s : State cfg => Staged s ∧ Traced D s)
      (fun u m v hm hu hv => ⟨staged_step hu.1 hv, traced_step hm hu.1 hu.2 hv⟩) hls ⟨staged_init, traced_init⟩ hrun
    have hc : D c := htraced.call i c (by rw [hi]; rfl)
    have hmade : Made D s.served c.key l := htraced.holds i c l (by rw [hi]; exact ⟨rfl, rfl⟩)
    have hkey : key (.manifest l.call.image l.call.reference) = key (.manifest c.image c.reference) := hmade.key
    rcases eq_or_overlaps (haccepted _ hmade.call).slash (haccepted c hc).slash hkey with heq | hoverlaps
    · exact ⟨(CacheLookup.manifest.inj heq).1, (CacheLookup.manifest.inj heq).2⟩
    · exact absurd hoverlaps (hno _ c hmade.call hc)

/-- The calls for two tags of an image, with any `Accept` lists. -/
def TwoTags (c : Call) : Prop :=
  c.image = "library/nginx".toList ∧ (c.reference = "1.27".toList ∨ c.reference = "1.28".toList)

theorem accepted_of_twoTags (c : Call) (h : TwoTags c) : Accepted (.manifest c.image c.reference) := by
  obtain ⟨himage, hreference | hreference⟩ := h <;> rw [himage, hreference]
  · exact @Accepted.manifest "nginx/manifests/1.27".toList "nginx".toList _ .manifests nofun (by decide)
  · exact @Accepted.manifest "nginx/manifests/1.28".toList "nginx".toList _ .manifests nofun (by decide)

theorem own_manifest_iff_nginx :
    (∀ ls s, (∀ l ∈ ls, Admits TwoTags l) → (machine .default).run init ls = some s → ∀ i c l r,
      s.stage i = .answered c (.flight (.received l)) → l.result = .ok r →
        l.call.image = c.image ∧ l.call.reference = c.reference) ↔
      ∀ a b, TwoTags a → TwoTags b → ¬ Overlaps (.manifest a.image a.reference) (.manifest b.image b.reference) :=
  own_manifest_iff .default (by decide) TwoTags accepted_of_twoTags

end HarborRouter.Manifest
