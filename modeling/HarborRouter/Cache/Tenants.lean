import HarborRouter.Cache.Redis

/-!
# Many processes on one Redis server

Processes with key prefixes of their own, each with its own fallback, over the entries of one server. Some of them may
belong together and share a prefix; the others are strangers.

* `apart_iff` : which prefixes keep the keys of two processes apart;
* `isolated_iff` : a group of processes goes its way as if it had the server to itself, whatever the others do, exactly
  when its prefixes are apart from theirs.
-/

namespace HarborRouter.Tenants
open Lib CacheBackend

structure Tenant where
  ttl : Nat
  keyPrefix : Text

def Tenant.redis (p : Tenant) : RedisCache := .fromSentinel p.ttl p.keyPrefix

inductive Op
  | set (key value : Text) (c : Command)
  | setWithTtl (key value : Text) (ttl : Nat) (c : Command)
  | delete (key : Text) (c : Command)
  /-- an entry of the fallback goes because its capacity is reached -/
  | evict (key : Text)

def Op.label : Op → CacheBackend.Label Command
  | .set key value c => .set key value c
  | .setWithTtl key value ttl c => .setWithTtl key value ttl c
  | .delete key c => .delete key c
  | .evict key => .evict key

/-- `ledger` says, for each process, which write of a key was its latest. -/
structure State (I : Type) where
  server : Store Text Put
  fallback : I → Store Text Put
  now : Nat
  ledger : I → Text → Option Put

inductive Label (I : Type)
  | act (i : I) (op : Op)
  | wait (d : Nat)

section Machine
variable {I : Type} [DecidableEq I] (tenant : I → Tenant)

def State.of (s : State I) (i : I) : CacheBackend.State (Stores Put) := ⟨⟨s.server, s.fallback i⟩, s.now, s.ledger i⟩

/-- A process steps as it does with the server to itself. -/
def step (s : State I) : Label I → Option (State I)
  | .act i op =>
      let t := (redisCache Put (tenant i).ttl (tenant i).keyPrefix).step (s.of i) op.label
      some
        { server := t.cache.server
          fallback := Function.update s.fallback i t.cache.fallback
          now := t.now
          ledger := Function.update s.ledger i t.ledger }
  | .wait d => some { s with now := s.now + d }

def machine : Machine (State I) (Label I) := ⟨⟨.empty, fun _ => .empty, 0, fun _ _ => none⟩, step tenant⟩

def State.get (s : State I) (i : I) (key : Text) (c : Command) : Option Put :=
  (redisCache Put (tenant i).ttl (tenant i).keyPrefix).get ⟨s.server, s.fallback i⟩ s.now key c

end Machine

/-! ## Prefixes -/

/-- No key of the one is a key of the other. -/
def Apart (p q : RedisCache) : Prop := ∀ key key', p.prefixed key ≠ q.prefixed key'

theorem prefixed_of_empty {p : RedisCache} (h : p.keyPrefix = []) (key : Text) : p.prefixed key = key := by
  unfold RedisCache.prefixed
  rw [h]
  rfl

theorem prefixed_eq {p : RedisCache} (h : p.keyPrefix ≠ []) (key : Text) :
    p.prefixed key = (p.keyPrefix ++ ":".toList) ++ key := by
  unfold RedisCache.prefixed
  rw [if_neg (by simpa using h)]

/-- Which prefixes are apart: neither is empty, and neither with its `:` begins the other one with its `:`. -/
theorem apart_iff {p q : RedisCache} : Apart p q ↔ p.keyPrefix ≠ [] ∧ q.keyPrefix ≠ [] ∧
    ¬ (p.keyPrefix ++ ":".toList) <+: (q.keyPrefix ++ ":".toList) ∧
      ¬ (q.keyPrefix ++ ":".toList) <+: (p.keyPrefix ++ ":".toList) := by
  constructor
  · intro h
    have hp : p.keyPrefix ≠ [] := fun he => h (q.prefixed []) [] (prefixed_of_empty he _)
    have hq : q.keyPrefix ≠ [] := fun he => h [] (p.prefixed []) (prefixed_of_empty he _).symm
    refine ⟨hp, hq, ?_, ?_⟩
    · intro ⟨t, ht⟩
      exact h t [] (by rw [prefixed_eq hp, prefixed_eq hq, ht, List.append_nil])
    · intro ⟨t, ht⟩
      exact h [] t (by rw [prefixed_eq hp, prefixed_eq hq, ht, List.append_nil])
  · intro ⟨hp, hq, hpq, hqp⟩ key key' h
    rw [prefixed_eq hp, prefixed_eq hq] at h
    rcases List.prefix_or_prefix_of_prefix (List.prefix_append _ key) (h ▸ List.prefix_append _ key') with hle | hle
    · exact hpq hle
    · exact hqp hle

/-! ## A group of processes -/

section Group
variable {I : Type} (tenant : I → Tenant) (G : I → Prop)

def Ours (k : Text) : Prop := ∃ i, G i ∧ ∃ key, (tenant i).redis.prefixed key = k

open Classical in
/-- What a state is to the group: its keys at the server, and its processes. -/
noncomputable def view (s : State I) : State {i // G i} :=
  { server := s.server.restrict (Ours tenant G)
    fallback := fun i => s.fallback i
    now := s.now
    ledger := fun i => s.ledger i }

variable {tenant G}

theorem ours {i : I} (h : G i) (key : Text) : Ours tenant G ((tenant i).redis.prefixed key) := ⟨i, h, key, rfl⟩

theorem not_ours (hG : ∀ i j, G i → ¬ G j → Apart (tenant i).redis (tenant j).redis) {j : I} (h : ¬ G j) (key : Text) :
    ¬ Ours tenant G ((tenant j).redis.prefixed key) := by
  intro ⟨i, hi, key', hkey⟩
  exact hG i j hi h key' key hkey

open Classical in
theorem get_view (s : State I) (i : {i // G i}) (key : Text) (c : Command) :
    (view tenant G s).get (fun j : {i // G i} => tenant j) i key c = s.get tenant i key c := by
  cases c with
  | ok => exact Store.get_restrict _ _ (ours i.2 key)
  | failed => rfl
  | lost => rfl

section Restrict
open Classical
variable (server : Store Text Put) (now secs : Nat) {r : RedisCache} {key : Text} (put : Put) (c : Command)
  {P : Text → Prop}

theorem restrict_setEx (h : P (r.prefixed key)) :
    (r.setEx server now key put secs c).restrict P = r.setEx (server.restrict P) now key put secs c := by
  cases c with
  | failed => rfl
  | ok => exact Store.restrict_insert server now _ _ h
  | lost => exact Store.restrict_insert server now _ _ h

theorem restrict_setEx_of_not (h : ¬ P (r.prefixed key)) :
    (r.setEx server now key put secs c).restrict P = server.restrict P := by
  cases c with
  | failed => rfl
  | ok => exact Store.restrict_insert_of_not server now _ _ h
  | lost => exact Store.restrict_insert_of_not server now _ _ h

theorem restrict_del (h : P (r.prefixed key)) :
    (r.del server key c).restrict P = r.del (server.restrict P) key c := by
  cases c with
  | failed => rfl
  | ok => exact Store.restrict_remove server h
  | lost => exact Store.restrict_remove server h

theorem restrict_del_of_not (h : ¬ P (r.prefixed key)) : (r.del server key c).restrict P = server.restrict P := by
  cases c with
  | failed => rfl
  | ok => exact Store.restrict_remove_of_not server h
  | lost => exact Store.restrict_remove_of_not server h

end Restrict

section
variable [DecidableEq I] (tenant G)

/-- The processes of the group, with the server to themselves. -/
def alone : Machine (State {i // G i}) (Label {i // G i}) := machine fun i => tenant i

variable {tenant G}

/-- An update at a process of the group is one in the group, and one at another process is none. -/
theorem update_group {V : Type} (f : I → V) {i : I} (x : V) (h : G i) :
    (fun j : {i // G i} => Function.update f i x j) = Function.update (fun j : {i // G i} => f j) ⟨i, h⟩ x := by
  funext j
  by_cases hj : j = ⟨i, h⟩
  · subst hj
    rw [Function.update_self, Function.update_self]
  · rw [Function.update_of_ne hj, Function.update_of_ne fun he => hj (Subtype.ext he)]

theorem update_others {V : Type} (f : I → V) {j : I} (x : V) (h : ¬ G j) :
    (fun i : {i // G i} => Function.update f j x i) = fun i : {i // G i} => f i := by
  funext i
  have hne : (i : I) ≠ j := fun he => h (he ▸ i.2)
  rw [Function.update_of_ne hne]

theorem view_act {s : State I} {i : I} (h : G i) (op : Op) :
    ∃ t, step tenant s (.act i op) = some t ∧
      step (fun j : {i // G i} => tenant j) (view tenant G s) (.act ⟨i, h⟩ op) = some (view tenant G t) := by
  refine ⟨_, rfl, congrArg some ?_⟩
  unfold view
  simp only [update_group _ _ h, State.mk.injEq]
  cases op with
  | set key value c => exact ⟨(restrict_setEx _ _ _ _ _ (ours h key)).symm, rfl, rfl, rfl⟩
  | setWithTtl key value ttl c => exact ⟨(restrict_setEx _ _ _ _ _ (ours h key)).symm, rfl, rfl, rfl⟩
  | delete key c => exact ⟨(restrict_del _ _ (ours h key)).symm, rfl, rfl, rfl⟩
  | evict key => exact ⟨rfl, rfl, rfl, rfl⟩

/-- What another process does is nothing to the group. -/
theorem view_act_of_not (hG : ∀ i j, G i → ¬ G j → Apart (tenant i).redis (tenant j).redis) {s t : State I} {j : I}
    (h : ¬ G j) {op : Op} (ht : step tenant s (.act j op) = some t) : view tenant G t = view tenant G s := by
  cases ht
  unfold view
  simp only [update_others _ _ h, State.mk.injEq, true_and, and_true]
  cases op with
  | set key value c => exact ⟨restrict_setEx_of_not _ _ _ _ _ (not_ours hG h key), rfl⟩
  | setWithTtl key value ttl c => exact ⟨restrict_setEx_of_not _ _ _ _ _ (not_ours hG h key), rfl⟩
  | delete key c => exact ⟨restrict_del_of_not _ _ (not_ours hG h key), rfl⟩
  | evict key => exact ⟨rfl, rfl⟩

variable [DecidablePred G] (tenant G)

/-- What the group does, and the time that passes. -/
def seen : Label I → Option (Label {i // G i})
  | .act i op => if h : G i then some (.act ⟨i, h⟩ op) else none
  | .wait d => some (.wait d)

variable {tenant G}

noncomputable def group (hG : ∀ i j, G i → ¬ G j → Apart (tenant i).redis (tenant j).redis) :
    Machine.Projection (machine tenant) (alone tenant G) where
  state := view tenant G
  label _ l := seen G l
  init := by
    unfold view alone machine
    simp only [Store.restrict_empty]
  stay s l t ht hl := by
    cases l with
    | wait d => cases hl
    | act j op =>
        by_cases hj : G j
        · simp [seen, hj] at hl
        · exact view_act_of_not hG hj ht
  move s l t l' ht hl := by
    cases l with
    | wait d =>
        cases hl
        cases ht
        rfl
    | act i op =>
        by_cases hi : G i
        · simp only [seen, hi, dite_true, Option.some.injEq] at hl
          subst hl
          obtain ⟨u, hu, hview⟩ := view_act (s := s) hi op
          have htu : t = u := Option.some.inj (ht.symm.trans hu)
          rw [htu]
          exact hview
        · simp [seen, hi] at hl

variable (tenant G)

/-- In every run of all processes a group is given the answers it would have been given with the server to itself,
exactly when its prefixes are apart from those of the other processes. -/
theorem isolated_iff :
    (∀ ls s, (machine tenant).run (machine tenant).init ls = some s →
      ∃ t, (alone tenant G).run (alone tenant G).init (ls.filterMap (seen G)) = some t ∧
        ∀ (i : {i // G i}) key c, s.get tenant i key c = t.get (fun j : {i // G i} => tenant j) i key c) ↔
      ∀ i j, G i → ¬ G j → Apart (tenant i).redis (tenant j).redis := by
  constructor
  · intro h i j hi hj key key' hkey
    -- another process writes under a key of the group, which has not written at all
    obtain ⟨t, ht, hget⟩ := h [.act j (.set key' [] .ok)] _ rfl
    rw [List.filterMap_cons_none (show seen G (.act j (.set key' [] .ok)) = none from dif_neg hj)] at ht
    cases ht
    have hread := hget ⟨i, hi⟩ key .ok
    have hwritten : ((Store.empty : Store Text Put).insert 0 ((tenant j).redis.prefixed key') ⟨[], (tenant j).ttl, 0⟩
        ((tenant j).redis.ttlSecs * second)).get 0 ((tenant i).redis.prefixed key) =
          some ⟨[], (tenant j).ttl, 0⟩ := by
      rw [hkey]
      exact Store.get_insert_self ..
    cases hread.symm.trans hwritten
  · intro hG ls s hs
    refine ⟨view tenant G s, ?_, fun i key c => (get_view s i key c).symm⟩
    rw [← (group hG).init]
    exact (group hG).run (fun _ _ => rfl) hs

end
end Group
end HarborRouter.Tenants
