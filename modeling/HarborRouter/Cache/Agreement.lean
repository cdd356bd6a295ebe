import HarborRouter.Cache.Redis

/-!
# When the backends can be exchanged

Without outages the Redis backend reads what the server holds, whose lifetimes are whole seconds, and at least one; the
in-memory backend keeps an entry exactly as long as it was asked to.

* `backends_agree_iff` : the two answer alike exactly when they are asked for whole seconds.
-/

namespace HarborRouter
open Lib CacheBackend

/-- The backend when the surroundings decide the same about every call. -/
def CacheBackend.fixed {S V C : Type} (B : CacheBackend S V C) (c : C) : CacheBackend S V Unit where
  init := B.init
  defaultTtl := B.defaultTtl
  get s now key _ := B.get s now key c
  set s now key value _ := B.set s now key value c
  setWithTtl s now key value ttl _ := B.setWithTtl s now key value ttl c
  delete s key _ := B.delete s key c
  evict := B.evict

def steadyRedis (ttl : Nat) (keyPrefix : Text) : CacheBackend (Stores Put) Put Unit :=
  (redisCache Put ttl keyPrefix).fixed .ok

/-! ## The same calls to both backends -/

namespace Agreement

structure State where
  moka : CacheBackend.State (Store Text Put)
  redis : CacheBackend.State (Stores Put)

variable (ttl : Nat) (keyPrefix : Text)

def machine : Machine State (Label Unit) where
  init := ⟨(mokaCache Put ttl).machine.init, (steadyRedis ttl keyPrefix).machine.init⟩
  step s l := some ⟨(mokaCache Put ttl).step s.moka l, (steadyRedis ttl keyPrefix).step s.redis l⟩

/-- Every `get`, now or after any delay, is answered alike. -/
def Alike (s : State) : Prop :=
  ∀ d key, (mokaCache Put ttl).get s.moka.cache (s.moka.now + d) key () =
    (steadyRedis ttl keyPrefix).get s.redis.cache (s.redis.now + d) key ()

def WholeSeconds (d : Nat) : Prop := max (d / second) 1 * second = d

/-- The call asks for whole seconds, and no entry that may still be read is evicted. -/
def Even (s : State) : Label Unit → Prop
  | .set _ _ _ => WholeSeconds ttl
  | .setWithTtl _ _ d _ => WholeSeconds d
  | .evict key => s.moka.cache.get s.moka.now key = none
  | _ => True

variable {ttl keyPrefix}

theorem get_insert_alike (a b : Store Text Put) (now d e : Nat) (key key' : Text) (put : Put) :
    (∀ n, (a.insert now key put d).get (now + n) key = (b.insert now key' put e).get (now + n) key') ↔ d = e := by
  have hget : ∀ (s : Store Text Put) (k : Text) (d n : Nat),
      (s.insert now k put d).get (now + n) k = if n ≤ d then some put else none := by
    intro s k d n
    unfold Store.get
    rw [Store.entry_insert_self, Option.bind_some]
    exact if_congr Nat.add_le_add_iff_left rfl rfl
  constructor
  · intro h
    have hd := h d
    have he := h e
    rw [hget, hget] at hd he
    rw [if_pos (Nat.le_refl _)] at hd he
    split at hd
    · split at he
      · omega
      · cases he
    · cases hd
  · rintro rfl n
    rw [hget, hget]

/-- After a write of one key the stores agree on it exactly when the lifetimes do, and on the others as before. -/
theorem alike_insert {a b : Store Text Put} {r : RedisCache} {now d e : Nat} {key : Text} {put : Put}
    (h : ∀ n j, a.get (now + n) j = b.get (now + n) (r.prefixed j)) :
    (∀ n j, (a.insert now key put d).get (now + n) j =
      (b.insert now (r.prefixed key) put e).get (now + n) (r.prefixed j)) ↔ d = e := by
  rw [← get_insert_alike a b now d e key (r.prefixed key) put]
  refine ⟨fun hall n => hall n key, fun hkey n j => ?_⟩
  by_cases hj : j = key
  · rw [hj]
    exact hkey n
  · rw [Store.get_insert_of_ne _ _ _ _ _ hj, Store.get_insert_of_ne _ _ _ _ _ (r.prefixed_ne hj)]
    exact h n j

theorem alike_remove {a b : Store Text Put} {r : RedisCache} {now : Nat} {key : Text}
    (h : ∀ n j, a.get (now + n) j = b.get (now + n) (r.prefixed j)) (n : Nat) (j : Text) :
    (a.remove key).get (now + n) j = (b.remove (r.prefixed key)).get (now + n) (r.prefixed j) := by
  by_cases hj : j = key
  · rw [hj, Store.get_remove_self, Store.get_remove_self]
  · rw [Store.get_remove_of_ne _ _ hj, Store.get_remove_of_ne _ _ (r.prefixed_ne hj)]
    exact h n j

theorem alike_step {s : State} (l : Label Unit) (hnow : s.redis.now = s.moka.now) (h : Alike ttl keyPrefix s) :
    Alike ttl keyPrefix
        ⟨(mokaCache Put ttl).step s.moka l, (steadyRedis ttl keyPrefix).step s.redis l⟩ ↔ Even ttl s l := by
  obtain ⟨⟨moka, now, ledger⟩, ⟨server, fallback⟩, rnow, rledger⟩ := s
  cases hnow
  have h : ∀ n j, moka.get (now + n) j = server.get (now + n) ((RedisCache.fromSentinel ttl keyPrefix).prefixed j) := h
  cases l with
  | set key value c => exact (alike_insert h).trans eq_comm
  | setWithTtl key value d c => exact (alike_insert h).trans eq_comm
  | delete key c => exact iff_of_true (alike_remove h) trivial
  | wait d =>
      refine iff_of_true (fun n j => ?_) trivial
      have hlater := h (d + n) j
      rw [← Nat.add_assoc] at hlater
      exact hlater
  | evict key =>
      show (∀ n j, (moka.remove key).get (now + n) j = server.get (now + n) _) ↔ moka.get now key = none
      constructor
      · intro hall
        have hkey := hall 0 key
        rw [Store.get_remove_self, ← h 0 key] at hkey
        exact hkey.symm
      · intro hnone n j
        by_cases hj : j = key
        · rw [← h n j, hj, Store.get_remove_self]
          -- what cannot be read now cannot be read later
          cases hget : moka.get (now + n) key with
          | none => rfl
          | some put =>
              rw [Store.get_earlier hget (Nat.le_add_right now n)] at hnone
              cases hnone
        · rw [Store.get_remove_of_ne _ _ hj]
          exact h n j

/-- The backends can be exchanged exactly when whole seconds are asked for: as long as every command is carried out,
both answer every `get` alike, throughout a sequence of calls, exactly when each write asks for a positive number of
whole seconds and no entry is evicted before its time. -/
theorem backends_agree_iff (ttl : Nat) (keyPrefix : Text) (ls : List (Label Unit)) :
    (machine ttl keyPrefix).Always (Alike ttl keyPrefix) (machine ttl keyPrefix).init ls ↔
      (machine ttl keyPrefix).Guarded (Even ttl) (machine ttl keyPrefix).init ls := by
  apply Machine.always_iff_guarded (I := fun s => s.redis.now = s.moka.now)
  · intro s l t hnow ht
    cases ht
    cases l with
    | wait d => exact congrArg (· + d) hnow
    | _ => exact hnow
  · intro s l t hnow hs ht
    cases ht
    exact alike_step l hnow hs
  · rfl
  · exact fun _ _ => rfl

/-- An entry asked to live for a second and a half is gone from Redis after a second. -/
theorem half_second_lost : ¬ ∀ (ttl : Nat) (keyPrefix : Text) (ls : List (Label Unit)),
    (machine ttl keyPrefix).Always (Alike ttl keyPrefix) (machine ttl keyPrefix).init ls := by
  intro h
  have halike := (h (3 * second / 2) [] [.set [] [] ()]).2 _ rfl
  have heven : WholeSeconds (3 * second / 2) := (alike_step (.set [] [] ()) rfl fun _ _ => rfl).mp halike
  exact absurd heven (by unfold WholeSeconds; decide)

end Agreement

end HarborRouter
