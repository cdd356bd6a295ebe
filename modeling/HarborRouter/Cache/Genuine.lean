import HarborRouter.Cache.Agreement

/-!
# What a backend may answer

Whatever goes wrong, a backend makes no value up, and forgets each one in time.

* `Genuine` : what `get` answers was put under the key, and not too long ago;
* `MokaCache.genuine`, `RedisCache.genuine`, `RedisCache.genuine_steady` : how long that is for the in-memory backend,
  for Redis with any commands failing, and for Redis without outages.
-/

namespace HarborRouter
open Lib CacheBackend

namespace CacheBackend
variable {S C : Type} (B : CacheBackend S Put C)

/-- If the call puts a value, `P` is true of it and its key. -/
def Puts (P : Text → Put → Prop) (s : State S) : Label C → Prop
  | .set key value _ => P key ⟨value, B.defaultTtl, s.now⟩
  | .setWithTtl key value ttl _ => P key ⟨value, ttl, s.now⟩
  | _ => True

/-- What is true of everything that was put is true of what a `get` answers, which was put at most `limit` of its
lifetime ago. -/
def Genuine (limit : Nat → Nat) : Prop :=
  ∀ (P : Text → Put → Prop) (ls : List (Label C)) (s : State S), B.machine.Guarded (B.Puts P) B.machine.init ls →
    B.machine.run B.machine.init ls = some s → ∀ key c put, B.get s.cache s.now key c = some put →
      P key put ∧ s.now ≤ put.written + limit put.ttl

end CacheBackend

theorem MokaCache.genuine (ttl : Nat) : (mokaCache Put ttl).Genuine fun d => d := by
  intro P ls s hputs hrun key c put hget
  have hkept : s.cache.Holds fun key e => P key e.value ∧ e.expiry = e.value.written + e.value.ttl := by
    apply Machine.Guarded.run_rule (I := fun s : State (Store Text Put) =>
      s.cache.Holds fun key e => P key e.value ∧ e.expiry = e.value.written + e.value.ttl) _ hputs _ hrun
    · intro s l t hs hl ht
      cases ht
      have hframe : ∀ k, s.cache.Holds fun j e =>
          j ≠ k → P j e.value ∧ e.expiry = e.value.written + e.value.ttl := fun k => hs.mono fun _ _ h _ => h
      cases l with
      | set key value c => exact Store.holds_insert.mpr ⟨⟨hl, rfl⟩, hframe key⟩
      | setWithTtl key value d c => exact Store.holds_insert.mpr ⟨⟨hl, rfl⟩, hframe key⟩
      | delete key c => exact Store.holds_remove.mpr (hframe key)
      | wait d => exact hs
      | evict key => exact Store.holds_remove.mpr (hframe key)
    · exact Store.holds_empty
  obtain ⟨e, he, hlive, rfl⟩ := Store.get_iff.mp hget
  obtain ⟨hP, hexpiry⟩ := hkept key e he
  exact ⟨hP, hexpiry ▸ hlive⟩

namespace RedisCache
variable {r : RedisCache} {P : Text → Put → Prop}

/-- The server forgets in time what was put, and the fallback after the default lifetime. -/
structure Kept (r : RedisCache) (P : Text → Put → Prop) (s : Stores Put) : Prop where
  server : ∀ key e, s.server.entry (r.prefixed key) = some e → P key e.value ∧ Timely e
  fallback : s.fallback.Holds fun key e => P key e.value ∧ e.expiry ≤ e.value.written + r.fallbackTtl

theorem kept_empty : Kept r P ⟨.empty, .empty⟩ where
  server _ _ he := nomatch he
  fallback := Store.holds_empty

section Kept
variable {s : Stores Put} {now secs : Nat} {key : Text} {put : Put}

theorem Kept.setEx (h : Kept r P s) (hput : P key put) (htimely : Timely ⟨put, now, secs * second⟩)
    (hwritten : put.written = now) (c : Command) :
    Kept r P ⟨r.setEx s.server now key put secs c, s.fallback.insert now key put r.fallbackTtl⟩ := by
  have hinsert : ∀ j e, (s.server.insert now (r.prefixed key) put (secs * second)).entry (r.prefixed j) = some e →
      P j e.value ∧ Timely e := by
    intro j e he
    by_cases hj : j = key
    · subst hj
      rw [Store.entry_insert_self] at he
      cases he
      exact ⟨hput, htimely⟩
    · rw [Store.entry_insert_of_ne _ _ _ _ (r.prefixed_ne hj)] at he
      exact h.server j e he
  refine ⟨?_, Store.holds_insert.mpr ⟨⟨hput, ?_⟩, h.fallback.mono fun _ _ hP _ => hP⟩⟩
  · cases c with
    | failed => exact h.server
    | ok => exact hinsert
    | lost => exact hinsert
  · rw [hwritten]
    exact Nat.le_refl _

theorem Kept.del (h : Kept r P s) (key : Text) (c : Command) :
    Kept r P ⟨r.del s.server key c, s.fallback.remove key⟩ := by
  have hremove : ∀ j e, (s.server.remove (r.prefixed key)).entry (r.prefixed j) = some e →
      P j e.value ∧ Timely e := by
    intro j e he
    by_cases hj : j = key
    · rw [hj, Store.entry_remove_self] at he
      cases he
    · rw [Store.entry_remove_of_ne _ (r.prefixed_ne hj)] at he
      exact h.server j e he
  refine ⟨?_, Store.holds_remove.mpr (h.fallback.mono fun _ _ hP _ => hP)⟩
  cases c with
  | failed => exact h.server
  | ok => exact hremove
  | lost => exact hremove

theorem Kept.evict (h : Kept r P s) (key : Text) : Kept r P ⟨s.server, s.fallback.remove key⟩ :=
  ⟨h.server, Store.holds_remove.mpr (h.fallback.mono fun _ _ hP _ => hP)⟩

theorem Kept.get_server (h : Kept r P s) (hget : s.server.get now (r.prefixed key) = some put) :
    P key put ∧ now ≤ put.written + max put.ttl second := by
  obtain ⟨e, he, hlive, rfl⟩ := Store.get_iff.mp hget
  obtain ⟨hP, htimely⟩ := h.server key e he
  exact ⟨hP, hlive.trans htimely⟩

theorem Kept.get_fallback (h : Kept r P s) (hget : s.fallback.get now key = some put) :
    P key put ∧ now ≤ put.written + r.fallbackTtl := by
  obtain ⟨e, he, hlive, rfl⟩ := Store.get_iff.mp hget
  obtain ⟨hP, hexpiry⟩ := h.fallback key e he
  exact ⟨hP, hlive.trans hexpiry⟩

end Kept

/-- Under any outages the Redis backend answers what was put, for a second and the default lifetime at least. -/
theorem genuine (ttl : Nat) (keyPrefix : Text) :
    (redisCache Put ttl keyPrefix).Genuine fun d => max (max d second) ttl := by
  intro P ls s hputs hrun key c put hget
  have hkept : Kept (fromSentinel ttl keyPrefix) P s.cache := by
    apply Machine.Guarded.run_rule (I := fun s : State (Stores Put) => Kept (fromSentinel ttl keyPrefix) P s.cache)
      _ hputs _ hrun
    · intro s l t hs hl ht
      cases ht
      cases l with
      | set key value c => exact hs.setEx hl (timely_put value ttl s.now) rfl c
      | setWithTtl key value d c => exact hs.setEx hl (timely_put value d s.now) rfl c
      | delete key c => exact hs.del key c
      | wait d => exact hs
      | evict key => exact hs.evict key
    · exact kept_empty
  have hlonger : ∀ d, max d second ≤ max (max d second) ttl ∧ ttl ≤ max (max d second) ttl := fun d =>
    ⟨le_max_left .., le_max_right ..⟩
  cases c with
  | ok =>
      obtain ⟨hP, hle⟩ := hkept.get_server hget
      exact ⟨hP, hle.trans (Nat.add_le_add_left (hlonger put.ttl).1 _)⟩
  | failed =>
      obtain ⟨hP, hle⟩ := hkept.get_fallback hget
      exact ⟨hP, hle.trans (Nat.add_le_add_left (hlonger put.ttl).2 _)⟩
  | lost =>
      obtain ⟨hP, hle⟩ := hkept.get_fallback hget
      exact ⟨hP, hle.trans (Nat.add_le_add_left (hlonger put.ttl).2 _)⟩

theorem genuine_steady (ttl : Nat) (keyPrefix : Text) :
    (steadyRedis ttl keyPrefix).Genuine fun d => max d second := by
  intro P ls s hputs hrun key c put hget
  have hkept : Kept (fromSentinel ttl keyPrefix) P s.cache := by
    apply Machine.Guarded.run_rule (I := fun s : State (Stores Put) => Kept (fromSentinel ttl keyPrefix) P s.cache)
      _ hputs _ hrun
    · intro s l t hs hl ht
      cases ht
      cases l with
      | set key value c => exact hs.setEx hl (timely_put value ttl s.now) rfl .ok
      | setWithTtl key value d c => exact hs.setEx hl (timely_put value d s.now) rfl .ok
      | delete key c => exact hs.del key .ok
      | wait d => exact hs
      | evict key => exact hs.evict key
    · exact kept_empty
  exact hkept.get_server hget

end RedisCache
end HarborRouter
