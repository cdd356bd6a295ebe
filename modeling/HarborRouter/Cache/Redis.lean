import HarborRouter.Cache.Backend

/-!
# The Redis backend

`RedisCache` of `cache.rs`: every write goes to the server and to a local fallback, and a read asks the server first.
Any command may fail. No other process writes to the server.

* `honoursTtl_iff` : lifetimes are honoured exactly when no `set_with_ttl` asks for less than the default;
* `readsLatest_iff` : the latest write is read exactly when no command fails while the server holds another value.
-/

namespace HarborRouter
open Lib CacheBackend

/-- What becomes of one Redis command: it is carried out and answered, it is not carried out, or it is carried out
and its answer is lost. -/
inductive Command
  | ok
  | failed
  | lost
  deriving DecidableEq, Repr

structure RedisCache where
  ttlSecs : Nat
  keyPrefix : Text
  /-- The `time_to_live` of `fallback`. -/
  fallbackTtl : Nat

structure Stores (V : Type) where
  server : Store Text V
  fallback : Store Text V

namespace RedisCache
variable {V : Type}

def fromSentinel (ttl : Nat) (keyPrefix : Text) : RedisCache := ⟨max (ttl / second) 1, keyPrefix, ttl⟩

def prefixed (r : RedisCache) (key : Text) : Text :=
  if r.keyPrefix.isEmpty then key else r.keyPrefix ++ ":".toList ++ key

def setEx (r : RedisCache) (server : Store Text V) (now : Nat) (key : Text) (value : V) (secs : Nat) :
    Command → Store Text V
  | .failed => server
  | .ok | .lost => server.insert now (r.prefixed key) value (secs * second)

def del (r : RedisCache) (server : Store Text V) (key : Text) : Command → Store Text V
  | .failed => server
  | .ok | .lost => server.remove (r.prefixed key)

def get (r : RedisCache) (s : Stores V) (now : Nat) (key : Text) : Command → Option V
  | .ok => s.server.get now (r.prefixed key)
  | .failed | .lost => s.fallback.get now key

def set (r : RedisCache) (s : Stores V) (now : Nat) (key : Text) (value : V) (c : Command) : Stores V :=
  { server := r.setEx s.server now key value r.ttlSecs c
    fallback := s.fallback.insert now key value r.fallbackTtl }

def setWithTtl (r : RedisCache) (s : Stores V) (now : Nat) (key : Text) (value : V) (ttl : Nat) (c : Command) :
    Stores V :=
  { server := r.setEx s.server now key value (max (ttl / second) 1) c
    fallback := s.fallback.insert now key value r.fallbackTtl }

def delete (r : RedisCache) (s : Stores V) (key : Text) (c : Command) : Stores V :=
  { server := r.del s.server key c
    fallback := s.fallback.remove key }

end RedisCache

/-- The default lifetime is the one the cache was built with. -/
def redisCache (V : Type) (ttl : Nat) (keyPrefix : Text) : CacheBackend (Stores V) V Command :=
  let r := RedisCache.fromSentinel ttl keyPrefix
  { init := ⟨.empty, .empty⟩
    defaultTtl := ttl
    get := r.get
    set := r.set
    setWithTtl := r.setWithTtl
    delete := r.delete
    evict := fun s key => { s with fallback := s.fallback.remove key } }

namespace RedisCache
variable {ttl : Nat} {keyPrefix : Text}

theorem prefixed_injective (r : RedisCache) : Function.Injective r.prefixed := by
  intro a b h
  unfold prefixed at h
  split at h
  · exact h
  · exact List.append_cancel_left h

theorem prefixed_ne (r : RedisCache) {a b : Text} (h : a ≠ b) : r.prefixed a ≠ r.prefixed b :=
  fun he => h (r.prefixed_injective he)

theorem holds_setEx {r : RedisCache} {server : Store Text Put} {now secs : Nat} {key : Text} {put : Put} {c : Command}
    {P : Text → Expiring Put → Prop} (hput : P (r.prefixed key) ⟨put, now, secs * second⟩) (h : server.Holds P) :
    (r.setEx server now key put secs c).Holds P := by
  cases c with
  | failed => exact h
  | ok => exact Store.holds_insert.mpr ⟨hput, h.mono fun _ _ hP _ => hP⟩
  | lost => exact Store.holds_insert.mpr ⟨hput, h.mono fun _ _ hP _ => hP⟩

theorem holds_del {r : RedisCache} {server : Store Text Put} {key : Text} {c : Command}
    {P : Text → Expiring Put → Prop} (h : server.Holds P) : (r.del server key c).Holds P := by
  cases c with
  | failed => exact h
  | ok => exact Store.holds_remove.mpr (h.mono fun _ _ hP _ => hP)
  | lost => exact Store.holds_remove.mpr (h.mono fun _ _ hP _ => hP)

/-! ## Lifetimes -/

def Timely (e : Expiring Put) : Prop := e.expiry ≤ e.value.deadline

/-- The server's entries expire in time, whatever was asked for. -/
def ServerTimely (s : State (Stores Put)) : Prop := s.cache.server.Holds fun _ e => Timely e

theorem secs_le (d : Nat) : max (d / second) 1 * second ≤ max d second := by
  unfold second
  omega

theorem timely_put (value : Text) (d now : Nat) :
    Timely ⟨⟨value, d, now⟩, now, max (d / second) 1 * second⟩ :=
  Nat.add_le_add_left (secs_le d) now

theorem serverTimely_step (s : State (Stores Put)) (l : Label Command) (h : ServerTimely s) :
    ServerTimely ((redisCache Put ttl keyPrefix).step s l) := by
  cases l with
  | set key value c => exact holds_setEx (timely_put value ttl s.now) h
  | setWithTtl key value d c => exact holds_setEx (timely_put value d s.now) h
  | delete key c => exact holds_del h
  | wait d => exact h
  | evict key => exact h

/-- Only the fallback can keep a value too long, and only one that it can still be asked for. -/
theorem honoursTtl_iff_fallback {s : State (Stores Put)} (h : ServerTimely s) :
    (redisCache Put ttl keyPrefix).HonoursTtl s ↔ s.cache.fallback.Holds fun _ e => e.Live s.now → Timely e := by
  constructor
  · intro hs key e he hlive
    obtain ⟨d, hd⟩ := Nat.exists_eq_add_of_le hlive
    have hget : s.cache.fallback.get (s.now + d) key = some e.value :=
      Store.get_iff.mpr ⟨e, he, by rw [← hd]; exact Nat.le_refl _, rfl⟩
    have := hs d key .failed e.value hget
    unfold Timely
    omega
  · intro hs d key c put hget
    cases c with
    | ok =>
        obtain ⟨e, he, hlive, rfl⟩ := Store.get_iff.mp hget
        exact hlive.trans (h _ e he)
    | failed =>
        obtain ⟨e, he, hlive, rfl⟩ := Store.get_iff.mp hget
        exact hlive.trans (hs key e he ((Nat.le_add_right _ d).trans hlive))
    | lost =>
        obtain ⟨e, he, hlive, rfl⟩ := Store.get_iff.mp hget
        exact hlive.trans (hs key e he ((Nat.le_add_right _ d).trans hlive))

/-- `set_with_ttl` asks for no less than the default lifetime, or a second. -/
def AsksDefault (ttl : Nat) : Label Command → Prop
  | .setWithTtl _ _ d _ => ttl ≤ max d second
  | _ => True

theorem honours_insert {st : Store Text Put} {now d : Nat} {key value : Text}
    (h : st.Holds fun _ e => e.Live now → Timely e) :
    ((st.insert now key ⟨value, d, now⟩ ttl).Holds fun _ e => e.Live now → Timely e) ↔ ttl ≤ max d second := by
  rw [Store.holds_insert]
  constructor
  · intro ⟨hput, _⟩
    have : now + ttl ≤ now + max d second := hput (Nat.le_add_right now ttl)
    omega
  · intro hle
    exact ⟨fun _ => Nat.add_le_add_left hle now, h.mono fun _ _ hP _ => hP⟩

theorem honours_step (s : State (Stores Put)) (l : Label Command) (hI : ServerTimely s)
    (hs : (redisCache Put ttl keyPrefix).HonoursTtl s) :
    (redisCache Put ttl keyPrefix).HonoursTtl ((redisCache Put ttl keyPrefix).step s l) ↔ AsksDefault ttl l := by
  rw [honoursTtl_iff_fallback (serverTimely_step s l hI)]
  rw [honoursTtl_iff_fallback hI] at hs
  cases l with
  | set key value c => exact (honours_insert hs).trans (iff_true_intro (le_max_left ttl second))
  | setWithTtl key value d c => exact honours_insert hs
  | delete key c => exact iff_of_true (Store.holds_remove.mpr (hs.mono fun _ _ hP _ => hP)) trivial
  | wait d => exact iff_of_true (hs.mono fun _ e hP hlive => hP ((Nat.le_add_right _ d).trans hlive)) trivial
  | evict key => exact iff_of_true (Store.holds_remove.mpr (hs.mono fun _ _ hP _ => hP)) trivial

/-- Throughout a sequence of calls, with any commands failing and any delays, no `get` returns a value past `max(ttl, 1
second)` exactly when no `set_with_ttl` asks for less than the default lifetime. -/
theorem honoursTtl_iff (ttl : Nat) (keyPrefix : Text) (ls : List (Label Command)) :
    (redisCache Put ttl keyPrefix).machine.Always (redisCache Put ttl keyPrefix).HonoursTtl
        (redisCache Put ttl keyPrefix).machine.init ls ↔
      ∀ key value d c, .setWithTtl key value d c ∈ ls → ttl ≤ max d second := by
  have hinit : ServerTimely (redisCache Put ttl keyPrefix).machine.init := Store.holds_empty
  rw [Machine.always_iff_guarded (I := ServerTimely) (G := fun _ l => AsksDefault ttl l),
    Machine.guarded_label_iff fun _ _ => ⟨_, rfl⟩]
  · constructor
    · intro h key value d c hl
      exact h _ hl
    · intro h l hl
      cases l with
      | setWithTtl key value d c => exact h key value d c hl
      | _ => trivial
  · intro s l t h ht
    cases ht
    exact serverTimely_step s l h
  · intro s l t hI hs ht
    cases ht
    exact honours_step s l hI hs
  · exact hinit
  · exact (honoursTtl_iff_fallback hinit).mpr Store.holds_empty

theorem get_failed_setWithTtl (r : RedisCache) (s : Stores Put) (now : Nat) (key : Text) (put : Put) (d : Nat)
    (c : Command) {later : Nat} (h : later ≤ now + r.fallbackTtl) :
    r.get (r.setWithTtl s now key put d c) later key .failed = some put :=
  Store.get_iff.mpr ⟨_, Store.entry_insert_self .., h, rfl⟩

/-- An entry asked to live for half a minute under a default of five is read from the fallback a second too late. -/
theorem reads_expired_entry : ¬ ∀ (ttl : Nat) (keyPrefix : Text) (ls : List (Label Command)),
    (redisCache Put ttl keyPrefix).machine.Always (redisCache Put ttl keyPrefix).HonoursTtl
      (redisCache Put ttl keyPrefix).machine.init ls := by
  have hlate : ∀ keyPrefix key value : Text,
      ¬ (redisCache Put (300 * second) keyPrefix).machine.Always (redisCache Put (300 * second) keyPrefix).HonoursTtl
        (redisCache Put (300 * second) keyPrefix).machine.init [.setWithTtl key value (30 * second) .ok] := by
    intro keyPrefix key value h
    have hget := get_failed_setWithTtl (fromSentinel (300 * second) keyPrefix) ⟨.empty, .empty⟩ 0 key
      ⟨value, 30 * second, 0⟩ (30 * second) .ok (show 0 + 31 * second ≤ 0 + 300 * second by decide)
    have hread : 0 + 31 * second ≤ 0 + max (30 * second) second := h.2 _ rfl (31 * second) key .failed _ hget
    exact absurd hread (by decide)
  intro h
  exact hlate "hr".toList "library/nginx:latest".toList "__NEGATIVE__".toList (h _ _ _)

/-! ## The latest write -/

def FallbackLatest (s : State (Stores Put)) : Prop := s.cache.fallback.Holds fun key e => s.ledger key = some e.value

/-- What the server can still be asked for is the latest write. -/
def ServerLatest (r : RedisCache) (server : Store Text Put) (now : Nat) (ledger : Text → Option Put) : Prop :=
  ∀ key put, server.get now (r.prefixed key) = some put → (ledger key).map Put.value = some put.value

/-- A command that fails leaves the server without another value of its key. -/
def LosesNothing (r : RedisCache) (s : State (Stores Put)) : Label Command → Prop
  | .set key value .failed | .setWithTtl key value _ .failed =>
      ∀ put, s.cache.server.get s.now (r.prefixed key) = some put → put.value = value
  | .delete key .failed => s.cache.server.get s.now (r.prefixed key) = none
  | _ => True

theorem fallbackLatest_insert {st : Store Text Put} {ledger : Text → Option Put} {now d : Nat} {key : Text}
    (put : Put) (h : st.Holds fun j e => ledger j = some e.value) :
    (st.insert now key put d).Holds fun j e => Function.update ledger key (some put) j = some e.value := by
  refine Store.holds_insert.mpr ⟨Function.update_self .., ?_⟩
  intro j e he hj
  rw [Function.update_of_ne hj]
  exact h j e he

theorem fallbackLatest_step (s : State (Stores Put)) (l : Label Command) (h : FallbackLatest s) :
    FallbackLatest ((redisCache Put ttl keyPrefix).step s l) := by
  cases l with
  | set key value c => exact fallbackLatest_insert _ h
  | setWithTtl key value d c => exact fallbackLatest_insert _ h
  | delete key c =>
      refine Store.holds_remove.mpr fun j e he hj => ?_
      show Function.update s.ledger key none j = some e.value
      rw [Function.update_of_ne hj]
      exact h j e he
  | wait d => exact h
  | evict key => exact Store.holds_remove.mpr (h.mono fun _ _ hP _ => hP)

/-- Only the server can answer with anything but the latest write. -/
theorem readsLatest_iff_server {s : State (Stores Put)} (h : FallbackLatest s) :
    (redisCache Put ttl keyPrefix).ReadsLatest s ↔
      ServerLatest (fromSentinel ttl keyPrefix) s.cache.server s.now s.ledger := by
  have hfallback : ∀ key put, s.cache.fallback.get s.now key = some put →
      (s.ledger key).map Put.value = some put.value := by
    intro key put hget
    obtain ⟨e, he, -, rfl⟩ := Store.get_iff.mp hget
    rw [h key e he, Option.map_some]
  constructor
  · intro hs key put hget
    exact hs key .ok put hget
  · intro hs key c put hget
    cases c with
    | ok => exact hs key put hget
    | failed => exact hfallback key put hget
    | lost => exact hfallback key put hget

theorem serverLatest_update {r : RedisCache} {server server' : Store Text Put} {now : Nat} {key : Text}
    {ledger : Text → Option Put} {new : Option Put} (hs : ServerLatest r server now ledger)
    (hne : ∀ j ≠ key, server'.get now (r.prefixed j) = server.get now (r.prefixed j)) :
    ServerLatest r server' now (Function.update ledger key new) ↔
      ∀ put, server'.get now (r.prefixed key) = some put → new.map Put.value = some put.value := by
  unfold ServerLatest
  rw [Function.forall_update_iff ledger
    (fun j latest => ∀ put, server'.get now (r.prefixed j) = some put → latest.map Put.value = some put.value)]
  apply and_iff_left
  intro j hj put hput
  rw [hne j hj] at hput
  exact hs j put hput

theorem serverLatest_setEx {r : RedisCache} {server : Store Text Put} {now secs : Nat} {key : Text} {put : Put}
    {ledger : Text → Option Put} (hs : ServerLatest r server now ledger) (c : Command) :
    ServerLatest r (r.setEx server now key put secs c) now (Function.update ledger key (some put)) ↔
      (c = .failed → ∀ p, server.get now (r.prefixed key) = some p → p.value = put.value) := by
  have hinsert : ServerLatest r (server.insert now (r.prefixed key) put (secs * second)) now
      (Function.update ledger key (some put)) := by
    apply (serverLatest_update hs fun j hj => Store.get_insert_of_ne _ _ _ _ _ (r.prefixed_ne hj)).mpr
    intro p hp
    rw [Store.get_insert_self] at hp
    cases hp
    rfl
  cases c with
  | failed =>
      show ServerLatest r server now _ ↔ _
      rw [serverLatest_update hs fun _ _ => rfl]
      simp only [Option.map_some, Option.some.injEq, eq_comm, forall_const]
  | ok => exact iff_of_true hinsert nofun
  | lost => exact iff_of_true hinsert nofun

theorem serverLatest_del {r : RedisCache} {server : Store Text Put} {now : Nat} {key : Text}
    {ledger : Text → Option Put} (hs : ServerLatest r server now ledger) (c : Command) :
    ServerLatest r (r.del server key c) now (Function.update ledger key none) ↔
      (c = .failed → server.get now (r.prefixed key) = none) := by
  have hremove : ServerLatest r (server.remove (r.prefixed key)) now (Function.update ledger key none) := by
    apply (serverLatest_update hs fun j hj => Store.get_remove_of_ne _ _ (r.prefixed_ne hj)).mpr
    intro p hp
    rw [Store.get_remove_self] at hp
    cases hp
  cases c with
  | failed =>
      show ServerLatest r server now _ ↔ _
      rw [serverLatest_update hs fun _ _ => rfl, Option.eq_none_iff_forall_ne_some]
      simp only [Option.map_none, reduceCtorEq, imp_false, forall_const, ne_eq]
  | ok => exact iff_of_true hremove nofun
  | lost => exact iff_of_true hremove nofun

theorem latest_step (s : State (Stores Put)) (l : Label Command) (hI : FallbackLatest s)
    (hs : (redisCache Put ttl keyPrefix).ReadsLatest s) :
    (redisCache Put ttl keyPrefix).ReadsLatest ((redisCache Put ttl keyPrefix).step s l) ↔
      LosesNothing (fromSentinel ttl keyPrefix) s l := by
  rw [readsLatest_iff_server (fallbackLatest_step s l hI)]
  rw [readsLatest_iff_server hI] at hs
  cases l with
  | set key value c =>
      apply (serverLatest_setEx hs c).trans
      cases c <;> simp [LosesNothing]
  | setWithTtl key value d c =>
      apply (serverLatest_setEx hs c).trans
      cases c <;> simp [LosesNothing]
  | delete key c =>
      apply (serverLatest_del hs c).trans
      cases c <;> simp [LosesNothing]
  | wait d =>
      apply iff_of_true _ trivial
      intro key put hget
      exact hs key put (Store.get_earlier hget (Nat.le_add_right s.now d))
  | evict key => exact iff_of_true hs trivial

/-- Throughout a sequence of calls, with any commands failing and any delays, every `get` returns nothing or the value
of the latest write that no deletion followed, exactly when no command fails while the server still holds another value
of its key. -/
theorem readsLatest_iff (ttl : Nat) (keyPrefix : Text) (ls : List (Label Command)) :
    (redisCache Put ttl keyPrefix).machine.Always (redisCache Put ttl keyPrefix).ReadsLatest
        (redisCache Put ttl keyPrefix).machine.init ls ↔
      (redisCache Put ttl keyPrefix).machine.Guarded (LosesNothing (fromSentinel ttl keyPrefix))
        (redisCache Put ttl keyPrefix).machine.init ls := by
  have hinit : FallbackLatest (redisCache Put ttl keyPrefix).machine.init := Store.holds_empty
  apply Machine.always_iff_guarded (I := FallbackLatest)
  · intro s l t h ht
    cases ht
    exact fallbackLatest_step s l h
  · intro s l t hI hs ht
    cases ht
    exact latest_step s l hI hs
  · exact hinit
  · apply (readsLatest_iff_server hinit).mpr
    intro key put hget
    obtain ⟨e, he, -, -⟩ := Store.get_iff.mp hget
    cases he

/-- A deletion that fails at the server: the next `get` that it answers returns what was deleted. -/
theorem reads_deleted_value : ¬ ∀ (ttl : Nat) (keyPrefix : Text) (ls : List (Label Command)),
    (redisCache Put ttl keyPrefix).machine.Always (redisCache Put ttl keyPrefix).ReadsLatest
      (redisCache Put ttl keyPrefix).machine.init ls := by
  have hback : ∀ keyPrefix key value : Text,
      ¬ (redisCache Put (300 * second) keyPrefix).machine.Always (redisCache Put (300 * second) keyPrefix).ReadsLatest
        (redisCache Put (300 * second) keyPrefix).machine.init [.set key value .ok, .delete key .failed] := by
    intro keyPrefix key value h
    have hget : (Store.empty.insert 0 ((fromSentinel (300 * second) keyPrefix).prefixed key)
        (⟨value, 300 * second, 0⟩ : Put) (300 * second)).get 0 ((fromSentinel (300 * second) keyPrefix).prefixed key) =
          some ⟨value, 300 * second, 0⟩ := Store.get_insert_self ..
    have hread := (h.2 _ rfl).2 _ rfl key .ok _ hget
    simp [CacheBackend.step] at hread
  intro h
  exact hback "hr".toList "library/nginx:latest".toList "dockerhub".toList (h _ _ _)

end RedisCache
end HarborRouter
