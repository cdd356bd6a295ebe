import HarborRouter.Lib.Expiring
import HarborRouter.Lib.Machine
import HarborRouter.Lib.Text

/-!
# The cache backends and what is asked of them

`CacheBackend` is the trait of `cache.rs`, `MokaCache` its in-memory implementation. A backend never looks at the
values it stores, so their type is a parameter: the texts of the source, or texts with the write they come from.
`C` is what the surroundings decide about a call.

* `CacheBackend.machine` : one backend under any sequence of calls, delays and evictions, with a ledger of the
  latest write of each key;
* `HonoursTtl`, `ReadsLatest` : the two promises of a backend;
* `MokaCache.honoursTtl`, `MokaCache.readsLatest` : the in-memory backend keeps both.
-/

namespace HarborRouter
open Lib

/-- Durations and moments are counted in nanoseconds. -/
def second : Nat := 1000000000

structure CacheBackend (S V C : Type) where
  init : S
  /-- The lifetime `set` asks for. -/
  defaultTtl : Nat
  get : S → Nat → Text → C → Option V
  set : S → Nat → Text → V → C → S
  setWithTtl : S → Nat → Text → V → Nat → C → S
  delete : S → Text → C → S
  /-- An entry leaves the in-memory store because its capacity is reached. -/
  evict : S → Text → S

/-- A write as its caller asked for it. -/
structure Put where
  value : Text
  ttl : Nat
  written : Nat
  deriving DecidableEq

/-- The last moment at which a reader may be given the value. -/
def Put.deadline (p : Put) : Nat := p.written + max p.ttl second

namespace CacheBackend

/-- A backend in use; the ledger says which write of a key was the latest, if it was not deleted since. -/
structure State (S : Type) where
  cache : S
  now : Nat
  ledger : Text → Option Put

inductive Label (C : Type)
  | set (key value : Text) (c : C)
  | setWithTtl (key value : Text) (ttl : Nat) (c : C)
  | delete (key : Text) (c : C)
  | wait (d : Nat)
  | evict (key : Text)

variable {S C : Type} (B : CacheBackend S Put C)

def step (s : State S) : Label C → State S
  | .set key value c =>
      let put : Put := ⟨value, B.defaultTtl, s.now⟩
      { s with cache := B.set s.cache s.now key put c, ledger := Function.update s.ledger key (some put) }
  | .setWithTtl key value ttl c =>
      let put : Put := ⟨value, ttl, s.now⟩
      { s with cache := B.setWithTtl s.cache s.now key put ttl c, ledger := Function.update s.ledger key (some put) }
  | .delete key c =>
      { s with cache := B.delete s.cache key c, ledger := Function.update s.ledger key none }
  | .wait d => { s with now := s.now + d }
  | .evict key => { s with cache := B.evict s.cache key }

def machine : Machine (State S) (Label C) := ⟨⟨B.init, 0, fun _ => none⟩, fun s l => some (B.step s l)⟩

/-- No `get`, now or after any delay, returns a value past the lifetime its writer asked for. -/
def HonoursTtl (s : State S) : Prop :=
  ∀ d key c put, B.get s.cache (s.now + d) key c = some put → s.now + d ≤ put.deadline

/-- Every `get` returns nothing or the value of the latest write that no deletion followed. -/
def ReadsLatest (s : State S) : Prop :=
  ∀ key c put, B.get s.cache s.now key c = some put → (s.ledger key).map Put.value = some put.value

end CacheBackend

/-! ## The in-memory backend -/

def mokaCache (V : Type) (ttl : Nat) : CacheBackend (Store Text V) V Unit where
  init := .empty
  defaultTtl := ttl
  get inner now key _ := inner.get now key
  set inner now key value _ := inner.insert now key value ttl
  setWithTtl inner now key value ttl _ := inner.insert now key value ttl
  delete inner key _ := inner.remove key
  evict inner key := inner.remove key

namespace MokaCache
open CacheBackend

/-- Every entry is the latest write of its key and expires when its writer asked. -/
def Faithful (s : State (Store Text Put)) : Prop :=
  s.cache.Holds fun key e =>
    s.ledger key = some e.value ∧ e.stored = e.value.written ∧ e.ttl = e.value.ttl

theorem faithful_step (ttl : Nat) (s : State (Store Text Put)) (l : Label Unit) (h : Faithful s) :
    Faithful ((mokaCache Put ttl).step s l) := by
  -- a write or a deletion of one key changes the entry and the ledger of that key only
  have hframe : ∀ key (new : Option Put), s.cache.Holds fun j e => j ≠ key →
      Function.update s.ledger key new j = some e.value ∧ e.stored = e.value.written ∧ e.ttl = e.value.ttl := by
    intro key new j e he hj
    rw [Function.update_of_ne hj]
    exact h j e he
  cases l with
  | set key value c => exact Store.holds_insert.mpr ⟨⟨Function.update_self .., rfl, rfl⟩, hframe key _⟩
  | setWithTtl key value ttl c => exact Store.holds_insert.mpr ⟨⟨Function.update_self .., rfl, rfl⟩, hframe key _⟩
  | delete key c => exact Store.holds_remove.mpr (hframe key none)
  | wait d => exact h
  | evict key => exact Store.holds_remove.mpr fun j e he _ => h j e he

theorem faithful_reachable (ttl : Nat) {s : State (Store Text Put)} (hs : (mokaCache Put ttl).machine.Reachable s) :
    Faithful s := by
  apply hs.rule
  · exact Store.holds_empty
  · intro s l t h ht
    cases ht
    exact faithful_step ttl s l h

theorem honoursTtl (ttl : Nat) {s : State (Store Text Put)} (hs : (mokaCache Put ttl).machine.Reachable s) :
    (mokaCache Put ttl).HonoursTtl s := by
  intro d key c put hget
  obtain ⟨e, he, hlive, rfl⟩ := Store.get_iff.mp hget
  obtain ⟨-, hstored, httl⟩ := faithful_reachable ttl hs key e he
  have hlive : s.now + d ≤ e.stored + e.ttl := hlive
  unfold Put.deadline
  omega

theorem readsLatest (ttl : Nat) {s : State (Store Text Put)} (hs : (mokaCache Put ttl).machine.Reachable s) :
    (mokaCache Put ttl).ReadsLatest s := by
  intro key c put hget
  obtain ⟨e, he, -, rfl⟩ := Store.get_iff.mp hget
  rw [(faithful_reachable ttl hs key e he).1, Option.map_some]

end MokaCache
end HarborRouter
