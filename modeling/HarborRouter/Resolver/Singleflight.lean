import HarborRouter.Lib.Machine
import HarborRouter.Lib.Watch
import Mathlib.Logic.Function.Basic

/-!
# `singleflight`, one atomic step at a time

The calls of `Resolver::singleflight` as a machine: `flights` is the `DashMap`, every flight has a watch channel,
and every call stands at a `Phase`. A step is one access to the shared state, or one await that returns:

* `enter` looks the key up under the map's lock: the first call of a key inserts a flight and leads it, a later one
  clones the flight's sender and follows;
* the leader goes `looked` (`parallel_lookup` returned), `send`, `remove`;
* a follower goes `subscribe`, `borrow`, then `wake`, `close` or `time` out, then `read`;
* `drop` is the caller's future dropped at one of the two awaits.

`K` is the type of keys and `R` the type of outcomes that a flight publishes.
-/

namespace HarborRouter
open Lib

abbrev CallId := Nat

/-- A flight is named by the number of flights created before it. -/
abbrev FlightId := Nat

namespace Singleflight

/-- Who holds a sender of a flight's channel: the `Flight` in the map, or a call's local `tx`. -/
inductive Holder
  | map
  | call (i : CallId)
  deriving DecidableEq, Repr

inductive FlightEnd (R : Type)
  | received (r : R)
  | timedOut
  | leaderDropped
  | emptyResult
  deriving DecidableEq

inductive Phase (K R : Type)
  | outside
  /-- the leader awaits `parallel_lookup` -/
  | leading (k : K) (f : FlightId)
  /-- the leader is about to `tx.send` -/
  | publishing (k : K) (f : FlightId) (r : R)
  /-- the leader is about to `flights.remove` -/
  | removing (k : K) (f : FlightId) (r : R)
  /-- the follower holds a clone of `tx` and no receiver yet -/
  | joined (k : K) (f : FlightId)
  /-- the follower is about to `rx.borrow_and_update` -/
  | subscribed (k : K) (f : FlightId)
  /-- the follower awaits `rx.changed()`, having seen version `seen` -/
  | waiting (k : K) (f : FlightId) (seen : Nat)
  /-- `changed` returned; the follower is about to `rx.borrow` -/
  | woken (k : K) (f : FlightId)
  | led (k : K) (f : FlightId) (r : R)
  | followed (k : K) (f : FlightId) (e : FlightEnd R)
  | cancelled
  deriving DecidableEq

structure State (K R : Type) where
  flights : K → Option FlightId
  chan : FlightId → Watch Holder CallId (Option R)
  next : FlightId
  phase : CallId → Phase K R

inductive Action (K R : Type)
  | enter (k : K)
  | looked (r : R)
  | send
  | remove
  | subscribe
  | borrow
  | wake
  | close
  | time
  | read
  | drop
  deriving DecidableEq

structure Label (K R : Type) where
  call : CallId
  act : Action K R

variable {K R : Type}

def init : State K R where
  flights _ := none
  chan _ := .channel none ∅
  next := 0
  phase _ := .outside

namespace State
variable (s : State K R) (i : CallId)

def setPhase (p : Phase K R) : State K R := { s with phase := Function.update s.phase i p }

def setChan (f : FlightId) (w : Watch Holder CallId (Option R)) : State K R :=
  { s with chan := Function.update s.chan f w }

/-- `Entry::Occupied`: the follower clones the flight's sender. -/
def join (k : K) (f : FlightId) : State K R :=
  (s.setChan f ((s.chan f).cloneSender (.call i))).setPhase i (.joined k f)

/-- The call leaves `singleflight`: its sender and its receiver are dropped. -/
def leave (f : FlightId) (p : Phase K R) : State K R :=
  (s.setChan f (((s.chan f).dropReceiver i).dropSender (.call i))).setPhase i p

variable [DecidableEq K]

/-- `Entry::Vacant`: a new channel, its sender in the map and in the leader's hands. -/
def lead (k : K) : State K R :=
  { flights := Function.update s.flights k (some s.next)
    chan := Function.update s.chan s.next (.channel none {.map, .call i})
    next := s.next + 1
    phase := Function.update s.phase i (.leading k s.next) }

/-- `flights.remove(&key)`: whatever flight is there goes, and its sender with it. -/
def removeKey (k : K) : State K R :=
  match s.flights k with
  | none => s
  | some f => { s.setChan f ((s.chan f).dropSender .map) with flights := Function.update s.flights k none }

end State

open State

section Frame
variable (s : State K R) (i j : CallId) (k : K) (f : FlightId) (p : Phase K R) (w : Watch Holder CallId (Option R))

@[simp] theorem chan_setPhase : (s.setPhase i p).chan = s.chan := rfl
@[simp] theorem phase_setPhase : (s.setPhase i p).phase = Function.update s.phase i p := rfl

@[simp] theorem chan_setChan : (s.setChan f w).chan = Function.update s.chan f w := rfl
@[simp] theorem phase_setChan : (s.setChan f w).phase = s.phase := rfl

@[simp] theorem flights_leave : (s.leave i f p).flights = s.flights := rfl
@[simp] theorem next_leave : (s.leave i f p).next = s.next := rfl
@[simp] theorem phase_leave : (s.leave i f p).phase = Function.update s.phase i p := rfl

@[simp] theorem phase_join : (s.join i k f).phase = Function.update s.phase i (.joined k f) := rfl

variable (g : FlightId)

theorem chan_leave : (s.leave i f p).chan g =
    if g = f then ((s.chan f).dropReceiver i).dropSender (.call i) else s.chan g := by
  simp only [leave, chan_setPhase, chan_setChan, Function.update_apply]

theorem chan_join : (s.join i k f).chan g = if g = f then (s.chan f).cloneSender (.call i) else s.chan g := by
  simp only [join, chan_setPhase, chan_setChan, Function.update_apply]

@[simp] theorem value_leave : ((s.leave i f p).chan g).value = (s.chan g).value := by
  rw [chan_leave]; split <;> simp_all

@[simp] theorem version_leave : ((s.leave i f p).chan g).version = (s.chan g).version := by
  rw [chan_leave]; split <;> simp_all

@[simp] theorem receivers_leave : ((s.leave i f p).chan g).receivers =
    if g = f then (s.chan g).receivers.erase i else (s.chan g).receivers := by
  rw [chan_leave]; split <;> simp_all

@[simp] theorem value_join : ((s.join i k f).chan g).value = (s.chan g).value := by
  rw [chan_join]; split <;> simp_all

@[simp] theorem version_join : ((s.join i k f).chan g).version = (s.chan g).version := by
  rw [chan_join]; split <;> simp_all

@[simp] theorem receivers_join : ((s.join i k f).chan g).receivers = (s.chan g).receivers := by
  rw [chan_join]; split <;> simp_all

variable [DecidableEq K]

@[simp] theorem flights_lead : (s.lead i k).flights = Function.update s.flights k (some s.next) := rfl
@[simp] theorem chan_lead :
    (s.lead i k).chan = Function.update s.chan s.next (.channel none {.map, .call i}) := rfl
@[simp] theorem next_lead : (s.lead i k).next = s.next + 1 := rfl
@[simp] theorem phase_lead : (s.lead i k).phase = Function.update s.phase i (.leading k s.next) := rfl

@[simp] theorem next_removeKey : (s.removeKey k).next = s.next := by
  unfold removeKey; split <;> rfl

@[simp] theorem phase_removeKey : (s.removeKey k).phase = s.phase := by
  unfold removeKey; split <;> rfl

@[simp] theorem flights_removeKey : (s.removeKey k).flights = Function.update s.flights k none := by
  unfold removeKey
  split
  · rename_i h; rw [← h, Function.update_eq_self]
  · rfl

theorem chan_removeKey : (s.removeKey k).chan g =
    if s.flights k = some g then (s.chan g).dropSender .map else s.chan g := by
  unfold removeKey
  split
  · simp_all
  · rename_i f h
    simp only [chan_setChan, Function.update_apply, h, Option.some.injEq, eq_comm (a := g)]
    split
    · rename_i e; rw [e]
    · rfl

@[simp] theorem value_removeKey : ((s.removeKey k).chan g).value = (s.chan g).value := by
  rw [chan_removeKey]; split <;> rfl

@[simp] theorem version_removeKey : ((s.removeKey k).chan g).version = (s.chan g).version := by
  rw [chan_removeKey]; split <;> rfl

@[simp] theorem receivers_removeKey : ((s.removeKey k).chan g).receivers = (s.chan g).receivers := by
  rw [chan_removeKey]; split <;> rfl

end Frame

variable [DecidableEq K]

def step (s : State K R) (l : Label K R) : Option (State K R) :=
  match s.phase l.call, l.act with
  | .outside, .enter k =>
      match s.flights k with
      | none => some (s.lead l.call k)
      | some f => some (s.join l.call k f)
  | .leading k f, .looked r => some (s.setPhase l.call (.publishing k f r))
  | .publishing k f r, .send =>
      some ((s.setChan f ((s.chan f).send (some r))).setPhase l.call (.removing k f r))
  | .removing k f r, .remove => some ((s.removeKey k).leave l.call f (.led k f r))
  | .joined k f, .subscribe =>
      some ((s.setChan f ((s.chan f).subscribe l.call)).setPhase l.call (.subscribed k f))
  | .subscribed k f, .borrow =>
      match (s.chan f).value with
      | some r => some (s.leave l.call f (.followed k f (.received r)))
      | none => some (s.setPhase l.call (.waiting k f (s.chan f).version))
  | .waiting k f seen, .wake =>
      if (s.chan f).changed seen = .ready then some (s.setPhase l.call (.woken k f)) else none
  | .waiting k f seen, .close =>
      if (s.chan f).changed seen = .closed then some (s.leave l.call f (.followed k f .leaderDropped)) else none
  | .waiting k f seen, .time =>
      if (s.chan f).changed seen = .pending then some (s.leave l.call f (.followed k f .timedOut)) else none
  | .woken k f, .read =>
      match (s.chan f).value with
      | some r => some (s.leave l.call f (.followed k f (.received r)))
      | none => some (s.leave l.call f (.followed k f .emptyResult))
  | .leading _ f, .drop => some (s.leave l.call f .cancelled)
  | .waiting _ f _, .drop => some (s.leave l.call f .cancelled)
  | _, _ => none

def machine (K R : Type) [DecidableEq K] : Machine (State K R) (Label K R) := ⟨init, step⟩

/-! ## The steps -/

inductive Stepped (s : State K R) (i : CallId) : Action K R → State K R → Prop
  | lead (k : K) (hp : s.phase i = .outside) (hk : s.flights k = none) : Stepped s i (.enter k) (s.lead i k)
  | join (k : K) (f : FlightId) (hp : s.phase i = .outside) (hk : s.flights k = some f) :
      Stepped s i (.enter k) (s.join i k f)
  | looked (k : K) (f : FlightId) (r : R) (hp : s.phase i = .leading k f) :
      Stepped s i (.looked r) (s.setPhase i (.publishing k f r))
  | send (k : K) (f : FlightId) (r : R) (hp : s.phase i = .publishing k f r) :
      Stepped s i .send ((s.setChan f ((s.chan f).send (some r))).setPhase i (.removing k f r))
  | remove (k : K) (f : FlightId) (r : R) (hp : s.phase i = .removing k f r) :
      Stepped s i .remove ((s.removeKey k).leave i f (.led k f r))
  | subscribe (k : K) (f : FlightId) (hp : s.phase i = .joined k f) :
      Stepped s i .subscribe ((s.setChan f ((s.chan f).subscribe i)).setPhase i (.subscribed k f))
  | found (k : K) (f : FlightId) (r : R) (hp : s.phase i = .subscribed k f) (hv : (s.chan f).value = some r) :
      Stepped s i .borrow (s.leave i f (.followed k f (.received r)))
  | wait (k : K) (f : FlightId) (hp : s.phase i = .subscribed k f) (hv : (s.chan f).value = none) :
      Stepped s i .borrow (s.setPhase i (.waiting k f (s.chan f).version))
  | wake (k : K) (f : FlightId) (seen : Nat) (hp : s.phase i = .waiting k f seen)
      (hc : (s.chan f).changed seen = .ready) : Stepped s i .wake (s.setPhase i (.woken k f))
  | close (k : K) (f : FlightId) (seen : Nat) (hp : s.phase i = .waiting k f seen)
      (hc : (s.chan f).changed seen = .closed) : Stepped s i .close (s.leave i f (.followed k f .leaderDropped))
  | time (k : K) (f : FlightId) (seen : Nat) (hp : s.phase i = .waiting k f seen)
      (hc : (s.chan f).changed seen = .pending) : Stepped s i .time (s.leave i f (.followed k f .timedOut))
  | read (k : K) (f : FlightId) (r : R) (hp : s.phase i = .woken k f) (hv : (s.chan f).value = some r) :
      Stepped s i .read (s.leave i f (.followed k f (.received r)))
  | readEmpty (k : K) (f : FlightId) (hp : s.phase i = .woken k f) (hv : (s.chan f).value = none) :
      Stepped s i .read (s.leave i f (.followed k f .emptyResult))
  | dropLeader (k : K) (f : FlightId) (hp : s.phase i = .leading k f) : Stepped s i .drop (s.leave i f .cancelled)
  | dropFollower (k : K) (f : FlightId) (seen : Nat) (hp : s.phase i = .waiting k f seen) :
      Stepped s i .drop (s.leave i f .cancelled)

theorem step_cases {s t : State K R} {l : Label K R} (h : step s l = some t) : Stepped s l.call l.act t := by
  obtain ⟨i, a⟩ := l
  unfold step at h
  dsimp only at h ⊢
  split at h
  · split at h <;> cases h
    · exact .lead _ ‹_› ‹_›
    · exact .join _ _ ‹_› ‹_›
  · cases h; exact .looked _ _ _ ‹_›
  · cases h; exact .send _ _ _ ‹_›
  · cases h; exact .remove _ _ _ ‹_›
  · cases h; exact .subscribe _ _ ‹_›
  · split at h <;> cases h
    · exact .found _ _ _ ‹_› ‹_›
    · exact .wait _ _ ‹_› ‹_›
  · split at h <;> cases h
    exact .wake _ _ _ ‹_› ‹_›
  · split at h <;> cases h
    exact .close _ _ _ ‹_› ‹_›
  · split at h <;> cases h
    exact .time _ _ _ ‹_› ‹_›
  · split at h <;> cases h
    · exact .read _ _ _ ‹_› ‹_›
    · exact .readEmpty _ _ ‹_› ‹_›
  · cases h; exact .dropLeader _ _ ‹_›
  · cases h; exact .dropFollower _ _ _ ‹_›
  · cases h

end Singleflight
end HarborRouter
