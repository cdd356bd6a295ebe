import Mathlib.Data.Finset.Basic
import Mathlib.Tactic.Common

/-!
# Watch channels

A single-slot channel with many senders and many receivers: it keeps the latest value and a version that counts
the stored values. `S` names the live senders and `R` the live receivers; a receiver remembers by itself the
version it has last seen.

* `send` stores the value only if some receiver is alive, and drops it otherwise;
* `changed` answers a receiver that waits: `ready` once the version moved, `closed` once no sender is left,
  `pending` otherwise.
-/

namespace Lib

/-- A watch channel: the value, the number of values stored so far, and who holds its two ends. -/
structure Watch (S R V : Type*) where
  value : V
  version : Nat
  senders : Finset S
  receivers : Finset R

namespace Watch
variable {S R V : Type*} (w : Watch S R V) (v : V) (a : S) (r : R)

/-- What a receiver that waits for a change finds. -/
inductive Poll
  | ready
  | closed
  | pending
  deriving DecidableEq, Repr

/-- A new channel whose first receiver has been dropped already. -/
def channel (v : V) (senders : Finset S) : Watch S R V := ⟨v, 0, senders, ∅⟩

@[simp] theorem value_channel (A : Finset S) : (channel v A : Watch S R V).value = v := rfl
@[simp] theorem version_channel (A : Finset S) : (channel v A : Watch S R V).version = 0 := rfl
@[simp] theorem receivers_channel (A : Finset S) : (channel v A : Watch S R V).receivers = ∅ := rfl

section Senders
variable [DecidableEq S]

def cloneSender (w : Watch S R V) (a : S) : Watch S R V := { w with senders := insert a w.senders }

def dropSender (w : Watch S R V) (a : S) : Watch S R V := { w with senders := w.senders.erase a }

/-- What a receiver that has seen version `seen` gets when it waits for a change. -/
def changed (w : Watch S R V) (seen : Nat) : Poll :=
  if w.version ≠ seen then .ready else if w.senders = ∅ then .closed else .pending

@[simp] theorem value_cloneSender : (w.cloneSender a).value = w.value := rfl
@[simp] theorem version_cloneSender : (w.cloneSender a).version = w.version := rfl
@[simp] theorem receivers_cloneSender : (w.cloneSender a).receivers = w.receivers := rfl

@[simp] theorem value_dropSender : (w.dropSender a).value = w.value := rfl
@[simp] theorem version_dropSender : (w.dropSender a).version = w.version := rfl
@[simp] theorem receivers_dropSender : (w.dropSender a).receivers = w.receivers := rfl

variable {w} in
theorem changed_eq_ready {seen : Nat} : w.changed seen = .ready ↔ w.version ≠ seen := by
  unfold changed
  split
  · simp_all
  · split <;> simp_all

end Senders

section Receivers
variable [DecidableEq R]

def send (w : Watch S R V) (v : V) : Watch S R V :=
  if w.receivers = ∅ then w else { w with value := v, version := w.version + 1 }

def subscribe (w : Watch S R V) (r : R) : Watch S R V := { w with receivers := insert r w.receivers }

def dropReceiver (w : Watch S R V) (r : R) : Watch S R V := { w with receivers := w.receivers.erase r }

@[simp] theorem value_subscribe : (w.subscribe r).value = w.value := rfl
@[simp] theorem version_subscribe : (w.subscribe r).version = w.version := rfl
@[simp] theorem receivers_subscribe : (w.subscribe r).receivers = insert r w.receivers := rfl

@[simp] theorem value_dropReceiver : (w.dropReceiver r).value = w.value := rfl
@[simp] theorem version_dropReceiver : (w.dropReceiver r).version = w.version := rfl
@[simp] theorem receivers_dropReceiver : (w.dropReceiver r).receivers = w.receivers.erase r := rfl

@[simp] theorem receivers_send : (w.send v).receivers = w.receivers := by
  unfold send; split <;> rfl

@[simp] theorem senders_send : (w.send v).senders = w.senders := by
  unfold send; split <;> rfl

variable {w}

theorem send_of_no_receiver (h : w.receivers = ∅) (v : V) : w.send v = w := if_pos h

theorem value_send (h : w.receivers ≠ ∅) (v : V) : (w.send v).value = v := by
  rw [send, if_neg h]

theorem version_send (h : w.receivers ≠ ∅) (v : V) :
    (w.send v).version = w.version + 1 := by
  rw [send, if_neg h]

end Receivers

end Watch
end Lib
