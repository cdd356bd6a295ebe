import HarborRouter.Lib.Text

/-!
# Cache values

A cached project is stored as its name or, with stale-while-revalidate, as `project|timestamp`; a miss is stored as
the negative sentinel.

* `decode_encode_iff` : a name is read back from its encoded value when it contains no `|`;
* `decode_self_iff` : and from the name alone when it does not look like an encoded value;
* `Legible` : both, for what is `stored`; any other name is `misread`.
-/

namespace HarborRouter
open Lib Text

def negativeCacheSentinel : Text := "__NEGATIVE__".toList

def encodeCacheValue (project : Text) (timestamp : Nat) : Text := project ++ "|".toList ++ decimal timestamp

def decodeCacheValue (value : Text) : Text × Option Nat :=
  if value = negativeCacheSentinel then (negativeCacheSentinel, none)
  else match splitOnce '|' value with
    | some (project, timestamp) =>
        match parseU64 timestamp with
        | some parsed => (project, some parsed)
        | none => (value, none)
    | none => (value, none)

theorem bar_notMem_sentinel : '|' ∉ negativeCacheSentinel := by decide

theorem encode_ne_sentinel (project : Text) (timestamp : Nat) :
    encodeCacheValue project timestamp ≠ negativeCacheSentinel := by
  intro h
  exact bar_notMem_sentinel (by rw [← h]; simp [encodeCacheValue])

theorem decode_encode {project : Text} {timestamp : Nat} (hbar : '|' ∉ project) (htime : timestamp < UInt64.size) :
    decodeCacheValue (encodeCacheValue project timestamp) = (project, some timestamp) := by
  have hsplit : splitOnce '|' (encodeCacheValue project timestamp) = some (project, decimal timestamp) := by
    rw [encodeCacheValue, List.append_assoc]
    exact splitOnce_append hbar
  rw [decodeCacheValue, if_neg (encode_ne_sentinel project timestamp), hsplit]
  simp only [parseU64_decimal htime]

theorem decode_raw {project : Text} (hbar : '|' ∉ project) : decodeCacheValue project = (project, none) := by
  unfold decodeCacheValue
  split
  · rename_i h; rw [h]
  · rw [splitOnce_eq_none.mpr hbar]

theorem decode_unstamped {name stamp : Text} (hname : '|' ∉ name) (hstamp : parseU64 stamp = none) :
    decodeCacheValue (name ++ '|' :: stamp) = (name ++ '|' :: stamp, none) := by
  have hne : name ++ '|' :: stamp ≠ negativeCacheSentinel := fun h =>
    bar_notMem_sentinel (by rw [← h]; simp)
  rw [decodeCacheValue, if_neg hne, splitOnce_append hname]
  simp only [hstamp]

theorem decode_stamped {name stamp : Text} {n : Nat} (hname : '|' ∉ name) (hstamp : parseU64 stamp = some n) :
    decodeCacheValue (name ++ '|' :: stamp) = (name, some n) := by
  have hne : name ++ '|' :: stamp ≠ negativeCacheSentinel := fun h =>
    bar_notMem_sentinel (by rw [← h]; simp)
  rw [decodeCacheValue, if_neg hne, splitOnce_append hname]
  simp only [hstamp]

/-- The timestamp stands after the last `|`, and is looked for after the first. -/
theorem decode_encode_of_bar {project : Text} (hbar : '|' ∈ project) (timestamp : Nat) :
    decodeCacheValue (encodeCacheValue project timestamp) = (encodeCacheValue project timestamp, none) := by
  obtain ⟨name, rest, rfl, hname⟩ := List.eq_append_cons_of_mem hbar
  have hvalue : encodeCacheValue (name ++ '|' :: rest) timestamp =
      name ++ '|' :: (rest ++ '|' :: decimal timestamp) := by
    simp [encodeCacheValue]
  rw [hvalue]
  refine decode_unstamped hname ?_
  cases hparse : parseU64 (rest ++ '|' :: decimal timestamp) with
  | none => rfl
  | some n =>
      have hchars := parseU64_chars hparse (List.mem_append_right rest List.mem_cons_self)
      exact absurd hchars (by decide)

/-- A name is read back from its encoded value exactly when it contains no `|`. -/
theorem decode_encode_iff {project : Text} {timestamp : Nat} (htime : timestamp < UInt64.size) :
    (decodeCacheValue (encodeCacheValue project timestamp)).1 = project ↔ '|' ∉ project := by
  constructor
  · intro h hbar
    rw [decode_encode_of_bar hbar] at h
    have hlength := congrArg List.length h
    simp [encodeCacheValue] at hlength
  · intro hbar
    rw [decode_encode hbar htime]

/-- A name that looks like an encoded value: what follows its first `|` parses as a timestamp. -/
def Stamped (project : Text) : Prop :=
  ∃ name stamp n, '|' ∉ name ∧ parseU64 stamp = some n ∧ project = name ++ '|' :: stamp

/-- A name is read back from itself exactly when it does not look like an encoded value. -/
theorem decode_self_iff {project : Text} : (decodeCacheValue project).1 = project ↔ ¬ Stamped project := by
  constructor
  · rintro h ⟨name, stamp, n, hname, hstamp, rfl⟩
    rw [decode_stamped hname hstamp] at h
    have hlength := congrArg List.length h
    simp at hlength
  · intro h
    by_cases hbar : '|' ∈ project
    · obtain ⟨name, stamp, rfl, hname⟩ := List.eq_append_cons_of_mem hbar
      cases hstamp : parseU64 stamp with
      | none => rw [decode_unstamped hname hstamp]
      | some n => exact absurd ⟨name, stamp, n, hname, hstamp, rfl⟩ h
    · rw [decode_raw hbar]

theorem takeWhile_bar {name stamp : Text} (hname : '|' ∉ name) : (name ++ '|' :: stamp).takeWhile (· ≠ '|') = name := by
  rw [List.takeWhile_append_of_pos fun c hc => by simpa using ne_of_mem_of_not_mem hc hname]
  simp

def stored (name : Text) : Option Nat → Text
  | none => name
  | some now => encodeCacheValue name now

def Legible (name : Text) : Option Nat → Prop
  | none => ¬ Stamped name
  | some now => '|' ∉ name ∧ now < UInt64.size

def misread (name : Text) : Option Nat → Text
  | none => name.takeWhile (· ≠ '|')
  | some now => name ++ '|' :: decimal now

theorem decode_of_legible {name : Text} {time : Option Nat} (h : Legible name time) :
    (decodeCacheValue (stored name time)).1 = name := by
  cases time with
  | none => exact decode_self_iff.mpr h
  | some now => exact (decode_encode_iff h.2).mpr h.1

theorem decode_of_not_legible {name : Text} {time : Option Nat} (h : ¬ Legible name time) :
    (decodeCacheValue (stored name time)).1 = misread name time := by
  cases time with
  | none =>
      obtain ⟨project, stamp, n, hproject, hstamp, rfl⟩ := not_not.mp h
      rw [stored, decode_stamped hproject hstamp, misread, takeWhile_bar hproject]
  | some now =>
      have hvalue : stored name (some now) = misread name (some now) := by simp [stored, misread, encodeCacheValue]
      by_cases hbar : '|' ∈ name
      · rw [stored, decode_encode_of_bar hbar]
        exact hvalue
      · have htime : parseU64 (decimal now) = none := by
          rw [parseU64_decimal_eq, if_neg fun hlt => h ⟨hbar, hlt⟩]
        rw [hvalue, misread, decode_unstamped hbar htime]

theorem decode_decode (value : Text) :
    (decodeCacheValue (decodeCacheValue value).1).1 = (decodeCacheValue value).1 := by
  by_cases h : Stamped value
  · obtain ⟨name, stamp, n, hname, hstamp, rfl⟩ := h
    rw [decode_stamped hname hstamp, decode_raw hname]
  · rw [decode_self_iff.mpr h, decode_self_iff.mpr h]

end HarborRouter
