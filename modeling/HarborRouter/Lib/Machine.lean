import Mathlib.Data.Set.Basic
import Mathlib.Tactic.Common

/-!
# Machines: labelled step functions, schedules and the rules for their runs

A machine is an initial state and a partial step function; a schedule is a list of labels, run until a label
that is not enabled. `Always P` says that every state a schedule visits satisfies `P`; `Guarded G` that every step
it takes is taken from a state and with a label related by `G`.

* `Reachable.rule` : the invariant rule;
* `always_iff_guarded` : a property that a step keeps exactly when it is guarded holds throughout a schedule
  exactly when all its steps are guarded;
* `run_cost_le`, `exists_run_to_zero` : what a potential says about the cost of runs, and how they end;
* `run_count` : how far one part has come among the others;
* `Projection` : a machine whose steps are steps of another, or leave it alone.
-/

namespace Lib

/-- A labelled transition system whose step is a partial function. -/
structure Machine (S L : Type*) where
  init : S
  step : S → L → Option S

namespace Machine
variable {S L : Type*} (M : Machine S L)

/-- The state after a schedule, if every label of it was enabled in turn. -/
def run : S → List L → Option S
  | s, [] => some s
  | s, l :: ls => (M.step s l).bind fun t => run t ls

theorem run_cons (s : S) (l : L) (ls : List L) :
    M.run s (l :: ls) = (M.step s l).bind fun t => M.run t ls := rfl

theorem run_cons_some {s t : S} {l : L} (h : M.step s l = some t) (ls : List L) :
    M.run s (l :: ls) = M.run t ls := by
  rw [run_cons, h, Option.bind_some]

theorem run_append (s : S) (ls ms : List L) :
    M.run s (ls ++ ms) = (M.run s ls).bind fun t => M.run t ms := by
  induction ls generalizing s with
  | nil => rfl
  | cons l ls ih =>
      rw [List.cons_append, run_cons, run_cons]
      cases M.step s l with
      | none => rfl
      | some t => exact ih t

theorem run_concat {s u : S} {ls : List L} {l : L} :
    M.run s (ls ++ [l]) = some u ↔ ∃ t, M.run s ls = some t ∧ M.step t l = some u := by
  rw [run_append, Option.bind_eq_some_iff]
  constructor
  · rintro ⟨t, ht, hu⟩
    refine ⟨t, ht, ?_⟩
    cases hstep : M.step t l with
    | none => simp [run, hstep] at hu
    | some v => rw [M.run_cons_some hstep] at hu; exact hu
  · rintro ⟨t, ht, hu⟩
    exact ⟨t, ht, by rw [M.run_cons_some hu]; rfl⟩

def Reachable (s : S) : Prop := ∃ ls, M.run M.init ls = some s

variable {M}

theorem Reachable.step {s t : S} {l : L} (hs : M.Reachable s) (h : M.step s l = some t) : M.Reachable t := by
  obtain ⟨ls, hls⟩ := hs
  exact ⟨ls ++ [l], M.run_concat.mpr ⟨s, hls, h⟩⟩

theorem Reachable.run {s t : S} {ls : List L} (hs : M.Reachable s) (h : M.run s ls = some t) :
    M.Reachable t := by
  obtain ⟨ks, hks⟩ := hs
  exact ⟨ks ++ ls, by rw [run_append, hks]; exact h⟩

/-- The invariant rule, along a schedule of labels of `D` from any state. -/
theorem run_rule_on {D : L → Prop} {I : S → Prop} (hstep : ∀ s l t, D l → I s → M.step s l = some t → I t) :
    ∀ {ls : List L} {s t : S}, (∀ l ∈ ls, D l) → I s → M.run s ls = some t → I t
  | [], s, t, _, hs, h => by cases h; exact hs
  | l :: ls, s, t, hD, hs, h => by
      rw [List.forall_mem_cons] at hD
      rw [run_cons, Option.bind_eq_some_iff] at h
      obtain ⟨u, hu, h⟩ := h
      exact run_rule_on hstep hD.2 (hstep s l u hD.1 hs hu) h

theorem run_rule {I : S → Prop} (hstep : ∀ s l t, I s → M.step s l = some t → I t) {ls : List L} {s t : S}
    (hs : I s) (h : M.run s ls = some t) : I t :=
  run_rule_on (D := fun _ => True) (fun s l t _ => hstep s l t) (fun _ _ => trivial) hs h

theorem Reachable.rule {I : S → Prop} (hinit : I M.init) (hstep : ∀ s l t, I s → M.step s l = some t → I t)
    {s : S} (hs : M.Reachable s) : I s := by
  obtain ⟨ls, h⟩ := hs
  exact run_rule hstep hinit h

variable (M)

/-- `P` holds in every state the schedule visits. -/
def Always (P : S → Prop) : S → List L → Prop
  | s, [] => P s
  | s, l :: ls => P s ∧ ∀ t, M.step s l = some t → Always P t ls

/-- `G` holds of every step the schedule takes. -/
def Guarded (G : S → L → Prop) : S → List L → Prop
  | _, [] => True
  | s, l :: ls => ∀ t, M.step s l = some t → G s l ∧ Guarded G t ls

variable {M}

theorem Always.head {P : S → Prop} {s : S} {ls : List L} (h : M.Always P s ls) : P s := by
  cases ls with
  | nil => exact h
  | cons l ls => exact h.1

theorem Always.last {P : S → Prop} : ∀ {ls : List L} {s t : S}, M.Always P s ls → M.run s ls = some t → P t
  | [], s, t, h, ht => by cases ht; exact h
  | l :: ls, s, t, h, ht => by
      rw [run_cons, Option.bind_eq_some_iff] at ht
      obtain ⟨u, hu, ht⟩ := ht
      exact Always.last (h.2 u hu) ht

theorem always_of_forall {P : S → Prop} (hP : ∀ s, P s) : ∀ (ls : List L) (s : S), M.Always P s ls
  | [], s => hP s
  | _ :: ls, s => ⟨hP s, fun t _ => always_of_forall hP ls t⟩

theorem always_of_rule {D : L → Prop} {I : S → Prop} (hstep : ∀ s l t, D l → I s → M.step s l = some t → I t) :
    ∀ {ls : List L} {s : S}, (∀ l ∈ ls, D l) → I s → M.Always I s ls
  | [], _, _, hs => hs
  | l :: ls, s, hD, hs => by
      rw [List.forall_mem_cons] at hD
      exact ⟨hs, fun t ht => always_of_rule hstep hD.2 (hstep s l t hD.1 hs ht)⟩

theorem Always.mono {P Q : S → Prop} (hPQ : ∀ s, P s → Q s) :
    ∀ {ls : List L} {s : S}, M.Always P s ls → M.Always Q s ls
  | [], s, h => hPQ s h
  | _ :: _, s, h => ⟨hPQ s h.1, fun t ht => Always.mono hPQ (h.2 t ht)⟩

/-- A property that a step keeps exactly when it is guarded holds throughout a schedule of labels of `D` exactly when
every step of the schedule is guarded. `I` is the unconditional invariant both directions may use. -/
theorem always_iff_guarded_on {D : L → Prop} {I P : S → Prop} {G : S → L → Prop}
    (hI : ∀ s l t, D l → I s → M.step s l = some t → I t)
    (hkeep : ∀ s l t, D l → I s → P s → M.step s l = some t → (P t ↔ G s l)) :
    ∀ {ls : List L} {s : S}, (∀ l ∈ ls, D l) → I s → P s → (M.Always P s ls ↔ M.Guarded G s ls)
  | [], _, _, _, hP => ⟨fun _ => trivial, fun _ => hP⟩
  | l :: ls, s, hD, hs, hP => by
      have hl : D l := hD l List.mem_cons_self
      have hls : ∀ m ∈ ls, D m := fun m hm => hD m (List.mem_cons_of_mem l hm)
      constructor
      · intro h t ht
        have hPt : P t := (h.2 t ht).head
        exact ⟨(hkeep s l t hl hs hP ht).mp hPt,
          (always_iff_guarded_on hI hkeep hls (hI s l t hl hs ht) hPt).mp (h.2 t ht)⟩
      · intro h
        refine ⟨hP, fun t ht => ?_⟩
        have hPt : P t := (hkeep s l t hl hs hP ht).mpr (h t ht).1
        exact (always_iff_guarded_on hI hkeep hls (hI s l t hl hs ht) hPt).mpr (h t ht).2

theorem always_iff_guarded {I P : S → Prop} {G : S → L → Prop} (hI : ∀ s l t, I s → M.step s l = some t → I t)
    (hkeep : ∀ s l t, I s → P s → M.step s l = some t → (P t ↔ G s l)) {ls : List L} {s : S} (hs : I s) (hP : P s) :
    M.Always P s ls ↔ M.Guarded G s ls :=
  always_iff_guarded_on (D := fun _ => True) (fun s l t _ => hI s l t) (fun s l t _ => hkeep s l t)
    (fun _ _ => trivial) hs hP

theorem guarded_cons {G : S → L → Prop} {s t : S} {l : L} {ls : List L} (h : M.step s l = some t) :
    M.Guarded G s (l :: ls) ↔ G s l ∧ M.Guarded G t ls := by
  constructor
  · intro hG
    exact hG t h
  · rintro hG u hu
    rw [h] at hu
    cases hu
    exact hG

theorem Guarded.concat {G : S → L → Prop} {ls : List L} {l : L} {s t u : S} (h : M.Guarded G s (ls ++ [l]))
    (ht : M.run s ls = some t) (hu : M.step t l = some u) : M.Guarded G s ls ∧ G t l := by
  induction ls generalizing s with
  | nil =>
      cases ht
      exact ⟨trivial, (h u hu).1⟩
  | cons m ls ih =>
      rw [run_cons, Option.bind_eq_some_iff] at ht
      obtain ⟨v, hv, ht⟩ := ht
      obtain ⟨hm, hrest⟩ := h v hv
      obtain ⟨hls, hl⟩ := ih hrest ht
      refine ⟨fun w hw => ?_, hl⟩
      rw [hv] at hw
      cases hw
      exact ⟨hm, hls⟩

theorem Guarded.mono {G H : S → L → Prop} (hGH : ∀ s l, G s l → H s l) :
    ∀ {ls : List L} {s : S}, M.Guarded G s ls → M.Guarded H s ls
  | [], _, _ => trivial
  | l :: _, s, h => fun t ht => ⟨hGH s l (h t ht).1, Guarded.mono hGH (h t ht).2⟩

theorem Guarded.append {G : S → L → Prop} {t : S} {ms : List L} : ∀ {ls : List L} {s : S}, M.Guarded G s ls →
    M.run s ls = some t → M.Guarded G t ms → M.Guarded G s (ls ++ ms)
  | [], s, _, ht, hms => by
      cases ht
      exact hms
  | m :: ls, s, h, ht, hms => by
      intro u hu
      rw [run_cons_some M hu] at ht
      obtain ⟨hm, hls⟩ := h u hu
      exact ⟨hm, hls.append ht hms⟩

theorem Guarded.snoc {G : S → L → Prop} {ls : List L} {l : L} {s t : S} (h : M.Guarded G s ls)
    (ht : M.run s ls = some t) (hl : ∀ u, M.step t l = some u → G t l) : M.Guarded G s (ls ++ [l]) :=
  h.append ht fun u hu => ⟨hl u hu, trivial⟩

/-- The invariant rule, along a schedule whose steps are guarded. -/
theorem Guarded.run_rule {G : S → L → Prop} {I : S → Prop}
    (hstep : ∀ s l t, I s → G s l → M.step s l = some t → I t) :
    ∀ {ls : List L} {s t : S}, M.Guarded G s ls → I s → M.run s ls = some t → I t
  | [], s, t, _, hs, h => by cases h; exact hs
  | l :: ls, s, t, hG, hs, h => by
      rw [run_cons, Option.bind_eq_some_iff] at h
      obtain ⟨u, hu, h⟩ := h
      obtain ⟨hl, hls⟩ := hG u hu
      exact Guarded.run_rule hstep hls (hstep s l u hs hl hu) h

theorem guarded_congr {G H : S → L → Prop} (h : ∀ s l, G s l ↔ H s l) :
    ∀ {ls : List L} {s : S}, M.Guarded G s ls ↔ M.Guarded H s ls
  | [], _ => Iff.rfl
  | l :: _, s => forall₂_congr fun _ _ => and_congr (h s l) (guarded_congr h)

/-- A guard that looks at the labels only is asked of the labels of the schedule. -/
theorem guarded_label_iff {G : L → Prop} (htotal : ∀ s l, ∃ t, M.step s l = some t) :
    ∀ {ls : List L} {s : S}, M.Guarded (fun _ l => G l) s ls ↔ ∀ l ∈ ls, G l
  | [], _ => ⟨fun _ _ hm => absurd hm List.not_mem_nil, fun _ => trivial⟩
  | l :: ls, s => by
      rw [List.forall_mem_cons]
      constructor
      · intro h
        obtain ⟨t, ht⟩ := htotal s l
        exact ⟨(h t ht).1, (guarded_label_iff htotal).mp (h t ht).2⟩
      · intro ⟨hl, hls⟩ t _
        exact ⟨hl, (guarded_label_iff htotal).mpr hls⟩

/-! ## Potentials -/

variable (M) in
def cost (c : S → L → Nat) : S → List L → Nat
  | _, [] => 0
  | s, l :: ls => (M.step s l).elim 0 fun t => c s l + cost c t ls

theorem cost_cons_some {c : S → L → Nat} {s t : S} {l : L} (h : M.step s l = some t) (ls : List L) :
    M.cost c s (l :: ls) = c s l + M.cost c t ls := by
  rw [cost, h, Option.elim_some]

/-- A potential that pays for every step, but for those that add to it, bounds what a run costs: a label of `p` adds
`a` before its own step is paid for, and one of `q` adds one. -/
theorem run_cost_le {c : S → L → Nat} {P : S → ℤ → Prop} {a : Nat} {p q : L → Bool}
    (hstep : ∀ s l t n, P s n → M.step s l = some t →
      ∃ m, P t m ∧ m + c s l ≤ n + a * (p l).toNat + (q l).toNat) :
    ∀ {ls : List L} {s t : S} {n : ℤ}, P s n → M.run s ls = some t →
      ∃ m, P t m ∧ m + M.cost c s ls ≤ n + a * ls.countP p + ls.countP q
  | [], s, t, n, hs, h => by
      cases h
      exact ⟨n, hs, by simp [cost]⟩
  | l :: ls, s, t, n, hs, h => by
      rw [run_cons, Option.bind_eq_some_iff] at h
      obtain ⟨u, hu, h⟩ := h
      obtain ⟨m, hm, hle⟩ := hstep s l u n hs hu
      obtain ⟨k, hk, hrest⟩ := run_cost_le hstep hm h
      have hcount : ∀ r : L → Bool, (l :: ls).countP r = ls.countP r + (r l).toNat := by
        intro r
        rw [List.countP_cons]
        cases r l <;> rfl
      refine ⟨k, hk, ?_⟩
      rw [hcount, hcount, cost_cons_some hu]
      push_cast
      rw [Int.mul_add]
      omega

theorem cost_one {ls : List L} {s t : S} (h : M.run s ls = some t) : M.cost (fun _ _ => 1) s ls = ls.length := by
  induction ls generalizing s with
  | nil => rfl
  | cons l ls ih =>
      rw [run_cons, Option.bind_eq_some_iff] at h
      obtain ⟨u, hu, h⟩ := h
      rw [cost_cons_some hu, ih h, List.length_cons, Nat.add_comm]

/-- A potential that every step lowers bounds how long a run is. -/
theorem run_length_le {P : S → ℤ → Prop} {a : Nat} {p q : L → Bool}
    (hstep : ∀ s l t n, P s n → M.step s l = some t → ∃ m, P t m ∧ m + 1 ≤ n + a * (p l).toNat + (q l).toNat)
    {ls : List L} {s t : S} {n : ℤ} (hs : P s n) (h : M.run s ls = some t) :
    ∃ m, P t m ∧ m + ls.length ≤ n + a * ls.countP p + ls.countP q := by
  obtain ⟨m, hm, hle⟩ := run_cost_le (c := fun _ _ => 1) hstep hs h
  rw [cost_one h] at hle
  exact ⟨m, hm, hle⟩

/-- A rank that can always be lowered by a step of `D` is brought to zero, by as many of them as it says. -/
theorem exists_run_to_zero {I : S → Prop} {D : S → L → Prop} {rank : S → Nat}
    (hnext : ∀ s, I s → rank s ≠ 0 → ∃ l t, D s l ∧ M.step s l = some t ∧ I t ∧ rank t < rank s) {s : S} (hs : I s) :
    ∃ ls t, M.Guarded D s ls ∧ ls.length ≤ rank s ∧ M.run s ls = some t ∧ I t ∧ rank t = 0 := by
  induction h : rank s using Nat.strong_induction_on generalizing s with
  | _ n ih =>
      by_cases hzero : rank s = 0
      · exact ⟨[], s, trivial, Nat.zero_le _, rfl, hs, hzero⟩
      obtain ⟨l, t, hl, ht, hIt, hlt⟩ := hnext s hs hzero
      obtain ⟨ls, u, hD, hlen, hrun, hu, hu0⟩ := ih (rank t) (h ▸ hlt) hIt rfl
      refine ⟨l :: ls, u, ?_, by rw [List.length_cons]; omega, (M.run_cons_some ht ls).trans hrun, hu, hu0⟩
      intro v hv
      rw [ht] at hv
      cases hv
      exact ⟨hl, hD⟩

/-! ## One part of a machine -/

/-- The steps of one part, counted: the others leave `I k` as it is, and each of its own takes it to `I (k + 1)`, up to
`N`. -/
theorem run_count {D : L → Prop} {p : L → Bool} {I : Nat → S → Prop} {N : Nat}
    (hstay : ∀ k s l t, D l → p l = false → I k s → M.step s l = some t → I k t)
    (hmove : ∀ k s l t, D l → p l = true → k < N → I k s → M.step s l = some t → I (k + 1) t) :
    ∀ {ls : List L} {s t : S} {k : Nat}, (∀ l ∈ ls, D l) → I k s → M.run s ls = some t → k + ls.countP p ≤ N →
      I (k + ls.countP p) t
  | [], s, t, k, _, hs, h, _ => by cases h; exact hs
  | l :: ls, s, t, k, hD, hs, h, hN => by
      rw [List.forall_mem_cons] at hD
      rw [run_cons, Option.bind_eq_some_iff] at h
      obtain ⟨u, hu, h⟩ := h
      cases hl : p l with
      | false =>
          rw [List.countP_cons_of_neg (Bool.eq_false_iff.mp hl)] at hN ⊢
          exact run_count hstay hmove hD.2 (hstay k s l u hD.1 hl hs hu) h hN
      | true =>
          rw [List.countP_cons_of_pos hl] at hN ⊢
          have hk : k + (ls.countP p + 1) = k + 1 + ls.countP p := by omega
          rw [hk] at hN ⊢
          exact run_count hstay hmove hD.2 (hmove k s l u hD.1 hl (by omega) hs hu) h hN

/-! ## Projections -/

/-- Every step of `M` is, seen through `state`, the step of `N` that `label` names, or no step at all. -/
structure Projection {S' L' : Type*} (M : Machine S L) (N : Machine S' L') where
  state : S → S'
  label : S → L → Option L'
  init : state M.init = N.init
  stay : ∀ s l t, M.step s l = some t → label s l = none → state t = state s
  move : ∀ s l t l', M.step s l = some t → label s l = some l' → N.step (state s) l' = some (state t)

namespace Projection
variable {S' L' : Type*} {N : Machine S' L'} (π : Projection M N)

theorem keeps {I : S' → Prop} (hI : ∀ s l t, I s → N.step s l = some t → I t) :
    ∀ s l t, I (π.state s) → M.step s l = some t → I (π.state t) := by
  intro s l t hs ht
  cases hl : π.label s l with
  | none => rw [π.stay s l t ht hl]; exact hs
  | some l' => exact hI _ _ _ hs (π.move s l t l' ht hl)

theorem run {see : L → Option L'} (hsee : ∀ s l, π.label s l = see l) :
    ∀ {ls : List L} {s t : S}, M.run s ls = some t → N.run (π.state s) (ls.filterMap see) = some (π.state t)
  | [], s, t, h => by cases h; rfl
  | l :: ls, s, t, h => by
      rw [run_cons, Option.bind_eq_some_iff] at h
      obtain ⟨u, hu, h⟩ := h
      have hrest := run hsee h
      rw [List.filterMap_cons]
      cases hl : see l with
      | none => rw [← π.stay s l u hu ((hsee s l).trans hl)]; exact hrest
      | some l' => exact (N.run_cons_some (π.move s l u l' hu ((hsee s l).trans hl)) _).trans hrest

end Projection
end Machine
end Lib
