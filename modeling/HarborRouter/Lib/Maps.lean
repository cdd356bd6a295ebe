import Mathlib.Data.List.Induction
import Mathlib.Data.List.Nodup
import Mathlib.Logic.Function.Basic
import Mathlib.Tactic.Common

/-!
# Maps: functions to `Option`, changed one entry at a time

A finite map is read as a function that is `none` away from its entries; an insertion and a removal are
`Function.update`. Where the order of iteration is observed, a map is the list of its entries.

* `insert_eq_some_iff`, `erase_eq_some_iff` : the entries after an insertion and after a removal;
* `exists_update_iff` : whether some entry of a changed function has a property;
* `foldl_update_cases` : an entry after many changes is that of one of them, or the old one;
* `HashMap` : a map in the order in which it is iterated.
-/

namespace Lib
variable {α β : Type*} [DecidableEq α] {m : α → Option β} {a b : α} {v w : β}

theorem insert_eq_some_iff :
    Function.update m a (some w) b = some v ↔ b = a ∧ w = v ∨ b ≠ a ∧ m b = some v := by
  rw [Function.pred_update (fun _ x => x = some v), Option.some.injEq]

theorem erase_eq_some_iff : Function.update m a none b = some v ↔ b ≠ a ∧ m b = some v := by
  rw [Function.pred_update (fun _ x => x = some v)]
  exact or_iff_right fun h => Option.some_ne_none v h.2.symm

theorem of_erase_eq_some (h : Function.update m a none b = some v) : m b = some v :=
  (erase_eq_some_iff.mp h).2

section Exists
variable {f : α → β} {a : α} {b : β} {Q : β → Prop}

theorem exists_update_iff : (∃ c, Q (Function.update f a b c)) ↔ Q b ∨ ∃ c, c ≠ a ∧ Q (f c) := by
  constructor
  · rintro ⟨c, hc⟩
    rcases (Function.pred_update (fun _ x => Q x) ..).mp hc with ⟨-, hc⟩ | ⟨hne, hc⟩
    · exact .inl hc
    · exact .inr ⟨c, hne, hc⟩
  · rintro (hb | ⟨c, hne, hc⟩)
    · exact ⟨a, by rw [Function.update_self]; exact hb⟩
    · exact ⟨c, by rw [Function.update_of_ne hne]; exact hc⟩

theorem exists_update (h : ∃ c, Q (f c)) (ha : Q (f a) → Q b) : ∃ c, Q (Function.update f a b c) := by
  obtain ⟨c, hc⟩ := h
  by_cases hca : c = a
  · exact exists_update_iff.mpr (.inl (ha (hca ▸ hc)))
  · exact exists_update_iff.mpr (.inr ⟨c, hca, hc⟩)

theorem exists_update_self (f : α → β) (a : α) (h : Q b) : ∃ c, Q (Function.update f a b c) :=
  exists_update_iff.mpr (.inl h)

theorem not_exists_update (h : ¬ ∃ c, Q (f c)) (hb : ¬ Q b) : ¬ ∃ c, Q (Function.update f a b c) := by
  rw [exists_update_iff, not_or]
  exact ⟨hb, fun ⟨c, _, hc⟩ => h ⟨c, hc⟩⟩

end Exists

/-- Where no key is listed twice, an entry is found under its key. -/
theorem lookup_of_mem {α β : Type*} [BEq α] [LawfulBEq α] {l : List (α × β)} {k : α} {v : β}
    (hl : (l.map Prod.fst).Nodup) (h : (k, v) ∈ l) : l.lookup k = some v := by
  obtain ⟨l₁, l₂, rfl⟩ := List.append_of_mem h
  refine List.lookup_eq_some_iff.mpr ⟨l₁, l₂, rfl, fun p hp => ?_⟩
  rw [List.map_append, List.map_cons] at hl
  have hne : p.1 ≠ k := fun he => (List.nodup_append.mp hl).2.2 _ (List.mem_map_of_mem hp) _ List.mem_cons_self he
  exact bne_iff_ne.mpr hne.symm

/-- Written one after another, an entry is what one of the changes says, or what it was if none is about it. -/
theorem foldl_update_cases {α γ : Type*} [DecidableEq α] (f : α → γ) (changes : List (α × γ)) (a : α) :
    (∃ w ∈ changes, w.1 = a ∧ changes.foldl (fun f w => Function.update f w.1 w.2) f a = w.2) ∨
      ((∀ w ∈ changes, w.1 ≠ a) ∧ changes.foldl (fun f w => Function.update f w.1 w.2) f a = f a) := by
  induction changes using List.reverseRecOn with
  | nil => exact .inr ⟨fun w hw => absurd hw List.not_mem_nil, rfl⟩
  | append_singleton changes w ih =>
      rw [List.foldl_concat]
      by_cases hwa : w.1 = a
      · refine .inl ⟨w, List.mem_append_right _ List.mem_cons_self, hwa, ?_⟩
        rw [← hwa, Function.update_self]
      · rw [Function.update_of_ne (Ne.symm hwa)]
        refine ih.imp (fun ⟨v, hv, h⟩ => ⟨v, List.mem_append_left _ hv, h⟩) fun h => ⟨fun v hv => ?_, h.2⟩
        rcases List.mem_append.mp hv with hv | hv
        · exact h.1 v hv
        · rw [List.mem_singleton.mp hv]
          exact hwa

/-! ## Maps that are iterated -/

structure HashMap (α β : Type*) where
  entries : List (α × β)
  nodup : (entries.map Prod.fst).Nodup

namespace HashMap
variable {α β : Type*}

def empty : HashMap α β := ⟨[], List.nodup_nil⟩

/-- The same map, perhaps iterated in another order. -/
def Same (m n : HashMap α β) : Prop := m.entries.Perm n.entries

theorem unique (m : HashMap α β) {a : α} {b c : β} (hb : (a, b) ∈ m.entries) (hc : (a, c) ∈ m.entries) : b = c :=
  congrArg Prod.snd (List.inj_on_of_nodup_map m.nodup hb hc rfl)

variable [DecidableEq α]

def insert (m : HashMap α β) (a : α) (b : β) : HashMap α β where
  entries := (a, b) :: m.entries.filter fun e => e.1 ≠ a
  nodup := by
    rw [List.map_cons, List.nodup_cons]
    refine ⟨fun h => ?_, m.nodup.sublist (List.filter_sublist.map Prod.fst)⟩
    obtain ⟨e, he, hea⟩ := List.mem_map.mp h
    exact of_decide_eq_true (List.mem_filter.mp he).2 hea

theorem entries_insert (m : HashMap α β) (a : α) (b : β) :
    (m.insert a b).entries = (a, b) :: m.entries.filter fun e => e.1 ≠ a := rfl

theorem mem_insert {m : HashMap α β} {a c : α} {b d : β} :
    (c, d) ∈ (m.insert a b).entries ↔ c = a ∧ d = b ∨ c ≠ a ∧ (c, d) ∈ m.entries := by
  rw [entries_insert, List.mem_cons, List.mem_filter, Prod.mk.injEq, decide_eq_true_eq, and_comm (b := c ≠ a)]

def ofList (l : List (α × β)) : HashMap α β := l.foldl (fun m e => m.insert e.1 e.2) empty

theorem ofList_perm {l : List (α × β)} (h : (l.map Prod.fst).Nodup) : (ofList l).entries.Perm l := by
  have hentries : (ofList l).entries = l.reverse := by
    unfold ofList
    induction l using List.reverseRecOn with
    | nil => rfl
    | append_singleton l e ih =>
        rw [List.map_append, List.nodup_append] at h
        rw [List.foldl_concat, entries_insert, ih h.1, List.reverse_concat]
        congr 1
        refine List.filter_eq_self.mpr fun f hf => decide_eq_true ?_
        exact h.2.2 _ (List.mem_map_of_mem (List.mem_reverse.mp hf)) _ List.mem_cons_self
  rw [hentries]
  exact l.reverse_perm

end HashMap

end Lib
