import HarborRouter.Lib.Machine
import HarborRouter.Lib.Maps

/-!
# Parties over one shared store

Parties with states of their own step one at a time; a step reads the store and ends in writes, which are logged with
their writer. The store may lose an entry at any time.

* `run_solo`, `solo_map` : a party that nobody disturbs goes the way it goes alone, and so does one inside another;
* `reachable_secured` : what all parties guarantee of their writes, each may rely on when it reads the store.
-/

namespace Lib

/-- A value, or the removal of what there is, under one key. -/
structure Write (W α β : Type*) where
  writer : W
  key : α
  value : Option β

/-- The parties `I`, with what each does in its state and what it writes. -/
structure SharedStore (I L A W α β : Type*) where
  init : I → L
  step : L → (α → Option β) → A → Option (L × List (Write W α β))

namespace SharedStore
variable {I L A W α β : Type*}

structure State (I L W α β : Type*) where
  store : α → Option β
  party : I → L
  log : List (Write W α β)

inductive Label (I A α : Type*)
  | act (i : I) (a : A)
  | lose (key : α)

/-- The values of the store are those of writes that satisfy `G`. -/
def Holds (G : Write W α β → Prop) (store : α → Option β) : Prop :=
  ∀ key value, store key = some value → ∃ w, G w ∧ w.key = key ∧ w.value = some value

/-- The parties satisfy `J`, the writes `G`, and the values of the store are those of logged writes. -/
structure Secured (G : Write W α β → Prop) (J : L → Prop) (s : State I L W α β) : Prop where
  party : ∀ i, J (s.party i)
  log : ∀ w ∈ s.log, G w
  store : Holds (· ∈ s.log) s.store

theorem Secured.holds {G : Write W α β → Prop} {J : L → Prop} {s : State I L W α β} (hs : Secured G J s) :
    Holds G s.store := fun key value h =>
  (hs.store key value h).imp fun w hw => ⟨hs.log w hw.1, hw.2⟩

variable [DecidableEq I] [DecidableEq α]

def apply (store : α → Option β) (ws : List (Write W α β)) : α → Option β :=
  ws.foldl (fun f w => Function.update f w.key w.value) store

/-- A party that nobody disturbs: its state after the actions, and what it has written. -/
def solo (step : L → (α → Option β) → A → Option (L × List (Write W α β))) :
    L → (α → Option β) → List A → Option (L × List (Write W α β))
  | l, _, [] => some (l, [])
  | l, store, a :: as => (step l store a).bind fun r =>
      (solo step r.1 (apply store r.2) as).map fun q => (q.1, r.2 ++ q.2)

variable (P : SharedStore I L A W α β)

def next (s : State I L W α β) : Label I A α → Option (State I L W α β)
  | .act i a => (P.step (s.party i) s.store a).map fun r =>
      ⟨apply s.store r.2, Function.update s.party i r.1, s.log ++ r.2⟩
  | .lose key => some { s with store := Function.update s.store key none }

/-- The parties, over a store that is empty at first. -/
def machine : Machine (State I L W α β) (Label I A α) := ⟨⟨fun _ => none, P.init, []⟩, P.next⟩

variable {P}

theorem apply_append (store : α → Option β) (ws ws' : List (Write W α β)) :
    apply store (ws ++ ws') = apply (apply store ws) ws' := List.foldl_append ..

theorem apply_cases (store : α → Option β) (ws : List (Write W α β)) (key : α) :
    (∃ w ∈ ws, w.key = key ∧ apply store ws key = w.value) ∨ apply store ws key = store key := by
  have hfold : apply store ws =
      (ws.map fun w => (w.key, w.value)).foldl (fun f w => Function.update f w.1 w.2) store := by
    rw [apply, List.foldl_map]
  rw [hfold]
  rcases foldl_update_cases store (ws.map fun w => (w.key, w.value)) key with ⟨v, hv, hkey, hvalue⟩ | ⟨-, hsame⟩
  · obtain ⟨w, hw, rfl⟩ := List.mem_map.mp hv
    exact .inl ⟨w, hw, hkey, hvalue⟩
  · exact .inr hsame

/-- If in a store that holds writes of `G` only every step of a party keeps `J` and writes within `G`, then so does
every run. -/
theorem reachable_secured {G : Write W α β → Prop} {J : L → Prop} (hinit : ∀ i, J (P.init i))
    (hstep : ∀ l store a r, J l → Holds G store → P.step l store a = some r → J r.1 ∧ ∀ w ∈ r.2, G w)
    {s : State I L W α β} (hs : P.machine.Reachable s) : Secured G J s := by
  refine hs.rule (I := Secured G J) ?_ fun s l t hs ht => ?_
  · exact ⟨hinit, fun w hw => absurd hw List.not_mem_nil, fun _ _ h => nomatch h⟩
  · cases l with
    | act i a =>
        obtain ⟨r, hr, rfl⟩ := Option.map_eq_some_iff.mp ht
        obtain ⟨hparty, hwrites⟩ := hstep _ _ _ r (hs.party i) hs.holds hr
        refine ⟨?_, fun w hw => ?_, fun key value h => ?_⟩
        · show ∀ j, J (Function.update s.party i r.1 j)
          rw [Function.forall_update_iff s.party fun _ l => J l]
          exact ⟨hparty, fun j _ => hs.party j⟩
        · exact (List.mem_append.mp hw).elim (hs.log w) (hwrites w)
        · rcases apply_cases s.store r.2 key with ⟨w, hw, hkey, hvalue⟩ | hsame
          · exact ⟨w, List.mem_append_right _ hw, hkey, hvalue.symm.trans h⟩
          · obtain ⟨w, hw, hkey⟩ := hs.store key value (hsame.symm.trans h)
            exact ⟨w, List.mem_append_left _ hw, hkey⟩
    | lose key =>
        cases ht
        exact ⟨hs.party, hs.log, fun k value h => hs.store k value (of_erase_eq_some h)⟩

theorem solo_cons {step : L → (α → Option β) → A → Option (L × List (Write W α β))} {l l' l'' : L}
    {store : α → Option β} {a : A} {as : List A} {ws ws' : List (Write W α β)} (ha : step l store a = some (l', ws))
    (has : solo step l' (apply store ws) as = some (l'', ws')) :
    solo step l store (a :: as) = some (l'', ws ++ ws') := by
  rw [solo, ha]
  show (solo step l' (apply store ws) as).map _ = _
  rw [has]
  rfl

/-- A party inside another goes its way there, too. -/
theorem solo_map {L' B : Type*} {step : L → (α → Option β) → A → Option (L × List (Write W α β))}
    {step' : L' → (α → Option β) → B → Option (L' × List (Write W α β))} (put : L → L') (f : A → B)
    (h : ∀ l store a, step' (put l) store (f a) = (step l store a).map fun r => (put r.1, r.2)) :
    ∀ {as : List A} {l l' : L} {store : α → Option β} {ws : List (Write W α β)},
      solo step l store as = some (l', ws) → solo step' (put l) store (as.map f) = some (put l', ws)
  | [], l, l', store, ws, hs => by
      cases hs
      rfl
  | a :: as, l, l', store, ws, hs => by
      obtain ⟨⟨m, us⟩, hstep, hs⟩ := Option.bind_eq_some_iff.mp hs
      obtain ⟨⟨m', vs⟩, hsolo, hq⟩ := Option.map_eq_some_iff.mp hs
      cases hq
      have ha : step' (put l) store (f a) = some (put m, us) := by
        rw [h, hstep]
        rfl
      exact solo_cons ha (solo_map put f h hsolo)

/-- Undisturbed, a party goes the way it goes alone. -/
theorem run_solo {i : I} : ∀ {as : List A} {s : State I L W α β} {l : L} {ws : List (Write W α β)},
    solo P.step (s.party i) s.store as = some (l, ws) →
      P.machine.run s (as.map (.act i)) = some ⟨apply s.store ws, Function.update s.party i l, s.log ++ ws⟩
  | [], s, l, ws, h => by
      cases h
      show some s = _
      rw [Function.update_eq_self, List.append_nil]
      rfl
  | a :: as, s, l, ws, h => by
      obtain ⟨⟨m, us⟩, hstep, h⟩ := Option.bind_eq_some_iff.mp h
      obtain ⟨⟨m', vs⟩, hsolo, hq⟩ := Option.map_eq_some_iff.mp h
      cases hq
      have hnext : P.machine.step s (.act i a) =
          some ⟨apply s.store us, Function.update s.party i m, s.log ++ us⟩ := by
        show (P.step (s.party i) s.store a).map _ = _
        rw [hstep]
        rfl
      have hrest : P.machine.run ⟨apply s.store us, Function.update s.party i m, s.log ++ us⟩ (as.map (.act i)) =
          some ⟨apply (apply s.store us) vs, Function.update (Function.update s.party i m) i m',
            s.log ++ us ++ vs⟩ := by
        refine run_solo ?_
        dsimp only
        rw [Function.update_self]
        exact hsolo
      rw [List.map_cons, Machine.run_cons_some _ hnext, hrest, Function.update_idem, List.append_assoc]
      exact congrArg (fun store => some (State.mk store _ _)) (apply_append ..).symm

end SharedStore
end Lib
