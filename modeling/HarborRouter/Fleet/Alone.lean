import HarborRouter.Fleet.Pod

/-!
# Tasks that nobody disturbs

`resolve_tags`, warming and persisting step by step, with nobody else at the cache in between, do what they do as a
whole.

* `warming_alone`, `persisting_alone`, `tags_alone` : the pods of the fleet write what the functions write.
-/

namespace HarborRouter.Fleet
open Lib Text Manifest SharedStore

variable {cfg : Config} {json : Json Mappings} {topN : Nat} {counts : Counts} {cache : Cache}

theorem apply_map (writer : Writer) (cache : Cache) (ws : List (Text × Option Entry)) :
    apply cache (ws.map fun w => (⟨writer, w.1, w.2⟩ : CacheWrite)) = write cache ws := by
  rw [apply, List.foldl_map]
  rfl

/-! ## Warming and persisting -/

theorem solo_set (pending : List (Text × Option Entry)) (cache : Cache) :
    solo (Warming.step cfg json topN counts) (Warming.ofPending pending) cache
        (List.replicate pending.length .set) =
      some (.waiting, pending.map fun w => ⟨.warmCacheFromRedis, w.1, w.2⟩) := by
  induction pending generalizing cache with
  | nil => rfl
  | cons w pending ih =>
      have hset : Warming.step cfg json topN counts (.writing (w :: pending)) cache .set =
          some (Warming.ofPending pending, [⟨.warmCacheFromRedis, w.1, w.2⟩]) := rfl
      exact solo_cons hset (ih _)

theorem solo_warming {now : Nat} {order : List (Text × Text)} {warmed : Cache}
    (h : warmCacheFromRedis cfg json now order cache = some warmed) :
    ∃ actions ws, solo (Warming.step cfg json topN counts) .starting cache actions = some (.waiting, ws) ∧
      apply cache ws = warmed := by
  rw [warmCacheFromRedis] at h
  cases hread : (cache warmupCacheKey).bind fun entry => json.fromStr entry.value with
  | none =>
      rw [hread] at h
      dsimp only at h
      split at h
      · have hget : Warming.step cfg json topN counts .starting cache (.get now order) = some (.waiting, []) := by
          simp only [Warming.step, hread]
        exact ⟨[.get now order], [], solo_cons hget rfl, Option.some.inj h⟩
      · cases h
  | some mappings =>
      rw [hread] at h
      dsimp only at h
      split at h
      · rename_i hperm
        have hget : Warming.step cfg json topN counts .starting cache (.get now order) =
            some (.ofPending (order.flatMap (warmWrites cfg now)), []) := by
          simp only [Warming.step, hread, if_pos hperm]
        refine ⟨_, _, solo_cons hget (solo_set _ cache), ?_⟩
        rw [List.nil_append, apply_map]
        exact Option.some.inj h
      · cases h

theorem solo_read (top : List (Text × Nat)) (mappings : Mappings) {actions : List WarmingAction}
    {r : Warming × List CacheWrite}
    (h : solo (Warming.step cfg json topN counts)
      (.reading [] (top.foldl (fun mappings e => match hotEntry cache e.1 with
        | some project => mappings.insert e.1 project
        | none => mappings) mappings)) cache actions = some r) :
    solo (Warming.step cfg json topN counts) (.reading top mappings) cache
      (List.replicate top.length .read ++ actions) = some r := by
  induction top generalizing mappings with
  | nil => exact h
  | cons e top ih =>
      have hread : Warming.step cfg json topN counts (.reading (e :: top) mappings) cache .read =
          some (.reading top (match hotEntry cache e.1 with
            | some project => mappings.insert e.1 project
            | none => mappings), []) := rfl
      exact solo_cons hread (ih _ h)

theorem solo_persisting {order : List Text} (horder : counts.IsOrder order) :
    ∃ actions ws, solo (Warming.step cfg json topN counts) .waiting cache actions = some (.waiting, ws) ∧
      apply cache ws = persistHotEntries json topN (counts.topManifestImages order topN) cache := by
  have htick : Warming.step cfg json topN counts .waiting cache (.tick order) =
      some (if topN = 0 then .waiting else if counts.topManifestImages order topN = [] then .waiting
        else .reading (counts.topManifestImages order topN) .empty, []) := by
    simp only [Warming.step, if_pos horder]
    split <;> rfl
  rw [persistHotEntries]
  by_cases hzero : topN = 0
  · rw [if_pos hzero] at htick ⊢
    exact ⟨[.tick order], [], solo_cons htick rfl, rfl⟩
  · rw [if_neg hzero] at htick ⊢
    by_cases htop : counts.topManifestImages order topN = []
    · rw [if_pos htop] at htick ⊢
      exact ⟨[.tick order], [], solo_cons htick rfl, rfl⟩
    · rw [if_neg htop] at htick ⊢
      let mappings := hotMappings cache (counts.topManifestImages order topN)
      let ws : List CacheWrite := if mappings.entries = [] then [] else match json.toString mappings with
        | some text => [⟨.persistHotEntries, warmupCacheKey, some ⟨text, some 3600000⟩⟩]
        | none => []
      have hpersist : solo (Warming.step cfg json topN counts) (.reading [] mappings) cache [.persist] =
          some (.waiting, ws ++ []) := solo_cons rfl rfl
      refine ⟨_, _, solo_cons htick (solo_read _ .empty hpersist), ?_⟩
      rw [List.nil_append, List.append_nil]
      dsimp only [ws, mappings]
      split
      · rfl
      · cases json.toString (hotMappings cache (counts.topManifestImages order topN)) <;> rfl

/-! ## Tags -/

theorem solo_tags (w : TagsWorld cfg) (cache : Cache) (image : Text) :
    ∃ actions ws, solo (TagsStage.step cfg) (.reading image) cache actions = some (.over, ws) ∧
      ws.map (fun w => (w.key, w.value)) = (w.resolveTags cache image).writes := by
  have hmiss : ∀ cache', ∃ actions ws, solo (TagsStage.step cfg) (.looking image) cache' actions = some (.over, ws) ∧
      ws.map (fun w => (w.key, w.value)) = (w.miss image).writes := by
    intro cache'
    cases hlookup : w.fanout.lookup image with
    | ok r =>
        have hlooked : TagsStage.step cfg (.looking image) cache' (.looked w.fanout) =
            some (.storing image r.project, []) := by
          simp only [TagsStage.step, hlookup]
        refine ⟨[.looked w.fanout, .store], _, solo_cons hlooked (solo_cons rfl rfl), ?_⟩
        rw [TagsWorld.miss, hlookup]
        rfl
    | error e =>
        have hlooked : TagsStage.step cfg (.looking image) cache' (.looked w.fanout) = some (.over, []) := by
          simp only [TagsStage.step, hlookup]
        refine ⟨[.looked w.fanout], _, solo_cons hlooked rfl, ?_⟩
        rw [TagsWorld.miss, hlookup]
        rfl
  have hgoes := resolveTags_cases w cache image
  generalize w.resolveTags cache image = trace at hgoes ⊢
  cases hgoes with
  | missed he =>
      have hget : TagsStage.step cfg (.reading image) cache .get = some (.looking image, []) := by
        simp only [TagsStage.step]
        split
        · rename_i entry hentry
          rw [he entry hentry]
          rfl
        · rfl
      obtain ⟨actions, ws, hsolo, hws⟩ := hmiss cache
      exact ⟨_, _, solo_cons hget hsolo, hws⟩
  | hit entry r he hsafe hr =>
      have hget : TagsStage.step cfg (.reading image) cache .get = some (.fetching image entry.value, []) := by
        simp only [TagsStage.step, he, hsafe, if_true]
      have hfetched : TagsStage.step cfg (.fetching image entry.value) cache (.fetched (w.reply entry.value)) =
          some (.over, []) := by
        simp only [TagsStage.step, hr.1, hr.2, if_true]
      exact ⟨[.get, .fetched (w.reply entry.value)], _, solo_cons hget (solo_cons hfetched rfl), rfl⟩
  | evicted entry he hsafe hr =>
      have hget : TagsStage.step cfg (.reading image) cache .get = some (.fetching image entry.value, []) := by
        simp only [TagsStage.step, he, hsafe, if_true]
      have hfetched : TagsStage.step cfg (.fetching image entry.value) cache (.fetched (w.reply entry.value)) =
          some (.evicting image, []) := by
        simp only [TagsStage.step]
        split
        · rename_i r hok
          rw [if_neg fun hstatus => hr r ⟨hok, hstatus⟩]
        · rfl
      have hevict : ∀ cache', TagsStage.step cfg (.evicting image) cache' .evict =
          some (.looking image, [⟨Writer.resolveTags, tagsKey image, none⟩]) := fun _ => rfl
      obtain ⟨actions, ws, hsolo, hws⟩ := hmiss _
      refine ⟨_, _, solo_cons hget (solo_cons hfetched (solo_cons (hevict _) hsolo)), ?_⟩
      rw [List.nil_append, List.nil_append, List.map_append, hws]
      rfl

/-! ## In the fleet -/

section Fleet
variable {e : Settings} {s : SharedStore.State PodId (Pod e.cfg) Writer Text Entry} {p : PodId}

theorem run_warming {stage : Warming} {actions : List WarmingAction} {ws : List CacheWrite}
    (h : solo (Warming.step e.cfg e.mappings e.cacheWarmupTopN (s.party p).popularity.counts) (s.party p).warming
      s.store actions = some (stage, ws)) :
    (fleet e).machine.run s ((actions.map Action.warming).map (.act p)) =
      some ⟨apply s.store ws, Function.update s.party p { s.party p with warming := stage }, s.log ++ ws⟩ := by
  have hpod : solo (Pod.step e) (s.party p) s.store (actions.map Action.warming) =
      some ({ s.party p with warming := stage }, ws) :=
    solo_map (fun w => { s.party p with warming := w }) Action.warming (fun w cache a => rfl) h
  exact run_solo hpod

/-- Warming: a pod that nobody disturbs leaves the cache that `warm_cache_from_redis` leaves. -/
theorem warming_alone {now : Nat} {order : List (Text × Text)} {warmed : Cache} (hp : (s.party p).warming = .starting)
    (h : warmCacheFromRedis e.cfg e.mappings now order s.store = some warmed) :
    ∃ ls t, (fleet e).machine.run s ls = some t ∧ t.store = warmed := by
  obtain ⟨actions, ws, hsolo, hwarmed⟩ := solo_warming h
  rw [← hp] at hsolo
  exact ⟨_, _, run_warming hsolo, hwarmed⟩

theorem persisting_alone {order : List Text} (hp : (s.party p).warming = .waiting)
    (horder : (s.party p).popularity.counts.IsOrder order) :
    ∃ ls t, (fleet e).machine.run s ls = some t ∧ t.store = persistHotEntries e.mappings e.cacheWarmupTopN
      ((s.party p).popularity.counts.topManifestImages order e.cacheWarmupTopN) s.store := by
  obtain ⟨actions, ws, hsolo, hpersisted⟩ := solo_persisting horder
  rw [← hp] at hsolo
  exact ⟨_, _, run_warming hsolo, hpersisted⟩

/-- `resolve_tags`: a call that nobody disturbs writes what the function writes. -/
theorem tags_alone {i : CallId} {image : Text} (hp : (s.party p).tags i = .reading image) (w : TagsWorld e.cfg) :
    ∃ ls t ws, (fleet e).machine.run s ls = some t ∧ t.log = s.log ++ ws ∧
      ws.map (fun w => (w.key, w.value)) = (w.resolveTags s.store image).writes := by
  obtain ⟨actions, ws, hsolo, hws⟩ := solo_tags w s.store image
  let put : TagsStage → Pod e.cfg := fun stage =>
    { s.party p with tags := Function.update (s.party p).tags i stage }
  have hstep : ∀ stage cache a, Pod.step e (put stage) cache (.tags i a) =
      (stage.step e.cfg cache a).map fun r => (put r.1, r.2) := by
    intro stage cache a
    show (TagsStage.step e.cfg (Function.update (s.party p).tags i stage i) cache a).map _ = _
    rw [Function.update_self]
    refine congrArg (fun f => Option.map f _) (funext fun r => ?_)
    dsimp only [put]
    rw [Function.update_idem]
  have hself : put (.reading image) = s.party p := by
    dsimp only [put]
    rw [← hp, Function.update_eq_self]
  have hpod : solo (Pod.step e) (put (.reading image)) s.store (actions.map (Action.tags i)) = some (put .over, ws) :=
    solo_map put (Action.tags i) hstep hsolo
  rw [hself] at hpod
  exact ⟨_, _, ws, run_solo hpod, rfl, hws⟩

end Fleet

end HarborRouter.Fleet
