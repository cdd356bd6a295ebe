import HarborRouter.Resolver.ContentType

/-!
# Media ranges

What `content_type_matches` decides, against the media ranges of HTTP, where types compare without their case. The code
compares so for a whole media type, and exactly for the type of a `type/*` range.

* `contentTypeMatches_iff` : the code's decision, over the ranges of all values;
* `allowed_lower` : the reference does not see case;
* `contentTypeMatches_reference` : where the code agrees with it, and what it never depends on.
-/

namespace HarborRouter
open Lib Text

def lower (s : Text) : Text := s.map Char.toLower

def typeOf (ct : Text) : Text := ct.takeWhile (· ≠ '/')

/-- The ranges of all `Accept` values. -/
def mediaRanges (acceptValues : List Text) : List Text :=
  acceptValues.flatMap fun header => (header.splitOn ',').map mediaType

/-- A range allows a media type. -/
def RangeAllows (ct range : Text) : Prop :=
  range ≠ [] ∧ (range = "*/*".toList ∨ (∃ t, range = t ++ "/*".toList ∧ lower t = lower (typeOf ct)) ∨
    lower range = lower ct)

def Allowed (responseCt : Text) (acceptValues : List Text) : Prop :=
  ∃ range ∈ mediaRanges acceptValues, RangeAllows (mediaType responseCt) range

/-! ## The code's decision -/

theorem eqIgnoreAsciiCase_iff {a b : Text} : eqIgnoreAsciiCase a b = true ↔ lower a = lower b := beq_iff_eq

theorem acceptMatches_iff {ct range : Text} : acceptMatches ct range = true ↔
    range ≠ [] ∧ (range = "*/*".toList ∨ range = typeOf ct ++ "/*".toList ∨ lower ct = lower range) := by
  have hwildcard : range = typeOf ct ++ "/*".toList ↔ stripSuffix "/*".toList range = some (typeOf ct) :=
    stripSuffix_eq_some.symm
  rw [acceptMatches, Bool.and_eq_true, Bool.or_eq_true, Bool.or_eq_true, decide_eq_true_iff, beq_iff_eq,
    eqIgnoreAsciiCase_iff, or_assoc, hwildcard]
  refine and_congr_right fun _ => or_congr_right (or_congr_left ?_)
  cases stripSuffix "/*".toList range with
  | none => exact iff_of_false Bool.false_ne_true fun h => by cases h
  | some pre => exact beq_iff_eq.trans ⟨fun h => congrArg some h.symm, fun h => (Option.some.inj h).symm⟩

theorem contentTypeMatches_iff {responseCt : Text} {acceptValues : List Text} :
    contentTypeMatches responseCt acceptValues = true ↔
      ∃ range ∈ mediaRanges acceptValues, acceptMatches (mediaType responseCt) range = true := by
  simp only [contentTypeMatches, mediaRanges, List.any_eq_true, List.mem_flatMap, List.mem_map]
  constructor
  · rintro ⟨header, hheader, accept, haccept, hmatch⟩
    exact ⟨_, ⟨header, hheader, accept, haccept, rfl⟩, hmatch⟩
  · rintro ⟨_, ⟨header, hheader, accept, haccept, rfl⟩, hmatch⟩
    exact ⟨header, hheader, accept, haccept, hmatch⟩

/-- The code allows nothing that the reference does not. -/
theorem rangeAllows_of_acceptMatches {ct range : Text} (h : acceptMatches ct range = true) : RangeAllows ct range := by
  obtain ⟨hne, hany | htype | hsame⟩ := acceptMatches_iff.mp h
  · exact ⟨hne, .inl hany⟩
  · exact ⟨hne, .inr (.inl ⟨_, htype, rfl⟩)⟩
  · exact ⟨hne, .inr (.inr hsame.symm)⟩

/-- Every `type/*` range of the response's type is in the response's case, or the response is allowed without it. -/
def WildcardsSpelled (responseCt : Text) (acceptValues : List Text) : Prop :=
  ∀ t, t ++ "/*".toList ∈ mediaRanges acceptValues → lower t = lower (typeOf (mediaType responseCt)) →
    "*/*".toList ∈ mediaRanges acceptValues ∨
    typeOf (mediaType responseCt) ++ "/*".toList ∈ mediaRanges acceptValues ∨
    ∃ range ∈ mediaRanges acceptValues, range ≠ [] ∧ lower (mediaType responseCt) = lower range

theorem matches_iff_allowed_iff (responseCt : Text) (acceptValues : List Text) :
    (contentTypeMatches responseCt acceptValues = true ↔ Allowed responseCt acceptValues) ↔
      WildcardsSpelled responseCt acceptValues := by
  have hwild : ∀ t : Text, t ++ "/*".toList ≠ [] := fun t h => by cases (List.append_eq_nil_iff.mp h).2
  constructor
  · intro hiff t hmem ht
    have hallowed : Allowed responseCt acceptValues := ⟨_, hmem, hwild t, .inr (.inl ⟨t, rfl, ht⟩)⟩
    obtain ⟨range, hrange, hmatch⟩ := contentTypeMatches_iff.mp (hiff.mpr hallowed)
    obtain ⟨hne, rfl | rfl | hsame⟩ := acceptMatches_iff.mp hmatch
    · exact .inl hrange
    · exact .inr (.inl hrange)
    · exact .inr (.inr ⟨range, hrange, hne, hsame⟩)
  · intro hspelled
    rw [contentTypeMatches_iff]
    constructor
    · rintro ⟨range, hrange, hmatch⟩
      exact ⟨range, hrange, rangeAllows_of_acceptMatches hmatch⟩
    · rintro ⟨range, hrange, hne, hany | ⟨t, rfl, ht⟩ | hsame⟩
      · exact ⟨range, hrange, acceptMatches_iff.mpr ⟨hne, .inl hany⟩⟩
      · rcases hspelled t hrange ht with hany | htype | ⟨range, hrange, hne, hsame⟩
        · exact ⟨_, hany, acceptMatches_iff.mpr ⟨by decide, .inl rfl⟩⟩
        · exact ⟨_, htype, acceptMatches_iff.mpr ⟨hwild _, .inr (.inl rfl)⟩⟩
        · exact ⟨range, hrange, acceptMatches_iff.mpr ⟨hne, .inr (.inr hsame)⟩⟩
      · exact ⟨range, hrange, acceptMatches_iff.mpr ⟨hne, .inr (.inr hsame.symm)⟩⟩

/-! ## Order and commas -/

theorem mediaRanges_perm {a b : List Text} (h : a.Perm b) : (mediaRanges a).Perm (mediaRanges b) :=
  List.Perm.flatMap_right _ h

theorem mediaRanges_join (pre post : List Text) (a b : Text) :
    mediaRanges (pre ++ (a ++ ',' :: b) :: post) = mediaRanges (pre ++ a :: b :: post) := by
  simp only [mediaRanges, List.flatMap_append, List.flatMap_cons, List.splitOn_append_cons_self, List.map_append,
    List.append_assoc]

theorem contentTypeMatches_congr {responseCt : Text} {a b : List Text}
    (h : ∀ range, range ∈ mediaRanges a ↔ range ∈ mediaRanges b) :
    contentTypeMatches responseCt a = contentTypeMatches responseCt b := by
  rw [Bool.eq_iff_iff, contentTypeMatches_iff, contentTypeMatches_iff]
  exact exists_congr fun range => and_congr_left fun _ => h range

/-! ## Case -/

theorem toLower_cases (c : Char) :
    c.toLower = c ∨ 65 ≤ c.toNat ∧ c.toNat ≤ 90 ∧ c.toLower.toNat = c.toNat + 32 := by
  unfold Char.toLower
  split
  · rename_i h
    have hlow : 65 ≤ c.val.toNat := h.1
    have hhigh : c.val.toNat ≤ 90 := h.2
    refine .inr ⟨hlow, hhigh, ?_⟩
    show (c.val + 32).toNat = c.val.toNat + 32
    rw [UInt32.toNat_add]
    show (c.val.toNat + 32) % 2 ^ 32 = _
    omega
  · exact .inl rfl

theorem toLower_eq_iff {c sep : Char} (h : sep.toNat < 65) : c.toLower = sep ↔ c = sep := by
  rcases toLower_cases c with hc | ⟨hlow, -, hc⟩
  · rw [hc]
  · refine iff_of_false ?_ ?_
    · rintro rfl
      omega
    · rintro rfl
      omega

theorem isWhitespace_toLower (c : Char) : isWhitespace c.toLower = isWhitespace c := by
  rcases toLower_cases c with hc | ⟨hlow, hhigh, hc⟩
  · rw [hc]
  · have hfalse : ∀ d : Char, 65 ≤ d.toNat → d.toNat ≤ 122 → isWhitespace d = false := by
      intro d h1 h2
      simp only [isWhitespace, Bool.or_eq_false_iff, Bool.and_eq_false_iff, decide_eq_false_iff_not,
        beq_eq_false_iff_ne]
      omega
    rw [hfalse c hlow (by omega), hfalse c.toLower (by omega) (by omega)]

theorem lower_takeWhile {sep : Char} (h : sep.toNat < 65) (s : Text) :
    lower (s.takeWhile (· ≠ sep)) = (lower s).takeWhile (· ≠ sep) := by
  have hsep : (fun c : Char => decide (c ≠ sep)) ∘ Char.toLower = fun c => decide (c ≠ sep) := by
    funext c
    exact decide_eq_decide.mpr (not_congr (toLower_eq_iff h))
  rw [lower, lower, List.takeWhile_map, hsep]

theorem lower_dropWhile (s : Text) : lower (s.dropWhile isWhitespace) = (lower s).dropWhile isWhitespace := by
  have hblank : isWhitespace ∘ Char.toLower = isWhitespace := funext isWhitespace_toLower
  rw [lower, lower, List.dropWhile_map, hblank]

theorem lower_trim (s : Text) : lower (trim s) = trim (lower s) := by
  have hreverse : ∀ t : Text, lower t.reverse = (lower t).reverse := fun t => List.map_reverse
  rw [trim, trim, List.rdropWhile, List.rdropWhile, hreverse, lower_dropWhile, hreverse, lower_dropWhile]

theorem lower_mediaType (value : Text) : lower (mediaType value) = mediaType (lower value) := by
  rw [mediaType, mediaType, lower_trim, lower_takeWhile (by decide)]

theorem lower_typeOf (ct : Text) : lower (typeOf ct) = typeOf (lower ct) := lower_takeWhile (by decide) ct

theorem lower_lower (s : Text) : lower (lower s) = lower s := by
  have htwice : Char.toLower ∘ Char.toLower = Char.toLower := by
    funext c
    show c.toLower.toLower = c.toLower
    rcases toLower_cases c.toLower with hc | ⟨-, hhigh, -⟩
    · exact hc
    · rcases toLower_cases c with hc | ⟨hlow, -, hc⟩
      · rw [hc, hc]
      · omega
  rw [lower, lower, List.map_map, htwice]

theorem splitOn_lower {sep : Char} (h : sep.toNat < 65) (s : Text) :
    (lower s).splitOn sep = (s.splitOn sep).map lower := by
  induction s with
  | nil => rfl
  | cons c s ih =>
      have hsep : (c.toLower == sep) = (c == sep) := by
        rw [Bool.eq_iff_iff, beq_iff_eq, beq_iff_eq]
        exact toLower_eq_iff h
      show (c.toLower :: lower s).splitOn sep = _
      rw [List.splitOn_cons_eq_if_modifyHead, List.splitOn_cons_eq_if_modifyHead, hsep, ih]
      split
      · rfl
      · obtain ⟨part, parts, hparts⟩ := List.exists_cons_of_ne_nil (List.splitOn_ne_nil sep s)
        rw [hparts]
        rfl

theorem mediaRanges_lower (acceptValues : List Text) :
    mediaRanges (acceptValues.map lower) = (mediaRanges acceptValues).map lower := by
  have hheader : ∀ header : Text, ((lower header).splitOn ',').map mediaType =
      ((header.splitOn ',').map mediaType).map lower := by
    intro header
    rw [splitOn_lower (by decide), List.map_map, List.map_map]
    exact List.map_congr_left fun accept _ => (lower_mediaType accept).symm
  rw [mediaRanges, mediaRanges, List.flatMap_map, List.map_flatMap]
  exact List.flatMap_congr fun header _ => hheader header

theorem lower_eq_iff {s t : Text} (h : t.all (·.toNat < 65) = true) : lower s = t ↔ s = t := by
  induction t generalizing s with
  | nil => exact List.map_eq_nil_iff
  | cons d t ih =>
      cases s with
      | nil => exact iff_of_false (fun h => by cases h) fun h => by cases h
      | cons c s =>
          rw [List.all_cons, Bool.and_eq_true, decide_eq_true_iff] at h
          show c.toLower :: lower s = d :: t ↔ _
          rw [List.cons_eq_cons, List.cons_eq_cons, toLower_eq_iff h.1, ih h.2]

theorem rangeAllows_lower {ct range : Text} : RangeAllows (lower ct) (lower range) ↔ RangeAllows ct range := by
  have hempty : lower range ≠ [] ↔ range ≠ [] := not_congr List.map_eq_nil_iff
  have hany : lower range = "*/*".toList ↔ range = "*/*".toList := lower_eq_iff (by decide)
  have hwild : (∃ t, lower range = t ++ "/*".toList ∧ lower t = lower (typeOf (lower ct))) ↔
      ∃ t, range = t ++ "/*".toList ∧ lower t = lower (typeOf ct) := by
    rw [← lower_typeOf, lower_lower]
    constructor
    · rintro ⟨t, hrange, ht⟩
      obtain ⟨a, b, rfl, rfl, hb⟩ := List.map_eq_append_iff.mp hrange
      have hb : b = "/*".toList := (lower_eq_iff (by decide)).mp hb
      exact ⟨a, by rw [hb], (lower_lower a).symm.trans ht⟩
    · rintro ⟨t, rfl, ht⟩
      exact ⟨lower t, List.map_append, (lower_lower t).trans ht⟩
  rw [RangeAllows, RangeAllows, hempty, hany, hwild, lower_lower, lower_lower]

/-- The reference does not see case. -/
theorem allowed_lower {responseCt : Text} {acceptValues : List Text} :
    Allowed (lower responseCt) (acceptValues.map lower) ↔ Allowed responseCt acceptValues := by
  rw [Allowed, Allowed, mediaRanges_lower, ← lower_mediaType]
  constructor
  · rintro ⟨_, hmem, hallows⟩
    obtain ⟨range, hrange, rfl⟩ := List.mem_map.mp hmem
    exact ⟨range, hrange, rangeAllows_lower.mp hallows⟩
  · rintro ⟨range, hrange, hallows⟩
    exact ⟨lower range, List.mem_map_of_mem hrange, rangeAllows_lower.mpr hallows⟩

/-- Against the reference: the code agrees with it exactly where the wildcards are in the response's case. It never
depends on the order of the values or on how they are joined, and there it does not depend on case either. -/
theorem contentTypeMatches_reference (responseCt : Text) (acceptValues : List Text) :
    ((contentTypeMatches responseCt acceptValues = true ↔ Allowed responseCt acceptValues) ↔
      WildcardsSpelled responseCt acceptValues) ∧
    (∀ b, acceptValues.Perm b → contentTypeMatches responseCt acceptValues = contentTypeMatches responseCt b) ∧
    (∀ pre post x y, acceptValues = pre ++ (x ++ ',' :: y) :: post →
      contentTypeMatches responseCt acceptValues = contentTypeMatches responseCt (pre ++ x :: y :: post)) ∧
    ∀ ct a, lower responseCt = lower ct → acceptValues.map lower = a.map lower →
      WildcardsSpelled responseCt acceptValues → WildcardsSpelled ct a →
      contentTypeMatches responseCt acceptValues = contentTypeMatches ct a := by
  refine ⟨matches_iff_allowed_iff responseCt acceptValues, fun b hperm => ?_, ?_, ?_⟩
  · exact contentTypeMatches_congr fun range => (mediaRanges_perm hperm).mem_iff
  · rintro pre post x y rfl
    exact contentTypeMatches_congr fun range => by rw [mediaRanges_join]
  · intro ct a hct ha hspelled hspelled'
    rw [Bool.eq_iff_iff, (matches_iff_allowed_iff _ _).mpr hspelled, (matches_iff_allowed_iff ct a).mpr hspelled',
      ← allowed_lower, hct, ha, allowed_lower]

/-- A type in another case is found in a media type, and not in a wildcard. -/
theorem wildcard_case :
    contentTypeMatches "application/json".toList ["application/*".toList] = true ∧
      contentTypeMatches "application/json".toList ["Application/*".toList] = false ∧
      contentTypeMatches "application/json".toList ["Application/JSON".toList] = true ∧
      Allowed "application/json".toList ["Application/*".toList] :=
  ⟨by decide, by decide, by decide, "Application/*".toList, by decide, by decide,
    .inr (.inl ⟨"Application".toList, by decide, by decide⟩)⟩

end HarborRouter
