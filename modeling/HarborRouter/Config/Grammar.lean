import HarborRouter.Config

/-!
# The grammar of durations

A duration is a concatenation of components, each a number and a unit. The loop reads the longest such prefix of a
string, component by component: a number ends where its unit starts, and "ms" is never read as minutes.

* `readComponents_render`, `readComponents_sound` : what the loop reads;
* `parseGoDuration_grammar` : what is accepted without a '.', and the exact sum below `2 ^ 53`;
* `parseGoDuration_grows_iff` : when the total does not overflow.
-/

namespace HarborRouter
open Lib Text Binary64

namespace DurationUnit

def text : DurationUnit → Text
  | .ms => "ms".toList
  | .s => "s".toList
  | .m => "m".toList
  | .h => "h".toList

def factor : DurationUnit → Nat
  | .ms => 1
  | .s => 1000
  | .m => 60000
  | .h => 3600000

theorem millis_whole {n : Nat} {unit : DurationUnit} (h : n * unit.factor < 2 ^ 53) :
    unit.millis (Float.Model.ofScientific n 0) = n * unit.factor := by
  have hn : n < 2 ^ 53 := by
    have hle : n ≤ n * unit.factor := Nat.le_mul_of_pos_right n (by cases unit <;> decide)
    exact hle.trans_lt h
  rw [ofScientific_whole hn]
  cases unit with
  | ms =>
      show (whole n).toUInt64.toNat = n * 1
      rw [toUInt64_whole hn, Nat.mul_one]
  | s => exact toUInt64_mul hn (by decide) h
  | m => exact toUInt64_mul hn (by decide) h
  | h => exact toUInt64_mul hn (by decide) h

end DurationUnit

theorem parseUnit_text {unit : DurationUnit} {rest : Text} (h : rest.head? ≠ some 's') :
    parseUnit (unit.text ++ rest) = some (unit, rest) := by
  cases unit with
  | ms => rfl
  | s => rfl
  | h => rfl
  | m =>
      show parseUnit ('m' :: rest) = _
      unfold parseUnit
      split
      · rename_i heq
        cases heq
        exact absurd rfl h
      · rename_i heq
        cases heq
      · rename_i heq
        cases heq
        rfl
      · rename_i heq
        cases heq
      · rename_i hm _
        exact absurd rfl (hm rest)

theorem parseUnit_some {unit : DurationUnit} {s rest : Text} (h : parseUnit s = some (unit, rest)) :
    s = unit.text ++ rest := by
  unfold parseUnit at h
  split at h <;> cases h <;> rfl

/-! ## Components -/

structure Component where
  number : Text
  value : Float.Model
  chars : ∀ x ∈ number, isNumberChar x = true
  parses : parseF64 number = some value
  unit : DurationUnit

namespace Component

def text (c : Component) : Text := c.number ++ c.unit.text

def millis (c : Component) : Nat := c.unit.millis c.value

def render (cs : List Component) : Text := cs.flatMap text

theorem number_ne (c : Component) : c.number ≠ [] := parseF64_ne_nil c.parses

theorem takeWhile_text (c : Component) (rest : Text) :
    (c.text ++ rest).takeWhile isNumberChar = c.number ∧
      (c.text ++ rest).dropWhile isNumberChar = c.unit.text ++ rest := by
  have hunit : (c.unit.text ++ rest).takeWhile isNumberChar = [] ∧
      (c.unit.text ++ rest).dropWhile isNumberChar = c.unit.text ++ rest := by
    cases c.unit <;> exact ⟨rfl, rfl⟩
  rw [text, List.append_assoc, List.takeWhile_append_of_pos c.chars, List.dropWhile_append_of_pos c.chars, hunit.1,
    hunit.2, List.append_nil]
  exact ⟨rfl, rfl⟩

theorem scanComponent_text (c : Component) {rest : Text} (h : rest.head? ≠ some 's') :
    scanComponent (c.text ++ rest) = some (c.millis, rest) := by
  obtain ⟨htake, hdrop⟩ := c.takeWhile_text rest
  rw [scanComponent]
  dsimp only
  rw [htake, hdrop, if_neg c.number_ne, c.parses, parseUnit_text h]
  rfl

theorem text_head (c : Component) (rest : Text) : (c.text ++ rest).head? ≠ some 's' := by
  obtain ⟨x, number, hnumber⟩ := List.exists_cons_of_ne_nil c.number_ne
  have hx : isNumberChar x = true := c.chars x (hnumber ▸ List.mem_cons_self)
  rw [text, hnumber]
  rintro ⟨⟩
  exact absurd hx (by decide)

theorem render_head (cs : List Component) : (render cs).head? ≠ some 's' := by
  cases cs with
  | nil => exact nofun
  | cons c cs => exact c.text_head (render cs)

theorem render_append (cs ds : List Component) : render (cs ++ ds) = render cs ++ render ds :=
  List.flatMap_append

theorem render_ne {cs : List Component} (h : cs ≠ []) : render cs ≠ [] := by
  obtain ⟨c, cs, rfl⟩ := List.exists_cons_of_ne_nil h
  intro hnil
  exact c.number_ne (List.append_eq_nil_iff.mp (List.append_eq_nil_iff.mp hnil).1).1

end Component

open Component (render)

theorem scanComponent_sound {chars rest : Text} {ms : Nat} (h : scanComponent chars = some (ms, rest)) :
    ∃ c : Component, chars = c.text ++ rest ∧ ms = c.millis := by
  obtain ⟨n, unit, hn, hunit, hms⟩ := scanComponent_some h
  refine ⟨⟨_, n, fun x hx => List.mem_takeWhile_imp hx, hn, unit⟩, ?_, hms⟩
  rw [Component.text, List.append_assoc, ← parseUnit_some hunit]
  exact List.takeWhile_append_dropWhile.symm

theorem readComponents_render (cs : List Component) : readComponents (render cs) = (cs.map Component.millis, []) := by
  induction cs with
  | nil => exact readComponents_none rfl
  | cons c cs ih =>
      have hscan := c.scanComponent_text (Component.render_head cs)
      show readComponents (c.text ++ render cs) = _
      rw [readComponents_some hscan, ih]
      rfl

theorem readComponents_sound (chars : Text) :
    ∃ cs, chars = render cs ++ (readComponents chars).2 ∧ (readComponents chars).1 = cs.map Component.millis := by
  induction hlen : chars.length using Nat.strong_induction_on generalizing chars with
  | h len ih =>
      cases hscan : scanComponent chars with
      | none =>
          rw [readComponents_none hscan]
          exact ⟨[], rfl, rfl⟩
      | some p =>
          obtain ⟨ms, rest⟩ := p
          obtain ⟨c, hchars, rfl⟩ := scanComponent_sound hscan
          obtain ⟨cs, hrest, hmillis⟩ := ih rest.length (hlen ▸ scanComponent_length hscan) rest rfl
          rw [readComponents_some hscan]
          refine ⟨c :: cs, ?_, by rw [hmillis, List.map_cons]⟩
          show chars = (c.text ++ render cs) ++ _
          rw [List.append_assoc, ← hrest]
          exact hchars

theorem componentsTotal_render (cs : List Component) : componentsTotal (render cs) = (cs.map Component.millis).sum := by
  rw [componentsTotal, readComponents_render]

/-- What a build accepts consists of components. -/
theorem render_of_accepted {b : Build} {s : Text} {d : Nat} (h : parseGoDuration b s = .ok (some d)) :
    ∃ cs, cs ≠ [] ∧ s = render cs := by
  obtain ⟨hne, hall, -⟩ := parseGoDuration_accepts_iff.mp h
  obtain ⟨cs, hs, -⟩ := readComponents_sound s
  rw [hall, List.append_nil] at hs
  refine ⟨cs, ?_, hs⟩
  rintro rfl
  exact hne hs

theorem accepted_of_render {cs : List Component} (hne : cs ≠ []) :
    ∃ d, parseGoDuration .release (render cs) = .ok (some d) := by
  obtain ⟨t, ht⟩ := addAll_release 0 (cs.map Component.millis)
  refine ⟨t, parseGoDuration_accepts_iff.mpr ⟨Component.render_ne hne, ?_, ?_⟩⟩
  · rw [readComponents_render]
  · rw [readComponents_render, ht]

theorem parseGoDuration_release (s : Text) : ∃ r, parseGoDuration .release s = .ok r := by
  by_cases hne : s = []
  · subst hne
    exact ⟨none, rfl⟩
  · obtain ⟨t, ht⟩ := addAll_release 0 (readComponents s).1
    rw [parseGoDuration_eq _ hne, ht]
    exact ⟨_, rfl⟩

/-! ## Whole numbers -/

structure WholeComponent where
  digits : Text
  digits_ne : digits ≠ []
  digits_isDigit : digits.all Char.isDigit = true
  unit : DurationUnit

namespace WholeComponent

def text (c : WholeComponent) : Text := c.digits ++ c.unit.text

def amount (c : WholeComponent) : Nat := Nat.ofDigitChars 10 c.digits 0 * c.unit.factor

def toComponent (c : WholeComponent) : Component where
  number := c.digits
  value := Float.Model.ofScientific (Nat.ofDigitChars 10 c.digits 0) 0
  chars x hx := by rw [isNumberChar, List.all_eq_true.mp c.digits_isDigit x hx, Bool.true_or]
  parses := parseF64_digits c.digits_ne c.digits_isDigit
  unit := c.unit

theorem millis_toComponent {c : WholeComponent} (h : c.amount < 2 ^ 53) : c.toComponent.millis = c.amount :=
  DurationUnit.millis_whole h

theorem render_toComponent (cs : List WholeComponent) : render (cs.map toComponent) = cs.flatMap text :=
  List.flatMap_map ..

theorem total_toComponent {cs : List WholeComponent} (h : (cs.map amount).sum < 2 ^ 53) :
    ((cs.map toComponent).map Component.millis).sum = (cs.map amount).sum := by
  rw [List.map_map]
  refine congrArg List.sum (List.map_congr_left fun c hc => ?_)
  exact millis_toComponent ((List.le_sum_of_mem (List.mem_map_of_mem hc)).trans_lt h)

/-- Without a '.', a component is one. -/
theorem exists_toComponent {c : Component} (h : '.' ∉ c.number) : ∃ w : WholeComponent, w.toComponent = c := by
  have hdigits : c.number.all Char.isDigit = true := by
    refine List.all_eq_true.mpr fun x hx => ?_
    have hchar := c.chars x hx
    rw [isNumberChar, Bool.or_eq_true, beq_iff_eq] at hchar
    refine hchar.resolve_right ?_
    rintro rfl
    exact h hx
  obtain ⟨number, value, chars, parses, unit⟩ := c
  have hne : number ≠ [] := parseF64_ne_nil parses
  obtain rfl := Option.some.inj ((parseF64_digits hne hdigits).symm.trans parses)
  exact ⟨⟨number, hne, hdigits, unit⟩, rfl⟩

theorem exists_toComponents {cs : List Component} (h : '.' ∉ render cs) :
    ∃ ws : List WholeComponent, ws.map toComponent = cs := by
  induction cs with
  | nil => exact ⟨[], rfl⟩
  | cons c cs ih =>
      have hparts : '.' ∉ c.number ∧ '.' ∉ render cs :=
        ⟨fun hm => h (List.mem_append_left _ (List.mem_append_left _ hm)), fun hm => h (List.mem_append_right _ hm)⟩
      obtain ⟨w, rfl⟩ := exists_toComponent hparts.1
      obtain ⟨ws, rfl⟩ := ih hparts.2
      exact ⟨w :: ws, rfl⟩

end WholeComponent

/-- `<digits><unit>`, once or more. -/
def IsDuration (s : Text) : Prop := ∃ cs : List WholeComponent, cs ≠ [] ∧ s = cs.flatMap WholeComponent.text

theorem isDuration_of_render {cs : List Component} (hne : cs ≠ []) (hdot : '.' ∉ render cs) :
    IsDuration (render cs) := by
  obtain ⟨ws, rfl⟩ := WholeComponent.exists_toComponents hdot
  exact ⟨ws, fun h => hne (h ▸ rfl), WholeComponent.render_toComponent ws⟩

/-- Without a '.', a release build accepts the durations and nothing else, and every build is exact below `2 ^ 53`
milliseconds. The checked builds differ only where the total overflows. -/
theorem parseGoDuration_grammar {s : Text} (hdot : '.' ∉ s) :
    ((∃ d, parseGoDuration .release s = .ok (some d)) ↔ IsDuration s) ∧
      (¬ IsDuration s → parseGoDuration .release s = .ok none) ∧
      (∀ cs : List WholeComponent, cs ≠ [] → s = cs.flatMap WholeComponent.text →
        (cs.map WholeComponent.amount).sum < 2 ^ 53 →
        ∀ b, parseGoDuration b s = .ok (some (cs.map WholeComponent.amount).sum)) ∧
      (componentsTotal s < UInt64.size → parseGoDuration .checked s = parseGoDuration .release s) := by
  have haccepts : (∃ d, parseGoDuration .release s = .ok (some d)) ↔ IsDuration s := by
    constructor
    · rintro ⟨d, hd⟩
      obtain ⟨cs, hne, rfl⟩ := render_of_accepted hd
      exact isDuration_of_render hne hdot
    · rintro ⟨ws, hne, rfl⟩
      rw [← WholeComponent.render_toComponent]
      exact accepted_of_render (by simpa using hne)
  refine ⟨haccepts, fun hnot => ?_, ?_, fun htotal => ?_⟩
  · obtain ⟨r, hr⟩ := parseGoDuration_release s
    cases r with
    | none => exact hr
    | some d => exact absurd (haccepts.mp ⟨d, hr⟩) hnot
  · rintro ws hne rfl hlt b
    have htotal : componentsTotal (ws.flatMap WholeComponent.text) = (ws.map WholeComponent.amount).sum := by
      rw [← WholeComponent.render_toComponent, componentsTotal_render, WholeComponent.total_toComponent hlt]
    have hread : (readComponents (ws.flatMap WholeComponent.text)).2 = [] := by
      rw [← WholeComponent.render_toComponent, readComponents_render]
    have hsome : ws.flatMap WholeComponent.text ≠ [] := by
      rw [← WholeComponent.render_toComponent]
      exact Component.render_ne (by simpa using hne)
    rw [parseGoDuration_of_lt b hsome (htotal ▸ hlt.trans (by decide)), if_pos hread, htotal]
  · obtain ⟨r, hr⟩ := (parseGoDuration_builds_iff s).mpr htotal
    rw [hr, hr]

def hourAndHalf : List WholeComponent :=
  [⟨['1'], by decide, by decide, .h⟩, ⟨['3', '0'], by decide, by decide, .m⟩]

theorem parseGoDuration_hourAndHalf :
    parseGoDuration .release "1h30m".toList = .ok (some 5400000) ∧
      parseGoDuration .checked "1h30m".toList = .ok (some 5400000) := by
  have hsum : (hourAndHalf.map WholeComponent.amount).sum = 5400000 := by decide +kernel
  have hparse := (parseGoDuration_grammar (s := "1h30m".toList) (by decide)).2.2.1 hourAndHalf (by decide) rfl
  rw [hsum] at hparse
  exact ⟨hparse (by decide) .release, hparse (by decide) .checked⟩

/-! ## The total -/

/-- No overflow exactly where the components add up to less than `2 ^ 64`: then the builds agree, and a string is never
shorter than what it continues. -/
theorem parseGoDuration_grows_iff (s : Text) :
    ((∃ r, ∀ b, parseGoDuration b s = .ok r) ∧
      ∀ (p : Text) (c : Component) (b : Build) (d : Nat), s = p ++ c.text → parseGoDuration b p = .ok (some d) →
        ∃ d', parseGoDuration b s = .ok (some d') ∧ d ≤ d') ↔
    componentsTotal s < UInt64.size := by
  rw [parseGoDuration_builds_iff]
  refine ⟨And.left, fun hlt => ⟨hlt, ?_⟩⟩
  rintro p c b d rfl hp
  obtain ⟨cs, hne, rfl⟩ := render_of_accepted hp
  have hs : render cs ++ c.text = render (cs ++ [c]) := by
    rw [Component.render_append]
    exact congrArg (render cs ++ ·) (List.append_nil _).symm
  have htotal : componentsTotal (render (cs ++ [c])) = componentsTotal (render cs) + c.millis := by
    rw [componentsTotal_render, componentsTotal_render, List.map_append, List.sum_append]
    exact congrArg _ (Nat.add_zero _)
  rw [hs] at hlt ⊢
  have hd : d = componentsTotal (render cs) := by
    rw [parseGoDuration_of_lt b (Component.render_ne hne) (by omega), readComponents_render] at hp
    cases hp
    rfl
  refine ⟨componentsTotal (render (cs ++ [c])), ?_, by omega⟩
  rw [parseGoDuration_of_lt b (Component.render_ne (by simp)) hlt, readComponents_render]
  rfl

/-- One millisecond more than a `u64` holds: a panic, or no time at all. -/
theorem parseGoDuration_overflows :
    parseGoDuration .release "18446744073709551615ms".toList = .ok (some 18446744073709551615) ∧
      parseGoDuration .checked "18446744073709551615ms1ms".toList = .error .overflow ∧
      parseGoDuration .release "18446744073709551615ms1ms".toList = .ok (some 0) := by
  decide +kernel

end HarborRouter
