import Mathlib.Data.List.Infix
import Mathlib.Data.List.DropRight
import Mathlib.Tactic.Common

/-!
# Text

A text is a list of Unicode scalar values. The operations are those of Rust's `str` on well-formed strings: substring
search, `strip_suffix`, `rfind`, `split_once`, `replace`, `trim`, `char::is_control`, decimal formatting and
`parse::<u64>`. Positions are counted in characters, but for `sliceFrom` and `sliceTo`.
-/

namespace Lib

abbrev Text := List Char

namespace Text

instance : LawfulBEq Text := inferInstanceAs (LawfulBEq (List Char))

/-! ## Substrings -/

/-- `str::contains` with a string pattern. -/
def contains (pat : Text) : Text → Bool
  | [] => pat.isEmpty
  | c :: s => pat.isPrefixOf (c :: s) || contains pat s

theorem contains_iff {pat s : Text} : contains pat s = true ↔ pat <:+: s := by
  induction s with
  | nil => simp [contains]
  | cons c s ih => rw [contains, Bool.or_eq_true, ih, List.isPrefixOf_iff_prefix, List.infix_cons_iff]

theorem contains_eq_false_iff {pat s : Text} : contains pat s = false ↔ ¬ pat <:+: s := by
  rw [← contains_iff, Bool.not_eq_true]

/-- A prefix without the pattern's first character hides no occurrence. -/
theorem contains_append_of_notMem {c : Char} {pat a b : Text} (h : c ∉ a) :
    contains (c :: pat) (a ++ b) = contains (c :: pat) b := by
  induction a with
  | nil => rfl
  | cons d a ih =>
      have hd : c ≠ d := fun he => h (he ▸ List.mem_cons_self)
      have hp : (c :: pat).isPrefixOf (d :: (a ++ b)) = false := by
        rw [List.isPrefixOf_cons_cons, beq_false_of_ne hd, Bool.false_and]
      rw [List.cons_append, contains, hp, Bool.false_or, ih fun hm => h (List.mem_cons_of_mem d hm)]

theorem prefix_append_cases {w a b : Text} (h : w <+: a ++ b) : w <+: a ∨ ∃ y, w = a ++ y ∧ y <+: b := by
  obtain ⟨t, ht⟩ := h
  rcases List.append_eq_append_iff.mp ht with ⟨s, ha, -⟩ | ⟨s, hw, hb⟩
  · exact .inl ⟨s, ha.symm⟩
  · exact .inr ⟨s, hw, t, hb.symm⟩

theorem not_prefix_toList {a b : String} {l m : Text} (ha : a = .ofList l) (hb : b = .ofList m)
    (h : l.isPrefixOf m = false) : ¬ a.toList <+: b.toList := by
  rw [ha, hb, String.toList_ofList, String.toList_ofList, ← List.isPrefixOf_iff_prefix, h]
  exact Bool.false_ne_true

theorem infix_append_cases {w a b : Text} (h : w <:+: a ++ b) :
    w <:+: a ∨ w <:+: b ∨ ∃ x y, x ≠ [] ∧ w = x ++ y ∧ x <:+ a ∧ y <+: b := by
  induction a with
  | nil => exact .inr (.inl h)
  | cons d a ih =>
      rcases List.infix_cons_iff.mp h with h | h
      · rcases prefix_append_cases (a := d :: a) h with h | ⟨y, hw, hy⟩
        · exact .inl h.isInfix
        · exact .inr (.inr ⟨d :: a, y, List.cons_ne_nil d a, hw, List.suffix_rfl, hy⟩)
      · rcases ih h with h | h | ⟨x, y, hx, hw, hxa, hyb⟩
        · exact .inl (h.trans (List.suffix_cons d a).isInfix)
        · exact .inr (.inl h)
        · exact .inr (.inr ⟨x, y, hx, hw, hxa.trans (List.suffix_cons d a), hyb⟩)

/-- What does not begin at the end of the first text stands in the second. -/
theorem infix_append_of_unfinished {w a b : Text} (h : ∀ x ∈ w.inits, x ≠ [] → ¬ x <:+ a)
    (ha : ¬ w <:+: a) : w <:+: a ++ b ↔ w <:+: b := by
  refine ⟨fun hw => ?_, fun hw => hw.trans (List.suffix_append a b).isInfix⟩
  rcases infix_append_cases hw with hw | hw | ⟨x, y, hx, rfl, hxa, -⟩
  · exact absurd hw ha
  · exact hw
  · exact absurd hxa (h x ((List.mem_inits x _).mpr (List.prefix_append x y)) hx)

theorem infix_append_cons_iff {c : Char} {w a b : Text} (hc : c ∉ w) : w <:+: a ++ c :: b ↔ w <:+: a ∨ w <:+: b := by
  constructor
  · intro h
    rcases infix_append_cases h with h | h | ⟨x, y, -, rfl, hxa, hyb⟩
    · exact .inl h
    · refine .inr ((List.infix_cons_iff.mp h).elim (fun hpre => ?_) id)
      cases w with
      | nil => exact List.nil_infix
      | cons d w =>
          obtain ⟨rfl, -⟩ := List.cons_prefix_cons.mp hpre
          exact absurd List.mem_cons_self hc
    · cases y with
      | nil =>
          rw [List.append_nil]
          exact .inl hxa.isInfix
      | cons d y =>
          obtain ⟨rfl, -⟩ := List.cons_prefix_cons.mp hyb
          exact absurd (List.mem_append_right x List.mem_cons_self) hc
  · rintro (h | h)
    · exact h.trans (List.prefix_append a _).isInfix
    · exact h.trans ((List.suffix_cons c b).trans (List.suffix_append a _)).isInfix

/-- `str::strip_suffix`. -/
def stripSuffix (suf s : Text) : Option Text :=
  if suf.isSuffixOf s then some (s.take (s.length - suf.length)) else none

theorem stripSuffix_eq_some {suf s a : Text} : stripSuffix suf s = some a ↔ s = a ++ suf := by
  unfold stripSuffix
  split
  · rename_i h
    obtain ⟨b, rfl⟩ := List.isSuffixOf_iff_suffix.mp h
    simp [eq_comm]
  · rename_i h
    refine ⟨nofun, ?_⟩
    rintro rfl
    exact absurd (List.isSuffixOf_iff_suffix.mpr ⟨a, rfl⟩) h

/-- `str::rfind` with a string pattern: where its last occurrence starts. -/
def rfind (pat : Text) : Text → Option Nat
  | [] => if pat.isEmpty then some 0 else none
  | c :: s =>
      match rfind pat s with
      | some i => some (i + 1)
      | none => if pat.isPrefixOf (c :: s) then some 0 else none

theorem rfind_eq_none {pat s : Text} : rfind pat s = none ↔ ¬ pat <:+: s := by
  induction s with
  | nil => cases pat <;> simp [rfind]
  | cons c s ih =>
      rw [rfind, List.infix_cons_iff, not_or, ← ih]
      split
      · simp_all
      · rw [ite_eq_right_iff]
        simp_all

theorem rfind_some {pat s : Text} {i : Nat} (hne : pat ≠ []) (h : rfind pat s = some i) :
    s = s.take i ++ pat ++ s.drop (i + pat.length) ∧ ∀ j > i, ¬ pat <+: s.drop j := by
  induction s generalizing i with
  | nil =>
      simp [rfind, hne] at h
  | cons c s ih =>
      rw [rfind] at h
      split at h
      · rename_i k hk
        cases h
        obtain ⟨h1, h2⟩ := ih hk
        refine ⟨?_, fun j hj => ?_⟩
        · rw [List.take_succ_cons, Nat.add_right_comm, List.drop_succ_cons, List.cons_append, List.cons_append, ← h1]
        · obtain ⟨j, rfl⟩ := Nat.exists_eq_succ_of_ne_zero (Nat.ne_zero_of_lt hj)
          exact h2 j (by omega)
      · rename_i hk
        split at h
        · cases h
          rename_i hp
          obtain ⟨t, ht⟩ := List.isPrefixOf_iff_prefix.mp hp
          refine ⟨by simp [← ht], fun j hj hpre => ?_⟩
          obtain ⟨j, rfl⟩ := Nat.exists_eq_succ_of_ne_zero (Nat.ne_zero_of_lt hj)
          exact rfind_eq_none.mp hk (hpre.isInfix.trans (List.drop_suffix j s).isInfix)
        · cases h

theorem rfind_prefix {pat s : Text} {i : Nat} (h : rfind pat s = some i) : pat <+: s.drop i := by
  induction s generalizing i with
  | nil =>
      rw [rfind] at h
      split at h
      · rename_i hpat
        rw [List.isEmpty_iff.mp hpat]
        exact List.nil_prefix
      · cases h
  | cons c s ih =>
      rw [rfind] at h
      split at h
      · cases h
        exact ih ‹_›
      · split at h
        · cases h
          exact List.isPrefixOf_iff_prefix.mp ‹_›
        · cases h

theorem rfind_of_last {pat s : Text} {i : Nat} (hne : pat ≠ []) (h : pat <+: s.drop i)
    (hlast : ∀ j > i, ¬ pat <+: s.drop j) : rfind pat s = some i := by
  cases hr : rfind pat s with
  | none => exact absurd (h.isInfix.trans (List.drop_suffix i s).isInfix) (rfind_eq_none.mp hr)
  | some k =>
      rcases Nat.lt_trichotomy k i with hlt | rfl | hlt
      · exact absurd h ((rfind_some hne hr).2 i hlt)
      · rfl
      · have hpre := rfind_prefix hr
        exact absurd hpre (hlast k hlt)

theorem cut_eq_cut {c : Char} {a b x y : Text} (h : a ++ c :: x = b ++ c :: y) :
    (a = b ∧ x = y) ∨ (∃ s, a = b ++ c :: s ∧ y = s ++ c :: x) ∨ ∃ s, b = a ++ c :: s ∧ x = s ++ c :: y := by
  rcases List.append_eq_append_iff.mp h with ⟨s, hb, hx⟩ | ⟨s, ha, hy⟩
  · cases s with
    | nil =>
        rw [List.append_nil] at hb
        exact .inl ⟨hb.symm, (List.cons.inj hx).2⟩
    | cons d s =>
        obtain ⟨rfl, hrest⟩ := List.cons.inj hx
        exact .inr (.inr ⟨s, hb, hrest⟩)
  · cases s with
    | nil =>
        rw [List.append_nil] at ha
        exact .inl ⟨ha, (List.cons.inj hy).2.symm⟩
    | cons d s =>
        obtain ⟨rfl, hrest⟩ := List.cons.inj hy
        exact .inr (.inl ⟨s, ha, hrest⟩)

theorem last_cut_eq {c : Char} {a b x y : Text} (hx : c ∉ x) (hy : c ∉ y) (h : a ++ c :: x = b ++ c :: y) :
    a = b ∧ x = y := by
  rcases cut_eq_cut h with h | ⟨s, -, rfl⟩ | ⟨s, -, rfl⟩
  · exact h
  · exact absurd (by simp) hy
  · exact absurd (by simp) hx

/-- `str::split_once` with a character pattern. -/
def splitOnce (c : Char) (s : Text) : Option (Text × Text) :=
  if c ∈ s then some (s.takeWhile (· ≠ c), (s.dropWhile (· ≠ c)).tail) else none

theorem splitOnce_append {c : Char} {a b : Text} (h : c ∉ a) : splitOnce c (a ++ c :: b) = some (a, b) := by
  have ha : ∀ x ∈ a, decide (x ≠ c) = true := fun x hx => by
    rw [decide_eq_true_iff]
    rintro rfl
    exact h hx
  rw [splitOnce, if_pos (by simp), List.takeWhile_append_of_pos ha, List.dropWhile_append_of_pos ha]
  simp

theorem splitOnce_eq_none {c : Char} {s : Text} : splitOnce c s = none ↔ c ∉ s := by
  unfold splitOnce; split <;> simp_all

/-- The first item of `str::split` with a character pattern. -/
def firstPart (c : Char) (s : Text) : Text := s.takeWhile (· ≠ c)

theorem notMem_firstPart (c : Char) (s : Text) : c ∉ firstPart c s := by
  intro h
  have := List.mem_takeWhile_imp h
  simp at this

theorem firstPart_append {c : Char} {a b : Text} (h : c ∉ a) : firstPart c (a ++ c :: b) = a := by
  have ha : ∀ x ∈ a, decide (x ≠ c) = true := fun x hx => by
    rw [decide_eq_true_iff]
    rintro rfl
    exact h hx
  rw [firstPart, List.takeWhile_append_of_pos ha]
  simp

/-! ## Replacing -/

/-- `str::replace` with a character pattern. -/
def replace (c : Char) (new s : Text) : Text := s.flatMap fun d => if d = c then new else [d]

theorem replace_append (c : Char) (new a b : Text) :
    replace c new (a ++ b) = replace c new a ++ replace c new b :=
  List.flatMap_append

theorem replace_singleton_of_ne {c d : Char} (h : d ≠ c) (new : Text) : replace c new [d] = [d] := by
  rw [replace, List.flatMap_singleton, if_neg h]

/-! ## Byte offsets -/

/-- `str::len`, in bytes of UTF-8. -/
def byteLen (s : Text) : Nat := s.foldr (fun c n => c.utf8Size + n) 0

/-- `&s[n..]` for a byte offset; `none` is the panic outside a character boundary. -/
def sliceFrom : Text → Nat → Option Text
  | s, 0 => some s
  | [], _ + 1 => none
  | c :: s, n + 1 => if n + 1 < c.utf8Size then none else sliceFrom s (n + 1 - c.utf8Size)

/-- `&s[..n]` for a byte offset; `none` is the panic outside a character boundary. -/
def sliceTo : Text → Nat → Option Text
  | _, 0 => some []
  | [], _ + 1 => none
  | c :: s, n + 1 => if n + 1 < c.utf8Size then none else (sliceTo s (n + 1 - c.utf8Size)).map (c :: ·)

theorem byteLen_append (a b : Text) : byteLen (a ++ b) = byteLen a + byteLen b := by
  induction a with
  | nil => exact (Nat.zero_add _).symm
  | cons c a ih =>
      show c.utf8Size + byteLen (a ++ b) = c.utf8Size + byteLen a + byteLen b
      rw [ih, Nat.add_assoc]

theorem byteLen_pos {s : Text} (h : s ≠ []) : 0 < byteLen s := by
  cases s with
  | nil => exact absurd rfl h
  | cons c s => exact Nat.add_pos_left c.utf8Size_pos _

theorem sliceFrom_append (a b : Text) : sliceFrom (a ++ b) (byteLen a) = some b := by
  induction a with
  | nil => cases b <;> rfl
  | cons c a ih =>
      have hlen : byteLen (c :: a) = c.utf8Size + byteLen a := rfl
      obtain ⟨n, hn⟩ := Nat.exists_eq_succ_of_ne_zero (Nat.ne_of_gt (byteLen_pos (List.cons_ne_nil c a)))
      rw [List.cons_append, hn, sliceFrom, if_neg (by omega), show n + 1 - c.utf8Size = byteLen a by omega, ih]

theorem sliceTo_eq_some {s t : Text} {n : Nat} : sliceTo s n = some t ↔ t <+: s ∧ byteLen t = n := by
  induction s generalizing t n with
  | nil =>
      cases n with
      | zero =>
          refine ⟨fun h => by cases h; exact ⟨List.nil_prefix, rfl⟩, fun h => ?_⟩
          rw [List.prefix_nil.mp h.1]
          rfl
      | succ n =>
          refine iff_of_false nofun fun ⟨ht, hn⟩ => ?_
          rw [List.prefix_nil.mp ht] at hn
          cases hn
  | cons c s ih =>
      cases n with
      | zero =>
          refine ⟨fun h => by cases h; exact ⟨List.nil_prefix, rfl⟩, fun h => ?_⟩
          obtain rfl : t = [] := by
            by_contra hne
            exact absurd h.2 (Nat.ne_of_gt (byteLen_pos hne))
          rfl
      | succ n =>
          have hcons : ∀ u : Text,
              byteLen (c :: u) = n + 1 ↔ ¬ n + 1 < c.utf8Size ∧ byteLen u = n + 1 - c.utf8Size := by
            intro u
            have hlen : byteLen (c :: u) = c.utf8Size + byteLen u := rfl
            omega
          rw [sliceTo]
          constructor
          · intro h
            split at h
            · cases h
            · rename_i hfits
              obtain ⟨u, hu, rfl⟩ := Option.map_eq_some_iff.mp h
              obtain ⟨hpre, hlen⟩ := ih.mp hu
              exact ⟨List.cons_prefix_cons.mpr ⟨rfl, hpre⟩, (hcons u).mpr ⟨hfits, hlen⟩⟩
          · rintro ⟨hpre, hlen⟩
            cases t with
            | nil => cases hlen
            | cons d u =>
                obtain ⟨rfl, htail⟩ := List.cons_prefix_cons.mp hpre
                obtain ⟨hfits, hlen⟩ := (hcons u).mp hlen
                rw [if_neg hfits, ih.mpr ⟨htail, hlen⟩]
                rfl

/-! ## Characters -/

/-- `char::is_control`: the Unicode category Cc. -/
def isControl (c : Char) : Bool := c.toNat < 0x20 || (0x7F ≤ c.toNat && c.toNat ≤ 0x9F)

/-- `char::is_whitespace`: the Unicode property White_Space. -/
def isWhitespace (c : Char) : Bool :=
  (0x09 ≤ c.toNat && c.toNat ≤ 0x0D) || c.toNat == 0x20 || c.toNat == 0x85 || c.toNat == 0xA0 ||
    c.toNat == 0x1680 || (0x2000 ≤ c.toNat && c.toNat ≤ 0x200A) || c.toNat == 0x2028 || c.toNat == 0x2029 ||
    c.toNat == 0x202F || c.toNat == 0x205F || c.toNat == 0x3000

/-- `str::trim`. -/
def trim (s : Text) : Text := (s.dropWhile isWhitespace).rdropWhile isWhitespace

/-- `str::eq_ignore_ascii_case`. -/
def eqIgnoreAsciiCase (a b : Text) : Bool := a.map Char.toLower == b.map Char.toLower

/-! ## Numbers -/

def decimal (n : Nat) : Text := Nat.toDigits 10 n

/-- `str::parse::<u64>`: an optional `+`, then digits, that fit. -/
def parseU64 (s : Text) : Option Nat :=
  let digits := if s.head? = some '+' then s.tail else s
  if digits = [] || !digits.all Char.isDigit then none
  else if Nat.ofDigitChars 10 digits 0 < UInt64.size then some (Nat.ofDigitChars 10 digits 0) else none

/-- `str::parse::<u32>`. -/
def parseU32 (s : Text) : Option Nat := (parseU64 s).filter (· < UInt32.size)

theorem parseU64_lt {s : Text} {n : Nat} (h : parseU64 s = some n) : n < UInt64.size := by
  unfold parseU64 at h
  generalize (if s.head? = some '+' then s.tail else s) = digits at h
  dsimp only at h
  split at h
  · cases h
  · split at h
    · rename_i hlt
      cases h
      exact hlt
    · cases h

theorem parseU32_lt {s : Text} {n : Nat} (h : parseU32 s = some n) : n < UInt32.size :=
  of_decide_eq_true (Option.filter_eq_some_iff.mp h).2

theorem decimal_isDigit {n : Nat} {c : Char} (h : c ∈ decimal n) : c.isDigit = true :=
  Nat.isDigit_of_mem_toDigits (by decide) (by decide) h

theorem parseU64_decimal_eq (n : Nat) : parseU64 (decimal n) = if n < UInt64.size then some n else none := by
  have hall : (decimal n).all Char.isDigit = true := List.all_eq_true.mpr fun c hc => decimal_isDigit hc
  have hplus : (decimal n).head? ≠ some '+' := by
    intro hh
    have := decimal_isDigit (List.mem_of_mem_head? hh)
    exact absurd this (by decide)
  have hne : decimal n ≠ [] := Nat.toDigits_ne_nil
  rw [parseU64, if_neg hplus]
  simp only [hne, decide_false, hall, Bool.not_true, Bool.or_self, Bool.false_eq_true, if_false]
  rw [decimal, Nat.ofDigitChars_ten_toDigits]

theorem parseU64_decimal {n : Nat} (h : n < UInt64.size) : parseU64 (decimal n) = some n := by
  rw [parseU64_decimal_eq, if_pos h]

theorem parseU64_chars {s : Text} {n : Nat} (h : parseU64 s = some n) {c : Char} (hc : c ∈ s) :
    c = '+' ∨ c.isDigit = true := by
  have hall : ∀ digits : Text, (if digits = [] || !digits.all Char.isDigit then none
      else if Nat.ofDigitChars 10 digits 0 < UInt64.size then some (Nat.ofDigitChars 10 digits 0) else none) = some n →
      ∀ d ∈ digits, d.isDigit = true := by
    intro digits hsome
    by_cases hbad : (digits = [] || !digits.all Char.isDigit) = true
    · rw [if_pos hbad] at hsome
      cases hsome
    · rw [Bool.or_eq_true, not_or, Bool.not_eq_true', Bool.not_eq_false] at hbad
      exact List.all_eq_true.mp hbad.2
  by_cases hplus : s.head? = some '+'
  · rw [parseU64, if_pos hplus] at h
    obtain ⟨t, rfl⟩ := List.head?_eq_some_iff.mp hplus
    exact (List.mem_cons.mp hc).imp_right fun hc => hall t h c hc
  · rw [parseU64, if_neg hplus] at h
    exact .inr (hall s h c hc)

end Text
end Lib
