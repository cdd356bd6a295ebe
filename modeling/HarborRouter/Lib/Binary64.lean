import HarborRouter.Lib.Text
import Mathlib

/-!
# Doubles

`f64` is core's model of IEEE binary64. Reading a number is `str::parse::<f64>`: the nearest double. Whole numbers
below `2 ^ 53` are doubles, and so are their products while they stay below it.

* `parseF64_digits`, `ofScientific_whole` : such a number is read exactly;
* `whole_mul` : products are exact;
* `toUInt64_whole` : so is the way back to an integer.
-/

namespace Lib.Binary64
open Float.Model Float.Model.UnpackedFloat Text

/-! ## Whole numbers -/

theorem shift_pos {n : Nat} (h : n ≠ 0) (k : Nat) : 0 < n <<< k := by
  rw [Nat.shiftLeft_eq]
  exact Nat.mul_pos (Nat.pos_of_ne_zero h) (Nat.two_pow_pos k)

/-- The double of a whole number below `2 ^ 53`. -/
def unpacked (n : Nat) : UnpackedFloat :=
  if h : n = 0 then .zero .positive
  else .finite .positive (n <<< (52 - n.log2)) ((n.log2 : Int) - 52) (shift_pos h _)

def whole (n : Nat) : Float.Model := Float.Model.pack (unpacked n)

variable {n a b : Nat}

theorem log2_le_of_lt (h : n < 2 ^ 53) : n.log2 ≤ 52 := by
  by_cases hn : n = 0
  · subst hn
    decide
  · have := (Nat.log2_lt hn).mpr h
    omega

theorem log2_shift (h : n ≠ 0) (k : Nat) : (n <<< k).log2 = n.log2 + k := by
  have hpos := shift_pos h k
  rw [Nat.log2_eq_iff (Nat.ne_of_gt hpos), Nat.shiftLeft_eq, Nat.add_right_comm, Nat.pow_add, Nat.pow_add]
  have hp : 0 < 2 ^ k := Nat.two_pow_pos k
  exact ⟨Nat.mul_le_mul_right _ (Nat.log2_self_le h), Nat.mul_lt_mul_of_pos_right Nat.lt_log2_self hp⟩

theorem shiftRight_shiftLeft (c k : Nat) :
    (⟨c <<< k, false, false⟩ : ExtendedMantissa) >>> k = ⟨c, false, false⟩ := by
  induction k with
  | zero => rfl
  | succ k ih =>
      have hone : ExtendedMantissa.shiftRightOne ⟨c <<< (k + 1), false, false⟩ = ⟨c <<< k, false, false⟩ := by
        have htwice : c <<< (k + 1) = 2 * c <<< k := by
          rw [Nat.shiftLeft_eq, Nat.shiftLeft_eq, Nat.pow_succ]
          ac_rfl
        simp [ExtendedMantissa.shiftRightOne, htwice]
      have hrepeat : ∀ (m : Nat) (x : ExtendedMantissa), Nat.repeat ExtendedMantissa.shiftRightOne (m + 1) x =
          Nat.repeat ExtendedMantissa.shiftRightOne m (ExtendedMantissa.shiftRightOne x) := by
        intro m
        induction m with
        | zero => exact fun _ => rfl
        | succ m ihm => exact fun x => congrArg ExtendedMantissa.shiftRightOne (ihm x)
      exact (hrepeat k _).trans ((congrArg _ hone).trans ih)

theorem targetExponent_eq (m : Nat) (e : Int) :
    Format.binary64.targetExponent (totalExponent m e) = max ((m.log2 : Int) + e - 52) (-1074) := by
  have hbits : (Format.binary64.mantissaBits : Int) = 53 := rfl
  have hmin : Format.binary64.minExponent = -1074 := rfl
  rw [Format.targetExponent, totalExponent, hbits, hmin]
  omega

/-- A mantissa with zeros to spare is shifted to 53 bits, exactly. -/
theorem shiftToTarget {c k : Nat} {e : Int} (hc : c.log2 = 52) (hk : -1074 ≤ e + k) :
    shiftToTargetExponent Format.binary64 (c <<< k) e .exact = (⟨c, false, false⟩, e + k) := by
  have hne : c ≠ 0 := by
    rintro rfl
    cases hc
  have hamount : (Format.binary64.targetExponent (totalExponent (c <<< k) e) - e).toNat = k := by
    rw [targetExponent_eq, log2_shift hne, hc]
    omega
  rw [shiftToTargetExponent, shiftToExponent, hamount]
  exact congrArg (·, e + (k : Int)) (shiftRight_shiftLeft c k)

/-- Rounding is exact where the number has no more than 53 bits. -/
theorem round_exact {c k : Nat} {e : Int} (hc : c.log2 = 52) (hk : -1074 ≤ e + k) (hpos : 0 < c) :
    roundWithAccuracy Format.binary64 .positive (c <<< k) e .exact = .finite .positive c (e + k) hpos := by
  have hagain : shiftToTargetExponent Format.binary64 c (e + k) .exact = (⟨c, false, false⟩, e + k) := by
    have := shiftToTarget (k := 0) hc (by simpa using hk : -1074 ≤ e + k + (0 : Nat))
    simpa using this
  have hround : ExtendedMantissa.roundedMantissa ⟨c, false, false⟩ = c := rfl
  rw [roundWithAccuracy, shiftToTarget hc hk]
  dsimp only
  rw [hround, hagain]
  exact dif_neg (Nat.ne_of_gt hpos)

theorem round_whole (hn : n ≠ 0) (hlt : n < 2 ^ 53) {j : Nat} (hj : 52 ≤ n.log2 + j) (hmax : j ≤ 1074) :
    roundWithAccuracy Format.binary64 .positive (n <<< j) (-(j : Int)) .exact = unpacked n := by
  have hlog := log2_le_of_lt hlt
  have hsplit : n <<< j = (n <<< (52 - n.log2)) <<< (n.log2 + j - 52) := by
    rw [← Nat.shiftLeft_add]
    congr 1
    omega
  have hc : (n <<< (52 - n.log2)).log2 = 52 := by
    rw [log2_shift hn]
    omega
  rw [hsplit, round_exact hc (by omega) (shift_pos hn _), unpacked, dif_neg hn]
  congr 1
  omega

/-! ## Packing -/

/-- The bits of a number are read back. -/
theorem unpack_pack_finite {m : Nat} {e : Int} (hpos : 0 < m) (hm : m.log2 = 52) (hlow : -1074 ≤ e) (hhigh : e ≤ 971) :
    (Float.Model.pack (.finite .positive m e hpos)).unpack = .finite .positive m e hpos := by
  have hbias : (e + Format.binary64.exponentBias + Format.binary64.mantissaBitsWithoutImplicit).toNat =
      (e + 1075).toNat := by
    have : (Format.binary64.exponentBias : Int) = 1023 := rfl
    have : (Format.binary64.mantissaBitsWithoutImplicit : Int) = 52 := rfl
    omega
  generalize hb : (e + 1075).toNat = biased at hbias
  have hpack : UnpackedFloat.pack Format.binary64 (.finite .positive m e hpos) =
      packComponents Format.binary64 .positive (BitVec.ofNat 11 biased) (BitVec.ofNat 52 m) := by
    have hbits : m.log2 + 1 = Format.binary64.mantissaBits := by
      rw [hm]
      rfl
    have hfits : ¬ 2 ^ Format.binary64.exponentBits ≤ biased + 1 := by
      show ¬ 2 ^ 11 ≤ biased + 1
      omega
    rw [UnpackedFloat.pack]
    dsimp only
    rw [hbias, if_neg hfits, if_pos hbits]
  have hexp : (BitVec.ofNat 11 biased).toNat = biased := by
    rw [BitVec.toNat_ofNat, Nat.mod_eq_of_lt (by omega)]
  have hexpZero : BitVec.ofNat 11 biased ≠ 0#11 := by
    intro h
    have := congrArg BitVec.toNat h
    rw [hexp] at this
    have : biased = 0 := this
    omega
  have hexpOnes : BitVec.ofNat 11 biased ≠ -1#11 := by
    intro h
    have := congrArg BitVec.toNat h
    rw [hexp] at this
    have : biased = 2047 := this
    omega
  have hmantissa : (1#1 ++ BitVec.ofNat 52 m).toNat = m := by
    obtain ⟨hlo, hhi⟩ := (Nat.log2_eq_iff (Nat.ne_of_gt hpos)).mp hm
    rw [BitVec.toNat_append, ← Nat.shiftLeft_add_eq_or_of_lt (BitVec.isLt _), BitVec.toNat_ofNat]
    show 1 <<< 52 + m % 2 ^ 52 = m
    rw [Nat.shiftLeft_eq]
    omega
  show UnpackedFloat.unpack Format.binary64 (UnpackedFloat.pack Format.binary64 (.finite .positive m e hpos)) = _
  rw [hpack, UnpackedFloat.unpack]
  simp only [unpackExponent_packComponents, unpackMantissa_packComponents, unpackSign_packComponents]
  rw [if_neg hexpOnes, if_neg hexpZero]
  have hvalue : ((BitVec.ofNat 11 biased).toNat : Int) -
      ((Format.binary64.exponentBias : Int) + (Format.binary64.mantissaBitsWithoutImplicit : Int)) = e := by
    have hbias : (Format.binary64.exponentBias : Int) = 1023 := rfl
    have hbits : (Format.binary64.mantissaBitsWithoutImplicit : Int) = 52 := rfl
    rw [hexp, hbias, hbits]
    omega
  congr 1

theorem unpack_whole (h : n < 2 ^ 53) : (whole n).unpack = unpacked n := by
  unfold whole unpacked
  split
  · rfl
  · rename_i hn
    have hlog := log2_le_of_lt h
    refine unpack_pack_finite _ ?_ (by omega) (by omega)
    rw [log2_shift hn]
    omega

/-! ## Operations on whole numbers -/

/-- Reading a whole number is exact. -/
theorem ofScientific_whole (h : n < 2 ^ 53) : Float.Model.ofScientific n 0 = whole n := by
  unfold Float.Model.ofScientific UnpackedFloat.ofScientific whole
  congr 1
  by_cases hn : n = 0
  · subst hn
    rfl
  · have htiny : ¬ (0 : Int) < -((2 : Int) ^ 11 + n.log2) := by omega
    rw [dif_neg hn, if_neg (by decide), if_neg htiny, if_pos (Int.le_refl 0)]
    show roundWithAccuracy Format.binary64 .positive (n <<< 53 * 1) (-53 + 0) .exact = _
    rw [Nat.mul_one]
    exact round_whole hn h (j := 53) (by omega) (by omega)

/-- Products of whole numbers are exact below `2 ^ 53`. -/
theorem whole_mul (ha : a < 2 ^ 53) (hb : b < 2 ^ 53) (h : a * b < 2 ^ 53) : whole a * whole b = whole (a * b) := by
  show Float.Model.pack (UnpackedFloat.mul Format.binary64 (whole a).unpack (whole b).unpack) = _
  rw [unpack_whole ha, unpack_whole hb, whole]
  congr 1
  unfold unpacked
  by_cases hza : a = 0
  · subst hza
    by_cases hzb : b = 0
    · subst hzb
      rfl
    · rw [dif_pos rfl, dif_neg hzb, dif_pos (Nat.zero_mul b)]
      rfl
  by_cases hzb : b = 0
  · subst hzb
    rw [dif_neg hza, dif_pos rfl, dif_pos (Nat.mul_zero a)]
    rfl
  have hlogA := log2_le_of_lt ha
  have hlogB := log2_le_of_lt hb
  have hne : a * b ≠ 0 := Nat.mul_ne_zero hza hzb
  rw [dif_neg hza, dif_neg hzb, UnpackedFloat.mul]
  have hmantissa : a <<< (52 - a.log2) * b <<< (52 - b.log2) = (a * b) <<< (104 - a.log2 - b.log2) := by
    have hpow : 104 - a.log2 - b.log2 = (52 - a.log2) + (52 - b.log2) := by omega
    rw [Nat.shiftLeft_eq, Nat.shiftLeft_eq, Nat.shiftLeft_eq, hpow, Nat.pow_add]
    ac_rfl
  have hexponent : (a.log2 : Int) - 52 + ((b.log2 : Int) - 52) = -((104 - a.log2 - b.log2 : Nat) : Int) := by
    omega
  have hlog : a.log2 + b.log2 ≤ (a * b).log2 := by
    rw [Nat.le_log2 hne, Nat.pow_add]
    exact Nat.mul_le_mul (Nat.log2_self_le hza) (Nat.log2_self_le hzb)
  rw [hmantissa, hexponent]
  exact round_whole hne h (by omega) (by omega)

theorem toUInt64_whole (h : n < 2 ^ 53) : (whole n).toUInt64.toNat = n := by
  have hint : (whole n).unpack.toInt 0 (UInt64.size - 1) = n := by
    rw [unpack_whole h]
    unfold unpacked
    split
    · rename_i hn
      rw [hn]
      rfl
    · rename_i hn
      have hlog := log2_le_of_lt h
      unfold UnpackedFloat.toInt roundToInt decreaseExponent shiftToExponent
      have hzero : ((n.log2 : Int) - 52 - 0).toNat = 0 := by omega
      have hback : (0 - ((n.log2 : Int) - 52 - ((0 : Nat) : Int))).toNat = 52 - n.log2 := by omega
      dsimp only
      rw [hzero, hback, Nat.shiftLeft_zero]
      have hshift := shiftRight_shiftLeft n (52 - n.log2)
      exact congrArg (fun x : ExtendedMantissa => (Sign.positive.apply x.mantissa : Int)) hshift
  show (UInt64.ofNatClamp ((whole n).unpack.toInt 0 (UInt64.size - 1)).toNat).toNat = n
  rw [hint, Int.toNat_natCast, UInt64.ofNatClamp, dif_pos (h.trans (by decide))]
  exact UInt64.toNat_ofNatLT ..

theorem toUInt64_mul (ha : a < 2 ^ 53) (hb : b < 2 ^ 53) (h : a * b < 2 ^ 53) :
    (whole a * whole b).toUInt64.toNat = a * b := by
  rw [whole_mul ha hb h, toUInt64_whole h]

/-! ## Reading numbers -/

/-- An optional sign: whether it is a minus, and the rest. -/
def splitSign : Text → Bool × Text
  | '-' :: s => (true, s)
  | '+' :: s => (false, s)
  | s => (false, s)

def parseExponent : Text → Option Int
  | [] => some 0
  | e :: s =>
      let (negative, digits) := splitSign s
      if (e ≠ 'e' && e ≠ 'E') || digits = [] || !digits.all Char.isDigit then none
      else some (if negative then -(Nat.ofDigitChars 10 digits 0 : Int) else Nat.ofDigitChars 10 digits 0)

/-- Digits with one dot at most, and an exponent. -/
def parseNumber (s : Text) : Option Float.Model :=
  let int := s.takeWhile Char.isDigit
  let (frac, rest) := match s.dropWhile Char.isDigit with
    | '.' :: t => (t.takeWhile Char.isDigit, t.dropWhile Char.isDigit)
    | t => ([], t)
  if int ++ frac = [] then none
  else (parseExponent rest).map fun e =>
    Float.Model.ofScientific (Nat.ofDigitChars 10 (int ++ frac) 0) (e - (frac.length : Int))

def parseNamed (s : Text) : Option Float.Model :=
  if eqIgnoreAsciiCase s "inf".toList || eqIgnoreAsciiCase s "infinity".toList then
    some (Float.Model.pack (.infinity .positive))
  else if eqIgnoreAsciiCase s "nan".toList then some (Float.Model.pack .notANumber)
  else none

/-- `str::parse::<f64>`. -/
def parseF64 (s : Text) : Option Float.Model :=
  let (negative, body) := splitSign s
  ((parseNumber body).or (parseNamed body)).map fun x => if negative then -x else x

theorem parseF64_ne_nil {s : Text} {x : Float.Model} (h : parseF64 s = some x) : s ≠ [] := by
  rintro rfl
  have hnone : parseF64 [] = none := rfl
  cases hnone.symm.trans h

theorem splitSign_of_isDigit {c : Char} (h : c.isDigit = true) (s : Text) : splitSign (c :: s) = (false, c :: s) := by
  unfold splitSign
  split
  · rename_i heq
    cases heq
    exact absurd h (by decide)
  · rename_i heq
    cases heq
    exact absurd h (by decide)
  · rfl

theorem parseF64_digits {s : Text} (hne : s ≠ []) (hdigits : s.all Char.isDigit = true) :
    parseF64 s = some (Float.Model.ofScientific (Nat.ofDigitChars 10 s 0) 0) := by
  have hall := List.all_eq_true.mp hdigits
  have htake : s.takeWhile Char.isDigit = s := List.takeWhile_eq_self_iff.mpr hall
  have hdrop : s.dropWhile Char.isDigit = [] := List.dropWhile_eq_nil_iff.mpr hall
  have hnumber : parseNumber s = some (Float.Model.ofScientific (Nat.ofDigitChars 10 s 0) 0) := by
    simp only [parseNumber, htake, hdrop, List.append_nil, if_neg hne]
    rfl
  have hsign : splitSign s = (false, s) := by
    obtain ⟨c, t, rfl⟩ := List.exists_cons_of_ne_nil hne
    exact splitSign_of_isDigit (hall c List.mem_cons_self) t
  rw [parseF64, hsign]
  dsimp only
  rw [hnumber]
  rfl

end Lib.Binary64
