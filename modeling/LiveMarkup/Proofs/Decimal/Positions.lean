import Mathlib
import LiveMarkup.Value.Basic

/-!
# Digits as numbers and as positions

Digits between brackets are read as a number, which is rounded to the nearest double, or as a
position, which is exact.  Below `2 ^ 53` rounding changes nothing, and from there on it does not
lead below (`position?_nearest`, `le_of_position?_nearest`), so both name the same item of every
array that has at most `2 ^ 53` of them (`item?_number_eq`).

A double is followed through its bits: a mantissa of 53 bits, of which the first is left out, and an
exponent (`position?_pack`).
-/

namespace LiveMarkup

open Float.Model Float.Model.UnpackedFloat

namespace Decimal

variable {m k : Nat} {e : Int}

/-! ## Doubles that need no rounding -/

/-- A mantissa of 53 bits and an exponent that fits with it. -/
structure Normal (m : Nat) (e : Int) : Prop where
  low : 2 ^ 52 ≤ m
  high : m < 2 ^ 53
  exponent_low : -1074 ≤ e
  exponent_high : e ≤ 971

theorem Normal.pos (h : Normal m e) : 0 < m :=
  Nat.lt_of_lt_of_le (by decide) h.low

/-- The double `m · 2 ^ e`. -/
def normal (h : Normal m e) : Float :=
  .ofModel (.pack (.finite .positive m e h.pos))

theorem log2_mul_two_pow (hlow : 2 ^ 52 ≤ m) (hhigh : m < 2 ^ 53) (k : Nat) :
    (m * 2 ^ k).log2 = 52 + k := by
  have hpow := Nat.two_pow_pos k
  refine (Nat.log2_eq_iff (Nat.mul_ne_zero (by omega) (by omega))).mpr ⟨?_, ?_⟩
  · rw [Nat.pow_add]
    exact Nat.mul_le_mul_right _ hlow
  · rw [show 52 + k + 1 = 53 + k by omega, Nat.pow_add]
    exact Nat.mul_lt_mul_of_pos_right hhigh hpow

namespace Normal

variable (h : Normal m e)

include h in
theorem log2_eq : m.log2 = 52 := by
  simpa using log2_mul_two_pow h.low h.high 0

theorem pack_eq : UnpackedFloat.pack Format.binary64 (.finite .positive m e h.pos) =
    packComponents Format.binary64 .positive (BitVec.ofNat 11 (e + 1075).toNat)
      (BitVec.ofNat 52 m) := by
  have hlow := h.exponent_low
  have hhigh := h.exponent_high
  have hbias : (e + Format.binary64.exponentBias + Format.binary64.mantissaBitsWithoutImplicit).toNat
      = (e + 1075).toNat := by
    show (e + (2 ^ (11 - 1) - 1 : Nat) + (52 : Nat)).toNat = (e + 1075).toNat
    omega
  rw [UnpackedFloat.pack]
  simp only [h.log2_eq, hbias]
  rw [if_neg (by omega), if_pos (by simp [Format.mantissaBits])]

include h in
theorem toNat_exponent : (BitVec.ofNat 11 (e + 1075).toNat).toNat = (e + 1075).toNat := by
  have hlow := h.exponent_low
  have hhigh := h.exponent_high
  rw [BitVec.toNat_ofNat, Nat.mod_eq_of_lt (by omega)]

end Normal

theorem toNat_packComponents (e : BitVec 11) (m : BitVec 52) :
    (packComponents Format.binary64 .positive e m).toNat = e.toNat * 2 ^ 52 + m.toNat := by
  have happ : (0#1 ++ e ++ m).toNat = e.toNat * 2 ^ 52 + m.toNat := by
    rw [BitVec.toNat_append, ← Nat.shiftLeft_add_eq_or_of_lt m.isLt, BitVec.toNat_append,
      ← Nat.shiftLeft_add_eq_or_of_lt e.isLt]
    simp [Nat.shiftLeft_eq]
  exact happ

theorem sign_packComponents (e : BitVec 11) (m : BitVec 52) :
    Sign.ofBitVec (unpackSign (packComponents Format.binary64 .positive e m)) = .positive := by
  simp only [unpackSign, packComponents, BitVec.extractLsb]
  rw [BitVec.extractLsb'_append_eq_of_le (by omega), BitVec.extractLsb'_append_eq_of_le (by omega)]
  rfl

theorem toNat_toBits_normal (h : Normal m e) :
    (normal h).toBits.toNat = (e + 1075).toNat * 2 ^ 52 + (m - 2 ^ 52) := by
  have hlow := h.low
  have hhigh := h.high
  show (UnpackedFloat.pack Format.binary64 _).toNat = _
  rw [h.pack_eq, toNat_packComponents, h.toNat_exponent, BitVec.toNat_ofNat]
  omega

theorem unpack_normal (h : Normal m e) :
    (normal h).toModel.unpack = .finite .positive m e h.pos := by
  have hlow := h.low
  have hhigh := h.high
  have helow := h.exponent_low
  have hehigh := h.exponent_high
  have hexp := h.toNat_exponent
  have hfinite : BitVec.ofNat 11 (e + 1075).toNat ≠ -1#11 := by
    intro heq
    have h2047 : (-1#11).toNat = 2047 := by decide
    rw [heq] at hexp
    omega
  have hnormal : BitVec.ofNat 11 (e + 1075).toNat ≠ 0#11 := by
    intro heq
    rw [heq, BitVec.toNat_zero] at hexp
    omega
  have hmantissa : (1#1 ++ BitVec.ofNat 52 m).toNat = m := by
    rw [BitVec.toNat_append, ← Nat.shiftLeft_add_eq_or_of_lt (BitVec.ofNat 52 m).isLt,
      BitVec.toNat_ofNat, Nat.shiftLeft_eq]
    simp only [BitVec.toNat_ofNat]
    omega
  have hbias : ((Format.binary64.exponentBias : Nat) : Int) = 1023 := rfl
  show UnpackedFloat.unpack Format.binary64 (UnpackedFloat.pack Format.binary64 _) = _
  rw [h.pack_eq, UnpackedFloat.unpack]
  simp only [unpackMantissa_packComponents, unpackExponent_packComponents, sign_packComponents]
  rw [if_neg hfinite, if_neg hnormal]
  simp only [hmantissa, hexp, hbias]
  congr 1
  omega

/-- The fields of a double as its bits hold them. -/
theorem Binary.ofBits_eq {bits : UInt64} {e f : Nat} (h : bits.toNat = e * 2 ^ 52 + f)
    (he : 0 < e) (he' : e < 2 ^ 11) (hf : f < 2 ^ 52) :
    (Binary.ofBits bits).mantissa = 2 ^ 52 + f ∧ (Binary.ofBits bits).exponent = e - 1075 := by
  have hexp : ((bits >>> 52) &&& 0x7FF).toNat = e := by
    rw [UInt64.toNat_and, UInt64.toNat_shiftRight, h]
    show (e * 2 ^ 52 + f) >>> 52 &&& (2 ^ 11 - 1) = e
    rw [Nat.and_two_pow_sub_one_eq_mod, Nat.shiftRight_eq_div_pow]
    omega
  have hfrac : (bits &&& 0xFFFFFFFFFFFFF).toNat = f := by
    rw [UInt64.toNat_and, h]
    show (e * 2 ^ 52 + f) &&& (2 ^ 52 - 1) = f
    rw [Nat.and_two_pow_sub_one_eq_mod]
    omega
  unfold ofBits
  rw [hexp, hfrac, if_neg (by omega)]
  exact ⟨rfl, rfl⟩

theorem quotient_normal (h : Normal m e) :
    (Binary.ofFloat (normal h)).quotient = (m * 2 ^ e.toNat, 2 ^ (-e).toNat) := by
  have hlow := h.low
  have hhigh := h.high
  have helow := h.exponent_low
  have hehigh := h.exponent_high
  obtain ⟨hmantissa, hexp⟩ :=
    Binary.ofBits_eq (toNat_toBits_normal h) (by omega) (by omega) (by omega)
  unfold Binary.ofFloat Binary.quotient
  rw [hmantissa, hexp, show 2 ^ 52 + (m - 2 ^ 52) = m by omega,
    show (((e + 1075).toNat : Nat) : Int) - 1075 = e by omega]
  rfl

theorem not_isNegative_normal (h : Normal m e) : isNegative (normal h) = false := by
  have hbits := toNat_toBits_normal h
  have hhigh := h.high
  have helow := h.exponent_low
  have hehigh := h.exponent_high
  unfold isNegative
  rw [decide_eq_false_iff_not]
  intro hone
  have hone := congrArg UInt64.toNat hone
  rw [UInt64.toNat_shiftRight, hbits] at hone
  change ((e + 1075).toNat * 2 ^ 52 + (m - 2 ^ 52)) >>> 63 = 1 at hone
  rw [Nat.shiftRight_eq_div_pow] at hone
  omega

/-- A double is a position if it is whole. -/
theorem position?_normal (h : Normal m e) :
    Value.position? (normal h) =
      if m * 2 ^ e.toNat % 2 ^ (-e).toNat = 0 then some (m * 2 ^ e.toNat / 2 ^ (-e).toNat)
      else none := by
  have hle : (0 : Float) ≤ normal h := by
    have hzero : (0 : Float).toModel.unpack = .zero .positive := by rfl
    show decide (UnpackedFloat.le (0 : Float).toModel.unpack (normal h).toModel.unpack = true) = true
    rw [hzero, unpack_normal h]
    rfl
  have hfinite : (normal h).isFinite = true := by
    show (normal h).toModel.unpack.isFinite = true
    rw [unpack_normal h]
    rfl
  unfold Value.position? isWhole toInt
  rw [quotient_normal h, not_isNegative_normal h, hfinite]
  simp only [hle, Bool.true_and, decide_true, decide_eq_true_eq, Bool.false_eq_true, if_false,
    Int.toNat_natCast]

/-! ## Rounding -/

theorem mantissa_shiftRight (em : ExtendedMantissa) (k : Nat) :
    (em >>> k).mantissa = em.mantissa / 2 ^ k := by
  induction k with
  | zero => simp [HShiftRight.hShiftRight, Nat.repeat]
  | succ k ih =>
    show ((em >>> k).mantissa / 2) = _
    rw [ih, Nat.div_div_eq_div_mul, Nat.pow_succ]

theorem mul_two_pow_shiftRight (m : Nat) : ∀ k : Nat,
    (ExtendedMantissa.mk (m * 2 ^ k) false false) >>> k = ⟨m, false, false⟩
  | 0 => by simp [HShiftRight.hShiftRight, Nat.repeat]
  | k + 1 => by
    have ih := mul_two_pow_shiftRight (m * 2) k
    rw [show m * 2 ^ (k + 1) = m * 2 * 2 ^ k by rw [Nat.pow_succ, Nat.mul_assoc, Nat.mul_comm 2]]
    show ExtendedMantissa.shiftRightOne (ExtendedMantissa.mk (m * 2 * 2 ^ k) false false >>> k) = _
    rw [ih]
    simp [ExtendedMantissa.shiftRightOne]

theorem roundedMantissa_bounds (em : ExtendedMantissa) :
    em.mantissa ≤ em.roundedMantissa ∧ em.roundedMantissa ≤ em.mantissa + 1 := by
  rcases em with ⟨m, r, s⟩
  cases r <;> cases s <;>
    simp only [ExtendedMantissa.roundedMantissa, ExtendedMantissa.accuracy,
      Accuracy.roundToNearestEven] <;> omega

/-- The exponent at which 53 bits are left. -/
theorem targetExponent_eq {t : Int} (ht : m.log2 + e = 52 + t) (hlow : -1074 ≤ t) :
    Format.binary64.targetExponent (totalExponent m e) = t := by
  have hmin : Format.binary64.minExponent = -1074 := by decide
  have hbits : Format.binary64.mantissaBits = 53 := by decide
  rw [Format.targetExponent, totalExponent, hmin, hbits]
  omega

theorem shiftToTargetExponent_eq (hk : m.log2 = 52 + k) (he : -1074 ≤ e + k) :
    shiftToTargetExponent Format.binary64 m e .exact =
      ((ExtendedMantissa.mk m false false) >>> k, e + k) := by
  unfold shiftToTargetExponent shiftToExponent
  rw [targetExponent_eq (t := e + k) (by omega) he]
  dsimp only
  rw [show (e + k - e).toNat = k by omega]
  rfl

/-- A number that has 53 bits up to zeros behind them loses nothing. -/
theorem shiftToTargetExponent_of_fits (hlow : 2 ^ 52 ≤ m) (hhigh : m < 2 ^ 53)
    (he : -1074 ≤ e + k) :
    shiftToTargetExponent Format.binary64 (m * 2 ^ k) e .exact =
      (⟨m, false, false⟩, e + k) := by
  rw [shiftToTargetExponent_eq (log2_mul_two_pow hlow hhigh k) he, mul_two_pow_shiftRight]

theorem shiftToTargetExponent_of_normal (hlow : 2 ^ 52 ≤ m) (hhigh : m < 2 ^ 53)
    (he : -1074 ≤ e) :
    shiftToTargetExponent Format.binary64 m e .exact = (⟨m, false, false⟩, e) := by
  simpa using shiftToTargetExponent_of_fits (k := 0) hlow hhigh (by omega : -1074 ≤ e + (0 : Nat))

theorem roundWithAccuracy_eq {em em' : ExtendedMantissa} {e₁ e₂ : Int}
    (hfirst : shiftToTargetExponent Format.binary64 m e .exact = (em, e₁))
    (hsecond : shiftToTargetExponent Format.binary64 em.roundedMantissa e₁ .exact = (em', e₂))
    (hm : 0 < em'.mantissa) :
    roundWithAccuracy Format.binary64 .positive m e .exact =
      .finite .positive em'.mantissa e₂ hm := by
  simp only [roundWithAccuracy, hfirst, hsecond]
  rw [dif_neg (by omega)]

theorem roundWithAccuracy_of_fits (hlow : 2 ^ 52 ≤ m) (hhigh : m < 2 ^ 53)
    (he : -1074 ≤ e + k) :
    roundWithAccuracy Format.binary64 .positive (m * 2 ^ k) e .exact =
      .finite .positive m (e + k) (by omega) :=
  roundWithAccuracy_eq (shiftToTargetExponent_of_fits hlow hhigh he)
    (shiftToTargetExponent_of_normal hlow hhigh he) _

/-- A number of at least 53 bits is rounded to 53 bits, or else to the next power of two. -/
theorem exists_roundWithAccuracy (hk : m.log2 = 52 + k) (he : -1074 ≤ e + k)
    (he' : e + k ≤ 970) :
    ∃ n e', ∃ h : Normal n e', e + k ≤ e' ∧
      roundWithAccuracy Format.binary64 .positive m e .exact = .finite .positive n e' h.pos := by
  have hm : m ≠ 0 := by
    rintro rfl
    simp at hk
    omega
  obtain ⟨hlow, hhigh⟩ := (Nat.log2_eq_iff hm).mp hk
  have hpow := Nat.two_pow_pos k
  have hquotlow : 2 ^ 52 ≤ m / 2 ^ k := by
    rw [Nat.le_div_iff_mul_le hpow, ← Nat.pow_add]
    exact hlow
  have hquothigh : m / 2 ^ k < 2 ^ 53 := by
    rw [Nat.div_lt_iff_lt_mul hpow, ← Nat.pow_add, show 53 + k = 52 + k + 1 by omega]
    exact hhigh
  have hfirst := shiftToTargetExponent_eq hk he
  have hr := roundedMantissa_bounds (ExtendedMantissa.mk m false false >>> k)
  rw [mantissa_shiftRight] at hr
  dsimp only at hr
  generalize (ExtendedMantissa.mk m false false >>> k) = em at hfirst hr
  by_cases hsmall : em.roundedMantissa < 2 ^ 53
  · have hnormal : Normal em.roundedMantissa (e + k) := ⟨by omega, hsmall, he, by omega⟩
    have hsecond := shiftToTargetExponent_of_normal hnormal.low hsmall he
    exact ⟨_, _, hnormal, by omega, roundWithAccuracy_eq hfirst hsecond hnormal.pos⟩
  · -- the carry makes a power of two, which is shifted once more
    have hcarry : em.roundedMantissa = 2 ^ 52 * 2 ^ 1 := by omega
    have hnormal : Normal (2 ^ 52) (e + k + (1 : Nat)) :=
      ⟨by omega, by omega, by omega, by omega⟩
    have hsecond := shiftToTargetExponent_of_fits (e := e + k) (k := 1) hnormal.low hnormal.high
      (by omega)
    rw [← hcarry] at hsecond
    exact ⟨_, _, hnormal, by omega, roundWithAccuracy_eq hfirst hsecond hnormal.pos⟩

/-! ## Natural numbers -/

/-- A natural number below `2 ^ 53` is a double. -/
theorem exists_ofUInt64 {n : UInt64} (hn : 0 < n.toNat) (hlt : n.toNat < 2 ^ 53) :
    ∃ k : Nat, ∃ h : Normal (n.toNat * 2 ^ k) (-k), k ≤ 52 ∧ n.toFloat = normal h := by
  obtain ⟨hlow, hhigh⟩ := (Nat.log2_eq_iff (by omega : n.toNat ≠ 0)).mp rfl
  have hlog : n.toNat.log2 < 53 := (Nat.log2_lt (by omega)).mpr hlt
  obtain ⟨k, hk⟩ : ∃ k, n.toNat.log2 + k = 52 := ⟨52 - n.toNat.log2, by omega⟩
  have hnormal : Normal (n.toNat * 2 ^ k) (-k) := by
    refine ⟨?_, ?_, by omega, by omega⟩
    · rw [← hk, Nat.pow_add]
      exact Nat.mul_le_mul_right _ hlow
    · rw [show 53 = n.toNat.log2 + 1 + k by omega, Nat.pow_add]
      exact Nat.mul_lt_mul_of_pos_right hhigh (Nat.two_pow_pos _)
  have htarget : Format.binary64.targetExponent (totalExponent n.toNat 0) = -k :=
    targetExponent_eq (by omega) (by omega)
  have hround : UnpackedFloat.round Format.binary64 .positive n.toNat 0 =
      .finite .positive (n.toNat * 2 ^ k) (-k) hnormal.pos := by
    have hshift :=
      shiftToTargetExponent_of_normal hnormal.low hnormal.high hnormal.exponent_low
    have hfits : roundWithAccuracy Format.binary64 .positive (n.toNat * 2 ^ k) (-k) .exact =
        .finite .positive (n.toNat * 2 ^ k) (-k) hnormal.pos :=
      roundWithAccuracy_eq hshift hshift hnormal.pos
    unfold UnpackedFloat.round decreaseExponent
    rw [htarget]
    simpa [Nat.shiftLeft_eq] using hfits
  have hcompare : compare (n.toNat : Int) 0 = .gt := by
    rw [Int.compare_eq_gt]
    omega
  refine ⟨k, hnormal, by omega, ?_⟩
  show Float.ofModel
    (.pack (UnpackedFloat.normalize Format.binary64 (n.toNat : Int) 0 .positive)) = _
  unfold UnpackedFloat.normalize
  rw [hcompare]
  show Float.ofModel
    (.pack (UnpackedFloat.round Format.binary64 .positive (n.toNat : Int).toNat 0)) = _
  rw [Int.toNat_natCast, hround]
  rfl

theorem normal_mul_one (h : Normal m e) :
    normal h * Float.exactlyRepresentablePowersOfTen[0] = normal h := by
  have hone : (Float.exactlyRepresentablePowersOfTen[0]).toModel.unpack =
      .finite .positive (2 ^ 52) (-52) (by decide) := by
    rfl
  have helow := h.exponent_low
  show Float.ofModel (.pack (UnpackedFloat.mul Format.binary64 (normal h).toModel.unpack
    (Float.exactlyRepresentablePowersOfTen[0]).toModel.unpack)) = _
  rw [unpack_normal h, hone]
  show Float.ofModel (.pack (roundWithAccuracy Format.binary64 .positive (m * 2 ^ 52) (e + -52)
    .exact)) = _
  rw [roundWithAccuracy_of_fits h.low h.high (by omega), normal]
  congr 3
  omega

/-- Up to 20 digits without an exponent are read as they stand. -/
theorem nearest_zero (hm : 0 < m) (hlt : m < 10 ^ 20) :
    nearest m 0 = Float.ofScientific m false 0 := by
  have hcount : digitCount m ≤ 20 := (Nat.length_toDigits_le_iff (by decide) (by decide)).mpr hlt
  unfold nearest
  dsimp only
  rw [if_neg (by simp; omega), if_neg (by omega)]
  rfl

/-- A position below `2 ^ 53` is named by the number that is written like it. -/
theorem position?_nearest (hm : m < 2 ^ 53) : Value.position? (nearest m 0) = some m := by
  rcases Nat.eq_zero_or_pos m with rfl | hpos
  · decide +kernel
  have hword : m.toUInt64.toNat = m := by
    show m % 2 ^ 64 = m
    omega
  obtain ⟨k, h, hk, heq⟩ := exists_ofUInt64 (n := m.toUInt64) (by omega) (by omega)
  have hvalue : nearest m 0 = normal h := by
    rw [nearest_zero hpos (by omega), Float.ofScientific, dif_pos ⟨hm, by omega⟩]
    show m.toUInt64.toFloat * Float.exactlyRepresentablePowersOfTen[0] = _
    rw [heq, normal_mul_one]
  have hb : (-(-(k : Int))).toNat = k := by omega
  have ha : (-(k : Int)).toNat = 0 := by omega
  rw [hvalue, position?_normal h, ha, hb, hword]
  simp

/-- A position from `2 ^ 53` on is named by no number below. -/
theorem le_of_position?_nearest {p : Nat} (hlow : 2 ^ 53 ≤ m) (hhigh : m < 2 ^ 64)
    (h : Value.position? (nearest m 0) = some p) : 2 ^ 53 ≤ p := by
  have hlog : 53 ≤ m.log2 := (Nat.le_log2 (by omega)).mpr hlow
  have hlog' : m.log2 < 64 := (Nat.log2_lt (by omega)).mpr hhigh
  have hscaled : (m * 2 ^ 53).log2 = 52 + (m.log2 + 1) := by
    have hbits := (Nat.log2_eq_iff (by omega : m ≠ 0)).mp rfl
    refine (Nat.log2_eq_iff (by omega)).mpr ⟨?_, ?_⟩
    · rw [show 52 + (m.log2 + 1) = m.log2 + 53 by omega, Nat.pow_add]
      omega
    · rw [show 52 + (m.log2 + 1) + 1 = m.log2 + 1 + 53 by omega, Nat.pow_add]
      omega
  obtain ⟨n, e, hn, he, hround⟩ :=
    exists_roundWithAccuracy (e := -53) hscaled (by omega) (by omega)
  have hvalue : nearest m 0 = normal hn := by
    rw [nearest_zero (by omega) (by omega), Float.ofScientific, dif_neg (by omega)]
    have hmodel : UnpackedFloat.ofScientific Format.binary64 m (Int.ofNat 0) =
        roundWithAccuracy Format.binary64 .positive (m <<< 53 * 10 ^ 0) (-53 + 0) .exact := by
      unfold UnpackedFloat.ofScientific
      rw [dif_neg (by omega), if_neg (by decide), if_neg (by simp), if_pos (by decide)]
      rfl
    show Float.ofModel (.pack (UnpackedFloat.ofScientific Format.binary64 m (Int.ofNat 0))) = _
    rw [hmodel, Nat.shiftLeft_eq, Nat.pow_zero, Nat.mul_one, Int.add_zero, hround]
    rfl
  rw [hvalue, position?_normal hn, show (-e).toNat = 0 by omega] at h
  simp only [Nat.pow_zero, Nat.mod_one, if_true, Nat.div_one, Option.some.injEq] at h
  have htwo : 2 ^ 1 ≤ 2 ^ e.toNat := Nat.pow_le_pow_right (by decide) (by omega)
  calc 2 ^ 53 = 2 ^ 52 * 2 ^ 1 := by decide
    _ ≤ n * 2 ^ e.toNat := Nat.mul_le_mul hn.low htwo
    _ = p := h

/-! ## Digits -/

theorem read?_digits {ds : List Char} (hne : ds ≠ []) (hds : ds.all Char.isDigit = true) :
    read? ds = some (nearest (digitsValue ds) 0) := by
  have htake : ds.takeWhile Char.isDigit = ds :=
    List.takeWhile_eq_self_iff.mpr (List.all_eq_true.mp hds)
  have hdrop : ds.dropWhile Char.isDigit = [] :=
    List.dropWhile_eq_nil_iff.mpr (List.all_eq_true.mp hds)
  have hmagnitude : readMagnitude? ds = some (nearest (digitsValue ds) 0) := by
    unfold readMagnitude?
    rw [htake, hdrop]
    simp [hne, readExponent]
  obtain ⟨d, r, rfl⟩ := List.exists_cons_of_ne_nil hne
  have hd : d.isDigit = true := by simp_all
  have hsign : readSign (d :: r) = (false, d :: r) := by
    unfold readSign
    split
    · rename_i h
      cases h
      cases hd
    · rename_i h
      cases h
      cases hd
    · rfl
  have hlower : d.toLower = d := by
    rw [Char.toLower, dif_neg]
    intro hupper
    simp only [Char.isDigit, Bool.and_eq_true, decide_eq_true_eq, UInt32.le_iff_toNat_le] at hd hupper
    have h9 : ('9' : Char).val.toNat = 57 := rfl
    have hA : ('A' : Char).val.toNat = 65 := rfl
    omega
  have hword : ∀ w : List Char, w.head?.any Char.isDigit = false → (d :: r).map Char.toLower ≠ w := by
    rintro w hw rfl
    simp [hlower, hd] at hw
  unfold read?
  rw [hsign]
  simp only [hmagnitude]
  rw [if_neg, if_neg]
  · rfl
  · exact hword _ (by decide)
  · rw [Bool.or_eq_true, decide_eq_true_eq, decide_eq_true_eq]
    exact not_or.mpr ⟨hword _ (by decide), hword _ (by decide)⟩

theorem readPosition?_digits {ds : List Char} {p : Nat} (hds : ds.all Char.isDigit = true)
    (hp : Value.readPosition? ds = some p) :
    ds ≠ [] ∧ digitsValue ds < 2 ^ 64 ∧ digitsValue ds = p := by
  unfold Value.readPosition? at hp
  split at hp
  · cases hds
  · simp only [Option.ite_none_right_eq_some, Option.some.injEq, Bool.and_eq_true,
      decide_eq_true_eq] at hp
    exact ⟨hp.1.1.1, hp.1.2, hp.2⟩

/-- Digits name the same item of an array as a number and as a position. -/
theorem item?_number_eq {items : List Value} {ds : List Char} {p : Nat}
    (hlen : items.length ≤ 2 ^ 53) (hds : ds.all Char.isDigit = true)
    (hp : Value.readPosition? ds = some p) :
    (Value.array items).item? (.number ((read? ds).getD 0)) = items[p]? := by
  obtain ⟨hne, hlt, rfl⟩ := readPosition?_digits hds hp
  rw [read?_digits hne hds]
  show (Value.position? (nearest (digitsValue ds) 0)).bind (fun i => items[i]?) = _
  by_cases hsmall : digitsValue ds < 2 ^ 53
  · rw [position?_nearest hsmall]
    rfl
  · rw [List.getElem?_eq_none (by omega), Option.bind_eq_none_iff]
    intro q hq
    have hle := le_of_position?_nearest (by omega) hlt hq
    exact List.getElem?_eq_none (by omega)

end Decimal

end LiveMarkup
