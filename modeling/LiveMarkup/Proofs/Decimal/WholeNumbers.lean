import LiveMarkup.Proofs.Decimal.Positions

/-!
# Whole numbers as they are shown

A whole number below `10 ^ 21` goes through a machine word of 64 bits before it is written, so what
is shown is the numeral of the nearest word (`numberText_of_denotes`).  Hence it is shown by its own
numeral just if it fits in a word, and two of them are shown alike just if they are equal or lie
beyond the same end of the words (`numberText_whole_iff`).

That a double is an integer is told by its sign, mantissa and exponent (`Denotes`).  The numbers
that are taken from its bits are these (`fields_of_unpack`), and an integer that is not zero is no
subnormal (`Denotes.exists_normal`).
-/

namespace LiveMarkup

open Float.Model Float.Model.UnpackedFloat

namespace Decimal

variable {x y : Float} {s : Sign} {n : Nat} {e m k : Int} {hn : 0 < n}

/-- A double is exactly an integer. -/
def Denotes (x : Float) (m : Int) : Prop :=
  match x.toModel.unpack with
  | .zero _ => m = 0
  | .finite s n e _ => s.apply n * 2 ^ e.toNat = m * 2 ^ (-e).toNat
  | _ => False

instance : Decidable (Denotes x m) :=
  match h : x.toModel.unpack with
  | .zero _ => decidable_of_iff (m = 0) (by rw [Denotes, h])
  | .finite s n e _ =>
    decidable_of_iff (s.apply n * 2 ^ e.toNat = m * 2 ^ (-e).toNat) (by rw [Denotes, h])
  | .infinity _ | .notANumber => .isFalse (by rw [Denotes, h]; exact id)

/-! ## The fields of a double -/

theorem toNat_unpackExponent (w : UInt64) :
    (@unpackExponent Format.binary64 w.toBitVec).toNat = ((w >>> 52) &&& 0x7FF).toNat := by
  show (w.toNat >>> 52) % 2 ^ 11 = (w.toNat >>> 52) &&& (2 ^ 11 - 1)
  rw [Nat.and_two_pow_sub_one_eq_mod]

theorem toNat_unpackMantissa (w : UInt64) :
    (@unpackMantissa Format.binary64 w.toBitVec).toNat = (w &&& 0xFFFFFFFFFFFFF).toNat := by
  show (w.toNat >>> 0) % 2 ^ 52 = w.toNat &&& (2 ^ 52 - 1)
  rw [Nat.and_two_pow_sub_one_eq_mod, Nat.shiftRight_zero]

theorem toNat_unpackSign (w : UInt64) :
    (@unpackSign Format.binary64 w.toBitVec).toNat = (w >>> 63).toNat := by
  show (w.toNat >>> 63) % 2 ^ 1 = w.toNat >>> 63
  have hlt := w.toNat_lt
  rw [Nat.shiftRight_eq_div_pow]
  omega

theorem isNegative_eq (x : Float) : isNegative x =
    (Sign.ofBitVec (@unpackSign Format.binary64 x.toBits.toBitVec) == .negative) := by
  have hone : isNegative x = decide (@unpackSign Format.binary64 x.toBits.toBitVec = 1#1) := by
    rw [isNegative, decide_eq_decide, ← UInt64.toNat_inj, ← BitVec.toNat_inj, toNat_unpackSign]
    rfl
  rw [hone]
  generalize @unpackSign Format.binary64 x.toBits.toBitVec = b
  revert b
  decide

/-- The mantissa and the exponent in the bits of a double are those of its value, and it is normal
or as small as can be. -/
theorem fields_of_unpack (h : x.toModel.unpack = .finite s n e hn) :
    ((Binary.ofFloat x).mantissa = n ∧ (Binary.ofFloat x).exponent = e) ∧
      isNegative x = (s == .negative) ∧ (Normal n e ∨ n < 2 ^ 52 ∧ e = -1074) := by
  have hexp := toNat_unpackExponent x.toBits
  have hfrac := toNat_unpackMantissa x.toBits
  have hfraclt : (@unpackMantissa Format.binary64 x.toBits.toBitVec).toNat < 2 ^ 52 :=
    BitVec.isLt _
  have hexplt : (@unpackExponent Format.binary64 x.toBits.toBitVec).toNat < 2 ^ 11 :=
    BitVec.isLt _
  have hbias : ((Format.binary64.exponentBias : Nat) : Int) = 1023 := rfl
  rw [isNegative_eq]
  change UnpackedFloat.unpack Format.binary64 x.toBits.toBitVec = _ at h
  rw [UnpackedFloat.unpack] at h
  unfold Binary.ofFloat Binary.ofBits
  rw [← hexp, ← hfrac]
  dsimp only at h
  split_ifs at h with hinf hzero hsub hzero
  · cases h
    have he : (@unpackExponent Format.binary64 x.toBits.toBitVec).toNat = 0 := by rw [hsub]; rfl
    rw [he, hbias]
    exact ⟨⟨rfl, rfl⟩, rfl, .inr ⟨hfraclt, rfl⟩⟩
  · have he : (@unpackExponent Format.binary64 x.toBits.toBitVec).toNat ≠ 0 := fun he =>
      hsub (BitVec.eq_of_toNat_eq he)
    have he' : (@unpackExponent Format.binary64 x.toBits.toBitVec).toNat ≠ 2047 := fun he =>
      hinf (BitVec.eq_of_toNat_eq he)
    have hm : (1#1 ++ @unpackMantissa Format.binary64 x.toBits.toBitVec).toNat =
        2 ^ 52 + (@unpackMantissa Format.binary64 x.toBits.toBitVec).toNat := by
      rw [BitVec.toNat_append, ← Nat.shiftLeft_add_eq_or_of_lt hfraclt]
      rfl
    cases h
    have hsum : ((Format.binary64.mantissaBitsWithoutImplicit : Nat) : Int) = 52 := rfl
    rw [hm, hbias, hsum, if_neg he]
    exact ⟨⟨rfl, rfl⟩, rfl, .inl ⟨by omega, by omega, by omega, by omega⟩⟩

/-! ## The text of a whole number -/

theorem sign_eq_of_apply (hn : 0 < n) {a b : Int} (ha : 0 < a) (hb : 0 < b)
    (h : s.apply n * a = m * b) : (s == .negative) = decide (m < 0) := by
  have hna : 0 < (n : Int) * a := Int.mul_pos (by omega) ha
  cases s
  · have hneg : m * b < 0 := by
      rw [← h, Sign.apply, Int.neg_mul]
      omega
    exact (decide_eq_true (neg_of_mul_neg_left hneg hb.le)).symm
  · have hpos : 0 < m * b := by rwa [← h, Sign.apply]
    exact (decide_eq_false (not_lt.mpr (pos_of_mul_pos_left hpos hb.le).le)).symm

/-- An integer is zero or has 53 bits in a double. -/
theorem Denotes.zero_or_normal (h : Denotes x m) :
    (m = 0 ∧ ∃ s, x.toModel.unpack = .zero s) ∨
      ∃ s n e, ∃ hn : Normal n e, x.toModel.unpack = .finite s n e hn.pos ∧
        n * 2 ^ e.toNat = m.natAbs * 2 ^ (-e).toNat ∧ (s == .negative) = decide (m < 0) := by
  unfold Denotes at h
  split at h
  · rename_i s hunpack
    exact .inl ⟨h, s, hunpack⟩
  · rename_i s n e hn hunpack
    have hsign := sign_eq_of_apply hn (by positivity) (by positivity) h
    have habs : n * 2 ^ e.toNat = m.natAbs * 2 ^ (-e).toNat := by
      have hs : (s.apply n).natAbs = n := by cases s <;> simp [Sign.apply]
      have h := congrArg Int.natAbs h
      rwa [Int.natAbs_mul, Int.natAbs_mul, hs, Int.natAbs_pow, Int.natAbs_pow] at h
    obtain ⟨-, -, hnormal | ⟨hlt, rfl⟩⟩ := fields_of_unpack hunpack
    · exact .inr ⟨s, n, e, hnormal, hunpack, habs, hsign⟩
    · -- a subnormal is no multiple of one
      have hdvd : 2 ^ (-(-1074 : Int)).toNat ∣ n :=
        ⟨m.natAbs, by rw [Nat.mul_comm, ← habs]; exact (Nat.mul_one n).symm⟩
      have hle := Nat.le_of_dvd hn ((Nat.pow_dvd_pow 2 (by decide : 52 ≤ _)).trans hdvd)
      omega
  · exact h.elim

theorem normal_lt (hn : Normal n e) (h : n * 2 ^ e.toNat < 10 ^ 21 * 2 ^ (-e).toNat) :
    normal hn < 1e21 := by
  have hlimit : (1e21 : Float).toModel.unpack =
      .finite .positive 7629394531250000 17 (by decide) := by
    rfl
  have hlow := hn.low
  have hle : e ≤ 17 := by
    by_contra hgt
    have hpow : 2 ^ 18 ≤ 2 ^ e.toNat := Nat.pow_le_pow_right (by decide) (by omega)
    have := Nat.mul_le_mul hlow hpow
    rw [show (-e).toNat = 0 by omega] at h
    omega
  have hcompare : (compare e 17).then (compare n 7629394531250000) = .lt := by
    rcases hle.lt_or_eq with hlt | rfl
    · rw [Int.compare_eq_lt.mpr hlt]
      rfl
    · rw [Int.compare_eq_eq.mpr rfl, Nat.compare_eq_lt.mpr]
      · rfl
      · change n * 2 ^ 17 < 10 ^ 21 * 1 at h
        omega
  show decide
    (UnpackedFloat.lt (normal hn).toModel.unpack (1e21 : Float).toModel.unpack = true) = true
  rw [unpack_normal, hlimit, UnpackedFloat.lt, UnpackedFloat.compare, hcompare]
  rfl

theorem quotient_of_unpack (h : x.toModel.unpack = .finite s n e hn) :
    (Binary.ofFloat x).quotient = (n * 2 ^ e.toNat, 2 ^ (-e).toNat) := by
  obtain ⟨⟨hmantissa, hexponent⟩, -⟩ := fields_of_unpack h
  rw [Binary.quotient, hmantissa, hexponent]
  rfl

theorem isWhole_of_quotient (h : x.toModel.unpack = .finite s n e hn)
    (habs : n * 2 ^ e.toNat = m.natAbs * 2 ^ (-e).toNat) : isWhole x = true := by
  have hfinite : x.isFinite = true := by
    show x.toModel.unpack.isFinite = true
    rw [h]
    rfl
  rw [isWhole, quotient_of_unpack h, habs, hfinite]
  simp

theorem toInt_of_quotient (h : x.toModel.unpack = .finite s n e hn)
    (habs : n * 2 ^ e.toNat = m.natAbs * 2 ^ (-e).toNat)
    (hsign : (s == .negative) = decide (m < 0)) : toInt x = m := by
  rw [toInt, quotient_of_unpack h, habs]
  dsimp only
  rw [Nat.mul_div_cancel _ (Nat.two_pow_pos _), (fields_of_unpack h).2.1, hsign]
  split_ifs with hneg <;> simp only [decide_eq_true_eq] at hneg <;> omega

theorem abs_eq_normal (hnormal : Normal n e) (h : x.toModel.unpack = .finite s n e hnormal.pos) :
    x.abs = normal hnormal := by
  show Float.ofModel (.pack x.toModel.unpack.abs) = _
  rw [h]
  rfl

/-- A whole number is written as the nearest integer of 64 bits. -/
theorem Denotes.numberText_eq (h : Denotes x m) (hm : m.natAbs < 10 ^ 21) :
    Value.numberText x = intNumeral (Value.clampToWord m) := by
  have hnan : x.isNaN = x.toModel.unpack.isNaN := rfl
  have hinf : x.isInf = x.toModel.unpack.isInf := rfl
  have hzero : (x == 0) = x.toModel.unpack.beq (.zero .positive) := rfl
  rw [Value.numberText, hnan, hinf, hzero]
  rcases h.zero_or_normal with ⟨rfl, s, hunpack⟩ | ⟨s, n, e, hn, hunpack, habs, hsign⟩
  · rw [hunpack]
    rfl
  · have hlt : x.abs < 1e21 := by
      rw [abs_eq_normal hn hunpack]
      refine normal_lt hn ?_
      rw [habs]
      exact Nat.mul_lt_mul_of_pos_right hm (Nat.two_pow_pos _)
    rw [isWhole_of_quotient hunpack habs, toInt_of_quotient hunpack habs hsign,
      decide_eq_true hlt, hunpack]
    cases s <;> rfl

/-! ## What is shown alike -/

theorem numeral_injective : Function.Injective numeral := fun a b h => by
  rw [← Nat.ofDigitChars_ten_toDigits (n := a), show Nat.toDigits 10 a = Nat.toDigits 10 b from h,
    Nat.ofDigitChars_ten_toDigits]

theorem minus_notMem_numeral (a : Nat) : '-' ∉ numeral a := fun h => by
  cases Nat.isDigit_of_mem_toDigits (by decide) (by decide) h

theorem intNumeral_injective : Function.Injective intNumeral := fun m k h => by
  have hminus : ∀ a b, '-' :: numeral a ≠ numeral b := fun a b h =>
    minus_notMem_numeral b (h ▸ List.mem_cons_self)
  unfold intNumeral at h
  split_ifs at h with hm hk hk
  · have := numeral_injective (List.cons.inj h).2
    omega
  · exact absurd h (hminus _ _)
  · exact absurd h.symm (hminus _ _)
  · have := numeral_injective h
    omega

/-- The greatest integer of 64 bits is no double. -/
theorem Denotes.ne_greatest (h : Denotes x m) : m ≠ 2 ^ 63 - 1 := by
  rintro rfl
  rcases h.zero_or_normal with ⟨h, -⟩ | ⟨s, n, e, hn, -, habs, -⟩
  · cases h
  · have hhigh := hn.high
    change n * 2 ^ e.toNat = (2 ^ 63 - 1) * 2 ^ (-e).toNat at habs
    rcases le_or_gt e 0 with he | he
    · have hpos := Nat.two_pow_pos (-e).toNat
      have hle := Nat.le_mul_of_pos_right (2 ^ 63 - 1) hpos
      rw [show e.toNat = 0 by omega] at habs
      omega
    · obtain ⟨j, hj⟩ := Nat.exists_eq_add_of_lt (show 0 < e.toNat by omega)
      rw [show (-e).toNat = 0 by omega, hj, Nat.pow_succ, ← Nat.mul_assoc] at habs
      omega

theorem clampToWord_eq (m : Int) :
    Value.clampToWord m = max (-2 ^ 63) (min (2 ^ 63 - 1) m) := rfl

/-- A whole number below `10 ^ 21` is shown by its numeral just if it fits in 64 bits, and two of
them are shown alike just if they are equal or both lie beyond the same end of what fits. -/
theorem numberText_whole_iff (hx : Denotes x m) (hy : Denotes y k) (hm : |m| < 10 ^ 21)
    (hk : |k| < 10 ^ 21) :
    (Value.numberText x = intNumeral m ↔ -2 ^ 63 ≤ m ∧ m < 2 ^ 63) ∧
    ((Value.number x).text = String.ofList (intNumeral m) ↔ -2 ^ 63 ≤ m ∧ m < 2 ^ 63) ∧
    ((Value.number x).text = (Value.number y).text ↔
      m = k ∨ 2 ^ 63 ≤ m ∧ 2 ^ 63 ≤ k ∨ m ≤ -2 ^ 63 ∧ k ≤ -2 ^ 63) := by
  have htext : ∀ x, (Value.number x).text = String.ofList (Value.numberText x) := fun x => by
    simp [Value.text, Value.chars, Value.plainText]
  have hm : m.natAbs < 10 ^ 21 := by rw [Int.abs_eq_natAbs] at hm; omega
  have hk : k.natAbs < 10 ^ 21 := by rw [Int.abs_eq_natAbs] at hk; omega
  have hmne := hx.ne_greatest
  have hkne := hy.ne_greatest
  have hexact : Value.numberText x = intNumeral m ↔ -2 ^ 63 ≤ m ∧ m < 2 ^ 63 := by
    rw [hx.numberText_eq hm, intNumeral_injective.eq_iff, clampToWord_eq]
    omega
  refine ⟨hexact, ?_, ?_⟩
  · rw [htext, String.ofList_inj, hexact]
  · rw [htext, htext, String.ofList_inj, hx.numberText_eq hm,
      hy.numberText_eq hk, intNumeral_injective.eq_iff, clampToWord_eq, clampToWord_eq]
    omega

theorem numberText_whole_iff_least :
    (Denotes (-9223372036854775808) (-2 ^ 63) ∧ Denotes 9007199254740992 (2 ^ 53)) ∧
    Value.numberText (-9223372036854775808) = "-9223372036854775808".toList ∧
    (Value.number (-9223372036854775808)).text ≠ (Value.number 9007199254740992).text := by
  have hx : Denotes (-9223372036854775808) (-2 ^ 63) := by decide +kernel
  have hy : Denotes 9007199254740992 (2 ^ 53) := by decide +kernel
  obtain ⟨hexact, -, halike⟩ := numberText_whole_iff hx hy (by decide) (by decide)
  refine ⟨⟨hx, hy⟩, (hexact.mpr (by decide)).trans (by decide), fun h => ?_⟩
  exact absurd (halike.mp h) (by decide)

/-- From `2 ^ 63` on whole numbers are shown as what they are not, and alike. -/
theorem numberText_whole_beyond :
    (Denotes 1e20 (10 ^ 20) ∧ Denotes 2e20 (2 * 10 ^ 20)) ∧
    Value.numberText 1e20 = "9223372036854775807".toList ∧
    Value.numberText 1e20 ≠ intNumeral (10 ^ 20) ∧
    (Value.number 1e20).text = (Value.number 2e20).text := by
  decide +kernel

end Decimal

end LiveMarkup
