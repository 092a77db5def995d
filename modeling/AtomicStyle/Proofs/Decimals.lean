import AtomicStyle.Number.Reader
import Mathlib

/-!
# Numbers from their texts

A finite number is written with digits and a point.  An integer is written out in full, any other
number as the shortest decimal that rounds to it.  In both cases the written decimal lies among the
reals that round to the number, and every real rounds to one number, so the text determines the
number up to the sign of zero.

Results:
1. `Binary.ofFloat?_neg`, `Binary.neg_neg_of_ofFloat?`: negation changes the sign and nothing else.
2. `Binary.Covers.unique`: the reals that round to a number round to no other one.
3. `Binary.written_numeral`: the text of a magnitude is a decimal that rounds to it.
4. `text_injOn`, `text_of_isNegative`: unsigned numbers have different texts, and a negative one has
   the text of its opposite behind a minus sign.
-/

namespace AtomicStyle.Number

open Float.Model (UnpackedFloat Format)
open Float.Model.UnpackedFloat (Sign unpackMantissa unpackExponent unpackSign packComponents
  unpackMantissa_packComponents unpackExponent_packComponents unpackSign_packComponents)

namespace Binary

/-! ## Bits -/

/-- The stored digits of the mantissa. -/
abbrev fractionOf (bits : UInt64) : BitVec 52 := @unpackMantissa .binary64 bits.toBitVec

/-- The exponent as it is stored. -/
abbrev biasedOf (bits : UInt64) : BitVec 11 := @unpackExponent .binary64 bits.toBitVec

abbrev signOf (bits : UInt64) : BitVec 1 := @unpackSign .binary64 bits.toBitVec

theorem toNat_signOf (bits : UInt64) : (signOf bits).toNat = bits.toNat / 2 ^ 63 := by
  have hlt : bits.toNat / 2 ^ 63 < 2 := Nat.div_lt_of_lt_mul bits.toNat_lt
  simpa [signOf, unpackSign, Nat.shiftRight_eq_div_pow] using Nat.mod_eq_of_lt hlt

theorem toNat_fractionOf (bits : UInt64) : (fractionOf bits).toNat = bits.toNat % 2 ^ 52 := by
  simp [fractionOf, unpackMantissa]

theorem toNat_biasedOf (bits : UInt64) : (biasedOf bits).toNat = bits.toNat / 2 ^ 52 % 2 ^ 11 := by
  simp [biasedOf, unpackExponent, Nat.shiftRight_eq_div_pow]

theorem toNat_eq_fields (bits : UInt64) :
    bits.toNat =
      (signOf bits).toNat * 2 ^ 63 + (biasedOf bits).toNat * 2 ^ 52 + (fractionOf bits).toNat := by
  rw [toNat_signOf, toNat_biasedOf, toNat_fractionOf]
  omega

/-- A number by the fields of its bits. -/
theorem ofBits?_eq (bits : UInt64) :
    ofBits? bits =
      if biasedOf bits = -1#11 then none
      else if biasedOf bits = 0#11 then
        some ⟨decide (signOf bits = 1#1), (fractionOf bits).toNat, -1074⟩
      else some ⟨decide (signOf bits = 1#1), hiddenBit + (fractionOf bits).toNat,
        ((biasedOf bits).toNat : Int) - 1075⟩ := by
  have hfraction : (bits &&& 0xFFFFFFFFFFFFF).toNat = (fractionOf bits).toNat := by
    rw [toNat_fractionOf, UInt64.toNat_and]
    exact Nat.and_two_pow_sub_one_eq_mod bits.toNat 52
  have hbiased : ((bits >>> 52) &&& 0x7FF).toNat = (biasedOf bits).toNat := by
    rw [toNat_biasedOf, UInt64.toNat_and, UInt64.toNat_shiftRight, Nat.shiftRight_eq_div_pow]
    exact Nat.and_two_pow_sub_one_eq_mod _ 11
  have hsign : (bits >>> 63 == 1) = decide (signOf bits = 1#1) := by
    rw [Bool.beq_eq_decide_eq]
    simp only [← UInt64.toNat_inj, ← BitVec.toNat_inj, toNat_signOf, UInt64.toNat_shiftRight,
      Nat.shiftRight_eq_div_pow]
    rfl
  have htop : (biasedOf bits).toNat = 0x7FF ↔ biasedOf bits = -1#11 := by
    rw [← BitVec.toNat_inj]
    rfl
  have hzero : (biasedOf bits).toNat = 0 ↔ biasedOf bits = 0#11 := by
    rw [← BitVec.toNat_inj]
    rfl
  simp only [ofBits?, hfraction, hbiased, hsign, beq_iff_eq, htop, hzero]

/-- What the bits of a finite number are. -/
theorem fields_of_ofBits? {bits : UInt64} {b : Binary} (h : ofBits? bits = some b) :
    biasedOf bits ≠ -1#11 ∧ b.negative = decide (signOf bits = 1#1) ∧
      (biasedOf bits = 0#11 ∧ b.mantissa = (fractionOf bits).toNat ∧ b.exponent = -1074 ∨
        biasedOf bits ≠ 0#11 ∧ b.mantissa = hiddenBit + (fractionOf bits).toNat ∧
          b.exponent = ((biasedOf bits).toNat : Int) - 1075) := by
  rw [ofBits?_eq] at h
  split at h
  · cases h
  · next hfinite =>
    split at h <;> cases h
    · next hbiased => exact ⟨hfinite, rfl, .inl ⟨hbiased, rfl, rfl⟩⟩
    · next hbiased => exact ⟨hfinite, rfl, .inr ⟨hbiased, rfl, rfl⟩⟩

/-- A mantissa of full length, or the least exponent. -/
structure Canonical (b : Binary) : Prop where
  mantissa_lt : b.mantissa < 2 * hiddenBit
  le_exponent : -1074 ≤ b.exponent
  full : -1074 < b.exponent → hiddenBit ≤ b.mantissa

theorem canonical_of_ofBits? {bits : UInt64} {b : Binary} (h : ofBits? bits = some b) :
    b.Canonical := by
  have hfraction := (fractionOf bits).isLt
  obtain ⟨-, -, ⟨-, hmantissa, hexponent⟩ | ⟨hbiased, hmantissa, hexponent⟩⟩ := fields_of_ofBits? h
  · refine ⟨?_, ?_, fun hlt => ?_⟩
    · rw [hmantissa, hiddenBit]
      omega
    · exact Int.le_of_eq hexponent.symm
    · rw [hexponent] at hlt
      exact absurd hlt (by decide)
  · have hpos : 0 < (biasedOf bits).toNat :=
      Nat.pos_of_ne_zero fun heq => hbiased (BitVec.eq_of_toNat_eq heq)
    refine ⟨?_, ?_, fun _ => ?_⟩
    · rw [hmantissa, hiddenBit]
      omega
    · omega
    · rw [hmantissa]
      exact Nat.le_add_right ..

theorem ofBits?_inj {bits bits' : UInt64} {b : Binary} (h : ofBits? bits = some b)
    (h' : ofBits? bits' = some b) : bits = bits' := by
  have hfraction := (fractionOf bits).isLt
  have hfraction' := (fractionOf bits').isLt
  obtain ⟨-, hnegative, hfields⟩ := fields_of_ofBits? h
  obtain ⟨-, hnegative', hfields'⟩ := fields_of_ofBits? h'
  have hsign : (signOf bits).toNat = (signOf bits').toNat := by
    have := (signOf bits).isLt
    have := (signOf bits').isLt
    rw [hnegative, decide_eq_decide, ← BitVec.toNat_inj, ← BitVec.toNat_inj] at hnegative'
    have hone : (1#1).toNat = 1 := rfl
    omega
  have hrest : (biasedOf bits).toNat = (biasedOf bits').toNat ∧
      (fractionOf bits).toNat = (fractionOf bits').toNat := by
    rw [hiddenBit] at hfields hfields'
    have hzero : (0#11).toNat = 0 := rfl
    rw [← BitVec.toNat_inj] at hfields hfields'
    omega
  apply UInt64.toNat_inj.mp
  rw [toNat_eq_fields bits, toNat_eq_fields bits', hsign, hrest.1, hrest.2]

/-! ## Negation -/

theorem pack_neg_unpack (bits : UInt64) (hfinite : biasedOf bits ≠ -1#11) :
    UnpackedFloat.pack .binary64 (UnpackedFloat.unpack .binary64 bits.toBitVec).neg =
      packComponents .binary64 (-Sign.ofBitVec (signOf bits)) (biasedOf bits)
        (fractionOf bits) := by
  have hunpack : UnpackedFloat.unpack .binary64
        (packComponents .binary64 (-Sign.ofBitVec (signOf bits)) (biasedOf bits)
          (fractionOf bits)) =
      (UnpackedFloat.unpack .binary64 bits.toBitVec).neg := by
    unfold UnpackedFloat.unpack
    simp only [unpackExponent_packComponents, unpackMantissa_packComponents,
      unpackSign_packComponents, Sign.ofBitVec_toBitVec]
    rw [if_neg hfinite, if_neg hfinite]
    split
    · split <;> rfl
    · rfl
  have hnumber : ¬ UnpackedFloat.isNaNBits
      (packComponents .binary64 (-Sign.ofBitVec (signOf bits)) (biasedOf bits)
        (fractionOf bits)) = true := by
    rw [UnpackedFloat.isNaNBits, unpackExponent_packComponents, decide_eq_true_eq]
    exact fun h => hfinite h.1
  rw [← hunpack, UnpackedFloat.pack_unpack, if_neg hnumber]

theorem toBits_neg (x : Float) (hfinite : biasedOf x.toBits ≠ -1#11) :
    (-x).toBits.toBitVec = packComponents .binary64 (-Sign.ofBitVec (signOf x.toBits))
      (biasedOf x.toBits) (fractionOf x.toBits) :=
  pack_neg_unpack x.toBits hfinite

/-- Negation changes the sign and nothing else. -/
theorem ofFloat?_neg {x : Float} {b : Binary} (h : ofFloat? x = some b) :
    ofFloat? (-x) = some { b with negative := !b.negative } := by
  obtain ⟨hfinite, hnegative, hfields⟩ := fields_of_ofBits? h
  have hbits := toBits_neg x hfinite
  have hfraction : fractionOf (-x).toBits = fractionOf x.toBits := by
    rw [fractionOf, hbits]
    exact unpackMantissa_packComponents
  have hbiased : biasedOf (-x).toBits = biasedOf x.toBits := by
    rw [biasedOf, hbits]
    exact unpackExponent_packComponents
  have hsign : decide (signOf (-x).toBits = 1#1) = !b.negative := by
    rw [signOf, hbits, unpackSign_packComponents, hnegative]
    generalize signOf x.toBits = sign
    revert sign
    decide
  rw [ofFloat?, ofBits?_eq, hfraction, hbiased, hsign, if_neg hfinite]
  obtain ⟨hzero, hmantissa, hexponent⟩ | ⟨hzero, hmantissa, hexponent⟩ := hfields
  · rw [if_pos hzero, ← hmantissa, ← hexponent]
  · rw [if_neg hzero, ← hmantissa, ← hexponent]

theorem ofFloat?_inj {x y : Float} {b : Binary} (hx : ofFloat? x = some b)
    (hy : ofFloat? y = some b) : x = y :=
  Float.toBits_inj.mp (ofBits?_inj hx hy)

theorem neg_neg_of_ofFloat? {x : Float} {b : Binary} (h : ofFloat? x = some b) : - -x = x := by
  have hback := ofFloat?_neg (ofFloat?_neg h)
  rw [Bool.not_not] at hback
  exact ofFloat?_inj hback h

end Binary

/-! ## Rounding -/

/-- What a decimal denotes. -/
def Decimal.value (d : Decimal) : ℚ :=
  d.digits * 10 ^ d.exponent

namespace Binary

/-- The magnitude of a number. -/
def magnitude (b : Binary) : ℚ :=
  b.mantissa * 2 ^ b.exponent

/-- The middle between a magnitude and the next smaller one, in quarters of the last digit. -/
def lower (b : Binary) : Nat :=
  if b.narrowBelow then 4 * b.mantissa - 1 else 4 * b.mantissa - 2

/-- The middle between a magnitude and the next larger one, in quarters of the last digit. -/
def upper (b : Binary) : Nat :=
  4 * b.mantissa + 2

/-- The reals that round to a magnitude: those between the middles to its neighbours, and the
middles themselves if the mantissa is even. -/
structure Covers (b : Binary) (q : ℚ) : Prop where
  lower_le : b.lower * 2 ^ (b.exponent - 2) ≤ q
  le_upper : q ≤ b.upper * 2 ^ (b.exponent - 2)
  strict : b.mantissa % 2 = 1 →
    b.lower * 2 ^ (b.exponent - 2) < q ∧ q < b.upper * 2 ^ (b.exponent - 2)

theorem two_zpow_pos (e : Int) : (0 : ℚ) < 2 ^ e := zpow_pos (by norm_num) e

theorem magnitude_eq (b : Binary) : b.magnitude = (4 * b.mantissa : ℕ) * 2 ^ (b.exponent - 2) := by
  rw [magnitude, zpow_sub₀ (by norm_num : (2 : ℚ) ≠ 0)]
  push_cast
  ring

theorem covers_magnitude (b : Binary) : b.Covers b.magnitude := by
  have hunit := two_zpow_pos (b.exponent - 2)
  rw [magnitude_eq]
  have hlower : b.lower ≤ 4 * b.mantissa := by
    rw [lower]
    split <;> exact Nat.sub_le ..
  refine ⟨?_, ?_, fun hodd => ⟨?_, ?_⟩⟩
  · gcongr
  · gcongr
    exact Nat.le_add_right ..
  · gcongr
    rw [lower]
    split <;> omega
  · gcongr
    exact Nat.lt_add_of_pos_right (by decide)

/-- Two magnitudes cover nothing in common if the upper end of one is at most the lower end of the
other, and below it unless one of the two has its ends open. -/
theorem not_covers_of_upper_le {b b' : Binary} {q : ℚ} {k : Nat}
    (hunit : (k : ℚ) * 2 ^ (b.exponent - 2) ≤ 2 ^ (b'.exponent - 2))
    (hle : b.upper ≤ b'.lower * k)
    (hopen : b.upper < b'.lower * k ∨ b.mantissa % 2 = 1 ∨ b'.mantissa % 2 = 1)
    (h : b.Covers q) : ¬ b'.Covers q := by
  intro h'
  have hpos := two_zpow_pos (b.exponent - 2)
  have hends : (b'.lower * k : ℕ) * (2 : ℚ) ^ (b.exponent - 2) ≤
      b'.lower * 2 ^ (b'.exponent - 2) := by
    rw [Nat.cast_mul, mul_assoc]
    gcongr
  have hle' : b.upper * (2 : ℚ) ^ (b.exponent - 2) ≤
      (b'.lower * k : ℕ) * (2 : ℚ) ^ (b.exponent - 2) := by
    gcongr
  have hupper := h.le_upper
  have hlower := h'.lower_le
  obtain hlt | hodd | hodd := hopen
  · have hlt' : b.upper * (2 : ℚ) ^ (b.exponent - 2) <
        (b'.lower * k : ℕ) * (2 : ℚ) ^ (b.exponent - 2) := by
      gcongr
    linarith
  · linarith [(h.strict hodd).2]
  · linarith [(h'.strict hodd).1]

/-- Magnitudes are ordered by their exponents first. -/
def Below (b b' : Binary) : Prop :=
  b.exponent < b'.exponent ∨ b.exponent = b'.exponent ∧ b.mantissa < b'.mantissa

theorem not_covers_of_below {b b' : Binary} {q : ℚ} (hb : b.Canonical) (hb' : b'.Canonical)
    (hbelow : b.Below b') (h : b.Covers q) : ¬ b'.Covers q := by
  obtain hexponent | ⟨hexponent, hmantissa⟩ := hbelow
  · -- The smallest mantissa above is of full length, and its digits count at least twice.
    have hshort := hb.mantissa_lt
    have hfull := hb'.full (Int.lt_of_le_of_lt hb.le_exponent hexponent)
    have hnarrow : b'.lower = 4 * b'.mantissa - 1 ∨
        b'.lower = 4 * b'.mantissa - 2 ∧ hiddenBit < b'.mantissa := by
      have habove : -1074 < b'.exponent := Int.lt_of_le_of_lt hb.le_exponent hexponent
      obtain heq | hlt := Nat.eq_or_lt_of_le hfull
      · exact .inl (by simp [lower, narrowBelow, ← heq, habove])
      · exact .inr ⟨by simp [lower, narrowBelow, Nat.ne_of_gt hlt], hlt⟩
    refine not_covers_of_upper_le (k := 2) ?_ ?_ ?_ h
    · calc ((2 : ℕ) : ℚ) * 2 ^ (b.exponent - 2) = 2 ^ (1 + (b.exponent - 2)) := by
            rw [zpow_add₀ (by norm_num)]
            norm_num
        _ ≤ 2 ^ (b'.exponent - 2) := zpow_le_zpow_right₀ (by norm_num) (by omega)
    · rw [hiddenBit] at hshort hfull hnarrow
      rw [upper]
      omega
    · rw [hiddenBit] at hshort hfull hnarrow
      rw [upper]
      omega
  · refine not_covers_of_upper_le (k := 1) ?_ ?_ ?_ h
    · rw [hexponent, Nat.cast_one, one_mul]
    · rw [upper, lower]
      split <;> omega
    · rw [upper, lower]
      split <;> omega

/-- Every real rounds to at most one magnitude. -/
theorem Covers.unique {b b' : Binary} {q : ℚ} (hb : b.Canonical) (hb' : b'.Canonical)
    (h : b.Covers q) (h' : b'.Covers q) : b.mantissa = b'.mantissa ∧ b.exponent = b'.exponent := by
  obtain hexponent | hexponent | hexponent := lt_trichotomy b.exponent b'.exponent
  · exact absurd h' (not_covers_of_below hb hb' (.inl hexponent) h)
  · obtain hmantissa | hmantissa | hmantissa := lt_trichotomy b.mantissa b'.mantissa
    · exact absurd h' (not_covers_of_below hb hb' (.inr ⟨hexponent, hmantissa⟩) h)
    · exact ⟨hmantissa, hexponent⟩
    · exact absurd h (not_covers_of_below hb' hb (.inr ⟨hexponent.symm, hmantissa⟩) h')
  · exact absurd h (not_covers_of_below hb' hb (.inl hexponent) h')

/-- A power by an exponent of either sign, between powers by natural exponents. -/
theorem pow_toNat_eq (a : ℚ) (ha : a ≠ 0) (e : Int) :
    a ^ e.toNat = a ^ e * a ^ (-e).toNat := by
  rw [← zpow_natCast, ← zpow_natCast, ← zpow_add₀ ha]
  congr 1
  omega

/-- Quarters of a binary digit and points of a decimal grid are compared by integers. -/
theorem exists_scale (e g : Int) :
    ∃ c : ℚ, 0 < c ∧
      ((Nat.pow 2 (e - 2).toNat * Nat.pow 10 (-g).toNat : ℕ) : ℚ) = c * 2 ^ (e - 2) ∧
      ((Nat.pow 2 (2 - e).toNat * Nat.pow 10 g.toNat : ℕ) : ℚ) = c * 10 ^ g := by
  have htwo := pow_toNat_eq 2 (by norm_num) (e - 2)
  have hten := pow_toNat_eq 10 (by norm_num) g
  rw [neg_sub] at htwo
  refine ⟨2 ^ (2 - e).toNat * 10 ^ (-g).toNat, by positivity, ?_, ?_⟩
  · simp only [Nat.pow_eq, Nat.cast_mul, Nat.cast_pow, Nat.cast_ofNat, htwo]
    ring
  · simp only [Nat.pow_eq, Nat.cast_mul, Nat.cast_pow, Nat.cast_ofNat, hten]
    ring

/-- Whether the point `n` of the grid `10 ^ g` reads back as the magnitude of `b`. -/
def readsBack (b : Binary) (g : Int) (n : Nat) : Bool :=
  let scale := Nat.pow 2 (b.exponent - 2).toNat * Nat.pow 10 (-g).toNat
  let step := Nat.pow 2 (2 - b.exponent).toNat * Nat.pow 10 g.toNat
  (b.lower * scale < n * step && n * step < b.upper * scale) ||
    (b.mantissa % 2 == 0 && (b.lower * scale == n * step || n * step == b.upper * scale))

theorem readsBack_of_onGrid? {tie : Tie} {b : Binary} {g : Int} {d : Decimal}
    (h : b.onGrid? tie g = some d) : d.exponent = g ∧ b.readsBack g d.digits = true := by
  unfold onGrid? at h
  dsimp only at h
  split at h
  · next hbelow habove =>
    have hbelow := (Bool.and_eq_true_iff.mp hbelow).2
    split at h
    · cases h
      exact ⟨rfl, hbelow⟩
    · split at h <;> cases h
      · exact ⟨rfl, hbelow⟩
      · exact ⟨rfl, habove⟩
  · next hbelow _ =>
    cases h
    exact ⟨rfl, (Bool.and_eq_true_iff.mp hbelow).2⟩
  · next habove =>
    cases h
    exact ⟨rfl, habove⟩
  · cases h

theorem covers_of_readsBack {b : Binary} {g : Int} {n : Nat} (h : b.readsBack g n = true) :
    b.Covers (n * 10 ^ g) := by
  obtain ⟨c, hc, hscale, hstep⟩ := exists_scale b.exponent g
  have hends : b.lower ≤ b.upper := by
    rw [lower, upper]
    split <;> omega
  rw [readsBack] at h
  generalize Nat.pow 2 (b.exponent - 2).toNat * Nat.pow 10 (-g).toNat = scale at h hscale
  generalize Nat.pow 2 (2 - b.exponent).toNat * Nat.pow 10 g.toNat = step at h hstep
  simp only [Bool.or_eq_true, Bool.and_eq_true, decide_eq_true_eq, beq_iff_eq] at h
  have hle : ∀ a : ℕ, a * scale ≤ n * step ↔ (a : ℚ) * 2 ^ (b.exponent - 2) ≤ n * 10 ^ g := by
    intro a
    rw [← Nat.cast_le (α := ℚ), Nat.cast_mul, Nat.cast_mul, hscale, hstep, mul_left_comm,
      mul_left_comm (n : ℚ), mul_le_mul_iff_right₀ hc]
  have hge : ∀ a : ℕ, n * step ≤ a * scale ↔ (n : ℚ) * 10 ^ g ≤ a * 2 ^ (b.exponent - 2) := by
    intro a
    rw [← Nat.cast_le (α := ℚ), Nat.cast_mul, Nat.cast_mul, hscale, hstep, mul_left_comm,
      mul_left_comm (a : ℚ), mul_le_mul_iff_right₀ hc]
  have hwide := Nat.mul_le_mul_right scale hends
  refine ⟨(hle _).mp ?_, (hge _).mp ?_, fun hodd => ⟨?_, ?_⟩⟩
  · omega
  · omega
  · rw [← not_le, ← hge]
    omega
  · rw [← not_le, ← hle]
    omega

theorem truncate_of_isIntegral {b : Binary} (h : b.isIntegral = true) :
    (b.truncate : ℚ) = b.magnitude := by
  have hdvd : 2 ^ (-b.exponent).toNat ∣ b.mantissa :=
    Nat.dvd_of_mod_eq_zero (by simpa [isIntegral] using h)
  have hmul : b.truncate * 2 ^ (-b.exponent).toNat = b.mantissa * 2 ^ b.exponent.toNat :=
    Nat.div_mul_cancel (Dvd.dvd.mul_right hdvd _)
  have hcast : (b.truncate : ℚ) * 2 ^ (-b.exponent).toNat = b.mantissa * 2 ^ b.exponent.toNat := by
    exact_mod_cast hmul
  rw [pow_toNat_eq 2 (by norm_num) b.exponent, ← mul_assoc] at hcast
  exact mul_right_cancel₀ (pow_ne_zero _ (by norm_num)) hcast

/-- A magnitude as a decimal of its own, with a digit for each of its binary digits. -/
theorem value_eq_magnitude (b : Binary) :
    Decimal.value ⟨b.mantissa * Nat.pow 2 b.exponent.toNat * Nat.pow 5 (-b.exponent).toNat,
      if b.exponent ≤ 0 then b.exponent else 0⟩ = b.magnitude := by
  simp only [Decimal.value, magnitude, Nat.pow_eq, Nat.cast_mul, Nat.cast_pow, Nat.cast_ofNat]
  split
  · next hneg =>
    have hfive : (5 : ℚ) ^ (-b.exponent).toNat * 10 ^ b.exponent = 2 ^ b.exponent := by
      rw [← zpow_natCast, Int.toNat_of_nonneg (Int.neg_nonneg_of_nonpos hneg),
        show (10 : ℚ) = 5 * 2 by norm_num, mul_zpow, ← mul_assoc, ← zpow_add₀ (by norm_num),
        neg_add_cancel, zpow_zero, one_mul]
    rw [Int.toNat_of_nonpos hneg, pow_zero, mul_one, mul_assoc, hfive]
  · next hpos =>
    have hnonneg : 0 ≤ b.exponent := Int.le_of_lt (Int.not_le.mp hpos)
    rw [Int.toNat_of_nonpos (Int.neg_nonpos_of_nonneg hnonneg), pow_zero, zpow_zero, mul_one,
      mul_one, ← zpow_natCast, Int.toNat_of_nonneg hnonneg]

/-- The shortest decimal of a number rounds to it. -/
theorem covers_shortest (tie : Tie) (b : Binary) : b.Covers (b.shortest tie).value := by
  unfold shortest
  dsimp only
  generalize (List.range 652).map (fun i : Nat => (309 : Int) - (i : Int)) = grids
  cases hfound : grids.findSome? (b.onGrid? tie) with
  | some d =>
    obtain ⟨g, -, hgrid⟩ := List.exists_of_findSome?_eq_some hfound
    obtain ⟨rfl, hreads⟩ := readsBack_of_onGrid? hgrid
    exact covers_of_readsBack hreads
  | none =>
    -- Without a grid the decimal is the number itself.
    rw [Option.getD_none, value_eq_magnitude]
    exact b.covers_magnitude

end Binary

/-! ## Numerals -/

theorem ofDigits_eq (ds : List Char) : ofDigits ds = Nat.ofDigitChars 10 ds 0 :=
  rfl

/-- A decimal written out: digits, and more digits behind a point. -/
inductive Written : List Char → Decimal → Prop
  | whole {ds : List Char} (hne : ds ≠ []) (hdigits : ∀ d ∈ ds, d.isDigit = true) :
    Written ds ⟨ofDigits ds, 0⟩
  | parted {ds part : List Char} (hne : ds ≠ []) (hdigits : ∀ d ∈ ds, d.isDigit = true)
    (hpart : part ≠ []) (hdigits' : ∀ d ∈ part, d.isDigit = true) :
    Written (ds ++ '.' :: part) ⟨ofDigits (ds ++ part), -part.length⟩

theorem digits_append {ds rest : List Char} (hdigits : ∀ d ∈ ds, d.isDigit = true)
    (hrest : ∀ d ∈ rest.head?, d.isDigit = false) : digits (ds ++ rest) = (ds, rest) := by
  rw [digits, List.takeWhile_append_of_pos hdigits, List.dropWhile_append_of_pos hdigits]
  cases rest with
  | nil => simp
  | cons c rest => simp [hrest c rfl]

theorem digits_of_forall {ds : List Char} (hdigits : ∀ d ∈ ds, d.isDigit = true) :
    digits ds = (ds, []) := by
  simpa using @digits_append ds [] hdigits (by simp)

theorem decimal?_of_written {s : List Char} {d : Decimal} (h : Written s d) :
    decimal? s = some d := by
  cases h with
  | whole hne hdigits =>
    simp [decimal?, digits_of_forall hdigits, hne, exponent?]
  | @parted ds part hne hdigits hpart hdigits' =>
    have hsplit : digits (ds ++ '.' :: part) = (ds, '.' :: part) := digits_append hdigits (by simp)
    simp [decimal?, hsplit, digits_of_forall hdigits', hne, exponent?]

theorem isDigit_toDigits (n : Nat) : ∀ d ∈ Nat.toDigits 10 n, d.isDigit = true := fun _ hd =>
  Nat.isDigit_of_mem_toDigits (by decide) (by decide) hd

theorem isDigit_replicate (n : Nat) : ∀ d ∈ List.replicate n '0', d.isDigit = true := fun _ hd => by
  rw [List.eq_of_mem_replicate hd]
  rfl

theorem ofDigits_toDigits (n : Nat) : ofDigits (Nat.toDigits 10 n) = n :=
  Nat.ofDigitChars_ten_toDigits

theorem written_toDigits (n : Nat) : Written (Nat.toDigits 10 n) ⟨n, 0⟩ := by
  have h := Written.whole Nat.toDigits_ne_nil (isDigit_toDigits n)
  rwa [ofDigits_toDigits] at h

theorem ofDigits_zeros_append (k : Nat) (ds : List Char) :
    ofDigits (List.replicate k '0' ++ ds) = ofDigits ds := by
  rw [ofDigits_eq, Nat.ofDigitChars_append, Nat.ofDigitChars_replicate_zero, Nat.mul_zero,
    ofDigits_eq]

theorem ofDigits_append_zeros (k : Nat) (ds : List Char) :
    ofDigits (ds ++ List.replicate k '0') = 10 ^ k * ofDigits ds := by
  rw [ofDigits_eq, Nat.ofDigitChars_append, Nat.ofDigitChars_replicate_zero, ofDigits_eq]

/-- A decimal written out reads back as a decimal of the same value. -/
theorem written_positional (d : Decimal) :
    ∃ d', Written d.positional.toList d' ∧ d'.value = d.value := by
  obtain ⟨n, e⟩ := d
  have hdigits := isDigit_toDigits n
  have hne : Nat.toDigits 10 n ≠ [] := Nat.toDigits_ne_nil
  have hof := ofDigits_toDigits n
  unfold Decimal.positional
  dsimp only
  generalize Nat.toDigits 10 n = ds at hdigits hne hof ⊢
  have hlength : 0 < ds.length := List.length_pos_iff.mpr hne
  split
  · next hpoint =>
    refine ⟨⟨n, e⟩, ?_, rfl⟩
    rw [String.toList_ofList]
    generalize hzeros : (-(ds.length + e : Int)).toNat = k
    have hwritten := @Written.parted ['0'] (List.replicate k '0' ++ ds) (by simp)
      (by simp) (by simp [hne]) (List.forall_mem_append.mpr ⟨isDigit_replicate k, hdigits⟩)
    have hvalue : ofDigits (['0'] ++ (List.replicate k '0' ++ ds)) = n := by
      rw [← hof, ← ofDigits_zeros_append (k + 1) ds]
      rfl
    have hexponent : -((List.replicate k '0' ++ ds).length : Int) = e := by
      rw [List.length_append, List.length_replicate]
      omega
    rwa [hvalue, hexponent] at hwritten
  · next hpoint =>
    split
    · next hshort =>
      rw [String.toList_ofList]
      generalize hzeros : (ds.length + e : Int).toNat - ds.length = k
      have hall := List.forall_mem_append.mpr ⟨hdigits, isDigit_replicate k⟩
      refine ⟨_, .whole (by simp [hne]) hall, ?_⟩
      have hexponent : e = k := by omega
      rw [Decimal.value, Decimal.value, ofDigits_append_zeros, hof, hexponent]
      push_cast
      rw [zpow_natCast]
      ring
    · next hlong =>
      refine ⟨⟨n, e⟩, ?_, rfl⟩
      rw [String.toList_ofList]
      generalize hwhole : (ds.length + e : Int).toNat = k at hlong ⊢
      have hwritten := @Written.parted (ds.take k) (ds.drop k) (by simp [hne]; omega)
        (fun d hd => hdigits d (List.mem_of_mem_take hd)) (by simp; omega)
        (fun d hd => hdigits d (List.mem_of_mem_drop hd))
      have hexponent : -((ds.drop k).length : Int) = e := by
        rw [List.length_drop]
        omega
      rwa [List.take_append_drop, hof, hexponent] at hwritten

namespace Binary

/-- The text of a magnitude. -/
def numeral (b : Binary) : String :=
  if b.mantissa == 0 then "0"
  else if b.isIntegral then String.ofList (Nat.toDigits 10 b.truncate)
  else (b.shortest .up).positional

/-- What is written for a magnitude is a decimal that rounds to it. -/
theorem written_numeral (b : Binary) : ∃ d, Written b.numeral.toList d ∧ b.Covers d.value := by
  unfold numeral
  split
  · next hzero =>
    have hwritten : Written ['0'] ⟨0, 0⟩ := written_toDigits 0
    refine ⟨⟨0, 0⟩, by simpa using hwritten, ?_⟩
    have hmagnitude : b.magnitude = Decimal.value ⟨0, 0⟩ := by
      rw [magnitude, beq_iff_eq.mp hzero]
      simp [Decimal.value]
    exact hmagnitude ▸ b.covers_magnitude
  · split
    · next hintegral =>
      refine ⟨⟨b.truncate, 0⟩, ?_, ?_⟩
      · rw [String.toList_ofList]
        exact written_toDigits b.truncate
      · rw [Decimal.value, zpow_zero, mul_one, truncate_of_isIntegral hintegral]
        exact b.covers_magnitude
    · obtain ⟨d, hwritten, hvalue⟩ := written_positional (b.shortest .up)
      refine ⟨d, hwritten, ?_⟩
      rw [hvalue]
      exact b.covers_shortest .up

/-- The text of a magnitude determines it. -/
theorem numeral_inj {b b' : Binary} (hb : b.Canonical) (hb' : b'.Canonical)
    (h : b.numeral = b'.numeral) : b.mantissa = b'.mantissa ∧ b.exponent = b'.exponent := by
  obtain ⟨d, hwritten, hcovers⟩ := b.written_numeral
  obtain ⟨d', hwritten', hcovers'⟩ := b'.written_numeral
  have hsame : d = d' := by
    have hread := decimal?_of_written hwritten
    rw [h, decimal?_of_written hwritten'] at hread
    exact (Option.some.inj hread).symm
  exact hcovers.unique hb hb' (hsame ▸ hcovers')

end Binary

/-! ## Texts -/

/-- Whether a number is finite and has no minus sign. -/
def isUnsigned (x : Float) : Bool :=
  (Binary.ofFloat? x).any fun b => !b.negative

/-- Whether a number is finite and below zero. -/
def isNegative (x : Float) : Bool :=
  (Binary.ofFloat? x).any fun b => b.negative && b.mantissa != 0

theorem isUnsigned_iff {x : Float} :
    isUnsigned x = true ↔ ∃ b, Binary.ofFloat? x = some b ∧ b.negative = false := by
  simp [isUnsigned, Option.any_eq_true]

theorem isNegative_iff {x : Float} :
    isNegative x = true ↔
      ∃ b, Binary.ofFloat? x = some b ∧ b.negative = true ∧ b.mantissa ≠ 0 := by
  simp [isNegative, Option.any_eq_true]

theorem not_isNegative_of_isUnsigned {x : Float} (h : isUnsigned x = true) :
    ¬ isNegative x = true := by
  intro hnegative
  obtain ⟨b, hb, hsign⟩ := isUnsigned_iff.mp h
  obtain ⟨b', hb', hsign', -⟩ := isNegative_iff.mp hnegative
  rw [hb, Option.some.injEq] at hb'
  rw [← hb', hsign] at hsign'
  exact Bool.false_ne_true hsign'

theorem text_of_negative {x : Float} {b : Binary} (h : Binary.ofFloat? x = some b)
    (hzero : b.mantissa ≠ 0) (hnegative : b.negative = true) : text x = "-" ++ b.numeral := by
  have hzero : ¬ (b.mantissa == 0) = true := by simpa using hzero
  rw [Binary.numeral, if_neg hzero]
  unfold text
  rw [h]
  dsimp only
  rw [if_neg hzero, if_pos hnegative]

theorem text_of_not_negative {x : Float} {b : Binary} (h : Binary.ofFloat? x = some b)
    (hnegative : b.negative = false) : text x = b.numeral := by
  unfold text
  rw [h]
  dsimp only
  rw [hnegative, if_neg Bool.false_ne_true, Binary.numeral]

theorem written_text {x : Float} (h : isUnsigned x = true) : ∃ d, Written (text x).toList d := by
  obtain ⟨b, hb, hnegative⟩ := isUnsigned_iff.mp h
  obtain ⟨d, hwritten, -⟩ := b.written_numeral
  rw [text_of_not_negative hb hnegative]
  exact ⟨d, hwritten⟩

/-- Unsigned numbers have different texts. -/
theorem text_injOn : Set.InjOn text {x | isUnsigned x = true} := by
  intro x hx y hy htext
  obtain ⟨b, hb, hnegative⟩ := isUnsigned_iff.mp hx
  obtain ⟨b', hb', hnegative'⟩ := isUnsigned_iff.mp hy
  rw [text_of_not_negative hb hnegative, text_of_not_negative hb' hnegative'] at htext
  obtain ⟨hmantissa, hexponent⟩ :=
    Binary.numeral_inj (Binary.canonical_of_ofBits? hb) (Binary.canonical_of_ofBits? hb') htext
  have hsame : b = b' := by
    obtain ⟨negative, mantissa, exponent⟩ := b
    obtain ⟨negative', mantissa', exponent'⟩ := b'
    dsimp only at hnegative hnegative' hmantissa hexponent
    rw [hnegative, hnegative', hmantissa, hexponent]
  exact Binary.ofFloat?_inj hb (hsame ▸ hb')

/-- A negative number is written as its opposite behind a minus sign. -/
theorem text_of_isNegative {x : Float} (h : isNegative x = true) :
    isUnsigned (-x) = true ∧ text x = "-" ++ text (-x) ∧ - -x = x := by
  obtain ⟨b, hb, hnegative, hzero⟩ := isNegative_iff.mp h
  have hneg := Binary.ofFloat?_neg hb
  rw [hnegative, Bool.not_true] at hneg
  refine ⟨isUnsigned_iff.mpr ⟨_, hneg, rfl⟩, ?_, Binary.neg_neg_of_ofFloat? hb⟩
  rw [text_of_negative hb hzero hnegative, text_of_not_negative hneg rfl]
  rfl

end AtomicStyle.Number
