import Criteria.Proofs.Decimal.Numeral
import Mathlib

/-!
# Literals for floats

Every finite float has a literal: its value, written out with as many decimal places as any float
needs.  Reading the literal divides by a power of ten without remainder, and rounding does not
change a number that a float can hold.

**Results.**
* `Decimal.div_exact`: a quotient that a float can hold is computed without rounding.
* `Decimal.exists_toFloat`: every float without sign is the value of such a literal.
* `Decimal.exists_floatOfText`: every finite float is read from some literal.
-/

namespace Criteria
namespace Decimal

open Float.Model Float.Model.UnpackedFloat

/-! ### Floats by their parts -/

section Parts

variable {sign : Sign} {biased : BitVec 11} {fraction : BitVec 52}

/-- The float with the given sign, biased exponent and fraction bits. -/
def assemble (sign : Sign) (biased : BitVec 11) (fraction : BitVec 52) : UnpackedFloat :=
  if biased = -1#11 then
    if fraction = 0#52 then .infinity sign else .notANumber
  else if biased = 0#11 then
    if h : fraction = 0#52 then .zero sign
    else .finite sign fraction.toNat (-1074) (by simpa [BitVec.toNat_pos, BitVec.pos_iff_ne_zero])
  else .finite sign (2 ^ 52 + fraction.toNat) (biased.toNat - 1075) (by omega)

theorem toNat_leading (fraction : BitVec 52) :
    (1#1 ++ fraction).toNat = 2 ^ 52 + fraction.toNat := by
  rw [BitVec.toNat_append, ← Nat.shiftLeft_add_eq_or_of_lt fraction.isLt]
  rfl

/-- A float is put together from its own parts. -/
theorem unpack_eq_assemble (b : BitVec Format.binary64.numBits) :
    unpack .binary64 b =
      assemble (Sign.ofBitVec (unpackSign b)) (unpackExponent b) (unpackMantissa b) := by
  have hbias : ((Format.binary64.exponentBias : Nat) : Int) = 1023 := rfl
  rw [UnpackedFloat.unpack, assemble]
  split
  · rfl
  · split
    · next hzero =>
      split
      · rfl
      · congr 1
        rw [hzero, hbias]
        rfl
    · congr 1
      exact toNat_leading _

theorem packComponents_parts (b : BitVec Format.binary64.numBits) :
    packComponents .binary64 (Sign.ofBitVec (unpackSign b)) (unpackExponent b)
      (unpackMantissa b) = b := by
  have hsign (v : BitVec 1) : (Sign.ofBitVec v).toBitVec = v := by
    revert v
    decide
  rw [packComponents, hsign]
  simp only [unpackSign, unpackExponent, unpackMantissa, BitVec.extractLsb]
  ext i hi
  grind

theorem unpackSign_packComponents :
    unpackSign (packComponents .binary64 sign biased fraction) = sign.toBitVec := by
  simp only [unpackSign, packComponents, BitVec.extractLsb]
  rw [BitVec.extractLsb'_append_eq_of_le (by decide),
    BitVec.extractLsb'_append_eq_of_le (by decide)]
  cases sign <;> rfl

theorem unpack_packComponents :
    unpack .binary64 (packComponents .binary64 sign biased fraction) =
      assemble sign biased fraction := by
  have hsign : Sign.ofBitVec sign.toBitVec = sign := by cases sign <;> rfl
  rw [unpack_eq_assemble, unpackSign_packComponents, unpackExponent_packComponents,
    unpackMantissa_packComponents, hsign]

/-- Packing a finite float loses nothing. -/
theorem pack_assemble (h : biased ≠ -1#11) :
    pack .binary64 (assemble sign biased fraction) =
      packComponents .binary64 sign biased fraction := by
  have hbias : ((Format.binary64.exponentBias : Nat) : Int) = 1023 := rfl
  have hbits : Format.binary64.mantissaBits = 53 := rfl
  have hfraction := fraction.isLt
  have hbiased : biased.toNat < 2047 := by
    have hne : biased.toNat ≠ (-1#11).toNat := fun heq => h (BitVec.eq_of_toNat_eq heq)
    have hlast : (-1#11).toNat = 2047 := by decide
    have hlt := biased.isLt
    omega
  rw [assemble, if_neg h]
  split
  · next hzero =>
    subst hzero
    split
    · next hfraction =>
      subst hfraction
      rfl
    · next hne =>
      -- A float below the least power of two: its leading bit is missing.
      have hpos : fraction.toNat ≠ 0 := fun heq => hne (BitVec.eq_of_toNat_eq heq)
      have hlog : ¬ fraction.toNat.log2 + 1 = 53 := by
        have := (Nat.log2_lt hpos).2 hfraction
        omega
      have hone : ((-1074 : Int) + Format.binary64.exponentBias +
        (Format.binary64.mantissaBitsWithoutImplicit : Nat)).toNat = 1 := rfl
      rw [UnpackedFloat.pack]
      simp only [hone]
      rw [if_neg (by decide), hbits, if_neg hlog, BitVec.ofNat_toNat, BitVec.setWidth_eq]
  · next hne =>
    have hlog : (2 ^ 52 + fraction.toNat).log2 + 1 = 53 := by
      have := (Nat.log2_eq_iff (k := 52) (by omega : 2 ^ 52 + fraction.toNat ≠ 0)).2 (by omega)
      omega
    have hexponent : ((biased.toNat : Int) - 1075 + Format.binary64.exponentBias +
        (Format.binary64.mantissaBitsWithoutImplicit : Nat)).toNat = biased.toNat := by
      have hplaces : ((Format.binary64.mantissaBitsWithoutImplicit : Nat) : Int) = 52 := rfl
      rw [hbias, hplaces]
      omega
    rw [UnpackedFloat.pack]
    simp only [hexponent]
    rw [if_neg (show ¬ 2 ^ 11 ≤ biased.toNat + 1 by omega), hbits, if_pos hlog, BitVec.ofNat_toNat,
      BitVec.setWidth_eq]
    congr 1
    refine BitVec.eq_of_toNat_eq ?_
    rw [BitVec.toNat_ofNat]
    show (2 ^ 52 + fraction.toNat) % 2 ^ 52 = fraction.toNat
    omega

theorem neg_assemble : (assemble sign biased fraction).neg = assemble (-sign) biased fraction := by
  unfold assemble
  split
  · split <;> rfl
  · split
    · split <;> rfl
    · rfl

end Parts

/-! ### Rounding what a float can hold -/

section Rounding

variable {m : Nat} {e : Int}

/-- The exponent is the one that rounding chooses for the mantissa. -/
def Canonical (m : Nat) (e : Int) : Prop :=
  max (m.log2 + 1 + e - 53) (-1074) = e

theorem targetExponent_eq (t : Int) : Format.binary64.targetExponent t = max (t - 53) (-1074) :=
  rfl

theorem log2_mul_two_pow (hm : m ≠ 0) (k : Nat) : (m * 2 ^ k).log2 = m.log2 + k := by
  have hpos : m * 2 ^ k ≠ 0 := Nat.mul_ne_zero hm (by simp)
  have hlow := (Nat.le_log2 hm).1 (Nat.le_refl _)
  have hhigh := (Nat.log2_lt hm).1 (Nat.lt_succ_self _)
  rw [Nat.log2_eq_iff hpos, pow_add, Nat.add_right_comm, pow_add]
  exact ⟨Nat.mul_le_mul_right _ hlow, Nat.mul_lt_mul_of_pos_right hhigh (by simp)⟩

/-- Shifting zeros out leaves no trace. -/
theorem shift_exact (m k : Nat) :
    ExtendedMantissa.ofMantissaAndAccuracy (m * 2 ^ k) .exact >>> k = ⟨m, false, false⟩ := by
  show k.repeat ExtendedMantissa.shiftRightOne
    (ExtendedMantissa.ofMantissaAndAccuracy (m * 2 ^ k) .exact) = _
  induction k generalizing m with
  | zero => simp [Nat.repeat, ExtendedMantissa.ofMantissaAndAccuracy]
  | succ k ih =>
    have hdouble : m * 2 ^ (k + 1) = (m * 2) * 2 ^ k := by rw [pow_succ']; ring
    rw [Nat.repeat, hdouble, ih]
    simp [ExtendedMantissa.shiftRightOne]

theorem shiftToTargetExponent_exact (hm : m ≠ 0) (h : Canonical m e) (k : Nat) :
    shiftToTargetExponent .binary64 (m * 2 ^ k) (e - k) .exact = (⟨m, false, false⟩, e) := by
  have htarget : Format.binary64.targetExponent (totalExponent (m * 2 ^ k) (e - k)) = e := by
    rw [Canonical] at h
    rw [targetExponent_eq, totalExponent, log2_mul_two_pow hm]
    push_cast
    omega
  have hshift : (e - (e - k)).toNat = k := by omega
  rw [shiftToTargetExponent, htarget, shiftToExponent, hshift, shift_exact]
  simp

/-- Rounding keeps a number that a float can hold. -/
theorem roundWithAccuracy_exact (hm : 0 < m) (h : Canonical m e) (k : Nat) (sign : Sign) :
    roundWithAccuracy .binary64 sign (m * 2 ^ k) (e - k) .exact = .finite sign m e hm := by
  have hfirst := shiftToTargetExponent_exact hm.ne' h k
  have hsecond := shiftToTargetExponent_exact hm.ne' h 0
  rw [pow_zero, mul_one, Nat.cast_zero, sub_zero] at hsecond
  have hround : ExtendedMantissa.roundedMantissa ⟨m, false, false⟩ = m := rfl
  simp only [roundWithAccuracy, hfirst, hround, hsecond]
  exact dif_neg hm.ne'

/-- A quotient that a float can hold is computed exactly. -/
theorem div_exact {n d a b : Nat} (hm : 0 < m) (hn : 0 < n) (hd : 0 < d)
    (hmul : n * 2 ^ a = m * 2 ^ b * d) (h : Canonical m (b - a)) :
    UnpackedFloat.div .binary64 (.finite .positive n 0 hn) (.finite .positive d 0 hd) =
      .finite .positive m (b - a) hm := by
  generalize hT : min ((0 : Int) - 0)
    (Format.binary64.targetExponent (totalExponent n 0 - totalExponent d 0)) = T
  generalize hs : ((0 : Int) - 0 - T).toNat = s
  -- The quotient starts at least as many places to the left as the float does.
  have hle : T ≤ (b : Int) - a := by
    have hlog := congrArg Nat.log2 hmul
    rw [log2_mul_two_pow hn.ne', Nat.mul_right_comm,
      log2_mul_two_pow (Nat.mul_ne_zero hm.ne' hd.ne')] at hlog
    have hproduct : (m * d).log2 < m.log2 + 1 + (d.log2 + 1) := by
      rw [Nat.log2_lt (Nat.mul_ne_zero hm.ne' hd.ne'), pow_add]
      exact Nat.mul_lt_mul'' ((Nat.log2_lt hm.ne').1 (Nat.lt_succ_self _))
        ((Nat.log2_lt hd.ne').1 (Nat.lt_succ_self _))
    rw [Canonical] at h
    rw [targetExponent_eq] at hT
    simp only [totalExponent] at hT
    omega
  obtain ⟨k, hk⟩ : ∃ k : Nat, (k : Int) = (b : Int) - a - T :=
    ⟨((b : Int) - a - T).toNat, by omega⟩
  have hquotient : n <<< s = m * 2 ^ k * d := by
    rw [Nat.shiftLeft_eq]
    refine Nat.eq_of_mul_eq_mul_right (Nat.two_pow_pos a) ?_
    have hsum : b + s = k + a := by omega
    calc n * 2 ^ s * 2 ^ a = n * 2 ^ a * 2 ^ s := Nat.mul_right_comm _ _ _
      _ = m * 2 ^ (b + s) * d := by rw [hmul, pow_add]; ring
      _ = m * 2 ^ k * d * 2 ^ a := by rw [hsum, pow_add]; ring
  have hcore : divCore .binary64 n 0 d 0 = (m * 2 ^ k, T, .exact) := by
    rw [divCore]
    simp only [hT, hs, hquotient, Nat.mul_div_cancel _ hd, Nat.mul_mod_left]
    rfl
  have hT' : T = (b : Int) - a - k := by omega
  rw [UnpackedFloat.div, hcore, hT']
  exact roundWithAccuracy_exact hm h k .positive

/-- The number of decimal places of a literal.  Floats are multiples of the power of two with this
exponent, so no more places are ever needed. -/
def places : Nat := 1074

/-- The value of a float is a whole number of units of the last place. -/
theorem exists_ofScientific (hm : 0 < m) (hmin : -1074 ≤ e) (h : Canonical m e) :
    ∃ n, UnpackedFloat.ofScientific .binary64 n (-(places : Int)) = .finite .positive m e hm := by
  obtain ⟨b, rfl⟩ : ∃ b : Nat, e = (b : Int) - (places : Nat) :=
    ⟨(e + 1074).toNat, by rw [places]; omega⟩
  have hexponent : (-(-(places : Int))).toNat = places := by omega
  have hn : 0 < m * 2 ^ b * 5 ^ places :=
    Nat.mul_pos (Nat.mul_pos hm (Nat.two_pow_pos _)) (Nat.pow_pos (by norm_num))
  have hten : 0 < 10 ^ (-(-(places : Int))).toNat := Nat.pow_pos (by norm_num)
  have hmul : m * 2 ^ b * 5 ^ places * 2 ^ places =
      m * 2 ^ b * 10 ^ (-(-(places : Int))).toNat := by
    rw [hexponent, Nat.mul_assoc, ← Nat.mul_pow]
  refine ⟨m * 2 ^ b * 5 ^ places, ?_⟩
  rw [UnpackedFloat.ofScientific, dif_neg hn.ne', if_neg ?large, if_neg ?small, if_neg ?whole]
  · exact div_exact hm hn hten hmul h
  case large =>
    show ¬ (-(places : Int)) > 2 ^ 11
    omega
  case small =>
    show ¬ (-(places : Int)) < -((2 ^ 11 : Int) + _)
    rw [places]
    omega
  case whole =>
    rw [places]
    decide

end Rounding

/-! ### Reading the literal of a float -/

section Reading

variable {sign : Sign} {biased : BitVec 11}

theorem exists_pack_assemble {b : BitVec Format.binary64.numBits}
    (h : (UnpackedFloat.unpack .binary64 b).isFinite = true) :
    ∃ sign biased fraction, biased ≠ -1#11 ∧
      UnpackedFloat.pack .binary64 (assemble sign biased fraction) = b := by
  have hbiased : unpackExponent b ≠ -1#11 := by
    intro hlast
    rw [unpack_eq_assemble, assemble, if_pos hlast] at h
    split at h <;> cases h
  exact ⟨_, _, _, hbiased, (pack_assemble hbiased).trans (packComponents_parts b)⟩

/-- A finite float is packed from its parts. -/
theorem eq_pack_assemble {x : Float} (hx : x.isFinite = true) :
    ∃ sign biased fraction, biased ≠ -1#11 ∧
      x = .ofModel (.pack (assemble sign biased fraction)) := by
  obtain ⟨⟨⟨b⟩, hvalid⟩⟩ := x
  obtain ⟨sign, biased, fraction, hbiased, hpack⟩ := exists_pack_assemble hx
  refine ⟨sign, biased, fraction, hbiased, ?_⟩
  rw [Float.Model.pack]
  congr 2
  rw [hpack]

theorem neg_pack_assemble (h : biased ≠ -1#11) (fraction : BitVec 52) :
    -Float.ofModel (.pack (assemble sign biased fraction)) =
      .ofModel (.pack (assemble (-sign) biased fraction)) := by
  show Float.ofModel (.pack (UnpackedFloat.unpack .binary64
    (UnpackedFloat.pack .binary64 (assemble sign biased fraction))).neg) = _
  rw [pack_assemble h, unpack_packComponents, neg_assemble]

/-- Every float without sign is the value of a literal. -/
theorem exists_toFloat (h : biased ≠ -1#11) (fraction : BitVec 52) :
    ∃ n, toFloat ⟨n, -(places : Int)⟩ =
      .ofModel (.pack (assemble .positive biased fraction)) := by
  obtain ⟨n, hn⟩ : ∃ n, UnpackedFloat.ofScientific .binary64 n (-(places : Int)) =
      assemble .positive biased fraction := by
    unfold assemble
    rw [if_neg h]
    split
    · split
      · exact ⟨0, rfl⟩
      · next hne =>
        have hpos : fraction.toNat ≠ 0 := fun heq => hne (BitVec.eq_of_toNat_eq heq)
        have hlog := (Nat.log2_lt hpos).2 fraction.isLt
        refine exists_ofScientific _ (by omega) ?_
        rw [Canonical]
        omega
    · next hne =>
      have hpos : biased.toNat ≠ 0 := fun heq => hne (BitVec.eq_of_toNat_eq heq)
      have hlt := fraction.isLt
      have hlog : (2 ^ 52 + fraction.toNat).log2 = 52 :=
        (Nat.log2_eq_iff (by omega)).2 (by omega)
      refine exists_ofScientific _ (by omega) ?_
      rw [Canonical, hlog]
      omega
  refine ⟨n, ?_⟩
  show Float.ofScientific n true 1074 = _
  rw [Float.ofScientific, dif_neg (by omega), ← hn]
  rfl

end Reading

end Decimal

/-- Every finite float is read from some literal. -/
theorem exists_floatOfText {x : Float} (hx : x.isFinite = true) :
    ∃ sign whole fraction : List Char, sign ∈ [[], ['+'], ['-']] ∧ whole ≠ [] ∧ fraction ≠ [] ∧
      (∀ c ∈ whole, c.isDigit = true) ∧ (∀ c ∈ fraction, c.isDigit = true) ∧
      floatOfText (sign ++ (whole ++ '.' :: fraction)) = x := by
  obtain ⟨sign, biased, bits, hbiased, rfl⟩ := Decimal.eq_pack_assemble hx
  obtain ⟨n, hn⟩ := Decimal.exists_toFloat hbiased bits
  obtain ⟨whole, fraction, hne, hwhole, hfraction, hlength, htext, hread⟩ :=
    Decimal.positional_point n 1073
  have hmagnitude : (Decimal.ofText (whole ++ '.' :: fraction)).toFloat =
      .ofModel (.pack (Decimal.assemble .positive biased bits)) := by
    rw [Decimal.ofText_point hwhole hfraction, hread, hlength]
    exact hn
  have hfraction' : fraction ≠ [] := by
    rintro rfl
    cases hlength
  cases sign with
  | positive =>
    refine ⟨[], whole, fraction, by simp, hne, hfraction', hwhole, hfraction, ?_⟩
    obtain ⟨c, rest, rfl⟩ := List.exists_cons_of_ne_nil hne
    have hc := hwhole c List.mem_cons_self
    have hplus : c ≠ '+' := by rintro rfl; cases hc
    have hminus : c ≠ '-' := by rintro rfl; cases hc
    rw [← hmagnitude]
    simp [floatOfText, Text.signLength, hplus, hminus]
  | negative =>
    refine ⟨['-'], whole, fraction, by simp, hne, hfraction', hwhole, hfraction, ?_⟩
    have hneg : -Float.ofModel (.pack (Decimal.assemble .positive biased bits)) =
        .ofModel (.pack (Decimal.assemble .negative biased bits)) :=
      Decimal.neg_pack_assemble hbiased bits
    rw [← hmagnitude] at hneg
    simpa [floatOfText, Text.signLength] using hneg

end Criteria
