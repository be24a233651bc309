import Criteria.Proofs.Decimal.FloatText

/-!
# What the text of a float is rounded to

The text of a float need not write the number that the float is: it writes a short decimal near to it.
A number near to a finite float is rounded to it, and to no other one, if no finite float is nearer;
of two that are as near, to the one whose last bit is zero.  The ends of a span are in the middle
between two neighbours, so that what a span holds is rounded to its float.

**Results.**
* `floatExact_eq`: the number that a finite float is, by its bits.
* `Span.Owns.nearest`: what a span holds is nearer to its float than to all others.
* `roundsTo_floatValue_iff`: the text of a float is rounded to this float, and to no other.
-/

namespace Criteria

/-- The rational number that a finite float is, once it is taken apart. -/
def unpackedValue : Float.Model.UnpackedFloat → ℚ
  | .finite sign mantissa exponent _ => (sign.apply mantissa : ℤ) * 2 ^ exponent
  | .zero _ | .infinity _ | .notANumber => 0

/-- The rational number that a finite float is. -/
def floatExact (x : Float) : ℚ :=
  unpackedValue x.toModel.unpack

/-- The number is rounded to this finite float: it is below the middle between the largest float and
the next power of two, no finite float is nearer, and if others are as near then the last bit of this
one is zero. -/
structure RoundsTo (q : ℚ) (x : Float) : Prop where
  finite : x.isFinite = true
  bounded : |q| < 2 ^ 1024 - 2 ^ 970
  nearest : ∀ y : Float, y.isFinite = true →
    |q - floatExact x| < |q - floatExact y| ∨
      |q - floatExact x| = |q - floatExact y| ∧
        (floatExact y = floatExact x ∨ x.toBits.toNat % 2 = 0)

/-- The number that the text of a float writes. -/
def floatValue (x : Float) : ℚ :=
  numeralValue (floatText x).toList

namespace Decimal

open Decimal.Span Float.Model

/-! ### The numbers of floats -/

/-- The magnitude of the float with the given number. -/
def magnitude (c : Nat) : ℚ :=
  4 * mantissa (c / leadingBit) (c % leadingBit) * 2 ^ Span.exponent (c / leadingBit)

section Bits

variable (x : Float)

theorem unpackExponent_toNat :
    (@UnpackedFloat.unpackExponent .binary64 x.toBits.toBitVec).toNat =
      floatNumber x / leadingBit := by
  rw [UnpackedFloat.unpackExponent, BitVec.toNat_cast, BitVec.extractLsb_toNat]
  show x.toBits.toNat >>> 52 % 2048 = _
  rw [Nat.shiftRight_eq_div_pow, floatNumber, leadingBit_eq]
  omega

theorem unpackMantissa_toNat :
    (@UnpackedFloat.unpackMantissa .binary64 x.toBits.toBitVec).toNat =
      floatNumber x % leadingBit := by
  rw [UnpackedFloat.unpackMantissa, BitVec.toNat_cast, BitVec.extractLsb_toNat]
  show x.toBits.toNat >>> 0 % 4503599627370496 = _
  rw [Nat.shiftRight_eq_div_pow, floatNumber, leadingBit_eq]
  omega

theorem unpackSign_toNat :
    (@UnpackedFloat.unpackSign .binary64 x.toBits.toBitVec).toNat =
      x.toBits.toNat / 9223372036854775808 := by
  have hlt : x.toBits.toNat < 18446744073709551616 := x.toBits.toNat_lt
  have hbit : (@UnpackedFloat.unpackSign .binary64 x.toBits.toBitVec).toNat =
      (x.toBits.toBitVec.extractLsb 63 63).toNat := rfl
  rw [hbit, BitVec.extractLsb_toNat]
  show x.toBits.toNat >>> 63 % 2 = _
  rw [Nat.shiftRight_eq_div_pow]
  omega

theorem sign_ofBitVec :
    UnpackedFloat.Sign.ofBitVec (@UnpackedFloat.unpackSign .binary64 x.toBits.toBitVec) =
      if 9223372036854775808 ≤ x.toBits.toNat then .negative else .positive := by
  have hlt : x.toBits.toNat < 18446744073709551616 := x.toBits.toNat_lt
  have hdiv := unpackSign_toNat x
  unfold UnpackedFloat.Sign.ofBitVec
  split
  · next h =>
    rw [h] at hdiv
    change 0 = _ at hdiv
    rw [if_neg (by omega)]
  · next h =>
    rw [if_pos]
    by_contra hlow
    refine h (BitVec.eq_of_toNat_eq ?_)
    rw [hdiv]
    show _ = 0
    omega

/-- What the model of floats takes a float apart into. -/
theorem unpack_cases {P : UnpackedFloat → Prop}
    (hlast : floatNumber x / leadingBit = 2047 → ∀ u : UnpackedFloat, u.isFinite = false → P u)
    (hzero : floatNumber x = 0 → ∀ sign, P (.zero sign))
    (hfinite : floatNumber x / leadingBit < 2047 → ∀ h, P (.finite
      (if 9223372036854775808 ≤ x.toBits.toNat then .negative else .positive)
      (mantissa (floatNumber x / leadingBit) (floatNumber x % leadingBit))
      (Span.exponent (floatNumber x / leadingBit) + 2) h)) : P x.toModel.unpack := by
  have hbiased := unpackExponent_toNat x
  have hfraction := unpackMantissa_toNat x
  have hlt := floatNumber_div_lt x
  have hparts {m : Nat} {e : ℤ} (h : 0 < m) (hbound : floatNumber x / leadingBit < 2047)
      (hm : m = mantissa (floatNumber x / leadingBit) (floatNumber x % leadingBit))
      (he : e = Span.exponent (floatNumber x / leadingBit) + 2) : P (.finite
        (if 9223372036854775808 ≤ x.toBits.toNat then .negative else .positive) m e h) := by
    subst hm he
    exact hfinite hbound h
  show P (UnpackedFloat.unpack .binary64 x.toBits.toBitVec)
  unfold UnpackedFloat.unpack
  dsimp only
  rw [sign_ofBitVec]
  by_cases hlast' : @UnpackedFloat.unpackExponent .binary64 x.toBits.toBitVec = -1#_
  · rw [if_pos hlast']
    have hb : _ = 2047 := congrArg BitVec.toNat hlast'
    exact hlast (hbiased ▸ hb) _ (by split <;> rfl)
  · rw [if_neg hlast']
    have hne : floatNumber x / leadingBit ≠ 2047 := fun hb =>
      hlast' (BitVec.eq_of_toNat_eq (hbiased.trans hb))
    by_cases hsmall : @UnpackedFloat.unpackExponent .binary64 x.toBits.toBitVec = 0#_
    · have hb : _ = 0 := congrArg BitVec.toNat hsmall
      rw [hbiased] at hb
      rw [if_pos hsmall]
      by_cases hf : @UnpackedFloat.unpackMantissa .binary64 x.toBits.toBitVec = 0#_
      · rw [dif_pos hf]
        have hf : _ = 0 := congrArg BitVec.toNat hf
        rw [hfraction] at hf
        exact hzero (by rw [leadingBit_eq] at hb hf; omega) _
      · rw [dif_neg hf]
        refine hparts _ (by omega) ?_ ?_
        · rw [hfraction, hb, mantissa, if_pos rfl]
        · rw [hbiased, hb]
          rfl
    · rw [if_neg hsmall]
      have hpos : floatNumber x / leadingBit ≠ 0 := fun hb =>
        hsmall (BitVec.eq_of_toNat_eq (hbiased.trans hb))
      refine hparts _ (by omega) ?_ ?_
      · have hlow : floatNumber x % leadingBit < 2 ^ 52 := Nat.mod_lt _ (by decide)
        rw [BitVec.toNat_append, mantissa, if_neg hpos, hfraction, Nat.or_comm]
        exact Nat.or_two_pow_eq_add_of_lt hlow
      · rw [hbiased, Span.exponent, if_neg hpos]
        show _ - ((1023 : ℤ) + 52) = _
        omega

/-- A float is finite if its exponent is not the last one. -/
theorem isFinite_iff : x.isFinite = true ↔ floatNumber x / leadingBit < 2047 := by
  show x.toModel.unpack.isFinite = true ↔ _
  refine unpack_cases x (P := fun u => u.isFinite = true ↔ _) (fun h u hu => ?_)
    (fun h sign => ?_) fun h _ => ?_
  · simp [hu, h]
  · exact iff_of_true rfl (by simp [h])
  · exact iff_of_true rfl h

/-- The sign of a float, as a factor. -/
def floatSignum (x : Float) : ℚ :=
  if 9223372036854775808 ≤ x.toBits.toNat then -1 else 1

/-- The number that a finite float is, by its bits. -/
theorem floatExact_eq (hx : x.isFinite = true) :
    floatExact x = floatSignum x * magnitude (floatNumber x) := by
  rw [isFinite_iff] at hx
  unfold floatExact
  refine unpack_cases x (P := fun u => unpackedValue u = _) (fun h => ?_) (fun h sign => ?_)
    fun h _ => ?_
  · exact absurd hx (by omega)
  · show (0 : ℚ) = _
    simp [h, magnitude, mantissa]
  · show ((UnpackedFloat.Sign.apply _ _ : ℤ) : ℚ) * 2 ^ (_ + 2 : ℤ) = _
    rw [magnitude, floatSignum, zpow_add₀ (by norm_num)]
    split <;> simp [UnpackedFloat.Sign.apply] <;> ring

end Bits

/-! ### Neighbours -/

section Neighbours

variable {c c' : Nat} {t : ℚ}

/-- How far a float is from the end of its span above, and the next one from its end below. -/
theorem margin_succ (c : Nat) :
    (margin ((c + 1) / leadingBit) ((c + 1) % leadingBit) : ℚ) *
        2 ^ Span.exponent ((c + 1) / leadingBit) = 2 * 2 ^ Span.exponent (c / leadingBit) := by
  by_cases hlast : (c + 1) % leadingBit = 0
  · have hnext : (c + 1) / leadingBit = c / leadingBit + 1 := by
      rw [leadingBit_eq] at hlast ⊢
      omega
    rw [hnext, hlast, margin, Span.exponent, Span.exponent]
    by_cases h0 : c / leadingBit = 0
    · simp [h0]
    · have hpos : 0 < c / leadingBit := Nat.pos_of_ne_zero h0
      simp only [hpos, Nat.succ_ne_zero, h0, Nat.lt_add_left_iff_pos, and_self, if_true, if_false]
      rw [← zpow_one_add₀ (by norm_num)]
      push_cast
      ring_nf
  · have hsame : (c + 1) / leadingBit = c / leadingBit := by
      rw [leadingBit_eq] at hlast ⊢
      omega
    rw [hsame, margin, if_neg fun h => hlast h.1]
    rfl

theorem bound_succ_above (c : Nat) :
    bound (c + 1) = magnitude c + 2 * 2 ^ Span.exponent (c / leadingBit) := by
  rw [← bound_succ, ofNumber, scaled_high, magnitude]
  push_cast
  ring

theorem bound_succ_below (c : Nat) :
    bound (c + 1) = magnitude (c + 1) - 2 * 2 ^ Span.exponent (c / leadingBit) := by
  have hmargin : margin ((c + 1) / leadingBit) ((c + 1) % leadingBit) ≤
      4 * mantissa ((c + 1) / leadingBit) ((c + 1) % leadingBit) := by
    rw [margin, mantissa, leadingBit_eq]
    split <;> split <;> omega
  rw [← margin_succ, bound, ofNumber, scaled_low, magnitude, Nat.cast_sub hmargin]
  push_cast
  ring

/-- Two neighbours meet in their middle. -/
theorem bound_succ_eq (c : Nat) : bound (c + 1) = (magnitude c + magnitude (c + 1)) / 2 := by
  have habove := bound_succ_above c
  have hbelow := bound_succ_below c
  linarith

theorem magnitude_strictMono : StrictMono magnitude := by
  refine strictMono_nat_of_lt_succ fun c => ?_
  have hunit : (0 : ℚ) < 2 ^ Span.exponent (c / leadingBit) := zpow_pos (by norm_num) _
  have habove := bound_succ_above c
  have hbelow := bound_succ_below c
  linarith

theorem magnitude_zero : magnitude 0 = 0 := by
  simp [magnitude, mantissa]

theorem magnitude_nonneg (c : Nat) : 0 ≤ magnitude c := by
  have hle := magnitude_strictMono.monotone (Nat.zero_le c)
  rwa [magnitude_zero] at hle

theorem Span.Owns.nonneg (h : Owns c t) : 0 ≤ t := by
  have hle := bound_strictMono.monotone (Nat.zero_le c)
  rw [bound_zero] at hle
  exact hle.trans h.1

/-- Up to the middle between two numbers the lower one is nearer than all from the upper one on; in
the middle the two are as near. -/
theorem nearer_of_le_middle {a b d : ℚ} (hab : a < b) (hbd : b ≤ d) (ht : t ≤ (a + b) / 2) :
    |t - a| < |t - d| ∨ |t - a| = |t - d| ∧ t = (a + b) / 2 ∧ d = b := by
  have habs : |t - d| = d - t := by
    rw [abs_of_nonpos (by linarith), neg_sub]
  rcases ht.lt_or_eq with hlt | rfl
  · left
    rw [habs, abs_lt]
    constructor <;> linarith
  · rcases hbd.lt_or_eq with hlt | rfl
    · left
      rw [habs, abs_lt]
      constructor <;> linarith
    · right
      refine ⟨?_, rfl, rfl⟩
      rw [habs, abs_of_nonneg (by linarith)]
      linarith

/-- What a span holds is nearer to its float than to all others, but for its ends.  An end is as near
to the neighbour there; the number of this float is even then, and that of the neighbour is odd. -/
theorem Span.Owns.nearest (h : Owns c t) (hne : c' ≠ c) :
    |t - magnitude c| < |t - magnitude c'| ∨
      |t - magnitude c| = |t - magnitude c'| ∧ c % 2 = 0 ∧ c' % 2 = 1 := by
  obtain ⟨hlow, hhigh, hopen⟩ := h
  rcases Nat.lt_or_gt_of_ne hne with hlt | hlt
  · -- The other float is below this one, so that the numbers are turned round.
    obtain ⟨k, rfl⟩ : ∃ k, c = k + 1 := ⟨c - 1, by omega⟩
    have hstep := neg_lt_neg (magnitude_strictMono (Nat.lt_succ_self k))
    have hbeyond := neg_le_neg (magnitude_strictMono.monotone (Nat.le_of_lt_succ hlt))
    have hmiddle : -t ≤ (-magnitude (k + 1) + -magnitude k) / 2 := by
      have hbound := bound_succ_eq k
      linarith
    have hturn (c : Nat) : |-t - -magnitude c| = |t - magnitude c| := by
      rw [neg_sub_neg, abs_sub_comm]
    have hnear := nearer_of_le_middle hstep hbeyond hmiddle
    rw [hturn, hturn] at hnear
    refine hnear.imp_right fun ⟨heq, ht, hc⟩ => ⟨heq, ?_⟩
    obtain rfl := magnitude_strictMono.injective (neg_injective hc)
    have heven : (c' + 1) % 2 = 0 := by
      by_contra hodd
      have hstrict := (hopen hodd).1
      have hbound := bound_succ_eq c'
      linarith
    omega
  · have hstep := magnitude_strictMono (Nat.lt_succ_self c)
    have hbeyond : magnitude (c + 1) ≤ magnitude c' := magnitude_strictMono.monotone hlt
    have hnear := nearer_of_le_middle hstep hbeyond (bound_succ_eq c ▸ hhigh)
    refine hnear.imp_right fun ⟨heq, ht, hc⟩ => ⟨heq, ?_⟩
    obtain rfl := magnitude_strictMono.injective hc
    have heven : c % 2 = 0 := by
      by_contra hodd
      have hstrict := (hopen hodd).2
      rw [bound_succ_eq] at hstrict
      linarith
    omega

/-- A float on the other side of zero is at least as far as zero is, and so farther than the float of
the span, unless both are zero. -/
theorem Span.Owns.nearest_opposite (h : Owns c t) (c' : Nat) :
    |t - magnitude c| < t + magnitude c' ∨
      |t - magnitude c| = t + magnitude c' ∧ c = 0 ∧ c' = 0 := by
  rcases Nat.eq_zero_or_pos c with rfl | hpos
  · rw [magnitude_zero, sub_zero, abs_of_nonneg h.nonneg]
    rcases Nat.eq_zero_or_pos c' with rfl | hpos'
    · rw [magnitude_zero, add_zero]
      exact .inr ⟨rfl, rfl, rfl⟩
    · have hmagnitude := magnitude_strictMono hpos'
      rw [magnitude_zero] at hmagnitude
      exact .inl (lt_add_of_pos_right t hmagnitude)
  · have hnear := h.nearest hpos.ne
    rw [magnitude_zero, sub_zero, abs_of_nonneg h.nonneg] at hnear
    rcases hnear with hlt | ⟨_, _, hodd⟩
    · exact .inl (hlt.trans_le (le_add_of_nonneg_right (magnitude_nonneg c')))
    · cases hodd

/-- What a span holds is below the start of all later spans of even numbers. -/
theorem Span.Owns.lt_bound (h : Owns c t) (hlt : c < c') (heven : c' % 2 = 0) : t < bound c' := by
  rcases (Nat.succ_le_of_lt hlt).lt_or_eq with hbeyond | rfl
  · exact h.2.1.trans_lt (bound_strictMono hbeyond)
  · exact (h.2.2 (by omega)).2

/-- The span of the largest float ends in the middle to the next power of two. -/
theorem bound_last : bound (2047 * leadingBit) = 2 ^ 1024 - 2 ^ 970 := by
  have hbiased : 2047 * leadingBit / leadingBit = 2047 := rfl
  have hfraction : 2047 * leadingBit % leadingBit = 0 := rfl
  have hlow : 4 * mantissa 2047 0 - margin 2047 0 = 2 ^ 54 - 1 := rfl
  have hexponent : Span.exponent 2047 = 970 := rfl
  have hpower : (2 : ℚ) ^ 1024 = 2 ^ 54 * 2 ^ 970 := by rw [← pow_add]
  have hzpow : (2 : ℚ) ^ (970 : ℤ) = 2 ^ 970 := zpow_natCast 2 970
  rw [bound, ofNumber, hbiased, hfraction, scaled_low, hlow, hexponent, hzpow, hpower,
    ← sub_one_mul]
  norm_num

end Neighbours

/-! ### The numbers that texts of floats write -/

section Texts

variable {x y : Float}

theorem floatSignum_cases (x : Float) : floatSignum x = 1 ∨ floatSignum x = -1 := by
  unfold floatSignum
  split <;> simp

theorem floatSignum_of_ne (h : floatSignum y ≠ floatSignum x) :
    floatSignum y = -floatSignum x := by
  rcases floatSignum_cases x with hx | hx <;> rcases floatSignum_cases y with hy | hy
  · exact absurd (hy.trans hx.symm) h
  · rw [hx, hy]
  · rw [hx, hy, neg_neg]
  · exact absurd (hy.trans hx.symm) h

theorem abs_floatSignum_mul (x : Float) (t : ℚ) : |floatSignum x * t| = |t| := by
  rcases floatSignum_cases x with hx | hx <;> simp [hx]

/-- The text of a finite float writes its sign and a number that its span holds. -/
theorem exists_floatValue (hx : x.isFinite = true) :
    ∃ t, Owns (floatNumber x) t ∧ floatValue x = floatSignum x * t := by
  have hlt := (isFinite_iff x).1 hx
  obtain ⟨⟨d, rest, hd, hdigit⟩, howns⟩ := magnitudeText_finite hlt
  have hdefined : ¬ 2047 * leadingBit < floatNumber x := by
    rw [leadingBit_eq] at hlt ⊢
    omega
  refine ⟨_, howns, ?_⟩
  rw [floatValue, floatText_toList, floatSign, if_neg hdefined, floatSignum]
  split
  · rw [List.singleton_append, numeralValue_minus, neg_one_mul]
  · rw [List.nil_append, numeralValue_unsigned, one_mul]
    rw [hd]
    rintro _ ⟨⟩
    exact hdigit

/-- The text of a float writes a number that is nearer to this float than to all others, but for
those that are as near and have an odd number where this one has an even one. -/
theorem floatValue_nearest (hx : x.isFinite = true) (hy : y.isFinite = true) :
    |floatValue x - floatExact x| < |floatValue x - floatExact y| ∨
      |floatValue x - floatExact x| = |floatValue x - floatExact y| ∧
        (floatExact y = floatExact x ∨ floatNumber x % 2 = 0 ∧ floatNumber y % 2 = 1) := by
  obtain ⟨t, howns, hvalue⟩ := exists_floatValue hx
  rw [hvalue, floatExact_eq x hx, floatExact_eq y hy, ← mul_sub, abs_floatSignum_mul]
  by_cases hsign : floatSignum y = floatSignum x
  · rw [hsign, ← mul_sub, abs_floatSignum_mul]
    by_cases hnumber : floatNumber y = floatNumber x
    · exact .inr ⟨by rw [hnumber], .inl (by rw [hnumber])⟩
    · exact (howns.nearest hnumber).imp_right fun ⟨heq, hparity⟩ => ⟨heq, .inr hparity⟩
  · have hfar : |floatSignum x * t - floatSignum y * magnitude (floatNumber y)| =
        t + magnitude (floatNumber y) := by
      rw [floatSignum_of_ne hsign, neg_mul, sub_neg_eq_add, ← mul_add, abs_floatSignum_mul,
        abs_of_nonneg (add_nonneg howns.nonneg (magnitude_nonneg _))]
    rw [hfar]
    refine (howns.nearest_opposite (floatNumber y)).imp_right fun ⟨heq, hx, hy⟩ => ⟨heq, .inl ?_⟩
    rw [hx, hy, magnitude_zero, mul_zero, mul_zero]

theorem abs_floatValue_lt (hx : x.isFinite = true) : |floatValue x| < 2 ^ 1024 - 2 ^ 970 := by
  obtain ⟨t, howns, hvalue⟩ := exists_floatValue hx
  have hlt : floatNumber x < 2047 * leadingBit :=
    (Nat.div_lt_iff_lt_mul (by decide)).1 ((isFinite_iff x).1 hx)
  rw [hvalue, abs_floatSignum_mul, abs_of_nonneg howns.nonneg, ← bound_last]
  exact howns.lt_bound hlt (by decide)

theorem toBits_mod_two (x : Float) : x.toBits.toNat % 2 = floatNumber x % 2 := by
  rw [floatNumber]
  omega

/-- Floats that are the same number have the same bits but for the sign. -/
theorem floatNumber_eq_of_floatExact_eq (hx : x.isFinite = true) (hy : y.isFinite = true)
    (h : floatExact x = floatExact y) : floatNumber x = floatNumber y := by
  have habs := congrArg (fun q => |q|) h
  rw [floatExact_eq x hx, floatExact_eq y hy, abs_floatSignum_mul, abs_floatSignum_mul,
    abs_of_nonneg (magnitude_nonneg _), abs_of_nonneg (magnitude_nonneg _)] at habs
  exact magnitude_strictMono.injective habs

/-- The text of a finite float is rounded to this float, and to no other: two floats are the same
number only if they are equal or both zeros. -/
theorem roundsTo_floatValue_iff (hx : x.isFinite = true) :
    RoundsTo (floatValue x) y ↔ y.isFinite = true ∧ floatExact y = floatExact x := by
  constructor
  · intro h
    refine ⟨h.finite, ?_⟩
    have hother := h.nearest x hx
    rcases floatValue_nearest hx h.finite with hnear | ⟨heq, hsame | ⟨_, hodd⟩⟩
    · rcases hother with hlt | ⟨heq, _⟩
      · exact absurd hlt hnear.asymm
      · exact absurd heq hnear.ne'
    · exact hsame
    · rcases hother with hlt | ⟨_, hsame | heven⟩
      · exact absurd heq hlt.ne'
      · exact hsame.symm
      · rw [toBits_mod_two] at heven
        omega
  · rintro ⟨hy, hsame⟩
    refine ⟨hy, abs_floatValue_lt hx, fun z hz => ?_⟩
    rw [hsame, toBits_mod_two, floatNumber_eq_of_floatExact_eq hy hx hsame]
    exact (floatValue_nearest hx hz).imp_right fun ⟨heq, h⟩ => ⟨heq, h.imp_right And.left⟩

end Texts

end Decimal
end Criteria
