import Criteria.Proofs.Decimal.Spans

/-!
# The texts of floats

Different floats have different texts: the sign of a text is the sign of the float, and its digits
write a number that lies in the span of no other float.

**Results.**
* `floatText_injective`: different floats have different texts.
-/

namespace Criteria
namespace Decimal

open Decimal.Span

/-- The text of the float with the given number. -/
def magnitudeText (c : Nat) : List Char :=
  if c / leadingBit = 2047 then
    if c % leadingBit = 0 then ['i', 'n', 'f'] else ['N', 'a', 'N']
  else if c = 0 then ['0']
  else (ofNumber c).shortest.positional

/-- The number of a float in the order of bits, without its sign. -/
def floatNumber (x : Float) : Nat :=
  x.toBits.toNat % 9223372036854775808

/-- The sign of a float, as its text shows it: none for the undefined one. -/
def floatSign (x : Float) : List Char :=
  if 2047 * leadingBit < floatNumber x then []
  else if 9223372036854775808 ≤ x.toBits.toNat then ['-'] else []

theorem floatText_toList (x : Float) :
    (floatText x).toList = floatSign x ++ magnitudeText (floatNumber x) := by
  have hlt : x.toBits.toNat < 18446744073709551616 := x.toBits.toNat_lt
  have hbiased : x.toBits.toNat >>> 52 % 2048 = floatNumber x / leadingBit := by
    rw [floatNumber, leadingBit_eq, Nat.shiftRight_eq_div_pow]
    omega
  have hfraction : x.toBits.toNat % leadingBit = floatNumber x % leadingBit := by
    rw [floatNumber, leadingBit_eq]
    omega
  have hsign : x.toBits.toNat >>> 63 = 1 ↔ 9223372036854775808 ≤ x.toBits.toNat := by
    rw [Nat.shiftRight_eq_div_pow]
    omega
  have hnumber : floatNumber x < 9223372036854775808 := Nat.mod_lt _ (by norm_num)
  have hzero : floatNumber x / leadingBit = 0 ∧ floatNumber x % leadingBit = 0 ↔
      floatNumber x = 0 := by
    rw [leadingBit_eq]
    omega
  simp only [floatText, hbiased, hfraction, hsign, hzero, magnitudeText, floatSign]
  by_cases hlast : floatNumber x / leadingBit = 2047
  · by_cases hinf : floatNumber x % leadingBit = 0
    · have hdefined : ¬ 2047 * leadingBit < floatNumber x := by
        rw [leadingBit_eq] at hlast hinf ⊢
        omega
      rw [if_pos hlast, if_pos hinf, if_neg hdefined, if_pos hlast, if_pos hinf]
      split <;> rfl
    · have hundefined : 2047 * leadingBit < floatNumber x := by
        rw [leadingBit_eq] at hlast hinf ⊢
        omega
      rw [if_pos hlast, if_neg hinf, if_pos hundefined, if_pos hlast, if_neg hinf]
      rfl
  · have hdefined : ¬ 2047 * leadingBit < floatNumber x := by
      rw [leadingBit_eq] at hlast ⊢
      omega
    rw [if_neg hlast, if_neg hdefined, if_neg hlast]
    by_cases h0 : floatNumber x = 0
    · rw [if_pos h0, if_pos h0]
      split <;> rfl
    · rw [if_neg h0, if_neg h0]
      split <;> simp [ofNumber]

/-- Floats with the same bits are equal. -/
theorem float_ext {x y : Float} (h : x.toBits.toNat = y.toBits.toNat) : x = y := by
  obtain ⟨⟨bits, hx⟩⟩ := x
  obtain ⟨⟨bits', hy⟩⟩ := y
  obtain rfl : bits = bits' := UInt64.toNat_inj.1 h
  rfl

/-- There is one undefined float. -/
theorem toBits_undefined {x : Float} (h : 2047 * leadingBit < floatNumber x) :
    x.toBits.toNat = 2047 * leadingBit + 2251799813685248 := by
  have hvalid := x.toModel.valid.eq_packedNaN
  have hlt : x.toBits.toNat < 18446744073709551616 := x.toBits.toNat_lt
  rw [floatNumber, leadingBit_eq] at h
  have hbits : x.toBits.toBitVec = Float.Model.UnpackedFloat.packedNaN .binary64 := by
    refine hvalid ?_ ?_
    · refine BitVec.eq_of_toNat_eq ?_
      rw [Float.Model.UnpackedFloat.unpackExponent, BitVec.toNat_cast, BitVec.extractLsb_toNat]
      show x.toBits.toNat >>> 52 % 2048 = 2047
      rw [Nat.shiftRight_eq_div_pow]
      omega
    · intro hfraction
      have hzero := congrArg BitVec.toNat hfraction
      rw [Float.Model.UnpackedFloat.unpackMantissa, BitVec.toNat_cast,
        BitVec.extractLsb_toNat] at hzero
      change x.toBits.toNat % 4503599627370496 = 0 at hzero
      omega
  have := congrArg BitVec.toNat hbits
  exact this

/-! ### Reading the text of a float -/

theorem exists_positional (d : Decimal) :
    ∃ c rest, d.positional = c :: rest ∧ c.isDigit = true := by
  obtain ⟨whole, fraction, hne, hwhole, _, htext, _⟩ := d.positional_parts
  obtain ⟨c, rest, rfl⟩ := List.exists_cons_of_ne_nil hne
  have hc := hwhole c List.mem_cons_self
  rcases htext with ⟨htext, _⟩ | htext
  · exact ⟨c, rest, htext, hc⟩
  · exact ⟨c, rest ++ '.' :: fraction, htext, hc⟩

theorem owns_zero : Owns 0 (ofText ['0']).value := by
  have hvalue : (ofText ['0']).value = 0 := by
    rw [ofText_whole (by simp)]
    simp [value, Text.readDigits, Nat.ofDigitChars]
  have hlt := bound_lt_succ 0
  rw [bound_zero] at hlt
  rw [hvalue, Owns, bound_zero]
  exact ⟨le_refl _, hlt.le, fun hodd => absurd rfl hodd⟩

/-- The text of a finite float starts with a digit, and writes a number of its span. -/
theorem magnitudeText_finite {c : Nat} (hc : c / leadingBit < 2047) :
    (∃ d rest, magnitudeText c = d :: rest ∧ d.isDigit = true) ∧
      Owns c (ofText (magnitudeText c)).value := by
  rw [magnitudeText, if_neg (Nat.ne_of_lt hc)]
  split
  · next h0 =>
    subst h0
    exact ⟨⟨'0', [], rfl, rfl⟩, owns_zero⟩
  · refine ⟨exists_positional _, ?_⟩
    rw [value_ofText_positional]
    exact owns_shortest c

/-- A magnitude never looks like a sign. -/
theorem head?_magnitudeText (c : Nat) (hc : c / leadingBit < 2048) :
    (magnitudeText c).head? ≠ some '-' := by
  by_cases hlast : c / leadingBit = 2047
  · rw [magnitudeText, if_pos hlast]
    split <;> simp
  · obtain ⟨⟨d, rest, hd, hdigit⟩, _⟩ := magnitudeText_finite (c := c) (by omega)
    rw [hd]
    rintro ⟨⟩
    cases hdigit

/-- Two numbers of floats with one text are equal, or both are those of the undefined float. -/
theorem magnitudeText_eq {c c' : Nat} (hc : c / leadingBit < 2048) (hc' : c' / leadingBit < 2048)
    (h : magnitudeText c = magnitudeText c') :
    c = c' ∨ 2047 * leadingBit < c ∧ 2047 * leadingBit < c' := by
  have hmixed {c c' : Nat} (hc : c / leadingBit < 2047) (hc' : c' / leadingBit = 2047) :
      magnitudeText c ≠ magnitudeText c' := by
    obtain ⟨⟨d, rest, hd, hdigit⟩, _⟩ := magnitudeText_finite hc
    rw [hd, magnitudeText, if_pos hc']
    split
    all_goals
      rintro ⟨⟩
      cases hdigit
  by_cases hlast : c / leadingBit = 2047
  · by_cases hlast' : c' / leadingBit = 2047
    · rw [magnitudeText, magnitudeText, if_pos hlast, if_pos hlast'] at h
      rw [leadingBit_eq] at hlast hlast' h ⊢
      split at h
      · split at h
        · left
          omega
        · simp at h
      · split at h
        · simp at h
        · right
          omega
    · exact absurd h.symm (hmixed (by omega) hlast)
  · by_cases hlast' : c' / leadingBit = 2047
    · exact absurd h (hmixed (by omega) hlast')
    · have howns := (magnitudeText_finite (c := c) (by omega)).2
      rw [h] at howns
      exact .inl (owns_unique howns (magnitudeText_finite (by omega)).2)

theorem floatNumber_div_lt (x : Float) : floatNumber x / leadingBit < 2048 := by
  have : floatNumber x < 9223372036854775808 := Nat.mod_lt _ (by norm_num)
  rw [leadingBit_eq]
  omega

theorem floatSign_cases (x : Float) : floatSign x = [] ∨ floatSign x = ['-'] := by
  unfold floatSign
  split_ifs <;> simp

/-- The text of a float shows its sign and its magnitude. -/
theorem floatText_parts {x y : Float} (h : floatText x = floatText y) :
    floatSign x = floatSign y ∧
      magnitudeText (floatNumber x) = magnitudeText (floatNumber y) := by
  have htext : floatSign x ++ magnitudeText (floatNumber x) =
      floatSign y ++ magnitudeText (floatNumber y) := by
    rw [← floatText_toList, ← floatText_toList, h]
  have hhead (x : Float) (rest : List Char) : magnitudeText (floatNumber x) ≠ '-' :: rest := by
    intro heq
    exact head?_magnitudeText _ (floatNumber_div_lt x) (by rw [heq]; rfl)
  rcases floatSign_cases x with hx | hx <;> rcases floatSign_cases y with hy | hy
  · rw [hx, hy] at htext ⊢
    exact ⟨rfl, htext⟩
  · rw [hx, hy] at htext
    exact absurd htext (hhead x _)
  · rw [hx, hy] at htext
    exact absurd htext.symm (hhead y _)
  · rw [hx, hy] at htext ⊢
    exact ⟨rfl, (List.cons.inj htext).2⟩

/-- Different floats have different texts. -/
theorem floatText_injective {x y : Float} (h : floatText x = floatText y) : x = y := by
  obtain ⟨hsign, hmagnitude⟩ := floatText_parts h
  -- The number and the sign make up the bits, but for the undefined float, which is only one.
  rcases magnitudeText_eq (floatNumber_div_lt x) (floatNumber_div_lt y) hmagnitude with
    hnumber | ⟨hx, hy⟩
  · by_cases hundefined : 2047 * leadingBit < floatNumber x
    · exact float_ext ((toBits_undefined hundefined).trans
        (toBits_undefined (hnumber ▸ hundefined)).symm)
    · rw [floatSign, floatSign, ← hnumber, if_neg hundefined, if_neg hundefined] at hsign
      refine float_ext ?_
      have hx : x.toBits.toNat < 18446744073709551616 := x.toBits.toNat_lt
      have hy : y.toBits.toNat < 18446744073709551616 := y.toBits.toNat_lt
      rw [floatNumber, floatNumber] at hnumber
      split at hsign <;> split at hsign
      · omega
      · cases hsign
      · cases hsign
      · omega
  · exact float_ext ((toBits_undefined hx).trans (toBits_undefined hy).symm)

end Decimal
end Criteria
