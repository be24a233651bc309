import Criteria.Decimal
import Mathlib.Algebra.Order.Field.Rat
import Mathlib.Data.List.TakeWhile
import Mathlib.Tactic.Positivity
import Mathlib.Tactic.Ring

/-!
# The numbers that numerals write

Decimals and numerals as rational numbers, and what is read off a printed number.

**Results.**
* `Decimal.positional_parts`: what a decimal in positional notation is made of.
* `Decimal.value_ofText_positional`: reading a decimal in positional notation gives its value.
* `numeralValue_integer`: reading an integer gives the integer.
-/

namespace Criteria

/-- The rational number that a decimal is. -/
def Decimal.value (d : Decimal) : ℚ :=
  d.coefficient * 10 ^ d.exponent

/-- The rational number that a numeral writes: an optional sign before a decimal. -/
def numeralValue (text : List Char) : ℚ :=
  let magnitude := (Decimal.ofText (text.drop (Text.signLength text))).value
  if text.head? = some '-' then -magnitude else magnitude

section Digits

theorem takeWhile_isDigit_append {ds : List Char} (rest : List Char)
    (hds : ∀ c ∈ ds, c.isDigit = true)
    (hrest : ∀ c, rest.head? = some c → c.isDigit = false) :
    (ds ++ rest).takeWhile Char.isDigit = ds ∧ (ds ++ rest).dropWhile Char.isDigit = rest := by
  have htake : rest.takeWhile Char.isDigit = [] := by
    cases rest with
    | nil => rfl
    | cons c rest => simp [hrest c rfl]
  have hdrop : rest.dropWhile Char.isDigit = rest := by
    cases rest with
    | nil => rfl
    | cons c rest => simp [hrest c rfl]
  rw [List.takeWhile_append_of_pos hds, List.dropWhile_append_of_pos hds, htake, hdrop]
  exact ⟨List.append_nil _, rfl⟩

theorem isDigit_toDigits {n : Nat} : ∀ c ∈ Nat.toDigits 10 n, c.isDigit = true :=
  fun _ hc => Nat.isDigit_of_mem_toDigits (by decide) (by decide) hc

theorem isDigit_zeros {k : Nat} : ∀ c ∈ List.replicate k '0', c.isDigit = true := by
  intro c hc
  rw [List.eq_of_mem_replicate hc]
  rfl

theorem readDigits_toDigits (n : Nat) : Text.readDigits (Nat.toDigits 10 n) = n :=
  Nat.ofDigitChars_ten_toDigits

theorem readDigits_append_zeros (ds : List Char) (k : Nat) :
    Text.readDigits (ds ++ List.replicate k '0') = Text.readDigits ds * 10 ^ k := by
  rw [Text.readDigits, Nat.ofDigitChars_append, Nat.ofDigitChars_replicate_zero, Nat.mul_comm]
  rfl

theorem readDigits_zeros_append (ds : List Char) (k : Nat) :
    Text.readDigits (List.replicate k '0' ++ ds) = Text.readDigits ds := by
  rw [Text.readDigits, Nat.ofDigitChars_append, Nat.ofDigitChars_replicate_zero, Nat.mul_zero]
  rfl

end Digits

namespace Decimal

theorem ofText_whole {ds : List Char} (hds : ∀ c ∈ ds, c.isDigit = true) :
    ofText ds = ⟨Text.readDigits ds, 0⟩ := by
  have hsplit := takeWhile_isDigit_append [] hds (by simp)
  rw [List.append_nil] at hsplit
  simp [ofText, hsplit.1, hsplit.2, Text.readSigned, Text.readDigits]

theorem ofText_point {ds fs : List Char} (hds : ∀ c ∈ ds, c.isDigit = true)
    (hfs : ∀ c ∈ fs, c.isDigit = true) :
    ofText (ds ++ '.' :: fs) = ⟨Text.readDigits (ds ++ fs), -(fs.length : Int)⟩ := by
  have hsplit := takeWhile_isDigit_append ('.' :: fs) hds (by simp)
  have hfraction : fs.takeWhile Char.isDigit = fs := List.takeWhile_eq_self_iff.2 hfs
  have hpower : fs.dropWhile (fun c => c = '.' || c.isDigit) = [] := by
    rw [List.dropWhile_eq_nil_iff]
    intro c hc
    simp [hfs c hc]
  simp [ofText, hsplit.1, hsplit.2, hfraction, hpower, Text.readSigned, Text.readDigits]

/-- A decimal with places has digits on both sides of the point. -/
theorem positional_point (coefficient n : Nat) :
    ∃ whole fraction : List Char, whole ≠ [] ∧ (∀ c ∈ whole, c.isDigit = true) ∧
      (∀ c ∈ fraction, c.isDigit = true) ∧ fraction.length = n + 1 ∧
      positional ⟨coefficient, .negSucc n⟩ = whole ++ '.' :: fraction ∧
      Text.readDigits (whole ++ fraction) = coefficient := by
  -- Zeros in front make sure that a digit is left before the point.
  generalize hk : n + 2 - (Nat.toDigits 10 coefficient).length = k
  generalize hpadded : List.replicate k '0' ++ Nat.toDigits 10 coefficient = padded
  have hdigits : ∀ c ∈ padded, c.isDigit = true :=
    hpadded ▸ List.forall_mem_append.2 ⟨isDigit_zeros, isDigit_toDigits⟩
  have hlength : n + 2 ≤ padded.length := by
    rw [← hpadded, List.length_append, List.length_replicate]
    omega
  refine ⟨padded.take (padded.length - (n + 1)), padded.drop (padded.length - (n + 1)),
    ?_, ?_, ?_, ?_, ?_, ?_⟩
  · intro hnil
    have := congrArg List.length hnil
    rw [List.length_take, List.length_nil] at this
    omega
  · exact fun c hc => hdigits c (List.mem_of_mem_take hc)
  · exact fun c hc => hdigits c (List.mem_of_mem_drop hc)
  · rw [List.length_drop]
    omega
  · rw [← hpadded, ← hk]
    rfl
  · rw [List.take_append_drop, ← hpadded, readDigits_zeros_append, readDigits_toDigits]

/-- A decimal in positional notation is digits, perhaps with a point and digits behind them, that
write its value. -/
theorem positional_parts (d : Decimal) :
    ∃ whole fraction : List Char, whole ≠ [] ∧ (∀ c ∈ whole, c.isDigit = true) ∧
      (∀ c ∈ fraction, c.isDigit = true) ∧
      (d.positional = whole ∧ fraction = [] ∨ d.positional = whole ++ '.' :: fraction) ∧
      d.value = Text.readDigits (whole ++ fraction) * 10 ^ (-(fraction.length : ℤ)) := by
  obtain ⟨coefficient, exponent⟩ := d
  cases exponent with
  | ofNat zeros =>
    have hdigits : ∀ c ∈ Nat.toDigits 10 coefficient ++ List.replicate zeros '0',
        c.isDigit = true := List.forall_mem_append.2 ⟨isDigit_toDigits, isDigit_zeros⟩
    refine ⟨_, [], ?_, hdigits, by simp, .inl ⟨rfl, rfl⟩, ?_⟩
    · exact List.append_ne_nil_of_left_ne_nil Nat.toDigits_ne_nil _
    · rw [List.append_nil, readDigits_append_zeros, readDigits_toDigits]
      simp [value]
  | negSucc n =>
    obtain ⟨whole, fraction, hne, hwhole, hfraction, hlength, htext, hread⟩ :=
      positional_point coefficient n
    refine ⟨whole, fraction, hne, hwhole, hfraction, .inr htext, ?_⟩
    rw [hread, hlength]
    rfl

/-- Reading a decimal in positional notation gives its value. -/
theorem value_ofText_positional (d : Decimal) : (ofText d.positional).value = d.value := by
  obtain ⟨whole, fraction, _, hwhole, hfraction, htext | htext, hvalue⟩ := d.positional_parts
  · obtain ⟨htext, rfl⟩ := htext
    rw [htext, ofText_whole hwhole, hvalue, List.append_nil]
    rfl
  · rw [htext, ofText_point hwhole hfraction, hvalue]
    rfl

end Decimal

/-- A sign in front of digits is read as the sign of the number. -/
theorem numeralValue_minus (text : List Char) :
    numeralValue ('-' :: text) = -(Decimal.ofText text).value := by
  simp [numeralValue, Text.signLength]

theorem numeralValue_unsigned {text : List Char} (h : ∀ c, text.head? = some c → c.isDigit = true) :
    numeralValue text = (Decimal.ofText text).value := by
  cases text with
  | nil => rfl
  | cons c rest =>
    have hc := h c rfl
    have hplus : c ≠ '+' := by
      rintro rfl
      cases hc
    have hminus : c ≠ '-' := by
      rintro rfl
      cases hc
    simp [numeralValue, Text.signLength, hplus, hminus]

/-- An integer is printed with a sign if it is negative. -/
theorem toString_int_toList (n : Int) :
    (toString n).toList = (if n < 0 then ['-'] else []) ++ Nat.toDigits 10 n.natAbs := by
  rw [Int.toString_eq_repr, Int.repr_eq_if]
  by_cases h : 0 ≤ n
  · have habs : n.toNat = n.natAbs := by omega
    rw [if_pos h, if_neg (by omega), Nat.toList_repr, habs, List.nil_append]
  · have habs : (-n).toNat = n.natAbs := by omega
    rw [if_neg h, if_pos (by omega), String.toList_append, Nat.toList_repr, habs]
    rfl

/-- An integer is read back from its text. -/
theorem readSigned_toString (n : Int) : Text.readSigned (toString n).toList = n := by
  obtain ⟨c, rest, hds⟩ := List.exists_cons_of_ne_nil
    (Nat.toDigits_ne_nil : Nat.toDigits 10 n.natAbs ≠ [])
  have hdigits : ∀ d ∈ c :: rest, d.isDigit = true := hds ▸ isDigit_toDigits
  have htake : (c :: rest).takeWhile Char.isDigit = c :: rest :=
    List.takeWhile_eq_self_iff.2 hdigits
  have hread : Text.readDigits (c :: rest) = n.natAbs := by rw [← hds, readDigits_toDigits]
  have hne {s : Char} (hs : s.isDigit = false) : c ≠ s := by
    rintro rfl
    rw [hdigits c List.mem_cons_self] at hs
    cases hs
  have hplus := hne (show '+'.isDigit = false from rfl)
  have hminus := hne (show '-'.isDigit = false from rfl)
  rw [toString_int_toList, hds]
  split
  · simp only [Text.readSigned, Text.signLength, List.singleton_append, or_true, if_true,
      List.drop_succ_cons, List.drop_zero, List.head?_cons, htake, hread]
    omega
  · simp only [Text.readSigned, Text.signLength, List.nil_append, hplus, hminus, or_false, if_false,
      List.drop_zero, List.head?_cons, Option.some.injEq, htake, hread]
    omega

/-- Reading an integer gives the integer. -/
theorem numeralValue_integer (n : Int) : numeralValue (toString n).toList = n := by
  have hnat (m : Nat) : (Decimal.ofText (Nat.toDigits 10 m)).value = m := by
    rw [Decimal.ofText_whole isDigit_toDigits, readDigits_toDigits]
    simp [Decimal.value]
  rw [toString_int_toList]
  split
  · next h =>
    have habs : (n.natAbs : Int) = -n := by omega
    rw [List.singleton_append, numeralValue_minus, hnat, ← Int.cast_natCast, habs, Int.cast_neg,
      neg_neg]
  · next h =>
    have habs : (n.natAbs : Int) = n := by omega
    rw [List.nil_append, numeralValue_unsigned, hnat]
    · rw [← Int.cast_natCast, habs]
    · exact fun c hc => isDigit_toDigits c (List.mem_of_mem_head? hc)

/-- Integers with one text are equal. -/
theorem toString_int_injective {m n : Int} (h : toString m = toString n) : m = n := by
  have hvalue := numeralValue_integer m
  rw [h, numeralValue_integer n] at hvalue
  exact_mod_cast hvalue.symm

end Criteria
