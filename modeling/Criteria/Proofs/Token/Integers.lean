import Criteria.Proofs.Token.Writable
import Mathlib.Data.Nat.Digits.Defs

/-!
# Integer literals

The integer that a sign and digits write, however many digits there are, and what a lexer makes of
such a literal: the integer, if 64 bits with sign hold it, and else an error that shows the literal
as it stands.  The text of an integer is its canonical literal.

**Results.**
* `Token.readSigned_append`: the value that is read is the one of the digits.
* `Token.isCanonical_toString`: an integer is shown by its canonical literal.
* `Lexer.next_of_integer`: a literal is read to its end, and gives its integer or an error.
-/

namespace Criteria
namespace Token

/-- The number that decimal digits write. -/
def digitsValue (digits : List Char) : Nat :=
  Nat.ofDigits 10 (digits.reverse.map fun c => c.toNat - '0'.toNat)

/-- The integer that an optional sign and decimal digits write. -/
def signedValue (sign digits : List Char) : Int :=
  if sign = ['-'] then -(digitsValue digits : Int) else digitsValue digits

/-- The characters are the canonical literal of `v`: a sign for negative integers only, and no zero
before other digits. -/
def IsCanonical (w : List Char) (v : Int) : Prop :=
  ∃ digits, w = (if v < 0 then ['-'] else []) ++ digits ∧ IsDigits digits ∧
    (digits.head? = some '0' → digits = ['0']) ∧ digitsValue digits = v.natAbs

/-- The integer lies in the range of 64 bits with sign. -/
def Fits (v : Int) : Prop :=
  -2 ^ 63 ≤ v ∧ v ≤ 2 ^ 63 - 1

instance : DecidablePred Fits := fun _ => inferInstanceAs (Decidable (_ ∧ _))

/-! ### Values -/

section Values

variable {sign digits : List Char}

theorem digitsValue_eq (digits : List Char) : digitsValue digits = Text.readDigits digits := by
  induction digits using List.reverseRecOn with
  | nil => rfl
  | append_singleton ds c ih =>
    rw [Text.readDigits, Nat.ofDigitChars_append, ← Text.readDigits, ← ih, Nat.ofDigitChars_cons,
      Nat.ofDigitChars_nil, digitsValue, List.reverse_append, List.reverse_singleton,
      List.singleton_append, List.map_cons, Nat.ofDigits_cons, Nat.add_comm]
    rfl

/-- The whole literal is read. -/
theorem readSigned_append (hsign : sign ∈ [[], ['+'], ['-']]) (hdigits : IsDigits digits) :
    Text.readSigned (sign ++ digits) = signedValue sign digits := by
  have hlength := Rule.signLength_append hsign hdigits []
  rw [List.append_nil] at hlength
  obtain ⟨c, tail, rfl, hc⟩ := Rule.IsDigits.exists_cons hdigits
  have htake : (c :: tail).takeWhile Char.isDigit = c :: tail :=
    List.takeWhile_eq_self_iff.2 hdigits.2
  have hne : c ≠ '-' := fun h => Rule.ne_sign_of_isDigit hc (.inr h)
  rw [Text.readSigned, hlength, List.drop_left, htake, signedValue, digitsValue_eq]
  simp only [List.mem_cons, List.not_mem_nil, or_false] at hsign
  rcases hsign with rfl | rfl | rfl <;> simp [hne]

/-- The digits of a positive number start with no zero. -/
theorem head?_toDigits {n : Nat} (hn : 0 < n) : (Nat.toDigits 10 n).head? ≠ some '0' := by
  induction n using Nat.strong_induction_on with
  | _ n ih =>
    by_cases hsmall : n < 10
    · rw [Nat.toDigits_of_lt_base hsmall]
      intro h
      have hvalue := congrArg Char.toNat (Option.some.inj h)
      rw [Nat.toNat_digitChar_of_lt_ten hsmall] at hvalue
      exact absurd hvalue (by show ¬ 48 + n = 48; omega)
    · -- The first digit is the one of `n / 10`.
      have hsplit := Nat.toDigits_append_toDigits (b := 10) (n := n / 10) (d := n % 10)
        (by decide) (by omega) (Nat.mod_lt _ (by decide))
      rw [Nat.div_add_mod] at hsplit
      obtain ⟨c, tail, hcons⟩ := List.exists_cons_of_ne_nil
        (Nat.toDigits_ne_nil : Nat.toDigits 10 (n / 10) ≠ [])
      have hhead := ih (n / 10) (by omega) (by omega)
      rw [hcons] at hsplit hhead
      rw [← hsplit]
      exact hhead

/-- An integer is shown by its canonical literal. -/
theorem isCanonical_toString (v : Int) : IsCanonical (toString v).toList v := by
  refine ⟨Nat.toDigits 10 v.natAbs, toString_int_toList v, ?_, fun hzero => ?_, ?_⟩
  · exact ⟨Nat.toDigits_ne_nil, isDigit_toDigits⟩
  · have habs : v.natAbs = 0 := by
      by_contra hne
      exact head?_toDigits (Nat.pos_of_ne_zero hne) hzero
    rw [habs]
    rfl
  · rw [digitsValue_eq, readDigits_toDigits]

end Values

/-! ### Classes of literals -/

section Classes

variable {sign digits : List Char}

theorem isInteger_append (hsign : sign ∈ [[], ['+'], ['-']]) (hdigits : IsDigits digits) :
    IsInteger (sign ++ digits) :=
  ⟨sign, digits, rfl, hsign, hdigits⟩

/-- A literal is an integer or out of range; it is no float and no text. -/
theorem classify_integer {w : List Char} (h : IsInteger w) (line : Nat) :
    classify w line = (Rule.readInteger w).elim
      (.error (.numberOutOfRange (String.ofList w) line)) fun n => .ok (.integer n) := by
  rw [classify, if_neg (not_isFloat_of_isInteger h), if_pos h]

theorem readInteger_of_fits (hsign : sign ∈ [[], ['+'], ['-']]) (hdigits : IsDigits digits)
    (hfits : Fits (signedValue sign digits)) :
    ∃ n : Int64, n.toInt = signedValue sign digits ∧
      Rule.readInteger (sign ++ digits) = some n := by
  refine ⟨Int64.ofInt (signedValue sign digits), ?_, ?_⟩
  · exact Int64.toInt_ofInt_of_le hfits.1 (by have := hfits.2; omega)
  · rw [Rule.readInteger, readSigned_append hsign hdigits]
    exact if_pos hfits

theorem readInteger_of_not_fits (hsign : sign ∈ [[], ['+'], ['-']]) (hdigits : IsDigits digits)
    (hfits : ¬ Fits (signedValue sign digits)) : Rule.readInteger (sign ++ digits) = none := by
  rw [Rule.readInteger, readSigned_append hsign hdigits]
  exact if_neg hfits

end Classes

end Token

namespace Lexer

open Token

variable {l : Lexer} {gap w rest : List Char}

/-- A run of plain characters behind blanks is read as a whole, on the line where it stands. -/
theorem next_of_run (hrest : l.rest = gap ++ (w ++ rest))
    (hgap : ∀ c ∈ gap, Text.isBlank c = true) (hw : IsBare w) (hstop : StopsRun rest) :
    l.next = ((classify w (l.line + gap.count '\n')).map
        fun token => some ⟨token, l.line + gap.count '\n'⟩,
      ⟨rest, l.line + (gap ++ w).count '\n'⟩) := by
  obtain ⟨c, tail, rfl⟩ := List.exists_cons_of_ne_nil hw.1
  have hc := Rule.isBlank_of_isBareChar (hw.2 c List.mem_cons_self)
  exact next_of_read hrest hgap ⟨c, tail, rfl, hc⟩ (read_run hw hstop _)

/-- A literal is read to its end: as the integer, or as a number out of range. -/
theorem next_of_integer (hrest : l.rest = gap ++ (w ++ rest))
    (hgap : ∀ c ∈ gap, Text.isBlank c = true) (hw : IsInteger w) (hstop : StopsRun rest) :
    l.next = ((Rule.readInteger w).elim
        (.error (.numberOutOfRange (String.ofList w) (l.line + gap.count '\n')))
        fun n => .ok (some ⟨.integer n, l.line + gap.count '\n'⟩),
      ⟨rest, l.line + gap.count '\n'⟩) := by
  have hform : Rule.integer.Form w := hw
  have hbare := Rule.isBare_of_form hform
  rw [next_of_run hrest hgap hbare hstop, classify_integer hw, List.count_append,
    Rule.count_lineFeed hbare]
  cases Rule.readInteger w <;> rfl

end Lexer
end Criteria
