/-!
# Signs and digits

Decimal digits are the ten ASCII ones.  The functions measure and read a run of
them, with or without a sign, at the start of a list of characters.
-/

namespace Criteria
namespace Text

/-- The length of the sign, one of `+` and `-`, that `cs` starts with. -/
def signLength : List Char → Nat
  | [] => 0
  | c :: _ => if c = '+' ∨ c = '-' then 1 else 0

/-- The length of the longest run of digits that `cs` starts with. -/
def digitsLength (cs : List Char) : Nat :=
  (cs.takeWhile Char.isDigit).length

/-- The number that a run of digits writes; zero for the empty run. -/
def readDigits (digits : List Char) : Nat :=
  Nat.ofDigitChars 10 digits 0

/-- The integer that an optional sign and a run of digits write. -/
def readSigned (cs : List Char) : Int :=
  let magnitude := readDigits ((cs.drop (signLength cs)).takeWhile Char.isDigit)
  if cs.head? = some '-' then -(magnitude : Int) else magnitude

theorem signLength_le (cs : List Char) : signLength cs ≤ cs.length := by
  fun_cases signLength cs <;> simp

theorem digitsLength_le (cs : List Char) : digitsLength cs ≤ cs.length :=
  (List.takeWhile_prefix _).length_le

end Text
end Criteria
