import Criteria.Text.Digits

/-!
# Decimal numbers

A decimal number is a natural coefficient times a power of ten.  It is read from
the text of a literal and written in positional notation; `toFloat` rounds it to
the nearest floating-point number.
-/

namespace Criteria

/-- The number `coefficient * 10 ^ exponent`. -/
structure Decimal where
  coefficient : Nat
  exponent : Int
deriving DecidableEq, Repr

namespace Decimal

/-- The digits of `d` in positional notation: no exponent, no point in a whole number, and
a digit before each point. -/
def positional (d : Decimal) : List Char :=
  let digits := Nat.toDigits 10 d.coefficient
  match d.exponent with
  | .ofNat zeros => digits ++ List.replicate zeros '0'
  | .negSucc n =>
      let padded := List.replicate (n + 2 - digits.length) '0' ++ digits
      let whole := padded.length - (n + 1)
      padded.take whole ++ '.' :: padded.drop whole

/-- Rounds `d` to the nearest float, a tie to the even neighbour; a number beyond the
largest float becomes infinite. -/
def toFloat (d : Decimal) : Float :=
  match d.exponent with
  | .ofNat n => Float.ofScientific d.coefficient false n
  | .negSucc n => Float.ofScientific d.coefficient true (n + 1)

/-- Reads digits, an optional point with digits, and an optional exponent. -/
def ofText (text : List Char) : Decimal :=
  let whole := text.takeWhile Char.isDigit
  let tail := text.dropWhile Char.isDigit
  let fraction := if tail.head? = some '.' then (tail.drop 1).takeWhile Char.isDigit else []
  let power := (tail.dropWhile fun c => c = '.' || c.isDigit).drop 1
  ⟨Text.readDigits (whole ++ fraction), Text.readSigned power - fraction.length⟩

end Decimal

/-- The float that a literal writes: an optional sign before the decimal number. -/
def floatOfText (text : List Char) : Float :=
  let magnitude := (Decimal.ofText (text.drop (Text.signLength text))).toFloat
  if text.head? = some '-' then -magnitude else magnitude

end Criteria
