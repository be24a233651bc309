import Criteria.Json
import Criteria.Text.Digits

/-!
# JSON numbers

A number is a sign, digits without a needless zero in front, and perhaps a fraction and an
exponent.  A number that is just digits is an integer if it fits 64 bits.  All others are floats:
the leading digits, as many as fit 64 bits, are scaled by one power of ten in floating-point
arithmetic.  A number beyond the largest float is malformed.
-/

namespace Criteria
namespace Json
namespace Number

/-- Appends digits to a number while the result fits 64 bits; also gives the digits that did not
fit. -/
def extend (n : Nat) : List Char → Nat × List Char
  | [] => (n, [])
  | c :: rest =>
      let next := Nat.ofDigitChars 10 [c] n
      if next < UInt64.size then extend next rest else (n, c :: rest)

/-- Divides by a power of ten, in steps that have a power of ten among the floats. -/
def scaleDown (x : Float) (power : Nat) : Float :=
  if power ≤ 308 then x / Float.ofScientific 1 false power
  else if x == 0 then x
  else scaleDown (x / Float.ofScientific 1 false 308) (power - 308)
termination_by power
decreasing_by omega

/-- The float `significand * 10 ^ power`, unless it is too large. -/
def scale (significand : Nat) (power : Int) : Option Float :=
  let x := significand.toFloat
  match power with
  | .negSucc n => some (scaleDown x (n + 1))
  | .ofNat n =>
      if significand = 0 then some x
      else if 308 < n then none
      else
        let y := x * Float.ofScientific 1 false n
        if y.isFinite then some y else none

/-- The integer with a given sign and magnitude, if it is one of 64 bits; there is no negative
zero among the integers. -/
def integer? (negative : Bool) (magnitude : Nat) : Option Int :=
  if negative then
    if 0 < magnitude ∧ 2 * magnitude ≤ UInt64.size then some (-(magnitude : Int)) else none
  else some magnitude

/-- The number with the given digits.  The exponent is missing in a number that has none. -/
def ofParts (negative : Bool) (whole fraction : List Char) (exponent : Option Int) :
    Except Fault Json :=
  let (head, unread) := extend 0 whole
  let (significand, ignored) := extend head fraction
  let power := (unread.length : Int) - (fraction.length - ignored.length) + exponent.getD 0
  let float := match scale significand power with
    | some x => .ok (.fraction (if negative then -x else x))
    | none => .error .malformed
  if unread.isEmpty ∧ fraction.isEmpty ∧ exponent.isNone then
    match integer? negative significand with
    | some n => .ok (.integer n)
    | none => float
  else float

/-- The fault where a digit is missing. -/
def missingDigit (rest : List Char) : Fault :=
  if rest.isEmpty then .endOfText else .malformed

/-- Splits the exponent off the start of `cs`, if there is one. -/
def exponent (cs : List Char) : Except Fault (Option Int × List Char) :=
  match cs with
  | [] => .ok (none, [])
  | c :: rest =>
      if c = 'e' ∨ c = 'E' then
        let tail := rest.drop (Text.signLength rest)
        let digits := Text.digitsLength tail
        if digits = 0 then .error (missingDigit tail)
        else .ok (some (Text.readSigned rest), tail.drop digits)
      else .ok (none, cs)

/-- Splits the digits behind a point off the start of `cs`, if there is a point. -/
def fraction (cs : List Char) : Except Fault (List Char × List Char) :=
  match cs with
  | [] => .ok ([], [])
  | c :: rest =>
      if c = '.' then
        let digits := Text.digitsLength rest
        if digits = 0 then .error (missingDigit rest)
        else .ok (rest.take digits, rest.drop digits)
      else .ok ([], cs)

/-- Reads the number at the start of `cs`, whose sign has been read; also gives the text behind
it. -/
def readUnsigned (negative : Bool) (cs : List Char) : Except Fault (Json × List Char) :=
  let whole := cs.takeWhile Char.isDigit
  if whole.isEmpty then .error (missingDigit cs)
  else if whole.head? = some '0' ∧ 1 < whole.length then .error .malformed
  else do
    let (digits, tail) ← fraction (cs.dropWhile Char.isDigit)
    let (power, tail) ← exponent tail
    let number ← ofParts negative whole digits power
    pure (number, tail)

/-- Reads the number at the start of `cs`; also gives the text behind it. -/
def read (cs : List Char) : Except Fault (Json × List Char) :=
  if cs.head? = some '-' then readUnsigned true (cs.drop 1) else readUnsigned false cs

theorem exponent_length_le {cs rest : List Char} {power : Option Int}
    (h : exponent cs = .ok (power, rest)) : rest.length ≤ cs.length := by
  unfold exponent at h
  split at h
  · cases h; exact Nat.le_refl _
  · simp only at h
    split at h
    · split at h
      · cases h
      · cases h
        simp only [List.length_drop, List.length_cons]
        omega
    · cases h; exact Nat.le_refl _

theorem fraction_length_le {cs digits rest : List Char}
    (h : fraction cs = .ok (digits, rest)) : rest.length ≤ cs.length := by
  unfold fraction at h
  split at h
  · cases h; exact Nat.le_refl _
  · simp only at h
    split at h
    · split at h
      · cases h
      · cases h
        simp only [List.length_drop, List.length_cons]
        omega
    · cases h; exact Nat.le_refl _

theorem readUnsigned_length_lt {negative : Bool} {cs rest : List Char} {number : Json}
    (h : readUnsigned negative cs = .ok (number, rest)) : rest.length < cs.length := by
  have hsplit := congrArg List.length
    (List.takeWhile_append_dropWhile (p := Char.isDigit) (l := cs))
  rw [List.length_append] at hsplit
  simp only [readUnsigned] at h
  split at h
  · cases h
  · next hw =>
    have hpos : 0 < (cs.takeWhile Char.isDigit).length :=
      List.length_pos_iff.2 fun e => hw (by rw [e]; rfl)
    split at h
    · cases h
    · simp only [bind, Except.bind] at h
      split at h
      · cases h
      · next hf =>
        have hlf := fraction_length_le hf
        split at h
        · cases h
        · next he =>
          have hle := exponent_length_le he
          split at h
          · cases h
          · cases h
            omega

/-- A number takes at least one character. -/
theorem read_length_lt {cs rest : List Char} {number : Json}
    (h : read cs = .ok (number, rest)) : rest.length < cs.length := by
  unfold read at h
  split at h
  · have := readUnsigned_length_lt h
    simp only [List.length_drop] at this
    omega
  · exact readUnsigned_length_lt h

end Number
end Json
end Criteria
