import Criteria.Decimal

/-!
# Shortest decimal text of a float

A finite float stands for all reals that round to it: an interval around its value,
which owns its two ends exactly when the float's mantissa is even.  Its text is the
decimal in that interval on the coarsest possible grid of powers of ten, and of two
such decimals the one nearer to the value.

All numbers are naturals counted in units of one power of ten, fine enough for the
float itself and for both ends to be whole.  So the search over ever finer grids ends
at the float's own value.
-/

namespace Criteria
namespace Decimal

/-- The reals that read back as one float, in units of `10 ^ -places`. -/
structure Span where
  places : Nat
  low : Nat
  value : Nat
  high : Nat
  closed : Bool

namespace Span

/-- The mantissa bit in front of the fraction, which the bits of a float leave out. -/
def leadingBit : Nat := 1 <<< 52

/-- The span of the float with the given biased exponent and fraction bits.  Lengths are
counted in quarters of the mantissa's last bit: the upper end is half a bit away, the
lower one too, or a quarter of a bit just above a power of two. -/
def ofBits (biased fraction : Nat) : Span :=
  let mantissa := if biased = 0 then fraction else fraction + leadingBit
  let exponent : Int := (if biased = 0 then 1 else biased) - 1077
  let places := (-exponent).toNat
  let unit := Nat.pow 2 exponent.toNat * Nat.pow 5 places
  let below := if fraction = 0 ∧ 1 < biased then 1 else 2
  { places := places
    low := (4 * mantissa - below) * unit
    value := 4 * mantissa * unit
    high := (4 * mantissa + 2) * unit
    closed := mantissa % 2 = 0 }

/-- Whether the real `n` reads back as the float of the span. -/
def holds (s : Span) (n : Nat) : Bool :=
  if s.closed then s.low ≤ n && n ≤ s.high else s.low < n && n < s.high

/-- The first decimal found on the grids of `10 ^ k` units and finer.  On each grid only the
two neighbours of the value matter; a tie between them goes up. -/
def shorten (s : Span) : Nat → Decimal
  | 0 => ⟨s.value, -(s.places : Int)⟩
  | k + 1 =>
      let grid := Nat.pow 10 (k + 1)
      let below := s.value / grid
      let exponent : Int := (k + 1 : Nat) - (s.places : Int)
      match s.holds (below * grid), s.holds ((below + 1) * grid) with
      | false, false => s.shorten k
      | true, false => ⟨below, exponent⟩
      | false, true => ⟨below + 1, exponent⟩
      | true, true => if 2 * (s.value % grid) < grid then ⟨below, exponent⟩ else ⟨below + 1, exponent⟩

/-- The shortest decimal in the span: no grid coarser than the upper end's leading digit
needs to be tried. -/
def shortest (s : Span) : Decimal :=
  s.shorten (Nat.toDigits 10 s.high).length

end Span

end Decimal

/-- The text of a float: the shortest decimal that reads back, in positional notation, with a
sign in front of all negative numbers, zero included. -/
def floatText (x : Float) : String :=
  let bits := x.toBits.toNat
  let sign := if bits >>> 63 = 1 then "-" else ""
  let biased := bits >>> 52 % 2048
  let fraction := bits % Decimal.Span.leadingBit
  if biased = 2047 then
    if fraction = 0 then sign ++ "inf" else "NaN"
  else if biased = 0 ∧ fraction = 0 then sign ++ "0"
  else sign ++ String.ofList (Decimal.Span.ofBits biased fraction).shortest.positional

end Criteria
