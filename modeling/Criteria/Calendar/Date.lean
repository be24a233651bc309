/-!
# Calendar dates

Days of the Gregorian calendar, extended backwards without end; year zero exists and is a
leap year.
-/

namespace Criteria
namespace Calendar

/-- A year, a month and a day, which need not exist. -/
structure Date where
  year : Int
  month : Nat
  day : Nat
deriving DecidableEq, Repr

/-- Leap years are the multiples of four, but among the multiples of a hundred only those of
four hundred. -/
def isLeap (year : Int) : Bool :=
  year % 4 = 0 && (year % 100 != 0 || year % 400 = 0)

/-- The number of days of a month; zero if there is no such month. -/
def daysIn (year : Int) (month : Nat) : Nat :=
  match month with
  | 2 => if isLeap year then 29 else 28
  | 4 | 6 | 9 | 11 => 30
  | 1 | 3 | 5 | 7 | 8 | 10 | 12 => 31
  | _ => 0

/-- Whether the day is in the calendar. -/
def Date.isValid (d : Date) : Bool :=
  1 ≤ d.day && d.day ≤ daysIn d.year d.month

end Calendar
end Criteria
