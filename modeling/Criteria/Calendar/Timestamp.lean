import Criteria.Calendar.Date
import Criteria.Text.Blank
import Criteria.Text.Digits

/-!
# Written dates and times

A text counts as a point in time when one of four forms reads all of it:

* `offsetDateTime`: fixed widths, a time, and an offset from universal time;
* `localDateTime`: a date and a time joined by `T`, with blanks between the parts;
* `spacedDateTime`: a date and a time joined by blanks;
* `localDate`: a date with blanks between its parts.

Every form reads a date that exists in the calendar, and answers it.
-/

namespace Criteria
namespace Calendar

/-- Reads from the start of a text: what was read and the text behind it, or nothing. -/
abbrev Reader := StateT (List Char) Option

namespace Reader

/-- Skips blanks, if there are any. -/
def blanks : Reader Unit := fun cs =>
  some ((), cs.dropWhile Text.isBlank)

/-- Reads one of the given characters. -/
def oneOf (marks : List Char) : Reader Char
  | [] => none
  | c :: rest => if marks.contains c then some (c, rest) else none

/-- Reads the longest run of digits, which must not be empty. -/
def digits : Reader Nat := fun cs =>
  let run := cs.takeWhile Char.isDigit
  if run.isEmpty then none else some (Text.readDigits run, cs.dropWhile Char.isDigit)

/-- Reads at least `least` and at most `most` digits, as many as there are. -/
def digitsBetween (least most : Nat) : Reader Nat := fun cs =>
  let run := (cs.take most).takeWhile Char.isDigit
  if run.length < least then none else some (Text.readDigits run, cs.drop run.length)

/-- Reads blanks and then a number of one or two digits. -/
def number : Reader Nat := do
  blanks
  digitsBetween 1 2

/-- Fails if `bound` is exceeded. -/
def atMost (bound n : Nat) : Reader Unit :=
  if n ≤ bound then pure () else failure

/-- Reads the fraction of a second, a point and digits, if there is one. -/
def fraction : Reader Unit := fun cs =>
  if cs.head? = some '.' then (digits (cs.drop 1)).map fun r => ((), r.2) else some ((), cs)

/-- Goes on with a date only if it exists. -/
def existing (year : Int) (month day : Nat) : Reader Date :=
  let date : Date := ⟨year, month, day⟩
  if date.isValid then pure date else failure

/-- Reads a year: up to four digits, or a sign and any number of digits.  Years are limited to
about a quarter of a million on both sides. -/
def year : Reader Int := do
  blanks
  let cs ← get
  let n : Int ←
    if cs.head? = some '-' then do
      set (cs.drop 1)
      let n ← digits
      pure (-(n : Int))
    else if cs.head? = some '+' then do
      set (cs.drop 1)
      let n ← digits
      pure (n : Int)
    else do
      let n ← digitsBetween 1 4
      pure (n : Int)
  if -262143 ≤ n ∧ n ≤ 262142 then pure n else failure

/-- Reads a date whose hyphens may have a gap before them. -/
def date (gap : Reader Unit) : Reader Date := do
  let y ← year
  gap
  let _ ← oneOf ['-']
  let m ← number
  gap
  let _ ← oneOf ['-']
  let d ← number
  existing y m d

/-- Reads a time whose colons may have a gap before them.  A minute may have a sixty-first
second. -/
def time (gap : Reader Unit) : Reader Unit := do
  let h ← number
  atMost 23 h
  gap
  let _ ← oneOf [':']
  let m ← number
  atMost 59 m
  gap
  let _ ← oneOf [':']
  let s ← number
  atMost 60 s
  fraction

/-- Reads an offset from universal time: `Z`, or a sign with hours and minutes. -/
def offset : Reader Unit := do
  let mark ← oneOf ['Z', 'z', '+', '-', '−']
  if mark = 'Z' ∨ mark = 'z' then pure ()
  else do
    let h ← digitsBetween 2 2
    atMost 23 h
    let _ ← oneOf [':']
    let m ← digitsBetween 2 2
    atMost 59 m

/-- A date, a time and an offset, with fixed widths and without blanks. -/
def offsetDateTime : Reader Date := do
  let y ← digitsBetween 4 4
  let _ ← oneOf ['-']
  let m ← digitsBetween 2 2
  let _ ← oneOf ['-']
  let d ← digitsBetween 2 2
  let day ← existing y m d
  let _ ← oneOf ['T', 't', ' ']
  let h ← digitsBetween 2 2
  atMost 23 h
  let _ ← oneOf [':']
  let minute ← digitsBetween 2 2
  atMost 59 minute
  let _ ← oneOf [':']
  let s ← digitsBetween 2 2
  atMost 60 s
  fraction
  offset
  pure day

/-- A date and a time joined by `T`. -/
def localDateTime : Reader Date := do
  let day ← date blanks
  blanks
  let _ ← oneOf ['T']
  time blanks
  blanks
  pure day

/-- A date and a time joined by blanks, which may be missing. -/
def spacedDateTime : Reader Date := do
  let day ← date (pure ())
  blanks
  time (pure ())
  pure day

/-- A date alone. -/
def localDate : Reader Date := do
  let day ← date blanks
  blanks
  pure day

end Reader

/-- The accepted forms. -/
def forms : List (Reader Date) :=
  [Reader.offsetDateTime, Reader.localDateTime, Reader.spacedDateTime, Reader.localDate]

/-- The date of a text that one of the forms reads completely. -/
def dateOf (text : String) : Option Date :=
  forms.findSome? fun form =>
    match form.run text.toList with
    | some (date, []) => some date
    | _ => none

/-- Whether a text is a date, or a date with a time. -/
def isTimestamp (text : String) : Bool :=
  (dateOf text).isSome

end Calendar
end Criteria
