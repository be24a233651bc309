import Criteria.Calendar.Date
import Criteria.Proofs.Token.Integers

/-!
# Naming a day

What it means that a text begins with a day: with a year, a month and a day of the month, in digits
and with hyphens between them.  Blanks may stand before each number and before each hyphen.

**Results.**
* `Calendar.Date.isValid_iff`: the days of the calendar.
* `Calendar.Spelling.WellFormed.inert`: a written day has characters of a few kinds only.
* `Calendar.Names.unique`: a text begins with one day at most.
-/

namespace Criteria
namespace Calendar

open Token

/-! ### The calendar -/

/-- Every fourth year is a leap year; of the full centuries only every fourth is. -/
def LeapYear (year : Int) : Prop :=
  4 ∣ year ∧ (100 ∣ year → 400 ∣ year)

/-- The day exists in the calendar. -/
def Date.Exists (d : Date) : Prop :=
  1 ≤ d.day ∧
    (d.month ∈ [1, 3, 5, 7, 8, 10, 12] ∧ d.day ≤ 31 ∨
      d.month ∈ [4, 6, 9, 11] ∧ d.day ≤ 30 ∨
      d.month = 2 ∧ (d.day ≤ 28 ∨ d.day = 29 ∧ LeapYear d.year))

theorem isLeap_iff (year : Int) : isLeap year = true ↔ LeapYear year := by
  simp only [isLeap, LeapYear, Bool.and_eq_true, Bool.or_eq_true, bne_iff_ne, decide_eq_true_eq,
    Int.dvd_iff_emod_eq_zero]
  omega

theorem Date.isValid_iff (d : Date) : d.isValid = true ↔ d.Exists := by
  obtain ⟨year, month, day⟩ := d
  simp only [Date.isValid, Date.Exists, Bool.and_eq_true, decide_eq_true_eq, ← isLeap_iff]
  refine and_congr_right fun hday => ?_
  unfold daysIn
  split
  case h_1 =>
    cases isLeap year with
    | false => simp
    | true => simp; omega
  case h_13 => simp_all; omega
  all_goals simp

/-! ### Spellings -/

/-- The characters of written days and times: digits, marks and blanks. -/
def IsDateChar (c : Char) : Prop :=
  c.isDigit = true ∨ c ∈ ['+', '-', '−', ':', '.', 'T', 't', 'Z', 'z'] ∨ Text.isBlank c = true

/-- Nothing but blanks. -/
def IsGap (w : List Char) : Prop :=
  ∀ c ∈ w, Text.isBlank c = true

/-- A year, a month and a day of the month as a text shows them, and what stands around them. -/
structure Spelling where
  beforeYear : List Char
  sign : List Char
  year : List Char
  behindYear : List Char
  beforeMonth : List Char
  month : List Char
  behindMonth : List Char
  beforeDay : List Char
  day : List Char

namespace Spelling

/-- All characters, from left to right. -/
def chars (s : Spelling) : List Char :=
  s.beforeYear ++ (s.sign ++ (s.year ++ (s.behindYear ++ '-' :: (s.beforeMonth ++ (s.month ++
    (s.behindMonth ++ '-' :: (s.beforeDay ++ s.day)))))))

/-- The day that the digits write. -/
def date (s : Spelling) : Date :=
  ⟨signedValue s.sign s.year, digitsValue s.month, digitsValue s.day⟩

/-- The parts are what they are to be.  A year of more than four digits has a sign. -/
structure WellFormed (s : Spelling) : Prop where
  beforeYear : IsGap s.beforeYear
  sign : s.sign ∈ [[], ['+'], ['-']]
  year : IsDigits s.year
  year_le : s.sign = [] → s.year.length ≤ 4
  behindYear : IsGap s.behindYear
  beforeMonth : IsGap s.beforeMonth
  month : IsDigits s.month
  month_le : s.month.length ≤ 2
  behindMonth : IsGap s.behindMonth
  beforeDay : IsGap s.beforeDay
  day : IsDigits s.day
  day_le : s.day.length ≤ 2

end Spelling

/-- The text does not go on with a digit. -/
def StopsDigits (rest : List Char) : Prop :=
  ∀ c, rest.head? = some c → c.isDigit = false

/-- The text begins with the day.  Of the digits at its end two are taken if there are two. -/
def Names (text : List Char) (date : Date) : Prop :=
  ∃ (s : Spelling) (rest : List Char), s.WellFormed ∧ text = s.chars ++ rest ∧ s.date = date ∧
    (s.day.length < 2 → StopsDigits rest)

/-! ### Characters -/

section Characters

variable {c : Char} {w : List Char}

theorem isBlank_of_isDigit (h : c.isDigit = true) : Text.isBlank c = false :=
  Rule.isBlank_of_isBareChar (Rule.isBareChar_of_isDigit h)

theorem isDateChar_of_isDigits (h : ∀ c ∈ w, c.isDigit = true) : ∀ c ∈ w, IsDateChar c :=
  fun c hc => .inl (h c hc)

theorem isDateChar_of_mem_marks (h : c ∈ ['+', '-', '−', ':', '.', 'T', 't', 'Z', 'z']) :
    IsDateChar c :=
  .inr (.inl h)

theorem IsGap.inert (h : IsGap w) : ∀ c ∈ w, IsDateChar c :=
  fun c hc => .inr (.inr (h c hc))

/-- A quote is none of them. -/
theorem IsDateChar.ne_quote (h : IsDateChar c) : c ≠ '\'' := by
  rintro rfl
  rcases h with h | h | h
  · cases h
  · simp at h
  · cases h

theorem isDateChar_of_sign (hsign : w ∈ [[], ['+'], ['-']]) : ∀ c ∈ w, IsDateChar c := by
  simp only [List.mem_cons, List.not_mem_nil, or_false] at hsign
  rcases hsign with rfl | rfl | rfl <;> simp [IsDateChar]

theorem Spelling.WellFormed.inert {s : Spelling} (h : s.WellFormed) :
    ∀ c ∈ s.chars, IsDateChar c := by
  have hhyphen : IsDateChar '-' := isDateChar_of_mem_marks (by simp)
  simp only [Spelling.chars, List.forall_mem_append, List.forall_mem_cons]
  exact ⟨h.beforeYear.inert, isDateChar_of_sign h.sign, isDateChar_of_isDigits h.year.2,
    h.behindYear.inert, hhyphen, h.beforeMonth.inert, isDateChar_of_isDigits h.month.2,
    h.behindMonth.inert, hhyphen, h.beforeDay.inert, isDateChar_of_isDigits h.day.2⟩

end Characters

/-! ### One day at most

Two readings of one text agree part by part, from left to right, since no part can go on where the
other reading has ended it. -/

section Unique

variable {u v u' v' gap gap' digits digits' sign sign' : List Char}

/-- A run that cannot go on is the same in both readings. -/
theorem run_unique {p : Char → Bool} (h : u ++ v = u' ++ v') (hu : ∀ c ∈ u, p c = true)
    (hu' : ∀ c ∈ u', p c = true) (hv : ∀ c, v.head? = some c → p c = false)
    (hv' : ∀ c, v'.head? = some c → p c = false) : u = u' ∧ v = v' := by
  have hruns := congrArg (List.takeWhile p) h
  rw [takeWhile_append_stop hu hv, takeWhile_append_stop hu' hv'] at hruns
  subst hruns
  exact ⟨rfl, List.append_cancel_left h⟩

theorem head?_digits (h : IsDigits digits) {c : Char} (hc : (digits ++ v).head? = some c) :
    c.isDigit = true := by
  obtain ⟨first, tail, rfl, hfirst⟩ := Rule.IsDigits.exists_cons h
  cases hc
  exact hfirst

theorem head?_signed (hsign : sign ∈ [[], ['+'], ['-']]) (hdigits : IsDigits digits) {c : Char}
    (hc : (sign ++ (digits ++ v)).head? = some c) : Text.isBlank c = false := by
  simp only [List.mem_cons, List.not_mem_nil, or_false] at hsign
  rcases hsign with rfl | rfl | rfl
  · exact isBlank_of_isDigit (head?_digits hdigits hc)
  · cases hc; rfl
  · cases hc; rfl

theorem stopsDigits_hyphen (hgap : IsGap gap) : StopsDigits (gap ++ '-' :: v) := by
  intro c hc
  cases gap with
  | nil => cases hc; rfl
  | cons first gap =>
    obtain rfl : first = c := Option.some.inj hc
    cases hdigit : first.isDigit with
    | false => rfl
    | true =>
      have hblank := hgap first List.mem_cons_self
      rw [isBlank_of_isDigit hdigit] at hblank
      cases hblank

theorem gap_unique (h : gap ++ (digits ++ v) = gap' ++ (digits' ++ v')) (hgap : IsGap gap)
    (hgap' : IsGap gap') (hdigits : IsDigits digits) (hdigits' : IsDigits digits') :
    digits ++ v = digits' ++ v' :=
  (run_unique h hgap hgap' (fun _ hc => isBlank_of_isDigit (head?_digits hdigits hc))
    fun _ hc => isBlank_of_isDigit (head?_digits hdigits' hc)).2

theorem hyphen_unique (h : gap ++ '-' :: v = gap' ++ '-' :: v') (hgap : IsGap gap)
    (hgap' : IsGap gap') : v = v' := by
  have hhead (w : List Char) : ∀ c, ('-' :: w).head? = some c → Text.isBlank c = false := by
    rintro c ⟨⟩
    rfl
  exact (List.cons.inj (run_unique h hgap hgap' (hhead v) (hhead v')).2).2

theorem sign_unique (h : sign ++ (digits ++ v) = sign' ++ (digits' ++ v'))
    (hsign : sign ∈ [[], ['+'], ['-']]) (hsign' : sign' ∈ [[], ['+'], ['-']])
    (hdigits : IsDigits digits) (hdigits' : IsDigits digits') :
    sign = sign' ∧ digits ++ v = digits' ++ v' := by
  have hchars {w : List Char} (hw : w ∈ [[], ['+'], ['-']]) :
      ∀ c ∈ w, decide (c = '+' ∨ c = '-') = true := by
    simp only [List.mem_cons, List.not_mem_nil, or_false] at hw
    rcases hw with rfl | rfl | rfl <;> simp
  have hhead {ds w : List Char} (hds : IsDigits ds) :
      ∀ c, (ds ++ w).head? = some c → decide (c = '+' ∨ c = '-') = false := fun c hc =>
    decide_eq_false (Rule.ne_sign_of_isDigit (head?_digits hds hc))
  exact run_unique h (hchars hsign) (hchars hsign') (hhead hdigits) (hhead hdigits')

/-- The digits of one reading are no more than those of the other if these are taken as long as
they may. -/
theorem length_day_le (h : u ++ v = u' ++ v') (hu' : ∀ c ∈ u', c.isDigit = true)
    (hle : u'.length ≤ 2) (hstop : u.length < 2 → StopsDigits v) : u'.length ≤ u.length := by
  by_contra hlt
  have hlt : u.length < u'.length := Nat.lt_of_not_le hlt
  have hrest : v = u'.drop u.length ++ v' := by
    rw [← List.drop_append_of_le_length (Nat.le_of_lt hlt), ← h, List.drop_left]
  have hhead : v.head? = some u'[u.length] := by
    rw [hrest, List.drop_eq_getElem_cons hlt]
    rfl
  have hdigit := hstop (by omega) _ hhead
  rw [hu' _ (List.getElem_mem hlt)] at hdigit
  cases hdigit

/-- **A text begins with one day at most.** -/
theorem Names.unique {text : List Char} {date date' : Date} (h : Names text date)
    (h' : Names text date') : date = date' := by
  obtain ⟨s, rest, hs, rfl, rfl, hstop⟩ := h
  obtain ⟨s', rest', hs', heq, rfl, hstop'⟩ := h'
  simp only [Spelling.chars, List.append_assoc, List.cons_append] at heq
  obtain ⟨-, hsigned⟩ := run_unique heq hs.beforeYear hs'.beforeYear
    (fun _ => head?_signed hs.sign hs.year) fun _ => head?_signed hs'.sign hs'.year
  obtain ⟨hsign, hyears⟩ := sign_unique hsigned hs.sign hs'.sign hs.year hs'.year
  obtain ⟨hyear, hbehindYear⟩ := run_unique hyears hs.year.2 hs'.year.2
    (stopsDigits_hyphen hs.behindYear) (stopsDigits_hyphen hs'.behindYear)
  have hmonths := gap_unique (hyphen_unique hbehindYear hs.behindYear hs'.behindYear)
    hs.beforeMonth hs'.beforeMonth hs.month hs'.month
  obtain ⟨hmonth, hbehindMonth⟩ := run_unique hmonths hs.month.2 hs'.month.2
    (stopsDigits_hyphen hs.behindMonth) (stopsDigits_hyphen hs'.behindMonth)
  have hdays := gap_unique (hyphen_unique hbehindMonth hs.behindMonth hs'.behindMonth)
    hs.beforeDay hs'.beforeDay hs.day hs'.day
  have hday : s.day = s'.day := by
    refine (List.append_inj hdays (Nat.le_antisymm ?_ ?_)).1
    · exact length_day_le hdays.symm hs.day.2 hs.day_le hstop'
    · exact length_day_le hdays hs'.day.2 hs'.day_le hstop
  rw [Spelling.date, Spelling.date, hsign, hyear, hmonth, hday]

end Unique

end Calendar
end Criteria
