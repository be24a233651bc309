import Criteria.Calendar.Timestamp
import Criteria.Proofs.Calendar.Naming

/-!
# What the readers of dates take

A reader takes some characters off the start of a text.  What the small readers take is said of each
of them, and of readers that are put together it follows.  The readers of whole forms take nothing
but characters of written days and times, and begin with a day of the calendar.

**Results.**
* `Calendar.Reader.date_takes`: a date is taken as it is spelled.
* `Calendar.Reader.dated_of_mem_forms`: each form begins with a day and takes inert characters.
* `Calendar.names_of_dateOf`: so does a text that counts as a point in time.
-/

namespace Criteria
namespace Calendar

open Token

namespace Reader

variable {α β : Type} {cs rest : List Char}

/-- Whatever the reader takes, its answer, the characters taken and the text behind them are as
`post` says. -/
def Takes (r : Reader α) (post : α → List Char → List Char → Prop) : Prop :=
  ∀ cs a rest, r cs = some (a, rest) → ∃ used, cs = used ++ rest ∧ post a used rest

/-- The reader takes characters of written days and times only, and answers as `answers` says. -/
def Inert (r : Reader α) (answers : α → Prop) : Prop :=
  r.Takes fun a used _ => answers a ∧ ∀ c ∈ used, IsDateChar c

/-! ### Putting readers together -/

theorem bind_eq_some {r : Reader α} {f : α → Reader β} {b : β} :
    (r >>= f) cs = some (b, rest) ↔ ∃ a mid, r cs = some (a, mid) ∧ f a mid = some (b, rest) := by
  simp [bind, StateT.bind, Option.bind_eq_some_iff]

/-- A check takes nothing. -/
theorem eq_of_checked {P : Prop} [Decidable P] {a b : α}
    (h : (if P then pure a else failure : Reader α) cs = some (b, rest)) :
    P ∧ b = a ∧ rest = cs := by
  split at h
  · next hP => cases h; exact ⟨hP, rfl, rfl⟩
  · cases h

theorem inert_pure {answers : α → Prop} {a : α} (h : answers a) :
    Inert (pure a : Reader α) answers := by
  rintro cs _ _ ⟨⟩
  exact ⟨[], rfl, h, List.forall_mem_nil _⟩

theorem Inert.bind {r : Reader α} {f : α → Reader β} {P : α → Prop} {Q : β → Prop}
    (hr : r.Inert P) (hf : ∀ a, P a → (f a).Inert Q) : (r >>= f).Inert Q := by
  intro cs b rest h
  obtain ⟨a, mid, hfirst, hsecond⟩ := bind_eq_some.1 h
  obtain ⟨used, rfl, ha, hused⟩ := hr _ _ _ hfirst
  obtain ⟨used', rfl, hb, hused'⟩ := hf a ha _ _ _ hsecond
  exact ⟨used ++ used', (List.append_assoc ..).symm, hb, List.forall_mem_append.2 ⟨hused, hused'⟩⟩

theorem Takes.inert {r : Reader α} {post : α → List Char → List Char → Prop} (h : r.Takes post)
    (himp : ∀ a used rest, post a used rest → ∀ c ∈ used, IsDateChar c) :
    r.Inert fun _ => True := by
  intro cs a rest hr
  obtain ⟨used, hcs, hpost⟩ := h _ _ _ hr
  exact ⟨used, hcs, trivial, himp _ _ _ hpost⟩

/-! ### Small readers -/

theorem blanks_takes : blanks.Takes fun _ used _ => IsGap used := by
  rintro cs _ _ ⟨⟩
  exact ⟨_, List.takeWhile_append_dropWhile.symm, fun c hc => List.mem_takeWhile_imp hc⟩

theorem noGap_takes : (pure () : Reader Unit).Takes fun _ used _ => IsGap used := by
  rintro cs _ _ ⟨⟩
  exact ⟨[], rfl, List.forall_mem_nil _⟩

theorem oneOf_takes (marks : List Char) :
    (oneOf marks).Takes fun c used _ => used = [c] ∧ c ∈ marks := by
  intro cs c rest h
  cases cs with
  | nil => cases h
  | cons first tail =>
    rw [oneOf] at h
    split at h
    · next hmem =>
      cases h
      exact ⟨[c], rfl, rfl, List.contains_iff_mem.1 hmem⟩
    · cases h

/-- A run of at most `most` characters ends where there are as many, or where it cannot go on. -/
theorem exists_run_take (p : Char → Bool) (most : Nat) (cs : List Char) :
    ∃ run rest, (cs.take most).takeWhile p = run ∧ cs = run ++ rest ∧ run.length ≤ most ∧
      (run.length < most → ∀ c, rest.head? = some c → p c = false) := by
  have hlength : ((cs.take most).takeWhile p).length ≤ (cs.take most).length :=
    (List.takeWhile_prefix p).length_le
  rw [List.length_take] at hlength
  refine ⟨_, (cs.take most).dropWhile p ++ cs.drop most, rfl, ?_, by omega, fun hlt c hc => ?_⟩
  · rw [← List.append_assoc, List.takeWhile_append_dropWhile, List.take_append_drop]
  · have hsplit := congrArg List.length
      (List.takeWhile_append_dropWhile (p := p) (l := cs.take most))
    cases htail : (cs.take most).dropWhile p with
    | cons first tail =>
      have hfirst : ((cs.take most).dropWhile p).head? = some c := by
        rw [htail] at hc ⊢
        exact hc
      exact head?_dropWhile_eq hfirst
    | nil =>
      rw [htail, List.append_nil, List.length_take] at hsplit
      rw [htail, List.drop_eq_nil_of_le (by omega)] at hc
      cases hc

/-- As many digits as there are, up to `most`. -/
theorem digitsBetween_takes {least most : Nat} (hpos : 0 < least) :
    (digitsBetween least most).Takes fun n used rest =>
      IsDigits used ∧ least ≤ used.length ∧ used.length ≤ most ∧
        (used.length < most → StopsDigits rest) ∧ digitsValue used = n := by
  intro cs n rest h
  obtain ⟨run, tail, hrun, hcs, hmost, hstop⟩ := exists_run_take Char.isDigit most cs
  rw [digitsBetween, hrun] at h
  split at h
  · cases h
  · next hleast =>
    cases h
    have hleast : least ≤ run.length := Nat.le_of_not_lt hleast
    have hdigits : IsDigits run := by
      refine ⟨List.length_pos_iff.1 (Nat.lt_of_lt_of_le hpos hleast), fun c hc => ?_⟩
      rw [← hrun] at hc
      exact List.mem_takeWhile_imp hc
    have htail : cs.drop run.length = tail := by rw [hcs, List.drop_left]
    exact ⟨run, by rw [htail, hcs], hdigits, hleast, hmost, htail ▸ hstop, digitsValue_eq run⟩

/-- All digits at the start of a text. -/
theorem digits_takes : digits.Takes fun n used _ => IsDigits used ∧ digitsValue used = n := by
  intro cs n rest h
  simp only [digits] at h
  split at h
  · cases h
  · next hne =>
    cases h
    refine ⟨_, List.takeWhile_append_dropWhile.symm, ⟨?_, ?_⟩, digitsValue_eq _⟩
    · exact fun hnil => hne (List.isEmpty_iff.2 hnil)
    · exact fun c hc => List.mem_takeWhile_imp hc

/-- Blanks, and one or two digits. -/
theorem number_takes :
    number.Takes fun n used rest => ∃ gap digits, used = gap ++ digits ∧ IsGap gap ∧
      IsDigits digits ∧ digits.length ≤ 2 ∧ (digits.length < 2 → StopsDigits rest) ∧
        digitsValue digits = n := by
  intro cs n rest h
  obtain ⟨_, mid, hblanks, hdigits⟩ := bind_eq_some.1 h
  obtain ⟨gap, rfl, hgap⟩ := blanks_takes _ _ _ hblanks
  obtain ⟨digits, rfl, hall, -, hle, hstop, hvalue⟩ := digitsBetween_takes (by decide) _ _ _ hdigits
  exact ⟨_, (List.append_assoc ..).symm, gap, digits, rfl, hgap, hall, hle, hstop, hvalue⟩

/-- A sign, which is there already, and all digits behind it. -/
theorem signed_takes {c : Char} {f : Nat → Int} {P : Int → Prop} [DecidablePred P] {y : Int}
    (hhead : cs.head? = some c)
    (h : (set (cs.drop 1) >>= fun _ => digits >>= fun n => pure (f n) >>= fun n =>
      if P n then pure n else failure : Reader Int) cs = some (y, rest)) :
    ∃ digits, cs = [c] ++ digits ++ rest ∧ IsDigits digits ∧ f (digitsValue digits) = y := by
  obtain ⟨_, _, hset, h⟩ := bind_eq_some.1 h
  cases hset
  obtain ⟨n, _, hdigits, h⟩ := bind_eq_some.1 h
  obtain ⟨digits, hcs, hall, rfl⟩ := digits_takes _ _ _ hdigits
  obtain ⟨-, rfl, rfl⟩ := eq_of_checked h
  refine ⟨digits, ?_, hall, rfl⟩
  cases cs with
  | nil => cases hhead
  | cons first tail =>
    cases hhead
    exact congrArg (c :: ·) hcs

/-- Blanks, a sign if there is one, and digits, of which there are at most four without a sign. -/
theorem year_takes :
    year.Takes fun y used _ => ∃ gap sign digits, used = gap ++ (sign ++ digits) ∧ IsGap gap ∧
      sign ∈ [[], ['+'], ['-']] ∧ IsDigits digits ∧ (sign = [] → digits.length ≤ 4) ∧
        signedValue sign digits = y := by
  intro cs y rest hread
  obtain ⟨_, mid, hblanks, h⟩ := bind_eq_some.1 hread
  obtain ⟨gap, rfl, hgap⟩ := blanks_takes _ _ _ hblanks
  suffices hsigned : ∃ sign digits, mid = sign ++ digits ++ rest ∧ sign ∈ [[], ['+'], ['-']] ∧
      IsDigits digits ∧ (sign = [] → digits.length ≤ 4) ∧ signedValue sign digits = y by
    obtain ⟨sign, digits, hmid, hsign⟩ := hsigned
    exact ⟨_, by simp [hmid], gap, sign, digits, rfl, hgap, hsign⟩
  obtain ⟨start, same, hget, h⟩ := bind_eq_some.1 h
  obtain ⟨rfl, rfl⟩ : mid = start ∧ mid = same := Prod.mk.inj (Option.some.inj hget)
  split at h
  · next hminus =>
    obtain ⟨digits, hmid, hall, rfl⟩ := signed_takes hminus h
    exact ⟨['-'], digits, hmid, by simp, hall, nofun, rfl⟩
  · split at h
    · next hplus =>
      obtain ⟨digits, hmid, hall, rfl⟩ := signed_takes (f := Int.ofNat) hplus h
      exact ⟨['+'], digits, hmid, by simp, hall, nofun, rfl⟩
    · obtain ⟨n, _, hdigits, h⟩ := bind_eq_some.1 h
      obtain ⟨digits, rfl, hall, -, hle, -, rfl⟩ := digitsBetween_takes (by decide) _ _ _ hdigits
      obtain ⟨-, rfl, rfl⟩ := eq_of_checked h
      exact ⟨[], digits, rfl, by simp, hall, fun _ => hle, rfl⟩

/-! ### Dates -/

/-- A date is taken as it is spelled, and exists. -/
theorem date_takes {gap : Reader Unit} (hgap : gap.Takes fun _ used _ => IsGap used) :
    (date gap).Takes fun d used rest => d.isValid = true ∧ ∃ s : Spelling, s.WellFormed ∧
      used = s.chars ∧ s.date = d ∧ (s.day.length < 2 → StopsDigits rest) := by
  intro cs d rest h
  obtain ⟨y, _, hyear, h⟩ := bind_eq_some.1 h
  obtain ⟨_, _, hbehindYear, h⟩ := bind_eq_some.1 h
  obtain ⟨_, _, hhyphen, h⟩ := bind_eq_some.1 h
  obtain ⟨m, _, hmonth, h⟩ := bind_eq_some.1 h
  obtain ⟨_, _, hbehindMonth, h⟩ := bind_eq_some.1 h
  obtain ⟨_, _, hhyphen', h⟩ := bind_eq_some.1 h
  obtain ⟨n, _, hday, h⟩ := bind_eq_some.1 h
  obtain ⟨hvalid, rfl, rfl⟩ := eq_of_checked h
  obtain ⟨_, rfl, beforeYear, sign, year, rfl, hgap₁, hsign, hyears, hyear_le, rfl⟩ :=
    year_takes _ _ _ hyear
  obtain ⟨behindYear, rfl, hgap₂⟩ := hgap _ _ _ hbehindYear
  obtain ⟨_, rfl, rfl, hc⟩ := oneOf_takes _ _ _ _ hhyphen
  obtain ⟨_, rfl, beforeMonth, month, rfl, hgap₃, hmonths, hmonth_le, -, rfl⟩ :=
    number_takes _ _ _ hmonth
  obtain ⟨behindMonth, rfl, hgap₄⟩ := hgap _ _ _ hbehindMonth
  obtain ⟨_, rfl, rfl, hc'⟩ := oneOf_takes _ _ _ _ hhyphen'
  obtain ⟨_, rfl, beforeDay, day, rfl, hgap₅, hdays, hday_le, hstop, rfl⟩ :=
    number_takes _ _ _ hday
  obtain rfl := List.mem_singleton.1 hc
  obtain rfl := List.mem_singleton.1 hc'
  refine ⟨_, ?_, hvalid, ⟨beforeYear, sign, year, behindYear, beforeMonth, month, behindMonth,
    beforeDay, day⟩, ⟨hgap₁, hsign, hyears, hyear_le, hgap₂, hgap₃, hmonths, hmonth_le, hgap₄,
      hgap₅, hdays, hday_le⟩, rfl, rfl, hstop⟩
  simp [Spelling.chars]

/-! ### Times -/

section Inert

theorem inert_atMost (bound n : Nat) : (atMost bound n).Inert fun _ => True := by
  intro cs _ rest h
  obtain ⟨-, -, rfl⟩ := eq_of_checked h
  exact ⟨[], rfl, trivial, List.forall_mem_nil _⟩

theorem inert_gap {gap : Reader Unit} (h : gap.Takes fun _ used _ => IsGap used) :
    gap.Inert fun _ => True :=
  h.inert fun _ _ _ hgap => hgap.inert

theorem inert_oneOf {marks : List Char} (h : ∀ c ∈ marks, IsDateChar c) :
    (oneOf marks).Inert fun _ => True := by
  refine (oneOf_takes marks).inert fun c used _ hc => ?_
  rw [hc.1]
  exact List.forall_mem_singleton.2 (h c hc.2)

theorem inert_digitsBetween {least most : Nat} (hpos : 0 < least) :
    (digitsBetween least most).Inert fun _ => True :=
  (digitsBetween_takes hpos).inert fun _ _ _ h => isDateChar_of_isDigits h.1.2

theorem inert_number : number.Inert fun _ => True := by
  refine number_takes.inert fun n used rest h => ?_
  obtain ⟨gap, digits, rfl, hgap, hdigits, -⟩ := h
  exact List.forall_mem_append.2 ⟨hgap.inert, isDateChar_of_isDigits hdigits.2⟩

theorem inert_fraction : fraction.Inert fun _ => True := by
  intro cs _ rest h
  rw [fraction] at h
  split at h
  · next hpoint =>
    obtain ⟨⟨n, _⟩, hdigits, heq⟩ := Option.map_eq_some_iff.1 h
    cases heq
    obtain ⟨digits, hrest, hall, -⟩ := digits_takes _ _ _ hdigits
    cases cs with
    | nil => cases hpoint
    | cons first tail =>
      cases hpoint
      refine ⟨'.' :: digits, congrArg ('.' :: ·) hrest, trivial, List.forall_mem_cons.2 ⟨?_, ?_⟩⟩
      · exact isDateChar_of_mem_marks (by simp)
      · exact isDateChar_of_isDigits hall.2
  · cases h
    exact ⟨[], rfl, trivial, List.forall_mem_nil _⟩

theorem inert_time {gap : Reader Unit} (hgap : gap.Takes fun _ used _ => IsGap used) :
    (time gap).Inert fun _ => True := by
  have hcolon : (oneOf [':']).Inert fun _ => True := inert_oneOf (by simp [IsDateChar])
  refine inert_number.bind fun h _ => (inert_atMost 23 h).bind fun _ _ => ?_
  refine (inert_gap hgap).bind fun _ _ => hcolon.bind fun _ _ => ?_
  refine inert_number.bind fun m _ => (inert_atMost 59 m).bind fun _ _ => ?_
  refine (inert_gap hgap).bind fun _ _ => hcolon.bind fun _ _ => ?_
  exact inert_number.bind fun s _ => (inert_atMost 60 s).bind fun _ _ => inert_fraction

theorem inert_offset : offset.Inert fun _ => True := by
  have htwo : (digitsBetween 2 2).Inert fun _ => True := inert_digitsBetween (by decide)
  refine (inert_oneOf (by simp [IsDateChar])).bind fun mark _ => ?_
  split
  · exact inert_pure trivial
  · refine htwo.bind fun h _ => (inert_atMost 23 h).bind fun _ _ => ?_
    refine (inert_oneOf (by simp [IsDateChar])).bind fun _ _ => ?_
    exact htwo.bind fun m _ => inert_atMost 59 m

end Inert

/-! ### Whole forms -/

/-- The reader answers a day of the calendar with which the text begins, and takes characters of
written days and times only. -/
def Dated (form : Reader Date) : Prop :=
  ∀ cs d rest, form cs = some (d, rest) → d.isValid = true ∧ Names cs d ∧
    ∃ used, cs = used ++ rest ∧ ∀ c ∈ used, IsDateChar c

/-- Four digits, two and two, with hyphens between them. -/
def fixedDate : Reader Date := do
  let y ← digitsBetween 4 4
  let _ ← oneOf ['-']
  let m ← digitsBetween 2 2
  let _ ← oneOf ['-']
  let d ← digitsBetween 2 2
  existing y m d

/-- A time with two digits for each part, and an offset. -/
def fixedTime : Reader Unit := do
  let _ ← oneOf ['T', 't', ' ']
  let h ← digitsBetween 2 2
  atMost 23 h
  let _ ← oneOf [':']
  let minute ← digitsBetween 2 2
  atMost 59 minute
  let _ ← oneOf [':']
  let s ← digitsBetween 2 2
  atMost 60 s
  fraction
  offset

theorem offsetDateTime_eq :
    offsetDateTime = fixedDate >>= fun day => fixedTime >>= fun _ => pure day := by
  simp only [offsetDateTime, fixedDate, fixedTime, bind_assoc]

theorem dated_date {gap : Reader Unit} (hgap : gap.Takes fun _ used _ => IsGap used) :
    Dated (date gap) := by
  intro cs d rest h
  obtain ⟨_, rfl, hvalid, s, hs, rfl, hdate, hstop⟩ := date_takes hgap _ _ _ h
  exact ⟨hvalid, ⟨s, rest, hs, rfl, hdate, hstop⟩, _, rfl, hs.inert⟩

theorem dated_fixedDate : Dated fixedDate := by
  intro cs d rest h
  obtain ⟨y, _, hyear, h⟩ := bind_eq_some.1 h
  obtain ⟨_, _, hhyphen, h⟩ := bind_eq_some.1 h
  obtain ⟨m, _, hmonth, h⟩ := bind_eq_some.1 h
  obtain ⟨_, _, hhyphen', h⟩ := bind_eq_some.1 h
  obtain ⟨n, _, hday, h⟩ := bind_eq_some.1 h
  obtain ⟨hvalid, rfl, rfl⟩ := eq_of_checked h
  obtain ⟨year, rfl, hyears, -, hyear_le, -, rfl⟩ := digitsBetween_takes (by decide) _ _ _ hyear
  obtain ⟨_, rfl, rfl, hc⟩ := oneOf_takes _ _ _ _ hhyphen
  obtain ⟨month, rfl, hmonths, -, hmonth_le, -, rfl⟩ :=
    digitsBetween_takes (by decide) _ _ _ hmonth
  obtain ⟨_, rfl, rfl, hc'⟩ := oneOf_takes _ _ _ _ hhyphen'
  obtain ⟨day, rfl, hdays, -, hday_le, hstop, rfl⟩ := digitsBetween_takes (by decide) _ _ _ hday
  obtain rfl := List.mem_singleton.1 hc
  obtain rfl := List.mem_singleton.1 hc'
  have hnone : IsGap [] := List.forall_mem_nil _
  have hs : (⟨[], [], year, [], [], month, [], [], day⟩ : Spelling).WellFormed :=
    ⟨hnone, by simp, hyears, fun _ => hyear_le, hnone, hnone, hmonths, hmonth_le, hnone, hnone,
      hdays, hday_le⟩
  exact ⟨hvalid, ⟨_, rest, hs, by simp [Spelling.chars], rfl, hstop⟩, _, by simp [Spelling.chars],
    hs.inert⟩

theorem inert_fixedTime : fixedTime.Inert fun _ => True := by
  have hcolon : (oneOf [':']).Inert fun _ => True := inert_oneOf (by simp [IsDateChar])
  have htwo : (digitsBetween 2 2).Inert fun _ => True := inert_digitsBetween (by decide)
  have hjoint : ∀ c ∈ ['T', 't', ' '], IsDateChar c := by
    refine List.forall_mem_cons.2 ⟨isDateChar_of_mem_marks (by simp), List.forall_mem_cons.2
      ⟨isDateChar_of_mem_marks (by simp), List.forall_mem_singleton.2 ?_⟩⟩
    exact .inr (.inr rfl)
  refine (inert_oneOf hjoint).bind fun _ _ => ?_
  refine htwo.bind fun h _ => (inert_atMost 23 h).bind fun _ _ => hcolon.bind fun _ _ => ?_
  refine htwo.bind fun m _ => (inert_atMost 59 m).bind fun _ _ => hcolon.bind fun _ _ => ?_
  refine htwo.bind fun s _ => (inert_atMost 60 s).bind fun _ _ => ?_
  exact inert_fraction.bind fun _ _ => inert_offset

/-- What follows a date does not change it. -/
theorem Dated.bind {head : Reader Date} {tail : Reader Unit} (hhead : Dated head)
    (htail : tail.Inert fun _ => True) :
    Dated (head >>= fun day => tail >>= fun _ => pure day) := by
  intro cs d rest hform
  obtain ⟨day, _, hday, h⟩ := bind_eq_some.1 hform
  obtain ⟨hvalid, hnames, used, rfl, hused⟩ := hhead _ _ _ hday
  have hrest : (tail >>= fun _ => pure day).Inert (· = day) :=
    htail.bind fun _ _ => inert_pure rfl
  obtain ⟨used', rfl, rfl, hused'⟩ := hrest _ _ _ h
  exact ⟨hvalid, hnames, used ++ used', (List.append_assoc ..).symm,
    List.forall_mem_append.2 ⟨hused, hused'⟩⟩

theorem dated_localDateTime : Dated localDateTime := by
  have htail : (do blanks; let _ ← oneOf ['T']; time blanks; blanks : Reader Unit).Inert
      fun _ => True := by
    refine (inert_gap blanks_takes).bind fun _ _ => ?_
    refine (inert_oneOf (by simp [IsDateChar])).bind fun _ _ => ?_
    exact (inert_time blanks_takes).bind fun _ _ => inert_gap blanks_takes
  have hdated := (dated_date blanks_takes).bind htail
  simp only [bind_assoc] at hdated
  exact hdated

theorem dated_spacedDateTime : Dated spacedDateTime := by
  have htail : (do blanks; time (pure ()) : Reader Unit).Inert fun _ => True :=
    (inert_gap blanks_takes).bind fun _ _ => inert_time noGap_takes
  have hdated := (dated_date noGap_takes).bind htail
  simp only [bind_assoc] at hdated
  exact hdated

theorem dated_localDate : Dated localDate :=
  (dated_date blanks_takes).bind (inert_gap blanks_takes)

theorem dated_of_mem_forms {form : Reader Date} (h : form ∈ forms) : Dated form := by
  simp only [forms, List.mem_cons, List.not_mem_nil, or_false] at h
  rcases h with rfl | rfl | rfl | rfl
  · rw [offsetDateTime_eq]
    exact dated_fixedDate.bind inert_fixedTime
  · exact dated_localDateTime
  · exact dated_spacedDateTime
  · exact dated_localDate

end Reader

/-- A text that counts as a point in time consists of characters of written days and times, and
begins with a day of the calendar. -/
theorem names_of_dateOf {text : String} {d : Date} (h : dateOf text = some d) :
    d.Exists ∧ Names text.toList d ∧ ∀ c ∈ text.toList, IsDateChar c := by
  obtain ⟨form, hform, hread⟩ := List.exists_of_findSome?_eq_some h
  split at hread
  · next date hrun =>
    cases hread
    obtain ⟨hvalid, hnames, used, hused, hinert⟩ := Reader.dated_of_mem_forms hform _ _ _ hrun
    rw [List.append_nil] at hused
    exact ⟨d.isValid_iff.1 hvalid, hnames, hused ▸ hinert⟩
  · cases hread

end Calendar
end Criteria
