import Criteria.Proofs.Calendar.Readers
import Criteria.Proofs.Sql.Refusal

/-!
# Dates in conditions

An ordering compares with numbers and with written days and times.  No text gets into a condition
this way that could end its literal: all characters of a written day or time are harmless.

**Results.**
* `Sql.quote_of_inert`: the literal of such a text is the text between two quotes.
* `Sql.date_literals_inert`: how an ordering of a text ends.
-/

namespace Criteria
namespace Sql

open Calendar

/-- How an ordering of the text `s` ends for a selector that is allowed. -/
inductive OrderedText (selector operator s : String) : Except BuildError String → Prop
  /-- A text in none of the accepted forms is refused. -/
  | refused (hform : dateOf s = none) :
      OrderedText selector operator s (.error (.dateFormat selector s))
  /-- A text in one of them is written as it is.  It begins with one day, which exists, and has
  characters of written days and times only. -/
  | written {date : Date} (hform : dateOf s = some date) (hexists : date.Exists)
      (hnames : ∀ other, Names s.toList other ↔ other = date)
      (hchars : ∀ c ∈ s.toList, IsDateChar c) :
      OrderedText selector operator s
        (.ok (selector ++ " " ++ operator ++ " " ++ ("'" ++ s ++ "'")))

theorem escape_of_no_quote {cs : List Char} (h : ∀ c ∈ cs, c ≠ '\'') : escape cs = cs := by
  induction cs with
  | nil => rfl
  | cons c cs ih =>
    obtain ⟨hc, hcs⟩ := List.forall_mem_cons.1 h
    rw [escape, List.flatMap_cons, if_neg hc, ← escape, ih hcs, List.singleton_append]

/-- Nothing is doubled. -/
theorem quote_of_inert {s : String} (h : ∀ c ∈ s.toList, IsDateChar c) :
    quote s = "'" ++ s ++ "'" := by
  rw [quote, escape_of_no_quote fun c hc => (h c hc).ne_quote, String.ofList_toList]

theorem ordering_text {selector tag operator s : String}
    (htag : orderingOperator tag = some operator) :
    OrderedText selector operator s (ordering selector tag (.text s)) := by
  have hordering : ordering selector tag (.text s) =
      if isTimestamp s then .ok (selector ++ " " ++ operator ++ " " ++ quote s)
      else .error (.dateFormat selector s) := by
    simp only [ordering, htag]
  rw [hordering]
  cases hform : dateOf s with
  | none =>
    rw [if_neg (by simp [isTimestamp, hform])]
    exact .refused hform
  | some date =>
    obtain ⟨hexists, hnames, hchars⟩ := names_of_dateOf hform
    rw [if_pos (by simp [isTimestamp, hform]), quote_of_inert hchars]
    exact .written hform hexists (fun other => ⟨fun h => h.unique hnames, fun h => h ▸ hnames⟩)
      hchars

theorem condition_ordering {options : Options} {selector tag : String} {value : Value}
    (hallowed : options.isAllowed selector = true) :
    options.condition (.constraint (.comparison selector (.tagged tag) value)) =
      ordering selector tag (options.transformer selector value) := by
  show (options.checkAccess selector >>= fun _ =>
    ordering selector tag (options.transformer selector value)) = _
  rw [Options.checkAccess, hallowed]
  rfl

/-- **Dates in conditions are inert.**  An ordering whose rewritten value is a text is refused for
its date, or it shows the text between two quotes with nothing doubled; and then the text begins
with a day of the calendar and holds nothing but digits, the marks of dates, and blanks.  So it is
with each selector, but in a filter one that is not allowed is refused before. -/
theorem date_literals_inert {options : Options} {selector tag operator s : String} {value : Value}
    (htag : (tag, operator) ∈ [("ge", ">="), ("gt", ">"), ("le", "<="), ("lt", "<")])
    (hvalue : options.transformer selector value = .text s) :
    OrderedText selector operator s (ordering selector tag (options.transformer selector value)) ∧
    (options.isAllowed selector = true → OrderedText selector operator s
      (options.condition (.constraint (.comparison selector (.tagged tag) value)))) ∧
    (options.isAllowed selector = false →
      options.condition (.constraint (.comparison selector (.tagged tag) value)) =
        .error (.selectorNotAllowed selector)) := by
  have hoperator : orderingOperator tag = some operator := by
    simp only [List.mem_cons, Prod.mk.injEq, List.not_mem_nil, or_false] at htag
    rcases htag with ⟨rfl, rfl⟩ | ⟨rfl, rfl⟩ | ⟨rfl, rfl⟩ | ⟨rfl, rfl⟩ <;> rfl
  have htext : OrderedText selector operator s
      (ordering selector tag (options.transformer selector value)) := by
    rw [hvalue]
    exact ordering_text hoperator
  refine ⟨htext, fun hallowed => ?_, fun hrefused => ?_⟩
  · rw [condition_ordering hallowed]
    exact htext
  · rw [condition_constraint_eq_error_iff, Options.refusal, Options.accessRefusal, hrefused]
    rfl

/-- A leap day, with a sign before the year and blanks where they may stand. -/
theorem date_literals_inert_leap_day :
    dateOf "+2024 - 2 -29 T 7:08 :60.5 " = some ⟨2024, 2, 29⟩ ∧
      OrderedText "born" "<" "+2024 - 2 -29 T 7:08 :60.5 "
        (({} : Options).condition
          (.constraint (.comparison "born" (.tagged "lt") (.text "+2024 - 2 -29 T 7:08 :60.5 ")))) :=
  ⟨by decide +kernel, (date_literals_inert (by simp) rfl).2.1 rfl⟩

end Sql
end Criteria
