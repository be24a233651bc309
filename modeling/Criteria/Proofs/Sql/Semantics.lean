import Criteria.Proofs.Decimal.Numeral
import Criteria.Proofs.Sql.Syntax

/-!
# The meaning of conditions

What a condition says about a row, in the three-valued logic of SQL: a comparison with a missing
value is neither true nor false.

**Results.**
* `conjunction_eq_true`, `disjunction_eq_true`: when combinations are true.
-/

namespace Criteria
namespace Sql

/-- What columns are compared with. -/
inductive Scalar where
  | text (s : String)
  | number (q : ℚ)
  | boolean (b : Bool)

/-- How the values of columns compare with scalars.  The relations are up to the database. -/
structure Comparisons (D : Type) where
  equal : D → Scalar → Bool
  less : D → Scalar → Bool
  greater : D → Scalar → Bool
  /-- The text of a value, which patterns are matched against. -/
  text : D → String
  /-- A value in lower case. -/
  lower : D → D

/-- A row gives each column a value, or none. -/
abbrev Row (D : Type) := String → Option D

/-! ### Patterns -/

/-- What one character of a pattern stands for. -/
inductive Wild where
  | sequence
  | one
  | char (c : Char)
deriving DecidableEq

/-- Whether a pattern matches all of a text. -/
def matchesPattern : List Wild → List Char → Bool
  | [], cs => cs.isEmpty
  | .sequence :: rest, cs => cs.tails.any (matchesPattern rest)
  | .one :: _, [] | .char _ :: _, [] => false
  | .one :: rest, _ :: cs => matchesPattern rest cs
  | .char c :: rest, d :: cs => c = d && matchesPattern rest cs

/-- A pattern of SQL: `%` stands for any sequence and `_` for any character. -/
def likePattern (s : String) : List Wild :=
  s.toList.map fun c => if c = '%' then .sequence else if c = '_' then .one else .char c

/-! ### Conditions -/

/-- The scalar of a literal; a tuple is none. -/
def Literal.scalar? : Literal → Option Scalar
  | .text s => some (.text s)
  | .number numeral => some (.number (numeralValue numeral.toList))
  | .boolean b => some (.boolean b)
  | .tuple _ => none

def Comparisons.compare {D : Type} (K : Comparisons D) : Comparison → D → Scalar → Bool
  | .eq, d, s => K.equal d s
  | .ne, d, s => !K.equal d s
  | .lt, d, s => K.less d s
  | .le, d, s => K.less d s || K.equal d s
  | .gt, d, s => K.greater d s
  | .ge, d, s => K.greater d s || K.equal d s

/-- The numbers themselves, compared as numbers. -/
def compareNumbers : Comparison → ℚ → ℚ → Bool
  | .eq, x, y => x = y
  | .ne, x, y => x ≠ y
  | .lt, x, y => x < y
  | .le, x, y => x ≤ y
  | .gt, x, y => x > y
  | .ge, x, y => x ≥ y

def lowerText (s : String) : String :=
  String.ofList (s.toList.map Char.toLower)

def conjunction : Option Bool → Option Bool → Option Bool
  | some true, some true => some true
  | some false, _ | _, some false => some false
  | _, _ => none

def disjunction : Option Bool → Option Bool → Option Bool
  | some false, some false => some false
  | some true, _ | _, some true => some true
  | _, _ => none

variable {D : Type}

/-- Whether a condition is true of a row; none if that is unknown. -/
def Condition.evaluate (K : Comparisons D) (row : Row D) : Condition → Option Bool
  | .present column => some (row column).isSome
  | .compare column op v => do
      let d ← row column
      let s ← v.scalar?
      pure (K.compare op d s)
  | .compareLower column op s => do
      let d ← row column
      pure (K.compare op (K.lower d) (.text (lowerText s)))
  | .like negated caseSensitive column pattern => do
      let d ← row column
      let found :=
        if caseSensitive then matchesPattern (likePattern pattern) (K.text d).toList
        else matchesPattern (likePattern (lowerText pattern)) (lowerText (K.text d)).toList
      pure (negated != found)
  | .member negated column items => do
      let d ← row column
      let scalars ← items.mapM Literal.scalar?
      pure (negated != scalars.any (K.equal d))
  | .constant left op right =>
      some (compareNumbers op (numeralValue left.toList) (numeralValue right.toList))
  | .and l r => conjunction (l.evaluate K row) (r.evaluate K row)
  | .or l r => disjunction (l.evaluate K row) (r.evaluate K row)

theorem conjunction_some (a b : Bool) : conjunction (some a) (some b) = some (a && b) := by
  cases a <;> cases b <;> rfl

theorem disjunction_some (a b : Bool) : disjunction (some a) (some b) = some (a || b) := by
  cases a <;> cases b <;> rfl

theorem conjunction_eq_true {a b : Option Bool} :
    conjunction a b = some true ↔ a = some true ∧ b = some true := by
  rcases a with _ | _ | _ <;> rcases b with _ | _ | _ <;> simp [conjunction]

theorem disjunction_eq_true {a b : Option Bool} :
    disjunction a b = some true ↔ a = some true ∨ b = some true := by
  rcases a with _ | _ | _ <;> rcases b with _ | _ | _ <;> simp [disjunction]

end Sql
end Criteria
