import Criteria.Text.Blank
import Criteria.Text.Quoted
import Criteria.Token

/-!
# Token rules

Each rule recognises one class of lexemes.  All rules are tried at the start of the text
that is left; the longest match wins, and of equally long ones the rule listed first.
So `123` is an integer and not a selector, and `trueish` a selector and not a boolean.

* `Rule.extent` measures what one rule matches; zero means that it does not match.
* `Rule.longest` chooses among the rules.
* `Rule.decode` reads the token off the matched text.
-/

namespace Criteria

/-- Why a text could not be split into tokens. -/
inductive LexError where
  /-- No rule matches at this character. -/
  | unexpectedCharacter (character : Char) (line : Nat)
  /-- The number is no value of its type. -/
  | numberOutOfRange (literal : String) (line : Nat)
deriving DecidableEq

namespace LexError

/-- The line on which the offending text starts. -/
def line : LexError → Nat
  | .unexpectedCharacter _ n => n
  | .numberOutOfRange _ n => n

/-- The wording of the error. -/
def message : LexError → String
  | .unexpectedCharacter c n =>
      "unexpected character '" ++ c.toString ++ "' on line " ++ toString n
  | .numberOutOfRange literal n =>
      "number '" ++ literal ++ "' out of range on line " ++ toString n

end LexError

namespace Token

/-- The classes of lexemes. -/
inductive Rule where
  | float
  | integer
  | boolean
  | selector
  | bareText
  | doubleQuoted
  | singleQuoted
  | comparison
  | leftParen
  | rightParen
  | comma
  | semicolon
  | equal
  | notEqual
  | blanks
deriving DecidableEq, Repr

namespace Rule

/-- All rules, the preferred ones first. -/
def all : List Rule :=
  [.float, .integer, .boolean, .selector, .bareText, .doubleQuoted, .singleQuoted, .comparison,
    .leftParen, .rightParen, .comma, .semicolon, .equal, .notEqual, .blanks]

/-- Selectors are words over the ASCII letters, the digits, colon, dot and underscore. -/
def isSelectorChar (c : Char) : Bool :=
  c.isAlphanum || c = ':' || c = '.' || c = '_'

/-- The characters that have a meaning of their own. -/
def reserved : List Char :=
  ['"', '\'', ';', ',', '=', '!', '(', ')']

/-- Bare texts hold neither blanks nor reserved characters. -/
def isBareChar (c : Char) : Bool :=
  !Text.isBlank c && !reserved.contains c

/-- The tag of a comparison is a word over lower-case ASCII letters and digits. -/
def isTagChar (c : Char) : Bool :=
  c.isLower || c.isDigit

/-- The letter that stands for `c` in words written without regard to case.  The long s is a
spelling of `s`. -/
def foldCase (c : Char) : Char :=
  if c = 'ſ' then 's' else c.toLower

/-- The length of `word` if `cs` starts with it, case aside; zero otherwise. -/
def wordLength (word cs : List Char) : Nat :=
  if (cs.take word.length).map foldCase = word then word.length else 0

/-- The length of the exponent that `cs` starts with: a letter e, an optional sign, digits. -/
def exponentLength : List Char → Nat
  | [] => 0
  | c :: rest =>
      let sign := Text.signLength rest
      let digits := Text.digitsLength (rest.drop sign)
      if (c = 'e' ∨ c = 'E') ∧ 0 < digits then 1 + sign + digits else 0

/-- The length of the point and the digits behind it that `cs` starts with. -/
def fractionLength : List Char → Nat
  | [] => 0
  | c :: rest =>
      let digits := Text.digitsLength rest
      if c = '.' ∧ 0 < digits then 1 + digits else 0

/-- The length of the optional sign and the digits that `cs` starts with. -/
def integerLength (cs : List Char) : Nat :=
  let sign := Text.signLength cs
  let digits := Text.digitsLength (cs.drop sign)
  if 0 < digits then sign + digits else 0

/-- The length of the float that `cs` starts with: an integer, a fraction, and perhaps an
exponent. -/
def floatLength (cs : List Char) : Nat :=
  let whole := integerLength cs
  let fraction := fractionLength (cs.drop whole)
  if 0 < whole ∧ 0 < fraction then
    whole + fraction + exponentLength (cs.drop (whole + fraction))
  else 0

/-- The length of the comparison that `cs` starts with: a tag between two equality signs. -/
def comparisonLength : List Char → Nat
  | [] => 0
  | c :: rest =>
      let tag := (rest.takeWhile isTagChar).length
      if c = '=' ∧ 0 < tag ∧ rest[tag]? = some '=' then tag + 2 else 0

/-- The length of `mark` if `cs` starts with it; zero otherwise. -/
def markLength (mark cs : List Char) : Nat :=
  if mark.isPrefixOf cs then mark.length else 0

/-- The number of characters that a rule matches at the start of `cs`. -/
def extent (rule : Rule) (cs : List Char) : Nat :=
  match rule with
  | .float => floatLength cs
  | .integer => integerLength cs
  | .boolean => max (wordLength ['t', 'r', 'u', 'e'] cs) (wordLength ['f', 'a', 'l', 's', 'e'] cs)
  | .selector => (cs.takeWhile isSelectorChar).length
  | .bareText => (cs.takeWhile isBareChar).length
  | .doubleQuoted => Text.Quoted.extent '"' cs
  | .singleQuoted => Text.Quoted.extent '\'' cs
  | .comparison => comparisonLength cs
  | .leftParen => markLength ['('] cs
  | .rightParen => markLength [')'] cs
  | .comma => markLength [','] cs
  | .semicolon => markLength [';'] cs
  | .equal => markLength ['=', '='] cs
  | .notEqual => markLength ['!', '='] cs
  | .blanks => (cs.takeWhile Text.isBlank).length

/-- One more rule is compared with the best match so far: it has to be strictly longer. -/
def better (cs : List Char) (best : Option (Rule × Nat)) (rule : Rule) : Option (Rule × Nat) :=
  if (best.elim 0 Prod.snd) < rule.extent cs then some (rule, rule.extent cs) else best

/-- The longest match at the start of `cs`, with its rule; none when no rule matches. -/
def longest (cs : List Char) : Option (Rule × Nat) :=
  all.foldl (better cs) none

/-- The integer that a literal writes, if it lies in the range of 64 bits with sign. -/
def readInteger (text : List Char) : Option Int64 :=
  let n := Text.readSigned text
  if Int64.minValue.toInt ≤ n ∧ n ≤ Int64.maxValue.toInt then some (Int64.ofInt n) else none

/-- The float that a literal writes, unless it is too large for a finite one. -/
def readFloat (text : List Char) : Option Float :=
  let x := floatOfText text
  if x.isFinite then some x else none

/-- The token that a rule reads off the text it matched, which starts on `line`.  Blanks make
no token. -/
def decode (rule : Rule) (text : List Char) (line : Nat) : Except LexError (Option Token) :=
  let outOfRange := LexError.numberOutOfRange (String.ofList text) line
  match rule with
  | .float => (readFloat text).elim (.error outOfRange) fun x => .ok (some (.float x))
  | .integer => (readInteger text).elim (.error outOfRange) fun n => .ok (some (.integer n))
  | .boolean => .ok (some (.boolean (text.map Char.toLower = ['t', 'r', 'u', 'e'])))
  | .selector => .ok (some (.selector (String.ofList text)))
  | .bareText => .ok (some (.text (String.ofList text)))
  | .doubleQuoted => .ok (some (.text (String.ofList (Text.Quoted.decode '"' text))))
  | .singleQuoted => .ok (some (.text (String.ofList (Text.Quoted.decode '\'' text))))
  | .comparison => .ok (some (.comparison (String.ofList (text.drop 1).dropLast)))
  | .leftParen => .ok (some .leftParen)
  | .rightParen => .ok (some .rightParen)
  | .comma => .ok (some .comma)
  | .semicolon => .ok (some .semicolon)
  | .equal => .ok (some .equal)
  | .notEqual => .ok (some .notEqual)
  | .blanks => .ok none

theorem integerLength_le (cs : List Char) : integerLength cs ≤ cs.length := by
  have hs := Text.signLength_le cs
  have hd := Text.digitsLength_le (cs.drop (Text.signLength cs))
  rw [List.length_drop] at hd
  simp only [integerLength]
  split
  · omega
  · exact Nat.zero_le _

theorem fractionLength_le (cs : List Char) : fractionLength cs ≤ cs.length := by
  cases cs with
  | nil => exact Nat.le_refl _
  | cons c rest =>
    have hd := Text.digitsLength_le rest
    simp only [fractionLength, List.length_cons]
    split <;> omega

theorem exponentLength_le (cs : List Char) : exponentLength cs ≤ cs.length := by
  cases cs with
  | nil => exact Nat.le_refl _
  | cons c rest =>
    have hs := Text.signLength_le rest
    have hd := Text.digitsLength_le (rest.drop (Text.signLength rest))
    rw [List.length_drop] at hd
    simp only [exponentLength, List.length_cons]
    split <;> omega

theorem floatLength_le (cs : List Char) : floatLength cs ≤ cs.length := by
  have hw := integerLength_le cs
  have hf := fractionLength_le (cs.drop (integerLength cs))
  have he := exponentLength_le
    (cs.drop (integerLength cs + fractionLength (cs.drop (integerLength cs))))
  rw [List.length_drop] at hf he
  simp only [floatLength]
  split <;> omega

theorem wordLength_le (word cs : List Char) : wordLength word cs ≤ cs.length := by
  unfold wordLength
  split
  · next h =>
    have := congrArg List.length h
    simp at this
    omega
  · exact Nat.zero_le _

theorem comparisonLength_le (cs : List Char) : comparisonLength cs ≤ cs.length := by
  cases cs with
  | nil => exact Nat.le_refl _
  | cons c rest =>
    simp only [comparisonLength, List.length_cons]
    split
    · next h =>
      obtain ⟨hlt, _⟩ := List.getElem?_eq_some_iff.1 h.2.2
      omega
    · exact Nat.zero_le _

theorem markLength_le (mark cs : List Char) : markLength mark cs ≤ cs.length := by
  unfold markLength
  split
  · next h => exact (List.isPrefixOf_iff_prefix.1 h).length_le
  · exact Nat.zero_le _

/-- A rule never matches more than there is. -/
theorem extent_le (rule : Rule) (cs : List Char) : rule.extent cs ≤ cs.length := by
  have hrun (p : Char → Bool) : (cs.takeWhile p).length ≤ cs.length :=
    (List.takeWhile_prefix _).length_le
  cases rule
  case float => exact floatLength_le cs
  case integer => exact integerLength_le cs
  case boolean => exact Nat.max_le.2 ⟨wordLength_le _ cs, wordLength_le _ cs⟩
  case doubleQuoted => exact Text.Quoted.extent_le _ cs
  case singleQuoted => exact Text.Quoted.extent_le _ cs
  case comparison => exact comparisonLength_le cs
  case selector | bareText | blanks => exact hrun _
  all_goals exact markLength_le _ cs

/-- The longest match is a match of its rule, and not an empty one. -/
theorem longest_eq_some {cs : List Char} {rule : Rule} {n : Nat}
    (h : longest cs = some (rule, n)) : n = rule.extent cs ∧ 0 < n := by
  have inv : ∀ (rules : List Rule) (best : Option (Rule × Nat)),
      (∀ r k, best = some (r, k) → k = r.extent cs ∧ 0 < k) →
      ∀ r k, rules.foldl (better cs) best = some (r, k) → k = r.extent cs ∧ 0 < k := by
    intro rules
    induction rules with
    | nil => exact fun _ hbest => hbest
    | cons first rest ih =>
      intro best hbest
      refine ih _ fun r k hk => ?_
      unfold better at hk
      split at hk
      · cases hk
        exact ⟨rfl, by omega⟩
      · exact hbest r k hk
  exact inv all none (fun _ _ hk => by cases hk) rule n h

end Rule

end Token

end Criteria
