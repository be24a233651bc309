import Criteria.Proofs.Decimal.Numeral
import Criteria.Proofs.Grammar.Names
import Criteria.Proofs.Sql.Syntax

/-!
# Well-formed conditions

Conditions whose words are what they stand for: columns are no numbers, and numerals are no
keywords.

**Results.**
* `Condition.WellFormed.separated`: the symbols of a well-formed condition do not run together.
* `wellFormed_of_compile`: the condition for a filter is well-formed if its selectors are names.
-/

namespace Criteria
namespace Sql

/-- The word of a number.  Both boolean keywords hold an `e`, no numeral does. -/
structure IsNumeral (numeral : String) : Prop where
  proper : (Symbol.word numeral.toList).Proper
  no_e : 'e' ∉ numeral.toList

/-- The word of a column, which is not made of digits alone. -/
structure IsColumn (name : String) : Prop where
  proper : (Symbol.word name.toList).Proper
  not_digits : ∃ c ∈ name.toList, c.isDigit = false

/-- The word of a constant: digits alone. -/
structure IsConstant (numeral : String) : Prop where
  ne_nil : numeral.toList ≠ []
  digits : ∀ c ∈ numeral.toList, c.isDigit = true

mutual

def Literal.WellFormed : Literal → Prop
  | .number numeral => IsNumeral numeral
  | .tuple items => itemsWellFormed items
  | .text _ | .boolean _ => True

def itemsWellFormed : List Literal → Prop
  | [] => True
  | v :: rest => v.WellFormed ∧ itemsWellFormed rest

end

/-- Columns and numerals are what they stand for, and no membership is in an empty list. -/
def Condition.WellFormed : Condition → Prop
  | .present column => IsColumn column
  | .compare column _ value => IsColumn column ∧ value.WellFormed
  | .compareLower column _ _ => IsColumn column
  | .like _ _ column _ => IsColumn column
  | .member _ column items => IsColumn column ∧ items ≠ [] ∧ itemsWellFormed items
  | .constant left _ right => IsConstant left ∧ IsConstant right
  | .and l r | .or l r => l.WellFormed ∧ r.WellFormed

/-! ### Words -/

section Words

/-- The characters that write no words. -/
def marks : List Char :=
  ['=', '<', '>', '\'', ' ', '(', ')', ',']

theorem isWordChar_of_not_mem_marks {c : Char} (h : c ∉ marks) : Symbol.isWordChar c = true := by
  simpa [marks, Symbol.isWordChar, Symbol.isSignChar, and_assoc] using h

/-- A class of characters without marks. -/
theorem isWordChar_of {p : Char → Bool} (hp : (marks.any p) = false) {c : Char}
    (h : p c = true) : Symbol.isWordChar c = true := by
  refine isWordChar_of_not_mem_marks fun hc => ?_
  exact absurd h (List.any_eq_false.1 hp c hc)

theorem isWordChar_of_isDigit {c : Char} (h : c.isDigit = true) : Symbol.isWordChar c = true :=
  isWordChar_of (by decide) h

/-- A word of digits alone is an integer as a whole. -/
theorem integerLength_of_digits {cs : List Char} (hne : cs ≠ [])
    (hdigits : ∀ c ∈ cs, c.isDigit = true) : Token.Rule.integerLength cs = cs.length := by
  obtain ⟨c, rest, rfl⟩ := List.exists_cons_of_ne_nil hne
  have hsign : Text.signLength (c :: rest) = 0 := by
    have hc := hdigits c List.mem_cons_self
    refine if_neg ?_
    rintro (rfl | rfl) <;> cases hc
  have hlength : Text.digitsLength (c :: rest) = (c :: rest).length := by
    rw [Text.digitsLength, List.takeWhile_eq_self_iff.2 hdigits]
  simp [Token.Rule.integerLength, hsign, hlength]

theorem isColumn_of_isName {name : String} (h : Token.IsName name) : IsColumn name := by
  refine ⟨⟨h.ne_nil, fun c hc => isWordChar_of (by decide) (h.isSelectorChar c hc)⟩, ?_⟩
  by_contra hall
  have hdigits : ∀ c ∈ name.toList, c.isDigit = true := by simpa using hall
  have hlt := h.extent_lt .integer (by simp)
  rw [Token.Rule.extent, integerLength_of_digits h.ne_nil hdigits] at hlt
  exact absurd hlt (Nat.lt_irrefl _)

theorem IsConstant.proper {numeral : String} (h : IsConstant numeral) :
    (Symbol.word numeral.toList).Proper :=
  ⟨h.ne_nil, fun c hc => isWordChar_of_isDigit (h.digits c hc)⟩

/-- The characters of numerals, the infinite ones and the undefined one included. -/
def isNumeralChar (c : Char) : Bool :=
  c.isDigit || ['-', '.', 'i', 'n', 'f', 'N', 'a'].contains c

theorem isNumeral_of_chars {numeral : String} (hne : numeral.toList ≠ [])
    (h : ∀ c ∈ numeral.toList, isNumeralChar c = true) : IsNumeral numeral := by
  refine ⟨⟨hne, fun c hc => isWordChar_of (by decide) (h c hc)⟩, fun he => ?_⟩
  have := h 'e' he
  cases this

theorem isNumeralChar_of_isDigit {c : Char} (h : c.isDigit = true) : isNumeralChar c = true := by
  simp [isNumeralChar, h]

theorem isNumeral_integer (n : Int) : IsNumeral (toString n) := by
  apply isNumeral_of_chars
  · rw [toString_int_toList]
    exact List.append_ne_nil_of_right_ne_nil _ Nat.toDigits_ne_nil
  · intro c hc
    rw [toString_int_toList, List.mem_append] at hc
    rcases hc with hc | hc
    · split at hc
      · rw [List.mem_singleton.1 hc]
        rfl
      · cases hc
    · exact isNumeralChar_of_isDigit (isDigit_toDigits c hc)

theorem positional_ne_nil (d : Decimal) : d.positional ≠ [] := by
  obtain ⟨whole, fraction, hne, _, _, htext, _⟩ := d.positional_parts
  rcases htext with ⟨htext, _⟩ | htext
  · rwa [htext]
  · simp [htext]

theorem isNumeralChar_of_mem_positional {d : Decimal} {c : Char} (h : c ∈ d.positional) :
    isNumeralChar c = true := by
  obtain ⟨whole, fraction, _, hwhole, hfraction, htext, _⟩ := d.positional_parts
  rcases htext with ⟨htext, _⟩ | htext
  · rw [htext] at h
    exact isNumeralChar_of_isDigit (hwhole c h)
  · rw [htext, List.mem_append, List.mem_cons] at h
    rcases h with h | rfl | h
    · exact isNumeralChar_of_isDigit (hwhole c h)
    · rfl
    · exact isNumeralChar_of_isDigit (hfraction c h)

theorem isNumeral_signed {sign rest : String} (hsign : sign = "-" ∨ sign = "")
    (hne : rest.toList ≠ []) (hrest : ∀ c ∈ rest.toList, isNumeralChar c = true) :
    IsNumeral (sign ++ rest) := by
  apply isNumeral_of_chars
  · rw [String.toList_append]
    exact List.append_ne_nil_of_right_ne_nil _ hne
  · intro c hc
    rw [String.toList_append, List.mem_append] at hc
    rcases hc with hc | hc
    · rcases hsign with rfl | rfl
      · rw [List.mem_singleton.1 hc]
        rfl
      · cases hc
    · exact hrest c hc

theorem isNumeral_float (x : Float) : IsNumeral (floatText x) := by
  have hsign : (if x.toBits.toNat >>> 63 = 1 then "-" else "") = "-" ∨
      (if x.toBits.toNat >>> 63 = 1 then "-" else "") = "" := by
    split
    · exact .inl rfl
    · exact .inr rfl
  dsimp only [floatText]
  generalize (if x.toBits.toNat >>> 63 = 1 then "-" else "") = sign at hsign ⊢
  split_ifs
  · exact isNumeral_signed hsign (by simp) (List.all_eq_true.1 (by decide))
  · exact isNumeral_of_chars (by simp) (List.all_eq_true.1 (by decide))
  · exact isNumeral_signed hsign (by simp) (List.all_eq_true.1 (by decide))
  · apply isNumeral_signed hsign
    · rw [String.toList_ofList]
      exact positional_ne_nil _
    · intro c hc
      rw [String.toList_ofList] at hc
      exact isNumeralChar_of_mem_positional hc

end Words

/-! ### Symbols -/

theorem Separated.singleton {s : Symbol} (hs : s.Proper) : Separated [s] :=
  ⟨hs, by simp, trivial⟩

/-- A symbol and a mark in front of others. -/
theorem Separated.cons_cons_mark {s t : Symbol} {ss : List Symbol} (hs : s.Proper) (ht : t.IsMark)
    (h : Separated ss) : Separated (s :: t :: ss) :=
  (singleton hs).append_mark ht h

theorem proper_sign (op : Comparison) : (Symbol.sign op.sign).Proper := by
  cases op <;> exact ⟨by simp [Comparison.sign], List.all_eq_true.1 (by decide)⟩

/-- A keyword is a word; that its characters write words is checked one by one. -/
theorem proper_keyword {w : List Char} (h : (!w.isEmpty && w.all Symbol.isWordChar) = true) :
    (Symbol.word w).Proper := by
  rw [Bool.and_eq_true, Bool.not_eq_true', List.isEmpty_eq_false_iff, List.all_eq_true] at h
  exact h

mutual

theorem Literal.WellFormed.separated : ∀ {v : Literal}, v.WellFormed → Separated v.symbols
  | .text _, _ => .singleton trivial
  | .number _, h => .singleton h.proper
  | .boolean b, _ => .singleton (proper_keyword (by cases b <;> decide))
  | .tuple _, h =>
      .cons_mark trivial ((separated_items h).append_mark trivial trivial)

theorem separated_items : ∀ {items : List Literal}, itemsWellFormed items →
    Separated (itemsSymbols items)
  | [], _ => trivial
  | [_], h => h.1.separated
  | v :: w :: rest, h => by
      rw [itemsSymbols_cons_cons]
      exact h.1.separated.append_mark trivial ((separated_items h.2).cons_mark trivial)

end

theorem separated_negation (negated : Bool) {ss : List Symbol} (h : Separated ss) :
    Separated (negation negated ++ ss) := by
  cases negated
  · exact h
  · exact h.cons_cons_mark (proper_keyword (by decide)) trivial

/-- The symbols of a well-formed condition do not run together. -/
theorem Condition.WellFormed.separated {c : Condition} (h : c.WellFormed) :
    Separated c.symbols := by
  induction c with
  | present column =>
    refine .cons_cons_mark h.proper trivial ?_
    refine .cons_cons_mark (proper_keyword (by decide)) trivial ?_
    refine .cons_cons_mark (proper_keyword (by decide)) trivial ?_
    exact .singleton (proper_keyword (by decide))
  | compare column op value =>
    refine .cons_cons_mark h.1.proper trivial ?_
    exact .cons_cons_mark (proper_sign op) trivial h.2.separated
  | compareLower column op s =>
    have hlower : (Symbol.word keywordLower).Proper := proper_keyword (by decide)
    refine .cons_cons_mark hlower trivial (.cons_cons_mark h.proper trivial (.cons_mark trivial ?_))
    refine .cons_cons_mark (proper_sign op) trivial ?_
    exact .cons_cons_mark hlower trivial (.cons_cons_mark trivial trivial trivial)
  | like negated caseSensitive column pattern =>
    refine .cons_cons_mark h.proper trivial (separated_negation negated ?_)
    refine .cons_cons_mark ?_ trivial (.singleton trivial)
    cases caseSensitive
    · exact proper_keyword (by decide)
    · exact proper_keyword (by decide)
  | member negated column items =>
    refine .cons_cons_mark h.1.proper trivial (separated_negation negated ?_)
    refine .cons_cons_mark (proper_keyword (by decide)) trivial ?_
    exact .cons_mark trivial ((separated_items h.2.2).append_mark trivial trivial)
  | constant left op right =>
    refine .cons_cons_mark h.1.proper trivial (.cons_cons_mark (proper_sign op) trivial ?_)
    exact .singleton h.2.proper
  | and l r ihl ihr =>
    refine .cons_mark trivial ((ihl h.1).append_mark trivial ?_)
    refine .cons_cons_mark (proper_keyword (by decide)) trivial ?_
    exact (ihr h.2).append_mark trivial trivial
  | or l r ihl ihr =>
    refine .cons_mark trivial ((ihl h.1).append_mark trivial ?_)
    refine .cons_cons_mark (proper_keyword (by decide)) trivial ?_
    exact (ihr h.2).append_mark trivial trivial

/-! ### The condition for a filter -/

mutual

theorem wellFormed_valueLiteral : ∀ v : Value, (valueLiteral v).WellFormed
  | .text _ => trivial
  | .integer _ => isNumeral_integer _
  | .float x => isNumeral_float x
  | .boolean _ => trivial
  | .list items => wellFormed_valueLiterals items

theorem wellFormed_valueLiterals : ∀ vs : List Value, itemsWellFormed (valueLiterals vs)
  | [] => trivial
  | v :: vs => ⟨wellFormed_valueLiteral v, wellFormed_valueLiterals vs⟩

end

theorem wellFormed_compileEquality {selector : String} (h : IsColumn selector)
    (caseSensitive negated : Bool) (v : Value) :
    (compileEquality caseSensitive negated selector v).WellFormed := by
  have hdigit {s : String} (hs : s = "0" ∨ s = "1") : IsConstant s := by
    rcases hs with rfl | rfl <;> exact ⟨by simp, List.all_eq_true.1 (by decide)⟩
  cases v with
  | text s =>
    rw [compileEquality]
    split_ifs
    · exact h
    · exact ⟨h, trivial⟩
    · exact h
  | list items =>
    cases items with
    | nil => exact ⟨hdigit (.inr rfl), hdigit (by cases negated <;> simp)⟩
    | cons v vs => exact ⟨h, by simp [valueLiterals], wellFormed_valueLiterals (v :: vs)⟩
  | integer n => exact ⟨h, wellFormed_valueLiteral _⟩
  | float x => exact ⟨h, wellFormed_valueLiteral _⟩
  | boolean b => exact ⟨h, wellFormed_valueLiteral _⟩

theorem wellFormed_compileConstraint {options : Options} {leaf : Constraint} {c : Condition}
    (hleaf : IsColumn leaf.selector) (h : compileConstraint options leaf = some c) :
    c.WellFormed := by
  obtain ⟨_, rfl, rfl⟩ | ⟨_, _, _, _, rfl, rfl⟩ | ⟨_, _, _, _, rfl, _, rfl⟩ :=
    compileConstraint_cases h
  · exact hleaf
  · exact wellFormed_compileEquality hleaf _ _ _
  · exact ⟨hleaf, wellFormed_valueLiteral _⟩

/-- The condition for a filter is well-formed if its selectors are names. -/
theorem wellFormed_of_compile {options : Options} {e : Expr} {c : Condition}
    (hnames : ∀ leaf ∈ e.constraints, Token.IsName leaf.selector)
    (h : compile options e = some c) : c.WellFormed := by
  induction e generalizing c with
  | constraint leaf =>
    have hleaf := isColumn_of_isName (hnames leaf (List.mem_singleton_self leaf))
    exact wellFormed_compileConstraint hleaf h
  | and l r ihl ihr =>
    obtain ⟨cl, cr, hl, hr, rfl⟩ := compile_and_eq_some.1 h
    constructor
    · exact ihl (fun leaf hm => hnames leaf (List.mem_append_left _ hm)) hl
    · exact ihr (fun leaf hm => hnames leaf (List.mem_append_right _ hm)) hr
  | or l r ihl ihr =>
    obtain ⟨cl, cr, hl, hr, rfl⟩ := compile_or_eq_some.1 h
    constructor
    · exact ihl (fun leaf hm => hnames leaf (List.mem_append_left _ hm)) hl
    · exact ihr (fun leaf hm => hnames leaf (List.mem_append_right _ hm)) hr

end Sql
end Criteria
