import Criteria.Proofs.Grammar.Lookahead
import Criteria.Proofs.Sql.Build
import Criteria.Proofs.Token.Integers

/-!
# Integers from filter to query

A filter that compares a selector with an integer, or with a list that holds one, is read as that
integer, however it is written, and the query shows it by its canonical text.  A literal of any
other integer is an error; it is never read as something else.

**Results.**
* `tokenize_scalar` and `tokenize_list`: the tokens of such a filter.
* `Sql.integers_exact`: what becomes of every literal.
-/

namespace Criteria

open Token Grammar

/-- A filter that compares `name` with a literal, which may stand behind blanks. -/
def scalarFilter (name : String) (op : Operator) (blanks literal : String) : String :=
  name ++ op.text ++ blanks ++ literal

/-- A filter that compares `name` with a list of one literal. -/
def listFilter (name : String) (op : Operator) (blanks literal : String) : String :=
  name ++ op.text ++ "(" ++ blanks ++ literal ++ ")"

/-! ### Lexemes -/

section Lexemes

variable {name blanks : String} {op : Operator} {w : List Char}

theorem spells_operator (hop : (operatorToken op).Writable) :
    Spells op.text.toList (operatorToken op) := by
  cases op with
  | equal => exact .equal
  | notEqual => exact .notEqual
  | tagged tag =>
    have hspells := Spells.comparison hop
    rw [String.ofList_toList] at hspells
    simpa [Operator.text, operatorToken] using hspells

/-- An operator starts with a character that is in no run. -/
theorem exists_operator_cons (op : Operator) :
    ∃ c tail, op.text.toList = c :: tail ∧ Rule.isBareChar c = false := by
  cases op with
  | equal => exact ⟨'=', ['='], rfl, by decide⟩
  | notEqual => exact ⟨'!', ['='], rfl, by decide⟩
  | tagged tag => exact ⟨'=', tag.toList ++ ['='], by simp [Operator.text], by decide⟩

theorem count_operator (hop : (operatorToken op).Writable) : op.text.toList.count '\n' = 0 := by
  cases op with
  | equal => rfl
  | notEqual => rfl
  | tagged tag =>
    have hmem : '\n' ∉ tag.toList := fun hmem => absurd (hop.2 '\n' hmem) (by decide)
    simpa [Operator.text, List.count_eq_zero] using hmem

namespace Lexer

/-- The selector and the operator are read, and then what follows, on the same line. -/
theorem yields_comparison {tail : List Char} {line : Nat} {lexemes : List Lexeme}
    {stop : Option LexError} (hname : IsWord name.toList) (hop : (operatorToken op).Writable)
    (htail : (⟨tail, line⟩ : Lexer).Yields lexemes stop) :
    (⟨name.toList ++ (op.text.toList ++ tail), line⟩ : Lexer).Yields
      (⟨.selector name, line⟩ :: ⟨operatorToken op, line⟩ :: lexemes) stop := by
  have hline := Rule.count_lineFeed (Rule.isBare_of_isSelector hname.1)
  obtain ⟨c, rest, htext, hc⟩ := exists_operator_cons op
  have hends : StopsRun (op.text.toList ++ tail) := by
    rw [htext]
    rintro d ⟨⟩
    exact hc
  have hbare : ¬ IsBare op.text.toList := by
    rw [htext]
    exact Rule.not_isBare_cons hc rest
  have hselector := next_of_spells (l := ⟨name.toList ++ (op.text.toList ++ tail), line⟩)
    (List.nil_append _).symm (List.forall_mem_nil _) (spells_selector hname) fun _ => hends
  have hoperator := next_of_spells (l := ⟨op.text.toList ++ tail, line⟩)
    (List.nil_append _).symm (List.forall_mem_nil _) (spells_operator hop) fun h => absurd h hbare
  simp only [List.nil_append, List.count_nil, hline, count_operator hop, Nat.add_zero]
    at hselector hoperator
  exact .token hselector (.token hoperator htail)

section Literal

variable {n : Int64} {rest : List Char} {line : Nat} {lexemes : List Lexeme}
  {stop : Option LexError}

/-- The literal is read, and then what follows. -/
theorem yields_integer (hblanks : ∀ c ∈ blanks.toList, Text.isBlank c = true) (hw : IsInteger w)
    (hread : Rule.readInteger w = some n) (hstop : StopsRun rest)
    (hrest : (⟨rest, line + blanks.toList.count '\n'⟩ : Lexer).Yields lexemes stop) :
    (⟨blanks.toList ++ (w ++ rest), line⟩ : Lexer).Yields
      (⟨.integer n, line + blanks.toList.count '\n'⟩ :: lexemes) stop := by
  have hnext := next_of_integer (l := ⟨blanks.toList ++ (w ++ rest), line⟩) rfl hblanks hw hstop
  rw [hread] at hnext
  exact .token hnext hrest

/-- A literal out of range is the error, whatever follows. -/
theorem yields_outOfRange (hblanks : ∀ c ∈ blanks.toList, Text.isBlank c = true)
    (hw : IsInteger w) (hread : Rule.readInteger w = none) (hstop : StopsRun rest) :
    (⟨blanks.toList ++ (w ++ rest), line⟩ : Lexer).Yields []
      (some (.numberOutOfRange (String.ofList w) (line + blanks.toList.count '\n'))) := by
  have hnext := next_of_integer (l := ⟨blanks.toList ++ (w ++ rest), line⟩) rfl hblanks hw hstop
  rw [hread] at hnext
  exact .fails hnext

/-- A parenthesis is read, and then what follows. -/
theorem yields_parenthesis {c : Char} {token : Token} (hc : c = '(' ∨ c = ')')
    (hspells : Spells [c] token) (hrest : (⟨rest, line⟩ : Lexer).Yields lexemes stop) :
    (⟨c :: rest, line⟩ : Lexer).Yields (⟨token, line⟩ :: lexemes) stop := by
  have hbare : ¬ IsBare [c] := by
    refine Rule.not_isBare_cons ?_ []
    rcases hc with rfl | rfl <;> decide
  have hcount : [c].count '\n' = 0 := by rcases hc with rfl | rfl <;> rfl
  have hnext := next_of_spells (l := ⟨c :: rest, line⟩)
    (show _ = [] ++ ([c] ++ rest) from rfl) (List.forall_mem_nil _) hspells
    fun h => absurd h hbare
  rw [List.nil_append, hcount] at hnext
  exact .token hnext hrest

end Literal

end Lexer
end Lexemes

/-! ### Filters -/

section Filters

variable {name blanks : String} {op : Operator} {w : List Char} {n : Int64}

theorem scalarFilter_toList (name : String) (op : Operator) (blanks : String) (w : List Char) :
    (scalarFilter name op blanks (String.ofList w)).toList =
      name.toList ++ (op.text.toList ++ (blanks.toList ++ w)) := by
  simp [scalarFilter]

theorem listFilter_toList (name : String) (op : Operator) (blanks : String) (w : List Char) :
    (listFilter name op blanks (String.ofList w)).toList =
      name.toList ++ (op.text.toList ++ '(' :: (blanks.toList ++ (w ++ [')']))) := by
  simp [listFilter]

theorem tokenize_scalar (hname : IsWord name.toList) (hop : (operatorToken op).Writable)
    (hblanks : ∀ c ∈ blanks.toList, Text.isBlank c = true) (hw : IsInteger w)
    (hread : Rule.readInteger w = some n) :
    tokenize (scalarFilter name op blanks (String.ofList w)) =
      .ok [⟨.selector name, 1⟩, ⟨operatorToken op, 1⟩,
        ⟨.integer n, 1 + blanks.toList.count '\n'⟩] := by
  rw [tokenize, Lexer.ofString, scalarFilter_toList, Lexer.tokens_eq_ok_iff]
  have hinteger : (⟨blanks.toList ++ (w ++ []), 1⟩ : Lexer).Yields _ none :=
    Lexer.yields_integer hblanks hw hread (by rintro c ⟨⟩) (Lexer.yields_nil _)
  rw [List.append_nil] at hinteger
  exact Lexer.yields_comparison hname hop hinteger

theorem tokenize_list (hname : IsWord name.toList) (hop : (operatorToken op).Writable)
    (hblanks : ∀ c ∈ blanks.toList, Text.isBlank c = true) (hw : IsInteger w)
    (hread : Rule.readInteger w = some n) :
    tokenize (listFilter name op blanks (String.ofList w)) =
      .ok [⟨.selector name, 1⟩, ⟨operatorToken op, 1⟩, ⟨.leftParen, 1⟩,
        ⟨.integer n, 1 + blanks.toList.count '\n'⟩,
        ⟨.rightParen, 1 + blanks.toList.count '\n'⟩] := by
  rw [tokenize, Lexer.ofString, listFilter_toList, Lexer.tokens_eq_ok_iff]
  have hclose := Lexer.yields_parenthesis (.inr rfl) .rightParen
    (Lexer.yields_nil (1 + blanks.toList.count '\n'))
  have hinteger := Lexer.yields_integer hblanks hw hread (by rintro c ⟨⟩; decide) hclose
  exact Lexer.yields_comparison hname hop (Lexer.yields_parenthesis (.inl rfl) .leftParen hinteger)

/-- The comparison of a selector with an argument is a derivation by itself. -/
theorem parse_of_comparison {text : String} {lexemes : List Lexeme} {v : Argument}
    (ht : tokenize text = .ok lexemes)
    (htokens : .selector name :: operatorToken op :: v.tokens = lexemes.map Lexeme.token)
    (hn : v.nesting ≤ maxNesting) :
    Expr.parse text = .ok (.constraint (.comparison name op v.value)) :=
  Expr.parse_eq_ok_iff.2 ⟨lexemes, ht, .single (.single (.comparison name op v)), htokens, rfl, hn⟩

/-- An error behind a selector and an operator is answered, since a value could stand there. -/
theorem parse_lexical_of_comparison {text : String} {tail : List Char} {lexemes : List Lexeme}
    {text' : String} {lexemes' : List Lexeme} {more : List Token} {e : LexError} {tree : Expr}
    (hname : IsWord name.toList) (hop : (operatorToken op).Writable)
    (htext : text.toList = name.toList ++ (op.text.toList ++ tail))
    (htail : (⟨tail, 1⟩ : Lexer).Yields lexemes (some e)) (ht : tokenize text' = .ok lexemes')
    (htokens : lexemes'.map Lexeme.token =
      .selector name :: operatorToken op :: (lexemes.map Lexeme.token ++ more))
    (h' : Expr.parse text' = .ok tree) : Expr.parse text = .error (.lexical e) := by
  have hyields := Lexer.yields_comparison hname hop htail
  rw [← htext] at hyields
  exact Expr.parse_eq_lexical hyields ht h' htokens

end Filters

/-! ### Conditions -/

namespace Sql

variable {name : String} {op : Operator} {n : Int64} {options : Options}

/-- The operator of SQL between a selector and a number. -/
def numberOperator : Operator → Option String
  | .equal => some "="
  | .notEqual => some "<>"
  | .tagged tag => orderingOperator tag

/-- A comparison of an integer shows its decimal text. -/
theorem condition_integer {operator : String} (hallowed : options.isAllowed name = true)
    (hsame : options.transformer name (.integer n) = .integer n)
    (hop : numberOperator op = some operator) :
    options.condition (.constraint (.comparison name op (.integer n))) =
      .ok (name ++ " " ++ operator ++ " " ++ toString n.toInt) := by
  have hspaced (sign : String) : name ++ (" " ++ sign ++ " ") = name ++ " " ++ sign ++ " " := by
    rw [← String.append_assoc, ← String.append_assoc]
  cases op with
  | equal =>
    cases hop
    refine bind_eq_ok.2 ⟨(), checkAccess_eq_ok.2 hallowed, ?_⟩
    rw [hsame, ← hspaced]
    rfl
  | notEqual =>
    cases hop
    refine bind_eq_ok.2 ⟨(), checkAccess_eq_ok.2 hallowed, ?_⟩
    rw [hsame, ← hspaced]
    rfl
  | tagged tag =>
    refine bind_eq_ok.2 ⟨(), checkAccess_eq_ok.2 hallowed, ?_⟩
    rw [hsame, ordering, show orderingOperator tag = some operator from hop]
    rfl

/-- Membership in a list of one integer shows its decimal text in parentheses. -/
theorem condition_list_integer (hallowed : options.isAllowed name = true)
    (hsame : options.transformer name (.list [.integer n]) = .list [.integer n]) :
    options.condition (.constraint (.comparison name .equal (.list [.integer n]))) =
      .ok (name ++ " IN (" ++ toString n.toInt ++ ")") := by
  refine bind_eq_ok.2 ⟨(), checkAccess_eq_ok.2 hallowed, ?_⟩
  rw [hsame]
  have htext : name ++ " " ++ "" ++ "IN " ++ ("(" ++ toString n.toInt ++ ")") =
      name ++ " IN (" ++ toString n.toInt ++ ")" := by
    simp [← String.toList_inj]
  exact congrArg Except.ok htext

/-! ### All literals -/

/-- What becomes of a literal of the integer `n` in filters that compare `name` with it. -/
structure Exact (name literal : String) (n : Int64) : Prop where
  /-- Wherever the literal stands as a whole, it is the integer. -/
  lexed : ∀ (l : Lexer) (gap rest : List Char), l.rest = gap ++ (literal.toList ++ rest) →
    (∀ c ∈ gap, Text.isBlank c = true) → StopsRun rest →
    l.next = (.ok (some ⟨.integer n, l.line + gap.count '\n'⟩), ⟨rest, l.line + gap.count '\n'⟩)
  scalar : ∀ op blanks, (operatorToken op).Writable →
    (∀ c ∈ blanks.toList, Text.isBlank c = true) →
    Expr.parse (scalarFilter name op blanks literal) =
      .ok (.constraint (.comparison name op (.integer n)))
  list : ∀ op blanks, (operatorToken op).Writable →
    (∀ c ∈ blanks.toList, Text.isBlank c = true) →
    Expr.parse (listFilter name op blanks literal) =
      .ok (.constraint (.comparison name op (.list [.integer n])))
  /-- What is read is shown by the decimal text of the integer. -/
  condition : ∀ (options : Options) op operator, options.isAllowed name = true →
    options.transformer name (.integer n) = .integer n → numberOperator op = some operator →
    options.condition (.constraint (.comparison name op (.integer n))) =
      .ok (name ++ " " ++ operator ++ " " ++ toString n.toInt)
  membership : ∀ options : Options, options.isAllowed name = true →
    options.transformer name (.list [.integer n]) = .list [.integer n] →
    options.condition (.constraint (.comparison name .equal (.list [.integer n]))) =
      .ok (name ++ " IN (" ++ toString n.toInt ++ ")")
  /-- That text is the canonical literal, which is the integer again. -/
  canonical : IsCanonical (toString n.toInt).toList n.toInt
  again : tokenize (toString n.toInt) = .ok [⟨.integer n, 1⟩]

/-- A literal out of range is an error with the literal and its line. -/
structure Refused (name literal : String) : Prop where
  /-- Wherever the literal stands as a whole, it is an error. -/
  lexed : ∀ (l : Lexer) (gap rest : List Char), l.rest = gap ++ (literal.toList ++ rest) →
    (∀ c ∈ gap, Text.isBlank c = true) → StopsRun rest →
    l.next = (.error (.numberOutOfRange literal (l.line + gap.count '\n')),
      ⟨rest, l.line + gap.count '\n'⟩)
  scalar : ∀ op blanks, (operatorToken op).Writable →
    (∀ c ∈ blanks.toList, Text.isBlank c = true) →
    Expr.parse (scalarFilter name op blanks literal) =
      .error (.lexical (.numberOutOfRange literal (1 + blanks.toList.count '\n')))
  list : ∀ op blanks, (operatorToken op).Writable →
    (∀ c ∈ blanks.toList, Text.isBlank c = true) →
    Expr.parse (listFilter name op blanks literal) =
      .error (.lexical (.numberOutOfRange literal (1 + blanks.toList.count '\n')))

variable {w : List Char}

theorem exact_of_readInteger (hname : IsWord name.toList) (hw : IsInteger w)
    (hread : Rule.readInteger w = some n) : Exact name (String.ofList w) n where
  lexed l gap rest hrest hgap hstop := by
    rw [String.toList_ofList] at hrest
    rw [Lexer.next_of_integer hrest hgap hw hstop, hread]
    rfl
  scalar op blanks hop hblanks :=
    parse_of_comparison (v := .integer n) (tokenize_scalar hname hop hblanks hw hread) rfl
      (Nat.zero_le _)
  list op blanks hop hblanks :=
    parse_of_comparison (v := .list (.last (.integer n)))
      (tokenize_list hname hop hblanks hw hread) rfl (show 1 ≤ maxNesting by decide)
  condition options op operator hallowed hsame hop := condition_integer hallowed hsame hop
  membership options hallowed hsame := condition_list_integer hallowed hsame
  canonical := isCanonical_toString n.toInt
  again := Lexer.tokens_of_spells (spells_integer n) 1

theorem refused_of_readInteger (hname : IsWord name.toList) (hw : IsInteger w)
    (hread : Rule.readInteger w = none) : Refused name (String.ofList w) where
  lexed l gap rest hrest hgap hstop := by
    rw [String.toList_ofList] at hrest
    rw [Lexer.next_of_integer hrest hgap hw hstop, hread]
    rfl
  scalar op blanks hop hblanks := by
    -- With the literal `0` the filter is read.
    have hzero := tokenize_scalar (w := ['0']) (n := 0) hname hop hblanks
      (isInteger_toString 0) (by decide)
    have htail : (⟨blanks.toList ++ (w ++ []), 1⟩ : Lexer).Yields [] _ :=
      Lexer.yields_outOfRange hblanks hw hread (by rintro c ⟨⟩)
    rw [List.append_nil] at htail
    exact parse_lexical_of_comparison hname hop (scalarFilter_toList name op blanks w) htail hzero
      rfl (parse_of_comparison (v := .integer 0) hzero rfl (Nat.zero_le _))
  list op blanks hop hblanks := by
    have hzero := tokenize_list (w := ['0']) (n := 0) hname hop hblanks
      (isInteger_toString 0) (by decide)
    have htail : (⟨blanks.toList ++ (w ++ [')']), 1⟩ : Lexer).Yields [] _ :=
      Lexer.yields_outOfRange hblanks hw hread (by rintro c ⟨⟩; decide)
    exact parse_lexical_of_comparison hname hop (listFilter_toList name op blanks w)
      (Lexer.yields_parenthesis (.inl rfl) .leftParen htail) hzero
      rfl (parse_of_comparison (v := .list (.last (.integer 0))) hzero rfl
        (show 1 ≤ maxNesting by decide))

/-- **Integers are exact from filter to query.**  A literal of an optional sign and any number of
digits is the integer that it writes, if that lies in the range of 64 bits with sign, and is shown
by the canonical text of that integer.  Any other literal is an error that shows all of it. -/
theorem integers_exact {name : String} {sign digits : List Char}
    (hname : tokenize name = .ok [⟨.selector name, 1⟩]) (hsign : sign ∈ [[], ['+'], ['-']])
    (hdigits : IsDigits digits) :
    (Fits (signedValue sign digits) → ∃ n : Int64, n.toInt = signedValue sign digits ∧
      Exact name (String.ofList (sign ++ digits)) n) ∧
    (¬ Fits (signedValue sign digits) → Refused name (String.ofList (sign ++ digits))) := by
  have hword : IsWord name.toList :=
    (Lexer.tokens_eq_ok_iff.1 hname).writable _ List.mem_cons_self
  have hw := isInteger_append hsign hdigits
  constructor
  · intro hfits
    obtain ⟨n, hn, hread⟩ := readInteger_of_fits hsign hdigits hfits
    exact ⟨n, hn, exact_of_readInteger hword hw hread⟩
  · intro hfits
    exact refused_of_readInteger hword hw (readInteger_of_not_fits hsign hdigits hfits)

/-- Zeros in front neither change an integer nor bring one into the range. -/
theorem integers_exact_padded :
    tokenize "x" = .ok [⟨.selector "x", 1⟩] ∧ (∃ n : Int64, n.toInt = 7 ∧ Exact "x" "+007" n) ∧
      Refused "x" "-09223372036854775809" := by
  have hword : IsWord ['x'] :=
    ⟨⟨List.cons_ne_nil _ _, List.forall_mem_singleton.2 (by decide)⟩, by decide, by decide,
      by decide⟩
  have hname : tokenize "x" = .ok [⟨.selector "x", 1⟩] :=
    Lexer.tokens_of_spells (spells_selector (show IsWord "x".toList from hword)) 1
  have hseven : IsDigits ['0', '0', '7'] :=
    ⟨List.cons_ne_nil _ _, List.all_eq_true.1 (by decide)⟩
  have hlow : IsDigits ['0', '9', '2', '2', '3', '3', '7', '2', '0', '3', '6', '8', '5', '4', '7',
      '7', '5', '8', '0', '9'] :=
    ⟨List.cons_ne_nil _ _, List.all_eq_true.1 (by decide)⟩
  refine ⟨hname, ?_, ?_⟩
  · exact (integers_exact hname (by decide : ['+'] ∈ _) hseven).1 (by decide)
  · exact (integers_exact hname (by decide : ['-'] ∈ _) hlow).2 (by decide)

end Sql
end Criteria
