import Criteria.Proofs.Sql.WellFormed

/-!
# Reading conditions

A reader for the text of conditions: it cuts the text into symbols and reads these by the grammar
of parenthesised conditions.

**Results.**
* `readCondition_symbols`: the reader takes the symbols of a condition and leaves those behind.
* `read_spell`: reading the text of a well-formed condition gives the condition back.
* `eq_of_spell_eq`: two well-formed conditions with one text are equal.
* `read_condition`: reading the condition for a filter gives its syntax tree.
-/

namespace Criteria
namespace Sql

/-! ### The reader

Each function answers what it has read and the symbols behind it.  The first argument bounds the
number of steps; one for each symbol is enough. -/

def literalOfWord (w : List Char) : Literal :=
  if w = keywordTrue then .boolean true
  else if w = keywordFalse then .boolean false
  else .number (String.ofList w)

mutual

def readLiteral : Nat → List Symbol → Option (Literal × List Symbol)
  | _ + 1, .string s :: rest => some (.text s, rest)
  | _ + 1, .word w :: rest => some (literalOfWord w, rest)
  | _ + 1, .opening :: .closing :: rest => some (.tuple [], rest)
  | n + 1, .opening :: rest =>
      (readItems n rest).map fun (items, rest) => (.tuple items, rest)
  | _, _ => none

/-- Reads the items of a tuple and the parenthesis that closes it. -/
def readItems : Nat → List Symbol → Option (List Literal × List Symbol)
  | 0, _ => none
  | n + 1, ss =>
      match readLiteral n ss with
      | some (v, .comma :: rest) => (readItems n rest).map fun (vs, rest) => (v :: vs, rest)
      | some (v, .closing :: rest) => some ([v], rest)
      | _ => none

end

def comparisonOfSign? (s : List Char) : Option Comparison :=
  if s = ['='] then some .eq
  else if s = ['<', '>'] then some .ne
  else if s = ['<'] then some .lt
  else if s = ['<', '='] then some .le
  else if s = ['>'] then some .gt
  else if s = ['>', '='] then some .ge
  else none

/-- Reads what follows the keyword of a test, which is `LIKE`, `ILIKE` or `IN`. -/
def readTest (n : Nat) (negated : Bool) (column : String) (keyword : List Char) :
    List Symbol → Option (Condition × List Symbol)
  | .string pattern :: rest =>
      if keyword = keywordLike then some (.like negated true column pattern, rest)
      else if keyword = keywordILike then some (.like negated false column pattern, rest)
      else none
  | .opening :: rest =>
      if keyword = keywordIn then
        (readItems n rest).map fun (items, rest) => (.member negated column items, rest)
      else none
  | _ => none

/-- Reads a comparison behind its sign.  Digits in front of the sign make it one of constants. -/
def readComparison (n : Nat) (left : List Char) (op : Comparison) (ss : List Symbol) :
    Option (Condition × List Symbol) :=
  if left.all Char.isDigit then
    match ss with
    | .word right :: rest => some (.constant (String.ofList left) op (String.ofList right), rest)
    | _ => none
  else (readLiteral n ss).map fun (v, rest) => (.compare (String.ofList left) op v, rest)

/-- Reads a condition without combinators. -/
def readLeaf (n : Nat) : List Symbol → Option (Condition × List Symbol)
  | .word lower :: .opening :: .word column :: .closing :: .sign s :: .word lower' :: .opening ::
      .string text :: .closing :: rest =>
      if lower = keywordLower ∧ lower' = keywordLower then
        (comparisonOfSign? s).map fun op => (.compareLower (String.ofList column) op text, rest)
      else none
  | .word left :: .sign s :: rest =>
      (comparisonOfSign? s).bind fun op => readComparison n left op rest
  | .word column :: .word is :: .word not :: .word null :: rest =>
      if is = keywordIs ∧ not = keywordNot ∧ null = keywordNull then
        some (.present (String.ofList column), rest)
      else none
  | .word column :: .word not :: .word keyword :: rest =>
      if not = keywordNot then readTest n true (String.ofList column) keyword rest else none
  | .word column :: .word keyword :: rest => readTest n false (String.ofList column) keyword rest
  | _ => none

def readCondition : Nat → List Symbol → Option (Condition × List Symbol)
  | 0, _ => none
  | n + 1, .opening :: rest =>
      match readCondition n rest with
      | some (l, .word keyword :: rest) =>
          match readCondition n rest with
          | some (r, .closing :: rest) =>
              if keyword = keywordAnd then some (.and l r, rest)
              else if keyword = keywordOr then some (.or l r, rest)
              else none
          | _ => none
      | _ => none
  | n + 1, ss => readLeaf n ss

/-- Reads the text of a condition, all of it. -/
def read (text : List Char) : Option Condition :=
  match symbols text with
  | none => none
  | some ss =>
      match readCondition ss.length ss with
      | some (c, []) => some c
      | _ => none

/-! ### Reading back -/

/-- Symbols without the blanks. -/
def ink (ss : List Symbol) : List Symbol :=
  ss.filter (· ≠ .blank)

section Ink

@[simp] theorem ink_nil : ink [] = [] := rfl

@[simp] theorem ink_append (ss ss' : List Symbol) : ink (ss ++ ss') = ink ss ++ ink ss' :=
  List.filter_append ..

@[simp] theorem ink_cons (s : Symbol) (ss : List Symbol) :
    ink (s :: ss) = if s = .blank then ink ss else s :: ink ss := by
  simp [ink, List.filter_cons]

theorem ink_itemsSymbols_cons_cons (v w : Literal) (rest : List Literal) :
    ink (itemsSymbols (v :: w :: rest)) =
      ink v.symbols ++ .comma :: ink (itemsSymbols (w :: rest)) := by
  simp [itemsSymbols_cons_cons]

theorem ink_and (l r : Condition) :
    ink (Condition.and l r).symbols =
      .opening :: (ink l.symbols ++ .word keywordAnd :: (ink r.symbols ++ [.closing])) := by
  simp [Condition.symbols]

theorem ink_or (l r : Condition) :
    ink (Condition.or l r).symbols =
      .opening :: (ink l.symbols ++ .word keywordOr :: (ink r.symbols ++ [.closing])) := by
  simp [Condition.symbols]

end Ink

/-- No literal starts with a parenthesis that closes. -/
theorem exists_ink_symbols (v : Literal) :
    ∃ s rest, ink v.symbols = s :: rest ∧ s ≠ .closing := by
  cases v with
  | text s => exact ⟨_, _, rfl, by simp⟩
  | number numeral => exact ⟨_, _, rfl, by simp⟩
  | boolean b => exact ⟨_, _, rfl, by simp⟩
  | tuple items => exact ⟨.opening, _, rfl, by simp⟩

theorem exists_ink_items (v : Literal) (rest : List Literal) :
    ∃ s tail, ink (itemsSymbols (v :: rest)) = s :: tail ∧ s ≠ .closing := by
  obtain ⟨s, tail, hs, hne⟩ := exists_ink_symbols v
  cases rest with
  | nil => exact ⟨s, tail, hs, hne⟩
  | cons w rest => exact ⟨s, _, by rw [itemsSymbols_cons_cons, ink_append, hs]; rfl, hne⟩

theorem literalOfWord_numeral {numeral : String} (h : IsNumeral numeral) :
    literalOfWord numeral.toList = .number numeral := by
  have hne {w : List Char} (hw : 'e' ∈ w) : numeral.toList ≠ w := by
    rintro rfl
    exact h.no_e hw
  rw [literalOfWord, if_neg (hne (by simp [keywordTrue])), if_neg (hne (by simp [keywordFalse])),
    String.ofList_toList]

-- One step for each symbol: a tuple spends one on its parenthesis, an item one on its comma.
mutual

theorem readLiteral_symbols : ∀ {v : Literal}, v.WellFormed → ∀ {n : Nat},
    (ink v.symbols).length ≤ n → ∀ rest, readLiteral n (ink v.symbols ++ rest) = some (v, rest)
  | .text _, _, _ + 1, _, _ => rfl
  | .number numeral, h, n + 1, _, rest => by
      have hword : readLiteral (n + 1) (ink (Literal.number numeral).symbols ++ rest) =
          some (literalOfWord numeral.toList, rest) := by
        simp [Literal.symbols, readLiteral]
      rw [hword, literalOfWord_numeral h]
  | .boolean b, _, n + 1, _, rest => by
      cases b <;> simp [Literal.symbols, readLiteral, literalOfWord, keywordTrue, keywordFalse]
  | .tuple [], _, n + 1, _, rest => by simp [Literal.symbols, itemsSymbols, readLiteral]
  | .tuple (v :: vs), h, n + 1, hn, rest => by
      have hlength : (ink (itemsSymbols (v :: vs))).length + 1 ≤ n := by
        simpa [Literal.symbols] using hn
      have hitems := readItems_symbols (v :: vs) h (by simp) hlength rest
      obtain ⟨s, tail, hs, hne⟩ := exists_ink_items v vs
      have hread : readLiteral (n + 1) (.opening :: (ink (itemsSymbols (v :: vs)) ++ .closing :: rest)) =
          (readItems n (ink (itemsSymbols (v :: vs)) ++ .closing :: rest)).map
            fun (items, rest) => (.tuple items, rest) := by
        rw [hs, List.cons_append, readLiteral]
        exact fun _ he => hne (List.cons.inj he).1
      have hsymbols : ink (Literal.tuple (v :: vs)).symbols ++ rest =
          .opening :: (ink (itemsSymbols (v :: vs)) ++ .closing :: rest) := by
        simp [Literal.symbols]
      rw [hsymbols, hread, hitems]
      rfl

theorem readItems_symbols : ∀ (items : List Literal), itemsWellFormed items → items ≠ [] →
    ∀ {n : Nat}, (ink (itemsSymbols items)).length + 1 ≤ n → ∀ rest,
      readItems n (ink (itemsSymbols items) ++ .closing :: rest) = some (items, rest)
  | [], _, h, _, _, _ => absurd rfl h
  | [v], h, _, n + 1, hn, rest => by
      have hv := readLiteral_symbols h.1 (Nat.le_of_succ_le_succ hn) (.closing :: rest)
      rw [readItems, itemsSymbols, hv]
  | v :: w :: vs, h, _, n + 1, hn, rest => by
      rw [ink_itemsSymbols_cons_cons, List.length_append, List.length_cons] at hn
      have hv := readLiteral_symbols h.1 (n := n) (by omega)
        (.comma :: (ink (itemsSymbols (w :: vs)) ++ .closing :: rest))
      have hrest := readItems_symbols (w :: vs) h.2 (by simp) (n := n) (by omega) rest
      rw [ink_itemsSymbols_cons_cons, List.append_assoc, List.cons_append, readItems, hv]
      simp only [hrest, Option.map_some]

end

theorem comparisonOfSign?_sign (op : Comparison) : comparisonOfSign? op.sign = some op := by
  cases op <;> rfl

theorem IsColumn.all_isDigit {name : String} (h : IsColumn name) :
    name.toList.all Char.isDigit = false := by
  obtain ⟨c, hc, hdigit⟩ := h.not_digits
  exact List.all_eq_false.2 ⟨c, hc, by simp [hdigit]⟩

theorem IsConstant.all_isDigit {numeral : String} (h : IsConstant numeral) :
    numeral.toList.all Char.isDigit = true :=
  List.all_eq_true.2 h.digits

/-- A test is read behind its column, negated or not. -/
theorem readLeaf_test (n : Nat) (negated : Bool) (column : String) (keyword : List Char)
    {s : Symbol} (hs : ∀ w, s ≠ .word w) (rest : List Symbol) :
    readLeaf n (.word column.toList :: (ink (negation negated) ++ .word keyword :: s :: rest)) =
      readTest n negated column keyword (s :: rest) := by
  cases negated with
  | false =>
    cases s with
    | word w => exact absurd rfl (hs w)
    | _ => simp [negation, readLeaf]
  | true =>
    cases s with
    | word w => exact absurd rfl (hs w)
    | _ => simp [negation, readLeaf]

theorem readLeaf_symbols {c : Condition} (h : c.WellFormed) (hleaf : c.isLeaf = true) {n : Nat}
    (hn : (ink c.symbols).length ≤ n + 1) (rest : List Symbol) :
    readLeaf n (ink c.symbols ++ rest) = some (c, rest) := by
  cases c with
  | present column => simp [Condition.symbols, readLeaf]
  | compare column op v =>
    have hlength : (ink v.symbols).length ≤ n := by
      simp [Condition.symbols] at hn
      omega
    have hv := readLiteral_symbols h.2 hlength rest
    simp [Condition.symbols, readLeaf, comparisonOfSign?_sign, readComparison, h.1.all_isDigit, hv]
  | compareLower column op s => simp [Condition.symbols, readLeaf, comparisonOfSign?_sign]
  | like negated caseSensitive column pattern =>
    cases caseSensitive with
    | false =>
      have htest := readLeaf_test n negated column keywordILike (s := .string pattern) (by simp) rest
      have hne : keywordILike ≠ keywordLike := by decide
      simp [Condition.symbols, htest, readTest, hne]
    | true =>
      have htest := readLeaf_test n negated column keywordLike (s := .string pattern) (by simp) rest
      simp [Condition.symbols, htest, readTest]
  | member negated column items =>
    have hlength : (ink (itemsSymbols items)).length + 1 ≤ n := by
      simp [Condition.symbols] at hn
      omega
    have hitems := readItems_symbols items h.2.2 h.2.1 hlength rest
    have htest := readLeaf_test n negated column keywordIn (s := .opening) (by simp)
      (ink (itemsSymbols items) ++ .closing :: rest)
    simp [Condition.symbols, htest, readTest, hitems]
  | constant left op right =>
    simp [Condition.symbols, readLeaf, comparisonOfSign?_sign, readComparison, h.1.all_isDigit]
  | and l r => cases hleaf
  | or l r => cases hleaf

/-- A condition that is no combination starts with a word. -/
theorem exists_ink_leaf {c : Condition} (hleaf : c.isLeaf = true) :
    ∃ w rest, ink c.symbols = .word w :: rest := by
  cases c with
  | and l r => cases hleaf
  | or l r => cases hleaf
  | _ => exact ⟨_, _, rfl⟩

theorem readCondition_leaf {c : Condition} (h : c.WellFormed) (hleaf : c.isLeaf = true) {n : Nat}
    (hn : (ink c.symbols).length ≤ n) (rest : List Symbol) :
    readCondition n (ink c.symbols ++ rest) = some (c, rest) := by
  obtain ⟨w, tail, hw⟩ := exists_ink_leaf hleaf
  have hpos : 0 < n := by
    rw [hw, List.length_cons] at hn
    omega
  obtain ⟨m, rfl⟩ := Nat.exists_eq_succ_of_ne_zero (Nat.ne_of_gt hpos)
  rw [← readLeaf_symbols h hleaf hn rest, hw, List.cons_append, readCondition]
  simp

/-- Both sides of a combination are read with the keyword between them. -/
theorem readCondition_combination {l r : Condition} {n : Nat} {rest : List Symbol}
    {keyword : List Char} {left right : List Symbol}
    (hl : readCondition n (left ++ .word keyword :: (right ++ .closing :: rest)) =
      some (l, .word keyword :: (right ++ .closing :: rest)))
    (hr : readCondition n (right ++ .closing :: rest) = some (r, .closing :: rest)) :
    readCondition (n + 1) (.opening :: (left ++ .word keyword :: (right ++ .closing :: rest))) =
      if keyword = keywordAnd then some (.and l r, rest)
      else if keyword = keywordOr then some (.or l r, rest)
      else none := by
  rw [readCondition]
  simp only [hl, hr]

/-- The reader takes the symbols of a condition and leaves those behind. -/
theorem readCondition_symbols {c : Condition} (h : c.WellFormed) {n : Nat}
    (hn : (ink c.symbols).length ≤ n) (rest : List Symbol) :
    readCondition n (ink c.symbols ++ rest) = some (c, rest) := by
  induction c generalizing n rest with
  | and l r ihl ihr =>
    have hsymbols : ink (Condition.and l r).symbols ++ rest =
        .opening :: (ink l.symbols ++ .word keywordAnd :: (ink r.symbols ++ .closing :: rest)) := by
      simp [ink_and]
    have hlength : (ink l.symbols).length + (ink r.symbols).length + 3 ≤ n := by
      simp [ink_and] at hn
      omega
    obtain ⟨m, rfl⟩ : ∃ m, n = m + 1 := ⟨n - 1, by omega⟩
    have hr := ihr h.2 (n := m) (by omega) (.closing :: rest)
    rw [hsymbols, readCondition_combination (ihl h.1 (by omega) _) hr, if_pos rfl]
  | or l r ihl ihr =>
    have hsymbols : ink (Condition.or l r).symbols ++ rest =
        .opening :: (ink l.symbols ++ .word keywordOr :: (ink r.symbols ++ .closing :: rest)) := by
      simp [ink_or]
    have hlength : (ink l.symbols).length + (ink r.symbols).length + 3 ≤ n := by
      simp [ink_or] at hn
      omega
    obtain ⟨m, rfl⟩ : ∃ m, n = m + 1 := ⟨n - 1, by omega⟩
    have hr := ihr h.2 (n := m) (by omega) (.closing :: rest)
    have hne : keywordOr ≠ keywordAnd := by decide
    rw [hsymbols, readCondition_combination (ihl h.1 (by omega) _) hr, if_neg hne, if_pos rfl]
  | _ => exact readCondition_leaf h rfl hn rest

/-- Reading the text of a well-formed condition gives the condition back. -/
theorem read_spell {c : Condition} (h : c.WellFormed) : read (spell c.symbols) = some c := by
  have hread := readCondition_symbols h (Nat.le_refl _) []
  rw [List.append_nil] at hread
  rw [read, symbols_spell h.separated]
  show (match readCondition (ink c.symbols).length (ink c.symbols) with
    | some (c, []) => some c
    | _ => none) = some c
  rw [hread]

/-- Two well-formed conditions with one text are equal. -/
theorem eq_of_spell_eq {c c' : Condition} (h : c.WellFormed) (h' : c'.WellFormed)
    (heq : spell c.symbols = spell c'.symbols) : c = c' := by
  have hread := read_spell h
  rw [heq, read_spell h'] at hread
  exact (Option.some.inj hread).symm

/-- Reading the condition for a filter gives the syntax tree of that filter, if its selectors are
names. -/
theorem read_condition {options : Options} {e : Expr} {w : String}
    (hnames : ∀ leaf ∈ e.constraints, Token.IsName leaf.selector)
    (hw : options.condition e = .ok w) :
    ∃ c, compile options e = some c ∧ read w.toList = some c := by
  obtain ⟨c, hc, htext⟩ := condition_eq_ok hw
  exact ⟨c, hc, by rw [htext, read_spell (wellFormed_of_compile hnames hc)]⟩

end Sql
end Criteria
