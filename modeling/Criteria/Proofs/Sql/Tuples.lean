import Criteria.Proofs.Sql.Meaning
import Criteria.Proofs.Sql.Refusal

/-!
# Tuples without items

SQL has no tuple without items.  The condition for a comparison with the empty list is therefore a
constant one.  An empty list among the items of another list, however, is written as it stands.

**Results.**
* `filled_condition`: the text of a condition holds `()` exactly if a tuple of it has no items.
* `compileConstraint_tuples_ne_nil`: which constraints bring such a tuple.
* `tuples_filled`: the condition for a filter holds `()` exactly if an equality compares with a list
  that has an empty list inside; comparisons with the empty list itself are constant.
* `nested_empty_tuple`: a filter with `()` in its condition.
-/

namespace Criteria
namespace Sql

/-! ### Parentheses around nothing -/

/-- No parenthesis is closed directly behind the place where it opens. -/
def Filled (ss : List Symbol) : Prop :=
  ss.IsChain fun s t => ¬ (s = .opening ∧ t = .closing)

/-- The symbols do not start with a closing parenthesis, nor end with an opening one. -/
structure Guarded (ss : List Symbol) : Prop where
  head : ss.head? ≠ some .closing
  last : ss.getLast? ≠ some .opening

section Filled

variable {s : Symbol} {ss ss' : List Symbol}

theorem filled_append (h : ss.getLast? ≠ some .opening ∨ ss'.head? ≠ some .closing) :
    Filled (ss ++ ss') ↔ Filled ss ∧ Filled ss' := by
  rw [Filled, List.isChain_append]
  refine and_congr_right fun _ => and_iff_left ?_
  rintro s hs t ht ⟨rfl, rfl⟩
  exact h.elim (· hs) (· ht)

theorem filled_cons (hs : s ≠ .opening) : Filled (s :: ss) ↔ Filled ss := by
  have happend : Filled ([s] ++ ss) ↔ Filled [s] ∧ Filled ss :=
    filled_append (.inl (by simpa using hs))
  rw [← List.singleton_append, happend]
  exact and_iff_right (List.isChain_singleton s)

/-- What stands between two sequences does not join their parentheses. -/
theorem filled_append_cons (hopening : s ≠ .opening) (hclosing : s ≠ .closing) :
    Filled (ss ++ s :: ss') ↔ Filled ss ∧ Filled ss' := by
  rw [filled_append (.inr (by simpa using hclosing)), filled_cons hopening]

/-- Parentheses around something add no empty pair. -/
theorem filled_parentheses (h : Guarded ss) (hne : ss ≠ []) :
    Filled (.opening :: (ss ++ [.closing])) ↔ Filled ss := by
  have hhead : (ss ++ [Symbol.closing]).head? ≠ some .closing := by
    rw [List.head?_append_of_ne_nil _ hne]
    exact h.head
  have hopen : Filled ([.opening] ++ (ss ++ [.closing])) ↔ _ := filled_append (.inr hhead)
  rw [← List.singleton_append, hopen, filled_append (.inl h.last)]
  exact (and_iff_right (List.isChain_singleton _)).trans
    (and_iff_left (List.isChain_singleton _))

theorem Guarded.append_cons (h : Guarded ss) (h' : Guarded ss') (hclosing : s ≠ .closing)
    (hopening : s ≠ .opening) : Guarded (ss ++ s :: ss') := by
  constructor
  · cases ss with
    | nil => simpa using hclosing
    | cons t ss => simpa using h.head
  · rw [List.getLast?_append, List.getLast?_cons]
    cases hlast : ss'.getLast? with
    | none => simpa using hopening
    | some t => simpa [hlast] using h'.last

theorem Guarded.cons (h : Guarded ss) (hclosing : s ≠ .closing) (hopening : s ≠ .opening) :
    Guarded (s :: ss) := by
  have hnil : Guarded [] := ⟨by simp, by simp⟩
  exact hnil.append_cons h hclosing hopening

theorem guarded_parentheses (ss : List Symbol) : Guarded (.opening :: (ss ++ [.closing])) := by
  constructor
  · simp
  · rw [← List.cons_append, List.getLast?_concat]
    simp

end Filled

/-! ### The tuples of a condition -/

mutual

/-- The tuples in a literal, at every depth. -/
def Literal.tuples : Literal → List (List Literal)
  | .tuple items => items :: itemsTuples items
  | .text _ | .number _ | .boolean _ => []

/-- The tuples in the items of a tuple. -/
def itemsTuples : List Literal → List (List Literal)
  | [] => []
  | v :: rest => v.tuples ++ itemsTuples rest

end

/-- The tuples in a condition, at every depth. -/
def Condition.tuples : Condition → List (List Literal)
  | .compare _ _ v => v.tuples
  | .member _ _ items => items :: itemsTuples items
  | .and l r | .or l r => l.tuples ++ r.tuples
  | .present _ | .compareLower _ _ _ | .like _ _ _ _ | .constant _ _ _ => []

theorem guarded_literal (v : Literal) : Guarded (ink v.symbols) := by
  cases v with
  | tuple items => simpa [Literal.symbols] using guarded_parentheses (ink (itemsSymbols items))
  | _ => constructor <;> simp [Literal.symbols]

theorem guarded_items (v : Literal) (rest : List Literal) :
    Guarded (ink (itemsSymbols (v :: rest))) := by
  induction rest generalizing v with
  | nil => exact guarded_literal v
  | cons w rest ih =>
    rw [ink_itemsSymbols_cons_cons]
    exact (guarded_literal v).append_cons (ih w) (by simp) (by simp)

mutual

theorem filled_literal : ∀ v : Literal, Filled (ink v.symbols) ↔ ∀ t ∈ v.tuples, t ≠ []
  | .tuple items => by
      have hitems := filled_tuple items
      simpa [Literal.symbols, Literal.tuples] using hitems
  | .text s => by simp [Literal.symbols, Literal.tuples, Filled]
  | .number numeral => by simp [Literal.symbols, Literal.tuples, Filled]
  | .boolean b => by simp [Literal.symbols, Literal.tuples, Filled]

theorem filled_items : ∀ items : List Literal,
    Filled (ink (itemsSymbols items)) ↔ ∀ t ∈ itemsTuples items, t ≠ []
  | [] => by simp [itemsSymbols, itemsTuples, Filled]
  | [v] => by
      have hv := filled_literal v
      simpa [itemsSymbols, itemsTuples] using hv
  | v :: w :: rest => by
      have htuples : itemsTuples (v :: w :: rest) = v.tuples ++ itemsTuples (w :: rest) := rfl
      rw [ink_itemsSymbols_cons_cons, filled_append_cons (by simp) (by simp), filled_literal v,
        filled_items (w :: rest), htuples, List.forall_mem_append]

/-- A tuple is written with its parentheses around its items. -/
theorem filled_tuple : ∀ items : List Literal,
    Filled (.opening :: (ink (itemsSymbols items) ++ [.closing])) ↔
      ∀ t ∈ items :: itemsTuples items, t ≠ []
  | [] => by simp [itemsSymbols, Filled]
  | v :: rest => by
      obtain ⟨s, tail, hs, -⟩ := exists_ink_items v rest
      rw [filled_parentheses (guarded_items v rest) (by simp [hs]), filled_items (v :: rest),
        List.forall_mem_cons]
      exact (and_iff_right (List.cons_ne_nil v rest)).symm

end

/-- A condition neither starts with a closing parenthesis nor ends with an opening one. -/
theorem guarded_condition (c : Condition) : Guarded (ink c.symbols) := by
  cases c with
  | compare column op v =>
    have hv := guarded_literal v
    simpa [Condition.symbols] using (hv.cons (by simp) (by simp)).cons (by simp) (by simp)
  | and l r =>
    have h := guarded_parentheses (ink l.symbols ++ .word keywordAnd :: ink r.symbols)
    simpa [ink_and] using h
  | or l r =>
    have h := guarded_parentheses (ink l.symbols ++ .word keywordOr :: ink r.symbols)
    simpa [ink_or] using h
  | member negated column items =>
    have h := guarded_parentheses (ink (itemsSymbols items))
    have hin := h.cons (s := .word keywordIn) (by simp) (by simp)
    cases negated with
    | false => simpa [Condition.symbols, negation] using hin.cons (by simp) (by simp)
    | true =>
      have hnot := hin.cons (s := .word keywordNot) (by simp) (by simp)
      simpa [Condition.symbols, negation] using hnot.cons (by simp) (by simp)
  | like negated caseSensitive column pattern =>
    cases negated <;> constructor <;> simp [Condition.symbols, negation]
  | _ => constructor <;> simp [Condition.symbols]

/-- Both sides of a combination stand in one pair of parentheses. -/
theorem filled_combination (l r : Condition) (keyword : List Char) :
    Filled (.opening :: (ink l.symbols ++ .word keyword :: (ink r.symbols ++ [.closing]))) ↔
      Filled (ink l.symbols) ∧ Filled (ink r.symbols) := by
  have hguarded : Guarded (ink l.symbols ++ .word keyword :: ink r.symbols) :=
    (guarded_condition l).append_cons (guarded_condition r) (by simp) (by simp)
  have hfilled := filled_parentheses hguarded (by simp)
  rw [List.append_assoc, List.cons_append] at hfilled
  rw [hfilled, filled_append_cons (by simp) (by simp)]

/-- The text of a condition holds no empty pair of parentheses exactly if its tuples have items. -/
theorem filled_condition (c : Condition) : Filled (ink c.symbols) ↔ ∀ t ∈ c.tuples, t ≠ [] := by
  induction c with
  | compare column op v =>
    have hv := filled_literal v
    simpa [Condition.symbols, Condition.tuples, filled_cons] using hv
  | member negated column items =>
    have hitems := filled_tuple items
    cases negated <;>
      simpa [Condition.symbols, Condition.tuples, negation, filled_cons] using hitems
  | and l r ihl ihr =>
    rw [ink_and, filled_combination, ihl, ihr, Condition.tuples, List.forall_mem_append]
  | or l r ihl ihr =>
    rw [ink_or, filled_combination, ihl, ihr, Condition.tuples, List.forall_mem_append]
  | like negated caseSensitive column pattern =>
    cases negated <;> simp [Condition.symbols, Condition.tuples, negation, Filled]
  | _ => simp [Condition.symbols, Condition.tuples, Filled]

/-! ### The lists of a filter -/

mutual

/-- The lists in a value, itself among them, at every depth. -/
def valueLists : Value → List (List Value)
  | .list items => items :: listsWithin items
  | .text _ | .integer _ | .float _ | .boolean _ => []

/-- The lists in the items of a list. -/
def listsWithin : List Value → List (List Value)
  | [] => []
  | v :: rest => valueLists v ++ listsWithin rest

end

/-- An equality compares with a list, and the items of that list hold an empty list. -/
def NestsEmptyList : Constraint → Prop
  | .comparison _ .equal (.list items) | .comparison _ .notEqual (.list items) =>
      [] ∈ listsWithin items
  | _ => False

mutual

/-- Each list becomes one tuple. -/
theorem tuples_valueLiteral : ∀ v : Value,
    (valueLiteral v).tuples = (valueLists v).map valueLiterals
  | .list items => by
      rw [valueLiteral, Literal.tuples, itemsTuples_valueLiterals items, valueLists, List.map_cons]
  | .text s => by simp [valueLiteral, Literal.tuples, valueLists]
  | .integer n => by simp [valueLiteral, Literal.tuples, valueLists]
  | .float x => by simp [valueLiteral, Literal.tuples, valueLists]
  | .boolean b => by simp [valueLiteral, Literal.tuples, valueLists]

theorem itemsTuples_valueLiterals : ∀ items : List Value,
    itemsTuples (valueLiterals items) = (listsWithin items).map valueLiterals
  | [] => rfl
  | v :: rest => by
      rw [valueLiterals, itemsTuples, tuples_valueLiteral v, itemsTuples_valueLiterals rest,
        listsWithin, List.map_append]

end

theorem valueLiterals_eq_nil {items : List Value} : valueLiterals items = [] ↔ items = [] := by
  cases items <;> simp [valueLiterals]

theorem forall_itemsTuples_ne_nil {items : List Value} :
    (∀ t ∈ itemsTuples (valueLiterals items), t ≠ []) ↔ [] ∉ listsWithin items := by
  simp only [itemsTuples_valueLiterals, List.forall_mem_map, ne_eq, valueLiterals_eq_nil]
  exact List.forall_mem_ne'

section Filters

variable {options : Options}

/-- The list of an equality is replaced if it is empty, but not the lists inside. -/
theorem compileEquality_tuples_ne_nil (caseSensitive negated : Bool) (name : String) (v : Value) :
    (∀ t ∈ (compileEquality caseSensitive negated name v).tuples, t ≠ []) ↔
      ∀ items, v = .list items → [] ∉ listsWithin items := by
  cases v with
  | text s =>
    rw [compileEquality]
    split_ifs <;> simp [Condition.tuples, Literal.tuples]
  | list items =>
    cases items with
    | nil => simp [compileEquality, Condition.tuples, listsWithin]
    | cons v vs =>
      have hne : valueLiterals (v :: vs) ≠ [] := by simp [valueLiterals]
      have htuples : (compileEquality caseSensitive negated name (.list (v :: vs))).tuples =
          valueLiterals (v :: vs) :: itemsTuples (valueLiterals (v :: vs)) := rfl
      rw [htuples, List.forall_mem_cons, forall_itemsTuples_ne_nil]
      simp [hne]
  | _ => simp [compileEquality, Condition.tuples, valueLiteral, Literal.tuples]

/-- Which constraints bring a tuple without items. -/
theorem compileConstraint_tuples_ne_nil (h : options.Verbatim) {leaf : Constraint}
    (haccepts : options.Accepts leaf) {c : Condition} (hc : compileConstraint options leaf = some c) :
    (∀ t ∈ c.tuples, t ≠ []) ↔ ¬ NestsEmptyList leaf := by
  obtain ⟨name, rfl, rfl⟩ | ⟨name, op, v, hop, rfl, rfl⟩ | ⟨name, tag, v, op, rfl, -, rfl⟩ :=
    compileConstraint_cases hc
  · simp [Condition.tuples, NestsEmptyList]
  · rw [h, compileEquality_tuples_ne_nil]
    cases v with
    | list items => rcases hop with rfl | rfl <;> simp [NestsEmptyList]
    | _ => rcases hop with rfl | rfl <;> simp [NestsEmptyList]
  · -- An ordering with a list has no condition.
    have horderable := haccepts.2.2
    rw [h] at horderable ⊢
    cases v with
    | list items => cases horderable
    | _ => simp [Condition.tuples, valueLiteral, Literal.tuples, NestsEmptyList]

theorem compile_tuples_ne_nil (h : options.Verbatim) {e : Expr}
    (haccepts : ∀ leaf ∈ e.constraints, options.Accepts leaf) {c : Condition}
    (hc : compile options e = some c) :
    (∀ t ∈ c.tuples, t ≠ []) ↔ ∀ leaf ∈ e.constraints, ¬ NestsEmptyList leaf := by
  induction e generalizing c with
  | constraint leaf =>
    rw [Expr.constraints, List.forall_mem_singleton] at haccepts ⊢
    exact compileConstraint_tuples_ne_nil h haccepts hc
  | and l r ihl ihr =>
    obtain ⟨cl, cr, hl, hr, rfl⟩ := compile_and_eq_some.1 hc
    rw [Expr.constraints, List.forall_mem_append] at haccepts ⊢
    rw [Condition.tuples, List.forall_mem_append, ihl haccepts.1 hl, ihr haccepts.2 hr]
  | or l r ihl ihr =>
    obtain ⟨cl, cr, hl, hr, rfl⟩ := compile_or_eq_some.1 hc
    rw [Expr.constraints, List.forall_mem_append] at haccepts ⊢
    rw [Condition.tuples, List.forall_mem_append, ihl haccepts.1 hl, ihr haccepts.2 hr]

/-- **Tuples are filled unless an empty list is nested.**  For a filter that has been read, the
condition holds `()` exactly if one of its equalities compares with a list that has an empty list
inside, at any depth.  Comparisons with the empty list itself have a text of their own: a condition
that is never true, or, for inequalities, always true. -/
theorem tuples_filled {text w : String} {e : Expr} (hparse : Expr.parse text = .ok e)
    (h : options.Verbatim) (hw : options.condition e = .ok w) :
    ∃ ss c texts, symbols w.toList = some ss ∧ read w.toList = some c ∧
      (Filled ss ↔ ∀ t ∈ c.tuples, t ≠ []) ∧
      (Filled ss ↔ ∀ leaf ∈ e.constraints, ¬ NestsEmptyList leaf) ∧
      (∀ leaf ∈ e.constraints, options.condition (.constraint leaf) = .ok (texts leaf)) ∧
      w = e.arrange texts ∧
      ∀ name op, IsEquality op → .comparison name op (.list []) ∈ e.constraints →
        ∃ leaf, read (texts (.comparison name op (.list []))).toList = some leaf ∧
          ∀ (D : Type) (K : Comparisons D) (row : Row D),
            leaf.evaluate K row = some (decide (op = .notEqual)) := by
  have hnames : ∀ leaf ∈ e.constraints, Token.IsName leaf.selector :=
    fun leaf hleaf => Expr.parse_isName hparse hleaf
  obtain ⟨c, hc, htext⟩ := condition_eq_ok hw
  have hwf := wellFormed_of_compile hnames hc
  have hsymbols : symbols w.toList = some (ink c.symbols) := by
    rw [htext, symbols_spell hwf.separated]
    rfl
  obtain ⟨texts, htexts, harrange⟩ := condition_eq_ok_iff.1 hw
  have haccepts := exists_condition_iff.1 ⟨w, hw⟩
  refine ⟨ink c.symbols, c, texts, hsymbols, by rw [htext, read_spell hwf], filled_condition c,
    (filled_condition c).trans (compile_tuples_ne_nil h haccepts hc), htexts, harrange, ?_⟩
  intro name op hop hleaf
  have hleafName : ∀ leaf ∈ (Expr.constraint (.comparison name op (.list []))).constraints,
      Token.IsName leaf.selector := by
    rw [Expr.constraints, List.forall_mem_singleton]
    exact hnames _ hleaf
  obtain ⟨leaf, hcompile, hread⟩ := read_condition hleafName (htexts _ hleaf)
  rw [compile, compileConstraint_equality hop, h, Option.some.injEq] at hcompile
  exact ⟨leaf, hread, fun D K row => by rw [← hcompile, evaluate_empty_list]⟩

/-- A list with a list inside, and an empty one beside them: no tuple lacks items. -/
theorem tuples_filled_nested :
    ∃ ss, symbols "(a IN (1, ('b')) AND 1 = 1)".toList = some ss ∧ Filled ss := by
  have hparse : Expr.parse "a==(1,(b));c!=()" = .ok (.and
      (.constraint (.comparison "a" .equal (.list [.integer 1, .list [.text "b"]])))
      (.constraint (.comparison "c" .notEqual (.list [])))) := by
    decide +kernel
  have hw : ({} : Options).condition (.and
      (.constraint (.comparison "a" .equal (.list [.integer 1, .list [.text "b"]])))
      (.constraint (.comparison "c" .notEqual (.list [])))) =
        .ok "(a IN (1, ('b')) AND 1 = 1)" := by
    decide +kernel
  obtain ⟨ss, -, -, hss, -, -, hfilled, -⟩ := tuples_filled hparse (fun _ _ => rfl) hw
  refine ⟨ss, hss, hfilled.2 ?_⟩
  simp [Expr.constraints, NestsEmptyList, listsWithin, valueLists]

/-- The condition for `x==(())` has a tuple without items inside its tuple. -/
theorem nested_empty_tuple :
    ∃ e ss, Expr.parse "x==(())" = .ok e ∧ ({} : Options).condition e = .ok "x IN (())" ∧
      symbols "x IN (())".toList = some ss ∧ ¬ Filled ss := by
  refine ⟨.constraint (.comparison "x" .equal (.list [.list []])),
    [.word ['x'], .word keywordIn, .opening, .opening, .closing, .closing], ?_, ?_, ?_, ?_⟩
  · decide +kernel
  · decide +kernel
  · decide +kernel
  · simp [Filled]

end Filters

end Sql
end Criteria
