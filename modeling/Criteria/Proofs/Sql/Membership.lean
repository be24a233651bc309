import Criteria.Proofs.Sql.Meaning

/-!
# Lists and their items

A comparison with a list beside the comparisons with its items, one by one.  The items of a list are
compared as they stand, also where texts are otherwise compared without regard to case.

**Results.**
* `evaluate_list` and `evaluate_itemwise`: both ask whether the value of the column equals one of
  the items.
* `list_means_items`: a list means what its items mean one by one with regard to case, and what they
  mean in the mode of the options exactly if that mode regards case, or no item is a text.
* `list_regards_case`: without regard to case, a list and its items differ.
-/

namespace Criteria
namespace Sql

/-! ### The two filters -/

/-- A scalar that is no pattern. -/
def IsItem : Value → Prop
  | .text s => isPattern s = false
  | .list _ => False
  | .integer _ | .float _ | .boolean _ => True

/-- A comparison by `==`, or by `!=` if negated. -/
def equalityFilter (negated : Bool) (name : String) (v : Value) : Expr :=
  .constraint (.comparison name (if negated then .notEqual else .equal) v)

/-- The comparisons with the values one by one, of which one has to hold, or all if negated, nested
as they are read. -/
def itemwise (negated : Bool) (name : String) : Value → List Value → Expr
  | v, [] => equalityFilter negated name v
  | v, w :: rest =>
      if negated then .and (equalityFilter negated name v) (itemwise negated name w rest)
      else .or (equalityFilter negated name v) (itemwise negated name w rest)

/-- The filter has a condition, whose text is read as `c`. -/
def Options.Reads (options : Options) (e : Expr) (c : Condition) : Prop :=
  ∃ w, options.condition e = .ok w ∧ read w.toList = some c

/-- The options with regard to case. -/
def Options.withCase (options : Options) : Options :=
  { options with caseSensitive := true }

section Filters

variable {options : Options} {negated : Bool} {name : String} {v : Value} {vs : List Value}

/-- An equality or an inequality of the selector. -/
def IsEqualityOf (name : String) (leaf : Constraint) : Prop :=
  ∃ op v, IsEquality op ∧ leaf = .comparison name op v

theorem isEqualityOf_equalityFilter :
    ∀ leaf ∈ (equalityFilter negated name v).constraints, IsEqualityOf name leaf := by
  intro leaf hleaf
  obtain rfl := List.mem_singleton.1 hleaf
  cases negated
  · exact ⟨_, v, .inl rfl, rfl⟩
  · exact ⟨_, v, .inr rfl, rfl⟩

theorem isEqualityOf_itemwise :
    ∀ leaf ∈ (itemwise negated name v vs).constraints, IsEqualityOf name leaf := by
  induction vs generalizing v with
  | nil => exact isEqualityOf_equalityFilter
  | cons w rest ih =>
    cases negated
    · exact List.forall_mem_append.2 ⟨isEqualityOf_equalityFilter, ih⟩
    · exact List.forall_mem_append.2 ⟨isEqualityOf_equalityFilter, ih⟩

/-- Equalities of a name have a condition if that name may be used. -/
theorem Options.exists_reads (options : Options) (e : Expr) (hname : Token.IsName name)
    (hallowed : options.isAllowed name = true)
    (he : ∀ leaf ∈ e.constraints, IsEqualityOf name leaf) :
    ∃ c, compile options e = some c ∧ options.Reads e c := by
  have haccepts : ∀ leaf ∈ e.constraints, options.Accepts leaf := by
    intro leaf hleaf
    obtain ⟨op, v, rfl | rfl, rfl⟩ := he leaf hleaf
    · exact hallowed
    · exact hallowed
  have hnames : ∀ leaf ∈ e.constraints, Token.IsName leaf.selector := by
    intro leaf hleaf
    obtain ⟨op, v, -, rfl⟩ := he leaf hleaf
    exact hname
  obtain ⟨w, hw⟩ := exists_condition_iff.2 haccepts
  obtain ⟨c, hc, hread⟩ := read_condition hnames hw
  exact ⟨c, hc, w, hw, hread⟩

theorem compile_equalityFilter (h : options.Verbatim) :
    compile options (equalityFilter negated name v) =
      some (compileEquality options.caseSensitive negated name v) := by
  cases negated <;> simp [equalityFilter, compile, compileConstraint, h name v]

end Filters

/-! ### What they say about a row -/

section Rows

variable {D : Type} {K : Comparisons D} {row : Row D} {d : D} {options : Options}
  {caseSensitive negated : Bool} {name : String} {v : Value} {vs : List Value}

/-- Whether the value of a column equals an item, with or without regard to the case of texts. -/
def equalsItem (caseSensitive : Bool) (K : Comparisons D) (d : D) : Value → Bool
  | .text s =>
      if caseSensitive then K.equal d (.text s) else K.equal (K.lower d) (.text (lowerText s))
  | v => (valueScalar? v).any (K.equal d)

theorem IsItem.plainValue (h : IsItem v) : PlainValue v := by
  cases v with
  | text s =>
    intro hs
    exact absurd hs (by simp [show isPattern s = false from h])
  | list items => cases h
  | _ => trivial

theorem IsItem.equalityHolds_iff (h : IsItem v) :
    EqualityHolds K d v ↔ equalsItem true K d v = true := by
  cases v with
  | text s => simp [EqualityHolds, equalsItem, show isPattern s = false from h]
  | list items => cases h
  | _ => simp [EqualityHolds, equalsItem, valueScalar?]

theorem IsItem.exists_scalar_iff (h : IsItem v) :
    (∃ s, valueScalar? v = some s ∧ K.equal d s = true) ↔ equalsItem true K d v = true := by
  cases v with
  | list items => cases h
  | _ => simp [equalsItem, valueScalar?]

/-- The condition for an item tells whether the value of the column equals the item. -/
theorem evaluate_item (h : IsItem v) (hrow : row name = some d) :
    (compileEquality caseSensitive negated name v).evaluate K row =
      some (negated != equalsItem caseSensitive K d v) := by
  have hcase : (compileEquality true negated name v).evaluate K row =
      some (negated != equalsItem true K d v) := by
    obtain ⟨b, hb, hholds⟩ := evaluate_compileEquality (K := K) negated hrow h.plainValue
    rw [hb, Bool.eq_iff_iff.2 (hholds.trans h.equalityHolds_iff)]
  cases caseSensitive with
  | true => exact hcase
  | false =>
    cases v with
    | text s =>
      simp [compileEquality, show isPattern s = false from h, Condition.evaluate, hrow,
        compare_equalityOperator, equalsItem]
    | list items => cases h
    | _ => exact hcase

/-- The condition for a list tells whether the value of the column equals one of the items, always
with regard to case. -/
theorem evaluate_list (h : ∀ item ∈ v :: vs, IsItem item) (hrow : row name = some d) :
    (compileEquality caseSensitive negated name (.list (v :: vs))).evaluate K row =
      some (negated != (v :: vs).any (equalsItem true K d)) := by
  have hplain : PlainValue (.list (v :: vs)) := by
    intro item hitem
    have hscalar := h item hitem
    cases item with
    | list items => cases hscalar
    | _ => rfl
  obtain ⟨b, hb, hholds⟩ := evaluate_compileEquality (K := K) negated hrow hplain
  have hany : b = (v :: vs).any (equalsItem true K d) := by
    rw [Bool.eq_iff_iff, hholds, EqualityHolds, List.any_eq_true]
    exact exists_congr fun item => and_congr_right fun hitem => (h item hitem).exists_scalar_iff
  rw [← hany]
  exact hb

/-- The condition for the items one by one tells whether the value of the column equals one of
them, in the mode of the options. -/
theorem evaluate_itemwise (hverbatim : options.Verbatim) (h : ∀ item ∈ v :: vs, IsItem item)
    (hrow : row name = some d) {c : Condition}
    (hc : compile options (itemwise negated name v vs) = some c) :
    c.evaluate K row = some (negated != (v :: vs).any (equalsItem options.caseSensitive K d)) := by
  induction vs generalizing v c with
  | nil =>
    rw [itemwise, compile_equalityFilter hverbatim, Option.some.injEq] at hc
    rw [← hc, evaluate_item (h v List.mem_cons_self) hrow]
    simp
  | cons w rest ih =>
    obtain ⟨hv, hrest⟩ := List.forall_mem_cons.1 h
    have hany : (v :: w :: rest).any (equalsItem options.caseSensitive K d) =
        (equalsItem options.caseSensitive K d v ||
          (w :: rest).any (equalsItem options.caseSensitive K d)) := List.any_cons
    cases negated with
    | false =>
      obtain ⟨cl, cr, hl, hr, rfl⟩ := compile_or_eq_some.1 hc
      rw [compile_equalityFilter hverbatim, Option.some.injEq] at hl
      rw [Condition.evaluate, ← hl, evaluate_item hv hrow, ih hrest hr, disjunction_some, hany]
      simp
    | true =>
      obtain ⟨cl, cr, hl, hr, rfl⟩ := compile_and_eq_some.1 hc
      rw [compile_equalityFilter hverbatim, Option.some.injEq] at hl
      rw [Condition.evaluate, ← hl, evaluate_item hv hrow, ih hrest hr, conjunction_some, hany]
      simp

end Rows

/-! ### When they agree -/

/-- The lower case of a value has the text of the value in lower case. -/
def Comparisons.LowersText {D : Type} (K : Comparisons D) : Prop :=
  ∀ d, K.text (K.lower d) = lowerText (K.text d)

/-- Two conditions are true of the same rows, among those with a value for the column. -/
def SameRows (column : String) (c c' : Condition) : Prop :=
  ∀ (D : Type) (K : Comparisons D) (row : Row D), K.LowersText → row column ≠ none →
    (c.evaluate K row = some true ↔ c'.evaluate K row = some true)

/-- Texts of which `A` equals nothing, and all others everything. -/
def aloofComparisons : Comparisons String where
  equal d _ := d ≠ "A"
  less _ _ := false
  greater _ _ := false
  text d := d
  lower := lowerText

theorem equalsItem_aloof (v : Value) : equalsItem true aloofComparisons "A" v = false := by
  cases v with
  | list items => rfl
  | _ => simp [equalsItem, valueScalar?, aloofComparisons]

theorem equalsItem_aloof_lower (s : String) :
    equalsItem false aloofComparisons "A" (.text s) = true := by
  have hlower : lowerText "A" ≠ "A" := by decide
  simp [equalsItem, aloofComparisons, hlower]

section Agreement

variable {options : Options} {negated : Bool} {name : String} {v : Value} {vs : List Value}

/-- Without regard to case, the items one by one make a difference as soon as one is a text. -/
theorem not_sameRows_of_text {c c' : Condition} (hcase : options.caseSensitive = false)
    (hverbatim : options.Verbatim) (h : ∀ item ∈ v :: vs, IsItem item)
    (hc : compile options (equalityFilter negated name (.list (v :: vs))) = some c)
    (hc' : compile options (itemwise negated name v vs) = some c') {s : String}
    (hs : .text s ∈ v :: vs) : ¬ SameRows name c c' := by
  intro hsame
  let row : Row String := fun _ => some "A"
  have hrow : row name = some "A" := rfl
  rw [compile_equalityFilter hverbatim, Option.some.injEq] at hc
  have hagree := hsame String aloofComparisons row (fun _ => rfl) (by simp [hrow])
  have hlist : (v :: vs).any (equalsItem true aloofComparisons "A") = false :=
    List.any_eq_false.2 fun item _ => by simp [equalsItem_aloof]
  have hitems : (v :: vs).any (equalsItem false aloofComparisons "A") = true :=
    List.any_eq_true.2 ⟨_, hs, equalsItem_aloof_lower s⟩
  rw [← hc, evaluate_list h hrow, evaluate_itemwise hverbatim h hrow hc', hcase, hlist,
    hitems] at hagree
  cases negated <;> simp at hagree

/-- Without texts, case makes no difference. -/
theorem any_equalsItem_of_not_text {D : Type} (K : Comparisons D) (d : D)
    (h : ∀ item ∈ v :: vs, item.isText = false) (caseSensitive : Bool) :
    (v :: vs).any (equalsItem caseSensitive K d) = (v :: vs).any (equalsItem true K d) := by
  rw [Bool.eq_iff_iff, List.any_eq_true, List.any_eq_true]
  refine exists_congr fun item => and_congr_right fun hitem => ?_
  have htext := h item hitem
  cases item with
  | text s => cases htext
  | _ => rfl

/-- **A list means its items, with regard to case.**  A comparison with a list of scalars, none of
them a pattern, is true of the same rows as the comparisons with its items, joined by `or` or, if
negated, by `and`, and made with regard to case.  So in the mode of the options both are true of the
same rows exactly if that mode regards case, or if no item is a text. -/
theorem list_means_items (hverbatim : options.Verbatim) (hname : Token.IsName name)
    (hallowed : options.isAllowed name = true) (h : ∀ item ∈ v :: vs, IsItem item) :
    ∃ c c' c'', options.Reads (equalityFilter negated name (.list (v :: vs))) c ∧
      options.Reads (itemwise negated name v vs) c' ∧
      options.withCase.Reads (itemwise negated name v vs) c'' ∧ SameRows name c c'' ∧
      (SameRows name c c' ↔
        options.caseSensitive = true ∨ ∀ item ∈ v :: vs, item.isText = false) := by
  obtain ⟨c, hc, hreads⟩ := options.exists_reads (equalityFilter negated name (.list (v :: vs)))
    hname hallowed isEqualityOf_equalityFilter
  obtain ⟨c', hc', hreads'⟩ := options.exists_reads (itemwise negated name v vs)
    hname hallowed isEqualityOf_itemwise
  obtain ⟨c'', hc'', hreads''⟩ := options.withCase.exists_reads (itemwise negated name v vs)
    hname hallowed isEqualityOf_itemwise
  have hlist {D : Type} (K : Comparisons D) {row : Row D} {d : D} (hrow : row name = some d) :
      c.evaluate K row = some (negated != (v :: vs).any (equalsItem true K d)) := by
    have hcondition := hc
    rw [compile_equalityFilter hverbatim, Option.some.injEq] at hcondition
    rw [← hcondition, evaluate_list h hrow]
  refine ⟨c, c', c'', hreads, hreads', hreads'', ?_, ?_, ?_⟩
  · intro D K row _ hrow
    obtain ⟨d, hd⟩ := Option.ne_none_iff_exists'.1 hrow
    have hverbatim' : options.withCase.Verbatim := hverbatim
    rw [hlist K hd, evaluate_itemwise hverbatim' h hd hc'']
    rfl
  · intro hsame
    by_contra hcontra
    rw [not_or, Bool.not_eq_true] at hcontra
    obtain ⟨hcase, htext⟩ := hcontra
    push Not at htext
    obtain ⟨item, hitem, htext⟩ := htext
    cases item with
    | text s => exact not_sameRows_of_text hcase hverbatim h hc hc' hitem hsame
    | _ => exact htext rfl
  · intro hmode D K row _ hrow
    obtain ⟨d, hd⟩ := Option.ne_none_iff_exists'.1 hrow
    have hany : (v :: vs).any (equalsItem options.caseSensitive K d) =
        (v :: vs).any (equalsItem true K d) := by
      rcases hmode with hcase | htext
      · rw [hcase]
      · exact any_equalsItem_of_not_text K d htext _
    rw [hlist K hd, evaluate_itemwise hverbatim h hd hc', hany]

/-- A text that is read as a filter for presence is a name. -/
theorem isName_of_parse (h : Expr.parse name = .ok (.constraint (.presence name))) :
    Token.IsName name :=
  Expr.parse_isName h List.mem_cons_self

/-- The items `A` and `1` without regard to case: the list does not mean what they mean. -/
theorem list_means_items_mixed :
    ∃ c c', Options.Reads { caseSensitive := false }
        (equalityFilter true "x" (.list [.text "A", .integer 1])) c ∧
      Options.Reads { caseSensitive := false } (itemwise true "x" (.text "A") [.integer 1]) c' ∧
      ¬ SameRows "x" c c' := by
  have hname : Token.IsName "x" := isName_of_parse (by decide +kernel)
  have hitems : ∀ item ∈ [Value.text "A", .integer 1], IsItem item := by
    have hplain : isPattern "A" = false := by decide
    simp [IsItem, hplain]
  have hverbatim : Options.Verbatim { caseSensitive := false } := fun _ _ => rfl
  obtain ⟨c, c', -, hc, hc', -, -, hsame⟩ := list_means_items hverbatim hname rfl hitems
  refine ⟨c, c', hc, hc', fun h => ?_⟩
  simpa [Value.isText] using hsame.1 h

/-- Without regard to case, `x==A,x==B` is true of a row with the value `a`, and `x==(A,B)` is
not. -/
theorem list_regards_case :
    ∃ e e' c c', Expr.parse "x==(A,B)" = .ok e ∧ Expr.parse "x==A,x==B" = .ok e' ∧
      Options.Reads { caseSensitive := false } e c ∧
      Options.Reads { caseSensitive := false } e' c' ∧
      c.evaluate textComparisons (fun _ => some "a") = some false ∧
      c'.evaluate textComparisons (fun _ => some "a") = some true := by
  let options : Options := { caseSensitive := false }
  let row : Row String := fun _ => some "a"
  have hrow : row "x" = some "a" := rfl
  have hname : Token.IsName "x" := isName_of_parse (by decide +kernel)
  have hverbatim : options.Verbatim := fun _ _ => rfl
  have hitems : ∀ item ∈ [Value.text "A", .text "B"], IsItem item := by
    have hplain : isPattern "A" = false ∧ isPattern "B" = false := by decide
    simp [IsItem, hplain]
  obtain ⟨c, hc, hreads⟩ := options.exists_reads
    (equalityFilter false "x" (.list [.text "A", .text "B"])) hname rfl isEqualityOf_equalityFilter
  obtain ⟨c', hc', hreads'⟩ := options.exists_reads
    (itemwise false "x" (.text "A") [.text "B"]) hname rfl isEqualityOf_itemwise
  refine ⟨_, _, c, c', ?_, ?_, hreads, hreads', ?_, ?_⟩
  · decide +kernel
  · decide +kernel
  · rw [compile_equalityFilter hverbatim, Option.some.injEq] at hc
    show c.evaluate textComparisons row = some false
    rw [← hc, evaluate_list hitems hrow]
    decide +kernel
  · show c'.evaluate textComparisons row = some true
    rw [evaluate_itemwise hverbatim hitems hrow hc']
    decide +kernel

end Agreement

end Sql
end Criteria
