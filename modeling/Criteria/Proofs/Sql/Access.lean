import Criteria.Proofs.Sql.Refusal

/-!
# Access lists

The access lists of a query only ever refuse: they look at the selectors of a filter and at nothing
else, and they leave no trace in a query that they let pass.  The builder asks them constraint by
constraint, while the selectors of a filter are collected with each name once; both meet the same
name first that is not permitted.

**Results.**
* `Selectors.findSome?_eraseDups`: of equal names the first is met first.
* `condition_withoutLists`: a condition that the lists let pass is the one without lists.
* `access_lists_gate`: what the lists decide, and what they do not.
-/

namespace Criteria

/-! ### What is found first -/

namespace Selectors

/-- Of equal names the first is met first. -/
theorem findSome?_eraseDups {α : Type} (f : String → Option α) (names : List String) :
    names.eraseDups.findSome? f = names.findSome? f := by
  have hfold (names seen : List String) :
      (names.foldl insert seen).findSome? f = (seen ++ names).findSome? f := by
    induction names generalizing seen with
    | nil => rw [List.append_nil, List.foldl_nil]
    | cons name names ih =>
      rw [List.foldl_cons, ih, insert]
      split
      · next h =>
        have hseen : name ∈ seen := by simpa using h
        simp only [List.findSome?_append, List.findSome?_cons]
        cases hfind : seen.findSome? f with
        | some a => rfl
        | none => rw [List.findSome?_eq_none_iff.1 hfind name hseen]
      · rw [List.append_assoc, List.singleton_append]
  have hall : names.removeAll [] = names := by simp [List.removeAll]
  have hnames := hfold names []
  rwa [foldl_insert, hall, List.nil_append, List.nil_append] at hnames

end Selectors

namespace Sql

/-! ### Lists and options -/

/-- The options without access lists. -/
def Options.withoutLists (options : Options) : Options :=
  { options with only := none, except := none }

/-- The name is in the list of allowed selectors; if there is none, it is not in the list of refused
ones. -/
def Options.Permits (options : Options) (name : String) : Prop :=
  match options.only with
  | some names => name ∈ names
  | none => ∀ names, options.except = some names → name ∉ names

section Gate

variable {options options' : Options} {e : Expr}

theorem isAllowed_iff {name : String} : options.isAllowed name = true ↔ options.Permits name := by
  unfold Options.isAllowed Options.Permits
  cases options.only with
  | some names => simp
  | none => cases options.except <;> simp

theorem accessRefusal_eq_none_iff {name : String} :
    options.accessRefusal name = none ↔ options.Permits name := by
  rw [← isAllowed_iff, Options.accessRefusal]
  cases options.isAllowed name <;> simp

theorem accessRefusal_eq_some_iff {name : String} {error : BuildError} :
    options.accessRefusal name = some error ↔
      ¬ options.Permits name ∧ error = .selectorNotAllowed name := by
  rw [← isAllowed_iff, Options.accessRefusal]
  cases options.isAllowed name <;> simp [eq_comm]

/-- The selector of a constraint that is accepted may be used. -/
theorem Options.Accepts.isAllowed {leaf : Constraint} (h : options.Accepts leaf) :
    options.isAllowed leaf.selector = true := by
  cases leaf with
  | presence name => exact h
  | comparison name op value =>
    cases op with
    | equal | notEqual => exact h
    | tagged tag => exact h.1

/-- Where nothing else is refused, a constraint is refused for its selector only. -/
theorem refusal_eq_accessRefusal {leaf : Constraint}
    (h : options.withoutLists.refusal leaf = none) :
    options.refusal leaf = options.accessRefusal leaf.selector := by
  cases leaf with
  | presence name => rfl
  | comparison name op value =>
    cases op with
    | equal | notEqual => rfl
    | tagged tag =>
      rw [Options.refusal, Option.or_eq_none_iff] at h
      have hordering : orderingRefusal name tag (options.transformer name value) = none := h.2
      rw [Options.refusal, hordering, Option.or_none]
      rfl

/-- The first constraint that is refused is the first whose selector is not permitted, and its
selector is the first such among the selectors of the filter. -/
theorem findSome?_refusal (h : ∀ leaf ∈ e.constraints, options.withoutLists.refusal leaf = none) :
    e.constraints.findSome? options.refusal = e.selectors.findSome? options.accessRefusal := by
  rw [Selectors.selectors_eq, Selectors.findSome?_eraseDups, List.findSome?_map]
  generalize e.constraints = leaves at h
  induction leaves with
  | nil => rfl
  | cons leaf leaves ih =>
    rw [List.forall_mem_cons] at h
    rw [List.findSome?_cons, List.findSome?_cons, refusal_eq_accessRefusal h.1, ih h.2]
    rfl

/-- A condition that the lists let pass is the one without lists. -/
theorem condition_withoutLists {w : String} (h : options.condition e = .ok w) :
    options.withoutLists.condition e = .ok w := by
  obtain ⟨texts, htexts, rfl⟩ := condition_eq_ok_iff.1 h
  refine condition_eq_arrange fun leaf hleaf => ?_
  have hleaf := htexts leaf hleaf
  cases leaf with
  | presence name =>
    obtain ⟨u, -, hw⟩ := bind_eq_ok.1 hleaf
    exact hw
  | comparison name op value =>
    cases op with
    | equal | notEqual | tagged tag =>
      obtain ⟨u, -, hw⟩ := bind_eq_ok.1 hleaf
      exact hw

/-- Without lists a condition depends on the case of letters and on the rewriting of values only. -/
theorem condition_withoutLists_congr (hcase : options.caseSensitive = options'.caseSensitive)
    (htransformer : options.transformer = options'.transformer) :
    options.withoutLists.condition e = options'.withoutLists.condition e := by
  induction e with
  | constraint leaf =>
    cases leaf with
    | presence name => rfl
    | comparison name op value =>
      have hcase' : options.withoutLists.caseSensitive = options'.withoutLists.caseSensitive :=
        hcase
      have htransformer' : options.withoutLists.transformer = options'.withoutLists.transformer :=
        htransformer
      cases op <;>
        simp only [Options.condition, Visitor.walk, Options.visitor, hcase', htransformer'] <;> rfl
  | and l r ihl ihr | or l r ihl ihr => simp only [condition_and, condition_or, ihl, ihr]

end Gate

/-- **Access lists are a gate.**  For a filter that has a query without lists, the lists ask whether
its selectors are permitted, and for nothing else: if all are, the query is the one without lists;
if not, the first one that is not permitted is refused.  So the columns that a query takes from its
filter are all permitted.  Neither the lists nor any other option has a say in the condition, apart
from the case of letters and the rewriting of values. -/
theorem access_lists_gate (e : Expr) :
    (∀ (options : Options) (sql : String), options.withoutLists.toSql e = .ok sql →
      ((∃ sql', options.toSql e = .ok sql') ↔ ∀ name ∈ e.selectors, options.Permits name) ∧
      (∀ sql', options.toSql e = .ok sql' → sql' = sql) ∧
      ∀ error, options.toSql e = .error error ↔
        ∃ before name after, e.selectors = before ++ name :: after ∧
          (∀ earlier ∈ before, options.Permits earlier) ∧ ¬ options.Permits name ∧
          error = .selectorNotAllowed name) ∧
    (∀ (options : Options) (sql : String), options.select = .fromSelectors →
      options.toSql e = .ok sql →
        (∃ condition, sql = options.query e condition) ∧
        options.projection e = ", ".intercalate e.selectors ∧
        ∀ column ∈ e.selectors, options.Permits column) ∧
    ∀ (options options' : Options) (sql sql' : String),
      options.caseSensitive = options'.caseSensitive →
      options.transformer = options'.transformer →
      options.toSql e = .ok sql → options'.toSql e = .ok sql' →
      ∃ condition, options.condition e = .ok condition ∧ options'.condition e = .ok condition ∧
        sql = options.query e condition ∧ sql' = options'.query e condition := by
  refine ⟨?gate, ?columns, ?independent⟩
  case gate =>
    intro options sql hsql
    obtain ⟨w, hw, rfl⟩ := toSql_eq_ok_iff.1 hsql
    have hleaves : ∀ leaf ∈ e.constraints, options.withoutLists.refusal leaf = none := by
      have hnone : e.constraints.findSome? options.withoutLists.refusal = none := by
        rw [Option.eq_none_iff_forall_not_mem]
        intro error herror
        cases hw.symm.trans (condition_eq_error_iff.2 herror)
      exact List.findSome?_eq_none_iff.1 hnone
    have herror {error : BuildError} : options.toSql e = .error error ↔
        e.selectors.findSome? options.accessRefusal = some error := by
      rw [toSql_eq_error_iff, condition_eq_error_iff, findSome?_refusal hleaves]
    refine ⟨?_, ?_, ?_⟩
    · simp only [exists_ok_iff, ne_eq, herror, ← Option.mem_def]
      rw [← Option.eq_none_iff_forall_not_mem, List.findSome?_eq_none_iff]
      simp only [accessRefusal_eq_none_iff]
    · intro sql' hsql'
      obtain ⟨w', hw', rfl⟩ := toSql_eq_ok_iff.1 hsql'
      obtain rfl : w' = w := Except.ok.inj ((condition_withoutLists hw').symm.trans hw)
      rfl
    · intro error
      rw [herror, List.findSome?_eq_some_iff]
      simp only [accessRefusal_eq_none_iff, accessRefusal_eq_some_iff]
      constructor
      · rintro ⟨before, name, after, heq, ⟨hname, rfl⟩, hbefore⟩
        exact ⟨before, name, after, heq, hbefore, hname, rfl⟩
      · rintro ⟨before, name, after, heq, hbefore, hname, rfl⟩
        exact ⟨before, name, after, heq, ⟨hname, rfl⟩, hbefore⟩
  case columns =>
    intro options sql hselect hsql
    obtain ⟨w, hw, rfl⟩ := toSql_eq_ok_iff.1 hsql
    refine ⟨⟨w, rfl⟩, by rw [Options.projection, hselect], fun column hcolumn => ?_⟩
    rw [Selectors.selectors_eq, List.mem_eraseDups] at hcolumn
    obtain ⟨leaf, hleaf, rfl⟩ := List.mem_map.1 hcolumn
    have haccepts := exists_condition_iff.1 ⟨w, hw⟩ leaf hleaf
    exact isAllowed_iff.1 haccepts.isAllowed
  case independent =>
    intro options options' sql sql' hcase htransformer hsql hsql'
    obtain ⟨w, hw, rfl⟩ := toSql_eq_ok_iff.1 hsql
    obtain ⟨w', hw', rfl⟩ := toSql_eq_ok_iff.1 hsql'
    have hsame := condition_withoutLists_congr (e := e) hcase htransformer
    rw [condition_withoutLists hw, condition_withoutLists hw', Except.ok.injEq] at hsame
    subst hsame
    exact ⟨w, hw, hw', rfl, rfl⟩

/-- A name on both lists is permitted; the next one is on neither, and it is refused. -/
theorem access_lists_gate_second :
    Options.toSql {} (.and (.constraint (.presence "b")) (.constraint (.presence "a"))) =
        .ok "SELECT * FROM table WHERE (b IS NOT NULL AND a IS NOT NULL)" ∧
      Options.toSql { only := some ["b"], except := some ["b"] }
        (.and (.constraint (.presence "b")) (.constraint (.presence "a"))) =
          .error (.selectorNotAllowed "a") := by
  have hsql : Options.toSql {} (.and (.constraint (.presence "b")) (.constraint (.presence "a"))) =
      .ok "SELECT * FROM table WHERE (b IS NOT NULL AND a IS NOT NULL)" := rfl
  refine ⟨hsql, ?_⟩
  obtain ⟨hgate, -⟩ :=
    access_lists_gate (.and (.constraint (.presence "b")) (.constraint (.presence "a")))
  obtain ⟨-, -, herror⟩ := hgate { only := some ["b"], except := some ["b"] } _ hsql
  refine (herror _).2 ⟨["b"], "a", [], rfl, ?_, ?_, rfl⟩
  · simp [Options.Permits]
  · simp [Options.Permits]

end Sql
end Criteria
