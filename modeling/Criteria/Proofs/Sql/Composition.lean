import Criteria.Error
import Criteria.Proofs.Grammar.Texts
import Criteria.Proofs.Sql.Refusal

/-!
# Filters put together as texts

A filter text may be put in parentheses and joined with another by a combinator: what is inside
the parentheses keeps its tree, whatever its lexemes and its precedence, and so does its condition.
Only the nesting grows.

**Results.**
* `parse_composed`: the trees, errors and conditions of texts that are put together.
-/

namespace Criteria

open Grammar

/-- The text is read as the tree within the limit, and is nested too deep beyond it. -/
def Expr.ReadsWithin (limit : Prop) (text : String) (e : Expr) : Prop :=
  (limit → Expr.parse text = .ok e) ∧
    (¬ limit → ∃ line near, Expr.parse text = .error (.grammar line .nestingTooDeep near))

theorem Grammar.Derives.readsWithin {text : String} {d : Disjunction} (h : Derives text d) :
    Expr.ReadsWithin (d.nesting ≤ maxNesting) text d.tree := by
  have hparse := h.parse
  constructor
  · intro hlimit
    rwa [if_pos hlimit] at hparse
  · intro hlimit
    rwa [if_neg hlimit] at hparse

section Nesting

variable (d d' : Disjunction)

theorem Grammar.Disjunction.group_nesting : d.group.nesting ≤ maxNesting ↔ d.nesting ≤ 255 := by
  simp only [Disjunction.group, Disjunction.nesting, Conjunction.nesting, Phrase.nesting,
    maxNesting]
  omega

/-- The right operand is one level deeper than the left. -/
theorem Grammar.Disjunction.both_nesting :
    (d.both d').nesting ≤ maxNesting ↔ d.nesting ≤ 255 ∧ d'.nesting ≤ 254 := by
  simp only [Disjunction.both, Disjunction.nesting, Conjunction.nesting, Phrase.nesting,
    maxNesting]
  omega

theorem Grammar.Disjunction.either_nesting :
    (d.either d').nesting ≤ maxNesting ↔ d.nesting ≤ 255 ∧ d'.nesting ≤ 254 := by
  simp only [Disjunction.either, Disjunction.group, Disjunction.nesting, Conjunction.nesting,
    Phrase.nesting, maxNesting]
  omega

end Nesting

namespace Sql

/-- A text that is read as a filter with a condition has a query around it. -/
theorem filterToSql_of_parse {text : String} {e : Expr} {options : Options} {w : String}
    (hparse : Expr.parse text = .ok e) (hw : options.condition e = .ok w) :
    filterToSql text options = .ok (options.query e w) := by
  simp only [filterToSql, hparse, toSql_eq, hw]
  rfl

/-- **Filters compose as texts.**  A filter in parentheses is read as itself; two of them, joined by
`;` or `,`, are read as their conjunction or disjunction, and the condition joins their conditions.
The limits are those on the nesting of the two derivations; beyond them the fault is the
nesting. -/
theorem parse_composed {f g : String} {ef eg : Expr} (hf : Expr.parse f = .ok ef)
    (hg : Expr.parse g = .ok eg) :
    ∃ df dg : Disjunction, (∀ d, Derives f d ↔ d = df) ∧ (∀ d, Derives g d ↔ d = dg) ∧
      Expr.ReadsWithin (df.nesting ≤ 255) ("(" ++ f ++ ")") ef ∧
      Expr.ReadsWithin (df.nesting ≤ 255 ∧ dg.nesting ≤ 254) ("(" ++ f ++ ");(" ++ g ++ ")")
        (.and ef eg) ∧
      Expr.ReadsWithin (df.nesting ≤ 255 ∧ dg.nesting ≤ 254) ("(" ++ f ++ "),(" ++ g ++ ")")
        (.or ef eg) ∧
      ∀ (options : Options) (wf wg : String),
        options.condition ef = .ok wf → options.condition eg = .ok wg →
        options.condition (.and ef eg) = .ok ("(" ++ wf ++ " AND " ++ wg ++ ")") ∧
        options.condition (.or ef eg) = .ok ("(" ++ wf ++ " OR " ++ wg ++ ")") ∧
        (df.nesting ≤ 255 → dg.nesting ≤ 254 →
          filterToSql ("(" ++ f ++ ");(" ++ g ++ ")") options =
            .ok (options.query (.and ef eg) ("(" ++ wf ++ " AND " ++ wg ++ ")")) ∧
          filterToSql ("(" ++ f ++ "),(" ++ g ++ ")") options =
            .ok (options.query (.or ef eg) ("(" ++ wf ++ " OR " ++ wg ++ ")"))) := by
  obtain ⟨df, hdf, rfl, -⟩ := Expr.parse_eq_ok_iff_derives.1 hf
  obtain ⟨dg, hdg, rfl, -⟩ := Expr.parse_eq_ok_iff_derives.1 hg
  have hgroup := hdf.group.readsWithin
  have hboth := (hdf.both hdg).readsWithin
  have heither := (hdf.either hdg).readsWithin
  rw [Disjunction.group_nesting] at hgroup
  rw [Disjunction.both_nesting] at hboth
  rw [Disjunction.either_nesting] at heither
  refine ⟨df, dg, fun d => ⟨fun hd => hd.unique hdf, fun hd => hd ▸ hdf⟩,
    fun d => ⟨fun hd => hd.unique hdg, fun hd => hd ▸ hdg⟩, hgroup, hboth, heither, ?_⟩
  intro options wf wg hwf hwg
  have hand : options.condition (.and df.tree dg.tree) =
      .ok ("(" ++ wf ++ " AND " ++ wg ++ ")") := by
    rw [condition_and, hwf, hwg]
    rfl
  have hor : options.condition (.or df.tree dg.tree) =
      .ok ("(" ++ wf ++ " OR " ++ wg ++ ")") := by
    rw [condition_or, hwf, hwg]
    rfl
  exact ⟨hand, hor, fun hnf hng => ⟨filterToSql_of_parse (hboth.1 ⟨hnf, hng⟩) hand,
    filterToSql_of_parse (heither.1 ⟨hnf, hng⟩) hor⟩⟩

/-- The comma of the first filter stays inside its parentheses, and so does the semicolon between
quotes. -/
theorem parse_composed_comma :
    ∃ ef eg, Expr.parse "a,b=='x;y'" = .ok ef ∧ Expr.parse "c" = .ok eg ∧
      Expr.parse ("(" ++ "a,b=='x;y'" ++ ");(" ++ "c" ++ ")") = .ok (.and ef eg) := by
  have hf : Expr.parse "a,b=='x;y'" = .ok (.or (.constraint (.presence "a"))
      (.constraint (.comparison "b" .equal (.text "x;y")))) := by decide +kernel
  have hg : Expr.parse "c" = .ok (.constraint (.presence "c")) := by decide +kernel
  obtain ⟨df, dg, hdf, hdg, -, hboth, -⟩ := parse_composed hf hg
  have hdf' : Derives "a,b=='x;y'" (.link (.single (.presence "a"))
      (.single (.single (.comparison "b" .equal (.text "x;y"))))) :=
    ⟨[⟨.selector "a", 1⟩, ⟨.comma, 1⟩, ⟨.selector "b", 1⟩, ⟨.equal, 1⟩, ⟨.text "x;y", 1⟩],
      by decide +kernel, rfl⟩
  have hdg' : Derives "c" (.single (.single (.presence "c"))) :=
    ⟨[⟨.selector "c", 1⟩], by decide +kernel, rfl⟩
  refine ⟨_, _, hf, hg, hboth.1 ?_⟩
  rw [← (hdf _).1 hdf', ← (hdg _).1 hdg']
  decide

end Sql
end Criteria
