import Criteria.Proofs.Grammar.Program

/-!
# Where a rule asks for a token

A script may ask its lexer for a token from any parser, and a rule asks only where there is a token to
be taken: it looks at the current one first, or it is called because of it.  So what a rule does is a
path of allowed acts.

**Results.**
* `Parser.guarded_script`: no rule asks for a token where there is no current one.
* `Parser.Runs.logs`: the log of a rule is a path, on which each level is closed again.
-/

namespace Criteria
namespace Parser

/-- The script asks for a token only where there is a current one, starts lists and groups only there,
and leaves it to its levels to report that they are too deep. -/
def Script.Guarded {α : Type} : Script α → Parser → Prop
  | .done _, _ => True
  | .fail _ fault _, _ => fault ≠ .nestingTooDeep
  | .advance next, p => p.current.isSome = true ∧ ∀ q, (next q).Guarded q
  | .call rule next, p => rule.Starts p ∧ ∀ b q, (next b q).Guarded q
  | .nested rule _, p => rule.Starts p.deeper

section Guarded

variable {α : Type} {p : Parser}

theorem guarded_fault {f : SyntaxFault} (hf : f ≠ .nestingTooDeep) :
    (Script.fault p f : Script α).Guarded p :=
  hf

/-- A token that is seen is taken. -/
theorem guarded_advance {next : Parser → Script α} {token : Token} (h : p.peek = some token)
    (hnext : ∀ q, (next q).Guarded q) : (Script.advance next).Guarded p :=
  ⟨isSome_of_peek h, hnext⟩

theorem guarded_operand {selector : String} {op : Operator} {token : Token}
    (h : p.peek = some token) : (Script.operand selector op).Guarded p :=
  guarded_advance h fun _ => ⟨trivial, fun _ _ => trivial⟩

theorem guarded_link {separator : Token} {rule : Rule Expr} {join : Expr → Expr → Expr}
    {left : Expr} (hrule : ∀ q, rule.Starts q) :
    (Script.link separator rule join left p).Guarded p := by
  unfold Script.link
  split
  · next h => exact guarded_advance h fun q => hrule q.deeper
  · trivial

theorem guarded_value (p : Parser) : (script .value p).Guarded p := by
  rw [script]
  split
  · exact guarded_fault (by decide)
  · next h =>
    split
    · exact guarded_advance h fun _ => trivial
    · split
      · exact isSome_of_peek h
      · exact guarded_fault (by decide)

theorem guarded_list (h : p.current.isSome = true) : (script .list p).Guarded p := by
  refine ⟨h, fun q => ?_⟩
  dsimp only
  split
  · next hclose => exact guarded_advance hclose fun _ => trivial
  · exact ⟨trivial, fun _ _ => trivial⟩

theorem guarded_items (p : Parser) : (script .items p).Guarded p := by
  refine ⟨trivial, fun first q => ?_⟩
  dsimp only
  split
  · next h => exact guarded_advance h fun _ => ⟨trivial, fun _ _ => trivial⟩
  · next h => exact guarded_advance h fun _ => trivial
  · exact guarded_fault (by decide)
  · exact guarded_fault (by decide)

theorem guarded_comparison (selector : String) (p : Parser) :
    (script (.comparison selector) p).Guarded p := by
  rw [script]
  split
  · next h => exact guarded_operand h
  · next h => exact guarded_operand h
  · next h => exact guarded_operand h
  · trivial

theorem guarded_constraint (p : Parser) : (script .constraint p).Guarded p := by
  rw [script]
  split
  · next h => exact isSome_of_peek h
  · next h => exact guarded_advance h fun _ => ⟨trivial, fun _ _ => trivial⟩
  · exact guarded_fault (by decide)
  · exact guarded_fault (by decide)

theorem guarded_group (h : p.current.isSome = true) : (script .group p).Guarded p := by
  refine ⟨h, fun q => ⟨trivial, fun inner r => ?_⟩⟩
  dsimp only
  split
  · next hclose => exact guarded_advance hclose fun _ => trivial
  · exact SyntaxFault.noConfusion

theorem guarded_filter (p : Parser) : (script .filter p).Guarded p := by
  refine ⟨trivial, fun e q => ?_⟩
  dsimp only
  split
  · trivial
  · exact guarded_fault (by decide)
  · exact guarded_fault (by decide)

/-- No rule asks for a token where there is no current one, if it starts where it should. -/
theorem guarded_script {rule : Rule α} (h : rule.Starts p) : (script rule p).Guarded p := by
  cases rule with
  | value => exact guarded_value p
  | list => exact guarded_list h
  | items => exact guarded_items p
  | comparison selector => exact guarded_comparison selector p
  | disjunction => exact ⟨trivial, fun _ _ => guarded_link fun _ => trivial⟩
  | conjunction => exact ⟨trivial, fun _ _ => guarded_link fun _ => trivial⟩
  | constraint => exact guarded_constraint p
  | group => exact guarded_group h
  | filter => exact guarded_filter p

/-- What a guarded script does is a path, on which each level is closed again. -/
theorem Runs.logs {s : Script α} {q : Parser} {log : List Event} {answer : Except ParseError α}
    (h : Runs s p log answer q) (hs : s.Guarded p) : Logs p log answer q := by
  induction h with
  | done a p => exact .done a p
  | fail => exact .fail fun hfault => absurd hfault hs
  | took h _ ih => exact (Logs.took hs.1 h).andThen (ih (hs.2 _))
  | stalled h => exact .stalled hs.1 h
  | called _ _ ih ihrest => exact (ih (guarded_script hs.1)).andThen (ihrest (hs.2 _ _))
  | failed _ ih => exact (ih (guarded_script hs.1)).of_error
  | nested hdepth _ hanswer ih =>
    subst hanswer
    exact ((ih (guarded_script hs)).map _).nested hdepth
  | tooDeep hdepth => exact .fail fun _ => hdepth

end Guarded

end Parser
end Criteria
