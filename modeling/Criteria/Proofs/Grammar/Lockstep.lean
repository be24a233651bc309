import Criteria.Proofs.Grammar.Guards
import Criteria.Proofs.Grammar.Run

/-!
# Two runs of the parser

Two parsers that see the same tokens go the same way: they look at one token at a time, and never at
its line.  If the tokens of the first one are cut by a lexical error, the second one may see any
tokens in the place of the error.  The first run then says what the second one does, unless it meets
the error.

**Results.**
* `Parser.alike_script`: what a rule does depends on the next token only.
* `Parser.Runs.agree`: scripts that are alike end in the same way over the same tokens.
* `Parser.outcome_agree`: so do the functions of the parser.
-/

namespace Criteria
namespace Parser

/-- Both parsers are at the same place.  The second one sees the tokens that the first one sees, and
then `more`, which are none unless a lexical error stops the first one. -/
structure InStep (stop : Option LexError) (more : List Token) (stop' : Option LexError)
    (p p' : Parser) : Prop where
  depth_eq : p'.depth = p.depth
  sees : ∃ lexemes lexemes', p.Sees lexemes stop ∧ p'.Sees lexemes' stop' ∧
    lexemes'.map Lexeme.token = lexemes.map Lexeme.token ++ more
  ends : stop = none → more = [] ∧ stop' = none

/-- The second run ends as the first one does, at the same place, unless the first one meets a
lexical error.  The lines of faults are not compared. -/
def Agree {α : Type} (stop : Option LexError) (more : List Token) (stop' : Option LexError) :
    Except ParseError α → Parser → Except ParseError α → Parser → Prop
  | .ok a, q, r', q' => r' = .ok a ∧ InStep stop more stop' q q'
  | .error (.lexical _), _, _, _ => True
  | .error (.grammar _ fault _), q, r', q' =>
      (∃ line near, r' = .error (.grammar line fault near)) ∧ InStep stop more stop' q q'

/-! ### Scripts -/

/-- The two scripts do the same, and go on with the same where they look at the same token.  The lines
of faults and the tokens near them may differ. -/
inductive Script.Alike : {α : Type} → Script α → Script α → Prop
  | done {α : Type} (a : α) : Alike (.done a) (.done a)
  | fail {α : Type} {line line' : Nat} {fault : SyntaxFault} {near near' : Option Token} :
      Alike (.fail line fault near : Script α) (.fail line' fault near')
  | advance {α : Type} {next next' : Parser → Script α}
      (h : ∀ q q', q'.peek = q.peek → (next q).Alike (next' q')) :
      Alike (.advance next) (.advance next')
  | call {α β : Type} {rule : Rule β} {next next' : β → Parser → Script α}
      (h : ∀ b q q', q'.peek = q.peek → (next b q).Alike (next' b q')) :
      Alike (.call rule next) (.call rule next')
  | nested {α β : Type} (rule : Rule β) (f : β → α) : Alike (.nested rule f) (.nested rule f)

section Alike

variable {α : Type} {p p' : Parser}

theorem alike_operand (selector : String) (op : Operator) :
    (Script.operand selector op).Alike (.operand selector op) :=
  .advance fun _ _ _ => .call fun _ _ _ _ => .done _

theorem alike_link {separator : Token} {rule : Rule Expr} {join : Expr → Expr → Expr} {left : Expr}
    (h : p'.peek = p.peek) :
    (Script.link separator rule join left p).Alike (.link separator rule join left p') := by
  unfold Script.link
  rw [h]
  split
  · exact .advance fun _ _ _ => .nested _ _
  · exact .done left

theorem alike_value (h : p'.peek = p.peek) : (script .value p).Alike (script .value p') := by
  rw [script, script, h]
  split
  · exact .fail
  · split
    · exact .advance fun _ _ _ => .done _
    · split
      · exact .nested _ _
      · exact .fail

theorem alike_list : (script .list p).Alike (script .list p') := by
  refine .advance fun q q' hq => ?_
  rw [hq]
  split
  · exact .advance fun _ _ _ => .done _
  · exact .call fun _ _ _ _ => .done _

theorem alike_items : (script .items p).Alike (script .items p') := by
  refine .call fun first q q' hq => ?_
  rw [hq]
  split
  · exact .advance fun _ _ _ => .call fun _ _ _ _ => .done _
  · exact .advance fun _ _ _ => .done _
  · exact .fail
  · exact .fail

theorem alike_comparison {selector : String} (h : p'.peek = p.peek) :
    (script (.comparison selector) p).Alike (script (.comparison selector) p') := by
  rw [script, script, h]
  split
  · exact alike_operand _ _
  · exact alike_operand _ _
  · exact alike_operand _ _
  · exact .done _

theorem alike_constraint (h : p'.peek = p.peek) :
    (script .constraint p).Alike (script .constraint p') := by
  rw [script, script, h]
  split
  · exact .nested _ _
  · exact .advance fun _ _ _ => .call fun _ _ _ _ => .done _
  · exact .fail
  · exact .fail

theorem alike_group : (script .group p).Alike (script .group p') := by
  refine .advance fun _ _ _ => .call fun inner q q' hq => ?_
  rw [hq]
  split
  · exact .advance fun _ _ _ => .done _
  · exact .fail

theorem alike_filter : (script .filter p).Alike (script .filter p') := by
  refine .call fun e q q' hq => ?_
  rw [hq]
  split
  · exact .done e
  · exact .fail
  · exact .fail

/-- What a rule does depends on the next token only. -/
theorem alike_script (rule : Rule α) (h : p'.peek = p.peek) :
    (script rule p).Alike (script rule p') := by
  cases rule with
  | value => exact alike_value h
  | list => exact alike_list
  | items => exact alike_items
  | comparison selector => exact alike_comparison h
  | disjunction => exact .call fun _ _ _ hq => alike_link hq
  | conjunction => exact .call fun _ _ _ hq => alike_link hq
  | constraint => exact alike_constraint h
  | group => exact alike_group
  | filter => exact alike_filter

end Alike

/-! ### Runs -/

section InStep

variable {α β : Type} {stop stop' : Option LexError} {more : List Token} {p p' q q' : Parser}

theorem InStep.peek_eq (h : InStep stop more stop' p p') : p'.peek = p.peek := by
  obtain ⟨lexemes, lexemes', hs, hs', htokens⟩ := h.sees
  rw [hs.peek_eq, hs'.peek_eq, htokens]
  cases lexemes with
  | nil => rw [(h.ends hs.2).1]; rfl
  | cons => rfl

theorem InStep.deeper (h : InStep stop more stop' p p') :
    InStep stop more stop' p.deeper p'.deeper := by
  obtain ⟨hdepth, ⟨lexemes, lexemes', hs, hs', htokens⟩, hends⟩ := h
  refine ⟨congrArg (· + 1) hdepth, ⟨lexemes, lexemes', ?_, ?_, htokens⟩, hends⟩
  · exact sees_deeper.2 hs
  · exact sees_deeper.2 hs'

theorem InStep.shallower (h : InStep stop more stop' p p') :
    InStep stop more stop' p.shallower p'.shallower := by
  obtain ⟨hdepth, ⟨lexemes, lexemes', hs, hs', htokens⟩, hends⟩ := h
  refine ⟨congrArg (· - 1) hdepth, ⟨lexemes, lexemes', ?_, ?_, htokens⟩, hends⟩
  · exact sees_shallower.2 hs
  · exact sees_shallower.2 hs'

/-- Where the first parser takes a token, the second one does. -/
theorem InStep.advance (h : InStep stop more stop' p p') (hp : p.current.isSome = true)
    (hadvance : p.advance = (.ok (), q)) :
    ∃ q', p'.advance = (.ok (), q') ∧ InStep stop more stop' q q' := by
  obtain ⟨hdepth, ⟨lexemes, lexemes', hs, hs', htokens⟩, hends⟩ := h
  cases lexemes with
  | nil => rw [hs.1] at hp; cases hp
  | cons first rest =>
    obtain ⟨first', rest', rfl, -, hrest⟩ := List.map_eq_cons_iff.1 htokens
    have hfirst := hs.advance
    rw [hadvance] at hfirst
    obtain ⟨-, hsees, hqd, -⟩ | ⟨e, -, -, he, -⟩ := hfirst
    · obtain ⟨hok, hsees', hqd', -⟩ | ⟨e, rfl, hstop, -, -⟩ := hs'.advance
      · refine ⟨p'.advance.2, Prod.ext hok rfl, ?_, ⟨rest, rest', hsees, hsees', hrest⟩, hends⟩
        rw [hqd', hqd, hdepth]
      · -- Nothing is left in the second text, hence not in the first one either, which then has no
        -- lexical error, and so the second one has none.
        obtain ⟨hnil, -⟩ := List.append_eq_nil_iff.1 hrest.symm
        obtain rfl := List.map_eq_nil_iff.1 hnil
        rw [(hends hsees.2).2] at hstop
        cases hstop
    · cases he

theorem Agree.shallower {r r' : Except ParseError α} (h : Agree stop more stop' r p r' p') :
    Agree stop more stop' r p.shallower r' p'.shallower := by
  match r, h with
  | .ok _, ⟨hanswer, hstep⟩ => exact ⟨hanswer, hstep.shallower⟩
  | .error (.lexical _), _ => trivial
  | .error (.grammar _ _ _), ⟨hanswer, hstep⟩ => exact ⟨hanswer, hstep.shallower⟩

theorem Agree.map {f : α → β} {r r' : Except ParseError α} (h : Agree stop more stop' r p r' p') :
    Agree stop more stop' (r.map f) p (r'.map f) p' := by
  match r, h with
  | .ok _, ⟨hanswer, hstep⟩ => exact ⟨by rw [hanswer]; rfl, hstep⟩
  | .error (.lexical _), _ => trivial
  | .error (.grammar _ _ _), ⟨⟨line, near, hanswer⟩, hstep⟩ =>
    exact ⟨⟨line, near, by rw [hanswer]; rfl⟩, hstep⟩

/-- Behind a failure nothing comes, whatever the answer would have been. -/
theorem Agree.of_error {e e' : ParseError}
    (h : Agree stop more stop' (.error e : Except ParseError α) p (.error e') p') :
    Agree stop more stop' (.error e : Except ParseError β) p (.error e') p' := by
  match e, h with
  | .lexical _, _ => trivial
  | .grammar _ _ _, ⟨⟨line, near, hanswer⟩, hstep⟩ =>
    exact ⟨⟨line, near, congrArg Except.error (Except.error.inj hanswer)⟩, hstep⟩

/-- Scripts that are alike end in the same way over the same tokens. -/
theorem Runs.agree {s s' : Script α} {log log' : List Event} {r r' : Except ParseError α}
    (h : Runs s p log r q) (h' : Runs s' p' log' r' q') (hs : s.Guarded p) (halike : s.Alike s')
    (hstep : InStep stop more stop' p p') : Agree stop more stop' r q r' q' := by
  induction h generalizing p' log' q' with
  | done =>
    cases halike
    cases h'
    exact ⟨rfl, hstep⟩
  | fail =>
    cases halike
    cases h'
    exact ⟨⟨_, _, rfl⟩, hstep⟩
  | took hadvance _ ih =>
    cases halike with
    | advance halike =>
      obtain ⟨q₁, hadvance₁, hstep₁⟩ := hstep.advance hs.1 hadvance
      cases h' with
      | took hadvance' rest' =>
        cases hadvance'.symm.trans hadvance₁
        exact ih rest' (hs.2 _) (halike _ _ hstep₁.peek_eq) hstep₁
      | stalled hadvance' => cases hadvance'.symm.trans hadvance₁
  | stalled => trivial
  | called _ _ ih ihrest =>
    cases halike with
    | call halike =>
      cases h' with
      | called h' rest' =>
        obtain ⟨hb, hstep'⟩ := ih h' (guarded_script hs.1) (alike_script _ hstep.peek_eq) hstep
        cases hb
        exact ihrest rest' (hs.2 _ _) (halike _ _ _ hstep'.peek_eq) hstep'
      | failed h' =>
        obtain ⟨hb, -⟩ := ih h' (guarded_script hs.1) (alike_script _ hstep.peek_eq) hstep
        cases hb
  | @failed _ _ _ _ _ _ _ e _ ih =>
    cases halike with
    | call =>
      cases h' with
      | called h' =>
        have hrule := ih h' (guarded_script hs.1) (alike_script _ hstep.peek_eq) hstep
        cases e with
        | lexical => trivial
        | grammar =>
          obtain ⟨⟨_, _, hanswer⟩, -⟩ := hrule
          cases hanswer
      | failed h' =>
        exact (ih h' (guarded_script hs.1) (alike_script _ hstep.peek_eq) hstep).of_error
  | nested hdepth _ hanswer ih =>
    cases halike
    cases h' with
    | nested _ h' hanswer' =>
      subst hanswer hanswer'
      have hdeeper := hstep.deeper
      exact (ih h' (guarded_script hs) (alike_script _ hdeeper.peek_eq) hdeeper).map.shallower
    | tooDeep hdepth' =>
      rw [hstep.depth_eq] at hdepth'
      exact absurd hdepth (Nat.not_lt_of_le hdepth')
  | tooDeep hdepth =>
    cases halike
    cases h' with
    | nested hdepth' =>
      rw [hstep.depth_eq] at hdepth'
      exact absurd hdepth' (Nat.not_lt_of_le hdepth)
    | tooDeep => exact ⟨⟨_, _, rfl⟩, hstep⟩

/-- Two runs of a rule over the same tokens end in the same way. -/
theorem outcome_agree (rule : Rule α) (hp : rule.Starts p) (hp' : rule.Starts p')
    (hstep : InStep stop more stop' p p') :
    Agree stop more stop' (rule.outcome p hp).answer (rule.outcome p hp).after
      (rule.outcome p' hp').answer (rule.outcome p' hp').after := by
  obtain ⟨_, hrun⟩ := runs_outcome rule p hp
  obtain ⟨_, hrun'⟩ := runs_outcome rule p' hp'
  exact hrun.agree hrun' (guarded_script hp) (alike_script rule hstep.peek_eq) hstep

end InStep

end Parser
end Criteria
