import Criteria.Proofs.Grammar.Acts

/-!
# The rules as programs

A function says what a rule answers, and not how it gets there: which other rules it calls, and where
it asks the lexer for a token.  So the body of each rule is written down as a script, in which a call
is a step like others and nothing recurs.  A run of a script is a finite tree, in which the runs of
the rules that are called hang below their calls, and it has a log of all that is done to the parser.
Nothing in this says that there is such a tree; that there always is one means that the rules
terminate.

**Results.**
* `Parser.script`: the bodies of the rules.
* `Parser.Runs`: how a script runs, and `Parser.Runs.unique`: it runs in one way only.
* `Parser.runs_outcome`: the functions of the parser are runs of the scripts.
-/

namespace Criteria
namespace Parser

/-- The rules of the parser, by what they answer. -/
inductive Rule : Type → Type
  | value : Rule Value
  | list : Rule Value
  | items : Rule (List Value)
  | comparison (selector : String) : Rule Constraint
  | disjunction : Rule Expr
  | conjunction : Rule Expr
  | constraint : Rule Expr
  | group : Rule Expr
  | filter : Rule Expr

/-- What a rule does, step by step.  Each step is given the parser that the step before it has
left. -/
inductive Script (α : Type) : Type 1
  | done (a : α)
  | fail (line : Nat) (fault : SyntaxFault) (near : Option Token)
  /-- Asks the lexer for the token behind the current one. -/
  | advance (next : Parser → Script α)
  /-- Calls a rule, and goes on if it succeeds. -/
  | call {β : Type} (rule : Rule β) (next : β → Parser → Script α)
  /-- Calls a rule one level deeper, unless all levels are open. -/
  | nested {β : Type} (rule : Rule β) (f : β → α)

/-- Failure at the parser's place. -/
def Script.fault {α : Type} (p : Parser) (f : SyntaxFault) : Script α :=
  .fail (p.place.elim 1 Lexeme.line) f (p.place.map Lexeme.token)

/-- An operator, and the value behind it. -/
def Script.operand (selector : String) (op : Operator) : Script Constraint :=
  .advance fun _ => .call .value fun v _ => .done (.comparison selector op v)

/-- What follows the first part of a chain: a separator and the rest of the chain, or nothing. -/
def Script.link (separator : Token) (rule : Rule Expr) (join : Expr → Expr → Expr) (left : Expr)
    (p : Parser) : Script Expr :=
  if p.peek = some separator then .advance fun _ => .nested rule (join left) else .done left

/-- What a rule does that starts from the parser `p`. -/
def script {α : Type} : Rule α → Parser → Script α
  | .value, p =>
      match p.peek with
      | none => .fault p .endBeforeValue
      | some token =>
          match token.value? with
          | some v => .advance fun _ => .done v
          | none => if token = .leftParen then .nested .list id else .fault p .expectedValue
  | .list, _ =>
      .advance fun q =>
        if q.peek = some .rightParen then .advance fun _ => .done (.list [])
        else .call .items fun items _ => .done (.list items)
  | .items, _ =>
      .call .value fun first q =>
        match q.peek with
        | some .comma => .advance fun _ => .call .items fun rest _ => .done (first :: rest)
        | some .rightParen => .advance fun _ => .done [first]
        | some _ => .fault q .expectedListSeparator
        | none => .fault q .unclosedList
  | .comparison selector, p =>
      match p.peek with
      | some .equal => .operand selector .equal
      | some .notEqual => .operand selector .notEqual
      | some (.comparison tag) => .operand selector (.tagged tag)
      | _ => .done (.presence selector)
  | .disjunction, _ => .call .conjunction (.link .comma .disjunction .or)
  | .conjunction, _ => .call .constraint (.link .semicolon .conjunction .and)
  | .constraint, p =>
      match p.peek with
      | some .leftParen => .nested .group id
      | some (.selector name) =>
          .advance fun _ => .call (.comparison name) fun c _ => .done (.constraint c)
      | some _ => .fault p .expectedConstraint
      | none => .fault p .endBeforeConstraint
  | .group, p =>
      .advance fun _ => .call .disjunction fun inner q =>
        if q.peek = some .rightParen then .advance fun _ => .done inner
        else .fail (p.current.elim 1 Lexeme.line) .unclosedGroup (q.place.map Lexeme.token)
  | .filter, _ =>
      .call .disjunction fun e q =>
        match q.peek with
        | none => .done e
        | some .rightParen => .fault q .unmatchedClose
        | some _ => .fault q .trailingToken

/-- `Runs s p log answer q` says that the script, started from `p`, ends with this answer and leaves
`q`, and that the log is what it has done on the way. -/
inductive Runs : {α : Type} → Script α → Parser → List Event → Except ParseError α → Parser → Prop
  | done {α : Type} (a : α) (p : Parser) : Runs (.done a) p [] (.ok a) p
  | fail {α : Type} (line : Nat) (fault : SyntaxFault) (near : Option Token) (p : Parser) :
      Runs (.fail line fault near : Script α) p [] (.error (.grammar line fault near)) p
  | took {α : Type} {next : Parser → Script α} {p q r : Parser} {log : List Event}
      {answer : Except ParseError α} (h : p.advance = (.ok (), q))
      (rest : Runs (next q) q log answer r) :
      Runs (.advance next) p (⟨p, .took⟩ :: log) answer r
  | stalled {α : Type} {next : Parser → Script α} {p q : Parser} {e : LexError}
      (h : p.advance = (.error (.lexical e), q)) :
      Runs (.advance next) p [⟨p, .stalled e⟩] (.error (.lexical e)) q
  | called {α β : Type} {rule : Rule β} {next : β → Parser → Script α} {p q r : Parser}
      {log log' : List Event} {b : β} {answer : Except ParseError α}
      (h : Runs (script rule p) p log (.ok b) q) (rest : Runs (next b q) q log' answer r) :
      Runs (.call rule next) p (log ++ log') answer r
  | failed {α β : Type} {rule : Rule β} {next : β → Parser → Script α} {p q : Parser}
      {log : List Event} {e : ParseError} (h : Runs (script rule p) p log (.error e) q) :
      Runs (.call rule next) p log (.error e) q
  | nested {α β : Type} {rule : Rule β} {f : β → α} {p q : Parser} {log : List Event}
      {answer : Except ParseError β} {answer' : Except ParseError α} (hdepth : p.depth < maxNesting)
      (h : Runs (script rule p.deeper) p.deeper log answer q) (hanswer : answer.map f = answer') :
      Runs (.nested rule f) p (⟨p, .opened⟩ :: (log ++ [⟨q, .closed⟩])) answer' q.shallower
  | tooDeep {α β : Type} {rule : Rule β} {f : β → α} {p : Parser} (hdepth : maxNesting ≤ p.depth) :
      Runs (.nested rule f) p [] (.error (p.fault .nestingTooDeep)) p

section Runs

variable {α : Type} {s : Script α} {p q q' : Parser} {log log' : List Event}
  {answer answer' : Except ParseError α}

/-- A script runs in one way only. -/
theorem Runs.unique (h : Runs s p log answer q) (h' : Runs s p log' answer' q') :
    log = log' ∧ answer = answer' ∧ q = q' := by
  induction h generalizing log' q' with
  | done => cases h'; exact ⟨rfl, rfl, rfl⟩
  | fail => cases h'; exact ⟨rfl, rfl, rfl⟩
  | took h _ ih =>
    cases h' with
    | took h' rest' =>
      cases h.symm.trans h'
      obtain ⟨rfl, rfl, rfl⟩ := ih rest'
      exact ⟨rfl, rfl, rfl⟩
    | stalled h' => cases h.symm.trans h'
  | stalled h =>
    cases h' with
    | took h' => cases h.symm.trans h'
    | stalled h' => cases h.symm.trans h'; exact ⟨rfl, rfl, rfl⟩
  | called _ _ ih ihrest =>
    cases h' with
    | called h' rest' =>
      obtain ⟨rfl, hb, rfl⟩ := ih h'
      cases hb
      obtain ⟨rfl, rfl, rfl⟩ := ihrest rest'
      exact ⟨rfl, rfl, rfl⟩
    | failed h' => cases (ih h').2.1
  | failed _ ih =>
    cases h' with
    | called h' => cases (ih h').2.1
    | failed h' =>
      obtain ⟨rfl, he, rfl⟩ := ih h'
      cases he
      exact ⟨rfl, rfl, rfl⟩
  | nested hdepth _ hanswer ih =>
    cases h' with
    | nested _ h' hanswer' =>
      obtain ⟨rfl, rfl, rfl⟩ := ih h'
      exact ⟨rfl, hanswer.symm.trans hanswer', rfl⟩
    | tooDeep hdepth' => exact absurd hdepth (Nat.not_lt_of_le hdepth')
  | tooDeep hdepth =>
    cases h' with
    | nested hdepth' => exact absurd hdepth' (Nat.not_lt_of_le hdepth)
    | tooDeep => exact ⟨rfl, rfl, rfl⟩

theorem Runs.depth_eq (h : Runs s p log answer q) : q.depth = p.depth := by
  induction h with
  | done => rfl
  | fail => rfl
  | took h _ ih => exact ih.trans (depth_of_advance h)
  | stalled h => exact depth_of_advance h
  | called _ _ ih ihrest => exact ihrest.trans ih
  | failed _ ih => exact ih
  | nested _ _ _ ih => exact congrArg (· - 1) ih
  | tooDeep => rfl

/-- Asking for a token never makes more input, even where there is no current token. -/
theorem size_le_of_advance {answer : Except ParseError Unit} (h : p.advance = (answer, q)) :
    q.size ≤ p.size := by
  have hle := p.lexer.next_length_le
  cases answer with
  | error e =>
    obtain ⟨_, l, hnext, -, rfl⟩ := exists_of_advance_error h
    exact size_le_of_error hnext
  | ok =>
    obtain ⟨next, l, hnext, rfl⟩ := exists_of_advance_ok h
    cases next with
    | none =>
      rw [hnext] at hle
      exact Nat.le_trans hle (Nat.le_add_right _ _)
    | some lexeme =>
      have hlt := @Lexer.next_length_lt p.lexer lexeme (by rw [hnext])
      rw [hnext] at hlt
      exact Nat.le_trans hlt (Nat.le_add_right _ _)

theorem size_lt_of_advance (hcurrent : p.current.isSome = true) (h : p.advance = (.ok (), q)) :
    q.size < p.size := by
  obtain ⟨next, l, hnext, rfl⟩ := exists_of_advance_ok h
  exact size_lt_of_ok hcurrent hnext

theorem Runs.size_le (h : Runs s p log answer q) : q.size ≤ p.size := by
  induction h with
  | done => exact Nat.le_refl _
  | fail => exact Nat.le_refl _
  | took h _ ih => exact Nat.le_trans ih (size_le_of_advance h)
  | stalled h => exact size_le_of_advance h
  | called _ _ ih ihrest => exact Nat.le_trans ihrest ih
  | failed _ ih => exact ih
  | nested _ _ _ ih => exact ih
  | tooDeep => exact Nat.le_refl _

end Runs

/-! ### The functions of the parser -/

/-- A group and a list start at their opening parenthesis. -/
def Rule.Starts {α : Type} : Rule α → Parser → Prop
  | .list, p | .group, p => p.current.isSome = true
  | _, _ => True

/-- The functions of the parser, by their rules. -/
def Rule.outcome {α : Type} : (rule : Rule α) → (p : Parser) → rule.Starts p → Outcome α p
  | .value, p, _ => p.value
  | .list, p, h => p.list h
  | .items, p, _ => p.items
  | .comparison selector, p, _ => p.comparison selector
  | .disjunction, p, _ => p.disjunction
  | .conjunction, p, _ => p.conjunction
  | .constraint, p, _ => p.constraint
  | .group, p, h => p.group h
  | .filter, p, _ => p.filter

/-- The script ends as the outcome says. -/
def Script.Gives {α : Type} {p : Parser} (s : Script α) (x : Outcome α p) : Prop :=
  ∃ log, Runs s p log x.answer x.after

section Gives

variable {α β : Type} {p : Parser}

theorem gives_done (a : α) : (Script.done a).Gives (.done a p) :=
  ⟨_, .done a p⟩

theorem gives_fault (f : SyntaxFault) : (Script.fault p f : Script α).Gives (.fail (p.fault f) p) :=
  ⟨_, .fail _ _ _ p⟩

theorem gives_advance {hp : p.current.isSome = true} {next : Parser → Script α}
    {f : (q : Parser) → q.size < p.size → Outcome α q} (h : ∀ q hq, (next q).Gives (f q hq)) :
    (Script.advance next).Gives (p.take hp f) := by
  unfold take
  split
  · next e q hadvance =>
    obtain ⟨_, _, -, rfl, -⟩ := exists_of_advance_error hadvance
    exact ⟨_, .stalled hadvance⟩
  · next q hadvance =>
    obtain ⟨_, hrest⟩ := h q (size_lt_of_advance hp hadvance)
    exact ⟨_, .took hadvance hrest⟩

theorem gives_call {rule : Rule α} {next : α → Parser → Script β} {x : Outcome α p}
    {f : α → (q : Parser) → q.size ≤ p.size → Outcome β q} (hx : (script rule p).Gives x)
    (h : ∀ a q hq, (next a q).Gives (f a q hq)) : (Script.call rule next).Gives (x.andThen f) := by
  obtain ⟨answer, q, hq⟩ := x
  obtain ⟨_, hrun⟩ := hx
  cases answer with
  | error e => exact ⟨_, .failed hrun⟩
  | ok a =>
    obtain ⟨_, hrest⟩ := h a q hq
    exact ⟨_, .called hrun hrest⟩

theorem gives_call_done {rule : Rule α} {f : α → β} {x : Outcome α p}
    (hx : (script rule p).Gives x) :
    (Script.call rule fun a _ => .done (f a)).Gives (x.map f) := by
  obtain ⟨answer, q, hq⟩ := x
  obtain ⟨_, hrun⟩ := hx
  cases answer with
  | error e => exact ⟨_, .failed hrun⟩
  | ok a => exact ⟨_, .called hrun (.done (f a) q)⟩

theorem gives_nested {rule : Rule α} {f : α → β} {x : Unit → Outcome α p.deeper}
    (hx : (script rule p.deeper).Gives (x ())) :
    (Script.nested rule f).Gives (p.nested fun u => (x u).map f) := by
  unfold Parser.nested
  split
  · next hdepth => exact ⟨_, .tooDeep hdepth⟩
  · next hdepth =>
    obtain ⟨_, hrun⟩ := hx
    exact ⟨_, .nested (Nat.lt_of_not_le hdepth) hrun rfl⟩

theorem gives_nested_id {rule : Rule α} {x : Unit → Outcome α p.deeper}
    (hx : (script rule p.deeper).Gives (x ())) :
    (Script.nested rule id).Gives (p.nested x) := by
  have hmap (y : Outcome α p.deeper) : y.map id = y := by
    obtain ⟨answer, q, hq⟩ := y
    cases answer <;> rfl
  simpa only [hmap] using gives_nested (f := id) hx

theorem gives_link {separator : Token} {rule : Rule Expr} {f : (r : Parser) → Outcome Expr r}
    {join : Expr → Expr → Expr} {left : Expr}
    (h : ∀ r : Parser, r.size < p.size → (script rule r.deeper).Gives (f r.deeper)) :
    (Script.link separator rule join left p).Gives (link separator f join left p) := by
  unfold Script.link
  split
  · next hpeek =>
    rw [link_separator hpeek]
    exact gives_advance fun r hr => gives_nested (h r hr)
  · next hpeek =>
    rw [link_other hpeek]
    exact gives_done left

end Gives

mutual

theorem gives_value (p : Parser) : (script .value p).Gives p.value := by
  rw [script]
  split
  · next h =>
    rw [value_end h]
    exact gives_fault _
  · next token h =>
    split
    · next v hv =>
      rw [value_single h hv]
      exact gives_advance fun _ _ => gives_done v
    · next hv =>
      split
      · next hopen =>
        subst hopen
        rw [value_open h]
        exact gives_nested_id (gives_list p.deeper _)
      · next hopen =>
        rw [value_other h hv hopen]
        exact gives_fault _
termination_by 4 * p.size + 1
decreasing_by show 4 * p.size < 4 * p.size + 1; omega

theorem gives_list (p : Parser) (hp : p.current.isSome = true) :
    (script .list p).Gives (p.list hp) := by
  rw [script, Parser.list]
  refine gives_advance fun q hq => ?_
  split
  · exact gives_advance fun _ _ => gives_done _
  · exact gives_call_done (gives_items q)
termination_by 4 * p.size
decreasing_by omega

theorem gives_items (p : Parser) : (script .items p).Gives p.items := by
  rw [script, items_eq]
  refine gives_call (gives_value p) fun first q hq => ?_
  split
  · next h =>
    rw [afterItem_comma h]
    exact gives_advance fun r hr => gives_call_done (gives_items r)
  · next h =>
    rw [afterItem_close h]
    exact gives_advance fun _ _ => gives_done _
  · next hcomma hclose h =>
    rw [afterItem_other h hcomma hclose]
    exact gives_fault _
  · next h =>
    rw [afterItem_end h]
    exact gives_fault _
termination_by 4 * p.size + 2
decreasing_by all_goals omega

end

theorem gives_operand (name : String) {op : Operator} {p : Parser}
    (h : p.peek = some (Grammar.operatorToken op)) :
    (Script.operand name op).Gives (p.comparison name) := by
  rw [comparison_of_operator name h]
  exact gives_advance fun q _ => gives_call_done (gives_value q)

theorem gives_comparison (name : String) (p : Parser) :
    (script (.comparison name) p).Gives (p.comparison name) := by
  rw [script]
  split
  · next h => exact @gives_operand name .equal p h
  · next h => exact @gives_operand name .notEqual p h
  · next tag h => exact @gives_operand name (.tagged tag) p h
  · next hequal hnotEqual htagged =>
    rw [comparison_of_none]
    · exact gives_done _
    · intro token htoken hop
      cases token with
      | equal => exact hequal htoken
      | notEqual => exact hnotEqual htoken
      | comparison tag => exact htagged tag htoken
      | _ => exact hop

mutual

theorem gives_disjunction (p : Parser) : (script .disjunction p).Gives p.disjunction := by
  rw [script, disjunction_eq]
  exact gives_call (gives_conjunction p) fun left q hq =>
    gives_link fun r hr => gives_disjunction r.deeper
termination_by 4 * p.size + 3
decreasing_by
  · omega
  · show 4 * r.size + 3 < 4 * p.size + 3
    omega

theorem gives_conjunction (p : Parser) : (script .conjunction p).Gives p.conjunction := by
  rw [script, conjunction_eq]
  exact gives_call (gives_constraint p) fun left q hq =>
    gives_link fun r hr => gives_conjunction r.deeper
termination_by 4 * p.size + 2
decreasing_by
  · omega
  · show 4 * r.size + 2 < 4 * p.size + 2
    omega

theorem gives_constraint (p : Parser) : (script .constraint p).Gives p.constraint := by
  rw [script]
  split
  · next h =>
    rw [constraint_open h]
    exact gives_nested_id (gives_group p.deeper _)
  · next name h =>
    rw [constraint_selector h]
    exact gives_advance fun q _ => gives_call_done (gives_comparison name q)
  · next hopen hselector h =>
    rw [constraint_other h hopen hselector]
    exact gives_fault _
  · next h =>
    rw [constraint_end h]
    exact gives_fault _
termination_by 4 * p.size + 1
decreasing_by show 4 * p.size < 4 * p.size + 1; omega

theorem gives_group (p : Parser) (hp : p.current.isSome = true) :
    (script .group p).Gives (p.group hp) := by
  rw [script, Parser.group]
  refine gives_advance fun q hq => gives_call (gives_disjunction q) fun inner r hr => ?_
  split
  · exact gives_advance fun _ _ => gives_done inner
  · exact ⟨_, .fail _ _ _ r⟩
termination_by 4 * p.size
decreasing_by omega

end

theorem gives_filter (p : Parser) : (script .filter p).Gives p.filter := by
  rw [script, Parser.filter]
  refine gives_call (gives_disjunction p) fun e q hq => ?_
  cases hpeek : q.peek with
  | none => exact gives_done e
  | some token => cases token <;> exact gives_fault _

/-- Each function of the parser is a run of the script of its rule. -/
theorem runs_outcome {α : Type} (rule : Rule α) (p : Parser) (h : rule.Starts p) :
    ∃ log, Runs (script rule p) p log (rule.outcome p h).answer (rule.outcome p h).after := by
  cases rule with
  | value => exact gives_value p
  | list => exact gives_list p h
  | items => exact gives_items p
  | comparison selector => exact gives_comparison selector p
  | disjunction => exact gives_disjunction p
  | conjunction => exact gives_conjunction p
  | constraint => exact gives_constraint p
  | group => exact gives_group p h
  | filter => exact gives_filter p

end Parser
end Criteria
