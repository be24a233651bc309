import Mathlib.Data.Prod.Lex
import Criteria.Proofs.Grammar.Program

/-!
# The rules end

A rule may call another one before anything is read: a chain calls its first part, a list its first
item, and at an opening parenthesis all of them are called on top of each other.  What gets less with
each call is, in this order, the input, the levels that can still be opened, and the rank of the
rule.  So every rule ends, from any parser whatever, also from one that no text leads to.

**Results.**
* `Parser.Script.Makes`: the calls that a script makes.
* `Parser.Invocation.Calls.descent_lt`: each call descends.
* `Parser.Invocation.run`: every rule ends, from every parser.
* `Parser.Invocation.Ends.outcome`: where it starts as it should, it ends as its function does.
-/

namespace Criteria
namespace Parser

/-! ### Calls -/

/-- A rule that is called, and the parser that it starts from. -/
structure Invocation where
  Answer : Type
  rule : Rule Answer
  parser : Parser

/-- The script, started from a parser, comes to this call. -/
inductive Script.Makes : {α : Type} → Script α → Parser → Invocation → Prop
  | call {α β : Type} {rule : Rule β} {next : β → Parser → Script α} {p : Parser} :
      Makes (.call rule next) p ⟨β, rule, p⟩
  | nested {α β : Type} {rule : Rule β} {f : β → α} {p : Parser} (hdepth : p.depth < maxNesting) :
      Makes (.nested rule f) p ⟨β, rule, p.deeper⟩
  | behind_advance {α : Type} {next : Parser → Script α} {p q : Parser} {i : Invocation}
      (h : p.advance = (.ok (), q)) (rest : Makes (next q) q i) : Makes (.advance next) p i
  | behind_call {α β : Type} {rule : Rule β} {next : β → Parser → Script α} {p q : Parser}
      {log : List Event} {b : β} {i : Invocation} (h : Runs (script rule p) p log (.ok b) q)
      (rest : Makes (next b q) q i) : Makes (.call rule next) p i

/-- A rule that is under way calls another one. -/
def Invocation.Calls (i j : Invocation) : Prop :=
  (script i.rule i.parser).Makes i.parser j

/-- How a rule ends, and what it has done on the way. -/
structure Ending (α : Type) where
  log : List Event
  answer : Except ParseError α
  after : Parser

/-- The parsers that have asked the lexer for a token. -/
def Ending.asked {α : Type} (e : Ending α) : List Parser :=
  Parser.asked e.log

/-- The rule ends like this. -/
def Invocation.Ends (i : Invocation) (e : Ending i.Answer) : Prop :=
  Runs (script i.rule i.parser) i.parser e.log e.answer e.after

theorem Invocation.Ends.unique {i : Invocation} {e e' : Ending i.Answer} (h : i.Ends e)
    (h' : i.Ends e') : e = e' := by
  obtain ⟨hlog, hanswer, hafter⟩ := Runs.unique h h'
  cases e
  cases e'
  exact congr (congr (congrArg Ending.mk hlog) hanswer) hafter

/-- A rule that starts where it should ends as its function does. -/
theorem Invocation.Ends.outcome {i : Invocation} {e : Ending i.Answer} (h : i.Ends e)
    (hstarts : i.rule.Starts i.parser) :
    (i.rule.outcome i.parser hstarts).answer = e.answer ∧
      (i.rule.outcome i.parser hstarts).after = e.after := by
  obtain ⟨_, hrun⟩ := runs_outcome i.rule i.parser hstarts
  exact (hrun.unique h).2

/-- Runs a script, with a way to run the rules that it calls. -/
def Script.run {α : Type} : (s : Script α) → (p : Parser) →
    ((i : Invocation) → s.Makes p i → {e : Ending i.Answer // i.Ends e}) →
    {e : Ending α // Runs s p e.log e.answer e.after}
  | .done a, p, _ => ⟨⟨[], .ok a, p⟩, .done a p⟩
  | .fail line fault near, p, _ =>
      ⟨⟨[], .error (.grammar line fault near), p⟩, .fail line fault near p⟩
  | .advance next, p, rules =>
      match h : p.lexer.next with
      | (.error e, l) =>
          ⟨⟨[⟨p, .stalled e⟩], .error (.lexical e), { p with lexer := l }⟩,
            .stalled (advance_of_error h)⟩
      | (.ok lexeme, l) =>
          let q : Parser := { p with lexer := l, current := lexeme, previous := p.current }
          let rest := (next q).run q fun i hi => rules i (.behind_advance (advance_of_ok h) hi)
          ⟨⟨⟨p, .took⟩ :: rest.1.log, rest.1.answer, rest.1.after⟩,
            .took (advance_of_ok h) rest.2⟩
  | .call rule next, p, rules =>
      match rules ⟨_, rule, p⟩ .call with
      | ⟨⟨log, .error e, q⟩, h⟩ => ⟨⟨log, .error e, q⟩, .failed h⟩
      | ⟨⟨log, .ok b, q⟩, h⟩ =>
          let rest := (next b q).run q fun i hi => rules i (.behind_call h hi)
          ⟨⟨log ++ rest.1.log, rest.1.answer, rest.1.after⟩, .called h rest.2⟩
  | .nested rule f, p, rules =>
      if hdepth : p.depth < maxNesting then
        let inner := rules ⟨_, rule, p.deeper⟩ (.nested hdepth)
        ⟨⟨⟨p, .opened⟩ :: (inner.1.log ++ [⟨inner.1.after, .closed⟩]), inner.1.answer.map f,
          inner.1.after.shallower⟩, .nested hdepth inner.2 rfl⟩
      else
        ⟨⟨[], .error (p.fault .nestingTooDeep), p⟩, .tooDeep (Nat.le_of_not_lt hdepth)⟩

/-! ### Descent -/

/-- A rule that calls another one with as much input and as many levels calls one of lower rank. -/
def Rule.rank {α : Type} : Rule α → Nat
  | .filter | .group => 4
  | .disjunction | .list => 3
  | .conjunction | .items => 2
  | .constraint | .value => 1
  | .comparison _ => 0

/-- What gets less with each call: the input, then the levels that can still be opened, then the
rank of the rule. -/
def Invocation.descent (i : Invocation) : ℕ ×ₗ ℕ ×ₗ ℕ :=
  toLex (i.parser.size, toLex (maxNesting - i.parser.depth, i.rule.rank))

/-- The script makes no other calls than such ones. -/
def Script.CallsOnly {α : Type} (calls : Invocation → Prop) (s : Script α) (p : Parser) : Prop :=
  ∀ i, s.Makes p i → calls i

section CallsOnly

variable {α β : Type} {calls : Invocation → Prop} {p : Parser}

theorem callsOnly_done {a : α} : (Script.done a).CallsOnly calls p := by
  rintro _ ⟨⟩

theorem callsOnly_fail {line : Nat} {fault : SyntaxFault} {near : Option Token} :
    (Script.fail line fault near : Script α).CallsOnly calls p := by
  rintro _ ⟨⟩

theorem callsOnly_advance {next : Parser → Script α}
    (h : ∀ q, p.advance = (.ok (), q) → (next q).CallsOnly calls q) :
    (Script.advance next).CallsOnly calls p := by
  rintro i (_ | _ | ⟨hadvance, hmakes⟩)
  exact h _ hadvance i hmakes

theorem callsOnly_call {rule : Rule β} {next : β → Parser → Script α}
    (hrule : calls ⟨β, rule, p⟩)
    (h : ∀ log b q, Runs (script rule p) p log (.ok b) q → (next b q).CallsOnly calls q) :
    (Script.call rule next).CallsOnly calls p := by
  rintro i (_ | _ | _ | ⟨hrun, hmakes⟩)
  · exact hrule
  · exact h _ _ _ hrun i hmakes

theorem callsOnly_nested {rule : Rule β} {f : β → α}
    (h : p.depth < maxNesting → calls ⟨β, rule, p.deeper⟩) :
    (Script.nested rule f).CallsOnly calls p := by
  rintro i (_ | hdepth)
  exact h hdepth

end CallsOnly

/-- All calls that the script makes are below `i`. -/
def Script.Descends {α : Type} (s : Script α) (i : Invocation) (p : Parser) : Prop :=
  s.CallsOnly (fun j => j.descent < i.descent) p

section Descends

variable {α : Type} {i j : Invocation} {p : Parser}

theorem descent_lt_of_size (h : j.parser.size < i.parser.size) : j.descent < i.descent :=
  Prod.Lex.toLex_lt_toLex.2 (.inl h)

theorem descent_lt_of_levels (rule : Rule α) (hdepth : i.parser.depth < maxNesting) :
    (⟨α, rule, i.parser.deeper⟩ : Invocation).descent < i.descent := by
  have hlevels : maxNesting - (i.parser.depth + 1) < maxNesting - i.parser.depth := by omega
  exact Prod.Lex.toLex_lt_toLex.2 (.inr ⟨rfl, Prod.Lex.toLex_lt_toLex.2 (.inl hlevels)⟩)

theorem descent_lt_of_rank (hsize : j.parser.size ≤ i.parser.size)
    (hdepth : j.parser.depth = i.parser.depth) (hrank : j.rule.rank < i.rule.rank) :
    j.descent < i.descent := by
  have hlevels : maxNesting - j.parser.depth = maxNesting - i.parser.depth := by rw [hdepth]
  exact Prod.Lex.toLex_lt_toLex'.2
    ⟨hsize, fun _ => Prod.Lex.toLex_lt_toLex.2 (.inr ⟨hlevels, hrank⟩)⟩

theorem descends_operand {selector : String} {op : Operator} (h : p.current.isSome = true)
    (hsize : p.size ≤ i.parser.size) : (Script.operand selector op).Descends i p :=
  callsOnly_advance fun _ hq =>
    callsOnly_call (descent_lt_of_size (Nat.lt_of_lt_of_le (size_lt_of_advance h hq) hsize))
      fun _ _ _ _ => callsOnly_done

theorem descends_link {separator : Token} {rule : Rule Expr} {join : Expr → Expr → Expr}
    {left : Expr} (hsize : p.size ≤ i.parser.size) :
    (Script.link separator rule join left p).Descends i p := by
  unfold Script.link
  split
  · next h =>
    refine callsOnly_advance fun q hq => callsOnly_nested fun _ => descent_lt_of_size ?_
    show q.size < i.parser.size
    exact Nat.lt_of_lt_of_le (size_lt_of_advance (isSome_of_peek h) hq) hsize
  · exact callsOnly_done

theorem descends_value (p : Parser) : (script .value p).Descends ⟨_, .value, p⟩ p := by
  rw [script]
  split
  · exact callsOnly_fail
  · split
    · exact callsOnly_advance fun _ _ => callsOnly_done
    · split
      · exact callsOnly_nested (descent_lt_of_levels (i := ⟨_, .value, p⟩) .list)
      · exact callsOnly_fail

theorem descends_list (p : Parser) : (script .list p).Descends ⟨_, .list, p⟩ p := by
  refine callsOnly_advance fun q hq => ?_
  split
  · exact callsOnly_advance fun _ _ => callsOnly_done
  · refine callsOnly_call ?_ fun _ _ _ _ => callsOnly_done
    exact descent_lt_of_rank (size_le_of_advance hq) (depth_of_advance hq) (Nat.lt_succ_self _)

theorem descends_items (p : Parser) : (script .items p).Descends ⟨_, .items, p⟩ p := by
  refine callsOnly_call ?_ fun _ first q hrun => ?_
  · exact descent_lt_of_rank (Nat.le_refl _) rfl (Nat.lt_succ_self _)
  split
  · next h =>
    refine callsOnly_advance fun r hr => callsOnly_call ?_ fun _ _ _ _ => callsOnly_done
    have hlt := size_lt_of_advance (isSome_of_peek h) hr
    exact descent_lt_of_size (Nat.lt_of_lt_of_le hlt hrun.size_le)
  · exact callsOnly_advance fun _ _ => callsOnly_done
  · exact callsOnly_fail
  · exact callsOnly_fail

theorem descends_comparison (selector : String) (p : Parser) :
    (script (.comparison selector) p).Descends ⟨_, .comparison selector, p⟩ p := by
  rw [script]
  split
  · next h => exact descends_operand (isSome_of_peek h) (Nat.le_refl _)
  · next h => exact descends_operand (isSome_of_peek h) (Nat.le_refl _)
  · next h => exact descends_operand (isSome_of_peek h) (Nat.le_refl _)
  · exact callsOnly_done

theorem descends_disjunction (p : Parser) :
    (script .disjunction p).Descends ⟨_, .disjunction, p⟩ p := by
  refine callsOnly_call ?_ fun _ _ _ hrun => descends_link hrun.size_le
  exact descent_lt_of_rank (Nat.le_refl _) rfl (Nat.lt_succ_self _)

theorem descends_conjunction (p : Parser) :
    (script .conjunction p).Descends ⟨_, .conjunction, p⟩ p := by
  refine callsOnly_call ?_ fun _ _ _ hrun => descends_link hrun.size_le
  exact descent_lt_of_rank (Nat.le_refl _) rfl (Nat.lt_succ_self _)

theorem descends_constraint (p : Parser) :
    (script .constraint p).Descends ⟨_, .constraint, p⟩ p := by
  rw [script]
  split
  · exact callsOnly_nested (descent_lt_of_levels (i := ⟨_, .constraint, p⟩) .group)
  · next h =>
    refine callsOnly_advance fun q hq => callsOnly_call ?_ fun _ _ _ _ => callsOnly_done
    exact descent_lt_of_size (size_lt_of_advance (isSome_of_peek h) hq)
  · exact callsOnly_fail
  · exact callsOnly_fail

theorem descends_group (p : Parser) : (script .group p).Descends ⟨_, .group, p⟩ p := by
  refine callsOnly_advance fun q hq => callsOnly_call ?_ fun _ inner r _ => ?_
  · exact descent_lt_of_rank (size_le_of_advance hq) (depth_of_advance hq) (Nat.lt_succ_self _)
  split
  · exact callsOnly_advance fun _ _ => callsOnly_done
  · exact callsOnly_fail

theorem descends_filter (p : Parser) : (script .filter p).Descends ⟨_, .filter, p⟩ p := by
  refine callsOnly_call ?_ fun _ e q _ => ?_
  · exact descent_lt_of_rank (Nat.le_refl _) rfl (Nat.lt_succ_self _)
  split
  · exact callsOnly_done
  · exact callsOnly_fail
  · exact callsOnly_fail

/-- Each call that a rule makes descends. -/
theorem descends_script (rule : Rule α) (p : Parser) :
    (script rule p).Descends ⟨α, rule, p⟩ p := by
  cases rule with
  | value => exact descends_value p
  | list => exact descends_list p
  | items => exact descends_items p
  | comparison selector => exact descends_comparison selector p
  | disjunction => exact descends_disjunction p
  | conjunction => exact descends_conjunction p
  | constraint => exact descends_constraint p
  | group => exact descends_group p
  | filter => exact descends_filter p

end Descends

theorem Invocation.Calls.descent_lt {i j : Invocation} (h : i.Calls j) : j.descent < i.descent :=
  descends_script i.rule i.parser j h

/-! ### Every rule ends -/

theorem Rule.rank_le {α : Type} (rule : Rule α) : rule.rank ≤ 4 := by
  cases rule <;> simp [Rule.rank]

/-- The descent as one number. -/
def Invocation.weight (i : Invocation) : ℕ :=
  (i.parser.size * (maxNesting + 1) + (maxNesting - i.parser.depth)) * 5 + i.rule.rank

theorem Invocation.Calls.weight_lt {i j : Invocation} (h : i.Calls j) : j.weight < i.weight := by
  have hrank := j.rule.rank_le
  have hdescent := Prod.Lex.toLex_lt_toLex.1 h.descent_lt
  simp only [Prod.Lex.toLex_lt_toLex] at hdescent
  simp only [weight, maxNesting] at hdescent ⊢
  omega

/-- Runs a rule from any parser. -/
def Invocation.run (i : Invocation) : {e : Ending i.Answer // i.Ends e} :=
  (script i.rule i.parser).run i.parser fun j _hj => j.run
termination_by i.weight
decreasing_by exact Invocation.Calls.weight_lt _hj

end Parser
end Criteria
