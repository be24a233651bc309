import Criteria.Proofs.Grammar.Descent
import Criteria.Proofs.Grammar.Guards
import Criteria.Proofs.Token.Calls

/-!
# Progress of the rules

What a rule does to the parser, it does by asking the lexer.  The log of a run has a list of the
parsers that ask, and from this list it can be read off what is taken, where the lexer is left, and
how often it is asked.

**Results.**
* `Parser.consumes_script`: a rule that succeeds has taken a token.
* `Parser.Runs.lexer_eq`: the lexer is where its calls have left it.
* `Parser.rules_progress`: all of this together, and how often a lexer is asked for a text.
-/

namespace Criteria

namespace Lexer

/-- Where the lexer stands at each of the next `n` calls. -/
def stations : Nat → Lexer → List Lexer
  | 0, _ => []
  | n + 1, l => l :: l.next.2.stations n

/-- What the calls of a lexer answer that yields these tokens, up to the one that stops. -/
def stream (lexemes : List Lexeme) (stop : Option LexError) :
    List (Except LexError (Option Lexeme)) :=
  lexemes.map (fun lexeme => .ok (some lexeme)) ++ [stop.elim (.ok none) .error]

section Stations

variable {l : Lexer} {lexemes : List Lexeme} {stop : Option LexError}

theorem after_add (m n : Nat) (l : Lexer) : l.after (m + n) = (l.after m).after n := by
  induction m generalizing l with
  | zero => rw [Nat.zero_add]; rfl
  | succ m ih =>
    rw [Nat.succ_add]
    exact ih l.next.2

theorem stations_add (m n : Nat) (l : Lexer) :
    l.stations (m + n) = l.stations m ++ (l.after m).stations n := by
  induction m generalizing l with
  | zero => rw [Nat.zero_add]; rfl
  | succ m ih =>
    rw [Nat.succ_add]
    exact congrArg (l :: ·) (ih l.next.2)

/-- A lexer never goes back. -/
theorem after_forward (n : Nat) (l : Lexer) :
    (l.after n).rest <:+ l.rest ∧ l.line ≤ (l.after n).line := by
  induction n generalizing l with
  | zero => exact ⟨List.suffix_refl _, Nat.le_refl _⟩
  | succ n ih =>
    obtain ⟨hrest, hline, -⟩ := l.call_answers
    have hsuffix : l.next.2.rest <:+ l.rest := by
      rw [hrest, ← List.append_assoc]
      exact List.suffix_append _ _
    have hle : l.line ≤ l.next.2.line := hline ▸ Nat.le_add_right _ _
    exact ⟨(ih l.next.2).1.trans hsuffix, Nat.le_trans hle (ih l.next.2).2⟩

theorem length_le_of_mem_stations {n : Nat} {l' : Lexer} (h : l' ∈ l.stations n) :
    l'.rest.length ≤ l.rest.length := by
  induction n generalizing l with
  | zero => cases h
  | succ n ih =>
    rcases List.mem_cons.1 h with rfl | h
    · exact Nat.le_refl _
    · exact Nat.le_trans (ih h) l.next_length_le

theorem stations_of_le_one {answer : Except LexError (Option Lexeme)} (h : l.next.1 = answer)
    {n : Nat} (hn : n ≤ 1) :
    ((l.stations n).map fun l' => l'.next.1) <+: [answer] ∧
      (l.stations n).Pairwise fun l' l'' => l''.rest.length < l'.rest.length := by
  cases n with
  | zero => exact ⟨List.nil_prefix, .nil⟩
  | succ n =>
    obtain rfl := Nat.le_zero.1 (Nat.le_of_succ_le_succ hn)
    subst h
    exact ⟨List.prefix_refl _, List.pairwise_singleton _ _⟩

/-- The calls answer one token after the other, and none of them twice. -/
theorem Yields.stations_lawful (h : l.Yields lexemes stop) {n : Nat} (hn : n ≤ lexemes.length + 1) :
    ((l.stations n).map fun l' => l'.next.1) <+: stream lexemes stop ∧
      (l.stations n).Pairwise fun l' l'' => l''.rest.length < l'.rest.length := by
  induction h generalizing n with
  | done h => exact stations_of_le_one (congrArg Prod.fst h) hn
  | fails h => exact stations_of_le_one (congrArg Prod.fst h) hn
  | @token l l' lexeme lexemes stop h rest ih =>
    cases n with
    | zero => exact ⟨List.nil_prefix, .nil⟩
    | succ n =>
      obtain ⟨hstream, hpairwise⟩ := ih (Nat.le_of_succ_le_succ hn)
      have hlt := @next_length_lt l lexeme (by rw [h])
      rw [stations, List.map_cons, h]
      rw [h] at hlt
      refine ⟨List.cons_prefix_cons.2 ⟨rfl, hstream⟩, List.pairwise_cons.2 ⟨?_, hpairwise⟩⟩
      exact fun l'' h'' => Nat.lt_of_le_of_lt (length_le_of_mem_stations h'') hlt

end Stations

end Lexer

namespace Parser

/-! ### What is taken -/

/-- The current tokens of the parsers that ask for the next one. -/
def currents (asked : List Parser) : List Lexeme :=
  asked.filterMap Parser.current

/-- The tokens ahead of a parser: the current one, if there is any, and those that the lexer
yields. -/
def Ahead (p : Parser) (lexemes : List Lexeme) (stop : Option LexError) : Prop :=
  ∃ behind, p.lexer.Yields behind stop ∧ lexemes = p.current.toList ++ behind

/-- Where the script succeeds, it has taken a token. -/
def Script.Consumes {α : Type} (s : Script α) (p : Parser) : Prop :=
  ∀ log a q, Runs s p log (.ok a) q → ∃ r ∈ asked log, r.current.isSome = true

section Consumes

variable {α β : Type} {p : Parser}

theorem consumes_fail {line : Nat} {fault : SyntaxFault} {near : Option Token} :
    (Script.fail line fault near : Script α).Consumes p := by
  rintro _ _ _ ⟨⟩

theorem consumes_advance {next : Parser → Script α}
    (h : p.current.isSome = true ∨ ∀ q, (next q).Consumes q) : (Script.advance next).Consumes p := by
  rintro _ a q (_ | _ | ⟨hadvance, hrest⟩)
  rcases h with hp | h
  · exact ⟨p, List.mem_cons_self, hp⟩
  · obtain ⟨r, hr, hcurrent⟩ := h _ _ a q hrest
    exact ⟨r, List.mem_cons_of_mem _ hr, hcurrent⟩

theorem consumes_call {rule : Rule β} {next : β → Parser → Script α}
    (h : (script rule p).Consumes p ∨ ∀ b q, (next b q).Consumes q) :
    (Script.call rule next).Consumes p := by
  rintro _ a q (_ | _ | _ | _ | ⟨hrun, hrest⟩)
  rw [asked_append]
  rcases h with h | h
  · obtain ⟨r, hr, hcurrent⟩ := h _ _ _ hrun
    exact ⟨r, List.mem_append_left _ hr, hcurrent⟩
  · obtain ⟨r, hr, hcurrent⟩ := h _ _ _ a q hrest
    exact ⟨r, List.mem_append_right _ hr, hcurrent⟩

theorem consumes_nested {rule : Rule β} {f : β → α} (h : (script rule p.deeper).Consumes p.deeper) :
    (Script.nested rule f).Consumes p := by
  intro log a q hrun
  cases hrun with
  | @nested _ _ _ _ _ _ _ answer _ _ hrun hanswer =>
    cases answer with
    | error => cases hanswer
    | ok b =>
      rw [asked_nested]
      exact h _ _ _ hrun

end Consumes

section Consumes

variable (p : Parser)

/-- The list ends with a token, whatever its items take. -/
theorem consumes_items : (script .items p).Consumes p := by
  refine consumes_call (.inr fun first q => ?_)
  split
  · next h => exact consumes_advance (.inl (isSome_of_peek h))
  · next h => exact consumes_advance (.inl (isSome_of_peek h))
  · exact consumes_fail
  · exact consumes_fail

theorem consumes_list : (script .list p).Consumes p := by
  refine consumes_advance (.inr fun q => ?_)
  split
  · next h => exact consumes_advance (.inl (isSome_of_peek h))
  · exact consumes_call (.inl (consumes_items q))

theorem consumes_value : (script .value p).Consumes p := by
  rw [script]
  split
  · exact consumes_fail
  · next h =>
    split
    · exact consumes_advance (.inl (isSome_of_peek h))
    · split
      · exact consumes_nested (consumes_list p.deeper)
      · exact consumes_fail

/-- The group ends with a token, whatever stands in it. -/
theorem consumes_group : (script .group p).Consumes p := by
  refine consumes_advance (.inr fun q => consumes_call (.inr fun inner r => ?_))
  split
  · next h => exact consumes_advance (.inl (isSome_of_peek h))
  · exact consumes_fail

theorem consumes_constraint : (script .constraint p).Consumes p := by
  rw [script]
  split
  · exact consumes_nested (consumes_group p.deeper)
  · next h => exact consumes_advance (.inl (isSome_of_peek h))
  · exact consumes_fail
  · exact consumes_fail

theorem consumes_conjunction : (script .conjunction p).Consumes p :=
  consumes_call (.inl (consumes_constraint p))

theorem consumes_disjunction : (script .disjunction p).Consumes p :=
  consumes_call (.inl (consumes_conjunction p))

end Consumes

/-- Only behind a selector nothing at all may be taken. -/
def Rule.Consuming {α : Type} : Rule α → Prop
  | .comparison _ => False
  | _ => True

theorem consumes_script {α : Type} {rule : Rule α} (h : rule.Consuming) (p : Parser) :
    (script rule p).Consumes p := by
  cases rule with
  | value => exact consumes_value p
  | list => exact consumes_list p
  | items => exact consumes_items p
  | comparison => exact h.elim
  | disjunction => exact consumes_disjunction p
  | conjunction => exact consumes_conjunction p
  | constraint => exact consumes_constraint p
  | group => exact consumes_group p
  | filter => exact consumes_call (.inl (consumes_disjunction p))

section Taken

variable {α : Type} {s : Script α} {p q : Parser} {log : List Event}
  {answer : Except ParseError α} {lexemes : List Lexeme} {stop : Option LexError}

theorem currents_cons (p : Parser) (asked : List Parser) :
    currents (p :: asked) = p.current.toList ++ currents asked := by
  cases h : p.current <;> simp [currents, h]

theorem currents_append (asked asked' : List Parser) :
    currents (asked ++ asked') = currents asked ++ currents asked' :=
  List.filterMap_append

/-- A parser that asks for a token leaves the other ones ahead. -/
theorem Ahead.advance (h : p.Ahead lexemes stop) (hadvance : p.advance = (.ok (), q)) :
    ∃ rest, lexemes = p.current.toList ++ rest ∧ q.Ahead rest stop := by
  obtain ⟨behind, hyields, rfl⟩ := h
  obtain ⟨next, l, hnext, rfl⟩ := exists_of_advance_ok hadvance
  refine ⟨behind, rfl, ?_⟩
  cases hyields with
  | done h =>
    obtain ⟨hnone, rfl⟩ := Prod.mk.inj (h.symm.trans hnext)
    cases hnone
    -- The lexer has come to the end of the text and stays there.
    have hstay := Lexer.next_of_stops (l := p.lexer) (.inl (congrArg Prod.fst h))
    rw [h] at hstay
    exact ⟨[], .done hstay, rfl⟩
  | fails h => cases h.symm.trans hnext
  | token h rest =>
    cases h.symm.trans hnext
    exact ⟨_, rest, rfl⟩

/-- What is taken are the first of the tokens ahead, and the other ones are ahead of the parser that
is left, unless the lexer fails. -/
theorem Runs.currents_of_ahead (h : Runs s p log answer q) (hahead : p.Ahead lexemes stop) :
    ∃ rest, lexemes = currents (asked log) ++ rest ∧
      ((∀ e, answer ≠ .error (.lexical e)) → q.Ahead rest stop) := by
  induction h generalizing lexemes with
  | done => exact ⟨lexemes, rfl, fun _ => hahead⟩
  | fail => exact ⟨lexemes, rfl, fun _ => hahead⟩
  | @took _ _ p q r log _ h _ ih =>
    obtain ⟨rest, rfl, hq⟩ := hahead.advance h
    obtain ⟨rest', rfl, hr⟩ := ih hq
    have hcurrents : currents (asked (⟨p, .took⟩ :: log)) = _ := currents_cons p (asked log)
    exact ⟨rest', by rw [hcurrents, List.append_assoc], hr⟩
  | @stalled _ _ p _ e h =>
    obtain ⟨behind, hyields, rfl⟩ := hahead
    obtain ⟨_, _, hnext, _, -⟩ := exists_of_advance_error h
    -- The lexer fails behind the last token, so that only the current one is ahead.
    have hbehind : behind = [] := by
      cases hyields with
      | done => rfl
      | fails => rfl
      | token h' => cases h'.symm.trans hnext
    subst hbehind
    have hcurrents : currents (asked [⟨p, .stalled e⟩]) = _ := currents_cons p []
    exact ⟨[], by rw [hcurrents]; simp [currents], fun hanswer => absurd rfl (hanswer e)⟩
  | called _ _ ih ihrest =>
    obtain ⟨rest, rfl, hq⟩ := ih hahead
    obtain ⟨rest', rfl, hr⟩ := ihrest (hq fun _ => by rintro ⟨⟩)
    exact ⟨rest', by rw [asked_append, currents_append, List.append_assoc], hr⟩
  | failed _ ih =>
    obtain ⟨rest, rfl, hq⟩ := ih hahead
    exact ⟨rest, rfl, fun hanswer => hq fun e he => hanswer e (by cases he; rfl)⟩
  | nested _ _ hanswer ih =>
    obtain ⟨rest, rfl, hq⟩ := ih hahead
    refine ⟨rest, by rw [asked_nested], fun h => hq fun e he => h e ?_⟩
    rw [← hanswer, he]
    rfl
  | tooDeep => exact ⟨lexemes, rfl, fun _ => hahead⟩

end Taken

/-! ### How often a lexer is asked -/

section Requests

variable {α : Type} {s : Script α} {p q : Parser} {log : List Event}
  {answer : Except ParseError α}

theorem lexer_of_advance {answer : Except ParseError Unit} (h : p.advance = (answer, q)) :
    q.lexer = p.lexer.next.2 := by
  cases answer with
  | error =>
    obtain ⟨_, _, hnext, -, rfl⟩ := exists_of_advance_error h
    rw [hnext]
  | ok =>
    obtain ⟨_, _, hnext, rfl⟩ := exists_of_advance_ok h
    rw [hnext]

/-- The lexer is asked again and again, and nothing else is done to it. -/
theorem Runs.lexer_eq (h : Runs s p log answer q) :
    (asked log).map Parser.lexer = p.lexer.stations (asked log).length ∧
      q.lexer = p.lexer.after (asked log).length := by
  induction h with
  | done => exact ⟨rfl, rfl⟩
  | fail => exact ⟨rfl, rfl⟩
  | took h _ ih =>
    rw [lexer_of_advance h] at ih
    exact ⟨congrArg (_ :: ·) ih.1, ih.2⟩
  | stalled h => exact ⟨rfl, lexer_of_advance h⟩
  | called _ _ ih ihrest =>
    rw [ih.2] at ihrest
    rw [asked_append, List.map_append, List.length_append, Lexer.stations_add, Lexer.after_add]
    exact ⟨congrArg₂ _ ih.1 ihrest.1, ihrest.2⟩
  | failed _ ih => exact ih
  | nested _ _ _ ih =>
    rw [asked_nested]
    exact ih
  | tooDeep => exact ⟨rfl, rfl⟩

/-- Where a token is taken, input is taken. -/
theorem Runs.size_lt {a : α} {r : Parser} (h : Runs s p log (.ok a) q) (hr : r ∈ asked log)
    (hcurrent : r.current.isSome = true) : q.size < p.size := by
  generalize hanswer : Except.ok a = answer at h
  induction h with
  | done => cases hr
  | fail => cases hr
  | took h hrest ih =>
    rcases List.mem_cons.1 hr with rfl | hr
    · exact Nat.lt_of_le_of_lt hrest.size_le (size_lt_of_advance hcurrent h)
    · exact Nat.lt_of_lt_of_le (ih hr hanswer) (size_le_of_advance h)
  | stalled => cases hanswer
  | called h hrest ih ihrest =>
    rw [asked_append] at hr
    rcases List.mem_append.1 hr with hr | hr
    · exact Nat.lt_of_le_of_lt hrest.size_le (ih hr rfl)
    · exact Nat.lt_of_lt_of_le (ihrest hr hanswer) h.size_le
  | failed => cases hanswer
  | @nested _ _ _ _ _ _ _ answer _ _ _ hmap ih =>
    rw [asked_nested] at hr
    subst hanswer
    cases answer with
    | error => cases hmap
    | ok b => exact ih hr rfl
  | tooDeep => cases hanswer

end Requests

/-! ### Progress -/

theorem length_lt_of_size_lt {p q : Parser} (hq : q.current.isSome = true)
    (h : q.size < p.size) : q.lexer.rest.length < p.lexer.rest.length := by
  rw [size, size, if_pos hq] at h
  split at h <;> omega

/-- Each further item of a list is read from less text. -/
theorem items_shorten (p : Parser) :
    (script .items p).CallsOnly
      (fun i => ∀ r, i = ⟨_, .items, r⟩ → r.lexer.rest.length < p.lexer.rest.length) p := by
  refine callsOnly_call ?_ fun _ first q hrun => ?_
  · -- The rule that is called first is another one, as its rank shows.
    intro r h
    cases congrArg (fun i : Invocation => i.rule.rank) h
  split
  · next hpeek =>
    refine callsOnly_advance fun q' hq' => callsOnly_call ?_ fun _ _ _ _ => callsOnly_done
    intro r h
    obtain rfl : q' = r := congrArg Invocation.parser h
    obtain ⟨s, hs, hcurrent⟩ := consumes_value p _ _ _ hrun
    have hlt := length_lt_of_size_lt (isSome_of_peek hpeek) (hrun.size_lt hs hcurrent)
    rw [lexer_of_advance hq']
    exact Nat.lt_of_le_of_lt q.lexer.next_length_le hlt
  · exact callsOnly_advance fun _ _ => callsOnly_done
  · exact callsOnly_fail
  · exact callsOnly_fail

/-- What the end of a rule has to do with its start. -/
structure Invocation.Advances (i : Invocation) (e : Ending i.Answer) : Prop where
  /-- The function of the rule ends in the same way. -/
  outcome : ∀ h : i.rule.Starts i.parser,
    (i.rule.outcome i.parser h).answer = e.answer ∧ (i.rule.outcome i.parser h).after = e.after
  /-- Nothing is done to the lexer but to ask it, again and again. -/
  lexer : e.asked.map Parser.lexer = i.parser.lexer.stations e.asked.length ∧
    e.after.lexer = i.parser.lexer.after e.asked.length
  /-- Levels that have been opened are closed again. -/
  depth : e.after.depth = i.parser.depth
  /-- The lexer does not go back, whatever the answer is. -/
  forward : e.after.lexer.rest <:+ i.parser.lexer.rest ∧
    i.parser.lexer.line ≤ e.after.lexer.line
  /-- A success leaves less input. -/
  shrinks : i.rule.Consuming → ∀ a, e.answer = .ok a → e.after.size < i.parser.size
  /-- A success takes at least the first one of the tokens ahead, and leaves the ones behind those
  that it takes. -/
  consumes : i.rule.Consuming → ∀ a, e.answer = .ok a → ∀ lexemes stop,
    i.parser.Ahead lexemes stop → ∃ first more rest,
      currents e.asked = first :: more ∧ lexemes = first :: more ++ rest ∧ e.after.Ahead rest stop

/-- These are the calls of a lexer that yields the tokens: at most one more than there are tokens,
each of them further on in the text. -/
structure AsksOnce (l : Lexer) (lexemes : List Lexeme) (stop : Option LexError)
    (requests : List Lexer) : Prop where
  length_le : requests.length ≤ lexemes.length + 1
  stations : requests = l.stations requests.length
  /-- The `k`-th call answers the `k`-th token; the one behind the last token finds the end of the
  text, or the error there. -/
  answers : (requests.map fun l' => l'.next.1) <+: Lexer.stream lexemes stop
  forward : requests.Pairwise fun l' l'' => l''.rest.length < l'.rest.length

theorem advances_of_ends {i : Invocation} {e : Ending i.Answer} (h : i.Ends e) : i.Advances e where
  outcome := h.outcome
  lexer := h.lexer_eq
  depth := h.depth_eq
  forward := by
    rw [h.lexer_eq.2]
    exact i.parser.lexer.after_forward _
  shrinks hrule a hanswer := by
    obtain ⟨log, answer, q⟩ := e
    obtain rfl : answer = .ok a := hanswer
    obtain ⟨r, hr, hcurrent⟩ := consumes_script hrule i.parser log a q h
    exact h.size_lt hr hcurrent
  consumes hrule a hanswer lexemes stop hahead := by
    obtain ⟨log, answer, q⟩ := e
    obtain rfl : answer = .ok a := hanswer
    obtain ⟨r, hr, hcurrent⟩ := consumes_script hrule i.parser log a q h
    obtain ⟨rest, rfl, hafter⟩ := h.currents_of_ahead hahead
    obtain ⟨lexeme, hlexeme⟩ := Option.isSome_iff_exists.1 hcurrent
    obtain ⟨first, more, htaken⟩ := List.exists_cons_of_ne_nil
      (List.ne_nil_of_mem (List.mem_filterMap.2 ⟨r, hr, hlexeme⟩))
    exact ⟨first, more, rest, htaken, congrArg (· ++ rest) htaken, hafter fun _ => by rintro ⟨⟩⟩

/-- A parser for a text asks for the first token before it starts. -/
theorem advance_of_ofLexer {l : Lexer} {p : Parser} (h : ofLexer l = .ok p) :
    (⟨l, none, none, 0⟩ : Parser).advance = (.ok (), p) := by
  unfold ofLexer at h
  split at h
  · cases h
  · next hnext =>
    cases h
    exact advance_of_ok hnext

theorem asksOnce_of_ofLexer {l : Lexer} {p : Parser} {e : Ending Expr} {lexemes : List Lexeme}
    {stop : Option LexError} (hp : ofLexer l = .ok p) (h : Invocation.Ends ⟨_, .filter, p⟩ e)
    (hyields : l.Yields lexemes stop) :
    AsksOnce l lexemes stop (l :: e.asked.map Parser.lexer) := by
  have hadvance := advance_of_ofLexer hp
  obtain ⟨lexemes', hlexemes, hahead⟩ := Ahead.advance ⟨lexemes, hyields, rfl⟩ hadvance
  obtain rfl : lexemes = lexemes' := hlexemes
  obtain ⟨rest, hrest, -⟩ : ∃ rest, lexemes = currents e.asked ++ rest ∧ _ :=
    h.currents_of_ahead hahead
  have hpath := (Runs.logs h (guarded_script trivial)).path
  have hasked : (currents e.asked).length = e.asked.length :=
    List.filterMap_length_eq_length.2 hpath.current_of_asked
  have hle : e.asked.length ≤ lexemes.length := by
    rw [hrest, List.length_append, hasked]
    exact Nat.le_add_right _ _
  have hrequests : e.asked.map Parser.lexer = p.lexer.stations e.asked.length := h.lexer_eq.1
  have hstations : l :: e.asked.map Parser.lexer = l.stations (e.asked.length + 1) := by
    rw [hrequests, lexer_of_advance hadvance]
    rfl
  obtain ⟨hanswers, hforward⟩ := hyields.stations_lawful (Nat.succ_le_succ hle)
  rw [← hstations] at hanswers hforward
  exact ⟨by simpa using hle, by simpa using hstations, hanswers, hforward⟩

/-- **Every rule ends, and a success takes a token.**  Each call of a rule descends in the input, the
levels that are left and the rank of the rule; so from any parser whatever each rule ends, in one way
only, and the functions of the parser end so.  A success takes at least the next token, and each
further item of a list is read from less text.  Whatever the answer is, the lexer is not behind where
it was.  A text is read with one call of its lexer for each token, and at most one more. -/
theorem rules_progress :
    (∀ i j : Invocation, i.Calls j → j.descent < i.descent) ∧
    (∀ i : Invocation, ∃! e, i.Ends e) ∧
    (∀ (i : Invocation) e, i.Ends e → i.Advances e) ∧
    (∀ p r, Invocation.Calls ⟨_, .items, p⟩ ⟨_, .items, r⟩ →
      r.lexer.rest.length < p.lexer.rest.length) ∧
    ∀ text p e lexemes stop, ofLexer (Lexer.ofString text) = .ok p →
      Invocation.Ends ⟨_, .filter, p⟩ e → (Lexer.ofString text).Yields lexemes stop →
      AsksOnce (Lexer.ofString text) lexemes stop
        (Lexer.ofString text :: e.asked.map Parser.lexer) := by
  refine ⟨fun i j => Invocation.Calls.descent_lt, fun i => ?_, fun i e => advances_of_ends,
    fun p r h => items_shorten p _ h r rfl, fun text p e lexemes stop => asksOnce_of_ofLexer⟩
  exact ⟨i.run.1, i.run.2, fun e he => he.unique i.run.2⟩

end Parser
end Criteria
