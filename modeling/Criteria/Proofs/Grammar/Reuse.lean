import Criteria.Proofs.Grammar.Descent
import Criteria.Proofs.Grammar.Guards
import Criteria.Proofs.Token.Stream
import Mathlib.Data.List.Basic

/-!
# A parser that is used again

A parser can be asked for a filter or a value any number of times, whatever the answers are.  What
it does on all these calls is one path of acts, and what an act does to the registers of a parser is
easily seen; so the laws of a parser that is used again come from an induction on paths.

**Results.**
* `Parser.Path.tokens`, `Parser.Path.previous_eq` and `Parser.Path.depth_eq`: the registers at the
  end of a path.
* `Parser.sound_of_calls`: what holds after any calls.
-/

namespace Criteria
namespace Parser

/-! ### What a log amounts to -/

/-- How often the lexer is asked for a token. -/
def requests (log : List Event) : Nat :=
  (asked log).length

theorem requests_took (p : Parser) (log : List Event) :
    requests (⟨p, .took⟩ :: log) = requests log + 1 :=
  rfl

theorem requests_stalled (p : Parser) (e : LexError) (log : List Event) :
    requests (⟨p, .stalled e⟩ :: log) = requests log + 1 :=
  rfl

/-- How many levels are opened. -/
def openings : List Event → Nat
  | [] => 0
  | ⟨_, .opened⟩ :: log => openings log + 1
  | ⟨_, .took⟩ :: log | ⟨_, .stalled _⟩ :: log | ⟨_, .closed⟩ :: log => openings log

/-- How many levels are closed. -/
def closings : List Event → Nat
  | [] => 0
  | ⟨_, .closed⟩ :: log => closings log + 1
  | ⟨_, .took⟩ :: log | ⟨_, .stalled _⟩ :: log | ⟨_, .opened⟩ :: log => closings log

section Amounts

variable {p q r : Parser} {log : List Event}

/-- The tokens taken, and then the current one, are those that the lexer answers. -/
theorem Path.tokens (h : Path p log q) :
    taken log ++ q.current.toList = p.current.toList ++ p.lexer.answered (requests log) := by
  induction h with
  | nil p => exact (List.append_nil _).symm
  | @cons p q r act log hstep _ ih =>
    cases hstep with
    | took hcurrent hadvance =>
      obtain ⟨next, l, hnext, rfl⟩ := exists_of_advance_ok hadvance
      rw [taken_took, requests_took, Lexer.answered_succ_of_ok hnext, List.append_assoc, ih]
    | stalled _ hadvance =>
      obtain ⟨_, l, hnext, -, rfl⟩ := exists_of_advance_error hadvance
      rw [requests_stalled, Lexer.answered_succ_of_error hnext]
      exact ih
    | opened => exact ih
    | closed => exact ih

theorem Path.lexer_eq (h : Path p log q) : q.lexer = p.lexer.after (requests log) := by
  induction h with
  | nil p => rfl
  | cons hstep _ ih =>
    cases hstep with
    | took _ hadvance =>
      obtain ⟨next, l, hnext, rfl⟩ := exists_of_advance_ok hadvance
      rw [requests_took, Lexer.after_succ hnext]
      exact ih
    | stalled _ hadvance =>
      obtain ⟨_, l, hnext, -, rfl⟩ := exists_of_advance_error hadvance
      rw [requests_stalled, Lexer.after_succ hnext]
      exact ih
    | opened => exact ih
    | closed => exact ih

/-- The last token is the one taken last. -/
theorem Path.previous_eq (h : Path p log q) :
    q.previous = (taken log).getLast?.or p.previous := by
  induction h with
  | nil p => rfl
  | @cons p q r act log hstep _ ih =>
    cases hstep with
    | took hcurrent hadvance =>
      obtain ⟨next, l, -, rfl⟩ := exists_of_advance_ok hadvance
      obtain ⟨lexeme, hlexeme⟩ := Option.isSome_iff_exists.1 hcurrent
      rw [ih, taken_took, hlexeme, Option.toList_some, List.singleton_append, List.getLast?_cons]
      cases (taken log).getLast? <;> rfl
    | stalled _ hadvance =>
      obtain ⟨_, l, -, -, rfl⟩ := exists_of_advance_error hadvance
      exact ih
    | opened => exact ih
    | closed => exact ih

/-- The levels open at the end, counted from those at the start. -/
theorem Path.depth_eq (h : Path p log q) :
    q.depth + closings log = p.depth + openings log := by
  induction h with
  | nil p => rfl
  | cons hstep _ ih =>
    cases hstep with
    | took _ hadvance => exact depth_of_advance hadvance ▸ ih
    | stalled _ hadvance => exact depth_of_advance hadvance ▸ ih
    | opened =>
      simp only [deeper] at ih
      simp only [closings, openings]
      omega
    | closed hpos =>
      simp only [shallower] at ih
      simp only [closings, openings]
      omega

/-- No act leaves more than all levels open. -/
theorem Event.Leads.depth_le {act : Act} (h : Event.Leads ⟨p, act⟩ q)
    (hp : p.depth ≤ maxNesting) : q.depth ≤ maxNesting := by
  cases h with
  | took _ hadvance => exact depth_of_advance hadvance ▸ hp
  | stalled _ hadvance => exact depth_of_advance hadvance ▸ hp
  | opened hlt => exact hlt
  | closed => exact Nat.le_trans (Nat.sub_le _ _) hp

theorem Path.depth_le (h : Path p log q) (hp : p.depth ≤ maxNesting) :
    ∀ event ∈ log, event.before.depth ≤ maxNesting := by
  induction h with
  | nil => exact List.forall_mem_nil _
  | cons hstep _ ih => exact List.forall_mem_cons.2 ⟨hp, ih (hstep.depth_le hp)⟩

/-- Every event of a path is allowed. -/
theorem Path.exists_leads (h : Path p log q) : ∀ event ∈ log, ∃ r, event.Leads r := by
  induction h with
  | nil => exact List.forall_mem_nil _
  | cons hstep _ ih => exact List.forall_mem_cons.2 ⟨⟨_, hstep⟩, ih⟩

/-- The part of a path before one of its events. -/
theorem Path.before {act : Act} {log' : List Event}
    (h : Path p (log ++ ⟨r, act⟩ :: log') q) : Path p log r := by
  induction log generalizing p with
  | nil =>
    cases h with
    | cons => exact .nil r
  | cons event log ih =>
    cases h with
    | cons hstep rest => exact .cons hstep (ih rest)

/-- Where no token is taken and the lexer does not fail, the level may change and nothing else. -/
theorem Path.unmoved (h : Path p log q) (htaken : taken log = [])
    (hstalled : ∀ event ∈ log, ∀ e, event.act ≠ .stalled e) : q = { p with depth := q.depth } := by
  induction h with
  | nil p => rfl
  | cons hstep _ ih =>
    obtain ⟨hevent, hlog⟩ := List.forall_mem_cons.1 hstalled
    cases hstep with
    | took hcurrent =>
      obtain ⟨lexeme, hlexeme⟩ := Option.isSome_iff_exists.1 hcurrent
      rw [taken_took, hlexeme] at htaken
      cases htaken
    | stalled => exact absurd rfl (hevent _)
    | opened => exact ih htaken hlog
    | closed => exact ih htaken hlog

end Amounts

/-! ### Calls -/

/-- What a parser can be asked for. -/
inductive Call where
  /-- A complete filter. -/
  | filter
  /-- One value. -/
  | value

/-- What a call answers, and the parser after it. -/
def Call.run : Call → Parser → Except ParseError (Expr ⊕ Value) × Parser
  | .filter, p => (p.parse.1.map .inl, p.parse.2)
  | .value, p => (p.parseValue.1.map .inr, p.parseValue.2)

/-- What a call does on its way. -/
def Call.log : Call → Parser → List Event
  | .filter, p => (Invocation.run ⟨_, .filter, p⟩).1.log
  | .value, p => (Invocation.run ⟨_, .value, p⟩).1.log

/-- The parser after calls, whatever they answer. -/
def afterCalls : List Call → Parser → Parser
  | [], p => p
  | call :: calls, p => (call.run p).2.afterCalls calls

/-- What calls do on their way, one after the other. -/
def logOf : List Call → Parser → List Event
  | [], _ => []
  | call :: calls, p => call.log p ++ (call.run p).2.logOf calls

/-- What a rule does that ends as its function does. -/
theorem Invocation.logs (i : Invocation) (h : i.rule.Starts i.parser) :
    Logs i.parser i.run.1.log (i.rule.outcome i.parser h).answer
      (i.rule.outcome i.parser h).after := by
  obtain ⟨hanswer, hafter⟩ := i.run.2.outcome h
  rw [hanswer, hafter]
  exact Runs.logs i.run.2 (guarded_script h)

theorem Call.logs (call : Call) (p : Parser) :
    Logs p (call.log p) (call.run p).1 (call.run p).2 := by
  cases call with
  | filter => exact (Invocation.logs ⟨_, .filter, p⟩ trivial).map Sum.inl
  | value => exact (Invocation.logs ⟨_, .value, p⟩ trivial).map Sum.inr

theorem path_logOf (calls : List Call) (p : Parser) :
    Path p (p.logOf calls) (p.afterCalls calls) := by
  induction calls generalizing p with
  | nil => exact .nil p
  | cons call calls ih => exact (call.logs p).path.append (ih _)

theorem depth_afterCalls (calls : List Call) (p : Parser) :
    (p.afterCalls calls).depth = p.depth := by
  induction calls generalizing p with
  | nil => rfl
  | cons call calls ih => exact (ih _).trans (call.logs p).depth_eq

/-- What is known of a parser behind the acts of `log`, which started on the lexer `l`. -/
structure Sound (l : Lexer) (log : List Event) (p : Parser) : Prop where
  /-- No level is open. -/
  depth_eq : p.depth = 0
  /-- There never were more levels open than may be. -/
  depth_le : ∀ event ∈ log, event.before.depth ≤ maxNesting
  /-- No level was closed that was not open. -/
  depth_pos : ∀ event ∈ log, event.act = .closed → 0 < event.before.depth
  /-- The lexer's answers are the tokens taken, in their order, and then the current one. -/
  tokens : taken log ++ p.current.toList = l.answered (requests log + 1)
  lexer_eq : p.lexer = l.after (requests log + 1)
  previous_eq : p.previous = (taken log).getLast?

/-- What is known of one call more. -/
structure Call.Fair (call : Call) (p : Parser) : Prop where
  /-- Too deep a nesting is reported only for levels that this very call has opened. -/
  tooDeep : ∀ line near, (call.run p).1 = .error (.grammar line .nestingTooDeep near) →
    ∃ log log', call.log p = log ++ log' ∧ openings log = closings log + maxNesting
  /-- A call that fails by the grammar before it takes a token changes nothing, and fails again. -/
  unmoved : ∀ line fault near, (call.run p).1 = .error (.grammar line fault near) →
    taken (call.log p) = [] → (call.run p).2 = p ∧ (call.run (call.run p).2).1 = (call.run p).1

theorem sound_of_path {l : Lexer} {start p : Parser} {log : List Event}
    (hstart : ofLexer l = .ok start) (hpath : Path start log p) (hdepth : p.depth = start.depth) :
    Sound l log p := by
  unfold ofLexer at hstart
  split at hstart
  · cases hstart
  · next first after hnext =>
    cases hstart
    exact {
      depth_eq := hdepth
      depth_le := hpath.depth_le (Nat.zero_le _)
      depth_pos := by
        intro event hevent hclosed
        obtain ⟨r, hleads⟩ := hpath.exists_leads event hevent
        cases hleads with
        | closed hpos => exact hpos
        | _ => cases hclosed
      tokens := by rw [Lexer.answered_succ_of_ok hnext]; exact hpath.tokens
      lexer_eq := by rw [Lexer.after_succ hnext]; exact hpath.lexer_eq
      previous_eq := by rw [hpath.previous_eq, Option.or_none] }

theorem Call.fair (call : Call) {p : Parser} (hp : p.depth = 0) : call.Fair p where
  tooDeep := by
    intro line near hanswer
    have hlogs := call.logs p
    rcases hlogs.tooDeep line near hanswer with hdeep | ⟨q, hq, hdeep⟩
    · rw [hp] at hdeep
      exact absurd hdeep (by decide)
    · obtain ⟨log, log', hlog⟩ := List.append_of_mem hq
      have hpath : Path p (log ++ ⟨q, .closed⟩ :: log') (call.run p).2 := hlog ▸ hlogs.path
      refine ⟨log, _, hlog, ?_⟩
      have hle : q.depth ≤ maxNesting := hlogs.path.depth_le (hp ▸ Nat.zero_le _) _ hq
      have hlevels := hpath.before.depth_eq
      omega
  unmoved := by
    intro line fault near hanswer htaken
    have hlogs := call.logs p
    have hstalled : ∀ event ∈ call.log p, ∀ e, event.act ≠ .stalled e := by
      rintro ⟨q, act⟩ hevent e rfl
      cases hanswer.symm.trans (hlogs.lexical q e hevent)
    have hsame : (call.run p).2 = p := by
      rw [hlogs.path.unmoved htaken hstalled, hlogs.depth_eq]
    exact ⟨hsame, by rw [hsame]⟩

/-- **A parser is sound whenever it is used again.**  After any calls, no level is open, and the
tokens taken are those that the lexer has answered up to the current one, each once.  A failure of
the lexer leaves both tokens as they are, and a failure of the grammar before the first token leaves
all of the parser. -/
theorem sound_of_calls {text : String} {start : Parser}
    (hstart : ofLexer (Lexer.ofString text) = .ok start) (calls : List Call) :
    Path start (start.logOf calls) (start.afterCalls calls) ∧
    Sound (Lexer.ofString text) (start.logOf calls) (start.afterCalls calls) ∧
    ((start.afterCalls calls).previous = none ↔ taken (start.logOf calls) = []) ∧
    (∀ (p q : Parser) (e : ParseError), p.advance = (.error e, q) →
      q.current = p.current ∧ q.previous = p.previous) ∧
    ∀ call : Call, call.Fair (start.afterCalls calls) := by
  have hpath := path_logOf calls start
  have hsound := sound_of_path hstart hpath (depth_afterCalls calls start)
  refine ⟨hpath, hsound, ?previous, ?advance, fun call => call.fair hsound.depth_eq⟩
  case previous => rw [hsound.previous_eq, List.getLast?_eq_none_iff]
  case advance =>
    intro p q e hadvance
    obtain ⟨_, l, -, -, rfl⟩ := exists_of_advance_error hadvance
    exact ⟨rfl, rfl⟩

theorem sound_of_calls_around_error :
    ∃ start, ofLexer (Lexer.ofString "1 99999999999999999999 (b)") = .ok start ∧
      Sound (Lexer.ofString "1 99999999999999999999 (b)")
        (start.logOf [.value, .filter, .value, .value])
        (start.afterCalls [.value, .filter, .value, .value]) ∧
      taken (start.logOf [.value, .filter, .value, .value]) =
        [⟨.integer 1, 1⟩, ⟨.leftParen, 1⟩, ⟨.selector "b", 1⟩, ⟨.rightParen, 1⟩] := by
  refine ⟨⟨⟨" 99999999999999999999 (b)".toList, 1⟩, some ⟨.integer 1, 1⟩, none, 0⟩, ?_, ?_, ?_⟩
  · decide +kernel
  · exact (sound_of_calls (by decide +kernel) _).2.1
  · decide +kernel

end Parser
end Criteria
