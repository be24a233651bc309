import Criteria.Proofs.Grammar.Rules

/-!
# What is done to a parser

An outcome says how a rule ends, and not what the rule does before.  What it does to the parser are
acts of four kinds: tokens are taken, the lexer fails, levels are opened and closed.  A log of acts is
a path if each of them is allowed where it is made and leads to the next one.

**Results.**
* `Parser.Path`: what a run of the parser is.
* `Parser.Logs`: what a log has to do with how a rule ends, and how logs are put together.
-/

namespace Criteria
namespace Parser

section Advance

variable {p q : Parser} {l : Lexer}

theorem advance_of_ok {next : Option Lexeme} (h : p.lexer.next = (.ok next, l)) :
    p.advance = (.ok (), { p with lexer := l, current := next, previous := p.current }) := by
  rw [advance, h]

theorem advance_of_error {e : LexError} (h : p.lexer.next = (.error e, l)) :
    p.advance = (.error (.lexical e), { p with lexer := l }) := by
  rw [advance, h]

theorem exists_of_advance_ok (h : p.advance = (.ok (), q)) :
    ∃ next l, p.lexer.next = (.ok next, l) ∧
      q = { p with lexer := l, current := next, previous := p.current } := by
  unfold advance at h
  split at h
  · cases h
  · next next l hnext =>
    cases h
    exact ⟨next, l, hnext, rfl⟩

theorem exists_of_advance_error {e : ParseError} (h : p.advance = (.error e, q)) :
    ∃ e' l, p.lexer.next = (.error e', l) ∧ e = .lexical e' ∧ q = { p with lexer := l } := by
  unfold advance at h
  split at h
  · next e' l hnext =>
    cases h
    exact ⟨e', l, hnext, rfl, rfl⟩
  · cases h

theorem depth_of_advance {answer : Except ParseError Unit} (h : p.advance = (answer, q)) :
    q.depth = p.depth := by
  cases answer with
  | ok =>
    obtain ⟨_, _, -, rfl⟩ := exists_of_advance_ok h
    rfl
  | error =>
    obtain ⟨_, _, -, -, rfl⟩ := exists_of_advance_error h
    rfl

theorem size_lt_of_ok {next : Option Lexeme} (hp : p.current.isSome = true)
    (h : p.lexer.next = (.ok next, l)) :
    ({ p with lexer := l, current := next, previous := p.current } : Parser).size < p.size := by
  have hadvance := advance_of_ok h
  have hlt := advance_size_lt hp (by rw [hadvance])
  rwa [hadvance] at hlt

theorem size_le_of_error {e : LexError} (h : p.lexer.next = (.error e, l)) :
    ({ p with lexer := l } : Parser).size ≤ p.size := by
  have hadvance := advance_of_error h
  have hle := @advance_size_le p (.lexical e) (by rw [hadvance])
  rwa [hadvance] at hle

end Advance

/-! ### Logs -/

/-- What is done to a parser. -/
inductive Act where
  /-- The current token is taken. -/
  | took
  /-- The token behind the current one is asked for, and the lexer fails. -/
  | stalled (e : LexError)
  /-- One more level is opened. -/
  | opened
  /-- The innermost level is closed. -/
  | closed

/-- An act, and the parser that it is done to. -/
structure Event where
  before : Parser
  act : Act

/-- The token that is taken. -/
def Event.token? : Event → Option Lexeme
  | ⟨p, .took⟩ => p.current
  | _ => none

/-- The parser that asks its lexer for a token. -/
def Event.asker? : Event → Option Parser
  | ⟨p, .took⟩ | ⟨p, .stalled _⟩ => some p
  | _ => none

/-- The tokens taken, in their order. -/
def taken (log : List Event) : List Lexeme :=
  log.filterMap Event.token?

/-- The parsers that ask their lexer for a token, in their order. -/
def asked (log : List Event) : List Parser :=
  log.filterMap Event.asker?

theorem taken_took (p : Parser) (log : List Event) :
    taken (⟨p, .took⟩ :: log) = p.current.toList ++ taken log := by
  cases h : p.current <;> simp [taken, Event.token?, h]

theorem asked_append (log log' : List Event) : asked (log ++ log') = asked log ++ asked log' :=
  List.filterMap_append

/-- Levels that are opened and closed ask for nothing. -/
theorem asked_nested (p q : Parser) (log : List Event) :
    asked (⟨p, .opened⟩ :: (log ++ [⟨q, .closed⟩])) = asked log :=
  (asked_append log _).trans (List.append_nil _)

/-- The parser that an allowed act leads to.  A token is taken only where there is one; a level is
opened only if less than all are open, and closed only if one is. -/
inductive Event.Leads : Event → Parser → Prop
  | took {p q : Parser} (hcurrent : p.current.isSome = true) (h : p.advance = (.ok (), q)) :
      Leads ⟨p, .took⟩ q
  | stalled {p q : Parser} {e : LexError} (hcurrent : p.current.isSome = true)
      (h : p.advance = (.error (.lexical e), q)) : Leads ⟨p, .stalled e⟩ q
  | opened {p : Parser} (h : p.depth < maxNesting) : Leads ⟨p, .opened⟩ p.deeper
  | closed {p : Parser} (h : 0 < p.depth) : Leads ⟨p, .closed⟩ p.shallower

/-- Events that lead from one parser to another, step by step. -/
inductive Path : Parser → List Event → Parser → Prop
  | nil (p : Parser) : Path p [] p
  | cons {p q r : Parser} {act : Act} {log : List Event} (h : Event.Leads ⟨p, act⟩ q)
      (rest : Path q log r) : Path p (⟨p, act⟩ :: log) r

theorem Path.single {p q : Parser} {act : Act} (h : Event.Leads ⟨p, act⟩ q) :
    Path p [⟨p, act⟩] q :=
  .cons h (.nil q)

theorem Path.append {p q r : Parser} {log log' : List Event} (h : Path p log q)
    (h' : Path q log' r) : Path p (log ++ log') r := by
  induction h with
  | nil => exact h'
  | cons hstep _ ih => exact .cons hstep (ih h')

/-- Whoever asks for a token on a path has a current one. -/
theorem Path.current_of_asked {p q : Parser} {log : List Event} (h : Path p log q) :
    ∀ r ∈ asked log, r.current.isSome = true := by
  induction h with
  | nil => exact List.forall_mem_nil _
  | cons hstep _ ih =>
    cases hstep with
    | took hcurrent => exact List.forall_mem_cons.2 ⟨hcurrent, ih⟩
    | stalled hcurrent => exact List.forall_mem_cons.2 ⟨hcurrent, ih⟩
    | opened => exact ih
    | closed => exact ih

/-- What a log has to do with how a rule ends. -/
structure Logs {α : Type} (p : Parser) (log : List Event) (answer : Except ParseError α)
    (after : Parser) : Prop where
  path : Path p log after
  depth_eq : after.depth = p.depth
  /-- If the lexer fails, the rule fails with its error. -/
  lexical : ∀ q e, ⟨q, .stalled e⟩ ∈ log → answer = .error (.lexical e)
  /-- Too deep a nesting is reported only where all levels are open. -/
  tooDeep : ∀ line near, answer = .error (.grammar line .nestingTooDeep near) →
    maxNesting ≤ p.depth ∨ ∃ q, ⟨q, .closed⟩ ∈ log ∧ maxNesting ≤ q.depth

namespace Logs

variable {α β : Type} {p q r : Parser} {log log' : List Event}

theorem done (a : α) (p : Parser) : Logs p [] (.ok a) p where
  path := .nil p
  depth_eq := rfl
  lexical _ _ h := absurd h List.not_mem_nil
  tooDeep _ _ h := by cases h

theorem fail {line : Nat} {fault : SyntaxFault} {near : Option Token}
    (h : fault = .nestingTooDeep → maxNesting ≤ p.depth) :
    Logs p [] (.error (.grammar line fault near) : Except ParseError α) p where
  path := .nil p
  depth_eq := rfl
  lexical _ _ h := absurd h List.not_mem_nil
  tooDeep _ _ hanswer := by
    cases hanswer
    exact .inl (h rfl)

theorem map {answer : Except ParseError α} (h : Logs p log answer q) (f : α → β) :
    Logs p log (answer.map f) q where
  path := h.path
  depth_eq := h.depth_eq
  lexical s e hs := congrArg (Except.map f) (h.lexical s e hs)
  tooDeep line near hanswer := by
    refine h.tooDeep line near ?_
    cases answer with
    | error e => exact congrArg Except.error (Except.error.inj hanswer)
    | ok a => cases hanswer

theorem of_error {e : ParseError} (h : Logs p log (.error e : Except ParseError α) q) :
    Logs p log (.error e : Except ParseError β) q where
  path := h.path
  depth_eq := h.depth_eq
  lexical s e' hs := congrArg Except.error (Except.error.inj (h.lexical s e' hs))
  tooDeep line near hanswer :=
    h.tooDeep line near (congrArg Except.error (Except.error.inj hanswer))

/-- Behind a success the log goes on. -/
theorem andThen {a : α} {answer : Except ParseError β} (h : Logs p log (.ok a) q)
    (h' : Logs q log' answer r) : Logs p (log ++ log') answer r where
  path := h.path.append h'.path
  depth_eq := h'.depth_eq.trans h.depth_eq
  lexical s e hs := by
    rcases List.mem_append.1 hs with hs | hs
    · cases h.lexical s e hs
    · exact h'.lexical s e hs
  tooDeep line near hanswer := by
    rcases h'.tooDeep line near hanswer with hdepth | ⟨s, hs, hdepth⟩
    · exact .inl (h.depth_eq ▸ hdepth)
    · exact .inr ⟨s, List.mem_append_right _ hs, hdepth⟩

/-- A token is taken. -/
theorem took (hcurrent : p.current.isSome = true) (h : p.advance = (.ok (), q)) :
    Logs p [⟨p, .took⟩] (.ok ()) q where
  path := .single (.took hcurrent h)
  depth_eq := depth_of_advance h
  lexical s e hs := by cases List.mem_singleton.1 hs
  tooDeep _ _ h := by cases h

/-- The lexer fails. -/
theorem stalled {e : LexError} (hcurrent : p.current.isSome = true)
    (h : p.advance = (.error (.lexical e), q)) :
    Logs p [⟨p, .stalled e⟩] (.error (.lexical e) : Except ParseError α) q where
  path := .single (.stalled hcurrent h)
  depth_eq := depth_of_advance h
  lexical s e' hs := by
    cases List.mem_singleton.1 hs
    rfl
  tooDeep _ _ h := by cases h

/-- A level is opened, and closed whatever the answer is. -/
theorem nested {answer : Except ParseError α} (hlt : p.depth < maxNesting)
    (h : Logs p.deeper log answer q) :
    Logs p (⟨p, .opened⟩ :: (log ++ [⟨q, .closed⟩])) answer q.shallower where
  path := by
    have hdepth : 0 < q.depth := h.depth_eq ▸ Nat.succ_pos _
    exact .cons (.opened hlt) (h.path.append (.single (.closed hdepth)))
  depth_eq := congrArg (· - 1) h.depth_eq
  lexical s e hs := by
    refine h.lexical s e ?_
    simpa using hs
  tooDeep line near hanswer := by
    right
    rcases h.tooDeep line near hanswer with hdepth | ⟨s, hs, hdepth⟩
    · exact ⟨q, by simp, h.depth_eq ▸ hdepth⟩
    · exact ⟨s, by simp [hs], hdepth⟩

end Logs

end Parser
end Criteria
