import Criteria.Proofs.Token.Spelling

/-!
# Calls of a lexer

A lexer can be asked for a token any number of times, whatever it has answered.  Each call skips
blanks and takes the characters of one lexeme, or none where it stops.  What a call may answer is a
relation with one constructor for each kind of answer; a run of calls is this, over and over.

**Results.**
* `Lexer.call_answers`: what one call takes and answers, and where it leaves the lexer.
* `Lexer.stands_after`: where a lexer stands after any number of calls.
* `Lexer.next_lower` and `Lexer.calls_lower`: lines are counted on from the line that a lexer
  starts with, and nothing else is kept of the text before it.
* `Lexer.next_of_stops` and `Lexer.exists_stops`: a lexer that has stopped stays where it is, and
  every lexer stops.
* `Lexer.calls_lawful`: all of this for the calls on a text.
-/

namespace Criteria

open Token

/-- The characters are a number that is no value of its type. -/
def Token.IsOutOfRange (w : List Char) : Prop :=
  IsFloat w ∧ Rule.readFloat w = none ∨ IsInteger w ∧ Rule.readInteger w = none

/-- The same error `k` lines further down. -/
def LexError.lower (k : Nat) : LexError → LexError
  | .unexpectedCharacter c line => .unexpectedCharacter c (line + k)
  | .numberOutOfRange literal line => .numberOutOfRange literal (line + k)

/-- One call of a lexer: the blanks that it skips, the characters that it takes, and its answer. -/
structure Lexer.Call where
  gap : List Char
  word : List Char
  answer : Except LexError (Option Lexeme)

/-- What a call answers for the characters `word` that start on `line` and end before `rest`. -/
inductive Lexer.Answers (line : Nat) :
    (word rest : List Char) → Except LexError (Option Lexeme) → Prop
  | token {word rest : List Char} {token : Token} (hword : Spells word token)
      (hstop : IsBare word → StopsRun rest) :
      Answers line word rest (.ok (some ⟨token, line⟩))
  | outOfRange {word rest : List Char} (hword : IsOutOfRange word) (hstop : StopsRun rest) :
      Answers line word rest (.error (.numberOutOfRange (String.ofList word) line))
  | ended : Answers line [] [] (.ok none)
  | unexpected {c : Char} {rest : List Char} (hstray : Stray (c :: rest)) :
      Answers line [] (c :: rest) (.error (.unexpectedCharacter c line))

namespace Lexer

/-- The answer says that no token follows: the text has ended, or goes on with no lexeme. -/
def Stops (answer : Except LexError (Option Lexeme)) : Prop :=
  answer = .ok none ∨ ∃ c line, answer = .error (.unexpectedCharacter c line)

/-- The next call.  What it takes is the text from behind the blanks to where the lexer stands after
it. -/
def call (l : Lexer) : Call where
  gap := l.rest.takeWhile Text.isBlank
  word := l.behindBlanks.rest.take (l.behindBlanks.rest.length - l.next.2.rest.length)
  answer := l.next.1

/-- The first `n` calls, whatever they answer. -/
def calls : Nat → Lexer → List Call
  | 0, _ => []
  | n + 1, l => l.call :: l.next.2.calls n

/-- The text that calls skip and take, from left to right. -/
def consumed (calls : List Call) : List Char :=
  calls.flatMap fun call => call.gap ++ call.word

/-- The place in `text`, in bytes, at which the lexer stands. -/
def position (text : String) (l : Lexer) : String.Pos.Raw :=
  ⟨text.utf8ByteSize - (String.ofList l.rest).utf8ByteSize⟩

/-- The same lexer `k` lines further down. -/
def lower (k : Nat) (l : Lexer) : Lexer :=
  ⟨l.rest, l.line + k⟩

/-- The answer of a lexer `k` lines further down. -/
def lowerAnswer (k : Nat) :
    Except LexError (Option Lexeme) → Except LexError (Option Lexeme)
  | .ok lexeme => .ok (lexeme.map fun lexeme => ⟨lexeme.token, lexeme.line + k⟩)
  | .error e => .error (e.lower k)

/-- The call of a lexer `k` lines further down. -/
def Call.lower (k : Nat) (call : Call) : Call :=
  { call with answer := lowerAnswer k call.answer }

/-- The lexer stands in `text` behind the characters `taken`: at a boundary of characters, on the
line that the line feeds before it make. -/
structure Stands (text : String) (taken : List Char) (l : Lexer) : Prop where
  split : text.toList = taken ++ l.rest
  line : l.line = 1 + taken.count '\n'
  position : l.position text = (String.ofList taken).rawEndPos
  isValid : (l.position text).IsValid text

/-- What the next call of a lexer behind the characters `taken` does, and the calls behind it. -/
structure Lawful (taken : List Char) (l : Lexer) : Prop where
  blank : ∀ c ∈ l.call.gap, Text.isBlank c = true
  split : l.rest = l.call.gap ++ (l.call.word ++ l.next.2.rest)
  /-- What is answered has the line of its first character. -/
  answers : Answers (1 + (taken ++ l.call.gap).count '\n') l.call.word l.next.2.rest l.call.answer
  /-- Behind a number out of range the calls are those on the text that is left, with the line of
  the number. -/
  outOfRange : ∀ literal line, l.call.answer = .error (.numberOutOfRange literal line) →
    l.call.word = literal.toList ∧ l.next.2.line = line ∧
      ∀ n, l.next.2.calls n =
        ((ofString (String.ofList l.next.2.rest)).calls n).map (Call.lower (line - 1))
  /-- Once the lexer has stopped, every later call answers the same and stays at its place. -/
  stops : Stops l.call.answer → ∀ n, (l.after n).next = l.next

end Lexer

/-! ### One call -/

namespace Token

variable {word rest : List Char} {line : Nat}

theorem IsOutOfRange.isBare (h : IsOutOfRange word) : IsBare word := by
  rcases h with ⟨hfloat, -⟩ | ⟨hinteger, -⟩
  · have hform : Rule.float.Form word := hfloat
    exact Rule.isBare_of_form hform
  · have hform : Rule.integer.Form word := hinteger
    exact Rule.isBare_of_form hform

/-- A run of plain characters that is no token is a number out of range. -/
theorem outOfRange_of_classify {e : LexError} (h : classify word line = .error e) :
    IsOutOfRange word ∧ e = .numberOutOfRange (String.ofList word) line := by
  unfold classify at h
  split_ifs at h with hfloat hinteger
  · cases hx : Rule.readFloat word with
    | some x => rw [hx] at h; cases h
    | none => rw [hx] at h; cases h; exact ⟨.inl ⟨hfloat, hx⟩, rfl⟩
  · cases hn : Rule.readInteger word with
    | some n => rw [hn] at h; cases h
    | none => rw [hn] at h; cases h; exact ⟨.inr ⟨hinteger, hn⟩, rfl⟩

/-- What is read with an error is the whole run of plain characters at the start of a text. -/
theorem outOfRange_of_read {cs : List Char} {n : Nat} {e : LexError}
    (h : Token.read line cs = some (.error e, n)) :
    ∃ run tail, cs = run ++ tail ∧ run.length = n ∧ IsOutOfRange run ∧ StopsRun tail ∧
      e = .numberOutOfRange (String.ofList run) line := by
  unfold Token.read at h
  split at h
  · cases h
  · cases h
  · cases h
  · cases h
  · cases h
  · split at h <;> cases h
  · obtain ⟨_, _, heq⟩ := Option.map_eq_some_iff.1 h
    cases heq
  · split at h
    · obtain ⟨_, _, heq⟩ := Option.map_eq_some_iff.1 h
      cases heq
    · obtain ⟨hclass, hlength⟩ := Prod.mk.inj (Option.some.inj h)
      obtain ⟨hrange, he⟩ := outOfRange_of_classify hclass
      exact ⟨_, _, (List.takeWhile_append_dropWhile (p := Rule.isBareChar)).symm, hlength, hrange,
        fun c hc => head?_dropWhile_eq hc, he⟩

end Token

namespace Lexer

section Call

variable {l : Lexer} {word rest : List Char} {line : Nat}

/-- Where no blank comes first, the scanner takes the characters of its answer. -/
theorem scanHere_answers (hl : ∀ c, l.rest.head? = some c → Text.isBlank c = false) :
    ∃ word, l.rest = word ++ l.scanHere.2.rest ∧
      l.scanHere.2.line = l.line + word.count '\n' ∧
      Answers l.line word l.scanHere.2.rest l.scanHere.1 := by
  obtain ⟨cs, line⟩ := l
  cases cs with
  | nil => exact ⟨[], rfl, rfl, .ended⟩
  | cons c rest =>
    have hskip (word tail : List Char) (heq : c :: rest = word ++ tail) :
        (⟨c :: rest, line⟩ : Lexer).skip word.length = ⟨tail, line + word.count '\n'⟩ := by
      rw [skip, heq, List.drop_left, List.take_left]
    cases hread : Token.read line (c :: rest) with
    | none =>
      rw [scanHere_of_none rfl hread]
      exact ⟨[], rfl, rfl, .unexpected (read_eq_none_iff.1 hread)⟩
    | some found =>
      obtain ⟨answer, n⟩ := found
      rw [scanHere_of_some rfl hread]
      cases answer with
      | error e =>
        obtain ⟨word, tail, heq, rfl, hrange, hstop, rfl⟩ := outOfRange_of_read hread
        rw [hskip word tail heq]
        exact ⟨word, heq, rfl, .outOfRange hrange hstop⟩
      | ok token =>
        obtain ⟨word, tail, heq, rfl, hword, hstop⟩ := begins_of_read (hl c rfl) hread
        rw [hskip word tail heq]
        exact ⟨word, heq, rfl, .token hword hstop⟩

theorem gap_blank (l : Lexer) : ∀ c ∈ l.call.gap, Text.isBlank c = true :=
  fun _ hc => List.mem_takeWhile_imp hc

theorem behindBlanks_eq (l : Lexer) :
    l.behindBlanks = ⟨l.rest.dropWhile Text.isBlank, l.line + l.call.gap.count '\n'⟩ := by
  rw [behindBlanks, skip, drop_length_takeWhile, take_length_takeWhile]
  rfl

/-- What one call takes, where it leaves the lexer, and what it answers. -/
theorem call_answers (l : Lexer) :
    l.rest = l.call.gap ++ (l.call.word ++ l.next.2.rest) ∧
      l.next.2.line = l.line + (l.call.gap ++ l.call.word).count '\n' ∧
      Answers (l.line + l.call.gap.count '\n') l.call.word l.next.2.rest l.call.answer := by
  obtain ⟨word, hrest, hline, hanswers⟩ := scanHere_answers (l := l.behindBlanks) fun c hc => by
    rw [behindBlanks_rest] at hc
    exact head?_dropWhile_eq hc
  rw [← scan, ← next_eq_scan] at hrest hline hanswers
  have hword : l.call.word = word := by
    show l.behindBlanks.rest.take (l.behindBlanks.rest.length - l.next.2.rest.length) = word
    rw [hrest, List.length_append, Nat.add_sub_cancel, List.take_left]
  rw [behindBlanks_eq] at hrest hline hanswers
  refine ⟨?_, ?_, ?_⟩
  · rw [hword, ← hrest]
    exact (List.takeWhile_append_dropWhile (p := Text.isBlank)).symm
  · rw [hline, hword, List.count_append, Nat.add_assoc]
  · rw [hword]
    exact hanswers

/-- A call that does not stop takes at least one character. -/
theorem Answers.word_pos {answer : Except LexError (Option Lexeme)}
    (h : Answers line word rest answer) (hgoes : ¬ Stops answer) : 0 < word.length := by
  cases h with
  | token hword =>
    obtain ⟨c, tail, rfl, -⟩ := hword.exists_cons
    exact Nat.succ_pos _
  | outOfRange hword => exact List.length_pos_iff.2 hword.isBare.1
  | ended => exact absurd (.inl rfl) hgoes
  | unexpected => exact absurd (.inr ⟨_, _, rfl⟩) hgoes

/-- A call that stops takes blanks only. -/
theorem Answers.word_eq_nil {answer : Except LexError (Option Lexeme)}
    (h : Answers line word rest answer) (hstops : Stops answer) : word = [] := by
  cases h with
  | token => rcases hstops with h | ⟨c, n, h⟩ <;> cases h
  | outOfRange => rcases hstops with h | ⟨c, n, h⟩ <;> cases h
  | ended => rfl
  | unexpected => rfl

theorem Answers.outOfRange_eq {literal : String} {n : Nat}
    (h : Answers line word rest (.error (.numberOutOfRange literal n))) :
    IsOutOfRange word ∧ word = literal.toList ∧ n = line := by
  cases h with
  | outOfRange hword => exact ⟨hword, String.toList_ofList.symm, rfl⟩

end Call

/-! ### Lines are counted on -/

theorem decode_lower (rule : Token.Rule) (text : List Char) (line k : Nat) :
    rule.decode text (line + k) = (rule.decode text line).mapError (LexError.lower k) := by
  cases rule
  case float => simp only [Token.Rule.decode]; cases Token.Rule.readFloat text <;> rfl
  case integer => simp only [Token.Rule.decode]; cases Token.Rule.readInteger text <;> rfl
  all_goals rfl

theorem stuck_lower (l : Lexer) (k : Nat) : (l.lower k).stuck = lowerAnswer k l.stuck := by
  obtain ⟨rest, line⟩ := l
  cases rest <;> rfl

theorem skip_lower (l : Lexer) (n k : Nat) : (l.lower k).skip n = (l.skip n).lower k := by
  simp only [skip, lower, Nat.add_right_comm]

/-- A lexer does not know what stands before it, but for the line that it is on. -/
theorem next_lower (l : Lexer) (k : Nat) :
    (l.lower k).next = (lowerAnswer k l.next.1, l.next.2.lower k) := by
  have hdecode (l : Lexer) (rule : Token.Rule) (n : Nat) :
      rule.decode ((l.lower k).rest.take n) (l.lower k).line =
        (rule.decode (l.rest.take n) l.line).mapError (LexError.lower k) := decode_lower ..
  fun_induction next l with
  | case1 l hnone =>
    rw [next_of_longest_none (l := l.lower k) hnone, stuck_lower]
  | case2 l rule n hlongest hblank ih =>
    rw [next_of_longest (l := l.lower k) hlongest, hdecode, hblank, skip_lower]
    exact ih
  | case3 l rule n hlongest token htoken =>
    rw [next_of_longest (l := l.lower k) hlongest, hdecode, htoken, skip_lower]
    rfl
  | case4 l rule n hlongest e herror =>
    rw [next_of_longest (l := l.lower k) hlongest, hdecode, herror, skip_lower]
    rfl

theorem calls_lower (l : Lexer) (k n : Nat) :
    (l.lower k).calls n = (l.calls n).map (Call.lower k) := by
  induction n generalizing l with
  | zero => rfl
  | succ n ih =>
    have hcall : (l.lower k).call = l.call.lower k := by
      have hbehind : (l.lower k).behindBlanks.rest = l.behindBlanks.rest := by
        rw [behindBlanks_rest, behindBlanks_rest]
        rfl
      simp only [call, Call.lower, next_lower, hbehind]
      rfl
    rw [calls, hcall, next_lower, ih]
    rfl

/-! ### Runs of calls -/

section Run

variable {l : Lexer} {text : String} {taken : List Char}

/-- A lexer that has stopped stays where it is. -/
theorem next_of_stops (h : Stops l.next.1) : l.next.2.next = l.next := by
  obtain ⟨hrest, hline, hanswers⟩ := l.call_answers
  rw [hanswers.word_eq_nil h] at hrest hline
  have hbehind : l.next.2 = l.behindBlanks := by
    have hdrop : l.rest.dropWhile Text.isBlank = l.next.2.rest := by
      refine (List.append_right_inj l.call.gap).1 ?_
      rw [← List.nil_append l.next.2.rest, ← hrest]
      exact List.takeWhile_append_dropWhile
    rw [behindBlanks_eq, hdrop, ← List.append_nil l.call.gap, ← hline]
  rw [hbehind, ← next_behindBlanks]

theorem next_after_of_stops (h : Stops l.next.1) (n : Nat) : (l.after n).next = l.next := by
  induction n generalizing l with
  | zero => rfl
  | succ n ih =>
    have hnext := next_of_stops h
    rw [after, ih (by rwa [hnext]), hnext]

/-- Each call that does not stop takes a character, so one of them stops. -/
theorem exists_stops (l : Lexer) : ∃ n ≤ l.rest.length, Stops (l.after n).next.1 := by
  induction hn : l.rest.length using Nat.strong_induction_on generalizing l with
  | _ n ih =>
    by_cases hstops : Stops l.next.1
    · exact ⟨0, Nat.zero_le _, hstops⟩
    · obtain ⟨hrest, -, hanswers⟩ := l.call_answers
      have hpos := hanswers.word_pos hstops
      have hlength := congrArg List.length hrest
      simp only [List.length_append] at hlength
      obtain ⟨k, hk, hstop⟩ := ih _ (by omega) l.next.2 rfl
      exact ⟨k + 1, by omega, hstop⟩

theorem after_succ_eq (l : Lexer) (n : Nat) : l.after (n + 1) = (l.after n).next.2 := by
  induction n generalizing l with
  | zero => rfl
  | succ n ih => exact ih l.next.2

theorem calls_succ_eq (l : Lexer) (n : Nat) :
    l.calls (n + 1) = l.calls n ++ [(l.after n).call] := by
  induction n generalizing l with
  | zero => rfl
  | succ n ih => exact congrArg (l.call :: ·) (ih l.next.2)

theorem consumed_succ (l : Lexer) (n : Nat) :
    consumed (l.calls (n + 1)) =
      consumed (l.calls n) ++ ((l.after n).call.gap ++ (l.after n).call.word) := by
  rw [calls_succ_eq, consumed, List.flatMap_append, List.flatMap_singleton]
  rfl

/-- A lexer with the text behind `taken` and the line of that place stands there. -/
theorem Stands.of_split (hsplit : text.toList = taken ++ l.rest)
    (hline : l.line = 1 + taken.count '\n') : Stands text taken l := by
  have htext : text = String.ofList taken ++ String.ofList l.rest := by
    rw [← String.ofList_append, ← hsplit, String.ofList_toList]
  have hposition : l.position text = (String.ofList taken).rawEndPos := by
    refine String.Pos.Raw.ext ?_
    show text.utf8ByteSize - (String.ofList l.rest).utf8ByteSize =
      (String.ofList taken).utf8ByteSize
    rw [htext, String.utf8ByteSize_append, Nat.add_sub_cancel]
  refine ⟨hsplit, hline, hposition, ?_⟩
  exact String.Pos.Raw.isValid_iff_exists_append.2 ⟨_, _, htext, hposition⟩

/-- One call takes the lexer on by what it skips and takes. -/
theorem Stands.next (h : Stands text taken l) :
    Stands text (taken ++ (l.call.gap ++ l.call.word)) l.next.2 := by
  obtain ⟨hrest, hline, -⟩ := l.call_answers
  refine .of_split ?_ ?_
  · rw [h.split, hrest, List.append_assoc, List.append_assoc]
  · rw [hline, h.line, Nat.add_assoc, ← List.count_append]

theorem stands_after (text : String) (n : Nat) :
    Stands text (consumed ((ofString text).calls n)) ((ofString text).after n) := by
  induction n with
  | zero => exact .of_split rfl rfl
  | succ n ih =>
    rw [consumed_succ, after_succ_eq]
    exact ih.next

theorem position_le_next (h : Stands text taken l) : l.position text ≤ l.next.2.position text := by
  rw [h.position, h.next.position, String.Pos.Raw.le_iff, String.byteIdx_rawEndPos,
    String.byteIdx_rawEndPos, String.ofList_append, String.utf8ByteSize_append]
  exact Nat.le_add_right _ _

/-- Behind a number out of range the lexer is one on the text that is left. -/
theorem calls_of_outOfRange (h : Stands text taken l) {literal : String} {line : Nat}
    (hanswer : l.call.answer = .error (.numberOutOfRange literal line)) :
    l.call.word = literal.toList ∧ l.next.2.line = line ∧
      ∀ n, l.next.2.calls n =
        ((ofString (String.ofList l.next.2.rest)).calls n).map (Call.lower (line - 1)) := by
  obtain ⟨-, hline, hanswers⟩ := l.call_answers
  rw [hanswer] at hanswers
  obtain ⟨hrange, hword, rfl⟩ := hanswers.outOfRange_eq
  -- No line ends in a number, so the lexer is still on the line of the error.
  have hnext : l.next.2.line = l.line + l.call.gap.count '\n' := by
    rw [hline, List.count_append, Rule.count_lineFeed hrange.isBare, Nat.add_zero]
  have hpos : 1 ≤ l.line + l.call.gap.count '\n' := by
    rw [h.line, Nat.add_assoc]
    exact Nat.le_add_right _ _
  have hlower : (ofString (String.ofList l.next.2.rest)).lower
      (l.line + l.call.gap.count '\n' - 1) = l.next.2 := by
    rw [lower, ofString, String.toList_ofList, Nat.add_sub_cancel' hpos, ← hnext]
  exact ⟨hword, hnext, fun n => by rw [← calls_lower, hlower]⟩

theorem lawful_of_stands (h : Stands text taken l) : Lawful taken l := by
  obtain ⟨hrest, -, hanswers⟩ := l.call_answers
  refine ⟨l.gap_blank, hrest, ?_, fun literal line => calls_of_outOfRange h,
    next_after_of_stops⟩
  rwa [List.count_append, ← Nat.add_assoc, ← h.line]

end Run

/-- The calls of a lexer on a text, however many and whatever they answer.  After each of them the
lexer stands behind the text that the calls have skipped and taken; it never goes back; and within
as many calls as there are characters, and one, it stops for good. -/
theorem calls_lawful (text : String) :
    (∀ n, Stands text (consumed ((ofString text).calls n)) ((ofString text).after n) ∧
      Lawful (consumed ((ofString text).calls n)) ((ofString text).after n)) ∧
    (∀ m n, m ≤ n →
      ((ofString text).after m).position text ≤ ((ofString text).after n).position text) ∧
    ∃ n ≤ text.length, Stops ((ofString text).after n).call.answer := by
  refine ⟨fun n => ?_, fun m n hmn => ?_, ?_⟩
  · exact ⟨stands_after text n, lawful_of_stands (stands_after text n)⟩
  · induction hmn with
    | refl => exact Nat.le_refl _
    | step _ ih =>
      rw [after_succ_eq]
      exact Nat.le_trans ih (position_le_next (stands_after text _))
  · obtain ⟨n, hn, hstops⟩ := exists_stops (ofString text)
    exact ⟨n, by rwa [← String.length_toList], hstops⟩

end Lexer
end Criteria
