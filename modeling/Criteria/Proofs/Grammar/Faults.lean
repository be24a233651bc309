import Criteria.Proofs.Grammar.Beginnings
import Criteria.Proofs.Grammar.Groups
import Criteria.Proofs.Grammar.Rules
import Criteria.Proofs.Grammar.Soundness

/-!
# Where the parser stops

A rule of the parser that fails stops at the first token with which nothing of the grammar goes on,
and its fault names that token.  The induction follows the calls of the parser, as for successes, and
what is known of the tokens that a rule has taken is put together from what is known of its parts.

**Results.**
* `Parser.Stops`: where a rule stops, and what is settled there.
* `Parser.filter_stops`: a complete filter is read up to the earliest token at fault.
-/

namespace Criteria
namespace Grammar

/-- What a fault reports that is found behind the lexemes `before` where `rest` comes next: the next
lexeme or, at the end, the last one.  But the line of a group that is not closed is the line on which
it opens; all that stands in the group is a complete filter. -/
structure Reports (line : Nat) (fault : SyntaxFault) (near : Option Token)
    (before rest : List Lexeme) : Prop where
  near_eq : near = (rest.head?.or before.getLast?).map Lexeme.token
  line_eq : fault ≠ .unclosedGroup → line = (rest.head?.or before.getLast?).elim 1 Lexeme.line
  line_opening : fault = .unclosedGroup → ∃ outer opening inner,
    before = outer ++ opening :: inner ∧ line = opening.line ∧
      innermostGroup (before.map Lexeme.token) = some outer.length ∧
      ∃ d : Disjunction, d.tokens = inner.map Lexeme.token

end Grammar

namespace Parser

open Grammar Outcome

/-- The parser has taken the lexemes `taken` and sees those that are left. -/
def At (p : Parser) (taken lexemes : List Lexeme) (stop : Option LexError) : Prop :=
  p.Sees lexemes stop ∧ p.previous = taken.getLast?

section At

variable {p : Parser} {taken lexemes : List Lexeme} {stop : Option LexError}

@[simp] theorem at_deeper : p.deeper.At taken lexemes stop ↔ p.At taken lexemes stop :=
  and_congr_left' sees_deeper

@[simp] theorem at_shallower : p.shallower.At taken lexemes stop ↔ p.At taken lexemes stop :=
  and_congr_left' sees_shallower

theorem At.place_eq (h : p.At taken lexemes stop) :
    p.place = lexemes.head?.or taken.getLast? := by
  obtain ⟨hsees, hprevious⟩ := h
  cases lexemes <;> rw [place, hsees.1, hprevious] <;> rfl

/-- Every fault but an open group names the parser's place. -/
theorem At.reports (h : p.At taken lexemes stop) {fault : SyntaxFault}
    (hfault : fault ≠ .unclosedGroup) :
    Reports (p.place.elim 1 Lexeme.line) fault (p.place.map Lexeme.token) taken lexemes where
  near_eq := by rw [h.place_eq]
  line_eq _ := by rw [h.place_eq]
  line_opening hunclosed := absurd hunclosed hfault

end At

section Stops

variable {α β δ ε : Type} {C : Construct δ} {E : Construct ε} {depth depth' : Nat}
  {taken lexemes : List Lexeme} {stop : Option LexError} {p q : Parser}

/-- A fault of the rule for a construct that started behind `taken`: it is found where no derivation
of the construct goes on, behind tokens that are a beginning of one. -/
def FailsAt (C : Construct δ) (depth : Nat) (taken lexemes : List Lexeme) (stop : Option LexError)
    (line : Nat) (fault : SyntaxFault) (near : Option Token) (q : Parser) : Prop :=
  ∃ used rest, lexemes = used ++ rest ∧ q.At (taken ++ used) rest stop ∧
    Reports line fault near (taken ++ used) rest ∧
    (fault ≠ .nestingTooDeep →
      C.Settles False (used.map Lexeme.token) (rest.map Lexeme.token).head? ∧
        C.Begins depth (used.map Lexeme.token))

/-- Where the rule for a construct stops that started behind `taken`: a success where the derivation
ends, a failure where none goes on.  Lexical errors are not at issue. -/
def Stops (C : Construct δ) (depth : Nat) (taken lexemes : List Lexeme) (stop : Option LexError) :
    Except ParseError α → Parser → Prop
  | .ok _, q => ∃ used rest, lexemes = used ++ rest ∧ q.At (taken ++ used) rest stop ∧
      C.Settles True (used.map Lexeme.token) (rest.map Lexeme.token).head?
  | .error (.lexical _), _ => True
  | .error (.grammar line fault near), q => FailsAt C depth taken lexemes stop line fault near q

theorem Stops.shallower {r : Except ParseError α} (h : Stops C depth taken lexemes stop r q) :
    Stops C depth taken lexemes stop r q.shallower := by
  match r, h with
  | .ok _, ⟨used, rest, hl, hat, hsettles⟩ => exact ⟨used, rest, hl, at_shallower.2 hat, hsettles⟩
  | .error (.lexical _), _ => trivial
  | .error (.grammar _ _ _), ⟨used, rest, hl, hat, h⟩ =>
    exact ⟨used, rest, hl, at_shallower.2 hat, h⟩

/-- A fault inside a part of the construct, behind other tokens of it. -/
theorem FailsAt.lift (pre : List Lexeme) {line : Nat} {fault : SyntaxFault} {near : Option Token}
    (h : FailsAt E depth' (taken ++ pre) lexemes stop line fault near q)
    (hsettles : ∀ used rest : List Lexeme, lexemes = used ++ rest →
      E.Settles False (used.map Lexeme.token) (rest.map Lexeme.token).head? →
      C.Settles False (pre.map Lexeme.token ++ used.map Lexeme.token)
        (rest.map Lexeme.token).head?)
    (hbegins : ∀ used : List Token, E.Begins depth' used → C.Begins depth (pre.map Lexeme.token ++ used)) :
    FailsAt C depth taken (pre ++ lexemes) stop line fault near q := by
  obtain ⟨used, rest, rfl, hat, hreports, hfault⟩ := h
  rw [List.append_assoc] at hat hreports
  refine ⟨pre ++ used, rest, by rw [List.append_assoc], hat, hreports, fun hne => ?_⟩
  rw [List.map_append]
  exact ⟨hsettles used rest rfl (hfault hne).1, hbegins _ (hfault hne).2⟩

theorem Stops.map {f : α → β} {r : Except ParseError α} (h : Stops C depth taken lexemes stop r q) :
    Stops C depth taken lexemes stop (r.map f) q := by
  match r, h with
  | .ok _, h => exact h
  | .error (.lexical _), _ => trivial
  | .error (.grammar _ _ _), h => exact h

/-- What a part settles, the whole settles behind other tokens. -/
theorem Stops.lift (pre : List Lexeme) {r : Except ParseError α}
    (h : Stops E depth' (taken ++ pre) lexemes stop r q)
    (hsettles : ∀ (complete : Prop) (used rest : List Lexeme), lexemes = used ++ rest →
      E.Settles complete (used.map Lexeme.token) (rest.map Lexeme.token).head? →
      C.Settles complete (pre.map Lexeme.token ++ used.map Lexeme.token)
        (rest.map Lexeme.token).head?)
    (hbegins : ∀ used : List Token, E.Begins depth' used →
      C.Begins depth (pre.map Lexeme.token ++ used)) :
    Stops C depth taken (pre ++ lexemes) stop r q := by
  match r, h with
  | .ok _, ⟨used, rest, hl, hat, h⟩ =>
    rw [List.append_assoc] at hat
    refine ⟨pre ++ used, rest, by rw [hl, List.append_assoc], hat, ?_⟩
    rw [List.map_append]
    exact hsettles True used rest hl h
  | .error (.lexical _), _ => trivial
  | .error (.grammar _ _ _), h => exact FailsAt.lift pre h (hsettles False) hbegins

/-- A fault right where the rule has come to. -/
theorem ends_fail_stops {used rest : List Lexeme} {fault : SyntaxFault}
    (hat : q.At (taken ++ used) rest stop) (hfault : fault ≠ .unclosedGroup)
    (hsettles : C.Settles False (used.map Lexeme.token) q.peek)
    (hbegins : C.Begins depth (used.map Lexeme.token)) :
    (fail (q.fault fault) q : Outcome α q).Ends (Stops C depth taken (used ++ rest) stop) := by
  rw [hat.1.peek_eq] at hsettles
  exact ends_fail ⟨used, rest, rfl, hat, hat.reports hfault, fun _ => ⟨hsettles, hbegins⟩⟩

/-- Taking a token. -/
theorem ends_take_stops {first : Lexeme} (hat : p.At taken (first :: lexemes) stop)
    {hp : p.current.isSome = true} {f : (q : Parser) → q.size < p.size → Outcome α q}
    {taken' whole : List Lexeme}
    (hok : ∀ (q : Parser) (hq : q.size < p.size), q.At (taken ++ [first]) lexemes stop →
      q.depth = p.depth → (f q hq).Ends (Stops C depth taken' whole stop)) :
    (p.take hp f).Ends (Stops C depth taken' whole stop) := by
  refine ends_take_previous hat.1 (fun _ _ _ _ _ => trivial) fun q hq hsees hqd hprevious => ?_
  exact hok q hq ⟨hsees, by rw [hprevious, List.getLast?_concat]⟩ hqd

/-- Reading one level deeper, if there is one left. -/
theorem ends_nested_stops {rule : Unit → Outcome α p.deeper} (hat : p.At taken lexemes stop)
    (hrule : p.depth < maxNesting → (rule ()).Ends (Stops C depth taken lexemes stop)) :
    (p.nested rule).Ends (Stops C depth taken lexemes stop) := by
  refine ends_nested (fun _ => ?_) fun hlt => (hrule hlt).mono fun _ _ h => h.shallower
  rw [← List.append_nil taken] at hat
  exact ⟨[], lexemes, rfl, hat, hat.reports (by decide), fun hne => absurd rfl hne⟩

/-- Going on behind a part that has been read; its derivation is known then. -/
theorem ends_andThen_stops {x : Outcome α p}
    {f : α → (q : Parser) → q.size ≤ p.size → Outcome β q} {rel : α → List Token → Prop}
    {depth' : Nat} {taken' whole : List Lexeme}
    (hx : x.Ends (Stops E depth taken lexemes stop))
    (htraces : x.Ends (Traces depth lexemes stop rel))
    (hfails : ∀ line fault near (q : Parser), FailsAt E depth taken lexemes stop line fault near q →
      FailsAt C depth' taken' whole stop line fault near q)
    (hf : ∀ (a : α) (q : Parser) (hq : q.size ≤ p.size) (used rest : List Lexeme),
      lexemes = used ++ rest → q.At (taken ++ used) rest stop → q.depth = depth →
      rel a (used.map Lexeme.token) → E.Settles True (used.map Lexeme.token) q.peek →
      (f a q hq).Ends (Stops C depth' taken' whole stop)) :
    (x.andThen f).Ends (Stops C depth' taken' whole stop) := by
  refine ends_andThen ?_
  unfold Ends at hx htraces ⊢
  match x.answer, hx, htraces with
  | .ok a, ⟨used, rest, hl, hat, hsettles⟩, ⟨hqd, used', rest', hl', hsees, hrel⟩ =>
    obtain ⟨rfl, -⟩ := hat.1.unique hsees
    obtain rfl : used = used' := List.append_cancel_right (hl.symm.trans hl')
    rw [← hat.1.peek_eq] at hsettles
    exact fun hq => hf a x.after hq used rest hl hat hqd hrel hsettles
  | .error (.lexical _), _, _ => trivial
  | .error (.grammar line fault near), h, _ => exact hfails line fault near x.after h

end Stops

variable {stop : Option LexError}

/-! ### Values -/

-- The induction follows the calls of the parser, in the order list, value, items.
mutual

theorem value_stops (p : Parser) {taken lexemes : List Lexeme} (hat : p.At taken lexemes stop)
    (hd : p.depth ≤ maxNesting) :
    (value p).Ends (Stops .argument p.depth taken lexemes stop) := by
  have hhere : p.At (taken ++ []) lexemes stop := by rwa [List.append_nil]
  rcases value_cases p with hend | ⟨token, v, hpeek, hv⟩ | hopen | ⟨token, hpeek, hv, hopen⟩
  · rw [value_end hend]
    have hsettles : Construct.argument.Settles False [] p.peek :=
      settles_no_argument (by simp [hend]) (by simp [hend])
    exact ends_fail_stops hhere (by decide) hsettles (begins_argument_nil hd)
  · rw [value_single hpeek hv]
    obtain ⟨first, rest, rfl, rfl⟩ := hat.1.exists_cons hpeek
    obtain ⟨d, htokens, -⟩ := derivesArgument_of_value? hv hd
    refine ends_take_stops hat fun q _ hqat _ => ?_
    refine ends_done ⟨[first], rest, rfl, hqat, ?_⟩
    rw [List.map_singleton, ← htokens]
    exact settles_argument d _
  · rw [value_open hopen]
    obtain ⟨first, rest, rfl, hfirst⟩ := hat.1.exists_cons hopen
    refine ends_nested_stops hat fun hlt => ?_
    exact list_stops p.deeper _ (at_deeper.2 hat) hfirst p.depth rfl hlt
  · rw [value_other hpeek hv hopen]
    have hsettles : Construct.argument.Settles False [] p.peek :=
      settles_no_argument (by simpa [hpeek] using hv) (by simpa [hpeek] using hopen)
    exact ends_fail_stops hhere (by decide) hsettles (begins_argument_nil hd)
termination_by 4 * p.size + 1
decreasing_by show 4 * p.size < 4 * p.size + 1; omega

theorem list_stops (p : Parser) (hp : p.current.isSome = true) {first : Lexeme}
    {taken lexemes : List Lexeme} (hat : p.At taken (first :: lexemes) stop)
    (hopen : first.token = .leftParen) (depth : Nat) (hdepth : p.depth = depth + 1)
    (hlt : depth < maxNesting) :
    (list p hp).Ends (Stops .argument depth taken (first :: lexemes) stop) := by
  rw [list]
  refine ends_take_stops hat fun q hq hqat hqd => ?_
  split
  · next hclose =>
    obtain ⟨second, rest, rfl, hsecond⟩ := hqat.1.exists_cons hclose
    refine ends_take_stops hqat fun r _ hrat _ => ?_
    refine ends_done ⟨[first, second], rest, rfl, by simpa using hrat, ?_⟩
    simpa [Argument.tokens, hopen, hsecond] using settles_argument .empty _
  · next hclose =>
    have hitems := items_stops q hqat (by omega)
    rw [hqd, hdepth] at hitems
    rw [hqat.1.peek_eq] at hclose
    refine ends_map (hitems.mono fun _ _ h => Stops.map ?_)
    refine Stops.lift [first] h (fun _ used rest hl hsettles => ?_) fun _ hbegins => ?_
    · rw [hl, List.map_append, List.head?_append] at hclose
      rw [List.map_singleton, hopen]
      exact settles_list hclose hsettles
    · rw [List.map_singleton, hopen]
      exact begins_list hbegins
termination_by 4 * p.size
decreasing_by omega

theorem items_stops (p : Parser) {taken lexemes : List Lexeme} (hat : p.At taken lexemes stop)
    (hd : p.depth ≤ maxNesting) :
    (items p).Ends (Stops .arguments p.depth taken lexemes stop) := by
  rw [items_eq]
  refine ends_andThen_stops (value_stops p hat hd) (value_traces p hat.1 hd)
    (fun line fault near q h => ?_) ?_
  · rw [← List.append_nil taken] at h
    exact h.lift [] (fun _ _ _ => settles_first_item) fun _ => begins_first_item
  rintro v q hq used rest rfl hqat hqd ⟨d, htokens, -, hnest⟩ -
  have hbegins : Construct.arguments.Begins p.depth (used.map Lexeme.token) := by
    rw [← htokens]
    exact begins_first_item (Construct.begins_complete d hnest)
  cases hpeek : q.peek with
  | none =>
    rw [afterItem_end hpeek]
    refine ends_fail_stops hqat (by decide) ?_ hbegins
    rw [hpeek, ← htokens]
    exact settles_no_item d (by simp) (by simp)
  | some token =>
    by_cases hcomma : token = .comma
    · subst hcomma
      rw [afterItem_comma hpeek]
      obtain ⟨comma, rest', rfl, hcomma⟩ := hqat.1.exists_cons hpeek
      refine ends_take_stops hqat fun r hr hrat hrd => ?_
      rw [List.append_assoc] at hrat
      have hrest := items_stops r hrat (by omega)
      rw [hrd, hqd] at hrest
      rw [List.append_cons]
      refine ends_map (hrest.mono fun _ _ h => Stops.map ?_)
      refine Stops.lift (used ++ [comma]) h (fun _ _ _ _ hsettles => ?_) fun _ hbegins => ?_
      · simpa [← htokens, hcomma] using settles_next_item d hsettles
      · simpa [← htokens, hcomma] using begins_next_item d hnest hbegins
    by_cases hclose : token = .rightParen
    · subst hclose
      rw [afterItem_close hpeek]
      obtain ⟨close, rest', rfl, hclose⟩ := hqat.1.exists_cons hpeek
      refine ends_take_stops hqat fun r _ hrat _ => ?_
      refine ends_done ⟨used ++ [close], rest', by simp, by simpa using hrat, ?_⟩
      simpa [← htokens, hclose] using settles_last_item d _
    · rw [afterItem_other hpeek hcomma hclose]
      refine ends_fail_stops hqat (by decide) ?_ hbegins
      rw [hpeek, ← htokens]
      exact settles_no_item d (by simpa using hcomma) (by simpa using hclose)
termination_by 4 * p.size + 2
decreasing_by all_goals omega

end

/-! ### Constraints -/

/-- What follows the selector of a constraint, which has been taken already. -/
theorem comparison_stops (name : String) (p : Parser) {first : Lexeme} {taken lexemes : List Lexeme}
    (hfirst : first.token = .selector name) (hat : p.At (taken ++ [first]) lexemes stop)
    (hd : p.depth ≤ maxNesting) :
    (comparison name p).Ends (Stops .phrase p.depth taken (first :: lexemes) stop) := by
  rcases comparison_cases p with ⟨op, hpeek⟩ | hpeek
  · rw [comparison_of_operator name hpeek]
    obtain ⟨second, rest, rfl, hsecond⟩ := hat.1.exists_cons hpeek
    refine ends_take_stops hat fun q _ hqat hqd => ?_
    rw [List.append_assoc] at hqat
    have hvalue := value_stops q hqat (by omega)
    rw [hqd] at hvalue
    refine ends_map (hvalue.mono fun _ _ h => Stops.map ?_)
    refine Stops.lift [first, second] h (fun _ _ _ _ hsettles => ?_) fun _ hbegins => ?_
    · simpa [hfirst, hsecond] using settles_operand name op hsettles
    · simpa [hfirst, hsecond] using begins_operand name op hbegins
  · rw [comparison_of_none name hpeek]
    refine ends_done ⟨[first], lexemes, rfl, hat, ?_⟩
    rw [hat.1.peek_eq] at hpeek
    rw [List.map_singleton, hfirst]
    exact settles_presence name hpeek

/-- What follows the first part of a chain. -/
theorem ends_link_stops {δ ε : Type} {E : Construct ε} {C : Construct δ} {separator : Token}
    (chain : Chain E C separator) {join : Expr → Expr → Expr} {left : Expr}
    {rule : (r : Parser) → Outcome Expr r} {depth : Nat} {taken used rest : List Lexeme}
    {q : Parser} (d : ε) (htokens : E.tokens d = used.map Lexeme.token)
    (hnest : depth + E.nesting d ≤ maxNesting) (hat : q.At (taken ++ used) rest stop)
    (hqd : q.depth = depth) (hsettles : E.Settles True (used.map Lexeme.token) q.peek)
    (hrule : ∀ (r : Parser) (next : Lexeme) (rest' : List Lexeme), r.size < q.size →
      next.token = separator → r.At (taken ++ (used ++ [next])) rest' stop → r.depth = depth →
      depth < maxNesting →
      (rule r.deeper).Ends (Stops C (depth + 1) (taken ++ (used ++ [next])) rest' stop)) :
    (link separator rule join left q).Ends (Stops C depth taken (used ++ rest) stop) := by
  by_cases hpeek : q.peek = some separator
  · rw [link_separator hpeek]
    obtain ⟨next, rest', rfl, hnext⟩ := hat.1.exists_cons hpeek
    rw [hpeek] at hsettles
    refine ends_take_stops hat fun r hr hrat hrd => ?_
    rw [List.append_assoc] at hrat
    rw [hqd] at hrd
    have hnested : (r.nested fun _ => (rule r.deeper).map (join left)).Ends
        (Stops C (depth + 1) (taken ++ (used ++ [next])) rest' stop) := by
      refine ends_nested_stops hrat fun hlt => ends_map ?_
      exact (hrule r next rest' hr hnext hrat hrd (by omega)).mono fun _ _ h => h.map
    rw [List.append_cons]
    refine hnested.mono fun _ _ h =>
      Stops.lift (used ++ [next]) h (fun _ _ _ _ hsettles' => ?_) fun _ hbegins => ?_
    · simpa [hnext] using chain.settles_link hsettles hsettles'
    · simpa [← htokens, hnext] using chain.begins_link d hnest hbegins
  · rw [link_other hpeek]
    refine ends_done ⟨used, rest, rfl, hat, ?_⟩
    rw [← hat.1.peek_eq]
    exact chain.settles_single hsettles hpeek

mutual

theorem disjunction_stops (p : Parser) {taken lexemes : List Lexeme} (hat : p.At taken lexemes stop)
    (hd : p.depth ≤ maxNesting) (hn : (nest (taken.map Lexeme.token)).inValue = false) :
    (disjunction p).Ends (Stops .disjunction p.depth taken lexemes stop) := by
  rw [disjunction_eq]
  refine ends_andThen_stops (conjunction_stops p hat hd hn) (conjunction_traces p hat.1 hd)
    (fun line fault near q h => ?_) ?_
  · rw [← List.append_nil taken] at h
    exact h.lift [] (fun _ _ _ => Construct.disjunctionChain.settles_first)
      fun _ => Construct.disjunctionChain.begins_first
  rintro left q hq used rest rfl hqat hqd ⟨d, htokens, -, hnest⟩ hsettles
  refine ends_link_stops Construct.disjunctionChain d htokens hnest hqat hqd hsettles ?_
  intro r next rest' hr hnext hrat hrd hlt
  have hright := disjunction_stops r.deeper (at_deeper.2 hrat) (by rw [deeper_depth]; omega) ?_
  · rwa [deeper_depth, hrd] at hright
  · rw [List.map_append, List.map_append, ← htokens, nest_append]
    exact Nest.inValue_separator hn (.inr hnext) (Nest.foldl_conjunction d _ hn)
termination_by 4 * p.size + 3
decreasing_by
  · omega
  · show 4 * r.size + 3 < 4 * p.size + 3
    omega

theorem conjunction_stops (p : Parser) {taken lexemes : List Lexeme} (hat : p.At taken lexemes stop)
    (hd : p.depth ≤ maxNesting) (hn : (nest (taken.map Lexeme.token)).inValue = false) :
    (conjunction p).Ends (Stops .conjunction p.depth taken lexemes stop) := by
  rw [conjunction_eq]
  refine ends_andThen_stops (constraint_stops p hat hd hn) (constraint_traces p hat.1 hd)
    (fun line fault near q h => ?_) ?_
  · rw [← List.append_nil taken] at h
    exact h.lift [] (fun _ _ _ => Construct.conjunctionChain.settles_first)
      fun _ => Construct.conjunctionChain.begins_first
  rintro left q hq used rest rfl hqat hqd ⟨d, htokens, -, hnest⟩ hsettles
  refine ends_link_stops Construct.conjunctionChain d htokens hnest hqat hqd hsettles ?_
  intro r next rest' hr hnext hrat hrd hlt
  have hright := conjunction_stops r.deeper (at_deeper.2 hrat) (by rw [deeper_depth]; omega) ?_
  · rwa [deeper_depth, hrd] at hright
  · rw [List.map_append, List.map_append, ← htokens, nest_append]
    exact Nest.inValue_separator hn (.inl hnext) (Nest.foldl_phrase d _ hn)
termination_by 4 * p.size + 2
decreasing_by
  · omega
  · show 4 * r.size + 2 < 4 * p.size + 2
    omega

theorem constraint_stops (p : Parser) {taken lexemes : List Lexeme} (hat : p.At taken lexemes stop)
    (hd : p.depth ≤ maxNesting) (hn : (nest (taken.map Lexeme.token)).inValue = false) :
    (constraint p).Ends (Stops .phrase p.depth taken lexemes stop) := by
  have hhere : p.At (taken ++ []) lexemes stop := by rwa [List.append_nil]
  rcases constraint_cases p with hend | hopen | ⟨name, hpeek⟩ | ⟨token, hpeek, hopen, hselector⟩
  · rw [constraint_end hend]
    have hsettles : Construct.phrase.Settles False [] p.peek :=
      settles_no_phrase (by simp [hend]) (by simp [hend])
    exact ends_fail_stops hhere (by decide) hsettles (begins_phrase_nil hd)
  · rw [constraint_open hopen]
    obtain ⟨first, rest, rfl, hfirst⟩ := hat.1.exists_cons hopen
    refine ends_nested_stops hat fun hlt => ?_
    exact group_stops p.deeper _ (at_deeper.2 hat) hfirst p.depth rfl hlt hn
  · rw [constraint_selector hpeek]
    obtain ⟨first, rest, rfl, hfirst⟩ := hat.1.exists_cons hpeek
    refine ends_take_stops hat fun q _ hqat hqd => ends_map ?_
    have hcomparison := comparison_stops name q hfirst hqat (by omega)
    rw [hqd] at hcomparison
    exact hcomparison.mono fun _ _ h => h.map
  · rw [constraint_other hpeek hopen hselector]
    have hsettles : Construct.phrase.Settles False [] p.peek :=
      settles_no_phrase (by simpa [hpeek] using hselector) (by simpa [hpeek] using hopen)
    exact ends_fail_stops hhere (by decide) hsettles (begins_phrase_nil hd)
termination_by 4 * p.size + 1
decreasing_by show 4 * p.size < 4 * p.size + 1; omega

theorem group_stops (p : Parser) (hp : p.current.isSome = true) {first : Lexeme}
    {taken lexemes : List Lexeme} (hat : p.At taken (first :: lexemes) stop)
    (hopen : first.token = .leftParen) (depth : Nat) (hdepth : p.depth = depth + 1)
    (hlt : depth < maxNesting) (hn : (nest (taken.map Lexeme.token)).inValue = false) :
    (group p hp).Ends (Stops .phrase depth taken (first :: lexemes) stop) := by
  rw [group]
  refine ends_take_stops hat fun q hq hqat hqd => ?_
  have hinner : (nest ((taken ++ [first]).map Lexeme.token)).inValue = false := by
    rw [List.map_append, List.map_singleton, hopen, nest_append]
    exact Nest.inValue_step_leftParen hn
  refine ends_andThen_stops (disjunction_stops q hqat (by omega) hinner)
    (disjunction_traces q hqat.1 (by omega)) (fun line fault near r h => ?_) ?_
  · refine h.lift [first] (fun _ _ _ hsettles => ?_) fun _ hbegins => ?_
    · simpa [hopen] using settles_group hsettles
    · rw [hqd, hdepth] at hbegins
      simpa [hopen] using begins_group hbegins
  rintro inner r hr used rest rfl hrat hrd ⟨d, htokens, -, hnest⟩ hsettles
  rw [List.append_assoc] at hrat
  split
  · next hclose =>
    obtain ⟨close, rest', rfl, hclose'⟩ := hrat.1.exists_cons hclose
    refine ends_take_stops hrat fun s _ hsat _ => ?_
    refine ends_done ⟨first :: (used ++ [close]), rest', by simp, by simpa using hsat, ?_⟩
    rw [hclose] at hsettles
    simpa [hopen, hclose'] using settles_closed hsettles _
  · next hclose =>
    refine ends_fail ⟨first :: used, rest, rfl, hrat, ⟨?_, ?_, fun _ => ?_⟩, fun _ => ⟨?_, ?_⟩⟩
    · rw [hrat.place_eq]
      rfl
    · exact fun hne => absurd rfl hne
    · refine ⟨taken, first, used, rfl, by rw [hat.1.1]; rfl, ?_, d, htokens⟩
      rw [List.map_append, List.map_cons, hopen, ← htokens, ← List.length_map Lexeme.token]
      refine innermostGroup_open hn (Nest.foldl_disjunction d _ ?_)
      exact Nest.inValue_step_leftParen hn
    · rw [← hrat.1.peek_eq]
      simpa [hopen] using settles_unclosed hsettles hclose
    · rw [hqd, hdepth] at hnest
      rw [List.map_cons, hopen, ← htokens]
      exact begins_group (Construct.begins_complete d hnest)
termination_by 4 * p.size
decreasing_by omega

end

/-- A complete filter is read up to the earliest token at fault. -/
theorem filter_stops (p : Parser) {lexemes : List Lexeme} (hat : p.At [] lexemes stop)
    (hd : p.depth ≤ maxNesting) :
    (filter p).Ends (Stops .sentence p.depth [] lexemes stop) := by
  rw [filter]
  refine ends_andThen_stops (disjunction_stops p hat hd rfl) (disjunction_traces p hat.1 hd)
    (fun line fault near q h => ?_) ?_
  · exact FailsAt.lift [] h (fun _ _ _ => settles_sentence) fun _ h => h
  rintro e q hq used rest rfl hqat hqd ⟨d, htokens, -, hnest⟩ hsettles
  have hbegins : Construct.sentence.Begins p.depth (used.map Lexeme.token) := by
    rw [← htokens]
    exact Construct.begins_complete d hnest
  split
  · next hend =>
    refine ends_done ⟨used, rest, rfl, hqat, ?_⟩
    rw [← hqat.1.peek_eq]
    exact settles_sentence hsettles
  · next hpeek =>
    exact ends_fail_stops hqat (by decide) (settles_trailing hsettles (by simp [hpeek])) hbegins
  · next hpeek =>
    exact ends_fail_stops hqat (by decide) (settles_trailing hsettles (by simp [hpeek])) hbegins

end Parser
end Criteria
