import Criteria.Proofs.Grammar.Rules
import Criteria.Proofs.Grammar.Run

/-!
# Every success is a derivation

Each rule of the parser, when it succeeds, has taken the yield of a derivation whose nesting fits
into the levels that were left, and answers its tree.  When it fails lexically, the stream of
tokens fails in the same way.
-/

namespace Criteria
namespace Parser

open Grammar Outcome

/-- How a rule may end that starts `depth` levels deep with these lexemes to take: a success has
taken tokens that stand in relation to its answer and left the other ones, with as many levels
open as before; a lexical error is the one that stops the stream. -/
def Traces {α : Type} (depth : Nat) (lexemes : List Lexeme) (stop : Option LexError)
    (rel : α → List Token → Prop) : Except ParseError α → Parser → Prop
  | .ok a, q => q.depth = depth ∧
      ∃ used rest, lexemes = used ++ rest ∧ q.Sees rest stop ∧ rel a (used.map Lexeme.token)
  | .error (.lexical e), _ => stop = some e
  | .error (.grammar _ _ _), _ => True

section Traces

variable {α β : Type} {p : Parser} {depth : Nat} {lexemes : List Lexeme} {stop : Option LexError}
  {rel : α → List Token → Prop} {rel' : β → List Token → Prop}

/-- What comes after tokens that have been taken already. -/
theorem Traces.prepend {f : α → β} {rest : List Lexeme} {r : Except ParseError α} {q : Parser}
    (h : Traces depth rest stop rel r q) (used : List Lexeme) (hl : lexemes = used ++ rest)
    (himp : ∀ a ts, rel a ts → rel' (f a) (used.map Lexeme.token ++ ts)) :
    Traces depth lexemes stop rel' (r.map f) q := by
  match r, h with
  | .ok a, ⟨hdepth, used', rest', hrest, hsees, hrel⟩ =>
    refine ⟨hdepth, used ++ used', rest', ?_, hsees, ?_⟩
    · rw [hl, hrest, List.append_assoc]
    · rw [List.map_append]
      exact himp a _ hrel
  | .error (.lexical e), h => exact h
  | .error (.grammar _ _ _), _ => trivial

/-- Closing the innermost level leaves as many levels open as before it. -/
theorem Traces.shallower {r : Except ParseError α} {q : Parser}
    (h : Traces (depth + 1) lexemes stop rel r q) :
    Traces depth lexemes stop rel r q.shallower := by
  match r, h with
  | .ok a, ⟨hdepth, used, rest, hl, hsees, hrel⟩ =>
    exact ⟨by rw [shallower_depth, hdepth]; rfl, used, rest, hl, sees_shallower.2 hsees, hrel⟩
  | .error (.lexical e), h => exact h
  | .error (.grammar _ _ _), _ => trivial

/-- Taking a token.  A lexical error behind it is the one that stops the stream. -/
theorem ends_take_traces {first : Lexeme} (hs : p.Sees (first :: lexemes) stop)
    {hp : p.current.isSome = true} {f : (q : Parser) → q.size < p.size → Outcome α q}
    {whole : List Lexeme}
    (hok : ∀ (q : Parser) (hq : q.size < p.size), q.Sees lexemes stop → q.depth = p.depth →
      (f q hq).Ends (Traces depth whole stop rel)) :
    (p.take hp f).Ends (Traces depth whole stop rel) :=
  ends_take hs (fun _ _ _ hstop _ => hstop) hok

/-- Going on behind the tokens of a success.  Errors of the first part are those of the whole. -/
theorem ends_andThen_traces {x : Outcome α p}
    {f : α → (q : Parser) → q.size ≤ p.size → Outcome β q} {depth' : Nat} {whole : List Lexeme}
    (hx : x.Ends (Traces depth lexemes stop rel))
    (hf : ∀ (a : α) (q : Parser) (hq : q.size ≤ p.size) (used rest : List Lexeme),
      lexemes = used ++ rest → q.Sees rest stop → q.depth = depth →
      rel a (used.map Lexeme.token) → (f a q hq).Ends (Traces depth' whole stop rel')) :
    (x.andThen f).Ends (Traces depth' whole stop rel') := by
  refine ends_andThen (hx.mono fun answer q h => ?_)
  match answer, h with
  | .ok a, ⟨hqd, used, rest, hl, hsees, hrel⟩ =>
    exact fun hq => hf a q hq used rest hl hsees hqd hrel
  | .error (.lexical e), h => exact h
  | .error (.grammar _ _ _), _ => trivial

/-- What follows the first part of a chain: nothing, or a separator and the rest of the chain. -/
theorem ends_link_traces (rel : Expr → List Token → Prop) {rel' : Expr → List Token → Prop}
    {separator : Token}
    {rule : (r : Parser) → Outcome Expr r} {join : Expr → Expr → Expr} {left : Expr}
    {rest : List Lexeme} (hs : p.Sees rest stop) (used : List Lexeme) (hl : lexemes = used ++ rest)
    (hsingle : rel' left (used.map Lexeme.token))
    (hlink : ∀ right ts, rel right ts →
      rel' (join left right) (used.map Lexeme.token ++ separator :: ts))
    (hrule : ∀ (q : Parser) (rest' : List Lexeme), q.size < p.size → q.Sees rest' stop →
      q.depth = p.depth → p.depth < maxNesting →
      (rule q.deeper).Ends (Traces (p.depth + 1) rest' stop rel)) :
    (link separator rule join left p).Ends (Traces p.depth lexemes stop rel') := by
  by_cases hpeek : p.peek = some separator
  · rw [link_separator hpeek]
    obtain ⟨next, rest', rfl, hnext⟩ := hs.exists_cons hpeek
    refine ends_take_traces hs fun q hq hsees hqd => ?_
    refine ends_nested (fun _ => trivial) fun hlt => ends_map ?_
    refine (hrule q rest' hq hsees hqd (hqd ▸ hlt)).mono fun _ _ h => ?_
    refine (h.prepend (used ++ [next]) (by simp [hl]) fun right ts hright => ?_).shallower
    simpa [hnext] using hlink right ts hright
  · rw [link_other hpeek]
    exact ends_done ⟨rfl, used, rest, hl, hs, hsingle⟩

end Traces

/-- A tree and the tokens of one of its derivations that fits below `depth` open levels. -/
def DerivesArgument (depth : Nat) (v : Value) (ts : List Token) : Prop :=
  ∃ d : Argument, d.tokens = ts ∧ d.value = v ∧ depth + d.nesting ≤ maxNesting

def DerivesArguments (depth : Nat) (vs : List Value) (ts : List Token) : Prop :=
  ∃ d : Arguments, d.tokens ++ [.rightParen] = ts ∧ d.values = vs ∧
    depth + d.nesting ≤ maxNesting

def DerivesPhrase (depth : Nat) (e : Expr) (ts : List Token) : Prop :=
  ∃ d : Phrase, d.tokens = ts ∧ d.tree = e ∧ depth + d.nesting ≤ maxNesting

def DerivesConjunction (depth : Nat) (e : Expr) (ts : List Token) : Prop :=
  ∃ d : Conjunction, d.tokens = ts ∧ d.tree = e ∧ depth + d.nesting ≤ maxNesting

def DerivesDisjunction (depth : Nat) (e : Expr) (ts : List Token) : Prop :=
  ∃ d : Disjunction, d.tokens = ts ∧ d.tree = e ∧ depth + d.nesting ≤ maxNesting

/-- A token that is a value of its own is a derivation of that value. -/
theorem derivesArgument_of_value? {depth : Nat} {token : Token} {v : Value}
    (hv : token.value? = some v) (hd : depth ≤ maxNesting) : DerivesArgument depth v [token] := by
  cases token with
  | text s => cases hv; exact ⟨.text s, rfl, rfl, hd⟩
  | selector name => cases hv; exact ⟨.selector name, rfl, rfl, hd⟩
  | integer n => cases hv; exact ⟨.integer n, rfl, rfl, hd⟩
  | float x => cases hv; exact ⟨.float x, rfl, rfl, hd⟩
  | boolean b => cases hv; exact ⟨.boolean b, rfl, rfl, hd⟩
  | _ => cases hv

variable {stop : Option LexError}

-- The induction follows the calls of the parser: tokens are taken, or the next rule comes earlier
-- in the order list, value, items.
mutual

theorem value_traces (p : Parser) {lexemes : List Lexeme} (hs : p.Sees lexemes stop)
    (hd : p.depth ≤ maxNesting) :
    (value p).Ends (Traces p.depth lexemes stop (DerivesArgument p.depth)) := by
  rw [value]
  split
  · exact ends_fail trivial
  · next token hpeek =>
    obtain ⟨first, rest, rfl, rfl⟩ := hs.exists_cons hpeek
    split
    · next v hv =>
      refine ends_take_traces hs fun q _ hsees hdepth => ?_
      refine ends_done ⟨hdepth, [first], rest, rfl, hsees, ?_⟩
      exact derivesArgument_of_value? hv hd
    · split
      · next hopen =>
        refine ends_nested (fun _ => trivial) fun hlt => ?_
        have hlist := list_traces p.deeper (isSome_of_peek hpeek) (sees_deeper.2 hs) hopen
          p.depth rfl hlt
        exact hlist.mono fun _ _ h => h.shallower
      · exact ends_fail trivial
termination_by 4 * p.size + 1
decreasing_by show 4 * p.size < 4 * p.size + 1; omega

theorem list_traces (p : Parser) (hp : p.current.isSome = true) {first : Lexeme}
    {lexemes : List Lexeme} (hs : p.Sees (first :: lexemes) stop)
    (hopen : first.token = .leftParen) (depth : Nat) (hdepth : p.depth = depth + 1)
    (hlt : depth < maxNesting) :
    (list p hp).Ends (Traces (depth + 1) (first :: lexemes) stop (DerivesArgument depth)) := by
  rw [list]
  refine ends_take_traces hs fun q hq hsees hqd => ?_
  split
  · next hclose =>
    obtain ⟨second, rest, rfl, hsecond⟩ := hsees.exists_cons hclose
    refine ends_take_traces hsees fun r _ hrsees hrd => ?_
    refine ends_done ⟨by omega, [first, second], rest, rfl, hrsees, ?_⟩
    exact ⟨.empty, by simp [Argument.tokens, hopen, hsecond], rfl, hlt⟩
  · have hitems := items_traces q hsees (by omega)
    rw [hqd, hdepth] at hitems
    refine ends_map (hitems.mono fun r _ h => ?_)
    refine h.prepend [first] rfl ?_
    rintro vs ts ⟨d, rfl, rfl, hn⟩
    refine ⟨.list d, by simp [Argument.tokens, hopen], rfl, ?_⟩
    rw [Argument.nesting]
    omega
termination_by 4 * p.size
decreasing_by omega

theorem items_traces (p : Parser) {lexemes : List Lexeme} (hs : p.Sees lexemes stop)
    (hd : p.depth ≤ maxNesting) :
    (items p).Ends (Traces p.depth lexemes stop (DerivesArguments p.depth)) := by
  rw [items]
  refine ends_andThen_traces (value_traces p hs hd) ?_
  rintro v q hq used rest hl hsees hqd ⟨d, htokens, hvalue, hnest⟩
  split
  · next hcomma =>
    obtain ⟨comma, rest', rfl, hcomma⟩ := hsees.exists_cons hcomma
    refine ends_take_traces hsees fun r hr hrsees hrd => ?_
    have hrest := items_traces r hrsees (by omega)
    rw [hrd, hqd] at hrest
    refine ends_map (hrest.mono fun _ _ h => ?_)
    refine h.prepend (used ++ [comma]) (by simp [hl]) ?_
    rintro vs ts ⟨ds, rfl, rfl, hns⟩
    refine ⟨.more d ds, by simp [Arguments.tokens, htokens, hcomma], ?_, ?_⟩
    · rw [Arguments.values, hvalue]
    · rw [Arguments.nesting]
      omega
  · next hclose =>
    obtain ⟨close, rest', rfl, hclose⟩ := hsees.exists_cons hclose
    refine ends_take_traces hsees fun r _ hrsees hrd => ?_
    refine ends_done ⟨by omega, used ++ [close], rest', by simp [hl], hrsees, ?_⟩
    refine ⟨.last d, by simp [Arguments.tokens, htokens, hclose], ?_, hnest⟩
    rw [Arguments.values, hvalue]
  · exact ends_fail trivial
  · exact ends_fail trivial
termination_by 4 * p.size + 2
decreasing_by all_goals omega

end

/-- What follows a selector makes a constraint of it. -/
theorem comparison_traces (name : String) (p : Parser) {lexemes : List Lexeme}
    (hs : p.Sees lexemes stop) (hd : p.depth ≤ maxNesting) :
    (comparison name p).Ends (Traces p.depth lexemes stop fun c ts =>
      DerivesPhrase p.depth (.constraint c) (.selector name :: ts)) := by
  rcases comparison_cases p with ⟨op, hpeek⟩ | hpeek
  · rw [comparison_of_operator name hpeek]
    obtain ⟨first, rest, rfl, hfirst⟩ := hs.exists_cons hpeek
    refine ends_take_traces hs fun q _ hsees hqd => ?_
    have hvalue := value_traces q hsees (by omega)
    rw [hqd] at hvalue
    refine ends_map (hvalue.mono fun _ _ h => ?_)
    refine h.prepend [first] rfl ?_
    rintro v ts ⟨d, rfl, rfl, hn⟩
    exact ⟨.comparison name op d, by simp [Phrase.tokens, hfirst], rfl, hn⟩
  · rw [comparison_of_none name hpeek]
    refine ends_done ⟨rfl, [], lexemes, rfl, hs, ?_⟩
    exact ⟨.presence name, rfl, rfl, hd⟩

mutual

theorem disjunction_traces (p : Parser) {lexemes : List Lexeme} (hs : p.Sees lexemes stop)
    (hd : p.depth ≤ maxNesting) :
    (disjunction p).Ends (Traces p.depth lexemes stop (DerivesDisjunction p.depth)) := by
  rw [disjunction_eq]
  refine ends_andThen_traces (conjunction_traces p hs hd) ?_
  rintro left q hq used rest hl hsees hqd ⟨d, htokens, htree, hnest⟩
  rw [← hqd] at hnest ⊢
  refine ends_link_traces (DerivesDisjunction (q.depth + 1)) hsees used hl
    ⟨.single d, htokens, htree, hnest⟩ ?_ fun r rest' hr hrsees hrd hlt => ?_
  · rintro right ts ⟨d', rfl, rfl, hn⟩
    refine ⟨.link d d', by rw [Disjunction.tokens, htokens], by rw [Disjunction.tree, htree], ?_⟩
    rw [Disjunction.nesting]
    omega
  · rw [← hrd] at hlt ⊢
    exact disjunction_traces r.deeper (sees_deeper.2 hrsees) hlt
termination_by 4 * p.size + 3
decreasing_by
  · omega
  · show 4 * r.size + 3 < 4 * p.size + 3
    omega

theorem conjunction_traces (p : Parser) {lexemes : List Lexeme} (hs : p.Sees lexemes stop)
    (hd : p.depth ≤ maxNesting) :
    (conjunction p).Ends (Traces p.depth lexemes stop (DerivesConjunction p.depth)) := by
  rw [conjunction_eq]
  refine ends_andThen_traces (constraint_traces p hs hd) ?_
  rintro left q hq used rest hl hsees hqd ⟨d, htokens, htree, hnest⟩
  rw [← hqd] at hnest ⊢
  refine ends_link_traces (DerivesConjunction (q.depth + 1)) hsees used hl
    ⟨.single d, htokens, htree, hnest⟩ ?_ fun r rest' hr hrsees hrd hlt => ?_
  · rintro right ts ⟨d', rfl, rfl, hn⟩
    refine ⟨.link d d', by rw [Conjunction.tokens, htokens], by rw [Conjunction.tree, htree], ?_⟩
    rw [Conjunction.nesting]
    omega
  · rw [← hrd] at hlt ⊢
    exact conjunction_traces r.deeper (sees_deeper.2 hrsees) hlt
termination_by 4 * p.size + 2
decreasing_by
  · omega
  · show 4 * r.size + 2 < 4 * p.size + 2
    omega

theorem constraint_traces (p : Parser) {lexemes : List Lexeme} (hs : p.Sees lexemes stop)
    (hd : p.depth ≤ maxNesting) :
    (constraint p).Ends (Traces p.depth lexemes stop (DerivesPhrase p.depth)) := by
  rw [constraint]
  split
  · next hpeek =>
    obtain ⟨first, rest, rfl, hopen⟩ := hs.exists_cons hpeek
    refine ends_nested (fun _ => trivial) fun hlt => ?_
    have hgroup := group_traces p.deeper (isSome_of_peek hpeek) (sees_deeper.2 hs) hopen
      p.depth rfl hlt
    exact hgroup.mono fun _ _ h => h.shallower
  · next name hpeek =>
    obtain ⟨first, rest, rfl, hfirst⟩ := hs.exists_cons hpeek
    refine ends_take_traces hs fun q _ hsees hqd => ?_
    have hcomparison := comparison_traces name q hsees (by omega)
    rw [hqd] at hcomparison
    refine ends_map (hcomparison.mono fun _ _ h => ?_)
    refine h.prepend [first] rfl fun c ts hc => ?_
    rw [List.map_singleton, hfirst]
    exact hc
  · exact ends_fail trivial
  · exact ends_fail trivial
termination_by 4 * p.size + 1
decreasing_by show 4 * p.size < 4 * p.size + 1; omega

theorem group_traces (p : Parser) (hp : p.current.isSome = true) {first : Lexeme}
    {lexemes : List Lexeme} (hs : p.Sees (first :: lexemes) stop)
    (hopen : first.token = .leftParen) (depth : Nat) (hdepth : p.depth = depth + 1)
    (hlt : depth < maxNesting) :
    (group p hp).Ends (Traces (depth + 1) (first :: lexemes) stop (DerivesPhrase depth)) := by
  rw [group]
  refine ends_take_traces hs fun q hq hsees hqd => ?_
  refine ends_andThen_traces (disjunction_traces q hsees (by omega)) ?_
  rintro inner r hr used rest hl hrsees hrd ⟨d, htokens, htree, hnest⟩
  split
  · next hclose =>
    obtain ⟨close, rest', rfl, hclose⟩ := hrsees.exists_cons hclose
    refine ends_take_traces hrsees fun s _ hssees hsd => ?_
    refine ends_done ⟨by omega, first :: (used ++ [close]), rest', by simp [hl], hssees, ?_⟩
    refine ⟨.group d, by simp [Phrase.tokens, htokens, hopen, hclose], ?_, ?_⟩
    · rw [Phrase.tree, htree]
    · rw [Phrase.nesting]
      omega
  · exact ends_fail trivial
termination_by 4 * p.size
decreasing_by omega

end

/-- A filter that is read completely has a derivation from all of its tokens. -/
theorem filter_traces (p : Parser) {lexemes : List Lexeme} (hs : p.Sees lexemes stop)
    (hd : p.depth ≤ maxNesting) :
    (filter p).Ends (Traces p.depth lexemes stop fun e ts =>
      ts = lexemes.map Lexeme.token ∧ stop = none ∧ DerivesDisjunction p.depth e ts) := by
  rw [filter]
  refine ends_andThen_traces (disjunction_traces p hs hd) ?_
  intro e q hq used rest hl hsees hqd hrel
  split
  · next hend =>
    cases rest with
    | nil =>
      refine ends_done ⟨hqd, used, [], hl, hsees, ?_, hsees.2, hrel⟩
      rw [hl, List.append_nil]
    | cons first rest =>
      rw [hsees.peek_cons] at hend
      cases hend
  · exact ends_fail trivial
  · exact ends_fail trivial

end Parser
end Criteria
