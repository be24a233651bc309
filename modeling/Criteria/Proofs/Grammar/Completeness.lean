import Criteria.Proofs.Grammar.Rules
import Criteria.Proofs.Grammar.Run

/-!
# Every derivation succeeds

A parser that sees the yield of a derivation, followed by tokens that do not continue it, answers
the tree of the derivation and stops before those tokens, provided that the nesting fits into the
levels that are left.  If it does not fit, the nesting is what the parser complains about.
-/

namespace Criteria
namespace Parser

open Grammar Outcome

/-- How reading a derivation ends: by its tree, with the tokens behind it left, or by the fault
that there are too many levels. -/
def Completes {α : Type} (depth nesting : Nat) (a : α) (ts : List Token) (stop : Option LexError)
    (r : Except ParseError α) (q : Parser) : Prop :=
  if depth + nesting ≤ maxNesting then
    r = .ok a ∧ q.depth = depth ∧ ∃ rest, rest.map Lexeme.token = ts ∧ q.Sees rest stop
  else ∃ line near, r = .error (.grammar line .nestingTooDeep near)

section Completes

variable {α β : Type} {depth nesting nesting' : Nat} {a : α} {ts : List Token}
  {stop : Option LexError} {r : Except ParseError α} {q : Parser}

theorem completes_ok (hn : depth + nesting ≤ maxNesting) {rest : List Lexeme}
    (hsees : q.Sees rest stop) (hts : rest.map Lexeme.token = ts) (hq : q.depth = depth) :
    Completes depth nesting a ts stop (.ok a) q := by
  rw [Completes, if_pos hn]
  exact ⟨rfl, hq, rest, hts, hsees⟩

theorem completes_tooDeep (hn : maxNesting < depth + nesting) {line : Nat} {near : Option Token} :
    Completes depth nesting a ts stop (.error (.grammar line .nestingTooDeep near)) q := by
  rw [Completes, if_neg (by omega)]
  exact ⟨line, near, rfl⟩

/-- Only whether the nesting fits matters. -/
theorem Completes.congr (h : Completes depth nesting a ts stop r q)
    (hn : depth + nesting ≤ maxNesting ↔ depth + nesting' ≤ maxNesting) :
    Completes depth nesting' a ts stop r q := by
  unfold Completes at h ⊢
  simpa only [hn] using h

theorem Completes.map {f : α → β} (h : Completes depth nesting a ts stop r q) :
    Completes depth nesting (f a) ts stop (r.map f) q := by
  unfold Completes at h ⊢
  split at h
  · next hn =>
    obtain ⟨rfl, hq, hrest⟩ := h
    rw [if_pos hn]
    exact ⟨rfl, hq, hrest⟩
  · next hn =>
    obtain ⟨line, near, rfl⟩ := h
    rw [if_neg hn]
    exact ⟨line, near, rfl⟩

theorem Completes.shallower (h : Completes (depth + 1) nesting a ts stop r q) :
    Completes depth (nesting + 1) a ts stop r q.shallower := by
  unfold Completes at h ⊢
  rw [show depth + 1 + nesting = depth + (nesting + 1) by omega] at h
  split at h
  · next hn =>
    obtain ⟨rfl, hq, rest, hts, hsees⟩ := h
    rw [if_pos hn]
    exact ⟨rfl, by rw [shallower_depth, hq]; rfl, rest, hts, sees_shallower.2 hsees⟩
  · next hn =>
    rw [if_neg hn]
    exact h

end Completes

variable {α β : Type} {p : Parser} {stop : Option LexError}

/-- Taking a token that another one, or the end of the text, follows. -/
theorem ends_take_next {first : Lexeme} {lexemes : List Lexeme}
    (hs : p.Sees (first :: lexemes) stop) (hnext : lexemes = [] → stop = none)
    {hp : p.current.isSome = true} {f : (q : Parser) → q.size < p.size → Outcome α q}
    {post : Except ParseError α → Parser → Prop}
    (hok : ∀ (q : Parser) (hq : q.size < p.size), q.Sees lexemes stop → q.depth = p.depth →
      (f q hq).Ends post) :
    (p.take hp f).Ends post := by
  refine ends_take hs (fun e q hl hstop _ => ?_) hok
  rw [hnext hl] at hstop
  cases hstop

/-- Going on behind a derivation that has been read. -/
theorem ends_andThen_completes {nesting nesting' : Nat} {a : α} {b : β} {ts ts' : List Token}
    {x : Outcome α p} {f : α → (q : Parser) → q.size ≤ p.size → Outcome β q}
    (hx : x.Ends (Completes p.depth nesting a ts stop)) (hle : nesting ≤ nesting')
    (hf : ∀ (q : Parser) (hq : q.size ≤ p.size) (rest : List Lexeme),
      q.Sees rest stop → rest.map Lexeme.token = ts → q.depth = p.depth →
      p.depth + nesting ≤ maxNesting →
      (f a q hq).Ends (Completes p.depth nesting' b ts' stop)) :
    (x.andThen f).Ends (Completes p.depth nesting' b ts' stop) := by
  refine ends_andThen (hx.mono fun answer q h => ?_)
  unfold Completes at h
  split at h
  · next hn =>
    obtain ⟨rfl, hqd, rest, hts, hsees⟩ := h
    exact fun hq => hf q hq rest hsees hts hqd hn
  · next hn =>
    obtain ⟨line, near, rfl⟩ := h
    exact completes_tooDeep (by omega)

/-- Reading a derivation one level deeper. -/
theorem ends_nested_completes {nesting : Nat} {a : α} {ts : List Token}
    {rule : Unit → Outcome α p.deeper}
    (h : p.depth < maxNesting →
      (rule ()).Ends (Completes (p.depth + 1) nesting a ts stop)) :
    (p.nested rule).Ends (Completes p.depth (nesting + 1) a ts stop) := by
  refine ends_nested (fun hdeep => ?_) fun hlt => (h hlt).mono fun _ _ h => h.shallower
  exact completes_tooDeep (by omega)

theorem nil_of_map_eq_nil {lexemes : List Lexeme} {ts : List Token}
    (hl : lexemes.map Lexeme.token = ts) (hend : ts = [] → stop = none) :
    lexemes = [] → stop = none := by
  rintro rfl
  exact hend hl.symm

/-- A separator, and one level deeper the rest of the chain behind it. -/
theorem ends_link_completes (nesting : Nat) {nesting' : Nat} {separator : Token}
    {rule : (r : Parser) → Outcome Expr r} {join : Expr → Expr → Expr} {left right : Expr}
    {lexemes : List Lexeme} {us ts : List Token} (hs : p.Sees lexemes stop)
    (hl : lexemes.map Lexeme.token = separator :: us) (hend : us = [] → stop = none)
    (hn : p.depth + (nesting + 1) ≤ maxNesting ↔ p.depth + nesting' ≤ maxNesting)
    (hrule : ∀ (q : Parser) (rest : List Lexeme), q.Sees rest stop → rest.map Lexeme.token = us →
      q.depth < maxNesting →
      (rule q.deeper).Ends (Completes (q.depth + 1) nesting right ts stop)) :
    (link separator rule join left p).Ends
      (Completes p.depth nesting' (join left right) ts stop) := by
  obtain ⟨first, rest, rfl, hfirst, hrest⟩ := List.map_eq_cons_iff.1 hl
  rw [link_separator (by rw [hs.peek_cons, hfirst])]
  refine ends_take_next hs (nil_of_map_eq_nil hrest hend) fun q _ hsees hqd => ?_
  have hnested : (q.nested fun _ => (rule q.deeper).map (join left)).Ends
      (Completes q.depth (nesting + 1) (join left right) ts stop) := by
    refine ends_nested_completes fun hlt => ends_map ?_
    exact (hrule q rest hsees hrest hlt).mono fun _ _ h => h.map
  rw [hqd] at hnested
  exact hnested.mono fun _ _ h => h.congr hn

/-- A token that is a value of its own. -/
theorem ends_value_single {lexemes : List Lexeme} {token : Token} {ts : List Token} {v : Value}
    (hs : p.Sees lexemes stop) (hl : lexemes.map Lexeme.token = token :: ts)
    (hv : token.value? = some v) (hend : ts = [] → stop = none) (hd : p.depth ≤ maxNesting) :
    (value p).Ends (Completes p.depth 0 v ts stop) := by
  obtain ⟨first, rest, rfl, rfl, hrest⟩ := List.map_eq_cons_iff.1 hl
  rw [value_single hs.peek_cons hv]
  refine ends_take_next hs (nil_of_map_eq_nil hrest hend) fun q _ hsees hq => ?_
  exact ends_done (completes_ok hd hsees hrest hq)

/-- The opening parenthesis of a list. -/
theorem ends_value_list {first : Lexeme} {lexemes : List Lexeme} {ts : List Token} {v : Value}
    {nesting : Nat} (hs : p.Sees (first :: lexemes) stop) (hopen : first.token = .leftParen)
    (hlist : p.depth < maxNesting → ∀ hp : p.deeper.current.isSome = true,
      (list p.deeper hp).Ends (Completes (p.depth + 1) nesting v ts stop)) :
    (value p).Ends (Completes p.depth (nesting + 1) v ts stop) := by
  rw [value_open (by rw [hs.peek_cons, hopen])]
  exact ends_nested_completes fun hlt => hlist hlt _

-- The induction is on the derivation.  The tokens behind it are arbitrary, so that what is shown
-- of an item also serves for the items behind it.
mutual

theorem value_completes : ∀ (d : Argument) {p : Parser} {lexemes : List Lexeme}
    {ts : List Token}, p.Sees lexemes stop → lexemes.map Lexeme.token = d.tokens ++ ts →
    (ts = [] → stop = none) → p.depth ≤ maxNesting →
    (value p).Ends (Completes p.depth d.nesting d.value ts stop)
  | .text _, p, lexemes, ts, hs, hl, hend, hd | .selector _, p, lexemes, ts, hs, hl, hend, hd
  | .integer _, p, lexemes, ts, hs, hl, hend, hd | .float _, p, lexemes, ts, hs, hl, hend, hd
  | .boolean _, p, lexemes, ts, hs, hl, hend, hd => ends_value_single hs hl rfl hend hd
  | .empty, p, lexemes, ts, hs, hl, hend, hd => by
      obtain ⟨first, rest, rfl, hopen, hrest⟩ := List.map_eq_cons_iff.1 hl
      obtain ⟨second, rest', rfl, hclose, hrest'⟩ := List.map_eq_cons_iff.1 hrest
      refine ends_value_list hs hopen fun hlt hp => ?_
      rw [list]
      refine ends_take_next (sees_deeper.2 hs) (by simp) fun q _ hsees hqd => ?_
      have hpeek : q.peek = some .rightParen := by rw [hsees.peek_cons, hclose]
      rw [dif_pos hpeek]
      refine ends_take_next hsees (nil_of_map_eq_nil hrest' hend) fun r _ hrsees hrd => ?_
      exact ends_done (completes_ok hlt hrsees hrest' (by rw [hrd, hqd]; rfl))
  | .list items, p, lexemes, ts, hs, hl, hend, hd => by
      rw [Argument.tokens, List.cons_append, List.append_assoc] at hl
      obtain ⟨first, rest, rfl, hopen, hrest⟩ := List.map_eq_cons_iff.1 hl
      have hnotClose : (rest.map Lexeme.token).head? ≠ some .rightParen := by
        rw [hrest]
        intro hhead
        obtain ⟨tail, htail⟩ := List.head?_eq_some_iff.1 hhead
        exact items.tokens_append_ne _ _ htail
      refine ends_value_list hs hopen fun hlt hp => ?_
      rw [list]
      refine ends_take_next (sees_deeper.2 hs) (nil_of_map_eq_nil hrest (by simp))
        fun q _ hsees hqd => ?_
      rw [dif_neg (by rw [hsees.peek_eq]; exact hnotClose)]
      have hitems := items_completes items hsees hrest hend (by rw [hqd]; exact hlt)
      rw [hqd] at hitems
      exact ends_map (hitems.mono fun _ _ h => h.map)

theorem items_completes : ∀ (d : Arguments) {p : Parser} {lexemes : List Lexeme}
    {ts : List Token}, p.Sees lexemes stop →
    lexemes.map Lexeme.token = d.tokens ++ ([.rightParen] ++ ts) →
    (ts = [] → stop = none) → p.depth ≤ maxNesting →
    (items p).Ends (Completes p.depth d.nesting d.values ts stop)
  | .last v, p, lexemes, ts, hs, hl, hend, hd => by
      rw [items_eq]
      refine ends_andThen_completes (value_completes v hs hl (by simp) hd) (Nat.le_refl _)
        fun q hq rest hsees hrest hqd hn => ?_
      obtain ⟨close, rest', rfl, hclose, hrest'⟩ := List.map_eq_cons_iff.1 hrest
      rw [afterItem_close (by rw [hsees.peek_cons, hclose])]
      refine ends_take_next hsees (nil_of_map_eq_nil hrest' hend) fun r _ hrsees hrd => ?_
      exact ends_done (completes_ok hn hrsees hrest' (by omega))
  | .more v d, p, lexemes, ts, hs, hl, hend, hd => by
      rw [Arguments.tokens, List.append_assoc] at hl
      rw [items_eq]
      refine ends_andThen_completes (value_completes v hs hl (by simp) hd) (Nat.le_max_left _ _)
        fun q hq rest hsees hrest hqd hn => ?_
      obtain ⟨comma, rest', rfl, hcomma, hrest'⟩ := List.map_eq_cons_iff.1 hrest
      rw [afterItem_comma (by rw [hsees.peek_cons, hcomma])]
      refine ends_take_next hsees (nil_of_map_eq_nil hrest' (by simp)) fun r _ hrsees hrd => ?_
      have hmore := items_completes d hrsees hrest' hend (by omega)
      rw [hrd, hqd] at hmore
      refine ends_map (hmore.mono fun _ _ h => h.map.congr ?_)
      rw [Arguments.nesting]
      omega

end

/-- A bare selector, which no operator follows. -/
theorem comparison_presence (name : String) {lexemes : List Lexeme} (hs : p.Sees lexemes stop)
    (hends : EndsPhrase (lexemes.map Lexeme.token)) (hd : p.depth ≤ maxNesting) :
    (comparison name p).Ends
      (Completes p.depth 0 (.presence name) (lexemes.map Lexeme.token) stop) := by
  rw [EndsPhrase, ← hs.peek_eq] at hends
  rw [comparison_of_none name hends]
  exact ends_done (completes_ok hd hs rfl rfl)

/-- An operator and a value behind a selector. -/
theorem comparison_operator (name : String) (op : Operator) (d : Argument)
    {lexemes : List Lexeme} {ts : List Token} (hs : p.Sees lexemes stop)
    (hl : lexemes.map Lexeme.token = operatorToken op :: (d.tokens ++ ts))
    (hend : ts = [] → stop = none) (hd : p.depth ≤ maxNesting) :
    (comparison name p).Ends
      (Completes p.depth d.nesting (.comparison name op d.value) ts stop) := by
  obtain ⟨first, rest, rfl, hop, hrest⟩ := List.map_eq_cons_iff.1 hl
  have hpeek : p.peek = some (operatorToken op) := by rw [hs.peek_cons, hop]
  have hne : d.tokens ++ ts ≠ [] := by cases d <;> simp [Argument.tokens]
  have hnext : rest = [] → stop = none := nil_of_map_eq_nil hrest fun h => absurd h hne
  rw [comparison_of_operator name hpeek]
  refine ends_take_next hs hnext fun q _ hsees hqd => ?_
  have hvalue := value_completes d hsees hrest hend (by omega)
  rw [hqd] at hvalue
  exact ends_map (hvalue.mono fun _ _ h => h.map)

/-- The opening parenthesis of a group. -/
theorem ends_constraint_group {first : Lexeme} {lexemes : List Lexeme} {ts : List Token} {e : Expr}
    {nesting : Nat} (hs : p.Sees (first :: lexemes) stop) (hopen : first.token = .leftParen)
    (hgroup : p.depth < maxNesting → ∀ hp : p.deeper.current.isSome = true,
      (group p.deeper hp).Ends (Completes (p.depth + 1) nesting e ts stop)) :
    (constraint p).Ends (Completes p.depth (nesting + 1) e ts stop) := by
  rw [constraint_open (by rw [hs.peek_cons, hopen])]
  exact ends_nested_completes fun hlt => hgroup hlt _

/-- A selector, and the constraint that is made of it with the tokens behind. -/
theorem ends_constraint_selector {name : String} {lexemes : List Lexeme} {us ts : List Token}
    {c : Constraint} {nesting : Nat} (hs : p.Sees lexemes stop)
    (hl : lexemes.map Lexeme.token = .selector name :: us) (hend : us = [] → stop = none)
    (hcomparison : ∀ (q : Parser) (rest : List Lexeme), q.Sees rest stop →
      rest.map Lexeme.token = us → q.depth = p.depth →
      (comparison name q).Ends (Completes q.depth nesting c ts stop)) :
    (constraint p).Ends (Completes p.depth nesting (.constraint c) ts stop) := by
  obtain ⟨first, rest, rfl, hfirst, hrest⟩ := List.map_eq_cons_iff.1 hl
  rw [constraint_selector (by rw [hs.peek_cons, hfirst])]
  refine ends_take_next hs (nil_of_map_eq_nil hrest hend) fun q _ hsees hqd => ?_
  have hends := hcomparison q rest hsees hrest hqd
  rw [hqd] at hends
  exact ends_map (hends.mono fun _ _ h => h.map)

mutual

theorem disjunction_completes : ∀ (d : Disjunction) {p : Parser} {lexemes : List Lexeme}
    {ts : List Token}, p.Sees lexemes stop → lexemes.map Lexeme.token = d.tokens ++ ts →
    EndsDisjunction ts → (ts = [] → stop = none) → p.depth ≤ maxNesting →
    (disjunction p).Ends (Completes p.depth d.nesting d.tree ts stop)
  | .single left, p, lexemes, ts, hs, hl, hends, hend, hd => by
      rw [disjunction_eq]
      refine ends_andThen_completes (conjunction_completes left hs hl hends.1 hend hd)
        (Nat.le_refl _) fun q hq rest hsees hrest hqd hn => ?_
      rw [link_other (by rw [hsees.peek_eq, hrest]; exact hends.2)]
      exact ends_done (completes_ok hn hsees hrest hqd)
  | .link left right, p, lexemes, ts, hs, hl, hends, hend, hd => by
      rw [Disjunction.tokens, List.append_assoc, List.cons_append] at hl
      rw [disjunction_eq]
      refine ends_andThen_completes
        (conjunction_completes left hs hl (endsConjunction_comma _) (by simp) hd)
        (Nat.le_max_left _ _) fun q hq rest hsees hrest hqd hn => ?_
      rw [← hqd]
      refine ends_link_completes right.nesting hsees hrest ?_ ?_ fun r rest' hrsees hrest' hlt => ?_
      · exact fun h => hend (List.append_eq_nil_iff.1 h).2
      · rw [Disjunction.nesting]
        omega
      · exact disjunction_completes right (sees_deeper.2 hrsees) hrest' hends hend hlt

theorem conjunction_completes : ∀ (d : Conjunction) {p : Parser} {lexemes : List Lexeme}
    {ts : List Token}, p.Sees lexemes stop → lexemes.map Lexeme.token = d.tokens ++ ts →
    EndsConjunction ts → (ts = [] → stop = none) → p.depth ≤ maxNesting →
    (conjunction p).Ends (Completes p.depth d.nesting d.tree ts stop)
  | .single left, p, lexemes, ts, hs, hl, hends, hend, hd => by
      rw [conjunction_eq]
      refine ends_andThen_completes (constraint_completes left hs hl hends.1 hend hd)
        (Nat.le_refl _) fun q hq rest hsees hrest hqd hn => ?_
      rw [link_other (by rw [hsees.peek_eq, hrest]; exact hends.2)]
      exact ends_done (completes_ok hn hsees hrest hqd)
  | .link left right, p, lexemes, ts, hs, hl, hends, hend, hd => by
      rw [Conjunction.tokens, List.append_assoc, List.cons_append] at hl
      rw [conjunction_eq]
      refine ends_andThen_completes
        (constraint_completes left hs hl (endsPhrase_semicolon _) (by simp) hd)
        (Nat.le_max_left _ _) fun q hq rest hsees hrest hqd hn => ?_
      rw [← hqd]
      refine ends_link_completes right.nesting hsees hrest ?_ ?_ fun r rest' hrsees hrest' hlt => ?_
      · exact fun h => hend (List.append_eq_nil_iff.1 h).2
      · rw [Conjunction.nesting]
        omega
      · exact conjunction_completes right (sees_deeper.2 hrsees) hrest' hends hend hlt

theorem constraint_completes : ∀ (d : Phrase) {p : Parser} {lexemes : List Lexeme}
    {ts : List Token}, p.Sees lexemes stop → lexemes.map Lexeme.token = d.tokens ++ ts →
    EndsPhrase ts → (ts = [] → stop = none) → p.depth ≤ maxNesting →
    (constraint p).Ends (Completes p.depth d.nesting d.tree ts stop)
  | .group inner, p, lexemes, ts, hs, hl, hends, hend, hd => by
      rw [Phrase.tokens, List.cons_append, List.append_assoc] at hl
      obtain ⟨first, rest, rfl, hopen, hrest⟩ := List.map_eq_cons_iff.1 hl
      refine ends_constraint_group hs hopen fun hlt hp => ?_
      rw [group]
      refine ends_take_next (sees_deeper.2 hs) (nil_of_map_eq_nil hrest (by simp))
        fun q hq hsees hqd => ?_
      rw [deeper_depth] at hqd
      have hinner := disjunction_completes inner hsees hrest (endsDisjunction_rightParen _)
        (by simp) (by omega)
      rw [← hqd]
      refine ends_andThen_completes hinner (Nat.le_refl _)
        fun r hr rest' hrsees hrest' hrd hn => ?_
      obtain ⟨close, rest'', rfl, hclose, hrest''⟩ := List.map_eq_cons_iff.1 hrest'
      rw [dif_pos (by rw [hrsees.peek_cons, hclose])]
      refine ends_take_next hrsees (nil_of_map_eq_nil hrest'' hend) fun s _ hssees hsd => ?_
      exact ends_done (completes_ok hn hssees hrest'' (by omega))
  | .presence name, p, lexemes, ts, hs, hl, hends, hend, hd => by
      refine ends_constraint_selector hs hl hend fun q rest hsees hrest hqd => ?_
      have hpresence := comparison_presence name hsees (by rw [hrest]; exact hends) (by omega)
      rw [hrest] at hpresence
      exact hpresence
  | .comparison name op v, p, lexemes, ts, hs, hl, hends, hend, hd => by
      refine ends_constraint_selector hs hl (fun h => by cases h) fun q rest hsees hrest hqd => ?_
      exact comparison_operator name op v hsees hrest hend (by omega)

end

/-- A complete filter is read to its end. -/
theorem filter_completes (d : Disjunction) {lexemes : List Lexeme}
    (hs : p.Sees lexemes none) (hl : lexemes.map Lexeme.token = d.tokens)
    (hd : p.depth ≤ maxNesting) :
    (filter p).Ends (Completes p.depth d.nesting d.tree [] none) := by
  rw [filter]
  refine ends_andThen_completes
    (disjunction_completes d hs (by simpa using hl) endsDisjunction_nil (fun _ => rfl) hd)
    (Nat.le_refl _) fun q hq rest hsees hrest hqd hn => ?_
  have hpeek : q.peek = none := by rw [hsees.peek_eq, hrest]; rfl
  split
  · exact ends_done (completes_ok hn hsees hrest hqd)
  · next h => simp [hpeek] at h
  · next h => simp [hpeek] at h

end Parser
end Criteria
