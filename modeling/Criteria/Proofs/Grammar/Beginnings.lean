import Criteria.Proofs.Grammar.Derivation

/-!
# Beginnings of derivations

What some tokens and the one that comes next say about the derivations that begin with them.  The
tokens settle a construct of the grammar if it can only end right behind them, or if none begins so
at all.  They are a beginning of it if some tokens complete them; two kinds of tokens are enough
for that, and they open no further level.

**Results.**
* `settles_argument`, `settles_list`, `settles_operand`, `settles_group` and their kin: what is
  settled of values and constraints by what is settled inside them.
* `Chain.settles_first`, `Chain.settles_single`, `Chain.settles_link`: the same for chains.
* `begins_list`, `begins_operand`, `begins_group`, `Chain.begins_link`: how beginnings are put
  together.
-/

namespace Criteria
namespace Grammar

/-- A construct of the grammar: the tokens and the nesting of its derivations, and what follows. -/
structure Construct (δ : Type) where
  tokens : δ → List Token
  nesting : δ → Nat
  Follow : List Token → Prop

/-- A value.  Anything may follow. -/
def Construct.argument : Construct Argument :=
  ⟨Argument.tokens, Argument.nesting, fun _ => True⟩

/-- The items of a list, with the closing parenthesis. -/
def Construct.arguments : Construct Arguments :=
  ⟨fun items => items.tokens ++ [.rightParen], Arguments.nesting, fun _ => True⟩

def Construct.phrase : Construct Phrase :=
  ⟨Phrase.tokens, Phrase.nesting, EndsPhrase⟩

def Construct.conjunction : Construct Conjunction :=
  ⟨Conjunction.tokens, Conjunction.nesting, EndsConjunction⟩

def Construct.disjunction : Construct Disjunction :=
  ⟨Disjunction.tokens, Disjunction.nesting, EndsDisjunction⟩

/-- A complete filter.  Nothing may follow. -/
def Construct.sentence : Construct Disjunction :=
  ⟨Disjunction.tokens, Disjunction.nesting, fun ts => ts = []⟩

namespace Construct

variable {δ : Type}

/-- Which derivations begin with the tokens `used` where `next` comes next: none at all, unless
`complete`, and then those only that have just these tokens. -/
def Settles (C : Construct δ) (complete : Prop) (used : List Token) (next : Option Token) : Prop :=
  ∀ (d : δ) (after rest : List Token), C.Follow after → rest.head? = next →
    C.tokens d ++ after = used ++ rest → complete ∧ C.tokens d = used

end Construct

/-- The tokens that complete a beginning: a selector, which is a value, too, and parentheses. -/
def IsFiller (t : Token) : Prop :=
  t = .selector "a" ∨ t = .rightParen

/-- Fillers complete the tokens to a derivation that fits below `depth` open levels. -/
def Construct.Begins {δ : Type} (C : Construct δ) (depth : Nat) (used : List Token) : Prop :=
  ∃ (d : δ) (more : List Token), C.tokens d = used ++ more ∧ (∀ t ∈ more, IsFiller t) ∧
    depth + C.nesting d ≤ maxNesting

section

variable {δ ε : Type} {C : Construct δ} {E : Construct ε} {complete : Prop} {used : List Token}
  {next : Option Token} {depth : Nat}

theorem Construct.begins_complete (d : δ) (hn : depth + C.nesting d ≤ maxNesting) :
    C.Begins depth (C.tokens d) :=
  ⟨d, [], (List.append_nil _).symm, List.forall_mem_nil _, hn⟩

/-! ### Values -/

/-- A value that is there ends behind its tokens, whatever comes next. -/
theorem settles_argument (v : Argument) (next : Option Token) :
    Construct.argument.Settles True v.tokens next := by
  intro w after rest _ _ h
  obtain ⟨rfl, -⟩ := w.unique v h
  exact ⟨trivial, rfl⟩

/-- No value starts with the next token. -/
theorem settles_no_argument (hvalue : ∀ t, next = some t → t.value? = none)
    (hopen : next ≠ some .leftParen) : Construct.argument.Settles False [] next := by
  rintro w after rest - rfl h
  have hhead : rest.head? = w.tokens.head? := by
    rw [← List.nil_append rest, ← h, List.head?_append]
    cases w <;> simp [Construct.argument, Argument.tokens]
  cases w with
  | empty | list => exact absurd hhead hopen
  | _ => cases hvalue _ hhead

theorem begins_argument_nil (hd : depth ≤ maxNesting) : Construct.argument.Begins depth [] :=
  ⟨.selector "a", [.selector "a"], rfl, by simp [IsFiller], hd⟩

theorem settles_list (hclose : (used.head?.or next) ≠ some .rightParen)
    (h : Construct.arguments.Settles complete used next) :
    Construct.argument.Settles complete (.leftParen :: used) next := by
  rintro w after rest - rfl heq
  have hhead : (used ++ rest).head? ≠ some .rightParen := by rwa [List.head?_append]
  cases w with
  | list items =>
    have hitems : Construct.arguments.tokens items ++ after = used ++ rest := by
      simpa [Construct.argument, Construct.arguments, Argument.tokens] using heq
    obtain ⟨hcomplete, htokens⟩ := h items after rest trivial rfl hitems
    refine ⟨hcomplete, ?_⟩
    rw [← htokens]
    rfl
  | empty =>
    have htail : Token.rightParen :: after = used ++ rest := by
      simpa [Construct.argument, Argument.tokens] using heq
    rw [← htail] at hhead
    exact absurd rfl hhead
  | _ => simp [Construct.argument, Argument.tokens] at heq

theorem begins_list (h : Construct.arguments.Begins (depth + 1) used) :
    Construct.argument.Begins depth (.leftParen :: used) := by
  obtain ⟨items, more, htokens, hmore, hn⟩ := h
  refine ⟨.list items, more, ?_, hmore, ?_⟩
  · rw [List.cons_append, ← htokens]
    rfl
  simp only [Construct.argument, Construct.arguments, Argument.nesting] at hn ⊢
  omega

/-- Behind the first item of a list stands a comma, unless it is the last one, too. -/
theorem tokens_arguments (items : Arguments) (after : List Token) :
    ∃ v rest, Construct.arguments.tokens items ++ after = v.tokens ++ rest ∧
      (rest.head? = some .comma ∨ rest = .rightParen :: after ∧ items = .last v) := by
  cases items with
  | last v =>
    exact ⟨v, .rightParen :: after, by simp [Construct.arguments, Arguments.tokens],
      .inr ⟨rfl, rfl⟩⟩
  | more v items =>
    exact ⟨v, .comma :: (items.tokens ++ .rightParen :: after),
      by simp [Construct.arguments, Arguments.tokens], .inl rfl⟩

/-- No list starts where its first item does not. -/
theorem settles_first_item (h : Construct.argument.Settles False used next) :
    Construct.arguments.Settles False used next := by
  intro items after rest _ hnext heq
  obtain ⟨v, behind, htokens, -⟩ := tokens_arguments items after
  rw [htokens] at heq
  exact (h v behind rest trivial hnext heq).1.elim

theorem begins_first_item (h : Construct.argument.Begins depth used) :
    Construct.arguments.Begins depth used := by
  obtain ⟨v, more, htokens, hmore, hn⟩ := h
  refine ⟨.last v, more ++ [.rightParen], ?_, ?_, hn⟩
  · rw [← List.append_assoc, ← htokens]
    rfl
  · rw [List.forall_mem_append]
    exact ⟨hmore, List.forall_mem_singleton.2 (.inr rfl)⟩

theorem settles_next_item (v : Argument) (h : Construct.arguments.Settles complete used next) :
    Construct.arguments.Settles complete (v.tokens ++ .comma :: used) next := by
  intro items after rest _ hnext heq
  cases items with
  | last w =>
    have hw : w.tokens ++ (.rightParen :: after) = v.tokens ++ (.comma :: (used ++ rest)) := by
      simpa [Construct.arguments, Arguments.tokens] using heq
    cases (w.unique v hw).2
  | more w items =>
    have hw : w.tokens ++ (.comma :: (Construct.arguments.tokens items ++ after)) =
        v.tokens ++ (.comma :: (used ++ rest)) := by
      simpa [Construct.arguments, Arguments.tokens] using heq
    obtain ⟨rfl, hrest⟩ := w.unique v hw
    obtain ⟨hcomplete, htokens⟩ := h items after rest trivial hnext (List.cons.inj hrest).2
    refine ⟨hcomplete, ?_⟩
    rw [← htokens]
    simp [Construct.arguments, Arguments.tokens]

theorem begins_next_item (v : Argument) (hv : depth + v.nesting ≤ maxNesting)
    (h : Construct.arguments.Begins depth used) :
    Construct.arguments.Begins depth (v.tokens ++ .comma :: used) := by
  obtain ⟨items, more, htokens, hmore, hn⟩ := h
  refine ⟨.more v items, more, ?_, hmore, ?_⟩
  · rw [List.append_assoc, List.cons_append, ← htokens]
    simp [Construct.arguments, Arguments.tokens]
  · simp only [Construct.arguments, Arguments.nesting] at hn ⊢
    omega

theorem settles_last_item (v : Argument) (next : Option Token) :
    Construct.arguments.Settles True (v.tokens ++ [.rightParen]) next := by
  intro items after rest _ _ heq
  obtain ⟨w, behind, htokens, hbehind⟩ := tokens_arguments items after
  rw [htokens, List.append_assoc, List.singleton_append] at heq
  obtain ⟨rfl, rfl⟩ := w.unique v heq
  rcases hbehind with h | ⟨h, rfl⟩
  · cases h
  · exact ⟨trivial, rfl⟩

theorem settles_no_item (v : Argument) (hcomma : next ≠ some .comma)
    (hclose : next ≠ some .rightParen) : Construct.arguments.Settles False v.tokens next := by
  rintro items after rest - rfl heq
  obtain ⟨w, behind, htokens, hbehind⟩ := tokens_arguments items after
  rw [htokens] at heq
  obtain ⟨rfl, rfl⟩ := w.unique v heq
  rcases hbehind with h | ⟨rfl, -⟩
  · exact absurd h hcomma
  · exact absurd rfl hclose

/-! ### Constraints -/

/-- No constraint starts with the next token. -/
theorem settles_no_phrase (hselector : ∀ name, next ≠ some (.selector name))
    (hopen : next ≠ some .leftParen) : Construct.phrase.Settles False [] next := by
  rintro d after rest - rfl h
  have hhead : rest.head? = d.tokens.head? := by
    rw [← List.nil_append rest, ← h, List.head?_append]
    cases d <;> simp [Construct.phrase, Phrase.tokens]
  cases d with
  | group inner => exact absurd hhead hopen
  | presence name | comparison name => exact absurd hhead (hselector name)

theorem begins_phrase_nil (hd : depth ≤ maxNesting) : Construct.phrase.Begins depth [] :=
  ⟨.presence "a", [.selector "a"], rfl, by simp [IsFiller], hd⟩

theorem settles_presence (name : String) (h : ∀ t, next = some t → ¬ IsOperator t) :
    Construct.phrase.Settles True [.selector name] next := by
  rintro d after rest - rfl heq
  cases d with
  | group inner => simp [Construct.phrase, Phrase.tokens] at heq
  | presence name' =>
    obtain ⟨rfl, -⟩ : name' = name ∧ after = rest := by
      simpa [Construct.phrase, Phrase.tokens] using heq
    exact ⟨trivial, rfl⟩
  | comparison name' op v =>
    obtain ⟨-, rfl⟩ : name' = name ∧ operatorToken op :: (v.tokens ++ after) = rest := by
      simpa [Construct.phrase, Phrase.tokens] using heq
    exact absurd (isOperator_operatorToken op) (h _ rfl)

theorem settles_operand (name : String) (op : Operator)
    (h : Construct.argument.Settles complete used next) :
    Construct.phrase.Settles complete (.selector name :: operatorToken op :: used) next := by
  intro d after rest hafter hnext heq
  cases d with
  | group inner => simp [Construct.phrase, Phrase.tokens] at heq
  | presence name' =>
    obtain ⟨-, rfl⟩ : name' = name ∧ after = operatorToken op :: (used ++ rest) := by
      simpa [Construct.phrase, Phrase.tokens] using heq
    exact absurd (isOperator_operatorToken op) (hafter _ rfl)
  | comparison name' op' v =>
    obtain ⟨rfl, hop, hv⟩ : name' = name ∧ operatorToken op' = operatorToken op ∧
        v.tokens ++ after = used ++ rest := by
      simpa [Construct.phrase, Phrase.tokens] using heq
    obtain ⟨hcomplete, htokens⟩ := h v after rest trivial hnext hv
    refine ⟨hcomplete, ?_⟩
    rw [← htokens, ← hop]
    rfl

theorem begins_operand (name : String) (op : Operator) (h : Construct.argument.Begins depth used) :
    Construct.phrase.Begins depth (.selector name :: operatorToken op :: used) := by
  obtain ⟨v, more, htokens, hmore, hn⟩ := h
  refine ⟨.comparison name op v, more, ?_, hmore, hn⟩
  rw [List.cons_append, List.cons_append, ← htokens]
  rfl

/-- A derivation that starts with an opening parenthesis is a group. -/
theorem exists_group {d : Phrase} {after rest : List Token}
    (h : Construct.phrase.tokens d ++ after = .leftParen :: rest) :
    ∃ inner, d = .group inner ∧ inner.tokens ++ .rightParen :: after = rest := by
  cases d with
  | group inner => exact ⟨inner, rfl, by simpa [Construct.phrase, Phrase.tokens] using h⟩
  | _ => simp [Construct.phrase, Phrase.tokens] at h

theorem settles_group (h : Construct.disjunction.Settles False used next) :
    Construct.phrase.Settles False (.leftParen :: used) next := by
  intro d after rest _ hnext heq
  obtain ⟨inner, rfl, hinner⟩ := exists_group heq
  exact (h inner _ rest (endsDisjunction_rightParen after) hnext hinner).1.elim

theorem begins_group (h : Construct.disjunction.Begins (depth + 1) used) :
    Construct.phrase.Begins depth (.leftParen :: used) := by
  obtain ⟨d, more, htokens, hmore, hn⟩ := h
  refine ⟨.group d, more ++ [.rightParen], ?_, ?_, ?_⟩
  · rw [List.cons_append, ← List.append_assoc, ← htokens]
    rfl
  · rw [List.forall_mem_append]
    exact ⟨hmore, List.forall_mem_singleton.2 (.inr rfl)⟩
  · simp only [Construct.disjunction, Construct.phrase, Phrase.nesting] at hn ⊢
    omega

/-- A group that is not closed where it ends. -/
theorem settles_unclosed (h : Construct.disjunction.Settles True used next)
    (hclose : next ≠ some .rightParen) :
    Construct.phrase.Settles False (.leftParen :: used) next := by
  rintro d after rest - rfl heq
  obtain ⟨inner, rfl, hinner⟩ := exists_group heq
  obtain ⟨-, rfl⟩ := h inner _ rest (endsDisjunction_rightParen after) rfl hinner
  have hrest : Token.rightParen :: after = rest := List.append_cancel_left hinner
  exact absurd (by rw [← hrest]; rfl) hclose

theorem settles_closed (h : Construct.disjunction.Settles True used (some .rightParen))
    (next : Option Token) :
    Construct.phrase.Settles True (.leftParen :: (used ++ [.rightParen])) next := by
  rintro d after rest - - heq
  rw [List.cons_append, List.append_assoc] at heq
  obtain ⟨inner, rfl, hinner⟩ := exists_group heq
  obtain ⟨-, rfl⟩ := h inner _ _ (endsDisjunction_rightParen after) rfl hinner
  exact ⟨trivial, rfl⟩

/-! ### Chains -/

/-- How a chain is made of other parts, with a separator between them. -/
structure Chain (E : Construct ε) (C : Construct δ) (separator : Token) where
  single : ε → δ
  link : ε → δ → δ
  cases : ∀ d, (∃ left, d = single left) ∨ ∃ left right, d = link left right
  tokens_single : ∀ left, C.tokens (single left) = E.tokens left
  tokens_link : ∀ left right,
    C.tokens (link left right) = E.tokens left ++ separator :: C.tokens right
  nesting_single : ∀ left, C.nesting (single left) = E.nesting left
  nesting_link : ∀ left right,
    C.nesting (link left right) = max (E.nesting left) (C.nesting right + 1)
  follow : ∀ ts, C.Follow ts → E.Follow ts ∧ ts.head? ≠ some separator
  follow_separator : ∀ ts, E.Follow (separator :: ts)

def Construct.conjunctionChain : Chain phrase conjunction .semicolon where
  single := .single
  link := .link
  cases d := by cases d <;> simp
  tokens_single _ := rfl
  tokens_link _ _ := rfl
  nesting_single _ := rfl
  nesting_link _ _ := rfl
  follow _ h := h
  follow_separator := endsPhrase_semicolon

def Construct.disjunctionChain : Chain conjunction disjunction .comma where
  single := .single
  link := .link
  cases d := by cases d <;> simp
  tokens_single _ := rfl
  tokens_link _ _ := rfl
  nesting_single _ := rfl
  nesting_link _ _ := rfl
  follow _ h := h
  follow_separator := endsConjunction_comma

namespace Chain

variable {separator : Token} (chain : Chain E C separator)

include chain

theorem settles_first (h : E.Settles False used next) : C.Settles False used next := by
  intro d after rest hafter hnext heq
  rcases chain.cases d with ⟨left, rfl⟩ | ⟨left, right, rfl⟩
  · rw [chain.tokens_single] at heq
    exact (h left after rest (chain.follow after hafter).1 hnext heq).1.elim
  · rw [chain.tokens_link, List.append_assoc, List.cons_append] at heq
    exact (h left _ rest (chain.follow_separator _) hnext heq).1.elim

theorem settles_single (h : E.Settles True used next) (hnext : next ≠ some separator) :
    C.Settles True used next := by
  rintro d after rest hafter rfl heq
  rcases chain.cases d with ⟨left, rfl⟩ | ⟨left, right, rfl⟩
  · rw [chain.tokens_single] at heq ⊢
    exact h left after rest (chain.follow after hafter).1 rfl heq
  · rw [chain.tokens_link, List.append_assoc, List.cons_append] at heq
    obtain ⟨-, rfl⟩ := h left _ rest (chain.follow_separator _) rfl heq
    have hrest : separator :: (C.tokens right ++ after) = rest := List.append_cancel_left heq
    exact absurd (by rw [← hrest]; rfl) hnext

theorem settles_link {left : List Token} (hleft : E.Settles True left (some separator))
    (h : C.Settles complete used next) :
    C.Settles complete (left ++ separator :: used) next := by
  intro d after rest hafter hnext heq
  rw [List.append_assoc, List.cons_append] at heq
  rcases chain.cases d with ⟨l, rfl⟩ | ⟨l, right, rfl⟩
  · rw [chain.tokens_single] at heq
    obtain ⟨-, rfl⟩ := hleft l after _ (chain.follow after hafter).1 rfl heq
    have hafter' : after = separator :: (used ++ rest) := List.append_cancel_left heq
    exact absurd (by rw [hafter']; rfl) (chain.follow after hafter).2
  · rw [chain.tokens_link, List.append_assoc, List.cons_append] at heq
    obtain ⟨-, rfl⟩ := hleft l _ _ (chain.follow_separator _) rfl heq
    have hright := (List.cons.inj (List.append_cancel_left heq)).2
    obtain ⟨hcomplete, htokens⟩ := h right after rest hafter hnext hright
    exact ⟨hcomplete, by rw [chain.tokens_link, htokens]⟩

theorem begins_first (h : E.Begins depth used) : C.Begins depth used := by
  obtain ⟨left, more, htokens, hmore, hn⟩ := h
  refine ⟨chain.single left, more, ?_, hmore, ?_⟩
  · rw [chain.tokens_single, htokens]
  · rwa [chain.nesting_single]

theorem begins_link (left : ε) (hleft : depth + E.nesting left ≤ maxNesting)
    (h : C.Begins (depth + 1) used) : C.Begins depth (E.tokens left ++ separator :: used) := by
  obtain ⟨right, more, htokens, hmore, hn⟩ := h
  refine ⟨chain.link left right, more, ?_, hmore, ?_⟩
  · rw [chain.tokens_link, htokens, List.append_assoc, List.cons_append]
  · rw [chain.nesting_link]
    omega

end Chain

/-- A filter that ends where another token comes next. -/
theorem settles_trailing (h : Construct.disjunction.Settles True used next)
    (hnext : next.isSome = true) :
    Construct.sentence.Settles False used next := by
  rintro d after rest rfl rfl heq
  obtain ⟨-, htokens⟩ := h d [] rest endsDisjunction_nil rfl heq
  rw [List.append_nil] at heq
  have hrest : rest = [] := List.append_right_eq_self.1 (heq.symm.trans htokens)
  rw [hrest] at hnext
  cases hnext

theorem settles_sentence (h : Construct.disjunction.Settles complete used next) :
    Construct.sentence.Settles complete used next := by
  rintro d after rest rfl hnext heq
  exact h d [] rest endsDisjunction_nil hnext heq

end

end Grammar
end Criteria
