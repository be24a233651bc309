import Criteria.Proofs.Grammar.Derivation

/-!
# Groups that are open

Which parentheses are still open behind some tokens, read off the tokens alone.  A parenthesis opens
a list behind an operator and inside another list, and a group anywhere else.

**Results.**
* `Nest.foldl_argument` and `Nest.foldl_disjunction`: what is complete has closed what it opened.
* `innermostGroup_open`: behind a complete filter the group around it is the innermost one.
-/

namespace Criteria
namespace Grammar

/-- What is open behind some tokens.  `stack` holds the open parentheses, the innermost first: the
place of the one of a group, counted in tokens, and none for the one of a list. -/
structure Nest where
  count : Nat := 0
  behindOperator : Bool := false
  stack : List (Option Nat) := []

namespace Nest

/-- A parenthesis that comes next opens a list. -/
def inValue (n : Nest) : Bool :=
  n.behindOperator || n.stack.head? = some none

/-- One more token. -/
def step (n : Nest) : Token → Nest
  | .leftParen => ⟨n.count + 1, false, (if n.inValue then none else some n.count) :: n.stack⟩
  | .rightParen => ⟨n.count + 1, false, n.stack.tail⟩
  | .equal | .notEqual | .comparison _ => ⟨n.count + 1, true, n.stack⟩
  | _ => ⟨n.count + 1, false, n.stack⟩

/-- Behind `k` more tokens that have closed all they opened. -/
def past (n : Nest) (k : Nat) : Nest :=
  ⟨n.count + k, false, n.stack⟩

end Nest

/-- What is open behind the tokens. -/
def nest (ts : List Token) : Nest :=
  ts.foldl Nest.step {}

/-- The place of the parenthesis of the innermost group that is open behind the tokens, if any. -/
def innermostGroup (ts : List Token) : Option Nat :=
  (nest ts).stack.findSome? id

example : innermostGroup [.leftParen, .leftParen, .selector "a", .rightParen, .semicolon,
    .selector "b", .equal, .leftParen] = some 0 := rfl

namespace Nest

variable {n : Nest}

theorem past_past (j k : Nat) : (n.past j).past k = n.past (j + k) := by
  rw [past, past, past, Nat.add_assoc]

theorem step_operatorToken (op : Operator) :
    n.step (operatorToken op) = ⟨n.count + 1, true, n.stack⟩ := by
  cases op <;> rfl

theorem count_foldl : ∀ (ts : List Token) (n : Nest), (ts.foldl step n).count = n.count + ts.length
  | [], n => rfl
  | t :: ts, n => by
      have hstep : (n.step t).count = n.count + 1 := by cases t <;> rfl
      rw [List.foldl_cons, count_foldl ts, hstep, List.length_cons]
      omega

/-- Outside of values an operator has its operand behind it. -/
theorem inValue_past (h : n.inValue = false) (k : Nat) : (n.past k).inValue = false := by
  simp only [inValue, Bool.or_eq_false_iff, past] at h ⊢
  exact ⟨trivial, h.2⟩

/-- Behind the opening parenthesis of a group another group may open. -/
theorem inValue_step_leftParen (h : n.inValue = false) : (n.step .leftParen).inValue = false := by
  rw [step, if_neg (by simp [h])]
  rfl

/-- Behind a part of a chain and a separator no value is expected. -/
theorem inValue_separator {ts : List Token} {separator : Token} (h : n.inValue = false)
    (hseparator : separator = .semicolon ∨ separator = .comma)
    (hts : ts.foldl step n = n.past ts.length) :
    ((ts ++ [separator]).foldl step n).inValue = false := by
  rw [List.foldl_append, hts]
  rcases hseparator with rfl | rfl <;> exact inValue_past h (ts.length + 1)

/-- Two parts with a separator between them close what they opened if each of them does. -/
theorem foldl_chain {left right : List Token} {separator : Token}
    (hseparator : separator = .semicolon ∨ separator = .comma)
    (hleft : left.foldl step n = n.past left.length)
    (hright : ∀ k, right.foldl step (n.past k) = (n.past k).past right.length) :
    (left ++ separator :: right).foldl step n =
      n.past (left ++ separator :: right).length := by
  have hstep : (n.past left.length).step separator = n.past (left.length + 1) := by
    rcases hseparator with rfl | rfl <;> rfl
  rw [List.foldl_append, hleft, List.foldl_cons, hstep, hright, past_past, List.length_append,
    List.length_cons]
  congr 1
  omega

/-- Parentheses close what they opened if their content does. -/
theorem foldl_parentheses {inner : List Token}
    (hinner : inner.foldl step (n.step .leftParen) = (n.step .leftParen).past inner.length) :
    (.leftParen :: (inner ++ [.rightParen])).foldl step n =
      n.past (.leftParen :: (inner ++ [.rightParen])).length := by
  rw [List.foldl_cons, List.foldl_append, hinner]
  simp only [past, step, List.foldl_cons, List.foldl_nil, List.tail_cons, List.length_cons,
    List.length_append, List.length_nil]
  congr 1
  omega

mutual

/-- A value has closed the lists that it opened. -/
theorem foldl_argument : ∀ (v : Argument) (n : Nest), n.inValue = true →
    v.tokens.foldl step n = n.past v.tokens.length
  | .text _, n, _ | .selector _, n, _ | .integer _, n, _ | .float _, n, _ | .boolean _, n, _ => rfl
  | .empty, n, _ => rfl
  | .list items, n, h => by
      have hopen : n.step .leftParen = ⟨n.count + 1, false, none :: n.stack⟩ := by
        rw [step, if_pos h]
      refine foldl_parentheses (foldl_arguments items _ ?_)
      rw [hopen]
      rfl

theorem foldl_arguments : ∀ (items : Arguments) (n : Nest), n.stack.head? = some none →
    items.tokens.foldl step n = n.past items.tokens.length
  | .last v, n, h => foldl_argument v n (by simp [inValue, h])
  | .more v rest, n, h =>
      foldl_chain (.inr rfl) (foldl_argument v n (by simp [inValue, h]))
        fun _ => foldl_arguments rest _ h

end

mutual

/-- A filter has closed the groups and lists that it opened. -/
theorem foldl_disjunction : ∀ (d : Disjunction) (n : Nest), n.inValue = false →
    d.tokens.foldl step n = n.past d.tokens.length
  | .single left, n, h => foldl_conjunction left n h
  | .link left right, n, h =>
      foldl_chain (.inr rfl) (foldl_conjunction left n h)
        fun k => foldl_disjunction right _ (inValue_past h k)

theorem foldl_conjunction : ∀ (d : Conjunction) (n : Nest), n.inValue = false →
    d.tokens.foldl step n = n.past d.tokens.length
  | .single left, n, h => foldl_phrase left n h
  | .link left right, n, h =>
      foldl_chain (.inl rfl) (foldl_phrase left n h)
        fun k => foldl_conjunction right _ (inValue_past h k)

theorem foldl_phrase : ∀ (d : Phrase) (n : Nest), n.inValue = false →
    d.tokens.foldl step n = n.past d.tokens.length
  | .group inner, n, h =>
      foldl_parentheses (foldl_disjunction inner _ (inValue_step_leftParen h))
  | .presence name, n, _ => rfl
  | .comparison name op v, n, _ => by
      rw [Phrase.tokens, List.foldl_cons, List.foldl_cons, step_operatorToken,
        foldl_argument v _ rfl]
      simp only [past, step, List.length_cons]
      congr 1
      omega

end

end Nest

theorem nest_append (ts us : List Token) : nest (ts ++ us) = us.foldl Nest.step (nest ts) :=
  List.foldl_append

theorem count_nest (ts : List Token) : (nest ts).count = ts.length := by
  rw [nest, Nest.count_foldl]
  exact Nat.zero_add _

/-- A group is the innermost one that is open behind a complete filter in it. -/
theorem innermostGroup_open {ts us : List Token} (h : (nest ts).inValue = false)
    (hus : us.foldl Nest.step ((nest ts).step .leftParen) =
      ((nest ts).step .leftParen).past us.length) :
    innermostGroup (ts ++ .leftParen :: us) = some ts.length := by
  rw [innermostGroup, nest_append, List.foldl_cons, hus, Nest.step, if_neg (by simp [h])]
  simp [Nest.past, count_nest]

/-- One more token keeps it that the places in the stack are those of parentheses. -/
theorem opens_of_step {ts : List Token} (t : Token)
    (h : ∀ k, some k ∈ (nest ts).stack → ts[k]? = some .leftParen) :
    ∀ k, some k ∈ (nest (ts ++ [t])).stack → (ts ++ [t])[k]? = some .leftParen := by
  have hkeeps {k : Nat} (hk : some k ∈ (nest ts).stack) : (ts ++ [t])[k]? = some .leftParen := by
    obtain ⟨hlt, -⟩ := List.getElem?_eq_some_iff.1 (h k hk)
    rw [List.getElem?_append_left hlt, h k hk]
  intro k hk
  rw [nest_append, List.foldl_cons, List.foldl_nil] at hk
  cases t with
  | leftParen =>
    rcases List.mem_cons.1 hk with hnew | hold
    · split at hnew
      · cases hnew
      · rw [Option.some.inj hnew, count_nest]
        simp
    · exact hkeeps hold
  | rightParen => exact hkeeps (List.mem_of_mem_tail hk)
  | _ => exact hkeeps hk

/-- At the place of a group there is its opening parenthesis. -/
theorem getElem?_innermostGroup {ts : List Token} {k : Nat} (h : innermostGroup ts = some k) :
    ts[k]? = some .leftParen := by
  have opens : ∀ us vs : List Token, (∀ k, some k ∈ (nest us).stack → us[k]? = some .leftParen) →
      ∀ k, some k ∈ (nest (us ++ vs)).stack → (us ++ vs)[k]? = some .leftParen := by
    intro us vs
    induction vs generalizing us with
    | nil => simp
    | cons t vs ih =>
      intro hus
      rw [List.append_cons]
      exact ih _ (opens_of_step t hus)
  obtain ⟨entry, hmem, hentry⟩ := List.exists_of_findSome?_eq_some h
  obtain rfl : entry = some k := hentry
  exact opens [] ts (by simp [nest]) k hmem

end Grammar
end Criteria
